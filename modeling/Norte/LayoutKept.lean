import Mathlib.Data.List.Perm.Basic
import Norte.LayoutEdits

/-! What an edit of the window tree keeps: the shape of every split and group, an active tab
that was in range, and the leaves, up to the ones it takes out and the ones it puts in. Every
edit is shown to keep them at the node where it acts, and `Kept.child` carries that to the
root. -/
namespace Norte.Layout.Node

variable {P : Type}

/-- The active tab of a group is one of its tabs, unless a group of so many tabs with that
active is let pass. -/
def InRangeOr (astray : Nat → Nat → Prop) : Node P → Prop
  | tabs children active => active < children.length ∨ astray children.length active
  | _ => True

/-- `new` comes from `old`, with the leaves `gone` taken out and the leaves `made` put in. -/
structure Kept (old new : Node P) (gone made : List (Node P)) : Prop where
  formed : new.All Formed
  ranged : ∀ astray, old.All (InRangeOr astray) → new.All (InRangeOr astray)
  leaves : (new.leaves ++ gone).Perm (old.leaves ++ made)

theorem Kept.refl {n : Node P} (formed : n.All Formed) : Kept n n [] [] :=
  ⟨formed, fun _ => id, .refl _⟩

theorem Kept.trans {a b c : Node P} {gone made gone' made' : List (Node P)} (first : Kept a b gone made)
    (second : Kept b c gone' made') : Kept a c (gone' ++ gone) (made' ++ made) where
  formed := second.formed
  ranged astray := second.ranged astray ∘ first.ranged astray
  leaves := by
    calc c.leaves ++ (gone' ++ gone)
      _ = c.leaves ++ gone' ++ gone := (List.append_assoc ..).symm
      _ |>.Perm (b.leaves ++ made' ++ gone) := second.leaves.append_right gone
      _ |>.Perm (b.leaves ++ gone ++ made') := by
        rw [List.append_assoc, List.append_assoc]
        exact List.perm_append_comm.append_left _
      _ |>.Perm (a.leaves ++ made ++ made') := first.leaves.append_right made'
      _ |>.Perm (a.leaves ++ (made' ++ made)) := by
        rw [List.append_assoc]
        exact List.perm_append_comm.append_left _

/-- What is taken out and put in again is where it was. -/
theorem Kept.cancel {a b : Node P} {moved : List (Node P)} (kept : Kept a b moved moved) : Kept a b [] [] :=
  ⟨kept.formed, kept.ranged, by simpa using (List.perm_append_right_iff moved).mp kept.leaves⟩

theorem flatMap_set_perm {cs : List (Node P)} {i : Nat} {c c' : Node P} {gone made : List (Node P)}
    (there : cs[i]? = some c) (perm : (c'.leaves ++ gone).Perm (c.leaves ++ made)) :
    ((cs.set i c').flatMap leaves ++ gone).Perm (cs.flatMap leaves ++ made) := by
  induction cs generalizing i with
  | nil => simp at there
  | cons d ds rest =>
    cases i with
    | zero =>
      obtain rfl : d = c := by simpa using there
      rw [List.set_cons_zero, List.flatMap_cons, List.flatMap_cons]
      calc c'.leaves ++ ds.flatMap leaves ++ gone
        _ |>.Perm (c'.leaves ++ gone ++ ds.flatMap leaves) := by
          rw [List.append_assoc, List.append_assoc]
          exact List.perm_append_comm.append_left _
        _ |>.Perm (d.leaves ++ made ++ ds.flatMap leaves) := perm.append_right _
        _ |>.Perm (d.leaves ++ ds.flatMap leaves ++ made) := by
          rw [List.append_assoc, List.append_assoc]
          exact List.perm_append_comm.append_left _
    | succ i =>
      rw [List.set_cons_succ, List.flatMap_cons, List.flatMap_cons, List.append_assoc, List.append_assoc]
      exact (rest (by simpa using there)).append_left _

theorem all_set {p : Node P → Prop} {cs : List (Node P)} {i : Nat} {c' : Node P} (old : ∀ c ∈ cs, c.All p)
    (new : c'.All p) : ∀ c ∈ cs.set i c', c.All p := by
  intro c member
  obtain member | rfl := List.mem_or_eq_of_mem_set member
  · exact old c member
  · exact new

/-- What an edit keeps of a child it keeps of the node. -/
theorem Kept.child {n c c' : Node P} {i : Nat} {gone made : List (Node P)} (formed : n.All Formed)
    (there : n.children[i]? = some c) (kept : Kept c c' gone made) : Kept n (n.withChild i c') gone made := by
  have member : c ∈ n.children := List.mem_of_getElem? there
  have all := (all_iff n).mp formed
  cases n with
  | slot id kind p b => cases there
  | split d cs zs =>
    refine ⟨(all_iff _).mpr ⟨?_, all_set all.2 kept.formed⟩, fun astray ranged => ?_, ?_⟩
    · exact ⟨by simpa [withChild] using all.1.1, by simpa using all.1.2⟩
    · have ranged := (all_iff _).mp ranged
      exact (all_iff _).mpr ⟨trivial, all_set ranged.2 (kept.ranged astray (ranged.2 c member))⟩
    · rw [withChild, leaves_split, leaves_split]
      exact flatMap_set_perm there kept.leaves
  | tabs cs a =>
    refine ⟨(all_iff _).mpr ⟨?_, all_set all.2 kept.formed⟩, fun astray ranged => ?_, ?_⟩
    · simpa [Formed, withChild] using all.1
    · have ranged := (all_iff _).mp ranged
      exact (all_iff _).mpr ⟨by simpa [InRangeOr, withChild] using ranged.1,
        all_set ranged.2 (kept.ranged astray (ranged.2 c member))⟩
    · rw [withChild, leaves_tabs, leaves_tabs]
      exact flatMap_set_perm there kept.leaves

/-- A leaf is in shape, in range and its own only leaf. -/
theorem alone {new : Node P} (isLeaf : new.isSlot = true) :
    new.leaves = [new] ∧ new.All Formed ∧ ∀ astray, new.All (InRangeOr astray) := by
  cases new with
  | slot id kind p b => exact ⟨rfl, (all_iff _).mpr ⟨trivial, by simp⟩, fun _ => (all_iff _).mpr ⟨trivial, by simp⟩⟩
  | split d cs zs => cases isLeaf
  | tabs cs a => cases isLeaf

section sibling

variable {d d' : Dir} {cs : List (Node P)} {zs zs' : List Size} {new : Node P} {i : Nat}

/-- A leaf that enters a split as one more child. -/
theorem sibling_kept (formed : (split d cs zs).All Formed) (isLeaf : new.isSlot = true) (inside : i ≤ cs.length)
    (sized : zs'.length = cs.length + 1) :
    Kept (split d cs zs) (split d' (cs.insertIdx i new) zs') [] [new] := by
  obtain ⟨own, shape, range⟩ := alone isLeaf
  have all := (all_iff _).mp formed
  have members {p : Node P → Prop} (old : ∀ c ∈ cs, c.All p) (entered : new.All p) : ∀ c ∈ cs.insertIdx i new, c.All p := by
    intro c member
    obtain rfl | member := (List.mem_insertIdx inside).mp member
    · exact entered
    · exact old c member
  have length := List.length_insertIdx_of_le_length inside new
  refine ⟨(all_iff _).mpr ⟨⟨?_, by rw [length, sized]⟩, members all.2 shape⟩, fun astray ranged => ?_, ?_⟩
  · intro empty
    rw [empty] at length
    cases length
  · exact (all_iff _).mpr ⟨trivial, members ((all_iff _).mp ranged).2 (range astray)⟩
  · rw [leaves_split, leaves_split, List.append_nil]
    refine ((List.perm_insertIdx new cs inside).flatMap_right leaves).trans ?_
    rw [List.flatMap_cons, own]
    exact List.perm_append_comm

end sibling

theorem wrapped_kept {edge : Edge} {size rest : Size} {new n : Node P} (formed : n.All Formed)
    (isLeaf : new.isSlot = true) : Kept n (wrapped edge size rest new n) [] [new] := by
  obtain ⟨own, shape, range⟩ := alone isLeaf
  rw [wrapped]
  split
  · refine ⟨(all_iff _).mpr ⟨⟨by simp, rfl⟩, by simp [formed, shape]⟩, fun astray ranged => ?_, ?_⟩
    · exact (all_iff _).mpr ⟨trivial, by simp [ranged, range astray]⟩
    · simp only [leaves_split, List.flatMap_cons, List.flatMap_nil, own, List.append_nil]
      exact List.perm_append_comm
  · refine ⟨(all_iff _).mpr ⟨⟨by simp, rfl⟩, by simp [formed, shape]⟩, fun astray ranged => ?_, ?_⟩
    · exact (all_iff _).mpr ⟨trivial, by simp [ranged, range astray]⟩
    · simp [own]

/-! Searching the children. -/

theorem contains_iff {id : SlotId} {n : Node P} : n.contains id = true ↔ id ∈ n.slotIds := by
  simp [contains]

theorem mem_slotIds {id : SlotId} {n : Node P} (inner : n.isSlot = false) :
    id ∈ n.slotIds ↔ ∃ c ∈ n.children, id ∈ c.slotIds := by
  have ids : n.slotIds = (n.children.map slotIds).flatten := by
    cases n with
    | slot i k p b => cases inner
    | split d cs zs => exact walk_eq _ _
    | tabs cs a => exact walk_eq _ _
  simp [ids]

theorem position_some {id : SlotId} {cs : List (Node P)} {pos : Nat} (found : position id cs = some pos) :
    ∃ c, cs[pos]? = some c ∧ id ∈ c.slotIds := by
  obtain ⟨lt, inside, _⟩ := List.findIdx?_eq_some_iff_getElem.mp found
  exact ⟨cs[pos], List.getElem?_eq_getElem lt, contains_iff.mp inside⟩

theorem position_none {id : SlotId} {cs : List (Node P)} (missing : position id cs = none) :
    ∀ c ∈ cs, id ∉ c.slotIds := by
  intro c member inside
  have absent := List.findIdx?_eq_none_iff.mp missing c member
  rw [contains_iff.mpr inside] at absent
  cases absent

theorem position_of_mem {id : SlotId} {n : Node P} (inner : n.isSlot = false) (member : id ∈ n.slotIds) :
    ∃ pos c, position id n.children = some pos ∧ n.children[pos]? = some c ∧ id ∈ c.slotIds := by
  cases found : position id n.children with
  | none =>
    obtain ⟨c, there, inside⟩ := (mem_slotIds inner).mp member
    exact absurd inside (position_none found c there)
  | some pos =>
    obtain ⟨c, there, inside⟩ := position_some found
    exact ⟨pos, c, rfl, there, inside⟩

theorem firstSome_some {l : List (Option α)} {i : Nat} {a : α} (first : firstSome l = some (i, a)) :
    l[i]? = some (some a) := by
  induction l generalizing i with
  | nil => cases first
  | cons x rest later =>
    cases x with
    | some b =>
      cases first
      rfl
    | none =>
      obtain ⟨⟨j, b⟩, found, eq⟩ := Option.map_eq_some_iff.mp first
      cases eq
      exact later found

theorem firstSome_none {l : List (Option α)} (none_ : firstSome l = none) : ∀ x ∈ l, x = none := by
  induction l with
  | nil => simp
  | cons x rest later =>
    cases x with
    | some b => cases none_
    | none => exact List.forall_mem_cons.mpr ⟨rfl, later (Option.map_eq_none_iff.mp none_)⟩

/-- The first child the recursion changes. -/
theorem firstSome_map {f : Node P → Option (Node P)} {cs : List (Node P)} {i : Nat} {c' : Node P}
    (first : firstSome (cs.map f) = some (i, c')) : ∃ c, cs[i]? = some c ∧ c ∈ cs ∧ f c = some c' := by
  have at_ := firstSome_some first
  rw [List.getElem?_map] at at_
  obtain ⟨c, there, done⟩ := Option.map_eq_some_iff.mp at_
  exact ⟨c, there, List.mem_of_getElem? there, done⟩

/-! Splitting a slot. -/

theorem isSlotOf_iff {id : SlotId} {n : Node P} : n.isSlotOf id = true ↔ n.isSlot = true ∧ id ∈ n.slotIds := by
  cases n with
  | slot i k p b => simp [isSlotOf, isSlot, slotIds, walk, eq_comm]
  | split d cs zs => simp [isSlotOf, isSlot]
  | tabs cs a => simp [isSlotOf, isSlot]

theorem length_resize {zs : List Size} {n : Nat} {filler : Size} : (resize zs n filler).length = n := by
  rw [resize, List.length_append, List.length_take, List.length_replicate]
  omega

theorem splitSlot_split (id : SlotId) (dir : Dir) (new : Node P) (d : Dir) (cs : List (Node P)) (zs : List Size) :
    splitSlot id dir new (split d cs zs) =
    match (if d = dir then cs.findIdx? (isSlotOf id) else none) with
    | some i =>
      match zs.getD i (.weight 1) with
      | .weight weight =>
        split d (cs.insertIdx (i + 1) new) ((resize zs cs.length (.weight 1)).insertIdx (i + 1) (.weight weight))
      | _ => split d (cs.map (splitSlot id dir new)) zs
    | none => split d (cs.map (splitSlot id dir new)) zs :=
  walk_eq _ _

theorem splitSlot_tabs (id : SlotId) (dir : Dir) (new : Node P) (cs : List (Node P)) (a : Nat) :
    splitSlot id dir new (tabs cs a) = tabs (cs.map (splitSlot id dir new)) a :=
  walk_eq _ _

/-- A slot that is not there is not split. -/
theorem splitSlot_absent {id : SlotId} {dir : Dir} {new : Node P} (n : Node P) :
    id ∉ n.slotIds → splitSlot id dir new n = n := by
  induction n using induct with
  | step n below =>
    intro absent
    have same (inner : n.isSlot = false) : n.children.map (splitSlot id dir new) = n.children := by
      refine (List.map_congr_left fun c member => ?_).trans (List.map_id _)
      exact below c member fun inside => absent ((mem_slotIds inner).mpr ⟨c, member, inside⟩)
    cases n with
    | slot i k p b =>
      have other : ¬i = id := fun eq => absent (by simp [slotIds, walk, eq])
      simp [splitSlot, walk, other]
    | split d cs zs =>
      have none_ : (if d = dir then cs.findIdx? (isSlotOf id) else none) = none := by
        split
        · rw [List.findIdx?_eq_none_iff]
          intro c member
          rw [Bool.eq_false_iff]
          exact fun is => absent ((mem_slotIds rfl).mpr ⟨c, member, (isSlotOf_iff.mp is).2⟩)
        · rfl
      rw [splitSlot_split, none_]
      exact congrArg (split d · zs) (same rfl)
    | tabs cs a =>
      rw [splitSlot_tabs]
      exact congrArg (tabs · a) (same rfl)

/-- When no id is there twice, a function that changes only nodes with `id` changes one child. -/
theorem map_eq_set {id : SlotId} {f : Node P → Node P} (still : ∀ n, id ∉ n.slotIds → f n = n) :
    ∀ {cs : List (Node P)} {i : Nat} {c : Node P}, (cs.flatMap slotIds).Nodup → cs[i]? = some c → id ∈ c.slotIds →
      cs.map f = cs.set i (f c)
  | d :: ds, 0, c, once, there, inside => by
    obtain rfl : d = c := by simpa using there
    rw [List.flatMap_cons] at once
    have rest : ds.map f = ds := by
      refine (List.map_congr_left fun c member => ?_).trans (List.map_id _)
      exact still c fun again => (List.disjoint_of_nodup_append once) inside (List.mem_flatMap.mpr ⟨c, member, again⟩)
    rw [List.map_cons, List.set_cons_zero, rest]
  | d :: ds, i + 1, c, once, there, inside => by
    have there : ds[i]? = some c := by simpa using there
    rw [List.flatMap_cons] at once
    have first : f d = d := still d fun again =>
      (List.disjoint_of_nodup_append once) again (List.mem_flatMap.mpr ⟨c, List.mem_of_getElem? there, inside⟩)
    rw [List.map_cons, List.set_cons_succ, first, map_eq_set still (List.nodup_append.mp once).2.1 there inside]

theorem splitSlot_kept {id : SlotId} {dir : Dir} {new : Node P} (isLeaf : new.isSlot = true) (n : Node P) :
    n.All Formed → n.slotIds.Nodup → id ∈ n.slotIds → Kept n (splitSlot id dir new n) [] [new] := by
  induction n using induct with
  | step n below =>
    intro formed once member
    have all := (all_iff n).mp formed
    have inner (isInner : n.isSlot = false) : ∃ i, Kept n (n.withChild i (splitSlot id dir new (n.children.getD i n))) [] [new] ∧
        n.children.map (splitSlot id dir new) = n.children.set i (splitSlot id dir new (n.children.getD i n)) := by
      obtain ⟨i, c, _, there, inside⟩ := position_of_mem isInner member
      rw [slotIds_children isInner] at once
      have member := List.mem_of_getElem? there
      have own : c.slotIds.Nodup := (List.nodup_flatMap.mp once).1 c member
      refine ⟨i, ?_, ?_⟩
      · rw [List.getD_eq_getElem?_getD, there]
        exact Kept.child formed there (below c member (all.2 c member) own inside)
      · rw [List.getD_eq_getElem?_getD, there]
        exact map_eq_set (fun n => splitSlot_absent n) once there inside
    cases n with
    | slot i k p b =>
      have same : i = id := by simpa [slotIds, walk, eq_comm] using member
      have eq : splitSlot id dir new (slot i k p b) = splitOf dir [slot i k p b, new] := by simp [splitSlot, walk, same]
      rw [eq]
      cases dir with
      | horizontal => exact @wrapped_kept P .right (.weight 1) (.weight 1) new _ formed isLeaf
      | vertical => exact @wrapped_kept P .bottom (.weight 1) (.weight 1) new _ formed isLeaf
    | split d cs zs =>
      obtain ⟨i, kept, eq⟩ := inner rfl
      have deeper : Kept (split d cs zs) (split d (cs.map (splitSlot id dir new)) zs) [] [new] := by
        rw [show cs.map _ = _ from eq]
        exact kept
      rw [splitSlot_split]
      split
      · rename_i j found
        split
        · have inside : j < cs.length := by
            split at found
            · exact (List.findIdx?_eq_some_iff_getElem.mp found).1
            · cases found
          apply sibling_kept formed isLeaf inside
          rw [List.length_insertIdx_of_le_length (by rw [length_resize]; exact inside), length_resize]
        · exact deeper
      · exact deeper
    | tabs cs a =>
      obtain ⟨i, kept, eq⟩ := inner rfl
      rw [splitSlot_tabs, show cs.map _ = _ from eq]
      exact kept

/-! Docking. -/

/-- What the recursion returns for the child at a position. -/
theorem getD_map {f : Node P → β} {cs : List (Node P)} {i : Nat} {c : Node P} {d : β} (there : cs[i]? = some c) :
    (cs.map f).getD i d = f c := by
  rw [List.getD_eq_getElem?_getD, List.getElem?_map, there]
  rfl

/-- The sizes of a split are no part of what is kept, as long as there are as many. -/
theorem Kept.resized {old : Node P} {d : Dir} {cs : List (Node P)} {zs zs' : List Size} {gone made : List (Node P)}
    (kept : Kept old (split d cs zs) gone made) (same : zs'.length = zs.length) :
    Kept old (split d cs zs') gone made where
  formed := by
    have all := (all_iff _).mp kept.formed
    exact (all_iff _).mpr ⟨⟨all.1.1, same.trans all.1.2⟩, all.2⟩
  ranged := fun astray ranged => (all_iff _).mpr ⟨trivial, ((all_iff _).mp (kept.ranged astray ranged)).2⟩
  leaves := by simpa using kept.leaves

/-- A panel or a group of panels takes one more tab, which becomes the active one. -/
theorem groupWith_kept {c new : Node P} (formed : c.All Formed) (isLeaf : new.isSlot = true) :
    Kept c (tabs (groupWith c new) ((groupWith c new).length - 1)) [] [new] := by
  obtain ⟨own, shape, range⟩ := alone isLeaf
  have filled : groupWith c new ≠ [] := by cases c <;> simp [groupWith]
  have last : (groupWith c new).length - 1 < (groupWith c new).length :=
    Nat.sub_one_lt (List.length_eq_zero_iff.not.mpr filled)
  have members {p : Node P → Prop} (old : c.All p) (entered : new.All p) : ∀ m ∈ groupWith c new, m.All p := by
    cases c with
    | tabs panels a =>
      have inside := ((all_iff _).mp old).2
      intro m member
      obtain member | member := List.mem_append.mp member
      · exact inside m member
      · rw [List.mem_singleton.mp member]
        exact entered
    | split d cs zs => simp [groupWith, old, entered]
    | slot i k p b => simp [groupWith, old, entered]
  refine ⟨(all_iff _).mpr ⟨filled, members formed shape⟩, fun astray ranged => (all_iff _).mpr ⟨.inl last, members ranged (range astray)⟩, ?_⟩
  rw [leaves_tabs]
  cases c <;> simp [groupWith, own]

theorem dockInner_kept {anchor : SlotId} {edge : Edge} {size : Size} {new : Node P} {agrupar : Bool}
    (isLeaf : new.isSlot = true) (n : Node P) :
    ∀ after, n.All Formed → dockInner anchor edge size new agrupar n = some after → Kept n after [] [new] := by
  induction n using induct with
  | step n below =>
    intro after formed done
    have all := (all_iff n).mp formed
    rw [dockInner, walk_eq] at done
    obtain ⟨pos, found, done⟩ := Option.bind_eq_some_iff.mp done
    obtain ⟨c, there, _⟩ := position_some found
    have member := List.mem_of_getElem? there
    split at done
    · rename_i changed inside
      obtain rfl := Option.some.inj done
      refine Kept.child formed there (below c member changed (all.2 c member) ?_)
      rwa [getD_map there] at inside
    · cases n with
      | slot i k p b => cases done
      | tabs cs a => cases done
      | split d cs zs =>
        dsimp only at done
        split at done
        · cases done
        · split at done
          · rename_i v c joined
            obtain rfl := Option.some.inj done
            obtain ⟨v', _, joined⟩ := Option.bind_eq_some_iff.mp joined
            obtain ⟨c', at_, joined⟩ := Option.bind_eq_some_iff.mp joined
            split at joined
            · cases joined
              have kept := Kept.child formed at_ (groupWith_kept (all.2 _ (List.mem_of_getElem? at_)) isLeaf)
              refine kept.resized ?_
              split
              · exact List.length_set
              · rfl
            · cases joined
          · obtain rfl := Option.some.inj done
            have at_ : (if edge.isFront then 0 else cs.length - trailing cs) ≤ cs.length := by
              split
              · exact Nat.zero_le _
              · exact Nat.sub_le ..
            refine sibling_kept formed isLeaf at_ ?_
            rw [List.length_insertIdx_of_le_length (Nat.min_le_right ..), all.1.2]

theorem dockCon_kept {anchor : SlotId} {edge : Edge} {size : Size} {new : Node P} {agrupar : Bool}
    (isLeaf : new.isSlot = true) {n : Node P} (formed : n.All Formed) (inside : anchor ∈ n.slotIds) :
    Kept n (dockCon anchor edge size new agrupar n) [] [new] := by
  have there : (!n.contains anchor) = false := by rw [contains_iff.mpr inside, Bool.not_true]
  rw [dockCon, there]
  cases done : dockInner anchor edge size new agrupar n with
  | none => exact wrapped_kept formed isLeaf
  | some after => exact dockInner_kept isLeaf n after formed done

/-! Closing. -/

inductive Within : Node P → Node P → Prop where
  | refl (n : Node P) : Within n n
  | child {m c n : Node P} : c ∈ n.children → Within m c → Within m n

theorem all_within {p : Node P → Prop} (n : Node P) : n.All p ↔ ∀ m, Within m n → p m := by
  induction n using induct with
  | step n below =>
    rw [all_iff]
    constructor
    · rintro ⟨own, inner⟩ m within
      cases within with
      | refl => exact own
      | child member within => exact (below _ member).mp (inner _ member) m within
    · intro every
      refine ⟨every n (.refl n), fun c member => (below c member).mpr fun m within => ?_⟩
      exact every m (.child member within)

/-- A group whose active tab is none of its tabs was there, with as many tabs and that active. -/
theorem Kept.astray {old new : Node P} {gone made : List (Node P)} (kept : Kept old new gone made)
    {tabs' : List (Node P)} {active : Nat} (within : Within (tabs tabs' active) new)
    (out : tabs'.length ≤ active) :
    ∃ before, before.length = tabs'.length ∧ Within (tabs before active) old := by
  have ranged := (all_within new).mp (kept.ranged
    (fun count active => ∃ before, before.length = count ∧ Within (tabs before active) old) ?_) _ within
  · exact ranged.resolve_left (Nat.not_lt.mpr out)
  · apply (all_within old).mpr
    intro m within
    cases m with
    | slot i k p b => trivial
    | split d cs zs => trivial
    | tabs cs a => exact .inr ⟨cs, rfl, within⟩

theorem Kept.inRange {old new : Node P} {gone made : List (Node P)} (kept : Kept old new gone made)
    (ranged : old.All InRange) : new.All InRange := by
  apply (all_within new).mpr
  intro m within
  cases m with
  | slot i k p b => trivial
  | split d cs zs => trivial
  | tabs cs a =>
    apply Nat.lt_of_not_le
    intro out
    obtain ⟨before, count, there⟩ := kept.astray within out
    have active : a < before.length := (all_within old).mp ranged _ there
    omega

/-- `g` is a group of several tabs, and `c` its tab with slot `id`. -/
def HasTab (id : SlotId) (g c : Node P) : Prop :=
  ∃ children active, g = tabs children active ∧ 1 < children.length ∧ c ∈ children ∧ id ∈ c.slotIds

/-- The tab of the innermost group of several tabs around slot `id`. -/
structure InnermostTab (id : SlotId) (tree c : Node P) : Prop where
  group : ∃ g, Within g tree ∧ HasTab id g c
  innermost : ∀ g, Within g c → ∀ t, ¬HasTab id g t

section erase

variable {cs : List (Node P)} {pos : Nat} {c : Node P}

theorem flatMap_eraseIdx_perm (there : cs[pos]? = some c) :
    ((cs.eraseIdx pos).flatMap leaves ++ c.leaves).Perm (cs.flatMap leaves) := by
  obtain ⟨lt, rfl⟩ := List.getElem?_eq_some_iff.mp there
  exact List.perm_append_comm.trans ((List.getElem_cons_eraseIdx_perm lt).flatMap_right leaves)

theorem only_kept {n only : Node P} (inner : n.isSlot = false) (formed : n.All Formed) (there : n.children[pos]? = some c)
    (left : n.children.eraseIdx pos = [only]) : Kept n only c.leaves [] := by
  have member : only ∈ n.children := List.mem_of_mem_eraseIdx (by rw [left]; exact List.mem_singleton_self only)
  refine ⟨((all_iff n).mp formed).2 only member, fun astray ranged => ((all_iff n).mp ranged).2 only member, ?_⟩
  have perm := flatMap_eraseIdx_perm there
  rw [left, List.flatMap_singleton] at perm
  rw [List.append_nil, leaves_eq n inner]
  exact perm

theorem fewer_tabs_kept {a b : Nat} (formed : (tabs cs a).All Formed) (there : cs[pos]? = some c)
    (several : 1 < cs.length) :
    Kept (tabs cs a) (tabs (cs.eraseIdx pos) (min b ((cs.eraseIdx pos).length - 1))) c.leaves [] := by
  have lt := (List.getElem?_eq_some_iff.mp there).1
  have length := List.length_eraseIdx_of_lt lt
  have members {p : Node P → Prop} (old : ∀ c ∈ cs, c.All p) : ∀ c ∈ cs.eraseIdx pos, c.All p :=
    fun c member => old c (List.mem_of_mem_eraseIdx member)
  refine ⟨(all_iff _).mpr ⟨?_, members ((all_iff _).mp formed).2⟩, fun astray ranged => ?_, ?_⟩
  · intro empty
    rw [empty, List.length_nil] at length
    omega
  · refine (all_iff _).mpr ⟨?_, members ((all_iff _).mp ranged).2⟩
    apply Or.inl
    show min b ((cs.eraseIdx pos).length - 1) < (cs.eraseIdx pos).length
    omega
  · rw [leaves_tabs, leaves_tabs, List.append_nil]
    exact flatMap_eraseIdx_perm there

end erase

theorem closeTabHere_kept {id : SlotId} {n after : Node P} (formed : n.All Formed)
    (done : closeTabHere id n = some after) : ∃ pos c, n.children[pos]? = some c ∧ position id n.children = some pos ∧
      HasTab id n c ∧ Kept n after c.leaves [] := by
  cases n with
  | slot i k p b => cases done
  | split d cs zs => cases done
  | tabs cs a =>
    rw [closeTabHere] at done
    split at done
    · cases done
    · rename_i several
      split at done
      · rename_i pos found
        obtain ⟨c, there, inside⟩ := position_some found
        refine ⟨pos, c, there, found, ⟨cs, a, rfl, by omega, List.mem_of_getElem? there, inside⟩, ?_⟩
        split at done
        · rename_i only left
          obtain rfl := Option.some.inj done
          exact only_kept rfl formed there left
        · obtain rfl := Option.some.inj done
          exact fewer_tabs_kept formed there (by omega)
      · cases done

theorem closeTabHere_none {id : SlotId} {n : Node P} (none_ : closeTabHere id n = none) (c : Node P) : ¬HasTab id n c := by
  rintro ⟨cs, a, rfl, several, member, inside⟩
  have present : id ∈ (tabs cs a).slotIds := (mem_slotIds rfl).mpr ⟨c, member, inside⟩
  obtain ⟨pos, _, found, _⟩ := position_of_mem rfl present
  rw [closeTabHere, if_neg (by omega), show position id cs = some pos from found] at none_
  dsimp only at none_
  split at none_ <;> cases none_

theorem closeTab_eq (id : SlotId) (n : Node P) : n.closeTab id =
    match firstSome (n.children.map (closeTab id)) with
    | some (i, changed) => some (n.withChild i changed)
    | none => closeTabHere id n :=
  walk_eq _ _

theorem closeTab_none {id : SlotId} (n : Node P) :
    n.closeTab id = none → ∀ g, Within g n → ∀ t, ¬HasTab id g t := by
  induction n using induct with
  | step n below =>
    intro none_ g within
    rw [closeTab_eq] at none_
    split at none_
    · cases none_
    · rename_i nothing
      cases within with
      | child member within => exact below _ member (firstSome_none nothing _ (List.mem_map_of_mem member)) g within
      | refl => exact closeTabHere_none none_

theorem closeTab_kept {id : SlotId} (n : Node P) :
    ∀ after, n.All Formed → n.closeTab id = some after → ∃ c, InnermostTab id n c ∧ Kept n after c.leaves [] := by
  induction n using induct with
  | step n below =>
    intro after formed done
    have all := (all_iff n).mp formed
    rw [closeTab_eq] at done
    split at done
    · rename_i i changed first
      obtain rfl := Option.some.inj done
      obtain ⟨c, there, member, inside⟩ := firstSome_map first
      obtain ⟨t, ⟨⟨g, within, has⟩, innermost⟩, kept⟩ := below c member changed (all.2 c member) inside
      exact ⟨t, ⟨⟨g, .child member within, has⟩, innermost⟩, Kept.child formed there kept⟩
    · rename_i nothing
      obtain ⟨pos, c, there, _, has, kept⟩ := closeTabHere_kept formed done
      have quiet : c.closeTab id = none := firstSome_none nothing _ (List.mem_map_of_mem (List.mem_of_getElem? there))
      exact ⟨c, ⟨⟨n, .refl n, has⟩, closeTab_none c quiet⟩, kept⟩

theorem closeSlot_eq (id : SlotId) (n : Node P) : n.closeSlot id =
    match firstSome (n.children.map (closeSlot id)) with
    | some (i, changed) => some (n.withChild i changed)
    | none => closeSlotHere id n :=
  walk_eq _ _

/-- A slot that cannot be closed is in no group of several tabs. -/
theorem closeTab_of_closeSlot {id : SlotId} (n : Node P) : n.closeSlot id = none → n.closeTab id = none := by
  induction n using induct with
  | step n below =>
    intro none_
    rw [closeSlot_eq] at none_
    split at none_
    · cases none_
    · rename_i nothing
      cases done : n.closeTab id with
      | none => rfl
      | some after =>
        have done' := done
        rw [closeTab_eq] at done
        split at done
        · rename_i first
          obtain ⟨c, _, member, inside⟩ := firstSome_map first
          rw [below c member (firstSome_none nothing _ (List.mem_map_of_mem member))] at inside
          cases inside
        · cases n with
          | slot i k p b => cases done
          | split d cs zs => cases done
          | tabs cs a =>
            rw [closeTabHere] at done
            split at done
            · cases done
            · rename_i several
              split at done
              · rename_i pos found
                rw [closeSlotHere, show position id (tabs cs a).children = some pos from found] at none_
                simp only [Option.bind_eq_bind, Option.bind_some, Node.children] at none_
                exact done'.symm.trans ((if_neg several).symm.trans none_)
              · cases done

/-- A node that holds a slot and cannot close it has no other leaf. -/
theorem closeSlot_none {id : SlotId} (n : Node P) :
    n.closeSlot id = none → id ∈ n.slotIds → ∃ leaf, n.leaves = [leaf] ∧ leaf.leafId = some id := by
  induction n using induct with
  | step n below =>
    intro none_ member
    cases inner : n.isSlot with
    | true =>
      cases n with
      | slot i k p b =>
        have same : i = id := by simpa [slotIds, walk, eq_comm] using member
        exact ⟨_, rfl, by rw [leafId, same]⟩
      | split d cs zs => cases inner
      | tabs cs a => cases inner
    | false =>
      obtain ⟨pos, c, found, there, inside⟩ := position_of_mem inner member
      have none_' := none_
      rw [closeSlot_eq] at none_
      split at none_
      · cases none_
      · rename_i nothing
        have inChildren := List.mem_of_getElem? there
        obtain ⟨leaf, own, named⟩ := below c inChildren (firstSome_none nothing _ (List.mem_map_of_mem inChildren)) inside
        refine ⟨leaf, ?_, named⟩
        have few : n.children.length ≤ 1 := by
          by_contra several
          rw [closeSlotHere, found] at none_
          simp only [Option.bind_eq_bind, Option.bind_some, if_neg several] at none_
          cases n with
          | slot i k p b => cases inner
          | split d cs zs => dsimp only at none_; split at none_ <;> cases none_
          | tabs cs a =>
            refine closeTab_none _ (closeTab_of_closeSlot _ none_') _ (.refl _) c ⟨cs, a, rfl, ?_, inChildren, inside⟩
            simpa using several
        have single : n.children = [c] := by
          obtain ⟨d, one⟩ := List.length_eq_one_iff.mp (le_antisymm few (List.length_pos_of_mem inChildren))
          rw [one] at inChildren ⊢
          rw [List.mem_singleton.mp inChildren]
        rw [leaves_eq n inner, single, List.flatMap_singleton, own]

theorem closeSlot_kept {id : SlotId} (n : Node P) :
    ∀ after, n.All Formed → n.closeSlot id = some after → ∃ leaf, leaf.leafId = some id ∧ Kept n after [leaf] [] := by
  induction n using induct with
  | step n below =>
    intro after formed done
    have all := (all_iff n).mp formed
    rw [closeSlot_eq] at done
    split at done
    · rename_i i changed first
      obtain rfl := Option.some.inj done
      obtain ⟨c, there, member, inside⟩ := firstSome_map first
      obtain ⟨leaf, named, kept⟩ := below c member changed (all.2 c member) inside
      exact ⟨leaf, named, Kept.child formed there kept⟩
    · rename_i nothing
      obtain ⟨pos, found, done⟩ := Option.bind_eq_some_iff.mp done
      obtain ⟨c, there, inside⟩ := position_some found
      have member := List.mem_of_getElem? there
      have quiet : c.closeSlot id = none := firstSome_none nothing _ (List.mem_map_of_mem member)
      obtain ⟨leaf, own, named⟩ := closeSlot_none c quiet inside
      refine ⟨leaf, named, ?_⟩
      split at done
      · cases done
      · rename_i several
        rw [← own]
        cases n with
        | slot i k p b => cases there
        | split d cs zs =>
          dsimp only [Node.children] at done there several
          split at done
          · rename_i only left
            obtain rfl := Option.some.inj done
            exact only_kept rfl formed there left
          · obtain rfl := Option.some.inj done
            have lt := (List.getElem?_eq_some_iff.mp there).1
            have length := List.length_eraseIdx_of_lt lt
            have members {p : Node P → Prop} (old : ∀ c ∈ cs, c.All p) : ∀ c ∈ cs.eraseIdx pos, c.All p :=
              fun c member => old c (List.mem_of_mem_eraseIdx member)
            refine ⟨(all_iff _).mpr ⟨⟨?_, ?_⟩, members all.2⟩, fun astray ranged => ?_, ?_⟩
            · intro empty
              rw [empty, List.length_nil] at length
              omega
            · rw [length, List.length_eraseIdx_of_lt (by rw [all.1.2]; exact lt), all.1.2]
            · exact (all_iff _).mpr ⟨trivial, members ((all_iff _).mp ranged).2⟩
            · rw [leaves_split, leaves_split, List.append_nil]
              exact flatMap_eraseIdx_perm there
        | tabs cs a =>
          change closeTab id (tabs cs a) = some after at done
          rw [closeTab_eq] at done
          split at done
          · rename_i first
            obtain ⟨d, _, member, inside⟩ := firstSome_map first
            rw [closeTab_of_closeSlot d (firstSome_none nothing _ (List.mem_map_of_mem member))] at inside
            cases inside
          · obtain ⟨pos', c', there', found', _, kept⟩ := closeTabHere_kept formed done
            obtain rfl := Option.some.inj (found.symm.trans found')
            obtain rfl := Option.some.inj (there.symm.trans there')
            exact kept

/-! Tabs. -/

theorem forall_mem_map {p : Node P → Prop} {f : Node P → Node P} {cs : List (Node P)} (all : ∀ c ∈ cs, (f c).All p) :
    ∀ c ∈ cs.map f, c.All p :=
  List.forall_mem_map.mpr all

theorem flatMap_map_perm {f : Node P → Node P} {cs : List (Node P)} (kept : ∀ c ∈ cs, Kept c (f c) [] []) :
    ((cs.map f).flatMap leaves).Perm (cs.flatMap leaves) := by
  rw [List.flatMap_map]
  exact List.Perm.flatMap (.refl _) fun c member => by simpa using (kept c member).leaves

/-- What an edit of every child keeps of the children it keeps of a split. -/
theorem split_map_kept {f : Node P → Node P} {d : Dir} {cs : List (Node P)} {zs : List Size}
    (formed : (split d cs zs).All Formed) (kept : ∀ c ∈ cs, Kept c (f c) [] []) :
    Kept (split d cs zs) (split d (cs.map f) zs) [] [] := by
  have all := (all_iff _).mp formed
  refine ⟨(all_iff _).mpr ⟨⟨by simpa using all.1.1, by simpa using all.1.2⟩, ?_⟩, fun astray ranged => ?_, ?_⟩
  · exact forall_mem_map fun c member => (kept c member).formed
  · exact (all_iff _).mpr ⟨trivial, forall_mem_map fun c member => (kept c member).ranged astray (((all_iff _).mp ranged).2 c member)⟩
  · simpa using flatMap_map_perm kept

theorem tabs_map_kept {f : Node P → Node P} {cs : List (Node P)} {a : Nat}
    (formed : (tabs cs a).All Formed) (kept : ∀ c ∈ cs, Kept c (f c) [] []) :
    Kept (tabs cs a) (tabs (cs.map f) a) [] [] := by
  have all := (all_iff _).mp formed
  refine ⟨(all_iff _).mpr ⟨by simpa [Formed] using all.1, ?_⟩, fun astray ranged => ?_, ?_⟩
  · exact forall_mem_map fun c member => (kept c member).formed
  · have ranged := (all_iff _).mp ranged
    exact (all_iff _).mpr ⟨by simpa [InRangeOr] using ranged.1, forall_mem_map fun c member => (kept c member).ranged astray (ranged.2 c member)⟩
  · simpa using flatMap_map_perm kept

theorem wrapInTabs_split (id : SlotId) (d : Dir) (cs : List (Node P)) (zs : List Size) :
    wrapInTabs id (split d cs zs) = split d (cs.map (wrapInTabs id)) zs :=
  walk_eq _ _

theorem wrapInTabs_tabs (id : SlotId) (cs : List (Node P)) (a : Nat) : wrapInTabs id (tabs cs a) =
    if cs.any (isSlotOf id) then tabs cs a else tabs (cs.map (wrapInTabs id)) a :=
  walk_eq _ _

theorem wrapInTabs_kept (id : SlotId) (n : Node P) : n.All Formed → Kept n (wrapInTabs id n) [] [] := by
  induction n using induct with
  | step n below =>
    intro formed
    have all := (all_iff n).mp formed
    have children (c : Node P) (member : c ∈ n.children) := below c member (all.2 c member)
    cases n with
    | slot i k p b =>
      by_cases same : i = id
      · have eq : wrapInTabs id (slot i k p b) = tabs [slot i k p b] 0 := by simp [wrapInTabs, walk, same]
        rw [eq]
        refine ⟨(all_iff _).mpr ⟨by simp [Formed], by simp [formed]⟩, fun astray ranged => ?_, by simp⟩
        exact (all_iff _).mpr ⟨by simp [InRangeOr], by simp [ranged]⟩
      · have eq : wrapInTabs id (slot i k p b) = slot i k p b := by simp [wrapInTabs, walk, same]
        rw [eq]
        exact .refl formed
    | split d cs zs =>
      rw [wrapInTabs_split]
      exact split_map_kept formed children
    | tabs cs a =>
      rw [wrapInTabs_tabs]
      split
      · exact .refl formed
      · exact tabs_map_kept formed children

/-- No leaf comes or goes, so neither does an id. -/
theorem Kept.slotIds {a b : Node P} (kept : Kept a b [] []) : b.slotIds.Perm a.slotIds := by
  rw [slotIds_eq, slotIds_eq]
  have perm := kept.leaves
  rw [List.append_nil, List.append_nil] at perm
  exact perm.filterMap leafId

theorem insertTabNear_eq (id : SlotId) (new n : Node P) : insertTabNear id new n =
    match firstSome (n.children.map (insertTabNear id new)) with
    | some (i, changed) => some (n.withChild i changed)
    | none => insertTabHere id new n :=
  walk_eq _ _

theorem insertTabHere_kept {id : SlotId} {new n after : Node P} (isLeaf : new.isSlot = true) (formed : n.All Formed)
    (done : insertTabHere id new n = some after) : Kept n after [] [new] := by
  cases n with
  | slot i k p b => cases done
  | split d cs zs => cases done
  | tabs cs a =>
    obtain ⟨pos, found, done⟩ := Option.bind_eq_some_iff.mp done
    obtain rfl := Option.some.inj done
    obtain ⟨c, there, _⟩ := position_some found
    obtain ⟨own, shape, range⟩ := alone isLeaf
    have inside : pos + 1 ≤ cs.length := (List.getElem?_eq_some_iff.mp there).1
    have length := List.length_insertIdx_of_le_length inside new
    have members {p : Node P → Prop} (old : ∀ c ∈ cs, c.All p) (entered : new.All p) :
        ∀ c ∈ cs.insertIdx (pos + 1) new, c.All p := by
      intro c member
      obtain rfl | member := (List.mem_insertIdx inside).mp member
      · exact entered
      · exact old c member
    refine ⟨(all_iff _).mpr ⟨?_, members ((all_iff _).mp formed).2 shape⟩, fun astray ranged => ?_, ?_⟩
    · intro empty
      rw [empty] at length
      cases length
    · refine (all_iff _).mpr ⟨?_, members ((all_iff _).mp ranged).2 (range astray)⟩
      apply Or.inl
      show pos + 1 < (cs.insertIdx (pos + 1) new).length
      omega
    · rw [leaves_tabs, leaves_tabs, List.append_nil]
      refine ((List.perm_insertIdx new cs inside).flatMap_right leaves).trans ?_
      rw [List.flatMap_cons, own]
      exact List.perm_append_comm

theorem insertTabNear_kept {id : SlotId} {new : Node P} (isLeaf : new.isSlot = true) (n : Node P) :
    ∀ after, n.All Formed → insertTabNear id new n = some after → Kept n after [] [new] := by
  induction n using induct with
  | step n below =>
    intro after formed done
    rw [insertTabNear_eq] at done
    split at done
    · rename_i i changed first
      obtain rfl := Option.some.inj done
      obtain ⟨c, there, member, inside⟩ := firstSome_map first
      exact Kept.child formed there (below c member changed (((all_iff n).mp formed).2 c member) inside)
    · exact insertTabHere_kept isLeaf formed done

/-- A slot that is there is in a group once it is wrapped, and the group takes the new tab. -/
theorem insertTabNear_wrapInTabs {id : SlotId} {new : Node P} (n : Node P) :
    n.All Formed → id ∈ n.slotIds → insertTabNear id new (wrapInTabs id n) ≠ none := by
  induction n using induct with
  | step n below =>
    intro formed member none_
    have all := (all_iff n).mp formed
    have here (cs : List (Node P)) (a : Nat) (group : wrapInTabs id n = tabs cs a) : False := by
      rw [group, insertTabNear_eq] at none_
      split at none_
      · cases none_
      · have member := (wrapInTabs_kept id n formed).slotIds.mem_iff.mpr member
        rw [group] at member
        obtain ⟨pos, _, found, _⟩ := position_of_mem rfl member
        rw [insertTabHere, show position id cs = some pos from found] at none_
        cases none_
    cases n with
    | slot i k p b =>
      have same : i = id := by simpa [slotIds, walk, eq_comm] using member
      exact here [slot i k p b] 0 (by simp [wrapInTabs, walk, same])
    | tabs cs a =>
      rw [wrapInTabs_tabs] at here
      split at here
      · exact here _ _ rfl
      · exact here _ _ rfl
    | split d cs zs =>
      obtain ⟨c, inChildren, inside⟩ := (mem_slotIds rfl).mp member
      rw [wrapInTabs_split, insertTabNear_eq] at none_
      split at none_
      · cases none_
      · rename_i nothing
        refine below c inChildren (all.2 c inChildren) inside (firstSome_none nothing _ ?_)
        exact List.mem_map_of_mem (List.mem_map_of_mem inChildren)

theorem addTab_kept {id : SlotId} {new n : Node P} (isLeaf : new.isSlot = true) (formed : n.All Formed)
    (member : id ∈ n.slotIds) : Kept n (addTab id new n) [] [new] := by
  have kept := wrapInTabs_kept id n formed
  obtain ⟨after, done⟩ := Option.ne_none_iff_exists'.mp (insertTabNear_wrapInTabs n formed member)
  rw [addTab, done, Option.getD_some]
  exact kept.trans (insertTabNear_kept isLeaf _ after kept.formed done)

theorem reveal_split (id : SlotId) (d : Dir) (cs : List (Node P)) (zs : List Size) : reveal id (split d cs zs) =
    split d (List.zipWith (fun c shown => if c.contains id then shown else c) cs (cs.map (reveal id))) zs :=
  walk_eq _ _

theorem reveal_kept {id : SlotId} (n : Node P) : n.All Formed → Kept n (reveal id n) [] [] := by
  induction n using induct with
  | step n below =>
    intro formed
    have all := (all_iff n).mp formed
    cases n with
    | slot i k p b => exact .refl formed
    | split d cs zs =>
      rw [reveal_split, List.zipWith_map_right, List.zipWith_self]
      refine split_map_kept formed fun c member => ?_
      split
      · exact below c member (all.2 c member)
      · exact .refl (all.2 c member)
    | tabs cs a =>
      rw [reveal, walk_eq]
      dsimp only [Node.children]
      split
      · exact .refl formed
      · rename_i pos found
        obtain ⟨c, there, _⟩ := position_some found
        have member := List.mem_of_getElem? there
        rw [getD_map there]
        have kept := below c member (all.2 c member)
        refine ⟨(all_iff _).mpr ⟨by simpa [Formed] using all.1, all_set all.2 kept.formed⟩, fun astray ranged => ?_, ?_⟩
        · refine (all_iff _).mpr ⟨?_, all_set ((all_iff _).mp ranged).2 (kept.ranged astray (((all_iff _).mp ranged).2 c member))⟩
          apply Or.inl
          show pos < (cs.set pos _).length
          rw [List.length_set]
          exact (List.getElem?_eq_some_iff.mp there).1
        · rw [leaves_tabs, leaves_tabs]
          exact flatMap_set_perm there kept.leaves

/-! Moving. -/

theorem placeBeside_eq (target : SlotId) (edge : Edge) (node n : Node P) : placeBeside target edge node n =
    if n.isUnitOf target then some (wrapped edge (.weight 1) (.weight 1) node n)
    else (position target n.children).bind fun pos =>
      match siblingBeside target edge node n pos with
      | some placed => some placed
      | none => ((n.children.map (placeBeside target edge node)).getD pos none).bind fun changed =>
        some (n.withChild pos changed) :=
  walk_eq _ _

theorem siblingBeside_kept {target : SlotId} {edge : Edge} {node n after : Node P} {pos : Nat}
    (isLeaf : node.isSlot = true) (formed : n.All Formed) (there : pos < n.children.length)
    (done : siblingBeside target edge node n pos = some after) : Kept n after [] [node] := by
  cases n with
  | slot i k p b => cases done
  | tabs cs a => cases done
  | split d cs zs =>
    rw [siblingBeside] at done
    split at done
    · obtain rfl := Option.some.inj done
      have inside : (if edge.isFront then pos else pos + 1) ≤ cs.length := by
        split
        · exact Nat.le_of_lt there
        · exact there
      apply sibling_kept formed isLeaf inside
      rw [List.length_insertIdx_of_le_length (by rw [length_resize]; exact inside), length_resize]
    · cases done

theorem placeBeside_kept {target : SlotId} {edge : Edge} {node : Node P} (isLeaf : node.isSlot = true) (n : Node P) :
    ∀ after, n.All Formed → placeBeside target edge node n = some after → Kept n after [] [node] := by
  induction n using induct with
  | step n below =>
    intro after formed done
    rw [placeBeside_eq] at done
    split at done
    · obtain rfl := Option.some.inj done
      exact wrapped_kept formed isLeaf
    · obtain ⟨pos, found, done⟩ := Option.bind_eq_some_iff.mp done
      obtain ⟨c, there, _⟩ := position_some found
      have member := List.mem_of_getElem? there
      split at done
      · rename_i placed sibling
        obtain rfl := Option.some.inj done
        exact siblingBeside_kept isLeaf formed (List.getElem?_eq_some_iff.mp there).1 sibling
      · obtain ⟨changed, inside, done⟩ := Option.bind_eq_some_iff.mp done
        obtain rfl := Option.some.inj done
        rw [getD_map there] at inside
        exact Kept.child formed there (below c member changed (((all_iff n).mp formed).2 c member) inside)

/-- The leaf that is closed is the one found under its id. -/
theorem closeSlot_found {id : SlotId} {n rest node : Node P} (formed : n.All Formed) (once : n.slotIds.Nodup)
    (found : n.findSlot id = some node) (closed : n.closeSlot id = some rest) :
    node.isSlot = true ∧ Kept n rest [node] [] := by
  obtain ⟨leaf, named, kept⟩ := closeSlot_kept n rest formed closed
  have member : leaf ∈ n.leaves := by
    have perm := kept.leaves
    rw [List.append_nil] at perm
    exact perm.mem_iff.mp (List.mem_append_right _ (List.mem_singleton_self leaf))
  obtain rfl := Option.some.inj (found.symm.trans (findSlot_of_mem once member named))
  exact ⟨isSlot_of_mem_leaves n member, kept⟩

theorem findSlot_mem {id : SlotId} {n leaf : Node P} (found : n.findSlot id = some leaf) :
    leaf ∈ n.leaves ∧ leaf.leafId = some id := by
  rw [findSlot_eq] at found
  exact ⟨List.mem_of_find?_eq_some found, by simpa using List.find?_some found⟩

/-- A slot other than the one closed is still there. -/
theorem Kept.still {n rest node leaf : Node P} {id target : SlotId} (kept : Kept n rest [node] [])
    (found : n.findSlot id = some node) (there : n.findSlot target = some leaf) (other : id ≠ target) :
    target ∈ rest.slotIds := by
  obtain ⟨_, named⟩ := findSlot_mem found
  obtain ⟨member, named'⟩ := findSlot_mem there
  have perm := kept.leaves
  rw [List.append_nil] at perm
  obtain left | gone := List.mem_append.mp (perm.mem_iff.mpr member)
  · rw [slotIds_eq]
    exact List.mem_filterMap.mpr ⟨leaf, left, named'⟩
  · rw [List.mem_singleton.mp gone] at named'
    exact absurd (Option.some.inj (named.symm.trans named')) other

theorem moveSlot_kept {id target : SlotId} {zone : DropZone} {n : Node P} (formed : n.All Formed)
    (once : n.slotIds.Nodup) : Kept n (moveSlot id target zone n) [] [] := by
  rw [moveSlot]
  dsimp only
  split
  · exact .refl formed
  · rename_i free
    split
    · exact .refl formed
    · rename_i node found
      split
      · exact .refl formed
      · split
        · exact .refl formed
        · rename_i rest closed
          obtain ⟨isLeaf, taken⟩ := closeSlot_found formed once found closed
          split
          · obtain ⟨other, there⟩ : id ≠ target ∧ ∃ leaf, n.findSlot target = some leaf := by
              rw [Bool.not_eq_true, Bool.or_eq_false_iff, Bool.or_eq_false_iff] at free
              refine ⟨by simpa using free.1.1, ?_⟩
              cases found' : n.findSlot target with
              | some leaf => exact ⟨leaf, rfl⟩
              | none => simp [found'] at free
            obtain ⟨leaf, there⟩ := there
            have put := addTab_kept isLeaf taken.formed (taken.still found there other)
            exact (taken.trans put).cancel
          · rename_i edge _
            cases placed : placeBeside target edge node rest with
            | none => exact .refl formed
            | some after =>
              exact (taken.trans (placeBeside_kept isLeaf rest after taken.formed placed)).cancel

/-! Docking on the edge of the body. -/

theorem trailing_le (cs : List (Node P)) : trailing cs ≤ cs.length := by
  rw [trailing]
  exact (List.takeWhile_sublist _).length_le.trans_eq List.length_reverse

/-- The leaves of the chrome rows set apart. -/
def chromeLeaves (chrome : List (Node P × Size)) : List (Node P) := (chrome.map Prod.fst).flatMap leaves

/-- The body and the chrome rows hold what the layout held. -/
structure Apart (n body : Node P) (chrome : List (Node P × Size)) : Prop where
  formed : body.All Formed
  rows : ∀ r ∈ chrome.map Prod.fst, r.All Formed
  ranged : ∀ astray, n.All (InRangeOr astray) → body.All (InRangeOr astray)
  rowsRanged : ∀ astray, n.All (InRangeOr astray) → ∀ r ∈ chrome.map Prod.fst, r.All (InRangeOr astray)
  leaves : body.leaves ++ chromeLeaves chrome = n.leaves

theorem Apart.whole {n : Node P} (formed : n.All Formed) : Apart n n [] :=
  ⟨formed, by simp, fun _ => id, by simp, by simp [chromeLeaves]⟩

theorem bodyAndChrome_apart {n : Node P} (formed : n.All Formed) : Apart n (bodyAndChrome n).1 (bodyAndChrome n).2 := by
  cases n with
  | slot i k p b => exact .whole formed
  | tabs cs a => exact .whole formed
  | split d cs zs =>
    cases d with
    | horizontal => exact .whole formed
    | vertical =>
      rw [bodyAndChrome]
      dsimp only
      split
      · exact .whole formed
      · rename_i several
        have all := (all_iff _).mp formed
        have few := trailing_le cs
        rw [Bool.or_eq_true, not_or, decide_eq_true_eq, decide_eq_true_eq] at several
        have rows : ((cs.drop (cs.length - trailing cs)).zip (zs.drop (cs.length - trailing cs))).map Prod.fst =
            cs.drop (cs.length - trailing cs) := by
          apply List.map_fst_zip
          rw [List.length_drop, List.length_drop, all.1.2]
        have front {p : Node P → Prop} (old : ∀ c ∈ cs, c.All p) : ∀ c ∈ cs.take (cs.length - trailing cs), c.All p :=
          fun c member => old c (List.mem_of_mem_take member)
        have back {p : Node P → Prop} (old : ∀ c ∈ cs, c.All p) : ∀ c ∈ cs.drop (cs.length - trailing cs), c.All p :=
          fun c member => old c (List.mem_of_mem_drop member)
        have joined : (cs.take (cs.length - trailing cs)).flatMap leaves ++ (cs.drop (cs.length - trailing cs)).flatMap leaves =
            (split .vertical cs zs).leaves := by
          rw [← List.flatMap_append, List.take_append_drop, leaves_split]
        split
        · rename_i only eq
          rw [eq] at front joined
          refine ⟨front all.2 only (List.mem_singleton_self only), by rw [rows]; exact back all.2, fun astray ranged => ?_,
            fun astray ranged => by rw [rows]; exact back ((all_iff _).mp ranged).2, ?_⟩
          · exact front ((all_iff _).mp ranged).2 only (List.mem_singleton_self only)
          · rw [chromeLeaves, rows, ← joined, List.flatMap_singleton]
        · refine ⟨(all_iff _).mpr ⟨⟨?_, ?_⟩, front all.2⟩, by rw [rows]; exact back all.2, fun astray ranged => ?_,
            fun astray ranged => by rw [rows]; exact back ((all_iff _).mp ranged).2, ?_⟩
          · rw [← List.length_pos_iff, List.length_take]
            omega
          · rw [List.length_take, List.length_take, all.1.2]
          · exact (all_iff _).mpr ⟨trivial, front ((all_iff _).mp ranged).2⟩
          · rw [chromeLeaves, rows, leaves_split, joined]

theorem onEdge_kept {edge : Edge} {size : Size} {node body : Node P} (formed : body.All Formed)
    (isLeaf : node.isSlot = true) : Kept body (onEdge edge size node body) [] [node] := by
  cases body with
  | slot i k p b => exact wrapped_kept formed isLeaf
  | tabs cs a => exact wrapped_kept formed isLeaf
  | split d cs zs =>
    rw [onEdge]
    split
    · have inside : (if edge.isFront then 0 else cs.length) ≤ cs.length := by
        split
        · exact Nat.zero_le _
        · exact Nat.le_refl _
      have sized := ((all_iff _).mp formed).1.2
      apply sibling_kept formed isLeaf inside
      rw [List.length_insertIdx_of_le_length (by rw [sized]; exact inside), sized]
    · exact wrapped_kept formed isLeaf

theorem withChrome_kept {n body edged : Node P} {chrome : List (Node P × Size)} {made : List (Node P)}
    (apart : Apart n body chrome) (kept : Kept body edged [] made) : Kept n (withChrome edged chrome) [] made := by
  have rearranged : (edged.leaves ++ chromeLeaves chrome).Perm (n.leaves ++ made) := by
    have perm := kept.leaves.append_right (chromeLeaves chrome)
    rw [List.append_nil] at perm
    rw [← apart.leaves]
    refine perm.trans ?_
    rw [List.append_assoc, List.append_assoc]
    exact List.perm_append_comm.append_left _
  by_cases none_ : chrome = []
  · have same : withChrome edged chrome = edged := by
      unfold withChrome
      rw [if_pos none_]
    rw [same]
    refine ⟨kept.formed, fun astray => kept.ranged astray ∘ apart.ranged astray, ?_⟩
    simpa [chromeLeaves, none_] using rearranged
  · have under {p : Node P → Prop} {cs : List (Node P)} (above : ∀ c ∈ cs, c.All p) (rows : ∀ r ∈ chrome.map Prod.fst, r.All p) :
        ∀ c ∈ cs ++ chrome.map Prod.fst, c.All p := by
      intro c member
      obtain member | member := List.mem_append.mp member
      · exact above c member
      · exact rows c member
    have onTop : Kept n (split .vertical (edged :: chrome.map Prod.fst) (.weight 1 :: chrome.map Prod.snd)) [] made := by
      refine ⟨(all_iff _).mpr ⟨⟨by simp, by simp⟩, ?_⟩, fun astray ranged => (all_iff _).mpr ⟨trivial, ?_⟩, ?_⟩
      · exact @under Formed [edged] (by simpa using kept.formed) apart.rows
      · exact @under (InRangeOr astray) [edged] (by simpa using kept.ranged astray (apart.ranged astray ranged)) (apart.rowsRanged astray ranged)
      · rw [leaves_split, List.flatMap_cons, List.append_nil]
        exact rearranged
    unfold withChrome
    rw [if_neg none_]
    split
    · rename_i cs zs
      have all := (all_iff _).mp kept.formed
      refine ⟨(all_iff _).mpr ⟨⟨by simp [all.1.1], by simp [all.1.2]⟩, under all.2 apart.rows⟩, fun astray ranged => ?_, ?_⟩
      · exact (all_iff _).mpr ⟨trivial, under ((all_iff _).mp (kept.ranged astray (apart.ranged astray ranged))).2 (apart.rowsRanged astray ranged)⟩
      · rw [leaves_split] at rearranged
        rw [leaves_split, List.flatMap_append, List.append_nil]
        exact rearranged
    · exact onTop

theorem dockOuter_kept {id : SlotId} {edge : Edge} {size : Size} {n : Node P} (formed : n.All Formed)
    (once : n.slotIds.Nodup) : Kept n (dockOuter id edge size n) [] [] := by
  rw [dockOuter]
  split
  · exact .refl formed
  · rename_i node found
    have found := (Option.filter_eq_some_iff.mp found).1
    split
    · exact .refl formed
    · rename_i rest closed
      dsimp only
      split
      · exact .refl formed
      · obtain ⟨isLeaf, taken⟩ := closeSlot_found formed once found closed
        have apart := bodyAndChrome_apart taken.formed
        have put := withChrome_kept apart (@onEdge_kept P edge size _ _ apart.formed isLeaf)
        exact (taken.trans put).cancel

/-! Flipping. -/

theorem runFrom_le (weighs : Nat → Bool) : ∀ pos, runFrom weighs pos ≤ pos
  | 0 => Nat.le_refl 0
  | n + 1 => by
    rw [runFrom]
    split
    · exact (runFrom_le weighs n).trans (Nat.le_succ n)
    · exact Nat.le_refl _

theorem runUntil_bounds (weighs : Nat → Bool) (until_ : Nat) : ∀ left,
    until_ ≤ runUntil weighs until_ left ∧ runUntil weighs until_ left ≤ until_ + left := by
  intro left
  induction left generalizing until_ with
  | zero => exact ⟨Nat.le_refl _, Nat.le_refl _⟩
  | succ left more =>
    rw [runUntil]
    split
    · have bounds := more (until_ + 1)
      omega
    · omega

/-- A run of siblings in a split of its own. -/
theorem streak_kept {dir dir' : Dir} {cs : List (Node P)} {zs zs' streakSizes : List Size} {first last : Nat}
    (formed : (split dir cs zs).All Formed) (some_ : first < last) (inside : last ≤ cs.length)
    (streakSized : streakSizes.length = last - first) (sized : zs'.length = first + 1 + (cs.length - last)) :
    Kept (split dir cs zs) (split dir (cs.take first ++
      split dir' ((cs.drop first).take (last - first)) streakSizes :: cs.drop last) zs') [] [] := by
  have cut : cs.take first ++ ((cs.drop first).take (last - first) ++ cs.drop last) = cs := by
    have later : cs.drop last = (cs.drop first).drop (last - first) := by
      rw [List.drop_drop]
      congr 1
      omega
    rw [later, List.take_append_drop, List.take_append_drop]
  have streakLength : ((cs.drop first).take (last - first)).length = last - first := by
    rw [List.length_take, List.length_drop]
    omega
  have members {p : Node P → Prop} (old : ∀ c ∈ cs, c.All p)
      (streak : (split dir' ((cs.drop first).take (last - first)) streakSizes).All p) :
      ∀ c ∈ cs.take first ++ split dir' ((cs.drop first).take (last - first)) streakSizes :: cs.drop last, c.All p := by
    intro c member
    obtain member | member := List.mem_append.mp member
    · exact old c (List.mem_of_mem_take member)
    · obtain rfl | member := List.mem_cons.mp member
      · exact streak
      · exact old c (List.mem_of_mem_drop member)
  have within {p : Node P → Prop} (old : ∀ c ∈ cs, c.All p) : ∀ c ∈ (cs.drop first).take (last - first), c.All p :=
    fun c member => old c (List.mem_of_mem_drop (List.mem_of_mem_take member))
  have all := (all_iff _).mp formed
  refine ⟨(all_iff _).mpr ⟨⟨by simp, ?_⟩, members all.2 ?_⟩, fun astray ranged => ?_, ?_⟩
  · rw [sized, List.length_append, List.length_take, List.length_cons, List.length_drop]
    omega
  · refine (all_iff _).mpr ⟨⟨?_, by rw [streakSized, streakLength]⟩, within all.2⟩
    rw [← List.length_pos_iff, streakLength]
    omega
  · have ranged := ((all_iff _).mp ranged).2
    exact (all_iff _).mpr ⟨trivial, members ranged ((all_iff _).mpr ⟨trivial, within ranged⟩)⟩
  · rw [leaves_split, leaves_split, List.append_nil, List.append_nil, List.flatMap_append, List.flatMap_cons, leaves_split,
      ← List.flatMap_append, ← List.flatMap_append, cut]

theorem flipRun_kept {dir : Dir} {cs : List (Node P)} {zs : List Size} {pos : Nat} {after : Node P}
    (formed : (split dir cs zs).All Formed) (inside : pos < cs.length) (done : flipRun dir cs zs pos = .done after) :
    Kept (split dir cs zs) after [] [] := by
  unfold flipRun at done
  dsimp only at done
  split at done
  · cases done
  · split at done
    · cases done
    · split at done
      · cases done
        refine ⟨(all_iff _).mpr ((all_iff _).mp formed), fun astray ranged => (all_iff _).mpr ((all_iff _).mp ranged), ?_⟩
        rw [leaves_split, leaves_split]
      · cases done
        rename_i several _
        have bounds := runUntil_bounds (weighs zs) (pos + 1) (cs.length - (pos + 1))
        refine streak_kept formed (by omega) (by omega) (by rw [List.length_map, List.length_range']) ?_
        rw [List.length_append, List.length_map, List.length_range, List.length_cons, List.length_map, List.length_range']
        omega

theorem flipInner_eq (id : SlotId) (n : Node P) : flipInner id n =
    match position id n.children with
    | none => .noThis
    | some pos =>
      match (n.children.map (flipInner id)).getD pos .noThis with
      | .done changed => .done (n.withChild pos changed)
      | .refused => .refused
      | .noThis => flipHere n pos :=
  walk_eq _ _

theorem flipInner_kept {id : SlotId} (n : Node P) :
    ∀ after, n.All Formed → flipInner id n = .done after → Kept n after [] [] := by
  induction n using induct with
  | step n below =>
    intro after formed done
    rw [flipInner_eq] at done
    split at done
    · cases done
    · rename_i pos found
      obtain ⟨c, there, _⟩ := position_some found
      have member := List.mem_of_getElem? there
      rw [getD_map there] at done
      split at done
      · rename_i changed inside
        cases done
        exact Kept.child formed there (below c member changed (((all_iff n).mp formed).2 c member) inside)
      · cases done
      · cases n with
        | slot i k p b => cases done
        | tabs cs a => cases done
        | split d cs zs =>
          rw [flipHere] at done
          split at done
          · cases done
          · exact flipRun_kept formed (List.getElem?_eq_some_iff.mp there).1 done

theorem flip_kept {id : SlotId} {n : Node P} (formed : n.All Formed) : Kept n (flip id n) [] [] := by
  rw [flip]
  split
  · rename_i after done
    exact flipInner_kept n after formed done
  · exact .refl formed
  · exact .refl formed

/-! The sizes of a split, and the tabs of a group. -/

/-- The sizes of a split, changed one for one. -/
theorem sizes_kept {d : Dir} {cs : List (Node P)} {zs zs' : List Size} (formed : (split d cs zs).All Formed)
    (same : zs'.length = zs.length) : Kept (split d cs zs) (split d cs zs') [] [] :=
  (Kept.refl formed).resized same

section changed

variable [DecidableEq P]

theorem changedInside_some {id : SlotId} {f : Node P → Node P} {cs : List (Node P)} {i : Nat} {changed : Node P}
    (first : changedInside id cs (cs.map f) = some (i, changed)) : ∃ c, cs[i]? = some c ∧ c ∈ cs ∧ f c = changed := by
  rw [changedInside, List.zipWith_map_right, List.zipWith_self] at first
  obtain ⟨c, there, member, done⟩ := firstSome_map first
  refine ⟨c, there, member, ?_⟩
  split at done
  · exact Option.some.inj done
  · cases done

theorem mapSplitOf_kept {id : SlotId} {f : List Size → Nat → List Size} (same : ∀ zs pos, (f zs pos).length = zs.length)
    (n : Node P) : n.All Formed → Kept n (mapSplitOf id f n) [] [] := by
  induction n using induct with
  | step n below =>
    intro formed
    rw [mapSplitOf, walk_eq]
    split
    · rename_i i changed first
      obtain ⟨c, there, member, rfl⟩ := changedInside_some first
      exact Kept.child formed there (below c member (((all_iff n).mp formed).2 c member))
    · cases n with
      | slot i k p b => exact .refl formed
      | tabs cs a => exact .refl formed
      | split d cs zs =>
        dsimp only
        split
        · exact sizes_kept formed (same zs _)
        · exact .refl formed

theorem mapTabsOf_kept {id : SlotId} {f : List (Node P) → Nat → List (Node P) × Nat}
    (perm : ∀ cs pos, pos < cs.length → (f cs pos).1.Perm cs ∧ (f cs pos).2 < cs.length) (n : Node P) :
    n.All Formed → Kept n (mapTabsOf id f n) [] [] := by
  induction n using induct with
  | step n below =>
    intro formed
    rw [mapTabsOf, walk_eq]
    split
    · rename_i i changed first
      obtain ⟨c, there, member, rfl⟩ := changedInside_some first
      exact Kept.child formed there (below c member (((all_iff n).mp formed).2 c member))
    · cases n with
      | slot i k p b => exact .refl formed
      | split d cs zs => exact .refl formed
      | tabs cs a =>
        dsimp only
        split
        · rename_i pos found
          obtain ⟨c, there, _⟩ := position_some found
          obtain ⟨same, inside⟩ := perm cs pos (List.getElem?_eq_some_iff.mp there).1
          have all := (all_iff _).mp formed
          refine ⟨(all_iff _).mpr ⟨fun empty => all.1 ?_, fun c member => all.2 c (same.mem_iff.mp member)⟩,
            fun astray ranged => (all_iff _).mpr ⟨?_, fun c member => ((all_iff _).mp ranged).2 c (same.mem_iff.mp member)⟩, ?_⟩
          · rw [empty] at same
            exact List.nil_perm.mp same
          · apply Or.inl
            show (f cs pos).2 < (f cs pos).1.length
            rwa [same.length_eq]
          · rw [leaves_tabs, leaves_tabs, List.append_nil, List.append_nil]
            exact same.flatMap_right leaves
        · exact .refl formed

theorem resizeBy_kept {id : SlotId} {delta : Int} {n : Node P} (formed : n.All Formed) :
    Kept n (resizeBy id delta n) [] [] := by
  refine mapSplitOf_kept (fun zs pos => ?_) n formed
  split <;> simp

theorem equalize_kept {id : SlotId} {n : Node P} (formed : n.All Formed) : Kept n (equalize id n) [] [] :=
  mapSplitOf_kept (fun _ _ => List.length_map _) n formed

theorem setActiveFor_kept {id : SlotId} {i : Nat} {n : Node P} (formed : n.All Formed) :
    Kept n (setActiveFor id i n) [] [] := by
  refine mapTabsOf_kept (fun cs pos inside => ⟨.refl _, ?_⟩) n formed
  show min i (cs.length - 1) < cs.length
  omega

theorem moveTab_kept {id : SlotId} {delta : Int} {n : Node P} (formed : n.All Formed) :
    Kept n (moveTab id delta n) [] [] := by
  refine mapTabsOf_kept (fun cs pos inside => ?_) n formed
  have dest : min ((pos : Int) + delta).toNat (cs.length - 1) ≤ (cs.eraseIdx pos).length := by
    rw [List.length_eraseIdx_of_lt inside]
    omega
  rw [List.getElem?_eq_getElem inside]
  dsimp only
  refine ⟨?_, by omega⟩
  exact (List.perm_insertIdx _ _ dest).trans (List.getElem_cons_eraseIdx_perm inside)

end changed

theorem length_dragPair {zs : List Size} {pos : Nat} {frac : Float32} {pairCells : Nat} :
    (dragPair zs pos frac pairCells).length = zs.length := by
  have scale (factor : Nat) : (if 1 < factor then scaled factor zs else zs).length = zs.length := by
    split
    · exact List.length_map _
    · rfl
  unfold dragPair
  dsimp only
  split
  · split
    · rw [List.length_set, List.length_set]
    · exact List.length_set
    · exact List.length_set
    · rw [List.length_set, List.length_set, scale]
    · rfl
  · rfl

theorem dragBorderBetween_kept {a b : SlotId} {frac : Float32} {pairCells : Nat} (n : Node P) :
    n.All Formed → Kept n (dragBorderBetween a b frac pairCells n) [] [] := by
  induction n using induct with
  | step n below =>
    intro formed
    rw [dragBorderBetween, walk_eq]
    split
    · exact .refl formed
    · rename_i pos found
      obtain ⟨c, there, _⟩ := position_some found
      have member := List.mem_of_getElem? there
      split
      · rw [getD_map there]
        exact Kept.child formed there (below c member (((all_iff n).mp formed).2 c member))
      · cases n with
        | slot i k p b => exact .refl formed
        | tabs cs a => exact .refl formed
        | split d cs zs =>
          dsimp only
          split
          · exact sizes_kept formed length_dragPair
          · exact .refl formed

end Norte.Layout.Node
