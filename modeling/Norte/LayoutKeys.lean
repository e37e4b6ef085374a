import Norte.LayoutLocal

/-! The keys that change sizes and tabs, and what is said of them: each changes the innermost
split, or group, that its slot is in. -/
namespace Norte.Layout

variable {P : Type}

namespace Node

/-- The slot that heads the subtree. -/
def firstSlotId : Node P → Option SlotId := walk fun self below =>
  match self with
  | slot id .. => some id
  | _ => below.findSome? id

/-- The sizes of the split that contains the slot, and which child it is in. -/
def sizesOf (id : SlotId) : Node P → Option (List Size × Nat) := walk fun self below =>
  match (List.zipWith (fun c inside => if c.contains id && !c.isSlot then inside else none) self.children below).findSome?
    fun inside => inside with
  | some inside => some inside
  | none =>
    match self with
    | split _ children sizes => (position id children).map fun pos => (sizes, pos)
    | _ => none

/-- The tabs of the group that contains the slot, by the slot that heads each, and the active one. -/
def tabsOf (id : SlotId) : Node P → Option (List SlotId × Nat) := walk fun self below =>
  match below.findSome? fun inside => inside with
  | some inside => some inside
  | none =>
    match self with
    | tabs children active =>
      if children.any (contains id) then some (children.filterMap firstSlotId, min active (children.length - 1)) else none
    | _ => none

def sizes : Node P → List Size
  | split _ _ sizes => sizes
  | _ => []

def active : Node P → Nat
  | tabs _ active => active
  | _ => 0

/-- What `resize` does to the sizes of a split. -/
def nudge (delta : Int) (sizes : List Size) (pos : Nat) : List Size :=
  match sizes[pos]? with
  | some (.weight w) => sizes.set pos (.weight (max 1 (min 10 (w + delta))).toNat)
  | some (.fixed n) => sizes.set pos (.fixed (max 2 (min 100 (n + delta * 2))).toNat)
  | some .auto | none => sizes

def level (sizes : List Size) : List Size :=
  sizes.map fun size =>
    match size with
    | .weight _ => .weight 1
    | other => other

/-- Where a tab goes. -/
def destination (delta : Int) (children : List (Node P)) (pos : Nat) : Nat :=
  min ((pos : Int) + delta).toNat (children.length - 1)

def shifted (delta : Int) (children : List (Node P)) (pos : Nat) : List (Node P) × Nat :=
  match children[pos]? with
  | some who => ((children.eraseIdx pos).insertIdx (destination delta children pos) who, destination delta children pos)
  | none => (children, destination delta children pos)

end Node

/-- The keys that change the sizes or the tabs around a slot. -/
inductive Request where
  | resize (delta : Int)
  | equalize
  | setActiveFor (i : Nat)
  | moveTab (delta : Int)
  deriving DecidableEq, Repr

namespace Request

open Node

def apply [DecidableEq P] (id : SlotId) (tree : Node P) : Request → Node P
  | resize delta => resizeBy id delta tree
  | equalize => Node.equalize id tree
  | setActiveFor i => Node.setActiveFor id i tree
  | moveTab delta => Node.moveTab id delta tree

def kind : Request → Node P → Bool
  | resize _ | equalize => isSplit
  | setActiveFor _ | moveTab _ => isTabs

/-- What the key does to a node of its kind. -/
def change : Request → Node P → Nat → Node P
  | resize delta => withSizes (nudge delta)
  | equalize => withSizes fun sizes _ => level sizes
  | setActiveFor i => withTabs fun children _ => (children, min i (children.length - 1))
  | moveTab delta => withTabs (shifted delta)

theorem apply_eq [DecidableEq P] (id : SlotId) (tree : Node P) (request : Request) :
    request.apply id tree = mapInner request.kind request.change id tree := by
  cases request with
  | resize delta => exact mapSplitOf_eq id (nudge delta) tree
  | equalize => exact mapSplitOf_eq id _ tree
  | setActiveFor i => exact mapTabsOf_eq id _ tree
  | moveTab delta => exact mapTabsOf_eq id (shifted delta) tree

/-- At its bound a size does not move, and what asks for its own size never does. -/
def AtBound (delta : Int) : Option Size → Prop
  | some (.weight w) => (delta = 0 ∧ 1 ≤ w ∧ w ≤ 10) ∨ (0 < delta ∧ w = 10) ∨ (delta < 0 ∧ w = 1)
  | some (.fixed n) => (delta = 0 ∧ 2 ≤ n ∧ n ≤ 100) ∨ (0 < delta ∧ n = 100) ∨ (delta < 0 ∧ n = 2)
  | some .auto | none => True

/-- The key finds nothing to change in this node. -/
def Idle (o : Node P × Nat) : Request → Prop
  | resize delta => AtBound delta o.1.sizes[o.2]?
  | equalize => ∀ size ∈ o.1.sizes, ∀ w, size = .weight w → w = 1
  | setActiveFor i => o.1.active = min i (o.1.children.length - 1)
  | moveTab delta => o.1.active = o.2 ∧
    (delta = 0 ∨ (delta < 0 ∧ o.2 = 0) ∨ (0 < delta ∧ o.2 + 1 = o.1.children.length))

/-! When a key finds nothing to change. -/

theorem nudge_same {delta : Int} {zs : List Size} {pos : Nat} : nudge delta zs pos = zs ↔ AtBound delta zs[pos]? := by
  unfold nudge
  cases at_ : zs[pos]? with
  | none => exact iff_of_true rfl trivial
  | some z =>
    have set_same (z' : Size) : zs.set pos z' = zs ↔ z' = z := by
      constructor
      · intro same
        have placed : (zs.set pos z')[pos]? = some z' := List.getElem?_set_self (List.getElem?_eq_some_iff.mp at_).1
        rw [same, at_] at placed
        exact (Option.some.inj placed).symm
      · rintro rfl
        obtain ⟨bound, rfl⟩ := List.getElem?_eq_some_iff.mp at_
        exact List.set_getElem_self bound
    cases z with
    | auto => exact iff_of_true rfl trivial
    | weight w =>
      simp only [set_same, Size.weight.injEq, AtBound]
      omega
    | fixed n =>
      simp only [set_same, Size.fixed.injEq, AtBound]
      omega

theorem level_same {zs : List Size} : level zs = zs ↔ ∀ size ∈ zs, ∀ w, size = .weight w → w = 1 := by
  induction zs with
  | nil => simp [level]
  | cons z zs ih =>
    rw [List.forall_mem_cons, ← ih, level, List.map_cons, List.cons.injEq]
    apply and_congr _ Iff.rfl
    cases z <;> simp [eq_comm]

/-- In a tree without duplicates no two children are the same. -/
theorem child_unique {n c : Node P} {i j : Nat} (formed : n.All Formed) (once : n.slotIds.Nodup)
    (first : n.children[i]? = some c) (second : n.children[j]? = some c) : i = j := by
  have some_ : ∃ id, id ∈ c.slotIds := by
    have inner := ((all_iff n).mp formed).2 c (List.mem_of_getElem? first)
    clear first second
    induction c using induct with
    | step c below =>
      obtain ⟨own, all⟩ := (all_iff c).mp inner
      cases c with
      | slot id k p b => exact ⟨id, List.mem_singleton_self id⟩
      | split d cs zs =>
        obtain ⟨c, member⟩ := List.exists_mem_of_ne_nil cs own.1
        obtain ⟨id, contains⟩ := below c member (all c member)
        exact ⟨id, (mem_slotIds rfl).mpr ⟨c, member, contains⟩⟩
      | tabs cs a =>
        obtain ⟨c, member⟩ := List.exists_mem_of_ne_nil cs own
        obtain ⟨id, contains⟩ := below c member (all c member)
        exact ⟨id, (mem_slotIds rfl).mpr ⟨c, member, contains⟩⟩
  obtain ⟨id, contains⟩ := some_
  exact Option.some.inj ((position_unique once first contains).symm.trans (position_unique once second contains))

section

variable {delta : Int} {cs : List (Node P)} {pos : Nat} {who : Node P}

theorem destination_lt (delta : Int) (there : cs[pos]? = some who) : destination delta cs pos < cs.length := by
  have bound := (List.getElem?_eq_some_iff.mp there).1
  unfold destination
  omega

theorem destination_same (there : cs[pos]? = some who) :
    destination delta cs pos = pos ↔ delta = 0 ∨ (delta < 0 ∧ pos = 0) ∨ (0 < delta ∧ pos + 1 = cs.length) := by
  have bound := (List.getElem?_eq_some_iff.mp there).1
  unfold destination
  omega

theorem shifted_eq (there : cs[pos]? = some who) : shifted delta cs pos =
    ((cs.eraseIdx pos).insertIdx (destination delta cs pos) who, destination delta cs pos) := by
  rw [shifted, there]

theorem shifted_perm (there : cs[pos]? = some who) : (shifted delta cs pos).1.Perm cs := by
  rw [shifted_eq there]
  have dest := destination_lt delta there
  obtain ⟨bound, rfl⟩ := List.getElem?_eq_some_iff.mp there
  apply (List.perm_insertIdx _ _ _).trans (List.getElem_cons_eraseIdx_perm bound)
  rw [List.length_eraseIdx_of_lt bound]
  omega

/-- A tab that moves is found where it goes, and another one where it was. -/
theorem shifted_moved (there : cs[pos]? = some who) (moves : destination delta cs pos ≠ pos) :
    (shifted delta cs pos).1[destination delta cs pos]? = some who ∧
      ∃ j, j ≠ pos ∧ (shifted delta cs pos).1[pos]? = cs[j]? ∧ j < cs.length := by
  rw [shifted_eq there]
  have dest := destination_lt delta there
  have bound := (List.getElem?_eq_some_iff.mp there).1
  dsimp only
  constructor
  · rw [List.getElem?_insertIdx_self, if_pos]
    rw [List.length_eraseIdx_of_lt bound]
    omega
  · rcases Nat.lt_or_gt_of_ne moves with down | up
    · refine ⟨pos - 1, by omega, ?_, by omega⟩
      rw [List.getElem?_insertIdx_of_gt down, List.getElem?_eraseIdx_of_lt (by omega)]
    · refine ⟨pos + 1, by omega, ?_, by omega⟩
      rw [List.getElem?_insertIdx_of_lt up, List.getElem?_eraseIdx_of_ge (Nat.le_refl _)]

theorem shifted_still (there : cs[pos]? = some who) (still : destination delta cs pos = pos) :
    shifted delta cs pos = (cs, pos) := by
  rw [shifted_eq there, still]
  obtain ⟨bound, rfl⟩ := List.getElem?_eq_some_iff.mp there
  rw [List.insertIdx_eraseIdx_getElem bound]

end

theorem withSizes_local (f : List Size → Nat → List Size) :
    Local (P := P) isSplit (withSizes f) where
  keeps := by
    intro n c pos own _
    cases n with
    | split d cs zs => exact ⟨rfl, .refl _⟩
    | tabs => cases own
    | slot => cases own
  apart := by
    intro n pos own _ _ moves i c' same
    cases n with
    | split d cs zs =>
      injection same with _ _ sizes
      exact moves (congrArg (split d cs) sizes)
    | tabs => cases own
    | slot => cases own

/-- Each key is a change of the node it is meant for. -/
theorem local_ (request : Request) : Local (P := P) request.kind request.change := by
  cases request with
  | resize delta => exact withSizes_local _
  | equalize => exact withSizes_local _
  | setActiveFor i =>
    constructor
    · intro n c pos own _
      cases n with
      | tabs cs a => exact ⟨rfl, .refl _⟩
      | split => cases own
      | slot => cases own
    · intro n pos own _ _ moves j c' same
      cases n with
      | tabs cs a =>
        injection same with _ active
        exact moves (congrArg (tabs cs) active)
      | split => cases own
      | slot => cases own
  | moveTab delta =>
    constructor
    · intro n c pos own there
      cases n with
      | tabs cs a => exact ⟨rfl, shifted_perm there⟩
      | split => cases own
      | slot => cases own
    · intro n pos own formed once moves j c' same
      cases n with
      | split => cases own
      | slot => cases own
      | tabs cs a =>
        injection same with children active
        cases there : cs[pos]? with
        | none =>
          have shift : shifted delta cs pos = (cs, destination delta cs pos) := by rw [shifted, there]
          apply moves
          rw [change, withTabs, active, shift]
        | some who =>
          by_cases still : destination delta cs pos = pos
          · apply moves
            rw [change, withTabs, active, shifted_still there still]
          · obtain ⟨arrived, k, other, left, bound⟩ := shifted_moved there still
            rw [children] at arrived left
            by_cases here : j = destination delta cs pos
            · have unset : j ≠ pos := by omega
              rw [List.getElem?_set_ne unset, there] at left
              exact other (child_unique formed once left.symm there)
            · rw [List.getElem?_set_ne here] at arrived
              exact still (child_unique formed once arrived there)

/-- A key changes nothing in a node exactly when it is idle there. -/
theorem change_same {request : Request} {n c : Node P} {pos : Nat} (own : request.kind n = true)
    (there : n.children[pos]? = some c) (formed : n.All Formed) (once : n.slotIds.Nodup) :
    request.change n pos = n ↔ request.Idle (n, pos) := by
  cases request with
  | resize delta =>
    cases n with
    | split d cs zs =>
      rw [Idle, sizes, ← nudge_same]
      simp [change, withSizes]
    | tabs => cases own
    | slot => cases own
  | equalize =>
    cases n with
    | split d cs zs =>
      rw [Idle, sizes, ← level_same]
      simp [change, withSizes]
    | tabs => cases own
    | slot => cases own
  | setActiveFor i =>
    cases n with
    | tabs cs a => simp [Idle, active, change, withTabs, eq_comm]
    | split => cases own
    | slot => cases own
  | moveTab delta =>
    cases n with
    | split => cases own
    | slot => cases own
    | tabs cs a =>
      rw [children] at there
      simp only [Idle, active, children, change, withTabs, tabs.injEq, ← destination_same there]
      constructor
      · rintro ⟨order, number⟩
        by_cases still : destination delta cs pos = pos
        · rw [shifted_still there still] at number
          exact ⟨number.symm, still⟩
        · obtain ⟨arrived, -⟩ := shifted_moved there still
          rw [order] at arrived
          exact absurd (child_unique formed once arrived there) still
      · rintro ⟨number, still⟩
        rw [shifted_still there still]
        exact ⟨rfl, number.symm⟩

end Request

namespace Node

variable {id : SlotId}

/-- What is known of the nodes of a chain. -/
theorem chain_mem {kind : Node P → Bool} {o : Node P × Nat} (n : Node P) : n.All Formed → n.slotIds.Nodup →
    o ∈ chain kind id n → kind o.1 = true ∧ o.1.All Formed ∧ o.1.slotIds.Nodup ∧
      ∃ c, o.1.children[o.2]? = some c := by
  induction n using induct with
  | step n below =>
    intro formed once member
    cases found : position id n.children with
    | none =>
      rw [chain_absent found] at member
      cases member
    | some pos =>
      obtain ⟨c, there, contains⟩ := position_some found
      have inside := List.mem_of_getElem? there
      rw [chain_at found there] at member
      rcases List.mem_append.mp member with deeper | here
      · exact below c inside (((all_iff n).mp formed).2 c inside) (once_child once inside) deeper
      · cases own : kind n with
        | false =>
          rw [own] at here
          cases here
        | true =>
          rw [own, if_pos rfl, List.mem_singleton] at here
          subst here
          exact ⟨own, formed, once, c, there⟩

theorem findSome_at {l : List (Option α)} {i : Nat} {x : Option α} (there : l[i]? = some x)
    (others : ∀ j ≠ i, l[j]?.getD none = none) : l.findSome? (fun a => a) = x := by
  induction l generalizing i with
  | nil => simp at there
  | cons y l ih =>
    cases i with
    | zero =>
      obtain rfl := Option.some.inj there
      cases y with
      | some a => rfl
      | none =>
        rw [List.findSome?_cons, List.findSome?_eq_none_iff]
        intro z member
        obtain ⟨j, at_⟩ := List.getElem?_of_mem member
        have none_ := others (j + 1) (Nat.succ_ne_zero j)
        rw [List.getElem?_cons_succ, at_] at none_
        exact none_
    | succ i =>
      have head : y = none := others 0 (Nat.succ_ne_zero i).symm
      rw [List.findSome?_cons, head]
      exact ih there fun j other => others (j + 1) fun same => other (Nat.succ.inj same)

theorem findSome_nowhere {l : List (Option α)} (nowhere : ∀ x ∈ l, x = none) : l.findSome? (fun a => a) = none := by
  rw [List.findSome?_eq_none_iff]
  exact nowhere

theorem contains_of_unique {n c d : Node P} {i j : Nat} (once : n.slotIds.Nodup) (there : n.children[i]? = some c)
    (contains : id ∈ c.slotIds) (other : j ≠ i) (at_ : n.children[j]? = some d) : d.contains id = false := by
  cases within : d.contains id with
  | false => rfl
  | true =>
    have first := position_unique once at_ (contains_iff.mp within)
    rw [position_unique once there contains] at first
    exact absurd (Option.some.inj first).symm other

theorem sizesOf_eq (n : Node P) : sizesOf id n =
    match (n.children.map fun c => if c.contains id && !c.isSlot then sizesOf id c else none).findSome?
      fun inside => inside with
    | some inside => some inside
    | none =>
      match n with
      | split _ children sizes => (position id children).map fun pos => (sizes, pos)
      | _ => none := by
  rw [sizesOf, walk_eq, List.zipWith_map_right, List.zipWith_self]

theorem sizesOf_slot {n : Node P} (isSlot : n.isSlot = true) : sizesOf id n = none := by
  cases n with
  | slot => rfl
  | split => cases isSlot
  | tabs => cases isSlot

/-- `sizes_of` reports the innermost split of the chain. -/
theorem sizesOf_chain (n : Node P) : n.slotIds.Nodup →
    sizesOf id n = (chain isSplit id n).head?.map fun o => (o.1.sizes, o.2) := by
  induction n using induct with
  | step n below =>
    intro once
    rw [sizesOf_eq]
    cases found : position id n.children with
    | none =>
      rw [chain_absent found, findSome_nowhere]
      · cases n with
        | split d cs zs =>
          rw [children] at found
          simp [found]
        | tabs => rfl
        | slot => rfl
      · intro x member
        obtain ⟨c, inside, rfl⟩ := List.mem_map.mp member
        have absent := position_none found c inside
        rw [← contains_iff] at absent
        simp [absent]
    | some pos =>
      obtain ⟨c, there, contains⟩ := position_some found
      have inside := below c (List.mem_of_getElem? there) (once_child once (List.mem_of_getElem? there))
      have only : (n.children.map fun c => if c.contains id && !c.isSlot then sizesOf id c else none).findSome?
          (fun inside => inside) = sizesOf id c := by
        apply findSome_at (i := pos)
        · rw [List.getElem?_map, there, Option.map_some, contains_iff.mpr contains]
          cases isSlot : c.isSlot with
          | false => rfl
          | true => rw [sizesOf_slot isSlot]; rfl
        · intro j other
          rw [List.getElem?_map]
          cases at_ : n.children[j]? with
          | none => rfl
          | some d => simp [contains_of_unique once there contains other at_]
      rw [only, inside, chain_at found there]
      cases chain isSplit id c with
      | cons o rest => rfl
      | nil =>
        cases n with
        | split d cs zs =>
          rw [children] at found
          simp [found, isSplit, sizes]
        | tabs => rfl
        | slot => rfl

theorem tabsOf_eq (n : Node P) : tabsOf id n =
    match (n.children.map (tabsOf id)).findSome? fun inside => inside with
    | some inside => some inside
    | none =>
      match n with
      | tabs children active =>
        if children.any (contains id) then some (children.filterMap firstSlotId, min active (children.length - 1))
        else none
      | _ => none := by
  rw [tabsOf, walk_eq]

theorem any_contains {cs : List (Node P)} : cs.any (contains id) = (position id cs).isSome := by
  rw [position, List.findIdx?_isSome]

theorem tabsOf_absent (n : Node P) : id ∉ n.slotIds → tabsOf id n = none := by
  induction n using induct with
  | step n below =>
    intro absent
    rw [tabsOf_eq, findSome_nowhere]
    · cases n with
      | split => rfl
      | slot => rfl
      | tabs cs a =>
        have nowhere : cs.any (contains id) = false := by
          rw [List.any_eq_false]
          intro c member within
          exact absent ((mem_slotIds rfl).mpr ⟨c, member, contains_iff.mp within⟩)
        simp [nowhere]
    · intro x member
      obtain ⟨c, inside, rfl⟩ := List.mem_map.mp member
      apply below c inside
      intro within
      cases n with
      | split => exact absent ((mem_slotIds rfl).mpr ⟨c, inside, within⟩)
      | tabs => exact absent ((mem_slotIds rfl).mpr ⟨c, inside, within⟩)
      | slot => simp at inside

/-- `tabs_of` reports the innermost group of the chain. -/
theorem tabsOf_chain (n : Node P) : n.slotIds.Nodup → tabsOf id n = (chain isTabs id n).head?.map fun o =>
    (o.1.children.filterMap firstSlotId, min o.1.active (o.1.children.length - 1)) := by
  induction n using induct with
  | step n below =>
    intro once
    rw [tabsOf_eq]
    cases found : position id n.children with
    | none =>
      have absent := position_none found
      rw [chain_absent found, findSome_nowhere]
      · cases n with
        | tabs cs a =>
          rw [children] at found
          simp [any_contains, found]
        | split => rfl
        | slot => rfl
      · intro x member
        obtain ⟨c, inside, rfl⟩ := List.mem_map.mp member
        exact tabsOf_absent c (absent c inside)
    | some pos =>
      obtain ⟨c, there, contains⟩ := position_some found
      have inside := below c (List.mem_of_getElem? there) (once_child once (List.mem_of_getElem? there))
      have only : (n.children.map (tabsOf id)).findSome? (fun inside => inside) = tabsOf id c := by
        apply findSome_at (i := pos)
        · rw [List.getElem?_map, there, Option.map_some]
        · intro j other
          rw [List.getElem?_map]
          cases at_ : n.children[j]? with
          | none => rfl
          | some d =>
            apply tabsOf_absent
            rw [← contains_iff, contains_of_unique once there contains other at_]
            exact Bool.false_ne_true
      rw [only, inside, chain_at found there]
      cases chain isTabs id c with
      | cons o rest => rfl
      | nil =>
        cases n with
        | tabs cs a =>
          rw [children] at found
          simp [any_contains, found, isTabs, active]
        | split => rfl
        | slot => rfl

/-- Where sizes change, the chain still starts with the same split, changed. -/
theorem chain_after [DecidableEq P] {f : List Size → Nat → List Size} (same : ∀ zs pos, (f zs pos).length = zs.length)
    (n : Node P) : n.All Formed → n.slotIds.Nodup →
      (chain isSplit id (mapInner isSplit (withSizes f) id n)).head? =
        (chain isSplit id n).head?.map fun o => (withSizes f o.1 o.2, o.2) := by
  induction n using induct with
  | step n below =>
    intro formed once
    cases found : position id n.children with
    | none => rw [mapInner_absent found, chain_absent found]; rfl
    | some pos =>
      obtain ⟨c, there, contains⟩ := position_some found
      have member := List.mem_of_getElem? there
      have formedC := ((all_iff n).mp formed).2 c member
      have inside := below c member formedC (once_child once member)
      have kept := (mapSplitOf_kept same n formed : Kept n (mapSplitOf id f n) [] []).slotIds
      have keptC := (mapSplitOf_kept same c formedC : Kept c (mapSplitOf id f c) [] []).slotIds
      rw [mapSplitOf_eq, mapInner_at once there contains] at kept
      rw [mapSplitOf_eq] at keptC
      rw [mapInner_at once there contains, chain_at found there]
      by_cases still : mapInner isSplit (withSizes f) id c = c
      · rw [still] at inside
        rw [if_pos still]
        cases n with
        | slot => cases there
        | tabs cs a =>
          simp only [isSplit, Bool.false_eq_true, if_false, List.append_nil]
          rw [chain_at found there]
          simpa [isSplit] using inside
        | split d cs zs =>
          simp only [isSplit, if_true]
          have found' : position id (withSizes f (split d cs zs) pos).children = some pos := found
          have there' : (withSizes f (split d cs zs) pos).children[pos]? = some c := there
          rw [chain_at found' there']
          cases below_ : chain isSplit id c with
          | nil => rfl
          | cons o rest =>
            rw [below_] at inside
            exact inside
      · rw [if_neg still] at kept ⊢
        have once' : (n.withChild pos (mapInner isSplit (withSizes f) id c)).slotIds.Nodup := kept.nodup_iff.mpr once
        have there' := getElem?_withChild there (mapInner isSplit (withSizes f) id c)
        have found' := position_unique once' there' (keptC.mem_iff.mpr contains)
        rw [chain_at found' there']
        cases below_ : chain isSplit id c with
        | nil =>
          exact absurd ((mapInner_same c (once_child once member)).mpr (by rw [below_]; simp)) still
        | cons o rest =>
          rw [below_] at inside
          cases after : chain isSplit id (mapInner isSplit (withSizes f) id c) with
          | nil =>
            rw [after] at inside
            cases inside
          | cons o' rest' =>
            rw [after] at inside
            exact inside

end Node

namespace Request

open Node

variable {id : SlotId}

/-- The number of the size that `sizes_of` reports. -/
def number (reported : List Size × Nat) : Nat :=
  match reported.1[reported.2]? with
  | some (.weight w) => w
  | some (.fixed n) => n
  | _ => 0

/-- What a key promises: of its kind of nodes only the innermost one around the slot changes, and
`resize` moves the size that is reported in the direction it is asked for, if it moves. -/
structure ChangesItsOwn [DecidableEq P] (request : Request) (id : SlotId) (tree : Node P) : Prop where
  inner : Inner request.kind id tree (request.apply id tree)
  moves : ∀ delta, request = .resize delta → ∀ before after, sizesOf id tree = some before →
    sizesOf id (request.apply id tree) = some after →
      (0 < delta → number before ≤ number after) ∧ (delta < 0 → number after ≤ number before)

/-- A size that the bounds of the key do not turn back. -/
def WithinBounds (delta : Int) : Option Size → Prop
  | some (.weight w) => (0 < delta → w ≤ 10) ∧ (delta < 0 → 1 ≤ w)
  | some (.fixed n) => (0 < delta → n ≤ 100) ∧ (delta < 0 → 2 ≤ n)
  | _ => True

def InBounds (o : Node P × Nat) : Request → Prop
  | resize delta => WithinBounds delta o.1.sizes[o.2]?
  | _ => True

/-- The innermost node has something to change, or no outer one has, and its size is not out of
the bounds of the key. -/
def Meant (request : Request) (id : SlotId) (tree : Node P) : Prop :=
  match chain request.kind id tree with
  | [] => True
  | first :: outer => (¬request.Idle first ∨ ∀ o ∈ outer, request.Idle o) ∧ request.InBounds first

theorem nudge_moves {delta : Int} {zs : List Size} {pos : Nat} :
    ((0 < delta → number (zs, pos) ≤ number (nudge delta zs pos, pos)) ∧
      (delta < 0 → number (nudge delta zs pos, pos) ≤ number (zs, pos))) ↔ WithinBounds delta zs[pos]? := by
  unfold number nudge
  cases at_ : zs[pos]? with
  | none => simp [at_, WithinBounds]
  | some z =>
    have placed (z' : Size) : (zs.set pos z')[pos]? = some z' :=
      List.getElem?_set_self (List.getElem?_eq_some_iff.mp at_).1
    cases z with
    | auto => simp [at_, WithinBounds]
    | weight w =>
      simp only [placed, WithinBounds]
      omega
    | fixed n =>
      simp only [placed, WithinBounds]
      omega

theorem length_nudge (delta : Int) (zs : List Size) (pos : Nat) : (nudge delta zs pos).length = zs.length := by
  unfold nudge
  split <;> simp

/-- What `sizes_of` reports after a `resize`. -/
theorem sizesOf_resize [DecidableEq P] {delta : Int} {tree : Node P} (formed : tree.All Formed) (once : tree.slotIds.Nodup) :
    sizesOf id ((resize delta).apply id tree) =
      (sizesOf id tree).map fun reported => (nudge delta reported.1 reported.2, reported.2) := by
  have kept := (mapSplitOf_kept (length_nudge delta) tree formed : Kept tree (mapSplitOf id (nudge delta) tree) [] []).slotIds
  rw [mapSplitOf_eq] at kept
  rw [apply_eq, sizesOf_chain tree once]
  have after : (chain isSplit id (mapInner isSplit (withSizes (nudge delta)) id tree)).head? =
      (chain isSplit id tree).head?.map fun o => (withSizes (nudge delta) o.1 o.2, o.2) :=
    chain_after (length_nudge delta) tree formed once
  rw [show (resize delta).kind (P := P) = isSplit from rfl, show (resize delta).change (P := P) = withSizes (nudge delta) from rfl,
    sizesOf_chain _ (kept.nodup_iff.mpr once), after, Option.map_map, Option.map_map]
  cases chain_ : chain isSplit id tree with
  | nil => rfl
  | cons first outer =>
    have own := (chain_mem tree formed once (chain_ ▸ List.mem_cons_self ..)).1
    obtain ⟨n, pos⟩ := first
    cases n with
    | split d cs zs => rfl
    | tabs => cases own
    | slot => cases own

theorem fires_iff {request : Request} {tree : Node P} (formed : tree.All Formed) (once : tree.slotIds.Nodup) :
    Fires request.change (chain request.kind id tree) ↔
      match chain request.kind id tree with
      | [] => True
      | first :: outer => ¬request.Idle first ∨ ∀ o ∈ outer, request.Idle o := by
  have idle : ∀ o ∈ chain request.kind id tree, (request.change o.1 o.2 = o.1 ↔ request.Idle o) := by
    intro o member
    obtain ⟨own, formed, once, c, there⟩ := chain_mem tree formed once member
    exact change_same own there formed once
  cases chain_ : chain request.kind id tree with
  | nil => exact Iff.rfl
  | cons first outer =>
    rw [chain_] at idle
    apply or_congr (not_congr (idle first (List.mem_cons_self ..)))
    apply forall₂_congr
    exact fun o member => idle o (List.mem_cons_of_mem _ member)

/-- Only `resize` has bounds, those of the size that is reported. -/
theorem bounds_iff [DecidableEq P] {request : Request} {tree : Node P} (formed : tree.All Formed)
    (once : tree.slotIds.Nodup) :
    (∀ delta, request = .resize delta → ∀ before after, sizesOf id tree = some before →
      sizesOf id (request.apply id tree) = some after →
        (0 < delta → number before ≤ number after) ∧ (delta < 0 → number after ≤ number before)) ↔
      ∀ first ∈ (chain request.kind id tree).head?, request.InBounds first := by
  cases request with
  | equalize => simp [InBounds]
  | setActiveFor i => simp [InBounds]
  | moveTab delta => simp [InBounds]
  | resize delta =>
    have reported : sizesOf id tree = _ := sizesOf_chain tree once
    have changed : sizesOf id ((resize delta).apply id tree) = _ := sizesOf_resize formed once
    constructor
    · intro moves first member
      have found : (chain isSplit id tree).head? = some first := member
      rw [found] at reported
      rw [reported] at changed
      exact nudge_moves.mp (moves delta rfl _ _ reported changed)
    · intro bounds delta' same before after found found'
      obtain rfl := Request.resize.inj same
      rw [found] at changed reported
      obtain rfl := Option.some.inj (found'.symm.trans changed)
      obtain ⟨first, head, rfl⟩ := Option.map_eq_some_iff.mp reported.symm
      exact nudge_moves.mpr (bounds first head)

/-- In a valid tree, a key changes what it is meant for exactly when that has something to change
that is within bounds, or nothing around it has. That is the node `sizes_of` and `tabs_of`
report. -/
theorem keys_change_their_own [DecidableEq P] {tree : Node P} (valid : validate tree = .ok ()) (id : SlotId)
    (request : Request) :
    (request.ChangesItsOwn id tree ↔ request.Meant id tree) ∧
      (sizesOf id tree = (chain isSplit id tree).head?.map fun o => (o.1.sizes, o.2)) ∧
      (tabsOf id tree = (chain isTabs id tree).head?.map fun o =>
        (o.1.children.filterMap firstSlotId, min o.1.active (o.1.children.length - 1))) := by
  obtain ⟨once, -, formed⟩ := (validate_ok tree).mp valid
  refine ⟨?_, sizesOf_chain tree once, tabsOf_chain tree once⟩
  have inner : Inner request.kind id tree (mapInner request.kind request.change id tree) ↔
      Fires request.change (chain request.kind id tree) := mapInner_inner (local_ request) tree formed once
  rw [← apply_eq, fires_iff formed once] at inner
  constructor
  · intro changes
    have first := inner.mp changes.inner
    have within := (bounds_iff formed once).mp changes.moves
    unfold Meant
    cases chain_ : chain request.kind id tree with
    | nil => trivial
    | cons o outer =>
      rw [chain_] at first within
      exact ⟨first, within o rfl⟩
  · intro meant
    unfold Meant at meant
    constructor
    · apply inner.mpr
      cases chain_ : chain request.kind id tree with
      | nil => trivial
      | cons o outer =>
        rw [chain_] at meant
        exact meant.1
    · apply (bounds_iff formed once).mpr
      cases chain_ : chain request.kind id tree with
      | nil => simp
      | cons o outer =>
        rw [chain_] at meant
        simpa using meant.2

/-- Two listings beside a third, with the weights of the inner two. -/
def nested (first second : Nat) : Node Unit :=
  split .horizontal
    [split .vertical [slot 1 browser () {}, slot 2 browser () {}] [.weight first, .weight second], slot 3 browser () {}]
    [.weight 1, .weight 1]

theorem keys_change_their_own_nested : ChangesItsOwn (.resize 1) 1 (nested 1 1) := by
  apply (keys_change_their_own (by decide) 1 (.resize 1)).1.mpr
  refine ⟨.inl fun idle => ?_, by decide, by decide⟩
  rcases idle with ⟨zero, -⟩ | ⟨-, ten⟩ | ⟨negative, -⟩
  · exact absurd zero (by decide)
  · exact absurd ten (by decide)
  · exact absurd negative (by decide)

/-- A weight at its bound widens what the inner split is in instead, and one that a drag wrote
falls to the bound. -/
theorem resize_misses :
    (resize 1).apply 1 (nested 10 1) =
      split .horizontal
        [split .vertical [slot 1 browser () {}, slot 2 browser () {}] [.weight 10, .weight 1], slot 3 browser () {}]
        [.weight 2, .weight 1] ∧
    sizesOf 1 ((resize 1).apply 1 (nested 60 40)) = some ([.weight 10, .weight 40], 0) ∧
    ¬∀ (request : Request) (id : SlotId) (tree : Node Unit), validate tree = .ok () → request.ChangesItsOwn id tree := by
  have fallen : sizesOf 1 ((resize 1).apply 1 (nested 60 40)) = some ([.weight 10, .weight 40], 0) := by decide
  refine ⟨by decide, fallen, fun claim => ?_⟩
  have moves := (claim (.resize 1) 1 (nested 60 40) (by decide)).moves 1 rfl ([.weight 60, .weight 40], 0) _ (by decide) fallen
  exact absurd (moves.1 (by decide)) (by decide)

end Request

end Norte.Layout
