import Norte.LayoutKept

/-! Every edit of a valid window tree: what it may take out, what it puts in, and that the rest
stays, in a tree that `validate` accepts as long as a listing is left. -/
namespace Norte.Layout

variable {P : Type}

/-- The slot an edit puts in. -/
structure Leaf (P : Type) where
  id : SlotId
  kind : KindId
  params : P
  bindings : Bindings

def Leaf.node (leaf : Leaf P) : Node P := .slot leaf.id leaf.kind leaf.params leaf.bindings

inductive Edit (P : Type) where
  | splitSlot (id : SlotId) (dir : Dir) (new : Leaf P)
  | dock (anchor : SlotId) (edge : Edge) (size : Size) (new : Leaf P)
  | dockGrouped (anchor : SlotId) (edge : Edge) (size : Size) (new : Leaf P)
  | dockOuter (id : SlotId) (edge : Edge) (size : Size)
  | placeBeside (target : SlotId) (edge : Edge) (new : Leaf P)
  | moveSlot (id target : SlotId) (zone : DropZone)
  | flip (id : SlotId)
  | closeSlot (id : SlotId)
  | addTab (id : SlotId) (new : Leaf P)
  | insertTabNear (id : SlotId) (new : Leaf P)
  | wrapInTabs (id : SlotId)
  | closeTab (id : SlotId)
  | setActiveFor (id : SlotId) (i : Nat)
  | moveTab (id : SlotId) (delta : Int)
  | reveal (id : SlotId)
  | resize (id : SlotId) (delta : Int)
  | equalize (id : SlotId)
  | dragBorderBetween (a b : SlotId) (frac : Float32) (pairCells : Nat)

namespace Edit

/-- The tree the edit returns, when it returns one. -/
def apply [DecidableEq P] : Edit P → Node P → Option (Node P)
  | splitSlot id dir new, tree => some (Node.splitSlot id dir new.node tree)
  | dock anchor edge size new, tree => some (Node.dock anchor edge size new.node tree)
  | dockGrouped anchor edge size new, tree => some (Node.dockGrouped anchor edge size new.node tree)
  | dockOuter id edge size, tree => some (tree.dockOuter id edge size)
  | placeBeside target edge new, tree => Node.placeBeside target edge new.node tree
  | moveSlot id target zone, tree => some (tree.moveSlot id target zone)
  | flip id, tree => some (tree.flip id)
  | closeSlot id, tree => tree.closeSlot id
  | addTab id new, tree => some (Node.addTab id new.node tree)
  | insertTabNear id new, tree => Node.insertTabNear id new.node tree
  | wrapInTabs id, tree => some (tree.wrapInTabs id)
  | closeTab id, tree => tree.closeTab id
  | setActiveFor id i, tree => some (tree.setActiveFor id i)
  | moveTab id delta, tree => some (tree.moveTab id delta)
  | reveal id, tree => some (tree.reveal id)
  | resize id delta, tree => some (tree.resizeBy id delta)
  | equalize id, tree => some (tree.equalize id)
  | dragBorderBetween a b frac pairCells, tree => some (tree.dragBorderBetween a b frac pairCells)

/-- The slot the edit was given, if it puts one in. -/
def new : Edit P → Option (Leaf P)
  | splitSlot _ _ new | dock _ _ _ new | dockGrouped _ _ _ new | placeBeside _ _ new | addTab _ new
  | insertTabNear _ new => some new
  | _ => none

/-- A slot that is put in has an id the tree does not have. -/
def Fresh (edit : Edit P) (tree : Node P) : Prop := ∀ leaf ∈ edit.new, leaf.id ∉ tree.slotIds

/-- The leaves put in: none when the slot they were to go next to is not there. -/
def made (edit : Edit P) (tree : Node P) : List (Node P) :=
  match edit with
  | splitSlot id _ new | dock id _ _ new | dockGrouped id _ _ new | addTab id new =>
    if id ∈ tree.slotIds then [new.node] else []
  | placeBeside _ _ new | insertTabNear _ new => [new.node]
  | _ => []

/-- The leaves taken out: the slot that is closed, or all those of the tab that is. -/
def Gone (edit : Edit P) (tree : Node P) (gone : List (Node P)) : Prop :=
  match edit with
  | closeSlot id => ∃ leaf : Node P, leaf.leafId = some id ∧ gone = [leaf]
  | closeTab id => ∃ c : Node P, Node.InnermostTab id tree c ∧ gone = c.leaves
  | _ => gone = []

/-- What an edit of a valid tree gives. A group whose active tab is none of its tabs is one the
tree had, with as many tabs and that active. -/
structure Edited (edit : Edit P) (tree after : Node P) (out : List (Node P)) : Prop where
  gone : edit.Gone tree out
  valid : (∃ leaf ∈ tree.leaves, leaf.Listing ∧ leaf ∉ out) → validate after = .ok ()
  formed : after.All Node.Formed
  ranged : tree.All Node.InRange → after.All Node.InRange
  astray : ∀ (tabs : List (Node P)) (active : Nat), Node.Within (.tabs tabs active) after →
    tabs.length ≤ active →
      ∃ before : List (Node P), before.length = tabs.length ∧ Node.Within (.tabs before active) tree
  leaves : (after.leaves ++ out).Perm (tree.leaves ++ edit.made tree)
  once : after.slotIds.Nodup

/-- A tab goes next to a slot only if the slot is there. -/
theorem mem_of_insertTabNear {id : SlotId} {new : Node P} (tree : Node P) :
    ∀ after, Node.insertTabNear id new tree = some after → id ∈ tree.slotIds := by
  induction tree using Node.induct with
  | step n below =>
    intro after done
    have inner : n.isSlot = false := by
      cases n with
      | slot i k p b => cases done
      | split d cs zs => rfl
      | tabs cs a => rfl
    rw [Node.mem_slotIds inner]
    rw [Node.insertTabNear_eq] at done
    split at done
    · rename_i i changed first
      obtain ⟨c, _, member, inside⟩ := Node.firstSome_map first
      exact ⟨c, member, below c member changed inside⟩
    · cases n with
      | slot i k p b => cases inner
      | split d cs zs => cases done
      | tabs cs a =>
        obtain ⟨pos, found, _⟩ := Option.bind_eq_some_iff.mp done
        obtain ⟨c, there, inside⟩ := Node.position_some found
        exact ⟨c, List.mem_of_getElem? there, inside⟩

theorem addTab_made {id : SlotId} {new : Leaf P} {tree : Node P} (formed : tree.All Node.Formed) :
    Node.Kept tree (Node.addTab id new.node tree) [] (if id ∈ tree.slotIds then [new.node] else []) := by
  split
  · rename_i there
    exact Node.addTab_kept rfl formed there
  · rename_i absent
    have wrap := Node.wrapInTabs_kept id tree formed
    cases done : Node.insertTabNear id new.node (tree.wrapInTabs id) with
    | none => rwa [Node.addTab, done, Option.getD_none]
    | some after => exact absurd (wrap.slotIds.mem_iff.mp (mem_of_insertTabNear _ after done)) absent

theorem splitSlot_made {id : SlotId} {dir : Dir} {new : Leaf P} {tree : Node P} (formed : tree.All Node.Formed)
    (once : tree.slotIds.Nodup) :
    Node.Kept tree (Node.splitSlot id dir new.node tree) [] (if id ∈ tree.slotIds then [new.node] else []) := by
  split
  · rename_i there
    exact Node.splitSlot_kept rfl tree formed once there
  · rename_i absent
    rw [Node.splitSlot_absent tree absent]
    exact .refl formed

theorem dockCon_made {anchor : SlotId} {edge : Edge} {size : Size} {new : Leaf P} {agrupar : Bool} {tree : Node P}
    (formed : tree.All Node.Formed) : Node.Kept tree (Node.dockCon anchor edge size new.node agrupar tree) []
      (if anchor ∈ tree.slotIds then [new.node] else []) := by
  split
  · rename_i there
    exact Node.dockCon_kept rfl formed there
  · rename_i absent
    have same : (!tree.contains anchor) = true := by
      rw [Bool.not_eq_true', Bool.eq_false_iff]
      exact fun there => absent (Node.contains_iff.mp there)
    rw [Node.dockCon, if_pos same]
    exact .refl formed

/-- Each edit keeps the tree, up to what it takes out and puts in. -/
theorem kept [DecidableEq P] {edit : Edit P} {tree after : Node P} (formed : tree.All Node.Formed)
    (once : tree.slotIds.Nodup) (done : edit.apply tree = some after) :
    ∃ out, edit.Gone tree out ∧ Node.Kept tree after out (edit.made tree) := by
  cases edit with
  | splitSlot id dir new =>
    obtain rfl := Option.some.inj done
    exact ⟨[], rfl, splitSlot_made formed once⟩
  | dock anchor edge size new =>
    obtain rfl := Option.some.inj done
    exact ⟨[], rfl, dockCon_made formed⟩
  | dockGrouped anchor edge size new =>
    obtain rfl := Option.some.inj done
    exact ⟨[], rfl, dockCon_made formed⟩
  | dockOuter id edge size =>
    obtain rfl := Option.some.inj done
    exact ⟨[], rfl, Node.dockOuter_kept formed once⟩
  | placeBeside target edge new => exact ⟨[], rfl, Node.placeBeside_kept rfl tree after formed done⟩
  | moveSlot id target zone =>
    obtain rfl := Option.some.inj done
    exact ⟨[], rfl, Node.moveSlot_kept formed once⟩
  | flip id =>
    obtain rfl := Option.some.inj done
    exact ⟨[], rfl, Node.flip_kept formed⟩
  | closeSlot id =>
    obtain ⟨leaf, named, kept⟩ := Node.closeSlot_kept tree after formed done
    exact ⟨[leaf], ⟨leaf, named, rfl⟩, kept⟩
  | addTab id new =>
    obtain rfl := Option.some.inj done
    exact ⟨[], rfl, addTab_made formed⟩
  | insertTabNear id new => exact ⟨[], rfl, Node.insertTabNear_kept rfl tree after formed done⟩
  | wrapInTabs id =>
    obtain rfl := Option.some.inj done
    exact ⟨[], rfl, Node.wrapInTabs_kept id tree formed⟩
  | closeTab id =>
    obtain ⟨c, tab, kept⟩ := Node.closeTab_kept tree after formed done
    exact ⟨c.leaves, ⟨c, tab, rfl⟩, kept⟩
  | setActiveFor id i =>
    obtain rfl := Option.some.inj done
    exact ⟨[], rfl, Node.setActiveFor_kept formed⟩
  | moveTab id delta =>
    obtain rfl := Option.some.inj done
    exact ⟨[], rfl, Node.moveTab_kept formed⟩
  | reveal id =>
    obtain rfl := Option.some.inj done
    exact ⟨[], rfl, Node.reveal_kept tree formed⟩
  | resize id delta =>
    obtain rfl := Option.some.inj done
    exact ⟨[], rfl, Node.resizeBy_kept formed⟩
  | equalize id =>
    obtain rfl := Option.some.inj done
    exact ⟨[], rfl, Node.equalize_kept formed⟩
  | dragBorderBetween a b frac pairCells =>
    obtain rfl := Option.some.inj done
    exact ⟨[], rfl, Node.dragBorderBetween_kept tree formed⟩

/-- What is put in has the id of the slot the edit was given. -/
theorem made_ids {edit : Edit P} {tree : Node P} : edit.made tree = [] ∨ ∃ leaf ∈ edit.new, edit.made tree = [leaf.node] := by
  have either (new : Leaf P) (id : SlotId) : (if id ∈ tree.slotIds then [new.node] else []) = [] ∨
      ∃ leaf ∈ some new, (if id ∈ tree.slotIds then [new.node] else []) = [leaf.node] := by
    split
    · exact .inr ⟨new, rfl, rfl⟩
    · exact .inl rfl
  cases edit with
  | splitSlot id _ new => exact either new id
  | dock id _ _ new => exact either new id
  | dockGrouped id _ _ new => exact either new id
  | addTab id new => exact either new id
  | placeBeside _ _ new => exact .inr ⟨new, rfl, rfl⟩
  | insertTabNear _ new => exact .inr ⟨new, rfl, rfl⟩
  | _ => exact .inl rfl

/-- An edit with a fresh id leaves no id twice. -/
theorem once_after {edit : Edit P} {tree after : Node P} {out : List (Node P)} (once : tree.slotIds.Nodup)
    (fresh : edit.Fresh tree) (leaves : (after.leaves ++ out).Perm (tree.leaves ++ edit.made tree)) :
    after.slotIds.Nodup := by
  have ids := leaves.filterMap Node.leafId
  rw [List.filterMap_append, List.filterMap_append, ← Node.slotIds_eq, ← Node.slotIds_eq] at ids
  have before : (tree.slotIds ++ (edit.made tree).filterMap Node.leafId).Nodup := by
    obtain none_ | ⟨leaf, given, one⟩ := @made_ids P edit tree
    · rwa [none_, List.filterMap_nil, List.append_nil]
    · rw [one, List.nodup_append]
      refine ⟨once, List.nodup_singleton leaf.id, ?_⟩
      rintro id there _ member rfl
      obtain rfl : id = leaf.id := List.mem_singleton.mp member
      exact fresh leaf given there
  exact (List.nodup_append.mp (ids.nodup_iff.mpr before)).1

/-- Every edit of a valid tree, with a fresh id where it puts a slot in, gives a tree in shape
that holds the same leaves once each, but for those it closes and the one it puts in; and the
tree is valid as long as some listing was not closed. -/
theorem edits_keep [DecidableEq P] {edit : Edit P} {tree after : Node P} (valid : validate tree = .ok ())
    (fresh : edit.Fresh tree) (done : edit.apply tree = some after) : ∃ out, edit.Edited tree after out := by
  obtain ⟨once, _, formed⟩ := (validate_ok tree).mp valid
  obtain ⟨out, gone, kept⟩ := edit.kept formed once done
  have once' := once_after once fresh kept.leaves
  refine ⟨out, gone, ?_, kept.formed, kept.inRange, fun _ _ => kept.astray, kept.leaves, once'⟩
  rintro ⟨leaf, member, listing, stays⟩
  have still : leaf ∈ after.leaves := by
    have inside := kept.leaves.mem_iff.mpr (List.mem_append_left _ member)
    exact (List.mem_append.mp inside).resolve_right stays
  exact (validate_ok after).mpr ⟨once', ⟨leaf, still, listing⟩, kept.formed⟩

def sampleListing (id : SlotId) : Node Unit := .slot id browser () {}
def samplePlaces : Node Unit := .slot 9 "places" () {}

/-- A listing beside a panel. -/
def sampleBeside : Node Unit := .split .horizontal [samplePlaces, sampleListing 1] [.fixed 16, .weight 1]

/-- Two listings in one tab, and one in another. -/
def sampleTabs : Node Unit :=
  .tabs [.split .horizontal [sampleListing 1, sampleListing 2] [.weight 1, .weight 1], sampleListing 3] 0

theorem edits_keep_sampleBeside : ∃ out, Edit.Edited (.splitSlot 1 .horizontal ⟨2, browser, (), {}⟩) sampleBeside
    (.split .horizontal [samplePlaces, sampleListing 1, sampleListing 2] [.fixed 16, .weight 1, .weight 1]) out :=
  edits_keep (by decide) (by rintro leaf ⟨⟩; decide) (by decide)

/-- Closing a slot can leave a screen with no listing, and closing a tab takes out all its slots. -/
theorem closing_takes_more :
    (¬∀ (edit : Edit Unit) (tree after : Node Unit), validate tree = .ok () → edit.Fresh tree →
      edit.apply tree = some after → validate after = .ok ()) ∧
    ¬∀ (edit : Edit Unit) (tree after : Node Unit), validate tree = .ok () → edit.Fresh tree →
      edit.apply tree = some after → ∃ out : List (Node Unit), out.length ≤ 1 ∧
        (after.leaves ++ out).Perm (tree.leaves ++ edit.made tree) := by
  constructor
  · intro claim
    have refused := claim (.closeSlot 1) sampleBeside samplePlaces (by decide) (by rintro leaf ⟨⟩) (by decide)
    exact absurd refused (by decide)
  · intro claim
    obtain ⟨out, few, perm⟩ := claim (.closeTab 1) sampleTabs (sampleListing 3) (by decide) (by rintro leaf ⟨⟩) (by decide)
    have length := perm.length_eq
    rw [List.length_append, List.length_append, show (sampleListing 3).leaves.length = 1 from rfl,
      show sampleTabs.leaves.length = 3 from rfl] at length
    omega

end Edit

end Norte.Layout
