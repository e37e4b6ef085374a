import Norte.LayoutKept

/-! A key that changes the layout around a slot. It is meant for the innermost split, or group,
that contains the slot; where that one does not change, the recursion goes on outwards. -/
namespace Norte.Layout.Node

variable {P : Type}

def isSplit : Node P → Bool
  | split .. => true
  | _ => false

def isTabs : Node P → Bool
  | tabs .. => true
  | _ => false

/-- The nodes of a kind that contain the slot, the innermost first, each with the position of the
child that contains it. -/
def chain (kind : Node P → Bool) (id : SlotId) : Node P → List (Node P × Nat) := walk fun self below =>
  match position id self.children with
  | none => []
  | some pos => below.getD pos [] ++ if kind self then [(self, pos)] else []

/-- The recursion of both keys: the first child that is changed inside, or else the node. -/
def mapInner [DecidableEq P] (kind : Node P → Bool) (change : Node P → Nat → Node P) (id : SlotId) :
    Node P → Node P := walk fun self inside =>
  match changedInside id self.children inside with
  | some (i, changed) => self.withChild i changed
  | none =>
    match position id self.children with
    | some pos => if kind self then change self pos else self
    | none => self

def withSizes (f : List Size → Nat → List Size) (n : Node P) (pos : Nat) : Node P :=
  match n with
  | split dir children sizes => split dir children (f sizes pos)
  | other => other

def withTabs (f : List (Node P) → Nat → List (Node P) × Nat) (n : Node P) (pos : Nat) : Node P :=
  match n with
  | tabs children _ => tabs (f children pos).1 (f children pos).2
  | other => other

theorem mapSplitOf_eq [DecidableEq P] (id : SlotId) (f : List Size → Nat → List Size) (n : Node P) :
    mapSplitOf id f n = mapInner isSplit (withSizes f) id n := by
  unfold mapSplitOf mapInner
  congr 1
  funext self inside
  cases changedInside id self.children inside with
  | some found => rfl
  | none =>
    cases self with
    | split d cs zs =>
      dsimp only [children]
      cases position id cs <;> rfl
    | tabs cs a =>
      dsimp only [children]
      cases position id cs <;> rfl
    | slot i k p b => rfl

theorem mapTabsOf_eq [DecidableEq P] (id : SlotId) (f : List (Node P) → Nat → List (Node P) × Nat) (n : Node P) :
    mapTabsOf id f n = mapInner isTabs (withTabs f) id n := by
  unfold mapTabsOf mapInner
  congr 1
  funext self inside
  cases changedInside id self.children inside with
  | some found => rfl
  | none =>
    cases self with
    | split d cs zs =>
      dsimp only [children]
      cases position id cs <;> rfl
    | tabs cs a =>
      dsimp only [children]
      cases position id cs <;> rfl
    | slot i k p b => rfl

/-- `n'` is `n`, changed nowhere but in the innermost node of the kind that contains the slot. -/
inductive Inner (kind : Node P → Bool) (id : SlotId) : Node P → Node P → Prop where
  | same {n} : Inner kind id n n
  | here {n n'} (own : kind n = true) (contains : id ∈ n.slotIds) (innermost : ∀ c ∈ n.children, chain kind id c = [])
    (still : kind n' = true) (children : n'.children.Perm n.children) : Inner kind id n n'
  | inside {n c c' i} (there : n.children[i]? = some c) (contains : id ∈ c.slotIds) (inner : Inner kind id c c') :
    Inner kind id n (n.withChild i c')

section

variable {kind : Node P → Bool} {id : SlotId}

/-- No slot is in two children. -/
theorem position_unique {n c : Node P} (once : n.slotIds.Nodup) {i : Nat} (there : n.children[i]? = some c)
    (contains : id ∈ c.slotIds) : position id n.children = some i := by
  have inner : n.isSlot = false := by
    cases n with
    | slot => simp at there
    | split => rfl
    | tabs => rfl
  rw [slotIds_children inner, List.nodup_flatMap] at once
  obtain ⟨bound, rfl⟩ := List.getElem?_eq_some_iff.mp there
  apply List.findIdx?_eq_some_iff_getElem.mpr
  refine ⟨bound, contains_iff.mpr contains, fun j before earlier => ?_⟩
  have apart := List.pairwise_iff_getElem.mp once.2 j i (Nat.lt_trans before bound) bound before
  exact apart (contains_iff.mp earlier) contains

theorem once_child {n c : Node P} (once : n.slotIds.Nodup) (member : c ∈ n.children) : c.slotIds.Nodup := by
  cases n with
  | slot => simp at member
  | split d cs zs =>
    rw [slotIds_children rfl, List.nodup_flatMap] at once
    exact once.1 c member
  | tabs cs a =>
    rw [slotIds_children rfl, List.nodup_flatMap] at once
    exact once.1 c member

theorem chain_absent {n : Node P} (absent : position id n.children = none) : chain kind id n = [] := by
  rw [chain, walk_eq, absent]

theorem chain_at {n c : Node P} {pos : Nat} (found : position id n.children = some pos) (there : n.children[pos]? = some c) :
    chain kind id n = chain kind id c ++ if kind n then [(n, pos)] else [] := by
  rw [chain, walk_eq, found]
  dsimp only
  rw [List.getD_eq_getElem?_getD, List.getElem?_map, there]
  rfl

theorem firstSome_nowhere {l : List (Option α)} (nowhere : ∀ j : Nat, l[j]?.getD none = none) : firstSome l = none := by
  induction l with
  | nil => rfl
  | cons x l ih =>
    have head : x = none := nowhere 0
    rw [head, firstSome, ih fun j => nowhere (j + 1)]
    rfl

theorem firstSome_at {l : List (Option α)} {i : Nat} {x : Option α} (there : l[i]? = some x)
    (others : ∀ j ≠ i, l[j]?.getD none = none) : firstSome l = x.map fun a => (i, a) := by
  induction l generalizing i with
  | nil => simp at there
  | cons y l ih =>
    cases i with
    | zero =>
      obtain rfl := Option.some.inj there
      cases y with
      | some a => rfl
      | none =>
        rw [firstSome, firstSome_nowhere fun j => others (j + 1) (Nat.succ_ne_zero j)]
        rfl
    | succ i =>
      have head : y = none := others 0 (Nat.succ_ne_zero i).symm
      rw [head, firstSome, ih there fun j other => others (j + 1) fun same => other (Nat.succ.inj same)]
      cases x <;> rfl

/-- Only the child that contains the slot can be the changed one. -/
theorem changedInside_at [DecidableEq P] {n c : Node P} {f : Node P → Node P} {pos : Nat} (once : n.slotIds.Nodup)
    (there : n.children[pos]? = some c) (contains : id ∈ c.slotIds) (slots : c.isSlot = true → f c = c) :
    changedInside id n.children (n.children.map f) = if f c = c then none else some (pos, f c) := by
  rw [changedInside, List.zipWith_map_right, List.zipWith_self]
  rw [firstSome_at (i := pos) (x := if f c = c then none else some (f c))]
  · split <;> rfl
  · rw [List.getElem?_map, there, Option.map_some, contains_iff.mpr contains]
    by_cases same : f c = c
    · simp [same]
    · have inner : c.isSlot = false := by
        cases isSlot : c.isSlot with
        | false => rfl
        | true => exact absurd (slots isSlot) same
      simp [same, inner]
  · intro j other
    rw [List.getElem?_map]
    cases at_ : n.children[j]? with
    | none => rfl
    | some d =>
      have absent : d.contains id = false := by
        cases within : d.contains id with
        | false => rfl
        | true =>
          have first := position_unique once at_ (contains_iff.mp within)
          rw [position_unique once there contains] at first
          exact absurd (Option.some.inj first).symm other
      simp [absent]

theorem contains_of_chain {n : Node P} (some_ : chain kind id n ≠ []) :
    ∃ (pos : Nat) (c : Node P), n.children[pos]? = some c ∧ id ∈ c.slotIds := by
  cases found : position id n.children with
  | none => exact absurd (chain_absent found) some_
  | some pos =>
    obtain ⟨c, there, contains⟩ := position_some found
    exact ⟨pos, c, there, contains⟩

theorem getElem?_withChild {n c : Node P} {i : Nat} (there : n.children[i]? = some c) (c' : Node P) :
    (n.withChild i c').children[i]? = some c' := by
  rw [children_withChild, List.getElem?_set_self (List.getElem?_eq_some_iff.mp there).1]

theorem withChild_inj {n c c' : Node P} {i : Nat} (there : n.children[i]? = some c) (same : n.withChild i c' = n) :
    c' = c := by
  have at_ := getElem?_withChild there c'
  rw [same, there] at at_
  exact (Option.some.inj at_).symm

/-- What a change does to a node of the kind: its children stay, if in another order, and it is
no change of one child. -/
structure Local (kind : Node P → Bool) (change : Node P → Nat → Node P) : Prop where
  keeps : ∀ {n c : Node P} {pos : Nat}, kind n = true → n.children[pos]? = some c →
    kind (change n pos) = true ∧ (change n pos).children.Perm n.children
  apart : ∀ {n : Node P} {pos : Nat}, kind n = true → n.All Formed → n.slotIds.Nodup → change n pos ≠ n →
    ∀ i c', change n pos ≠ n.withChild i c'

/-- The innermost node is changed, or no other would be. -/
def Fires (change : Node P → Nat → Node P) : List (Node P × Nat) → Prop
  | [] => True
  | (n, pos) :: outer => change n pos ≠ n ∨ ∀ o ∈ outer, change o.1 o.2 = o.1

/-- A changed child is changed in its own innermost node. -/
theorem inner_child {n c c' : Node P} {pos : Nat} (once : n.slotIds.Nodup) (there : n.children[pos]? = some c)
    (contains : id ∈ c.slotIds) (moved : c' ≠ c) (some_ : chain kind id c ≠ []) :
    Inner kind id n (n.withChild pos c') ↔ Inner kind id c c' := by
  constructor
  · intro inner
    generalize made : n.withChild pos c' = n' at inner
    cases inner with
    | same => exact absurd (withChild_inj there made) moved
    | here own within innermost => exact absurd (innermost c (List.mem_of_getElem? there)) some_
    | inside at_ within inner =>
      obtain rfl := Option.some.inj ((position_unique once there contains).symm.trans (position_unique once at_ within))
      obtain rfl := Option.some.inj (there.symm.trans at_)
      have left := getElem?_withChild there c'
      rw [made, getElem?_withChild there] at left
      obtain rfl := Option.some.inj left
      exact inner
  · exact fun inner => .inside there contains inner

section

variable {change : Node P → Nat → Node P}

theorem fires_append {inner outer : List (Node P × Nat)} {o : Node P × Nat} (member : o ∈ inner)
    (moves : change o.1 o.2 ≠ o.1) : Fires change (inner ++ outer) ↔ Fires change inner := by
  cases inner with
  | nil => cases member
  | cons first inner =>
    simp only [List.cons_append, Fires]
    constructor
    · rintro (moved | still)
      · exact .inl moved
      · exact .inr fun o member => still o (List.mem_append_left _ member)
    · rintro (moved | still)
      · exact .inl moved
      · rcases List.mem_cons.mp member with rfl | later
        · exact .inl moves
        · exact absurd (still o later) moves

/-- With all the inner ones still, only the outer one can move, and it must not. -/
theorem fires_still {inner : List (Node P × Nat)} {o : Node P × Nat} (still : ∀ o ∈ inner, change o.1 o.2 = o.1) :
    Fires change (inner ++ [o]) ↔ inner = [] ∨ change o.1 o.2 = o.1 := by
  cases inner with
  | nil => simp [Fires]
  | cons first inner =>
    have head := still first (List.mem_cons_self ..)
    have rest : ∀ o ∈ inner, change o.1 o.2 = o.1 := fun o member => still o (List.mem_cons_of_mem _ member)
    simp only [List.cons_append, Fires, head, ne_eq, not_true_eq_false, false_or, List.mem_append, List.mem_singleton,
      reduceCtorEq]
    constructor
    · exact fun all => all o (.inr rfl)
    · rintro moved o' (member | rfl)
      · exact rest o' member
      · exact moved

end

variable [DecidableEq P] {change : Node P → Nat → Node P}

theorem mapInner_eq (n : Node P) : mapInner kind change id n =
    match changedInside id n.children (n.children.map (mapInner kind change id)) with
    | some (i, changed) => n.withChild i changed
    | none =>
      match position id n.children with
      | some pos => if kind n then change n pos else n
      | none => n := walk_eq _ n

theorem mapInner_slot {n : Node P} (isSlot : n.isSlot = true) : mapInner kind change id n = n := by
  cases n with
  | slot => rfl
  | split => cases isSlot
  | tabs => cases isSlot

theorem mapInner_at {n c : Node P} {pos : Nat} (once : n.slotIds.Nodup) (there : n.children[pos]? = some c)
    (contains : id ∈ c.slotIds) : mapInner kind change id n =
      if mapInner kind change id c = c then if kind n then change n pos else n
      else n.withChild pos (mapInner kind change id c) := by
  rw [mapInner_eq, changedInside_at once there contains mapInner_slot, position_unique once there contains]
  by_cases same : mapInner kind change id c = c
  · rw [if_pos same, if_pos same]
  · rw [if_neg same, if_neg same]

theorem mapInner_absent {n : Node P} (absent : position id n.children = none) : mapInner kind change id n = n := by
  rw [mapInner_eq, absent]
  have none_ : changedInside id n.children (n.children.map (mapInner kind change id)) = none := by
    cases found : changedInside id n.children (n.children.map (mapInner kind change id)) with
    | none => rfl
    | some found' =>
      rw [changedInside, List.zipWith_map_right, List.zipWith_self] at found
      have some_ := firstSome_some (i := found'.1) (a := found'.2) found
      rw [List.getElem?_map] at some_
      obtain ⟨c, there, changed⟩ := Option.map_eq_some_iff.mp some_
      have missing := position_none absent c (List.mem_of_getElem? there)
      rw [← contains_iff] at missing
      simp [missing] at changed
  rw [none_]

/-- The recursion changes something exactly when one of the nodes of the chain would change. -/
theorem mapInner_same (n : Node P) :
    n.slotIds.Nodup → (mapInner kind change id n = n ↔ ∀ o ∈ chain kind id n, change o.1 o.2 = o.1) := by
  induction n using induct with
  | step n below =>
    intro once
    cases found : position id n.children with
    | none => simp [mapInner_absent found, chain_absent found]
    | some pos =>
      obtain ⟨c, there, contains⟩ := position_some found
      have member := List.mem_of_getElem? there
      have inside := below c member (once_child once member)
      rw [mapInner_at once there contains, chain_at found there]
      by_cases same : mapInner kind change id c = c
      · have still := inside.mp same
        rw [if_pos same]
        cases own : kind n with
        | true =>
          constructor
          · intro unchanged o member
            rcases List.mem_append.mp member with below | here
            · exact still o below
            · rw [List.mem_singleton.mp here]
              exact unchanged
          · exact fun all => all (n, pos) (List.mem_append_right _ (List.mem_singleton_self _))
        | false => simpa using still
      · rw [if_neg same]
        have moves : n.withChild pos (mapInner kind change id c) ≠ n := mt (withChild_inj there) same
        refine iff_of_false moves fun still => same (inside.mpr fun o member => still o ?_)
        exact List.mem_append_left _ member

/-- A node of the kind that changes itself is changed in its innermost node if it is that one. -/
theorem inner_own {n c : Node P} {pos : Nat} (local_ : Local kind change) (formed : n.All Formed)
    (once : n.slotIds.Nodup) (there : n.children[pos]? = some c) (contains : id ∈ c.slotIds) (own : kind n = true) :
    Inner kind id n (change n pos) ↔ chain kind id c = [] ∨ change n pos = n := by
  have inner : n.isSlot = false := by
    cases n with
    | slot => simp at there
    | split => rfl
    | tabs => rfl
  have within : id ∈ n.slotIds := (mem_slotIds inner).mpr ⟨c, List.mem_of_getElem? there, contains⟩
  constructor
  · intro changed
    by_cases still : change n pos = n
    · exact .inr still
    left
    have apart := local_.apart own formed once still
    generalize made : change n pos = n' at changed still apart
    cases changed with
    | same => exact absurd rfl still
    | here own within innermost => exact innermost c (List.mem_of_getElem? there)
    | inside at_ within inner => exact absurd rfl (apart _ _)
  · rintro (innermost | still)
    · obtain ⟨kept, children⟩ := local_.keeps own there
      refine .here own within (fun d member => ?_) kept children
      by_contra some_
      obtain ⟨j, at_⟩ := List.getElem?_of_mem member
      obtain ⟨i, e, below, holds⟩ := contains_of_chain some_
      have inD : d.isSlot = false := by
        cases d with
        | slot => simp at below
        | split => rfl
        | tabs => rfl
      have holdsD : id ∈ d.slotIds := (mem_slotIds inD).mpr ⟨e, List.mem_of_getElem? below, holds⟩
      have place := (position_unique once there contains).symm.trans (position_unique once at_ holdsD)
      obtain rfl := Option.some.inj place
      obtain rfl := Option.some.inj (there.symm.trans at_)
      exact some_ innermost
    · rw [still]
      exact .same

/-- The recursion stays within the innermost node exactly when that one changes, or no other would. -/
theorem mapInner_inner (local_ : Local kind change) (n : Node P) : n.All Formed → n.slotIds.Nodup →
    (Inner kind id n (mapInner kind change id n) ↔ Fires change (chain kind id n)) := by
  induction n using induct with
  | step n below =>
    intro formed once
    cases found : position id n.children with
    | none =>
      rw [mapInner_absent found, chain_absent found]
      exact iff_of_true .same trivial
    | some pos =>
      obtain ⟨c, there, contains⟩ := position_some found
      have member := List.mem_of_getElem? there
      have onceC := once_child once member
      have formedC := ((all_iff n).mp formed).2 c member
      have inside : mapInner kind change id c = c ↔ ∀ o ∈ chain kind id c, change o.1 o.2 = o.1 :=
        mapInner_same c onceC
      rw [mapInner_at once there contains, chain_at found there]
      by_cases same : mapInner kind change id c = c
      · have still := inside.mp same
        rw [if_pos same]
        cases own : kind n with
        | false =>
          have fires := (below c member formedC onceC).mp (by rw [same]; exact .same)
          simp only [Bool.false_eq_true, if_false, List.append_nil]
          exact iff_of_true .same fires
        | true =>
          simp only [if_true]
          rw [inner_own local_ formed once there contains own, fires_still still]
      · rw [if_neg same]
        have moves : ∃ o ∈ chain kind id c, change o.1 o.2 ≠ o.1 := by
          by_contra none_
          refine same (inside.mpr fun o member => ?_)
          by_contra moved
          exact none_ ⟨o, member, moved⟩
        obtain ⟨o, inChain, moved⟩ := moves
        rw [inner_child once there contains same (List.ne_nil_of_mem inChain), below c member formedC onceC,
          fires_append inChain moved]

end

end Norte.Layout.Node
