import Mathlib.Data.List.Nodup
import Mathlib.Data.List.Dedup
import Mathlib.Data.List.Sort
import Norte.FirstError

/-! The tree of the window system: splits, tab groups and slots, with the recursion that every
function on it uses and with `validate`, which says what a tree must be before it is used.
The parameters of a slot are never read here, so their type is a parameter. -/
namespace Norte.Layout

abbrev SlotId := Nat
abbrev KindId := String

def browser : KindId := "browser"

inductive Dir where
  | horizontal
  | vertical
  deriving DecidableEq, Repr

/-- How much room a child of a split asks for. -/
inductive Size where
  | fixed (cells : Nat)
  | weight (share : Nat)
  | auto
  deriving DecidableEq, Repr

inductive RoleId where
  | active
  | target
  deriving DecidableEq, Repr

inductive Follow where
  | role (role : RoleId)
  | slot (id : SlotId)
  deriving DecidableEq, Repr

structure Bindings where
  follows : Option Follow := none
  deriving DecidableEq, Repr

inductive Node (P : Type) where
  | split (dir : Dir) (children : List (Node P)) (sizes : List Size)
  | tabs (children : List (Node P)) (active : Nat)
  | slot (id : SlotId) (kind : KindId) (params : P) (bindings : Bindings)

namespace Node

variable {P : Type}

mutual
def decEq [DecidableEq P] : (a b : Node P) → Decidable (a = b)
  | split d cs zs, split d' cs' zs' =>
    match decEqs cs cs' with
    | isTrue same => decidable_of_iff (d = d' ∧ zs = zs') (by simp [same])
    | isFalse other => isFalse (by simp [other])
  | tabs cs a, tabs cs' a' =>
    match decEqs cs cs' with
    | isTrue same => decidable_of_iff (a = a') (by simp [same])
    | isFalse other => isFalse (by simp [other])
  | slot i k p b, slot i' k' p' b' => decidable_of_iff (i = i' ∧ k = k' ∧ p = p' ∧ b = b') (by simp)
  | split .., tabs .. => isFalse (by simp)
  | split .., slot .. => isFalse (by simp)
  | tabs .., split .. => isFalse (by simp)
  | tabs .., slot .. => isFalse (by simp)
  | slot .., split .. => isFalse (by simp)
  | slot .., tabs .. => isFalse (by simp)

def decEqs [DecidableEq P] : (as bs : List (Node P)) → Decidable (as = bs)
  | [], [] => isTrue rfl
  | [], _ :: _ => isFalse (by simp)
  | _ :: _, [] => isFalse (by simp)
  | a :: as, b :: bs =>
    match decEq a b, decEqs as bs with
    | isTrue same, isTrue rest => isTrue (by rw [same, rest])
    | isFalse other, _ => isFalse (by simp [other])
    | _, isFalse other => isFalse (by simp [other])
end

instance [DecidableEq P] : DecidableEq (Node P) := decEq

/-- The children of a split or of a tab group; a slot has none. -/
@[simp] def children : Node P → List (Node P)
  | split _ children _ => children
  | tabs children _ => children
  | slot .. => []

mutual
/-- The recursion of the source: `step` is given a node and what the recursion returns for
each of its children. -/
def walk (step : Node P → List β → β) : Node P → β
  | split dir children sizes => step (split dir children sizes) (walks step children)
  | tabs children active => step (tabs children active) (walks step children)
  | slot id kind params bindings => step (slot id kind params bindings) []

def walks (step : Node P → List β → β) : List (Node P) → List β
  | [] => []
  | c :: rest => walk step c :: walks step rest
end

theorem walks_eq (step : Node P → List β → β) : ∀ cs, walks step cs = cs.map (walk step)
  | [] => rfl
  | c :: cs => by rw [walks, walks_eq step cs, List.map_cons]

theorem walk_eq (step : Node P → List β → β) (n : Node P) :
    n.walk step = step n (n.children.map (walk step)) := by
  cases n <;> simp [walk, walks_eq]

mutual
/-- What every node inherits from its children holds of every node. -/
theorem induct {motive : Node P → Prop} (step : ∀ n, (∀ c ∈ n.children, motive c) → motive n) : ∀ n, motive n
  | split _ cs _ => step _ (inducts step cs)
  | tabs cs _ => step _ (inducts step cs)
  | slot .. => step _ (by simp)

theorem inducts {motive : Node P → Prop} (step : ∀ n, (∀ c ∈ n.children, motive c) → motive n) :
    ∀ cs : List (Node P), ∀ c ∈ cs, motive c
  | [] => by simp
  | c :: cs => List.forall_mem_cons.mpr ⟨induct step c, inducts step cs⟩
end

/-- The leaves in reading order, those of hidden tabs included. -/
def leaves : Node P → List (Node P) := walk fun self below =>
  match self with
  | slot .. => [self]
  | _ => below.flatten

/-- `slot_ids`. -/
def slotIds : Node P → List SlotId := walk fun self below =>
  match self with
  | slot id .. => [id]
  | _ => below.flatten

def contains (id : SlotId) (n : Node P) : Bool := n.slotIds.contains id

/-- The leaf node of a slot. -/
def findSlot (id : SlotId) : Node P → Option (Node P) := walk fun self below =>
  match self with
  | slot i .. => if i = id then some self else none
  | _ => below.findSome? fun found => found

def kindOf (id : SlotId) : Node P → Option KindId := walk fun self below =>
  match self with
  | slot i kind .. => if i = id then some kind else none
  | _ => below.findSome? fun found => found

/-- The ids that occur more than once, in ascending order. -/
def duplicateSlotIds (n : Node P) : List SlotId :=
  (n.slotIds.dedup.filter fun id => 1 < n.slotIds.count id).insertionSort (· ≤ ·)

/-- The same node with child `i` replaced. -/
def withChild (n : Node P) (i : Nat) (child : Node P) : Node P :=
  match n with
  | split dir children sizes => split dir (children.set i child) sizes
  | tabs children active => tabs (children.set i child) active
  | slot .. => n

/-- The id and the kind of a leaf. -/
def leafId : Node P → Option SlotId
  | slot id .. => some id
  | _ => none

def leafKind : Node P → Option KindId
  | slot _ kind .. => some kind
  | _ => none

def isSlot : Node P → Bool
  | slot .. => true
  | _ => false

end Node

inductive LayoutError where
  | duplicateSlotId (id : SlotId)
  | emptySplit
  | noBrowser
  | weightsMismatch (count children : Nat)
  deriving DecidableEq, Repr

variable {P : Type}

def validateShape : Node P → Except LayoutError Unit := Node.walk fun self below =>
  match self with
  | .split _ children sizes =>
    if children = [] then .error .emptySplit
    else if sizes.length ≠ children.length then .error (.weightsMismatch sizes.length children.length)
    else below.forM id
  | .tabs children _ => if children = [] then .error .emptySplit else below.forM id
  | .slot .. => .ok ()

def validate (tree : Node P) : Except LayoutError Unit :=
  match tree.duplicateSlotIds.head? with
  | some id => .error (.duplicateSlotId id)
  | none =>
    if tree.slotIds.any fun id => tree.kindOf id = some browser then validateShape tree
    else .error .noBrowser

namespace Node

@[simp] theorem children_withChild (n : Node P) (i : Nat) (child : Node P) :
    (n.withChild i child).children = n.children.set i child := by
  cases n <;> rfl

@[simp] theorem leaves_split (d : Dir) (cs : List (Node P)) (zs : List Size) : (split d cs zs).leaves = cs.flatMap leaves := by
  rw [leaves, walk_eq, children, List.flatMap_def]

@[simp] theorem leaves_tabs (cs : List (Node P)) (a : Nat) : (tabs cs a).leaves = cs.flatMap leaves := by
  rw [leaves, walk_eq, children, List.flatMap_def]

@[simp] theorem leaves_slot (i : SlotId) (k : KindId) (p : P) (b : Bindings) : (slot i k p b).leaves = [slot i k p b] := rfl

theorem isSlot_of_mem_leaves {leaf : Node P} (n : Node P) : leaf ∈ n.leaves → leaf.isSlot = true := by
  induction n using induct with
  | step n below =>
    intro member
    cases n with
    | slot i k p b =>
      rw [leaves_slot, List.mem_singleton] at member
      rw [member, isSlot]
    | split d cs zs =>
      obtain ⟨c, inside, member⟩ := List.mem_flatMap.mp (leaves_split d cs zs ▸ member)
      exact below c inside member
    | tabs cs a =>
      obtain ⟨c, inside, member⟩ := List.mem_flatMap.mp (leaves_tabs cs a ▸ member)
      exact below c inside member

/-- The leaves of a node that is no slot are those of its children. -/
theorem leaves_eq (n : Node P) (inner : n.isSlot = false) : n.leaves = n.children.flatMap leaves := by
  cases n <;> simp_all [isSlot]

theorem slotIds_children {n : Node P} (inner : n.isSlot = false) : n.slotIds = n.children.flatMap slotIds := by
  cases n with
  | slot i k p b => cases inner
  | split d cs zs => rw [slotIds, walk_eq, List.flatMap_def]
  | tabs cs a => rw [slotIds, walk_eq, List.flatMap_def]

/-- The ids are those of the leaves. -/
theorem slotIds_eq (n : Node P) : n.slotIds = n.leaves.filterMap leafId := by
  induction n using induct with
  | step n below =>
    have ids : (n.children.map slotIds).flatten = (n.children.flatMap leaves).filterMap leafId := by
      rw [List.filterMap_flatMap, List.flatMap_def]
      exact congrArg _ (List.map_congr_left below)
    cases n with
    | slot i k p b => rfl
    | split d cs zs =>
      rw [slotIds, walk_eq, leaves_split]
      exact ids
    | tabs cs a =>
      rw [slotIds, walk_eq, leaves_tabs]
      exact ids

/-- Every node of the tree satisfies `p`. -/
def All (p : Node P → Prop) : Node P → Prop := walk fun self below => p self ∧ ∀ q ∈ below, q

theorem all_iff {p : Node P → Prop} (n : Node P) : n.All p ↔ p n ∧ ∀ c ∈ n.children, c.All p := by
  rw [All, walk_eq]
  simp only [List.forall_mem_map]

/-- A split has as many sizes as children, and neither a split nor a group is empty. -/
def Formed : Node P → Prop
  | split _ children sizes => children ≠ [] ∧ sizes.length = children.length
  | tabs children _ => children ≠ []
  | slot .. => True

/-- The active tab of a group is one of its tabs. -/
def InRange : Node P → Prop
  | tabs children active => active < children.length
  | _ => True

/-- A leaf that is a listing. -/
def Listing (leaf : Node P) : Prop := leaf.leafKind = some browser

instance (leaf : Node P) : Decidable leaf.Listing := inferInstanceAs (Decidable (_ = _))

theorem findSlot_eq (id : SlotId) (n : Node P) : n.findSlot id = n.leaves.find? fun leaf => leaf.leafId = some id := by
  induction n using induct with
  | step n below =>
    have inner : (n.children.map (findSlot id)).findSome? (fun found => found) =
        (n.children.flatMap leaves).find? fun leaf => leaf.leafId = some id := by
      rw [List.map_congr_left below, List.find?_flatMap, List.findSome?_map]
      rfl
    cases n with
    | slot i k p b =>
      by_cases same : i = id <;> simp [findSlot, walk, leafId, same]
    | split d cs zs =>
      rw [findSlot, walk_eq, leaves_split]
      exact inner
    | tabs cs a =>
      rw [findSlot, walk_eq, leaves_tabs]
      exact inner

theorem kindOf_eq (id : SlotId) (n : Node P) : n.kindOf id = (n.findSlot id).bind leafKind := by
  induction n using induct with
  | step n below =>
    have inner : (n.children.map (kindOf id)).findSome? (fun found => found) =
        ((n.children.map (findSlot id)).findSome? fun found => found).bind leafKind := by
      rw [List.map_congr_left below, List.findSome?_map, List.findSome?_map]
      induction n.children with
      | nil => rfl
      | cons c cs rest =>
        rw [List.findSome?_cons, List.findSome?_cons]
        cases found : c.findSlot id with
        | none => simpa [found] using rest
        | some leaf =>
          have isLeaf := isSlot_of_mem_leaves c (List.mem_of_find?_eq_some (findSlot_eq id c ▸ found))
          cases leaf <;> simp_all [isSlot, leafKind]
    cases n with
    | slot i k p b =>
      by_cases same : i = id <;> simp [kindOf, findSlot, walk, leafKind, same]
    | split d cs zs =>
      rw [kindOf, walk_eq, findSlot, walk_eq]
      exact inner
    | tabs cs a =>
      rw [kindOf, walk_eq, findSlot, walk_eq]
      exact inner

theorem leafId_of_mem {leaf n : Node P} (member : leaf ∈ n.leaves) : ∃ id, leaf.leafId = some id ∧ id ∈ n.slotIds := by
  have isLeaf := isSlot_of_mem_leaves n member
  cases leaf with
  | slot id k p b => exact ⟨id, rfl, by rw [slotIds_eq]; exact List.mem_filterMap.mpr ⟨_, member, rfl⟩⟩
  | split d cs zs => cases isLeaf
  | tabs cs a => cases isLeaf

/-- When no id occurs twice, a leaf is the one found under its id. -/
theorem findSlot_of_mem {leaf n : Node P} {id : SlotId} (once : n.slotIds.Nodup) (member : leaf ∈ n.leaves)
    (named : leaf.leafId = some id) : n.findSlot id = some leaf := by
  rw [slotIds_eq] at once
  rw [findSlot_eq]
  generalize n.leaves = ls at once member ⊢
  induction ls with
  | nil => cases member
  | cons l ls rest =>
    by_cases same : l.leafId = some id
    · rw [List.find?_cons_of_pos (by simpa using same)]
      rw [List.filterMap_cons_some same, List.nodup_cons] at once
      obtain rfl | later := List.mem_cons.mp member
      · rfl
      · exact absurd (List.mem_filterMap.mpr ⟨leaf, later, named⟩) once.1
    · rw [List.find?_cons_of_neg (by simpa using same)]
      have later : leaf ∈ ls := (List.mem_cons.mp member).resolve_left fun eq => same (by rw [← eq, named])
      exact rest (once.sublist ((List.sublist_cons_self l ls).filterMap _)) later

end Node

theorem validateShape_split (d : Dir) (cs : List (Node P)) (zs : List Size) : validateShape (.split d cs zs) =
    if cs = [] then .error .emptySplit
    else if zs.length ≠ cs.length then .error (.weightsMismatch zs.length cs.length)
    else (cs.map validateShape).forM id :=
  Node.walk_eq _ _

theorem validateShape_tabs (cs : List (Node P)) (a : Nat) : validateShape (.tabs cs a) =
    if cs = [] then .error .emptySplit else (cs.map validateShape).forM id :=
  Node.walk_eq _ _

theorem validateShape_ok (n : Node P) : validateShape n = .ok () ↔ n.All Node.Formed := by
  induction n using Node.induct with
  | step n below =>
    have inner : (n.children.map validateShape).forM id = .ok () ↔ ∀ c ∈ n.children, c.All Node.Formed := by
      rw [FirstError.forM_ok, List.forall_mem_map]
      exact forall₂_congr below
    rw [Node.all_iff]
    cases n with
    | slot i k p b => simp [Node.Formed, validateShape, Node.walk]
    | split d cs zs =>
      rw [validateShape_split]
      by_cases empty : cs = []
      · simp [empty, Node.Formed]
      · by_cases sized : zs.length = cs.length
        · simpa [empty, sized, Node.Formed] using inner
        · simp [empty, sized, Node.Formed]
    | tabs cs a =>
      rw [validateShape_tabs]
      by_cases empty : cs = []
      · simp [empty, Node.Formed]
      · simpa [empty, Node.Formed] using inner

theorem duplicateSlotIds_eq_nil (n : Node P) : n.duplicateSlotIds = [] ↔ n.slotIds.Nodup := by
  rw [Node.duplicateSlotIds, ← List.length_eq_zero_iff, List.length_insertionSort, List.length_eq_zero_iff,
    List.filter_eq_nil_iff, List.nodup_iff_count_le_one]
  simp only [List.mem_dedup, decide_eq_true_eq, Nat.not_lt]
  refine ⟨fun few id => ?_, fun few id _ => few id⟩
  by_cases member : id ∈ n.slotIds
  · exact few id member
  · rw [List.count_eq_zero_of_not_mem member]
    exact Nat.zero_le 1

/-- What `validate` accepts: every id once, a listing, and no split or group out of shape. -/
theorem validate_ok (n : Node P) : validate n = .ok () ↔
    n.slotIds.Nodup ∧ (∃ leaf ∈ n.leaves, leaf.Listing) ∧ n.All Node.Formed := by
  by_cases once : n.slotIds.Nodup
  · have listing : (n.slotIds.any fun id => n.kindOf id = some browser) = true ↔ ∃ leaf ∈ n.leaves, leaf.Listing := by
      rw [List.any_eq_true]
      constructor
      · rintro ⟨id, _, kind⟩
        rw [decide_eq_true_eq, Node.kindOf_eq] at kind
        obtain ⟨leaf, found, kind⟩ := Option.bind_eq_some_iff.mp kind
        exact ⟨leaf, List.mem_of_find?_eq_some (Node.findSlot_eq id n ▸ found), kind⟩
      · rintro ⟨leaf, member, kind⟩
        obtain ⟨id, named, inside⟩ := Node.leafId_of_mem member
        refine ⟨id, inside, ?_⟩
        rw [decide_eq_true_eq, Node.kindOf_eq, Node.findSlot_of_mem once member named]
        exact kind
    have plain : n.duplicateSlotIds.head? = none := by
      rw [(duplicateSlotIds_eq_nil n).mpr once]
      rfl
    rw [validate, plain, ← listing, ← validateShape_ok]
    by_cases shows : (n.slotIds.any fun id => n.kindOf id = some browser) = true
    · simp [shows, once]
    · simp [shows]
  · have twice : n.duplicateSlotIds ≠ [] := fun none_ => once ((duplicateSlotIds_eq_nil n).mp none_)
    obtain ⟨id, ids, eq⟩ := List.exists_cons_of_ne_nil twice
    rw [validate, eq]
    simp [once]

end Norte.Layout
