import Norte.EndToEnd
import Norte.LayoutTree

/-! How the cells of a split are shared out among its children: the fixed ones first, and what
they leave in proportion to the weights, no weighted child below its floor while there is room
for all of the floors. Coordinates are of 16 bits, and additions stop at their end. -/
namespace Norte.Layout

variable {P : Type}

structure Rect where
  x : Nat
  y : Nat
  width : Nat
  height : Nat
  deriving DecidableEq, Repr

/-- `u16::saturating_add`. -/
def saturatingAdd (a b : Nat) : Nat := min (a + b) 65535

/-! ### Kinds -/

structure KindDecl where
  id : KindId
  min : Nat × Nat
  focusable : Bool
  roles : List RoleId

structure KindRegistry where
  decls : List KindDecl

namespace KindRegistry

def get (registry : KindRegistry) (id : KindId) : Option KindDecl := registry.decls.find? fun d => d.id = id

/-- An unknown kind is painted as a box with its name, so it demands one cell. -/
def minOf (registry : KindRegistry) (id : KindId) : Nat × Nat := ((registry.get id).map KindDecl.min).getD (1, 1)

def holdsRole (registry : KindRegistry) (id : KindId) (role : RoleId) : Bool :=
  (registry.get id).any fun d => d.roles.contains role

def focusable (registry : KindRegistry) (id : KindId) : Bool := (registry.get id).any KindDecl.focusable

end KindRegistry

/-- The side of a pair that lies on an axis. -/
def Dir.along (dir : Dir) (size : Nat × Nat) : Nat :=
  match dir with
  | .horizontal => size.1
  | .vertical => size.2

/-- What a child demands of its split: a fixed one asks for what it declares along the axis,
whatever its minimum. -/
def demand (dir : Dir) (size : Option Size) (least : Nat × Nat) : Nat × Nat :=
  match size, dir with
  | some (.fixed n), .horizontal => (n, least.2)
  | some (.fixed n), .vertical => (least.1, n)
  | some .auto, .horizontal => (0, least.2)
  | some .auto, .vertical => (least.1, 0)
  | _, _ => least

/-- `min_of`: what a whole subtree demands to fit. -/
def Node.minOf (decls : KindRegistry) : Node P → Nat × Nat := walk fun self below =>
  match self with
  | slot _ kind .. => decls.minOf kind
  | tabs .. => below.foldl (fun m c => (max m.1 c.1, max m.2 c.2)) (0, 0)
  | split dir _ sizes =>
    (below.mapIdx fun i least => demand dir sizes[i]? least).foldl
      (fun m c =>
        match dir with
        | .horizontal => (saturatingAdd m.1 c.1, max m.2 c.2)
        | .vertical => (max m.1 c.1, saturatingAdd m.2 c.2))
      (0, 0)

/-! ### Sharing out -/

/-- What `distribute` knows of a child: the size it asks for, its floor, the cells it was
assigned so far, and whether it left the proportional layout at its floor. -/
structure Part where
  size : Size
  floor : Nat
  assigned : Nat
  atFloor : Bool

namespace Part

def weight (p : Part) : Nat :=
  match p.size with
  | .weight w => max w 1
  | .fixed _ | .auto => 0

def weighted (p : Part) : Bool := 0 < p.weight

def active (p : Part) : Bool := p.weighted && !p.atFloor

def below (p : Part) : Bool := p.active && p.assigned < p.floor

/-- One that is below its floor leaves the proportional layout. -/
def lowered (p : Part) : Part := { p with atFloor := p.atFloor || p.below }

@[simp] theorem lowered_weighted (p : Part) : p.lowered.weighted = p.weighted := rfl

@[simp] theorem lowered_atFloor (p : Part) : p.lowered.atFloor = (p.atFloor || p.below) := rfl

end Part

/-- The fixed ones charge first and in order, as long as there is something left; with them,
how much is used. -/
def payFixed (extent : Nat) : List Part → Nat → List Part × Nat
  | [], used => ([], used)
  | p :: ps, used =>
    match p.size with
    | .fixed n =>
      let fits := min n (extent - used)
      let later := payFixed extent ps (used + fits)
      ({ p with assigned := fits } :: later.1, later.2)
    | _ =>
      let later := payFixed extent ps used
      (p :: later.1, later.2)

/-- One round: the active ones get `free` in proportion, the last of them what is left of it,
and those at their floor get their floor. -/
def give (free total : Nat) : List Part → Nat → List Part
  | [], _ => []
  | p :: ps, given =>
    if p.active then
      let share := if ps.any Part.active then free * p.weight / total else free - given
      { p with assigned := share } :: give free total ps (given + share)
    else if p.atFloor then { p with assigned := p.floor } :: give free total ps given
    else p :: give free total ps given

def floors (parts : List Part) : Nat := (parts.map Part.floor).sum

def shareOut (rest : Nat) (parts : List Part) : List Part :=
  give (rest - floors (parts.filter Part.atFloor)) ((parts.filter Part.active).map Part.weight).sum parts 0

def lower (parts : List Part) : List Part := parts.map Part.lowered

/-! ### A round leaves everything but the assigned cells -/

/-- The same children, with other cells assigned. -/
def Alike (a b : Part) : Prop := a.size = b.size ∧ a.floor = b.floor ∧ a.atFloor = b.atFloor

theorem Alike.weight {a b : Part} (alike : Alike a b) : a.weight = b.weight := by
  simp only [Part.weight, alike.1]

theorem Alike.weighted {a b : Part} (alike : Alike a b) : a.weighted = b.weighted := by
  simp only [Part.weighted, alike.weight]

theorem Alike.active {a b : Part} (alike : Alike a b) : a.active = b.active := by
  simp only [Part.active, alike.weighted, alike.2.2]

theorem give_alike (free total : Nat) (parts : List Part) (given : Nat) :
    List.Forall₂ Alike (give free total parts given) parts := by
  induction parts generalizing given with
  | nil => exact .nil
  | cons p ps ih =>
    unfold give
    split
    · exact .cons ⟨rfl, rfl, rfl⟩ (ih _)
    · split
      · exact .cons ⟨rfl, rfl, rfl⟩ (ih _)
      · exact .cons ⟨rfl, rfl, rfl⟩ (ih _)

theorem shareOut_alike (rest : Nat) (parts : List Part) : List.Forall₂ Alike (shareOut rest parts) parts :=
  give_alike _ _ _ _

/-- What is read of the fields that stay is the same for both. -/
theorem Alike.filter_map {β : Type*} {as bs : List Part} {keep : Part → Bool} {read : Part → β}
    (keeps : ∀ {a b}, Alike a b → keep a = keep b) (reads : ∀ {a b}, Alike a b → read a = read b)
    (alike : List.Forall₂ Alike as bs) : (as.filter keep).map read = (bs.filter keep).map read := by
  induction alike with
  | nil => rfl
  | @cons a b as bs head _ ih =>
    simp only [List.filter_cons, keeps head]
    split
    · rw [List.map_cons, List.map_cons, reads head, ih]
    · exact ih

/-- Each round leaves fewer in the proportional layout. -/
theorem active_lower (parts : List Part) (some_ : parts.any Part.below = true) :
    ((lower parts).filter Part.active).length < (parts.filter Part.active).length := by
  induction parts with
  | nil => simp at some_
  | cons p ps ih =>
    have fewer : ((lower ps).filter Part.active).length ≤ (ps.filter Part.active).length := by
      by_cases later : ps.any Part.below = true
      · exact Nat.le_of_lt (ih later)
      · have same : lower ps = ps.map id := by
          apply List.map_congr_left
          intro q member
          have idle : q.below = false := by
            cases belowQ : q.below with
            | false => rfl
            | true => exact absurd (List.any_eq_true.mpr ⟨q, member, belowQ⟩) later
          simp [Part.lowered, idle]
        rw [same, List.map_id]
    simp only [List.any_cons, Bool.or_eq_true] at some_
    simp only [lower, List.map_cons, List.filter_cons] at fewer ih ⊢
    by_cases here : p.below = true
    · have was : p.active = true := by
        simp only [Part.below, Bool.and_eq_true] at here
        exact here.1
      have gone : p.lowered.active = false := by simp [Part.active, here]
      rw [if_neg (by simp [gone]), if_pos was, List.length_cons]
      omega
    · have still : p.lowered = p := by simp [Part.lowered, here]
      rw [still]
      have := ih (some_.resolve_left here)
      split
      · simp only [List.length_cons]
        omega
      · exact this

/-- The rounds: if the floors fit, they go on until none is below its floor. -/
def settle (rest : Nat) (floorsFit : Bool) (parts : List Part) : List Part :=
  if floorsFit && (shareOut rest parts).any Part.below then settle rest floorsFit (lower (shareOut rest parts))
  else shareOut rest parts
termination_by (parts.filter Part.active).length
decreasing_by
  rename_i goes
  have fewer := active_lower (shareOut rest parts) (Bool.and_eq_true _ _ ▸ goes).2
  have weights : ((shareOut rest parts).filter Part.active).map Part.weight = (parts.filter Part.active).map Part.weight :=
    Alike.filter_map Alike.active Alike.weight (shareOut_alike rest parts)
  have same := congrArg List.length weights
  simp only [List.length_map] at same
  omega

/-- The rectangle of a part that begins at `offset` along the axis. -/
def slice (area : Rect) (dir : Dir) (offset size : Nat) : Rect :=
  match dir with
  | .horizontal => ⟨saturatingAdd area.x (min offset 65535), area.y, min size 65535, area.height⟩
  | .vertical => ⟨area.x, saturatingAdd area.y (min offset 65535), area.width, min size 65535⟩

/-- The children before anything is assigned; one without a floor of its own has none. -/
def partsOf (sizes : List Size) (least : List Nat) : List Part :=
  sizes.mapIdx fun i size => ⟨size, least[i]?.getD 0, 0, false⟩

def distribute (area : Rect) (dir : Dir) (sizes : List Size) (least : List Nat) : List Rect :=
  let extent := dir.along (area.width, area.height)
  let paid := payFixed extent (partsOf sizes least) 0
  let rest := extent - paid.2
  let floorsFit := floors (paid.1.filter Part.weighted) ≤ rest
  let settled := settle rest floorsFit paid.1
  (EndToEnd.spans 0 (settled.map Part.assigned)).map fun s => slice area dir s.1 s.2

end Norte.Layout
