import Norte.LayoutRounds

/-! The rectangles of a split. They lie in its area, end to end; if one of the children is weighted
they leave no cell of it out, and while the floors of the weighted ones fit in what the fixed ones
leave, none of them is below its floor. -/
namespace Norte.Layout

/-! ### Cells of a rectangle -/

namespace Rect

def Has (r : Rect) (col row : Nat) : Prop := r.x ≤ col ∧ col < r.x + r.width ∧ r.y ≤ row ∧ row < r.y + r.height

/-- No cell is in both. -/
def Apart (a b : Rect) : Prop := ∀ col row, ¬(a.Has col row ∧ b.Has col row)

def Inside (r area : Rect) : Prop :=
  area.x ≤ r.x ∧ r.x + r.width ≤ area.x + area.width ∧ area.y ≤ r.y ∧ r.y + r.height ≤ area.y + area.height

/-- The ends of the rectangle are coordinates. -/
def Bounded (r : Rect) : Prop := r.x + r.width ≤ 65535 ∧ r.y + r.height ≤ 65535

variable {a b c : Rect}

theorem Inside.refl (r : Rect) : r.Inside r := ⟨Nat.le_refl _, Nat.le_refl _, Nat.le_refl _, Nat.le_refl _⟩

theorem Inside.trans (first : a.Inside b) (second : b.Inside c) : a.Inside c := by
  unfold Inside at *
  omega

theorem Inside.bounded (inside : a.Inside b) (bounded : b.Bounded) : a.Bounded := by
  unfold Inside Bounded at *
  omega

theorem Inside.has (inside : a.Inside b) {col row : Nat} (has : a.Has col row) : b.Has col row := by
  unfold Inside Has at *
  omega

/-- What lies in two rectangles that share no cell shares none. -/
theorem Apart.inside {a' b' : Rect} (apart : a.Apart b) (first : a'.Inside a) (second : b'.Inside b) : a'.Apart b' :=
  fun col row both => apart col row ⟨first.has both.1, second.has both.2⟩

/-- The extent of a rectangle along an axis. -/
def along (dir : Dir) (r : Rect) : Nat := dir.along (r.width, r.height)

end Rect

/-! ### The fixed ones -/

def fixedCells (sizes : List Size) : Nat :=
  (sizes.map fun size =>
    match size with
    | .fixed n => n
    | .weight _ | .auto => 0).sum

/-- Nothing is assigned yet. -/
def Part.Fresh (p : Part) : Prop := p.assigned = 0 ∧ p.atFloor = false

theorem payFixed_alike (extent : Nat) (parts : List Part) (used : Nat) :
    List.Forall₂ Alike (payFixed extent parts used).1 parts := by
  induction parts generalizing used with
  | nil => exact .nil
  | cons p ps ih =>
    unfold payFixed
    split
    · exact .cons ⟨rfl, rfl, rfl⟩ (ih _)
    · exact .cons ⟨rfl, rfl, rfl⟩ (ih _)

/-- The fixed ones use what they ask for, up to what there is. -/
theorem payFixed_used {extent used : Nat} (parts : List Part) (within : used ≤ extent) :
    (payFixed extent parts used).2 = min extent (used + fixedCells (parts.map Part.size)) := by
  induction parts generalizing used with
  | nil => simp [payFixed, fixedCells, within]
  | cons p ps ih =>
    simp only [fixedCells, List.map_cons, List.sum_cons] at ih ⊢
    unfold payFixed
    cases asked : p.size with
    | fixed n =>
      simp only [ih (show used + min n (extent - used) ≤ extent by omega)]
      omega
    | weight w => simp only [ih within, Nat.zero_add]
    | auto => simp only [ih within, Nat.zero_add]

/-- Each fixed one has what it asks for, or what those before it left; one that asks for nothing
is as it was. -/
theorem payFixed_fixed {extent used : Nat} {parts : List Part} (within : used ≤ extent) {i : Nat} {p q : Part}
    (paid : (payFixed extent parts used).1[i]? = some p) (asked : parts[i]? = some q) :
    (∀ n, q.size = .fixed n → p.assigned = min n (extent - (used + fixedCells ((parts.take i).map Part.size)))) ∧
      (q.size = .auto → p = q) := by
  induction parts generalizing used i with
  | nil => simp at asked
  | cons r rs ih =>
    cases i with
    | zero =>
      simp only [List.getElem?_cons_zero, Option.some.injEq] at asked
      subst asked
      refine ⟨fun n fixed => ?_, fun auto => ?_⟩
      · simp only [payFixed, fixed, List.getElem?_cons_zero, Option.some.injEq] at paid
        simp [← paid, fixedCells]
      · simp only [payFixed, auto, List.getElem?_cons_zero, Option.some.injEq] at paid
        exact paid.symm
    | succ i =>
      simp only [List.getElem?_cons_succ] at asked
      simp only [fixedCells, List.take_succ_cons, List.map_cons, List.sum_cons] at ih ⊢
      unfold payFixed at paid
      cases size : r.size with
      | fixed m =>
        simp only [size, List.getElem?_cons_succ] at paid
        obtain ⟨fixed, auto⟩ := ih (show used + min m (extent - used) ≤ extent by omega) paid asked
        refine ⟨fun n wants => ?_, auto⟩
        rw [fixed n wants]
        simp only
        omega
      | weight w =>
        simp only [size, List.getElem?_cons_succ] at paid
        simpa only [Nat.zero_add] using ih within paid asked
      | auto =>
        simp only [size, List.getElem?_cons_succ] at paid
        simpa only [Nat.zero_add] using ih within paid asked

theorem payFixed_idle (extent used : Nat) {parts : List Part} (fresh : ∀ p ∈ parts, p.Fresh) :
    used + cells ((payFixed extent parts used).1.filter Part.idle) = (payFixed extent parts used).2 := by
  induction parts generalizing used with
  | nil => rfl
  | cons p ps ih =>
    rw [List.forall_mem_cons] at fresh
    obtain ⟨⟨none_, plain⟩, later⟩ := fresh
    simp only [cells] at ih ⊢
    unfold payFixed
    cases asked : p.size with
    | fixed n =>
      have idle : ({ p with size := .fixed n, assigned := min n (extent - used) } : Part).idle = true := by
        simp [Part.idle, Part.active, Part.weighted, Part.weight, plain]
      have := ih (used + min n (extent - used)) later
      simp only [List.filter_cons, ← asked] at idle ⊢
      simp only [idle, if_true, List.map_cons, List.sum_cons]
      omega
    | weight w =>
      have busy : p.idle = false := by
        simp [Part.idle, Part.active, Part.weighted, Part.weight, asked, plain]
      simp only [List.filter_cons, busy, Bool.false_eq_true, if_false]
      exact ih used later
    | auto =>
      have idle : p.idle = true := by simp [Part.idle, Part.active, Part.weighted, Part.weight, asked, plain]
      have := ih used later
      simp only [List.filter_cons, idle, if_true, List.map_cons, List.sum_cons, none_]
      omega

theorem partsOf_fresh (sizes : List Size) (least : List Nat) : ∀ p ∈ partsOf sizes least, p.Fresh := by
  intro p member
  obtain ⟨i, bound, rfl⟩ := List.mem_mapIdx.mp member
  exact ⟨rfl, rfl⟩

theorem partsOf_sizes (sizes : List Size) (least : List Nat) : (partsOf sizes least).map Part.size = sizes := by
  apply List.ext_getElem?
  intro i
  simp [partsOf, List.getElem?_mapIdx, Function.comp_def]

/-- What the floors of the weighted children come to. -/
def weightedFloors (sizes : List Size) (least : List Nat) : Nat := floors ((partsOf sizes least).filter Part.weighted)

/-- The children once the fixed ones are paid. -/
def paidOf (extent : Nat) (sizes : List Size) (least : List Nat) : List Part :=
  (payFixed extent (partsOf sizes least) 0).1

/-- The cells along the axis that each child is assigned. -/
def assigned (extent : Nat) (sizes : List Size) (least : List Nat) : List Part :=
  let paid := payFixed extent (partsOf sizes least) 0
  settle (extent - paid.2) (floors (paid.1.filter Part.weighted) ≤ extent - paid.2) paid.1

section Assigned

variable {extent : Nat} {sizes : List Size} {least : List Nat}

variable (extent sizes least) in
theorem assigned_eq : assigned extent sizes least =
    settle (extent - fixedCells sizes) (weightedFloors sizes least ≤ extent - fixedCells sizes)
      (paidOf extent sizes least) := by
  have used := payFixed_used (partsOf sizes least) (Nat.zero_le extent)
  have rest : extent - (payFixed extent (partsOf sizes least) 0).2 = extent - fixedCells sizes := by
    rw [partsOf_sizes] at used
    omega
  have same : floors ((payFixed extent (partsOf sizes least) 0).1.filter Part.weighted) = weightedFloors sizes least :=
    congrArg List.sum (Alike.filter_map Alike.weighted (fun same => same.2.1) (payFixed_alike _ _ _))
  simp only [assigned, rest, same, paidOf]

variable (extent sizes least) in
theorem paid_alike : List.Forall₂ Alike (paidOf extent sizes least) (partsOf sizes least) := payFixed_alike _ _ _

theorem paid_plain : ∀ p ∈ paidOf extent sizes least, p.atFloor = false := by
  intro p member
  obtain ⟨q, inside, same⟩ := Alike.mem (paid_alike extent sizes least) member
  exact same.2.2.trans (partsOf_fresh sizes least q inside).2

theorem weighted_iff {p : Part} : p.weighted = true ↔ ∃ w, p.size = .weight w := by
  cases asked : p.size with
  | weight w => simp [Part.weighted, Part.weight, asked]
  | fixed n => simp [Part.weighted, Part.weight, asked]
  | auto => simp [Part.weighted, Part.weight, asked]

variable (extent least) in
/-- The rounds start out fair. -/
theorem paid_fair (some_ : ∃ w, Size.weight w ∈ sizes) : Fair (extent - fixedCells sizes)
    (weightedFloors sizes least ≤ extent - fixedCells sizes) (paidOf extent sizes least) := by
  have alike := paid_alike extent sizes least
  have same : floors ((paidOf extent sizes least).filter Part.weighted) = weightedFloors sizes least :=
    congrArg List.sum (Alike.filter_map Alike.weighted (fun same => same.2.1) alike)
  have never {p : Part} (member : p ∈ paidOf extent sizes least) : p.atFloor ≠ true := by simp [paid_plain p member]
  refine ⟨fun p member floored => absurd floored (never member), fun p member floored => absurd floored (never member),
    fun fits => ?_, fun _ => paid_plain, ?_⟩
  · rw [same]
    exact of_decide_eq_true fits
  · obtain ⟨w, member⟩ := some_
    rw [← partsOf_sizes sizes least] at member
    obtain ⟨q, inside, asked⟩ := List.mem_map.mp member
    obtain ⟨p, member, same⟩ := Alike.mem_right alike inside
    apply List.any_eq_true.mpr
    exact ⟨p, member, by simp [Part.active, weighted_iff.mpr ⟨w, same.1.trans asked⟩, paid_plain p member]⟩

theorem paid_unweighted (none_ : ¬∃ w, Size.weight w ∈ sizes) : ∀ p ∈ paidOf extent sizes least, p.weighted = false := by
  intro p member
  obtain ⟨q, inside, same⟩ := Alike.mem (paid_alike extent sizes least) member
  cases weighted : p.weighted with
  | false => rfl
  | true =>
    obtain ⟨w, asked⟩ := weighted_iff.mp weighted
    have named := List.mem_map_of_mem (f := Part.size) inside
    rw [partsOf_sizes, ← same.1, asked] at named
    exact absurd ⟨w, named⟩ none_

variable (extent sizes least) in
/-- Without a weighted child the fixed ones take what they ask for; with one, all is assigned. -/
theorem cells_assigned : cells (assigned extent sizes least) ≤ extent ∧
    ((∃ w, Size.weight w ∈ sizes) → cells (assigned extent sizes least) = extent) := by
  have used := payFixed_used (partsOf sizes least) (Nat.zero_le extent)
  have idle := payFixed_idle extent 0 (partsOf_fresh sizes least)
  rw [partsOf_sizes] at used
  rw [assigned_eq]
  by_cases some_ : ∃ w, Size.weight w ∈ sizes
  · have given := (settle_fair (paid_fair extent least some_)).1
    have whole : cells (settle (extent - fixedCells sizes) (weightedFloors sizes least ≤ extent - fixedCells sizes)
        (paidOf extent sizes least)) = extent := by
      simp only [paidOf] at given ⊢
      omega
    exact ⟨Nat.le_of_eq whole, fun _ => whole⟩
  · have all : (paidOf extent sizes least).filter Part.idle = paidOf extent sizes least := by
      apply List.filter_eq_self.mpr
      intro p member
      simp [Part.idle, Part.active, paid_unweighted some_ p member, paid_plain p member]
    rw [paidOf] at all
    rw [all] at idle
    refine ⟨?_, fun some' => absurd some' some_⟩
    rw [settle_unweighted (paid_unweighted some_) paid_plain, paidOf]
    omega

variable (extent sizes least) in
/-- The weighted ones share what the fixed ones leave. With room for all their floors none is below
its own; without, none is at it. -/
theorem assigned_proportional : Proportional (extent - fixedCells sizes) (assigned extent sizes least) ∧
    (¬weightedFloors sizes least ≤ extent - fixedCells sizes → ∀ p ∈ assigned extent sizes least, p.atFloor = false) ∧
    (weightedFloors sizes least ≤ extent - fixedCells sizes →
      ∀ p ∈ assigned extent sizes least, p.weighted = true → p.floor ≤ p.assigned) := by
  rw [assigned_eq]
  by_cases some_ : ∃ w, Size.weight w ∈ sizes
  · obtain ⟨-, shared, unfit, above⟩ := settle_fair (paid_fair extent least some_)
    exact ⟨shared, fun never => unfit (decide_eq_false never), fun fits => above (decide_eq_true fits)⟩
  · rw [settle_unweighted (paid_unweighted some_) paid_plain]
    refine ⟨⟨fun p member floored => ?_, fun before p after splits active => ?_⟩, fun _ => paid_plain,
      fun _ p member weighted => ?_⟩
    · simp [paid_plain p member] at floored
    · have member : p ∈ paidOf extent sizes least := by
        rw [splits]
        exact List.mem_append_right _ List.mem_cons_self
      simp [Part.active, paid_unweighted some_ p member] at active
    · simp [paid_unweighted some_ p member] at weighted

variable (extent sizes least) in
theorem length_assigned : (assigned extent sizes least).length = sizes.length := by
  have first := settle_settles (extent - fixedCells sizes) (weightedFloors sizes least ≤ extent - fixedCells sizes)
    (paidOf extent sizes least)
  have second := paid_alike extent sizes least
  rw [← assigned_eq] at first
  have count : (partsOf sizes least).length = sizes.length := List.length_mapIdx
  exact first.length_eq.trans (second.length_eq.trans count)

/-- What each child asks for, its floor, and what it has if it has no part in the rounds. -/
theorem assigned_asked {i : Nat} {p : Part} (here : (assigned extent sizes least)[i]? = some p) :
    sizes[i]? = some p.size ∧ p.floor = least[i]?.getD 0 ∧
      (∀ n, p.size = .fixed n → p.assigned = min n (extent - fixedCells (sizes.take i))) ∧
      (p.size = .auto → p.assigned = 0) := by
  have first := settle_settles (extent - fixedCells sizes) (weightedFloors sizes least ≤ extent - fixedCells sizes)
    (paidOf extent sizes least)
  have second := paid_alike extent sizes least
  rw [← assigned_eq] at first
  obtain ⟨bound, rfl⟩ := List.getElem?_eq_some_iff.mp here
  have count : (partsOf sizes least).length = sizes.length := List.length_mapIdx
  have within : i < (paidOf extent sizes least).length := first.length_eq ▸ bound
  have within' : i < (partsOf sizes least).length := second.length_eq ▸ within
  have size : sizes[i]? = some sizes[i] := List.getElem?_eq_getElem (count ▸ within')
  have fresh : (partsOf sizes least)[i] = ⟨sizes[i], least[i]?.getD 0, 0, false⟩ := by simp [partsOf]
  have settled := first.get bound within
  have alike := second.get within within'
  simp only [List.get_eq_getElem] at settled alike
  rw [fresh] at alike
  have paid := payFixed_fixed (Nat.zero_le extent) (List.getElem?_eq_getElem within) (List.getElem?_eq_getElem within')
  have before : ((partsOf sizes least).take i).map Part.size = sizes.take i := by rw [List.map_take, partsOf_sizes]
  rw [fresh, before, Nat.zero_add] at paid
  have still (plain : (paidOf extent sizes least)[i].weighted = false) :
      (assigned extent sizes least)[i] = (paidOf extent sizes least)[i] := by
    apply settled.2.2
    simp [Part.idle, Part.active, plain, alike.2.2]
  refine ⟨?_, settled.2.1.trans alike.2.1, fun n asked => ?_, fun asked => ?_⟩
  · rw [size, settled.1, alike.1]
  · have asked' := settled.1.symm.trans asked
    have plain : (paidOf extent sizes least)[i].weighted = false := by
      simp [Part.weighted, Part.weight, asked']
    rw [still plain]
    exact paid.1 n (alike.1.symm.trans asked')
  · have asked' := settled.1.symm.trans asked
    have plain : (paidOf extent sizes least)[i].weighted = false := by
      simp [Part.weighted, Part.weight, asked']
    rw [still plain]
    exact congrArg Part.assigned (paid.2 (alike.1.symm.trans asked'))

end Assigned

/-! ### The rectangles -/

/-- The part of an area that is `size` long along the axis and begins at `offset`. -/
def Rect.part (area : Rect) (dir : Dir) (offset size : Nat) : Rect :=
  match dir with
  | .horizontal => ⟨area.x + offset, area.y, size, area.height⟩
  | .vertical => ⟨area.x, area.y + offset, area.width, size⟩

@[simp] theorem Rect.along_part (area : Rect) (dir : Dir) (offset size : Nat) :
    (area.part dir offset size).along dir = size := by
  cases dir with
  | horizontal => rfl
  | vertical => rfl

theorem slice_eq {area : Rect} {dir : Dir} {offset size : Nat} (bounded : area.Bounded)
    (within : offset + size ≤ area.along dir) : slice area dir offset size = area.part dir offset size := by
  unfold Rect.Bounded at bounded
  cases dir with
  | horizontal =>
    simp only [Rect.along, Dir.along] at within
    simp only [slice, Rect.part, saturatingAdd, Rect.mk.injEq, true_and, and_true]
    omega
  | vertical =>
    simp only [Rect.along, Dir.along] at within
    simp only [slice, Rect.part, saturatingAdd, Rect.mk.injEq, true_and]
    omega

theorem part_inside {area : Rect} {dir : Dir} {offset size : Nat} (within : offset + size ≤ area.along dir) :
    (area.part dir offset size).Inside area := by
  cases dir with
  | horizontal =>
    simp only [Rect.along, Dir.along, Rect.Inside, Rect.part] at within ⊢
    omega
  | vertical =>
    simp only [Rect.along, Dir.along, Rect.Inside, Rect.part] at within ⊢
    omega

theorem part_apart {area : Rect} {dir : Dir} {offset size offset' size' : Nat} (before : offset + size ≤ offset') :
    (area.part dir offset size).Apart (area.part dir offset' size') := by
  intro col row both
  cases dir with
  | horizontal =>
    simp only [Rect.Has, Rect.part] at both
    omega
  | vertical =>
    simp only [Rect.Has, Rect.part] at both
    omega

section Distribute

variable {area : Rect} (bounded : area.Bounded) (dir : Dir) (sizes : List Size) (least : List Nat)
include bounded

/-- The parts of the area that the children are assigned, one after the other. -/
theorem distribute_eq : distribute area dir sizes least =
    (EndToEnd.spans 0 ((assigned (area.along dir) sizes least).map Part.assigned)).map
      fun s => area.part dir s.1 s.2 := by
  have most := (cells_assigned (area.along dir) sizes least).1
  have slices : distribute area dir sizes least =
      (EndToEnd.spans 0 ((assigned (area.along dir) sizes least).map Part.assigned)).map
        fun s => slice area dir s.1 s.2 := rfl
  rw [slices]
  apply List.map_congr_left
  intro s member
  have until_ := (EndToEnd.within member).2
  rw [Nat.zero_add] at until_
  exact slice_eq bounded (Nat.le_trans until_ most)

theorem distribute_along :
    (distribute area dir sizes least).map (Rect.along dir) = (assigned (area.along dir) sizes least).map Part.assigned := by
  rw [distribute_eq bounded, List.map_map]
  have along : Rect.along dir ∘ (fun s : Nat × Nat => area.part dir s.1 s.2) = (·.2) := by
    funext s
    exact Rect.along_part area dir s.1 s.2
  rw [along, EndToEnd.map_spans]

theorem distribute_inside : ∀ r ∈ distribute area dir sizes least, r.Inside area := by
  intro r member
  rw [distribute_eq bounded] at member
  obtain ⟨s, inside, rfl⟩ := List.mem_map.mp member
  have until_ := (EndToEnd.within inside).2
  rw [Nat.zero_add] at until_
  exact part_inside (Nat.le_trans until_ (cells_assigned _ _ _).1)

theorem distribute_apart : (distribute area dir sizes least).Pairwise Rect.Apart := by
  rw [distribute_eq bounded, List.pairwise_map]
  exact (EndToEnd.apart 0 _).imp fun before => part_apart before

theorem distribute_whole (some_ : ∃ w, Size.weight w ∈ sizes) {col row : Nat} (has : area.Has col row) :
    ∃ r ∈ distribute area dir sizes least, r.Has col row := by
  have full := (cells_assigned (area.along dir) sizes least).2 some_
  rw [distribute_eq bounded]
  cases dir with
  | horizontal =>
    simp only [Rect.Has, Rect.along, Dir.along] at has full
    obtain ⟨s, member, from_, until_⟩ :=
      EndToEnd.covers ((assigned area.width sizes least).map Part.assigned) (Nat.zero_le (col - area.x))
        (by simp only [cells] at full; omega)
    refine ⟨_, List.mem_map.mpr ⟨s, member, rfl⟩, ?_⟩
    simp only [Rect.Has, Rect.part]
    omega
  | vertical =>
    simp only [Rect.Has, Rect.along, Dir.along] at has full
    obtain ⟨s, member, from_, until_⟩ :=
      EndToEnd.covers ((assigned area.height sizes least).map Part.assigned) (Nat.zero_le (row - area.y))
        (by simp only [cells] at full; omega)
    refine ⟨_, List.mem_map.mpr ⟨s, member, rfl⟩, ?_⟩
    simp only [Rect.Has, Rect.part]
    omega

end Distribute

theorem length_distribute (area : Rect) (dir : Dir) (sizes : List Size) (least : List Nat) :
    (distribute area dir sizes least).length = sizes.length := by
  rw [← length_assigned (area.along dir) sizes least]
  exact (List.length_map _).trans (EndToEnd.length_spans.trans (List.length_map _))

/-- Where the floors of the weighted children fit in what the fixed ones leave, none of them is below
its own. -/
theorem distribute_above {area : Rect} (bounded : area.Bounded) (dir : Dir) (sizes : List Size) (least : List Nat)
    (fit : weightedFloors sizes least ≤ area.along dir - fixedCells sizes) {i w : Nat} {r : Rect}
    (asked : sizes[i]? = some (.weight w)) (here : (distribute area dir sizes least)[i]? = some r) :
    least[i]?.getD 0 ≤ r.along dir := by
  have length := congrArg (·[i]?) (distribute_along bounded dir sizes least)
  simp only [List.getElem?_map, here, Option.map_some] at length
  obtain ⟨p, there, length⟩ := Option.map_eq_some_iff.mp length.symm
  obtain ⟨size, floor, -, -⟩ := assigned_asked there
  rw [← length, ← floor]
  apply (assigned_proportional (area.along dir) sizes least).2.2 fit p (List.mem_of_getElem? there)
  exact weighted_iff.mpr ⟨w, Option.some.inj (size.symm.trans asked)⟩

/-- How the area of a split is shared out among its children: one after the other along the axis,
each as long across it as the area. The fixed ones take what they ask for while it lasts; the
weighted ones share the rest, and with room for all of their floors none is below its own. -/
structure SharedOut (area : Rect) (dir : Dir) (sizes : List Size) (least : List Nat) (rects : List Rect) : Prop where
  count : rects.length = sizes.length
  inside : ∀ r ∈ rects, r.Inside area
  apart : rects.Pairwise Rect.Apart
  endToEnd : ∀ (i : Nat) (r : Rect), rects[i]? = some r → r = area.part dir ((rects.take i).map (Rect.along dir)).sum (r.along dir)
  fixed : ∀ (i n : Nat) (r : Rect), sizes[i]? = some (.fixed n) → rects[i]? = some r →
    r.along dir = min n (area.along dir - fixedCells (sizes.take i))
  auto : ∀ (i : Nat) (r : Rect), sizes[i]? = some .auto → rects[i]? = some r → r.along dir = 0
  whole : (∃ w, Size.weight w ∈ sizes) → ∀ col row, area.Has col row → ∃ r ∈ rects, r.Has col row
  above : weightedFloors sizes least ≤ area.along dir - fixedCells sizes → ∀ (i w : Nat) (r : Rect),
    sizes[i]? = some (.weight w) → rects[i]? = some r → least[i]?.getD 0 ≤ r.along dir
  proportional : ∃ parts : List Part, parts.map Part.assigned = rects.map (Rect.along dir) ∧
    parts.map Part.size = sizes ∧ (∀ (i : Nat) (p : Part), parts[i]? = some p → p.floor = least[i]?.getD 0) ∧
    Proportional (area.along dir - fixedCells sizes) parts ∧
    (¬weightedFloors sizes least ≤ area.along dir - fixedCells sizes → ∀ p ∈ parts, p.atFloor = false)

theorem distribute_shares {area : Rect} (bounded : area.Bounded) (dir : Dir) (sizes : List Size) (least : List Nat) :
    SharedOut area dir sizes least (distribute area dir sizes least) := by
  have along := distribute_along bounded dir sizes least
  obtain ⟨shared, unfit, -⟩ := assigned_proportional (area.along dir) sizes least
  have given {i : Nat} {r : Rect} (here : (distribute area dir sizes least)[i]? = some r) :
      ∃ p, (assigned (area.along dir) sizes least)[i]? = some p ∧ p.assigned = r.along dir := by
    have length := congrArg (·[i]?) along
    simp only [List.getElem?_map, here, Option.map_some] at length
    exact Option.map_eq_some_iff.mp length.symm
  refine ⟨length_distribute area dir sizes least, distribute_inside bounded dir sizes least,
    distribute_apart bounded dir sizes least, ?_, ?_, ?_,
    fun some_ col row has => distribute_whole bounded dir sizes least some_ has, ?_, ?_⟩
  · intro i r here
    have start : ((distribute area dir sizes least).take i).map (Rect.along dir) =
        ((assigned (area.along dir) sizes least).map Part.assigned).take i := by rw [List.map_take, along]
    have spanned := here
    rw [distribute_eq bounded, List.getElem?_map, EndToEnd.getElem?_spans, Option.map_map, Option.map_eq_some_iff] at spanned
    obtain ⟨length, -, rfl⟩ := spanned
    simp only [start, Rect.along_part, Function.comp_apply, Nat.zero_add]
  · intro i n r asked here
    obtain ⟨p, there, length⟩ := given here
    obtain ⟨size, -, fixed, -⟩ := assigned_asked there
    rw [← length]
    exact fixed n (Option.some.inj (size.symm.trans asked))
  · intro i r asked here
    obtain ⟨p, there, length⟩ := given here
    obtain ⟨size, -, -, auto⟩ := assigned_asked there
    rw [← length]
    exact auto (Option.some.inj (size.symm.trans asked))
  · exact fun fits i w r asked here => distribute_above bounded dir sizes least fits asked here
  · refine ⟨assigned (area.along dir) sizes least, along.symm, ?_, fun i p there => (assigned_asked there).2.1, shared, unfit⟩
    apply List.ext_getElem?
    intro i
    rw [List.getElem?_map]
    cases there : (assigned (area.along dir) sizes least)[i]? with
    | none =>
      rw [List.getElem?_eq_none_iff, length_assigned] at there
      exact (List.getElem?_eq_none there).symm
    | some p => exact (assigned_asked there).1.symm

/-- A sidebar and three listings on 100 columns, the narrowest of them at its floor. -/
theorem distribute_shares_sidebar :
    distribute ⟨0, 0, 100, 30⟩ .horizontal [.fixed 16, .weight 1, .weight 6, .weight 5] [10, 20, 20, 20] =
      [⟨0, 0, 16, 30⟩, ⟨16, 0, 20, 30⟩, ⟨36, 0, 34, 30⟩, ⟨70, 0, 30, 30⟩] ∧
    SharedOut ⟨0, 0, 100, 30⟩ .horizontal [.fixed 16, .weight 1, .weight 6, .weight 5] [10, 20, 20, 20]
      (distribute ⟨0, 0, 100, 30⟩ .horizontal [.fixed 16, .weight 1, .weight 6, .weight 5] [10, 20, 20, 20]) := by
  refine ⟨?_, distribute_shares ⟨by decide, by decide⟩ _ _ _⟩
  simp [distribute, settle, shareOut, lower, give, payFixed, partsOf, floors, Part.active, Part.weighted, Part.weight,
    Part.below, Part.lowered, EndToEnd.spans, slice, Dir.along, saturatingAdd]

end Norte.Layout
