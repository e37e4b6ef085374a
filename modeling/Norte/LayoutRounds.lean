import Norte.LayoutRects

/-! The rounds in which the weighted children of a split share what the fixed ones leave. One whose
share falls short of its floor has its floor and leaves the proportional layout; each of the others
has its share rounded down, and the last of them the remainder. -/
namespace Norte.Layout

/-! ### What a round gives -/

theorem Alike.symm {a b : Part} (alike : Alike a b) : Alike b a := ⟨alike.1.symm, alike.2.1.symm, alike.2.2.symm⟩

theorem Alike.mem {as bs : List Part} {a : Part} (alike : List.Forall₂ Alike as bs) (member : a ∈ as) :
    ∃ b ∈ bs, Alike a b := by
  induction alike with
  | nil => simp at member
  | @cons x y _ _ head _ ih =>
    rcases List.mem_cons.mp member with rfl | later
    · exact ⟨y, List.mem_cons_self, head⟩
    · obtain ⟨b, inside, same⟩ := ih later
      exact ⟨b, List.mem_cons_of_mem _ inside, same⟩

theorem Alike.mem_right {as bs : List Part} {b : Part} (alike : List.Forall₂ Alike as bs) (member : b ∈ bs) :
    ∃ a ∈ as, Alike a b := by
  obtain ⟨a, inside, same⟩ := Alike.mem (List.Forall₂.flip (alike.imp fun _ _ => Alike.symm)) member
  exact ⟨a, inside, same.symm⟩

theorem any_alike {as bs : List Part} (alike : List.Forall₂ Alike as bs) :
    as.any Part.active = bs.any Part.active := by
  induction alike with
  | nil => rfl
  | cons head _ ih => simp only [List.any_cons, head.active, ih]

def cells (parts : List Part) : Nat := (parts.map Part.assigned).sum

/-- Neither in the proportional layout nor at its floor: a fixed one, or one that counts as zero. -/
def Part.idle (p : Part) : Bool := !p.active && !p.atFloor

theorem give_cells {free total : Nat} (some_ : 0 < total) {parts : List Part} {given : Nat}
    (room : EndToEnd.Room free total given ((parts.filter Part.active).map Part.weight).sum) :
    cells (give free total parts given) = (if parts.any Part.active then free - given else 0) +
      floors (parts.filter Part.atFloor) + cells (parts.filter Part.idle) := by
  induction parts generalizing given with
  | nil => rfl
  | cons p ps ih =>
    by_cases active : p.active = true
    · have plain : p.atFloor = false := by
        simp only [Part.active, Bool.and_eq_true, Bool.not_eq_true'] at active
        exact active.2
      have busy : p.idle = false := by simp [Part.idle, active]
      simp only [List.filter_cons, active, if_true, List.map_cons, List.sum_cons] at room
      by_cases later : ps.any Part.active = true
      · have rest := ih room.share
        have within := room.share.given_le some_
        simp only [later, if_true] at rest
        simp only [cells] at rest ⊢
        simp only [give, active, later, if_true, List.map_cons, List.sum_cons, rest, List.any_cons, Bool.true_or,
          List.filter_cons, plain, busy, Bool.false_eq_true, if_false]
        generalize free * p.weight / total = share at within ⊢
        omega
      · have none_ : ps.filter Part.active = [] := by
          apply List.filter_eq_nil_iff.mpr
          intro q member on
          exact later (List.any_eq_true.mpr ⟨q, member, on⟩)
        have within := room.given_le some_
        have taken : EndToEnd.Room free total (given + (free - given)) ((ps.filter Part.active).map Part.weight).sum := by
          simp only [none_, List.map_nil, List.sum_nil, EndToEnd.Room, Nat.mul_zero, Nat.add_zero]
          exact Nat.mul_le_mul_right _ (by omega)
        have rest := ih taken
        simp only [later] at rest
        simp only [cells] at rest ⊢
        simp only [give, active, later, if_true, List.map_cons, List.sum_cons, rest, List.any_cons, Bool.true_or,
          List.filter_cons, plain, busy, Bool.false_eq_true, if_false]
        omega
    · have idle : p.idle = !p.atFloor := by simp [Part.idle, active]
      simp only [List.filter_cons, active, Bool.false_eq_true, if_false] at room
      have rest := ih room
      simp only [cells, floors] at rest ⊢
      cases floored : p.atFloor with
      | true =>
        simp only [give, active, floored, Bool.false_eq_true, if_false, if_true, List.map_cons, List.sum_cons, rest,
          List.any_cons, Bool.false_or, List.filter_cons, idle, Bool.not_true]
        omega
      | false =>
        simp only [give, active, floored, Bool.false_eq_true, if_false, if_true, List.map_cons, List.sum_cons, rest,
          List.any_cons, Bool.false_or, List.filter_cons, idle, Bool.not_false]
        omega

/-- The cells of those that no round touches. -/
theorem give_idle (free total : Nat) (parts : List Part) (given : Nat) :
    cells ((give free total parts given).filter Part.idle) = cells (parts.filter Part.idle) := by
  induction parts generalizing given with
  | nil => rfl
  | cons p ps ih =>
    by_cases active : p.active = true
    · have busy : ¬p.idle = true := by simp [Part.idle, active]
      simp only [give, if_pos active]
      rw [List.filter_cons_of_neg busy, List.filter_cons_of_neg (by exact busy)]
      exact ih _
    · cases floored : p.atFloor with
      | true =>
        have busy : ¬p.idle = true := by simp [Part.idle, floored]
        rw [give, if_neg active, if_pos floored, List.filter_cons_of_neg busy, List.filter_cons_of_neg (by exact busy)]
        exact ih _
      | false =>
        have idle : p.idle = true := by simp [Part.idle, active, floored]
        have rest := ih given
        simp only [cells] at rest ⊢
        simp only [give, active, floored, Bool.false_eq_true, if_false, List.filter_cons, idle, if_true, List.map_cons,
          List.sum_cons, rest]

theorem weight_pos {p : Part} (active : p.active = true) : 0 < p.weight := by
  simp only [Part.active, Part.weighted, Bool.and_eq_true, decide_eq_true_eq] at active
  exact active.1

theorem total_pos {parts : List Part} (some_ : parts.any Part.active = true) :
    0 < ((parts.filter Part.active).map Part.weight).sum := by
  obtain ⟨p, member, active⟩ := List.any_eq_true.mp some_
  have inside : p.weight ∈ (parts.filter Part.active).map Part.weight :=
    List.mem_map.mpr ⟨p, List.mem_filter.mpr ⟨member, active⟩, rfl⟩
  exact Nat.lt_of_lt_of_le (weight_pos active) (List.le_sum_of_mem inside)

/-- What is left for the proportional layout, with those at their floor paid. -/
def freeOf (rest : Nat) (parts : List Part) : Nat := rest - floors (parts.filter Part.atFloor)

/-- The weight of the proportional layout. -/
def totalOf (parts : List Part) : Nat := ((parts.filter Part.active).map Part.weight).sum

theorem freeOf_alike {rest : Nat} {as bs : List Part} (alike : List.Forall₂ Alike as bs) :
    freeOf rest as = freeOf rest bs := by
  simp only [freeOf, floors, Alike.filter_map (fun same => same.2.2) (fun same => same.2.1) alike]

theorem totalOf_alike {as bs : List Part} (alike : List.Forall₂ Alike as bs) : totalOf as = totalOf bs := by
  simp only [totalOf, Alike.filter_map Alike.active Alike.weight alike]

/-- Before rounding, an active one gets less than one cell more than it is assigned. -/
theorem give_enough {free total : Nat} (some_ : 0 < total) {parts : List Part} {given : Nat}
    (room : EndToEnd.Room free total given (totalOf parts)) :
    ∀ p ∈ give free total parts given, p.active = true → free * p.weight < (p.assigned + 1) * total := by
  induction parts generalizing given with
  | nil => simp [give]
  | cons p ps ih =>
    intro q member on
    unfold totalOf at room ih
    by_cases active : p.active = true
    · simp only [List.filter_cons, active, if_true, List.map_cons, List.sum_cons] at room
      simp only [give, active, if_true, List.mem_cons] at member
      by_cases later : ps.any Part.active = true
      · simp only [later, if_true] at member
        rcases member with rfl | member
        · rw [Nat.add_one_mul]
          exact Nat.lt_div_mul_add some_
        · exact ih room.share q member on
      · have none_ : ps.filter Part.active = [] := by
          apply List.filter_eq_nil_iff.mpr
          intro r inside active
          exact later (List.any_eq_true.mpr ⟨r, inside, active⟩)
        simp only [none_, List.map_nil, List.sum_nil, Nat.add_zero] at room
        simp only [later] at member
        rcases member with rfl | member
        · have enough := room.left
          simp only [Bool.false_eq_true, if_false, Nat.add_one_mul]
          exact Nat.lt_of_le_of_lt enough (by omega)
        · obtain ⟨r, inside, same⟩ := Alike.mem (give_alike _ _ _ _) member
          exact absurd (List.any_eq_true.mpr ⟨r, inside, same.active.symm.trans on⟩) later
    · simp only [List.filter_cons, active, Bool.false_eq_true, if_false] at room
      simp only [give, active, Bool.false_eq_true, if_false] at member
      have inside : q ∈ give free total ps given := by
        split at member
        · rcases List.mem_cons.mp member with rfl | later
          · exact absurd on active
          · exact later
        · rcases List.mem_cons.mp member with rfl | later
          · exact absurd on active
          · exact later
      exact ih room q inside on

/-- What an active one is assigned: its share rounded down, or what is left if it is the last. -/
theorem give_share (free total : Nat) (parts : List Part) (given : Nat) {before after : List Part} {p : Part}
    (gives : give free total parts given = before ++ p :: after) (active : p.active = true) :
    p.assigned = if after.any Part.active then free * p.weight / total
      else free - (given + cells (before.filter Part.active)) := by
  induction parts generalizing given before with
  | nil => simp [give] at gives
  | cons q qs ih =>
    cases before with
    | nil =>
      by_cases on : q.active = true
      · simp only [give, on, if_true, List.nil_append, List.cons.injEq] at gives
        obtain ⟨rfl, rfl⟩ := gives
        have same : (give free total qs (given + if qs.any Part.active then free * q.weight / total else free - given)).any
            Part.active = qs.any Part.active := any_alike (give_alike _ _ _ _)
        simp only [same, List.filter_nil, cells, List.map_nil, List.sum_nil, Nat.add_zero]
        rfl
      · simp only [give, on, Bool.false_eq_true, if_false, List.nil_append] at gives
        split at gives
        · obtain ⟨rfl, -⟩ := List.cons.inj gives
          exact absurd active on
        · obtain ⟨rfl, -⟩ := List.cons.inj gives
          exact absurd active on
    | cons b bs =>
      by_cases on : q.active = true
      · simp only [give, on, if_true, List.cons_append, List.cons.injEq] at gives
        obtain ⟨rfl, gives⟩ := gives
        have here : ∀ n : Nat, ({ q with assigned := n } : Part).active = true := fun _ => on
        simp only [ih _ gives, cells, List.filter_cons, here, if_true, List.map_cons, List.sum_cons, Nat.add_assoc]
      · simp only [give, on, Bool.false_eq_true, if_false, List.cons_append] at gives
        split at gives
        · obtain ⟨rfl, later⟩ := List.cons.inj gives
          have here : ¬({ q with assigned := q.floor } : Part).active = true := on
          rw [ih _ later, List.filter_cons_of_neg here]
        · obtain ⟨rfl, later⟩ := List.cons.inj gives
          rw [ih _ later, List.filter_cons_of_neg on]

/-- What a round keeps true: only weighted ones are at their floor, each because its share falls
short of it, and the floors of all the weighted ones fit as long as any is. -/
structure Fair (rest : Nat) (floorsFit : Bool) (parts : List Part) : Prop where
  weighted : ∀ p ∈ parts, p.atFloor = true → p.weighted = true
  short : ∀ p ∈ parts, p.atFloor = true → EndToEnd.Short (freeOf rest parts) (totalOf parts) p.weight p.floor
  fit : floorsFit = true → floors (parts.filter Part.weighted) ≤ rest
  unfit : floorsFit = false → ∀ p ∈ parts, p.atFloor = false
  some_ : parts.any Part.active = true

/-- The weighted ones are the active ones and those at their floor. -/
theorem floors_weighted {parts : List Part} (only : ∀ p ∈ parts, p.atFloor = true → p.weighted = true) :
    floors (parts.filter Part.weighted) = floors (parts.filter Part.active) + floors (parts.filter Part.atFloor) := by
  induction parts with
  | nil => rfl
  | cons p ps ih =>
    have rest := ih fun q member => only q (List.mem_cons_of_mem _ member)
    have here := only p List.mem_cons_self
    simp only [floors] at rest ⊢
    cases floored : p.atFloor with
    | true =>
      simp only [List.filter_cons, Part.active, here floored, floored, Bool.not_true, Bool.and_false, Bool.false_eq_true,
        if_false, if_true, List.map_cons, List.sum_cons, rest]
      omega
    | false =>
      cases on : p.weighted with
      | true =>
        simp only [List.filter_cons, Part.active, on, floored, Bool.not_false, Bool.and_true, Bool.false_eq_true,
          if_false, if_true, List.map_cons, List.sum_cons, rest]
        omega
      | false =>
        simp only [List.filter_cons, Part.active, on, floored, Bool.and_true, Bool.not_false, Bool.false_eq_true,
          if_false, rest]

theorem Fair.floored_le {rest : Nat} {floorsFit : Bool} {parts : List Part} (fair : Fair rest floorsFit parts) :
    floors (parts.filter Part.atFloor) ≤ rest := by
  cases fits : floorsFit with
  | true =>
    have := fair.fit fits
    have := floors_weighted fair.weighted
    omega
  | false =>
    have none_ : parts.filter Part.atFloor = [] := by
      apply List.filter_eq_nil_iff.mpr
      intro p member
      simp [fair.unfit fits p member]
    simp [none_, floors]

/-- One round gives all that the fixed ones left. -/
theorem Fair.cells_shareOut {rest : Nat} {floorsFit : Bool} {parts : List Part} (fair : Fair rest floorsFit parts) :
    cells (shareOut rest parts) = rest + cells (parts.filter Part.idle) := by
  have given := give_cells (total_pos fair.some_) (EndToEnd.room_start (rest - floors (parts.filter Part.atFloor)) _)
  have := fair.floored_le
  simp only [fair.some_, if_true] at given
  simp only [shareOut]
  omega

theorem Fair.shareOut {rest : Nat} {floorsFit : Bool} {parts : List Part} (fair : Fair rest floorsFit parts) :
    Fair rest floorsFit (shareOut rest parts) := by
  have alike := shareOut_alike rest parts
  have flags (keep : Part → Bool) (keeps : ∀ {a b}, Alike a b → keep a = keep b)
      (all : ∀ p ∈ parts, keep p = true) : ∀ p ∈ Layout.shareOut rest parts, keep p = true := by
    intro p member
    obtain ⟨q, inside, same⟩ := Alike.mem alike member
    rw [keeps same, all q inside]
  refine ⟨?_, ?_, fun fits => ?_, fun fits p member => ?_, ?_⟩
  · have := flags (fun p => !p.atFloor || p.weighted) (fun same => by simp only [same.2.2, same.weighted])
      (fun p member => by cases floored : p.atFloor <;> simp [fair.weighted p member, floored])
    intro p member floored
    simpa [floored] using this p member
  · intro p member floored
    obtain ⟨q, inside, same⟩ := Alike.mem alike member
    have short := fair.short q inside (same.2.2.symm.trans floored)
    rwa [freeOf_alike alike, totalOf_alike alike, same.weight, same.2.1]
  · simp only [floors, Alike.filter_map Alike.weighted (fun same => same.2.1) alike]
    exact fair.fit fits
  · have := flags (fun p => !p.atFloor) (fun same => by simp only [same.2.2])
      (fun p member => by simp [fair.unfit fits p member]) p member
    simpa using this
  · obtain ⟨p, member, active⟩ := List.any_eq_true.mp fair.some_
    obtain ⟨q, inside, same⟩ := Alike.mem_right alike member
    exact List.any_eq_true.mpr ⟨q, inside, same.active.trans active⟩

/-! ### Between rounds -/

theorem cells_classes (parts : List Part) : cells parts =
    cells (parts.filter Part.active) + cells (parts.filter Part.atFloor) + cells (parts.filter Part.idle) := by
  induction parts with
  | nil => rfl
  | cons p ps ih =>
    simp only [cells] at ih ⊢
    cases active : p.active with
    | true =>
      have plain : p.atFloor = false := by
        simp only [Part.active, Bool.and_eq_true, Bool.not_eq_true'] at active
        exact active.2
      simp only [List.filter_cons, Part.idle, active, plain, Bool.not_true, Bool.false_and, Bool.false_eq_true, if_false,
        if_true, List.map_cons, List.sum_cons, ih]
      omega
    | false =>
      cases floored : p.atFloor with
      | true =>
        simp only [List.filter_cons, Part.idle, active, floored, Bool.not_true, Bool.not_false, Bool.and_false,
          Bool.false_eq_true, if_false, if_true, List.map_cons, List.sum_cons, ih]
        omega
      | false =>
        simp only [List.filter_cons, Part.idle, active, floored, Bool.not_false, Bool.and_true, Bool.false_eq_true,
          if_false, if_true, List.map_cons, List.sum_cons, ih]
        omega

/-- Those at their floor have their floor. -/
theorem give_floored (free total : Nat) (parts : List Part) (given : Nat) :
    ∀ p ∈ give free total parts given, p.atFloor = true → p.assigned = p.floor := by
  induction parts generalizing given with
  | nil => simp [give]
  | cons p ps ih =>
    intro q member floored
    unfold give at member
    split at member
    · rename_i active
      rcases List.mem_cons.mp member with rfl | later
      · simp only [Part.active, Bool.and_eq_true, Bool.not_eq_true'] at active
        rw [active.2] at floored
        cases floored
      · exact ih _ q later floored
    · split at member
      · rcases List.mem_cons.mp member with rfl | later
        · rfl
        · exact ih _ q later floored
      · rename_i plain
        rcases List.mem_cons.mp member with rfl | later
        · exact absurd floored plain
        · exact ih _ q later floored

theorem cells_eq_floors {parts : List Part} (all : ∀ p ∈ parts, p.assigned = p.floor) : cells parts = floors parts :=
  congrArg List.sum (List.map_congr_left all)

theorem cells_lt_floors {parts : List Part} (some_ : parts ≠ []) (all : ∀ p ∈ parts, p.assigned < p.floor) :
    cells parts < floors parts :=
  List.sum_lt_sum_of_ne_nil some_ _ _ all

/-- While all the floors fit, they are not all below their floor after a round: what is given to
those in the proportional layout is no less than their floors. -/
theorem Fair.some_above {rest : Nat} {parts : List Part} (fair : Fair rest true parts) :
    ∃ p ∈ Layout.shareOut rest parts, p.active = true ∧ p.floor ≤ p.assigned := by
  by_contra none_
  have all : ∀ p ∈ (Layout.shareOut rest parts).filter Part.active, p.assigned < p.floor := by
    intro p member
    obtain ⟨inside, active⟩ := List.mem_filter.mp member
    exact Nat.lt_of_not_le fun above => none_ ⟨p, inside, active, above⟩
  have after := fair.shareOut
  have some_ : (Layout.shareOut rest parts).filter Part.active ≠ [] := by
    obtain ⟨p, member, active⟩ := List.any_eq_true.mp after.some_
    exact List.ne_nil_of_mem (List.mem_filter.mpr ⟨member, active⟩)
  have short := cells_lt_floors some_ all
  have floored : cells ((Layout.shareOut rest parts).filter Part.atFloor) =
      floors ((Layout.shareOut rest parts).filter Part.atFloor) := by
    apply cells_eq_floors
    intro p member
    obtain ⟨inside, on⟩ := List.mem_filter.mp member
    exact give_floored _ _ _ _ p inside on
  have given := fair.cells_shareOut
  have classes := cells_classes (Layout.shareOut rest parts)
  have idle : cells ((Layout.shareOut rest parts).filter Part.idle) = cells (parts.filter Part.idle) := give_idle _ _ _ _
  have fit := after.fit rfl
  have weighted := floors_weighted after.weighted
  omega

/-- Those that leave the layout after a round take their floors and their weights with them. -/
theorem lower_leaves (parts : List Part) :
    floors ((lower parts).filter Part.atFloor) = floors (parts.filter Part.atFloor) + floors (parts.filter Part.below) ∧
      totalOf parts = totalOf (lower parts) + ((parts.filter Part.below).map Part.weight).sum := by
  induction parts with
  | nil => exact ⟨rfl, rfl⟩
  | cons p ps ih =>
    simp only [floors, totalOf, lower] at ih ⊢
    have weight : p.lowered.weight = p.weight := rfl
    have floor : p.lowered.floor = p.floor := rfl
    by_cases below : p.below = true
    · have active : p.active = true := by
        simp only [Part.below, Bool.and_eq_true] at below
        exact below.1
      have plain : p.atFloor = false := by
        simp only [Part.active, Bool.and_eq_true, Bool.not_eq_true'] at active
        exact active.2
      have gone : p.lowered.active = false := by simp [Part.active, below]
      simp only [List.map_cons, List.filter_cons, Part.lowered_atFloor, below, Bool.or_true, plain, active, gone,
        Bool.false_eq_true, if_true, if_false, List.sum_cons, floor]
      omega
    · have same : p.lowered = p := by simp [Part.lowered, below]
      simp only [List.map_cons, List.filter_cons, same, below, Bool.false_eq_true, if_false]
      refine ⟨?_, ?_⟩
      · split
        · simp only [List.map_cons, List.sum_cons]
          omega
        · exact ih.1
      · split
        · simp only [List.map_cons, List.sum_cons]
          omega
        · exact ih.2

/-- One that is below its floor after a round has a share that falls short of it. -/
theorem Fair.below_short {rest : Nat} {floorsFit : Bool} {parts : List Part} (fair : Fair rest floorsFit parts) :
    ∀ p ∈ Layout.shareOut rest parts, p.below = true →
      EndToEnd.Short (freeOf rest parts) (totalOf parts) p.weight p.floor := by
  intro p member below
  simp only [Part.below, Bool.and_eq_true, decide_eq_true_eq] at below
  have enough := give_enough (total_pos fair.some_) (EndToEnd.room_start (freeOf rest parts) _) p member below.1
  exact Nat.lt_of_lt_of_le enough (Nat.mul_le_mul_right _ below.2)

/-- With those that are below their floor gone, the others get no more than they would have. -/
theorem Fair.shrinks {rest : Nat} {floorsFit : Bool} {parts : List Part} (fair : Fair rest floorsFit parts) :
    freeOf rest (Layout.lower (Layout.shareOut rest parts)) * totalOf parts ≤
      freeOf rest parts * totalOf (Layout.lower (Layout.shareOut rest parts)) := by
  have alike := shareOut_alike rest parts
  obtain ⟨taken, gone⟩ := lower_leaves (Layout.shareOut rest parts)
  have short : freeOf rest parts * (((Layout.shareOut rest parts).filter Part.below).map Part.weight).sum ≤
      floors ((Layout.shareOut rest parts).filter Part.below) * totalOf parts := by
    rw [floors, ← List.sum_map_mul_left, ← List.sum_map_mul_right]
    apply List.sum_le_sum
    intro p member
    obtain ⟨inside, below⟩ := List.mem_filter.mp member
    exact Nat.le_of_lt (fair.below_short p inside below)
  have less := EndToEnd.shrink short
  have free : freeOf rest (Layout.lower (Layout.shareOut rest parts)) =
      freeOf rest parts - floors ((Layout.shareOut rest parts).filter Part.below) := by
    rw [← freeOf_alike alike, freeOf, freeOf, taken, Nat.sub_add_eq]
  have total : totalOf (Layout.lower (Layout.shareOut rest parts)) =
      totalOf parts - (((Layout.shareOut rest parts).filter Part.below).map Part.weight).sum := by
    rw [← totalOf_alike alike, gone, Nat.add_sub_cancel]
  rwa [free, total]

/-- The next round is as fair as this one. -/
theorem Fair.lower {rest : Nat} {parts : List Part} (fair : Fair rest true parts) :
    Fair rest true (lower (Layout.shareOut rest parts)) := by
  have after := fair.shareOut
  have some_ : (Layout.lower (Layout.shareOut rest parts)).any Part.active = true := by
    obtain ⟨p, member, active, above⟩ := fair.some_above
    apply List.any_eq_true.mpr
    refine ⟨p.lowered, List.mem_map.mpr ⟨p, member, rfl⟩, ?_⟩
    have high : p.below = false := by simp [Part.below, above]
    simpa [Part.active, high] using active
  refine ⟨?_, ?_, fun _ => ?_, ?_, some_⟩
  · intro p member floored
    obtain ⟨q, inside, rfl⟩ := List.mem_map.mp member
    rw [Part.lowered_atFloor, Bool.or_eq_true] at floored
    rcases floored with before | below
    · exact after.weighted q inside before
    · simp only [Part.below, Part.active, Bool.and_eq_true] at below
      exact below.1.1
  · intro p member floored
    obtain ⟨q, inside, rfl⟩ := List.mem_map.mp member
    rw [Part.lowered_atFloor, Bool.or_eq_true] at floored
    have short : EndToEnd.Short (freeOf rest parts) (totalOf parts) q.weight q.floor := by
      rcases floored with before | below
      · have := after.short q inside before
        rwa [freeOf_alike (shareOut_alike rest parts), totalOf_alike (shareOut_alike rest parts)] at this
      · exact fair.below_short q inside below
    exact short.shrink fair.shrinks (total_pos some_)
  · have same : floors ((Layout.lower (Layout.shareOut rest parts)).filter Part.weighted) =
        floors ((Layout.shareOut rest parts).filter Part.weighted) := by
      simp only [Layout.lower, List.filter_map, floors, List.map_map]
      rfl
    rw [same]
    exact after.fit rfl
  · intro never
    cases never

theorem lower_idle (parts : List Part) : cells ((lower parts).filter Part.idle) = cells (parts.filter Part.idle) := by
  have same : Part.idle ∘ Part.lowered = Part.idle := by
    funext p
    simp only [Function.comp_apply, Part.idle, Part.active, Part.below, Part.lowered_weighted, Part.lowered_atFloor]
    cases p.weighted <;> cases p.atFloor <;> simp
  simp only [lower, List.filter_map, cells, List.map_map, same]
  rfl

/-- How those that weigh share `rest`. One whose share falls short of its floor has its floor; of
what those leave, each of the others has its share rounded down, and the last of them the remainder. -/
structure Proportional (rest : Nat) (parts : List Part) : Prop where
  held : ∀ p ∈ parts, p.atFloor = true → p.weighted = true ∧ p.assigned = p.floor ∧
    EndToEnd.Short (freeOf rest parts) (totalOf parts) p.weight p.floor
  share : ∀ before p after, parts = before ++ p :: after → p.active = true →
    p.assigned = if after.any Part.active then freeOf rest parts * p.weight / totalOf parts
      else freeOf rest parts - cells (before.filter Part.active)

theorem Fair.proportional {rest : Nat} {floorsFit : Bool} {parts : List Part} (fair : Fair rest floorsFit parts) :
    Proportional rest (Layout.shareOut rest parts) := by
  have after := fair.shareOut
  refine ⟨fun p member floored => ?_, fun before p later splits active => ?_⟩
  · exact ⟨after.weighted p member floored, give_floored _ _ _ _ p member floored, after.short p member floored⟩
  · have share := give_share (freeOf rest parts) (totalOf parts) parts 0 splits active
    rwa [Nat.zero_add, ← freeOf_alike (shareOut_alike rest parts), ← totalOf_alike (shareOut_alike rest parts)] at share

/-- The rounds give all that the fixed ones left, in proportion, and as long as the floors fit
nobody is below its own. -/
theorem settle_fair {rest : Nat} {floorsFit : Bool} {parts : List Part} (fair : Fair rest floorsFit parts) :
    cells (settle rest floorsFit parts) = rest + cells (parts.filter Part.idle) ∧
      Proportional rest (settle rest floorsFit parts) ∧
      (floorsFit = false → ∀ p ∈ settle rest floorsFit parts, p.atFloor = false) ∧
      (floorsFit = true → ∀ p ∈ settle rest floorsFit parts, p.weighted = true → p.floor ≤ p.assigned) := by
  fun_induction settle rest floorsFit parts with
  | case1 parts goes ih =>
    obtain ⟨rfl, -⟩ := (Bool.and_eq_true _ _ ▸ goes : floorsFit = true ∧ _)
    obtain ⟨given, others⟩ := ih fair.lower
    refine ⟨?_, others⟩
    rw [given, lower_idle]
    exact congrArg _ (give_idle _ _ _ _)
  | case2 parts done =>
    refine ⟨fair.cells_shareOut, fair.proportional, fair.shareOut.unfit, fun fits p member weighted => ?_⟩
    cases floored : p.atFloor with
    | true => exact Nat.le_of_eq (give_floored _ _ _ _ p member floored).symm
    | false =>
      have active : p.active = true := by simp [Part.active, weighted, floored]
      apply Nat.le_of_not_lt
      intro short
      apply done
      simp only [fits, Bool.true_and]
      exact List.any_eq_true.mpr ⟨p, member, by simp [Part.below, active, short]⟩

/-- Without weighted ones nothing is given. -/
theorem settle_unweighted {rest : Nat} {floorsFit : Bool} {parts : List Part}
    (none_ : ∀ p ∈ parts, p.weighted = false) (plain : ∀ p ∈ parts, p.atFloor = false) :
    settle rest floorsFit parts = parts := by
  have idle (free total given : Nat) : ∀ ps : List Part, (∀ p ∈ ps, p.weighted = false) → (∀ p ∈ ps, p.atFloor = false) →
      give free total ps given = ps := by
    intro ps
    induction ps with
    | nil => exact fun _ _ => rfl
    | cons p ps ih =>
      intro none_ plain
      rw [List.forall_mem_cons] at none_ plain
      simp only [give, Part.active, none_.1, plain.1, Bool.false_and, Bool.false_eq_true, if_false, ih none_.2 plain.2]
  have same : shareOut rest parts = parts := idle _ _ _ parts none_ plain
  have quiet : parts.any Part.below = false := by
    rw [List.any_eq_false]
    intro p member
    simp [Part.below, Part.active, none_ p member]
  unfold settle
  simp only [same, quiet, Bool.and_false, Bool.false_eq_true, if_false]

/-- The rounds leave what a child asks for, and everything of one that takes no part in them. -/
def Settles (a b : Part) : Prop := a.size = b.size ∧ a.floor = b.floor ∧ (b.idle = true → a = b)

theorem Settles.trans {a b c : Part} (first : Settles a b) (second : Settles b c) : Settles a c := by
  refine ⟨first.1.trans second.1, first.2.1.trans second.2.1, fun idle => ?_⟩
  have same := second.2.2 idle
  exact (first.2.2 (same ▸ idle)).trans same

theorem give_settles (free total : Nat) (parts : List Part) (given : Nat) :
    List.Forall₂ Settles (give free total parts given) parts := by
  induction parts generalizing given with
  | nil => exact .nil
  | cons p ps ih =>
    unfold give
    split
    · rename_i active
      exact .cons ⟨rfl, rfl, fun idle => by simp [Part.idle, active] at idle⟩ (ih _)
    · split
      · rename_i floored
        exact .cons ⟨rfl, rfl, fun idle => by simp [Part.idle, floored] at idle⟩ (ih _)
      · exact .cons ⟨rfl, rfl, fun _ => rfl⟩ (ih _)

theorem lower_settles (parts : List Part) : List.Forall₂ Settles (lower parts) parts := by
  rw [lower, List.forall₂_map_left_iff]
  apply List.forall₂_same.mpr
  intro p _
  refine ⟨rfl, rfl, fun idle => ?_⟩
  have quiet : p.below = false := by
    simp only [Part.idle, Bool.and_eq_true, Bool.not_eq_true'] at idle
    simp [Part.below, idle.1]
  simp [Part.lowered, quiet]

theorem settle_settles (rest : Nat) (floorsFit : Bool) (parts : List Part) :
    List.Forall₂ Settles (settle rest floorsFit parts) parts := by
  have trans {as bs cs : List Part} (first : List.Forall₂ Settles as bs) (second : List.Forall₂ Settles bs cs) :
      List.Forall₂ Settles as cs := by
    rw [List.forall₂_iff_get] at first second ⊢
    refine ⟨first.1.trans second.1, fun i bound bound' => ?_⟩
    exact (first.2 i bound (second.1 ▸ bound')).trans (second.2 i (second.1 ▸ bound') bound')
  fun_induction settle rest floorsFit parts with
  | case1 parts goes ih => exact trans (trans ih (lower_settles _)) (give_settles _ _ _ _)
  | case2 parts done => exact give_settles _ _ _ _

end Norte.Layout
