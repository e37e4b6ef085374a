import Mathlib

/-! Lengths laid end to end, and a length shared out in proportion. The spans of lengths laid
end to end never overlap and leave no gap; shares rounded down never exceed the whole, so that
the last share can take what is left. -/
namespace Norte.EndToEnd

/-- Where each of the lengths begins, and how long it is. -/
def spans : Nat → List Nat → List (Nat × Nat)
  | _, [] => []
  | start, length :: rest => (start, length) :: spans (start + length) rest

variable {start p : Nat} {lengths : List Nat} {s : Nat × Nat}

@[simp] theorem length_spans : (spans start lengths).length = lengths.length := by
  induction lengths generalizing start with
  | nil => rfl
  | cons length rest ih => simp [spans, ih]

@[simp] theorem map_spans : (spans start lengths).map (·.2) = lengths := by
  induction lengths generalizing start with
  | nil => rfl
  | cons length rest ih => simp [spans, ih]

/-- Each span begins where the ones before it end. -/
theorem getElem?_spans (start : Nat) (lengths : List Nat) (i : Nat) :
    (spans start lengths)[i]? = lengths[i]?.map fun length => (start + (lengths.take i).sum, length) := by
  induction lengths generalizing start i with
  | nil => rfl
  | cons length rest ih =>
    cases i with
    | zero => rfl
    | succ i => simp only [spans, List.getElem?_cons_succ, ih, List.take_succ_cons, List.sum_cons, Nat.add_assoc]

/-- Every span lies between the first start and the last end. -/
theorem within (member : s ∈ spans start lengths) : start ≤ s.1 ∧ s.1 + s.2 ≤ start + lengths.sum := by
  induction lengths generalizing start with
  | nil => simp [spans] at member
  | cons length rest ih =>
    simp only [spans, List.mem_cons] at member
    simp only [List.sum_cons]
    rcases member with rfl | later
    · exact ⟨Nat.le_refl _, by omega⟩
    · have := ih later
      omega

/-- A span ends where a later one begins, or before. -/
theorem apart (start : Nat) (lengths : List Nat) : (spans start lengths).Pairwise fun a b => a.1 + a.2 ≤ b.1 := by
  induction lengths generalizing start with
  | nil => exact .nil
  | cons length rest ih =>
    apply List.Pairwise.cons _ (ih (start + length))
    intro b later
    exact (within later).1

/-- No point between the first start and the last end is left out. -/
theorem covers (lengths : List Nat) (from_ : start ≤ p) (until_ : p < start + lengths.sum) :
    ∃ s ∈ spans start lengths, s.1 ≤ p ∧ p < s.1 + s.2 := by
  induction lengths generalizing start with
  | nil =>
    simp only [List.sum_nil] at until_
    omega
  | cons length rest ih =>
    simp only [List.sum_cons] at until_
    by_cases here : p < start + length
    · exact ⟨(start, length), List.mem_cons_self, from_, here⟩
    · obtain ⟨s, later, inside⟩ := ih (show start + length ≤ p by omega) (by omega)
      exact ⟨s, List.mem_cons_of_mem _ later, inside⟩

/-! A share is `free * weight / total`. What was given so far, with what is still to come in
proportion, never exceeds the whole. -/

/-- `given` leaves room for parts of weight `weight` in all. -/
def Room (free total given weight : Nat) : Prop := given * total + free * weight ≤ free * total

theorem room_start (free total : Nat) : Room free total 0 total := by simp [Room]

/-- A share rounded down leaves the room of the others. -/
theorem Room.share {free total given weight more : Nat} (room : Room free total given (weight + more)) :
    Room free total (given + free * weight / total) more := by
  have rounded : free * weight / total * total ≤ free * weight := Nat.div_mul_le_self _ _
  unfold Room at room ⊢
  calc (given + free * weight / total) * total + free * more
    _ = given * total + free * weight / total * total + free * more := by rw [Nat.add_mul]
    _ ≤ given * total + free * weight + free * more := by omega
    _ = given * total + free * (weight + more) := by rw [Nat.mul_add, Nat.add_assoc]
    _ ≤ free * total := room

/-- What is left for the last one is no less than its share. -/
theorem Room.left {free total given weight : Nat} (room : Room free total given weight) :
    free * weight ≤ (free - given) * total := by
  unfold Room at room
  calc free * weight
    _ ≤ free * total - given * total := Nat.le_sub_of_add_le (by omega)
    _ = (free - given) * total := (Nat.sub_mul _ _ _).symm

/-- The share of `weight`, before rounding, falls short of `floor`. -/
def Short (free total weight floor : Nat) : Prop := free * weight < floor * total

/-- Shares that fall short of what is taken instead of them leave the others no more than they had. -/
theorem shrink {free total taken gone : Nat} (short : free * gone ≤ taken * total) :
    (free - taken) * total ≤ free * (total - gone) := by
  calc (free - taken) * total
    _ = free * total - taken * total := Nat.sub_mul _ _ _
    _ ≤ free * total - free * gone := Nat.sub_le_sub_left short _
    _ = free * (total - gone) := (Nat.mul_sub _ _ _).symm

/-- One that fell short falls short of a smaller share, too. -/
theorem Short.shrink {free total free' total' weight floor : Nat} (short : Short free total weight floor)
    (less : free' * total ≤ free * total') (some_ : 0 < total') : Short free' total' weight floor := by
  unfold Short at short ⊢
  apply Nat.lt_of_mul_lt_mul_right (a := total)
  calc free' * weight * total
    _ = free' * total * weight := Nat.mul_right_comm _ _ _
    _ ≤ free * total' * weight := Nat.mul_le_mul_right _ less
    _ = free * weight * total' := Nat.mul_right_comm _ _ _
    _ < floor * total * total' := Nat.mul_lt_mul_of_pos_right short some_
    _ = floor * total' * total := Nat.mul_right_comm _ _ _

theorem Room.given_le {free total given weight : Nat} (room : Room free total given weight) (some_ : 0 < total) :
    given ≤ free := by
  unfold Room at room
  exact Nat.le_of_mul_le_mul_right (Nat.le_trans (Nat.le_add_right _ _) room) some_

end Norte.EndToEnd
