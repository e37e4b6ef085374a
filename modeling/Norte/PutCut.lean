import Mathlib.Data.List.Induction
import Mathlib.Logic.Function.Basic

/-! Edits of a map: something is put at a place, or all that is at or below a place is cut off.
Where edits keep out of each other's way, what each of them finds is what was there before all of
them, and what it puts stays. -/
namespace Norte.PutCut

variable {P V : Type*}

inductive Edit (P V : Type*) where
  | put (place : P) (value : V)
  | cut (place : P)

section

variable [DecidableEq P] (above : P → P → Prop) [DecidableRel above]

def Edit.apply (t : P → Option V) : Edit P V → P → Option V
  | put place value => Function.update t place (some value)
  | cut place => fun p => if above place p then none else t p

def applyAll (t : P → Option V) (edits : List (Edit P V)) : P → Option V := edits.foldl (Edit.apply above) t

@[simp] theorem applyAll_nil (t : P → Option V) : applyAll above t [] = t := rfl

theorem applyAll_append (t : P → Option V) (first second : List (Edit P V)) :
    applyAll above t (first ++ second) = applyAll above (applyAll above t first) second :=
  List.foldl_append

/-- One edit does not undo the other, whichever comes first. -/
def Clear : Edit P V → Edit P V → Prop
  | .put p _, .put q _ => p ≠ q
  | .put p _, .cut q => ¬above q p
  | .cut p, .put q _ => ¬above p q
  | .cut _, .cut _ => True

variable {above} {t : P → Option V} {edits : List (Edit P V)} {p : P}

/-- What was put stays. -/
theorem applyAll_put (clear : edits.Pairwise (Clear above)) {value : V} (member : .put p value ∈ edits) :
    applyAll above t edits p = some value := by
  induction edits using List.reverseRecOn with
  | nil => cases member
  | append_singleton edits last ih =>
    obtain ⟨earlier, -, apart⟩ := List.pairwise_append.mp clear
    rw [applyAll_append]
    rcases List.mem_append.mp member with inside | here
    · have away := apart _ inside last List.mem_cons_self
      have found := ih earlier inside
      cases last with
      | put place other =>
        have away : p ≠ place := away
        simp [applyAll, Edit.apply, Function.update_of_ne away]
        exact found
      | cut place =>
        have away : ¬above place p := away
        simp [applyAll, Edit.apply, away]
        exact found
    · obtain rfl := List.mem_singleton.mp here
      simp [applyAll, Edit.apply]

/-- Where nothing is put, a place that is not cut is as it was. -/
theorem applyAll_other (other : ∀ value, .put p value ∉ edits) (kept : ∀ place, .cut place ∈ edits → ¬above place p) :
    applyAll above t edits p = t p := by
  induction edits using List.reverseRecOn with
  | nil => rfl
  | append_singleton edits last ih =>
    have found := ih (fun value inside => other value (List.mem_append_left _ inside))
      fun place inside => kept place (List.mem_append_left _ inside)
    rw [applyAll_append]
    cases last with
    | put place value =>
      have away : p ≠ place := by
        rintro rfl
        exact other value (by simp)
      simp [applyAll, Edit.apply, Function.update_of_ne away]
      exact found
    | cut place =>
      have away : ¬above place p := kept place (by simp)
      simp [applyAll, Edit.apply, away]
      exact found

/-- What is cut off is gone, unless something is put there. -/
theorem applyAll_cut (other : ∀ value, .put p value ∉ edits) {place : P} (member : .cut place ∈ edits) (inside : above place p) :
    applyAll above t edits p = none := by
  induction edits using List.reverseRecOn with
  | nil => cases member
  | append_singleton edits last ih =>
    have other' (value : V) : .put p value ∉ edits := fun found => other value (List.mem_append_left _ found)
    rw [applyAll_append]
    cases last with
    | put at_ value =>
      have away : p ≠ at_ := by
        rintro rfl
        exact other value (by simp)
      have found := ih other' (by simpa using member)
      simp [applyAll, Edit.apply, Function.update_of_ne away]
      exact found
    | cut at_ =>
      by_cases under : above at_ p
      · simp [applyAll, Edit.apply, under]
      · rcases List.mem_append.mp member with earlier | here
        · simp [applyAll, Edit.apply, under]
          exact ih other' earlier
        · obtain rfl := Edit.cut.inj (List.mem_singleton.mp here)
          exact absurd inside under

end

end Norte.PutCut
