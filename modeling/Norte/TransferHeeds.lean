import Norte.TransferTree

/-! What a copy in runs has in common with the copy of one entry after another, and where it departs
from it: an entry that waits at the gate while an error is seen still begins. -/
namespace Norte.Transfer

open Sync (Entry EntryKind)

variable {K : Type} [DecidableEq K] {job : Job K}

namespace Run

/-- The step lets an entry in after an error was seen. -/
def BeginsLate (s : Run K) (c : Choice) : Prop := c = .pass none ∧ s.gate.isSome = true ∧ s.failed.isSome = true

instance (s : Run K) (c : Choice) : Decidable (BeginsLate s c) := inferInstanceAs (Decidable (_ ∧ _))

variable (job) in
/-- No step of the schedule lets an entry in after an error was seen. -/
def Heeds : Run K → List Choice → Prop
  | _, [] => True
  | s, c :: cs => ¬BeginsLate s c ∧ Heeds (step job s c) cs

variable (job) in
/-- An entry begins late at the steps that let it in late, and at no other. -/
theorem late_step {group : List Entry} {s : Run K} (orderly : Orderly group s) (c : Choice) :
    late (step job s c).history = late s.history + if BeginsLate s c then 1 else 0 := by
  have quiet {e : Event} (quiet : e.isBegun = false) : late (s.history ++ [e]) = late s.history := by
    simp [late_concat, quiet]
  cases c with
  | take =>
    simp only [step, BeginsLate, reduceCtorEq, false_and, if_false, Nat.add_zero]
    split
    · split <;> rfl
    · rfl
  | pass fault =>
    cases gate : s.gate with
    | none => simp [step, gate, BeginsLate]
    | some e =>
      cases fault with
      | none => simp [step, gate, BeginsLate, late_concat, ← orderly.first, Event.isBegun, Event.begins]
      | some error => simpa [step, gate, BeginsLate] using quiet rfl
  | call i fault =>
    simp only [step, BeginsLate, reduceCtorEq, false_and, if_false, Nat.add_zero]
    split <;> rfl
  | land i =>
    simp only [step, BeginsLate, reduceCtorEq, false_and, if_false, Nat.add_zero]
    split
    · split
      · rw [(land_eq _ _ _).2.2.2.2]
        exact quiet rfl
      · rfl
    · rfl

/-- Nothing begins after an error exactly if the schedule lets nothing in after one. -/
theorem late_iff {group : List Entry} {s : Run K} (orderly : Orderly group s) (start : late s.history = 0)
    (schedule : List Choice) : late (drive job s schedule).history = 0 ↔ Heeds job s schedule := by
  -- Once something began late it stays so.
  have stays : ∀ {s : Run K}, Orderly group s → ∀ cs, late s.history ≤ late (drive job s cs).history := by
    intro s orderly cs
    induction cs generalizing s with
    | nil => exact Nat.le_refl _
    | cons c cs ih =>
      apply Nat.le_trans _ (ih (orderly.step (step_steps job s c)))
      rw [late_step job orderly]
      exact Nat.le_add_right _ _
  induction schedule generalizing s with
  | nil => exact iff_of_true start True.intro
  | cons c cs ih =>
    have next := orderly.step (step_steps job s c)
    have now := late_step job orderly c
    rw [start, Nat.zero_add] at now
    by_cases begins : BeginsLate s c
    · rw [if_pos begins] at now
      have more : late (step job s c).history ≤ late (drive job s (c :: cs)).history := stays next cs
      refine iff_of_false (by omega) fun heeds => heeds.1 begins
    · rw [if_neg begins] at now
      exact (ih next now).trans (and_iff_right begins).symm

/-- What holds of a run of these entries at any moment, if every copy that fails does so without an
effect and the rows are written: no entry is dropped, the error is the first that was seen, and what
was published is in a row, or its entry is about to write it. -/
structure Accounted (job : Job K) (group : List Entry) (w : World K) (s : Run K) : Prop where
  whole : s.entries.Perm group
  first : s.failed = s.history.findSome? Event.error
  ended : s.finished = true → s.flights = []
  published : ∃ added, s.world.rows = w.rows ++ added ∧ ∀ k, s.world.tree k ≠ none → s.world.tree k ≠ w.tree k →
    (∃ p, .created p ∈ added ∧ job.place p = k) ∨ ∃ f ∈ s.flights, ∃ target, f.stage = .written target ∧ job.place target = k

variable (job) in
theorem drive_accounted (group : List Entry) (w : World K) {schedule : List Choice}
    (effectless : slips job (fresh group w) schedule = []) : Accounted job group w (drive job (fresh group w) schedule) := by
  have orderly := drive_orderly job group w schedule
  have start : Told job w [] [] (fresh group w) :=
    ⟨(List.append_nil _).symm, fun k now was => absurd now was, fun k now was => absurd rfl was⟩
  obtain ⟨added, told⟩ := told_drive start schedule
  rw [List.nil_append, effectless] at told
  refine ⟨orderly.whole, orderly.first, finished_flights, added, told.rows, fun k now was => ?_⟩
  rcases told.made k now was with row | owed | slipped
  · exact .inl row
  · exact .inr owed
  · cases slipped

end Run

namespace Job

def sampleHeld : List Choice :=
  [.take, .pass none, .take, .call 0 (some (.refused .noSpace)), .land 0, .pass none]

end Job

end Norte.Transfer
