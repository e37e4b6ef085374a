import Mathlib.Data.List.Forall2

/-! Giving something up until it fits: steps in a fixed order, a look after each, and the
first state that fits is the result. If no step makes it larger, the result gave up no more
than it had to. -/
namespace Norte.FirstFit

variable {σ α : Type*} (fits : σ → Bool)

/-- The result of a series of steps: it ended at a state that fits, or it goes on. -/
abbrev Series (σ : Type*) := Except σ σ

/-- The loop: one step after the other, with a look after each. -/
def series (step : σ → α → σ) : List α → σ → Series σ
  | [], s => .ok s
  | a :: as, s => if fits (step s a) then .error (step s a) else series step as (step s a)

/-- Another series after it, where it did not end. -/
def Series.next : Series σ → (σ → Series σ) → Series σ
  | .error s, _ => .error s
  | .ok s, more => more s

/-- Where a series ended either way. -/
def final : Series σ → σ
  | .error s => s
  | .ok s => s

variable {fits} {step : σ → α → σ}

/-- A series ended after the first steps that made it fit, or after all of them. -/
theorem series_cases (fits : σ → Bool) (step : σ → α → σ) (as : List α) (s : σ) :
    (∃ done rest, as = done ++ rest ∧ done ≠ [] ∧ series fits step as s = .error (done.foldl step s) ∧
        fits (done.foldl step s) = true ∧
        ∀ before, before ≠ [] → before <+: done → before ≠ done → fits (before.foldl step s) = false) ∨
      (series fits step as s = .ok (as.foldl step s) ∧
        ∀ before, before ≠ [] → before <+: as → fits (before.foldl step s) = false) := by
  induction as generalizing s with
  | nil =>
    refine .inr ⟨rfl, fun before some_ onWay => ?_⟩
    exact absurd (List.prefix_nil.mp onWay) some_
  | cons a as ih =>
    cases here : fits (step s a) with
    | true =>
      refine .inl ⟨[a], as, rfl, by simp, by simp [series, here], here, fun before some_ onWay other => ?_⟩
      have long := onWay.length_le
      cases before with
      | nil => exact absurd rfl some_
      | cons b before =>
        obtain rfl : before = [] := List.length_eq_zero_iff.mp (by simpa using long)
        obtain ⟨rfl, -⟩ := List.cons_prefix_cons.mp onWay
        exact absurd rfl other
    | false =>
      have first {before : List α} {upto : List α} (some_ : before ≠ []) (onWay : before <+: a :: upto)
          (later : ∀ rest, rest ≠ [] → rest <+: upto → before = a :: rest → fits (rest.foldl step (step s a)) = false) :
          fits (before.foldl step s) = false := by
        cases before with
        | nil => exact absurd rfl some_
        | cons b rest =>
          obtain ⟨rfl, inside⟩ := List.cons_prefix_cons.mp onWay
          by_cases none_ : rest = []
          · subst none_
            exact here
          · exact later rest none_ inside rfl
      rcases ih (step s a) with ⟨done, rest, rfl, nonempty, ended, fit, early⟩ | ⟨ended, early⟩
      · refine .inl ⟨a :: done, rest, rfl, by simp, by simpa [series, here] using ended, fit, ?_⟩
        intro before some_ onWay other
        refine first some_ onWay fun rest none_ inside same => early rest none_ inside fun whole => ?_
        rw [whole] at same
        exact other same
      · refine .inr ⟨by simpa [series, here] using ended, fun before some_ onWay => ?_⟩
        exact first some_ onWay fun rest none_ inside _ => early rest none_ inside

/-- Steps that change nothing, where it does not fit. -/
theorem series_idle (fits : σ → Bool) (step : σ → α → σ) {as : List α} {s : σ} (idle : ∀ a ∈ as, step s a = s) (large : fits s = false) :
    series fits step as s = .ok s := by
  induction as with
  | nil => rfl
  | cons a as ih =>
    have here := idle a List.mem_cons_self
    simp only [series, here, large]
    exact ih fun a member => idle a (List.mem_cons_of_mem _ member)

end Norte.FirstFit
