import Mathlib.Tactic.Linarith

/-! The civil calendar, counted in days. A year is taken to begin in March, so that the leap
day is its last one, and the days of four centuries are told apart by divisions alone. -/
namespace Norte.Calendar

/-- Leap days in the years from 1 to `y`. -/
def leaps (y : Int) : Int := y / 4 - y / 100 + y / 400

/-- The first of January of `y`, in days after that of 1970. -/
def newYear (y : Int) : Int := 365 * y + leaps (y - 1) - 719527

/-- The first of March of `y`. -/
def march (y : Int) : Int := 365 * y + leaps y - 719468

theorem march_to_newYear (y : Int) : newYear (y + 1) = march y + 306 := by
  simp only [newYear, march, add_sub_cancel_right]
  omega

theorem march_succ (y : Int) : march y + 365 ≤ march (y + 1) ∧ march (y + 1) ≤ march y + 366 := by
  simp only [march, leaps]
  omega

theorem march_era (y era : Int) : march (y + era * 400) = march y + era * 146097 := by
  have fours : (y + era * 400) / 4 = y / 4 + era * 100 := by omega
  have hundreds : (y + era * 400) / 100 = y / 100 + era * 4 := by omega
  have eras : (y + era * 400) / 400 = y / 400 + era := by omega
  simp only [march, leaps, fours, hundreds, eras]
  omega

theorem march_mono {y z : Int} (le : y ≤ z) : march y ≤ march z := by
  simp only [march, leaps]
  omega

/-- The year of the era a day falls in, found by dividing. -/
def yearOfEra (doe : Int) : Int := (doe - doe / 1460 + doe / 36524 - doe / 146096) / 365

theorem yearOfEra_bounds (doe : Int) (low : 0 ≤ doe) (high : doe < 146097) :
    0 ≤ yearOfEra doe ∧ yearOfEra doe < 400 := by
  unfold yearOfEra
  omega

/-- Among years of four the quotient is off by one at most; each century and each place among
the four is looked at alone. -/
theorem yearOfEra_spec {doe : Int} (low : 0 ≤ doe) (high : doe < 146097) :
    365 * yearOfEra doe + yearOfEra doe / 4 - yearOfEra doe / 100 ≤ doe ∧
      doe < 365 * (yearOfEra doe + 1) + leaps (yearOfEra doe + 1) := by
  obtain ⟨yoe, year⟩ : ∃ yoe, yoe = yearOfEra doe := ⟨_, rfl⟩
  obtain ⟨fours, four⟩ : ∃ fours, fours = doe / 1460 := ⟨_, rfl⟩
  obtain ⟨century, hundred⟩ : ∃ century, century = doe / 36524 := ⟨_, rfl⟩
  obtain ⟨place, off⟩ : ∃ place, place = yoe - 4 * fours := ⟨_, rfl⟩
  rw [← year]
  simp only [yearOfEra, ← four, ← hundred] at year
  simp only [leaps]
  have places : place = -1 ∨ place = 0 ∨ place = 1 ∨ place = 2 ∨ place = 3 := by omega
  have centuries : century = 0 ∨ century = 1 ∨ century = 2 ∨ century = 3 ∨ century = 4 := by omega
  rcases places with rfl | rfl | rfl | rfl | rfl <;>
    rcases centuries with rfl | rfl | rfl | rfl | rfl <;> omega

/-- The March year of a day is that of its era and of its day in the era. -/
theorem march_of_day (day : Int) :
    let year := yearOfEra ((day + 719468) % 146097) + (day + 719468) / 146097 * 400
    march year ≤ day ∧ day < march (year + 1) := by
  have low : 0 ≤ (day + 719468) % 146097 := by omega
  have high : (day + 719468) % 146097 < 146097 := by omega
  obtain ⟨first, last⟩ := yearOfEra_bounds _ low high
  obtain ⟨after, before⟩ := yearOfEra_spec low high
  have whole : yearOfEra ((day + 719468) % 146097) / 400 = 0 := by omega
  intro year
  have succ : year + 1 = yearOfEra ((day + 719468) % 146097) + 1 + (day + 719468) / 146097 * 400 := by
    simp only [year]
    omega
  rw [succ, march_era, march_era]
  simp only [march, leaps, whole] at before ⊢
  omega

/-- The month of a day of a March year, from 0. -/
def monthOf (doy : Int) : Int := (5 * doy + 2) / 153

/-- The days of a March year before a month. -/
def monthStart (month : Int) : Int := (153 * month + 2) / 5

theorem monthOf_spec {doy : Int} (low : 0 ≤ doy) (high : doy < 366) :
    0 ≤ monthOf doy ∧ monthOf doy ≤ 11 ∧ monthStart (monthOf doy) ≤ doy ∧ doy ≤ monthStart (monthOf doy) + 30 ∧
      (monthOf doy < 10 ↔ doy < 306) := by
  simp only [monthOf, monthStart]
  omega

end Norte.Calendar
