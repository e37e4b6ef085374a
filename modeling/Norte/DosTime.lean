import Norte.Calendar
import Norte.ZipRead
import Norte.ZipWrite

/-! An mtime packed as a DOS pair and read back. The year has seven bits, and the writer checks
sixteen: up to 2107 the pair keeps the even second, later it keeps another year. -/
namespace Norte.Archive.Zip

open Calendar

/-- What the reader finds for an entry that was packed with the mtime `ms`. -/
def readBack (ms : Int) : Option Int := dosPairToMs (dosDatetime (some ms)).1 (dosDatetime (some ms)).2

/-! The writer's calendar. -/

/-- A civil time, told by the day of a March year and by the second of the day. -/
structure Tells (secs year doy : Int) (dt : Civil) : Prop where
  day : march year + doy = secs / 86400
  low : 0 ≤ doy
  high : doy < 366
  within : march year + doy < march (year + 1)
  year : dt.year = if doy < 306 then year else year + 1
  month : (dt.month.toNat : Int) = if doy < 306 then monthOf doy + 3 else monthOf doy - 9
  monthDay : (dt.day.toNat : Int) = doy - monthStart (monthOf doy) + 1
  hour : (dt.hour.toNat : Int) = secs % 86400 / 3600
  min : (dt.min.toNat : Int) = secs % 86400 % 3600 / 60
  sec : (dt.sec.toNat : Int) = secs % 86400 % 60

theorem toU8_of {n : Int} (low : 0 ≤ n) (high : n < 256) :
    ∃ v, toU8 n = some v ∧ (v.toNat : Int) = n := by
  refine ⟨UInt8.ofNat n.toNat, by simp [toU8, low, high], ?_⟩
  rw [UInt8.toNat_ofNat']
  omega

/-- The day of the March year is found from the day of the era. -/
theorem dayOfYear (day : Int) :
    (day + 719468) % 146097 - (365 * yearOfEra ((day + 719468) % 146097) +
        yearOfEra ((day + 719468) % 146097) / 4 - yearOfEra ((day + 719468) % 146097) / 100) =
      day - march (yearOfEra ((day + 719468) % 146097) + (day + 719468) / 146097 * 400) := by
  have bounds := yearOfEra_bounds ((day + 719468) % 146097) (by omega) (by omega)
  have whole : yearOfEra ((day + 719468) % 146097) / 400 = 0 := by omega
  rw [march_era]
  simp only [march, leaps, whole]
  omega

/-- The fields as the writer computes them from the year and its day. -/
def civilOf (year doy remainder : Int) : Option Civil := do
  let m := if monthOf doy < 10 then monthOf doy + 3 else monthOf doy - 9
  return ⟨if m ≤ 2 then year + 1 else year, ← toU8 m, ← toU8 (doy - monthStart (monthOf doy) + 1),
    ← toU8 (remainder / 3600), ← toU8 (remainder % 3600 / 60), ← toU8 (remainder % 60)⟩

theorem civilFromUnix_eq (secs : Int) :
    ∃ year doy, march year + doy = secs / 86400 ∧ 0 ≤ doy ∧ march year + doy < march (year + 1) ∧
      civilFromUnix secs = civilOf year doy (secs % 86400) := by
  obtain ⟨after, before⟩ := march_of_day (secs / 86400)
  refine ⟨yearOfEra ((secs / 86400 + 719468) % 146097) + (secs / 86400 + 719468) / 146097 * 400,
    secs / 86400 - march (yearOfEra ((secs / 86400 + 719468) % 146097) + (secs / 86400 + 719468) / 146097 * 400),
    by omega, by omega, by omega, ?_⟩
  rw [← dayOfYear]
  rfl

theorem civilOf_tells {secs year doy : Int} (day : march year + doy = secs / 86400) (low : 0 ≤ doy)
    (within : march year + doy < march (year + 1)) :
    ∃ dt, civilOf year doy (secs % 86400) = some dt ∧ Tells secs year doy dt := by
  obtain ⟨short, long⟩ := march_succ year
  obtain ⟨monthLow, monthHigh, dayLow, dayHigh, switch⟩ := monthOf_spec low (by omega)
  obtain ⟨month, monthEq, monthIs⟩ := toU8_of
    (n := if monthOf doy < 10 then monthOf doy + 3 else monthOf doy - 9) (by split <;> omega) (by split <;> omega)
  obtain ⟨monthDay, dayEq, dayIs⟩ := toU8_of (n := doy - monthStart (monthOf doy) + 1) (by omega) (by omega)
  obtain ⟨hour, hourEq, hourIs⟩ := toU8_of (n := secs % 86400 / 3600) (by omega) (by omega)
  obtain ⟨min, minEq, minIs⟩ := toU8_of (n := secs % 86400 % 3600 / 60) (by omega) (by omega)
  obtain ⟨sec, secEq, secIs⟩ := toU8_of (n := secs % 86400 % 60) (by omega) (by omega)
  refine ⟨_, by simp only [civilOf, monthEq, dayEq, hourEq, minEq, secEq]; rfl, ?_⟩
  constructor
  · exact day
  · exact low
  · omega
  · exact within
  · dsimp only
    split <;> split <;> omega
  · rw [monthIs]
    simp only [switch]
  · exact dayIs
  · exact hourIs
  · exact minIs
  · exact secIs

theorem civilFromUnix_tells (secs : Int) :
    ∃ dt year doy, civilFromUnix secs = some dt ∧ Tells secs year doy dt := by
  obtain ⟨year, doy, day, low, within, eq⟩ := civilFromUnix_eq secs
  obtain ⟨dt, found, tells⟩ := civilOf_tells day low within
  exact ⟨dt, year, doy, eq.trans found, tells⟩

/-! The reader's calendar. -/

theorem floor_tdiv (y : Int) : (if 0 ≤ y then y else y - 399).tdiv 400 = y / 400 := by
  split
  case isTrue positive => exact Int.tdiv_eq_ediv_of_nonneg positive
  case isFalse negative =>
    rw [← Int.neg_neg (y - 399), Int.neg_tdiv, Int.tdiv_eq_ediv_of_nonneg (by omega)]
    omega

/-- Every date the reader computes is a day of a March year. -/
theorem daysFromCivil_eq (y : Int) {m : Int} (d : Int) (low : 1 ≤ m) (high : m ≤ 12) :
    daysFromCivil y m d =
      march (if m ≤ 2 then y - 1 else y) + monthStart (if m ≤ 2 then m + 9 else m - 3) + d - 1 := by
  have month : (m + 9).tmod 12 = if m ≤ 2 then m + 9 else m - 3 := by
    rw [Int.tmod_eq_emod_of_nonneg (by omega)]
    split <;> omega
  unfold daysFromCivil
  generalize (if m ≤ 2 then y - 1 else y) = year
  simp only [floor_tdiv, month]
  have started : 0 ≤ (if m ≤ 2 then m + 9 else m - 3) := by split <;> omega
  generalize (if m ≤ 2 then m + 9 else m - 3) = start at started
  rw [Int.tdiv_eq_ediv_of_nonneg (by omega), Int.tdiv_eq_ediv_of_nonneg (by omega),
    Int.tdiv_eq_ediv_of_nonneg (by omega)]
  simp only [march, leaps, monthStart]
  omega

/-! The pair. -/

theorem fields_add (a : Nat) {b c k : Nat} (low : c < 32) (fits : b * 32 + c < 2 ^ k) :
    a <<< k ||| b <<< 5 ||| c = a * 2 ^ k + (b * 32 + c) := by
  have tail : b <<< 5 ||| c = b * 32 + c := by
    rw [← Nat.shiftLeft_add_eq_or_of_lt (show c < 2 ^ 5 by omega), Nat.shiftLeft_eq]
  rw [Nat.or_assoc, tail, ← Nat.shiftLeft_add_eq_or_of_lt fits, Nat.shiftLeft_eq]

/-- Of the year, seven bits are left. -/
theorem date_packed (year month day : UInt16) (monthFits : month.toNat < 16) (dayFits : day.toNat < 32) :
    (year <<< 9 ||| month <<< 5 ||| day).toNat = year.toNat % 128 * 512 + month.toNat * 32 + day.toNat := by
  have nine : (9 : UInt16).toNat % 16 = 9 := rfl
  have five : (5 : UInt16).toNat % 16 = 5 := rfl
  have high : year.toNat <<< 9 % 2 ^ 16 = (year.toNat % 128) <<< 9 := by
    rw [Nat.shiftLeft_eq, Nat.shiftLeft_eq]
    omega
  have middle : month.toNat <<< 5 % 2 ^ 16 = month.toNat <<< 5 := by
    rw [Nat.shiftLeft_eq]
    omega
  rw [UInt16.toNat_or, UInt16.toNat_or, UInt16.toNat_shiftLeft, UInt16.toNat_shiftLeft, nine, five, high, middle,
    fields_add _ dayFits (by omega)]
  omega

theorem time_packed (hour min half : UInt16) (hourFits : hour.toNat < 32) (minFits : min.toNat < 64)
    (halfFits : half.toNat < 32) :
    (hour <<< 11 ||| min <<< 5 ||| half).toNat = hour.toNat * 2048 + min.toNat * 32 + half.toNat := by
  have eleven : (11 : UInt16).toNat % 16 = 11 := rfl
  have five : (5 : UInt16).toNat % 16 = 5 := rfl
  have high : hour.toNat <<< 11 % 2 ^ 16 = hour.toNat <<< 11 := by
    rw [Nat.shiftLeft_eq]
    omega
  have middle : min.toNat <<< 5 % 2 ^ 16 = min.toNat <<< 5 := by
    rw [Nat.shiftLeft_eq]
    omega
  rw [UInt16.toNat_or, UInt16.toNat_or, UInt16.toNat_shiftLeft, UInt16.toNat_shiftLeft, eleven, five, high, middle,
    fields_add _ halfFits (by omega)]
  omega

/-- The fields of a word, read as the reader tells them. -/
theorem fields_read (w : UInt16) :
    (w >>> 9).toNat = w.toNat / 512 ∧ ((w >>> 5) &&& 0xF).toNat = w.toNat / 32 % 16 ∧
      (w &&& 0x1F).toNat = w.toNat % 32 ∧ (w >>> 11).toNat = w.toNat / 2048 ∧
      ((w >>> 5) &&& 0x3F).toNat = w.toNat / 32 % 64 := by
  have four (n : Nat) : n &&& 0xF = n % 16 := Nat.and_two_pow_sub_one_eq_mod n 4
  have five (n : Nat) : n &&& 0x1F = n % 32 := Nat.and_two_pow_sub_one_eq_mod n 5
  have six (n : Nat) : n &&& 0x3F = n % 64 := Nat.and_two_pow_sub_one_eq_mod n 6
  simp [UInt16.toNat_and, UInt16.toNat_shiftRight, Nat.shiftRight_eq_div_pow, four, five, six]

theorem date_fields (year month day : Nat) (monthFits : month < 16) (dayFits : day < 32) :
    (year * 512 + month * 32 + day) / 512 = year ∧ (year * 512 + month * 32 + day) / 32 % 16 = month ∧
      (year * 512 + month * 32 + day) % 32 = day := by
  omega

theorem time_fields (hour min half : Nat) (minFits : min < 64) (halfFits : half < 32) :
    (hour * 2048 + min * 32 + half) / 2048 = hour ∧ (hour * 2048 + min * 32 + half) / 32 % 64 = min ∧
      (hour * 2048 + min * 32 + half) % 32 = half := by
  omega

theorem daysFromCivil_bounds (year : Nat) (month day : Int) (yearHigh : year < 128) (monthLow : 1 ≤ month)
    (monthHigh : month ≤ 12) (dayLow : 1 ≤ day) (dayHigh : day ≤ 31) :
    -719468 ≤ daysFromCivil (1980 + year) month day ∧ daysFromCivil (1980 + year) month day ≤ 100000 := by
  rw [daysFromCivil_eq _ _ monthLow monthHigh]
  simp only [march, leaps, monthStart]
  omega

/-- What is read of a date and of a time that are valid. -/
theorem dosPairToMs_packed (year month day hour min half : UInt16) (monthLow : 1 ≤ month.toNat)
    (monthHigh : month.toNat ≤ 12) (dayLow : 1 ≤ day.toNat) (dayHigh : day.toNat ≤ 31) (hourFits : hour.toNat < 24)
    (minFits : min.toNat < 60) (halfFits : half.toNat < 30) :
    dosPairToMs (hour <<< 11 ||| min <<< 5 ||| half) (year <<< 9 ||| month <<< 5 ||| day) =
      some ((daysFromCivil (1980 + (year.toNat % 128 : Nat)) month.toNat day.toNat * 86400 + hour.toNat * 3600 +
        min.toNat * 60 + half.toNat * 2) * 1000) := by
  have date := date_packed year month day (by omega) (by omega)
  have time := time_packed hour min half (by omega) (by omega) (by omega)
  obtain ⟨yearField, monthField, dayField⟩ := date_fields (year.toNat % 128) month.toNat day.toNat
    (by omega) (by omega)
  obtain ⟨hourField, minField, halfField⟩ := time_fields hour.toNat min.toNat half.toNat
    (by omega) (by omega)
  obtain ⟨yearRead, monthRead, dayRead, -, -⟩ := fields_read (year <<< 9 ||| month <<< 5 ||| day)
  obtain ⟨-, -, halfRead, hourRead, minRead⟩ := fields_read (hour <<< 11 ||| min <<< 5 ||| half)
  have bounds := daysFromCivil_bounds (year.toNat % 128) month.toNat day.toNat
    (by omega) (by omega) (by omega) (by omega) (by omega)
  unfold dosPairToMs
  rw [yearRead, monthRead, dayRead, halfRead, hourRead, minRead, date, time, yearField, monthField, dayField,
    hourField, minField, halfField]
  have valid : ¬((month.toNat : Int) = 0 ∨ 12 < (month.toNat : Int) ∨ (day.toNat : Int) = 0) := by omega
  simp only [Nat.cast_ofNat, if_neg valid]
  rw [if_pos (by omega)]

/-! What is read back. -/

/-- The year seven bits say, after sixteen were checked. -/
def keptYear (year : Int) : Int := if year - 1980 < 65536 then 1980 + (year - 1980) % 128 else 1980

theorem keptYear_bounds (year : Int) : 1980 ≤ keptYear year ∧ keptYear year ≤ 2107 := by
  unfold keptYear
  split <;> omega

section

variable {ms year doy : Int} {dt : Civil}

theorem Tells.date {secs : Int} (tells : Tells secs year doy dt) :
    1 ≤ dt.month.toNat ∧ dt.month.toNat ≤ 12 ∧ 1 ≤ dt.day.toNat ∧ dt.day.toNat ≤ 31 := by
  have bounds := monthOf_spec tells.low tells.high
  have month := tells.month
  have day := tells.monthDay
  split at month <;> omega

/-- The day the reader computes for another year with the same month and day of the month. -/
theorem Tells.daysFromCivil {secs : Int} (tells : Tells secs year doy dt) (shift : Int) :
    daysFromCivil (dt.year + shift) dt.month.toNat dt.day.toNat = march (year + shift) + doy := by
  have bounds := monthOf_spec tells.low tells.high
  have month := tells.month
  have yearIs := tells.year
  have date := tells.date
  rw [daysFromCivil_eq _ _ (by omega) (by omega), tells.monthDay]
  by_cases spring : doy < 306
  · rw [if_pos spring] at month yearIs
    have late : ¬(dt.month.toNat : Int) ≤ 2 := by omega
    rw [if_neg late, if_neg late, month, yearIs]
    simp only [add_sub_cancel_right]
    omega
  · rw [if_neg spring] at month yearIs
    have early : (dt.month.toNat : Int) ≤ 2 := by omega
    rw [if_pos early, if_pos early, month, yearIs]
    have back : year + 1 + shift - 1 = year + shift := by omega
    simp only [back, sub_add_cancel]
    omega

theorem newYear_mono {y z : Int} (le : y ≤ z) : newYear y ≤ newYear z := by
  have first := march_to_newYear (y - 1)
  have second := march_to_newYear (z - 1)
  have := march_mono (show y - 1 ≤ z - 1 by omega)
  simp only [sub_add_cancel] at first second
  omega

/-- The year of a civil time is the one whose days hold it. -/
theorem Tells.newYear_le {secs : Int} (tells : Tells secs year doy dt) (y : Int) :
    newYear y ≤ secs / 86400 ↔ y ≤ dt.year := by
  have day := tells.day
  have within := tells.within
  have yearIs := tells.year
  have low := tells.low
  have january := march_to_newYear year
  have next := march_to_newYear (year + 1)
  have last := march_to_newYear (year - 1)
  obtain ⟨short, long⟩ := march_succ (year - 1)
  simp only [sub_add_cancel] at last short long
  constructor
  · intro started
    by_contra later
    have := newYear_mono (show dt.year + 1 ≤ y by omega)
    by_cases spring : doy < 306
    · rw [if_pos spring] at yearIs
      rw [yearIs] at this
      omega
    · rw [if_neg spring] at yearIs
      rw [yearIs] at this
      omega
  · intro le
    have := newYear_mono le
    by_cases spring : doy < 306
    · rw [if_pos spring] at yearIs
      rw [yearIs] at this
      omega
    · rw [if_neg spring] at yearIs
      rw [yearIs] at this
      omega

theorem readBack_early (found : civilFromUnix (ms / 1000) = some dt) (early : dt.year < 1980) :
    readBack ms = some (newYear 1980 * 86400000) := by
  have packed : dosDatetime (some ms) = epochDos := by
    simp [dosDatetime, found, early]
  rw [readBack, packed]
  decide

theorem readBack_late (found : civilFromUnix (ms / 1000) = some dt) (tells : Tells (ms / 1000) year doy dt)
    (late : 1980 ≤ dt.year) :
    readBack ms = some (((march (year + (keptYear dt.year - dt.year)) + doy) * 86400 +
      ms / 1000 % 86400 / 2 * 2) * 1000) := by
  obtain ⟨monthLow, monthHigh, dayLow, dayHigh⟩ := tells.date
  have hour := tells.hour
  have min := tells.min
  have sec := tells.sec
  have day := tells.daysFromCivil (keptYear dt.year - dt.year)
  have half : (dt.sec / 2).toUInt16.toNat = dt.sec.toNat / 2 := rfl
  have notEarly : ¬dt.year < 1980 := by omega
  have packed : dosDatetime (some ms) =
      (dt.hour.toUInt16 <<< 11 ||| dt.min.toUInt16 <<< 5 ||| (dt.sec / 2).toUInt16,
        (if dt.year - 1980 < 65536 then UInt16.ofNat (dt.year - 1980).toNat else 0) <<< 9 |||
          dt.month.toUInt16 <<< 5 ||| dt.day.toUInt16) := by
    simp [dosDatetime, found, notEarly]
  have yearKept : (1980 : Int) + ((if dt.year - 1980 < 65536 then UInt16.ofNat (dt.year - 1980).toNat
      else 0 : UInt16).toNat % 128 : Nat) = dt.year + (keptYear dt.year - dt.year) := by
    unfold keptYear
    split
    · rw [UInt16.toNat_ofNat']
      omega
    · simp
  have hourFits : dt.hour.toUInt16.toNat < 24 := by
    rw [UInt8.toNat_toUInt16]
    omega
  have minFits : dt.min.toUInt16.toNat < 60 := by
    rw [UInt8.toNat_toUInt16]
    omega
  have halfFits : (dt.sec / 2).toUInt16.toNat < 30 := by
    rw [half]
    omega
  rw [← UInt8.toNat_toUInt16] at monthLow monthHigh dayLow dayHigh
  rw [readBack, packed]
  dsimp only
  rw [dosPairToMs_packed _ _ _ _ _ _ monthLow monthHigh dayLow dayHigh hourFits minFits halfFits, yearKept]
  simp only [UInt8.toNat_toUInt16, half]
  rw [day]
  congr 1
  omega

/-- No pair says more than the last even second of 2107. -/
theorem Tells.kept_le {secs : Int} (tells : Tells secs year doy dt) :
    march (year + (keptYear dt.year - dt.year)) + doy ≤ newYear 2108 - 1 ∧
      (march (year + (keptYear dt.year - dt.year)) + doy = newYear 2108 - 1 ↔
        keptYear dt.year = 2107 ∧ doy = 305) := by
  have yearIs := tells.year
  have high := tells.high
  have bounds := keptYear_bounds dt.year
  have last : newYear 2108 = march 2107 + 306 := march_to_newYear 2107
  have common : march 2107 = march 2106 + 365 := by decide
  by_cases spring : doy < 306
  · rw [if_pos spring] at yearIs
    have same : year + (keptYear dt.year - dt.year) = keptYear dt.year := by omega
    rw [same]
    have top := march_mono bounds.2
    refine ⟨by omega, fun equal => ?_, fun equal => ?_⟩
    · by_cases before : keptYear dt.year ≤ 2106
      · have := march_mono before
        omega
      · have year : keptYear dt.year = 2107 := by omega
        rw [year] at equal
        omega
    · rw [equal.1]
      omega
  · rw [if_neg spring] at yearIs
    have back : year + (keptYear dt.year - dt.year) ≤ 2106 := by omega
    have := march_mono back
    exact ⟨by omega, fun equal => by omega, fun equal => by omega⟩

/-- The last day of a civil year is the 306th of the March year. -/
theorem Tells.lastDay {secs : Int} (tells : Tells secs year doy dt) :
    doy = 305 ↔ secs / 86400 = newYear (dt.year + 1) - 1 := by
  have yearIs := tells.year
  have day := tells.day
  have within := tells.within
  by_cases spring : doy < 306
  · rw [if_pos spring] at yearIs
    have := march_to_newYear year
    rw [yearIs]
    omega
  · rw [if_neg spring] at yearIs
    have := march_to_newYear (year + 1)
    rw [yearIs]
    omega

end

/-- The instant a year begins, in milliseconds. -/
def yearMs (year : Int) : Int := newYear year * 86400000

def lastEvenSecond : Int := yearMs 2108 - 2000

/-- Before 2108, or in the last even second of a year whose seven bits are those of 2107. -/
def Fits (ms : Int) : Prop :=
  ms < yearMs 2108 ∨
    ∃ k, 1 ≤ k ∧ k ≤ 511 ∧ yearMs (2108 + 128 * k) - 2000 ≤ ms ∧ ms < yearMs (2108 + 128 * k)

theorem Tells.fits {ms year doy : Int} {dt : Civil} (tells : Tells (ms / 1000) year doy dt)
    (late : yearMs 2108 ≤ ms) :
    (keptYear dt.year = 2107 ∧ doy = 305 ∧ ms / 1000 % 86400 / 2 = 43199) ↔ Fits ms := by
  have after := (tells.newYear_le 2108).mp (by unfold yearMs at late; omega)
  constructor
  · rintro ⟨kept, december, second⟩
    have day := tells.lastDay.mp december
    unfold keptYear at kept
    split at kept
    case isTrue few =>
      have whole : 2108 + 128 * ((dt.year - 2107) / 128) = dt.year + 1 := by omega
      refine .inr ⟨(dt.year - 2107) / 128, by omega, by omega, ?_⟩
      rw [whole]
      unfold yearMs
      omega
    case isFalse => omega
  · rintro (early | ⟨k, low, high, from_, before⟩)
    · omega
    unfold yearMs at from_ before
    have notBefore := (tells.newYear_le (2108 + 128 * k)).not.mp (by omega)
    have year := (tells.newYear_le (2107 + 128 * k)).mp (by
      have january := march_to_newYear (2107 + 128 * k - 1)
      have next := march_to_newYear (2107 + 128 * k)
      have longer := march_succ (2107 + 128 * k - 1)
      have succ : 2107 + 128 * k + 1 = 2108 + 128 * k := by omega
      rw [succ] at next
      simp only [sub_add_cancel] at january longer
      omega)
    have yearIs : dt.year = 2107 + 128 * k := by omega
    have next : dt.year + 1 = 2108 + 128 * k := by omega
    refine ⟨?_, tells.lastDay.mpr ?_, by omega⟩
    · rw [keptYear, if_pos (by omega)]
      omega
    · rw [next]
      omega

/-- What is read back of any mtime: the first instant of the format, the even second, or an
instant of the format that is its last one only by chance. -/
theorem readBack_spec (ms : Int) :
    ∃ t, readBack ms = some t ∧ t ≤ lastEvenSecond ∧ (ms < yearMs 1980 → t = yearMs 1980) ∧
      (yearMs 1980 ≤ ms → ms < yearMs 2108 → t = ms / 2000 * 2000) ∧
      (yearMs 2108 ≤ ms → (t = lastEvenSecond ↔ Fits ms)) := by
  obtain ⟨dt, year, doy, found, tells⟩ := civilFromUnix_tells (ms / 1000)
  have started := tells.newYear_le 1980
  have ended := tells.newYear_le 2108
  by_cases early : dt.year < 1980
  · refine ⟨_, readBack_early found early, by decide, fun _ => rfl, ?_, ?_⟩
    · unfold yearMs
      omega
    · unfold yearMs
      omega
  · obtain ⟨most, top⟩ := tells.kept_le
    have day := tells.day
    refine ⟨_, readBack_late found tells (by omega), ?_, ?_, ?_, fun late => ?_⟩
    · unfold lastEvenSecond yearMs
      omega
    · unfold yearMs
      omega
    · intro _ before
      have kept : keptYear dt.year = dt.year := by
        unfold yearMs at before
        rw [keptYear, if_pos (by omega)]
        omega
      rw [kept, sub_self, add_zero]
      omega
    · rw [← tells.fits late]
      unfold lastEvenSecond yearMs
      omega

/-- The values of an `i64`. -/
def I64 (n : Int) : Prop := -9223372036854775808 ≤ n ∧ n < 9223372036854775808

/-- The mtime is read back as the format has it, and not before what any earlier mtime is. -/
def SurvivesInOrder (ms : Int) : Prop :=
  ∃ t, readBack ms = some t ∧ (ms < yearMs 1980 → t = yearMs 1980) ∧
    (yearMs 1980 ≤ ms → ms < yearMs 2108 → t % 2000 = 0 ∧ t ≤ ms ∧ ms < t + 2000) ∧
    ∀ a, I64 a → a ≤ ms → ∀ s, readBack a = some s → s ≤ t

/-- Packing keeps an mtime in order exactly when its year fits, or is mistaken for the last. -/
theorem readBack_in_order (ms : Int) : SurvivesInOrder ms ↔ Fits ms := by
  obtain ⟨t, read, most, before, inside, after⟩ := readBack_spec ms
  have span : yearMs 1980 % 2000 = 0 ∧ yearMs 1980 < yearMs 2108 := by decide
  constructor
  · rintro ⟨t', read', -, -, mono⟩
    obtain rfl := Option.some.inj (read.symm.trans read')
    by_cases late : ms < yearMs 2108
    · exact .inl late
    · apply (after (by omega)).mp
      obtain ⟨s, readLast, -, -, last, -⟩ := readBack_spec lastEvenSecond
      have value : s = lastEvenSecond := last (by decide) (by decide)
      have := mono lastEvenSecond (by unfold I64; decide) (by unfold lastEvenSecond; omega) s readLast
      omega
  · intro fits
    refine ⟨t, read, before, fun from_ to_ => ?_, fun a _ le s readA => ?_⟩
    · have := inside from_ to_
      omega
    · obtain ⟨s', readA', mostA, beforeA, insideA, -⟩ := readBack_spec a
      obtain rfl := Option.some.inj (readA.symm.trans readA')
      by_cases late : yearMs 2108 ≤ ms
      · rw [(after late).mpr fits]
        exact mostA
      · by_cases early : a < yearMs 1980
        · rw [beforeA early]
          by_cases first : ms < yearMs 1980
          · rw [before first]
          · have := inside (by omega) (by omega)
            omega
        · have earlier := insideA (by omega) (by omega)
          have later := inside (by omega) (by omega)
          omega

/-- The last millisecond of 2107, and of 2235, which is read back as that of 2107. -/
theorem readBack_last :
    SurvivesInOrder (yearMs 2108 - 1) ∧ SurvivesInOrder (yearMs 2236 - 1) ∧ ¬SurvivesInOrder (yearMs 2108) := by
  refine ⟨(readBack_in_order _).mpr (.inl (by decide)), (readBack_in_order _).mpr (.inr ⟨1, by decide⟩),
    fun survives => ?_⟩
  rcases (readBack_in_order _).mp survives with early | ⟨k, low, -, from_, -⟩
  · exact absurd early (by decide)
  · have := newYear_mono (show 2236 ≤ 2108 + 128 * k by omega)
    have apart : newYear 2236 * 86400000 - 2000 > yearMs 2108 := by decide
    unfold yearMs at from_ apart
    omega

/-- The first instant of 2108 is read back as the first of 1980, before what the last of 2107 is. -/
theorem readBack_2108 :
    readBack (yearMs 2108 - 1) = some (yearMs 2108 - 2000) ∧ readBack (yearMs 2108) = some (yearMs 1980) ∧
      yearMs 1980 < yearMs 2108 - 2000 ∧
      ¬∀ a b s t, I64 a → I64 b → a ≤ b → readBack a = some s → readBack b = some t → s ≤ t := by
  have last : readBack (yearMs 2108 - 1) = some (yearMs 2108 - 2000) := by decide
  have next : readBack (yearMs 2108) = some (yearMs 1980) := by decide
  refine ⟨last, next, by decide, fun mono => ?_⟩
  have := mono _ _ _ _ (by unfold I64; decide) (by unfold I64; decide) (by omega) last next
  exact absurd this (by decide)

end Norte.Archive.Zip
