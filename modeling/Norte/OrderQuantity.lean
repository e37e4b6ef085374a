import Mathlib.Algebra.Order.Floor.Semifield
import Mathlib.Data.List.TakeWhile
import Mathlib.Data.Rat.Floor
import Mathlib.Tactic.FieldSimp
import Mathlib.Tactic.Ring
import Norte.OrderRoundTrip

/-! The quantities of an order: what `number` computes, in the 128-bit arithmetic of the code,
where a sum, a product or a power beyond the range is a panic. It is exact for every run of
pieces, and reads back what the printer writes. -/
namespace Norte.Orders

inductive Panic where
  | overflow
  deriving DecidableEq, Repr

/-- An unsigned 128-bit result. -/
def u128 (n : Nat) : Except Panic Nat := if n < 2 ^ 128 then .ok n else .error .overflow

/-- `int.checked_mul(mult)? + frac.0 * mult / 10u128.pow(frac.1)`, into 64 bits. -/
def value128 (int : Nat) (frac : Nat × Nat) (mult : Nat) : Except Panic (Option Nat) :=
  if 2 ^ 128 ≤ int * mult then .ok none
  else do
    let scaled ← u128 (frac.1 * mult)
    let unit ← u128 (10 ^ frac.2)
    let value ← u128 (int * mult + scaled / unit)
    return if value < 2 ^ 64 then some value else none

/-- What `number` reads before it computes: the integer part, the fraction digits and the unit. -/
def quantity (text : Str) (units : List (Char × Nat)) (size : Bool) : Option (Nat × (Nat × Nat) × Nat) := do
  let digits := text.takeWhile Char.isDigit
  if digits.isEmpty then none
  let int ← parseDigits 128 digits
  let (frac, rest) ← fraction size (text.dropWhile Char.isDigit)
  let mult ← multiplier units size rest
  return (int, frac, mult)

/-- `number`, with its arithmetic as the code has it. -/
def number128 (pieces : List Piece) (units : List (Char × Nat)) (size : Bool) : Except Panic (Option Nat) :=
  match (plainText pieces).bind fun text => quantity text units size with
  | none => .ok none
  | some (int, frac, mult) => value128 int frac mult

/-- The units of a size, or of an age. -/
def unitsOf (size : Bool) : List (Char × Nat) := if size then unitsSize else unitsAge

/-- The fraction of a quantity: nothing, or where sizes allow it a point and up to nine digits. -/
def Fraction (isSize : Bool) (part : Str) (f k : Nat) : Prop :=
  part = [] ∧ f = 0 ∧ k = 0 ∨
  isSize = true ∧ ∃ ds : Str, part = '.' :: ds ∧ (∀ c ∈ ds, c.isDigit) ∧ ds ≠ [] ∧ ds.length ≤ 9 ∧
    f = Nat.ofDigitChars 10 ds 0 ∧ k = ds.length

/-- The text of a quantity: an integer part `i`, `k` fraction digits `f` and a unit of `m`. -/
def Spelled (isSize : Bool) (text : Str) (i f k m : Nat) : Prop :=
  ∃ whole part unit, text = whole ++ (part ++ unit) ∧ whole ≠ [] ∧ (∀ c ∈ whole, c.isDigit) ∧
    i = Nat.ofDigitChars 10 whole 0 ∧ Fraction isSize part f k ∧ multiplier (unitsOf isSize) isSize unit = some m

/-- The exact quantity, rounded down. -/
def exact (i f k m : Nat) : Nat := ⌊((i : ℚ) + f / 10 ^ k) * m⌋₊

theorem exact_eq (i f k m : Nat) : exact i f k m = i * m + f * m / 10 ^ k := by
  have apart : ((i : ℚ) + f / 10 ^ k) * m = ((f * m : Nat) : ℚ) / ((10 ^ k : Nat) : ℚ) + ((i * m : Nat) : ℚ) := by
    push_cast
    ring
  have least : (0 : ℚ) ≤ ((f * m : Nat) : ℚ) / ((10 ^ k : Nat) : ℚ) := by positivity
  rw [exact, apart, Nat.floor_add_natCast least, Nat.floor_div_eq_div, Nat.add_comm]

theorem ofDigitChars_lt {ds : Str} (all : ∀ c ∈ ds, c.isDigit) : Nat.ofDigitChars 10 ds 0 < 10 ^ ds.length := by
  induction ds with
  | nil => simp
  | cons c ds rest =>
    have digit : c.toNat - 48 ≤ 9 := by
      have range := digit_range (all c List.mem_cons_self)
      omega
    have later := rest fun d member => all d (List.mem_cons_of_mem c member)
    rw [Nat.ofDigitChars_cons, Nat.ofDigitChars_eq_ofDigitChars_zero, List.length_cons, Nat.pow_succ, Nat.mul_zero,
      Nat.zero_add]
    have most := Nat.mul_le_mul_left (10 ^ ds.length) digit
    rw [show '0'.toNat = 48 from rfl]
    omega

theorem parseDigits_eq {ds : Str} {n : Nat} : parseDigits 128 ds = some n ↔
    n = Nat.ofDigitChars 10 ds 0 ∧ n < 2 ^ 128 := by
  rw [parseDigits]
  split
  · rename_i fits
    rw [Option.some.injEq, eq_comm]
    exact ⟨fun eq => ⟨eq, eq ▸ fits⟩, And.left⟩
  · rename_i large
    refine ⟨fun read => (by cases read), fun read => ?_⟩
    rw [← read.1] at large
    exact absurd read.2 large

/-- The units are letters, and those of sizes are powers of two. -/
theorem multiplier_unit {isSize : Bool} {unit : Str} {m : Nat} (known : multiplier (unitsOf isSize) isSize unit = some m) :
    (∀ c ∈ unit, ¬c.isDigit ∧ c ≠ '.') ∧ 0 < m ∧ m < 2 ^ 64 ∧ (isSize = true → m ∣ 2 ^ 128) := by
  have table : ∀ s, ∀ u ∈ unitsOf s, ¬u.1.isDigit ∧ u.1 ≠ '.' ∧ 0 < u.2 ∧ u.2 < 2 ^ 64 ∧ (s = true → u.2 ∣ 2 ^ 128) := by
    decide
  rw [multiplier.eq_def] at known
  split at known
  · split at known
    · rename_i size
      obtain rfl := Option.some.inj known
      exact ⟨by simp, by decide, by decide, fun _ => Nat.one_dvd _⟩
    · cases known
  · rename_i u
    obtain ⟨pair, found, rfl⟩ := Option.map_eq_some_iff.mp known
    have same : pair.1 = (if isSize then u.toUpper else u) := by simpa using List.find?_some found
    obtain ⟨letter, noPoint, positive, small, power⟩ := table isSize pair (List.mem_of_find?_eq_some found)
    refine ⟨?_, positive, small, power⟩
    intro c member
    rw [List.mem_singleton.mp member]
    rw [same] at letter noPoint
    refine ⟨fun digit => letter ?_, fun point => noPoint ?_⟩
    · have unchanged : u.toUpper = u := by
        have range := digit_range digit
        have upper : ¬('a'.val ≤ u.val ∧ u.val ≤ 'z'.val) := by
          intro low
          have least : 97 ≤ u.toNat := by simpa [UInt32.le_iff_toNat_le] using low.1
          omega
        exact dif_neg upper
      split
      · rwa [unchanged]
      · exact digit
    · rw [point]
      split
      · decide
      · rfl
  · cases known

theorem takeWhile_whole {whole rest : Str} (all : ∀ c ∈ whole, c.isDigit) (stop : ∀ c ∈ rest.head?, ¬c.isDigit) :
    (whole ++ rest).takeWhile Char.isDigit = whole ∧ (whole ++ rest).dropWhile Char.isDigit = rest := by
  have stops : rest.takeWhile Char.isDigit = [] ∧ rest.dropWhile Char.isDigit = rest := by
    cases rest with
    | nil => exact ⟨rfl, rfl⟩
    | cons c rest => simp [stop c rfl]
  rw [List.takeWhile_append_of_pos all, List.dropWhile_append_of_pos all, stops.1, stops.2, List.append_nil]
  exact ⟨rfl, rfl⟩

theorem fraction_some {isSize : Bool} {rest unit : Str} {f k : Nat} (read : fraction isSize rest = some ((f, k), unit)) :
    ∃ part, rest = part ++ unit ∧ Fraction isSize part f k := by
  rw [fraction.eq_def] at read
  split at read
  · rename_i ds
    split at read
    · rename_i size
      dsimp only at read
      split at read
      · cases read
      · rename_i few
        obtain ⟨value, parsed, read⟩ := Option.bind_eq_some_iff.mp read
        cases read
        rw [Bool.or_eq_true, not_or, decide_eq_true_eq, List.isEmpty_iff] at few
        refine ⟨'.' :: ds.takeWhile Char.isDigit, ?_, .inr ⟨size, _, rfl, ?_, few.1, by omega, (parseDigits_eq.mp parsed).1, rfl⟩⟩
        · rw [List.cons_append, List.takeWhile_append_dropWhile]
        · exact fun c member => (List.mem_takeWhile_imp member)
    · cases read
      exact ⟨[], rfl, .inl ⟨rfl, rfl, rfl⟩⟩
  · cases read
    exact ⟨[], rfl, .inl ⟨rfl, rfl, rfl⟩⟩

theorem fraction_written {isSize : Bool} {part unit : Str} {f k : Nat} (written : Fraction isSize part f k)
    (letters : ∀ c ∈ unit, ¬c.isDigit ∧ c ≠ '.') : fraction isSize (part ++ unit) = some ((f, k), unit) := by
  obtain ⟨rfl, rfl, rfl⟩ | ⟨size, ds, rfl, all, some_, few, rfl, rfl⟩ := written
  · cases unit with
    | nil => rfl
    | cons c unit =>
      have noPoint := (letters c List.mem_cons_self).2
      rw [List.nil_append, fraction.eq_def]
      split
      · rename_i same
        exact absurd (List.cons.inj same).1 noPoint
      · rfl
  · have stop : ∀ c ∈ unit.head?, ¬c.isDigit := fun c member => (letters c (List.mem_of_head? member)).1
    obtain ⟨taken, dropped⟩ := takeWhile_whole all stop
    have small : Nat.ofDigitChars 10 ds 0 < 2 ^ 128 := by
      have most := Nat.pow_le_pow_right (by decide : 0 < 10) few
      have lt := ofDigitChars_lt all
      omega
    have parsed := parseDigits_eq.mpr ⟨rfl, small⟩
    have counted : (ds.isEmpty || 9 < ds.length) = false := by
      simpa [some_] using few
    rw [List.cons_append, fraction, if_pos size]
    simp only [taken, dropped, parsed, counted]
    rfl

/-- The digits of the integer part end where its fraction or its unit starts. -/
theorem head_stops {isSize : Bool} {part unit : Str} {f k m : Nat} (written : Fraction isSize part f k)
    (known : multiplier (unitsOf isSize) isSize unit = some m) : ∀ c ∈ (part ++ unit).head?, ¬c.isDigit := by
  obtain ⟨rfl, _, _⟩ | ⟨_, ds, rfl, _⟩ := written
  · exact fun c member => ((multiplier_unit known).1 c (List.mem_of_head? member)).1
  · rintro c ⟨⟩
    decide

theorem quantity_iff {isSize : Bool} {text : Str} {i f k m : Nat} :
    quantity text (unitsOf isSize) isSize = some (i, (f, k), m) ↔ Spelled isSize text i f k m ∧ i < 2 ^ 128 := by
  constructor
  · intro read
    unfold quantity at read
    dsimp only at read
    split at read
    · cases read
    · rename_i filled
      obtain ⟨int, parsed, read⟩ := Option.bind_eq_some_iff.mp read
      obtain ⟨⟨frac, unit⟩, rest, read⟩ := Option.bind_eq_some_iff.mp read
      obtain ⟨mult, known, read⟩ := Option.bind_eq_some_iff.mp read
      cases read
      obtain ⟨part, split_, written⟩ := fraction_some rest
      obtain ⟨value, small⟩ := parseDigits_eq.mp parsed
      refine ⟨⟨text.takeWhile Char.isDigit, part, unit, ?_, ?_, fun c member => List.mem_takeWhile_imp member, value, written,
        known⟩, small⟩
      · rw [← split_, List.takeWhile_append_dropWhile]
      · rwa [List.isEmpty_iff] at filled
  · rintro ⟨⟨whole, part, unit, rfl, filled, all, rfl, written, known⟩, small⟩
    obtain ⟨letters, _⟩ := multiplier_unit known
    obtain ⟨taken, dropped⟩ := takeWhile_whole all (head_stops written known)
    have parsed := parseDigits_eq.mpr ⟨rfl, small⟩
    have nonempty : whole.isEmpty = false := by simpa using filled
    unfold quantity
    simp only [taken, dropped, nonempty, parsed, fraction_written written letters, Option.bind_eq_bind, Option.bind_some,
      known, Bool.false_eq_true, ↓reduceIte, pure]

/-- The sum stays below 2^128 because a scaled fraction is smaller than the multiplier, which
divides both the product and 2^128. -/
theorem value128_eq {int f k m : Nat} (positive : 0 < m) (small : m < 2 ^ 64) (digits : k ≤ 9) (proper : f < 10 ^ k)
    (power : f = 0 ∨ m ∣ 2 ^ 128) :
    value128 int (f, k) m = .ok (if 2 ^ 128 ≤ int * m then none
      else if int * m + f * m / 10 ^ k < 2 ^ 64 then some (int * m + f * m / 10 ^ k) else none) := by
  rw [value128]
  split
  · rfl
  · rename_i product
    have unit : 10 ^ k ≤ 10 ^ 9 := Nat.pow_le_pow_right (by decide) digits
    have scaled : f * m < 2 ^ 128 := by
      calc f * m ≤ 10 ^ 9 * m := Nat.mul_le_mul_right m (by omega)
        _ ≤ 10 ^ 9 * 2 ^ 64 := Nat.mul_le_mul_left _ small.le
        _ < 2 ^ 128 := by decide
    have sum : int * m + f * m / 10 ^ k < 2 ^ 128 := by
      obtain rfl | divides := power
      · rw [Nat.zero_mul, Nat.zero_div]
        omega
      · have less : f * m / 10 ^ k < m := by
          rw [Nat.div_lt_iff_lt_mul (Nat.pow_pos (by decide)), Nat.mul_comm m]
          exact Nat.mul_lt_mul_of_pos_right proper positive
        obtain ⟨n, eq⟩ := divides
        have next : int * m + m ≤ 2 ^ 128 := by
          rw [eq, Nat.mul_comm m n] at product ⊢
          rw [← Nat.succ_mul]
          exact Nat.mul_le_mul_right m (Nat.lt_of_mul_lt_mul_right (Nat.lt_of_not_le product))
        omega
    simp only [u128, scaled, ↓reduceIte, show 10 ^ k < 2 ^ 128 by omega, bind, Except.bind, sum, pure, Except.pure]

theorem number_eq_quantity (pieces : List Piece) (units : List (Char × Nat)) (isSize : Bool) :
    number pieces units isSize = (plainText pieces).bind fun text => (quantity text units isSize).bind fun q =>
      if 2 ^ 128 ≤ q.1 * q.2.2 then none
      else if q.1 * q.2.2 + q.2.1.1 * q.2.2 / 10 ^ q.2.1.2 < 2 ^ 64
        then some (q.1 * q.2.2 + q.2.1.1 * q.2.2 / 10 ^ q.2.1.2) else none := by
  unfold number
  cases plainText pieces with
  | none => rfl
  | some text =>
    unfold quantity
    simp only [Option.bind_eq_bind, Option.bind_some]
    split
    · rfl
    · cases parseDigits 128 (text.takeWhile Char.isDigit) with
      | none => rfl
      | some int =>
        cases fraction isSize (text.dropWhile Char.isDigit) with
        | none => rfl
        | some q =>
          cases read : multiplier units isSize q.2 with
          | none => simp [read]
          | some m => simp [read]

theorem Spelled.bounds {isSize : Bool} {text : Str} {i f k m : Nat} (spelled : Spelled isSize text i f k m) :
    0 < m ∧ m < 2 ^ 64 ∧ k ≤ 9 ∧ f < 10 ^ k ∧ (f = 0 ∨ m ∣ 2 ^ 128) := by
  obtain ⟨whole, part, unit, _, _, _, _, written, known⟩ := spelled
  obtain ⟨_, positive, small, power⟩ := multiplier_unit known
  obtain ⟨_, rfl, rfl⟩ | ⟨size, ds, _, all, _, few, rfl, rfl⟩ := written
  · exact ⟨positive, small, Nat.zero_le 9, by decide, .inl rfl⟩
  · exact ⟨positive, small, few, ofDigitChars_lt all, .inr (power size)⟩

/-- The integer part is what the digits in front say. -/
theorem Spelled.whole {isSize : Bool} {text : Str} {i f k m : Nat} (spelled : Spelled isSize text i f k m) :
    i = Nat.ofDigitChars 10 (text.takeWhile Char.isDigit) 0 := by
  obtain ⟨whole, part, unit, rfl, filled, all, rfl, written, known⟩ := spelled
  rw [(takeWhile_whole all (head_stops written known)).1]

/-- A spelled quantity is read as its exact value, if that fits in 64 bits. -/
theorem number_spelled {isSize : Bool} {pieces : List Piece} {text : Str} {i f k m : Nat}
    (plain : plainText pieces = some text) (spelled : Spelled isSize text i f k m) :
    number pieces (unitsOf isSize) isSize = if exact i f k m < 2 ^ 64 then some (exact i f k m) else none := by
  obtain ⟨positive, _⟩ := spelled.bounds
  rw [number_eq_quantity, plain, Option.bind_some, exact_eq]
  by_cases small : i < 2 ^ 128
  · rw [quantity_iff.mpr ⟨spelled, small⟩, Option.bind_some]
    dsimp only
    split
    · rename_i wide
      exact (if_neg fun fits => by have := (Nat.le_add_right _ _).trans_lt fits; omega).symm
    · rfl
  · have large : 2 ^ 128 ≤ i * m := (Nat.le_of_not_lt small).trans (Nat.le_mul_of_pos_right i positive)
    have nothing : quantity text (unitsOf isSize) isSize = none := by
      cases read : quantity text (unitsOf isSize) isSize with
      | none => rfl
      | some q =>
        obtain ⟨i', ⟨f', k'⟩, m'⟩ := q
        obtain ⟨spelled', small'⟩ := quantity_iff.mp read
        rw [spelled.whole, ← spelled'.whole] at small
        exact absurd small' small
    rw [nothing, if_neg fun fits => by have := (Nat.le_add_right _ _).trans_lt fits; omega]
    rfl

/-- What the printer writes is a quantity of exactly the number. -/
theorem spelled_printed (isSize : Bool) (v : Nat) : ∃ m k, Spelled isSize (if isSize then size v else age v) m 0 0 k ∧
    exact m 0 0 k = v := by
  obtain ⟨m, u, k, written, counted⟩ : ∃ m u k, (if isSize then size v else age v) = digits m ++ u ∧
      Counted (unitsOf isSize) isSize v m k u := by
    cases isSize with
    | true => exact counted_size v
    | false => exact counted_age v
  refine ⟨m, k, ⟨digits m, [], u, written, Nat.toDigits_ne_nil, fun c => digits_isDigit, ?_, .inl ⟨rfl, rfl, rfl⟩,
    counted.known⟩, ?_⟩
  · rw [digits, Nat.ofDigitChars_ten_toDigits]
  · rw [exact_eq, Nat.zero_mul, Nat.zero_div, Nat.add_zero, counted.product]

/-- No sum, product or power of `number` overflows its 128 bits. What it returns is the exact
quantity of the text rounded down, and nothing exactly when that takes more than 64 bits or the
text is no quantity; and it reads back every number from its printed size or age. -/
theorem quantities_exact (isSize : Bool) (pieces : List Piece) :
    number128 pieces (unitsOf isSize) isSize = .ok (number pieces (unitsOf isSize) isSize) ∧
    (∀ v, number pieces (unitsOf isSize) isSize = some v → ∃ text i f k m, plainText pieces = some text ∧
      Spelled isSize text i f k m ∧ k ≤ 9 ∧ v = exact i f k m ∧ v < 2 ^ 64) ∧
    (∀ text i f k m, plainText pieces = some text → Spelled isSize text i f k m →
      number pieces (unitsOf isSize) isSize = if exact i f k m < 2 ^ 64 then some (exact i f k m) else none) ∧
    ∀ v < 2 ^ 64, plainText pieces = some (if isSize then size v else age v) →
      number pieces (unitsOf isSize) isSize = some v := by
  refine ⟨?_, ?_, fun text i f k m plain spelled => number_spelled plain spelled, ?_⟩
  · rw [number128, number_eq_quantity]
    cases plainText pieces with
    | none => rfl
    | some text =>
      rw [Option.bind_some, Option.bind_some]
      cases read : quantity text (unitsOf isSize) isSize with
      | none => rfl
      | some q =>
        obtain ⟨i, ⟨f, k⟩, m⟩ := q
        obtain ⟨positive, small, few, proper, power⟩ := (quantity_iff.mp read).1.bounds
        exact value128_eq positive small few proper power
  · intro v read
    have read' := read
    rw [number_eq_quantity] at read
    obtain ⟨text, plain, read⟩ := Option.bind_eq_some_iff.mp read
    obtain ⟨⟨i, ⟨f, k⟩, m⟩, parsed, _⟩ := Option.bind_eq_some_iff.mp read
    have spelled := (quantity_iff.mp parsed).1
    rw [number_spelled plain spelled] at read'
    split at read'
    · rename_i fits
      obtain rfl := Option.some.inj read'
      exact ⟨text, i, f, k, m, plain, spelled, spelled.bounds.2.2.1, rfl, fits⟩
    · cases read'
  · intro v fits plain
    obtain ⟨m, k, spelled, eq⟩ := spelled_printed isSize v
    rw [number_spelled plain spelled, eq, if_pos fits]

end Norte.Orders
