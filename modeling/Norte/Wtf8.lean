import Mathlib.Algebra.Ring.Nat
import Mathlib.Data.List.Basic
import Norte.Utf8

/-! The encoding boundary of Windows names: WTF-8 bytes to UTF-16 units and back. Every checked
conversion of the code is one here too, and its failure a panic. Both directions go over the
same list of code points, in which no lead surrogate stands right before a trail surrogate. -/
namespace Norte.Wtf8

inductive Panic where
  | expect
  deriving DecidableEq, Repr

/-- `u8::try_from(n).expect(..)`. -/
def tryU8 (n : Nat) : Except Panic UInt8 := if n < 2 ^ 8 then .ok (UInt8.ofNat n) else .error .expect

/-- `u16::try_from(n).expect(..)`. -/
def tryU16 (n : Nat) : Except Panic UInt16 := if n < 2 ^ 16 then .ok (UInt16.ofNat n) else .error .expect

def isLead (cp : Nat) : Bool := 0xD800 ≤ cp && cp ≤ 0xDBFF
def isTrail (cp : Nat) : Bool := 0xDC00 ≤ cp && cp ≤ 0xDFFF

def isCont (b : UInt8) : Bool := 0x80 ≤ b.toNat && b.toNat ≤ 0xBF

def tail (b : UInt8) : Nat := b.toNat &&& 0x3F

def two (x : Nat) (b1 : UInt8) : Nat := (x &&& 0x1F) <<< 6 ||| tail b1
def three (x : Nat) (b1 b2 : UInt8) : Nat := (x &&& 0x0F) <<< 12 ||| tail b1 <<< 6 ||| tail b2
def four (x : Nat) (b1 b2 b3 : UInt8) : Nat := (x &&& 0x07) <<< 18 ||| tail b1 <<< 12 ||| tail b2 <<< 6 ||| tail b3

/-- The code point of the sequence that starts with `x`, and the bytes after it. -/
def sequence (x : Nat) (rest : Bytes) : Option (Nat × Bytes) :=
  if x ≤ 0x7F then some (x, rest)
  else if 0xC2 ≤ x ∧ x ≤ 0xDF then
    match rest with
    | b1 :: rest => if isCont b1 then some (two x b1, rest) else none
    | _ => none
  else if x = 0xE0 then
    match rest with
    | b1 :: b2 :: rest => if 0xA0 ≤ b1.toNat ∧ b1.toNat ≤ 0xBF ∧ isCont b2 then some (three x b1 b2, rest) else none
    | _ => none
  else if 0xE1 ≤ x ∧ x ≤ 0xEF then
    match rest with
    | b1 :: b2 :: rest => if isCont b1 ∧ isCont b2 then some (three x b1 b2, rest) else none
    | _ => none
  else if x = 0xF0 then
    match rest with
    | b1 :: b2 :: b3 :: rest =>
      if 0x90 ≤ b1.toNat ∧ b1.toNat ≤ 0xBF ∧ isCont b2 ∧ isCont b3 then some (four x b1 b2 b3, rest) else none
    | _ => none
  else if 0xF1 ≤ x ∧ x ≤ 0xF3 then
    match rest with
    | b1 :: b2 :: b3 :: rest => if isCont b1 ∧ isCont b2 ∧ isCont b3 then some (four x b1 b2 b3, rest) else none
    | _ => none
  else if x = 0xF4 then
    match rest with
    | b1 :: b2 :: b3 :: rest =>
      if 0x80 ≤ b1.toNat ∧ b1.toNat ≤ 0x8F ∧ isCont b2 ∧ isCont b3 then some (four x b1 b2 b3, rest) else none
    | _ => none
  else none

theorem sequence_shorter {x cp : Nat} {rest rest' : Bytes} (read : sequence x rest = some (cp, rest')) :
    rest'.length ≤ rest.length := by
  unfold sequence at read
  repeat' split at read
  all_goals cases read
  all_goals simp only [List.length_cons, Nat.le_refl, Nat.le_add_right, Nat.add_assoc]

/-- The units of a code point: itself, or a surrogate pair. -/
def units (cp : Nat) : Except Panic (List UInt16) :=
  if 0xFFFF < cp then do
    let v := cp - 0x10000
    let high ← tryU16 (0xD800 + v >>> 10)
    let low ← tryU16 (0xDC00 + (v &&& 0x3FF))
    return [high, low]
  else do return [← tryU16 cp]

/-- The loop of `decode_to_wide`; `prevLead` says whether the last sequence was a lead surrogate. -/
def decodeFrom (prevLead : Bool) (b : Bytes) : Except Panic (Option (List UInt16)) :=
  match b with
  | [] => .ok (some [])
  | x :: rest =>
    match _read : sequence x.toNat rest with
    | none => .ok none
    | some (cp, rest') =>
      if prevLead && isTrail cp then .ok none
      else do
        let here ← units cp
        let later ← decodeFrom (isLead cp) rest'
        return later.map fun later => here ++ later
termination_by b.length
decreasing_by
  have := sequence_shorter ‹_›
  simp only [List.length_cons]
  omega

def decodeToWide (b : Bytes) : Except Panic (Option (List UInt16)) := decodeFrom false b

def tailByte (cp : Nat) : Except Panic UInt8 := tryU8 (cp &&& 0x3F)

def pushUtf8 (cp : Nat) : Except Panic Bytes :=
  if cp ≤ 0x7F then do return [← tryU8 cp]
  else if cp ≤ 0x7FF then do
    let head ← tryU8 (cp >>> 6)
    return [0xC0 ||| head, 0x80 ||| (← tailByte cp)]
  else if cp ≤ 0xFFFF then do
    let head ← tryU8 (cp >>> 12)
    let middle ← tryU8 (cp >>> 6 &&& 0x3F)
    return [0xE0 ||| head, 0x80 ||| middle, 0x80 ||| (← tailByte cp)]
  else do
    let head ← tryU8 (cp >>> 18)
    let second ← tryU8 (cp >>> 12 &&& 0x3F)
    let third ← tryU8 (cp >>> 6 &&& 0x3F)
    return [0xF0 ||| head, 0x80 ||| second, 0x80 ||| third, 0x80 ||| (← tailByte cp)]

/-- The code points of a list of units: a lead right before a trail is one with it. -/
def encodeFromWide : List UInt16 → Except Panic Bytes
  | [] => .ok []
  | [u] => pushUtf8 u.toNat
  | u :: t :: rest =>
    if isLead u.toNat && isTrail t.toNat then do
      let here ← pushUtf8 (0x10000 + (u.toNat - 0xD800) <<< 10 + (t.toNat - 0xDC00))
      return here ++ (← encodeFromWide rest)
    else do
      let here ← pushUtf8 u.toNat
      return here ++ (← encodeFromWide (t :: rest))

/-! Code points. -/

/-- A code point, surrogates included. -/
abbrev Valid (cp : Nat) : Prop := cp < 0x110000

def utf8 (cp : Nat) : Bytes :=
  if cp ≤ 0x7F then [UInt8.ofNat cp]
  else if cp ≤ 0x7FF then [UInt8.ofNat (0xC0 + cp / 64), UInt8.ofNat (0x80 + cp % 64)]
  else if cp ≤ 0xFFFF then
    [UInt8.ofNat (0xE0 + cp / 4096), UInt8.ofNat (0x80 + cp / 64 % 64), UInt8.ofNat (0x80 + cp % 64)]
  else [UInt8.ofNat (0xF0 + cp / 262144), UInt8.ofNat (0x80 + cp / 4096 % 64), UInt8.ofNat (0x80 + cp / 64 % 64),
    UInt8.ofNat (0x80 + cp % 64)]

def utf16 (cp : Nat) : List UInt16 :=
  if 0xFFFF < cp then [UInt16.ofNat (0xD800 + (cp - 0x10000) / 1024), UInt16.ofNat (0xDC00 + (cp - 0x10000) % 1024)]
  else [UInt16.ofNat cp]

theorem and_63 (n : Nat) : n &&& 0x3F = n % 64 := Nat.and_two_pow_sub_one_eq_mod n 6

theorem tryU8_ok {n : Nat} (fits : n < 2 ^ 8) : tryU8 n = .ok (UInt8.ofNat n) := if_pos fits

theorem tryU16_ok {n : Nat} (fits : n < 2 ^ 16) : tryU16 n = .ok (UInt16.ofNat n) := if_pos fits

/-- A marker over the payload below it. -/
theorem or_ofNat (marker k : Nat) {payload : Nat} (low : payload < 2 ^ k) :
    UInt8.ofNat (marker <<< k) ||| UInt8.ofNat payload = UInt8.ofNat (marker * 2 ^ k + payload) := by
  rw [← UInt8.ofNat_or, ← Nat.shiftLeft_add_eq_or_of_lt low, Nat.shiftLeft_eq]

/-- No conversion fails when a code point is written. -/
theorem pushUtf8_ok {cp : Nat} (valid : Valid cp) : pushUtf8 cp = .ok (utf8 cp) := by
  have low (n : Nat) : n % 64 < 2 ^ 6 := Nat.mod_lt _ (by decide)
  have byte (n : Nat) : tryU8 (n % 64) = .ok (UInt8.ofNat (n % 64)) := tryU8_ok (by omega)
  have cont (n : Nat) : 0x80 ||| UInt8.ofNat (n % 64) = UInt8.ofNat (0x80 + n % 64) := or_ofNat 2 6 (low n)
  have lead2 {n : Nat} (fits : n < 64) : 0xC0 ||| UInt8.ofNat n = UInt8.ofNat (0xC0 + n) := or_ofNat 3 6 fits
  have lead3 {n : Nat} (fits : n < 16) : 0xE0 ||| UInt8.ofNat n = UInt8.ofNat (0xE0 + n) := or_ofNat 14 4 fits
  have lead4 {n : Nat} (fits : n < 8) : 0xF0 ||| UInt8.ofNat n = UInt8.ofNat (0xF0 + n) := or_ofNat 30 3 fits
  unfold pushUtf8 utf8 tailByte
  simp only [and_63, byte, Nat.shiftRight_eq_div_pow, Nat.reducePow]
  split
  · rw [tryU8_ok (by omega)]
    rfl
  · split
    · rw [tryU8_ok (by omega), ← cont, ← lead2 (by omega)]
      rfl
    · split
      · rw [tryU8_ok (by omega), ← cont, ← cont, ← lead3 (by omega)]
        rfl
      · rw [tryU8_ok (by omega), ← cont, ← cont, ← cont, ← lead4 (by omega)]
        rfl

theorem units_ok {cp : Nat} (valid : Valid cp) : units cp = .ok (utf16 cp) := by
  have low : (cp - 0x10000) &&& 0x3FF = (cp - 0x10000) % 1024 := Nat.and_two_pow_sub_one_eq_mod _ 10
  unfold units utf16
  simp only [low, Nat.shiftRight_eq_div_pow, Nat.reducePow]
  split
  · rw [tryU16_ok (by omega), tryU16_ok (by omega)]
    rfl
  · rw [tryU16_ok (by omega)]
    rfl

theorem tail_eq (b : UInt8) : tail b = b.toNat % 64 := and_63 _

/-- Payloads side by side. -/
theorem or_eq_add (a k : Nat) {b : Nat} (low : b < 2 ^ k) : a <<< k ||| b = a * 2 ^ k + b := by
  rw [← Nat.shiftLeft_add_eq_or_of_lt low, Nat.shiftLeft_eq]

theorem two_eq (x : Nat) (b1 : UInt8) : two x b1 = x % 32 * 64 + b1.toNat % 64 := by
  have low : x &&& 0x1F = x % 32 := Nat.and_two_pow_sub_one_eq_mod x 5
  rw [two, low, tail_eq, or_eq_add _ 6 (by omega)]
  rfl

theorem three_eq (x : Nat) (b1 b2 : UInt8) :
    three x b1 b2 = x % 16 * 4096 + (b1.toNat % 64 * 64 + b2.toNat % 64) := by
  have low : x &&& 0x0F = x % 16 := Nat.and_two_pow_sub_one_eq_mod x 4
  rw [three, low, tail_eq, tail_eq, Nat.or_assoc, or_eq_add _ 6 (by omega), or_eq_add _ 12 (by omega)]
  rfl

theorem four_eq (x : Nat) (b1 b2 b3 : UInt8) :
    four x b1 b2 b3 = x % 8 * 262144 + (b1.toNat % 64 * 4096 + (b2.toNat % 64 * 64 + b3.toNat % 64)) := by
  have low : x &&& 0x07 = x % 8 := Nat.and_two_pow_sub_one_eq_mod x 3
  rw [four, low, tail_eq, tail_eq, tail_eq, Nat.or_assoc, Nat.or_assoc, or_eq_add _ 6 (by omega), or_eq_add _ 12 (by omega),
    or_eq_add _ 18 (by omega)]
  rfl

/-! What a sequence reads, and what is written for a code point. -/

theorem ofNat_eq {n : Nat} {b : UInt8} (eq : n = b.toNat) : UInt8.ofNat n = b := by
  rw [eq, UInt8.ofNat_toNat]

theorem isCont_iff {b : UInt8} : isCont b = true ↔ 0x80 ≤ b.toNat ∧ b.toNat ≤ 0xBF := by
  simp [isCont]

theorem two_written {x b1 : UInt8} (head : 0xC2 ≤ x.toNat ∧ x.toNat ≤ 0xDF) (first : 0x80 ≤ b1.toNat ∧ b1.toNat ≤ 0xBF) :
    Valid (two x.toNat b1) ∧ utf8 (two x.toNat b1) = [x, b1] := by
  rw [two_eq]
  refine ⟨by unfold Valid; omega, ?_⟩
  rw [utf8, if_neg (by omega), if_pos (by omega), ofNat_eq (by omega : _ = x.toNat), ofNat_eq (by omega : _ = b1.toNat)]

theorem three_written {x b1 b2 : UInt8} (head : 0xE0 ≤ x.toNat ∧ x.toNat ≤ 0xEF) (first : 0x80 ≤ b1.toNat ∧ b1.toNat ≤ 0xBF)
    (second : 0x80 ≤ b2.toNat ∧ b2.toNat ≤ 0xBF) (shortest : x.toNat = 0xE0 → 0xA0 ≤ b1.toNat) :
    Valid (three x.toNat b1 b2) ∧ utf8 (three x.toNat b1 b2) = [x, b1, b2] := by
  rw [three_eq]
  refine ⟨by unfold Valid; omega, ?_⟩
  rw [utf8, if_neg (by omega), if_neg (by omega), if_pos (by omega), ofNat_eq (by omega : _ = x.toNat),
    ofNat_eq (by omega : _ = b1.toNat), ofNat_eq (by omega : _ = b2.toNat)]

theorem four_written {x b1 b2 b3 : UInt8} (head : 0xF0 ≤ x.toNat ∧ x.toNat ≤ 0xF4) (first : 0x80 ≤ b1.toNat ∧ b1.toNat ≤ 0xBF)
    (second : 0x80 ≤ b2.toNat ∧ b2.toNat ≤ 0xBF) (third : 0x80 ≤ b3.toNat ∧ b3.toNat ≤ 0xBF)
    (shortest : x.toNat = 0xF0 → 0x90 ≤ b1.toNat) (largest : x.toNat = 0xF4 → b1.toNat ≤ 0x8F) :
    Valid (four x.toNat b1 b2 b3) ∧ utf8 (four x.toNat b1 b2 b3) = [x, b1, b2, b3] := by
  rw [four_eq]
  refine ⟨by unfold Valid; omega, ?_⟩
  rw [utf8, if_neg (by omega), if_neg (by omega), if_neg (by omega), ofNat_eq (by omega : _ = x.toNat),
    ofNat_eq (by omega : _ = b1.toNat), ofNat_eq (by omega : _ = b2.toNat), ofNat_eq (by omega : _ = b3.toNat)]

/-- A sequence that is read is the one its code point is written as. -/
theorem sequence_written {x : UInt8} {cp : Nat} {rest rest' : Bytes} (read : sequence x.toNat rest = some (cp, rest')) :
    Valid cp ∧ x :: rest = utf8 cp ++ rest' := by
  unfold sequence at read
  simp only [isCont_iff] at read
  split at read
  · cases read
    refine ⟨by unfold Valid; omega, ?_⟩
    rw [utf8, if_pos (by assumption), UInt8.ofNat_toNat, List.singleton_append]
  split at read
  · split at read
    · split at read
      · cases read
        obtain ⟨valid, eq⟩ := two_written (by assumption) (by assumption)
        exact ⟨valid, by rw [eq]; rfl⟩
      · cases read
    · cases read
  split at read
  · split at read
    · rename_i b1 b2 _
      split at read
      · cases read
        obtain ⟨valid, eq⟩ := @three_written x b1 b2 (by omega) (by omega) (by omega) (by omega)
        exact ⟨valid, by rw [eq]; rfl⟩
      · cases read
    · cases read
  split at read
  · split at read
    · rename_i b1 b2 _
      split at read
      · cases read
        obtain ⟨valid, eq⟩ := @three_written x b1 b2 (by omega) (by omega) (by omega) (by omega)
        exact ⟨valid, by rw [eq]; rfl⟩
      · cases read
    · cases read
  split at read
  · split at read
    · rename_i b1 b2 b3 _
      split at read
      · cases read
        obtain ⟨valid, eq⟩ := @four_written x b1 b2 b3 (by omega) (by omega) (by omega) (by omega) (by omega) (by omega)
        exact ⟨valid, by rw [eq]; rfl⟩
      · cases read
    · cases read
  split at read
  · split at read
    · rename_i b1 b2 b3 _
      split at read
      · cases read
        obtain ⟨valid, eq⟩ := @four_written x b1 b2 b3 (by omega) (by omega) (by omega) (by omega) (by omega) (by omega)
        exact ⟨valid, by rw [eq]; rfl⟩
      · cases read
    · cases read
  split at read
  · split at read
    · rename_i b1 b2 b3 _
      split at read
      · cases read
        obtain ⟨valid, eq⟩ := @four_written x b1 b2 b3 (by omega) (by omega) (by omega) (by omega) (by omega) (by omega)
        exact ⟨valid, by rw [eq]; rfl⟩
      · cases read
    · cases read
  · cases read

theorem toNat_ofNat {n : Nat} (fits : n < 256) : (UInt8.ofNat n).toNat = n := UInt8.toNat_ofNat_of_lt' fits

/-- What is written for a code point is read as that code point. -/
theorem sequence_utf8 {cp : Nat} (valid : Valid cp) (rest : Bytes) : ∃ x bs, utf8 cp = x :: bs ∧
    sequence x.toNat (bs ++ rest) = some (cp, rest) := by
  unfold utf8
  split
  · refine ⟨_, _, rfl, ?_⟩
    rw [toNat_ofNat (by omega)]
    unfold sequence
    rw [if_pos (by assumption), List.nil_append]
  split
  · refine ⟨_, _, rfl, ?_⟩
    rw [toNat_ofNat (by omega)]
    unfold sequence
    rw [if_neg (by omega), if_pos (by omega)]
    simp only [List.cons_append, List.nil_append, isCont_iff, two_eq]
    rw [toNat_ofNat (by omega), if_pos (by omega)]
    congr 2
    omega
  split
  · refine ⟨_, _, rfl, ?_⟩
    rw [toNat_ofNat (by omega)]
    unfold sequence
    simp only [List.cons_append, List.nil_append, isCont_iff, three_eq]
    rw [if_neg (by omega), if_neg (by omega), toNat_ofNat (by omega), toNat_ofNat (by omega)]
    have back : (0xE0 + cp / 4096) % 16 * 4096 + ((0x80 + cp / 64 % 64) % 64 * 64 + (0x80 + cp % 64) % 64) = cp := by omega
    rw [back]
    by_cases least : 0xE0 + cp / 4096 = 0xE0
    · rw [if_pos least, if_pos (by omega)]
    · rw [if_neg least, if_pos (by omega), if_pos (by omega)]
  · refine ⟨_, _, rfl, ?_⟩
    rw [toNat_ofNat (by unfold Valid at valid; omega)]
    unfold sequence
    simp only [List.cons_append, List.nil_append, isCont_iff, four_eq]
    rw [if_neg (by omega), if_neg (by omega), if_neg (by omega), if_neg (by omega), toNat_ofNat (by omega),
      toNat_ofNat (by omega), toNat_ofNat (by omega)]
    have back : (0xF0 + cp / 262144) % 8 * 262144 + ((0x80 + cp / 4096 % 64) % 64 * 4096 +
        ((0x80 + cp / 64 % 64) % 64 * 64 + (0x80 + cp % 64) % 64)) = cp := by
      unfold Valid at valid
      omega
    rw [back]
    unfold Valid at valid
    by_cases least : 0xF0 + cp / 262144 = 0xF0
    · rw [if_pos least, if_pos (by omega)]
    · rw [if_neg least]
      by_cases most : 0xF0 + cp / 262144 = 0xF4
      · rw [if_neg (by omega), if_pos most, if_pos (by omega)]
      · rw [if_pos (by omega), if_pos (by omega)]

/-! Lists of code points. -/

/-- A lead surrogate right before a trail surrogate would be a pair. -/
def Separate (a b : Nat) : Prop := ¬(isLead a = true ∧ isTrail b = true)

/-- Code points as WTF-8 has them: surrogates only where they make no pair. -/
structure Canonical (cps : List Nat) : Prop where
  valid : ∀ cp ∈ cps, Valid cp
  separate : cps.IsChain Separate

theorem Canonical.tail {cp : Nat} {cps : List Nat} (canonical : Canonical (cp :: cps)) : Canonical cps :=
  ⟨fun c member => canonical.valid c (List.mem_cons_of_mem cp member), List.isChain_of_isChain_cons canonical.separate⟩

theorem Canonical.cons {cp : Nat} {cps : List Nat} (valid : Valid cp) (canonical : Canonical cps)
    (apart : ∀ next ∈ cps.head?, Separate cp next) : Canonical (cp :: cps) := by
  refine ⟨List.forall_mem_cons.mpr ⟨valid, canonical.valid⟩, ?_⟩
  cases cps with
  | nil => exact .singleton cp
  | cons next cps => exact .cons_cons (apart next rfl) canonical.separate

theorem Canonical.head {cp : Nat} {cps : List Nat} (canonical : Canonical (cp :: cps)) :
    ∀ next ∈ cps.head?, Separate cp next := by
  cases cps with
  | nil => simp
  | cons next cps =>
    rintro _ ⟨⟩
    exact (List.isChain_cons_cons.mp canonical.separate).1

/-- After a lead surrogate the next code point is no trail surrogate. -/
def Follows (prevLead : Bool) (cps : List Nat) : Prop := ∀ cp ∈ cps.head?, ¬(prevLead = true ∧ isTrail cp = true)

theorem decodeFrom_written {cps : List Nat} {prevLead : Bool} (canonical : Canonical cps) (follows : Follows prevLead cps) :
    decodeFrom prevLead (cps.flatMap utf8) = .ok (some (cps.flatMap utf16)) := by
  induction cps generalizing prevLead with
  | nil => rw [List.flatMap_nil, decodeFrom, List.flatMap_nil]
  | cons cp cps rest =>
    have valid := canonical.valid cp List.mem_cons_self
    obtain ⟨x, bs, eq, read⟩ := sequence_utf8 valid (cps.flatMap utf8)
    have next := rest canonical.tail (canonical.head : Follows (isLead cp) cps)
    have allowed : (prevLead && isTrail cp) = false := by
      rw [Bool.eq_false_iff, Ne, Bool.and_eq_true]
      exact follows cp rfl
    rw [List.flatMap_cons, eq, List.cons_append, decodeFrom]
    split
    · rename_i nothing
      cases read.symm.trans nothing
    · rename_i cp' rest' read'
      cases read.symm.trans read'
      rw [allowed, units_ok valid, next]
      rfl

/-- What is accepted is a list of code points written one after the other. -/
theorem decodeFrom_read (prevLead : Bool) (b : Bytes) : ∃ r, decodeFrom prevLead b = .ok r ∧ ∀ u ∈ r, ∃ cps, Canonical cps ∧
    Follows prevLead cps ∧ b = cps.flatMap utf8 ∧ u = cps.flatMap utf16 := by
  induction prevLead, b using decodeFrom.induct with
  | case1 prevLead =>
    refine ⟨some [], by rw [decodeFrom], ?_⟩
    rintro u ⟨⟩
    exact ⟨[], ⟨by simp, .nil⟩, by simp [Follows], rfl, rfl⟩
  | case2 prevLead x rest nothing =>
    refine ⟨none, ?_, by simp⟩
    rw [decodeFrom]
    split
    · rfl
    · rename_i read
      cases nothing.symm.trans read
  | case3 prevLead x rest cp rest' read refused =>
    refine ⟨none, ?_, by simp⟩
    rw [decodeFrom]
    split
    · rfl
    · rename_i read'
      cases read.symm.trans read'
      rw [if_pos refused]
  | case4 prevLead x rest cp rest' read allowed later =>
    obtain ⟨valid, written⟩ := sequence_written read
    obtain ⟨r, done, shape⟩ := later
    refine ⟨r.map fun later => utf16 cp ++ later, ?_, ?_⟩
    · rw [decodeFrom]
      split
      · rename_i nothing
        cases read.symm.trans nothing
      · rename_i read'
        cases read.symm.trans read'
        rw [if_neg allowed, units_ok valid, done]
        rfl
    · intro u member
      obtain ⟨tail, inside, rfl⟩ := Option.map_eq_some_iff.mp member
      obtain ⟨cps, canonical, follows, rfl, rfl⟩ := shape tail inside
      refine ⟨cp :: cps, canonical.cons valid follows, ?_, ?_, ?_⟩
      · rintro _ ⟨⟩
        rwa [← Bool.and_eq_true]
      · rw [written, List.flatMap_cons]
      · rw [List.flatMap_cons]

/-! Units and code points. -/

/-- The code points of a list of units: a lead right before a trail is one with it. -/
def group : List UInt16 → List Nat
  | [] => []
  | [u] => [u.toNat]
  | u :: t :: rest =>
    if isLead u.toNat && isTrail t.toNat then
      (0x10000 + (u.toNat - 0xD800) * 1024 + (t.toNat - 0xDC00)) :: group rest
    else u.toNat :: group (t :: rest)

theorem isLead_iff {cp : Nat} : isLead cp = true ↔ 0xD800 ≤ cp ∧ cp ≤ 0xDBFF := by simp [isLead]

theorem isTrail_iff {cp : Nat} : isTrail cp = true ↔ 0xDC00 ≤ cp ∧ cp ≤ 0xDFFF := by simp [isTrail]

/-- The head of a grouped list is the first unit, or a code point beyond the surrogates. -/
theorem group_head {t : UInt16} {rest : List UInt16} : ∀ cp ∈ (group (t :: rest)).head?, cp = t.toNat ∨ 0xFFFF < cp := by
  intro cp member
  unfold group at member
  split at member
  · cases member
  · cases member
    rename_i eq
    cases eq
    exact .inl rfl
  · rename_i eq
    cases eq
    split at member
    · have eq : _ = cp := Option.some.inj member
      exact .inr (by omega)
    · exact .inl (Option.some.inj member).symm

theorem group_canonical (us : List UInt16) : Canonical (group us) := by
  induction us using group.induct with
  | case1 => exact ⟨by simp [group], .nil⟩
  | case2 u =>
    have most := u.toNat_lt
    refine ⟨?_, .singleton _⟩
    simp only [group, List.mem_singleton, forall_eq, Valid]
    omega
  | case3 u t rest pair later =>
    rw [group, if_pos pair]
    rw [Bool.and_eq_true, isLead_iff, isTrail_iff] at pair
    refine later.cons (by unfold Valid; omega) fun next _ joined => ?_
    rw [isLead_iff] at joined
    omega
  | case4 u t rest alone later =>
    rw [group, if_neg alone]
    have most := u.toNat_lt
    refine later.cons (by unfold Valid; omega) fun next member joined => ?_
    obtain rfl | beyond := group_head next member
    · exact alone (Bool.and_eq_true_iff.mpr joined)
    · have trail := isTrail_iff.mp joined.2
      omega

theorem utf16_group (us : List UInt16) : (group us).flatMap utf16 = us := by
  have own (u : UInt16) : utf16 u.toNat = [u] := by
    have most := u.toNat_lt
    rw [utf16, if_neg (by omega), UInt16.ofNat_toNat]
  induction us using group.induct with
  | case1 => rfl
  | case2 u => rw [group, List.flatMap_singleton, own]
  | case3 u t rest pair later =>
    rw [group, if_pos pair, List.flatMap_cons, later]
    rw [Bool.and_eq_true, isLead_iff, isTrail_iff] at pair
    have high : 0xD800 + (0x10000 + (u.toNat - 0xD800) * 1024 + (t.toNat - 0xDC00) - 0x10000) / 1024 = u.toNat := by omega
    have low : 0xDC00 + (0x10000 + (u.toNat - 0xD800) * 1024 + (t.toNat - 0xDC00) - 0x10000) % 1024 = t.toNat := by omega
    rw [utf16, if_pos (by omega), high, low, UInt16.ofNat_toNat, UInt16.ofNat_toNat]
    rfl
  | case4 u t rest alone later => rw [group, if_neg alone, List.flatMap_cons, own, later, List.singleton_append]

/-- Grouping is the inverse on code points where no pair is written apart. -/
theorem group_utf16 {cps : List Nat} (canonical : Canonical cps) : group (cps.flatMap utf16) = cps := by
  have wide {n : Nat} (fits : n < 65536) : (UInt16.ofNat n).toNat = n := UInt16.toNat_ofNat_of_lt' fits
  induction cps with
  | nil => rfl
  | cons cp cps rest =>
    have valid := canonical.valid cp List.mem_cons_self
    have later := rest canonical.tail
    unfold Valid at valid
    rw [List.flatMap_cons, utf16]
    split
    · rename_i beyond
      have high : 0xD800 + (cp - 0x10000) / 1024 ≤ 0xDBFF := by omega
      have low : 0xDC00 + (cp - 0x10000) % 1024 ≤ 0xDFFF := by omega
      have back : 0x10000 + (0xD800 + (cp - 0x10000) / 1024 - 0xD800) * 1024 + (0xDC00 + (cp - 0x10000) % 1024 - 0xDC00) = cp := by
        omega
      rw [List.cons_append, List.cons_append, List.nil_append, group, wide (by omega), wide (by omega), if_pos, later, back]
      · rw [Bool.and_eq_true, isLead_iff, isTrail_iff]
        omega
    · rename_i within
      cases cps with
      | nil =>
        rw [List.flatMap_nil, List.append_nil, group, wide (by omega)]
      | cons next cps =>
        have apart := canonical.head next rfl
        have validNext := canonical.valid next (by simp)
        unfold Valid at validNext
        obtain ⟨t, more, eq, notPair⟩ : ∃ t more, (next :: cps).flatMap utf16 = t :: more ∧
            ¬(isLead cp = true ∧ isTrail t.toNat = true) := by
          rw [List.flatMap_cons, utf16]
          split
          · refine ⟨_, _, rfl, fun pair => ?_⟩
            rw [wide (by omega), isTrail_iff] at pair
            omega
          · refine ⟨_, _, rfl, ?_⟩
            rwa [wide (by omega)]
        rw [eq] at later ⊢
        rw [List.singleton_append, group, wide (by omega), if_neg (by rwa [Bool.and_eq_true]), later]

theorem encodeFromWide_eq (us : List UInt16) : encodeFromWide us = .ok ((group us).flatMap utf8) := by
  induction us using group.induct with
  | case1 => rfl
  | case2 u =>
    have most := u.toNat_lt
    rw [encodeFromWide, pushUtf8_ok (by unfold Valid; omega), group, List.flatMap_singleton]
  | case3 u t rest pair later =>
    rw [encodeFromWide, group, if_pos pair, if_pos pair, later, Nat.shiftLeft_eq, List.flatMap_cons]
    rw [Bool.and_eq_true, isLead_iff, isTrail_iff] at pair
    rw [pushUtf8_ok (by unfold Valid; omega)]
    rfl
  | case4 u t rest alone later =>
    have most := u.toNat_lt
    rw [encodeFromWide, group, if_neg alone, if_neg alone, later, pushUtf8_ok (by unfold Valid; omega), List.flatMap_cons]
    rfl

/-- Every list of units is encoded and decoded back to itself; every byte string is decoded
with no failed conversion, and encoding what it gives, if it gives units, gives it back. -/
theorem wide_inverse : (∀ u, ∃ b, encodeFromWide u = .ok b ∧ decodeToWide b = .ok (some u)) ∧
    ∀ b, ∃ r, decodeToWide b = .ok r ∧ ∀ u ∈ r, encodeFromWide u = .ok b := by
  constructor
  · intro u
    refine ⟨_, encodeFromWide_eq u, ?_⟩
    rw [decodeToWide, decodeFrom_written (group_canonical u) (fun _ _ pair => by cases pair.1), utf16_group]
  · intro b
    obtain ⟨r, done, shape⟩ := decodeFrom_read false b
    refine ⟨r, done, fun u member => ?_⟩
    obtain ⟨cps, canonical, _, rfl, rfl⟩ := shape u member
    rw [encodeFromWide_eq, group_utf16 canonical]

end Norte.Wtf8
