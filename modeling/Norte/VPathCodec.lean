import Mathlib.Data.List.Basic
import Norte.Utf8

/-! Percent-encoding of path segments. Valid UTF-8 travels literally, every byte
outside it as `%XX`, and so do `%` and the ASCII controls; a decoder reads the
wire byte by byte. -/
namespace Norte

inductive VPathError where
  | missingScheme
  | invalidScheme
  | invalidAuthority
  | emptySegment
  | dotSegment
  | nulByte
  | invalidByte
  | badEscape
  | archiveAddressing
  deriving DecidableEq, Repr

namespace VPathCodec

open Utf8

def hexUpper : Str := "0123456789ABCDEF".toList

/-- `char::is_ascii_control`: C0 and DEL. -/
def isAsciiControl (c : Char) : Bool := c.toNat < 0x20 || c.toNat = 0x7F

def pushEscape (b : UInt8) : Str :=
  ['%', hexUpper.getD (b >>> 4).toNat '0', hexUpper.getD (b &&& 0x0F).toNat '0']

def pushUtf8 (s : Str) : Str :=
  s.flatMap fun c => if c = '%' || isAsciiControl c then pushEscape c.toUInt8 else [c]

/-- The source loops over `from_utf8` and its error; the runs it walks are the
chunks of `utf8Chunks`. -/
def encodeSegment (bytes : Bytes) : Str :=
  (utf8Chunks bytes).flatMap fun chunk =>
    pushUtf8 chunk.valid ++ chunk.invalid.flatMap pushEscape

def hexVal (b : UInt8) : Except VPathError UInt8 :=
  if '0'.toUInt8 ≤ b ∧ b ≤ '9'.toUInt8 then .ok (b - '0'.toUInt8)
  else if 'a'.toUInt8 ≤ b ∧ b ≤ 'f'.toUInt8 then .ok (b - 'a'.toUInt8 + 10)
  else if 'A'.toUInt8 ≤ b ∧ b ≤ 'F'.toUInt8 then .ok (b - 'A'.toUInt8 + 10)
  else .error .badEscape

def decodeBytes : Bytes → Except VPathError Bytes
  | [] => .ok []
  | b :: rest =>
    if b = '%'.toUInt8 then
      match rest with
      | h :: l :: rest => do
        let hi ← hexVal h
        let lo ← hexVal l
        let out ← decodeBytes rest
        return ((hi <<< 4) ||| lo) :: out
      | _ => .error .badEscape
    else do
      let out ← decodeBytes rest
      return b :: out

def decodeSegment (raw : Str) : Except VPathError Bytes := decodeBytes (encode raw)

@[simp] theorem pushUtf8_nil : pushUtf8 [] = [] := rfl

@[simp] theorem pushUtf8_cons (c : Char) (s : Str) : pushUtf8 (c :: s) =
    (if c = '%' || isAsciiControl c then pushEscape c.toUInt8 else [c]) ++ pushUtf8 s := rfl

theorem hexVal_hexUpper : ∀ n < 16, hexVal (hexUpper.getD n '0').toUInt8 = .ok (UInt8.ofNat n) := by
  decide

theorem hexUpper_graphic : ∀ n < 16, 0x20 < (hexUpper.getD n '0').toNat ∧
    (hexUpper.getD n '0').toNat < 0x7F ∧ hexUpper.getD n '0' ≠ '/' ∧ hexUpper.getD n '0' ≠ '%' := by
  decide

theorem high_nibble_lt (b : UInt8) : (b >>> 4).toNat < 16 := by
  have := b.toNat_lt
  simp [Nat.shiftRight_eq_div_pow]
  omega

theorem low_nibble_lt (b : UInt8) : (b &&& 0x0F).toNat < 16 := by
  have : (b &&& 0x0F).toNat = b.toNat % 16 := Nat.and_two_pow_sub_one_eq_mod _ 4
  omega

theorem nibbles_join (b : UInt8) : (b >>> 4) <<< 4 ||| (b &&& 0x0F) = b := by
  rcases b with ⟨⟨v⟩⟩
  revert v
  decide +kernel

/-- Every character of an escape is printable ASCII and none is the separator. -/
theorem pushEscape_graphic (b : UInt8) : ∀ c ∈ pushEscape b,
    0x20 < c.toNat ∧ c.toNat < 0x7F ∧ c ≠ '/' := by
  have hi := hexUpper_graphic _ (high_nibble_lt b)
  have lo := hexUpper_graphic _ (low_nibble_lt b)
  intro c member
  simp only [pushEscape, List.mem_cons, List.not_mem_nil, or_false] at member
  rcases member with rfl | rfl | rfl
  · decide
  · exact ⟨hi.1,hi.2.1,hi.2.2.1⟩
  · exact ⟨lo.1,lo.2.1,lo.2.2.1⟩

theorem encode_ascii {s : Str} (ascii : ∀ c ∈ s, c.toNat < 128) :
    encode s = s.map fun c => c.toUInt8 := by
  induction s with
  | nil => rfl
  | cons c s ih =>
    rw [encode_cons, encodeChar_ascii c (ascii c List.mem_cons_self),
      ih fun d member => ascii d (List.mem_cons_of_mem _ member)]
    rfl

/-- A literal run goes through the decoder untouched. -/
theorem decodeBytes_literal (run rest : Bytes) (plain : '%'.toUInt8 ∉ run) :
    decodeBytes (run ++ rest) = (decodeBytes rest).map (run ++ ·) := by
  induction run with
  | nil => exact (congrFun Except.map_id (decodeBytes rest)).symm
  | cons b run ih =>
    obtain ⟨other, plain⟩ := List.ne_and_not_mem_of_not_mem_cons plain
    have step : decodeBytes (b :: (run ++ rest)) = (decodeBytes (run ++ rest)).map (b :: ·) := by
      rw [decodeBytes.eq_def]
      simp only [if_neg (Ne.symm other)]
      cases decodeBytes (run ++ rest) <;> rfl
    rw [List.cons_append, step, ih plain]
    cases decodeBytes rest <;> rfl

/-- An escape is read back as its byte, whatever follows. -/
theorem decodeBytes_escape (b : UInt8) (rest : Bytes) :
    decodeBytes (encode (pushEscape b) ++ rest) = (decodeBytes rest).map (b :: ·) := by
  have ascii : ∀ c ∈ pushEscape b, c.toNat < 128 := fun c member => by
    have := pushEscape_graphic b c member; omega
  have hi := hexVal_hexUpper _ (high_nibble_lt b)
  have lo := hexVal_hexUpper _ (low_nibble_lt b)
  rw [encode_ascii ascii]
  simp only [pushEscape, List.map_cons, List.map_nil, List.cons_append, List.nil_append,
    decodeBytes, ↓reduceIte, hi, lo, UInt8.ofNat_toNat]
  cases decodeBytes rest with
  | error e => rfl
  | ok out =>
    show Except.ok (((b >>> 4) <<< 4 ||| (b &&& 0x0F)) :: out) = _
    rw [nibbles_join]
    rfl

theorem decodeBytes_escapes (bytes rest : Bytes) :
    decodeBytes (encode (bytes.flatMap pushEscape) ++ rest) =
      (decodeBytes rest).map (bytes ++ ·) := by
  induction bytes with
  | nil => exact (congrFun Except.map_id (decodeBytes rest)).symm
  | cons b bytes ih =>
    rw [List.flatMap_cons, encode_append, List.append_assoc, decodeBytes_escape, ih]
    cases decodeBytes rest <;> rfl

theorem percent_not_mem {c : Char} (other : c ≠ '%') :
    '%'.toUInt8 ∉ String.utf8EncodeChar c := by
  intro member
  obtain ⟨_, value⟩ := encodeChar_byte_lt member (by decide)
  exact other (Char.toNat_inj.mp value)

theorem decodeBytes_pushUtf8 (s : Str) (rest : Bytes) :
    decodeBytes (encode (pushUtf8 s) ++ rest) = (decodeBytes rest).map (encode s ++ ·) := by
  induction s with
  | nil => exact (congrFun Except.map_id (decodeBytes rest)).symm
  | cons c s ih =>
    rw [pushUtf8_cons, encode_append, List.append_assoc]
    by_cases escaped : c = '%' || isAsciiControl c
    · -- both kinds of escaped scalar are one byte long
      have ascii : c.toNat < 128 := by
        simp only [Bool.or_eq_true, decide_eq_true_eq, isAsciiControl] at escaped
        rcases escaped with rfl | low | del
        · decide
        · omega
        · omega
      rw [if_pos escaped, decodeBytes_escape, ih, encode_cons, encodeChar_ascii c ascii]
      cases decodeBytes rest <;> rfl
    · have other : c ≠ '%' := by rintro rfl; simp at escaped
      rw [if_neg escaped, encode_cons, encode_nil, List.append_nil,
        decodeBytes_literal _ _ (percent_not_mem other), ih, encode_cons]
      cases decodeBytes rest <;> simp [Except.map]

/-- Bytes to wire to bytes, for every byte string: an ill-formed sequence and the
literal runs around it never merge, since a literal run holds no `%`. -/
theorem decodeSegment_encodeSegment (bytes : Bytes) :
    decodeSegment (encodeSegment bytes) = .ok bytes := by
  have chunked (chunks : List Chunk) :
      decodeBytes (encode (chunks.flatMap fun chunk =>
        pushUtf8 chunk.valid ++ chunk.invalid.flatMap pushEscape)) =
      .ok (chunks.flatMap fun chunk => encode chunk.valid ++ chunk.invalid) := by
    induction chunks with
    | nil => rfl
    | cons chunk chunks ih =>
      rw [List.flatMap_cons, encode_append, encode_append, List.append_assoc,
        decodeBytes_pushUtf8, decodeBytes_escapes, ih]
      simp [Except.map]
  rw [decodeSegment, encodeSegment, chunked, utf8Chunks_join]

/-- What a character of an encoded segment can be: part of an escape, or a literal
scalar whose bytes are in the segment. -/
theorem mem_encodeSegment {bytes : Bytes} {c : Char} (member : c ∈ encodeSegment bytes) :
    (0x20 < c.toNat ∧ c.toNat < 0x7F ∧ c ≠ '/') ∨
      (isAsciiControl c = false ∧ String.utf8EncodeChar c ⊆ bytes) := by
  obtain ⟨chunk, inside, member⟩ := List.mem_flatMap.mp member
  rcases List.mem_append.mp member with literal | escaped
  · obtain ⟨d, valid, member⟩ := List.mem_flatMap.mp literal
    split at member
    · exact .inl (pushEscape_graphic _ _ member)
    next plain =>
      obtain rfl := List.mem_singleton.mp member
      refine .inr ⟨by simp only [Bool.or_eq_true, not_or, Bool.not_eq_true] at plain; exact plain.2, ?_⟩
      intro b spelled
      rw [← utf8Chunks_join bytes]
      apply List.mem_flatMap.mpr
      refine ⟨chunk, inside, List.mem_append_left _ ?_⟩
      exact List.mem_flatMap.mpr ⟨c, valid, spelled⟩
  · obtain ⟨b, _, member⟩ := List.mem_flatMap.mp escaped
    exact .inl (pushEscape_graphic _ _ member)

theorem encodeSegment_no_control {bytes : Bytes} {c : Char} (member : c ∈ encodeSegment bytes) :
    isAsciiControl c = false := by
  rcases mem_encodeSegment member with ⟨low, high, _⟩ | ⟨plain, _⟩
  · simp only [isAsciiControl, Bool.or_eq_false_iff, decide_eq_false_iff_not]; omega
  · exact plain

theorem slash_not_mem_encodeSegment {bytes : Bytes} (noSlash : '/'.toUInt8 ∉ bytes) :
    '/' ∉ encodeSegment bytes := by
  intro member
  rcases mem_encodeSegment member with ⟨_, _, other⟩ | ⟨_, spelled⟩
  · exact other rfl
  · exact noSlash (spelled (by decide))

@[simp] theorem encodeSegment_eq_nil {bytes : Bytes} : encodeSegment bytes = [] ↔ bytes = [] := by
  constructor
  · intro empty
    have decoded := decodeSegment_encodeSegment bytes
    rw [empty] at decoded
    exact (Except.ok.inj decoded).symm
  · rintro rfl; rfl

end VPathCodec
end Norte
