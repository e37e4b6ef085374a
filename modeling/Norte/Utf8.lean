/-! UTF-8 over plain lists. A `&str` is the list of its scalar values and a byte
string the list of its bytes; the codec itself is the one of the core library.
`errorLen`, `validPrefix` and `utf8Chunks` are Rust's `Utf8Error::error_len`,
`Utf8Error::valid_up_to` and `<[u8]>::utf8_chunks`. -/
namespace Norte

abbrev Bytes := List UInt8

/-- A Rust `&str`, as its scalar values. -/
abbrev Str := List Char

namespace Utf8

def encode (s : Str) : Bytes := s.flatMap String.utf8EncodeChar

@[simp] theorem encode_nil : encode [] = [] := rfl

@[simp] theorem encode_cons (c : Char) (s : Str) :
    encode (c :: s) = String.utf8EncodeChar c ++ encode s := rfl

@[simp] theorem encode_append (s t : Str) : encode (s ++ t) = encode s ++ encode t :=
  List.flatMap_append

/-- The scalar value a byte string starts with, if it starts with one. -/
def decodeChar (bytes : Bytes) : Option Char := bytes.toByteArray.utf8DecodeChar? 0

@[simp] theorem decodeChar_nil : decodeChar [] = none := rfl

@[simp] theorem decodeChar_encodeChar (c : Char) (rest : Bytes) :
    decodeChar (String.utf8EncodeChar c ++ rest) = some c := by
  rw [decodeChar, List.toByteArray_append]
  exact ByteArray.utf8DecodeChar?_utf8EncodeChar_append

theorem decodeChar_eq_some {bytes : Bytes} (decoded : decodeChar bytes = some c) :
    bytes = String.utf8EncodeChar c ++ bytes.drop c.utf8Size := by
  obtain ⟨rest, split⟩ := ByteArray.exists_of_utf8DecodeChar?_eq_some decoded
  have equal : bytes = String.utf8EncodeChar c ++ rest.data.toList := by
    apply List.toByteArray_inj.mp
    rw [split, List.toByteArray_append]
    congr 1
    ext1
    simp
  have length : (String.utf8EncodeChar c).length = c.utf8Size := String.length_utf8EncodeChar c
  rw [equal, ← length, List.drop_left]

theorem encode_injective {s t : Str} (same : encode s = encode t) : s = t := by
  induction s generalizing t with
  | nil =>
    cases t with
    | nil => rfl
    | cons d t =>
      have := congrArg decodeChar same
      simp at this
  | cons c s ih =>
    cases t with
    | nil =>
      have := congrArg decodeChar same
      simp at this
    | cons d t =>
      have first := congrArg decodeChar same
      simp only [encode_cons, decodeChar_encodeChar, Option.some.injEq] at first
      subst first
      rw [ih (List.append_cancel_left same)]

theorem encodeChar_ascii (c : Char) (ascii : c.toNat < 128) :
    String.utf8EncodeChar c = [UInt8.ofNat c.toNat] := by
  have small : c.toNat ≤ 127 := Nat.lt_succ_iff.mp ascii
  simp only [String.utf8EncodeChar, Char.toNat_val, small, ↓reduceIte]

/-- Only a scalar below 128 is spelled with a byte below 128, and it is that byte. -/
theorem encodeChar_byte_lt {c : Char} {b : UInt8} (member : b ∈ String.utf8EncodeChar c)
    (low : b < 0x80) : String.utf8EncodeChar c = [b] ∧ c.toNat = b.toNat := by
  by_cases ascii : c.toNat < 128
  · rw [encodeChar_ascii c ascii] at member ⊢
    obtain rfl := List.mem_singleton.mp member
    exact ⟨rfl, by simp; omega⟩
  · have big : ¬c.val.toNat ≤ 127 := fun h => ascii (Nat.lt_succ_of_le h)
    rw [UInt8.lt_iff_toNat_lt] at low
    simp only [String.utf8EncodeChar, big, ↓reduceIte] at member
    split at member
    · simp only [List.mem_cons, List.not_mem_nil, or_false] at member
      rcases member with rfl | rfl <;> simp at low <;> omega
    split at member
    · simp only [List.mem_cons, List.not_mem_nil, or_false] at member
      rcases member with rfl | rfl | rfl <;> simp at low <;> omega
    · simp only [List.mem_cons, List.not_mem_nil, or_false] at member
      rcases member with rfl | rfl | rfl | rfl <;> simp at low <;> omega

/-- The longest well-formed prefix, decoded, and the bytes after it. -/
def validPrefixFrom : Nat → Bytes → Str × Bytes
  | 0, bytes => ([], bytes)
  | fuel + 1, bytes =>
    match decodeChar bytes with
    | none => ([], bytes)
    | some c =>
      let (valid, rest) := validPrefixFrom fuel (bytes.drop c.utf8Size)
      (c :: valid, rest)

/-- Each scalar value takes at least one byte, so the length is fuel enough. -/
def validPrefix (bytes : Bytes) : Str × Bytes := validPrefixFrom bytes.length bytes

theorem validPrefixFrom_split (fuel : Nat) (bytes : Bytes) :
    encode (validPrefixFrom fuel bytes).1 ++ (validPrefixFrom fuel bytes).2 = bytes := by
  induction fuel generalizing bytes with
  | zero => rfl
  | succ fuel ih =>
    rw [validPrefixFrom]
    split
    · rfl
    next c decoded =>
      simp only [encode_cons, List.append_assoc, ih]
      exact (decodeChar_eq_some decoded).symm

theorem validPrefix_split (bytes : Bytes) :
    encode (validPrefix bytes).1 ++ (validPrefix bytes).2 = bytes :=
  validPrefixFrom_split _ _

theorem length_le_encode (s : Str) : s.length ≤ (encode s).length := by
  induction s with
  | nil => simp
  | cons c s ih =>
    have := c.utf8Size_pos
    simp only [encode_cons, List.length_cons, List.length_append, String.length_utf8EncodeChar]
    omega

theorem validPrefixFrom_encode (s : Str) (fuel : Nat) (enough : s.length ≤ fuel) :
    validPrefixFrom fuel (encode s) = (s, []) := by
  induction s generalizing fuel with
  | nil => cases fuel <;> simp [validPrefixFrom]
  | cons c s ih =>
    obtain ⟨fuel, rfl⟩ : ∃ n, fuel = n + 1 := ⟨fuel - 1, by simp at enough; omega⟩
    have dropped : (String.utf8EncodeChar c ++ encode s).drop c.utf8Size = encode s := by
      rw [← String.length_utf8EncodeChar, List.drop_left]
    simp [validPrefixFrom, dropped, ih fuel (by simpa using enough)]

@[simp] theorem validPrefix_encode (s : Str) : validPrefix (encode s) = (s, []) :=
  validPrefixFrom_encode s _ (length_le_encode s)

/-- `str::from_utf8`, with the error's position left out: no caller here reads it. -/
def fromUtf8 (bytes : Bytes) : Option Str :=
  match validPrefix bytes with
  | (valid, []) => some valid
  | (_, _ :: _) => none

@[simp] theorem fromUtf8_encode (s : Str) : fromUtf8 (encode s) = some s := by
  simp [fromUtf8]

theorem fromUtf8_eq_some {bytes : Bytes} (decoded : fromUtf8 bytes = some s) :
    encode s = bytes := by
  have split := validPrefix_split bytes
  unfold fromUtf8 at decoded
  split at decoded
  next valid found =>
    obtain rfl := Option.some.inj decoded
    simpa [found] using split
  next => cases decoded

/-- A continuation byte. -/
def isContinuation (b : UInt8) : Bool := 0x80 ≤ b && b ≤ 0xBF

/-- Bytes of the ill-formed sequence at the front of bytes that start with no scalar
value; `none` when the input ends before the sequence could be told ill-formed. -/
def errorLen : Bytes → Option Nat
  | [] => none
  | a :: rest =>
    if 0xC2 ≤ a ∧ a ≤ 0xDF then
      if rest = [] then none else some 1
    else if 0xE0 ≤ a ∧ a ≤ 0xEF then
      match rest with
      | [] => none
      | b :: rest =>
        if (if a = 0xE0 then 0xA0 ≤ b ∧ b ≤ 0xBF
            else if a = 0xED then 0x80 ≤ b ∧ b ≤ 0x9F
            else isContinuation b) then
          if rest = [] then none else some 2
        else some 1
    else if 0xF0 ≤ a ∧ a ≤ 0xF4 then
      match rest with
      | [] => none
      | b :: rest =>
        if (if a = 0xF0 then 0x90 ≤ b ∧ b ≤ 0xBF
            else if a = 0xF4 then 0x80 ≤ b ∧ b ≤ 0x8F
            else isContinuation b) then
          match rest with
          | [] => none
          | c :: rest =>
            if isContinuation c then
              if rest = [] then none else some 3
            else some 2
        else some 1
    else some 1

/-- One item of `utf8_chunks`. -/
structure Chunk where
  valid : Str
  invalid : Bytes

def utf8ChunksFrom : Nat → Bytes → List Chunk
  | 0, _ => []
  | fuel + 1, bytes =>
    match bytes with
    | [] => []
    | _ :: _ =>
      let (valid, rest) := validPrefix bytes
      let bad := (errorLen rest).getD rest.length
      ⟨valid, rest.take bad⟩ :: utf8ChunksFrom fuel (rest.drop bad)

/-- A chunk holds at least one byte, so the length is fuel enough. -/
def utf8Chunks (bytes : Bytes) : List Chunk := utf8ChunksFrom bytes.length bytes

theorem errorLen_pos {bytes : Bytes} (h : errorLen bytes = some n) : 0 < n := by
  unfold errorLen at h
  repeat' split at h
  all_goals first
    | contradiction
    | (obtain rfl := Option.some.inj h; omega)

/-- Decoding step by step loses no byte: the chunks put together are the input. -/
theorem utf8Chunks_join (bytes : Bytes) :
    (utf8Chunks bytes).flatMap (fun c => encode c.valid ++ c.invalid) = bytes := by
  suffices h : ∀ fuel (bytes : Bytes), bytes.length ≤ fuel →
      (utf8ChunksFrom fuel bytes).flatMap (fun c => encode c.valid ++ c.invalid) = bytes from
    h _ _ (Nat.le_refl _)
  intro fuel
  induction fuel with
  | zero =>
    intro bytes short
    rw [List.eq_nil_of_length_eq_zero (Nat.le_zero.mp short)]
    rfl
  | succ fuel ih =>
    intro bytes short
    cases bytes with
    | nil => rfl
    | cons b bytes =>
      have split := validPrefix_split (b :: bytes)
      rw [utf8ChunksFrom]
      generalize validPrefix (b :: bytes) = p at split
      obtain ⟨valid, rest⟩ := p
      simp only at split ⊢
      -- the next round starts on strictly fewer bytes
      have shorter : (rest.drop ((errorLen rest).getD rest.length)).length ≤ fuel := by
        have total := congrArg List.length split
        simp only [List.length_append, List.length_cons, List.length_drop] at total short ⊢
        cases found : errorLen rest with
        | none => simp
        | some n =>
          have := errorLen_pos found
          have := length_le_encode valid
          simp only [Option.getD_some]
          omega
      rw [List.flatMap_cons, ih _ shorter, List.append_assoc, List.take_append_drop]
      exact split

end Utf8
end Norte
