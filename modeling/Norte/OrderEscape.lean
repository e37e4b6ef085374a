import Norte.OrderPrint
import Norte.VPathCodec

/-! What the printer writes, the lexer reads back: every glyph as its bytes, typed plain
or not as it was written, and nothing of it as a space, a pipe or a quote. -/
namespace Norte.Orders

open Utf8

def Glyph.bytes : Glyph → Bytes
  | raw c => String.utf8EncodeChar c
  | esc b => [b]

def glyphBytes (glyphs : List Glyph) : Bytes := glyphs.flatMap Glyph.bytes

def raws (s : Str) : List Glyph := s.map .raw

/-- A character that the lexer takes for itself and the parser does not strip. -/
structure Legible (comma : Bool) (c : Char) : Prop where
  space : ¬isWhitespace c
  special : c ≠ '|' ∧ c ≠ '\'' ∧ c ≠ '\\'
  visible : ¬isFormat c
  comma : comma → c ≠ ','

/-- The raw characters of a list of glyphs are legible. -/
def Clear (comma : Bool) (glyphs : List Glyph) : Prop := ∀ c, .raw c ∈ glyphs → Legible comma c

@[simp] theorem spell_nil : spell [] = [] := rfl

@[simp] theorem spell_append (first second : List Glyph) :
    spell (first ++ second) = spell first ++ spell second := List.flatMap_append

@[simp] theorem spell_raw_cons (c : Char) (glyphs : List Glyph) :
    spell (.raw c :: glyphs) = c :: spell glyphs := rfl

@[simp] theorem spell_raws (s : Str) : spell (raws s) = s := by
  induction s with
  | nil => rfl
  | cons c s ih => rw [raws, List.map_cons, spell_raw_cons]; exact congrArg (c :: ·) ih

@[simp] theorem glyphBytes_nil : glyphBytes [] = [] := rfl

@[simp] theorem glyphBytes_append (first second : List Glyph) :
    glyphBytes (first ++ second) = glyphBytes first ++ glyphBytes second := List.flatMap_append

@[simp] theorem glyphBytes_cons (g : Glyph) (glyphs : List Glyph) :
    glyphBytes (g :: glyphs) = g.bytes ++ glyphBytes glyphs := rfl

@[simp] theorem glyphBytes_raws (s : Str) : glyphBytes (raws s) = encode s := by
  rw [glyphBytes, raws, List.flatMap_map]
  rfl

@[simp] theorem glyphBytes_escs (bytes : Bytes) : glyphBytes (bytes.map .esc) = bytes := by
  rw [glyphBytes, List.flatMap_map]
  simp [Glyph.bytes]

theorem Clear.append {comma : Bool} {first second : List Glyph} (clear : Clear comma first)
    (clear' : Clear comma second) : Clear comma (first ++ second) := by
  intro c member
  rcases List.mem_append.mp member with here | there
  · exact clear c here
  · exact clear' c there

theorem Clear.tail {comma : Bool} {g : Glyph} {glyphs : List Glyph} (clear : Clear comma (g :: glyphs)) :
    Clear comma glyphs := fun c member => clear c (List.mem_cons_of_mem _ member)

theorem clear_escs (comma : Bool) (bytes : Bytes) : Clear comma (bytes.map .esc) := by
  intro c member
  simp at member

theorem Legible.weaken {comma : Bool} {c : Char} (legible : Legible comma c) : Legible false c :=
  ⟨legible.space, legible.special, legible.visible, by simp⟩

theorem Clear.weaken {comma : Bool} {glyphs : List Glyph} (clear : Clear comma glyphs) :
    Clear false glyphs := fun c member => (clear c member).weaken

/-! What the escape writes. -/

section Escape

variable {unicode : Unicode}

theorem isFormat_ascii {c : Char} (low : c.toNat < 128) : ¬isFormat c := by
  have apart (ranges : List (Nat × Nat)) (high : ∀ r ∈ ranges, 128 ≤ r.1) : inRanges ranges c = false := by
    rw [inRanges, List.any_eq_false]
    intro r member
    have := high r member
    simp only [Bool.and_eq_true, decide_eq_true_eq]
    omega
  rw [isFormat, apart formatChars (by decide), apart invisibleLetters (by decide), apart invisibleMarks (by decide)]
  decide

theorem isWhitespace_graphic {c : Char} (graphic : isGraphic c) : ¬isWhitespace c := by
  simp only [isGraphic, Bool.and_eq_true, decide_eq_true_eq] at graphic
  simp only [isWhitespace, Bool.or_eq_true, Bool.and_eq_true, decide_eq_true_eq]
  omega

/-- A graphic ASCII character is legible unless it is one of three. -/
theorem legible_ascii {comma : Bool} {c : Char} (graphic : isGraphic c)
    (special : c ∉ ['|', '\'', '\\']) (other : comma → c ≠ ',') : Legible comma c where
  space := isWhitespace_graphic graphic
  special := by simpa using special
  visible := by
    apply isFormat_ascii
    simp only [isGraphic, Bool.and_eq_true, decide_eq_true_eq] at graphic
    omega
  comma := other

theorem safe_legible {c : Char} {comma : Bool} {marksLeft : Nat}
    (ok : safe unicode c comma marksLeft) : Legible comma c := by
  unfold safe at ok
  split at ok
  next low =>
    simp only [Bool.and_eq_true, decide_eq_true_eq, Bool.not_eq_true', Bool.and_eq_false_iff,
      decide_eq_false_iff_not] at ok
    refine legible_ascii ok.1.1 ok.1.2 fun on => ?_
    rcases ok.2 with off | other
    · rw [on] at off
      cases off
    · exact other
  next high =>
    have ascii (d : Char) (low : d.toNat < 128) : c ≠ d := by
      rintro rfl
      exact high low
    have plain : c ≠ '|' ∧ c ≠ '\'' ∧ c ≠ '\\' :=
      ⟨ascii _ (by decide), ascii _ (by decide), ascii _ (by decide)⟩
    split at ok
    next mark =>
      simp only [Bool.and_eq_true, decide_eq_true_eq, Bool.not_eq_true'] at ok
      refine ⟨fun space => (unicode.spaces c space).2 mark, plain, ?_, fun _ => ascii _ (by decide)⟩
      simp only [isFormat, Bool.or_eq_true, not_or]
      exact ⟨⟨fun format => (unicode.formats c format).2 mark, fun letter => unicode.letters c letter mark⟩,
        by simp [ok.2]⟩
    next unmarked =>
      simp only [Bool.and_eq_true, Bool.not_eq_true'] at ok
      refine ⟨fun space => (unicode.spaces c space).1 ok.1, plain, ?_, fun _ => ascii _ (by decide)⟩
      simp only [isFormat, Bool.or_eq_true, not_or]
      exact ⟨⟨fun format => (unicode.formats c format).1 ok.1, by simp [ok.2]⟩,
        fun mark => unmarked (unicode.marks c mark ok.1)⟩

theorem escapeValid_spec (comma : Bool) (marksLeft : Nat) (valid : Str) :
    glyphBytes (escapeValid unicode comma marksLeft valid).1 = encode valid ∧
      Clear comma (escapeValid unicode comma marksLeft valid).1 := by
  induction valid generalizing marksLeft with
  | nil => exact ⟨rfl, by intro c member; cases member⟩
  | cons c valid ih =>
    rw [escapeValid]
    split
    next ok =>
      obtain ⟨same, clear⟩ := ih (marksAfter unicode c marksLeft)
      refine ⟨?_, ?_⟩
      · rw [glyphBytes_cons, same]
        rfl
      · intro d member
        rcases List.mem_cons.mp member with own | later
        · obtain rfl := Glyph.raw.inj own
          exact safe_legible ok
        · exact clear d later
    next =>
      obtain ⟨same, clear⟩ := ih 0
      refine ⟨?_, (clear_escs comma _).append clear⟩
      rw [glyphBytes_append, same, glyphBytes_escs]
      rfl

theorem escapeChunks_spec (comma : Bool) (marksLeft : Nat) (chunks : List Chunk) :
    glyphBytes (escapeChunks unicode comma marksLeft chunks) =
        chunks.flatMap (fun c => encode c.valid ++ c.invalid) ∧
      Clear comma (escapeChunks unicode comma marksLeft chunks) := by
  induction chunks generalizing marksLeft with
  | nil => exact ⟨rfl, by intro c member; cases member⟩
  | cons chunk chunks ih =>
    rw [escapeChunks]
    obtain ⟨valid, clear⟩ := @escapeValid_spec unicode comma marksLeft chunk.valid
    generalize escapeValid unicode comma marksLeft chunk.valid = p at valid clear
    obtain ⟨rest, clear'⟩ := ih (if chunk.invalid.isEmpty then p.2 else 0)
    refine ⟨?_, (clear.append (clear_escs comma _)).append clear'⟩
    rw [glyphBytes_append, glyphBytes_append, glyphBytes_escs, valid, rest, List.flatMap_cons]

theorem glyphBytes_glyphs (name : Bytes) (comma : Bool) : glyphBytes (glyphs unicode name comma) = name := by
  rw [glyphs, (escapeChunks_spec comma 0 _).1, utf8Chunks_join]

theorem glyphs_clear (name : Bytes) (comma : Bool) : Clear comma (glyphs unicode name comma) :=
  (escapeChunks_spec comma 0 _).2

theorem glyphs_ne_nil {name : Bytes} (some_ : name ≠ []) (comma : Bool) : glyphs unicode name comma ≠ [] := by
  intro empty
  apply some_
  have same : glyphBytes (glyphs unicode name comma) = name := glyphBytes_glyphs name comma
  rw [← same, empty]
  rfl

end Escape

/-! What the lexer makes of it. -/

/-- The pieces of glyphs that begin at offset `i`. -/
def layout : Nat → List Glyph → List Piece
  | _, [] => []
  | i, .raw c :: glyphs => piecesFrom true i (String.utf8EncodeChar c) ++ layout (i + c.utf8Size) glyphs
  | i, .esc b :: glyphs => ⟨b, false, i⟩ :: layout (i + 4) glyphs

def Glyph.width : Glyph → Nat
  | raw c => c.utf8Size
  | esc _ => 4

def width (glyphs : List Glyph) : Nat := (glyphs.map Glyph.width).sum

theorem hex_hexLower : ∀ n < 16, hex (hexLower.getD n '0') = some (UInt8.ofNat n) := by
  decide

theorem hex_nibbles (b : UInt8) : hex (hexLower.getD (b >>> 4).toNat '0') = some (b >>> 4) ∧
    hex (hexLower.getD (b &&& 0x0F).toNat '0') = some (b &&& 0x0F) := by
  rw [hex_hexLower _ (VPathCodec.high_nibble_lt b), hex_hexLower _ (VPathCodec.low_nibble_lt b),
    UInt8.ofNat_toNat, UInt8.ofNat_toNat]
  exact ⟨rfl, rfl⟩

/-- A word that has begun goes on through clear glyphs. -/
theorem lexFrom_spell {glyphs : List Glyph} (clear : Clear false glyphs) (start : Nat)
    (pieces : List Piece) (i : Nat) (tail : Str) :
    lexFrom (some ⟨start, pieces, none⟩) i (spell glyphs ++ tail) =
      lexFrom (some ⟨start, pieces ++ layout i glyphs, none⟩) (i + width glyphs) tail := by
  induction glyphs generalizing pieces i with
  | nil => simp [layout, width]
  | cons g glyphs ih =>
    cases g with
    | raw c =>
      have legible := clear c List.mem_cons_self
      obtain ⟨noPipe, noQuote, noEscape⟩ := legible.special
      rw [spell_raw_cons, List.cons_append, lexFrom]
      simp only [noPipe, noQuote, noEscape, legible.space, false_or, Bool.false_eq_true, and_false, ↓reduceIte,
        Option.getD_some, Open.push, Option.isNone_none]
      rw [ih clear.tail]
      simp only [layout, width, List.append_assoc, List.map_cons, List.sum_cons, Glyph.width, Nat.add_assoc]
    | esc b =>
      obtain ⟨high, low⟩ := hex_nibbles b
      have written : spell (.esc b :: glyphs) ++ tail = '\\' :: 'x' :: hexLower.getD (b >>> 4).toNat '0' ::
          hexLower.getD (b &&& 0x0F).toNat '0' :: (spell glyphs ++ tail) := rfl
      have space : isWhitespace '\\' = false := by decide
      rw [written, lexFrom]
      simp only [Char.reduceEq, space, false_or, Bool.false_eq_true, and_false, ↓reduceIte, Option.getD_some,
        Open.push, high, low, VPathCodec.nibbles_join]
      rw [ih clear.tail]
      simp only [layout, width, List.append_assoc, List.singleton_append, List.map_cons, List.sum_cons,
        Glyph.width, Nat.add_assoc]

/-! What the parser makes of its pieces. -/

theorem decodeChar_take {bytes : Bytes} {n : Nat} {s : Str} {c : Char}
    (decoded : fromUtf8 (bytes.take n) = some s) (first : s.head? = some c) : decodeChar bytes = some c := by
  cases s with
  | nil => cases first
  | cons d s =>
    obtain rfl := Option.some.inj first
    rw [← List.take_append_drop n bytes, ← fromUtf8_eq_some decoded, encode_cons, List.append_assoc,
      decodeChar_encodeChar]

/-- A format character is found where the pieces start with its lead byte, typed plain. -/
theorem formatLen_ne_zero {pieces : List Piece} (found : formatLen pieces ≠ 0) :
    ∃ p rest c, pieces = p :: rest ∧ p.plain ∧ leadLength p.byte ≠ 0 ∧
      decodeChar (bytes pieces) = some c ∧ isFormat c := by
  cases pieces with
  | nil => simp [formatLen] at found
  | cons p rest =>
    simp only [formatLen, List.head?_cons, Option.map_some, Option.getD_some, ite_ne_right_iff,
      Bool.and_eq_true, Option.any_eq_true] at found
    obtain ⟨⟨⟨_, plain⟩, c, head, format⟩, lead⟩ := found
    obtain ⟨s, decoded, first⟩ := Option.bind_eq_some_iff.mp head
    obtain ⟨n, length⟩ := Nat.exists_eq_succ_of_ne_zero lead
    refine ⟨p, rest, c, rfl, ?_, lead, ?_, format⟩
    · rw [length, List.take_succ_cons, List.all_cons, Bool.and_eq_true] at plain
      exact plain.1
    · rw [bytes, List.map_take] at decoded
      exact decodeChar_take decoded first

theorem stripFrom_quiet (fuel : Nat) (kept : List Piece) {pieces : List Piece}
    (quiet : ∀ rest, rest <:+ pieces → formatLen rest = 0) : (stripFrom fuel kept none pieces).2 = none := by
  induction fuel generalizing kept pieces with
  | zero => rfl
  | succ fuel ih =>
    cases pieces with
    | nil => rfl
    | cons p rest =>
      rw [stripFrom]
      simp only [quiet _ (List.suffix_refl _), decide_true, Bool.true_or, ↓reduceIte]
      exact ih _ fun tail suffix => quiet tail (suffix.trans (List.suffix_cons p rest))

@[simp] theorem bytes_append (first second : List Piece) : bytes (first ++ second) = bytes first ++ bytes second :=
  List.map_append

@[simp] theorem bytes_piecesFrom (plain : Bool) (i : Nat) (run : Bytes) : bytes (piecesFrom plain i run) = run := by
  induction run generalizing i with
  | nil => rfl
  | cons b run ih => rw [piecesFrom, bytes, List.map_cons]; exact congrArg (b :: ·) (ih _)

@[simp] theorem bytes_layout (i : Nat) (glyphs : List Glyph) : bytes (layout i glyphs) = glyphBytes glyphs := by
  induction glyphs generalizing i with
  | nil => rfl
  | cons g glyphs ih =>
    cases g with
    | raw c => rw [layout, bytes_append, bytes_piecesFrom, ih]; rfl
    | esc b => rw [layout, bytes, List.map_cons]; exact congrArg (b :: ·) (ih _)

/-- Only the first byte of a character is a lead byte. -/
theorem leadLength_tail {c : Char} {b : UInt8} (later : b ∈ (String.utf8EncodeChar c).tail) : leadLength b = 0 := by
  have continuation (n : Nat) : leadLength (UInt8.ofNat (n % 64 + 128)) = 0 := by
    have all : ∀ m < 64, leadLength (UInt8.ofNat (m + 128)) = 0 := by decide
    exact all _ (Nat.mod_lt _ (by decide))
  simp only [String.utf8EncodeChar] at later
  split at later
  · cases later
  split at later
  · obtain rfl := List.mem_singleton.mp later
    exact continuation _
  split at later
  · simp only [List.tail_cons, List.mem_cons, List.not_mem_nil, or_false] at later
    rcases later with rfl | rfl <;> exact continuation _
  · simp only [List.tail_cons, List.mem_cons, List.not_mem_nil, or_false] at later
    rcases later with rfl | rfl | rfl <;> exact continuation _

/-- A suffix of a character's pieces and more starts in the middle of it, or has passed it. -/
theorem formatLen_middle {i : Nat} {run : Bytes} {more rest : List Piece}
    (low : ∀ b ∈ run, leadLength b = 0) (quiet : ∀ rest, rest <:+ more → formatLen rest = 0)
    (suffix : rest <:+ piecesFrom true i run ++ more) : formatLen rest = 0 := by
  induction run generalizing i with
  | nil => exact quiet rest suffix
  | cons b run ih =>
    rcases List.suffix_cons_iff.mp suffix with here | later
    · by_contra found
      obtain ⟨p, tail, _, split, _, lead, _⟩ := formatLen_ne_zero found
      rw [split] at here
      obtain ⟨rfl, _⟩ := List.cons.inj here
      exact lead (low b List.mem_cons_self)
    · exact ih (fun d member => low d (List.mem_cons_of_mem _ member)) later

theorem formatLen_layout {glyphs : List Glyph} (clear : Clear false glyphs) (i : Nat) :
    ∀ rest, rest <:+ layout i glyphs → formatLen rest = 0 := by
  induction glyphs generalizing i with
  | nil =>
    intro rest suffix
    rw [List.suffix_nil.mp suffix]
    rfl
  | cons g glyphs ih =>
    intro rest suffix
    by_contra found
    obtain ⟨p, tail, d, split, plain, lead, decoded, format⟩ := formatLen_ne_zero found
    cases g with
    | raw c =>
      have tails := @leadLength_tail c
      have whole := decodeChar_encodeChar c (bytes (layout (i + c.utf8Size) glyphs))
      rw [layout] at suffix
      cases spelled : String.utf8EncodeChar c with
      | nil => exact absurd spelled (by simp)
      | cons b run =>
        rw [spelled] at tails whole suffix
        rcases List.suffix_cons_iff.mp suffix with here | later
        · have same : bytes rest = b :: run ++ bytes (layout (i + c.utf8Size) glyphs) := by
            rw [here]
            exact (bytes_append _ _).trans (congrArg (· ++ _) (bytes_piecesFrom true i (b :: run)))
          rw [same, whole] at decoded
          obtain rfl := Option.some.inj decoded
          exact (clear c List.mem_cons_self).visible format
        · exact found (formatLen_middle (fun b member => tails member) (ih clear.tail _) later)
    | esc b =>
      rcases List.suffix_cons_iff.mp suffix with here | later
      · rw [split] at here
        obtain ⟨rfl, _⟩ := List.cons.inj here
        cases plain
      · exact found (ih clear.tail _ rest later)

/-- The invisible character refused nowhere: the printer writes none. -/
theorem noInvisible_layout {glyphs : List Glyph} (clear : Clear false glyphs) (i : Nat)
    (disguised : List Piece → Bool) : noInvisible (layout i glyphs) disguised = .ok () := by
  have quiet := stripFrom_quiet (layout i glyphs).length [] (formatLen_layout clear i)
  rw [noInvisible, stripFormat]
  generalize stripFrom (layout i glyphs).length [] none (layout i glyphs) = p at quiet
  obtain ⟨kept, first⟩ := p
  obtain rfl := quiet
  rfl

end Norte.Orders
