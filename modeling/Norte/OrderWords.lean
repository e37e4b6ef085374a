import Norte.OrderEscape

/-! Printed words in a printed line. A run of pieces that spells clear glyphs shows the
parser the keywords written in them, and no others. -/
namespace Norte.Orders

open Utf8

/-- The pieces come from these glyphs, wherever in the line. -/
def Spells (pieces : List Piece) (glyphs : List Glyph) : Prop := ∃ i, pieces = layout i glyphs

theorem layout_append (i : Nat) (first second : List Glyph) :
    layout i (first ++ second) = layout i first ++ layout (i + width first) second := by
  induction first generalizing i with
  | nil => simp [layout, width]
  | cons g first ih =>
    cases g <;> simp [layout, ih, width, Glyph.width, Nat.add_assoc]

theorem piecesFrom_plain (plain : Bool) (i : Nat) (run : Bytes) :
    ∀ p ∈ piecesFrom plain i run, p.plain = plain := by
  induction run generalizing i with
  | nil => simp [piecesFrom]
  | cons b run ih =>
    intro p member
    rcases List.mem_cons.mp member with rfl | later
    · rfl
    · exact ih (i + 1) p later

theorem layout_eq_nil {i : Nat} {glyphs : List Glyph} : layout i glyphs = [] ↔ glyphs = [] := by
  constructor
  · intro empty
    cases glyphs with
    | nil => rfl
    | cons g glyphs =>
      have none := congrArg bytes empty
      rw [bytes_layout, glyphBytes_cons] at none
      cases g <;> simp [Glyph.bytes, bytes] at none
  · rintro rfl
    rfl

def isAscii (s : Str) : Bool := s.all fun c => c.toNat < 128

namespace Spells

variable {pieces : List Piece} {glyphs : List Glyph}

theorem bytes_eq (spells : Spells pieces glyphs) : bytes pieces = glyphBytes glyphs := by
  obtain ⟨i, rfl⟩ := spells
  exact bytes_layout i glyphs

theorem eq_nil (spells : Spells pieces glyphs) : pieces = [] ↔ glyphs = [] := by
  obtain ⟨i, rfl⟩ := spells
  exact layout_eq_nil

theorem isEmpty_eq (spells : Spells pieces glyphs) : pieces.isEmpty = glyphs.isEmpty := by
  rw [Bool.eq_iff_iff, List.isEmpty_iff, List.isEmpty_iff]
  exact spells.eq_nil

theorem noInvisible (spells : Spells pieces glyphs) (clear : Clear false glyphs)
    (disguised : List Piece → Bool) : noInvisible pieces disguised = .ok () := by
  obtain ⟨i, rfl⟩ := spells
  exact noInvisible_layout clear i disguised

theorem drop {k : Str} {rest : List Glyph} (spells : Spells pieces (raws k ++ rest)) :
    Spells (pieces.drop (encode k).length) rest := by
  obtain ⟨i, rfl⟩ := spells
  have length : (layout i (raws k)).length = (encode k).length := by
    have := congrArg List.length (bytes_layout i (raws k))
    rwa [bytes, List.length_map, glyphBytes_raws] at this
  refine ⟨i + width (raws k), ?_⟩
  rw [layout_append, ← length, List.drop_left]

/-- The pieces start with a keyword exactly when it was written there raw. -/
theorem plainPrefix {k : Str} (low : isAscii k) (spells : Spells pieces glyphs) :
    plainPrefix pieces (encode k) ↔ ∃ rest, glyphs = raws k ++ rest := by
  obtain ⟨i, rfl⟩ := spells
  induction k generalizing glyphs i with
  | nil => simp [Orders.plainPrefix, raws]
  | cons c k ih =>
    rw [isAscii, List.all_cons, Bool.and_eq_true, decide_eq_true_eq] at low
    obtain ⟨small, low⟩ := low
    rw [encode_cons, encodeChar_ascii c small, List.singleton_append]
    cases glyphs with
    | nil => simp [layout, Orders.plainPrefix, raws]
    | cons g glyphs =>
      cases g with
      | raw d =>
        have onlyOwn : UInt8.ofNat c.toNat ∈ (String.utf8EncodeChar d).head? → d = c := by
          intro first
          have value : (UInt8.ofNat c.toNat).toNat = c.toNat := by simp; omega
          have same := (encodeChar_byte_lt (List.mem_of_mem_head? first)
            (by rw [UInt8.lt_iff_toNat_lt, value]; exact small)).2
          rw [value] at same
          exact Char.toNat_inj.mp same
        constructor
        · intro starts
          cases spelled : String.utf8EncodeChar d with
          | nil => exact absurd spelled (by simp)
          | cons b run =>
            rw [layout, spelled, piecesFrom, List.cons_append, Orders.plainPrefix] at starts
            simp only [Bool.true_and, Bool.and_eq_true, decide_eq_true_eq] at starts
            obtain ⟨first, later⟩ := starts
            obtain rfl : d = c := onlyOwn (by rw [spelled, List.head?_cons, first]; rfl)
            rw [encodeChar_ascii d small] at spelled
            obtain ⟨_, rfl⟩ := List.cons.inj spelled
            obtain ⟨rest, rfl⟩ := (ih low _).mp later
            exact ⟨rest, rfl⟩
        · rintro ⟨rest, split⟩
          obtain ⟨own, rfl⟩ := List.cons.inj split
          obtain rfl := Glyph.raw.inj own
          rw [layout, encodeChar_ascii d small, piecesFrom, List.cons_append,
            Orders.plainPrefix]
          simp only [Bool.true_and, decide_true]
          exact (ih low _).mpr ⟨rest, rfl⟩
      | esc b => simp [layout, Orders.plainPrefix, raws]

theorem plainEq {k : Str} (low : isAscii k) (spells : Spells pieces glyphs) :
    plainEq pieces (encode k) ↔ glyphs = raws k := by
  have length : pieces.length = (glyphBytes glyphs).length := by
    rw [← spells.bytes_eq, bytes, List.length_map]
  rw [Orders.plainEq, Bool.and_eq_true, decide_eq_true_eq, spells.plainPrefix low, length]
  constructor
  · rintro ⟨short, rest, rfl⟩
    rw [glyphBytes_append, glyphBytes_raws, List.length_append, Nat.add_eq_left] at short
    have none : glyphBytes rest = [] := List.eq_nil_of_length_eq_zero short
    have spelled : layout 0 rest = [] := List.map_eq_nil_iff.mp ((bytes_layout 0 rest).trans none)
    rw [layout_eq_nil.mp spelled, List.append_nil]
  · rintro rfl
    exact ⟨congrArg List.length (glyphBytes_raws k), [], (List.append_nil _).symm⟩

theorem plainText {s : Str} (spells : Spells pieces (raws s)) : plainText pieces = some s := by
  have allPlain : pieces.all Piece.plain := by
    obtain ⟨i, rfl⟩ := spells
    induction s generalizing i with
    | nil => rfl
    | cons c s ih =>
      rw [raws, List.map_cons, layout, List.all_append, ← raws, ih, Bool.and_true, List.all_eq_true]
      exact piecesFrom_plain true i _
  rw [Orders.plainText, if_pos allPlain, spells.bytes_eq, glyphBytes_raws, fromUtf8_encode]

end Spells

/-! Printed lines. -/

/-- Words with a space before each. -/
def spaced (words : List (List Glyph)) : Str := words.flatMap fun glyphs => ' ' :: spell glyphs

/-- A word the printer writes: something, and legible. -/
def Written (glyphs : List Glyph) : Prop := glyphs ≠ [] ∧ Clear false glyphs

/-- What follows a word: the end of the line, or a space. -/
def Ends (tail : Str) : Prop := tail = [] ∨ ∃ rest, tail = ' ' :: rest

theorem ends_spaced (words : List (List Glyph)) {tail : Str} (ends : Ends tail) : Ends (spaced words ++ tail) := by
  cases words with
  | nil => exact ends
  | cons glyphs words => exact .inr ⟨spell glyphs ++ spaced words ++ tail, by simp [spaced]⟩

theorem lexFrom_space (i : Nat) (rest : Str) : lexFrom none i (' ' :: rest) = lexFrom none (i + 1) rest := by
  have space : isWhitespace ' ' := by decide
  rw [lexFrom, if_pos ⟨rfl, .inr space⟩]
  rfl

theorem lexFrom_pipe (i : Nat) (rest : Str) : lexFrom none i (" | ".toList ++ rest) =
    (.pipe (i + 1) :: (lexFrom none (i + 3) rest).1, (lexFrom none (i + 3) rest).2) := by
  have split : " | ".toList ++ rest = ' ' :: '|' :: ' ' :: rest := rfl
  rw [split, lexFrom_space, lexFrom, if_pos ⟨rfl, .inl rfl⟩]
  have size : (i + 1) + '|'.utf8Size = i + 2 := rfl
  rw [size, lexFrom_space]
  rfl

/-- A character of a word begins one. -/
theorem lexFrom_begin {c : Char} (space : ¬isWhitespace c) (pipe : c ≠ '|') (i : Nat) (rest : Str) :
    lexFrom none i (c :: rest) = lexFrom (some ⟨i, [], none⟩) i (c :: rest) := by
  have other (open_ : Bool) : ¬(open_ = true ∧ (c = '|' ∨ isWhitespace c = true)) := by
    rintro ⟨_, stop | stop⟩
    · exact pipe stop
    · exact space stop
  rw [lexFrom, lexFrom, if_neg (other _), if_neg (other _)]
  rfl

theorem lexFrom_close (start i : Nat) (pieces : List Piece) {tail : Str} (ends : Ends tail) :
    lexFrom (some ⟨start, pieces, none⟩) i tail =
      (.word ⟨start, i, pieces⟩ :: (lexFrom none i tail).1, (lexFrom none i tail).2) := by
  rcases ends with rfl | ⟨rest, rfl⟩
  · rfl
  · have space : isWhitespace ' ' := by decide
    rw [lexFrom_space, lexFrom, if_pos ⟨rfl, .inr space⟩]
    rfl

theorem lexFrom_word {glyphs : List Glyph} (written : Written glyphs) (i : Nat) {tail : Str} (ends : Ends tail) :
    ∃ stop, lexFrom none i (spell glyphs ++ tail) =
      (.word ⟨i, stop, layout i glyphs⟩ :: (lexFrom none stop tail).1, (lexFrom none stop tail).2) := by
  obtain ⟨some_, clear⟩ := written
  refine ⟨i + width glyphs, ?_⟩
  have begun : lexFrom none i (spell glyphs ++ tail) =
      lexFrom (some ⟨i, [], none⟩) i (spell glyphs ++ tail) := by
    cases glyphs with
    | nil => exact absurd rfl some_
    | cons g glyphs =>
      cases g with
      | raw c =>
        have legible := clear c List.mem_cons_self
        exact lexFrom_begin legible.space legible.special.1 i _
      | esc b => exact lexFrom_begin (by decide) (by decide) i _
  rw [begun, lexFrom_spell clear, List.nil_append, lexFrom_close _ _ _ ends]

/-- A word of the line against the glyphs it was printed from. -/
def Printed (w : Word) (glyphs : List Glyph) : Prop := Spells w.pieces glyphs

theorem lexFrom_words {first : List Glyph} {more : List (List Glyph)} (written : Written first)
    (written' : ∀ glyphs ∈ more, Written glyphs) (i : Nat) {tail : Str} (ends : Ends tail) :
    ∃ words stop, List.Forall₂ Printed words (first :: more) ∧
      lexFrom none i (spell first ++ spaced more ++ tail) =
        (words.map .word ++ (lexFrom none stop tail).1, (lexFrom none stop tail).2) := by
  induction more generalizing first i with
  | nil =>
    obtain ⟨stop, lexed⟩ := lexFrom_word written i ends
    refine ⟨[⟨i, stop, layout i first⟩], stop, .cons ⟨i, rfl⟩ .nil, ?_⟩
    rw [spaced, List.flatMap_nil, List.append_nil, lexed]
    rfl
  | cons second more ih =>
    obtain ⟨stop, lexed⟩ := lexFrom_word written i (ends_spaced (second :: more) ends)
    obtain ⟨words, stop', printed, lexed'⟩ := ih (written' second List.mem_cons_self)
      (fun glyphs member => written' glyphs (List.mem_cons_of_mem _ member)) (stop + 1)
    refine ⟨⟨i, stop, layout i first⟩ :: words, stop', .cons ⟨i, rfl⟩ printed, ?_⟩
    have split : spaced (second :: more) ++ tail = ' ' :: (spell second ++ spaced more ++ tail) := by
      simp [spaced]
    rw [List.append_assoc, lexed, split, lexFrom_space, lexed']
    rfl

/-- A stage as its verb and its arguments. -/
structure Phrase where
  verb : List Glyph
  args : List (List Glyph)

def Phrase.str (p : Phrase) : Str := spell p.verb ++ spaced p.args

def Phrase.Written (p : Phrase) : Prop := Orders.Written p.verb ∧ ∀ glyphs ∈ p.args, Orders.Written glyphs

def Phrase.Printed (words : List Word) (p : Phrase) : Prop := List.Forall₂ Orders.Printed words (p.verb :: p.args)

theorem segments_words (words : List Word) : segments (words.map .word) = [words] := by
  induction words with
  | nil => rfl
  | cons w words ih => rw [List.map_cons, segments, ih]

theorem segments_pipe (words : List Word) (i : Nat) (toks : List Tok) :
    segments (words.map .word ++ .pipe i :: toks) = words :: segments toks := by
  induction words with
  | nil => rfl
  | cons w words ih => rw [List.map_cons, List.cons_append, segments, ih]

/-- A printed line is lexed without error, into the words of its stages. -/
theorem lexFrom_line {first : Phrase} {more : List Phrase} (written : first.Written)
    (written' : ∀ p ∈ more, p.Written) (i : Nat) :
    ∃ toks, lexFrom none i (" | ".toList.intercalate ((first :: more).map Phrase.str)) = (toks, none) ∧
      List.Forall₂ Phrase.Printed (segments toks) (first :: more) := by
  induction more generalizing first i with
  | nil =>
    obtain ⟨words, stop, printed, lexed⟩ := lexFrom_words written.1 written.2 i (.inl (rfl : ([] : Str) = []))
    rw [List.append_nil] at lexed
    refine ⟨words.map .word, ?_, ?_⟩
    · rw [List.map_cons, List.map_nil, List.intercalate_singleton, Phrase.str, lexed, lexFrom, List.append_nil]
    · rw [segments_words]
      exact .cons printed .nil
  | cons second more ih =>
    have spread : " | ".toList.intercalate ((first :: second :: more).map Phrase.str) =
        spell first.verb ++ spaced first.args ++
          (" | ".toList ++ " | ".toList.intercalate ((second :: more).map Phrase.str)) := by
      simp [Phrase.str, List.intercalate]
    have ends : Ends (" | ".toList ++ " | ".toList.intercalate ((second :: more).map Phrase.str)) := .inr ⟨_, rfl⟩
    obtain ⟨words, stop, printed, lexed⟩ := lexFrom_words written.1 written.2 i ends
    obtain ⟨toks, lexed', printed'⟩ := ih (written' second List.mem_cons_self)
      (fun p member => written' p (List.mem_cons_of_mem _ member)) (stop + 3)
    refine ⟨words.map .word ++ .pipe (stop + 1) :: toks, ?_, ?_⟩
    · rw [spread, lexed, lexFrom_pipe, lexed']
    · rw [segments_pipe]
      exact .cons printed printed'

end Norte.Orders
