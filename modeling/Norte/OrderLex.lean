import Mathlib.Algebra.Ring.Nat
import Norte.Utf8

/-! Words, pipes and the byte escape of an order line. Every byte of a word remembers
whether it was typed plain; only plain bytes can be syntax. -/
namespace Norte.Orders

open Utf8

/-- The bytes of a keyword. -/
def ascii (s : String) : Bytes := encode s.toList

inductive ParseErrorKind where
  | empty
  | unknownVerb
  | notYet
  | standsAlone
  | badTerm
  | badNumber
  | badEscape
  | missingDest
  | missingArg
  | unterminated
  | invisibleChar
  deriving DecidableEq, Repr

structure ParseError where
  offset : Nat
  kind : ParseErrorKind
  deriving DecidableEq, Repr

structure Piece where
  byte : UInt8
  plain : Bool
  offset : Nat
  deriving DecidableEq, Repr

structure Word where
  start : Nat
  stop : Nat
  pieces : List Piece
  deriving DecidableEq, Repr

inductive Tok where
  | word (w : Word)
  | pipe (offset : Nat)
  deriving DecidableEq, Repr

/-- `char::is_whitespace`, the property `White_Space`. -/
def isWhitespace (c : Char) : Bool :=
  let n := c.toNat
  (9 ≤ n && n ≤ 13) || n = 0x20 || n = 0x85 || n = 0xA0 || n = 0x1680 || (0x2000 ≤ n && n ≤ 0x200A) ||
    n = 0x2028 || n = 0x2029 || n = 0x202F || n = 0x205F || n = 0x3000

def hex (c : Char) : Option UInt8 :=
  if '0' ≤ c ∧ c ≤ '9' then some (c.toUInt8 - '0'.toUInt8)
  else if 'a' ≤ c ∧ c ≤ 'f' then some (c.toUInt8 - 'a'.toUInt8 + 10)
  else if 'A' ≤ c ∧ c ≤ 'F' then some (c.toUInt8 - 'A'.toUInt8 + 10)
  else none

/-- The pieces of a character that stands for itself, one for each of its bytes. -/
def piecesFrom (plain : Bool) : Nat → Bytes → List Piece
  | _, [] => []
  | i, b :: bytes => ⟨b, plain, i⟩ :: piecesFrom plain (i + 1) bytes

/-- A word that has begun: where, what it holds so far, and its open quote. -/
structure Open where
  start : Nat
  pieces : List Piece
  quote : Option Nat

def Open.push (w : Open) (pieces : List Piece) : Open := { w with pieces := w.pieces ++ pieces }

def Open.close (w : Open) (stop : Nat) : Tok := .word ⟨w.start, stop, w.pieces⟩

/-- The lexer, one character after the other; the tokens before an error survive. -/
def lexFrom : Option Open → Nat → Str → List Tok × Option ParseError
  | none, _, [] => ([], none)
  | some w, i, [] => match w.quote with
    | some q => ([], some ⟨q, .unterminated⟩)
    | none => ([w.close i], none)
  | word, i, c :: rest =>
    if (word.bind Open.quote).isNone ∧ (c = '|' ∨ isWhitespace c) then
      let (toks, error) := lexFrom none (i + c.utf8Size) rest
      ((word.map fun w => w.close i).toList ++ (if c = '|' then [.pipe i] else []) ++ toks, error)
    else
      let w := word.getD ⟨i, [], none⟩
      if c = '\'' then
        lexFrom (some { w with quote := if w.quote.isSome then none else some i }) (i + 1) rest
      else if c = '\\' then
        match rest with
        | [] => ([], some ⟨i, .badEscape⟩)
        | d :: rest =>
          if d = 'x' then
            match rest with
            | h :: l :: rest => match hex h, hex l with
              | some hi, some lo => lexFrom (some (w.push [⟨hi <<< 4 ||| lo, false, i⟩])) (i + 4) rest
              | _, _ => ([], some ⟨i, .badEscape⟩)
            | _ => ([], some ⟨i, .badEscape⟩)
          else if d ∈ ['\\', ' ', '|', '\''] then
            lexFrom (some (w.push [⟨d.toUInt8, false, i⟩])) (i + 2) rest
          else ([], some ⟨i, .badEscape⟩)
      else
        lexFrom (some (w.push (piecesFrom w.quote.isNone i (String.utf8EncodeChar c)))) (i + c.utf8Size) rest

def lex (line : Str) : List Tok × Option ParseError := lexFrom none 0 line

/-! Runs of pieces. -/

def bytes (pieces : List Piece) : Bytes := pieces.map Piece.byte

def plainPrefix : List Piece → Bytes → Bool
  | _, [] => true
  | [], _ :: _ => false
  | p :: pieces, b :: word => p.plain && p.byte = b && plainPrefix pieces word

def plainEq (pieces : List Piece) (word : Bytes) : Bool :=
  pieces.length = word.length && plainPrefix pieces word

/-- The text of a run that was typed plain, if it is text. -/
def plainText (pieces : List Piece) : Option Str :=
  if pieces.all Piece.plain then fromUtf8 (bytes pieces) else none

/-! Characters drawn as nothing. -/

def inRanges (ranges : List (Nat × Nat)) (c : Char) : Bool :=
  ranges.any fun r => r.1 ≤ c.toNat && c.toNat ≤ r.2

def formatChars : List (Nat × Nat) :=
  [(0x00AD, 0x00AD), (0x0600, 0x0605), (0x061C, 0x061C), (0x06DD, 0x06DD), (0x070F, 0x070F),
    (0x0890, 0x0891), (0x08E2, 0x08E2), (0x180E, 0x180E), (0x200B, 0x200F), (0x202A, 0x202E),
    (0x2060, 0x2064), (0x2066, 0x206F), (0xFEFF, 0xFEFF), (0xFFF9, 0xFFFB), (0x110BD, 0x110BD),
    (0x110CD, 0x110CD), (0x13430, 0x1343F), (0x1BCA0, 0x1BCA3), (0x1D173, 0x1D17A),
    (0xE0001, 0xE0001), (0xE0020, 0xE007F)]

/-- Hangul fillers. -/
def invisibleLetters : List (Nat × Nat) :=
  [(0x115F, 0x115F), (0x1160, 0x1160), (0x3164, 0x3164), (0xFFA0, 0xFFA0)]

def invisibleMarks : List (Nat × Nat) :=
  [(0x034F, 0x034F), (0x17B4, 0x17B5), (0x180B, 0x180F), (0xFE00, 0xFE0F), (0xE0100, 0xE01EF)]

def isFormat (c : Char) : Bool :=
  inRanges formatChars c || inRanges invisibleLetters c || inRanges invisibleMarks c

def leadLength (b : UInt8) : Nat :=
  if 0xC0 ≤ b ∧ b ≤ 0xDF then 2
  else if 0xE0 ≤ b ∧ b ≤ 0xEF then 3
  else if 0xF0 ≤ b ∧ b ≤ 0xF7 then 4
  else 0

/-- The plain format character that the pieces start with, as its piece count. -/
def formatLen (pieces : List Piece) : Nat :=
  let n := (pieces.head?.map fun p => leadLength p.byte).getD 0
  let run := pieces.take n
  if n ≤ pieces.length && run.all Piece.plain && ((fromUtf8 (bytes run)).bind List.head?).any isFormat
  then n else 0

/-- A variation selector or the zero-width joiner. -/
def joinsEmoji (run : List Piece) : Bool :=
  ((fromUtf8 (bytes run)).bind List.head?).any fun c =>
    inRanges [(0x200D, 0x200D), (0xFE00, 0xFE0F), (0xE0100, 0xE01EF)] c

def stripFrom : Nat → List Piece → Option Nat → List Piece → List Piece × Option Nat
  | 0, kept, first, _ => (kept, first)
  | _ + 1, kept, first, [] => (kept, first)
  | fuel + 1, kept, first, p :: rest =>
    let n := formatLen (p :: rest)
    -- part of an emoji, not a disguise
    let joined := kept.getLast?.any (fun k => 0x80 ≤ k.byte) && joinsEmoji ((p :: rest).take n)
    if n = 0 || joined then stripFrom fuel (kept ++ [p]) first rest
    else stripFrom fuel kept (first <|> some p.offset) ((p :: rest).drop n)

/-- The pieces without the invisible characters typed plain, and where the first of these
was; nothing if there were none. Every round drops a piece, so the length is fuel enough. -/
def stripFormat (pieces : List Piece) : Option (List Piece × Nat) :=
  let (kept, first) := stripFrom pieces.length [] none pieces
  first.map fun i => (kept, i)

example : stripFormat (piecesFrom true 0 (encode ['o', Char.ofNat 0x200B, 'k'])) =
    some ([⟨0x6f, true, 0⟩, ⟨0x6b, true, 4⟩], 1) := by decide +kernel

end Norte.Orders
