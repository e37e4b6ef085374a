import Norte.OrderParse

/-! From an order back to a line that parses to it. -/
namespace Norte.Orders

open Utf8

/-- What the printer asks of the character tables it links. Spaces and characters drawn as
nothing are neither letters nor marks, but for the invisible letters, which are letters,
and the invisible marks. -/
structure Unicode where
  isAlphanumeric : Char → Bool
  isCombiningMark : Char → Bool
  spaces : ∀ c, isWhitespace c → ¬isAlphanumeric c ∧ ¬isCombiningMark c
  formats : ∀ c, inRanges formatChars c → ¬isAlphanumeric c ∧ ¬isCombiningMark c
  letters : ∀ c, inRanges invisibleLetters c → ¬isCombiningMark c
  marks : ∀ c, inRanges invisibleMarks c → isAlphanumeric c → isCombiningMark c

/-- What is pushed for a byte string: a character as it is, or a byte as `\xHH`. -/
inductive Glyph where
  | raw (c : Char)
  | esc (b : UInt8)
  deriving DecidableEq, Repr

def hexLower : Str := "0123456789abcdef".toList

def Glyph.str : Glyph → Str
  | raw c => [c]
  | esc b => ['\\', 'x', hexLower.getD (b >>> 4).toNat '0', hexLower.getD (b &&& 0x0F).toNat '0']

def spell (glyphs : List Glyph) : Str := glyphs.flatMap Glyph.str

section Escape

variable (unicode : Unicode)

def maxMarks : Nat := 4

def isGraphic (c : Char) : Bool := 0x21 ≤ c.toNat && c.toNat ≤ 0x7E

def safe (c : Char) (comma : Bool) (marksLeft : Nat) : Bool :=
  if c.toNat < 128 then isGraphic c && c ∉ ['|', '\'', '\\'] && !(comma && c = ',')
  else if unicode.isCombiningMark c then 0 < marksLeft && !inRanges invisibleMarks c
  else unicode.isAlphanumeric c && !inRanges invisibleLetters c

/-- The marks that may still stack after the raw character `c`. -/
def marksAfter (c : Char) (marksLeft : Nat) : Nat :=
  if unicode.isCombiningMark c then marksLeft - 1
  else if unicode.isAlphanumeric c then maxMarks
  else 0

def escapeValid (comma : Bool) : Nat → Str → List Glyph × Nat
  | marksLeft, [] => ([], marksLeft)
  | marksLeft, c :: valid =>
    if safe unicode c comma marksLeft then
      let (glyphs, marksLeft) := escapeValid comma (marksAfter unicode c marksLeft) valid
      (.raw c :: glyphs, marksLeft)
    else
      let (glyphs, marksLeft) := escapeValid comma 0 valid
      ((String.utf8EncodeChar c).map .esc ++ glyphs, marksLeft)

def escapeChunks (comma : Bool) : Nat → List Chunk → List Glyph
  | _, [] => []
  | marksLeft, chunk :: chunks =>
    let (glyphs, marksLeft) := escapeValid unicode comma marksLeft chunk.valid
    glyphs ++ chunk.invalid.map .esc ++
      escapeChunks comma (if chunk.invalid.isEmpty then marksLeft else 0) chunks

def glyphs (bytes : Bytes) (comma : Bool) : List Glyph := escapeChunks unicode comma 0 (utf8Chunks bytes)

def escape (bytes : Bytes) (comma : Bool) : Str := spell (glyphs unicode bytes comma)

end Escape

section Print

variable (unicode : Unicode)

def word (name : Bytes) : Str := if name.isEmpty then "''".toList else escape unicode name false

/-- A folder called `other` or `here` has its first byte escaped. -/
def printDest : Dest → Str
  | .other => "other".toList
  | .here => "here".toList
  | .path p =>
    if p = ascii "other" ∨ p = ascii "here" then
      Glyph.str (.esc (p.headD 0)) ++ escape unicode p.tail false
    else escape unicode p false

def startsWith (head : String) (s : Str) : Bool := head.toList.isPrefixOf s

/-- Whether a bare glob, escaped, would parse as something else. -/
def readsAsSyntax (e : Str) : Bool :=
  let keyed (k : String) := startsWith k e && ((e.drop k.length).head?.any (· ∈ ['<', '>', '=']))
  startsWith "!" e || startsWith "ext:" e || startsWith "name:" e || startsWith "name=" e ||
    startsWith "type:" e || keyed "size" || keyed "age"

def digits (n : Nat) : Str := Nat.toDigits 10 n

/-- The largest unit that divides `n`, and `n` in it. -/
def inUnit (units : List (Char × Nat)) (n : Nat) : Option Str :=
  (units.reverse.find? fun unit => n ≠ 0 && n % unit.2 = 0).map fun unit => digits (n / unit.2) ++ [unit.1]

def size (n : Nat) : Str := (inUnit unitsSize n).getD (digits n)

def age (n : Nat) : Str := (inUnit unitsAge n).getD (digits n ++ ['s'])

def Cmp.asStr : Cmp → Str
  | lt => "<".toList
  | le => "<=".toList
  | gt => ">".toList
  | ge => ">=".toList
  | eq => "=".toList

def KindSel.asStr : KindSel → Str
  | file => "type:file".toList
  | dir => "type:dir".toList
  | link => "type:link".toList

def printPred : Pred → Str
  | .ext list => "ext:".toList ++ [','].intercalate (list.map fun e => escape unicode e true)
  | .name n =>
    let e := escape unicode n false
    (if e.isEmpty || readsAsSyntax e then "name:".toList else []) ++ e
  | .literal n => "name=".toList ++ escape unicode n false
  | .size cmp n => "size".toList ++ cmp.asStr ++ size n
  | .age cmp n => "age".toList ++ cmp.asStr ++ age n
  | .kind k => k.asStr

def printTerm (t : Term) : Str := (if t.negated then ['!'] else []) ++ printPred unicode t.pred

def printCount (verb : String) : Option Nat → Str
  | none => verb.toList
  | some n => verb.toList ++ ' ' :: digits n

def printStage : Stage → Str
  | .sel q => "sel".toList ++ q.terms.flatMap fun t => ' ' :: printTerm unicode t
  | .cp d => "cp >".toList ++ printDest unicode d
  | .mv d => "mv >".toList ++ printDest unicode d
  | .trash => "trash".toList
  | .mkdir n => "mkdir ".toList ++ word unicode n
  | .cd n => "cd ".toList ++ word unicode n
  | .log n => printCount "log" n
  | .undo n => printCount "undo" n
  | .catalogue id => if isCatalogueId id then id else word unicode (encode id)

def print (o : Order) : Str := " | ".toList.intercalate (o.stages.map (printStage unicode))

def escapeName (name : Bytes) : Str := word unicode name

def escapeDest (path : Bytes) : Str := printDest unicode (.path path)

def globBytes : Bytes := ascii "*?[]\x7b\x7d\\"

/-- A glob where the name has no glob character nor the escape of the matcher. -/
def nameTerm (name : Bytes) (literal : Bool) : Str :=
  printTerm unicode
    ⟨false, if literal || name.any (· ∈ globBytes) then .literal name else .name name⟩

end Print
end Norte.Orders
