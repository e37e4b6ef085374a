import Norte.OrderLex

/-! From a line to an order, or to the byte where it stops making sense. Names, globs and
paths are bytes. -/
namespace Norte.Orders

open Utf8

inductive Cmp where
  | lt
  | le
  | gt
  | ge
  | eq
  deriving DecidableEq, Repr

inductive KindSel where
  | file
  | dir
  | link
  deriving DecidableEq, Repr

inductive Pred where
  | ext (list : List Bytes)
  | name (name : Bytes)
  | literal (name : Bytes)
  | size (cmp : Cmp) (n : Nat)
  | age (cmp : Cmp) (n : Nat)
  | kind (kind : KindSel)
  deriving DecidableEq, Repr

structure Term where
  negated : Bool
  pred : Pred
  deriving DecidableEq, Repr

structure Query where
  terms : List Term
  deriving DecidableEq, Repr

inductive Dest where
  | other
  | here
  | path (path : Bytes)
  deriving DecidableEq, Repr

inductive Stage where
  | sel (query : Query)
  | cp (dest : Dest)
  | mv (dest : Dest)
  | trash
  | mkdir (name : Bytes)
  | cd (name : Bytes)
  | log (n : Option Nat)
  | undo (n : Option Nat)
  | catalogue (id : Str)
  deriving DecidableEq, Repr

structure Order where
  stages : List Stage
  deriving DecidableEq, Repr

/-- Pieces that would be `disguised` once their invisible characters are gone. -/
def noInvisible (pieces : List Piece) (disguised : List Piece → Bool) : Except ParseError Unit :=
  match stripFormat pieces with
  | some (bare, i) => if disguised bare then .error ⟨i, .invisibleChar⟩ else .ok ()
  | none => .ok ()

/-- Lowercase words joined by dots. -/
def isCatalogueId (s : Str) : Bool :=
  '.' ∈ s && s.head? ≠ some '.' && s.getLast? ≠ some '.' &&
    s.all fun c => ('a' ≤ c && c ≤ 'z') || c.isDigit || c ∈ ['.', '_', '-']

def verbs : List Str :=
  ["sel".toList, "cp".toList, "mv".toList, "trash".toList, "mkdir".toList, "cd".toList, "log".toList,
    "undo".toList]

def isVerb (v : Str) : Bool := verbs.contains v || isCatalogueId v

/-! Numbers. -/

/-- `str::parse` of a text of digits, into an unsigned type of that many bits. -/
def parseDigits (bits : Nat) (digits : Str) : Option Nat :=
  let value := Nat.ofDigitChars 10 digits 0
  if value < 2 ^ bits then some value else none

def unitsSize : List (Char × Nat) := [('K', 2 ^ 10), ('M', 2 ^ 20), ('G', 2 ^ 30), ('T', 2 ^ 40)]

def unitsAge : List (Char × Nat) := [('s', 1), ('m', 60), ('h', 3600), ('d', 86400), ('w', 604800)]

/-- The digits behind the point, if `size` allows one: their value and how many. -/
def fraction (size : Bool) (rest : Str) : Option ((Nat × Nat) × Str) :=
  match rest with
  | '.' :: rest =>
    if size then
      let f := rest.takeWhile Char.isDigit
      if f.isEmpty || 9 < f.length then none
      else do
        let value ← parseDigits 128 f
        return ((value, f.length), rest.dropWhile Char.isDigit)
    else some ((0, 0), '.' :: rest)
  | rest => some ((0, 0), rest)

def multiplier (units : List (Char × Nat)) (size : Bool) : Str → Option Nat
  | [] => if size then some 1 else none
  | [u] =>
    let u := if size then u.toUpper else u
    (units.find? fun unit => unit.1 = u).map Prod.snd
  | _ => none

def number (pieces : List Piece) (units : List (Char × Nat)) (size : Bool) : Option Nat := do
  let text ← plainText pieces
  let digits := text.takeWhile Char.isDigit
  if digits.isEmpty then none
  let int ← parseDigits 128 digits
  let (frac, rest) ← fraction size (text.dropWhile Char.isDigit)
  let mult ← multiplier units size rest
  if 2 ^ 128 ≤ int * mult then none
  let value := int * mult + frac.1 * mult / 10 ^ frac.2
  if value < 2 ^ 64 then some value else none

/-! The terms of a `sel`. -/

def comparisons : List (Bytes × Cmp) :=
  [(ascii "<=", .le), (ascii ">=", .ge), (ascii "<", .lt), (ascii ">", .gt), (ascii "=", .eq)]

/-- The comparison after a plain key, and the length of both. -/
def keyedCmp (pieces : List Piece) (key : Bytes) : Option (Cmp × Nat) :=
  if plainPrefix pieces key then
    (comparisons.find? fun op => plainPrefix (pieces.drop key.length) op.1).map fun op =>
      (op.2, key.length + op.1.length)
  else none

def keyed (body : List Piece) : Bool :=
  [ascii "ext:", ascii "name:", ascii "name=", ascii "type:"].any (plainPrefix body) ||
    (keyedCmp body (ascii "size")).isSome || (keyedCmp body (ascii "age")).isSome

def kindSel (start : Nat) (rest : List Piece) : Except ParseError KindSel :=
  if plainEq rest (ascii "file") then .ok .file
  else if plainEq rest (ascii "dir") then .ok .dir
  else if plainEq rest (ascii "link") then .ok .link
  else do
    noInvisible rest fun bare => [ascii "file", ascii "dir", ascii "link"].any (plainEq bare)
    .error ⟨start, .badTerm⟩

def pred (start : Nat) (body : List Piece) : Except ParseError Pred :=
  if plainPrefix body (ascii "ext:") then
    .ok (.ext (((body.drop 4).splitOnP fun q => q.plain && q.byte = ','.toUInt8).map bytes))
  else if plainPrefix body (ascii "name:") then .ok (.name (bytes (body.drop 5)))
  else if plainPrefix body (ascii "name=") then .ok (.literal (bytes (body.drop 5)))
  else if plainPrefix body (ascii "type:") then (kindSel start (body.drop 5)).map .kind
  else match keyedCmp body (ascii "size") with
    | some (cmp, len) => match number (body.drop len) unitsSize true with
      | some n => .ok (.size cmp n)
      | none => .error ⟨start, .badNumber⟩
    | none => match keyedCmp body (ascii "age") with
      | some (cmp, len) => match number (body.drop len) unitsAge false with
        | some n => .ok (.age cmp n)
        | none => .error ⟨start, .badNumber⟩
      | none => .ok (.name (bytes body))

/-- An invisible character is refused where it hides a key or a `!`, and anywhere in a
negated term. -/
def term (w : Word) : Except ParseError Term :=
  let negated := plainPrefix w.pieces (ascii "!")
  let body := if negated then w.pieces.tail else w.pieces
  if body.isEmpty then .error ⟨w.start, .badTerm⟩
  else do
    noInvisible body fun bare => negated || (keyed bare && !keyed body) ||
      (plainPrefix bare (ascii "!") && !plainPrefix body (ascii "!"))
    let pred ← pred w.start body
    return ⟨negated, pred⟩

def terms : List Word → Except ParseError (List Term)
  | [] => .ok []
  | w :: args => do
    let first ← term w
    let rest ← terms args
    return first :: rest

/-! Arguments. -/

def noArgs : List Word → Except ParseError Unit
  | [] => .ok ()
  | w :: _ => .error ⟨w.start, .badTerm⟩

def oneArg (args : List Word) (stop : Nat) : Except ParseError Bytes :=
  match args with
  | [] => .error ⟨stop, .missingArg⟩
  | w :: more =>
    if w.pieces.isEmpty then .error ⟨w.start, .missingArg⟩
    else do
      noInvisible w.pieces List.isEmpty
      noArgs more
      return bytes w.pieces

def count : List Word → Except ParseError (Option Nat)
  | [] => .ok none
  | w :: more =>
    match (plainText w.pieces).bind fun t =>
      if t ≠ [] ∧ t.all Char.isDigit then parseDigits 32 t else none with
    | none => .error ⟨w.start, .badNumber⟩
    | some n => do
      noArgs more
      return some n

/-- A lone `>` takes the next word. -/
def destBody (w : Word) (more : List Word) : Option (List Piece × List Word) :=
  if w.pieces.length = 1 then
    match more with
    | next :: rest => some (next.pieces, rest)
    | [] => none
  else some (w.pieces.tail, more)

def dest (args : List Word) (stop : Nat) : Except ParseError Dest :=
  match args with
  | [] => .error ⟨stop, .missingDest⟩
  | w :: more =>
    if !plainPrefix w.pieces (ascii ">") then do
      noInvisible w.pieces fun bare => plainPrefix bare (ascii ">")
      .error ⟨w.start, .missingDest⟩
    else match destBody w more with
      | none => .error ⟨stop, .missingDest⟩
      | some (body, rest) =>
        if body.isEmpty then .error ⟨w.start, .missingDest⟩
        else do
          noInvisible body fun bare =>
            bare.isEmpty || plainEq bare (ascii "other") || plainEq bare (ascii "here")
          noArgs rest
          if plainEq body (ascii "other") then return .other
          else if plainEq body (ascii "here") then return .here
          else return .path (bytes body)

/-! Stages. -/

/-- What a verb makes of its arguments. -/
def stageOf (v : Str) (start : Nat) (args : List Word) (stop : Nat) : Except ParseError Stage :=
  if v = "sel".toList then
    if args.isEmpty then .error ⟨stop, .missingArg⟩ else (terms args).map fun ts => .sel ⟨ts⟩
  else if v = "cp".toList then (dest args stop).map .cp
  else if v = "mv".toList then (dest args stop).map .mv
  else if v = "trash".toList then (noArgs args).map fun _ => .trash
  else if v = "mkdir".toList then (oneArg args stop).map .mkdir
  else if v = "cd".toList then (oneArg args stop).map .cd
  else if v = "log".toList then (count args).map .log
  else if v = "undo".toList then (count args).map .undo
  else if v = "redo".toList then .error ⟨start, .notYet⟩
  else if isCatalogueId v then (noArgs args).map fun _ => .catalogue v
  else .error ⟨start, .unknownVerb⟩

def stage (verb : Word) (args : List Word) (stop : Nat) : Except ParseError Stage := do
  noInvisible verb.pieces fun bare => (plainText bare).any fun v => isVerb v || v = "redo".toList
  match plainText verb.pieces with
  | none => .error ⟨verb.start, .unknownVerb⟩
  | some v => stageOf v verb.start args stop

/-! Lines. -/

/-- The words of each stage; a pipe ends one. -/
def segments : List Tok → List (List Word)
  | [] => [[]]
  | .pipe _ :: toks => [] :: segments toks
  | .word w :: toks => match segments toks with
    | seg :: segs => (w :: seg) :: segs
    | [] => [[w]]

theorem segments_ne_nil (toks : List Tok) : segments toks ≠ [] := by
  cases toks with
  | nil => simp [segments]
  | cons tok toks =>
    cases tok with
    | pipe i => simp [segments]
    | word w =>
      rw [segments]
      split <;> simp

def pipes (toks : List Tok) : List Nat :=
  toks.filterMap fun tok => match tok with
    | .pipe i => some i
    | .word _ => none

/-- The stages from the `k`-th on. A lex error explains the last one better than its own. -/
def stages (lexError : Option ParseError) (length : Nat) (pipes : List Nat) :
    Nat → List (List Word) → Except ParseError (List Stage)
  | _, [] => .ok []
  | k, [] :: _ =>
    let i := if k = 0 then pipes.head?.getD length else (pipes[k - 1]?.map (· + 1)).getD length
    .error (lexError.getD ⟨i, .empty⟩)
  | k, (verb :: args) :: segs =>
    let stop := ((verb :: args).getLast?.map Word.stop).getD length
    match stage verb args stop with
    | .error e => .error (if segs.isEmpty then lexError.getD e else e)
    | .ok first => do
      let rest ← stages lexError length pipes (k + 1) segs
      return first :: rest

def Stage.standsAlone : Stage → Bool
  | log _ => true
  | undo _ => true
  | _ => false

def parse (line : Str) : Except ParseError Order :=
  let (toks, lexError) := lex line
  let segs := segments toks
  match stages lexError (encode line).length (pipes toks) 0 segs with
  | .error e => .error e
  | .ok ss => match lexError with
    | some e => .error e
    | none =>
      match if 1 < ss.length then ss.findIdx? Stage.standsAlone else none with
      | some k => .error ⟨((segs[k]?.bind List.head?).map Word.start).getD 0, .standsAlone⟩
      | none => .ok ⟨ss⟩

example : parse "sel ext:pdf size>1.5M | cp >other".toList = .ok ⟨[
    .sel ⟨[⟨false, .ext [ascii "pdf"]⟩, ⟨false, .size .gt 1572864⟩]⟩, .cp .other]⟩ := by decide +kernel

end Norte.Orders
