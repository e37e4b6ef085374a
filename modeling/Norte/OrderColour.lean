import Norte.OrderParse

/-! The colours of a line: the parse again, with the spans it leaves on its way. What was
painted stays painted where the parse fails, and then the error takes over. -/
namespace Norte.Orders

open Utf8

inductive TokenClass where
  | verb
  | key
  | value
  | pipe
  | dest
  | error
  deriving DecidableEq, Repr

structure Range where
  start : Nat
  stop : Nat
  deriving DecidableEq, Repr

def Range.contains (r : Range) (i : Nat) : Bool := r.start ≤ i && i < r.stop

abbrev Spans := List (Range × TokenClass)

def Word.span (w : Word) : Range := ⟨w.start, w.stop⟩

def Tok.span : Tok → Range
  | .word w => w.span
  | .pipe i => ⟨i, i + 1⟩

/-- What comes of reading, and what was painted until then. -/
structure Painted (α : Type) where
  spans : Spans
  result : Except ParseError α

namespace Painted

variable {α β : Type}

instance : Monad Painted where
  pure a := ⟨[], .ok a⟩
  bind x f := match x.result with
    | .error e => ⟨x.spans, .error e⟩
    | .ok a => ⟨x.spans ++ (f a).spans, (f a).result⟩

/-- Nothing is painted. -/
def of (result : Except ParseError α) : Painted α := ⟨[], result⟩

def paint (r : Range) (c : TokenClass) : Painted Unit := ⟨[(r, c)], .ok ()⟩

def fail (offset : Nat) (kind : ParseErrorKind) : Painted α := of (.error ⟨offset, kind⟩)

def mapError (x : Painted α) (f : ParseError → ParseError) : Painted α := ⟨x.spans, x.result.mapError f⟩

@[simp] theorem pure_result (a : α) : (pure a : Painted α).result = .ok a := rfl

@[simp] theorem bind_result (x : Painted α) (f : α → Painted β) :
    (x >>= f).result = x.result >>= fun a => (f a).result := by
  cases x with
  | mk spans result => cases result <;> rfl

@[simp] theorem ite_result (p : Prop) [Decidable p] (x y : Painted α) :
    (if p then x else y).result = if p then x.result else y.result := apply_ite _ _ _ _

@[simp] theorem of_result (result : Except ParseError α) : (of result).result = result := rfl

@[simp] theorem paint_result (r : Range) (c : TokenClass) : (paint r c).result = .ok () := rfl

@[simp] theorem fail_result (offset : Nat) (kind : ParseErrorKind) :
    (fail offset kind : Painted α).result = .error ⟨offset, kind⟩ := rfl

@[simp] theorem mapError_result (x : Painted α) (f : ParseError → ParseError) :
    (x.mapError f).result = x.result.mapError f := rfl

end Painted

namespace Colour

open Painted

/-- The leading `!` and the plain bytes of the key, and what is left of the word. -/
def key (w : Word) (lead len : Nat) : Painted Unit :=
  let split := (w.pieces[lead + len]?.map Piece.offset).getD w.stop
  ⟨(if w.start < split then [(⟨w.start, split⟩, .key)] else []) ++
    (if split < w.stop then [(⟨split, w.stop⟩, .value)] else []), .ok ()⟩

/-- How long the key is that a term is read by. -/
def keyLength (body : List Piece) : Nat :=
  if plainPrefix body (ascii "ext:") then 4
  else if plainPrefix body (ascii "name:") then 5
  else if plainPrefix body (ascii "name=") then 5
  else if plainPrefix body (ascii "type:") then 5
  else match keyedCmp body (ascii "size") with
    | some (_, len) => len
    | none => match keyedCmp body (ascii "age") with
      | some (_, len) => len
      | none => 0

/-- The key is painted before its value is read. -/
def term (w : Word) : Painted Term :=
  let negated := plainPrefix w.pieces (ascii "!")
  let body := if negated then w.pieces.tail else w.pieces
  if body.isEmpty then fail w.start .badTerm
  else do
    of (noInvisible body fun bare => negated || (keyed bare && !keyed body) ||
      (plainPrefix bare (ascii "!") && !plainPrefix body (ascii "!")))
    key w (if negated then 1 else 0) (keyLength body)
    let pred ← of (pred w.start body)
    return ⟨negated, pred⟩

def terms : List Word → Painted (List Term)
  | [] => return []
  | w :: args => do
    let first ← term w
    let rest ← terms args
    return first :: rest

def oneArg (args : List Word) (stop : Nat) : Painted Bytes :=
  match args with
  | [] => fail stop .missingArg
  | w :: more =>
    if w.pieces.isEmpty then fail w.start .missingArg
    else do
      of (noInvisible w.pieces List.isEmpty)
      paint w.span .value
      of (noArgs more)
      return bytes w.pieces

def count : List Word → Painted (Option Nat)
  | [] => return none
  | w :: more =>
    match (plainText w.pieces).bind fun t =>
      if t ≠ [] ∧ t.all Char.isDigit then parseDigits 32 t else none with
    | none => fail w.start .badNumber
    | some n => do
      paint w.span .value
      of (noArgs more)
      return some n

/-- A lone `>` is painted with the next word. -/
def destSpan (w : Word) (more : List Word) : Range :=
  if w.pieces.length = 1 then ⟨w.start, (more.head?.map Word.stop).getD w.stop⟩ else w.span

def dest (args : List Word) (stop : Nat) : Painted Dest :=
  match args with
  | [] => fail stop .missingDest
  | w :: more =>
    if !plainPrefix w.pieces (ascii ">") then do
      of (noInvisible w.pieces fun bare => plainPrefix bare (ascii ">"))
      fail w.start .missingDest
    else match destBody w more with
      | none => fail stop .missingDest
      | some (body, rest) =>
        if body.isEmpty then fail w.start .missingDest
        else do
          of (noInvisible body fun bare =>
            bare.isEmpty || plainEq bare (ascii "other") || plainEq bare (ascii "here"))
          paint (destSpan w more) .dest
          of (noArgs rest)
          if plainEq body (ascii "other") then return .other
          else if plainEq body (ascii "here") then return .here
          else return .path (bytes body)

def stageOf (v : Str) (start : Nat) (args : List Word) (stop : Nat) : Painted Stage :=
  if v = "sel".toList then
    if args.isEmpty then fail stop .missingArg
    else do
      let ts ← terms args
      return .sel ⟨ts⟩
  else if v = "cp".toList then do return .cp (← dest args stop)
  else if v = "mv".toList then do return .mv (← dest args stop)
  else if v = "trash".toList then do
    of (noArgs args)
    return .trash
  else if v = "mkdir".toList then do return .mkdir (← oneArg args stop)
  else if v = "cd".toList then do return .cd (← oneArg args stop)
  else if v = "log".toList then do return .log (← count args)
  else if v = "undo".toList then do return .undo (← count args)
  else if v = "redo".toList then fail start .notYet
  else if isCatalogueId v then do
    of (noArgs args)
    return .catalogue v
  else fail start .unknownVerb

def stage (verb : Word) (args : List Word) (stop : Nat) : Painted Stage := do
  of (noInvisible verb.pieces fun bare => (plainText bare).any fun v => isVerb v || v = "redo".toList)
  match plainText verb.pieces with
  | none => fail verb.start .unknownVerb
  | some v => do
    if isVerb v then paint verb.span .verb
    stageOf v verb.start args stop

/-- The pipe before a stage. -/
def pipe (pipes : List Nat) (k : Nat) : Painted Unit :=
  match if 0 < k then pipes[k - 1]? else none with
  | some i => paint ⟨i, i + 1⟩ .pipe
  | none => return ()

def stages (lexError : Option ParseError) (length : Nat) (pipes : List Nat) :
    Nat → List (List Word) → Painted (List Stage)
  | _, [] => return []
  | k, [] :: _ => do
    pipe pipes k
    let i := if k = 0 then pipes.head?.getD length else (pipes[k - 1]?.map (· + 1)).getD length
    of (.error (lexError.getD ⟨i, .empty⟩))
  | k, (verb :: args) :: segs => do
    pipe pipes k
    let stop := ((verb :: args).getLast?.map Word.stop).getD length
    let first ← (stage verb args stop).mapError fun e => if segs.isEmpty then lexError.getD e else e
    let rest ← stages lexError length pipes (k + 1) segs
    return first :: rest

def run (line : Str) : Painted Order := do
  let (toks, lexError) := lex line
  let segs := segments toks
  let ss ← stages lexError (encode line).length (pipes toks) 0 segs
  match lexError with
  | some e => of (.error e)
  | none =>
    match if 1 < ss.length then ss.findIdx? Stage.standsAlone else none with
    | some k => fail (((segs[k]?.bind List.head?).map Word.start).getD 0) .standsAlone
    | none => return ⟨ss⟩

/-! Painting changes nothing that is read. -/

theorem term_result (w : Word) : (term w).result = Orders.term w := by
  simp only [term, Orders.term]
  generalize plainPrefix w.pieces (ascii "!") = negated
  generalize (if negated then w.pieces.tail else w.pieces) = body
  by_cases empty : body.isEmpty
  · simp only [empty, if_true, fail_result]
  · simp only [empty, Bool.false_eq_true, if_false, bind_result, of_result]
    rfl

theorem terms_result (args : List Word) : (terms args).result = Orders.terms args := by
  induction args with
  | nil => rfl
  | cons w args ih =>
    simp only [terms, Orders.terms, bind_result, term_result, ih]
    rfl

theorem oneArg_result (args : List Word) (stop : Nat) :
    (oneArg args stop).result = Orders.oneArg args stop := by
  cases args with
  | nil => rfl
  | cons w more =>
    unfold oneArg Orders.oneArg
    dsimp only
    split
    · rfl
    · simp only [bind_result, of_result, paint_result]
      rfl

theorem count_result (args : List Word) : (count args).result = Orders.count args := by
  cases args with
  | nil => rfl
  | cons w more =>
    simp only [count, Orders.count]
    generalize (plainText w.pieces).bind _ = number
    cases number with
    | none => rfl
    | some n =>
      simp only [bind_result, of_result, paint_result]
      rfl

theorem dest_result (args : List Word) (stop : Nat) : (dest args stop).result = Orders.dest args stop := by
  cases args with
  | nil => rfl
  | cons w more =>
    simp only [dest, Orders.dest]
    by_cases plain : plainPrefix w.pieces (ascii ">")
    · simp only [plain, Bool.not_true, Bool.false_eq_true, if_false]
      cases destBody w more with
      | none => rfl
      | some pair =>
        dsimp only
        by_cases empty : pair.1.isEmpty
        · simp only [empty, if_true, fail_result]
        · simp only [empty, Bool.false_eq_true, if_false, bind_result, of_result, paint_result]
          split_ifs <;> rfl
    · simp only [plain, Bool.not_false, if_true, bind_result, of_result, fail_result]

theorem stageOf_result (v : Str) (start : Nat) (args : List Word) (stop : Nat) :
    (stageOf v start args stop).result = Orders.stageOf v start args stop := by
  have map_eq {β γ : Type} (x : Except ParseError β) (f : β → γ) : (x >>= fun a => .ok (f a)) = x.map f := by
    cases x <;> rfl
  simp only [stageOf, Orders.stageOf, ite_result, bind_result, of_result, terms_result, dest_result,
    oneArg_result, count_result, fail_result, pure_result, map_eq]

theorem stage_result (verb : Word) (args : List Word) (stop : Nat) :
    (stage verb args stop).result = Orders.stage verb args stop := by
  unfold stage Orders.stage
  rw [bind_result, of_result]
  apply congrArg
  funext _
  cases plainText verb.pieces with
  | none => rfl
  | some v =>
    simp only [ite_result, bind_result, paint_result, stageOf_result]
    split <;> rfl

theorem pipe_result (pipes : List Nat) (k : Nat) : (pipe pipes k).result = .ok () := by
  unfold pipe
  split <;> rfl

theorem stages_result (lexError : Option ParseError) (length : Nat) (pipes : List Nat) (k : Nat)
    (segs : List (List Word)) :
    (stages lexError length pipes k segs).result = Orders.stages lexError length pipes k segs := by
  induction segs generalizing k with
  | nil => rfl
  | cons seg segs ih =>
    cases seg with
    | nil =>
      simp only [stages, Orders.stages, bind_result, pipe_result, of_result]
      rfl
    | cons verb args =>
      simp only [stages, Orders.stages, bind_result, pipe_result, mapError_result, stage_result, ih]
      cases Orders.stage verb args _ <;> rfl

theorem run_result (line : Str) : (run line).result = parse line := by
  simp only [run, parse, bind_result, stages_result]
  generalize (lex line).2 = lexError
  cases Orders.stages lexError _ _ 0 _ with
  | error e => rfl
  | ok ss =>
    cases lexError with
    | some e => rfl
    | none =>
      dsimp only [bind, Except.bind]
      cases (if 1 < ss.length then ss.findIdx? Stage.standsAlone else none) <;> rfl

end Colour

/-- The end of the word the error falls in, or of the line. -/
def errorStop (lexed : List Range) (offset length : Nat) : Nat :=
  let wordEnd := ((lexed.find? fun r => r.contains offset).map Range.stop).getD length
  if offset < wordEnd then wordEnd else length

/-- The colours of a line. From the error on, its word is an error, and so is each word and
pipe after it. -/
def tokens (line : Str) : Spans :=
  let lexed := (lex line).1.map Tok.span
  let painted := Colour.run line
  match painted.result with
  | .ok _ => painted.spans
  | .error e =>
    let stop := errorStop lexed e.offset (encode line).length
    painted.spans.filter (fun s => s.1.stop ≤ e.offset) ++ (⟨e.offset, max stop e.offset⟩, .error) ::
      (lexed.filter fun r => stop ≤ r.start).map fun r => (r, .error)

example : tokens "sel ext:pdf | frob x".toList = [(⟨0, 3⟩, .verb), (⟨4, 8⟩, .key), (⟨8, 11⟩, .value),
    (⟨12, 13⟩, .pipe), (⟨14, 18⟩, .error), (⟨19, 20⟩, .error)] := by decide +kernel

end Norte.Orders
