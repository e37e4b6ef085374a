import Norte.RenameExec

/-! `file.split` and `file.combine`: a file cut into numbered pieces, and the pieces joined
back. Every call of a split can fail; what one leaves behind when it does is in its exit. -/
namespace Norte.FileSplit

def FILE_SPLIT_MIN_BYTES : Nat := 4096

def FILE_SPLIT_MAX_PARTS : Nat := 999

/-! ### Names and directories -/

/-- `{n:03}`. -/
def padded (n : Nat) : Str := List.replicate (3 - (Nat.toDigits 10 n).length) '0' ++ Nat.toDigits 10 n

/-- The name of piece `n` of a split: `<name>.001`. -/
def pieceName (base : Bytes) (n : Nat) : Bytes := base ++ [0x2E] ++ Utf8.encode (padded n)

def isAsciiDigit (b : UInt8) : Bool := 0x30 ≤ b && b ≤ 0x39

/-- The number of a name of the form `<base>.NNN`, with three digits and nothing else. -/
def pieceNumber (base name : Bytes) : Option Nat :=
  if base ++ [0x2E] <+: name then
    let tail := name.drop (base.length + 1)
    if tail.length = 3 ∧ tail.all isAsciiDigit then
      some (((Utf8.fromUtf8 tail).map fun digits => Nat.ofDigitChars 10 digits 0).getD 0)
    else none
  else none

inductive Entry where
  | file (content : Bytes)
  | other
  deriving DecidableEq

abbrev Dir := List (Segment × Entry)

namespace Dir

def stat (d : Dir) (name : Segment) : Option Entry := (d.find? fun e => e.1 = name).map Prod.snd

def put (d : Dir) (name : Segment) (content : Bytes) : Dir := (name, .file content) :: d.filter fun e => e.1 ≠ name

def remove (d : Dir) (name : Segment) : Dir := d.filter fun e => e.1 ≠ name

/-- No name of the form `<base>.NNN`. -/
def Free (d : Dir) (base : Segment) : Prop := ∀ e ∈ d, pieceNumber base.bytes e.1.bytes = none

end Dir

/-- The ways a provider can cut what it reads into chunks. -/
structure Chunking where
  cut : Bytes → List Bytes
  whole : ∀ bytes, (cut bytes).flatten = bytes

/-! ### Split -/

/-- The file to split; `stat` need not know its size. -/
structure Source where
  name : Segment
  content : Bytes
  size : Option Nat
  honest : size = none ∨ size = some content.length

/-- The calls that fail, each by the chunk or the piece it is made for. A commit that fails may
have published its piece; a token may be cancelled at any look. -/
structure Faults where
  pin : Option Error := none
  stat : Option Error := none
  read : Option Error := none
  cancelled : Nat → Bool := fun _ => false
  broken : Nat → Option Error := fun _ => none
  opening : Nat → Option Error := fun _ => none
  write : Nat → Nat → Option Error := fun _ _ => none
  commit : Nat → Option (Error × Bool) := fun _ => none
  row : Nat → Option Error := fun _ => none
  remove : Segment → Option Error := fun _ => none

def limit : Error := .limitExceeded "split-parts".toList

def measuresTheDistribution (f : Faults) (src : Source) (part : Nat) : Except Error Nat :=
  if part < FILE_SPLIT_MIN_BYTES then .error .invalidPath
  else
    match f.stat with
    | some e => .error e
    | none =>
      let total := src.size.getD 0
      let pieceCount := max ((total + part - 1) / part) 1
      if FILE_SPLIT_MAX_PARTS < pieceCount then .error limit else .ok pieceCount

/-- No piece of the set may already exist. -/
def checkSlotsFree (d : Dir) (base : Segment) : List Nat → Except Error Unit
  | [] => .ok ()
  | i :: rest =>
    match Segment.new (pieceName base.bytes i) with
    | .error _ => .error .invalidPath
    | .ok p => if (d.stat p).isSome then .error (.conflict .exists_) else checkSlotsFree d base rest

/-- The open piece: `sink`, `current_dest` and `current`, which is the length written so far. -/
structure OpenPiece (part : Nat) where
  dest : Segment
  content : Bytes
  room : content.length < part

structure Splitting (part : Nat) where
  dir : Dir
  sink : Option (OpenPiece part)
  done : Nat
  published : List Segment

/-- A way out of the loops with an error: through the undo (`undo_with!`) or past it (`?`). -/
structure Exit where
  error : Error
  undo : Bool
  dir : Dir
  published : List Segment

variable {part : Nat}

def Splitting.undoWith (s : Splitting part) (e : Error) : Exit := ⟨e, true, s.dir, s.published⟩

def Splitting.question (s : Splitting part) (e : Error) : Exit := ⟨e, false, s.dir, s.published⟩

/-- The open piece, opened here if there is none. -/
def openPiece (f : Faults) (base : Segment) (positive : 0 < part) (s : Splitting part) :
    Except Exit (OpenPiece part) :=
  match s.sink with
  | some piece => .ok piece
  | none =>
    if FILE_SPLIT_MAX_PARTS ≤ s.done then .error (s.undoWith limit)
    else
      match Segment.new (pieceName base.bytes (s.done + 1)) with
      | .error _ => .error (s.question .invalidPath)
      | .ok dest =>
        match f.opening (s.done + 1) with
        | some e => .error (s.question e)
        | none => .ok ⟨dest, [], positive⟩

/-- Publishes the open piece and records it in the journal. -/
def closePiece (f : Faults) (s : Splitting part) (dest : Segment) (content : Bytes) :
    Except Exit (Splitting part) :=
  match f.commit (s.done + 1) with
  | some (e, effect) =>
    .error { s.undoWith e with dir := if effect then s.dir.put dest content else s.dir }
  | none =>
    match f.row (s.done + 1) with
    | some e => .error { s.undoWith e with dir := s.dir.put dest content }
    | none => .ok ⟨s.dir.put dest content, none, s.done + 1, s.published ++ [dest]⟩

/-- The inner loop: what is left of chunk `i`, cut where the open piece is full. -/
def fill (f : Faults) (base : Segment) (positive : 0 < part) (i : Nat) (rest : Bytes) (s : Splitting part) :
    Except Exit (Splitting part) :=
  if _none : rest = [] then .ok s
  else
    match openPiece f base positive s with
    | .error exit => .error exit
    | .ok piece =>
      let cut := min (part - piece.content.length) rest.length
      match f.write i (s.done + 1) with
      | some e => .error (s.undoWith e)
      | none =>
        if room : (piece.content ++ rest.take cut).length < part then
          fill f base positive i (rest.drop cut) { s with sink := some ⟨piece.dest, piece.content ++ rest.take cut, room⟩ }
        else
          match closePiece f s piece.dest (piece.content ++ rest.take cut) with
          | .error exit => .error exit
          | .ok s => fill f base positive i (rest.drop cut) s
termination_by rest.length
decreasing_by
  all_goals
    have some_ := List.length_pos_of_ne_nil _none
    have room := piece.room
    simp only [List.length_drop]
    omega

/-- The outer loop: one chunk of the stream after the other. -/
def splitChunks (f : Faults) (base : Segment) (positive : 0 < part) :
    Nat → List Bytes → Splitting part → Except Exit (Splitting part)
  | _, [], s => .ok s
  | i, chunk :: chunks, s =>
    if f.cancelled i then .error (s.undoWith .cancelled)
    else
      match f.broken i with
      | some e => .error (s.undoWith e)
      | none =>
        match fill f base positive i chunk s with
        | .error exit => .error exit
        | .ok s => splitChunks f base positive (i + 1) chunks s

/-- The last piece, which is almost never full. -/
def closeLast (f : Faults) (s : Splitting part) : Except Exit (Splitting part) :=
  match s.sink with
  | some piece => closePiece f s piece.dest piece.content
  | none => .ok s

/-- `remove_pieces`: what cannot be removed stays. -/
def removePieces (f : Faults) (published : List Segment) (d : Dir) : Dir :=
  published.reverse.foldl (fun d p => if (f.remove p).isSome then d else d.remove p) d

def split (f : Faults) (src : Source) (chunks : Chunking) (part : Nat) (d : Dir) : Except Error Unit × Dir :=
  match f.pin with
  | some e => (.error e, d)
  | none =>
    match measuresTheDistribution f src part with
    | .error e => (.error e, d)
    | .ok pieceCount =>
      match checkSlotsFree d src.name (List.range' 1 pieceCount) with
      | .error e => (.error e, d)
      | .ok () =>
        match f.read with
        | some e => (.error e, d)
        | none =>
          if positive : 0 < part then
            let run := (splitChunks f src.name positive 0 (chunks.cut src.content) ⟨d, none, 0, []⟩).bind (closeLast f)
            match run with
            | .ok s => (.ok (), s.dir)
            | .error exit =>
              (.error exit.error, if exit.undo then removePieces f exit.published exit.dir else exit.dir)
          else (.error .invalidPath, d)

/-! ### Combine -/

/-- Is there any piece numbered above `through`? -/
def hasPiecesAbove (d : Dir) (base : Bytes) (through : Nat) : Bool :=
  d.any fun e => (pieceNumber base e.1.bytes).any fun n => through < n

/-- The loop of `list_pieces`, from piece `n` on. -/
def listFrom (d : Dir) (base : Bytes) (n : Nat) : Except Error (List (Segment × Nat)) :=
  match Segment.new (pieceName base n) with
  | .error _ => .error .invalidPath
  | .ok p =>
    match d.stat p with
    | some (.file content) =>
      if last : FILE_SPLIT_MAX_PARTS < n + 1 then
        match Segment.new (pieceName base (n + 1)) with
        | .error _ => .error .invalidPath
        | .ok next => if (d.stat next).isSome then .error limit else .ok [(p, content.length)]
      else (listFrom d base (n + 1)).map fun pieces => (p, content.length) :: pieces
    | _ => .ok []
termination_by FILE_SPLIT_MAX_PARTS - n

/-- The set's pieces, in order and with their size. -/
def listPieces (d : Dir) (base : Bytes) : Except Error (List (Segment × Nat)) := do
  let pieces ← listFrom d base 1
  match pieces with
  | [] => .error .notFound
  | (_, first) :: _ =>
    if hasPiecesAbove d base pieces.length then .error (.conflict .typeMismatch)
    else if pieces.dropLast.any fun p => p.2 ≠ first then .error (.conflict .typeMismatch)
    else .ok pieces

/-- What is written to the destination: the pieces in order, chunk by chunk. -/
def writeCombined (chunks : Chunking) (d : Dir) : List (Segment × Nat) → Bytes → Except Error Bytes
  | [], written => .ok written
  | (p, _) :: rest, written =>
    match d.stat p with
    | some (.file content) => writeCombined chunks d rest ((chunks.cut content).foldl (· ++ ·) written)
    | _ => .error .notFound

/-- `x.iso.001` → base `x.iso`. -/
def baseOf (name : Bytes) : Option Bytes :=
  if 4 ≤ name.length ∧ name[name.length - 4]? = some 0x2E ∧ (name.drop (name.length - 4 + 1)).all isAsciiDigit then
    some (name.take (name.length - 4))
  else none

/-- A run of `combine` in which nothing fails: the directory of the destination after it. -/
def combine (chunks : Chunking) (d : Dir) (first : Segment) (destDir : Dir) (dest : Segment) : Except Error Dir :=
  match baseOf first.bytes with
  | none => .error .invalidPath
  | some base => do
    let pieces ← listPieces d base
    if (destDir.stat dest).isSome then .error (.conflict .exists_)
    else
      let content ← writeCombined chunks d pieces []
      .ok (destDir.put dest content)

/-! ### The names of the pieces -/

theorem isDigit_padded {n : Nat} {c : Char} (member : c ∈ padded n) : c.isDigit = true := by
  rcases List.mem_append.mp member with zero | digit
  · rw [List.eq_of_mem_replicate zero]
    rfl
  · exact Nat.isDigit_of_mem_toDigits (by decide) (by decide) digit

theorem isDigit_bounds {c : Char} (digit : c.isDigit = true) : 48 ≤ c.toNat ∧ c.toNat ≤ 57 := by
  simpa [Char.isDigit, UInt32.le_iff_toNat_le] using digit

theorem length_encode_digits {s : Str} (digits : ∀ c ∈ s, c.isDigit = true) : (Utf8.encode s).length = s.length := by
  induction s with
  | nil => rfl
  | cons c s ih =>
    have bounds := isDigit_bounds (digits c List.mem_cons_self)
    rw [Utf8.encode_cons, Utf8.encodeChar_ascii c (by omega)]
    simp [ih fun c member => digits c (List.mem_cons_of_mem _ member)]

theorem isAsciiDigit_padded {n : Nat} {b : UInt8} (member : b ∈ Utf8.encode (padded n)) : isAsciiDigit b = true := by
  obtain ⟨c, inside, member⟩ := List.mem_flatMap.mp member
  have bounds := isDigit_bounds (isDigit_padded inside)
  rw [Utf8.encodeChar_ascii c (by omega)] at member
  obtain rfl := List.mem_singleton.mp member
  simp only [isAsciiDigit, UInt8.le_iff_toNat_le, Bool.and_eq_true, decide_eq_true_eq, UInt8.toNat_ofNat']
  exact ⟨by simp; omega, by simp; omega⟩

theorem length_padded (n : Nat) : (Utf8.encode (padded n)).length = max 3 (Nat.toDigits 10 n).length := by
  rw [length_encode_digits fun c => isDigit_padded, padded, List.length_append, List.length_replicate]
  omega

theorem length_padded_of_le {n : Nat} (few : n ≤ FILE_SPLIT_MAX_PARTS) : (Utf8.encode (padded n)).length = 3 := by
  have short : (Nat.toDigits 10 n).length ≤ 3 :=
    (Nat.length_toDigits_le_iff (by decide) (by decide)).mpr (Nat.lt_succ_of_le few)
  rw [length_padded, max_eq_left short]

theorem ofDigitChars_padded (n : Nat) : Nat.ofDigitChars 10 (padded n) 0 = n := by
  rw [padded, Nat.ofDigitChars_append, Nat.ofDigitChars_replicate_zero, Nat.mul_zero, Nat.ofDigitChars_ten_toDigits]

theorem pieceName_injective {base : Bytes} {n m : Nat} (same : pieceName base n = pieceName base m) : n = m := by
  have digits := Utf8.encode_injective (List.append_cancel_left same)
  rw [← ofDigitChars_padded n, digits, ofDigitChars_padded]

/-- The name of a piece is of the form, and its number is read back. -/
theorem pieceNumber_pieceName {base : Bytes} {n : Nat} (few : n ≤ FILE_SPLIT_MAX_PARTS) :
    pieceNumber base (pieceName base n) = some n := by
  have tail : (pieceName base n).drop (base.length + 1) = Utf8.encode (padded n) := List.drop_left' (by simp)
  have digits : (Utf8.encode (padded n)).all isAsciiDigit = true := List.all_eq_true.mpr fun b => isAsciiDigit_padded
  rw [pieceNumber, if_pos ⟨_, rfl⟩]
  simp [tail, length_padded_of_le few, digits, ofDigitChars_padded]

theorem valid_pieceName (base : Segment) (n : Nat) : Segment.Valid (pieceName base.bytes n) := by
  have tail (b : UInt8) (other : isAsciiDigit b = false) : b ∉ Utf8.encode (padded n) := fun member => by
    rw [isAsciiDigit_padded member] at other
    cases other
  have long : 2 < (pieceName base.bytes n).length := by
    have three := length_padded n
    simp only [pieceName, List.length_append, List.length_singleton]
    omega
  refine ⟨?_, ?_, ?_, ?_, ?_⟩
  · exact List.ne_nil_of_length_pos (by omega)
  · simp only [pieceName, List.mem_append, List.mem_singleton, not_or]
    exact ⟨⟨base.valid.noNul, by decide⟩, tail _ rfl⟩
  · simp only [pieceName, List.mem_append, List.mem_singleton, not_or]
    exact ⟨⟨base.valid.noSlash, by decide⟩, tail _ rfl⟩
  · intro dot
    rw [dot] at long
    simp at long
  · intro dots
    rw [dots] at long
    simp at long

/-- Piece `n` as a name. -/
def piece (base : Segment) (n : Nat) : Segment := ⟨pieceName base.bytes n, valid_pieceName base n⟩

theorem new_pieceName (base : Segment) (n : Nat) : Segment.new (pieceName base.bytes n) = .ok (piece base n) :=
  Segment.new_bytes (piece base n)

theorem piece_injective {base : Segment} {n m : Nat} (same : piece base n = piece base m) : n = m :=
  pieceName_injective (congrArg Segment.bytes same)

/-! ### The directory -/

namespace Dir

variable {d : Dir} {name other : Segment} {content : Bytes}

@[simp] theorem stat_put : (d.put name content).stat name = some (.file content) := by simp [stat, put]

theorem stat_put_of_ne (apart : other ≠ name) : (d.put name content).stat other = d.stat other := by
  have same : (fun e : Segment × Entry => !decide (e.1 = name) && decide (e.1 = other)) = fun e => decide (e.1 = other) := by
    funext e
    by_cases here : e.1 = other
    · simp [here, apart]
    · simp [here]
  simp [stat, put, apart.symm, List.find?_filter, same]

theorem stat_eq_none : d.stat name = none ↔ ∀ e ∈ d, e.1 ≠ name := by
  simp [stat]

theorem mem_put {e : Segment × Entry} (member : e ∈ d.put name content) : e = (name, .file content) ∨ e ∈ d := by
  rcases List.mem_cons.mp member with rfl | rest
  · exact .inl rfl
  · exact .inr (List.mem_of_mem_filter rest)

theorem mem_remove {e : Segment × Entry} : e ∈ d.remove name ↔ e ∈ d ∧ e.1 ≠ name := by
  simp [remove]

theorem Free.stat {base : Segment} (free : d.Free base) {n : Nat} (few : n ≤ FILE_SPLIT_MAX_PARTS) :
    d.stat (piece base n) = none := by
  refine stat_eq_none.mpr fun e member same => ?_
  have number := free e member
  rw [same, piece, pieceNumber_pieceName few] at number
  cases number

end Dir

end Norte.FileSplit
