import Mathlib.Data.List.Sort
import Norte.ChainHash

/-! The journal: a table of chained rows, the state kept in memory next to it, and the
operations that change either. The digest is a parameter, and so is the clock at each
call. A counter past the end of its range is a panic. -/
namespace Norte.Chain

open Hashing Utf8

/-- A row of the table, as this code writes it. -/
structure Row extends Record where
  prevHash : Hash
  entryHash : Hash
  deriving DecidableEq

structure CompactionBase where
  throughSeq : Int
  throughHash : Hash
  deriving DecidableEq

/-- The table in the order of its primary key, and the base a compaction left. -/
structure Database where
  rows : List Row
  base : Option CompactionBase
  deriving DecidableEq

structure ChainState where
  lastSeq : Int
  lastHash : Hash
  batchCounter : Int
  deriving DecidableEq

inductive JournalError where
  | sqlx
  | corrupt
  | changed
  deriving DecidableEq, Repr

structure NewEntry where
  op : Str
  path : Bytes
  pathTo : Option Bytes
  reversal : Reversal
  reversalRef : Option Bytes
  actor : Actor
  undoesSeq : Option Int
  batchId : Option Int
  deriving DecidableEq, Repr

/-- The insert of a row, refused where its key is taken. -/
def Database.insert (db : Database) (row : Row) : Option Database :=
  if db.rows.any fun r => r.seq = row.seq then none
  else some { db with rows := db.rows.orderedInsert (fun a b => a.seq ≤ b.seq) row }

/-! The format marker, row 0. -/

def journalFormat : Nat := 1

def formatSeq : Int := 0
def formatOp : Str := "journal_format".toList
def formatActorKind : Str := "system".toList

def formatRecord (tsMs : Int) (version : Bytes) : Record where
  seq := formatSeq
  tsMs := tsMs
  actorKind := formatActorKind
  actorId := none
  op := formatOp
  path := version
  pathTo := none
  reversal := "irreversible".toList
  reversalRef := none
  undoesSeq := none
  batchId := none

inductive JournalFormat where
  | unmarked
  | version (v : Nat)
  | unreadable
  deriving DecidableEq, Repr

def JournalFormat.isUnknown : JournalFormat → Bool
  | unmarked => false
  | version v => !(1 ≤ v && v ≤ journalFormat)
  | unreadable => true

/-- `u32::from_str`: an optional plus sign and decimal digits that fit. -/
def parseU32 (s : Str) : Option Nat :=
  let digits := if s.head? = some '+' then s.tail else s
  if digits ≠ [] ∧ digits.all Char.isDigit then
    let value := digits.foldl (fun n c => 10 * n + (c.toNat - '0'.toNat)) 0
    if value < 2 ^ 32 then some value else none
  else none

/-- The version has to be spelled canonically, so that it has one preimage. -/
def parseFormat (op : Str) (path : Bytes) : JournalFormat :=
  if op ≠ formatOp then .unreadable
  else match fromUtf8 path with
    | none => .unreadable
    | some s =>
      match parseU32 s with
      | some v => if Nat.toDigits 10 v = s then .version v else .unreadable
      | none => .unreadable

def VerifiedRow.isCanonicalMarker (c : VerifiedRow) : Bool :=
  let canonical := formatRecord c.tsMs c.path
  c.op = canonical.op && c.actorKind = canonical.actorKind && c.reversal = canonical.reversal &&
    c.actorId.isNone && c.pathTo.isNone && c.reversalRef.isNone && c.undoesSeq.isNone &&
    c.batchId.isNone

/-! Reading the table. -/

/-- The head: the last mutation. -/
def Database.head (db : Database) : Option (Int × Hash) :=
  ((db.rows.filter fun r => 1 ≤ r.seq).getLast?).map fun r => (r.seq, r.entryHash)

def Database.entryHashAt (db : Database) (seq : Int) : Option Hash :=
  (db.rows.find? fun r => r.seq = seq && 1 ≤ r.seq).map Row.entryHash

/-- `COALESCE(MAX(batch_id), 0)`. -/
def Database.maxBatch (db : Database) : Int := ((db.rows.filterMap (·.batchId)).max?).getD 0

structure Journal where
  db : Database
  chain : ChainState
  deriving DecidableEq

def maxI64 : Int := 2 ^ 63 - 1

section Operations

variable (sha256 : Bytes → Hash)

def Record.row (prev : Hash) (r : Record) : Row := ⟨r, prev, chainHash sha256 prev r⟩

/-- The marker is written over a table that has no rows, and never again. -/
def stampFormatIfNew (tsMs : Int) (db : Database) : Database :=
  if db.rows = [] then
    let version := encode (Nat.toDigits 10 journalFormat)
    { db with rows := [(formatRecord tsMs version).row sha256 .zero] }
  else db

/-- Opening reads the chain state off the last row and the highest batch. -/
def fromOptions (tsMs : Int) (db : Database) : Journal :=
  let db := stampFormatIfNew sha256 tsMs db
  let (lastSeq, lastHash) := (db.rows.getLast?.map fun r => (r.seq, r.entryHash)).getD (0, .zero)
  ⟨db, ⟨lastSeq, lastHash, db.maxBatch⟩⟩

def openInMemory (tsMs : Int) : Journal := fromOptions sha256 tsMs ⟨[], none⟩

/-- What a build that knew no marker started from. -/
def unmarked : Journal := ⟨⟨[], none⟩, ⟨0, .zero, 0⟩⟩

def NewEntry.record (e : NewEntry) (tsMs seq : Int) : Record where
  seq := seq
  tsMs := tsMs
  actorKind := e.actor.parts.1
  actorId := e.actor.parts.2
  op := e.op
  path := e.path
  pathTo := e.pathTo
  reversal := e.reversal.asStr
  reversalRef := e.reversalRef
  undoesSeq := e.undoesSeq
  batchId := e.batchId

/-- One entry; `sound` is whether the database takes the insert. The chain state moves
only after it did. -/
def recordEntry (e : NewEntry) (tsMs : Int) (sound : Bool) (j : Journal) :
    Option (Except JournalError Int × Journal) :=
  if j.chain.lastSeq = maxI64 then none
  else
    let seq := j.chain.lastSeq + 1
    let row := (e.record tsMs seq).row sha256 j.chain.lastHash
    match if sound then j.db.insert row else none with
    | none => some (.error .sqlx, j)
    | some db => some (.ok seq, ⟨db, { j.chain with lastSeq := seq, lastHash := row.entryHash }⟩)

def allocBatch (j : Journal) : Option (Int × Journal) :=
  if j.chain.batchCounter = maxI64 then none
  else
    let id := j.chain.batchCounter + 1
    some (id, { j with chain := { j.chain with batchCounter := id } })

/-- Some row at or before `through` shares its batch with a row after it; the first such. -/
def Database.split (db : Database) (through : Int) : Option Int :=
  ((db.rows.filter fun a => 1 ≤ a.seq && a.seq ≤ through && a.batchId.isSome &&
    db.rows.any fun b => b.batchId = a.batchId && through < b.seq).map fun a => a.seq).min?

/-- The cut moves down until it splits no batch. A round that goes on leaves at least one
number fewer above `start`. -/
def Database.cut (db : Database) (start : Int) : Nat → Int → Int
  | 0, through => through
  | fuel + 1, through =>
    if through < start then through
    else match db.split through with
      | none => through
      | some first => cut db start fuel (first - 1)

def compactionPlan (db : Database) (beforeMs : Int) : Except JournalError (Option CompactionBase) :=
  match db.head with
  | none => .ok none
  | some (head, _) =>
    let start := (db.base.map fun b => b.throughSeq + 1).getD 1
    let firstYoung := ((db.rows.filter fun r => 1 ≤ r.seq && beforeMs ≤ r.tsMs).map fun r => r.seq).min?
    let through := min (firstYoung.getD head) head - 1
    let through := db.cut start (through - start + 1).toNat through
    if through < start then .ok none
    else match db.entryHashAt through with
      | none => .error .corrupt
      | some hash => .ok (some ⟨through, hash⟩)

/-- The plan is checked again before anything is deleted. -/
def compact (plan : CompactionBase) (db : Database) : Except JournalError Nat × Database :=
  if db.entryHashAt plan.throughSeq ≠ some plan.throughHash then (.error .changed, db)
  else if db.rows.getLast?.all fun r => r.seq ≤ plan.throughSeq then (.error .changed, db)
  else
    let dropped := db.rows.filter fun r => 1 ≤ r.seq && r.seq ≤ plan.throughSeq
    let kept := db.rows.filter fun r => !(1 ≤ r.seq && r.seq ≤ plan.throughSeq)
    (.ok dropped.length, ⟨kept, some plan⟩)

end Operations

/-! Walking the chain. A row is read as it is stored: its content may not decode and its
digests may be of any length. -/

structure StoredRow where
  seq : Int
  content : Option VerifiedRow
  prevHash : Bytes
  entryHash : Bytes
  deriving DecidableEq

def Row.stored (r : Row) : StoredRow :=
  ⟨r.seq, some r.toVerifiedRow, r.prevHash.bytes, r.entryHash.bytes⟩

inductive ChainStatus where
  | intact (entries : Nat)
  | broken (firstBadSeq : Int)
  | unknownFormat (declared : JournalFormat) (known : Nat) (firstUnverifiableSeq : Option Int)
  deriving DecidableEq, Repr

structure Walk where
  base : Option CompactionBase
  prev : Hash
  verified : Nat
  declared : JournalFormat
  firstBad : Option Int
  deriving DecidableEq

def Walk.start (base : Option CompactionBase) : Walk := ⟨base, .zero, 0, .unmarked, none⟩

section Verify

variable (sha256 : Bytes → Hash)

/-- The first mutation of a compacted journal follows its base. -/
def Walk.enter (w : Walk) (row : StoredRow) : Except Int Walk :=
  match w.base with
  | none => .ok w
  | some b =>
    if formatSeq < row.seq then
      if row.seq ≠ b.throughSeq + 1 then .error row.seq
      else .ok { w with base := none, prev := b.throughHash }
    else .ok w

def Walk.marker (w : Walk) (row : StoredRow) (stored : Hash) : Except Int Walk :=
  match row.content with
  | none => .error row.seq
  | some c =>
    if c.isCanonicalMarker ∧ chainHash sha256 w.prev (c.record row.seq) = stored then
      .ok { w with declared := parseFormat c.op c.path, prev := stored }
    else .error row.seq

/-- A row that does not recompute stops nothing: its stored digest is carried on. -/
def Walk.mutation (w : Walk) (row : StoredRow) (stored : Hash) : Walk :=
  if row.content.any fun c => chainHash sha256 w.prev (c.record row.seq) = stored then
    { w with verified := w.verified + 1, prev := stored }
  else { w with firstBad := w.firstBad <|> some row.seq, prev := stored }

/-- One row of the walk, or the number that a broken chain is blamed on. -/
def Walk.row (w : Walk) (row : StoredRow) : Except Int Walk := do
  let w ← w.enter row
  if row.seq < formatSeq ∨ row.prevHash ≠ w.prev.bytes then
    .error (if w.declared.isUnknown then row.seq else w.firstBad.getD row.seq)
  else match Hash.ofBytes row.entryHash with
    | none => .error (w.firstBad.getD row.seq)
    | some stored =>
      if row.seq = formatSeq then w.marker sha256 row stored else .ok (w.mutation sha256 row stored)

def Walk.rows : Walk → List StoredRow → Except Int Walk
  | w, [] => .ok w
  | w, row :: rows => do
    let w ← w.row sha256 row
    Walk.rows w rows

def Walk.verdict (w : Walk) : ChainStatus :=
  match w.base with
  | some b => .broken (b.throughSeq + 1)
  | none =>
    if w.declared.isUnknown then .unknownFormat w.declared journalFormat w.firstBad
    else match w.firstBad with
      | none => .intact w.verified
      | some firstBadSeq => .broken firstBadSeq

def verifyRows (base : Option CompactionBase) (rows : List StoredRow) : ChainStatus :=
  match (Walk.start base).rows sha256 rows with
  | .ok w => w.verdict
  | .error firstBadSeq => .broken firstBadSeq

def verifyChain (db : Database) : ChainStatus := verifyRows sha256 db.base (db.rows.map Row.stored)

end Verify
end Norte.Chain
