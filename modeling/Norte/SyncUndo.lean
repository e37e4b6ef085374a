import Norte.SyncExec

/-! The undo of an application: the reversal of one entry, strict and verified, and the
batch taken back in descending sequence as far as it goes. -/
namespace Norte.Sync

open Chain (Reversal NewEntry JournalEntry Actor wire pathBytes compensation occupied)
open Utf8 (fromUtf8)

inductive Reverted where
  | done
  | skippedIrreversible
  | skippedNoTrash
  | skippedNotOurs
  | blocked (seq : Int) (error : Error)
  | accounted
  | stuck (seq : Int) (error : Error)
  deriving DecidableEq

/-- What the undo of a batch adds to the report. -/
structure UndoReport where
  undone : Nat
  skippedIrreversible : Nat
  skippedCreatedNoTrash : Nat
  skippedNotOurs : Nat
  unrevertedPaths : List Bytes
  compensationsLost : Nat
  deriving DecidableEq

def UndoReport.new : UndoReport := ⟨0, 0, 0, 0, [], 0⟩

def undoMaxUnrevertedPaths : Nat := 64

def UndoReport.noteUnreverted (report : UndoReport) (path : Bytes) : UndoReport :=
  if report.unrevertedPaths.length < undoMaxUnrevertedPaths then
    { report with unrevertedPaths := report.unrevertedPaths ++ [path] }
  else report

/-- `str::parse` of an unsigned integer below `bound`. -/
def parseBelow (bound : Nat) (s : Str) : Option Nat :=
  let digits := if s.head? = some '+' then s.tail else s
  if digits ≠ [] ∧ digits.all Char.isDigit then
    let value := digits.foldl (fun n c => 10 * n + (c.toNat - '0'.toNat)) 0
    if value < bound then some value else none
  else none

def splitColon : Str → Option (Str × Str)
  | [] => none
  | c :: s => if c = ':' then some ([], s) else (splitColon s).map fun (v, i) => (c :: v, i)

/-- The identity a `created` row kept of its node. -/
def footprintToNode (bytes : Bytes) : Option NodeId := do
  let (volume, index) ← splitColon (← fromUtf8 bytes)
  return ⟨← parseBelow (2 ^ 64) volume, ← parseBelow (2 ^ 128) index⟩

section Entry

variable (b : Behaviour)

def isFree (path : VPath) (log : Log) : Except Error Bool × Log :=
  match ask b (.stat .dest path) log with
  | (.error .notFound, log) => (.ok true, log)
  | (.ok _, log) => (.ok false, log)
  | (.error e, log) => (.error e, log)

def sameNode (path other : VPath) (log : Log) : Except Error Bool × Log :=
  match ask b (.nodeId path) log with
  | (.error e, log) => (.error e, log)
  | (.ok id, log) =>
    match ask b (.nodeId other) log with
    | (.error e, log) => (.error e, log)
    | (.ok id', log) => (.ok (id.isSome && id = id'), log)

/-- Only the first item of the listing is looked at. -/
def hasChildren (path : VPath) (log : Log) : Except Error Bool × Log :=
  match ask b (.list path) log with
  | (.error e, log) => (.error e, log)
  | (.ok [], log) => (.ok false, log)
  | (.ok (.ok () :: _), log) => (.ok true, log)
  | (.ok (.error e :: _), log) => (.error e, log)

/-- The entry that takes `e` back, after its effect. -/
def compensate (actor : Actor) (batch : Option Int) (e : JournalEntry) (observed : Option Bytes)
    (log : Log) : Except Error Reverted × Log :=
  match compensation e observed actor batch with
  | none => (.ok (.blocked e.seq .invalidPath), log)
  | some entry =>
    match ask b (.record entry) log with
    | (.error err, log) => (.error err, log)
    | (.ok _, log) => (.ok .done, log)

/-- Is what stands there what the entry created? Without a footprint there is no telling. -/
def isOurs (path : VPath) (e : JournalEntry) (log : Log) : Except Error Bool × Log :=
  match e.reversalRef.bind footprintToNode with
  | none => (.ok true, log)
  | some expected =>
    match ask b (.nodeId path) log with
    | (.error err, log) => (.error err, log)
    | (.ok none, log) => (.ok true, log)
    | (.ok (some current), log) => (.ok (current = expected), log)

/-- A directory that holds something is in the way of its own undo. -/
def isFilledDir (path : VPath) (node : Entry) (log : Log) : Except Error Bool × Log :=
  if node.kind = .dir then hasChildren b path log else (.ok false, log)

def buryCreated (actor : Actor) (batch : Option Int) (path : VPath) (e : JournalEntry) (log : Log) :
    Except Error Reverted × Log :=
  match ask b .hasTrash log with
  | (false, log) => (.ok .skippedNoTrash, log)
  | (true, log) =>
    match trashRetrying b path e.seq.natAbs log with
    | (.error .cancelled, log) => (.error .cancelled, log)
    | (.error err, log) => (.ok (.blocked e.seq err), log)
    | (.ok there, log) => compensate b actor batch e (there.map pathBytes) log

/-- The undo of a creation, through the trash: only of what is still there, still the node
that was created, and empty if it is a directory. -/
def revertCreated (actor : Actor) (batch : Option Int) (path : VPath) (e : JournalEntry) (log : Log) :
    Except Error Reverted × Log :=
  match ask b (.stat .dest path) log with
  | (.error err, log) => (.ok (.blocked e.seq err), log)
  | (.ok node, log) =>
    match isOurs b path e log with
    | (.error err, log) => (.ok (.blocked e.seq err), log)
    | (.ok false, log) => (.ok .skippedNotOurs, log)
    | (.ok true, log) =>
      match isFilledDir b path node log with
      | (.error err, log) => (.ok (.blocked e.seq err), log)
      | (.ok true, log) => (.ok (.blocked e.seq occupied), log)
      | (.ok false, log) => buryCreated b actor batch path e log

/-- The origin has to be free, unless what sits there is the very node. -/
def moveBack (path origin : VPath) (log : Log) : Except Error Unit × Log :=
  match isFree b origin log with
  | (.error err, log) => (.error err, log)
  | (.ok true, log) =>
    let (outcome, log) := ask b (.rename path origin) log
    (outcome.plain, log)
  | (.ok false, log) =>
    match sameNode b path origin log with
    | (.error err, log) => (.error err, log)
    | (.ok false, log) => (.error occupied, log)
    | (.ok true, log) =>
      let (outcome, log) := ask b (.detour path origin) log
      (outcome.plain, log)

def revertRenamed (actor : Actor) (batch : Option Int) (path : VPath) (e : JournalEntry) (log : Log) :
    Except Error Reverted × Log :=
  match e.pathTo with
  | none => (.ok (.blocked e.seq .invalidPath), log)
  | some bytes =>
    match wire bytes with
    | .error err => (.error err, log)
    | .ok origin =>
      match moveBack b path origin log with
      | (.error err, log) => (.ok (.blocked e.seq err), log)
      | (.ok (), log) => compensate b actor batch e none log

def revertMode (actor : Actor) (batch : Option Int) (path : VPath) (e : JournalEntry) (log : Log) :
    Except Error Reverted × Log :=
  match (e.reversalRef.bind fromUtf8).bind (parseBelow (2 ^ 32)) with
  | none => (.ok (.blocked e.seq .invalidPath), log)
  | some previous =>
    if Chain.modePermissionBits < previous then (.ok (.blocked e.seq .invalidPath), log)
    else
      let (current, log) := ask b (.mode path) log
      let (outcome, log) := ask b (.setMode path previous) log
      match outcome.plain with
      | .error err => (.ok (.blocked e.seq err), log)
      | .ok () =>
        compensate b actor batch e (current.map fun mode => Utf8.encode (Nat.toDigits 10 mode)) log

/-- Out of the place the row names, or by the original path where it names none. -/
def unearth (path : VPath) (there : Option VPath) (log : Log) : Except Error Unit × Log :=
  match there with
  | some there =>
    let (outcome, log) := ask b (.restoreFrom there path) log
    (outcome.plain, log)
  | none =>
    let (outcome, log) := ask b (.restoreTrashed path) log
    (outcome.plain, log)

/-- The undo of a burial: its path has to be free. -/
def revertTrashed (actor : Actor) (batch : Option Int) (path : VPath) (e : JournalEntry) (log : Log) :
    Except Error Reverted × Log :=
  match isFree b path log with
  | (.error err, log) => (.ok (.blocked e.seq err), log)
  | (.ok false, log) => (.ok (.blocked e.seq occupied), log)
  | (.ok true, log) =>
    match e.reversalRef.mapM wire with
    | .error err => (.error err, log)
    | .ok there =>
      match unearth b path there log with
      | (.error err, log) => (.ok (.blocked e.seq err), log)
      | (.ok (), log) => compensate b actor batch e none log

/-- One entry's reversal and, where it went through, the entry that says so. -/
def revertEntry (actor : Actor) (batch : Option Int) (e : JournalEntry) (log : Log) :
    Except Error Reverted × Log :=
  match wire e.path with
  | .error err => (.error err, log)
  | .ok path =>
    if e.reversal = Reversal.irreversible.asStr then (.ok .skippedIrreversible, log)
    else if e.reversal = Reversal.delete.asStr then revertCreated b actor batch path e log
    else if e.reversal = Reversal.renameBack.asStr then revertRenamed b actor batch path e log
    else if e.reversal = Reversal.setModeBack.asStr then revertMode b actor batch path e log
    else if e.reversal = Reversal.restoreTrash.asStr then revertTrashed b actor batch path e log
    else (.ok (.blocked e.seq .unsupported), log)

end Entry

/-! A whole batch. -/

/-- A `delete` keeps an identity where the others keep a path. -/
def JournalEntry.refs (e : JournalEntry) : List Bytes :=
  e.path :: (if e.reversal = Reversal.delete.asStr then none else e.reversalRef).toList

def onProvider (origin : VPath) (seq : Int) : List Bytes → Except Reverted Unit
  | [] => .ok ()
  | bytes :: rest =>
    match wire bytes with
    | .error err => .error (.blocked seq err)
    | .ok path =>
      if path.scheme ≠ origin.scheme ∨ path.authority ≠ origin.authority then
        .error (.blocked seq .invalidPath)
      else onProvider origin seq rest

def allOnProvider (origin : VPath) : List JournalEntry → Except Reverted Unit
  | [] => .ok ()
  | e :: unit =>
    match onProvider origin e.seq (JournalEntry.refs e) with
    | .error refused => .error refused
    | .ok () => allOnProvider origin unit

/-- All entries live on the provider of the first, or the unit is not touched. -/
def oneProvider (unit : List JournalEntry) (first : JournalEntry) : Except Reverted Unit :=
  match wire first.path with
  | .error err => .error (.blocked first.seq err)
  | .ok origin => allOnProvider origin unit

/-- The paths whose restoration this undo cannot get right: created over a burial that no
row can find again. -/
def ambiguousRestores (unit : List JournalEntry) : List Bytes :=
  let buried := (unit.filter fun e =>
    e.reversal = Reversal.restoreTrash.asStr && e.reversalRef.isNone).map (·.path)
  (unit.filter fun e => e.reversal = Reversal.delete.asStr && buried.contains e.path).map (·.path)

section Batch

variable (b : Behaviour) (actor : Actor)

/-- What an entry's reversal adds to the report, and the block to remember. -/
def UndoReport.add (report : UndoReport) (e : JournalEntry) (blocked : Option (Int × Error)) :
    Reverted → UndoReport × Option (Int × Error)
  | .done => ({ report with undone := report.undone + 1 }, blocked)
  | .skippedIrreversible =>
    ({ report with skippedIrreversible := report.skippedIrreversible + 1 }.noteUnreverted e.path, blocked)
  | .skippedNoTrash =>
    ({ report with skippedCreatedNoTrash := report.skippedCreatedNoTrash + 1 }.noteUnreverted e.path,
      blocked)
  | .skippedNotOurs =>
    ({ report with skippedNotOurs := report.skippedNotOurs + 1 }.noteUnreverted e.path, blocked)
  | .blocked seq err => (report.noteUnreverted e.path, blocked.or (some (seq, err)))
  | .accounted | .stuck _ _ => (report, blocked)

/-- The entries in the order given, newest first; a block does not stop the others. -/
def revertAll (batch : Int) (ambiguous : List Bytes) : List JournalEntry → Option (Int × Error) →
    UndoReport → Log → Except Error Reverted × UndoReport × Log
  | [], blocked, report, log =>
    (.ok (match blocked with
      | some (seq, err) => .blocked seq err
      | none => .accounted), report, log)
  | e :: entries, blocked, report, log =>
    match isCancelled b log with
    | (true, log) => (.error .cancelled, report, log)
    | (false, log) =>
      if ambiguous.contains e.path then
        let report := if e.reversal = Reversal.restoreTrash.asStr then report.noteUnreverted e.path
          else report
        revertAll batch ambiguous entries (blocked.or (some (e.seq, .unsupported))) report log
      else
        match revertEntry b actor (some batch) e log with
        | (.error err, log) =>
          (.error err, { report with compensationsLost := report.compensationsLost + 1 }, log)
        | (.ok (.stuck seq err), log) => (.ok (.stuck seq err), report, log)
        | (.ok reverted, log) =>
          let (report, blocked) := report.add e blocked reverted
          revertAll batch ambiguous entries blocked report log

/-- Takes a batch back: whatever it can, by descending sequence number. -/
def revertSyncBatch (unit : List JournalEntry) (report : UndoReport) (log : Log) :
    Except Error Reverted × UndoReport × Log :=
  match unit with
  | [] => (.ok .accounted, report, log)
  | first :: _ =>
    match oneProvider unit first with
    | .error refused => (.ok refused, report, log)
    | .ok () =>
      let ordered := unit.insertionSort fun e e' => e'.seq ≤ e.seq
      match ask b .allocBatch log with
      | (.error err, log) => (.ok (.blocked first.seq err), report, log)
      | (.ok batch, log) => revertAll b actor batch (ambiguousRestores unit) ordered none report log

end Batch

end Norte.Sync
