import Norte.SyncCalls

/-! The application of a plan, one step after another in the order they arrive: what
`sync::exec` does with a spool's steps. -/
namespace Norte.Sync

open Chain (Reversal NewEntry pathBytes Actor)

structure SyncTargets where
  sourceRoot : VPath
  destRoot : VPath
  deleteMode : DeleteMode
  deriving DecidableEq

/-- Under which batch and in whose name the rows go. -/
structure BatchJournal where
  actor : Actor
  batchId : Int
  deriving DecidableEq

namespace BatchJournal

variable (recorder : BatchJournal)

def entry (op : Str) (path : VPath) (reversal : Reversal) (reversalRef : Option VPath) : NewEntry where
  op := op
  path := pathBytes path
  pathTo := none
  reversal := reversal
  reversalRef := reversalRef.map pathBytes
  actor := recorder.actor
  undoesSeq := none
  batchId := some recorder.batchId

def opCreated : Str := "created".toList
def opTrashed : Str := "trashed".toList
def opRemoved : Str := "removed".toList

def created (path : VPath) (reversal : Reversal) : NewEntry := recorder.entry opCreated path reversal none

def trashed (path : VPath) (dest : Option VPath) : NewEntry :=
  recorder.entry opTrashed path .restoreTrash dest

def removed (path : VPath) : NewEntry := recorder.entry opRemoved path .irreversible none

end BatchJournal

/-- What a step did. -/
inductive Applied where
  | wrote (bytes : UInt64)
  | skipped
  deriving DecidableEq, Repr

/-- What got buried and did not end up recorded. -/
structure Unrecorded where
  buried : VPath
  there : Option VPath
  source : Error
  deriving DecidableEq

inductive ApplyError where
  | stopped (error : Error)
  | unrecorded (what : Unrecorded)
  deriving DecidableEq

inductive StepError where
  | failed (error : Error)
  | fatal (error : Error)
  | unrecoverable (what : Unrecorded)
  deriving DecidableEq

/-- A provider's error is a row of the report, unless it is the cancellation. -/
def StepError.fromProvider (e : Error) : StepError := if e = .cancelled then .fatal e else .failed e

inductive SyncFailureCause where
  | conflict
  | denied
  | illegalName
  | io
  | unknown
  deriving DecidableEq, Repr

def causeOf : Error → SyncFailureCause
  | .permissionDenied | .policyDenied _ => .denied
  | .invalidPath => .illegalName
  | .notFound | .conflict _ => .conflict
  | _ => .io

structure SyncFailure where
  rel : RelPath
  kind : SyncStepKind
  destRel : Option RelPath
  cause : SyncFailureCause
  deriving DecidableEq

structure SyncReport where
  done : UInt64
  failed : UInt64
  skipped : UInt64
  bytes : UInt64
  failures : List SyncFailure
  deriving DecidableEq

def SyncReport.new : SyncReport := ⟨0, 0, 0, 0, []⟩

def syncMaxFailuresReported : Nat := 256
def countMax : Nat := 4096
def checkRootEach : Nat := 32

/-- The path of `rel` below `root`. -/
def under (root : VPath) (rel : RelPath) : VPath := rel.segments.foldl VPath.join root

/-- Where a step falls in the destination: over the file that exists, not the one the
source spells. -/
def destPath (targets : SyncTargets) (record : SpoolStep) : VPath :=
  under targets.destRoot (record.step.destRel.getD record.step.rel)

section Looks

variable (b : Behaviour)

def isCancelled (log : Log) : Bool × Log := ask b .isCancelled log

def stat (root : Root) (path : VPath) (log : Log) : Except Error (Option Entry) × Log :=
  match ask b (.stat root path) log with
  | (.ok entry, log) => (.ok (some entry), log)
  | (.error .notFound, log) => (.ok none, log)
  | (.error e, log) => (.error e, log)

/-- The listing's items one by one, with the token looked at before each. -/
def countItems (n : Nat) : List (Except Error Unit) → Log → Option Nat × Log
  | [], log =>
    let (cancelled, log) := isCancelled b log
    (if cancelled then none else some n, log)
  | .error _ :: _, log => (none, (isCancelled b log).2)
  | .ok () :: items, log =>
    let (cancelled, log) := isCancelled b log
    if cancelled || countMax < n + 1 then (none, log) else countItems (n + 1) items log

def countFirstLevel (path : VPath) (log : Log) : Option Nat × Log :=
  match ask b (.list path) log with
  | (.ok items, log) => countItems b 0 items log
  | (.error _, log) => (none, log)

/-- A field moved when both snapshots carry it and differ. -/
def moved [DecidableEq α] : Option α → Option α → Bool
  | some before, some now => before ≠ now
  | _, _ => false

/-- Is the destination still what the plan saw? -/
def revalidate (path : VPath) (witness : Option DestWitness) (log : Log) : Except Error Unit × Log :=
  match witness with
  | none => (.error (.conflict .unknown), log)
  | some before =>
    match stat b .dest path log with
    | (.error e, log) => (.error e, log)
    | (.ok none, log) => (.error .notFound, log)
    | (.ok (some now), log) =>
      if now.kind ≠ before.kind then (.error (.conflict .typeMismatch), log)
      else if moved before.size now.size || moved before.mtimeMs now.mtimeMs then
        (.error (.conflict .exists_), log)
      else
        match before.entries with
        | none => (.ok (), log)
        | some beforeCount =>
          let (nowCount, log) := countFirstLevel b path log
          (if nowCount = some beforeCount.toNat then .ok () else .error (.conflict .exists_), log)

/-- The source of a copying step, looked at before touching the destination. -/
def sourceLeaf (targets : SyncTargets) (record : SpoolStep) (log : Log) :
    Except StepError (VPath × Entry) × Log :=
  let source := under targets.sourceRoot record.step.rel
  match stat b .source source log with
  | (.error e, log) => (.error (.fromProvider e), log)
  | (.ok none, log) => (.error (.failed .notFound), log)
  | (.ok (some entry), log) =>
    if entry.kind = .dir then (.error (.failed (.conflict .typeMismatch)), log)
    else (.ok (source, entry), log)

def allows (op : PolicyOp) (path : VPath) (log : Log) : Except Error Unit × Log :=
  match ask b (.evaluate op path) log with
  | (.allow, log) => (.ok (), log)
  | (.deny rule, log) => (.error (.policyDenied rule), log)
  | (.ask, log) => (.error (.policyDenied "not-approved".toList), log)

/-- An overwrite destroys and writes, so it goes through both gates. -/
def gateOps (targets : SyncTargets) : SyncStepKind → List PolicyOp
  | .createDir => [.mkdir]
  | .copy => [.copy]
  | .overwrite => [.delete targets.deleteMode, .copy]
  | .deleteTree => [.delete targets.deleteMode]
  | .skip | .unknown => []

def gateAll (path : VPath) : List PolicyOp → Log → Except StepError Unit × Log
  | [], log => (.ok (), log)
  | op :: ops, log =>
    match allows b op path log with
    | (.error e, log) => (.error (.failed e), log)
    | (.ok (), log) => gateAll path ops log

def gateStep (targets : SyncTargets) (kind : SyncStepKind) (path : VPath) (log : Log) :
    Except StepError Unit × Log :=
  gateAll b path (gateOps targets kind) log

end Looks

section Acts

variable (b : Behaviour) (targets : SyncTargets) (recorder : BatchJournal)

/-- Copies one leaf onto a free path; the row is the caller's. -/
def copyLeaf (source dest : VPath) (entry : Entry) (log : Log) : Except Error UInt64 × Log :=
  if entry.kind = .symlink then
    match ask b (.readLink source) log with
    | (.error e, log) => (.error e, log)
    | (.ok target, log) =>
      let (outcome, log) := ask b (.symlink dest target) log
      (outcome.plain.map fun _ => 0, log)
  else
    let (before, log) := ask b .bytesDone log
    let (outcome, log) := ask b (.copyFile source dest entry.size) log
    match outcome.plain with
    | .error e => (.error e, log)
    | .ok _ =>
      let (now, log) := ask b .bytesDone log
      (.ok (if before ≤ now then now - before else 0), log)

/-- An effect and its row, which stops the task where it does not arrive. -/
def recorded (entry : NewEntry) (moved : α → UInt64) : Except Error α × Log →
    Except StepError Applied × Log
  | (.error e, log) => (.error (.fromProvider e), log)
  | (.ok value, log) =>
    match ask b (.record entry) log with
    | (.error e, log) => (.error (.fatal e), log)
    | (.ok _, log) => (.ok (.wrote (moved value)), log)

def place (source : VPath) (entry : Entry) (dest : VPath) (reversal : Reversal) (log : Log) :
    Except StepError Applied × Log :=
  recorded b (recorder.created dest reversal) (fun bytes => bytes) (copyLeaf b source dest entry log)

/-- Children before their directory. A failure in doubt counts as a removal: one row too
many is better than an object gone with no row. -/
def removeNodes (path : VPath) (count : Nat) :
    List (List Segment × Bool) → Log → (Nat × Except Error Unit) × Log
  | [], log => ((count, .ok ()), log)
  | (rel, isDir) :: nodes, log =>
    let (cancelled, log) := isCancelled b log
    if cancelled then ((count, .error .cancelled), log)
    else
      let (outcome, log) := ask b (.remove (under path ⟨rel⟩) isDir) log
      match outcome.answer with
      | .ok () => removeNodes path (count + 1) nodes log
      | .error (e, .maybeApplied) => ((count + 1, .error e), log)
      | .error (e, .notApplied) => ((count, .error e), log)

def removeRoot (path : VPath) (isDir : Bool) (count : Nat) (log : Log) :
    (Nat × Except Error Unit) × Log :=
  let (outcome, log) := ask b (.remove path isDir) log
  match outcome.answer with
  | .ok () => ((count + 1, .ok ()), log)
  | .error (e, .maybeApplied) => ((count + 1, .error e), log)
  | .error (e, .notApplied) => ((count, .error e), log)

/-- Removes `path` and everything below it for good, with how much is no longer there. -/
def removeTree (path : VPath) (log : Log) : (Nat × Except Error Unit) × Log :=
  match stat b .dest path log with
  | (.error e, log) => ((0, .error e), log)
  | (.ok none, log) => ((0, .error .notFound), log)
  | (.ok (some entry), log) =>
    if entry.kind = .dir then
      match ask b (.walk path) log with
      | (.error e, log) => ((0, .error e), log)
      | (.ok nodes, log) =>
        match removeNodes b path 0 nodes.reverse log with
        | ((count, .error e), log) => ((count, .error e), log)
        | ((count, .ok ()), log) => removeRoot b path true count log
    else removeRoot b path false 0 log

def trashRetrying (path : VPath) (id : Nat) (log : Log) : Except Error (Option VPath) × Log :=
  let (outcome, log) := ask b (.trash path id) log
  (outcome.plain, log)

def mkdirRetrying (path : VPath) (log : Log) : Except Error Unit × Log :=
  let (outcome, log) := ask b (.mkdir path) log
  (outcome.plain, log)

/-- Destroys a leaf however the destination allows. -/
def destroyLeaf (path : VPath) (stepId : UInt64) (log : Log) : Except Error Unit × Log :=
  if targets.deleteMode = .trash then
    let (buried, log) := trashRetrying b path stepId.toNat log
    (buried.map fun _ => (), log)
  else
    let (outcome, log) := ask b (.remove path false) log
    (outcome.plain, log)

def destroyTree (path : VPath) (stepId : UInt64) (log : Log) : (Nat × Except Error Unit) × Log :=
  if targets.deleteMode = .trash then
    let (outcome, log) := ask b (.trash path stepId.toNat) log
    match outcome.answer with
    | .ok _ => ((1, .ok ()), log)
    | .error (e, .maybeApplied) => ((1, .error e), log)
    | .error (e, .notApplied) => ((0, .error e), log)
  else removeTree b path log

/-- Puts a burial back whose row did not arrive, where the trash told its place. -/
def unbury (path : VPath) (there : Option VPath) (log : Log) : Except Error Unit × Log :=
  match there with
  | some there =>
    let (outcome, log) := ask b (.restoreFrom there path) log
    (outcome.plain, log)
  | none => (.error .unsupported, log)

/-- Buries `path` in the trash and records it. -/
def bury (path : VPath) (stepId : UInt64) (log : Log) : Except StepError (Option VPath) × Log :=
  match trashRetrying b path stepId.toNat log with
  | (.error e, log) => (.error (.fromProvider e), log)
  | (.ok buried, log) =>
    match ask b (.record (recorder.trashed path buried)) log with
    | (.ok _, log) => (.ok buried, log)
    | (.error e, log) =>
      match unbury b path buried log with
      | (.ok (), log) => (.error (.fatal e), log)
      | (.error _, log) => (.error (.unrecoverable ⟨path, buried, e⟩), log)

def makeDir (path : VPath) (log : Log) : Except StepError Applied × Log :=
  recorded b (recorder.created path .delete) (fun _ => 0) (mkdirRetrying b path log)

/-- What already stands there is not adopted. -/
def createDir (path : VPath) (log : Log) : Except StepError Applied × Log :=
  match stat b .dest path log with
  | (.error e, log) => (.error (.fromProvider e), log)
  | (.ok (some _), log) => (.error (.failed (.conflict .exists_)), log)
  | (.ok none, log) => makeDir b recorder path log

/-- A reversal this core does not emit for the step's class. -/
def unexpectedReversal : StepError := .failed (.conflict .unknown)

/-- The two halves of an overwrite whose old file goes to the trash. A second row that
does not arrive is not compensated, it is said. -/
def replace (path : VPath) (source : VPath) (entry : Entry) (stepId : UInt64) (log : Log) :
    Except StepError Applied × Log :=
  match bury b recorder path stepId log with
  | (.error e, log) => (.error e, log)
  | (.ok there, log) =>
    match copyLeaf b source path entry log with
    | (.error e, log) => (.error (.fromProvider e), log)
    | (.ok bytes, log) =>
      match ask b (.record (recorder.created path .delete)) log with
      | (.error e, log) => (.error (.unrecoverable ⟨path, there, e⟩), log)
      | (.ok _, log) => (.ok (.wrote bytes), log)

/-- An overwrite with no way back: one row, and one for the destruction alone where the
copy does not land. -/
def supplant (path : VPath) (source : VPath) (entry : Entry) (stepId : UInt64) (log : Log) :
    Except StepError Applied × Log :=
  match destroyLeaf b targets path stepId log with
  | (.error e, log) => (.error (.fromProvider e), log)
  | (.ok (), log) =>
    match place b recorder source entry path .irreversible log with
    | (.ok applied, log) => (.ok applied, log)
    | (.error placed, log) =>
      match ask b (.record (recorder.removed path)) log with
      | (.error e, log) => (.error (.unrecoverable ⟨path, none, e⟩), log)
      | (.ok _, log) => (.error placed, log)

/-- Revalidate, look at the source, empty the destination and copy, in that order. -/
def overwrite (record : SpoolStep) (path : VPath) (log : Log) : Except StepError Applied × Log :=
  match revalidate b path record.dest log with
  | (.error e, log) => (.error (.fromProvider e), log)
  | (.ok (), log) =>
    match sourceLeaf b targets record log with
    | (.error e, log) => (.error e, log)
    | (.ok (source, entry), log) =>
      match record.step.reversal with
      | some .restoreTrash => replace b recorder path source entry record.step.id log
      | some .irreversible => supplant b targets recorder path source entry record.step.id log
      | _ => (.error unexpectedReversal, log)

def wiped : Except Error Unit → Except StepError Applied
  | .error e => .error (.fromProvider e)
  | .ok () => .ok (.wrote 0)

/-- A tree gone for good. What decides about the row is how much is no longer there, not
how the removal ended. -/
def wipe (path : VPath) (stepId : UInt64) (log : Log) : Except StepError Applied × Log :=
  match destroyTree b targets path stepId log with
  | ((count, removed), log) =>
    if 0 < count then
      match ask b (.record (recorder.removed path)) log with
      | (.error e, log) => (.error (.unrecoverable ⟨path, none, e⟩), log)
      | (.ok _, log) => (wiped removed, log)
    else (wiped removed, log)

def deleteTree (record : SpoolStep) (path : VPath) (log : Log) : Except StepError Applied × Log :=
  match revalidate b path record.dest log with
  | (.error e, log) => (.error (.fromProvider e), log)
  | (.ok (), log) =>
    match record.step.reversal with
    | some .restoreTrash =>
      match bury b recorder path record.step.id log with
      | (.error e, log) => (.error e, log)
      | (.ok _, log) => (.ok (.wrote 0), log)
    | some .irreversible => wipe b targets recorder path record.step.id log
    | _ => (.error unexpectedReversal, log)

/-- What a step does once it may. -/
def act (record : SpoolStep) (path : VPath) (log : Log) : Except StepError Applied × Log :=
  match record.step.kind with
  | .skip => (.ok .skipped, log)
  | .createDir => createDir b recorder path log
  | .copy =>
    match sourceLeaf b targets record log with
    | (.error e, log) => (.error e, log)
    | (.ok (source, entry), log) => place b recorder source entry path .delete log
  | .overwrite => overwrite b targets recorder record path log
  | .deleteTree => deleteTree b targets recorder record path log
  | .unknown => (.error (.failed .unsupported), log)

/-- One step. The destination root is not one. -/
def execute (record : SpoolStep) (log : Log) : Except StepError Applied × Log :=
  let path := destPath targets record
  if record.step.kind = .skip then act b targets recorder record path log
  else if path = targets.destRoot then (.error (.failed .invalidPath), log)
  else
    match gateStep b targets record.step.kind path log with
    | (.error e, log) => (.error e, log)
    | (.ok (), log) => act b targets recorder record path log

end Acts

/-- The list of failures has a cap, the counter does not. -/
def SyncReport.recordFailure (report : SyncReport) (step : SyncStep) (cause : SyncFailureCause) :
    SyncReport :=
  let report := { report with failed := saturatingAdd report.failed 1 }
  if report.failures.length < syncMaxFailuresReported then
    { report with failures := report.failures ++ [⟨step.rel, step.kind, step.destRel, cause⟩] }
  else report

section Run

variable (b : Behaviour) (targets : SyncTargets) (recorder : BatchJournal)

/-- What a step's end does to the report, and whether the task goes on. -/
def settle (step : SyncStep) (report : SyncReport) :
    Except StepError Applied → Except ApplyError Unit × SyncReport
  | .ok (.wrote bytes) => (.ok (), { report with
      done := saturatingAdd report.done 1, bytes := saturatingAdd report.bytes bytes })
  | .ok .skipped => (.ok (), { report with skipped := saturatingAdd report.skipped 1 })
  | .error (.failed e) => (.ok (), report.recordFailure step (causeOf e))
  | .error (.fatal e) => (.error (.stopped e), report)
  | .error (.unrecoverable what) => (.error (.unrecorded what), report.recordFailure step .io)

/-- Is it time to look whether the destination still stands? -/
def checkIsDue (taken : Nat) (log : Log) : Bool × Log :=
  if taken = 0 then (false, log)
  else if taken % checkRootEach = 0 then (true, log)
  else ask b .checkDue log

def stillStanding (log : Log) : Except ApplyError Unit × Log :=
  let (answer, log) := ask b .stillStanding log
  (answer.mapError .stopped, log)

/-- The periodic check between two steps. -/
def standing (taken : Nat) (log : Log) : Except ApplyError Unit × Log :=
  match checkIsDue b taken log with
  | (false, log) => (.ok (), log)
  | (true, log) => stillStanding b log

/-- How an application ended, with what of the stream it left unread. -/
structure Ended where
  result : Except ApplyError Unit
  report : SyncReport
  rest : List (Except Error SpoolStep)
  log : Log

/-- The loop over the steps as the spool hands them out; `taken` of them came before. -/
def runSteps (taken : Nat) : List (Except Error SpoolStep) → SyncReport → Log → Ended
  | steps, report, log =>
    match isCancelled b log with
    | (true, log) => ⟨.error (.stopped .cancelled), report, steps, log⟩
    | (false, log) =>
      match steps with
      | [] =>
        if taken = 0 then ⟨.ok (), report, [], log⟩
        else
          let (standing, log) := stillStanding b log
          ⟨standing, report, [], log⟩
      | next :: steps =>
        match standing b taken log with
        | (.error e, log) => ⟨.error e, report, steps, log⟩
        | (.ok (), log) =>
          match next with
          | .error e => ⟨.error (.stopped e), report, steps, log⟩
          | .ok record =>
            let (ended, log) := execute b targets recorder record log
            match settle record.step report ended with
            | (.error e, report) => ⟨.error e, report, steps, log⟩
            | (.ok (), report) => runSteps (taken + 1) steps report log

/-- The whole application. -/
def run (steps : List (Except Error SpoolStep)) (log : Log) : Ended :=
  match isCancelled b log with
  | (true, log) => ⟨.error (.stopped .cancelled), .new, steps, log⟩
  | (false, log) =>
    match ask b .openRoot log with
    | (.error e, log) => ⟨.error (.stopped e), .new, steps, log⟩
    | (.ok (), log) =>
      match stillStanding b log with
      | (.error e, log) => ⟨.error e, .new, steps, log⟩
      | (.ok (), log) => runSteps b targets recorder 0 steps .new log

end Run

end Norte.Sync
