import Norte.JournalCutoff
import Norte.SyncUndo

/-! Several undos of one journal. Each was asked for with what was revertible at that
moment, waits for the one turn there is, and takes its units back newest first. A step is
no larger than one row, so that whoever asks sees every state of the journal. -/
namespace Norte.Turns

open Hashing Chain
open Sync (Reverted ambiguousRestores oneProvider)

structure UndoReport extends Sync.UndoReport where
  blocked : Option (Int × Error)
  denied : List (Int × Error)
  deniedTotal : Nat
  batchStuck : Option Rename.StuckStep
  deriving DecidableEq

def UndoReport.new : UndoReport := ⟨.new, none, [], 0, none⟩

def undoMaxDeniedReported : Nat := 256

def UndoReport.deny (report : UndoReport) (seq : Int) (err : Error) : UndoReport :=
  { report with
    deniedTotal := report.deniedTotal + 1
    denied := if report.denied.length < undoMaxDeniedReported then report.denied ++ [(seq, err)]
      else report.denied }

/-- The entries that the counters of a report stand for, and those found undone. -/
structure Tally where
  undone : List JournalEntry
  skippedIrreversible : List JournalEntry
  skippedCreatedNoTrash : List JournalEntry
  skippedNotOurs : List JournalEntry
  denied : List (List JournalEntry)
  already : List JournalEntry
  deriving DecidableEq

def Tally.new : Tally := ⟨[], [], [], [], [], []⟩

def Tally.entries (tally : Tally) : List JournalEntry :=
  tally.undone ++ tally.skippedIrreversible ++ tally.skippedCreatedNoTrash ++ tally.skippedNotOurs ++
    tally.denied.flatten ++ tally.already

structure UndoReport.Counts (report : UndoReport) (tally : Tally) : Prop where
  undone : report.undone = tally.undone.length
  skippedIrreversible : report.skippedIrreversible = tally.skippedIrreversible.length
  skippedCreatedNoTrash : report.skippedCreatedNoTrash = tally.skippedCreatedNoTrash.length
  skippedNotOurs : report.skippedNotOurs = tally.skippedNotOurs.length
  deniedTotal : report.deniedTotal = tally.denied.length

/-- The entries `counted` as `r` says. -/
def Tally.count (tally : Tally) (counted : List JournalEntry) : Reverted → Tally
  | .done => { tally with undone := tally.undone ++ counted }
  | .skippedIrreversible => { tally with skippedIrreversible := tally.skippedIrreversible ++ counted }
  | .skippedNoTrash => { tally with skippedCreatedNoTrash := tally.skippedCreatedNoTrash ++ counted }
  | .skippedNotOurs => { tally with skippedNotOurs := tally.skippedNotOurs ++ counted }
  | .blocked _ _ | .accounted | .stuck _ _ => tally

/-- Which undo a unit gets. -/
inductive Shape where
  | sync
  | mode
  | single (e : JournalEntry)
  | rename
  deriving DecidableEq

def shape (unit : List JournalEntry) : Shape :=
  if isSyncUnit unit || isOrganizeUnit unit then .sync
  else if isModeUnit unit then .mode
  else match unit with
    | [e] => .single e
    | _ => .rename

/-- What is being done with the unit that was taken up last. `kept` and `others` are the
entries that did not come back; a unit is `held` when it is not touched. -/
inductive Doing where
  | between
  | held (unit : List JournalEntry)
  | entry (e : JournalEntry)
  | syncBatch (batch : Int) (ambiguous : List Bytes) (rest kept : List JournalEntry)
      (blocked : Option (Int × Error))
  | modeBatch (batch : Option Int) (rest done : List JournalEntry) (others : List (JournalEntry × Reverted))
  | renameBatch (unit : List JournalEntry) (batch : Batch)
  deriving DecidableEq

/-- The entries of the unit that no counter stands for yet. -/
def Doing.remains : Doing → List JournalEntry
  | between => []
  | held unit => unit
  | entry e => [e]
  | syncBatch _ _ rest kept _ => kept ++ rest
  | modeBatch _ rest done others => done ++ others.map Prod.fst ++ rest
  | renameBatch unit _ => unit

/-- An undo: the units of its selection, what the journal answered when its turn came, and
what it did so far. `met` are the units it took up, the last one first, each with whether
it could be neither finished nor skipped. -/
structure Task where
  actor : Actor
  plan : List (List JournalEntry)
  alreadyUndone : List Int
  units : List (List JournalEntry)
  doing : Doing
  report : UndoReport
  tally : Tally
  met : List (List JournalEntry × Bool)
  deriving DecidableEq

namespace Task

def new (actor : Actor) (plan : List (List JournalEntry)) : Task :=
  ⟨actor, plan, [], plan, .between, .new, .new, []⟩

/-- What no counter stands for: the rest of the unit taken up last, and all below it. -/
def left (t : Task) : List JournalEntry := t.doing.remains ++ t.units.flatten

/-- What is undone already of a unit is counted as that when the unit is taken up. -/
def takeUp (t : Task) (unit : List JournalEntry) (units : List (List JournalEntry)) (doing : Doing) : Task :=
  { t with
    units := units
    doing := doing
    tally := { t.tally with
      already := t.tally.already ++ unit.filter fun e => e.seq ∈ t.alreadyUndone }
    met := (unit, false) :: t.met }

def mark (t : Task) : Task :=
  { t with met := match t.met with
    | (unit, _) :: met => (unit, true) :: met
    | [] => [] }

/-- The policy denies a unit: a row in the report, and the undo goes on. -/
def deny (t : Task) (unit : List JournalEntry) (err : Error) : Task :=
  { t with
    report := t.report.deny ((unit.head?.map fun e => e.seq).getD 0) err
    tally := { t.tally with denied := t.tally.denied ++ [unit] } }

def block (t : Task) (seq : Int) (err : Error) : Task :=
  { t with report := { t.report with blocked := some (seq, err) } }.mark

/-- What becomes of the undo after `revert_unit`, and how it ends if it does. -/
def settle (t : Task) (counted : List JournalEntry) (r : Reverted) : Task × Option (Except Error Unit) :=
  let on := { t with doing := .between, tally := t.tally.count counted r }
  match r with
  | .done => ({ on with report.undone := t.report.undone + counted.length }, none)
  | .accounted => (on, none)
  | .skippedIrreversible =>
    ({ on with report.skippedIrreversible := t.report.skippedIrreversible + 1 }, none)
  | .skippedNoTrash =>
    ({ on with report.skippedCreatedNoTrash := t.report.skippedCreatedNoTrash + 1 }, none)
  | .skippedNotOurs => ({ on with report.skippedNotOurs := t.report.skippedNotOurs + 1 }, none)
  | .blocked seq err => (t.block seq err, some (.ok ()))
  | .stuck seq err => (t.block seq err, some (.error err))

end Task

/-! The units. -/

/-- The guard of a permissions batch: the paths of all entries lie on one machine. -/
def oneMachine (unit : List JournalEntry) (first : JournalEntry) : Except (Int × Error) Unit :=
  match wire first.path with
  | .error err => .error (first.seq, err)
  | .ok origin => unit.forM fun e =>
    match wire e.path with
    | .error err => .error (e.seq, err)
    | .ok path =>
      if path.scheme = origin.scheme ∧ path.authority = origin.authority then .ok ()
      else .error (e.seq, .invalidPath)

def newestFirst (unit : List JournalEntry) : List JournalEntry :=
  unit.insertionSort fun e e' => e'.seq ≤ e.seq

/-- A unit that is blocked before anything of it is touched. What the provider says of the
directory of a rename batch, and the journal of a batch id, is open. -/
inductive Refuses (unit : List JournalEntry) (first : JournalEntry) : Int → Error → Prop where
  | provider {seq : Int} {err : Error} : shape unit = .sync →
      oneProvider unit first = .error (.blocked seq err) → Refuses unit first seq err
  | syncId (err : Error) : shape unit = .sync → oneProvider unit first = .ok () → Refuses unit first first.seq err
  | machine {seq : Int} {err : Error} : shape unit = .mode → oneMachine unit first = .error (seq, err) →
      Refuses unit first seq err
  | directory : shape unit = .rename → batchDir unit = none → Refuses unit first first.seq .invalidPath
  | chain {dir : VPath} {seq : Int} {err : Error} : shape unit = .rename → batchDir unit = some dir →
      inverseChain dir unit = .error (seq, err) → Refuses unit first seq err
  | step {dir : VPath} {steps : List Inverse} {e : JournalEntry} (err : Error) : shape unit = .rename →
      batchDir unit = some dir → inverseChain dir unit = .ok steps → e ∈ unit → Refuses unit first e.seq err

/-- A unit that is begun. -/
inductive Begins (actor : Actor) (unit : List JournalEntry) (first : JournalEntry) (j : Journal) :
    Doing → Journal → Prop where
  | sync {id : Int} {j' : Journal} : shape unit = .sync → oneProvider unit first = .ok () →
      allocBatch j = some (id, j') →
      Begins actor unit first j (.syncBatch id (ambiguousRestores unit) (newestFirst unit) [] none) j'
  | mode {id : Int} {j' : Journal} : shape unit = .mode → oneMachine unit first = .ok () →
      allocBatch j = some (id, j') →
      Begins actor unit first j (.modeBatch (some id) (newestFirst unit) [] []) j'
  | modeLoose : shape unit = .mode → oneMachine unit first = .ok () →
      Begins actor unit first j (.modeBatch none (newestFirst unit) [] []) j
  | single {e : JournalEntry} : shape unit = .single e → Begins actor unit first j (.entry e) j
  | rename {dir : VPath} {steps : List Inverse} {id : Int} {j' : Journal} : shape unit = .rename →
      batchDir unit = some dir → inverseChain dir unit = .ok steps → allocBatch j = some (id, j') →
      Begins actor unit first j
        (.renameBatch unit ⟨actor, id, unit.map fun e => some e.seq, [], false⟩) j'

/-- The rows that were recorded, with the numbers they got. -/
def recorded (log : Sync.Log) : List (NewEntry × Int) :=
  log.filterMap fun event => match event with
    | ⟨.record entry, .ok seq⟩ => some (entry, seq)
    | _ => none

section Steps

variable (sha256 : Bytes → Hash)

/-- The journal takes the rows one by one and answers with these numbers. -/
inductive Writes : Journal → List (NewEntry × Int) → Journal → Prop where
  | nil (j : Journal) : Writes j [] j
  | cons {entry : NewEntry} {seq tsMs : Int} {j j' j'' : Journal} {rows : List (NewEntry × Int)} :
      recordEntry sha256 entry tsMs true j = some (.ok seq, j') → Writes j' rows j'' →
      Writes j ((entry, seq) :: rows) j''

/-- `revert_entry`, whatever the provider answers. -/
inductive Reverts (actor : Actor) (batch : Option Int) (e : JournalEntry) (j : Journal) :
    Except Error Reverted → Journal → Prop where
  | intro {b : Sync.Behaviour} {r : Except Error Reverted} {log : Sync.Log} {j' : Journal} :
      Sync.revertEntry b actor batch e [] = (r, log) → Writes sha256 j (recorded log) j' →
      Reverts actor batch e j r j'

/-- The executor of a rename batch: a step, the first that fails, and a step back with its
row or without. -/
inductive Batch.Moves (j : Journal) (b : Batch) : Journal → Batch → Prop where
  | ahead {o : Int} {pending : List (Option Int)} {fromPath toPath : Bytes} {seq tsMs : Int} {j' : Journal} :
      b.unwinding = false → b.pending = some o :: pending →
      recordEntry sha256 (b.renamed fromPath toPath (some o)) tsMs true j = some (.ok seq, j') →
      Batch.Moves j b j' { b with pending := pending, applied := seq :: b.applied }
  | fail : Batch.Moves j b j { b with unwinding := true }
  | back {s : Int} {applied : List Int} {fromPath toPath : Bytes} {seq tsMs : Int} {j' : Journal} :
      b.unwinding = true → b.applied = s :: applied →
      recordEntry sha256 (b.renamed toPath fromPath (some s)) tsMs true j = some (.ok seq, j') →
      Batch.Moves j b j' { b with applied := applied }
  | lost {s : Int} {applied : List Int} : b.unwinding = true → b.applied = s :: applied →
      Batch.Moves j b j { b with applied := applied }

/-- What the executor answers: all steps went ahead, or, unless it is stuck, all are back. -/
structure Batch.Ends (b : Batch) (outcome : Except Error Unit) (snapshot : Rename.BatchReport) : Prop where
  ahead : outcome = .ok () → b.unwinding = false ∧ b.pending = [] ∧ snapshot.stuck = none
  back : ∀ err, outcome = .error err → snapshot.stuck = none → b.applied = []

/-- Which entry a step of the inverse chain takes back. -/
def seqOf (unit : List JournalEntry) (fallbackSeq : Int) (i : Nat) : Int :=
  (unit[i]?.map fun e => e.seq).getD fallbackSeq

/-- What the executor did, as the undo reports it. -/
def interpret (outcome : Except Error Unit) (snapshot : Rename.BatchReport) (unit : List JournalEntry)
    (fallbackSeq : Int) (report : UndoReport) : Except Error Reverted × UndoReport :=
  let report := { report with compensationsLost := report.compensationsLost + snapshot.compensationsLost }
  match snapshot.stuck with
  | some s =>
    (.ok (.stuck (seqOf unit fallbackSeq s.pairIndex) s.error), { report with batchStuck := some s })
  | none =>
    match outcome with
    | .ok () => (.ok .done, report)
    | .error .cancelled => (.error .cancelled, report)
    | .error err =>
      (.ok (.blocked ((snapshot.failedPair.map (seqOf unit fallbackSeq)).getD fallbackSeq) err), report)

/-- A batch that accounts for itself, or names its first block. -/
def batchAnswer : Option (Int × Error) → Reverted
  | some (seq, err) => .blocked seq err
  | none => .accounted

def isBlocked : Reverted → Bool
  | .blocked _ _ => true
  | _ => false

def Task.markIf (t : Task) (r : Reverted) : Task := if isBlocked r then t.mark else t

/-- A step of the undo that has its turn, and how it ends if it does. -/
inductive Task.Step (j : Journal) (t : Task) : Journal → Task × Option (Except Error Unit) → Prop where
  | complete : t.doing = .between → t.units = [] → Task.Step j t j (t, some (.ok ()))
  | cancel : t.doing = .between → t.units ≠ [] → Task.Step j t j (t, some (.error .cancelled))
  | skip {unit : List JournalEntry} {units : List (List JournalEntry)} : t.doing = .between →
      t.units = unit :: units → validity unit t.alreadyUndone = .undone →
      Task.Step j t j (t.takeUp unit units .between, none)
  | stop {unit : List JournalEntry} {units : List (List JournalEntry)} {seq : Int} : t.doing = .between →
      t.units = unit :: units → validity unit t.alreadyUndone = .stop seq →
      Task.Step j t j ((t.takeUp unit units
        (.held (unit.filter fun e => e.seq ∉ t.alreadyUndone))).block seq .planStale, some (.ok ()))
  | deny {unit rest : List JournalEntry} {units : List (List JournalEntry)} (err : Error) :
      t.doing = .between → t.units = unit :: units → (validity unit t.alreadyUndone).unit? = some rest →
      Task.Step j t j ((t.takeUp unit units .between).deny rest err, none)
  | refuse {unit rest : List JournalEntry} {units : List (List JournalEntry)} {first : JournalEntry}
      {seq : Int} {err : Error} : t.doing = .between → t.units = unit :: units →
      (validity unit t.alreadyUndone).unit? = some rest → rest.head? = some first →
      Refuses rest first seq err →
      Task.Step j t j ((t.takeUp unit units (.held rest)).block seq err, some (.ok ()))
  | begin {unit rest : List JournalEntry} {units : List (List JournalEntry)} {first : JournalEntry}
      {doing : Doing} {j' : Journal} : t.doing = .between → t.units = unit :: units →
      (validity unit t.alreadyUndone).unit? = some rest → rest.head? = some first →
      Begins t.actor rest first j doing j' → Task.Step j t j' (t.takeUp unit units doing, none)
  | entry {e : JournalEntry} {r : Reverted} {j' : Journal} : t.doing = .entry e →
      Reverts sha256 t.actor none e j (.ok r) j' → Task.Step j t j' (t.settle [e] r)
  | entryLost {e : JournalEntry} {err : Error} {j' : Journal} : t.doing = .entry e →
      Reverts sha256 t.actor none e j (.error err) j' → Task.Step j t j' (t, some (.error err))
  | syncCancel {batch : Int} {ambiguous : List Bytes} {e : JournalEntry} {rest kept : List JournalEntry}
      {blocked : Option (Int × Error)} : t.doing = .syncBatch batch ambiguous (e :: rest) kept blocked →
      Task.Step j t j (t, some (.error .cancelled))
  | syncAmbiguous {batch : Int} {ambiguous : List Bytes} {e : JournalEntry} {rest kept : List JournalEntry}
      {blocked : Option (Int × Error)} : t.doing = .syncBatch batch ambiguous (e :: rest) kept blocked →
      ambiguous.contains e.path →
      Task.Step j t j (Task.mark { t with
        doing := .syncBatch batch ambiguous rest (kept ++ [e]) (blocked.or (some (e.seq, .unsupported)))
        report.toUndoReport := if e.reversal = Reversal.restoreTrash.asStr then t.report.noteUnreverted e.path
          else t.report.toUndoReport }, none)
  | syncEntry {batch : Int} {ambiguous : List Bytes} {e : JournalEntry} {rest kept : List JournalEntry}
      {blocked : Option (Int × Error)} {r : Reverted} {j' : Journal} :
      t.doing = .syncBatch batch ambiguous (e :: rest) kept blocked → ¬ambiguous.contains e.path →
      Reverts sha256 t.actor (some batch) e j (.ok r) j' →
      Task.Step j t j' (Task.markIf { t with
        doing := .syncBatch batch ambiguous rest (if isBlocked r then kept ++ [e] else kept)
          (t.report.add e blocked r).2
        report.toUndoReport := (t.report.add e blocked r).1
        tally := t.tally.count [e] r } r, none)
  | syncLost {batch : Int} {ambiguous : List Bytes} {e : JournalEntry} {rest kept : List JournalEntry}
      {blocked : Option (Int × Error)} {err : Error} {j' : Journal} :
      t.doing = .syncBatch batch ambiguous (e :: rest) kept blocked → ¬ambiguous.contains e.path →
      Reverts sha256 t.actor (some batch) e j (.error err) j' →
      Task.Step j t j' ({ t with report.compensationsLost := t.report.compensationsLost + 1 }, some (.error err))
  | syncEnd {batch : Int} {ambiguous : List Bytes} {kept : List JournalEntry}
      {blocked : Option (Int × Error)} : t.doing = .syncBatch batch ambiguous [] kept blocked →
      Task.Step j t j (t.settle [] (batchAnswer blocked))
  | modeCancel {batch : Option Int} {e : JournalEntry} {rest done : List JournalEntry}
      {others : List (JournalEntry × Reverted)} : t.doing = .modeBatch batch (e :: rest) done others →
      Task.Step j t j (t, some (.error .cancelled))
  | modeDone {batch : Option Int} {e : JournalEntry} {rest done : List JournalEntry}
      {others : List (JournalEntry × Reverted)} {j' : Journal} :
      t.doing = .modeBatch batch (e :: rest) done others → Reverts sha256 t.actor batch e j (.ok .done) j' →
      Task.Step j t j' ({ t with doing := .modeBatch batch rest (done ++ [e]) others }, none)
  | modeOther {batch : Option Int} {e : JournalEntry} {rest done : List JournalEntry}
      {others : List (JournalEntry × Reverted)} {r : Reverted} {j' : Journal} :
      t.doing = .modeBatch batch (e :: rest) done others → r ≠ .done →
      Reverts sha256 t.actor batch e j (.ok r) j' →
      Task.Step j t j' (Task.markIf { t with
        doing := .modeBatch batch rest done (others ++ [(e, r)])
        report.toUndoReport := t.report.noteUnreverted e.path } r, none)
  | modeLost {batch : Option Int} {e : JournalEntry} {rest done : List JournalEntry}
      {others : List (JournalEntry × Reverted)} {err : Error} {j' : Journal} :
      t.doing = .modeBatch batch (e :: rest) done others →
      Reverts sha256 t.actor batch e j (.error err) j' → Task.Step j t j' (t, some (.error err))
  -- the unit answers with the first entry that did not come back, whatever came after it
  | modeEnd {batch : Option Int} {done : List JournalEntry} {others : List (JournalEntry × Reverted)} :
      t.doing = .modeBatch batch [] done others →
      Task.Step j t j (Task.settle { t with
        doing := .modeBatch batch [] [] others
        report.undone := t.report.undone + done.length
        tally := t.tally.count done .done } (others.head?.map Prod.fst).toList
          ((others.head?.map Prod.snd).getD .accounted))
  | renameMove {unit : List JournalEntry} {b b' : Batch} {j' : Journal} : t.doing = .renameBatch unit b →
      Batch.Moves sha256 j b j' b' → Task.Step j t j' ({ t with doing := .renameBatch unit b' }, none)
  | renameEnd {unit : List JournalEntry} {b : Batch} {outcome : Except Error Unit}
      {snapshot : Rename.BatchReport} {r : Reverted} {report : UndoReport} :
      t.doing = .renameBatch unit b → Batch.Ends b outcome snapshot →
      interpret outcome snapshot unit ((unit.head?.map fun e => e.seq).getD 0) t.report = (.ok r, report) →
      Task.Step j t j (Task.settle { t with report := report } unit r)
  | renameCancel {unit : List JournalEntry} {b : Batch} {outcome : Except Error Unit}
      {snapshot : Rename.BatchReport} {err : Error} {report : UndoReport} :
      t.doing = .renameBatch unit b → Batch.Ends b outcome snapshot →
      interpret outcome snapshot unit ((unit.head?.map fun e => e.seq).getD 0) t.report = (.error err, report) →
      Task.Step j t j ({ t with report := report }, some (.error err))

/-- The undos of one journal: those that wait, the one that has its turn, and those that
ended, each with its end. -/
structure World where
  journal : Journal
  waiting : List Task
  turn : Option Task
  ended : List (Task × Except Error Unit)

/-- What an undo can be asked for: all of an actor, or what lies between two points. -/
def Selects (db : Database) (target : Actor) (entries : List JournalEntry) : Prop :=
  entries = db.revertibleFor target ∨
    ∃ afterSeq uptoSeq, entries = db.revertibleForAfter target afterSeq uptoSeq

inductive World.Step (w : World) : World → Prop where
  | mutation {e : NewEntry} {tsMs seq : Int} {j : Journal} : e.undoesSeq = none →
      recordEntry sha256 e tsMs true w.journal = some (.ok seq, j) → World.Step w { w with journal := j }
  | ask {target : Actor} {entries : List JournalEntry} (executor : Actor) :
      Selects w.journal.db target entries →
      World.Step w { w with waiting := Task.new executor (undoUnits entries) :: w.waiting }
  | turn {before after : List Task} {t : Task} : w.turn = none → w.waiting = before ++ t :: after →
      World.Step w { w with
        waiting := before ++ after
        turn := some { t with
          alreadyUndone := w.journal.db.undoneAmong (t.plan.flatten.map fun e => e.seq) } }
  -- cancelled while it waits, or the journal does not answer
  | leave {before after : List Task} {t : Task} (err : Error) : w.waiting = before ++ t :: after →
      World.Step w { w with waiting := before ++ after, ended := (t, .error err) :: w.ended }
  | work {t t' : Task} {j : Journal} : w.turn = some t → Task.Step sha256 w.journal t j (t', none) →
      World.Step w { w with journal := j, turn := some t' }
  | finish {t t' : Task} {j : Journal} {ending : Except Error Unit} : w.turn = some t →
      Task.Step sha256 w.journal t j (t', some ending) →
      World.Step w { w with journal := j, turn := none, ended := (t', ending) :: w.ended }

end Steps

/-! What is in force. -/

/-- A row that nothing took back. -/
def InForce (db : Database) (c : Row) : Prop := ∀ d ∈ db.rows, d.undoesSeq ≠ some c.seq

/-- No entry has two compensations in force. -/
def Single (db : Database) : Prop :=
  ∀ c ∈ db.rows, ∀ c' ∈ db.rows, c.undoesSeq.isSome → c.undoesSeq = c'.undoesSeq → InForce db c →
    InForce db c' → c = c'

/-- A journal that undos may find. -/
structure Fit (sha256 : Bytes → Hash) (j : Journal) : Prop where
  sound : ∃ marker mutations, Sound sha256 j marker mutations
  earlier : ∀ r ∈ j.db.rows, ∀ target ∈ r.undoesSeq, target ≤ j.chain.lastSeq
  single : Single j.db

/-- The worlds that undos of a journal reach through worlds that all meet `meets`. -/
inductive World.Reached (sha256 : Bytes → Hash) (meets : World → Prop) : World → Prop where
  | start {j : Journal} : Fit sha256 j → World.Reached sha256 meets ⟨j, [], none, []⟩
  | step {w w' : World} : World.Reached sha256 meets w → meets w → World.Step sha256 w w' →
      World.Reached sha256 meets w'

def World.tasks (w : World) : List Task := w.turn.toList ++ w.ended.map Prod.fst

/-- A unit that could be neither finished nor skipped is the last one taken up, in the
order of the plan. -/
def Task.Strict (t : Task) : Prop :=
  (t.met.reverse.map Prod.fst) ++ t.units = t.plan ∧ ∀ p ∈ t.met.tail, p.2 = false

/-- Every entry of the selection is counted once, or lies at or below the unit taken up
last; and nothing lies there if the undo went through. -/
structure Task.Accounted (t : Task) (ending : Except Error Unit) : Prop where
  distinct : (t.plan.flatten.map fun e => e.seq).Nodup
  once : (t.tally.entries ++ t.left).Perm t.plan.flatten
  counts : t.report.Counts t.tally
  already : ∀ e ∈ t.tally.already, e.seq ∈ t.alreadyUndone
  stop : ∀ e ∈ t.doing.remains, ∃ p ∈ t.met.head?, e ∈ p.1
  through : ending = .ok () → t.report.blocked = none → t.left = []

/-- A permissions batch is about to be answered for by an entry that was skipped while
another did not come back either. -/
def Doing.Masked : Doing → Prop
  | .modeBatch _ [] _ (first :: _ :: _) => isBlocked first.2 = false
  | _ => False

def World.Clean (w : World) : Prop := ∀ t ∈ w.turn, ¬t.doing.Masked

end Norte.Turns
