import Mathlib.Data.Finset.Card
import Norte.JournalChain
import Norte.JournalQueries

/-! The tasks that write the journal, interleaved: mutations, rename batches, and the one
undo that has its turn. What the provider answers is open; that an effect can only be
taken back while it is there is what it answers for. -/
namespace Norte.Chain

open Hashing Utf8

/-! Which undo a unit gets, by the shape of its entries. -/

def isSyncUnit (unit : List JournalEntry) : Bool :=
  !unit.isEmpty && unit.all fun e => e.batchId.isSome &&
    e.op ∈ ["created".toList, "trashed".toList, "removed".toList] &&
    e.reversal ∈ ["delete".toList, "restore_trash".toList, "irreversible".toList]

def opOrganized : Str := "organized".toList

def isOrganizeUnit (unit : List JournalEntry) : Bool :=
  !unit.isEmpty && (unit.any fun e => e.op = opOrganized) &&
    unit.all fun e => e.batchId.isSome && e.op ∈ [opOrganized, "created".toList] &&
      e.reversal ∈ ["rename_back".toList, "delete".toList, "irreversible".toList]

def isModeUnit (unit : List JournalEntry) : Bool :=
  !unit.isEmpty && unit.all fun e => e.batchId.isSome && e.op = "mode_changed".toList

inductive Validity where
  | whole (unit : List JournalEntry)
  | undone
  | inPart (unit : List JournalEntry)
  | stop (seq : Int)
  deriving DecidableEq

/-- What is left of a unit after the entries `alreadyUndone`. -/
def validity (unit : List JournalEntry) (alreadyUndone : List Int) : Validity :=
  let howMany := (unit.filter fun e => e.seq ∈ alreadyUndone).length
  if howMany = 0 then .whole unit
  else if howMany = unit.length then .undone
  else if isSyncUnit unit || isOrganizeUnit unit || isModeUnit unit then
    .inPart (unit.filter fun e => e.seq ∉ alreadyUndone)
  else .stop ((unit.head?.map fun e => e.seq).getD 0)

def Validity.unit? : Validity → Option (List JournalEntry)
  | whole unit => some unit
  | inPart unit => some unit
  | undone => none
  | stop _ => none

/-! What an undo records. -/

def modePermissionBits : Nat := 0o7777

/-- The compensation of `e`; `observed` is what the provider answered along the way: where
the trash put a node, or the mode it had. -/
def compensation (e : JournalEntry) (observed : Option Bytes) (actor : Actor) (batch : Option Int) :
    Option NewEntry :=
  if e.reversal = "delete".toList then
    some ⟨"trashed".toList, e.path, none, .restoreTrash, observed, actor, some e.seq, batch⟩
  else if e.reversal = "rename_back".toList then
    e.pathTo.map fun origin =>
      ⟨"renamed".toList, origin, some e.path, .renameBack, none, actor, some e.seq, batch⟩
  else if e.reversal = "set_mode_back".toList then do
    let previous ← parseU32 (← fromUtf8 (← e.reversalRef))
    if previous ≤ modePermissionBits then
      some ⟨"mode_changed".toList, e.path, some (encode (Nat.toDigits 10 previous)),
        if observed.isSome then .setModeBack else .irreversible, observed, actor, some e.seq, batch⟩
    else none
  else if e.reversal = "restore_trash".toList then
    some ⟨"created".toList, e.path, none, .delete, none, actor, some e.seq, batch⟩
  else none

/-- `BatchJournal`, and the batch it records: the steps to come, each with the entry it
takes back if any, and the entries of those that are applied, newest first. -/
structure Batch where
  actor : Actor
  batchId : Int
  pending : List (Option Int)
  applied : List Int
  unwinding : Bool
  deriving DecidableEq

def Batch.renamed (b : Batch) (fromPath toPath : Bytes) (undoes : Option Int) : NewEntry where
  op := "renamed".toList
  path := toPath
  pathTo := some fromPath
  reversal := .renameBack
  reversalRef := none
  actor := b.actor
  undoesSeq := undoes
  batchId := some b.batchId

/-- What an undo does with its unit: entry by entry, or as a batch of its own. -/
inductive Doing where
  | between
  | entries (batch : Option Int) (rest : List JournalEntry)
  | chain (batch : Batch)
  deriving DecidableEq

/-- An undo that has its turn: what the journal answered at its start, and its units. -/
structure Undo where
  actor : Actor
  alreadyUndone : List Int
  units : List (List JournalEntry)
  doing : Doing
  deriving DecidableEq

/-- `revert_unit`: an entry alone needs no batch, any other unit takes a fresh id. -/
def revertUnit (actor : Actor) (unit : List JournalEntry) (j : Journal) : Option (Doing × Journal) :=
  if isSyncUnit unit || isOrganizeUnit unit || isModeUnit unit then
    (allocBatch j).map fun given =>
      (.entries (some given.1) (unit.mergeSort fun a b => b.seq ≤ a.seq), given.2)
  else match unit with
    | [e] => some (.entries none [e], j)
    | _ => (allocBatch j).map fun given =>
      (.chain ⟨actor, given.1, unit.map fun e => some e.seq, [], false⟩, given.2)

structure World where
  journal : Journal
  force : Finset Int
  batches : List Batch
  asked : List (Actor × List (List JournalEntry))
  turn : Option Undo
  deriving DecidableEq

/-! What is in force. -/

def Database.target (db : Database) (seq : Int) : Option Int :=
  (db.rows.find? fun r => r.seq = seq).bind fun r => r.undoesSeq

/-- What is in force after the entry `seq`: itself, and if it takes one back no longer
that one, but again the one that this had taken back. -/
def forceAfter (db : Database) (force : Finset Int) (seq : Int) : Option Int → Finset Int
  | none => insert seq force
  | some t => match db.target t with
    | none => insert seq (force.erase t)
    | some o => insert seq (insert o (force.erase t))

section Steps

variable (sha256 : Bytes → Hash)

/-- An effect that took place and was recorded. -/
inductive World.Records (w : World) (e : NewEntry) (seq : Int) : World → Prop where
  | intro {tsMs : Int} {j : Journal} : recordEntry sha256 e tsMs true w.journal = some (.ok seq, j) →
      World.Records w e seq { w with journal := j, force := forceAfter w.journal.db w.force seq e.undoesSeq }

/-- A step of a batch, or one back. An act may be wanted back by its own batch and by an
undo: the one that comes second finds nothing there. -/
inductive Batch.Steps (w : World) (b : Batch) : Batch → World → Prop where
  | ahead {undoes : Option Int} {pending : List (Option Int)} {fromPath toPath : Bytes} {seq : Int}
      {w' : World} : b.unwinding = false → b.pending = undoes :: pending → (∀ t ∈ undoes, t ∈ w.force) →
      World.Records sha256 w (b.renamed fromPath toPath undoes) seq w' →
      Batch.Steps w b { b with pending := pending, applied := seq :: b.applied } w'
  | fail : Batch.Steps w b { b with unwinding := true } w
  | back {s : Int} {applied : List Int} {fromPath toPath : Bytes} {seq : Int} {w' : World} :
      b.unwinding = true → b.applied = s :: applied → (w.journal.db.target s = none → s ∈ w.force) →
      World.Records sha256 w (b.renamed toPath fromPath (some s)) seq w' →
      Batch.Steps w b { b with applied := applied } w'

inductive World.Step (w : World) : World → Prop where
  | mutation {e : NewEntry} {seq : Int} {w' : World} : e.undoesSeq = none →
      World.Records sha256 w e seq w' → World.Step w w'
  | begin {id : Int} {j : Journal} (actor : Actor) (steps : Nat) : allocBatch w.journal = some (id, j) →
      World.Step w { w with
        journal := j
        batches := ⟨actor, id, List.replicate steps none, [], false⟩ :: w.batches }
  | batch {before after : List Batch} {b b' : Batch} {w' : World} : w.batches = before ++ b :: after →
      Batch.Steps sha256 w b b' w' → World.Step w { w' with batches := before ++ b' :: after }
  | leave {before after : List Batch} {b : Batch} : w.batches = before ++ b :: after →
      World.Step w { w with batches := before ++ after }
  -- an undo chooses among what is revertible now, and waits for its turn
  | ask {target : Actor} {entries : List JournalEntry} (executor : Actor) :
      entries.Sublist (w.journal.db.revertibleFor target) →
      World.Step w { w with asked := (executor, undoUnits entries) :: w.asked }
  | turn {before after : List (Actor × List (List JournalEntry))} {actor : Actor}
      {units : List (List JournalEntry)} : w.turn = none → w.asked = before ++ (actor, units) :: after →
      World.Step w { w with
        asked := before ++ after
        turn := some ⟨actor, w.journal.db.undoneAmong (units.flatten.map fun e => e.seq), units, .between⟩ }
  -- undone already, or denied
  | skip {actor : Actor} {undone : List Int} {unit : List JournalEntry} {units : List (List JournalEntry)} :
      w.turn = some ⟨actor, undone, unit :: units, .between⟩ →
      World.Step w { w with turn := some ⟨actor, undone, units, .between⟩ }
  | revert {actor : Actor} {undone : List Int} {unit left : List JournalEntry}
      {units : List (List JournalEntry)} {doing : Doing} {j : Journal} :
      w.turn = some ⟨actor, undone, unit :: units, .between⟩ → (validity unit undone).unit? = some left →
      revertUnit actor left w.journal = some (doing, j) →
      World.Step w { w with journal := j, turn := some ⟨actor, undone, units, doing⟩ }
  | entry {actor : Actor} {undone : List Int} {units : List (List JournalEntry)} {batch : Option Int}
      {e : JournalEntry} {rest : List JournalEntry} {observed : Option Bytes} {c : NewEntry} {seq : Int}
      {w' : World} : w.turn = some ⟨actor, undone, units, .entries batch (e :: rest)⟩ →
      compensation e observed actor batch = some c → e.seq ∈ w.force → World.Records sha256 w c seq w' →
      World.Step w { w' with turn := some ⟨actor, undone, units, .entries batch rest⟩ }
  | pass {actor : Actor} {undone : List Int} {units : List (List JournalEntry)} {batch : Option Int}
      {e : JournalEntry} {rest : List JournalEntry} :
      w.turn = some ⟨actor, undone, units, .entries batch (e :: rest)⟩ →
      World.Step w { w with turn := some ⟨actor, undone, units, .entries batch rest⟩ }
  | chain {actor : Actor} {undone : List Int} {units : List (List JournalEntry)} {b b' : Batch} {w' : World} :
      w.turn = some ⟨actor, undone, units, .chain b⟩ → Batch.Steps sha256 w b b' w' →
      World.Step w { w' with turn := some ⟨actor, undone, units, .chain b'⟩ }
  | next {actor : Actor} {undone : List Int} {units : List (List JournalEntry)} {doing : Doing} :
      w.turn = some ⟨actor, undone, units, doing⟩ →
      World.Step w { w with turn := some ⟨actor, undone, units, .between⟩ }
  | stop : World.Step w { w with turn := none }
  -- what runs does not survive a restart
  | reopen (tsMs : Int) : World.Step w ⟨fromOptions sha256 tsMs w.journal.db, w.force, [], [], none⟩

/-- The worlds that are reached from a new journal. -/
inductive World.Reached : World → Prop where
  | fresh (tsMs : Int) : World.Reached ⟨openInMemory sha256 tsMs, ∅, [], [], none⟩
  | older : World.Reached ⟨unmarked, ∅, [], [], none⟩
  | step {w w' : World} : World.Reached w → World.Step sha256 w w' → World.Reached w'

end Steps

theorem validity_subset {unit left : List JournalEntry} {undone : List Int}
    (valid : (validity unit undone).unit? = some left) : left ⊆ unit := by
  unfold validity at valid
  dsimp only at valid
  split_ifs at valid
  · obtain rfl := Option.some.inj valid
    exact List.Subset.refl _
  · cases valid
  · obtain rfl := Option.some.inj valid
    exact List.filter_subset_self _
  · cases valid

theorem compensation_undoes {e : JournalEntry} {observed : Option Bytes} {actor : Actor}
    {batch : Option Int} {c : NewEntry} (found : compensation e observed actor batch = some c) :
    c.undoesSeq = some e.seq := by
  unfold compensation at found
  split at found
  · obtain rfl := Option.some.inj found
    rfl
  split at found
  · obtain ⟨origin, _, rfl⟩ := Option.map_eq_some_iff.mp found
    rfl
  split at found
  · obtain ⟨_, _, rest⟩ := Option.bind_eq_some_iff.mp found
    obtain ⟨_, _, rest⟩ := Option.bind_eq_some_iff.mp rest
    obtain ⟨_, _, rest⟩ := Option.bind_eq_some_iff.mp rest
    split at rest
    · obtain rfl := Option.some.inj rest
      rfl
    · cases rest
  split at found
  · obtain rfl := Option.some.inj found
    rfl
  · cases found

end Norte.Chain
