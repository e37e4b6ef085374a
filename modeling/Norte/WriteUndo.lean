import Norte.WriteTask

/-! The rows of a `write_task` taken back, newest first, against a provider whose calls go
through: what each row's reversal does to the world, and what is there at the end. -/
namespace Norte.WriteTask

open Chain (NewEntry JournalEntry Actor pathBytes wire wire_pathBytes Reversal compensation)
open Sync (Call Event Log Behaviour NodeId EntryKind)

/-! ### A provider whose calls go through -/

namespace World

variable (names : Names)

/-- What a call answers; the calls that no reversal of these rows makes are refused. -/
def answer (w : World) : (call : Call) → call.Answer
  | .stat _ path => (w.stat path).map fun t => ⟨path, t.kind, none, none⟩
  | .nodeId path => (w.stat path).map Thing.node
  | .hasTrash => true
  | .trash path _ =>
    match w.tree path with
    | some _ => .done (some (names.name w.used path))
    | none => .failed .notFound .notApplied
  | .restoreFrom there path =>
    match w.restoreFrom there path with
    | .ok () => .done ()
    | .error e => .failed e .notApplied
  | .record _ => .ok 0
  | .isCancelled | .checkDue => false
  | .openRoot | .stillStanding => .ok ()
  | .evaluate _ _ => .allow
  | .list _ => .ok []
  | .walk _ => .error .unsupported
  | .readLink _ => .error .unsupported
  | .bytesDone => 0
  | .mode _ => none
  | .allocBatch => .error .unsupported
  | .mkdir _ | .symlink _ _ | .remove _ _ | .restoreTrashed _ => .failed .unsupported .notApplied
  | .rename _ _ | .detour _ _ | .setMode _ _ => .failed .unsupported .notApplied
  | .copyFile _ _ _ => .failed .unsupported .notApplied

/-- What a call does. -/
def effect (w : World) : Call → World
  | .trash path _ => if (w.tree path).isSome then w.bury names path else w
  | .restoreFrom there path =>
    match w.restoreFrom there path with
    | .ok () => w.unearth there path
    | .error _ => w
  | _ => w

/-- The world after the calls of a log. -/
def after (w : World) (log : Log) : World := log.foldl (fun w e => w.effect names e.call) w

def behaviour (w : World) : Behaviour := fun call log => (w.after names log).answer names call

@[simp] theorem after_nil (w : World) : w.after names [] = w := rfl

@[simp] theorem after_append (w : World) (log : Log) (e : Event) :
    w.after names (log ++ [e]) = (w.after names log).effect names e.call := List.foldl_append

end World

/-! ### The undo, one row after the other -/

/-- Rows newest first, up to the first that is blocked: did it come to the end, and what was
asked. -/
def undoRows (b : Behaviour) (actor : Actor) : List JournalEntry → Log → Bool × Log
  | [], log => (true, log)
  | e :: es, log =>
    match Sync.revertEntry b actor none e log with
    | (.error _, log) | (.ok (.blocked _ _), log) | (.ok (.stuck _ _), log) => (false, log)
    | (.ok _, log) => undoRows b actor es log

/-- A row as the journal gives it back. -/
def Recorded (n : NewEntry) (e : JournalEntry) : Prop := ∃ tsMs seq, e.toRecord = n.record tsMs seq

/-! ### Footprints -/

theorem splitColon_append {s : Str} (t : Str) (free : ':' ∉ s) : Sync.splitColon (s ++ ':' :: t) = some (s, t) := by
  induction s with
  | nil => simp [Sync.splitColon]
  | cons c s ih =>
    obtain ⟨apart, rest⟩ := not_or.mp (mt List.mem_cons.mpr free)
    simp [Sync.splitColon, Ne.symm apart, ih rest]

theorem parseBelow_toDigits {bound n m : Nat} (read : Sync.parseBelow bound (Nat.toDigits 10 n) = some m) : m = n := by
  have plain : (Nat.toDigits 10 n).head? ≠ some '+' := by
    intro plus
    cases Nat.isDigit_of_mem_toDigits (by decide) (by decide) (List.mem_of_head? plus)
  have value : (Nat.toDigits 10 n).foldl (fun n c => 10 * n + (c.toNat - '0'.toNat)) 0 = n := by
    rw [← Nat.ofDigitChars_eq_foldl, Nat.ofDigitChars_ten_toDigits]
  simp only [Sync.parseBelow, if_neg plain, value] at read
  split at read
  · split at read
    · exact (Option.some.inj read).symm
    · cases read
  · cases read

/-- A footprint that reads back is that of its node. -/
theorem footprintToNode_nodeFootprint {n m : NodeId} (read : Sync.footprintToNode (nodeFootprint n) = some m) : m = n := by
  have free : ':' ∉ Nat.toDigits 10 n.volume := by
    intro member
    cases Nat.isDigit_of_mem_toDigits (by decide) (by decide) member
  simp only [Sync.footprintToNode, nodeFootprint, Utf8.fromUtf8_encode, splitColon_append _ free, Option.bind_eq_bind,
    Option.bind_some, Option.bind_eq_some_iff, Option.pure_def, Option.some.injEq] at read
  obtain ⟨volume, first, index, second, rfl⟩ := read
  rw [parseBelow_toDigits first, parseBelow_toDigits second]

/-! ### What a reversal does -/

section Revert

variable {names : Names} {w : World} {log : Log} {path : VPath} {actor actor' : Actor} {e : JournalEntry}

theorem isOurs_behaviour {t : Thing} {node : Option NodeId} (there : (w.after names log).tree path = some t)
    (ours : node = none ∨ node = t.node) (kept : e.reversalRef = node.map nodeFootprint) :
    ∃ log', Sync.isOurs (w.behaviour names) path e log = (.ok true, log') ∧ w.after names log' = w.after names log := by
  rw [Sync.isOurs, kept]
  cases read : (node.map nodeFootprint).bind Sync.footprintToNode with
  | none => exact ⟨log, rfl, rfl⟩
  | some expected =>
    obtain ⟨bytes, some_, parsed⟩ := Option.bind_eq_some_iff.mp read
    obtain ⟨n, rfl, rfl⟩ := Option.map_eq_some_iff.mp some_
    obtain rfl := footprintToNode_nodeFootprint parsed
    rcases ours with none_ | same
    · cases none_
    · refine ⟨log ++ [⟨.nodeId path, .ok t.node⟩], ?_, by simp [World.effect]⟩
      simp [Sync.ask, World.behaviour, World.answer, World.stat, there, ← same, Except.map]

theorem compensation_delete (actor : Actor) (observed : Option Bytes) (delete : e.reversal = Reversal.delete.asStr) :
    ∃ entry, compensation e observed actor none = some entry :=
  ⟨_, if_pos delete⟩

theorem compensation_restore (actor : Actor) (observed : Option Bytes) (restore : e.reversal = Reversal.restoreTrash.asStr) :
    ∃ entry, compensation e observed actor none = some entry := by
  have apart : e.reversal ≠ "delete".toList ∧ e.reversal ≠ "rename_back".toList ∧ e.reversal ≠ "set_mode_back".toList := by
    rw [restore]
    decide
  exact ⟨_, (if_neg apart.1).trans ((if_neg apart.2.1).trans ((if_neg apart.2.2).trans (if_pos restore)))⟩

theorem compensate_behaviour {observed : Option Bytes} {entry : NewEntry} (names : Names) (w : World) (log : Log)
    (found : compensation e observed actor none = some entry) :
    ∃ log', Sync.compensate (w.behaviour names) actor none e observed log = (.ok .done, log') ∧
      w.after names log' = w.after names log := by
  refine ⟨log ++ [⟨.record entry, .ok 0⟩], ?_, by simp [World.effect]⟩
  simp [Sync.compensate, found, Sync.ask, World.behaviour, World.answer]

variable (names w log actor') in
/-- The undo of a creation buries what is there, if it is what was created. -/
theorem revert_created {t : Thing} {node : Option NodeId} (recorded : Recorded (created actor path node) e)
    (there : (w.after names log).tree path = some t) (file : t.kind ≠ .dir) (ours : node = none ∨ node = t.node) :
    ∃ log', Sync.revertEntry (w.behaviour names) actor' none e log = (.ok .done, log') ∧
      w.after names log' = (w.after names log).bury names path := by
  obtain ⟨tsMs, seq, row⟩ := recorded
  have at_ : e.path = pathBytes path := by rw [row]; rfl
  have reversal : e.reversal = Reversal.delete.asStr := by rw [row]; rfl
  have kept : e.reversalRef = node.map nodeFootprint := by rw [row]; rfl
  have opened : Sync.revertEntry (w.behaviour names) actor' none e log =
      Sync.revertCreated (w.behaviour names) actor' none path e log := by
    have other : e.reversal ≠ Reversal.irreversible.asStr := by
      rw [reversal]
      decide
    rw [Sync.revertEntry, at_, wire_pathBytes]
    exact (if_neg other).trans (if_pos reversal)
  have looked : Sync.ask (w.behaviour names) (.stat .dest path) log =
      (.ok ⟨path, t.kind, none, none⟩, log ++ [⟨.stat .dest path, .ok ⟨path, t.kind, none, none⟩⟩]) := by
    simp [Sync.ask, World.behaviour, World.answer, World.stat, there, Except.map]
  generalize seen : log ++ [(⟨.stat .dest path, .ok ⟨path, t.kind, none, none⟩⟩ : Event)] = log₁ at looked
  have same₁ : w.after names log₁ = w.after names log := by simp [← seen, World.effect]
  have there₁ : (w.after names log₁).tree path = some t := by rwa [same₁]
  obtain ⟨log₂, owned, same₂⟩ := isOurs_behaviour there₁ ours kept
  have capable : Sync.ask (w.behaviour names) .hasTrash log₂ = (true, log₂ ++ [⟨.hasTrash, true⟩]) := rfl
  generalize able : log₂ ++ [(⟨.hasTrash, true⟩ : Event)] = log₃ at capable
  have same₃ : w.after names log₃ = w.after names log := by simp [← able, World.effect, same₂, same₁]
  obtain ⟨dest, log₄, buried, same₄⟩ : ∃ dest log₄, Sync.trashRetrying (w.behaviour names) path e.seq.natAbs log₃ =
      (.ok dest, log₄) ∧ w.after names log₄ = (w.after names log).bury names path := by
    refine ⟨some (names.name (w.after names log).used path),
      log₃ ++ [⟨.trash path e.seq.natAbs, .done (some (names.name (w.after names log).used path))⟩], ?_, ?_⟩
    · simp [Sync.trashRetrying, Sync.ask, World.behaviour, World.answer, same₃, there, Sync.Outcome.plain,
        Sync.Outcome.answer, Except.mapError]
    · simp [World.effect, same₃, there]
  obtain ⟨entry, found⟩ := compensation_delete actor' (dest.map pathBytes) reversal
  obtain ⟨log₅, compensated, same₅⟩ := compensate_behaviour names w log₄ found
  refine ⟨log₅, ?_, same₅.trans same₄⟩
  rw [opened, Sync.revertCreated, looked]
  simp only [owned, Sync.isFilledDir, if_neg file, Sync.buryCreated, capable, buried, compensated]

theorem opened_trashed {dest : Option VPath} (recorded : Recorded (trashed actor path dest) e) (log : Log) :
    Sync.revertEntry (w.behaviour names) actor' none e log =
      Sync.revertTrashed (w.behaviour names) actor' none path e log := by
  obtain ⟨tsMs, seq, row⟩ := recorded
  have at_ : e.path = pathBytes path := by rw [row]; rfl
  have reversal : e.reversal = Reversal.restoreTrash.asStr := by rw [row]; rfl
  have others : e.reversal ≠ Reversal.irreversible.asStr ∧ e.reversal ≠ Reversal.delete.asStr ∧
      e.reversal ≠ Reversal.renameBack.asStr ∧ e.reversal ≠ Reversal.setModeBack.asStr := by
    rw [reversal]
    decide
  rw [Sync.revertEntry, at_, wire_pathBytes]
  exact (if_neg others.1).trans ((if_neg others.2.1).trans ((if_neg others.2.2.1).trans
    ((if_neg others.2.2.2).trans (if_pos reversal))))

theorem isFree_behaviour (names : Names) (w : World) (path : VPath) (log : Log) :
    ∃ log', Sync.isFree (w.behaviour names) path log = (.ok ((w.after names log).tree path).isNone, log') ∧
      w.after names log' = w.after names log := by
  cases there : (w.after names log).tree path with
  | none =>
    refine ⟨log ++ [⟨.stat .dest path, .error .notFound⟩], ?_, by simp [World.effect]⟩
    simp [Sync.isFree, Sync.ask, World.behaviour, World.answer, World.stat, there, Except.map]
  | some t =>
    refine ⟨log ++ [⟨.stat .dest path, .ok ⟨path, t.kind, none, none⟩⟩], ?_, by simp [World.effect]⟩
    simp [Sync.isFree, Sync.ask, World.behaviour, World.answer, World.stat, there, Except.map]

variable (names w log actor') in
/-- With something in its path, the undo of a burial is blocked. -/
theorem revert_trashed_occupied {dest : Option VPath} (recorded : Recorded (trashed actor path dest) e)
    (occupied : ((w.after names log).tree path).isSome) :
    ∃ error log', Sync.revertEntry (w.behaviour names) actor' none e log = (.ok (.blocked e.seq error), log') := by
  obtain ⟨log₁, free, same₁⟩ := isFree_behaviour names w path log
  have full : ((w.after names log).tree path).isNone = false := by simpa using occupied
  refine ⟨Chain.occupied, log₁, ?_⟩
  simp only [opened_trashed recorded, Sync.revertTrashed, free, full]

theorem there_trashed {en : VPath} (recorded : Recorded (trashed actor path (some en)) e) :
    e.reversalRef.mapM wire = .ok (some en) := by
  obtain ⟨tsMs, seq, row⟩ := recorded
  have kept : e.reversalRef = some (pathBytes en) := by rw [row]; rfl
  rw [kept, Option.mapM_some, wire_pathBytes]
  rfl

variable (names w log actor') in
/-- With nothing at the place it names, the undo of a burial is blocked. -/
theorem revert_trashed_missing {en : VPath} (recorded : Recorded (trashed actor path (some en)) e)
    (free : (w.after names log).tree path = none) (gone : (w.after names log).trash en = none) :
    ∃ error log', Sync.revertEntry (w.behaviour names) actor' none e log = (.ok (.blocked e.seq error), log') := by
  obtain ⟨log₁, vacant, same₁⟩ := isFree_behaviour names w path log
  refine ⟨.notFound, log₁ ++ [⟨.restoreFrom en path, .failed .notFound .notApplied⟩], ?_⟩
  simp [opened_trashed recorded, Sync.revertTrashed, vacant, free, there_trashed recorded, Sync.unearth, Sync.ask,
    World.behaviour, World.answer, World.restoreFrom, same₁, gone, Sync.Outcome.plain, Sync.Outcome.answer,
    Except.mapError]

variable (names w log actor') in
/-- The undo of a burial brings back what is at the place it names. -/
theorem revert_trashed {en : VPath} {t : Thing} (recorded : Recorded (trashed actor path (some en)) e)
    (free : (w.after names log).tree path = none) (kept : (w.after names log).trash en = some t) :
    ∃ log', Sync.revertEntry (w.behaviour names) actor' none e log = (.ok .done, log') ∧
      w.after names log' = (w.after names log).unearth en path := by
  have restore : e.reversal = Reversal.restoreTrash.asStr := by
    obtain ⟨tsMs, seq, row⟩ := recorded
    rw [row]
    rfl
  obtain ⟨log₁, vacant, same₁⟩ := isFree_behaviour names w path log
  have given : (w.after names log).restoreFrom en path = .ok () := by simp [World.restoreFrom, free, kept]
  obtain ⟨entry, found⟩ := compensation_restore actor' none restore
  obtain ⟨log₂, compensated, same₂⟩ :=
    compensate_behaviour names w (log₁ ++ [⟨.restoreFrom en path, .done ()⟩]) found
  refine ⟨log₂, ?_, by simp [same₂, World.effect, same₁, given]⟩
  have unearthed : Sync.unearth (w.behaviour names) path (some en) log₁ =
      (.ok (), log₁ ++ [⟨.restoreFrom en path, .done ()⟩]) := by
    simp [Sync.unearth, Sync.ask, World.behaviour, World.answer, same₁, given, Sync.Outcome.plain, Sync.Outcome.answer,
      Except.mapError]
  simp only [opened_trashed recorded, Sync.revertTrashed, vacant, free, Option.isNone_none, there_trashed recorded,
    unearthed, compensated]

end Revert

end Norte.WriteTask
