import Norte.FoldingDir
import Norte.RenameReport

/-! The rollback against a directory that looks names up by the key of the plan, and
that nobody else touches. A step that only respells its entry cannot be taken back: the
guard asks whether the old name is free, and the renamed entry itself holds it. -/
namespace Norte.Rename

open Moves

/-- The name a path has in `dir`, if it is one of its entries. -/
def nameIn (dir p : VPath) : Option Bytes :=
  if p.parent = some dir then p.fileName.map Segment.bytes else none

@[simp] theorem nameIn_join (dir : VPath) (segment : Segment) :
    nameIn dir (dir.join segment) = some segment.bytes := by
  simp [nameIn, VPath.join, VPath.parent, VPath.fileName]

def moveIn (dir fromPath toPath : VPath) : Option (Move Bytes) := do
  let source ← nameIn dir fromPath
  let target ← nameIn dir toPath
  return ⟨source, target⟩

/-- Where a run stops. -/
inductive Stop where
  | renameFails (k : Nat) (error : Error)
  | renameFailsAfter (k : Nat) (error : Error)
  | journalFails (k : Nat) (error : Error)
  | cancelled (k : Nat)
  deriving DecidableEq

def Stop.index : Stop → Nat
  | renameFails k _ | renameFailsAfter k _ | journalFails k _ | cancelled k => k

/-- How many steps took effect before the run stopped. -/
def Stop.effects : Stop → Nat
  | renameFails k _ | cancelled k => k
  | renameFailsAfter k _ | journalFails k _ => k + 1

def Event.isTry : Event → Bool
  | .rename .forward .. => true
  | _ => false

def Event.isForwardRow : Event → Bool
  | .renamed .forward .. => true
  | _ => false

/-- A directory that starts with `start` and one stop. What the recorder answers to
rows it accepts and to compensations is anything. -/
structure Folder where
  key : Bytes → Bytes
  dir : VPath
  start : Finset Bytes
  stop : Stop
  seqs : List Event → Option Int
  compensated : List Event → Except Error (Option Int)
  records : Bool

@[simp] theorem Log.countP_push (p : Event → Bool) (log : Log) (event : Event) :
    (log.push event).history.countP p = log.history.countP p + if p event then 1 else 0 := by
  simp [Log.push, List.countP_cons]

namespace Folder

variable (f : Folder)

def after (dir : Finset Bytes) : Event → Finset Bytes
  | .rename _ fromPath toPath outcome =>
    match moveIn f.dir fromPath toPath with
    | some m => if outcome.effect then respell f.key dir m else dir
    | none => dir
  | _ => dir

/-- The names in the directory after a history. -/
def contents (h : List Event) : Finset Bytes := h.foldl f.after f.start

/-- What the directory itself does with a rename. -/
def natural (h : List Event) (m : Move Bytes) : Outcome :=
  if Permitted f.key (f.contents h) m then .done
  else if Holds f.key (f.contents h) m.source then .failed occupied
  else .failed .notFound

def behaviour : Behaviour where
  rename direction h fromPath toPath :=
    match moveIn f.dir fromPath toPath with
    | none => .failed .notFound
    | some m =>
      match direction, f.stop with
      | .forward, .renameFails k e => if h.countP Event.isTry = k then .failed e else f.natural h m
      | .forward, .renameFailsAfter k e =>
        if h.countP Event.isTry = k ∧ Permitted f.key (f.contents h) m then .failedAfter e
        else f.natural h m
      | _, _ => f.natural h m
  stat h path :=
    match nameIn f.dir path with
    | none => .error .notFound
    | some name => if Holds f.key (f.contents h) name then .ok () else .error .notFound
  renamed direction h _ _ _ :=
    match direction, f.stop with
    | .back, _ => f.compensated h
    | .forward, .journalFails k e =>
      if h.countP Event.isForwardRow = k then .error e else .ok (f.seqs h)
    | .forward, _ => .ok (f.seqs h)
  isCancelled h :=
    match f.stop with
    | .cancelled k => h.countP Event.isTry = k
    | _ => false
  records := f.records

@[simp] theorem contents_push (log : Log) (event : Event) :
    f.contents (log.push event).history = f.after (f.contents log.history) event := by
  simp [contents, Log.push]

/-- `a` moved the names of `m`. -/
def Moved (a : Applied) (m : Move Bytes) : Prop :=
  nameIn f.dir a.fromPath = some m.source ∧ nameIn f.dir a.toPath = some m.target

theorem isFree_answer {path : VPath} {name : Bytes} (named : nameIn f.dir path = some name) (log : Log) :
    (isFree f.behaviour path log).1 = .ok (decide ¬Holds f.key (f.contents log.history) name) ∧
    f.contents (isFree f.behaviour path log).2.history = f.contents log.history := by
  refine ⟨?_, by simp [isFree, stat, after]⟩
  have answer : (isFree f.behaviour path log).1 = freeOf (f.behaviour.stat log.history path) := rfl
  rw [answer]
  simp only [behaviour, named]
  by_cases held : Holds f.key (f.contents log.history) name <;> simp [held, freeOf]

/-- One reversal is one guarded move back. -/
theorem reverse_takeBack {a : Applied} {m : Move Bytes} (moved : f.Moved a m) (log : Log) :
    match takeBack f.key (f.contents log.history) m with
    | some back => (reverse f.behaviour a log).1 = none ∧
        f.contents (reverse f.behaviour a log).2.history = back
    | none => (reverse f.behaviour a log).1.isSome := by
  obtain ⟨free, same⟩ := f.isFree_answer moved.1 log
  simp only [reverse, free]
  by_cases held : Holds f.key (f.contents log.history) m.source
  · simp [takeBack, held]
  · have way : moveIn f.dir a.toPath a.fromPath = some m.inverse := by
      simp [moveIn, moved.1, moved.2, Move.inverse]
    have answer (h : List Event) : f.behaviour.rename .back h a.toPath a.fromPath =
        f.natural h m.inverse := by simp [behaviour, way]
    simp only [held, not_false_eq_true, decide_true, rename, answer, contents_push, after, way, same]
    by_cases there : Holds f.key (f.contents log.history) m.target
    · have permitted : Permitted f.key (f.contents log.history) m.inverse := ⟨there, .inr held⟩
      simp [takeBack, held, there, natural, same, permitted, Outcome.error?, Outcome.effect]
    · have refused : ¬Permitted f.key (f.contents log.history) m.inverse := fun p => there p.1
      have lost : ¬Holds f.key (f.contents log.history) m.inverse.source := there
      simp [takeBack, there, natural, same, refused, lost, Outcome.error?]

@[simp] theorem compensate_contents (a : Applied) (log : Log) :
    f.contents (compensate f.behaviour a log).history = f.contents log.history := by
  unfold compensate
  split
  · simp only [renamed]
    split <;> simp [after]
  · rfl

/-- A rollback is the guarded moves back, newest first, and it is stuck where they are. -/
theorem unwind_takeAllBack {applied : List Applied} {moves : List (Move Bytes)}
    (moved : List.Forall₂ f.Moved applied moves) (log : Log) :
    match takeAllBack f.key moves (f.contents log.history) with
    | some back => f.contents (unwind f.behaviour applied log).2.history = back ∧
        (unwind f.behaviour applied log).2.report.stuck = log.report.stuck
    | none => (unwind f.behaviour applied log).2.report.stuck.isSome := by
  induction moved generalizing log with
  | nil => exact ⟨rfl, rfl⟩
  | @cons a m applied moves here _ ih =>
    have step := f.reverse_takeBack here log
    have report := (reverse_cases f.behaviour a log).2.1
    rw [unwind, takeAllBack]
    generalize reverse f.behaviour a log = reversed at step report
    obtain ⟨blocked, mid⟩ := reversed
    cases taken : takeBack f.key (f.contents log.history) m with
    | none =>
      rw [taken] at step
      obtain ⟨e, rfl⟩ := Option.isSome_iff_exists.mp step
      rfl
    | some back =>
      rw [taken] at step
      obtain ⟨rfl, rfl⟩ := step
      have rest := ih { compensate f.behaviour a mid with report :=
        { (compensate f.behaviour a mid).report with
          rolledBack := (compensate f.behaviour a mid).report.rolledBack + 1 } }
      have stuck : (compensate f.behaviour a mid).report.stuck = log.report.stuck := by
        rw [compensate_report, report]
      simp only [compensate_contents] at rest
      simp only [Option.bind_some]
      split at rest
      · exact ⟨rest.1, rest.2.trans stuck⟩
      · exact rest

/-- The step `s` moves the names of `m`. -/
def Steps (s : PlannedStep) (m : Move Bytes) : Prop :=
  nameIn f.dir s.fromPath = some m.source ∧ nameIn f.dir s.toPath = some m.target

theorem Steps.moveIn {f : Folder} {s : PlannedStep} {m : Move Bytes} (named : f.Steps s m) :
    moveIn f.dir s.fromPath s.toPath = some m := by
  simp [Rename.moveIn, named.1, named.2]

/-- The run after `k` steps, all of them done and written. -/
structure At (moves : List (Move Bytes)) (k : Nat) (applied : List Applied) (log : Log) : Prop where
  contents : Moves.run f.key f.start (moves.take k) = some (f.contents log.history)
  tries : log.history.countP Event.isTry = k
  written : log.history.countP Event.isForwardRow = k
  moved : List.Forall₂ f.Moved applied (moves.take k).reverse
  stuck : log.report.stuck = none
  uncertain : log.report.uncertain = none

theorem rename_natural {h : List Event} (other : h.countP Event.isTry ≠ f.stop.index) {s : PlannedStep}
    {m : Move Bytes} (named : f.Steps s m) (permitted : Permitted f.key (f.contents h) m) :
    f.behaviour.rename .forward h s.fromPath s.toPath = .done := by
  cases found : f.stop <;> rw [found] at other <;>
    simp_all [behaviour, named.moveIn, natural, Stop.index]

theorem isCancelled_before {h : List Event} (other : h.countP Event.isTry ≠ f.stop.index) :
    f.behaviour.isCancelled h = false := by
  cases found : f.stop <;> rw [found] at other <;> simp_all [behaviour, Stop.index]

theorem renamed_before {h : List Event} (other : h.countP Event.isForwardRow ≠ f.stop.index)
    (fromPath toPath : VPath) (undoes : Option Int) :
    f.behaviour.renamed .forward h fromPath toPath undoes = .ok (f.seqs h) := by
  cases found : f.stop <;> rw [found] at other <;> simp_all [behaviour, Stop.index]

theorem take_succ_of_drop {l : List α} {k : Nat} {a : α} {later : List α} (at_k : l.drop k = a :: later) :
    l.take (k + 1) = l.take k ++ [a] := by
  have here : l[k]? = some a := by
    rw [← List.head?_drop, at_k]
    rfl
  rw [List.take_add_one, here]
  rfl

/-- The next step is clear, and what it makes of the directory is the run one longer. -/
theorem At.clear {f : Folder} {moves : List (Move Bytes)} {final : Finset Bytes}
    (distinct : Distinct f.key f.start) (ran : Moves.run f.key f.start moves = some final) {k : Nat}
    {applied : List Applied} {log : Log} (here : f.At moves k applied log) {m : Move Bytes}
    {later : List (Move Bytes)} (at_k : moves.drop k = m :: later) :
    Clear f.key (f.contents log.history) m ∧
    Moves.run f.key f.start (moves.take (k + 1)) = some (respell f.key (f.contents log.history) m) := by
  have split : moves.take k ++ m :: later = moves := by rw [← at_k, List.take_append_drop]
  have clear := run_clear (split ▸ ran) here.contents
  refine ⟨clear, ?_⟩
  rw [take_succ_of_drop at_k, run_append_of_eq here.contents, run_cons clear,
    clear.respell (run_distinct distinct here.contents)]
  rfl

/-- One more step in place, newest first. -/
theorem Moved.push {f : Folder} {moves later : List (Move Bytes)} {m : Move Bytes} {k : Nat}
    {applied : List Applied} {a : Applied} (moved : f.Moved a m) (at_k : moves.drop k = m :: later)
    (below : List.Forall₂ f.Moved applied (moves.take k).reverse) :
    List.Forall₂ f.Moved (a :: applied) (moves.take (k + 1)).reverse := by
  rw [take_succ_of_drop at_k, List.reverse_append]
  exact .cons moved below

/-- Before its stop the run takes every step as planned. -/
theorem at_step {moves : List (Move Bytes)} {final : Finset Bytes} (distinct : Distinct f.key f.start)
    (ran : Moves.run f.key f.start moves = some final) {k : Nat} (before : k ≠ f.stop.index)
    {applied : List Applied} {log : Log} (here : f.At moves k applied log) {s : PlannedStep}
    {m : Move Bytes} (named : f.Steps s m) {later : List (Move Bytes)} (at_k : moves.drop k = m :: later)
    (rest : List PlannedStep) :
    ∃ applied' log', runFromStep f.behaviour (s :: rest) applied log =
      runFromStep f.behaviour rest applied' log' ∧ f.At moves (k + 1) applied' log' := by
  obtain ⟨clear, longer⟩ := here.clear distinct ran at_k
  have proceed : f.behaviour.isCancelled log.history = false :=
    f.isCancelled_before (by rw [here.tries]; exact before)
  have done : f.behaviour.rename .forward (log.push (.checked false)).history s.fromPath s.toPath = .done :=
    f.rename_natural (by simpa [Event.isTry, here.tries] using before) named
      (by simpa [after] using clear.permitted)
  have written : f.behaviour.renamed .forward ((log.push (.checked false)).push
      (.rename .forward s.fromPath s.toPath .done)).history s.fromPath s.toPath s.undoes = .ok (f.seqs _) :=
    f.renamed_before (by simpa [Event.isForwardRow, here.written] using before) ..
  rw [runFromStep]
  simp only [isCancelled, proceed, rename, done, renamed, written, Outcome.error?]
  refine ⟨_, _, rfl, ?_⟩
  constructor
  · simpa [after, named.moveIn, Outcome.effect] using longer
  · simp [Event.isTry, here.tries]
  · simp [Event.isForwardRow, here.written]
  · exact Moved.push named at_k here.moved
  · exact here.stuck
  · exact here.uncertain

/-- The run comes to its stop with every step before it in place. -/
theorem reaches {moves : List (Move Bytes)} {final : Finset Bytes} (distinct : Distinct f.key f.start)
    (ran : Moves.run f.key f.start moves = some final) {steps : List PlannedStep}
    (named : List.Forall₂ f.Steps steps moves) {k : Nat} (within : k ≤ f.stop.index)
    (bound : k ≤ steps.length) :
    ∃ applied log, Rename.run f.behaviour steps = runFromStep f.behaviour (steps.drop k) applied log ∧
      f.At moves k applied log := by
  induction k with
  | zero => exact ⟨[], .start, rfl, ⟨rfl, rfl, rfl, .nil, rfl, rfl⟩⟩
  | succ k ih =>
    obtain ⟨applied, log, same, here⟩ := ih (by omega) (by omega)
    have rest := List.forall₂_drop k named
    cases planned : steps.drop k with
    | nil => exact absurd (List.drop_eq_nil_iff.mp planned) (by omega)
    | cons s later =>
      rw [planned] at rest same
      cases moved : moves.drop k with
      | nil => rw [moved] at rest; cases rest
      | cons m others =>
        rw [moved] at rest
        obtain ⟨applied', log', next, there⟩ :=
          f.at_step distinct ran (by omega) here (List.forall₂_cons.mp rest).1 moved later
        refine ⟨applied', log', ?_, there⟩
        rw [same, next, ← List.tail_drop, planned, List.tail_cons]

/-- Both probes answer, so the verdict is never unknown. -/
theorem settle_answer {s : PlannedStep} {m : Move Bytes} (named : f.Steps s m) (e : Error)
    (applied : List Applied) (log : Log) :
    (settle f.behaviour s e applied log).1 =
      (if mayHaveApplied e ∧ Holds f.key (f.contents log.history) m.target ∧
        ¬Holds f.key (f.contents log.history) m.source then .unjournalled s :: applied else applied) ∧
    f.contents (settle f.behaviour s e applied log).2.history = f.contents log.history ∧
    (settle f.behaviour s e applied log).2.report = log.report := by
  unfold settle
  by_cases probed : mayHaveApplied e
  · obtain ⟨dest, sameDest⟩ := f.isFree_answer named.2 log
    obtain ⟨src, sameSrc⟩ := f.isFree_answer named.1 (isFree f.behaviour s.toPath log).2
    simp only [probed, landed, dest, src, sameDest]
    by_cases target : Holds f.key (f.contents log.history) m.target <;>
      by_cases source : Holds f.key (f.contents log.history) m.source <;>
      simp [target, source, landedOf, sameSrc, sameDest]
  · simp [probed]

/-- What the rollback finds where it starts: the steps in place, those it knows of, and
a report that says nothing of a stop yet. -/
structure Unwinding (moves : List (Move Bytes)) (inPlace known : Nat)
    (result : Except Error Unit × Log) (applied : List Applied) (log : Log) : Prop where
  failed : ∃ e, result.1 = .error e
  unwound : result.2 = (unwind f.behaviour applied log).2
  contents : Moves.run f.key f.start (moves.take inPlace) = some (f.contents log.history)
  moved : List.Forall₂ f.Moved applied (moves.take known).reverse
  stuck : log.report.stuck = none
  uncertain : log.report.uncertain = none

/-- A failed rename: whatever the probes say, the rollback starts from the same directory. -/
theorem settle_unwinding {moves : List (Move Bytes)} {inPlace known : Nat} {s : PlannedStep}
    {m : Move Bytes} (named : f.Steps s m) (e : Error) {applied : List Applied} {log : Log}
    (contents : Moves.run f.key f.start (moves.take inPlace) = some (f.contents log.history))
    (moved : List.Forall₂ f.Moved (settle f.behaviour s e applied log).1 (moves.take known).reverse)
    (stuck : log.report.stuck = none) (uncertain : log.report.uncertain = none) :
    f.Unwinding moves inPlace known
      (.error e, (unwind f.behaviour (settle f.behaviour s e applied log).1
        (settle f.behaviour s e applied log).2).2)
      (settle f.behaviour s e applied log).1 (settle f.behaviour s e applied log).2 := by
  obtain ⟨_, same, report⟩ := f.settle_answer named e applied log
  refine ⟨⟨e, rfl⟩, rfl, ?_, moved, ?_, ?_⟩
  · rw [same]
    exact contents
  · rw [report]
    exact stuck
  · rw [report]
    exact uncertain

/-- Whether the rollback learns of the step it stops at, where that took effect: an
error is probed, and the probes tell two spellings of one entry from nothing at all. -/
def Knows (m : Move Bytes) : Prop :=
  ∀ k e, f.stop = .renameFailsAfter k e → mayHaveApplied e ∧ f.key m.source ≠ f.key m.target

/-- The run at its stop, with the step `s` next. -/
theorem stop_unwinding {moves : List (Move Bytes)} {final : Finset Bytes}
    (distinct : Distinct f.key f.start) (ran : Moves.run f.key f.start moves = some final)
    {applied : List Applied} {log : Log} (here : f.At moves f.stop.index applied log) {s : PlannedStep}
    {m : Move Bytes} (named : f.Steps s m) {later : List (Move Bytes)}
    (at_k : moves.drop f.stop.index = m :: later) (rest : List PlannedStep) :
    ∃ known applied' log', f.Unwinding moves f.stop.effects known
        (runFromStep f.behaviour (s :: rest) applied log) applied' log' ∧
      (f.Knows m → known = f.stop.effects) ∧
      (¬f.Knows m → known = f.stop.index ∧ f.stop.effects = f.stop.index + 1) := by
  obtain ⟨clear, longer⟩ := here.clear distinct ran at_k
  have named' : moveIn f.dir s.fromPath s.toPath = some m := named.moveIn
  have moved : f.Moved (.unjournalled s) m := named
  rw [runFromStep]
  cases stop : f.stop with
  | cancelled k =>
    rw [stop] at here at_k
    have stopped : f.behaviour.isCancelled log.history = true := by
      simp [behaviour, stop, here.tries, Stop.index]
    simp only [isCancelled, stopped]
    refine ⟨k, applied, _, ⟨⟨_, rfl⟩, rfl, ?_, here.moved, here.stuck, here.uncertain⟩, ?_, ?_⟩
    · simpa [after, Stop.index, Stop.effects] using here.contents
    · exact fun _ => rfl
    · exact fun unknown => absurd (by simp [Knows, stop]) unknown
  | journalFails k e =>
    rw [stop] at here at_k longer
    have proceed : f.behaviour.isCancelled log.history = false := by simp [behaviour, stop]
    have done : f.behaviour.rename .forward (log.push (.checked false)).history s.fromPath s.toPath = .done := by
      simp [behaviour, stop, named', natural, after, clear.permitted]
    have failed : f.behaviour.renamed .forward ((log.push (.checked false)).push
        (.rename .forward s.fromPath s.toPath .done)).history s.fromPath s.toPath s.undoes = .error e := by
      simp [behaviour, stop, Event.isForwardRow, here.written, Stop.index]
    simp only [isCancelled, proceed, rename, done, renamed, failed, Outcome.error?]
    refine ⟨k + 1, _, _, ⟨⟨_, rfl⟩, rfl, ?_, Moved.push moved at_k here.moved, here.stuck,
      here.uncertain⟩, ?_, ?_⟩
    · simpa [Log.fail, after, named', Outcome.effect, Stop.effects, Stop.index] using longer
    · exact fun _ => rfl
    · exact fun unknown => absurd (by simp [Knows, stop]) unknown
  | renameFails k e =>
    rw [stop] at here at_k
    have proceed : f.behaviour.isCancelled log.history = false := by simp [behaviour, stop]
    have failed : f.behaviour.rename .forward (log.push (.checked false)).history s.fromPath s.toPath =
        .failed e := by simp [behaviour, stop, named', Event.isTry, here.tries, Stop.index]
    simp only [isCancelled, proceed, rename, failed, Outcome.error?]
    let failing := ((log.push (.checked false)).push
      (.rename .forward s.fromPath s.toPath (.failed e))).fail s.pairIndex
    have same : f.contents failing.history = f.contents log.history := by
      simp [failing, Log.fail, after, named', Outcome.effect]
    have answer := (f.settle_answer named e applied failing).1
    have there : Holds f.key (f.contents log.history) m.source := ⟨_, clear.1, rfl⟩
    simp only [same, there, not_true_eq_false, and_false, if_false] at answer
    refine ⟨k, _, _, f.settle_unwinding named e ?_ ?_ here.stuck here.uncertain, ?_, ?_⟩
    · rw [same]
      exact here.contents
    · rw [answer]
      exact here.moved
    · exact fun _ => rfl
    · exact fun unknown => absurd (by simp [Knows, stop]) unknown
  | renameFailsAfter k e =>
    rw [stop] at here at_k longer
    have proceed : f.behaviour.isCancelled log.history = false := by simp [behaviour, stop]
    have failed : f.behaviour.rename .forward (log.push (.checked false)).history s.fromPath s.toPath =
        .failedAfter e := by
      simp [behaviour, stop, named', Event.isTry, here.tries, Stop.index, after, clear.permitted]
    simp only [isCancelled, proceed, rename, failed, Outcome.error?]
    let failing := ((log.push (.checked false)).push
      (.rename .forward s.fromPath s.toPath (.failedAfter e))).fail s.pairIndex
    have taken : f.contents failing.history = respell f.key (f.contents log.history) m := by
      simp [failing, Log.fail, after, named', Outcome.effect]
    have answer := (f.settle_answer named e applied failing).1
    have known : f.Knows m ↔ mayHaveApplied e ∧ ¬f.key m.source = f.key m.target := by
      simp [Knows, stop]
    simp only [taken, holds_respell_target, holds_respell_source, true_and] at answer
    by_cases knows : f.Knows m
    · rw [if_pos (known.mp knows)] at answer
      refine ⟨k + 1, _, _, f.settle_unwinding named e ?_ ?_ here.stuck here.uncertain, fun _ => rfl,
        fun unknown => absurd knows unknown⟩
      · rw [taken]
        exact longer
      · rw [answer]
        exact Moved.push moved at_k here.moved
    · rw [if_neg (mt known.mpr knows)] at answer
      refine ⟨k, _, _, f.settle_unwinding named e ?_ ?_ here.stuck here.uncertain,
        fun known => absurd known knows, fun _ => ⟨rfl, rfl⟩⟩
      · rw [taken]
        exact longer
      · rw [answer]
        exact here.moved

/-- The batch is gone without a trace. -/
structure Restored (result : Except Error Unit × Log) : Prop where
  failed : ∃ e, result.1 = .error e
  contents : f.contents result.2.history = f.start
  stuck : result.2.report.stuck = none
  uncertain : result.2.report.uncertain = none

theorem Unwinding.restored_iff {f : Folder} {moves : List (Move Bytes)} {inPlace known : Nat}
    {result : Except Error Unit × Log} {applied : List Applied} {log : Log}
    (unwinding : f.Unwinding moves inPlace known result applied log) {there : Finset Bytes}
    (ran : Moves.run f.key f.start (moves.take inPlace) = some there) :
    f.Restored result ↔ takeAllBack f.key (moves.take known).reverse there = some f.start := by
  obtain rfl : f.contents log.history = there := Option.some.inj (unwinding.contents.symm.trans ran)
  have back := f.unwind_takeAllBack unwinding.moved log
  obtain ⟨_, _, unwound⟩ := unwind_unwound f.behaviour applied log
  have uncertain := unwound.uncertain.trans unwinding.uncertain
  rw [← unwinding.unwound] at back uncertain
  cases taken : takeAllBack f.key (moves.take known).reverse (f.contents log.history) with
  | none =>
    rw [taken] at back
    constructor
    · intro restored
      rw [restored.stuck] at back
      cases back
    · intro whole
      cases whole
  | some directory =>
    rw [taken] at back
    rw [Option.some_inj, ← back.1]
    exact ⟨fun restored => restored.contents, fun same =>
      ⟨unwinding.failed, same, back.2.trans unwinding.stuck, uncertain⟩⟩

theorem absoluteSteps_named {steps : List Step} {planned : List PlannedStep}
    (there : absoluteSteps f.dir steps = .ok planned) :
    List.Forall₂ f.Steps planned (steps.map Step.move) := by
  rw [List.forall₂_map_right_iff]
  refine (absoluteSteps_eq_ok there).flip.imp fun p s absolute => ?_
  obtain ⟨fromSegment, toSegment, source, target, rfl⟩ := absolute_eq_ok absolute
  simp [Steps, Step.move, source, target]

/-- The rollback at the level of names: it undoes what it knows of, so it fails on a
step that only respells its entry and on one it was not told about. -/
theorem restored_iff {moves : List (Move Bytes)} {final : Finset Bytes}
    (distinct : Distinct f.key f.start) (ran : Moves.run f.key f.start moves = some final)
    {steps : List PlannedStep} (named : List.Forall₂ f.Steps steps moves)
    (stops : f.stop.index < steps.length) (real : ∀ m ∈ moves, m.source ≠ m.target)
    (foreign : ∀ m ∈ moves, f.key m.source = f.key m.target → ∀ other ∈ moves, other.target ≠ m.source) :
    f.Restored (Rename.run f.behaviour steps) ↔
      (∀ m ∈ moves.take f.stop.effects, f.key m.source ≠ f.key m.target) ∧
      ∀ k e, f.stop = .renameFailsAfter k e → mayHaveApplied e := by
  obtain ⟨applied, log, same, here⟩ := f.reaches distinct ran named (Nat.le_refl _) stops.le
  have next := List.forall₂_drop f.stop.index named
  cases planned : steps.drop f.stop.index with
  | nil => exact absurd (List.drop_eq_nil_iff.mp planned) (by omega)
  | cons s rest =>
    cases at_k : moves.drop f.stop.index with
    | nil => rw [planned, at_k] at next; cases next
    | cons m later =>
      rw [planned, at_k] at next
      obtain ⟨known, applied', log', unwinding, knows, forgets⟩ :=
        f.stop_unwinding distinct ran here (List.forall₂_cons.mp next).1 at_k rest
      rw [same, planned, unwinding.restored_iff unwinding.contents]
      have member : m ∈ moves := List.mem_of_mem_drop (at_k ▸ List.mem_cons_self)
      by_cases told : f.Knows m
      · rw [knows told, takeAllBack_eq_some_iff distinct unwinding.contents]
        exact (and_iff_left fun k e stop => (told k e stop).1).symm
      · obtain ⟨atStop, longer⟩ := forgets told
        have one := unwinding.contents
        rw [longer, take_succ_of_drop at_k] at one
        have lost := takeAllBack_forgotten distinct one (real m member) fun respelled other inside =>
          foreign m member respelled other (List.mem_of_mem_take inside)
        rw [atStop]
        refine iff_of_false lost fun ⟨changed, probed⟩ => told fun k e stop => ⟨probed k e stop, ?_⟩
        exact changed m (by rw [longer, take_succ_of_drop at_k]; simp)

end Folder

section Plan

variable {nameKey : Bytes → NameCaps → Bytes} {sha256 : Bytes → Bytes}
  {pairs : List (Bytes × Bytes)} {listing : List Bytes} {caps : NameCaps} {steps : List Step}

/-- A step that keeps its key takes an entry straight to its destination. -/
theorem Ordered.respelled {o : Orderly nameKey listing caps (realWork nameKey pairs listing caps)}
    (ordered : Ordered o steps) {s : Step} (member : s ∈ steps)
    (same : nameKey s.fromName caps = nameKey s.toName caps) :
    ∃ c, s.fromName = o.batch.source c ∧ s.toName = o.batch.target c := by
  obtain ⟨c, rfl | ⟨t, fresh, rfl | rfl⟩⟩ := ordered.origin s member
  · exact ⟨c, rfl, rfl⟩
  · exact absurd same (fresh.1 _ (o.batch.present c))
  · exact absurd same.symm (fresh.2 c)

theorem Ordered.real {o : Orderly nameKey listing caps (realWork nameKey pairs listing caps)}
    (ordered : Ordered o steps) {s : Step} (member : s ∈ steps) : s.fromName ≠ s.toName := by
  intro same
  obtain ⟨c, source, target⟩ := ordered.respelled member (congrArg (nameKey · caps) same)
  obtain ⟨i, pair, _, _, real, work⟩ := mem_realWork.mp (List.get_mem _ c)
  have kept : ((realWork nameKey pairs listing caps).get c).fromName =
      ((realWork nameKey pairs listing caps).get c).toName := source.symm.trans (same.trans target)
  rw [work] at kept
  exact real kept

/-- Nothing is renamed onto the old spelling of a respelled entry. -/
theorem Ordered.foreign {o : Orderly nameKey listing caps (realWork nameKey pairs listing caps)}
    (ordered : Ordered o steps) {s other : Step} (member : s ∈ steps) (inside : other ∈ steps)
    (same : nameKey s.fromName caps = nameKey s.toName caps) : other.toName ≠ s.fromName := by
  obtain ⟨c, source, target⟩ := ordered.respelled member same
  intro onto
  have own (d : Fin (realWork nameKey pairs listing caps).length)
      (arrives : other.toName = o.batch.target d) : False := by
    have keys : nameKey (o.batch.target d) caps = nameKey (o.batch.target c) caps := by
      rw [← arrives, onto, same, target]
    obtain rfl := o.batch.targets d c keys
    exact ordered.real member (onto.symm.trans (arrives.trans target.symm))
  obtain ⟨d, rfl | ⟨t, fresh, rfl | rfl⟩⟩ := ordered.origin other inside
  · exact own d rfl
  · exact fresh.1 _ (o.batch.present c) (congrArg (nameKey · caps) (source.symm.trans onto.symm))
  · exact own d rfl

/-- When the transaction holds: no step in place at the stop only respells its entry, and
an error that hides an effect is one the executor probes. -/
theorem rollback_restores_iff (nameKey : Bytes → NameCaps → Bytes) (sha256 : Bytes → Bytes)
    (pairs : List (Bytes × Bytes)) (listing : List Bytes) (caps : NameCaps) (plan : RenamePlan)
    (planned : planBatch nameKey sha256 pairs listing caps = some plan)
    (executable : plan.collisions = []) (f : Folder) (lookup : f.key = (nameKey · caps))
    (holds : f.start = listing.toFinset) (distinct : Distinct f.key f.start)
    (steps : List PlannedStep) (there : absoluteSteps f.dir plan.steps = .ok steps)
    (stops : f.stop.index < steps.length) :
    f.Restored (run f.behaviour steps) ↔
      (∀ s ∈ plan.steps.take f.stop.effects, nameKey s.fromName caps ≠ nameKey s.toName caps) ∧
      ∀ k e, f.stop = .renameFailsAfter k e → mayHaveApplied e := by
  obtain ⟨o, ordered⟩ := planBatch_ordered planned executable
  obtain ⟨final, ran, _⟩ := ordered.reached
  rw [← lookup, ← holds] at ran
  have told := f.restored_iff distinct ran (f.absoluteSteps_named there) stops
    (by
      intro m member
      obtain ⟨s, inside, rfl⟩ := List.mem_map.mp member
      exact ordered.real inside)
    (by
      intro m member respelled other inside
      obtain ⟨s, at_s, rfl⟩ := List.mem_map.mp member
      obtain ⟨t, at_t, rfl⟩ := List.mem_map.mp inside
      rw [lookup] at respelled
      exact ordered.foreign at_s at_t respelled)
  rw [told, ← List.map_take, List.forall_mem_map, lookup]
  rfl

/-- A folding directory of its own, with a journal that fails at the row of step `k`. -/
def sampleFolder (names : List Bytes) (k : Nat) : Folder where
  key := (asciiKey · ⟨.simple⟩)
  dir := sampleRoot
  start := names.toFinset
  stop := .journalFails k .busy
  seqs _ := none
  compensated _ := .ok none
  records := true

theorem ok_of_toOption {x : Except ε α} {a : α} (found : x.toOption = some a) : x = .ok a := by
  cases x with
  | error e => cases found
  | ok b => exact congrArg _ (Option.some.inj found)

/-- A swap whose second row cannot be written is taken back. -/
theorem rollback_restores_iff_swap : ∃ steps, steps.length = 3 ∧
    (sampleFolder [[0x61], [0x62]] 1).Restored
      (run (sampleFolder [[0x61], [0x62]] 1).behaviour steps) := by
  have planned : (planBatch asciiKey (List.take 32) [([0x61], [0x62]), ([0x62], [0x61])]
      [[0x61], [0x62]] ⟨.simple⟩).map (fun plan => (plan.collisions,
        (absoluteSteps sampleRoot plan.steps).toOption.map List.length,
        decide (∀ s ∈ plan.steps.take 2, asciiKey s.fromName ⟨.simple⟩ ≠ asciiKey s.toName ⟨.simple⟩))) =
      some ([], some 3, true) := by decide +kernel
  obtain ⟨plan, planned, same⟩ := Option.map_eq_some_iff.mp planned
  obtain ⟨executable, same⟩ := Prod.mk.inj same
  obtain ⟨length, changed⟩ := Prod.mk.inj same
  obtain ⟨steps, there, length⟩ := Option.map_eq_some_iff.mp length
  refine ⟨steps, length, (rollback_restores_iff asciiKey (List.take 32) _ _ _ plan planned executable
    (sampleFolder [[0x61], [0x62]] 1) rfl rfl (by decide) steps (ok_of_toOption there) ?_).mpr
    ⟨of_decide_eq_true changed, ?_⟩⟩
  · rw [length]
    decide
  · intro k e stop
    cases stop

/-- A case-only rename whose row cannot be written stays: the guard of the reversal
finds the renamed entry itself under the old name. -/
theorem caseOnly_not_restored : ¬∀ (nameKey : Bytes → NameCaps → Bytes) (sha256 : Bytes → Bytes)
    (pairs : List (Bytes × Bytes)) (listing : List Bytes) (caps : NameCaps) (plan : RenamePlan),
    planBatch nameKey sha256 pairs listing caps = some plan → plan.collisions = [] →
    ∀ f : Folder, f.key = (nameKey · caps) → f.start = listing.toFinset → Distinct f.key f.start →
    ∀ steps, absoluteSteps f.dir plan.steps = .ok steps → f.stop.index < steps.length →
    (∀ k e, f.stop = .renameFailsAfter k e → mayHaveApplied e) →
    f.Restored (run f.behaviour steps) := by
  intro transactional
  -- `Foo` to `foo`
  have planned : (planBatch asciiKey (List.take 32) [([0x46, 0x6f, 0x6f], [0x66, 0x6f, 0x6f])]
      [[0x46, 0x6f, 0x6f]] ⟨.simple⟩).map (fun plan => (plan.collisions,
        (absoluteSteps sampleRoot plan.steps).toOption.map fun steps => (steps.length,
          (run (sampleFolder [[0x46, 0x6f, 0x6f]] 0).behaviour steps).2.report.stuck.isSome))) =
      some ([], some (1, true)) := by decide +kernel
  obtain ⟨plan, planned, same⟩ := Option.map_eq_some_iff.mp planned
  obtain ⟨executable, same⟩ := Prod.mk.inj same
  obtain ⟨steps, there, same⟩ := Option.map_eq_some_iff.mp same
  obtain ⟨length, stuck⟩ := Prod.mk.inj same
  have restored := transactional asciiKey (List.take 32) _ _ _ plan planned executable
    (sampleFolder [[0x46, 0x6f, 0x6f]] 0) rfl rfl (by decide) steps (ok_of_toOption there)
    (by rw [length]; decide) (by intro k e stop; cases stop)
  rw [restored.stuck] at stuck
  cases stuck

end Plan
end Norte.Rename
