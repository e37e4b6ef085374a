import Norte.RenameOrder
import Norte.VPath

/-! The transaction around a plan: every step against the provider and the journal,
and everything unwound at the first failure. Whoever answers the calls is a
`Behaviour`, which sees all that was answered before; what a call really did is in
the history next to what it answered. -/
namespace Norte

inductive ConflictKind where
  | exists_
  | caseCollision
  | normalization
  | typeMismatch
  | escapesRoot
  | destinationGone
  | staleRevision
  | unknown
  deriving DecidableEq, Repr

inductive Error where
  | notFound
  | permissionDenied
  | conflict (conflict : ConflictKind)
  | providerUnavailable (retryable : Bool)
  | noSpace
  | io (retryable : Bool)
  | busy
  | cancelled
  | policyDenied (rule : Str)
  | approvalGone (reason : Str)
  | encodingLoss
  | unsupported
  | invalidPath
  | internal (panic : Bool)
  | loop
  | corrupt
  | limitExceeded (limit : Str)
  | planStale
  deriving DecidableEq, Repr

namespace Rename

structure PlannedStep where
  fromPath : VPath
  toPath : VPath
  pairIndex : Nat
  undoes : Option Int
  deriving DecidableEq

def absolute (dir : VPath) (s : Step) : Except Error PlannedStep := do
  let seg (bytes : Bytes) := (Segment.new bytes).mapError fun _ => Error.invalidPath
  let fromSegment ← seg s.fromName
  let toSegment ← seg s.toName
  return ⟨dir.join fromSegment, dir.join toSegment, s.pairIndex, none⟩

/-- The steps of a plan under `dir`; the engine collects them into one result. -/
def absoluteSteps (dir : VPath) : List Step → Except Error (List PlannedStep)
  | [] => .ok []
  | s :: steps => do
    let first ← absolute dir s
    let rest ← absoluteSteps dir steps
    return first :: rest

theorem segment_bytes {bytes : Bytes} {segment : Segment}
    (made : (Segment.new bytes).mapError (fun _ => Error.invalidPath) = .ok segment) :
    segment.bytes = bytes := by
  unfold Segment.new at made
  repeat' split at made
  all_goals cases made
  rfl

theorem absolute_eq_ok {dir : VPath} {s : Step} {planned : PlannedStep}
    (there : absolute dir s = .ok planned) : ∃ fromSegment toSegment : Segment,
      fromSegment.bytes = s.fromName ∧ toSegment.bytes = s.toName ∧
      planned = ⟨dir.join fromSegment, dir.join toSegment, s.pairIndex, none⟩ := by
  unfold absolute at there
  cases source : (Segment.new s.fromName).mapError (fun _ => Error.invalidPath) with
  | error e => simp [source, bind, Except.bind] at there
  | ok fromSegment =>
    cases target : (Segment.new s.toName).mapError (fun _ => Error.invalidPath) with
    | error e => simp [source, target, bind, Except.bind] at there
    | ok toSegment =>
      simp only [source, target, bind, Except.bind, pure, Except.pure, Except.ok.injEq] at there
      exact ⟨fromSegment, toSegment, segment_bytes source, segment_bytes target, there.symm⟩

theorem absoluteSteps_eq_ok {dir : VPath} {steps : List Step} {planned : List PlannedStep}
    (there : absoluteSteps dir steps = .ok planned) :
    List.Forall₂ (fun s p => absolute dir s = .ok p) steps planned := by
  induction steps generalizing planned with
  | nil => obtain rfl := Except.ok.inj there; exact .nil
  | cons s steps ih =>
    unfold absoluteSteps at there
    cases first : absolute dir s with
    | error e => simp [first, bind, Except.bind] at there
    | ok head =>
      cases rest : absoluteSteps dir steps with
      | error e => simp [first, rest, bind, Except.bind] at there
      | ok tail =>
        simp only [first, rest, bind, Except.bind, pure, Except.pure, Except.ok.injEq] at there
        rw [← there]
        exact .cons first (ih rest)

/-- Which way a step is taken: by the batch, or back by its rollback. -/
inductive Direction where
  | forward
  | back
  deriving DecidableEq, Repr

/-- What a rename did, which is not always what it answered. -/
inductive Outcome where
  | done
  | failed (error : Error)
  | failedAfter (error : Error)
  deriving DecidableEq, Repr

def Outcome.error? : Outcome → Option Error
  | done => none
  | failed e => some e
  | failedAfter e => some e

def Outcome.effect : Outcome → Bool
  | done => true
  | failed _ => false
  | failedAfter _ => true

inductive Event where
  | checked (cancelled : Bool)
  | rename (direction : Direction) (fromPath toPath : VPath) (outcome : Outcome)
  | stat (path : VPath) (answer : Except Error Unit)
  | renamed (direction : Direction) (fromPath toPath : VPath) (undoes : Option Int)
      (answer : Except Error (Option Int))

/-- Provider, recorder and cancellation token: each answer may depend on everything
that happened before it. -/
structure Behaviour where
  rename : Direction → List Event → VPath → VPath → Outcome
  stat : List Event → VPath → Except Error Unit
  renamed : Direction → List Event → VPath → VPath → Option Int → Except Error (Option Int)
  isCancelled : List Event → Bool
  records : Bool

structure StuckStep where
  fromPath : VPath
  toPath : VPath
  pairIndex : Nat
  error : Error
  journalled : Bool
  stillApplied : Nat
  deriving DecidableEq

structure BatchReport where
  applied : Nat
  rolledBack : Nat
  failedPair : Option Nat
  stuck : Option StuckStep
  uncertain : Option StuckStep
  compensationsLost : Nat
  deriving DecidableEq

def BatchReport.empty : BatchReport := ⟨0, 0, none, none, none, 0⟩

structure Applied where
  fromPath : VPath
  toPath : VPath
  pairIndex : Nat
  seq : Option Int
  journalled : Bool
  deriving DecidableEq

def Applied.unjournalled (s : PlannedStep) : Applied :=
  ⟨s.fromPath, s.toPath, s.pairIndex, none, false⟩

def Applied.stuck (a : Applied) (error : Error) (below : Nat) : StuckStep :=
  ⟨a.fromPath, a.toPath, a.pairIndex, error, a.journalled, below + 1⟩

/-- A run so far: what happened and what the report says. -/
structure Log where
  history : List Event
  report : BatchReport

def Log.start : Log := ⟨[], .empty⟩

section Calls

variable (b : Behaviour)

def Log.push (log : Log) (event : Event) : Log := { log with history := log.history ++ [event] }

def rename (direction : Direction) (fromPath toPath : VPath) (log : Log) : Outcome × Log :=
  let outcome := b.rename direction log.history fromPath toPath
  (outcome, log.push (.rename direction fromPath toPath outcome))

def stat (path : VPath) (log : Log) : Except Error Unit × Log :=
  let answer := b.stat log.history path
  (answer, log.push (.stat path answer))

def renamed (direction : Direction) (fromPath toPath : VPath) (undoes : Option Int) (log : Log) :
    Except Error (Option Int) × Log :=
  let answer := b.renamed direction log.history fromPath toPath undoes
  (answer, log.push (.renamed direction fromPath toPath undoes answer))

def isCancelled (log : Log) : Bool × Log :=
  let answer := b.isCancelled log.history
  (answer, log.push (.checked answer))

/-- A path is free when it is not found; any other failure is no answer. -/
def freeOf : Except Error Unit → Except Error Bool
  | .error .notFound => .ok true
  | .ok () => .ok false
  | .error e => .error e

def isFree (path : VPath) (log : Log) : Except Error Bool × Log :=
  let (answer, log) := stat b path log
  (freeOf answer, log)

end Calls

inductive Landed where
  | yes
  | no
  | unknown
  deriving DecidableEq, Repr

/-- The verdict of the two probes: destination, then source. -/
def landedOf : Except Error Bool → Except Error Bool → Landed
  | .ok false, .ok true => .yes
  | .ok true, _ => .no
  | _, .ok false => .no
  | _, _ => .unknown

/-- Categories that mean nothing happened are believed, everything else is probed. -/
def mayHaveApplied : Error → Bool
  | .notFound | .conflict _ | .invalidPath | .permissionDenied | .unsupported
  | .policyDenied _ => false
  | _ => true

def occupied : Error := .conflict .exists_

section Run

variable (b : Behaviour)

def landed (s : PlannedStep) (log : Log) : Landed × Log :=
  let (dest, log) := isFree b s.toPath log
  let (src, log) := isFree b s.fromPath log
  (landedOf dest src, log)

/-- The reversal of one step, unless something sits on its old name. -/
def reverse (step : Applied) (log : Log) : Option Error × Log :=
  let (free, log) := isFree b step.fromPath log
  match free with
  | .ok true =>
    let (outcome, log) := rename b .back step.toPath step.fromPath log
    (outcome.error?, log)
  | .ok false => (some occupied, log)
  | .error e => (some e, log)

/-- The compensation of a reversed step, where there is a row to compensate. -/
def compensate (step : Applied) (log : Log) : Log :=
  if step.journalled then
    let (answer, log) := renamed b .back step.toPath step.fromPath step.seq log
    match answer with
    | .ok _ => log
    | .error _ => { log with report :=
        { log.report with compensationsLost := log.report.compensationsLost + 1 } }
  else log

/-- The steps applied so far come newest first. -/
def unwind : List Applied → Log → Option Error × Log
  | [], log => (none, log)
  | step :: applied, log =>
    let (blocked, log) := reverse b step log
    match blocked with
    | some error => (some error, { log with report :=
        { log.report with stuck := some (step.stuck error applied.length) } })
    | none =>
      let log := compensate b step log
      unwind applied { log with report :=
        { log.report with rolledBack := log.report.rolledBack + 1 } }

/-- What to make of a rename that answered an error. -/
def settle (s : PlannedStep) (e : Error) (applied : List Applied) (log : Log) :
    List Applied × Log :=
  if mayHaveApplied e then
    let (verdict, log) := landed b s log
    match verdict with
    | .yes => (.unjournalled s :: applied, log)
    | .no => (applied, log)
    | .unknown => (applied, { log with report :=
        { log.report with uncertain := some ((Applied.unjournalled s).stuck e applied.length) } })
  else (applied, log)

def Log.fail (log : Log) (pairIndex : Nat) : Log :=
  { log with report := { log.report with failedPair := some pairIndex } }

def runFromStep : List PlannedStep → List Applied → Log → Except Error Unit × Log
  | [], _, log => (.ok (), log)
  | s :: steps, applied, log =>
    let (cancelled, log) := isCancelled b log
    if cancelled then
      let (blocked, log) := unwind b applied log
      (.error (blocked.getD .cancelled), log)
    else
      let (outcome, log) := rename b .forward s.fromPath s.toPath log
      match outcome.error? with
      | some e =>
        let (applied, log) := settle b s e applied (log.fail s.pairIndex)
        (.error e, (unwind b applied log).2)
      | none =>
        let (answer, log) := renamed b .forward s.fromPath s.toPath s.undoes log
        match answer with
        | .ok seq =>
          runFromStep steps (⟨s.fromPath, s.toPath, s.pairIndex, seq, b.records⟩ :: applied)
            { log with report := { log.report with applied := log.report.applied + 1 } }
        | .error e =>
          (.error e, (unwind b (.unjournalled s :: applied) (log.fail s.pairIndex)).2)

def run (steps : List PlannedStep) : Except Error Unit × Log := runFromStep b steps [] .start

end Run
end Rename
end Norte
