import Mathlib.Logic.Function.Basic
import Norte.RenameExec
import Norte.SyncTypes

/-! One entry of a copy on its way to the destination: what stands there is looked up, the policy
decides, and what is replaced goes before the new one is written, each change with its row. Two
entries can be on their way at once, so every call is a step of its own. -/
namespace Norte.Transfer

open Sync (Entry EntryKind)

inductive CollisionPolicy where
  | fail
  | ask
  | skip
  | overwrite
  | renameAuto
  | newer
  deriving DecidableEq, Repr

inductive SymlinkPolicy where
  | preserve
  | follow
  | skip
  deriving DecidableEq, Repr

structure TransferOptions where
  onCollision : CollisionPolicy
  symlinks : SymlinkPolicy
  deriving DecidableEq, Repr

/-- What stands at a place: the bytes are a file's content or the target of a link. -/
structure Thing where
  kind : EntryKind
  bytes : Bytes
  mtimeMs : Option Int
  deriving DecidableEq

inductive Mutation where
  | created (path : VPath)
  | removed (path : VPath)
  deriving DecidableEq

def Mutation.path : Mutation → VPath
  | created p | removed p => p

structure World (K : Type) where
  tree : K → Option Thing
  rows : List Mutation

/-- A copy between two providers. A path of the destination is looked up by a key, so that two
spellings can be one place; what a read of the source gives is the source's to say. -/
structure Job (K : Type) where
  opts : TransferOptions
  source : VPath
  dest : VPath
  place : VPath → K
  /-- The path under which a stat of the destination answers. -/
  echo : VPath → VPath
  /-- The time the destination gives to what is written. -/
  stamp : VPath → Option Int
  read : (K → Option Thing) → VPath → Except Error Bytes
  readLink : (K → Option Thing) → VPath → Except Error Bytes

inductive Placed where
  | done
  | skipped
  deriving DecidableEq, Repr

/-- What an entry becomes at the destination. -/
inductive Payload where
  | dir
  | file
  | followed
  | link (target : Bytes)
  deriving DecidableEq

/-- The next call. -/
inductive Stage where
  | probe
  | look
  | candidate (n : Nat)
  | clear
  | cleared
  | write (target : VPath)
  | written (target : VPath)
  | ended (result : Except Error Placed)
  deriving DecidableEq

/-- Whether a change was made whose row is still to be written. -/
def Stage.owes : Stage → Bool
  | cleared | written _ => true
  | probe | look | candidate _ | clear | write _ | ended _ => false

structure Flight where
  entry : Entry
  target : VPath
  payload : Payload
  stage : Stage
  deriving DecidableEq

/-- How a call fails, its retries included: without an effect, or with its effect and a failure for
an answer, as where the answer is lost and the task is cancelled before it asks again. -/
inductive Fault where
  | refused (error : Error)
  | unanswered (error : Error)
  deriving DecidableEq

/-! ### Names -/

/-- Relocates a path below `base` under `onto`. -/
def rebase (path base onto : VPath) : VPath :=
  { onto with segments := onto.segments ++ path.segments.drop base.segments.length }

/-- A proper descendant, byte for byte. -/
def isDescendant (child ancestor : VPath) : Bool :=
  child.scheme = ancestor.scheme && child.authority = ancestor.authority &&
    ancestor.segments.length < child.segments.length && ancestor.segments.isPrefixOf child.segments

/-- Where the extension begins: at the last dot, if it is not the first byte. -/
def extensionAt (name : Bytes) : Nat :=
  match name.reverse.findIdx? (· = '.'.toUInt8) with
  | some i => if i + 1 < name.length then name.length - (i + 1) else name.length
  | none => name.length

def decimal (n : Nat) : Bytes := (Nat.toDigits 10 n).map fun c => UInt8.ofNat c.toNat

def renameAutoCandidate (name : Bytes) (n : Nat) : Bytes :=
  name.take (extensionAt name) ++ (" (".toUTF8.toList ++ (decimal n ++ (")".toUTF8.toList ++ name.drop (extensionAt name))))

def candidateAt (target : VPath) (n : Nat) : Except Error VPath :=
  match target.fileName with
  | none => .error .invalidPath
  | some name =>
    match Segment.new (renameAutoCandidate name.bytes n) with
    | .error _ => .error .invalidPath
    | .ok segment =>
      match target.withFileName segment with
      | none => .error .invalidPath
      | some path => .ok path

def exists_ : Error := .conflict .exists_
def typeMismatch : Error := .conflict .typeMismatch

/-- Whether a directory may be there already. -/
def mergeAllowed : CollisionPolicy → Bool
  | .fail | .ask => false
  | .skip | .overwrite | .renameAuto | .newer => true

/-! ### The calls -/

namespace Job

variable {K : Type} [DecidableEq K] (job : Job K)

/-- How an entry begins. -/
def board (entry : Entry) (target : VPath) : Flight :=
  match entry.kind with
  | .dir => ⟨entry, target, .dir, .look⟩
  | .file => ⟨entry, target, .file, .look⟩
  | .symlink =>
    match job.opts.symlinks with
    | .skip => ⟨entry, target, .link [], .ended (.ok .skipped)⟩
    | .preserve => ⟨entry, target, .link [], .probe⟩
    | .follow => ⟨entry, target, .followed, .probe⟩
  | .other => ⟨entry, target, .file, .ended (.error .unsupported)⟩

/-- `overwrite_existing`: a directory is never replaced. -/
def overwriteExisting (existing : Thing) : Stage :=
  if existing.kind = .dir then .ended (.error typeMismatch) else .clear

/-- `resolve_collision`, where something stands at the target. -/
def collide (entry : Entry) (target : VPath) (existing : Thing) : Stage :=
  if job.echo target = entry.path then .ended (.error .invalidPath)
  else
    match job.opts.onCollision with
    | .fail | .ask => .ended (.error exists_)
    | .skip => .ended (.ok .skipped)
    | .overwrite => overwriteExisting existing
    | .newer =>
      match entry.mtimeMs, existing.mtimeMs with
      | some s, some d => if d < s then overwriteExisting existing else .ended (.ok .skipped)
      | _, _ => .ended (.error exists_)
    | .renameAuto => .candidate 1

/-- `ensure_dir`, where something stands at the target: a directory may be merged into. -/
def merge (existing : Thing) : Stage :=
  if existing.kind ≠ .dir then .ended (.error typeMismatch)
  else if mergeAllowed job.opts.onCollision then .ended (.ok .done) else .ended (.error exists_)

/-- What the first look at the target decides. -/
def look (f : Flight) (existing : Option Thing) : Stage :=
  match existing with
  | none => .write f.target
  | some thing => if f.payload = .dir then job.merge thing else job.collide f.entry f.target thing

/-- Following a link needs what it points to to be a file. -/
def followError (e : Error) : Error := if e = typeMismatch then .unsupported else e

/-- What is written for an entry. -/
def carries (tree : K → Option Thing) (f : Flight) (target : VPath) : Except Error Thing :=
  match f.payload with
  | .dir => .ok ⟨.dir, [], job.stamp target⟩
  | .file => (job.read tree f.entry.path).map fun bytes => ⟨.file, bytes, job.stamp target⟩
  | .followed => ((job.read tree f.entry.path).map fun bytes => ⟨.file, bytes, job.stamp target⟩).mapError followError
  | .link bytes => .ok ⟨.symlink, bytes, job.stamp target⟩

/-- What was made meanwhile: a directory may be merged into, nothing else. -/
def taken (f : Flight) (existing : Thing) : Stage :=
  if f.payload = .dir ∧ mergeAllowed job.opts.onCollision = true then
    if existing.kind = .dir then .ended (.ok .done) else .ended (.error typeMismatch)
  else .ended (.error exists_)

/-- The next call of an entry, where it is answered. -/
def call (f : Flight) (w : World K) : Flight × World K :=
  match f.stage with
  | .probe =>
    match f.payload with
    | .link _ =>
      match job.readLink w.tree f.entry.path with
      | .error e => ({ f with stage := .ended (.error e) }, w)
      | .ok bytes => ({ f with payload := .link bytes, stage := .look }, w)
    | .dir | .file | .followed =>
      match job.read w.tree f.entry.path with
      | .error e => ({ f with stage := .ended (.error (followError e)) }, w)
      | .ok _ => ({ f with stage := .look }, w)
  | .look => ({ f with stage := job.look f (w.tree (job.place f.target)) }, w)
  | .candidate n =>
    if 1000 < n then ({ f with stage := .ended (.error exists_) }, w)
    else
      match candidateAt f.target n with
      | .error e => ({ f with stage := .ended (.error e) }, w)
      | .ok path =>
        if (w.tree (job.place path)).isNone then ({ f with stage := .write path }, w)
        else ({ f with stage := .candidate (n + 1) }, w)
  | .clear =>
    ({ f with stage := .cleared }, { w with tree := Function.update w.tree (job.place f.target) none })
  | .cleared => ({ f with stage := .write f.target }, { w with rows := w.rows ++ [.removed f.target] })
  | .write target =>
    match w.tree (job.place target) with
    | some existing => ({ f with stage := job.taken f existing }, w)
    | none =>
      match job.carries w.tree f target with
      | .error e => ({ f with stage := .ended (.error e) }, w)
      | .ok thing =>
        ({ f with stage := .written target }, { w with tree := Function.update w.tree (job.place target) (some thing) })
  | .written target => ({ f with stage := .ended (.ok .done) }, { w with rows := w.rows ++ [.created target] })
  | .ended _ => (f, w)

/-- A call that fails ends the entry. -/
def advance (fault : Option Fault) (f : Flight) (w : World K) : Flight × World K :=
  match f.stage, fault with
  | .ended _, _ => (f, w)
  | _, some (.refused e) => ({ f with stage := .ended (.error e) }, w)
  | _, some (.unanswered e) => ({ f with stage := .ended (.error e) }, (job.call f w).2)
  | _, none => job.call f w

/-- The place whose change has no row yet. -/
def owed (f : Flight) : Option K :=
  match f.stage with
  | .cleared => some (job.place f.target)
  | .written target => some (job.place target)
  | .probe | .look | .candidate _ | .clear | .write _ | .ended _ => none

/-- Everything that an answered call can do. -/
inductive Calls (f : Flight) (w : World K) : Flight → World K → Prop where
  | decide {payload : Payload} {stage : Stage} (owes : f.stage.owes = false) (owes' : stage.owes = false) :
      Calls f w { f with payload := payload, stage := stage } w
  | clear (stage : f.stage = .clear) :
      Calls f w { f with stage := .cleared } { w with tree := Function.update w.tree (job.place f.target) none }
  | cleared (stage : f.stage = .cleared) :
      Calls f w { f with stage := .write f.target } { w with rows := w.rows ++ [.removed f.target] }
  | write {target : VPath} {thing : Thing} (stage : f.stage = .write target) (free : w.tree (job.place target) = none)
      (carries : job.carries w.tree f target = .ok thing) : Calls f w { f with stage := .written target }
        { w with tree := Function.update w.tree (job.place target) (some thing) }
  | written {target : VPath} (stage : f.stage = .written target) :
      Calls f w { f with stage := .ended (.ok .done) } { w with rows := w.rows ++ [.created target] }

omit [DecidableEq K] in
theorem look_owes (f : Flight) (existing : Option Thing) : (job.look f existing).owes = false := by
  unfold look merge collide overwriteExisting
  repeat' split
  all_goals rfl

omit [DecidableEq K] in
theorem taken_owes (f : Flight) (existing : Thing) : (job.taken f existing).owes = false := by
  unfold taken
  repeat' split
  all_goals rfl

theorem call_calls (f : Flight) (w : World K) : job.Calls f w (job.call f w).1 (job.call f w).2 := by
  cases stage : f.stage with
  | probe =>
    have owes : f.stage.owes = false := by rw [stage]; rfl
    simp only [call, stage]
    split
    · split
      · exact .decide owes rfl
      · exact .decide owes rfl
    all_goals
      split
      · exact .decide owes rfl
      · exact .decide owes rfl
  | look =>
    simp only [call, stage]
    exact .decide (by rw [stage]; rfl) (job.look_owes f _)
  | candidate n =>
    have owes : f.stage.owes = false := by rw [stage]; rfl
    simp only [call, stage]
    split
    · exact .decide owes rfl
    · split
      · exact .decide owes rfl
      · split
        · exact .decide owes rfl
        · exact .decide owes rfl
  | clear =>
    simp only [call, stage]
    exact .clear stage
  | cleared =>
    simp only [call, stage]
    exact .cleared stage
  | write target =>
    have owes : f.stage.owes = false := by rw [stage]; rfl
    simp only [call, stage]
    split
    · exact .decide owes (job.taken_owes f _)
    · rename_i free
      split
      · exact .decide owes rfl
      · rename_i thing carries
        exact .write stage free carries
  | written target =>
    simp only [call, stage]
    exact .written stage
  | ended result =>
    simp only [call, stage]
    have owes : f.stage.owes = false := by rw [stage]; rfl
    exact .decide owes owes

end Job

end Norte.Transfer
