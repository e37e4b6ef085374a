import Norte.SpoolFile
import Norte.UndoBatch

/-! What the application of a plan and its undo ask of the world: two providers, the
policy, the journal and the cancellation token. Whoever answers is a `Behaviour`, which
sees all that was answered before. -/
namespace Norte.Sync

open Chain (Reversal NewEntry)

inductive DeleteMode where
  | trash
  | permanent
  deriving DecidableEq, Repr

inductive PolicyOp where
  | copy
  | delete (mode : DeleteMode)
  | mkdir
  deriving DecidableEq, Repr

inductive Decision where
  | allow
  | deny (rule : Str)
  | ask
  deriving DecidableEq, Repr

/-- What is known about the effect of a mutation that failed. -/
inductive Ambiguity where
  | notApplied
  | maybeApplied
  deriving DecidableEq, Repr

/-- What a mutation did, which is not always what it answered: a failure can come after
the effect, and one without effect can still be in doubt. -/
inductive Outcome (α : Type) where
  | done (value : α)
  | failed (error : Error) (doubt : Ambiguity)
  | failedAfter (value : α) (error : Error)
  deriving DecidableEq

namespace Outcome

def answer : Outcome α → Except (Error × Ambiguity) α
  | done value => .ok value
  | failed e doubt => .error (e, doubt)
  | failedAfter _ e => .error (e, .maybeApplied)

def effect? : Outcome α → Option α
  | done value => some value
  | failed _ _ => none
  | failedAfter value _ => some value

/-- The answer of the wrappers that do not tell the doubt. -/
def plain (outcome : Outcome α) : Except Error α := outcome.answer.mapError Prod.fst

end Outcome

structure NodeId where
  volume : Nat
  index : Nat
  deriving DecidableEq, Repr

/-- What stands at a path. -/
inductive Node where
  | dir
  | file (content : Bytes)
  | symlink (target : Bytes)
  deriving DecidableEq

inductive Root where
  | source
  | dest
  deriving DecidableEq, Repr

/-- A call of the executor or of the undo. Trees are walked below the path of the call,
so the nodes of a walk are named by their segments below it. -/
inductive Call where
  | isCancelled
  | checkDue
  | openRoot
  | stillStanding
  | evaluate (op : PolicyOp) (path : VPath)
  | stat (root : Root) (path : VPath)
  | list (path : VPath)
  | walk (path : VPath)
  | readLink (path : VPath)
  | bytesDone
  | nodeId (path : VPath)
  | hasTrash
  | mode (path : VPath)
  | allocBatch
  | mkdir (path : VPath)
  | symlink (path : VPath) (target : Bytes)
  | copyFile (source path : VPath) (size : Option UInt64)
  | trash (path : VPath) (id : Nat)
  | remove (path : VPath) (isDir : Bool)
  | restoreFrom (there path : VPath)
  | restoreTrashed (path : VPath)
  | rename (source path : VPath)
  | detour (source path : VPath)
  | setMode (path : VPath) (mode : Nat)
  | record (entry : NewEntry)
  deriving DecidableEq

/-- A copy answers with nothing; its outcome holds what was written. A burial answers
with the place in the trash, if the trash names it, and a row with its number. -/
@[reducible] def Call.Answer : Call → Type
  | isCancelled | checkDue | hasTrash => Bool
  | openRoot | stillStanding => Except Error Unit
  | evaluate _ _ => Decision
  | stat _ _ => Except Error Entry
  | list _ => Except Error (List (Except Error Unit))
  | walk _ => Except Error (List (List Segment × Bool))
  | readLink _ => Except Error Bytes
  | bytesDone => UInt64
  | nodeId _ => Except Error (Option NodeId)
  | mode _ => Option Nat
  | allocBatch => Except Error Int
  | mkdir _ | symlink _ _ | remove _ _ | restoreFrom _ _ | restoreTrashed _ => Outcome Unit
  | rename _ _ | detour _ _ | setMode _ _ => Outcome Unit
  | copyFile _ _ _ => Outcome Bytes
  | trash _ _ => Outcome (Option VPath)
  | record _ => Except Error Int

structure Event where
  call : Call
  answer : call.Answer

abbrev Log := List Event

def Behaviour := (call : Call) → Log → call.Answer

def ask (b : Behaviour) (call : Call) (log : Log) : call.Answer × Log :=
  (b call log, log ++ [⟨call, b call log⟩])

/-! The part of a log that changes the tree or accounts for a change. -/

inductive Mark where
  | made (path : VPath) (node : Node)
  | buried (path : VPath) (there : Option VPath)
  | removed (path : VPath)
  | putBack (there path : VPath)
  | row (entry : NewEntry) (seq : Int)
  deriving DecidableEq

/-- What an event leaves behind; the moves of other undos are not looked at here. -/
def Event.mark? : Event → Option Mark
  | ⟨.mkdir path, answer⟩ => answer.effect?.map fun _ => .made path .dir
  | ⟨.symlink path target, answer⟩ => answer.effect?.map fun _ => .made path (.symlink target)
  | ⟨.copyFile _ path _, answer⟩ => answer.effect?.map fun content => .made path (.file content)
  | ⟨.trash path _, answer⟩ => answer.effect?.map fun there => .buried path there
  | ⟨.remove path _, answer⟩ => answer.effect?.map fun _ => .removed path
  | ⟨.restoreFrom there path, answer⟩ => answer.effect?.map fun _ => .putBack there path
  | ⟨.record entry, .ok seq⟩ => some (.row entry seq)
  | _ => none

def marks (log : Log) : List Mark := log.filterMap Event.mark?

@[simp] theorem marks_nil : marks [] = [] := rfl

theorem marks_append (log added : Log) : marks (log ++ added) = marks log ++ marks added :=
  List.filterMap_append

@[simp] theorem marks_ask (b : Behaviour) (call : Call) (log : Log) :
    marks (ask b call log).2 = marks log ++ (Event.mark? ⟨call, b call log⟩).toList := by
  rw [ask, marks_append]
  cases h : Event.mark? ⟨call, b call log⟩ <;> simp [marks, h]

end Norte.Sync
