import Norte.RenameRetry
import Norte.SyncUndo

/-! `write_task` with its replacement: the file that was there goes to the trash, the new one
is published in its place, and a write that fails brings the old one back. Each call goes
through or fails without effect, and the trash names what it buries. -/
namespace Norte.WriteTask

open Chain (NewEntry JournalEntry Actor pathBytes)
open Retry (Token isTransient sowsDoubt backoffOrCancel maxRetries)
open Sync (NodeId EntryKind)

/-! ### What is there -/

/-- What stands at a path, with its identity where the provider has one. -/
structure Thing where
  kind : EntryKind
  content : Bytes
  node : Option NodeId
  deriving DecidableEq

/-- The tree, what is in the trash by its place, and the places given so far. -/
structure World where
  tree : VPath → Option Thing
  trash : VPath → Option Thing
  used : List VPath

/-- How the trash names its places: never twice the same. -/
structure Names where
  name : List VPath → VPath → VPath
  fresh : ∀ used path, name used path ∉ used

namespace World

def stat (w : World) (path : VPath) : Except Error Thing :=
  match w.tree path with
  | some t => .ok t
  | none => .error .notFound

/-- What is buried is at a place that was never given before. -/
def bury (names : Names) (w : World) (path : VPath) : World where
  tree := Function.update w.tree path none
  trash := Function.update w.trash (names.name w.used path) (w.tree path)
  used := names.name w.used path :: w.used

def unearth (w : World) (there path : VPath) : World where
  tree := Function.update w.tree path (w.trash there)
  trash := Function.update w.trash there none
  used := w.used

/-- `restore_from`: the payload has to be there, and the path free. -/
def restoreFrom (w : World) (there path : VPath) : Except Error Unit :=
  if (w.trash there).isNone then .error .notFound
  else if (w.tree path).isSome then .error (.conflict .exists_)
  else .ok ()

def publish (w : World) (path : VPath) (t : Thing) : World := { w with tree := Function.update w.tree path (some t) }

end World

/-- The calls of a task that fail, by the attempt where there are several, and the readings of
its token. -/
structure Faults where
  token : Token := .new
  pin : Option Error := none
  stat : Nat → Option Error := fun _ => none
  trash : Nat → Option Error := fun _ => none
  record : Nat → Option Error := fun _ => none
  opening : Option Error := none
  write : Option Error := none
  commit : Option Error := none
  restore : Option Error := none
  nodeId : Option Error := none

/-- A call that goes through answers what is so. -/
def orElse {α : Type} (fault : Option Error) (answer : Except Error α) : Except Error α :=
  match fault with
  | some e => .error e
  | none => answer

/-! ### Retries -/

/-- `with_retry`, from an attempt on. -/
def withRetry {α : Type} (token : Token) (answer : Nat → Except Error α) : Nat → Nat → Nat → Except Error α × Nat
  | retries, attempt, clock =>
    match answer attempt, retries with
    | .ok value, _ => (.ok value, clock)
    | .error e, 0 => (.error e, clock)
    | .error e, retries + 1 =>
      if isTransient e then
        match backoffOrCancel token clock with
        | .error e => (.error e, clock + 1)
        | .ok () => withRetry token answer retries (attempt + 1) (clock + 1)
      else (.error e, clock)

/-- `trash_retrying`: gone already, after an attempt in doubt, names no place. -/
def trashRetrying (token : Token) (answer : Nat → Except Error VPath) :
    Nat → Nat → Bool → Nat → Except Error (Option VPath) × Nat
  | retries, attempt, ambiguous, clock =>
    if token.isCancelled clock then (.error .cancelled, clock + 1)
    else
      match answer attempt with
      | .ok dest => (.ok (some dest), clock + 1)
      | .error e =>
        if e = .notFound ∧ ambiguous then (.ok none, clock + 1)
        else if isTransient e then
          match retries with
          | 0 => (.error e, clock + 1)
          | retries + 1 =>
            if token.isCancelled (clock + 1) then (.error e, clock + 2)
            else
              match backoffOrCancel token (clock + 2) with
              | .error e => (.error e, clock + 3)
              | .ok () => trashRetrying token answer retries (attempt + 1) (ambiguous || sowsDoubt e) (clock + 3)
        else (.error e, clock + 1)

/-! ### The rows -/

def nodeFootprint (n : NodeId) : Bytes :=
  Utf8.encode (Nat.toDigits 10 n.volume ++ ':' :: Nat.toDigits 10 n.index)

def created (actor : Actor) (path : VPath) (node : Option NodeId) : NewEntry :=
  ⟨"created".toList, pathBytes path, none, .delete, node.map nodeFootprint, actor, none, none⟩

def trashed (actor : Actor) (path : VPath) (dest : Option VPath) : NewEntry :=
  ⟨"trashed".toList, pathBytes path, none, .restoreTrash, dest.map pathBytes, actor, none, none⟩

/-! ### The task -/

inductive OnExists where
  | refuse
  | replace
  deriving DecidableEq, Repr

/-- What a task leaves: its result, the rows it wrote and the world after it. -/
structure Outcome where
  result : Except Error Unit
  rows : List NewEntry
  world : World

section Task

variable (f : Faults) (names : Names) (actor : Actor) (path : VPath)

/-- `identity_of`: a failure is no identity. -/
def identityOf (w : World) : Option NodeId :=
  match orElse f.nodeId (w.stat path) with
  | .ok t => t.node
  | .error _ => none

/-- Opens, writes and publishes; what is there already is a conflict. -/
def writeNew (new : Thing) (w : World) : Except Error World := do
  orElse f.opening (if (w.tree path).isSome then .error (.conflict .exists_) else .ok ())
  orElse f.write (.ok ())
  orElse f.commit (.ok ())
  .ok (w.publish path new)

/-- From the write on; `buried` is what the burial answered, if there was one. -/
def writeAfter (new : Thing) (buried : Option (Option VPath)) (rows : List NewEntry) (w : World) : Outcome :=
  match writeNew f path new w with
  | .error e =>
    match buried with
    | some (some en) =>
      match orElse f.restore (w.restoreFrom en path) with
      | .ok () =>
        let w := w.unearth en path
        match f.record 1 with
        | none => ⟨.error e, rows ++ [created actor path (identityOf f path w)], w⟩
        | some _ => ⟨.error e, rows, w⟩
      | .error _ => ⟨.error e, rows, w⟩
    | _ => ⟨.error e, rows, w⟩
  | .ok w =>
    match f.record 1 with
    | none => ⟨.ok (), rows ++ [created actor path (identityOf f path w)], w⟩
    | some e => ⟨.error e, rows, w⟩

/-- What the burial of the file that is there answers, with its retries. -/
def burial (w : World) (clock : Nat) : Except Error (Option VPath) :=
  (trashRetrying f.token (fun attempt => orElse (f.trash attempt) (.ok (names.name w.used path)))
    maxRetries 0 false clock).1

/-- The burial took effect where it named a place. -/
def afterBurial (w : World) : Option VPath → World
  | some _ => w.bury names path
  | none => w

/-- What the task sees at the path, with its retries, and the reading it goes on with. -/
def seen (w : World) : Except Error Thing × Nat :=
  withRetry f.token (fun attempt => orElse (f.stat attempt) (w.stat path)) maxRetries 0 1

/-- `write_task`; `node` is the identity that the provider gives the new file. -/
def writeTask (onExists : OnExists) (content : Bytes) (node : Option NodeId) (w : World) : Outcome :=
  if f.token.isCancelled 0 then ⟨.error .cancelled, [], w⟩
  else
    match f.pin with
    | some e => ⟨.error e, [], w⟩
    | none =>
      match seen f path w with
      | (.ok entry, clock) =>
        if onExists = .refuse ∨ entry.kind ≠ .file then ⟨.error (.conflict .exists_), [], w⟩
        else
          match burial f names path w clock with
          | .error e => ⟨.error e, [], w⟩
          | .ok dest =>
            let w := afterBurial names path w dest
            match f.record 0 with
            | none => writeAfter f actor path ⟨.file, content, node⟩ (some dest) [trashed actor path dest] w
            | some e =>
              match dest with
              | some en =>
                match orElse f.restore (w.restoreFrom en path) with
                | .ok () => ⟨.error e, [], w.unearth en path⟩
                | .error _ => ⟨.error e, [], w⟩
              | none => ⟨.error e, [], w⟩
      | (.error .notFound, _) => writeAfter f actor path ⟨.file, content, node⟩ none [] w
      | (.error e, _) => ⟨.error e, [], w⟩

end Task

end Norte.WriteTask
