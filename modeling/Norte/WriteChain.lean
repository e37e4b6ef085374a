import Mathlib.Algebra.Order.BigOperators.Group.List
import Mathlib.Algebra.Order.Ring.Nat
import Norte.WriteReturn

/-! Does the chain of a `write_task` tell the whole story? What a failed task leaves, and what
its rows taken back leave, against what was there before. -/
namespace Norte.WriteTask

open Chain (NewEntry JournalEntry Actor)
open Retry (Token maxRetries)
open Sync (NodeId EntryKind Behaviour Log)

/-- After an error the path holds what it held, or the trash holds it where a row says, the way
back having failed; and the rows taken back, newest first, leave what was there. -/
structure TakenBack (f : Faults) (names : Names) (actor : Actor) (path : VPath) (w : World) (out : Outcome) : Prop where
  kept : ∀ e, out.result = .error e → out.world.tree path = w.tree path ∨
    f.restore.isSome ∧ ∃ en, trashed actor path (some en) ∈ out.rows ∧ out.world.trash en = w.tree path
  undone : ∀ actor' es, List.Forall₂ Recorded out.rows es →
    ∃ log, undoRows (out.world.behaviour names) actor' es.reverse [] = (true, log) ∧
      (out.world.after names log).tree path = w.tree path

/-! ### The world, call by call -/

section World

variable (names : Names) (w : World) (path : VPath)

@[simp] theorem World.bury_tree : (w.bury names path).tree path = none := by simp [World.bury]

@[simp] theorem World.bury_trash : (w.bury names path).trash (names.name w.used path) = w.tree path := by
  simp [World.bury]

@[simp] theorem World.publish_tree (t : Thing) : (w.publish path t).tree path = some t := by simp [World.publish]

@[simp] theorem World.unearth_tree (there : VPath) : (w.unearth there path).tree path = w.trash there := by
  simp [World.unearth]

@[simp] theorem World.unearth_trash (there : VPath) : (w.unearth there path).trash there = none := by
  simp [World.unearth]

/-- A burial leaves alone what an earlier one named. -/
theorem World.bury_trash_of_used {place : VPath} (used : place ∈ w.used) :
    (w.bury names path).trash place = w.trash place := by
  have apart : place ≠ names.name w.used path := by
    rintro rfl
    exact names.fresh w.used path used
  simp [World.bury, apart]

end World

theorem identityOf_ours {f : Faults} {path : VPath} {w : World} {t : Thing} (there : w.tree path = some t) :
    identityOf f path w = none ∨ identityOf f path w = t.node := by
  cases fault : f.nodeId with
  | none => exact .inr (by simp [identityOf, fault, orElse, World.stat, there])
  | some e => exact .inl (by simp [identityOf, fault, orElse])

/-! ### The undo, row by row -/

section Undo

variable {b : Behaviour} {actor : Actor} {e : JournalEntry} {es : List JournalEntry} {log log' : Log}

theorem undoRows_done (done : Sync.revertEntry b actor none e log = (.ok .done, log')) :
    undoRows b actor (e :: es) log = undoRows b actor es log' := by
  simp [undoRows, done]

theorem undoRows_blocked {seq : Int} {error : Error}
    (blocked : Sync.revertEntry b actor none e log = (.ok (.blocked seq error), log')) :
    undoRows b actor (e :: es) log = (false, log') := by
  simp [undoRows, blocked]

end Undo

theorem recorded_entry (n : NewEntry) : Recorded n ⟨n.record 0 0, []⟩ := ⟨0, 0, rfl⟩

section Rows

variable (names : Names) {actor : Actor} (actor' : Actor) {path en : VPath} {w : World} {t new : Thing}
  {node : Option NodeId} {e e' : JournalEntry}

theorem undo_created (row : Recorded (created actor path node) e) (there : w.tree path = some new)
    (file : new.kind ≠ .dir) (ours : node = none ∨ node = new.node) :
    ∃ log, undoRows (w.behaviour names) actor' [e] [] = (true, log) ∧ w.after names log = w.bury names path := by
  obtain ⟨log, done, after⟩ := revert_created names w [] actor' row there file ours
  exact ⟨log, undoRows_done done, after⟩

theorem undo_trashed (row : Recorded (trashed actor path (some en)) e) (free : w.tree path = none)
    (kept : w.trash en = some t) :
    ∃ log, undoRows (w.behaviour names) actor' [e] [] = (true, log) ∧ (w.after names log).tree path = some t := by
  obtain ⟨log, done, after⟩ := revert_trashed names w [] actor' row free kept
  refine ⟨log, undoRows_done done, ?_⟩
  simp [after, kept]

/-- The new file goes to a place of its own, and the old one comes out of its. -/
theorem undo_replaced (row : Recorded (trashed actor path (some en)) e) (row' : Recorded (created actor path node) e')
    (there : w.tree path = some new) (file : new.kind ≠ .dir) (ours : node = none ∨ node = new.node)
    (used : en ∈ w.used) (kept : w.trash en = some t) :
    ∃ log, undoRows (w.behaviour names) actor' [e', e] [] = (true, log) ∧ (w.after names log).tree path = some t := by
  obtain ⟨log', done', after'⟩ := revert_created names w [] actor' row' there file ours
  have free : (w.after names log').tree path = none := by simp [after']
  have still : (w.after names log').trash en = some t := by
    rw [after', World.after_nil, World.bury_trash_of_used names w path used, kept]
  obtain ⟨log, done, after⟩ := revert_trashed names w log' actor' row free still
  refine ⟨log, (undoRows_done done').trans (undoRows_done done), ?_⟩
  simp [after, still]

/-- With the old file out of its place already, the burial has nothing to give back. -/
theorem undo_returned (row : Recorded (trashed actor path (some en)) e) (row' : Recorded (created actor path node) e')
    (there : w.tree path = some new) (file : new.kind ≠ .dir) (ours : node = none ∨ node = new.node)
    (used : en ∈ w.used) (gone : w.trash en = none) :
    ∃ log, undoRows (w.behaviour names) actor' [e', e] [] = (false, log) := by
  obtain ⟨log', done', after'⟩ := revert_created names w [] actor' row' there file ours
  have free : (w.after names log').tree path = none := by simp [after']
  have missing : (w.after names log').trash en = none := by
    rw [after', World.after_nil, World.bury_trash_of_used names w path used, gone]
  obtain ⟨error, log, blocked⟩ := revert_trashed_missing names w log' actor' row free missing
  exact ⟨log, (undoRows_done done').trans (undoRows_blocked blocked)⟩

end Rows

/-! ### The courses -/

variable {f : Faults} {names : Names} {actor : Actor} {path : VPath} {w : World} {out : Outcome}

theorem Faithful.takenBack {new : Thing} (file : new.kind ≠ .dir) (course : Faithful f names actor path new w out) :
    TakenBack f names actor path w out := by
  cases course with
  | untouched e =>
    refine ⟨fun _ _ => .inl rfl, fun actor' es rows => ?_⟩
    cases rows
    exact ⟨[], rfl, rfl⟩
  | fresh free =>
    refine ⟨fun _ failed => by simp at failed, fun actor' es rows => ?_⟩
    obtain ⟨e, _, row, rest, rfl⟩ := List.forall₂_cons_left_iff.mp rows
    cases rest
    have there := World.publish_tree w path new
    obtain ⟨log, done, after⟩ := undo_created names actor' row there file (identityOf_ours there)
    refine ⟨log, done, ?_⟩
    simp [after, free]
  | away e t there stays =>
    have kept := World.bury_trash names w path
    refine ⟨fun _ _ => .inr ⟨stays, _, List.mem_singleton_self _, kept⟩, fun actor' es rows => ?_⟩
    obtain ⟨e, _, row, rest, rfl⟩ := List.forall₂_cons_left_iff.mp rows
    cases rest
    rw [there] at kept ⊢
    exact undo_trashed names actor' row (World.bury_tree names w path) kept
  | replaced t there =>
    refine ⟨fun _ failed => by simp at failed, fun actor' es rows => ?_⟩
    obtain ⟨e, _, row, rest, rfl⟩ := List.forall₂_cons_left_iff.mp rows
    obtain ⟨e', rest', row', last, rfl⟩ := List.forall₂_cons_left_iff.mp rest
    obtain rfl := List.forall₂_nil_left_iff.mp last
    have new_ := World.publish_tree (w.bury names path) path new
    have kept : ((w.bury names path).publish path new).trash (names.name w.used path) = some t :=
      (World.bury_trash names w path).trans there
    obtain ⟨log, done, after⟩ := undo_replaced names actor' row row' new_ file (identityOf_ours new_)
      List.mem_cons_self kept
    exact ⟨log, done, after.trans there.symm⟩

theorem Lost.not_takenBack (course : Lost f names actor path w out) : ¬ TakenBack f names actor path w out := by
  intro ⟨_, undone⟩
  cases course with
  | returned e t there file back came =>
    obtain ⟨log, done, -⟩ := undone actor _ (.cons (recorded_entry _) (.cons (recorded_entry _) .nil))
    have back_ : back.tree path = some t := by rw [came, World.unearth_tree, World.bury_trash, there]
    have gone : back.trash (names.name w.used path) = none := by rw [came, World.unearth_trash]
    have used : names.name w.used path ∈ back.used := by rw [came]; exact List.mem_cons_self
    have kind : t.kind ≠ .dir := by rw [file]; decide
    obtain ⟨log', blocked⟩ := undo_returned names actor (recorded_entry _) (recorded_entry _) back_ kind
      (identityOf_ours back_) used gone
    cases done.symm.trans blocked
  | doubted e t there =>
    obtain ⟨log, done, -⟩ := undone actor _ (.cons (recorded_entry _) .nil)
    obtain ⟨error, log', blocked⟩ := revert_trashed_occupied names w [] actor (recorded_entry (trashed actor path none))
      (Option.isSome_of_mem there)
    cases done.symm.trans (undoRows_blocked blocked)

theorem Lost.tree (course : Lost f names actor path w out) : out.world.tree path = w.tree path := by
  cases course with
  | returned e t there file back came => rw [came, World.unearth_tree, World.bury_trash]
  | doubted e t there => rfl

/-- No replacement loses what was there, whatever becomes of its rows. -/
theorem writeTask_keeps (content : Bytes) (node : Option NodeId) (recorded : ∀ n, f.record n = none) {e : Error}
    (failed : (writeTask f names actor path .replace content node w).result = .error e) :
    let out := writeTask f names actor path .replace content node w
    out.world.tree path = w.tree path ∨
      f.restore.isSome ∧ ∃ en, trashed actor path (some en) ∈ out.rows ∧ out.world.trash en = w.tree path := by
  by_cases astray : Astray f names path w
  · exact .inl (writeTask_lost recorded astray).tree
  · have file : EntryKind.file ≠ .dir := by decide
    exact ((writeTask_faithful recorded astray).takenBack file).kept e failed

/-- A replacement leaves what it should, and its rows lead back, exactly when it does not go
astray: the rows of a return from the trash, and of a burial in doubt, cannot be taken back. -/
theorem writeTask_takenBack_iff (f : Faults) (names : Names) (actor : Actor) (path : VPath) (content : Bytes)
    (node : Option NodeId) (w : World) (recorded : ∀ n, f.record n = none) :
    TakenBack f names actor path w (writeTask f names actor path .replace content node w) ↔
      ¬ Astray f names path w := by
  constructor
  · intro back astray
    exact (writeTask_lost recorded astray).not_takenBack back
  · intro kept
    have file : EntryKind.file ≠ .dir := by decide
    exact (writeTask_faithful recorded kept).takenBack file

/-! ### A file that is there -/

def sampleName : Segment := ⟨[0x61], Segment.valid_a⟩

/-- Deeper than all places so far. -/
def deepest (used : List VPath) : Nat := (used.map fun place => place.segments.length).sum

def sampleNames : Names where
  name used path := { path with segments := List.replicate (deepest used + 1) sampleName }
  fresh used path member := by
    have bound := List.le_sum_of_mem (List.mem_map_of_mem (f := fun place : VPath => place.segments.length) member)
    simp [deepest] at bound

def samplePath : VPath := Rename.sampleRoot.join sampleName

def sampleFile : Thing := ⟨.file, [0x6f], none⟩

def sampleWorld : World := ⟨Function.update (fun _ => none) samplePath (some sampleFile), fun _ => none, []⟩

theorem sampleWorld_seen (f : Faults) (quiet : f.stat 0 = none) : seen f samplePath sampleWorld = (.ok sampleFile, 1) := by
  simp [seen, withRetry, maxRetries, quiet, orElse, World.stat, sampleWorld]

theorem plainReplace_takenBack : TakenBack {} sampleNames .user samplePath sampleWorld
    (writeTask {} sampleNames .user samplePath .replace [0x6e] none sampleWorld) := by
  refine (writeTask_takenBack_iff {} sampleNames .user samplePath [0x6e] none sampleWorld fun _ => rfl).mpr ?_
  rintro ⟨-, -, t, clock, -, -, doubt | ⟨-, fails, -⟩⟩
  · cases doubt
  · simp [Faults.FailsToWrite] at fails

/-- No space is left when the new file is published. -/
def fullDisk : Faults := { commit := some .noSpace }

theorem fullDisk_not_takenBack : (∀ n, fullDisk.record n = none) ∧ ¬ TakenBack fullDisk sampleNames .user samplePath sampleWorld
    (writeTask fullDisk sampleNames .user samplePath .replace [0x6e] none sampleWorld) := by
  have buried : burial fullDisk sampleNames samplePath sampleWorld 1 = .ok (some (sampleNames.name [] samplePath)) := rfl
  have astray : Astray fullDisk sampleNames samplePath sampleWorld :=
    ⟨rfl, rfl, sampleFile, 1, sampleWorld_seen fullDisk rfl, rfl, .inr ⟨⟨_, buried⟩, .inr (.inr rfl), rfl⟩⟩
  exact ⟨fun _ => rfl, (writeTask_lost (fun _ => rfl) astray).not_takenBack⟩

end Norte.WriteTask
