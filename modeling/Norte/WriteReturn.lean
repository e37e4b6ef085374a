import Norte.WriteUndo

/-! What a `write_task` leaves and what its rows give back: every course but two leaves rows
that lead back to what was there. The two are a return from the trash that is recorded as a
creation, and a burial without effect that is recorded without a place. -/
namespace Norte.WriteTask

open Chain (NewEntry JournalEntry Actor)
open Retry (Token maxRetries)
open Sync (NodeId EntryKind)

/-! ### Retries -/

theorem withRetry_ok {α : Type} {token : Token} {answer : Nat → Except Error α} {value : α}
    {retries attempt clock : Nat} (through : (withRetry token answer retries attempt clock).1 = .ok value) :
    ∃ k, answer k = .ok value := by
  induction retries generalizing attempt clock with
  | zero =>
    cases here : answer attempt with
    | ok v => exact ⟨attempt, by simpa [withRetry, here] using through⟩
    | error e => simp [withRetry, here] at through
  | succ retries ih =>
    cases here : answer attempt with
    | ok v => exact ⟨attempt, by simpa [withRetry, here] using through⟩
    | error e =>
      by_cases again : Retry.isTransient e
      · cases waited : Retry.backoffOrCancel token clock with
        | ok _ => exact ih (by simpa [withRetry, here, again, waited] using through)
        | error _ => simp [withRetry, here, again, waited] at through
      · simp [withRetry, here, again] at through

/-- The place that a burial names is the answer of one of its attempts. -/
theorem trashRetrying_ok {token : Token} {answer : Nat → Except Error VPath} {dest : VPath}
    {retries attempt clock : Nat} {ambiguous : Bool}
    (through : (trashRetrying token answer retries attempt ambiguous clock).1 = .ok (some dest)) :
    ∃ k, answer k = .ok dest := by
  induction retries generalizing attempt clock ambiguous with
  | zero =>
    by_cases cancelled : token.isCancelled clock
    · simp [trashRetrying, cancelled] at through
    · cases here : answer attempt with
      | ok v => exact ⟨attempt, by simpa [trashRetrying, cancelled, here] using through⟩
      | error e =>
        simp only [trashRetrying, if_neg cancelled, here] at through
        split_ifs at through
        simp at through
  | succ retries ih =>
    rw [trashRetrying] at through
    by_cases cancelled : token.isCancelled clock
    · simp [cancelled] at through
    · rw [if_neg cancelled] at through
      cases here : answer attempt with
      | ok v => exact ⟨attempt, by simpa [here] using through⟩
      | error e =>
        simp only [here] at through
        by_cases gone : e = .notFound ∧ ambiguous = true
        · simp [gone] at through
        · by_cases again : Retry.isTransient e
          · by_cases late : token.isCancelled (clock + 1)
            · simp [gone, again, late] at through
            · cases waited : Retry.backoffOrCancel token (clock + 2) with
              | ok _ => exact ih (by simpa [gone, again, late, waited] using through)
              | error _ => simp [gone, again, late, waited] at through
          · simp [gone, again] at through

theorem orElse_ok {α : Type} {fault : Option Error} {answer : Except Error α} {value : α}
    (through : orElse fault answer = .ok value) : answer = .ok value := by
  cases fault with
  | none => exact through
  | some e => cases through

section Task

variable {f : Faults} {names : Names} {actor : Actor} {path : VPath} {w : World}

/-- What the task saw is what is there. -/
theorem tree_of_seen {t : Thing} {clock : Nat} (saw : seen f path w = (.ok t, clock)) : w.tree path = some t := by
  obtain ⟨k, answered⟩ := withRetry_ok (congrArg Prod.fst saw)
  have told := orElse_ok answered
  cases there : w.tree path with
  | none => simp [World.stat, there] at told
  | some _ => simpa [World.stat, there] using told

theorem place_of_burial {clock : Nat} {en : VPath} (buried : burial f names path w clock = .ok (some en)) :
    en = names.name w.used path := by
  obtain ⟨k, answered⟩ := trashRetrying_ok buried
  exact (Except.ok.inj (orElse_ok answered)).symm

/-! ### The write -/

/-- One of the three calls of `write_new` fails. -/
def Faults.FailsToWrite (f : Faults) : Prop := f.opening.isSome ∨ f.write.isSome ∨ f.commit.isSome

theorem writeNew_fails (path : VPath) (new : Thing) (w : World) (fails : f.FailsToWrite) : ∃ e, writeNew f path new w = .error e := by
  cases opening : orElse f.opening (if (w.tree path).isSome then .error (.conflict .exists_) else .ok ()) with
  | error e => exact ⟨e, by simp only [writeNew, opening]; rfl⟩
  | ok _ =>
    cases write : f.write with
    | some e => exact ⟨e, by simp only [writeNew, opening, write]; rfl⟩
    | none =>
      cases commit : f.commit with
      | some e => exact ⟨e, by simp only [writeNew, opening, write, commit]; rfl⟩
      | none =>
        exfalso
        rcases fails with fault | fault | fault
        · obtain ⟨e, at_⟩ := Option.isSome_iff_exists.mp fault
          simp [at_, orElse] at opening
        · simp [write] at fault
        · simp [commit] at fault

theorem writeNew_occupied (f : Faults) (new : Thing) (occupied : (w.tree path).isSome) : ∃ e, writeNew f path new w = .error e := by
  cases opening : f.opening with
  | some e => exact ⟨e, by simp only [writeNew, opening]; rfl⟩
  | none => exact ⟨.conflict .exists_, by simp only [writeNew, opening, orElse, if_pos occupied]; rfl⟩

theorem writeNew_free {new : Thing} (free : w.tree path = none) (through : ¬ f.FailsToWrite) :
    writeNew f path new w = .ok (w.publish path new) := by
  obtain ⟨opening, write, commit⟩ : f.opening = none ∧ f.write = none ∧ f.commit = none := by
    simpa [Faults.FailsToWrite] using through
  simp only [writeNew, opening, write, commit, free, orElse]
  rfl

/-! ### The courses of a task -/

variable (f names actor path) in
/-- The courses that the undo takes back, with what the task leaves in each. -/
inductive Faithful (new : Thing) (w : World) : Outcome → Prop
  | untouched (e : Error) : Faithful new w ⟨.error e, [], w⟩
  | fresh (free : w.tree path = none) :
    Faithful new w ⟨.ok (), [created actor path (identityOf f path (w.publish path new))], w.publish path new⟩
  | away (e : Error) (t : Thing) (there : w.tree path = some t) (stays : f.restore.isSome) :
    Faithful new w ⟨.error e, [trashed actor path (some (names.name w.used path))], w.bury names path⟩
  | replaced (t : Thing) (there : w.tree path = some t) :
    Faithful new w ⟨.ok (), [trashed actor path (some (names.name w.used path)),
        created actor path (identityOf f path ((w.bury names path).publish path new))],
      (w.bury names path).publish path new⟩

variable (f names actor path) in
/-- The courses that it does not. -/
inductive Lost (w : World) : Outcome → Prop
  | returned (e : Error) (t : Thing) (there : w.tree path = some t) (file : t.kind = .file) (back : World)
    (came : back = (w.bury names path).unearth (names.name w.used path) path) :
    Lost w ⟨.error e, [trashed actor path (some (names.name w.used path)), created actor path (identityOf f path back)],
      back⟩
  | doubted (e : Error) (t : Thing) (there : w.tree path = some t) : Lost w ⟨.error e, [trashed actor path none], w⟩

variable (f names path) in
/-- The task buries a file, and either the burial is in doubt and names no place, or the write
fails after it and the file comes back. -/
def Astray (w : World) : Prop :=
  f.token.isCancelled 0 = false ∧ f.pin = none ∧
    ∃ t clock, seen f path w = (.ok t, clock) ∧ t.kind = .file ∧
      (burial f names path w clock = .ok none ∨
        (∃ en, burial f names path w clock = .ok (some en)) ∧ f.FailsToWrite ∧ f.restore = none)

theorem writeAfter_free {new : Thing} (recorded : f.record 1 = none) (free : w.tree path = none) :
    Faithful f names actor path new w (writeAfter f actor path new none [] w) := by
  cases written : writeNew f path new w with
  | error e =>
    simp only [writeAfter, written]
    exact .untouched e
  | ok w' =>
    have through : ¬ f.FailsToWrite := by
      intro fails
      obtain ⟨e, failed⟩ := writeNew_fails path new w fails
      rw [failed] at written
      cases written
    obtain rfl : w.publish path new = w' := by
      rw [writeNew_free free through] at written
      exact Except.ok.inj written
    simp only [writeAfter, written, recorded, List.nil_append]
    exact .fresh free

theorem writeAfter_occupied (f : Faults) (actor : Actor) (new : Thing) {buried : Option (Option VPath)}
    (rows : List NewEntry) (nowhere : buried = none ∨ buried = some none) (occupied : (w.tree path).isSome) :
    ∃ e, writeAfter f actor path new buried rows w = ⟨.error e, rows, w⟩ := by
  obtain ⟨e, failed⟩ := writeNew_occupied f new occupied
  refine ⟨e, ?_⟩
  rcases nowhere with rfl | rfl <;> simp only [writeAfter, failed]

theorem restoreFrom_bury {t : Thing} (there : w.tree path = some t) :
    (w.bury names path).restoreFrom (names.name w.used path) path = .ok () := by
  simp [World.restoreFrom, World.bury, there]

theorem writeAfter_replaced {new t : Thing} {rows : List NewEntry} (recorded : f.record 1 = none)
    (row : rows = [trashed actor path (some (names.name w.used path))]) (there : w.tree path = some t)
    (through : ¬ f.FailsToWrite) :
    Faithful f names actor path new w
      (writeAfter f actor path new (some (some (names.name w.used path))) rows (w.bury names path)) := by
  subst row
  have free : (w.bury names path).tree path = none := by simp [World.bury]
  simp only [writeAfter, writeNew_free free through, recorded, List.cons_append, List.nil_append]
  exact .replaced t there

theorem writeAfter_away {new t : Thing} {rows : List NewEntry} {en : VPath}
    (row : rows = [trashed actor path (some (names.name w.used path))]) (there : w.tree path = some t)
    (fails : f.FailsToWrite) (stays : f.restore.isSome) :
    Faithful f names actor path new w (writeAfter f actor path new (some (some en)) rows (w.bury names path)) := by
  subst row
  obtain ⟨e, failed⟩ := writeNew_fails path new (w.bury names path) fails
  obtain ⟨fault, restore⟩ := Option.isSome_iff_exists.mp stays
  simp only [writeAfter, failed, restore, orElse]
  exact .away e t there stays

theorem writeAfter_returned {new t : Thing} {rows : List NewEntry} (recorded : f.record 1 = none)
    (row : rows = [trashed actor path (some (names.name w.used path))]) (there : w.tree path = some t)
    (file : t.kind = .file) (fails : f.FailsToWrite) (comes : f.restore = none) :
    Lost f names actor path w
      (writeAfter f actor path new (some (some (names.name w.used path))) rows (w.bury names path)) := by
  subst row
  obtain ⟨e, failed⟩ := writeNew_fails path new (w.bury names path) fails
  simp only [writeAfter, failed, comes, orElse, restoreFrom_bury there, recorded, List.cons_append, List.nil_append]
  exact .returned e t there file _ rfl

variable {content : Bytes} {node : Option NodeId}

/-- From the burial of a file on. -/
theorem writeTask_buried {t : Thing} {clock : Nat} {dest : Option VPath} (recorded : f.record 0 = none)
    (running : f.token.isCancelled 0 = false) (pin : f.pin = none) (saw : seen f path w = (.ok t, clock))
    (file : t.kind = .file) (buried : burial f names path w clock = .ok dest) :
    writeTask f names actor path .replace content node w =
      writeAfter f actor path ⟨.file, content, node⟩ (some dest) [trashed actor path dest]
        (afterBurial names path w dest) := by
  have goes : ¬ (OnExists.replace = .refuse ∨ t.kind ≠ .file) := by simp [file]
  simp only [writeTask, running, pin, saw, if_neg goes, buried, recorded]
  rfl

/-- A task that does not go astray takes one of the courses that the undo takes back. -/
theorem writeTask_faithful (recorded : ∀ n, f.record n = none) (kept : ¬ Astray f names path w) :
    Faithful f names actor path ⟨.file, content, node⟩ w
      (writeTask f names actor path .replace content node w) := by
  by_cases cancelled : f.token.isCancelled 0
  · simp only [writeTask, if_pos cancelled]
    exact .untouched _
  cases pin : f.pin with
  | some e =>
    simp only [writeTask, if_neg cancelled, pin]
    exact .untouched _
  | none =>
    cases saw : seen f path w with
    | mk result clock =>
    cases result with
    | error e =>
      by_cases missing : e = .notFound
      · subst missing
        simp only [writeTask, if_neg cancelled, pin, saw]
        cases there : w.tree path with
        | none => exact writeAfter_free (recorded 1) there
        | some t =>
          obtain ⟨e, failed⟩ := writeAfter_occupied f actor ⟨.file, content, node⟩ []
            (.inl rfl) (Option.isSome_of_mem there)
          rw [failed]
          exact .untouched e
      · have refused : writeTask f names actor path .replace content node w = ⟨.error e, [], w⟩ := by
          simp only [writeTask, if_neg cancelled, pin, saw]
        rw [refused]
        exact .untouched e
    | ok t =>
      by_cases file : t.kind = .file
      · have there := tree_of_seen saw
        have running : f.token.isCancelled 0 = false := by simpa using cancelled
        cases buried : burial f names path w clock with
        | error e =>
          have goes : ¬ (OnExists.replace = .refuse ∨ t.kind ≠ .file) := by simp [file]
          simp only [writeTask, if_neg cancelled, pin, saw, if_neg goes, buried]
          exact .untouched e
        | ok dest =>
          rw [writeTask_buried (recorded 0) running pin saw file buried]
          cases dest with
          | none => exact absurd ⟨running, pin, t, clock, saw, file, .inl buried⟩ kept
          | some en =>
            obtain rfl := place_of_burial buried
            by_cases fails : f.FailsToWrite
            · by_cases comes : f.restore = none
              · exact absurd ⟨running, pin, t, clock, saw, file, .inr ⟨⟨_, buried⟩, fails, comes⟩⟩ kept
              · exact writeAfter_away rfl there fails (Option.isSome_iff_ne_none.mpr comes)
            · exact writeAfter_replaced (recorded 1) rfl there fails
      · have refuses : OnExists.replace = .refuse ∨ t.kind ≠ .file := .inr file
        simp only [writeTask, if_neg cancelled, pin, saw, if_pos refuses]
        exact .untouched _

/-- A task that goes astray takes one of the others. -/
theorem writeTask_lost (recorded : ∀ n, f.record n = none) (astray : Astray f names path w) :
    Lost f names actor path w (writeTask f names actor path .replace content node w) := by
  obtain ⟨running, pin, t, clock, saw, file, course⟩ := astray
  have there := tree_of_seen saw
  rcases course with doubt | ⟨⟨en, buried⟩, fails, comes⟩
  · obtain ⟨e, failed⟩ := writeAfter_occupied f actor ⟨.file, content, node⟩ [trashed actor path none]
      (.inr rfl) (Option.isSome_of_mem there)
    rw [writeTask_buried (recorded 0) running pin saw file doubt, afterBurial, failed]
    exact .doubted e t there
  · obtain rfl := place_of_burial buried
    rw [writeTask_buried (recorded 0) running pin saw file buried]
    exact writeAfter_returned (recorded 1) rfl there file fails comes

end Task

end Norte.WriteTask
