import Norte.SyncExec

/-! Where one step can be cut: every way an effect, its row and its compensation can fall
apart, with what the step says in each. -/
namespace Norte.Sync

open Chain (Reversal NewEntry pathBytes)

/-! Looking changes nothing. -/

section Quiet

variable (b : Behaviour)

@[simp] theorem marks_isCancelled (log : Log) : marks (isCancelled b log).2 = marks log := by
  simp [isCancelled, Event.mark?]

@[simp] theorem marks_stat (root : Root) (path : VPath) (log : Log) :
    marks (stat b root path log).2 = marks log := by
  have quiet : marks (ask b (.stat root path) log).2 = marks log := by simp [Event.mark?]
  unfold stat
  split <;> simp_all

@[simp] theorem marks_countItems (items : List (Except Error Unit)) (n : Nat) (log : Log) :
    marks (countItems b n items log).2 = marks log := by
  induction items generalizing n log with
  | nil => simp [countItems]
  | cons item items ih =>
    cases item with
    | error e => simp [countItems]
    | ok u =>
      simp only [countItems]
      split
      · simp
      · rw [ih, marks_isCancelled]

@[simp] theorem marks_countFirstLevel (path : VPath) (log : Log) :
    marks (countFirstLevel b path log).2 = marks log := by
  have quiet : marks (ask b (.list path) log).2 = marks log := by simp [Event.mark?]
  unfold countFirstLevel
  split <;> simp_all

@[simp] theorem marks_revalidate (path : VPath) (witness : Option DestWitness) (log : Log) :
    marks (revalidate b path witness log).2 = marks log := by
  have quiet := marks_stat b .dest path log
  have counted := marks_countFirstLevel b path
  unfold revalidate
  repeat' split
  all_goals grind

@[simp] theorem marks_sourceLeaf (targets : SyncTargets) (record : SpoolStep) (log : Log) :
    marks (sourceLeaf b targets record log).2 = marks log := by
  have quiet := marks_stat b .source (under targets.sourceRoot record.step.rel) log
  unfold sourceLeaf
  dsimp only
  repeat' split
  all_goals simp_all

@[simp] theorem marks_allows (op : PolicyOp) (path : VPath) (log : Log) :
    marks (allows b op path log).2 = marks log := by
  have quiet : marks (ask b (.evaluate op path) log).2 = marks log := by simp [Event.mark?]
  unfold allows
  split <;> simp_all

@[simp] theorem marks_gateAll (path : VPath) (ops : List PolicyOp) (log : Log) :
    marks (gateAll b path ops log).2 = marks log := by
  induction ops generalizing log with
  | nil => rfl
  | cons op ops ih =>
    have quiet := marks_allows b op path log
    unfold gateAll
    split <;> simp_all

@[simp] theorem marks_gateStep (targets : SyncTargets) (kind : SyncStepKind) (path : VPath) (log : Log) :
    marks (gateStep b targets kind path log).2 = marks log := marks_gateAll b path _ log

end Quiet

/-- The destination path a mark changes. -/
def Mark.changed : Mark → Option VPath
  | made path _ | buried path _ | removed path => some path
  | putBack _ _ | row _ _ => none

/-! One effect of a step: it lands, fails, or lands and fails. -/

def Outcome.late : Outcome α → Bool
  | failedAfter _ _ => true
  | _ => false

/-- A failure that came after its effect. -/
def Event.late : Event → Bool
  | ⟨.mkdir _, answer⟩ | ⟨.symlink _ _, answer⟩ | ⟨.remove _ _, answer⟩
  | ⟨.restoreFrom _ _, answer⟩ => answer.late
  | ⟨.copyFile _ _ _, answer⟩ => answer.late
  | ⟨.trash _ _, answer⟩ => answer.late
  | _ => false

def Behaviour.Late (b : Behaviour) : Prop := ∃ call log, Event.late ⟨call, b call log⟩

/-- A row does not arrive. -/
def Behaviour.Refuses (b : Behaviour) : Prop := ∃ entry log e, b (.record entry) log = .error e

/-- Some call of a run with these marks behind it leaves `m`. -/
def Behaviour.Marks (b : Behaviour) (before : List Mark) (m : Mark) : Prop :=
  ∃ call log, marks log = before ∧ Event.mark? ⟨call, b call log⟩ = some m

/-- What an effect and its answer can be. -/
inductive Lands (b : Behaviour) (log : Log) (marked : α → Mark → Prop) : Except ε α × Log → Prop where
  | done {value : α} {log' : Log} (m : Mark) (such : marked value m) (origin : b.Marks (marks log) m)
      (after : marks log' = marks log ++ [m]) : Lands b log marked (.ok value, log')
  | failed {e : ε} {log' : Log} (after : marks log' = marks log) : Lands b log marked (.error e, log')
  | late {e : ε} {log' : Log} (value : α) (m : Mark) (such : marked value m) (late : b.Late)
      (after : marks log' = marks log ++ [m]) : Lands b log marked (.error e, log')

/-- An answer that says nothing happened while something did. -/
def FailedLate (ended : Except ε α × Log) (log : Log) : Prop :=
  (∃ e, ended.1 = .error e) ∧ marks ended.2 ≠ marks log

theorem Outcome.lands {b : Behaviour} {log log' : Log} {marked : α → Mark → Prop} {outcome : Outcome α}
    {mark : α → Mark} (after : marks log' = marks log ++ (outcome.effect?.map mark).toList)
    (late : outcome.late → b.Late) (origin : ∀ m, outcome.effect?.map mark = some m → b.Marks (marks log) m)
    (such : ∀ value, marked value (mark value)) :
    Lands b log marked (outcome.plain, log') := by
  cases outcome with
  | done value => exact .done _ (such value) (origin _ rfl) (by simpa [effect?] using after)
  | failed e doubt => exact .failed (by simpa [effect?] using after)
  | failedAfter value e => exact .late value _ (such value) (late rfl) (by simpa [effect?] using after)

theorem Lands.map {b : Behaviour} {log log' : Log} {marked : α → Mark → Prop} {marked' : β → Mark → Prop}
    {ended : Except ε α} (lands : Lands b log marked (ended, log')) (f : α → β)
    (weaker : ∀ value m, marked value m → marked' (f value) m) :
    Lands b log marked' (ended.map f, log') := by
  cases lands with
  | done m such origin after => exact .done m (weaker _ m such) origin after
  | failed after => exact .failed after
  | late value m such late after => exact .late (f value) m (weaker _ m such) late after

theorem Lands.from {b : Behaviour} {log log₀ : Log} {marked : α → Mark → Prop} {ended : Except ε α × Log}
    (lands : Lands b log marked ended) (same : marks log = marks log₀) : Lands b log₀ marked ended := by
  cases lands with
  | done m such origin after => exact .done m such (same ▸ origin) (same ▸ after)
  | failed after => exact .failed (same ▸ after)
  | late value m such late after => exact .late value m such late (same ▸ after)

section Effects

variable (b : Behaviour)

theorem trashRetrying_lands (path : VPath) (id : Nat) (log : Log) :
    Lands b log (fun there m => m = .buried path there) (trashRetrying b path id log) :=
  Outcome.lands (marks_ask b (.trash path id) log) (fun late => ⟨.trash path id, log, late⟩)
    (fun _ left => ⟨.trash path id, log, rfl, left⟩) (fun _ => rfl)

theorem mkdirRetrying_lands (path : VPath) (log : Log) :
    Lands b log (fun _ m => ∃ node, m = .made path node) (mkdirRetrying b path log) :=
  Outcome.lands (marks_ask b (.mkdir path) log) (fun late => ⟨.mkdir path, log, late⟩)
    (fun _ left => ⟨.mkdir path, log, rfl, left⟩) (fun _ => ⟨.dir, rfl⟩)

theorem copyLeaf_lands (source dest : VPath) (entry : Entry) (log : Log) :
    Lands b log (fun _ m => ∃ node, m = .made dest node) (copyLeaf b source dest entry log) := by
  unfold copyLeaf
  split
  · have quiet : marks (ask b (.readLink source) log).2 = marks log := by simp [Event.mark?]
    split
    · rename_i read
      rw [read] at quiet
      exact .failed quiet
    · rename_i target log' read
      rw [read] at quiet
      have linked := marks_ask b (.symlink dest target) log'
      have lands : Lands b log (fun _ m => ∃ node, m = .made dest node) (Outcome.plain _, _) :=
        (Outcome.lands linked (fun late => ⟨.symlink dest target, log', late⟩)
          (fun _ left => ⟨.symlink dest target, log', rfl, left⟩) fun _ => ⟨.symlink target, rfl⟩).from quiet
      exact lands.map _ fun _ _ such => such
  · have quiet (log : Log) : marks (ask b .bytesDone log).2 = marks log := by simp [Event.mark?]
    have made := marks_ask b (.copyFile source dest entry.size) (ask b .bytesDone log).2
    have lands : Lands b log (fun _ m => ∃ node, m = .made dest node) (Outcome.plain _, _) :=
      (Outcome.lands made (fun late => ⟨.copyFile source dest entry.size, _, late⟩)
        (fun _ left => ⟨.copyFile source dest entry.size, _, rfl, left⟩)
        fun content => ⟨.file content, rfl⟩).from (quiet log)
    dsimp only
    split
    · rename_i e answer
      have lands' : Lands b log _ (Except.error e, _) := answer ▸ lands
      cases lands' with
      | failed after => exact .failed after
      | late value m such late after => exact .late 0 m such late after
    · rename_i content answer
      have lands' : Lands b log _ (Except.ok content, _) := answer ▸ lands
      cases lands' with
      | done m such origin after => exact .done m such origin ((quiet _).trans after)

theorem destroyLeaf_lands (targets : SyncTargets) (path : VPath) (stepId : UInt64) (log : Log) :
    Lands b log (fun _ m => m.changed = some path) (destroyLeaf b targets path stepId log) := by
  unfold destroyLeaf
  split
  · exact (trashRetrying_lands b path stepId.toNat log).map _ fun _ _ such => such ▸ rfl
  · exact Outcome.lands (marks_ask b (.remove path false) log)
      (fun late => ⟨.remove path false, log, late⟩)
      (fun _ left => ⟨.remove path false, log, rfl, left⟩) (fun _ => rfl)

theorem record_ok {b : Behaviour} {entry : NewEntry} {log log' : Log} {seq : Int}
    (written : ask b (.record entry) log = (.ok seq, log')) :
    marks log' = marks log ++ [.row entry seq] ∧ b.Marks (marks log) (.row entry seq) := by
  have after := marks_ask b (.record entry) log
  rw [written] at after
  have answer : b (.record entry) log = .ok seq := congrArg Prod.fst written
  exact ⟨by simpa [answer, Event.mark?] using after, .record entry, log, rfl, by simp [answer, Event.mark?]⟩

theorem record_error {b : Behaviour} {entry : NewEntry} {log log' : Log} {e : Error}
    (refused : ask b (.record entry) log = (.error e, log')) : marks log' = marks log ∧ b.Refuses := by
  have after := marks_ask b (.record entry) log
  rw [refused] at after
  have answer : b (.record entry) log = .error e := congrArg Prod.fst refused
  exact ⟨by simpa [answer, Event.mark?] using after, entry, log, e, answer⟩

end Effects

/-! What a step leaves. -/

/-- The end is not one that carries where to look. -/
def Told (ended : Except StepError Applied) : Prop := ∀ what, ended ≠ .error (.unrecoverable what)

@[simp] theorem told_ok (applied : Applied) : Told (.ok applied) := fun _ same => nomatch same

@[simp] theorem told_failed (e : Error) : Told (.error (.failed e)) := fun _ same => nomatch same

@[simp] theorem told_fatal (e : Error) : Told (.error (.fatal e)) := fun _ same => nomatch same

@[simp] theorem told_fromProvider (e : Error) : Told (.error (.fromProvider e)) := by
  unfold StepError.fromProvider
  split <;> simp

def AtOrBelow (path p : VPath) : Prop := ∃ rel, p = under path rel

theorem atOrBelow_self (path : VPath) : AtOrBelow path path := ⟨⟨[]⟩, rfl⟩

/-- A row of the batch is about its path; that of a removal is about everything below it too. -/
def Names (recorder : BatchJournal) (entry : NewEntry) (p : VPath) : Prop :=
  entry.batchId = some recorder.batchId ∧ ∃ path, entry.path = pathBytes path ∧
    (p = path ∨ entry.op = BatchJournal.opRemoved ∧ AtOrBelow path p)

/-- An effect and its row, one after the other. -/
structure Behaviour.Pairs (b : Behaviour) (before : List Mark) (m row : Mark) : Prop where
  effect : b.Marks before m
  row : b.Marks (before ++ [m]) row

/-- Every cut of one step onto `path`. `slips` is what has to go wrong for an effect to
stay untold, `hard` that the step has no way back. -/
inductive Leaves (b : Behaviour) (recorder : BatchJournal) (slips hard : Prop) (path : VPath)
    (base : List Mark) : Except StepError Applied → List Mark → Prop where
  | nothing {ended} (told : Told ended) : Leaves b recorder slips hard path base ended []
  | made {ended} (told : Told ended) (node : Node) (seq : Int)
      (pairs : b.Pairs base (.made path node) (.row (recorder.created path .delete) seq)) :
      Leaves b recorder slips hard path base ended [.made path node, .row (recorder.created path .delete) seq]
  | madeUntold {ended} (told : Told ended) (slip : slips) (cause : b.Late ∨ b.Refuses) (node : Node) :
      Leaves b recorder slips hard path base ended [.made path node]
  | buried {ended} (told : Told ended) (there : Option VPath) (seq : Int)
      (pairs : b.Pairs base (.buried path there) (.row (recorder.trashed path there) seq)) :
      Leaves b recorder slips hard path base ended
        [.buried path there, .row (recorder.trashed path there) seq]
  | buriedUntold {ended} (told : Told ended) (slip : slips) (cause : b.Late) (there : Option VPath) :
      Leaves b recorder slips hard path base ended [.buried path there]
  | returned {ended} (told : Told ended) (cause : b.Refuses) (there : VPath) :
      Leaves b recorder slips hard path base ended [.buried path (some there), .putBack there path]
  | stranded (cause : b.Refuses) (there : Option VPath) (e : Error) (tail : List Mark)
      (late : tail = [] ∨ ∃ there, tail = [.putBack there path]) :
      Leaves b recorder slips hard path base (.error (.unrecoverable ⟨path, there, e⟩))
        (.buried path there :: tail)
  | replaced {ended} (told : Told ended) (there : Option VPath) (node : Node) (seq seq' : Int)
      (first : b.Pairs base (.buried path there) (.row (recorder.trashed path there) seq))
      (second : b.Pairs (base ++ [.buried path there, .row (recorder.trashed path there) seq])
        (.made path node) (.row (recorder.created path .delete) seq')) :
      Leaves b recorder slips hard path base ended
        [.buried path there, .row (recorder.trashed path there) seq, .made path node,
          .row (recorder.created path .delete) seq']
  | replacedLate {ended} (told : Told ended) (cause : b.Late) (there : Option VPath) (node : Node)
      (seq : Int) :
      Leaves b recorder slips hard path base ended
        [.buried path there, .row (recorder.trashed path there) seq, .made path node]
  | half (cause : b.Refuses) (there : Option VPath) (node : Node) (seq : Int) (e : Error) :
      Leaves b recorder slips hard path base (.error (.unrecoverable ⟨path, there, e⟩))
        [.buried path there, .row (recorder.trashed path there) seq, .made path node]
  | goneUntold {ended} (told : Told ended) (slip : slips) (cause : b.Late) (m : Mark)
      (gone : m.changed = some path) : Leaves b recorder slips hard path base ended [m]
  | destroyed {ended} (told : Told ended) (final : hard) (changes : List Mark) (entry : NewEntry)
      (seq : Int) (named : ∀ m ∈ changes, ∃ p, m.changed = some p ∧ Names recorder entry p) :
      Leaves b recorder slips hard path base ended (changes ++ [.row entry seq])
  | lost (final : hard) (cause : b.Refuses) (e : Error) (changes : List Mark)
      (inside : ∀ m ∈ changes, ∃ p, m.changed = some p ∧ AtOrBelow path p) :
      Leaves b recorder slips hard path base (.error (.unrecoverable ⟨path, none, e⟩)) changes

/-- What a step's run added to the log is one of its cuts. -/
def Left (b : Behaviour) (recorder : BatchJournal) (slips hard : Prop) (path : VPath) (log : Log)
    (ended : Except StepError Applied × Log) : Prop :=
  ∃ added, marks ended.2 = marks log ++ added ∧
    Leaves b recorder slips hard path (marks log) ended.1 added

/-- An effect whose failure comes late, or whose row does not arrive. -/
def Loses (b : Behaviour) (entry : NewEntry) (ended : Except Error α × Log) (log : Log) : Prop :=
  FailedLate ended log ∨ (∃ value, ended.1 = .ok value) ∧ ∃ e, b (.record entry) ended.2 = .error e

section Steps

variable {b : Behaviour} {recorder : BatchJournal} {slips hard : Prop} {path : VPath} {log : Log}

theorem failedLate {log' : Log} {m : Mark} {e : ε} (after : marks log' = marks log ++ [m]) :
    FailedLate ((.error e, log') : Except ε α × Log) log :=
  ⟨⟨e, rfl⟩, by simp [after]⟩

/-- An effect that makes something at `path`, and its row. -/
inductive Recorded (b : Behaviour) (entry : NewEntry) (made : Except Error α × Log) (path : VPath)
    (log : Log) : Except StepError Applied × Log → Prop where
  | none {e log'} (told : Told (.error e)) (after : marks log' = marks log) :
      Recorded b entry made path log (.error e, log')
  | lost {e log'} (told : Told (.error e)) (lost : Loses b entry made log) (cause : b.Late ∨ b.Refuses)
      (node : Node) (after : marks log' = marks log ++ [.made path node]) :
      Recorded b entry made path log (.error e, log')
  | both {applied log'} (node : Node) (seq : Int)
      (pairs : b.Pairs (marks log) (.made path node) (.row entry seq))
      (after : marks log' = marks log ++ [.made path node, .row entry seq]) :
      Recorded b entry made path log (.ok applied, log')

theorem recorded_cases {entry : NewEntry} {moved : α → UInt64} {made : Except Error α × Log}
    (lands : Lands b log (fun _ m => ∃ node, m = .made path node) made) :
    Recorded b entry made path log (recorded b entry moved made) := by
  cases lands with
  | failed after => exact .none (told_fromProvider _) after
  | late value m such late after =>
    obtain ⟨node, rfl⟩ := such
    exact .lost (told_fromProvider _) (.inl (failedLate after)) (.inl late) node after
  | done m such origin after =>
    obtain ⟨node, rfl⟩ := such
    unfold recorded
    dsimp only
    split
    · rename_i e log'' refused
      obtain ⟨same, refuses⟩ := record_error refused
      exact .lost (told_fatal e) (.inr ⟨⟨_, rfl⟩, e, congrArg Prod.fst refused⟩) (.inr refuses) node
        (same.trans after)
    · rename_i seq log'' written
      obtain ⟨after', row⟩ := record_ok written
      rw [after] at row
      rw [after, List.append_assoc] at after'
      exact .both node seq ⟨origin, row⟩ after'

theorem Recorded.left {made : Except Error α × Log} {ended : Except StepError Applied × Log}
    (cases : Recorded b (recorder.created path .delete) made path log ended)
    (slip : Loses b (recorder.created path .delete) made log → slips) :
    Left b recorder slips hard path log ended := by
  cases cases with
  | none told after => exact ⟨[], by simpa using after, .nothing told⟩
  | lost told lost cause node after => exact ⟨_, after, .madeUntold told (slip lost) cause node⟩
  | both node seq pairs after => exact ⟨_, after, .made (told_ok _) node seq pairs⟩

theorem makeDir_left
    (slip : Loses b (recorder.created path .delete) (mkdirRetrying b path log) log → slips) :
    Left b recorder slips hard path log (makeDir b recorder path log) :=
  (recorded_cases (mkdirRetrying_lands b path log)).left slip

theorem place_left {source : VPath} {entry : Entry}
    (slip : Loses b (recorder.created path .delete) (copyLeaf b source path entry log) log → slips) :
    Left b recorder slips hard path log (place b recorder source entry path .delete log) :=
  (recorded_cases (copyLeaf_lands b source path entry log)).left slip

/-! A burial with its row and its compensation. -/

theorem unbury_cases (b : Behaviour) (path : VPath) (there : Option VPath) (log : Log) :
    let ended := unbury b path there log
    (∃ place, there = some place ∧ ended.1 = .ok () ∧ marks ended.2 = marks log ++ [.putBack place path]) ∨
    (∃ e, ended.1 = .error e) ∧ ∃ tail, marks ended.2 = marks log ++ tail ∧
      (tail = [] ∨ ∃ place, tail = [.putBack place path]) := by
  cases there with
  | none => exact .inr ⟨⟨_, rfl⟩, [], by simp [unbury], .inl rfl⟩
  | some place =>
    cases outcome : b (.restoreFrom place path) log with
    | done value =>
      left
      refine ⟨place, rfl, ?_, ?_⟩
      · simp [unbury, ask, outcome, Outcome.plain, Outcome.answer, Except.mapError]
      · simp [unbury, outcome, Event.mark?, Outcome.effect?]
    | failed e doubt =>
      right
      refine ⟨⟨e, ?_⟩, [], ?_, .inl rfl⟩
      · simp [unbury, ask, outcome, Outcome.plain, Outcome.answer, Except.mapError]
      · simp [unbury, outcome, Event.mark?, Outcome.effect?]
    | failedAfter value e =>
      right
      refine ⟨⟨e, ?_⟩, _, ?_, .inr ⟨place, rfl⟩⟩
      · simp [unbury, ask, outcome, Outcome.plain, Outcome.answer, Except.mapError]
      · simp [unbury, outcome, Event.mark?, Outcome.effect?]

/-- What a burial can come to: buried with its row, or one of the cuts. -/
inductive Buried (b : Behaviour) (recorder : BatchJournal) (slips hard : Prop) (path : VPath)
    (log : Log) : Except StepError (Option VPath) × Log → Prop where
  | done {there log'} (seq : Int)
      (pairs : b.Pairs (marks log) (.buried path there) (.row (recorder.trashed path there) seq))
      (after : marks log' = marks log ++ [.buried path there, .row (recorder.trashed path there) seq]) :
      Buried b recorder slips hard path log (.ok there, log')
  | cut {e log'} (left : Left b recorder slips hard path log (.error e, log')) :
      Buried b recorder slips hard path log (.error e, log')

theorem bury_cases {stepId : UInt64}
    (slip : FailedLate (trashRetrying b path stepId.toNat log) log → slips) :
    Buried b recorder slips hard path log (bury b recorder path stepId log) := by
  have lands := trashRetrying_lands b path stepId.toNat log
  unfold bury
  split
  · rename_i e log' answer
    rw [answer] at lands slip
    cases lands with
    | failed after => exact .cut ⟨[], by simpa using after, .nothing (told_fromProvider e)⟩
    | late there m such late after =>
      subst such
      exact .cut ⟨_, after, .buriedUntold (told_fromProvider e) (slip (failedLate after)) late there⟩
  · rename_i there log' answer
    rw [answer] at lands
    cases lands with
    | done m such origin after =>
      subst such
      split
      · rename_i seq log'' written
        obtain ⟨after', row⟩ := record_ok written
        rw [after] at row
        rw [after, List.append_assoc] at after'
        exact .done seq ⟨origin, row⟩ after'
      · rename_i e log'' refused
        obtain ⟨same, refuses⟩ := record_error refused
        rcases unbury_cases b path there log'' with
          ⟨place, named, returned, put⟩ | ⟨⟨e', kept⟩, tail, put, late⟩
        all_goals rw [same, after, List.append_assoc] at put
        · subst named
          split
          · rename_i back
            rw [back] at put
            exact .cut ⟨_, put, .returned (told_fatal e) refuses place⟩
          · rename_i back
            rw [back] at returned
            exact absurd returned nofun
        · split
          · rename_i back
            rw [back] at kept
            exact absurd kept nofun
          · rename_i back
            rw [back] at put
            exact .cut ⟨_, put, .stranded refuses there e tail late⟩

theorem names_removed (recorder : BatchJournal) {path p : VPath} (inside : AtOrBelow path p) :
    Names recorder (recorder.removed path) p := ⟨rfl, path, rfl, .inr ⟨rfl, inside⟩⟩

theorem names_created (recorder : BatchJournal) (path : VPath) (reversal : Reversal) :
    Names recorder (recorder.created path reversal) path := ⟨rfl, path, rfl, .inl rfl⟩

theorem replace_left {source : VPath} {entry : Entry} {stepId : UInt64}
    (slip : FailedLate (trashRetrying b path stepId.toNat log) log → slips) :
    Left b recorder slips hard path log (replace b recorder path source entry stepId log) := by
  have burial := @bury_cases _ recorder _ hard _ _ _ slip
  unfold replace
  split
  · rename_i e log' answer
    rw [answer] at burial
    cases burial with
    | cut left => exact left
  · rename_i there log' answer
    rw [answer] at burial
    cases burial with
    | done seq pairs after =>
      have lands := copyLeaf_lands b source path entry log'
      split
      · rename_i e log'' copied
        rw [copied] at lands
        cases lands with
        | failed same => exact ⟨_, same.trans after, .buried (told_fromProvider e) there seq pairs⟩
        | late value m such late made =>
          obtain ⟨node, rfl⟩ := such
          rw [after, List.append_assoc] at made
          exact ⟨_, made, .replacedLate (told_fromProvider e) late there node seq⟩
      · rename_i bytes log'' copied
        rw [copied] at lands
        cases lands with
        | done m such origin made =>
          obtain ⟨node, rfl⟩ := such
          rw [after] at origin
          rw [after, List.append_assoc] at made
          split
          · rename_i e log₃ refused
            obtain ⟨same, refuses⟩ := record_error refused
            exact ⟨_, same.trans made, .half refuses there node seq e⟩
          · rename_i seq' log₃ written
            obtain ⟨final, row⟩ := record_ok written
            rw [made] at row
            rw [made, List.append_assoc] at final
            exact ⟨_, final, .replaced (told_ok _) there node seq seq' pairs ⟨origin, by simpa using row⟩⟩

/-! A destruction for good. -/

/-- All changes of a list are at or below `path`. -/
def Inside (path : VPath) (changes : List Mark) : Prop :=
  ∀ m ∈ changes, ∃ p, m.changed = some p ∧ AtOrBelow path p

/-- A removal of part of the tree at `path`; `count` of zero means nothing was touched. -/
def Removes (path : VPath) (log : Log) (before : Nat) (ended : (Nat × Except Error Unit) × Log) : Prop :=
  ∃ changes, marks ended.2 = marks log ++ changes ∧ Inside path changes ∧ before ≤ ended.1.1 ∧
    (ended.1.1 = before → changes = [])

theorem removes_nothing {before : Nat} {result : Except Error Unit} {log' : Log}
    (same : marks log' = marks log) : Removes path log before ((before, result), log') :=
  ⟨[], by simpa using same, nofun, Nat.le_refl _, fun _ => rfl⟩

theorem Removes.more {before count : Nat} {changes : List Mark} {log' : Log}
    {ended : (Nat × Except Error Unit) × Log} (rest : Removes path log' count ended)
    (after : marks log' = marks log ++ changes) (inside : Inside path changes) (more : before < count) :
    Removes path log before ended := by
  obtain ⟨changes', after', inside', grown, -⟩ := rest
  refine ⟨changes ++ changes', by rw [after', after, List.append_assoc], ?_, by omega, by omega⟩
  intro m member
  exact (List.mem_append.mp member).elim (inside m) (inside' m)

theorem inside_removed {p : VPath} {isDir : Bool} (inside : AtOrBelow path p) :
    Inside path (Event.mark? ⟨.remove p isDir, b (.remove p isDir) log⟩).toList := by
  intro m member
  obtain ⟨_, -, rfl⟩ : ∃ u, (b (.remove p isDir) log).effect? = some u ∧ Mark.removed p = m := by
    simpa [Event.mark?] using member
  exact ⟨p, rfl, inside⟩

theorem remove_counted {p : VPath} {isDir : Bool} {before : Nat} {result : Except Error Unit}
    (inside : AtOrBelow path p) :
    Removes path log before ((before + 1, result), (ask b (.remove p isDir) log).2) :=
  ⟨_, marks_ask b (.remove p isDir) log, inside_removed inside, Nat.le_succ _, by simp⟩

theorem remove_refused {p : VPath} {isDir : Bool} {before : Nat} {result : Except Error Unit} {e : Error}
    (refused : (b (.remove p isDir) log).answer = .error (e, .notApplied)) :
    Removes path log before ((before, result), (ask b (.remove p isDir) log).2) := by
  refine removes_nothing ?_
  cases outcome : b (.remove p isDir) log with
  | done value => simp [outcome, Outcome.answer] at refused
  | failed e' doubt => simp [outcome, Event.mark?, Outcome.effect?]
  | failedAfter value e' => simp [outcome, Outcome.answer] at refused

theorem Removes.from {log₀ : Log} {before : Nat} {ended : (Nat × Except Error Unit) × Log}
    (removes : Removes path log before ended) (same : marks log = marks log₀) :
    Removes path log₀ before ended := by
  obtain ⟨changes, after, rest⟩ := removes
  exact ⟨changes, same ▸ after, rest⟩

theorem removeNodes_removes (nodes : List (List Segment × Bool)) (before : Nat) (log : Log) :
    Removes path log before (removeNodes b path before nodes log) := by
  induction nodes generalizing before log with
  | nil => exact removes_nothing rfl
  | cons node nodes ih =>
    obtain ⟨rel, isDir⟩ := node
    have inside : AtOrBelow path (under path ⟨rel⟩) := ⟨⟨rel⟩, rfl⟩
    have quiet := marks_isCancelled b log
    unfold removeNodes
    dsimp only
    split
    · exact removes_nothing quiet
    · refine Removes.from ?_ quiet
      split
      · exact (ih _ _).more (marks_ask b _ _) (inside_removed inside) (Nat.lt_succ_self _)
      · exact remove_counted inside
      · rename_i answer
        exact remove_refused answer

theorem removeRoot_removes (isDir : Bool) (before : Nat) (log : Log) :
    Removes path log before (removeRoot b path isDir before log) := by
  unfold removeRoot
  dsimp only
  split
  · exact remove_counted (atOrBelow_self path)
  · exact remove_counted (atOrBelow_self path)
  · rename_i answer
    exact remove_refused answer

theorem removeTree_removes (log : Log) : Removes path log 0 (removeTree b path log) := by
  have quiet := marks_stat b .dest path log
  have walked (log : Log) : marks (ask b (.walk path) log).2 = marks log := by simp [Event.mark?]
  unfold removeTree
  split
  · rename_i log' answer
    rw [answer] at quiet
    exact removes_nothing quiet
  · rename_i log' answer
    rw [answer] at quiet
    exact removes_nothing quiet
  · rename_i entry log' answer
    rw [answer] at quiet
    refine Removes.from ?_ quiet
    split
    · split
      · rename_i e log'' listed
        have same := walked log'
        rw [listed] at same
        exact removes_nothing same
      · rename_i nodes log'' listed
        have same := walked log'
        rw [listed] at same
        refine Removes.from ?_ same
        have removes := @removeNodes_removes b path nodes.reverse 0 log''
        split
        · rename_i removed
          exact removed ▸ removes
        · rename_i count log₃ removed
          rw [removed] at removes
          obtain ⟨changes, after, inside, grown, untouched⟩ := removes
          have root := @removeRoot_removes b path true count log₃
          by_cases none : count = 0
          · subst none
            rw [untouched rfl, List.append_nil] at after
            exact root.from after
          · exact root.more after inside (by omega)
    · exact removeRoot_removes false 0 log'

theorem destroyTree_removes (targets : SyncTargets) (stepId : UInt64) (log : Log) :
    Removes path log 0 (destroyTree b targets path stepId log) := by
  unfold destroyTree
  split
  · have after := marks_ask b (.trash path stepId.toNat) log
    have inside : Inside path (Event.mark? ⟨.trash path stepId.toNat,
        b (.trash path stepId.toNat) log⟩).toList := by
      intro m member
      obtain ⟨there, -, rfl⟩ : ∃ there, (b (.trash path stepId.toNat) log).effect? = some there ∧
          Mark.buried path there = m := by
        simpa [Event.mark?] using member
      exact ⟨path, rfl, atOrBelow_self path⟩
    dsimp only
    split
    · exact ⟨_, after, inside, Nat.zero_le _, by simp⟩
    · exact ⟨_, after, inside, Nat.zero_le _, by simp⟩
    · rename_i e answer
      refine removes_nothing ?_
      rw [after]
      simp only [ask] at answer
      cases outcome : b (.trash path stepId.toNat) log with
      | done value => simp [outcome, Outcome.answer] at answer
      | failed e' doubt => simp [Event.mark?, Outcome.effect?]
      | failedAfter value e' => simp [outcome, Outcome.answer] at answer
  · exact removeTree_removes log

theorem Removes.left {ended : Except StepError Applied} {count : Nat}
    {removed : Except Error Unit} {log' : Log} (removes : Removes path log 0 ((count, removed), log'))
    (final : hard) (told : Told ended) : Left b recorder slips hard path log
      (if 0 < count then
        match ask b (.record (recorder.removed path)) log' with
        | (.error e, log) => (.error (.unrecoverable ⟨path, none, e⟩), log)
        | (.ok _, log) => (ended, log)
      else (ended, log')) := by
  obtain ⟨changes, after, inside, -, untouched⟩ := removes
  split
  · split
    · rename_i e log'' refused
      obtain ⟨same, refuses⟩ := record_error refused
      exact ⟨changes, same.trans after, .lost final refuses e changes inside⟩
    · rename_i seq log'' written
      have after' := (record_ok written).1
      rw [after, List.append_assoc] at after'
      refine ⟨_, after', .destroyed told final changes _ seq fun m member => ?_⟩
      obtain ⟨p, changed, below⟩ := inside m member
      exact ⟨p, changed, names_removed recorder below⟩
  · have none : count = 0 := by omega
    rw [untouched none, List.append_nil] at after
    exact ⟨[], by simpa using after, .nothing told⟩

theorem wipe_left {targets : SyncTargets} {stepId : UInt64} (final : hard) :
    Left b recorder slips hard path log (wipe b targets recorder path stepId log) := by
  have removes := @destroyTree_removes b path targets stepId log
  unfold wipe
  split
  rename_i count removed log' destroyed
  rw [destroyed] at removes
  refine removes.left final ?_
  cases removed <;> simp [wiped]

theorem supplant_left {targets : SyncTargets} {source : VPath} {entry : Entry} {stepId : UInt64}
    (final : hard) (slip : FailedLate (destroyLeaf b targets path stepId log) log → slips) :
    Left b recorder slips hard path log
      (supplant b targets recorder path source entry stepId log) := by
  have lands := destroyLeaf_lands b targets path stepId log
  unfold supplant
  split
  · rename_i e log' destroyed
    rw [destroyed] at lands slip
    cases lands with
    | failed after => exact ⟨[], by simpa using after, .nothing (told_fromProvider e)⟩
    | late value m such late after =>
      exact ⟨_, after, .goneUntold (told_fromProvider e) (slip (failedLate after)) late m such⟩
  · rename_i log' destroyed
    rw [destroyed] at lands
    cases lands with
    | done m such origin after =>
      have cases : Recorded b (recorder.created path .irreversible) _ path log'
        (place b recorder source entry path .irreversible log') :=
        recorded_cases (copyLeaf_lands b source path entry log')
      have gone : Inside path [m] := by simpa [Inside, such] using atOrBelow_self path
      split
      · rename_i applied log'' placed
        rw [placed] at cases
        cases cases with
        | both node seq pairs made =>
          rw [after, List.append_assoc] at made
          refine ⟨_, made, .destroyed (told_ok _) final [m, .made path node] _ seq fun m' member => ?_⟩
          have changed : m'.changed = some path := by
            rcases List.mem_pair.mp member with rfl | rfl
            · exact such
            · rfl
          exact ⟨path, changed, names_created recorder path .irreversible⟩
      · rename_i placed log'' failure
        rw [failure] at cases
        obtain ⟨told, changes, made, inside⟩ : Told (.error placed) ∧ ∃ changes,
            marks log'' = marks log' ++ changes ∧ Inside path changes := by
          cases cases with
          | none told same => exact ⟨told, [], by simpa using same, nofun⟩
          | lost told lost cause node made =>
            refine ⟨told, _, made, ?_⟩
            simpa [Inside, Mark.changed] using atOrBelow_self path
        have removes : Removes path log 0 ((1, Except.ok ()), log'') := by
          refine ⟨[m] ++ changes, by rw [made, after, List.append_assoc], ?_, by omega, by simp⟩
          intro m' member
          exact (List.mem_append.mp member).elim (gone m') (inside m')
        exact removes.left final told

end Steps

end Norte.Sync
