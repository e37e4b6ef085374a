import Norte.SyncCuts

/-! What an application owes: every destination path it changed is named by a row of its
batch or was put back, or its error says where to look; and the report counts every step
it took once. -/
namespace Norte.Sync

open Chain (Reversal NewEntry pathBytes)

section Step

variable (b : Behaviour) (targets : SyncTargets) (recorder : BatchJournal)

/-- Where a step has passed its checks and begins to act: the source it read, and the log. -/
def starts (record : SpoolStep) (log : Log) : Option (Option (VPath × Entry) × Log) :=
  let path := destPath targets record
  if record.step.kind = .skip ∨ path = targets.destRoot then none
  else
    match gateStep b targets record.step.kind path log with
    | (.error _, _) => none
    | (.ok (), log) =>
      match record.step.kind with
      | .createDir =>
        match stat b .dest path log with
        | (.ok none, log) => some (none, log)
        | _ => none
      | .copy =>
        match sourceLeaf b targets record log with
        | (.ok leaf, log) => some (some leaf, log)
        | _ => none
      | .overwrite =>
        match revalidate b path record.dest log with
        | (.ok (), log) =>
          match sourceLeaf b targets record log with
          | (.ok leaf, log) => some (some leaf, log)
          | _ => none
        | _ => none
      | .deleteTree =>
        match revalidate b path record.dest log with
        | (.ok (), log) => some (none, log)
        | _ => none
      | .skip | .unknown => none

/-- What the step does to its path goes wrong without a word: the first effect of a step
with a row of its own fails late or loses its row, a burial or the removal of an overwrite's
old file fails late. -/
def Untold (record : SpoolStep) (path : VPath) (leaf : Option (VPath × Entry)) (log : Log) : Prop :=
  match record.step.kind, record.step.reversal, leaf with
  | .createDir, _, _ => Loses b (recorder.created path .delete) (mkdirRetrying b path log) log
  | .copy, _, some (source, entry) =>
    Loses b (recorder.created path .delete) (copyLeaf b source path entry log) log
  | .overwrite, some .restoreTrash, _ =>
    FailedLate (trashRetrying b path record.step.id.toNat log) log
  | .overwrite, some .irreversible, _ =>
    FailedLate (destroyLeaf b targets path record.step.id log) log
  | .deleteTree, some .restoreTrash, _ =>
    FailedLate (trashRetrying b path record.step.id.toNat log) log
  | _, _, _ => False

def Slips (record : SpoolStep) (log : Log) : Prop :=
  ∃ leaf log', starts b targets record log = some (leaf, log') ∧
    Untold b targets recorder record (destPath targets record) leaf log'

variable {b : Behaviour} {targets : SyncTargets} {recorder : BatchJournal}

theorem gateStep_told {kind : SyncStepKind} {path : VPath} {log log' : Log} {e : StepError}
    (closed : gateStep b targets kind path log = (.error e, log')) : Told (.error e) := by
  unfold gateStep at closed
  generalize gateOps targets kind = ops at closed
  induction ops generalizing log with
  | nil => exact absurd (congrArg Prod.fst closed) nofun
  | cons op ops ih =>
    unfold gateAll at closed
    split at closed
    · obtain ⟨same, -⟩ := Prod.mk.inj closed
      cases same
      simp
    · exact ih closed

theorem sourceLeaf_told {record : SpoolStep} {log log' : Log} {e : StepError}
    (missing : sourceLeaf b targets record log = (.error e, log')) : Told (.error e) := by
  unfold sourceLeaf at missing
  dsimp only at missing
  repeat' split at missing
  all_goals
    obtain ⟨same, -⟩ := Prod.mk.inj missing
    cases same
  all_goals simp

theorem left_nothing {slips hard : Prop} {path : VPath} {log log' : Log} {ended : Except StepError Applied}
    (same : marks log' = marks log) (told : Told ended) :
    Left b recorder slips hard path log (ended, log') := ⟨[], by simpa using same, .nothing told⟩

theorem Left.from {slips hard : Prop} {path : VPath} {log log₀ : Log}
    {ended : Except StepError Applied × Log} (left : Left b recorder slips hard path log ended)
    (same : marks log = marks log₀) : Left b recorder slips hard path log₀ ended := by
  obtain ⟨added, after, leaves⟩ := left
  exact ⟨added, same ▸ after, same ▸ leaves⟩

/-- Whatever the providers and the journal do to a step, it ends in one of its cuts. -/
theorem execute_left (record : SpoolStep) (log : Log) :
    Left b recorder (Slips b targets recorder record log) (record.step.reversal = some .irreversible)
      (destPath targets record) log (execute b targets recorder record log) := by
  unfold execute
  dsimp only
  split
  · rename_i skipped
    simp only [act, skipped]
    exact left_nothing rfl (told_ok _)
  rename_i acting
  split
  · exact left_nothing rfl (told_failed _)
  rename_i below
  have gate := marks_gateStep b targets record.step.kind (destPath targets record) log
  split
  · rename_i e log' closed
    rw [closed] at gate
    exact left_nothing gate (gateStep_told closed)
  rename_i log' opened
  rw [opened] at gate
  refine Left.from ?_ gate
  unfold act
  cases kind : record.step.kind with
  | skip => exact absurd kind acting
  | unknown => exact left_nothing rfl (told_failed _)
  | createDir =>
    have looked := marks_stat b .dest (destPath targets record) log'
    dsimp only
    unfold createDir
    split
    · rename_i there
      rw [there] at looked
      exact left_nothing looked (told_fromProvider _)
    · rename_i there
      rw [there] at looked
      exact left_nothing looked (told_failed _)
    · rename_i log'' free
      rw [free] at looked
      refine Left.from (makeDir_left fun loses => ⟨none, log'', ?_, ?_⟩) looked
      · simp [starts, kind, below, kind ▸ opened, free]
      · simpa [Untold, kind] using loses
  | copy =>
    have looked := marks_sourceLeaf b targets record log'
    dsimp only
    split
    · rename_i missing
      rw [missing] at looked
      exact left_nothing looked (sourceLeaf_told missing)
    · rename_i source entry log'' found
      rw [found] at looked
      refine Left.from (place_left fun loses => ⟨some (source, entry), log'', ?_, ?_⟩) looked
      · simp [starts, kind, below, kind ▸ opened, found]
      · simpa [Untold, kind] using loses
  | overwrite =>
    have looked := marks_revalidate b (destPath targets record) record.dest log'
    dsimp only
    unfold overwrite
    split
    · rename_i changed
      rw [changed] at looked
      exact left_nothing looked (told_fromProvider _)
    rename_i log'' unchanged
    rw [unchanged] at looked
    refine Left.from ?_ looked
    have read := marks_sourceLeaf b targets record log''
    split
    · rename_i missing
      rw [missing] at read
      exact left_nothing read (sourceLeaf_told missing)
    rename_i source entry log₃ found
    rw [found] at read
    refine Left.from ?_ read
    have start : starts b targets record log = some (some (source, entry), log₃) := by
      simp [starts, kind, below, kind ▸ opened, unchanged, found]
    split
    · rename_i reversal
      exact replace_left fun late => ⟨_, _, start, by simpa [Untold, kind, reversal] using late⟩
    · rename_i reversal
      exact supplant_left reversal fun late =>
        ⟨_, _, start, by simpa [Untold, kind, reversal] using late⟩
    · exact left_nothing rfl (told_failed _)
  | deleteTree =>
    have looked := marks_revalidate b (destPath targets record) record.dest log'
    dsimp only
    unfold deleteTree
    split
    · rename_i changed
      rw [changed] at looked
      exact left_nothing looked (told_fromProvider _)
    rename_i log'' unchanged
    rw [unchanged] at looked
    refine Left.from ?_ looked
    have start : starts b targets record log = some (none, log'') := by
      simp [starts, kind, below, kind ▸ opened, unchanged]
    split
    · rename_i reversal
      have burial := @bury_cases b recorder (Slips b targets recorder record log)
        (record.step.reversal = some .irreversible) (destPath targets record) log'' record.step.id
        fun late => ⟨_, _, start, by simpa [Untold, kind, reversal] using late⟩
      split
      · rename_i buried
        rw [buried] at burial
        cases burial with
        | cut left => exact left
      · rename_i buried
        rw [buried] at burial
        cases burial with
        | done seq pairs after => exact ⟨_, after, .buried (told_ok _) _ seq pairs⟩
    · rename_i reversal
      exact wipe_left reversal
    · exact left_nothing rfl (told_failed _)

end Step

/-! What the marks owe. -/

/-- Every changed path that is not excused is named by a row of the batch or put back. -/
def Accounted (recorder : BatchJournal) (excused : VPath → Prop) (ms : List Mark) : Prop :=
  ∀ before m after, ms = before ++ m :: after → ∀ p, m.changed = some p →
    excused p ∨ (∃ entry seq, .row entry seq ∈ ms ∧ Names recorder entry p) ∨
      ∃ there, m = .buried p (some there) ∧ .putBack there p ∈ after

/-- What an application's end owes: nothing is left untold, or the error carries where to look. -/
def Owes (recorder : BatchJournal) (ms : List Mark) : Except ApplyError Unit → Prop
  | .ok () | .error (.stopped _) => Accounted recorder (fun _ => False) ms
  | .error (.unrecorded what) => Accounted recorder (AtOrBelow what.buried) ms

section Accounts

variable {recorder : BatchJournal} {excused : VPath → Prop} {xs ys : List Mark}

theorem Accounted.weaken {excused' : VPath → Prop} (accounted : Accounted recorder excused xs)
    (more : ∀ p, excused p → excused' p) : Accounted recorder excused' xs :=
  fun before m after split p changed => (accounted before m after split p changed).imp_left (more p)

theorem Accounted.append (left : Accounted recorder excused xs) (right : Accounted recorder excused ys) :
    Accounted recorder excused (xs ++ ys) := by
  intro before m after split p changed
  rcases List.append_eq_append_iff.mp split with ⟨rest, rfl, rfl⟩ | ⟨rest, rfl, tail⟩
  · rcases right rest m after rfl p changed with excuse | ⟨entry, seq, member, names⟩ | ⟨there, same, back⟩
    · exact .inl excuse
    · exact .inr (.inl ⟨entry, seq, List.mem_append_right _ member, names⟩)
    · exact .inr (.inr ⟨there, same, back⟩)
  · cases rest with
    | nil =>
      rcases right [] m after tail.symm p changed with excuse | ⟨entry, seq, member, names⟩ | put
      · exact .inl excuse
      · exact .inr (.inl ⟨entry, seq, List.mem_append_right _ member, names⟩)
      · exact .inr (.inr put)
    | cons m' rest =>
      obtain ⟨rfl, rfl⟩ := List.cons.inj tail
      rcases left before m rest rfl p changed with excuse | ⟨entry, seq, member, names⟩ | ⟨there, same, back⟩
      · exact .inl excuse
      · exact .inr (.inl ⟨entry, seq, List.mem_append_left _ member, names⟩)
      · exact .inr (.inr ⟨there, same, List.mem_append_left _ back⟩)

/-- Where every change has a row, the marks are accounted for. -/
theorem accounted_of_rows (named : ∀ m ∈ xs, ∀ p, m.changed = some p →
    excused p ∨ ∃ entry seq, .row entry seq ∈ xs ∧ Names recorder entry p) :
    Accounted recorder excused xs := by
  intro before m after split p changed
  refine (named m ?_ p changed).imp_right .inl
  simp [split]

theorem accounted_nil : Accounted recorder excused [] := accounted_of_rows nofun

end Accounts

theorem names_trashed (recorder : BatchJournal) (path : VPath) (there : Option VPath) :
    Names recorder (recorder.trashed path there) path := ⟨rfl, path, rfl, .inl rfl⟩

/-- One row is enough where all changes are at its path. -/
theorem accounted_named {recorder : BatchJournal} {excused : VPath → Prop} {path : VPath} {ms : List Mark}
    {entry : NewEntry} (seq : Int) (member : .row entry seq ∈ ms) (names : Names recorder entry path)
    (only : ∀ m ∈ ms, ∀ p, m.changed = some p → p = path) : Accounted recorder excused ms :=
  accounted_of_rows fun m inside p changed => .inr ⟨entry, seq, member, only m inside p changed ▸ names⟩

theorem accounted_excused {recorder : BatchJournal} {path : VPath} {ms : List Mark}
    (inside : ∀ m ∈ ms, ∀ p, m.changed = some p → AtOrBelow path p) :
    Accounted recorder (AtOrBelow path) ms :=
  accounted_of_rows fun m member p changed => .inl (inside m member p changed)

/-- A burial that was put back right away is as good as none. -/
theorem accounted_returned {recorder : BatchJournal} {excused : VPath → Prop} (path there : VPath) :
    Accounted recorder excused [.buried path (some there), .putBack there path] := by
  intro before m after split p changed
  rcases before with _ | ⟨x, _ | ⟨y, rest⟩⟩
  · obtain ⟨rfl, rfl⟩ := List.cons.inj split
    obtain rfl : path = p := Option.some.inj changed
    exact .inr (.inr ⟨there, rfl, List.mem_singleton_self _⟩)
  · obtain ⟨-, tail⟩ := List.cons.inj split
    obtain ⟨rfl, -⟩ := List.cons.inj tail
    exact nomatch changed
  · simp at split

/-- A step that does not slip leaves nothing untold, unless it says so. -/
theorem Leaves.accounted {b : Behaviour} {recorder : BatchJournal} {slips hard : Prop} {path : VPath}
    {base : List Mark} {ended : Except StepError Applied} {added : List Mark}
    (leaves : Leaves b recorder slips hard path base ended added) (clean : ¬slips) :
    (Told ended ∧ Accounted recorder (fun _ => False) added) ∨
    ∃ what, ended = .error (.unrecoverable what) ∧ what.buried = path ∧
      Accounted recorder (AtOrBelow path) added := by
  have below := atOrBelow_self path
  cases leaves with
  | nothing told => exact .inl ⟨told, accounted_nil⟩
  | made told node seq =>
    refine .inl ⟨told, accounted_named seq (by simp) (names_created recorder path .delete) ?_⟩
    simp [Mark.changed]
  | madeUntold told slip => exact absurd slip clean
  | buried told there seq =>
    refine .inl ⟨told, accounted_named seq (by simp) (names_trashed recorder path there) ?_⟩
    simp [Mark.changed]
  | buriedUntold told slip => exact absurd slip clean
  | returned told cause there => exact .inl ⟨told, accounted_returned path there⟩
  | stranded cause there e tail late =>
    refine .inr ⟨_, rfl, rfl, accounted_excused ?_⟩
    rcases late with rfl | ⟨place, rfl⟩ <;> simpa [Mark.changed] using below
  | replaced told there node seq seq' =>
    refine .inl ⟨told, accounted_named seq (by simp) (names_trashed recorder path there) ?_⟩
    simp [Mark.changed]
  | replacedLate told cause there node seq =>
    refine .inl ⟨told, accounted_named seq (by simp) (names_trashed recorder path there) ?_⟩
    simp [Mark.changed]
  | half cause there node seq e =>
    refine .inr ⟨_, rfl, rfl, accounted_excused ?_⟩
    simpa [Mark.changed] using below
  | goneUntold told slip => exact absurd slip clean
  | destroyed told final changes entry seq named =>
    refine .inl ⟨told, accounted_of_rows fun m member p changed => .inr ⟨entry, seq, by simp, ?_⟩⟩
    rcases List.mem_append.mp member with inside | row
    · obtain ⟨q, same, names⟩ := named m inside
      obtain rfl := Option.some.inj (same.symm.trans changed)
      exact names
    · obtain rfl := List.mem_singleton.mp row
      cases changed
  | lost final cause e changes inside =>
    refine .inr ⟨_, rfl, rfl, accounted_excused fun m member p changed => ?_⟩
    obtain ⟨q, same, inner⟩ := inside m member
    obtain rfl := Option.some.inj (same.symm.trans changed)
    exact inner

/-! The run. -/

section Run

variable (b : Behaviour) (targets : SyncTargets) (recorder : BatchJournal)

/-- A run from a report and a log on: the steps it executed, each with the log it began
with, and how it ended. -/
inductive Ran : List (Except Error SpoolStep) → SyncReport → Log → List (SpoolStep × Log) → Ended →
    Prop where
  | stops {steps report log log' result rest} (passed : List (Except Error SpoolStep))
      (split : steps = passed ++ rest) (quiet : marks log' = marks log)
      (ends : (result = .ok () ∧ passed = [] ∧ rest = []) ∨
        (∃ e, result = .error (.stopped e)) ∧ passed.length ≤ 1) :
      Ran steps report log [] ⟨result, report, rest, log'⟩
  | breaks {record steps report report' log log₁ log₂ ended e} (quiet : marks log₁ = marks log)
      (executed : execute b targets recorder record log₁ = (ended, log₂))
      (settled : settle record.step report ended = (.error e, report')) :
      Ran (.ok record :: steps) report log [(record, log₁)] ⟨.error e, report', steps, log₂⟩
  | goes {record steps report report' log log₁ log₂ ended trace last} (quiet : marks log₁ = marks log)
      (executed : execute b targets recorder record log₁ = (ended, log₂))
      (settled : settle record.step report ended = (.ok (), report'))
      (rest : Ran steps report' log₂ trace last) :
      Ran (.ok record :: steps) report log ((record, log₁) :: trace) last

/-- The run executes `record` from the log `began`. -/
def Executes (steps : List (Except Error SpoolStep)) (log : Log) (record : SpoolStep) (began : Log) :
    Prop :=
  ∃ trace, Ran b targets recorder steps .new log trace (run b targets recorder steps log) ∧
    (record, began) ∈ trace

variable {b targets recorder}

theorem stillStanding_stops {log log' : Log} {result : Except ApplyError Unit}
    (looked : stillStanding b log = (result, log')) :
    marks log' = marks log ∧ (result = .ok () ∨ ∃ e, result = .error (.stopped e)) := by
  have quiet : marks (ask b .stillStanding log).2 = marks log := by simp [Event.mark?]
  unfold stillStanding at looked
  dsimp only at looked
  obtain ⟨rfl, rfl⟩ := Prod.mk.inj looked
  refine ⟨quiet, ?_⟩
  cases (ask b .stillStanding log).1 with
  | ok u => exact .inl rfl
  | error e => exact .inr ⟨e, rfl⟩

theorem standing_stops {taken : Nat} {log log' : Log} {result : Except ApplyError Unit}
    (looked : standing b taken log = (result, log')) :
    marks log' = marks log ∧ (result = .ok () ∨ ∃ e, result = .error (.stopped e)) := by
  have due : marks (checkIsDue b taken log).2 = marks log := by
    have asked : marks (ask b .checkDue log).2 = marks log := by simp [Event.mark?]
    unfold checkIsDue
    repeat' split
    all_goals simp_all
  unfold standing at looked
  split at looked
  · rename_i log₁ late
    rw [late] at due
    obtain ⟨rfl, rfl⟩ := Prod.mk.inj looked
    exact ⟨due, .inl rfl⟩
  · rename_i log₁ now
    rw [now] at due
    obtain ⟨quiet, ends⟩ := stillStanding_stops looked
    exact ⟨quiet.trans due, ends⟩

theorem Ran.from {steps : List (Except Error SpoolStep)} {report : SyncReport} {log log₀ : Log}
    {trace : List (SpoolStep × Log)} {last : Ended}
    (ran : Ran b targets recorder steps report log trace last) (same : marks log = marks log₀) :
    Ran b targets recorder steps report log₀ trace last := by
  cases ran with
  | stops passed split quiet ends => exact .stops passed split (quiet.trans same) ends
  | breaks quiet executed settled => exact .breaks (quiet.trans same) executed settled
  | goes quiet executed settled rest => exact .goes (quiet.trans same) executed settled rest

theorem runSteps_ran (taken : Nat) (steps : List (Except Error SpoolStep)) (report : SyncReport)
    (log : Log) :
    ∃ trace, Ran b targets recorder steps report log trace
      (runSteps b targets recorder taken steps report log) := by
  induction steps generalizing taken report log with
  | nil =>
    have quiet := marks_isCancelled b log
    unfold runSteps
    split
    · rename_i log₁ stop
      rw [stop] at quiet
      exact ⟨[], .stops [] rfl quiet (.inr ⟨⟨_, rfl⟩, by simp⟩)⟩
    · rename_i log₁ clear
      rw [clear] at quiet
      dsimp only
      split
      · exact ⟨[], .stops [] rfl quiet (.inl ⟨rfl, rfl, rfl⟩)⟩
      · obtain ⟨same, ends⟩ := @stillStanding_stops b log₁ _ _ rfl
        exact ⟨[], .stops [] rfl (same.trans quiet)
          (ends.imp (⟨·, rfl, rfl⟩) (⟨·, by simp⟩))⟩
  | cons next steps ih =>
    have quiet := marks_isCancelled b log
    unfold runSteps
    split
    · rename_i log₁ stop
      rw [stop] at quiet
      exact ⟨[], .stops [] rfl quiet (.inr ⟨⟨_, rfl⟩, by simp⟩)⟩
    rename_i log₁ clear
    rw [clear] at quiet
    dsimp only
    split
    · rename_i e log₂ gone
      obtain ⟨same, ends⟩ := standing_stops gone
      refine ⟨[], .stops [next] rfl (same.trans quiet) (.inr ⟨ends.resolve_left nofun, by simp⟩)⟩
    rename_i log₂ stands
    obtain ⟨same, -⟩ := standing_stops stands
    cases next with
    | error e => exact ⟨[], .stops [.error e] rfl (same.trans quiet) (.inr ⟨⟨e, rfl⟩, by simp⟩)⟩
    | ok record =>
      dsimp only
      split
      · rename_i e report' broken
        exact ⟨_, .breaks (same.trans quiet) rfl broken⟩
      · rename_i report' settled
        obtain ⟨trace, ran⟩ := ih (taken + 1) report' (execute b targets recorder record log₂).2
        exact ⟨_, .goes (same.trans quiet) rfl settled ran⟩

theorem run_ran (steps : List (Except Error SpoolStep)) (log : Log) :
    ∃ trace, Ran b targets recorder steps .new log trace (run b targets recorder steps log) := by
  have quiet := marks_isCancelled b log
  unfold run
  split
  · rename_i log₁ stop
    rw [stop] at quiet
    exact ⟨[], .stops [] rfl quiet (.inr ⟨⟨_, rfl⟩, by simp⟩)⟩
  rename_i log₁ clear
  rw [clear] at quiet
  have opening : marks (ask b .openRoot log₁).2 = marks log₁ := by simp [Event.mark?]
  split
  · rename_i e log₂ closed
    rw [closed] at opening
    exact ⟨[], .stops [] rfl (opening.trans quiet) (.inr ⟨⟨e, rfl⟩, by simp⟩)⟩
  rename_i log₂ opened
  rw [opened] at opening
  split
  · rename_i e log₃ gone
    obtain ⟨same, ends⟩ := stillStanding_stops gone
    exact ⟨[], .stops [] rfl (same.trans (opening.trans quiet)) (.inr ⟨ends.resolve_left (by simp), by simp⟩)⟩
  · rename_i log₃ stands
    obtain ⟨same, -⟩ := stillStanding_stops stands
    obtain ⟨trace, ran⟩ := @runSteps_ran b targets recorder 0 steps .new log₃
    exact ⟨trace, ran.from (same.trans (opening.trans quiet))⟩

/-- No step of the run slips: what it changed is accounted for, or its error says where. -/
theorem Ran.owes {steps : List (Except Error SpoolStep)} {report : SyncReport} {log : Log}
    {trace : List (SpoolStep × Log)} {last : Ended}
    (ran : Ran b targets recorder steps report log trace last)
    (clean : ∀ at_ ∈ trace, ¬Slips b targets recorder at_.1 at_.2) :
    ∃ added, marks last.log = marks log ++ added ∧ Owes recorder added last.result ∧
      ∀ what, last.result = .error (.unrecorded what) →
        ∃ at_ ∈ trace, what.buried = destPath targets at_.1 := by
  induction ran with
  | stops passed split quiet ends =>
    refine ⟨[], by simpa using quiet, ?_, ?_⟩
    · rcases ends with ⟨rfl, -⟩ | ⟨⟨e, rfl⟩, -⟩ <;> exact accounted_nil
    · rintro what rfl
      rcases ends with ⟨same, -⟩ | ⟨⟨e, same⟩, -⟩ <;> exact nomatch same
  | @breaks record steps report report' log log₁ log₂ ended e quiet executed settled =>
    obtain ⟨added, after, leaves⟩ := @execute_left b targets recorder record log₁
    rw [executed] at after leaves
    refine ⟨added, by rw [after, quiet], ?_⟩
    rcases leaves.accounted (clean (record, log₁) (List.mem_singleton_self _)) with
      ⟨told, accounted⟩ | ⟨what, rfl, same, accounted⟩
    · obtain ⟨e', rfl⟩ : ∃ e', e = .stopped e' := by
        match ended, told, settled with
        | .error (.fatal e'), _, settled => exact ⟨e', by cases settled; rfl⟩
        | .error (.unrecoverable what), told, _ => exact absurd rfl (told what)
      exact ⟨accounted, nofun⟩
    · obtain ⟨rfl, -⟩ : e = .unrecorded what ∧ _ := by
        obtain ⟨same, rest⟩ := Prod.mk.inj settled
        exact ⟨(Except.error.inj same).symm, rest⟩
      refine ⟨by simpa [Owes, same] using accounted, fun what' is => ?_⟩
      obtain rfl : what = what' := by simpa using is
      exact ⟨_, List.mem_singleton_self _, same⟩
  | @goes record steps report report' log log₁ log₂ ended trace last quiet executed settled rest ih =>
    obtain ⟨added, after, leaves⟩ := @execute_left b targets recorder record log₁
    rw [executed] at after leaves
    obtain ⟨more, after', owes, named⟩ := ih fun at_ member => clean at_ (List.mem_cons_of_mem _ member)
    refine ⟨added ++ more, by rw [after', after, quiet, List.append_assoc], ?_, fun what is => ?_⟩
    · rcases leaves.accounted (clean (record, log₁) (List.mem_cons_self ..)) with
        ⟨-, accounted⟩ | ⟨what, rfl, -⟩
      · match result : last.result with
        | .ok () | .error (.stopped _) =>
          rw [result] at owes
          exact accounted.append owes
        | .error (.unrecorded what) =>
          rw [result] at owes
          exact (accounted.weaken nofun).append owes
      · exact absurd (congrArg Prod.fst settled) nofun
    · obtain ⟨at_, member, same⟩ := named what is
      exact ⟨at_, List.mem_cons_of_mem _ member, same⟩

end Run

/-! Every step is counted once. -/

inductive Fate where
  | done
  | failed
  | skipped
  deriving DecidableEq, Repr

/-- How often the steps came to an end, as counters that stop at their bound. -/
def tally (fates : List (SpoolStep × Fate)) (fate : Fate) (before : UInt64) : Nat :=
  min (before.toNat + (fates.filter (·.2 = fate)).length) (2 ^ 64 - 1)

structure Counted (fates : List (SpoolStep × Fate)) (before after : SyncReport) : Prop where
  done : after.done.toNat = tally fates .done before.done
  failed : after.failed.toNat = tally fates .failed before.failed
  skipped : after.skipped.toNat = tally fates .skipped before.skipped

theorem saturatingAdd_one (n : UInt64) : (saturatingAdd n 1).toNat = min (n.toNat + 1) (2 ^ 64 - 1) := by
  have bound := n.toNat_lt
  unfold saturatingAdd
  split
  · rename_i fits
    rw [UInt64.toNat_add]
    simp at fits ⊢
    omega
  · rename_i full
    simp at full ⊢
    omega

theorem counted_nil (report : SyncReport) : Counted [] report report := by
  have := report.done.toNat_lt
  have := report.failed.toNat_lt
  have := report.skipped.toNat_lt
  constructor <;> simp [tally] <;> omega

theorem tally_cons (record : SpoolStep) (fate other : Fate) (fates : List (SpoolStep × Fate))
    {before between : UInt64} (first : between.toNat = tally [(record, fate)] other before) :
    tally fates other between = tally ((record, fate) :: fates) other before := by
  unfold tally at *
  by_cases same : fate = other <;> simp [same] at first ⊢ <;> omega

theorem Counted.cons {record : SpoolStep} {fate : Fate} {fates : List (SpoolStep × Fate)}
    {before between after : SyncReport} (first : Counted [(record, fate)] before between)
    (rest : Counted fates between after) : Counted ((record, fate) :: fates) before after where
  done := rest.done.trans (tally_cons record fate .done fates first.done)
  failed := rest.failed.trans (tally_cons record fate .failed fates first.failed)
  skipped := rest.skipped.trans (tally_cons record fate .skipped fates first.skipped)

theorem counted_failure (record : SpoolStep) (report : SyncReport) (cause : SyncFailureCause) :
    Counted [(record, .failed)] report (report.recordFailure record.step cause) := by
  have doneBound := report.done.toNat_lt
  have skippedBound := report.skipped.toNat_lt
  have counted : (report.recordFailure record.step cause).done = report.done ∧
      (report.recordFailure record.step cause).failed = saturatingAdd report.failed 1 ∧
      (report.recordFailure record.step cause).skipped = report.skipped := by
    unfold SyncReport.recordFailure
    dsimp only
    split <;> exact ⟨rfl, rfl, rfl⟩
  obtain ⟨done, failed, skipped⟩ := counted
  constructor
  · simp [tally, done]; omega
  · rw [failed, saturatingAdd_one]; simp [tally]
  · simp [tally, skipped]; omega

/-- A step the task goes on from is counted under one of the three. -/
theorem settle_counted {record : SpoolStep} {report report' : SyncReport}
    {ended : Except StepError Applied} (settled : settle record.step report ended = (.ok (), report')) :
    ∃ fate, Counted [(record, fate)] report report' := by
  have doneBound := report.done.toNat_lt
  have failedBound := report.failed.toNat_lt
  have skippedBound := report.skipped.toNat_lt
  match ended, settled with
  | .ok (.wrote bytes), settled =>
    cases settled
    refine ⟨.done, ?_, ?_, ?_⟩
    · rw [saturatingAdd_one]; simp [tally]
    · simp [tally]; omega
    · simp [tally]; omega
  | .ok .skipped, settled =>
    cases settled
    refine ⟨.skipped, ?_, ?_, ?_⟩
    · simp [tally]; omega
    · simp [tally]; omega
    · rw [saturatingAdd_one]; simp [tally]
  | .error (.failed e), settled =>
    cases settled
    exact ⟨.failed, counted_failure record report _⟩

/-- The steps taken from the stream: those that were counted, and one that ended the run. -/
structure Takes (steps : List (Except Error SpoolStep)) (before : SyncReport) (last : Ended)
    (fates : List (SpoolStep × Fate)) (uncounted : List (Except Error SpoolStep)) : Prop where
  split : steps = fates.map (fun at_ => .ok at_.1) ++ uncounted ++ last.rest
  counted : Counted fates before last.report
  few : uncounted.length ≤ 1
  stopped : uncounted ≠ [] → ∃ e, last.result = .error (.stopped e)
  whole : last.result = .ok () → last.rest = []

theorem Ran.takes {b : Behaviour} {targets : SyncTargets} {recorder : BatchJournal}
    {steps : List (Except Error SpoolStep)} {report : SyncReport} {log : Log}
    {trace : List (SpoolStep × Log)} {last : Ended}
    (ran : Ran b targets recorder steps report log trace last) :
    ∃ fates uncounted, Takes steps report last fates uncounted := by
  induction ran with
  | @stops steps report log log' result rest passed split quiet ends =>
    refine ⟨[], passed, by simpa using split, counted_nil report, ?_, ?_, ?_⟩
    · rcases ends with ⟨-, rfl, -⟩ | ⟨-, few⟩
      · simp
      · exact few
    · rcases ends with ⟨-, rfl, -⟩ | ⟨stopped, -⟩
      · exact fun some => absurd rfl some
      · exact fun _ => stopped
    · rcases ends with ⟨-, -, none⟩ | ⟨⟨e, stopped⟩, -⟩
      · exact fun _ => none
      · exact fun done => absurd (stopped.symm.trans done) nofun
  | @breaks record steps report report' log log₁ log₂ ended e quiet executed settled =>
    match ended, settled with
    | .error (.fatal e'), settled =>
      cases settled
      exact ⟨[], [.ok record], rfl, counted_nil report, by simp, fun _ => ⟨e', rfl⟩, nofun⟩
    | .error (.unrecoverable what), settled =>
      cases settled
      exact ⟨[(record, .failed)], [], rfl, counted_failure record report .io, by simp, by simp, nofun⟩
  | @goes record steps report report' log log₁ log₂ ended trace last quiet executed settled rest ih =>
    obtain ⟨fates, uncounted, takes⟩ := ih
    obtain ⟨fate, counted⟩ := settle_counted settled
    refine ⟨(record, fate) :: fates, uncounted, ?_, counted.cons takes.counted, takes.few,
      takes.stopped, takes.whole⟩
    simp [takes.split]

/-- An application whose steps do not slip tells the two states of the tree apart. -/
theorem apply_accounts (b : Behaviour) (targets : SyncTargets) (recorder : BatchJournal)
    (steps : List (Except Error SpoolStep)) (log : Log)
    (clean : ∀ record began, Executes b targets recorder steps log record began →
      ¬Slips b targets recorder record began) :
    (∃ added, marks (run b targets recorder steps log).log = marks log ++ added ∧
      Owes recorder added (run b targets recorder steps log).result ∧
      ∀ what, (run b targets recorder steps log).result = .error (.unrecorded what) →
        ∃ record began, Executes b targets recorder steps log record began ∧
          what.buried = destPath targets record) ∧
    ∃ fates uncounted, Takes steps .new (run b targets recorder steps log) fates uncounted := by
  obtain ⟨trace, ran⟩ := @run_ran b targets recorder steps log
  refine ⟨?_, ran.takes⟩
  obtain ⟨added, after, owes, named⟩ := ran.owes fun at_ member =>
    clean at_.1 at_.2 ⟨trace, ran, member⟩
  refine ⟨added, after, owes, fun what is => ?_⟩
  obtain ⟨at_, member, same⟩ := named what is
  exact ⟨at_.1, at_.2, ⟨trace, ran, member⟩, same⟩

/-! A destination that is empty and does what it is asked, but for its `mkdir`. -/

def emptyDest (mkdir : Outcome Unit) : Behaviour
  | .isCancelled, _ | .checkDue, _ => false
  | .hasTrash, _ => true
  | .openRoot, _ | .stillStanding, _ => .ok ()
  | .evaluate _ _, _ => .allow
  | .stat _ _, _ | .readLink _, _ | .nodeId _, _ => .error .notFound
  | .list _, _ => .ok []
  | .walk _, _ => .ok []
  | .bytesDone, _ => 0
  | .mode _, _ => none
  | .allocBatch, _ => .ok 1
  | .mkdir _, _ => mkdir
  | .symlink _ _, _ => .done ()
  | .copyFile _ _ _, _ => .done []
  | .trash _ _, _ => .failed .notFound .notApplied
  | .remove _ _, _ | .restoreFrom _ _, _ | .restoreTrashed _, _ | .rename _ _, _ | .detour _ _, _
  | .setMode _ _, _ => .failed .notFound .notApplied
  | .record _, log => .ok log.length

def newName : Segment := ⟨[0x61], Segment.valid_a⟩

def emptyRoot : VPath := ⟨⟨"file".toList, Scheme.check_file⟩, none, []⟩

def newTargets : SyncTargets := ⟨emptyRoot.join newName, emptyRoot, .trash⟩

def newBatch : BatchJournal := ⟨.user, 1⟩

def newDir : SpoolStep :=
  ⟨⟨1, .createDir, ⟨[newName]⟩, none, none, .presence, .certain, some .delete, none⟩, none⟩

theorem Slips.cause {b : Behaviour} {targets : SyncTargets} {recorder : BatchJournal}
    {record : SpoolStep} {log : Log} (slips : Slips b targets recorder record log) : b.Late ∨ b.Refuses := by
  have late_of {α : Type} {marked : α → Mark → Prop} {ended : Except Error α × Log} {log : Log}
      (lands : Lands b log marked ended) (late : FailedLate ended log) : b.Late := by
    obtain ⟨⟨e, failed⟩, changed⟩ := late
    cases lands with
    | done m such origin after => exact nomatch failed
    | failed after => exact absurd after changed
    | late value m such late after => exact late
  have loses_of {α : Type} {marked : α → Mark → Prop} {ended : Except Error α × Log} {log : Log}
      {entry : NewEntry} (lands : Lands b log marked ended) (loses : Loses b entry ended log) :
      b.Late ∨ b.Refuses := by
    rcases loses with late | ⟨-, e, refused⟩
    · exact .inl (late_of lands late)
    · exact .inr ⟨_, _, e, refused⟩
  obtain ⟨leaf, log', -, untold⟩ := slips
  unfold Untold at untold
  split at untold
  · exact loses_of (mkdirRetrying_lands b _ _) untold
  · exact loses_of (copyLeaf_lands b _ _ _ _) untold
  · exact .inl (late_of (trashRetrying_lands b _ _ _) untold)
  · exact .inl (late_of (destroyLeaf_lands b _ _ _ _) untold)
  · exact .inl (late_of (trashRetrying_lands b _ _ _) untold)
  · exact absurd untold id

/-! The same with a file in it, which the trash takes. -/

def oldName : Segment := ⟨[0x62], Segment.valid_b⟩

def oldFile : SpoolStep :=
  ⟨⟨2, .overwrite, ⟨[oldName]⟩, none, none, .size, .certain, some .restoreTrash, none⟩, some ⟨.file, none, none, none⟩⟩

def binPath : VPath := (emptyRoot.join newName).join oldName

def standingDest : Behaviour
  | .stat .source path, _ => .ok ⟨path, .file, none, none⟩
  | .stat .dest path, _ => if path = emptyRoot.join oldName then .ok ⟨path, .file, none, none⟩ else .error .notFound
  | .trash _ _, _ => .done (some binPath)
  | call, log => emptyDest (.done ()) call log

theorem standingDest_sound : ¬standingDest.Late ∧ ¬standingDest.Refuses := by
  constructor
  · rintro ⟨call, log, late⟩
    cases call <;> exact absurd late (by simp [Event.late, standingDest, emptyDest, Outcome.late])
  · rintro ⟨entry, log, e, refused⟩
    exact absurd refused (by simp [standingDest, emptyDest])

def overwriteMarks : List Mark :=
  [.made (emptyRoot.join newName) .dir, .row (newBatch.created (emptyRoot.join newName) .delete) 7,
    .buried (emptyRoot.join oldName) (some binPath),
    .row (newBatch.trashed (emptyRoot.join oldName) (some binPath)) 15,
    .made (emptyRoot.join oldName) (.file []), .row (newBatch.created (emptyRoot.join oldName) .delete) 19]

/-- A directory that is new and a file that is replaced. -/
theorem apply_accounts_overwrite :
    (run standingDest newTargets newBatch [.ok newDir, .ok oldFile] []).result = .ok () ∧
    marks (run standingDest newTargets newBatch [.ok newDir, .ok oldFile] []).log = overwriteMarks ∧
    Accounted newBatch (fun _ => False) overwriteMarks := by
  have clean (record : SpoolStep) (began : Log)
      (_ : Executes standingDest newTargets newBatch [.ok newDir, .ok oldFile] [] record began) :
      ¬Slips standingDest newTargets newBatch record began :=
    fun slips => slips.cause.elim standingDest_sound.1 standingDest_sound.2
  have ends : (run standingDest newTargets newBatch [.ok newDir, .ok oldFile] []).result = .ok () := by decide
  have left : marks (run standingDest newTargets newBatch [.ok newDir, .ok oldFile] []).log = overwriteMarks := by decide
  obtain ⟨⟨added, after, owes, -⟩, -⟩ := apply_accounts _ _ _ _ _ clean
  rw [ends] at owes
  rw [marks_nil, List.nil_append] at after
  exact ⟨ends, left, after.symm.trans left ▸ owes⟩

/-- A directory is made, the answer says it was not, and the run goes well without a row. -/
theorem apply_loses_newDir : ¬ ∀ (b : Behaviour) (targets : SyncTargets) (recorder : BatchJournal)
    (steps : List (Except Error SpoolStep)) (log : Log),
    ∃ added, marks (run b targets recorder steps log).log = marks log ++ added ∧
      Owes recorder added (run b targets recorder steps log).result := by
  intro claim
  obtain ⟨added, after, owes⟩ := claim (emptyDest (.failedAfter () (.io true))) newTargets newBatch
    [.ok newDir] []
  have ends : (run (emptyDest (.failedAfter () (.io true))) newTargets newBatch
      [.ok newDir] []).result = .ok () := by decide
  have left : marks (run (emptyDest (.failedAfter () (.io true))) newTargets newBatch
      [.ok newDir] []).log = [.made (emptyRoot.join newName) .dir] := by decide
  rw [left] at after
  rw [ends] at owes
  simp only [marks_nil, List.nil_append] at after
  subst after
  rcases owes [] _ [] rfl _ rfl with none | ⟨entry, seq, member, -⟩ | ⟨there, same, -⟩
  · exact none
  · simp at member
  · exact nomatch same

end Norte.Sync
