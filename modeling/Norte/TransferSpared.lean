import Norte.TransferMove

/-! What a move loses. Of two leaves that go to one place the second may replace what was written of
the first, and both are removed then; where no leaf replaces what the task itself has written, every
leaf that is gone is held by the destination. -/
namespace Norte.Transfer

open Sync (Entry EntryKind)

variable {K : Type} [DecidableEq K] (job : Job K)

namespace Job

/-- A leaf that is about to replace what the task has written. -/
def ReplacesOwn (start now : World K) (e : Entry) : Prop :=
  Leaf e ∧ job.Replaced now e ∧ ∃ p, .created p ∈ now.rows.drop start.rows.length ∧ job.place p = job.placeOf e

instance (start now : World K) (e : Entry) : Decidable (job.ReplacesOwn start now e) := by
  have made : (∃ p, .created p ∈ now.rows.drop start.rows.length ∧ job.place p = job.placeOf e) ↔
      ∃ m ∈ now.rows.drop start.rows.length, m = .created m.path ∧ job.place m.path = job.placeOf e :=
    ⟨fun ⟨p, written, at_⟩ => ⟨_, written, rfl, at_⟩, fun ⟨m, written, same, at_⟩ => ⟨m.path, same ▸ written, at_⟩⟩
  exact decidable_of_iff (Leaf e ∧ job.Replaced now e ∧ ∃ m ∈ now.rows.drop start.rows.length, m = .created m.path ∧
    job.place m.path = job.placeOf e) (and_congr_right' (and_congr_right' made.symm))

/-- In none of the runs, as far as they come, a leaf replaces what the task has written. -/
def Spares (start : World K) : List (List Entry) → List (List Choice) → World K → Prop
  | [], _, _ => True
  | group :: rest, schedules, w => (∀ e ∈ group, ¬job.ReplacesOwn start w e) ∧
    ((Run.drive job (Run.fresh group w) (schedules.headD [])).finished = true →
      (Run.drive job (Run.fresh group w) (schedules.headD [])).failed = none →
      Spares start rest schedules.tail (Run.drive job (Run.fresh group w) (schedules.headD [])).world)

instance decidableSpares (start : World K) : ∀ groups schedules w, Decidable (job.Spares start groups schedules w)
  | [], _, _ => .isTrue True.intro
  | group :: rest, schedules, w =>
    have := decidableSpares start rest schedules.tail (Run.drive job (Run.fresh group w) (schedules.headD [])).world
    inferInstanceAs (Decidable ((∀ e ∈ group, ¬job.ReplacesOwn start w e) ∧ (_ → _ → _)))

variable {job} {fold : Bytes → Bytes} {entries : List Entry}

omit [DecidableEq K] in
/-- In one run no two leaves that replace have one target. -/
theorem distinct_run (folds : job.Folds fold) {group : List Entry} (below : ∀ e ∈ group, job.source.segments <+: e.path.segments)
    (cut : (∃ e, group = [e]) ∨ (job.opts.onCollision ≠ .renameAuto ∧ FilesApart fold group)) : job.Distinct group := by
  intro _
  rcases cut with ⟨e, rfl⟩ | ⟨-, -, apart⟩
  · exact (List.nodup_singleton (job.placeOf e)).sublist (List.filter_sublist.map job.placeOf)
  · exact (job.apart_of_folded folds below apart).sublist (List.filter_sublist.map job.placeOf)

/-- What a run leaves of its entries, and of what the task has written before. -/
theorem run_leaves (folds : job.Folds fold) (reads : job.Reads entries) {group : List Entry}
    (below : ∀ e ∈ group, job.source.segments <+: e.path.segments)
    (cut : (∃ e, group = [e]) ∨ (job.opts.onCollision ≠ .renameAuto ∧ FilesApart fold group))
    (inside : ∀ e ∈ group, e ∈ entries) {start w : World K} {added : List Mutation} (rows : w.rows = start.rows ++ added)
    (same : ∀ k, job.Elsewhere entries k → w.tree k = start.tree k) {schedule : List Choice}
    (finished : (Run.drive job (Run.fresh group w) schedule).finished = true)
    (fine : (Run.drive job (Run.fresh group w) schedule).failed = none) :
    job.Leaves start w (Run.drive job (Run.fresh group w) schedule).world entries group
      (Run.drive job (Run.fresh group w) schedule).skipped := by
  obtain ⟨skipped, w', ran, tree, rows', skips⟩ := job.run_sequential folds reads.undisturbed below
    (cut.imp_right fun ⟨sure, apart⟩ => ⟨sure, apart, inside⟩) finished fine
  have confined := drive_confined job inside w schedule
  have leaves := oneByOne_leaves reads inside (distinct_run folds below cut) same rows ran
  obtain ⟨more, told⟩ := confined.rows
  refine ⟨confined.still, confined.rows, fun k thing there spares => ?_, fun e member leaf => ?_⟩
  · rw [← tree]
    exact leaves.kept k thing there spares
  · apply (leaves.each e member leaf).imp skips.mem_iff.mpr
    exact fun held => held.perm tree rows' (told.trans (by rw [rows, List.append_assoc]))

/-- Where no leaf replaces what the task has written, that stays, and each leaf was skipped or is
held by the destination. -/
theorem copyRuns_held (folds : job.Folds fold) (reads : job.Reads entries) {groups : List (List Entry)}
    (below : ∀ group ∈ groups, ∀ e ∈ group, job.source.segments <+: e.path.segments)
    (cut : ∀ group ∈ groups, (∃ e, group = [e]) ∨ (job.opts.onCollision ≠ .renameAuto ∧ FilesApart fold group))
    (inside : ∀ group ∈ groups, ∀ e ∈ group, e ∈ entries) {start w w' : World K} {added : List Mutation}
    (rows : w.rows = start.rows ++ added) (same : ∀ k, job.Elsewhere entries k → w.tree k = start.tree k)
    {schedules : List (List Choice)} {skipped : List VPath} (spares : job.Spares start groups schedules w)
    (copied : job.copyRuns groups schedules w = (some (.ok skipped), w')) :
    (∃ more, w'.rows = w.rows ++ more) ∧
    (∀ p thing, .created p ∈ added → w.tree (job.place p) = some thing → w'.tree (job.place p) = some thing) ∧
    ∀ group ∈ groups, ∀ e ∈ group, Leaf e → e.path ∈ skipped ∨ job.Held start w' e := by
  induction groups generalizing schedules w skipped added with
  | nil =>
    obtain ⟨-, rfl⟩ := Prod.mk.inj copied
    exact ⟨⟨[], (List.append_nil _).symm⟩, fun _ _ _ there => there, by simp⟩
  | cons group rest ih =>
    rw [List.forall_mem_cons] at below cut inside
    obtain ⟨now, later⟩ := spares
    simp only [copyRuns] at copied
    split at copied
    case isFalse => cases copied
    case isTrue finished =>
    split at copied
    case h_1 => cases copied
    case h_2 fine =>
    have leaves := run_leaves folds reads below.1 cut.1 inside.1 rows same finished fine
    split at copied
    case h_2 early => exact absurd copied (early _ _)
    case h_1 skipped' last copies =>
    obtain ⟨result, rfl⟩ := Prod.mk.inj copied
    obtain rfl := Except.ok.inj (Option.some.inj result)
    obtain ⟨more, told⟩ := leaves.rows
    have rows' : (Run.drive job (Run.fresh group w) (schedules.headD [])).world.rows = start.rows ++ (added ++ more) := by
      rw [told, rows, List.append_assoc]
    obtain ⟨⟨more', told'⟩, stays, each⟩ := ih below.2 cut.2 inside.2 rows'
      (fun k away => (leaves.still k away).trans (same k away)) (later finished fine) copies
    refine ⟨⟨more ++ more', by rw [told', told, List.append_assoc]⟩, fun p thing written there => ?_, ?_⟩
    · apply stays p thing (List.mem_append_left _ written)
      apply leaves.kept _ thing there
      intro e member leaf at_ clear
      refine now e member ⟨leaf, ⟨thing, by rw [at_]; exact there, clear⟩, p, ?_, at_.symm⟩
      rw [rows, List.drop_left]
      exact written
    · refine List.forall_mem_cons.mpr ⟨fun e member leaf => ?_, fun group run e member leaf => ?_⟩
      · apply (leaves.each e member leaf).imp (List.mem_append_left _)
        rintro ⟨target, thing, own, goes, made, there, told'', row⟩
        have written : .created target ∈ added ++ more := by
          rw [rows', List.append_right_inj] at told''
          exact told'' ▸ row
        exact ⟨target, thing, added ++ more ++ more', goes, made, stays target thing written there,
          by rw [told', rows', List.append_assoc], List.mem_append_left _ written⟩
      · exact (each group run e member leaf).imp_left (List.mem_append_right _)

variable {home : VPath → K} {leaf : Entry} {plan : Option (List PlanEntry)}

def lower (name : Bytes) : Bytes := name.map fun b => if 0x41 ≤ b ∧ b ≤ 0x5A then b + 0x20 else b

theorem valid_capital : Segment.Valid [0x43] := by
  refine ⟨by decide, by decide, by decide, by decide⟩

def alikeJob : Job (Bool × List Bytes) where
  opts := ⟨.overwrite, .preserve⟩
  source := Run.sampleFolder.join ⟨[0x61], Segment.valid_a⟩
  dest := Run.sampleFolder.join ⟨[0x62], Segment.valid_b⟩
  place p := (true, p.segments.map fun s => lower s.bytes)
  echo := id
  stamp _ := some 7
  read _ path := .ok (path.segments.flatMap Segment.bytes)
  readLink _ _ := .error .notFound

def alikeHome (p : VPath) : Bool × List Bytes := (false, p.segments.map Segment.bytes)

def alikeFile (name : Segment) : PlanEntry := ⟨⟨alikeJob.source.join name, .file, none, some 5⟩, .real⟩

def alikeFirst : PlanEntry := alikeFile ⟨[0x63], Segment.valid_c⟩

def alikePlan : List PlanEntry := [alikeFirst, alikeFile ⟨[0x43], valid_capital⟩]

def alikeWorld : World (Bool × List Bytes) where
  tree k := if k = alikeHome alikeJob.source then some ⟨.dir, [], none⟩
    else if k ∈ alikePlan.map (fun pe => alikeHome pe.entry.path) then some ⟨.file, k.2.flatten, none⟩ else none
  rows := []

def alikeSchedules : List (List Choice) :=
  [[.take, .pass none, .call 0 none, .call 0 none, .call 0 none, .land 0],
    [.take, .pass none, .call 0 none, .call 0 none, .call 0 none, .land 0],
    [.take, .pass none, .call 0 none, .call 0 none, .call 0 none, .call 0 none, .call 0 none, .land 0]]

theorem runs_alikePlan : runs lower .overwrite (alikePlan.map PlanEntry.entry) =
    (alikePlan.map PlanEntry.entry).map fun e => [e] := by
  have first : runEnd lower filesPerRun [] (alikePlan.map PlanEntry.entry) = 1 := by decide
  have second : runEnd lower filesPerRun [] ((alikePlan.map PlanEntry.entry).drop 1) = 1 := by decide
  simp only [alikePlan, List.map_cons, List.map_nil, List.drop_succ_cons, List.drop_zero] at first second ⊢
  rw [runs, if_pos (by decide), first]
  simp only [List.take_succ_cons, List.take_zero, List.drop_succ_cons, List.drop_zero]
  rw [runs, if_pos (by decide), second]
  simp only [List.take_succ_cons, List.take_zero, List.drop_succ_cons, List.drop_zero, runs]

def alikeMove : Option (Except Error Unit) × World (Bool × List Bytes) :=
  alikeJob.moveByCopy alikeHome lower alikeJob.top (some alikePlan) alikeSchedules [.gone, .gone, .gone] alikeWorld

theorem alike_moved : alikeMove.1 = some (.ok ()) ∧ alikeMove.2.tree (alikeHome alikeFirst.entry.path) = none ∧
    alikeMove.2.tree (alikeJob.placeOf alikeFirst.entry) = some ⟨.file, [0x61, 0x43], some 7⟩ := by
  simp only [alikeMove, moveByCopy, movedRuns]
  simp only [runs_alikePlan, alikeJob]
  decide

end Job

end Norte.Transfer
