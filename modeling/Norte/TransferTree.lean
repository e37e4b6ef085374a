import Norte.TransferTogether

/-! The copy of a tree. Its plan is cut into runs of files that no destination can take for one
another, and everything else goes alone; what the runs come to in any order of their calls is what
the plan comes to one entry after another. -/
namespace Norte.Transfer

open Sync (Entry EntryKind)

def filesPerRun : Nat := 256

/-- The whole path of an entry, each name folded. -/
def folded (fold : Bytes → Bytes) (e : Entry) : List Bytes := e.path.segments.map fun s => fold s.bytes

/-- Where the run of files that starts here ends: at what is no file, or folds to one in the run. -/
def runEnd (fold : Bytes → Bytes) : Nat → List (List Bytes) → List Entry → Nat
  | 0, _, _ | _ + 1, _, [] => 0
  | n + 1, seen, e :: rest =>
    if e.kind ≠ .file then 0
    else if folded fold e ∈ seen then 0
    else runEnd fold n (folded fold e :: seen) rest + 1

theorem runEnd_pos {fold : Bytes → Bytes} {e : Entry} {rest : List Entry} (file : e.kind = .file) :
    0 < runEnd fold filesPerRun [] (e :: rest) := by
  simp [filesPerRun, runEnd, file]

/-- The runs of a plan. With new names two files could be after the same one, so each goes alone. -/
def runs (fold : Bytes → Bytes) (policy : CollisionPolicy) : List Entry → List (List Entry)
  | [] => []
  | e :: rest =>
    if e.kind = .file ∧ policy ≠ .renameAuto then
      let n := runEnd fold filesPerRun [] (e :: rest)
      (e :: rest).take n :: runs fold policy ((e :: rest).drop n)
    else [e] :: runs fold policy rest
termination_by plan => plan.length
decreasing_by
  · rename_i together
    have := @runEnd_pos fold e rest together.1
    simp only [List.length_drop, List.length_cons]
    omega
  · exact Nat.lt_succ_self _

/-- Files, no two of them of one folded path. -/
structure FilesApart (fold : Bytes → Bytes) (group : List Entry) : Prop where
  files : ∀ e ∈ group, e.kind = .file
  apart : (group.map (folded fold)).Nodup

theorem runEnd_apart (fold : Bytes → Bytes) (n : Nat) (seen : List (List Bytes)) (plan : List Entry) :
    FilesApart fold (plan.take (runEnd fold n seen plan)) ∧ (plan.take (runEnd fold n seen plan)).length ≤ n ∧
      ∀ e ∈ plan.take (runEnd fold n seen plan), folded fold e ∉ seen := by
  induction n, seen, plan using runEnd.induct fold with
  | case1 seen plan => simpa [runEnd] using ⟨by simp, by simp⟩
  | case2 n seen => simpa [runEnd] using ⟨by simp, by simp⟩
  | case3 n seen e rest other => simpa [runEnd, other] using ⟨by simp, by simp⟩
  | case4 n seen e rest file twice =>
    simp only [runEnd, file, twice, if_true, if_false]
    simpa using ⟨by simp, by simp⟩
  | case5 n seen e rest file once ih =>
    simp only [runEnd, file, once, if_false, List.take_succ_cons]
    obtain ⟨⟨files, apart⟩, few, unseen⟩ := ih
    refine ⟨⟨List.forall_mem_cons.mpr ⟨Classical.not_not.mp file, files⟩, ?_⟩, Nat.succ_le_succ few, ?_⟩
    · rw [List.map_cons, List.nodup_cons]
      refine ⟨fun inside => ?_, apart⟩
      obtain ⟨other, member, same⟩ := List.mem_map.mp inside
      exact unseen other member (same ▸ List.mem_cons_self)
    · exact List.forall_mem_cons.mpr ⟨once, fun other member seen => unseen other member (List.mem_cons_of_mem _ seen)⟩

/-- The runs are the plan, in its order; each is one entry, or files that can go together. -/
theorem runs_cut (fold : Bytes → Bytes) (policy : CollisionPolicy) (plan : List Entry) : (runs fold policy plan).flatten = plan ∧
    ∀ group ∈ runs fold policy plan, (∃ e, group = [e]) ∨
      (policy ≠ .renameAuto ∧ FilesApart fold group ∧ group.length ≤ filesPerRun) := by
  induction plan using runs.induct fold policy with
  | case1 => simp [runs]
  | case2 e rest together n ih =>
    rw [runs, if_pos together, List.flatten_cons, ih.1, List.take_append_drop, List.forall_mem_cons]
    obtain ⟨apart, few, -⟩ := runEnd_apart fold filesPerRun [] (e :: rest)
    exact ⟨rfl, .inr ⟨together.2, apart, few⟩, ih.2⟩
  | case3 e rest alone ih =>
    rw [runs, if_neg alone, List.flatten_cons, ih.1, List.forall_mem_cons]
    exact ⟨rfl, .inl ⟨e, rfl⟩, ih.2⟩

variable {K : Type} [DecidableEq K] (job : Job K)

namespace Job

/-- The root of what is made: a directory, also where the source's is a link to one. -/
def top : Entry := ⟨job.source, .dir, none, none⟩

/-- Runs one after another, each under its schedule, up to the first error. Where a schedule ends
before its run does, the copy is still on its way. -/
def copyRuns : List (List Entry) → List (List Choice) → World K → Option (Except Error (List VPath)) × World K
  | [], _, w => (some (.ok []), w)
  | group :: rest, schedules, w =>
    let s := Run.drive job (Run.fresh group w) (schedules.headD [])
    if s.finished then
      match s.failed with
      | some e => (some (.error e), s.world)
      | none =>
        match copyRuns rest schedules.tail s.world with
        | (some (.ok skipped), w) => (some (.ok (s.skipped ++ skipped)), w)
        | early => early
    else (none, s.world)

def copyTree (fold : Bytes → Bytes) (plan : List PlanEntry) (schedules : List (List Choice)) (w : World K) :
    Option (Except Error (List VPath)) × World K :=
  job.copyRuns ([job.top] :: runs fold job.opts.onCollision (plan.map PlanEntry.entry)) schedules w

/-! ### The rows are only added to -/

theorem call_rows (f : Flight) (tree : K → Option Thing) (before : List Mutation) : job.call f ⟨tree, before⟩ =
    ((job.call f ⟨tree, []⟩).1, ⟨(job.call f ⟨tree, []⟩).2.tree, before ++ (job.call f ⟨tree, []⟩).2.rows⟩) := by
  cases stage : f.stage with
  | probe =>
    simp only [call, stage]
    cases f.payload with
    | link bytes => cases job.readLink tree f.entry.path <;> simp
    | _ => cases job.read tree f.entry.path <;> simp
  | candidate n =>
    simp only [call, stage]
    split
    · simp
    · cases candidateAt f.target n with
      | error e => simp
      | ok path => by_cases free : tree (job.place path) = none <;> simp [free]
  | write target =>
    simp only [call, stage]
    cases tree (job.place target) with
    | some existing => simp
    | none => cases job.carries tree f target <;> simp
  | look => simp [call, stage]
  | clear => simp [call, stage]
  | cleared => simp [call, stage]
  | written target => simp [call, stage]
  | ended result => simp [call, stage]

theorem fly_rows (n : Nat) (f : Flight) (tree : K → Option Thing) (before : List Mutation) : job.fly n f ⟨tree, before⟩ =
    ((job.fly n f ⟨tree, []⟩).1, ⟨(job.fly n f ⟨tree, []⟩).2.tree, before ++ (job.fly n f ⟨tree, []⟩).2.rows⟩) := by
  induction n generalizing f tree before with
  | zero => simp [fly]
  | succ n ih =>
    rw [fly, job.call_rows, fly]
    generalize job.call f ⟨tree, []⟩ = moved
    obtain ⟨g, tree', rows⟩ := moved
    rw [ih g tree' (before ++ rows), ih g tree' rows, List.append_assoc]

theorem copyAlone_rows (e : Entry) (tree : K → Option Thing) (before : List Mutation) : job.copyAlone e ⟨tree, before⟩ =
    ((job.copyAlone e ⟨tree, []⟩).1,
      ⟨(job.copyAlone e ⟨tree, []⟩).2.tree, before ++ (job.copyAlone e ⟨tree, []⟩).2.rows⟩) := by
  simp only [copyAlone]
  rw [fly_rows]
  generalize job.fly _ _ _ = came
  obtain ⟨f, tree', rows⟩ := came
  cases f.stage <;> rfl

theorem oneByOne_rows (plan : List Entry) (tree : K → Option Thing) (before : List Mutation) :
    job.copyOneByOne plan ⟨tree, before⟩ = ((job.copyOneByOne plan ⟨tree, []⟩).1,
      ⟨(job.copyOneByOne plan ⟨tree, []⟩).2.tree, before ++ (job.copyOneByOne plan ⟨tree, []⟩).2.rows⟩) := by
  induction plan generalizing tree before with
  | nil => simp [copyOneByOne]
  | cons e rest ih =>
    simp only [copyOneByOne]
    rw [copyAlone_rows]
    generalize job.copyAlone e ⟨tree, []⟩ = came
    obtain ⟨result, tree', rows⟩ := came
    cases result with
    | error e => rfl
    | ok placed =>
      simp only
      rw [ih tree' (before ++ rows), ih tree' rows]
      generalize job.copyOneByOne rest ⟨tree', []⟩ = later
      obtain ⟨result, tree'', rows'⟩ := later
      cases result <;> simp

theorem oneByOne_append {first second : List Entry} {w w₁ w₂ : World K} {skipped₁ skipped₂ : List VPath}
    (one : job.copyOneByOne first w = (.ok skipped₁, w₁)) (two : job.copyOneByOne second w₁ = (.ok skipped₂, w₂)) :
    job.copyOneByOne (first ++ second) w = (.ok (skipped₁ ++ skipped₂), w₂) := by
  induction first generalizing w skipped₁ with
  | nil =>
    simp only [copyOneByOne, Prod.mk.injEq, Except.ok.injEq] at one
    obtain ⟨rfl, rfl⟩ := one
    exact two
  | cons e rest ih =>
    rw [copyOneByOne] at one
    rw [List.cons_append, copyOneByOne]
    generalize job.copyAlone e w = came at one ⊢
    obtain ⟨result, now⟩ := came
    cases result with
    | error error => cases one
    | ok placed =>
      simp only at one ⊢
      cases later : job.copyOneByOne rest now with
      | mk result last =>
        rw [later] at one
        cases result with
        | error error => cases one
        | ok skipped =>
          simp only [Prod.mk.injEq, Except.ok.injEq] at one
          obtain ⟨rfl, rfl⟩ := one
          rw [ih later]
          cases placed <;> rfl

/-! ### What the runs come to -/

/-- The destination takes two names for one only where they fold alike. -/
def Folds (fold : Bytes → Bytes) : Prop :=
  ∀ p q, job.place p = job.place q → p.segments.map (fun s => fold s.bytes) = q.segments.map fun s => fold s.bytes

/-- Reading the plan's files is not disturbed by what is made at the destination. -/
def Undisturbed (plan : List Entry) : Prop :=
  ∀ now then_ : K → Option Thing, (∀ k, (∀ e ∈ plan, job.placeOf e ≠ k) → now k = then_ k) →
    ∀ e ∈ plan, e.kind = .file → job.read now e.path = job.read then_ e.path

omit [DecidableEq K] in
theorem folded_of_place {fold : Bytes → Bytes} (folds : job.Folds fold) {e e' : Entry}
    (below : job.source.segments <+: e.path.segments) (below' : job.source.segments <+: e'.path.segments)
    (same : job.placeOf e = job.placeOf e') : folded fold e = folded fold e' := by
  obtain ⟨rest, split⟩ := below
  obtain ⟨rest', split'⟩ := below'
  have alike := folds _ _ same
  simp only [targetOf, rebase, ← split, ← split', List.drop_left, List.map_append, List.append_cancel_left_eq] at alike
  simp only [folded, ← split, ← split', List.map_append, alike]

omit [DecidableEq K] in
/-- Files of different folded paths go to different places. -/
theorem apart_of_folded {fold : Bytes → Bytes} (folds : job.Folds fold) {group : List Entry}
    (below : ∀ e ∈ group, job.source.segments <+: e.path.segments) (apart : (group.map (folded fold)).Nodup) :
    (group.map job.placeOf).Nodup := by
  rw [List.Nodup, List.pairwise_map] at apart ⊢
  apply apart.imp_of_mem
  exact fun member member' other same => other (job.folded_of_place folds (below _ member) (below _ member') same)

/-- A run of one entry, or of files that can go together, comes to what it comes to one by one. -/
theorem run_sequential {fold : Bytes → Bytes} (folds : job.Folds fold) {plan : List Entry} (undisturbed : job.Undisturbed plan)
    {group : List Entry} (below : ∀ e ∈ group, job.source.segments <+: e.path.segments)
    (inside : (∃ e, group = [e]) ∨ (job.opts.onCollision ≠ .renameAuto ∧ FilesApart fold group ∧ ∀ e ∈ group, e ∈ plan))
    {schedule : List Choice} {w : World K} (finished : (Run.drive job (Run.fresh group w) schedule).finished = true)
    (fine : (Run.drive job (Run.fresh group w) schedule).failed = none) :
    ∃ skipped w', job.copyOneByOne group w = (.ok skipped, w') ∧
      w'.tree = (Run.drive job (Run.fresh group w) schedule).world.tree ∧
      (Run.drive job (Run.fresh group w) schedule).world.rows.Perm w'.rows ∧
      (Run.drive job (Run.fresh group w) schedule).skipped.Perm skipped := by
  rcases inside with ⟨e, rfl⟩ | ⟨sure, ⟨files, apart⟩, planned⟩
  · obtain ⟨placed, alone, skips⟩ := Run.run_lone finished fine
    refine ⟨_, _, by rw [copyOneByOne, alone]; rfl, rfl, List.Perm.refl _, ?_⟩
    rw [skips]
  · have apart' := job.apart_of_folded folds below apart
    have steady : job.Steady w.tree group := fun now still e member =>
      undisturbed now w.tree (fun k others => still k fun x member => others x (planned x member)) e (planned e member)
        (files e member)
    obtain ⟨each, came⟩ := Run.run_comesTo sure files apart' steady finished fine
    obtain ⟨skipped, w', ran, came'⟩ := job.oneByOne_comesTo sure files apart' w steady each
    obtain ⟨tree, rows, skips⟩ := came'.unique came
    exact ⟨skipped, w', ran, tree, rows.symm, skips.symm⟩

theorem copyRuns_sequential {fold : Bytes → Bytes} (folds : job.Folds fold) {plan : List Entry} (undisturbed : job.Undisturbed plan)
    {groups : List (List Entry)} (below : ∀ group ∈ groups, ∀ e ∈ group, job.source.segments <+: e.path.segments)
    (inside : ∀ group ∈ groups, (∃ e, group = [e]) ∨
      (job.opts.onCollision ≠ .renameAuto ∧ FilesApart fold group ∧ ∀ e ∈ group, e ∈ plan)) {schedules : List (List Choice)}
    {w w' : World K} {skipped : List VPath} (copied : job.copyRuns groups schedules w = (some (.ok skipped), w')) :
    ∃ skipped' w'', job.copyOneByOne groups.flatten w = (.ok skipped', w'') ∧ w''.tree = w'.tree ∧ w'.rows.Perm w''.rows ∧
      skipped.Perm skipped' := by
  induction groups generalizing schedules w skipped with
  | nil =>
    simp only [copyRuns, Prod.mk.injEq, Option.some.injEq, Except.ok.injEq] at copied
    obtain ⟨rfl, rfl⟩ := copied
    exact ⟨[], w, rfl, rfl, List.Perm.refl _, List.Perm.refl _⟩
  | cons group rest ih =>
    rw [List.forall_mem_cons] at below inside
    simp only [copyRuns] at copied
    split at copied
    case isFalse => cases copied
    case isTrue finished =>
    split at copied
    case h_1 => cases copied
    case h_2 fine =>
    obtain ⟨skipped₁, ⟨tree₁, rows₁⟩, ran, rfl, rows, skips⟩ :=
      job.run_sequential folds undisturbed below.1 inside.1 finished fine
    split at copied
    case h_2 early =>
      exact absurd copied (early _ _)
    case h_1 skipped₂ now later =>
    obtain ⟨result, rfl⟩ := Prod.mk.inj copied
    obtain rfl := Except.ok.inj (Option.some.inj result)
    obtain ⟨skipped', w'', ran', tree', rows', skips'⟩ := ih below.2 inside.2 later
    -- The rest does the same after the run one by one, whose rows are in another order.
    generalize (Run.drive job (Run.fresh group w) (schedules.headD [])).world = ran₁ at ran ran' rows
    obtain ⟨tree, before⟩ := ran₁
    rw [oneByOne_rows, Prod.mk.injEq] at ran'
    obtain ⟨result', rfl⟩ := ran'
    have last := job.oneByOne_rows rest.flatten tree rows₁
    rw [result'] at last
    refine ⟨_, _, job.oneByOne_append ran last, tree', rows'.trans (rows.append_right _), skips.append skips'⟩

omit [DecidableEq K] in
/-- The root and then the runs are the root and then the plan; all of it is below the source, and each
run is one entry, or files of the plan that can go together. -/
theorem tree_runs (fold : Bytes → Bytes) {plan : List PlanEntry}
    (below : ∀ pe ∈ plan, job.source.segments <+: pe.entry.path.segments) :
    ([job.top] :: runs fold job.opts.onCollision (plan.map PlanEntry.entry)).flatten = job.top :: plan.map PlanEntry.entry ∧
    ∀ group ∈ [job.top] :: runs fold job.opts.onCollision (plan.map PlanEntry.entry),
      (∀ e ∈ group, job.source.segments <+: e.path.segments) ∧ ((∃ e, group = [e]) ∨
        (job.opts.onCollision ≠ .renameAuto ∧ FilesApart fold group ∧ ∀ e ∈ group, e ∈ plan.map PlanEntry.entry)) := by
  obtain ⟨whole, cut⟩ := runs_cut fold job.opts.onCollision (plan.map PlanEntry.entry)
  refine ⟨by rw [List.flatten_cons, whole]; rfl, List.forall_mem_cons.mpr ⟨⟨fun e member => ?_, .inl ⟨_, rfl⟩⟩, fun group run => ?_⟩⟩
  · obtain rfl := List.mem_singleton.mp member
    exact List.prefix_rfl
  · have planned {e : Entry} (member : e ∈ group) : e ∈ plan.map PlanEntry.entry := by
      rw [← whole]
      exact List.mem_flatten.mpr ⟨group, run, member⟩
    refine ⟨fun e member => ?_, (cut group run).imp_right fun ⟨sure, apart, _⟩ => ⟨sure, apart, fun e => planned⟩⟩
    obtain ⟨pe, inside, rfl⟩ := List.mem_map.mp (planned member)
    exact below pe inside

/-- A tree that was copied, in whatever order the calls of each run were answered, is as it is copied
one entry after another: the same destination, the same rows and the same files skipped. -/
theorem copyTree_sequential {fold : Bytes → Bytes} (folds : job.Folds fold) {plan : List PlanEntry}
    (below : ∀ pe ∈ plan, job.source.segments <+: pe.entry.path.segments)
    (undisturbed : job.Undisturbed (plan.map PlanEntry.entry)) {schedules : List (List Choice)} {w w' : World K}
    {skipped : List VPath} (copied : job.copyTree fold plan schedules w = (some (.ok skipped), w')) :
    ∃ skipped' w'', job.copyOneByOne (job.top :: plan.map PlanEntry.entry) w = (.ok skipped', w'') ∧ w''.tree = w'.tree ∧
      w'.rows.Perm w''.rows ∧ skipped.Perm skipped' := by
  obtain ⟨whole, cut⟩ := job.tree_runs fold below
  rw [← whole]
  exact job.copyRuns_sequential folds undisturbed (fun group run => (cut group run).1) (fun group run => (cut group run).2) copied

/-! The sample is two files together, one of which replaces an older one. -/

def samplePlan : List PlanEntry :=
  [⟨Run.sampleFile, .real⟩, ⟨⟨(Run.sampleJob .fail).source.join (Run.sampleSegment 0x64 rfl), .file, none, none⟩, .real⟩]

def sampleOlder : World VPath :=
  ⟨fun p => if p = (Run.sampleJob .newer).targetOf Run.sampleFile then some ⟨.file, [], some 3⟩ else none, []⟩

def sampleMixed : List (List Choice) :=
  [[.take, .pass none, .call 0 none, .call 0 none, .call 0 none, .land 0],
    [.take, .pass none, .take, .pass none, .call 0 none, .call 1 none, .call 1 none, .call 0 none, .call 1 none, .land 1,
      .call 0 none, .call 0 none, .call 0 none, .land 0]]

theorem runs_samplePlan : runs id .newer (samplePlan.map PlanEntry.entry) = [samplePlan.map PlanEntry.entry] := by
  have ends : runEnd id filesPerRun [] (samplePlan.map PlanEntry.entry) = 2 := by decide
  simp only [samplePlan, List.map_cons, List.map_nil] at ends ⊢
  rw [runs, if_pos (by decide), ends]
  simp only [List.take_succ_cons, List.take_zero, List.drop_succ_cons, List.drop_zero, runs]

theorem sample_folds (policy : CollisionPolicy) : (Run.sampleJob policy).Folds id :=
  fun _ _ same => congrArg (fun r : VPath => r.segments.map Segment.bytes) same

theorem sample_copied : ((Run.sampleJob .newer).copyTree id samplePlan sampleMixed sampleOlder).1 = some (.ok []) := by
  rw [copyTree]
  simp only [runs_samplePlan, Run.sampleJob]
  decide

theorem copyTree_sequential_mixed : ∃ w' skipped' w'',
    (Run.sampleJob .newer).copyTree id samplePlan sampleMixed sampleOlder = (some (.ok []), w') ∧
    (Run.sampleJob .newer).copyOneByOne ((Run.sampleJob .newer).top :: samplePlan.map PlanEntry.entry) sampleOlder =
      (.ok skipped', w'') ∧ w''.tree = w'.tree ∧ w'.rows.Perm w''.rows ∧ [].Perm skipped' := by
  obtain ⟨skipped', w'', ran, same⟩ := (Run.sampleJob .newer).copyTree_sequential (sample_folds _) (by decide)
    (fun _ _ _ _ _ _ => rfl) (Prod.ext sample_copied rfl)
  exact ⟨_, skipped', w'', Prod.ext sample_copied rfl, ran, same⟩

end Job

end Norte.Transfer
