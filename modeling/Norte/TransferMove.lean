import Norte.TransferHeld

/-! A move is a copy and then the removal of what was copied. Whatever fails, and at any moment,
nothing is gone from the source but what the destination holds by then. -/
namespace Norte.Transfer

open Sync (Entry EntryKind)

/-- What became of one removal: it was not begun, the provider reported an error, whether or not it
was applied, the row failed, or it is done. -/
inductive Fate where
  | refused (error : Error)
  | failed (error : Error) (applied : Bool)
  | untold (error : Error)
  | gone
  deriving DecidableEq

variable {K : Type} [DecidableEq K] (job : Job K) (home : VPath → K)

def World.without (w : World K) (k : K) : World K := { w with tree := Function.update w.tree k none }

/-- What of the plan stays: what belongs to the target of a link, what was skipped, and what has
something in it that was. -/
def keep (skipped : List VPath) (pe : PlanEntry) : Bool :=
  match pe.provenance with
  | .viaLink => true
  | .linkRoot => skipped.any fun s => isDescendant s pe.entry.path
  | .real => skipped.contains pe.entry.path ||
      (decide (pe.entry.kind = .dir) && skipped.any fun s => isDescendant s pe.entry.path)

/-- Where a stage writes, if it does, and whether it may look for a new name. -/
def Stage.Aims (P : VPath → Prop) (renames : Prop) : Stage → Prop
  | write target | written target => P target
  | candidate _ => renames
  | probe | look | clear | cleared | ended _ => True

namespace Job

/-- The paths in the order of their removal, and whether each stays; the root is the last. -/
def farewells (skipped : List VPath) (plan : List PlanEntry) : List (VPath × Bool) :=
  plan.reverse.map (fun pe => (pe.entry.path, keep skipped pe)) ++ [(job.source, !skipped.isEmpty)]

def removeAll : List (VPath × Bool) → List Fate → World K → Option (Except Error Unit) × World K
  | [], _, w => (some (.ok ()), w)
  | _ :: _, [], w => (none, w)
  | _ :: _, .refused e :: _, w => (some (.error e), w)
  | (_, true) :: rest, _ :: fates, w => removeAll rest fates w
  | (path, false) :: _, .failed e applied :: _, w => (some (.error e), if applied then w.without (home path) else w)
  | (path, false) :: _, .untold e :: _, w => (some (.error e), w.without (home path))
  | (path, false) :: rest, .gone :: fates, w =>
    removeAll rest fates { w.without (home path) with rows := w.rows ++ [.removed path] }

/-- What is copied for a move: a root and its plan, or one leaf. -/
def movedRuns (fold : Bytes → Bytes) (leaf : Entry) : Option (List PlanEntry) → List (List Entry)
  | some plan => [job.top] :: runs fold job.opts.onCollision (plan.map PlanEntry.entry)
  | none => [[leaf]]

def moveByCopy (fold : Bytes → Bytes) (leaf : Entry) (plan : Option (List PlanEntry)) (schedules : List (List Choice))
    (fates : List Fate) (w : World K) : Option (Except Error Unit) × World K :=
  match job.copyRuns (job.movedRuns fold leaf plan) schedules w with
  | (some (.ok skipped), now) => removeAll home (job.farewells skipped (plan.getD [])) fates now
  | (some (.error e), now) => (some (.error e), now)
  | (none, now) => (none, now)

/-! ### The copy touches nothing else -/

/-- A flight on its way to one of the names of its entry. -/
structure Aimed (f : Flight) : Prop where
  target : f.target = job.targetOf f.entry
  goes : f.stage.Aims (job.Goes f.entry) (job.opts.onCollision = .renameAuto)

omit [DecidableEq K] in
theorem board_aimed (e : Entry) : job.Aimed (job.board e (job.targetOf e)) := by
  unfold board
  split
  · exact ⟨rfl, True.intro⟩
  · exact ⟨rfl, True.intro⟩
  · split <;> exact ⟨rfl, True.intro⟩
  · exact ⟨rfl, True.intro⟩

omit [DecidableEq K] in
theorem look_aimed {f : Flight} (aimed : f.target = job.targetOf f.entry) (existing : Option Thing) :
    job.Aimed { f with stage := job.look f existing } := by
  refine ⟨aimed, ?_⟩
  rcases job.look_cases (rfl : job.look f existing = _) with ⟨e, failed⟩ | ⟨writes, -⟩ | ⟨done, -⟩ |
    ⟨-, skipped | ⟨clear, -⟩ | ⟨renames, policy⟩⟩
  · simp only [failed, Stage.Aims]
  · simp only [writes]
    exact .inl aimed
  · simp only [done, Stage.Aims]
  · simp only [skipped, Stage.Aims]
  · simp only [clear, Stage.Aims]
  · simp only [renames]
    exact policy

/-- A call changes at most a place of one of the entry's names. -/
theorem call_aimed {f : Flight} (aimed : job.Aimed f) (w : World K) : job.Aimed (job.call f w).1 ∧
    ∀ k, (∀ p, job.Goes f.entry p → job.place p ≠ k) → (job.call f w).2.tree k = w.tree k := by
  obtain ⟨target, stays⟩ := aimed
  have own : job.Goes f.entry f.target := .inl target
  cases stage : f.stage with
  | probe =>
    simp only [call, stage]
    cases f.payload with
    | link bytes => cases job.readLink w.tree f.entry.path <;> exact ⟨⟨target, True.intro⟩, fun _ _ => rfl⟩
    | _ => cases job.read w.tree f.entry.path <;> exact ⟨⟨target, True.intro⟩, fun _ _ => rfl⟩
  | look =>
    simp only [call, stage]
    exact ⟨job.look_aimed target _, fun _ _ => trivial⟩
  | candidate n =>
    rw [stage] at stays
    simp only [call, stage]
    split
    · exact ⟨⟨target, True.intro⟩, fun _ _ => rfl⟩
    · cases named : candidateAt f.target n with
      | error e => exact ⟨⟨target, True.intro⟩, fun _ _ => rfl⟩
      | ok path =>
        simp only
        split
        · exact ⟨⟨target, .inr ⟨stays, n, by rw [← target]; exact named⟩⟩, fun _ _ => rfl⟩
        · exact ⟨⟨target, stays⟩, fun _ _ => rfl⟩
  | clear =>
    simp only [call, stage]
    exact ⟨⟨target, True.intro⟩, fun k away => Function.update_of_ne (away _ own).symm ..⟩
  | cleared =>
    simp only [call, stage]
    exact ⟨⟨target, own⟩, fun _ _ => trivial⟩
  | write path =>
    rw [stage] at stays
    simp only [call, stage]
    split
    · refine ⟨⟨target, ?_⟩, fun _ _ => rfl⟩
      unfold taken
      repeat' split
      all_goals exact True.intro
    · split
      · exact ⟨⟨target, True.intro⟩, fun _ _ => rfl⟩
      · exact ⟨⟨target, stays⟩, fun k away => Function.update_of_ne (away _ stays).symm ..⟩
  | written path =>
    simp only [call, stage]
    exact ⟨⟨target, True.intro⟩, fun _ _ => trivial⟩
  | ended result =>
    simp only [call, stage]
    exact ⟨⟨target, by simp only [stage, Stage.Aims]⟩, fun _ _ => trivial⟩

theorem advance_aimed {f : Flight} (aimed : job.Aimed f) (fault : Option Fault) (w : World K) :
    job.Aimed (job.advance fault f w).1 ∧ (∀ k, (∀ p, job.Goes f.entry p → job.place p ≠ k) →
      (job.advance fault f w).2.tree k = w.tree k) ∧ ∃ more, (job.advance fault f w).2.rows = w.rows ++ more := by
  obtain ⟨next, away⟩ := job.call_aimed aimed w
  have rows := congrArg (·.2.rows) (job.call_rows f w.tree w.rows)
  unfold advance
  split
  · exact ⟨aimed, fun _ _ => rfl, [], (List.append_nil _).symm⟩
  · exact ⟨⟨aimed.target, True.intro⟩, fun _ _ => rfl, [], (List.append_nil _).symm⟩
  · exact ⟨⟨aimed.target, True.intro⟩, away, _, rows⟩
  · exact ⟨next, away, _, rows⟩

/-- What holds of a run of some of the entries at any moment. -/
structure Confined (entries : List Entry) (w : World K) (s : Run K) : Prop where
  inside : ∀ e ∈ s.gate.toList ++ s.pending, e ∈ entries
  aimed : ∀ f ∈ s.flights, f.entry ∈ entries ∧ job.Aimed f
  still : ∀ k, job.Elsewhere entries k → s.world.tree k = w.tree k
  rows : ∃ more, s.world.rows = w.rows ++ more

variable {job} {home} {entries : List Entry} {w : World K}

theorem Confined.step {s s' : Run K} {c : Choice} (confined : job.Confined entries w s) (steps : Run.Steps job s c s') :
    job.Confined entries w s' := by
  obtain ⟨inside, aimed, still, rows⟩ := confined
  cases steps with
  | idle => exact ⟨inside, aimed, still, rows⟩
  | take gate pending =>
    refine ⟨?_, aimed, still, rows⟩
    simpa [gate, pending] using inside
  | refuse gate => exact ⟨fun e member => inside e (List.mem_append_right _ member), aimed, still, rows⟩
  | @pass e gate =>
    refine ⟨fun e member => inside e (List.mem_append_right _ member), fun f member => ?_, still, rows⟩
    rcases List.mem_append.mp member with before | now
    · exact aimed f before
    · obtain rfl := List.mem_singleton.mp now
      rw [Run.board_entry]
      exact ⟨inside e (List.mem_append_left _ (by simp [gate])), job.board_aimed e⟩
  | @call i fault before after f here at_ =>
    have mine := aimed f (by rw [here]; simp)
    obtain ⟨next, away, more, rows'⟩ := job.advance_aimed mine.2 fault s.world
    refine ⟨inside, fun g member => ?_, fun k else_ => ?_, ?_⟩
    · rcases List.mem_append.mp member with first | later
      · exact aimed g (by rw [here]; exact List.mem_append_left _ first)
      · rcases List.mem_cons.mp later with rfl | last
        · rw [Run.advance_entry]
          exact ⟨mine.1, next⟩
        · exact aimed g (by rw [here]; exact List.mem_append_right _ (List.mem_cons_of_mem _ last))
    · exact (away k (else_ f.entry mine.1)).trans (still k else_)
    · obtain ⟨so, told⟩ := rows
      exact ⟨so ++ more, by rw [rows', told, List.append_assoc]⟩
  | @land i before after f result here stage =>
    obtain ⟨flights, gate, pending, world, -⟩ := Run.land_eq { s with flights := before ++ after } f result
    refine ⟨by rw [gate, pending]; exact inside, fun g member => ?_, by rw [world]; exact still, by rw [world]; exact rows⟩
    rw [flights] at member
    apply aimed g
    rw [here]
    rcases List.mem_append.mp member with first | last
    · exact List.mem_append_left _ first
    · exact List.mem_append_right _ (List.mem_cons_of_mem _ last)

theorem drive_confined (job : Job K) {group : List Entry} (inside : ∀ e ∈ group, e ∈ entries) (w : World K) (schedule : List Choice) :
    job.Confined entries w (Run.drive job (Run.fresh group w) schedule) := by
  have start : job.Confined entries w (Run.fresh group w) :=
    ⟨inside, fun f member => (List.not_mem_nil member).elim, fun _ _ => rfl, [], (List.append_nil _).symm⟩
  exact Run.drive_induct start (fun _ _ _ held steps => held.step steps) schedule

/-- A copy, however far it came, changed no place but those its entries go to. -/
theorem copyRuns_confined {groups : List (List Entry)} (inside : ∀ group ∈ groups, ∀ e ∈ group, e ∈ entries)
    (schedules : List (List Choice)) (w : World K) : (∀ k, job.Elsewhere entries k →
      (job.copyRuns groups schedules w).2.tree k = w.tree k) ∧ ∃ more, (job.copyRuns groups schedules w).2.rows = w.rows ++ more := by
  induction groups generalizing schedules w with
  | nil => exact ⟨fun _ _ => rfl, [], (List.append_nil _).symm⟩
  | cons group rest ih =>
    rw [List.forall_mem_cons] at inside
    have confined := drive_confined job inside.1 w (schedules.headD [])
    simp only [copyRuns]
    split
    · split
      · exact ⟨confined.still, confined.rows⟩
      · obtain ⟨still, more, rows⟩ := ih inside.2 schedules.tail (Run.drive job (Run.fresh group w) (schedules.headD [])).world
        have both : (∀ k, job.Elsewhere entries k → (job.copyRuns rest schedules.tail
            (Run.drive job (Run.fresh group w) (schedules.headD [])).world).2.tree k = w.tree k) ∧
            ∃ more, (job.copyRuns rest schedules.tail (Run.drive job (Run.fresh group w) (schedules.headD [])).world).2.rows =
              w.rows ++ more := by
          refine ⟨fun k away => (still k away).trans (confined.still k away), ?_⟩
          obtain ⟨so, told⟩ := confined.rows
          exact ⟨so ++ more, by rw [rows, told, List.append_assoc]⟩
        split
        · rename_i skipped now later
          rw [later] at both
          exact both
        · exact both
    · exact ⟨confined.still, confined.rows⟩

/-! ### The removal -/

/-- What is gone stood at one of these paths, and rows were only added. -/
structure Gone (home : VPath → K) (paths : List VPath) (w w' : World K) : Prop where
  rows : ∃ more, w'.rows = w.rows ++ more
  tree : ∀ k, w'.tree k ≠ w.tree k → w'.tree k = none ∧ ∃ path ∈ paths, home path = k

omit [DecidableEq K] in
theorem Gone.refl (paths : List VPath) (w : World K) : Gone home paths w w :=
  ⟨⟨[], (List.append_nil _).symm⟩, fun _ changed => absurd rfl changed⟩

theorem Gone.without {paths : List VPath} {path : VPath} (member : path ∈ paths) (w : World K) {rows : List Mutation}
    (more : ∃ more, rows = w.rows ++ more) : Gone home paths w ⟨(w.without (home path)).tree, rows⟩ := by
  refine ⟨more, fun k changed => ?_⟩
  by_cases at_ : k = home path
  · exact ⟨by simp [World.without, at_], path, member, at_.symm⟩
  · exact absurd (Function.update_of_ne at_ ..) changed

omit [DecidableEq K] in
theorem Gone.trans {paths : List VPath} {w w' w'' : World K} (first : Gone home paths w w') (second : Gone home paths w' w'') :
    Gone home paths w w'' := by
  obtain ⟨more, rows⟩ := first.rows
  obtain ⟨more', rows'⟩ := second.rows
  refine ⟨⟨more ++ more', by rw [rows', rows, List.append_assoc]⟩, fun k changed => ?_⟩
  by_cases later : w''.tree k = w'.tree k
  · rw [later] at changed ⊢
    exact first.tree k changed
  · exact second.tree k later

omit [DecidableEq K] in
theorem Gone.mono {paths paths' : List VPath} {w w' : World K} (gone : Gone home paths w w') (sub : paths ⊆ paths') :
    Gone home paths' w w' :=
  ⟨gone.rows, fun k changed => (gone.tree k changed).imp_right fun ⟨path, member, at_⟩ => ⟨path, sub member, at_⟩⟩

/-- Nothing goes but what was not to stay, however far the removal comes. -/
theorem removeAll_gone (leaving : List (VPath × Bool)) (fates : List Fate) (w : World K) :
    Gone home ((leaving.filter fun f => !f.2).map Prod.fst) w (removeAll home leaving fates w).2 := by
  induction leaving generalizing fates w with
  | nil => exact .refl _ w
  | cons f rest ih =>
    obtain ⟨path, kept⟩ := f
    cases fates with
    | nil => exact .refl _ w
    | cons fate fates =>
    cases kept with
    | true =>
      cases fate with
      | refused error => exact .refl _ w
      | _ => exact ih fates w
    | false =>
      have member : path ∈ (((path, false) :: rest).filter fun f => !f.2).map Prod.fst := by simp
      have sub : (rest.filter fun f => !f.2).map Prod.fst ⊆ (((path, false) :: rest).filter fun f => !f.2).map Prod.fst := by simp
      cases fate with
      | refused error => exact .refl _ w
      | failed error applied =>
        cases applied with
        | true => exact .without member w ⟨[], (List.append_nil _).symm⟩
        | false => exact .refl _ w
      | untold error => exact .without member w ⟨[], (List.append_nil _).symm⟩
      | gone =>
        have first : Gone home _ w ⟨(w.without (home path)).tree, w.rows ++ [.removed path]⟩ := .without member w ⟨_, rfl⟩
        exact first.trans ((ih fates _).mono sub)

/-! ### Nothing is lost -/

/-- What may go of the plan: nothing seen through a link, nothing that was skipped, and no directory
in which something was. -/
structure MayGo (skipped : List VPath) (pe : PlanEntry) : Prop where
  own : pe.provenance ≠ .viaLink
  copied : pe.provenance = .real → pe.entry.path ∉ skipped
  empty : pe.entry.kind = .dir → ∀ s ∈ skipped, isDescendant s pe.entry.path = false

theorem mayGo_of_keep {skipped : List VPath} {pe : PlanEntry} (kept : keep skipped pe = false) : MayGo skipped pe := by
  unfold keep at kept
  split at kept
  · cases kept
  · rename_i link
    refine ⟨by simp [link], by simp [link], fun _ s member => ?_⟩
    rw [List.any_eq_false] at kept
    exact Bool.not_eq_true _ ▸ kept s member
  · rename_i real
    rw [Bool.or_eq_false_iff] at kept
    refine ⟨by simp [real], fun _ => by simpa using kept.1, fun dir s member => ?_⟩
    simp only [dir, decide_true, Bool.true_and, List.any_eq_false] at kept
    exact Bool.not_eq_true _ ▸ kept.2 s member

/-- What a move copies: the root and its plan, or the one leaf. -/
def movedEntries (job : Job K) (leaf : Entry) : Option (List PlanEntry) → List Entry
  | some plan => job.top :: plan.map PlanEntry.entry
  | none => [leaf]

/-- A plan as the walk makes it: everything is below the root, and what is expanded of a link is a
directory. -/
structure Walked (job : Job K) (leaf : Entry) (plan : Option (List PlanEntry)) : Prop where
  root : leaf.path = job.source
  below : ∀ pe ∈ plan.getD [], job.source.segments <+: pe.entry.path.segments
  links : ∀ pe ∈ plan.getD [], pe.provenance = .linkRoot → pe.entry.kind = .dir

variable {fold : Bytes → Bytes} {leaf : Entry} {plan : Option (List PlanEntry)}

omit [DecidableEq K] in
theorem movedRuns_flatten (fold : Bytes → Bytes) (leaf : Entry) (plan : Option (List PlanEntry)) :
    (job.movedRuns fold leaf plan).flatten = job.movedEntries leaf plan := by
  cases plan with
  | none => rfl
  | some plan => rw [movedRuns, List.flatten_cons, (runs_cut fold job.opts.onCollision _).1]; rfl

omit [DecidableEq K] in
theorem mem_movedEntries {pe : PlanEntry} (member : pe ∈ plan.getD []) : pe.entry ∈ job.movedEntries leaf plan := by
  cases plan with
  | none => cases member
  | some plan => exact List.mem_cons_of_mem _ (List.mem_map_of_mem member)

omit [DecidableEq K] in
theorem Walked.source_mem (walked : job.Walked leaf plan) : ∃ e ∈ job.movedEntries leaf plan, e.path = job.source := by
  cases plan with
  | none => exact ⟨leaf, List.mem_singleton.mpr rfl, walked.root⟩
  | some plan => exact ⟨job.top, List.mem_cons_self, rfl⟩

omit [DecidableEq K] in
theorem Walked.entry_below (walked : job.Walked leaf plan) {e : Entry} (member : e ∈ job.movedEntries leaf plan) :
    job.source.segments <+: e.path.segments := by
  cases plan with
  | none =>
    obtain rfl := List.mem_singleton.mp member
    rw [walked.root]
  | some plan =>
    rcases List.mem_cons.mp member with rfl | member
    · exact List.prefix_rfl
    · obtain ⟨pe, inside, rfl⟩ := List.mem_map.mp member
      exact walked.below pe inside

omit [DecidableEq K] in
/-- A path that goes is the root's, where nothing was skipped, or that of an entry that may go. -/
theorem mem_farewells {skipped : List VPath} {plan : List PlanEntry} {path : VPath}
    (member : path ∈ ((job.farewells skipped plan).filter fun f => !f.2).map Prod.fst) :
    (∃ pe ∈ plan, pe.entry.path = path ∧ MayGo skipped pe) ∨ (path = job.source ∧ skipped = []) := by
  obtain ⟨⟨path, kept⟩, inside, rfl⟩ := List.mem_map.mp member
  obtain ⟨inside, goes⟩ := List.mem_filter.mp inside
  rcases List.mem_append.mp inside with planned | root
  · obtain ⟨pe, there, same⟩ := List.mem_map.mp planned
    obtain ⟨rfl, rfl⟩ := Prod.mk.inj same
    exact .inl ⟨pe, List.mem_reverse.mp there, rfl, mayGo_of_keep (by simpa using goes)⟩
  · obtain ⟨rfl, rfl⟩ := Prod.mk.inj (List.mem_singleton.mp root)
    exact .inr ⟨rfl, by simpa using goes⟩

omit [DecidableEq K] in
theorem movedRuns_cut {group : List Entry} (run : group ∈ job.movedRuns fold leaf plan) : (∃ e, group = [e]) ∨
    (job.opts.onCollision ≠ .renameAuto ∧ FilesApart fold group) := by
  cases plan with
  | none => exact .inl ⟨leaf, List.mem_singleton.mp run⟩
  | some plan =>
    rcases List.mem_cons.mp run with rfl | run
    · exact .inl ⟨_, rfl⟩
    · exact ((runs_cut fold job.opts.onCollision _).2 group run).imp_right fun ⟨sure, apart, _⟩ => ⟨sure, apart⟩

omit [DecidableEq K] in
theorem Reads.undisturbed (reads : job.Reads entries) : job.Undisturbed entries := by
  intro now then_ same e member _
  apply (reads now then_ _ e member).1
  exact fun k away => same k fun e' member' => away e' member' _ (.inl rfl)

omit [DecidableEq K] in
theorem Held.perm {now now' : World K} {e : Entry} (held : job.Held w now e) (tree : now.tree = now'.tree)
    (rows : now'.rows.Perm now.rows) {added : List Mutation} (told : now'.rows = w.rows ++ added) : job.Held w now' e := by
  obtain ⟨target, thing, more, goes, made, at_, told', row⟩ := held
  rw [told, told', List.perm_append_left_iff] at rows
  exact ⟨target, thing, added, goes, made, tree ▸ at_, told, rows.mem_iff.mpr row⟩

omit [DecidableEq K] in
theorem movedRuns_inside (job : Job K) (fold : Bytes → Bytes) (leaf : Entry) (plan : Option (List PlanEntry)) :
    ∀ group ∈ job.movedRuns fold leaf plan, ∀ e ∈ group, e ∈ job.movedEntries leaf plan := by
  intro group run e member
  rw [← movedRuns_flatten fold]
  exact List.mem_flatten.mpr ⟨group, run, member⟩

/-- After the copy each leaf was skipped or is held by the destination. -/
theorem copied_held (folds : job.Folds fold) (walked : job.Walked leaf plan) (reads : job.Reads (job.movedEntries leaf plan))
    (distinct : job.Distinct (job.movedEntries leaf plan))
    {schedules : List (List Choice)} {now : World K} {skipped : List VPath}
    (copied : job.copyRuns (job.movedRuns fold leaf plan) schedules w = (some (.ok skipped), now)) :
    ∀ e ∈ job.movedEntries leaf plan, Leaf e → e.path ∈ skipped ∨ job.Held w now e := by
  have inside := job.movedRuns_inside fold leaf plan
  obtain ⟨-, added, rows⟩ := copyRuns_confined inside schedules w
  rw [copied] at rows
  obtain ⟨skipped', last, ran, tree, rows', skips⟩ := job.copyRuns_sequential folds reads.undisturbed
    (fun group run e member => walked.entry_below (inside group run e member))
    (fun group run => (movedRuns_cut run).imp_right fun ⟨sure, apart⟩ => ⟨sure, apart, inside group run⟩) copied
  rw [movedRuns_flatten] at ran
  have leaves : job.Leaves w w last _ _ skipped' :=
    oneByOne_leaves reads (fun _ member => member) distinct (fun _ _ => rfl) (List.append_nil _).symm ran
  exact fun e member leaf_ => (leaves.each e member leaf_).imp skips.mem_iff.mpr fun held => held.perm tree rows' rows

/-- What may be gone of the source at a place: an entry that may go, or the root after nothing was
skipped. The destination holds it, if it is a leaf, and with the root all the leaves. -/
def Backed (job : Job K) (home : VPath → K) (leaf : Entry) (plan : Option (List PlanEntry)) (skipped : List VPath)
    (w now : World K) (k : K) : Prop :=
  (∃ pe ∈ plan.getD [], home pe.entry.path = k ∧ MayGo skipped pe ∧ (Leaf pe.entry → job.Held w now pe.entry)) ∨
    (home job.source = k ∧ skipped = [] ∧ ∀ e ∈ job.movedEntries leaf plan, Leaf e → job.Held w now e)

/-- Where the destination holds the leaves once they are copied, it does so when they are gone. -/
theorem moved_backed (walked : job.Walked leaf plan)
    (apart : ∀ e ∈ job.movedEntries leaf plan, ∀ p, job.Goes e p → ∀ e' ∈ job.movedEntries leaf plan, job.place p ≠ home e'.path)
    (schedules : List (List Choice)) (fates : List Fate) (w : World K)
    (copies : ∀ skipped now, job.copyRuns (job.movedRuns fold leaf plan) schedules w = (some (.ok skipped), now) →
      ∀ e ∈ job.movedEntries leaf plan, Leaf e → e.path ∈ skipped ∨ job.Held w now e) (k : K)
    (source : job.Elsewhere (job.movedEntries leaf plan) k)
    (changed : (job.moveByCopy home fold leaf plan schedules fates w).2.tree k ≠ w.tree k) :
    (job.moveByCopy home fold leaf plan schedules fates w).2.tree k = none ∧ ∃ skipped,
      (job.copyRuns (job.movedRuns fold leaf plan) schedules w).1 = some (.ok skipped) ∧
      job.Backed home leaf plan skipped w (job.moveByCopy home fold leaf plan schedules fates w).2 k := by
  obtain ⟨still, -⟩ := copyRuns_confined (job.movedRuns_inside fold leaf plan) schedules w
  unfold moveByCopy at changed ⊢
  generalize copied : job.copyRuns (job.movedRuns fold leaf plan) schedules w = came at still changed copies
  obtain ⟨result, now⟩ := came
  match result with
  | none => exact absurd (still k source) changed
  | some (.error e) => exact absurd (still k source) changed
  | some (.ok skipped) =>
    simp only at changed ⊢
    have gone : Gone home _ now _ := removeAll_gone (job.farewells skipped (plan.getD [])) fates now
    have held := copies skipped now rfl
    -- The removal leaves the destination alone.
    have stays {e : Entry} (there : job.Held w now e) (member : e ∈ job.movedEntries leaf plan) :
        job.Held w (removeAll home (job.farewells skipped (plan.getD [])) fates now).2 e := by
      obtain ⟨target, thing, more, goes, made, at_, told, row⟩ := there
      obtain ⟨later, rows'⟩ := gone.rows
      refine ⟨target, thing, more ++ later, goes, made, ?_, by rw [rows', told, List.append_assoc], List.mem_append_left _ row⟩
      by_cases same : (removeAll home (job.farewells skipped (plan.getD [])) fates now).2.tree (job.place target) =
          now.tree (job.place target)
      · rw [same, at_]
      · obtain ⟨-, path, leaving, here⟩ := gone.tree _ same
        rcases mem_farewells leaving with ⟨pe, planned, rfl, -⟩ | ⟨rfl, -⟩
        · exact absurd here.symm (apart e member target goes pe.entry (mem_movedEntries planned))
        · obtain ⟨root, inside', at_root⟩ := walked.source_mem
          exact absurd (at_root ▸ here.symm) (apart e member target goes root inside')
    obtain ⟨empty, path, leaving, here⟩ := gone.tree k (fun same => changed (same.trans (still k source)))
    refine ⟨empty, skipped, rfl, ?_⟩
    rcases mem_farewells leaving with ⟨pe, planned, rfl, mayGo⟩ | ⟨rfl, none_⟩
    · refine .inl ⟨pe, planned, here, mayGo, fun leaf_ => stays ?_ (mem_movedEntries planned)⟩
      have real : pe.provenance = .real := by
        cases provenance : pe.provenance with
        | real => rfl
        | viaLink => exact absurd provenance mayGo.own
        | linkRoot => exact absurd (walked.links pe planned provenance) leaf_
      exact (held pe.entry (mem_movedEntries planned) leaf_).resolve_left (mayGo.copied real)
    · refine .inr ⟨here, none_, fun e member leaf_ => stays ?_ member⟩
      exact (held e member leaf_).resolve_left (by simp [none_])

def sampleMoved : World VPath where
  tree p := if p = (Run.sampleJob .newer).targetOf Run.sampleFile ∨ p = Run.sampleFile.path then some ⟨.file, [], some 3⟩ else none
  rows := []

def sampleMove : Option (Except Error Unit) × World VPath :=
  (Run.sampleJob .newer).moveByCopy id id (Run.sampleJob .newer).top (some samplePlan) sampleMixed
    [.gone, .untold .cancelled] sampleMoved

theorem sample_goes {policy : CollisionPolicy} (sure : policy ≠ .renameAuto) {e : Entry} {p : VPath}
    (goes : (Run.sampleJob policy).Goes e p) : p = (Run.sampleJob policy).targetOf e :=
  goes.resolve_right fun renames => sure renames.1

theorem sample_apart : ∀ e ∈ (Run.sampleJob .newer).movedEntries (Run.sampleJob .newer).top (some samplePlan),
    ∀ p, (Run.sampleJob .newer).Goes e p →
      ∀ e' ∈ (Run.sampleJob .newer).movedEntries (Run.sampleJob .newer).top (some samplePlan), p ≠ e'.path := by
  have apart : ∀ e ∈ (Run.sampleJob .newer).movedEntries (Run.sampleJob .newer).top (some samplePlan),
      ∀ e' ∈ (Run.sampleJob .newer).movedEntries (Run.sampleJob .newer).top (some samplePlan),
        (Run.sampleJob .newer).targetOf e ≠ e'.path := by decide
  intro e member p goes e' member'
  rw [sample_goes (by decide) goes]
  exact apart e member e' member'

theorem sample_changed : sampleMove.2.tree Run.sampleFile.path ≠ sampleMoved.tree Run.sampleFile.path := by
  simp only [sampleMove, moveByCopy, movedRuns]
  simp only [runs_samplePlan, Run.sampleJob]
  decide

end Job

end Norte.Transfer
