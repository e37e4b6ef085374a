import Norte.RenameExec

/-! Three tellers of one batch: the provider's effects, the journal's rows and the
report. Effects and rows are read off the history of a run, which no party sees. -/
namespace Norte.Rename

/-- A rename that took effect. -/
structure Effect where
  direction : Direction
  fromPath : VPath
  toPath : VPath
  deriving DecidableEq

/-- A row the journal wrote; its path is `toPath`, as the recorder stores it. -/
structure Row where
  direction : Direction
  fromPath : VPath
  toPath : VPath
  undoes : Option Int
  seq : Option Int
  deriving DecidableEq

def Event.effects : Event → List Effect
  | .rename direction fromPath toPath outcome =>
    if outcome.effect then [⟨direction, fromPath, toPath⟩] else []
  | _ => []

def Event.rows : Event → List Row
  | .renamed direction fromPath toPath undoes (.ok seq) => [⟨direction, fromPath, toPath, undoes, seq⟩]
  | _ => []

def effects (history : List Event) : List Effect := history.flatMap Event.effects
def rows (history : List Event) : List Row := history.flatMap Event.rows

@[simp] theorem effects_push (log : Log) (event : Event) :
    effects (log.push event).history = effects log.history ++ event.effects := by
  simp [effects, Log.push]

@[simp] theorem rows_push (log : Log) (event : Event) :
    rows (log.push event).history = rows log.history ++ event.rows := by
  simp [rows, Log.push]

@[simp] theorem push_report (log : Log) (event : Event) : (log.push event).report = log.report := rfl

/-! Probing changes nothing but the history's stats. -/

@[simp] theorem isFree_effects (b : Behaviour) (path : VPath) (log : Log) :
    effects (isFree b path log).2.history = effects log.history := by
  simp [isFree, stat, Event.effects]

@[simp] theorem isFree_rows (b : Behaviour) (path : VPath) (log : Log) :
    rows (isFree b path log).2.history = rows log.history := by
  simp [isFree, stat, Event.rows]

@[simp] theorem isFree_report (b : Behaviour) (path : VPath) (log : Log) :
    (isFree b path log).2.report = log.report := rfl

@[simp] theorem landed_effects (b : Behaviour) (s : PlannedStep) (log : Log) :
    effects (landed b s log).2.history = effects log.history := by
  simp [landed]

@[simp] theorem landed_rows (b : Behaviour) (s : PlannedStep) (log : Log) :
    rows (landed b s log).2.history = rows log.history := by
  simp [landed]

@[simp] theorem landed_report (b : Behaviour) (s : PlannedStep) (log : Log) :
    (landed b s log).2.report = log.report := rfl

/-- What the executor takes on trust of the call that comes after `h`: a forward rename that answers
an error of the closed list did nothing, two probes that settle one that answered another error
settle it truly, and a reversal that answers an error did nothing. -/
structure Trusted (b : Behaviour) (h : List Event) (event : Event) : Prop where
  believed : ∀ f t e, event = .rename .forward f t (.failedAfter e) → mayHaveApplied e
  probes : ∀ f t outcome e, event = .rename .forward f t outcome → outcome.error? = some e → mayHaveApplied e →
    let dest := b.stat (h ++ [event]) t
    let src := b.stat (h ++ [event] ++ [.stat t dest]) f
    (landedOf (freeOf dest) (freeOf src) = .yes → outcome.effect) ∧
    (landedOf (freeOf dest) (freeOf src) = .no → ¬outcome.effect)
  prompt : ∀ f t e, event ≠ .rename .back f t (.failedAfter e)

/-- Every call of a run is answered the way the executor takes it. -/
def Faithful (b : Behaviour) (history : List Event) : Prop :=
  ∀ h event, h ++ [event] <+: history → Trusted b h event

/-! A run only adds to its history. -/

theorem prefix_push (log : Log) (event : Event) : log.history <+: (log.push event).history := List.prefix_append _ _

theorem reverse_extends (b : Behaviour) (step : Applied) (log : Log) :
    log.history <+: (reverse b step log).2.history := by
  have probed : log.history <+: (isFree b step.fromPath log).2.history := prefix_push _ _
  simp only [reverse]
  split
  · exact probed.trans (prefix_push _ _)
  · exact probed
  · exact probed

theorem compensate_extends (b : Behaviour) (step : Applied) (log : Log) :
    log.history <+: (compensate b step log).history := by
  unfold compensate
  split
  · simp only
    split <;> exact prefix_push _ _
  · exact List.prefix_refl _

theorem unwind_extends (b : Behaviour) (applied : List Applied) (log : Log) :
    log.history <+: (unwind b applied log).2.history := by
  induction applied generalizing log with
  | nil => exact List.prefix_refl _
  | cons step applied ih =>
    rw [unwind]
    have back := reverse_extends b step log
    generalize reverse b step log = reversed at back
    obtain ⟨blocked, mid⟩ := reversed
    cases blocked with
    | some e => exact back
    | none =>
      refine (back.trans (compensate_extends b step mid)).trans ?_
      exact ih { compensate b step mid with report :=
        { (compensate b step mid).report with rolledBack := (compensate b step mid).report.rolledBack + 1 } }

theorem settle_extends (b : Behaviour) (s : PlannedStep) (e : Error) (applied : List Applied) (log : Log) :
    log.history <+: (settle b s e applied log).2.history := by
  have probed : log.history <+: (landed b s log).2.history := (prefix_push _ _).trans (prefix_push _ _)
  unfold settle
  split
  · simp only
    split <;> exact probed
  · exact List.prefix_refl _

/-- A reversal either answers an error or took effect. It writes no row. -/
theorem reverse_cases (b : Behaviour) (step : Applied) (log : Log) :
    rows (reverse b step log).2.history = rows log.history ∧
    (reverse b step log).2.report = log.report ∧
    ((reverse b step log).1 = none → effects (reverse b step log).2.history =
      effects log.history ++ [⟨.back, step.toPath, step.fromPath⟩]) ∧
    (Faithful b (reverse b step log).2.history → (reverse b step log).1 ≠ none →
      effects (reverse b step log).2.history = effects log.history) := by
  unfold reverse
  cases found : (isFree b step.fromPath log).1 with
  | error e => simp [found]
  | ok free =>
    cases free with
    | false => simp [found]
    | true =>
      simp only [found, rename]
      refine ⟨by simp [Event.rows], by simp, ?_, ?_⟩
      · intro none
        cases outcome : b.rename .back (isFree b step.fromPath log).2.history step.toPath step.fromPath with
        | done => simp [Event.effects, Outcome.effect]
        | failed e => simp [outcome, Outcome.error?] at none
        | failedAfter e => simp [outcome, Outcome.error?] at none
      · intro faithful some
        cases outcome : b.rename .back (isFree b step.fromPath log).2.history step.toPath step.fromPath with
        | done => simp [outcome, Outcome.error?] at some
        | failed e => simp [Event.effects, Outcome.effect]
        | failedAfter e =>
          have trusted := faithful _ _ (List.prefix_refl _)
          exact absurd (congrArg (Event.rename .back step.toPath step.fromPath) outcome) (trusted.prompt _ _ _)

/-- A row that takes back what the row of `a` says. -/
def Compensates (a : Applied) (r : Row) : Prop :=
  r.direction = .back ∧ r.fromPath = a.toPath ∧ r.toPath = a.fromPath ∧ r.undoes = a.seq

/-- The rows a rollback wrote for the steps it took back, and how many it owes. -/
def Paid (taken : List Applied) (before after : Log) (written : List Row) : Prop :=
  rows after.history = rows before.history ++ written ∧
    ∃ kept, kept.Sublist (taken.filter Applied.journalled) ∧ List.Forall₂ Compensates kept written ∧
      after.report.compensationsLost + kept.length =
        before.report.compensationsLost + (taken.filter Applied.journalled).length

theorem Paid.nothing (log : Log) : Paid [] log log [] :=
  ⟨(List.append_nil _).symm, [], List.Sublist.refl _, .nil, rfl⟩

theorem Paid.append {first second : List Applied} {start mid final : Log} {one two : List Row}
    (p : Paid first start mid one) (q : Paid second mid final two) :
    Paid (first ++ second) start final (one ++ two) := by
  obtain ⟨rowsP, keptP, subP, paysP, lostP⟩ := p
  obtain ⟨rowsQ, keptQ, subQ, paysQ, lostQ⟩ := q
  refine ⟨by rw [rowsQ, rowsP, List.append_assoc], keptP ++ keptQ, ?_, List.rel_append paysP paysQ, ?_⟩
  · rw [List.filter_append]
    exact subP.append subQ
  · rw [List.filter_append, List.length_append, List.length_append]
    omega

@[simp] theorem compensate_effects (b : Behaviour) (step : Applied) (log : Log) :
    effects (compensate b step log).history = effects log.history := by
  unfold compensate
  split
  · simp only [renamed]
    split <;> simp [Event.effects]
  · rfl

/-- Compensating touches one counter of the report. -/
theorem compensate_report (b : Behaviour) (step : Applied) (log : Log) :
    (compensate b step log).report = { log.report with
      compensationsLost := (compensate b step log).report.compensationsLost } := by
  unfold compensate
  split
  · simp only [renamed]
    split <;> rfl
  · rfl

theorem compensate_paid (b : Behaviour) (step : Applied) (log : Log) :
    ∃ written, Paid [step] log (compensate b step log) written := by
  unfold compensate
  by_cases journalled : step.journalled
  · simp only [journalled, ↓reduceIte, renamed]
    split
    next seq answered =>
      refine ⟨[⟨.back, step.toPath, step.fromPath, step.seq, seq⟩], ?_, [step], ?_, ?_, ?_⟩
      · simp [answered, Event.rows]
      · simp [journalled]
      · exact .cons ⟨rfl, rfl, rfl, rfl⟩ .nil
      · simp [journalled]
    next e answered =>
      refine ⟨[], ?_, [], by simp, .nil, ?_⟩
      · simp [answered, Event.rows]
      · simp [journalled]
  · simp only [journalled]
    exact ⟨[], by simp, [], by simp, .nil, by simp [journalled]⟩

/-- How far a rollback got, and what the report says of where it stopped. -/
structure Unwound (b : Behaviour) (applied : List Applied) (log : Log)
    (result : Option Error × Log) (undone left : List Applied) : Prop where
  split : applied = undone ++ left
  effects : Faithful b result.2.history →
    effects result.2.history = effects log.history ++
      undone.map fun a => ⟨.back, a.toPath, a.fromPath⟩
  paid : ∃ written, Paid undone log result.2 written
  finished : left = [] → result.1 = none ∧ result.2.report.stuck = log.report.stuck
  stopped : ∀ a rest, left = a :: rest → ∃ e, result.1 = some e ∧
    result.2.report.stuck = some (a.stuck e rest.length)
  uncertain : result.2.report.uncertain = log.report.uncertain
  applied : result.2.report.applied = log.report.applied
  failedPair : result.2.report.failedPair = log.report.failedPair
  rolledBack : result.2.report.rolledBack = log.report.rolledBack + undone.length

theorem unwind_unwound (b : Behaviour) (applied : List Applied) (log : Log) :
    ∃ undone left, Unwound b applied log (unwind b applied log) undone left := by
  induction applied generalizing log with
  | nil =>
    exact ⟨[], [], rfl, fun _ => by simp [unwind], ⟨[], .nothing log⟩, fun _ => ⟨rfl, rfl⟩,
      by simp, rfl, rfl, rfl, rfl⟩
  | cons step applied ih =>
    obtain ⟨rowsR, reportR, took, refused⟩ := reverse_cases b step log
    rw [unwind]
    generalize reverse b step log = reversed at rowsR reportR took refused
    obtain ⟨blocked, mid⟩ := reversed
    cases blocked with
    | some e =>
      refine ⟨[], step :: applied, rfl, ?_, ?_, by simp, ?_, ?_, ?_, ?_, ?_⟩
      · intro faithful
        simpa using refused faithful (by simp)
      · exact ⟨[], by simpa using rowsR, [], by simp, .nil, by simp [← reportR]⟩
      · rintro a rest ⟨⟩
        exact ⟨e, rfl, rfl⟩
      all_goals simp only at reportR ⊢; rw [reportR]
      rfl
    | none =>
      obtain ⟨written, rowsP, kept, sub, pays, lost⟩ := compensate_paid b step mid
      have report := compensate_report b step mid
      obtain ⟨undone, left, later⟩ := ih { compensate b step mid with report :=
        { (compensate b step mid).report with
          rolledBack := (compensate b step mid).report.rolledBack + 1 } }
      simp only at rowsR reportR took refused ⊢
      refine ⟨step :: undone, left, congrArg (step :: ·) later.split, ?_, ?_, ?_, ?_, ?_, ?_, ?_, ?_⟩
      · intro faithful
        rw [later.effects faithful]
        simp [took]
      · obtain ⟨more, paid⟩ := later.paid
        have first : Paid [step] log { compensate b step mid with report :=
            { (compensate b step mid).report with
              rolledBack := (compensate b step mid).report.rolledBack + 1 } } written :=
          ⟨by rw [rowsP, rowsR], kept, sub, pays, by rw [← reportR]; exact lost⟩
        exact ⟨_, first.append paid⟩
      · intro empty
        have same : (compensate b step mid).report.stuck = log.report.stuck := by rw [report, reportR]
        exact ⟨(later.finished empty).1, (later.finished empty).2.trans same⟩
      · exact later.stopped
      · rw [later.uncertain, report, reportR]
      · rw [later.applied, report, reportR]
      · rw [later.failedPair, report, reportR]
      · rw [later.rolledBack, report, reportR]
        simp [Nat.add_right_comm, Nat.add_assoc]

/-! Every event of a run is what the behaviour answers to the events before it. -/

inductive Answered (b : Behaviour) : List Event → Prop where
  | start : Answered b []
  | checked (before : Answered b h) : Answered b (h ++ [.checked (b.isCancelled h)])
  | rename (before : Answered b h) (d : Direction) (f t : VPath) :
      Answered b (h ++ [.rename d f t (b.rename d h f t)])
  | stat (before : Answered b h) (p : VPath) : Answered b (h ++ [.stat p (b.stat h p)])
  | renamed (before : Answered b h) (d : Direction) (f t : VPath) (u : Option Int) :
      Answered b (h ++ [.renamed d f t u (b.renamed d h f t u)])

theorem reverse_answered {b : Behaviour} (step : Applied) {log : Log}
    (answered : Answered b log.history) : Answered b (reverse b step log).2.history := by
  have probed : Answered b (isFree b step.fromPath log).2.history := answered.stat _
  simp only [reverse]
  split
  · exact probed.rename ..
  · exact probed
  · exact probed

theorem compensate_answered {b : Behaviour} (step : Applied) {log : Log}
    (answered : Answered b log.history) : Answered b (compensate b step log).history := by
  unfold compensate
  split
  · have written : Answered b (renamed b .back step.toPath step.fromPath step.seq log).2.history :=
      answered.renamed ..
    simp only
    split <;> exact written
  · exact answered

theorem unwind_answered {b : Behaviour} (applied : List Applied) {log : Log}
    (answered : Answered b log.history) : Answered b (unwind b applied log).2.history := by
  induction applied generalizing log with
  | nil => exact answered
  | cons step applied ih =>
    rw [unwind]
    have back := reverse_answered step answered
    generalize reverse b step log = reversed at back
    obtain ⟨blocked, mid⟩ := reversed
    cases blocked with
    | some e => exact back
    | none => exact ih (compensate_answered step back)

theorem settle_answered {b : Behaviour} (s : PlannedStep) (e : Error) (applied : List Applied)
    {log : Log} (answered : Answered b log.history) :
    Answered b (settle b s e applied log).2.history := by
  have probed : Answered b (landed b s log).2.history :=
    (answered.stat (b := b) s.toPath).stat s.fromPath
  unfold settle
  split
  · simp only
    split <;> exact probed
  · exact answered

theorem runFromStep_answered {b : Behaviour} (steps : List PlannedStep) (applied : List Applied)
    {log : Log} (answered : Answered b log.history) :
    Answered b (runFromStep b steps applied log).2.history := by
  induction steps generalizing applied log with
  | nil => exact answered
  | cons s steps ih =>
    have checked : Answered b (isCancelled b log).2.history := answered.checked
    have tried : Answered b (rename b .forward s.fromPath s.toPath (isCancelled b log).2).2.history :=
      checked.rename ..
    simp only [runFromStep]
    split
    · exact unwind_answered applied checked
    split
    · exact unwind_answered _ (settle_answered s _ applied tried)
    have written : Answered b (renamed b .forward s.fromPath s.toPath s.undoes
        (rename b .forward s.fromPath s.toPath (isCancelled b log).2).2).2.history :=
      tried.renamed ..
    split
    · exact ih _ written
    · exact unwind_answered _ written

theorem run_answered (b : Behaviour) (steps : List PlannedStep) :
    Answered b (run b steps).2.history :=
  runFromStep_answered steps [] .start

/-- The journal as recorder of a batch: every row gets a number above all it has seen,
and a step that undoes an entry names one older than the batch. -/
structure BatchRecorder (b : Behaviour) (steps : List PlannedStep) : Prop where
  records : b.records
  assigned : ∀ d h f t u seq, b.renamed d h f t u = .ok seq → ∃ q, seq = some q ∧
    (∀ r ∈ rows h, ∀ p, r.seq = some p → p < q) ∧
    ∀ s ∈ steps, ∀ v, s.undoes = some v → v < q

def PlannedStep.went (s : PlannedStep) : Effect := ⟨.forward, s.fromPath, s.toPath⟩
def PlannedStep.came (s : PlannedStep) : Effect := ⟨.back, s.toPath, s.fromPath⟩

def StuckStep.Names (t : StuckStep) (s : PlannedStep) : Prop :=
  t.fromPath = s.fromPath ∧ t.toPath = s.toPath ∧ t.pairIndex = s.pairIndex

/-- `a` is the step `s`, applied. -/
def Applied.Of (a : Applied) (s : PlannedStep) : Prop :=
  a.fromPath = s.fromPath ∧ a.toPath = s.toPath ∧ a.pairIndex = s.pairIndex

/-- `r` is the row of the applied step `a`. -/
def Row.Of (r : Row) (a : Applied) : Prop :=
  r.fromPath = a.fromPath ∧ r.toPath = a.toPath ∧ r.seq = a.seq

/-- `r` is the row the step `s` wrote on its way forward. -/
def Row.Records (r : Row) (s : PlannedStep) : Prop :=
  r.direction = .forward ∧ r.fromPath = s.fromPath ∧ r.toPath = s.toPath ∧ r.undoes = s.undoes

/-- `c` compensates `r`. -/
def Row.Compensates (c r : Row) : Prop :=
  c.direction = .back ∧ c.fromPath = r.toPath ∧ c.toPath = r.fromPath ∧ c.undoes = r.seq

/-- Where a batch stands between two steps, or with one more step that took effect and
has no row. -/
structure Going (b : Behaviour) (taken : List PlannedStep) (applied : List Applied) (log : Log) :
    Prop where
  steps : List.Forall₂ Applied.Of applied taken.reverse
  journalled : ∀ a ∈ applied.tail, a.journalled = b.records
  rows : b.records → List.Forall₂ Row.Of (rows log.history) (applied.filter Applied.journalled).reverse
  records : List.Forall₂ Row.Records (Rename.rows log.history) (taken.take log.report.applied)
  applied : log.report.applied ≤ taken.length
  stuck : log.report.stuck = none
  lost : log.report.compensationsLost = 0

/-- The report of a batch next to its steps: `kept` and `late` are in effect. -/
structure ReportTold (steps : List PlannedStep) (result : Except Error Unit × Log)
    (kept undone rest late : List PlannedStep) : Prop where
  split : steps = kept ++ undone ++ rest
  effects : effects result.2.history =
    (kept ++ undone ++ late).map PlannedStep.went ++ undone.reverse.map PlannedStep.came
  late : late = [] ∨ ∃ s tail, rest = s :: tail ∧ late = [s] ∧ result.2.report.uncertain.isSome
  complete : result.1 = .ok () → undone = [] ∧ rest = [] ∧
    result.2.report.stuck = none ∧ result.2.report.uncertain = none
  clean : result.1 ≠ .ok () → result.2.report.stuck = none → kept = []
  stuck : ∀ t, result.2.report.stuck = some t → t.stillApplied = kept.length ∧
    ∃ s, kept.getLast? = some s ∧ t.Names s
  uncertain : ∀ t, result.2.report.uncertain = some t → ∃ s tail, rest = s :: tail ∧ t.Names s

/-- The journal of a batch next to its steps: rows that stand, rows whose step came
back, and the compensations written for those. -/
structure JournalTold (result : Log) (kept undone : List PlannedStep)
    (standing reverted written : List Row) : Prop where
  rows : rows result.history = standing ++ reverted ++ written
  records : List.Forall₂ Row.Records (standing ++ reverted)
    ((kept ++ undone).take result.report.applied)
  standing : standing.length ≤ kept.length
  paid : ∃ paid, paid.Sublist reverted.reverse ∧ List.Forall₂ Row.Compensates written paid ∧
    result.report.compensationsLost + paid.length = reverted.length

theorem forall₂_trans {R : α → β → Prop} {S : β → γ → Prop} {T : α → γ → Prop}
    (link : ∀ a b c, R a b → S b c → T a c) {l : List α} {m : List β} {n : List γ}
    (first : List.Forall₂ R l m) (second : List.Forall₂ S m n) : List.Forall₂ T l n := by
  induction first generalizing n with
  | nil => cases second; exact .nil
  | cons here _ ih =>
    cases second with
    | cons there rest => exact .cons (link _ _ _ here there) (ih rest)

theorem forall₂_append_right {R : α → β → Prop} {l : List α} {m n : List β}
    (pairs : List.Forall₂ R l (m ++ n)) :
    ∃ l₁ l₂, l = l₁ ++ l₂ ∧ List.Forall₂ R l₁ m ∧ List.Forall₂ R l₂ n :=
  ⟨l.take m.length, l.drop m.length, (List.take_append_drop ..).symm,
    List.forall₂_take_append _ _ _ pairs, List.forall₂_drop_append _ _ _ pairs⟩

theorem forall₂_sublist {R : α → β → Prop} {l : List α} {m n : List β}
    (pairs : List.Forall₂ R l m) (part : n.Sublist m) :
    ∃ k, k.Sublist l ∧ List.Forall₂ R k n := by
  induction part generalizing l with
  | slnil => cases pairs; exact ⟨[], List.Sublist.refl _, .nil⟩
  | cons b _ ih =>
    cases pairs with
    | cons _ rest =>
      obtain ⟨k, sub, related⟩ := ih rest
      exact ⟨k, sub.cons _, related⟩
  | cons_cons b _ ih =>
    cases pairs with
    | cons here rest =>
      obtain ⟨k, sub, related⟩ := ih rest
      exact ⟨_, sub.cons_cons _, .cons here related⟩

theorem forall₂_map_eq {R : α → β → Prop} {f : α → γ} {g : β → γ} {l : List α} {m : List β}
    (same : ∀ a b, R a b → f a = g b) (pairs : List.Forall₂ R l m) : l.map f = m.map g := by
  induction pairs with
  | nil => rfl
  | cons here _ ih => rw [List.map_cons, List.map_cons, same _ _ here, ih]

/-- A rollback from a batch that has taken `taken` splits it into what stays and what
came back, and the report and the journal say so. -/
theorem going_unwind {b : Behaviour} {steps taken : List PlannedStep} (rest late : List PlannedStep)
    {applied : List Applied} {log : Log} (e : Error) (going : Going b taken applied log)
    (split : steps = taken ++ rest)
    (before : effects log.history = (taken ++ late).map PlannedStep.went)
    (faithful : Faithful b (unwind b applied log).2.history)
    (lateOk : late = [] ∨ ∃ s tail, rest = s :: tail ∧ late = [s] ∧ log.report.uncertain.isSome)
    (uncertainOk : ∀ t, log.report.uncertain = some t → ∃ s tail, rest = s :: tail ∧ t.Names s) :
    ∃ kept undone, ReportTold steps (.error e, (unwind b applied log).2) kept undone rest late ∧
      (b.records → ∃ standing reverted written,
        JournalTold (unwind b applied log).2 kept undone standing reverted written) := by
  obtain ⟨undoneA, leftA, unwound⟩ := unwind_unwound b applied log
  generalize unwind b applied log = result at unwound faithful
  obtain ⟨undone, kept, reversed, backs, stays⟩ := forall₂_append_right
    (unwound.split ▸ going.steps).flip
  have taken_eq : taken = kept.reverse ++ undone.reverse := by
    rw [← List.reverse_append, ← reversed, List.reverse_reverse]
  refine ⟨kept.reverse, undone.reverse, ⟨?_, ?_, ?_, nofun, ?_, ?_, ?_⟩, ?_⟩
  · rw [split, taken_eq]
  · rw [unwound.effects faithful, before, taken_eq, List.reverse_reverse]
    congr 1
    refine forall₂_map_eq ?_ backs.flip
    intro a s of
    simp only [PlannedStep.came, of.1, of.2.1]
  · rw [unwound.uncertain]
    exact lateOk
  · intro _ none
    cases leftA with
    | nil => cases stays; rfl
    | cons a rest =>
      obtain ⟨_, _, stuck⟩ := unwound.stopped a rest rfl
      rw [none] at stuck
      cases stuck
  · intro t found
    cases leftA with
    | nil =>
      rw [(unwound.finished rfl).2, going.stuck] at found
      cases found
    | cons a below =>
      obtain ⟨_, _, stuck⟩ := unwound.stopped a below rfl
      obtain rfl := Option.some.inj (found.symm.trans stuck)
      cases stays with
      | @cons s _ older _ here rest =>
        refine ⟨?_, s, by simp, here⟩
        rw [List.length_reverse, List.length_cons, rest.length_eq]
        rfl
  · rw [unwound.uncertain]
    exact uncertainOk
  · intro records
    obtain ⟨written, rowsAfter, paidA, sub, pays, lost⟩ := unwound.paid
    have rowsBefore := going.rows records
    rw [unwound.split, List.filter_append, List.reverse_append] at rowsBefore
    obtain ⟨standing, reverted, split, stand, revert⟩ := forall₂_append_right rowsBefore
    have newest : List.Forall₂ Row.Of reverted.reverse (undoneA.filter Applied.journalled) := by
      rw [← List.forall₂_reverse_iff, List.reverse_reverse]
      exact revert
    obtain ⟨paid, subRows, same⟩ := forall₂_sublist newest sub
    refine ⟨standing, reverted, written, ?_, ?_, ?_, paid, subRows, ?_, ?_⟩
    · rw [rowsAfter, split]
    · rw [unwound.applied, ← split, ← taken_eq]
      exact going.records
    · have := stand.length_eq
      have := stays.length_eq
      have := List.length_filter_le Applied.journalled leftA
      simp only [List.length_reverse] at *
      omega
    · refine forall₂_trans (fun c a r pay of => ?_) pays.flip same.flip
      exact ⟨pay.1, pay.2.1.trans of.2.1.symm, pay.2.2.1.trans of.1.symm,
        pay.2.2.2.trans of.2.2.symm⟩
    · have := revert.length_eq
      have := same.length_eq
      have := going.lost
      rw [List.length_reverse] at *
      omega

theorem Going.same {b : Behaviour} {taken : List PlannedStep} {applied : List Applied}
    {log log' : Log} (going : Going b taken applied log) (rows_ : Rename.rows log'.history = Rename.rows log.history)
    (applied_ : log'.report.applied = log.report.applied)
    (stuck_ : log'.report.stuck = log.report.stuck)
    (lost_ : log'.report.compensationsLost = log.report.compensationsLost) :
    Going b taken applied log' where
  steps := going.steps
  journalled := going.journalled
  rows := by rw [rows_]; exact going.rows
  records := by rw [rows_, applied_]; exact going.records
  applied := by rw [applied_]; exact going.applied
  stuck := stuck_.trans going.stuck
  lost := lost_.trans going.lost

/-- One more step took effect and no row was written for it. -/
theorem Going.unjournalled {b : Behaviour} {taken : List PlannedStep} {applied : List Applied}
    {log : Log} (going : Going b taken applied log)
    (whole : ∀ a ∈ applied, a.journalled = b.records) (s : PlannedStep) :
    Going b (taken ++ [s]) (.unjournalled s :: applied) log where
  steps := by
    rw [List.reverse_append]
    exact .cons ⟨rfl, rfl, rfl⟩ going.steps
  journalled := whole
  rows := going.rows
  records := by
    rw [List.take_append_of_le_length going.applied]
    exact going.records
  applied := Nat.le_trans going.applied (by simp)
  stuck := going.stuck
  lost := going.lost

/-- One more step took effect and has its row. -/
theorem Going.journalled_step {b : Behaviour} {taken : List PlannedStep} {applied : List Applied}
    {log log' : Log} (going : Going b taken applied log)
    (whole : ∀ a ∈ applied, a.journalled = b.records)
    (count : log.report.applied = taken.length) (s : PlannedStep) (seq : Option Int)
    (rows_ : Rename.rows log'.history = Rename.rows log.history ++
      [⟨.forward, s.fromPath, s.toPath, s.undoes, seq⟩])
    (report_ : log'.report = { log.report with applied := log.report.applied + 1 }) :
    Going b (taken ++ [s]) (⟨s.fromPath, s.toPath, s.pairIndex, seq, b.records⟩ :: applied) log' where
  steps := by
    rw [List.reverse_append]
    exact .cons ⟨rfl, rfl, rfl⟩ going.steps
  journalled := whole
  rows records := by
    rw [rows_, List.filter_cons, if_pos records, List.reverse_cons]
    exact List.rel_append (going.rows records) (.cons ⟨rfl, rfl, rfl⟩ .nil)
  records := by
    have before := going.records
    rw [count, List.take_length] at before
    have all : (taken ++ [s]).take log'.report.applied = taken ++ [s] := by
      rw [report_, count]
      exact List.take_of_length_le (by simp)
    rw [rows_, all]
    exact List.rel_append before (.cons ⟨rfl, rfl, rfl, rfl⟩ .nil)
  applied := by rw [report_, count]; simp
  stuck := by rw [report_]; exact going.stuck
  lost := by rw [report_]; exact going.lost

theorem Outcome.effect_of_answer {o : Outcome} (answered : o.error? = none) : o.effect := by
  cases o with
  | done => rfl
  | failed e => cases answered
  | failedAfter e => cases answered

/-- What the executor makes of a rename that answered an error: a step it takes for
done, a step it leaves alone, or a step it reports as uncertain. -/
theorem settle_cases {b : Behaviour} (s : PlannedStep) {e : Error} (applied : List Applied) (log start : Log)
    (trusted : Trusted b start.history (.rename .forward s.fromPath s.toPath
      (b.rename .forward start.history s.fromPath s.toPath)))
    (failed : (b.rename .forward start.history s.fromPath s.toPath).error? = some e)
    (history : log.history = start.history ++ [.rename .forward s.fromPath s.toPath
      (b.rename .forward start.history s.fromPath s.toPath)]) :
    let result := settle b s e applied log
    let effect := (b.rename .forward start.history s.fromPath s.toPath).effect
    effects result.2.history = effects log.history ∧ rows result.2.history = rows log.history ∧
    ((effect ∧ result.1 = .unjournalled s :: applied ∧ result.2.report = log.report) ∨
     (¬effect ∧ result.1 = applied ∧ result.2.report = log.report) ∨
     (result.1 = applied ∧ result.2.report = { log.report with
        uncertain := some ((Applied.unjournalled s).stuck e applied.length) })) := by
  simp only [settle]
  split
  next probe =>
    have truth := trusted.probes _ _ _ e rfl failed probe
    simp only at truth
    rw [← history] at truth
    have verdict : (landed b s log).1 = landedOf (freeOf (b.stat log.history s.toPath))
        (freeOf (b.stat (log.history ++ [.stat s.toPath (b.stat log.history s.toPath)]) s.fromPath)) := rfl
    rw [← verdict] at truth
    split
    next found => exact ⟨landed_effects .., landed_rows .., .inl ⟨truth.1 found, rfl, rfl⟩⟩
    next found => exact ⟨landed_effects .., landed_rows .., .inr (.inl ⟨truth.2 found, rfl, rfl⟩)⟩
    next found => exact ⟨landed_effects .., landed_rows .., .inr (.inr ⟨rfl, rfl⟩)⟩
  next believed =>
    refine ⟨rfl, rfl, .inr (.inl ⟨?_, rfl, rfl⟩)⟩
    cases outcome : b.rename .forward start.history s.fromPath s.toPath with
    | done => rw [outcome] at failed; cases failed
    | failed _ => simp [Outcome.effect]
    | failedAfter e' =>
      rw [outcome] at failed
      obtain rfl := Option.some.inj failed
      exact absurd (trusted.believed _ _ e' (congrArg (Event.rename .forward s.fromPath s.toPath) outcome)) believed

/-- The run from any point a batch can stand at, told by all three. -/
theorem runFromStep_told {b : Behaviour} (steps : List PlannedStep) (remaining : List PlannedStep)
    (taken : List PlannedStep) (applied : List Applied) (log : Log)
    (going : Going b taken applied log) (split : steps = taken ++ remaining)
    (whole : ∀ a ∈ applied, a.journalled = b.records)
    (count : log.report.applied = taken.length)
    (before : effects log.history = taken.map PlannedStep.went)
    (certain : log.report.uncertain = none)
    (faithful : Faithful b (runFromStep b remaining applied log).2.history) :
    ∃ kept undone rest late,
      ReportTold steps (runFromStep b remaining applied log) kept undone rest late ∧
      (b.records → ∃ standing reverted written,
        JournalTold (runFromStep b remaining applied log).2 kept undone standing reverted written) := by
  induction remaining generalizing taken applied log with
  | nil =>
    refine ⟨taken, [], [], [], ⟨?_, ?_, .inl rfl, ?_, ?_, ?_, ?_⟩, ?_⟩
    · simpa using split
    · simpa [runFromStep] using before
    · exact fun _ => ⟨rfl, rfl, going.stuck, certain⟩
    · exact fun other => absurd rfl other
    · intro t found
      rw [runFromStep, going.stuck] at found
      cases found
    · intro t found
      rw [runFromStep, certain] at found
      cases found
    · intro _
      refine ⟨rows log.history, [], [], by simp [runFromStep], ?_, ?_, [], .slnil, .nil, going.lost⟩
      · simpa [runFromStep] using going.records
      · have := going.records.length_eq
        rw [List.length_take] at this
        omega
  | cons s remaining ih =>
    have checked : Going b taken applied (isCancelled b log).2 :=
      going.same (by simp [isCancelled, Event.rows]) rfl rfl rfl
    have checkedEffects : effects (isCancelled b log).2.history = taken.map PlannedStep.went := by
      rw [← before]; simp [isCancelled, Event.effects]
    have unsure (t : StuckStep) (found : log.report.uncertain = some t) :
        ∃ s' tail, s :: remaining = s' :: tail ∧ t.Names s' := by
      rw [certain] at found; cases found
    simp only [runFromStep] at faithful ⊢
    by_cases stop : (isCancelled b log).1
    · rw [if_pos stop] at faithful ⊢
      obtain ⟨kept, undone, told⟩ := going_unwind (s :: remaining) [] _ checked split
        (by simpa using checkedEffects) faithful (.inl rfl) unsure
      exact ⟨kept, undone, s :: remaining, [], told⟩
    rw [if_neg stop] at faithful ⊢
    generalize found : (isCancelled b log).2 = start at checked checkedEffects faithful
    have report : start.report = log.report := by rw [← found]; rfl
    cases answer : (rename b .forward s.fromPath s.toPath start).1.error? with
    | some e =>
      have history : ((rename b .forward s.fromPath s.toPath start).2.fail s.pairIndex).history =
          start.history ++ [.rename .forward s.fromPath s.toPath
            (b.rename .forward start.history s.fromPath s.toPath)] := rfl
      have tried : Going b taken applied
          ((rename b .forward s.fromPath s.toPath start).2.fail s.pairIndex) :=
        checked.same (by simp [Log.fail, rename, Event.rows]) rfl rfl rfl
      have quiet : ((rename b .forward s.fromPath s.toPath start).2.fail s.pairIndex).report.uncertain =
          none := by
        show start.report.uncertain = none
        rw [report, certain]
      have did : effects ((rename b .forward s.fromPath s.toPath start).2.fail s.pairIndex).history =
          taken.map PlannedStep.went ++
            if (b.rename .forward start.history s.fromPath s.toPath).effect then [s.went] else [] := by
        simp [Log.fail, rename, Event.effects, checkedEffects, PlannedStep.went]
      simp only [answer] at faithful ⊢
      generalize (rename b .forward s.fromPath s.toPath start).2.fail s.pairIndex = mid
        at history tried quiet did faithful
      have trusted : Trusted b start.history (.rename .forward s.fromPath s.toPath
          (b.rename .forward start.history s.fromPath s.toPath)) := by
        apply faithful
        rw [← history]
        exact (settle_extends b s e applied mid).trans (unwind_extends b _ _)
      obtain ⟨sameEffects, sameRows, outcome⟩ := settle_cases s applied mid start trusted answer history
      generalize settle b s e applied mid = settled at sameEffects sameRows outcome faithful
      rw [did] at sameEffects
      rcases outcome with ⟨effect, pushed, same⟩ | ⟨effect, pushed, same⟩ | ⟨pushed, new⟩
      · -- the step took effect after all, and is taken back with the rest
        rw [if_pos effect] at sameEffects
        have after := (tried.same sameRows (by rw [same]) (by rw [same]) (by rw [same])).unjournalled
          whole s
        rw [pushed] at faithful ⊢
        obtain ⟨kept, undone, told⟩ := going_unwind remaining [] e after (by simpa using split)
          (by simpa using sameEffects) faithful (.inl rfl) (by rw [same, quiet]; nofun)
        exact ⟨kept, undone, remaining, [], told⟩
      · rw [if_neg effect, List.append_nil] at sameEffects
        have after := tried.same sameRows (by rw [same]) (by rw [same]) (by rw [same])
        rw [pushed] at faithful ⊢
        obtain ⟨kept, undone, told⟩ := going_unwind (s :: remaining) [] e after split
          (by simpa using sameEffects) faithful (.inl rfl) (by rw [same, quiet]; nofun)
        exact ⟨kept, undone, s :: remaining, [], told⟩
      · -- nobody knows whether the step took effect
        have after := tried.same sameRows (by rw [new]) (by rw [new]) (by rw [new])
        rw [pushed] at faithful ⊢
        obtain ⟨kept, undone, told⟩ := going_unwind (s :: remaining)
          (if (b.rename .forward start.history s.fromPath s.toPath).effect then [s] else []) e after
          split (by rw [sameEffects]; split <;> simp) faithful
          (by split
              · exact .inr ⟨s, remaining, rfl, rfl, by rw [new]; rfl⟩
              · exact .inl rfl)
          (by
            rw [new]
            rintro t ⟨⟩
            exact ⟨s, remaining, rfl, rfl, rfl, rfl⟩)
        exact ⟨kept, undone, s :: remaining, _, told⟩
    | none =>
      have did : effects (rename b .forward s.fromPath s.toPath start).2.history =
          (taken ++ [s]).map PlannedStep.went := by
        have effect : (b.rename .forward start.history s.fromPath s.toPath).effect :=
          Outcome.effect_of_answer answer
        simp [rename, Event.effects, checkedEffects, PlannedStep.went, effect]
      have tried : Going b taken applied (rename b .forward s.fromPath s.toPath start).2 :=
        checked.same (by simp [rename, Event.rows]) rfl rfl rfl
      have triedReport : (rename b .forward s.fromPath s.toPath start).2.report = log.report := report
      simp only [answer] at faithful ⊢
      generalize (rename b .forward s.fromPath s.toPath start).2 = mid at did tried triedReport faithful
      cases written : (renamed b .forward s.fromPath s.toPath s.undoes mid).1 with
      | ok seq =>
        simp only [written] at faithful ⊢
        have wrote : b.renamed .forward mid.history s.fromPath s.toPath s.undoes = .ok seq := written
        refine ih (taken ++ [s]) _ _ (tried.journalled_step whole ?_ s seq ?_ ?_) ?_ ?_ ?_ ?_ ?_ faithful
        · rw [triedReport, count]
        · simp [renamed, Event.rows, wrote]
        · rfl
        · simpa using split
        · simpa using whole
        · show mid.report.applied + 1 = _
          rw [triedReport, count]; simp
        · simpa [renamed, Event.effects] using did
        · show mid.report.uncertain = none
          rw [triedReport, certain]
      | error e =>
        simp only [written] at faithful ⊢
        have wrote : b.renamed .forward mid.history s.fromPath s.toPath s.undoes = .error e := written
        have unwritten : Going b taken applied
            ((renamed b .forward s.fromPath s.toPath s.undoes mid).2.fail s.pairIndex) :=
          tried.same (by simp [Log.fail, renamed, Event.rows, wrote]) rfl rfl rfl
        have after := unwritten.unjournalled whole s
        obtain ⟨kept, undone, told⟩ := going_unwind remaining [] e after (by simpa using split)
          (by simpa [Log.fail, renamed, Event.effects] using did) faithful (.inl rfl) (by
            show ∀ t, mid.report.uncertain = some t → _
            rw [triedReport, certain]
            nofun)
        exact ⟨kept, undone, remaining, [], told⟩

/-- Rows are numbered upwards, and above whatever the steps undo. -/
structure Numbered (steps : List PlannedStep) (written : List Row) : Prop where
  seqs : ∀ r ∈ written, ∃ q, r.seq = some q ∧ ∀ s ∈ steps, ∀ v, s.undoes = some v → v < q
  rising : written.Pairwise fun r c => ∀ p q, r.seq = some p → c.seq = some q → p < q

theorem rows_numbered {b : Behaviour} {steps : List PlannedStep} (recorder : BatchRecorder b steps)
    {h : List Event} (answered : Answered b h) : Numbered steps (rows h) := by
  induction answered with
  | start => exact ⟨by simp [rows], by simp [rows]⟩
  | checked _ ih => simpa [rows, Event.rows] using ih
  | rename _ d f t ih => simpa [rows, Event.rows] using ih
  | stat _ p ih => simpa [rows, Event.rows] using ih
  | @renamed h _ d f t u ih =>
    have split : rows (h ++ [.renamed d f t u (b.renamed d h f t u)]) =
        rows h ++ Event.rows (.renamed d f t u (b.renamed d h f t u)) := by simp [rows]
    rw [split]
    cases answer : b.renamed d h f t u with
    | error e => simpa [Event.rows] using ih
    | ok seq =>
      obtain ⟨q, rfl, above, older⟩ := recorder.assigned d h f t u seq answer
      refine ⟨?_, ?_⟩
      · intro r member
        rcases List.mem_append.mp member with old | new
        · exact ih.seqs r old
        · obtain rfl := List.mem_singleton.mp new
          exact ⟨q, rfl, older⟩
      · refine List.pairwise_append.mpr ⟨ih.rising, List.pairwise_singleton .., ?_⟩
        intro r old c new p q' seqR seqC
        obtain rfl := List.mem_singleton.mp new
        obtain rfl := Option.some.inj seqC
        exact above r old p seqR

theorem Numbered.nodup {steps : List PlannedStep} {written : List Row}
    (numbered : Numbered steps written) : (written.map Row.seq).Nodup := by
  refine List.pairwise_map.mpr (List.Pairwise.imp_of_mem ?_ numbered.rising)
  intro r c inR inC less same
  obtain ⟨p, seqR, _⟩ := numbered.seqs r inR
  exact absurd (less p p seqR (same ▸ seqR)) (lt_irrefl p)

/-- Striking the entries of a part leaves what the part lacks. -/
theorem length_filter_unlisted [BEq β] [LawfulBEq β] {f : α → β} {l k : List α}
    (nodup : (l.map f).Nodup) (part : k.Sublist l) :
    (l.filter fun a => !(k.map f).contains (f a)).length + k.length = l.length := by
  induction part with
  | slnil => rfl
  | @cons k l a part ih =>
    obtain ⟨fresh, nodup⟩ := List.nodup_cons.mp nodup
    have out : f a ∉ k.map f := fun member => fresh ((part.map f).subset member)
    have rest := ih nodup
    rw [List.filter_cons, if_pos (by simpa using out), List.length_cons, List.length_cons]
    omega
  | @cons_cons k l a part ih =>
    obtain ⟨fresh, nodup⟩ := List.nodup_cons.mp nodup
    have rest := ih nodup
    have same : (l.filter fun x => !((a :: k).map f).contains (f x)) =
        l.filter fun x => !(k.map f).contains (f x) := by
      refine List.filter_congr fun x member => ?_
      have other : f x ≠ f a := fun eq => fresh (eq ▸ List.mem_map_of_mem member)
      simp [other]
    rw [List.filter_cons, if_neg (by simp), same, List.length_cons, List.length_cons]
    omega

/-- The journal of a batch, as a reader finds it: a forward row stands for a step still
in effect, or has one compensation after it, or is counted as lost. -/
structure JournalTrue (steps kept : List PlannedStep) (log : Log)
    (standing reverted written : List Row) : Prop where
  rows : rows log.history = standing ++ reverted ++ written
  stands : ∀ r ∈ standing, ∃ s ∈ kept, r.Records s
  reverts : ∀ r ∈ reverted, ∃ s ∈ steps, r.Records s
  once : ∀ r ∈ reverted, ((Rename.rows log.history).filter fun c => c.undoes = r.seq).length ≤ 1
  lost : (reverted.filter fun r => ∀ c ∈ Rename.rows log.history, c.undoes ≠ r.seq).length =
    log.report.compensationsLost
  pays : ∀ c ∈ written, ∃ r ∈ reverted, c.Compensates r

theorem forall₂_mem_left {R : α → β → Prop} {l : List α} {m : List β} (pairs : List.Forall₂ R l m)
    {a : α} (member : a ∈ l) : ∃ b ∈ m, R a b := by
  induction pairs with
  | nil => cases member
  | cons here _ ih =>
    rcases List.mem_cons.mp member with rfl | member
    · exact ⟨_, List.mem_cons_self, here⟩
    · obtain ⟨b, inside, related⟩ := ih member
      exact ⟨b, List.mem_cons_of_mem _ inside, related⟩

theorem journalTrue_of_told {steps kept undone rest : List PlannedStep} {log : Log}
    {standing reverted written : List Row} (split : steps = kept ++ undone ++ rest)
    (told : JournalTold log kept undone standing reverted written)
    (numbered : Numbered steps (rows log.history)) :
    JournalTrue steps kept log standing reverted written := by
  obtain ⟨paid, part, pays, lost⟩ := told.paid
  have recorded (r : Row) (member : r ∈ standing ++ reverted) : ∃ s ∈ steps, r.Records s := by
    obtain ⟨s, inside, records⟩ := forall₂_mem_left told.records member
    exact ⟨s, split ▸ List.mem_append_left _ (List.mem_of_mem_take inside), records⟩
  have nodup := numbered.nodup
  rw [told.rows, List.append_assoc, List.map_append, List.map_append] at nodup
  have nodupReverted : (reverted.reverse.map Row.seq).Nodup := by
    rw [List.map_reverse, List.nodup_reverse]
    exact (List.nodup_append.mp (List.nodup_append.mp nodup).2.1).1
  have undoes : written.map Row.undoes = paid.map Row.seq :=
    forall₂_map_eq (fun _ _ pay => pay.2.2.2) pays
  -- a forward row compensates nothing that was written in this batch
  have forward (r c : Row) (inR : r ∈ rows log.history) (inC : c ∈ standing ++ reverted) :
      c.undoes ≠ r.seq := by
    intro same
    obtain ⟨s, inside, records⟩ := recorded c inC
    obtain ⟨q, seq, older⟩ := numbered.seqs r inR
    have := older s inside q (by rw [← records.2.2.2, same, seq])
    omega
  have inRows (r : Row) (member : r ∈ reverted) : r ∈ rows log.history := by
    rw [told.rows]; simp [member]
  refine ⟨told.rows, ?_, fun r member => recorded r (List.mem_append_right _ member), ?_, ?_, ?_⟩
  · intro r member
    have first := List.forall₂_take standing.length told.records
    rw [List.take_left, List.take_take] at first
    obtain ⟨s, inside, records⟩ := forall₂_mem_left first member
    refine ⟨s, ?_, records⟩
    have short : min standing.length log.report.applied ≤ kept.length := by
      have := told.standing; omega
    rw [List.take_append_of_le_length short] at inside
    exact List.mem_of_mem_take inside
  · intro r member
    have none : (standing ++ reverted).filter (fun c => c.undoes = r.seq) = [] :=
      List.filter_eq_nil_iff.mpr fun c inC => by simpa using forward r c (inRows r member) inC
    rw [told.rows, List.filter_append, none, List.nil_append]
    have count : (written.filter fun c => c.undoes = r.seq).length =
        (paid.map Row.seq).count r.seq := by
      rw [← undoes, List.count, List.countP_map, List.countP_eq_length_filter]
      exact congrArg List.length (List.filter_congr fun c _ => by
        rw [Bool.eq_iff_iff]; simp)
    rw [count]
    exact List.nodup_iff_count_le_one.mp (nodupReverted.sublist (part.map _)) _
  · have strike := length_filter_unlisted nodupReverted part
    have same : (reverted.filter fun r => ∀ c ∈ rows log.history, c.undoes ≠ r.seq) =
        reverted.filter fun r => !(paid.map Row.seq).contains r.seq := by
      refine List.filter_congr fun r member => ?_
      rw [← undoes, Bool.eq_iff_iff, decide_eq_true_eq, Bool.not_eq_true', ← Bool.not_eq_true,
        List.contains_iff_mem]
      constructor
      · intro free listed
        obtain ⟨c, inside, seq⟩ := List.mem_map.mp listed
        exact free c (by rw [told.rows]; exact List.mem_append_right _ inside) seq
      · intro out c inside same
        rw [told.rows] at inside
        rcases List.mem_append.mp inside with early | late
        · exact forward r c (inRows r member) early same
        · exact out (same ▸ List.mem_map_of_mem late)
    rw [List.filter_reverse, List.length_reverse, List.length_reverse] at strike
    rw [same]
    omega
  · intro c member
    obtain ⟨r, inside, pay⟩ := forall₂_mem_left pays member
    exact ⟨r, List.mem_reverse.mp (part.subset inside), pay⟩

/-- Report, journal and provider tell one story of every run whose failures are what
the executor takes them for. -/
theorem run_tells_true (b : Behaviour) (steps : List PlannedStep) (faithful : Faithful b (run b steps).2.history) :
    ∃ kept undone rest late, ReportTold steps (run b steps) kept undone rest late ∧
      (BatchRecorder b steps → ∃ standing reverted written,
        JournalTrue steps kept (run b steps).2 standing reverted written) := by
  have start : Going b [] [] .start :=
    ⟨.nil, by simp, fun _ => .nil, .nil, Nat.le_refl _, rfl, rfl⟩
  obtain ⟨kept, undone, rest, late, told, journal⟩ := runFromStep_told steps steps [] []
    .start start rfl (by simp) rfl rfl rfl faithful
  refine ⟨kept, undone, rest, late, told, fun recorder => ?_⟩
  obtain ⟨standing, reverted, written, journal⟩ := journal recorder.records
  exact ⟨standing, reverted, written,
    journalTrue_of_told told.split journal (rows_numbered recorder (run_answered b steps))⟩

/-! Concrete runs, in the root of an in-memory provider. -/

def sampleRoot : VPath := .root ⟨"mem".toList, Scheme.check_mem⟩ none

/-- The step `a` → `b`, and the step `c` → `d`. -/
def sampleSteps : List PlannedStep :=
  [⟨sampleRoot.join ⟨[0x61], Segment.valid_a⟩,
      sampleRoot.join ⟨[0x62], Segment.valid_b⟩, 0, none⟩,
    ⟨sampleRoot.join ⟨[0x63], Segment.valid_c⟩,
      sampleRoot.join ⟨[0x64], Segment.valid_d⟩, 1, none⟩]

def nextSeq (h : List Event) : Int := (rows h).foldr (fun r top => max (r.seq.getD 0) top) 0 + 1

theorem lt_nextSeq {h : List Event} {r : Row} (member : r ∈ rows h) {p : Int}
    (seq : r.seq = some p) : p < nextSeq h := by
  unfold nextSeq
  generalize rows h = written at member
  induction written with
  | nil => cases member
  | cons c written ih =>
    rw [List.foldr_cons]
    rcases List.mem_cons.mp member with rfl | member
    · rw [seq]
      simp only [Option.getD_some]
      omega
    · have := ih member
      omega

def Event.failed : Event → Bool
  | .rename _ _ _ outcome => outcome.error?.isSome
  | _ => false

/-- Where no rename fails, nothing is taken on trust. -/
theorem faithful_of_done {b : Behaviour} {history : List Event} (done : history.any Event.failed = false) :
    Faithful b history := by
  intro h event before
  have quiet : event.failed = false := by
    have := List.any_eq_false.mp done event (before.subset (by simp))
    simpa using this
  refine ⟨?_, ?_, ?_⟩
  · rintro f t e rfl
    cases quiet
  · rintro f t outcome e rfl failed
    simp [Event.failed, failed] at quiet
  · rintro f t e rfl
    cases quiet

/-- Every rename works; the journal fails on its second row and on nothing else. -/
def failingJournal : Behaviour where
  rename _ _ _ _ := .done
  stat _ _ := .error .notFound
  renamed direction h _ _ _ :=
    if direction = .forward ∧ (rows h).length = 1 then .error .noSpace else .ok (some (nextSeq h))
  isCancelled _ := false
  records := true

theorem run_tells_true_failingJournal : (run failingJournal sampleSteps).2.report.rolledBack = 2 ∧
    ∃ kept undone rest late,
      ReportTold sampleSteps (run failingJournal sampleSteps) kept undone rest late ∧
      ∃ standing reverted written,
        JournalTrue sampleSteps kept (run failingJournal sampleSteps).2 standing reverted written := by
  have faithful : Faithful failingJournal (run failingJournal sampleSteps).2.history :=
    faithful_of_done (by decide +kernel)
  have recorder : BatchRecorder failingJournal sampleSteps := by
    refine ⟨rfl, ?_⟩
    intro d h f t u seq answer
    simp only [failingJournal] at answer
    split at answer
    · cases answer
    · obtain rfl := Except.ok.inj answer
      refine ⟨nextSeq h, rfl, fun r member p => lt_nextSeq member, ?_⟩
      intro s member v undoes
      simp only [sampleSteps, List.mem_cons, List.not_mem_nil, or_false] at member
      rcases member with rfl | rfl <;> cases undoes
  obtain ⟨kept, undone, rest, late, told, journal⟩ := run_tells_true failingJournal sampleSteps faithful
  exact ⟨by decide +kernel, kept, undone, rest, late, told, journal recorder⟩

/-- The journal refuses the first row, and the reversal reports a failure after it
took effect. -/
def lateReversal : Behaviour where
  rename direction _ _ _ := if direction = .back then .failedAfter (.io true) else .done
  stat _ _ := .error .notFound
  renamed _ _ _ _ _ := .error .noSpace
  isCancelled _ := false
  records := true

/-- A reversal that failed after it took effect is reported as stuck, though nothing of
the batch is left in effect: the rollback does not probe. -/
theorem lateReversal_not_told : ¬∀ (b : Behaviour) (steps : List PlannedStep),
    ∃ kept undone rest late, ReportTold steps (run b steps) kept undone rest late := by
  intro all
  obtain ⟨kept, undone, rest, late, told⟩ := all lateReversal (sampleSteps.take 1)
  have stuck : ((run lateReversal (sampleSteps.take 1)).2.report.stuck).map StuckStep.stillApplied =
      some 1 := by decide +kernel
  have happened : (effects (run lateReversal (sampleSteps.take 1)).2.history).length = 2 := by
    decide +kernel
  have certain : (run lateReversal (sampleSteps.take 1)).2.report.uncertain = none := by
    decide +kernel
  obtain ⟨t, found, one⟩ := Option.map_eq_some_iff.mp stuck
  have length := congrArg List.length told.effects
  have total := congrArg List.length told.split
  have still := (told.stuck t found).1
  rw [happened] at length
  rcases told.late with rfl | ⟨_, _, _, _, sure⟩
  · simp only [List.append_nil, List.length_append, List.length_map, List.length_reverse,
      List.length_take, sampleSteps, List.length_cons, List.length_nil] at length total
    omega
  · rw [certain] at sure
    cases sure

end Norte.Rename
