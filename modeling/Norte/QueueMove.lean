import Norte.Scheduler

/-! A queued task moved up or down. Exchanging a `seq` with the neighbour moves the task among
those of its priority; next to a task of another priority it moves it somewhere else. -/
namespace Norte.Scheduler

/-- The job without its key. -/
def QueuedJob.task (job : QueuedJob) : Nat × Priority := (job.id, job.priority)

/-- The tasks in the order they leave. -/
def taskOrder (heap : List QueuedJob) : List (Nat × Priority) := (exitOrder heap).map QueuedJob.task

/-- `task` is where a search for the id ends. -/
def First (id : Nat) (before : List (Nat × Priority)) (task : Nat × Priority) : Prop :=
  task.1 = id ∧ ∀ other ∈ before, other.1 ≠ id

/-- `x` and `y` follow each other, and the id is that of `y` (up) or of `x` (down). -/
def Beside (up : Bool) (id : Nat) (before : List (Nat × Priority)) (x y : Nat × Priority) : Prop :=
  if up then First id (before ++ [x]) y else First id before x

/-- The task exchanged with its predecessor, or with its successor, and nothing else moved. -/
def Exchanged (up : Bool) (id : Nat) (order order' : List (Nat × Priority)) : Prop :=
  ∃ before x y after, order = before ++ x :: y :: after ∧ Beside up id before x y ∧
    order' = before ++ y :: x :: after

theorem first_unique {id : Nat} {pre pre' post post' : List (Nat × Priority)} {t t' : Nat × Priority}
    (first : First id pre t) (first' : First id pre' t') (same : pre ++ t :: post = pre' ++ t' :: post') :
    pre = pre' ∧ t = t' ∧ post = post' := by
  induction pre generalizing pre' with
  | nil =>
    cases pre' with
    | nil =>
      obtain ⟨rfl, rfl⟩ := List.cons.inj same
      exact ⟨rfl, rfl, rfl⟩
    | cons u pre' =>
      obtain ⟨rfl, -⟩ := List.cons.inj same
      exact absurd first.1 (first'.2 t (List.mem_cons_self ..))
  | cons u pre ih =>
    cases pre' with
    | nil =>
      obtain ⟨rfl, -⟩ := List.cons.inj same
      exact absurd first'.1 (first.2 u (List.mem_cons_self ..))
    | cons u' pre' =>
      obtain ⟨rfl, rest⟩ := List.cons.inj same
      obtain ⟨rfl, rfl, rfl⟩ := ih ⟨first.1, fun v member => first.2 v (List.mem_cons_of_mem _ member)⟩
        ⟨first'.1, fun v member => first'.2 v (List.mem_cons_of_mem _ member)⟩ rest
      exact ⟨rfl, rfl, rfl⟩

/-- There is one place at most where the task stands beside a neighbour. -/
theorem beside_unique {up : Bool} {id : Nat} {before before' after after' : List (Nat × Priority)}
    {x y x' y' : Nat × Priority} (beside : Beside up id before x y) (beside' : Beside up id before' x' y')
    (same : before ++ x :: y :: after = before' ++ x' :: y' :: after') :
    before = before' ∧ x = x' ∧ y = y' ∧ after = after' := by
  cases up with
  | true =>
    have split (pre post : List (Nat × Priority)) (u v) : pre ++ u :: v :: post = (pre ++ [u]) ++ v :: post := by
      simp
    rw [split, split before'] at same
    obtain ⟨pre, rfl, rfl⟩ := first_unique beside beside' same
    obtain ⟨rfl, one⟩ := List.append_inj' pre rfl
    exact ⟨rfl, (List.cons.inj one).1, rfl, rfl⟩
  | false =>
    obtain ⟨rfl, rfl, rest⟩ := first_unique beside beside' same
    obtain ⟨rfl, rfl⟩ := List.cons.inj rest
    exact ⟨rfl, rfl, rfl, rfl⟩

/-! The order. -/

/-- `a` may leave before `b`. -/
theorem cmp_iff (a b : QueuedJob) :
    a.cmp b ≠ .lt ↔ b.priority.rank < a.priority.rank ∨
      (a.priority.rank = b.priority.rank ∧ a.seq ≤ b.seq) := by
  unfold QueuedJob.cmp
  rw [Ne, Ordering.then_eq_lt, Nat.compare_eq_lt, Nat.compare_eq_eq, Nat.compare_eq_lt]
  omega

instance : Std.Total fun a b : QueuedJob => a.cmp b ≠ .lt where
  total a b := by
    rw [cmp_iff, cmp_iff]
    omega

instance : IsTrans QueuedJob fun a b => a.cmp b ≠ .lt where
  trans a b c := by
    rw [cmp_iff, cmp_iff, cmp_iff]
    omega

theorem exitOrder_sorted (heap : List QueuedJob) : (exitOrder heap).Pairwise fun a b => a.cmp b ≠ .lt :=
  List.pairwise_insertionSort _ heap

/-- Distinct `seq`s leave no choice. -/
theorem exitOrder_unique {heap jobs : List QueuedJob} (perm : heap.Perm jobs)
    (sorted : jobs.Pairwise fun a b => a.cmp b ≠ .lt) (distinct : (heap.map QueuedJob.seq).Nodup) :
    exitOrder heap = jobs := by
  apply List.Perm.eq_of_pairwise _ (exitOrder_sorted heap) sorted ((exitOrder_perm heap).trans perm)
  intro a b inA inB le ge
  rw [cmp_iff] at le ge
  have inA := (exitOrder_perm heap).mem_iff.mp inA
  have inB := perm.mem_iff.mpr inB
  exact List.inj_on_of_nodup_map distinct inA inB (by omega)

/-! The move. -/

/-- Neighbours that exchanged their `seq`s. -/
def withSeqs (before : List QueuedJob) (x y : QueuedJob) (after : List QueuedJob) : List QueuedJob :=
  before ++ { x with seq := y.seq } :: { y with seq := x.seq } :: after

theorem findIdx_split {jobs : List QueuedJob} {id pos : Nat}
    (found : jobs.findIdx? (fun job => job.id = id) = some pos) :
    ∃ pre job post, jobs = pre ++ job :: post ∧ pos = pre.length ∧ First id (pre.map QueuedJob.task) job.task := by
  obtain ⟨bound, here, earlier⟩ := List.findIdx?_eq_some_iff_getElem.mp found
  refine ⟨jobs.take pos, jobs[pos], jobs.drop (pos + 1), ?_, ?_, ?_, ?_⟩
  · rw [← List.drop_eq_getElem_cons bound, List.take_append_drop]
  · rw [List.length_take]
    omega
  · simpa [QueuedJob.task] using here
  · intro other member
    obtain ⟨job, inside, rfl⟩ := List.mem_map.mp member
    obtain ⟨k, bound, rfl⟩ := List.mem_iff_getElem.mp inside
    rw [List.length_take] at bound
    rw [List.getElem_take]
    simpa [QueuedJob.task] using earlier k (by omega)

theorem Beside.mem {up : Bool} {id : Nat} {before : List (Nat × Priority)} {x y : Nat × Priority}
    (beside : Beside up id before x y) : x.1 = id ∨ y.1 = id := by
  cases up with
  | true => exact .inr beside.1
  | false => exact .inl beside.1

/-- Nothing is moved when there is no neighbour on that side. -/
def Alone (up : Bool) (id : Nat) (order : List (Nat × Priority)) : Prop :=
  ∀ before x y after, order = before ++ x :: y :: after → ¬Beside up id before x y

theorem alone_absent {up : Bool} {id : Nat} {order : List (Nat × Priority)} (absent : ∀ task ∈ order, task.1 ≠ id) :
    Alone up id order := by
  intro before x y after split beside
  rcases beside.mem with here | here
  · exact absent x (by rw [split]; simp) here
  · exact absent y (by rw [split]; simp) here

theorem alone_top {id : Nat} {t : Nat × Priority} {post : List (Nat × Priority)} (first : First id [] t) :
    Alone true id (t :: post) := by
  intro before x y after split beside
  have again : [] ++ t :: post = (before ++ [x]) ++ y :: after := by simpa using split
  have := (first_unique first beside again).1
  simp at this

theorem alone_bottom {id : Nat} {t : Nat × Priority} {pre : List (Nat × Priority)} (first : First id pre t) :
    Alone false id (pre ++ [t]) := by
  intro before x y after split beside
  have := (first_unique first beside split).2.2
  simp at this

/-- Either there is no neighbour on that side and nothing changes, or the neighbours exchange
their `seq`s. -/
theorem moverEnCola_cases (heap : List QueuedJob) (id : Nat) (up : Bool) :
    (moverEnCola heap id up = (exitOrder heap, false) ∧ Alone up id (taskOrder heap)) ∨
      ∃ before x y after, exitOrder heap = before ++ x :: y :: after ∧
        Beside up id (before.map QueuedJob.task) x.task y.task ∧
        moverEnCola heap id up = (withSeqs before x y after, true) := by
  unfold taskOrder moverEnCola
  generalize exitOrder heap = jobs
  cases found : jobs.findIdx? fun job => job.id = id with
  | none =>
    refine .inl ⟨by simp only [found], alone_absent fun task member => ?_⟩
    obtain ⟨job, inside, rfl⟩ := List.mem_map.mp member
    simpa [QueuedJob.task] using List.findIdx?_eq_none_iff.mp found job inside
  | some pos =>
    obtain ⟨pre, job, post, rfl, rfl, first⟩ := findIdx_split found
    simp only [found]
    cases up with
    | true =>
      rcases List.eq_nil_or_concat pre with rfl | ⟨before, x, rfl⟩
      · exact .inl ⟨by simp, by simpa using alone_top first⟩
      · refine .inr ⟨before, x, job, post, by simp, by simpa [Beside] using first, ?_⟩
        simp [withSeqs]
    | false =>
      cases post with
      | nil => exact .inl ⟨by simp, by simpa using alone_bottom first⟩
      | cons y after =>
        refine .inr ⟨pre, job, y, after, rfl, first, ?_⟩
        simp [withSeqs]

section

variable {before after : List QueuedJob} {x y : QueuedJob}

theorem withSeqs_seqs (before after : List QueuedJob) (x y : QueuedJob) :
    ((withSeqs before x y after).map QueuedJob.seq).Perm ((before ++ x :: y :: after).map QueuedJob.seq) := by
  simp only [withSeqs, List.map_append, List.map_cons]
  exact (List.Perm.swap ..).append_left _

theorem withSeqs_tasks (before after : List QueuedJob) (x y : QueuedJob) :
    (withSeqs before x y after).map QueuedJob.task = (before ++ x :: y :: after).map QueuedJob.task := by
  simp [withSeqs, QueuedJob.task]

/-- Of one priority, they take each other's place: at every place the key is the one that was there. -/
theorem exitOrder_equals (sorted : (before ++ x :: y :: after).Pairwise fun a b => a.cmp b ≠ .lt)
    (distinct : ((before ++ x :: y :: after).map QueuedJob.seq).Nodup) (equals : x.priority = y.priority) :
    exitOrder (withSeqs before x y after) =
      before ++ { y with seq := x.seq } :: { x with seq := y.seq } :: after := by
  apply exitOrder_unique
  · exact (List.Perm.swap ..).append_left _
  · simp only [cmp_iff] at sorted ⊢
    have keyed (l : List QueuedJob) := List.pairwise_map (l := l) (f := fun job => (job.priority, job.seq))
      (R := fun a b => b.1.rank < a.1.rank ∨ a.1.rank = b.1.rank ∧ a.2 ≤ b.2)
    rw [← keyed] at sorted ⊢
    simpa [equals] using sorted
  · exact (withSeqs_seqs before after x y).nodup_iff.mpr distinct

theorem rank_injective {p q : Priority} (same : p.rank = q.rank) : p = q := by
  cases p <;> cases q <;> simp_all [Priority.rank]

theorem taskOrder_ranks (heap : List QueuedJob) :
    (taskOrder heap).Pairwise fun a b => b.2.rank ≤ a.2.rank := by
  apply List.pairwise_map.mpr
  apply (exitOrder_sorted heap).imp
  intro a b
  rw [cmp_iff]
  simp only [QueuedJob.task]
  omega

theorem pairwise_neighbours {r : α → α → Prop} {before after : List α} {x y : α}
    (pairwise : (before ++ x :: y :: after).Pairwise r) : r x y :=
  (List.pairwise_cons.mp (List.pairwise_append.mp pairwise).2.1).1 y (List.mem_cons_self ..)

/-- Tasks of different priority never take each other's place. -/
theorem not_exchanged {heap heap' : List QueuedJob} {up : Bool} {id : Nat} {before after : List (Nat × Priority)}
    {x y : Nat × Priority} (order : taskOrder heap = before ++ x :: y :: after) (beside : Beside up id before x y)
    (differ : x.2 ≠ y.2) : ¬Exchanged up id (taskOrder heap) (taskOrder heap') := by
  rintro ⟨before', x', y', after', order', beside', moved⟩
  obtain ⟨rfl, rfl, rfl, rfl⟩ := beside_unique beside beside' (order.symm.trans order')
  have old := taskOrder_ranks heap
  have new := taskOrder_ranks heap'
  rw [order] at old
  rw [moved] at new
  have down := pairwise_neighbours old
  have up := pairwise_neighbours new
  exact differ (rank_injective (Nat.le_antisymm up down))

end

/-- What a move is for: it says whether the task took its neighbour's place, leaves the order
alone otherwise, and no task comes or goes. -/
structure MovesByOne (heap : List QueuedJob) (id : Nat) (up : Bool) : Prop where
  answer : (moverEnCola heap id up).2 = true ↔
    Exchanged up id (taskOrder heap) (taskOrder (moverEnCola heap id up).1)
  refused : (moverEnCola heap id up).2 = false → taskOrder (moverEnCola heap id up).1 = taskOrder heap
  tasks : ((moverEnCola heap id up).1.map QueuedJob.task).Perm (heap.map QueuedJob.task)

/-- The neighbour on that side, if there is one, has the priority of the task. -/
def AmongEquals (heap : List QueuedJob) (id : Nat) (up : Bool) : Prop :=
  ∀ before x y after, taskOrder heap = before ++ x :: y :: after → Beside up id before x y → x.2 = y.2

/-- A move is by one place exactly when it is among tasks of one priority. -/
theorem mover_en_cola_by_one {heap : List QueuedJob} (distinct : (heap.map QueuedJob.seq).Nodup) (id : Nat)
    (up : Bool) : MovesByOne heap id up ↔ AmongEquals heap id up := by
  have perm := (exitOrder_perm heap).map QueuedJob.task
  rcases moverEnCola_cases heap id up with ⟨moved, alone⟩ | ⟨before, x, y, after, order, beside, moved⟩
  · have again : taskOrder (exitOrder heap) = taskOrder heap := by
      rw [taskOrder, exitOrder, List.Pairwise.insertionSort_eq (exitOrder_sorted heap)]
      rfl
    refine ⟨fun _ b x y a split beside => absurd beside (alone b x y a split), fun _ => ?_⟩
    constructor
    · rw [moved]
      refine ⟨fun answer => absurd answer Bool.false_ne_true, ?_⟩
      rintro ⟨b, x, y, a, split, beside, -⟩
      exact absurd beside (alone b x y a split)
    · rw [moved]
      exact fun _ => again
    · rw [moved]
      exact perm
  · have tasks : taskOrder heap = before.map QueuedJob.task ++ x.task :: y.task :: after.map QueuedJob.task := by
      rw [taskOrder, order, List.map_append, List.map_cons, List.map_cons]
    constructor
    · intro moves b u v a split beside'
      by_contra differ
      apply not_exchanged split beside' differ
      exact moves.answer.mp (by rw [moved])
    · intro equals
      have priorities : x.priority = y.priority := equals _ _ _ _ tasks beside
      have sorted := exitOrder_sorted heap
      have unique := ((exitOrder_perm heap).map QueuedJob.seq).nodup_iff.mpr distinct
      rw [order] at sorted unique
      constructor
      · rw [moved]
        refine ⟨fun _ => ⟨_, _, _, _, tasks, beside, ?_⟩, fun _ => rfl⟩
        rw [taskOrder, exitOrder_equals sorted unique priorities]
        simp [QueuedJob.task]
      · rw [moved]
        exact fun answer => absurd answer.symm Bool.false_ne_true
      · rw [moved, withSeqs_tasks, ← order]
        exact perm

/-- One task of high priority before two of normal priority. -/
def threeTasks : List QueuedJob := [⟨0, .high, 5⟩, ⟨1, .normal, 1⟩, ⟨2, .normal, 2⟩]

/-- The last of the three moves up by one place. -/
theorem mover_en_cola_last : MovesByOne threeTasks 2 true := by
  apply (mover_en_cola_by_one (by decide) 2 true).mpr
  intro before x y after order beside
  have split : taskOrder threeTasks = [(0, .high)] ++ (1, .normal) :: (2, .normal) :: [] := by decide
  have here : Beside true 2 [(0, .high)] (1, .normal) (2, .normal) := by
    simp [Beside, First]
  obtain ⟨-, rfl, rfl, -⟩ := beside_unique beside here (order.symm.trans split)
  rfl

/-- The first of the two of normal priority, asked to move up, moves down, and the answer is
that it moved. -/
theorem mover_en_cola_crosses :
    (moverEnCola threeTasks 1 true).2 = true ∧
      taskOrder threeTasks = [(0, .high), (1, .normal), (2, .normal)] ∧
      taskOrder (moverEnCola threeTasks 1 true).1 = [(0, .high), (2, .normal), (1, .normal)] ∧
      ¬∀ heap : List QueuedJob, (heap.map QueuedJob.seq).Nodup → ∀ id up, MovesByOne heap id up := by
  have split : taskOrder threeTasks = [] ++ (0, .high) :: (1, .normal) :: [(2, .normal)] := by decide
  have here : Beside true 1 [] (0, .high) (1, .normal) := by
    simp [Beside, First]
  refine ⟨by decide, split, by decide, fun moves => ?_⟩
  apply not_exchanged split here (by decide)
  exact (moves threeTasks (by decide) 1 true).answer.mp (by decide)

end Norte.Scheduler
