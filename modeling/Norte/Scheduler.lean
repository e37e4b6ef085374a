import Mathlib.Data.List.Nodup
import Mathlib.Data.List.Sort
import Mathlib.Logic.Function.Basic
import Mathlib.Logic.Relation

/-! One queue of the task scheduler: a heap of jobs, one runner for each job pushed, and
slots. A runner takes whatever job the heap puts first, not the one it was spawned for. -/
namespace Norte.Scheduler

inductive Priority where
  | low
  | normal
  | high
  deriving DecidableEq, Repr

def Priority.rank : Priority → Nat
  | low => 0
  | normal => 1
  | high => 2

/-- The body and its context go with the id; only `seq` is ever exchanged. -/
structure QueuedJob where
  id : Nat
  priority : Priority
  seq : Nat
  deriving DecidableEq, Repr

/-- Higher priority first; ties broken by lower `seq`. -/
def QueuedJob.cmp (self other : QueuedJob) : Ordering :=
  (compare self.priority.rank other.priority.rank).then (compare other.seq self.seq)

/-- The heap as its jobs leave it. -/
def exitOrder (heap : List QueuedJob) : List QueuedJob := heap.insertionSort fun a b => a.cmp b ≠ .lt

def pop (heap : List QueuedJob) : Option (QueuedJob × List QueuedJob) :=
  match exitOrder heap with
  | [] => none
  | job :: rest => some (job, rest)

/-- Removes job `id` from the heap, if it is still there. -/
def takeJob (heap : List QueuedJob) (id : Nat) : Option (QueuedJob × List QueuedJob) :=
  (heap.find? fun job => job.id = id).map fun job => (job, heap.eraseP fun job => job.id = id)

/-- A job up or down the queue, by exchanging its `seq` with its neighbour's. -/
def moverEnCola (heap : List QueuedJob) (id : Nat) (up : Bool) : List QueuedJob × Bool :=
  let jobs := exitOrder heap
  match jobs.findIdx? fun job => job.id = id with
  | none => (jobs, false)
  | some pos =>
    let other :=
      if up then if 0 < pos then some (pos - 1) else none
      else if pos + 1 < jobs.length then some (pos + 1) else none
    match jobs[pos]?, other.bind fun other => jobs[other]?.map fun b => (other, b) with
    | some a, some (other, b) =>
      ((jobs.set pos { a with seq := b.seq }).set other { b with seq := a.seq }, true)
    | _, _ => (jobs, false)

/-- The slot of a job that runs: in its gate, lent while paused, asked for again after the
pause, or none (cancelled while it was queued, lent or asked for). -/
inductive Slot where
  | held
  | lent
  | asked
  | bare
  deriving DecidableEq, Repr

structure Running where
  id : Nat
  slot : Slot
  deriving DecidableEq, Repr

def slotted (running : List Running) : Nat := running.countP fun job => job.slot = .held

/-- A runner waits until it has a job. `submitted` and `handed` remember which jobs came
in and which `run_job` got. -/
structure Queue where
  heap : List QueuedJob
  waiting : List Nat
  running : List Running
  free : Nat
  cancelled : List Nat
  submitted : List Nat
  handed : List Nat

def Queue.start (permits : Nat) : Queue := ⟨[], [], [], permits, [], [], []⟩

/-- `run_job` gets the job that runner `r` left with. -/
def Queue.hand (q : Queue) (r : Nat) (job : QueuedJob) (heap : List QueuedJob) (slot : Slot) : Queue :=
  { q with
    heap := heap
    waiting := q.waiting.erase r
    running := ⟨job.id, slot⟩ :: q.running
    handed := job.id :: q.handed }

/-- The jobs of a queue that run, with one job's slot in the middle of them. -/
structure Queue.Runs (q : Queue) (before : List Running) (id : Nat) (slot : Slot) (after : List Running) :
    Prop where
  running : q.running = before ++ ⟨id, slot⟩ :: after

/-- What happens to a queue besides a runner leaving it with a job. The ids are drawn from a counter
that other queues share, and two that are submitted at once may come in either order. -/
inductive Queue.Act : Queue → Queue → Prop where
  | submit {q : Queue} (id : Nat) (priority : Priority) (fresh : id ∉ q.submitted) :
      Act q { q with
        heap := ⟨id, priority, id⟩ :: q.heap
        waiting := id :: q.waiting
        submitted := id :: q.submitted }
  | cancel {q : Queue} (id : Nat) : Act q { q with cancelled := id :: q.cancelled }
  | move {q : Queue} (id : Nat) (up : Bool) : Act q { q with heap := (moverEnCola q.heap id up).1 }
  -- a checkpoint that saw the gate closed
  | lend {q : Queue} {id : Nat} (there : q.Runs before id .held after) :
      Act q { q with running := before ++ ⟨id, .lent⟩ :: after, free := q.free + 1 }
  | resume {q : Queue} {id : Nat} (there : q.Runs before id .lent after) :
      Act q { q with running := before ++ ⟨id, .asked⟩ :: after }
  | regain {q : Queue} {id : Nat} (there : q.Runs before id .asked after) (slot : 0 < q.free) :
      Act q { q with running := before ++ ⟨id, .held⟩ :: after, free := q.free - 1 }
  -- the checkpoint returns `Cancelled` and the body goes on to clean up
  | giveUp {q : Queue} {id : Nat} (there : q.Runs before id old after) (waits : old = .lent ∨ old = .asked)
      (cancelled : id ∈ q.cancelled) : Act q { q with running := before ++ ⟨id, .bare⟩ :: after }
  | finish {q : Queue} {id : Nat} (there : q.Runs before id slot after) :
      Act q { q with running := before ++ after, free := q.free + if slot = .held then 1 else 0 }

/-- A queue whose runners obtain a slot and a job at once. -/
inductive Queue.Step : Queue → Queue → Prop where
  | act (happens : Queue.Act q q') : Step q q'
  | pop {q : Queue} (waits : r ∈ q.waiting) (slot : 0 < q.free) (greatest : pop q.heap = some (job, rest)) :
      Step q { q.hand r job rest .held with free := q.free - 1 }
  -- impossible: every runner corresponds to a push
  | leave {q : Queue} (waits : r ∈ q.waiting) (slot : 0 < q.free) (none : Scheduler.pop q.heap = none) :
      Step q { q with waiting := q.waiting.erase r }
  | take {q : Queue} (waits : r ∈ q.waiting) (cancelled : r ∈ q.cancelled)
      (own : takeJob q.heap r = some (job, rest)) : Step q (q.hand r job rest .bare)

abbrev Queue.Reached (permits : Nat) : Queue → Prop := Relation.ReflTransGen Queue.Step (.start permits)

/-! What a step keeps. -/

theorem exitOrder_perm (heap : List QueuedJob) : (exitOrder heap).Perm heap := List.perm_insertionSort _ heap

theorem pop_perm {heap rest : List QueuedJob} {job : QueuedJob} (popped : pop heap = some (job, rest)) :
    heap.Perm (job :: rest) := by
  have order := exitOrder_perm heap
  unfold pop at popped
  split at popped
  · cases popped
  next first more same =>
    cases popped
    rw [same] at order
    exact order.symm

theorem pop_eq_none {heap : List QueuedJob} (none : pop heap = none) : heap = [] := by
  have order := exitOrder_perm heap
  unfold pop at none
  split at none
  next same =>
    rw [same] at order
    exact order.symm.eq_nil
  · cases none

theorem takeJob_perm {heap rest : List QueuedJob} {job : QueuedJob} {id : Nat}
    (taken : takeJob heap id = some (job, rest)) : job.id = id ∧ heap.Perm (job :: rest) := by
  obtain ⟨found, first, same⟩ := Option.map_eq_some_iff.mp taken
  cases same
  refine ⟨by simpa using List.find?_some first, ?_⟩
  clear taken
  induction heap with
  | nil => cases first
  | cons head heap ih =>
    by_cases own : head.id = id
    · rw [List.find?_cons_of_pos (by simpa using own)] at first
      cases first
      rw [List.eraseP_cons_of_pos (by simpa using own)]
    · rw [List.find?_cons_of_neg (by simpa using own)] at first
      rw [List.eraseP_cons_of_neg (by simpa using own)]
      apply List.Perm.trans (List.Perm.cons head (ih first))
      exact List.Perm.swap job head _

theorem map_set_of_eq {f : α → β} {l : List α} {i : Nat} {a : α} (same : l[i]?.map f = some (f a)) :
    (l.set i a).map f = l.map f := by
  apply List.ext_getElem?
  intro j
  rw [List.getElem?_map, List.getElem?_map, List.getElem?_set]
  split
  next here =>
    subst here
    split
    · exact same.symm
    next short =>
      rw [List.getElem?_eq_none (Nat.le_of_not_lt short)]
  next => rfl

/-- Reordering keeps the ids. -/
theorem moverEnCola_ids (heap : List QueuedJob) (id : Nat) (up : Bool) :
    ((moverEnCola heap id up).1.map QueuedJob.id).Perm (heap.map QueuedJob.id) := by
  have order := (exitOrder_perm heap).map QueuedJob.id
  unfold moverEnCola
  extract_lets jobs
  split
  · exact order
  next pos _ =>
    extract_lets other
    split
    next a index b here there =>
      obtain ⟨other', _, found⟩ := Option.bind_eq_some_iff.mp there
      obtain ⟨b', there, same⟩ := Option.map_eq_some_iff.mp found
      cases same
      have first : (jobs.set pos { a with seq := b.seq }).map QueuedJob.id = jobs.map QueuedJob.id :=
        map_set_of_eq (by rw [here]; rfl)
      rw [map_set_of_eq, first]
      · exact order
      · rw [← List.getElem?_map, first, List.getElem?_map, there]
        rfl
    · exact order

/-- Every runner has a job to wait for, every job is either queued or handed over, and
every slot is either free or in a gate. -/
structure Queue.Conserves (permits : Nat) (q : Queue) : Prop where
  runners : q.waiting.length = q.heap.length
  jobs : (q.heap.map QueuedJob.id ++ q.handed).Perm q.submitted
  apart : q.submitted.Nodup
  slots : slotted q.running + q.free = permits

theorem slotted_middle (before after : List Running) (id : Nat) (slot : Slot) :
    slotted (before ++ ⟨id, slot⟩ :: after) =
      slotted before + slotted after + if slot = .held then 1 else 0 := by
  rw [slotted, List.countP_append, List.countP_cons]
  simp only [slotted, decide_eq_true_eq]
  omega

theorem Queue.Conserves.start (permits : Nat) : (Queue.start permits).Conserves permits where
  runners := rfl
  jobs := .nil
  apart := .nil
  slots := Nat.zero_add permits

theorem Queue.Conserves.act {permits : Nat} {q q' : Queue} (conserves : q.Conserves permits)
    (happens : Queue.Act q q') : q'.Conserves permits := by
  obtain ⟨runners, jobs, apart, slots⟩ := conserves
  cases happens with
  | submit id priority fresh => exact ⟨by simp [runners], jobs.cons id, List.nodup_cons.mpr ⟨fresh, apart⟩, slots⟩
  | cancel id => exact ⟨runners, jobs, apart, slots⟩
  | move id up =>
    have ids := moverEnCola_ids q.heap id up
    refine ⟨?_, (ids.append_right _).trans jobs, apart, slots⟩
    have length := ids.length_eq
    rw [List.length_map, List.length_map] at length
    exact runners.trans length.symm
  | lend there =>
    refine ⟨runners, jobs, apart, ?_⟩
    rw [there.running, slotted_middle] at slots
    simp only [slotted_middle, reduceCtorEq, ↓reduceIte] at slots ⊢
    omega
  | resume there =>
    refine ⟨runners, jobs, apart, ?_⟩
    rw [there.running, slotted_middle] at slots
    simpa only [slotted_middle, reduceCtorEq, ↓reduceIte] using slots
  | regain there slot =>
    refine ⟨runners, jobs, apart, ?_⟩
    rw [there.running, slotted_middle] at slots
    simp only [slotted_middle, reduceCtorEq, ↓reduceIte] at slots ⊢
    omega
  | giveUp there waits cancelled =>
    refine ⟨runners, jobs, apart, ?_⟩
    rw [there.running, slotted_middle] at slots
    rcases waits with rfl | rfl
    · simpa only [slotted_middle, reduceCtorEq, ↓reduceIte] using slots
    · simpa only [slotted_middle, reduceCtorEq, ↓reduceIte] using slots
  | finish there =>
    refine ⟨runners, jobs, apart, ?_⟩
    rw [there.running, slotted_middle] at slots
    simp only [slotted, List.countP_append] at slots ⊢
    omega

/-- A runner leaves with a job of the heap. -/
theorem Queue.Conserves.hand {permits : Nat} {q : Queue} (conserves : q.Conserves permits) {r : Nat}
    (waits : r ∈ q.waiting) {job : QueuedJob} {heap : List QueuedJob} (left : q.heap.Perm (job :: heap)) :
    (q.waiting.erase r).length = heap.length ∧
      (heap.map QueuedJob.id ++ job.id :: q.handed).Perm q.submitted := by
  constructor
  · rw [List.length_erase_of_mem waits, conserves.runners, left.length_eq, List.length_cons, Nat.add_sub_cancel]
  · apply List.Perm.trans _ conserves.jobs
    apply List.perm_middle.trans
    exact ((left.map QueuedJob.id).append_right q.handed).symm

theorem Queue.Conserves.step {permits : Nat} {q q' : Queue} (conserves : q.Conserves permits)
    (step : Queue.Step q q') : q'.Conserves permits := by
  cases step with
  | act happens => exact conserves.act happens
  | pop waits slot greatest =>
    obtain ⟨runners, jobs⟩ := conserves.hand waits (pop_perm greatest)
    refine ⟨runners, jobs, conserves.apart, ?_⟩
    have slots := conserves.slots
    simp only [Queue.hand, slotted, List.countP_cons, decide_true, ↓reduceIte] at slots ⊢
    omega
  | leave waits slot none =>
    have runners := conserves.runners
    rw [pop_eq_none none] at runners
    rw [List.eq_nil_of_length_eq_zero runners] at waits
    cases waits
  | take waits cancelled own =>
    obtain ⟨runners, jobs⟩ := conserves.hand waits (takeJob_perm own).2
    refine ⟨runners, jobs, conserves.apart, ?_⟩
    have slots := conserves.slots
    simp only [Queue.hand, slotted, List.countP_cons, reduceCtorEq, decide_false, Bool.false_eq_true,
      ↓reduceIte, Nat.add_zero] at slots ⊢
    exact slots

theorem Queue.Reached.conserves {permits : Nat} {q : Queue} (reached : q.Reached permits) :
    q.Conserves permits := by
  induction reached with
  | refl => exact .start permits
  | tail _ step ih => exact ih.step step

/-- Whatever the order of steps: as many runners as jobs wait, `run_job` gets every job at
most once and none that was not submitted, once no runner waits it has got them all, and
the slots in gates and the free ones are those the queue began with. -/
theorem queue_conserves {permits : Nat} {q : Queue} (reached : q.Reached permits) :
    q.waiting.length = q.heap.length ∧
    (∀ id ∈ q.submitted, q.handed.count id ≤ 1) ∧
    (∀ id ∈ q.handed, id ∈ q.submitted) ∧
    (q.waiting = [] → ∀ id ∈ q.submitted, q.handed.count id = 1) ∧
    slotted q.running + q.free = permits := by
  obtain ⟨runners, jobs, apart, slots⟩ := reached.conserves
  have once (id : Nat) (member : id ∈ q.submitted) :
      (q.heap.map QueuedJob.id).count id + q.handed.count id = 1 := by
    rw [← List.count_append, jobs.count_eq]
    exact List.count_eq_one_of_mem apart member
  refine ⟨runners, ?_, ?_, ?_, slots⟩
  · intro id member
    have := once id member
    omega
  · intro id member
    exact jobs.subset (List.mem_append_right _ member)
  · intro none id member
    have all := once id member
    rw [none] at runners
    rwa [List.eq_nil_of_length_eq_zero runners.symm, List.map_nil, List.count_nil, Nat.zero_add] at all

/-- Two jobs, submitted at once, and one slot: the runner of the first takes the urgent one, and the
runner of the second, cancelled meanwhile, the other. -/
def sample : Queue :=
  { heap := [], waiting := [], running := [⟨0, .held⟩], free := 0, cancelled := [1],
    submitted := [0, 1], handed := [0, 1] }

theorem sample_reached : sample.Reached 1 := by
  have first := Relation.ReflTransGen.refl.tail (Queue.Step.act (.submit (q := .start 1) 1 .high (by decide)))
  have second := first.tail (.act (.submit 0 .normal (by decide)))
  have urgent := second.tail (.pop (r := 0) (by decide) (by decide)
    (show pop _ = some (⟨1, .high, 1⟩, [⟨0, .normal, 0⟩]) by decide))
  have cancelled := urgent.tail (.act (.cancel 1))
  have finished := cancelled.tail (.act (.finish ⟨(rfl : _ = [] ++ (⟨1, .held⟩ : Running) :: [])⟩))
  exact finished.tail (.pop (r := 1) (by decide) (by decide)
    (show pop _ = some (⟨0, .normal, 0⟩, []) by decide))

theorem queue_conserves_sample : sample.handed.count 0 = 1 ∧ slotted sample.running + sample.free = 1 :=
  have conserves := queue_conserves sample_reached
  ⟨conserves.2.2.2.1 rfl 0 (by decide), conserves.2.2.2.2⟩

/-! Between its awaits. -/

/-- Where a runner is: asking for a slot or for its token; with the token cancelled, about
to look for its own job; left with a slot to ask for, its job gone; with a slot. -/
inductive Phase where
  | choosing
  | seeking
  | barred
  | popping
  deriving DecidableEq, Repr

/-- A queue whose runners stop at every await and at every lock. -/
structure Machine where
  queue : Queue
  phase : Nat → Phase

def Machine.start (permits : Nat) : Machine := ⟨.start permits, fun _ => .choosing⟩

inductive Machine.Step : Machine → Machine → Prop where
  | act {m : Machine} (happens : Queue.Act m.queue q) : Step m { m with queue := q }
  | acquire {m : Machine} (waits : r ∈ m.queue.waiting) (asks : m.phase r = .choosing ∨ m.phase r = .barred)
      (slot : 0 < m.queue.free) :
      Step m ⟨{ m.queue with free := m.queue.free - 1 }, Function.update m.phase r .popping⟩
  | notice {m : Machine} (waits : r ∈ m.queue.waiting) (asks : m.phase r = .choosing)
      (cancelled : r ∈ m.queue.cancelled) : Step m { m with phase := Function.update m.phase r .seeking }
  | take {m : Machine} (waits : r ∈ m.queue.waiting) (seeks : m.phase r = .seeking)
      (own : takeJob m.queue.heap r = some (job, rest)) :
      Step m { m with queue := m.queue.hand r job rest .bare }
  | bar {m : Machine} (waits : r ∈ m.queue.waiting) (seeks : m.phase r = .seeking)
      (gone : takeJob m.queue.heap r = none) : Step m { m with phase := Function.update m.phase r .barred }
  | pop {m : Machine} (waits : r ∈ m.queue.waiting) (slot : m.phase r = .popping)
      (greatest : Scheduler.pop m.queue.heap = some (job, rest)) :
      Step m { m with queue := m.queue.hand r job rest .held }
  -- the slot of a runner that leaves without a job is free again
  | leave {m : Machine} (waits : r ∈ m.queue.waiting) (slot : m.phase r = .popping)
      (none : Scheduler.pop m.queue.heap = none) :
      Step m { m with queue := { m.queue with waiting := m.queue.waiting.erase r, free := m.queue.free + 1 } }

abbrev Machine.Reached (permits : Nat) : Machine → Prop := Relation.ReflTransGen Machine.Step (.start permits)

/-- The runners with a slot in hand. -/
def Machine.inHand (m : Machine) : Nat := m.queue.waiting.countP fun r => m.phase r = .popping

/-- What the awaits hide: a slot in a runner's hand is still free, nothing runs on it. -/
def Machine.view (m : Machine) : Queue := { m.queue with free := m.queue.free + m.inHand }

/-- A runner waits once, its token is cancelled once it looks for its own job, and one not
spawned yet has asked for nothing. -/
structure Machine.Sound (m : Machine) : Prop where
  apart : m.queue.waiting.Nodup
  known : ∀ r ∈ m.queue.waiting, r ∈ m.queue.submitted
  cancelled : ∀ r, m.phase r = .seeking → r ∈ m.queue.cancelled
  fresh : ∀ r, r ∉ m.queue.submitted → m.phase r = .choosing

theorem countP_update {l : List Nat} (apart : l.Nodup) {phase : Nat → Phase} {r : Nat} (p : Phase)
    (member : r ∈ l) (other : phase r ≠ .popping) :
    l.countP (fun s => Function.update phase r p s = .popping) =
      l.countP (fun s => phase s = .popping) + if p = .popping then 1 else 0 := by
  induction l with
  | nil => cases member
  | cons s l ih =>
    obtain ⟨new, apart⟩ := List.nodup_cons.mp apart
    rw [List.countP_cons, List.countP_cons]
    by_cases own : s = r
    · subst own
      have rest : l.countP (fun t => Function.update phase s p t = .popping) =
          l.countP fun t => phase t = .popping := by
        apply List.countP_congr
        intro t here
        have : t ≠ s := fun same => new (same ▸ here)
        simp [this]
      rw [rest]
      simp [other]
    · have later : r ∈ l := (List.mem_cons.mp member).resolve_left fun same => own same.symm
      rw [ih apart later]
      simp only [Function.update_of_ne own]
      omega

theorem countP_erase {l : List Nat} {phase : Nat → Phase} {r : Nat} (member : r ∈ l) :
    l.countP (fun s => phase s = .popping) =
      (l.erase r).countP (fun s => phase s = .popping) + if phase r = .popping then 1 else 0 := by
  have order := (List.perm_cons_erase member).countP_eq fun s => decide (phase s = .popping)
  rw [order, List.countP_cons]
  simp

theorem Machine.Sound.start (permits : Nat) : (Machine.start permits).Sound where
  apart := .nil
  known := by simp [Machine.start, Queue.start]
  cancelled := by simp [Machine.start]
  fresh := by simp [Machine.start]

theorem Machine.Sound.act {m : Machine} {q : Queue} (sound : m.Sound) (happens : Queue.Act m.queue q) :
    Machine.Sound { m with queue := q } := by
  obtain ⟨apart, known, cancelled, fresh⟩ := sound
  generalize m.queue = old at happens apart known cancelled fresh
  cases happens with
  | submit id priority new =>
    refine ⟨List.nodup_cons.mpr ⟨fun waits => new (known id waits), apart⟩, ?_, cancelled,
      fun r later => fresh r fun before => later (List.mem_cons_of_mem _ before)⟩
    intro r member
    rcases List.mem_cons.mp member with rfl | waits
    · exact List.mem_cons_self
    · exact List.mem_cons_of_mem _ (known r waits)
  | cancel id => exact ⟨apart, known, fun r seeks => List.mem_cons_of_mem _ (cancelled r seeks), fresh⟩
  | _ => exact ⟨apart, known, cancelled, fresh⟩

/-- A step of a runner to another phase. -/
theorem Machine.Sound.turn {m : Machine} (sound : m.Sound) {r : Nat} {p : Phase} (waits : r ∈ m.queue.waiting)
    (cancelled : p = .seeking → r ∈ m.queue.cancelled) (free : Nat) :
    Machine.Sound ⟨{ m.queue with free := free }, Function.update m.phase r p⟩ := by
  refine ⟨sound.apart, sound.known, ?_, ?_⟩
  · intro s seeks
    change Function.update m.phase r p s = .seeking at seeks
    by_cases own : s = r
    · subst own
      rw [Function.update_self] at seeks
      exact cancelled seeks
    · rw [Function.update_of_ne own] at seeks
      exact sound.cancelled s seeks
  · intro s later
    change Function.update m.phase r p s = .choosing
    have own : s ≠ r := by
      rintro rfl
      exact later (sound.known s waits)
    rw [Function.update_of_ne own]
    exact sound.fresh s later

theorem Machine.Sound.erase {m : Machine} (sound : m.Sound) {q : Queue} {r : Nat}
    (left : q.waiting = m.queue.waiting.erase r) (ids : q.submitted = m.queue.submitted)
    (tokens : q.cancelled = m.queue.cancelled) : Machine.Sound { m with queue := q } := by
  refine ⟨left ▸ sound.apart.erase r, ?_, ?_, ?_⟩
  · intro s member
    rw [left] at member
    exact ids ▸ sound.known s (List.mem_of_mem_erase member)
  · intro s seeks
    exact tokens ▸ sound.cancelled s seeks
  · intro s later
    exact sound.fresh s (ids ▸ later)

theorem Machine.Sound.step {m m' : Machine} (sound : m.Sound) (step : Machine.Step m m') : m'.Sound := by
  cases step with
  | act happens => exact sound.act happens
  | acquire waits asks slot => exact sound.turn waits (by simp) _
  | notice waits asks cancelled => exact sound.turn waits (fun _ => cancelled) _
  | take waits seeks own => exact sound.erase rfl rfl rfl
  | bar waits seeks gone => exact sound.turn waits (by simp) _
  | pop waits slot greatest => exact sound.erase rfl rfl rfl
  | leave waits slot none => exact sound.erase rfl rfl rfl

/-- More free slots allow the same. -/
theorem Queue.Act.more {q q' : Queue} (happens : Queue.Act q q') (k : Nat) :
    Queue.Act { q with free := q.free + k } { q' with free := q'.free + k } := by
  cases happens with
  | submit id priority fresh => exact .submit id priority fresh
  | cancel id => exact .cancel id
  | move id up => exact .move id up
  | lend there =>
    rw [Nat.add_right_comm]
    exact .lend ⟨there.running⟩
  | resume there => exact .resume ⟨there.running⟩
  | regain there slot =>
    have back : q.free - 1 + k = q.free + k - 1 := by omega
    rw [back]
    exact .regain ⟨there.running⟩ (Nat.lt_of_lt_of_le slot (Nat.le_add_right ..))
  | giveUp there waits cancelled => exact .giveUp ⟨there.running⟩ waits cancelled
  | finish there =>
    rw [Nat.add_right_comm]
    exact .finish ⟨there.running⟩

theorem Queue.Act.inHand {m : Machine} {q : Queue} (sound : m.Sound) (happens : Queue.Act m.queue q) :
    Machine.inHand { m with queue := q } = m.inHand := by
  have fresh := sound.fresh
  unfold Machine.inHand
  generalize m.queue = old at happens fresh
  cases happens with
  | submit id priority new =>
    rw [List.countP_cons]
    simp [fresh id new]
  | _ => rfl

/-- Between its awaits a runner does what the queue's steps say, or nothing. -/
theorem Machine.Step.view {m m' : Machine} (sound : m.Sound) (step : Machine.Step m m') :
    Queue.Step m.view m'.view ∨ m'.view = m.view := by
  cases step with
  | act happens =>
    left
    have more := happens.more m.inHand
    rw [← happens.inHand sound] at more
    rw [Machine.view, ← happens.inHand sound]
    exact .act more
  | @acquire r _ waits asks slot =>
    right
    have other : m.phase r ≠ .popping := by
      rcases asks with same | same <;> simp [same]
    have count := countP_update sound.apart .popping waits other
    simp only [Machine.view, Machine.inHand, count, ↓reduceIte]
    congr 1
    omega
  | @notice r _ waits asks cancelled =>
    right
    have count := countP_update sound.apart .seeking waits (by simp [asks] : m.phase r ≠ .popping)
    simp only [Machine.view, Machine.inHand, count, reduceCtorEq, ↓reduceIte, Nat.add_zero]
  | @take r _ _ _ waits seeks own =>
    left
    have count := @countP_erase _ m.phase _ waits
    simp only [seeks, reduceCtorEq, ↓reduceIte, Nat.add_zero] at count
    have step := Queue.Step.take (q := m.view) waits (sound.cancelled r seeks) own
    simp only [Machine.view, Machine.inHand, Queue.hand, count] at step ⊢
    exact step
  | @bar r _ waits seeks gone =>
    right
    have count := countP_update sound.apart .barred waits (by simp [seeks] : m.phase r ≠ .popping)
    simp only [Machine.view, Machine.inHand, count, reduceCtorEq, ↓reduceIte, Nat.add_zero]
  | @pop r _ _ _ waits slot greatest =>
    left
    have count := @countP_erase _ m.phase _ waits
    simp only [slot, ↓reduceIte] at count
    have free : 0 < m.view.free := by
      simp only [Machine.view, Machine.inHand, count]
      omega
    have step := Queue.Step.pop (q := m.view) waits free greatest
    simp only [Machine.view, Machine.inHand, Queue.hand, count, ← Nat.add_assoc, Nat.add_sub_cancel] at step ⊢
    exact step
  | @leave r _ waits slot none =>
    left
    have count := @countP_erase _ m.phase _ waits
    simp only [slot, ↓reduceIte] at count
    have free : 0 < m.view.free := by
      simp only [Machine.view, Machine.inHand, count]
      omega
    have step := Queue.Step.leave (q := m.view) waits free none
    simp only [Machine.view, Machine.inHand, count, ← Nat.add_assoc, Nat.add_right_comm _ _ 1] at step ⊢
    exact step

theorem Machine.Reached.sound {permits : Nat} {m : Machine} (reached : m.Reached permits) : m.Sound := by
  induction reached with
  | refl => exact .start permits
  | tail _ step ih => exact ih.step step

/-- So the queue that the awaits hide is reached by the queue's own steps. -/
theorem Machine.Reached.view {permits : Nat} {m : Machine} (reached : m.Reached permits) :
    m.view.Reached permits := by
  induction reached with
  | refl => exact .refl
  | tail before step ih =>
    rcases step.view (Machine.Reached.sound before) with step | same
    · exact ih.tail step
    · exact same ▸ ih

end Norte.Scheduler
