import Mathlib.Data.Fintype.Card
import Norte.RenameVerdicts

/-! The order of a plan: chains from their free end, then each cycle with one member
parked under a temporary. Every step is clear when its turn comes, and the last one
leaves every pair at its destination. -/
namespace Norte.Rename

open Moves

variable {nameKey : Bytes → NameCaps → Bytes}

def Step.move (s : Step) : Move Bytes := ⟨s.fromName, s.toName⟩

theorem find_unique {p : α → Bool} {l : List α} {a : α} (member : a ∈ l) (holds : p a)
    (unique : ∀ b, p b → b = a) : l.find? p = some a := by
  cases found : l.find? p with
  | none => exact absurd holds (by simpa using List.find?_eq_none.mp found a member)
  | some b => rw [unique b (List.find?_some found)]

theorem get_inj_of_map_nodup {f : α → β} {l : List α} (nodup : (l.map f).Nodup)
    {i j : Fin l.length} (same : f (l.get i) = f (l.get j)) : i = j := by
  have entries := List.inj_on_of_nodup_map nodup (List.get_mem l i) (List.get_mem l j) same
  exact (List.nodup_iff_injective_get.mp (nodup.of_map f)) entries

section Order

variable {listing : List Bytes} {caps : NameCaps} {work : List Work}

/-- The work of a plan as a batch of moves over the directory. -/
def Orderly.batch (o : Orderly nameKey listing caps work) :
    Batch (nameKey · caps) (Fin work.length) where
  entries := listing.toFinset
  source i := (work.get i).fromName
  target i := (work.get i).toName
  present i := List.mem_toFinset.mpr (o.onDisk _ (List.get_mem ..)).1
  sources i j same := by
    rw [(o.onDisk _ (List.get_mem ..)).2.1, (o.onDisk _ (List.get_mem ..)).2.1] at same
    exact get_inj_of_map_nodup o.fromKeys same
  targets i j same := by
    rw [(o.onDisk _ (List.get_mem ..)).2.2, (o.onDisk _ (List.get_mem ..)).2.2] at same
    exact get_inj_of_map_nodup o.toKeys same
  free i e member same := by
    rw [(o.onDisk _ (List.get_mem ..)).2.2] at same
    obtain ⟨v, inside, rfl⟩ := o.unblocked _ (List.get_mem ..) e (List.mem_toFinset.mp member) same
    obtain ⟨j, rfl⟩ := List.get_of_mem inside
    exact ⟨j, rfl⟩

variable (o : Orderly nameKey listing caps work)
include o

theorem sources_eq_some {key : Bytes} {i : Fin work.length} :
    sources work key = some i ↔ (work.get i).fromKey = key := by
  constructor
  · intro found
    simpa using List.find?_some found
  · intro same
    refine find_unique (by simp) (by simpa using same) fun j other => ?_
    exact get_inj_of_map_nodup o.fromKeys ((by simpa using other : _ = key).trans same.symm)

theorem waitsOn_eq_some {i j : Fin work.length} :
    waitsOn work i = some j ↔ o.batch.Waits i j := by
  have keys : nameKey (work.get j).fromName caps = (work.get j).fromKey :=
    (o.onDisk _ (List.get_mem ..)).2.1
  have dests : nameKey (work.get i).toName caps = (work.get i).toKey :=
    (o.onDisk _ (List.get_mem ..)).2.2
  simp only [waitsOn, Option.filter_eq_some_iff, sources_eq_some o, decide_eq_true_eq, Batch.Waits,
    Orderly.batch, keys, dests]
  exact and_comm

theorem waiter_eq_some {i j : Fin work.length} :
    waiter work j = some i ↔ o.batch.Waits i j := by
  constructor
  · intro found
    exact (waitsOn_eq_some o).mp (by simpa using List.find?_some found)
  · intro waits
    refine find_unique (by simp) (by simpa using (waitsOn_eq_some o).mpr waits) fun k other => ?_
    exact o.batch.waits_unique ((waitsOn_eq_some o).mp (by simpa using other)) waits

theorem ready_of_not_isBlocked {i : Fin work.length} (free : ¬isBlocked work i)
    (done : Finset (Fin work.length)) : o.batch.Ready done i := by
  intro j waits
  rw [← waitsOn_eq_some o] at waits
  simp [isBlocked, waits] at free

end Order

/-- The step that takes position `c` straight to its destination. -/
def direct (work : List Work) (c : Fin work.length) : Step :=
  (work.get c).step (work.get c).fromName (work.get c).toName false

section Walk

variable {listing : List Bytes} {caps : NameCaps} {work : List Work}

/-- What a walk adds to a plan: the directory it reaches, the positions it does, and
the steps it does them with. -/
structure Walked (o : Orderly nameKey listing caps work) (dest : Fin work.length → Bytes)
    (done : Finset (Fin work.length)) (dir : Finset Bytes)
    (result : List Step × Finset (Fin work.length)) : Prop where
  reached : ∃ final, run (nameKey · caps) dir (result.1.map Step.move) = some final ∧
    o.batch.Course dest result.2 final
  grows : done ⊆ result.2
  steps : ∀ s, s ∈ result.1 ↔ ∃ c ∈ result.2, c ∉ done ∧ s = direct work c
  drained : ∀ j ∈ result.2, j ∉ done → ∀ i, o.batch.Waits i j → i ∈ result.2

theorem Walked.nothing {o : Orderly nameKey listing caps work} {dest : Fin work.length → Bytes}
    {done : Finset (Fin work.length)} {dir : Finset Bytes} (course : o.batch.Course dest done dir) :
    Walked o dest done dir ([], done) where
  reached := ⟨dir, rfl, course⟩
  grows := Finset.Subset.refl _
  steps s := by
    constructor
    · intro member; cases member
    · rintro ⟨c, member, out, _⟩; exact absurd member out
  drained j member out := absurd member out

/-- Walking the waiters from a position that is ready. The fuel counts the positions
still to do, so the walk ends at a position done before or at one nobody waits on. -/
theorem runFrom_walked (o : Orderly nameKey listing caps work) {dest : Fin work.length → Bytes}
    (fuel : Nat) (cur : Option (Fin work.length)) (done : Finset (Fin work.length))
    (dir : Finset Bytes) (enough : (doneᶜ).card < fuel) (course : o.batch.Course dest done dir)
    (ready : ∀ c ∈ cur, c ∉ done → o.batch.Ready done c) :
    Walked o dest done dir (runFrom work fuel cur done) ∧
      ∀ c ∈ cur, c ∈ (runFrom work fuel cur done).2 := by
  induction fuel generalizing cur done dir with
  | zero => exact absurd enough (Nat.not_lt_zero _)
  | succ fuel ih =>
    match cur with
    | none => exact ⟨.nothing course, by simp⟩
    | some c =>
      by_cases member : c ∈ done
      · rw [runFrom, if_pos member]
        exact ⟨.nothing course, by simpa using member⟩
      obtain ⟨clear, next⟩ := o.batch.course_step course member (ready c rfl member)
      have fewer : ((insert c done)ᶜ).card < fuel := by
        have := Finset.card_add_card_compl (insert c done)
        have := Finset.card_add_card_compl done
        have := Finset.card_insert_of_notMem member
        omega
      -- whoever waits on `c` waits on nothing else
      have follows : ∀ d ∈ waiter work c, d ∉ insert c done → o.batch.Ready (insert c done) d := by
        intro d waits _ j other
        have held := (waiter_eq_some o).mp waits
        have : j = c := o.batch.sources _ _ (other.2.trans held.2.symm)
        exact this ▸ Finset.mem_insert_self ..
      obtain ⟨walked, reaches⟩ := ih (waiter work c) (insert c done) _ fewer next follows
      rw [runFrom, if_neg member]
      generalize runFrom work fuel (waiter work c) (insert c done) = later at walked reaches
      obtain ⟨final, ran, course⟩ := walked.reached
      have doneC : c ∈ later.2 := walked.grows (Finset.mem_insert_self ..)
      refine ⟨⟨⟨final, ?_, course⟩, ?_, ?_, ?_⟩, by simpa using doneC⟩
      · rw [List.map_cons]
        exact (run_cons clear _).trans ran
      · exact (Finset.subset_insert ..).trans walked.grows
      · intro s
        rw [List.mem_cons, walked.steps s]
        constructor
        · rintro (rfl | ⟨d, inside, out, rfl⟩)
          · exact ⟨c, doneC, member, rfl⟩
          · exact ⟨d, inside, fun old => out (Finset.mem_insert_of_mem old), rfl⟩
        · rintro ⟨d, inside, out, rfl⟩
          by_cases same : d = c
          · exact .inl (by rw [same]; rfl)
          · exact .inr ⟨d, inside, by simp [same, out], rfl⟩
      · intro j inside out i waits
        by_cases same : j = c
        · subst same
          exact reaches i ((waiter_eq_some o).mpr waits)
        · exact walked.drained j inside (by simp [same, out]) i waits

theorem walk_walked (o : Orderly nameKey listing caps work) {dest : Fin work.length → Bytes}
    {done : Finset (Fin work.length)} {dir : Finset Bytes}
    (course : o.batch.Course dest done dir) (start : Option (Fin work.length))
    (ready : ∀ c ∈ start, c ∉ done → o.batch.Ready done c) :
    Walked o dest done dir (walk work start done) ∧ ∀ c ∈ start, c ∈ (walk work start done).2 := by
  refine runFrom_walked o _ _ _ _ ?_ course ready
  have := Finset.card_add_card_compl done
  rw [Fintype.card_fin] at this
  omega

theorem Walked.append {o : Orderly nameKey listing caps work} {dest : Fin work.length → Bytes}
    {done : Finset (Fin work.length)} {dir : Finset Bytes}
    {first second : List Step × Finset (Fin work.length)} (walked : Walked o dest done dir first)
    (later : ∀ mid, o.batch.Course dest first.2 mid → Walked o dest first.2 mid second) :
    Walked o dest done dir (first.1 ++ second.1, second.2) := by
  obtain ⟨mid, ran, course⟩ := walked.reached
  have later := later mid course
  obtain ⟨final, ranLater, course⟩ := later.reached
  refine ⟨⟨final, ?_, course⟩, walked.grows.trans later.grows, ?_, ?_⟩
  · rw [List.map_append, run_append_of_eq ran, ranLater]
  · intro s
    rw [List.mem_append, walked.steps s, later.steps s]
    constructor
    · rintro (⟨c, inside, out, rfl⟩ | ⟨c, inside, out, rfl⟩)
      · exact ⟨c, later.grows inside, out, rfl⟩
      · exact ⟨c, inside, fun old => out (walked.grows old), rfl⟩
    · rintro ⟨c, inside, out, rfl⟩
      by_cases early : c ∈ first.2
      · exact .inl ⟨c, early, out, rfl⟩
      · exact .inr ⟨c, inside, early, rfl⟩
  · intro j inside out i waits
    by_cases early : j ∈ first.2
    · exact later.grows (walked.drained j early out i waits)
    · exact later.drained j inside early i waits

/-- After the chains no position with a free destination is left. -/
theorem chains_walked (o : Orderly nameKey listing caps work) (positions : List (Fin work.length))
    (done : Finset (Fin work.length)) (dir : Finset Bytes)
    (course : o.batch.Course o.batch.target done dir) :
    Walked o o.batch.target done dir (chains work positions done) ∧
      ∀ i ∈ positions, ¬isBlocked work i → i ∈ (chains work positions done).2 := by
  induction positions generalizing done dir with
  | nil => exact ⟨.nothing course, by simp⟩
  | cons i rest ih =>
    rw [chains]
    by_cases held : isBlocked work i
    · rw [if_pos held]
      obtain ⟨walked, free⟩ := ih done dir course
      refine ⟨by simpa using walked, fun k member open_ => ?_⟩
      rcases List.mem_cons.mp member with rfl | member
      · exact absurd held open_
      · exact free k member open_
    · rw [if_neg held]
      obtain ⟨walked, reaches⟩ := walk_walked o course (some i) (by
        rintro c ⟨⟩ _
        exact ready_of_not_isBlocked o held done)
      refine ⟨walked.append fun mid next => (ih _ mid next).1, fun k member open_ => ?_⟩
      obtain ⟨mid, _, next⟩ := walked.reached
      rcases List.mem_cons.mp member with rfl | member
      · exact (ih _ mid next).1.grows (reaches _ rfl)
      · exact (ih _ mid next).2 k member open_

end Walk

/-- The two halves of a position's detour through the temporary `t`. -/
def park (work : List Work) (c : Fin work.length) (t : Bytes) : Step :=
  (work.get c).step (work.get c).fromName t true

def land (work : List Work) (c : Fin work.length) (t : Bytes) : Step :=
  (work.get c).step t (work.get c).toName true

/-- A temporary the dispenser hands out is new to the keys it was shown. -/
theorem nextFrom_fresh {fuel : Nat} {temps temps' : TempNames} {taken taken' : List Bytes}
    {t : Bytes} (handed : TempNames.nextFrom nameKey fuel temps taken = some (t, temps', taken')) :
    nameKey t temps.caps ∉ taken ∧ temps'.caps = temps.caps ∧
      taken' = nameKey t temps.caps :: taken := by
  induction fuel generalizing temps with
  | zero => cases handed
  | succ fuel ih =>
    rw [TempNames.nextFrom] at handed
    split at handed
    next =>
      have later := ih handed
      exact later
    next free =>
      obtain ⟨rfl, rfl, rfl⟩ := handed
      exact ⟨free, rfl, rfl⟩

/-- The dispenser answers while there are fewer keys taken than counter values: each
value it skips is the key of a name of its own. -/
theorem nextFrom_isSome (fuel : Nat) (temps : TempNames) {taken : List Bytes}
    (distinct : ∀ m n, m < 2 ^ 32 → n < 2 ^ 32 →
      nameKey (tempName temps.tag m) temps.caps = nameKey (tempName temps.tag n) temps.caps → m = n)
    (counter : temps.next + fuel = 2 ^ 32 - 1) (room : taken.length < 2 ^ 32 - 1)
    (used : ∀ n < temps.next, nameKey (tempName temps.tag n) temps.caps ∈ taken) :
    ∃ t temps' taken', TempNames.nextFrom nameKey fuel temps taken = some (t, temps', taken') ∧
      temps'.tag = temps.tag ∧ temps'.caps = temps.caps ∧ temps'.next ≤ 2 ^ 32 - 1 ∧
      taken'.length = taken.length + 1 ∧
      ∀ n < temps'.next, nameKey (tempName temps.tag n) temps.caps ∈ taken' := by
  induction fuel generalizing temps with
  | zero =>
    -- every counter value is used up, so as many keys are taken
    have keys : ((List.range temps.next).map fun n => nameKey (tempName temps.tag n) temps.caps).Nodup := by
      refine List.Nodup.map_on (fun m inM n inN same => ?_) List.nodup_range
      have := List.mem_range.mp inM
      have := List.mem_range.mp inN
      exact distinct m n (by omega) (by omega) same
    have subset : ((List.range temps.next).map
        fun n => nameKey (tempName temps.tag n) temps.caps) ⊆ taken := by
      intro key member
      obtain ⟨n, inside, rfl⟩ := List.mem_map.mp member
      exact used n (List.mem_range.mp inside)
    have := (keys.subperm subset).length_le
    simp only [List.length_map, List.length_range] at this
    omega
  | succ fuel ih =>
    have stepped (taken' : List Bytes) (wider : taken ⊆ taken')
        (here : nameKey (tempName temps.tag temps.next) temps.caps ∈ taken') :
        ∀ n < temps.next + 1, nameKey (tempName temps.tag n) temps.caps ∈ taken' := by
      intro n bound
      rcases Nat.lt_succ_iff_lt_or_eq.mp bound with before | rfl
      · exact wider (used n before)
      · exact here
    rw [TempNames.nextFrom]
    split
    next held =>
      exact ih ⟨temps.tag, temps.next + 1, temps.caps⟩ distinct (by simp only; omega)
        (stepped taken (List.Subset.refl _) held)
    next free =>
      exact ⟨_, _, _, rfl, rfl, rfl, by simp only; omega, rfl,
        stepped _ (List.subset_cons_self ..) List.mem_cons_self⟩

section Cycles

variable {listing : List Bytes} {caps : NameCaps} {work : List Work}

/-- Every key a temporary has to stay out of. -/
def Guarded (nameKey : Bytes → NameCaps → Bytes) (listing : List Bytes) (caps : NameCaps)
    (work : List Work) (taken : List Bytes) : Prop :=
  (∀ e ∈ listing, nameKey e caps ∈ taken) ∧ ∀ w ∈ work, w.toKey ∈ taken

theorem Guarded.fresh (o : Orderly nameKey listing caps work) {taken : List Bytes}
    (guarded : Guarded nameKey listing caps work taken) {t : Bytes}
    (new : nameKey t caps ∉ taken) : o.batch.Fresh t := by
  constructor
  · intro e member same
    have held := guarded.1 e (List.mem_toFinset.mp member)
    rw [show nameKey e caps = nameKey t caps from same] at held
    exact new held
  · intro i same
    have held := guarded.2 _ (List.get_mem work i)
    rw [← (o.onDisk _ (List.get_mem work i)).2.2] at held
    rw [show nameKey (work.get i).toName caps = nameKey t caps from same] at held
    exact new held

/-- What the cycles add to a plan that has run its chains. -/
structure Cycled (o : Orderly nameKey listing caps work) (done : Finset (Fin work.length))
    (dir : Finset Bytes) (steps : List Step) (after : Finset (Fin work.length)) : Prop where
  reached : ∃ final, run (nameKey · caps) dir (steps.map Step.move) = some final ∧
    o.batch.Course o.batch.target after final
  grows : done ⊆ after
  origin : ∀ s ∈ steps, ∃ c, s = direct work c ∨
    ∃ t, o.batch.Fresh t ∧ (s = park work c t ∨ s = land work c t)
  moved : ∀ c ∈ after, c ∉ done → ∃ s ∈ steps, s.fromName = o.batch.source c

/-- One cycle: parked, walked round to the position the parked one waits on, landed. -/
theorem cycle_cycled (o : Orderly nameKey listing caps work) {done : Finset (Fin work.length)}
    {dir : Finset Bytes} {i : Fin work.length} {t : Bytes}
    (course : o.batch.Course o.batch.target done dir) (drained : o.batch.Drained done)
    (blocked : ∀ k ∉ done, isBlocked work k) (undone : i ∉ done) (fresh : o.batch.Fresh t) :
    Cycled o done dir
      (park work i t :: (walk work (waiter work i) (insert i done)).1 ++ [land work i t])
      (walk work (waiter work i) (insert i done)).2 ∧
    o.batch.Drained (walk work (waiter work i) (insert i done)).2 ∧
    i ∈ (walk work (waiter work i) (insert i done)).2 := by
  obtain ⟨clearPark, parked⟩ := o.batch.course_park course undone fresh
  obtain ⟨walked, reaches⟩ := walk_walked o parked (waiter work i) (by
    intro c waits _ j other
    have held := (waiter_eq_some o).mp waits
    have : j = i := o.batch.sources _ _ (other.2.trans held.2.symm)
    exact this ▸ Finset.mem_insert_self ..)
  generalize walk work (waiter work i) (insert i done) = result at walked reaches
  obtain ⟨mid, ran, walkedTo⟩ := walked.reached
  have member : i ∈ result.2 := walked.grows (Finset.mem_insert_self ..)
  have closed : o.batch.Drained result.2 := by
    intro j inside k waits
    by_cases own : j = i
    · subst own
      exact reaches k ((waiter_eq_some o).mpr waits)
    by_cases early : j ∈ done
    · exact walked.grows (Finset.mem_insert_of_mem (drained j early k waits))
    · exact walked.drained j inside (by simp [own, early]) k waits
  have held : ∀ k ∉ result.2, ∃ j, o.batch.Waits k j := by
    intro k out
    have waits := blocked k fun early => out (walked.grows (Finset.mem_insert_of_mem early))
    obtain ⟨j, found⟩ := Option.isSome_iff_exists.mp waits
    exact ⟨j, (waitsOn_eq_some o).mp found⟩
  have ready := o.batch.ready_of_drained closed held i member
  obtain ⟨clearLand, landed⟩ := o.batch.course_land walkedTo fresh member ready
  refine ⟨⟨⟨_, ?_, landed⟩, ?_, ?_, ?_⟩, closed, member⟩
  · rw [List.map_append, List.map_cons]
    refine (run_append_of_eq ((run_cons clearPark _).trans ran) _).trans ?_
    exact run_cons clearLand []
  · exact (Finset.subset_insert ..).trans walked.grows
  · intro s member
    rcases List.mem_append.mp member with first | last
    · rcases List.mem_cons.mp first with rfl | middle
      · exact ⟨i, .inr ⟨t, fresh, .inl rfl⟩⟩
      · obtain ⟨c, _, _, rfl⟩ := (walked.steps s).mp middle
        exact ⟨c, .inl rfl⟩
    · obtain rfl := List.mem_singleton.mp last
      exact ⟨i, .inr ⟨t, fresh, .inr rfl⟩⟩
  · intro c inside out
    by_cases own : c = i
    · exact ⟨park work i t, by simp, by rw [own]; rfl⟩
    · have stepped := (walked.steps _).mpr ⟨c, inside, by simp [own, out], rfl⟩
      exact ⟨direct work c, by simp [stepped], rfl⟩

/-- What the loop over the cycles does at a position still to do. -/
theorem cycles_cons {i : Fin work.length} {rest : List (Fin work.length)}
    {done : Finset (Fin work.length)} {temps : TempNames} {taken : List Bytes} {steps : List Step}
    (undone : i ∉ done) (made : cycles nameKey work (i :: rest) done temps taken = some steps) :
    ∃ t temps' taken' later, temps.take nameKey taken = some (t, temps', taken') ∧
      cycles nameKey work rest (walk work (waiter work i) (insert i done)).2 temps' taken' =
        some later ∧
      steps = (park work i t :: (walk work (waiter work i) (insert i done)).1 ++ [land work i t]) ++
        later := by
  rw [cycles, if_neg undone] at made
  obtain ⟨⟨t, temps', taken'⟩, handed, made⟩ := Option.bind_eq_some_iff.mp made
  obtain ⟨later, madeLater, made⟩ := Option.bind_eq_some_iff.mp made
  refine ⟨t, temps', taken', later, handed, madeLater, ?_⟩
  rw [← Option.some.inj made, List.append_assoc]
  rfl

theorem cycles_cycled (o : Orderly nameKey listing caps work) (positions : List (Fin work.length))
    (done : Finset (Fin work.length)) (temps : TempNames) (taken : List Bytes)
    (dir : Finset Bytes) (steps : List Step)
    (made : cycles nameKey work positions done temps taken = some steps)
    (regime : temps.caps = caps) (guarded : Guarded nameKey listing caps work taken)
    (course : o.batch.Course o.batch.target done dir) (drained : o.batch.Drained done)
    (blocked : ∀ k ∉ done, isBlocked work k) :
    ∃ after, Cycled o done dir steps after ∧ ∀ i ∈ positions, i ∈ after := by
  induction positions generalizing done temps taken dir steps with
  | nil =>
    obtain rfl := Option.some.inj made
    refine ⟨done, ⟨⟨dir, rfl, course⟩, Finset.Subset.refl _, by simp, ?_⟩, by simp⟩
    intro c inside out
    exact absurd inside out
  | cons i rest ih =>
    rw [cycles] at made
    by_cases member : i ∈ done
    · rw [if_pos member] at made
      obtain ⟨after, cycled, covers⟩ := ih done temps taken dir steps made regime guarded course
        drained blocked
      exact ⟨after, cycled, by simpa using ⟨cycled.grows member, covers⟩⟩
    obtain ⟨t, temps', taken', later, handed, madeLater, rfl⟩ := cycles_cons member made
    obtain ⟨new, same, rfl⟩ := nextFrom_fresh handed
    rw [regime] at new same
    obtain ⟨cycled, closed, opened⟩ :=
      cycle_cycled o course drained blocked member (guarded.fresh o new)
    generalize walk work (waiter work i) (insert i done) = result at cycled closed opened madeLater
    obtain ⟨mid, ran, next⟩ := cycled.reached
    have wider : Guarded nameKey listing caps work (nameKey t temps.caps :: taken) :=
      ⟨fun e entry => List.mem_cons_of_mem _ (guarded.1 e entry),
        fun w inside => List.mem_cons_of_mem _ (guarded.2 w inside)⟩
    obtain ⟨after, others, covers⟩ := ih _ temps' _ mid later madeLater same wider next closed
      fun k out => blocked k fun early => out (cycled.grows early)
    obtain ⟨final, ranLater, finished⟩ := others.reached
    refine ⟨after, ⟨⟨final, ?_, finished⟩, cycled.grows.trans others.grows, ?_, ?_⟩, ?_⟩
    · rw [List.map_append, run_append_of_eq ran, ranLater]
    · intro s inside
      rcases List.mem_append.mp inside with early | late
      · exact cycled.origin s early
      · exact others.origin s late
    · intro c inside out
      by_cases early : c ∈ result.2
      · obtain ⟨s, found, source⟩ := cycled.moved c early out
        exact ⟨s, List.mem_append_left _ found, source⟩
      · obtain ⟨s, found, source⟩ := others.moved c inside early
        exact ⟨s, List.mem_append_right _ found, source⟩
    · intro k inside
      rcases List.mem_cons.mp inside with rfl | inside
      · exact others.grows opened
      · exact covers k inside

/-- A plan's steps, run against its listing. -/
structure Ordered (o : Orderly nameKey listing caps work) (steps : List Step) : Prop where
  reached : ∃ final, run (nameKey · caps) listing.toFinset (steps.map Step.move) = some final ∧
    ∀ e, e ∈ final ↔ (e ∈ listing ∧ ∀ j, e ≠ o.batch.source j) ∨ ∃ j, e = o.batch.target j
  origin : ∀ s ∈ steps, ∃ c, s = direct work c ∨
    ∃ t, o.batch.Fresh t ∧ (s = park work c t ∨ s = land work c t)
  moved : ∀ c, ∃ s ∈ steps, s.fromName = o.batch.source c

theorem order_ordered (o : Orderly nameKey listing caps work) {taken : List Bytes} {tag : Bytes}
    {steps : List Step} (made : order nameKey work taken tag caps = some steps)
    (entries : ∀ e ∈ listing, nameKey e caps ∈ taken) : Ordered o steps := by
  obtain ⟨walked, free⟩ := chains_walked o (List.finRange work.length) ∅ _ o.batch.course_start
  simp only [order] at made
  generalize chains work (List.finRange work.length) ∅ = first at walked free made
  obtain ⟨later, madeLater, rfl⟩ := Option.map_eq_some_iff.mp made
  obtain ⟨mid, ran, course⟩ := walked.reached
  have drained : o.batch.Drained first.2 := fun j inside =>
    walked.drained j inside (Finset.notMem_empty j)
  have guarded : Guarded nameKey listing caps work (work.map Work.toKey ++ taken) :=
    ⟨fun e member => List.mem_append_right _ (entries e member),
      fun w member => List.mem_append_left _ (List.mem_map_of_mem member)⟩
  have blocked : ∀ k ∉ first.2, isBlocked work k := by
    intro k out
    by_contra open_
    exact out (free k (List.mem_finRange k) open_)
  obtain ⟨after, cycled, covers⟩ := cycles_cycled o _ _ _ _ mid later madeLater rfl guarded course
    drained blocked
  obtain ⟨final, ranLater, finished⟩ := cycled.reached
  refine ⟨⟨final, ?_, ?_⟩, ?_, ?_⟩
  · rw [List.map_append]
    exact (run_append_of_eq ran _).trans ranLater
  · intro e
    rw [o.batch.mem_of_complete finished (fun i => covers i (List.mem_finRange i))]
    exact or_congr_left (and_congr_left' List.mem_toFinset)
  · intro s inside
    rcases List.mem_append.mp inside with early | late
    · obtain ⟨c, _, _, rfl⟩ := (walked.steps s).mp early
      exact ⟨c, .inl rfl⟩
    · exact cycled.origin s late
  · intro c
    by_cases early : c ∈ first.2
    · refine ⟨direct work c, List.mem_append_left _ ?_, rfl⟩
      exact (walked.steps _).mpr ⟨c, early, Finset.notMem_empty c, rfl⟩
    · obtain ⟨s, found, source⟩ := cycled.moved c (covers c (List.mem_finRange c)) early
      exact ⟨s, List.mem_append_right _ found, source⟩

end Cycles

section Total

variable {work : List Work}

theorem cycles_isSome (positions : List (Fin work.length)) (done : Finset (Fin work.length))
    (temps : TempNames) (taken : List Bytes)
    (distinct : ∀ m n, m < 2 ^ 32 → n < 2 ^ 32 →
      nameKey (tempName temps.tag m) temps.caps = nameKey (tempName temps.tag n) temps.caps → m = n)
    (counter : temps.next ≤ 2 ^ 32 - 1) (room : taken.length + positions.length < 2 ^ 32)
    (used : ∀ n < temps.next, nameKey (tempName temps.tag n) temps.caps ∈ taken) :
    (cycles nameKey work positions done temps taken).isSome := by
  induction positions generalizing done temps taken with
  | nil => rfl
  | cons i rest ih =>
    rw [List.length_cons] at room
    rw [cycles]
    split
    · exact ih done temps taken distinct counter (by omega) used
    · obtain ⟨t, temps', taken', handed, tag, caps, counter', length, used'⟩ :=
        nextFrom_isSome (2 ^ 32 - 1 - temps.next) temps distinct (by omega) (by omega) used
      rw [TempNames.take, handed]
      have later := ih (walk work (waiter work i) (insert i done)).2 temps' taken'
        (by rw [tag, caps]; exact distinct) counter' (by omega) (by rw [tag, caps]; exact used')
      obtain ⟨steps, made⟩ := Option.isSome_iff_exists.mp later
      simp [made]

end Total

section Plan

variable {sha256 : Bytes → Bytes} {pairs : List (Bytes × Bytes)} {listing : List Bytes}
  {caps : NameCaps} {plan : RenamePlan}

theorem planBatch_ordered (planned : planBatch nameKey sha256 pairs listing caps = some plan)
    (executable : plan.collisions = []) :
    ∃ o : Orderly nameKey listing caps (realWork nameKey pairs listing caps),
      Ordered o plan.steps := by
  simp only [planBatch] at planned
  by_cases clean : (classify nameKey pairs (.index nameKey listing caps) caps).2 = []
  · obtain ⟨work, orderly⟩ := classify_orderly clean
    rw [if_neg (not_not.mpr clean)] at planned
    obtain ⟨steps, made, planned⟩ := Option.bind_eq_some_iff.mp planned
    obtain rfl := Option.some.inj planned
    rw [work] at made
    exact ⟨orderly, order_ordered orderly made fun e member => List.mem_map_of_mem member⟩
  · rw [if_pos clean] at planned
    obtain rfl := Option.some.inj planned
    exact absurd executable clean

theorem classifyPairs_work_length (nameKey : Bytes → NameCaps → Bytes) (listing : Listing)
    (caps : NameCaps) (pairs : List (Bytes × Bytes)) (i : Nat) (st : Classified) :
    (classifyPairs nameKey listing caps i pairs st).work.length ≤ st.work.length + pairs.length := by
  induction pairs generalizing i st with
  | nil => exact Nat.le_refl _
  | cons pair pairs ih =>
    have head : (classifyPair nameKey listing caps st i pair).work.length ≤ st.work.length + 1 := by
      simp only [classifyPair, Classified.reject]
      repeat' split
      all_goals simp
    have rest := ih (i + 1) (classifyPair nameKey listing caps st i pair)
    rw [classifyPairs, List.length_cons]
    omega

/-- The planner always answers a directory and a batch that fit in memory: the panic of
the dispenser needs more names than there are counter values. -/
theorem planBatch_isSome
    (distinct : ∀ tag m n, m < 2 ^ 32 → n < 2 ^ 32 →
      nameKey (tempName tag m) caps = nameKey (tempName tag n) caps → m = n)
    (room : listing.length + 2 * pairs.length < 2 ^ 32) :
    (planBatch nameKey sha256 pairs listing caps).isSome := by
  have short := classifyPairs_work_length nameKey (.index nameKey listing caps) caps pairs 0
    ⟨[], [], [], [], []⟩
  simp only [planBatch]
  split
  · rfl
  · have cycled := cycles_isSome
      (List.finRange (classify nameKey pairs (.index nameKey listing caps) caps).1.length)
      (chains _ (List.finRange _) ∅).2 (TempNames.new (intentTag sha256 pairs caps) caps)
      ((classify nameKey pairs (.index nameKey listing caps) caps).1.map Work.toKey ++
        (Listing.index nameKey listing caps).keys)
      (distinct _) (Nat.zero_le _) (by
        simp only [classify, Listing.index, List.length_append, List.length_map,
          List.length_finRange] at short ⊢
        simp only [List.length_nil] at short
        omega) (by intro n bound; cases bound)
    obtain ⟨steps, made⟩ := Option.isSome_iff_exists.mp cycled
    simp [order, made]

/-- The steps of an executable plan run in turn, each of them clear. -/
theorem planBatch_run (planned : planBatch nameKey sha256 pairs listing caps = some plan)
    (executable : plan.collisions = []) :
    ∃ final, run (nameKey · caps) listing.toFinset (plan.steps.map Step.move) = some final := by
  obtain ⟨_, ordered⟩ := planBatch_ordered planned executable
  obtain ⟨final, ran, _⟩ := ordered.reached
  exact ⟨final, ran⟩

/-- A pair that asks for something: the directory resolves its source to a file that
is not already spelled like its destination. -/
def Asks (nameKey : Bytes → NameCaps → Bytes) (listing : List Bytes) (caps : NameCaps)
    (pair : Bytes × Bytes) (onDisk : Bytes) : Prop :=
  (Listing.index nameKey listing caps).resolve pair.1 (nameKey pair.1 caps) = .one onDisk ∧
    onDisk ≠ pair.2

theorem mem_realWork_iff_asks {onDisk toName : Bytes} :
    (∃ w ∈ realWork nameKey pairs listing caps, w.fromName = onDisk ∧ w.toName = toName) ↔
      ∃ pair ∈ pairs, Asks nameKey listing caps pair onDisk ∧ pair.2 = toName := by
  constructor
  · rintro ⟨w, member, rfl, rfl⟩
    obtain ⟨i, pair, at_i, resolved, real, same⟩ := mem_realWork.mp member
    exact ⟨pair, List.mem_of_getElem? at_i, ⟨resolved, real⟩, by rw [same]⟩
  · rintro ⟨pair, member, ⟨resolved, real⟩, rfl⟩
    obtain ⟨i, at_i⟩ := List.getElem?_of_mem member
    exact ⟨⟨i, onDisk, pair.2, nameKey pair.1 caps, nameKey pair.2 caps⟩,
      mem_realWork.mpr ⟨i, pair, at_i, resolved, real, rfl⟩, rfl, rfl⟩

/-- An executable plan lands: its steps run clear one after the other, every file that
was asked for ends under its destination, everything else stays, and no temporary is
left behind. -/
theorem planBatch_lands (nameKey : Bytes → NameCaps → Bytes) (sha256 : Bytes → Bytes)
    (pairs : List (Bytes × Bytes)) (listing : List Bytes) (caps : NameCaps) (plan : RenamePlan)
    (planned : planBatch nameKey sha256 pairs listing caps = some plan)
    (executable : plan.collisions = []) :
    ∃ final, run (nameKey · caps) listing.toFinset (plan.steps.map Step.move) = some final ∧
      (∀ e, e ∈ final ↔ (e ∈ listing ∧ ∀ s ∈ plan.steps, s.fromName ≠ e) ∨
        ∃ pair ∈ pairs, ∃ onDisk, Asks nameKey listing caps pair onDisk ∧ e = pair.2) ∧
      (∀ pair ∈ pairs, ∀ onDisk, Asks nameKey listing caps pair onDisk →
        onDisk ∈ listing ∧ ∃ s ∈ plan.steps, s.fromName = onDisk) ∧
      ∀ s ∈ plan.steps, s.temp → (s.toName ∉ listing ∧ s.toName ∉ final) ∨
        (s.fromName ∉ listing ∧ s.fromName ∉ final) := by
  obtain ⟨o, ordered⟩ := planBatch_ordered planned executable
  obtain ⟨final, ran, members⟩ := ordered.reached
  have fresh_out {t : Bytes} (fresh : o.batch.Fresh t) : t ∉ listing ∧ t ∉ final := by
    have out : t ∉ listing := fun member => fresh.1 t (List.mem_toFinset.mpr member) rfl
    refine ⟨out, fun member => ?_⟩
    rcases (members t).mp member with ⟨inside, _⟩ | ⟨j, rfl⟩
    · exact out inside
    · exact fresh.2 j rfl
  have from_iff {e : Bytes} (member : e ∈ listing) :
      (∃ s ∈ plan.steps, s.fromName = e) ↔ ∃ j, e = o.batch.source j := by
    constructor
    · rintro ⟨s, inside, rfl⟩
      obtain ⟨c, rfl | ⟨t, fresh, rfl | rfl⟩⟩ := ordered.origin s inside
      · exact ⟨c, rfl⟩
      · exact ⟨c, rfl⟩
      · exact absurd member (fresh_out fresh).1
    · rintro ⟨j, rfl⟩
      exact ordered.moved j
  refine ⟨final, ran, ?_, ?_, ?_⟩
  · intro e
    rw [members e]
    refine or_congr (and_congr_right fun member => ?_) ?_
    · have sources := not_congr (from_iff member)
      simp only [not_exists, not_and] at sources
      exact sources.symm
    · constructor
      · rintro ⟨j, rfl⟩
        obtain ⟨pair, member, asks, same⟩ :=
          mem_realWork_iff_asks.mp ⟨_, List.get_mem _ j, rfl, rfl⟩
        exact ⟨pair, member, _, asks, same.symm⟩
      · rintro ⟨pair, member, onDisk, asks, rfl⟩
        obtain ⟨w, inside, _, same⟩ := mem_realWork_iff_asks.mpr ⟨pair, member, asks, rfl⟩
        obtain ⟨j, rfl⟩ := List.get_of_mem inside
        exact ⟨j, same.symm⟩
  · intro pair member onDisk asks
    have entry := (Listing.resolve_one asks.1).1
    obtain ⟨w, inside, rfl, _⟩ := mem_realWork_iff_asks.mpr ⟨pair, member, asks, rfl⟩
    obtain ⟨j, rfl⟩ := List.get_of_mem inside
    exact ⟨entry, (from_iff entry).mpr ⟨j, rfl⟩⟩
  · intro s inside temp
    obtain ⟨c, rfl | ⟨t, fresh, rfl | rfl⟩⟩ := ordered.origin s inside
    · cases temp
    · exact .inl (fresh_out fresh)
    · exact .inr (fresh_out fresh)

/-- A swap in a folding directory, with a case-only rename beside it. -/
theorem planBatch_lands_swap :
    ∃ plan final, planBatch asciiKey (List.take 32) [([0x61], [0x62]), ([0x62], [0x61]), ([0x43], [0x63])]
      [[0x61], [0x62], [0x43]] ⟨.simple⟩ = some plan ∧ plan.steps.length = 4 ∧
      run (asciiKey · ⟨.simple⟩) {[0x61], [0x62], [0x43]} (plan.steps.map Step.move) = some final := by
  have planned : (planBatch asciiKey (List.take 32) [([0x61], [0x62]), ([0x62], [0x61]), ([0x43], [0x63])]
      [[0x61], [0x62], [0x43]] ⟨.simple⟩).map (fun plan => (plan.collisions, plan.steps.length)) =
      some ([], 4) := by decide +kernel
  obtain ⟨plan, planned, same⟩ := Option.map_eq_some_iff.mp planned
  obtain ⟨executable, length⟩ := Prod.mk.inj same
  obtain ⟨final, ran, _⟩ := planBatch_lands _ _ _ _ _ plan planned executable
  exact ⟨plan, final, planned, length, ran⟩

end Plan
end Norte.Rename
