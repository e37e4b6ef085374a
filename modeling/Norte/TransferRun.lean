import Mathlib.Data.List.Perm.Basic
import Norte.TransferFlight

/-! A run of entries on their way together, a few at a time. Whatever the order in which their calls
are answered, none is dropped, the error that is returned is the first that was seen, and after it
no other begins but the one that was at the gate. -/
namespace Norte.Transfer

open Sync (Entry EntryKind)

inductive Provenance where
  | real
  | linkRoot
  | viaLink
  deriving DecidableEq, Repr

structure PlanEntry where
  entry : Entry
  provenance : Provenance
  deriving DecidableEq

/-- What a run went through: an entry began, was refused at the gate, or landed. -/
inductive Event where
  | begun (entry : Entry)
  | refused (entry : Entry) (error : Error)
  | landed (flight : Flight) (result : Except Error Placed)
  deriving DecidableEq

def Event.settled : Event → List Entry
  | begun _ => []
  | refused e _ => [e]
  | landed f _ => [f.entry]

def Event.error : Event → Option Error
  | refused _ e => some e
  | landed _ (.error e) => some e
  | begun _ | landed _ (.ok _) => none

def Event.skip : Event → Option VPath
  | landed f (.ok .skipped) => some f.entry.path
  | begun _ | refused .. | landed _ (.ok .done) | landed _ (.error _) => none

def Event.begins : Event → Option Entry
  | begun e => some e
  | refused .. | landed .. => none

def Event.isBegun (e : Event) : Bool := e.begins.isSome

structure Run (K : Type) where
  pending : List Entry
  gate : Option Entry
  flights : List Flight
  failed : Option Error
  skipped : List VPath
  world : World K
  history : List Event

/-- What happens next: an entry comes to the gate, the gate answers, a call of an entry in flight is
answered, or one that ended lands. -/
inductive Choice where
  | take
  | pass (fault : Option Error)
  | call (i : Nat) (fault : Option Fault)
  | land (i : Nat)
  deriving DecidableEq

def filesInFlight : Nat := 4

namespace Run

variable {K : Type} [DecidableEq K] (job : Job K)

def finished (s : Run K) : Bool := s.flights.isEmpty && s.gate.isNone && (s.pending.isEmpty || s.failed.isSome)

/-- A result is counted: the first error stays. -/
def land (s : Run K) (f : Flight) (result : Except Error Placed) : Run K :=
  match result with
  | .ok .done => { s with history := s.history ++ [.landed f result] }
  | .ok .skipped => { s with skipped := s.skipped ++ [f.entry.path], history := s.history ++ [.landed f result] }
  | .error e => { s with failed := some (s.failed.getD e), history := s.history ++ [.landed f result] }

/-- What does not apply changes nothing. -/
def step (s : Run K) : Choice → Run K
  | .take =>
    match s.gate, s.pending with
    | none, e :: rest =>
      if s.failed.isNone ∧ s.flights.length < filesInFlight then { s with gate := some e, pending := rest } else s
    | _, _ => s
  | .pass fault =>
    match s.gate, fault with
    | some e, none =>
      { s with
        gate := none
        flights := s.flights ++ [job.board e (rebase e.path job.source job.dest)]
        history := s.history ++ [.begun e] }
    | some e, some error =>
      { s with gate := none, failed := some (s.failed.getD error), history := s.history ++ [.refused e error] }
    | none, _ => s
  | .call i fault =>
    match s.flights[i]? with
    | some f =>
      let moved := job.advance fault f s.world
      { s with flights := s.flights.set i moved.1, world := moved.2 }
    | none => s
  | .land i =>
    match s.flights[i]? with
    | some f =>
      match f.stage with
      | .ended result => land { s with flights := s.flights.eraseIdx i } f result
      | _ => s
    | none => s

/-- A run under a schedule. -/
def drive (s : Run K) (schedule : List Choice) : Run K := schedule.foldl (step job) s

/-- Everything that a step can do. -/
inductive Steps (s : Run K) : Choice → Run K → Prop where
  | idle {c : Choice} : Steps s c s
  | take {e : Entry} {rest : List Entry} (gate : s.gate = none) (pending : s.pending = e :: rest) (fine : s.failed = none)
      (room : s.flights.length < filesInFlight) : Steps s .take { s with gate := some e, pending := rest }
  | pass {e : Entry} (gate : s.gate = some e) : Steps s (.pass none) { s with
      gate := none
      flights := s.flights ++ [job.board e (rebase e.path job.source job.dest)]
      history := s.history ++ [.begun e] }
  | refuse {e : Entry} {error : Error} (gate : s.gate = some e) : Steps s (.pass (some error)) { s with
      gate := none
      failed := some (s.failed.getD error)
      history := s.history ++ [.refused e error] }
  | call {i : Nat} {fault : Option Fault} {before after : List Flight} {f : Flight} (here : s.flights = before ++ f :: after)
      (at_ : before.length = i) : Steps s (.call i fault) { s with
        flights := before ++ (job.advance fault f s.world).1 :: after
        world := (job.advance fault f s.world).2 }
  | land {i : Nat} {before after : List Flight} {f : Flight} {result : Except Error Placed}
      (here : s.flights = before ++ f :: after) (stage : f.stage = .ended result) :
      Steps s (.land i) (land { s with flights := before ++ after } f result)

theorem split_at {α : Type} {l : List α} {i : Nat} {x : α} (found : l[i]? = some x) :
    ∃ before after, l = before ++ x :: after ∧ before.length = i ∧ (∀ y, l.set i y = before ++ y :: after) ∧
      l.eraseIdx i = before ++ after := by
  obtain ⟨bound, rfl⟩ := List.getElem?_eq_some_iff.mp found
  refine ⟨l.take i, l.drop (i + 1), ?_, by simp; omega, fun y => List.set_eq_take_append_cons_drop.trans (if_pos bound), ?_⟩
  · rw [List.getElem_cons_drop, List.take_append_drop]
  · exact List.eraseIdx_eq_take_drop_succ ..

theorem step_steps (s : Run K) (c : Choice) : Steps job s c (step job s c) := by
  cases c with
  | take =>
    simp only [step]
    split
    · rename_i e rest gate pending
      split
      · rename_i free
        exact .take gate pending (Option.isNone_iff_eq_none.mp free.1) free.2
      · exact .idle
    · exact .idle
  | pass fault =>
    simp only [step]
    split
    · rename_i gate
      exact .pass gate
    · rename_i gate
      exact .refuse gate
    · exact .idle
  | call i fault =>
    simp only [step]
    split
    · rename_i f found
      obtain ⟨before, after, here, at_, set, -⟩ := split_at found
      rw [set]
      exact .call here at_
    · exact .idle
  | land i =>
    simp only [step]
    split
    · rename_i f found
      obtain ⟨before, after, here, -, -, erased⟩ := split_at found
      split
      · rename_i result stage
        rw [erased]
        exact .land here stage
      · exact .idle
    · exact .idle

/-! ### Nothing is dropped -/

/-- Everything the run has, wherever it is by now. -/
def entries (s : Run K) : List Entry :=
  s.history.flatMap Event.settled ++ (s.flights.map Flight.entry ++ (s.gate.toList ++ s.pending))

/-- How many began after the first error. -/
def late (history : List Event) : Nat := (history.dropWhile fun e => e.error.isNone).countP Event.isBegun

/-- What holds of a run of these entries at any moment. -/
structure Orderly (group : List Entry) (s : Run K) : Prop where
  few : s.flights.length + s.gate.toList.length ≤ filesInFlight
  whole : s.entries.Perm group
  first : s.failed = s.history.findSome? Event.error
  skips : s.skipped = s.history.filterMap Event.skip
  once : late s.history ≤ 1
  shut : s.gate.isSome = true → late s.history = 0

theorem late_concat {history : List Event} {e : Event} : late (history ++ [e]) =
    late history + if (history.findSome? Event.error).isSome ∧ e.isBegun then 1 else 0 := by
  induction history with
  | nil =>
    cases e with
    | begun => rfl
    | refused => rfl
    | landed f result => cases result <;> rfl
  | cons first rest ih =>
    cases error : first.error with
    | none =>
      have same (l : List Event) : late (first :: l) = late l := by simp [late, error]
      rw [List.cons_append, same, same, ih, List.findSome?_cons, error]
    | some e =>
      have stays (l : List Event) : late (first :: l) = (first :: l).countP Event.isBegun := by
        simp [late, error]
      rw [List.cons_append, stays, stays, ← List.cons_append, List.countP_append, List.findSome?_cons, error]
      simp [List.countP_cons]

theorem late_quiet {history : List Event} (none_ : history.findSome? Event.error = none) : late history = 0 := by
  induction history with
  | nil => rfl
  | cons first rest ih =>
    rw [List.findSome?_cons] at none_
    cases error : first.error with
    | none =>
      rw [error] at none_
      simpa [late, List.dropWhile_cons, error] using ih none_
    | some e => simp [error] at none_

omit [DecidableEq K] in
/-- Something that ends is counted, and nothing else of the run changes. -/
theorem land_eq (s : Run K) (f : Flight) (result : Except Error Placed) :
    (land s f result).flights = s.flights ∧ (land s f result).gate = s.gate ∧ (land s f result).pending = s.pending ∧
      (land s f result).world = s.world ∧ (land s f result).history = s.history ++ [.landed f result] := by
  unfold land
  split <;> exact ⟨rfl, rfl, rfl, rfl, rfl⟩

omit [DecidableEq K] in
theorem board_entry (e : Entry) (target : VPath) : (job.board e target).entry = e := by
  unfold Job.board
  split
  · rfl
  · rfl
  · split <;> rfl
  · rfl

theorem advance_entry (fault : Option Fault) (f : Flight) (w : World K) : (job.advance fault f w).1.entry = f.entry := by
  unfold Job.advance Job.call
  repeat' split
  all_goals rfl

variable {job}

theorem Orderly.step {group : List Entry} {s s' : Run K} {c : Choice} (orderly : Orderly group s) (steps : Steps job s c s') :
    Orderly group s' := by
  obtain ⟨few, whole, first, skips, once, shut⟩ := orderly
  have plain (e : Event) (quiet : e.isBegun = false) : late (s.history ++ [e]) = late s.history := by
    simp [late_concat, quiet]
  cases steps with
  | idle => exact ⟨few, whole, first, skips, once, shut⟩
  | @take e rest gate pending fine room =>
    refine ⟨?_, ?_, first, skips, once, fun _ => late_quiet (first.symm.trans fine)⟩
    · simp only [Option.toList_some, List.length_singleton]
      omega
    · simpa [entries, gate, pending] using whole
  | @pass e gate =>
    refine ⟨?_, ?_, ?_, ?_, ?_, by simp⟩
    · simpa [gate] using few
    · simpa [entries, gate, Event.settled, board_entry] using whole
    · simpa [List.findSome?_append, Event.error] using first
    · rw [List.filterMap_append, ← skips]
      exact (List.append_nil _).symm
    · rw [late_concat, shut (by rw [gate]; rfl)]
      split <;> omega
  | @refuse e error gate =>
    refine ⟨?_, ?_, ?_, ?_, by rw [plain _ rfl]; exact once, by simp⟩
    · simp only [Option.toList_none, List.length_nil]
      omega
    · have moved : (s.history.flatMap Event.settled ++ (e :: (s.flights.map Flight.entry ++ s.pending))).Perm s.entries := by
        rw [entries, gate]
        exact List.Perm.append_left _ (List.perm_append_comm_assoc [e] (s.flights.map Flight.entry) _)
      simpa [entries, Event.settled] using moved.trans whole
    · rw [List.findSome?_append, ← first]
      cases s.failed <;> rfl
    · rw [List.filterMap_append, ← skips]
      exact (List.append_nil _).symm
  | @call i fault before after f here at_ =>
    refine ⟨?_, ?_, first, skips, once, shut⟩
    · simpa [here] using few
    · simpa [entries, here, advance_entry] using whole
  | @land i before after f result here stage =>
    obtain ⟨flights, gate, pending, -, history⟩ := land_eq { s with flights := before ++ after } f result
    have moved : (land { s with flights := before ++ after } f result).entries.Perm s.entries := by
      simp only [entries, flights, gate, pending, history, here, List.flatMap_append, List.flatMap_cons, List.flatMap_nil,
        List.append_nil, Event.settled, List.map_append, List.map_cons, List.append_assoc]
      exact List.Perm.append_left _ (List.perm_append_comm_assoc [f.entry] (before.map Flight.entry) _)
    refine ⟨?_, moved.trans whole, ?_, ?_, ?_, ?_⟩
    · rw [flights, gate]
      simp only [here, List.length_append, List.length_cons] at few ⊢
      omega
    · rw [history, List.findSome?_append, ← first]
      unfold land
      split
      · simp [Event.error]
      · simp [Event.error]
      · cases s.failed <;> rfl
    · rw [history, List.filterMap_append, ← skips]
      unfold land
      split <;> simp [Event.skip]
    · rw [history, plain _ rfl]
      exact once
    · rw [history, gate, plain _ rfl]
      exact shut

/-- A run before anything happened. -/
def fresh (group : List Entry) (w : World K) : Run K := ⟨group, none, [], none, [], w, []⟩

omit [DecidableEq K] in
theorem orderly_fresh (group : List Entry) (w : World K) : Orderly group (fresh group w) :=
  ⟨Nat.zero_le _, List.Perm.refl _, rfl, rfl, Nat.zero_le _, fun open_ => by cases open_⟩

/-- What every step keeps holds of every run. -/
theorem drive_induct {motive : Run K → Prop} {s : Run K} (start : motive s)
    (step : ∀ s c s', motive s → Steps job s c s' → motive s') (schedule : List Choice) : motive (drive job s schedule) := by
  induction schedule generalizing s with
  | nil => exact start
  | cons c cs ih => exact ih (step s c _ start (step_steps job s c))

theorem drive_orderly (job : Job K) (group : List Entry) (w : World K) (schedule : List Choice) :
    Orderly group (drive job (fresh group w) schedule) :=
  drive_induct (orderly_fresh group w) (fun _ _ _ held steps => held.step steps) schedule

omit [DecidableEq K] in
theorem finished_flights {s : Run K} (finished : s.finished = true) : s.flights = [] := by
  simp only [Run.finished, Bool.and_eq_true, List.isEmpty_iff] at finished
  exact finished.1.1

omit [DecidableEq K] in
/-- Where nothing failed, all have landed. -/
theorem Orderly.landed {group : List Entry} {s : Run K} (orderly : Orderly group s) (finished : s.finished = true)
    (fine : s.failed = none) : (s.history.flatMap Event.settled).Perm group := by
  simp only [Run.finished, Bool.and_eq_true, List.isEmpty_iff, Option.isNone_iff_eq_none, Bool.or_eq_true] at finished
  obtain ⟨⟨flights, gate⟩, rest⟩ := finished
  have pending : s.pending = [] := rest.resolve_right (by simp [fine])
  simpa [entries, flights, gate, pending] using orderly.whole

/-- After an error nothing comes to the gate any more: all that still begins is what was there. -/
theorem drive_shut (job : Job K) {s : Run K} (failed : s.failed.isSome = true) (schedule : List Choice) :
    (drive job s schedule).pending = s.pending ∧ ∃ more, (drive job s schedule).history = s.history ++ more ∧
      (more.filterMap Event.begins).Sublist s.gate.toList := by
  suffices all : (drive job s schedule).failed.isSome = true ∧ (drive job s schedule).pending = s.pending ∧
      ∃ more, (drive job s schedule).history = s.history ++ more ∧
        (more.filterMap Event.begins ++ (drive job s schedule).gate.toList).Sublist s.gate.toList by
    obtain ⟨-, pending, more, history, begun⟩ := all
    exact ⟨pending, more, history, (List.sublist_append_left _ _).trans begun⟩
  apply drive_induct (motive := fun s' => s'.failed.isSome = true ∧ s'.pending = s.pending ∧ ∃ more, s'.history = s.history ++ more ∧
    (more.filterMap Event.begins ++ s'.gate.toList).Sublist s.gate.toList)
  · exact ⟨failed, rfl, [], (List.append_nil _).symm, List.Sublist.refl _⟩
  · rintro s₁ c s₂ ⟨failed, pending, more, history, begun⟩ steps
    cases steps with
    | idle => exact ⟨failed, pending, more, history, begun⟩
    | take gate queue fine => simp [fine] at failed
    | @pass e gate =>
      refine ⟨failed, pending, more ++ [.begun e], by simp [history], ?_⟩
      simpa [gate, Event.begins, List.filterMap_append] using begun
    | @refuse e error gate =>
      refine ⟨rfl, pending, more ++ [.refused e error], by simp [history], ?_⟩
      have quiet : [Event.refused e error].filterMap Event.begins = [] := rfl
      rw [List.filterMap_append, quiet, Option.toList_none, List.append_nil, List.append_nil]
      exact (List.sublist_append_left _ _).trans begun
    | call => exact ⟨failed, pending, more, history, begun⟩
    | @land i before after f result here stage =>
      obtain ⟨-, gate, pending', -, history'⟩ := land_eq { s₁ with flights := before ++ after } f result
      refine ⟨?_, pending'.trans pending, more ++ [.landed f result], by rw [history', history, List.append_assoc], ?_⟩
      · cases result with
        | error e => rfl
        | ok placed => cases placed <;> exact failed
      · have quiet : [Event.landed f result].filterMap Event.begins = [] := rfl
        rw [gate, List.filterMap_append, quiet, List.append_nil]
        exact begun

/-- A run of which nothing was ever dropped: whatever the schedule, at most four entries are on their
way, every entry is somewhere, the error is the first there was, and what was skipped is known. After
an error nothing comes to the gate, and nothing begins but what was there. Once the run is over
nothing is on its way, and without an error every entry has landed. -/
theorem run_orderly (group : List Entry) (w : World K) (schedule : List Choice) :
    Orderly group (drive job (fresh group w) schedule) ∧
    ((drive job (fresh group w) schedule).failed.isSome = true → ∀ later,
      (drive job (fresh group w) (schedule ++ later)).pending = (drive job (fresh group w) schedule).pending ∧
      ∃ more, (drive job (fresh group w) (schedule ++ later)).history = (drive job (fresh group w) schedule).history ++ more ∧
        (more.filterMap Event.begins).Sublist (drive job (fresh group w) schedule).gate.toList) ∧
    ((drive job (fresh group w) schedule).finished = true →
      (drive job (fresh group w) schedule).flights = [] ∧ ((drive job (fresh group w) schedule).failed = none →
        ((drive job (fresh group w) schedule).history.flatMap Event.settled).Perm group)) := by
  refine ⟨drive_orderly job group w schedule, fun failed later => ?_, fun finished => ?_⟩
  · have whole : drive job (fresh group w) (schedule ++ later) = drive job (drive job (fresh group w) schedule) later :=
      List.foldl_append
    rw [whole]
    exact drive_shut job failed later
  · exact ⟨finished_flights finished, (drive_orderly job group w schedule).landed finished⟩

/-! ### Every change has its row -/

/-- The place a step leaves without the row of its change: a call fails after its effect, or the row
itself fails. -/
def slip (job : Job K) (s : Run K) : Choice → Option K
  | .call i (some (.refused _)) => s.flights[i]?.bind job.owed
  | .call i (some (.unanswered _)) => s.flights[i]?.bind fun f => job.owed (job.call f s.world).1
  | .take | .pass _ | .call _ none | .land _ => none

/-- All of them in a run. -/
def slips (job : Job K) : Run K → List Choice → List K
  | _, [] => []
  | s, c :: cs => (slip job s c).toList ++ slips job (step job s c) cs

/-- Every place that changed is in a row, is owed one by an entry on its way, or slipped. -/
structure Told (job : Job K) (w : World K) (added : List Mutation) (slipped : List K) (s : Run K) : Prop where
  rows : s.world.rows = w.rows ++ added
  gone : ∀ k, s.world.tree k = none → w.tree k ≠ none → (∃ p, .removed p ∈ added ∧ job.place p = k) ∨
    (∃ f ∈ s.flights, f.stage = .cleared ∧ job.place f.target = k) ∨ k ∈ slipped
  made : ∀ k, s.world.tree k ≠ none → s.world.tree k ≠ w.tree k → (∃ p, .created p ∈ added ∧ job.place p = k) ∨
    (∃ f ∈ s.flights, ∃ target, f.stage = .written target ∧ job.place target = k) ∨ k ∈ slipped

section Told

variable {job : Job K} {w : World K} {added : List Mutation} {slipped : List K} {s : Run K} {before after : List Flight}
  {f f' : Flight}

omit [DecidableEq K] in
/-- Another entry that owes a row still owes it. -/
theorem others_owe {P : Flight → Prop} (here : s.flights = before ++ f :: after) (not_ : ¬P f) (owed : ∃ g ∈ s.flights, P g) :
    ∃ g ∈ before ++ f' :: after, P g := by
  obtain ⟨g, member, owes⟩ := owed
  rw [here] at member
  rcases List.mem_append.mp member with first | rest
  · exact ⟨g, List.mem_append_left _ first, owes⟩
  · rcases List.mem_cons.mp rest with rfl | last
    · exact absurd owes not_
    · exact ⟨g, List.mem_append_right _ (List.mem_cons_of_mem _ last), owes⟩

theorem told_call {w' : World K} (told : Told job w added slipped s) (here : s.flights = before ++ f :: after)
    (calls : job.Calls f s.world f' w') :
    ∃ added', Told job w added' slipped { s with flights := before ++ f' :: after, world := w' } := by
  obtain ⟨rows, gone, made⟩ := told
  have mine : f' ∈ before ++ f' :: after := List.mem_append_right _ List.mem_cons_self
  have later {P : Flight → Prop} {k : K} (not_ : ¬P f) (open_ : (∃ g ∈ s.flights, P g) ∨ k ∈ slipped) :
      (∃ g ∈ before ++ f' :: after, P g) ∨ k ∈ slipped := open_.imp_left (others_owe here not_)
  cases calls with
  | @decide payload stage owes owes' =>
    have not_ (k : K) : ¬(f.stage = .cleared ∧ job.place f.target = k) := fun ⟨cleared, _⟩ => by simp [cleared, Stage.owes] at owes
    have not_' (k : K) : ¬∃ target, f.stage = .written target ∧ job.place target = k := fun ⟨target, written, _⟩ => by
      simp [written, Stage.owes] at owes
    exact ⟨added, rows, fun k now was => (gone k now was).imp_right (later (not_ k)),
      fun k now was => (made k now was).imp_right (later (not_' k))⟩
  | clear stage =>
    refine ⟨added, rows, fun k now was => ?_, fun k now was => ?_⟩
    · by_cases at_ : k = job.place f.target
      · exact .inr (.inl ⟨_, mine, rfl, at_.symm⟩)
      · simp only [Function.update_of_ne at_] at now
        exact (gone k now was).imp_right (later (by simp [stage]))
    · by_cases at_ : k = job.place f.target
      · simp only [at_, Function.update_self] at now
        exact absurd rfl now
      · simp only [ne_eq, Function.update_of_ne at_] at now was
        exact (made k now was).imp_right (later (by simp [stage]))
  | cleared stage =>
    refine ⟨added ++ [.removed f.target], by rw [rows, List.append_assoc], fun k now was => ?_, fun k now was => ?_⟩
    · by_cases at_ : k = job.place f.target
      · exact .inl ⟨f.target, by simp, at_.symm⟩
      · rcases gone k now was with ⟨p, row, same⟩ | owed
        · exact .inl ⟨p, List.mem_append_left _ row, same⟩
        · exact .inr (later (fun both => at_ both.2.symm) owed)
    · rcases made k now was with ⟨p, row, same⟩ | owed
      · exact .inl ⟨p, List.mem_append_left _ row, same⟩
      · exact .inr (later (by simp [stage]) owed)
  | @write target thing stage free carries =>
    refine ⟨added, rows, fun k now was => ?_, fun k now was => ?_⟩
    · by_cases at_ : k = job.place target
      · simp only [at_, Function.update_self] at now
        cases now
      · simp only [Function.update_of_ne at_] at now
        exact (gone k now was).imp_right (later (by simp [stage]))
    · by_cases at_ : k = job.place target
      · exact .inr (.inl ⟨_, mine, target, rfl, at_.symm⟩)
      · simp only [ne_eq, Function.update_of_ne at_] at now was
        exact (made k now was).imp_right (later (by simp [stage]))
  | @written target stage =>
    refine ⟨added ++ [.created target], by rw [rows, List.append_assoc], fun k now was => ?_, fun k now was => ?_⟩
    · rcases gone k now was with ⟨p, row, same⟩ | owed
      · exact .inl ⟨p, List.mem_append_left _ row, same⟩
      · exact .inr (later (by simp [stage]) owed)
    · by_cases at_ : k = job.place target
      · exact .inl ⟨target, by simp, at_.symm⟩
      · rcases made k now was with ⟨p, row, same⟩ | owed
        · exact .inl ⟨p, List.mem_append_left _ row, same⟩
        · refine .inr (later ?_ owed)
          rintro ⟨target', written, place⟩
          rw [stage] at written
          obtain rfl := Stage.written.inj written
          exact at_ place.symm

omit [DecidableEq K] in
/-- What an entry owes slips where the entry ends. -/
theorem told_drop (told : Told job w added slipped s) (here : s.flights = before ++ f :: after) :
    Told job w added (slipped ++ (job.owed f).toList) { s with flights := before ++ f' :: after } := by
  obtain ⟨rows, gone, made⟩ := told
  have later {P : Flight → Prop} {k : K} (owes : P f → job.owed f = some k) (open_ : (∃ g ∈ s.flights, P g) ∨ k ∈ slipped) :
      (∃ g ∈ before ++ f' :: after, P g) ∨ k ∈ slipped ++ (job.owed f).toList := by
    by_cases own : P f
    · exact .inr (List.mem_append_right _ (by simp [owes own]))
    · exact open_.imp (others_owe here own) (List.mem_append_left _)
  refine ⟨rows, fun k now was => (gone k now was).imp_right (later ?_), fun k now was => (made k now was).imp_right (later ?_)⟩
  · rintro ⟨stage, place⟩
    simp [Job.owed, stage, place]
  · rintro ⟨target, stage, place⟩
    simp [Job.owed, stage, place]

/-- A call that was answered, or that failed. -/
theorem told_advance (told : Told job w added slipped s) (here : s.flights = before ++ f :: after) (fault : Option Fault) :
    ∃ added', Told job w added' (slipped ++ (slip job s (.call before.length fault)).toList) { s with
      flights := before ++ (job.advance fault f s.world).1 :: after
      world := (job.advance fault f s.world).2 } := by
  have found : s.flights[before.length]? = some f := by simp [here]
  have answered := told_call told here (job.call_calls f s.world)
  cases ended : f.stage with
  | ended result =>
    have owed : job.owed f = none := by simp [Job.owed, ended]
    have call : job.call f s.world = (f, s.world) := by simp [Job.call, ended]
    have still : (slip job s (.call before.length fault)).toList = [] := by
      cases fault with
      | none => rfl
      | some fault => cases fault <;> simp [slip, found, owed, call]
    refine ⟨added, ?_⟩
    rw [still, List.append_nil]
    simp only [Job.advance, ended, ← here]
    exact told
  | _ =>
    cases fault with
    | none =>
      simp only [Job.advance, ended, slip, Option.toList_none, List.append_nil]
      exact answered
    | some fault =>
      cases fault with
      | refused e =>
        simp only [Job.advance, ended, slip, found, Option.bind_some]
        exact ⟨added, told_drop told here⟩
      | unanswered e =>
        simp only [Job.advance, ended, slip, found, Option.bind_some]
        obtain ⟨added', told'⟩ := answered
        exact ⟨added', told_drop (s := { s with
          flights := before ++ (job.call f s.world).1 :: after
          world := (job.call f s.world).2 }) told' rfl⟩

theorem told_step {s' : Run K} {c : Choice} (told : Told job w added slipped s) (steps : Steps job s c s') :
    ∃ added', Told job w added' (slipped ++ (slip job s c).toList) s' := by
  have more {k : K} (inside : k ∈ slipped) : k ∈ slipped ++ (slip job s c).toList := List.mem_append_left _ inside
  have still : Told job w added (slipped ++ (slip job s c).toList) s :=
    ⟨told.rows, fun k now was => (told.gone k now was).imp_right (Or.imp_right more),
      fun k now was => (told.made k now was).imp_right (Or.imp_right more)⟩
  cases steps with
  | idle => exact ⟨added, still⟩
  | take => exact ⟨added, still.rows, still.gone, still.made⟩
  | refuse => exact ⟨added, still.rows, still.gone, still.made⟩
  | pass =>
    have joins {P : Flight → Prop} {g : Flight} {Q : Prop} (owed : (∃ f ∈ s.flights, P f) ∨ Q) : (∃ f ∈ s.flights ++ [g], P f) ∨ Q :=
      owed.imp_left fun ⟨f, member, owes⟩ => ⟨f, List.mem_append_left _ member, owes⟩
    exact ⟨added, still.rows, fun k now was => (still.gone k now was).imp_right joins,
      fun k now was => (still.made k now was).imp_right joins⟩
  | @call i fault before after f here at_ =>
    subst at_
    exact told_advance told here fault
  | @land i before after f result here stage =>
    obtain ⟨flights, -, -, world, -⟩ := land_eq { s with flights := before ++ after } f result
    have fewer {P : Flight → Prop} {Q : Prop} (not_ : ¬P f) (owed : (∃ g ∈ s.flights, P g) ∨ Q) :
        (∃ g ∈ (land { s with flights := before ++ after } f result).flights, P g) ∨ Q := by
      refine owed.imp_left fun ⟨g, member, owes⟩ => ?_
      rw [flights]
      rw [here] at member
      rcases List.mem_append.mp member with first | rest
      · exact ⟨g, List.mem_append_left _ first, owes⟩
      · rcases List.mem_cons.mp rest with rfl | last
        · exact absurd owes not_
        · exact ⟨g, List.mem_append_right _ last, owes⟩
    refine ⟨added, by rw [world]; exact still.rows, fun k now was => ?_, fun k now was => ?_⟩
    · rw [world] at now
      exact (still.gone k now was).imp_right (fewer (by simp [stage]))
    · rw [world] at now was
      exact (still.made k now was).imp_right (fewer (by simp [stage]))

theorem told_drive (told : Told job w added slipped s) (schedule : List Choice) :
    ∃ added', Told job w added' (slipped ++ slips job s schedule) (drive job s schedule) := by
  induction schedule generalizing s added slipped with
  | nil => exact ⟨added, by rw [slips, List.append_nil]; exact told⟩
  | cons c cs ih =>
    obtain ⟨added', told'⟩ := told_step told (step_steps job s c)
    rw [slips, ← List.append_assoc]
    exact ih told'

end Told

/-- At any moment of a run a place that changed is in a row, or in the hands of one of the few on
their way, unless its call failed after its effect or its row failed; when the run is over it is in a
row but for these, whatever else failed. -/
theorem run_told (job : Job K) (group : List Entry) (w : World K) (schedule : List Choice) :
    ∃ added, Told job w added (slips job (fresh group w) schedule) (drive job (fresh group w) schedule) ∧
      ((drive job (fresh group w) schedule).finished = true →
        ∀ k, (drive job (fresh group w) schedule).world.tree k ≠ w.tree k →
          (∃ m ∈ added, job.place m.path = k) ∨ k ∈ slips job (fresh group w) schedule) := by
  have start : Told job w [] [] (fresh group w) := ⟨(List.append_nil _).symm, fun k now was => absurd now was,
    fun k now was => absurd rfl was⟩
  obtain ⟨added, told⟩ := told_drive start schedule
  rw [List.nil_append] at told
  refine ⟨added, told, fun finished k changed => ?_⟩
  have flights := finished_flights finished
  by_cases now : (drive job (fresh group w) schedule).world.tree k = none
  · rcases told.gone k now (fun was => changed (now.trans was.symm)) with ⟨p, row, place⟩ | ⟨f, member, -⟩ | slipped
    · exact .inl ⟨_, row, place⟩
    · simp [flights] at member
    · exact .inr slipped
  · rcases told.made k now changed with ⟨p, row, place⟩ | ⟨f, member, -⟩ | slipped
    · exact .inl ⟨_, row, place⟩
    · simp [flights] at member
    · exact .inr slipped

/-! The sample is a file that replaces another. -/

def sampleSegment (b : UInt8) (letter : isAsciiLowercase b = true) : Segment := ⟨[b], Segment.valid_letter letter⟩

def sampleFolder : VPath := .root ⟨"mem".toList, Scheme.check_mem⟩ none

def sampleJob (policy : CollisionPolicy) : Job VPath where
  opts := ⟨policy, .preserve⟩
  source := sampleFolder.join (sampleSegment 0x61 rfl)
  dest := sampleFolder.join (sampleSegment 0x62 rfl)
  place := id
  echo := id
  stamp _ := some 7
  read _ path := .ok (path.segments.flatMap Segment.bytes)
  readLink _ _ := .error .notFound

def sampleFile : Entry := ⟨(sampleJob .fail).source.join (sampleSegment 0x63 rfl), .file, none, some 5⟩

def sampleWorld : World VPath := ⟨fun _ => some ⟨.file, [], some 3⟩, []⟩

/-- Nothing slips where the entry is cut after the removal has its row; the removal does where its
answer is lost. -/
example : slips (sampleJob .newer) (fresh [sampleFile] sampleWorld)
      [.take, .pass none, .call 0 none, .call 0 none, .call 0 none, .call 0 (some (.refused .cancelled)), .land 0] = [] ∧
    slips (sampleJob .newer) (fresh [sampleFile] sampleWorld)
      [.take, .pass none, .call 0 none, .call 0 (some (.unanswered .cancelled)), .land 0] =
        [rebase sampleFile.path (sampleJob .newer).source (sampleJob .newer).dest] := by decide

end Run

end Norte.Transfer
