import Mathlib.Data.Finset.Card
import Mathlib.Data.Fintype.Basic

/-! Renames over a finite set of names. Two names that share a key are one name to
whoever looks them up, so a move is clear only when no other name shares the key of
its target. A batch is a set of moves meant to happen at once; `Placed` is what the
set looks like when some of them have happened. -/
namespace Norte.Moves

variable {N K ι : Type*} {key : N → K}

structure Move (N : Type*) where
  source : N
  target : N

def Move.inverse (m : Move N) : Move N := ⟨m.target, m.source⟩

section Sets

variable [DecidableEq N]

def move (dir : Finset N) (m : Move N) : Finset N := insert m.target (dir.erase m.source)

@[simp] theorem mem_move {dir : Finset N} {m : Move N} :
    e ∈ move dir m ↔ e = m.target ∨ e ≠ m.source ∧ e ∈ dir := by
  simp [move]

/-- The source is there and no other name shares the key of the target. -/
def Clear (key : N → K) (dir : Finset N) (m : Move N) : Prop :=
  m.source ∈ dir ∧ ∀ e ∈ dir, e ≠ m.source → key e ≠ key m.target

section Run

variable [DecidableEq K]

instance (key : N → K) (dir : Finset N) (m : Move N) : Decidable (Clear key dir m) :=
  inferInstanceAs (Decidable (_ ∧ _))

/-- Every move in turn, as long as each is clear when its turn comes. -/
def run (key : N → K) : Finset N → List (Move N) → Option (Finset N)
  | dir, [] => some dir
  | dir, m :: moves => if Clear key dir m then run key (move dir m) moves else none

@[simp] theorem run_nil (key : N → K) (dir : Finset N) : run key dir [] = some dir := rfl

theorem run_cons {key : N → K} {dir : Finset N} {m : Move N} (clear : Clear key dir m)
    (moves : List (Move N)) : run key dir (m :: moves) = run key (move dir m) moves :=
  if_pos clear

theorem run_append (key : N → K) (dir : Finset N) (first second : List (Move N)) :
    run key dir (first ++ second) = (run key dir first).bind (run key · second) := by
  induction first generalizing dir with
  | nil => rfl
  | cons m first ih =>
    rw [List.cons_append, run, run]
    split
    · exact ih _
    · rfl

theorem run_append_of_eq {key : N → K} {dir mid : Finset N} {first : List (Move N)}
    (ran : run key dir first = some mid) (second : List (Move N)) :
    run key dir (first ++ second) = run key mid second := by
  rw [run_append, ran]; rfl

end Run

/-- A clear move changes which names there are only at its two ends. -/
theorem Clear.target_mem {dir : Finset N} {m : Move N} (clear : Clear key dir m)
    (member : m.target ∈ dir) : m.target = m.source := by
  by_contra other
  exact clear.2 _ member other rfl

theorem move_inverse {dir : Finset N} {m : Move N} (clear : Clear key dir m) :
    move (move dir m) m.inverse = dir := by
  ext e
  simp only [mem_move, Move.inverse]
  constructor
  · rintro (rfl | ⟨other, rfl | ⟨_, member⟩⟩)
    · exact clear.1
    · exact absurd rfl other
    · exact member
  · intro member
    by_cases source : e = m.source
    · exact .inl source
    · refine .inr ⟨?_, .inr ⟨source, member⟩⟩
      rintro rfl
      exact source (clear.target_mem member)

end Sets

/-- Moves meant to happen at once. Sources are told apart by key and so are targets,
and a name in the way of a target is the source of some move. -/
structure Batch (key : N → K) (ι : Type*) where
  entries : Finset N
  source : ι → N
  target : ι → N
  present : ∀ i, source i ∈ entries
  sources : ∀ i j, key (source i) = key (source j) → i = j
  targets : ∀ i j, key (target i) = key (target j) → i = j
  free : ∀ i, ∀ e ∈ entries, key e = key (target i) → ∃ j, e = source j

namespace Batch

/-- The target of `i` is held by the source of `j`. -/
def Waits (b : Batch key ι) (i j : ι) : Prop := j ≠ i ∧ key (b.source j) = key (b.target i)

def Ready (b : Batch key ι) (done : Finset ι) (i : ι) : Prop := ∀ j, b.Waits i j → j ∈ done

/-- The names once the moves of `done` have put their sources at `dest`. -/
def Placed (b : Batch key ι) (dest : ι → N) (done : Finset ι) (dir : Finset N) : Prop :=
  ∀ e, e ∈ dir ↔ (e ∈ b.entries ∧ ∀ j ∈ done, e ≠ b.source j) ∨ ∃ j ∈ done, e = dest j

/-- A key that no name of the batch has, on either side. -/
def Fresh (b : Batch key ι) (t : N) : Prop :=
  (∀ e ∈ b.entries, key e ≠ key t) ∧ ∀ i, key (b.target i) ≠ key t

/-- Whoever waits on a move that has happened has happened too. -/
def Drained (b : Batch key ι) (done : Finset ι) : Prop := ∀ j ∈ done, ∀ i, b.Waits i j → i ∈ done

variable (b : Batch key ι)

theorem waits_unique {i j k : ι} (first : b.Waits i k) (second : b.Waits j k) : i = j :=
  b.targets _ _ (first.2.symm.trans second.2)

theorem placed_start (dest : ι → N) : b.Placed dest ∅ b.entries := by
  intro e
  simp

/-- The key of a move's target is held by no entry but the sources of moves still to
happen, so readiness is all that is asked of them. -/
theorem ready_entry {done : Finset ι} {i : ι} (ready : b.Ready done i) {e : N}
    (member : e ∈ b.entries) (left : ∀ j ∈ done, e ≠ b.source j) (same : key e = key (b.target i)) :
    e = b.source i := by
  obtain ⟨j, rfl⟩ := b.free i e member same
  by_cases own : j = i
  · rw [own]
  · exact absurd rfl (left j (ready j ⟨own, same⟩))

/-- Where a batch stands: what happened is placed, and none of it is in the way of
what is still to happen. -/
structure Course (dest : ι → N) (done : Finset ι) (dir : Finset N) : Prop where
  placed : b.Placed dest done dir
  onward : ∀ i ∉ done, dest i = b.target i
  apart : ∀ j ∈ done, ∀ i ∉ done, key (dest j) ≠ key (b.target i)
  kept : ∀ j ∈ done, ∀ i ∉ done, dest j ≠ b.source i

theorem course_start : b.Course b.target ∅ b.entries where
  placed := b.placed_start b.target
  onward _ _ := rfl
  apart _ member := absurd member (Finset.notMem_empty _)
  kept _ member := absurd member (Finset.notMem_empty _)

theorem target_ne_source {done : Finset ι} {i k : ι} (ready : b.Ready done i) (undone : k ∉ done)
    (other : k ≠ i) : b.target i ≠ b.source k :=
  fun same => undone (ready k ⟨other, by rw [same]⟩)

/-- With every move done the names are the entries that stayed and the targets. -/
theorem mem_of_complete {dir : Finset N} {done : Finset ι}
    (course : b.Course b.target done dir) (complete : ∀ i, i ∈ done) (e : N) :
    e ∈ dir ↔ (e ∈ b.entries ∧ ∀ j, e ≠ b.source j) ∨ ∃ j, e = b.target j := by
  simp [course.placed e, complete]

variable [DecidableEq ι]

section Placing

variable [DecidableEq N]

/-- One move of the batch, from its source to wherever `dest` puts it. -/
theorem placed_step {dest : ι → N} {done : Finset ι} {dir : Finset N} {i : ι}
    (placed : b.Placed dest done dir) (undone : i ∉ done)
    (entry : ∀ e ∈ b.entries, (∀ j ∈ done, e ≠ b.source j) → key e = key (dest i) → e = b.source i)
    (apart : ∀ j ∈ done, key (dest j) ≠ key (dest i))
    (kept : ∀ j ∈ done, dest j ≠ b.source i) :
    Clear key dir ⟨b.source i, dest i⟩ ∧
      b.Placed dest (insert i done) (move dir ⟨b.source i, dest i⟩) := by
  have source : b.source i ∈ dir := by
    refine (placed _).mpr (.inl ⟨b.present i, ?_⟩)
    intro j member same
    exact undone (b.sources i j (by rw [same]) ▸ member)
  refine ⟨⟨source, ?_⟩, ?_⟩
  · intro e member other same
    rcases (placed e).mp member with ⟨member, left⟩ | ⟨j, happened, rfl⟩
    · exact other (entry e member left same)
    · exact apart j happened same
  · intro e
    rw [mem_move, placed e]
    constructor
    · rintro (rfl | ⟨other, ⟨member, left⟩ | ⟨j, member, rfl⟩⟩)
      · exact .inr ⟨i, Finset.mem_insert_self .., rfl⟩
      · exact .inl ⟨member, Finset.forall_mem_insert .. |>.mpr ⟨other, left⟩⟩
      · exact .inr ⟨j, Finset.mem_insert_of_mem member, rfl⟩
    · rintro (⟨member, left⟩ | ⟨j, member, rfl⟩)
      · have left := Finset.forall_mem_insert .. |>.mp left
        exact .inr ⟨left.1, .inl ⟨member, left.2⟩⟩
      · rcases Finset.mem_insert.mp member with rfl | member
        · exact .inl rfl
        · exact .inr ⟨kept j member, .inr ⟨j, member, rfl⟩⟩

/-- A parked source is brought out to its target. -/
theorem placed_land {done : Finset ι} {dir : Finset N} {i : ι} {t : N} (fresh : b.Fresh t)
    (placed : b.Placed (Function.update b.target i t) done dir) (member : i ∈ done)
    (ready : b.Ready done i) :
    Clear key dir ⟨t, b.target i⟩ ∧ b.Placed b.target done (move dir ⟨t, b.target i⟩) := by
  have parked : t ∈ dir := (placed t).mpr (.inr ⟨i, member, by simp⟩)
  have target_ne (j : ι) : b.target j ≠ t := fun same => fresh.2 j (by rw [same])
  refine ⟨⟨parked, ?_⟩, ?_⟩
  · intro e inside other same
    rcases (placed e).mp inside with ⟨entry, left⟩ | ⟨j, _, rfl⟩
    · exact left i member (b.ready_entry ready entry left same)
    · by_cases own : j = i
      · subst own; simp at other
      · rw [Function.update_of_ne own] at same
        exact own (b.targets _ _ same)
  · intro e
    rw [mem_move, placed e]
    constructor
    · rintro (rfl | ⟨other, ⟨entry, left⟩ | ⟨j, inside, rfl⟩⟩)
      · exact .inr ⟨i, member, rfl⟩
      · exact .inl ⟨entry, left⟩
      · by_cases own : j = i
        · subst own; simp at other
        · exact .inr ⟨j, inside, Function.update_of_ne own ..⟩
    · rintro (⟨entry, left⟩ | ⟨j, inside, rfl⟩)
      · exact .inr ⟨fun same => fresh.1 e entry (by rw [same]), .inl ⟨entry, left⟩⟩
      · by_cases own : j = i
        · exact .inl (by rw [own])
        · exact .inr ⟨target_ne j, .inr ⟨j, inside, (Function.update_of_ne own ..).symm⟩⟩

/-- A move that is ready goes straight to its target. -/
theorem course_step {dest : ι → N} {done : Finset ι} {dir : Finset N} {i : ι}
    (course : b.Course dest done dir) (undone : i ∉ done) (ready : b.Ready done i) :
    Clear key dir ⟨b.source i, b.target i⟩ ∧
      b.Course dest (insert i done) (move dir ⟨b.source i, b.target i⟩) := by
  have onward := course.onward i undone
  obtain ⟨clear, placed⟩ := b.placed_step course.placed undone
    (fun e member left same => b.ready_entry ready member left (by rw [same, onward]))
    (fun j member => by rw [onward]; exact course.apart j member i undone)
    (fun j member => course.kept j member i undone)
  rw [onward] at clear placed
  refine ⟨clear, placed, ?_, ?_, ?_⟩
  · intro k out
    exact course.onward k fun member => out (Finset.mem_insert_of_mem member)
  · intro j member k out
    simp only [Finset.mem_insert, not_or] at out
    rcases Finset.mem_insert.mp member with rfl | member
    · rw [onward]
      exact fun same => out.1 (b.targets _ _ same).symm
    · exact course.apart j member k out.2
  · intro j member k out
    simp only [Finset.mem_insert, not_or] at out
    rcases Finset.mem_insert.mp member with rfl | member
    · rw [onward]
      exact b.target_ne_source ready out.2 out.1
    · exact course.kept j member k out.2

/-- Any move may be parked under a fresh name. -/
theorem course_park {done : Finset ι} {dir : Finset N} {i : ι} {t : N}
    (course : b.Course b.target done dir) (undone : i ∉ done) (fresh : b.Fresh t) :
    Clear key dir ⟨b.source i, t⟩ ∧
      b.Course (Function.update b.target i t) (insert i done) (move dir ⟨b.source i, t⟩) := by
  have elsewhere {j : ι} (member : j ∈ done) : Function.update b.target i t j = b.target j :=
    Function.update_of_ne (by rintro rfl; exact undone member) ..
  have before : b.Placed (Function.update b.target i t) done dir := by
    intro e
    rw [course.placed e]
    exact or_congr_right (exists_congr fun j => and_congr_right fun member => by
      rw [elsewhere member])
  obtain ⟨clear, placed⟩ := b.placed_step before undone
    (fun e member _ same => by simp only [Function.update_self] at same; exact absurd same (fresh.1 e member))
    (fun j member => by rw [elsewhere member, Function.update_self]; exact fresh.2 j)
    (fun j member => by rw [elsewhere member]; exact course.kept j member i undone)
  rw [Function.update_self] at clear placed
  refine ⟨clear, placed, ?_, ?_, ?_⟩
  · intro k out
    simp only [Finset.mem_insert, not_or] at out
    exact Function.update_of_ne out.1 ..
  · intro j member k out
    simp only [Finset.mem_insert, not_or] at out
    rcases Finset.mem_insert.mp member with rfl | member
    · rw [Function.update_self]
      exact (fresh.2 k).symm
    · rw [elsewhere member]
      exact course.apart j member k out.2
  · intro j member k out
    simp only [Finset.mem_insert, not_or] at out
    rcases Finset.mem_insert.mp member with rfl | member
    · rw [Function.update_self]
      exact fun same => fresh.1 _ (b.present k) (by rw [same])
    · rw [elsewhere member]
      exact course.kept j member k out.2

/-- A parked move lands once its target is free. -/
theorem course_land {done : Finset ι} {dir : Finset N} {i : ι} {t : N}
    (course : b.Course (Function.update b.target i t) done dir) (fresh : b.Fresh t)
    (member : i ∈ done) (ready : b.Ready done i) :
    Clear key dir ⟨t, b.target i⟩ ∧ b.Course b.target done (move dir ⟨t, b.target i⟩) := by
  obtain ⟨clear, placed⟩ := b.placed_land fresh course.placed member ready
  refine ⟨clear, placed, fun _ _ => rfl, ?_, ?_⟩
  · intro j _ k out same
    exact out (b.targets _ _ same ▸ ‹j ∈ done›)
  · intro j inside k out
    by_cases own : j = i
    · subst own
      exact b.target_ne_source ready out (by rintro rfl; exact out inside)
    · have kept := course.kept j inside k out
      rwa [Function.update_of_ne own] at kept

end Placing

/-- When every move still to happen waits on another, following the wait is a
permutation of those moves; so nothing that happened waits on one of them. -/
theorem ready_of_drained [Fintype ι] {done : Finset ι} (drained : b.Drained done)
    (blocked : ∀ i ∉ done, ∃ j, b.Waits i j) (i : ι) (member : i ∈ done) : b.Ready done i := by
  intro j waits
  by_contra undone
  choose! next follows using blocked
  have inside : ∀ u ∈ doneᶜ, next u ∈ doneᶜ := by
    intro u out
    have out := Finset.mem_compl.mp out
    exact Finset.mem_compl.mpr fun back => out (drained _ back u (follows u out))
  have injective : Set.InjOn next (doneᶜ : Finset ι) := by
    intro u uOut v vOut same
    have first := follows u (Finset.mem_compl.mp (Finset.mem_coe.mp uOut))
    rw [same] at first
    exact b.waits_unique first (follows v (Finset.mem_compl.mp (Finset.mem_coe.mp vOut)))
  obtain ⟨u, uOut, hit⟩ := Finset.surjOn_of_injOn_of_card_le next inside injective (Nat.le_refl _)
    (Finset.mem_coe.mpr (Finset.mem_compl.mpr undone))
  have uOut := Finset.mem_compl.mp uOut
  have second := follows u uOut
  rw [hit] at second
  exact uOut (b.waits_unique waits second ▸ member)

end Batch
end Norte.Moves
