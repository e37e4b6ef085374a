import Mathlib.Data.Finset.Card
import Mathlib.Data.List.Nodup

/-! Entries that take earlier entries back. Taking back an entry that itself took one
back puts that one in force again. What is in force after a history can be read off the
entries alone, as long as nobody goes deeper than that. -/
namespace Norte.Compensation

structure Entry (K : Type*) where
  id : K
  undoes : Option K
  deriving DecidableEq

variable {K : Type*} [DecidableEq K]

def ids (entries : List (Entry K)) : List K := entries.map Entry.id

/-- Histories, with the ids whose effect is in force at their end. -/
inductive Plays : List (Entry K) → Finset K → Prop where
  | start : Plays [] ∅
  | act {entries : List (Entry K)} {force : Finset K} {id : K} : Plays entries force →
      id ∉ ids entries → Plays (entries ++ [⟨id, none⟩]) (insert id force)
  | takeBack {entries : List (Entry K)} {force : Finset K} {id o : K} : Plays entries force →
      id ∉ ids entries → ⟨o, none⟩ ∈ entries → o ∈ force →
      Plays (entries ++ [⟨id, some o⟩]) (insert id (force.erase o))
  | restore {entries : List (Entry K)} {force : Finset K} {id c o : K} : Plays entries force →
      id ∉ ids entries → ⟨c, some o⟩ ∈ entries → ⟨o, none⟩ ∈ entries → c ∈ force →
      Plays (entries ++ [⟨id, some c⟩]) (insert id (insert o (force.erase c)))

/-- Some entry takes `id` back. -/
def Undone (entries : List (Entry K)) (id : K) : Prop := ∃ e, ⟨e, some id⟩ ∈ entries

/-- Some entry takes `id` back and is not taken back itself. -/
def LivelyUndone (entries : List (Entry K)) (id : K) : Prop :=
  ∃ e, ⟨e, some id⟩ ∈ entries ∧ ¬Undone entries e

/-- What a history keeps: ids tell entries apart, targets are entries, and what is in
force is what nothing live takes back. -/
structure Kept (entries : List (Entry K)) (force : Finset K) : Prop where
  distinct : (ids entries).Nodup
  targets : ∀ e t, ⟨e, some t⟩ ∈ entries → t ∈ ids entries
  inside : ∀ id ∈ force, id ∈ ids entries
  acts : ∀ o, ⟨o, none⟩ ∈ entries → (o ∈ force ↔ ¬LivelyUndone entries o)
  compensations : ∀ c o, ⟨c, some o⟩ ∈ entries → ⟨o, none⟩ ∈ entries → (c ∈ force ↔ ¬Undone entries c)
  single : ∀ c c' o, ⟨c, some o⟩ ∈ entries → ⟨c', some o⟩ ∈ entries → ⟨o, none⟩ ∈ entries →
    ¬Undone entries c → ¬Undone entries c' → c = c'

omit [DecidableEq K]

theorem mem_ids {entries : List (Entry K)} {id : K} {undoes : Option K} (member : ⟨id, undoes⟩ ∈ entries) :
    id ∈ ids entries := List.mem_map_of_mem (f := Entry.id) member

theorem entry_unique {entries : List (Entry K)} (distinct : (ids entries).Nodup) {id : K}
    {u u' : Option K} (here : ⟨id, u⟩ ∈ entries) (there : ⟨id, u'⟩ ∈ entries) : u = u' := by
  have same := List.inj_on_of_nodup_map distinct here there rfl
  exact congrArg Entry.undoes same

theorem undone_append {entries : List (Entry K)} {e : Entry K} {id : K} :
    Undone (entries ++ [e]) id ↔ Undone entries id ∨ e.undoes = some id := by
  simp only [Undone, List.mem_append, List.mem_singleton, exists_or]
  refine or_congr_right ⟨?_, ?_⟩
  · rintro ⟨_, rfl⟩
    rfl
  · intro target
    exact ⟨e.id, by rw [← target]⟩

/-- The new id is nobody's target, and a live compensation survives unless it is the
target. -/
theorem livelyUndone_append {entries : List (Entry K)} {force : Finset K} (kept : Kept entries force)
    {e : Entry K} (fresh : e.id ∉ ids entries) (target : ∀ t ∈ e.undoes, t ∈ ids entries) {id : K} :
    LivelyUndone (entries ++ [e]) id ↔
      (∃ c, ⟨c, some id⟩ ∈ entries ∧ ¬Undone entries c ∧ e.undoes ≠ some c) ∨ e.undoes = some id := by
  constructor
  · rintro ⟨c, member, live⟩
    rw [undone_append, not_or] at live
    rcases List.mem_append.mp member with early | last
    · exact .inl ⟨c, early, live.1, live.2⟩
    · rw [← List.mem_singleton.mp last]
      exact .inr rfl
  · rintro (⟨c, early, live, other⟩ | own)
    · exact ⟨c, List.mem_append_left _ early, by rw [undone_append, not_or]; exact ⟨live, other⟩⟩
    · refine ⟨e.id, List.mem_append_right _ (by rw [← own]; exact List.mem_singleton_self e), ?_⟩
      rw [undone_append, not_or]
      refine ⟨fun ⟨d, member⟩ => fresh (kept.targets d e.id member), fun self => fresh (target _ self)⟩

theorem ids_append (entries : List (Entry K)) (e : Entry K) : ids (entries ++ [e]) = ids entries ++ [e.id] :=
  List.map_append

theorem nodup_append {entries : List (Entry K)} {e : Entry K} (distinct : (ids entries).Nodup)
    (fresh : e.id ∉ ids entries) : (ids (entries ++ [e])).Nodup := by
  rw [ids_append]
  exact List.nodup_append.mpr ⟨distinct, List.nodup_singleton _, fun a inside b last same => by
    rw [List.mem_singleton.mp last] at same
    exact fresh (same ▸ inside)⟩

theorem targets_append {entries : List (Entry K)} {e : Entry K}
    (targets : ∀ c t, ⟨c, some t⟩ ∈ entries → t ∈ ids entries) (target : ∀ t ∈ e.undoes, t ∈ ids entries)
    (c t : K) (member : ⟨c, some t⟩ ∈ entries ++ [e]) : t ∈ ids (entries ++ [e]) := by
  rw [ids_append]
  apply List.mem_append_left
  rcases List.mem_append.mp member with early | last
  · exact targets c t early
  · exact target t (by rw [← List.mem_singleton.mp last]; rfl)

variable [DecidableEq K]

/-- An act is in force once it is done. -/
theorem Kept.act {entries : List (Entry K)} {force : Finset K} (kept : Kept entries force) {id : K}
    (fresh : id ∉ ids entries) : Kept (entries ++ [⟨id, none⟩]) (insert id force) := by
  have undone {x : K} : Undone (entries ++ [⟨id, none⟩]) x ↔ Undone entries x := by
    simp [undone_append]
  have comp {x t : K} : ⟨x, some t⟩ ∈ entries ++ [⟨id, none⟩] ↔ ⟨x, some t⟩ ∈ entries := by simp
  have lively {x : K} : LivelyUndone (entries ++ [⟨id, none⟩]) x ↔ LivelyUndone entries x := by
    simp only [LivelyUndone, undone, comp]
  have old {x : K} {u : Option K} (member : ⟨x, u⟩ ∈ entries) : x ∈ insert id force ↔ x ∈ force := by
    have other : x ≠ id := fun same => fresh (same ▸ mem_ids member)
    simp [other]
  have untargeted {c : K} (member : ⟨c, some id⟩ ∈ entries) : False := fresh (kept.targets c id member)
  refine ⟨nodup_append kept.distinct fresh, targets_append kept.targets (by simp), ?_, ?_, ?_, ?_⟩
  · intro x member
    rw [ids_append]
    rcases Finset.mem_insert.mp member with rfl | early
    · simp
    · exact List.mem_append_left _ (kept.inside x early)
  · intro o member
    rw [lively]
    rcases List.mem_append.mp member with early | last
    · rw [old early]
      exact kept.acts o early
    · obtain rfl : o = id := congrArg Entry.id (List.mem_singleton.mp last)
      refine iff_of_true (Finset.mem_insert_self ..) ?_
      rintro ⟨c, inside, _⟩
      exact untargeted inside
  · intro c o member target
    rw [comp] at member
    rw [undone, old member]
    rcases List.mem_append.mp target with early | last
    · exact kept.compensations c o member early
    · obtain rfl : o = id := congrArg Entry.id (List.mem_singleton.mp last)
      exact absurd member untargeted
  · intro c c' o member member' target live live'
    rw [comp] at member member'
    rw [undone] at live live'
    rcases List.mem_append.mp target with early | last
    · exact kept.single c c' o member member' early live live'
    · obtain rfl : o = id := congrArg Entry.id (List.mem_singleton.mp last)
      exact absurd member untargeted

/-- Taking an act back takes it out of force. -/
theorem Kept.takeBack {entries : List (Entry K)} {force : Finset K} (kept : Kept entries force) {id o : K}
    (fresh : id ∉ ids entries) (act : ⟨o, none⟩ ∈ entries) (forced : o ∈ force) :
    Kept (entries ++ [⟨id, some o⟩]) (insert id (force.erase o)) := by
  have undone {x : K} : Undone (entries ++ [⟨id, some o⟩]) x ↔ Undone entries x ∨ o = x := by
    simp [undone_append]
  have target : ∀ t ∈ (⟨id, some o⟩ : Entry K).undoes, t ∈ ids entries := by
    rintro t ⟨⟩
    exact mem_ids act
  -- a compensation is not the act that is taken back
  have other {c x : K} (member : ⟨c, some x⟩ ∈ entries) : o ≠ c := by
    rintro rfl
    cases entry_unique kept.distinct act member
  have lively {x : K} : LivelyUndone (entries ++ [⟨id, some o⟩]) x ↔ LivelyUndone entries x ∨ o = x := by
    rw [livelyUndone_append kept fresh target]
    refine or_congr ⟨?_, ?_⟩ (by simp)
    · rintro ⟨c, member, live, _⟩
      exact ⟨c, member, live⟩
    · rintro ⟨c, member, live⟩
      exact ⟨c, member, live, fun same => other member (Option.some.inj same)⟩
  have unforced : ¬LivelyUndone entries o := (kept.acts o act).mp forced
  have old {x : K} {u : Option K} (member : ⟨x, u⟩ ∈ entries) :
      x ∈ insert id (force.erase o) ↔ x ≠ o ∧ x ∈ force := by
    have new : x ≠ id := fun same => fresh (same ▸ mem_ids member)
    simp [new]
  refine ⟨nodup_append kept.distinct fresh, targets_append kept.targets target, ?_, ?_, ?_, ?_⟩
  · intro x member
    rw [ids_append]
    rcases Finset.mem_insert.mp member with rfl | early
    · simp
    · exact List.mem_append_left _ (kept.inside x (Finset.mem_of_mem_erase early))
  · intro x member
    have early : ⟨x, none⟩ ∈ entries := by simpa using member
    rw [old early, lively, kept.acts x early, not_or]
    constructor
    · rintro ⟨ne, live⟩
      exact ⟨live, fun same => ne same.symm⟩
    · rintro ⟨live, ne⟩
      exact ⟨fun same => ne same.symm, live⟩
  · intro c x member actX
    have earlyX : ⟨x, none⟩ ∈ entries := by simpa using actX
    rw [undone]
    rcases List.mem_append.mp member with early | last
    · rw [old early, kept.compensations c x early earlyX, not_or]
      exact ⟨fun ⟨_, live⟩ => ⟨live, other early⟩, fun ⟨live, ne⟩ => ⟨fun same => ne same.symm, live⟩⟩
    · obtain rfl : c = id := congrArg Entry.id (List.mem_singleton.mp last)
      refine iff_of_true (Finset.mem_insert_self ..) ?_
      rintro (⟨e, inside⟩ | rfl)
      · exact fresh (kept.targets e c inside)
      · exact fresh (mem_ids act)
  · intro c c' x member member' actX live live'
    have earlyX : ⟨x, none⟩ ∈ entries := by simpa using actX
    rw [undone, not_or] at live live'
    have mixed {d : K} (inside : ⟨d, some o⟩ ∈ entries) (live : ¬Undone entries d) : False :=
      unforced ⟨d, inside, live⟩
    rcases List.mem_append.mp member with early | last <;>
      rcases List.mem_append.mp member' with early' | last'
    · exact kept.single c c' x early early' earlyX live.1 live'.1
    · obtain ⟨_, rfl⟩ : c' = id ∧ x = o := by simpa using last'
      exact (mixed early live.1).elim
    · obtain ⟨_, rfl⟩ : c = id ∧ x = o := by simpa using last
      exact (mixed early' live'.1).elim
    · have one : c = id := congrArg Entry.id (List.mem_singleton.mp last)
      have two : c' = id := congrArg Entry.id (List.mem_singleton.mp last')
      rw [one, two]

/-- Taking a compensation back puts its act in force again. -/
theorem Kept.restore {entries : List (Entry K)} {force : Finset K} (kept : Kept entries force) {id c o : K}
    (fresh : id ∉ ids entries) (comp : ⟨c, some o⟩ ∈ entries) (act : ⟨o, none⟩ ∈ entries)
    (forced : c ∈ force) : Kept (entries ++ [⟨id, some c⟩]) (insert id (insert o (force.erase c))) := by
  have undone {x : K} : Undone (entries ++ [⟨id, some c⟩]) x ↔ Undone entries x ∨ c = x := by
    simp [undone_append]
  have target : ∀ t ∈ (⟨id, some c⟩ : Entry K).undoes, t ∈ ids entries := by
    rintro t ⟨⟩
    exact mem_ids comp
  have unacted {x : K} (member : ⟨x, none⟩ ∈ entries) : c ≠ x := by
    rintro rfl
    cases entry_unique kept.distinct comp member
  have liveC : ¬Undone entries c := (kept.compensations c o comp act).mp forced
  -- the live compensations of an act are the old ones, but for `c`
  have lively {x : K} (member : ⟨x, none⟩ ∈ entries) : LivelyUndone (entries ++ [⟨id, some c⟩]) x ↔
      x ≠ o ∧ LivelyUndone entries x := by
    rw [livelyUndone_append kept fresh target]
    constructor
    · rintro (⟨d, inside, live, ne⟩ | own)
      · refine ⟨?_, d, inside, live⟩
        rintro rfl
        exact ne (congrArg some (kept.single c d x comp inside member liveC live))
      · exact absurd (Option.some.inj own) (unacted member)
    · rintro ⟨ne, d, inside, live⟩
      refine .inl ⟨d, inside, live, fun same => ne ?_⟩
      obtain rfl := Option.some.inj same
      exact Option.some.inj (entry_unique kept.distinct inside comp)
  have old {x : K} {u : Option K} (member : ⟨x, u⟩ ∈ entries) :
      x ∈ insert id (insert o (force.erase c)) ↔ x = o ∨ x ≠ c ∧ x ∈ force := by
    have new : x ≠ id := fun same => fresh (same ▸ mem_ids member)
    simp [new]
  have split {x : K} (member : ⟨x, none⟩ ∈ entries ++ [⟨id, some c⟩]) : ⟨x, none⟩ ∈ entries := by
    simpa using member
  refine ⟨nodup_append kept.distinct fresh, targets_append kept.targets target, ?_, ?_, ?_, ?_⟩
  · intro x member
    rw [ids_append]
    rcases Finset.mem_insert.mp member with rfl | early
    · simp
    · rcases Finset.mem_insert.mp early with rfl | early
      · exact List.mem_append_left _ (mem_ids act)
      · exact List.mem_append_left _ (kept.inside x (Finset.mem_of_mem_erase early))
  · intro x member
    have early := split member
    rw [old early, lively early, kept.acts x early, not_and]
    by_cases own : x = o
    · exact iff_of_true (.inl own) fun ne => absurd own ne
    · have ne : x ≠ c := fun same => unacted early same.symm
      simp [own, ne]
  · intro d x member actX
    have earlyX := split actX
    rw [undone]
    rcases List.mem_append.mp member with early | last
    · have ne : d ≠ o := by
        rintro rfl
        cases entry_unique kept.distinct early act
      rw [old early, kept.compensations d x early earlyX, not_or]
      constructor
      · rintro (own | ⟨other, live⟩)
        · exact absurd own ne
        · exact ⟨live, fun same => other same.symm⟩
      · rintro ⟨live, other⟩
        exact .inr ⟨fun same => other same.symm, live⟩
    · obtain ⟨_, rfl⟩ : d = id ∧ x = c := by simpa using last
      exact absurd rfl (unacted earlyX)
  · intro d d' x member member' actX live live'
    have earlyX := split actX
    rw [undone, not_or] at live live'
    have inside {e : K} (member : ⟨e, some x⟩ ∈ entries ++ [⟨id, some c⟩]) : ⟨e, some x⟩ ∈ entries := by
      rcases List.mem_append.mp member with early | last
      · exact early
      · obtain ⟨_, rfl⟩ : e = id ∧ x = c := by simpa using last
        exact absurd rfl (unacted earlyX)
    exact kept.single d d' x (inside member) (inside member') earlyX live.1 live'.1

/-- Every step of a history keeps it. -/
theorem Plays.kept {entries : List (Entry K)} {force : Finset K} (plays : Plays entries force) :
    Kept entries force := by
  induction plays with
  | start =>
    refine ⟨List.nodup_nil, ?_, ?_, ?_, ?_, ?_⟩
    all_goals simp
  | act _ fresh ih => exact ih.act fresh
  | takeBack _ fresh act forced ih => exact ih.takeBack fresh act forced
  | restore _ fresh comp act forced ih => exact ih.restore fresh comp act forced

/-- An act is in force unless something live takes it back. -/
theorem Plays.mem_iff {entries : List (Entry K)} {force : Finset K} (plays : Plays entries force) {o : K}
    (act : ⟨o, none⟩ ∈ entries) : o ∈ force ↔ ¬LivelyUndone entries o := plays.kept.acts o act

/-- What took an act back is itself taken back once at most. -/
theorem Plays.once {entries : List (Entry K)} {force : Finset K} (plays : Plays entries force) {c o d d' : K}
    (comp : ⟨c, some o⟩ ∈ entries) (first : ⟨d, some c⟩ ∈ entries) (second : ⟨d', some c⟩ ∈ entries) : d = d' := by
  induction plays with
  | start => cases comp
  | act _ _ ih =>
    have early {x t : K} {entries : List (Entry K)} {id : K} (member : ⟨x, some t⟩ ∈ entries ++ [⟨id, none⟩]) :
        ⟨x, some t⟩ ∈ entries := by
      simpa using member
    exact ih (early comp) (early first) (early second)
  | @takeBack entries force id a plays fresh act _ ih =>
    have kept := plays.kept
    have inside {x : K} (member : ⟨x, some c⟩ ∈ entries ++ [⟨id, some a⟩]) (old : ⟨c, some o⟩ ∈ entries) :
        ⟨x, some c⟩ ∈ entries := by
      rcases List.mem_append.mp member with early | last
      · exact early
      · obtain ⟨_, rfl⟩ : x = id ∧ c = a := by simpa using last
        cases entry_unique kept.distinct old act
    rcases List.mem_append.mp comp with old | new
    · exact ih old (inside first old) (inside second old)
    · obtain ⟨rfl, rfl⟩ : c = id ∧ o = a := by simpa using new
      rcases List.mem_append.mp first with early | last
      · exact absurd (kept.targets d c early) fresh
      · obtain ⟨_, rfl⟩ : d = c ∧ c = o := by simpa using last
        exact absurd (mem_ids act) fresh
  | @restore entries force id b a plays fresh taken act forced ih =>
    have kept := plays.kept
    rcases List.mem_append.mp comp with old | new
    · rcases List.mem_append.mp first with early | last
      · rcases List.mem_append.mp second with early' | last'
        · exact ih old early early'
        · obtain ⟨_, rfl⟩ : d' = id ∧ c = b := by simpa using last'
          exact absurd ⟨d, early⟩ ((kept.compensations c a taken act).mp forced)
      · obtain ⟨rfl, rfl⟩ : d = id ∧ c = b := by simpa using last
        rcases List.mem_append.mp second with early' | last'
        · exact absurd ⟨d', early'⟩ ((kept.compensations c a taken act).mp forced)
        · obtain ⟨rfl, _⟩ : d' = d ∧ c = c := by simpa using last'
          rfl
    · obtain ⟨rfl, rfl⟩ : c = id ∧ o = b := by simpa using new
      rcases List.mem_append.mp first with early | last
      · exact absurd (kept.targets d c early) fresh
      · obtain ⟨_, rfl⟩ : d = c ∧ c = o := by simpa using last
        exact absurd (mem_ids taken) fresh

end Norte.Compensation
