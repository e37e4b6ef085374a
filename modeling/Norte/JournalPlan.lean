import Norte.JournalCompact

/-! The plan of a compaction is the greatest cut that may be made. The loop behind it is
first taken by itself: a bound that retreats in front of whatever crosses it. -/
namespace Norte.Retreat

/-- `while start <= bound`: what crosses the bound moves it in front of itself, and the
loop breaks where nothing does. -/
inductive Shrinks (crossing : Int → Option Int) (start : Int) : Int → Int → Prop where
  | low {bound : Int} (under : bound < start) : Shrinks crossing start bound bound
  | clear {bound : Int} (inside : start ≤ bound) (none_ : crossing bound = none) :
      Shrinks crossing start bound bound
  | retreat {bound first last : Int} (inside : start ≤ bound) (found : crossing bound = some first)
      (rest : Shrinks crossing start (first - 1) last) : Shrinks crossing start bound last

variable {crossing : Int → Option Int} {start bound last : Int}

theorem Shrinks.unique {other : Int} (run : Shrinks crossing start bound last)
    (again : Shrinks crossing start bound other) : last = other := by
  induction run with
  | low under =>
    cases again with
    | low => rfl
    | clear => rfl
    | retreat inside => omega
  | clear inside none_ =>
    cases again with
    | low => rfl
    | clear => rfl
    | retreat _ found =>
      rw [none_] at found
      cases found
  | retreat inside found _ ih =>
    cases again with
    | low => omega
    | clear _ none_ =>
      rw [none_] at found
      cases found
    | retreat _ found' rest =>
      rw [found] at found'
      cases found'
      exact ih rest

/-- The loop ends below its start, or where nothing crosses. -/
theorem Shrinks.clears (run : Shrinks crossing start bound last) :
    last < start ∨ crossing last = none := by
  induction run with
  | low under => exact .inl under
  | clear _ none_ => exact .inr none_
  | retreat _ _ _ ih => exact ih

/-- No retreat passes a bound that whatever crosses a higher one stays above. -/
theorem Shrinks.greatest {t : Int} (run : Shrinks crossing start bound last)
    (safe : ∀ high first, t ≤ high → crossing high = some first → t < first) (below : t ≤ bound) :
    t ≤ last := by
  induction run with
  | low => exact below
  | clear => exact below
  | @retreat bound first _ _ found _ ih =>
    apply ih
    exact Int.le_sub_one_of_lt (safe bound first below found)

/-- What crosses a bound lies at it or under it, so that every retreat is one. -/
theorem Shrinks.le (run : Shrinks crossing start bound last)
    (crosses : ∀ bound first, crossing bound = some first → first ≤ bound) : last ≤ bound := by
  induction run with
  | low => exact Int.le_refl _
  | clear => exact Int.le_refl _
  | @retreat bound first _ _ found _ ih =>
    have := crosses bound first found
    omega

end Norte.Retreat

namespace Norte.Chain

open Retreat

variable {sha256 : Bytes → Hash}

/-- The mutations are numbered from behind the base up to the head, without a gap. -/
def Consecutive (db : Database) : Prop :=
  ∀ (i : Nat) (r : Row), db.mutations[i]? = some r → r.seq = db.first + i

/-- A cut that drops something and keeps something, drops nothing young and splits no
batch. -/
structure Legal (db : Database) (beforeMs through : Int) : Prop where
  drops : db.first ≤ through
  keeps : ∃ head ∈ db.head, through < head.1
  old : ∀ r ∈ db.mutations, r.seq ≤ through → r.tsMs < beforeMs
  whole : ∀ a ∈ db.mutations, ∀ b ∈ db.mutations, a.seq ≤ through → through < b.seq →
    a.batchId.isSome → a.batchId ≠ b.batchId

theorem cut_shrinks (db : Database) (start : Int) (fuel : Nat) (through : Int)
    (enough : through - start < fuel) : Shrinks db.split start through (db.cut start fuel through) := by
  induction fuel generalizing through with
  | zero =>
    apply Shrinks.low
    omega
  | succ fuel ih =>
    rw [Database.cut]
    split
    next under => exact .low under
    next inside =>
      split
      next whole => exact .clear (by omega) whole
      next first found =>
        have := split_le found
        exact .retreat (by omega) found (ih (first - 1) (by omega))

/-- The row that splits a batch is a mutation, and its batch goes on after the cut. -/
theorem split_origin {db : Database} {through first : Int} (found : db.split through = some first) :
    ∃ a ∈ db.mutations, a.seq = first ∧ a.seq ≤ through ∧ a.batchId.isSome ∧
      ∃ b ∈ db.rows, b.batchId = a.batchId ∧ through < b.seq := by
  obtain ⟨a, inside, rfl⟩ := List.mem_map.mp (List.min?_mem found)
  obtain ⟨stored, kept⟩ := List.mem_filter.mp inside
  simp only [Bool.and_eq_true, decide_eq_true_eq, List.any_eq_true] at kept
  obtain ⟨⟨⟨positive, low⟩, carried⟩, b, storedB, same, high⟩ := kept
  exact ⟨a, mem_mutations.mpr ⟨stored, positive⟩, rfl, low, carried, b, storedB, same, high⟩

/-- A legal cut stays in front of every row that a higher cut would take from its batch. -/
theorem Legal.before_split {db : Database} {beforeMs through : Int} (legal : Legal db beforeMs through)
    {high first : Int} (below : through ≤ high) (found : db.split high = some first) : through < first := by
  obtain ⟨a, mutation, rfl, low, carried, b, stored, same, above⟩ := split_origin found
  by_contra kept
  have positive := (mem_mutations.mp mutation).2
  apply legal.whole a mutation b (mem_mutations.mpr ⟨stored, by omega⟩) (by omega) (by omega) carried
  exact same.symm

section Bound

variable {db : Database} {head : Int} {digest : Hash}

/-- Where the loop starts: in front of the first young row, and of the head. -/
def Database.bound (db : Database) (beforeMs head : Int) : Int :=
  min ((((db.rows.filter fun r => 1 ≤ r.seq && beforeMs ≤ r.tsMs).map fun r => r.seq).min?).getD head) head - 1

theorem bound_lt_head (beforeMs : Int) : db.bound beforeMs head < head := by
  unfold Database.bound
  omega

theorem le_bound (beforeMs through : Int) (keeps : through < head)
    (old : ∀ r ∈ db.mutations, r.seq ≤ through → r.tsMs < beforeMs) : through ≤ db.bound beforeMs head := by
  unfold Database.bound
  cases young : ((db.rows.filter fun r => 1 ≤ r.seq && beforeMs ≤ r.tsMs).map fun r => r.seq).min? with
  | none =>
    simp only [Option.getD_none]
    omega
  | some first =>
    obtain ⟨r, inside, rfl⟩ := List.mem_map.mp (List.min?_mem young)
    obtain ⟨stored, kept⟩ := List.mem_filter.mp inside
    simp only [Bool.and_eq_true, decide_eq_true_eq] at kept
    have late : through < r.seq := by
      by_contra early
      have := old r (mem_mutations.mpr ⟨stored, kept.1⟩) (by omega)
      omega
    simp only [Option.getD_some]
    omega

theorem old_of_le_bound {beforeMs through : Int} (below : through ≤ db.bound beforeMs head) :
    ∀ r ∈ db.mutations, r.seq ≤ through → r.tsMs < beforeMs := by
  intro r mutation early
  by_contra young
  obtain ⟨stored, positive⟩ := mem_mutations.mp mutation
  have inside : r.seq ∈ (db.rows.filter fun r => 1 ≤ r.seq && beforeMs ≤ r.tsMs).map fun r => r.seq := by
    apply List.mem_map_of_mem
    simp only [List.mem_filter, Bool.and_eq_true, decide_eq_true_eq]
    exact ⟨stored, positive, by omega⟩
  unfold Database.bound at below
  cases least : ((db.rows.filter fun r => 1 ≤ r.seq && beforeMs ≤ r.tsMs).map fun r => r.seq).min? with
  | none =>
    rw [List.min?_eq_none_iff.mp least] at inside
    cases inside
  | some first =>
    have : first ≤ r.seq := (List.le_min?_iff least).mp (Int.le_refl _) _ inside
    rw [least, Option.getD_some] at below
    omega

end Bound

/-- Every number from behind the base up to the head names a mutation. -/
theorem Consecutive.row {db : Database} (consecutive : Consecutive db) {head : Int × Hash}
    (last : db.head = some head) {t : Int} (drops : db.first ≤ t) (keeps : t ≤ head.1) :
    ∃ r ∈ db.mutations, r.seq = t := by
  obtain ⟨newest, top, rfl⟩ := Option.map_eq_some_iff.mp last
  have top : db.mutations.getLast? = some newest := top
  rw [List.getLast?_eq_getElem?] at top
  have own := consecutive _ _ top
  obtain ⟨inside, _⟩ := List.getElem?_eq_some_iff.mp top
  have short : (t - db.first).toNat < db.mutations.length := by
    simp only at keeps
    omega
  have here := consecutive _ _ (List.getElem?_eq_getElem short)
  exact ⟨_, List.getElem_mem short, by omega⟩

theorem Consecutive.entryHashAt {db : Database} (consecutive : Consecutive db) {head : Int × Hash}
    (last : db.head = some head) {t : Int} (drops : db.first ≤ t) (keeps : t ≤ head.1) :
    ∃ hash, db.entryHashAt t = some hash := by
  obtain ⟨r, mutation, same⟩ := consecutive.row last drops keeps
  obtain ⟨stored, positive⟩ := mem_mutations.mp mutation
  have found : (db.rows.find? fun r => r.seq = t && 1 ≤ r.seq).isSome := by
    rw [List.find?_isSome]
    refine ⟨r, stored, ?_⟩
    rw [same] at positive ⊢
    simp [positive]
  obtain ⟨s, found⟩ := Option.isSome_iff_exists.mp found
  exact ⟨s.entryHash, by rw [Database.entryHashAt, found, Option.map_some]⟩

/-- Where the loop ends above its start, it ends at a legal cut. -/
theorem legal_of_shrinks {db : Database} {beforeMs : Int} {head : Int × Hash} {through : Int}
    (last : db.head = some head) (run : Shrinks db.split db.first (db.bound beforeMs head.1) through)
    (drops : db.first ≤ through) : Legal db beforeMs through := by
  have below := run.le fun _ _ found => split_le found
  refine ⟨drops, ⟨head, last, ?_⟩, old_of_le_bound below, ?_⟩
  · have : db.bound beforeMs head.1 < head.1 := bound_lt_head beforeMs
    omega
  · intro a mutation b mutationB low high carried same
    have whole := run.clears.resolve_left (by omega)
    obtain ⟨stored, positive⟩ := mem_mutations.mp mutation
    have := batch_of_split_none whole stored (mem_mutations.mp mutationB).1 positive low carried same.symm
    omega

theorem Legal.le_last {db : Database} {beforeMs t : Int} (legal : Legal db beforeMs t) {head : Int × Hash}
    (last : db.head = some head) {through : Int}
    (run : Shrinks db.split db.first (db.bound beforeMs head.1) through) : t ≤ through := by
  apply run.greatest
  · exact fun _ _ below found => legal.before_split below found
  · obtain ⟨other, same, keeps⟩ := legal.keeps
    rw [last] at same
    obtain rfl := Option.some.inj same
    exact le_bound beforeMs t keeps legal.old

/-- The plan names the greatest legal cut, there is none where no cut is legal, and the loop
comes to its end on every table. -/
theorem compactionPlan_greatest (db : Database) (beforeMs : Int) (consecutive : Consecutive db) :
    (∃ plan, compactionPlan db beforeMs = .ok plan ∧
      (∀ base ∈ plan, Legal db beforeMs base.throughSeq ∧
        db.entryHashAt base.throughSeq = some base.throughHash ∧
        ∀ t, Legal db beforeMs t → t ≤ base.throughSeq) ∧
      (plan = none ↔ ¬∃ t, Legal db beforeMs t)) ∧
    ∀ start through, Shrinks db.split start through (db.cut start (through - start + 1).toNat through) := by
  refine ⟨?_, fun start through => cut_shrinks db start _ through (by omega)⟩
  cases last : db.head with
  | none =>
    refine ⟨none, by rw [compactionPlan, last], ?_, ?_⟩
    · intro base named
      cases named
    · simp only [true_iff]
      rintro ⟨t, legal⟩
      obtain ⟨head, named, _⟩ := legal.keeps
      rw [last] at named
      cases named
  | some head =>
    generalize stop : db.cut db.first (db.bound beforeMs head.1 - db.first + 1).toNat
      (db.bound beforeMs head.1) = through
    have run : Shrinks db.split db.first (db.bound beforeMs head.1) through := by
      rw [← stop]
      exact cut_shrinks db db.first _ _ (by omega)
    by_cases kept : through < db.first
    · have planned : compactionPlan db beforeMs = .ok none := by
        rw [← stop] at kept
        rw [compactionPlan, last]
        exact if_pos kept
      refine ⟨none, planned, ?_, ?_⟩
      · intro base named
        cases named
      · simp only [true_iff]
        rintro ⟨t, legal⟩
        have := legal.le_last last run
        have := legal.drops
        omega
    · have legal := legal_of_shrinks last run (by omega)
      obtain ⟨other, same, keeps⟩ := legal.keeps
      rw [last] at same
      obtain rfl := Option.some.inj same
      obtain ⟨hash, named⟩ := consecutive.entryHashAt last legal.drops (by omega)
      have planned : compactionPlan db beforeMs = .ok (some ⟨through, hash⟩) := by
        rw [← stop] at kept named
        rw [compactionPlan, last]
        refine (if_neg kept).trans ?_
        split
        · rename_i missing
          cases named.symm.trans missing
        · rename_i found
          obtain rfl := Option.some.inj (named.symm.trans found)
          rw [← stop]
          rfl
      refine ⟨some ⟨through, hash⟩, planned, ?_, ?_⟩
      · rintro base own
        obtain rfl := Option.some.inj own
        exact ⟨legal, named, fun t lower => lower.le_last last run⟩
      · constructor
        · intro none_
          cases none_
        · exact fun none_ => absurd ⟨through, legal⟩ none_

/-- A table of mutations with these times and batches. -/
def sampleTable (batches : List (Int × Option Int)) : Database :=
  ⟨batches.mapIdx fun i b => ⟨(sampleEntry b.2).record b.1 (i + 1), .zero, .zero⟩, none⟩

/-- Two batches interleave in front of a young row, and each retreat splits the other. -/
def interleaved : Database :=
  sampleTable [(3, none), (3, some 1), (3, some 2), (3, some 1), (4, some 2), (9, none), (9, some 2)]

theorem compactionPlan_greatest_interleaved : Legal interleaved 9 1 ∧ ∀ t, Legal interleaved 9 t → t ≤ 1 := by
  have consecutive : Consecutive interleaved := by
    intro i r found
    have all : ∀ p ∈ interleaved.mutations.zipIdx, p.1.seq = 1 + (p.2 : Int) := by decide +kernel
    exact all (r, i) (List.mem_zipIdx_iff_getElem?.mpr found)
  obtain ⟨⟨plan, planned, greatest, _⟩, _⟩ := compactionPlan_greatest interleaved 9 consecutive
  have through : (compactionPlan interleaved 9).toOption.join.map CompactionBase.throughSeq = some 1 := by
    decide +kernel
  rw [planned] at through
  obtain ⟨base, rfl, same⟩ := Option.map_eq_some_iff.mp through
  obtain ⟨legal, _, most⟩ := greatest base rfl
  rw [same] at legal most
  exact ⟨legal, most⟩

end Norte.Chain
