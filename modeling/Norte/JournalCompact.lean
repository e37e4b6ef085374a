import Norte.UndoHistory

/-! A compaction drops rows that undo could still ask about, and yet changes none of its
answers about the rows that stay: compensations are younger than what they take back, and
the cut splits no batch. -/
namespace Norte.Chain

open Hashing Utf8

variable {sha256 : Bytes → Hash}

/-- Among numbers that go down, a bound from below selects the first ones. -/
theorem take_filter_of_descending {R : Type*} {f : R → Int} {rows : List R} (t : Int)
    (descending : rows.Pairwise fun a b => f b < f a) (n : Nat) :
    (rows.filter fun r => t < f r).take n = (rows.take n).filter fun r => t < f r := by
  induction descending generalizing n with
  | nil => simp
  | @cons r rows below _ ih =>
    cases n with
    | zero => simp
    | succ n =>
      by_cases young : t < f r
      · simp [young, ih n]
      · have old : (rows.filter fun s => t < f s) = [] := by
          rw [List.filter_eq_nil_iff]
          intro s member
          have := below s member
          simp only [decide_eq_true_eq]
          omega
        have part : ((rows.take n).filter fun s => t < f s) = [] := by
          rw [List.filter_eq_nil_iff] at old ⊢
          exact fun s member => old s (List.mem_of_mem_take member)
        simp [young, old, part]

/-! What a plan says. -/

theorem split_le {db : Database} {through first : Int} (found : db.split through = some first) :
    first ≤ through := by
  have member := List.min?_mem found
  obtain ⟨a, inside, rfl⟩ := List.mem_map.mp member
  have kept := (List.mem_filter.mp inside).2
  simp only [Bool.and_eq_true, decide_eq_true_eq] at kept
  exact kept.1.1.2

/-- The cut only moves down, and stops where it splits nothing. -/
theorem cut_spec (db : Database) (start : Int) (fuel : Nat) (through : Int)
    (enough : through - start < fuel) :
    db.cut start fuel through ≤ through ∧
      (db.cut start fuel through < start ∨ db.split (db.cut start fuel through) = none) := by
  induction fuel generalizing through with
  | zero => exact ⟨Int.le_refl _, .inl (by simp only [Database.cut]; omega)⟩
  | succ fuel ih =>
    rw [Database.cut]
    split
    next low => exact ⟨Int.le_refl _, .inl low⟩
    next high =>
      split
      next whole => exact ⟨Int.le_refl _, .inr whole⟩
      next first found =>
        have below := split_le found
        obtain ⟨down, spec⟩ := ih (first - 1) (by omega)
        exact ⟨by omega, spec⟩

/-- A batch is on one side of a cut that splits nothing. -/
theorem batch_of_split_none {db : Database} {through : Int} (whole : db.split through = none) {a b : Row}
    (insideA : a ∈ db.rows) (insideB : b ∈ db.rows) (positive : 1 ≤ a.seq) (old : a.seq ≤ through)
    (carried : a.batchId.isSome) (same : b.batchId = a.batchId) : b.seq ≤ through := by
  by_contra young
  have empty := List.map_eq_nil_iff.mp (List.min?_eq_none_iff.mp whole)
  rw [List.filter_eq_nil_iff] at empty
  apply empty a insideA
  simp only [Bool.and_eq_true, decide_eq_true_eq, List.any_eq_true]
  exact ⟨⟨⟨positive, old⟩, carried⟩, b, insideB, same, by omega⟩

/-- What a plan promises: its row is there, rows follow it, and no batch is split. -/
theorem compactionPlan_spec {db : Database} {beforeMs : Int} {plan : CompactionBase}
    (planned : compactionPlan db beforeMs = .ok (some plan)) :
    db.entryHashAt plan.throughSeq = some plan.throughHash ∧
      (∃ head, db.head = some head ∧ plan.throughSeq < head.1) ∧ db.split plan.throughSeq = none := by
  unfold compactionPlan at planned
  split at planned
  · cases planned
  next head digest found =>
    dsimp only at planned
    generalize origin : (db.base.map fun b => b.throughSeq + 1).getD 1 = start at planned
    generalize young : ((db.rows.filter fun r => 1 ≤ r.seq && beforeMs ≤ r.tsMs).map fun r => r.seq).min? =
      firstYoung at planned
    generalize goal : min (firstYoung.getD head) head - 1 = most at planned
    obtain ⟨down, spec⟩ := cut_spec db start (most - start + 1).toNat most (by omega)
    split at planned
    · cases planned
    next kept =>
      split at planned
      · cases planned
      next hash named =>
        obtain rfl := Option.some.inj (Except.ok.inj planned)
        exact ⟨named, ⟨_, found, by dsimp only; omega⟩, spec.resolve_left kept⟩

/-- A row that a cut at `through` leaves in place. -/
def Row.survives (through : Int) (r : Row) : Bool := !(1 ≤ r.seq && r.seq ≤ through)

/-- The table after that cut. -/
def Database.cutAt (db : Database) (through : Int) (base : Option CompactionBase) : Database :=
  ⟨db.rows.filter (Row.survives through), base⟩

/-- A planned compaction goes through, and reopening adds nothing to it. -/
theorem compact_planned {j : Journal} {marker mutations : List Row}
    (sound : Sound sha256 j marker mutations) {beforeMs : Int} {plan : CompactionBase}
    (planned : compactionPlan j.db beforeMs = .ok (some plan)) (tsMs : Int) :
    (∃ n, (compact plan j.db).1 = .ok n) ∧
      (fromOptions sha256 tsMs (compact plan j.db).2).db =
        j.db.cutAt plan.throughSeq (some plan) := by
  obtain ⟨named, ⟨head, last, young⟩, _⟩ := compactionPlan_spec planned
  rw [Database.head] at last
  obtain ⟨r, newest, rfl⟩ := Option.map_eq_some_iff.mp last
  have mutation : r ∈ mutations := by
    rw [← sound.chained.mutations]
    exact List.mem_of_getLast? newest
  have stored : r ∈ j.db.rows := by
    rw [sound.chained.rows]
    exact List.mem_append_right _ mutation
  have follows : ¬j.db.rows.getLast?.all (fun s => s.seq ≤ plan.throughSeq) := by
    have top : j.db.rows.getLast? = some r := by
      have own : mutations.getLast? = some r := by
        rw [← sound.chained.mutations]
        exact newest
      rw [sound.chained.rows, List.getLast?_append, own, Option.some_or]
    simpa [top] using young
  have written : (j.db.cutAt plan.throughSeq (some plan)).rows ≠ [] := by
    apply List.ne_nil_of_mem (a := r)
    refine List.mem_filter.mpr ⟨stored, ?_⟩
    simp only at young
    simp [Row.survives, young]
  have same : (compact plan j.db).2 = j.db.cutAt plan.throughSeq (some plan) := by
    rw [compact, if_neg (not_not.mpr named), if_neg follows]
    rfl
  refine ⟨⟨(j.db.rows.filter fun r => 1 ≤ r.seq && r.seq ≤ plan.throughSeq).length, ?_⟩, ?_⟩
  · rw [compact, if_neg (not_not.mpr named), if_neg follows]
  · rw [same, fromOptions, stampFormatIfNew, if_neg written]

/-- Entries take back only earlier ones. -/
theorem Run.retrospective {j : Journal} {handed : List Int} (run : Run sha256 Retrospective j handed) :
    ∀ r ∈ j.db.rows, ∀ t ∈ r.undoesSeq, t < r.seq := by
  induction run with
  | fresh tsMs =>
    intro r member t target
    rw [List.mem_singleton.mp member] at target
    cases target
  | older => simp [unmarked]
  | @record j j' handed e tsMs taken answer earlier admitted recorded ih =>
    obtain ⟨marker, mutations, sound⟩ := earlier.sound
    rcases recordEntry_cases sound e tsMs taken with none | refused | written
    · rw [none] at recorded
      cases recorded
    · rw [refused] at recorded
      obtain ⟨_, rfl⟩ := Prod.mk.inj (Option.some.inj recorded)
      exact ih
    · rw [written] at recorded
      obtain ⟨_, rfl⟩ := Prod.mk.inj (Option.some.inj recorded)
      intro r member t target
      rcases List.mem_append.mp member with early | last
      · exact ih r early t target
      · rw [List.mem_singleton.mp last] at target ⊢
        exact Int.lt_add_one_of_le (admitted t target)
  | allocBatch _ given ih =>
    obtain ⟨_, rfl⟩ := allocBatch_eq_some given
    exact ih
  | reopen tsMs _ ih =>
    intro r member t target
    simp only [fromOptions, stampFormatIfNew] at member
    split at member
    · rw [List.mem_singleton.mp member] at target
      cases target
    · exact ih r member t target
  | compact plan _ ih => exact fun r member => ih r (compact_rows_subset plan _ member)

/-! What the readers answer after a cut. -/

theorem Row.survives_iff {through : Int} {r : Row} : r.survives through ↔ r.seq < 1 ∨ through < r.seq := by
  simp only [Row.survives, Bool.not_eq_true', Bool.and_eq_false_iff, decide_eq_false_iff_not]
  omega

theorem Row.survives_of_positive {through : Int} {r : Row} (positive : 1 ≤ r.seq) :
    r.survives through = decide (through < r.seq) := by
  rw [Bool.eq_iff_iff, survives_iff, decide_eq_true_eq]
  omega

/-- The compensation of a row that stays is younger than it, and so is what took that
one back. -/
theorem colUndone_cut {db : Database} (retrospective : ∀ r ∈ db.rows, ∀ t ∈ r.undoesSeq, t < r.seq)
    (base : Option CompactionBase) {through seq : Int} (young : through < seq) :
    (db.cutAt through base).colUndone seq = db.colUndone seq := by
  have kept {r : Row} {t : Int} (member : r ∈ db.rows) (target : r.undoesSeq = some t) (above : through < t) :
      r.survives through := by
    have := retrospective r member t target
    exact Row.survives_iff.mpr (.inr (by omega))
  rw [Bool.eq_iff_iff, Database.colUndone, Database.colUndone, decide_eq_true_eq, decide_eq_true_eq,
    mem_liveTargets, mem_liveTargets]
  simp only [Database.cutAt, List.mem_filter]
  constructor
  · rintro ⟨c, ⟨member, _⟩, target, live⟩
    refine ⟨c, member, target, fun d inside own => live d ⟨inside, ?_⟩ own⟩
    have := retrospective c member seq target
    exact kept inside own (by omega)
  · rintro ⟨c, member, target, live⟩
    exact ⟨c, ⟨member, kept member target young⟩, target, fun d inside => live d inside.1⟩

theorem revertibleFor_cut {db : Database} (retrospective : ∀ r ∈ db.rows, ∀ t ∈ r.undoesSeq, t < r.seq)
    (base : Option CompactionBase) (through : Int) (actor : Actor) :
    (db.cutAt through base).revertibleFor actor =
      (db.revertibleFor actor).filter fun e => through < e.seq := by
  rw [Database.revertibleFor, Database.revertibleFor, Database.cutAt, List.filter_filter, List.filter_map,
    List.filter_reverse, List.filter_filter]
  congr 2
  apply List.filter_congr
  intro r member
  by_cases positive : 1 ≤ r.seq
  · by_cases young : through < r.seq
    · have same := colUndone_cut retrospective base young
      rw [Database.cutAt] at same
      simp [same, Row.survives_of_positive positive, young, Row.entry]
    · simp [Row.survives_of_positive positive, young, Row.entry]
  · simp [positive]

theorem page_cut {db : Database} (sorted : db.rows.Pairwise fun r s => r.seq < s.seq)
    (retrospective : ∀ r ∈ db.rows, ∀ t ∈ r.undoesSeq, t < r.seq) (base : Option CompactionBase)
    (through : Int) (beforeSeq : Option Int) (limit : Nat) (actorKind : Option Str) :
    (db.cutAt through base).page beforeSeq limit actorKind =
      (db.page beforeSeq limit actorKind).filter fun p => through < p.entry.seq := by
  have descending : ((db.rows.filter fun r => 1 ≤ r.seq && beforeSeq.all (r.seq < ·) &&
      actorKind.all (r.actorKind = ·)).reverse).Pairwise fun a b => b.seq < a.seq :=
    List.pairwise_reverse.mpr (sorted.filter _)
  have selected : ((db.cutAt through base).rows.filter fun r => 1 ≤ r.seq && beforeSeq.all (r.seq < ·) &&
      actorKind.all (r.actorKind = ·)).reverse = ((db.rows.filter fun r => 1 ≤ r.seq &&
        beforeSeq.all (r.seq < ·) && actorKind.all (r.actorKind = ·)).reverse).filter
          fun r => through < r.seq := by
    rw [List.filter_reverse, Database.cutAt, List.filter_filter, List.filter_filter]
    congr 1
    apply List.filter_congr
    intro r member
    by_cases positive : 1 ≤ r.seq
    · simp [Row.survives_of_positive positive, Bool.and_comm]
    · simp [positive]
  rw [Database.page, Database.page, selected, take_filter_of_descending through descending, List.filter_map]
  apply List.map_congr_left
  intro r member
  have young := of_decide_eq_true (List.mem_filter.mp member).2
  rw [colUndone_cut retrospective base young]

theorem undoneAmong_cut {db : Database} (retrospective : ∀ r ∈ db.rows, ∀ t ∈ r.undoesSeq, t < r.seq)
    (base : Option CompactionBase) {through : Int} {seqs : List Int} (young : ∀ s ∈ seqs, through < s) :
    (db.cutAt through base).undoneAmong seqs = db.undoneAmong seqs := by
  have chunks (fuel : Nat) (seqs : List Int) (young : ∀ s ∈ seqs, through < s) :
      (db.cutAt through base).undoneAmongChunks fuel seqs = db.undoneAmongChunks fuel seqs := by
    induction fuel generalizing seqs with
    | zero => rfl
    | succ fuel ih =>
      rw [Database.undoneAmongChunks, Database.undoneAmongChunks,
        ih _ fun s member => young s (List.mem_of_mem_drop member)]
      congr 3
      rw [Database.cutAt, List.filter_filter]
      apply List.filter_congr
      intro r member
      by_cases asked : r.seq ∈ seqs.take 500
      · have above := young _ (List.mem_of_mem_take asked)
        have same := colUndone_cut retrospective base above
        rw [Database.cutAt] at same
        simp [same, asked, Row.survives_iff.mpr (.inr above)]
      · simp [asked]
  exact chunks seqs.length seqs young

/-- Units with a common entry are one unit. -/
theorem undoUnits_disjoint {entries : List JournalEntry} {u v : List JournalEntry}
    (memberU : u ∈ undoUnits entries) (memberV : v ∈ undoUnits entries) {e : JournalEntry}
    (inU : e ∈ u) (inV : e ∈ v) : u = v := by
  rcases mem_undoUnits.mp memberU with ⟨x, _, lone, rfl⟩ | ⟨b, _, rfl⟩ <;>
    rcases mem_undoUnits.mp memberV with ⟨y, _, lone', rfl⟩ | ⟨c, _, rfl⟩
  · rw [← List.mem_singleton.mp inU, ← List.mem_singleton.mp inV]
  · have carried := of_decide_eq_true (List.mem_filter.mp inV).2
    rw [List.mem_singleton.mp inU, lone] at carried
    cases carried
  · have carried := of_decide_eq_true (List.mem_filter.mp inU).2
    rw [List.mem_singleton.mp inV, lone'] at carried
    cases carried
  · have carried := of_decide_eq_true (List.mem_filter.mp inU).2
    have carried' := of_decide_eq_true (List.mem_filter.mp inV).2
    rw [Option.some.inj (carried.symm.trans carried')]

/-- Units of a part of the entries are units of all of them, where no batch is split. -/
theorem undoUnits_filter {entries : List JournalEntry} {keep : JournalEntry → Bool}
    (whole : ∀ a ∈ entries, ∀ b ∈ entries, a.batchId.isSome → b.batchId = a.batchId → keep a → keep b)
    {u : List JournalEntry} (member : u ∈ undoUnits (entries.filter keep)) : u ∈ undoUnits entries := by
  rcases mem_undoUnits.mp member with ⟨e, inside, lone, rfl⟩ | ⟨b, ⟨e, inside, carried⟩, rfl⟩
  · exact mem_undoUnits.mpr (.inl ⟨e, (List.mem_filter.mp inside).1, lone, rfl⟩)
  · obtain ⟨inside, kept⟩ := List.mem_filter.mp inside
    refine mem_undoUnits.mpr (.inr ⟨b, ⟨e, inside, carried⟩, ?_⟩)
    rw [List.filter_filter]
    apply List.filter_congr
    intro x member
    by_cases same : x.batchId = some b
    · have stays := whole e inside x member (by rw [carried]; rfl) (same.trans carried.symm) kept
      simp [same, stays]
    · simp [same]

/-- A unit holds whatever shares a batch with one of its entries. -/
theorem undoUnits_closed {entries u : List JournalEntry} (member : u ∈ undoUnits entries) {e f : JournalEntry}
    (inside : e ∈ u) (listed : f ∈ entries) (carried : e.batchId.isSome) (same : f.batchId = e.batchId) : f ∈ u := by
  rcases mem_undoUnits.mp member with ⟨x, _, lone, rfl⟩ | ⟨b, _, rfl⟩
  · rw [List.mem_singleton.mp inside, lone] at carried
    cases carried
  · have own := of_decide_eq_true (List.mem_filter.mp inside).2
    exact List.mem_filter.mpr ⟨listed, decide_eq_true (same.trans own)⟩

theorem Chained.sorted {db : Database} {marker mutations : List Row}
    (chained : Chained sha256 db marker mutations) : db.rows.Pairwise fun r s => r.seq < s.seq := by
  rw [chained.rows, List.pairwise_append]
  refine ⟨?_, chained.linked.sorted, ?_⟩
  · rcases chained.marked with rfl | ⟨tsMs, rfl⟩
    · exact .nil
    · exact List.pairwise_singleton ..
  · intro r metadata s history
    have := chained.marked.seq r metadata
    have := chained.positive history
    omega

/-- A compaction as planned, and a reopening, change nothing that can be undone: what was
revertible, flagged or asked about among the rows that stay is what it was, and a unit is
whole or gone. -/
theorem compact_keeps_undo (sha256 : Bytes → Hash) (j : Journal) (handed : List Int)
    (run : Run sha256 Retrospective j handed) (beforeMs : Int) (plan : CompactionBase)
    (planned : compactionPlan j.db beforeMs = .ok (some plan)) (tsMs : Int) (after : Database)
    (reopened : (fromOptions sha256 tsMs (compact plan j.db).2).db = after) :
    (∃ n, (compact plan j.db).1 = .ok n) ∧
    (∀ actor, after.revertibleFor actor = (j.db.revertibleFor actor).filter fun e => plan.throughSeq < e.seq) ∧
    (∀ beforeSeq limit actorKind, after.page beforeSeq limit actorKind =
      (j.db.page beforeSeq limit actorKind).filter fun p => plan.throughSeq < p.entry.seq) ∧
    (∀ r ∈ after.rows, plan.throughSeq < r.seq → after.colUndone r.seq = j.db.colUndone r.seq) ∧
    (∀ seqs, (∀ s ∈ seqs, plan.throughSeq < s) → after.undoneAmong seqs = j.db.undoneAmong seqs) ∧
    (∀ actor, ∀ u ∈ undoUnits (after.revertibleFor actor), u ∈ undoUnits (j.db.revertibleFor actor) ∧
      ∀ v ∈ undoUnits (j.db.revertibleFor actor), (∃ e ∈ u, e ∈ v) → u = v) := by
  obtain ⟨marker, mutations, sound⟩ := run.sound
  obtain ⟨done, same⟩ := compact_planned sound planned tsMs
  obtain ⟨_, _, whole⟩ := compactionPlan_spec planned
  obtain rfl := reopened.symm.trans same
  have retrospective := run.retrospective
  have revertible := revertibleFor_cut retrospective (some plan) plan.throughSeq
  refine ⟨done, revertible, ?_, ?_, ?_, ?_⟩
  · exact page_cut sound.chained.sorted retrospective (some plan) plan.throughSeq
  · exact fun r _ young => colUndone_cut retrospective (some plan) young
  · exact fun seqs young => undoneAmong_cut retrospective (some plan) young
  · intro actor u member
    rw [revertible] at member
    have before : u ∈ undoUnits (j.db.revertibleFor actor) := by
      refine undoUnits_filter ?_ member
      rintro a insideA b insideB carried batch young
      have young := of_decide_eq_true young
      apply decide_eq_true
      obtain ⟨r, storedR, rfl, _⟩ := mem_revertibleFor.mp insideA
      obtain ⟨s, storedS, rfl, positive, _⟩ := mem_revertibleFor.mp insideB
      by_contra old
      have := batch_of_split_none whole storedS storedR positive (not_lt.mp old)
        (by rw [show s.batchId = r.batchId from batch]; exact carried) batch.symm
      exact absurd this (not_le.mpr young)
    exact ⟨before, fun v other ⟨e, inU, inV⟩ => undoUnits_disjoint before other inU inV⟩

/-- Two steps of a batch are dropped; the undo of it that was rolled back stays, flags and
all. -/
theorem compact_keeps_undo_sampleRolled : ∃ plan, compactionPlan sampleRolled.db 8 = .ok (some plan) ∧
    (fromOptions sampleHash 9 (compact plan sampleRolled.db).2).db.page none 9 none =
      (sampleRolled.db.page none 9 none).filter (fun p => 2 < p.entry.seq) ∧
    (sampleRolled.db.page none 9 none).map PageEntry.undone = [false, true, false, false] := by
  obtain ⟨⟨handed, run⟩, _⟩ := sampleRolled_reached.told
  have planned : (compactionPlan sampleRolled.db 8).toOption.join.map CompactionBase.throughSeq = some 2 := by
    decide +kernel
  obtain ⟨plan, found, through⟩ := Option.map_eq_some_iff.mp planned
  have planned : compactionPlan sampleRolled.db 8 = .ok (some plan) := by
    cases answer : compactionPlan sampleRolled.db 8 with
    | error e =>
      rw [answer] at found
      cases found
    | ok p =>
      rw [answer] at found
      exact congrArg Except.ok found
  refine ⟨plan, planned, ?_, by decide +kernel⟩
  rw [← through]
  exact (compact_keeps_undo sampleHash sampleRolled handed run 8 plan planned 9 _ rfl).2.2.1 none 9 none

end Norte.Chain
