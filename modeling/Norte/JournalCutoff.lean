import Norte.JournalPlan

/-! Undoing back to a point of the journal: the selection is cut by number on both sides, and
a batch that either cut would split is left out whole. -/
namespace Norte.Chain

section Queries

variable (db : Database)

/-- `SELECT b.batch_id FROM journal b WHERE b.batch_id IS NOT NULL AND b.seq <= ?3`. -/
def Database.batchesUpTo (seq : Int) : List Int := (db.rows.filter fun b => b.seq ≤ seq).filterMap fun b => b.batchId

/-- The same above the ceiling. -/
def Database.batchesAbove (seq : Int) : List Int := (db.rows.filter fun b => seq < b.seq).filterMap fun b => b.batchId

/-- `SELECT_REVERTIBLE_AFTER`. -/
def Database.revertibleForAfter (actor : Actor) (afterSeq : Int) (uptoSeq : Option Int) : List JournalEntry :=
  ((db.rows.filter fun r => 1 ≤ r.seq && afterSeq < r.seq && r.undoesSeq.isNone && r.actorKind = actor.parts.1 &&
    r.actorId = actor.parts.2 && !db.colUndone r.seq && r.batchId.all (· ∉ db.batchesUpTo afterSeq) &&
    uptoSeq.all (r.seq ≤ ·) && uptoSeq.all fun u => r.batchId.all (· ∉ db.batchesAbove u)).reverse).map Row.entry

/-- Some row of the batch lies beyond a cut, revertible or not. -/
def Database.Crosses (afterSeq : Int) (uptoSeq : Option Int) (batch : Int) : Prop :=
  ∃ r ∈ db.rows, r.batchId = some batch ∧ (r.seq ≤ afterSeq ∨ uptoSeq.any fun u => u < r.seq)

instance (afterSeq : Int) (uptoSeq : Option Int) (batch : Int) : Decidable (db.Crosses afterSeq uptoSeq batch) :=
  inferInstanceAs (Decidable (∃ r ∈ db.rows, _))

end Queries

variable {db : Database}

theorem mem_batchesUpTo {seq b : Int} : b ∈ db.batchesUpTo seq ↔ ∃ r ∈ db.rows, r.batchId = some b ∧ r.seq ≤ seq := by
  simp only [Database.batchesUpTo, List.mem_filterMap, List.mem_filter, decide_eq_true_eq]
  exact exists_congr fun r => ⟨fun ⟨⟨stored, low⟩, own⟩ => ⟨stored, own, low⟩,
    fun ⟨stored, own, low⟩ => ⟨⟨stored, low⟩, own⟩⟩

theorem mem_batchesAbove {seq b : Int} : b ∈ db.batchesAbove seq ↔ ∃ r ∈ db.rows, r.batchId = some b ∧ seq < r.seq := by
  simp only [Database.batchesAbove, List.mem_filterMap, List.mem_filter, decide_eq_true_eq]
  exact exists_congr fun r => ⟨fun ⟨⟨stored, low⟩, own⟩ => ⟨stored, own, low⟩,
    fun ⟨stored, own, low⟩ => ⟨⟨stored, low⟩, own⟩⟩

/-- The two exclusions of the query are one: the batch does not cross a cut. -/
theorem not_crosses {afterSeq : Int} {uptoSeq : Option Int} {b : Int} : ¬db.Crosses afterSeq uptoSeq b ↔
    b ∉ db.batchesUpTo afterSeq ∧ ∀ u ∈ uptoSeq, b ∉ db.batchesAbove u := by
  rw [mem_batchesUpTo]
  simp only [Database.Crosses, mem_batchesAbove, Option.any_eq_true, decide_eq_true_eq]
  constructor
  · intro whole
    refine ⟨fun ⟨r, stored, own, low⟩ => whole ⟨r, stored, own, .inl low⟩, ?_⟩
    rintro u top ⟨r, stored, own, high⟩
    exact whole ⟨r, stored, own, .inr ⟨u, top, high⟩⟩
  · rintro ⟨low, high⟩ ⟨r, stored, own, under | ⟨u, top, over_⟩⟩
    · exact low ⟨r, stored, own, under⟩
    · exact high u top ⟨r, stored, own, over_⟩

/-- What the two cuts select of the revertible entries. -/
theorem revertibleForAfter_eq (actor : Actor) (afterSeq : Int) (uptoSeq : Option Int) :
    db.revertibleForAfter actor afterSeq uptoSeq = (db.revertibleFor actor).filter fun e =>
      afterSeq < e.seq && uptoSeq.all (e.seq ≤ ·) && e.batchId.all (¬db.Crosses afterSeq uptoSeq ·) := by
  rw [Database.revertibleForAfter, Database.revertibleFor, List.filter_map, List.filter_reverse,
    List.filter_filter]
  congr 2
  apply List.filter_congr
  intro r _
  have batch : (r.batchId.all (¬db.Crosses afterSeq uptoSeq ·)) =
      (r.batchId.all (· ∉ db.batchesUpTo afterSeq) && uptoSeq.all fun u => r.batchId.all (· ∉ db.batchesAbove u)) := by
    rw [Bool.eq_iff_iff]
    cases r.batchId with
    | none => simp
    | some b =>
      simp only [Option.all_some, decide_eq_true_eq, Bool.and_eq_true, not_crosses, Option.all_eq_true]
      exact Iff.rfl
  simp only [Function.comp_apply, Row.entry, batch]
  grind

/-! The order of the units, and that they hold every entry once. -/

theorem flatten_modify_perm {α : Type*} (units : List (List α)) (i : Nat) (inside : i < units.length) (e : α) :
    (units.modify i (· ++ [e])).flatten.Perm (units.flatten ++ [e]) := by
  induction units generalizing i with
  | nil => simp at inside
  | cons u units ih =>
    cases i with
    | zero =>
      simp only [List.modify_zero_cons, List.flatten_cons, List.append_assoc]
      exact (List.perm_append_comm).append_left u
    | succ i =>
      simp only [List.modify_succ_cons, List.flatten_cons, List.append_assoc]
      exact (ih i (by simpa using inside)).append_left u

/-- Units are entered by their first entries, in the order these come. -/
structure Grouping.Heads (seen : List JournalEntry) (g : Grouping) : Prop where
  perm : g.units.flatten.Perm seen
  heads : (g.units.map List.head?).Sublist (seen.map some)

theorem Grouping.Heads.addUnit {seen : List JournalEntry} {g : Grouping} (heads : g.Heads seen) (e : JournalEntry)
    (position : Int → Option Nat) : Grouping.Heads (seen ++ [e]) ⟨g.units ++ [[e]], position⟩ where
  perm := by
    simpa using heads.perm.append_right [e]
  heads := by
    simpa using heads.heads.append (List.Sublist.refl [some e])

theorem Grouping.Heads.addKnown {seen : List JournalEntry} {g : Grouping} (heads : g.Heads seen) (e : JournalEntry)
    {i : Nat} (inside : i < g.units.length) :
    Grouping.Heads (seen ++ [e]) { g with units := g.units.modify i (· ++ [e]) } where
  perm := (flatten_modify_perm g.units i inside e).trans (heads.perm.append_right [e])
  heads := by
    have filled : ∀ u ∈ g.units, u ≠ [] := by
      rintro u member rfl
      have named := heads.heads.subset (List.mem_map_of_mem member)
      simp at named
    have same : (g.units.modify i (· ++ [e])).map List.head? = g.units.map List.head? := by
      apply List.ext_getElem?
      intro k
      simp only [List.getElem?_map, List.getElem?_modify]
      cases here : g.units[k]? with
      | none => rfl
      | some u =>
        obtain ⟨first, rest, rfl⟩ := List.exists_cons_of_ne_nil (filled u (List.mem_of_getElem? here))
        by_cases at_ : i = k <;> simp [at_]
    rw [same, List.map_append]
    exact heads.heads.trans (List.sublist_append_left _ _)

theorem Grouping.Heads.add {seen : List JournalEntry} {g : Grouping} (grouped : Grouped seen g)
    (heads : g.Heads seen) (e : JournalEntry) : (g.add e).Heads (seen ++ [e]) := by
  unfold Grouping.add
  split
  next b carried =>
    split
    next i known => exact heads.addKnown e (grouped.inside known)
    next new => exact heads.addUnit e _
  next lone => exact heads.addUnit e _

theorem Grouping.Heads.foldl {seen : List JournalEntry} {g : Grouping} (grouped : Grouped seen g)
    (heads : g.Heads seen) (entries : List JournalEntry) : (entries.foldl Grouping.add g).Heads (seen ++ entries) := by
  induction entries generalizing seen g with
  | nil => simpa using heads
  | cons e rest ih => simpa using ih (grouped.add e) (heads.add grouped e)

theorem undoUnits_heads (entries : List JournalEntry) :
    (undoUnits entries).flatten.Perm entries ∧ ((undoUnits entries).map List.head?).Sublist (entries.map some) := by
  have nothing : Grouped [] ⟨[], fun _ => none⟩ := grouped_undoUnits []
  have empty : Grouping.Heads [] ⟨[], fun _ => none⟩ := ⟨.refl _, .refl _⟩
  have built := empty.foldl nothing entries
  exact ⟨built.perm, built.heads⟩

def largestSeq (unit : List JournalEntry) : Option Int := (unit.map fun e => e.seq).max?

theorem largestSeq_eq_head {unit : List JournalEntry} (descending : unit.Pairwise fun a b => b.seq < a.seq) :
    largestSeq unit = unit.head?.map fun e => e.seq := by
  cases descending with
  | nil => rfl
  | @cons e rest below _ =>
    rw [largestSeq, List.head?_cons, Option.map_some, List.max?_eq_some_iff]
    refine ⟨List.mem_cons_self, ?_⟩
    intro seq member
    obtain ⟨f, inside, rfl⟩ := List.mem_map.mp member
    rcases List.mem_cons.mp inside with rfl | inside
    · exact Int.le_refl _
    · exact Int.le_of_lt (below f inside)

theorem undoUnits_sublist {entries u : List JournalEntry} (member : u ∈ undoUnits entries) : u.Sublist entries := by
  rcases mem_undoUnits.mp member with ⟨e, inside, _, rfl⟩ | ⟨b, _, rfl⟩
  · exact List.singleton_sublist.mpr inside
  · exact List.filter_sublist

/-- Of entries newest first, the unit with the newest entry comes first. -/
theorem undoUnits_descending {entries : List JournalEntry} (descending : entries.Pairwise fun a b => b.seq < a.seq) :
    (undoUnits entries).Pairwise fun u v => ∃ m ∈ largestSeq u, ∃ n ∈ largestSeq v, n < m := by
  have ordered : (entries.map some).Pairwise fun (a b : Option JournalEntry) =>
      ∃ x ∈ a, ∃ y ∈ b, y.seq < x.seq :=
    List.pairwise_map.mpr (descending.imp fun below => ⟨_, rfl, _, rfl, below⟩)
  have heads := List.pairwise_map.mp (ordered.sublist (undoUnits_heads entries).2)
  refine heads.imp_of_mem ?_
  rintro u v memberU memberV ⟨x, first, y, second, below⟩
  have largest {w : List JournalEntry} (member : w ∈ undoUnits entries) {e : JournalEntry} (head : e ∈ w.head?) :
      e.seq ∈ largestSeq w := by
    rw [largestSeq_eq_head (descending.sublist (undoUnits_sublist member)), Option.mem_def.mp head]
    rfl
  exact ⟨x.seq, largest memberU first, y.seq, largest memberV second, below⟩

theorem revertibleFor_descending (ordered : db.rows.Pairwise fun r s => r.seq < s.seq) (actor : Actor) :
    (db.revertibleFor actor).Pairwise fun a b => b.seq < a.seq :=
  List.pairwise_map.mpr (List.pairwise_reverse.mpr (ordered.filter _))

/-- What a selected entry has to be. -/
def Database.between (db : Database) (afterSeq : Int) (uptoSeq : Option Int) (e : JournalEntry) : Bool :=
  afterSeq < e.seq && uptoSeq.all (e.seq ≤ ·) && e.batchId.all (¬db.Crosses afterSeq uptoSeq ·)

/-- The rest of its batch then lies between the cuts as well. -/
theorem between_batch {afterSeq : Int} {uptoSeq : Option Int} {e : JournalEntry} (kept : db.between afterSeq uptoSeq e)
    {r : Row} (stored : r ∈ db.rows) (carried : e.batchId.isSome) (same : r.batchId = e.batchId) :
    db.between afterSeq uptoSeq r.entry := by
  obtain ⟨b, own⟩ := Option.isSome_iff_exists.mp carried
  rw [own] at same
  simp only [Database.between, own, Option.all_some, Bool.and_eq_true, decide_eq_true_eq] at kept
  have inside : ¬(r.seq ≤ afterSeq ∨ uptoSeq.any fun u => u < r.seq) := fun beyond => kept.2 ⟨r, stored, same, beyond⟩
  obtain ⟨late, early⟩ := not_or.mp inside
  have batch : r.entry.batchId = some b := same
  simp only [Database.between, batch, Option.all_some, Bool.and_eq_true, decide_eq_true_eq]
  refine ⟨⟨not_le.mp late, ?_⟩, kept.2⟩
  cases uptoSeq with
  | none => rfl
  | some u =>
    simp only [Option.any_some, decide_eq_true_eq, not_lt] at early
    exact decide_eq_true early

/-- The selection between two cuts keeps a batch whole or leaves it out, and so do the
units that are made of it. -/
theorem revertibleForAfter_whole (db : Database) (ordered : db.rows.Pairwise fun r s => r.seq < s.seq)
    (oneActor : ∀ r ∈ db.rows, ∀ s ∈ db.rows, r.batchId.isSome → s.batchId = r.batchId →
      s.actorKind = r.actorKind ∧ s.actorId = r.actorId)
    (actor : Actor) (afterSeq : Int) (uptoSeq : Option Int) (selected : List JournalEntry)
    (asked : db.revertibleForAfter actor afterSeq uptoSeq = selected) :
    (selected = (db.revertibleFor actor).filter fun e =>
      afterSeq < e.seq && uptoSeq.all (e.seq ≤ ·) && e.batchId.all (¬db.Crosses afterSeq uptoSeq ·)) ∧
    (∀ e ∈ selected, ∀ f ∈ db.revertibleFor actor, e.batchId.isSome → f.batchId = e.batchId → f ∈ selected) ∧
    (∀ u ∈ undoUnits selected, u ∈ undoUnits (db.revertibleFor actor) ∧
      ∀ e ∈ u, ∀ r ∈ db.rows, e.batchId.isSome → r.batchId = e.batchId → 1 ≤ r.seq → r.undoesSeq = none →
        db.colUndone r.seq = false → r.entry ∈ u) ∧
    ((undoUnits selected).Pairwise fun u v => ∃ m ∈ largestSeq u, ∃ n ∈ largestSeq v, n < m) ∧
    (undoUnits selected).flatten.Perm selected ∧ selected.Nodup := by
  have cut := asked.symm.trans (revertibleForAfter_eq actor afterSeq uptoSeq)
  have descending : selected.Pairwise fun a b => b.seq < a.seq := by
    rw [cut]
    exact (revertibleFor_descending ordered actor).filter _
  obtain rfl := cut
  have whole : ∀ e ∈ db.revertibleFor actor, ∀ f ∈ db.revertibleFor actor, e.batchId.isSome →
      f.batchId = e.batchId → db.between afterSeq uptoSeq e → db.between afterSeq uptoSeq f := by
    intro e _ f revertible carried same kept
    obtain ⟨r, stored, rfl, _⟩ := mem_revertibleFor.mp revertible
    exact between_batch kept stored carried same
  refine ⟨rfl, ?_, ?_, undoUnits_descending descending, (undoUnits_heads _).1, descending.imp ?_⟩
  · intro e chosen f revertible carried same
    obtain ⟨candidate, kept⟩ := List.mem_filter.mp chosen
    exact List.mem_filter.mpr ⟨revertible, whole e candidate f revertible carried same kept⟩
  · intro u member
    refine ⟨undoUnits_filter whole member, ?_⟩
    intro e inside r stored carried same positive act live
    obtain ⟨candidate, kept⟩ := List.mem_filter.mp ((undoUnits_sublist member).subset inside)
    obtain ⟨s, storedS, rfl, _, _, kind, id, _⟩ := mem_revertibleFor.mp candidate
    obtain ⟨kindR, idR⟩ := oneActor s storedS r stored carried same
    have revertible : r.entry ∈ db.revertibleFor actor :=
      mem_revertibleFor.mpr ⟨r, stored, rfl, positive, act, kindR.trans kind, idR.trans id, live⟩
    have chosen := List.mem_filter.mpr ⟨revertible, between_batch kept stored carried same⟩
    exact undoUnits_closed member inside chosen carried same
  · rintro a b below rfl
    exact absurd below (lt_irrefl _)

/-- Of two interleaved batches the one that goes on behind the ceiling is left out. -/
theorem revertibleForAfter_whole_interleaved :
    (interleaved.revertibleForAfter .user 1 (some 6)).map (fun e => e.seq) = [6, 4, 2] ∧
      (undoUnits (interleaved.revertibleForAfter .user 1 (some 6))).flatten.Perm
        (interleaved.revertibleForAfter .user 1 (some 6)) := by
  have ordered : interleaved.rows.Pairwise fun r s => r.seq < s.seq := by decide +kernel
  have oneActor : ∀ r ∈ interleaved.rows, ∀ s ∈ interleaved.rows, r.batchId.isSome → s.batchId = r.batchId →
      s.actorKind = r.actorKind ∧ s.actorId = r.actorId := by decide +kernel
  obtain ⟨_, _, _, _, perm, _⟩ := revertibleForAfter_whole interleaved ordered oneActor .user 1 (some 6) _ rfl
  exact ⟨by decide +kernel, perm⟩

end Norte.Chain
