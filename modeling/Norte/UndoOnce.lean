import Norte.UndoEntry
import Norte.UndoHistory

/-! No entry is taken back twice. What an undo still means to take back is taken back by
nobody else while it has the turn, because nobody else takes anything back. -/
namespace Norte.Turns

open Hashing Chain
open Sync (Reverted)

variable {sha256 : Bytes → Hash} {j j' : Journal}

/-- A row more, which takes `undoes` back. -/
structure Adds (j : Journal) (undoes : Option Int) (seq : Int) (j' : Journal) : Prop where
  next : seq = j.chain.lastSeq + 1
  last : j'.chain.lastSeq = seq
  rows : ∃ row : Row, row.seq = seq ∧ row.undoesSeq = undoes ∧ j'.db.rows = j.db.rows ++ [row]

theorem Fit.adds (fit : Fit sha256 j) {e : NewEntry} {tsMs seq : Int}
    (written : recordEntry sha256 e tsMs true j = some (.ok seq, j')) :
    Adds j e.undoesSeq seq j' ∧ ∃ marker mutations, Sound sha256 j' marker mutations := by
  obtain ⟨marker, mutations, sound⟩ := fit.sound
  rcases recordEntry_cases sound e tsMs true with none | refused | appended
  · rw [none] at written
    cases written
  · rw [refused] at written
    cases written
  rw [appended] at written
  obtain ⟨answer, rfl⟩ := Prod.mk.inj (Option.some.inj written)
  obtain rfl := Except.ok.inj answer
  exact ⟨⟨rfl, rfl, nextRow sha256 e tsMs j, rfl, rfl, rfl⟩, marker, _, sound.record e tsMs⟩

theorem InForce.before {db db' : Database} {rows : List Row} (longer : db'.rows = db.rows ++ rows) {c : Row}
    (live : InForce db' c) : InForce db c := by
  intro d stored
  apply live d
  rw [longer]
  exact List.mem_append_left _ stored

theorem colUndone_of_row {db : Database} {c : Row} {seq : Int} (stored : c ∈ db.rows)
    (target : c.undoesSeq = some seq) (live : InForce db c) : db.colUndone seq := by
  rw [Database.colUndone, decide_eq_true_eq, mem_liveTargets]
  exact ⟨c, stored, target, live⟩

theorem Adds.grows {undoes : Option Int} {seq : Int} (adds : Adds j undoes seq j') :
    j.db.rows ⊆ j'.db.rows := by
  obtain ⟨row, _, _, longer⟩ := adds.rows
  rw [longer]
  exact List.subset_append_left _ _

/-- What is undone after a row was before it, or is what the row takes back. -/
theorem Adds.undone {undoes : Option Int} {seq : Int} (adds : Adds j undoes seq j') {s : Int}
    (undone : j'.db.colUndone s) : j.db.colUndone s ∨ undoes = some s := by
  obtain ⟨row, _, own, longer⟩ := adds.rows
  rw [Database.colUndone, decide_eq_true_eq, mem_liveTargets] at undone
  obtain ⟨c, stored, target, live⟩ := undone
  rw [longer] at stored
  rcases List.mem_append.mp stored with early | last
  · exact .inl (colUndone_of_row early target (InForce.before longer live))
  · rw [← own, ← List.mem_singleton.mp last]
    exact .inr target

/-- A row that takes back what nothing took back leaves every entry with one compensation
in force. -/
theorem Adds.single {undoes : Option Int} {seq : Int} (adds : Adds j undoes seq j') (single : Single j.db)
    (free : ∀ target ∈ undoes, ¬j.db.colUndone target) : Single j'.db := by
  obtain ⟨row, _, own, longer⟩ := adds.rows
  -- a row from before that takes back the same would be in force
  have alone {c : Row} (stored : c ∈ j.db.rows) (same : c.undoesSeq = row.undoesSeq)
      (takes : c.undoesSeq.isSome) (live : InForce j'.db c) : False := by
    obtain ⟨target, named⟩ := Option.isSome_iff_exists.mp takes
    apply free target
    · rw [← own, ← same, named]
      rfl
    · exact colUndone_of_row stored named (InForce.before longer live)
  intro c stored c' stored' takes same live live'
  rw [longer] at stored stored'
  rcases List.mem_append.mp stored with early | last
  · rcases List.mem_append.mp stored' with early' | last'
    · exact single c early c' early' takes same (InForce.before longer live) (InForce.before longer live')
    · obtain rfl := List.mem_singleton.mp last'
      exact (alone early same takes live).elim
  · obtain rfl := List.mem_singleton.mp last
    rcases List.mem_append.mp stored' with early' | last'
    · exact (alone early' same.symm (same ▸ takes) live').elim
    · exact (List.mem_singleton.mp last').symm

theorem Fit.write (fit : Fit sha256 j) {e : NewEntry} {tsMs seq : Int}
    (written : recordEntry sha256 e tsMs true j = some (.ok seq, j'))
    (free : ∀ target ∈ e.undoesSeq, target ≤ j.chain.lastSeq ∧ ¬j.db.colUndone target) : Fit sha256 j' := by
  obtain ⟨adds, sound⟩ := fit.adds written
  refine ⟨sound, ?_, adds.single fit.single fun target named => (free target named).2⟩
  obtain ⟨row, _, own, longer⟩ := adds.rows
  intro r stored target named
  have later : j.chain.lastSeq ≤ j'.chain.lastSeq := by
    rw [adds.last, adds.next]
    omega
  rw [longer] at stored
  rcases List.mem_append.mp stored with early | last
  · exact (fit.earlier r early target named).trans later
  · rw [List.mem_singleton.mp last, own] at named
    exact (free target named).1.trans later

theorem Fit.alloc {id : Int} (fit : Fit sha256 j) (given : allocBatch j = some (id, j')) :
    Fit sha256 j' ∧ j'.db = j.db ∧ j'.chain.lastSeq = j.chain.lastSeq := by
  obtain ⟨_, rfl⟩ := allocBatch_eq_some given
  obtain ⟨marker, mutations, sound⟩ := fit.sound
  exact ⟨⟨⟨marker, mutations, sound.chained, sound.lastSeq, sound.lastHash⟩, fit.earlier, fit.single⟩, rfl, rfl⟩

/-- Numbers that no row has yet are not taken back. -/
theorem Fit.unborn (fit : Fit sha256 j) {s : Int} (later : j.chain.lastSeq < s) : ¬j.db.colUndone s := by
  rw [Database.colUndone, decide_eq_true_eq, mem_liveTargets]
  rintro ⟨c, stored, target, _⟩
  have := fit.earlier c stored s target
  omega

/-! What an undo may still take back. -/

def seqs (entries : List JournalEntry) : List Int := entries.map fun e => e.seq

def Doing.targets : Doing → List Int
  | between | held _ => []
  | entry e => [e.seq]
  | syncBatch _ _ rest _ _ => seqs rest
  | modeBatch _ rest _ _ => seqs rest
  | renameBatch _ b => b.pending.filterMap id ++ b.applied

/-- Nothing that an undo may still take back is taken back: of the unit it is at, the
`targets`, and of those below it what was not undone when its turn came. -/
structure Fresh (j : Journal) (already targets : List Int) (units : List (List JournalEntry)) : Prop where
  distinct : (targets ++ seqs units.flatten).Nodup
  known : ∀ s ∈ targets ++ seqs units.flatten, s ≤ j.chain.lastSeq
  free : ∀ s ∈ targets, ¬j.db.colUndone s
  later : ∀ e ∈ units.flatten, e.seq ∉ already → ¬j.db.colUndone e.seq

section Fresh

variable {already targets : List Int} {units : List (List JournalEntry)}

/-- A journal in which no more is undone. -/
theorem Fresh.still (fresh : Fresh j already targets units) (less : ∀ s, j'.db.colUndone s → j.db.colUndone s)
    (longer : j.chain.lastSeq ≤ j'.chain.lastSeq) : Fresh j' already targets units where
  distinct := fresh.distinct
  known s member := (fresh.known s member).trans longer
  free s member undone := fresh.free s member (less s undone)
  later e member out undone := fresh.later e member out (less e.seq undone)

theorem Fresh.fewer (fresh : Fresh j already targets units) {rest : List Int} (some_ : rest.Sublist targets) :
    Fresh j already rest units where
  distinct := fresh.distinct.sublist (some_.append_right _)
  known s member := fresh.known s ((some_.append_right _).subset member)
  free s member := fresh.free s (some_.subset member)
  later := fresh.later

theorem Fresh.perm (fresh : Fresh j already targets units) {rest : List Int} (same : rest.Perm targets) :
    Fresh j already rest units where
  distinct := (same.append_right _).nodup_iff.mpr fresh.distinct
  known s member := fresh.known s ((same.append_right _).subset member)
  free s member := fresh.free s (same.subset member)
  later := fresh.later

/-- The next unit is passed over. -/
theorem Fresh.skip {unit : List JournalEntry} (fresh : Fresh j already [] (unit :: units)) :
    Fresh j already [] units where
  distinct := by
    have distinct := fresh.distinct
    rw [List.flatten_cons, seqs, List.map_append, List.nil_append] at distinct
    exact distinct.of_append_right
  known s member := by
    apply fresh.known s
    rw [List.flatten_cons, seqs, List.map_append]
    exact List.mem_append_right _ (List.mem_append_right _ member)
  free := by simp
  later e member := fresh.later e (List.mem_append_right _ member)

/-- The next unit, or what is left of it, is taken up. -/
theorem Fresh.takeUp {unit rest : List JournalEntry} (fresh : Fresh j already [] (unit :: units))
    (valid : (validity unit already).unit? = some rest) : Fresh j already (seqs rest) units := by
  have chosen : rest.Sublist unit ∧ ∀ e ∈ rest, e.seq ∉ already := by
    unfold validity at valid
    dsimp only at valid
    split_ifs at valid with none_
    · obtain rfl := Option.some.inj valid
      refine ⟨.refl _, fun e member out => ?_⟩
      rw [List.length_eq_zero_iff, List.filter_eq_nil_iff] at none_
      exact none_ e member (decide_eq_true out)
    · cases valid
    · obtain rfl := Option.some.inj valid
      exact ⟨List.filter_sublist, fun e member => by simpa using (List.mem_filter.mp member).2⟩
    · cases valid
  have sub : (seqs rest ++ seqs units.flatten).Sublist ([] ++ seqs (unit :: units).flatten) := by
    rw [List.nil_append, List.flatten_cons, seqs, seqs, seqs, List.map_append]
    exact (chosen.1.map _).append_right _
  refine ⟨fresh.distinct.sublist sub, fun s member => fresh.known s (sub.subset member), ?_, ?_⟩
  · intro s member
    obtain ⟨e, inside, rfl⟩ := List.mem_map.mp member
    exact fresh.later e (List.mem_append_left _ (chosen.1.subset inside)) (chosen.2 e inside)
  · exact fun e member => fresh.later e (List.mem_append_right _ member)

/-- One of the targets is taken back, and its compensation may become one. -/
theorem Fresh.takeBack {x seq : Int} (fresh : Fresh j already (x :: targets) units) (fit : Fit sha256 j)
    (adds : Adds j (some x) seq j') :
    Fresh j' already (seq :: targets) units ∧ Fresh j' already targets units := by
  have distinct := List.nodup_cons.mp fresh.distinct
  have old : ∀ s ∈ targets ++ seqs units.flatten, s ≤ j.chain.lastSeq :=
    fun s member => fresh.known s (List.mem_cons_of_mem _ member)
  have last : j'.chain.lastSeq = j.chain.lastSeq + 1 := adds.last.trans adds.next
  have untouched : ∀ s ∈ targets ++ seqs units.flatten, ¬j.db.colUndone s → ¬j'.db.colUndone s := by
    intro s member was undone
    rcases adds.undone undone with before | own
    · exact was before
    · rw [Option.some.inj own] at distinct
      exact distinct.1 member
  have rest : Fresh j' already targets units := by
    refine ⟨distinct.2, fun s member => ?_, ?_, ?_⟩
    · have := old s member
      omega
    · intro s member
      exact untouched s (List.mem_append_left _ member) (fresh.free s (List.mem_cons_of_mem _ member))
    · intro e member out
      exact untouched e.seq (List.mem_append_right _ (List.mem_map_of_mem member)) (fresh.later e member out)
  refine ⟨⟨List.nodup_cons.mpr ⟨fun member => ?_, rest.distinct⟩, ?_, ?_, rest.later⟩, rest⟩
  · have := old seq member
    have := adds.next
    omega
  · intro s member
    rcases List.mem_cons.mp member with rfl | early
    · exact adds.last.ge
    · exact rest.known s early
  · intro s member
    rcases List.mem_cons.mp member with rfl | early
    · intro undone
      rcases adds.undone undone with before | own
      · exact fit.unborn (by have := adds.next; omega) before
      · have known := fresh.known x List.mem_cons_self
        have := Option.some.inj own
        have := adds.next
        omega
    · exact rest.free s early

end Fresh

/-! The steps. -/

variable {t : Task}

theorem Reverts.leaves {actor : Actor} {batch : Option Int} {e : JournalEntry} {r : Except Error Reverted}
    {already rest : List Int} {units : List (List JournalEntry)} (fit : Fit sha256 j)
    (fresh : Fresh j already (e.seq :: rest) units) (reverts : Reverts sha256 actor batch e j r j') :
    Fit sha256 j' ∧ j.db.rows ⊆ j'.db.rows ∧ Fresh j' already rest units := by
  rcases reverts.cases with ⟨_, c, seq, tsMs, undoes, written⟩ | ⟨_, rfl⟩
  · obtain ⟨adds, _⟩ := fit.adds written
    rw [undoes] at adds
    have free : ∀ target ∈ c.undoesSeq, target ≤ j.chain.lastSeq ∧ ¬j.db.colUndone target := by
      intro target named
      rw [undoes] at named
      obtain rfl := Option.some.inj named
      exact ⟨fresh.known _ List.mem_cons_self, fresh.free _ List.mem_cons_self⟩
    exact ⟨fit.write written free, adds.grows, (fresh.takeBack fit adds).2⟩
  · exact ⟨fit, List.Subset.refl _, fresh.fewer (List.sublist_cons_self _ _)⟩

theorem Batch.Moves.leaves {b b' : Batch} {already : List Int} {units : List (List JournalEntry)}
    (fit : Fit sha256 j) (fresh : Fresh j already (b.pending.filterMap id ++ b.applied) units)
    (moves : Batch.Moves sha256 j b j' b') : Fit sha256 j' ∧ j.db.rows ⊆ j'.db.rows ∧
      Fresh j' already (b'.pending.filterMap id ++ b'.applied) units := by
  have taken {x seq tsMs : Int} {rest : List Int} {e : NewEntry} (fresh : Fresh j already (x :: rest) units)
      (undoes : e.undoesSeq = some x) (written : recordEntry sha256 e tsMs true j = some (.ok seq, j')) :
      Fit sha256 j' ∧ j.db.rows ⊆ j'.db.rows ∧ Fresh j' already (seq :: rest) units ∧
        Fresh j' already rest units := by
    obtain ⟨adds, _⟩ := fit.adds written
    rw [undoes] at adds
    refine ⟨fit.write written fun target named => ?_, adds.grows, fresh.takeBack fit adds⟩
    rw [undoes] at named
    obtain rfl := Option.some.inj named
    exact ⟨fresh.known _ List.mem_cons_self, fresh.free _ List.mem_cons_self⟩
  cases moves with
  | @ahead o pending _ _ seq _ _ _ due written =>
    rw [due] at fresh
    obtain ⟨fit', grows, fresh', _⟩ := taken fresh rfl written
    exact ⟨fit', grows, fresh'.perm List.perm_middle⟩
  | fail => exact ⟨fit, List.Subset.refl _, fresh⟩
  | @back s applied _ _ seq _ _ _ last written =>
    rw [last] at fresh
    obtain ⟨fit', grows, _, fresh'⟩ := taken (fresh.perm List.perm_middle.symm) rfl written
    exact ⟨fit', grows, fresh'⟩
  | @lost s applied _ last =>
    rw [last] at fresh
    exact ⟨fit, List.Subset.refl _, fresh.fewer ((List.sublist_cons_self _ _).append_left _)⟩

theorem seqs_newestFirst (unit : List JournalEntry) : (seqs (newestFirst unit)).Perm (seqs unit) :=
  (List.perm_insertionSort _ unit).map _

theorem shape_single {unit : List JournalEntry} {e : JournalEntry} (single : shape unit = .single e) :
    unit = [e] := by
  unfold shape at single
  split at single
  · cases single
  split at single
  · cases single
  split at single
  · cases single
    rfl
  · cases single

theorem Begins.leaves {actor : Actor} {unit : List JournalEntry} {first : JournalEntry} {doing : Doing}
    {already : List Int} {units : List (List JournalEntry)} (fit : Fit sha256 j)
    (fresh : Fresh j already (seqs unit) units) (begins : Begins actor unit first j doing j') :
    Fit sha256 j' ∧ j.db.rows ⊆ j'.db.rows ∧ Fresh j' already doing.targets units := by
  have given {id : Int} (given : allocBatch j = some (id, j')) :
      Fit sha256 j' ∧ j.db.rows ⊆ j'.db.rows ∧ Fresh j' already (seqs unit) units := by
    obtain ⟨fit', same, last⟩ := fit.alloc given
    exact ⟨fit', by rw [same]; exact List.Subset.refl _, fresh.still (by simp [same]) last.ge⟩
  cases begins with
  | sync _ _ alloc =>
    obtain ⟨fit', grows, fresh'⟩ := given alloc
    exact ⟨fit', grows, fresh'.perm (seqs_newestFirst unit)⟩
  | mode _ _ alloc =>
    obtain ⟨fit', grows, fresh'⟩ := given alloc
    exact ⟨fit', grows, fresh'.perm (seqs_newestFirst unit)⟩
  | modeLoose _ _ => exact ⟨fit, List.Subset.refl _, fresh.perm (seqs_newestFirst unit)⟩
  | single shaped =>
    rw [shape_single shaped] at fresh
    exact ⟨fit, List.Subset.refl _, fresh⟩
  | rename _ _ _ alloc =>
    obtain ⟨fit', grows, fresh'⟩ := given alloc
    refine ⟨fit', grows, fresh'.perm ?_⟩
    have each : (unit.map fun e => some e.seq).filterMap id = seqs unit := by
      simp [seqs, List.filterMap_map]
    simp only [Doing.targets, each, List.append_nil, List.Perm.refl]

theorem Task.settle_between {counted : List JournalEntry} {r : Reverted}
    (on : (t.settle counted r).2 = none) : (t.settle counted r).1.doing = .between := by
  cases r with
  | blocked seq err => cases on
  | stuck seq err => cases on
  | _ => rfl

theorem Task.settle_fields (t : Task) (counted : List JournalEntry) (r : Reverted) :
    (t.settle counted r).1.alreadyUndone = t.alreadyUndone ∧ (t.settle counted r).1.units = t.units ∧
      (t.settle counted r).1.plan = t.plan := by
  cases r <;> exact ⟨rfl, rfl, rfl⟩

theorem Task.markIf_fields (t : Task) (r : Reverted) : (t.markIf r).alreadyUndone = t.alreadyUndone ∧
    (t.markIf r).units = t.units ∧ (t.markIf r).doing = t.doing ∧ (t.markIf r).plan = t.plan := by
  unfold Task.markIf
  split <;> exact ⟨rfl, rfl, rfl, rfl⟩

/-- What a step leaves of the journal, and of an undo that goes on. -/
structure Leaves (sha256 : Bytes → Hash) (j j' : Journal) (result : Task × Option (Except Error Unit)) :
    Prop where
  fit : Fit sha256 j'
  grows : j.db.rows ⊆ j'.db.rows
  fresh : result.2 = none → Fresh j' result.1.alreadyUndone result.1.doing.targets result.1.units

theorem Leaves.settle (fit : Fit sha256 j') (grows : j.db.rows ⊆ j'.db.rows) (targets : List Int)
    (fresh : Fresh j' t.alreadyUndone targets t.units) (counted : List JournalEntry) (r : Reverted) :
    Leaves sha256 j j' (t.settle counted r) := by
  refine ⟨fit, grows, fun on => ?_⟩
  obtain ⟨already, units, _⟩ := t.settle_fields counted r
  rw [already, units, Task.settle_between on]
  exact fresh.fewer (List.nil_sublist _)

/-- A step of the undo that has the turn keeps the journal fit, and what it may still take
back in force. -/
theorem Task.Step.leaves {result : Task × Option (Except Error Unit)} (fit : Fit sha256 j)
    (fresh : Fresh j t.alreadyUndone t.doing.targets t.units) (step : Task.Step sha256 j t j' result) :
    Leaves sha256 j j' result := by
  have same {result : Task × Option (Except Error Unit)}
      (fresh : result.2 = none → Fresh j result.1.alreadyUndone result.1.doing.targets result.1.units) :
      Leaves sha256 j j result := ⟨fit, List.Subset.refl _, fresh⟩
  have over_ {result : Task} {ending : Except Error Unit} : Leaves sha256 j j (result, some ending) :=
    same fun on => by cases on
  cases step with
  | complete | cancel | stop | refuse | syncCancel | modeCancel | renameCancel => exact over_
  | skip idle due _ =>
    rw [idle, due] at fresh
    exact same fun _ => fresh.skip
  | deny err idle due _ =>
    rw [idle, due] at fresh
    exact same fun _ => fresh.skip
  | begin idle due valid _ begins =>
    rw [idle, due] at fresh
    obtain ⟨fit', grows, fresh'⟩ := begins.leaves fit (fresh.takeUp valid)
    exact ⟨fit', grows, fun _ => fresh'⟩
  | entry own reverts =>
    rw [own] at fresh
    obtain ⟨fit', grows, fresh'⟩ := reverts.leaves fit fresh
    exact .settle fit' grows _ fresh' _ _
  | entryLost own reverts =>
    rw [own] at fresh
    obtain ⟨fit', grows, _⟩ := reverts.leaves fit fresh
    exact ⟨fit', grows, fun on => by cases on⟩
  | syncAmbiguous own _ =>
    rw [own] at fresh
    exact same fun _ => fresh.fewer (List.sublist_cons_self _ _)
  | syncEntry own _ reverts =>
    rw [own] at fresh
    obtain ⟨fit', grows, fresh'⟩ := reverts.leaves fit fresh
    refine ⟨fit', grows, fun _ => ?_⟩
    obtain ⟨already, units, doing, _⟩ := Task.markIf_fields _ _
    rw [already, units, doing]
    exact fresh'
  | syncLost own _ reverts =>
    rw [own] at fresh
    obtain ⟨fit', grows, _⟩ := reverts.leaves fit fresh
    exact ⟨fit', grows, fun on => by cases on⟩
  | syncEnd own => exact .settle fit (List.Subset.refl _) _ fresh _ _
  | modeDone own reverts =>
    rw [own] at fresh
    obtain ⟨fit', grows, fresh'⟩ := reverts.leaves fit fresh
    exact ⟨fit', grows, fun _ => fresh'⟩
  | modeOther own _ reverts =>
    rw [own] at fresh
    obtain ⟨fit', grows, fresh'⟩ := reverts.leaves fit fresh
    refine ⟨fit', grows, fun _ => ?_⟩
    obtain ⟨already, units, doing, _⟩ := Task.markIf_fields _ _
    rw [already, units, doing]
    exact fresh'
  | modeLost own reverts =>
    rw [own] at fresh
    obtain ⟨fit', grows, _⟩ := reverts.leaves fit fresh
    exact ⟨fit', grows, fun on => by cases on⟩
  | modeEnd own =>
    apply Leaves.settle fit (List.Subset.refl _) t.doing.targets
    exact fresh
  | renameMove own moves =>
    rw [own] at fresh
    obtain ⟨fit', grows, fresh'⟩ := moves.leaves fit fresh
    exact ⟨fit', grows, fun _ => fresh'⟩
  | renameEnd own _ _ =>
    apply Leaves.settle fit (List.Subset.refl _) t.doing.targets
    exact fresh

end Norte.Turns
