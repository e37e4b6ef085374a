import Norte.Journal

/-! What undo and the timeline read: which entries still count as done, a page of them
with that flag, and the units an undo takes back as one. -/
namespace Norte.Chain

/-- A row as the readers hand it out. -/
structure JournalEntry extends Record where
  entryHash : Bytes
  deriving DecidableEq

def Row.entry (r : Row) : JournalEntry := ⟨r.toRecord, r.entryHash.bytes⟩

section Queries

variable (db : Database)

/-- `SELECT undoes_seq FROM journal WHERE undoes_seq IS NOT NULL`. -/
def Database.undoneSeqs : List Int := db.rows.filterMap fun d => d.undoesSeq

/-- The targets of compensations that nobody has compensated. -/
def Database.liveTargets : List Int :=
  (db.rows.filter fun c => c.seq ∉ db.undoneSeqs).filterMap fun c => c.undoesSeq

/-- `COL_UNDONE`. -/
def Database.colUndone (seq : Int) : Bool := seq ∈ db.liveTargets

/-- `SELECT_REVERTIBLE`: newest first. -/
def Database.revertibleFor (actor : Actor) : List JournalEntry :=
  ((db.rows.filter fun r => 1 ≤ r.seq && r.undoesSeq.isNone && r.actorKind = actor.parts.1 &&
    r.actorId = actor.parts.2 && !db.colUndone r.seq).reverse).map Row.entry

structure PageEntry where
  entry : JournalEntry
  undone : Bool
  deriving DecidableEq

def Database.page (beforeSeq : Option Int) (limit : Nat) (actorKind : Option Str) : List PageEntry :=
  (((db.rows.filter fun r => 1 ≤ r.seq && beforeSeq.all (r.seq < ·) &&
    actorKind.all (r.actorKind = ·)).reverse).take limit).map
      fun r => ⟨r.entry, db.colUndone r.seq⟩

/-- The sequence numbers are asked for in chunks. -/
def Database.undoneAmongChunks : Nat → List Int → List Int
  | 0, _ => []
  | fuel + 1, seqs =>
    if seqs = [] then []
    else
      ((db.rows.filter fun r => r.seq ∈ seqs.take 500 && db.colUndone r.seq).map fun r => r.seq) ++
        undoneAmongChunks fuel (seqs.drop 500)

/-- Every chunk takes at least one number, so there are no more of them than numbers. -/
def Database.undoneAmong (seqs : List Int) : List Int := db.undoneAmongChunks seqs.length seqs

end Queries

/-! Units: a batch is taken back as one. -/

structure Grouping where
  units : List (List JournalEntry)
  position : Int → Option Nat

def Grouping.add (g : Grouping) (e : JournalEntry) : Grouping :=
  match e.batchId with
  | some b =>
    match g.position b with
    | some i => { g with units := g.units.modify i (· ++ [e]) }
    | none => ⟨g.units ++ [[e]], fun x => if x = b then some g.units.length else g.position x⟩
  | none => { g with units := g.units ++ [[e]] }

def undoUnits (entries : List JournalEntry) : List (List JournalEntry) :=
  (entries.foldl Grouping.add ⟨[], fun _ => none⟩).units

theorem mem_liveTargets {db : Database} {seq : Int} :
    seq ∈ db.liveTargets ↔ ∃ c ∈ db.rows, c.undoesSeq = some seq ∧ ∀ d ∈ db.rows, d.undoesSeq ≠ some c.seq := by
  simp only [Database.liveTargets, Database.undoneSeqs, List.mem_filterMap, List.mem_filter,
    decide_eq_true_eq, not_exists, not_and]
  constructor
  · rintro ⟨c, ⟨member, live⟩, target⟩
    exact ⟨c, member, target, live⟩
  · rintro ⟨c, member, target, live⟩
    exact ⟨c, ⟨member, live⟩, target⟩

theorem mem_revertibleFor {db : Database} {actor : Actor} {e : JournalEntry} :
    e ∈ db.revertibleFor actor ↔ ∃ r ∈ db.rows, r.entry = e ∧ 1 ≤ r.seq ∧ r.undoesSeq = none ∧
      r.actorKind = actor.parts.1 ∧ r.actorId = actor.parts.2 ∧ db.colUndone r.seq = false := by
  simp only [Database.revertibleFor, List.mem_map, List.mem_reverse, List.mem_filter, Bool.and_eq_true,
    decide_eq_true_eq, Option.isNone_iff_eq_none, Bool.not_eq_true']
  constructor
  · rintro ⟨r, ⟨member, ⟨⟨⟨low, act⟩, kind⟩, id⟩, live⟩, same⟩
    exact ⟨r, member, same, low, act, kind, id, live⟩
  · rintro ⟨r, member, same, low, act, kind, id, live⟩
    exact ⟨r, ⟨member, ⟨⟨⟨low, act⟩, kind⟩, id⟩, live⟩, same⟩

theorem mem_undoneAmongChunks {db : Database} {fuel : Nat} {seqs : List Int} (enough : seqs.length ≤ fuel)
    {seq : Int} : seq ∈ db.undoneAmongChunks fuel seqs ↔
      seq ∈ seqs ∧ (∃ r ∈ db.rows, r.seq = seq) ∧ db.colUndone seq := by
  induction fuel generalizing seqs with
  | zero =>
    obtain rfl := List.length_eq_zero_iff.mp (Nat.le_zero.mp enough)
    simp [Database.undoneAmongChunks]
  | succ fuel ih =>
    rw [Database.undoneAmongChunks]
    split
    next empty => simp [empty]
    next some_ =>
      have shorter : (seqs.drop 500).length ≤ fuel := by
        have := List.length_pos_iff.mpr some_
        rw [List.length_drop]
        omega
      have both : seq ∈ seqs ↔ seq ∈ seqs.take 500 ∨ seq ∈ seqs.drop 500 := by
        rw [← List.mem_append, List.take_append_drop]
      simp only [List.mem_append, ih shorter, List.mem_map, List.mem_filter, Bool.and_eq_true,
        decide_eq_true_eq, both]
      constructor
      · rintro (⟨r, ⟨member, asked, undone⟩, rfl⟩ | ⟨asked, there, undone⟩)
        · exact ⟨.inl asked, ⟨r, member, rfl⟩, undone⟩
        · exact ⟨.inr asked, there, undone⟩
      · rintro ⟨asked | asked, ⟨r, member, rfl⟩, undone⟩
        · exact .inl ⟨r, ⟨member, asked, undone⟩, rfl⟩
        · exact .inr ⟨asked, ⟨r, member, rfl⟩, undone⟩

theorem mem_undoneAmong {db : Database} {seqs : List Int} {seq : Int} : seq ∈ db.undoneAmong seqs ↔
    seq ∈ seqs ∧ (∃ r ∈ db.rows, r.seq = seq) ∧ db.colUndone seq :=
  mem_undoneAmongChunks (Nat.le_refl _)

theorem mem_page {db : Database} {beforeSeq : Option Int} {limit : Nat} {actorKind : Option Str}
    {p : PageEntry} (member : p ∈ db.page beforeSeq limit actorKind) :
    ∃ r ∈ db.rows, p = ⟨r.entry, db.colUndone r.seq⟩ := by
  obtain ⟨r, inside, same⟩ := List.mem_map.mp member
  have inside := (List.mem_filter.mp (List.mem_reverse.mp (List.mem_of_mem_take inside))).1
  exact ⟨r, inside, same.symm⟩

/-- What the grouping knows of the entries `seen`: the position of a batch holds its
entries in order, and every other position one entry without a batch. -/
structure Grouped (seen : List JournalEntry) (g : Grouping) : Prop where
  batch : ∀ b i, g.position b = some i → g.units[i]? = some (seen.filter fun e => e.batchId = some b)
  absent : ∀ b, g.position b = none ↔ ∀ e ∈ seen, e.batchId ≠ some b
  apart : ∀ b b' i, g.position b = some i → g.position b' = some i → b = b'
  lone : ∀ e ∈ seen, e.batchId = none → [e] ∈ g.units
  origin : ∀ i u, g.units[i]? = some u →
    (∃ b, g.position b = some i) ∨ ∃ e ∈ seen, e.batchId = none ∧ u = [e]

theorem Grouped.inside {seen : List JournalEntry} {g : Grouping} (grouped : Grouped seen g) {b : Int}
    {i : Nat} (held : g.position b = some i) : i < g.units.length :=
  (List.getElem?_eq_some_iff.mp (grouped.batch b i held)).1

theorem Grouped.addLone {seen : List JournalEntry} {g : Grouping} (grouped : Grouped seen g)
    {e : JournalEntry} (loneE : e.batchId = none) :
    Grouped (seen ++ [e]) { g with units := g.units ++ [[e]] } where
  batch b i held := by
    rw [List.getElem?_append_left (grouped.inside held), grouped.batch b i held]
    simp [loneE]
  absent b := by
    rw [grouped.absent b]
    simp [loneE, or_imp, forall_and]
  apart := grouped.apart
  lone x member loneX := by
    rcases List.mem_append.mp member with early | last
    · exact List.mem_append_left _ (grouped.lone x early loneX)
    · rw [List.mem_singleton.mp last]
      exact List.mem_append_right _ (List.mem_singleton_self _)
  origin i u here := by
    rw [List.getElem?_append] at here
    split at here
    · rcases grouped.origin i u here with ⟨b, held⟩ | ⟨x, member, loneX, same⟩
      · exact .inl ⟨b, held⟩
      · exact .inr ⟨x, List.mem_append_left _ member, loneX, same⟩
    · have same := List.mem_singleton.mp (List.mem_of_getElem? here)
      exact .inr ⟨e, by simp, loneE, same⟩

/-- The first entry of a batch opens a unit. -/
theorem Grouped.addNew {seen : List JournalEntry} {g : Grouping} (grouped : Grouped seen g)
    {e : JournalEntry} {b : Int} (carried : e.batchId = some b) (new : g.position b = none) :
    Grouped (seen ++ [e])
      ⟨g.units ++ [[e]], fun x => if x = b then some g.units.length else g.position x⟩ where
  batch x i held := by
    simp only at held ⊢
    split at held
    · obtain rfl := ‹x = b›
      obtain rfl := Option.some.inj held
      have none_ : seen.filter (fun e => e.batchId = some x) = [] := by
        simpa using (grouped.absent x).mp new
      simp [carried, none_]
    · have other : b ≠ x := fun same => ‹¬x = b› same.symm
      rw [List.getElem?_append_left (grouped.inside held), grouped.batch x i held]
      simp [carried, other]
  absent x := by
    by_cases same : x = b
    · simp [same, carried]
    · have other : b ≠ x := fun back => same back.symm
      simp only [same, ↓reduceIte, grouped.absent x]
      simp [carried, other, or_imp, forall_and]
  apart x x' i held held' := by
    simp only at held held'
    split at held <;> split at held'
    · rw [‹x = b›, ‹x' = b›]
    · have := grouped.inside held'
      have := Option.some.inj held
      omega
    · have := grouped.inside held
      have := Option.some.inj held'
      omega
    · exact grouped.apart x x' i held held'
  lone x member loneX := by
    rcases List.mem_append.mp member with early | last
    · exact List.mem_append_left _ (grouped.lone x early loneX)
    · rw [List.mem_singleton.mp last, carried] at loneX
      cases loneX
  origin i u here := by
    rw [List.getElem?_append] at here
    split at here
    · rcases grouped.origin i u here with ⟨x, held⟩ | ⟨x, member, loneX, same⟩
      · refine .inl ⟨x, ?_⟩
        have other : x ≠ b := by
          rintro rfl
          rw [new] at held
          cases held
        simp only [other, ↓reduceIte, held]
      · exact .inr ⟨x, List.mem_append_left _ member, loneX, same⟩
    · have last : i = g.units.length := by
        have := (List.getElem?_eq_some_iff.mp here).1
        simp only [List.length_singleton] at this
        omega
      exact .inl ⟨b, by simp [last]⟩

/-- A later entry of a batch joins its unit. -/
theorem Grouped.addKnown {seen : List JournalEntry} {g : Grouping} (grouped : Grouped seen g)
    {e : JournalEntry} {b : Int} {i : Nat} (carried : e.batchId = some b)
    (known : g.position b = some i) :
    Grouped (seen ++ [e]) { g with units := g.units.modify i (· ++ [e]) } where
  batch x k held := by
    simp only [List.getElem?_modify, grouped.batch x k held, Option.map_eq_map, Option.map_some]
    split
    · obtain rfl : x = b := grouped.apart x b k held (‹i = k› ▸ known)
      simp [carried]
    · have other : b ≠ x := by
        rintro rfl
        exact ‹¬i = k› (Option.some.inj (known.symm.trans held))
      simp [carried, other]
  absent x := by
    by_cases same : x = b
    · simp [same, carried, known]
    · have other : b ≠ x := fun back => same back.symm
      simp only [grouped.absent x]
      simp [carried, other, or_imp, forall_and]
  apart := grouped.apart
  lone x member loneX := by
    rcases List.mem_append.mp member with early | last
    · obtain ⟨k, bound, same⟩ := List.mem_iff_getElem.mp (grouped.lone x early loneX)
      refine List.mem_iff_getElem?.mpr ⟨k, ?_⟩
      have other : i ≠ k := by
        rintro rfl
        have batch := grouped.batch b i known
        rw [List.getElem?_eq_getElem bound, same] at batch
        have inside : x ∈ seen.filter fun e => e.batchId = some b := by
          rw [← Option.some.inj batch]
          exact List.mem_singleton_self x
        have := (List.mem_filter.mp inside).2
        simp [loneX] at this
      simp [other, List.getElem?_eq_getElem bound, same]
    · rw [List.mem_singleton.mp last, carried] at loneX
      cases loneX
  origin k u here := by
    simp only [List.getElem?_modify] at here
    by_cases same : i = k
    · exact .inl ⟨b, same ▸ known⟩
    · simp only [same, ↓reduceIte, id_map'] at here
      rcases grouped.origin k u (by simpa using here) with ⟨x, held⟩ | ⟨x, member, loneX, whole⟩
      · exact .inl ⟨x, held⟩
      · exact .inr ⟨x, List.mem_append_left _ member, loneX, whole⟩

theorem Grouped.add {seen : List JournalEntry} {g : Grouping} (grouped : Grouped seen g)
    (e : JournalEntry) : Grouped (seen ++ [e]) (g.add e) := by
  unfold Grouping.add
  split
  next b carried =>
    split
    next i known => exact grouped.addKnown carried known
    next new => exact grouped.addNew carried new
  next loneE => exact grouped.addLone loneE

theorem Grouped.foldl {seen : List JournalEntry} {g : Grouping} (grouped : Grouped seen g)
    (entries : List JournalEntry) : Grouped (seen ++ entries) (entries.foldl Grouping.add g) := by
  induction entries generalizing seen g with
  | nil => simpa using grouped
  | cons e rest ih => simpa using ih (grouped.add e)

theorem grouped_undoUnits (entries : List JournalEntry) :
    Grouped entries (entries.foldl Grouping.add ⟨[], fun _ => none⟩) := by
  have nothing : Grouped [] ⟨[], fun _ => none⟩ := by
    constructor
    all_goals simp
  exact nothing.foldl entries

/-- A unit is an entry without a batch, or all the entries of one batch. -/
theorem mem_undoUnits {entries : List JournalEntry} {u : List JournalEntry} :
    u ∈ undoUnits entries ↔ (∃ e ∈ entries, e.batchId = none ∧ u = [e]) ∨
      ∃ b, (∃ e ∈ entries, e.batchId = some b) ∧ u = entries.filter fun e => e.batchId = some b := by
  have grouped := grouped_undoUnits entries
  constructor
  · intro member
    obtain ⟨i, here⟩ := List.mem_iff_getElem?.mp member
    rcases grouped.origin i u here with ⟨b, held⟩ | lone
    · refine .inr ⟨b, ?_, ?_⟩
      · have present : ¬∀ e ∈ entries, e.batchId ≠ some b := by
          rw [← grouped.absent b, held]
          simp
        simpa using present
      · exact Option.some.inj (here.symm.trans (grouped.batch b i held))
    · exact .inl lone
  · rintro (⟨e, member, loneE, rfl⟩ | ⟨b, ⟨e, member, carried⟩, rfl⟩)
    · exact grouped.lone e member loneE
    · obtain ⟨i, held⟩ : ∃ i, (entries.foldl Grouping.add ⟨[], fun _ => none⟩).position b = some i := by
        apply Option.ne_none_iff_exists'.mp
        rw [Ne, grouped.absent b]
        exact fun all => all e member carried
      exact List.mem_of_getElem? (grouped.batch b i held)

end Norte.Chain
