import Norte.Journal
import Norte.Links

/-! The chain over whole runs: every row is linked to the one before it, back to the
marker or to the base of the last compaction, whatever was recorded, refused, reopened
or dropped in between. -/
namespace Norte.Chain

open Hashing Utf8 Links

variable {sha256 : Bytes → Hash}

abbrev LinkedRows := Linked (fun r : Row => r.seq) Row.prevHash Row.entryHash

def Database.mutations (db : Database) : List Row := db.rows.filter fun r => 1 ≤ r.seq

/-- Where the mutations of a table begin, and the digest the first of them follows: that
of the base, or else of the metadata in front. -/
def firstSeq (base : Option CompactionBase) : Int := (base.map fun b => b.throughSeq + 1).getD 1

def originHash (base : Option CompactionBase) (metadata : Hash) : Hash :=
  (base.map CompactionBase.throughHash).getD metadata

@[simp] theorem firstSeq_none : firstSeq none = 1 := rfl
@[simp] theorem firstSeq_some (b : CompactionBase) : firstSeq (some b) = b.throughSeq + 1 := rfl
@[simp] theorem originHash_none (metadata : Hash) : originHash none metadata = metadata := rfl
@[simp] theorem originHash_some (b : CompactionBase) (metadata : Hash) :
    originHash (some b) metadata = b.throughHash := rfl

abbrev Database.first (db : Database) : Int := firstSeq db.base

abbrev Database.origin (db : Database) (marker : List Row) : Hash :=
  originHash db.base (tip Row.entryHash .zero marker)

def Marker (sha256 : Bytes → Hash) (rows : List Row) : Prop :=
  rows = [] ∨ ∃ tsMs, rows = [(formatRecord tsMs (encode (Nat.toDigits 10 journalFormat))).row sha256 .zero]

/-- A table whose mutations are chained behind its marker or its base. -/
structure Chained (sha256 : Bytes → Hash) (db : Database) (marker mutations : List Row) : Prop where
  rows : db.rows = marker ++ mutations
  marked : Marker sha256 marker
  first : 1 ≤ db.first
  followed : db.base.isSome → mutations ≠ []
  linked : LinkedRows db.first (db.origin marker) mutations
  hashed : ∀ r ∈ mutations, r.entryHash = chainHash sha256 r.prevHash r.toRecord

/-- The journal on disk and the state in memory tell one story. -/
structure Sound (sha256 : Bytes → Hash) (j : Journal) (marker mutations : List Row) : Prop where
  chained : Chained sha256 j.db marker mutations
  lastSeq : j.chain.lastSeq + 1 = j.db.first + mutations.length
  lastHash : j.chain.lastHash = tip Row.entryHash (j.db.origin marker) mutations

theorem Marker.seq {rows : List Row} (marker : Marker sha256 rows) : ∀ r ∈ rows, r.seq = 0 := by
  rcases marker with rfl | ⟨tsMs, rfl⟩
  · simp
  · intro r member
    rw [List.mem_singleton.mp member]
    rfl

theorem Marker.batch {rows : List Row} (marker : Marker sha256 rows) : ∀ r ∈ rows, r.batchId = none := by
  rcases marker with rfl | ⟨tsMs, rfl⟩
  · simp
  · intro r member
    rw [List.mem_singleton.mp member]
    rfl

theorem Chained.positive {db : Database} {marker mutations : List Row}
    (chained : Chained sha256 db marker mutations) {r : Row} (member : r ∈ mutations) : 1 ≤ r.seq :=
  Int.le_trans chained.first (chained.linked.mem member).1

theorem Chained.mutations {db : Database} {marker mutations : List Row}
    (chained : Chained sha256 db marker mutations) : db.mutations = mutations := by
  have metadata : marker.filter (fun r => 1 ≤ r.seq) = [] := by
    rw [List.filter_eq_nil_iff]
    intro r member
    simp [chained.marked.seq r member]
  have history : mutations.filter (fun r => 1 ≤ r.seq) = mutations := by
    rw [List.filter_eq_self]
    intro r member
    simpa using chained.positive member
  rw [Database.mutations, chained.rows, List.filter_append, metadata, history, List.nil_append]

/-! What the operations do to a sound journal. -/

theorem orderedInsert_last {rows : List Row} {row : Row} (last : ∀ r ∈ rows, r.seq < row.seq) :
    rows.orderedInsert (fun a b => a.seq ≤ b.seq) row = rows ++ [row] := by
  induction rows with
  | nil => rfl
  | cons r rows ih =>
    have before := last r List.mem_cons_self
    rw [List.orderedInsert, if_neg (by omega), ih fun s member => last s (List.mem_cons_of_mem _ member)]
    rfl

/-- Past the last key the insert appends. -/
theorem Database.insert_last {db : Database} {row : Row} (last : ∀ r ∈ db.rows, r.seq < row.seq) :
    db.insert row = some { db with rows := db.rows ++ [row] } := by
  have fresh : ¬db.rows.any (fun r => r.seq = row.seq) := by
    simp only [List.any_eq_true, decide_eq_true_eq, not_exists, not_and]
    intro r member same
    have := last r member
    omega
  rw [insert, if_neg fresh, orderedInsert_last last]

theorem Sound.below {j : Journal} {marker mutations : List Row} (sound : Sound sha256 j marker mutations)
    {r : Row} (member : r ∈ j.db.rows) : r.seq < j.chain.lastSeq + 1 := by
  rw [sound.lastSeq]
  have := sound.chained.first
  rw [sound.chained.rows] at member
  rcases List.mem_append.mp member with metadata | history
  · have := sound.chained.marked.seq r metadata
    omega
  · exact (sound.chained.linked.mem history).2

/-- The row that is written next. -/
def nextRow (sha256 : Bytes → Hash) (e : NewEntry) (tsMs : Int) (j : Journal) : Row :=
  (e.record tsMs (j.chain.lastSeq + 1)).row sha256 j.chain.lastHash

/-- A record call does nothing to the journal, or appends the next row. -/
theorem recordEntry_cases {j : Journal} {marker mutations : List Row}
    (sound : Sound sha256 j marker mutations) (e : NewEntry) (tsMs : Int) (taken : Bool) :
    recordEntry sha256 e tsMs taken j = none ∨
    recordEntry sha256 e tsMs taken j = some (.error .sqlx, j) ∨
    recordEntry sha256 e tsMs taken j = some (.ok (j.chain.lastSeq + 1),
      ⟨{ j.db with rows := j.db.rows ++ [nextRow sha256 e tsMs j] },
        { j.chain with
          lastSeq := j.chain.lastSeq + 1
          lastHash := (nextRow sha256 e tsMs j).entryHash }⟩) := by
  by_cases full : j.chain.lastSeq = maxI64
  · exact .inl (if_pos full)
  refine .inr ?_
  cases taken with
  | false => exact .inl (by simp [recordEntry, full])
  | true =>
    have inserted : j.db.insert (nextRow sha256 e tsMs j) = _ :=
      Database.insert_last fun r member => sound.below member
    refine .inr ?_
    rw [recordEntry, if_neg full]
    simp only [if_true]
    rw [show (e.record tsMs (j.chain.lastSeq + 1)).row sha256 j.chain.lastHash = nextRow sha256 e tsMs j from rfl,
      inserted]

theorem Sound.record {j : Journal} {marker mutations : List Row}
    (sound : Sound sha256 j marker mutations) (e : NewEntry) (tsMs : Int) :
    Sound sha256 ⟨{ j.db with rows := j.db.rows ++ [nextRow sha256 e tsMs j] },
        { j.chain with
          lastSeq := j.chain.lastSeq + 1
          lastHash := (nextRow sha256 e tsMs j).entryHash }⟩ marker
      (mutations ++ [nextRow sha256 e tsMs j]) where
  chained := {
    rows := by rw [sound.chained.rows, List.append_assoc]
    marked := sound.chained.marked
    first := sound.chained.first
    followed := fun _ => by simp
    linked := by
      apply linked_append.mpr
      refine ⟨sound.chained.linked, sound.lastSeq, sound.lastHash, trivial⟩
    hashed := by
      intro r member
      rcases List.mem_append.mp member with early | last
      · exact sound.chained.hashed r early
      · rw [List.mem_singleton.mp last]
        rfl }
  lastSeq := by
    have := sound.lastSeq
    simp only [Database.first, List.length_append, List.length_singleton] at this ⊢
    omega
  lastHash := by
    rw [tip_append]
    rfl

/-- The last row is the last mutation, or the marker of a journal that has none. -/
theorem Chained.last {db : Database} {marker mutations : List Row}
    (chained : Chained sha256 db marker mutations) (written : db.rows ≠ []) :
    (db.rows.getLast?.map fun r => (r.seq, r.entryHash)) =
      some (db.first + mutations.length - 1, tip Row.entryHash (db.origin marker) mutations) := by
  have linked := chained.linked
  rcases List.eq_nil_or_concat' mutations with rfl | ⟨early, r, rfl⟩
  · have base : db.base = none := Option.not_isSome_iff_eq_none.mp fun held => chained.followed held rfl
    rcases chained.marked with rfl | ⟨tsMs, rfl⟩
    · exact absurd chained.rows written
    · rw [chained.rows]
      simp only [Database.first, Database.origin, base]
      rfl
  · obtain ⟨_, own, _⟩ := linked_append.mp linked
    rw [chained.rows, ← List.append_assoc, List.getLast?_append, tip_append]
    simp only [List.getLast?_singleton, Option.some_or, Option.map_some, own, List.length_append,
      List.length_singleton, tip]
    congr 2
    omega

/-- A table without rows gets its marker; any other stays as it is. -/
theorem Chained.stamp {db : Database} {marker mutations : List Row}
    (chained : Chained sha256 db marker mutations) (tsMs : Int) :
    (∃ marker', Chained sha256 (stampFormatIfNew sha256 tsMs db) marker' mutations) ∧
      (stampFormatIfNew sha256 tsMs db).rows ≠ [] ∧
      (stampFormatIfNew sha256 tsMs db).maxBatch = db.maxBatch := by
  by_cases empty : db.rows = []
  · obtain ⟨rfl, rfl⟩ := List.append_eq_nil_iff.mp (chained.rows.symm.trans empty)
    have base : db.base = none := Option.not_isSome_iff_eq_none.mp fun held => chained.followed held rfl
    rw [stampFormatIfNew, if_pos empty]
    refine ⟨⟨_, (List.append_nil _).symm, .inr ⟨tsMs, rfl⟩, chained.first, ?_, trivial, by simp⟩, by simp, ?_⟩
    · simp [base]
    · simp only [Database.maxBatch, empty]
      rfl
  · rw [stampFormatIfNew, if_neg empty]
    exact ⟨⟨marker, chained⟩, empty, rfl⟩

/-- What opening reads off a table is the state of a sound journal. -/
theorem Chained.open {db : Database} {marker mutations : List Row}
    (chained : Chained sha256 db marker mutations) (tsMs : Int) :
    ∃ marker', Sound sha256 (fromOptions sha256 tsMs db) marker' mutations := by
  obtain ⟨⟨marker', stamped⟩, written, _⟩ := chained.stamp tsMs
  refine ⟨marker', stamped, ?_, ?_⟩
  · simp only [fromOptions, stamped.last written, Option.getD_some]
    omega
  · simp only [fromOptions, stamped.last written, Option.getD_some]

theorem entryHashAt_eq_some {db : Database} {seq : Int} {hash : Hash}
    (found : db.entryHashAt seq = some hash) : ∃ r ∈ db.mutations, r.seq = seq ∧ r.entryHash = hash := by
  obtain ⟨r, found, same⟩ := Option.map_eq_some_iff.mp found
  have matched := List.find?_some found
  simp only [Bool.and_eq_true, decide_eq_true_eq] at matched
  exact ⟨r, List.mem_filter.mpr ⟨List.mem_of_find?_eq_some found, by simpa using matched.2⟩, matched.1, same⟩

/-- A compaction is refused, or it moves the origin of the chain to the row it names. -/
theorem compact_cases {db : Database} {marker mutations : List Row}
    (chained : Chained sha256 db marker mutations) (plan : CompactionBase) :
    (compact plan db).2 = db ∨
    ∃ r ∈ mutations, r.seq = plan.throughSeq ∧ r.entryHash = plan.throughHash ∧
      (∃ s ∈ mutations, r.seq < s.seq) ∧
      (compact plan db).2 = ⟨marker ++ mutations.filter fun s => r.seq < s.seq, some plan⟩ := by
  rw [compact]
  by_cases named : db.entryHashAt plan.throughSeq ≠ some plan.throughHash
  · exact .inl (by rw [if_pos named])
  rw [if_neg named]
  by_cases head : db.rows.getLast?.all fun r => r.seq ≤ plan.throughSeq
  · exact .inl (by rw [if_pos head])
  rw [if_neg head]
  obtain ⟨r, member, own, hash⟩ := entryHashAt_eq_some (not_not.mp named)
  rw [chained.mutations] at member
  refine .inr ⟨r, member, own, hash, ?_, ?_⟩
  · have positive := chained.positive member
    cases last : db.rows.getLast? with
    | none => simp [last] at head
    | some s =>
      rw [last, Option.all_some, decide_eq_true_eq] at head
      have inside := List.mem_of_getLast? last
      rw [chained.rows] at inside
      rcases List.mem_append.mp inside with metadata | history
      · have := chained.marked.seq s metadata
        omega
      · exact ⟨s, history, by omega⟩
  · have metadata : marker.filter (fun s => !(decide (1 ≤ s.seq) && decide (s.seq ≤ plan.throughSeq))) =
        marker := by
      rw [List.filter_eq_self]
      intro s inside
      simp [chained.marked.seq s inside]
    have history : mutations.filter (fun s => !(decide (1 ≤ s.seq) && decide (s.seq ≤ plan.throughSeq))) =
        mutations.filter fun s => r.seq < s.seq := by
      apply List.filter_congr
      intro s inside
      have positive := chained.positive inside
      rw [own, Bool.eq_iff_iff]
      simp [positive]
    simp only [chained.rows, List.filter_append, metadata, history]

theorem Sound.compact {j : Journal} {marker mutations : List Row}
    (sound : Sound sha256 j marker mutations) (plan : CompactionBase) :
    ∃ mutations', Sound sha256 ⟨(compact plan j.db).2, j.chain⟩ marker mutations' := by
  rcases compact_cases sound.chained plan with same | ⟨r, member, seq, hash, ⟨s, later, above⟩, same⟩
  · exact ⟨mutations, by rw [same]; exact sound⟩
  obtain ⟨linked, tip, length⟩ := sound.chained.linked.cut member
  refine ⟨mutations.filter fun s => r.seq < s.seq, ?_⟩
  rw [same]
  refine ⟨⟨rfl, sound.chained.marked, ?_, ?_, ?_, ?_⟩, ?_, ?_⟩
  · have := sound.chained.positive member
    rw [Database.first, firstSeq_some]
    omega
  · intro _ empty
    have inside : s ∈ mutations.filter fun s => r.seq < s.seq :=
      List.mem_filter.mpr ⟨later, decide_eq_true above⟩
    rw [empty] at inside
    cases inside
  · simpa only [Database.first, Database.origin, firstSeq_some, originHash_some, ← seq, ← hash]
      using linked
  · intro s inside
    exact sound.chained.hashed s (List.mem_filter.mp inside).1
  · rw [sound.lastSeq, ← length, seq]
    rfl
  · rw [sound.lastHash, ← tip]
    simp only [Database.origin, originHash_some, hash]

/-! The walk over a chained table whose content columns were altered, or not. -/

/-- The row with its content columns replaced. -/
def Row.altered (alter : Row → Option VerifiedRow) (r : Row) : StoredRow := { r.stored with content := alter r }

/-- Whether the altered row still recomputes. -/
def Row.recomputes (sha256 : Bytes → Hash) (alter : Row → Option VerifiedRow) (r : Row) : Bool :=
  (alter r).any fun c => chainHash sha256 r.prevHash (c.record r.seq) = r.entryHash

theorem Walk.enter_of_none {w : Walk} (base : w.base = none) (row : StoredRow) : w.enter row = .ok w := by
  simp [Walk.enter, base]

/-- A linked mutation is counted, or blamed if it is the first one to be. -/
theorem Walk.row_linked {w : Walk} (base : w.base = none) {alter : Row → Option VerifiedRow} {r : Row}
    (positive : 1 ≤ r.seq) (linked : r.prevHash = w.prev) :
    w.row sha256 (r.altered alter) = .ok { w with
      prev := r.entryHash
      verified := w.verified + if r.recomputes sha256 alter then 1 else 0
      firstBad := w.firstBad <|> if r.recomputes sha256 alter then none else some r.seq } := by
  have placed : ¬((r.altered alter).seq < formatSeq ∨ (r.altered alter).prevHash ≠ w.prev.bytes) := by
    simp only [Row.altered, Row.stored, formatSeq, linked, ne_eq, not_true_eq_false, or_false]
    omega
  have mutation : (r.altered alter).seq ≠ formatSeq := by
    simp only [Row.altered, Row.stored, formatSeq]
    omega
  have same : (r.altered alter).content.any (fun c =>
      chainHash sha256 w.prev (c.record (r.altered alter).seq) = r.entryHash) = r.recomputes sha256 alter := by
    rw [Row.recomputes, linked]
    rfl
  have digest : Hash.ofBytes (r.altered alter).entryHash = some r.entryHash := Hash.ofBytes_bytes _
  rw [Walk.row, Walk.enter_of_none base]
  simp only [bind, Except.bind, if_neg placed, digest, if_neg mutation, Walk.mutation, same]
  cases r.recomputes sha256 alter <;> simp [Row.altered, Row.stored]

/-- The walk reaches the end of a linked table, and blames the first row that does not
recompute. -/
theorem Walk.rows_linked {w : Walk} (base : w.base = none) (alter : Row → Option VerifiedRow) {n : Int}
    {rows : List Row} (positive : 1 ≤ n) (linked : LinkedRows n w.prev rows) :
    w.rows sha256 (rows.map (Row.altered alter)) = .ok { w with
      prev := tip Row.entryHash w.prev rows
      verified := w.verified + rows.countP (Row.recomputes sha256 alter)
      firstBad := w.firstBad <|> (rows.find? fun r => !r.recomputes sha256 alter).map fun r => r.seq } := by
  induction rows generalizing w n with
  | nil => simp [Walk.rows, tip]
  | cons r rows ih =>
    obtain ⟨own, prev, later⟩ := linked
    have own : r.seq = n := own
    rw [List.map_cons, Walk.rows, Walk.row_linked base (by omega) prev]
    simp only [bind, Except.bind]
    refine Eq.trans (ih ?_ ?_ later) ?_
    · exact base
    · omega
    cases good : r.recomputes sha256 alter with
    | true => simp [good, tip, Nat.add_assoc, Nat.add_comm 1]
    | false => simp [good, tip]

/-- The marker declares the format this code writes. -/
theorem parseFormat_marker : parseFormat formatOp (encode (Nat.toDigits 10 journalFormat)) =
    .version journalFormat := by
  decide

theorem Walk.rows_append (w : Walk) (first second : List StoredRow) :
    w.rows sha256 (first ++ second) = (w.rows sha256 first).bind fun mid => mid.rows sha256 second := by
  induction first generalizing w with
  | nil => rfl
  | cons row first ih =>
    simp only [List.cons_append, Walk.rows, bind]
    cases w.row sha256 row with
    | error n => rfl
    | ok mid => exact ih mid

theorem formatRecord_canonical (tsMs : Int) (version : Bytes) :
    (formatRecord tsMs version).isCanonicalMarker := by
  simp [VerifiedRow.isCanonicalMarker, formatRecord]

/-- A marker that is shaped as one and recomputes is believed. -/
theorem Walk.row_marker {w : Walk} {r : Row} (seq : r.seq = formatSeq) (prev : r.prevHash = w.prev)
    (canonical : r.isCanonicalMarker) (hashed : r.entryHash = chainHash sha256 r.prevHash r.toRecord) :
    w.row sha256 r.stored = .ok { w with declared := parseFormat r.op r.path, prev := r.entryHash } := by
  have at_zero : r.stored.seq = formatSeq := seq
  have enter : w.enter r.stored = .ok w := by
    cases base : w.base with
    | none => exact Walk.enter_of_none base _
    | some b => simp only [Walk.enter, base, at_zero, Int.lt_irrefl, if_false]
  have placed : ¬(r.stored.seq < formatSeq ∨ r.stored.prevHash ≠ w.prev.bytes) := by
    simp [Row.stored, prev, seq]
  have digest : Hash.ofBytes r.stored.entryHash = some r.entryHash := Hash.ofBytes_bytes _
  have verified : r.isCanonicalMarker ∧
      chainHash sha256 w.prev (r.toVerifiedRow.record r.stored.seq) = r.entryHash :=
    ⟨canonical, by rw [hashed, prev]; rfl⟩
  rw [Walk.row, enter]
  simp only [bind, Except.bind]
  rw [if_neg placed, digest]
  simp only [if_pos at_zero]
  exact if_pos verified

/-- The marker of this code verifies and declares a format the walk knows. -/
theorem Walk.rows_marker (base : Option CompactionBase) {marker : List Row} (marked : Marker sha256 marker) :
    ∃ declared, declared.isUnknown = false ∧ (Walk.start base).rows sha256 (marker.map Row.stored) =
      .ok ⟨base, tip Row.entryHash .zero marker, 0, declared, none⟩ := by
  rcases marked with rfl | ⟨tsMs, rfl⟩
  · exact ⟨.unmarked, rfl, rfl⟩
  · refine ⟨.version journalFormat, rfl, ?_⟩
    rw [List.map_singleton, Walk.rows, Walk.row_marker rfl rfl (formatRecord_canonical _ _) rfl]
    simp only [Record.row, formatRecord, parseFormat_marker]
    rfl

/-- Behind a base the first mutation is walked as behind its row. -/
theorem Walk.row_enter {w : Walk} {b : CompactionBase} (base : w.base = some b) {row : StoredRow}
    (positive : 1 ≤ row.seq) (next : row.seq = b.throughSeq + 1) :
    w.row sha256 row = ({ w with base := none, prev := b.throughHash } : Walk).row sha256 row := by
  have later : formatSeq < row.seq := by
    simp only [formatSeq]
    omega
  have entered : w.enter row = .ok { w with base := none, prev := b.throughHash } := by
    simp only [Walk.enter, base]
    rw [if_pos later, if_neg (not_not.mpr next)]
  rw [Walk.row, Walk.row, entered, Walk.enter_of_none rfl]

/-- The walk over linked mutations that enters them behind a base, if there is one. -/
theorem Walk.rows_behind (base : Option CompactionBase) (metadata : Hash) (declared : JournalFormat)
    (alter : Row → Option VerifiedRow) {rows : List Row} (first : 1 ≤ firstSeq base)
    (followed : base.isSome → rows ≠ [])
    (linked : LinkedRows (firstSeq base) (originHash base metadata) rows) :
    Walk.rows sha256 ⟨base, metadata, 0, declared, none⟩ (rows.map (Row.altered alter)) =
      .ok ⟨none, tip Row.entryHash (originHash base metadata) rows,
        rows.countP (Row.recomputes sha256 alter), declared,
        (rows.find? fun r => !r.recomputes sha256 alter).map fun r => r.seq⟩ := by
  cases base with
  | none =>
    have walked : Walk.rows sha256 ⟨none, metadata, 0, declared, none⟩ _ = .ok _ :=
      Walk.rows_linked rfl alter first linked
    rw [walked, Nat.zero_add]
    rfl
  | some b =>
    have walked : Walk.rows sha256 ⟨none, b.throughHash, 0, declared, none⟩ _ = .ok _ :=
      Walk.rows_linked rfl alter first linked
    rw [Nat.zero_add] at walked
    cases rows with
    | nil => exact absurd rfl (followed rfl)
    | cons r rest =>
      have own : (r.altered alter).seq = b.throughSeq + 1 := linked.1
      have first : 1 ≤ b.throughSeq + 1 := first
      rw [List.map_cons, Walk.rows] at walked ⊢
      rw [Walk.row_enter rfl (by omega) own]
      exact walked

/-- The verdict on a chained table whose mutations were altered in their content: the
first one that does not recompute is blamed. -/
theorem verify_altered {db : Database} {marker mutations : List Row}
    (chained : Chained sha256 db marker mutations) (alter : Row → Option VerifiedRow)
    (untouched : ∀ r ∈ marker, alter r = some r.toVerifiedRow) :
    verifyRows sha256 db.base (db.rows.map (Row.altered alter)) =
      match mutations.find? fun r => !r.recomputes sha256 alter with
      | none => .intact mutations.length
      | some r => .broken r.seq := by
  obtain ⟨declared, known, markerRows⟩ := Walk.rows_marker db.base chained.marked
  have metadata : marker.map (Row.altered alter) = marker.map Row.stored := by
    apply List.map_congr_left
    intro r member
    rw [Row.altered, untouched r member]
    rfl
  have history : Walk.rows sha256 ⟨db.base, _, 0, declared, none⟩ _ = .ok _ :=
    Walk.rows_behind db.base _ declared alter chained.first chained.followed chained.linked
  rw [verifyRows, chained.rows, List.map_append, metadata, Walk.rows_append, markerRows]
  simp only [Except.bind, history, Walk.verdict, known]
  cases found : mutations.find? fun r => !r.recomputes sha256 alter with
  | some r => rfl
  | none =>
    have all : mutations.countP (Row.recomputes sha256 alter) = mutations.length := by
      rw [List.countP_eq_length]
      intro r member
      simpa using List.find?_eq_none.mp found r member
    simp [all]

/-- A chained table verifies. -/
theorem verifyChain_intact {db : Database} {marker mutations : List Row}
    (chained : Chained sha256 db marker mutations) :
    verifyChain sha256 db = .intact mutations.length := by
  have same : db.rows.map Row.stored = db.rows.map (Row.altered fun r => some r.toVerifiedRow) := rfl
  rw [verifyChain, same, verify_altered chained _ fun _ _ => rfl]
  have sound : mutations.find? (fun r => !r.recomputes sha256 fun r => some r.toVerifiedRow) = none := by
    rw [List.find?_eq_none]
    intro r member
    have hashed := chained.hashed r member
    simp only [Row.recomputes, Option.any_some, Bool.not_eq_true', decide_eq_false_iff_not, not_not]
    exact hashed.symm
  rw [sound]

/-! Whole runs. -/

/-- A journal a run reaches from a new database, of this build or of one that wrote no
marker, with the batch ids handed out since it
was last opened. What callers may record is up to `admits`. -/
inductive Run (sha256 : Bytes → Hash) (admits : Journal → NewEntry → Prop) : Journal → List Int → Prop where
  | fresh (tsMs : Int) : Run sha256 admits (openInMemory sha256 tsMs) []
  | older : Run sha256 admits unmarked []
  | record {j j' : Journal} {handed : List Int} {e : NewEntry} {tsMs : Int} {taken : Bool}
      {answer : Except JournalError Int} : Run sha256 admits j handed → admits j e →
      recordEntry sha256 e tsMs taken j = some (answer, j') → Run sha256 admits j' handed
  | allocBatch {j j' : Journal} {handed : List Int} {id : Int} : Run sha256 admits j handed →
      allocBatch j = some (id, j') → Run sha256 admits j' (id :: handed)
  | reopen {j : Journal} {handed : List Int} (tsMs : Int) : Run sha256 admits j handed →
      Run sha256 admits (fromOptions sha256 tsMs j.db) []
  | compact {j : Journal} {handed : List Int} (plan : CompactionBase) : Run sha256 admits j handed →
      Run sha256 admits ⟨(compact plan j.db).2, j.chain⟩ handed

/-- A caller labels its rows with batch ids that were handed out before. -/
def Labelled (j : Journal) (e : NewEntry) : Prop := ∀ b ∈ e.batchId, b ≤ j.chain.batchCounter

/-- A caller takes back only entries that are there. -/
def Retrospective (j : Journal) (e : NewEntry) : Prop := ∀ t ∈ e.undoesSeq, t ≤ j.chain.lastSeq

theorem chained_empty : Chained sha256 ⟨[], none⟩ [] [] :=
  ⟨rfl, .inl rfl, Int.le_refl 1, by simp, trivial, by simp⟩

theorem allocBatch_eq_some {j j' : Journal} {id : Int} (given : allocBatch j = some (id, j')) :
    id = j.chain.batchCounter + 1 ∧ j' = { j with chain := { j.chain with batchCounter := id } } := by
  unfold allocBatch at given
  split at given
  · cases given
  · obtain ⟨rfl, rfl⟩ := Prod.mk.inj (Option.some.inj given)
    exact ⟨rfl, rfl⟩

/-- Every step of a run keeps the journal sound. -/
theorem Run.sound {admits : Journal → NewEntry → Prop} {j : Journal} {handed : List Int}
    (run : Run sha256 admits j handed) : ∃ marker mutations, Sound sha256 j marker mutations := by
  induction run with
  | fresh tsMs =>
    obtain ⟨marker, sound⟩ := chained_empty.open tsMs
    exact ⟨marker, [], sound⟩
  | older => exact ⟨[], [], chained_empty, rfl, rfl⟩
  | @record j j' handed e tsMs taken answer _ _ recorded ih =>
    obtain ⟨marker, mutations, sound⟩ := ih
    rcases recordEntry_cases sound e tsMs taken with none | refused | written
    · rw [none] at recorded
      cases recorded
    · rw [refused] at recorded
      obtain ⟨_, rfl⟩ := Prod.mk.inj (Option.some.inj recorded)
      exact ⟨marker, mutations, sound⟩
    · rw [written] at recorded
      obtain ⟨_, rfl⟩ := Prod.mk.inj (Option.some.inj recorded)
      exact ⟨marker, _, sound.record e tsMs⟩
  | allocBatch _ given ih =>
    obtain ⟨marker, mutations, sound⟩ := ih
    obtain ⟨_, rfl⟩ := allocBatch_eq_some given
    exact ⟨marker, mutations, sound.chained, sound.lastSeq, sound.lastHash⟩
  | reopen tsMs _ ih =>
    obtain ⟨marker, mutations, sound⟩ := ih
    obtain ⟨marker', opened⟩ := sound.chained.open tsMs
    exact ⟨marker', mutations, opened⟩
  | compact plan _ ih =>
    obtain ⟨marker, mutations, sound⟩ := ih
    obtain ⟨mutations', compacted⟩ := sound.compact plan
    exact ⟨marker, mutations', compacted⟩

theorem le_maxBatch {db : Database} {r : Row} (member : r ∈ db.rows) {b : Int} (label : b ∈ r.batchId) :
    b ≤ db.maxBatch := by
  have inside : b ∈ db.rows.filterMap (·.batchId) := List.mem_filterMap.mpr ⟨r, member, label⟩
  rw [Database.maxBatch]
  cases top : (db.rows.filterMap (·.batchId)).max? with
  | none => simp [List.max?_eq_none_iff.mp top] at inside
  | some m => exact (List.max?_eq_some_iff.mp top).2 b inside

/-- The counter is past every batch id on disk and every one handed out. -/
structure Counted (j : Journal) (handed : List Int) : Prop where
  rows : ∀ r ∈ j.db.rows, ∀ b ∈ r.batchId, b ≤ j.chain.batchCounter
  handed : ∀ id ∈ handed, id ≤ j.chain.batchCounter

theorem fromOptions_counted (tsMs : Int) (db : Database) : Counted (fromOptions sha256 tsMs db) [] :=
  ⟨fun _ member _ label => le_maxBatch member label, by simp⟩

theorem compact_rows_subset (plan : CompactionBase) (db : Database) :
    (Chain.compact plan db).2.rows ⊆ db.rows := by
  unfold Chain.compact
  split
  · exact List.Subset.refl _
  · split
    · exact List.Subset.refl _
    · exact List.filter_subset_self _

theorem Run.counted {j : Journal} {handed : List Int} (run : Run sha256 Labelled j handed) :
    Counted j handed := by
  induction run with
  | fresh tsMs => exact fromOptions_counted tsMs _
  | older => exact ⟨by simp [unmarked], by simp⟩
  | @record j j' handed e tsMs taken answer earlier labelled recorded ih =>
    obtain ⟨marker, mutations, sound⟩ := earlier.sound
    rcases recordEntry_cases sound e tsMs taken with none | refused | written
    · rw [none] at recorded
      cases recorded
    · rw [refused] at recorded
      obtain ⟨_, rfl⟩ := Prod.mk.inj (Option.some.inj recorded)
      exact ih
    · rw [written] at recorded
      obtain ⟨_, rfl⟩ := Prod.mk.inj (Option.some.inj recorded)
      refine ⟨fun r member b label => ?_, ih.handed⟩
      rcases List.mem_append.mp member with early | last
      · exact ih.rows r early b label
      · rw [List.mem_singleton.mp last] at label
        exact labelled b label
  | allocBatch _ given ih =>
    obtain ⟨rfl, rfl⟩ := allocBatch_eq_some given
    refine ⟨fun r member b label => ?_, fun id member => ?_⟩
    · have := ih.rows r member b label
      simp only
      omega
    · simp only
      rcases List.mem_cons.mp member with rfl | early
      · exact Int.le_refl _
      · have := ih.handed id early
        omega
  | reopen tsMs _ _ => exact fromOptions_counted tsMs _
  | compact plan _ ih =>
    exact ⟨fun r member => ih.rows r (compact_rows_subset plan _ member), ih.handed⟩

theorem Run.mono {admits admits' : Journal → NewEntry → Prop}
    (wider : ∀ j e, admits j e → admits' j e) {j : Journal} {handed : List Int}
    (run : Run sha256 admits j handed) : Run sha256 admits' j handed := by
  induction run with
  | fresh tsMs => exact .fresh tsMs
  | older => exact .older
  | record _ admitted recorded ih => exact .record ih (wider _ _ admitted) recorded
  | allocBatch _ given ih => exact .allocBatch ih given
  | reopen tsMs _ ih => exact .reopen tsMs ih
  | compact plan _ ih => exact .compact plan ih

/-- Over every run the chain verifies and the mutations that survive are numbered without
a gap up to the last one. A batch id is new when it is handed out, as long as callers
only use ids that were. -/
theorem run_intact (sha256 : Bytes → Hash) (admits : Journal → NewEntry → Prop) (j : Journal)
    (handed : List Int) (run : Run sha256 admits j handed) :
    verifyChain sha256 j.db = .intact j.db.mutations.length ∧
    (∀ i (inside : i < j.db.mutations.length),
      (j.db.mutations[i]).seq + j.db.mutations.length = j.chain.lastSeq + 1 + i) ∧
    ((∀ j e, admits j e → Labelled j e) → ∀ id j', allocBatch j = some (id, j') →
      (∀ r ∈ j.db.rows, r.batchId ≠ some id) ∧ id ∉ handed) := by
  obtain ⟨marker, mutations, sound⟩ := run.sound
  refine ⟨?_, ?_, ?_⟩
  · rw [sound.chained.mutations]
    exact verifyChain_intact sound.chained
  · rw [sound.chained.mutations]
    intro i inside
    have own : (mutations[i]).seq = _ := sound.chained.linked.getElem inside
    rw [own, sound.lastSeq]
    omega
  · intro labelled id j' given
    have counted := (run.mono labelled).counted
    obtain ⟨rfl, _⟩ := allocBatch_eq_some given
    refine ⟨fun r member same => ?_, fun member => ?_⟩
    · have := counted.rows r member _ same
      omega
    · have := counted.handed _ member
      omega

/-- A digest for examples: the string as a number, cut to its low bytes. -/
def sampleHash (bytes : Bytes) : Hash :=
  ⟨leBytes 32 (bytes.foldl (fun n b => 257 * n + b.toNat + 1) 0), leBytes_length ..⟩

/-- A mutation of the user's, with a batch or without. -/
def sampleEntry (batchId : Option Int) : NewEntry :=
  ⟨"created".toList, [0x61], none, .delete, none, .user, none, batchId⟩

/-- A batch is handed out, two rows are recorded, the first is compacted away, and the
journal is opened again. -/
def sampleRun : Option Journal := do
  let (id, j) ← allocBatch (openInMemory sampleHash 7)
  let (_, j) ← recordEntry sampleHash (sampleEntry none) 7 true j
  let (_, j) ← recordEntry sampleHash (sampleEntry (some id)) 8 true j
  let plan ← (compactionPlan j.db 8).toOption.join
  return fromOptions sampleHash 9 (compact plan j.db).2

theorem run_intact_sampleRun : ∃ j ∈ sampleRun, j.db.base.isSome ∧
    verifyChain sampleHash j.db = .intact 1 := by
  have ran : sampleRun.map (fun j => (j.db.base.isSome, j.db.mutations.length)) = some (true, 1) := by
    decide +kernel
  obtain ⟨j, reached, same⟩ := Option.map_eq_some_iff.mp ran
  obtain ⟨base, one⟩ := Prod.mk.inj same
  refine ⟨j, reached, base, ?_⟩
  unfold sampleRun at reached
  obtain ⟨⟨id, first⟩, given, rest⟩ := Option.bind_eq_some_iff.mp reached
  obtain ⟨⟨_, second⟩, lone, rest⟩ := Option.bind_eq_some_iff.mp rest
  obtain ⟨⟨_, third⟩, grouped, rest⟩ := Option.bind_eq_some_iff.mp rest
  obtain ⟨plan, _, rest⟩ := Option.bind_eq_some_iff.mp rest
  obtain rfl := Option.some.inj rest
  have early : Run sampleHash Labelled second [id] :=
    .record (.allocBatch (.fresh 7) given) (fun b label => by cases label) lone
  have labelled : Labelled second (sampleEntry (some id)) := by
    intro b label
    obtain rfl := Option.some.inj label
    exact early.counted.handed _ List.mem_cons_self
  have run : Run sampleHash Labelled (fromOptions sampleHash 9 (compact plan third.db).2) [] :=
    .reopen 9 (.compact plan (.record early labelled grouped))
  rw [← one]
  exact (run_intact sampleHash _ _ [] run).1

/-- A row may carry an id that was never handed out, and the next one handed out can be it. -/
theorem invented_batch_not_new : ¬∀ (sha256 : Bytes → Hash) (j : Journal) (handed : List Int),
    Run sha256 (fun _ _ => True) j handed → ∀ id j', allocBatch j = some (id, j') →
    (∀ r ∈ j.db.rows, r.batchId ≠ some id) := by
  intro all
  have recorded : (recordEntry sampleHash (sampleEntry (some 1)) 7 true (openInMemory sampleHash 7)).map
      (fun p => (p.2.db.rows.any (fun r => r.batchId = some 1), (allocBatch p.2).map Prod.fst)) =
      some (true, some 1) := by decide +kernel
  obtain ⟨⟨answer, j'⟩, recorded, same⟩ := Option.map_eq_some_iff.mp recorded
  obtain ⟨carried, given⟩ := Prod.mk.inj same
  obtain ⟨⟨id, later⟩, given, rfl⟩ := Option.map_eq_some_iff.mp given
  obtain ⟨r, member, same⟩ := List.any_eq_true.mp carried
  exact all sampleHash j' [] (.record (.fresh 7) trivial recorded) _ later given r member (by simpa using same)

end Norte.Chain
