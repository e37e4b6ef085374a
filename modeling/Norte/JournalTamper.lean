import Norte.JournalChain

/-! Edits that leave every digest in place. The digest only has to tell apart the strings
that are hashed for the table before and after the edit. -/
namespace Norte.Chain

open Links

variable {sha256 : Bytes → Hash}

/-- No two of these strings collide. -/
def Separates (sha256 : Bytes → Hash) (strings : List Bytes) : Prop :=
  ∀ x ∈ strings, ∀ y ∈ strings, sha256 x = sha256 y → x = y

instance (sha256 : Bytes → Hash) (strings : List Bytes) : Decidable (Separates sha256 strings) :=
  inferInstanceAs (Decidable (∀ x ∈ strings, ∀ y ∈ strings, sha256 x = sha256 y → x = y))

/-- The strings hashed for the rows of a table. -/
def strings (rows : List Row) : List Bytes := rows.map fun r => r.preimage r.prevHash

/-- The strings the walk hashes for rows whose content was replaced. -/
def alteredStrings (alter : Row → Option VerifiedRow) (rows : List Row) : List Bytes :=
  rows.filterMap fun r => (alter r).map fun c => (c.record r.seq).preimage r.prevHash

/-- A row with other content does not recompute. -/
theorem recomputes_altered {alter : Row → Option VerifiedRow} {rows : List Row}
    (separates : Separates sha256 (strings rows ++ alteredStrings alter rows)) {r : Row}
    (member : r ∈ rows) (fits : r.Fits) (fitsAltered : ∀ c ∈ alter r, (c.record r.seq).Fits)
    (hashed : r.entryHash = chainHash sha256 r.prevHash r.toRecord) :
    r.recomputes sha256 alter ↔ alter r = some r.toVerifiedRow := by
  cases altered : alter r with
  | none => simp [Row.recomputes, altered]
  | some c =>
    simp only [Row.recomputes, altered, Option.any_some, decide_eq_true_eq, Option.some.injEq]
    constructor
    · intro same
      rw [hashed] at same
      have before : (c.record r.seq).preimage r.prevHash ∈ alteredStrings alter rows :=
        List.mem_filterMap.mpr ⟨r, member, by rw [altered]; rfl⟩
      have after : r.preimage r.prevHash ∈ strings rows := List.mem_map_of_mem member
      have preimages := separates _ (List.mem_append_right _ before) _ (List.mem_append_left _ after) same
      have records := (preimage_injective (fitsAltered c altered) fits preimages).2
      exact congrArg Record.toVerifiedRow records
    · rintro rfl
      exact hashed.symm

/-- Of a chained table whose content was altered, the first altered row is blamed. -/
theorem content_edit_located {db : Database} {marker mutations : List Row}
    (chained : Chained sha256 db marker mutations) (fits : ∀ r ∈ db.rows, r.Fits)
    {alter : Row → Option VerifiedRow} (metadata : ∀ r ∈ db.rows, r.seq < 1 → alter r = some r.toVerifiedRow)
    (fitsAltered : ∀ r ∈ db.rows, ∀ c ∈ alter r, (c.record r.seq).Fits)
    (separates : Separates sha256 (strings db.rows ++ alteredStrings alter db.rows))
    (edited : ∃ r ∈ db.rows, alter r ≠ some r.toVerifiedRow) :
    ∃ r ∈ db.rows, 1 ≤ r.seq ∧ alter r ≠ some r.toVerifiedRow ∧
      (∀ s ∈ db.rows, alter s ≠ some s.toVerifiedRow → r.seq ≤ s.seq) ∧
      verifyRows sha256 db.base (db.rows.map (Row.altered alter)) = .broken r.seq := by
  have untouched : ∀ r ∈ marker, alter r = some r.toVerifiedRow := by
    intro r member
    refine metadata r (by rw [chained.rows]; exact List.mem_append_left _ member) ?_
    rw [chained.marked.seq r member]
    decide
  have inside {r : Row} (member : r ∈ mutations) : r ∈ db.rows := by
    rw [chained.rows]
    exact List.mem_append_right _ member
  have recomputes {r : Row} (member : r ∈ mutations) :
      r.recomputes sha256 alter ↔ alter r = some r.toVerifiedRow :=
    recomputes_altered separates (inside member) (fits r (inside member))
      (fitsAltered r (inside member)) (chained.hashed r member)
  have history {r : Row} (member : r ∈ db.rows) (changed : alter r ≠ some r.toVerifiedRow) : r ∈ mutations := by
    rw [chained.rows] at member
    rcases List.mem_append.mp member with metadata | history
    · exact absurd (untouched r metadata) changed
    · exact history
  rw [verify_altered chained alter untouched]
  cases found : mutations.find? fun r => !r.recomputes sha256 alter with
  | none =>
    obtain ⟨r, member, changed⟩ := edited
    have good := List.find?_eq_none.mp found r (history member changed)
    exact absurd ((recomputes (history member changed)).mp (by simpa using good)) changed
  | some r =>
    obtain ⟨bad, before, after, split, good⟩ := List.find?_eq_some_iff_append.mp found
    have member : r ∈ mutations := by simp [split]
    refine ⟨r, inside member, chained.positive member, ?_, ?_, rfl⟩
    · intro same
      simp [(recomputes member).mpr same] at bad
    · intro s at_s changed
      have sorted := chained.linked.sorted
      rw [split] at sorted
      have at_s := history at_s changed
      rw [split] at at_s
      rcases List.mem_append.mp at_s with early | late
      · have kept := good s early
        simp only [Bool.not_not] at kept
        exact absurd ((recomputes (by simp [split, early])).mp kept) changed
      · rcases List.mem_cons.mp late with rfl | late
        · exact Int.le_refl _
        · exact Int.le_of_lt ((List.pairwise_cons.mp (List.pairwise_append.mp sorted).2.1).1 s late)

/-- Rows of other numbers carry other digests. -/
theorem entryHash_ne {rows : List Row} (separates : Separates sha256 (strings rows)) {r s : Row}
    (at_r : r ∈ rows) (at_s : s ∈ rows) (fitsR : r.Fits) (fitsS : s.Fits)
    (hashedR : r.entryHash = chainHash sha256 r.prevHash r.toRecord)
    (hashedS : s.entryHash = chainHash sha256 s.prevHash s.toRecord) (other : r.seq ≠ s.seq) :
    r.entryHash ≠ s.entryHash := by
  intro same
  rw [hashedR, hashedS] at same
  have preimages := separates _ (List.mem_map_of_mem at_r) _ (List.mem_map_of_mem at_s) same
  exact other (congrArg Record.seq (preimage_injective fitsR fitsS preimages).2)

theorem Marker.hashed {rows : List Row} (marked : Marker sha256 rows) :
    ∀ r ∈ rows, r.entryHash = chainHash sha256 r.prevHash r.toRecord := by
  rcases marked with rfl | ⟨tsMs, rfl⟩
  · simp
  · intro r member
    rw [List.mem_singleton.mp member]
    rfl

/-- A row that does not follow the digest the walk carries breaks the chain. -/
theorem Walk.rows_unlinked {w : Walk} (base : w.base = none) {row : StoredRow}
    (unlinked : row.prevHash ≠ w.prev.bytes) (rows : List StoredRow) :
    ∃ n, w.rows sha256 (row :: rows) = .error n := by
  rw [Walk.rows, Walk.row, Walk.enter_of_none base]
  simp only [bind, Except.bind]
  rw [if_pos (.inr unlinked)]
  exact ⟨_, rfl⟩

/-- So does a row behind a base that is not the next one. -/
theorem Walk.rows_not_next {w : Walk} {b : CompactionBase} (base : w.base = some b) {row : StoredRow}
    (positive : 1 ≤ row.seq) (later : row.seq ≠ b.throughSeq + 1) (rows : List StoredRow) :
    ∃ n, w.rows sha256 (row :: rows) = .error n := by
  have behind : formatSeq < row.seq := by
    simp only [formatSeq]
    omega
  have refused : w.enter row = .error row.seq := by
    simp only [Walk.enter, base]
    rw [if_pos behind, if_pos later]
  rw [Walk.rows, Walk.row, refused]
  exact ⟨_, rfl⟩

/-- The walk breaks at the row right after a gap, if the digests on both sides of the gap
differ. -/
theorem Walk.rows_gap {base : Option CompactionBase} {metadata : Hash} {declared : JournalFormat}
    {before gap : List Row} {s : Row} (first : 1 ≤ firstSeq base) (some_ : gap ≠ [])
    (linked : LinkedRows (firstSeq base) (originHash base metadata) (before ++ gap ++ [s]))
    (apart : base = none ∨ before ≠ [] →
      tip Row.entryHash (originHash base metadata) before ≠
        tip Row.entryHash (originHash base metadata) (before ++ gap)) (after : List StoredRow) :
    ∃ n, Walk.rows sha256 ⟨base, metadata, 0, declared, none⟩
      (before.map Row.stored ++ s.stored :: after) = .error n := by
  obtain ⟨early, own, prev, _⟩ := linked_append.mp linked
  have own : s.seq = _ := own
  by_cases entered : base = none ∨ before ≠ []
  · have followed : base.isSome → before ≠ [] := by
      rintro held rfl
      rcases entered with rfl | none
      · cases held
      · exact none rfl
    have walked : Walk.rows sha256 ⟨base, metadata, 0, declared, none⟩ (before.map Row.stored) = .ok _ :=
      Walk.rows_behind base metadata declared (fun r => some r.toVerifiedRow) first followed
        (linked_append.mp early).1
    have unlinked : s.stored.prevHash ≠ (tip Row.entryHash (originHash base metadata) before).bytes := by
      rw [Row.stored, prev, ne_eq, Hash.bytes_inj]
      exact (apart entered).symm
    rw [Walk.rows_append, walked]
    exact Walk.rows_unlinked rfl unlinked after
  · obtain ⟨based, none⟩ := not_or.mp entered
    obtain ⟨b, rfl⟩ := Option.ne_none_iff_exists'.mp based
    obtain rfl := not_not.mp none
    have wide := List.length_pos_iff.mpr some_
    rw [firstSeq_some] at own first
    simp only [List.nil_append] at own
    have later : s.stored.seq ≠ b.throughSeq + 1 := by
      simp only [Row.stored]
      omega
    refine Walk.rows_not_next rfl ?_ later after
    simp only [Row.stored]
    omega

/-- The digests on both sides of a gap differ: those of two rows, or that of a row and the
all-zero one a chain without marker or base starts from. -/
theorem Chained.apart {db : Database} {marker mutations before gap rest : List Row}
    (chained : Chained sha256 db marker mutations) (fits : ∀ r ∈ db.rows, r.Fits)
    (separates : Separates sha256 (strings db.rows))
    (nonzero : db.base = none → marker = [] → ∀ x ∈ strings db.rows, sha256 x ≠ .zero)
    (split : mutations = before ++ gap ++ rest) (some_ : gap ≠ [])
    (entered : db.base = none ∨ before ≠ []) :
    tip Row.entryHash (db.origin marker) before ≠ tip Row.entryHash (db.origin marker) (before ++ gap) := by
  obtain ⟨g, member, last⟩ := tip_mem Row.entryHash (tip Row.entryHash (db.origin marker) before) some_
  have sorted := chained.linked.sorted
  rw [split] at sorted
  have history : g ∈ mutations := by simp [split, member]
  have inside {r : Row} (member : r ∈ marker ++ mutations) : r ∈ db.rows := chained.rows ▸ member
  have at_g := inside (List.mem_append_right marker history)
  have hashed := chained.hashed g history
  rw [tip_append, last]
  by_cases none : before = []
  · have base := entered.resolve_right (not_not.mpr none)
    subst none
    simp only [Database.origin, base, originHash_none, tip]
    by_cases bare : marker = []
    · subst bare
      rw [hashed]
      exact (nonzero base rfl _ (List.mem_map_of_mem at_g)).symm
    · obtain ⟨m, metadata, same⟩ := tip_mem Row.entryHash Hash.zero bare
      have at_m := inside (List.mem_append_left mutations metadata)
      rw [same]
      refine entryHash_ne separates at_m at_g (fits m at_m) (fits g at_g)
        (chained.marked.hashed m metadata) hashed ?_
      have := chained.marked.seq m metadata
      have := chained.positive history
      omega
  · obtain ⟨p, early, same⟩ := tip_mem Row.entryHash (db.origin marker) none
    have historyP : p ∈ mutations := by simp [split, early]
    have at_p := inside (List.mem_append_right marker historyP)
    rw [same]
    refine entryHash_ne separates at_p at_g (fits p at_p) (fits g at_g) (chained.hashed p historyP)
      hashed ?_
    have order := (List.pairwise_append.mp (List.pairwise_append.mp sorted).1).2.2 p early g member
    omega

/-- Deleting mutations below one that stays breaks the chain. -/
theorem deletion_breaks {db : Database} {marker mutations : List Row}
    (chained : Chained sha256 db marker mutations) (fits : ∀ r ∈ db.rows, r.Fits)
    (separates : Separates sha256 (strings db.rows))
    (nonzero : db.base = none → marker = [] → ∀ x ∈ strings db.rows, sha256 x ≠ .zero)
    {keep : Row → Bool} (metadata : ∀ r ∈ db.rows, r.seq < 1 → keep r)
    (deleted : ∃ d ∈ db.rows, ¬keep d ∧ ∃ s ∈ db.rows, keep s ∧ d.seq < s.seq) :
    ∃ n, verifyRows sha256 db.base ((db.rows.filter keep).map Row.stored) = .broken n := by
  obtain ⟨d, at_d, gone, s, at_s, stays, below⟩ := deleted
  have metadataKept : marker.filter keep = marker := by
    rw [List.filter_eq_self]
    intro r member
    refine metadata r (by rw [chained.rows]; exact List.mem_append_left _ member) ?_
    rw [chained.marked.seq r member]
    decide
  have history : d ∈ mutations := by
    rw [chained.rows] at at_d
    exact (List.mem_append.mp at_d).resolve_left fun inside => gone (by
      rw [← metadataKept] at inside
      exact (List.mem_filter.mp inside).2)
  have historyS : s ∈ mutations := by
    rw [chained.rows] at at_s
    refine (List.mem_append.mp at_s).resolve_left fun inside => ?_
    have := chained.marked.seq s inside
    have := chained.positive history
    omega
  have cut : ∀ tail, mutations ≠ mutations.filter keep ++ tail := by
    intro tail same
    have sorted := chained.linked.sorted
    rw [same] at sorted history
    have late : d ∈ tail := (List.mem_append.mp history).resolve_left fun inside =>
      gone (List.mem_filter.mp inside).2
    have order := (List.pairwise_append.mp sorted).2.2 s (List.mem_filter.mpr ⟨historyS, stays⟩) d late
    omega
  obtain ⟨before, gap, next, rest, after, split, kept, some_⟩ := exists_gap List.filter_sublist cut
  obtain ⟨declared, _, markerRows⟩ := Walk.rows_marker db.base chained.marked
  have linked := chained.linked
  rw [split, List.append_cons] at linked
  have broken : ∃ n, Walk.rows sha256 ⟨db.base, _, 0, declared, none⟩ _ = .error n :=
    Walk.rows_gap chained.first some_ (linked_append.mp linked).1
      (chained.apart fits separates nonzero split some_) (after.map Row.stored)
  obtain ⟨n, broken⟩ := broken
  refine ⟨n, ?_⟩
  rw [verifyRows, chained.rows, List.filter_append, metadataKept, List.map_append, Walk.rows_append,
    markerRows, kept, List.map_append, List.map_cons]
  simp only [Except.bind, broken]

/-- Naive edits do not pass: altered content is located, a deletion below a row that stays
breaks the chain, and no two records are hashed as one string. A chain with neither
marker nor base starts from the all-zero digest, so there no row may have that one. -/
theorem naive_edits_detected (sha256 : Bytes → Hash) (admits : Journal → NewEntry → Prop) (j : Journal)
    (handed : List Int) (run : Run sha256 admits j handed) (fits : ∀ r ∈ j.db.rows, r.Fits) :
    (∀ alter : Row → Option VerifiedRow, (∀ r ∈ j.db.rows, r.seq < 1 → alter r = some r.toVerifiedRow) →
      (∀ r ∈ j.db.rows, ∀ c ∈ alter r, (c.record r.seq).Fits) →
      Separates sha256 (strings j.db.rows ++ alteredStrings alter j.db.rows) →
      (∃ r ∈ j.db.rows, alter r ≠ some r.toVerifiedRow) →
      ∃ r ∈ j.db.rows, 1 ≤ r.seq ∧ alter r ≠ some r.toVerifiedRow ∧
        (∀ s ∈ j.db.rows, alter s ≠ some s.toVerifiedRow → r.seq ≤ s.seq) ∧
        verifyRows sha256 j.db.base (j.db.rows.map (Row.altered alter)) = .broken r.seq) ∧
    (∀ keep : Row → Bool, (∀ r ∈ j.db.rows, r.seq < 1 → keep r) → Separates sha256 (strings j.db.rows) →
      (j.db.base = none → (∀ r ∈ j.db.rows, 1 ≤ r.seq) → ∀ x ∈ strings j.db.rows, sha256 x ≠ .zero) →
      (∃ d ∈ j.db.rows, ¬keep d ∧ ∃ s ∈ j.db.rows, keep s ∧ d.seq < s.seq) →
      ∃ n, verifyRows sha256 j.db.base ((j.db.rows.filter keep).map Row.stored) = .broken n) ∧
    ∀ (prev : Hash) (r r' : Record), r.Fits → r'.Fits → r.preimage prev = r'.preimage prev → r = r' := by
  obtain ⟨marker, mutations, sound⟩ := run.sound
  refine ⟨?_, ?_, fun prev r r' fitsR fitsR' same => (preimage_injective fitsR fitsR' same).2⟩
  · intro alter metadata fitsAltered separates edited
    exact content_edit_located sound.chained fits metadata fitsAltered separates edited
  · intro keep metadata separates nonzero deleted
    refine deletion_breaks sound.chained fits separates ?_ metadata deleted
    rintro base rfl
    refine nonzero base fun r member => ?_
    rw [sound.chained.rows, List.nil_append] at member
    exact sound.chained.positive member

/-- The journal of two rows that a build without markers wrote. -/
def sampleTwoRows (sha256 : Bytes → Hash) : Option Journal := do
  let (_, j) ← recordEntry sha256 (sampleEntry none) 7 true unmarked
  let (_, j) ← recordEntry sha256 (sampleEntry (some 1)) 8 true j
  return j

theorem sampleTwoRows_run {sha256 : Bytes → Hash} {j : Journal} (reached : sampleTwoRows sha256 = some j) :
    Run sha256 (fun _ _ => True) j [] := by
  unfold sampleTwoRows at reached
  obtain ⟨⟨_, first⟩, one, rest⟩ := Option.bind_eq_some_iff.mp reached
  obtain ⟨⟨_, second⟩, two, rest⟩ := Option.bind_eq_some_iff.mp rest
  obtain rfl := Option.some.inj rest
  exact .record (.record .older trivial one) trivial two

/-- Another path in the second row, which the walk then blames. -/
def sampleAlter (r : Row) : Option VerifiedRow :=
  if r.seq = 2 then some { r.toVerifiedRow with path := [0x62] } else some r.toVerifiedRow

theorem naive_edits_detected_sampleTwoRows : ∃ j ∈ sampleTwoRows sampleHash,
    ∃ r ∈ j.db.rows, sampleAlter r ≠ some r.toVerifiedRow ∧
      verifyRows sampleHash j.db.base (j.db.rows.map (Row.altered sampleAlter)) = .broken r.seq := by
  have checked : (sampleTwoRows sampleHash).map (fun j =>
      (decide (∀ r ∈ j.db.rows, r.Fits), decide (∀ r ∈ j.db.rows, 1 ≤ r.seq),
        decide (∀ r ∈ j.db.rows, ∀ c ∈ sampleAlter r, (c.record r.seq).Fits),
        decide (Separates sampleHash (strings j.db.rows ++ alteredStrings sampleAlter j.db.rows)),
        decide (∃ r ∈ j.db.rows, sampleAlter r ≠ some r.toVerifiedRow))) =
      some (true, true, true, true, true) := by decide +kernel
  obtain ⟨j, reached, checked⟩ := Option.map_eq_some_iff.mp checked
  simp only [Prod.mk.injEq, decide_eq_true_eq] at checked
  obtain ⟨fits, positive, fitsAltered, separates, edited⟩ := checked
  obtain ⟨r, member, _, changed, _, blamed⟩ :=
    (naive_edits_detected sampleHash _ j [] (sampleTwoRows_run reached) fits).1 sampleAlter
      (fun r member low => absurd (positive r member) (by omega)) fitsAltered separates edited
  exact ⟨j, reached, r, member, changed, blamed⟩

/-- A digest that gives the first row of that journal the all-zero value. -/
def zeroingHash (bytes : Bytes) : Hash :=
  if bytes = ((sampleEntry none).record 7 1).preimage .zero then .zero
  else ⟨List.replicate 32 1, List.length_replicate⟩

/-- Then its deletion goes unnoticed, though no two strings collide. -/
theorem zero_digest_hides_deletion : ¬∀ (sha256 : Bytes → Hash) (j : Journal),
    Run sha256 (fun _ _ => True) j [] → (∀ r ∈ j.db.rows, r.Fits) →
    ∀ keep : Row → Bool, (∀ r ∈ j.db.rows, r.seq < 1 → keep r) → Separates sha256 (strings j.db.rows) →
    (∃ d ∈ j.db.rows, ¬keep d ∧ ∃ s ∈ j.db.rows, keep s ∧ d.seq < s.seq) →
    ∃ n, verifyRows sha256 j.db.base ((j.db.rows.filter keep).map Row.stored) = .broken n := by
  intro all
  have checked : (sampleTwoRows zeroingHash).map (fun j =>
      (decide (∀ r ∈ j.db.rows, r.Fits), decide (∀ r ∈ j.db.rows, 1 ≤ r.seq),
        decide (Separates zeroingHash (strings j.db.rows)),
        decide (∃ d ∈ j.db.rows, ¬(d.seq ≠ 1) ∧ ∃ s ∈ j.db.rows, s.seq ≠ 1 ∧ d.seq < s.seq),
        verifyRows zeroingHash j.db.base ((j.db.rows.filter fun r => r.seq ≠ 1).map Row.stored))) =
      some (true, true, true, true, .intact 1) := by decide +kernel
  obtain ⟨j, reached, checked⟩ := Option.map_eq_some_iff.mp checked
  simp only [Prod.mk.injEq, decide_eq_true_eq] at checked
  obtain ⟨fits, positive, separates, deleted, intact⟩ := checked
  obtain ⟨n, broken⟩ := all zeroingHash j (sampleTwoRows_run reached) fits (fun r => r.seq ≠ 1)
    (fun r member low => absurd (positive r member) (by omega)) separates (by simpa using deleted)
  rw [intact] at broken
  cases broken

end Norte.Chain
