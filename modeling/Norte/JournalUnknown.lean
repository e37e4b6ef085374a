import Norte.JournalChain

/-! A journal from the future: its marker names a format this build does not know, so that
its rows need not recompute, and only what no format may change can break it. -/
namespace Norte.Chain

open Hashing

section Rules

/-- The stored digest a row has to follow: the base's for the first mutation behind a base,
else the one of the row before. -/
def expected (base : Option CompactionBase) (before : List StoredRow) (row : StoredRow) : Bytes :=
  match base with
  | some b =>
    if 0 < row.seq ∧ ∀ r ∈ before, r.seq ≤ 0 then b.throughHash.bytes
    else (before.getLast?.map StoredRow.entryHash).getD Hash.zero.bytes
  | none => (before.getLast?.map StoredRow.entryHash).getD Hash.zero.bytes

/-- A row that does not continue the base. -/
def Astray (base : Option CompactionBase) (before : List StoredRow) (row : StoredRow) : Prop :=
  ∃ b ∈ base, 0 < row.seq ∧ (∀ r ∈ before, r.seq ≤ 0) ∧ row.seq ≠ b.throughSeq + 1

/-- A row that breaks the chain itself. -/
def Unlinked (base : Option CompactionBase) (before : List StoredRow) (row : StoredRow) : Prop :=
  row.seq < 0 ∨ row.prevHash ≠ expected base before row ∨ Astray base before row

/-- The rules that hold under every format. -/
def Violates (base : Option CompactionBase) (before : List StoredRow) (row : StoredRow) : Prop :=
  Unlinked base before row ∨ row.entryHash.length ≠ 32

/-- The number of the row that a base is not followed by. -/
def Missing (base : Option CompactionBase) (rows : List StoredRow) (seq : Int) : Prop :=
  ∃ b ∈ base, (∀ r ∈ rows, r.seq ≤ 0) ∧ seq = b.throughSeq + 1

/-- No row violates a rule where it stands. -/
def Clean (base : Option CompactionBase) (before rows : List StoredRow) : Prop :=
  ∀ early row late, rows = early ++ row :: late → ¬Violates base (before ++ early) row

variable (sha256 : Bytes → Hash)

/-- A row recomputes from its own columns. -/
def StoredRow.recomputes (row : StoredRow) : Bool :=
  (Hash.ofBytes row.prevHash).any fun prev => row.content.any fun c =>
    (chainHash sha256 prev (c.record row.seq)).bytes = row.entryHash

/-- A mutation this build cannot vouch for. -/
def StoredRow.suspect (row : StoredRow) : Bool := 0 < row.seq && !row.recomputes sha256

/-- A canonical marker that hashes correctly and declares a format this build does not know. -/
structure FutureMarker (row : StoredRow) : Prop where
  seq : row.seq = 0
  content : ∃ c ∈ row.content, c.isCanonicalMarker ∧ (parseFormat c.op c.path).isUnknown
  recomputes : row.recomputes sha256

/-- Only a row that violates a rule is blamed, or one that is missing; and where there is
none, the format is. -/
structure NeverBlames (base : Option CompactionBase) (rows : List StoredRow) : Prop where
  blamed : ∀ seq, verifyRows sha256 base rows = .broken seq →
    (∃ before row after, rows = before ++ row :: after ∧ row.seq = seq ∧ Violates base before row) ∨
      Missing base rows seq
  clean : Clean base [] rows → (∀ seq, ¬Missing base rows seq) →
    ∃ declared first, verifyRows sha256 base rows = .unknownFormat declared journalFormat first

/-- The first row that violates a rule is linked but has a digest of another length, and a
mutation before it does not recompute. -/
def Misblamed (base : Option CompactionBase) (rows : List StoredRow) : Prop :=
  ∃ before row after, rows = before ++ row :: after ∧ Clean base [] before ∧ ¬Unlinked base before row ∧
    row.entryHash.length ≠ 32 ∧ ∃ r ∈ before, r.suspect sha256

end Rules

variable {sha256 : Bytes → Hash} {base : Option CompactionBase}

theorem clean_nil {before : List StoredRow} : Clean base before [] := by
  intro early row late same
  simp at same

theorem clean_cons {before rows : List StoredRow} {row : StoredRow} :
    Clean base before (row :: rows) ↔ ¬Violates base before row ∧ Clean base (before ++ [row]) rows := by
  constructor
  · intro clean
    refine ⟨by simpa using clean [] row rows rfl, ?_⟩
    intro early r late same
    simpa using clean (row :: early) r late (by rw [same]; rfl)
  · rintro ⟨first, rest⟩ early r late same
    cases early with
    | nil =>
      obtain ⟨rfl, _⟩ := List.cons.inj same
      simpa using first
    | cons e early =>
      obtain ⟨rfl, tail⟩ := List.cons.inj same
      simpa using rest early r late tail

/-- Where the walk stands after rows that violate nothing, the marker among them. -/
structure Walk.At (sha256 : Bytes → Hash) (base : Option CompactionBase) (before : List StoredRow) (w : Walk) :
    Prop where
  unknown : w.declared.isUnknown
  prev : before.getLast?.map StoredRow.entryHash = some w.prev.bytes
  base : w.base = if ∀ r ∈ before, r.seq ≤ 0 then base else none
  firstBad : w.firstBad = (before.find? (StoredRow.suspect sha256)).map fun r => r.seq

/-- A mutation enters behind the digest it has to follow, or does not continue the base. -/
theorem Walk.At.enter {before : List StoredRow} {w : Walk} (at_ : w.At sha256 base before) {row : StoredRow}
    (positive : 0 < row.seq) :
    Astray base before row ∧ w.enter row = .error row.seq ∨
      ¬Astray base before row ∧ ∃ prev : Hash, prev.bytes = expected base before row ∧
        w.enter row = .ok { w with base := none, prev := prev } := by
  have last : (before.getLast?.map StoredRow.entryHash).getD Hash.zero.bytes = w.prev.bytes := by
    rw [at_.prev, Option.getD_some]
  have own := at_.base
  obtain ⟨follows, prev, verified, declared, firstBad⟩ := w
  simp only at own last
  by_cases first : ∀ r ∈ before, r.seq ≤ 0
  · rw [if_pos first] at own
    subst own
    cases follows with
    | none =>
      refine .inr ⟨?_, prev, last.symm, Walk.enter_of_none rfl row⟩
      rintro ⟨b, none_, _⟩
      cases none_
    | some b =>
      have behind : formatSeq < row.seq := positive
      simp only [Walk.enter, if_pos behind]
      by_cases next : row.seq = b.throughSeq + 1
      · refine .inr ⟨?_, b.throughHash, ?_, if_neg (not_not.mpr next)⟩
        · rintro ⟨c, same, _, _, other⟩
          obtain rfl := Option.some.inj same
          exact other next
        · exact (if_pos ⟨positive, first⟩).symm
      · exact .inl ⟨⟨b, rfl, positive, first, next⟩, if_pos next⟩
  · rw [if_neg first] at own
    subst own
    refine .inr ⟨?_, prev, ?_, Walk.enter_of_none rfl row⟩
    · rintro ⟨b, _, _, all, _⟩
      exact first all
    · cases base with
      | none => exact last.symm
      | some b => exact last.symm.trans (if_neg fun both => first both.2).symm

/-- A row that recomputes is one that the walk counts. -/
theorem recomputes_linked {row : StoredRow} {prev : Hash} (linked : row.prevHash = prev.bytes)
    (wide : row.entryHash.length = 32) : row.recomputes sha256 =
      row.content.any fun c => chainHash sha256 prev (c.record row.seq) = ⟨row.entryHash, wide⟩ := by
  rw [StoredRow.recomputes, linked, Hash.ofBytes_bytes, Option.any_some]
  cases row.content with
  | none => rfl
  | some c =>
    simp only [Option.any_some]
    rw [Bool.eq_iff_iff, decide_eq_true_eq, decide_eq_true_eq, ← Hash.bytes_inj]

/-- The stored digest is carried on, and the first suspect is kept. -/
theorem Walk.At.mutation {before : List StoredRow} {w : Walk} (at_ : w.At sha256 base before) {row : StoredRow}
    (positive : 0 < row.seq) {prev : Hash} (linked : row.prevHash = prev.bytes) (wide : row.entryHash.length = 32) :
    Walk.At sha256 base (before ++ [row])
      (Walk.mutation sha256 { w with base := none, prev := prev } row ⟨row.entryHash, wide⟩) := by
  have entered : ¬∀ r ∈ before ++ [row], r.seq ≤ 0 := fun all =>
    absurd (all row (List.mem_append_right _ (List.mem_singleton_self row))) (not_le.mpr positive)
  have last : (before ++ [row]).getLast?.map StoredRow.entryHash = some row.entryHash := by
    rw [List.getLast?_append, List.getLast?_singleton, Option.some_or, Option.map_some]
  have vouched : row.recomputes sha256 =
      row.content.any fun c => chainHash sha256 prev (c.record row.seq) = ⟨row.entryHash, wide⟩ :=
    recomputes_linked linked wide
  unfold Walk.mutation
  simp only [← vouched]
  by_cases sound : row.recomputes sha256
  · rw [if_pos sound]
    refine ⟨at_.unknown, last, (if_neg entered).symm, ?_⟩
    have good : row.suspect sha256 = false := by simp [StoredRow.suspect, sound]
    simp [at_.firstBad, List.find?_append, good]
  · rw [if_neg sound]
    refine ⟨at_.unknown, last, (if_neg entered).symm, ?_⟩
    have bad : row.suspect sha256 := by simp [StoredRow.suspect, sound, positive]
    simp only [at_.firstBad, List.find?_append, List.find?_singleton, bad, ↓reduceIte]
    cases before.find? (StoredRow.suspect sha256) <;> rfl

/-- What one mutation does: it breaks the chain and is blamed, it has a digest of another
length and the first suspect is blamed, or the walk goes on. -/
theorem Walk.At.row {before : List StoredRow} {w : Walk} (at_ : w.At sha256 base before) {row : StoredRow}
    (positive : 0 < row.seq) :
    Unlinked base before row ∧ w.row sha256 row = .error row.seq ∨
      ¬Unlinked base before row ∧ row.entryHash.length ≠ 32 ∧
        w.row sha256 row = .error (w.firstBad.getD row.seq) ∨
      ¬Violates base before row ∧ ∃ w', w.row sha256 row = .ok w' ∧ w'.At sha256 base (before ++ [row]) := by
  rcases at_.enter positive with ⟨astray, refused⟩ | ⟨near, prev, follows, entered⟩
  · refine .inl ⟨.inr (.inr astray), ?_⟩
    rw [Walk.row, refused]
    rfl
  · have above : ¬row.seq < formatSeq := not_lt.mpr (Int.le_of_lt positive)
    rw [Walk.row, entered]
    simp only [bind, Except.bind, above, false_or, at_.unknown, ↓reduceIte]
    by_cases linked : row.prevHash = prev.bytes
    · have joined : ¬Unlinked base before row := by
        rintro (negative | unlinked | astray)
        · exact above negative
        · exact unlinked (linked.trans follows)
        · exact near astray
      rw [if_neg (not_not.mpr linked)]
      by_cases wide : row.entryHash.length = 32
      · have mutation : row.seq ≠ formatSeq := (Int.ne_of_lt positive).symm
        have stored : Hash.ofBytes row.entryHash = some ⟨row.entryHash, wide⟩ := dif_pos wide
        refine .inr (.inr ⟨fun violates => violates.elim joined (not_not.mpr wide), ?_⟩)
        simp only [stored, if_neg mutation]
        exact ⟨_, rfl, at_.mutation positive linked wide⟩
      · have none_ : Hash.ofBytes row.entryHash = none := dif_neg wide
        refine .inr (.inl ⟨joined, wide, ?_⟩)
        rw [none_]
    · rw [if_pos linked]
      refine .inl ⟨.inr (.inl fun same => linked (same.trans follows.symm)), rfl⟩

/-- A run over mutations: it ends at the first row that violates a rule, or has met none. -/
theorem Walk.At.rows {before : List StoredRow} {w : Walk} (at_ : w.At sha256 base before) {rows : List StoredRow}
    (positive : ∀ r ∈ rows, 0 < r.seq) :
    Clean base before rows ∧ (∃ w', w.rows sha256 rows = .ok w' ∧ w'.At sha256 base (before ++ rows)) ∨
      ∃ early row late, rows = early ++ row :: late ∧ Clean base before early ∧
        (Unlinked base (before ++ early) row ∧ w.rows sha256 rows = .error row.seq ∨
          ¬Unlinked base (before ++ early) row ∧ row.entryHash.length ≠ 32 ∧ w.rows sha256 rows =
            .error ((((before ++ early).find? (StoredRow.suspect sha256)).map fun r => r.seq).getD row.seq)) := by
  induction rows generalizing before w with
  | nil => exact .inl ⟨clean_nil, w, rfl, by rwa [List.append_nil]⟩
  | cons row rows ih =>
    rw [Walk.rows]
    rcases at_.row (positive row List.mem_cons_self) with
      ⟨unlinked, refused⟩ | ⟨linked, short, refused⟩ | ⟨lawful, w', taken, next⟩
    · refine .inr ⟨[], row, rows, rfl, clean_nil, .inl ?_⟩
      rw [List.append_nil, refused]
      exact ⟨unlinked, rfl⟩
    · refine .inr ⟨[], row, rows, rfl, clean_nil, .inr ?_⟩
      rw [List.append_nil, refused, at_.firstBad]
      exact ⟨linked, short, rfl⟩
    · rw [taken]
      rcases ih next fun r member => positive r (List.mem_cons_of_mem _ member) with
        ⟨clean, w'', walked, last⟩ | ⟨early, r, late, rfl, clean, broken⟩
      · rw [List.append_assoc] at last
        exact .inl ⟨clean_cons.mpr ⟨lawful, clean⟩, w'', walked, last⟩
      · refine .inr ⟨row :: early, r, late, rfl, clean_cons.mpr ⟨lawful, clean⟩, ?_⟩
        rw [List.append_assoc] at broken
        exact broken

/-- The first row of a journal from the future: the marker, unless it is itself broken, or
a row in front of it that nothing may have written. -/
theorem first_row {first : StoredRow} {rest : List StoredRow}
    (keyed : (first :: rest).Pairwise fun r s => r.seq < s.seq)
    (future : ∃ m ∈ first :: rest, FutureMarker sha256 m) :
    Unlinked base [] first ∧ (Walk.start base).row sha256 first = .error first.seq ∨
      ¬Violates base [] first ∧ first.seq = 0 ∧
        ∃ w, (Walk.start base).row sha256 first = .ok w ∧ w.At sha256 base [first] := by
  obtain ⟨m, member, marker⟩ := future
  have low : first.seq ≤ 0 := by
    rcases List.mem_cons.mp member with rfl | later
    · exact Int.le_of_eq marker.seq
    · have := (List.pairwise_cons.mp keyed).1 m later
      have := marker.seq
      omega
  have entered : (Walk.start base).enter first = .ok (Walk.start base) := by
    have metadata : ¬formatSeq < first.seq := not_lt.mpr low
    unfold Walk.enter
    split
    · rfl
    · rw [if_neg metadata]
  have follows : expected base [] first = Hash.zero.bytes := by
    cases base with
    | none => rfl
    | some b => exact if_neg fun both => absurd both.1 (not_lt.mpr low)
  rw [Walk.row, entered]
  simp only [bind, Except.bind]
  by_cases placed : first.seq < formatSeq ∨ first.prevHash ≠ (Walk.start base).prev.bytes
  · rw [if_pos placed]
    refine .inl ⟨?_, by rfl⟩
    rcases placed with negative | unlinked
    · exact .inl negative
    · exact .inr (.inl fun same => unlinked (same.trans follows))
  · rw [if_neg placed]
    obtain ⟨nonnegative, linked⟩ := not_or.mp placed
    have linked : first.prevHash = Hash.zero.bytes := not_not.mp linked
    have zero : first.seq = 0 := by
      simp only [formatSeq] at nonnegative
      omega
    obtain rfl : first = m := by
      rcases List.mem_cons.mp member with same | later
      · exact same.symm
      · have := (List.pairwise_cons.mp keyed).1 m later
        have := marker.seq
        omega
    obtain ⟨c, content, canonical, unknown⟩ := marker.content
    have hashed := marker.recomputes
    rw [StoredRow.recomputes, linked, Hash.ofBytes_bytes, Option.any_some, Option.mem_def.mp content,
      Option.any_some, decide_eq_true_eq] at hashed
    have digest : Hash.ofBytes first.entryHash = some (chainHash sha256 Hash.zero (c.record first.seq)) := by
      rw [← hashed, Hash.ofBytes_bytes]
    refine .inr ⟨?_, zero, ?_⟩
    · rintro ((negative | unlinked | ⟨_, _, positive, _⟩) | short)
      · exact nonnegative negative
      · exact unlinked (linked.trans follows.symm)
      · omega
      · rw [← hashed] at short
        exact short (Hash.length _)
    · have good : c.isCanonicalMarker ∧ chainHash sha256 (Walk.start base).prev (c.record first.seq) =
          chainHash sha256 Hash.zero (c.record first.seq) := ⟨canonical, rfl⟩
      simp only [digest, zero, formatSeq, ↓reduceIte, Walk.marker, Option.mem_def.mp content]
      rw [zero] at good
      rw [if_pos good]
      refine ⟨_, rfl, unknown, ?_, ?_, ?_⟩
      · rw [List.getLast?_singleton, Option.map_some, ← hashed, zero]
      · exact (if_pos fun r inside => by rw [List.mem_singleton.mp inside, zero]).symm
      · have metadata : first.suspect sha256 = false := by simp [StoredRow.suspect, zero]
        simp [Walk.start, metadata]

/-- What the walk says of a journal from the future. -/
theorem verify_outcome {rows : List StoredRow} (keyed : rows.Pairwise fun r s => r.seq < s.seq)
    (future : ∃ m ∈ rows, FutureMarker sha256 m) :
    Clean base [] rows ∧ ((∃ seq, Missing base rows seq ∧ verifyRows sha256 base rows = .broken seq) ∨
        (∀ seq, ¬Missing base rows seq) ∧
          ∃ declared first, verifyRows sha256 base rows = .unknownFormat declared journalFormat first) ∨
      ∃ before row after, rows = before ++ row :: after ∧ Clean base [] before ∧
        (Unlinked base before row ∧ verifyRows sha256 base rows = .broken row.seq ∨
          ¬Unlinked base before row ∧ row.entryHash.length ≠ 32 ∧ verifyRows sha256 base rows =
            .broken (((before.find? (StoredRow.suspect sha256)).map fun r => r.seq).getD row.seq)) := by
  cases rows with
  | nil =>
    obtain ⟨m, none_, _⟩ := future
    cases none_
  | cons marker rest =>
    rcases first_row keyed future with ⟨unlinked, refused⟩ | ⟨lawful, zero, w, taken, at_⟩
    · refine .inr ⟨[], marker, rest, rfl, clean_nil, .inl ⟨unlinked, ?_⟩⟩
      rw [verifyRows, Walk.rows, refused]
      rfl
    · have positive : ∀ r ∈ rest, 0 < r.seq := by
        intro r member
        rw [← zero]
        exact (List.pairwise_cons.mp keyed).1 r member
      rcases at_.rows positive with ⟨clean, w', walked, last⟩ | ⟨early, row, late, rfl, clean, broken⟩
      · refine .inl ⟨clean_cons.mpr ⟨lawful, clean⟩, ?_⟩
        have verdict : verifyRows sha256 base (marker :: rest) = w'.verdict := by
          rw [verifyRows, Walk.rows, taken]
          simp only [bind, Except.bind, walked]
        rw [verdict, Walk.verdict, last.base, if_pos last.unknown]
        by_cases alone : ∀ r ∈ [marker] ++ rest, r.seq ≤ 0
        · rw [if_pos alone]
          cases base with
          | none =>
            refine .inr ⟨?_, _, _, rfl⟩
            rintro seq ⟨b, none_, _⟩
            cases none_
          | some b => exact .inl ⟨b.throughSeq + 1, ⟨b, rfl, alone, rfl⟩, rfl⟩
        · rw [if_neg alone]
          refine .inr ⟨?_, _, _, rfl⟩
          rintro seq ⟨_, _, all, _⟩
          exact alone all
      · refine .inr ⟨marker :: early, row, late, rfl, clean_cons.mpr ⟨lawful, clean⟩, ?_⟩
        have verdict {seq : Int} (refused : w.rows sha256 (early ++ row :: late) = .error seq) :
            verifyRows sha256 base (marker :: (early ++ row :: late)) = .broken seq := by
          rw [verifyRows, Walk.rows, taken]
          simp only [bind, Except.bind, refused]
        rcases broken with ⟨unlinked, refused⟩ | ⟨linked, short, refused⟩
        · exact .inl ⟨unlinked, verdict refused⟩
        · exact .inr ⟨linked, short, verdict refused⟩

/-- A row that stands in a clean stretch violates nothing. -/
theorem Clean.lawful {before after : List StoredRow} {row other : StoredRow}
    (keyed : (before ++ row :: after).Pairwise fun r s => r.seq < s.seq) (clean : Clean base [] before)
    (inside : other ∈ before) {early late : List StoredRow} {blamed : StoredRow}
    (split : before ++ row :: after = early ++ blamed :: late) (same : blamed.seq = other.seq) :
    ¬Violates base early blamed := by
  have later : blamed ∉ row :: after := by
    intro member
    have := (List.pairwise_append.mp keyed).2.2 other inside blamed member
    omega
  rcases List.append_eq_append_iff.mp split with ⟨middle, rfl, tail⟩ | ⟨middle, rfl, tail⟩
  · rw [tail] at later
    exact absurd (List.mem_append_right _ List.mem_cons_self) later
  · cases middle with
    | nil =>
      rw [List.nil_append] at tail
      rw [← tail] at later
      exact absurd List.mem_cons_self later
    | cons r middle =>
      obtain ⟨rfl, _⟩ := List.cons.inj tail
      simpa using clean early blamed middle rfl

/-- The first row to violate a rule is one row. -/
theorem first_violation {before before' after after' : List StoredRow} {row row' : StoredRow}
    (split : before ++ row :: after = before' ++ row' :: after') (clean : Clean base [] before)
    (clean' : Clean base [] before') (violates : Violates base before row) (violates' : Violates base before' row') :
    before = before' ∧ row = row' := by
  rcases List.append_eq_append_iff.mp split with ⟨middle, rfl, tail⟩ | ⟨middle, rfl, tail⟩
  · cases middle with
    | nil => exact ⟨(List.append_nil _).symm, (List.cons.inj tail).1⟩
    | cons r middle =>
      obtain ⟨rfl, _⟩ := List.cons.inj tail
      exact absurd violates (by simpa using clean' before row middle rfl)
  · cases middle with
    | nil => exact ⟨List.append_nil _, (List.cons.inj tail).1.symm⟩
    | cons r middle =>
      obtain ⟨rfl, _⟩ := List.cons.inj tail
      exact absurd violates' (by simpa using clean before' row' middle rfl)

/-- The suspect in front of the row with the short digest is blamed for it. -/
theorem Misblamed.blames {rows : List StoredRow} (misblamed : Misblamed sha256 base rows)
    (keyed : rows.Pairwise fun r s => r.seq < s.seq) (future : ∃ m ∈ rows, FutureMarker sha256 m) :
    ¬NeverBlames sha256 base rows := by
  obtain ⟨before, row, after, split, clean, linked, short, r, listed, doubt⟩ := misblamed
  intro never
  rcases verify_outcome keyed future with ⟨all, _⟩ | ⟨before', row', after', split', clean', answer⟩
  · exact all before row after split (.inr short)
  · have violates' : Violates base before' row' := by
      rcases answer with ⟨unlinked, _⟩ | ⟨_, short', _⟩
      · exact .inl unlinked
      · exact .inr short'
    obtain ⟨rfl, rfl⟩ := first_violation (split.symm.trans split') clean clean' (.inr short) violates'
    rcases answer with ⟨unlinked, _⟩ | ⟨_, _, broken⟩
    · exact linked unlinked
    · obtain ⟨first, found⟩ : ∃ first, before.find? (StoredRow.suspect sha256) = some first := by
        apply Option.isSome_iff_exists.mp
        rw [List.find?_isSome]
        exact ⟨r, listed, doubt⟩
      rw [found] at broken
      have inside := List.mem_of_find?_eq_some found
      have suspect := List.find?_some found
      rcases never.blamed _ broken with ⟨early, blamed, late, other, same, violates⟩ | ⟨_, _, low, _⟩
      · rw [split] at keyed
        exact clean.lawful keyed inside (split.symm.trans other) same violates
      · have low := low first (by rw [split]; exact List.mem_append_left _ inside)
        rw [StoredRow.suspect, Bool.and_eq_true, decide_eq_true_eq] at suspect
        omega

/-- Of a journal from the future, a row that merely does not recompute is blamed exactly
when the first row to violate a rule does so by the length of its digest and comes after it. -/
theorem neverBlames_iff (sha256 : Bytes → Hash) (base : Option CompactionBase) (rows : List StoredRow)
    (keyed : rows.Pairwise fun r s => r.seq < s.seq) (future : ∃ m ∈ rows, FutureMarker sha256 m) :
    NeverBlames sha256 base rows ↔ ¬Misblamed sha256 base rows := by
  refine ⟨fun never misblamed => misblamed.blames keyed future never, fun fair => ?_⟩
  rcases verify_outcome keyed future with ⟨clean, answer⟩ | ⟨before, row, after, split, clean, answer⟩
  · rcases answer with ⟨seq, missing, broken⟩ | ⟨present, declared, first, unknown⟩
    · refine ⟨?_, fun _ present => absurd missing (present seq)⟩
      intro blamed same
      rw [broken] at same
      obtain rfl := ChainStatus.broken.inj same
      exact .inr missing
    · refine ⟨?_, fun _ _ => ⟨declared, first, unknown⟩⟩
      intro blamed same
      rw [unknown] at same
      cases same
  · have violates : Violates base before row := by
      rcases answer with ⟨unlinked, _⟩ | ⟨_, short, _⟩
      · exact .inl unlinked
      · exact .inr short
    have broken : verifyRows sha256 base rows = .broken row.seq := by
      rcases answer with ⟨_, broken⟩ | ⟨linked, short, broken⟩
      · exact broken
      · have none_ : before.find? (StoredRow.suspect sha256) = none := by
          rw [List.find?_eq_none]
          exact fun r inside suspect => fair ⟨before, row, after, split, clean, linked, short, r, inside, suspect⟩
        rw [none_] at broken
        exact broken
    refine ⟨?_, fun all => absurd violates (all before row after split)⟩
    intro seq same
    rw [broken] at same
    exact .inl ⟨before, row, after, split, ChainStatus.broken.inj same, violates⟩

/-! A marker of version 2, a row by rules unknown here, and a row after it. -/

def futureMarker : StoredRow := ((formatRecord 7 [0x32]).row sampleHash .zero).stored

def foreign : StoredRow :=
  ⟨1, some ((sampleEntry none).record 8 1).toVerifiedRow, futureMarker.entryHash, Hash.zero.bytes⟩

def following (digest : Bytes) : StoredRow :=
  ⟨2, some ((sampleEntry none).record 9 2).toVerifiedRow, foreign.entryHash, digest⟩

theorem futureMarker_future : FutureMarker sampleHash futureMarker where
  seq := by decide +kernel
  content := by
    refine ⟨(formatRecord 7 [0x32]).toVerifiedRow, rfl, ?_⟩
    decide +kernel
  recomputes := by decide +kernel

theorem clean_foreign : Clean none [] [futureMarker, foreign] := by
  have first : ¬Violates none [] futureMarker := by
    rintro ((negative | unlinked | ⟨_, none_, _⟩) | short)
    · exact absurd negative (by decide +kernel)
    · exact unlinked (by decide +kernel)
    · cases none_
    · exact short (by decide +kernel)
  have second : ¬Violates none [futureMarker] foreign := by
    rintro ((negative | unlinked | ⟨_, none_, _⟩) | short)
    · exact absurd negative (by decide +kernel)
    · exact unlinked rfl
    · cases none_
    · exact short (by decide +kernel)
  exact clean_cons.mpr ⟨first, clean_cons.mpr ⟨second, clean_nil⟩⟩

/-- The last row has no digest, and the row before it is blamed. -/
theorem foreign_blamed : ¬∀ (sha256 : Bytes → Hash) (base : Option CompactionBase) (rows : List StoredRow),
    (rows.Pairwise fun r s => r.seq < s.seq) → (∃ m ∈ rows, FutureMarker sha256 m) →
      NeverBlames sha256 base rows := by
  intro all
  have keyed : [futureMarker, foreign, following []].Pairwise fun r s => r.seq < s.seq := by decide +kernel
  have future : ∃ m ∈ [futureMarker, foreign, following []], FutureMarker sampleHash m :=
    ⟨futureMarker, List.mem_cons_self, futureMarker_future⟩
  have misblamed : Misblamed sampleHash none [futureMarker, foreign, following []] := by
    refine ⟨[futureMarker, foreign], following [], [], rfl, clean_foreign, ?_, by decide, foreign, ?_, ?_⟩
    · rintro (negative | unlinked | ⟨_, none_, _⟩)
      · exact absurd negative (by decide +kernel)
      · exact unlinked rfl
      · cases none_
    · exact List.mem_cons_of_mem _ List.mem_cons_self
    · decide +kernel
  exact misblamed.blames keyed future (all sampleHash none _ keyed future)

/-- With digests of the right length the format is blamed, not a row. -/
theorem neverBlames_iff_foreign : NeverBlames sampleHash none [futureMarker, foreign] := by
  have keyed : [futureMarker, foreign].Pairwise fun r s => r.seq < s.seq := by decide +kernel
  refine (neverBlames_iff sampleHash none [futureMarker, foreign] keyed
    ⟨futureMarker, List.mem_cons_self, futureMarker_future⟩).mpr ?_
  rintro ⟨before, row, after, split, _, _, short, _⟩
  exact clean_foreign before row after split (.inr short)

end Norte.Chain
