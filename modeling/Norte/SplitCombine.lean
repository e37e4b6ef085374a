import Norte.SplitRun

/-! The pieces joined back are the content, and what a split that failed leaves behind. -/
namespace Norte.FileSplit

variable {part n : Nat} {base : Segment} {content : Bytes} {d : Dir} {f : Faults}

/-! ### The directory of a split -/

theorem stat_placed (d : Dir) (base : Segment) (part : Nat) (content : Bytes) {i n : Nat} (less : i < n) :
    (placed d base part content n).stat (piece base (i + 1)) = some (.file (slice part content i)) := by
  induction n with
  | zero => exact absurd less (Nat.not_lt_zero i)
  | succ n ih =>
    rw [placed]
    by_cases last : i = n
    · subst last
      exact Dir.stat_put
    · rw [Dir.stat_put_of_ne fun same => last (Nat.succ_injective (piece_injective same))]
      exact ih (Nat.lt_of_le_of_ne (Nat.le_of_lt_succ less) last)

theorem stat_placed_of_lt (d : Dir) (base : Segment) (part : Nat) (content : Bytes) {i n : Nat} (later : n < i) :
    (placed d base part content n).stat (piece base i) = d.stat (piece base i) := by
  induction n with
  | zero => rfl
  | succ n ih =>
    rw [placed, Dir.stat_put_of_ne fun same => absurd (piece_injective same) (Nat.ne_of_gt later)]
    exact ih (Nat.lt_of_succ_lt later)

theorem mem_placed {e : Segment × Entry} (member : e ∈ placed d base part content n) :
    e ∈ d ∨ ∃ i < n, e.1 = piece base (i + 1) := by
  induction n with
  | zero => exact .inl member
  | succ n ih =>
    rcases Dir.mem_put member with rfl | rest
    · exact .inr ⟨n, Nat.lt_succ_self n, rfl⟩
    · rcases ih rest with old | ⟨i, less, its⟩
      · exact .inl old
      · exact .inr ⟨i, Nat.lt_succ_of_lt less, its⟩

/-- A piece among the entries is a name of the form. -/
theorem not_free {i : Nat} (few : i ≤ FILE_SPLIT_MAX_PARTS) {e : Segment × Entry} (member : e ∈ d)
    (its : e.1 = piece base i) : ¬d.Free base := by
  intro free
  have number := free e member
  rw [its, piece, pieceNumber_pieceName few] at number
  cases number

theorem mem_of_stat {name : Segment} {entry : Entry} (found : d.stat name = some entry) : ∃ e ∈ d, e.1 = name := by
  obtain ⟨e, first, -⟩ := Option.map_eq_some_iff.mp found
  exact ⟨e, List.mem_of_find?_eq_some first, by simpa using List.find?_some first⟩

theorem mem_removePieces (succeed : ∀ p, f.remove p = none) (published : List Segment) {e : Segment × Entry} :
    e ∈ removePieces f published d ↔ e ∈ d ∧ e.1 ∉ published := by
  rw [removePieces, ← @List.mem_reverse _ e.1 published]
  generalize published.reverse = ps
  induction ps generalizing d with
  | nil => simp
  | cons p ps ih =>
    rw [List.foldl_cons, succeed p, ih]
    simp [Dir.mem_remove, and_assoc]

theorem mem_names {p : Segment} : p ∈ names base n ↔ ∃ i < n, p = piece base (i + 1) := by
  simp [names, eq_comm]

/-! ### What a failed split leaves -/

/-- A failed call after which a piece stays: a record, a commit that took effect, or the opening
of a piece after the first. -/
def Faults.spills (f : Faults) : Op → Bool
  | .opening n => 2 ≤ n
  | op => f.leaves op

theorem Faults.leaves_piece {op : Op} (leaves : f.leaves op = true) :
    (∃ n, op.piece? = some n) ∧ op.undone = true ∧ f.spills op = true := by
  cases op with
  | row n => exact ⟨⟨n, rfl⟩, rfl, rfl⟩
  | commit n => exact ⟨⟨n, rfl⟩, rfl, leaves⟩
  | _ => cases leaves

theorem settle_free {op : Op} {e : Error} {k : Nat} (free : d.Free base) (succeed : ∀ p, f.remove p = none)
    (its : ∀ n, op.piece? = some n → n = k + 1 ∧ n ≤ FILE_SPLIT_MAX_PARTS) :
    ((exitAt f d base part content op e k).settle f).Free base ↔ f.spills op = false := by
  by_cases leaves : f.leaves op = true
  · obtain ⟨⟨n, number⟩, undone, spills⟩ := f.leaves_piece leaves
    obtain ⟨rfl, few⟩ := its n number
    obtain ⟨e', member, name⟩ := mem_of_stat (stat_placed d base part content (Nat.lt_succ_self k))
    have stays : e' ∈ (exitAt f d base part content op e k).settle f := by
      simp only [exitAt, Exit.settle, undone, leaves, if_true, mem_removePieces succeed]
      refine ⟨member, fun listed => ?_⟩
      obtain ⟨i, less, same⟩ := mem_names.mp listed
      have := piece_injective (name.symm.trans same)
      omega
    simp only [spills, Bool.true_eq_false, iff_false]
    exact not_free few stays name
  · by_cases opening : op.undone = true
    · have settled : (exitAt f d base part content op e k).settle f =
          removePieces f (names base k) (placed d base part content k) := by
        simp [exitAt, Exit.settle, opening, leaves]
      have spills : f.spills op = false := by
        cases op with
        | opening n => cases opening
        | _ => exact Bool.eq_false_iff.mpr leaves
      refine iff_of_true (fun e' member => ?_) spills
      rw [settled, mem_removePieces succeed] at member
      rcases mem_placed member.1 with old | new
      · exact free e' old
      · exact absurd (mem_names.mpr new) member.2
    · have settled : (exitAt f d base part content op e k).settle f = placed d base part content k := by
        simp [exitAt, Exit.settle, opening, leaves]
      cases op with
      | opening n =>
        obtain ⟨rfl, few⟩ := its n rfl
        rw [settled]
        cases k with
        | zero => exact iff_of_true free rfl
        | succ k =>
          obtain ⟨e', member, name⟩ := mem_of_stat
            (stat_placed d base part content (Nat.succ_pos k))
          refine iff_of_false (not_free ?_ member name) (by simp [Faults.spills])
          exact Nat.le_trans (by omega) few
      | _ => exact absurd rfl opening

/-! ### What combine makes of the pieces -/

theorem baseOf_piece (base : Segment) : baseOf (piece base 1).bytes = some base.bytes := by
  have three := length_padded_of_le (n := 1) (by decide)
  have length : (piece base 1).bytes.length - 4 = base.bytes.length := by
    simp only [piece, pieceName, List.length_append, List.length_singleton, three]
    omega
  have dot : (piece base 1).bytes[base.bytes.length]? = some 0x2E := by
    simp [piece, pieceName]
  have tail : (piece base 1).bytes.drop (base.bytes.length + 1) = Utf8.encode (padded 1) := List.drop_left' (by simp)
  have digits : (Utf8.encode (padded 1)).all isAsciiDigit = true := List.all_eq_true.mpr fun b => isAsciiDigit_padded
  have long : 4 ≤ (piece base 1).bytes.length := by
    simp only [piece, pieceName, List.length_append, List.length_singleton, three]
    omega
  rw [baseOf, length, if_pos ⟨long, dot, by rw [tail]; exact digits⟩]
  simp [piece, pieceName]

/-- The pieces from number `k + 1` on, each with its size. -/
def listed (base : Segment) (part : Nat) (content : Bytes) (k m : Nat) : List (Segment × Nat) :=
  (List.range' k m).map fun i => (piece base (i + 1), (slice part content i).length)

theorem listed_succ (base : Segment) (part : Nat) (content : Bytes) (k m : Nat) :
    listed base part content k (m + 1) =
      (piece base (k + 1), (slice part content k).length) :: listed base part content (k + 1) m := by
  simp [listed, List.range'_succ]

theorem listFrom_placed (part : Nat) (content : Bytes) (free : d.Free base) (few : n ≤ FILE_SPLIT_MAX_PARTS)
    (more : n = FILE_SPLIT_MAX_PARTS → d.stat (piece base (FILE_SPLIT_MAX_PARTS + 1)) = none) {k m : Nat}
    (rest : k + m = n) (next : k < FILE_SPLIT_MAX_PARTS) :
    listFrom (placed d base part content n) base.bytes (k + 1) = .ok (listed base part content k m) := by
  induction m generalizing k with
  | zero =>
    obtain rfl : k = n := rest
    have none_ := (stat_placed_of_lt d base part content (Nat.lt_succ_self k)).trans (free.stat next)
    rw [listFrom]
    simp [new_pieceName, none_, listed]
  | succ m ih =>
    have here := stat_placed d base part content (i := k) (n := n) (by omega)
    rw [listFrom]
    simp only [new_pieceName, here]
    by_cases last : FILE_SPLIT_MAX_PARTS < k + 1 + 1
    · obtain rfl : m = 0 := by omega
      have whole : n = FILE_SPLIT_MAX_PARTS := by omega
      have none_ : (placed d base part content n).stat (piece base (k + 1 + 1)) = none := by
        rw [stat_placed_of_lt d base part content (by omega)]
        have number : k + 1 + 1 = FILE_SPLIT_MAX_PARTS + 1 := by omega
        rw [number]
        exact more whole
      simp [last, none_, listed]
    · have later := ih (k := k + 1) (by omega) (by omega)
      simp only [last, ↓reduceDIte, later, listed_succ]
      rfl

theorem hasPiecesAbove_placed (part : Nat) (content : Bytes) (free : d.Free base) (few : n ≤ FILE_SPLIT_MAX_PARTS) :
    hasPiecesAbove (placed d base part content n) base.bytes n = false := by
  rw [hasPiecesAbove, List.any_eq_false]
  intro e member
  rcases mem_placed member with old | ⟨i, less, its⟩
  · simp [free e old]
  · rw [its, piece, pieceNumber_pieceName (Nat.le_trans less few)]
    simpa using Nat.succ_le_of_lt less

theorem length_slice {i : Nat} (whole : (i + 1) * part ≤ content.length) : (slice part content i).length = part := by
  rw [Nat.succ_mul] at whole
  rw [slice, List.length_take, List.length_drop]
  omega

theorem pieceCount_bounds (positive : 0 < part) (content : Bytes) :
    content.length ≤ pieceCount part content * part ∧ ∀ i, i + 1 < pieceCount part content → (i + 1) * part ≤ content.length := by
  have position := Nat.div_add_mod content.length part
  rw [Nat.mul_comm] at position
  have remainder := Nat.mod_lt content.length positive
  have upto {i : Nat} (less : i + 1 ≤ content.length / part) : (i + 1) * part ≤ content.length / part * part :=
    Nat.mul_le_mul_right part less
  by_cases exact_ : content.length % part = 0
  · rw [pieceCount, if_pos exact_, Nat.add_zero]
    refine ⟨by omega, fun i less => ?_⟩
    have := upto (Nat.le_of_lt less)
    omega
  · rw [pieceCount, if_neg exact_, Nat.succ_mul]
    refine ⟨by omega, fun i less => ?_⟩
    have := upto (Nat.le_of_lt_succ less)
    omega

theorem pieceCount_le (positive : 0 < part) (few : content.length ≤ FILE_SPLIT_MAX_PARTS * part) :
    pieceCount part content ≤ FILE_SPLIT_MAX_PARTS := by
  have whole : content.length / part ≤ FILE_SPLIT_MAX_PARTS := Nat.div_le_of_le_mul (by rwa [Nat.mul_comm])
  by_cases exact_ : content.length % part = 0
  · rwa [pieceCount, if_pos exact_]
  · rw [pieceCount, if_neg exact_]
    refine Nat.succ_le_of_lt ((Nat.div_lt_iff_lt_mul positive).mpr (Nat.lt_of_le_of_ne few fun same => exact_ ?_))
    rw [same, Nat.mul_mod_left]

theorem pieceCount_eq_zero (positive : 0 < part) : pieceCount part content = 0 ↔ content = [] := by
  have bounds := (pieceCount_bounds positive content).1
  constructor
  · intro zero
    rw [zero, Nat.zero_mul] at bounds
    exact List.length_eq_zero_iff.mp (Nat.le_zero.mp bounds)
  · rintro rfl
    simp [pieceCount]

theorem listed_sizes (base : Segment) (positive : 0 < part) {m : Nat} (count : m + 1 = pieceCount part content) :
    ((listed base part content 0 (m + 1)).dropLast.any fun p => p.2 ≠ (slice part content 0).length) = false := by
  have bounds := (pieceCount_bounds positive content).2
  have before : (listed base part content 0 (m + 1)).dropLast = listed base part content 0 m := by
    simp [listed, List.range'_1_concat]
  rw [before, List.any_eq_false]
  intro p member
  obtain ⟨i, inside, rfl⟩ := List.mem_map.mp member
  have less := List.mem_range'_1.mp inside
  have first := length_slice (bounds 0 (by omega))
  have this := length_slice (bounds i (by omega))
  simp [first, this]

theorem foldl_append_flatten (bs : List Bytes) (written : Bytes) : bs.foldl (· ++ ·) written = written ++ bs.flatten := by
  induction bs generalizing written with
  | nil => simp
  | cons b bs ih => rw [List.foldl_cons, ih, List.flatten_cons, List.append_assoc]

theorem writeCombined_placed (chunks : Chunking) (d : Dir) (base : Segment) (part : Nat) (content : Bytes) {k m : Nat} (rest : k + m = n) (written : Bytes) :
    writeCombined chunks (placed d base part content n) (listed base part content k m) written =
      .ok (written ++ ((List.range' k m).map (slice part content)).flatten) := by
  induction m generalizing k written with
  | zero => simp [listed, writeCombined]
  | succ m ih =>
    have here := stat_placed d base part content (i := k) (n := n) (by omega)
    rw [listed_succ, writeCombined]
    simp only [here]
    rw [ih (by omega), foldl_append_flatten, chunks.whole, List.range'_succ, List.map_cons, List.flatten_cons,
      List.append_assoc]

theorem range_slices (n : Nat) : (List.range' 0 n).map (slice part content) = slices part content n := by
  rw [slices, List.range_eq_range']

theorem flatten_pieces (positive : 0 < part) (content : Bytes) :
    (slices part content (pieceCount part content)).flatten = content := by
  rw [flatten_slices, List.take_of_length_le (pieceCount_bounds positive content).1]

/-- A four-digit piece next to a full set, which `list_pieces` refuses. -/
def Extra (d : Dir) (base : Segment) (count : Nat) : Prop :=
  count = FILE_SPLIT_MAX_PARTS ∧ d.stat (piece base (FILE_SPLIT_MAX_PARTS + 1)) ≠ none

theorem listPieces_placed (base : Segment) (positive : 0 < part) (few : content.length ≤ FILE_SPLIT_MAX_PARTS * part)
    (free : d.Free base) (some_ : content ≠ []) (alone : ¬Extra d base (pieceCount part content)) :
    listPieces (placed d base part content (pieceCount part content)) base.bytes =
      .ok (listed base part content 0 (pieceCount part content)) := by
  have fewer := pieceCount_le positive few
  obtain ⟨m, count⟩ := Nat.exists_eq_succ_of_ne_zero fun zero => some_ ((pieceCount_eq_zero positive).mp zero)
  have sizes := listed_sizes base positive count.symm
  rw [count] at fewer alone ⊢
  have listing := listFrom_placed part content free fewer
    (fun full => Classical.not_not.mp fun more => alone ⟨full, more⟩) (Nat.zero_add _) (by decide)
  have above := hasPiecesAbove_placed part content free fewer
  have length : (listed base part content 0 (m + 1)).length = m + 1 := by simp [listed]
  rw [listPieces, listing]
  rw [listed_succ] at sizes length ⊢
  simp only [bind, Except.bind, length, above, sizes]
  rfl

theorem combine_placed (positive : 0 < part) (few : content.length ≤ FILE_SPLIT_MAX_PARTS * part) (free : d.Free base)
    (some_ : content ≠ []) (alone : ¬Extra d base (pieceCount part content)) (chunks : Chunking) {destDir : Dir}
    {dest : Segment} (vacant : destDir.stat dest = none) :
    combine chunks (placed d base part content (pieceCount part content)) (piece base 1) destDir dest =
      .ok (destDir.put dest content) := by
  have listing := listPieces_placed base positive few free some_ alone
  have written := writeCombined_placed chunks d base part content (Nat.zero_add (pieceCount part content)) []
  rw [range_slices, flatten_pieces positive, List.nil_append] at written
  simp only [combine, baseOf_piece, listing, bind, Except.bind, vacant, written]
  rfl

/-- With one piece more than a set can have, the loop ends in the refusal. -/
theorem listFrom_extra (extra : d.stat (piece base (FILE_SPLIT_MAX_PARTS + 1)) ≠ none) {k m : Nat}
    (rest : k + (m + 1) = FILE_SPLIT_MAX_PARTS) :
    listFrom (placed d base part content FILE_SPLIT_MAX_PARTS) base.bytes (k + 1) = .error limit := by
  have here := stat_placed d base part content (i := k) (n := FILE_SPLIT_MAX_PARTS) (by omega)
  induction m generalizing k with
  | zero =>
    have more : (placed d base part content FILE_SPLIT_MAX_PARTS).stat (piece base (k + 1 + 1)) =
        d.stat (piece base (FILE_SPLIT_MAX_PARTS + 1)) := by
      rw [stat_placed_of_lt d base part content (by omega)]
      rw [show k + 1 + 1 = FILE_SPLIT_MAX_PARTS + 1 by omega]
    have last : FILE_SPLIT_MAX_PARTS < k + 1 + 1 := by omega
    rw [listFrom]
    simp only [new_pieceName, here, last, ↓reduceDIte, more, Option.isSome_iff_ne_none.mpr extra, if_true]
  | succ m ih =>
    have later := ih (k := k + 1) (by omega) (stat_placed d base part content (by omega))
    have last : ¬FILE_SPLIT_MAX_PARTS < k + 1 + 1 := by omega
    rw [listFrom]
    simp only [new_pieceName, here, last, ↓reduceDIte, later]
    rfl

/-- Without a piece, or with one too many, the pieces are not joined. -/
theorem combine_refuses (positive : 0 < part) (free : d.Free base)
    (unsound : content = [] ∨ Extra d base (pieceCount part content)) (chunks : Chunking) (destDir destDir' : Dir)
    (dest : Segment) :
    combine chunks (placed d base part content (pieceCount part content)) (piece base 1) destDir dest ≠ .ok destDir' := by
  have refused : ∃ e, listPieces (placed d base part content (pieceCount part content)) base.bytes = .error e := by
    rcases unsound with rfl | ⟨full, extra⟩
    · rw [(pieceCount_eq_zero positive).mpr rfl, placed, listPieces, listFrom]
      simp only [new_pieceName, free.stat (n := 1) (by decide)]
      exact ⟨.notFound, rfl⟩
    · rw [full, listPieces, listFrom_extra extra (k := 0) (m := FILE_SPLIT_MAX_PARTS - 1) (by decide)]
      exact ⟨limit, rfl⟩
  obtain ⟨e, refused⟩ := refused
  simp [combine, baseOf_piece, refused, bind, Except.bind]

/-! ### Split, then combine -/

/-- Split then combine is the identity, and a failed split leaves nothing. -/
structure SplitsWell (f : Faults) (src : Source) (chunks : Chunking) (part : Nat) (d : Dir) : Prop where
  pieces : (split f src chunks part d).1 = .ok () →
    ∃ ps : List Bytes,
      (∀ i < FILE_SPLIT_MAX_PARTS, (split f src chunks part d).2.stat (piece src.name (i + 1)) = ps[i]?.map .file) ∧
      ps.flatten = src.content ∧ ∀ p ∈ ps.dropLast, p.length = part
  joins : (split f src chunks part d).1 = .ok () → ∀ (chunks' : Chunking) (destDir : Dir) (dest : Segment),
    destDir.stat dest = none →
      combine chunks' (split f src chunks part d).2 (piece src.name 1) destDir dest = .ok (destDir.put dest src.content)
  failed : (split f src chunks part d).1 ≠ .ok () → (∀ p, f.remove p = none) →
    (split f src chunks part d).2.Free src.name

/-- No call fails, there is a byte to split and no fourth digit next to a full set; or the first
call that fails is none of those that leave a piece. -/
def Sound (f : Faults) (src : Source) (chunks : Chunking) (part : Nat) (d : Dir) : Prop :=
  (f.first (schedule part (chunks.cut src.content)) = none →
      src.content ≠ [] ∧ ¬Extra d src.name (pieceCount part src.content)) ∧
    ∀ op, f.first (schedule part (chunks.cut src.content)) = some op → (∀ p, f.remove p = none) → f.spills op = false

theorem slices_pieces (positive : 0 < part) (base : Segment) (content : Bytes) (free : d.Free base) :
    (∀ i < FILE_SPLIT_MAX_PARTS, (placed d base part content (pieceCount part content)).stat (piece base (i + 1)) =
        (slices part content (pieceCount part content))[i]?.map .file) ∧
      ∀ p ∈ (slices part content (pieceCount part content)).dropLast, p.length = part := by
  refine ⟨fun i fewer => ?_, fun p member => ?_⟩
  · by_cases less : i < pieceCount part content
    · simp [stat_placed d base part content less, slices, less]
    · rw [stat_placed_of_lt d base part content (by omega), free.stat fewer]
      simp [slices, less]
  · obtain ⟨m, count⟩ | zero : (∃ m, pieceCount part content = m + 1) ∨ pieceCount part content = 0 := by
      cases pieceCount part content with
      | zero => exact .inr rfl
      | succ m => exact .inl ⟨m, rfl⟩
    · rw [count, slices_succ, List.dropLast_concat] at member
      obtain ⟨i, inside, rfl⟩ := List.mem_map.mp member
      have less := List.mem_range.mp inside
      exact length_slice ((pieceCount_bounds positive content).2 i (by omega))
    · rw [zero] at member
      exact absurd member List.not_mem_nil

theorem SplitsWell.sound {src : Source} {chunks : Chunking} (enough : FILE_SPLIT_MIN_BYTES ≤ part)
    (few : src.content.length ≤ FILE_SPLIT_MAX_PARTS * part) (free : d.Free src.name)
    (well : SplitsWell f src chunks part d) : Sound f src chunks part d := by
  have positive : 0 < part := Nat.lt_of_lt_of_le (by decide) enough
  rcases split_made (f := f) chunks enough few free with ⟨quiet, ran⟩ | ⟨op, e, k, failed, its, ran⟩
  · refine ⟨fun _ => ?_, fun op some_ => ?_⟩
    · have joined := well.joins (by rw [ran]) chunks [] src.name rfl
      rw [ran] at joined
      by_contra unsound
      rw [not_and_or, not_not, not_not] at unsound
      exact combine_refuses positive free unsound chunks _ _ _ joined
    · rw [quiet] at some_
      cases some_
  · refine ⟨fun none_ => ?_, fun op' first succeed => ?_⟩
    · rw [failed] at none_
      cases none_
    · rw [failed] at first
      obtain rfl := Option.some.inj first
      have left := well.failed (by rw [ran]; simp) succeed
      rw [ran] at left
      exact (settle_free free succeed its).mp left

theorem Sound.splitsWell {src : Source} {chunks : Chunking} (enough : FILE_SPLIT_MIN_BYTES ≤ part)
    (few : src.content.length ≤ FILE_SPLIT_MAX_PARTS * part) (free : d.Free src.name)
    (sound : Sound f src chunks part d) : SplitsWell f src chunks part d := by
  have positive : 0 < part := Nat.lt_of_lt_of_le (by decide) enough
  rcases split_made (f := f) chunks enough few free with ⟨quiet, ran⟩ | ⟨op, e, k, failed, its, ran⟩
  · obtain ⟨some_, alone⟩ := sound.1 quiet
    obtain ⟨there, sizes⟩ := slices_pieces positive src.name src.content free
    refine ⟨fun _ => ?_, fun _ chunks' destDir dest vacant => ?_, fun other => ?_⟩
    · rw [ran]
      exact ⟨_, there, flatten_pieces positive src.content, sizes⟩
    · rw [ran]
      exact combine_placed positive few free some_ alone chunks' vacant
    · rw [ran] at other
      exact absurd rfl other
  · refine ⟨fun ok => ?_, fun ok => ?_, fun _ succeed => ?_⟩
    · rw [ran] at ok
      cases ok
    · rw [ran] at ok
      cases ok
    · rw [ran]
      exact (settle_free free succeed its).mpr (sound.2 op failed succeed)

theorem splitsWell_iff (f : Faults) (src : Source) (chunks : Chunking) (enough : FILE_SPLIT_MIN_BYTES ≤ part)
    (few : src.content.length ≤ FILE_SPLIT_MAX_PARTS * part) (free : d.Free src.name) :
    SplitsWell f src chunks part d ↔ Sound f src chunks part d :=
  ⟨SplitsWell.sound enough few free, Sound.splitsWell enough few free⟩

/-! A file of one byte more than a piece, in one chunk, and one without a byte. -/

theorem flatten_single (bytes : Bytes) : [bytes].flatten = bytes := List.flatten_singleton

def oneChunk : Chunking := ⟨fun bytes => [bytes], flatten_single⟩

theorem free_nil (base : Segment) : Dir.Free [] base := fun _ member => absurd member List.not_mem_nil

def longFile : Source where
  name := ⟨[0x61], Segment.valid_a⟩
  content := List.replicate 4097 0
  size := none
  honest := .inl rfl

def emptyFile : Source where
  name := ⟨[0x61], Segment.valid_a⟩
  content := []
  size := none
  honest := .inl rfl

/-- The disk is full when the second piece is opened. -/
def secondFull : Faults := { opening := fun n => if n = 2 then some .noSpace else none }

theorem length_longFile : longFile.content.length = 4097 := List.length_replicate

theorem few_longFile : longFile.content.length ≤ FILE_SPLIT_MAX_PARTS * 4096 := by
  rw [length_longFile]
  decide

theorem cuts_longFile : cuts 4096 0 0 4097 = [.opening 1, .write 0 1, .commit 1, .row 1, .opening 2, .write 0 2] := by
  simp [cuts]

theorem first_secondFull : secondFull.first (schedule 4096 (oneChunk.cut longFile.content)) = some (.opening 2) := by
  simp only [oneChunk, schedule, chunkOps, length_longFile, cuts_longFile]
  rfl

/-- The commit of the second piece fails; the first is removed again. -/
def secondLost : Faults := { commit := fun n => if n = 2 then some (.io true, false) else none }

theorem longFile_ne_nil : longFile.content ≠ [] := List.ne_nil_of_length_pos (by rw [length_longFile]; decide)

theorem sound_longFile : Sound {} longFile oneChunk 4096 [] := by
  refine ⟨fun _ => ⟨longFile_ne_nil, fun extra => extra.2 rfl⟩, fun op first _ => ?_⟩
  have failing := List.find?_some first
  cases op <;> simp [Faults.error] at failing

theorem sound_secondLost : Sound secondLost longFile oneChunk 4096 [] := by
  refine ⟨fun _ => ⟨longFile_ne_nil, fun extra => extra.2 rfl⟩, fun op first _ => ?_⟩
  have failing := List.find?_some first
  cases op <;> simp [Faults.error, secondLost] at failing
  subst failing
  rfl

/-- A file of two pieces is split and joined again; where the second is lost nothing is left. -/
theorem splitsWell_longFile : (Sound {} longFile oneChunk 4096 [] ∧ SplitsWell {} longFile oneChunk 4096 []) ∧
    Sound secondLost longFile oneChunk 4096 [] ∧ SplitsWell secondLost longFile oneChunk 4096 [] := by
  have free : Dir.Free [] longFile.name := free_nil _
  exact ⟨⟨sound_longFile, (splitsWell_iff {} longFile oneChunk (by decide) few_longFile free).mpr sound_longFile⟩,
    sound_secondLost, (splitsWell_iff secondLost longFile oneChunk (by decide) few_longFile free).mpr sound_secondLost⟩

/-- The first piece stays when the second cannot be opened; of an empty file there is no piece. -/
theorem splits_badly : ¬SplitsWell secondFull longFile oneChunk 4096 [] ∧ ¬SplitsWell {} emptyFile oneChunk 4096 [] := by
  constructor
  · intro well
    have spills := (well.sound (by decide) few_longFile (free_nil _)).2 _ first_secondFull fun p => rfl
    cases spills
  · intro well
    refine ((well.sound (by decide) (by decide) (free_nil _)).1 ?_).1 rfl
    refine List.find?_eq_none.mpr fun op _ => ?_
    cases op <;> simp [Faults.error]

end Norte.FileSplit
