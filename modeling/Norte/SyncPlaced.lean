import Norte.SyncSpelt

/-! What each acting step of a plan without a blocker is about: the event of the comparison that
its row tells of, the entries it reads and writes over, and the directory it writes in. -/
namespace Norte.Compare

/-- A row of one side tells of no pair of names. -/
theorem intoRow_unpaired {row : PendingRow} {names : Names} {k : Nat} {s : Sync.DescendSide} (missing : row.entry s = none) :
    (row.intoRow names k).pairedUnder = none := by
  cases row with
  | decision d left right =>
    cases s with
    | left =>
      obtain rfl : left = none := missing
      rfl
    | right =>
      obtain rfl : right = none := missing
      cases left <;> rfl
  | flagged left right verdict criterion reason side =>
    cases s with
    | left =>
      obtain rfl : left = none := missing
      rfl
    | right =>
      obtain rfl : right = none := missing
      cases left <;> rfl

end Norte.Compare

namespace Norte.Compare.Comparison

open Sync MergeJoin StackWalk

variable {c : Comparison} {listed : Listed} {j : Joined (Bytes × Entry) (Bytes × Entry)} {s : DescendSide}
  {x y : Bytes × Entry} {l r : Entry}

/-- The verdict of an event that has one side. -/
theorem joinedRow_alone (on : joinedOn s j = some x) (none_ : joinedOn s.other j = none) :
    (c.joinedRow listed j).verdict =
      if ((listed.side s.other).collided x.1).isSome then .ambiguous else orphanVerdict s := by
  cases j with
  | left z =>
    cases s with
    | left =>
      obtain rfl := Option.some.inj on
      cases why : listed.right.collided z.1 <;> simp [joinedRow, sideOutcome, why, Listed.side, DescendSide.other, PendingRow.verdict,
        orphanVerdict, Decision.onlyLeft, Decision.rung]
    | right => cases on
  | right z =>
    cases s with
    | left => cases on
    | right =>
      obtain rfl := Option.some.inj on
      cases why : listed.left.collided z.1 <;> simp [joinedRow, sideOutcome, why, Listed.side, DescendSide.other, PendingRow.verdict,
        orphanVerdict, Decision.onlyRight, Decision.rung]
  | both z z' => cases s <;> cases none_

/-- A row of a pair is an error, or says how the two are. -/
theorem pairOutcome_verdict (c : Comparison) (l r : Entry) :
    (c.pairOutcome l r).verdict = .error ∨ (c.pairOutcome l r).verdict = .same ∨
      (c.pairOutcome l r).verdict = .different ∨ (c.pairOutcome l r).verdict = .typeMismatch := by
  simp only [pairOutcome]
  split
  · exact .inl rfl
  · split
    · rename_i decided
      exact .inr (verdictForPair_verdict decided)
    · exact .inl rfl

/-- Two entries of different kinds are never compared further. -/
theorem pairOutcome_mismatch (kinds : l.kind ≠ r.kind) : (c.pairOutcome l r).verdict = .typeMismatch := by
  have files : ¬(l.kind = .file ∧ r.kind = .file) := fun both => kinds (both.1.trans both.2.symm)
  simp [pairOutcome, hydrateRungs, files, verdictForPair, Cascade.decide, Cascade.cheapRungs, kinds, Decision.rung,
    PendingRow.verdict]

/-- Two directories are the same, and certainly. -/
theorem pairOutcome_certain (left : l.kind = .dir) (right : r.kind = .dir) (names : Names) (k : Nat) :
    ((c.pairOutcome l r).intoRow names k).confidence = .certain := by
  simp [pairOutcome, hydrateRungs, left, verdictForPair, Cascade.decide, Cascade.cheapRungs, right,
    Decision.rung, PendingRow.intoRow, Decision.intoRow]

/-- The row of an event that has both sides. -/
theorem joinedRow_pair (on : joinedOn s j = some x) (on' : joinedOn s.other j = some y) :
    c.joinedRow listed j = match s with | .left => c.pairOutcome x.2 y.2 | .right => c.pairOutcome y.2 x.2 := by
  cases s with
  | left =>
    cases j with
    | left z => cases on'
    | right z => cases on
    | both z z' =>
      obtain rfl := Option.some.inj on
      obtain rfl := Option.some.inj on'
      rfl
  | right =>
    cases j with
    | left z => cases on
    | right z => cases on'
    | both z z' =>
      obtain rfl := Option.some.inj on
      obtain rfl := Option.some.inj on'
      rfl

end Norte.Compare.Comparison

namespace Norte.Sync

open Compare (Comparison Frame Listed joinedOn SameEntry)
open MergeJoin StackWalk
open Transducer

/-- No blocker is in the plan. -/
def Unblocked (opts : SyncOptions) (rows : List CompareRow) : Prop := ∀ blocker, .blocker blocker ∉ fullPlan rows opts

/-- The event of a comparison that a row tells of. -/
structure Tells (c : Comparison) (f : Frame) (lefts rights : List Entry) (j : Joined (Bytes × Entry) (Bytes × Entry))
    (row : CompareRow) : Prop extends Comparison.Event c f lefts rights j where
  row : ∃ k, row = (c.joinedRow (c.index f lefts rights) j).intoRow c.names k

/-- The directory above a path that something else is above. -/
theorem exists_parent {top path : VPath} (above : HangsOff top path) (other : top ≠ path) :
    ∃ dir, Child dir path ∧ HangsOff top dir := by
  obtain ⟨rel, named⟩ := relUnder_of_hangsOff above
  have at_ := eq_under_of_relUnder named
  rcases List.eq_nil_or_concat rel.segments with nil | ⟨first, last, whole⟩
  · exact absurd (by simp [at_, under_eq, nil]) other
  · refine ⟨under top ⟨first⟩, ⟨last, ?_⟩, Compare.Comparison.hangsOff_under _ _⟩
    rw [at_, ← under_join, ← List.concat_eq_append, ← whole]

variable {c : Comparison} {s : DescendSide} {rows before : List CompareRow} {opts : SyncOptions} {row row' : CompareRow}
  {f g : Frame} {lefts rights : List Entry} {j : Joined (Bytes × Entry) (Bytes × Entry)} {x y : Bytes × Entry} {d e e' : Entry}

namespace Tells

theorem entry (tells : Tells c f lefts rights j row) (on : joinedOn s j = some x) :
    ∃ e, Compare.rowEntry row s = some e ∧ SameEntry e x.2 := by
  obtain ⟨k, rfl⟩ := tells.row
  have own := c.joinedRow_entry (c.index f lefts rights) j s
  rw [on] at own
  rwa [Compare.intoRow_entry]

theorem no_entry (tells : Tells c f lefts rights j row) (none_ : joinedOn s j = none) : Compare.rowEntry row s = none := by
  obtain ⟨k, rfl⟩ := tells.row
  have own := c.joinedRow_entry (c.index f lefts rights) j s
  rw [none_] at own
  rwa [Compare.intoRow_entry]

theorem on_of_entry (tells : Tells c f lefts rights j row) (there : Compare.rowEntry row s = some e) :
    ∃ x, joinedOn s j = some x ∧ SameEntry e x.2 := by
  cases on : joinedOn s j with
  | none =>
    rw [tells.no_entry on] at there
    cases there
  | some x =>
    obtain ⟨e', there', same⟩ := tells.entry on
    obtain rfl := Option.some.inj (there.symm.trans there')
    exact ⟨x, rfl, same⟩

/-- A row tells of one event. -/
theorem unique {lefts' rights' : List Entry} {j' : Joined (Bytes × Entry) (Bytes × Entry)} (tells : Tells c f lefts rights j row)
    (tells' : Tells c g lefts' rights' j' row) (on : joinedOn s j = some x) :
    f = g ∧ lefts = lefts' ∧ rights = rights' ∧ j = j' := by
  obtain ⟨e, there, same⟩ := tells.entry on
  obtain ⟨x', on', same'⟩ := tells'.on_of_entry there
  exact tells.toEvent.unique tells'.toEvent on on' (same.1.symm.trans same'.1)

theorem clean (tells : Tells c f lefts rights j row) : Compare.isListingError row = false := by
  obtain ⟨k, rfl⟩ := tells.row
  rw [Compare.intoRow_listingError]
  exact c.joinedRow_listingError _ j

theorem alone_verdict (tells : Tells c f lefts rights j row) (on : joinedOn s j = some x) (none_ : joinedOn s.other j = none) :
    row.verdict = if (((c.index f lefts rights).side s.other).collided x.1).isSome then .ambiguous else Compare.orphanVerdict s := by
  obtain ⟨k, rfl⟩ := tells.row
  rw [Compare.intoRow_verdict, Comparison.joinedRow_alone on none_]

/-- What the verdict of an orphan says. -/
theorem orphan (tells : Tells c f lefts rights j row) (verdict : row.verdict = Compare.orphanVerdict s) :
    ∃ x, joinedOn s j = some x ∧ joinedOn s.other j = none ∧ ((c.index f lefts rights).side s.other).collided x.1 = none := by
  have alone {s' : DescendSide} {x : Bytes × Entry} (on : joinedOn s' j = some x) (none_ : joinedOn s'.other j = none) :
      ∃ x, joinedOn s j = some x ∧ joinedOn s.other j = none ∧ ((c.index f lefts rights).side s.other).collided x.1 = none := by
    rw [tells.alone_verdict on none_] at verdict
    split at verdict
    · cases s <;> cases verdict
    · rename_i clear
      have same : s' = s := by
        cases s <;> cases s' <;> first | rfl | cases verdict
      subst same
      exact ⟨x, on, none_, Option.not_isSome_iff_eq_none.mp clear⟩
  cases j with
  | left z => exact @alone .left z rfl rfl
  | right z => exact @alone .right z rfl rfl
  | both z z' =>
    obtain ⟨k, rfl⟩ := tells.row
    rw [Compare.intoRow_verdict] at verdict
    have pair : (c.pairOutcome z.2 z'.2).verdict = Compare.orphanVerdict s := verdict
    rcases c.pairOutcome_verdict z.2 z'.2 with other | other | other | other <;>
      · rw [other] at pair
        cases s <;> cases pair

/-- An entry that nothing met is no pair of names. -/
theorem alone_told (tells : Tells c f lefts rights j row) (on : joinedOn s j = some x) (none_ : joinedOn s.other j = none)
    (clear : ((c.index f lefts rights).side s.other).collided x.1 = none) :
    row.verdict = Compare.orphanVerdict s ∧ SyncOptions.untold row = false := by
  constructor
  · rw [tells.alone_verdict on none_, clear]
    rfl
  · obtain ⟨k, rfl⟩ := tells.row
    have missing := tells.no_entry none_
    rw [SyncOptions.untold, Compare.intoRow_unpaired (s := s.other) (by rwa [Compare.intoRow_entry] at missing), Option.any_none]

/-- An entry of the source that nothing met calls for a step. -/
theorem orphan_calls (tells : Tells c f lefts rights j row) (wired : Wired c s rows opts) (on : joinedOn s j = some x)
    (none_ : joinedOn s.other j = none) (clear : ((c.index f lefts rights).side s.other).collided x.1 = none) :
    opts.calls row = true := by
  obtain ⟨verdict, told⟩ := tells.alone_told on none_ clear
  obtain ⟨e, source, -⟩ := tells.entry on
  have orphan : row.verdict = opts.sourceOrphan := by
    rw [verdict]
    cases s <;> simp [SyncOptions.sourceOrphan, wired.side, DescendSide.side, Compare.orphanVerdict]
  have sure : ¬(row.verdict = .error ∨ row.verdict = .ambiguous ∨ SyncOptions.untold row = true) := by
    rw [verdict, told]
    cases s <;> simp [Compare.orphanVerdict]
  rw [SyncOptions.calls, if_neg sure, if_pos orphan, wired.source_eq, source]
  rfl

/-- An entry of the destination that nothing met calls for a step of a mirror. -/
theorem lone_calls (tells : Tells c f lefts rights j row) (wired : Wired c s rows opts) (mirror : opts.mode = .mirror)
    (on' : joinedOn s.other j = some y) (none_ : joinedOn s j = none)
    (clear : ((c.index f lefts rights).side s).collided y.1 = none) : opts.calls row = true := by
  have across : joinedOn s.other.other j = none := by cases s <;> exact none_
  obtain ⟨verdict, told⟩ := tells.alone_told on' across (by cases s <;> exact clear)
  obtain ⟨e, dest, -⟩ := tells.entry on'
  have lone : row.verdict = opts.destOrphan := by
    rw [verdict]
    cases s <;> simp [SyncOptions.destOrphan, wired.side, DescendSide.side, DescendSide.other, Compare.orphanVerdict]
  have other : row.verdict ≠ opts.sourceOrphan := by
    rw [lone]
    exact (orphans_apart opts).symm
  have sure : ¬(row.verdict = .error ∨ row.verdict = .ambiguous ∨ SyncOptions.untold row = true) := by
    rw [verdict, told]
    cases s <;> simp [Compare.orphanVerdict, DescendSide.other]
  rw [SyncOptions.calls, if_neg sure, if_neg other, if_pos lone, wired.dest_eq, dest, mirror]
  rfl

/-- Two entries of different kinds do not match. -/
theorem mismatch (tells : Tells c f lefts rights j row) (on : joinedOn s j = some x) (on' : joinedOn s.other j = some y)
    (kinds : x.2.kind ≠ y.2.kind) : row.verdict = .typeMismatch := by
  obtain ⟨k, rfl⟩ := tells.row
  rw [Compare.intoRow_verdict]
  cases j with
  | left z => cases s <;> simp_all [joinedOn, Joined.left?, Joined.right?, DescendSide.other]
  | right z => cases s <;> simp_all [joinedOn, Joined.left?, Joined.right?, DescendSide.other]
  | both l r =>
    apply Comparison.pairOutcome_mismatch
    cases s with
    | left =>
      obtain rfl := Option.some.inj on
      obtain rfl := Option.some.inj on'
      exact kinds
    | right =>
      obtain rfl := Option.some.inj on
      obtain rfl := Option.some.inj on'
      exact kinds.symm

/-- What is the same, or differs, has two entries. -/
theorem both (tells : Tells c f lefts rights j row)
    (verdict : row.verdict = .same ∨ row.verdict = .different ∨ row.verdict = .typeMismatch) (s : DescendSide) :
    ∃ x y, joinedOn s j = some x ∧ joinedOn s.other j = some y := by
  have lone {s' : DescendSide} {x : Bytes × Entry} (on : joinedOn s' j = some x) : joinedOn s'.other j ≠ none := by
    intro none_
    rw [tells.alone_verdict on none_] at verdict
    split at verdict
    · simp at verdict
    · cases s' <;> simp [Compare.orphanVerdict] at verdict
  cases j with
  | left z => exact absurd rfl (@lone .left z rfl)
  | right z => exact absurd rfl (@lone .right z rfl)
  | both l r =>
    cases s with
    | left => exact ⟨l, r, rfl, rfl⟩
    | right => exact ⟨r, l, rfl, rfl⟩

/-- A pair that is written over has two entries, and neither is a directory. -/
theorem overwritten (tells : Tells c f lefts rights j row) (side : opts.sourceSide = s.side)
    (overwrites : opts.overwrites row = true) : ∃ x y, joinedOn s j = some x ∧ joinedOn s.other j = some y ∧
      x.2.kind ≠ .dir ∧ y.2.kind ≠ .dir := by
  have called : (row.verdict = .typeMismatch ∧ directorySide (opts.source row) (opts.dest row) = none) ∨
      row.verdict = .different ∨ row.verdict = .same ∧ row.confidence = .unknown := by
    unfold SyncOptions.overwrites at overwrites
    cases verdict : row.verdict <;> simp_all
  have verdict : row.verdict = .same ∨ row.verdict = .different ∨ row.verdict = .typeMismatch := by
    rcases called with ⟨verdict, -⟩ | verdict | ⟨verdict, -⟩ <;> simp [verdict]
  obtain ⟨x, y, on, on'⟩ := tells.both verdict s
  obtain ⟨e, source, same⟩ := tells.entry on
  obtain ⟨d, dest, same'⟩ := tells.entry on'
  refine ⟨x, y, on, on', ?_⟩
  by_cases kinds : x.2.kind = y.2.kind
  · by_cases dir : x.2.kind = .dir
    · exfalso
      obtain ⟨k, told⟩ := tells.row
      have certain : row.verdict = .same ∧ row.confidence = .certain := by
        rw [told, Compare.intoRow_verdict, Comparison.joinedRow_pair on on']
        cases s with
        | left => exact ⟨Comparison.pairOutcome_dirs dir (kinds ▸ dir), Comparison.pairOutcome_certain dir (kinds ▸ dir) c.names k⟩
        | right => exact ⟨Comparison.pairOutcome_dirs (kinds ▸ dir) dir, Comparison.pairOutcome_certain (kinds ▸ dir) dir c.names k⟩
      rw [certain.1, certain.2] at called
      simp at called
    · exact ⟨dir, kinds ▸ dir⟩
  · have leaves : directorySide (opts.source row) (opts.dest row) = none := by
      rw [tells.mismatch on on' kinds] at called
      simpa using called
    rw [← same.2, ← same'.2]
    cases s with
    | left =>
      have source : row.left = some e := source
      have dest : row.right = some d := dest
      simp [SyncOptions.source, SyncOptions.dest, side, DescendSide.side, directorySide, source, dest] at leaves
      grind
    | right =>
      have source : row.right = some e := source
      have dest : row.left = some d := dest
      simp [SyncOptions.source, SyncOptions.dest, side, DescendSide.side, directorySide, source, dest] at leaves
      grind

end Tells

namespace Wired

/-- Where the source entry of a row was seen. -/
theorem seen_at (wired : Wired c s rows opts) (member : row ∈ rows) (there : opts.source row = some e)
    (clean : Compare.isListingError row = false) : ∃ f d lefts rights x, Reaches c.kids c.rootFrame f ∧
      f.dir s = some d ∧ c.seen .left f = .ok lefts ∧ c.seen .right f = .ok rights ∧
      x ∈ ((c.index f lefts rights).side s).entries ∧ x.path = e.path := by
  obtain ⟨out, walks, rfl⟩ := wired.walks member
  obtain ⟨pending, inside, k, rfl⟩ := Compare.mem_of_mem_numbered member
  obtain ⟨f, single, g, down, emitted⟩ := walks.mem_iff.mp inside
  obtain rfl := List.mem_singleton.mp single
  rw [wired.source_eq, Compare.intoRow_entry] at there
  rw [Compare.intoRow_listingError] at clean
  obtain ⟨d, dir, -⟩ := Comparison.emits_region emitted there
  rcases c.visit_cases g with ⟨lefts, rights, left, right⟩ | ⟨failed, -, -⟩
  · have named : e.path ∈ (c.emits g).filterMap (Comparison.rowPath s) :=
      List.mem_filterMap.mpr ⟨pending, emitted, by simp [Comparison.rowPath, there]⟩
    obtain ⟨x, seen, same⟩ := List.mem_map.mp ((Comparison.emits_paths left right s).mem_iff.mp named)
    exact ⟨g, d, lefts, rights, x, down, dir, left, right, seen, same⟩
  · rw [failed] at emitted
    simp [(Comparison.listingErrors_spec emitted).1] at clean

/-- An entry of the source is told of once. -/
theorem row_unique (wired : Wired c s rows opts) (member : row ∈ rows) (member' : row' ∈ rows)
    (there : opts.source row = some e) (there' : opts.source row' = some e') (same : e.path = e'.path)
    (clean : Compare.isListingError row = false) (clean' : Compare.isListingError row' = false) : row = row' := by
  obtain ⟨f, d, lefts, rights, y, down, dir, left, right, seen, at_⟩ := wired.seen_at member there clean
  obtain ⟨out, walks, rfl⟩ := wired.walks member
  obtain ⟨d', dir', child⟩ := Comparison.seen_child (Comparison.index_side left right s) seen
  obtain rfl := Option.some.inj (dir.symm.trans dir')
  have once := Comparison.count_found wired.trees walks down left right dir child seen
  rw [wired.source_eq] at there there'
  apply Compare.eq_of_countP_one once member member'
  · simp [Compare.rowNames, clean, there, at_]
  · simp [Compare.rowNames, clean', there', at_, same]

/-- The rows of what is above an entry come before the entry's. -/
theorem before_of_above (wired : Wired c s rows opts) (member : row ∈ rows) (member' : row' ∈ rows)
    (there : opts.source row = some e) (there' : opts.source row' = some e') (above : HangsOff e'.path e.path)
    (other : e'.path ≠ e.path) : row'.id < row.id := by
  obtain ⟨out, walks, numbers⟩ := wired.walks member
  have upwards := Comparison.parentsFirst walks
  rw [← numbers] at upwards
  have hangs := (wired.placed member').source e' there'
  induction long : e.path.segments.length using Nat.strong_induction_on generalizing row e with
  | _ n ih =>
    obtain ⟨dir, child, inside⟩ := exists_parent above other
    have own := there
    rw [wired.source_eq] at own
    have later := there'
    rw [wired.source_eq] at later
    obtain ⟨named, before⟩ := upwards s row member e dir own child
    by_cases here : e'.path = dir
    · exact before row' member' e' later here
    have longer : e'.path.segments.length < dir.segments.length :=
      Nat.lt_of_le_of_ne inside.length_le fun same => here (inside.eq_of_length same)
    have short := hangs.length_le
    have deep := child.length
    rw [wired.source] at short
    rcases named with root | root | ⟨row'', member'', names⟩
    · rw [root] at deep
      omega
    · rw [root] at longer
      omega
    · simp only [Compare.rowNames, Bool.and_eq_true, decide_eq_true_eq] at names
      obtain ⟨y, found, at_⟩ := Option.map_eq_some_iff.mp names.2
      have first := before row'' member'' y found at_
      rw [← wired.source_eq] at found
      subst at_
      have := ih y.path.segments.length (by omega) member'' found inside here rfl
      omega

/-- The event of a row that is neither an error nor ambiguous. -/
theorem tells (wired : Wired c s rows opts) (member : row ∈ rows) (sure : row.verdict ≠ .error ∧ row.verdict ≠ .ambiguous) :
    ∃ f lefts rights j, Tells c f lefts rights j row := by
  obtain ⟨out, walks, rfl⟩ := wired.walks member
  obtain ⟨pending, inside, k, rfl⟩ := Compare.mem_of_mem_numbered member
  obtain ⟨f, single, g, down, emitted⟩ := walks.mem_iff.mp inside
  obtain rfl := List.mem_singleton.mp single
  rw [Compare.intoRow_verdict] at sure
  rcases c.visit_cases g with ⟨lefts, rights, left, right⟩ | ⟨failed, -, -⟩
  · rw [Comparison.emits_listed left right] at emitted
    rcases List.mem_append.mp emitted with collided | joined
    · exfalso
      apply sure.2
      rcases List.mem_append.mp collided with found | found <;>
        · obtain ⟨_, -, rfl⟩ := List.mem_map.mp found
          rfl
    · obtain ⟨j, event, rfl⟩ := List.mem_map.mp joined
      exact ⟨g, lefts, rights, j, ⟨down, left, right, event⟩, k, rfl⟩
  · rw [failed] at emitted
    have error := (Comparison.listingErrors_spec emitted).1
    simp only [Compare.PendingRow.listingError, Bool.and_eq_true, decide_eq_true_eq] at error
    exact absurd error.1 sure.1

theorem tells_orphan (wired : Wired c s rows opts) (member : row ∈ rows) {at_ : DescendSide}
    (verdict : row.verdict = Compare.orphanVerdict at_) : ∃ f lefts rights j x, Tells c f lefts rights j row ∧
      joinedOn at_ j = some x ∧ joinedOn at_.other j = none ∧ ((c.index f lefts rights).side at_.other).collided x.1 = none := by
  have sure : row.verdict ≠ .error ∧ row.verdict ≠ .ambiguous := by
    rw [verdict]
    cases at_ <;> simp [Compare.orphanVerdict]
  obtain ⟨f, lefts, rights, j, tells⟩ := wired.tells member sure
  obtain ⟨x, on, none_, clear⟩ := tells.orphan verdict
  exact ⟨f, lefts, rights, j, x, tells, on, none_, clear⟩

/-- What comes out of a directory that is walked is among the rows. -/
theorem row_of_emitted (wired : Wired c s rows opts) (open_ : c.excludesRoots = false) (down : Reaches c.kids c.rootFrame f)
    {pending : Compare.PendingRow} (emitted : pending ∈ c.emits f) : ∃ k, pending.intoRow c.names k ∈ rows := by
  obtain ⟨out, walks⟩ := Comparison.walks_total wired.trees
  obtain rfl := wired.streams.unique (Comparison.streams_of_walks walks open_)
  exact Compare.mem_numbered_of_mem c.names 0 (Comparison.emits_mem walks down emitted)

/-- Every event has its row. -/
theorem exists_tells (wired : Wired c s rows opts) (open_ : c.excludesRoots = false) (event : Comparison.Event c f lefts rights j) :
    ∃ row ∈ rows, Tells c f lefts rights j row := by
  obtain ⟨k, inside⟩ := wired.row_of_emitted open_ event.down (Comparison.joinedRow_mem event.left event.right event.member)
  exact ⟨_, inside, event, k, rfl⟩

theorem open_ (wired : Wired c s rows opts) (member : row ∈ rows) : c.excludesRoots = false := by
  cases excluded : c.excludesRoots with
  | false => rfl
  | true =>
    obtain rfl := wired.streams.unique (Comparison.streams_excluded excluded)
    cases member

theorem writable (wired : Wired c s rows opts) (unblocked : Unblocked opts rows) : opts.destWritable = true := by
  by_contra other
  have readOnly : opts.destWritable = false := by simpa using other
  apply unblocked ⟨.root, .destReadOnly, some .right⟩
  simp [fullPlan, plan, wired.known, readOnly]

/-- In a plan without a blocker no row reaches the root of the other side. -/
theorem overlapAt_none (wired : Wired c s rows opts) (unblocked : Unblocked opts rows) : opts.overlapOf rows = none := by
  cases watched : opts.overlapOf rows with
  | none => rfl
  | some overlap =>
    obtain ⟨before, row, after, split, reaches, clear⟩ := List.findSome?_eq_some_iff.mp watched
    obtain ⟨t, t', items, item, run, absorbed, planned⟩ := wired.at_row split
    obtain ⟨own, fated⟩ := fated_of_run run absorbed
    have first : opts.overlapOf before = none := List.findSome?_eq_none_iff.mpr clear
    have fate : opts.fate before row = .reaches := by simp [SyncOptions.fate, first, SyncOptions.fateUnder, reaches]
    rw [fate] at fated
    cases fated with
    | @reaches blocker blocked =>
      exact absurd (planned (wired.writable unblocked) _ blocked) (unblocked blocker)

/-- There every row is read. -/
theorem read (wired : Wired c s rows opts) (unblocked : Unblocked opts rows) {after : List CompareRow}
    (split : rows = before ++ row :: after) : opts.fate before row = .read := by
  have clear := List.findSome?_eq_none_iff.mp (wired.overlapAt_none unblocked)
  have first : opts.overlapOf before = none :=
    List.findSome?_eq_none_iff.mpr fun r member => clear r (by simp [split, member])
  simp [SyncOptions.fate, first, SyncOptions.fateUnder, clear row (by simp [split])]

/-- What comes first by its number comes first. -/
theorem mem_before (wired : Wired c s rows opts) {after : List CompareRow} (split : rows = before ++ row :: after)
    (member : row' ∈ rows) (less : row'.id < row.id) : row' ∈ before := by
  obtain ⟨out, -, numbers⟩ := wired.walks member
  have order := Compare.numbered_increasing c.names 0 out
  rw [← numbers, split] at order
  rw [split] at member
  rcases List.mem_append.mp member with found | found
  · exact found
  rcases List.mem_cons.mp found with rfl | found
  · omega
  · have more := (List.pairwise_cons.mp (List.pairwise_append.mp order).2.1).1 row' found
    omega

/-- What the table of spellings holds at a row. -/
theorem spelling_iff (wired : Wired c s rows opts) (unblocked : Unblocked opts rows) {after : List CompareRow} {t : Transducer}
    {items : List PlanItem} (split : rows = before ++ row :: after) (run : Run (start opts) before t items)
    {p : RelPath × RelPath} : p ∈ t.spellings ↔ ∃ row ∈ before, Respells opts row p := by
  rw [run.respells]
  constructor
  · rintro ⟨pre, other, post, rfl, -, respells⟩
    exact ⟨other, by simp, respells⟩
  · rintro ⟨other, member, respells⟩
    obtain ⟨pre, post, rfl⟩ := List.append_of_mem member
    have cut : rows = pre ++ other :: (post ++ row :: after) := by simp [split]
    exact ⟨pre, other, post, rfl, wired.read unblocked cut, respells⟩

/-- Where a row has its entries, by the paths of its event. -/
theorem respells_iff (wired : Wired c s rows opts) (tells : Tells c f lefts rights j row) {p : RelPath × RelPath} :
    Respells opts row p ↔ ∃ x y, joinedOn s j = some x ∧ joinedOn s.other j = some y ∧ x.2.kind = .dir ∧ y.2.kind = .dir ∧
      x.2.path = under opts.sourceRoot p.1 ∧ y.2.path = under opts.destRoot p.2 ∧ p.2 ≠ p.1 := by
  simp only [Respells, wired.source_eq, wired.dest_eq]
  constructor
  · rintro ⟨e, d, source, dest, dirs, dirs', at_, at_', differs⟩
    obtain ⟨x, on, same⟩ := tells.on_of_entry source
    obtain ⟨y, on', same'⟩ := tells.on_of_entry dest
    exact ⟨x, y, on, on', same.2 ▸ dirs, same'.2 ▸ dirs', same.1 ▸ at_, same'.1 ▸ at_', differs⟩
  · rintro ⟨x, y, on, on', dirs, dirs', at_, at_', differs⟩
    obtain ⟨e, source, same⟩ := tells.entry on
    obtain ⟨d, dest, same'⟩ := tells.entry on'
    exact ⟨e, d, source, dest, same.2.trans dirs, same'.2.trans dirs', same.1.trans at_, same'.1.trans at_', differs⟩

/-- A row with both sides is not about a listing. -/
theorem clean_of_pair (wired : Wired c s rows opts) (member : row ∈ rows) (source : opts.source row = some e)
    (dest : opts.dest row = some d) : Compare.isListingError row = false := by
  obtain ⟨out, walks, rfl⟩ := wired.walks member
  obtain ⟨pending, inside, k, rfl⟩ := Compare.mem_of_mem_numbered member
  obtain ⟨f, single, g, down, emitted⟩ := walks.mem_iff.mp inside
  rw [Compare.intoRow_listingError]
  rcases c.visit_cases g with ⟨lefts, rights, left, right⟩ | ⟨failed, -, -⟩
  · exact Comparison.emits_clean left right emitted
  · rw [failed] at emitted
    obtain ⟨-, s', -, missing⟩ := Comparison.listingErrors_spec emitted
    rw [wired.source_eq, Compare.intoRow_entry] at source
    rw [wired.dest_eq, Compare.intoRow_entry] at dest
    cases s <;> cases s' <;> simp_all [DescendSide.other]

/-- What the table holds of a directory whose row was read is what its row says. -/
theorem spelling_own (wired : Wired c s rows opts) (unblocked : Unblocked opts rows) {after : List CompareRow} {t : Transducer}
    {items : List PlanItem} (split : rows = before ++ row :: after) (run : Run (start opts) before t items)
    (earlier : row' ∈ before) (tells : Tells c f lefts rights j row') (on : joinedOn s j = some x) {rel other : RelPath}
    (path : x.2.path = under opts.sourceRoot rel) : t.spelling rel = some other ↔ Respells opts row' (rel, other) := by
  obtain ⟨e, source, same⟩ := tells.entry on
  rw [← wired.source_eq] at source
  have own {p : RelPath} (member : (rel, p) ∈ t.spellings) : Respells opts row' (rel, p) := by
    obtain ⟨row₁, inside, respells⟩ := (wired.spelling_iff unblocked split run).mp member
    have again := respells
    obtain ⟨e₁, d₁, source₁, dest₁, -, -, path₁, -⟩ := again
    have member₁ : row₁ ∈ rows := by simp [split, inside]
    have one : row' = row₁ := wired.row_unique (by simp [split, earlier]) member₁ source source₁ (by rw [same.1, path, path₁])
      tells.clean (wired.clean_of_pair member₁ source₁ dest₁)
    subst one
    exact respells
  constructor
  · exact fun found => own (Transducer.mem_of_spelling found)
  · intro respells
    have kept := (wired.spelling_iff unblocked split run).mpr ⟨row', earlier, respells⟩
    cases found : t.spelling rel with
    | none => exact absurd kept (Transducer.not_mem_of_spelling found other)
    | some p =>
      obtain ⟨e₁, d₁, -, dest₁, -, -, -, path₁, -⟩ := own (Transducer.mem_of_spelling found)
      obtain ⟨e₂, d₂, -, dest₂, -, -, -, path₂, -⟩ := respells
      obtain rfl := Option.some.inj (dest₁.symm.trans dest₂)
      exact congrArg some (under_injective (path₁.symm.trans path₂))

/-- How a directory is spelt where its row and those of the directories above it were read is where it
comes to lie. -/
theorem lands (wired : Wired c s rows opts) (unblocked : Unblocked opts rows) {after : List CompareRow} {t : Transducer}
    {items : List PlanItem} (split : rows = before ++ row :: after) (run : Run (start opts) before t items)
    (down : Reaches c.kids c.rootFrame f) (dir : f.dir s = some d)
    (read : ∀ row' ∈ rows, ∀ e, opts.source row' = some e → HangsOff e.path d.path → row' ∈ before) :
    ∃ rel : RelPath, d.path = under opts.sourceRoot rel ∧
      Comparison.Lands c s f (under opts.destRoot ((t.spelt rel).getD rel)) := by
  induction down generalizing d with
  | refl =>
    obtain rfl := Option.some.inj ((c.rootFrame_dir s).symm.trans dir)
    refine ⟨⟨[]⟩, by simp [under_eq, wired.source, Compare.syntheticDir], ?_⟩
    have at_ : under opts.destRoot ((t.spelt ⟨[]⟩).getD ⟨[]⟩) = c.root s.other := by
      simp [Transducer.spelt, under_eq, wired.dest]
    rw [at_]
    exact .there (c.rootFrame_dir s.other)
  | @tail f g walked kid ih =>
    obtain ⟨p, above, ⟨name, named⟩, isDir⟩ := Comparison.kids_region kid dir
    have hangs : HangsOff p.path d.path := named ▸ Child.hangsOff ⟨name, rfl⟩
    obtain ⟨⟨rel⟩, at_, up⟩ := ih above fun row' member e there inside => read row' member e there (inside.trans hangs)
    obtain ⟨lefts, rights, j, event, sides, -⟩ := Comparison.Event.of_kid walked kid
    obtain ⟨own, member, tells⟩ := wired.exists_tells (wired.open_ (split ▸ List.mem_append_right _ List.mem_cons_self)) event
    have path : d.path = under opts.sourceRoot ⟨rel ++ [name]⟩ := by rw [named, at_, under_join]
    obtain ⟨x, on, rfl⟩ : ∃ x, joinedOn s j = some x ∧ x.2 = d := Option.map_eq_some_iff.mp ((sides s).trans dir)
    obtain ⟨e, source, same⟩ := tells.entry on
    rw [← wired.source_eq] at source
    have earlier : own ∈ before := read own member e source (same.1 ▸ .refl _)
    have spells (other : RelPath) : t.spelling ⟨rel ++ [name]⟩ = some other ↔ Respells opts own (⟨rel ++ [name]⟩, other) :=
      wired.spelling_own unblocked split run earlier tells on path
    refine ⟨⟨rel ++ [name]⟩, path, ?_⟩
    have spelt : (t.spelt ⟨rel ++ [name]⟩).getD ⟨rel ++ [name]⟩ = (t.spelling ⟨rel ++ [name]⟩).getD
        ⟨((t.spelt ⟨rel⟩).getD ⟨rel⟩).segments ++ [name]⟩ := by
      rw [← t.spelt_join, Transducer.spelt, if_neg (by simp)]
      cases t.spelling ⟨rel ++ [name]⟩ <;> rfl
    rw [spelt]
    cases across : g.dir s.other with
    | none =>
      have none_ : t.spelling ⟨rel ++ [name]⟩ = none := by
        apply Option.eq_none_iff_forall_ne_some.mpr
        intro other found
        obtain ⟨e', d', -, dest, -⟩ := (spells other).mp found
        rw [wired.dest_eq, tells.no_entry (Option.map_eq_none_iff.mp ((sides s.other).trans across))] at dest
        cases dest
      rw [none_, Option.getD_none, under_join]
      exact .made up walked kid across above dir named
    | some y =>
      obtain ⟨y, on', rfl⟩ : ∃ y', joinedOn s.other j = some y' ∧ y'.2 = y := Option.map_eq_some_iff.mp ((sides s.other).trans across)
      obtain ⟨q, above', ⟨name', named'⟩, isDir'⟩ := Comparison.kids_region kid across
      have path' : y.2.path = under opts.destRoot ⟨((t.spelt ⟨rel⟩).getD ⟨rel⟩).segments ++ [name']⟩ := by
        rw [named', ← up.eq_there above', under_join]
      have there : (t.spelling ⟨rel ++ [name]⟩).getD ⟨((t.spelt ⟨rel⟩).getD ⟨rel⟩).segments ++ [name]⟩ =
          ⟨((t.spelt ⟨rel⟩).getD ⟨rel⟩).segments ++ [name']⟩ := by
        cases found : t.spelling ⟨rel ++ [name]⟩ with
        | some other =>
          obtain ⟨-, y', -, on₂, -, -, -, at_', -⟩ := (wired.respells_iff tells).mp ((spells other).mp found)
          obtain rfl := Option.some.inj (on'.symm.trans on₂)
          exact under_injective (at_'.symm.trans path')
        | none =>
          -- Nothing is kept of the pair, so both of its names are one, and so are those above them.
          by_cases alike : (⟨((t.spelt ⟨rel⟩).getD ⟨rel⟩).segments ++ [name']⟩ : RelPath) = ⟨rel ++ [name]⟩
          · obtain ⟨-, last⟩ := List.append_inj' (RelPath.mk.inj alike) rfl
            rw [Option.getD_none, List.singleton_injective last]
          · have kept := (spells _).mpr ((wired.respells_iff tells).mpr ⟨x, y, on, on', isDir, isDir', path, path', alike⟩)
            rw [found] at kept
            cases kept
      rw [there, ← path']
      exact .there across

theorem sourceOrphan (wired : Wired c s rows opts) : opts.sourceOrphan = Compare.orphanVerdict s := by
  cases s <;> simp [SyncOptions.sourceOrphan, wired.side, DescendSide.side, Compare.orphanVerdict]

theorem destOrphan (wired : Wired c s rows opts) : opts.destOrphan = Compare.orphanVerdict s.other := by
  cases s <;> simp [SyncOptions.destOrphan, wired.side, DescendSide.side, DescendSide.other, Compare.orphanVerdict]

end Wired

/-- What an acting step of a plan is about: an entry that nothing met, which is made where it comes to
lie; a pair of leaves; or an entry of the destination. -/
inductive Acts (c : Comparison) (s : DescendSide) (opts : SyncOptions) (f : Frame) (lefts rights : List Entry)
    (j : Joined (Bytes × Entry) (Bytes × Entry)) (step : SyncStep) (witness : Option DestWitness) : Prop
  | makes {x : Bytes × Entry} (on : joinedOn s j = some x) (none_ : joinedOn s.other j = none)
    (kind : step.kind = if x.2.kind = .dir then .createDir else .copy) (reads : opts.readPath step = some x.2.path)
    (lies : Comparison.Lies c s x.2 (opts.writtenPath step))
  | replaces {x y : Bytes × Entry} (on : joinedOn s j = some x) (on' : joinedOn s.other j = some y)
    (leaves : x.2.kind ≠ .dir ∧ y.2.kind ≠ .dir) (kind : step.kind = .overwrite) (reads : opts.readPath step = some x.2.path)
    (writes : opts.writtenPath step = y.2.path) (seen : witness.map (·.kind) = some y.2.kind)
  | deletes {y : Bytes × Entry} (none_ : joinedOn s j = none) (on' : joinedOn s.other j = some y)
    (kind : step.kind = .deleteTree) (writes : opts.writtenPath step = y.2.path) (seen : witness.map (·.kind) = some y.2.kind)

namespace Wired

variable {step : SyncStep} {witness : Option DestWitness}

theorem destRelOf_none {t : Transducer} {rel : RelPath} {destRel : Option RelPath} (named : t.destRelOf rel none = .ok destRel) :
    destRel.getD rel = (t.speltAtTheDestination rel).getD rel := by
  unfold destRelOf at named
  dsimp only at named
  split at named
  · rename_i found there
    obtain rfl := Except.ok.inj named
    rw [there]
    by_cases same : found = rel <;> simp [same]
  · rename_i missing
    obtain rfl := Except.ok.inj named
    rw [missing]

/-- Where the step of an entry that nothing met writes. -/
theorem made_at (wired : Wired c s rows opts) (unblocked : Unblocked opts rows) {after : List CompareRow} {t : Transducer}
    {items : List PlanItem} (split : rows = before ++ row :: after) (run : Run (start opts) before t items)
    (tells : Tells c f lefts rights j row) (on : joinedOn s j = some x) (none_ : joinedOn s.other j = none)
    (clear : ((c.index f lefts rights).side s.other).collided x.1 = none) {rel : RelPath}
    (at_ : x.2.path = under opts.sourceRoot rel) :
    Comparison.Lies c s x.2 (under opts.destRoot ((t.speltAtTheDestination rel).getD rel)) := by
  obtain ⟨d, dir, ⟨name, named⟩, -⟩ := tells.listed on
  obtain ⟨e, source, same⟩ := tells.entry on
  rw [← wired.source_eq] at source
  have member : row ∈ rows := by simp [split]
  have child : Child d.path e.path := ⟨name, same.1.trans named⟩
  have read (row' : CompareRow) (member' : row' ∈ rows) (e' : Entry) (source' : opts.source row' = some e')
      (above : HangsOff e'.path d.path) : row' ∈ before := by
    apply wired.mem_before split member'
    apply wired.before_of_above member member' source source' (above.trans child.hangsOff)
    intro alike
    have short := above.length_le
    have long := child.length
    rw [alike] at short
    omega
  obtain ⟨up, path, lands⟩ := wired.lands unblocked split run tells.down dir read
  have whole : rel = ⟨up.segments ++ [name]⟩ := by
    apply @under_injective opts.sourceRoot
    rw [← at_, named, path, under_join]
  subst whole
  rw [t.spelt_join, under_join]
  exact .alone tells.toEvent on none_ clear dir named lands

theorem sourceRelOf_isSome {t : Transducer} {source : Option Entry} {sourceRel : Option RelPath}
    (named : t.sourceRelOf source = .ok sourceRel) : sourceRel.isSome = source.isSome := by
  cases source with
  | none =>
    obtain rfl := Except.ok.inj named
    rfl
  | some entry =>
    cases found : relUnder t.opts.sourceRoot entry.path with
    | error e => simp [sourceRelOf, found, Except.map] at named
    | ok rel =>
      simp only [sourceRelOf, found, Except.map, Except.ok.injEq] at named
      rw [← named]
      rfl

/-- What an acting step is about. -/
theorem acts (wired : Wired c s rows opts) (unblocked : Unblocked opts rows) (yields : Yields opts rows row (.step step witness))
    (acting : step.kind.acts = true) : ∃ f lefts rights j, Tells c f lefts rights j row ∧ Acts c s opts f lefts rights j step witness := by
  obtain ⟨before, after, t, t', items, split, run, absorbed⟩ := yields
  have member : row ∈ rows := by simp [split]
  obtain ⟨own, fated⟩ := fated_of_run run absorbed
  rw [wired.read unblocked split] at fated
  subst own
  cases fated with
  | @read mid sourceRel same named remembers table =>
  obtain ⟨opts', -, -⟩ := remembers.keeps
  have again : mid.sourceRelOf (t.opts.source row) = .ok sourceRel := by
    rw [← named]
    simp only [sourceRelOf, opts']
  have known := sourceRelOf_isSome named
  have calls : t.opts.calls row = true := by
    rw [← opts'] at again known table ⊢
    rw [← absorbRow_acts known table]
    exact acting
  obtain ⟨reads, takes⟩ : t.opts.readPath step = t.opts.readsAt row ∧
      ∀ path, t.opts.takesAt row = some path → t.opts.writtenPath step = path := by
    rw [← opts'] at again table ⊢
    exact absorbRow_paths again table acting
  have emits := @Emits.absorbRow mid row (t.opts.source row) (t.opts.dest row) sourceRel
  rw [table] at emits
  generalize whole : (.ok (t', some (.step step witness)) : Absorbed) = result at emits
  cases emits with
  | failed | nothing | blocker => cases whole
  | skipped =>
    obtain ⟨-, -, -, i, found, other, rfl, kind, -, -⟩ := push_packaged whole.symm
    obtain ⟨rfl, -⟩ := PlanItem.step.inj (Option.some.inj found)
    rw [kind] at acting
    cases acting
  | @orphan entry rel destRel size verdict there told proper spelt =>
    obtain ⟨-, -, -, i, found, other, rfl, kind, rfl, rfl⟩ := push_packaged whole.symm
    obtain ⟨rfl, -⟩ := PlanItem.step.inj (Option.some.inj found)
    rw [Transducer.sourceOrphan_eq, opts', wired.sourceOrphan] at verdict
    obtain ⟨f, lefts, rights, j, x, tells, on, none_, clear⟩ := wired.tells_orphan member verdict
    obtain ⟨e, source, alike⟩ := tells.entry on
    rw [← wired.source_eq, there] at source
    obtain rfl := Option.some.inj source
    have at_ := eq_under_of_relUnder (named_of_sourceRelOf named there told)
    have kept : mid = t := by
      cases remembers with
      | unpaired => rfl
      | spelt _ destDir | alike _ destDir =>
        have missing := destDir.1.symm.trans (wired.dest_eq.trans (tells.no_entry none_))
        cases missing
    subst kept
    have lies := wired.made_at unblocked split run tells on none_ clear (alike.1.symm.trans at_)
    refine ⟨f, lefts, rights, j, tells, .makes on none_ ?_ ?_ ?_⟩
    · rw [kind, alike.2]
    · rw [reads, SyncOptions.readsAt, if_neg, there, Option.map_some, alike.1]
      rw [verdict, wired.destOrphan]
      cases s <;> simp [Compare.orphanVerdict, DescendSide.other]
    · rw [SyncOptions.writtenPath, destRelOf_none spelt]
      exact lies
  | @paired entry rel destRel size verdict sure there told proper spelt =>
    obtain ⟨-, -, -, i, found, other, rfl, kind, rfl, rfl⟩ := push_packaged whole.symm
    obtain ⟨rfl, rfl⟩ := PlanItem.step.inj (Option.some.inj found)
    rw [Transducer.sourceOrphan_eq, Transducer.destOrphan_eq, opts'] at verdict
    have overwrites : t.opts.overwrites row = true := by
      simp only [SyncOptions.calls, sure.1, sure.2, verdict.1, verdict.2] at calls
      simp_all
    obtain ⟨f, lefts, rights, j, tells⟩ := wired.tells member sure
    obtain ⟨x, y, on, on', leaves⟩ := tells.overwritten wired.side overwrites
    obtain ⟨e, source, alike⟩ := tells.entry on
    obtain ⟨e', dest, alike'⟩ := tells.entry on'
    rw [← wired.source_eq] at source
    rw [← wired.dest_eq] at dest
    refine ⟨f, lefts, rights, j, tells, .replaces on on' leaves kind ?_ ?_ ?_⟩
    · rw [reads, SyncOptions.readsAt, if_neg verdict.2, source, Option.map_some, alike.1]
    · apply takes
      rw [SyncOptions.takesAt, if_neg verdict.1, dest, Option.map_some, alike'.1]
    · rw [dest]
      exact congrArg some alike'.2
  | @deleted entry rel verdict there told proper =>
    obtain ⟨-, -, -, i, found, other, rfl, kind, rfl, -⟩ := push_packaged whole.symm
    obtain ⟨rfl, rfl⟩ := PlanItem.step.inj (Option.some.inj found)
    rw [Transducer.destOrphan_eq, opts', wired.destOrphan] at verdict
    obtain ⟨f, lefts, rights, j, y, tells, on', none_, -⟩ := wired.tells_orphan member verdict
    obtain ⟨e', dest, alike'⟩ := tells.entry on'
    rw [← wired.dest_eq, there] at dest
    obtain rfl := Option.some.inj dest
    refine ⟨f, lefts, rights, j, tells, .deletes ?_ on' kind ?_ (congrArg some alike'.2)⟩
    · cases s <;> exact none_
    · apply takes
      rw [SyncOptions.takesAt, if_neg, there, Option.map_some, alike'.1]
      rw [verdict, wired.sourceOrphan]
      cases s <;> simp [Compare.orphanVerdict, DescendSide.other]

end Wired

end Norte.Sync
