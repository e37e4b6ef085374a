import Norte.SyncApplies

/-! Two trees whose comparison finds nothing amiss: no names that collide, nothing that cannot be read, no
directory against what is none, and every pair decided with certainty. Every element of their plan is a
step that acts, and every entry of either side is told of, or is below one that nothing met. -/
namespace Norte.Sync

open Compare (Comparison Frame Listed joinedOn InTree)
open MergeJoin StackWalk Transducer

structure Clean (c : Comparison) (s : DescendSide) (rows : List CompareRow) (opts : SyncOptions) : Prop
    extends Wired c s rows opts where
  gone : c.opts.descendOrphans = some s.side
  deep : c.opts.maxDepth = none
  all : c.excluded = []
  writable : opts.destWritable = true
  outside : ¬HangsOff opts.destRoot opts.sourceRoot ∧ ¬HangsOff opts.sourceRoot opts.destRoot
  readable : ∀ row ∈ rows, row.verdict ≠ .error
  apart : ∀ row ∈ rows, row.verdict ≠ .ambiguous
  kinds : ∀ row ∈ rows, row.verdict = .typeMismatch → directorySide (opts.source row) (opts.dest row) = none
  certain : ∀ row ∈ rows, (opts.source row).isSome → (opts.dest row).isSome → row.confidence = .certain
  told : ∀ row ∈ rows, SyncOptions.untold row = false

variable {c : Comparison} {s : DescendSide} {rows before : List CompareRow} {opts : SyncOptions} {row : CompareRow}
  {f g : Frame} {lefts rights : List Entry} {j : Joined (Bytes × Entry) (Bytes × Entry)} {x y : Bytes × Entry} {d e : Entry}

namespace Transducer

variable {t t' : Transducer} {item : PlanItem} {source dest : Option Entry} {sourceRel : Option RelPath}

/-- What a row leaves that nothing is amiss with acts. -/
theorem absorbRow_item (readable : row.verdict ≠ .error) (apart : row.verdict ≠ .ambiguous)
    (told : SyncOptions.untold row = false) (kinds : row.verdict = .typeMismatch → directorySide source dest = none)
    (certain : source.isSome → dest.isSome → row.confidence = .certain) (pair : row.verdict = .same → source.isSome ∧ dest.isSome)
    (known : sourceRel.isSome = source.isSome) (result : t.absorbRow row source dest sourceRel = .ok (t', some item)) :
    item.acts = true := by
  have stepped {kind : SyncStepKind} {paired : Option Entry} (acts : kind.acts = true)
      (pushed : t.pushStep row kind source sourceRel none paired = .ok (t', some item)) : item.acts = true := by
    have whole := pushStep_acts known pushed
    cases source with
    | none => cases pushed
    | some entry => simpa [acts] using whole
  have told : ¬(row.pairedUnder.any fun transform => !transform.namesOneText) = true := by simpa [SyncOptions.untold] using told
  unfold absorbRow at result
  rw [if_neg readable, if_neg apart, if_neg told] at result
  split at result
  · split at result
    · cases result
    · apply stepped _ result
      split <;> rfl
  split at result
  · split at result
    · have whole := absorbDestOrphan_acts result
      cases dest with
      | none => cases result
      | some entry => simpa using whole
    · cases result
  unfold absorbPair at result
  split at result
  · rename_i mismatch
    rw [kinds mismatch] at result
    exact stepped rfl result
  · exact stepped rfl result
  · rename_i same
    obtain ⟨there, across⟩ := pair same
    rw [if_pos (by simp [certain there across])] at result
    cases result
  all_goals cases result

end Transducer

/-- Every directory of the source that is walked comes to lie somewhere. -/
theorem exists_lands (down : Reaches c.kids c.rootFrame f) (dir : f.dir s = some d) : ∃ path, Comparison.Lands c s f path := by
  induction down generalizing d with
  | refl => exact ⟨_, .there (c.rootFrame_dir s.other)⟩
  | @tail p g walked kid ih =>
    obtain ⟨q, above, ⟨name, named⟩, -⟩ := Comparison.kids_region kid dir
    obtain ⟨path, lands⟩ := ih above
    cases across : g.dir s.other with
    | some y => exact ⟨_, .there across⟩
    | none => exact ⟨_, .made lands walked kid across above dir named⟩

namespace Clean

section

variable (clean : Clean c s rows opts)
include clean

theorem open_ : c.excludesRoots = false := by simp [Comparison.excludesRoots, clean.all]

theorem shown (e : Entry) : c.visible e = true := by simp [Comparison.visible, clean.all]

theorem all_shown : ∀ e, InTree (c.provider s.other) (c.root s.other) e → c.visible e = true := fun e _ => clean.shown e

theorem overlapAt_none (member : row ∈ rows) : opts.overlapAt row = none := by
  have placed := clean.placed member
  have source (e : Entry) (there : opts.source row = some e) : isAtOrUnder opts.destRoot e.path = false := by
    apply Bool.eq_false_iff.mpr
    intro reaches
    have under : HangsOff opts.destRoot e.path := RelPath.under_isSome.mp reaches
    rcases under.comparable (placed.source e there) with above | above
    · exact clean.outside.1 above
    · exact clean.outside.2 above
  have dest (e : Entry) (there : opts.dest row = some e) : isAtOrUnder opts.sourceRoot e.path = false := by
    apply Bool.eq_false_iff.mpr
    intro reaches
    have under : HangsOff opts.sourceRoot e.path := RelPath.under_isSome.mp reaches
    rcases under.comparable (placed.dest e there) with above | above
    · exact clean.outside.2 above
    · exact clean.outside.1 above
  simp only [SyncOptions.overlapAt]
  cases there : opts.source row <;> cases there' : opts.dest row <;> simp_all

theorem read {after : List CompareRow} (split : rows = before ++ row :: after) : opts.fate before row = .read := by
  have first : opts.overlapOf before = none :=
    List.findSome?_eq_none_iff.mpr fun r inside => clean.overlapAt_none (by simp [split, inside])
  have here : opts.overlapAt row = none := clean.overlapAt_none (by simp [split])
  simp [SyncOptions.fate, first, SyncOptions.fateUnder, here]

/-- A row that says that two entries are the same has both. -/
theorem same_pair (member : row ∈ rows) (same : row.verdict = .same) : (opts.source row).isSome ∧ (opts.dest row).isSome := by
  obtain ⟨f, lefts, rights, j, tells⟩ := clean.tells member (by simp [same])
  obtain ⟨x, y, on, on'⟩ := tells.both (.inl same) s
  obtain ⟨e, source, -⟩ := tells.entry on
  obtain ⟨d, dest, -⟩ := tells.entry on'
  rw [clean.source_eq, clean.dest_eq, source, dest]
  exact ⟨rfl, rfl⟩

/-- Every element of the plan is a step that acts. -/
theorem only_acts {item : PlanItem} (inside : item ∈ fullPlan rows opts) : item.acts = true := by
  rw [fullPlan, plan_eq clean.known clean.writable] at inside
  obtain ⟨done, rest, t, split, run⟩ := Run.before_end (start opts) rows
  obtain ⟨first, last, whole⟩ := List.append_of_mem inside
  rw [whole] at run
  obtain ⟨before, row, after, mid, mid', rfl, ran, absorbed, -⟩ := run.at_item
  have cut : rows = before ++ row :: (after ++ rest) := by simp [split]
  have member : row ∈ rows := by simp [cut]
  obtain ⟨own, fated⟩ := fated_of_run ran absorbed
  rw [clean.read cut] at fated
  obtain ⟨mid', sourceRel, rfl, -, known, table⟩ := fated.table own
  exact absorbRow_item (clean.readable row member) (clean.apart row member) (clean.told row member) (clean.kinds row member)
    (clean.certain row member) (clean.same_pair member) known table

theorem unblocked : Unblocked opts rows := by
  intro blocker inside
  have acts := clean.only_acts inside
  cases acts

/-- A pair of which one is a directory is a pair of directories. -/
theorem both_dirs (member : row ∈ rows) (tells : Tells c f lefts rights j row) (on : joinedOn s j = some x)
    (on' : joinedOn s.other j = some y) (dir : x.2.kind = .dir ∨ y.2.kind = .dir) : x.2.kind = .dir ∧ y.2.kind = .dir := by
  by_cases kinds : x.2.kind = y.2.kind
  · rcases dir with dir | dir
    · exact ⟨dir, kinds ▸ dir⟩
    · exact ⟨kinds.trans dir, dir⟩
  exfalso
  obtain ⟨e, source, same⟩ := tells.entry on
  obtain ⟨d, dest, same'⟩ := tells.entry on'
  rw [← clean.source_eq] at source
  rw [← clean.dest_eq] at dest
  have leaves := clean.kinds row member (tells.mismatch on on' kinds)
  rw [source, dest] at leaves
  rcases dir with dir | dir
  · simp [directorySide, same.2, dir] at leaves
  · simp only [directorySide, Option.any_some, same'.2, dir, decide_true, if_true] at leaves
    split at leaves <;> cases leaves

/-- A pair that no step writes over was found to be the same, with certainty. -/
theorem matched (member : row ∈ rows) (tells : Tells c f lefts rights j row) (on : joinedOn s j = some x)
    (on' : joinedOn s.other j = some y) (idle : opts.calls row = false) :
    row.verdict = .same ∧ row.confidence = .certain ∧ x.2.kind = y.2.kind := by
  obtain ⟨e, source, same⟩ := tells.entry on
  obtain ⟨d, dest, same'⟩ := tells.entry on'
  rw [← clean.source_eq] at source
  rw [← clean.dest_eq] at dest
  have sure : ¬(row.verdict = .error ∨ row.verdict = .ambiguous ∨ SyncOptions.untold row = true) := by
    simp [clean.readable row member, clean.apart row member, clean.told row member]
  have pair : row.verdict = .same ∨ row.verdict = .different ∨ row.verdict = .typeMismatch := by
    obtain ⟨k, told⟩ := tells.row
    have error := clean.readable row member
    rw [told, Compare.intoRow_verdict, Comparison.joinedRow_pair on on'] at error ⊢
    cases s with
    | left => exact (c.pairOutcome_verdict x.2 y.2).resolve_left error
    | right => exact (c.pairOutcome_verdict y.2 x.2).resolve_left error
  have orphans : row.verdict ≠ opts.sourceOrphan ∧ row.verdict ≠ opts.destOrphan := by
    rw [clean.sourceOrphan, clean.destOrphan]
    rcases pair with verdict | verdict | verdict <;> rw [verdict] <;> cases s <;> simp [Compare.orphanVerdict, DescendSide.other]
  rw [SyncOptions.calls, if_neg sure, if_neg orphans.1, if_neg orphans.2] at idle
  have certain := clean.certain row member (by simp [source]) (by simp [dest])
  rcases pair with verdict | verdict | verdict
  · refine ⟨verdict, certain, ?_⟩
    by_contra other
    have mismatch := tells.mismatch on on' other
    rw [verdict] at mismatch
    cases mismatch
  · simp [SyncOptions.overwrites, source, verdict] at idle
  · have leaves := clean.kinds row member verdict
    simp only [SyncOptions.overwrites, verdict, leaves] at idle
    simp [source] at idle

/-! ### All is walked -/

/-- What is walked was listed. -/
theorem listed (down : Reaches c.kids c.rootFrame f) : ∃ lefts rights, c.seen .left f = .ok lefts ∧ c.seen .right f = .ok rights := by
  rcases c.visit_cases f with listed | ⟨failed, -, s', reason, why⟩
  · exact listed
  exfalso
  have error : ∃ pending ∈ c.emits f, pending.verdict = .error := by
    rw [failed]
    unfold Comparison.listingErrors
    cases s' with
    | left =>
      rw [why]
      exact ⟨_, List.mem_append_left _ (List.mem_singleton_self _), rfl⟩
    | right =>
      rw [why]
      exact ⟨_, List.mem_append_right _ (List.mem_singleton_self _), rfl⟩
  obtain ⟨pending, emitted, verdict⟩ := error
  obtain ⟨k, member⟩ := clean.row_of_emitted clean.open_ down emitted
  exact clean.readable _ member (Compare.intoRow_verdict.trans verdict)

/-- No two entries of a directory that is walked have one key. -/
theorem alone (down : Reaches c.kids c.rootFrame f) (left : c.seen .left f = .ok lefts) (right : c.seen .right f = .ok rights)
    {s' : DescendSide} (inside : e ∈ ((c.index f lefts rights).side s').entries) : ((c.index f lefts rights).side s').Alone e := by
  by_contra crowded
  obtain ⟨reason, why⟩ := Option.ne_none_iff_exists'.mp (mt (Compare.SideIndex.reason_eq_none inside).mp crowded)
  have collision := Compare.SideIndex.mem_collisions.mpr ⟨inside, why⟩
  have collided : ∃ pending ∈ Comparison.collisionRows (c.index f lefts rights), pending.verdict = .ambiguous := by
    cases s' with
    | left => exact ⟨_, List.mem_append_left _ (List.mem_map_of_mem collision), rfl⟩
    | right => exact ⟨_, List.mem_append_right _ (List.mem_map_of_mem collision), rfl⟩
  obtain ⟨pending, found, verdict⟩ := collided
  have emitted : pending ∈ c.emits f := by
    rw [Comparison.emits_listed left right]
    exact List.mem_append_left _ found
  obtain ⟨k, member⟩ := clean.row_of_emitted clean.open_ down emitted
  exact clean.apart _ member (Compare.intoRow_verdict.trans verdict)

theorem uncollided (down : Reaches c.kids c.rootFrame f) (left : c.seen .left f = .ok lefts) (right : c.seen .right f = .ok rights)
    (s' : DescendSide) (key : Bytes) : ((c.index f lefts rights).side s').collided key = none := by
  by_contra some_
  obtain ⟨e, inside, -, crowded⟩ := Compare.SideIndex.collided_isSome.mp (Option.isSome_iff_ne_none.mpr some_)
  exact crowded (clean.alone down left right inside)

/-- What is in a directory that is walked is in an event. -/
theorem event_of_listed (down : Reaches c.kids c.rootFrame f) {s' : DescendSide} (dir : f.dir s' = some d)
    {items : List (Option Entry)} (lists : (c.provider s').list d.path = some items) (member : some e ∈ items) :
    ∃ lefts rights j key, Comparison.Event c f lefts rights j ∧ joinedOn s' j = some (key, e) := by
  obtain ⟨lefts, rights, left, right⟩ := clean.listed down
  have inside := Comparison.seen_mem left right dir lists member (clean.shown e)
  have unique := Compare.SideIndex.mem_unique.mpr ⟨rfl, clean.alone down left right inside⟩
  rw [← Listed.joinedOn_unique] at unique
  obtain ⟨j, joined, on⟩ := List.mem_filterMap.mp unique
  exact ⟨lefts, rights, j, _, ⟨down, left, right, joined⟩, on⟩

/-- A directory of the source is gone into. -/
theorem source_gone_into (event : Comparison.Event c f lefts rights j) (on : joinedOn s j = some x) (dir : x.2.kind = .dir) :
    ∃ g ∈ c.kids f, g.dir s = some x.2 := by
  obtain ⟨row, member, tells⟩ := clean.exists_tells clean.open_ event
  obtain ⟨g, kid, sides⟩ := event.gone_into clean.deep on dir (fun y on' => (clean.both_dirs member tells on on' (.inl dir)).2)
    fun _ => ⟨clean.gone, clean.uncollided event.down event.left event.right _ _⟩
  exact ⟨g, kid, sides s x on⟩

/-- So is one of the destination that met something. -/
theorem dest_gone_into (event : Comparison.Event c f lefts rights j) (on : joinedOn s j = some x)
    (on' : joinedOn s.other j = some y) (dir : y.2.kind = .dir) : ∃ g ∈ c.kids f, g.dir s.other = some y.2 := by
  obtain ⟨row, member, tells⟩ := clean.exists_tells clean.open_ event
  have dirs := clean.both_dirs member tells on on' (.inr dir)
  obtain ⟨g, kid, sides⟩ := event.gone_into clean.deep on dirs.1 (fun z on'' => Option.some.inj (on'.symm.trans on'') ▸ dir)
    fun none_ => by simp [none_] at on'
  exact ⟨g, kid, sides s.other y on'⟩

/-- Every entry of the source is in an event. -/
theorem source_event (tree : InTree (c.provider s) (c.root s) e) :
    ∃ f lefts rights j key, Comparison.Event c f lefts rights j ∧ joinedOn s j = some (key, e) := by
  induction tree with
  | top lists member child => exact ⟨_, clean.event_of_listed .refl (Comparison.rootFrame_dir c s) lists member⟩
  | deeper tree isDir lists member child ih =>
    obtain ⟨f, lefts, rights, j, key, event, on⟩ := ih
    obtain ⟨g, kid, dir⟩ := clean.source_gone_into event on isDir
    exact ⟨g, clean.event_of_listed (event.down.tail kid) dir lists member⟩

/-- Every entry of the destination is in an event, or below one that nothing met. -/
theorem dest_event (tree : InTree (c.provider s.other) (c.root s.other) e) :
    ∃ f lefts rights j y, Comparison.Event c f lefts rights j ∧ joinedOn s.other j = some y ∧
      (y.2 = e ∨ joinedOn s j = none ∧ HangsOff y.2.path e.path) := by
  induction tree with
  | top lists member child =>
    obtain ⟨lefts, rights, j, key, event, on⟩ := clean.event_of_listed .refl (Comparison.rootFrame_dir c s.other) lists member
    exact ⟨_, lefts, rights, j, _, event, on, .inl rfl⟩
  | deeper tree isDir lists member child ih =>
    obtain ⟨f, lefts, rights, j, y, event, on', rfl | ⟨none_, inside⟩⟩ := ih
    · cases on : joinedOn s j with
      | none => exact ⟨f, lefts, rights, j, y, event, on', .inr ⟨on, child.hangsOff⟩⟩
      | some x =>
        obtain ⟨g, kid, dir⟩ := clean.dest_gone_into event on on' isDir
        obtain ⟨lefts', rights', j', key, event', on₁⟩ := clean.event_of_listed (event.down.tail kid) dir lists member
        exact ⟨g, lefts', rights', j', _, event', on₁, .inl rfl⟩
    · exact ⟨f, lefts, rights, j, y, event, on', .inr ⟨none_, inside.trans child.hangsOff⟩⟩

/-- Every entry of the source comes to lie somewhere. -/
theorem lies_of_event (event : Comparison.Event c f lefts rights j) (on : joinedOn s j = some x) :
    ∃ path, Comparison.Lies c s x.2 path := by
  cases across : joinedOn s.other j with
  | some y => exact ⟨_, .met event on across⟩
  | none =>
    obtain ⟨d, above, ⟨name, named⟩, -⟩ := event.listed on
    obtain ⟨path, lands⟩ := exists_lands event.down above
    exact ⟨_, .alone event on across (clean.uncollided event.down event.left event.right _ _) above named lands⟩

theorem exists_lies (tree : InTree (c.provider s) (c.root s) e) : ∃ path, Comparison.Lies c s e path := by
  obtain ⟨f, lefts, rights, j, key, event, on⟩ := clean.source_event tree
  exact clean.lies_of_event event on

end

end Clean

end Norte.Sync
