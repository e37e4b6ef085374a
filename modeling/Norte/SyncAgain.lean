import Norte.CompareAlike
import Norte.SyncMirror

/-! Two clean trees compared again after their plan was applied. Every directory of the source is walked beside
what came to lie of it, every entry meets what stands where it came to lie, and no step of the new plan acts
but on a pair that is told apart by its dates, or left unknown to be copied. -/
namespace Norte.Sync

open Compare (Comparison Frame Listed joinedOn InTree pairName)
open MergeJoin StackWalk Transducer

/-- What an entry of the destination is after the plan, by what stands at its path: a leaf that was not written
is what it was, and one that was written is alike what it was written from. -/
inductive Stands (c c' : Comparison) (s : DescendSide) (e : Entry) : Standing → Prop
  | own {kind : EntryKind} (same : e.kind = kind)
    (answers : kind ≠ .dir → Compare.Answers (c.provider s.other) (c'.provider s.other) e.path)
    (listed : kind ≠ .dir → ∀ y, InTree (c.provider s.other) (c.root s.other) y → y.path = e.path → e = y) :
    Stands c c' s e (.own kind)
  | dir {path : VPath} (kind : e.kind = .dir) : Stands c c' s e (.dir path)
  | leaf {path : VPath}
    (alike : ∀ x, InTree (c.provider s) (c.root s) x → x.path = path → Compare.Alike (c.provider s) (c'.provider s.other) x e) :
    Stands c c' s e (.leaf path)

/-- `c'` compares what `c` did, with `after` at the destination where `t` was. -/
structure Again (c c' : Comparison) (s : DescendSide) (t after : Standings) : Prop where
  opts : c'.opts = c.opts
  names : c'.names = c.names
  sides : c'.sides = c.sides
  digest : c'.sha256 = c.sha256
  all : c'.excluded = []
  source : c'.provider s = c.provider s
  root : ∀ s, c'.root s = c.root s
  stands : ∀ e, InTree (c'.provider s.other) (c.root s.other) e → ∃ st, after e.path = some st ∧ Stands c c' s e st
  only : ∀ path, HangsOff (c.root s.other) path → path ≠ c.root s.other → after path ≠ none →
    ∃ e, InTree (c'.provider s.other) (c.root s.other) e ∧ e.path = path
  folds : ∀ path, t path = some (.own .dir) →
    (c'.provider s.other).capabilitiesAt path = (c.provider s.other).capabilitiesAt path

/-- A pair that its dates tell apart, or that is left unknown where such pairs are to be copied. -/
def Unsettled (opts : SyncOptions) (row : CompareRow) : Prop :=
  row.verdict = .different ∧ row.criterion = .mtime ∨ row.verdict = .same ∧ row.confidence = .unknown ∧ opts.onUnknown = .copy

/-- A directory of the source that is walked again, beside where it came to lie. -/
structure Beside (c : Comparison) (s : DescendSide) (f f' : Frame) (d z : Entry) : Prop where
  down : Reaches c.kids c.rootFrame f
  dir : f.dir s = some d
  dir' : f'.dir s = some d
  across : f'.dir s.other = some z
  lands : Comparison.Lands c s f z.path

variable {c c' : Comparison} {s : DescendSide} {rows rows' : List CompareRow} {opts : SyncOptions} {row : CompareRow}
  {f f' g' : Frame} {lefts rights : List Entry} {j : Joined (Bytes × Entry) (Bytes × Entry)} {x y : Bytes × Entry}
  {d z e : Entry} {t : Standings}

theorem sidesFor_congr (sides : c'.sides = c.sides) (folds : ∀ s, Compare.capabilitiesOf (c'.provider s) (f'.dir s) =
    Compare.capabilitiesOf (c.provider s) (f.dir s)) : c'.sidesFor f' = c.sidesFor f := by
  have left : Compare.capabilitiesOf c'.left f'.left = Compare.capabilitiesOf c.left f.left := folds .left
  have right : Compare.capabilitiesOf c'.right f'.right = Compare.capabilitiesOf c.right f.right := folds .right
  unfold Comparison.sidesFor
  rw [left, right, sides]

namespace Again

theorem shown {after : Standings} (again : Again c c' s t after) (e : Entry) : c'.visible e = true := by
  simp [Comparison.visible, again.all]

/-- What an event has of the source is in the directory of the source. -/
theorem source_listed {after : Standings} (again : Again c c' s t after) (event : Comparison.Event c' f' lefts rights j)
    (beside : Beside c s f f' d z) (on : joinedOn s j = some x) : Child d.path x.2.path ∧
    ∃ items, (c.provider s).list d.path = some items ∧ some x.2 ∈ items := by
  obtain ⟨d', dir, child, -⟩ := event.listed on
  obtain rfl := Option.some.inj (beside.dir'.symm.trans dir)
  have tree := event.inTree on
  rw [again.source] at tree
  exact ⟨child, Comparison.listed_of_inTree tree child⟩

variable (clean : Clean c s rows opts) (shows : Shows (c.provider s.other) (c.root s.other) t)
  (again : Again c c' s t (opts.applied (fullPlan rows opts) t))
include clean shows again

/-- What an entry came to lie on has its key. -/
theorem same_key (beside : Beside c s f f' d z) (child : Child d.path x.2.path) {path : VPath} (lies : Comparison.Lies c s x.2 path)
    (at_ : e.path = path) : c'.names.keyFor (pairName e) (c'.sidesFor f') = c'.names.keyFor (pairName x.2) (c'.sidesFor f') := by
  cases lies with
  | alone event on none_ clear above named lands =>
    rw [Comparison.pairName_join at_, Comparison.pairName_join named]
  | @met g lefts rights j key y event on on' =>
    obtain ⟨d', dir, child', -⟩ := event.listed on
    obtain rfl := Comparison.frame_unique beside.down event.down beside.dir dir (child.parent child')
    obtain ⟨w, there, -, -⟩ := event.listed on'
    have paths := beside.lands.eq_there there
    have sides : c'.sidesFor f' = c.sidesFor f := by
      apply sidesFor_congr again.sides
      have source : Compare.capabilitiesOf (c'.provider s) (f'.dir s) = Compare.capabilitiesOf (c.provider s) (f.dir s) := by
        rw [again.source, beside.dir', beside.dir]
      have dest : Compare.capabilitiesOf (c'.provider s.other) (f'.dir s.other) =
          Compare.capabilitiesOf (c.provider s.other) (f.dir s.other) := by
        rw [beside.across, there]
        simp only [Compare.capabilitiesOf, Option.bind_some]
        rw [paths]
        exact again.folds _ (shows.dir beside.down there)
      intro s'
      by_cases here : s' = s
      · rw [here]
        exact source
      · have away : s' = s.other := by
          cases s <;> cases s' <;> first | rfl | exact absurd rfl here
        rw [away]
        exact dest
    have same : pairName e = pairName y.2 := by rw [pairName, pairName, at_]
    have keyX := (Listed.mem_joined event.member on).1
    have keyY := (Listed.mem_joined event.member on').1
    rw [Comparison.index_keyOf] at keyX keyY
    rw [sides, again.names, same, keyX, keyY, Comparison.joined_key event.member on on']

/-- What came to lie of an entry is listed beside it, with its key. -/
theorem mate (beside : Beside c s f f' d z) (left : c'.seen .left f' = .ok lefts) (right : c'.seen .right f' = .ok rights)
    {items : List (Option Entry)} (lists : (c.provider s).list d.path = some items) (member : some e ∈ items) :
    ∃ path y, Comparison.Lies c s e path ∧ y.path = path ∧ y ∈ ((c'.index f' lefts rights).side s.other).entries ∧
      ((c'.index f' lefts rights).side s.other).keyOf y = ((c'.index f' lefts rights).side s).keyOf e := by
  obtain ⟨lefts₀, rights₀, j, key, event, on⟩ := clean.event_of_listed beside.down beside.dir lists member
  obtain ⟨path, lies⟩ := clean.lies_of_event event on
  obtain ⟨g, d', above, down, dir, child, lands, child'⟩ := lies.within
  obtain ⟨d₀, dir₀, child₀, -⟩ := event.listed on
  obtain rfl := Option.some.inj (beside.dir.symm.trans dir₀)
  obtain rfl := Comparison.frame_unique beside.down down beside.dir dir (child₀.parent child)
  obtain rfl := beside.lands.unique lands beside.down
  obtain ⟨st, there, -⟩ := clean.holds shows lies
  obtain ⟨hangs, proper⟩ := lies.inside
  obtain ⟨y, tree, at_⟩ := again.only path hangs proper (by rw [there]; exact nofun)
  rw [← at_] at child'
  obtain ⟨items', lists', member'⟩ := Comparison.listed_of_inTree tree child'
  have inside := Comparison.seen_mem left right beside.across lists' member' (again.shown y)
  refine ⟨path, y, lies, at_, inside, ?_⟩
  rw [Comparison.index_keyOf, Comparison.index_keyOf]
  exact again.same_key clean shows beside (x := (key, e)) child₀ lies at_

section

variable (event : Comparison.Event c' f' lefts rights j) (beside : Beside c s f f' d z)
include event beside

/-- Every entry of the source meets what came to lie of it. -/
theorem meets (on : joinedOn s j = some x) : ((c'.index f' lefts rights).side s.other).collided x.1 = none →
    joinedOn s.other j ≠ none := by
  intro clear none_
  obtain ⟨-, items, lists, member⟩ := again.source_listed event beside on
  obtain ⟨path, y, -, -, inside, key⟩ := again.mate clean shows beside event.left event.right lists member
  have own := (Listed.mem_joined event.member on).1
  exact Comparison.not_seen_of_event event.member on none_ clear inside (key.trans own)

/-- And meets nothing else. -/
theorem met_lies (on : joinedOn s j = some x) (on' : joinedOn s.other j = some y) : Comparison.Lies c s x.2 y.2.path := by
  obtain ⟨-, items, lists, member⟩ := again.source_listed event beside on
  obtain ⟨path, y', lies, rfl, inside, key⟩ := again.mate clean shows beside event.left event.right lists member
  obtain ⟨key', alone⟩ := Listed.mem_joined event.member on'
  have own := (Listed.mem_joined event.member on).1
  have one := alone.only inside (by rw [key, own, key', Comparison.joined_key event.member on on'])
  rw [← one]
  exact lies

/-- After a mirror no entry of the destination is alone. -/
theorem none_alone (mirror : opts.mode = .mirror) (on' : joinedOn s.other j = some y)
    (clear : ((c'.index f' lefts rights).side s).collided y.1 = none) : joinedOn s j ≠ none := by
  intro none_
  have tree := event.inTree on'
  rw [again.root] at tree
  obtain ⟨w, across, child, -⟩ := event.listed on'
  obtain rfl := Option.some.inj (beside.across.symm.trans across)
  obtain ⟨st, stood, -⟩ := again.stands y.2 tree
  by_cases lain : ∃ e, InTree (c.provider s) (c.root s) e ∧ Comparison.Lies c s e y.2.path
  · obtain ⟨e, tree', lies⟩ := lain
    obtain ⟨g, d', path, down, dir, child₁, lands, child₂⟩ := lies.within
    obtain rfl := child.parent child₂
    obtain rfl := beside.lands.frame lands beside.down down beside.dir dir
    obtain rfl := Option.some.inj (beside.dir.symm.trans dir)
    obtain ⟨items, lists, member⟩ := Comparison.listed_of_inTree tree' child₁
    obtain ⟨path, y', lies', at_, -, key⟩ := again.mate clean shows beside event.left event.right lists member
    obtain rfl := lies.unique lies'
    have same : pairName y' = pairName y.2 := by rw [pairName, pairName, at_]
    have own := (Listed.mem_joined event.member on').1
    rw [Comparison.index_keyOf] at own
    rw [Comparison.index_keyOf, Comparison.index_keyOf, same, own] at key
    have lists' : (c'.provider s).list d.path = some items := by rw [again.source, lists]
    have inside := Comparison.seen_mem event.left event.right beside.dir' lists' member (again.shown e)
    have away : ((c'.index f' lefts rights).side s).keyOf e ≠ y.1 := by
      cases s with
      | left => exact @Comparison.not_seen_of_event c' .right _ _ _ _ _ _ event.member on' none_ clear inside
      | right => exact @Comparison.not_seen_of_event c' .left _ _ _ _ _ _ event.member on' none_ clear inside
    exact away (by rw [Comparison.index_keyOf, ← key])
  · have gone := clean.elsewhere shows fun e tree' lies => lain ⟨e, tree', lies⟩
    obtain ⟨hangs, longer⟩ := below_root tree
    rw [← clean.dest] at hangs longer
    have proper : y.2.path ≠ opts.destRoot := by
      intro same
      rw [same] at longer
      exact lt_irrefl _ longer
    rw [if_pos ⟨mirror, hangs, proper⟩, stood] at gone
    cases gone

/-- A pair is found to be the same, unless it cannot be read, or its dates tell it apart. -/
theorem close (on : joinedOn s j = some x) (on' : joinedOn s.other j = some y) {row : CompareRow}
    (tells : Tells c' f' lefts rights j row) :
    row.verdict = .error ∨ row.verdict = .same ∨ row.verdict = .different ∧ row.criterion = .mtime := by
  have lies := again.met_lies clean shows event beside on on'
  have tree := event.inTree on'
  rw [again.root] at tree
  have source := event.inTree on
  rw [again.source, again.root] at source
  obtain ⟨st, stood, stands⟩ := again.stands y.2 tree
  obtain ⟨st', there, holds⟩ := clean.holds shows lies
  obtain rfl := Option.some.inj (there.symm.trans stood)
  obtain ⟨k, told⟩ := tells.row
  have alike (alike : Compare.Alike (c.provider s) (c'.provider s.other) x.2 y.2) :
      row.verdict = .error ∨ row.verdict = .same ∨ row.verdict = .different ∧ row.criterion = .mtime := by
    rw [← again.source] at alike
    rw [told, Comparison.joinedRow_pair on on']
    cases s with
    | left => exact Comparison.pairOutcome_close alike c'.names k
    | right => exact Comparison.pairOutcome_close alike.symm c'.names k
  generalize at_ : y.2.path = path at holds
  cases holds with
  | made =>
    unfold Standing.of at stands
    split at stands
    · rename_i dir
      cases stands with
      | dir kind =>
        right
        left
        rw [told, Compare.intoRow_verdict, Comparison.joinedRow_pair on on']
        cases s with
        | left => exact Comparison.pairOutcome_dirs dir kind
        | right => exact Comparison.pairOutcome_dirs kind dir
    · cases stands with
      | leaf copied => exact alike (copied x.2 source rfl)
  | @matched row₀ g lefts₀ rights₀ j₀ key y₀ member tells₀ on₀ on₀' same certain kinds =>
    cases stands with
    | own standing answers listed =>
      right
      left
      rw [told, Compare.intoRow_verdict, Comparison.joinedRow_pair on on']
      by_cases dir : y₀.2.kind = .dir
      · cases s with
        | left => exact Comparison.pairOutcome_dirs (kinds.trans dir) (standing.trans dir)
        | right => exact Comparison.pairOutcome_dirs (standing.trans dir) (kinds.trans dir)
      have one := listed dir y₀.2 (tells₀.inTree on₀') at_.symm
      obtain ⟨k₀, told₀⟩ := tells₀.row
      have own : Compare.Answers (c.provider s) (c'.provider s) x.2.path := by
        rw [again.source]
        exact ⟨rfl, rfl, rfl⟩
      rw [told₀, Compare.intoRow_verdict, Comparison.joinedRow_pair on₀ on₀', ← one] at same
      rw [← same]
      cases s with
      | left => rw [Comparison.pairOutcome_congr again.opts again.digest own (answers dir)]
      | right => rw [Comparison.pairOutcome_congr again.opts again.digest (answers dir) own]

end

/-- What is gone into is beside where it came to lie. -/
theorem beside_kid (beside : Beside c s f f' d z) (down : Reaches c'.kids c'.rootFrame f') (kid : g' ∈ c'.kids f') :
    ∃ g e w, Beside c s g g' e w := by
  obtain ⟨lefts, rights, j, event, sides, clear⟩ := Comparison.Event.of_kid down kid
  have orphans : c'.opts.descendOrphans = some s.side := by rw [again.opts, clean.gone]
  cases dir : g'.dir s with
  | none =>
    have other := (Comparison.orphan_side (down.tail kid) dir).symm.trans orphans
    cases s <;> cases other
  | some e =>
    obtain ⟨x, on, rfl⟩ : ∃ x, joinedOn s j = some x ∧ x.2 = e := Option.map_eq_some_iff.mp ((sides s).trans dir)
    cases across : g'.dir s.other with
    | none =>
      have none_ : joinedOn s.other j = none := Option.map_eq_none_iff.mp ((sides s.other).trans across)
      exact absurd none_ (again.meets clean shows event beside on (clear s x on))
    | some w =>
      obtain ⟨y, on', rfl⟩ : ∃ y, joinedOn s.other j = some y ∧ y.2 = w := Option.map_eq_some_iff.mp ((sides s.other).trans across)
      have lies := again.met_lies clean shows event beside on on'
      obtain ⟨-, -, -, isDir⟩ := Comparison.kids_region kid dir
      obtain ⟨child, items, lists, member⟩ := again.source_listed event beside on
      obtain ⟨lefts₀, rights₀, j₀, key, event₀, on₀⟩ := clean.event_of_listed beside.down beside.dir lists member
      obtain ⟨g, kid₀, dir₀⟩ := clean.source_gone_into event₀ on₀ isDir
      obtain ⟨path, lands⟩ := exists_lands (beside.down.tail kid₀) dir₀
      obtain rfl := lies.unique (.of_lands lands beside.down kid₀ dir₀)
      exact ⟨g, x.2, y.2, beside.down.tail kid₀, dir₀, dir, across, lands⟩

/-- All that is walked is beside something. -/
theorem exists_beside (down : Reaches c'.kids c'.rootFrame f') : ∃ f d z, Beside c s f f' d z := by
  induction down with
  | refl =>
    refine ⟨c.rootFrame, _, _, .refl, c.rootFrame_dir s, ?_, c'.rootFrame_dir s.other, ?_⟩
    · rw [Comparison.rootFrame_dir, again.root]
    · rw [again.root]
      exact .there (c.rootFrame_dir s.other)
  | tail down kid ih =>
    obtain ⟨f, d, z, beside⟩ := ih
    exact again.beside_kid clean shows beside down kid

/-- A step of the new plan that acts writes over a pair that its dates tell apart, or that is left unknown to
be copied. -/
theorem unsettled (wired : Wired c' s rows' opts) {step : SyncStep} {witness : Option DestWitness}
    (inside : .step step witness ∈ fullPlan rows' opts) (acts : step.kind.acts = true) : ∃ row ∈ rows', Unsettled opts row ∧
      opts.readPath step = (opts.source row).map (·.path) ∧ (opts.dest row).map (·.path) = some (opts.writtenPath step) := by
  obtain ⟨-, before, row, after, split, -, calls, -, reads, takes⟩ := wired.acting inside acts
  have member : row ∈ rows' := by simp [split]
  have sure : ¬(row.verdict = .error ∨ row.verdict = .ambiguous ∨ SyncOptions.untold row = true) := by
    intro amiss
    rw [SyncOptions.calls, if_pos amiss] at calls
    cases calls
  rw [SyncOptions.calls, if_neg sure] at calls
  split at calls
  · rename_i orphan
    rw [wired.sourceOrphan] at orphan
    obtain ⟨f', lefts, rights, j, x, tells, on, none_, clear⟩ := wired.tells_orphan member orphan
    obtain ⟨f, d, z, beside⟩ := again.exists_beside clean shows tells.down
    exact absurd none_ (again.meets clean shows tells.toEvent beside on clear)
  rename_i paired
  split at calls
  · rename_i orphan
    rw [wired.destOrphan] at orphan
    obtain ⟨f', lefts, rights, j, y, tells, on, none_, clear⟩ := wired.tells_orphan member orphan
    obtain ⟨f, d, z, beside⟩ := again.exists_beside clean shows tells.down
    have mirror : opts.mode = .mirror := by
      simp only [Bool.and_eq_true, decide_eq_true_eq] at calls
      exact calls.1
    have back : s.other.other = s := by cases s <;> rfl
    rw [back] at none_ clear
    exact absurd none_ (again.none_alone clean shows tells.toEvent beside mirror on clear)
  rename_i paired'
  obtain ⟨f', lefts, rights, j, tells⟩ := wired.tells member ⟨fun error => sure (.inl error), fun apart => sure (.inr (.inl apart))⟩
  obtain ⟨x, y, on, on', -⟩ := tells.overwritten wired.side calls
  obtain ⟨f, d, z, beside⟩ := again.exists_beside clean shows tells.down
  obtain ⟨entry, there, -⟩ := tells.entry on'
  rw [← wired.dest_eq] at there
  have about : opts.readPath step = (opts.source row).map (·.path) ∧ (opts.dest row).map (·.path) = some (opts.writtenPath step) := by
    rw [SyncOptions.readsAt, if_neg paired'] at reads
    rw [SyncOptions.takesAt, if_neg paired, there] at takes
    exact ⟨reads, by rw [there, takes entry.path rfl, Option.map_some]⟩
  refine ⟨row, member, ?_, about⟩
  rcases again.close clean shows tells.toEvent beside on on' tells with error | same | differs
  · exact absurd (.inl error) sure
  · simp only [SyncOptions.overwrites, same, Bool.and_eq_true, decide_eq_true_eq] at calls
    exact .inr ⟨same, calls.2⟩
  · exact .inl differs

end Again

end Norte.Sync
