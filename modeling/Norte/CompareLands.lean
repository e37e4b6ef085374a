import Norte.CompareShut

/-! Where the entries of one side come to lie on the other: on the entry they meet, or under their
own name where the directory above them comes to lie. Two of them never come to lie at one path,
nothing stands where one is made, and none comes to lie inside what nothing met. -/
namespace Norte.Compare.Comparison

open Sync MergeJoin StackWalk

/-- The path at which what is planned for a directory is written. -/
inductive Lands (c : Comparison) (s : DescendSide) : Frame → VPath → Prop
  | there {f : Frame} {d : Entry} (dir : f.dir s.other = some d) : Lands c s f d.path
  | made {f g : Frame} {d e : Entry} {path : VPath} {name : Segment} (up : Lands c s f path)
    (down : Reaches c.kids c.rootFrame f) (kid : g ∈ c.kids f) (missing : g.dir s.other = none)
    (above : f.dir s = some d) (dir : g.dir s = some e) (named : e.path = d.path.join name) :
    Lands c s g (path.join name)

variable {c : Comparison} {s : DescendSide} {f g : Frame} {d e : Entry} {path : VPath}

/-- A directory that is gone into is alone under its key in the one above. -/
theorem kid_alone (kid : g ∈ c.kids f) (dir : g.dir s = some e) : ∃ lefts rights, c.seen .left f = .ok lefts ∧
    c.seen .right f = .ok rights ∧ ((c.index f lefts rights).side s).Alone e := by
  obtain ⟨lefts, rights, left, right, j, member, into⟩ := kids_seen kid
  obtain ⟨key, on, -⟩ := joinedFrame_dir into dir
  exact ⟨lefts, rights, left, right, (Listed.mem_joined member on).2⟩

namespace Lands

/-- Where a directory comes to lie has its keys. -/
theorem twin (lands : Lands c s f path) (down : Reaches c.kids c.rootFrame f) (dir : f.dir s = some d) :
    ∃ rel other, d.path = under (c.root s) ⟨rel⟩ ∧ path = under (c.root s.other) ⟨other⟩ ∧ Twin c s rel other := by
  induction lands generalizing d with
  | @there f d' there =>
    obtain ⟨rel, at_, -, others⟩ := frame_twins down dir
    obtain ⟨other, at_', twin⟩ := others d'.path (by rw [there]; rfl)
    exact ⟨rel, other, at_, at_', twin⟩
  | @made f g p e path name up walked kid missing above here named ih =>
    obtain rfl := Option.some.inj (here.symm.trans dir)
    obtain ⟨rel, other, at_, at_', twin⟩ := ih walked above
    obtain ⟨lefts, rights, left, right, alone⟩ := kid_alone kid dir
    refine ⟨rel ++ [name], other ++ [name], ?_, ?_, .child twin walked left right above at_ alone named rfl⟩
    · rw [named, at_, under_join]
    · rw [at_', under_join]

/-- One directory at most comes to lie at a path. -/
theorem frame (lands : Lands c s f path) (lands' : Lands c s g path) (down : Reaches c.kids c.rootFrame f)
    (down' : Reaches c.kids c.rootFrame g) (dir : f.dir s = some d) (dir' : g.dir s = some e) : f = g := by
  obtain ⟨rel, other, at_, placed, twin⟩ := lands.twin down dir
  obtain ⟨rel', other', at_', placed', twin'⟩ := lands'.twin down' dir'
  have same := congrArg (RelPath.under (c.root s.other)) (placed.symm.trans placed')
  rw [relPath_under, relPath_under] at same
  obtain ⟨rfl⟩ := RelPath.mk.inj (Option.some.inj same)
  obtain rfl := twin.injective twin'
  exact frame_unique down down' dir dir' (at_.trans at_'.symm)

end Lands

/-- An entry that is not seen of a side under a key, though the directory was listed. -/
theorem not_seen_of_event {lefts rights : List Entry} {j : Joined (Bytes × Entry) (Bytes × Entry)} {x : Bytes × Entry}
    (member : j ∈ (c.index f lefts rights).joined) (on : joinedOn s j = some x) (none_ : joinedOn s.other j = none)
    (clear : ((c.index f lefts rights).side s.other).collided x.1 = none)
    (inside : e ∈ ((c.index f lefts rights).side s.other).entries) :
    ((c.index f lefts rights).side s.other).keyOf e ≠ x.1 := by
  intro same
  by_cases alone : ((c.index f lefts rights).side s.other).Alone e
  · have met := Listed.joined_meets member on (SideIndex.mem_unique.mpr ⟨same, alone⟩) rfl
    simp [none_] at met
  · have several := SideIndex.collided_isSome.mpr ⟨e, inside, same, alone⟩
    simp [clear] at several

theorem index_keyOf_join {lefts rights : List Entry} {name : Segment} (named : e.path = path.join name) :
    ((c.index f lefts rights).side s).keyOf e = c.names.keyFor name.bytes (c.sidesFor f) := by
  rw [index_keyOf, pairName_join named]

theorem listed_of_inTree {p : Provider} {root : VPath} (tree : InTree p root e) (child : Child path e.path) :
    ∃ items, p.list path = some items ∧ some e ∈ items := by
  cases tree with
  | top listed member above =>
    obtain rfl := child.parent above
    exact ⟨_, listed, member⟩
  | deeper _ _ listed member above =>
    obtain rfl := child.parent above
    exact ⟨_, listed, member⟩

namespace Lands

theorem eq_there (lands : Lands c s f path) (dir : f.dir s.other = some d) : path = d.path := by
  cases lands with
  | there there =>
    obtain rfl := Option.some.inj (there.symm.trans dir)
    rfl
  | made up walked kid missing =>
    rw [missing] at dir
    cases dir

/-- Nothing that the comparison may see stands at the name of an entry that nothing met, in the
directory where the one above it comes to lie. -/
theorem free {lefts rights : List Entry} {j : Joined (Bytes × Entry) (Bytes × Entry)} {x : Bytes × Entry} {name : Segment}
    (up : Lands c s f path) (walked : Reaches c.kids c.rootFrame f) (above : f.dir s = some d)
    (left : c.seen .left f = .ok lefts) (right : c.seen .right f = .ok rights)
    (event : j ∈ (c.index f lefts rights).joined) (on : joinedOn s j = some x) (none_ : joinedOn s.other j = none)
    (clear : ((c.index f lefts rights).side s.other).collided x.1 = none) (named : x.2.path = d.path.join name)
    (unmade : f.dir s.other = none → ∀ {y}, InTree (c.provider s.other) (c.root s.other) y → c.visible y = true → y.path ≠ path)
    (tree : InTree (c.provider s.other) (c.root s.other) e) (shown : c.visible e = true) : e.path ≠ path.join name := by
  intro at_
  have child : Child path e.path := ⟨name, at_⟩
  cases there : f.dir s.other with
  | none =>
    cases tree with
    | top listed member top =>
      obtain rfl := child.parent top
      have root : Lands c s c.rootFrame (c.root s.other) := .there (c.rootFrame_dir s.other)
      obtain rfl := up.frame root walked .refl above (c.rootFrame_dir s)
      simp [rootFrame_dir] at there
    | @deeper y items _ tree isDir listed member top =>
      exact unmade there tree (visible_of_below shown top.hangsOff) (top.parent child)
  | some y =>
    obtain rfl := up.eq_there there
    obtain ⟨items, listed, member⟩ := listed_of_inTree tree child
    have inside := seen_mem left right there listed member shown
    apply not_seen_of_event event on none_ clear inside
    rw [index_keyOf_join at_, ← index_keyOf_join (s := s) named, (Listed.mem_joined event on).1]

/-- Nothing that the comparison may see stands where a directory is to be made. -/
theorem nothing_there (lands : Lands c s g path) (missing : g.dir s.other = none)
    (tree : InTree (c.provider s.other) (c.root s.other) e) (shown : c.visible e = true) : e.path ≠ path := by
  induction lands generalizing e with
  | there dir =>
    rw [missing] at dir
    cases dir
  | @made f g d x p name up walked kid _ above dir named ih =>
    obtain ⟨lefts, rights, left, right, j, event, into⟩ := kids_seen kid
    obtain ⟨key, on, -⟩ := joinedFrame_dir into dir
    have none_ : joinedOn s.other j = none := by
      cases across : joinedOn s.other j with
      | none => rfl
      | some z =>
        rw [joinedFrame_on into across] at missing
        cases missing
    exact up.free walked above left right event on none_ (joinedFrame_alone event into on) named
      (fun there => ih there) tree shown

end Lands

/-- A directory with nothing across is one of an orphan on the side that is gone down. -/
theorem orphan_side (down : Reaches c.kids c.rootFrame f) (missing : f.dir s = none) :
    c.opts.descendOrphans = some s.other.side := by
  rcases down.cases_tail with rfl | ⟨p, -, kid⟩
  · rw [rootFrame_dir] at missing
    cases missing
  · obtain ⟨lefts, rights, -, -, j, -, into⟩ := kids_seen kid
    have orphan {e : Entry} {at_ : Side} (into : c.orphanFrame e at_ p.depth = some f) : c.opts.descendOrphans = some at_ := by
      unfold orphanFrame at into
      split at into
      · rename_i descends
        simp only [descendsIntoOrphan, Bool.and_eq_true, decide_eq_true_eq] at descends
        exact descends.1.2
      · cases into
    cases j with
    | left x =>
      have on := joinedFrame_on (s := .left) (x := x) into rfl
      simp only [joinedFrame] at into
      split at into
      · cases s with
        | left =>
          rw [missing] at on
          cases on
        | right => exact orphan into
      · cases into
    | right x =>
      have on := joinedFrame_on (s := .right) (x := x) into rfl
      simp only [joinedFrame] at into
      split at into
      · cases s with
        | right =>
          rw [missing] at on
          cases on
        | left => exact orphan into
      · cases into
    | both x y =>
      cases s with
      | left =>
        have on := joinedFrame_on (s := .left) (x := x) into rfl
        rw [missing] at on
        cases on
      | right =>
        have on := joinedFrame_on (s := .right) (x := y) into rfl
        rw [missing] at on
        cases on

namespace Lands

variable {path' : VPath}

/-- A directory comes to lie at one path. -/
theorem unique (lands : Lands c s f path) (lands' : Lands c s f path') (down : Reaches c.kids c.rootFrame f) : path = path' := by
  induction lands generalizing path' with
  | there dir => exact (lands'.eq_there dir).symm
  | @made f g d e p name up walked kid missing above dir named ih =>
    cases lands' with
    | there dir' =>
      rw [missing] at dir'
      cases dir'
    | @made f' _ d' e' p' name' up' walked' kid' _ above' dir' named' =>
      obtain rfl := Option.some.inj (dir.symm.trans dir')
      have child : Child d.path e.path := ⟨name, named⟩
      obtain rfl := frame_unique walked walked' above above' (child.parent ⟨name', named'⟩)
      obtain rfl := Option.some.inj (above.symm.trans above')
      rw [ih up' walked, (join_injective (named.symm.trans named')).2]

/-- A directory comes to lie at or below the root. -/
theorem inside (lands : Lands c s f path) (down : Reaches c.kids c.rootFrame f) : HangsOff (c.root s.other) path := by
  induction lands with
  | there dir =>
    obtain ⟨top, first, hangs⟩ := reaches_region down dir
    obtain rfl := Option.some.inj ((c.rootFrame_dir s.other).symm.trans first)
    exact hangs
  | made up walked kid missing above dir named ih => exact (ih walked).trans (Child.hangsOff ⟨_, rfl⟩)

/-- What stands at or above the place where a directory comes to lie is a directory that is paired. -/
theorem paired_above (lands : Lands c s f path) (down : Reaches c.kids c.rootFrame f) (dir : f.dir s = some d)
    (tree : InTree (c.provider s.other) (c.root s.other) e) (shown : c.visible e = true) (above : HangsOff e.path path)
    (proper : HangsOff (c.root s.other) e.path) : ∃ g x y, Reaches c.kids c.rootFrame g ∧ g.dir s = some x ∧
      g.dir s.other = some y ∧ y.path = e.path := by
  induction lands generalizing d with
  | @there f y across =>
    obtain ⟨h, x, walked, there, same, later⟩ := exists_between down across above proper
    obtain ⟨z, there', -⟩ := reaches_region later dir
    exact ⟨h, z, x, walked, there', there, same⟩
  | @made f g d' e' p name up walked kid missing above' dir' named ih =>
    have child : Child p (p.join name) := ⟨name, rfl⟩
    rcases child.above above with same | inside
    · exact absurd same ((made up walked kid missing above' dir' named).nothing_there missing tree shown)
    · exact ih walked above' inside

end Lands

/-! ### Entries -/

/-- An event of the merge of two directories that are walked together. -/
structure Event (c : Comparison) (f : Frame) (lefts rights : List Entry) (j : Joined (Bytes × Entry) (Bytes × Entry)) : Prop where
  down : Reaches c.kids c.rootFrame f
  left : c.seen .left f = .ok lefts
  right : c.seen .right f = .ok rights
  member : j ∈ (c.index f lefts rights).joined

variable {lefts rights lefts' rights' : List Entry} {j j' : Joined (Bytes × Entry) (Bytes × Entry)} {x y : Bytes × Entry}

namespace Event

/-- The entries of an event were listed in the directories of the frame. -/
theorem listed (event : Event c f lefts rights j) (on : joinedOn s j = some x) :
    ∃ d, f.dir s = some d ∧ Child d.path x.2.path ∧ x.2 ∈ ((c.index f lefts rights).side s).entries := by
  have inside := (Listed.mem_joined event.member on).2.mem
  obtain ⟨d, dir, child⟩ := seen_child (index_side event.left event.right s) inside
  exact ⟨d, dir, child, inside⟩

theorem inTree (event : Event c f lefts rights j) (on : joinedOn s j = some x) : InTree (c.provider s) (c.root s) x.2 := by
  obtain ⟨n, at_⟩ := reaches_level event.down
  obtain ⟨-, -, -, inside⟩ := event.listed on
  exact at_.seen_inTree (index_side event.left event.right s) inside

/-- An entry is in one event. -/
theorem unique (event : Event c f lefts rights j) (event' : Event c g lefts' rights' j') (on : joinedOn s j = some x)
    (on' : joinedOn s j' = some y) (same : x.2.path = y.2.path) : f = g ∧ lefts = lefts' ∧ rights = rights' ∧ j = j' := by
  obtain ⟨d, dir, child, -⟩ := event.listed on
  obtain ⟨d', dir', child', -⟩ := event'.listed on'
  rw [← same] at child'
  obtain rfl := frame_unique event.down event'.down dir dir' (child.parent child')
  obtain rfl := Except.ok.inj (event.left.symm.trans event'.left)
  obtain rfl := Except.ok.inj (event.right.symm.trans event'.right)
  exact ⟨rfl, rfl, rfl, Listed.joined_unique event.member event'.member on on' same⟩

/-- The event of a directory that is gone into. -/
theorem of_kid (down : Reaches c.kids c.rootFrame f) (kid : g ∈ c.kids f) : ∃ lefts rights j, Event c f lefts rights j ∧
    (∀ s, (joinedOn s j).map Prod.snd = g.dir s) ∧
      ∀ s x, joinedOn s j = some x → ((c.index f lefts rights).side s.other).collided x.1 = none := by
  obtain ⟨lefts, rights, left, right, j, member, into⟩ := kids_seen kid
  refine ⟨lefts, rights, j, ⟨down, left, right, member⟩, fun s => ?_, fun s x on => joinedFrame_alone member into on⟩
  cases on : joinedOn s j with
  | some x => rw [joinedFrame_on into on, Option.map_some]
  | none =>
    cases dir : g.dir s with
    | none => rfl
    | some d =>
      obtain ⟨key, on', -⟩ := joinedFrame_dir into dir
      rw [on] at on'
      cases on'

/-- A directory is gone into, where the walk goes deep enough, unless it met what is none, or nothing and
is on the side that is not gone down. -/
theorem gone_into (event : Event c f lefts rights j) (deep : c.opts.maxDepth = none) (on : joinedOn s j = some x)
    (dir : x.2.kind = .dir) (met : ∀ y, joinedOn s.other j = some y → y.2.kind = .dir)
    (lone : joinedOn s.other j = none → c.opts.descendOrphans = some s.side ∧
      ((c.index f lefts rights).side s.other).collided x.1 = none) :
    ∃ g ∈ c.kids f, ∀ s x, joinedOn s j = some x → g.dir s = some x.2 := by
  have below : c.descendsBelow f.depth = true := by simp [descendsBelow, deep]
  have into : ∃ g, c.joinedFrame (c.index f lefts rights) f.depth j = some g := by
    have orphan (none_ : joinedOn s.other j = none) : ∃ g, c.orphanFrame x.2 s.side f.depth = some g := by
      rcases c.orphanFrame_cases f.depth s dir with ⟨g, into, -⟩ | other | stopped
      · exact ⟨g, into⟩
      · exact absurd (lone none_).1 other
      · rw [below] at stopped
        cases stopped
    cases j with
    | left z =>
      cases s with
      | left =>
        obtain rfl := Option.some.inj on
        have clear : (c.index f lefts rights).right.collided z.1 = none := (lone rfl).2
        simpa [joinedFrame, sideOutcome, clear, DescendSide.side] using orphan rfl
      | right => cases on
    | right z =>
      cases s with
      | left => cases on
      | right =>
        obtain rfl := Option.some.inj on
        have clear : (c.index f lefts rights).left.collided z.1 = none := (lone rfl).2
        simpa [joinedFrame, sideOutcome, clear, DescendSide.side] using orphan rfl
    | both z z' =>
      have dirs : z.2.kind = .dir ∧ z'.2.kind = .dir := by
        cases s with
        | left =>
          obtain rfl := Option.some.inj on
          exact ⟨dir, met z' rfl⟩
        | right =>
          obtain rfl := Option.some.inj on
          exact ⟨met z rfl, dir⟩
      simp [joinedFrame, dirs, below]
  obtain ⟨g, into⟩ := into
  exact ⟨g, joinedFrame_mem event.left event.right event.member into, fun _ _ => joinedFrame_on into⟩

/-- No directory comes to lie inside what nothing met. -/
theorem spared (event : Event c f lefts rights j) (none_ : joinedOn s j = none) (on : joinedOn s.other j = some y)
    (shown : c.visible y.2 = true) (lands : Lands c s g path) (down : Reaches c.kids c.rootFrame g) (dir : g.dir s = some d) :
    ¬HangsOff y.2.path path := by
  intro above
  obtain ⟨p, there, child, -⟩ := event.listed on
  obtain ⟨top, first, hangs⟩ := reaches_region event.down there
  obtain rfl := Option.some.inj ((c.rootFrame_dir s.other).symm.trans first)
  obtain ⟨h, z, z', walked, own, across, same⟩ := lands.paired_above down dir (event.inTree on) shown above (hangs.trans child.hangsOff)
  rcases walked.cases_tail with rfl | ⟨k, before, kid⟩
  · have long := hangs.length_le
    have deep := child.length
    obtain rfl := Option.some.inj ((c.rootFrame_dir s.other).symm.trans across)
    rw [← same] at deep
    omega
  · obtain ⟨lefts', rights', j', event', sides, -⟩ := of_kid before kid
    obtain ⟨z₁, on₁, rfl⟩ : ∃ x, joinedOn s.other j' = some x ∧ x.2 = z' := Option.map_eq_some_iff.mp ((sides s.other).trans across)
    obtain ⟨rfl, rfl, rfl, rfl⟩ := event.unique event' on on₁ same.symm
    have met := (sides s).trans own
    rw [none_] at met
    cases met

end Event

/-- Where an entry comes to lie: on the one it meets, or under its own name where nothing met it. -/
inductive Lies (c : Comparison) (s : DescendSide) (e : Entry) : VPath → Prop
  | met {f : Frame} {lefts rights : List Entry} {j : Joined (Bytes × Entry) (Bytes × Entry)} {key : Bytes} {y : Bytes × Entry}
    (event : Event c f lefts rights j) (on : joinedOn s j = some (key, e)) (on' : joinedOn s.other j = some y) :
    Lies c s e y.2.path
  | alone {f : Frame} {lefts rights : List Entry} {j : Joined (Bytes × Entry) (Bytes × Entry)} {key : Bytes} {d : Entry}
    {path : VPath} {name : Segment} (event : Event c f lefts rights j) (on : joinedOn s j = some (key, e))
    (none_ : joinedOn s.other j = none) (clear : ((c.index f lefts rights).side s.other).collided key = none)
    (above : f.dir s = some d) (named : e.path = d.path.join name) (lands : Lands c s f path) : Lies c s e (path.join name)

namespace Lies

variable {e' : Entry} {q q' : VPath}

theorem event (lies : Lies c s e q) : ∃ f lefts rights j key, Event c f lefts rights j ∧ joinedOn s j = some (key, e) := by
  cases lies with
  | met event on => exact ⟨_, _, _, _, _, event, on⟩
  | alone event on => exact ⟨_, _, _, _, _, event, on⟩

/-- An entry comes to lie in the directory where the one above it does. -/
theorem within (lies : Lies c s e q) : ∃ f d path, Reaches c.kids c.rootFrame f ∧ f.dir s = some d ∧ Child d.path e.path ∧
    Lands c s f path ∧ Child path q := by
  cases lies with
  | met event on on' =>
    obtain ⟨d, dir, child, -⟩ := event.listed on
    obtain ⟨z, across, child', -⟩ := event.listed on'
    exact ⟨_, d, z.path, event.down, dir, child, .there across, child'⟩
  | alone event on none_ clear above named lands => exact ⟨_, _, _, event.down, above, ⟨_, named⟩, lands, _, rfl⟩

theorem inside (lies : Lies c s e q) : HangsOff (c.root s.other) q ∧ q ≠ c.root s.other := by
  obtain ⟨f, d, path, down, -, -, lands, child⟩ := lies.within
  have hangs := lands.inside down
  refine ⟨hangs.trans child.hangsOff, ?_⟩
  rintro rfl
  have := hangs.length_le
  have := child.length
  omega

/-- A directory that is gone into lies where it comes to lie. -/
theorem of_lands (lands : Lands c s g path) (walked : Reaches c.kids c.rootFrame f) (kid : g ∈ c.kids f) (dir : g.dir s = some d) :
    Lies c s d path := by
  obtain ⟨lefts, rights, j, event, sides, clear⟩ := Event.of_kid walked kid
  obtain ⟨⟨key, x⟩, on, rfl⟩ : ∃ x, joinedOn s j = some x ∧ x.2 = d := Option.map_eq_some_iff.mp ((sides s).trans dir)
  cases lands with
  | there across =>
    obtain ⟨y, on', rfl⟩ : ∃ y, joinedOn s.other j = some y ∧ y.2 = _ := Option.map_eq_some_iff.mp ((sides s.other).trans across)
    exact .met event on on'
  | @made f' _ d' e' p name up walked' kid' missing above dir' named =>
    obtain rfl := Option.some.inj (dir.symm.trans dir')
    obtain ⟨q, above', child, -⟩ := kids_region kid dir
    obtain rfl := frame_unique walked walked' above' above (child.parent ⟨name, named⟩)
    have none_ : joinedOn s.other j = none := Option.map_eq_none_iff.mp ((sides s.other).trans missing)
    exact .alone event on none_ (clear s _ on) above named up

/-- What stands where an entry comes to lie is what it meets. -/
theorem stands (shown : ∀ e, InTree (c.provider s.other) (c.root s.other) e → c.visible e = true) (lies : Lies c s e q)
    (tree : InTree (c.provider s.other) (c.root s.other) e') (same : e'.path = q) : ∃ f lefts rights j key y,
      Event c f lefts rights j ∧ joinedOn s j = some (key, e) ∧ joinedOn s.other j = some y ∧ y.2.path = q := by
  cases lies with
  | met event on on' => exact ⟨_, _, _, _, _, _, event, on, on', rfl⟩
  | alone event on none_ clear above named lands =>
    exact absurd same (lands.free event.down above event.left event.right event.member on none_ clear named
      (fun missing _ tree shown => lands.nothing_there missing tree shown) tree (shown _ tree))

/-- One entry at most comes to lie at a path. -/
theorem injective (shown : ∀ e, InTree (c.provider s.other) (c.root s.other) e → c.visible e = true) (lies : Lies c s e q)
    (lies' : Lies c s e' q) : e = e' := by
  cases lies' with
  | met event₁ on₁ on₂ =>
    obtain ⟨f, lefts, rights, j, key, y, event, on, on', at_⟩ := lies.stands shown (event₁.inTree on₂) rfl
    obtain ⟨rfl, rfl, rfl, rfl⟩ := event.unique event₁ on' on₂ at_
    exact (Prod.mk.inj (Option.some.inj (on.symm.trans on₁))).2
  | alone event₁ on₁ none₁ clear₁ above₁ named₁ lands₁ =>
    generalize whole : (_ : VPath).join _ = q at lies
    cases lies with
    | met event on on' =>
      have lies₁ := Lies.alone event₁ on₁ none₁ clear₁ above₁ named₁ lands₁
      obtain ⟨f, lefts, rights, j, key, y, event₂, on₂, on₃, -⟩ := lies₁.stands shown (event.inTree on') whole.symm
      obtain ⟨rfl, rfl, rfl, rfl⟩ := event₁.unique event₂ on₁ on₂ rfl
      rw [none₁] at on₃
      cases on₃
    | alone event on none_ clear above named lands =>
      obtain ⟨rfl, rfl⟩ := join_injective whole
      obtain rfl := lands.frame lands₁ event.down event₁.down above above₁
      obtain rfl := Option.some.inj (above.symm.trans above₁)
      obtain ⟨-, rfl, rfl, rfl⟩ := event.unique event₁ on on₁ (named.trans named₁.symm)
      exact (Prod.mk.inj (Option.some.inj (on.symm.trans on₁))).2

/-- An entry comes to lie at one path. -/
theorem unique (lies : Lies c s e q) (lies' : Lies c s e q') : q = q' := by
  cases lies with
  | met event on on' =>
    cases lies' with
    | met event₁ on₁ on₂ =>
      obtain ⟨rfl, rfl, rfl, rfl⟩ := event.unique event₁ on on₁ rfl
      rw [Option.some.inj (on'.symm.trans on₂)]
    | alone event₁ on₁ none₁ =>
      obtain ⟨rfl, rfl, rfl, rfl⟩ := event.unique event₁ on on₁ rfl
      rw [none₁] at on'
      cases on'
  | alone event on none_ clear above named lands =>
    cases lies' with
    | met event₁ on₁ on₂ =>
      obtain ⟨rfl, rfl, rfl, rfl⟩ := event.unique event₁ on on₁ rfl
      rw [none_] at on₂
      cases on₂
    | alone event₁ on₁ none₁ clear₁ above₁ named₁ lands₁ =>
      obtain ⟨rfl, rfl, rfl, rfl⟩ := event.unique event₁ on on₁ rfl
      obtain rfl := Option.some.inj (above.symm.trans above₁)
      rw [lands.unique lands₁ event.down, (join_injective (named.symm.trans named₁)).2]

/-- Nothing comes to lie at or inside what nothing met. -/
theorem spared (shown : ∀ e, InTree (c.provider s.other) (c.root s.other) e → c.visible e = true) (lies : Lies c s e q)
    (event : Event c f lefts rights j) (none_ : joinedOn s j = none) (on : joinedOn s.other j = some y) : ¬HangsOff y.2.path q := by
  intro above
  obtain ⟨g, d, path, down, dir, -, lands, child⟩ := lies.within
  rcases child.above above with same | inside
  · obtain ⟨f', lefts', rights', j', key, y', event', on₁, on₂, at_⟩ := lies.stands shown (event.inTree on) same
    obtain ⟨rfl, rfl, rfl, rfl⟩ := event.unique event' on on₂ (same.trans at_.symm)
    rw [none_] at on₁
    cases on₁
  · exact event.spared none_ on (shown _ (event.inTree on)) lands down dir inside

end Lies

end Norte.Compare.Comparison
