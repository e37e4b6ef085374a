import Norte.CompareTwin

/-! Directories that are not gone into. Whatever is walked is walked together with its twin,
so that what is shut off on one side is shut off on the other. -/
namespace Norte.Compare

open Sync MergeJoin StackWalk

/-- An event of a merge is told by what it has on one side. -/
theorem Listed.joined_unique {listed : Listed} {s : DescendSide}
    {j j' : Joined (Bytes × Entry) (Bytes × Entry)} {x y : Bytes × Entry} (member : j ∈ listed.joined)
    (member' : j' ∈ listed.joined) (on : joinedOn s j = some x) (on' : joinedOn s j' = some y)
    (same : x.2.path = y.2.path) : j = j' := by
  by_contra other
  have symmetric : Std.Symm fun j j' : Joined (Bytes × Entry) (Bytes × Entry) =>
      ∀ x, joinedOn s j = some x → ∀ y, joinedOn s j' = some y → x.2.path ≠ y.2.path :=
    ⟨fun _ _ apart x on y on' same => apart y on' x on same.symm⟩
  exact (listed.joined_apart s).forall member member' other x on y on' same

/-- What is alone under its key on one side is met by what is alone under it on the other. -/
theorem Listed.joined_meets {listed : Listed} {s : DescendSide} {j : Joined (Bytes × Entry) (Bytes × Entry)}
    {x y : Bytes × Entry} (member : j ∈ listed.joined) (on : joinedOn s j = some x)
    (unique : y ∈ (listed.side s.other).unique) (same : x.1 = y.1) : joinedOn s.other j = some y := by
  have own : x ∈ (listed.side s).unique := by
    rw [← Prod.eta x]
    exact SideIndex.mem_unique.mpr (Listed.mem_joined member on)
  have risingL := listed.left.unique_rising
  have risingR := listed.right.unique_rising
  cases s with
  | left =>
    have met := meets risingL risingR own unique same
    rw [Listed.joined_unique (s := .left) member met on rfl rfl]
    rfl
  | right =>
    have met := meets risingL risingR unique own same.symm
    rw [Listed.joined_unique (s := .right) member met on rfl rfl]
    rfl

namespace Comparison

variable {c : Comparison} {s : DescendSide} {f g h : Frame} {d e : Entry} {path : VPath}
  {rel other : List Segment}

/-- A directory that is gone into is what its event has on each side. -/
theorem joinedFrame_on {listed : Listed} {depth : UInt32} {j : Joined (Bytes × Entry) (Bytes × Entry)}
    {x : Bytes × Entry} (into : c.joinedFrame listed depth j = some g) (on : joinedOn s j = some x) :
    g.dir s = some x.2 := by
  cases j with
  | left y =>
    simp only [joinedFrame, orphanFrame] at into
    split at into
    · split at into
      · cases s with
        | left =>
          cases into
          cases on
          rfl
        | right => cases on
      · cases into
    · cases into
  | right y =>
    simp only [joinedFrame, orphanFrame] at into
    split at into
    · split at into
      · cases s with
        | left => cases on
        | right =>
          cases into
          cases on
          rfl
      · cases into
    · cases into
  | both y z =>
    simp only [joinedFrame] at into
    split at into
    · cases into
      cases s with
      | left =>
        cases on
        rfl
      | right =>
        cases on
        rfl
    · cases into

/-- Nothing is gone into under a key that two entries share on the other side. -/
theorem joinedFrame_alone {listed : Listed} {depth : UInt32} {j : Joined (Bytes × Entry) (Bytes × Entry)}
    {key : Bytes} (member : j ∈ listed.joined)
    (into : c.joinedFrame listed depth j = some g) (on : joinedOn s j = some (key, d)) :
    (listed.side s.other).collided key = none := by
  cases j with
  | left x =>
    cases s with
    | left =>
      cases on
      simp only [joinedFrame] at into
      cases why : listed.right.collided key with
      | none => exact why
      | some reason =>
        rw [why] at into
        cases into
    | right => cases on
  | right x =>
    cases s with
    | left => cases on
    | right =>
      cases on
      simp only [joinedFrame] at into
      cases why : listed.left.collided key with
      | none => exact why
      | some reason =>
        rw [why] at into
        cases into
  | both x y =>
    have same := met_key member
    have l := Listed.mem_joined (s := .left) member rfl
    have r := Listed.mem_joined (s := .right) member rfl
    refine Option.not_isSome_iff_eq_none.mp fun crowded => ?_
    obtain ⟨e, inside, keyed, several⟩ := SideIndex.collided_isSome.mp crowded
    cases s with
    | left =>
      cases on
      exact several (r.2.only inside (keyed.trans (same.trans r.1.symm)) ▸ r.2)
    | right =>
      cases on
      exact several (l.2.only inside (keyed.trans (same.symm.trans l.1.symm)) ▸ l.2)

/-- Two directories are a pair for the planner, also where their contents differ. -/
theorem pairOutcome_dirs {l r : Entry} (left : l.kind = .dir) (right : r.kind = .dir) :
    (c.pairOutcome l r).verdict = .same := by
  simp [pairOutcome, hydrateRungs, left, verdictForPair, Cascade.decide, Cascade.cheapRungs, right,
    Decision.rung, PendingRow.verdict]

/-- The verdicts of what is gone into. -/
theorem joinedFrame_verdict {listed : Listed} {depth : UInt32} {j : Joined (Bytes × Entry) (Bytes × Entry)}
    (into : c.joinedFrame listed depth j = some g) : (c.joinedRow listed j).verdict = .onlyLeft ∨
      (c.joinedRow listed j).verdict = .onlyRight ∨ (c.joinedRow listed j).verdict = .same := by
  cases j with
  | left x =>
    simp only [joinedFrame] at into
    split at into
    · rename_i clear
      cases why : listed.right.collided x.1 with
      | none =>
        simp only [joinedRow, why]
        exact .inl rfl
      | some reason =>
        rw [why] at clear
        cases clear
    · cases into
  | right x =>
    simp only [joinedFrame] at into
    split at into
    · rename_i clear
      cases why : listed.left.collided x.1 with
      | none =>
        simp only [joinedRow, why]
        exact .inr (.inl rfl)
      | some reason =>
        rw [why] at clear
        cases clear
    · cases into
  | both x y =>
    simp only [joinedFrame] at into
    split at into
    · rename_i dirs
      exact .inr (.inr (pairOutcome_dirs dirs.1 dirs.2.1))
    · cases into

/-- Every directory between one that is walked and the root is walked on the way. -/
theorem exists_between (down : Reaches c.kids c.rootFrame g) (dir : g.dir s = some d)
    (below_ : HangsOff path d.path) (above : HangsOff (c.root s) path) :
    ∃ h x, Reaches c.kids c.rootFrame h ∧ h.dir s = some x ∧ x.path = path ∧ Reaches c.kids h g := by
  induction down generalizing d with
  | refl =>
    refine ⟨c.rootFrame, d, .refl, dir, ?_, .refl⟩
    have root : d.path = c.root s := by
      cases s <;>
        · obtain rfl := Option.some.inj dir
          rfl
    have := below_.length_le
    rw [root] at this ⊢
    exact above.eq_of_length (Nat.le_antisymm above.length_le this)
  | @tail f g down kid ih =>
    obtain ⟨p, dir', child, -⟩ := kids_region kid dir
    rcases child.above below_ with rfl | higher
    · exact ⟨g, d, down.tail kid, dir, rfl, .refl⟩
    · obtain ⟨h, x, first, there, at_, second⟩ := ih dir' higher
      exact ⟨h, x, first, there, at_, second.tail kid⟩

/-- The root of a side, or an entry of a directory that is listed. -/
def Known (c : Comparison) (s : DescendSide) (path : VPath) : Prop :=
  path = c.root s ∨ ∃ f lefts rights e, Reaches c.kids c.rootFrame f ∧ c.seen .left f = .ok lefts ∧
    c.seen .right f = .ok rights ∧ e ∈ ((c.index f lefts rights).side s).entries ∧ e.path = path

theorem rootFrame_dir (c : Comparison) (s : DescendSide) : c.rootFrame.dir s = some (syntheticDir (c.root s)) := by
  cases s <;> rfl

theorem join_ne_root {rel : List Segment} {name : Segment} {root : VPath} :
    under root ⟨rel ++ [name]⟩ ≠ root := by
  intro same
  have long := congrArg (fun p => p.segments.length) same
  simp [under_eq] at long

/-- The directory above one that is walked, whatever it is spelt. -/
theorem walked_parent {root : VPath} {name : Segment} (down : Reaches c.kids c.rootFrame f)
    (dir : f.dir s = some d) (at_ : d.path = under root ⟨rel ++ [name]⟩) (own : root = c.root s) :
    ∃ g p, Reaches c.kids c.rootFrame g ∧ f ∈ c.kids g ∧ g.dir s = some p ∧ p.path = under root ⟨rel⟩ := by
  rcases down.cases_tail with rfl | ⟨g, down', kid⟩
  · obtain rfl := Option.some.inj ((c.rootFrame_dir s).symm.trans dir)
    exact absurd (at_.symm.trans own.symm) join_ne_root
  · obtain ⟨p, dir', child, -⟩ := kids_region kid dir
    refine ⟨g, p, down', kid, dir', child.parent ⟨name, ?_⟩⟩
    rw [at_, under_join]

/-- A twin that is walked is walked together with what it is the twin of. -/
theorem twin_walked (twin : Twin c s rel other) (down : Reaches c.kids c.rootFrame f)
    (dir : f.dir s.other = some e) (at_ : e.path = under (c.root s.other) ⟨other⟩) :
    ∃ d, f.dir s = some d ∧ d.path = under (c.root s) ⟨rel⟩ := by
  induction twin generalizing f e with
  | root =>
    obtain rfl := frame_unique down .refl dir (c.rootFrame_dir _) at_
    exact ⟨_, c.rootFrame_dir s, rfl⟩
  | @child F lefts rights d x rel other segment name up walked left right there place alone path key ih =>
    obtain ⟨g, p, down', kid, dir', above⟩ := walked_parent down dir at_ rfl
    obtain ⟨q, here, own⟩ := ih down' dir' above
    obtain rfl := frame_unique down' walked here there (own.trans place.symm)
    obtain ⟨lefts', rights', left', right', j, member, into⟩ := kids_seen kid
    obtain rfl := Except.ok.inj (left.symm.trans left')
    obtain rfl := Except.ok.inj (right.symm.trans right')
    obtain ⟨key', on, -⟩ := joinedFrame_dir into dir
    obtain ⟨keyed, -⟩ := Listed.mem_joined member on
    have spelt : e.path = p.path.join name := by rw [at_, above, under_join]
    have met : joinedOn s.other.other j = some (((c.index g lefts rights).side s).keyOf x, x) := by
      apply Listed.joined_meets member on
      · cases s <;> exact SideIndex.mem_unique.mpr ⟨rfl, alone⟩
      · rw [← keyed, index_keyOf, index_keyOf, pairName_join spelt, pairName_join path, key]
    refine ⟨x, ?_, ?_⟩
    · cases s <;> exact joinedFrame_on into met
    · rw [path, place, under_join]

/-- A directory is walked together with what is there in the place of its twin. -/
theorem walked_met (twin : Twin c s rel other) (down : Reaches c.kids c.rootFrame h)
    (dir : h.dir s = some d) (at_ : d.path = under (c.root s) ⟨rel⟩)
    (known : c.Known s.other (under (c.root s.other) ⟨other⟩)) :
    ∃ e, h.dir s.other = some e ∧ e.path = under (c.root s.other) ⟨other⟩ := by
  cases twin with
  | root =>
    obtain rfl := frame_unique down .refl dir (c.rootFrame_dir _) at_
    exact ⟨_, c.rootFrame_dir _, rfl⟩
  | @child F lefts rights q x rel other segment name up walked left right there place alone path key =>
    rcases known with root | ⟨f, lefts', rights', e, down', left', right', inside, spelt⟩
    · exact absurd root join_ne_root
    obtain ⟨p', dir', child⟩ := seen_child (index_side left' right' s.other) inside
    have above : p'.path = under (c.root s.other) ⟨other⟩ := child.parent ⟨name, by rw [spelt, under_join]⟩
    obtain ⟨q', here, own⟩ := twin_walked up down' dir' above
    obtain rfl := frame_unique down' walked here there (own.trans place.symm)
    obtain rfl := Except.ok.inj (left.symm.trans left')
    obtain rfl := Except.ok.inj (right.symm.trans right')
    obtain ⟨g, p, down'', kid, dir'', above'⟩ := walked_parent down dir at_ rfl
    obtain rfl := frame_unique down'' walked dir'' there (above'.trans place.symm)
    obtain ⟨lefts', rights', left', right', j, member, into⟩ := kids_seen kid
    obtain rfl := Except.ok.inj (left.symm.trans left')
    obtain rfl := Except.ok.inj (right.symm.trans right')
    obtain ⟨key', on, -⟩ := joinedFrame_dir into dir
    obtain ⟨keyed, -⟩ := Listed.mem_joined member on
    have named : d.path = p.path.join segment := by rw [at_, above', under_join]
    have spelt' : e.path = p'.path.join name := by rw [spelt, above, under_join]
    have same : ((c.index g lefts rights).side s.other).keyOf e = key' := by
      refine Eq.trans ?_ keyed
      rw [index_keyOf, index_keyOf, pairName_join spelt', pairName_join named, key]
    have only : ((c.index g lefts rights).side s.other).Alone e := by
      by_contra crowded
      have several := SideIndex.collided_isSome.mpr ⟨e, inside, same, crowded⟩
      rw [joinedFrame_alone member into on] at several
      cases several
    have met := Listed.joined_meets member on (SideIndex.mem_unique.mpr ⟨same, only⟩) rfl
    exact ⟨e, joinedFrame_on into met, spelt⟩

/-- Nobody goes further down from the directory, and all that is said in it is that it could
not be listed. -/
def Blind (c : Comparison) (f : Frame) : Prop := c.kids f = [] ∧ ∀ row ∈ c.emits f, row.listingError = true

/-- The directory at the path is blind, if it is walked at all. -/
def ShutOff (c : Comparison) (s : DescendSide) (path : VPath) : Prop :=
  ∀ f d, Reaches c.kids c.rootFrame f → f.dir s = some d → d.path = path → c.Blind f

theorem Blind.reaches (blind : c.Blind f) (down : Reaches c.kids f g) : c.Blind g := by
  rcases down.cases_head with rfl | ⟨k, kid, -⟩
  · exact blind
  · rw [blind.1] at kid
    exact absurd kid List.not_mem_nil

/-- Whatever is walked at or below a directory that is shut off. -/
theorem ShutOff.below {path : VPath} (shut : c.ShutOff s path) (down : Reaches c.kids c.rootFrame g)
    (dir : g.dir s = some d) (below_ : HangsOff path d.path) (above : HangsOff (c.root s) path) : c.Blind g := by
  obtain ⟨h, x, first, there, at_, second⟩ := exists_between down dir below_ above
  exact (shut h x first there at_).reaches second

theorem hangsOff_under (root : VPath) (rel : RelPath) : HangsOff root (under root rel) := by
  rw [under_eq]
  exact ⟨rfl, rfl, List.prefix_append _ _⟩

/-- The same below its twin, on the side the twin is a path of. -/
theorem ShutOff.across (twin : Twin c s rel other) (shut : c.ShutOff s (under (c.root s) ⟨rel⟩))
    (down : Reaches c.kids c.rootFrame g) (dir : g.dir s.other = some d)
    (below_ : HangsOff (under (c.root s.other) ⟨other⟩) d.path) : c.Blind g := by
  obtain ⟨h, x, first, there, at_, second⟩ := exists_between down dir below_ (hangsOff_under _ _)
  obtain ⟨y, here, own⟩ := twin_walked twin first there at_
  exact (shut h y first here own).reaches second

/-- The same below what it is a twin of. -/
theorem ShutOff.back (twin : Twin c s rel other) (known : c.Known s.other (under (c.root s.other) ⟨other⟩))
    (shut : c.ShutOff s.other (under (c.root s.other) ⟨other⟩)) (down : Reaches c.kids c.rootFrame g)
    (dir : g.dir s = some d) (below_ : HangsOff (under (c.root s) ⟨rel⟩) d.path) : c.Blind g := by
  obtain ⟨h, x, first, there, at_, second⟩ := exists_between down dir below_ (hangsOff_under _ _)
  obtain ⟨y, here, own⟩ := walked_met twin first there at_ known
  exact (shut h y first here own).reaches second

/-- Where a listing failed. -/
theorem blind_of_listingError {row : PendingRow} (member : row ∈ c.emits f)
    (failed : row.listingError = true) : c.Blind f := by
  rcases c.visit_cases f with ⟨lefts, rights, left, right⟩ | ⟨rows, none_, -⟩
  · rw [emits_clean left right member] at failed
    cases failed
  · refine ⟨none_, fun row' member' => ?_⟩
    rw [rows] at member'
    exact (listingErrors_spec member').1

/-- What a row names was seen, or is a root. -/
theorem emits_known {row : PendingRow} (down : Reaches c.kids c.rootFrame f) (member : row ∈ c.emits f)
    (there : row.entry s = some e) : c.Known s e.path := by
  rcases c.visit_cases f with ⟨lefts, rights, left, right⟩ | ⟨rows, -, -⟩
  · have named : e.path ∈ (c.emits f).filterMap (rowPath s) :=
      List.mem_filterMap.mpr ⟨row, member, by rw [rowPath, there]; rfl⟩
    obtain ⟨x, inside, same⟩ := List.mem_map.mp ((emits_paths left right s).subset named)
    exact .inr ⟨f, lefts, rights, x, down, left, right, inside, same⟩
  · obtain ⟨d, dir, region⟩ := emits_region member there
    rw [rows] at member
    rw [if_pos (listingErrors_spec member).1] at region
    subst region
    rcases down.cases_tail with rfl | ⟨g, down', kid⟩
    · obtain rfl := Option.some.inj ((c.rootFrame_dir s).symm.trans dir)
      exact .inl rfl
    · obtain ⟨lefts, rights, left, right, j, merges, into⟩ := kids_seen kid
      obtain ⟨key, on, -⟩ := joinedFrame_dir into dir
      exact .inr ⟨g, lefts, rights, e, down', left, right, (Listed.mem_joined merges on).2.mem, rfl⟩

/-- The verdicts that keep a comparison from going in. -/
def Closes (row : PendingRow) : Prop :=
  row.verdict = .error ∨ row.verdict = .ambiguous ∨ row.verdict = .typeMismatch

/-- An entry whose row says that nobody went in. -/
theorem shutOff_of_row {row : PendingRow} (trees : ∀ s, FiniteTree (c.provider s) (c.root s))
    (down : Reaches c.kids c.rootFrame f) (member : row ∈ c.emits f) (there : row.entry s = some e)
    (shuts : Closes row) : c.ShutOff s e.path := by
  intro g d down' dir same
  obtain ⟨p, dirF, region⟩ := emits_region member there
  cases failed : row.listingError with
  | true =>
    rw [if_pos failed] at region
    subst region
    obtain rfl := frame_unique down' down dir dirF same
    exact blind_of_listingError member failed
  | false =>
    exfalso
    rw [if_neg (by simp [failed])] at region
    obtain ⟨name, spelt⟩ := region
    obtain ⟨top, first, hangs⟩ := reaches_region down dirF
    obtain rfl := Option.some.inj ((c.rootFrame_dir s).symm.trans first)
    obtain ⟨rel, place⟩ := Option.isSome_iff_exists.mp (RelPath.under_isSome.mpr hangs)
    have place := eq_under place
    have at_ : d.path = under (c.root s) ⟨rel.segments ++ [name]⟩ := by
      rw [same, spelt, under_join, place]
      rfl
    obtain ⟨h, q, down'', kid, dir', above⟩ := walked_parent down' dir at_ rfl
    obtain rfl := frame_unique down'' down dir' dirF (above.trans place.symm)
    obtain ⟨lefts, rights, left, right, j, merges, into⟩ := kids_seen kid
    obtain ⟨key, on, -⟩ := joinedFrame_dir into dir
    have own := c.joinedRow_entry (c.index h lefts rights) j s
    rw [on] at own
    obtain ⟨x, named, sameEntry⟩ := own
    obtain ⟨n, level⟩ := reaches_level down
    have inside := (Listed.mem_joined merges on).2.mem
    have once := count_listed left right (level.distinct trees left right s) inside
    have mine : namesPath s d.path row = true := namesPath_iff.mpr ⟨failed, e, there, same.symm⟩
    have his : namesPath s d.path (c.joinedRow (c.index h lefts rights) j) = true :=
      namesPath_iff.mpr ⟨c.joinedRow_listingError _ j, x, named, sameEntry.1⟩
    obtain rfl := eq_of_countP_one once member (joinedRow_mem left right merges) mine his
    have verdict := joinedFrame_verdict into
    rcases shuts with shuts | shuts | shuts <;> simp [shuts] at verdict

end Comparison

end Norte.Compare
