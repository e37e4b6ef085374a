import Norte.CompareRows

/-! A comparison of two finite trees comes to an end and speaks once of every entry, save
below the directories whose rows say that nobody went into them. -/
namespace Norte.Compare

open Sync MergeJoin StackWalk

namespace Comparison

variable {c : Comparison} {f g : Frame} {s : DescendSide} {out : List PendingRow} {stack : List Frame}

/-! Order. -/

/-- The second row is not about the directory of an entry of the first. -/
def Foreign (row row' : PendingRow) : Prop :=
  ∀ s e e', row.entry s = some e → row'.entry s = some e' → ¬Child e'.path e.path

theorem walks_foreign (walks : Walks c.emits c.kids stack out) (apart : stack.Pairwise Apart) :
    out.Pairwise Foreign := by
  refine walks.pairwise (fun f => ?_) ?_ ?_ c.kids_apart apart
  · refine List.pairwise_of_forall_mem_list fun row member row' member' s e e' there there' child => ?_
    obtain ⟨d, dir, region⟩ := emits_region member there
    obtain ⟨d', dir', region'⟩ := emits_region member' there'
    obtain rfl := Option.some.inj (dir.symm.trans dir')
    have long := child.length
    split at region <;> split at region'
    · rw [region, region'] at long
      omega
    · have := region'.length
      rw [region] at long
      omega
    · rename_i clean failed
      rcases c.visit_cases f with ⟨lefts, rights, left, right⟩ | ⟨rows, _, _⟩
      · exact absurd failed (by simp [emits_clean left right member'])
      · rw [rows] at member
        exact absurd (listingErrors_spec member).1 clean
    · have := region.length
      have := region'.length
      omega
  · intro f k g kid path row member row' member' s e e' there there' child
    obtain ⟨d, dir, hangs⟩ := emits_hangsOff member there
    obtain ⟨d', dir', hangs'⟩ := emits_hangsOff member' there'
    obtain ⟨d'', dir'', above⟩ := reaches_region path dir'
    obtain ⟨top, dirTop, childTop, _⟩ := kids_region kid dir''
    obtain rfl := Option.some.inj (dir.symm.trans dirTop)
    have low := (above.trans hangs').length_le
    have long := child.length
    have high : e.path.segments.length ≤ d.path.segments.length + 1 := by
      obtain ⟨d₀, dir₀, region⟩ := emits_region member there
      obtain rfl := Option.some.inj (dir.symm.trans dir₀)
      split at region
      · rw [region]
        omega
      · exact region.length.le
    have := childTop.length
    omega
  · intro f h apart g path g' path' row member row' member' s e e' there there' child
    obtain ⟨d, dir, hangs⟩ := emits_hangsOff member there
    obtain ⟨d', dir', hangs'⟩ := emits_hangsOff member' there'
    exact apart.reaches path path' dir dir' e.path ⟨hangs, hangs'.trans child.hangsOff⟩

/-! How often a path is named. -/

/-- The row names the path as that of an entry, and not as that of a directory it could not list. -/
def namesPath (s : DescendSide) (path : VPath) (row : PendingRow) : Bool :=
  !row.listingError && rowPath s row = some path

theorem namesPath_iff {path : VPath} {row : PendingRow} :
    namesPath s path row = true ↔ row.listingError = false ∧ ∃ e, row.entry s = some e ∧ e.path = path := by
  simp [namesPath, rowPath]

/-- Below a directory that is not above the path, nothing names it. -/
theorem count_elsewhere {path : VPath} (walks : Walks c.emits c.kids stack out)
    (away : ∀ h ∈ stack, ∀ d, h.dir s = some d → ¬HangsOff d.path path) : out.countP (namesPath s path) = 0 := by
  refine List.countP_eq_zero.mpr fun row member named => ?_
  obtain ⟨h, inside, g, down, found⟩ := walks.mem_iff.mp member
  obtain ⟨_, e, there, rfl⟩ := namesPath_iff.mp named
  obtain ⟨d, dir, hangs⟩ := emits_hangsOff found there
  obtain ⟨top, dirTop, above⟩ := reaches_region down dir
  exact away h inside top dirTop (above.trans hangs)

/-- Rows that name a child of the directory come from the directory itself. -/
theorem count_kids {path : VPath} (walks : Walks c.emits c.kids (c.kids f) out) (dir : f.dir s = some d)
    (child : Child d.path path) : out.countP (namesPath s path) = 0 := by
  refine List.countP_eq_zero.mpr fun row member named => ?_
  obtain ⟨k, kid, g, down, found⟩ := walks.mem_iff.mp member
  obtain ⟨clean, e, there, rfl⟩ := namesPath_iff.mp named
  obtain ⟨d', dir', region⟩ := emits_region found there
  rw [clean] at region
  obtain ⟨d'', dir'', above⟩ := reaches_region down dir'
  obtain ⟨top, dirTop, childTop, _⟩ := kids_region kid dir''
  obtain rfl := Option.some.inj (dir.symm.trans dirTop)
  have := above.length_le
  have := region.length
  have := childTop.length
  have := child.length
  omega

theorem count_reaches {path : VPath} (down : Reaches c.kids g f) (dir : f.dir s = some d) (child : Child d.path path)
    (walks : Walks c.emits c.kids [g] out) :
    out.countP (namesPath s path) = (c.emits f).countP (namesPath s path) := by
  induction down using Relation.ReflTransGen.head_induction_on generalizing out with
  | refl =>
    cases walks with
    | @cons _ _ inner rest below later =>
      cases later
      rw [List.append_nil, List.countP_append, count_kids below dir child, Nat.add_zero]
  | @head g k kid down ih =>
    cases walks with
    | @cons _ _ inner rest below later =>
      cases later
      obtain ⟨top, dirTop, above⟩ := reaches_region down dir
      obtain ⟨d', dir', child', _⟩ := kids_region kid dirTop
      have own : (c.emits g).countP (namesPath s path) = 0 := by
        refine List.countP_eq_zero.mpr fun row member named => ?_
        obtain ⟨clean, e, there, rfl⟩ := namesPath_iff.mp named
        obtain ⟨d₀, dir₀, region⟩ := emits_region member there
        obtain rfl := Option.some.inj (dir'.symm.trans dir₀)
        rw [clean] at region
        have := region.length
        have := above.length_le
        have := child'.length
        have := child.length
        omega
      obtain ⟨before, after, split⟩ := List.append_of_mem kid
      have apart := c.kids_apart g
      rw [split] at below apart
      obtain ⟨first, others, rfl, walksBefore, walksOthers⟩ := Walks.split below
      obtain ⟨here, last, rfl, walksHere, walksAfter⟩ := Walks.split (show Walks c.emits c.kids ([k] ++ after) others from walksOthers)
      obtain ⟨_, apartAfter, apartAcross⟩ := List.pairwise_append.mp apart
      have inside := above.trans child.hangsOff
      have none : first.countP (namesPath s path) = 0 := by
        refine count_elsewhere walksBefore fun h other d₀ dir₀ hangs => ?_
        have away := apartAcross h other k List.mem_cons_self s d₀ top dir₀ dirTop
        exact (hangs.comparable inside).elim away.1 away.2
      have none' : last.countP (namesPath s path) = 0 := by
        refine count_elsewhere walksAfter fun h other d₀ dir₀ hangs => ?_
        have away := (List.pairwise_cons.mp apartAfter).1 h other s top d₀ dirTop dir₀
        exact (inside.comparable hangs).elim away.1 away.2
      rw [List.append_nil, List.countP_append, List.countP_append, List.countP_append, own, none, none', ih walksHere]
      omega

/-- An entry of a directory that was listed is named once there. -/
theorem count_listed {lefts rights : List Entry} (left : c.seen .left f = .ok lefts) (right : c.seen .right f = .ok rights)
    (distinct : (((c.index f lefts rights).side s).entries.map (·.path)).Nodup)
    (inside : e ∈ ((c.index f lefts rights).side s).entries) : (c.emits f).countP (namesPath s e.path) = 1 := by
  have paths := emits_paths left right s
  have once : ((c.emits f).filterMap (rowPath s)).count e.path = 1 := by
    rw [paths.count_eq]
    exact List.count_eq_one_of_mem distinct (List.mem_map_of_mem inside)
  rw [List.count_filterMap] at once
  rw [← once]
  refine List.countP_congr fun row member => ?_
  have clean : row.listingError = false := emits_clean left right member
  simp [namesPath, clean]

end Comparison

/-! The trees. -/

/-- The entries of a tree, as its listings hang together. -/
inductive InTree (p : Provider) (root : VPath) : Entry → Prop where
  | top {items e} : p.list root = some items → some e ∈ items → Child root e.path → InTree p root e
  | deeper {d items e} : InTree p root d → d.kind = .dir → p.list d.path = some items → some e ∈ items →
      Child d.path e.path → InTree p root e

/-- The root, or a directory below it. -/
def TreeDir (p : Provider) (root dir : VPath) : Prop := dir = root ∨ ∃ d, InTree p root d ∧ d.kind = .dir ∧ d.path = dir

/-- A tree of bounded height, whose directories name no child twice. Listings come in any
order, and can fail at any place. -/
structure FiniteTree (p : Provider) (root : VPath) : Prop where
  bounded : ∃ height, ∀ e, InTree p root e → e.path.segments.length ≤ root.segments.length + height
  distinct : ∀ dir items, TreeDir p root dir → p.list dir = some items → ((items.filterMap id).map (·.path)).Nodup

theorem TreeDir.inTree {p : Provider} {root dir : VPath} {entries : List Entry} (inside : TreeDir p root dir)
    (lists : p.Lists dir entries) (member : e ∈ entries) : InTree p root e := by
  obtain ⟨items, children⟩ := lists
  rcases inside with rfl | ⟨d, tree, isDir, rfl⟩
  · exact .top items (List.mem_map_of_mem member) (children e member)
  · exact .deeper tree isDir items (List.mem_map_of_mem member) (children e member)

namespace Comparison

variable {c : Comparison} {f g : Frame} {s : DescendSide} {n : Nat}

/-- The directories of a frame lie in their trees, as deep as the frame. -/
structure AtLevel (c : Comparison) (n : Nat) (f : Frame) : Prop where
  inside : ∀ s d, f.dir s = some d → TreeDir (c.provider s) (c.root s) d.path
  level : ∀ s d, f.dir s = some d → d.path.segments.length = (c.root s).segments.length + n
  depth : f.depth.toNat = min n (2 ^ 32 - 1)

theorem satSucc_toNat (depth : UInt32) : (satSucc depth).toNat = min (depth.toNat + 1) (2 ^ 32 - 1) := by
  have bound : depth.toNat < 2 ^ 32 := depth.toNat_lt
  unfold satSucc
  split
  · rename_i full
    rw [full]
    rfl
  · rename_i room
    have small : depth.toNat ≠ 2 ^ 32 - 1 := fun full => room (UInt32.toNat_inj.mp full)
    rw [UInt32.toNat_add, show (1 : UInt32).toNat = 1 from rfl, Nat.mod_eq_of_lt (by omega)]
    omega

theorem kids_depth (kid : g ∈ c.kids f) : g.depth = satSucc f.depth ∧ ∃ s e, g.dir s = some e := by
  obtain ⟨lefts, rights, _, _, j, _, into⟩ := kids_seen kid
  have orphan {x : Entry} {at_ : Side} (into : c.orphanFrame x at_ f.depth = some g) :
      g.depth = satSucc f.depth ∧ ∃ s e, g.dir s = some e := by
    unfold orphanFrame at into
    split at into
    · cases at_ with
      | left =>
        obtain rfl := Option.some.inj into
        exact ⟨rfl, .left, x, rfl⟩
      | right =>
        obtain rfl := Option.some.inj into
        exact ⟨rfl, .right, x, rfl⟩
      | unknown => exact nomatch into
    · exact nomatch into
  cases j with
  | left x =>
    simp only [joinedFrame] at into
    split at into
    · exact orphan into
    · exact nomatch into
  | right x =>
    simp only [joinedFrame] at into
    split at into
    · exact orphan into
    · exact nomatch into
  | both x y =>
    simp only [joinedFrame] at into
    split at into
    · obtain rfl := Option.some.inj into
      exact ⟨rfl, .left, x.2, rfl⟩
    · exact nomatch into

theorem AtLevel.seen_inTree {entries : List Entry} (at_ : c.AtLevel n f) (seen : c.seen s f = .ok entries)
    (member : e ∈ entries) : InTree (c.provider s) (c.root s) e := by
  obtain ⟨d, dir, _⟩ := seen_child seen member
  obtain ⟨listed, lists, rfl⟩ := seen_ok seen dir
  exact (at_.inside s d dir).inTree lists (List.mem_of_mem_filter member)

theorem AtLevel.kid (at_ : c.AtLevel n f) (kid : g ∈ c.kids f) : c.AtLevel (n + 1) g := by
  obtain ⟨lefts, rights, left, right, j, member, into⟩ := kids_seen kid
  refine ⟨fun s e there => ?_, fun s e there => ?_, ?_⟩
  · obtain ⟨key, on, isDir⟩ := joinedFrame_dir into there
    exact .inr ⟨e, at_.seen_inTree (index_side left right s) (Listed.mem_joined member on).2.mem, isDir, rfl⟩
  · obtain ⟨d, dir, child, _⟩ := kids_region kid there
    rw [child.length, at_.level s d dir, Nat.add_assoc]
  · rw [(kids_depth kid).1, satSucc_toNat, at_.depth]
    omega

theorem atLevel_root (c : Comparison) : c.AtLevel 0 c.rootFrame := by
  refine ⟨fun s d dir => ?_, fun s d dir => ?_, rfl⟩ <;>
    · cases s <;>
      · obtain rfl := Option.some.inj dir
        first | exact .inl rfl | rfl

theorem reaches_level (down : Reaches c.kids c.rootFrame f) : ∃ n, c.AtLevel n f := by
  induction down with
  | refl => exact ⟨0, c.atLevel_root⟩
  | tail _ kid ih =>
    obtain ⟨n, at_⟩ := ih
    exact ⟨n + 1, at_.kid kid⟩

/-- Going to children ends, since every step is one level deeper in a finite tree. -/
theorem AtLevel.ends {height : Nat}
    (bounded : ∀ s e, InTree (c.provider s) (c.root s) e → e.path.segments.length ≤ (c.root s).segments.length + height)
    (at_ : c.AtLevel n f) : Acc (fun g f => g ∈ c.kids f) f := by
  induction left : height - n generalizing n f with
  | zero =>
    refine ⟨f, fun g kid => ?_⟩
    obtain ⟨_, s, e, there⟩ := kids_depth kid
    have deeper := at_.kid kid
    obtain ⟨lefts, rights, seenL, seenR, j, member, into⟩ := kids_seen kid
    obtain ⟨key, on, _⟩ := joinedFrame_dir into there
    have tree := at_.seen_inTree (index_side seenL seenR s) (Listed.mem_joined member on).2.mem
    have := bounded s e tree
    have := deeper.level s e there
    omega
  | succ k ih => exact ⟨f, fun g kid => ih (at_.kid kid) (by omega)⟩

theorem walks_total (trees : ∀ s, FiniteTree (c.provider s) (c.root s)) :
    ∃ out, Walks c.emits c.kids [c.rootFrame] out := by
  obtain ⟨heightL, left⟩ := (trees .left).bounded
  obtain ⟨heightR, right⟩ := (trees .right).bounded
  have bounded (s : DescendSide) (e : Entry) (tree : InTree (c.provider s) (c.root s) e) :
      e.path.segments.length ≤ (c.root s).segments.length + max heightL heightR := by
    cases s with
    | left =>
      have := left e tree
      omega
    | right =>
      have := right e tree
      omega
  refine Walks.total fun f inside => ?_
  obtain rfl := List.mem_singleton.mp inside
  exact AtLevel.ends bounded c.atLevel_root

theorem AtLevel.distinct {lefts rights : List Entry} (trees : ∀ s, FiniteTree (c.provider s) (c.root s))
    (at_ : c.AtLevel n f) (left : c.seen .left f = .ok lefts) (right : c.seen .right f = .ok rights) (s : DescendSide) :
    (((c.index f lefts rights).side s).entries.map (·.path)).Nodup := by
  have seen := index_side left right s
  cases dir : f.dir s with
  | none =>
    rw [seen_missing dir] at seen
    rw [← Except.ok.inj seen]
    exact .nil
  | some d =>
    obtain ⟨listed, ⟨items, _⟩, same⟩ := seen_ok seen dir
    have nodup := (trees s).distinct _ _ (at_.inside s d dir) items
    rw [same]
    refine List.Nodup.sublist (List.filter_sublist.map _) ?_
    simpa using nodup

end Comparison

/-! What the rows say. -/

def rowEntry (row : CompareRow) : DescendSide → Option Entry
  | .left => row.left
  | .right => row.right

/-- The row of a directory that could not be listed. -/
def isListingError (row : CompareRow) : Bool := row.verdict = .error && row.criterion = .presence

/-- The row names the path as that of an entry, merged or in a collision. -/
def rowNames (s : DescendSide) (path : VPath) (row : CompareRow) : Bool :=
  !isListingError row && (rowEntry row s).map (·.path) = some path

section

variable {names : Names} {n : Nat} {row : PendingRow}

@[simp] theorem intoRow_entry (s : DescendSide) : rowEntry (row.intoRow names n) s = row.entry s := by
  cases row <;> cases s <;> rfl

@[simp] theorem intoRow_verdict : (row.intoRow names n).verdict = row.verdict := by cases row <;> rfl

@[simp] theorem intoRow_listingError : isListingError (row.intoRow names n) = row.listingError := by
  cases row <;> rfl

theorem rowNames_intoRow (s : DescendSide) (path : VPath) :
    rowNames s path (row.intoRow names n) = Comparison.namesPath s path row := by
  unfold rowNames Comparison.namesPath
  rw [intoRow_listingError, intoRow_entry]
  rfl

theorem mem_numbered_of_mem (names : Names) (n : Nat) {out : List PendingRow} (member : row ∈ out) :
    ∃ k, row.intoRow names k ∈ numbered names n out := by
  obtain ⟨k, found⟩ := List.getElem?_of_mem member
  exact ⟨n + k + 1, mem_numbered.mpr ⟨k, row, found, rfl⟩⟩

theorem mem_of_mem_numbered {out : List PendingRow} {r : CompareRow} (member : r ∈ numbered names n out) :
    ∃ row ∈ out, ∃ k, r = row.intoRow names k := by
  obtain ⟨k, row, found, rfl⟩ := mem_numbered.mp member
  exact ⟨row, List.mem_of_getElem? found, _, rfl⟩

theorem countP_numbered (s : DescendSide) (path : VPath) (out : List PendingRow) :
    (numbered names n out).countP (rowNames s path) = out.countP (Comparison.namesPath s path) := by
  induction out generalizing n with
  | nil => rfl
  | cons row out ih => rw [numbered, List.countP_cons, List.countP_cons, ih, rowNames_intoRow]

end

def orphanVerdict : DescendSide → CompareVerdict
  | .left => .onlyLeft
  | .right => .onlyRight

namespace Comparison

/-- Deeper below the root than the comparison goes. -/
def Deep (c : Comparison) (s : DescendSide) (d : VPath) : Prop :=
  ∃ max, c.opts.maxDepth = some max ∧ max.toNat < d.segments.length - (c.root s).segments.length

/-- A row of the directory says that nobody went into it: it is ambiguous, could not be
listed, is an orphan on a side that is not descended, or met what is no directory. -/
def Shuts (c : Comparison) (s : DescendSide) (d : Entry) (row : CompareRow) : Prop :=
  row.verdict = .ambiguous ∨ isListingError row ∨
    (row.verdict = orphanVerdict s ∧ c.opts.descendOrphans ≠ some s.side) ∨
    ∃ x, rowEntry row s.other = some x ∧ ¬(d.kind = .dir ∧ x.kind = .dir)

def Shut (c : Comparison) (rows : List CompareRow) (s : DescendSide) (d : VPath) : Prop :=
  c.Deep s d ∨ ∃ row ∈ rows, ∃ x, rowEntry row s = some x ∧ x.path = d ∧ c.Shuts s x row

/-- The two directories are compared with one another. -/
def Meets (c : Comparison) (rows : List CompareRow) (left right : VPath) : Prop :=
  (left = c.leftRoot ∧ right = c.rightRoot) ∨
    ∃ row ∈ rows, ∃ l r, row.left = some l ∧ row.right = some r ∧ l.path = left ∧ r.path = right

/-- The directory is compared with one that could not be listed. -/
def ShutAcross (c : Comparison) (rows : List CompareRow) (s : DescendSide) (d : VPath) : Prop :=
  ∃ row ∈ rows, isListingError row ∧ ∃ x, rowEntry row s.other = some x ∧
    match s with
    | .left => c.Meets rows d x.path
    | .right => c.Meets rows x.path d

variable {c : Comparison} {f g : Frame} {s : DescendSide} {out : List PendingRow} {n : Nat}

theorem emits_mem (walks : Walks c.emits c.kids [c.rootFrame] out) (down : Reaches c.kids c.rootFrame f) {row : PendingRow}
    (member : row ∈ c.emits f) : row ∈ out :=
  walks.mem_iff.mpr ⟨c.rootFrame, List.mem_singleton_self _, f, down, member⟩

theorem joinedRow_mem {lefts rights : List Entry} {j : Joined (Bytes × Entry) (Bytes × Entry)}
    (left : c.seen .left f = .ok lefts) (right : c.seen .right f = .ok rights)
    (member : j ∈ (c.index f lefts rights).joined) : c.joinedRow (c.index f lefts rights) j ∈ c.emits f := by
  rw [emits_listed left right]
  exact List.mem_append_right _ (List.mem_map_of_mem member)

/-- A directory that is gone into, or a pair of them, has a row. -/
theorem kid_row (walks : Walks c.emits c.kids [c.rootFrame] out) (down : Reaches c.kids c.rootFrame f) (kid : g ∈ c.kids f) :
    ∃ row ∈ out, row.listingError = false ∧ ∀ s d, g.dir s = some d → ∃ e, row.entry s = some e ∧ SameEntry e d := by
  obtain ⟨lefts, rights, left, right, j, member, into⟩ := kids_seen kid
  refine ⟨_, emits_mem walks down (joinedRow_mem left right member), c.joinedRow_listingError _ j, fun s d dir => ?_⟩
  obtain ⟨key, on, _⟩ := joinedFrame_dir into dir
  have own := c.joinedRow_entry (c.index f lefts rights) j s
  rw [on] at own
  exact own

/-- The two sides of a frame are the roots, or met in a row. -/
theorem frame_meets (walks : Walks c.emits c.kids [c.rootFrame] out) (down : Reaches c.kids c.rootFrame f)
    (left : f.dir .left = some l) (right : f.dir .right = some r) : c.Meets (numbered c.names 0 out) l.path r.path := by
  rcases down.cases_tail with rfl | ⟨f', down', kid⟩
  · obtain rfl := Option.some.inj left
    obtain rfl := Option.some.inj right
    exact .inl ⟨rfl, rfl⟩
  · obtain ⟨row, member, _, own⟩ := kid_row walks down' kid
    obtain ⟨l', thereL, sameL⟩ := own .left l left
    obtain ⟨r', thereR, sameR⟩ := own .right r right
    obtain ⟨k, inside⟩ := mem_numbered_of_mem c.names 0 member
    exact .inr ⟨_, inside, l', r', (intoRow_entry .left).trans thereL, (intoRow_entry .right).trans thereR,
      sameL.1, sameR.1⟩

theorem dir_named (walks : Walks c.emits c.kids [c.rootFrame] out) (down : Reaches c.kids c.rootFrame f)
    (dir : f.dir s = some d) : d.path = c.root s ∨ ∃ row ∈ numbered c.names 0 out, rowNames s d.path row = true := by
  rcases down.cases_tail with rfl | ⟨f', down', kid⟩
  · cases s <;>
    · obtain rfl := Option.some.inj dir
      exact .inl rfl
  · obtain ⟨row, member, clean, own⟩ := kid_row walks down' kid
    obtain ⟨e, there, same⟩ := own s d dir
    obtain ⟨k, inside⟩ := mem_numbered_of_mem c.names 0 member
    refine .inr ⟨_, inside, ?_⟩
    rw [rowNames_intoRow]
    exact namesPath_iff.mpr ⟨clean, e, there, same.1⟩

/-- A directory that is gone into was listed, or a row says that it or its pair was not. -/
theorem listed_or_shut (walks : Walks c.emits c.kids [c.rootFrame] out) (down : Reaches c.kids c.rootFrame f)
    (dir : f.dir s = some d) :
    (∃ lefts rights, c.seen .left f = .ok lefts ∧ c.seen .right f = .ok rights) ∨
      c.Shut (numbered c.names 0 out) s d.path ∨ c.ShutAcross (numbered c.names 0 out) s d.path := by
  rcases c.visit_cases f with listed | ⟨rows, _, s', reason, failed⟩
  · exact .inl listed
  refine .inr ?_
  have error : ∃ row ∈ c.emits f, row.listingError = true ∧ row.entry s' = f.dir s' := by
    rw [rows]
    unfold listingErrors
    cases s' with
    | left =>
      rw [failed]
      exact ⟨_, List.mem_append_left _ (List.mem_singleton_self _), rfl, rfl⟩
    | right =>
      rw [failed]
      exact ⟨_, List.mem_append_right _ (List.mem_singleton_self _), rfl, rfl⟩
  obtain ⟨row, member, listing, own⟩ := error
  obtain ⟨k, inside⟩ := mem_numbered_of_mem c.names 0 (emits_mem walks down member)
  by_cases same : s' = s
  · subst same
    refine .inl (.inr ⟨_, inside, d, ?_, rfl, .inr (.inl ?_)⟩)
    · rw [intoRow_entry, own, dir]
    · rw [intoRow_listingError, listing]
  · have across : s' = s.other := by
      cases s <;> cases s' <;> first | rfl | exact absurd rfl same
    cases there : f.dir s' with
    | none =>
      rw [seen_missing there] at failed
      exact nomatch failed
    | some x =>
      refine .inr ⟨_, inside, by rw [intoRow_listingError, listing], x, ?_, ?_⟩
      · rw [intoRow_entry, ← across, own, there]
      · cases s with
        | left =>
          subst across
          exact frame_meets walks down dir there
        | right =>
          subst across
          exact frame_meets walks down there dir

theorem deep_of_stopped (at_ : c.AtLevel n f) (dir : f.dir s = some p) (child : Child p.path path)
    (stopped : c.descendsBelow f.depth = false) : c.Deep s path := by
  unfold descendsBelow at stopped
  cases limit : c.opts.maxDepth with
  | none =>
    rw [limit] at stopped
    exact nomatch stopped
  | some max =>
    rw [limit] at stopped
    have less : max.toNat < (satSucc f.depth).toNat := by
      have : ¬satSucc f.depth ≤ max := by simpa using stopped
      rwa [UInt32.le_iff_toNat_le, Nat.not_le] at this
    rw [satSucc_toNat, at_.depth] at less
    have := at_.level s p dir
    have := child.length
    exact ⟨max, limit, by omega⟩

theorem orphanFrame_cases (c : Comparison) (depth : UInt32) (s : DescendSide) (isDir : d.kind = .dir) :
    (∃ g, c.orphanFrame d s.side depth = some g ∧ g.dir s = some d) ∨ c.opts.descendOrphans ≠ some s.side ∨
      c.descendsBelow depth = false := by
  cases below : c.descendsBelow depth with
  | false => exact .inr (.inr rfl)
  | true =>
    by_cases asked : c.opts.descendOrphans = some s.side
    · refine .inl ?_
      have descends : c.descendsIntoOrphan d s.side depth = true := by
        simp [descendsIntoOrphan, isDir, asked, below]
      unfold orphanFrame
      rw [if_pos descends]
      cases s
      · exact ⟨_, rfl, rfl⟩
      · exact ⟨_, rfl, rfl⟩
    · exact .inr (.inl asked)

variable {lefts rights : List Entry} {j : Joined (Bytes × Entry) (Bytes × Entry)}

theorem joinedFrame_mem (left : c.seen .left f = .ok lefts) (right : c.seen .right f = .ok rights)
    (member : j ∈ (c.index f lefts rights).joined)
    (into : c.joinedFrame (c.index f lefts rights) f.depth j = some g) : g ∈ c.kids f := by
  rw [kids_listed left right]
  exact List.mem_filterMap.mpr ⟨j, member, into⟩

/-- A directory of a listing is gone into, or a row says why not. -/
theorem kid_or_shut (walks : Walks c.emits c.kids [c.rootFrame] out) (down : Reaches c.kids c.rootFrame f)
    (left : c.seen .left f = .ok lefts) (right : c.seen .right f = .ok rights)
    (inside : d ∈ ((c.index f lefts rights).side s).entries) (isDir : d.kind = .dir) :
    (∃ g ∈ c.kids f, g.dir s = some d) ∨ c.Shut (numbered c.names 0 out) s d.path := by
  obtain ⟨n, at_⟩ := reaches_level down
  obtain ⟨p, dir, child⟩ := seen_child (index_side left right s) inside
  -- Any row of the directory that shuts its entry does so in the stream.
  have shut {row : PendingRow} {x : Entry} (member : row ∈ c.emits f) (own : row.entry s = some x) (same : SameEntry x d)
      (why : ∀ k, c.Shuts s x (row.intoRow c.names k)) : c.Shut (numbered c.names 0 out) s d.path := by
    obtain ⟨k, found⟩ := mem_numbered_of_mem c.names 0 (emits_mem walks down member)
    exact .inr ⟨_, found, x, (intoRow_entry s).trans own, same.1, why k⟩
  have ambiguous {row : PendingRow} (member : row ∈ c.emits f) (own : row.entry s = some d)
      (why : row.verdict = .ambiguous) : c.Shut (numbered c.names 0 out) s d.path :=
    shut member own ⟨rfl, rfl⟩ fun k => .inl (intoRow_verdict.trans why)
  have orphan {row : PendingRow} (member : row ∈ c.emits f) (own : row.entry s = some d)
      (why : row.verdict = orphanVerdict s) (into : ∀ g, c.orphanFrame d s.side f.depth = some g → g ∈ c.kids f) :
      (∃ g ∈ c.kids f, g.dir s = some d) ∨ c.Shut (numbered c.names 0 out) s d.path := by
    rcases c.orphanFrame_cases f.depth s isDir with ⟨g, found, own'⟩ | other | stopped
    · exact .inl ⟨g, into g found, own'⟩
    · exact .inr (shut member own ⟨rfl, rfl⟩ fun k => .inr (.inr (.inl ⟨intoRow_verdict.trans why, other⟩)))
    · exact .inr (.inl (deep_of_stopped at_ dir child stopped))
  have met {x y : Bytes × Entry} {key : Bytes} (member : .both x y ∈ (c.index f lefts rights).joined)
      (own : joinedOn s (.both x y) = some (key, d)) {z : Entry} (there : (joinedOn s.other (.both x y)).map Prod.snd = some z)
      (dirs : d.kind = .dir ∧ z.kind = .dir → x.2.kind = .dir ∧ y.2.kind = .dir) :
      (∃ g ∈ c.kids f, g.dir s = some d) ∨ c.Shut (numbered c.names 0 out) s d.path := by
    by_cases both : z.kind = .dir
    · obtain ⟨dirX, dirY⟩ := dirs ⟨isDir, both⟩
      cases below : c.descendsBelow f.depth with
      | false => exact .inr (.inl (deep_of_stopped at_ dir child below))
      | true =>
        refine .inl ⟨⟨some x.2, some y.2, satSucc f.depth⟩, joinedFrame_mem left right member ?_, ?_⟩
        · simp only [joinedFrame]
          rw [if_pos ⟨dirX, dirY, below⟩]
        · cases s <;> exact congrArg some (congrArg Prod.snd (Option.some.inj own))
    · have rowS := c.joinedRow_entry (c.index f lefts rights) (.both x y) s
      have rowO := c.joinedRow_entry (c.index f lefts rights) (.both x y) s.other
      rw [own] at rowS
      obtain ⟨⟨key', z'⟩, on, rfl⟩ := Option.map_eq_some_iff.mp there
      rw [on] at rowO
      obtain ⟨d', thereS, sameS⟩ := rowS
      obtain ⟨z'', thereO, sameO⟩ := rowO
      refine .inr (shut (joinedRow_mem left right member) thereS sameS fun k => .inr (.inr (.inr ⟨z'', ?_, ?_⟩)))
      · exact (intoRow_entry _).trans thereO
      · rw [sameO.2]
        exact fun kinds => both kinds.2
  by_cases alone : ((c.index f lefts rights).side s).Alone d
  · have unique := SideIndex.mem_unique.mpr ⟨rfl, alone⟩
    rw [← Listed.joinedOn_unique] at unique
    obtain ⟨j, member, on⟩ := List.mem_filterMap.mp unique
    have row := joinedRow_mem left right member
    have into (g : Frame) := joinedFrame_mem (g := g) left right member
    cases s with
    | left =>
      cases j with
      | left x =>
        obtain rfl := Option.some.inj on
        simp only [joinedRow, joinedFrame] at row into
        cases why : (c.index f lefts rights).right.collided (((c.index f lefts rights).side .left).keyOf d) with
        | some reason =>
          rw [why] at row
          exact .inr (ambiguous row rfl rfl)
        | none =>
          rw [why] at row into
          exact orphan row rfl rfl into
      | right x => cases on
      | both x y =>
        obtain rfl := Option.some.inj on
        exact met member rfl rfl id
    | right =>
      cases j with
      | left x => cases on
      | right x =>
        obtain rfl := Option.some.inj on
        simp only [joinedRow, joinedFrame] at row into
        cases why : (c.index f lefts rights).left.collided (((c.index f lefts rights).side .right).keyOf d) with
        | some reason =>
          rw [why] at row
          exact .inr (ambiguous row rfl rfl)
        | none =>
          rw [why] at row into
          exact orphan row rfl rfl into
      | both x y =>
        obtain rfl := Option.some.inj on
        exact met member rfl rfl And.symm
  · obtain ⟨reason, why⟩ := Option.ne_none_iff_exists'.mp (mt (SideIndex.reason_eq_none inside).mp alone)
    have collision := SideIndex.mem_collisions.mpr ⟨inside, why⟩
    refine .inr ?_
    have row : ∃ row ∈ collisionRows (c.index f lefts rights), row.entry s = some d ∧ row.verdict = .ambiguous := by
      cases s with
      | left => exact ⟨_, List.mem_append_left _ (List.mem_map_of_mem collision), rfl, rfl⟩
      | right => exact ⟨_, List.mem_append_right _ (List.mem_map_of_mem collision), rfl, rfl⟩
    obtain ⟨row, member, own, verdict⟩ := row
    exact ambiguous (by rw [emits_listed left right]; exact List.mem_append_left _ member) own verdict

theorem visible_of_below (seen : c.visible e = true) (above : HangsOff d.path e.path) : c.visible d = true := by
  unfold visible at seen ⊢
  simp only [Bool.not_eq_true', List.any_eq_false] at seen ⊢
  intro x inside hides
  exact seen x inside (RelPath.under_isSome.mpr ((RelPath.under_isSome.mp hides).trans above))

/-- Nothing shuts off the directories above the path. -/
def Open (c : Comparison) (rows : List CompareRow) (s : DescendSide) (path : VPath) : Prop :=
  ∀ d, HangsOff d path → d ≠ path → ¬c.Shut rows s d ∧ ¬c.ShutAcross rows s d

theorem Open.above {rows : List CompareRow} {d path : VPath} (clear : c.Open rows s path) (child : Child d path) :
    c.Open rows s d := by
  refine fun top hangs _ => clear top (hangs.trans child.hangsOff) fun same => ?_
  have := child.length
  rw [same] at hangs
  have := hangs.length_le
  omega

theorem seen_mem {items : List (Option Entry)} (left : c.seen .left f = .ok lefts) (right : c.seen .right f = .ok rights)
    (dir : f.dir s = some d) (listed : (c.provider s).list d.path = some items) (member : some e ∈ items)
    (shown : c.visible e = true) : e ∈ ((c.index f lefts rights).side s).entries := by
  obtain ⟨found, ⟨all, _⟩, same⟩ := seen_ok (index_side left right s) dir
  rw [listed] at all
  obtain rfl := Option.some.inj all
  obtain ⟨e', inside, ⟨⟩⟩ := List.mem_map.mp member
  rw [same]
  exact List.mem_filter.mpr ⟨inside, shown⟩

/-- An entry below no directory that is shut off is in the listing of a directory that is compared. -/
theorem found_of_open (walks : Walks c.emits c.kids [c.rootFrame] out)
    (tree : InTree (c.provider s) (c.root s) e) (shown : c.visible e = true)
    (clear : c.Open (numbered c.names 0 out) s e.path) :
    ∃ f lefts rights d, Reaches c.kids c.rootFrame f ∧ c.seen .left f = .ok lefts ∧ c.seen .right f = .ok rights ∧
      f.dir s = some d ∧ Child d.path e.path ∧ e ∈ ((c.index f lefts rights).side s).entries := by
  induction tree with
  | @top items e listed member child =>
    have dir : c.rootFrame.dir s = some (syntheticDir (c.root s)) := by cases s <;> rfl
    have away := clear (c.root s) child.hangsOff child.ne
    rcases listed_or_shut walks .refl dir with ⟨lefts, rights, left, right⟩ | shut
    · exact ⟨_, lefts, rights, _, .refl, left, right, dir, child, seen_mem left right dir listed member shown⟩
    · exact absurd shut (not_or.mpr away)
  | @deeper d items e tree isDir listed member child ih =>
    have away := clear d.path child.hangsOff child.ne
    obtain ⟨f, lefts, rights, _, down, left, right, _, _, inside⟩ :=
      ih (visible_of_below shown child.hangsOff) (clear.above child)
    rcases kid_or_shut walks down left right inside isDir with ⟨g, kid, dir⟩ | shut
    · rcases listed_or_shut walks (down.tail kid) dir with ⟨lefts', rights', left', right'⟩ | shut
      · exact ⟨g, lefts', rights', d, down.tail kid, left', right', dir, child,
          seen_mem left' right' dir listed member shown⟩
      · exact absurd shut (not_or.mpr away)
    · exact absurd shut away.1

theorem index_keyOf (c : Comparison) (f : Frame) (lefts rights : List Entry) (s : DescendSide) (e : Entry) :
    ((c.index f lefts rights).side s).keyOf e = c.names.keyFor (pairName e) (c.sidesFor f) := by
  cases s <;> rfl

/-- The one row of an entry whose key is shared on one of the sides. -/
theorem collided_row (left : c.seen .left f = .ok lefts) (right : c.seen .right f = .ok rights) {s' : DescendSide} {x : Entry}
    (inside : e ∈ ((c.index f lefts rights).side s).entries) (crowded : ¬((c.index f lefts rights).side s).Alone e)
    (member : x ∈ ((c.index f lefts rights).side s').entries)
    (same : ((c.index f lefts rights).side s').keyOf x = ((c.index f lefts rights).side s).keyOf e) :
    ∃ row ∈ c.emits f, row.verdict = .ambiguous ∧ row.entry s' = some x ∧ row.entry s'.other = none := by
  by_cases alone : ((c.index f lefts rights).side s').Alone x
  · have other : s' = s.other := by
      cases s <;> cases s' <;> first | rfl | (exact absurd (alone.only inside same.symm ▸ alone) crowded)
    have shadow : ((c.index f lefts rights).side s).collided (((c.index f lefts rights).side s').keyOf x) ≠ none := by
      rw [same]
      exact Option.isSome_iff_ne_none.mp (SideIndex.collided_isSome.mpr ⟨e, inside, rfl, crowded⟩)
    obtain ⟨reason, why⟩ := Option.ne_none_iff_exists'.mp shadow
    have unique := SideIndex.mem_unique.mpr ⟨rfl, alone⟩
    rw [← Listed.joinedOn_unique] at unique
    obtain ⟨j, joined, on⟩ := List.mem_filterMap.mp unique
    have single {y z : Bytes × Entry} (met : .both y z ∈ (c.index f lefts rights).joined)
        (on : joinedOn s' (.both y z) = some (((c.index f lefts rights).side s').keyOf x, x)) : False := by
      have keys := met_key met
      have onY := Listed.mem_joined (s := .left) met rfl
      have onZ := Listed.mem_joined (s := .right) met rfl
      cases s with
      | left =>
        subst other
        obtain rfl := Option.some.inj on
        exact crowded (onY.2.only inside (same.symm.trans (keys.symm.trans onY.1.symm)) ▸ onY.2)
      | right =>
        subst other
        obtain rfl := Option.some.inj on
        exact crowded (onZ.2.only inside (same.symm.trans (keys.trans onZ.1.symm)) ▸ onZ.2)
    have row := joinedRow_mem left right joined
    refine ⟨_, row, ?_⟩
    subst other
    cases s with
    | left =>
      cases j with
      | left y => cases on
      | right y =>
        obtain rfl := Option.some.inj on
        simp only [joinedRow]
        rw [show (c.index f lefts rights).left.collided _ = _ from why]
        exact ⟨rfl, rfl, rfl⟩
      | both y z => exact (single joined on).elim
    | right =>
      cases j with
      | left y =>
        obtain rfl := Option.some.inj on
        simp only [joinedRow]
        rw [show (c.index f lefts rights).right.collided _ = _ from why]
        exact ⟨rfl, rfl, rfl⟩
      | right y => cases on
      | both y z => exact (single joined on).elim
  · obtain ⟨reason, why⟩ := Option.ne_none_iff_exists'.mp (mt (SideIndex.reason_eq_none member).mp alone)
    have collision := SideIndex.mem_collisions.mpr ⟨member, why⟩
    have row : ∃ row ∈ collisionRows (c.index f lefts rights), row.verdict = .ambiguous ∧ row.entry s' = some x ∧
        row.entry s'.other = none := by
      cases s' with
      | left => exact ⟨_, List.mem_append_left _ (List.mem_map_of_mem collision), rfl, rfl, rfl⟩
      | right => exact ⟨_, List.mem_append_right _ (List.mem_map_of_mem collision), rfl, rfl, rfl⟩
    obtain ⟨row, found, spec⟩ := row
    exact ⟨row, by rw [emits_listed left right]; exact List.mem_append_left _ found, spec⟩

end Comparison

theorem eq_of_countP_one {α : Type*} {p : α → Bool} {l : List α} {a b : α} (once : l.countP p = 1) (inA : a ∈ l) (inB : b ∈ l)
    (holdsA : p a = true) (holdsB : p b = true) : a = b := by
  rw [List.countP_eq_length_filter] at once
  obtain ⟨z, single⟩ := List.length_eq_one_iff.mp once
  have memA : a ∈ l.filter p := List.mem_filter.mpr ⟨inA, holdsA⟩
  have memB : b ∈ l.filter p := List.mem_filter.mpr ⟨inB, holdsB⟩
  rw [single] at memA memB
  exact (List.mem_singleton.mp memA).trans (List.mem_singleton.mp memB).symm

namespace Comparison

variable {c : Comparison} {rows : List CompareRow} {out : List PendingRow}

/-- Each entry that is seen, below no directory that is shut off, is in one row of its side. -/
def CoversOpen (c : Comparison) (rows : List CompareRow) : Prop :=
  ∀ s e, InTree (c.provider s) (c.root s) e → c.visible e = true → c.Open rows s e.path →
    rows.countP (rowNames s e.path) = 1

/-- What meets in a row has directories that meet. -/
def PairsWithinPairs (c : Comparison) (rows : List CompareRow) : Prop :=
  ∀ row ∈ rows, ∀ l r, row.left = some l → row.right = some r →
    ∃ dl dr, Child dl l.path ∧ Child dr r.path ∧ c.Meets rows dl dr

/-- The rows of a directory come before those of its children, which have one above them. -/
def ParentsFirst (c : Comparison) (rows : List CompareRow) : Prop :=
  ∀ s, ∀ row ∈ rows, ∀ e d, rowEntry row s = some e → Child d e.path →
    (e.path = c.root s ∨ d = c.root s ∨ ∃ row' ∈ rows, rowNames s d row' = true) ∧
    ∀ row' ∈ rows, ∀ x, rowEntry row' s = some x → x.path = d → row'.id < row.id

/-- Where two entries of a side share a key, whatever has that key is ambiguous and paired with nothing. -/
def CollisionsApart (c : Comparison) (rows : List CompareRow) : Prop :=
  ∀ f (entries : DescendSide → List Entry), Reaches c.kids c.rootFrame f → (∀ s, c.seen s f = .ok (entries s)) →
    let key (e : Entry) := c.names.keyFor (pairName e) (c.sidesFor f)
    ∀ s, ∀ e ∈ entries s, ∀ e' ∈ entries s, e ≠ e' → key e = key e' → ∀ s', ∀ x ∈ entries s', key x = key e →
      ∀ row ∈ rows, rowNames s' x.path row = true → row.verdict = .ambiguous ∧ rowEntry row s'.other = none

section

variable (trees : ∀ s, FiniteTree (c.provider s) (c.root s)) (walks : Walks c.emits c.kids [c.rootFrame] out)
include trees walks

theorem count_found {f : Frame} {lefts rights : List Entry} {s : DescendSide} {d e : Entry}
    (down : Reaches c.kids c.rootFrame f) (left : c.seen .left f = .ok lefts) (right : c.seen .right f = .ok rights)
    (dir : f.dir s = some d) (child : Child d.path e.path) (inside : e ∈ ((c.index f lefts rights).side s).entries) :
    (numbered c.names 0 out).countP (rowNames s e.path) = 1 := by
  obtain ⟨n, at_⟩ := reaches_level down
  rw [countP_numbered, count_reaches down dir child walks]
  exact count_listed left right (at_.distinct trees left right s) inside

theorem coversOpen : c.CoversOpen (numbered c.names 0 out) := by
  intro s e tree shown clear
  obtain ⟨f, lefts, rights, d, down, left, right, dir, child, inside⟩ := found_of_open walks tree shown clear
  exact count_found trees walks down left right dir child inside

theorem collisionsApart : c.CollisionsApart (numbered c.names 0 out) := by
  intro f entries down listed key s e inE e' inE' differ shared s' x inX same row member named
  have left := listed .left
  have right := listed .right
  have inIndex (s : DescendSide) {x : Entry} (inside : x ∈ entries s) :
      x ∈ ((c.index f (entries .left) (entries .right)).side s).entries := by
    cases s <;> exact inside
  have keyOf (s : DescendSide) (e : Entry) : ((c.index f (entries .left) (entries .right)).side s).keyOf e = key e :=
    index_keyOf c f _ _ s e
  have crowded : ¬((c.index f (entries .left) (entries .right)).side s).Alone e := by
    intro alone
    exact differ (alone.only (inIndex s inE') ((keyOf s e').trans (shared.symm.trans (keyOf s e).symm))).symm
  have sameKey := (keyOf s' x).trans (same.trans (keyOf s e).symm)
  obtain ⟨row₀, emitted, ambiguous, own, none⟩ := collided_row left right (inIndex s inE) crowded (inIndex s' inX) sameKey
  obtain ⟨k, member₀⟩ := mem_numbered_of_mem c.names 0 (emits_mem walks down emitted)
  obtain ⟨d, dir, child⟩ := seen_child (listed s') inX
  have once := count_found trees walks down left right dir child (inIndex s' inX)
  have named₀ : rowNames s' x.path (row₀.intoRow c.names k) = true := by
    rw [rowNames_intoRow]
    exact namesPath_iff.mpr ⟨emits_clean left right emitted, x, own, rfl⟩
  obtain rfl := eq_of_countP_one once member member₀ named named₀
  exact ⟨intoRow_verdict.trans ambiguous, (intoRow_entry _).trans none⟩

end

theorem pairsWithinPairs (walks : Walks c.emits c.kids [c.rootFrame] out) :
    c.PairsWithinPairs (numbered c.names 0 out) := by
  intro row member l r left right
  obtain ⟨row, inside, k, rfl⟩ := mem_of_mem_numbered member
  obtain ⟨f, single, g, down, emitted⟩ := walks.mem_iff.mp inside
  obtain rfl := List.mem_singleton.mp single
  have there (s : DescendSide) : row.entry s = rowEntry (row.intoRow c.names k) s := (intoRow_entry s).symm
  obtain ⟨dl, dirL, regionL⟩ := emits_region emitted ((there .left).trans left)
  obtain ⟨dr, dirR, regionR⟩ := emits_region emitted ((there .right).trans right)
  have clean : row.listingError = false := by
    rcases c.visit_cases g with ⟨lefts, rights, seenL, seenR⟩ | ⟨rows, _, _⟩
    · exact emits_clean seenL seenR emitted
    · rw [rows] at emitted
      obtain ⟨_, s, _, none⟩ := listingErrors_spec emitted
      rw [there] at none
      cases s
      · exact nomatch none.symm.trans right
      · exact nomatch none.symm.trans left
  rw [clean] at regionL regionR
  exact ⟨dl.path, dr.path, regionL, regionR, frame_meets walks down dirL dirR⟩

theorem parentsFirst (walks : Walks c.emits c.kids [c.rootFrame] out) : c.ParentsFirst (numbered c.names 0 out) := by
  intro s row member e d there child
  constructor
  · obtain ⟨row, inside, k, rfl⟩ := mem_of_mem_numbered member
    obtain ⟨f, single, g, down, emitted⟩ := walks.mem_iff.mp inside
    obtain rfl := List.mem_singleton.mp single
    rw [intoRow_entry] at there
    obtain ⟨p, dir, region⟩ := emits_region emitted there
    split at region
    · subst region
      rcases down.cases_tail with rfl | ⟨f', down', kid⟩
      · cases s <;>
        · obtain rfl := Option.some.inj dir
          exact .inl rfl
      · obtain ⟨q, dir', child', _⟩ := kids_region kid dir
        rw [child.parent child']
        exact .inr (dir_named walks down' dir')
    · rw [child.parent region]
      exact .inr (dir_named walks down dir)
  · rintro row' member' x there' rfl
    obtain ⟨i, r, at_, rfl⟩ := mem_numbered.mp member'
    obtain ⟨j, r', at_', rfl⟩ := mem_numbered.mp member
    rw [intoRow_entry] at there there'
    rw [intoRow_id, intoRow_id]
    have foreign := walks_foreign walks (List.pairwise_singleton Apart c.rootFrame)
    obtain ⟨lt, rfl⟩ := List.getElem?_eq_some_iff.mp at_
    obtain ⟨lt', rfl⟩ := List.getElem?_eq_some_iff.mp at_'
    rcases Nat.lt_trichotomy i j with less | rfl | more
    · omega
    · obtain rfl := Option.some.inj (there.symm.trans there')
      exact absurd rfl child.ne
    · exact absurd child (List.pairwise_iff_getElem.mp foreign j i lt' lt more s e x there there')

/-- A comparison of two finite trees ends, numbers its rows upwards, speaks once of every
entry that lies below no directory shut off, pairs only within pairs, goes from the
directories down, and never pairs what collides. -/
theorem compare_covers (c : Comparison) (trees : ∀ s, FiniteTree (c.provider s) (c.root s)) :
    ∃ rows, c.Streams rows ∧ rows.Pairwise (fun a b => a.id < b.id) ∧
      (c.excludesRoots = false → c.CoversOpen rows) ∧ c.PairsWithinPairs rows ∧ c.ParentsFirst rows ∧
      c.CollisionsApart rows := by
  cases apart : c.excludesRoots with
  | true =>
    have nothing {row : CompareRow} (member : row ∈ []) : False := List.not_mem_nil member
    refine ⟨[], streams_excluded apart, .nil, fun none => Bool.noConfusion none, fun _ member => (nothing member).elim,
      fun _ _ member => (nothing member).elim, ?_⟩
    intro f entries _ _ key s e _ e' _ _ _ s' x _ _ row member
    exact (nothing member).elim
  | false =>
    obtain ⟨out, walks⟩ := walks_total trees
    exact ⟨_, streams_of_walks walks apart, numbered_increasing c.names 0 out, fun _ => coversOpen trees walks,
      pairsWithinPairs walks, parentsFirst walks, collisionsApart trees walks⟩

end Comparison

/-! Two trees with a pair, a pair within it, two names for one, and what either has alone. -/

def smallRoot : VPath := ⟨⟨"mem".toList, Scheme.check_mem⟩, none, []⟩

/-- A provider that holds these entries. -/
def shelf (entries : List Entry) : Provider where
  list dir := some ((entries.filter fun e => isDirectChild dir e.path).map some)
  stat path := entries.find? fun e => e.path = path
  readLink _ := none
  read _ := none
  capabilitiesAt _ := none

theorem shelf_inTree {entries : List Entry} {root : VPath} {e : Entry} (tree : InTree (shelf entries) root e) : e ∈ entries := by
  have held {dir : VPath} {items : List (Option Entry)} (found : (shelf entries).list dir = some items)
      (member : some e ∈ items) : e ∈ entries := by
    obtain rfl := Option.some.inj found
    obtain ⟨e', inside, same⟩ := List.mem_map.mp member
    obtain rfl := Option.some.inj same
    exact List.mem_of_mem_filter inside
  cases tree with
  | top found member _ => exact held found member
  | deeper _ _ found member _ => exact held found member

theorem shelf_finite {entries : List Entry} (distinct : (entries.map (·.path)).Nodup) (root : VPath) :
    FiniteTree (shelf entries) root := by
  refine ⟨⟨(entries.map fun e => e.path.segments.length).max?.getD 0, fun e tree => ?_⟩, fun dir items _ found => ?_⟩
  · apply Nat.le_add_left_of_le
    exact List.le_max?_getD_of_mem (List.mem_map_of_mem (shelf_inTree tree))
  · obtain rfl := Option.some.inj found
    rw [List.filterMap_map, Function.id_comp, List.filterMap_some]
    exact (List.filter_sublist.map _).nodup distinct

theorem valid_upper : Segment.Valid [0x41] := ⟨by decide, by decide, by decide, by decide⟩

def mixedFile (name : Segment) (size : UInt64) : Entry := ⟨smallRoot.join name, .file, some size, some 0⟩

def mixedDir : Entry := ⟨smallRoot.join ⟨[0x64], Segment.valid_d⟩, .dir, none, none⟩

def mixedInner (size : UInt64) : Entry :=
  ⟨mixedDir.path.join ⟨[0x78], Segment.valid_letter rfl⟩, .file, some size, some 0⟩

/-- `A` and `a` on the left and `a` on the right; `d` on both, with an `x` in it; `f` on the left. -/
def mixed : Comparison where
  left := shelf [mixedFile ⟨[0x41], valid_upper⟩ 1, mixedFile ⟨[0x61], Segment.valid_a⟩ 1, mixedDir, mixedInner 1,
    mixedFile ⟨[0x66], Segment.valid_letter rfl⟩ 1]
  leftRoot := smallRoot
  right := shelf [mixedFile ⟨[0x61], Segment.valid_a⟩ 1, mixedDir, mixedInner 2]
  rightRoot := smallRoot
  opts := ⟨⟨true, true, false⟩, none, 2000, false, some .left⟩
  sides := ⟨.simple, .simple⟩
  excluded := []
  names := ⟨fun name mode =>
    if mode = .none then name else name.map fun b => if 0x41 ≤ b ∧ b ≤ 0x5A then b + 0x20 else b, fun _ => false⟩
  sha256 := id

def mixedInnerFrame : Frame := ⟨some mixedDir, some mixedDir, 1⟩

theorem mixed_finite (s : DescendSide) : FiniteTree (mixed.provider s) (mixed.root s) := by
  cases s
  · exact shelf_finite (by decide) _
  · exact shelf_finite (by decide) _

theorem mixed_streams : mixed.Streams
    (numbered mixed.names 0 (mixed.emits mixed.rootFrame ++ mixed.emits mixedInnerFrame)) := by
  have down : Walks mixed.emits mixed.kids [mixedInnerFrame] (mixed.emits mixedInnerFrame ++ ([] ++ [])) :=
    .cons .nil .nil
  have walks : Walks mixed.emits mixed.kids [mixed.rootFrame]
      (mixed.emits mixed.rootFrame ++ (mixed.emits mixedInnerFrame ++ ([] ++ []) ++ [])) := .cons down .nil
  have streams := Comparison.streams_of_walks walks rfl
  simpa using streams

theorem compare_covers_mixed : ∃ rows, mixed.Streams rows ∧
    rows.map (·.verdict) = [.ambiguous, .ambiguous, .ambiguous, .same, .onlyLeft, .different] ∧
    rows.Pairwise (fun a b => a.id < b.id) ∧ (mixed.excludesRoots = false → mixed.CoversOpen rows) ∧
    mixed.PairsWithinPairs rows ∧ mixed.ParentsFirst rows ∧ mixed.CollisionsApart rows := by
  obtain ⟨rows, streams, rest⟩ := Comparison.compare_covers mixed mixed_finite
  refine ⟨rows, streams, ?_, rest⟩
  rw [streams.unique mixed_streams]
  decide +kernel

/-! A file on the left, and on the right the same file or a root that cannot be listed. -/

def smallLeaf : Entry := ⟨smallRoot.join ⟨[0x61], Segment.valid_a⟩, .file, none, none⟩

def lone (listing : Option (List (Option Entry))) : Provider where
  list _ := listing
  stat _ := none
  readLink _ := none
  read _ := none
  capabilitiesAt _ := none

def small (right : Option (List (Option Entry))) : Comparison where
  left := lone (some [some smallLeaf])
  leftRoot := smallRoot
  right := lone right
  rightRoot := smallRoot
  opts := ⟨⟨true, true, false⟩, none, 2000, false, some .left⟩
  sides := .bothCaseSensitive
  excluded := []
  names := ⟨fun name _ => name, fun _ => false⟩
  sha256 := id

theorem lone_finite {listing : Option (List (Option Entry))} (few : listing = some [some smallLeaf] ∨ listing = none) :
    FiniteTree (lone listing) smallRoot := by
  have leaf (e : Entry) (tree : InTree (lone listing) smallRoot e) : e = smallLeaf := by
    have single {items : List (Option Entry)} (found : listing = some items) (member : some e ∈ items) : e = smallLeaf := by
      rcases few with rfl | rfl
      · obtain rfl := Option.some.inj found
        exact Option.some.inj (List.mem_singleton.mp member)
      · cases found
    cases tree with
    | top found member _ => exact single found member
    | deeper _ _ found member _ => exact single found member
  refine ⟨⟨1, fun e tree => ?_⟩, fun dir items _ found => ?_⟩
  · rw [leaf e tree]
    decide
  · rcases few with rfl | rfl
    · obtain rfl := Option.some.inj found
      exact List.nodup_singleton _
    · cases found

theorem small_finite (s : DescendSide) : FiniteTree ((small none).provider s) ((small none).root s) := by
  cases s
  · exact lone_finite (.inl rfl)
  · exact lone_finite (.inr rfl)

/-- What lies below a directory whose pair could not be listed is in no row, and no row of
its own directories says so. -/
theorem compare_misses_across : ¬ ∀ c : Comparison, (∀ s, FiniteTree (c.provider s) (c.root s)) →
    ∃ rows, c.Streams rows ∧ ∀ s e, InTree (c.provider s) (c.root s) e → c.visible e = true →
      (∀ d, HangsOff d e.path → d ≠ e.path → ¬c.Shut rows s d) → rows.countP (rowNames s e.path) = 1 := by
  intro claim
  obtain ⟨rows, streams, covers⟩ := claim (small none) small_finite
  have root : (small none).emits (small none).rootFrame =
      [.flagged none (some (syntheticDir smallRoot)) .error .presence .unreadable .right] := rfl
  have walks : StackWalk.Walks (small none).emits (small none).kids [(small none).rootFrame]
      ((small none).emits (small none).rootFrame ++ ([] ++ [])) := .cons .nil .nil
  rw [root] at walks
  obtain rfl := streams.unique (Comparison.streams_of_walks walks rfl)
  have tree : InTree ((small none).provider .left) ((small none).root .left) smallLeaf :=
    .top rfl (List.mem_singleton_self _) ⟨_, rfl⟩
  have once := covers .left smallLeaf tree rfl ?_
  · exact absurd once (by decide)
  · rintro d _ _ (⟨max, limit, _⟩ | ⟨row, member, x, there, _⟩)
    · exact nomatch limit
    · obtain rfl := List.mem_singleton.mp member
      exact nomatch there

end Norte.Compare
