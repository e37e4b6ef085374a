import Mathlib.Data.Set.Card
import Norte.PackWalk

/-! The names that are packed, read back: each is one the index accepts, and indexing all
of them gives the tree they were taken from. -/
namespace Norte.Archive.Pack

open Sync (Entry EntryKind HangsOff)
open Rename (FoldMode)
open Zip (PackEntry entryName)
open ArchiveIndex

/-- `Limits::default`. -/
def defaultLimits : Limits := ⟨500000, 4096, 64⟩

/-- What building an index makes of the entries of a container, as far as it gets. -/
def insertAll (limits : Limits) : ArchiveIndex → List (Bytes × Node) → Except Error Unit × ArchiveIndex
  | index, [] => (.ok (), index)
  | index, (raw, node) :: rest =>
    match index.insertEntry raw node limits with
    | (.ok (), index) => insertAll limits index rest
    | failed => failed

/-- The components of a stored name. -/
def components (name : Bytes) : InnerPath := name.splitOn slash

/-! Names. -/

theorem intercalate_getLast? {comps : List Bytes} (some_ : comps ≠ []) (good : ∀ c ∈ comps, c ≠ [] ∧ slash ∉ c) :
    [slash].intercalate comps ≠ [] ∧ ([slash].intercalate comps).getLast? ≠ some slash := by
  induction comps with
  | nil => exact absurd rfl some_
  | cons c comps ih =>
    obtain ⟨filled, plain⟩ := good c List.mem_cons_self
    cases comps with
    | nil =>
      rw [List.intercalate_singleton]
      refine ⟨filled, fun last => plain (List.mem_of_getLast? last)⟩
    | cons d comps =>
      obtain ⟨more, last⟩ := ih (List.cons_ne_nil _ _) fun e member => good e (List.mem_cons_of_mem _ member)
      have split : [slash].intercalate (c :: d :: comps) = c ++ ([slash] ++ [slash].intercalate (d :: comps)) := by
        simp [List.intercalate]
      rw [split]
      refine ⟨by simp, ?_⟩
      rw [List.getLast?_append_of_ne_nil _ (by simp), List.getLast?_append_of_ne_nil _ more]
      exact last

theorem intercalate_head? {comps : List Bytes} (some_ : comps ≠ []) (good : ∀ c ∈ comps, c ≠ [] ∧ slash ∉ c) :
    ([slash].intercalate comps).head? ≠ some slash := by
  obtain ⟨c, rest, rfl⟩ := List.exists_cons_of_ne_nil some_
  obtain ⟨filled, plain⟩ := good c List.mem_cons_self
  obtain ⟨b, bytes, rfl⟩ := List.exists_cons_of_ne_nil filled
  have first : ([slash].intercalate ((b :: bytes) :: rest)).head? = some b := by
    cases rest <;> simp [List.intercalate]
  rw [first]
  rintro same
  exact plain (Option.some.inj same ▸ List.mem_cons_self)

theorem addressable_segment {s : Segment} (plain : s.bytes ≠ ['!'.toUInt8]) : addressable s.bytes = true := by
  have made : (Segment.new s.bytes).isOk = true := by
    rw [Segment.new_bytes]
    rfl
  simp only [addressable, Bool.and_eq_true, decide_eq_true_eq]
  exact ⟨⟨⟨⟨s.valid.nonempty, s.valid.notDot.1⟩, s.valid.notDot.2⟩, plain⟩, made⟩

/-- What a path is named by: the segments below the base. -/
theorem relativeName_some {base p : VPath} {name : Bytes} (named : relativeName base p = some name) :
    HangsOff base p ∧ ∃ tail, p.segments = base.segments ++ tail ∧ tail ≠ [] ∧
      (∀ s ∈ tail, s.bytes ≠ ['!'.toUInt8]) ∧ name = [slash].intercalate (tail.map Segment.bytes) := by
  unfold relativeName at named
  split at named
  · cases named
  next same =>
    obtain ⟨scheme, authority⟩ := not_or.mp same
    split at named
    · cases named
    next inside =>
      obtain ⟨longer, hangs⟩ := not_or.mp inside
      have hangs := not_not.mp hangs
      obtain ⟨tail, split⟩ := hangs
      rw [← split, List.drop_left] at named
      dsimp only at named
      split at named
      · cases named
      next plain =>
        refine ⟨⟨(not_not.mp scheme).symm, (not_not.mp authority).symm, tail, split⟩, tail, split.symm, ?_, ?_, ?_⟩
        · rintro rfl
          rw [← split, List.append_nil] at longer
          exact longer (Nat.le_refl _)
        · intro s member marker
          apply plain
          rw [List.any_eq_true]
          exact ⟨s.bytes, List.mem_map_of_mem member, decide_eq_true marker⟩
        · exact (Option.some.inj named).symm

/-- A name made of segments comes apart into them. -/
structure Spelled (comps : InnerPath) (name : Bytes) : Prop where
  some_ : comps ≠ []
  good : ∀ c ∈ comps, addressable c = true
  name : name = [slash].intercalate comps

theorem Spelled.plain {comps : InnerPath} {name : Bytes} (spelled : Spelled comps name) :
    ∀ c ∈ comps, c ≠ [] ∧ slash ∉ c := by
  intro c member
  obtain ⟨filled, _, _, _, noSlash, _⟩ := addressable_valid (spelled.good c member)
  exact ⟨filled, noSlash⟩

theorem Spelled.components {comps : InnerPath} {name : Bytes} (spelled : Spelled comps name) :
    components name = comps := by
  rw [Pack.components, spelled.name]
  exact List.splitOn_intercalate slash (fun c member => (spelled.plain c member).2) spelled.some_

theorem spelled_of_named {base p : VPath} {name : Bytes} (named : relativeName base p = some name) :
    Spelled (components name) name ∧ ∃ tail, p.segments = base.segments ++ tail ∧
      components name = tail.map Segment.bytes := by
  obtain ⟨_, tail, split, some_, plain, spelling⟩ := relativeName_some named
  have spelled : Spelled (tail.map Segment.bytes) name := by
    refine ⟨by simpa using some_, ?_, spelling⟩
    intro c member
    obtain ⟨s, inside, rfl⟩ := List.mem_map.mp member
    exact addressable_segment (plain s inside)
  rw [spelled.components]
  exact ⟨spelled, tail, split, rfl⟩

/-- The index accepts such a name within its limits, with a slash behind it or without. -/
theorem splitName_spelled {comps : InnerPath} {name : Bytes} (spelled : Spelled comps name) (limits : Limits)
    (shallow : comps.length ≤ limits.maxDepth) :
    (name.length ≤ limits.maxNameBytes → splitName name limits = some (comps, false)) ∧
      (name.length < limits.maxNameBytes → splitName (name ++ [slash]) limits = some (comps, true)) ∧
      (limits.maxNameBytes ≤ name.length → splitName (name ++ [slash]) limits = none) := by
  have parts : name.splitOn slash = comps := spelled.components
  obtain ⟨filled, last⟩ := intercalate_getLast? spelled.some_ spelled.plain
  have first := intercalate_head? spelled.some_ spelled.plain
  rw [← spelled.name] at filled last first
  have hostile : (!comps.all addressable) = false := by
    rw [Bool.not_eq_false', List.all_eq_true]
    exact spelled.good
  have nonempty : comps.isEmpty = false := by
    rw [List.isEmpty_eq_false_iff]
    exact spelled.some_
  have deep : ¬comps.length > limits.maxDepth := not_lt.mpr shallow
  have written : (name ++ [slash]).isEmpty = false := List.isEmpty_eq_false_iff.mpr (by simp)
  refine ⟨fun short => ?_, fun short => ?_, fun long => ?_⟩
  · have empty : name.isEmpty = false := List.isEmpty_eq_false_iff.mpr filled
    rw [splitName, empty]
    simp only [Bool.false_eq_true, ↓reduceIte, if_neg (not_lt.mpr short), if_neg first, decide_eq_false last, parts,
      hostile, nonempty, if_neg deep]
  · have length : ¬(name ++ [slash]).length > limits.maxNameBytes := by
      rw [List.length_append, List.length_singleton]
      omega
    have head : (name ++ [slash]).head? ≠ some slash := by
      rw [List.head?_append_of_ne_nil _ filled]
      exact first
    rw [splitName, written]
    simp only [Bool.false_eq_true, ↓reduceIte, if_neg length, if_neg head, List.getLast?_concat, decide_true, List.dropLast_concat, parts, hostile, nonempty, if_neg deep]
  · have length : (name ++ [slash]).length > limits.maxNameBytes := by
      rw [List.length_append, List.length_singleton]
      omega
    rw [splitName, written]
    simp only [Bool.false_eq_true, ↓reduceIte, if_pos length]

/-! The tree. -/

variable {index index' : ArchiveIndex}

/-- What making the directories above an entry does, where none of them is a file. -/
structure Paved (index : ArchiveIndex) (dir names : InnerPath) (index' : ArchiveIndex) : Prop where
  kept : ∀ path node, index.nodes.lookup path = some node → index'.nodes.lookup path = some node
  new : ∀ path node, index'.nodes.lookup path = some node → index.nodes.lookup path = some node ∨
    node = .dir none ∧ ∃ b, b ≠ [] ∧ b <+: names ∧ path = dir ++ b
  made : ∀ b, b ≠ [] → b <+: names → dir ++ b ∈ index'.nodes
  skipped : index'.skipped = index.skipped

theorem asDir_free {path : InnerPath} (free : ∀ node, index.nodes.lookup path = some node → node.kind = .dir) :
    (∀ q node, index.nodes.lookup q = some node → (index.asDir path).nodes.lookup q = some node) ∧
      (∀ q node, (index.asDir path).nodes.lookup q = some node → index.nodes.lookup q = some node ∨
        node = .dir none ∧ q = path) ∧
      path ∈ (index.asDir path).nodes ∧ (index.asDir path).skipped = index.skipped := by
  unfold asDir
  cases found : index.nodes.lookup path with
  | none =>
    dsimp only
    refine ⟨fun q node here => ?_, fun q node here => ?_, Finmap.mem_insert.mpr (.inl rfl), rfl⟩
    · have other : q ≠ path := by
        rintro rfl
        rw [found] at here
        cases here
      exact (Finmap.lookup_insert_of_ne _ other).trans here
    · by_cases same : q = path
      · subst same
        have own : (index.setNode q (.dir none)).nodes.lookup q = some (.dir none) := Finmap.lookup_insert _
        exact .inr ⟨(Option.some.inj (own.symm.trans here)).symm, rfl⟩
      · exact .inl ((Finmap.lookup_insert_of_ne _ same).symm.trans here)
  | some node =>
    dsimp only
    rw [if_neg (not_not.mpr (free node found))]
    exact ⟨fun _ _ here => here, fun _ _ here => .inl here, Finmap.mem_of_lookup_eq_some found, rfl⟩

theorem ensureBelow_paved {dir names : InnerPath}
    (free : ∀ b, b ≠ [] → b <+: names → ∀ node, index.nodes.lookup (dir ++ b) = some node → node.kind = .dir) :
    Paved index dir names (index.ensureBelow dir names) := by
  induction names generalizing index dir with
  | nil =>
    refine ⟨fun _ _ here => here, fun _ _ here => .inl here, ?_, rfl⟩
    intro b some_ begins
    exact absurd (List.prefix_nil.mp begins) some_
  | cons name names ih =>
    obtain ⟨kept, new, made, skipped⟩ := asDir_free (free [name] (List.cons_ne_nil _ _) (by simp))
    have later : ∀ b, b ≠ [] → b <+: names → ∀ node,
        ((index.asDir (dir ++ [name])).addChild dir name).nodes.lookup (dir ++ [name] ++ b) = some node →
          node.kind = .dir := by
      intro b some_ begins node here
      rcases new _ node here with old | ⟨rfl, same⟩
      · rw [List.append_assoc] at old
        exact free ([name] ++ b) (by simp) (by simpa using begins) node old
      · exact absurd (List.append_right_eq_self.mp same) some_
    obtain ⟨kept', new', made', skipped'⟩ := ih later
    have whole (b : InnerPath) : dir ++ [name] ++ b = dir ++ name :: b := by simp
    refine ⟨fun path node here => kept' path node (kept path node here), fun path node here => ?_, ?_,
      skipped'.trans skipped⟩
    · rcases new' path node here with before | ⟨rfl, b, some_, begins, rfl⟩
      · rcases new path node before with old | ⟨rfl, rfl⟩
        · exact .inl old
        · exact .inr ⟨rfl, [name], List.cons_ne_nil _ _, by simp, rfl⟩
      · exact .inr ⟨rfl, name :: b, List.cons_ne_nil _ _, List.cons_prefix_cons.mpr ⟨rfl, begins⟩, whole b⟩
    · intro b some_ begins
      obtain ⟨c, b, rfl⟩ := List.exists_cons_of_ne_nil some_
      obtain ⟨rfl, deeper⟩ := List.cons_prefix_cons.mp begins
      rw [← whole]
      by_cases last : b = []
      · rw [last, List.append_nil]
        obtain ⟨node, here⟩ := Option.isSome_iff_exists.mp (Finmap.lookup_isSome.mpr made)
        exact Finmap.mem_of_lookup_eq_some (kept' _ node here)
      · exact made' b last deeper

/-- An index of entries that do not get in each other's way. -/
structure Holds (seen : List (InnerPath × Node)) (index : ArchiveIndex) : Prop where
  entries : ∀ c ∈ seen, index.nodes.lookup c.1 = some c.2
  nodes : ∀ path, path ∈ index.nodes ↔ path ≠ [] ∧ ∃ c ∈ seen, path <+: c.1
  implicit : ∀ path node, index.nodes.lookup path = some node → (∀ c ∈ seen, c.1 ≠ path) → node = .dir none
  skipped : index.skipped = 0

/-- A path that can be added: another one, not below a file, and not above anything unless
it is a directory. -/
structure Free (seen : List (InnerPath × Node)) (path : InnerPath) (node : Node) : Prop where
  some_ : path ≠ []
  other : ∀ c ∈ seen, c.1 ≠ path
  below : ∀ c ∈ seen, c.1 <+: path → c.2.kind = .dir
  above : ∀ c ∈ seen, path <+: c.1 → node.kind = .dir

theorem Holds.insert {seen : List (InnerPath × Node)} (holds : Holds seen index) {path : InnerPath} {node : Node}
    (free : Free seen path node) {raw : Bytes} {trailingSlash : Bool} {limits : Limits}
    (split : splitName raw limits = some (path, trailingSlash)) (own : overridden node trailingSlash = node) :
    Holds (seen ++ [(path, node)]) (index.insertEntry raw node limits).2 ∧
      ((index.insertEntry raw node limits).1 = .ok () ∧
          (index.insertEntry raw node limits).2.nodes.keys.card ≤ limits.maxEntries ∨
        (∃ e, (index.insertEntry raw node limits).1 = .error e) ∧
          limits.maxEntries < (index.insertEntry raw node limits).2.nodes.keys.card) := by
  obtain ⟨dir, name, rfl⟩ : ∃ dir name, path = dir ++ [name] := ⟨_, _, (List.dropLast_concat_getLast free.some_).symm⟩
  have proper {b : InnerPath} (begins : b <+: dir) : b <+: dir ++ [name] := begins.trans (List.prefix_append _ _)
  have paved : Paved index [] dir (index.ensureParents (dir ++ [name])) := by
    unfold ensureParents
    rw [List.dropLast_concat]
    apply ensureBelow_paved
    intro b _ begins found here
    rw [List.nil_append] at here
    by_cases implicit : ∀ c ∈ seen, c.1 ≠ b
    · rw [holds.implicit b found here implicit]
      rfl
    · push Not at implicit
      obtain ⟨c, member, rfl⟩ := implicit
      rw [holds.entries c member] at here
      rw [← Option.some.inj here]
      exact free.below c member (proper begins)
  have vacant : ∀ found, (index.ensureParents (dir ++ [name])).nodes.lookup (dir ++ [name]) = some found →
      node.kind = .dir := by
    intro found here
    rcases paved.new _ found here with old | ⟨_, b, _, begins, same⟩
    · obtain ⟨_, c, member, begins⟩ := (holds.nodes _).mp (Finmap.mem_of_lookup_eq_some old)
      exact free.above c member begins
    · rw [List.nil_append] at same
      have := begins.length_le
      rw [← same, List.length_append, List.length_singleton] at this
      omega
  have stays : ((index.ensureParents (dir ++ [name])).isDir (dir ++ [name]) && decide (node.kind ≠ .dir)) = false := by
    rw [Bool.and_eq_false_iff]
    by_cases is : (index.ensureParents (dir ++ [name])).isDir (dir ++ [name]) = true
    · obtain ⟨found, here, _⟩ := isDir_iff.mp is
      exact .inr (decide_eq_false (not_not.mpr (vacant found here)))
    · exact .inl (Bool.eq_false_iff.mpr is)
  have placed : Holds (seen ++ [(dir ++ [name], node)])
      (((index.ensureParents (dir ++ [name])).setNode (dir ++ [name]) node).addChild dir name) := by
    have here : (((index.ensureParents (dir ++ [name])).setNode (dir ++ [name]) node).addChild dir name).nodes.lookup
        (dir ++ [name]) = some node := Finmap.lookup_insert _
    have elsewhere (q : InnerPath) (other : q ≠ dir ++ [name]) :
        (((index.ensureParents (dir ++ [name])).setNode (dir ++ [name]) node).addChild dir name).nodes.lookup q =
          (index.ensureParents (dir ++ [name])).nodes.lookup q := Finmap.lookup_insert_of_ne _ other
    refine ⟨?_, ?_, ?_, paved.skipped.trans holds.skipped⟩
    · intro c member
      rcases List.mem_append.mp member with old | new
      · rw [elsewhere _ (free.other c old)]
        exact paved.kept _ _ (holds.entries c old)
      · rw [List.mem_singleton.mp new]
        exact here
    · intro q
      have mem : q ∈ (((index.ensureParents (dir ++ [name])).setNode (dir ++ [name]) node).addChild dir name).nodes ↔
          q = dir ++ [name] ∨ q ∈ (index.ensureParents (dir ++ [name])).nodes := Finmap.mem_insert
      rw [mem]
      constructor
      · rintro (rfl | inside)
        · exact ⟨free.some_, _, List.mem_append_right _ (List.mem_singleton_self _), List.prefix_rfl⟩
        · obtain ⟨found, at_⟩ := Option.isSome_iff_exists.mp (Finmap.lookup_isSome.mpr inside)
          rcases paved.new q found at_ with old | ⟨_, b, some_, begins, rfl⟩
          · obtain ⟨some_, c, member, begins⟩ := (holds.nodes q).mp (Finmap.mem_of_lookup_eq_some old)
            exact ⟨some_, c, List.mem_append_left _ member, begins⟩
          · exact ⟨some_, _, List.mem_append_right _ (List.mem_singleton_self _), proper begins⟩
      · rintro ⟨some_, c, member, begins⟩
        rcases List.mem_append.mp member with old | new
        · obtain ⟨found, at_⟩ := Option.isSome_iff_exists.mp
            (Finmap.lookup_isSome.mpr ((holds.nodes q).mpr ⟨some_, c, old, begins⟩))
          exact .inr (Finmap.mem_of_lookup_eq_some (paved.kept q found at_))
        · rw [List.mem_singleton.mp new] at begins
          rcases List.prefix_concat_iff.mp begins with same | above
          · exact .inl same
          · exact .inr (paved.made q some_ above)
    · intro q found at_ implicit
      have other : q ≠ dir ++ [name] := fun same =>
        implicit _ (List.mem_append_right _ (List.mem_singleton_self _)) same.symm
      rw [elsewhere q other] at at_
      rcases paved.new q found at_ with old | ⟨new, _⟩
      · exact holds.implicit q found old fun c member => implicit c (List.mem_append_left _ member)
      · exact new
  have inserted : index.insertEntry raw node limits =
      if (((index.ensureParents (dir ++ [name])).setNode (dir ++ [name]) node).addChild dir name).nodes.keys.card >
          limits.maxEntries then
        (.error (.limitExceeded "entries".toList),
          ((index.ensureParents (dir ++ [name])).setNode (dir ++ [name]) node).addChild dir name)
      else (.ok (), ((index.ensureParents (dir ++ [name])).setNode (dir ++ [name]) node).addChild dir name) := by
    unfold insertEntry
    simp only [split, own, stays, Bool.false_eq_true, ↓reduceIte, List.dropLast_concat, List.getLastD_concat]
  rw [inserted]
  split
  next many => exact ⟨placed, .inr ⟨⟨_, rfl⟩, many⟩⟩
  next few => exact ⟨placed, .inl ⟨rfl, not_lt.mp few⟩⟩

/-- Entries that can all be in one tree. -/
structure Compatible (seen : List (InnerPath × Node)) : Prop where
  some_ : ∀ c ∈ seen, c.1 ≠ []
  apart : seen.Pairwise fun c d => c.1 ≠ d.1 ∧ (c.1 <+: d.1 → c.2.kind = .dir) ∧ (d.1 <+: c.1 → d.2.kind = .dir)

/-- The paths of a tree with these entries. -/
def treePaths (paths : List InnerPath) : Finset InnerPath := (paths.flatMap List.inits).toFinset.erase []

theorem mem_treePaths {paths : List InnerPath} {path : InnerPath} :
    path ∈ treePaths paths ↔ path ≠ [] ∧ ∃ p ∈ paths, path <+: p := by
  simp [treePaths, List.mem_flatMap, List.mem_inits]

theorem Holds.keys {seen : List (InnerPath × Node)} (holds : Holds seen index) :
    index.nodes.keys = treePaths (seen.map Prod.fst) := by
  ext path
  rw [Finmap.mem_keys, holds.nodes, mem_treePaths]
  simp only [List.mem_map, exists_exists_and_eq_and]

/-- An entry as it is read: its raw name, what that comes apart into, and the node made of
the rest. -/
structure Read (limits : Limits) where
  raw : Bytes
  path : InnerPath
  trailingSlash : Bool
  node : Node
  split : splitName raw limits = some (path, trailingSlash)
  own : overridden node trailingSlash = node

def Read.call {limits : Limits} (r : Read limits) : Bytes × Node := (r.raw, r.node)

def Read.seen {limits : Limits} (r : Read limits) : InnerPath × Node := (r.path, r.node)

theorem Compatible.free {seen rest : List (InnerPath × Node)} {c : InnerPath × Node}
    (compatible : Compatible (seen ++ c :: rest)) : Free seen c.1 c.2 := by
  have apart := (List.pairwise_append.mp compatible.apart).2.2
  exact ⟨compatible.some_ c (List.mem_append_right _ List.mem_cons_self),
    fun d member => (apart d member c List.mem_cons_self).1,
    fun d member => (apart d member c List.mem_cons_self).2.1,
    fun d member => (apart d member c List.mem_cons_self).2.2⟩

/-- Entries that are compatible are all in the index, or more than it holds. -/
theorem insertAll_holds {limits : Limits} {before : List (InnerPath × Node)} {reads : List (Read limits)}
    (holds : Holds before index) (within : index.nodes.keys.card ≤ limits.maxEntries)
    (compatible : Compatible (before ++ reads.map Read.seen)) :
    (insertAll limits index (reads.map Read.call)).1 = .ok () ∧
        Holds (before ++ reads.map Read.seen) (insertAll limits index (reads.map Read.call)).2 ∧
        (insertAll limits index (reads.map Read.call)).2.nodes.keys.card ≤ limits.maxEntries ∨
      (∃ e, (insertAll limits index (reads.map Read.call)).1 = .error e) ∧
        limits.maxEntries < (treePaths ((before ++ reads.map Read.seen).map Prod.fst)).card := by
  induction reads generalizing before index with
  | nil =>
    simp only [List.map_nil, List.append_nil]
    exact .inl ⟨rfl, holds, within⟩
  | cons r reads ih =>
    have split : before ++ (r :: reads).map Read.seen = before ++ [r.seen] ++ reads.map Read.seen := by simp
    obtain ⟨placed, answer⟩ := holds.insert compatible.free r.split r.own
    simp only [List.map_cons, Read.call, insertAll]
    rcases answer with ⟨done, few⟩ | ⟨⟨e, failed⟩, many⟩
    · have step : index.insertEntry r.raw r.node limits = (.ok (), (index.insertEntry r.raw r.node limits).2) :=
        Prod.ext done rfl
      rw [step]
      dsimp only
      have next := ih placed few (by rw [← split]; exact compatible)
      rw [← split] at next
      exact next
    · have step : index.insertEntry r.raw r.node limits = (.error e, (index.insertEntry r.raw r.node limits).2) :=
        Prod.ext failed rfl
      rw [step]
      refine .inr ⟨⟨e, rfl⟩, lt_of_lt_of_le many ?_⟩
      rw [placed.keys]
      apply Finset.card_le_card
      intro path inside
      obtain ⟨some_, p, member, begins⟩ := mem_treePaths.mp inside
      refine mem_treePaths.mpr ⟨some_, p, ?_, begins⟩
      simp only [List.map_append, List.map_cons, List.map_nil, List.mem_append, List.mem_cons,
        List.not_mem_nil, or_false, Read.seen] at member ⊢
      tauto

/-! The walk and the index together. -/

/-- What a path is called below the base. -/
def belowBase (base p : VPath) : InnerPath := (p.segments.drop base.segments.length).map Segment.bytes

section Meeting

variable {E : Type}

/-- One tree of files: below a file there is nothing, whoever is asked. -/
def Forest (sources : List (Provider E × VPath)) : Prop :=
  ∀ src ∈ sources, ∀ src' ∈ sources, ∀ p q e e', src.1.stat p = .ok e → e.kind = .file →
    src'.1.stat q = .ok e' → HangsOff p q → q = p

/-- What the index must make of the entries that are packed. -/
structure Meets (nameKey : Bytes → FoldMode → Bytes) (node : PackEntry → Node) (pieces : List Piece) : Prop where
  names : (pieces.map fun p => p.entry.name).Nodup
  keys : (pieces.map fun p => nameKey p.entry.name .full).Nodup
  accepted : ∀ p ∈ pieces,
    splitName (entryName p.entry) defaultLimits = some (components p.entry.name, p.entry.dir)
  indexed : ∀ generation, ∃ index, insertAll defaultLimits (.new generation)
      (pieces.map fun p => (entryName p.entry, node p.entry)) = (.ok (), index) ∧ index.skipped = 0 ∧
    (∀ p ∈ pieces, index.nodes.lookup (components p.entry.name) = some (node p.entry)) ∧
    ∀ path found, index.nodes.lookup path = some found → (∃ p ∈ pieces, components p.entry.name = path) ∨
      found = .dir none ∧ ∃ p ∈ pieces, path <+: components p.entry.name

/-- No packed directory has a name as long as the cap, and the tree has no more nodes than
an index. -/
structure Fits (excluded : List VPath) (base : VPath) (sources : List (Provider E × VPath)) : Prop where
  dirs : ∀ src ∈ sources, ∀ e p, Stored src.1 excluded src.2 e p → e.kind = .dir →
    ∀ name, relativeName base p = some name → name.length ≠ maxEntryNameBytes
  nodes : Set.encard {path : InnerPath | path ≠ [] ∧
    ∃ src ∈ sources, ∃ e p, Stored src.1 excluded src.2 e p ∧ path <+: belowBase base p} ≤ 500000

variable {excluded : List VPath} {base : VPath} {sources : List (Provider E × VPath)} {pieces : List Piece}
  {node : PackEntry → Node} {nameKey : Bytes → FoldMode → Bytes}

theorem pieceOf_entry {e : Entry} {p : VPath} {name : Bytes} {piece : Piece} (made : pieceOf e p name = some piece) :
    piece.entry.name = name ∧ (piece.entry.dir = true ↔ e.kind = .dir) := by
  unfold pieceOf at made
  split at made
  next dir =>
    obtain rfl := Option.some.inj made
    exact ⟨rfl, iff_of_true rfl dir⟩
  next file =>
    obtain rfl := Option.some.inj made
    refine ⟨rfl, iff_of_false Bool.false_ne_true ?_⟩
    rw [file]
    decide
  · cases made
  · cases made

/-- What is known of a piece. -/
structure Packed {E : Type} (excluded : List VPath) (base : VPath) (sources : List (Provider E × VPath)) (piece : Piece)
    (src : Provider E × VPath) (e : Entry) : Prop where
  source : src ∈ sources
  stored : Stored src.1 excluded src.2 e piece.path
  named : relativeName base piece.path = some piece.entry.name
  short : piece.entry.name.length ≤ maxEntryNameBytes
  shallow : (components piece.entry.name).length ≤ maxEntryDepth
  kind : piece.entry.dir = true ↔ e.kind = .dir

theorem CollectsAll.packed (collects : CollectsAll excluded base sources pieces) {piece : Piece}
    (member : piece ∈ pieces) : ∃ src e, Packed excluded base sources piece src e := by
  obtain ⟨src, inside, e, name, stored, named, fits, made⟩ := collects.origin piece member
  obtain ⟨rfl, kind⟩ := pieceOf_entry made
  simp only [exceeds, Bool.or_eq_false_iff, decide_eq_false_iff_not, not_lt] at fits
  exact ⟨src, e, inside, stored, named, fits.1, fits.2, kind⟩

/-- The raw name of a packed entry is accepted, unless the slash of a directory is one
byte too many. -/
theorem Packed.split {piece : Piece} {src : Provider E × VPath} {e : Entry}
    (packed : Packed excluded base sources piece src e) :
    splitName (entryName piece.entry) defaultLimits = some (components piece.entry.name, piece.entry.dir) ↔
      (e.kind = .dir → piece.entry.name.length ≠ maxEntryNameBytes) := by
  obtain ⟨spelled, _⟩ := spelled_of_named packed.named
  obtain ⟨plain, slashed, long⟩ := splitName_spelled spelled defaultLimits packed.shallow
  obtain ⟨_, last⟩ := intercalate_getLast? spelled.some_ spelled.plain
  rw [← spelled.name] at last
  have short := packed.short
  cases dir : piece.entry.dir with
  | false =>
    have raw : entryName piece.entry = piece.entry.name := if_neg (by simp [dir])
    have file : e.kind ≠ .dir := fun is => by
      rw [← packed.kind, dir] at is
      cases is
    rw [raw]
    exact iff_of_true (plain short) fun is => absurd is file
  | true =>
    have raw : entryName piece.entry = piece.entry.name ++ [slash] := if_pos ⟨dir, last⟩
    rw [raw]
    constructor
    · intro split_ _ same
      rw [long (Nat.le_of_eq same.symm)] at split_
      cases split_
    · exact fun other => slashed (lt_of_le_of_ne short (other (packed.kind.mp dir)))

theorem belowBase_named {p : VPath} {name : Bytes} (named : relativeName base p = some name) :
    belowBase base p = components name := by
  obtain ⟨_, tail, split, same⟩ := spelled_of_named named
  rw [belowBase, split, List.drop_left, same]

theorem name_of_components {piece piece' : Piece} {src src' : Provider E × VPath} {e e' : Entry}
    (packed : Packed excluded base sources piece src e) (packed' : Packed excluded base sources piece' src' e')
    (same : components piece.entry.name = components piece'.entry.name) : piece.entry.name = piece'.entry.name := by
  have spelled := (spelled_of_named packed.named).1
  have spelled' := (spelled_of_named packed'.named).1
  rw [spelled.name, same, ← spelled'.name]

/-- One name inside another is one path above another. -/
theorem hangsOff_of_components {p q : VPath} {name name' : Bytes} (named : relativeName base p = some name)
    (named' : relativeName base q = some name') (begins : components name <+: components name') : HangsOff p q := by
  obtain ⟨hangs, _⟩ := relativeName_some named
  obtain ⟨hangs', _⟩ := relativeName_some named'
  obtain ⟨_, tail, split, comps⟩ := spelled_of_named named
  obtain ⟨_, tail', split', comps'⟩ := spelled_of_named named'
  have injective : Function.Injective Segment.bytes := by
    rintro ⟨b, _⟩ ⟨c, _⟩ same
    cases same
    rfl
  rw [comps, comps'] at begins
  refine ⟨hangs.1.symm.trans hangs'.1, hangs.2.1.symm.trans hangs'.2.1, ?_⟩
  rw [split, split']
  exact (List.prefix_append_right_inj _).mpr ((List.prefix_map_iff_of_injective injective).mp begins)

/-- Packed entries with different names fit into one tree. -/
theorem CollectsAll.compatible (collects : CollectsAll excluded base sources pieces) (forest : Forest sources)
    (names : (pieces.map fun p => p.entry.name).Nodup)
    (kinds : ∀ e : PackEntry, (node e).kind = if e.dir then .dir else .file) :
    Compatible (pieces.map fun p => (components p.entry.name, node p.entry)) := by
  have above {piece piece' : Piece} (inside : piece ∈ pieces) (inside' : piece' ∈ pieces)
      (other : piece.entry.name ≠ piece'.entry.name)
      (begins : components piece.entry.name <+: components piece'.entry.name) : (node piece.entry).kind = .dir := by
    obtain ⟨src, e, packed⟩ := collects.packed inside
    obtain ⟨src', e', packed'⟩ := collects.packed inside'
    rw [kinds]
    rcases packed.stored.kind with dir | file
    · rw [if_pos (packed.kind.mpr dir)]
    · exfalso
      have same := forest src packed.source src' packed'.source piece.path piece'.path e e' packed.stored.found file
        packed'.stored.found (hangsOff_of_components packed.named packed'.named begins)
      have named' := packed'.named
      rw [same, packed.named] at named'
      exact other (Option.some.inj named')
  refine ⟨?_, ?_⟩
  · intro c member
    obtain ⟨piece, inside, rfl⟩ := List.mem_map.mp member
    obtain ⟨src, e, packed⟩ := collects.packed inside
    exact (spelled_of_named packed.named).1.some_
  · refine List.pairwise_map.mpr ((List.pairwise_map.mp names).imp_of_mem ?_)
    intro piece piece' inside inside' other
    refine ⟨fun same => other ?_, above inside inside' other, above inside' inside (Ne.symm other)⟩
    obtain ⟨src, e, packed⟩ := collects.packed inside
    obtain ⟨src', e', packed'⟩ := collects.packed inside'
    exact name_of_components packed packed' same

/-- The paths that are packed are those that are stored below the base, with everything
above them. -/
theorem CollectsAll.paths (collects : CollectsAll excluded base sources pieces) :
    ((treePaths (pieces.map fun p => components p.entry.name) : Finset InnerPath) : Set InnerPath) =
      {path | path ≠ [] ∧ ∃ src ∈ sources, ∃ e p, Stored src.1 excluded src.2 e p ∧ path <+: belowBase base p} := by
  ext path
  simp only [Finset.mem_coe, mem_treePaths, List.mem_map, exists_exists_and_eq_and, Set.mem_ofPred_eq]
  refine and_congr_right fun _ => ⟨?_, ?_⟩
  · rintro ⟨piece, inside, begins⟩
    obtain ⟨src, e, packed⟩ := collects.packed inside
    exact ⟨src, packed.source, e, piece.path, packed.stored, by rwa [belowBase_named packed.named]⟩
  · rintro ⟨src, member, e, p, stored, begins⟩
    obtain ⟨piece, inside, rfl, name, named, made⟩ := collects.complete src member e p stored
    refine ⟨piece, inside, ?_⟩
    rwa [(pieceOf_entry made).1, ← belowBase_named named]

/-- What was accepted for packing makes the tree it was taken from, exactly where it fits. -/
theorem CollectsAll.meets_iff (collects : CollectsAll excluded base sources pieces) (forest : Forest sources)
    (names : (pieces.map fun p => p.entry.name).Nodup)
    (keys : (pieces.map fun p => nameKey p.entry.name .full).Nodup)
    (kinds : ∀ e : PackEntry, (node e).kind = if e.dir then .dir else .file) :
    Meets nameKey node pieces ↔ Fits excluded base sources := by
  have compatible := collects.compatible forest names kinds
  have own (e : PackEntry) : overridden (node e) e.dir = node e := by
    unfold overridden
    rw [kinds]
    cases e.dir <;> simp
  have index (accepted : ∀ p ∈ pieces,
      splitName (entryName p.entry) defaultLimits = some (components p.entry.name, p.entry.dir))
      (generation : Option Int × Option UInt64) :
      (insertAll defaultLimits (.new generation) (pieces.map fun p => (entryName p.entry, node p.entry))).1 = .ok () ∧
          Holds (pieces.map fun p => (components p.entry.name, node p.entry))
            (insertAll defaultLimits (.new generation) (pieces.map fun p => (entryName p.entry, node p.entry))).2 ∧
          (treePaths (pieces.map fun p => components p.entry.name)).card ≤ 500000 ∨
        (∃ e, (insertAll defaultLimits (.new generation)
          (pieces.map fun p => (entryName p.entry, node p.entry))).1 = .error e) ∧
          500000 < (treePaths (pieces.map fun p => components p.entry.name)).card := by
    have empty : Holds [] (ArchiveIndex.new generation) := by
      refine ⟨fun _ none_ => absurd none_ List.not_mem_nil, fun path => ?_, fun path found here => ?_, rfl⟩
      · exact iff_of_false Finmap.notMem_empty (by simp)
      · rw [ArchiveIndex.new, Finmap.lookup_empty] at here
        cases here
    generalize listed : (pieces.attach.map fun p => (⟨entryName p.1.entry, components p.1.entry.name, p.1.entry.dir,
      node p.1.entry, accepted p.1 p.2, own p.1.entry⟩ : Read defaultLimits)) = reads
    have calls : reads.map Read.call = pieces.map fun p => (entryName p.entry, node p.entry) := by
      rw [← listed, List.map_map]
      exact List.attach_map_val (l := pieces) (f := fun p => (entryName p.entry, node p.entry))
    have seen : reads.map Read.seen = pieces.map fun p => (components p.entry.name, node p.entry) := by
      rw [← listed, List.map_map]
      exact List.attach_map_val (l := pieces) (f := fun p => (components p.entry.name, node p.entry))
    have paths : (pieces.map fun p => (components p.entry.name, node p.entry)).map Prod.fst =
        pieces.map fun p => components p.entry.name := by
      rw [List.map_map]
      rfl
    have run := insertAll_holds empty (by simp [ArchiveIndex.new]) (by rw [List.nil_append, seen]; exact compatible)
    rw [calls, List.nil_append, seen, paths] at run
    rcases run with ⟨done, holds, few⟩ | failed
    · rw [holds.keys, paths] at few
      exact .inl ⟨done, holds, few⟩
    · exact .inr failed
  have counted : Set.encard {path : InnerPath | path ≠ [] ∧
      ∃ src ∈ sources, ∃ e p, Stored src.1 excluded src.2 e p ∧ path <+: belowBase base p} ≤ 500000 ↔
        (treePaths (pieces.map fun p => components p.entry.name)).card ≤ 500000 := by
    rw [← collects.paths, Set.encard_coe_eq_coe_finsetCard]
    exact Nat.cast_le (α := ℕ∞) (n := 500000)
  constructor
  · rintro ⟨_, _, accepted, indexed⟩
    refine ⟨?_, ?_⟩
    · intro src member e p stored dir name named
      obtain ⟨piece, inside, rfl, name', named', made⟩ := collects.complete src member e p stored
      obtain ⟨src', e', packed⟩ := collects.packed inside
      have is := (pieceOf_entry made).2.mpr dir
      rw [packed.named] at named
      obtain rfl := Option.some.inj named
      exact packed.split.mp (accepted piece inside) (packed.kind.mp is)
    · rw [counted]
      obtain ⟨built, done, _⟩ := indexed (none, none)
      rcases index accepted (none, none) with ⟨_, _, few⟩ | ⟨⟨e, failed⟩, _⟩
      · exact few
      · rw [done] at failed
        cases failed
  · rintro ⟨dirs, nodes⟩
    have accepted : ∀ p ∈ pieces,
        splitName (entryName p.entry) defaultLimits = some (components p.entry.name, p.entry.dir) := by
      intro piece inside
      obtain ⟨src, e, packed⟩ := collects.packed inside
      exact packed.split.mpr fun dir => dirs src packed.source e piece.path packed.stored dir _ packed.named
    refine ⟨names, keys, accepted, fun generation => ?_⟩
    rcases index accepted generation with ⟨done, holds, _⟩ | ⟨_, many⟩
    · refine ⟨_, Prod.ext done rfl, holds.skipped, ?_, ?_⟩
      · exact fun p inside => holds.entries _ (List.mem_map_of_mem inside)
      · intro path found here
        by_cases implicit : ∀ c ∈ pieces.map fun p => (components p.entry.name, node p.entry), c.1 ≠ path
        · obtain ⟨_, c, member, begins⟩ := (holds.nodes path).mp (Finmap.mem_of_lookup_eq_some here)
          obtain ⟨p, inside, rfl⟩ := List.mem_map.mp member
          exact .inr ⟨holds.implicit path found here implicit, p, inside, begins⟩
        · push Not at implicit
          obtain ⟨c, member, same⟩ := implicit
          obtain ⟨p, inside, rfl⟩ := List.mem_map.mp member
          exact .inl ⟨p, inside, same⟩
    · exact absurd (counted.mp nodes) (not_le.mpr many)

/-- Outside the base, with a marker in the name, or past one of the index's caps. -/
def OutOfBounds (base p : VPath) : Prop :=
  ¬(HangsOff base p ∧ p.segments ≠ base.segments) ∨ (∃ s ∈ p.segments.drop base.segments.length, s.bytes = ['!'.toUInt8]) ∨
    maxEntryNameBytes < ([slash].intercalate (belowBase base p)).length ∨ maxEntryDepth < (belowBase base p).length

theorem Refused.bounds {p : VPath} (refused : Refused base p) : OutOfBounds base p := by
  by_cases hangs : HangsOff base p ∧ p.segments ≠ base.segments
  · obtain ⟨⟨scheme, authority, begins⟩, other⟩ := hangs
    by_cases marked : ∃ s ∈ p.segments.drop base.segments.length, s.bytes = ['!'.toUInt8]
    · exact .inr (.inl marked)
    · have longer : ¬p.segments.length ≤ base.segments.length := fun short =>
        other (begins.eq_of_length (Nat.le_antisymm begins.length_le short)).symm
      have plain : ((p.segments.drop base.segments.length).map Segment.bytes).any (fun s => s = ['!'.toUInt8]) = false := by
        rw [List.any_eq_false]
        intro bytes member same
        obtain ⟨s, inside, rfl⟩ := List.mem_map.mp member
        exact marked ⟨s, inside, of_decide_eq_true same⟩
      have named : relativeName base p = some ([slash].intercalate (belowBase base p)) := by
        rw [relativeName, if_neg (not_or.mpr ⟨not_not.mpr scheme.symm, not_not.mpr authority.symm⟩),
          if_neg (not_or.mpr ⟨longer, not_not.mpr begins⟩)]
        dsimp only
        rw [plain]
        rfl
      have past := refused _ named
      simp only [exceeds, Bool.or_eq_true, decide_eq_true_eq] at past
      have depth := belowBase_named named
      rcases past with long | deep
      · exact .inr (.inr (.inl long))
      · rw [components] at depth
        rw [← depth] at deep
        exact .inr (.inr (.inr deep))
  · exact .inl hangs

/-- What is accepted for packing makes its tree again, and what is refused by the walk
itself has a name that is out of bounds, or two that meet. -/
structure NeverMeet (excluded : List VPath) (base : VPath) (isCancelled : Nat → Bool)
    (nameKey : Bytes → FoldMode → Bytes) (node : PackEntry → Node) (fuel : Nat) (sources : List (Provider E × VPath)) :
    Prop where
  accepted : ∀ pieces, walkSources excluded base isCancelled nameKey fuel sources = some (.ok pieces) →
    Meets nameKey node pieces
  rejected : ∀ failed, walkSources excluded base isCancelled nameKey fuel sources = some (.error failed) →
    failed = .cancelled ∨ (∃ e, failed = .provider e) ∨
      failed = .invalidPath ∧ (∃ src ∈ sources, ∃ p, Reached src.1 excluded src.2 p ∧ OutOfBounds base p) ∨
      failed = .exists_ ∧ ∃ found, walkAll excluded base isCancelled fuel 0 sources = some (.ok found) ∧
        Collide nameKey found

/-- The walk and the index draw their lines alike but for two: the slash that a directory
is written with, and the number of nodes. -/
theorem neverMeet_iff (excluded : List VPath) (base : VPath) (isCancelled : Nat → Bool)
    (nameKey : Bytes → FoldMode → Bytes) (node : PackEntry → Node) (fuel : Nat) (sources : List (Provider E × VPath))
    (forest : Forest sources) (kinds : ∀ e : PackEntry, (node e).kind = if e.dir then .dir else .file) :
    NeverMeet excluded base isCancelled nameKey node fuel sources ↔
      ((∃ pieces, walkSources excluded base isCancelled nameKey fuel sources = some (.ok pieces)) →
        Fits excluded base sources) := by
  constructor
  · rintro never ⟨pieces, walked⟩
    obtain ⟨collects, names, keys⟩ := walkSources_ok walked
    exact (collects.meets_iff forest names keys kinds).mp (never.accepted pieces walked)
  · intro fits
    refine ⟨fun pieces walked => ?_, fun failed walked => ?_⟩
    · obtain ⟨collects, names, keys⟩ := walkSources_ok walked
      exact (collects.meets_iff forest names keys kinds).mpr (fits ⟨pieces, walked⟩)
    · rcases walkSources_error walked with (stopped | failing | ⟨invalid, src, member, p, reached, refused⟩) | collided
      · exact .inl stopped
      · exact .inr (.inl failing)
      · exact .inr (.inr (.inl ⟨invalid, src, member, p, reached, refused.bounds⟩))
      · exact .inr (.inr (.inr collided))

end Meeting

/-! A directory whose name is as long as the cap. -/

theorem Segment.valid_long : Segment.Valid (List.replicate 240 0x61) where
  nonempty := by decide
  noNul := by decide +kernel
  noSlash := by decide +kernel
  notDot := by decide

def memRoot : VPath := ⟨⟨"mem".toList, Scheme.check_mem⟩, none, []⟩

def longPath : VPath := ⟨⟨"mem".toList, Scheme.check_mem⟩, none, List.replicate 17 ⟨List.replicate 240 0x61, Segment.valid_long⟩⟩

/-- Directories without anything in them. -/
def emptyDirs : Provider Empty := ⟨fun p => .ok ⟨p, .dir, none, none⟩, fun _ => .ok []⟩

def plainNode (e : PackEntry) : Node := if e.dir then .dir none else ⟨.file, some e.size, none, none, none, none⟩

theorem plainNode_kind (e : PackEntry) : (plainNode e).kind = if e.dir then .dir else .file := by
  unfold plainNode
  split <;> rfl

theorem emptyDirs_forest (roots : List VPath) : Forest (roots.map fun root => (emptyDirs, root)) := by
  intro src member src' _ p q e e' found file
  obtain ⟨root, _, rfl⟩ := List.mem_map.mp member
  obtain rfl := Except.ok.inj found
  cases file

theorem walk_emptyDir {base p : VPath} {name : Bytes} (nameKey : Bytes → FoldMode → Bytes)
    (named : relativeName base p = some name) (fits : exceeds name = false) :
    walkSources [] base (fun _ => false) nameKey 1 [(emptyDirs, p)] = some (.ok [⟨p, dirEntry name⟩]) := by
  have visited : visit emptyDirs [] base p = .ok ([⟨p, dirEntry name⟩], []) := by
    simp [visit, isExcluded, emptyDirs, named, fits, children, drain, pieceOf, bind, Except.bind, pure, Except.pure]
  simp [walkSources, walkAll, walkRoot, visited, adjacentEqual]

theorem length_intercalate_replicate (sep : UInt8) (comp : Bytes) (n : Nat) :
    ([sep].intercalate (List.replicate (n + 1) comp)).length = (n + 1) * comp.length + n := by
  induction n with
  | zero => simp
  | succ n ih =>
    have split : [sep].intercalate (List.replicate (n + 1 + 1) comp) =
        comp ++ ([sep] ++ [sep].intercalate (List.replicate (n + 1) comp)) := by
      rw [List.replicate_succ, List.replicate_succ]
      simp [List.intercalate]
    rw [split, List.length_append, List.length_append, ih, List.length_singleton, Nat.add_mul (n + 1)]
    omega

theorem longPath_named : relativeName memRoot longPath =
    some ([slash].intercalate (List.replicate 17 (List.replicate 240 0x61))) := by
  have plain : ((List.replicate 17 (List.replicate 240 (0x61 : UInt8))).any fun s => s = ['!'.toUInt8]) = false := by
    rw [List.any_replicate]
    rfl
  have tail : (longPath.segments.drop memRoot.segments.length).map Segment.bytes =
      List.replicate 17 (List.replicate 240 0x61) := by
    rw [longPath, memRoot]
    exact List.map_replicate
  have inside : ¬(longPath.segments.length ≤ memRoot.segments.length ∨ ¬memRoot.segments <+: longPath.segments) := by
    have longer : longPath.segments.length = 17 := List.length_replicate
    have none_ : memRoot.segments.length = 0 := rfl
    rw [longer, none_, not_or, not_not]
    exact ⟨by decide, List.nil_prefix⟩
  have same : ¬(longPath.scheme ≠ memRoot.scheme ∨ longPath.authority ≠ memRoot.authority) :=
    not_or.mpr ⟨not_not.mpr rfl, not_not.mpr rfl⟩
  rw [relativeName, if_neg same, if_neg inside]
  dsimp only
  rw [tail, plain]
  rfl

theorem longName_length : ([slash].intercalate (List.replicate 17 (List.replicate 240 0x61))).length = 4096 := by
  rw [length_intercalate_replicate, List.length_replicate]

theorem longPath_walked : walkSources [] memRoot (fun _ => false) (fun name _ => name) 1 [(emptyDirs, longPath)] =
    some (.ok [⟨longPath, dirEntry ([slash].intercalate (List.replicate 17 (List.replicate 240 0x61)))⟩]) := by
  apply walk_emptyDir _ longPath_named
  have deep : components ([slash].intercalate (List.replicate 17 (List.replicate 240 0x61))) =
      List.replicate 17 (List.replicate 240 0x61) := by
    rw [← belowBase_named longPath_named, belowBase, longPath, memRoot]
    exact List.map_replicate
  rw [components] at deep
  rw [exceeds, longName_length, deep, List.length_replicate]
  rfl

/-- The directory is packed, and the index skips it for the slash behind its name. -/
theorem longest_directory_skipped : ¬∀ (E : Type) (excluded : List VPath) (base : VPath) (isCancelled : Nat → Bool)
    (nameKey : Bytes → FoldMode → Bytes) (node : PackEntry → Node) (fuel : Nat) (sources : List (Provider E × VPath)),
    Forest sources → (∀ e : PackEntry, (node e).kind = if e.dir then .dir else .file) →
      NeverMeet excluded base isCancelled nameKey node fuel sources := by
  intro all
  have never := all Empty [] memRoot (fun _ => false) (fun name _ => name) plainNode 1 [(emptyDirs, longPath)]
    (emptyDirs_forest [longPath]) plainNode_kind
  have accepted := (never.accepted _ longPath_walked).accepted _ List.mem_cons_self
  obtain ⟨collects, _⟩ := walkSources_ok longPath_walked
  obtain ⟨src, e, packed⟩ := collects.packed List.mem_cons_self
  exact packed.split.mp accepted (packed.kind.mp rfl) longName_length

/-! A directory `a` with a file `b` in it, and beside it a file `b`. -/

def nameA : Segment := ⟨[0x61], Segment.valid_a⟩

def nameB : Segment := ⟨[0x62], Segment.valid_b⟩

def threeEntries : List Entry :=
  [⟨memRoot.join nameA, .dir, none, none⟩, ⟨(memRoot.join nameA).join nameB, .file, some 3, none⟩,
    ⟨memRoot.join nameB, .file, some 3, none⟩]

def threeThings : Provider Unit where
  stat p := ((threeEntries.find? fun e => e.path = p).map Except.ok).getD (.error ())
  list p := .ok ((threeEntries.filter fun e => e.path.parent = some p).map .ok)

def twoSources : List (Provider Unit × VPath) := [(threeThings, memRoot.join nameA), (threeThings, memRoot.join nameB)]

def threePieces : List Piece :=
  [⟨memRoot.join nameA, dirEntry [0x61]⟩, ⟨(memRoot.join nameA).join nameB, fileEntry [0x61, 0x2F, 0x62] 3⟩,
    ⟨memRoot.join nameB, fileEntry [0x62] 3⟩]

theorem threePieces_walked : walkSources [] memRoot (fun _ => false) (fun name _ => name) 2 twoSources =
    some (.ok threePieces) := by
  decide +kernel

theorem threeThings_known {p : VPath} {e : Entry} (found : threeThings.stat p = .ok e) : e ∈ threeEntries ∧ e.path = p := by
  unfold threeThings at found
  cases known : threeEntries.find? fun e => e.path = p with
  | none => simp [known] at found
  | some e' =>
    simp only [known, Option.map_some, Option.getD_some, Except.ok.injEq] at found
    subst found
    exact ⟨List.mem_of_find?_eq_some known, by simpa using List.find?_some known⟩

theorem twoSources_forest : Forest twoSources := by
  have only {src : Provider Unit × VPath} (member : src ∈ twoSources) : src.1 = threeThings := by
    rcases List.mem_cons.mp member with rfl | last
    · rfl
    · rw [List.mem_singleton.mp last]
  have apart : ∀ e ∈ threeEntries, ∀ e' ∈ threeEntries, e.kind = .file →
      (e.path.segments <+: e'.path.segments) → e'.path = e.path := by decide +kernel
  intro src member src' member' p q e e' found file found' hangs
  rw [only member] at found
  rw [only member'] at found'
  obtain ⟨known, rfl⟩ := threeThings_known found
  obtain ⟨known', rfl⟩ := threeThings_known found'
  exact apart e known e' known' file hangs.2.2

/-- Two sources of three names are packed and found again. -/
theorem neverMeet_iff_twoSources : NeverMeet [] memRoot (fun _ => false) (fun name _ => name) plainNode 2 twoSources := by
  refine (neverMeet_iff [] memRoot (fun _ => false) (fun name _ => name) plainNode 2 twoSources twoSources_forest
    plainNode_kind).mpr fun _ => ?_
  obtain ⟨collects, _⟩ := walkSources_ok threePieces_walked
  refine ⟨?_, ?_⟩
  · intro src member e p stored _ name named same
    obtain ⟨piece, inside, rfl, -⟩ := collects.complete src member e p stored
    have short : ∀ piece ∈ threePieces, ∀ name ∈ relativeName memRoot piece.path, name.length < 4 := by decide +kernel
    have few := short piece inside name named
    rw [same] at few
    exact absurd few (by decide)
  · rw [← collects.paths, Set.encard_coe_eq_coe_finsetCard]
    have few : (treePaths (threePieces.map fun p => components p.entry.name)).card ≤ 500000 := by decide +kernel
    exact Nat.cast_le.mpr few

end Norte.Archive.Pack
