import Mathlib.Data.Finmap
import Mathlib.Data.Finset.Insert
import Norte.RenameExec
import Norte.SyncTypes

/-! The index of an archive: a flat map of nodes and a map of children, grown entry by entry
from names that may be hostile. Whatever comes in, they are one tree. -/
namespace Norte.Archive

open Sync (EntryKind)

/-- The limits that an insertion asks about. -/
structure Limits where
  maxEntries : Nat
  maxNameBytes : Nat
  maxDepth : Nat

/-- Where an entry's bytes live inside the container. -/
inductive Locator where
  | tar (offset size : UInt64)
  | zip (headerOffset : UInt64) (method : UInt16) (crc32 : UInt32) (compSize uncompSize : UInt64)
  | gz (offset size : UInt64)
  deriving DecidableEq

structure ZipExtra where
  method : UInt16
  crc32 : UInt32
  compSize : UInt64
  deriving DecidableEq

structure Node where
  kind : EntryKind
  size : Option UInt64
  mtimeMs : Option Int
  locator : Option Locator
  linkTarget : Option Bytes
  zip : Option ZipExtra
  deriving DecidableEq

def Node.dir (mtimeMs : Option Int) : Node := ⟨.dir, none, mtimeMs, none, none, none⟩

abbrev InnerPath := List Bytes

structure ArchiveIndex where
  nodes : Finmap fun _ : InnerPath => Node
  children : InnerPath → Finset Bytes
  skipped : Nat
  generation : Option Int × Option UInt64

def slash : UInt8 := '/'.toUInt8

/-- A component that is a segment and not the marker of a nested archive. -/
def addressable (comp : Bytes) : Bool :=
  comp ≠ [] && comp ≠ ['.'.toUInt8] && comp ≠ ['.'.toUInt8, '.'.toUInt8] && comp ≠ ['!'.toUInt8] &&
    (Segment.new comp).isOk

/-- The components of a raw name, and whether it ends in a slash; none where it is hostile. -/
def splitName (raw : Bytes) (limits : Limits) : Option (InnerPath × Bool) :=
  if raw.isEmpty then none
  else if raw.length > limits.maxNameBytes then none
  else if raw.head? = some slash then none
  else
    let isDir : Bool := raw.getLast? = some slash
    let body := if isDir then raw.dropLast else raw
    let parts := body.splitOn slash
    if !parts.all addressable then none
    else if parts.isEmpty then none
    else if parts.length > limits.maxDepth then none
    else some (parts, isDir)

namespace ArchiveIndex

def new (generation : Option Int × Option UInt64) : ArchiveIndex := ⟨∅, fun _ => ∅, 0, generation⟩

variable (index : ArchiveIndex)

def setNode (path : InnerPath) (node : Node) : ArchiveIndex := { index with nodes := index.nodes.insert path node }

def skip : ArchiveIndex := { index with skipped := index.skipped + 1 }

def addChild (parent : InnerPath) (name : Bytes) : ArchiveIndex :=
  { index with children := Function.update index.children parent (insert name (index.children parent)) }

/-- An implicit directory, or what was a file before something came below it. -/
def asDir (dir : InnerPath) : ArchiveIndex :=
  match index.nodes.lookup dir with
  | none => index.setNode dir (.dir none)
  | some node => if node.kind ≠ .dir then (index.setNode dir (.dir node.mtimeMs)).skip else index

/-- The directories below `dir` that these names lead through, from the top. -/
def ensureBelow (index : ArchiveIndex) (dir : InnerPath) : List Bytes → ArchiveIndex
  | [] => index
  | name :: names => ensureBelow ((index.asDir (dir ++ [name])).addChild dir name) (dir ++ [name]) names

def ensureParents (path : InnerPath) : ArchiveIndex := index.ensureBelow [] path.dropLast

def isDir (path : InnerPath) : Bool := (index.nodes.lookup path).any (·.kind = .dir)

/-- A trailing slash overrides the declared kind. -/
def overridden (node : Node) (trailingSlash : Bool) : Node :=
  if trailingSlash ∧ node.kind ≠ .dir then .dir node.mtimeMs else node

/-- The last of two entries with one path wins, but a directory is never demoted; the
budget is looked at after the insertion. -/
def insertEntry (rawName : Bytes) (node : Node) (limits : Limits) : Except Error Unit × ArchiveIndex :=
  match splitName rawName limits with
  | none => (.ok (), index.skip)
  | some (path, trailingSlash) =>
    let node := overridden node trailingSlash
    let index := index.ensureParents path
    if index.isDir path && node.kind ≠ .dir then (.ok (), index.skip)
    else
      let index := (index.setNode path node).addChild path.dropLast (path.getLastD [])
      if index.nodes.keys.card > limits.maxEntries then (.error (.limitExceeded "entries".toList), index)
      else (.ok (), index)

end ArchiveIndex

/-! What the readers of the formats hand in. -/

/-- What the header of a tar entry says it is. -/
inductive EntryShape where
  | dir
  | symlink (linkTarget : Option Bytes)
  | file (offset size : UInt64)
  | other

/-- The node of a tar entry; `locate` is `Locator.tar` or, compressed, `Locator.gz`. -/
def tarNode (locate : UInt64 → UInt64 → Locator) (mtimeMs : Option Int) : EntryShape → Node
  | .dir => .dir mtimeMs
  | .symlink linkTarget => ⟨.symlink, none, mtimeMs, none, linkTarget, none⟩
  | .file offset size => ⟨.file, some size, mtimeMs, some (locate offset size), none, none⟩
  | .other => ⟨.other, none, mtimeMs, none, none, none⟩

/-- A record of a zip's central directory. -/
structure CdEntry where
  nameRaw : Bytes
  flags : UInt16
  method : UInt16
  crc32 : UInt32
  compSize : UInt64
  uncompSize : UInt64
  headerOffset : UInt64
  mtimeMs : Option Int

/-- Encrypted, or packed by a method that is not known: listed all the same. -/
def zipNode (entry : CdEntry) : Node :=
  if entry.nameRaw.getLast? = some slash then .dir entry.mtimeMs
  else
    let readable : Bool := entry.flags &&& 1 = 0 && (entry.method = 0 || entry.method = 8)
    ⟨.file, some entry.uncompSize, entry.mtimeMs,
      if readable then some (.zip entry.headerOffset entry.method entry.crc32 entry.compSize entry.uncompSize) else none,
      none, some ⟨entry.method, entry.crc32, entry.compSize⟩⟩

/-- A directory that is handed in has no bytes. -/
def Plain (node : Node) : Prop := node.kind = .dir → node.locator = none

theorem tarNode_plain (locate : UInt64 → UInt64 → Locator) (mtimeMs : Option Int) (shape : EntryShape) :
    Plain (tarNode locate mtimeMs shape) := by
  intro dir
  cases shape with
  | file offset size => cases dir
  | _ => rfl

theorem zipNode_plain (entry : CdEntry) : Plain (zipNode entry) := by
  intro dir
  unfold zipNode at dir ⊢
  split
  · rfl
  · rename_i file
    rw [if_neg file] at dir
    cases dir

namespace ArchiveIndex

variable {index index' : ArchiveIndex} {limits : Limits} {maxDepth : Nat} {dir path : InnerPath} {name : Bytes} {node : Node}

/-! One tree. -/

theorem isDir_iff : index.isDir path = true ↔ ∃ node, index.nodes.lookup path = some node ∧ node.kind = .dir := by
  unfold isDir
  cases index.nodes.lookup path <;> simp

theorem mem_of_isDir (is : index.isDir path = true) : path ∈ index.nodes := by
  obtain ⟨node, found, _⟩ := isDir_iff.mp is
  exact Finmap.mem_of_lookup_eq_some found

structure Tree (maxDepth : Nat) (index : ArchiveIndex) : Prop where
  paths : ∀ path ∈ index.nodes, path ≠ [] ∧ path.length ≤ maxDepth ∧ ∀ c ∈ path, addressable c = true
  listed : ∀ dir name, name ∈ index.children dir ↔ dir ++ [name] ∈ index.nodes
  dirs : ∀ dir name, dir ++ [name] ∈ index.nodes → dir ≠ [] → index.isDir dir = true
  plain : ∀ path node, index.nodes.lookup path = some node → Plain node

theorem tree_new (generation : Option Int × Option UInt64) : Tree maxDepth (.new generation) := by
  have nothing (path : InnerPath) : path ∉ (new generation).nodes := Finmap.notMem_empty
  refine ⟨fun path member => absurd member (nothing path), fun dir name => ?_, fun dir name member => absurd member (nothing _),
    fun path node found => absurd (Finmap.mem_of_lookup_eq_some found) (nothing path)⟩
  exact iff_of_false (Finset.notMem_empty name) (nothing _)

/-- Setting a node below the root or a directory, without demoting one, keeps the tree. -/
theorem Tree.place (tree : Tree maxDepth index) (above : dir = [] ∨ index.isDir dir = true)
    (good : ∀ c ∈ dir ++ [name], addressable c = true) (shallow : (dir ++ [name]).length ≤ maxDepth) (plain : Plain node)
    (keeps : index.isDir (dir ++ [name]) = true → node.kind = .dir)
    (nodes : index'.nodes = index.nodes.insert (dir ++ [name]) node)
    (children : index'.children = Function.update index.children dir (insert name (index.children dir))) :
    Tree maxDepth index' := by
  have mem (path : InnerPath) : path ∈ index'.nodes ↔ path = dir ++ [name] ∨ path ∈ index.nodes := by
    rw [nodes]
    exact Finmap.mem_insert
  have lookup (path : InnerPath) (other : path ≠ dir ++ [name]) : index'.nodes.lookup path = index.nodes.lookup path := by
    rw [nodes]
    exact Finmap.lookup_insert_of_ne _ other
  have here : index'.nodes.lookup (dir ++ [name]) = some node := by
    rw [nodes]
    exact Finmap.lookup_insert _
  refine ⟨fun path member => ?_, fun dir' name' => ?_, fun dir' name' member some_ => ?_, fun path node' found => ?_⟩
  · rcases (mem path).mp member with rfl | old
    · exact ⟨by simp, shallow, good⟩
    · exact tree.paths path old
  · rw [children, mem]
    by_cases same : dir' = dir
    · subst same
      rw [Function.update_self, Finset.mem_insert, tree.listed]
      simp
    · rw [Function.update_of_ne same, tree.listed]
      have other : dir' ++ [name'] ≠ dir ++ [name] := fun eq => same (List.append_inj' eq rfl).1
      simp [other]
  · -- The directory above is one already, or the one that is set here.
    by_cases same : dir' = dir ++ [name]
    · subst same
      have below : index.isDir (dir ++ [name]) = true := by
        rcases (mem _).mp member with eq | old
        · exact absurd (congrArg List.length eq) (by simp)
        · exact tree.dirs _ name' old some_
      exact isDir_iff.mpr ⟨node, here, keeps below⟩
    · have was : index.isDir dir' = true := by
        rcases (mem _).mp member with eq | old
        · obtain rfl := (List.append_inj' eq rfl).1
          exact above.resolve_left some_
        · exact tree.dirs dir' name' old some_
      unfold isDir at was ⊢
      rw [lookup dir' same]
      exact was
  · by_cases same : path = dir ++ [name]
    · subst same
      obtain rfl := Option.some.inj (here.symm.trans found)
      exact plain
    · exact tree.plain path node' ((lookup path same).symm.trans found)

/-- The node of a directory that is made, promoted, or found. -/
theorem asDir_spec (dir : InnerPath) (plain : ∀ path node, index.nodes.lookup path = some node → Plain node) :
    ∃ node, node.kind = .dir ∧ Plain node ∧ (index.asDir dir).nodes = index.nodes.insert dir node ∧
      (index.asDir dir).children = index.children := by
  unfold asDir
  cases found : index.nodes.lookup dir with
  | none => exact ⟨.dir none, rfl, fun _ => rfl, rfl, rfl⟩
  | some node =>
    dsimp only
    by_cases file : node.kind ≠ .dir
    · rw [if_pos file]
      exact ⟨.dir node.mtimeMs, rfl, fun _ => rfl, rfl, rfl⟩
    · rw [if_neg file]
      refine ⟨node, not_not.mp file, plain dir node found, Finmap.ext_lookup fun path => ?_, rfl⟩
      by_cases same : path = dir
      · rw [same, found]
        exact (Finmap.lookup_insert index.nodes).symm
      · exact (Finmap.lookup_insert_of_ne _ same).symm

theorem asDir_kept (is : index.isDir dir = true) : index.asDir dir = index := by
  obtain ⟨node, found, kind⟩ := isDir_iff.mp is
  unfold asDir
  rw [found]
  exact if_neg (not_not.mpr kind)

/-- What making the directories of a path leaves. -/
structure Leads (maxDepth : Nat) (index : ArchiveIndex) (dir names : InnerPath) (index' : ArchiveIndex) : Prop where
  tree : Tree maxDepth index'
  leads : dir ++ names = [] ∨ index'.isDir (dir ++ names) = true
  lookup : ∀ path, index'.nodes.lookup path = index.nodes.lookup path ∨ index'.isDir path = true
  deeper : ∀ path, dir.length + names.length < path.length → index'.nodes.lookup path = index.nodes.lookup path

theorem ensureBelow_leads {names : List Bytes} (tree : Tree maxDepth index) (above : dir = [] ∨ index.isDir dir = true)
    (good : ∀ c ∈ dir ++ names, addressable c = true) (shallow : (dir ++ names).length ≤ maxDepth) :
    Leads maxDepth index dir names (index.ensureBelow dir names) := by
  induction names generalizing dir index with
  | nil => exact ⟨tree, by rw [List.append_nil]; exact above, fun _ => .inl rfl, fun _ _ => rfl⟩
  | cons name names ih =>
    obtain ⟨node, isDir, plain, nodes, children⟩ := asDir_spec (dir ++ [name]) tree.plain
    have step : ((index.asDir (dir ++ [name])).addChild dir name).nodes = index.nodes.insert (dir ++ [name]) node := nodes
    have made : ((index.asDir (dir ++ [name])).addChild dir name).isDir (dir ++ [name]) = true :=
      isDir_iff.mpr ⟨node, by rw [step]; exact Finmap.lookup_insert _, isDir⟩
    have tree' : Tree maxDepth ((index.asDir (dir ++ [name])).addChild dir name) := by
      apply tree.place above _ _ plain (fun _ => isDir) step
      · show Function.update (index.asDir (dir ++ [name])).children dir _ = _
        rw [children]
      · intro c member
        apply good
        simp only [List.mem_append, List.mem_cons, List.not_mem_nil, or_false] at member ⊢
        tauto
      · simp only [List.length_append, List.length_cons, List.length_nil] at shallow ⊢
        omega
    have split : dir ++ name :: names = dir ++ [name] ++ names := by simp
    rw [split] at good shallow
    obtain ⟨tree'', leads, lookup, deeper⟩ := ih tree' (.inr made) good shallow
    refine ⟨tree'', by rw [split]; exact leads, fun path => ?_, fun path deep => ?_⟩
    · by_cases same : path = dir ++ [name]
      · subst same
        rcases lookup (dir ++ [name]) with eq | is
        · right
          unfold ArchiveIndex.isDir at made ⊢
          exact (congrArg (Option.any _) eq).trans made
        · exact .inr is
      · rcases lookup path with eq | is
        · left
          rw [step, Finmap.lookup_insert_of_ne _ same] at eq
          exact eq
        · exact .inr is
    · have other : path ≠ dir ++ [name] := by
        rintro rfl
        simp only [List.length_append, List.length_cons, List.length_nil] at deep
        omega
      have eq := deeper path (by simp only [List.length_append, List.length_cons, List.length_nil] at deep ⊢; omega)
      rw [step, Finmap.lookup_insert_of_ne _ other] at eq
      exact eq

/-- Where every directory is there already, none is made. -/
theorem ensureBelow_nodes {names : List Bytes} (there : ∀ b, b ≠ [] → b <+: names → index.isDir (dir ++ b) = true) :
    (index.ensureBelow dir names).nodes = index.nodes := by
  induction names generalizing dir index with
  | nil => rfl
  | cons name names ih =>
    have kept := asDir_kept (there [name] (List.cons_ne_nil _ _) (by simp))
    unfold ensureBelow
    rw [kept, ih]
    · rfl
    · intro b _ begins
      have deeper := there (name :: b) (List.cons_ne_nil _ _) (List.cons_prefix_cons.mpr ⟨rfl, begins⟩)
      rw [List.append_assoc]
      exact deeper

/-- Everything above a node is a directory. -/
theorem Tree.ancestors (tree : Tree maxDepth index) {rest : InnerPath} (member : path ++ rest ∈ index.nodes) (some_ : path ≠ [])
    (proper : rest ≠ []) : index.isDir path = true := by
  induction rest using List.reverseRecOn with
  | nil => exact absurd rfl proper
  | append_singleton rest name ih =>
    rw [← List.append_assoc] at member
    have is := tree.dirs (path ++ rest) name member (by simp [some_])
    by_cases last : rest = []
    · rw [last, List.append_nil] at is
      exact is
    · exact ih (mem_of_isDir is) last

/-! Entry by entry. -/

theorem splitName_good {raw : Bytes} {trailingSlash : Bool} (split : splitName raw limits = some (path, trailingSlash)) :
    path ≠ [] ∧ path.length ≤ limits.maxDepth ∧ ∀ c ∈ path, addressable c = true := by
  unfold splitName at split
  split at split
  · cases split
  split at split
  · cases split
  split at split
  · cases split
  dsimp only at split
  generalize List.splitOn slash _ = parts at split
  split at split
  · cases split
  rename_i hostile
  split at split
  · cases split
  rename_i some_
  split at split
  · cases split
  rename_i shallow
  obtain ⟨rfl, -⟩ := Prod.mk.inj (Option.some.inj split)
  exact ⟨by simpa using some_, not_lt.mp shallow, by simpa using hostile⟩

theorem overridden_plain {trailingSlash : Bool} (plain : Plain node) : Plain (overridden node trailingSlash) := by
  unfold overridden
  split
  · exact fun _ => rfl
  · exact plain

/-- What survives as something else than a directory was handed in so. -/
theorem overridden_eq {trailingSlash : Bool} (file : (overridden node trailingSlash).kind ≠ .dir) :
    overridden node trailingSlash = node := by
  unfold overridden at file ⊢
  split
  · rename_i turned
    rw [if_pos turned] at file
    exact absurd rfl file
  · rfl

/-- What an insertion that is accepted leaves. -/
structure Inserted (limits : Limits) (index : ArchiveIndex) (raw : Bytes) (node : Node) (index' : ArchiveIndex) : Prop where
  tree : Tree limits.maxDepth index'
  budget : index'.nodes.keys.card ≤ limits.maxEntries
  stays : ∀ path, index.isDir path = true → index'.isDir path = true
  last : ∀ path found, index'.nodes.lookup path = some found → found.kind ≠ .dir →
    (∃ trailingSlash, splitName raw limits = some (path, trailingSlash) ∧ found = node) ∨
      (index.nodes.lookup path = some found ∧ ∀ trailingSlash, splitName raw limits ≠ some (path, trailingSlash))

theorem insertEntry_inserted {raw : Bytes} (tree : Tree limits.maxDepth index)
    (budget : index.nodes.keys.card ≤ limits.maxEntries) (plain : Plain node)
    (done : index.insertEntry raw node limits = (.ok (), index')) : Inserted limits index raw node index' := by
  unfold insertEntry at done
  cases split : splitName raw limits with
  | none =>
    rw [split] at done
    obtain rfl := (Prod.mk.inj done).2
    exact ⟨⟨tree.paths, tree.listed, tree.dirs, tree.plain⟩, budget, fun _ is => is,
      fun path found here _ => .inr ⟨here, by simp [split]⟩⟩
  | some parts =>
    obtain ⟨path, trailingSlash⟩ := parts
    rw [split] at done
    obtain ⟨some_, shallow, good⟩ := splitName_good split
    obtain ⟨dir, name, rfl⟩ : ∃ dir name, path = dir ++ [name] := ⟨_, _, (List.dropLast_concat_getLast some_).symm⟩
    have parents : Leads limits.maxDepth index [] dir (index.ensureParents (dir ++ [name])) := by
      unfold ensureParents
      rw [List.dropLast_concat]
      apply ensureBelow_leads tree (.inl rfl)
      · exact fun c member => good c (List.mem_append_left _ member)
      · exact (List.sublist_append_left dir [name]).length_le.trans shallow
    have stays (path : InnerPath) (is : index.isDir path = true) :
        (index.ensureParents (dir ++ [name])).isDir path = true := by
      rcases parents.lookup path with eq | is'
      · unfold isDir at is ⊢
        rw [eq]
        exact is
      · exact is'
    have own := parents.deeper (dir ++ [name]) (by simp)
    have kept (path : InnerPath) (found : Node) (here : (index.ensureParents (dir ++ [name])).nodes.lookup path = some found)
        (file : found.kind ≠ .dir) : index.nodes.lookup path = some found := by
      rcases parents.lookup path with eq | is
      · exact eq.symm.trans here
      · obtain ⟨node', here', isDir'⟩ := isDir_iff.mp is
        obtain rfl := Option.some.inj (here.symm.trans here')
        exact absurd isDir' file
    dsimp only at done
    split at done
    · -- The directory that is there wins; its parents were there with it.
      rename_i wins
      obtain rfl := (Prod.mk.inj done).2
      simp only [Bool.and_eq_true] at wins
      have was : index.isDir (dir ++ [name]) = true := by
        unfold isDir at wins ⊢
        rw [← own]
        exact wins.1
      have same : (index.ensureParents (dir ++ [name])).nodes = index.nodes := by
        unfold ensureParents
        rw [List.dropLast_concat]
        apply ensureBelow_nodes
        rintro b begun ⟨rest, rfl⟩
        have member := mem_of_isDir was
        rw [List.append_assoc] at member
        exact tree.ancestors member begun (by simp)
      refine ⟨⟨parents.tree.paths, parents.tree.listed, parents.tree.dirs, parents.tree.plain⟩, ?_, stays,
        fun path found here file => .inr ⟨kept path found here file, ?_⟩⟩
      · show (index.ensureParents (dir ++ [name])).nodes.keys.card ≤ _
        rw [same]
        exact budget
      · intro slash' eq
        obtain rfl := (Prod.mk.inj (Option.some.inj (split.symm.trans eq))).1
        obtain ⟨node', here', isDir'⟩ := isDir_iff.mp wins.1
        obtain rfl := Option.some.inj (Eq.trans (Eq.symm here) here')
        exact file isDir'
    · rename_i free
      split at done
      · cases (Prod.mk.inj done).1
      · rename_i within
        obtain rfl := (Prod.mk.inj done).2
        rw [List.dropLast_concat, List.getLastD_concat] at within ⊢
        have demotes : (index.ensureParents (dir ++ [name])).isDir (dir ++ [name]) = true →
            (overridden node trailingSlash).kind = .dir := by
          intro is
          by_contra file
          exact free (by simp [is, file])
        refine ⟨?_, not_lt.mp within, fun path is => ?_, fun path found here file => ?_⟩
        · exact parents.tree.place parents.leads good shallow (overridden_plain plain) demotes rfl rfl
        · by_cases same : path = dir ++ [name]
          · subst same
            exact isDir_iff.mpr ⟨_, Finmap.lookup_insert _, demotes (stays _ is)⟩
          · have is' := stays path is
            unfold isDir at is' ⊢
            rw [show ((((index.ensureParents (dir ++ [name])).setNode (dir ++ [name]) (overridden node trailingSlash)).addChild
              dir name).nodes.lookup path) = _ from Finmap.lookup_insert_of_ne _ same]
            exact is'
        · by_cases same : path = dir ++ [name]
          · subst same
            left
            refine ⟨trailingSlash, split, ?_⟩
            obtain rfl := Option.some.inj ((Finmap.lookup_insert _).symm.trans here)
            exact overridden_eq file
          · right
            refine ⟨kept path found ((Finmap.lookup_insert_of_ne _ same).symm.trans here) file, fun slash' eq => same ?_⟩
            exact (Prod.mk.inj (Option.some.inj (split.symm.trans eq))).1.symm

/-- An index after these entries, all of them accepted. -/
inductive Grown (limits : Limits) (start : ArchiveIndex) : List (Bytes × Node) → ArchiveIndex → Prop where
  | refl : Grown limits start [] start
  | insert {calls : List (Bytes × Node)} {index index' : ArchiveIndex} {raw : Bytes} {node : Node}
      (before : Grown limits start calls index) (done : index.insertEntry raw node limits = (.ok (), index')) :
      Grown limits start (calls ++ [(raw, node)]) index'

/-- The node of the last of these entries at this path, which no later one names. -/
def LastAt (limits : Limits) (calls : List (Bytes × Node)) (path : InnerPath) (node : Node) : Prop :=
  ∃ before raw after, calls = before ++ (raw, node) :: after ∧
    (∃ trailingSlash, splitName raw limits = some (path, trailingSlash)) ∧
    ∀ later ∈ after, ∀ trailingSlash, splitName later.1 limits ≠ some (path, trailingSlash)

structure Grows (limits : Limits) (start : ArchiveIndex) (calls : List (Bytes × Node)) (index : ArchiveIndex) : Prop where
  tree : Tree limits.maxDepth index
  budget : index.nodes.keys.card ≤ limits.maxEntries
  stays : ∀ path, start.isDir path = true → index.isDir path = true
  last : ∀ path node, index.nodes.lookup path = some node → node.kind ≠ .dir →
    LastAt limits calls path node ∨ start.nodes.lookup path = some node ∧
      ∀ call ∈ calls, ∀ trailingSlash, splitName call.1 limits ≠ some (path, trailingSlash)

theorem Grown.grows {start : ArchiveIndex} {calls : List (Bytes × Node)} (grown : Grown limits start calls index)
    (tree : Tree limits.maxDepth start) (budget : start.nodes.keys.card ≤ limits.maxEntries)
    (plain : ∀ call ∈ calls, Plain call.2) : Grows limits start calls index := by
  induction grown with
  | refl => exact ⟨tree, budget, fun _ is => is, fun path node here _ => .inr ⟨here, by simp⟩⟩
  | insert before done ih =>
    rename_i calls index index' raw node
    obtain ⟨tree', budget', stays, last⟩ := ih fun call member => plain call (List.mem_append_left _ member)
    obtain ⟨tree'', budget'', stays', last'⟩ := insertEntry_inserted tree' budget' (plain (raw, node) (by simp)) done
    refine ⟨tree'', budget'', fun path is => stays' path (stays path is), fun path found here file => ?_⟩
    rcases last' path found here file with ⟨trailingSlash, named, rfl⟩ | ⟨was, other⟩
    · exact .inl ⟨calls, raw, [], rfl, ⟨trailingSlash, named⟩, fun _ member => absurd member List.not_mem_nil⟩
    · rcases last path found was file with ⟨front, raw', after, rfl, named, later⟩ | ⟨old, none⟩
      · refine .inl ⟨front, raw', after ++ [(raw, node)], by simp, named, fun call member => ?_⟩
        rcases List.mem_append.mp member with here' | here'
        · exact later call here'
        · obtain rfl := List.mem_singleton.mp here'
          exact other
      · refine .inr ⟨old, fun call member => ?_⟩
        rcases List.mem_append.mp member with here' | here'
        · exact none call here'
        · obtain rfl := List.mem_singleton.mp here'
          exact other

theorem addressable_valid {c : Bytes} (good : addressable c = true) :
    c ≠ [] ∧ c ≠ ['.'.toUInt8] ∧ c ≠ ['.'.toUInt8, '.'.toUInt8] ∧ c ≠ ['!'.toUInt8] ∧ slash ∉ c ∧ 0 ∉ c := by
  simp only [addressable, Bool.and_eq_true, decide_eq_true_eq] at good
  obtain ⟨⟨⟨⟨some_, dot⟩, dots⟩, marker⟩, segment⟩ := good
  cases new : Segment.new c with
  | error e =>
    rw [new] at segment
    cases segment
  | ok s =>
    have bytes : s.bytes = c := Segment.new_ok new
    exact ⟨some_, dot, dots, marker, bytes ▸ s.valid.noSlash, bytes ▸ s.valid.noNul⟩

/-- However its entries come, the index is one tree within its limits: directories above
every node, children and nodes in step, no directory demoted, and the last entry of a path
that is no directory. -/
theorem index_is_tree {generation : Option Int × Option UInt64} {before after : List (Bytes × Node)} {midway : ArchiveIndex}
    (early : Grown limits (.new generation) before midway) (late : Grown limits midway after index)
    (plain : ∀ call ∈ before ++ after, Plain call.2) :
    (∀ path ∈ index.nodes, path ≠ [] ∧ path.length ≤ limits.maxDepth ∧ ∀ c ∈ path, c ≠ [] ∧ c ≠ ['.'.toUInt8] ∧
      c ≠ ['.'.toUInt8, '.'.toUInt8] ∧ c ≠ ['!'.toUInt8] ∧ slash ∉ c ∧ 0 ∉ c) ∧
    (∀ dir name, name ∈ index.children dir ↔ dir ++ [name] ∈ index.nodes) ∧
    (∀ path rest, path ++ rest ∈ index.nodes → path ≠ [] → rest ≠ [] →
      ∃ node, index.nodes.lookup path = some node ∧ node.kind = .dir ∧ node.locator = none) ∧
    (∀ path, midway.isDir path = true → index.isDir path = true) ∧
    index.nodes.keys.card ≤ limits.maxEntries ∧
    (∀ path node, index.nodes.lookup path = some node → node.kind ≠ .dir → LastAt limits (before ++ after) path node) := by
  have empty : (new generation).nodes.keys.card ≤ limits.maxEntries := by simp [new]
  have first := early.grows (tree_new generation) empty fun call member => plain call (List.mem_append_left _ member)
  have second := late.grows first.tree first.budget fun call member => plain call (List.mem_append_right _ member)
  refine ⟨fun path member => ?_, second.tree.listed, fun path rest member some_ proper => ?_, second.stays, second.budget,
    fun path node here file => ?_⟩
  · obtain ⟨some_, shallow, good⟩ := second.tree.paths path member
    exact ⟨some_, shallow, fun c inside => addressable_valid (good c inside)⟩
  · obtain ⟨node, found, kind⟩ := isDir_iff.mp (second.tree.ancestors member some_ proper)
    exact ⟨node, found, kind, second.tree.plain path node found kind⟩
  · rcases second.last path node here file with ⟨front, raw, rest, rfl, named, later⟩ | ⟨was, none⟩
    · exact ⟨before ++ front, raw, rest, by simp, named, later⟩
    · rcases first.last path node was file with ⟨front, raw, rest, rfl, named, later⟩ | ⟨old, _⟩
      · refine ⟨front, raw, rest ++ after, by simp, named, fun call member => ?_⟩
        rcases List.mem_append.mp member with here' | here'
        · exact later call here'
        · exact none call here'
      · rw [new, Finmap.lookup_empty] at old
        cases old

/-! A file at `a/b`, then one at `a`, where a directory stands by then. -/

def sampleLimits : Limits := ⟨10, 10, 10⟩

def sampleFile : Node := ⟨.file, some 1, none, some (.tar 0 1), none, none⟩

def sampleOnce : ArchiveIndex := (insertEntry (new (none, none)) [0x61, 0x2f, 0x62] sampleFile sampleLimits).2

def sampleTwice : ArchiveIndex := (insertEntry sampleOnce [0x61] sampleFile sampleLimits).2

theorem index_is_tree_sample :
    (∀ path ∈ sampleTwice.nodes, path ≠ [] ∧ path.length ≤ sampleLimits.maxDepth ∧ ∀ c ∈ path, c ≠ [] ∧
      c ≠ ['.'.toUInt8] ∧ c ≠ ['.'.toUInt8, '.'.toUInt8] ∧ c ≠ ['!'.toUInt8] ∧ slash ∉ c ∧ 0 ∉ c) ∧
    (∀ dir name, name ∈ sampleTwice.children dir ↔ dir ++ [name] ∈ sampleTwice.nodes) ∧
    (∀ path rest, path ++ rest ∈ sampleTwice.nodes → path ≠ [] → rest ≠ [] →
      ∃ node, sampleTwice.nodes.lookup path = some node ∧ node.kind = .dir ∧ node.locator = none) ∧
    (∀ path, sampleOnce.isDir path = true → sampleTwice.isDir path = true) ∧
    sampleTwice.nodes.keys.card ≤ sampleLimits.maxEntries ∧
    (∀ path node, sampleTwice.nodes.lookup path = some node → node.kind ≠ .dir →
      LastAt sampleLimits [([0x61, 0x2f, 0x62], sampleFile), ([0x61], sampleFile)] path node) := by
  have first : Grown sampleLimits (.new (none, none)) ([] ++ [([0x61, 0x2f, 0x62], sampleFile)]) sampleOnce :=
    .insert .refl (Prod.ext (by rfl) rfl)
  have second : Grown sampleLimits sampleOnce ([] ++ [([0x61], sampleFile)]) sampleTwice :=
    .insert .refl (Prod.ext (by rfl) rfl)
  exact index_is_tree first second (by simp [Plain, sampleFile])

end ArchiveIndex

end Norte.Archive
