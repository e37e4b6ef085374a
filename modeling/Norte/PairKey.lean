import Norte.MergeJoin
import Norte.RenamePlan
import Norte.SyncTypes

/-! The key the names of two directories are paired by, and one side indexed by it. The key
of a name under a fold, and whether a name has a canonical singleton, come from elsewhere. -/
namespace Norte.Compare

open Sync MergeJoin
open Rename (FoldMode)

structure Names where
  nameKey : Bytes → FoldMode → Bytes
  hasCanonicalSingleton : Bytes → Bool

/-- The two flags of a provider's capabilities that say how it folds names. -/
structure Capabilities where
  caseSensitive : Bool
  fullFold : Bool
  deriving DecidableEq, Repr

def foldModeOf (c : Capabilities) : FoldMode :=
  if c.fullFold then .full else if c.caseSensitive then .none else .simple

structure Sides where
  left : FoldMode
  right : FoldMode
  deriving DecidableEq, Repr

namespace Sides

def fromCapabilities (left right : Capabilities) : Sides := ⟨foldModeOf left, foldModeOf right⟩

def bothCaseSensitive : Sides := ⟨.none, .none⟩

/-- The stronger of the two. -/
def fold (sides : Sides) : FoldMode :=
  match sides.left, sides.right with
  | .full, _ | _, .full => .full
  | .simple, _ | _, .simple => .simple
  | .none, .none => .none

def swap (sides : Sides) : Sides := ⟨sides.right, sides.left⟩

@[simp] theorem swap_fold (sides : Sides) : sides.swap.fold = sides.fold := by
  obtain ⟨left, right⟩ := sides
  cases left <;> cases right <;> rfl

end Sides

/-- The last segment's bytes; a root has none. -/
def pairName (entry : Entry) : Bytes := entry.path.fileName.elim [] Segment.bytes

namespace Names

variable (names : Names)

def keyFor (name : Bytes) (sides : Sides) : Bytes := names.nameKey name sides.fold

/-- How two names that share a key come to share it. -/
def pairTransform (left right : Bytes) : Option PairTransform :=
  if left = right then none
  else
    let normalizes := names.keyFor left .bothCaseSensitive = names.keyFor right .bothCaseSensitive
    let foldsSimple := names.keyFor left ⟨.simple, .none⟩ = names.keyFor right ⟨.simple, .none⟩
    let foldsFull := foldsSimple ∨ names.keyFor left ⟨.full, .none⟩ = names.keyFor right ⟨.full, .none⟩
    if ¬normalizes ∧ ¬foldsFull then none
    else if names.hasCanonicalSingleton left || names.hasCanonicalSingleton right then
      some .normalizationSingleton
    else if normalizes then some .normalization
    else if foldsSimple then some .caseFold
    else some .fullFold

theorem pairTransform_comm (left right : Bytes) : names.pairTransform left right = names.pairTransform right left := by
  unfold pairTransform
  simp only [eq_comm (a := left), eq_comm (a := names.keyFor left _), Bool.or_comm (names.hasCanonicalSingleton left)]

end Names

/-- One side of a directory, by the key of its names. -/
structure SideIndex where
  names : Names
  sides : Sides
  entries : List Entry

def indexSide (names : Names) (entries : List Entry) (sides : Sides) : SideIndex := ⟨names, sides, entries⟩

namespace SideIndex

variable (index : SideIndex)

def keyOf (entry : Entry) : Bytes := index.names.keyFor (pairName entry) index.sides

/-- The entries of one key, in the order of the listing. -/
def group (key : Bytes) : List Entry := index.entries.filter fun e => index.keyOf e = key

def keys : List Bytes := (index.entries.map index.keyOf).dedup.insertionSort fun a b => (compare a b).isLE

def unique : List (Bytes × Entry) :=
  index.keys.filterMap fun key => match index.group key with
    | [entry] => some (key, entry)
    | _ => none

/-- Why an entry collides: with one that has its key unfolded too, or by the fold. -/
def reason (entry : Entry) : Option CompareReason :=
  let peers := index.group (index.keyOf entry)
  if peers.length < 2 then none
  else
    let raw (e : Entry) := index.names.keyFor (pairName e) .bothCaseSensitive
    if 2 ≤ (peers.filter fun e => raw e = raw entry).length then some .normalization else some .caseFold

def collisions : List (Entry × CompareReason) :=
  index.entries.filterMap fun entry => (index.reason entry).map (entry, ·)

/-- The reason of the first of those that collide under `key`. -/
def collided (key : Bytes) : Option CompareReason :=
  (index.collisions.find? fun c => index.keyOf c.1 = key).map Prod.snd

/-- No other entry of the listing has its key. -/
def Alone (entry : Entry) : Prop := index.group (index.keyOf entry) = [entry]

variable {index} {entry : Entry} {key : Bytes}

theorem mem_group : entry ∈ index.group key ↔ entry ∈ index.entries ∧ index.keyOf entry = key := by
  simp [group]

theorem Alone.mem (alone : index.Alone entry) : entry ∈ index.entries := by
  have inside : entry ∈ index.group (index.keyOf entry) := by
    rw [alone]
    exact List.mem_cons_self
  exact (mem_group.mp inside).1

theorem Alone.only (alone : index.Alone entry) (other : e ∈ index.entries) (same : index.keyOf e = index.keyOf entry) :
    e = entry := by
  have inside : e ∈ index.group (index.keyOf entry) := mem_group.mpr ⟨other, same⟩
  rw [alone] at inside
  exact List.mem_singleton.mp inside

theorem mem_keys : key ∈ index.keys ↔ ∃ e ∈ index.entries, index.keyOf e = key := by
  rw [keys, List.mem_insertionSort, List.mem_dedup, List.mem_map]

theorem mem_unique : (key, entry) ∈ index.unique ↔ index.keyOf entry = key ∧ index.Alone entry := by
  rw [unique, List.mem_filterMap]
  constructor
  · rintro ⟨k, _, found⟩
    split at found
    · rename_i e single
      obtain ⟨rfl, rfl⟩ := Prod.mk.inj (Option.some.inj found)
      have inside : e ∈ index.group k := by
        rw [single]
        exact List.mem_cons_self
      obtain rfl := (mem_group.mp inside).2
      exact ⟨rfl, single⟩
    · exact nomatch found
  · rintro ⟨rfl, alone⟩
    refine ⟨index.keyOf entry, mem_keys.mpr ⟨entry, alone.mem, rfl⟩, ?_⟩
    rw [show index.group (index.keyOf entry) = [entry] from alone]

theorem keys_rising (index : SideIndex) : index.keys.Pairwise fun a b => compare a b = .lt := by
  have total : Std.Total fun a b : Bytes => (compare a b).isLE = true := by
    refine ⟨fun a b => ?_⟩
    have back : compare b a = (compare a b).swap := Std.OrientedCmp.eq_swap
    rw [back]
    cases compare a b <;> simp
  have trans : IsTrans Bytes fun a b => (compare a b).isLE = true :=
    ⟨fun a b c first second => Std.TransCmp.isLE_trans first second⟩
  have sorted := List.pairwise_insertionSort (fun a b : Bytes => (compare a b).isLE = true)
    (index.entries.map index.keyOf).dedup
  have nodup : index.keys.Nodup :=
    (List.perm_insertionSort _ _).nodup_iff.mpr (List.nodup_dedup _)
  refine (sorted.and nodup).imp fun {a b} both => ?_
  obtain ⟨le, apart⟩ := both
  cases order : compare a b with
  | lt => rfl
  | eq => exact absurd (Std.LawfulEqCmp.eq_of_compare order) apart
  | gt => exact absurd (le.symm.trans (congrArg Ordering.isLE order)) nofun

theorem unique_rising (index : SideIndex) : Rising index.unique := by
  rw [Rising, unique, List.pairwise_filterMap]
  refine index.keys_rising.imp fun {a b} small x hx y hy => ?_
  have first (k : Bytes) (z : Bytes × Entry)
      (found : (match index.group k with | [entry] => some (k, entry) | _ => none) = some z) : z.1 = k := by
    split at found
    · exact (congrArg Prod.fst (Option.some.inj found)).symm
    · exact nomatch found
  rw [first a x hx, first b y hy]
  exact small

theorem reason_eq_none (inside : entry ∈ index.entries) : index.reason entry = none ↔ index.Alone entry := by
  have member : entry ∈ index.group (index.keyOf entry) := mem_group.mpr ⟨inside, rfl⟩
  rw [Alone, reason]
  constructor
  · intro clean
    split at clean
    · rename_i few
      obtain ⟨e, single⟩ := List.length_eq_one_iff.mp
        (le_antisymm (Nat.le_of_lt_succ few) (List.length_pos_of_mem member))
      rw [single] at member ⊢
      rw [List.mem_singleton.mp member]
    · dsimp only at clean
      split at clean <;> exact nomatch clean
  · intro alone
    simp [alone]

theorem mem_collisions : (entry, r) ∈ index.collisions ↔ entry ∈ index.entries ∧ index.reason entry = some r := by
  rw [collisions, List.mem_filterMap]
  constructor
  · rintro ⟨e, inside, found⟩
    obtain ⟨why, eq, pair⟩ := Option.map_eq_some_iff.mp found
    obtain ⟨rfl, rfl⟩ := Prod.mk.inj pair
    exact ⟨inside, eq⟩
  · rintro ⟨inside, eq⟩
    exact ⟨entry, inside, by rw [eq]; rfl⟩

/-- Who collides are those not alone, in the order of the listing. -/
theorem collisions_fst (index : SideIndex) :
    index.collisions.map Prod.fst = index.entries.filter fun e => (index.reason e).isSome := by
  rw [collisions, List.map_filterMap, ← List.filterMap_eq_filter]
  refine List.filterMap_congr fun e _ => ?_
  cases why : index.reason e <;> simp [Option.guard, why]

/-- Each entry is either alone under its key or collides. -/
theorem partition (index : SideIndex) :
    (index.collisions.map Prod.fst ++ index.unique.map Prod.snd).Perm index.entries := by
  have alone : (index.unique.map Prod.snd).Perm (index.entries.filter fun e => !(index.reason e).isSome) := by
    have once : (index.entries.filter fun e => !(index.reason e).isSome).Nodup := by
      rw [List.nodup_iff_count_le_one]
      intro e
      by_cases inside : e ∈ index.entries.filter fun e => !(index.reason e).isSome
      · obtain ⟨listed, clean⟩ := List.mem_filter.mp inside
        have single : index.Alone e := (reason_eq_none listed).mp (by simpa using clean)
        have few : List.count e (index.group (index.keyOf e)) = 1 := by
          rw [show index.group (index.keyOf e) = [e] from single, List.count_singleton_self]
        rw [group, List.count_filter (by simp)] at few
        exact (List.count_filter (p := fun e => !(index.reason e).isSome) clean).trans_le few.le
      · rw [List.count_eq_zero_of_not_mem inside]
        exact Nat.zero_le 1
    have apart : (index.unique.map Prod.snd).Nodup := by
      refine List.pairwise_map.mpr (index.unique_rising.imp_of_mem fun {a b} inA inB small same => ?_)
      have keyA := (mem_unique.mp (show (a.1, a.2) ∈ index.unique from inA)).1
      have keyB := (mem_unique.mp (show (b.1, b.2) ∈ index.unique from inB)).1
      rw [← keyA, ← keyB, same] at small
      exact absurd (Std.ReflCmp.compare_self.symm.trans small) nofun
    refine (List.perm_ext_iff_of_nodup apart once).mpr fun e => ?_
    rw [List.mem_map, List.mem_filter]
    constructor
    · rintro ⟨⟨key, e⟩, inside, rfl⟩
      have single := (mem_unique.mp inside).2
      exact ⟨single.mem, by simp [(reason_eq_none single.mem).mpr single]⟩
    · rintro ⟨listed, clean⟩
      exact ⟨(index.keyOf e, e), mem_unique.mpr ⟨rfl, (reason_eq_none listed).mp (by simpa using clean)⟩, rfl⟩
  rw [collisions_fst]
  exact (alone.append_left _).trans (List.filter_append_perm _ _)

theorem collided_isSome : (index.collided key).isSome ↔ ∃ e ∈ index.entries, index.keyOf e = key ∧ ¬index.Alone e := by
  rw [collided, Option.isSome_map, List.find?_isSome]
  constructor
  · rintro ⟨⟨e, r⟩, found, same⟩
    obtain ⟨inside, why⟩ := mem_collisions.mp found
    refine ⟨e, inside, by simpa using same, fun alone => ?_⟩
    rw [(reason_eq_none inside).mpr alone] at why
    exact nomatch why
  · rintro ⟨e, inside, same, crowded⟩
    obtain ⟨r, why⟩ := Option.ne_none_iff_exists'.mp (mt (reason_eq_none inside).mp crowded)
    exact ⟨(e, r), mem_collisions.mpr ⟨inside, why⟩, by simpa using same⟩

end SideIndex

end Norte.Compare
