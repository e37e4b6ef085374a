import Mathlib.Data.List.Pairwise
import Norte.CompareCover
import Norte.SyncTree

/-! The key of a name under its directory tells one entry, so that the keys down a path tell
the path. A path of the other side with the same keys is a twin of one path only, whatever
its spelling and whether or not something stands there. -/
namespace Norte.Compare.Comparison

open Sync MergeJoin StackWalk

variable {c : Comparison} {s : DescendSide} {f g : Frame}

theorem Apart.symm {f h : Frame} (apart : Apart f h) : Apart h f := by
  intro s d d' dir dir'
  have := apart s d' d dir' dir
  exact ⟨this.2, this.1⟩

/-- A directory is walked once. -/
theorem frame_unique {d d' : Entry} (down : Reaches c.kids c.rootFrame f)
    (down' : Reaches c.kids c.rootFrame g) (dir : f.dir s = some d) (dir' : g.dir s = some d')
    (same : d.path = d'.path) : f = g := by
  have rootAbove {f g : Frame} {d d' : Entry} (down : Reaches c.kids c.rootFrame f) (kid : g ∈ c.kids f)
      (dir : c.rootFrame.dir s = some d) (dir' : g.dir s = some d') : d.path ≠ d'.path := by
    intro same
    obtain ⟨p, there, child, -⟩ := kids_region kid dir'
    obtain ⟨top, first, above⟩ := reaches_region down there
    obtain rfl := Option.some.inj (dir.symm.trans first)
    have := above.length_le
    have := child.length
    rw [← same] at this
    omega
  induction down generalizing g d d' with
  | refl =>
    rcases down'.cases_tail with rfl | ⟨f', down', kid⟩
    · rfl
    · exact absurd same (rootAbove down' kid dir dir')
  | tail down kid ih =>
    rcases down'.cases_tail with rfl | ⟨f', down', kid'⟩
    · exact absurd same.symm (rootAbove down kid dir' dir)
    · obtain ⟨p, there, child, -⟩ := kids_region kid dir
      obtain ⟨p', there', child', -⟩ := kids_region kid' dir'
      rw [← same] at child'
      obtain rfl := ih down' there there' (child.parent child')
      by_contra other
      have : Std.Symm Apart := ⟨fun _ _ => Apart.symm⟩
      have away := (c.kids_apart _).forall kid kid' other s d d' dir dir'
      rw [same] at away
      exact away.1 (.refl _)

/-- `other` goes down the keys of `rel`, which names an entry that is alone under its key. -/
inductive Twin (c : Comparison) (s : DescendSide) : List Segment → List Segment → Prop
  | root : Twin c s [] []
  | child {f : Frame} {lefts rights : List Entry} {d e : Entry} {rel other : List Segment}
    {segment name : Segment} (up : Twin c s rel other) (down : Reaches c.kids c.rootFrame f)
    (left : c.seen .left f = .ok lefts) (right : c.seen .right f = .ok rights)
    (dir : f.dir s = some d) (at_ : d.path = under (c.root s) ⟨rel⟩)
    (alone : ((c.index f lefts rights).side s).Alone e) (path : e.path = d.path.join segment)
    (key : c.names.keyFor name.bytes (c.sidesFor f) = c.names.keyFor segment.bytes (c.sidesFor f)) :
    Twin c s (rel ++ [segment]) (other ++ [name])

theorem pairName_join {e : Entry} {path : VPath} {segment : Segment} (at_ : e.path = path.join segment) :
    pairName e = segment.bytes := by
  simp [pairName, at_, VPath.join, VPath.fileName]

namespace Twin

variable {rel rel' other other' : List Segment}

theorem length (twin : Twin c s rel other) : rel.length = other.length := by
  induction twin with
  | root => rfl
  | child _ _ _ _ _ _ _ _ _ ih => simp [ih]

/-- The keys tell the path. -/
theorem injective (first : Twin c s rel other) (second : Twin c s rel' other) : rel = rel' := by
  induction first generalizing rel' with
  | root => exact (List.length_eq_zero_iff.mp second.length).symm
  | @child f lefts rights d e rel other segment name up down left right dir at_ alone path key ih =>
    generalize names : other ++ [name] = both at second
    cases second with
    | root => simp at names
    | @child f' lefts' rights' d' e' rel' other' segment' name' up' down' left' right' dir' at_' alone' path' key' =>
      obtain ⟨rfl, last⟩ := List.append_inj' names rfl
      obtain rfl := List.singleton_injective last
      obtain rfl := ih up'
      obtain rfl := frame_unique down down' dir dir' (at_.trans at_'.symm)
      obtain rfl := Except.ok.inj (left.symm.trans left')
      obtain rfl := Except.ok.inj (right.symm.trans right')
      obtain rfl := Option.some.inj (dir.symm.trans dir')
      have keys : ((c.index f lefts rights).side s).keyOf e' = ((c.index f lefts rights).side s).keyOf e := by
        rw [index_keyOf, index_keyOf, pairName_join path, pairName_join path', ← key, ← key']
      obtain rfl := alone.only alone'.mem keys
      rw [path] at path'
      rw [(join_injective path').2]

theorem take (twin : Twin c s rel other) (n : Nat) : Twin c s (rel.take n) (other.take n) := by
  induction twin with
  | root => simpa using Twin.root
  | @child f lefts rights d e rel other segment name up down left right dir at_ alone path key ih =>
    have long := up.length
    by_cases inside : n ≤ rel.length
    · rw [List.take_append_of_le_length inside, List.take_append_of_le_length (by omega)]
      exact ih
    · rw [List.take_of_length_le (by simp; omega), List.take_of_length_le (by simp; omega)]
      exact .child up down left right dir at_ alone path key

/-- The last name of a twin can follow any twin of its directory. -/
theorem last {segment name : Segment} (twin : Twin c s (rel ++ [segment]) (other ++ [name])) :
    Twin c s rel other ∧
      ∀ spelt, Twin c s rel spelt → Twin c s (rel ++ [segment]) (spelt ++ [name]) := by
  generalize whole : rel ++ [segment] = path at twin
  generalize names : other ++ [name] = path' at twin
  cases twin with
  | root => simp at whole
  | child up down left right dir at_ alone path key =>
    obtain ⟨rfl, same⟩ := List.append_inj' whole rfl
    obtain ⟨rfl, same'⟩ := List.append_inj' names rfl
    obtain rfl := List.singleton_injective same
    obtain rfl := List.singleton_injective same'
    exact ⟨up, fun spelt other => .child other down left right dir at_ alone path key⟩

/-- Another twin of an ancestor, with the same names below it. -/
theorem graft {above spelt : List Segment} (rest : List Segment)
    (twin : Twin c s (above ++ rest) (above ++ rest)) (ancestor : Twin c s above spelt) :
    Twin c s (above ++ rest) (spelt ++ rest) := by
  induction rest using List.reverseRecOn with
  | nil => simpa using ancestor
  | append_singleton rest segment ih =>
    rw [← List.append_assoc] at twin ⊢
    rw [← List.append_assoc]
    exact twin.last.2 _ (ih twin.last.1)

end Twin

/-- A path of the one side, and one of the other as its twin if there is one. -/
def Twins (c : Comparison) (s : DescendSide) (path : VPath) (other : Option VPath) : Prop :=
  ∃ rel, path = under (c.root s) ⟨rel⟩ ∧ Twin c s rel rel ∧ ∀ path', other = some path' →
    ∃ rel', path' = under (c.root s.other) ⟨rel'⟩ ∧ Twin c s rel rel'

section Listing

variable {lefts rights : List Entry} {j : Joined (Bytes × Entry) (Bytes × Entry)} {x : Bytes × Entry}

theorem joined_key {y : Bytes × Entry} (member : j ∈ (c.index f lefts rights).joined)
    (on : joinedOn s j = some x) (on' : joinedOn s.other j = some y) : y.1 = x.1 := by
  cases j with
  | left z =>
    cases s with
    | left => cases on'
    | right => cases on
  | right z =>
    cases s with
    | left => cases on
    | right => cases on'
  | both z w =>
    have same := met_key member
    cases s with
    | left =>
      cases on
      cases on'
      exact same.symm
    | right =>
      cases on
      cases on'
      exact same

/-- What meets in a directory is a twin where its directories are. -/
theorem joined_twins {d : Entry} (down : Reaches c.kids c.rootFrame f)
    (left : c.seen .left f = .ok lefts) (right : c.seen .right f = .ok rights)
    (member : j ∈ (c.index f lefts rights).joined) (on : joinedOn s j = some x)
    (dir : f.dir s = some d) (above : c.Twins s d.path ((f.dir s.other).map (·.path))) :
    c.Twins s x.2.path ((joinedOn s.other j).map (·.2.path)) := by
  obtain ⟨rel, at_, twin, others⟩ := above
  obtain ⟨keyX, alone⟩ := Listed.mem_joined member on
  obtain ⟨d₀, dir₀, segment, path⟩ := seen_child (index_side left right s) alone.mem
  obtain rfl := Option.some.inj (dir.symm.trans dir₀)
  refine ⟨rel ++ [segment], ?_, .child twin down left right dir at_ alone path rfl, fun path' there => ?_⟩
  · rw [path, at_, under_join]
  · obtain ⟨y, on', rfl⟩ := Option.map_eq_some_iff.mp there
    obtain ⟨keyY, alone'⟩ := Listed.mem_joined member on'
    obtain ⟨d', dir', name, path'⟩ := seen_child (index_side left right s.other) alone'.mem
    obtain ⟨rel', at_', twin'⟩ := others d'.path (by rw [dir']; rfl)
    refine ⟨rel' ++ [name], by rw [path', at_', under_join], ?_⟩
    refine .child twin' down left right dir at_ alone path ?_
    rw [index_keyOf, pairName_join path'] at keyY
    rw [index_keyOf, pairName_join path] at keyX
    rw [keyX, keyY, joined_key member on on']

end Listing

/-- The directories of a frame are twins. -/
theorem frame_twins {d : Entry} (down : Reaches c.kids c.rootFrame f) (dir : f.dir s = some d) :
    c.Twins s d.path ((f.dir s.other).map (·.path)) := by
  induction down generalizing d with
  | refl =>
    refine ⟨[], ?_, .root, fun path' there => ⟨[], ?_, .root⟩⟩
    · cases s <;>
        · obtain rfl := Option.some.inj dir
          rfl
    · cases s <;>
        · obtain rfl := Option.some.inj there
          rfl
  | @tail f g down kid ih =>
    obtain ⟨lefts, rights, left, right, j, member, into⟩ := kids_seen kid
    obtain ⟨key, on, -⟩ := joinedFrame_dir into dir
    obtain ⟨d₀, dir₀, -⟩ := seen_child (index_side left right s) (Listed.mem_joined member on).2.mem
    obtain ⟨rel, at_, twin, others⟩ := joined_twins down left right member on dir₀ (ih dir₀)
    refine ⟨rel, at_, twin, fun path' there => ?_⟩
    obtain ⟨d', dir', rfl⟩ := Option.map_eq_some_iff.mp there
    obtain ⟨key', on', -⟩ := joinedFrame_dir into dir'
    exact others d'.path (by rw [on']; rfl)

/-- What a row of the merge names on both sides are twins. -/
theorem row_twins {row : PendingRow} {e : Entry} (down : Reaches c.kids c.rootFrame f)
    (member : row ∈ c.emits f) (there : row.entry s = some e)
    (merged : row.listingError = false ∧ row.verdict ≠ .ambiguous ∨ (row.entry s.other).isSome = true) :
    c.Twins s e.path ((row.entry s.other).map (·.path)) := by
  rcases c.visit_cases f with ⟨lefts, rights, left, right⟩ | ⟨rows, -, -⟩
  · rw [emits_listed left right] at member
    rcases List.mem_append.mp member with collided | joined
    · exfalso
      rcases List.mem_append.mp collided with inside | inside <;>
        · obtain ⟨x, -, rfl⟩ := List.mem_map.mp inside
          rcases merged with ⟨-, sure⟩ | both
          · exact sure rfl
          · cases s
            · simp_all [PendingRow.entry, DescendSide.other]
            · simp_all [PendingRow.entry, DescendSide.other]
    · obtain ⟨j, merges, rfl⟩ := List.mem_map.mp joined
      have own := c.joinedRow_entry (c.index f lefts rights) j s
      have across := c.joinedRow_path (c.index f lefts rights) j s.other
      cases on : joinedOn s j with
      | none =>
        rw [on] at own
        rw [own] at there
        cases there
      | some x =>
        rw [on] at own
        obtain ⟨e', found, same⟩ := own
        obtain rfl := Option.some.inj (there.symm.trans found)
        obtain ⟨d, dir, -⟩ := seen_child (index_side left right s) (Listed.mem_joined merges on).2.mem
        have twins := joined_twins down left right merges on dir (frame_twins down dir)
        rw [rowPath] at across
        rwa [same.1, across]
  · rw [rows] at member
    obtain ⟨failed, s', own, none_⟩ := listingErrors_spec member
    exfalso
    rcases merged with ⟨clean, -⟩ | both
    · rw [failed] at clean
      cases clean
    · cases s <;> cases s' <;> simp_all [DescendSide.other]

/-- The same of the rows of a stream. -/
theorem stream_twins {out : List PendingRow} (walks : Walks c.emits c.kids [c.rootFrame] out)
    {row : CompareRow} {e : Entry} (member : row ∈ numbered c.names 0 out)
    (there : rowEntry row s = some e)
    (merged : isListingError row = false ∧ row.verdict ≠ .ambiguous ∨
      (rowEntry row s.other).isSome = true) :
    c.Twins s e.path ((rowEntry row s.other).map (·.path)) := by
  obtain ⟨pending, inside, k, rfl⟩ := mem_of_mem_numbered member
  obtain ⟨f, single, g, down, emitted⟩ := walks.mem_iff.mp inside
  obtain rfl := List.mem_singleton.mp single
  rw [intoRow_entry] at there ⊢
  rw [intoRow_listingError, intoRow_verdict, intoRow_entry] at merged
  exact row_twins down emitted there merged

end Norte.Compare.Comparison
