import Norte.SavedTrimmed

/-! The order the profiles are given up in stays the same while they go, and a body with less
in it has a shorter text. -/
namespace Norte.Saved

variable {P S R D : Type}

namespace SessionBody

variable {b r : SessionBody P S R D} {names others : List Str} {p : Str}

theorem mem_profiles : p ∈ b.profiles ↔ ∃ key tree, b.layouts.get? key = some tree ∧ profileOf key = p := by
  simp only [profiles, List.mem_dedup, List.mem_map, SortedMap.mem_keys]
  constructor
  · rintro ⟨key, ⟨tree, found⟩, its⟩
    exact ⟨key, tree, found, its⟩
  · rintro ⟨key, tree, found, its⟩
    exact ⟨key, ⟨tree, found⟩, its⟩

theorem Trimmed.mem_profiles (trimmed : Trimmed b names r) : p ∈ r.profiles ↔ p ∈ b.profiles ∧ p ∉ names := by
  simp only [SessionBody.mem_profiles, trimmed.get?_layouts]
  constructor
  · rintro ⟨key, tree, ⟨found, left⟩, rfl⟩
    exact ⟨⟨key, tree, found, rfl⟩, left⟩
  · rintro ⟨⟨key, tree, found, rfl⟩, left⟩
    exact ⟨key, tree, ⟨found, left⟩, rfl⟩

theorem Trimmed.lastTouch (trimmed : Trimmed b names r) {key : Str} {tree : Layout.Node P}
    (found : r.layouts.get? key = some tree) : r.lastTouch tree = b.lastTouch tree := by
  have touched {id : Layout.SlotId} (inside : id ∈ tree.slotIds) :
      (r.slots.get? id).map SlotState.touchedMs = (b.slots.get? id).map SlotState.touchedMs := by
    cases there : b.slots.get? id with
    | some s =>
      obtain ⟨s', here, i, j, rfl⟩ := trimmed.kept id (SessionBody.mem_visible.mpr ⟨key, tree, found, inside⟩) s there
      rw [here]
      rfl
    | none =>
      cases here : r.slots.get? id with
      | none => rfl
      | some s' =>
        obtain ⟨s, found, -⟩ := trimmed.origin id s' here
        simp [there] at found
  rw [SessionBody.lastTouch, SessionBody.lastTouch, List.map_filterMap, List.map_filterMap]
  rw [List.filterMap_congr fun id inside => touched inside]

theorem Trimmed.touch (trimmed : Trimmed b names r) (left : p ∉ names) : r.touch p = b.touch p := by
  have same : (r.layouts.filter fun key _ => profileOf key = p) = b.layouts.filter fun key _ => profileOf key = p := by
    rw [trimmed.layouts, SortedMap.filter_filter]
    refine SortedMap.filter_congr fun key _ _ => ?_
    by_cases its : profileOf key = p
    · simp [its, left]
    · simp [its]
  rw [SessionBody.touch, SessionBody.touch, ← same]
  congr 1
  refine List.map_congr_left fun tree member => ?_
  obtain ⟨key, found⟩ := SortedMap.mem_values.mp member
  rw [SortedMap.get?_filter, Option.filter_eq_some_iff] at found
  exact trimmed.lastTouch found.1

instance : Std.Total b.Earlier := ⟨fun p q => by
  have := le_total p q
  grind [Earlier]⟩

instance : IsTrans Str b.Earlier := ⟨fun p q o first second => by
  rcases first with first | ⟨first, le⟩
  · rcases second with second | ⟨second, -⟩
    · exact .inl (first.trans second)
    · exact .inl (second ▸ first)
  · rcases second with second | ⟨second, le'⟩
    · exact .inl (first ▸ second)
    · exact .inr ⟨first.trans second, le.trans le'⟩⟩

theorem Earlier.antisymm {q : Str} (first : b.Earlier p q) (second : b.Earlier q p) : p = q := by
  rcases first with first | ⟨same, le⟩
  · rcases second with second | ⟨same, -⟩
    · exact absurd first (lt_asymm second)
    · exact absurd same.symm (ne_of_lt first)
  · rcases second with second | ⟨-, le'⟩
    · exact absurd same.symm (ne_of_lt second)
    · exact le_antisymm le le'

theorem mem_profilesByLastTouch : p ∈ b.profilesByLastTouch ↔ p ∈ b.profiles ∧ p ≠ b.active := by
  simp [profilesByLastTouch]

theorem nodup_profilesByLastTouch : b.profilesByLastTouch.Nodup := by
  rw [profilesByLastTouch, (List.perm_insertionSort _ _).nodup_iff]
  exact (List.nodup_dedup _).filter _

/-- All the profiles are in the order, but for the active one. -/
theorem profilesWithState_eq (b : SessionBody P S R D) :
    b.profilesWithState = b.profilesByLastTouch.length + if b.active ∈ b.profiles then 1 else 0 := by
  have once : b.profiles.Nodup := List.nodup_dedup _
  have erased : (b.profiles.filter (· ≠ b.active)) = b.profiles.erase b.active := by
    rw [once.erase_eq_filter]
    exact List.filter_congr fun p _ => by simp [bne, beq_eq_decide]
  rw [profilesWithState, profilesByLastTouch, List.length_insertionSort, erased, List.length_erase]
  split
  · have := List.length_pos_of_mem ‹_›
    omega
  · rfl

/-- The ones touched least recently are gone: the order of the others is what it was. -/
theorem Trimmed.profilesByLastTouch {n : Nat} (trimmed : Trimmed b (b.profilesByLastTouch.take n) r) :
    r.profilesByLastTouch = b.profilesByLastTouch.drop n := by
  have once := nodup_profilesByLastTouch (b := b)
  have apart := (List.nodup_append.mp ((List.take_append_drop n b.profilesByLastTouch).symm ▸ once)).2.2
  have members (p : Str) : p ∈ r.profilesByLastTouch ↔ p ∈ b.profilesByLastTouch.drop n := by
    rw [mem_profilesByLastTouch, trimmed.mem_profiles, trimmed.active, and_right_comm, ← mem_profilesByLastTouch]
    constructor
    · rintro ⟨member, later⟩
      rw [← List.take_append_drop n b.profilesByLastTouch, List.mem_append] at member
      exact member.resolve_left later
    · intro member
      exact ⟨List.mem_of_mem_drop member, fun first => apart p first p member rfl⟩
  have perm := (List.perm_ext_iff_of_nodup nodup_profilesByLastTouch (once.sublist (List.drop_sublist _ _))).mpr members
  have sorted : (b.profilesByLastTouch.drop n).Pairwise b.Earlier :=
    (List.pairwise_insertionSort ..).sublist (List.drop_sublist _ _)
  refine perm.eq_of_pairwise (fun _ _ _ _ => Earlier.antisymm) (List.pairwise_insertionSort ..) ?_
  refine sorted.imp_of_mem fun {p q} first second earlier => ?_
  have touch {p : Str} (member : p ∈ b.profilesByLastTouch.drop n) : r.touch p = b.touch p :=
    trimmed.touch fun gone => apart p gone p member rfl
  rwa [Earlier, touch first, touch second]

theorem Trimmed.profilesWithState_le {n : Nat} (trimmed : Trimmed b (b.profilesByLastTouch.take n) r)
    (enough : b.profilesWithState - PROFILE_STATE_CAP ≤ n) : r.profilesWithState ≤ PROFILE_STATE_CAP := by
  have counted := b.profilesWithState_eq
  have left := r.profilesWithState_eq
  rw [trimmed.profilesByLastTouch, List.length_drop, trimmed.active] at left
  have stays : b.active ∈ r.profiles → b.active ∈ b.profiles := fun member => (trimmed.mem_profiles.mp member).1
  simp only [PROFILE_STATE_CAP] at enough ⊢
  split at left
  · rw [if_pos (stays ‹_›)] at counted
    omega
  · split at counted <;> omega

end SessionBody

/-! ### The length of the text -/

namespace Format

open JsonText

variable (f : Format P S R D)

theorem field_le {name : String} {value value' : Bytes} (less : value.length ≤ value'.length) :
    (f.field name value).length ≤ (f.field name value').length :=
  member_le less

theorem paths_le {ps ps' : List VPath} (fewer : ps.Sublist ps') : (f.paths ps).length ≤ (f.paths ps').length :=
  (Shorter.of_sublist (fewer.map f.path)).array_le

/-- A slot without its steps has the shorter text. -/
theorem still_le {s s' : SlotState S R} (trims : s'.Trims s) : (f.slot s.still).length ≤ (f.slot s').length := by
  obtain ⟨i, j, rfl⟩ := trims
  have steps : Shorter [f.field "back" (f.paths []), f.field "forward" (f.paths [])]
      [f.field "back" (f.paths (s.back.drop i)), f.field "forward" (f.paths (s.forward.drop j))] :=
    .cons (f.field_le (f.paths_le (List.nil_sublist _))) (.cons (f.field_le (f.paths_le (List.nil_sublist _))) .nil)
  exact Shorter.object_le <|
    ((((Shorter.refl _).append steps).append (.refl _)).append (.refl _)).append (.refl _) |>.append (.refl _)

theorem map_le {V : Type} {value : V → Bytes} {m : SortedMap Str V} (p : Str → V → Bool) :
    (f.map value (m.filter p)).length ≤ (f.map value m).length :=
  (Shorter.of_sublist (List.filter_sublist.map _)).object_le

open SessionBody in
theorem slots_bare_le {b r : SessionBody P S R D} {names others : List Str} (trimmed : Trimmed b names r)
    (more : names ⊆ others) : (f.slots (b.bare others).slots).length ≤ (f.slots r.slots).length := by
  refine Shorter.object_le (List.sublistForall₂_map_left_iff.mpr (List.sublistForall₂_map_right_iff.mpr ?_))
  refine SortedMap.sublist_of_rising (b.bare others).slots.rising r.slots.rising fun e member => ?_
  have found := SortedMap.get?_eq_some.mpr member
  simp only [bare, SortedMap.get?_update, SortedMap.get?_filter, Option.map_eq_some_iff,
    Option.filter_eq_some_iff, decide_eq_true_eq] at found
  obtain ⟨s, ⟨there, shown⟩, still⟩ := found
  obtain ⟨key, tree, layout, inside⟩ := SessionBody.mem_visible.mp shown
  simp only [without, SortedMap.get?_filter, Option.filter_eq_some_iff, List.contains_eq_mem, Bool.not_eq_true',
    decide_eq_false_iff_not] at layout
  have alive : e.1 ∈ r.visible :=
    trimmed.mem_visible.mpr ⟨key, tree, layout.1, fun gone => layout.2 (more gone), inside⟩
  obtain ⟨s', here, trims⟩ := trimmed.kept e.1 alive s there
  refine ⟨(e.1, s'), SortedMap.get?_eq_some.mp here, rfl, member_le ?_⟩
  rw [← still]
  exact f.still_le trims

open SessionBody in
/-- What is left at the end is no longer than a body on the way there. -/
theorem bare_le {b r : SessionBody P S R D} {names others : List Str} (trimmed : Trimmed b names r)
    (more : names ⊆ others) : (f.body (b.bare others)).length ≤ (f.body r).length := by
  have fewer {V : Type} (g : Str → Str) (m : SortedMap Str V) : (m.filter fun k _ => !others.contains (g k)) =
      (m.filter fun k _ => !names.contains (g k)).filter fun k _ => !others.contains (g k) := by
    rw [SortedMap.filter_filter]
    refine SortedMap.filter_congr fun k _ _ => ?_
    by_cases gone : g k ∈ others
    · simp [gone]
    · have first : g k ∉ names := fun first => gone (more first)
      simp [gone, first]
  refine Shorter.object_le (((((Shorter.append ?_ ?_).append ?_).append ?_).append ?_).append ?_ |>.append ?_)
  · rw [trimmed.active]
    exact .refl _
  · rw [trimmed.layouts]
    refine .cons (f.field_le ?_) .nil
    rw [bare, without, fewer profileOf]
    exact f.map_le _
  · exact .cons (f.field_le (f.slots_bare_le trimmed more)) .nil
  · rw [trimmed.paletteRecent]
    exact .refl _
  · exact .nil
  · rw [trimmed.openPanels, bare, without]
    have panels := fewer id b.openPanels
    simp only [id_eq] at panels
    rw [panels]
    refine .optional (fun some_ none_ => some_ ?_) (f.field_le (f.map_le _))
    simp only [SortedMap.filter] at none_ ⊢
    rw [none_, List.filter_nil]
  · rw [trimmed.panelDocks]
    exact .refl _

end Format

end Norte.Saved
