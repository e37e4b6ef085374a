import Norte.SavedPrune

/-! What a body is after some of its profiles are gone and the rest is trimmed, and what is
left when everything that is ever given up is gone. -/
namespace Norte.Saved

variable {P S R D : Type}

/-- Some of the steps of a slot are gone, the oldest ones, and nothing else. -/
def SlotState.Trims (s' s : SlotState S R) : Prop :=
  ∃ i j, s' = { s with back := s.back.drop i, forward := s.forward.drop j }

def SlotState.still (s : SlotState S R) : SlotState S R := { s with back := [], forward := [] }

theorem SlotState.Trims.refl (s : SlotState S R) : s.Trims s := ⟨0, 0, rfl⟩

theorem SlotState.Trims.trans {s s' s'' : SlotState S R} (later : s''.Trims s') (first : s'.Trims s) : s''.Trims s := by
  obtain ⟨i, j, rfl⟩ := first
  obtain ⟨i', j', rfl⟩ := later
  exact ⟨i + i', j + j', by simp⟩

theorem SlotState.trims_trim (cap : Nat) (s : SlotState S R) : (s.trim cap).Trims s := ⟨_, _, rfl⟩

theorem SlotState.Trims.still {s s' : SlotState S R} (trims : s'.Trims s) : s'.still = s.still := by
  obtain ⟨i, j, rfl⟩ := trims
  rfl

namespace SessionBody

variable {b b' r : SessionBody P S R D} {names others : List Str} {id : Layout.SlotId}

theorem mem_visible : id ∈ b.visible ↔ ∃ key tree, b.layouts.get? key = some tree ∧ id ∈ tree.slotIds := by
  simp only [visible, List.mem_flatMap, SortedMap.mem_values]
  constructor
  · rintro ⟨tree, ⟨key, found⟩, inside⟩
    exact ⟨key, tree, found, inside⟩
  · rintro ⟨key, tree, found, inside⟩
    exact ⟨tree, ⟨key, found⟩, inside⟩

/-- `b` without some of its profiles and, of the rest, with less state: what the layouts left
mention is there, shortened at most, and nothing is left that only a profile gone mentioned. -/
structure Trimmed (b : SessionBody P S R D) (names : List Str) (r : SessionBody P S R D) : Prop where
  active : r.active = b.active
  layouts : r.layouts = b.layouts.filter fun key _ => !names.contains (profileOf key)
  paletteRecent : r.paletteRecent = b.paletteRecent
  openPanels : r.openPanels = b.openPanels.filter fun profile _ => !names.contains profile
  panelDocks : r.panelDocks = b.panelDocks
  kept : ∀ id ∈ r.visible, ∀ s, b.slots.get? id = some s → ∃ s', r.slots.get? id = some s' ∧ s'.Trims s
  origin : ∀ id s', r.slots.get? id = some s' →
    ∃ s, b.slots.get? id = some s ∧ s'.Trims s ∧ (id ∈ b.visible → id ∈ r.visible)

theorem Trimmed.get?_layouts (trimmed : Trimmed b names r) {key : Str} {tree : Layout.Node P} :
    r.layouts.get? key = some tree ↔ b.layouts.get? key = some tree ∧ profileOf key ∉ names := by
  rw [trimmed.layouts, SortedMap.get?_filter, Option.filter_eq_some_iff]
  simp

theorem Trimmed.mem_visible (trimmed : Trimmed b names r) :
    id ∈ r.visible ↔ ∃ key tree, b.layouts.get? key = some tree ∧ profileOf key ∉ names ∧ id ∈ tree.slotIds := by
  simp only [SessionBody.mem_visible, trimmed.get?_layouts, and_assoc]

theorem Trimmed.visible (trimmed : Trimmed b names r) (shown : id ∈ r.visible) : id ∈ b.visible := by
  obtain ⟨key, tree, found, -, inside⟩ := trimmed.mem_visible.mp shown
  exact SessionBody.mem_visible.mpr ⟨key, tree, found, inside⟩

theorem Trimmed.trans (first : Trimmed b names b') (later : Trimmed b' others r) : Trimmed b (names ++ others) r where
  active := later.active.trans first.active
  layouts := by
    rw [later.layouts, first.layouts, SortedMap.filter_filter]
    exact SortedMap.filter_congr fun _ _ _ => by simp [Bool.and_comm]
  paletteRecent := later.paletteRecent.trans first.paletteRecent
  openPanels := by
    rw [later.openPanels, first.openPanels, SortedMap.filter_filter]
    exact SortedMap.filter_congr fun _ _ _ => by simp [Bool.and_comm]
  panelDocks := later.panelDocks.trans first.panelDocks
  kept id shown s found := by
    obtain ⟨s', found', trims⟩ := first.kept id (later.visible shown) s found
    obtain ⟨s'', found'', trims'⟩ := later.kept id shown s' found'
    exact ⟨s'', found'', trims'.trans trims⟩
  origin id s'' found := by
    obtain ⟨s', found', trims', stays'⟩ := later.origin id s'' found
    obtain ⟨s, found, trims, stays⟩ := first.origin id s' found'
    exact ⟨s, found, trims'.trans trims, fun shown => stays' (stays shown)⟩

theorem trimmed_nil {same : SessionBody P S R D} (screen : same.active = b.active ∧ same.layouts = b.layouts ∧
      same.paletteRecent = b.paletteRecent ∧ same.openPanels = b.openPanels ∧ same.panelDocks = b.panelDocks)
    (kept : ∀ id ∈ b.visible, ∀ s, b.slots.get? id = some s → ∃ s', same.slots.get? id = some s' ∧ s'.Trims s)
    (origin : ∀ id s', same.slots.get? id = some s' → ∃ s, b.slots.get? id = some s ∧ s'.Trims s) :
    Trimmed b [] same := by
  obtain ⟨active, layouts, palette, panels, docks⟩ := screen
  have shown : same.visible = b.visible := by rw [SessionBody.visible, layouts, SessionBody.visible]
  refine ⟨active, ?_, palette, ?_, docks, fun id inside => kept id (shown ▸ inside), fun id s' found => ?_⟩
  · rw [layouts]
    exact (SortedMap.filter_eq_self fun _ _ _ => by simp).symm
  · rw [panels]
    exact (SortedMap.filter_eq_self fun _ _ _ => by simp).symm
  · obtain ⟨s, found, trims⟩ := origin id s' found
    exact ⟨s, found, trims, fun inside => by rwa [shown]⟩

theorem Trimmed.refl (b : SessionBody P S R D) : Trimmed b [] b :=
  trimmed_nil ⟨rfl, rfl, rfl, rfl, rfl⟩ (fun _ _ s found => ⟨s, found, .refl s⟩) fun _ s found => ⟨s, found, .refl s⟩

theorem trimmed_popular (popular : List PopularEntry) : Trimmed b [] { b with popular := popular } :=
  trimmed_nil ⟨rfl, rfl, rfl, rfl, rfl⟩ (fun _ _ s found => ⟨s, found, .refl s⟩) fun _ s found => ⟨s, found, .refl s⟩

theorem trimmed_trimSlots (cap : Layout.SlotId → Nat) : Trimmed b [] (b.trimSlots cap) := by
  refine trimmed_nil ⟨rfl, rfl, rfl, rfl, rfl⟩ (fun id _ s found => ?_) fun id s' found => ?_
  · exact ⟨s.trim (cap id), by simp [trimSlots, found], s.trims_trim _⟩
  · simp only [trimSlots, SortedMap.get?_update, Option.map_eq_some_iff] at found
    obtain ⟨s, found, rfl⟩ := found
    exact ⟨s, found, s.trims_trim _⟩

/-- Slots that no layout mentions can go. -/
theorem trimmed_filter {p : Layout.SlotId → SlotState S R → Bool} (shown : ∀ id s, id ∈ b.visible → p id s = true) :
    Trimmed b [] { b with slots := b.slots.filter p } := by
  refine trimmed_nil ⟨rfl, rfl, rfl, rfl, rfl⟩ (fun id inside s found => ?_) fun id s' found => ?_
  · exact ⟨s, by simp [found, shown id s inside], .refl s⟩
  · simp only [SortedMap.get?_filter, Option.filter_eq_some_iff] at found
    exact ⟨s', found.1, .refl s'⟩

theorem foldl_removeSlot (ids : List Layout.SlotId) (b : SessionBody P S R D) :
    ids.foldl removeSlot b = { b with slots := b.slots.filter fun id _ => id ∉ ids } := by
  rw [← SortedMap.foldl_remove]
  induction ids generalizing b with
  | nil => rfl
  | cons id ids ih => exact ih (b.removeSlot id)

theorem trimmed_foldl_removeSlot {ids : List Layout.SlotId} (hidden : ∀ id ∈ ids, id ∉ b.visible) :
    Trimmed b [] (ids.foldl removeSlot b) := by
  rw [foldl_removeSlot]
  exact trimmed_filter fun id _ shown => by simpa using fun inside => hidden id inside shown

/-- The layouts of some profiles, and what is open in them, are gone. -/
def without (b : SessionBody P S R D) (names : List Str) : SessionBody P S R D :=
  { b with
    layouts := b.layouts.filter fun key _ => !names.contains (profileOf key)
    openPanels := b.openPanels.filter fun profile _ => !names.contains profile }

theorem removeProfile_without (name : Str) : (b.removeProfile name).2 = b.without [name] := by
  simp [removeProfile, without, SortedMap.remove]

theorem mem_removeProfile (name : Str) : id ∈ (b.removeProfile name).1.flatMap Layout.Node.slotIds ↔
    ∃ key tree, b.layouts.get? key = some tree ∧ profileOf key ∈ [name] ∧ id ∈ tree.slotIds := by
  simp only [removeProfile, List.mem_flatMap, SortedMap.mem_values, SortedMap.get?_filter, Option.filter_eq_some_iff]
  constructor
  · rintro ⟨tree, ⟨key, found, its⟩, inside⟩
    exact ⟨key, tree, found, by simpa using its, inside⟩
  · rintro ⟨key, tree, found, its, inside⟩
    exact ⟨tree, ⟨key, found, by simpa using its⟩, inside⟩

variable (b names others) in
theorem without_without : (b.without names).without others = b.without (names ++ others) := by
  simp only [without, SortedMap.filter_filter, SessionBody.mk.injEq, and_true, true_and]
  constructor
  · exact SortedMap.filter_congr fun _ _ _ => by simp [Bool.and_comm]
  · exact SortedMap.filter_congr fun _ _ _ => by simp [Bool.and_comm]

theorem without_nil : b.without [] = b := by
  simp only [without, List.contains_nil, Bool.not_false]
  rw [SortedMap.filter_eq_self fun _ _ _ => rfl, SortedMap.filter_eq_self fun _ _ _ => rfl]

theorem removeProfiles_without (names : List Str) (trees : List (Layout.Node P)) (b : SessionBody P S R D) :
    (removeProfiles names trees b).2 = b.without names := by
  induction names generalizing trees b with
  | nil => exact without_nil.symm
  | cons name names ih => rw [removeProfiles, ih, removeProfile_without, without_without, List.singleton_append]

theorem mem_removeProfiles (names : List Str) (trees : List (Layout.Node P)) (b : SessionBody P S R D) :
    id ∈ (removeProfiles names trees b).1.flatMap Layout.Node.slotIds ↔ id ∈ trees.flatMap Layout.Node.slotIds ∨
      ∃ key tree, b.layouts.get? key = some tree ∧ profileOf key ∈ names ∧ id ∈ tree.slotIds := by
  induction names generalizing trees b with
  | nil => simp [removeProfiles]
  | cons name names ih =>
    rw [removeProfiles, ih, List.flatMap_append, List.mem_append, mem_removeProfile, or_assoc]
    refine or_congr_right ⟨?_, ?_⟩
    · rintro (⟨key, tree, found, its, inside⟩ | ⟨key, tree, found, its, inside⟩)
      · exact ⟨key, tree, found, List.mem_cons.mpr (.inl (by simpa using its)), inside⟩
      · simp only [removeProfile, SortedMap.get?_filter, Option.filter_eq_some_iff] at found
        exact ⟨key, tree, found.1, List.mem_cons_of_mem _ its, inside⟩
    · rintro ⟨key, tree, found, its, inside⟩
      by_cases head : profileOf key = name
      · exact .inl ⟨key, tree, found, by simpa using head, inside⟩
      · refine .inr ⟨key, tree, ?_, (List.mem_cons.mp its).resolve_left head, inside⟩
        simp [removeProfile, found, head]

/-- The profiles gone and, of the slots their layouts mention, those that no layout left does. -/
theorem trimmed_removeDead {trees : List (Layout.Node P)}
    (departed : ∀ id, id ∈ trees.flatMap Layout.Node.slotIds ↔
      ∃ key tree, b.layouts.get? key = some tree ∧ profileOf key ∈ names ∧ id ∈ tree.slotIds) :
    Trimmed b names ((b.without names).removeDead trees) := by
  have slots : (b.without names).removeDead trees = { b.without names with
      slots := b.slots.filter fun id _ =>
        id ∉ (trees.flatMap Layout.Node.slotIds).filter fun id => id ∉ (b.without names).visible } :=
    foldl_removeSlot ..
  rw [slots]
  refine ⟨rfl, rfl, rfl, rfl, rfl, fun id shown s found => ⟨s, ?_, .refl s⟩, fun id s' found => ?_⟩
  · have alive : id ∈ (b.without names).visible := shown
    simp [found, alive]
  · simp only [SortedMap.get?_filter, Option.filter_eq_some_iff, decide_eq_true_eq, List.mem_filter, not_and,
      not_not] at found
    refine ⟨s', found.1, .refl s', fun shown => ?_⟩
    obtain ⟨key, tree, layout, inside⟩ := SessionBody.mem_visible.mp shown
    by_cases its : profileOf key ∈ names
    · exact found.2 ((departed id).mpr ⟨key, tree, layout, its, inside⟩)
    · exact SessionBody.mem_visible.mpr ⟨key, tree, by simp [without, layout, its], inside⟩

/-! ### What is left when everything else is gone -/

/-- The body when it was trimmed all it can be: without some of its profiles, without
shortcuts, and with the slots its layouts mention and no history. -/
def bare (b : SessionBody P S R D) (names : List Str) : SessionBody P S R D :=
  { b.without names with
    slots := (b.slots.filter fun id _ => id ∈ (b.without names).visible).update fun _ s => s.still
    popular := [] }

theorem Trimmed.without (trimmed : Trimmed b names r) (others : List Str) :
    (r.without others).layouts = (b.without (names ++ others)).layouts ∧
    (r.without others).openPanels = (b.without (names ++ others)).openPanels := by
  have twice := without_without b names others
  simp only [SessionBody.without, SessionBody.mk.injEq] at twice ⊢
  rw [trimmed.layouts, trimmed.openPanels]
  exact ⟨twice.2.1, twice.2.2.2.2.2.1⟩

/-- Trimmed first or not, what is left is the same. -/
theorem Trimmed.bare (trimmed : Trimmed b names r) : r.bare others = b.bare (names ++ others) := by
  obtain ⟨layouts, panels⟩ := trimmed.without others
  have shown : (r.without others).visible = (b.without (names ++ others)).visible := by
    rw [SessionBody.visible, layouts, SessionBody.visible]
  have slots : (r.bare others).slots = (b.bare (names ++ others)).slots := by
    refine SortedMap.ext_get? fun id => ?_
    simp only [SessionBody.bare, SortedMap.get?_update, SortedMap.get?_filter, shown]
    by_cases alive : id ∈ (b.without (names ++ others)).visible
    · have aliveThere : id ∈ r.visible := by
        rw [← shown] at alive
        obtain ⟨key, tree, found, inside⟩ := SessionBody.mem_visible.mp alive
        simp only [SessionBody.without, SortedMap.get?_filter, Option.filter_eq_some_iff] at found
        exact SessionBody.mem_visible.mpr ⟨key, tree, found.1, inside⟩
      cases there : b.slots.get? id with
      | some s =>
        obtain ⟨s', found, trims⟩ := trimmed.kept id aliveThere s there
        simp [found, alive, Option.filter, trims.still]
      | none =>
        cases here : r.slots.get? id with
        | none => rfl
        | some s' =>
          obtain ⟨s, found, -⟩ := trimmed.origin id s' here
          simp [there] at found
    · cases r.slots.get? id <;> cases b.slots.get? id <;> simp [alive]
  simp only [SessionBody.bare, SessionBody.without, SessionBody.mk.injEq] at slots layouts panels ⊢
  exact ⟨trimmed.active, layouts, slots, trimmed.paletteRecent, trivial, panels, trimmed.panelDocks⟩

/-- Nothing is left to give up but whole profiles. -/
structure Bare (b : SessionBody P S R D) : Prop where
  popular : b.popular = []
  slots : ∀ id s, b.slots.get? id = some s → id ∈ b.visible ∧ s.still = s

theorem Bare.eq (left : b.Bare) : b.bare [] = b := by
  rw [bare, without_nil]
  have slots : ((b.slots.filter fun id _ => id ∈ b.visible).update fun _ s => s.still) = b.slots := by
    rw [SortedMap.filter_eq_self fun id s found => by simpa using (left.slots id s found).1]
    exact SortedMap.update_eq_self fun id s found => (left.slots id s found).2
  rw [slots, ← left.popular]

theorem Trimmed.eq_bare (trimmed : Trimmed b names r) (left : r.Bare) : r = b.bare names := by
  rw [← left.eq, trimmed.bare, List.append_nil]

end SessionBody

end Norte.Saved
