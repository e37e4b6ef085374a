import Norte.SavedOrder

/-! Pruning, stage by stage: which profiles it gives up, that it gives up no more than makes
the body fit, and that there is nothing to do a second time. -/
namespace Norte.Saved

variable {P S R D : Type}

namespace SessionBody

open FirstFit

variable {b c r : SessionBody P S R D} {names others : List Str} {id : Layout.SlotId} {now : Nat}
  {fits : SessionBody P S R D → Bool}

/-- The profiles over the cap. -/
def overflow (b : SessionBody P S R D) : Nat := b.profilesWithState - PROFILE_STATE_CAP

theorem trimmed_pruneProfiles (b : SessionBody P S R D) :
    Trimmed b (b.profilesByLastTouch.take b.overflow) b.pruneProfiles := by
  rw [pruneProfiles]
  split
  · rename_i few
    rw [overflow, Nat.sub_eq_zero_of_le few, List.take_zero]
    exact .refl b
  · simp only [removeProfiles_without]
    refine trimmed_removeDead fun id => ?_
    rw [mem_removeProfiles]
    simp [overflow]

theorem trimmed_sweepPopular (b : SessionBody P S R D) : Trimmed b [] b.sweepPopular := by
  rw [sweepPopular]
  split
  · exact trimmed_popular _
  · exact .refl b

theorem length_sweepPopular (b : SessionBody P S R D) : b.sweepPopular.popular.length ≤ POPULAR_CAP := by
  rw [sweepPopular]
  split
  · exact Popular.length_fromEntries _
  · exact Nat.le_of_not_lt ‹_›

theorem mem_orphans {visible : List Layout.SlotId} :
    id ∈ b.orphans visible ↔ id ∉ visible ∧ ∃ s, b.slots.get? id = some s := by
  simp only [orphans, List.mem_map, List.mem_insertionSort, List.mem_filter, decide_eq_true_eq, SortedMap.get?_eq_some]
  constructor
  · rintro ⟨_, ⟨⟨id, s⟩, ⟨member, hidden⟩, rfl⟩, rfl⟩
    exact ⟨hidden, s, member⟩
  · rintro ⟨hidden, s, member⟩
    exact ⟨(s.touchedMs, id), ⟨(id, s), ⟨member, hidden⟩, rfl⟩, rfl⟩

theorem trimmed_sweepAge (now : Nat) (b : SessionBody P S R D) : Trimmed b [] (b.sweepAge now b.visible) :=
  (trimmed_trimSlots _).trans (trimmed_filter fun _ _ shown => decide_eq_true (.inl shown))

theorem trimmed_sweepOrphans (b : SessionBody P S R D) : Trimmed b [] (b.sweepOrphans b.visible) := by
  rw [sweepOrphans]
  split
  · exact trimmed_foldl_removeSlot fun id member => (mem_orphans.mp (List.mem_of_mem_take member)).1
  · exact .refl b

/-! ### The last loop -/

def dropProfile (b : SessionBody P S R D) (name : Str) : SessionBody P S R D :=
  (b.removeProfile name).2.removeDead (b.removeProfile name).1

theorem trimmed_dropProfile (b : SessionBody P S R D) (name : Str) : Trimmed b [name] (b.dropProfile name) := by
  rw [dropProfile, removeProfile_without]
  exact trimmed_removeDead fun id => mem_removeProfile name

theorem popular_dropProfile (b : SessionBody P S R D) (name : Str) : (b.dropProfile name).popular = b.popular := by
  rw [dropProfile, removeDead, foldl_removeSlot]
  rfl

/-- Each name of the order has a layout when its turn comes. -/
theorem dropProfiles_eq (once : names.Nodup) (there : ∀ name ∈ names, name ∈ b.profiles) :
    dropProfiles fits names b = series fits dropProfile names b := by
  induction names generalizing b with
  | nil => rfl
  | cons name names ih =>
    obtain ⟨fresh, once⟩ := List.nodup_cons.mp once
    have some_ : (b.removeProfile name).1.isEmpty = false := by
      obtain ⟨key, tree, found, its⟩ := SessionBody.mem_profiles.mp (there name List.mem_cons_self)
      have member : tree ∈ (b.removeProfile name).1 :=
        SortedMap.mem_values.mpr ⟨key, by simp [found, its]⟩
      exact List.isEmpty_eq_false_iff_exists_mem.mpr ⟨tree, member⟩
    have rest : ∀ other ∈ names, other ∈ (b.dropProfile name).profiles := fun other member =>
      (trimmed_dropProfile b name).mem_profiles.mpr
        ⟨there other (List.mem_cons_of_mem _ member), by simpa using ne_of_mem_of_not_mem member fresh⟩
    simp only [dropProfiles, some_, series]
    rw [← ih once rest]
    rfl

theorem Bare.trimmed (left : b.Bare) (trimmed : Trimmed b names r) (popular : r.popular = []) : r.Bare := by
  refine ⟨popular, fun id s' found => ?_⟩
  obtain ⟨s, there, ⟨i, j, rfl⟩, stays⟩ := trimmed.origin id s' found
  obtain ⟨shown, still⟩ := left.slots id s there
  have empty : s.back = [] ∧ s.forward = [] := by
    rw [← still]
    exact ⟨rfl, rfl⟩
  exact ⟨stays shown, by simp [SlotState.still, empty]⟩

/-- From a body with nothing left but profiles, each step gives up one of them. -/
theorem Bare.foldl_dropProfile (left : b.Bare) (names : List Str) :
    Trimmed b names (names.foldl dropProfile b) ∧ (names.foldl dropProfile b).Bare := by
  induction names generalizing b with
  | nil => exact ⟨.refl b, left⟩
  | cons name names ih =>
    have trimmed := trimmed_dropProfile b name
    obtain ⟨rest, left⟩ := ih (left.trimmed trimmed ((popular_dropProfile b name).trans left.popular))
    exact ⟨trimmed.trans rest, left⟩

/-! ### Fitting the envelope -/

/-- How fitting ended: some profiles are gone, the ones touched least recently, and with fewer
of them gone even the bare body does not fit. -/
structure Fitted (fits : SessionBody P S R D → Bool) (b : SessionBody P S R D) (n : Nat) (r : SessionBody P S R D) :
    Prop where
  gone : n ≤ b.profilesByLastTouch.length
  trimmed : Trimmed b (b.profilesByLastTouch.take n) r
  popular : r.popular = b.popular ∨ r.popular = []
  ended : fits r = true ∨ (n = b.profilesByLastTouch.length ∧ r.Bare)
  needed : ∀ j < n, fits (b.bare (b.profilesByLastTouch.take j)) = false

theorem Fitted.early (trimmed : Trimmed b [] r) (popular : r.popular = b.popular ∨ r.popular = [])
    (fit : fits r = true) : Fitted fits b 0 r :=
  ⟨Nat.zero_le _, trimmed, popular, .inl fit, fun _ less => absurd less (Nat.not_lt_zero _)⟩

theorem foldl_trimSlots (caps : List Nat) (b : SessionBody P S R D) :
    Trimmed b [] (caps.foldl (fun b cap => b.trimSlots fun _ => cap) b) ∧
      (caps.foldl (fun b cap => b.trimSlots fun _ => cap) b).popular = b.popular := by
  induction caps generalizing b with
  | nil => exact ⟨.refl b, rfl⟩
  | cons cap caps ih =>
    obtain ⟨trimmed, popular⟩ := ih (b.trimSlots fun _ => cap)
    exact ⟨(trimmed_trimSlots _).trans trimmed, popular⟩

theorem rounds_HISTORY_CAP : rounds HISTORY_CAP = [32, 16, 8, 4, 2, 1] ++ [0] := by
  simp [HISTORY_CAP, rounds]

/-- The last round leaves no step. -/
theorem still_rounds {s : SlotState S R}
    (found : ((rounds HISTORY_CAP).foldl (fun b cap => b.trimSlots fun _ => cap) b).slots.get? id = some s) :
    s.still = s := by
  rw [rounds_HISTORY_CAP, List.foldl_append, List.foldl_cons, List.foldl_nil] at found
  simp only [trimSlots, SortedMap.get?_update, Option.map_eq_some_iff] at found
  obtain ⟨s, -, rfl⟩ := found
  simp [SlotState.still, SlotState.trim, trimHistory]

/-- A stage before the last one: it ended the fitting, or it goes on with every profile there. -/
def Goes (fits : SessionBody P S R D → Bool) (b : SessionBody P S R D) (stage : Series (SessionBody P S R D))
    (left : SessionBody P S R D → Prop) : Prop :=
  (∃ r, stage = .error r ∧ Fitted fits b 0 r) ∨ ∃ c, stage = .ok c ∧ Trimmed b [] c ∧ left c

theorem goes_orphans (fits : SessionBody P S R D → Bool) (b : SessionBody P S R D) :
    Goes fits b (series fits removeSlot (b.orphans b.visible) b) fun c =>
      c.popular = b.popular ∧ ∀ id s, c.slots.get? id = some s → id ∈ c.visible := by
  have hidden : ∀ id ∈ b.orphans b.visible, id ∉ b.visible := fun id member => (mem_orphans.mp member).1
  rcases series_cases fits removeSlot (b.orphans b.visible) b with
    ⟨done, rest, whole, -, ended, fit, -⟩ | ⟨ended, -⟩
  · refine .inl ⟨_, ended, .early (trimmed_foldl_removeSlot fun id member => hidden id ?_) (.inl ?_) fit⟩
    · rw [whole]
      exact List.mem_append_left _ member
    · rw [foldl_removeSlot]
  · refine .inr ⟨_, ended, trimmed_foldl_removeSlot hidden, by rw [foldl_removeSlot], fun id s found => ?_⟩
    rw [foldl_removeSlot] at found ⊢
    simp only [SortedMap.get?_filter, Option.filter_eq_some_iff, decide_eq_true_eq] at found
    by_contra away
    exact found.2 (mem_orphans.mpr ⟨away, s, found.1⟩)

theorem goes_popular (fits : SessionBody P S R D → Bool) (trimmed : Trimmed b [] c) :
    Goes fits b (if c.popular ≠ [] then series fits (fun b _ => { b with popular := [] }) [()] c else .ok c)
      fun c' => c' = { c with popular := [] } := by
  by_cases none_ : c.popular = []
  · rw [if_neg (not_not.mpr none_)]
    exact .inr ⟨c, rfl, trimmed, by rw [← none_]⟩
  · rw [if_pos none_]
    simp only [series]
    split
    · exact .inl ⟨_, rfl, .early (trimmed.trans (trimmed_popular [])) (.inr rfl) ‹_›⟩
    · exact .inr ⟨_, rfl, trimmed.trans (trimmed_popular []), rfl⟩

theorem goes_rounds (fits : SessionBody P S R D → Bool) (trimmed : Trimmed b [] c) (popular : c.popular = [])
    (shown : ∀ id s, c.slots.get? id = some s → id ∈ c.visible) :
    Goes fits b (series fits (fun b cap => b.trimSlots fun _ => cap) (rounds HISTORY_CAP) c) fun c' =>
      c'.Bare ∧ fits c' = false := by
  rcases series_cases fits (fun b cap => b.trimSlots fun _ => cap) (rounds HISTORY_CAP) c with
    ⟨done, -, -, -, ended, fit, -⟩ | ⟨ended, large⟩
  · obtain ⟨trimmed', popular'⟩ := foldl_trimSlots done c
    exact .inl ⟨_, ended, .early (trimmed.trans trimmed') (.inr (popular'.trans popular)) fit⟩
  · obtain ⟨trimmed', popular'⟩ := foldl_trimSlots (rounds HISTORY_CAP) c
    refine .inr ⟨_, ended, trimmed.trans trimmed', ⟨popular'.trans popular, fun id s found => ⟨?_, still_rounds found⟩⟩, ?_⟩
    · obtain ⟨s', there, -, stays⟩ := trimmed'.origin id s found
      exact stays (shown id s' there)
    · exact large _ (by simp [rounds_HISTORY_CAP]) (List.prefix_refl _)

theorem ends_dropProfiles (trimmed : Trimmed b [] c) (left : c.Bare) (large : fits c = false) :
    ∃ n, Fitted fits b n (final (dropProfiles fits c.profilesByLastTouch c)) := by
  have order : c.profilesByLastTouch = b.profilesByLastTouch := Trimmed.profilesByLastTouch (n := 0) trimmed
  have step (names : List Str) : Trimmed b names (names.foldl dropProfile c) ∧ (names.foldl dropProfile c).Bare :=
    ⟨trimmed.trans (left.foldl_dropProfile names).1, (left.foldl_dropProfile names).2⟩
  have bare (names : List Str) : names.foldl dropProfile c = b.bare names := (step names).1.eq_bare (step names).2
  have popular (names : List Str) : (names.foldl dropProfile c).popular = [] := (step names).2.popular
  rw [dropProfiles_eq nodup_profilesByLastTouch fun name member => (mem_profilesByLastTouch.mp member).1, order]
  -- the bare body before any step is the one the last stage starts at
  have needed {j : Nat} (early : ∀ before, before ≠ [] → before = b.profilesByLastTouch.take j →
      fits (before.foldl dropProfile c) = false) : fits (b.bare (b.profilesByLastTouch.take j)) = false := by
    rw [← bare]
    by_cases none_ : b.profilesByLastTouch.take j = []
    · rw [none_]
      exact large
    · exact early _ none_ rfl
  rcases series_cases fits dropProfile b.profilesByLastTouch c with
    ⟨done, rest, whole, -, ended, fit, early⟩ | ⟨ended, early⟩
  · have upto : b.profilesByLastTouch.take done.length = done := by rw [whole, List.take_left]
    rw [ended]
    refine ⟨done.length, ?_, ?_, .inr (popular done), .inl fit, fun j less => needed fun before some_ same => ?_⟩
    · rw [whole, List.length_append]
      exact Nat.le_add_right ..
    · rw [upto]
      exact (step done).1
    · have inside : before = done.take j := by rw [same, whole, List.take_append_of_le_length (Nat.le_of_lt less)]
      refine early before some_ (inside ▸ List.take_prefix j done) fun equal => ?_
      have length := congrArg List.length (inside.symm.trans equal)
      rw [List.length_take] at length
      omega
  · rw [ended]
    refine ⟨_, Nat.le_refl _, ?_, .inr (popular _), .inr ⟨rfl, (step _).2⟩, fun j less => needed fun before some_ same => ?_⟩
    · rw [List.take_length]
      exact (step _).1
    · exact early before some_ (same ▸ List.take_prefix j _)

theorem fitToEnvelope_fitted (fits : SessionBody P S R D → Bool) (b : SessionBody P S R D) :
    ∃ n, Fitted fits b n (b.fitToEnvelope fits b.visible) := by
  rw [fitToEnvelope]
  split
  · exact ⟨0, .early (.refl b) (.inl rfl) ‹_›⟩
  rcases goes_orphans fits b with ⟨r, ended, fitted⟩ | ⟨c, ended, trimmed, popular, shown⟩
  · rw [ended]
    exact ⟨0, fitted⟩
  rw [ended, Series.next]
  rcases goes_popular fits trimmed with ⟨r, ended, fitted⟩ | ⟨c', ended, trimmed, rfl⟩
  · rw [ended]
    exact ⟨0, fitted⟩
  rw [ended, Series.next]
  rcases goes_rounds fits trimmed rfl shown with ⟨r, ended, fitted⟩ | ⟨c', ended, trimmed, left, large⟩
  · rw [ended]
    exact ⟨0, fitted⟩
  rw [ended, Series.next]
  exact ends_dropProfiles trimmed left large

end SessionBody

end Norte.Saved
