import Norte.SavedPruned

/-! What is on screen after pruning: the layouts of the active profile with the place of each
slot, at most so many profiles, a text that fits, and nothing to prune a second time. -/
namespace Norte.Saved

variable {P S R D : Type}

namespace SessionBody

variable {b r : SessionBody P S R D} {names : List Str} {id : Layout.SlotId} {now : Nat}

/-! ### The caps by count -/

theorem trimHistory_eq {cap : Nat} {h : List VPath} (short : h.length ≤ cap) : trimHistory cap h = h := by
  rw [trimHistory, Nat.sub_eq_zero_of_le short, List.drop_zero]

theorem length_trimHistory (cap : Nat) (h : List VPath) : (trimHistory cap h).length ≤ cap := by
  rw [trimHistory, List.length_drop]
  omega

/-- Both histories of a slot within a cap. -/
def Short (cap : Nat) (s : SlotState S R) : Prop := s.back.length ≤ cap ∧ s.forward.length ≤ cap

/-- The histories are within their caps, and what no layout mentions is not too old. -/
structure Aged (now : Nat) (b : SessionBody P S R D) : Prop where
  shown : ∀ id s, b.slots.get? id = some s → id ∈ b.visible → Short HISTORY_CAP s
  hidden : ∀ id s, b.slots.get? id = some s → id ∉ b.visible →
    Short ORPHAN_HISTORY_CAP s ∧ now - s.touchedMs ≤ MAX_AGE_MS

theorem Short.trims {cap : Nat} {s s' : SlotState S R} (short : Short cap s) (trims : s'.Trims s) : Short cap s' := by
  obtain ⟨i, j, rfl⟩ := trims
  simp only [Short, List.length_drop] at short ⊢
  omega

theorem nodup_orphans (b : SessionBody P S R D) (visible : List Layout.SlotId) : (b.orphans visible).Nodup := by
  have once : (b.slots.entries.filter fun e => e.1 ∉ visible).Pairwise fun e e' => e.1 ≠ e'.1 :=
    (b.slots.rising.filter _).imp fun less => ne_of_lt less
  rw [orphans, ((List.perm_insertionSort _ _).map _).nodup_iff, List.map_map]
  exact List.pairwise_map.mpr once

theorem Aged.trimmed (aged : Aged now b) (trimmed : Trimmed b names r) : Aged now r where
  shown id s' found alive := by
    obtain ⟨s, there, trims, -⟩ := trimmed.origin id s' found
    exact (aged.shown id s there (trimmed.visible alive)).trims trims
  hidden id s' found away := by
    obtain ⟨s, there, trims, stays⟩ := trimmed.origin id s' found
    obtain ⟨short, young⟩ := aged.hidden id s there fun alive => away (stays alive)
    refine ⟨short.trims trims, ?_⟩
    obtain ⟨i, j, rfl⟩ := trims
    exact young

theorem Trimmed.orphans_le (trimmed : Trimmed b names r) : (r.orphans r.visible).length ≤ (b.orphans b.visible).length := by
  have inside : r.orphans r.visible ⊆ b.orphans b.visible := by
    intro id member
    obtain ⟨away, s', found⟩ := mem_orphans.mp member
    obtain ⟨s, there, -, stays⟩ := trimmed.origin id s' found
    exact mem_orphans.mpr ⟨fun alive => away (stays alive), s, there⟩
  exact (List.subperm_of_subset (nodup_orphans r _) inside).length_le

theorem aged_sweepAge (now : Nat) (b : SessionBody P S R D) : Aged now (b.sweepAge now b.visible) := by
  have slot {id : Layout.SlotId} {s : SlotState S R} (found : (b.sweepAge now b.visible).slots.get? id = some s) :
      Short (if id ∈ b.visible then HISTORY_CAP else ORPHAN_HISTORY_CAP) s ∧
        (id ∈ b.visible ∨ now - s.touchedMs ≤ MAX_AGE_MS) := by
    simp only [sweepAge, trimSlots, SortedMap.get?_filter, SortedMap.get?_update, Option.filter_eq_some_iff,
      Option.map_eq_some_iff, decide_eq_true_eq] at found
    obtain ⟨⟨s, -, rfl⟩, young⟩ := found
    exact ⟨⟨length_trimHistory _ _, length_trimHistory _ _⟩, young⟩
  have same : (b.sweepAge now b.visible).visible = b.visible := rfl
  refine ⟨fun id s found alive => ?_, fun id s found away => ?_⟩
  · have short := (slot found).1
    rwa [if_pos (same ▸ alive)] at short
  · obtain ⟨short, young⟩ := slot found
    rw [if_neg (same ▸ away)] at short
    exact ⟨short, young.resolve_left (same ▸ away)⟩

/-- Within the caps nothing is swept. -/
theorem Aged.sweepAge (aged : Aged now b) : b.sweepAge now b.visible = b := by
  have trimmed : (b.trimSlots fun id => if id ∈ b.visible then HISTORY_CAP else ORPHAN_HISTORY_CAP) = b := by
    rw [trimSlots, SortedMap.update_eq_self]
    intro id s found
    by_cases alive : id ∈ b.visible
    · obtain ⟨back, forward⟩ := aged.shown id s found alive
      rw [if_pos alive, SlotState.trim, trimHistory_eq back, trimHistory_eq forward]
    · obtain ⟨⟨back, forward⟩, -⟩ := aged.hidden id s found alive
      rw [if_neg alive, SlotState.trim, trimHistory_eq back, trimHistory_eq forward]
  have young : (b.slots.filter fun id s => id ∈ b.visible ∨ now - s.touchedMs ≤ MAX_AGE_MS) = b.slots := by
    refine SortedMap.filter_eq_self fun id s found => ?_
    by_cases alive : id ∈ b.visible
    · simp [alive]
    · simp [(aged.hidden id s found alive).2]
  simp only [SessionBody.sweepAge, trimmed, young]

theorem sweepOrphans_le (b : SessionBody P S R D) :
    ((b.sweepOrphans b.visible).orphans (b.sweepOrphans b.visible).visible).length ≤ ORPHAN_CAP := by
  by_cases many : ORPHAN_CAP < (b.orphans b.visible).length
  · rw [sweepOrphans, if_pos many, foldl_removeSlot]
    generalize gone : (b.orphans b.visible).length - ORPHAN_CAP = n
    have inside : ({ b with slots := b.slots.filter fun id _ => id ∉ (b.orphans b.visible).take n } : SessionBody P S R D).orphans
        b.visible ⊆ (b.orphans b.visible).drop n := by
      intro id member
      obtain ⟨away, s, found⟩ := mem_orphans.mp member
      simp only [SortedMap.get?_filter, Option.filter_eq_some_iff, decide_eq_true_eq] at found
      have orphan : id ∈ b.orphans b.visible := mem_orphans.mpr ⟨away, s, found.1⟩
      rw [← List.take_append_drop n (b.orphans b.visible), List.mem_append] at orphan
      exact orphan.resolve_left found.2
    have fewer := (List.subperm_of_subset (nodup_orphans _ _) inside).length_le
    rw [List.length_drop] at fewer
    exact fewer.trans (by omega)
  · rw [sweepOrphans, if_neg many]
    exact Nat.le_of_not_lt many

/-! ### A pruned body -/

/-- What pruning gives: some profiles are gone, the ones touched least recently, no more of
them than the cap by count asks for unless the bare body would not fit either, and the caps
by count are kept. -/
structure Pruned (f : Format P S R D) (now : Nat) (b : SessionBody P S R D) (n : Nat) (r : SessionBody P S R D) : Prop where
  beyond : b.overflow ≤ n
  gone : n ≤ b.profilesByLastTouch.length
  trimmed : Trimmed b (b.profilesByLastTouch.take n) r
  popular : r.popular.length ≤ POPULAR_CAP
  aged : Aged now r
  few : (r.orphans r.visible).length ≤ ORPHAN_CAP
  ended : f.fits r = true ∨ (n = b.profilesByLastTouch.length ∧ r.Bare)
  needed : ∀ i, b.overflow ≤ i → i < n → f.fits (b.bare (b.profilesByLastTouch.take i)) = false

theorem overflow_le (b : SessionBody P S R D) : b.overflow ≤ b.profilesByLastTouch.length := by
  have counted := b.profilesWithState_eq
  simp only [overflow, PROFILE_STATE_CAP]
  split at counted <;> omega

theorem sweepOrphans_rest (b : SessionBody P S R D) (visible : List Layout.SlotId) :
    (b.sweepOrphans visible).visible = b.visible ∧ (b.sweepOrphans visible).popular = b.popular := by
  rw [sweepOrphans]
  split
  · rw [foldl_removeSlot]
    exact ⟨rfl, rfl⟩
  · exact ⟨rfl, rfl⟩

/-- The caps by count take nothing off the screen. -/
structure Swept (now : Nat) (b r : SessionBody P S R D) : Prop where
  trimmed : Trimmed b [] r
  aged : Aged now r
  few : (r.orphans r.visible).length ≤ ORPHAN_CAP
  popular : r.popular = b.popular
  screen : r.visible = b.visible

theorem sweep_swept (now : Nat) (b : SessionBody P S R D) : Swept now b (b.sweep now) where
  trimmed := (trimmed_sweepAge now b).trans (trimmed_sweepOrphans (b.sweepAge now b.visible))
  aged := (aged_sweepAge now b).trimmed (trimmed_sweepOrphans (b.sweepAge now b.visible))
  few := sweepOrphans_le (b.sweepAge now b.visible)
  popular := (sweepOrphans_rest (b.sweepAge now b.visible) b.visible).2
  screen := (sweepOrphans_rest (b.sweepAge now b.visible) b.visible).1

theorem prune_pruned (f : Format P S R D) (now : Nat) (b : SessionBody P S R D) :
    ∃ n, Pruned f now b n (b.prune f now) := by
  have first := (trimmed_pruneProfiles b).trans (trimmed_sweepPopular b.pruneProfiles)
  have short := length_sweepPopular b.pruneProfiles
  rw [prune]
  generalize b.pruneProfiles.sweepPopular = c at first short ⊢
  obtain ⟨swept, aged, few, popular, screen⟩ := sweep_swept now c
  obtain ⟨k, fitted⟩ := fitToEnvelope_fitted f.fits (c.sweep now)
  rw [screen] at fitted
  have whole := first.trans swept
  rw [List.append_nil, List.append_nil] at whole
  have order := whole.profilesByLastTouch
  have length := congrArg List.length order
  have beyond := b.overflow_le
  rw [List.length_drop] at length
  have upto (j : Nat) : b.profilesByLastTouch.take b.overflow ++ (c.sweep now).profilesByLastTouch.take j =
      b.profilesByLastTouch.take (b.overflow + j) := by
    rw [order, List.take_add]
  refine ⟨b.overflow + k, Nat.le_add_right .., ?_, ?_, ?_, aged.trimmed fitted.trimmed,
    fitted.trimmed.orphans_le.trans few, ?_, ?_⟩
  · have gone := fitted.gone
    omega
  · rw [← upto]
    exact whole.trans fitted.trimmed
  · rcases fitted.popular with same | none_
    · rw [same, popular]
      exact short
    · rw [none_]
      exact Nat.zero_le _
  · rcases fitted.ended with fit | ⟨all, left⟩
    · exact .inl fit
    · exact .inr ⟨by omega, left⟩
  · intro i later less
    have large := fitted.needed (i - b.overflow) (by omega)
    rw [whole.bare, upto] at large
    rwa [Nat.add_sub_cancel' later] at large

/-! ### A second time -/

theorem pruneProfiles_eq (few : b.profilesWithState ≤ PROFILE_STATE_CAP) : b.pruneProfiles = b := by
  rw [pruneProfiles, if_pos few]

theorem sweepPopular_eq (short : b.popular.length ≤ POPULAR_CAP) : b.sweepPopular = b := by
  rw [sweepPopular, if_neg (Nat.not_lt.mpr short)]

theorem sweep_eq (aged : Aged now b) (few : (b.orphans b.visible).length ≤ ORPHAN_CAP) : b.sweep now = b := by
  rw [sweep, aged.sweepAge, sweepOrphans, if_neg (Nat.not_lt.mpr few)]

/-- There is nothing left to give up. -/
theorem Bare.fitToEnvelope (fits : SessionBody P S R D → Bool) (left : b.Bare) (order : b.profilesByLastTouch = []) :
    b.fitToEnvelope fits b.visible = b := by
  rw [SessionBody.fitToEnvelope]
  cases fit : fits b with
  | true => rfl
  | false =>
    have orphans : b.orphans b.visible = [] := by
      refine List.eq_nil_iff_forall_not_mem.mpr fun id member => ?_
      obtain ⟨away, s, found⟩ := mem_orphans.mp member
      exact away (left.slots id s found).1
    have idle : ∀ cap ∈ rounds HISTORY_CAP, (b.trimSlots fun _ => cap) = b := by
      intro cap _
      rw [trimSlots, SortedMap.update_eq_self]
      intro id s found
      rw [← (left.slots id s found).2]
      simp [SlotState.trim, SlotState.still, trimHistory]
    have rounds := FirstFit.series_idle fits (fun b cap => b.trimSlots fun _ => cap) idle fit
    simp only [orphans, FirstFit.series, FirstFit.Series.next, left.popular, ne_eq, not_true_eq_false, if_false, rounds,
      order, dropProfiles, FirstFit.final, Bool.false_eq_true]

theorem Pruned.again {f : Format P S R D} {n : Nat} (pruned : Pruned f now b n r) : r.prune f now = r := by
  have few := pruned.trimmed.profilesWithState_le pruned.beyond
  rw [prune, pruneProfiles_eq few, sweepPopular_eq pruned.popular]
  rw [sweep_eq pruned.aged pruned.few]
  rcases pruned.ended with fit | ⟨all, left⟩
  · rw [fitToEnvelope, if_pos fit]
  · have order := pruned.trimmed.profilesByLastTouch
    rw [all, List.drop_length] at order
    exact left.fitToEnvelope f.fits order

/-! ### What is on screen -/

/-- The keys of the layouts of the active profile: its own and its window's. Without a profile
they are those of `default`. -/
def ownKeys (active : Str) : List Str :=
  let profile := if active = [] then "default".toList else active
  [profile, windowLayoutKey profile]

/-- The body made only of the active name, its layouts and the path and cursor of their slots. -/
def minimal (plain : S) (b : SessionBody P S R D) : SessionBody P S R D :=
  let own := b.layouts.filter fun key _ => (ownKeys b.active).contains key
  { active := b.active
    layouts := own
    slots := (b.slots.filter fun id _ => id ∈ own.values.flatMap Layout.Node.slotIds).update fun _ s =>
      { path := s.path, cursor := s.cursor, back := [], forward := [], jump := none, sort := plain, columns := [],
        showHidden := false, touchedMs := 0, marks := [], results := none }
    paletteRecent := []
    popular := []
    openPanels := .empty
    panelDocks := .empty }

/-- Pruning keeps what is on screen and makes it fit. -/
structure KeepsScreen (f : Format P S R D) (plain : S) (now : Nat) (b : SessionBody P S R D) : Prop where
  layouts : ∀ key ∈ ownKeys b.active, (b.prune f now).layouts.get? key = b.layouts.get? key
  slots : ∀ key ∈ ownKeys b.active, ∀ tree, b.layouts.get? key = some tree → ∀ id ∈ tree.slotIds,
    ∀ s, b.slots.get? id = some s → ∃ s', (b.prune f now).slots.get? id = some s' ∧ s'.path = s.path ∧ s'.cursor = s.cursor
  profiles : (b.prune f now).profilesWithState ≤ PROFILE_STATE_CAP
  fits : f.fits (b.minimal plain) = true → f.fits (b.prune f now) = true
  again : (b.prune f now).prune f now = b.prune f now

/-- An own layout whose key belongs to another profile is spared: the cap by count leaves its
profile, and the body fits while that profile is still there. -/
def Spared (f : Format P S R D) (b : SessionBody P S R D) : Prop :=
  ∀ key ∈ ownKeys b.active, key ∈ b.layouts.keys → profileOf key ≠ b.active →
    b.overflow ≤ b.profilesByLastTouch.idxOf (profileOf key) ∧
      f.fits (b.bare (b.profilesByLastTouch.take (b.profilesByLastTouch.idxOf (profileOf key)))) = true

theorem prune_keepsScreen_iff (f : Format P S R D) (plain : S) (now : Nat) (b : SessionBody P S R D) :
    KeepsScreen f plain now b ↔
      Spared f b ∧ (f.fits (b.minimal plain) = true → f.fits (b.bare b.profilesByLastTouch) = true) := by
  obtain ⟨n, pruned⟩ := prune_pruned f now b
  have trimmed := pruned.trimmed
  have shorter {names : List Str} (more : b.profilesByLastTouch.take n ⊆ names) (fit : f.fits (b.prune f now) = true) :
      f.fits (b.bare names) = true :=
    decide_eq_true ((f.bare_le trimmed more).trans (of_decide_eq_true fit))
  constructor
  · intro keeps
    refine ⟨fun key own there other => ?_, fun fit => shorter (List.take_subset _ _) (keeps.fits fit)⟩
    obtain ⟨tree, found⟩ := SortedMap.mem_keys.mp there
    have member : profileOf key ∈ b.profilesByLastTouch :=
      mem_profilesByLastTouch.mpr ⟨SessionBody.mem_profiles.mpr ⟨key, tree, found, rfl⟩, other⟩
    have left := (trimmed.get?_layouts.mp ((keeps.layouts key own).trans found)).2
    rw [List.mem_take_iff_idxOf_lt member, Nat.not_lt] at left
    refine ⟨pruned.beyond.trans left, ?_⟩
    rcases pruned.ended with fit | ⟨all, -⟩
    · exact shorter (List.take_subset_take_left _ left) fit
    · have inside := List.idxOf_lt_length_of_mem member
      omega
  · rintro ⟨spared, large⟩
    have left {key : Str} {tree : Layout.Node P} (own : key ∈ ownKeys b.active)
        (found : b.layouts.get? key = some tree) : (b.prune f now).layouts.get? key = some tree := by
      refine trimmed.get?_layouts.mpr ⟨found, fun gone => ?_⟩
      have member := List.mem_of_mem_take gone
      obtain ⟨beyond, fit⟩ := spared key own (SortedMap.mem_keys.mpr ⟨tree, found⟩) (mem_profilesByLastTouch.mp member).2
      rw [pruned.needed _ beyond ((List.mem_take_iff_idxOf_lt member).mp gone)] at fit
      cases fit
    refine ⟨fun key own => ?_, fun key own tree found id inside s there => ?_,
      trimmed.profilesWithState_le pruned.beyond, fun fit => ?_, pruned.again⟩
    · cases found : b.layouts.get? key with
      | some tree => exact left own found
      | none =>
        rw [trimmed.layouts, SortedMap.get?_filter, found]
        rfl
    · obtain ⟨s', here, i, j, rfl⟩ := trimmed.kept id (mem_visible.mpr ⟨key, tree, left own found, inside⟩) s there
      exact ⟨_, here, rfl, rfl⟩
    · rcases pruned.ended with fits | ⟨all, left⟩
      · exact fits
      · rw [all, List.take_length] at trimmed
        rw [trimmed.eq_bare left]
        exact large fit

/-- A leaf, a slot without a history, and the texts of both. -/
def leaf (id : Layout.SlotId) : Layout.Node Unit := .slot id Layout.browser () {}

def visited (touched : Nat) : SlotState Unit Unit :=
  { path := .root ⟨"mem".toList, Scheme.check_mem⟩ none, cursor := 0, back := [], forward := [], jump := none, sort := (), columns := [],
    showHidden := false, touchedMs := touched, marks := [], results := none }

def plainFormat : Format Unit Unit Unit Unit where
  text s := Utf8.encode ('"' :: s ++ ['"'])
  path p := Utf8.encode ('"' :: p.toWire ++ ['"'])
  node n := JsonText.array (n.slotIds.map JsonText.number)
  sort _ := Utf8.encode "null".toList
  search _ := Utf8.encode "null".toList
  dock _ := Utf8.encode "null".toList

theorem five_rising : [("a".toList, leaf 1), ("b".toList, leaf 2), ("c".toList, leaf 3), ("d".toList, leaf 4),
    ("default".toList, leaf 5)].Pairwise fun e e' => e.1 < e'.1 := by decide

theorem slots_rising : [(1, visited 10), (2, visited 20), (3, visited 30), (4, visited 40), (5, visited 1)].Pairwise
    fun e e' => e.1 < e'.1 := by decide

/-- No profile is active, and of the five with a layout `default` was touched least recently. -/
def fiveProfiles : SessionBody Unit Unit Unit Unit where
  active := []
  layouts := ⟨_, five_rising⟩
  slots := ⟨_, slots_rising⟩
  paletteRecent := []
  popular := []
  openPanels := .empty
  panelDocks := .empty

theorem default_swept : ¬ KeepsScreen plainFormat () 50 fiveProfiles := by
  intro keeps
  obtain ⟨n, pruned⟩ := prune_pruned plainFormat 50 fiveProfiles
  have beyond : 1 ≤ n := pruned.beyond
  have first : fiveProfiles.profilesByLastTouch.head? = some "default".toList := by decide
  have found : fiveProfiles.layouts.get? "default".toList = some (leaf 5) := by decide
  have stays := (keeps.layouts "default".toList (by decide)).trans found
  obtain ⟨rest, order⟩ := List.head?_eq_some_iff.mp first
  obtain ⟨m, rfl⟩ := Nat.exists_eq_add_of_le' beyond
  refine (pruned.trimmed.get?_layouts.mp stays).2 ?_
  rw [order, List.take_succ_cons]
  exact List.mem_cons_self

end SessionBody

end Norte.Saved
