import Mathlib.Algebra.Order.Group.Nat
import Mathlib.Logic.Function.Iterate
import Norte.FirstFit
import Norte.SavedBody

/-! `SessionBody::prune`: the caps by count, then what is given up until the text fits the
envelope. -/
namespace Norte.Saved

def PopularEntry.less (e e' : PopularEntry) : Bool := e.visits < e'.visits || (e.visits = e'.visits && e.last < e'.last)

namespace Popular

/-- The first with the fewest visits and, on a tie, the one visited longest ago. -/
def victim (es : List PopularEntry) : Nat := es.findIdx fun e => es.all fun e' => !e'.less e

def swapRemove {α : Type} (es : List α) (i : Nat) : List α :=
  match es.getLast? with
  | some last => (es.set i last).dropLast
  | none => []

def expels (es : List PopularEntry) : List PopularEntry := swapRemove es (victim es)

/-- A repeated path keeps its first appearance; what goes over the cap is expelled. -/
def fromEntries (entries : List PopularEntry) : List PopularEntry :=
  let kept := entries.foldl (fun kept e => if kept.any fun x => x.path = e.path then kept else kept ++ [e]) []
  expels^[kept.length - POPULAR_CAP] kept

theorem length_swapRemove {α : Type} (es : List α) (i : Nat) : (swapRemove es i).length = es.length - 1 := by
  cases last : es.getLast? with
  | none => simp [swapRemove, List.getLast?_eq_none_iff.mp last]
  | some l => simp [swapRemove, last]

theorem length_expels (n : Nat) (es : List PopularEntry) : (expels^[n] es).length = es.length - n := by
  induction n generalizing es with
  | zero => rfl
  | succ n ih =>
    rw [Function.iterate_succ_apply, ih, expels, length_swapRemove]
    omega

theorem length_fromEntries (es : List PopularEntry) : (fromEntries es).length ≤ POPULAR_CAP := by
  simp only [fromEntries, length_expels]
  omega

end Popular

variable {P S R D : Type}

/-- The most recent entries, which are the last ones. -/
def trimHistory (cap : Nat) (h : List VPath) : List VPath := h.drop (h.length - cap)

def SlotState.trim (cap : Nat) (s : SlotState S R) : SlotState S R :=
  { s with back := trimHistory cap s.back, forward := trimHistory cap s.forward }

namespace SessionBody

variable (b : SessionBody P S R D)

/-- The layouts of a profile, both of them, and the body without them. -/
def removeProfile (profile : Str) : List (Layout.Node P) × SessionBody P S R D :=
  ((b.layouts.filter fun key _ => profileOf key = profile).values,
    { b with
      layouts := b.layouts.filter fun key _ => profileOf key ≠ profile
      openPanels := b.openPanels.remove profile })

def removeSlot (id : Layout.SlotId) : SessionBody P S R D := { b with slots := b.slots.remove id }

/-- The slots that departed layouts mention, unless one that is left mentions them too. -/
def removeDead (trees : List (Layout.Node P)) : SessionBody P S R D :=
  ((trees.flatMap Layout.Node.slotIds).filter fun id => id ∉ b.visible).foldl removeSlot b

/-- The layouts of some profiles, and the body without them. -/
def removeProfiles : List Str → List (Layout.Node P) → SessionBody P S R D → List (Layout.Node P) × SessionBody P S R D
  | [], trees, b => (trees, b)
  | name :: names, trees, b => removeProfiles names (trees ++ (b.removeProfile name).1) (b.removeProfile name).2

def pruneProfiles : SessionBody P S R D :=
  if b.profilesWithState ≤ PROFILE_STATE_CAP then b
  else
    let overflow := b.profilesWithState - PROFILE_STATE_CAP
    let removed := removeProfiles (b.profilesByLastTouch.take overflow) [] b
    removed.2.removeDead removed.1

/-- The slots no layout mentions, the one touched least recently first. -/
def orphans (visible : List Layout.SlotId) : List Layout.SlotId :=
  (((b.slots.entries.filter fun e => e.1 ∉ visible).map fun e => (e.2.touchedMs, e.1)).insertionSort
    fun o o' => o.1 < o'.1 ∨ (o.1 = o'.1 ∧ o.2 ≤ o'.2)).map Prod.snd

def trimSlots (cap : Layout.SlotId → Nat) : SessionBody P S R D :=
  { b with slots := b.slots.update fun id s => s.trim (cap id) }

/-- One round of the loop over the histories: the cap halved, down to zero. -/
def rounds (cap : Nat) : List Nat := if 0 < cap then cap / 2 :: rounds (cap / 2) else []

/-- The last loop: a name without a layout is passed over without a look. -/
def dropProfiles (fits : SessionBody P S R D → Bool) :
    List Str → SessionBody P S R D → FirstFit.Series (SessionBody P S R D)
  | [], b => .ok b
  | name :: names, b =>
    let removed := b.removeProfile name
    if removed.1.isEmpty then dropProfiles fits names removed.2
    else
      let left := removed.2.removeDead removed.1
      if fits left then .error left else dropProfiles fits names left

def fitToEnvelope (fits : SessionBody P S R D → Bool) (visible : List Layout.SlotId) : SessionBody P S R D :=
  if fits b then b
  else
    FirstFit.final <|
      (FirstFit.series fits removeSlot (b.orphans visible) b).next fun b =>
      (if b.popular ≠ [] then FirstFit.series fits (fun b _ => { b with popular := [] }) [()] b else .ok b).next fun b =>
      (FirstFit.series fits (fun b cap => b.trimSlots fun _ => cap) (rounds HISTORY_CAP) b).next fun b =>
      dropProfiles fits b.profilesByLastTouch b

/-- Each history down to its cap, and the slots no layout mentions that are too old. -/
def sweepAge (now : Nat) (visible : List Layout.SlotId) : SessionBody P S R D :=
  let trimmed := b.trimSlots fun id => if id ∈ visible then HISTORY_CAP else ORPHAN_HISTORY_CAP
  { trimmed with slots := trimmed.slots.filter fun id s => id ∈ visible ∨ now - s.touchedMs ≤ MAX_AGE_MS }

/-- The slots no layout mentions that are too many. -/
def sweepOrphans (visible : List Layout.SlotId) : SessionBody P S R D :=
  if ORPHAN_CAP < (b.orphans visible).length then
    ((b.orphans visible).take ((b.orphans visible).length - ORPHAN_CAP)).foldl removeSlot b
  else b

def sweep (now : Nat) : SessionBody P S R D := (b.sweepAge now b.visible).sweepOrphans b.visible

def sweepPopular : SessionBody P S R D :=
  if POPULAR_CAP < b.popular.length then { b with popular := Popular.fromEntries b.popular } else b

def prune (f : Format P S R D) (now : Nat) : SessionBody P S R D :=
  let b := b.pruneProfiles.sweepPopular
  (b.sweep now).fitToEnvelope f.fits b.visible

end SessionBody

end Norte.Saved
