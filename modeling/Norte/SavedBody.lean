import Mathlib.Data.Char
import Mathlib.Data.List.Dedup
import Mathlib.Data.List.Sort
import Norte.JsonText
import Norte.LayoutTree
import Norte.SortedMap
import Norte.VPath

/-! The document of a saved screen with all its fields: its caps, its text, which profiles
have state in it and which of them was touched least recently. What the caps never read is
a parameter: the parameters of a slot, its order, its saved search and the side of a panel. -/
namespace Norte.Saved

def HISTORY_CAP : Nat := 64

def ORPHAN_CAP : Nat := 128

def ORPHAN_HISTORY_CAP : Nat := 8

def PROFILE_STATE_CAP : Nat := 4

def POPULAR_CAP : Nat := 50

def MAX_AGE_MS : Nat := 30 * 24 * 60 * 60 * 1000

def SESSION_BODY_MAX : Nat := 1024 * 1024

def WINDOW_LAYOUT_SUFFIX : Str := "@window".toList

def windowLayoutKey (profile : Str) : Str := profile ++ WINDOW_LAYOUT_SUFFIX

/-- The profile a key of the layouts belongs to. -/
def profileOf (key : Str) : Str :=
  if WINDOW_LAYOUT_SUFFIX <:+ key then key.take (key.length - WINDOW_LAYOUT_SUFFIX.length) else key

@[simp] theorem profileOf_windowLayoutKey (profile : Str) : profileOf (windowLayoutKey profile) = profile := by
  simp [profileOf, windowLayoutKey]

structure SlotState (S R : Type) where
  path : VPath
  cursor : Nat
  back : List VPath
  forward : List VPath
  jump : Option VPath
  sort : S
  columns : List Str
  showHidden : Bool
  touchedMs : Nat
  marks : List VPath
  results : Option R
  deriving DecidableEq

structure PopularEntry where
  path : VPath
  visits : Nat
  last : Nat
  deriving DecidableEq

structure SessionBody (P S R D : Type) where
  active : Str
  layouts : SortedMap Str (Layout.Node P)
  slots : SortedMap Layout.SlotId (SlotState S R)
  paletteRecent : List Str
  popular : List PopularEntry
  openPanels : SortedMap Str (List Str)
  panelDocks : SortedMap Str (SortedMap Str D)

variable {P S R D : Type}

/-- How `serde_json` writes the values that are not made of others here. -/
structure Format (P S R D : Type) where
  text : Str → Bytes
  path : VPath → Bytes
  node : Layout.Node P → Bytes
  sort : S → Bytes
  search : R → Bytes
  dock : D → Bytes

namespace Format

open JsonText

variable (f : Format P S R D)

def field (name : String) (value : Bytes) : Bytes := member (f.text name.toList) value

def paths (ps : List VPath) : Bytes := array (ps.map f.path)

def texts (ts : List Str) : Bytes := array (ts.map f.text)

/-- A slot; the jump point, the marks and the saved search are left out where there are none. -/
def slot (s : SlotState S R) : Bytes :=
  object <|
    [f.field "path" (f.path s.path), f.field "cursor" (number s.cursor)] ++
    [f.field "back" (f.paths s.back), f.field "forward" (f.paths s.forward)] ++
    (s.jump.toList.map fun p => f.field "jump" (f.path p)) ++
    [f.field "sort" (f.sort s.sort), f.field "columns" (f.texts s.columns),
      f.field "show_hidden" (bool s.showHidden), f.field "touched_ms" (number s.touchedMs)] ++
    (if s.marks ≠ [] then [f.field "marks" (f.paths s.marks)] else []) ++
    (s.results.toList.map fun r => f.field "results" (f.search r))

def popular (e : PopularEntry) : Bytes :=
  object [f.field "path" (f.path e.path), f.field "visits" (number e.visits), f.field "last" (number e.last)]

/-- A map from texts, and one from numbers: the keys of an object are texts. -/
def map {V : Type} (value : V → Bytes) (m : SortedMap Str V) : Bytes :=
  object (m.entries.map fun e => member (f.text e.1) (value e.2))

def slots (m : SortedMap Layout.SlotId (SlotState S R)) : Bytes :=
  object (m.entries.map fun e => member (f.text (Nat.toDigits 10 e.1)) (f.slot e.2))

/-- The body: what is empty is left out of its three last parts. The members stand as in the
struct; `serde_json` sorts them by name, which changes no length. -/
def body (b : SessionBody P S R D) : Bytes :=
  object <|
    [f.field "active" (f.text b.active)] ++ [f.field "layouts" (f.map f.node b.layouts)] ++
    [f.field "slots" (f.slots b.slots)] ++ [f.field "palette_recent" (f.texts b.paletteRecent)] ++
    (if b.popular ≠ [] then [f.field "popular" (array (b.popular.map f.popular))] else []) ++
    (if b.openPanels.entries ≠ [] then [f.field "open_panels" (f.map f.texts b.openPanels)] else []) ++
    (if b.panelDocks.entries ≠ [] then [f.field "panel_docks" (f.map (f.map f.dock) b.panelDocks)] else [])

def fits (b : SessionBody P S R D) : Bool := (f.body b).length ≤ SESSION_BODY_MAX

end Format

namespace SessionBody

variable (b : SessionBody P S R D)

/-- The slots some layout mentions. -/
def visible : List Layout.SlotId := b.layouts.values.flatMap Layout.Node.slotIds

/-- The touch of a layout: that of its slot touched last. -/
def lastTouch (tree : Layout.Node P) : Nat :=
  ((tree.slotIds.filterMap b.slots.get?).map SlotState.touchedMs).foldl max 0

/-- The profiles with a layout, each once: the window's layout counts as its profile's. -/
def profiles : List Str := (b.layouts.keys.map profileOf).dedup

/-- The touch of a profile: that of its layout touched last. -/
def touch (profile : Str) : Nat :=
  ((b.layouts.filter fun key _ => profileOf key = profile).values.map b.lastTouch).foldl max 0

/-- `profiles_with_state`. -/
def profilesWithState : Nat := b.profiles.length

/-- Touched earlier, or at the same time with a name that comes first. -/
def Earlier (p q : Str) : Prop := b.touch p < b.touch q ∨ (b.touch p = b.touch q ∧ p ≤ q)

instance : DecidableRel b.Earlier := fun p q =>
  inferInstanceAs (Decidable (b.touch p < b.touch q ∨ (b.touch p = b.touch q ∧ p ≤ q)))

/-- `profiles_by_last_touch`: the active one is not on this list. -/
def profilesByLastTouch : List Str := (b.profiles.filter (· ≠ b.active)).insertionSort b.Earlier

end SessionBody

end Norte.Saved
