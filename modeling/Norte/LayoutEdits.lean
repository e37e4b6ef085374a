import Mathlib.Algebra.Ring.Nat
import Mathlib.Data.List.Basic
import Norte.LayoutTree

/-! The edits of the window tree: splitting, docking, moving, flipping and closing slots, the
tab groups, and the sizes of a split. Each one returns a new tree and leaves the old one as
it was; the fractions of a border drag are 32-bit floats. -/
namespace Norte.Layout

/-- A border a panel docks against. -/
inductive Edge where
  | left
  | right
  | top
  | bottom
  deriving DecidableEq, Repr

def Edge.axis : Edge → Dir
  | .left | .right => .horizontal
  | .top | .bottom => .vertical

def Edge.isFront : Edge → Bool
  | .left | .top => true
  | .right | .bottom => false

inductive DropZone where
  | left
  | right
  | top
  | bottom
  | center
  deriving DecidableEq, Repr

def DropZone.edge : DropZone → Option Edge
  | .left => some .left
  | .right => some .right
  | .top => some .top
  | .bottom => some .bottom
  | .center => none

def u16Max : Nat := 65535

/-- `u16::try_from(n).unwrap_or(u16::MAX)`. -/
def toU16 (n : Nat) : Nat := min n u16Max

/-- `Vec::resize`. -/
def resize (sizes : List Size) (length : Nat) (filler : Size) : List Size :=
  sizes.take length ++ List.replicate (length - sizes.length) filler

variable {P : Type}

/-- A leaf that is a panel: neither a listing nor a chrome row. -/
def esPanel : Node P → Bool
  | .slot _ kind _ _ => !(kind = "browser" || kind = "status" || kind = "tasks")
  | _ => false

/-- A chrome row: the status bar or the tasks strip. -/
def esChrome : Node P → Bool
  | .slot _ kind _ _ => kind = "status" || kind = "tasks"
  | _ => false

/-- A lone panel, or a tab group made only of panels. -/
def isAGroupOfPanes : Node P → Bool
  | .tabs children _ => !children.isEmpty && children.all esPanel
  | other => esPanel other

/-- The weights among some sizes. -/
def weightsOf (sizes : List Size) : List Nat :=
  sizes.filterMap fun size =>
    match size with
    | .weight share => some share
    | _ => none

/-- The size of a new child among its siblings: a weight is scaled by their average. -/
def weightBetweenHermanos (size : Size) (hermanos : List Size) : Size :=
  match size with
  | .weight w =>
    let weights := weightsOf hermanos
    if weights = [] then size
    else
      let average := (weights.sum + weights.length / 2) / weights.length
      .weight (toU16 (max (average * w) 1))
  | _ => size

/-! Dragging a border, in 32-bit floats. -/

/-- `f32::clamp`: a value that is no number stays what it is. -/
def clamp (v least most : Float32) : Float32 :=
  let v := if v < least then least else v
  if most < v then most else v

/-- `f32::max`. -/
def fmax (a b : Float32) : Float32 := if a < b then b else a

/-- Rounding and clipping to what a size can hold. -/
def whole (v : Float32) : Nat := (clamp v.round 1.0 (Float32.ofNat u16Max)).toUInt16.toNat

def weightFino : Nat := 100
def margin : Float32 := 0.05

/-- The weights of a whole split multiplied by one factor. -/
def scaled (factor : Nat) (sizes : List Size) : List Size :=
  sizes.map fun size =>
    match size with
    | .weight w => .weight (toU16 (w * factor))
    | other => other

/-- The sizes of a split with the border between `pos` and `pos + 1` at a fraction of the
cells the two occupy. -/
def dragPair (sizes : List Size) (pos : Nat) (frac : Float32) (pairCells : Nat) : List Size :=
  let frac := clamp frac margin (1.0 - margin)
  match sizes[pos]?, sizes[pos + 1]? with
  | some size, some next =>
    let cells := Float32.ofNat pairCells
    let leftCells := clamp (cells * frac).round 1.0 (fmax (cells - 1.0) 1.0)
    match size, next with
    | .fixed _, .fixed _ => (sizes.set pos (.fixed (whole leftCells))).set (pos + 1) (.fixed (whole (cells - leftCells)))
    | .fixed _, _ => sizes.set pos (.fixed (whole leftCells))
    | _, .fixed _ => sizes.set (pos + 1) (.fixed (whole (cells - leftCells)))
    | .weight wa, .weight wb =>
      let sum := wa + wb
      let factor := max ((weightFino + max sum 1 - 1) / max sum 1) 1
      let ns := if 1 < factor then scaled factor sizes else sizes
      let total := Float32.ofNat (toU16 (sum * factor))
      let left := clamp (total * frac).round 1.0 (fmax (total - 1.0) 1.0)
      (ns.set pos (.weight (whole left))).set (pos + 1) (.weight (whole (total - left)))
    | _, _ => sizes
  | _, _ => sizes

namespace Node

/-- A split of equally weighted children. -/
def splitOf (dir : Dir) (children : List (Node P)) : Node P :=
  split dir children (List.replicate children.length (.weight 1))

/-- Is this node slot `id` itself? -/
def isSlotOf (id : SlotId) : Node P → Bool
  | slot i .. => i = id
  | _ => false

/-- The first child for which the recursion returns something, with its position. -/
def firstSome : List (Option α) → Option (Nat × α)
  | [] => none
  | some a :: _ => some (0, a)
  | none :: rest => (firstSome rest).map fun (i, a) => (i + 1, a)

/-- Where among the children slot `id` is. -/
def position (id : SlotId) (children : List (Node P)) : Option Nat := children.findIdx? (contains id)

/-- Splits slot `id` along `dir`, with `new` next to it. A weighted slot of a split that
already runs on `dir` gets it as a sibling. -/
def splitSlot (id : SlotId) (dir : Dir) (new : Node P) : Node P → Node P := walk fun self inside =>
  match self with
  | slot i .. => if i = id then splitOf dir [self, new] else self
  | split d children sizes =>
    match (if d = dir then children.findIdx? (isSlotOf id) else none) with
    | some i =>
      match sizes.getD i (.weight 1) with
      | .weight weight =>
        split d (children.insertIdx (i + 1) new)
          ((resize sizes children.length (.weight 1)).insertIdx (i + 1) (.weight weight))
      | _ => split d inside sizes
    | none => split d inside sizes
  | tabs _ active => tabs inside active

/-- The chrome rows at the end of a split. -/
def trailing (children : List (Node P)) : Nat := (children.reverse.takeWhile esChrome).length

/-- The size of a group a panel joins: the largest its panels ask for. -/
def groupSize (actual size : Size) (sizes : List Size) : Size :=
  match actual, size with
  | .fixed a, .fixed b => .fixed (max a b)
  | .fixed _, .weight _ => weightBetweenHermanos size sizes
  | _, _ => actual

/-- The tabs of a panel, or of a group of panels, and a new one up front. -/
def groupWith (c new : Node P) : List (Node P) :=
  match c with
  | tabs panels _ => panels ++ [new]
  | other => [other, new]

/-- The deepest split around `anchor` that runs on the axis of `edge` takes `new`. -/
def dockInner (anchor : SlotId) (edge : Edge) (size : Size) (new : Node P) (agrupar : Bool) :
    Node P → Option (Node P) := walk fun self inside => do
  let pos ← position anchor self.children
  match inside.getD pos none with
  | some changed => some (self.withChild pos changed)
  | none =>
    match self with
    | split dir children sizes =>
      if dir ≠ edge.axis then none
      else
        let at_ := if edge.isFront then 0 else children.length - trailing children
        let neighbor := if edge.isFront then some 0 else if at_ = 0 then none else some (at_ - 1)
        let joined : Option (Nat × Node P) := do
          let v ← neighbor
          let c ← children[v]?
          if agrupar && esPanel new && isAGroupOfPanes c then some (v, c) else none
        match joined with
        | some (v, c) =>
          let group := groupWith c new
          let ns :=
            match sizes[v]? with
            | some actual => sizes.set v (groupSize actual size sizes)
            | none => sizes
          some (split dir (children.set v (tabs group (group.length - 1))) ns)
        | none =>
          some (split dir (children.insertIdx at_ new)
            (sizes.insertIdx (min at_ sizes.length) (weightBetweenHermanos size sizes)))
    | _ => none

/-- `new` and `self` side by side in a split of their own. -/
def wrapped (edge : Edge) (size rest : Size) (new self : Node P) : Node P :=
  if edge.isFront then split edge.axis [new, self] [size, rest] else split edge.axis [self, new] [rest, size]

def dockCon (anchor : SlotId) (edge : Edge) (size : Size) (new : Node P) (agrupar : Bool) (self : Node P) : Node P :=
  if !self.contains anchor then self
  else (dockInner anchor edge size new agrupar self).getD (wrapped edge size (.weight 1) new self)

/-- Docks `new` against `edge` of the layout `anchor` lives in. -/
def dock (anchor : SlotId) (edge : Edge) (size : Size) (new self : Node P) : Node P :=
  dockCon anchor edge size new false self

/-- A panel that arrives where there is one already joins it as a tab. -/
def dockGrouped (anchor : SlotId) (edge : Edge) (size : Size) (new self : Node P) : Node P :=
  dockCon anchor edge size new true self

/-- The tab of this very node that contains `id`, closed; a group left with one tab dissolves
into it. -/
def closeTabHere (id : SlotId) : Node P → Option (Node P)
  | tabs children active =>
    if children.length ≤ 1 then none
    else
      match position id children with
      | some pos =>
        match children.eraseIdx pos with
        | [only] => some only
        | newOnes => some (tabs newOnes (min (if pos < active then active - 1 else active) (newOnes.length - 1)))
      | none => none
  | _ => none

/-- Closes the tab that contains `id`, in the innermost group that can. -/
def closeTab (id : SlotId) : Node P → Option (Node P) := walk fun self inside =>
  match firstSome inside with
  | some (i, changed) => some (self.withChild i changed)
  | none => closeTabHere id self

/-- The child of this very node that contains `id`, removed. -/
def closeSlotHere (id : SlotId) (self : Node P) : Option (Node P) := do
  let pos ← position id self.children
  if self.children.length ≤ 1 then none
  else
    match self with
    | split dir children sizes =>
      match children.eraseIdx pos with
      | [only] => some only
      | nc => some (split dir nc (sizes.eraseIdx pos))
    | tabs .. => self.closeTab id
    | slot .. => none

/-- Closes slot `id`: a split or a group left with one child dissolves into it. -/
def closeSlot (id : SlotId) : Node P → Option (Node P) := walk fun self inside =>
  match firstSome inside with
  | some (i, changed) => some (self.withChild i changed)
  | none => closeSlotHere id self

/-- The same tree with slot `id` put into a group of one tab. -/
def wrapInTabs (id : SlotId) : Node P → Node P := walk fun self inside =>
  match self with
  | tabs children active => if children.any (isSlotOf id) then self else tabs inside active
  | split dir _ sizes => split dir inside sizes
  | slot i .. => if i = id then tabs [self] 0 else self

/-- `new` as the tab after the one that contains `id`, and the active one. -/
def insertTabHere (id : SlotId) (new : Node P) : Node P → Option (Node P)
  | tabs children _ => do
    let pos ← position id children
    some (tabs (children.insertIdx (pos + 1) new) (pos + 1))
  | _ => none

/-- The innermost group around `id` takes `new`. -/
def insertTabNear (id : SlotId) (new : Node P) : Node P → Option (Node P) := walk fun self inside =>
  match firstSome inside with
  | some (i, changed) => some (self.withChild i changed)
  | none => insertTabHere id new self

/-- Opens `new` as a tab next to `id`, and leaves it active. -/
def addTab (id : SlotId) (new self : Node P) : Node P :=
  (insertTabNear id new (self.wrapInTabs id)).getD (self.wrapInTabs id)

/-- The slot itself, or the tab group it is a direct child of. -/
def isUnitOf (target : SlotId) : Node P → Bool
  | slot id .. => id = target
  | tabs children _ => children.any (isSlotOf target)
  | split .. => false

/-- `node` as a sibling of the unit of `target`, child `pos` of a split that runs on the axis of
`edge` and has no chrome. -/
def siblingBeside (target : SlotId) (edge : Edge) (node self : Node P) (pos : Nat) : Option (Node P) :=
  match self with
  | split dir children sizes =>
    if dir = edge.axis && !children.any esChrome && children[pos]?.any (isUnitOf target) then
      let tam :=
        match sizes.getD pos (.weight 1) with
        | .weight weight => .weight weight
        | _ => weightBetweenHermanos (.weight 1) sizes
      let at_ := if edge.isFront then pos else pos + 1
      some (split dir (children.insertIdx at_ node) ((resize sizes children.length (.weight 1)).insertIdx at_ tam))
    else none
  | _ => none

/-- `node` beside `edge` of the unit of `target`. -/
def placeBeside (target : SlotId) (edge : Edge) (node : Node P) : Node P → Option (Node P) := walk fun self inside =>
  if self.isUnitOf target then some (wrapped edge (.weight 1) (.weight 1) node self)
  else (position target self.children).bind fun pos =>
    match siblingBeside target edge node self pos with
    | some placed => some placed
    | none => (inside.getD pos none).bind fun changed => some (self.withChild pos changed)

/-- Moves slot `id` next to `target`: on its `zone` side, or as its tab. -/
def moveSlot (id target : SlotId) (zone : DropZone) (self : Node P) : Node P :=
  let movable (s : SlotId) : Bool := (self.findSlot s).any fun n => !esChrome n
  if id = target || !movable id || !movable target then self
  else
    match self.findSlot id with
    | none => self
    | some node =>
      if zone = .center && (self.findSlot target).all (fun t => esPanel t ≠ esPanel node) then self
      else
        match self.closeSlot id with
        | none => self
        | some rest =>
          match zone.edge with
          | none => addTab target node rest
          | some edge => (placeBeside target edge node rest).getD self

/-- The body of a layout, and the chrome rows that stay at the bottom. -/
def bodyAndChrome (rest : Node P) : Node P × List (Node P × Size) :=
  match rest with
  | split .vertical children sizes =>
    let n := trailing children
    if n = 0 || n = children.length then (rest, [])
    else
      let cut := children.length - n
      let body :=
        match children.take cut with
        | [only] => only
        | several => split .vertical several (sizes.take cut)
      (body, (children.drop cut).zip (sizes.drop cut))
  | _ => (rest, [])

/-- The node on the edge of the body. -/
def onEdge (edge : Edge) (size : Size) (node body : Node P) : Node P :=
  match body with
  | split dir children sizes =>
    if dir = edge.axis then
      let at_ := if edge.isFront then 0 else children.length
      split dir (children.insertIdx at_ node) (sizes.insertIdx at_ (weightBetweenHermanos size sizes))
    else wrapped edge size (.weight 1) node body
  | other => wrapped edge size (.weight 1) node other

/-- The body with the chrome rows back under it. -/
def withChrome (body : Node P) (chrome : List (Node P × Size)) : Node P :=
  if chrome = [] then body
  else
    match body with
    | split .vertical children sizes =>
      split .vertical (children ++ chrome.map Prod.fst) (sizes ++ chrome.map Prod.snd)
    | other => split .vertical (other :: chrome.map Prod.fst) (.weight 1 :: chrome.map Prod.snd)

/-- Moves slot `id` to the whole `edge` of the body. -/
def dockOuter (id : SlotId) (edge : Edge) (size : Size) (self : Node P) : Node P :=
  match (self.findSlot id).filter fun n => !esChrome n with
  | none => self
  | some node =>
    match self.closeSlot id with
    | none => self
    | some rest =>
      let panesLeft := (rest.slotIds.filter fun s => (rest.findSlot s).any fun n => !esChrome n).length
      if panesLeft = 0 then self
      else withChrome (onEdge edge size node (bodyAndChrome rest).1) (bodyAndChrome rest).2

/-- What searching for what to flip returns. -/
inductive Flip (P : Type) where
  | done (tree : Node P)
  | refused
  | noThis

/-- Is child `i` weighted? -/
def weighs (sizes : List Size) (i : Nat) : Bool :=
  match sizes[i]? with
  | some (.weight _) | none => true
  | _ => false

/-- `while from > 0 && weighs(from - 1) { from -= 1 }`. -/
def runFrom (weighs : Nat → Bool) : Nat → Nat
  | 0 => 0
  | n + 1 => if weighs n then runFrom weighs n else n + 1

/-- `while until < len && weighs(until) { until += 1 }`, for the `left` indices up to `len`. -/
def runUntil (weighs : Nat → Bool) (until_ : Nat) : Nat → Nat
  | 0 => until_
  | left + 1 => if weighs until_ then runUntil weighs (until_ + 1) left else until_

def Dir.flip : Dir → Dir
  | .horizontal => .vertical
  | .vertical => .horizontal

/-- Flips the run of weighted siblings around child `pos` of a split. -/
def flipRun (dir : Dir) (children : List (Node P)) (sizes : List Size) (pos : Nat) : Flip P :=
  if !weighs sizes pos then .refused
  else
    let first := runFrom (weighs sizes) pos
    let last := runUntil (weighs sizes) (pos + 1) (children.length - (pos + 1))
    if last - first < 2 then .refused
    else if first = 0 && last = children.length then .done (split (Dir.flip dir) children sizes)
    else
      let howMuch (i : Nat) : Nat :=
        match sizes[i]? with
        | some (.weight w) => w
        | _ => 1
      let sizeAt (i : Nat) : Size := sizes.getD i (.weight 1)
      let total := toU16 (((List.range' first (last - first)).map howMuch).sum)
      let streak := split (Dir.flip dir) ((children.drop first).take (last - first))
        ((List.range' first (last - first)).map sizeAt)
      .done (split dir (children.take first ++ streak :: children.drop last)
        ((List.range first).map sizeAt ++
          .weight (max total 1) :: (List.range' last (children.length - last)).map sizeAt))

/-- The run around child `pos` of this very node; a layout with chrome is not flipped. -/
def flipHere (self : Node P) (pos : Nat) : Flip P :=
  match self with
  | split dir children sizes => if children.any esChrome then .refused else flipRun dir children sizes pos
  | _ => .noThis

def flipInner (id : SlotId) : Node P → Flip P := walk fun self inside =>
  match position id self.children with
  | none => .noThis
  | some pos =>
    match inside.getD pos .noThis with
    | .done changed => .done (self.withChild pos changed)
    | .refused => .refused
    | .noThis => flipHere self pos

/-- Flips the innermost layout that contains `id`. -/
def flip (id : SlotId) (self : Node P) : Node P :=
  match self.flipInner id with
  | .done n => n
  | .refused | .noThis => self

/-- The first child that contains `id`, is no slot and is changed by the recursion. -/
def changedInside [DecidableEq P] (id : SlotId) (children inside : List (Node P)) : Option (Nat × Node P) :=
  firstSome (List.zipWith (fun c changed => if c.contains id && !c.isSlot && changed ≠ c then some changed else none)
    children inside)

/-- Applies `f` to the sizes of the split that contains `id`. -/
def mapSplitOf [DecidableEq P] (id : SlotId) (f : List Size → Nat → List Size) : Node P → Node P := walk fun self inside =>
  match changedInside id self.children inside with
  | some (i, changed) => self.withChild i changed
  | none =>
    match self with
    | split dir children sizes =>
      match position id children with
      | some pos => split dir children (f sizes pos)
      | none => self
    | _ => self

/-- Applies `f` to the group that contains `id`. -/
def mapTabsOf [DecidableEq P] (id : SlotId) (f : List (Node P) → Nat → List (Node P) × Nat) : Node P → Node P :=
  walk fun self inside =>
    match changedInside id self.children inside with
    | some (i, changed) => self.withChild i changed
    | none =>
      match self with
      | tabs children _ =>
        match position id children with
        | some pos => tabs (f children pos).1 (f children pos).2
        | none => self
      | _ => self

/-- Changes the size of the child that contains `id`: a weight by one, a fixed size by two. -/
def resizeBy [DecidableEq P] (id : SlotId) (delta : Int) (self : Node P) : Node P :=
  self.mapSplitOf id fun sizes pos =>
    match sizes[pos]? with
    | some (.weight w) => sizes.set pos (.weight (max 1 (min 10 (w + delta))).toNat)
    | some (.fixed n) => sizes.set pos (.fixed (max 2 (min 100 (n + delta * 2))).toNat)
    | some .auto | none => sizes

def equalize [DecidableEq P] (id : SlotId) (self : Node P) : Node P :=
  self.mapSplitOf id fun sizes _ => sizes.map fun size =>
    match size with
    | .weight _ => .weight 1
    | other => other

/-- The border between `a` and `b`, in the split where they are neighbours. -/
def dragBorderBetween (a b : SlotId) (frac : Float32) (pairCells : Nat) : Node P → Node P := walk fun self inside =>
  match position a self.children with
  | none => self
  | some pos =>
    if self.children[pos]?.any (contains b) then self.withChild pos (inside.getD pos self)
    else
      match self with
      | split dir children sizes =>
        if children[pos + 1]?.any (contains b) then split dir children (dragPair sizes pos frac pairCells) else self
      | _ => self

/-- Slot `id` made visible: its tab is active in every group along the path. -/
def reveal (id : SlotId) : Node P → Node P := walk fun self inside =>
  match self with
  | slot .. => self
  | split dir children sizes =>
    split dir (List.zipWith (fun c shown => if c.contains id then shown else c) children inside) sizes
  | tabs children _ =>
    match position id children with
    | none => self
    | some pos => tabs (children.set pos (inside.getD pos self)) pos

/-- Leaves tab `i` of the group that contains `id` active. -/
def setActiveFor [DecidableEq P] (id : SlotId) (i : Nat) (self : Node P) : Node P :=
  self.mapTabsOf id fun children _ => (children, min i (children.length - 1))

/-- Moves the tab that contains `id` some positions. -/
def moveTab [DecidableEq P] (id : SlotId) (delta : Int) (self : Node P) : Node P :=
  self.mapTabsOf id fun children pos =>
    let dest := min ((pos : Int) + delta).toNat (children.length - 1)
    match children[pos]? with
    | some who => ((children.eraseIdx pos).insertIdx dest who, dest)
    | none => (children, dest)

end Node

end Norte.Layout
