import Norte.CompareCascade
import Norte.StackWalk

/-! The comparison of two trees, directory by directory. Both listings of a directory are
indexed and merged; what meets is hydrated and decided, and the directories to go into are
put on a stack. The cancellation token is left out: the runs modelled are the ones nobody cancels. -/
namespace Norte.Compare

open Sync MergeJoin

def COMPARE_MAX_DIR_ENTRIES : Nat := 200000

/-- What a provider answers. A listing and a content arrive piece by piece, and each piece
can fail. -/
structure Provider where
  list : VPath → Option (List (Option Entry))
  stat : VPath → Option Entry
  readLink : VPath → Option Bytes
  read : VPath → Option (List (Option Bytes))
  capabilitiesAt : VPath → Option Capabilities

/-- The directories a comparison is at, with a side missing inside an orphan. -/
structure Frame where
  left : Option Entry
  right : Option Entry
  depth : UInt32
  deriving DecidableEq

inductive PendingRow where
  | decision (decision : Decision) (left right : Option Entry)
  | flagged (left right : Option Entry) (verdict : CompareVerdict) (criterion : CompareCriterion)
      (reason : CompareReason) (side : Side)
  deriving DecidableEq

def flaggedRow (names : Names) (id : Nat) (left right : Option Entry) (verdict : CompareVerdict)
    (criterion : CompareCriterion) (reason : CompareReason) (side : Side) : CompareRow :=
  { id, left, right, verdict, criterion, confidence := .unknown, newer := none, reason := some reason,
    side := some side, pairedUnder := pairedUnder names left right }

def PendingRow.intoRow (names : Names) (id : Nat) : PendingRow → CompareRow
  | decision d left right => d.intoRow names id left right
  | flagged left right verdict criterion reason side => flaggedRow names id left right verdict criterion reason side

def isDescendant (root path : VPath) : Bool := (RelPath.under root path).isSome

/-- Segments of `dir`, plus exactly one. -/
def isDirectChild (dir path : VPath) : Bool :=
  dir.scheme = path.scheme && dir.authority = path.authority &&
    (dir.segments <+: path.segments) && path.segments.length = dir.segments.length + 1

def syntheticDir (path : VPath) : Entry := ⟨path, .dir, none, none⟩

def drainListing (dir : VPath) : List (Option Entry) → List Entry → Except CompareReason (List Entry)
  | [], out => .ok out
  | none :: _, _ => .error .unreadable
  | some entry :: items, out =>
    if !isDirectChild dir entry.path then .error .unreadable
    else if COMPARE_MAX_DIR_ENTRIES ≤ out.length then .error .dirTooLarge
    else drainListing dir items (out ++ [entry])

def listAll (p : Provider) (dir : VPath) : Except CompareReason (List Entry) :=
  match p.list dir with
  | none => .error .unreadable
  | some items => drainListing dir items []

/-- A side that is missing has nothing to pair. -/
def listSide (p : Provider) : Option Entry → Except CompareReason (List Entry)
  | some entry => listAll p entry.path
  | none => .ok []

def capabilitiesOf (p : Provider) (dir : Option Entry) : Option Capabilities :=
  dir.bind fun entry => p.capabilitiesAt entry.path

/-- The entry as it is known so far, and whether its provider was asked already. -/
structure Fresh where
  entry : Entry
  asked : Bool

structure StatFailure where
  side : Side
  rung : CompareCriterion

/-- What a pair is known by, and where asking for more failed. -/
abbrev Hydration := (Fresh × Fresh) × Option StatFailure

def satSucc (depth : UInt32) : UInt32 := if depth = 0xFFFFFFFF then depth else depth + 1

/-- One comparison: the two trees and what it was asked for. -/
structure Comparison where
  left : Provider
  leftRoot : VPath
  right : Provider
  rightRoot : VPath
  opts : CompareOptions
  sides : Sides
  excluded : List VPath
  names : Names
  sha256 : Bytes → Bytes

namespace Comparison

variable (c : Comparison)

def listVisible (p : Provider) (dir : Option Entry) : Except CompareReason (List Entry) :=
  (listSide p dir).map fun entries => entries.filter fun e => !c.excluded.any fun x => isDescendant x e.path

/-- The rules of both directories, or those of the roots where one does not answer or is missing. -/
def sidesFor (frame : Frame) : Sides :=
  match capabilitiesOf c.left frame.left, capabilitiesOf c.right frame.right with
  | some left, some right => .fromCapabilities left right
  | _, _ => c.sides

def descendsBelow (depth : UInt32) : Bool := c.opts.maxDepth.all fun max => satSucc depth ≤ max

def descendsIntoOrphan (entry : Entry) (side : Side) (depth : UInt32) : Bool :=
  entry.kind = .dir && c.opts.descendOrphans = some side && c.descendsBelow depth

def orphanFrame (entry : Entry) (side : Side) (parentDepth : UInt32) : Option Frame :=
  if c.descendsIntoOrphan entry side parentDepth then
    match side with
    | .left => some ⟨some entry, none, satSucc parentDepth⟩
    | .right => some ⟨none, some entry, satSucc parentDepth⟩
    | .unknown => none
  else none

end Comparison

/-! Hydration: a listing need not say size and date, and then the provider is asked, once a
side and in the order of the rungs. -/

/-- Asks one side, if it was not asked yet. -/
def hydrate (p : Provider) (fresh : Fresh) : Fresh × Bool :=
  if fresh.asked then (fresh, true)
  else match p.stat fresh.entry.path with
    | none => ({ fresh with asked := true }, false)
    | some statted => (⟨{ fresh.entry with size := statted.size, mtimeMs := statted.mtimeMs }, true⟩, true)

/-- One rung asks the sides that lack its field, the left one first. -/
def hydrateRung (left right : Provider) (rung : CompareCriterion) (lacks : Entry → Bool) (pair : Fresh × Fresh) :
    Hydration :=
  let (l, okLeft) := if lacks pair.1.entry then hydrate left pair.1 else (pair.1, true)
  if !okLeft then ((l, pair.2), some ⟨.left, rung⟩)
  else
    let (r, okRight) := if lacks pair.2.entry then hydrate right pair.2 else (pair.2, true)
    ((l, r), if okRight then none else some ⟨.right, rung⟩)

/-- Two sizes that agree; anything else needs no date. -/
def sizesAgree (pair : Fresh × Fresh) : Bool :=
  pair.1.entry.size.isSome && pair.1.entry.size = pair.2.entry.size

namespace Comparison

variable (c : Comparison)

def mtimeHydration (pair : Fresh × Fresh) : Hydration :=
  if c.opts.criteria.mtime then hydrateRung c.left c.right .mtime (·.mtimeMs.isNone) pair else (pair, none)

def hydrateRungs (pair : Fresh × Fresh) : Hydration :=
  if pair.1.entry.kind = .file ∧ pair.2.entry.kind = .file then
    if c.opts.criteria.size then
      match hydrateRung c.left c.right .size (·.size.isNone) pair with
      | (sized, some failure) => (sized, some failure)
      | (sized, none) => if sizesAgree sized then c.mtimeHydration sized else (sized, none)
    else c.mtimeHydration pair
  else (pair, none)

def sha256Of (p : Provider) (path : VPath) : Option Bytes := do
  let chunks ← p.read path
  let contents ← chunks.mapM id
  return c.sha256 contents.flatten

/-- The digests of both, or the side whose content could not be read. -/
def hashPair (left right : Entry) : Except Side HashOutcome :=
  match c.sha256Of c.left left.path with
  | none => .error .left
  | some leftDigest => match c.sha256Of c.right right.path with
    | none => .error .right
    | some rightDigest => .ok (if leftDigest = rightDigest then .equal else .differ)

def linkFacts (left right : Entry) : Prefetched :=
  if left.kind = .symlink ∧ right.kind = .symlink then
    ⟨c.left.readLink left.path, c.right.readLink right.path, .notRun⟩
  else ⟨none, none, .notRun⟩

def verdictForPair (left right : Entry) : Except Side Decision :=
  let facts := c.linkFacts left right
  let decision := Cascade.decide left right c.opts facts
  if !decision.needsHash then .ok decision
  else (c.hashPair left right).map fun outcome => Cascade.decide left right c.opts { facts with hash := outcome }

def pairOutcome (left right : Entry) : PendingRow :=
  match c.hydrateRungs (⟨left, false⟩, ⟨right, false⟩) with
  | ((l, r), some failure) => .flagged (some l.entry) (some r.entry) .error failure.rung .unreadable failure.side
  | ((l, r), none) => match c.verdictForPair l.entry r.entry with
    | .ok decision => .decision decision (some l.entry) (some r.entry)
    | .error side => .flagged (some l.entry) (some r.entry) .error .hash .readFailed side

end Comparison

/-- The row of an entry that nothing met: alone, or in the shadow of a collision on the
other side. -/
def sideOutcome (left right : Option Entry) (collidedWith : Option CompareReason) (collisionSide : Side) :
    PendingRow × Bool :=
  match collidedWith with
  | some reason => (.flagged left right .ambiguous .presence reason collisionSide, false)
  | none => (.decision (if left.isSome then .onlyLeft else .onlyRight) left right, true)

/-- What was read of one directory: both sides, indexed. -/
structure Listed where
  left : SideIndex
  right : SideIndex

def Listed.joined (listed : Listed) : List (Joined (Bytes × Entry) (Bytes × Entry)) :=
  mergeJoin listed.left.unique listed.right.unique

namespace Comparison

variable (c : Comparison)

/-- The row of one event of the merge. -/
def joinedRow (listed : Listed) : Joined (Bytes × Entry) (Bytes × Entry) → PendingRow
  | .left (key, entry) => (sideOutcome (some entry) none (listed.right.collided key) .right).1
  | .right (key, entry) => (sideOutcome none (some entry) (listed.left.collided key) .left).1
  | .both (_, l) (_, r) => c.pairOutcome l r

/-- The directory an event of the merge is gone into, if it is. -/
def joinedFrame (listed : Listed) (depth : UInt32) : Joined (Bytes × Entry) (Bytes × Entry) → Option Frame
  | .left (key, entry) =>
    if (sideOutcome (some entry) none (listed.right.collided key) .right).2 then c.orphanFrame entry .left depth
    else none
  | .right (key, entry) =>
    if (sideOutcome none (some entry) (listed.left.collided key) .left).2 then c.orphanFrame entry .right depth
    else none
  | .both (_, l) (_, r) =>
    if l.kind = .dir ∧ r.kind = .dir ∧ c.descendsBelow depth then some ⟨some l, some r, satSucc depth⟩ else none

def collisionRows (listed : Listed) : List PendingRow :=
  (listed.left.collisions.map fun (entry, reason) => .flagged (some entry) none .ambiguous .presence reason .left) ++
    listed.right.collisions.map fun (entry, reason) => .flagged none (some entry) .ambiguous .presence reason .right

/-- A side that could not be listed leaves a row, and nothing of the directory is paired. -/
def listingErrors (frame : Frame) (left right : Except CompareReason (List Entry)) : List PendingRow :=
  (match left with
    | .error reason => [.flagged frame.left none .error .presence reason .left]
    | .ok _ => []) ++
  match right with
    | .error reason => [.flagged none frame.right .error .presence reason .right]
    | .ok _ => []

def index (frame : Frame) (lefts rights : List Entry) : Listed :=
  ⟨indexSide c.names lefts (c.sidesFor frame), indexSide c.names rights (c.sidesFor frame)⟩

/-- The rows of one directory, in their order, and the directories to go into. -/
def visit (frame : Frame) : List PendingRow × List Frame :=
  match c.listVisible c.left frame.left, c.listVisible c.right frame.right with
  | .ok lefts, .ok rights =>
    let listed := c.index frame lefts rights
    (collisionRows listed ++ listed.joined.map (c.joinedRow listed),
      listed.joined.filterMap (c.joinedFrame listed frame.depth))
  | left, right => (listingErrors frame left right, [])

def emits (frame : Frame) : List PendingRow := (c.visit frame).1

def kids (frame : Frame) : List Frame := (c.visit frame).2

end Comparison

/-- The state of the walk. The head of the stack is its top. -/
structure Walk where
  stack : List Frame
  pending : List CompareRow
  nextId : Nat

namespace Comparison

variable (c : Comparison)

/-- Every row takes the next number as it is put in the queue. -/
def push (w : Walk) (row : PendingRow) : Walk :=
  { w with nextId := w.nextId + 1, pending := w.pending ++ [row.intoRow c.names (w.nextId + 1)] }

def visitFrame (w : Walk) (frame : Frame) : Walk :=
  let pushed := (c.emits frame).foldl c.push w
  { pushed with stack := c.kids frame ++ pushed.stack }

/-- One turn of the loop: a row that is due, or the next directory. -/
def turn (w : Walk) : Option (Option CompareRow × Walk) :=
  match w.pending with
  | row :: pending => some (some row, { w with pending })
  | [] => match w.stack with
    | [] => none
    | frame :: stack => some (none, c.visitFrame { w with stack } frame)

/-- All that comes out, unless the turns run out first. -/
def run : Nat → Walk → Option (List CompareRow)
  | 0, _ => none
  | turns + 1, w => match c.turn w with
    | none => some []
    | some (row, w) => (run turns w).map (row.toList ++ ·)

def rootFrame : Frame := ⟨some (syntheticDir c.leftRoot), some (syntheticDir c.rightRoot), 0⟩

def compare (turns : Nat) : Option (List CompareRow) :=
  if c.excluded.any fun x => isDescendant x c.leftRoot || isDescendant x c.rightRoot then some []
  else c.run turns ⟨[c.rootFrame], [], 0⟩

end Comparison

end Norte.Compare
