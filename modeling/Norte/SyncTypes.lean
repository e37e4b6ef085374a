import Mathlib.Algebra.Ring.Nat
import Norte.VPath

/-! The words a comparison and a synchronization plan are made of, as the protocol
declares them. -/
namespace Norte.Sync

/-- Segments below a root that is not named. -/
structure RelPath where
  segments : List Segment
  deriving DecidableEq

namespace RelPath

def root : RelPath := ⟨[]⟩

def isRoot (rel : RelPath) : Bool := rel.segments.isEmpty

/-- What is left of `path` below `base`, if it hangs off it. -/
def under (base path : VPath) : Option RelPath :=
  if path.scheme ≠ base.scheme ∨ path.authority ≠ base.authority then none
  else if base.segments <+: path.segments then some ⟨path.segments.drop base.segments.length⟩
  else none

end RelPath

/-- At `base` or below it. -/
def HangsOff (base path : VPath) : Prop :=
  base.scheme = path.scheme ∧ base.authority = path.authority ∧ base.segments <+: path.segments

def Child (dir path : VPath) : Prop := ∃ s, path = dir.join s

theorem RelPath.under_isSome {base path : VPath} : (RelPath.under base path).isSome ↔ HangsOff base path := by
  unfold RelPath.under HangsOff
  split
  · rename_i away
    simp only [Option.isSome_none, Bool.false_eq_true, false_iff]
    rintro ⟨scheme, authority, _⟩
    exact away.elim (fun ne => ne scheme.symm) fun ne => ne authority.symm
  · rename_i same
    simp only [not_or, not_not] at same
    split
    · rename_i hangs
      simp [same, hangs]
    · rename_i hangs
      simp [hangs]

namespace HangsOff

variable {base dir dir' path : VPath}

theorem refl (path : VPath) : HangsOff path path := ⟨rfl, rfl, List.prefix_rfl⟩

theorem trans (first : HangsOff base dir) (second : HangsOff dir path) : HangsOff base path :=
  ⟨first.1.trans second.1, first.2.1.trans second.2.1, first.2.2.trans second.2.2⟩

/-- Two directories above one path are above one another. -/
theorem comparable (first : HangsOff dir path) (second : HangsOff dir' path) : HangsOff dir dir' ∨ HangsOff dir' dir := by
  rcases List.prefix_or_prefix_of_prefix first.2.2 second.2.2 with less | less
  · exact .inl ⟨first.1.trans second.1.symm, first.2.1.trans second.2.1.symm, less⟩
  · exact .inr ⟨second.1.trans first.1.symm, second.2.1.trans first.2.1.symm, less⟩

theorem length_le (hangs : HangsOff dir path) : dir.segments.length ≤ path.segments.length :=
  hangs.2.2.length_le

theorem eq_of_length (hangs : HangsOff dir path) (same : dir.segments.length = path.segments.length) : dir = path := by
  obtain ⟨scheme, authority, segments⟩ := dir
  obtain ⟨scheme', authority', segments'⟩ := path
  obtain ⟨rfl, rfl, less⟩ := hangs
  exact congrArg _ (less.eq_of_length same)

end HangsOff

namespace Child

variable {dir dir' path path' : VPath}

theorem hangsOff (child : Child dir path) : HangsOff dir path := by
  obtain ⟨s, rfl⟩ := child
  exact ⟨rfl, rfl, List.prefix_append ..⟩

theorem length (child : Child dir path) : path.segments.length = dir.segments.length + 1 := by
  obtain ⟨s, rfl⟩ := child
  exact List.length_append

theorem ne (child : Child dir path) : dir ≠ path := by
  rintro rfl
  have := child.length
  omega

/-- A path has one parent. -/
theorem parent (child : Child dir path) (child' : Child dir' path) : dir = dir' := by
  have long := child.length.symm.trans child'.length
  rcases child.hangsOff.comparable child'.hangsOff with less | less
  · exact less.eq_of_length (Nat.succ.inj long)
  · exact (less.eq_of_length (Nat.succ.inj long).symm).symm

/-- Whatever is above a child is the child or above its directory. -/
theorem above (child : Child dir path) (hangs : HangsOff dir' path) : dir' = path ∨ HangsOff dir' dir := by
  rcases hangs.comparable child.hangsOff with less | less
  · exact .inr less
  · have long := child.length
    have upper := hangs.length_le
    have lower := less.length_le
    by_cases same : dir'.segments.length = dir.segments.length
    · rw [less.eq_of_length same.symm]
      exact .inr (.refl _)
    · exact .inl (hangs.eq_of_length (by omega))

end Child

inductive Side where
  | left
  | right
  | unknown
  deriving DecidableEq, Repr

inductive SyncMode where
  | update
  | mirror
  deriving DecidableEq, Repr

inductive DescendSide where
  | left
  | right
  deriving DecidableEq, Repr

def DescendSide.side : DescendSide → Side
  | left => .left
  | right => .right

def DescendSide.other : DescendSide → DescendSide
  | left => right
  | right => left

inductive OnUnknown where
  | copy
  | skip
  deriving DecidableEq, Repr

inductive SyncStepKind where
  | createDir
  | copy
  | overwrite
  | deleteTree
  | skip
  | unknown
  deriving DecidableEq, Repr

inductive StepReversal where
  | delete
  | restoreTrash
  | irreversible
  | unknown
  deriving DecidableEq, Repr

inductive SyncReason where
  | ambiguousSource
  | unknownConfidence
  | unreadable
  | noTrashOnTarget
  | nonInjectivePairing
  | unknown
  deriving DecidableEq, Repr

inductive SyncBlockerKind where
  | ambiguousDest
  | overlapDetected
  | destReadOnly
  | dirTooLarge
  | typeMismatchDir
  | illegalDestName
  | unknown
  deriving DecidableEq, Repr

inductive CompareCriterion where
  | presence
  | kind
  | linkTarget
  | size
  | mtime
  | hash
  | unknown
  deriving DecidableEq, Repr

inductive CompareConfidence where
  | certain
  | probable
  | unknown
  | unrecognised
  deriving DecidableEq, Repr

structure CompareCriteria where
  size : Bool
  mtime : Bool
  hash : Bool
  deriving DecidableEq, Repr

structure SyncCompareOptions where
  criteria : CompareCriteria
  maxDepth : Option UInt32
  mtimeToleranceMs : UInt32
  followSymlinks : Bool
  descendOrphans : Option DescendSide
  deriving DecidableEq, Repr

structure SyncOptions where
  sourceRoot : VPath
  destRoot : VPath
  mode : SyncMode
  onUnknown : OnUnknown
  sourceSide : Side
  destHasTrash : Bool
  destTrashRestorable : Bool
  destWritable : Bool
  deriving DecidableEq

structure SyncStep where
  id : UInt64
  kind : SyncStepKind
  rel : RelPath
  destRel : Option RelPath
  size : Option UInt64
  criterion : CompareCriterion
  confidence : CompareConfidence
  reversal : Option StepReversal
  reason : Option SyncReason
  deriving DecidableEq

/-- Three of the invariants the wire cannot express; unknown tokens are exempt. -/
def SyncStep.shapeIsConsistent (step : SyncStep) : Bool :=
  if step.kind = .unknown then true
  else if step.destRel = some step.rel then false
  else
    let reversalOk :=
      if step.kind = .skip then step.reversal.isNone else step.reversal.isSome
    if step.reversal = some .unknown then reversalOk
    else
      let owesReason := step.kind = .skip || step.reversal = some .irreversible
      reversalOk && step.reason.isSome == owesReason

structure SyncBlocker where
  rel : RelPath
  kind : SyncBlockerKind
  side : Option Side
  deriving DecidableEq

def saturatingAdd (a b : UInt64) : UInt64 := if a.toNat + b.toNat < 2 ^ 64 then a + b else 0 - 1

/-- What a plan adds up to. -/
structure SyncCounts where
  createDir : UInt64
  copy : UInt64
  overwrite : UInt64
  deleteTree : UInt64
  skip : UInt64
  unknownKind : UInt64
  irreversible : UInt64
  bytes : UInt64
  unmeasuredSteps : UInt64
  deriving DecidableEq, Repr

namespace SyncCounts

def empty : SyncCounts := ⟨0, 0, 0, 0, 0, 0, 0, 0, 0⟩

def addBytes (counts : SyncCounts) : Option UInt64 → SyncCounts
  | some bytes => { counts with bytes := saturatingAdd counts.bytes bytes }
  | none => { counts with unmeasuredSteps := saturatingAdd counts.unmeasuredSteps 1 }

def add (counts : SyncCounts) (step : SyncStep) : SyncCounts :=
  let counts := match step.kind with
    | .createDir => { counts with createDir := saturatingAdd counts.createDir 1 }
    | .copy => { counts with copy := saturatingAdd counts.copy 1 }.addBytes step.size
    | .overwrite => { counts with overwrite := saturatingAdd counts.overwrite 1 }.addBytes step.size
    | .deleteTree => { counts with deleteTree := saturatingAdd counts.deleteTree 1 }
    | .skip => { counts with skip := saturatingAdd counts.skip 1 }
    | .unknown => { counts with unknownKind := saturatingAdd counts.unknownKind 1 }
  if step.reversal = some .irreversible then
    { counts with irreversible := saturatingAdd counts.irreversible 1 }
  else counts

end SyncCounts

/-! Entries as a provider lists them, and what a comparison says of a pair. -/

inductive EntryKind where
  | file
  | dir
  | symlink
  | other
  deriving DecidableEq, Repr

structure Entry where
  path : VPath
  kind : EntryKind
  size : Option UInt64
  mtimeMs : Option Int
  deriving DecidableEq

inductive CompareVerdict where
  | same
  | different
  | onlyLeft
  | onlyRight
  | typeMismatch
  | ambiguous
  | error
  | unknown
  deriving DecidableEq, Repr

inductive CompareReason where
  | caseFold
  | normalization
  | unreadable
  | dirTooLarge
  | readFailed
  | unknown
  deriving DecidableEq, Repr

inductive PairTransform where
  | caseFold
  | normalization
  | fullFold
  | normalizationSingleton
  | unknown
  deriving DecidableEq, Repr

/-- Whether the two names it joins are one text. -/
def PairTransform.namesOneText : PairTransform → Bool
  | caseFold | normalization => true
  | fullFold | normalizationSingleton | unknown => false

/-- A row of a comparison. The counter of the ids does not overflow here. -/
structure CompareRow where
  id : Nat
  left : Option Entry
  right : Option Entry
  verdict : CompareVerdict
  criterion : CompareCriterion
  confidence : CompareConfidence
  newer : Option Side
  reason : Option CompareReason
  side : Option Side
  pairedUnder : Option PairTransform
  deriving DecidableEq

/-- What the comparison saw at a destination entry a step is going to destroy. -/
structure DestWitness where
  kind : EntryKind
  size : Option UInt64
  mtimeMs : Option Int
  entries : Option UInt64
  deriving DecidableEq, Repr

def DestWitness.of (entry : Entry) : DestWitness := ⟨entry.kind, entry.size, entry.mtimeMs, none⟩

/-- An element of the plan's flow. -/
inductive PlanItem where
  | step (step : SyncStep) (dest : Option DestWitness)
  | blocker (blocker : SyncBlocker)
  deriving DecidableEq

end Norte.Sync
