import Norte.Framing
import Norte.Hashing
import Norte.SyncTypes

/-! The fingerprint of what a human approves: the intent of a plan, then its steps and
blockers one by one, then how many there were. Every field is framed and every element
tagged, so equal fingerprints come from equal plans, up to the ids of the steps. -/
namespace Norte.Sync

open Hashing Utf8 Framing

/-- A token is the digest in lowercase hex. -/
structure PlanHash where
  hex : Bytes
  deriving DecidableEq

def PlanHash.fromDigest (digest : Bytes) : PlanHash := ⟨hexLower digest⟩

def tagStep : UInt8 := 'S'.toUInt8
def tagBlocker : UInt8 := 'B'.toUInt8
def tagEnd : UInt8 := 'E'.toUInt8

/-! Wire names. A token the hasher has no wire name for is fed under its `Debug` name. -/

def unknownName (debug : String) : Str := '?' :: debug.toList

def SyncStepKind.name : SyncStepKind → Str
  | createDir => "create_dir".toList
  | copy => "copy".toList
  | overwrite => "overwrite".toList
  | deleteTree => "delete_tree".toList
  | skip => "skip".toList
  | unknown => "unknown".toList

def StepReversal.name : StepReversal → Str
  | delete => "delete".toList
  | restoreTrash => "restore_trash".toList
  | irreversible => "irreversible".toList
  | unknown => "unknown".toList

def SyncReason.name : SyncReason → Str
  | ambiguousSource => "ambiguous_source".toList
  | unknownConfidence => "unknown_confidence".toList
  | unreadable => "unreadable".toList
  | noTrashOnTarget => "no_trash_on_target".toList
  | unknown => "unknown".toList
  | nonInjectivePairing => unknownName "NonInjectivePairing"

def CompareCriterion.name : CompareCriterion → Str
  | presence => "presence".toList
  | kind => "kind".toList
  | linkTarget => "link_target".toList
  | size => "size".toList
  | mtime => "mtime".toList
  | hash => "hash".toList
  | unknown => "unknown".toList

def CompareConfidence.name : CompareConfidence → Str
  | certain => "certain".toList
  | probable => "probable".toList
  | unknown => "unknown".toList
  | unrecognised => "unrecognised".toList

def SyncBlockerKind.name : SyncBlockerKind → Str
  | ambiguousDest => "ambiguous_dest".toList
  | overlapDetected => "overlap_detected".toList
  | destReadOnly => "dest_read_only".toList
  | dirTooLarge => "dir_too_large".toList
  | typeMismatchDir => "type_mismatch_dir".toList
  | unknown => "unknown".toList
  | illegalDestName => unknownName "IllegalDestName"

def Side.name : Side → Str
  | left => "left".toList
  | right => "right".toList
  | unknown => "unknown".toList

def SyncMode.name : SyncMode → Str
  | update => "update".toList
  | mirror => "mirror".toList

def OnUnknown.name : OnUnknown → Str
  | copy => "copy".toList
  | skip => "skip".toList

def DescendSide.name : DescendSide → Str
  | left => "left".toList
  | right => "right".toList

/-! Framed fields. -/

def feedName (name : Str) : Bytes := feed (encode name)

def feedFlag (flag : Bool) : Bytes := feed [if flag then 1 else 0]

def feedU64 (value : Nat) : Bytes := feed (u64LeBytes value)

def feedOptU64 (value : Option UInt64) : Bytes := feedOpt (value.map fun v => u64LeBytes v.toNat)

def feedOptName (name : Option Str) : Bytes := feedOpt (name.map encode)

def feedSegments (segments : List Segment) : Bytes :=
  feedU64 segments.length ++ segments.flatMap fun segment => feed segment.bytes

def feedRoot (root : VPath) : Bytes :=
  feedName root.scheme.str ++ feedOptName (root.authority.map Authority.str) ++
    feedSegments root.segments

def feedRel (rel : RelPath) : Bytes := feedSegments rel.segments

def feedOptRel : Option RelPath → Bytes
  | none => [0]
  | some rel => 1 :: feedRel rel

/-- The string that is going to be digested, and how many elements it holds. -/
structure PlanHasher where
  fed : Bytes
  items : UInt64

namespace PlanHasher

def new (opts : SyncOptions) (compare : SyncCompareOptions) : PlanHasher where
  fed := feed (encode "norte-sync-plan-v1".toList) ++ feedRoot opts.sourceRoot ++
    feedRoot opts.destRoot ++ feedName opts.mode.name ++ feedName opts.onUnknown.name ++
    feedName opts.sourceSide.name ++ feedFlag opts.destHasTrash ++
    feedFlag opts.destTrashRestorable ++ feedFlag opts.destWritable ++
    feedFlag compare.criteria.size ++ feedFlag compare.criteria.mtime ++
    feedFlag compare.criteria.hash ++
    feedOptU64 (compare.maxDepth.map UInt32.toUInt64) ++
    feedU64 compare.mtimeToleranceMs.toNat ++ feedFlag compare.followSymlinks ++
    feedOptName (compare.descendOrphans.map DescendSide.name)
  items := 0

def step (hasher : PlanHasher) (step : SyncStep) : PlanHasher where
  fed := hasher.fed ++ tagStep :: (feedName step.kind.name ++ feedRel step.rel ++
    feedOptRel step.destRel ++ feedOptU64 step.size ++ feedName step.criterion.name ++
    feedName step.confidence.name ++ feedOptName (step.reversal.map StepReversal.name) ++
    feedOptName (step.reason.map SyncReason.name))
  items := saturatingAdd hasher.items 1

def blocker (hasher : PlanHasher) (blocker : SyncBlocker) : PlanHasher where
  fed := hasher.fed ++ tagBlocker :: (feedName blocker.kind.name ++ feedRel blocker.rel ++
    feedOptName (blocker.side.map Side.name))
  items := saturatingAdd hasher.items 1

/-- The destination witness stays out. -/
def item (hasher : PlanHasher) : PlanItem → PlanHasher
  | .step step _ => hasher.step step
  | .blocker blocker => hasher.blocker blocker

def finish (sha256 : Bytes → Bytes) (hasher : PlanHasher) : PlanHash :=
  .fromDigest (sha256 (hasher.fed ++ tagEnd :: feedU64 hasher.items.toNat))

end PlanHasher

/-- The token of a plan whose flow ran out: its elements in the order of the flow. -/
def planToken (sha256 : Bytes → Bytes) (opts : SyncOptions) (compare : SyncCompareOptions)
    (items : List PlanItem) : PlanHash :=
  (items.foldl PlanHasher.item (.new opts compare)).finish sha256

end Norte.Sync
