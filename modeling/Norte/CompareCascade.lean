import Norte.PairKey

/-! The rungs that decide a pair: the kind first, then what is cheap to read, then the
content where it was asked for and everything cheap agrees. -/
namespace Norte.Compare

open Sync

structure CompareOptions where
  criteria : CompareCriteria
  maxDepth : Option UInt32
  mtimeToleranceMs : UInt32
  followSymlinks : Bool
  descendOrphans : Option Side
  deriving DecidableEq

inductive HashOutcome where
  | notRun
  | equal
  | differ
  deriving DecidableEq, Repr

/-- What was asked of the providers before deciding. -/
structure Prefetched where
  leftTarget : Option Bytes
  rightTarget : Option Bytes
  hash : HashOutcome

structure Decision where
  verdict : CompareVerdict
  criterion : CompareCriterion
  confidence : CompareConfidence
  newer : Option Side
  needsHash : Bool
  deriving DecidableEq

namespace Decision

def rung (verdict : CompareVerdict) (criterion : CompareCriterion) (confidence : CompareConfidence) : Decision :=
  ⟨verdict, criterion, confidence, none, false⟩

def onlyLeft : Decision := rung .onlyLeft .presence .certain

def onlyRight : Decision := rung .onlyRight .presence .certain

end Decision

/-- How the two names of a row with both sides came to pair. -/
def pairedUnder (names : Names) : Option Entry → Option Entry → Option PairTransform
  | some l, some r => names.pairTransform (pairName l) (pairName r)
  | _, _ => none

def Decision.intoRow (names : Names) (d : Decision) (id : Nat) (left right : Option Entry) : CompareRow :=
  { id, left, right, verdict := d.verdict, criterion := d.criterion, confidence := d.confidence, newer := d.newer,
    reason := none, side := none, pairedUnder := pairedUnder names left right }

namespace Cascade

def linkTarget (facts : Prefetched) : Decision :=
  match facts.leftTarget, facts.rightTarget with
  | some l, some r => .rung (if l = r then .same else .different) .linkTarget .certain
  | _, _ => .rung .same .linkTarget .unknown

/-- `i64::saturating_sub`. -/
def saturatingSub (a b : Int) : Int := max (-2 ^ 63) (min (2 ^ 63 - 1) (a - b))

def mtimeRung (left right : Entry) (opts : CompareOptions) : Decision :=
  match left.mtimeMs, right.mtimeMs with
  | some l, some r =>
    if (saturatingSub l r).natAbs > opts.mtimeToleranceMs.toNat then
      { Decision.rung .different .mtime .probable with newer := some (if l > r then .left else .right) }
    else .rung .same .mtime .probable
  | _, _ => .rung .same .mtime .unknown

def afterSize (left right : Entry) (opts : CompareOptions) : Decision :=
  if opts.criteria.mtime then mtimeRung left right opts else .rung .same .presence .unknown

def sizeAndMtime (left right : Entry) (opts : CompareOptions) : Decision :=
  if opts.criteria.size then
    match left.size, right.size with
    | some l, some r =>
      if l ≠ r then .rung .different .size .certain else afterSize left right opts
    | _, _ => .rung .same .size .unknown
  else afterSize left right opts

def cheapRungs (left right : Entry) (opts : CompareOptions) (facts : Prefetched) : Decision :=
  if left.kind ≠ right.kind then .rung .typeMismatch .kind .certain
  else match left.kind with
    | .file => sizeAndMtime left right opts
    | .dir => .rung .same .kind .certain
    | .symlink => linkTarget facts
    | .other => .rung .same .kind .unknown

/-- The content is only read where everything cheap agrees, and only of files. -/
def decide (left right : Entry) (opts : CompareOptions) (facts : Prefetched) : Decision :=
  let cheap := cheapRungs left right opts facts
  if !opts.criteria.hash || cheap.verdict ≠ .same || left.kind ≠ .file then cheap
  else match facts.hash with
    | .notRun => { cheap with needsHash := true }
    | .equal => .rung .same .hash .certain
    | .differ => .rung .different .hash .certain

theorem sizeAndMtime_verdict (left right : Entry) (opts : CompareOptions) :
    (sizeAndMtime left right opts).verdict = .same ∨ (sizeAndMtime left right opts).verdict = .different := by
  unfold sizeAndMtime afterSize mtimeRung
  repeat' split
  all_goals simp [Decision.rung]

/-- What is said of a pair that was decided. -/
theorem decide_verdict (left right : Entry) (opts : CompareOptions) (facts : Prefetched) :
    (decide left right opts facts).verdict = .same ∨ (decide left right opts facts).verdict = .different ∨
      (decide left right opts facts).verdict = .typeMismatch := by
  have cheap : (cheapRungs left right opts facts).verdict = .same ∨
      (cheapRungs left right opts facts).verdict = .different ∨
        (cheapRungs left right opts facts).verdict = .typeMismatch := by
    simp only [cheapRungs, linkTarget]
    split
    · exact .inr (.inr rfl)
    · split
      · exact (sizeAndMtime_verdict left right opts).imp_right .inl
      · exact .inl rfl
      · split
        · dsimp only [Decision.rung]
          split <;> simp
        · exact .inl rfl
      · exact .inl rfl
  simp only [decide]
  split
  · exact cheap
  · split
    · exact cheap
    · exact .inl rfl
    · exact .inr (.inl rfl)

end Cascade

end Norte.Compare
