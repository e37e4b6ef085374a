import Norte.SyncTypes

/-! The planner: rows of a comparison go in, steps and blockers come out, at most one a row.
Between rows it keeps the root an overlap reached and how paired directories are spelt at
the destination. The cancellation token is left out; a comparison that was cancelled is not. -/
namespace Norte.Sync

inductive CompareError where
  | cancelled
  deriving DecidableEq, Repr

inductive SyncError where
  | cancelled
  | sourceSideUnknown
  | outsideRoot (root path : VPath)
  | rootIsNotAStep (root : VPath)
  | compare (error : CompareError)
  deriving DecidableEq

def relUnder (root path : VPath) : Except SyncError RelPath :=
  match RelPath.under root path with
  | some rel => .ok rel
  | none => .error (.outsideRoot root path)

def isAtOrUnder (root path : VPath) : Bool := (RelPath.under root path).isSome

/-- The root that was reached, and which side's path reached it. -/
structure Overlap where
  reached : VPath
  fromSource : Bool
  deriving DecidableEq

/-- How a step is undone, and why it is not if it is not. -/
def reversalFor (kind : SyncStepKind) (destHasTrash destTrashRestorable : Bool) :
    Option StepReversal × Option SyncReason :=
  let acts := match kind with
    | .createDir | .copy | .overwrite | .deleteTree => true
    | .skip | .unknown => false
  if acts && destHasTrash && !destTrashRestorable then (some .irreversible, some .noTrashOnTarget)
  else match kind with
    | .createDir | .copy => (some .delete, none)
    | .overwrite | .deleteTree =>
      if destHasTrash then (some .restoreTrash, none) else (some .irreversible, some .noTrashOnTarget)
    | .skip | .unknown => (none, none)

/-- The side of a type mismatch that is a directory, the source being left. -/
def directorySide (source dest : Option Entry) : Option Side :=
  if source.any (·.kind = .dir) then some .left
  else if dest.any (·.kind = .dir) then some .right
  else none

/-- `Segments[..split]`, the deepest first, down to one segment. -/
def properAncestors (rel : RelPath) : List RelPath :=
  ((List.range rel.segments.length).drop 1).reverse.map fun split => ⟨rel.segments.take split⟩

structure Transducer where
  opts : SyncOptions
  nextId : UInt64
  overlap : Option Overlap
  /-- The last spelling of each directory; a later one shadows an earlier one. -/
  spellings : List (RelPath × RelPath)

namespace Transducer

variable (t : Transducer)

def sourceIsLeft : Bool := t.opts.sourceSide = .left

def mirroring : Bool := t.opts.mode = .mirror

def source (row : CompareRow) : Option Entry := if t.sourceIsLeft then row.left else row.right

def dest (row : CompareRow) : Option Entry := if t.sourceIsLeft then row.right else row.left

def sourceOrphan : CompareVerdict := if t.sourceIsLeft then .onlyLeft else .onlyRight

def destOrphan : CompareVerdict := if t.sourceIsLeft then .onlyRight else .onlyLeft

def spelling (dir : RelPath) : Option RelPath := (t.spellings.find? fun s => s.1 = dir).map Prod.snd

/-- Below the deepest paired directory that is spelt otherwise there. -/
def speltAtTheDestination (rel : RelPath) : Option RelPath :=
  (properAncestors rel).findSome? fun ancestor =>
    (t.spelling ancestor).map fun destDir => ⟨destDir.segments ++ rel.segments.drop ancestor.segments.length⟩

def destRelOf (rel : RelPath) (dest : Option Entry) : Except SyncError (Option RelPath) :=
  match dest with
  | some entry => (relUnder t.opts.destRoot entry.path).map fun destRel => if destRel ≠ rel then some destRel else none
  | none => match t.speltAtTheDestination rel with
    | some destRel => .ok (if destRel ≠ rel then some destRel else none)
    | none => .ok none

def rememberSpelling (sourceRel : RelPath) (source dest : Option Entry) : Except SyncError Transducer :=
  match source, dest with
  | some s, some d =>
    if s.kind = .dir ∧ d.kind = .dir then
      (relUnder t.opts.destRoot d.path).map fun destRel =>
        if destRel ≠ sourceRel then { t with spellings := (sourceRel, destRel) :: t.spellings } else t
    else .ok t
  | _, _ => .ok t

def overlapPrunes (source dest : Option Entry) : Bool :=
  match t.overlap with
  | none => false
  | some overlap => (if overlap.fromSource then source else dest).any fun entry => isAtOrUnder overlap.reached entry.path

/-- The first row that reaches the other root, which is a blocker. -/
def overlapReached (source dest : Option Entry) : Except SyncError (Option (SyncBlocker × Overlap)) :=
  if t.overlap.isSome then .ok none
  else if t.opts.sourceRoot = t.opts.destRoot then .ok none
  else match source.filter fun entry => isAtOrUnder t.opts.destRoot entry.path with
    | some entry => (relUnder t.opts.sourceRoot entry.path).map fun rel =>
      some (⟨rel, .overlapDetected, none⟩, ⟨t.opts.destRoot, true⟩)
    | none => match dest.filter fun entry => isAtOrUnder t.opts.sourceRoot entry.path with
      | some entry => (relUnder t.opts.destRoot entry.path).map fun rel =>
        some (⟨rel, .overlapDetected, none⟩, ⟨t.opts.sourceRoot, false⟩)
      | none => .ok none

/-- The row's side says; where it says none, the tie falls on the destination. -/
def speaksForTheDestination (row : CompareRow) (source dest : Option Entry) : Bool :=
  let destSide : Side := if t.opts.sourceSide = .left then .right else .left
  if row.side = some t.opts.sourceSide then false
  else if row.side = some destSide then true
  else dest.isSome || source.isNone

/-- What a row leaves: at most one element, and the state for the next row. -/
abbrev Absorbed := Except SyncError (Transducer × Option PlanItem)

def push (row : CompareRow) (kind : SyncStepKind) (rel : RelPath) (destRel : Option RelPath) (size : Option UInt64)
    (skipReason : Option SyncReason) (dest : Option Entry) : Absorbed :=
  let (reversal, reason) := match skipReason with
    | some why => (none, some why)
    | none => reversalFor kind t.opts.destHasTrash t.opts.destTrashRestorable
  let witness := match kind with
    | .overwrite | .deleteTree => dest.map DestWitness.of
    | .createDir | .copy | .skip | .unknown => none
  .ok ({ t with nextId := t.nextId + 1 },
    some (.step ⟨t.nextId, kind, rel, destRel, size, row.criterion, row.confidence, reversal, reason⟩ witness))

def pushBlocker (rel : RelPath) (kind : SyncBlockerKind) (side : Option Side) : Absorbed :=
  .ok (t, some (.blocker ⟨rel, kind, side⟩))

def nothing : Absorbed := .ok (t, none)

/-- The destination entry's path below its root, or that of the source. -/
def destOrSourceRel (dest : Option Entry) (sourceRel : Option RelPath) : Except SyncError RelPath :=
  match dest with
  | some entry => relUnder t.opts.destRoot entry.path
  | none => .ok (sourceRel.getD .root)

/-- The source's path, or that of the destination entry where there is no source. -/
def sourceOrDestRel (sourceRel : Option RelPath) (dest : Option Entry) : Except SyncError (Option RelPath) :=
  match sourceRel, dest with
  | some rel, _ => .ok (some rel)
  | none, some entry => (relUnder t.opts.destRoot entry.path).map some
  | none, none => .ok none

/-- A row that is not acted on: a skip that names it, if it names anything. -/
def pushSkip (row : CompareRow) (named : Option RelPath) (paired : Option Entry) (why : SyncReason) (dest : Option Entry) :
    Absorbed :=
  match named with
  | none => t.nothing
  | some rel => do t.push row .skip rel (← t.destRelOf rel paired) none (some why) dest

def absorbError (row : CompareRow) (source dest : Option Entry) (sourceRel : Option RelPath) : Absorbed :=
  if row.reason = some .dirTooLarge ∧ t.speaksForTheDestination row source dest then do
    t.pushBlocker (← t.destOrSourceRel dest sourceRel) .dirTooLarge (some .right)
  else do t.pushSkip row (← t.sourceOrDestRel sourceRel dest) dest .unreadable dest

def absorbAmbiguous (row : CompareRow) (source dest : Option Entry) (sourceRel : Option RelPath) : Absorbed :=
  if t.speaksForTheDestination row source dest then do
    t.pushBlocker (← t.destOrSourceRel dest sourceRel) .ambiguousDest (some .right)
  else t.pushSkip row sourceRel none .ambiguousSource none

def absorbNonInjective (row : CompareRow) (dest : Option Entry) (sourceRel : Option RelPath) : Absorbed := do
  t.pushSkip row (← t.sourceOrDestRel sourceRel dest) dest .nonInjectivePairing none

def absorbTypeMismatchDir (side : Side) (sourceRel : Option RelPath) (dest : Option Entry) : Absorbed := do
  let destRel ← t.sourceOrDestRel none dest
  let rel := if side = .right then destRel.or sourceRel else sourceRel.or destRel
  t.pushBlocker (rel.getD .root) .typeMismatchDir (some side)

def absorbDestOrphan (row : CompareRow) (dest : Option Entry) : Absorbed :=
  match dest with
  | none => t.nothing
  | some entry => do
    let rel ← relUnder t.opts.destRoot entry.path
    if rel.isRoot then .error (.rootIsNotAStep t.opts.destRoot)
    else t.push row .deleteTree rel none none none (some entry)

/-- The step of a row that has a source entry. -/
def pushStep (row : CompareRow) (kind : SyncStepKind) (source : Option Entry) (sourceRel : Option RelPath)
    (skipReason : Option SyncReason) (pairedDest : Option Entry) : Absorbed :=
  match source, sourceRel with
  | some entry, some rel =>
    if rel.isRoot ∧ kind ≠ .skip then .error (.rootIsNotAStep t.opts.sourceRoot)
    else do
      let size := if entry.kind = .dir ∨ kind = .skip then none else entry.size
      t.push row kind rel (← t.destRelOf rel pairedDest) size skipReason pairedDest
  | _, _ => t.nothing

/-- A row with both sides, by its verdict. -/
def absorbPair (row : CompareRow) (source dest : Option Entry) (sourceRel : Option RelPath) : Absorbed :=
  match row.verdict with
  | .typeMismatch => match directorySide source dest with
    | some side => t.absorbTypeMismatchDir side sourceRel dest
    | none => t.pushStep row .overwrite source sourceRel none dest
  | .different => t.pushStep row .overwrite source sourceRel none dest
  | .same =>
    if row.confidence ≠ .unknown then t.nothing
    else if t.opts.onUnknown = .copy then t.pushStep row .overwrite source sourceRel none dest
    else t.pushStep row .skip source sourceRel (some .unknownConfidence) dest
  | .onlyLeft | .onlyRight | .ambiguous | .error | .unknown => t.nothing

/-- The table of a row: what is wrong with it first, then what it says. -/
def absorbRow (row : CompareRow) (source dest : Option Entry) (sourceRel : Option RelPath) : Absorbed :=
  if row.verdict = .error then t.absorbError row source dest sourceRel
  else if row.verdict = .ambiguous then t.absorbAmbiguous row source dest sourceRel
  else if row.pairedUnder.any fun transform => !transform.namesOneText then t.absorbNonInjective row dest sourceRel
  else if row.verdict = t.sourceOrphan then
    match source with
    | none => t.nothing
    | some entry => t.pushStep row (if entry.kind = .dir then .createDir else .copy) source sourceRel none none
  else if row.verdict = t.destOrphan then
    if t.mirroring then t.absorbDestOrphan row dest else t.nothing
  else t.absorbPair row source dest sourceRel

/-- A row's source path below its root, and the spelling its directories leave. -/
def sourceRelOf (source : Option Entry) : Except SyncError (Option RelPath) :=
  match source with
  | some entry => (relUnder t.opts.sourceRoot entry.path).map some
  | none => .ok none

def remembered (sourceRel : Option RelPath) (source dest : Option Entry) : Except SyncError Transducer :=
  match sourceRel with
  | some rel => t.rememberSpelling rel source dest
  | none => .ok t

def absorb (row : CompareRow) : Absorbed := do
  let source := t.source row
  let dest := t.dest row
  if t.overlapPrunes source dest then t.nothing
  else match ← t.overlapReached source dest with
    | some (blocker, overlap) => return ({ t with overlap := some overlap }, some (.blocker blocker))
    | none =>
      let sourceRel ← t.sourceRelOf source
      let t ← t.remembered sourceRel source dest
      t.absorbRow row source dest sourceRel

/-- What comes out before the flow ends, and how it ends. -/
def absorbAll (t : Transducer) : List (Except CompareError CompareRow) → List PlanItem × Except SyncError Unit
  | [] => ([], .ok ())
  | .error .cancelled :: _ => ([], .error .cancelled)
  | .ok row :: rows => match t.absorb row with
    | .error e => ([], .error e)
    | .ok (t, item) => ((item.toList ++ (absorbAll t rows).1), (absorbAll t rows).2)

theorem absorbAll_cons (t : Transducer) (row : CompareRow) (rows : List (Except CompareError CompareRow)) :
    t.absorbAll (.ok row :: rows) = match t.absorb row with
      | .error e => ([], .error e)
      | .ok (t, item) => ((item.toList ++ (absorbAll t rows).1), (absorbAll t rows).2) := rfl

end Transducer

/-- The wiring is looked at first, then whether the destination can be written. -/
def plan (rows : List (Except CompareError CompareRow)) (opts : SyncOptions) : List PlanItem × Except SyncError Unit :=
  if opts.sourceSide = .unknown then ([], .error .sourceSideUnknown)
  else if !opts.destWritable then ([.blocker ⟨.root, .destReadOnly, some .right⟩], .ok ())
  else Transducer.absorbAll ⟨opts, 0, none, []⟩ rows

/-! No row changes the options, and where the destination's trash gives back, no step
that is planned cannot be undone. -/

def PlanItem.Undoable (opts : SyncOptions) : PlanItem → Prop
  | .step planned _ => opts.destHasTrash = true → opts.destTrashRestorable = true → planned.reversal ≠ some .irreversible
  | .blocker _ => True

/-- What comes out of a row keeps the options, and can be undone under them. -/
def Keeps (opts : SyncOptions) (result : Transducer.Absorbed) : Prop :=
  ∀ t item, result = .ok (t, item) → t.opts = opts ∧ ∀ i ∈ item, i.Undoable opts

theorem reversalFor_restores (kind : SyncStepKind) {trash restores : Bool} (has : trash = true) (gives : restores = true) :
    (reversalFor kind trash restores).1 ≠ some .irreversible := by
  subst has gives
  cases kind <;> exact nofun

namespace Keeps

variable {t : Transducer} {row : CompareRow} {source dest : Option Entry} {sourceRel : Option RelPath}

theorem remembered_opts {t' : Transducer} (remembers : t.remembered sourceRel source dest = .ok t') : t'.opts = t.opts := by
  unfold Transducer.remembered at remembers
  split at remembers
  · unfold Transducer.rememberSpelling at remembers
    split at remembers
    · rename_i rel s d
      split at remembers
      · cases under : relUnder t.opts.destRoot d.path with
        | error e =>
          rw [under] at remembers
          exact nomatch remembers
        | ok destRel =>
          rw [under] at remembers
          obtain rfl := Except.ok.inj remembers
          dsimp only
          split <;> rfl
      · obtain rfl := Except.ok.inj remembers
        rfl
    · obtain rfl := Except.ok.inj remembers
      rfl
  · obtain rfl := Except.ok.inj remembers
    rfl

theorem bind {α : Type} {opts : SyncOptions} (first : Except SyncError α) {rest : α → Transducer.Absorbed}
    (keeps : ∀ a, first = .ok a → Keeps opts (rest a)) : Keeps opts (first >>= rest) := by
  cases first with
  | error e => exact fun _ _ h => nomatch h
  | ok a => exact keeps a rfl

theorem nothing : Keeps t.opts t.nothing := fun _ _ h => by
  cases h
  exact ⟨rfl, fun _ inside => nomatch inside⟩

theorem pushBlocker (rel : RelPath) (kind : SyncBlockerKind) (side : Option Side) :
    Keeps t.opts (t.pushBlocker rel kind side) := fun _ _ h => by
  cases h
  exact ⟨rfl, fun _ inside => by
    obtain rfl := Option.mem_some.mp inside
    trivial⟩

theorem failed {opts : SyncOptions} (e : SyncError) : Keeps opts (.error e) := fun _ _ h => nomatch h

theorem push (kind : SyncStepKind) (rel : RelPath) (destRel : Option RelPath) (size : Option UInt64)
    (why : Option SyncReason) : Keeps t.opts (t.push row kind rel destRel size why dest) := fun _ _ h => by
  cases h
  refine ⟨rfl, fun _ inside => ?_⟩
  obtain rfl := Option.mem_some.mp inside
  intro trash restores
  dsimp only
  cases why with
  | some why => exact nofun
  | none => exact reversalFor_restores kind trash restores

theorem pushSkip (named : Option RelPath) (paired : Option Entry) (why : SyncReason) :
    Keeps t.opts (t.pushSkip row named paired why dest) := by
  cases named with
  | none => exact nothing
  | some rel => exact bind _ fun _ _ => push _ _ _ _ _

theorem pushStep (kind : SyncStepKind) (why : Option SyncReason) :
    Keeps t.opts (t.pushStep row kind source sourceRel why dest) := by
  unfold Transducer.pushStep
  split
  · split
    · exact failed _
    · exact bind _ fun _ _ => push _ _ _ _ _
  · exact nothing

theorem absorbError : Keeps t.opts (t.absorbError row source dest sourceRel) := by
  unfold Transducer.absorbError
  split
  · exact bind _ fun _ _ => pushBlocker _ _ _
  · exact bind _ fun _ _ => pushSkip _ _ _

theorem absorbAmbiguous : Keeps t.opts (t.absorbAmbiguous row source dest sourceRel) := by
  unfold Transducer.absorbAmbiguous
  split
  · exact bind _ fun _ _ => pushBlocker _ _ _
  · exact pushSkip _ _ _

theorem absorbDestOrphan : Keeps t.opts (t.absorbDestOrphan row dest) := by
  unfold Transducer.absorbDestOrphan
  split
  · exact nothing
  · refine bind _ fun rel _ => ?_
    split
    · exact failed _
    · exact push _ _ _ _ _

theorem absorbPair : Keeps t.opts (t.absorbPair row source dest sourceRel) := by
  unfold Transducer.absorbPair
  split
  · split
    · exact bind _ fun _ _ => pushBlocker _ _ _
    · exact pushStep _ _
  · exact pushStep _ _
  · split
    · exact nothing
    split
    · exact pushStep _ _
    · exact pushStep _ _
  all_goals exact nothing

theorem absorbRow : Keeps t.opts (t.absorbRow row source dest sourceRel) := by
  unfold Transducer.absorbRow
  split
  · exact absorbError
  split
  · exact absorbAmbiguous
  split
  · exact bind _ fun _ _ => pushSkip _ _ _
  split
  · split
    · exact nothing
    · exact pushStep _ _
  split
  · split
    · exact absorbDestOrphan
    · exact nothing
  · exact absorbPair

theorem absorb : Keeps t.opts (t.absorb row) := by
  unfold Transducer.absorb
  dsimp only
  split
  · exact nothing
  refine bind _ fun reached _ => ?_
  split
  · rename_i blocker overlap
    intro _ _ h
    cases h
    refine ⟨rfl, fun _ inside => ?_⟩
    obtain rfl := Option.mem_some.mp inside
    trivial
  · refine bind _ fun sourceRel _ => bind _ fun t' remembers => ?_
    rw [← remembered_opts remembers]
    exact absorbRow

end Keeps

theorem absorbAll_undoable {t : Transducer} (rows : List (Except CompareError CompareRow)) :
    ∀ i ∈ (t.absorbAll rows).1, i.Undoable t.opts := by
  induction rows generalizing t with
  | nil => exact fun _ inside => absurd inside List.not_mem_nil
  | cons row rows ih =>
    cases row with
    | error e =>
      cases e
      exact fun _ inside => absurd inside List.not_mem_nil
    | ok row =>
      rw [Transducer.absorbAll_cons]
      cases absorbed : t.absorb row with
      | error e => exact fun _ inside => absurd inside List.not_mem_nil
      | ok result =>
        obtain ⟨t', item⟩ := result
        obtain ⟨opts, undoable⟩ := Keeps.absorb _ _ absorbed
        intro i inside
        rcases List.mem_append.mp inside with now | later
        · exact undoable i (Option.mem_toList.mp now)
        · rw [← opts]
          exact ih i later

/-- Every step of a plan for a destination whose trash gives back can be undone. -/
theorem plan_undoable (rows : List (Except CompareError CompareRow)) (opts : SyncOptions) :
    ∀ i ∈ (plan rows opts).1, i.Undoable opts := by
  unfold plan
  split
  · exact fun _ inside => absurd inside List.not_mem_nil
  split
  · intro i inside
    obtain rfl := List.mem_singleton.mp inside
    trivial
  · exact absorbAll_undoable rows

end Norte.Sync
