import Norte.SyncSelect

/-! Which rows a plan reads by what they say, and which of these it acts on: told by the rows
alone, whatever the transducer remembers. -/
namespace Norte.Sync

namespace SyncOptions

variable (opts : SyncOptions)

/-- The root of the other side that the row reaches. -/
def overlapAt (row : CompareRow) : Option Overlap :=
  if opts.sourceRoot = opts.destRoot then none
  else if (opts.source row).any fun entry => isAtOrUnder opts.destRoot entry.path then some ⟨opts.destRoot, true⟩
  else if (opts.dest row).any fun entry => isAtOrUnder opts.sourceRoot entry.path then some ⟨opts.sourceRoot, false⟩
  else none

/-- The root that is watched after the rows. -/
def overlapOf (rows : List CompareRow) : Option Overlap := rows.findSome? opts.overlapAt

/-- What becomes of a row: it is passed over, it is the one that reaches, or it is read. -/
inductive Fate where
  | pruned
  | reaches
  | read
  deriving DecidableEq

def fateUnder (watched : Option Overlap) (row : CompareRow) : Fate :=
  match watched with
  | some overlap =>
    if (if overlap.fromSource then opts.source row else opts.dest row).any fun entry =>
      isAtOrUnder overlap.reached entry.path then .pruned else .read
  | none => if (opts.overlapAt row).isSome then .reaches else .read

def fate (before : List CompareRow) (row : CompareRow) : Fate := opts.fateUnder (opts.overlapOf before) row

def sourceOrphan : CompareVerdict := if opts.sourceSide = .left then .onlyLeft else .onlyRight

def destOrphan : CompareVerdict := if opts.sourceSide = .left then .onlyRight else .onlyLeft

/-- The names of the row are paired, and not told to be one text. -/
def untold (row : CompareRow) : Bool := row.pairedUnder.any fun transform => !transform.namesOneText

/-- A pair that is written over. -/
def overwrites (row : CompareRow) : Bool :=
  (opts.source row).isSome && match row.verdict with
    | .typeMismatch => (directorySide (opts.source row) (opts.dest row)).isNone
    | .different => true
    | .same => row.confidence = .unknown && opts.onUnknown = .copy
    | .onlyLeft | .onlyRight | .ambiguous | .error | .unknown => false

/-- A row that is read and calls for a step that acts. -/
def calls (row : CompareRow) : Bool :=
  if row.verdict = .error ∨ row.verdict = .ambiguous ∨ untold row then false
  else if row.verdict = opts.sourceOrphan then (opts.source row).isSome
  else if row.verdict = opts.destOrphan then opts.mode = .mirror && (opts.dest row).isSome
  else opts.overwrites row

/-- What the step of a row reads. -/
def readsAt (row : CompareRow) : Option VPath :=
  if row.verdict = opts.destOrphan then none else (opts.source row).map (·.path)

/-- What the step of a row writes over or takes away. -/
def takesAt (row : CompareRow) : Option VPath :=
  if row.verdict = opts.sourceOrphan then none else (opts.dest row).map (·.path)

end SyncOptions

def PlanItem.acts : PlanItem → Bool
  | .step s _ => s.kind.acts
  | .blocker _ => false

namespace Transducer

variable {t t' : Transducer} {row : CompareRow} {source dest : Option Entry} {sourceRel : Option RelPath}
  {item : Option PlanItem}

/-! ### What is read -/

theorem overlapReached_overlapAt {reached : Option (SyncBlocker × Overlap)} (clear : t.overlap = none)
    (told : t.overlapReached (t.opts.source row) (t.opts.dest row) = .ok reached) :
    reached.map Prod.snd = t.opts.overlapAt row := by
  simp only [overlapReached, clear, Option.isSome_none, Bool.false_eq_true, if_false] at told
  by_cases same : t.opts.sourceRoot = t.opts.destRoot
  · simp only [if_pos same, Except.ok.injEq] at told
    simp [← told, SyncOptions.overlapAt, same]
  simp only [if_neg same] at told
  cases source : (t.opts.source row).filter fun entry => isAtOrUnder t.opts.destRoot entry.path with
  | some entry =>
    obtain ⟨there, inside⟩ := Option.filter_eq_some_iff.mp source
    simp only [source] at told
    cases named : relUnder t.opts.sourceRoot entry.path with
    | error e => simp [named, Except.map] at told
    | ok rel =>
      simp only [named, Except.map, Except.ok.injEq] at told
      simp [← told, SyncOptions.overlapAt, same, there, inside]
  | none =>
    have outside : ((t.opts.source row).any fun entry => isAtOrUnder t.opts.destRoot entry.path) = false := by
      cases there : t.opts.source row with
      | none => rfl
      | some entry => simpa [there, Option.filter] using source
    simp only [source] at told
    cases dest : (t.opts.dest row).filter fun entry => isAtOrUnder t.opts.sourceRoot entry.path with
    | some entry =>
      obtain ⟨there, inside⟩ := Option.filter_eq_some_iff.mp dest
      simp only [dest] at told
      cases named : relUnder t.opts.destRoot entry.path with
      | error e => simp [named, Except.map] at told
      | ok rel =>
        simp only [named, Except.map, Except.ok.injEq] at told
        simp [← told, SyncOptions.overlapAt, same, there, inside, outside]
    | none =>
      have away : ((t.opts.dest row).any fun entry => isAtOrUnder t.opts.sourceRoot entry.path) = false := by
        cases there : t.opts.dest row with
        | none => rfl
        | some entry => simpa [there, Option.filter] using dest
      simp only [dest, Except.ok.injEq] at told
      simp [← told, SyncOptions.overlapAt, same, outside, away]

/-- A row that is absorbed, by its fate. -/
inductive Fated (t : Transducer) (row : CompareRow) (t' : Transducer) (item : Option PlanItem) : SyncOptions.Fate → Prop
  | pruned (nothing : item = none) (same : t'.overlap = t.overlap) : Fated t row t' item .pruned
  | reaches {blocker : SyncBlocker} (blocked : item = some (.blocker blocker)) (now : t'.overlap = t.opts.overlapAt row) :
    Fated t row t' item .reaches
  | read {mid : Transducer} {sourceRel : Option RelPath} (same : t'.overlap = t.overlap)
    (named : t.sourceRelOf (t.opts.source row) = .ok sourceRel)
    (remembers : Remembers t sourceRel (t.opts.source row) (t.opts.dest row) mid)
    (table : mid.absorbRow row (t.opts.source row) (t.opts.dest row) sourceRel = .ok (t', item)) :
    Fated t row t' item .read

theorem absorb_fated (absorbed : t.absorb row = .ok (t', item)) :
    Fated t row t' item (t.opts.fateUnder t.overlap row) := by
  cases t.absorbs row with
  | pruned prunes nothing =>
    have fate : t.opts.fateUnder t.overlap row = .pruned := by
      rw [source_eq, dest_eq] at prunes
      cases watches : t.overlap with
      | none => simp [overlapPrunes, watches] at prunes
      | some overlap =>
        simp only [overlapPrunes, watches] at prunes
        simp only [SyncOptions.fateUnder, prunes, if_true]
    rw [fate]
    obtain ⟨rfl, rfl⟩ := Prod.mk.inj (Except.ok.inj (absorbed.symm.trans nothing))
    exact .pruned rfl rfl
  | reached kept reaches blocked =>
    rename_i blocker overlap
    obtain ⟨rfl, rfl⟩ := Prod.mk.inj (Except.ok.inj (absorbed.symm.trans blocked))
    rw [source_eq, dest_eq] at reaches
    have clear : t.overlap = none := by
      cases watches : t.overlap with
      | none => rfl
      | some overlap => simp [overlapReached, watches] at reaches
    have at_ := overlapReached_overlapAt clear reaches
    have fate : t.opts.fateUnder t.overlap row = .reaches := by simp [SyncOptions.fateUnder, clear, ← at_]
    rw [fate]
    exact .reaches rfl at_
  | failed e failed =>
    rw [absorbed] at failed
    cases failed
  | table kept aside named remembers table =>
    rw [source_eq, dest_eq] at kept aside remembers table
    rw [source_eq] at named
    have fate : t.opts.fateUnder t.overlap row = .read := by
      cases watches : t.overlap with
      | none => simp [SyncOptions.fateUnder, ← overlapReached_overlapAt watches aside]
      | some overlap =>
        simp only [overlapPrunes, watches] at kept
        simp only [SyncOptions.fateUnder, kept, Bool.false_eq_true, if_false]
    have result := table.symm.trans absorbed
    rw [fate]
    exact .read (table_comes named remembers result).2.1 named remembers result

/-- What is watched after a run is told by its rows. -/
theorem Run.overlapOf {rows : List CompareRow} {items : List PlanItem} (run : Run t rows t' items) :
    t'.opts = t.opts ∧ t'.overlap = t.overlap.or (t.opts.overlapOf rows) := by
  induction run with
  | nil => exact ⟨rfl, by simp [SyncOptions.overlapOf]⟩
  | @cons t mid t'' row rows item items absorbed rest ih =>
    obtain ⟨own, watched⟩ := ih
    have kept := absorb_opts absorbed
    refine ⟨own.trans kept, ?_⟩
    rw [watched, kept, SyncOptions.overlapOf, SyncOptions.overlapOf, List.findSome?_cons]
    have fated := absorb_fated absorbed
    generalize fate : t.opts.fateUnder t.overlap row = which at fated
    cases watches : t.overlap with
    | some overlap =>
      have same : mid.overlap = some overlap := by
        cases fated with
        | pruned _ same => exact same.trans watches
        | reaches =>
          simp [watches, SyncOptions.fateUnder, ite_eq_iff] at fate
        | read same => exact same.trans watches
      simp [same]
    | none =>
      rw [watches, SyncOptions.fateUnder] at fate
      cases at_ : t.opts.overlapAt row with
      | some overlap =>
        simp only [at_, Option.isSome_some, if_true] at fate
        subst fate
        cases fated with
        | reaches _ now => simp [now, at_]
      | none =>
        simp only [at_, Option.isSome_none, Bool.false_eq_true, if_false] at fate
        subst fate
        cases fated with
        | read same => simp [same, watches]

/-! ### What the table of a row makes of it -/

theorem Fated.table {opts : SyncOptions} (own : t.opts = opts) (fated : Fated t row t' item .read) :
    ∃ (mid : Transducer) (sourceRel : Option RelPath), mid.opts = opts ∧
      mid.sourceRelOf (opts.source row) = .ok sourceRel ∧ sourceRel.isSome = (opts.source row).isSome ∧
      mid.absorbRow row (opts.source row) (opts.dest row) sourceRel = .ok (t', item) := by
  subst own
  cases fated with
  | @read mid sourceRel _ named remembers table =>
    obtain ⟨opts, -, -⟩ := remembers.keeps
    refine ⟨mid, sourceRel, opts, ?_, ?_, table⟩
    · rw [← named]
      simp only [sourceRelOf, opts]
    · cases there : t.opts.source row with
      | none =>
        rw [there] at named
        obtain rfl := Except.ok.inj named
        rfl
      | some entry =>
        cases found : relUnder t.opts.sourceRoot entry.path with
        | error e => simp [sourceRelOf, there, found, Except.map] at named
        | ok rel =>
          simp only [sourceRelOf, there, found, Except.map, Except.ok.injEq] at named
          rw [← named]
          rfl

/-- No step comes out that acts. -/
theorem pushSkip_acts {named : Option RelPath} {paired : Option Entry} {why : SyncReason}
    (result : t.pushSkip row named paired why dest = .ok (t', item)) : item.any PlanItem.acts = false := by
  cases named with
  | none =>
    obtain ⟨-, rfl⟩ := Prod.mk.inj (Except.ok.inj result)
    rfl
  | some rel =>
    simp only [pushSkip] at result
    cases spelt : t.destRelOf rel paired with
    | error e => simp [spelt, bind, Except.bind] at result
    | ok destRel =>
      rw [spelt] at result
      obtain ⟨-, rfl⟩ := Prod.mk.inj (Except.ok.inj result)
      rfl

theorem pushStep_acts {kind : SyncStepKind} {why : Option SyncReason} (known : sourceRel.isSome = source.isSome)
    (result : t.pushStep row kind source sourceRel why dest = .ok (t', item)) :
    item.any PlanItem.acts = (kind.acts && source.isSome) := by
  cases source with
  | none =>
    obtain ⟨-, rfl⟩ := Prod.mk.inj (Except.ok.inj result)
    simp
  | some entry =>
    obtain ⟨rel, rfl⟩ := Option.isSome_iff_exists.mp known
    simp only [pushStep] at result
    split at result
    · cases result
    cases spelt : t.destRelOf rel dest with
    | error e => simp [spelt, bind, Except.bind] at result
    | ok destRel =>
      rw [spelt] at result
      obtain ⟨-, rfl⟩ := Prod.mk.inj (Except.ok.inj result)
      simp [PlanItem.acts]

theorem absorbDestOrphan_acts (result : t.absorbDestOrphan row dest = .ok (t', item)) :
    item.any PlanItem.acts = dest.isSome := by
  cases dest with
  | none =>
    obtain ⟨-, rfl⟩ := Prod.mk.inj (Except.ok.inj result)
    rfl
  | some entry =>
    simp only [absorbDestOrphan] at result
    cases named : relUnder t.opts.destRoot entry.path with
    | error e => simp [named, bind, Except.bind] at result
    | ok rel =>
      simp only [named, bind, Except.bind] at result
      split at result
      · cases result
      · obtain ⟨-, rfl⟩ := Prod.mk.inj (Except.ok.inj result)
        rfl

theorem blocked_acts {α : Type} {first : Except SyncError α} {rel : α → RelPath} {kind : SyncBlockerKind}
    {side : Option Side} (result : (first >>= fun a => t.pushBlocker (rel a) kind side) = .ok (t', item)) :
    item.any PlanItem.acts = false := by
  cases first with
  | error e => cases result
  | ok a =>
    obtain ⟨-, rfl⟩ := Prod.mk.inj (Except.ok.inj result)
    rfl

theorem absorbPair_acts (known : sourceRel.isSome = (t.opts.source row).isSome)
    (result : t.absorbPair row (t.opts.source row) (t.opts.dest row) sourceRel = .ok (t', item)) :
    item.any PlanItem.acts = t.opts.overwrites row := by
  have written {why : Option SyncReason}
      (stepped : t.pushStep row .overwrite (t.opts.source row) sourceRel why (t.opts.dest row) = .ok (t', item)) :
      item.any PlanItem.acts = (t.opts.source row).isSome := by
    simpa [SyncStepKind.acts] using pushStep_acts known stepped
  have idle (none_ : t.nothing = .ok (t', item)) : item.any PlanItem.acts = false := by
    obtain ⟨-, rfl⟩ := Prod.mk.inj (Except.ok.inj none_)
    rfl
  cases verdict : row.verdict with
  | typeMismatch =>
    simp only [absorbPair, verdict] at result
    simp only [SyncOptions.overwrites, verdict]
    cases which : directorySide (t.opts.source row) (t.opts.dest row) with
    | some side =>
      simp only [which, absorbTypeMismatchDir] at result
      simpa using blocked_acts result
    | none =>
      simp only [which] at result
      simpa using written result
  | different =>
    simp only [absorbPair, verdict] at result
    simpa [SyncOptions.overwrites, verdict] using written result
  | same =>
    simp only [absorbPair, verdict] at result
    simp only [SyncOptions.overwrites, verdict]
    by_cases sure : row.confidence = .unknown
    · by_cases copies : t.opts.onUnknown = .copy
      · simp only [sure, copies, ne_eq, not_true_eq_false, if_false, if_true] at result
        simpa [sure, copies] using written result
      · simp only [sure, copies, ne_eq, not_true_eq_false, if_false] at result
        simpa [sure, copies, SyncStepKind.acts] using pushStep_acts known result
    · simp only [ne_eq, sure, not_false_eq_true, if_true] at result
      simpa [sure] using idle result
  | onlyLeft | onlyRight | ambiguous | error | unknown =>
    simp only [absorbPair, verdict] at result
    simpa [SyncOptions.overwrites, verdict] using idle result

theorem sourceOrphan_eq (t : Transducer) : t.sourceOrphan = t.opts.sourceOrphan := by
  simp [Transducer.sourceOrphan, SyncOptions.sourceOrphan, sourceIsLeft]

theorem destOrphan_eq (t : Transducer) : t.destOrphan = t.opts.destOrphan := by
  simp [Transducer.destOrphan, SyncOptions.destOrphan, sourceIsLeft]

theorem orphans_apart (opts : SyncOptions) : opts.sourceOrphan ≠ opts.destOrphan := by
  unfold SyncOptions.sourceOrphan SyncOptions.destOrphan
  split <;> decide

/-- A row that is read leaves a step that acts if it calls for one. -/
theorem absorbRow_acts (known : sourceRel.isSome = (t.opts.source row).isSome)
    (result : t.absorbRow row (t.opts.source row) (t.opts.dest row) sourceRel = .ok (t', item)) :
    item.any PlanItem.acts = t.opts.calls row := by
  have idle (none_ : t.nothing = .ok (t', item)) : item.any PlanItem.acts = false := by
    obtain ⟨-, rfl⟩ := Prod.mk.inj (Except.ok.inj none_)
    rfl
  unfold Transducer.absorbRow at result
  unfold SyncOptions.calls SyncOptions.untold
  rw [sourceOrphan_eq, destOrphan_eq] at result
  by_cases error : row.verdict = .error
  · simp only [if_pos error, Transducer.absorbError] at result
    simp only [error, true_or, if_true]
    split at result
    · exact blocked_acts result
    · cases named : t.sourceOrDestRel sourceRel (t.opts.dest row) with
      | error e => simp [named, bind, Except.bind] at result
      | ok rel =>
        simp only [named, bind, Except.bind] at result
        exact pushSkip_acts result
  by_cases ambiguous : row.verdict = .ambiguous
  · simp only [if_neg error, if_pos ambiguous, Transducer.absorbAmbiguous] at result
    simp only [ambiguous, true_or, or_true, if_true]
    split at result
    · exact blocked_acts result
    · exact pushSkip_acts result
  by_cases untold : (row.pairedUnder.any fun transform => !transform.namesOneText) = true
  · simp only [if_neg error, if_neg ambiguous, if_pos untold, absorbNonInjective] at result
    simp only [untold, or_true, if_true]
    cases named : t.sourceOrDestRel sourceRel (t.opts.dest row) with
    | error e => simp [named, bind, Except.bind] at result
    | ok rel =>
      simp only [named, bind, Except.bind] at result
      exact pushSkip_acts result
  have sound : ¬(row.verdict = .error ∨ row.verdict = .ambiguous ∨
      (row.pairedUnder.any fun transform => !transform.namesOneText) = true) := by simp [error, ambiguous, untold]
  simp only [if_neg error, if_neg ambiguous, if_neg untold] at result
  rw [if_neg sound]
  by_cases orphan : row.verdict = t.opts.sourceOrphan
  · simp only [if_pos orphan] at result ⊢
    cases there : t.opts.source row with
    | none =>
      simp only [there] at result
      exact idle result
    | some entry =>
      simp only [there] at result known
      rw [pushStep_acts known result]
      split <;> rfl
  simp only [if_neg orphan] at result ⊢
  by_cases alone : row.verdict = t.opts.destOrphan
  · simp only [if_pos alone, mirroring] at result ⊢
    by_cases mirror : t.opts.mode = .mirror
    · simp only [mirror, decide_true, if_true] at result
      simpa [mirror] using absorbDestOrphan_acts result
    · simp only [mirror, decide_false, Bool.false_eq_true, if_false] at result
      simpa [mirror] using idle result
  · simp only [if_neg alone] at result ⊢
    exact absorbPair_acts known result

/-- What the step that acts reads and writes over is told by the row. -/
theorem absorbRow_paths {step : SyncStep} {witness : Option DestWitness}
    (named : t.sourceRelOf (t.opts.source row) = .ok sourceRel)
    (result : t.absorbRow row (t.opts.source row) (t.opts.dest row) sourceRel = .ok (t', some (.step step witness)))
    (acts : step.kind.acts = true) : t.opts.readPath step = t.opts.readsAt row ∧
      ∀ path, t.opts.takesAt row = some path → t.opts.writtenPath step = path := by
  have emits := @Emits.absorbRow t row (t.opts.source row) (t.opts.dest row) sourceRel
  rw [result] at emits
  generalize whole : (.ok (t', some (.step step witness)) : Absorbed) = absorbed at emits
  cases emits with
  | failed | nothing | blocker => cases whole
  | skipped =>
    obtain ⟨-, -, -, i, same, other, rfl, kind, -, -⟩ := push_packaged whole.symm
    obtain ⟨rfl, -⟩ := PlanItem.step.inj (Option.some.inj same)
    rw [kind] at acts
    cases acts
  | orphan verdict there known proper spelt =>
    rename_i entry rel destRel size
    obtain ⟨-, -, -, i, same, other, rfl, kind, rel, destRel⟩ := push_packaged whole.symm
    obtain ⟨rfl, -⟩ := PlanItem.step.inj (Option.some.inj same)
    have path := eq_under_of_relUnder (named_of_sourceRelOf named there known)
    rw [sourceOrphan_eq] at verdict
    have reads : t.opts.readPath step = some (under t.opts.sourceRoot step.rel) := by
      by_cases dir : entry.kind = .dir <;> simp [SyncOptions.readPath, kind, dir]
    refine ⟨?_, fun _ takes => ?_⟩
    · rw [reads, SyncOptions.readsAt, if_neg (by rw [verdict]; exact orphans_apart _), there, Option.map_some, path, rel]
    · rw [SyncOptions.takesAt, if_pos verdict] at takes
      cases takes
  | paired verdict sure there known proper spelt =>
    rename_i entry rel destRel size
    obtain ⟨-, -, -, i, same, other, rfl, kind, rel, destRel⟩ := push_packaged whole.symm
    obtain ⟨rfl, -⟩ := PlanItem.step.inj (Option.some.inj same)
    have path := eq_under_of_relUnder (named_of_sourceRelOf named there known)
    rw [sourceOrphan_eq, destOrphan_eq] at verdict
    have reads : t.opts.readPath step = some (under t.opts.sourceRoot step.rel) := by
      simp [SyncOptions.readPath, kind]
    refine ⟨?_, fun written takes => ?_⟩
    · rw [reads, SyncOptions.readsAt, if_neg verdict.2, there, Option.map_some, path, rel]
    · rw [SyncOptions.takesAt, if_neg verdict.1] at takes
      obtain ⟨d, found, rfl⟩ := Option.map_eq_some_iff.mp takes
      rw [found] at spelt
      exact writtenPath_paired spelt rel destRel
  | deleted verdict there known proper =>
    rename_i entry rel
    obtain ⟨-, -, -, i, same, other, rfl, kind, rel, destRel⟩ := push_packaged whole.symm
    obtain ⟨rfl, -⟩ := PlanItem.step.inj (Option.some.inj same)
    rw [destOrphan_eq] at verdict
    refine ⟨?_, fun written takes => ?_⟩
    · rw [SyncOptions.readsAt, if_pos verdict]
      simp [SyncOptions.readPath, kind]
    · rw [SyncOptions.takesAt, if_neg (by rw [verdict]; exact (orphans_apart _).symm), there] at takes
      obtain rfl := Option.some.inj takes
      rw [SyncOptions.writtenPath, destRel, rel]
      exact (eq_under_of_relUnder known).symm

/-! ### Rows that do not end the flow -/

theorem absorb_placed (placed : t.opts.Placed row) (error : row.verdict = .error) :
    ∃ result, t.absorb row = .ok result := by
  have named (entry : Entry) (there : t.opts.dest row = some entry) : ∃ rel, relUnder t.opts.destRoot entry.path = .ok rel :=
    relUnder_of_hangsOff (placed.dest entry there)
  cases t.absorbs row with
  | pruned _ nothing => exact ⟨_, nothing⟩
  | reached _ _ blocked => exact ⟨_, blocked⟩
  | failed e failed astray =>
    rw [source_eq, dest_eq] at astray
    rcases astray with ⟨entry, there, away⟩ | ⟨entry, there, away⟩
    · obtain ⟨rel, found⟩ := relUnder_of_hangsOff (placed.source entry there)
      rw [away] at found
      cases found
    · obtain ⟨rel, found⟩ := named entry there
      rw [away] at found
      cases found
  | table kept aside told remembers table =>
    rename_i sourceRel mid
    obtain ⟨opts, -, -⟩ := remembers.keeps
    rw [← opts] at named
    rw [table, source_eq, dest_eq, ← opts]
    simp only [Transducer.absorbRow, if_pos error, Transducer.absorbError]
    generalize mid.opts.dest row = dest at named ⊢
    generalize mid.opts.source row = source
    clear kept aside told remembers table
    have skips (rel : Option RelPath) (why : SyncReason) :
        ∃ result, mid.pushSkip row rel dest why dest = .ok result := by
      cases rel with
      | none => exact ⟨_, rfl⟩
      | some rel =>
        cases dest with
        | none =>
          simp only [pushSkip, destRelOf]
          split <;> exact ⟨_, rfl⟩
        | some entry =>
          obtain ⟨destRel, found⟩ := named entry rfl
          simp only [pushSkip, destRelOf, found, Except.map]
          exact ⟨_, rfl⟩
    split
    · cases dest with
      | none => exact ⟨_, rfl⟩
      | some entry =>
        obtain ⟨destRel, found⟩ := named entry rfl
        simp only [destOrSourceRel, found]
        exact ⟨_, rfl⟩
    · cases sourceRel with
      | some rel => exact skips (some rel) .unreadable
      | none =>
        cases dest with
        | none => exact skips none .unreadable
        | some entry =>
          obtain ⟨destRel, found⟩ := named entry rfl
          simp only [sourceOrDestRel, found, Except.map]
          exact skips (some destRel) .unreadable

/-- Rows that are placed, and below their roots if they are not errors, are all absorbed. -/
theorem Run.whole {rows : List CompareRow}
    (fine : ∀ row ∈ rows, t.opts.Below row ∨ row.verdict = .error ∧ t.opts.Placed row) :
    ∃ t' items, Run t rows t' items := by
  induction rows generalizing t with
  | nil => exact ⟨t, [], .nil t⟩
  | cons row rows ih =>
    obtain ⟨result, absorbed⟩ : ∃ result, t.absorb row = .ok result := by
      rcases fine row List.mem_cons_self with below_ | ⟨error, placed⟩
      · exact absorb_below below_
      · exact absorb_placed placed error
    have kept := absorb_opts absorbed
    obtain ⟨t', items, run⟩ := ih (t := result.1) fun later member => by
      rw [kept]
      exact fine later (List.mem_cons_of_mem _ member)
    exact ⟨t', _, .cons absorbed run⟩

end Transducer

end Norte.Sync
