import Norte.CompareShut
import Norte.SyncReads

/-! Directories that are refused. The planner refuses a row by what it says and the comparison
does not go into what such a row names, so that nothing is planned below it on either side. A
pair whose names are not told to be one text is gone into all the same, and so is the pair
that reaches the root of the other side. -/
namespace Norte.Sync

open Compare (Comparison)
open Compare.Comparison (Twin Blind Closes)
open StackWalk
open Transducer

/-- A skip that leaves a pair as it is, or a blocker. -/
def PlanItem.Refuses : PlanItem → Prop
  | .step skipped _ => skipped.kind = .skip ∧ (skipped.reason = some .nonInjectivePairing ∨
      skipped.reason = some .ambiguousSource ∨ skipped.reason = some .unreadable)
  | .blocker _ => True

/-- The row is read for the plan and leaves the element. -/
def Yields (opts : SyncOptions) (rows : List CompareRow) (row : CompareRow) (item : PlanItem) : Prop :=
  ∃ before after t t' items, rows = before ++ row :: after ∧ Run (start opts) before t items ∧
    t.absorb row = .ok (t', some item)

/-- The row names one of the two directories, or both. -/
def OfPair (opts : SyncOptions) (row : CompareRow) (source dest : RelPath) : Prop :=
  (∃ e, opts.source row = some e ∧ e.path = under opts.sourceRoot source) ∨
    ∃ e, opts.dest row = some e ∧ e.path = under opts.destRoot dest

/-- What the step reads is strictly inside what the row names of the source, or what it writes
strictly inside what the row names of the destination. -/
def InsideNamed (opts : SyncOptions) (step : SyncStep) (row : CompareRow) : Prop :=
  (∃ e path, opts.source row = some e ∧ opts.readPath step = some path ∧ Strictly e.path path) ∨
    ∃ e, opts.dest row = some e ∧ Strictly e.path (opts.writtenPath step)

/-- Nothing acts inside a refused directory: neither inside the pair it is of, nor inside it
where a collision keeps it from a pair. -/
structure RefusedUntouched (opts : SyncOptions) (rows : List CompareRow) : Prop where
  pairs : ∀ source dest, DirPair opts rows source dest → ∀ row item, OfPair opts row source dest →
    Yields opts rows row item → item.Refuses → ∀ step witness, .step step witness ∈ fullPlan rows opts →
      step.kind.acts = true → ¬InsidePair opts step source dest
  collided : ∀ row item, row.verdict = .ambiguous → Yields opts rows row item → item.Refuses →
    ∀ step witness, .step step witness ∈ fullPlan rows opts → step.kind.acts = true → ¬InsideNamed opts step row

/-- Part of what the row calls for is strictly inside the pair. -/
def CallsInside (opts : SyncOptions) (row : CompareRow) (source dest : RelPath) : Prop :=
  opts.calls row = true ∧ ((∃ path, opts.readsAt row = some path ∧ Strictly (under opts.sourceRoot source) path) ∨
    ∃ path, opts.takesAt row = some path ∧ Strictly (under opts.destRoot dest) path)

/-- A row that is refused though the comparison may go into what it names: its names are not
told to be one text, or it is the first to reach the root of the other side. -/
def TurnedAway (opts : SyncOptions) (before : List CompareRow) (row : CompareRow) : Prop :=
  opts.fate before row = .reaches ∨
    opts.fate before row = .read ∧ row.verdict ≠ .error ∧ row.verdict ≠ .ambiguous ∧ SyncOptions.untold row = true

/-- Somewhere inside a pair that is turned away a row is read that calls for a step. -/
def Exposed (opts : SyncOptions) (rows : List CompareRow) : Prop :=
  opts.destWritable = true ∧ ∃ source dest, DirPair opts rows source dest ∧
    (∃ before row after, rows = before ++ row :: after ∧ OfPair opts row source dest ∧ TurnedAway opts before row) ∧
    ∃ before row after, rows = before ++ row :: after ∧ opts.fate before row = .read ∧ CallsInside opts row source dest

/-! ### Why a row is refused -/

/-- What comes out refuses nothing. -/
def Mild (result : Absorbed) : Prop := ∀ t item, result = .ok (t, some item) → ¬item.Refuses

namespace Mild

variable {t : Transducer} {row : CompareRow} {source dest : Option Entry} {sourceRel : Option RelPath}

theorem bind {α : Type} (first : Except SyncError α) {rest : α → Absorbed} (mild : ∀ a, Mild (rest a)) :
    Mild (first >>= rest) := by
  cases first with
  | error e =>
    intro t item failed
    cases failed
  | ok a => exact mild a

theorem nothing : Mild t.nothing := by
  intro t' item none_
  cases none_

theorem failed (e : SyncError) : Mild (.error e) := by
  intro t' item failed
  cases failed

theorem push {kind : SyncStepKind} (rel : RelPath) (destRel : Option RelPath) (size : Option UInt64)
    (why : Option SyncReason) (other : kind ≠ .skip ∨ why = some .unknownConfidence) :
    Mild (t.push row kind rel destRel size why dest) := by
  intro t' item pushed
  obtain ⟨-, same⟩ := Prod.mk.inj (Except.ok.inj pushed)
  obtain rfl := Option.some.inj same
  rintro ⟨skips, reason⟩
  rcases other with acts | rfl
  · exact acts skips
  · simp at reason

theorem pushStep (kind : SyncStepKind) (why : Option SyncReason)
    (other : kind ≠ .skip ∨ why = some .unknownConfidence) :
    Mild (t.pushStep row kind source sourceRel why dest) := by
  unfold Transducer.pushStep
  split
  · split
    · exact failed _
    · exact bind _ fun _ => push _ _ _ _ other
  · exact nothing

theorem absorbDestOrphan : Mild (t.absorbDestOrphan row dest) := by
  unfold Transducer.absorbDestOrphan
  split
  · exact nothing
  · refine bind _ fun rel => ?_
    split
    · exact failed _
    · exact push _ _ _ _ (.inl (by simp))

theorem absorbPair (sound : row.verdict ≠ .typeMismatch) :
    Mild (t.absorbPair row source dest sourceRel) := by
  have overwrite : Mild (t.pushStep row .overwrite source sourceRel none dest) := pushStep _ _ (.inl (by simp))
  unfold Transducer.absorbPair
  split
  · rename_i mismatch
    exact absurd mismatch sound
  · exact overwrite
  · split
    · exact nothing
    split
    · exact overwrite
    · exact pushStep _ _ (.inr rfl)
  all_goals exact nothing

theorem absorbRow (sound : row.verdict ≠ .error ∧ row.verdict ≠ .ambiguous ∧ row.verdict ≠ .typeMismatch) (told : SyncOptions.untold row = false) :
    Mild (t.absorbRow row source dest sourceRel) := by
  unfold Transducer.absorbRow
  rw [if_neg sound.1, if_neg sound.2.1]
  split
  · rename_i untold
    simp [SyncOptions.untold, untold] at told
  split
  · split
    · exact nothing
    · refine pushStep _ _ (.inl ?_)
      split <;> simp
  split
  · split
    · exact absorbDestOrphan
    · exact nothing
  · exact absorbPair sound.2.2

end Mild

/-- A row whose verdict keeps the comparison out of what it names. -/
def Shuts (row : CompareRow) : Prop :=
  row.verdict = .error ∨ row.verdict = .ambiguous ∨ row.verdict = .typeMismatch

variable {c : Comparison} {s : DescendSide} {rows before : List CompareRow} {opts : SyncOptions}
  {row : CompareRow}

/-- The row at a place of a run that leaves something, by its fate. -/
theorem fated_of_run {t t' : Transducer} {items : List PlanItem} {item : Option PlanItem}
    (run : Run (start opts) before t items) (absorbed : t.absorb row = .ok (t', item)) :
    t.opts = opts ∧ Fated t row t' item (opts.fate before row) := by
  obtain ⟨own, watched⟩ := run.overlapOf
  have own : t.opts = opts := own
  have watched : t.overlap = opts.overlapOf before := by simpa [start] using watched
  have fated := absorb_fated absorbed
  rw [own, watched] at fated
  exact ⟨own, fated⟩

/-- Why a row is refused. -/
theorem refused_cases {item : PlanItem} (yields : Yields opts rows row item) (refuses : item.Refuses) :
    Shuts row ∨ ∃ before after, rows = before ++ row :: after ∧ TurnedAway opts before row := by
  obtain ⟨before, after, t, t', items, split, run, absorbed⟩ := yields
  obtain ⟨own, fated⟩ := fated_of_run run absorbed
  generalize fate : opts.fate before row = which at fated
  cases which with
  | pruned =>
    cases fated with
    | pruned nothing => cases nothing
  | reaches => exact .inr ⟨before, after, split, .inl fate⟩
  | read =>
    by_cases shuts : Shuts row
    · exact .inl shuts
    obtain ⟨error, ambiguous, mismatch⟩ : row.verdict ≠ .error ∧ row.verdict ≠ .ambiguous ∧
        row.verdict ≠ .typeMismatch := by simpa [Shuts] using shuts
    obtain ⟨mid, sourceRel, -, -, -, table⟩ := fated.table own
    cases told : SyncOptions.untold row with
    | true => exact .inr ⟨before, after, split, .inr ⟨fate, error, ambiguous, told⟩⟩
    | false => exact absurd refuses (Mild.absorbRow ⟨error, ambiguous, mismatch⟩ told _ _ table)

theorem sourceOrDestRel_some {t : Transducer} {sourceRel rel : Option RelPath} {dest : Option Entry}
    (named : t.sourceOrDestRel sourceRel dest = .ok rel) (names : sourceRel.isSome ∨ dest.isSome) : rel.isSome := by
  cases sourceRel with
  | some own =>
    obtain rfl := Except.ok.inj named
    rfl
  | none =>
    cases dest with
    | none => simp at names
    | some entry =>
      cases found : relUnder t.opts.destRoot entry.path with
      | error e => simp [sourceOrDestRel, found, Except.map] at named
      | ok other =>
        simp only [sourceOrDestRel, found, Except.map, Except.ok.injEq] at named
        rw [← named]
        rfl

theorem absorbNonInjective_refuses {t t' : Transducer} {sourceRel : Option RelPath} {dest : Option Entry}
    {item : Option PlanItem} (result : t.absorbNonInjective row dest sourceRel = .ok (t', item))
    (names : sourceRel.isSome ∨ dest.isSome) : ∃ i, item = some i ∧ i.Refuses := by
  simp only [absorbNonInjective] at result
  cases named : t.sourceOrDestRel sourceRel dest with
  | error e => simp [named, bind, Except.bind] at result
  | ok rel =>
    obtain ⟨rel, rfl⟩ := Option.isSome_iff_exists.mp (sourceOrDestRel_some named names)
    simp only [named, bind, Except.bind, pushSkip] at result
    cases spelt : t.destRelOf rel dest with
    | error e => simp [spelt] at result
    | ok destRel =>
      rw [spelt] at result
      obtain ⟨-, rfl⟩ := Prod.mk.inj (Except.ok.inj result)
      exact ⟨_, rfl, rfl, .inl rfl⟩

/-- A row that is turned away is refused. -/
theorem turnedAway_refuses {t t' : Transducer} {items : List PlanItem} {item : Option PlanItem}
    (run : Run (start opts) before t items) (absorbed : t.absorb row = .ok (t', item))
    (away : TurnedAway opts before row) (names : (opts.source row).isSome ∨ (opts.dest row).isSome) :
    ∃ i, item = some i ∧ i.Refuses := by
  obtain ⟨own, fated⟩ := fated_of_run run absorbed
  rcases away with reaches | ⟨read, error, ambiguous, untold⟩
  · rw [reaches] at fated
    cases fated with
    | reaches blocked => exact ⟨_, blocked, trivial⟩
  · rw [read] at fated
    obtain ⟨mid, sourceRel, opts', -, known, table⟩ := fated.table own
    have skips : mid.absorbNonInjective row (opts.dest row) sourceRel = .ok (t', item) := by
      unfold Transducer.absorbRow at table
      rwa [if_neg error, if_neg ambiguous, if_pos (by simpa [SyncOptions.untold] using untold)] at table
    exact absorbNonInjective_refuses skips (by rwa [known])

theorem hangsOff_of_relUnder {root path : VPath} {rel : RelPath} (named : relUnder root path = .ok rel) :
    HangsOff root path := by
  rw [eq_under_of_relUnder named]
  exact Comparison.hangsOff_under root rel

theorem strictly_of_child {root dir path : VPath} (hangs : HangsOff root dir) (child : Child dir path) :
    Strictly root path := by
  obtain ⟨name, rfl⟩ := child
  obtain ⟨rel, named⟩ := relUnder_of_hangsOff hangs
  refine ⟨⟨rel.segments ++ [name]⟩, ?_, by simp [RelPath.isRoot]⟩
  rw [eq_under_of_relUnder named, ← under_join, relUnder, relPath_under]

/-- What is called for without a reading is a deletion. -/
theorem takes_of_idle (calls : opts.calls row = true) (idle : opts.readsAt row = none) :
    ∃ path, opts.takesAt row = some path := by
  have reads (there : (opts.source row).isSome) : row.verdict = opts.destOrphan := by
    by_contra other
    obtain ⟨entry, found⟩ := Option.isSome_iff_exists.mp there
    simp [SyncOptions.readsAt, other, found] at idle
  unfold SyncOptions.calls at calls
  split at calls
  · cases calls
  split at calls
  · rename_i orphan
    exact absurd (orphan.symm.trans (reads calls)) (orphans_apart opts)
  rename_i other
  split at calls
  · obtain ⟨entry, found⟩ := Option.isSome_iff_exists.mp (Bool.and_eq_true_iff.mp calls).2
    exact ⟨entry.path, by simp [SyncOptions.takesAt, other, found]⟩
  · rename_i away
    exact absurd (reads (Bool.and_eq_true_iff.mp calls).1) away

theorem under_strictly {root : VPath} {above rel : RelPath} (inside : above.segments <+: rel.segments)
    (proper : above.segments ≠ rel.segments) : Strictly (under root above) (under root rel) := by
  obtain ⟨rest, whole⟩ := inside
  refine ⟨⟨rest⟩, ?_, ?_⟩
  · have path : under root rel = under (under root above) ⟨rest⟩ := by simp [under_eq, ← whole]
    rw [path, relUnder, relPath_under]
  · cases rest with
    | nil => exact absurd (by simpa using whole) proper
    | cons => rfl

namespace Wired

/-- Where a row comes from. -/
theorem pending (wired : Wired c s rows opts) (member : row ∈ rows) : ∃ f pendingRow, Reaches c.kids c.rootFrame f ∧
    pendingRow ∈ c.emits f ∧ pendingRow.verdict = row.verdict ∧ ∀ s', pendingRow.entry s' = Compare.rowEntry row s' := by
  obtain ⟨out, walks, rfl⟩ := wired.walks member
  obtain ⟨pendingRow, inside, k, rfl⟩ := Compare.mem_of_mem_numbered member
  obtain ⟨f, single, g, down, emitted⟩ := walks.mem_iff.mp inside
  obtain rfl := List.mem_singleton.mp single
  exact ⟨g, pendingRow, down, emitted, (Compare.intoRow_verdict ..).symm, fun s' => (Compare.intoRow_entry ..).symm⟩

/-- A row names what is below its roots, or says that a directory could not be listed. -/
theorem fine (wired : Wired c s rows opts) (member : row ∈ rows) :
    opts.Below row ∨ row.verdict = .error ∧ opts.Placed row := by
  obtain ⟨f, pendingRow, down, emitted, verdict, entries⟩ := wired.pending member
  have region (s' : DescendSide) (e : Entry) (there : Compare.rowEntry row s' = some e) :
      ∃ d, HangsOff (c.root s') d.path ∧ if pendingRow.listingError then e = d else Child d.path e.path := by
    rw [← entries] at there
    obtain ⟨d, dir, region⟩ := Comparison.emits_region emitted there
    obtain ⟨top, first, hangs⟩ := Comparison.reaches_region down dir
    obtain rfl := Option.some.inj ((c.rootFrame_dir s').symm.trans first)
    exact ⟨d, hangs, region⟩
  cases failed : pendingRow.listingError with
  | true =>
    simp only [failed, if_true] at region
    refine .inr ⟨?_, fun e there => ?_, fun e there => ?_⟩
    · rw [← verdict]
      simp only [Compare.PendingRow.listingError, Bool.and_eq_true, decide_eq_true_eq] at failed
      exact failed.1
    · rw [wired.source_eq] at there
      obtain ⟨d, hangs, rfl⟩ := region s e there
      rwa [wired.source]
    · rw [wired.dest_eq] at there
      obtain ⟨d, hangs, rfl⟩ := region s.other e there
      rwa [wired.dest]
  | false =>
    simp only [failed, Bool.false_eq_true, if_false] at region
    refine .inl ⟨fun e there => ?_, fun e there => ?_⟩
    · rw [wired.source_eq] at there
      obtain ⟨d, hangs, child⟩ := region s e there
      rw [wired.source]
      exact strictly_of_child hangs child
    · rw [wired.dest_eq] at there
      obtain ⟨d, hangs, child⟩ := region s.other e there
      rw [wired.dest]
      exact strictly_of_child hangs child

theorem placed (wired : Wired c s rows opts) (member : row ∈ rows) : opts.Placed row := by
  have hangs {root path : VPath} (strict : Strictly root path) : HangsOff root path := by
    obtain ⟨rel, named, -⟩ := strict
    exact hangsOff_of_relUnder named
  rcases wired.fine member with below_ | ⟨-, placed⟩
  · exact ⟨fun e there => hangs (below_.source e there), fun e there => hangs (below_.dest e there)⟩
  · exact placed

/-- Every row is absorbed, and what it leaves is in the plan. -/
theorem at_row (wired : Wired c s rows opts) {after : List CompareRow} (split : rows = before ++ row :: after) :
    ∃ t t' items item, Run (start opts) before t items ∧ t.absorb row = .ok (t', item) ∧
      (opts.destWritable = true → ∀ i ∈ item, i ∈ fullPlan rows opts) := by
  subst split
  obtain ⟨last, all, run⟩ := Run.whole (t := start opts) fun r member => wired.fine member
  obtain ⟨t, first, second, ran, later, rfl⟩ := run.split
  cases later with
  | @cons _ mid _ _ _ item rest absorbed others =>
    refine ⟨t, mid, first, item, ran, absorbed, fun writable i inside => ?_⟩
    have whole := run.absorbAll []
    rw [List.append_nil] at whole
    rw [fullPlan, plan_eq wired.known writable, whole]
    simp [Option.mem_toList.mpr inside]

/-- An acting step comes from a row that is read and calls for it. -/
theorem acting (wired : Wired c s rows opts) {step : SyncStep} {witness : Option DestWitness}
    (inside : .step step witness ∈ fullPlan rows opts) (acts : step.kind.acts = true) :
    opts.destWritable = true ∧ ∃ before row after, rows = before ++ row :: after ∧ opts.fate before row = .read ∧
      opts.calls row = true ∧ Carries c s opts row step ∧ opts.readPath step = opts.readsAt row ∧
      ∀ path, opts.takesAt row = some path → opts.writtenPath step = path := by
  have writable : opts.destWritable = true := by
    by_contra other
    have readOnly : opts.destWritable = false := by simpa using other
    simp [fullPlan, plan, wired.known, readOnly] at inside
  obtain ⟨done, rest, last, rfl, run⟩ := wired.planned inside
  obtain ⟨first, others, whole⟩ := List.append_of_mem inside
  rw [whole] at run
  obtain ⟨before, row, after, t, t', rfl, ran, absorbed, -⟩ := run.at_item
  obtain ⟨own, fated⟩ := fated_of_run ran absorbed
  have member : row ∈ (before ++ row :: after) ++ rest := by simp
  obtain ⟨-, spelt, -⟩ := wired.run (fun r inside => by simp [inside]) rfl
    (fun p none_ => absurd none_ List.not_mem_nil) ran
  obtain ⟨-, -, carries⟩ := wired.absorb member own spelt absorbed
  refine ⟨writable, before, row, after ++ rest, by simp, ?_⟩
  generalize fate : opts.fate before row = which at fated
  cases which with
  | pruned =>
    cases fated with
    | pruned nothing => cases nothing
  | reaches =>
    cases fated with
    | reaches blocked => cases blocked
  | read =>
    obtain ⟨mid, sourceRel, rfl, named, known, table⟩ := fated.table own
    obtain ⟨reads, takes⟩ := absorbRow_paths named table acts
    refine ⟨rfl, ?_, carries step witness rfl, reads, takes⟩
    rw [← absorbRow_acts known table]
    exact acts

/-- A row that is read and calls for a step leaves it in the plan. -/
theorem called (wired : Wired c s rows opts) (writable : opts.destWritable = true) {after : List CompareRow}
    (split : rows = before ++ row :: after) (read : opts.fate before row = .read) (calls : opts.calls row = true) :
    ∃ step witness, .step step witness ∈ fullPlan rows opts ∧ step.kind.acts = true ∧
      opts.readPath step = opts.readsAt row ∧ ∀ path, opts.takesAt row = some path → opts.writtenPath step = path := by
  obtain ⟨t, t', items, item, run, absorbed, planned⟩ := wired.at_row split
  obtain ⟨own, fated⟩ := fated_of_run run absorbed
  rw [read] at fated
  obtain ⟨mid, sourceRel, rfl, named, known, table⟩ := fated.table own
  have acts := absorbRow_acts known table
  rw [calls] at acts
  cases item with
  | none => cases acts
  | some i =>
    cases i with
    | blocker b => cases acts
    | step step witness =>
      have acts : step.kind.acts = true := acts
      obtain ⟨reads, takes⟩ := absorbRow_paths named table acts
      exact ⟨step, witness, planned writable _ rfl, acts, reads, takes⟩

/-- A step is inside a pair where what its row calls for is. -/
theorem callsInside (wired : Wired c s rows opts) {step : SyncStep} {source dest : RelPath}
    (carries : Carries c s opts row step) (calls : opts.calls row = true)
    (reads : opts.readPath step = opts.readsAt row) (pair : DirPair opts rows source dest)
    (takes : ∀ path, opts.takesAt row = some path → opts.writtenPath step = path)
    (inside : InsidePair opts step source dest) : CallsInside opts row source dest := by
  refine ⟨calls, ?_⟩
  by_cases reading : opts.readPath step = none
  · obtain ⟨path, taken⟩ := takes_of_idle calls (reads.symm.trans reading)
    rcases inside with ⟨path, read, -⟩ | strict
    · rw [reading] at read
      cases read
    · rw [takes path taken] at strict
      exact .inr ⟨path, taken, strict⟩
  · refine .inl ⟨_, reads.symm.trans (SyncOptions.readPath_eq reading), ?_⟩
    rcases inside with ⟨path, read, strict⟩ | strict
    · rwa [← Option.some.inj ((SyncOptions.readPath_eq reading).symm.trans read)] at strict
    · refine under_strictly (wired.inside_source carries reading pair (.inr strict)) fun same => ?_
      obtain ⟨above, proper⟩ := strictly_under strict
      have long := (carries.twin reading).length
      have pairLong := (wired.pair_twin pair).length
      rw [same] at pairLong
      exact proper (above.eq_of_length (by omega))

/-! ### Where nobody went in -/

/-- What a row calls for is not below a directory that is blind on that side. -/
theorem not_called_below (wired : Wired c s rows opts) (member : row ∈ rows) (calls : opts.calls row = true)
    {s' : DescendSide} {e : Entry} {path : VPath} (there : Compare.rowEntry row s' = some e) (strict : Strictly path e.path)
    (blind : ∀ g d, Reaches c.kids c.rootFrame g → g.dir s' = some d → HangsOff path d.path → c.Blind g) : False := by
  obtain ⟨f, pendingRow, down, emitted, verdict, entries⟩ := wired.pending member
  have sound : row.verdict ≠ .error := by
    intro error
    simp [SyncOptions.calls, error] at calls
  have clean : pendingRow.listingError = false := by
    simp [Compare.PendingRow.listingError, verdict, sound]
  rw [← entries] at there
  obtain ⟨d, dir, region⟩ := Comparison.emits_region emitted there
  rw [if_neg (by simp [clean])] at region
  obtain ⟨rel, named, proper⟩ := strict
  have inside := hangsOff_of_relUnder named
  rcases region.above inside with rfl | above
  · have root := relPath_under e.path .root
    rw [show under e.path .root = e.path from by simp [under_eq, RelPath.root]] at root
    simp only [relUnder, root] at named
    obtain rfl := Except.ok.inj named
    simp [RelPath.root, RelPath.isRoot] at proper
  · have failed := (blind f d down dir above).2 pendingRow emitted
    rw [clean] at failed
    cases failed

/-- What a row that shuts names is shut off, and known. -/
theorem shutOff (wired : Wired c s rows opts) (member : row ∈ rows) (shuts : Shuts row) {s' : DescendSide} {e : Entry}
    (there : Compare.rowEntry row s' = some e) : c.ShutOff s' e.path ∧ c.Known s' e.path := by
  obtain ⟨f, pendingRow, down, emitted, verdict, entries⟩ := wired.pending member
  rw [← entries] at there
  have closes : Closes pendingRow := by rwa [Closes, verdict]
  exact ⟨Comparison.shutOff_of_row wired.trees down emitted there closes, Comparison.emits_known down emitted there⟩

theorem reads_entry (wired : Wired c s rows opts) {path : VPath} (reads : opts.readsAt row = some path) :
    ∃ e, Compare.rowEntry row s = some e ∧ e.path = path := by
  unfold SyncOptions.readsAt at reads
  split at reads
  · cases reads
  · rw [wired.source_eq] at reads
    obtain ⟨e, there, same⟩ := Option.map_eq_some_iff.mp reads
    exact ⟨e, there, same⟩

theorem takes_entry (wired : Wired c s rows opts) {path : VPath} (takes : opts.takesAt row = some path) :
    ∃ e, Compare.rowEntry row s.other = some e ∧ e.path = path := by
  unfold SyncOptions.takesAt at takes
  split at takes
  · cases takes
  · rw [wired.dest_eq] at takes
    obtain ⟨e, there, same⟩ := Option.map_eq_some_iff.mp takes
    exact ⟨e, there, same⟩

/-- Nothing is called for below what is shut off on the source's side, nor below its twin. -/
theorem not_called_source (wired : Wired c s rows opts) (member : row ∈ rows) {source dest : RelPath}
    (twin : Twin c s source.segments dest.segments) (shut : c.ShutOff s (under opts.sourceRoot source)) :
    ¬CallsInside opts row source dest := by
  rw [wired.source] at shut
  rintro ⟨calls, ⟨path, reads, strict⟩ | ⟨path, takes, strict⟩⟩
  · obtain ⟨e, there, rfl⟩ := wired.reads_entry reads
    rw [wired.source] at strict
    exact wired.not_called_below member calls there strict fun g d down dir below_ =>
      shut.below down dir below_ (Comparison.hangsOff_under _ _)
  · obtain ⟨e, there, rfl⟩ := wired.takes_entry takes
    rw [wired.dest] at strict
    exact wired.not_called_below member calls there strict fun g d down dir below_ =>
      shut.across twin down dir below_

/-- The same on the destination's side. -/
theorem not_called_dest (wired : Wired c s rows opts) (member : row ∈ rows) {source dest : RelPath}
    (twin : Twin c s source.segments dest.segments) (shut : c.ShutOff s.other (under opts.destRoot dest))
    (known : c.Known s.other (under opts.destRoot dest)) : ¬CallsInside opts row source dest := by
  rw [wired.dest] at shut known
  rintro ⟨calls, ⟨path, reads, strict⟩ | ⟨path, takes, strict⟩⟩
  · obtain ⟨e, there, rfl⟩ := wired.reads_entry reads
    rw [wired.source] at strict
    exact wired.not_called_below member calls there strict fun g d down dir below_ =>
      shut.back twin known down dir below_
  · obtain ⟨e, there, rfl⟩ := wired.takes_entry takes
    rw [wired.dest] at strict
    exact wired.not_called_below member calls there strict fun g d down dir below_ =>
      shut.below down dir below_ (Comparison.hangsOff_under _ _)

theorem shuts_untouched (wired : Wired c s rows opts) (member : row ∈ rows) (shuts : Shuts row) {source dest : RelPath}
    (pair : DirPair opts rows source dest) (names : OfPair opts row source dest) {other : CompareRow}
    (member' : other ∈ rows) : ¬CallsInside opts other source dest := by
  have twin := wired.pair_twin pair
  rcases names with ⟨e, there, path⟩ | ⟨e, there, path⟩
  · rw [wired.source_eq] at there
    obtain ⟨shut, -⟩ := wired.shutOff member shuts there
    rw [path] at shut
    exact wired.not_called_source member' twin shut
  · rw [wired.dest_eq] at there
    obtain ⟨shut, known⟩ := wired.shutOff member shuts there
    rw [path] at shut known
    exact wired.not_called_dest member' twin shut known

/-- A step is not inside what a collision keeps from a pair. -/
theorem collided_untouched (wired : Wired c s rows opts) (member : row ∈ rows) (shuts : Shuts row) {other : CompareRow}
    (member' : other ∈ rows) {step : SyncStep} (carries : Carries c s opts other step) (calls : opts.calls other = true)
    (reads : opts.readPath step = opts.readsAt other)
    (takes : ∀ path, opts.takesAt other = some path → opts.writtenPath step = path) : ¬InsideNamed opts step row := by
  have placed := wired.placed member
  rintro (⟨e, path, there, read, strict⟩ | ⟨e, there, strict⟩)
  · have above := placed.source e there
    rw [wired.source_eq] at there
    obtain ⟨shut, -⟩ := wired.shutOff member shuts there
    obtain ⟨e', there', rfl⟩ := wired.reads_entry (reads.symm.trans read)
    rw [wired.source] at above
    exact wired.not_called_below member' calls there' strict fun g d down dir below_ => shut.below down dir below_ above
  · have above := placed.dest e there
    rw [wired.dest_eq] at there
    obtain ⟨shut, known⟩ := wired.shutOff member shuts there
    cases taken : opts.takesAt other with
    | some path =>
      rw [takes path taken] at strict
      obtain ⟨e', there', rfl⟩ := wired.takes_entry taken
      rw [wired.dest] at above
      exact wired.not_called_below member' calls there' strict fun g d down dir below_ => shut.below down dir below_ above
    | none =>
      have reading : opts.readPath step ≠ none := by
        intro idle
        obtain ⟨path, found⟩ := takes_of_idle calls (reads.symm.trans idle)
        rw [taken] at found
        cases found
      obtain ⟨dest, named⟩ := relUnder_of_hangsOff above
      have path := eq_under_of_relUnder named
      rw [path] at shut known strict
      obtain ⟨inside, proper⟩ := strictly_under strict
      have twin := carries.twin reading
      have shorter : dest.segments.length < (step.destRel.getD step.rel).segments.length :=
        Nat.lt_of_le_of_ne inside.length_le fun same => proper (inside.eq_of_length same)
      have cut := twin.take dest.segments.length
      rw [← List.prefix_iff_eq_take.mp inside] at cut
      have inner : CallsInside opts other ⟨step.rel.segments.take dest.segments.length⟩ dest := by
        refine ⟨calls, .inl ⟨_, reads.symm.trans (SyncOptions.readPath_eq reading), ?_⟩⟩
        refine under_strictly (List.take_prefix _ _) fun same => ?_
        have long := twin.length
        have short := congrArg List.length same
        rw [List.length_take] at short
        omega
      exact wired.not_called_dest member' cut shut known inner

end Wired

theorem names_of_pair {source dest : RelPath} (names : OfPair opts row source dest) :
    (opts.source row).isSome ∨ (opts.dest row).isSome := by
  rcases names with ⟨e, there, -⟩ | ⟨e, there, -⟩
  · exact .inl (Option.isSome_of_mem there)
  · exact .inr (Option.isSome_of_mem there)

/-- What is refused is left untouched exactly when nothing is called for inside a pair that is
turned away. -/
theorem refused_untouched_iff (wired : Wired c s rows opts) : RefusedUntouched opts rows ↔ ¬Exposed opts rows := by
  constructor
  · rintro untouched ⟨writable, source, dest, pair, ⟨before, row, after, split, names, away⟩,
      before', row', after', split', read, calls, inside⟩
    obtain ⟨t, t', items, item, run, absorbed, -⟩ := wired.at_row split
    obtain ⟨i, rfl, refuses⟩ := turnedAway_refuses run absorbed away (names_of_pair names)
    obtain ⟨step, witness, planned, acts, reads, takes⟩ := wired.called writable split' read calls
    refine untouched.pairs source dest pair row i names ⟨before, after, t, t', items, split, run, absorbed⟩ refuses
      step witness planned acts ?_
    rcases inside with ⟨path, found, strict⟩ | ⟨path, found, strict⟩
    · exact .inl ⟨path, reads.trans found, strict⟩
    · exact .inr (by rwa [takes path found])
  · intro hidden
    refine ⟨?_, ?_⟩
    · intro source dest pair row item names yields refuses step witness planned acts inside
      obtain ⟨writable, before', row', after', split', read, calls, carries, reads, takes⟩ := wired.acting planned acts
      have within := wired.callsInside carries calls reads pair takes inside
      have member' : row' ∈ rows := by simp [split']
      have member : row ∈ rows := by
        obtain ⟨before, after, -, -, -, split, -⟩ := yields
        simp [split]
      rcases refused_cases yields refuses with shuts | ⟨before, after, split, away⟩
      · exact wired.shuts_untouched member shuts pair names member' within
      · exact hidden ⟨writable, source, dest, pair, ⟨before, row, after, split, names, away⟩,
          before', row', after', split', read, within⟩
    · intro row item ambiguous yields _ step witness planned acts
      obtain ⟨-, before', row', after', split', -, calls, carries, reads, takes⟩ := wired.acting planned acts
      have member' : row' ∈ rows := by simp [split']
      have member : row ∈ rows := by
        obtain ⟨before, after, -, -, -, split, -⟩ := yields
        simp [split]
      exact wired.collided_untouched member (.inr (.inl ambiguous)) member' carries calls reads takes

/-! ### Two names of one letter -/

theorem fate_same_roots (same : opts.sourceRoot = opts.destRoot) : opts.fate before row = .read := by
  have none_ (row : CompareRow) : opts.overlapAt row = none := by simp [SyncOptions.overlapAt, same]
  have clear : opts.overlapOf before = none := List.findSome?_eq_none_iff.mpr fun row _ => none_ row
  simp [SyncOptions.fate, clear, SyncOptions.fateUnder, none_]

theorem refused_untouched_respelt : RefusedUntouched respeltOptions respeltRows := by
  refine (refused_untouched_iff respelt_wired).mpr ?_
  rintro ⟨-, -, -, -, ⟨before, row, after, split, -, away⟩, -⟩
  have told : ∀ row ∈ respeltRows, SyncOptions.untold row = false := by decide
  rcases away with reaches | ⟨-, -, -, untold⟩
  · rw [fate_same_roots rfl] at reaches
    cases reaches
  · rw [told row (by simp [split])] at untold
    cases untold

theorem valid_kelvin : Segment.Valid [0xE2, 0x84, 0xAA] := ⟨by decide, by decide, by decide, by decide⟩

def kelvinName : Segment := ⟨[0xE2, 0x84, 0xAA], valid_kelvin⟩

theorem valid_k : Segment.Valid [0x4B] := ⟨by decide, by decide, by decide, by decide⟩

def kName : Segment := ⟨[0x4B], valid_k⟩

def inKelvin : Entry := ⟨(folder kelvinName).path.join strayName, .file, none, none⟩

/-- The sign of the kelvin on one side, the letter on the other, and a file below the sign. -/
def kelvin : Comparison where
  left := twoLevels (folder kelvinName) [inKelvin]
  leftRoot := Compare.smallRoot
  right := twoLevels (folder kName) []
  rightRoot := Compare.smallRoot
  opts := ⟨⟨true, true, false⟩, none, 2000, false, some .left⟩
  sides := ⟨.none, .none⟩
  excluded := []
  names := ⟨fun name _ => if name = kelvinName.bytes then kName.bytes else name, fun name => name = kelvinName.bytes⟩
  sha256 := id

def kelvinFrame : Compare.Frame := ⟨some (folder kelvinName), some (folder kName), 1⟩

def kelvinRows : List CompareRow :=
  Compare.numbered kelvin.names 0 (kelvin.emits kelvin.rootFrame ++ kelvin.emits kelvinFrame)

theorem kelvin_wired : Wired kelvin .left kelvinRows respeltOptions where
  trees s := by
    cases s with
    | left =>
      apply @twoLevels_finite (folder kelvinName) [inKelvin] ⟨kelvinName, rfl⟩
      · exact fun e member => ⟨strayName, by rw [List.mem_singleton.mp member]; rfl⟩
      · intro e member
        rw [List.mem_singleton.mp member]
        decide
      · exact List.nodup_singleton _
    | right => exact twoLevels_finite ⟨kName, rfl⟩ (by simp) (by simp) (by simp)
  streams := by
    have down : StackWalk.Walks kelvin.emits kelvin.kids [kelvinFrame]
        (kelvin.emits kelvinFrame ++ ([] ++ [])) := .cons .nil .nil
    have walks : StackWalk.Walks kelvin.emits kelvin.kids [kelvin.rootFrame]
        (kelvin.emits kelvin.rootFrame ++ (kelvin.emits kelvinFrame ++ ([] ++ []) ++ [])) :=
      .cons down .nil
    have streams := Comparison.streams_of_walks walks rfl
    simpa [kelvinRows] using streams
  side := rfl
  source := rfl
  dest := rfl

/-- The pair is skipped, and the file below it is copied into the other folder. -/
theorem kelvin_touched : Wired kelvin .left kelvinRows respeltOptions ∧
    ¬RefusedUntouched respeltOptions kelvinRows := by
  refine ⟨kelvin_wired, fun untouched => ?_⟩
  obtain ⟨pair, orphan, skipped, step, t', rows, left, right, absorbed, whole, skips, reason, kind, rel⟩ :
      ∃ pair orphan skipped step t', kelvinRows = [pair, orphan] ∧
        respeltOptions.source pair = some (folder kelvinName) ∧ respeltOptions.dest pair = some (folder kName) ∧
        (start respeltOptions).absorb pair = .ok (t', some (.step skipped none)) ∧
        fullPlan kelvinRows respeltOptions = [.step skipped none, .step step none] ∧ skipped.kind = .skip ∧
        skipped.reason = some .nonInjectivePairing ∧ step.kind = .copy ∧ step.rel = ⟨[kelvinName, strayName]⟩ :=
    ⟨_, _, _, _, _, rfl, rfl, rfl, rfl, rfl, rfl, rfl, rfl, rfl⟩
  have named : (folder kelvinName).path = under respeltOptions.sourceRoot ⟨[kelvinName]⟩ := rfl
  have dirs : DirPair respeltOptions kelvinRows ⟨[kelvinName]⟩ ⟨[kName]⟩ :=
    .inr ⟨pair, by simp [rows], _, _, left, right, rfl, rfl, rfl, rfl⟩
  have yields : Yields respeltOptions kelvinRows pair (.step skipped none) :=
    ⟨[], [orphan], _, t', [], rows, .nil _, absorbed⟩
  have acts : step.kind.acts = true := by rw [kind]; rfl
  have reads : respeltOptions.readPath step = some (under respeltOptions.sourceRoot ⟨[kelvinName, strayName]⟩) := by
    simp [SyncOptions.readPath, kind, rel]
  refine untouched.pairs _ _ dirs pair _ (.inl ⟨_, left, named⟩) yields ⟨skips, .inl reason⟩ step none ?_ acts
    (.inl ⟨_, reads, ?_⟩)
  · simp [whole]
  · exact under_strictly (List.prefix_append [kelvinName] [strayName]) (by decide)

end Norte.Sync
