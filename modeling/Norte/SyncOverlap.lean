import Norte.RenameReport
import Norte.SyncSteps
import Norte.SyncTree

/-! Roots that overlap. The first row with a path of one side inside the root of the other
is a blocker, and from then on one side of the rows is watched: a source path must not enter
the destination's root, or no destination entry of the source's root is destroyed. -/
namespace Norte.Sync

namespace SyncOptions

def source (opts : SyncOptions) (row : CompareRow) : Option Entry :=
  if opts.sourceSide = .left then row.left else row.right

def dest (opts : SyncOptions) (row : CompareRow) : Option Entry :=
  if opts.sourceSide = .left then row.right else row.left

/-- Each entry of the row hangs off the root of its side. -/
structure Placed (opts : SyncOptions) (row : CompareRow) : Prop where
  source : ∀ entry, opts.source row = some entry → HangsOff opts.sourceRoot entry.path
  dest : ∀ entry, opts.dest row = some entry → HangsOff opts.destRoot entry.path

def ReachedBySource (opts : SyncOptions) (row : CompareRow) : Prop :=
  ∃ entry, opts.source row = some entry ∧ HangsOff opts.destRoot entry.path

def ReachedByDest (opts : SyncOptions) (row : CompareRow) : Prop :=
  ∃ entry, opts.dest row = some entry ∧ HangsOff opts.sourceRoot entry.path

def Reached (opts : SyncOptions) (row : CompareRow) : Prop :=
  opts.ReachedBySource row ∨ opts.ReachedByDest row

/-- What an acting step reads. -/
def readPath (opts : SyncOptions) (step : SyncStep) : Option VPath :=
  match step.kind with
  | .createDir | .copy | .overwrite => some (under opts.sourceRoot step.rel)
  | .deleteTree | .skip | .unknown => none

def writtenPath (opts : SyncOptions) (step : SyncStep) : VPath :=
  under opts.destRoot (step.destRel.getD step.rel)

end SyncOptions

def PlanItem.isOverlap : PlanItem → Bool
  | .step _ _ => false
  | .blocker b => b.kind = .overlapDetected

namespace Transducer

variable {t t' : Transducer} {row : CompareRow} {item : Option PlanItem}

theorem source_eq (t : Transducer) (row : CompareRow) : t.source row = t.opts.source row := by
  simp [source, SyncOptions.source, sourceIsLeft]

theorem dest_eq (t : Transducer) (row : CompareRow) : t.dest row = t.opts.dest row := by
  simp [dest, SyncOptions.dest, sourceIsLeft]

theorem relUnder_of_hangsOff {root path : VPath} (hangs : HangsOff root path) :
    ∃ rel, relUnder root path = .ok rel := by
  obtain ⟨rel, found⟩ := Option.isSome_iff_exists.mp (RelPath.under_isSome.mpr hangs)
  exact ⟨rel, by rw [relUnder, found]⟩

theorem eq_under_of_relUnder {root path : VPath} {rel : RelPath}
    (named : relUnder root path = .ok rel) : path = under root rel := by
  unfold relUnder at named
  split at named
  · rename_i found
    obtain rfl := Except.ok.inj named
    exact eq_under found
  · cases named

/-- What the elements after the overlap was reached do not do. -/
def Watched (opts : SyncOptions) (overlap : Overlap) : PlanItem → Prop
  | .step step witness =>
    (overlap.fromSource = true → ∀ path, opts.readPath step = some path →
      ¬HangsOff overlap.reached path) ∧
    (overlap.fromSource = false → witness.isSome = true →
      ¬HangsOff overlap.reached (opts.writtenPath step))
  | .blocker b => b.kind ≠ .overlapDetected

theorem not_hangsOff_of_kept {overlap : Overlap} {source dest : Option Entry} {entry : Entry}
    (watches : t.overlap = some overlap) (kept : t.overlapPrunes source dest = false)
    (there : (if overlap.fromSource then source else dest) = some entry) :
    ¬HangsOff overlap.reached entry.path := by
  intro hangs
  simp [overlapPrunes, watches, there, isAtOrUnder, RelPath.under_isSome.mpr hangs] at kept

theorem named_of_sourceRelOf {source : Option Entry} {sourceRel : Option RelPath} {entry : Entry}
    {rel : RelPath} (names : t.sourceRelOf source = .ok sourceRel) (there : source = some entry)
    (named : sourceRel = some rel) : relUnder t.opts.sourceRoot entry.path = .ok rel := by
  subst there named
  cases found : relUnder t.opts.sourceRoot entry.path with
  | error e => simp [sourceRelOf, found, Except.map] at names
  | ok other =>
    simp only [sourceRelOf, found, Except.map, Except.ok.injEq, Option.some.injEq] at names
    rw [names]

/-- Where an element of a row's table comes from: a step reads the row's source entry, and
what it destroys is the row's destination entry. -/
def Comes (opts : SyncOptions) (source dest : Option Entry) : PlanItem → Prop
  | .step step witness =>
    (∀ path, opts.readPath step = some path → ∃ entry, source = some entry ∧ entry.path = path) ∧
    (witness.isSome = true → ∃ entry, dest = some entry ∧ entry.path = opts.writtenPath step)
  | .blocker b => b.kind ≠ .overlapDetected

/-- What is written over stands where the destination spells it. -/
theorem writtenPath_paired {entry : Entry} {rel : RelPath} {destRel : Option RelPath}
    {step : SyncStep} (spelt : t.destRelOf rel (some entry) = .ok destRel) (named : step.rel = rel)
    (elsewhere : step.destRel = destRel) : t.opts.writtenPath step = entry.path := by
  cases found : relUnder t.opts.destRoot entry.path with
  | error e => simp [destRelOf, found, Except.map] at spelt
  | ok other =>
    simp only [destRelOf, found, Except.map, Except.ok.injEq] at spelt
    rw [SyncOptions.writtenPath, elsewhere, ← spelt, named, eq_under_of_relUnder found]
    by_cases same : other = rel <;> simp [same]

theorem Emits.comes {source dest : Option Entry} {sourceRel : Option RelPath}
    (emits : Emits t row source dest sourceRel (.ok (t', item)))
    (names : t.sourceRelOf source = .ok sourceRel) :
    t'.opts = t.opts ∧ t'.overlap = t.overlap ∧ ∀ i ∈ item, Comes t.opts source dest i := by
  generalize result : (.ok (t', item) : Absorbed) = absorbed at emits
  cases emits with
  | failed => cases result
  | nothing =>
    obtain ⟨rfl, rfl⟩ := Prod.mk.inj (Except.ok.inj result)
    exact ⟨rfl, rfl, fun i inside => by cases inside⟩
  | blocker rel side other =>
    obtain ⟨rfl, rfl⟩ := Prod.mk.inj (Except.ok.inj result)
    refine ⟨rfl, rfl, fun i inside => ?_⟩
    obtain rfl := Option.mem_some.mp inside
    exact other
  | skipped =>
    obtain ⟨kept, watched, -, i, rfl, step, rfl, kind, rel, destRel⟩ := push_packaged result.symm
    refine ⟨kept, watched, fun i inside => ?_⟩
    obtain rfl := Option.mem_some.mp inside
    exact ⟨fun path reads => by simp [SyncOptions.readPath, kind] at reads,
      fun destroys => by simp [witnessOf] at destroys⟩
  | orphan verdict there named proper spelt =>
    rename_i entry rel destRel size
    obtain ⟨kept, watched, -, i, rfl, step, rfl, kind, rel, destRel⟩ := push_packaged result.symm
    refine ⟨kept, watched, fun i inside => ?_⟩
    obtain rfl := Option.mem_some.mp inside
    have path := eq_under_of_relUnder (named_of_sourceRelOf names there named)
    refine ⟨fun read reads => ⟨entry, there, ?_⟩, fun destroys => ?_⟩
    · have acts : t.opts.readPath step = some (under t.opts.sourceRoot step.rel) := by
        by_cases dir : entry.kind = .dir <;> simp [SyncOptions.readPath, kind, dir]
      rw [path, ← rel]
      exact Option.some.inj (acts.symm.trans reads)
    · by_cases dir : entry.kind = .dir <;> simp [witnessOf, dir] at destroys
  | paired verdict sure there named proper spelt =>
    rename_i entry rel destRel size
    obtain ⟨kept, watched, -, i, rfl, step, rfl, kind, rel, destRel⟩ := push_packaged result.symm
    refine ⟨kept, watched, fun i inside => ?_⟩
    obtain rfl := Option.mem_some.mp inside
    have path := eq_under_of_relUnder (named_of_sourceRelOf names there named)
    refine ⟨fun read reads => ⟨entry, there, ?_⟩, fun destroys => ?_⟩
    · have acts : t.opts.readPath step = some (under t.opts.sourceRoot step.rel) := by
        simp [SyncOptions.readPath, kind]
      rw [path, ← rel]
      exact Option.some.inj (acts.symm.trans reads)
    · cases dest with
      | none => simp [witnessOf] at destroys
      | some d => exact ⟨d, rfl, (writtenPath_paired spelt rel destRel).symm⟩
  | deleted verdict there named proper =>
    rename_i entry rel
    obtain ⟨kept, watched, -, i, rfl, step, rfl, kind, rel, destRel⟩ := push_packaged result.symm
    refine ⟨kept, watched, fun i inside => ?_⟩
    obtain rfl := Option.mem_some.mp inside
    refine ⟨fun path reads => by simp [SyncOptions.readPath, kind] at reads, fun _ => ⟨entry, there, ?_⟩⟩
    simp_all [SyncOptions.writtenPath, eq_under_of_relUnder named]

theorem table_comes {mid : Transducer} {source dest : Option Entry} {sourceRel : Option RelPath}
    (names : t.sourceRelOf source = .ok sourceRel)
    (remembers : Remembers t sourceRel source dest mid)
    (absorbed : mid.absorbRow row source dest sourceRel = .ok (t', item)) :
    t'.opts = t.opts ∧ t'.overlap = t.overlap ∧ ∀ i ∈ item, Comes t.opts source dest i := by
  obtain ⟨opts, overlap, -⟩ := remembers.keeps
  have emits := @Emits.absorbRow mid row source dest sourceRel
  rw [absorbed] at emits
  have again : mid.sourceRelOf source = .ok sourceRel := by
    rw [← names]
    simp only [sourceRelOf, opts]
  obtain ⟨kept, watched, comes⟩ := emits.comes again
  rw [opts] at kept comes
  exact ⟨kept, watched.trans overlap, comes⟩

/-- A row keeps what is watched, and once the overlap is reached it keeps off. -/
theorem absorb_watched {overlap : Overlap} (watches : t.overlap = some overlap)
    (absorbed : t.absorb row = .ok (t', item)) :
    t'.opts = t.opts ∧ t'.overlap = some overlap ∧ ∀ i ∈ item, Watched t.opts overlap i := by
  cases t.absorbs row with
  | pruned prunes nothing =>
    obtain ⟨rfl, rfl⟩ := Prod.mk.inj (Except.ok.inj (absorbed.symm.trans nothing))
    exact ⟨rfl, watches, fun i inside => by cases inside⟩
  | reached kept reaches _ => simp [overlapReached, watches] at reaches
  | failed e failed _ =>
    rw [absorbed] at failed
    cases failed
  | table kept aside names remembers table =>
    obtain ⟨opts, same, comes⟩ := table_comes names remembers (table.symm.trans absorbed)
    refine ⟨opts, same.trans watches, fun i inside => ?_⟩
    have from_ := comes i inside
    cases i with
    | blocker b => exact from_
    | step step witness =>
      refine ⟨fun source path reads => ?_, fun dest destroys => ?_⟩
      · obtain ⟨entry, there, rfl⟩ := from_.1 path reads
        exact not_hangsOff_of_kept watches kept (by rw [if_pos source, there])
      · obtain ⟨entry, there, same⟩ := from_.2 destroys
        rw [← same]
        exact not_hangsOff_of_kept watches kept (by rw [if_neg (by simp [dest]), there])

theorem absorbAll_watched {overlap : Overlap} (watches : t.overlap = some overlap)
    (rows : List (Except CompareError CompareRow)) :
    ∀ i ∈ (t.absorbAll rows).1, Watched t.opts overlap i := by
  induction rows generalizing t with
  | nil => exact fun _ inside => absurd inside List.not_mem_nil
  | cons row rows ih =>
    cases row with
    | error e =>
      cases e
      exact fun _ inside => absurd inside List.not_mem_nil
    | ok row =>
      rw [absorbAll_cons]
      cases absorbed : t.absorb row with
      | error e => exact fun _ inside => absurd inside List.not_mem_nil
      | ok result =>
        obtain ⟨t', item⟩ := result
        obtain ⟨opts, same, watched⟩ := absorb_watched watches absorbed
        intro i inside
        rcases List.mem_append.mp inside with now | later
        · exact watched i (Option.mem_toList.mp now)
        · rw [← opts]
          exact ih same i later

theorem filter_inside {root : VPath} {entry : Entry} (hangs : HangsOff root entry.path) :
    ((some entry).filter fun e => isAtOrUnder root e.path) = some entry := by
  simp [Option.filter, isAtOrUnder, RelPath.under_isSome.mpr hangs]

theorem filter_outside {root : VPath} {source : Option Entry}
    (outside : ∀ entry, source = some entry → ¬HangsOff root entry.path) :
    (source.filter fun e => isAtOrUnder root e.path) = none := by
  cases source with
  | none => rfl
  | some entry => simp [Option.filter, isAtOrUnder, RelPath.under_isSome, outside entry rfl]

section Before

variable (apart : t.opts.sourceRoot ≠ t.opts.destRoot) (clear : t.overlap = none)
include apart clear

theorem overlapReached_source {entry : Entry} (dest : Option Entry)
    (home : HangsOff t.opts.sourceRoot entry.path) (away : HangsOff t.opts.destRoot entry.path) :
    ∃ rel, t.overlapReached (some entry) dest =
      .ok (some (⟨rel, .overlapDetected, none⟩, ⟨t.opts.destRoot, true⟩)) := by
  obtain ⟨rel, named⟩ := relUnder_of_hangsOff home
  refine ⟨rel, ?_⟩
  simp only [overlapReached, clear, apart, filter_inside away, named, Except.map, Option.isSome_none,
    Bool.false_eq_true, if_false]

theorem overlapReached_dest {source : Option Entry} {entry : Entry}
    (other : ∀ e, source = some e → ¬HangsOff t.opts.destRoot e.path)
    (home : HangsOff t.opts.destRoot entry.path) (away : HangsOff t.opts.sourceRoot entry.path) :
    ∃ rel, t.overlapReached source (some entry) =
      .ok (some (⟨rel, .overlapDetected, none⟩, ⟨t.opts.sourceRoot, false⟩)) := by
  obtain ⟨rel, named⟩ := relUnder_of_hangsOff home
  refine ⟨rel, ?_⟩
  simp only [overlapReached, clear, apart, filter_outside other, filter_inside away, named, Except.map,
    Option.isSome_none, Bool.false_eq_true, if_false]

theorem overlapReached_none {source dest : Option Entry}
    (noSource : ∀ e, source = some e → ¬HangsOff t.opts.destRoot e.path)
    (noDest : ∀ e, dest = some e → ¬HangsOff t.opts.sourceRoot e.path) :
    t.overlapReached source dest = .ok none := by
  simp only [overlapReached, clear, apart, filter_outside noSource, filter_outside noDest,
    Option.isSome_none, Bool.false_eq_true, if_false]

omit apart in
theorem overlapPrunes_none (source dest : Option Entry) : t.overlapPrunes source dest = false := by
  rw [overlapPrunes, clear]

/-- A row that reaches neither root goes to the table. -/
theorem aside_of_not_reached (aside : ¬t.opts.Reached row) :
    t.overlapPrunes (t.source row) (t.dest row) = false ∧
      t.overlapReached (t.source row) (t.dest row) = .ok none := by
  refine ⟨overlapPrunes_none clear _ _, overlapReached_none apart clear ?_ ?_⟩
  · rw [source_eq]
    exact fun entry there hangs => aside (.inl ⟨entry, there, hangs⟩)
  · rw [dest_eq]
    exact fun entry there hangs => aside (.inr ⟨entry, there, hangs⟩)

theorem absorb_aside (aside : ¬t.opts.Reached row) (absorbed : t.absorb row = .ok (t', item)) :
    t'.opts = t.opts ∧ t'.overlap = none ∧ ∀ i ∈ item, i.isOverlap = false := by
  obtain ⟨kept, none_⟩ := aside_of_not_reached apart clear aside
  cases t.absorbs row with
  | pruned prunes =>
    rw [kept] at prunes
    cases prunes
  | reached _ reaches =>
    rw [none_] at reaches
    cases reaches
  | failed e failed =>
    rw [absorbed] at failed
    cases failed
  | table _ _ names remembers table =>
    obtain ⟨opts, same, comes⟩ := table_comes names remembers (table.symm.trans absorbed)
    refine ⟨opts, same.trans clear, fun i inside => ?_⟩
    have from_ := comes i inside
    cases i with
    | step => rfl
    | blocker b => exact decide_eq_false from_

/-- The root that is reached, and by which side: the source's path is looked at first. -/
theorem absorb_reached (placed : t.opts.Placed row) (reaches : t.opts.Reached row) :
    ∃ rel overlap, t.absorb row = .ok ({ t with overlap := some overlap },
        some (.blocker ⟨rel, .overlapDetected, none⟩)) ∧
      (t.opts.ReachedBySource row → overlap = ⟨t.opts.destRoot, true⟩) ∧
      (¬t.opts.ReachedBySource row → overlap = ⟨t.opts.sourceRoot, false⟩) := by
  have kept := overlapPrunes_none clear (t.source row) (t.dest row)
  by_cases bySource : t.opts.ReachedBySource row
  · obtain ⟨entry, there, hangs⟩ := bySource
    obtain ⟨rel, found⟩ := overlapReached_source apart clear (t.dest row)
      (placed.source entry there) hangs
    rw [← there, ← source_eq] at found
    refine ⟨rel, _, ?_, fun _ => rfl, fun away => absurd ⟨entry, there, hangs⟩ away⟩
    simp [absorb, kept, found, bind, Except.bind, pure, Except.pure]
  · obtain ⟨entry, there, hangs⟩ := reaches.resolve_left bySource
    have other (e : Entry) (here : t.source row = some e) : ¬HangsOff t.opts.destRoot e.path := by
      rw [source_eq] at here
      exact fun inside => bySource ⟨e, here, inside⟩
    obtain ⟨rel, found⟩ := overlapReached_dest apart clear other (placed.dest entry there) hangs
    rw [← there, ← dest_eq] at found
    refine ⟨rel, _, ?_, fun here => absurd here bySource, fun _ => rfl⟩
    simp [absorb, kept, found, bind, Except.bind, pure, Except.pure]

theorem Run.aside {rows : List CompareRow} {items : List PlanItem} (run : Run t rows t' items)
    (aside : ∀ row ∈ rows, ¬t.opts.Reached row) :
    t'.opts = t.opts ∧ t'.overlap = none ∧ ∀ i ∈ items, i.isOverlap = false := by
  induction run with
  | nil => exact ⟨rfl, clear, fun _ inside => absurd inside List.not_mem_nil⟩
  | cons absorbed _ ih =>
    obtain ⟨opts, none_, quiet⟩ := absorb_aside apart clear (aside _ List.mem_cons_self) absorbed
    rw [← opts] at apart
    have later := ih apart none_ fun row member => by
      rw [opts]
      exact aside row (List.mem_cons_of_mem _ member)
    refine ⟨later.1.trans opts, later.2.1, fun i inside => ?_⟩
    rcases List.mem_append.mp inside with now | inside
    · exact quiet i (Option.mem_toList.mp now)
    · exact later.2.2 i inside

end Before

/-- The flow as it is wired. -/
def start (opts : SyncOptions) : Transducer := ⟨opts, 0, none, []⟩

end Transducer

open Transducer

/-- Each entry of the row is below the root of its side. -/
structure SyncOptions.Below (opts : SyncOptions) (row : CompareRow) : Prop where
  source : ∀ entry, opts.source row = some entry → Strictly opts.sourceRoot entry.path
  dest : ∀ entry, opts.dest row = some entry → Strictly opts.destRoot entry.path

/-- Only a path that is not below its root ends the flow at a row. -/
theorem absorb_below {t : Transducer} {row : CompareRow} (below_ : t.opts.Below row) :
    ∃ result, t.absorb row = .ok result := by
  cases ended : t.absorb row with
  | ok result => exact ⟨result, rfl⟩
  | error e =>
    exfalso
    have source (entry : Entry) (there : t.source row = some entry) := by
      rw [source_eq] at there
      exact below_.source entry there
    have dest (entry : Entry) (there : t.dest row = some entry) := by
      rw [dest_eq] at there
      exact below_.dest entry there
    cases t.absorbs row with
    | pruned _ nothing =>
      rw [ended] at nothing
      cases nothing
    | reached _ _ blocked =>
      rw [ended] at blocked
      cases blocked
    | failed other failed astray =>
      rcases astray with ⟨entry, there, away⟩ | ⟨entry, there, away⟩
      · obtain ⟨rel, named, -⟩ := source entry there
        rw [away] at named
        cases named
      · obtain ⟨rel, named, -⟩ := dest entry there
        rw [away] at named
        cases named
    | table kept aside names remembers table =>
      rename_i sourceRel mid
      obtain ⟨opts, -, -⟩ := remembers.keeps
      have emits := @Emits.absorbRow mid row (t.source row) (t.dest row) sourceRel
      rw [← table, ended] at emits
      generalize result : (.error e : Absorbed) = absorbed at emits
      cases emits with
      | failed other astray =>
        rcases astray with ⟨entry, there, away⟩ | ⟨rel, named, root⟩
        · rw [opts] at away
          exact away (dest entry there)
        · cases found : t.source row with
          | none =>
            rw [found, named] at names
            cases names
          | some entry =>
            obtain ⟨strict, reads, proper⟩ := source entry found
            have same := named_of_sourceRelOf names found named
            obtain rfl := Except.ok.inj (same.symm.trans reads)
            rw [root] at proper
            cases proper
      | nothing | blocker | skipped | orphan | paired | deleted => cases result

theorem absorb_opts {t t' : Transducer} {row : CompareRow} {item : Option PlanItem}
    (absorbed : t.absorb row = .ok (t', item)) : t'.opts = t.opts :=
  (Keeps.absorb t' item absorbed).1

theorem absorbAll_below {t : Transducer} {rows : List CompareRow}
    (below_ : ∀ row ∈ rows, t.opts.Below row) : (t.absorbAll (rows.map .ok)).2 = .ok () := by
  induction rows generalizing t with
  | nil => rfl
  | cons row rows ih =>
    obtain ⟨result, absorbed⟩ := absorb_below (below_ row List.mem_cons_self)
    rw [List.map_cons, absorbAll_cons, absorbed]
    refine ih fun later member => ?_
    rw [absorb_opts absorbed]
    exact below_ later (List.mem_cons_of_mem _ member)

/-- What an overlap does to a plan of unequal roots. -/
structure OverlapBlocks (opts : SyncOptions) (rows : List (Except CompareError CompareRow)) :
    Prop where
  /-- Once a row that reaches has been read, the plan has its one blocker. -/
  once : ∀ (done : List CompareRow) rest, rows = done.map .ok ++ rest → (plan (done.map .ok) opts).2 = .ok () →
    (∃ row ∈ done, opts.Reached row) → (plan rows opts).1.countP PlanItem.isOverlap = 1
  /-- After the blocker the root that was reached is not read, or what stands in it is not
  destroyed. -/
  keepsOff : ∀ (before : List CompareRow) row rest, rows = before.map .ok ++ .ok row :: rest →
    (plan (before.map .ok) opts).2 = .ok () → (∀ r ∈ before, ¬opts.Reached r) → opts.Reached row →
    ∃ rel later, (plan rows opts).1 =
        (plan (before.map .ok) opts).1 ++ .blocker ⟨rel, .overlapDetected, none⟩ :: later ∧
      ∀ step witness, .step step witness ∈ later →
        (opts.ReachedBySource row → ∀ path, opts.readPath step = some path →
          ¬HangsOff opts.destRoot path) ∧
        (¬opts.ReachedBySource row → witness.isSome = true →
          ¬HangsOff opts.sourceRoot (opts.writtenPath step))
  /-- Where no root holds the other, no row is pruned. -/
  disjoint : ¬HangsOff opts.sourceRoot opts.destRoot → ¬HangsOff opts.destRoot opts.sourceRoot →
    ∀ (done : List CompareRow) row rest t items, rows = done.map .ok ++ .ok row :: rest → Run (start opts) done t items →
      t.overlapPrunes (t.source row) (t.dest row) = false ∧
        t.overlapReached (t.source row) (t.dest row) = .ok none
  /-- Rows below the roots do not end the flow. -/
  ends : (∀ row ∈ rows, ∃ r, row = .ok r ∧ opts.Below r) → (plan rows opts).2 = .ok ()

theorem plan_eq {opts : SyncOptions} (known : opts.sourceSide ≠ .unknown)
    (writable : opts.destWritable = true) (rows : List (Except CompareError CompareRow)) :
    plan rows opts = (start opts).absorbAll rows := by
  simp [plan, known, writable, start]

theorem not_reached_of_disjoint {opts : SyncOptions} {row : CompareRow} (placed : opts.Placed row)
    (notIn : ¬HangsOff opts.sourceRoot opts.destRoot)
    (notOver : ¬HangsOff opts.destRoot opts.sourceRoot) : ¬opts.Reached row := by
  rintro (⟨entry, there, hangs⟩ | ⟨entry, there, hangs⟩)
  · exact ((placed.source entry there).comparable hangs).elim notIn notOver
  · exact (hangs.comparable (placed.dest entry there)).elim notIn notOver

/-- A plan up to its first row that reaches, and after it. -/
theorem absorbAll_reached {opts : SyncOptions} (apart : opts.sourceRoot ≠ opts.destRoot)
    {before : List CompareRow} {row : CompareRow} {rest : List (Except CompareError CompareRow)}
    (read : ((start opts).absorbAll (before.map .ok)).2 = .ok ())
    (aside : ∀ r ∈ before, ¬opts.Reached r) (reaches : opts.Reached row) (placed : opts.Placed row) :
    ∃ rel overlap later, ((start opts).absorbAll (before.map .ok ++ .ok row :: rest)).1 =
        ((start opts).absorbAll (before.map .ok)).1 ++ .blocker ⟨rel, .overlapDetected, none⟩ :: later ∧
      (opts.ReachedBySource row → overlap = ⟨opts.destRoot, true⟩) ∧
      (¬opts.ReachedBySource row → overlap = ⟨opts.sourceRoot, false⟩) ∧
      (∀ i ∈ ((start opts).absorbAll (before.map .ok)).1, i.isOverlap = false) ∧
      ∀ i ∈ later, Watched opts overlap i := by
  obtain ⟨t, run⟩ := Run.of_absorbAll read
  obtain ⟨same, clear, quiet⟩ := run.aside apart rfl aside
  have same : t.opts = opts := same
  rw [← same] at apart reaches placed
  obtain ⟨rel, overlap, absorbed, bySource, byDest⟩ := absorb_reached apart clear placed reaches
  rw [same] at bySource byDest
  refine ⟨rel, overlap, ({ t with overlap := some overlap }.absorbAll rest).1, ?_, bySource, byDest,
    quiet, ?_⟩
  · rw [run.absorbAll, absorbAll_cons, absorbed]
    rfl
  · rw [← same]
    exact absorbAll_watched (t := { t with overlap := some overlap }) rfl rest

/-- The first row of a list that reaches a root. -/
theorem exists_first {opts : SyncOptions} {rows : List CompareRow}
    (reaches : ∃ row ∈ rows, opts.Reached row) : ∃ before row after,
      rows = before ++ row :: after ∧ (∀ r ∈ before, ¬opts.Reached r) ∧ opts.Reached row := by
  induction rows with
  | nil =>
    obtain ⟨row, member, -⟩ := reaches
    cases member
  | cons row rows ih =>
    by_cases here : opts.Reached row
    · exact ⟨[], row, rows, rfl, fun _ inside => absurd inside List.not_mem_nil, here⟩
    · obtain ⟨found, member, later⟩ := reaches
      rcases List.mem_cons.mp member with rfl | member
      · exact absurd later here
      obtain ⟨before, first, after, rfl, aside, reached⟩ := ih ⟨found, member, later⟩
      refine ⟨row :: before, first, after, rfl, fun r inside => ?_, reached⟩
      rcases List.mem_cons.mp inside with rfl | inside
      · exact here
      · exact aside r inside

theorem overlap_blocks {opts : SyncOptions} {rows : List (Except CompareError CompareRow)}
    (apart : opts.sourceRoot ≠ opts.destRoot) (known : opts.sourceSide ≠ .unknown)
    (writable : opts.destWritable = true) (placed : ∀ row, .ok row ∈ rows → opts.Placed row) :
    OverlapBlocks opts rows where
  once done rest split read reaches := by
    subst split
    rw [plan_eq known writable] at read ⊢
    obtain ⟨before, row, after, rfl, aside, reached⟩ := exists_first reaches
    obtain ⟨t, run⟩ := Run.of_absorbAll read
    obtain ⟨mid, first, second, ran, -, -⟩ := run.split
    have readBefore : ((start opts).absorbAll (before.map .ok)).2 = .ok () := by
      have all := ran.absorbAll []
      rw [List.append_nil] at all
      rw [all]
      rfl
    have there : opts.Placed row := placed row (by simp)
    obtain ⟨rel, overlap, later, items, -, -, quiet, watched⟩ :=
      @absorbAll_reached opts apart before row (after.map .ok ++ rest) readBefore aside reached there
    have shape : (before ++ row :: after).map (.ok : CompareRow → Except CompareError CompareRow) ++ rest =
        before.map .ok ++ .ok row :: (after.map .ok ++ rest) := by simp
    rw [shape, items, List.countP_append, List.countP_cons]
    have none_ : later.countP PlanItem.isOverlap = 0 := by
      rw [List.countP_eq_zero]
      intro i inside
      cases i with
      | step => simp [PlanItem.isOverlap]
      | blocker b =>
        have other : b.kind ≠ .overlapDetected := watched _ inside
        simp [PlanItem.isOverlap, other]
    have first : ((start opts).absorbAll (before.map .ok)).1.countP PlanItem.isOverlap = 0 := by
      rw [List.countP_eq_zero]
      exact fun i inside => by simp [quiet i inside]
    simp [none_, first, PlanItem.isOverlap]
  keepsOff before row rest split read aside reached := by
    subst split
    rw [plan_eq known writable] at read ⊢
    rw [plan_eq known writable]
    obtain ⟨rel, overlap, later, items, bySource, byDest, -, watched⟩ :=
      @absorbAll_reached opts apart before row rest read aside reached (placed row (by simp))
    refine ⟨rel, later, items, fun step witness inside => ?_⟩
    have off := watched _ inside
    refine ⟨fun source => ?_, fun dest => ?_⟩
    · rw [bySource source] at off
      exact off.1 rfl
    · rw [byDest dest] at off
      exact off.2 rfl
  disjoint notIn notOver done row rest t items split run := by
    subst split
    have clear := run.aside apart rfl fun r member =>
      not_reached_of_disjoint (placed r (by simp [member])) notIn notOver
    have same : t.opts = opts := clear.1
    have away := not_reached_of_disjoint (placed row (by simp)) notIn notOver
    rw [← same] at apart away
    exact aside_of_not_reached apart clear.2.1 away
  ends below_ := by
    rw [plan_eq known writable]
    have all : ∃ good : List CompareRow, rows = good.map .ok ∧ ∀ r ∈ good, opts.Below r := by
      clear placed
      induction rows with
      | nil => exact ⟨[], rfl, fun r inside => by cases inside⟩
      | cons row rows ih =>
        obtain ⟨r, rfl, strict⟩ := below_ row List.mem_cons_self
        obtain ⟨good, rfl, rest⟩ := ih fun row member => below_ row (List.mem_cons_of_mem _ member)
        refine ⟨r :: good, rfl, fun q inside => ?_⟩
        rcases List.mem_cons.mp inside with rfl | inside
        · exact strict
        · exact rest q inside
    obtain ⟨good, rfl, strict⟩ := all
    exact absorbAll_below (t := start opts) strict

/-! A tree that is synchronized into a folder of its own. -/

def nestedSource : VPath := Rename.sampleRoot.join ⟨[0x61], Segment.valid_a⟩

def nestedDest : VPath := nestedSource.join ⟨[0x62], Segment.valid_b⟩

def nestedOptions (writable : Bool) : SyncOptions :=
  ⟨nestedSource, nestedDest, .update, .skip, .left, true, true, writable⟩

def onlySource (id : Nat) (entry : Entry) : CompareRow :=
  ⟨id, some entry, none, .onlyLeft, .presence, .certain, none, none, none, none⟩

def nestedDir : CompareRow := onlySource 0 ⟨nestedDest, .dir, none, none⟩

/-- A file next to the folder. -/
def nestedFile : CompareRow :=
  onlySource 1 ⟨nestedSource.join ⟨[0x63], Segment.valid_c⟩, .file, some 1, none⟩

def nestedRows : List (Except CompareError CompareRow) := [.ok nestedDir, .ok nestedFile]

/-- Nothing that both roots hold is read or written after the overlap. -/
def SyncOptions.SpareShared (opts : SyncOptions) (rows : List (Except CompareError CompareRow)) :
    Prop :=
  ∀ first b later step witness, (plan rows opts).1 = first ++ .blocker b :: later →
    b.kind = .overlapDetected → .step step witness ∈ later → step.kind ≠ .skip →
    ∀ path, opts.readPath step = some path ∨ opts.writtenPath step = path →
      ¬(HangsOff opts.sourceRoot path ∧ HangsOff opts.destRoot path)

theorem nested_placed {row : CompareRow} (member : .ok row ∈ nestedRows) (writable : Bool) :
    (nestedOptions writable).Placed row := by
  have prefix_ (s : Segment) : HangsOff nestedSource (nestedSource.join s) :=
    ⟨rfl, rfl, List.prefix_append ..⟩
  simp only [nestedRows, List.mem_cons, Except.ok.injEq, List.not_mem_nil, or_false] at member
  rcases member with rfl | rfl
  · exact ⟨fun entry there => by obtain rfl := Option.some.inj there; exact prefix_ _,
      fun entry there => by cases there⟩
  · exact ⟨fun entry there => by obtain rfl := Option.some.inj there; exact prefix_ _,
      fun entry there => by cases there⟩

theorem nested_apart (writable : Bool) :
    (nestedOptions writable).sourceRoot ≠ (nestedOptions writable).destRoot :=
  (join_ne_self nestedSource _).symm

/-- The folder is left alone. -/
theorem overlap_blocks_nested : OverlapBlocks (nestedOptions true) nestedRows :=
  overlap_blocks (nested_apart true) (by decide) rfl fun _ member => nested_placed member true

/-- A destination that cannot be written is not walked, and the file is written to the folder
by design. -/
theorem overlap_nested : (∃ row, .ok row ∈ nestedRows ∧ (nestedOptions false).Reached row) ∧
    (plan nestedRows (nestedOptions false)).1.countP PlanItem.isOverlap = 0 ∧
    (∀ row, .ok row ∈ nestedRows → ∃ entry, row.left = some entry ∧ Child nestedSource entry.path) ∧
    ¬(nestedOptions true).SpareShared nestedRows := by
  refine ⟨⟨nestedDir, by simp [nestedRows], .inl ⟨_, rfl, HangsOff.refl _⟩⟩, rfl, ?_, fun spares => ?_⟩
  · intro row member
    simp only [nestedRows, List.mem_cons, Except.ok.injEq, List.not_mem_nil, or_false] at member
    rcases member with rfl | rfl
    · exact ⟨_, rfl, _, rfl⟩
    · exact ⟨_, rfl, _, rfl⟩
  · obtain ⟨b, step, witness, items, reached, copies, rel, destRel⟩ :
        ∃ b step witness, (plan nestedRows (nestedOptions true)).1 = [] ++ .blocker b :: [.step step witness] ∧
          b.kind = .overlapDetected ∧ step.kind = .copy ∧
          step.rel = ⟨[⟨[0x63], Segment.valid_c⟩]⟩ ∧ step.destRel = none :=
      ⟨_, _, _, rfl, rfl, rfl, rfl, rfl⟩
    have written : (nestedOptions true).writtenPath step =
        nestedDest.join ⟨[0x63], Segment.valid_c⟩ := by
      rw [SyncOptions.writtenPath, rel, destRel]
      rfl
    refine spares [] b _ step witness items reached List.mem_cons_self (by rw [copies]; decide) _
      (.inr written) ⟨?_, ?_⟩
    · exact ⟨rfl, rfl, ⟨[⟨[0x62], Segment.valid_b⟩, ⟨[0x63], Segment.valid_c⟩], rfl⟩⟩
    · exact ⟨rfl, rfl, List.prefix_append ..⟩

end Norte.Sync
