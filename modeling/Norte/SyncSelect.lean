import Norte.CompareTwin
import Norte.SyncInclude
import Norte.SyncOverlap

/-! A selection of a plan. A step that reads the source carries the keys of its source path
also where it writes, so that the pair it is in tells a prefix of that path; a deletion has
the destination's spelling and nothing else. -/
namespace Norte.Sync

open Compare (Comparison)
open Compare.Comparison (Twin)
open Transducer

/-- The comparison of two trees, and the options a plan of its rows is made with. -/
structure Wired (c : Comparison) (s : DescendSide) (rows : List CompareRow) (opts : SyncOptions) :
    Prop where
  trees : ∀ s, Compare.FiniteTree (c.provider s) (c.root s)
  streams : c.Streams rows
  side : opts.sourceSide = s.side
  source : opts.sourceRoot = c.root s
  dest : opts.destRoot = c.root s.other

/-- Two directories of a row, or the roots, by what they are called on each side. -/
def DirPair (opts : SyncOptions) (rows : List CompareRow) (source dest : RelPath) : Prop :=
  (source = .root ∧ dest = .root) ∨ ∃ row ∈ rows, ∃ s d, opts.source row = some s ∧
    opts.dest row = some d ∧ s.kind = .dir ∧ d.kind = .dir ∧
    s.path = under opts.sourceRoot source ∧ d.path = under opts.destRoot dest

def SyncStepKind.acts : SyncStepKind → Bool
  | .createDir | .copy | .overwrite | .deleteTree => true
  | .skip | .unknown => false

/-- What the step reads is strictly inside the pair's source, or what it writes strictly
inside its destination. -/
def InsidePair (opts : SyncOptions) (step : SyncStep) (source dest : RelPath) : Prop :=
  (∃ path, opts.readPath step = some path ∧ Strictly (under opts.sourceRoot source) path) ∨
    Strictly (under opts.destRoot dest) (opts.writtenPath step)

theorem under_injective {root : VPath} {rel other : RelPath} (same : under root rel = under root other) :
    rel = other :=
  Option.some.inj (by rw [← relPath_under root rel, same, relPath_under])

theorem strictly_under {root : VPath} {above rel : RelPath}
    (strict : Strictly (under root above) (under root rel)) :
    above.segments <+: rel.segments ∧ above.segments ≠ rel.segments := by
  obtain ⟨rest, named, proper⟩ := strict
  have path := eq_under_of_relUnder named
  have whole : rel = ⟨above.segments ++ rest.segments⟩ := by
    apply @under_injective root
    rw [path]
    simp [under_eq]
  subst whole
  refine ⟨List.prefix_append _ _, fun same => ?_⟩
  have empty : rest.segments = [] := by simpa using same
  simp [RelPath.isRoot, empty] at proper

/-- What a step that reads the source is about: the entry it reads, and the twin it writes.
A deletion is not spelt otherwise. -/
structure Carries (c : Comparison) (s : DescendSide) (opts : SyncOptions) (row : CompareRow)
    (step : SyncStep) : Prop where
  reads : ∀ path, opts.readPath step = some path → ∃ entry, opts.source row = some entry ∧ entry.path = path
  proper : opts.readPath step ≠ none → step.rel.isRoot = false
  twin : opts.readPath step ≠ none → Twin c s step.rel.segments (step.destRel.getD step.rel).segments
  deletes : step.kind = .deleteTree → step.destRel = none

/-- Every spelling that is kept is a twin. -/
def Spelt (c : Comparison) (s : DescendSide) (t : Transducer) : Prop :=
  ∀ p ∈ t.spellings, Twin c s p.1.segments p.2.segments

theorem speltAtTheDestination_twin {c : Comparison} {s : DescendSide} {t : Transducer}
    {rel found : RelPath} (spelt : Spelt c s t) (twin : Twin c s rel.segments rel.segments)
    (named : t.speltAtTheDestination rel = some found) : Twin c s rel.segments found.segments := by
  obtain ⟨ancestor, above, ends⟩ := List.exists_of_findSome?_eq_some named
  obtain ⟨destDir, known, rfl⟩ := Option.map_eq_some_iff.mp ends
  obtain ⟨pair, first, rfl⟩ := Option.map_eq_some_iff.mp known
  obtain ⟨split, -, rfl⟩ := List.mem_map.mp above
  have own : pair.1 = ⟨rel.segments.take split⟩ := by simpa using List.find?_some first
  have spelling := spelt pair (List.mem_of_find?_eq_some first)
  rw [own] at spelling
  obtain ⟨rest, whole⟩ := List.take_prefix split rel.segments
  generalize rel.segments.take split = above at spelling whole ⊢
  rw [← whole] at twin ⊢
  simpa using Twin.graft rest twin spelling

/-- Where nothing is paired, the keys are those of the source all the same. -/
theorem destRelOf_twin {c : Comparison} {s : DescendSide} {t : Transducer} {rel : RelPath}
    {destRel : Option RelPath} (spelt : Spelt c s t) (twin : Twin c s rel.segments rel.segments)
    (named : t.destRelOf rel none = .ok destRel) :
    Twin c s rel.segments (destRel.getD rel).segments := by
  unfold destRelOf at named
  dsimp only at named
  split at named
  · rename_i found there
    obtain rfl := Except.ok.inj named
    have other := speltAtTheDestination_twin spelt twin there
    by_cases same : found = rel <;> simpa [same] using other
  · obtain rfl := Except.ok.inj named
    exact twin

theorem destRelOf_paired {t : Transducer} {entry : Entry} {rel other : RelPath}
    {destRel : Option RelPath} (path : entry.path = under t.opts.destRoot other)
    (named : t.destRelOf rel (some entry) = .ok destRel) : destRel.getD rel = other := by
  simp only [destRelOf, relUnder, path, relPath_under, Except.map, Except.ok.injEq] at named
  subst named
  by_cases same : other = rel <;> simp [same]

namespace Wired

variable {c : Comparison} {s : DescendSide} {rows : List CompareRow} {opts : SyncOptions}
  {row : CompareRow}

theorem walks (wired : Wired c s rows opts) (member : row ∈ rows) :
    ∃ out, StackWalk.Walks c.emits c.kids [c.rootFrame] out ∧ rows = Compare.numbered c.names 0 out := by
  cases apart : c.excludesRoots with
  | true =>
    obtain rfl := wired.streams.unique (Comparison.streams_excluded apart)
    cases member
  | false =>
    obtain ⟨out, walks⟩ := Comparison.walks_total wired.trees
    exact ⟨out, walks, wired.streams.unique (Comparison.streams_of_walks walks apart)⟩

theorem source_eq (wired : Wired c s rows opts) : opts.source row = Compare.rowEntry row s := by
  cases s <;> simp [SyncOptions.source, wired.side, DescendSide.side, Compare.rowEntry]

theorem dest_eq (wired : Wired c s rows opts) : opts.dest row = Compare.rowEntry row s.other := by
  cases s <;> simp [SyncOptions.dest, wired.side, DescendSide.side, DescendSide.other, Compare.rowEntry]

/-- The source path of a row, and the destination path as its twin. -/
theorem twins (wired : Wired c s rows opts) (member : row ∈ rows) {entry : Entry}
    (there : opts.source row = some entry)
    (merged : row.verdict ≠ .error ∧ row.verdict ≠ .ambiguous ∨ (opts.dest row).isSome = true) :
    ∃ rel : RelPath, entry.path = under opts.sourceRoot rel ∧ Twin c s rel.segments rel.segments ∧
      ∀ d, opts.dest row = some d → ∃ other : RelPath, d.path = under opts.destRoot other ∧
        Twin c s rel.segments other.segments := by
  obtain ⟨out, walks, rfl⟩ := wired.walks member
  rw [wired.source_eq] at there
  simp only [wired.dest_eq] at merged ⊢
  rw [wired.source, wired.dest]
  obtain ⟨rel, path, twin, others⟩ := Comparison.stream_twins walks member there (by
    refine merged.imp_left fun sure => ⟨?_, sure.2⟩
    simp [Compare.isListingError, sure.1])
  refine ⟨⟨rel⟩, path, twin, fun d found => ?_⟩
  obtain ⟨other, path', twin'⟩ := others d.path (by rw [found]; rfl)
  exact ⟨⟨other⟩, path', twin'⟩

variable {t t' mid : Transducer} {item : Option PlanItem} {sourceRel : Option RelPath}

theorem remembers_spelt (wired : Wired c s rows opts) (member : row ∈ rows) (own : t.opts = opts)
    (spelt : Spelt c s t) (names : t.sourceRelOf (opts.source row) = .ok sourceRel)
    (remembers : Remembers t sourceRel (opts.source row) (opts.dest row) mid) : Spelt c s mid := by
  subst own
  cases remembers with
  | alike => exact spelt
  | unpaired => exact spelt
  | spelt sourceDir destDir named destNamed _ =>
    obtain ⟨rel, path, -, others⟩ := wired.twins member sourceDir.1 (.inr (by rw [destDir.1]; rfl))
    obtain ⟨other, path', twin⟩ := others _ destDir.1
    have source := eq_under_of_relUnder (named_of_sourceRelOf names sourceDir.1 named)
    obtain rfl := under_injective (path.symm.trans source)
    obtain rfl := under_injective (path'.symm.trans (eq_under_of_relUnder destNamed))
    intro p inside
    rcases List.mem_cons.mp inside with rfl | before
    · exact twin
    · exact spelt p before

/-- What the table of a row leaves. -/
theorem table_carries (wired : Wired c s rows opts) (member : row ∈ rows) (own : t.opts = opts)
    (spelt : Spelt c s t) (names : t.sourceRelOf (opts.source row) = .ok sourceRel)
    (emits : Emits t row (opts.source row) (opts.dest row) sourceRel (.ok (t', item))) :
    t'.spellings = t.spellings ∧ ∀ step witness, item = some (.step step witness) →
      Carries c s opts row step := by
  subst own
  have comes := (emits.comes names).2.2
  generalize result : (.ok (t', item) : Absorbed) = absorbed at emits
  cases emits with
  | failed => cases result
  | nothing =>
    obtain ⟨rfl, rfl⟩ := Prod.mk.inj (Except.ok.inj result)
    exact ⟨rfl, fun _ _ there => by cases there⟩
  | blocker =>
    obtain ⟨rfl, rfl⟩ := Prod.mk.inj (Except.ok.inj result)
    exact ⟨rfl, fun _ _ there => by cases there⟩
  | skipped =>
    obtain ⟨-, -, kept, i, rfl, step, rfl, kind, -, -⟩ := push_packaged result.symm
    refine ⟨kept, fun step' witness there => ?_⟩
    obtain ⟨rfl, -⟩ := PlanItem.step.inj (Option.some.inj there)
    have idle : t.opts.readPath step = none := by simp [SyncOptions.readPath, kind]
    exact ⟨(comes _ rfl).1, fun reads => absurd idle reads, fun reads => absurd idle reads,
      fun deletes => by simp [kind] at deletes⟩
  | deleted =>
    obtain ⟨-, -, kept, i, rfl, step, rfl, kind, -, destRel⟩ := push_packaged result.symm
    refine ⟨kept, fun step' witness there => ?_⟩
    obtain ⟨rfl, -⟩ := PlanItem.step.inj (Option.some.inj there)
    have idle : t.opts.readPath step = none := by simp [SyncOptions.readPath, kind]
    exact ⟨(comes _ rfl).1, fun reads => absurd idle reads, fun reads => absurd idle reads,
      fun _ => destRel⟩
  | orphan verdict there named proper spells =>
    obtain ⟨-, -, kept, i, rfl, step, rfl, kind, rel, destRel⟩ := push_packaged result.symm
    refine ⟨kept, fun step' witness same => ?_⟩
    obtain ⟨rfl, -⟩ := PlanItem.step.inj (Option.some.inj same)
    have sure : row.verdict ≠ .error ∧ row.verdict ≠ .ambiguous := by
      rw [verdict, Transducer.sourceOrphan]
      split <;> simp
    obtain ⟨rel', path, twin, -⟩ := wired.twins member there (.inl sure)
    obtain rfl := under_injective
      (path.symm.trans (eq_under_of_relUnder (named_of_sourceRelOf names there named)))
    subst rel destRel
    refine ⟨(comes _ rfl).1, fun _ => proper, fun _ => destRelOf_twin spelt twin spells, fun deletes => ?_⟩
    rw [kind] at deletes
    split at deletes <;> cases deletes
  | paired verdict sure there named proper spells =>
    obtain ⟨-, -, kept, i, rfl, step, rfl, kind, rel, destRel⟩ := push_packaged result.symm
    refine ⟨kept, fun step' witness same => ?_⟩
    obtain ⟨rfl, -⟩ := PlanItem.step.inj (Option.some.inj same)
    obtain ⟨rel', path, twin, others⟩ := wired.twins member there (.inl sure)
    obtain rfl := under_injective
      (path.symm.trans (eq_under_of_relUnder (named_of_sourceRelOf names there named)))
    subst rel destRel
    refine ⟨(comes _ rfl).1, fun _ => proper, fun _ => ?_, fun deletes => by simp [kind] at deletes⟩
    cases dest : t.opts.dest row with
    | none =>
      rw [dest] at spells
      exact destRelOf_twin spelt twin spells
    | some d =>
      obtain ⟨other, path', twin'⟩ := others d dest
      rw [dest] at spells
      rwa [destRelOf_paired path' spells]

/-- A row keeps the spellings twins, and so does the step it leaves. -/
theorem absorb (wired : Wired c s rows opts) (member : row ∈ rows) (own : t.opts = opts)
    (spelt : Spelt c s t) (absorbed : t.absorb row = .ok (t', item)) :
    t'.opts = opts ∧ Spelt c s t' ∧ ∀ step witness, item = some (.step step witness) →
      Carries c s opts row step := by
  have kept := (absorb_opts absorbed).trans own
  cases t.absorbs row with
  | pruned _ nothing =>
    obtain ⟨rfl, rfl⟩ := Prod.mk.inj (Except.ok.inj (absorbed.symm.trans nothing))
    exact ⟨kept, spelt, fun _ _ there => by cases there⟩
  | reached _ _ blocked =>
    obtain ⟨rfl, rfl⟩ := Prod.mk.inj (Except.ok.inj (absorbed.symm.trans blocked))
    exact ⟨kept, spelt, fun _ _ there => by cases there⟩
  | failed e failed _ =>
    rw [absorbed] at failed
    cases failed
  | table passed aside names remembers table =>
    rename_i sourceRel mid
    rw [Transducer.source_eq, Transducer.dest_eq, own] at remembers table
    rw [Transducer.source_eq, own] at names
    obtain ⟨opts', -, -⟩ := remembers.keeps
    have again : mid.sourceRelOf (opts.source row) = .ok sourceRel := by
      rw [← names]
      simp only [sourceRelOf, opts']
    have spelt' := wired.remembers_spelt member own spelt names remembers
    have emits := @Emits.absorbRow mid row (opts.source row) (opts.dest row) sourceRel
    rw [← table, absorbed] at emits
    obtain ⟨same, carries⟩ := wired.table_carries member (opts'.trans own) spelt' again emits
    refine ⟨kept, fun p inside => spelt' p ?_, carries⟩
    rwa [← same]

theorem run {done : List CompareRow} {items : List PlanItem} (wired : Wired c s rows opts)
    (part : ∀ row ∈ done, row ∈ rows) (own : t.opts = opts) (spelt : Spelt c s t)
    (run : Run t done t' items) :
    t'.opts = opts ∧ Spelt c s t' ∧ ∀ step witness, .step step witness ∈ items →
      ∃ row ∈ done, Carries c s opts row step := by
  induction run with
  | nil => exact ⟨own, spelt, fun _ _ inside => absurd inside List.not_mem_nil⟩
  | cons absorbed _ ih =>
    obtain ⟨own, spelt, first⟩ := wired.absorb (part _ List.mem_cons_self) own spelt absorbed
    obtain ⟨own, spelt, later⟩ := ih (fun row member => part row (List.mem_cons_of_mem _ member)) own spelt
    refine ⟨own, spelt, fun step witness inside => ?_⟩
    rcases List.mem_append.mp inside with now | inside
    · exact ⟨_, List.mem_cons_self, first step witness (Option.mem_toList.mp now)⟩
    · obtain ⟨row, member, carries⟩ := later step witness inside
      exact ⟨row, List.mem_cons_of_mem _ member, carries⟩

end Wired

/-- The plan of all the rows. -/
def fullPlan (rows : List CompareRow) (opts : SyncOptions) : List PlanItem := (plan (rows.map .ok) opts).1

def keptPlan (rows : List CompareRow) (opts : SyncOptions) (list : List RelPath) : List PlanItem :=
  (fullPlan rows opts).filter (IncludeFilter.new list).passes

theorem mem_keptPlan {rows : List CompareRow} {opts : SyncOptions} {list : List RelPath} {step : SyncStep}
    {witness : Option DestWitness} : .step step witness ∈ keptPlan rows opts list ↔
      .step step witness ∈ fullPlan rows opts ∧
        (Chosen list step.rel ∨ step.kind = .createDir ∧ OnTheWay list step.rel) := by
  rw [keptPlan, List.mem_filter, IncludeFilter.passes, IncludeFilter.keeps_iff]

theorem SyncOptions.readPath_eq {opts : SyncOptions} {step : SyncStep} (reads : opts.readPath step ≠ none) :
    opts.readPath step = some (under opts.sourceRoot step.rel) := by
  unfold readPath at reads ⊢
  split at reads
  · simp_all
  · simp_all
  · simp_all
  all_goals exact absurd rfl reads

namespace Wired

variable {c : Comparison} {s : DescendSide} {rows : List CompareRow} {opts : SyncOptions}

theorem known (wired : Wired c s rows opts) : opts.sourceSide ≠ .unknown := by
  rw [wired.side]
  cases s <;> simp [DescendSide.side]

/-- A plan with a step is what a run over some of the rows leaves. -/
theorem planned (wired : Wired c s rows opts) {step : SyncStep} {witness : Option DestWitness}
    (inside : .step step witness ∈ fullPlan rows opts) :
    ∃ done rest t', rows = done ++ rest ∧ Run (start opts) done t' (fullPlan rows opts) := by
  cases writable : opts.destWritable with
  | false =>
    simp [fullPlan, plan, wired.known, writable] at inside
  | true =>
    rw [fullPlan, plan_eq wired.known writable]
    exact Run.before_end (start opts) rows

theorem carried (wired : Wired c s rows opts) {step : SyncStep} {witness : Option DestWitness}
    (inside : .step step witness ∈ fullPlan rows opts) : ∃ row ∈ rows, Carries c s opts row step := by
  obtain ⟨done, rest, t', rfl, run⟩ := wired.planned inside
  obtain ⟨-, -, carries⟩ := wired.run (fun row member => List.mem_append_left _ member) rfl
    (fun p none_ => absurd none_ List.not_mem_nil) run
  obtain ⟨row, member, carried⟩ := carries step witness inside
  exact ⟨row, List.mem_append_left _ member, carried⟩

theorem pair_twin (wired : Wired c s rows opts) {source dest : RelPath}
    (pair : DirPair opts rows source dest) : Twin c s source.segments dest.segments := by
  rcases pair with ⟨rfl, rfl⟩ | ⟨row, member, l, r, left, right, -, -, path, path'⟩
  · exact .root
  · obtain ⟨rel, own, -, others⟩ := wired.twins member left (.inr (by rw [right]; rfl))
    obtain ⟨other, own', twin⟩ := others r right
    obtain rfl := under_injective (own.symm.trans path)
    obtain rfl := under_injective (own'.symm.trans path')
    exact twin

/-- What a step inside a pair reads is inside the pair's source. -/
theorem inside_source (wired : Wired c s rows opts) {row : CompareRow} {step : SyncStep}
    {source dest : RelPath} (carries : Carries c s opts row step) (reads : opts.readPath step ≠ none)
    (pair : DirPair opts rows source dest) (inside : InsidePair opts step source dest) :
    source.segments <+: step.rel.segments := by
  rcases inside with ⟨path, read, strict⟩ | strict
  · obtain rfl := Option.some.inj ((SyncOptions.readPath_eq reads).symm.trans read)
    exact (strictly_under strict).1
  · have above := (strictly_under strict).1
    have cut := (carries.twin reads).take dest.segments.length
    rw [← List.prefix_iff_eq_take.mp above] at cut
    rw [(wired.pair_twin pair).injective cut]
    exact List.take_prefix _ _

/-- The directory a step writes in, where the plan makes it, is one up on the source too. -/
theorem parent_rel {row row' : CompareRow} {step dir : SyncStep} (carries : Carries c s opts row step)
    (carries' : Carries c s opts row' dir) (reads : opts.readPath step ≠ none)
    (reads' : opts.readPath dir ≠ none) (up : Child (opts.writtenPath dir) (opts.writtenPath step)) :
    ∃ name, step.rel.segments = dir.rel.segments ++ [name] := by
  obtain ⟨last, written⟩ := up
  have twin := carries.twin reads
  have twin' := carries'.twin reads'
  rw [SyncOptions.writtenPath, SyncOptions.writtenPath, ← under_join] at written
  have names := congrArg RelPath.segments (under_injective written)
  rw [names] at twin
  have cut := twin.take (dir.destRel.getD dir.rel).segments.length
  rw [List.take_left] at cut
  have whole := twin.length
  rw [List.length_append, List.length_singleton, ← twin'.length] at whole
  have short : dir.rel.segments.length < step.rel.segments.length := by omega
  refine ⟨step.rel.segments[dir.rel.segments.length], ?_⟩
  nth_rewrite 1 [twin'.injective cut]
  rw [← twin'.length, List.take_append_getElem, List.take_of_length_le (by omega)]

/-- It is made before. -/
theorem parent_before (wired : Wired c s rows opts) {step dir : SyncStep}
    {witness witness' : Option DestWitness} {before after : List PlanItem}
    (whole : fullPlan rows opts = before ++ .step step witness :: after)
    (reads : opts.readPath step ≠ none) (inside : .step dir witness' ∈ fullPlan rows opts)
    (reads' : opts.readPath dir ≠ none) (up : Child (opts.writtenPath dir) (opts.writtenPath step)) :
    .step dir witness' ∈ before := by
  obtain ⟨done, rest, t', rfl, run⟩ := wired.planned inside
  rw [whole] at run inside
  obtain ⟨first, row, last, mid, mid', rfl, ran, here, later⟩ := run.at_item
  have member : row ∈ (first ++ row :: last) ++ rest := by simp
  obtain ⟨own, spelt, -⟩ := wired.run (fun r inside => by simp [inside]) rfl
    (fun p none_ => absurd none_ List.not_mem_nil) ran
  obtain ⟨own', spelt', carries⟩ := wired.absorb member own spelt here
  have carries := carries step witness rfl
  rcases List.mem_append.mp inside with found | found
  · exact found
  exfalso
  rcases List.mem_cons.mp found with same | found
  · obtain ⟨rfl, -⟩ := PlanItem.step.inj same
    exact up.ne rfl
  obtain ⟨-, -, others⟩ := wired.run (fun r inside => by simp [inside]) own' spelt' later
  obtain ⟨row', member', carries'⟩ := others dir witness' found
  obtain ⟨name, rel⟩ := Wired.parent_rel carries carries' reads reads' up
  obtain ⟨entry, there, path⟩ := carries.reads _ (SyncOptions.readPath_eq reads)
  obtain ⟨entry', there', path'⟩ := carries'.reads _ (SyncOptions.readPath_eq reads')
  have child : Child entry'.path entry.path := by
    refine ⟨name, ?_⟩
    rw [path, path', ← under_join, ← rel]
  obtain ⟨out, walks, numbers⟩ := wired.walks member
  have order := Compare.numbered_increasing c.names 0 out
  have upwards := Comparison.parentsFirst walks
  rw [← numbers] at order upwards
  rw [wired.source_eq] at there there'
  have less := (upwards s row member entry entry'.path there child).2 row' (by simp [member']) entry' there' rfl
  rw [List.append_assoc, List.cons_append] at order
  have more := (List.pairwise_cons.mp (List.pairwise_append.mp order).2.1).1 row' (by simp [member'])
  omega

end Wired

/-- The claim on what is kept of a pair: all of it. -/
def KeepsPairs (opts : SyncOptions) (rows : List CompareRow) (list : List RelPath) : Prop :=
  ∀ source dest, DirPair opts rows source dest → source ∈ list → ∀ step witness,
    .step step witness ∈ fullPlan rows opts → step.kind.acts = true → InsidePair opts step source dest →
      .step step witness ∈ keptPlan rows opts list

/-- What a selection keeps of a plan. -/
structure SelectionRuns (opts : SyncOptions) (rows : List CompareRow) (list : List RelPath) : Prop where
  sublist : (keptPlan rows opts list).Sublist (fullPlan rows opts)
  /-- All of a selected pair but, where its two names differ, deletions that no selected path
  is at or above in the destination's spelling. -/
  inside : ∀ source dest, DirPair opts rows source dest → source ∈ list → ∀ step witness,
    .step step witness ∈ fullPlan rows opts → step.kind.acts = true → InsidePair opts step source dest →
      (.step step witness ∈ keptPlan rows opts list ↔
        (step.kind = .deleteTree ∧ dest ≠ source → Chosen list step.rel))
  parents : ∀ before step witness after, keptPlan rows opts list = before ++ .step step witness :: after →
    step.kind = .createDir ∨ step.kind = .copy ∨ step.kind = .overwrite → ∀ dir witness',
      .step dir witness' ∈ fullPlan rows opts → dir.kind = .createDir →
        Child (opts.writtenPath dir) (opts.writtenPath step) → .step dir witness' ∈ before
  named : ∀ step witness, .step step witness ∈ keptPlan rows opts list → step.kind.acts = true →
    Chosen list step.rel ∨ step.kind = .createDir ∧ OnTheWay list step.rel

theorem keeps_parent {list : List RelPath} {step dir : SyncStep} {name : Segment}
    (rel : step.rel.segments = dir.rel.segments ++ [name]) (proper : dir.rel.isRoot = false)
    (kept : Chosen list step.rel ∨ step.kind = .createDir ∧ OnTheWay list step.rel) :
    Chosen list dir.rel ∨ OnTheWay list dir.rel := by
  have below_ : dir.rel.segments ≠ [] := fun empty => by simp [RelPath.isRoot, empty] at proper
  have parent : dir.rel.segments <+: step.rel.segments := by
    rw [rel]
    exact List.prefix_append _ _
  rcases kept with ⟨sel, member, above⟩ | ⟨-, sel, member, onWay, -, -⟩
  · rw [rel, List.prefix_concat_iff] at above
    rcases above with same | above
    · refine .inr ⟨sel, member, ?_, below_, ?_⟩
      · rw [same]
        exact List.prefix_append _ _
      · simp [same]
    · exact .inl ⟨sel, member, above⟩
  · refine .inr ⟨sel, member, parent.trans onWay, below_, fun same => ?_⟩
    have long := onWay.length_le
    rw [← same, rel, List.length_append, List.length_singleton] at long
    omega

theorem selection_runs {c : Comparison} {s : DescendSide} {rows : List CompareRow} {opts : SyncOptions}
    (wired : Wired c s rows opts) (list : List RelPath) : SelectionRuns opts rows list := by
  refine ⟨List.filter_sublist, ?_, ?_, fun step witness kept _ => (mem_keptPlan.mp kept).2⟩
  · intro source dest pair selected step witness inside acts strict
    rw [mem_keptPlan]
    obtain ⟨row, -, carries⟩ := wired.carried inside
    cases kind : step.kind with
    | deleteTree =>
      have idle : opts.readPath step = none := by simp [SyncOptions.readPath, kind]
      constructor
      · rintro ⟨-, chosen | ⟨dir, -⟩⟩
        · exact fun _ => chosen
        · cases dir
      · intro spared
        refine ⟨inside, .inl ?_⟩
        by_cases alike : dest = source
        · subst alike
          rcases strict with ⟨path, reads, -⟩ | strict
          · rw [idle] at reads
            cases reads
          · rw [SyncOptions.writtenPath, carries.deletes kind] at strict
            exact ⟨dest, selected, (strictly_under strict).1⟩
        · exact spared ⟨rfl, alike⟩
    | skip | unknown => simp [SyncStepKind.acts, kind] at acts
    | createDir | copy | overwrite =>
      have reads : opts.readPath step ≠ none := by simp [SyncOptions.readPath, kind]
      have chosen : Chosen list step.rel := ⟨source, selected, wired.inside_source carries reads pair strict⟩
      exact ⟨fun _ deletes => absurd deletes.1 (by decide), fun _ => ⟨inside, .inl chosen⟩⟩
  · intro before step witness after cut kind dir witness' inside createDir up
    have reads : opts.readPath step ≠ none := by
      rcases kind with kind | kind | kind <;> simp [SyncOptions.readPath, kind]
    have reads' : opts.readPath dir ≠ none := by simp [SyncOptions.readPath, createDir]
    obtain ⟨first, others, whole, rfl, rest⟩ := List.filter_eq_append_iff.mp cut
    obtain ⟨skipped, later, rfl, refused, passes, rfl⟩ := List.filter_eq_cons_iff.mp rest
    rw [← List.append_assoc] at whole
    have earlier := wired.parent_before whole reads inside reads' up
    have stepIn : .step step witness ∈ fullPlan rows opts := by
      rw [whole]
      simp
    obtain ⟨row, -, carries⟩ := wired.carried stepIn
    obtain ⟨row', -, carries'⟩ := wired.carried inside
    obtain ⟨name, rel⟩ := Wired.parent_rel carries carries' reads reads' up
    have keptStep := IncludeFilter.keeps_iff.mp passes
    have keptDir : (IncludeFilter.new list).passes (.step dir witness') = true := by
      rw [IncludeFilter.passes, IncludeFilter.keeps_iff]
      exact (keeps_parent rel (carries'.proper reads') keptStep).imp_right fun onWay => ⟨createDir, onWay⟩
    rcases List.mem_append.mp earlier with found | found
    · exact List.mem_filter.mpr ⟨found, keptDir⟩
    · exact absurd keptDir (refused _ found)

/-! `A` on a side that tells case from case is `a` on one that does not, and in there is a
file that is mirrored away. -/

theorem valid_capital : Segment.Valid [0x41] :=
  ⟨by decide, by decide, by decide, by decide⟩

def upperName : Segment := ⟨[0x41], valid_capital⟩

def lowerName : Segment := ⟨[0x61], Segment.valid_a⟩

theorem valid_x : Segment.Valid [0x78] := Segment.valid_letter rfl

def strayName : Segment := ⟨[0x78], valid_x⟩

def folder (name : Segment) : Entry := ⟨Compare.smallRoot.join name, .dir, none, none⟩

def stray : Entry := ⟨(folder lowerName).path.join strayName, .file, none, none⟩

/-- A folder and what is in it. -/
def twoLevels (dir : Entry) (inside : List Entry) : Compare.Provider where
  list path :=
    if path = Compare.smallRoot then some [some dir]
    else if path = dir.path then some (inside.map some)
    else none
  stat _ := none
  readLink _ := none
  read _ := none
  capabilitiesAt _ := none

def respelt : Comparison where
  left := twoLevels (folder upperName) []
  leftRoot := Compare.smallRoot
  right := twoLevels (folder lowerName) [stray]
  rightRoot := Compare.smallRoot
  opts := ⟨⟨true, true, false⟩, none, 2000, false, some .left⟩
  sides := ⟨.none, .simple⟩
  excluded := []
  names := ⟨fun name mode =>
    if mode = .none then name else name.map fun b => if 0x41 ≤ b ∧ b ≤ 0x5A then b + 0x20 else b,
    fun _ => false⟩
  sha256 := id

def respeltFrame : Compare.Frame := ⟨some (folder upperName), some (folder lowerName), 1⟩

def respeltRows : List CompareRow :=
  Compare.numbered respelt.names 0 (respelt.emits respelt.rootFrame ++ respelt.emits respeltFrame)

def respeltOptions : SyncOptions :=
  ⟨Compare.smallRoot, Compare.smallRoot, .mirror, .skip, .left, true, true, true⟩

theorem twoLevels_inTree {dir e : Entry} {inside : List Entry} (child : dir.path ≠ Compare.smallRoot)
    (files : ∀ e ∈ inside, e.kind ≠ .dir) (tree : Compare.InTree (twoLevels dir inside) Compare.smallRoot e) :
    e = dir ∨ e ∈ inside := by
  induction tree with
  | top found member _ =>
    simp only [twoLevels, if_true, Option.some.injEq] at found
    subst found
    exact .inl (Option.some.inj (List.mem_singleton.mp member))
  | @deeper d items e _ isDir found member _ ih =>
    rcases ih with rfl | file
    · simp only [twoLevels, if_neg child, if_true, Option.some.injEq] at found
      subst found
      exact .inr (by simpa using member)
    · exact absurd isDir (files _ file)

theorem twoLevels_finite {dir : Entry} {inside : List Entry} (child : Child Compare.smallRoot dir.path)
    (below_ : ∀ e ∈ inside, Child dir.path e.path) (files : ∀ e ∈ inside, e.kind ≠ .dir)
    (nodup : (inside.map (·.path)).Nodup) : Compare.FiniteTree (twoLevels dir inside) Compare.smallRoot := by
  refine ⟨⟨2, fun e tree => ?_⟩, fun path items _ found => ?_⟩
  · have long := child.length
    rcases twoLevels_inTree child.ne.symm files tree with rfl | member
    · omega
    · have := (below_ e member).length
      omega
  · simp only [twoLevels] at found
    split at found
    · obtain rfl := Option.some.inj found
      exact List.nodup_singleton _
    split at found
    · obtain rfl := Option.some.inj found
      simpa using nodup
    · cases found

theorem respelt_wired : Wired respelt .left respeltRows respeltOptions where
  trees s := by
    cases s with
    | left => exact twoLevels_finite ⟨upperName, rfl⟩ (by simp) (by simp) (by simp)
    | right =>
      apply @twoLevels_finite (folder lowerName) [stray] ⟨lowerName, rfl⟩
      · exact fun e member => ⟨strayName, by rw [List.mem_singleton.mp member]; rfl⟩
      · intro e member
        rw [List.mem_singleton.mp member]
        decide
      · exact List.nodup_singleton _
  streams := by
    have down : StackWalk.Walks respelt.emits respelt.kids [respeltFrame]
        (respelt.emits respeltFrame ++ ([] ++ [])) := .cons .nil .nil
    have walks : StackWalk.Walks respelt.emits respelt.kids [respelt.rootFrame]
        (respelt.emits respelt.rootFrame ++ (respelt.emits respeltFrame ++ ([] ++ []) ++ [])) :=
      .cons down .nil
    have streams := Comparison.streams_of_walks walks rfl
    simpa [respeltRows] using streams
  side := rfl
  source := rfl
  dest := rfl

theorem selection_runs_respelt : SelectionRuns respeltOptions respeltRows [⟨[upperName]⟩] :=
  selection_runs respelt_wired _

/-- The file is in the folder that was selected, and by its own name under none. -/
theorem selection_drops_deletion : Wired respelt .left respeltRows respeltOptions ∧
    ¬KeepsPairs respeltOptions respeltRows [⟨[upperName]⟩] := by
  refine ⟨respelt_wired, fun keeps => ?_⟩
  obtain ⟨pair, orphan, rows, left, right⟩ : ∃ pair orphan, respeltRows = [pair, orphan] ∧
      respeltOptions.source pair = some (folder upperName) ∧
      respeltOptions.dest pair = some (folder lowerName) := ⟨_, _, rfl, rfl, rfl⟩
  obtain ⟨step, witness, whole, kind, rel, destRel⟩ : ∃ step witness,
      fullPlan respeltRows respeltOptions = [.step step witness] ∧ step.kind = .deleteTree ∧
      step.rel = ⟨[lowerName, strayName]⟩ ∧ step.destRel = none := ⟨_, _, rfl, rfl, rfl, rfl⟩
  have kept := keeps ⟨[upperName]⟩ ⟨[lowerName]⟩
    (.inr ⟨pair, by simp [rows], _, _, left, right, rfl, rfl, rfl, rfl⟩) List.mem_cons_self step witness
    (by simp [whole]) (by rw [kind]; rfl)
    (.inr (by rw [SyncOptions.writtenPath, destRel, rel]; exact ⟨⟨[strayName]⟩, rfl, rfl⟩))
  rcases (mem_keptPlan.mp kept).2 with ⟨sel, member, above⟩ | ⟨dir, -⟩
  · obtain rfl := List.mem_singleton.mp member
    rw [rel] at above
    exact absurd above (by decide)
  · rw [kind] at dir
    cases dir

end Norte.Sync
