import Norte.SyncClean

/-! What the plan of two clean trees leaves of the destination. Every entry of the source stands where it
comes to lie; an update leaves all else as it was, and a mirror leaves nothing else below the root. -/
namespace Norte.Sync

open Compare (Comparison Frame Listed joinedOn InTree)
open MergeJoin StackWalk Transducer PutCut

variable {c : Comparison} {s : DescendSide} {rows : List CompareRow} {opts : SyncOptions} {row : CompareRow}
  {f g : Frame} {lefts rights : List Entry} {j : Joined (Bytes × Entry) (Bytes × Entry)} {x y : Bytes × Entry} {d e : Entry}
  {step : SyncStep} {witness : Option DestWitness} {t : Standings}

/-- What is made of an entry of the source. -/
def Standing.of (e : Entry) : Standing := if e.kind = .dir then .dir e.path else .leaf e.path

namespace Wired

theorem yields_calls (wired : Wired c s rows opts) (unblocked : Unblocked opts rows) (yields : Yields opts rows row (.step step witness))
    (acting : step.kind.acts = true) : opts.calls row = true := by
  obtain ⟨before, after, t, t', items, split, run, absorbed⟩ := yields
  obtain ⟨own, fated⟩ := fated_of_run run absorbed
  rw [wired.read unblocked split] at fated
  obtain ⟨mid, sourceRel, rfl, -, known, table⟩ := fated.table own
  rw [← absorbRow_acts known table]
  exact acting

/-- What a deletion is called for by. -/
theorem deletes_mirror (wired : Wired c s rows opts) (unblocked : Unblocked opts rows)
    (inside : .step step witness ∈ fullPlan rows opts) (deletes : step.kind = .deleteTree) : opts.mode = .mirror := by
  obtain ⟨row, member, yields⟩ := wired.yields_one inside
  have acting : step.kind.acts = true := by
    rw [deletes]
    rfl
  have calls := wired.yields_calls unblocked yields acting
  obtain ⟨f, lefts, rights, j, tells, acts⟩ := wired.acts unblocked yields acting
  obtain ⟨y, none_, on, -⟩ := takes_lone acts deletes
  have across : joinedOn s.other.other j = none := by cases s <;> exact none_
  have verdict := tells.alone_verdict on across
  split at verdict
  · simp [SyncOptions.calls, verdict] at calls
  · rw [← wired.destOrphan] at verdict
    have other : row.verdict ≠ opts.sourceOrphan := by
      rw [verdict]
      exact (orphans_apart opts).symm
    simp only [SyncOptions.calls, if_neg other, if_pos verdict] at calls
    by_contra update
    simp [update] at calls

/-- What is put somewhere is made of the entry that comes to lie there, where nothing stands or a leaf does. -/
theorem put_lies (wired : Wired c s rows opts) (unblocked : Unblocked opts rows)
    (shown : ∀ e, InTree (c.provider s.other) (c.root s.other) e → c.visible e = true)
    (shows : Shows (c.provider s.other) (c.root s.other) t) {path : VPath} {standing : Standing}
    (puts : .put path standing ∈ (fullPlan rows opts).filterMap opts.edit) : ∃ e, InTree (c.provider s) (c.root s) e ∧
      Comparison.Lies c s e path ∧ standing = .of e ∧
        (t path = none ∨ e.kind ≠ .dir ∧ ∃ kind, t path = some (.own kind) ∧ kind ≠ .dir) := by
  obtain ⟨item, inside, does⟩ := List.mem_filterMap.mp puts
  cases item with
  | blocker => cases does
  | step step witness =>
    have acting := acts_of_edit does
    obtain ⟨row, member, yields⟩ := wired.yields_one inside
    obtain ⟨f, lefts, rights, j, tells, acts⟩ := wired.acts unblocked yields acting
    have read {x : Bytes × Entry} (reads : opts.readPath step = some x.2.path) : under opts.sourceRoot step.rel = x.2.path := by
      rw [SyncOptions.readPath_eq (by simp [reads])] at reads
      exact Option.some.inj reads
    cases acts with
    | @makes x on none_ kind reads lies =>
      by_cases dir : x.2.kind = .dir
      · rw [if_pos dir] at kind
        simp only [SyncOptions.edit, kind, Option.some.injEq, Edit.put.injEq] at does
        obtain ⟨rfl, rfl⟩ := does
        exact ⟨x.2, tells.inTree on, lies, by rw [Standing.of, if_pos dir, read reads], .inl (shows.made shown tells.toEvent on none_ lies)⟩
      · rw [if_neg dir] at kind
        simp only [SyncOptions.edit, kind, Option.some.injEq, Edit.put.injEq] at does
        obtain ⟨rfl, rfl⟩ := does
        exact ⟨x.2, tells.inTree on, lies, by rw [Standing.of, if_neg dir, read reads], .inl (shows.made shown tells.toEvent on none_ lies)⟩
    | @replaces x y on on' leaves kind reads writes =>
      simp only [SyncOptions.edit, kind, Option.some.injEq, Edit.put.injEq] at does
      obtain ⟨rfl, rfl⟩ := does
      refine ⟨x.2, tells.inTree on, writes ▸ .met tells.toEvent on on', by rw [Standing.of, if_neg leaves.1, read reads], .inr ?_⟩
      exact ⟨leaves.1, y.2.kind, writes ▸ shows.entry _ (tells.inTree on'), leaves.2⟩
    | deletes none_ on' kind => simp [SyncOptions.edit, kind] at does

end Wired

theorem below_root {p : Compare.Provider} {root : VPath} (tree : InTree p root e) :
    HangsOff root e.path ∧ root.segments.length < e.path.segments.length := by
  induction tree with
  | top _ _ child =>
    have := child.length
    exact ⟨child.hangsOff, by omega⟩
  | deeper _ _ _ _ child ih =>
    have := child.length
    exact ⟨ih.1.trans child.hangsOff, by omega⟩

/-- What stands where an entry of the source comes to lie: what was made of it, or what it met, if that was
found to be the same with certainty. -/
inductive Holds (c : Comparison) (s : DescendSide) (rows : List CompareRow) (e : Entry) : VPath → Standing → Prop
  | made {path : VPath} : Holds c s rows e path (.of e)
  | matched {row : CompareRow} {f : Frame} {lefts rights : List Entry} {j : Joined (Bytes × Entry) (Bytes × Entry)} {key : Bytes}
    {y : Bytes × Entry} (member : row ∈ rows) (tells : Tells c f lefts rights j row) (on : joinedOn s j = some (key, e))
    (on' : joinedOn s.other j = some y) (same : row.verdict = .same) (certain : row.confidence = .certain)
    (kinds : e.kind = y.2.kind) : Holds c s rows e y.2.path (.own y.2.kind)

namespace Clean

variable (clean : Clean c s rows opts)
include clean

section

variable (member : row ∈ rows) (tells : Tells c f lefts rights j row)
include member tells

/-- The step that a row calls for is about the row's event. -/
theorem called_event {at_ : DescendSide} (calls : opts.calls row = true) (on : joinedOn at_ j = some x) :
    ∃ step witness, .step step witness ∈ fullPlan rows opts ∧ step.kind.acts = true ∧ Acts c s opts f lefts rights j step witness := by
  obtain ⟨step, witness, yields, planned, acting⟩ := clean.yields_called clean.unblocked member calls
  obtain ⟨g, lefts', rights', j', tells', acts⟩ := clean.toWired.acts clean.unblocked yields acting
  obtain ⟨rfl, rfl, rfl, rfl⟩ := tells.unique tells' on
  exact ⟨step, witness, planned, acting, acts⟩

/-- What a row calls for is made where its entry comes to lie. -/
theorem called_made (shows : Shows (c.provider s.other) (c.root s.other) t) (calls : opts.calls row = true)
    (on : joinedOn s j = some x) {path : VPath} (lies : Comparison.Lies c s x.2 path) :
    opts.applied (fullPlan rows opts) t path = some (.of x.2) := by
  obtain ⟨step, witness, planned, acting, acts⟩ := clean.called_event member tells calls on
  have puts : step.kind ≠ .deleteTree := by
    intro deletes
    obtain ⟨y, none_, -⟩ := Wired.takes_lone acts deletes
    rw [on] at none_
    cases none_
  obtain ⟨x', on', -, lies'⟩ := Wired.lies tells acts puts
  obtain rfl := Option.some.inj (on.symm.trans on')
  obtain rfl := lies.unique lies'
  obtain ⟨standing, does⟩ : ∃ standing, opts.edit (.step step witness) = some (.put (opts.writtenPath step) standing) := by
    cases kind : step.kind <;> simp_all [SyncOptions.edit, SyncStepKind.acts]
  have put : .put (opts.writtenPath step) standing ∈ (fullPlan rows opts).filterMap opts.edit := List.mem_filterMap.mpr ⟨_, planned, does⟩
  obtain ⟨e, -, lies', rfl, -⟩ := clean.put_lies clean.unblocked clean.all_shown shows put
  obtain rfl := lies.injective clean.all_shown lies'
  exact applyAll_put (@Wired.clear_rest _ _ _ _ [] clean.toWired clean.unblocked clean.gone clean.all_shown (fullPlan rows opts) rfl) put

end

/-- Nothing is cut off where an entry of the source comes to lie. -/
theorem uncut {path : VPath} (lies : Comparison.Lies c s e path) (place : VPath)
    (member : .cut place ∈ (fullPlan rows opts).filterMap opts.edit) : ¬HangsOff place path := by
  obtain ⟨step, witness, inside, deletes, rfl⟩ := cut_of_mem member
  obtain ⟨row, member, yields⟩ := clean.yields_one inside
  obtain ⟨f, lefts, rights, j, tells, acts⟩ := clean.toWired.acts clean.unblocked yields (by rw [deletes]; rfl)
  obtain ⟨y, none_, on, written⟩ := Wired.takes_lone acts deletes
  rw [written]
  exact lies.spared clean.all_shown tells.toEvent none_ on

/-- Every entry of the source stands where it comes to lie. -/
theorem holds (shows : Shows (c.provider s.other) (c.root s.other) t) {path : VPath} (lies : Comparison.Lies c s e path) :
    ∃ st, opts.applied (fullPlan rows opts) t path = some st ∧ Holds c s rows e path st := by
  cases lies with
  | @alone f lefts rights j key d path name event on none_ clear above named lands =>
    obtain ⟨row, member, tells⟩ := clean.exists_tells clean.open_ event
    have calls := tells.orphan_calls clean.toWired on none_ clear
    exact ⟨_, clean.called_made member tells shows calls on (.alone event on none_ clear above named lands), .made⟩
  | @met f lefts rights j key y event on on' =>
    obtain ⟨row, member, tells⟩ := clean.exists_tells clean.open_ event
    have lies : Comparison.Lies c s e y.2.path := .met event on on'
    cases calls : opts.calls row with
    | true => exact ⟨_, clean.called_made member tells shows calls on lies, .made⟩
    | false =>
      obtain ⟨same, certain, kinds⟩ := clean.matched member tells on on' calls
      refine ⟨.own y.2.kind, ?_, .matched member tells on on' same certain kinds⟩
      rw [← shows.entry y.2 (event.inTree on')]
      apply applyAll_other
      · intro standing put
        obtain ⟨step, witness, inside, acting, puts, written⟩ := put_of_mem put
        obtain ⟨row', member', yields⟩ := clean.yields_one inside
        obtain ⟨g, lefts', rights', j', tells', acts⟩ := clean.toWired.acts clean.unblocked yields acting
        obtain ⟨x, on₁, -, lies'⟩ := Wired.lies tells' acts puts
        rw [written] at lies'
        obtain rfl := lies.injective clean.all_shown lies'
        obtain rfl := clean.row_of_entry member member' tells tells' on on₁ rfl
        rw [clean.yields_calls clean.unblocked yields acting] at calls
        cases calls
      · exact clean.uncut lies

/-- All that nothing of the source comes to lie on is as it was, but that a mirror leaves nothing of it below
the root. -/
theorem elsewhere (shows : Shows (c.provider s.other) (c.root s.other) t) {path : VPath}
    (none_ : ∀ e, InTree (c.provider s) (c.root s) e → ¬Comparison.Lies c s e path) :
    opts.applied (fullPlan rows opts) t path =
      if opts.mode = .mirror ∧ HangsOff opts.destRoot path ∧ path ≠ opts.destRoot then none else t path := by
  have unput (standing : Standing) : .put path standing ∉ (fullPlan rows opts).filterMap opts.edit := by
    intro put
    obtain ⟨e, tree, lies, -⟩ := clean.put_lies clean.unblocked clean.all_shown shows put
    exact none_ e tree lies
  split
  · rename_i mirrors
    obtain ⟨mirror, hangs, proper⟩ := mirrors
    by_cases there : t path = none
    · by_cases cuts : ∃ place, .cut place ∈ (fullPlan rows opts).filterMap opts.edit ∧ HangsOff place path
      · obtain ⟨place, member, above⟩ := cuts
        exact applyAll_cut unput member above
      · rw [← there]
        exact applyAll_other unput fun place member above => cuts ⟨place, member, above⟩
    · rw [clean.dest] at hangs proper
      obtain ⟨e, tree, rfl⟩ := shows.only path hangs proper there
      obtain ⟨f, lefts, rights, j, y, event, on', at_⟩ := clean.dest_event tree
      have alone : joinedOn s j = none ∧ HangsOff y.2.path e.path := by
        rcases at_ with rfl | below_
        · refine ⟨?_, .refl _⟩
          cases on : joinedOn s j with
          | none => rfl
          | some x => exact absurd (.met event on on') (none_ x.2 (event.inTree on))
        · exact below_
      obtain ⟨row, member, tells⟩ := clean.exists_tells clean.open_ event
      have calls := tells.lone_calls clean.toWired mirror on' alone.1 (clean.uncollided event.down event.left event.right _ _)
      obtain ⟨step, witness, planned, -, acts⟩ := clean.called_event member tells calls on'
      cases acts with
      | makes on =>
        rw [alone.1] at on
        cases on
      | replaces on =>
        rw [alone.1] at on
        cases on
      | deletes _ on₁ kind written =>
        obtain rfl := Option.some.inj (on'.symm.trans on₁)
        have cut : .cut y.2.path ∈ (fullPlan rows opts).filterMap opts.edit :=
          List.mem_filterMap.mpr ⟨_, planned, by simp [SyncOptions.edit, kind, written]⟩
        exact applyAll_cut unput cut alone.2
  · rename_i other
    apply applyAll_other unput
    intro place member above
    obtain ⟨step, witness, inside, deletes, rfl⟩ := cut_of_mem member
    obtain ⟨row, member, yields⟩ := clean.yields_one inside
    obtain ⟨f, lefts, rights, j, tells, acts⟩ := clean.toWired.acts clean.unblocked yields (by rw [deletes]; rfl)
    obtain ⟨y, -, on, written⟩ := Wired.takes_lone acts deletes
    obtain ⟨hangs, longer⟩ := below_root (tells.inTree on)
    rw [written] at above
    rw [← clean.dest] at hangs longer
    apply other
    refine ⟨clean.deletes_mirror clean.unblocked inside deletes, hangs.trans above, ?_⟩
    rintro rfl
    have := above.length_le
    omega

end Clean

end Norte.Sync
