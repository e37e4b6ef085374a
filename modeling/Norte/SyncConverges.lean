import Norte.SyncAgain

/-! A clean pair of trees converges. Its plan is whole and each of its steps finds what it needs, every entry
of the source ends where it comes to lie with nothing else changed or, after a mirror, left, and a second
plan does nothing but what the dates and the options still ask for. -/
namespace Norte.Compare.Comparison.Lies

open Sync StackWalk

variable {c : Comparison} {s : DescendSide} {d e : Entry} {p q : VPath}

/-- An entry is known by its path. -/
theorem entry_unique (lies : Lies c s d p) (lies' : Lies c s e q) (same : d.path = e.path) : d = e := by
  obtain ⟨f, lefts, rights, j, key, event, on⟩ := lies.event
  obtain ⟨g, lefts', rights', j', key', event', on'⟩ := lies'.event
  obtain ⟨rfl, rfl, rfl, rfl⟩ := event.unique event' on on' same
  exact (Prod.mk.inj (Option.some.inj (on.symm.trans on'))).2

theorem top (lies : Lies c s e q) (child : Child (c.root s) e.path) : Child (c.root s.other) q := by
  obtain ⟨f, d, path, down, dir, above, lands, inside⟩ := lies.within
  obtain rfl := frame_unique down .refl dir (c.rootFrame_dir s) (above.parent child)
  obtain rfl := lands.eq_there (c.rootFrame_dir s.other)
  exact inside

/-- What is in a directory comes to lie in what the directory comes to lie at. -/
theorem nested (lies : Lies c s e q) (lies' : Lies c s d p) (child : Child d.path e.path) : Child p q := by
  obtain ⟨f, d', path, down, dir, above, lands, inside⟩ := lies.within
  have same := above.parent child
  rcases down.cases_tail with rfl | ⟨g, before, kid⟩
  · obtain rfl := Option.some.inj ((c.rootFrame_dir s).symm.trans dir)
    obtain ⟨g, lefts, rights, j, key, event, on⟩ := lies'.event
    have longer := (Sync.below_root (event.inTree on)).2
    rw [← same] at longer
    exact absurd longer (lt_irrefl _)
  · have lies'' := of_lands lands before kid dir
    obtain rfl := lies''.entry_unique lies' same
    obtain rfl := lies''.unique lies'
    exact inside

end Norte.Compare.Comparison.Lies

namespace Norte.Sync

open Compare (Comparison InTree)
open Transducer

/-- What a plan does, and what is left to do when it was applied. -/
structure Converges (c : Comparison) (s : DescendSide) (rows : List CompareRow) (opts : SyncOptions) (t : Standings) : Prop where
  ends : (plan (rows.map .ok) opts).2 = .ok ()
  acts : ∀ item ∈ fullPlan rows opts, item.acts = true
  ready : ∀ before step witness after, fullPlan rows opts = before ++ .step step witness :: after →
    opts.Ready (opts.applied before t) step witness
  holds : ∀ e, InTree (c.provider s) (c.root s) e → ∃ path st, Comparison.Lies c s e path ∧
    opts.applied (fullPlan rows opts) t path = some st ∧ Holds c s rows e path st
  one : ∀ e e' path path', Comparison.Lies c s e path → Comparison.Lies c s e' path' → (e = e' ↔ path = path')
  top : ∀ e path, Comparison.Lies c s e path → Child (c.root s) e.path → Child (c.root s.other) path
  nested : ∀ d e path path', Comparison.Lies c s d path → Comparison.Lies c s e path' → Child d.path e.path → Child path path'
  elsewhere : ∀ path, (∀ e, InTree (c.provider s) (c.root s) e → ¬Comparison.Lies c s e path) →
    opts.applied (fullPlan rows opts) t path =
      if opts.mode = .mirror ∧ HangsOff opts.destRoot path ∧ path ≠ opts.destRoot then none else t path
  settled : ∀ c' rows', Again c c' s t (opts.applied (fullPlan rows opts) t) → Wired c' s rows' opts →
    ∀ step witness, .step step witness ∈ fullPlan rows' opts → step.kind.acts = true → ∃ row ∈ rows', Unsettled opts row ∧
      opts.readPath step = (opts.source row).map (·.path) ∧ (opts.dest row).map (·.path) = some (opts.writtenPath step)

variable {c : Comparison} {s : DescendSide} {rows : List CompareRow} {opts : SyncOptions} {t : Standings}

namespace Clean

theorem ends (clean : Clean c s rows opts) : (plan (rows.map .ok) opts).2 = .ok () := by
  obtain ⟨last, items, run⟩ := Run.whole (t := start opts) fun row member => clean.fine member
  have whole := run.absorbAll []
  rw [List.append_nil] at whole
  rw [plan_eq clean.known clean.writable, whole]
  rfl

end Clean

/-- Two clean trees converge. -/
theorem sync_converges (clean : Clean c s rows opts) (shows : Shows (c.provider s.other) (c.root s.other) t) :
    Converges c s rows opts t where
  ends := clean.ends
  acts item inside := clean.only_acts inside
  ready before step witness after whole := by
    have acting := clean.only_acts (whole ▸ List.mem_append_right _ List.mem_cons_self)
    exact clean.toWired.ready clean.unblocked clean.gone clean.all_shown whole acting shows
  holds e tree := by
    obtain ⟨path, lies⟩ := clean.exists_lies tree
    obtain ⟨st, stood, holds⟩ := clean.holds shows lies
    exact ⟨path, st, lies, stood, holds⟩
  one e e' path path' lies lies' := by
    constructor
    · rintro rfl
      exact lies.unique lies'
    · rintro rfl
      exact lies.injective clean.all_shown lies'
  top e path lies child := lies.top child
  nested d e path path' lies lies' child := lies'.nested lies child
  elsewhere path none_ := clean.elsewhere shows none_
  settled c' rows' again wired step witness inside acts := again.unsettled clean shows wired inside acts

/-! ### A folder that is called `A` here and `a` there -/

def pier (root name : Segment) : Entry := ⟨(stickRoot root).join name, .dir, none, none⟩

def inPier (dir : Entry) : Entry := ⟨dir.path.join ⟨[0x64], Segment.valid_d⟩, .dir, none, none⟩

def pierFile (dir : Entry) (letter : Segment) (size : UInt64) (mtime : Int) : Entry :=
  ⟨dir.path.join letter, .file, some size, some mtime⟩

def pierA : Entry := pier lowerName upperName

def pierB : Entry := pier upperName lowerName

def letterB : Segment := ⟨[0x62], Segment.valid_b⟩

def letterC : Segment := ⟨[0x63], Segment.valid_c⟩

def harbourLeft : List Entry := [pierA, pierFile pierA letterC 1 0, inPier pierA, pierFile (inPier pierA) letterC 1 0]

def harbourRight : List Entry := [pierB, pierFile pierB letterC 2 0, pierFile pierB letterB 1 0]

/-- The right after what was planned, with files as old as they were written. -/
def harbourAfter : List Entry := [pierB, pierFile pierB letterC 1 5000, inPier pierB, pierFile (inPier pierB) letterC 1 5000]

/-- On both sides a folder with `c` in it, of one size on the left and of another on the right. On the left
there is a folder in it with a file, and on the right a file `b`. -/
def harbour (dated : Bool) : Comparison where
  left := Compare.shelf harbourLeft
  leftRoot := stickRoot lowerName
  right := Compare.shelf harbourRight
  rightRoot := stickRoot upperName
  opts := ⟨⟨true, dated, false⟩, none, 2000, false, some .left⟩
  sides := ⟨.none, .simple⟩
  excluded := []
  names := stick.names
  sha256 := id

def harbourOptions (onUnknown : OnUnknown) (writable : Bool) : SyncOptions :=
  ⟨stickRoot lowerName, stickRoot upperName, .mirror, onUnknown, .left, true, true, writable⟩

def harbourAgain (dated : Bool) : Comparison :=
  { harbour dated with right := Compare.shelf harbourAfter }

def harbourRows (dated : Bool) : List CompareRow :=
  let c := harbour dated
  Compare.numbered c.names 0 (c.emits c.rootFrame ++
    (c.emits ⟨some pierA, some pierB, 1⟩ ++ c.emits ⟨some (inPier pierA), none, 2⟩))

def harbourAgainRows (dated : Bool) : List CompareRow :=
  let c := harbourAgain dated
  Compare.numbered c.names 0 (c.emits c.rootFrame ++
    (c.emits ⟨some pierA, some pierB, 1⟩ ++ c.emits ⟨some (inPier pierA), some (inPier pierB), 2⟩))

def harbourStandings (path : VPath) : Option Standing :=
  if path = stickRoot upperName then some (.own .dir)
  else (harbourRight.find? fun e => e.path = path).map (.own ·.kind)

variable {dated : Bool} {onUnknown : OnUnknown}

theorem harbour_wired {writable : Bool} : Wired (harbour dated) .left (harbourRows dated) (harbourOptions onUnknown writable) where
  trees s := by
    cases s
    · exact Compare.shelf_finite (by decide) _
    · exact Compare.shelf_finite (by decide) _
  streams := by
    apply streams_chain
    · cases dated <;> rfl
    · cases dated <;> rfl
    · cases dated <;> rfl
    · rfl
  side := rfl
  source := rfl
  dest := rfl

theorem harbourAgain_wired : Wired (harbourAgain dated) .left (harbourAgainRows dated) (harbourOptions onUnknown true) where
  trees s := by
    cases s
    · exact Compare.shelf_finite (by decide) _
    · exact Compare.shelf_finite (by decide) _
  streams := by
    apply streams_chain
    · cases dated <;> rfl
    · cases dated <;> rfl
    · cases dated <;> rfl
    · rfl
  side := rfl
  source := rfl
  dest := rfl

theorem harbour_clean : Clean (harbour dated) .left (harbourRows dated) (harbourOptions onUnknown true) where
  toWired := harbour_wired
  gone := rfl
  deep := rfl
  all := rfl
  writable := rfl
  outside := by cases onUnknown <;> decide
  readable := by cases dated <;> decide +kernel
  apart := by cases dated <;> decide +kernel
  kinds := by cases dated <;> cases onUnknown <;> decide +kernel
  certain := by cases dated <;> cases onUnknown <;> decide +kernel
  told := by cases dated <;> decide +kernel

section

variable {entries entries' : List Entry} {root : VPath} {d e x : Entry} {size : UInt64}

theorem shelf_top (inside : e ∈ entries) (child : Child root e.path) : InTree (Compare.shelf entries) root e :=
  .top rfl (List.mem_map_of_mem (List.mem_filter.mpr ⟨inside, Compare.isDirectChild_iff.mpr child⟩)) child

theorem shelf_deeper (tree : InTree (Compare.shelf entries) root d) (dir : d.kind = .dir) (inside : e ∈ entries)
    (child : Child d.path e.path) : InTree (Compare.shelf entries) root e :=
  .deeper tree dir rfl (List.mem_map_of_mem (List.mem_filter.mpr ⟨inside, Compare.isDirectChild_iff.mpr child⟩)) child

theorem shelf_stat (distinct : (entries.map (·.path)).Nodup) (inside : e ∈ entries) : (Compare.shelf entries).stat e.path = some e := by
  obtain ⟨e', found⟩ : ∃ e', entries.find? (fun e' => e'.path = e.path) = some e' :=
    Option.isSome_iff_exists.mp (List.find?_isSome.mpr ⟨e, inside, by simp⟩)
  have same : e'.path = e.path := by simpa using List.find?_some found
  obtain rfl := List.inj_on_of_nodup_map distinct (List.mem_of_find?_eq_some found) inside same
  exact found

/-- A provider that holds these entries shows them. -/
theorem shelf_shows (distinct : (entries.map (·.path)).Nodup) (placed : ∀ e ∈ entries, InTree (Compare.shelf entries) root e) :
    Shows (Compare.shelf entries) root fun path =>
      if path = root then some (.own .dir) else (entries.find? fun e => e.path = path).map (.own ·.kind) where
  top := if_pos rfl
  entry e tree := by
    have proper : e.path ≠ root := by
      intro same
      have longer := (below_root tree).2
      rw [same] at longer
      exact lt_irrefl _ longer
    have found : entries.find? (fun e' => e'.path = e.path) = some e := shelf_stat distinct (Compare.shelf_inTree tree)
    rw [if_neg proper, found]
    rfl
  only path _ proper there := by
    rw [if_neg proper] at there
    cases found : entries.find? fun e => e.path = path with
    | none =>
      rw [found] at there
      exact absurd rfl there
    | some e => exact ⟨e, placed e (List.mem_of_find?_eq_some found), by simpa using List.find?_some found⟩

theorem shelf_sized (distinct : (entries.map (·.path)).Nodup) (inside : e ∈ entries) (sized : Compare.Sized (Compare.shelf entries) e size) :
    e.size = some size := by
  rcases sized with own | ⟨statted, told, sized⟩
  · exact own
  · rw [shelf_stat distinct inside] at told
    obtain rfl := Option.some.inj told
    exact sized

theorem shelf_alike (distinct : (entries.map (·.path)).Nodup) (distinct' : (entries'.map (·.path)).Nodup) (inside : x ∈ entries)
    (inside' : e ∈ entries') (kind : x.kind = e.kind) (size : x.size = e.size) :
    Compare.Alike (Compare.shelf entries) (Compare.shelf entries') x e where
  kind := kind
  size a b sized sized' := by
    have first := shelf_sized distinct inside sized
    rw [size, shelf_sized distinct' inside' sized'] at first
    exact (Option.some.inj first).symm
  target _ _ read := by cases read
  content _ _ read := by cases read

end

theorem harbour_shows : Shows ((harbour dated).provider .right) ((harbour dated).root .right) harbourStandings := by
  apply shelf_shows (by decide)
  have folder : InTree (Compare.shelf harbourRight) (stickRoot upperName) pierB := shelf_top (by simp [harbourRight]) ⟨_, rfl⟩
  intro e inside
  simp only [harbourRight, List.mem_cons, List.not_mem_nil, or_false] at inside
  rcases inside with rfl | rfl | rfl
  · exact folder
  · exact shelf_deeper folder rfl (by simp [harbourRight]) ⟨_, rfl⟩
  · exact shelf_deeper folder rfl (by simp [harbourRight]) ⟨_, rfl⟩

theorem harbourAgain_inTree {e : Entry} (inside : e ∈ harbourAfter) :
    InTree ((harbourAgain dated).provider .right) ((harbour dated).root .right) e := by
  have folder : InTree (Compare.shelf harbourAfter) (stickRoot upperName) pierB := shelf_top (by simp [harbourAfter]) ⟨_, rfl⟩
  have deeper : InTree (Compare.shelf harbourAfter) (stickRoot upperName) (inPier pierB) :=
    shelf_deeper folder rfl (by simp [harbourAfter]) ⟨_, rfl⟩
  simp only [harbourAfter, List.mem_cons, List.not_mem_nil, or_false] at inside
  rcases inside with rfl | rfl | rfl | rfl
  · exact folder
  · exact shelf_deeper folder rfl (by simp [harbourAfter]) ⟨_, rfl⟩
  · exact deeper
  · exact shelf_deeper deeper rfl (by simp [harbourAfter]) ⟨_, rfl⟩

/-- What the plan makes of the right. -/
def harbourEdits : List (PutCut.Edit VPath Standing) :=
  [.cut (pierFile pierB letterB 1 0).path, .put (pierFile pierB letterC 1 5000).path (.leaf (pierFile pierA letterC 1 0).path),
    .put (inPier pierB).path (.dir (inPier pierA).path),
    .put (pierFile (inPier pierB) letterC 1 5000).path (.leaf (pierFile (inPier pierA) letterC 1 0).path)]

theorem harbour_edits : (fullPlan (harbourRows dated) (harbourOptions onUnknown true)).filterMap (harbourOptions onUnknown true).edit =
    harbourEdits := by
  cases dated <;> cases onUnknown <;> rfl

theorem harbourEdits_put {path : VPath} {standing : Standing} (put : .put path standing ∈ harbourEdits) :
    ∃ e ∈ harbourAfter, e.path = path := by
  simp only [harbourEdits, List.mem_cons, List.not_mem_nil, reduceCtorEq, PutCut.Edit.put.injEq, false_or, or_false] at put
  rcases put with ⟨rfl, -⟩ | ⟨rfl, -⟩ | ⟨rfl, -⟩
  · exact ⟨_, by simp [harbourAfter], rfl⟩
  · exact ⟨_, by simp [harbourAfter], rfl⟩
  · exact ⟨_, by simp [harbourAfter], rfl⟩

theorem harbour_again : Again (harbour dated) (harbourAgain dated) .left harbourStandings
    ((harbourOptions onUnknown true).applied (fullPlan (harbourRows dated) (harbourOptions onUnknown true)) harbourStandings) where
  opts := rfl
  names := rfl
  sides := rfl
  digest := rfl
  all := rfl
  source := rfl
  root s := by cases s <;> rfl
  folds _ _ := rfl
  stands e tree := by
    have written {y : Entry} (there : y ∈ harbourLeft) (inside : e ∈ harbourAfter) (kind : y.kind = e.kind) (size : y.size = e.size)
        (x : Entry) (tree : InTree ((harbour dated).provider .left) ((harbour dated).root .left) x) (at_ : x.path = y.path) :
        Compare.Alike ((harbour dated).provider .left) ((harbourAgain dated).provider .right) x e := by
      obtain rfl := List.inj_on_of_nodup_map (by decide) (Compare.shelf_inTree tree) there at_
      exact shelf_alike (by decide) (by decide) there inside kind size
    have inside := Compare.shelf_inTree tree
    have cases_ := inside
    simp only [harbourAfter, List.mem_cons, List.not_mem_nil, or_false] at cases_
    unfold SyncOptions.applied
    rw [harbour_edits]
    rcases cases_ with rfl | rfl | rfl | rfl
    · exact ⟨_, rfl, .own rfl (absurd rfl) (absurd rfl)⟩
    · exact ⟨_, rfl, .leaf (written (by simp [harbourLeft]) inside rfl rfl)⟩
    · exact ⟨_, rfl, .dir rfl⟩
    · exact ⟨_, rfl, .leaf (written (by simp [harbourLeft]) inside rfl rfl)⟩
  only path hangs proper there := by
    unfold SyncOptions.applied at there
    rw [harbour_edits] at there
    by_cases put : ∃ standing, .put path standing ∈ harbourEdits
    · obtain ⟨standing, put⟩ := put
      obtain ⟨e, inside, at_⟩ := harbourEdits_put put
      exact ⟨e, harbourAgain_inTree inside, at_⟩
    by_cases cut : HangsOff (pierFile pierB letterB 1 0).path path
    · exact absurd (PutCut.applyAll_cut (not_exists.mp put) List.mem_cons_self cut) there
    rw [PutCut.applyAll_other (not_exists.mp put) (by simpa [harbourEdits] using cut)] at there
    obtain ⟨e, tree, rfl⟩ := (@harbour_shows dated).only path hangs proper there
    have inside := Compare.shelf_inTree tree
    simp only [harbourRight, List.mem_cons, List.not_mem_nil, or_false] at inside
    rcases inside with rfl | rfl | rfl
    · exact ⟨_, harbourAgain_inTree List.mem_cons_self, rfl⟩
    · exact absurd ⟨_, .tail _ (.head _)⟩ put
    · exact absurd (.refl _) cut

theorem harbour_settled : ∀ row ∈ harbourAgainRows false, ¬Unsettled (harbourOptions .skip true) row := by
  simp only [Unsettled]
  decide +kernel

/-- The plan is applied, and nothing is left to do. -/
theorem sync_converges_harbour : Converges (harbour false) .left (harbourRows false) (harbourOptions .skip true) harbourStandings ∧
    ∀ item ∈ fullPlan (harbourAgainRows false) (harbourOptions .skip true), item.acts = false := by
  have converges := sync_converges (@harbour_clean false .skip) (@harbour_shows false)
  refine ⟨converges, fun item inside => ?_⟩
  cases item with
  | blocker => rfl
  | step step witness =>
    apply Bool.eq_false_iff.mpr
    intro acts
    obtain ⟨row, member, unsettled, -⟩ := converges.settled _ _ harbour_again harbourAgain_wired step witness inside acts
    exact harbour_settled row member unsettled

/-- Two clean trees whose plan was applied, and that are not done. -/
def ActsAgain (c : Comparison) (s : DescendSide) (rows : List CompareRow) (opts : SyncOptions) (t : Standings) : Prop :=
  Clean c s rows opts ∧ Shows (c.provider s.other) (c.root s.other) t ∧ ∃ c' rows',
    Again c c' s t (opts.applied (fullPlan rows opts) t) ∧ Wired c' s rows' opts ∧ ∃ item ∈ fullPlan rows' opts, item.acts = true

/-- With the left root itself excluded. -/
def harbourShut : Comparison := { harbour false with excluded := [stickRoot lowerName] }

theorem harbourShut_wired : Wired harbourShut .left [] (harbourOptions .skip true) where
  trees := (@harbour_wired false .skip true).trees
  streams := Comparison.streams_excluded rfl
  side := rfl
  source := rfl
  dest := rfl

/-- What cannot be told apart is written each time where that is asked for, and so is what is younger than what
it was written from. Nothing is written in a destination that takes no writes, nor what is excluded. -/
theorem harbour_diverges :
    ActsAgain (harbour false) .left (harbourRows false) (harbourOptions .copy true) harbourStandings ∧
    ActsAgain (harbour true) .left (harbourRows true) (harbourOptions .skip true) harbourStandings ∧
    (∃ blocker, .blocker blocker ∈ fullPlan (harbourRows false) (harbourOptions .skip false)) ∧
    Wired harbourShut .left [] (harbourOptions .skip true) ∧
      (harbourOptions .skip true).applied (fullPlan [] (harbourOptions .skip true)) harbourStandings (inPier pierB).path = none := by
  refine ⟨⟨harbour_clean, harbour_shows, harbourAgain false, harbourAgainRows false, harbour_again, harbourAgain_wired, ?_⟩,
    ⟨harbour_clean, harbour_shows, harbourAgain true, harbourAgainRows true, harbour_again, harbourAgain_wired, ?_⟩,
    ⟨_, List.mem_singleton_self _⟩, harbourShut_wired, rfl⟩
  · exact ⟨_, List.mem_cons_self, rfl⟩
  · exact ⟨_, List.mem_cons_self, rfl⟩

end Norte.Sync
