import Norte.SyncPlanner

/-! What a row leaves in a plan, said once: the element it may leave, where the paths of a
step come from, and what it takes for a row to end the flow. -/
namespace Norte.Sync.Transducer

theorem eq_error_of_map {ε α β : Type} {f : α → β} {first : Except ε α} {e : ε}
    (failed : first.map f = .error e) : first = .error e := by
  cases first with
  | error other => exact congrArg _ (Except.error.inj failed)
  | ok a => cases failed

/-- Below `root`, and not the root itself. -/
def Strictly (root path : VPath) : Prop := ∃ rel, relUnder root path = .ok rel ∧ rel.isRoot = false

/-- What can be wrong with the paths of a row. -/
def Astray (t : Transducer) (dest : Option Entry) (sourceRel : Option RelPath) : Prop :=
  (∃ entry, dest = some entry ∧ ¬Strictly t.opts.destRoot entry.path) ∨
    ∃ rel, sourceRel = some rel ∧ rel.isRoot = true

/-- What the table of a row comes to. -/
inductive Emits (t : Transducer) (row : CompareRow) (source dest : Option Entry)
    (sourceRel : Option RelPath) : Absorbed → Prop
  | failed (e : SyncError) (astray : Astray t dest sourceRel) :
    Emits t row source dest sourceRel (.error e)
  | nothing : Emits t row source dest sourceRel t.nothing
  | blocker (rel : RelPath) {kind : SyncBlockerKind} (side : Option Side)
    (other : kind ≠ .overlapDetected) :
    Emits t row source dest sourceRel (t.pushBlocker rel kind side)
  | skipped (rel : RelPath) (destRel : Option RelPath) (size : Option UInt64) (why : SyncReason)
    (paired : Option Entry) :
    Emits t row source dest sourceRel (t.push row .skip rel destRel size (some why) paired)
  | orphan {entry : Entry} {rel : RelPath} {destRel : Option RelPath} {size : Option UInt64}
    (verdict : row.verdict = t.sourceOrphan) (there : source = some entry)
    (named : sourceRel = some rel) (proper : rel.isRoot = false)
    (spelt : t.destRelOf rel none = .ok destRel) :
    Emits t row source dest sourceRel
      (t.push row (if entry.kind = .dir then .createDir else .copy) rel destRel size none none)
  | paired {entry : Entry} {rel : RelPath} {destRel : Option RelPath} {size : Option UInt64}
    (verdict : row.verdict ≠ t.sourceOrphan ∧ row.verdict ≠ t.destOrphan)
    (sure : row.verdict ≠ .error ∧ row.verdict ≠ .ambiguous) (there : source = some entry) (named : sourceRel = some rel) (proper : rel.isRoot = false)
    (spelt : t.destRelOf rel dest = .ok destRel) :
    Emits t row source dest sourceRel (t.push row .overwrite rel destRel size none dest)
  | deleted {entry : Entry} {rel : RelPath} (verdict : row.verdict = t.destOrphan)
    (there : dest = some entry) (named : relUnder t.opts.destRoot entry.path = .ok rel)
    (proper : rel.isRoot = false) :
    Emits t row source dest sourceRel (t.push row .deleteTree rel none none none (some entry))

namespace Emits

variable {t : Transducer} {row : CompareRow} {source dest : Option Entry}
  {sourceRel : Option RelPath}

theorem bind {α : Type} (first : Except SyncError α) {rest : α → Absorbed}
    (astray : ∀ e, first = .error e → Astray t dest sourceRel)
    (emits : ∀ a, first = .ok a → Emits t row source dest sourceRel (rest a)) :
    Emits t row source dest sourceRel (first >>= rest) := by
  cases first with
  | error e => exact .failed e (astray e rfl)
  | ok a => exact emits a rfl

theorem astray_of_error {entry : Entry} {e : SyncError} (there : dest = some entry)
    (failed : relUnder t.opts.destRoot entry.path = .error e) : Astray t dest sourceRel := by
  refine .inl ⟨entry, there, ?_⟩
  rintro ⟨rel, named, -⟩
  rw [failed] at named
  cases named

theorem destRelOf_error {rel : RelPath} {e : SyncError} {paired : Option Entry}
    (which : paired = dest ∨ paired = none) (failed : t.destRelOf rel paired = .error e) :
    Astray t dest sourceRel := by
  unfold destRelOf at failed
  cases paired with
  | some entry =>
    have there : dest = some entry := by
      rcases which with same | none
      · exact same.symm
      · cases none
    exact astray_of_error there (eq_error_of_map failed)
  | none =>
    dsimp only at failed
    split at failed <;> cases failed

theorem sourceOrDestRel_error {e : SyncError} {named : Option RelPath}
    (failed : t.sourceOrDestRel named dest = .error e) : Astray t dest sourceRel := by
  unfold sourceOrDestRel at failed
  split at failed
  · cases failed
  · exact astray_of_error rfl (eq_error_of_map failed)
  · cases failed

theorem destOrSourceRel_error {e : SyncError} {named : Option RelPath}
    (failed : t.destOrSourceRel dest named = .error e) : Astray t dest sourceRel := by
  unfold destOrSourceRel at failed
  split at failed
  · exact astray_of_error rfl failed
  · cases failed

theorem pushSkip (named : Option RelPath) {paired : Option Entry} (why : SyncReason)
    (which : paired = dest ∨ paired = none) (witness : Option Entry) :
    Emits t row source dest sourceRel (t.pushSkip row named paired why witness) := by
  cases named with
  | none => exact nothing
  | some rel =>
    exact bind _ (fun _ failed => destRelOf_error which failed) fun _ _ => skipped _ _ _ _ _

theorem absorbError : Emits t row source dest sourceRel (t.absorbError row source dest sourceRel) := by
  unfold Transducer.absorbError
  split
  · exact bind _ (fun _ failed => destOrSourceRel_error failed) fun _ _ => blocker _ _ (by decide)
  · exact bind _ (fun _ failed => sourceOrDestRel_error failed) fun _ _ => pushSkip _ _ (.inl rfl) _

theorem absorbAmbiguous :
    Emits t row source dest sourceRel (t.absorbAmbiguous row source dest sourceRel) := by
  unfold Transducer.absorbAmbiguous
  split
  · exact bind _ (fun _ failed => destOrSourceRel_error failed) fun _ _ => blocker _ _ (by decide)
  · exact pushSkip _ _ (.inr rfl) _

theorem absorbDestOrphan (verdict : row.verdict = t.destOrphan) :
    Emits t row source dest sourceRel (t.absorbDestOrphan row dest) := by
  unfold Transducer.absorbDestOrphan
  cases dest with
  | none => exact nothing
  | some entry =>
    refine bind _ (fun _ failed => astray_of_error rfl failed) fun rel named => ?_
    cases proper : rel.isRoot with
    | true =>
      refine .failed _ (.inl ⟨entry, rfl, ?_⟩)
      rintro ⟨other, again, strict⟩
      obtain rfl := Except.ok.inj (named.symm.trans again)
      simp [proper] at strict
    | false => exact deleted verdict rfl named proper

/-- The step of a pair that is written over. -/
theorem overwrite (verdict : row.verdict ≠ t.sourceOrphan ∧ row.verdict ≠ t.destOrphan)
    (sure : row.verdict ≠ .error ∧ row.verdict ≠ .ambiguous) :
    Emits t row source dest sourceRel (t.pushStep row .overwrite source sourceRel none dest) := by
  unfold Transducer.pushStep
  split
  · rename_i entry rel
    cases proper : rel.isRoot with
    | true => exact .failed _ (.inr ⟨rel, rfl, proper⟩)
    | false =>
      exact bind _ (fun _ failed => destRelOf_error (.inl rfl) failed) fun destRel spelt =>
        paired verdict sure rfl rfl proper spelt
  · exact nothing

theorem absorbPair (verdict : row.verdict ≠ t.sourceOrphan ∧ row.verdict ≠ t.destOrphan)
    (sure : row.verdict ≠ .error ∧ row.verdict ≠ .ambiguous) :
    Emits t row source dest sourceRel (t.absorbPair row source dest sourceRel) := by
  unfold Transducer.absorbPair
  split
  · split
    · exact bind _ (fun _ failed => sourceOrDestRel_error failed) fun _ _ =>
        blocker _ _ (by decide)
    · exact overwrite verdict sure
  · exact overwrite verdict sure
  · split
    · exact nothing
    split
    · exact overwrite verdict sure
    · unfold Transducer.pushStep
      split
      · simp only [ne_eq, not_true_eq_false, and_false, if_false]
        exact bind _ (fun _ failed => destRelOf_error (.inl rfl) failed) fun _ _ => skipped _ _ _ _ _
      · exact nothing
  all_goals exact nothing

theorem orphanStep {entry : Entry} (verdict : row.verdict = t.sourceOrphan)
    (there : source = some entry) :
    Emits t row source dest sourceRel (t.pushStep row (if entry.kind = .dir then .createDir else .copy)
      source sourceRel none none) := by
  subst there
  unfold Transducer.pushStep
  split
  · rename_i other rel same
    obtain rfl := Option.some.inj same
    have acts : (if entry.kind = .dir then SyncStepKind.createDir else .copy) ≠ .skip := by
      split <;> decide
    cases proper : rel.isRoot with
    | true =>
      rw [if_pos ⟨rfl, acts⟩]
      exact .failed _ (.inr ⟨rel, rfl, proper⟩)
    | false =>
      rw [if_neg (by simp)]
      exact bind _ (fun _ failed => destRelOf_error (.inr rfl) failed) fun destRel spelt =>
        orphan verdict rfl rfl proper spelt
  · exact nothing

theorem absorbRow : Emits t row source dest sourceRel (t.absorbRow row source dest sourceRel) := by
  unfold Transducer.absorbRow
  split
  · exact absorbError
  rename_i noError
  split
  · exact absorbAmbiguous
  rename_i noTie
  split
  · exact bind _ (fun _ failed => sourceOrDestRel_error failed) fun _ _ => pushSkip _ _ (.inl rfl) _
  split
  · rename_i verdict
    split
    · exact nothing
    · exact orphanStep verdict rfl
  rename_i other
  split
  · rename_i verdict
    split
    · exact absorbDestOrphan verdict
    · exact nothing
  · rename_i otherSide
    exact absorbPair ⟨other, otherSide⟩ ⟨noError, noTie⟩

end Emits

/-- What is kept of a row for the next one: how a pair of directories is spelt. -/
inductive Remembers (t : Transducer) (sourceRel : Option RelPath) (source dest : Option Entry) :
    Transducer → Prop
  | spelt {s d : Entry} {rel destRel : RelPath} (sourceDir : source = some s ∧ s.kind = .dir)
    (destDir : dest = some d ∧ d.kind = .dir) (named : sourceRel = some rel)
    (destNamed : relUnder t.opts.destRoot d.path = .ok destRel) (differs : destRel ≠ rel) :
    Remembers t sourceRel source dest { t with spellings := (rel, destRel) :: t.spellings }
  | alike {s d : Entry} {rel : RelPath} (sourceDir : source = some s ∧ s.kind = .dir)
    (destDir : dest = some d ∧ d.kind = .dir) (named : sourceRel = some rel)
    (destNamed : relUnder t.opts.destRoot d.path = .ok rel) : Remembers t sourceRel source dest t
  | unpaired (alone : ¬(source.any (·.kind = .dir) ∧ dest.any (·.kind = .dir) ∧ sourceRel.isSome)) :
    Remembers t sourceRel source dest t

theorem remembered_spec {t t' : Transducer} {sourceRel : Option RelPath} {source dest : Option Entry}
    (remembers : t.remembered sourceRel source dest = .ok t') :
    Remembers t sourceRel source dest t' := by
  unfold remembered at remembers
  cases sourceRel with
  | none =>
    obtain rfl := Except.ok.inj remembers
    exact .unpaired (by simp)
  | some rel =>
    simp only [rememberSpelling] at remembers
    split at remembers
    · rename_i s d
      split at remembers
      · rename_i dirs
        cases destNamed : relUnder t.opts.destRoot d.path with
        | error e =>
          rw [destNamed] at remembers
          cases remembers
        | ok destRel =>
          rw [destNamed] at remembers
          obtain rfl := Except.ok.inj remembers
          dsimp only
          by_cases differs : destRel ≠ rel
          · rw [if_pos differs]
            exact .spelt ⟨rfl, dirs.1⟩ ⟨rfl, dirs.2⟩ rfl destNamed differs
          · obtain rfl := not_not.mp differs
            rw [if_neg differs]
            exact .alike ⟨rfl, dirs.1⟩ ⟨rfl, dirs.2⟩ rfl destNamed
      · rename_i dirs
        obtain rfl := Except.ok.inj remembers
        exact .unpaired (by simpa using dirs)
    · rename_i alone
      obtain rfl := Except.ok.inj remembers
      refine .unpaired fun dirs => ?_
      cases source with
      | none => simp at dirs
      | some s =>
        cases dest with
        | none => simp at dirs
        | some d => exact alone s d rfl rfl

theorem Remembers.keeps {t t' : Transducer} {sourceRel : Option RelPath} {source dest : Option Entry}
    (remembers : Remembers t sourceRel source dest t') :
    t'.opts = t.opts ∧ t'.overlap = t.overlap ∧ t'.nextId = t.nextId := by
  cases remembers <;> exact ⟨rfl, rfl, rfl⟩

/-- A row, by what the overlap makes of it. -/
inductive Absorbs (t : Transducer) (row : CompareRow) : Prop
  | pruned (prunes : t.overlapPrunes (t.source row) (t.dest row) = true)
    (absorbed : t.absorb row = t.nothing)
  | reached {blocker : SyncBlocker} {overlap : Overlap}
    (kept : t.overlapPrunes (t.source row) (t.dest row) = false)
    (reaches : t.overlapReached (t.source row) (t.dest row) = .ok (some (blocker, overlap)))
    (absorbed : t.absorb row = .ok ({ t with overlap := some overlap }, some (.blocker blocker)))
  | table {sourceRel : Option RelPath} {t' : Transducer}
    (kept : t.overlapPrunes (t.source row) (t.dest row) = false)
    (aside : t.overlapReached (t.source row) (t.dest row) = .ok none)
    (named : t.sourceRelOf (t.source row) = .ok sourceRel)
    (remembers : Remembers t sourceRel (t.source row) (t.dest row) t')
    (absorbed : t.absorb row = t'.absorbRow row (t.source row) (t.dest row) sourceRel)
  | failed (e : SyncError) (absorbed : t.absorb row = .error e)
    (astray : (∃ entry, t.source row = some entry ∧ relUnder t.opts.sourceRoot entry.path = .error e) ∨
      ∃ entry, t.dest row = some entry ∧ relUnder t.opts.destRoot entry.path = .error e)

theorem overlapReached_error {t : Transducer} {source dest : Option Entry} {e : SyncError}
    (failed : t.overlapReached source dest = .error e) :
    (∃ entry, source = some entry ∧ relUnder t.opts.sourceRoot entry.path = .error e) ∨
      ∃ entry, dest = some entry ∧ relUnder t.opts.destRoot entry.path = .error e := by
  unfold overlapReached at failed
  split at failed
  · cases failed
  split at failed
  · cases failed
  split at failed
  · rename_i entry found
    exact .inl ⟨entry, (Option.filter_eq_some_iff.mp found).1, eq_error_of_map failed⟩
  · split at failed
    · rename_i entry found
      exact .inr ⟨entry, (Option.filter_eq_some_iff.mp found).1, eq_error_of_map failed⟩
    · cases failed

theorem sourceRelOf_error {t : Transducer} {source : Option Entry} {e : SyncError}
    (failed : t.sourceRelOf source = .error e) :
    ∃ entry, source = some entry ∧ relUnder t.opts.sourceRoot entry.path = .error e := by
  unfold sourceRelOf at failed
  split at failed
  · rename_i entry
    exact ⟨entry, rfl, eq_error_of_map failed⟩
  · cases failed

theorem remembered_error {t : Transducer} {sourceRel : Option RelPath} {source dest : Option Entry}
    {e : SyncError} (failed : t.remembered sourceRel source dest = .error e) :
    ∃ entry, dest = some entry ∧ relUnder t.opts.destRoot entry.path = .error e := by
  unfold remembered at failed
  split at failed
  · unfold rememberSpelling at failed
    split at failed
    · rename_i d
      split at failed
      · exact ⟨d, rfl, eq_error_of_map failed⟩
      · cases failed
    · cases failed
  · cases failed

theorem absorbs (t : Transducer) (row : CompareRow) : Absorbs t row := by
  cases prunes : t.overlapPrunes (t.source row) (t.dest row) with
  | true => exact .pruned prunes (by rw [absorb]; simp [prunes])
  | false =>
    cases reaches : t.overlapReached (t.source row) (t.dest row) with
    | error e =>
      exact .failed e (by rw [absorb]; simp [prunes, reaches, bind, Except.bind])
        (overlapReached_error reaches)
    | ok reached =>
      cases reached with
      | some pair =>
        obtain ⟨blocker, overlap⟩ := pair
        exact .reached prunes reaches
          (by rw [absorb]; simp [prunes, reaches, bind, Except.bind, pure, Except.pure])
      | none =>
        cases named : t.sourceRelOf (t.source row) with
        | error e =>
          exact .failed e (by rw [absorb]; simp [prunes, reaches, named, bind, Except.bind])
            (.inl (sourceRelOf_error named))
        | ok sourceRel =>
          cases remembers : t.remembered sourceRel (t.source row) (t.dest row) with
          | error e =>
            exact .failed e
              (by rw [absorb]; simp [prunes, reaches, named, remembers, bind, Except.bind])
              (.inr (remembered_error remembers))
          | ok t' =>
            exact .table prunes reaches named (remembered_spec remembers)
              (by rw [absorb]; simp [prunes, reaches, named, remembers, bind, Except.bind])

/-- Only what is destroyed is witnessed. -/
def witnessOf (kind : SyncStepKind) (dest : Option Entry) : Option DestWitness :=
  match kind with
  | .overwrite | .deleteTree => dest.map DestWitness.of
  | .createDir | .copy | .skip | .unknown => none

/-- The element of a step that was packaged. -/
def Packaged (kind : SyncStepKind) (rel : RelPath) (destRel : Option RelPath) (dest : Option Entry)
    (i : PlanItem) : Prop :=
  ∃ step, i = .step step (witnessOf kind dest) ∧ step.kind = kind ∧ step.rel = rel ∧
    step.destRel = destRel

theorem push_packaged {t t' : Transducer} {row : CompareRow} {item : Option PlanItem}
    {kind : SyncStepKind} {rel : RelPath} {destRel : Option RelPath}
    {size : Option UInt64} {why : Option SyncReason} {dest : Option Entry}
    (pushed : t.push row kind rel destRel size why dest = .ok (t', item)) :
    t'.opts = t.opts ∧ t'.overlap = t.overlap ∧ t'.spellings = t.spellings ∧
      ∃ i, item = some i ∧ Packaged kind rel destRel dest i := by
  obtain ⟨rfl, rfl⟩ := Prod.mk.inj (Except.ok.inj pushed)
  exact ⟨rfl, rfl, rfl, _, rfl, _, rfl, rfl, rfl, rfl⟩

/-- Rows that are absorbed one after the other, and what they leave. -/
inductive Run : Transducer → List CompareRow → Transducer → List PlanItem → Prop
  | nil (t : Transducer) : Run t [] t []
  | cons {t t' t'' : Transducer} {row : CompareRow} {rows : List CompareRow} {item : Option PlanItem}
    {items : List PlanItem} (absorbed : t.absorb row = .ok (t', item)) (rest : Run t' rows t'' items) :
    Run t (row :: rows) t'' (item.toList ++ items)

namespace Run

variable {t t' : Transducer} {rows : List CompareRow} {items : List PlanItem}

theorem absorbAll (run : Run t rows t' items) (rest : List (Except CompareError CompareRow)) :
    t.absorbAll (rows.map .ok ++ rest) =
      (items ++ (t'.absorbAll rest).1, (t'.absorbAll rest).2) := by
  induction run with
  | nil => rfl
  | cons absorbed _ ih =>
    rw [List.map_cons, List.cons_append, absorbAll_cons, absorbed]
    simp only [ih, List.append_assoc]

/-- A flow that ends well has absorbed every row. -/
theorem of_absorbAll (ended : (t.absorbAll (rows.map .ok)).2 = .ok ()) :
    ∃ t', Run t rows t' (t.absorbAll (rows.map .ok)).1 := by
  induction rows generalizing t with
  | nil => exact ⟨t, .nil t⟩
  | cons row rows ih =>
    rw [List.map_cons, absorbAll_cons] at ended ⊢
    cases absorbed : t.absorb row with
    | error e =>
      rw [absorbed] at ended
      cases ended
    | ok result =>
      rw [absorbed] at ended
      obtain ⟨t', rest⟩ := ih ended
      exact ⟨t', .cons absorbed rest⟩

theorem split {before after : List CompareRow} (run : Run t (before ++ after) t' items) :
    ∃ mid first second, Run t before mid first ∧ Run mid after t' second ∧ items = first ++ second := by
  induction before generalizing t items with
  | nil => exact ⟨t, [], items, .nil t, run, rfl⟩
  | cons row before ih =>
    cases run with
    | cons absorbed rest =>
      obtain ⟨mid, first, second, ran, later, rfl⟩ := ih rest
      exact ⟨mid, _, second, .cons absorbed ran, later, (List.append_assoc ..).symm⟩

/-- What comes out was left by a run, also where the flow does not end well. -/
theorem before_end (t : Transducer) (rows : List CompareRow) :
    ∃ done rest t', rows = done ++ rest ∧ Run t done t' (t.absorbAll (rows.map .ok)).1 := by
  induction rows generalizing t with
  | nil => exact ⟨[], [], t, rfl, .nil t⟩
  | cons row rows ih =>
    rw [List.map_cons, absorbAll_cons]
    cases absorbed : t.absorb row with
    | error e => exact ⟨[], row :: rows, t, rfl, .nil t⟩
    | ok result =>
      obtain ⟨done, rest, t', rfl, run⟩ := ih result.1
      exact ⟨row :: done, rest, t', rfl, .cons absorbed run⟩

/-- The row an element comes from, and the runs before and after it. -/
theorem at_item {before after : List PlanItem} {i : PlanItem} (run : Run t rows t' (before ++ i :: after)) :
    ∃ first row last mid mid', rows = first ++ row :: last ∧ Run t first mid before ∧
      mid.absorb row = .ok (mid', some i) ∧ Run mid' last t' after := by
  generalize whole : before ++ i :: after = items at run
  induction run generalizing before with
  | nil => simp at whole
  | @cons t t' t'' row rows item items absorbed rest ih =>
    cases item with
    | none =>
      obtain ⟨first, row', last, mid, mid', rfl, ran, here, later⟩ := ih whole
      exact ⟨row :: first, row', last, mid, mid', rfl, .cons absorbed ran, here, later⟩
    | some j =>
      cases before with
      | nil =>
        obtain ⟨rfl, rfl⟩ := List.cons.inj whole
        exact ⟨[], row, rows, t, t', rfl, .nil t, absorbed, rest⟩
      | cons b before =>
        obtain ⟨rfl, others⟩ := List.cons.inj whole
        obtain ⟨first, row', last, mid, mid', rfl, ran, here, later⟩ := ih others
        exact ⟨row :: first, row', last, mid, mid', rfl, .cons absorbed ran, here, later⟩

end Run

end Norte.Sync.Transducer
