import Norte.UndoOnce

/-! The books of an undo. Every entry of its selection is counted once or still open, and
no unit is taken up below one that could be neither finished nor skipped, as long as no
permissions batch hides what it could not take back behind an entry that it skipped. -/
namespace Norte.Turns

open Hashing Chain
open Sync (Reverted)

/-- Whether the unit taken up last could be neither finished nor skipped. -/
def Task.barred (t : Task) : Bool := (t.met.head?.map Prod.snd).getD false

/-- What holds of an undo at every moment. -/
structure Task.Sums (t : Task) : Prop where
  strict : t.Strict
  once : (t.tally.entries ++ t.left).Perm t.plan.flatten
  counts : t.report.Counts t.tally
  already : ∀ e ∈ t.tally.already, e.seq ∈ t.alreadyUndone
  stop : ∀ e ∈ t.doing.remains, ∃ p ∈ t.met.head?, e ∈ p.1

/-- What an undo knows of the unit it is at, when that has been marked or not. -/
def Doing.Marked (barred : Bool) : Doing → Prop
  | between | entry _ | renameBatch _ _ => barred = false
  | held _ => True
  | syncBatch _ _ _ kept blocked => barred = true ∨ kept ≠ [] → blocked.isSome
  | modeBatch _ _ _ others =>
    (barred = true → ∃ p ∈ others, isBlocked p.2) ∧ ∀ p ∈ others, Fruitless (.ok p.2)

structure Task.Runs (t : Task) : Prop extends t.Sums where
  unblocked : t.report.blocked = none
  marked : t.doing.Marked t.barred

structure Task.Over (t : Task) (ending : Except Error Unit) : Prop extends t.Sums where
  through : ending = .ok () → t.report.blocked = none → t.left = []

variable {t t' : Task}

/-- The same undo at the same unit: entries that are not open any more are counted. -/
structure Onward (t t' : Task) : Prop where
  plan : t'.plan = t.plan
  units : t'.units = t.units
  asked : t'.alreadyUndone = t.alreadyUndone
  met : t'.met.map Prod.fst = t.met.map Prod.fst
  earlier : t'.met.tail = t.met.tail
  already : t'.tally.already = t.tally.already
  open_ : t'.doing.remains ⊆ t.doing.remains
  once : (t'.tally.entries ++ t'.doing.remains).Perm (t.tally.entries ++ t.doing.remains)

theorem Onward.sums (onward : Onward t t') (sums : t.Sums) (counts : t'.report.Counts t'.tally) : t'.Sums where
  strict := by
    refine ⟨?_, by rw [onward.earlier]; exact sums.strict.2⟩
    rw [List.map_reverse, onward.met, ← List.map_reverse, onward.units, onward.plan]
    exact sums.strict.1
  once := by
    rw [Task.left, onward.units, onward.plan, ← List.append_assoc]
    apply (onward.once.append_right _).trans
    rw [List.append_assoc]
    exact sums.once
  counts := counts
  already := by
    rw [onward.already, onward.asked]
    exact sums.already
  stop e member := by
    obtain ⟨p, head, inside⟩ := sums.stop e (onward.open_ member)
    have same : t'.met.head?.map Prod.fst = some p.1 := by
      rw [← List.head?_map, onward.met, List.head?_map, Option.mem_def.mp head]
      rfl
    obtain ⟨q, head', own⟩ := Option.map_eq_some_iff.mp same
    exact ⟨q, head', own ▸ inside⟩

def UndoReport.counters (report : UndoReport) : Nat × Nat × Nat × Nat × Nat :=
  (report.undone, report.skippedIrreversible, report.skippedCreatedNoTrash, report.skippedNotOurs,
    report.deniedTotal)

/-- Whatever else is written into a report. -/
theorem UndoReport.Counts.copy {report report' : UndoReport} {tally : Tally} (counts : report.Counts tally)
    (same : report'.counters = report.counters) : report'.Counts tally := by
  simp only [UndoReport.counters, Prod.mk.injEq] at same
  obtain ⟨undone, irreversible, noTrash, notOurs, denied⟩ := same
  exact ⟨undone.trans counts.undone, irreversible.trans counts.skippedIrreversible,
    noTrash.trans counts.skippedCreatedNoTrash, notOurs.trans counts.skippedNotOurs,
    denied.trans counts.deniedTotal⟩

theorem mark_met (t : Task) : t.mark.met.map Prod.fst = t.met.map Prod.fst ∧ t.mark.met.tail = t.met.tail := by
  unfold Task.mark
  cases t.met <;> exact ⟨rfl, rfl⟩

theorem Task.Sums.mark (sums : t.Sums) : t.mark.Sums := by
  have onward : Onward t t.mark :=
    ⟨rfl, rfl, rfl, (mark_met t).1, (mark_met t).2, rfl, List.Subset.refl _, .refl _⟩
  exact onward.sums sums sums.counts

theorem Task.Sums.markIf (sums : t.Sums) (r : Reverted) : (t.markIf r).Sums := by
  unfold Task.markIf
  split
  · exact sums.mark
  · exact sums

theorem Task.Sums.block (sums : t.Sums) (seq : Int) (err : Error) : (t.block seq err).Sums :=
  Task.Sums.mark ⟨sums.strict, sums.once, sums.counts.copy rfl, sums.already, sums.stop⟩

/-- An undo that is blocked is over, wherever it was. -/
theorem Task.Sums.over_block (sums : t.Sums) (seq : Int) (err : Error) (ending : Except Error Unit) :
    (t.block seq err).Over ending := by
  refine ⟨sums.block seq err, fun _ none_ => ?_⟩
  cases none_

/-! Counting. -/

/-- Answers that a counter stands for. -/
def Counting : Reverted → Prop
  | .blocked _ _ | .accounted | .stuck _ _ => False
  | _ => True

theorem count_entries (tally : Tally) (counted : List JournalEntry) {r : Reverted} (counting : Counting r) :
    (tally.count counted r).entries.Perm (tally.entries ++ counted) ∧
      (tally.count counted r).already = tally.already := by
  cases r with
  | blocked _ _ => exact counting.elim
  | accounted => exact counting.elim
  | stuck _ _ => exact counting.elim
  | _ =>
    refine ⟨List.perm_iff_count.mpr fun e => ?_, rfl⟩
    simp only [Tally.count, Tally.entries, List.count_append]
    omega

/-! Units. -/

/-- What is left of a unit is what was not undone. -/
theorem validity_rest {unit rest : List JournalEntry} {already : List Int}
    (valid : (validity unit already).unit? = some rest) : rest = unit.filter fun e => e.seq ∉ already := by
  unfold validity at valid
  dsimp only at valid
  split_ifs at valid with none_
  · obtain rfl := Option.some.inj valid
    rw [List.length_eq_zero_iff, List.filter_eq_nil_iff] at none_
    exact (List.filter_eq_self.mpr fun e member => by simpa using none_ e member).symm
  · cases valid
  · exact (Option.some.inj valid).symm
  · cases valid

theorem validity_undone {unit : List JournalEntry} {already : List Int}
    (undone : validity unit already = .undone) : (unit.filter fun e => e.seq ∉ already) = [] := by
  unfold validity at undone
  dsimp only at undone
  split_ifs at undone with _ all
  rw [List.length_filter_eq_length_iff] at all
  exact List.filter_eq_nil_iff.mpr fun e member => by simpa using all e member

/-- A unit is taken up by an undo that has finished or skipped all units before it. -/
theorem Task.Sums.takeUp (sums : t.Sums) (idle : t.doing = .between) (clear : t.barred = false)
    {unit : List JournalEntry} {units : List (List JournalEntry)} (due : t.units = unit :: units) {doing : Doing}
    (remains : doing.remains.Perm (unit.filter fun e => e.seq ∉ t.alreadyUndone)) :
    (t.takeUp unit units doing).Sums where
  strict := by
    obtain ⟨order, finished⟩ := sums.strict
    refine ⟨?_, ?_⟩
    · rw [due] at order
      simpa [Task.takeUp] using order
    · intro p member
      have member : p ∈ t.met := member
      cases met : t.met with
      | nil =>
        rw [met] at member
        cases member
      | cons q rest =>
        rw [met] at member
        rw [Task.barred, met] at clear
        rcases List.mem_cons.mp member with rfl | early
        · exact clear
        · exact finished p (by rw [met]; exact early)
  once := by
    have once := sums.once
    rw [Task.left, idle, due] at once
    refine List.Perm.trans ?_ once
    have parts := List.filter_append_perm (fun e => e.seq ∈ t.alreadyUndone) unit
    rw [List.perm_iff_count] at parts remains ⊢
    intro e
    have parts := parts e
    have remains := remains e
    simp only [Task.takeUp, Task.left, Tally.entries, Doing.remains, List.count_append, List.flatten_cons,
      List.nil_append, decide_not] at parts remains ⊢
    omega
  counts := ⟨sums.counts.undone, sums.counts.skippedIrreversible, sums.counts.skippedCreatedNoTrash,
    sums.counts.skippedNotOurs, sums.counts.deniedTotal⟩
  already e member := by
    rcases List.mem_append.mp member with early | new
    · exact sums.already e early
    · exact of_decide_eq_true (List.mem_filter.mp new).2
  stop e member := ⟨_, rfl, (List.mem_filter.mp (remains.subset member)).1⟩

/-! Answers of units. -/

/-- Entries that stay open, and a report that counts nothing more. -/
theorem Task.Sums.shift (sums : t.Sums) {doing : Doing} (same : doing.remains.Perm t.doing.remains)
    {report : UndoReport} (counts : report.Counts t.tally) :
    Task.Sums { t with doing := doing, report := report } := by
  have onward : Onward t { t with doing := doing, report := report } :=
    ⟨rfl, rfl, rfl, rfl, rfl, rfl, same.subset, same.append_left _⟩
  exact onward.sums sums counts

/-- Entries that were open are counted. -/
theorem Task.Sums.count (sums : t.Sums) {doing : Doing} {counted : List JournalEntry} {r : Reverted}
    (counting : Counting r) (open_ : t.doing.remains.Perm (counted ++ doing.remains)) {report : UndoReport}
    (counts : report.Counts (t.tally.count counted r)) :
    Task.Sums { t with doing := doing, report := report, tally := t.tally.count counted r } := by
  obtain ⟨entries, already⟩ := count_entries t.tally counted counting
  have onward : Onward t { t with doing := doing, report := report, tally := t.tally.count counted r } := by
    refine ⟨rfl, rfl, rfl, rfl, rfl, already, ?_, ?_⟩
    · exact fun e member => open_.symm.subset (List.mem_append_right _ member)
    · apply (entries.append_right _).trans
      rw [List.append_assoc]
      exact open_.symm.append_left _
  exact onward.sums sums counts

/-- The report of one counter more. -/
theorem UndoReport.Counts.settle {counted : List JournalEntry} {r : Reverted} (counts : t.report.Counts t.tally)
    (counting : Counting r) (one : r ≠ .done → counted.length = 1) :
    (t.settle counted r).1.report.Counts (t.settle counted r).1.tally := by
  obtain ⟨undone, irreversible, noTrash, notOurs, denied⟩ := counts
  cases r with
  | blocked _ _ => exact counting.elim
  | accounted => exact counting.elim
  | stuck _ _ => exact counting.elim
  | done =>
    constructor
    all_goals simp_all [Task.settle, Tally.count]
  | _ =>
    have one := one (by simp)
    constructor
    all_goals simp_all [Task.settle, Tally.count]

/-- The undo after a unit that answered with something that counts: all that was open is
counted, and the next unit may be taken up. -/
theorem Task.Runs.settle (sums : t.Sums) (unblocked : t.report.blocked = none) (clear : t.barred = false)
    {counted : List JournalEntry} {r : Reverted} (counting : Counting r) (one : r ≠ .done → counted.length = 1)
    (all : t.doing.remains.Perm counted) : (t.settle counted r).1.Runs ∧ (t.settle counted r).2 = none := by
  have counts := sums.counts.settle counting one
  have kept : ∀ report : UndoReport, report.Counts (t.tally.count counted r) → report.blocked = none →
      Task.Runs { t with doing := .between, report := report, tally := t.tally.count counted r } := by
    intro report counts none_
    exact ⟨sums.count counting (by simpa [Doing.remains] using all) counts, none_, clear⟩
  cases r with
  | blocked _ _ => exact counting.elim
  | accounted => exact counting.elim
  | stuck _ _ => exact counting.elim
  | _ => exact ⟨kept _ counts unblocked, rfl⟩

/-! The steps. -/

/-- An undo that goes on, or is over. -/
structure Books (result : Task × Option (Except Error Unit)) : Prop where
  on : result.2 = none → result.1.Runs
  over_ : ∀ ending, result.2 = some ending → result.1.Over ending

theorem Task.Runs.books (runs : t.Runs) : Books (t, none) where
  on _ := runs
  over_ _ ended := by cases ended

theorem Task.Over.books {ending : Except Error Unit} (over_ : t.Over ending) : Books (t, some ending) where
  on on := by cases on
  over_ other ended := by
    cases ended
    exact over_

theorem Task.Sums.fails (sums : t.Sums) (err : Error) : Books (t, some (.error err)) :=
  Task.Over.books ⟨sums, fun went => by cases went⟩

theorem Task.Sums.settle_block (sums : t.Sums) (counted : List JournalEntry) {r : Reverted}
    (blocked : isBlocked r) : Books (t.settle counted r) := by
  cases r with
  | blocked seq err => exact (sums.over_block seq err _).books
  | _ => cases blocked

theorem Task.Sums.settle_counting (sums : t.Sums) (unblocked : t.report.blocked = none) (clear : t.barred = false)
    {counted : List JournalEntry} {r : Reverted} (counting : Counting r) (one : r ≠ .done → counted.length = 1)
    (all : t.doing.remains.Perm counted) : Books (t.settle counted r) := by
  obtain ⟨on, none_⟩ := Task.Runs.settle sums unblocked clear counting one all
  refine ⟨fun _ => on, fun _ ended => ?_⟩
  rw [none_] at ended
  cases ended

theorem Task.Sums.settle_accounted (sums : t.Sums) (unblocked : t.report.blocked = none) (clear : t.barred = false)
    (nothing : t.doing.remains = []) : Books (t.settle [] .accounted) := by
  have empty : (Doing.between).remains.Perm t.doing.remains := by
    rw [nothing]
    exact .refl _
  exact Task.Runs.books ⟨sums.shift empty sums.counts, unblocked, clear⟩

theorem counting_of_fruitless {r : Reverted} (fruitless : Fruitless (.ok r)) (unblocked : ¬isBlocked r) :
    Counting r ∧ r ≠ .done := by
  cases r with
  | blocked _ _ => exact absurd rfl unblocked
  | done => exact fruitless.elim
  | accounted => exact fruitless.elim
  | stuck _ _ => exact fruitless.elim
  | _ => exact ⟨trivial, by simp⟩

/-- A unit of one entry. -/
theorem Task.Runs.entry (runs : t.Runs) {e : JournalEntry} (own : t.doing = .entry e) {r : Reverted}
    (answer : r = .done ∨ Fruitless (.ok r)) : Books (t.settle [e] r) := by
  have clear : t.barred = false := by
    have marked := runs.marked
    rw [own] at marked
    exact marked
  have all : t.doing.remains.Perm [e] := by
    rw [own]
    exact .refl _
  have counted (counting : Counting r) : Books (t.settle [e] r) :=
    runs.toSums.settle_counting runs.unblocked clear counting (fun _ => rfl) all
  rcases answer with rfl | fruitless
  · exact counted trivial
  · by_cases blocked : isBlocked r
    · exact runs.toSums.settle_block _ blocked
    · exact counted (counting_of_fruitless fruitless blocked).1

/-- Naming a path counts nothing. -/
@[simp] theorem noteUnreverted_fields (report : Sync.UndoReport) (path : Bytes) :
    (report.noteUnreverted path).undone = report.undone ∧
    (report.noteUnreverted path).skippedIrreversible = report.skippedIrreversible ∧
    (report.noteUnreverted path).skippedCreatedNoTrash = report.skippedCreatedNoTrash ∧
    (report.noteUnreverted path).skippedNotOurs = report.skippedNotOurs := by
  unfold Sync.UndoReport.noteUnreverted
  split <;> exact ⟨rfl, rfl, rfl, rfl⟩

theorem counters_noteUnreverted (report : UndoReport) (path : Bytes) :
    UndoReport.counters { report with toUndoReport := report.noteUnreverted path } = report.counters := by
  simp [UndoReport.counters]

/-- An entry of a batch counts in the report as it does in the books. -/
theorem UndoReport.Counts.add {report : UndoReport} {tally : Tally} (counts : report.Counts tally)
    (e : JournalEntry) (blocked : Option (Int × Error)) {r : Reverted} (counting : Counting r) :
    UndoReport.Counts { report with toUndoReport := (report.toUndoReport.add e blocked r).1 } (tally.count [e] r) ∧
      (report.toUndoReport.add e blocked r).2 = blocked := by
  obtain ⟨undone, irreversible, noTrash, notOurs, denied⟩ := counts
  cases r with
  | blocked _ _ => exact counting.elim
  | accounted => exact counting.elim
  | stuck _ _ => exact counting.elim
  | _ =>
    refine ⟨?_, rfl⟩
    constructor
    all_goals simp_all [Sync.UndoReport.add, Tally.count]

section Sync

variable {batch : Int} {ambiguous : List Bytes} {e : JournalEntry} {rest kept : List JournalEntry}
  {blocked : Option (Int × Error)}

/-- An entry of a batch did not come back: it stays open, and the unit is marked. -/
theorem Task.Runs.keep (runs : t.Runs) (own : t.doing = .syncBatch batch ambiguous (e :: rest) kept blocked)
    {found : Option (Int × Error)} (named : found.isSome) {report : UndoReport}
    (same : report.counters = t.report.counters) (none_ : report.blocked = none) :
    Task.Runs (Task.mark { t with doing := .syncBatch batch ambiguous rest (kept ++ [e]) found, report := report }) := by
  have open_ : (Doing.syncBatch batch ambiguous rest (kept ++ [e]) found).remains.Perm t.doing.remains := by
    rw [own]
    simp [Doing.remains]
  have sums := runs.toSums.shift open_ (runs.toSums.counts.copy same)
  exact ⟨sums.mark, none_, fun _ => named⟩

theorem Task.Runs.syncEntry (runs : t.Runs)
    (own : t.doing = .syncBatch batch ambiguous (e :: rest) kept blocked) {r : Reverted}
    (answer : r = .done ∨ Fruitless (.ok r)) : Task.Runs (Task.markIf { t with
      doing := .syncBatch batch ambiguous rest (if isBlocked r then kept ++ [e] else kept)
        (t.report.add e blocked r).2
      report.toUndoReport := (t.report.add e blocked r).1
      tally := t.tally.count [e] r } r) := by
  by_cases isBlocked_ : isBlocked r
  · cases r with
    | blocked seq err =>
      refine runs.keep own ?_ (counters_noteUnreverted _ _) runs.unblocked
      cases blocked <;> rfl
    | _ => cases isBlocked_
  · have counting : Counting r := by
      rcases answer with rfl | fruitless
      · trivial
      · exact (counting_of_fruitless fruitless isBlocked_).1
    obtain ⟨counts, same⟩ := runs.toSums.counts.add e blocked counting
    have open_ : t.doing.remains.Perm ([e] ++ (Doing.syncBatch batch ambiguous rest kept blocked).remains) := by
      rw [own]
      exact List.perm_middle
    have marked := runs.marked
    rw [own] at marked
    rw [Task.markIf, if_neg isBlocked_, if_neg isBlocked_, same]
    exact ⟨runs.toSums.count counting open_ counts, runs.unblocked, marked⟩

theorem Task.Runs.syncEnd (runs : t.Runs) (own : t.doing = .syncBatch batch ambiguous [] kept blocked) :
    Books (t.settle [] (batchAnswer blocked)) := by
  cases blocked with
  | some found => exact runs.toSums.settle_block _ rfl
  | none =>
    have marked := runs.marked
    rw [own] at marked
    have clear : t.barred = false := by
      by_contra set
      exact absurd (marked (.inl (Bool.eq_true_of_not_eq_false set))) (by simp)
    have empty : kept = [] := by
      by_contra some_
      exact absurd (marked (.inr some_)) (by simp)
    exact runs.toSums.settle_accounted runs.unblocked clear (by rw [own, empty]; rfl)

end Sync

section Mode

variable {batch : Option Int} {e : JournalEntry} {rest done : List JournalEntry}
  {others : List (JournalEntry × Reverted)}

theorem Task.Runs.modeDone (runs : t.Runs) (own : t.doing = .modeBatch batch (e :: rest) done others) :
    Task.Runs { t with doing := .modeBatch batch rest (done ++ [e]) others } := by
  have marked := runs.marked
  rw [own] at marked
  have open_ : (Doing.modeBatch batch rest (done ++ [e]) others).remains.Perm t.doing.remains := by
    rw [own, List.perm_iff_count]
    intro x
    simp only [Doing.remains, List.count_append, List.count_cons, List.count_nil]
    omega
  exact ⟨runs.toSums.shift open_ runs.toSums.counts, runs.unblocked, marked⟩

theorem Task.Runs.modeOther (runs : t.Runs) (own : t.doing = .modeBatch batch (e :: rest) done others)
    {r : Reverted} (fruitless : Fruitless (.ok r)) : Task.Runs (Task.markIf { t with
      doing := .modeBatch batch rest done (others ++ [(e, r)])
      report.toUndoReport := t.report.noteUnreverted e.path } r) := by
  have marked := runs.marked
  rw [own] at marked
  have open_ : (Doing.modeBatch batch rest done (others ++ [(e, r)])).remains.Perm t.doing.remains := by
    rw [own, List.perm_iff_count]
    intro x
    simp only [Doing.remains, List.count_append, List.count_cons, List.count_nil, List.map_append, List.map_cons,
      List.map_nil]
    omega
  have sums := runs.toSums.shift open_ (runs.toSums.counts.copy (counters_noteUnreverted _ e.path))
  have answers : ∀ p ∈ others ++ [(e, r)], Fruitless (.ok p.2) := by
    intro p member
    rcases List.mem_append.mp member with early | last
    · exact marked.2 p early
    · rw [List.mem_singleton.mp last]
      exact fruitless
  refine ⟨sums.markIf r, ?_, ?_⟩
  · unfold Task.markIf
    split <;> exact runs.unblocked
  · rw [Task.markIf]
    split
    next blocked => exact ⟨fun _ => ⟨(e, r), by simp, blocked⟩, answers⟩
    next =>
      refine ⟨fun set => ?_, answers⟩
      obtain ⟨p, member, blocked⟩ := marked.1 set
      exact ⟨p, List.mem_append_left _ member, blocked⟩

/-- A permissions batch that hides nothing is over when it is blocked, and else has at most
one entry that it skipped. -/
theorem Task.Runs.modeEnd (runs : t.Runs) (clean : ¬t.doing.Masked)
    (own : t.doing = .modeBatch batch [] done others) : Books (Task.settle { t with
      doing := .modeBatch batch [] [] others
      report.undone := t.report.undone + done.length
      tally := t.tally.count done .done } (others.head?.map Prod.fst).toList
        ((others.head?.map Prod.snd).getD .accounted)) := by
  have marked := runs.marked
  rw [own] at marked clean
  have open_ : t.doing.remains.Perm (done ++ (Doing.modeBatch batch [] [] others).remains) := by
    rw [own]
    simp [Doing.remains]
  have counts : UndoReport.Counts { t.report with undone := t.report.undone + done.length }
      (t.tally.count done .done) := by
    obtain ⟨undone, irreversible, noTrash, notOurs, denied⟩ := runs.toSums.counts
    constructor
    all_goals simp_all [Tally.count]
  have sums := @Task.Sums.count t runs.toSums _ done .done trivial open_ _ counts
  cases others with
  | nil =>
    have clear : t.barred = false := by
      by_contra set
      obtain ⟨p, member, _⟩ := marked.1 (Bool.eq_true_of_not_eq_false set)
      cases member
    exact sums.settle_accounted runs.unblocked clear rfl
  | cons first others =>
    by_cases blocked : isBlocked first.2
    · exact sums.settle_block _ blocked
    · cases others with
      | cons second others => exact absurd (Bool.eq_false_of_not_eq_true blocked) clean
      | nil =>
        have clear : t.barred = false := by
          by_contra set
          obtain ⟨p, member, hit⟩ := marked.1 (Bool.eq_true_of_not_eq_false set)
          rw [List.mem_singleton.mp member] at hit
          exact blocked hit
        have counting := (counting_of_fruitless (marked.2 first List.mem_cons_self) blocked).1
        exact sums.settle_counting runs.unblocked clear counting (fun _ => rfl) (.refl _)

end Mode

/-- What the executor of a rename batch did is one answer for all of its entries, and
counts nothing yet. -/
theorem interpret_cases {outcome : Except Error Unit} {snapshot : Rename.BatchReport} {unit : List JournalEntry}
    {fallbackSeq : Int} {report report' : UndoReport} {r : Except Error Reverted}
    (told : interpret outcome snapshot unit fallbackSeq report = (r, report')) :
    report'.counters = report.counters ∧ report'.blocked = report.blocked ∧
      ∀ answer, r = .ok answer → answer = .done ∨ isBlocked answer ∨ ∃ seq err, answer = .stuck seq err := by
  unfold interpret at told
  dsimp only at told
  split at told
  · obtain ⟨rfl, rfl⟩ := Prod.mk.inj told
    refine ⟨rfl, rfl, fun answer same => ?_⟩
    obtain rfl := Except.ok.inj same
    exact .inr (.inr ⟨_, _, rfl⟩)
  split at told
  · obtain ⟨rfl, rfl⟩ := Prod.mk.inj told
    refine ⟨rfl, rfl, fun answer same => ?_⟩
    exact .inl (Except.ok.inj same).symm
  · obtain ⟨rfl, rfl⟩ := Prod.mk.inj told
    refine ⟨rfl, rfl, fun answer same => ?_⟩
    cases same
  · obtain ⟨rfl, rfl⟩ := Prod.mk.inj told
    refine ⟨rfl, rfl, fun answer same => ?_⟩
    obtain rfl := Except.ok.inj same
    exact .inr (.inl rfl)

theorem Task.Runs.renameEnd (runs : t.Runs) {unit : List JournalEntry} {b : Batch}
    (own : t.doing = .renameBatch unit b) {report : UndoReport} (same : report.counters = t.report.counters)
    (unblocked : report.blocked = t.report.blocked) {r : Reverted}
    (answer : r = .done ∨ isBlocked r ∨ ∃ seq err, r = .stuck seq err) :
    Books (Task.settle { t with report := report } unit r) := by
  have marked := runs.marked
  rw [own] at marked
  have sums : Task.Sums { t with report := report } :=
    runs.toSums.shift (.refl _) (runs.toSums.counts.copy same)
  rcases answer with rfl | blocked | ⟨seq, err, rfl⟩
  · have all : t.doing.remains.Perm unit := by
      rw [own]
      exact .refl _
    exact sums.settle_counting (r := .done) (unblocked.trans runs.unblocked) marked trivial
      (fun other => absurd rfl other) all
  · exact sums.settle_block _ blocked
  · exact (sums.over_block seq err _).books

/-- A denied unit is counted as such. -/
theorem Task.Sums.deny {unit rest : List JournalEntry} {units : List (List JournalEntry)}
    (taken : (t.takeUp unit units (.held rest)).Sums) (unblocked : t.report.blocked = none) (err : Error) :
    ((t.takeUp unit units .between).deny rest err).Runs := by
  have onward : Onward (t.takeUp unit units (.held rest)) ((t.takeUp unit units .between).deny rest err) := by
    refine ⟨rfl, rfl, rfl, rfl, rfl, rfl, List.nil_subset _, ?_⟩
    rw [List.perm_iff_count]
    intro e
    simp only [Task.takeUp, Task.deny, Tally.entries, Doing.remains, List.count_append, List.flatten_append,
      List.flatten_cons, List.flatten_nil, List.count_nil]
    omega
  have counts := taken.counts
  refine ⟨onward.sums taken ⟨counts.undone, counts.skippedIrreversible, counts.skippedCreatedNoTrash,
    counts.skippedNotOurs, ?_⟩, unblocked, rfl⟩
  have denied := counts.deniedTotal
  simp only [Task.takeUp, Task.deny, UndoReport.deny, List.length_append, List.length_singleton] at denied ⊢
  omega

theorem newestFirst_perm (unit : List JournalEntry) : (newestFirst unit).Perm unit :=
  List.perm_insertionSort _ unit

/-- A unit that is begun is open as a whole. -/
theorem Begins.open {actor : Actor} {unit : List JournalEntry} {first : JournalEntry} {j j' : Journal}
    {doing : Doing} (begins : Begins actor unit first j doing j') :
    doing.remains.Perm unit ∧ doing.Marked false := by
  cases begins with
  | sync _ _ _ => exact ⟨newestFirst_perm unit, by simp [Doing.Marked]⟩
  | mode _ _ _ => exact ⟨newestFirst_perm unit, by simp [Doing.Marked]⟩
  | modeLoose _ _ => exact ⟨newestFirst_perm unit, by simp [Doing.Marked]⟩
  | single shaped =>
    rw [shape_single shaped]
    exact ⟨.refl _, rfl⟩
  | rename _ _ _ _ => exact ⟨.refl _, rfl⟩

theorem answer_of_reverts {sha256 : Bytes → Hash} {actor : Actor} {batch : Option Int} {e : JournalEntry}
    {j j' : Journal} {r : Reverted} (reverts : Reverts sha256 actor batch e j (.ok r) j') :
    r = .done ∨ Fruitless (.ok r) := by
  rcases reverts.cases with ⟨done, _⟩ | ⟨fruitless, _⟩
  · exact .inl (Except.ok.inj done)
  · exact .inr fruitless

/-- Every step keeps the books, if no permissions batch hides what did not come back. -/
theorem Task.Step.books {sha256 : Bytes → Hash} {j j' : Journal} {result : Task × Option (Except Error Unit)}
    (runs : t.Runs) (clean : ¬t.doing.Masked) (step : Task.Step sha256 j t j' result) : Books result := by
  have sums := runs.toSums
  have idle_clear (idle : t.doing = .between) : t.barred = false := by
    have marked := runs.marked
    rw [idle] at marked
    exact marked
  cases step with
  | complete idle none_ =>
    refine Task.Over.books ⟨sums, fun _ _ => ?_⟩
    rw [Task.left, idle, none_]
    rfl
  | cancel | entryLost | syncCancel | modeCancel | modeLost => exact sums.fails _
  | @skip unit units idle due undone =>
    have nothing : (Doing.between).remains.Perm (unit.filter fun e => e.seq ∉ t.alreadyUndone) := by
      rw [validity_undone undone]
      exact .refl _
    exact Task.Runs.books ⟨sums.takeUp idle (idle_clear idle) due nothing, runs.unblocked, rfl⟩
  | stop idle due _ =>
    exact ((sums.takeUp idle (idle_clear idle) due (.refl _)).over_block _ _ _).books
  | @deny unit rest units err idle due valid =>
    have taken : (t.takeUp unit units (.held rest)).Sums :=
      sums.takeUp idle (idle_clear idle) due (by rw [← validity_rest valid]; exact .refl _)
    exact (taken.deny runs.unblocked err).books
  | @refuse unit rest units _ _ _ idle due valid _ _ =>
    have taken : (t.takeUp unit units (.held rest)).Sums :=
      sums.takeUp idle (idle_clear idle) due (by rw [← validity_rest valid]; exact .refl _)
    exact (taken.over_block _ _ _).books
  | begin idle due valid _ begins =>
    obtain ⟨open_, marked⟩ := begins.open
    have taken := sums.takeUp idle (idle_clear idle) due (open_.trans (by rw [← validity_rest valid]))
    exact Task.Runs.books ⟨taken, runs.unblocked, marked⟩
  | entry own reverts => exact runs.entry own (answer_of_reverts reverts)
  | @syncAmbiguous _ _ e _ _ blocked own _ =>
    have named : (blocked.or (some (e.seq, .unsupported))).isSome := by cases blocked <;> rfl
    refine Task.Runs.books (runs.keep own named ?_ ?_)
    · dsimp only
      split
      · exact counters_noteUnreverted _ _
      · rfl
    · exact runs.unblocked
  | syncEntry own _ reverts => exact (runs.syncEntry own (answer_of_reverts reverts)).books
  | syncLost own _ reverts =>
    apply Task.Sums.fails
    exact sums.shift (.refl _) (sums.counts.copy rfl)
  | syncEnd own => exact runs.syncEnd own
  | modeDone own reverts => exact (runs.modeDone own).books
  | modeOther own other reverts =>
    have fruitless := (answer_of_reverts reverts).resolve_left other
    exact (runs.modeOther own fruitless).books
  | modeEnd own => exact runs.modeEnd clean own
  | @renameMove unit b b' _ own moves =>
    have marked := runs.marked
    rw [own] at marked
    have moved : Task.Sums { t with doing := .renameBatch unit b' } := by
      refine sums.shift ?_ sums.counts
      rw [own]
      exact .refl _
    exact Task.Runs.books ⟨moved, runs.unblocked, marked⟩
  | renameEnd own _ told =>
    obtain ⟨same, unblocked, answer⟩ := interpret_cases told
    exact runs.renameEnd own same unblocked (answer _ rfl)
  | renameCancel own _ told =>
    obtain ⟨same, _, _⟩ := interpret_cases told
    exact (sums.shift (.refl _) (sums.counts.copy same)).fails _

end Norte.Turns
