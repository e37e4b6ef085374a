import Norte.UndoTurn

/-! What `revert_entry` leaves in the journal: one row that takes the entry back when it is
done, and otherwise nothing. -/
namespace Norte.Turns

open Hashing Chain
open Sync (Behaviour Log Call Event Reverted ask)

theorem recorded_append (log added : Log) : recorded (log ++ added) = recorded log ++ recorded added :=
  List.filterMap_append

/-- Only the journal's answer to a row is recorded. -/
def Call.Quiet : Call → Prop
  | .record _ => False
  | _ => True

theorem recorded_quiet (b : Behaviour) (call : Call) (quiet : Call.Quiet call) (log : Log) :
    recorded (ask b call log).2 = recorded log := by
  rw [ask, recorded_append]
  cases call with
  | record entry => exact quiet.elim
  | _ => simp [recorded]

variable {b : Behaviour} {actor : Actor} {batch : Option Int} {path : VPath} {e : JournalEntry}

/-- A call of the undo that records nothing. -/
def Silent {α : Type} (act : Log → α × Log) : Prop := ∀ log, recorded (act log).2 = recorded log

theorem silent_isFree : Silent (Sync.isFree b path) := by
  intro log
  have asked := recorded_quiet b (.stat .dest path) trivial log
  unfold Sync.isFree
  split <;> simp_all

theorem silent_sameNode {other : VPath} : Silent (Sync.sameNode b path other) := by
  intro log
  have asked := recorded_quiet b (.nodeId path) trivial log
  unfold Sync.sameNode
  split
  next h => simp_all
  next id log' h =>
    have asked' := recorded_quiet b (.nodeId other) trivial log'
    split <;> simp_all

theorem silent_hasChildren : Silent (Sync.hasChildren b path) := by
  intro log
  have asked := recorded_quiet b (.list path) trivial log
  unfold Sync.hasChildren
  split <;> simp_all

theorem silent_isOurs : Silent (Sync.isOurs b path e) := by
  intro log
  have asked := recorded_quiet b (.nodeId path) trivial log
  unfold Sync.isOurs
  split
  · rfl
  · split <;> simp_all

theorem silent_isFilledDir {node : Sync.Entry} : Silent (Sync.isFilledDir b path node) := by
  intro log
  unfold Sync.isFilledDir
  split
  · apply silent_hasChildren
  · rfl

theorem silent_trashRetrying {id : Nat} : Silent (Sync.trashRetrying b path id) :=
  fun log => recorded_quiet b (.trash path id) trivial log

theorem silent_moveBack {origin : VPath} : Silent (Sync.moveBack b path origin) := by
  intro log
  have free := @silent_isFree b origin log
  unfold Sync.moveBack
  split
  next h => rw [h] at free; exact free
  next log' h =>
    rw [h] at free
    exact (recorded_quiet b (.rename path origin) trivial log').trans free
  next log' h =>
    rw [h] at free
    have same := @silent_sameNode b path origin log'
    split
    next h => rw [h] at same; exact same.trans free
    next h => rw [h] at same; exact same.trans free
    next log'' h =>
      rw [h] at same
      exact (recorded_quiet b (.detour path origin) trivial log'').trans (same.trans free)

theorem silent_unearth {there : Option VPath} : Silent (Sync.unearth b path there) := by
  intro log
  cases there with
  | none => exact recorded_quiet b (.restoreTrashed path) trivial log
  | some there => exact recorded_quiet b (.restoreFrom there path) trivial log

/-- An answer other than that the entry is taken back. -/
def Fruitless : Except Error Reverted → Prop
  | .ok .done | .ok .accounted | .ok (.stuck _ _) => False
  | _ => True

/-- The entry is taken back and one row says so, or nothing is recorded. -/
def Reports (e : JournalEntry) (before : Log) (result : Except Error Reverted × Log) : Prop :=
  (result.1 = .ok .done ∧ ∃ c seq, c.undoesSeq = some e.seq ∧
    recorded result.2 = recorded before ++ [(c, seq)]) ∨
  (Fruitless result.1 ∧ recorded result.2 = recorded before)

theorem Reports.after {before between : Log} (silent : recorded between = recorded before)
    {result : Except Error Reverted × Log} (reports : Reports e between result) : Reports e before result := by
  rw [Reports, silent] at reports
  exact reports

theorem Reports.nothing {before log : Log} {r : Except Error Reverted} (fruitless : Fruitless r)
    (silent : recorded log = recorded before) : Reports e before (r, log) := .inr ⟨fruitless, silent⟩

theorem reports_compensate {observed : Option Bytes} {log : Log} :
    Reports e log (Sync.compensate b actor batch e observed log) := by
  unfold Sync.compensate
  split
  · exact .nothing trivial rfl
  next c found =>
    split
    next err log' h =>
      obtain ⟨answer, rfl⟩ := Prod.mk.inj h
      refine .nothing trivial ?_
      simp [recorded, answer]
    next seq log' h =>
      obtain ⟨answer, rfl⟩ := Prod.mk.inj h
      refine .inl ⟨rfl, c, seq, compensation_undoes found, ?_⟩
      simp [recorded, answer]

theorem reports_buryCreated {log : Log} : Reports e log (Sync.buryCreated b actor batch path e log) := by
  have asked := recorded_quiet b .hasTrash trivial log
  unfold Sync.buryCreated
  split
  next h => rw [h] at asked; exact .nothing trivial asked
  next log' h =>
    rw [h] at asked
    have buried := @silent_trashRetrying b path e.seq.natAbs log'
    split
    next h => rw [h] at buried; exact .nothing trivial (buried.trans asked)
    next h => rw [h] at buried; exact .nothing trivial (buried.trans asked)
    next h => rw [h] at buried; exact reports_compensate.after (buried.trans asked)

theorem reports_revertCreated {log : Log} : Reports e log (Sync.revertCreated b actor batch path e log) := by
  have asked := recorded_quiet b (.stat .dest path) trivial log
  unfold Sync.revertCreated
  split
  next h => rw [h] at asked; exact .nothing trivial asked
  next node log' h =>
    rw [h] at asked
    have ours := (@silent_isOurs b path e log').trans asked
    split
    next h => rw [h] at ours; exact .nothing trivial ours
    next h => rw [h] at ours; exact .nothing trivial ours
    next log'' h =>
      rw [h] at ours
      have filled := (@silent_isFilledDir b path node log'').trans ours
      split
      next h => rw [h] at filled; exact .nothing trivial filled
      next h => rw [h] at filled; exact .nothing trivial filled
      next h => rw [h] at filled; exact reports_buryCreated.after filled

theorem reports_revertRenamed {log : Log} : Reports e log (Sync.revertRenamed b actor batch path e log) := by
  unfold Sync.revertRenamed
  split
  · exact .nothing trivial rfl
  · split
    · exact .nothing trivial rfl
    next origin _ =>
      have moved := @silent_moveBack b path origin log
      split
      next h => rw [h] at moved; exact .nothing trivial moved
      next h => rw [h] at moved; exact reports_compensate.after moved

theorem reports_revertMode {log : Log} : Reports e log (Sync.revertMode b actor batch path e log) := by
  unfold Sync.revertMode
  split
  · exact .nothing trivial rfl
  next previous _ =>
    split
    · exact .nothing trivial rfl
    · have asked := recorded_quiet b (.mode path) trivial log
      have set := (recorded_quiet b (.setMode path previous) trivial (ask b (.mode path) log).2).trans asked
      dsimp only
      split
      · exact .nothing trivial set
      · exact reports_compensate.after set

theorem reports_revertTrashed {log : Log} : Reports e log (Sync.revertTrashed b actor batch path e log) := by
  have free := @silent_isFree b path log
  unfold Sync.revertTrashed
  split
  next h => rw [h] at free; exact .nothing trivial free
  next h => rw [h] at free; exact .nothing trivial free
  next log' h =>
    rw [h] at free
    split
    · exact .nothing trivial free
    next there _ =>
      have back := (@silent_unearth b path there log').trans free
      split
      next h => rw [h] at back; exact .nothing trivial back
      next h => rw [h] at back; exact reports_compensate.after back

/-- The spec of `revert_entry`. -/
theorem reports_revertEntry {log : Log} : Reports e log (Sync.revertEntry b actor batch e log) := by
  unfold Sync.revertEntry
  split
  · exact .nothing trivial rfl
  split
  · exact .nothing trivial rfl
  split
  · exact reports_revertCreated
  split
  · exact reports_revertRenamed
  split
  · exact reports_revertMode
  split
  · exact reports_revertTrashed
  · exact .nothing trivial rfl

variable {sha256 : Bytes → Hash} {j j' : Journal}

/-- What it does to the journal. -/
theorem Reverts.cases {r : Except Error Reverted} (reverts : Reverts sha256 actor batch e j r j') :
    (r = .ok .done ∧ ∃ c seq tsMs, c.undoesSeq = some e.seq ∧
      recordEntry sha256 c tsMs true j = some (.ok seq, j')) ∨ (Fruitless r ∧ j' = j) := by
  obtain ⟨ran, writes⟩ := reverts
  rename_i b log
  have reports : Reports e [] (Sync.revertEntry b actor batch e []) := reports_revertEntry
  rw [ran] at reports
  rcases reports with ⟨rfl, c, seq, undoes, rows⟩ | ⟨fruitless, rows⟩
  · rw [show recorded log = [(c, seq)] from rows] at writes
    cases writes with
    | cons written rest =>
      cases rest
      exact .inl ⟨rfl, c, seq, _, undoes, written⟩
  · rw [show recorded log = [] from rows] at writes
    cases writes
    exact .inr ⟨fruitless, rfl⟩

end Norte.Turns
