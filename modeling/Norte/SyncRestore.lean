import Mathlib.Data.List.Pairwise
import Mathlib.Data.Set.Finite.Basic
import Norte.SyncAccount
import Norte.SyncTree
import Norte.SyncUndo
import Norte.SyncPlanner

/-! The undo of an application gives the destination back. Every row of the batch stands for
one effect, and its reversal takes exactly that effect off the tree it left; newest first,
each reversal finds the tree as its effect left it. -/
namespace Norte.Sync

open Chain (Reversal NewEntry JournalEntry Actor wire pathBytes wire_pathBytes)

/-- An effect with its row. -/
inductive Op where
  | made (path : VPath) (node : Node) (seq : Int)
  | buried (path place : VPath) (seq : Int)

namespace Op

def path : Op → VPath
  | made path _ _ | buried path _ _ => path

def seq : Op → Int
  | made _ _ seq | buried _ _ seq => seq

def effect : Op → Mark
  | made path node _ => .made path node
  | buried path place _ => .buried path (some place)

variable (recorder : BatchJournal)

def entry : Op → NewEntry
  | made path _ _ => recorder.created path .delete
  | buried path place _ => recorder.trashed path (some place)

def marks (op : Op) : List Mark := [op.effect, .row (op.entry recorder) op.seq]

end Op

/-- The log of an application as a sequence of effects, each with its row behind it. -/
inductive Performs (b : Behaviour) (recorder : BatchJournal) : List Mark → List Op → List Mark → Prop
    where
  | nil (base : List Mark) : Performs b recorder base [] base
  | cons {base ops final} (op : Op)
      (pairs : b.Pairs base op.effect (.row (op.entry recorder) op.seq))
      (rest : Performs b recorder (base ++ op.marks recorder) ops final) :
      Performs b recorder base (op :: ops) final

section Performs

variable {b : Behaviour} {recorder : BatchJournal}

theorem Performs.append {base middle final : List Mark} {ops ops' : List Op}
    (left : Performs b recorder base ops middle) (right : Performs b recorder middle ops' final) :
    Performs b recorder base (ops ++ ops') final := by
  induction left with
  | nil => exact right
  | cons op pairs rest ih => exact .cons op pairs (ih right)

theorem Performs.final {base final : List Mark} {ops : List Op} (performs : Performs b recorder base ops final) :
    final = base ++ ops.flatMap (Op.marks recorder) := by
  induction performs with
  | nil base => simp
  | cons op pairs rest ih => simp [ih]

theorem Performs.single {base : List Mark} (op : Op)
    (pairs : b.Pairs base op.effect (.row (op.entry recorder) op.seq)) :
    Performs b recorder base [op] (base ++ op.marks recorder) :=
  .cons op pairs (.nil _)

/-- The trash of an honest destination names the place of what it buries. -/
theorem Honest.named {w : World} (honest : Honest b w) {base : List Mark} {path : VPath}
    {there : Option VPath} (buried : b.Marks base (.buried path there)) : ∃ place, there = some place := by
  obtain ⟨-, -, place, named, -⟩ := honest.allows base _ buried
  exact ⟨place, named⟩

/-- On an honest destination a step with a way back leaves effects with their rows. -/
theorem Leaves.performs {w : World} (honest : Honest b w) {slips hard : Prop} (reversible : ¬hard)
    {path : VPath} {base : List Mark} {ended : Except StepError Applied} {added : List Mark}
    (leaves : Leaves b recorder slips hard path base ended added) :
    Told ended ∧ ∃ ops, Performs b recorder base ops (base ++ added) ∧ ∀ op ∈ ops, op.path = path := by
  cases leaves with
  | nothing told => exact ⟨told, [], by simpa using Performs.nil base, nofun⟩
  | made told node seq pairs =>
    exact ⟨told, [.made path node seq], .single _ pairs, by simp [Op.path]⟩
  | madeUntold told slip cause => exact (cause.elim honest.sure honest.records).elim
  | buried told there seq pairs =>
    obtain ⟨place, rfl⟩ := honest.named pairs.effect
    exact ⟨told, [.buried path place seq], .single _ pairs, by simp [Op.path]⟩
  | buriedUntold told slip cause => exact absurd cause honest.sure
  | returned told cause => exact absurd cause honest.records
  | stranded cause => exact absurd cause honest.records
  | replaced told there node seq seq' first second =>
    obtain ⟨place, rfl⟩ := honest.named first.effect
    have before := @Performs.single _ recorder _ (.buried path place seq) first
    have after := @Performs.single _ recorder _ (.made path node seq') second
    refine ⟨told, [.buried path place seq, .made path node seq'], ?_, by simp [Op.path]⟩
    simpa [Op.marks, Op.effect, Op.entry, Op.seq] using before.append after
  | replacedLate told cause => exact absurd cause honest.sure
  | half cause => exact absurd cause honest.records
  | goneUntold told slip cause => exact absurd cause honest.sure
  | destroyed told final => exact absurd final reversible
  | lost final => exact absurd final reversible

theorem Ran.performs {w : World} (honest : Honest b w) {targets : SyncTargets}
    {steps : List (Except Error SpoolStep)} {report : SyncReport} {log : Log}
    {trace : List (SpoolStep × Log)} {last : Ended}
    (ran : Ran b targets recorder steps report log trace last)
    (reversible : ∀ record, .ok record ∈ steps → record.step.reversal ≠ some .irreversible) :
    ∃ ops, Performs b recorder (Sync.marks log) ops (Sync.marks last.log) ∧
      ∀ op ∈ ops, ∃ rel, op.path = under targets.destRoot rel := by
  induction ran with
  | stops passed split quiet ends => exact ⟨[], quiet ▸ .nil _, nofun⟩
  | @breaks record steps report report' log log₁ log₂ ended e quiet executed settled =>
    obtain ⟨added, after, leaves⟩ := @execute_left b targets recorder record log₁
    rw [executed] at after leaves
    obtain ⟨-, ops, performs, paths⟩ := leaves.performs honest (reversible record (List.mem_cons_self ..))
    rw [← after, quiet] at performs
    exact ⟨ops, performs, fun op member => ⟨_, paths op member⟩⟩
  | @goes record steps report report' log log₁ log₂ ended trace last quiet executed settled rest ih =>
    obtain ⟨added, after, leaves⟩ := @execute_left b targets recorder record log₁
    rw [executed] at after leaves
    obtain ⟨-, ops, performs, paths⟩ := leaves.performs honest (reversible record (List.mem_cons_self ..))
    rw [← after, quiet] at performs
    obtain ⟨more, performs', paths'⟩ := ih fun record member => reversible record (List.mem_cons_of_mem _ member)
    refine ⟨ops ++ more, performs.append performs', fun op member => ?_⟩
    exact (List.mem_append.mp member).elim (fun first => ⟨_, paths op first⟩) (paths' op)

end Performs

/-! The way back. -/

/-- A destination that does whatever can be done: it says what stands where, its trash
buries anything and gives anything back. -/
structure Willing (u : Behaviour) (w : World) : Prop extends Honest u w where
  stats : ∀ path log, match (w.replay (marks log)).tree path with
    | none => u (.stat .dest path) log = .error .notFound
    | some node => ∃ entry, u (.stat .dest path) log = .ok entry ∧ (entry.kind = .dir ↔ node = .dir)
  lists : ∀ path log, (w.replay (marks log)).tree path = some .dir →
    (∀ s, (w.replay (marks log)).tree (path.join s) = none) → u (.list path) log = .ok []
  hasTrash : ∀ log, u .hasTrash log = true
  buries : ∀ path id log, (w.replay (marks log)).tree path ≠ none →
    (w.replay (marks log)).tree.InDir path → ∃ place, u (.trash path id) log = .done (some place)
  restores : ∀ place path log, (w.replay (marks log)).Allows (.putBack place path) →
    u (.restoreFrom place path) log = .done ()
  allocates : ∀ log, ∃ id, u .allocBatch log = .ok id
  goesOn : ∀ log, u .isCancelled log = false

/-- The tree is that of `back`, and the trash still has what `back` had in it. -/
structure Matches (w : World) (ms : List Mark) (back : World) : Prop where
  tree : (w.replay ms).tree = back.tree
  trash : ∀ place payload, back.trash place = some payload → (w.replay ms).trash place = some payload

section Back

variable {u : Behaviour} {w : World} {actor : Actor} {batch : Option Int} {e : JournalEntry} {log : Log}

theorem ask_eq {call : Call} {answer : call.Answer} (is : u call log = answer) :
    ask u call log = (answer, log ++ [⟨call, answer⟩]) := by
  rw [ask, is]

theorem marks_push (log : Log) (event : Event) :
    marks (log ++ [event]) = marks log ++ event.mark?.toList := by
  rw [marks_append]
  cases h : event.mark? <;> simp [marks, h]

/-- An honest journal takes the compensation. -/
theorem Honest.compensates (honest : Honest u w) (observed : Option Bytes) {entry : NewEntry}
    (is : Chain.compensation e observed actor batch = some entry) :
    ∃ seq log', compensate u actor batch e observed log = (.ok .done, log') ∧
      marks log' = marks log ++ [.row entry seq] := by
  cases answer : u (.record entry) log with
  | error err => exact absurd ⟨entry, log, err, answer⟩ honest.records
  | ok seq =>
    refine ⟨seq, log ++ [⟨.record entry, .ok seq⟩], ?_, by simp [marks_push, Event.mark?]⟩
    simp only [compensate, is, ask_eq answer]

theorem Matches.row {ms : List Mark} {back : World} (matching : Matches w ms back) (entry : NewEntry) (seq : Int) :
    Matches w (ms ++ [.row entry seq]) back where
  tree := by simpa [World.apply] using matching.tree
  trash := by simpa [World.apply] using matching.trash

/-- The reversal of a creation takes off what was made. -/
theorem revertEntry_made (willing : Willing u w) {back : World} {path : VPath} {node : Node}
    (wf : back.tree.WellFormed) (allowed : back.Allows (.made path node))
    (matching : Matches w (marks log) (back.apply (.made path node)))
    (atPath : e.path = pathBytes path) (reversal : e.reversal = Reversal.delete.asStr)
    (noRef : e.reversalRef = none) :
    ∃ log', revertEntry u actor batch e log = (.ok .done, log') ∧ Matches w (marks log') back := by
  obtain ⟨free, parent⟩ := allowed
  have tree : (w.replay (marks log)).tree = back.tree.make path node := matching.tree
  have stands : (w.replay (marks log)).tree path = some node := by rw [tree]; simp [Tree.make]
  have stat := willing.stats path log
  rw [stands] at stat
  obtain ⟨entry, stat, kind⟩ := stat
  have quiet : marks (log ++ [⟨.stat .dest path, .ok entry⟩]) = marks log := by
    simp [marks_push, Event.mark?]
  obtain ⟨log₂, notFilled, quiet₂⟩ : ∃ log₂,
      isFilledDir u path entry (log ++ [⟨.stat .dest path, .ok entry⟩]) = (.ok false, log₂) ∧
      marks log₂ = marks log := by
    unfold isFilledDir
    split
    · rename_i isDir
      have listed := willing.lists path (log ++ [⟨.stat .dest path, .ok entry⟩])
        (by rw [quiet, stands, kind.mp isDir]) (by
          intro s
          rw [quiet, tree, Tree.make, if_neg (join_ne_self path s)]
          exact wf.empty_below free ⟨[s]⟩)
      refine ⟨log ++ [⟨.stat .dest path, .ok entry⟩] ++ [⟨.list path, .ok []⟩], ?_, ?_⟩
      · simp only [hasChildren, ask_eq listed]
      · rw [marks_push, quiet]
        simp [Event.mark?]
    · exact ⟨_, rfl, quiet⟩
  have quiet₃ : marks (log₂ ++ [⟨.hasTrash, true⟩]) = marks log := by
    rw [marks_push, quiet₂]
    simp [Event.mark?]
  obtain ⟨place, buried⟩ := willing.buries path e.seq.natAbs (log₂ ++ [⟨.hasTrash, true⟩])
    (by rw [quiet₃, stands]; exact Option.some_ne_none _) (by rw [quiet₃, tree]; exact parent.make node)
  have after : marks (log₂ ++ [⟨.hasTrash, true⟩] ++ [⟨.trash path e.seq.natAbs, .done (some place)⟩]) =
      marks log ++ [.buried path (some place)] := by
    rw [marks_push, quiet₃]
    rfl
  obtain ⟨-, -, _, same, fresh, -, -⟩ := willing.allows (marks log) (.buried path (some place))
    ⟨.trash path e.seq.natAbs, log₂ ++ [⟨.hasTrash, true⟩], quiet₃, by rw [buried]; rfl⟩
  obtain rfl := Option.some.inj same
  obtain ⟨seq, log₄, compensated, done⟩ := @Honest.compensates _ _ actor batch e
    (log₂ ++ [⟨.hasTrash, true⟩] ++ [⟨.trash path e.seq.natAbs, .done (some place)⟩]) willing.toHonest
    (some (pathBytes place)) _ (by simp only [Chain.compensation, reversal]; rfl)
  refine ⟨log₄, ?_, ?_⟩
  · have skip : e.reversal ≠ Reversal.irreversible.asStr := by rw [reversal]; decide
    simp only [revertEntry, atPath, wire_pathBytes, if_neg skip, if_pos reversal, revertCreated, ask_eq stat,
      isOurs, noRef, Option.bind_none, notFilled, buryCreated, ask_eq (willing.hasTrash log₂),
      trashRetrying, ask_eq buried, Outcome.plain, Outcome.answer, Except.mapError, Option.map_some,
      compensated]
  · rw [done, after]
    refine Matches.row ⟨?_, ?_⟩ _ _
    · simpa [World.apply, tree] using wf.cut_make free node
    · intro place' payload there
      have other : place' ≠ place := by
        rintro rfl
        cases fresh.symm.trans (matching.trash place' payload there)
      simpa [World.apply, Function.update_of_ne other] using matching.trash place' payload there

/-- The reversal of a burial puts back what was buried. -/
theorem revertEntry_buried (willing : Willing u w) {back : World} {path place : VPath}
    (allowed : back.Allows (.buried path (some place)))
    (matching : Matches w (marks log) (back.apply (.buried path (some place))))
    (atPath : e.path = pathBytes path) (reversal : e.reversal = Reversal.restoreTrash.asStr)
    (ref : e.reversalRef = some (pathBytes place)) :
    ∃ log', revertEntry u actor batch e log = (.ok .done, log') ∧ Matches w (marks log') back := by
  obtain ⟨there, parent, _, same, fresh, -, -⟩ := allowed
  obtain rfl := Option.some.inj same
  have tree : (w.replay (marks log)).tree = back.tree.cut path := matching.tree
  have gone : (w.replay (marks log)).tree path = none := by
    rw [tree, Tree.cut, show RelPath.under path path = some ⟨[]⟩ from relPath_under path ⟨[]⟩]
    rfl
  have kept : (w.replay (marks log)).trash place = some (back.tree.below path) :=
    matching.trash place _ (Function.update_self ..)
  have stat := willing.stats path log
  rw [gone] at stat
  dsimp only at stat
  have quiet : marks (log ++ [⟨.stat .dest path, .error .notFound⟩]) = marks log := by
    simp [marks_push, Event.mark?]
  have restored := willing.restores place path (log ++ [⟨.stat .dest path, .error .notFound⟩]) (by
    rw [quiet]
    exact ⟨by simp [kept], gone, tree ▸ parent.cut⟩)
  have after : marks (log ++ [⟨.stat .dest path, .error .notFound⟩] ++ [⟨.restoreFrom place path, .done ()⟩]) =
      marks log ++ [.putBack place path] := by
    rw [marks_push, quiet]
    rfl
  obtain ⟨seq, log₃, compensated, done⟩ := @Honest.compensates _ _ actor batch e
    (log ++ [⟨.stat .dest path, .error .notFound⟩] ++ [⟨.restoreFrom place path, .done ()⟩]) willing.toHonest
    none _ (by simp only [Chain.compensation, reversal]; rfl)
  refine ⟨log₃, ?_, ?_⟩
  · have skip (r : Reversal) (other : r.asStr ≠ Reversal.restoreTrash.asStr) : e.reversal ≠ r.asStr :=
      fun is => other (is.symm.trans reversal)
    simp only [revertEntry, atPath, wire_pathBytes, if_neg (skip .irreversible (by decide)),
      if_neg (skip .delete (by decide)), if_neg (skip .renameBack (by decide)),
      if_neg (skip .setModeBack (by decide)), if_pos reversal, revertTrashed, isFree, ask_eq stat, ref]
    simp only [Option.mapM_some, wire_pathBytes, unearth, ask_eq restored, Outcome.plain, Outcome.answer,
      Except.mapError, compensated, Functor.map, Except.map]
  · rw [done, after]
    refine Matches.row ⟨?_, ?_⟩ _ _
    · simp [World.apply, kept, tree, Tree.graft_cut]
    · intro place' payload was
      have other : place' ≠ place := by
        rintro rfl
        cases fresh.symm.trans was
      have still := matching.trash place' payload (by
        simpa [World.apply, Function.update_of_ne other] using was)
      simpa [World.apply, kept, Function.update_of_ne other] using still

end Back

/-! The batch. -/

/-- The entry under which the journal keeps a row. -/
def Stores (row : NewEntry × Int) (e : JournalEntry) : Prop :=
  ∃ tsMs hash, e = ⟨row.1.record tsMs row.2, hash⟩

def rows (ms : List Mark) : List (NewEntry × Int) := ms.filterMap fun
  | .row entry seq => some (entry, seq)
  | _ => none

/-- The entries of an application's rows, in whatever order they were listed. -/
def IsBatch (ms : List Mark) (unit : List JournalEntry) : Prop :=
  ∃ entries, List.Forall₂ Stores (rows ms) entries ∧ unit.Perm entries

def Op.row (recorder : BatchJournal) (op : Op) : NewEntry × Int := (op.entry recorder, op.seq)

theorem rows_ops (recorder : BatchJournal) (ops : List Op) :
    rows (ops.flatMap (Op.marks recorder)) = ops.map (Op.row recorder) := by
  induction ops with
  | nil => rfl
  | cons op ops ih =>
    rw [List.flatMap_cons, rows, List.filterMap_append, ← rows, ← rows, ih]
    cases op <;> rfl

section Unit

variable {b u : Behaviour} {w : World} {recorder : BatchJournal} {actor : Actor}

theorem apply_marks (w : World) (op : Op) : w.replay (op.marks recorder) = w.apply op.effect := by
  simp [Op.marks, World.apply]

theorem World.apply_wellFormed {back : World} {op : Op} (wf : back.tree.WellFormed)
    (allowed : back.Allows op.effect) : (back.apply op.effect).tree.WellFormed := by
  cases op with
  | made path node seq => exact wf.make allowed.1 allowed.2 node
  | buried path place seq => exact wf.cut path

/-- The reversal of an effect's entry takes off that effect. -/
theorem revertEntry_op (willing : Willing u w) {back : World} {op : Op} {e : JournalEntry} {log : Log}
    {batch : Option Int} (wf : back.tree.WellFormed) (allowed : back.Allows op.effect)
    (matching : Matches w (marks log) (back.apply op.effect)) (stored : Stores (op.row recorder) e) :
    ∃ log', revertEntry u actor batch e log = (.ok .done, log') ∧ Matches w (marks log') back := by
  obtain ⟨tsMs, hash, rfl⟩ := stored
  cases op with
  | made path node seq => exact revertEntry_made willing wf allowed matching rfl rfl rfl
  | buried path place seq => exact revertEntry_buried willing allowed matching rfl rfl rfl

/-- Newest first, every entry of a run is taken back, and the tree with them. -/
theorem revertAll_performs (honest : Honest b w) (willing : Willing u w) {base final : List Mark}
    {ops : List Op} (performs : Performs b recorder base ops final)
    (wf : (w.replay base).tree.WellFormed) {entries : List JournalEntry}
    (stored : List.Forall₂ Stores (ops.map (Op.row recorder)) entries) {log : Log}
    (matching : Matches w (marks log) (w.replay final)) (batch : Int) (rest : List JournalEntry)
    (report : UndoReport) :
    ∃ log', Matches w (marks log') (w.replay base) ∧
      revertAll u actor batch [] (entries.reverse ++ rest) none report log =
        revertAll u actor batch [] rest none
          { report with undone := report.undone + entries.length } log' := by
  induction performs generalizing entries rest with
  | nil base =>
    cases stored
    exact ⟨log, matching, rfl⟩
  | @cons base ops final op pairs performs ih =>
    cases stored with
    | @cons _ e _ entries first more =>
      have allowed := honest.allows base op.effect pairs.effect
      have next : w.replay (base ++ op.marks recorder) = (w.replay base).apply op.effect := by
        rw [World.replay_append, apply_marks]
      obtain ⟨log₁, matching₁, reverted⟩ := ih (by rw [next]; exact World.apply_wellFormed wf allowed)
        more matching (e :: rest)
      have quiet : marks (log₁ ++ [⟨.isCancelled, false⟩]) = marks log₁ := by
        simp [marks_push, Event.mark?]
      rw [next, ← quiet] at matching₁
      obtain ⟨log₂, done, matching₂⟩ := @revertEntry_op _ _ _ actor willing _ _ _ _ (some batch) wf
        allowed matching₁ first
      refine ⟨log₂, matching₂, ?_⟩
      rw [List.reverse_cons, List.append_assoc, List.singleton_append, reverted]
      conv_lhs => unfold revertAll
      simp only [isCancelled, ask_eq (willing.goesOn log₁), List.contains_nil, Bool.false_eq_true, if_false,
        done, UndoReport.add, List.length_cons]
      congr 2

theorem Performs.pairs {base final : List Mark} {ops : List Op}
    (performs : Performs b recorder base ops final) {op : Op} (member : op ∈ ops) :
    ∃ before, base <+: before ∧ b.Pairs before op.effect (.row (op.entry recorder) op.seq) := by
  induction performs with
  | nil => exact nomatch member
  | cons first pairs rest ih =>
    rcases List.mem_cons.mp member with rfl | later
    · exact ⟨_, List.prefix_rfl, pairs⟩
    · obtain ⟨before, longer, pairs'⟩ := ih later
      exact ⟨before, (List.prefix_append _ _).trans longer, pairs'⟩

/-- The rows of a run have growing numbers. -/
theorem Performs.ascends (honest : Honest b w) {base final : List Mark} {ops : List Op}
    (performs : Performs b recorder base ops final) : ops.Pairwise fun op op' => op.seq < op'.seq := by
  induction performs with
  | nil => exact .nil
  | @cons base ops final first pairs rest ih =>
    refine .cons (fun op later => ?_) ih
    obtain ⟨before, longer, pairs'⟩ := rest.pairs later
    refine honest.grows _ _ _ pairs'.row (first.entry recorder) first.seq ?_
    refine List.mem_append_left _ (longer.subset ?_)
    simp [Op.marks]

theorem onProvider_ok {origin : VPath} {seq : Int} {refs : List Bytes}
    (near : ∀ bytes ∈ refs, ∃ p : VPath, bytes = pathBytes p ∧ p.scheme = origin.scheme ∧
      p.authority = origin.authority) : onProvider origin seq refs = .ok () := by
  induction refs with
  | nil => rfl
  | cons bytes refs ih =>
    obtain ⟨p, rfl, scheme, authority⟩ := near _ (List.mem_cons_self ..)
    simp only [onProvider, wire_pathBytes, scheme, authority, ne_eq, not_true, or_self, if_false]
    exact ih fun bytes member => near bytes (List.mem_cons_of_mem _ member)

theorem allOnProvider_ok {origin : VPath} {unit : List JournalEntry}
    (near : ∀ e ∈ unit, ∀ bytes ∈ JournalEntry.refs e, ∃ p : VPath, bytes = pathBytes p ∧
      p.scheme = origin.scheme ∧ p.authority = origin.authority) :
    allOnProvider origin unit = .ok () := by
  induction unit with
  | nil => rfl
  | cons e unit ih =>
    rw [allOnProvider, onProvider_ok (near e (List.mem_cons_self ..))]
    exact ih fun e' member => near e' (List.mem_cons_of_mem _ member)

/-- Burials that name their place are never ambiguous. -/
theorem ambiguousRestores_named {unit : List JournalEntry}
    (named : ∀ e ∈ unit, e.reversal = Reversal.restoreTrash.asStr → e.reversalRef.isSome) :
    ambiguousRestores unit = [] := by
  have none : (unit.filter fun e =>
      e.reversal = Reversal.restoreTrash.asStr && e.reversalRef.isNone) = [] := by
    rw [List.filter_eq_nil_iff]
    intro e member both
    simp only [Bool.and_eq_true, decide_eq_true_eq] at both
    have some := named e member both.1
    rw [Option.isNone_iff_eq_none.mp both.2] at some
    exact nomatch some
  simp [ambiguousRestores, none]

/-- Sorted by falling numbers, a batch is its entries in reverse. -/
theorem sorted_reverse {unit entries : List JournalEntry} (perm : unit.Perm entries)
    (ascends : entries.Pairwise fun e e' => e.seq < e'.seq) :
    (unit.insertionSort fun e e' => e'.seq ≤ e.seq) = entries.reverse := by
  have total : Std.Total fun e e' : JournalEntry => e'.seq ≤ e.seq := ⟨fun e e' => le_total e'.seq e.seq⟩
  have trans : IsTrans JournalEntry fun e e' => e'.seq ≤ e.seq := ⟨fun _ _ _ first second => second.trans first⟩
  have falling : entries.reverse.Pairwise fun e e' => e'.seq ≤ e.seq :=
    List.pairwise_reverse.mpr (ascends.imp fun less => less.le)
  have distinct : ∀ e ∈ entries, ∀ e' ∈ entries, e.seq = e'.seq → e = e' := by
    intro e member e' member' same
    by_contra other
    have symm : Std.Symm fun e e' : JournalEntry => e.seq ≠ e'.seq := ⟨fun _ _ ne => ne.symm⟩
    have apart : entries.Pairwise fun e e' => e.seq ≠ e'.seq := ascends.imp fun less => less.ne
    exact apart.forall member member' other same
  refine List.Perm.eq_of_pairwise ?_ (List.pairwise_insertionSort _ _) falling
    (((List.perm_insertionSort _ _).trans perm).trans (List.reverse_perm _).symm)
  intro e e' member member' less more
  refine distinct e ?_ e' (List.mem_reverse.mp member') (le_antisymm more less)
  exact perm.subset ((List.perm_insertionSort _ _).subset member)

/-- What a stored entry of a run says of its effect. -/
theorem Stores.refs (honest : Honest b w) {before : List Mark} {op : Op} {e : JournalEntry}
    (stored : Stores (op.row recorder) e) (effect : b.Marks before op.effect) :
    ∀ bytes ∈ JournalEntry.refs e, ∃ p : VPath, bytes = pathBytes p ∧ p.scheme = op.path.scheme ∧
      p.authority = op.path.authority := by
  obtain ⟨tsMs, hash, rfl⟩ := stored
  intro bytes member
  cases op with
  | made path node seq =>
    change bytes ∈ pathBytes path ::
      (if Reversal.delete.asStr = Reversal.delete.asStr then none else none).toList at member
    rw [if_pos rfl] at member
    obtain rfl := List.mem_singleton.mp member
    exact ⟨path, rfl, rfl, rfl⟩
  | buried path place seq =>
    obtain ⟨-, -, _, same, -, scheme, authority⟩ := honest.allows before _ effect
    obtain rfl := Option.some.inj same
    change bytes ∈ pathBytes path :: (if Reversal.restoreTrash.asStr = Reversal.delete.asStr then none
      else some (pathBytes place)).toList at member
    rw [if_neg (by decide)] at member
    rcases List.mem_pair.mp member with rfl | rfl
    · exact ⟨path, rfl, rfl, rfl⟩
    · exact ⟨place, rfl, scheme, authority⟩

theorem stored_op {ops : List Op} {entries : List JournalEntry}
    (stored : List.Forall₂ Stores (ops.map (Op.row recorder)) entries) {e : JournalEntry} (member : e ∈ entries) :
    ∃ op ∈ ops, Stores (op.row recorder) e := by
  induction ops generalizing entries with
  | nil => cases stored; exact nomatch member
  | cons op ops ih =>
    cases stored with
    | cons first more =>
      rcases List.mem_cons.mp member with rfl | later
      · exact ⟨op, List.mem_cons_self .., first⟩
      · obtain ⟨op', inside, stores⟩ := ih more later
        exact ⟨op', List.mem_cons_of_mem _ inside, stores⟩

theorem stored_ascends {ops : List Op} {entries : List JournalEntry}
    (stored : List.Forall₂ Stores (ops.map (Op.row recorder)) entries)
    (ascends : ops.Pairwise fun op op' => op.seq < op'.seq) :
    entries.Pairwise fun e e' => e.seq < e'.seq := by
  induction ops generalizing entries with
  | nil => cases stored; exact .nil
  | cons op ops ih =>
    cases stored with
    | cons first more =>
      obtain ⟨later, ascends⟩ := List.pairwise_cons.mp ascends
      refine .cons (fun e member => ?_) (ih more ascends)
      obtain ⟨op', inside, _, _, rfl⟩ := stored_op more member
      obtain ⟨_, _, rfl⟩ := first
      exact later op' inside

/-- A plan for a destination whose trash gives back asks for nothing that cannot be undone. -/
theorem planned_reversible {rows : List (Except CompareError CompareRow)} {opts : SyncOptions}
    {steps : List (Except Error SpoolStep)} (trash : opts.destHasTrash = true) (restores : opts.destTrashRestorable = true)
    (planned : ∀ record, .ok record ∈ steps → ∃ dest, .step record.step dest ∈ (plan rows opts).1) :
    ∀ record, .ok record ∈ steps → record.step.reversal ≠ some .irreversible := by
  intro record member
  obtain ⟨dest, inside⟩ := planned record member
  exact plan_undoable rows opts _ inside trash restores

/-- An application on a destination whose trash names, buries and gives back is undone
without a block or a skip, and leaves the tree as it found it. -/
theorem undo_restores (targets : SyncTargets) (steps : List (Except Error SpoolStep))
    (wellFormed : w.tree.WellFormed) (honest : Honest b w) (willing : Willing u w)
    (reversible : ∀ record, .ok record ∈ steps → record.step.reversal ≠ some .irreversible)
    (unit : List JournalEntry)
    (batch : IsBatch (marks (run b targets recorder steps []).log) unit) :
    ∃ undone log, revertSyncBatch u actor unit .new (run b targets recorder steps []).log =
        (.ok .accounted, { UndoReport.new with undone := undone }, log) ∧
      (w.replay (marks log)).tree = w.tree := by
  obtain ⟨trace, ran⟩ := @run_ran b targets recorder steps []
  obtain ⟨ops, performs, paths⟩ := ran.performs honest reversible
  obtain ⟨entries, stored, perm⟩ := batch
  have final := performs.final
  rw [marks_nil, List.nil_append] at final
  rw [final, rows_ops] at stored
  generalize (run b targets recorder steps []).log = log at *
  cases unit with
  | nil =>
    obtain rfl := List.nil_perm.mp perm
    cases ops with
    | nil => exact ⟨0, log, rfl, by rw [final]; rfl⟩
    | cons op ops => exact nomatch stored
  | cons first unit =>
    have known (e : JournalEntry) (member : e ∈ first :: unit) : ∃ op ∈ ops, Stores (op.row recorder) e :=
      stored_op stored (perm.subset member)
    have near (e : JournalEntry) (member : e ∈ first :: unit) : ∀ bytes ∈ JournalEntry.refs e,
        ∃ p : VPath, bytes = pathBytes p ∧ p.scheme = targets.destRoot.scheme ∧
          p.authority = targets.destRoot.authority := by
      obtain ⟨op, inside, stores⟩ := known e member
      obtain ⟨before, -, pairs⟩ := performs.pairs inside
      obtain ⟨rel, atPath⟩ := paths op inside
      intro bytes ref
      obtain ⟨p, is, scheme, authority⟩ := stores.refs honest pairs.effect bytes ref
      rw [atPath, under_eq] at scheme authority
      exact ⟨p, is, scheme, authority⟩
    obtain ⟨origin, firstPath, scheme, authority⟩ := near first (List.mem_cons_self ..) first.path
      (List.mem_cons_self ..)
    have provider : oneProvider (first :: unit) first = .ok () := by
      rw [oneProvider, firstPath, wire_pathBytes]
      refine allOnProvider_ok fun e member bytes ref => ?_
      obtain ⟨p, is, scheme', authority'⟩ := near e member bytes ref
      exact ⟨p, is, scheme'.trans scheme.symm, authority'.trans authority.symm⟩
    have certain : ambiguousRestores (first :: unit) = [] := by
      refine ambiguousRestores_named fun e member reversal => ?_
      obtain ⟨op, -, _, _, rfl⟩ := known e member
      cases op with
      | made path node seq =>
        exact absurd (show Reversal.delete.asStr = Reversal.restoreTrash.asStr from reversal) (by decide)
      | buried path place seq => rfl
    obtain ⟨id, allocated⟩ := willing.allocates log
    have quiet : marks (log ++ [⟨.allocBatch, .ok id⟩]) = marks log := by simp [marks_push, Event.mark?]
    have matching : Matches w (marks (log ++ [⟨.allocBatch, .ok id⟩])) (w.replay (marks log)) := by
      rw [quiet]
      exact ⟨rfl, fun _ _ => fun there => there⟩
    obtain ⟨log', back, reverted⟩ := @revertAll_performs _ _ _ _ actor honest willing _ _ _ performs wellFormed
      _ stored _ matching id [] .new
    refine ⟨entries.length, log', ?_, back.tree⟩
    rw [revertSyncBatch, provider]
    dsimp only
    rw [ask_eq allocated]
    dsimp only
    rw [certain, sorted_reverse perm (stored_ascends stored (performs.ascends honest)),
      ← List.append_nil entries.reverse, reverted]
    simp [revertAll, UndoReport.new]

end Unit

/-! Such destinations exist: the ideal one over any tree whose trash is finite. -/

section Ideal

open Classical in
/-- Does whatever can be done, and finds any source a file. -/
noncomputable def ideal (w : World) : Behaviour
  | .isCancelled, _ | .checkDue, _ => false
  | .hasTrash, _ => true
  | .openRoot, _ | .stillStanding, _ => .ok ()
  | .evaluate _ _, _ => .allow
  | .stat .source path, _ => .ok ⟨path, .file, none, none⟩
  | .stat .dest path, log =>
    match (w.replay (marks log)).tree path with
    | none => .error .notFound
    | some .dir => .ok ⟨path, .dir, none, none⟩
    | some _ => .ok ⟨path, .file, none, none⟩
  | .list path, log =>
    .ok (if ∀ s, (w.replay (marks log)).tree (path.join s) = none then [] else [.ok ()])
  | .walk _, _ | .readLink _, _ | .nodeId _, _ => .error .notFound
  | .bytesDone, _ => 0
  | .mode _, _ => none
  | .allocBatch, _ => .ok 1
  | .mkdir path, log =>
    if (w.replay (marks log)).Allows (.made path .dir) then .done () else .failed .notFound .notApplied
  | .symlink path target, log =>
    if (w.replay (marks log)).Allows (.made path (.symlink target)) then .done ()
    else .failed .notFound .notApplied
  | .copyFile _ path _, log =>
    if (w.replay (marks log)).Allows (.made path (.file [])) then .done []
    else .failed .notFound .notApplied
  | .trash path _, log =>
    if there : ∃ place, (w.replay (marks log)).Allows (.buried path (some place)) then
      .done (some there.choose)
    else .failed .notFound .notApplied
  | .restoreFrom place path, log =>
    if (w.replay (marks log)).Allows (.putBack place path) then .done () else .failed .notFound .notApplied
  | .remove _ _, _ | .restoreTrashed _, _ | .rename _ _, _ | .detour _ _, _ | .setMode _ _, _ =>
    .failed .notFound .notApplied
  | .record _, log => .ok (((rows (marks log)).map Prod.snd).foldl max 0 + 1)

def World.FiniteTrash (w : World) : Prop := {place | w.trash place ≠ none}.Finite

theorem World.FiniteTrash.update {trash : VPath → Option (RelPath → Option Node)} {tree tree' : Tree}
    (finite : (World.mk tree trash).FiniteTrash) (place : VPath) (payload : Option (RelPath → Option Node)) :
    (World.mk tree' (Function.update trash place payload)).FiniteTrash := by
  refine (finite.insert place).subset fun q there => ?_
  by_cases same : q = place
  · exact .inl same
  · exact .inr (by simpa [Function.update_of_ne same] using there)

theorem World.FiniteTrash.apply {w : World} (finite : w.FiniteTrash) (m : Mark) : (w.apply m).FiniteTrash := by
  cases m with
  | made | removed | row => exact finite
  | buried path there =>
    cases there with
    | none => exact finite
    | some place => exact finite.update place _
  | putBack there path =>
    unfold World.apply
    dsimp only
    split
    · exact finite.update there _
    · exact finite

theorem World.FiniteTrash.replay {w : World} (finite : w.FiniteTrash) (ms : List Mark) :
    (w.replay ms).FiniteTrash := by
  induction ms generalizing w with
  | nil => exact finite
  | cons m ms ih => exact ih (finite.apply m)

/-- There is always room for one more. -/
theorem World.FiniteTrash.fresh {w : World} (finite : w.FiniteTrash) (path : VPath) :
    ∃ place, w.trash place = none ∧ place.scheme = path.scheme ∧ place.authority = path.authority := by
  by_contra full
  have all (n : Nat) : (⟨path.scheme, path.authority, List.replicate n newName⟩ : VPath) ∈
      {place | w.trash place ≠ none} :=
    fun none => full ⟨_, none, rfl, rfl⟩
  have injective : Function.Injective fun n =>
      (⟨path.scheme, path.authority, List.replicate n newName⟩ : VPath) := by
    intro m n same
    simpa using congrArg (fun p => p.segments.length) same
  exact Set.infinite_range_of_injective injective (finite.subset (Set.range_subset_iff.mpr all))

theorem le_foldl_max (ns : List Int) (least : Int) : least ≤ ns.foldl max least ∧
    ∀ n ∈ ns, n ≤ ns.foldl max least := by
  induction ns generalizing least with
  | nil => simp
  | cons n ns ih =>
    obtain ⟨first, rest⟩ := ih (max least n)
    refine ⟨(le_max_left ..).trans first, fun m member => ?_⟩
    rcases List.mem_cons.mp member with rfl | later
    · exact (le_max_right ..).trans first
    · exact rest m later

/-- What the ideal destination leaves behind could be done. -/
theorem ideal_allows {w : World} {call : Call} {log : Log} {m : Mark}
    (left : Event.mark? ⟨call, ideal w call log⟩ = some m) : (w.replay (marks log)).Allows m := by
  cases call with
  | mkdir path =>
    by_cases can : (w.replay (marks log)).Allows (.made path .dir)
    · obtain rfl : Mark.made path .dir = m := by simpa [ideal, can, Event.mark?, Outcome.effect?] using left
      exact can
    · simp [ideal, can, Event.mark?, Outcome.effect?] at left
  | symlink path target =>
    by_cases can : (w.replay (marks log)).Allows (.made path (.symlink target))
    · obtain rfl : Mark.made path (.symlink target) = m := by
        simpa [ideal, can, Event.mark?, Outcome.effect?] using left
      exact can
    · simp [ideal, can, Event.mark?, Outcome.effect?] at left
  | copyFile source path size =>
    by_cases can : (w.replay (marks log)).Allows (.made path (.file []))
    · obtain rfl : Mark.made path (.file []) = m := by
        simpa [ideal, can, Event.mark?, Outcome.effect?] using left
      exact can
    · simp [ideal, can, Event.mark?, Outcome.effect?] at left
  | trash path id =>
    by_cases can : ∃ place, (w.replay (marks log)).Allows (.buried path (some place))
    · obtain rfl : Mark.buried path (some can.choose) = m := by
        simpa [ideal, can, Event.mark?, Outcome.effect?] using left
      exact can.choose_spec
    · simp [ideal, can, Event.mark?, Outcome.effect?] at left
  | restoreFrom place path =>
    by_cases can : (w.replay (marks log)).Allows (.putBack place path)
    · obtain rfl : Mark.putBack place path = m := by
        simpa [ideal, can, Event.mark?, Outcome.effect?] using left
      exact can
    · simp [ideal, can, Event.mark?, Outcome.effect?] at left
  | record entry =>
    obtain rfl : Mark.row entry _ = m := by simpa [ideal, Event.mark?] using left
    exact trivial
  | _ => cases left

theorem ideal_sure (w : World) : ¬(ideal w).Late := by
  rintro ⟨call, log, late⟩
  cases call with
  | mkdir | symlink | copyFile | restoreFrom | trash =>
    unfold ideal Event.late at late
    dsimp only at late
    split at late <;> exact nomatch late
  | _ => exact nomatch late

theorem ideal_honest (w : World) : Honest (ideal w) w where
  allows := by
    rintro before m ⟨call, log, rfl, left⟩
    exact ideal_allows left
  sure := ideal_sure w
  records := by
    rintro ⟨entry, log, e, refused⟩
    exact nomatch refused
  grows := by
    rintro before entry seq ⟨call, log, rfl, left⟩ entry' seq' earlier
    obtain ⟨rfl, rfl⟩ : call = .record entry ∧ ((rows (marks log)).map Prod.snd).foldl max 0 + 1 = seq := by
      cases call <;> simp [ideal, Event.mark?] at left
      · exact ⟨by rw [left.1], left.2⟩
    have member : seq' ∈ (rows (marks log)).map Prod.snd :=
      List.mem_map.mpr ⟨(entry', seq'), List.mem_filterMap.mpr ⟨_, earlier, rfl⟩, rfl⟩
    exact Int.lt_add_one_of_le ((le_foldl_max _ 0).2 seq' member)

theorem ideal_willing {w : World} (finite : w.FiniteTrash) : Willing (ideal w) w where
  toHonest := ideal_honest w
  stats path log := by
    unfold ideal
    dsimp only
    cases (w.replay (marks log)).tree path with
    | none => rfl
    | some node => cases node <;> exact ⟨_, rfl, by simp⟩
  lists path log isDir empty := by simp [ideal, empty]
  hasTrash log := rfl
  buries path id log there parent := by
    obtain ⟨place, fresh, scheme, authority⟩ := (finite.replay (marks log)).fresh path
    have can : ∃ place, (w.replay (marks log)).Allows (.buried path (some place)) :=
      ⟨place, there, parent, place, rfl, fresh, scheme, authority⟩
    exact ⟨can.choose, dif_pos can⟩
  restores place path log can := if_pos can
  allocates log := ⟨1, rfl⟩
  goesOn log := rfl

/-- A destination with one file. -/
def oldWorld : World :=
  ⟨fun q => if q = emptyRoot then some .dir else if q = emptyRoot.join oldName then some (.file [1]) else none, fun _ => none⟩

theorem oldWorld_wellFormed : oldWorld.tree.WellFormed := by
  intro p s there
  have away : p.join s ≠ emptyRoot := fun same => by
    have long := congrArg (fun q => q.segments.length) same
    simp [VPath.join, emptyRoot] at long
  have file : p.join s = emptyRoot.join oldName := by
    by_contra other
    exact there (by simp [oldWorld, away, other])
  have root : p = emptyRoot := (join_injective file).1
  simp [oldWorld, root]

theorem oldWorld_finite : oldWorld.FiniteTrash := by
  have none : {place | oldWorld.trash place ≠ none} = ∅ := Set.eq_empty_of_forall_notMem fun _ there => there rfl
  rw [World.FiniteTrash, none]
  exact Set.finite_empty

theorem exists_stores (rows : List (NewEntry × Int)) : ∃ entries, List.Forall₂ Stores rows entries := by
  induction rows with
  | nil => exact ⟨[], .nil⟩
  | cons row rows ih =>
    obtain ⟨entries, stored⟩ := ih
    exact ⟨_, .cons ⟨0, [], rfl⟩ stored⟩

/-- A directory that is made and a file that is replaced, both taken back. -/
theorem undo_restores_overwrite : ∃ unit,
    IsBatch (marks (run (ideal oldWorld) newTargets newBatch [.ok newDir, .ok oldFile] []).log) unit ∧
    ∃ undone log, revertSyncBatch (ideal oldWorld) .user unit .new
        (run (ideal oldWorld) newTargets newBatch [.ok newDir, .ok oldFile] []).log =
        (.ok .accounted, { UndoReport.new with undone := undone }, log) ∧
      (oldWorld.replay (marks log)).tree = oldWorld.tree := by
  obtain ⟨unit, stored⟩ :=
    exists_stores (rows (marks (run (ideal oldWorld) newTargets newBatch [.ok newDir, .ok oldFile] []).log))
  have batch : IsBatch (marks (run (ideal oldWorld) newTargets newBatch [.ok newDir, .ok oldFile] []).log) unit :=
    ⟨unit, stored, .refl _⟩
  refine ⟨unit, batch, undo_restores newTargets [.ok newDir, .ok oldFile] oldWorld_wellFormed (ideal_honest _)
    (ideal_willing oldWorld_finite) ?_ unit batch⟩
  intro record member
  rcases List.mem_cons.mp member with first | second
  · obtain rfl := Except.ok.inj first
    decide
  · obtain rfl := Except.ok.inj (List.mem_singleton.mp second)
    decide

end Ideal

end Norte.Sync
