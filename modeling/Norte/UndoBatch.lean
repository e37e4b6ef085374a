import Norte.RenameRollback
import Norte.UndoTask

/-! The undo of a rename batch: the inverse chain that its entries spell, and the
simulation that decides beforehand whether all of it can be applied. -/
namespace Norte.Chain

open Hashing Utf8 Moves

/-- A path as the journal stores it. -/
def wire (bytes : Bytes) : Except Error VPath :=
  match fromUtf8 bytes with
  | none => .error .invalidPath
  | some s => (VPath.parse s).mapError fun _ => .invalidPath

def pathBytes (p : VPath) : Bytes := encode p.toWire

@[simp] theorem wire_pathBytes (p : VPath) : wire (pathBytes p) = .ok p := by
  rw [wire, pathBytes, fromUtf8_encode]
  dsimp only
  rw [VPath.parse_toWire_eq]
  rfl

/-- The inverse step of an entry: from where its node is now to where it was. -/
structure Inverse where
  fromName : Bytes
  toName : Bytes
  seq : Int
  deriving DecidableEq, Repr

def Inverse.move (s : Inverse) : Move Bytes := ⟨s.fromName, s.toName⟩

/-- The inverse of one entry, or the block that names it. -/
def inverse (dir : VPath) (e : JournalEntry) : Except (Int × Error) Inverse :=
  let bad := (e.seq, Error.invalidPath)
  if e.reversal ≠ Reversal.renameBack.asStr then .error (e.seq, .unsupported)
  else do
    let now ← (wire e.path).mapError fun _ => bad
    let origin ← e.pathTo.elim (.error bad) .ok
    let before ← (wire origin).mapError fun _ => bad
    if now.parent ≠ some dir ∨ before.parent ≠ some dir then .error bad
    else match now.fileName, before.fileName with
      | some fromName, some toName => .ok ⟨fromName.bytes, toName.bytes, e.seq⟩
      | _, _ => .error bad

def inverseChain (dir : VPath) : List JournalEntry → Except (Int × Error) (List Inverse)
  | [] => .ok []
  | e :: unit => do
    let step ← inverse dir e
    let steps ← inverseChain dir unit
    return step :: steps

/-- The directory of a batch is that of its first entry. -/
def batchDir (unit : List JournalEntry) : Option VPath := do
  let first ← unit.head?
  let path ← (wire first.path).toOption
  path.parent

def occupied : Error := .conflict .exists_

section Feasible

variable (nameKey : Bytes → Rename.NameCaps → Bytes) (caps : Rename.NameCaps)

/-- What the simulation keeps of the directory: the names byte for byte, and how many of
them share a key. -/
structure Occupied where
  bytes : Finset Bytes
  keys : Bytes → Option Nat

/-- `*entry(key).or_insert(0) += 1`. -/
def addKey (keys : Bytes → Option Nat) (key : Bytes) : Bytes → Option Nat :=
  Function.update keys key (some ((keys key).getD 0 + 1))

/-- The count goes down, and a key that nobody has any more goes away. -/
def dropKey (keys : Bytes → Option Nat) (key : Bytes) : Bytes → Option Nat :=
  match keys key with
  | none => keys
  | some count => Function.update keys key (if count - 1 = 0 then none else some (count - 1))

def Occupied.of (listing : List Bytes) : Occupied :=
  ⟨listing.toFinset, listing.foldl (fun keys n => addKey keys (nameKey n caps)) fun _ => none⟩

def Occupied.step (o : Occupied) (s : Inverse) : Except Error Occupied :=
  let fk := nameKey s.fromName caps
  let tk := nameKey s.toName caps
  if (o.keys fk).isNone then .error .notFound
  else if s.fromName = s.toName then .ok o
  else if s.toName ∈ o.bytes then .error occupied
  else .ok ⟨insert s.toName (o.bytes.erase s.fromName),
    if fk = tk then o.keys else addKey (dropKey o.keys fk) tk⟩

/-- The first step that does not fit is blamed by its position. -/
def feasibleFrom : Nat → Occupied → List Inverse → Except (Nat × Error) Unit
  | _, _, [] => .ok ()
  | i, o, s :: steps =>
    match o.step nameKey caps s with
    | .error e => .error (i, e)
    | .ok o => feasibleFrom (i + 1) o steps

def feasible (steps : List Inverse) (listing : List Bytes) : Except (Nat × Error) Unit :=
  feasibleFrom nameKey caps 0 (Occupied.of nameKey caps listing) steps

end Feasible

/-- The inverse steps as the provider takes them: the node is there byte for byte, and
nothing has the bytes it goes back to. -/
def applyInverses : Finset Bytes → List Inverse → Option (Finset Bytes)
  | dir, [] => some dir
  | dir, s :: steps =>
    if s.fromName ∈ dir ∧ s.toName ∉ dir then applyInverses (move dir s.move) steps else none

/-! The simulation keeps in step with the directory. -/

section Simulation

variable {nameKey : Bytes → Rename.NameCaps → Bytes} {caps : Rename.NameCaps}

def share (nameKey : Bytes → Rename.NameCaps → Bytes) (caps : Rename.NameCaps) (dir : Finset Bytes)
    (key : Bytes) : Finset Bytes := dir.filter fun e => nameKey e caps = key

/-- The bytes are those of the directory, and no key is counted short. -/
structure Occupied.Holds (nameKey : Bytes → Rename.NameCaps → Bytes) (caps : Rename.NameCaps)
    (o : Occupied) (dir : Finset Bytes) : Prop where
  bytes : o.bytes = dir
  keys : ∀ key, (share nameKey caps dir key).card ≤ (o.keys key).getD 0

@[simp] theorem addKey_getD (keys : Bytes → Option Nat) (key k : Bytes) :
    (addKey keys key k).getD 0 = (keys k).getD 0 + if key = k then 1 else 0 := by
  unfold addKey
  by_cases same : key = k
  · simp [same]
  · have other : k ≠ key := fun back => same back.symm
    simp [other, same]

theorem dropKey_getD {keys : Bytes → Option Nat} {key : Bytes} (k : Bytes) :
    (dropKey keys key k).getD 0 = (keys k).getD 0 - if key = k then 1 else 0 := by
  unfold dropKey
  cases held : keys key with
  | none =>
    by_cases same : key = k
    · simp [← same, held]
    · simp [same]
  | some count =>
    by_cases same : key = k
    · subst same
      dsimp only
      rw [Function.update_self]
      split <;> simp_all
    · have other : k ≠ key := fun back => same back.symm
      simp [other, same]

theorem Occupied.holds_of (listing : List Bytes) :
    (Occupied.of nameKey caps listing).Holds nameKey caps listing.toFinset where
  bytes := rfl
  keys key := by
    have counted (keys : Bytes → Option Nat) :
        ((listing.foldl (fun keys n => addKey keys (nameKey n caps)) keys) key).getD 0 =
          (keys key).getD 0 + (listing.filter fun e => nameKey e caps = key).length := by
      induction listing generalizing keys with
      | nil => simp
      | cons n listing ih =>
        rw [List.foldl_cons, ih, addKey_getD, List.filter_cons]
        split <;> simp_all +arith
    rw [Occupied.of, counted]
    have fits := List.toFinset_card_le (listing.filter fun e => nameKey e caps = key)
    rw [List.toFinset_filter] at fits
    simpa [share] using fits

/-- A move takes one name from the key of its source and gives one to that of its
target. -/
theorem share_move {dir : Finset Bytes} {m : Move Bytes} (here : m.source ∈ dir) (free : m.target ∉ dir)
    (key : Bytes) : (share nameKey caps (move dir m) key).card +
      (if nameKey m.source caps = key then 1 else 0) =
        (share nameKey caps dir key).card + if nameKey m.target caps = key then 1 else 0 := by
  have out : m.target ∉ (share nameKey caps dir key).erase m.source := by
    intro member
    exact free (Finset.mem_filter.mp (Finset.mem_of_mem_erase member)).1
  have erased : (share nameKey caps dir key).card = ((share nameKey caps dir key).erase m.source).card +
      if nameKey m.source caps = key then 1 else 0 := by
    split
    next same =>
      rw [Finset.card_erase_add_one]
      exact Finset.mem_filter.mpr ⟨here, same⟩
    next other =>
      rw [Finset.erase_eq_of_notMem, Nat.add_zero]
      exact fun member => other (Finset.mem_filter.mp member).2
  have moved : share nameKey caps (move dir m) key =
      if nameKey m.target caps = key then insert m.target ((share nameKey caps dir key).erase m.source)
      else (share nameKey caps dir key).erase m.source := by
    rw [share, move, Finset.filter_insert, Finset.filter_erase]
    rfl
  rw [moved, erased]
  split
  · rw [Finset.card_insert_of_notMem out]
    omega
  · omega

/-- A step whose node is there and whose destination is free passes, and the simulation
goes on as the directory does. -/
theorem Occupied.Holds.step {o : Occupied} {dir : Finset Bytes} (holds : o.Holds nameKey caps dir)
    {s : Inverse} (here : s.fromName ∈ dir) (free : s.toName ∉ dir) :
    ∃ o', o.step nameKey caps s = .ok o' ∧ o'.Holds nameKey caps (Moves.move dir s.move) := by
  have present : ¬(o.keys (nameKey s.fromName caps)).isNone := by
    intro absent
    have counted := holds.keys (nameKey s.fromName caps)
    rw [Option.isNone_iff_eq_none.mp absent, Option.getD_none, Nat.le_zero, Finset.card_eq_zero] at counted
    have member : s.fromName ∈ share nameKey caps dir (nameKey s.fromName caps) :=
      Finset.mem_filter.mpr ⟨here, rfl⟩
    rw [counted] at member
    simp at member
  have real : s.fromName ≠ s.toName := fun same => free (same ▸ here)
  have unblocked : s.toName ∉ o.bytes := by
    rw [holds.bytes]
    exact free
  refine ⟨_, by rw [Occupied.step, if_neg present, if_neg real, if_neg unblocked], ?_, ?_⟩
  · rw [holds.bytes]
    rfl
  · intro key
    have moved : (share nameKey caps (move dir s.move) key).card +
        (if nameKey s.fromName caps = key then 1 else 0) =
          (share nameKey caps dir key).card + if nameKey s.toName caps = key then 1 else 0 :=
      share_move here free key
    have before := holds.keys key
    dsimp only
    split
    next same =>
      rw [same] at moved
      exact (Nat.add_right_cancel moved).trans_le before
    next other =>
      rw [addKey_getD, dropKey_getD]
      by_cases gone : nameKey s.fromName caps = key <;> by_cases came : nameKey s.toName caps = key
      all_goals simp only [gone, came, ↓reduceIte] at moved ⊢
      all_goals omega

/-- The inverse moves in order: each finds its node, each is let through, and the
original directory is back. -/
theorem inverses_apply {steps : List (Move Bytes)} {dir final : Finset Bytes}
    (ran : Moves.run (nameKey · caps) dir steps = some final) (real : ∀ m ∈ steps, m.source ≠ m.target)
    {inverses : List Inverse} (spelled : inverses.map Inverse.move = (steps.map Move.inverse).reverse)
    {o : Occupied} (holds : o.Holds nameKey caps final) (i : Nat) :
    feasibleFrom nameKey caps i o inverses = .ok () ∧ applyInverses final inverses = some dir := by
  induction steps using List.reverseRecOn generalizing final inverses o i with
  | nil =>
    obtain rfl := Option.some.inj ran
    obtain rfl := List.map_eq_nil_iff.mp spelled
    exact ⟨rfl, rfl⟩
  | append_singleton steps m ih =>
    rw [Moves.run_append] at ran
    obtain ⟨mid, first, last⟩ := Option.bind_eq_some_iff.mp ran
    rw [Moves.run] at last
    split at last
    next clear =>
      obtain rfl := Option.some.inj last
      rw [List.map_append, List.reverse_append] at spelled
      obtain ⟨s, rest, rfl, own, later⟩ := List.map_eq_cons_iff.mp spelled
      have respelled : m.source ≠ m.target := real m (by simp)
      have here : s.fromName ∈ move mid m := by
        rw [show s.fromName = m.target from congrArg Move.source own, mem_move]
        exact .inl rfl
      have free : s.toName ∉ move mid m := by
        rw [show s.toName = m.source from congrArg Move.target own, mem_move]
        rintro (same | ⟨other, _⟩)
        · exact respelled same
        · exact other rfl
      have back : move (move mid m) s.move = mid := by
        rw [own]
        exact move_inverse clear
      obtain ⟨o', stepped, holds'⟩ := holds.step here free
      rw [back] at holds'
      obtain ⟨accepted, applied⟩ := ih first (fun x member => real x (by simp [member])) later holds' (i + 1)
      refine ⟨?_, ?_⟩
      · simp only [feasibleFrom, stepped]
        exact accepted
      · rw [applyInverses, if_pos ⟨here, free⟩, back]
        exact applied
    next => cases last

end Simulation

/-! The chain that the entries of a batch spell. -/

/-- The entry that a batch under `dir` records for a step. -/
def Journalled (b : Batch) (s : Rename.PlannedStep) (e : JournalEntry) : Prop :=
  ∃ tsMs, e.toRecord = (b.renamed (pathBytes s.fromPath) (pathBytes s.toPath) none).record tsMs e.seq

theorem Journalled.fields {b : Batch} {s : Rename.PlannedStep} {e : JournalEntry}
    (journalled : Journalled b s e) : e.path = pathBytes s.toPath ∧ e.pathTo = some (pathBytes s.fromPath) ∧
      e.reversal = Reversal.renameBack.asStr := by
  obtain ⟨tsMs, same⟩ := journalled
  have fields : e.toVerifiedRow = ((b.renamed (pathBytes s.fromPath) (pathBytes s.toPath) none).record
      tsMs e.seq).toVerifiedRow := congrArg Record.toVerifiedRow same
  refine ⟨?_, ?_, ?_⟩
  · exact congrArg VerifiedRow.path fields
  · exact congrArg VerifiedRow.pathTo fields
  · exact congrArg VerifiedRow.reversal fields

@[simp] theorem parent_join (dir : VPath) (segment : Segment) : (dir.join segment).parent = some dir := by
  simp [VPath.parent, VPath.join]

@[simp] theorem fileName_join (dir : VPath) (segment : Segment) :
    (dir.join segment).fileName = some segment := by
  simp [VPath.fileName, VPath.join]

theorem inverse_journalled {b : Batch} {dir : VPath} {s : Rename.Step} {planned : Rename.PlannedStep}
    {e : JournalEntry} (absolute : Rename.absolute dir s = .ok planned) (journalled : Journalled b planned e) :
    inverse dir e = .ok ⟨s.toName, s.fromName, e.seq⟩ := by
  obtain ⟨path, pathTo, reversal⟩ := journalled.fields
  obtain ⟨fromSegment, toSegment, source, target, rfl⟩ := Rename.absolute_eq_ok absolute
  simp only [inverse, path, pathTo, reversal, ne_eq, not_true_eq_false, ↓reduceIte, wire_pathBytes,
    Except.mapError, Option.elim, bind, Except.bind, parent_join, or_self, fileName_join, source, target]

theorem inverseChain_of_forall₂ {dir : VPath} {unit : List JournalEntry} {inverses : List Inverse}
    (each : List.Forall₂ (fun e s => inverse dir e = .ok s) unit inverses) :
    inverseChain dir unit = .ok inverses := by
  induction each with
  | nil => rfl
  | cons first _ ih => simp only [inverseChain, first, ih, bind, Except.bind, pure, Except.pure]

theorem inverse_dir {dir : VPath} {e : JournalEntry} {s : Inverse} (found : inverse dir e = .ok s) :
    ∃ path, wire e.path = .ok path ∧ path.parent = some dir := by
  unfold inverse at found
  dsimp only at found
  split at found
  · cases found
  cases now : wire e.path with
  | error _ => simp [now, Except.mapError, bind, Except.bind] at found
  | ok path =>
    refine ⟨path, rfl, ?_⟩
    by_contra other
    cases origin : e.pathTo with
    | none => simp [now, origin, Except.mapError, bind, Except.bind] at found
    | some bytes =>
      cases before : wire bytes with
      | error _ => simp [now, origin, before, Except.mapError, bind, Except.bind] at found
      | ok _ => simp [now, origin, before, other, Except.mapError, bind, Except.bind] at found

/-- What the entries of a batch spell, step by step. -/
theorem exists_inverses {b : Batch} {dir : VPath} {steps : List Rename.Step}
    {planned : List Rename.PlannedStep} {rows : List JournalEntry}
    (absolute : List.Forall₂ (fun s p => Rename.absolute dir s = .ok p) steps planned)
    (journalled : List.Forall₂ (Journalled b) planned rows) :
    ∃ inverses, List.Forall₂ (fun e s => inverse dir e = .ok s) rows inverses ∧
      inverses.map Inverse.move = (steps.map Rename.Step.move).map Move.inverse ∧
      inverses.map (fun s => s.seq) = rows.map fun e => e.seq := by
  induction absolute generalizing rows with
  | nil =>
    cases journalled
    exact ⟨[], .nil, rfl, rfl⟩
  | @cons s p steps planned first _ ih =>
    cases journalled with
    | @cons _ e _ rows own rest =>
      obtain ⟨inverses, each, moves, seqs⟩ := ih rest
      refine ⟨⟨s.toName, s.fromName, e.seq⟩ :: inverses, .cons (inverse_journalled first own) each, ?_, ?_⟩
      · rw [List.map_cons, moves]
        rfl
      · rw [List.map_cons, seqs, List.map_cons]

/-- The undo of a batch is the inverse of the batch. Where every step of an executable
plan ran and was journalled, its entries, newest first, spell an inverse chain; the chain
is let through by any listing of the directory that the batch left, and applied step by
step it gives back the directory that the batch found. -/
theorem undo_batch_inverse (nameKey : Bytes → Rename.NameCaps → Bytes) (sha256 : Bytes → Bytes)
    (pairs : List (Bytes × Bytes)) (listing : List Bytes) (caps : Rename.NameCaps)
    (plan : Rename.RenamePlan) (planned : Rename.planBatch nameKey sha256 pairs listing caps = some plan)
    (executable : plan.collisions = []) (working : plan.steps ≠ []) (dir : VPath)
    (steps : List Rename.PlannedStep) (absolute : Rename.absoluteSteps dir plan.steps = .ok steps)
    (after : List Bytes) (ran : Moves.run (nameKey · caps) listing.toFinset
      (plan.steps.map Rename.Step.move) = some after.toFinset)
    (b : Batch) (rows : List JournalEntry) (journalled : List.Forall₂ (Journalled b) steps rows)
    (ascending : rows.Pairwise fun d e => d.seq < e.seq) (unit : List JournalEntry)
    (same : unit.Perm rows) (descending : unit.Pairwise fun d e => e.seq < d.seq) :
    batchDir unit = some dir ∧
    ∃ inverses, inverseChain dir unit = .ok inverses ∧
      inverses.map (fun s => s.seq) = unit.map (fun e => e.seq) ∧
      feasible nameKey caps inverses after = .ok () ∧
      applyInverses after.toFinset inverses = some listing.toFinset := by
  obtain rfl : unit = rows.reverse := by
    refine List.Perm.eq_of_pairwise (fun d e _ _ above below => ?_) descending
      (List.pairwise_reverse.mpr ascending) (same.trans rows.reverse_perm.symm)
    omega
  have every := Rename.absoluteSteps_eq_ok absolute
  obtain ⟨inverses, each, moves, seqs⟩ := exists_inverses every journalled
  obtain ⟨o, ordered⟩ := Rename.planBatch_ordered planned executable
  have real : ∀ m ∈ plan.steps.map Rename.Step.move, m.source ≠ m.target := by
    intro m member
    obtain ⟨s, inside, rfl⟩ := List.mem_map.mp member
    exact ordered.real inside
  have spelled : inverses.reverse.map Inverse.move =
      ((plan.steps.map Rename.Step.move).map Move.inverse).reverse := by
    rw [List.map_reverse, moves]
  obtain ⟨accepted, applied⟩ := inverses_apply ran real spelled (Occupied.holds_of after) 0
  refine ⟨?_, inverses.reverse, inverseChain_of_forall₂ (List.forall₂_reverse_iff.mpr each), ?_, accepted,
    applied⟩
  · have long : rows ≠ [] := by
      rintro rfl
      have := every.length_eq.trans journalled.length_eq
      exact working (List.length_eq_zero_iff.mp this)
    obtain ⟨last, rest, split⟩ := List.exists_cons_of_ne_nil (List.reverse_ne_nil_iff.mpr long)
    have backward := List.forall₂_reverse_iff.mpr each
    rw [split] at backward
    obtain ⟨s, _, found, _⟩ := List.forall₂_cons_left_iff.mp backward
    obtain ⟨path, read, parent⟩ := inverse_dir found
    simp only [batchDir, split, List.head?_cons, read, Except.toOption, bind, Option.bind, parent]
  · rw [List.map_reverse, seqs, List.map_reverse]

/-- The entries of a batch that nobody else writes in between. -/
def entriesOf (b : Batch) : Int → List Rename.PlannedStep → List JournalEntry
  | _, [] => []
  | seq, s :: steps =>
    ⟨(b.renamed (pathBytes s.fromPath) (pathBytes s.toPath) none).record 7 seq, []⟩ ::
      entriesOf b (seq + 1) steps

theorem entriesOf_journalled (b : Batch) (seq : Int) (steps : List Rename.PlannedStep) :
    List.Forall₂ (Journalled b) steps (entriesOf b seq steps) ∧
      (∀ e ∈ entriesOf b seq steps, seq ≤ e.seq) ∧
      (entriesOf b seq steps).Pairwise fun d e => d.seq < e.seq := by
  induction steps generalizing seq with
  | nil => exact ⟨.nil, by simp [entriesOf], .nil⟩
  | cons s steps ih =>
    obtain ⟨journalled, above, ascending⟩ := ih (seq + 1)
    refine ⟨.cons ⟨7, rfl⟩ journalled, ?_, .cons (fun e member => Int.lt_of_add_one_le (above e member)) ascending⟩
    intro e member
    rcases List.mem_cons.mp member with rfl | later
    · exact Int.le_refl _
    · have := above e later
      omega

/-- A swap in a folding directory, with a case-only rename beside it, and its undo. -/
theorem undo_batch_inverse_swap :
    ∃ plan after rows inverses, Rename.planBatch Rename.asciiKey (List.take 32)
        [([0x61], [0x62]), ([0x62], [0x61]), ([0x43], [0x63])] [[0x61], [0x62], [0x43]] ⟨.simple⟩ = some plan ∧
      plan.steps.length = 4 ∧ inverseChain Rename.sampleRoot rows = .ok inverses ∧
      feasible Rename.asciiKey ⟨.simple⟩ inverses after = .ok () ∧
      applyInverses after.toFinset inverses = some {[0x61], [0x62], [0x43]} := by
  have planned : (Rename.planBatch Rename.asciiKey (List.take 32)
      [([0x61], [0x62]), ([0x62], [0x61]), ([0x43], [0x63])] [[0x61], [0x62], [0x43]] ⟨.simple⟩).map
      (fun plan => (plan.collisions, plan.steps.length,
        (Rename.absoluteSteps Rename.sampleRoot plan.steps).toOption.isSome)) = some ([], 4, true) := by
    decide +kernel
  obtain ⟨plan, planned, same⟩ := Option.map_eq_some_iff.mp planned
  obtain ⟨executable, rest⟩ := Prod.mk.inj same
  obtain ⟨length, legal⟩ := Prod.mk.inj rest
  cases absolute : Rename.absoluteSteps Rename.sampleRoot plan.steps with
  | error e => simp [absolute, Except.toOption] at legal
  | ok steps =>
    obtain ⟨final, ran⟩ := Rename.planBatch_run planned executable
    rw [← final.toList_toFinset] at ran
    have working : plan.steps ≠ [] := by
      intro empty
      simp [empty] at length
    obtain ⟨journalled, _, ascending⟩ := entriesOf_journalled ⟨.user, 1, [], [], false⟩ 1 steps
    obtain ⟨_, inverses, chain, _, accepted, applied⟩ := undo_batch_inverse Rename.asciiKey (List.take 32)
      _ _ _ plan planned executable working Rename.sampleRoot steps absolute final.toList ran _ _ journalled
      ascending _ (List.reverse_perm _) (List.pairwise_reverse.mpr ascending)
    exact ⟨plan, final.toList, _, inverses, planned, length, chain, accepted, applied⟩

end Norte.Chain
