import Norte.JournalCompact
import Norte.UndoCounts

/-! Undos that overlap. Whatever was asked for when, and in whatever order the turns come,
nothing is taken back twice, no undo goes on below a unit that it could not finish, and
every entry it was asked for is accounted for. -/
namespace Norte.Turns

open Hashing Chain

variable {sha256 : Bytes → Hash}

/-- Whatever tasks wrote a journal, undos may find it. -/
theorem fit_of_reached {w : Chain.World} (reached : Chain.World.Reached sha256 w) : Fit sha256 w.journal := by
  obtain ⟨⟨handed, run⟩, told⟩ := reached.told
  obtain ⟨marker, mutations, sound⟩ := run.sound
  have plays := told.plays
  have played {r : Row} (stored : r ∈ w.journal.db.rows) {target : Int} (takes : r.undoesSeq = some target) :
      ⟨r.seq, some target⟩ ∈ w.history :=
    mem_history.mpr ⟨r, mutation_of_row sound stored (.inl (by rw [takes]; rfl)), rfl, takes⟩
  have targeted {r : Row} (stored : r ∈ w.journal.db.rows) {target : Int} (takes : r.undoesSeq = some target) :
      ∃ s ∈ w.journal.db.mutations, s.seq = target := by
    obtain ⟨x, inside, same⟩ := List.mem_map.mp (plays.kept.targets _ _ (played stored takes))
    obtain ⟨s, mutation, rfl⟩ := List.mem_map.mp inside
    exact ⟨s, mutation, same⟩
  refine ⟨⟨marker, mutations, sound⟩, fun r stored target takes => ?_, ?_⟩
  · obtain ⟨s, mutation, rfl⟩ := targeted stored takes
    have := sound.below (mem_mutations.mp mutation).1
    omega
  · intro c stored c' stored' takes same live live'
    obtain ⟨target, named⟩ := Option.isSome_iff_exists.mp takes
    have undone {d : Row} (live : InForce w.journal.db d) : ¬Compensation.Undone w.history d.seq := by
      rintro ⟨e, member⟩
      obtain ⟨r, mutation, _, target⟩ := mem_history.mp member
      exact live r (mem_mutations.mp mutation).1 target
    have seqs : c.seq = c'.seq := by
      obtain ⟨s, mutation, rfl⟩ := targeted stored named
      cases own : s.undoesSeq with
      | none =>
        have act : ⟨s.seq, none⟩ ∈ w.history := mem_history.mpr ⟨s, mutation, rfl, own⟩
        exact plays.kept.single _ _ _ (played stored named) (played stored' (same ▸ named)) act (undone live)
          (undone live')
      | some o =>
        have comp : ⟨s.seq, some o⟩ ∈ w.history := mem_history.mpr ⟨s, mutation, rfl, own⟩
        exact plays.once comp (played stored named) (played stored' (same ▸ named))
    exact List.inj_on_of_nodup_map (sound.chained.sorted.map _ fun _ _ lower => ne_of_lt lower) stored stored' seqs

/-- What holds of the selection of an undo from the moment it was made. -/
structure Task.Planned (j : Journal) (t : Task) : Prop where
  descending : t.plan.Pairwise fun u v => ∃ m ∈ largestSeq u, ∃ n ∈ largestSeq v, n < m
  distinct : (seqs t.plan.flatten).Nodup
  stored : ∀ e ∈ t.plan.flatten, ∃ r ∈ j.db.rows, r.seq = e.seq

theorem Task.Planned.grow {j j' : Journal} {t : Task} (planned : t.Planned j) (grows : j.db.rows ⊆ j'.db.rows) :
    t.Planned j' where
  descending := planned.descending
  distinct := planned.distinct
  stored e member := by
    obtain ⟨r, stored, same⟩ := planned.stored e member
    exact ⟨r, grows stored, same⟩

/-- A selection holds entries of the journal, newest first. -/
theorem Selects.entries {db : Database} (ordered : db.rows.Pairwise fun r s => r.seq < s.seq) {target : Actor}
    {entries : List JournalEntry} (selects : Selects db target entries) :
    (entries.Pairwise fun a b => b.seq < a.seq) ∧ ∀ e ∈ entries, ∃ r ∈ db.rows, r.seq = e.seq := by
  have sub : entries.Sublist (db.revertibleFor target) := by
    rcases selects with rfl | ⟨afterSeq, uptoSeq, rfl⟩
    · exact .refl _
    · rw [revertibleForAfter_eq]
      exact List.filter_sublist
  refine ⟨(revertibleFor_descending ordered target).sublist sub, fun e member => ?_⟩
  obtain ⟨r, stored, rfl, _⟩ := mem_revertibleFor.mp (sub.subset member)
  exact ⟨r, stored, rfl⟩

theorem Selects.planned {j : Journal} (fit : Fit sha256 j) {target : Actor} {entries : List JournalEntry}
    (selects : Selects j.db target entries) (executor : Actor) :
    (Task.new executor (undoUnits entries)).Planned j := by
  obtain ⟨marker, mutations, sound⟩ := fit.sound
  obtain ⟨descending, stored⟩ := selects.entries sound.chained.sorted
  have perm := (undoUnits_heads entries).1
  refine ⟨undoUnits_descending descending, ?_, fun e member => stored e (perm.subset member)⟩
  apply (perm.map _).nodup_iff.mpr
  refine List.pairwise_map.mpr (descending.imp fun lower same => ?_)
  omega

theorem Task.new_sums (actor : Actor) (plan : List (List JournalEntry)) (alreadyUndone : List Int) :
    Task.Runs { Task.new actor plan with alreadyUndone := alreadyUndone } where
  strict := ⟨rfl, by simp [Task.new]⟩
  once := .refl _
  counts := ⟨rfl, rfl, rfl, rfl, rfl⟩
  already := by simp [Task.new, Tally.new]
  stop := by simp [Task.new, Doing.remains]
  unblocked := rfl
  marked := rfl

/-- What an undo finds undone when its turn comes is all that is. -/
theorem Task.Planned.fresh {j : Journal} (fit : Fit sha256 j) {actor : Actor} {plan : List (List JournalEntry)}
    (planned : (Task.new actor plan).Planned j) : Fresh j (j.db.undoneAmong (seqs plan.flatten)) [] plan where
  distinct := planned.distinct
  known s member := by
    obtain ⟨e, inside, rfl⟩ := List.mem_map.mp member
    obtain ⟨r, stored, same⟩ := planned.stored e inside
    obtain ⟨marker, mutations, sound⟩ := fit.sound
    have := sound.below stored
    omega
  free := by simp
  later e member out undone := by
    apply out
    rw [mem_undoneAmong]
    exact ⟨List.mem_map_of_mem member, planned.stored e member, undone⟩

/-- What holds of every world. -/
structure World.Keeps (sha256 : Bytes → Hash) (w : World) : Prop where
  fit : Fit sha256 w.journal
  waiting : ∀ t ∈ w.waiting, t.Planned w.journal ∧ t = Task.new t.actor t.plan
  turn : ∀ t ∈ w.turn, t.Planned w.journal ∧ Fresh w.journal t.alreadyUndone t.doing.targets t.units ∧ t.Runs
  ended : ∀ p ∈ w.ended, p.1.Planned w.journal ∧ p.1.Over p.2

theorem Task.Step.plan {j j' : Journal} {t : Task} {result : Task × Option (Except Error Unit)}
    (step : Task.Step sha256 j t j' result) : result.1.plan = t.plan := by
  cases step with
  | entry | syncEnd | modeEnd | renameEnd => exact (Task.settle_fields _ _ _).2.2
  | syncEntry | modeOther => exact (Task.markIf_fields _ _).2.2.2
  | _ => rfl

/-- The others, when a row is written that none of them wrote. -/
theorem World.Keeps.grow {w : World} (keeps : w.Keeps sha256) {j : Journal} (grows : w.journal.db.rows ⊆ j.db.rows) :
    (∀ t ∈ w.waiting, t.Planned j ∧ t = Task.new t.actor t.plan) ∧
      ∀ p ∈ w.ended, p.1.Planned j ∧ p.1.Over p.2 := by
  refine ⟨fun t member => ?_, fun p member => ?_⟩
  · obtain ⟨planned, new⟩ := keeps.waiting t member
    exact ⟨planned.grow grows, new⟩
  · obtain ⟨planned, over_⟩ := keeps.ended p member
    exact ⟨planned.grow grows, over_⟩

theorem World.Step.keeps {w w' : World} (keeps : w.Keeps sha256) (clean : w.Clean)
    (step : World.Step sha256 w w') : w'.Keeps sha256 := by
  have removed {before after : List Task} {t : Task} (here : w.waiting = before ++ t :: after) :
      ∀ x ∈ before ++ after, x.Planned w.journal ∧ x = Task.new x.actor x.plan := by
    intro x member
    apply keeps.waiting x
    rw [here]
    rcases List.mem_append.mp member with early | late
    · exact List.mem_append_left _ early
    · exact List.mem_append_right _ (List.mem_cons_of_mem _ late)
  cases step with
  | @mutation e _ _ _ act written =>
    obtain ⟨adds, _⟩ := keeps.fit.adds written
    obtain ⟨waiting, ended⟩ := keeps.grow adds.grows
    have free : ∀ target ∈ e.undoesSeq, target ≤ w.journal.chain.lastSeq ∧ ¬w.journal.db.colUndone target := by
      simp [act]
    refine ⟨keeps.fit.write written free, waiting, fun t held => ?_, ended⟩
    obtain ⟨planned, fresh, runs⟩ := keeps.turn t held
    refine ⟨planned.grow adds.grows, fresh.still (fun s undone => ?_) ?_, runs⟩
    · rcases adds.undone undone with before | own
      · exact before
      · rw [act] at own
        cases own
    · rw [adds.last, adds.next]
      omega
  | ask executor selects =>
    refine ⟨keeps.fit, fun t member => ?_, keeps.turn, keeps.ended⟩
    rcases List.mem_cons.mp member with rfl | early
    · exact ⟨selects.planned keeps.fit executor, rfl⟩
    · exact keeps.waiting t early
  | @turn before after t _ here =>
    refine ⟨keeps.fit, removed here, ?_, keeps.ended⟩
    obtain ⟨planned, new⟩ := keeps.waiting t (by rw [here]; simp)
    rintro _ ⟨⟩
    rw [new] at planned ⊢
    exact ⟨⟨planned.descending, planned.distinct, planned.stored⟩, planned.fresh keeps.fit, Task.new_sums _ _ _⟩
  | @leave before after t err here =>
    refine ⟨keeps.fit, removed here, keeps.turn, fun p member => ?_⟩
    rcases List.mem_cons.mp member with rfl | early
    · obtain ⟨planned, new⟩ := keeps.waiting t (by rw [here]; simp)
      refine ⟨planned, ?_, fun went => by cases went⟩
      have sums := (Task.new_sums t.actor t.plan []).toSums
      rw [new]
      exact sums
    · exact keeps.ended p early
  | @work t t' j held step =>
    obtain ⟨planned, fresh, runs⟩ := keeps.turn t held
    have leaves := step.leaves keeps.fit fresh
    obtain ⟨waiting, ended⟩ := keeps.grow leaves.grows
    refine ⟨leaves.fit, waiting, ?_, ended⟩
    rintro _ ⟨⟩
    have same := step.plan
    refine ⟨?_, leaves.fresh rfl, (step.books runs (clean t held)).on rfl⟩
    have planned := planned.grow leaves.grows
    exact ⟨by rw [same]; exact planned.descending, by rw [same]; exact planned.distinct,
      by rw [same]; exact planned.stored⟩
  | @finish t t' j ending held step =>
    obtain ⟨planned, fresh, runs⟩ := keeps.turn t held
    have leaves := step.leaves keeps.fit fresh
    obtain ⟨waiting, ended⟩ := keeps.grow leaves.grows
    refine ⟨leaves.fit, waiting, by simp, fun p member => ?_⟩
    rcases List.mem_cons.mp member with rfl | early
    · have same := step.plan
      have planned := planned.grow leaves.grows
      refine ⟨⟨by rw [same]; exact planned.descending, by rw [same]; exact planned.distinct,
        by rw [same]; exact planned.stored⟩, (step.books runs (clean t held)).over_ _ rfl⟩
    · exact ended p early

theorem World.Reached.keeps {w : World} (reached : World.Reached sha256 World.Clean w) : w.Keeps sha256 := by
  induction reached with
  | start fit => exact ⟨fit, by simp, by simp, by simp⟩
  | step _ clean step ih => exact step.keeps ih clean

/-- Overlapping undos: no entry has two compensations in force, no unit is taken up below
one that could be neither finished nor skipped, and every selected entry is counted once
or lies at or below the stop. It is so in every run in which no permissions batch answers
with an entry that it skipped while another one did not come back. -/
theorem undos_overlap (sha256 : Bytes → Hash) (w : World) (reached : World.Reached sha256 World.Clean w) :
    Single w.journal.db ∧
    (∀ t ∈ w.tasks, t.Strict ∧ t.plan.Pairwise fun u v => ∃ m ∈ largestSeq u, ∃ n ∈ largestSeq v, n < m) ∧
    ∀ p ∈ w.ended, p.1.Accounted p.2 := by
  have keeps := reached.keeps
  refine ⟨keeps.fit.single, fun t member => ?_, fun p member => ?_⟩
  · rcases List.mem_append.mp member with held | ended
    · obtain ⟨planned, _, runs⟩ := keeps.turn t (Option.mem_toList.mp held)
      exact ⟨runs.strict, planned.descending⟩
    · obtain ⟨p, inside, rfl⟩ := List.mem_map.mp ended
      obtain ⟨planned, over_⟩ := keeps.ended p inside
      exact ⟨over_.strict, planned.descending⟩
  · obtain ⟨planned, over_⟩ := keeps.ended p member
    exact ⟨planned.distinct, over_.once, over_.counts, over_.already, over_.stop, over_.through⟩

/-! A permissions batch that answers with what it skipped. -/

/-- A provider that lets modes be set, or does not. -/
def modes (answer : Sync.Outcome Unit) (seq : Int) : Sync.Behaviour
  | .isCancelled, _ | .checkDue, _ | .hasTrash, _ => false
  | .openRoot, _ | .stillStanding, _ => .ok ()
  | .evaluate _ _, _ => .allow
  | .stat _ _, _ | .list _, _ | .walk _, _ | .readLink _, _ | .nodeId _, _ | .allocBatch, _ => .error .notFound
  | .bytesDone, _ => 0
  | .mode _, _ => some 493
  | .mkdir _, _ | .symlink _ _, _ | .copyFile _ _ _, _ | .trash _ _, _ | .remove _ _, _ | .restoreFrom _ _, _
  | .restoreTrashed _, _ | .rename _ _, _ | .detour _ _, _ => .failed .unsupported .notApplied
  | .setMode _ _, _ => answer
  | .record _, _ => .ok seq

def modeChanged (path : Str) (previous : Option Str) (batch : Option Int) : NewEntry where
  op := "mode_changed".toList
  path := Utf8.encode path
  pathTo := none
  reversal := if previous.isSome then .setModeBack else .irreversible
  reversalRef := previous.map Utf8.encode
  actor := .user
  undoesSeq := none
  batchId := batch

def sampleOldest : NewEntry := modeChanged "file:///a".toList (some "420".toList) none
def sampleOlder : NewEntry := modeChanged "file:///b".toList (some "420".toList) (some 1)
def sampleNewest : NewEntry := modeChanged "file:///c".toList none (some 1)

def sampleModes1 : Journal := put sampleOldest sampleBegun
def sampleModes2 : Journal := put sampleOlder sampleModes1
def sampleModes3 : Journal := put sampleNewest sampleModes2

def sampleEntry1 : JournalEntry := (nextRow sampleHash sampleOldest 7 sampleBegun).entry
def sampleEntry2 : JournalEntry := (nextRow sampleHash sampleOlder 7 sampleModes1).entry
def sampleEntry3 : JournalEntry := (nextRow sampleHash sampleNewest 7 sampleModes2).entry

/-- The undo of the three, step by step. -/
def sampleAsked : Task := Task.new .user [[sampleEntry3, sampleEntry2], [sampleEntry1]]

def sampleBatchUp : Task :=
  sampleAsked.takeUp [sampleEntry3, sampleEntry2] [[sampleEntry1]]
    (.modeBatch (some 2) [sampleEntry3, sampleEntry2] [] [])

def Task.other (t : Task) (rest : List JournalEntry) (others : List (JournalEntry × Sync.Reverted))
    (e : JournalEntry) (r : Sync.Reverted) : Task :=
  Task.markIf { t with
    doing := .modeBatch (some 2) rest [] (others ++ [(e, r)])
    report.toUndoReport := t.report.noteUnreverted e.path } r

def sampleSkipped : Task := sampleBatchUp.other [sampleEntry2] [] sampleEntry3 .skippedIrreversible

def sampleRefused : Task :=
  sampleSkipped.other [] [(sampleEntry3, .skippedIrreversible)] sampleEntry2 (.blocked 2 .permissionDenied)

def sampleAnswered : Task :=
  (Task.settle { sampleRefused with
    doing := .modeBatch (some 2) [] [] [(sampleEntry3, .skippedIrreversible),
      (sampleEntry2, .blocked 2 .permissionDenied)]
    report.undone := sampleRefused.report.undone + ([] : List JournalEntry).length
    tally := sampleRefused.tally.count [] .done } [sampleEntry3] .skippedIrreversible).1

def sampleCrossed : Task := sampleAnswered.takeUp [sampleEntry1] [] (.entry sampleEntry1)

def sampleUndone : Task := (sampleCrossed.settle [sampleEntry1] .done).1

def sampleTakenBack : NewEntry where
  op := "mode_changed".toList
  path := sampleEntry1.path
  pathTo := some (Utf8.encode "420".toList)
  reversal := .setModeBack
  reversalRef := some (Utf8.encode "493".toList)
  actor := .user
  undoesSeq := some 1
  batchId := none

def sampleModesBatch : Journal := { sampleModes3 with chain := { sampleModes3.chain with batchCounter := 2 } }

def sampleModes4 : Journal := put sampleTakenBack sampleModesBatch

theorem Reverts.of {sha256 : Bytes → Hash} {actor : Actor} {batch : Option Int} {e : JournalEntry} {j j' : Journal}
    (b : Sync.Behaviour) {r : Except Error Sync.Reverted} (answer : (Sync.revertEntry b actor batch e []).1 = r)
    (writes : Writes sha256 j (recorded (Sync.revertEntry b actor batch e []).2) j') :
    Reverts sha256 actor batch e j r j' := .intro (Prod.ext answer rfl) writes

theorem sampleBegun_fit : Fit sampleHash sampleBegun := by
  have given : allocBatch sampleStart = some (1, sampleBegun) := by decide +kernel
  have fit : Fit sampleHash sampleStart := by
    obtain ⟨marker, mutations, sound⟩ := (Run.fresh 7 : Run sampleHash Retrospective sampleStart []).sound
    have alone : ∀ r ∈ sampleStart.db.rows, r.undoesSeq = none := by decide +kernel
    refine ⟨⟨marker, mutations, sound⟩, fun r stored target named => ?_, fun c stored _ _ takes => ?_⟩
    · rw [alone r stored] at named
      cases named
    · rw [alone c stored] at takes
      cases takes
  exact (fit.alloc given).1

/-- Two undos asked for the same entry; the first takes it back. -/
def sampleLone : Task := Task.new .user [[sampleEntry1]]

def sampleFirstUp : Task := sampleLone.takeUp [sampleEntry1] [] (.entry sampleEntry1)

def sampleFirst : Task := (sampleFirstUp.settle [sampleEntry1] .done).1

def sampleLate : Task := { sampleLone with alreadyUndone := [1] }

def sampleSecond : Task := sampleLate.takeUp [sampleEntry1] [] .between

def sampleModesBack : Journal := put sampleTakenBack sampleModes1

theorem clean_of_none {j : Journal} {waiting : List Task} {ended : List (Task × Except Error Unit)} :
    World.Clean ⟨j, waiting, none, ended⟩ := by
  intro t held
  cases held

theorem clean_of_some {j : Journal} {waiting : List Task} {t : Task} {ended : List (Task × Except Error Unit)}
    (clean : ¬t.doing.Masked) : World.Clean ⟨j, waiting, some t, ended⟩ := by
  rintro _ ⟨⟩
  exact clean

theorem sample_takes_back (entries : Option Int) {j j' : Journal} (seq : Int)
    (row : recorded (Sync.revertEntry (modes (.done ()) seq) .user entries sampleEntry1 []).2 =
      [(sampleTakenBack, seq)])
    (answer : (Sync.revertEntry (modes (.done ()) seq) .user entries sampleEntry1 []).1 = .ok .done)
    (written : recordEntry sampleHash sampleTakenBack 7 true j = some (.ok seq, j')) :
    Reverts sampleHash .user entries sampleEntry1 j (.ok .done) j' := by
  refine Reverts.of (modes (.done ()) seq) answer ?_
  rw [row]
  exact .cons written (.nil _)

/-- The second finds it undone. -/
theorem sample_overlaps : World.Reached sampleHash World.Clean
    ⟨sampleModesBack, [], none, [(sampleSecond, .ok ()), (sampleFirst, .ok ())]⟩ := by
  have one : World.Reached sampleHash World.Clean ⟨sampleModes1, [], none, []⟩ :=
    .step (.start sampleBegun_fit) clean_of_none (.mutation rfl (recordEntry_put 1 (by decide +kernel)))
  have units : undoUnits (sampleModes1.db.revertibleFor .user) = [[sampleEntry1]] := by decide +kernel
  have ask (waiting : List Task) (reached : World.Reached sampleHash World.Clean ⟨sampleModes1, waiting, none, []⟩) :
      World.Reached sampleHash World.Clean ⟨sampleModes1, sampleLone :: waiting, none, []⟩ := by
    rw [sampleLone, ← units]
    exact .step reached clean_of_none (.ask .user (.inl rfl))
  have asked := ask _ (ask _ one)
  have none_ : sampleModes1.db.undoneAmong (sampleLone.plan.flatten.map fun e => e.seq) = [] := by decide +kernel
  have turned : World.Reached sampleHash World.Clean ⟨sampleModes1, [sampleLone], some sampleLone, []⟩ := by
    have step := @World.Step.turn sampleHash ⟨sampleModes1, [sampleLone, sampleLone], none, []⟩ [] [sampleLone]
      sampleLone rfl rfl
    dsimp only at step
    rw [none_] at step
    exact .step asked clean_of_none step
  have whole : (validity [sampleEntry1] []).unit? = some [sampleEntry1] := by decide +kernel
  have lone : shape [sampleEntry1] = .single sampleEntry1 := by decide +kernel
  have begun : World.Reached sampleHash World.Clean ⟨sampleModes1, [sampleLone], some sampleFirstUp, []⟩ :=
    .step turned (clean_of_some id) (.work rfl (.begin rfl rfl whole rfl (.single lone)))
  have reverts : Reverts sampleHash .user none sampleEntry1 sampleModes1 (.ok .done) sampleModesBack :=
    sample_takes_back none 2 (by decide +kernel) (by decide +kernel) (recordEntry_put 2 (by decide +kernel))
  have first : World.Reached sampleHash World.Clean ⟨sampleModesBack, [sampleLone], some sampleFirst, []⟩ := by
    have held : sampleFirstUp.doing = .entry sampleEntry1 := rfl
    exact .step begun (clean_of_some id) (.work rfl (.entry held reverts))
  have ended : World.Reached sampleHash World.Clean ⟨sampleModesBack, [sampleLone], none, [(sampleFirst, .ok ())]⟩ :=
    .step first (clean_of_some id) (.finish rfl (.complete rfl rfl))
  have some_ : sampleModesBack.db.undoneAmong (sampleLone.plan.flatten.map fun e => e.seq) = [1] := by decide +kernel
  have late : World.Reached sampleHash World.Clean
      ⟨sampleModesBack, [], some sampleLate, [(sampleFirst, .ok ())]⟩ := by
    have step := @World.Step.turn sampleHash ⟨sampleModesBack, [sampleLone], none, [(sampleFirst, .ok ())]⟩ [] []
      sampleLone rfl rfl
    dsimp only at step
    rw [some_] at step
    exact .step ended clean_of_none step
  have undone : validity [sampleEntry1] [1] = .undone := by decide +kernel
  have second : World.Reached sampleHash World.Clean
      ⟨sampleModesBack, [], some sampleSecond, [(sampleFirst, .ok ())]⟩ :=
    .step late (clean_of_some id) (.work rfl (.skip rfl rfl undone))
  exact .step second (clean_of_some id) (.finish rfl (.complete rfl rfl))

theorem undos_overlap_sample : Single sampleModesBack.db ∧ sampleSecond.Accounted (.ok ()) ∧
    sampleSecond.tally.already = [sampleEntry1] ∧ sampleFirst.tally.undone = [sampleEntry1] := by
  obtain ⟨single, _, accounted⟩ := undos_overlap sampleHash _ sample_overlaps
  have already : sampleSecond.tally.already = [sampleEntry1] := by decide +kernel
  exact ⟨single, accounted (sampleSecond, .ok ()) List.mem_cons_self, already, rfl⟩

/-- The runs of the example. -/
abbrev Sampled (j : Journal) (turn : Option Task) : Prop :=
  World.Reached sampleHash (fun _ => True) ⟨j, [], turn, []⟩

theorem sampled_work {j j' : Journal} {t t' : Task} (sampled : Sampled j (some t))
    (step : Task.Step sampleHash j t j' (t', none)) : Sampled j' (some t') :=
  .step sampled trivial (@World.Step.work sampleHash ⟨j, [], some t, []⟩ t t' j' rfl step)

theorem sample_records_nothing (b : Sync.Behaviour) (batch : Option Int) (e : JournalEntry) (j : Journal)
    {r : Sync.Reverted} (row : recorded (Sync.revertEntry b .user batch e []).2 = [])
    (answer : (Sync.revertEntry b .user batch e []).1 = .ok r) : Reverts sampleHash .user batch e j (.ok r) j := by
  refine Reverts.of b answer ?_
  rw [row]
  exact .nil _

/-- The batch says that it was skipped, although an entry of it was refused; the undo goes
on below it, and ends as if nothing had been in its way. -/
theorem sample_crosses : World.Reached sampleHash (fun _ => True) ⟨sampleModes4, [], none, [(sampleUndone, .ok ())]⟩ := by
  have one : Sampled sampleModes1 none :=
    .step (.start sampleBegun_fit) trivial (.mutation rfl (recordEntry_put 1 (by decide +kernel)))
  have two : Sampled sampleModes2 none :=
    .step one trivial (.mutation rfl (recordEntry_put 2 (by decide +kernel)))
  have three : Sampled sampleModes3 none :=
    .step two trivial (.mutation rfl (recordEntry_put 3 (by decide +kernel)))
  have units : undoUnits (sampleModes3.db.revertibleFor .user) = [[sampleEntry3, sampleEntry2], [sampleEntry1]] := by
    decide +kernel
  have asked : World.Reached sampleHash (fun _ => True) ⟨sampleModes3, [sampleAsked], none, []⟩ := by
    rw [sampleAsked, ← units]
    exact .step three trivial (.ask .user (.inl rfl))
  have none_ : sampleModes3.db.undoneAmong (sampleAsked.plan.flatten.map fun e => e.seq) = [] := by decide +kernel
  have turned : Sampled sampleModes3 (some sampleAsked) := by
    have step := @World.Step.turn sampleHash ⟨sampleModes3, [sampleAsked], none, []⟩ [] [] sampleAsked rfl rfl
    dsimp only at step
    rw [none_] at step
    exact .step asked trivial step
  have begins : Begins .user [sampleEntry3, sampleEntry2] sampleEntry3 sampleModes3
      (.modeBatch (some 2) [sampleEntry3, sampleEntry2] [] []) sampleModesBatch := by
    have sorted : newestFirst [sampleEntry3, sampleEntry2] = [sampleEntry3, sampleEntry2] := by decide +kernel
    have begins := @Begins.mode .user [sampleEntry3, sampleEntry2] sampleEntry3 sampleModes3 2 sampleModesBatch
      (by decide +kernel) (by decide +kernel) (by decide +kernel)
    rw [sorted] at begins
    exact begins
  have begun : Sampled sampleModesBatch (some sampleBatchUp) :=
    sampled_work turned (.begin rfl rfl (by decide +kernel) rfl begins)
  have skips := sample_records_nothing (modes (.done ()) 4) (some 2) sampleEntry3 sampleModesBatch
    (r := .skippedIrreversible) (by decide +kernel) (by decide +kernel)
  have refuses := sample_records_nothing (modes (.failed .permissionDenied .notApplied) 4) (some 2) sampleEntry2
    sampleModesBatch (r := .blocked 2 .permissionDenied) (by decide +kernel) (by decide +kernel)
  have skip : Sync.Reverted.skippedIrreversible ≠ .done := by simp
  have block : Sync.Reverted.blocked 2 .permissionDenied ≠ .done := by simp
  have skipped : Sampled sampleModesBatch (some sampleSkipped) := sampled_work begun (.modeOther rfl skip skips)
  have refused : Sampled sampleModesBatch (some sampleRefused) := sampled_work skipped (.modeOther rfl block refuses)
  have answered : Sampled sampleModesBatch (some sampleAnswered) := by
    have held : sampleRefused.doing = .modeBatch (some 2) [] []
        [(sampleEntry3, .skippedIrreversible), (sampleEntry2, .blocked 2 .permissionDenied)] := rfl
    exact sampled_work refused (.modeEnd held)
  have crossed : Sampled sampleModesBatch (some sampleCrossed) := by
    have whole : (validity [sampleEntry1] []).unit? = some [sampleEntry1] := by decide +kernel
    have lone : shape [sampleEntry1] = .single sampleEntry1 := by decide +kernel
    have idle : sampleAnswered.doing = .between := rfl
    have due : sampleAnswered.units = [sampleEntry1] :: [] := rfl
    have none_ : sampleAnswered.alreadyUndone = [] := rfl
    rw [← none_] at whole
    exact sampled_work answered (.begin idle due whole rfl (.single lone))
  have undone : Sampled sampleModes4 (some sampleUndone) := by
    have reverts : Reverts sampleHash .user none sampleEntry1 sampleModesBatch (.ok .done) sampleModes4 :=
      sample_takes_back none 4 (by decide +kernel) (by decide +kernel) (recordEntry_put 4 (by decide +kernel))
    have held : sampleCrossed.doing = .entry sampleEntry1 := rfl
    have actor : sampleCrossed.actor = .user := rfl
    rw [← actor] at reverts
    exact sampled_work crossed (.entry held reverts)
  exact .step undone trivial (.finish rfl (.complete rfl rfl))

theorem skip_hides_block : ¬∀ w : World, World.Reached sampleHash (fun _ => True) w →
    Single w.journal.db ∧
    (∀ t ∈ w.tasks, t.Strict ∧ t.plan.Pairwise fun u v => ∃ m ∈ largestSeq u, ∃ n ∈ largestSeq v, n < m) ∧
    ∀ p ∈ w.ended, p.1.Accounted p.2 := by
  intro claimed
  obtain ⟨_, tasks, _⟩ := claimed _ sample_crosses
  have strict := (tasks sampleUndone (by simp [World.tasks])).1.2
  have barred : sampleUndone.met.tail = [([sampleEntry3, sampleEntry2], true)] := by decide +kernel
  rw [barred] at strict
  exact absurd (strict _ List.mem_cons_self) (by simp)

end Norte.Turns
