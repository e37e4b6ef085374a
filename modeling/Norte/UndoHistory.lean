import Norte.Compensation
import Norte.UndoTask

/-! Every interleaving of tasks writes a history of acts, of compensations of acts, and of
compensations that bring an act back, and nothing deeper. So what a reader finds
revertible is what is in force. -/
namespace Norte.Chain

open Hashing Utf8 Compensation

variable {sha256 : Bytes → Hash}

def Row.play (r : Row) : Compensation.Entry Int := ⟨r.seq, r.undoesSeq⟩

def World.history (w : World) : List (Compensation.Entry Int) := w.journal.db.mutations.map Row.play

theorem mem_history {w : World} {seq : Int} {undoes : Option Int} :
    ⟨seq, undoes⟩ ∈ w.history ↔ ∃ r ∈ w.journal.db.mutations, r.seq = seq ∧ r.undoesSeq = undoes := by
  rw [World.history, List.mem_map]
  refine exists_congr fun r => and_congr_right fun _ => ?_
  rw [Row.play, Entry.mk.injEq]

theorem mem_mutations {db : Database} {r : Row} : r ∈ db.mutations ↔ r ∈ db.rows ∧ 1 ≤ r.seq := by
  rw [Database.mutations, List.mem_filter, decide_eq_true_eq]

/-! What a recorded entry does to the history and to what is in force. -/

theorem target_of_mem {w : World} (plays : Plays w.history w.force) {seq : Int} {undoes : Option Int}
    (member : ⟨seq, undoes⟩ ∈ w.history) : w.journal.db.target seq = undoes := by
  obtain ⟨r, inside, same, own⟩ := mem_history.mp member
  obtain ⟨stored, positive⟩ := mem_mutations.mp inside
  have present : (w.journal.db.rows.find? fun r => r.seq = seq).isSome := by
    rw [List.find?_isSome]
    exact ⟨r, stored, by simpa using same⟩
  obtain ⟨s, found⟩ := Option.isSome_iff_exists.mp present
  have matched : s.seq = seq := by simpa using List.find?_some found
  have first : s ∈ w.journal.db.mutations :=
    mem_mutations.mpr ⟨List.mem_of_find?_eq_some found, by rw [matched, ← same]; exact positive⟩
  rw [Database.target, found, Option.bind_some]
  exact entry_unique plays.kept.distinct (mem_history.mpr ⟨s, first, matched, rfl⟩) member

/-- What a step adds to, and whose tasks it leaves alone. -/
structure World.Grows (w w' : World) : Prop where
  history : w.history ⊆ w'.history
  batches : w'.batches = w.batches
  asked : w'.asked = w.asked
  turn : w'.turn = w.turn

theorem World.Records.grows {w w' : World} {marker mutations : List Row}
    (sound : Sound sha256 w.journal marker mutations) {e : NewEntry} {seq : Int}
    (records : World.Records sha256 w e seq w') :
    w'.history = w.history ++ [⟨seq, e.undoesSeq⟩] ∧ seq ∉ ids w.history ∧
      w'.force = forceAfter w.journal.db w.force seq e.undoesSeq ∧ w.Grows w' := by
  obtain ⟨recorded⟩ := records
  rename_i tsMs j
  rcases recordEntry_cases sound e tsMs true with none | refused | written
  · rw [none] at recorded
    cases recorded
  · rw [refused] at recorded
    cases recorded
  rw [written] at recorded
  obtain ⟨answer, rfl⟩ := Prod.mk.inj (Option.some.inj recorded)
  obtain rfl := Except.ok.inj answer
  have longer : World.history { w with
      journal := ⟨{ w.journal.db with rows := w.journal.db.rows ++ [nextRow sha256 e tsMs w.journal] },
        { w.journal.chain with
          lastSeq := w.journal.chain.lastSeq + 1
          lastHash := (nextRow sha256 e tsMs w.journal).entryHash }⟩
      force := forceAfter w.journal.db w.force (w.journal.chain.lastSeq + 1) e.undoesSeq } =
      w.history ++ [⟨w.journal.chain.lastSeq + 1, e.undoesSeq⟩] := by
    rw [World.history, (sound.record e tsMs).chained.mutations, World.history, sound.chained.mutations,
      List.map_append]
    rfl
  refine ⟨longer, ?_, rfl, ?_, rfl, rfl, rfl⟩
  · rintro member
    obtain ⟨x, inside, same⟩ := List.mem_map.mp member
    obtain ⟨r, stored, rfl⟩ := List.mem_map.mp inside
    have := sound.below (mem_mutations.mp stored).1
    simp only [Row.play] at same
    omega
  · rw [longer]
    exact List.subset_append_left _ _

theorem World.Records.act {w w' : World} {marker mutations : List Row}
    (sound : Sound sha256 w.journal marker mutations) (plays : Plays w.history w.force) {e : NewEntry}
    {seq : Int} (records : World.Records sha256 w e seq w') (act : e.undoesSeq = none) :
    Plays w'.history w'.force ∧ ⟨seq, none⟩ ∈ w'.history ∧ w'.force = insert seq w.force := by
  obtain ⟨longer, fresh, force, _⟩ := records.grows sound
  rw [act] at longer force
  rw [longer, force]
  exact ⟨plays.act fresh, by simp, rfl⟩

theorem World.Records.takeBack {w w' : World} {marker mutations : List Row}
    (sound : Sound sha256 w.journal marker mutations) (plays : Plays w.history w.force) {e : NewEntry}
    {seq o : Int} (records : World.Records sha256 w e seq w') (target : e.undoesSeq = some o)
    (act : ⟨o, none⟩ ∈ w.history) (forced : o ∈ w.force) :
    Plays w'.history w'.force ∧ ⟨seq, some o⟩ ∈ w'.history ∧ w'.force = insert seq (w.force.erase o) := by
  obtain ⟨longer, fresh, force, _⟩ := records.grows sound
  rw [target, forceAfter] at force
  simp only [target_of_mem plays act] at force
  rw [target] at longer
  rw [longer, force]
  exact ⟨plays.takeBack fresh act forced, by simp, rfl⟩

theorem World.Records.restore {w w' : World} {marker mutations : List Row}
    (sound : Sound sha256 w.journal marker mutations) (plays : Plays w.history w.force) {e : NewEntry}
    {seq c o : Int} (records : World.Records sha256 w e seq w') (target : e.undoesSeq = some c)
    (comp : ⟨c, some o⟩ ∈ w.history) (act : ⟨o, none⟩ ∈ w.history) (forced : c ∈ w.force) :
    Plays w'.history w'.force ∧ w'.force = insert seq (insert o (w.force.erase c)) := by
  obtain ⟨longer, fresh, force, _⟩ := records.grows sound
  rw [target, forceAfter] at force
  simp only [target_of_mem plays comp] at force
  rw [target] at longer
  rw [longer, force]
  exact ⟨plays.restore fresh comp act forced, rfl⟩

/-! What the tasks know. -/

/-- A batch that was asked for: it takes nothing back, and if it unwinds, its own acts. -/
structure Batch.Forward (history : List (Compensation.Entry Int)) (b : Batch) : Prop where
  pending : ∀ u ∈ b.pending, u = none
  applied : ∀ s ∈ b.applied, ⟨s, none⟩ ∈ history

/-- The undo of a batch: it takes acts back, and its own compensations stay in force
unless it unwinds them. -/
structure Batch.Backward (history : List (Compensation.Entry Int)) (force : Finset Int) (b : Batch) :
    Prop where
  pending : ∀ u ∈ b.pending, ∃ o, u = some o ∧ ⟨o, none⟩ ∈ history
  applied : ∀ s ∈ b.applied, s ∈ force ∧ ∃ o, ⟨s, some o⟩ ∈ history ∧ ⟨o, none⟩ ∈ history
  distinct : b.applied.Nodup

def Acts (history : List (Compensation.Entry Int)) (unit : List JournalEntry) : Prop :=
  ∀ e ∈ unit, ⟨e.seq, none⟩ ∈ history

def Doing.Knows (history : List (Compensation.Entry Int)) (force : Finset Int) : Doing → Prop
  | between => True
  | entries _ rest => Acts history rest
  | chain b => b.Backward history force

structure Undo.Knows (history : List (Compensation.Entry Int)) (force : Finset Int) (u : Undo) : Prop where
  units : ∀ unit ∈ u.units, Acts history unit
  doing : u.doing.Knows history force

/-- What holds of every world. -/
structure World.Told (w : World) : Prop where
  plays : Plays w.history w.force
  batches : ∀ b ∈ w.batches, b.Forward w.history
  asked : ∀ a ∈ w.asked, ∀ unit ∈ a.2, Acts w.history unit
  turn : ∀ u ∈ w.turn, u.Knows w.history w.force

theorem Batch.Forward.mono {history history' : List (Compensation.Entry Int)} {b : Batch}
    (forward : b.Forward history) (grows : history ⊆ history') : b.Forward history' :=
  ⟨forward.pending, fun s member => grows (forward.applied s member)⟩

theorem Acts.mono {history history' : List (Compensation.Entry Int)} {unit : List JournalEntry}
    (acts : Acts history unit) (grows : history ⊆ history') : Acts history' unit :=
  fun e member => grows (acts e member)

/-- Compensations that were in force still are. -/
def Spares (history : List (Compensation.Entry Int)) (force force' : Finset Int) : Prop :=
  ∀ c o, ⟨c, some o⟩ ∈ history → c ∈ force → c ∈ force'

theorem Undo.Knows.mono {history history' : List (Compensation.Entry Int)} {force force' : Finset Int}
    {u : Undo} (knows : u.Knows history force) (grows : history ⊆ history')
    (spares : Spares history force force') : u.Knows history' force' := by
  refine ⟨fun unit member => (knows.units unit member).mono grows, ?_⟩
  have doing := knows.doing
  cases own : u.doing with
  | between => trivial
  | entries batch rest =>
    rw [own] at doing
    exact Acts.mono doing grows
  | chain b =>
    rw [own] at doing
    refine ⟨fun v member => ?_, fun s member => ?_, doing.distinct⟩
    · obtain ⟨o, same, act⟩ := doing.pending v member
      exact ⟨o, same, grows act⟩
    · obtain ⟨forced, o, comp, act⟩ := doing.applied s member
      exact ⟨spares s o comp forced, o, grows comp, grows act⟩

theorem spares_insert (history : List (Compensation.Entry Int)) (force : Finset Int) (seq : Int) :
    Spares history force (insert seq force) := fun _ _ _ forced => Finset.mem_insert_of_mem forced

/-- An act is no compensation. -/
theorem spares_erase {history : List (Compensation.Entry Int)} {force : Finset Int}
    (plays : Plays history force) {seq o : Int} (act : ⟨o, none⟩ ∈ history) :
    Spares history force (insert seq (force.erase o)) := by
  intro c x comp forced
  refine Finset.mem_insert_of_mem (Finset.mem_erase.mpr ⟨?_, forced⟩)
  rintro rfl
  cases entry_unique plays.kept.distinct act comp

/-- A step that spares the compensations changes only the task it is of. -/
theorem World.Told.others {w w' : World} (told : w.Told) (grows : w.Grows w')
    (plays : Plays w'.history w'.force) (spares : Spares w.history w.force w'.force) : w'.Told where
  plays := plays
  batches b member := by
    rw [grows.batches] at member
    exact (told.batches b member).mono grows.history
  asked a member unit inside := by
    rw [grows.asked] at member
    exact (told.asked a member unit inside).mono grows.history
  turn u held := by
    rw [grows.turn] at held
    exact (told.turn u held).mono grows.history spares

theorem World.Grows.refl (w : World) : w.Grows w := ⟨List.Subset.refl _, rfl, rfl, rfl⟩

/-- A step of a batch that was asked for. -/
theorem Batch.Steps.forward {w w' : World} {marker mutations : List Row} {b b' : Batch}
    (sound : Sound sha256 w.journal marker mutations) (told : w.Told) (forward : b.Forward w.history)
    (steps : Batch.Steps sha256 w b b' w') : w'.Told ∧ b'.Forward w'.history ∧ w.Grows w' := by
  cases steps with
  | @ahead undoes pending fromPath toPath seq _ _ due _ records =>
    obtain rfl : undoes = none := forward.pending undoes (by rw [due]; exact List.mem_cons_self)
    obtain ⟨plays, act, force⟩ := records.act sound told.plays rfl
    obtain ⟨_, _, _, grows⟩ := records.grows sound
    refine ⟨told.others grows plays (by rw [force]; apply spares_insert), ⟨?_, ?_⟩, grows⟩
    · intro u member
      exact forward.pending u (by rw [due]; exact List.mem_cons_of_mem _ member)
    · intro s member
      rcases List.mem_cons.mp member with rfl | early
      · exact act
      · exact grows.history (forward.applied s early)
  | fail => exact ⟨told, ⟨forward.pending, forward.applied⟩, .refl w⟩
  | @back s applied fromPath toPath seq _ _ last there records =>
    have act := forward.applied s (by rw [last]; exact List.mem_cons_self)
    have forced := there (target_of_mem told.plays act)
    obtain ⟨plays, _, force⟩ := records.takeBack sound told.plays rfl act forced
    obtain ⟨_, _, _, grows⟩ := records.grows sound
    refine ⟨told.others grows plays ?_, ⟨forward.pending, ?_⟩, grows⟩
    · rw [force]
      exact spares_erase told.plays act
    · intro t member
      exact grows.history (forward.applied t (by rw [last]; exact List.mem_cons_of_mem _ member))

/-- A step of the undo of a batch. What it restores is its own. -/
theorem Batch.Steps.backward {w w' : World} {marker mutations : List Row} {b b' : Batch}
    (sound : Sound sha256 w.journal marker mutations) (plays : Plays w.history w.force)
    (backward : b.Backward w.history w.force) (steps : Batch.Steps sha256 w b b' w') :
    Plays w'.history w'.force ∧ b'.Backward w'.history w'.force ∧ w.Grows w' := by
  cases steps with
  | @ahead undoes pending fromPath toPath seq _ _ due there records =>
    obtain ⟨o, rfl, act⟩ := backward.pending undoes (by rw [due]; exact List.mem_cons_self)
    have forced := there o rfl
    obtain ⟨plays', comp, force⟩ := records.takeBack sound plays rfl act forced
    obtain ⟨_, fresh, _, grows⟩ := records.grows sound
    have spares : Spares w.history w.force (insert seq (w.force.erase o)) := spares_erase plays act
    refine ⟨plays', ⟨?_, ?_, ?_⟩, grows⟩
    · intro u member
      obtain ⟨x, same, inside⟩ := backward.pending u (by rw [due]; exact List.mem_cons_of_mem _ member)
      exact ⟨x, same, grows.history inside⟩
    · intro s member
      rw [force]
      rcases List.mem_cons.mp member with rfl | early
      · exact ⟨Finset.mem_insert_self .., o, comp, grows.history act⟩
      · obtain ⟨held, x, inside, target⟩ := backward.applied s early
        exact ⟨spares s x inside held, x, grows.history inside, grows.history target⟩
    · refine List.nodup_cons.mpr ⟨fun early => ?_, backward.distinct⟩
      obtain ⟨_, x, inside, _⟩ := backward.applied seq early
      exact fresh (mem_ids inside)
  | fail => exact ⟨plays, ⟨backward.pending, backward.applied, backward.distinct⟩, .refl w⟩
  | @back c applied fromPath toPath seq _ _ last _ records =>
    have distinct := backward.distinct
    rw [last] at distinct
    obtain ⟨apart, distinct⟩ := List.nodup_cons.mp distinct
    obtain ⟨forced, o, comp, act⟩ := backward.applied c (by rw [last]; exact List.mem_cons_self)
    obtain ⟨plays', force⟩ := records.restore sound plays rfl comp act forced
    obtain ⟨_, _, _, grows⟩ := records.grows sound
    refine ⟨plays', ⟨?_, ?_, distinct⟩, grows⟩
    · intro u member
      obtain ⟨x, same, inside⟩ := backward.pending u member
      exact ⟨x, same, grows.history inside⟩
    · intro s member
      obtain ⟨held, x, inside, target⟩ := backward.applied s (by rw [last]; exact List.mem_cons_of_mem _ member)
      have other : s ≠ c := fun same => apart (same ▸ member)
      refine ⟨?_, x, grows.history inside, grows.history target⟩
      rw [force]
      exact Finset.mem_insert_of_mem (Finset.mem_insert_of_mem (Finset.mem_erase.mpr ⟨other, held⟩))

/-- A row of the journal that takes nothing back is an act. -/
theorem acts_revertible (w : World) (target : Actor) :
    Acts w.history (w.journal.db.revertibleFor target) := by
  intro e member
  obtain ⟨r, stored, rfl, positive, act, _⟩ := mem_revertibleFor.mp member
  exact mem_history.mpr ⟨r, mem_mutations.mpr ⟨stored, positive⟩, rfl, act⟩

theorem Acts.undoUnits {history : List (Compensation.Entry Int)} {entries : List JournalEntry}
    (acts : Acts history entries) : ∀ unit ∈ undoUnits entries, Acts history unit := by
  intro unit member
  rcases mem_undoUnits.mp member with ⟨e, inside, _, rfl⟩ | ⟨b, _, rfl⟩
  · intro x here
    rw [List.mem_singleton.mp here]
    exact acts e inside
  · intro x here
    exact acts x (List.mem_filter.mp here).1

theorem Acts.revertUnit {history : List (Compensation.Entry Int)} {force : Finset Int}
    {unit : List JournalEntry} (acts : Acts history unit) {actor : Actor} {j j' : Journal} {doing : Doing}
    (chosen : revertUnit actor unit j = some (doing, j')) : doing.Knows history force := by
  unfold Chain.revertUnit at chosen
  split at chosen
  · obtain ⟨given, _, same⟩ := Option.map_eq_some_iff.mp chosen
    obtain ⟨rfl, _⟩ := Prod.mk.inj same
    intro e member
    exact acts e (List.mem_mergeSort.mp member)
  · split at chosen
    next e =>
      obtain ⟨rfl, _⟩ := Prod.mk.inj (Option.some.inj chosen)
      exact acts
    next =>
      obtain ⟨given, _, same⟩ := Option.map_eq_some_iff.mp chosen
      obtain ⟨rfl, _⟩ := Prod.mk.inj same
      refine ⟨fun u member => ?_, by simp, List.nodup_nil⟩
      obtain ⟨e, inside, rfl⟩ := List.mem_map.mp member
      exact ⟨e.seq, rfl, acts e inside⟩

/-- The journal gives a batch id, if any, and nothing else. -/
theorem revertUnit_journal {actor : Actor} {unit : List JournalEntry} {j j' : Journal} {doing : Doing}
    (chosen : revertUnit actor unit j = some (doing, j')) :
    j' = j ∨ ∃ id, allocBatch j = some (id, j') := by
  have taken {f : Int × Journal → Doing}
      (some_ : (allocBatch j).map (fun given => (f given, given.2)) = some (doing, j')) :
      ∃ id, allocBatch j = some (id, j') := by
    obtain ⟨⟨id, k⟩, given, same⟩ := Option.map_eq_some_iff.mp some_
    obtain ⟨_, rfl⟩ := Prod.mk.inj same
    exact ⟨id, given⟩
  unfold revertUnit at chosen
  split at chosen
  · exact .inr (taken chosen)
  · split at chosen
    · exact .inl (Prod.mk.inj (Option.some.inj chosen)).2.symm
    · exact .inr (taken chosen)

/-- The undo that has its turn goes on; nothing else moves. -/
theorem World.Told.turned {w : World} (told : w.Told) {u : Undo} (knows : u.Knows w.history w.force) :
    World.Told { w with turn := some u } :=
  ⟨told.plays, told.batches, told.asked, by rintro _ ⟨⟩; exact knows⟩

theorem allocBatch_db {j j' : Journal} {id : Int} (given : allocBatch j = some (id, j')) : j'.db = j.db := by
  obtain ⟨_, rfl⟩ := allocBatch_eq_some given
  rfl

theorem history_alloc {w : World} {id : Int} {j : Journal} (given : allocBatch w.journal = some (id, j))
    (batches : List Batch) (asked : List (Actor × List (List JournalEntry))) (turn : Option Undo) :
    World.history ⟨j, w.force, batches, asked, turn⟩ = w.history := by
  rw [World.history, allocBatch_db given]
  rfl

theorem history_revert {w : World} {actor : Actor} {unit : List JournalEntry} {doing : Doing} {j : Journal}
    (chosen : revertUnit actor unit w.journal = some (doing, j)) (turn : Option Undo) :
    World.history { w with journal := j, turn := turn } = w.history := by
  obtain rfl | ⟨id, given⟩ := revertUnit_journal chosen
  · rfl
  · exact history_alloc given w.batches w.asked turn

/-- Every step keeps what holds. -/
theorem World.Step.told {w w' : World} {marker mutations : List Row}
    (sound : Sound sha256 w.journal marker mutations) (told : w.Told) (step : World.Step sha256 w w') :
    w'.Told := by
  cases step with
  | mutation act records =>
    obtain ⟨plays, _, force⟩ := records.act sound told.plays act
    obtain ⟨_, _, _, grows⟩ := records.grows sound
    apply told.others grows plays
    rw [force]
    apply spares_insert
  | @begin id j actor steps given =>
    have same := history_alloc given (⟨actor, id, List.replicate steps none, [], false⟩ :: w.batches)
      w.asked w.turn
    refine ⟨by rw [same]; exact told.plays, ?_, by rw [same]; exact told.asked, by rw [same]; exact told.turn⟩
    intro b member
    rw [same]
    rcases List.mem_cons.mp member with rfl | early
    · exact ⟨fun u => List.eq_of_mem_replicate, by simp⟩
    · exact told.batches b early
  | @batch before after b b' w' here steps =>
    have forward : b.Forward w.history := told.batches b (by rw [here]; simp)
    obtain ⟨told', forward', grows⟩ := steps.forward sound told forward
    refine ⟨told'.plays, ?_, told'.asked, told'.turn⟩
    intro x member
    rcases List.mem_append.mp member with early | late
    · exact told'.batches x (by rw [grows.batches, here]; exact List.mem_append_left _ early)
    · rcases List.mem_cons.mp late with rfl | later
      · exact forward'
      · exact told'.batches x (by
          rw [grows.batches, here]
          exact List.mem_append_right _ (List.mem_cons_of_mem _ later))
  | @leave before after b here =>
    refine ⟨told.plays, ?_, told.asked, told.turn⟩
    intro x member
    apply told.batches x
    rw [here]
    rcases List.mem_append.mp member with early | late
    · exact List.mem_append_left _ early
    · exact List.mem_append_right _ (List.mem_cons_of_mem _ late)
  | @ask target entries executor drawn =>
    refine ⟨told.plays, told.batches, ?_, told.turn⟩
    intro a member unit inside
    rcases List.mem_cons.mp member with rfl | early
    · have acts : Acts w.history entries := fun e here => acts_revertible w target e (drawn.subset here)
      exact acts.undoUnits unit inside
    · exact told.asked a early unit inside
  | @turn before after actor units _ here =>
    have known : ∀ a ∈ before ++ after, ∀ unit ∈ a.2, Acts w.history unit := by
      intro a member
      apply told.asked a
      rw [here]
      rcases List.mem_append.mp member with early | late
      · exact List.mem_append_left _ early
      · exact List.mem_append_right _ (List.mem_cons_of_mem _ late)
    refine ⟨told.plays, told.batches, known, ?_⟩
    rintro _ ⟨⟩
    exact ⟨told.asked (actor, units) (by rw [here]; simp), trivial⟩
  | skip held =>
    have knows := told.turn _ held
    exact told.turned ⟨fun x member => knows.units x (List.mem_cons_of_mem _ member), trivial⟩
  | @revert actor undone unit left units doing j held valid chosen =>
    have knows := told.turn _ held
    have acts : Acts w.history left := fun e member =>
      knows.units unit List.mem_cons_self e (validity_subset valid member)
    have same := history_revert chosen (some ⟨actor, undone, units, doing⟩)
    refine ⟨by rw [same]; exact told.plays, by rw [same]; exact told.batches, by rw [same]; exact told.asked, ?_⟩
    rintro _ ⟨⟩
    rw [same]
    exact ⟨fun x member => knows.units x (List.mem_cons_of_mem _ member), acts.revertUnit chosen⟩
  | @entry actor undone units batch e rest observed c seq w' held found forced records =>
    have knows := told.turn _ held
    have act : ⟨e.seq, none⟩ ∈ w.history := knows.doing e List.mem_cons_self
    obtain ⟨plays, _, force⟩ := records.takeBack sound told.plays (compensation_undoes found) act forced
    obtain ⟨_, _, _, grows⟩ := records.grows sound
    have told' : w'.Told := told.others grows plays (by rw [force]; exact spares_erase told.plays act)
    have rest' : Acts w.history rest := fun x member => knows.doing x (List.mem_cons_of_mem _ member)
    exact told'.turned ⟨fun x member => (knows.units x member).mono grows.history, rest'.mono grows.history⟩
  | @pass actor undone units batch e rest held =>
    have knows := told.turn _ held
    exact told.turned ⟨knows.units, fun x member => knows.doing x (List.mem_cons_of_mem _ member)⟩
  | @chain actor undone units b b' w' held steps =>
    have knows := told.turn _ held
    obtain ⟨plays, backward, grows⟩ := steps.backward sound told.plays knows.doing
    refine ⟨plays, ?_, ?_, ?_⟩
    · intro x member
      rw [grows.batches] at member
      exact (told.batches x member).mono grows.history
    · intro a member unit inside
      rw [grows.asked] at member
      exact (told.asked a member unit inside).mono grows.history
    · rintro _ ⟨⟩
      exact ⟨fun x member => (knows.units x member).mono grows.history, backward⟩
  | next held =>
    have knows := told.turn _ held
    exact told.turned ⟨knows.units, trivial⟩
  | stop => exact ⟨told.plays, told.batches, told.asked, by simp⟩
  | reopen tsMs =>
    obtain ⟨_, opened⟩ := sound.chained.open tsMs
    have same : World.history ⟨fromOptions sha256 tsMs w.journal.db, w.force, [], [], none⟩ = w.history := by
      rw [World.history, opened.chained.mutations, World.history, sound.chained.mutations]
    refine ⟨by rw [same]; exact told.plays, by simp, by simp, by simp⟩

theorem World.Records.run {w w' : World} {e : NewEntry} {seq : Int} {handed : List Int}
    (records : World.Records sha256 w e seq w') (run : Run sha256 Retrospective w.journal handed)
    (known : ∀ t ∈ e.undoesSeq, t ∈ ids w.history) : Run sha256 Retrospective w'.journal handed := by
  obtain ⟨marker, mutations, sound⟩ := run.sound
  obtain ⟨recorded⟩ := records
  refine .record run (fun t target => ?_) recorded
  obtain ⟨x, inside, same⟩ := List.mem_map.mp (known t target)
  obtain ⟨r, stored, rfl⟩ := List.mem_map.mp inside
  have := sound.below (mem_mutations.mp stored).1
  simp only [Row.play] at same
  omega

theorem Batch.Steps.run {w w' : World} {b b' : Batch} {handed : List Int}
    (steps : Batch.Steps sha256 w b b' w') (run : Run sha256 Retrospective w.journal handed)
    (pending : ∀ u ∈ b.pending, ∀ t ∈ u, t ∈ ids w.history) (applied : ∀ s ∈ b.applied, s ∈ ids w.history) :
    Run sha256 Retrospective w'.journal handed := by
  cases steps with
  | @ahead undoes _ _ _ _ _ _ due _ records =>
    apply records.run run
    exact pending undoes (by rw [due]; exact List.mem_cons_self)
  | fail => exact run
  | @back s _ _ _ _ _ _ last _ records =>
    apply records.run run
    rintro t ⟨⟩
    exact applied s (by rw [last]; exact List.mem_cons_self)

/-- What a step does to the journal is a run of it. -/
theorem World.Step.run {w w' : World} {handed : List Int} (run : Run sha256 Retrospective w.journal handed)
    (told : w.Told) (step : World.Step sha256 w w') : ∃ handed, Run sha256 Retrospective w'.journal handed := by
  cases step with
  | mutation act records => exact ⟨_, records.run run (by simp [act])⟩
  | begin _ _ given => exact ⟨_, .allocBatch run given⟩
  | @batch _ _ b _ _ here steps =>
    have forward := told.batches b (by rw [here]; simp)
    refine ⟨_, steps.run run (fun u member t target => ?_) fun s member => mem_ids (forward.applied s member)⟩
    rw [forward.pending u member] at target
    cases target
  | @revert _ _ _ _ _ _ _ _ _ chosen =>
    obtain rfl | ⟨id, given⟩ := revertUnit_journal chosen
    · exact ⟨handed, run⟩
    · exact ⟨_, .allocBatch run given⟩
  | @entry _ _ _ _ e _ _ c _ _ held found _ records =>
    refine ⟨_, records.run run fun t target => ?_⟩
    rw [compensation_undoes found] at target
    obtain rfl := Option.some.inj target
    exact mem_ids ((told.turn _ held).doing e List.mem_cons_self)
  | @chain _ _ _ b _ _ held steps =>
    have backward : b.Backward w.history w.force := (told.turn _ held).doing
    refine ⟨_, steps.run run (fun u member t target => ?_) fun s member => ?_⟩
    · obtain ⟨o, rfl, act⟩ := backward.pending u member
      obtain rfl := Option.some.inj target
      exact mem_ids act
    · obtain ⟨_, o, comp, _⟩ := backward.applied s member
      exact mem_ids comp
  | reopen tsMs => exact ⟨_, .reopen tsMs run⟩
  | leave _ => exact ⟨handed, run⟩
  | ask _ _ => exact ⟨handed, run⟩
  | turn _ _ => exact ⟨handed, run⟩
  | skip _ => exact ⟨handed, run⟩
  | pass _ => exact ⟨handed, run⟩
  | next _ => exact ⟨handed, run⟩
  | stop => exact ⟨handed, run⟩

/-- What holds of every world, and of its journal. -/
theorem World.Reached.told {w : World} (reached : World.Reached sha256 w) :
    (∃ handed, Run sha256 Retrospective w.journal handed) ∧ w.Told := by
  induction reached with
  | fresh tsMs =>
    have empty : World.history ⟨openInMemory sha256 tsMs, ∅, [], [], none⟩ = [] := rfl
    exact ⟨⟨[], .fresh tsMs⟩, by rw [empty]; exact .start, by simp, by simp, by simp⟩
  | older => exact ⟨⟨[], .older⟩, .start, by simp, by simp, by simp⟩
  | step _ step ih =>
    obtain ⟨⟨handed, run⟩, told⟩ := ih
    obtain ⟨marker, mutations, sound⟩ := run.sound
    exact ⟨step.run run told, step.told sound told⟩

/-! What the readers see. -/

/-- The compensations of an entry, and whether an entry was itself taken back. -/
def Database.compensations (db : Database) (seq : Int) : List Row :=
  db.rows.filter fun c => c.undoesSeq = some seq

def Database.rolledBack (db : Database) (seq : Int) : Bool := db.rows.any fun d => d.undoesSeq = some seq

/-- The marker takes nothing back and is nobody's. -/
theorem mutation_of_row {w : World} {marker mutations : List Row}
    (sound : Sound sha256 w.journal marker mutations) {r : Row} (stored : r ∈ w.journal.db.rows)
    (mutation : r.undoesSeq.isSome ∨ r.actorKind ≠ formatActorKind) : r ∈ w.journal.db.mutations := by
  rw [sound.chained.mutations]
  rw [sound.chained.rows] at stored
  rcases List.mem_append.mp stored with metadata | history
  · rcases sound.chained.marked with rfl | ⟨tsMs, rfl⟩
    · cases metadata
    · rw [List.mem_singleton.mp metadata] at mutation
      rcases mutation with some_ | other
      · cases some_
      · exact absurd rfl other
  · exact history

theorem actor_not_format (actor : Actor) : actor.parts.1 ≠ formatActorKind := by
  cases actor with
  | user => decide
  | agent _ => exact (by decide : "agent".toList ≠ formatActorKind)
  | plugin _ => exact (by decide : "plugin".toList ≠ formatActorKind)

theorem rolledBack_iff {w : World} {marker mutations : List Row}
    (sound : Sound sha256 w.journal marker mutations) {seq : Int} :
    w.journal.db.rolledBack seq ↔ Undone w.history seq := by
  rw [Database.rolledBack, List.any_eq_true]
  constructor
  · rintro ⟨d, stored, target⟩
    have target := of_decide_eq_true target
    exact ⟨d.seq, mem_history.mpr ⟨d, mutation_of_row sound stored (.inl (by rw [target]; rfl)), rfl, target⟩⟩
  · rintro ⟨e, member⟩
    obtain ⟨d, inside, _, target⟩ := mem_history.mp member
    exact ⟨d, (mem_mutations.mp inside).1, decide_eq_true target⟩

theorem colUndone_iff {w : World} {marker mutations : List Row}
    (sound : Sound sha256 w.journal marker mutations) {seq : Int} :
    w.journal.db.colUndone seq ↔ LivelyUndone w.history seq := by
  rw [Database.colUndone, decide_eq_true_eq, mem_liveTargets]
  have live (c : Row) : (∀ d ∈ w.journal.db.rows, d.undoesSeq ≠ some c.seq) ↔ ¬Undone w.history c.seq := by
    rw [← rolledBack_iff sound, Database.rolledBack, List.any_eq_true]
    simp
  constructor
  · rintro ⟨c, stored, target, free⟩
    exact ⟨c.seq, mem_history.mpr ⟨c, mutation_of_row sound stored (.inl (by rw [target]; rfl)), rfl, target⟩,
      (live c).mp free⟩
  · rintro ⟨e, member, free⟩
    obtain ⟨c, inside, rfl, target⟩ := mem_history.mp member
    exact ⟨c, (mem_mutations.mp inside).1, target, (live c).mpr free⟩

/-- Whatever the tasks did, an entry that takes nothing back is revertible exactly while
it is in force: while every compensation of it was rolled back. The flag of a page and
the recheck of an undo say the opposite. -/
theorem revertible_iff_in_force (sha256 : Bytes → Hash) (w : World) (reached : World.Reached sha256 w)
    (r : Row) (stored : r ∈ w.journal.db.rows) (act : r.undoesSeq = none) (actor : Actor)
    (own : (r.actorKind, r.actorId) = actor.parts) :
    (r.entry ∈ w.journal.db.revertibleFor actor ↔ r.seq ∈ w.force) ∧
    (r.seq ∈ w.force ↔ (w.journal.db.compensations r.seq).length =
      ((w.journal.db.compensations r.seq).filter fun c => w.journal.db.rolledBack c.seq).length) ∧
    (∀ c ∈ w.journal.db.compensations r.seq, (w.journal.db.rolledBack c.seq ↔ c.seq ∉ w.force)) ∧
    (∀ beforeSeq limit actorKind, ∀ p ∈ w.journal.db.page beforeSeq limit actorKind,
      p.entry.seq = r.seq → (p.undone ↔ r.seq ∉ w.force)) ∧
    (∀ seqs, r.seq ∈ seqs → (r.seq ∈ w.journal.db.undoneAmong seqs ↔ r.seq ∉ w.force)) := by
  obtain ⟨⟨handed, run⟩, told⟩ := reached.told
  obtain ⟨marker, mutations, sound⟩ := run.sound
  have plays := told.plays
  obtain ⟨kind, id⟩ := Prod.mk.inj own
  have mutation : r ∈ w.journal.db.mutations :=
    mutation_of_row sound stored (.inr (by rw [kind]; exact actor_not_format actor))
  have played : ⟨r.seq, none⟩ ∈ w.history := mem_history.mpr ⟨r, mutation, rfl, act⟩
  have undone : w.journal.db.colUndone r.seq ↔ r.seq ∉ w.force := by
    rw [colUndone_iff sound, plays.mem_iff played, not_not]
  have rolled (c : Row) (member : c ∈ w.journal.db.compensations r.seq) :
      w.journal.db.rolledBack c.seq ↔ c.seq ∉ w.force := by
    obtain ⟨inside, target⟩ := List.mem_filter.mp member
    have target := of_decide_eq_true target
    have comp : ⟨c.seq, some r.seq⟩ ∈ w.history :=
      mem_history.mpr ⟨c, mutation_of_row sound inside (.inl (by rw [target]; rfl)), rfl, target⟩
    rw [rolledBack_iff sound, plays.kept.compensations c.seq r.seq comp played, not_not]
  refine ⟨?_, ?_, rolled, ?_, ?_⟩
  · rw [mem_revertibleFor]
    constructor
    · rintro ⟨s, _, same, _, _, _, _, free⟩
      have seqs : s.seq = r.seq := congrArg (fun e : JournalEntry => e.seq) same
      rw [seqs] at free
      by_contra out
      rw [undone.mpr out] at free
      cases free
    · intro forced
      refine ⟨r, stored, rfl, (mem_mutations.mp mutation).2, act, kind, id, ?_⟩
      rw [Bool.eq_false_iff, Ne, undone, not_not]
      exact forced
  · rw [eq_comm, List.length_filter_eq_length_iff, ← not_iff_not, ← undone, Database.colUndone,
      decide_eq_true_eq, mem_liveTargets]
    simp [Database.compensations, Database.rolledBack]
  · intro beforeSeq limit actorKind p member same
    obtain ⟨s, _, rfl⟩ := mem_page member
    have seqs : s.seq = r.seq := same
    rw [← undone, ← seqs]
  · intro seqs asked
    rw [mem_undoneAmong, ← undone]
    exact ⟨fun answer => answer.2.2, fun col => ⟨asked, ⟨r, stored, rfl⟩, col⟩⟩

/-- The journal with one more entry, if it takes it. -/
def put (e : NewEntry) (j : Journal) : Journal := ((recordEntry sampleHash e 7 true j).map Prod.snd).getD j

theorem recordEntry_put {e : NewEntry} {j : Journal} (seq : Int)
    (taken : (recordEntry sampleHash e 7 true j).map Prod.fst = some (.ok seq)) :
    recordEntry sampleHash e 7 true j = some (.ok seq, put e j) := by
  obtain ⟨⟨answer, j'⟩, recorded, rfl⟩ := Option.map_eq_some_iff.mp taken
  rw [put, recorded]
  rfl

/-- A batch of two renames, and its undo. -/
def sampleBatch : Batch := ⟨.user, 1, [none, none], [], false⟩

def sampleUndo : Batch := ⟨.user, 2, [some 2, some 1], [], false⟩

def sampleStart : Journal := openInMemory sampleHash 7

def sampleBegun : Journal := { sampleStart with chain := { sampleStart.chain with batchCounter := 1 } }

def sampleOne : Journal := put (sampleBatch.renamed [97] [98] none) sampleBegun

def sampleTwo : Journal := put (sampleBatch.renamed [98] [99] none) sampleOne

def sampleTurn : Journal := { sampleTwo with chain := { sampleTwo.chain with batchCounter := 2 } }

def sampleTaken : Journal := put (sampleUndo.renamed [99] [98] (some 2)) sampleTurn

def sampleRolled : Journal := put (sampleUndo.renamed [98] [99] (some 3)) sampleTaken

def sampleUnit : List JournalEntry := sampleTwo.db.revertibleFor .user

def sampleTurned (doing : Doing) : Option Undo := some ⟨.user, [], [], doing⟩

theorem sample_batch {journal j : Journal} {force : Finset Int} {pending : List (Option Int)}
    {applied : List Int} {fromPath toPath : Bytes} {seq : Int}
    (reached : World.Reached sampleHash ⟨journal, force, [⟨.user, 1, none :: pending, applied, false⟩], [], none⟩)
    (recorded : recordEntry sampleHash (sampleBatch.renamed fromPath toPath none) 7 true journal =
      some (.ok seq, j)) : World.Reached sampleHash
        ⟨j, insert seq force, [⟨.user, 1, pending, seq :: applied, false⟩], [], none⟩ := by
  have records : World.Records sampleHash
      ⟨journal, force, [⟨.user, 1, none :: pending, applied, false⟩], [], none⟩
      (sampleBatch.renamed fromPath toPath none) seq _ := .intro recorded
  have steps := Batch.Steps.ahead (b := ⟨.user, 1, none :: pending, applied, false⟩) rfl rfl (by simp) records
  exact reached.step (@World.Step.batch _ _ [] [] _ _ _ rfl steps)

/-- The batch runs, its undo takes the second step back, fails, and rolls that back. -/
theorem sampleRolled_reached : World.Reached sampleHash ⟨sampleRolled, {4, 2, 1}, [], [],
    sampleTurned (.chain ⟨.user, 2, [some 1], [], true⟩)⟩ := by
  have begun : World.Reached sampleHash ⟨sampleBegun, ∅, [sampleBatch], [], none⟩ :=
    .step (.fresh 7) (.begin .user 2 (by decide +kernel))
  have two : World.Reached sampleHash ⟨sampleTwo, {2, 1}, [⟨.user, 1, [], [2, 1], false⟩], [], none⟩ :=
    sample_batch (sample_batch begun (recordEntry_put 1 (by decide +kernel)))
      (recordEntry_put 2 (by decide +kernel))
  have left : World.Reached sampleHash ⟨sampleTwo, {2, 1}, [], [], none⟩ :=
    two.step (@World.Step.leave _ _ [] [] _ rfl)
  have drawn : sampleUnit.Sublist (sampleTwo.db.revertibleFor .user) := List.Sublist.refl _
  have unit : undoUnits sampleUnit = [sampleUnit] := by decide +kernel
  have asked : World.Reached sampleHash ⟨sampleTwo, {2, 1}, [], [(.user, [sampleUnit])], none⟩ := by
    rw [← unit]
    exact left.step (.ask .user drawn)
  have fresh : sampleTwo.db.undoneAmong ([sampleUnit].flatten.map fun e => e.seq) = [] := by decide +kernel
  have turned : World.Reached sampleHash ⟨sampleTwo, {2, 1}, [], [],
      some ⟨.user, [], [sampleUnit], .between⟩⟩ := by
    rw [← fresh]
    exact asked.step (@World.Step.turn _ _ [] [] _ _ rfl rfl)
  have chosen : revertUnit .user sampleUnit sampleTwo = some (.chain sampleUndo, sampleTurn) := by decide +kernel
  have whole : (validity sampleUnit []).unit? = some sampleUnit := by decide +kernel
  have chain : World.Reached sampleHash ⟨sampleTurn, {2, 1}, [], [], sampleTurned (.chain sampleUndo)⟩ :=
    turned.step (.revert rfl whole chosen)
  have recorded : recordEntry sampleHash (sampleUndo.renamed [99] [98] (some 2)) 7 true sampleTurn =
    some (.ok 3, sampleTaken) := recordEntry_put 3 (by decide +kernel)
  have taken : World.Reached sampleHash ⟨sampleTaken, {3, 1}, [], [],
      sampleTurned (.chain ⟨.user, 2, [some 1], [3], false⟩)⟩ := by
    have records : World.Records sampleHash ⟨sampleTurn, {2, 1}, [], [], sampleTurned (.chain sampleUndo)⟩
      (sampleUndo.renamed [99] [98] (some 2)) 3 _ := .intro recorded
    have steps := Batch.Steps.ahead (b := sampleUndo) rfl rfl (by simp) records
    have force : forceAfter sampleTurn.db {2, 1} 3 (some 2) = {3, 1} := by decide +kernel
    rw [← force]
    exact chain.step (.chain rfl steps)
  have failed : World.Reached sampleHash ⟨sampleTaken, {3, 1}, [], [],
      sampleTurned (.chain ⟨.user, 2, [some 1], [3], true⟩)⟩ := by
    have steps := @Batch.Steps.fail sampleHash
      ⟨sampleTaken, {3, 1}, [], [], sampleTurned (.chain ⟨.user, 2, [some 1], [3], false⟩)⟩
      ⟨.user, 2, [some 1], [3], false⟩
    exact taken.step (.chain rfl steps)
  have back : recordEntry sampleHash (sampleUndo.renamed [98] [99] (some 3)) 7 true sampleTaken =
    some (.ok 4, sampleRolled) := recordEntry_put 4 (by decide +kernel)
  have records : World.Records sampleHash
    ⟨sampleTaken, {3, 1}, [], [], sampleTurned (.chain ⟨.user, 2, [some 1], [3], true⟩)⟩
    (sampleUndo.renamed [98] [99] (some 3)) 4 _ := .intro back
  have steps := Batch.Steps.back (b := ⟨.user, 2, [some 1], [3], true⟩) rfl rfl
    (by decide +kernel) records
  have force : forceAfter sampleTaken.db {3, 1} 4 (some 3) = {4, 2, 1} := by decide +kernel
  rw [← force]
  exact failed.step (.chain rfl steps)

/-- The second step of the batch was taken back, and the undo rolled back. -/
theorem revertible_iff_in_force_sampleRolled :
    ∃ r ∈ sampleRolled.db.rows, r.seq = 2 ∧ (sampleRolled.db.compensations 2).length = 1 ∧
      r.entry ∈ sampleRolled.db.revertibleFor .user := by
  have found : (sampleRolled.db.rows.find? fun r => r.seq = 2).map
      (fun r => (r.undoesSeq, r.actorKind, r.actorId)) = some (none, Actor.user.parts) := by decide +kernel
  obtain ⟨r, found, same⟩ := Option.map_eq_some_iff.mp found
  obtain ⟨act, own⟩ := Prod.mk.inj same
  have seq : r.seq = 2 := by simpa using List.find?_some found
  have stored := List.mem_of_find?_eq_some found
  refine ⟨r, stored, seq, by decide +kernel, ?_⟩
  apply (revertible_iff_in_force sampleHash _ sampleRolled_reached r stored act .user own).1.mpr
  rw [seq]
  decide

end Norte.Chain
