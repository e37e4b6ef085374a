import Mathlib.Data.List.Nodup
import Norte.SyncTypes

/-! The file index and its builds, transaction by transaction: a build reads a number, stamps
what it finds in batches and sweeps what carries another number. Builds of one root overlap. -/
namespace Norte.Index

open Sync (EntryKind)

abbrev RootId := Int

structure IndexEntry where
  path : VPath
  kind : EntryKind
  size : Option UInt64
  mtimeMs : Option Int

/-- A row of `files`; the columns that are functions of the path are left out. -/
structure Row where
  rootId : RootId
  path : VPath
  kind : EntryKind
  size : Option Int
  mtimeMs : Option Int
  lastSeenBuild : Int

def Row.key (row : Row) : RootId × VPath := (row.rootId, row.path)

/-- What does not fit the column is clipped. -/
def sizeColumn (size : UInt64) : Int := min size.toNat 9223372036854775807

/-- `INSERT … ON CONFLICT(root_id, path) DO UPDATE`. -/
def upsert (rid : RootId) (buildId : Int) (rows : List Row) (e : IndexEntry) : List Row :=
  if rows.any fun row => row.key = (rid, e.path) then
    rows.map fun row => if row.key = (rid, e.path) then
      { row with kind := e.kind, size := e.size.map sizeColumn, mtimeMs := e.mtimeMs, lastSeenBuild := buildId }
      else row
  else rows ++ [⟨rid, e.path, e.kind, e.size.map sizeColumn, e.mtimeMs, buildId⟩]

/-- `SELECT COALESCE(MAX(last_seen_build), 0)`. -/
def greatestBuild (rid : RootId) (rows : List Row) : Int :=
  match (rows.filter (·.rootId = rid)).map Row.lastSeenBuild with
  | [] => 0
  | first :: others => others.foldl max first

/-- `DELETE … WHERE root_id = ? AND last_seen_build != ?`. -/
def sweep (rid : RootId) (buildId : Int) (rows : List Row) : List Row :=
  rows.filter fun row => !(row.rootId = rid && row.lastSeenBuild ≠ buildId)

def batchSize : Nat := 512

inductive Phase where
  | sending
  | completed
  | cancelled
  deriving DecidableEq, Repr

/-- A build, with what it has committed and what its stream still holds. -/
structure Build where
  rootId : RootId
  buildId : Int
  sent : List IndexEntry
  remaining : List IndexEntry
  phase : Phase

structure Store where
  rows : List Row
  builds : List Build

inductive Act where
  | start (rid : RootId) (entries : List IndexEntry)
  /-- A batch is full, or the stream is over. -/
  | commit (n : Nat)
  /-- The token fires, the walk fails or the task ends: what was in the batch may be in. -/
  | cancel (n : Nat) (inBatch : Nat)
  | sweep (n : Nat)

namespace Store

variable (s : Store)

def commitBatch (n : Nat) (b : Build) (count : Nat) (phase : Phase) : Store :=
  ⟨(b.remaining.take count).foldl (upsert b.rootId b.buildId) s.rows,
    s.builds.set n { b with sent := b.sent ++ b.remaining.take count, remaining := b.remaining.drop count, phase := phase }⟩

/-- One transaction of one build. -/
def step (s : Store) : Act → Option Store
  | .start rid entries => some { s with builds := s.builds ++ [⟨rid, greatestBuild rid s.rows + 1, [], entries, .sending⟩] }
  | .commit n => match s.builds[n]? with
    | some b => if b.phase = .sending then some (s.commitBatch n b batchSize .sending) else none
    | none => none
  | .cancel n inBatch => match s.builds[n]? with
    | some b => if b.phase = .sending ∧ inBatch ≤ batchSize then some (s.commitBatch n b inBatch .cancelled) else none
    | none => none
  | .sweep n => match s.builds[n]? with
    | some b =>
      if b.phase = .sending ∧ b.remaining.isEmpty then
        some ⟨sweep b.rootId b.buildId s.rows, s.builds.set n { b with phase := .completed }⟩
      else none
    | none => none

/-- The builds of a root walk its tree, in some order. -/
def Walks (tree : RootId → List IndexEntry) : Act → Prop
  | .start rid entries => ∀ e, e ∈ entries ↔ e ∈ tree rid
  | .commit _ | .cancel _ _ | .sweep _ => True

/-- What a build wrote and sweeps by, nobody has stamped with another number since. -/
def Kept (s : Store) : Act → Prop
  | .sweep n => ∀ b ∈ s.builds[n]?, ∀ row ∈ s.rows, row.rootId = b.rootId → (∃ e ∈ b.sent, e.path = row.path) →
    row.lastSeenBuild = b.buildId
  | .start _ _ | .commit _ | .cancel _ _ => True

/-- No running build of the root with another number has written one of these entries. -/
def Clear (s : Store) (b : Build) (batch : List IndexEntry) : Prop :=
  ∀ a ∈ s.builds, a.phase = .sending → a.rootId = b.rootId → a.buildId ≠ b.buildId →
    ∀ e ∈ batch, ∀ e' ∈ a.sent, e'.path ≠ e.path

/-- Nobody stamps what a running build of the root with another number has written. -/
def Apart (s : Store) : Act → Prop
  | .commit n => ∀ b ∈ s.builds[n]?, s.Clear b (b.remaining.take batchSize)
  | .cancel n inBatch => ∀ b ∈ s.builds[n]?, s.Clear b (b.remaining.take inBatch)
  | .start _ _ | .sweep _ => True

end Store

/-! What one statement does to the table. -/

section

variable {rid : RootId} {buildId : Int} {rows : List Row} {row : Row} {e : IndexEntry} {batch : List IndexEntry}

theorem mem_upsert (member : row ∈ upsert rid buildId rows e) :
    (row ∈ rows ∧ row.key ≠ (rid, e.path)) ∨ (row.key = (rid, e.path) ∧ row.lastSeenBuild = buildId) := by
  unfold upsert at member
  split at member
  · obtain ⟨old, inside, rfl⟩ := List.mem_map.mp member
    split
    · rename_i same
      exact .inr ⟨same, rfl⟩
    · rename_i other
      exact .inl ⟨inside, other⟩
  · rename_i absent
    rcases List.mem_append.mp member with old | new
    · refine .inl ⟨old, fun same => absent ?_⟩
      exact List.any_eq_true.mpr ⟨row, old, by simp [same]⟩
    · obtain rfl := List.mem_singleton.mp new
      exact .inr ⟨rfl, rfl⟩

theorem keys_upsert : (upsert rid buildId rows e).map Row.key =
    if (rid, e.path) ∈ rows.map Row.key then rows.map Row.key else rows.map Row.key ++ [(rid, e.path)] := by
  have found : (rows.any fun row => row.key = (rid, e.path)) = true ↔ (rid, e.path) ∈ rows.map Row.key := by
    simp [List.any_eq_true, List.mem_map]
  unfold upsert
  by_cases there : (rid, e.path) ∈ rows.map Row.key
  · rw [if_pos (found.mpr there), if_pos there, List.map_map]
    refine List.map_congr_left fun row _ => ?_
    dsimp only [Function.comp_apply]
    split
    · rfl
    · rfl
  · rw [if_neg (fun any => there (found.mp any)), if_neg there, List.map_append]
    rfl

theorem foldl_keys (unique : (rows.map Row.key).Nodup) :
    ((batch.foldl (upsert rid buildId) rows).map Row.key).Nodup ∧
      ∀ key, key ∈ (batch.foldl (upsert rid buildId) rows).map Row.key ↔
        key ∈ rows.map Row.key ∨ ∃ e ∈ batch, key = (rid, e.path) := by
  induction batch generalizing rows with
  | nil => exact ⟨unique, fun key => by simp⟩
  | cons e batch ih =>
    have one : ((upsert rid buildId rows e).map Row.key).Nodup := by
      rw [keys_upsert]
      split
      · exact unique
      · rename_i absent
        exact List.nodup_append.mpr ⟨unique, List.nodup_singleton _, fun a inside b new same =>
          absent (List.mem_singleton.mp new ▸ same ▸ inside)⟩
    obtain ⟨unique', keys⟩ := ih one
    refine ⟨unique', fun key => (keys key).trans ?_⟩
    rw [keys_upsert]
    by_cases there : (rid, e.path) ∈ rows.map Row.key
    · rw [if_pos there]
      constructor
      · rintro (old | ⟨e', inside, rfl⟩)
        · exact .inl old
        · exact .inr ⟨e', List.mem_cons_of_mem _ inside, rfl⟩
      · rintro (old | ⟨e', inside, rfl⟩)
        · exact .inl old
        · rcases List.mem_cons.mp inside with rfl | later
          · exact .inl there
          · exact .inr ⟨e', later, rfl⟩
    · rw [if_neg there, List.mem_append, List.mem_singleton, or_assoc]
      simp [or_comm]

theorem mem_foldl (member : row ∈ batch.foldl (upsert rid buildId) rows) :
    (row ∈ rows ∧ ∀ e ∈ batch, row.key ≠ (rid, e.path)) ∨
      (∃ e ∈ batch, row.key = (rid, e.path)) ∧ row.lastSeenBuild = buildId := by
  induction batch generalizing rows with
  | nil => exact .inl ⟨member, fun _ none => absurd none List.not_mem_nil⟩
  | cons e batch ih =>
    rcases ih member with ⟨inside, others⟩ | ⟨⟨e', later, same⟩, stamped⟩
    · rcases mem_upsert inside with ⟨old, other⟩ | ⟨same, stamped⟩
      · refine .inl ⟨old, fun e' member' => ?_⟩
        rcases List.mem_cons.mp member' with rfl | later
        · exact other
        · exact others e' later
      · exact .inr ⟨⟨e, List.mem_cons_self, same⟩, stamped⟩
    · exact .inr ⟨⟨e', List.mem_cons_of_mem _ later, same⟩, stamped⟩

theorem upsert_foreign {other : RootId} (foreign : rid ≠ other) :
    (upsert rid buildId rows e).filter (·.rootId = other) = rows.filter (·.rootId = other) := by
  unfold upsert
  split
  · rw [List.filter_map]
    have keeps : (fun row : Row => decide (row.rootId = other)) ∘ (fun row => if row.key = (rid, e.path) then
        { row with kind := e.kind, size := e.size.map sizeColumn, mtimeMs := e.mtimeMs, lastSeenBuild := buildId }
        else row) = fun row => decide (row.rootId = other) := by
      funext row
      dsimp only [Function.comp_apply]
      split
      · rfl
      · rfl
    rw [keeps]
    refine (List.map_congr_left fun row inside => ?_).trans (List.map_id _)
    have own : row.rootId = other := by simpa using (List.mem_filter.mp inside).2
    exact if_neg fun same => foreign ((Prod.mk.inj same).1.symm.trans own)
  · simp [List.filter_append, foreign]

theorem foldl_foreign {other : RootId} (foreign : rid ≠ other) :
    (batch.foldl (upsert rid buildId) rows).filter (·.rootId = other) = rows.filter (·.rootId = other) := by
  induction batch generalizing rows with
  | nil => rfl
  | cons e batch ih => exact ih.trans (upsert_foreign foreign)

theorem mem_sweep : row ∈ sweep rid buildId rows ↔ row ∈ rows ∧ (row.rootId = rid → row.lastSeenBuild = buildId) := by
  simp [sweep, List.mem_filter, imp_iff_not_or]

theorem sweep_foreign {other : RootId} (foreign : rid ≠ other) :
    (sweep rid buildId rows).filter (·.rootId = other) = rows.filter (·.rootId = other) := by
  unfold sweep
  rw [List.filter_filter]
  refine List.filter_congr fun row _ => ?_
  by_cases own : row.rootId = other
  · simp [own, foreign.symm]
  · simp [own]

end

namespace Store

variable {s s' : Store} {tree : RootId → List IndexEntry} {act : Act}

/-- The build that a step is of. -/
def acting (s : Store) : Act → Option Build
  | .start _ _ => none
  | .commit n | .cancel n _ | .sweep n => s.builds[n]?

/-- How a step comes about. -/
theorem step_cases (done : s.step act = some s') :
    (∃ rid entries, act = .start rid entries ∧
      s' = { s with builds := s.builds ++ [⟨rid, greatestBuild rid s.rows + 1, [], entries, .sending⟩] }) ∨
    (∃ n b count phase, s.builds[n]? = some b ∧ b.phase = .sending ∧ phase ≠ .completed ∧
      (act = .commit n ∧ count = batchSize ∨ act = .cancel n count) ∧ s' = s.commitBatch n b count phase) ∨
    (∃ n b, act = .sweep n ∧ s.builds[n]? = some b ∧ b.phase = .sending ∧ b.remaining = [] ∧
      s' = ⟨sweep b.rootId b.buildId s.rows, s.builds.set n { b with phase := .completed }⟩) := by
  cases act with
  | start rid entries => exact .inl ⟨rid, entries, rfl, (Option.some.inj done).symm⟩
  | commit n =>
    unfold step at done
    dsimp only at done
    split at done
    · rename_i b found
      split at done
      · rename_i sending
        exact .inr (.inl ⟨n, b, batchSize, .sending, found, sending, by simp, .inl ⟨rfl, rfl⟩, (Option.some.inj done).symm⟩)
      · cases done
    · cases done
  | cancel n inBatch =>
    unfold step at done
    dsimp only at done
    split at done
    · rename_i b found
      split at done
      · rename_i sending
        exact .inr (.inl ⟨n, b, inBatch, .cancelled, found, sending.1, by simp, .inr rfl, (Option.some.inj done).symm⟩)
      · cases done
    · cases done
  | sweep n =>
    unfold step at done
    dsimp only at done
    split at done
    · rename_i b found
      split at done
      · rename_i ended
        exact .inr (.inr ⟨n, b, rfl, found, ended.1, by simpa using ended.2, (Option.some.inj done).symm⟩)
      · cases done
    · cases done

/-- A step of a build leaves the rows of every other root. -/
theorem step_foreign (done : s.step act = some s') {rid : RootId} (foreign : ∀ b ∈ s.acting act, b.rootId ≠ rid) :
    s'.rows.filter (·.rootId = rid) = s.rows.filter (·.rootId = rid) := by
  rcases step_cases done with ⟨_, _, _, rfl⟩ | ⟨n, b, count, phase, found, _, _, which, rfl⟩ | ⟨n, b, rfl, found, _, _, rfl⟩
  · rfl
  · refine foldl_foreign (foreign b ?_)
    rcases which with ⟨rfl, _⟩ | rfl
    · exact found
    · exact found
  · exact sweep_foreign (foreign b found)

structure Sound (tree : RootId → List IndexEntry) (s : Store) : Prop where
  unique : (s.rows.map Row.key).Nodup
  walks : ∀ b ∈ s.builds, ∀ e, e ∈ b.sent ∨ e ∈ b.remaining ↔ e ∈ tree b.rootId
  there : ∀ b ∈ s.builds, ∀ e ∈ b.sent, (b.rootId, e.path) ∈ s.rows.map Row.key
  ended : ∀ b ∈ s.builds, b.phase = .completed → b.remaining = []

theorem mem_set_cases {α : Type} {l : List α} {n : Nat} {x y : α} (member : y ∈ l.set n x) : y = x ∨ y ∈ l :=
  (List.mem_or_eq_of_mem_set member).symm

/-- What a build has written, no step that is kept takes away. -/
theorem Sound.step (sound : Sound tree s) (walks : Walks tree act) (kept : s.Kept act) (done : s.step act = some s') :
    Sound tree s' := by
  rcases step_cases done with ⟨rid, entries, rfl, rfl⟩ | ⟨n, b, count, phase, found, _, open_, _, rfl⟩ |
    ⟨n, b, rfl, found, _, ended, rfl⟩
  · refine ⟨sound.unique, fun b member => ?_, fun b member => ?_, fun b member => ?_⟩
    · rcases List.mem_append.mp member with old | new
      · exact sound.walks b old
      · obtain rfl := List.mem_singleton.mp new
        exact fun e => by simpa using walks e
    · rcases List.mem_append.mp member with old | new
      · exact sound.there b old
      · obtain rfl := List.mem_singleton.mp new
        exact fun e none => absurd none List.not_mem_nil
    · rcases List.mem_append.mp member with old | new
      · exact sound.ended b old
      · obtain rfl := List.mem_singleton.mp new
        exact fun completed => by cases completed
  · have inside := List.mem_of_getElem? found
    obtain ⟨unique, keys⟩ := @foldl_keys b.rootId b.buildId _ (b.remaining.take count) sound.unique
    refine ⟨unique, fun b' member => ?_, fun b' member e sent => (keys _).mpr ?_, fun b' member completed => ?_⟩
    · rcases mem_set_cases member with rfl | old
      · intro e
        rw [← sound.walks b inside e, List.mem_append, or_assoc, ← List.mem_append (s := b.remaining.take count),
          List.take_append_drop]
      · exact sound.walks b' old
    · rcases mem_set_cases member with rfl | old
      · rcases List.mem_append.mp sent with before | now
        · exact .inl (sound.there b inside e before)
        · exact .inr ⟨e, now, rfl⟩
      · exact .inl (sound.there b' old e sent)
    · rcases mem_set_cases member with rfl | old
      · exact absurd completed open_
      · exact sound.ended b' old completed
  · have inside := List.mem_of_getElem? found
    refine ⟨sound.unique.sublist (List.filter_sublist.map _), fun b' member => ?_, fun b' member e sent => ?_,
      fun b' member completed => ?_⟩
    · rcases mem_set_cases member with rfl | old
      · exact sound.walks b inside
      · exact sound.walks b' old
    · have was : (b'.rootId, e.path) ∈ s.rows.map Row.key := by
        rcases mem_set_cases member with rfl | old
        · exact sound.there b inside e sent
        · exact sound.there b' old e sent
      obtain ⟨row, present, key⟩ := List.mem_map.mp was
      obtain ⟨root, path⟩ := Prod.mk.inj key
      refine List.mem_map.mpr ⟨row, mem_sweep.mpr ⟨present, fun own => ?_⟩, key⟩
      -- An entry of this root's tree is one that this build has written too.
      have ofTree : e ∈ tree b.rootId := by
        rw [← own, root]
        rcases mem_set_cases member with rfl | old
        · exact (sound.walks b inside e).mp (.inl sent)
        · exact (sound.walks b' old e).mp (.inl sent)
      have written := (sound.walks b inside e).mpr ofTree
      rw [ended] at written
      exact kept b found row present own ⟨e, written.resolve_right List.not_mem_nil, path.symm⟩
    · rcases mem_set_cases member with rfl | old
      · exact ended
      · exact sound.ended b' old completed

/-- Any interleaving of builds of trees that stay as they are, with steps as `ok` has them. -/
inductive Run (ok : Store → Act → Prop) (tree : RootId → List IndexEntry) (s : Store) : Store → Prop where
  | refl : Run ok tree s s
  | step {s' s'' : Store} {act : Act} (before : Run ok tree s s') (walks : Walks tree act) (fine : ok s' act)
      (done : s'.step act = some s'') : Run ok tree s s''

theorem Run.sound (run : Run Kept tree s s') (sound : Sound tree s) : Sound tree s' := by
  induction run with
  | refl => exact sound
  | step before walks kept done ih => exact ih.step walks kept done

/-- What a running build has written carries its number. -/
def Stamped (s : Store) : Prop :=
  ∀ b ∈ s.builds, b.phase = .sending → ∀ row ∈ s.rows, row.rootId = b.rootId → (∃ e ∈ b.sent, e.path = row.path) →
    row.lastSeenBuild = b.buildId

theorem Stamped.commitBatch {n count : Nat} {b : Build} {phase : Phase} (stamped : s.Stamped) (inside : b ∈ s.builds)
    (sending : b.phase = .sending) (clear : s.Clear b (b.remaining.take count)) :
    (s.commitBatch n b count phase).Stamped := by
  intro a member running row present own written
  rcases mem_foldl present with ⟨old, others⟩ | ⟨⟨e, batch, key⟩, number⟩
  · rcases mem_set_cases member with rfl | before
    · obtain ⟨e, sent, path⟩ := written
      rcases List.mem_append.mp sent with earlier | now
      · exact stamped b inside sending row old own ⟨e, earlier, path⟩
      · exact absurd (Prod.ext own path.symm) (others e now)
    · exact stamped a before running row old own written
  · rcases mem_set_cases member with rfl | before
    · exact number
    · by_cases same : a.buildId = b.buildId
      · exact number.trans same.symm
      · obtain ⟨root, path⟩ := Prod.mk.inj key
        obtain ⟨e', sent, path'⟩ := written
        exact absurd (path'.trans path) (clear a before running (own.symm.trans root) same e batch e' sent)

theorem Stamped.step (stamped : s.Stamped) (apart : s.Apart act) (done : s.step act = some s') : s'.Stamped := by
  rcases step_cases done with ⟨rid, entries, rfl, rfl⟩ | ⟨n, b, count, phase, found, sending, _, which, rfl⟩ |
    ⟨n, b, rfl, found, _, _, rfl⟩
  · intro b member running row present own written
    rcases List.mem_append.mp member with old | new
    · exact stamped b old running row present own written
    · obtain rfl := List.mem_singleton.mp new
      obtain ⟨e, none, _⟩ := written
      cases none
  · apply stamped.commitBatch (List.mem_of_getElem? found) sending
    rcases which with ⟨rfl, rfl⟩ | rfl
    · exact apart b found
    · exact apart b found
  · intro a member running row present own written
    rcases mem_set_cases member with rfl | before
    · cases running
    · exact stamped a before running row (mem_sweep.mp present).1 own written

/-- Builds that keep off each other's entries sweep nothing that they have written. -/
theorem Run.kept (run : Run Apart tree s s') (idle : s.builds = []) : Run Kept tree s s' ∧ s'.Stamped := by
  induction run with
  | refl => exact ⟨.refl, fun b member => by simp [idle] at member⟩
  | @step s₁ s₂ act before walks apart done ih =>
    obtain ⟨kept, stamped⟩ := ih
    refine ⟨kept.step walks ?_ done, stamped.step apart done⟩
    rcases step_cases done with ⟨_, _, rfl, _⟩ | ⟨_, _, _, _, _, _, _, ⟨rfl, _⟩ | rfl, _⟩ | ⟨n, b, rfl, found, sending, _, _⟩
    · trivial
    · trivial
    · trivial
    · intro b' found'
      obtain rfl := Option.some.inj (found.symm.trans found')
      exact stamped b (List.mem_of_getElem? found) sending

/-- In every run in which no build sweeps what another has stamped since, the files of a root
are in the index from its first build that completes on, one row each; and no step touches
the rows of another root. Builds that keep off each other's entries run so. -/
theorem builds_keep_files (run : Run Kept tree s s' ∨ Run Apart tree s s') (unique : (s.rows.map Row.key).Nodup)
    (idle : s.builds = []) :
    (∀ b ∈ s'.builds, b.phase = .completed → ∀ e ∈ tree b.rootId,
      s'.rows.countP (fun row => row.key = (b.rootId, e.path)) = 1) ∧
    ∀ act s'', s'.step act = some s'' → ∀ rid, (∀ b ∈ s'.acting act, b.rootId ≠ rid) →
      s''.rows.filter (·.rootId = rid) = s'.rows.filter (·.rootId = rid) := by
  have kept : Run Kept tree s s' := run.elim id fun apart => (apart.kept idle).1
  have none (b : Build) : b ∉ s.builds := by simp [idle]
  have sound := kept.sound ⟨unique, fun b member => absurd member (none b), fun b member => absurd member (none b),
    fun b member => absurd member (none b)⟩
  refine ⟨fun b member completed e ofTree => ?_, fun act s'' done rid foreign => step_foreign done foreign⟩
  have written := (sound.walks b member e).mpr ofTree
  rw [sound.ended b member completed] at written
  have there := sound.there b member e (written.resolve_right List.not_mem_nil)
  have once : (s'.rows.map Row.key).count (b.rootId, e.path) = 1 := List.count_eq_one_of_mem sound.unique there
  rw [List.count, List.countP_map] at once
  rw [← once]
  exact List.countP_congr fun row _ => by simp

def loneFile : IndexEntry := ⟨VPath.root ⟨"file".toList, Scheme.check_file⟩ none, .file, some 3, none⟩

def loneRow (number : Int) : Row := ⟨7, loneFile.path, .file, some 3, none, number⟩

/-- A build of the lone file that has committed it. -/
def committed (number : Int) (phase : Phase) : Build := ⟨7, number, [loneFile], [], phase⟩

theorem walks_lone : Walks (fun _ => [loneFile]) (.start 7 [loneFile]) := fun _ => Iff.rfl

/-- A row of another root. -/
def otherRow : Row := ⟨8, loneFile.path, .file, none, none, 5⟩

/-- Two builds of a tree of one file that overlap, both begun before anything was stamped. -/
theorem builds_keep_files_twice : ∃ s' : Store, s'.builds = [committed 1 .completed, committed 1 .completed] ∧
    s'.rows.countP (fun row => row.key = (7, loneFile.path)) = 1 ∧
    ∀ act s'', s'.step act = some s'' → (∀ b ∈ s'.acting act, b.rootId ≠ 8) →
      s''.rows.filter (·.rootId = 8) = s'.rows.filter (·.rootId = 8) := by
  have first : Store.step ⟨[otherRow], []⟩ (.start 7 [loneFile]) =
      some ⟨[otherRow], [⟨7, 1, [], [loneFile], .sending⟩]⟩ := rfl
  have second : Store.step ⟨[otherRow], [⟨7, 1, [], [loneFile], .sending⟩]⟩ (.start 7 [loneFile]) =
      some ⟨[otherRow], [⟨7, 1, [], [loneFile], .sending⟩, ⟨7, 1, [], [loneFile], .sending⟩]⟩ := rfl
  have wrote : Store.step ⟨[otherRow], [⟨7, 1, [], [loneFile], .sending⟩, ⟨7, 1, [], [loneFile], .sending⟩]⟩ (.commit 0) =
      some ⟨[otherRow, loneRow 1], [committed 1 .sending, ⟨7, 1, [], [loneFile], .sending⟩]⟩ := rfl
  have again : Store.step ⟨[otherRow, loneRow 1], [committed 1 .sending, ⟨7, 1, [], [loneFile], .sending⟩]⟩ (.commit 1) =
      some ⟨[otherRow, loneRow 1], [committed 1 .sending, committed 1 .sending]⟩ := rfl
  have swept : Store.step ⟨[otherRow, loneRow 1], [committed 1 .sending, committed 1 .sending]⟩ (.sweep 0) =
      some ⟨[otherRow, loneRow 1], [committed 1 .completed, committed 1 .sending]⟩ := rfl
  have ended : Store.step ⟨[otherRow, loneRow 1], [committed 1 .completed, committed 1 .sending]⟩ (.sweep 1) =
      some ⟨[otherRow, loneRow 1], [committed 1 .completed, committed 1 .completed]⟩ := rfl
  have clear : Store.Clear ⟨[otherRow], [⟨7, 1, [], [loneFile], .sending⟩, ⟨7, 1, [], [loneFile], .sending⟩]⟩
      ⟨7, 1, [], [loneFile], .sending⟩ ([loneFile].take batchSize) := by
    intro a member _ _ other
    rcases List.mem_cons.mp member with rfl | last
    · exact absurd rfl other
    · rw [List.mem_singleton.mp last] at other
      exact absurd rfl other
  have clear' : Store.Clear ⟨[otherRow, loneRow 1], [committed 1 .sending, ⟨7, 1, [], [loneFile], .sending⟩]⟩
      ⟨7, 1, [], [loneFile], .sending⟩ ([loneFile].take batchSize) := by
    intro a member _ _ other
    rcases List.mem_cons.mp member with rfl | last
    · exact absurd rfl other
    · rw [List.mem_singleton.mp last] at other
      exact absurd rfl other
  have run : Run Apart (fun _ => [loneFile]) ⟨[otherRow], []⟩
      ⟨[otherRow, loneRow 1], [committed 1 .completed, committed 1 .completed]⟩ := by
    refine .step (.step (.step (.step (.step (.step .refl walks_lone (by trivial) first) walks_lone (by trivial) second)
      (by trivial) ?_ wrote) (by trivial) ?_ again) (by trivial) (by trivial) swept) (by trivial) (by trivial) ended
    · intro b found
      obtain rfl := Option.some.inj found
      exact clear
    · intro b found
      obtain rfl := Option.some.inj found
      exact clear'
  have keeps := builds_keep_files (.inr run) (List.nodup_singleton _) rfl
  refine ⟨_, rfl, ?_, fun act s'' done foreign => keeps.2 act s'' done 8 foreign⟩
  exact keeps.1 (committed 1 .completed) List.mem_cons_self rfl loneFile List.mem_cons_self

/-- A second build restamps what the first has sent and completes; then the first sweeps it. -/
theorem overlapping_builds_forget : ¬∀ (tree : RootId → List IndexEntry) (s : Store) (rid : RootId),
    Run (fun _ _ => True) tree ⟨[], []⟩ s → (∃ b ∈ s.builds, b.rootId = rid ∧ b.phase = .completed) →
    (∀ b ∈ s.builds, b.rootId = rid → b.phase ≠ .sending) →
    ∀ e ∈ tree rid, s.rows.countP (fun row => row.key = (rid, e.path)) = 1 := by
  have first : Store.step ⟨[], []⟩ (.start 7 [loneFile]) = some ⟨[], [⟨7, 1, [], [loneFile], .sending⟩]⟩ := rfl
  have wrote : Store.step ⟨[], [⟨7, 1, [], [loneFile], .sending⟩]⟩ (.commit 0) =
      some ⟨[loneRow 1], [committed 1 .sending]⟩ := rfl
  have second : Store.step ⟨[loneRow 1], [committed 1 .sending]⟩ (.start 7 [loneFile]) =
      some ⟨[loneRow 1], [committed 1 .sending, ⟨7, 2, [], [loneFile], .sending⟩]⟩ := rfl
  have restamped : Store.step ⟨[loneRow 1], [committed 1 .sending, ⟨7, 2, [], [loneFile], .sending⟩]⟩ (.commit 1) =
      some ⟨[loneRow 2], [committed 1 .sending, committed 2 .sending]⟩ := rfl
  have ended : Store.step ⟨[loneRow 2], [committed 1 .sending, committed 2 .sending]⟩ (.sweep 1) =
      some ⟨[loneRow 2], [committed 1 .sending, committed 2 .completed]⟩ := rfl
  have lost : Store.step ⟨[loneRow 2], [committed 1 .sending, committed 2 .completed]⟩ (.sweep 0) =
      some ⟨[], [committed 1 .completed, committed 2 .completed]⟩ := rfl
  have run : Run (fun _ _ => True) (fun _ => [loneFile]) ⟨[], []⟩
      ⟨[], [committed 1 .completed, committed 2 .completed]⟩ :=
    .step (.step (.step (.step (.step (.step .refl walks_lone trivial first) (by trivial) trivial wrote)
      walks_lone trivial second) (by trivial) trivial restamped) (by trivial) trivial ended) (by trivial) trivial lost
  intro claim
  have once := claim _ _ 7 run ⟨_, List.mem_cons_self, rfl, rfl⟩ (fun b member _ => ?_) loneFile List.mem_cons_self
  · cases once
  · rcases List.mem_cons.mp member with rfl | last
    · simp [committed]
    · obtain rfl := List.mem_singleton.mp last
      simp [committed]

end Store

end Norte.Index
