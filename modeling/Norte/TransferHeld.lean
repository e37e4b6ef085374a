import Norte.TransferTree

/-! What the destination holds of an entry that was copied: what the entry was, written by the task
under one of the entry's own names. No other entry takes it away. -/
namespace Norte.Transfer

open Sync (Entry EntryKind)

variable {K : Type} [DecidableEq K] (job : Job K)

namespace Job

/-- A path that an entry may be written at: its own, or under the policy for it a new name. -/
def Goes (e : Entry) (p : VPath) : Prop :=
  p = job.targetOf e ∨ (job.opts.onCollision = .renameAuto ∧ ∃ n, candidateAt (job.targetOf e) n = .ok p)

/-- What an entry is at the source, as it is to stand at the target. -/
def made (tree : K → Option Thing) (e : Entry) (target : VPath) : Except Error Thing :=
  match e.kind with
  | .dir => .ok ⟨.dir, [], job.stamp target⟩
  | .file => (job.read tree e.path).map fun bytes => ⟨.file, bytes, job.stamp target⟩
  | .symlink =>
    match job.opts.symlinks with
    | .preserve => (job.readLink tree e.path).map fun bytes => ⟨.symlink, bytes, job.stamp target⟩
    | .follow => (job.read tree e.path).map fun bytes => ⟨.file, bytes, job.stamp target⟩
    | .skip => .error .unsupported
  | .other => .error .unsupported

/-- The policies under which what stands at the target goes. -/
def Replaces : Prop := job.opts.onCollision = .overwrite ∨ job.opts.onCollision = .newer

/-- A leaf that is to replace what stands at its target. -/
def Replaced (w : World K) (e : Entry) : Prop :=
  ∃ thing, w.tree (job.placeOf e) = some thing ∧ job.collide e (job.targetOf e) thing = .clear

instance (w : World K) (e : Entry) : Decidable (job.Replaced w e) :=
  inferInstanceAs (Decidable (∃ thing ∈ w.tree (job.placeOf e), job.collide e (job.targetOf e) thing = .clear))

/-- What an entry is carried as, when its target is looked at. -/
def Suits (tree : K → Option Thing) (e : Entry) : Payload → Prop
  | .dir => e.kind = .dir
  | .file => e.kind = .file
  | .followed => e.kind = .symlink ∧ job.opts.symlinks = .follow
  | .link bytes => e.kind = .symlink ∧ job.opts.symlinks = .preserve ∧ job.readLink tree e.path = .ok bytes

/-- What became of an entry that was written at a target. -/
structure Made (w : World K) (e : Entry) (target : VPath) (thing : Thing) (rows : List Mutation) (now : World K) : Prop where
  goes : job.Goes e target
  own : job.Replaces → target = job.targetOf e
  free : w.tree (job.place target) = none ∨ (job.Replaced w e ∧ e.kind ≠ .dir)
  made : job.made w.tree e target = .ok thing
  tree : now.tree = Function.update w.tree (job.place target) (some thing)
  rows : now.rows = w.rows ++ rows

/-- How far an entry alone may have come. -/
inductive Along (w : World K) (e : Entry) : Payload → Stage → World K → Prop
  | probe {payload : Payload} (link : e.kind = .symlink)
      (probes : (payload = .link [] ∧ job.opts.symlinks = .preserve) ∨ (payload = .followed ∧ job.opts.symlinks = .follow)) :
      Along w e payload .probe w
  | look {payload : Payload} (suits : job.Suits w.tree e payload) : Along w e payload .look w
  | candidate {payload : Payload} {n : Nat} (suits : job.Suits w.tree e payload)
      (renames : job.opts.onCollision = .renameAuto) : Along w e payload (.candidate n) w
  | clear {payload : Payload} (suits : job.Suits w.tree e payload) (old : job.Replaced w e) (leaf : payload ≠ .dir) :
      Along w e payload .clear w
  | cleared {payload : Payload} (suits : job.Suits w.tree e payload) (old : job.Replaced w e) (leaf : payload ≠ .dir) :
      Along w e payload .cleared ⟨Function.update w.tree (job.placeOf e) none, w.rows⟩
  | write {payload : Payload} {target : VPath} {rows : List Mutation} (suits : job.Suits w.tree e payload)
      (goes : job.Goes e target) (own : job.Replaces → target = job.targetOf e)
      (free : w.tree (job.place target) = none ∨ (job.Replaced w e ∧ payload ≠ .dir)) : Along w e payload (.write target)
        ⟨Function.update w.tree (job.place target) none, w.rows ++ rows⟩
  | written {payload : Payload} {target : VPath} {thing : Thing} {rows : List Mutation} {now : World K}
      (made : job.Made w e target thing rows now) : Along w e payload (.written target) now
  | done {payload : Payload} {target : VPath} {thing : Thing} {rows : List Mutation} {now : World K}
      (made : job.Made w e target thing rows now) (row : .created target ∈ rows) : Along w e payload (.ended (.ok .done)) now
  | merged {payload : Payload} (dir : e.kind = .dir) : Along w e payload (.ended (.ok .done)) w
  | skipped {payload : Payload} (leaf : e.kind ≠ .dir) : Along w e payload (.ended (.ok .skipped)) w
  | failed {payload : Payload} {error : Error} {now : World K} : Along w e payload (.ended (.error error)) now

/-- Reading an entry is not disturbed by what is made of it. -/
def Calm (tree : K → Option Thing) (e : Entry) : Prop :=
  ∀ target, job.Goes e target → ∀ x, job.read (Function.update tree (job.place target) x) e.path = job.read tree e.path

omit [DecidableEq K] in
theorem suits_dir {tree : K → Option Thing} {e : Entry} {payload : Payload} (suits : job.Suits tree e payload) :
    payload = .dir ↔ e.kind = .dir := by
  cases payload with
  | dir => exact iff_of_true rfl suits
  | file => simp_all [Suits]
  | followed => simp_all [Suits]
  | link bytes => simp_all [Suits]

/-- What is carried to a target is what the entry was. -/
theorem carries_made {w : World K} {e : Entry} {target own : VPath} {payload : Payload} {stage : Stage} {thing : Thing}
    {x : Option Thing} (suits : job.Suits w.tree e payload) (calm : job.Calm w.tree e) (goes : job.Goes e target)
    (carries : job.carries (Function.update w.tree (job.place target) x) ⟨e, own, payload, stage⟩ target = .ok thing) :
    job.made w.tree e target = .ok thing := by
  have read := calm target goes x
  cases payload with
  | dir =>
    have kind : e.kind = .dir := suits
    simpa [Job.carries, made, kind] using carries
  | file =>
    have kind : e.kind = .file := suits
    simpa [Job.carries, made, kind, read] using carries
  | followed =>
    obtain ⟨kind, follow⟩ := suits
    simp only [Job.carries, read] at carries
    simp only [made, kind, follow]
    cases content : job.read w.tree e.path with
    | error error => simp [content, Except.map, Except.mapError] at carries
    | ok bytes => simpa [content, Except.map, Except.mapError] using carries
  | link bytes =>
    obtain ⟨kind, preserve, content⟩ := suits
    simpa [Job.carries, made, kind, preserve, content, Except.map] using carries

omit [DecidableEq K] in
/-- What is decided where something stands at the target. -/
theorem collide_cases (e : Entry) (target : VPath) (existing : Thing) :
    (∃ error, job.collide e target existing = .ended (.error error)) ∨ job.collide e target existing = .ended (.ok .skipped) ∨
      (job.collide e target existing = .clear ∧ job.Replaces) ∨
      (job.collide e target existing = .candidate 1 ∧ job.opts.onCollision = .renameAuto) := by
  have replaces (held : job.Replaces) : (∃ error, overwriteExisting existing = .ended (.error error)) ∨
      overwriteExisting existing = .ended (.ok .skipped) ∨ (overwriteExisting existing = .clear ∧ job.Replaces) ∨
      (overwriteExisting existing = .candidate 1 ∧ job.opts.onCollision = .renameAuto) := by
    unfold overwriteExisting
    split
    · exact .inl ⟨_, rfl⟩
    · exact .inr (.inr (.inl ⟨rfl, held⟩))
  unfold collide
  split
  · exact .inl ⟨_, rfl⟩
  cases policy : job.opts.onCollision with
  | fail => exact .inl ⟨_, rfl⟩
  | ask => exact .inl ⟨_, rfl⟩
  | skip => exact .inr (.inl rfl)
  | overwrite =>
    rw [policy] at replaces
    exact replaces (.inl policy)
  | newer =>
    rw [policy] at replaces
    simp only
    split
    · split
      · exact replaces (.inr policy)
      · exact .inr (.inl rfl)
    · exact .inl ⟨_, rfl⟩
  | renameAuto => exact .inr (.inr (.inr ⟨rfl, rfl⟩))

variable {job} in
omit [DecidableEq K] in
theorem replaces_of_clear {e : Entry} {target : VPath} {existing : Thing} (clear : job.collide e target existing = .clear) :
    job.Replaces := by
  rcases job.collide_cases e target existing with ⟨error, failed⟩ | skipped | ⟨-, replaces⟩ | ⟨renames, -⟩
  · simp [clear] at failed
  · simp [clear] at skipped
  · exact replaces
  · simp [clear] at renames

variable {job} in
omit [DecidableEq K] in
theorem Replaced.replaces {w : World K} {e : Entry} (old : job.Replaced w e) : job.Replaces := by
  obtain ⟨thing, -, clear⟩ := old
  exact replaces_of_clear clear

omit [DecidableEq K] in
/-- What the first look decides: the entry is left, or goes to its own name, or to a new one. -/
theorem look_cases {f : Flight} {existing : Option Thing} {stage : Stage} (looked : job.look f existing = stage) :
    (∃ e, stage = .ended (.error e)) ∨ (stage = .write f.target ∧ existing = none) ∨
      (stage = .ended (.ok .done) ∧ f.payload = .dir) ∨ (f.payload ≠ .dir ∧ (stage = .ended (.ok .skipped) ∨
        (stage = .clear ∧ ∃ thing, existing = some thing ∧ job.collide f.entry f.target thing = .clear) ∨
        (stage = .candidate 1 ∧ job.opts.onCollision = .renameAuto))) := by
  subst looked
  cases existing with
  | none => exact .inr (.inl ⟨rfl, rfl⟩)
  | some thing =>
    simp only [look]
    split
    · rename_i dir
      unfold merge
      split
      · exact .inl ⟨_, rfl⟩
      · split
        · exact .inr (.inr (.inl ⟨rfl, dir⟩))
        · exact .inl ⟨_, rfl⟩
    · rename_i leaf
      rcases job.collide_cases f.entry f.target thing with ⟨e, failed⟩ | skipped | ⟨clear, -⟩ | ⟨renames, policy⟩
      · exact .inl ⟨e, failed⟩
      · exact .inr (.inr (.inr ⟨leaf, .inl skipped⟩))
      · exact .inr (.inr (.inr ⟨leaf, .inr (.inl ⟨clear, thing, rfl, clear⟩)⟩))
      · exact .inr (.inr (.inr ⟨leaf, .inr (.inr ⟨renames, policy⟩)⟩))

/-- One call more of an entry alone. -/
theorem call_along {w now : World K} {e : Entry} {payload : Payload} {stage : Stage} (calm : job.Calm w.tree e)
    (along : job.Along w e payload stage now) :
    ∃ payload' stage' now', job.call ⟨e, job.targetOf e, payload, stage⟩ now = (⟨e, job.targetOf e, payload', stage'⟩, now') ∧
      job.Along w e payload' stage' now' := by
  have own : job.Goes e (job.targetOf e) := .inl rfl
  cases along with
  | probe link probes =>
    rcases probes with ⟨rfl, preserve⟩ | ⟨rfl, follow⟩
    · simp only [call]
      cases content : job.readLink w.tree e.path with
      | error error => exact ⟨_, _, _, rfl, .failed⟩
      | ok bytes => exact ⟨_, _, _, rfl, .look ⟨link, preserve, content⟩⟩
    · simp only [call]
      cases content : job.read w.tree e.path with
      | error error => exact ⟨_, _, _, rfl, .failed⟩
      | ok bytes => exact ⟨_, _, _, rfl, .look ⟨link, follow⟩⟩
  | look suits =>
    refine ⟨payload, _, w, rfl, ?_⟩
    rcases job.look_cases rfl with ⟨error, failed⟩ | ⟨writes, free⟩ | ⟨done, dir⟩ | ⟨leaf, skipped | ⟨clear, old⟩ | ⟨renames, policy⟩⟩
    · rw [failed]
      exact .failed
    · rw [writes]
      have write : job.Along w e payload (.write (job.targetOf e))
          ⟨Function.update w.tree (job.placeOf e) none, w.rows ++ []⟩ := .write suits own (fun _ => rfl) (.inl free)
      have free' : w.tree (job.placeOf e) = none := free
      rw [← free', Function.update_eq_self, List.append_nil] at write
      exact write
    · rw [done]
      exact .merged ((job.suits_dir suits).mp dir)
    · rw [skipped]
      exact .skipped fun dir => leaf ((job.suits_dir suits).mpr dir)
    · rw [clear]
      exact .clear suits old leaf
    · rw [renames]
      exact .candidate suits policy
  | @candidate n suits renames =>
    simp only [call]
    split
    · exact ⟨_, _, _, rfl, .failed⟩
    · cases named : candidateAt (job.targetOf e) n with
      | error error => exact ⟨_, _, _, rfl, .failed⟩
      | ok path =>
        simp only
        split
        · rename_i free
          rw [Option.isNone_iff_eq_none] at free
          refine ⟨_, _, _, rfl, ?_⟩
          have sure : ¬job.Replaces := by simp [Replaces, renames]
          have write : job.Along w e payload (.write path)
              ⟨Function.update w.tree (job.place path) none, w.rows ++ []⟩ :=
            .write suits (.inr ⟨renames, n, named⟩) (fun replaces => absurd replaces sure) (.inl free)
          rw [← free, Function.update_eq_self, List.append_nil] at write
          exact write
        · exact ⟨_, _, _, rfl, .candidate suits renames⟩
  | clear suits old leaf => exact ⟨_, _, _, rfl, .cleared suits old leaf⟩
  | cleared suits old leaf => exact ⟨_, _, _, rfl, .write suits own (fun _ => rfl) (.inr ⟨old, leaf⟩)⟩
  | @write target rows suits goes sure free =>
    simp only [call, Function.update_self]
    cases content : job.carries (Function.update w.tree (job.place target) none) ⟨e, job.targetOf e, payload, .write target⟩ target with
    | error error => exact ⟨_, _, _, rfl, .failed⟩
    | ok thing =>
      have made : job.Made w e target thing rows
          ⟨Function.update (Function.update w.tree (job.place target) none) (job.place target) (some thing), w.rows ++ rows⟩ := by
        refine ⟨goes, sure, ?_, job.carries_made suits calm goes content, Function.update_idem .., rfl⟩
        exact free.imp_right fun clears => ⟨clears.1, fun dir => clears.2 ((job.suits_dir suits).mpr dir)⟩
      exact ⟨_, _, _, rfl, .written made⟩
  | @written target thing rows _ made =>
    have made' : job.Made w e target thing (rows ++ [.created target]) ⟨now.tree, now.rows ++ [.created target]⟩ :=
      ⟨made.goes, made.own, made.free, made.made, made.tree, by rw [made.rows, List.append_assoc]⟩
    exact ⟨_, _, _, rfl, .done made' (List.mem_append_right _ List.mem_cons_self)⟩
  | done made row => exact ⟨_, _, _, rfl, .done made row⟩
  | merged dir => exact ⟨_, _, _, rfl, .merged dir⟩
  | skipped leaf => exact ⟨_, _, _, rfl, .skipped leaf⟩
  | failed => exact ⟨_, _, _, rfl, .failed⟩

theorem fly_along (n : Nat) {w now : World K} {e : Entry} {payload : Payload} {stage : Stage} (calm : job.Calm w.tree e)
    (along : job.Along w e payload stage now) :
    ∃ payload' stage' now', job.fly n ⟨e, job.targetOf e, payload, stage⟩ now = (⟨e, job.targetOf e, payload', stage'⟩, now') ∧
      job.Along w e payload' stage' now' := by
  induction n generalizing payload stage now with
  | zero => exact ⟨_, _, _, rfl, along⟩
  | succ n ih =>
    obtain ⟨payload', stage', now', moved, along'⟩ := job.call_along calm along
    rw [fly, moved]
    exact ih along'

/-- How an entry alone begins. -/
theorem board_along (w : World K) (e : Entry) :
    ∃ payload stage, job.board e (job.targetOf e) = ⟨e, job.targetOf e, payload, stage⟩ ∧ job.Along w e payload stage w := by
  unfold board
  split
  · rename_i kind
    exact ⟨_, _, rfl, .look kind⟩
  · rename_i kind
    exact ⟨_, _, rfl, .look kind⟩
  · rename_i kind
    split
    · exact ⟨_, _, rfl, .skipped (by simp [kind])⟩
    · rename_i preserve
      exact ⟨_, _, rfl, .probe kind (.inl ⟨rfl, preserve⟩)⟩
    · rename_i follow
      exact ⟨_, _, rfl, .probe kind (.inr ⟨rfl, follow⟩)⟩
  · exact ⟨_, _, rfl, .failed⟩

/-- What becomes of an entry that comes to no error: it is left, or was there, or is written. -/
theorem copyAlone_made {w now : World K} {e : Entry} {placed : Placed} (calm : job.Calm w.tree e)
    (alone : job.copyAlone e w = (.ok placed, now)) : (now = w ∧ ((placed = .skipped ∧ e.kind ≠ .dir) ∨ e.kind = .dir)) ∨
      ∃ target thing rows, placed = .done ∧ job.Made w e target thing rows now ∧ .created target ∈ rows := by
  obtain ⟨payload, stage, begun, along⟩ := job.board_along w e
  have begun' : job.board e (rebase e.path job.source job.dest) = ⟨e, job.targetOf e, payload, stage⟩ := begun
  obtain ⟨payload', stage', now', flown, along'⟩ := job.fly_along stage.rank calm along
  simp only [copyAlone, begun', flown] at alone
  cases along' with
  | done made row =>
    obtain ⟨done, rfl⟩ := Prod.mk.inj alone
    exact .inr ⟨_, _, _, (Except.ok.inj done).symm, made, row⟩
  | merged dir =>
    obtain ⟨-, rfl⟩ := Prod.mk.inj alone
    exact .inl ⟨rfl, .inr dir⟩
  | skipped leaf =>
    obtain ⟨skipped, rfl⟩ := Prod.mk.inj alone
    exact .inl ⟨rfl, .inl ⟨(Except.ok.inj skipped).symm, leaf⟩⟩
  | _ => cases (Prod.mk.inj alone).1

/-! ### One after another -/

/-- The destination has what an entry was when the task began, as the task wrote it. -/
def Held (start now : World K) (e : Entry) : Prop := ∃ target thing added, job.Goes e target ∧
  job.made start.tree e target = .ok thing ∧ now.tree (job.place target) = some thing ∧
    now.rows = start.rows ++ added ∧ .created target ∈ added

/-- What is read of the entries is not disturbed by what is made of them. -/
def Reads (entries : List Entry) : Prop :=
  ∀ now then_ : K → Option Thing, (∀ k, (∀ e ∈ entries, ∀ p, job.Goes e p → job.place p ≠ k) → now k = then_ k) →
    ∀ e ∈ entries, job.read now e.path = job.read then_ e.path ∧ job.readLink now e.path = job.readLink then_ e.path

def Leaf (e : Entry) : Prop := e.kind ≠ .dir

instance (e : Entry) : Decidable (Leaf e) := inferInstanceAs (Decidable (_ ≠ _))

/-- Where a leaf may replace what stands at its target, no two of them have one target. -/
def Distinct (entries : List Entry) : Prop := job.Replaces → ((entries.filter fun e => Leaf e).map job.placeOf).Nodup

omit [DecidableEq K] in
theorem made_congr {now then_ : K → Option Thing} {e : Entry} (read : job.read now e.path = job.read then_ e.path)
    (link : job.readLink now e.path = job.readLink then_ e.path) (target : VPath) :
    job.made now e target = job.made then_ e target := by
  simp only [made, read, link]

/-- A place at which none of the entries is written. -/
def Elsewhere (entries : List Entry) (k : K) : Prop := ∀ e ∈ entries, ∀ p, job.Goes e p → job.place p ≠ k

/-- What a plan that was copied left of its entries, from any moment on. -/
structure Leaves (start now w' : World K) (entries rest : List Entry) (skipped : List VPath) : Prop where
  still : ∀ k, job.Elsewhere entries k → w'.tree k = now.tree k
  rows : ∃ more, w'.rows = now.rows ++ more
  kept : ∀ k thing, now.tree k = some thing →
    (∀ e ∈ rest, Leaf e → job.placeOf e = k → job.collide e (job.targetOf e) thing ≠ .clear) → w'.tree k = some thing
  each : ∀ e ∈ rest, Leaf e → e.path ∈ skipped ∨ job.Held start w' e

variable {job} {start now w' : World K} {entries rest : List Entry} {skipped : List VPath}

theorem Reads.calm (reads : job.Reads entries) {e : Entry} (member : e ∈ entries) (tree : K → Option Thing) : job.Calm tree e := by
  intro target goes x
  apply (reads _ _ _ e member).1
  intro k away
  exact Function.update_of_ne (away e member target goes).symm ..

/-- An entry alone takes nothing away, but for what it replaces. -/
theorem kept_alone {e : Entry} {placed : Placed} (calm : job.Calm now.tree e) (alone : job.copyAlone e now = (.ok placed, w'))
    {k : K} {thing : Thing} (there : now.tree k = some thing)
    (spares : Leaf e → job.placeOf e = k → job.collide e (job.targetOf e) thing ≠ .clear) : w'.tree k = some thing := by
  rcases job.copyAlone_made calm alone with ⟨rfl, -⟩ | ⟨target, thing', rows, -, made, -⟩
  · exact there
  · have away : k ≠ job.place target := by
      rintro rfl
      rcases made.free with free | ⟨old, leaf⟩
      · rw [free] at there
        cases there
      · have own := congrArg job.place (made.own old.replaces)
        obtain ⟨thing', here, clear⟩ := old
        obtain rfl := Option.some.inj (here.symm.trans ((congrArg now.tree own).symm.trans there))
        exact spares leaf own.symm clear
    rw [made.tree, Function.update_of_ne away]
    exact there

omit [DecidableEq K] in
theorem Distinct.head {e : Entry} (distinct : job.Distinct (e :: rest)) (leaf : Leaf e) (replaces : job.Replaces) :
    ∀ e' ∈ rest, Leaf e' → job.placeOf e' ≠ job.placeOf e := by
  intro e' member leaf' same
  have once := distinct replaces
  rw [List.filter_cons_of_pos (by simpa using leaf), List.map_cons, List.nodup_cons] at once
  exact once.1 (same ▸ List.mem_map_of_mem (List.mem_filter.mpr ⟨member, by simpa using leaf'⟩))

omit [DecidableEq K] in
theorem Distinct.tail {e : Entry} (distinct : job.Distinct (e :: rest)) : job.Distinct rest := fun replaces =>
  (distinct replaces).sublist (((List.sublist_cons_self e rest).filter _).map _)

theorem oneByOne_leaves (reads : job.Reads entries) (inside : ∀ e ∈ rest, e ∈ entries) (distinct : job.Distinct rest)
    (same : ∀ k, job.Elsewhere entries k → now.tree k = start.tree k) {added : List Mutation} (rows : now.rows = start.rows ++ added)
    (copied : job.copyOneByOne rest now = (.ok skipped, w')) : job.Leaves start now w' entries rest skipped := by
  induction rest generalizing now added skipped with
  | nil =>
    obtain ⟨-, rfl⟩ := Prod.mk.inj copied
    exact ⟨fun _ _ => rfl, ⟨[], (List.append_nil _).symm⟩, fun _ _ there _ => there, fun e member => (List.not_mem_nil member).elim⟩
  | cons e rest ih =>
    rw [List.forall_mem_cons] at inside
    have calm := reads.calm inside.1 now.tree
    rw [copyOneByOne] at copied
    cases alone : job.copyAlone e now with
    | mk result next =>
    rw [alone] at copied
    cases result with
    | error error => cases (Prod.mk.inj copied).1
    | ok placed =>
    simp only at copied
    cases later : job.copyOneByOne rest next with
    | mk result last =>
    rw [later] at copied
    cases result with
    | error error => cases (Prod.mk.inj copied).1
    | ok skipped' =>
    obtain ⟨told, rfl⟩ := Prod.mk.inj copied
    obtain rfl := Except.ok.inj told
    -- The entry at hand, and then the rest from where it leaves off.
    have first : (∀ k, job.Elsewhere entries k → next.tree k = now.tree k) ∧ (∃ more, next.rows = now.rows ++ more) := by
      rcases job.copyAlone_made calm alone with ⟨rfl, -⟩ | ⟨target, thing, more, -, made, -⟩
      · exact ⟨fun _ _ => rfl, [], (List.append_nil _).symm⟩
      · refine ⟨fun k away => ?_, more, made.rows⟩
        rw [made.tree]
        exact Function.update_of_ne (away e inside.1 target made.goes).symm ..
    obtain ⟨still, more, rows'⟩ := first
    have after := ih inside.2 distinct.tail (fun k away => (still k away).trans (same k away))
      (rows'.trans (by rw [rows, List.append_assoc])) later
    refine ⟨fun k away => (after.still k away).trans (still k away), ?_, fun k thing there others => ?_, ?_⟩
    · obtain ⟨more', rows''⟩ := after.rows
      exact ⟨more ++ more', by rw [rows'', rows', List.append_assoc]⟩
    · rw [List.forall_mem_cons] at others
      exact after.kept k thing (kept_alone calm alone there others.1) others.2
    · rw [List.forall_mem_cons]
      refine ⟨fun leaf => ?_, fun e' member leaf => (after.each e' member leaf).imp_left fun inside => ?_⟩
      · rcases job.copyAlone_made calm alone with ⟨-, ⟨rfl, -⟩ | dir⟩ | ⟨target, thing, own, -, made, row⟩
        · exact .inl (by simp)
        · exact absurd dir leaf
        · obtain ⟨more', rows''⟩ := after.rows
          refine .inr ⟨target, thing, added ++ own ++ more', made.goes, ?_, ?_, ?_, ?_⟩
          · obtain ⟨read, link⟩ := reads now.tree start.tree same e inside.1
            rw [← job.made_congr read link]
            exact made.made
          · apply after.kept _ thing
            · rw [made.tree, Function.update_self]
            · intro e' member leaf' same clear
              have replaces := replaces_of_clear clear
              apply distinct.head leaf replaces e' member leaf'
              rw [same, made.own replaces]
              rfl
          · rw [rows'', made.rows, rows]
            simp only [List.append_assoc]
          · exact List.mem_append_left _ (List.mem_append_right _ row)
      · split
        · exact List.mem_cons_of_mem _ inside
        · exact inside

end Job

end Norte.Transfer
