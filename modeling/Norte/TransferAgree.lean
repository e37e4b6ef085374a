import Norte.TransferRun

/-! Files on their way together come to what they come to one at a time: the same destination, the
same rows and the same files skipped, in whatever order their calls were answered. -/
namespace Norte.Transfer

open Sync (Entry EntryKind)

/-- How many calls an entry is from its end, at most. -/
def Stage.rank : Stage → Nat
  | probe => 1011
  | look => 1010
  | candidate n => 4 + (1002 - n)
  | clear => 4
  | cleared => 3
  | write _ => 2
  | written _ => 1
  | ended _ => 0

/-- A call at one's own name. -/
def Stage.Stays (own : VPath) : Stage → Prop
  | look | clear | cleared | ended _ => True
  | write target | written target => target = own
  | probe | candidate _ => False

namespace Job

variable {K : Type} [DecidableEq K] (job : Job K)

omit [DecidableEq K] in
theorem look_rank (f : Flight) (existing : Option Thing) : (job.look f existing).rank < 1010 := by
  unfold look merge collide overwriteExisting
  repeat' split
  all_goals simp only [Stage.rank]; omega

/-- Every call of an entry that has not ended brings it nearer to its end. -/
theorem call_rank {f : Flight} (running : f.stage.rank ≠ 0) (w : World K) : (job.call f w).1.stage.rank < f.stage.rank := by
  cases stage : f.stage with
  | probe =>
    simp only [call, stage]
    split
    · split <;> simp [Stage.rank]
    all_goals split <;> simp [Stage.rank]
  | look =>
    simp only [call, stage]
    exact job.look_rank f _
  | candidate n =>
    simp only [call, stage]
    split
    · simp only [Stage.rank]
      omega
    · split
      · simp only [Stage.rank]
        omega
      · split
        · simp only [Stage.rank]
          omega
        · simp only [Stage.rank]
          omega
  | clear => simp [call, stage, Stage.rank]
  | cleared => simp [call, stage, Stage.rank]
  | write target =>
    simp only [call, stage]
    split
    · unfold taken
      repeat' split
      all_goals simp [Stage.rank]
    · split <;> simp [Stage.rank]
  | written target => simp [call, stage, Stage.rank]
  | ended result => simp [stage, Stage.rank] at running

/-- An entry alone, for so many calls. -/
def fly : Nat → Flight → World K → Flight × World K
  | 0, f, w => (f, w)
  | n + 1, f, w => fly n (job.call f w).1 (job.call f w).2

theorem fly_ends {n : Nat} {f : Flight} (enough : f.stage.rank ≤ n) (w : World K) : (job.fly n f w).1.stage.rank = 0 := by
  induction n generalizing f w with
  | zero => exact Nat.le_zero.mp enough
  | succ n ih =>
    apply ih
    by_cases running : f.stage.rank = 0
    · have still : (job.call f w).1.stage.rank = 0 := by
        cases stage : f.stage <;> simp [call, stage, Stage.rank] at running ⊢
      omega
    · have := job.call_rank running w
      omega

theorem fly_ended {f : Flight} {result : Except Error Placed} (stage : f.stage = .ended result) (n : Nat) (w : World K) :
    job.fly n f w = (f, w) := by
  induction n with
  | zero => rfl
  | succ n ih =>
    have still : job.call f w = (f, w) := by simp [call, stage]
    rw [fly, still, ih]

/-- One entry from its beginning to its end. -/
def copyAlone (e : Entry) (w : World K) : Except Error Placed × World K :=
  let begun := job.board e (rebase e.path job.source job.dest)
  let came := job.fly begun.stage.rank begun w
  match came.1.stage with
  | .ended result => (result, came.2)
  | _ => (.error (.internal false), came.2)

/-- The entries one after another, up to the first error. -/
def copyOneByOne : List Entry → World K → Except Error (List VPath) × World K
  | [], w => (.ok [], w)
  | e :: rest, w =>
    match job.copyAlone e w with
    | (.error error, w) => (.error error, w)
    | (.ok placed, w) =>
      match copyOneByOne rest w with
      | (.error error, w) => (.error error, w)
      | (.ok skipped, w) => (.ok (if placed = .skipped then e.path :: skipped else skipped), w)

/-! ### A file touches its own place only -/

/-- Where an entry goes. -/
def targetOf (e : Entry) : VPath := rebase e.path job.source job.dest

def placeOf (e : Entry) : K := job.place (job.targetOf e)

/-- A file that goes to its own name, and to no other. -/
structure Plain (f : Flight) : Prop where
  payload : f.payload = .file
  target : f.target = job.targetOf f.entry
  stays : f.stage.Stays (job.targetOf f.entry)

omit [DecidableEq K] in
theorem board_plain {e : Entry} (file : e.kind = .file) : job.Plain (job.board e (job.targetOf e)) := by
  have begun : job.board e (job.targetOf e) = ⟨e, job.targetOf e, .file, .look⟩ := by simp only [board, file]
  rw [begun]
  exact ⟨rfl, rfl, trivial⟩

omit [DecidableEq K] in
theorem look_stays (sure : job.opts.onCollision ≠ .renameAuto) {f : Flight} (file : f.payload = .file) (existing : Option Thing) :
    (job.look f existing).Stays f.target := by
  cases existing with
  | none => rfl
  | some thing =>
    simp only [look, file, reduceCtorEq, if_false]
    unfold collide overwriteExisting
    repeat' split
    all_goals first | exact True.intro | exact absurd ‹_› sure

/-- What a file does depends on its own place and on what is read of it, and changes no other place. -/
theorem call_own (sure : job.opts.onCollision ≠ .renameAuto) {f : Flight} (plain : job.Plain f) (here : Option Thing)
    (content : Except Error Bytes) : ∃ g here' rows, job.Plain g ∧ g.entry = f.entry ∧
      ∀ w : World K, w.tree (job.placeOf f.entry) = here → job.read w.tree f.entry.path = content →
        job.call f w = (g, ⟨Function.update w.tree (job.placeOf f.entry) here', w.rows ++ rows⟩) := by
  obtain ⟨payload, target, stays⟩ := plain
  have looked := job.look_stays sure payload here
  rw [target] at looked
  have place : job.place f.target = job.placeOf f.entry := by rw [target]; rfl
  -- A call that decides only.
  have only (stage : Stage) (plain' : job.Plain { f with stage := stage })
      (calls : ∀ w : World K, w.tree (job.placeOf f.entry) = here → job.read w.tree f.entry.path = content →
        job.call f w = ({ f with stage := stage }, w)) : ∃ g here' rows, job.Plain g ∧ g.entry = f.entry ∧
      ∀ w : World K, w.tree (job.placeOf f.entry) = here → job.read w.tree f.entry.path = content →
        job.call f w = (g, ⟨Function.update w.tree (job.placeOf f.entry) here', w.rows ++ rows⟩) := by
    refine ⟨_, here, [], plain', rfl, fun w at_ read => ?_⟩
    rw [calls w at_ read, ← at_, Function.update_eq_self, List.append_nil]
  cases stage : f.stage with
  | probe =>
    rw [stage] at stays
    exact stays.elim
  | candidate n =>
    rw [stage] at stays
    exact stays.elim
  | look =>
    apply only (job.look f here) ⟨payload, target, looked⟩
    intro w at_ _
    simp only [call, stage, place, at_]
  | clear =>
    refine ⟨{ f with stage := .cleared }, none, [], ⟨payload, target, trivial⟩, rfl, fun w at_ _ => ?_⟩
    simp only [call, stage, place, List.append_nil]
  | cleared =>
    refine ⟨{ f with stage := .write f.target }, here, [.removed f.target], ⟨payload, target, target⟩, rfl, fun w at_ _ => ?_⟩
    simp only [call, stage, ← at_, Function.update_eq_self]
  | ended result =>
    apply only (.ended result) ⟨payload, target, trivial⟩
    intro w at_ _
    simp only [call, stage]
    rw [← stage]
  | written own =>
    refine ⟨{ f with stage := .ended (.ok .done) }, here, [.created own], ⟨payload, target, trivial⟩, rfl, fun w at_ _ => ?_⟩
    simp only [call, stage, ← at_, Function.update_eq_self]
  | write own =>
    rw [stage] at stays
    obtain rfl : own = job.targetOf f.entry := stays
    cases here with
    | some thing =>
      apply only (job.taken f thing)
      · refine ⟨payload, target, ?_⟩
        simp [taken, payload, Stage.Stays]
      · intro w at_ _
        have at_' : w.tree (job.place (job.targetOf f.entry)) = some thing := at_
        simp only [call, stage, at_']
    | none =>
      cases content with
      | error e =>
        apply only (.ended (.error e)) ⟨payload, target, trivial⟩
        intro w at_ read
        have at_' : w.tree (job.place (job.targetOf f.entry)) = none := at_
        simp only [call, stage, at_', carries, payload, read, Except.map]
      | ok bytes =>
        refine ⟨{ f with stage := .written (job.targetOf f.entry) }, some ⟨.file, bytes, job.stamp (job.targetOf f.entry)⟩, [],
          ⟨payload, target, rfl⟩, rfl, fun w at_ read => ?_⟩
        have at_' : w.tree (job.place (job.targetOf f.entry)) = none := at_
        simp only [call, stage, at_', carries, payload, read, Except.map, List.append_nil]
        rfl

/-! ### A file alone -/

/-- Reading the files of a group is not disturbed by what becomes of them. -/
def Steady (tree : K → Option Thing) (group : List Entry) : Prop :=
  ∀ now : K → Option Thing, (∀ k, (∀ e ∈ group, job.placeOf e ≠ k) → now k = tree k) →
    ∀ e ∈ group, job.read now e.path = job.read tree e.path

theorem fly_own (sure : job.opts.onCollision ≠ .renameAuto) (n : Nat) {f : Flight} (plain : job.Plain f) (here : Option Thing)
    (content : Except Error Bytes) : ∃ g here' rows, job.Plain g ∧ g.entry = f.entry ∧
      ∀ w : World K, w.tree (job.placeOf f.entry) = here →
        (∀ x, job.read (Function.update w.tree (job.placeOf f.entry) x) f.entry.path = content) →
        job.fly n f w = (g, ⟨Function.update w.tree (job.placeOf f.entry) here', w.rows ++ rows⟩) := by
  induction n generalizing f here with
  | zero =>
    refine ⟨f, here, [], plain, rfl, fun w at_ _ => ?_⟩
    rw [fly, ← at_, Function.update_eq_self, List.append_nil]
  | succ n ih =>
    obtain ⟨g, here', rows, plain', same, calls⟩ := job.call_own sure plain here content
    obtain ⟨last, here'', rows', plain'', same', flies⟩ := ih plain' here'
    refine ⟨last, here'', rows ++ rows', plain'', same'.trans same, fun w at_ read => ?_⟩
    have first := read here
    rw [← at_, Function.update_eq_self] at first
    rw [fly, calls w at_ first]
    rw [same] at flies
    have := flies ⟨Function.update w.tree (job.placeOf f.entry) here', w.rows ++ rows⟩ (Function.update_self ..)
      fun x => by rw [Function.update_idem]; exact read x
    rw [this, Function.update_idem, List.append_assoc]

theorem fly_add (m n : Nat) (f : Flight) (w : World K) : job.fly (m + n) f w = job.fly n (job.fly m f w).1 (job.fly m f w).2 := by
  induction m generalizing f w with
  | zero => rw [Nat.zero_add, fly]
  | succ m ih => rw [Nat.succ_add, fly, ih, fly]

/-- A file alone from what there was, after so many calls. -/
def solo (tree : K → Option Thing) (e : Entry) (n : Nat) : Flight × World K :=
  job.fly n (job.board e (job.targetOf e)) ⟨tree, []⟩

theorem solo_succ (tree : K → Option Thing) (e : Entry) (n : Nat) :
    job.solo tree e (n + 1) = job.call (job.solo tree e n).1 (job.solo tree e n).2 := by
  rw [solo, fly_add, ← solo, fly, fly]

/-- An entry that has ended after some calls has ended so. -/
theorem fly_same {m n : Nat} {f : Flight} {w : World K} {result : Except Error Placed} (enough : f.stage.rank ≤ m)
    (ended : (job.fly n f w).1.stage = .ended result) : job.fly m f w = job.fly n f w := by
  have rank := job.fly_ends enough w
  have one := job.fly_add n m f w
  rw [job.fly_ended ended, Nat.add_comm, fly_add] at one
  apply Eq.trans _ one
  cases stage : (job.fly m f w).1.stage with
  | ended result => exact (job.fly_ended stage n _).symm
  | _ => simp [stage, Stage.rank] at rank

theorem copyAlone_of_solo {tree : K → Option Thing} {e : Entry} {n : Nat} {result : Except Error Placed}
    (ended : (job.solo tree e n).1.stage = .ended result) : job.copyAlone e ⟨tree, []⟩ = (result, (job.solo tree e n).2) := by
  have whole : job.fly (job.board e (rebase e.path job.source job.dest)).stage.rank
      (job.board e (rebase e.path job.source job.dest)) ⟨tree, []⟩ = job.solo tree e n :=
    job.fly_same (Nat.le_refl _) ended
  simp only [copyAlone, whole, ended]

/-- A file alone: what it comes to is the same wherever its place and its content are. -/
theorem copyAlone_own (sure : job.opts.onCollision ≠ .renameAuto) {e : Entry} (file : e.kind = .file) (w : World K)
    (read : ∀ x, job.read (Function.update w.tree (job.placeOf e) x) e.path = job.read w.tree e.path) :
    ∃ result here rows, ∀ w' : World K, w'.tree (job.placeOf e) = w.tree (job.placeOf e) →
      (∀ x, job.read (Function.update w'.tree (job.placeOf e) x) e.path = job.read w.tree e.path) →
      job.copyAlone e w' = (result, ⟨Function.update w'.tree (job.placeOf e) here, w'.rows ++ rows⟩) := by
  have plain := job.board_plain file
  have begun : (job.board e (job.targetOf e)).entry = e := Run.board_entry job e _
  obtain ⟨g, here, rows, -, -, flies⟩ := job.fly_own sure (job.board e (job.targetOf e)).stage.rank plain
    (w.tree (job.placeOf e)) (job.read w.tree e.path)
  rw [begun] at flies
  have ends := job.fly_ends (Nat.le_refl (job.board e (job.targetOf e)).stage.rank) w
  rw [flies w rfl read] at ends
  cases stage : g.stage with
  | ended result =>
    refine ⟨result, here, rows, fun w' at_ read' => ?_⟩
    have whole : job.fly (job.board e (rebase e.path job.source job.dest)).stage.rank
        (job.board e (rebase e.path job.source job.dest)) w' = _ := flies w' at_ read'
    simp only [copyAlone, whole, stage]
  | _ => simp [stage, Stage.rank] at ends

/-! ### One after another -/

/-- What a group of files comes to: each to what it comes to alone, and nothing else changes. -/
structure ComesTo (w : World K) (group : List Entry) (w' : World K) (skipped : List VPath) : Prop where
  placed : ∀ e ∈ group, w'.tree (job.placeOf e) = (job.copyAlone e ⟨w.tree, []⟩).2.tree (job.placeOf e)
  still : ∀ k, (∀ e ∈ group, job.placeOf e ≠ k) → w'.tree k = w.tree k
  rows : w'.rows.Perm (w.rows ++ group.flatMap fun e => (job.copyAlone e ⟨w.tree, []⟩).2.rows)
  skips : skipped.Perm (group.filterMap fun e =>
    if (job.copyAlone e ⟨w.tree, []⟩).1 = .ok .skipped then some e.path else none)

theorem ComesTo.unique {job : Job K} {w w₁ w₂ : World K} {group : List Entry} {skipped₁ skipped₂ : List VPath}
    (one : job.ComesTo w group w₁ skipped₁) (two : job.ComesTo w group w₂ skipped₂) :
    w₁.tree = w₂.tree ∧ w₁.rows.Perm w₂.rows ∧ skipped₁.Perm skipped₂ := by
  refine ⟨?_, one.rows.trans two.rows.symm, one.skips.trans two.skips.symm⟩
  funext k
  by_cases own : ∃ e ∈ group, job.placeOf e = k
  · obtain ⟨e, member, rfl⟩ := own
    rw [one.placed e member, two.placed e member]
  · have other : ∀ e ∈ group, job.placeOf e ≠ k := fun e member same => own ⟨e, member, same⟩
    rw [one.still k other, two.still k other]

theorem Steady.update {job : Job K} {tree now : K → Option Thing} {group : List Entry} (steady : job.Steady tree group)
    (same : ∀ k, (∀ e ∈ group, job.placeOf e ≠ k) → now k = tree k) {e : Entry} (member : e ∈ group) (x : Option Thing) :
    job.read (Function.update now (job.placeOf e) x) e.path = job.read tree e.path := by
  apply steady _ _ e member
  intro k others
  rw [Function.update_of_ne (others e member).symm]
  exact same k others

/-- Files that each come to an end without an error alone do so one after another. -/
theorem oneByOne_comesTo (sure : job.opts.onCollision ≠ .renameAuto) {group : List Entry} (files : ∀ e ∈ group, e.kind = .file)
    (apart : (group.map job.placeOf).Nodup) (w : World K) (steady : job.Steady w.tree group)
    (fine : ∀ e ∈ group, ∃ placed, (job.copyAlone e ⟨w.tree, []⟩).1 = .ok placed) :
    ∃ skipped w', job.copyOneByOne group w = (.ok skipped, w') ∧ job.ComesTo w group w' skipped := by
  -- The files that are done stand before the rest; the rest still has what there was.
  suffices later : ∀ rest, rest <:+ group → ∀ now : World K,
      (∀ k, (∀ e ∈ group, job.placeOf e ≠ k) → now.tree k = w.tree k) →
      (∀ e ∈ rest, now.tree (job.placeOf e) = w.tree (job.placeOf e)) →
      ∃ skipped w', job.copyOneByOne rest now = (.ok skipped, w') ∧
        (∀ e ∈ rest, w'.tree (job.placeOf e) = (job.copyAlone e ⟨w.tree, []⟩).2.tree (job.placeOf e)) ∧
        (∀ k, (∀ e ∈ rest, job.placeOf e ≠ k) → w'.tree k = now.tree k) ∧
        w'.rows = now.rows ++ rest.flatMap (fun e => (job.copyAlone e ⟨w.tree, []⟩).2.rows) ∧
        skipped = rest.filterMap fun e => if (job.copyAlone e ⟨w.tree, []⟩).1 = .ok .skipped then some e.path else none by
    obtain ⟨skipped, w', ran, placed, still, rows, skips⟩ := later group List.suffix_rfl w (fun _ _ => rfl) fun _ _ => rfl
    exact ⟨skipped, w', ran, placed, still, by rw [rows], by rw [skips]⟩
  intro rest suffix
  induction rest with
  | nil => exact fun now _ _ => ⟨[], now, rfl, by simp, by simp, by simp, rfl⟩
  | cons e rest ih =>
    intro now same waiting
    have inside : ∀ x ∈ e :: rest, x ∈ group := fun _ member => suffix.subset member
    have member := inside e List.mem_cons_self
    obtain ⟨result, here, rows, alone⟩ := job.copyAlone_own sure (files e member) ⟨w.tree, []⟩
      (steady.update (fun _ _ => rfl) member)
    obtain ⟨placed, ended⟩ := fine e member
    have first := alone ⟨w.tree, []⟩ rfl (steady.update (fun _ _ => rfl) member)
    obtain rfl : result = .ok placed := by rw [first] at ended; exact ended
    have calls := alone now (waiting e List.mem_cons_self) (steady.update same member)
    have once : ∀ x ∈ rest, job.placeOf x ≠ job.placeOf e := by
      have nodup : ((e :: rest).map job.placeOf).Nodup := apart.sublist (suffix.sublist.map _)
      rw [List.map_cons, List.nodup_cons] at nodup
      exact fun x member' alike => nodup.1 (alike ▸ List.mem_map_of_mem member')
    obtain ⟨skipped, w', ran, placed', still, rows', skips⟩ := ih ((List.suffix_cons e rest).trans suffix)
      ⟨Function.update now.tree (job.placeOf e) here, now.rows ++ rows⟩
      (fun k others => (Function.update_of_ne (others e member).symm ..).trans (same k others))
      (fun x member' => (Function.update_of_ne (once x member') ..).trans (waiting x (List.mem_cons_of_mem _ member')))
    refine ⟨_, w', by rw [copyOneByOne, calls]; simp only [ran]; rfl, ?_, ?_, ?_, ?_⟩
    · rw [List.forall_mem_cons]
      refine ⟨?_, placed'⟩
      rw [still _ once, first]
      exact (Function.update_self ..).trans (Function.update_self (job.placeOf e) here w.tree).symm
    · intro k others
      rw [List.forall_mem_cons] at others
      exact (still k others.2).trans (Function.update_of_ne others.1.symm ..)
    · rw [rows', List.flatMap_cons, first, List.nil_append, List.append_assoc]
    · rw [List.filterMap_cons, first, skips]
      cases placed <;> rfl

end Job

end Norte.Transfer
