import Norte.TransferAgree

/-! Files on their way together, each where it would be alone: from there the run of a group comes
to what its files come to one at a time. -/
namespace Norte.Transfer

open Sync (Entry EntryKind)

def Event.flight : Event → Option Flight
  | landed f _ => some f
  | begun _ | refused .. => none

def Flight.skip (f : Flight) : Option VPath := if f.stage = .ended (.ok .skipped) then some f.entry.path else none

variable {K : Type} [DecidableEq K] {job : Job K} {w : World K} {group : List Entry} {spent : Entry → Nat}

namespace Job

theorem solo_own (sure : job.opts.onCollision ≠ .renameAuto) (steady : job.Steady w.tree group) {e : Entry} (member : e ∈ group)
    (file : e.kind = .file) (n : Nat) : job.Plain (job.solo w.tree e n).1 ∧ (job.solo w.tree e n).1.entry = e ∧
      ∀ k, job.placeOf e ≠ k → (job.solo w.tree e n).2.tree k = w.tree k := by
  have begun : (job.board e (job.targetOf e)).entry = e := Run.board_entry job e _
  obtain ⟨g, here, rows, plain, same, flies⟩ := job.fly_own sure n (job.board_plain file) (w.tree (job.placeOf e))
    (job.read w.tree e.path)
  rw [begun] at same flies
  have flown := flies ⟨w.tree, []⟩ rfl (steady.update (fun _ _ => rfl) member)
  rw [← solo] at flown
  rw [flown]
  exact ⟨plain, same, fun k other => Function.update_of_ne other.symm ..⟩

/-- Each of these is where it would be alone after the calls it had. -/
structure Woven (job : Job K) (w : World K) (spent : Entry → Nat) (flown : List Flight) (now : World K) : Prop where
  alone : ∀ f ∈ flown, (job.solo w.tree f.entry (spent f.entry)).1 = f ∧
    now.tree (job.placeOf f.entry) = (job.solo w.tree f.entry (spent f.entry)).2.tree (job.placeOf f.entry)
  still : ∀ k, (∀ f ∈ flown, job.placeOf f.entry ≠ k) → now.tree k = w.tree k
  rows : now.rows.Perm (w.rows ++ flown.flatMap fun f => (job.solo w.tree f.entry (spent f.entry)).2.rows)

variable {flown flown' : List Flight} {now : World K}

theorem Woven.perm (woven : job.Woven w spent flown now) (perm : flown.Perm flown') : job.Woven w spent flown' now where
  alone f member := woven.alone f (perm.mem_iff.mpr member)
  still k others := woven.still k fun f member => others f (perm.mem_iff.mp member)
  rows := woven.rows.trans ((perm.flatMap_right _).append_left _)

theorem Woven.board (woven : job.Woven w spent flown now) {e : Entry} (free : ∀ f ∈ flown, job.placeOf f.entry ≠ job.placeOf e) :
    job.Woven w (Function.update spent e 0) (job.board e (job.targetOf e) :: flown) now := by
  have begun : (job.board e (job.targetOf e)).entry = e := Run.board_entry job e _
  have others (f : Flight) (member : f ∈ flown) : Function.update spent e 0 f.entry = spent f.entry :=
    Function.update_of_ne (fun same => free f member (by rw [same])) ..
  refine ⟨?_, fun k away => woven.still k fun f member => away f (List.mem_cons_of_mem _ member), ?_⟩
  · rw [List.forall_mem_cons, begun, Function.update_self]
    refine ⟨⟨rfl, woven.still _ free⟩, fun f member => ?_⟩
    rw [others f member]
    exact woven.alone f member
  · have same : flown.flatMap (fun f => (job.solo w.tree f.entry (Function.update spent e 0 f.entry)).2.rows) =
        flown.flatMap fun f => (job.solo w.tree f.entry (spent f.entry)).2.rows :=
      List.flatMap_congr fun f member => by rw [others f member]
    rw [List.flatMap_cons, begun, Function.update_self, same]
    exact woven.rows

theorem Woven.call (sure : job.opts.onCollision ≠ .renameAuto) (steady : job.Steady w.tree group) {f : Flight} {rest : List Flight}
    (woven : job.Woven w spent (f :: rest) now) (inside : ∀ g ∈ f :: rest, g.entry ∈ group) (file : f.entry.kind = .file)
    (free : ∀ g ∈ rest, job.placeOf g.entry ≠ job.placeOf f.entry) :
    job.Woven w (Function.update spent f.entry (spent f.entry + 1)) ((job.call f now).1 :: rest) (job.call f now).2 := by
  obtain ⟨own, here⟩ := woven.alone f List.mem_cons_self
  have member := inside f List.mem_cons_self
  obtain ⟨plain, -, away⟩ := solo_own sure steady member file (spent f.entry)
  rw [own] at plain
  obtain ⟨g, here', rows, -, same, calls⟩ := job.call_own sure plain (now.tree (job.placeOf f.entry)) (job.read w.tree f.entry.path)
  -- The call does the same here as it does alone.
  have moved := calls now rfl (steady _ (fun k others => woven.still k fun g member' => others _ (inside g member')) _ member)
  have alone : job.solo w.tree f.entry (spent f.entry + 1) = _ := (job.solo_succ w.tree f.entry (spent f.entry)).trans
    ((congrArg (fun f' => job.call f' _) own).trans
      (calls _ here.symm (steady _ (fun k others => away k (others _ member)) _ member)))
  have others (g : Flight) (member' : g ∈ rest) : Function.update spent f.entry (spent f.entry + 1) g.entry = spent g.entry :=
    Function.update_of_ne (fun same => free g member' (by rw [same])) ..
  rw [moved]
  refine ⟨?_, fun k others' => ?_, ?_⟩
  · rw [List.forall_mem_cons, same, Function.update_self, alone]
    refine ⟨⟨rfl, (Function.update_self ..).trans (Function.update_self (f := (job.solo w.tree f.entry _).2.tree) ..).symm⟩, ?_⟩
    intro h member'
    rw [others h member']
    exact ⟨(woven.alone h (List.mem_cons_of_mem _ member')).1,
      (Function.update_of_ne (free h member') ..).trans (woven.alone h (List.mem_cons_of_mem _ member')).2⟩
  · rw [List.forall_mem_cons, same] at others'
    exact (Function.update_of_ne others'.1.symm ..).trans (woven.still k (List.forall_mem_cons.mpr others'))
  · have kept : rest.flatMap (fun h => (job.solo w.tree h.entry (Function.update spent f.entry (spent f.entry + 1) h.entry)).2.rows) =
        rest.flatMap fun h => (job.solo w.tree h.entry (spent h.entry)).2.rows :=
      List.flatMap_congr fun h member' => by rw [others h member']
    rw [List.flatMap_cons, same, Function.update_self, alone, kept]
    have before := woven.rows.append_right rows
    rw [List.flatMap_cons, List.append_assoc, List.append_assoc] at before
    apply before.trans
    rw [List.append_assoc]
    exact List.Perm.append_left _ (List.Perm.append_left _ List.perm_append_comm)

end Job

namespace Run

/-- All that took off. -/
def flown (s : Run K) : List Flight := s.history.filterMap Event.flight ++ s.flights

/-- Nothing came to an error yet. -/
structure Clean (s : Run K) : Prop where
  failed : s.failed = none
  flights : ∀ f ∈ s.flights, ∀ e, f.stage ≠ .ended (.error e)

theorem advance_clean {fault : Option Fault} {f : Flight} {now : World K}
    (clean : ∀ e, (job.advance fault f now).1.stage ≠ .ended (.error e)) : job.advance fault f now = job.call f now := by
  cases stage : f.stage with
  | ended result => simp only [Job.advance, Job.call, stage]
  | _ =>
    cases fault with
    | none => simp only [Job.advance, stage]
    | some fault =>
      cases fault with
      | refused e | unanswered e =>
        have away := clean e
        simp only [Job.advance, stage, ne_eq, not_true_eq_false] at away

/-- Where nothing has failed, nothing had. -/
theorem clean_back {s s' : Run K} {c : Choice} (steps : Steps job s c s') (clean : Clean s') : Clean s := by
  obtain ⟨failed, flights⟩ := clean
  cases steps with
  | idle => exact ⟨failed, flights⟩
  | take => exact ⟨failed, flights⟩
  | pass => exact ⟨failed, fun f member => flights f (List.mem_append_left _ member)⟩
  | refuse => cases failed
  | @call i fault before after f here at_ =>
    refine ⟨failed, fun g member e ended => ?_⟩
    rw [here] at member
    rcases List.mem_append.mp member with first | later
    · exact flights g (List.mem_append_left _ first) e ended
    · rcases List.mem_cons.mp later with rfl | last
      · apply flights _ (List.mem_append_right _ List.mem_cons_self) e
        simp only [Job.advance, ended]
      · exact flights g (List.mem_append_right _ (List.mem_cons_of_mem _ last)) e ended
  | @land i before after f result here stage =>
    cases result with
    | error e => cases failed
    | ok placed =>
      refine ⟨by cases placed <;> exact failed, fun g member e ended => ?_⟩
      obtain ⟨same, -⟩ := land_eq { s with flights := before ++ after } f (.ok placed)
      rw [same] at flights
      rw [here] at member
      rcases List.mem_append.mp member with first | later
      · exact flights g (List.mem_append_left _ first) e ended
      · rcases List.mem_cons.mp later with rfl | last
        · rw [stage] at ended
          cases ended
        · exact flights g (List.mem_append_right _ last) e ended

theorem settled_quiet {history : List Event} (quiet : history.findSome? Event.error = none) :
    history.flatMap Event.settled = (history.filterMap Event.flight).map Flight.entry := by
  induction history with
  | nil => rfl
  | cons first rest ih =>
    rw [List.findSome?_eq_none_iff, List.forall_mem_cons] at quiet
    have later := ih (List.findSome?_eq_none_iff.mpr quiet.2)
    cases first with
    | begun e => exact later
    | refused e error => cases quiet.1
    | landed f result => exact congrArg (f.entry :: ·) later

/-- What the steps of entries keep, whatever their order, as long as nothing fails. -/
structure Keeps (job : Job K) (group : List Entry) (Q : List Flight → World K → Prop) : Prop where
  perm {l l' : List Flight} {now : World K} (held : Q l now) (perm : l.Perm l') : Q l' now
  board {l : List Flight} {e : Entry} {rest : List Entry} {now : World K} (held : Q l now)
    (whole : (l.map Flight.entry ++ e :: rest).Perm group) : Q (job.board e (job.targetOf e) :: l) now
  call {f : Flight} {l : List Flight} {rest : List Entry} {now : World K} (held : Q (f :: l) now)
    (whole : ((f :: l).map Flight.entry ++ rest).Perm group) : Q ((job.call f now).1 :: l) (job.call f now).2

/-- What holds of a run that goes well. -/
structure Going (group : List Entry) (Q : List Flight → World K → Prop) (s : Run K) : Prop where
  orderly : Orderly group s
  landed : ∀ f result, .landed f result ∈ s.history → f.stage = .ended result
  held : Clean s → Q s.flown s.world

omit [DecidableEq K] in
/-- All of a group, where nothing has failed. -/
theorem flown_perm {s : Run K} (orderly : Orderly group s) (clean : Clean s) :
    (s.flown.map Flight.entry ++ (s.gate.toList ++ s.pending)).Perm group := by
  have whole := orderly.whole
  rw [entries, settled_quiet (orderly.first.symm.trans clean.failed)] at whole
  simpa [flown] using whole

variable {Q : List Flight → World K → Prop}

theorem Going.step {s s' : Run K} {c : Choice} (keeps : Keeps job group Q) (going : Going group Q s) (steps : Steps job s c s') :
    Going group Q s' := by
  have orderly := going.orderly.step steps
  have back := clean_back steps
  cases steps with
  | idle => exact going
  | take => exact ⟨orderly, going.landed, fun clean => going.held (back clean)⟩
  | refuse =>
    refine ⟨orderly, fun f result member => ?_, fun clean => by cases clean.failed⟩
    rcases List.mem_append.mp member with before | now
    · exact going.landed f result before
    · cases List.mem_singleton.mp now
  | @pass e gate =>
    refine ⟨orderly, fun f result member => ?_, fun clean => ?_⟩
    · rcases List.mem_append.mp member with before | now
      · exact going.landed f result before
      · cases List.mem_singleton.mp now
    have whole := flown_perm going.orderly (back clean)
    rw [gate] at whole
    apply keeps.perm (keeps.board (going.held (back clean)) whole)
    simp only [flown, List.filterMap_append, List.filterMap_cons, List.filterMap_nil, Event.flight, List.append_nil]
    rw [← List.append_assoc]
    exact (List.perm_append_singleton _ _).symm
  | @call i fault before after f here at_ =>
    refine ⟨orderly, going.landed, fun clean => ?_⟩
    have perm : s.flown.Perm (f :: (s.history.filterMap Event.flight ++ before ++ after)) := by
      rw [flown, here, ← List.append_assoc]
      exact List.perm_middle
    have whole := ((perm.map Flight.entry).append_right _).symm.trans (flown_perm going.orderly (back clean))
    rw [advance_clean (clean.flights _ (List.mem_append_right _ List.mem_cons_self))]
    apply keeps.perm (keeps.call (keeps.perm (going.held (back clean)) perm) whole)
    rw [flown, ← List.append_assoc]
    exact List.perm_middle.symm
  | @land i before after f result here stage =>
    obtain ⟨flights, -, -, world, history⟩ := land_eq { s with flights := before ++ after } f result
    refine ⟨orderly, fun g r member => ?_, fun clean => ?_⟩
    · rw [history] at member
      rcases List.mem_append.mp member with before | now
      · exact going.landed g r before
      · obtain ⟨rfl, rfl⟩ := Event.landed.inj (List.mem_singleton.mp now)
        exact stage
    rw [world]
    apply keeps.perm (going.held (back clean))
    rw [flown, flown, flights, history, here, List.filterMap_append]
    simp only [List.filterMap_cons, List.filterMap_nil, Event.flight, List.append_assoc]
    exact List.Perm.append_left _ List.perm_middle

/-- Where a run went well all have landed, each with an end of its own, and what was kept still holds. -/
theorem well_over (keeps : Keeps job group Q) (start : Q [] w) {schedule : List Choice}
    (finished : (drive job (fresh group w) schedule).finished = true) (fine : (drive job (fresh group w) schedule).failed = none) :
    ∃ flown, (flown.map Flight.entry).Perm group ∧ Q flown (drive job (fresh group w) schedule).world ∧
      (∀ f ∈ flown, ∃ placed, f.stage = .ended (.ok placed)) ∧
      (drive job (fresh group w) schedule).skipped = flown.filterMap Flight.skip := by
  have first : Going group Q (fresh group w) :=
    ⟨orderly_fresh group w, fun f result member => (List.not_mem_nil member).elim, fun _ => start⟩
  have going := drive_induct first (fun _ _ _ held steps => held.step keeps steps) schedule
  have perm := going.orderly.landed finished fine
  generalize drive job (fresh group w) schedule = s at finished fine going perm
  have flights := finished_flights finished
  have quiet := going.orderly.first.symm.trans fine
  have all : s.flown = s.history.filterMap Event.flight := by rw [flown, flights, List.append_nil]
  rw [settled_quiet quiet, ← all] at perm
  refine ⟨s.flown, perm, going.held ⟨fine, by simp [flights]⟩, fun f member => ?_, ?_⟩
  · rw [all] at member
    obtain ⟨event, inside, at_⟩ := List.mem_filterMap.mp member
    cases event with
    | begun e => cases at_
    | refused e error => cases at_
    | landed g result =>
      obtain rfl := Option.some.inj at_
      cases result with
      | error e => cases List.findSome?_eq_none_iff.mp quiet _ inside
      | ok placed => exact ⟨placed, going.landed g _ inside⟩
  · rw [going.orderly.skips, all, List.filterMap_filterMap]
    apply List.filterMap_congr
    intro event inside
    cases event with
    | begun e => rfl
    | refused e error => rfl
    | landed f result =>
      simp only [Event.flight, Option.bind_some, Flight.skip, going.landed f result inside]
      cases result with
      | error e => rfl
      | ok placed => cases placed <;> rfl

/-- Files that are apart stay where each would be alone. -/
theorem keeps_woven (sure : job.opts.onCollision ≠ .renameAuto) (files : ∀ e ∈ group, e.kind = .file)
    (apart : (group.map job.placeOf).Nodup) (steady : job.Steady w.tree group) :
    Keeps job group fun flown now => ∃ spent, job.Woven w spent flown now where
  perm := fun ⟨spent, woven⟩ perm => ⟨spent, woven.perm perm⟩
  board := by
    intro l e rest now ⟨spent, woven⟩ whole
    have once := ((whole.map job.placeOf).nodup_iff).mpr apart
    rw [List.map_append, List.nodup_append] at once
    exact ⟨_, woven.board fun f member =>
      once.2.2 _ (List.mem_map_of_mem (List.mem_map_of_mem member)) _ List.mem_cons_self⟩
  call := by
    intro f l rest now ⟨spent, woven⟩ whole
    have inside : ∀ g ∈ f :: l, g.entry ∈ group := fun g member =>
      whole.mem_iff.mp (List.mem_append_left _ (List.mem_map_of_mem member))
    have once := ((whole.map job.placeOf).nodup_iff).mpr apart
    rw [List.map_append] at once
    have free := (List.nodup_append.mp once).1
    simp only [List.map_cons, List.nodup_cons] at free
    exact ⟨_, woven.call sure steady inside (files _ (inside f List.mem_cons_self)) fun g member same =>
      free.1 (same ▸ List.mem_map_of_mem (List.mem_map_of_mem member))⟩

/-- A run of files that is over without an error came to what its files come to alone. -/
theorem run_comesTo (sure : job.opts.onCollision ≠ .renameAuto) (files : ∀ e ∈ group, e.kind = .file)
    (apart : (group.map job.placeOf).Nodup) (steady : job.Steady w.tree group) {schedule : List Choice}
    (finished : (drive job (fresh group w) schedule).finished = true) (fine : (drive job (fresh group w) schedule).failed = none) :
    (∀ e ∈ group, ∃ placed, (job.copyAlone e ⟨w.tree, []⟩).1 = .ok placed) ∧
      job.ComesTo w group (drive job (fresh group w) schedule).world (drive job (fresh group w) schedule).skipped := by
  have start : job.Woven w (fun _ => 0) [] w :=
    ⟨fun f member => (List.not_mem_nil member).elim, fun _ _ => rfl, by simp⟩
  obtain ⟨flown, perm, ⟨spent, woven⟩, stages, skips⟩ := well_over (keeps_woven sure files apart steady) ⟨_, start⟩ finished fine
  -- Each of them has ended where it ends alone.
  have ended : ∀ f ∈ flown, ∃ placed, f.stage = .ended (.ok placed) ∧
      job.copyAlone f.entry ⟨w.tree, []⟩ = (.ok placed, (job.solo w.tree f.entry (spent f.entry)).2) := by
    intro f member
    obtain ⟨placed, stage⟩ := stages f member
    refine ⟨placed, stage, job.copyAlone_of_solo ?_⟩
    rw [(woven.alone f member).1, stage]
  have entry {e : Entry} (member : e ∈ group) : ∃ f ∈ flown, f.entry = e := List.mem_map.mp (perm.mem_iff.mpr member)
  refine ⟨fun e member => ?_, ⟨fun e member => ?_, fun k others => ?_, ?_, ?_⟩⟩
  · obtain ⟨f, inside, rfl⟩ := entry member
    obtain ⟨placed, -, alone⟩ := ended f inside
    exact ⟨placed, by rw [alone]⟩
  · obtain ⟨f, inside, rfl⟩ := entry member
    obtain ⟨placed, -, alone⟩ := ended f inside
    rw [alone]
    exact (woven.alone f inside).2
  · exact woven.still k fun f inside => others _ (perm.mem_iff.mp (List.mem_map_of_mem inside))
  · have same : (flown.flatMap fun f => (job.solo w.tree f.entry (spent f.entry)).2.rows) =
        (flown.map Flight.entry).flatMap fun e => (job.copyAlone e ⟨w.tree, []⟩).2.rows := by
      rw [List.flatMap_map]
      apply List.flatMap_congr
      intro f inside
      obtain ⟨placed, -, alone⟩ := ended f inside
      rw [alone]
    exact woven.rows.trans ((same ▸ perm.flatMap_right _).append_left _)
  · have same : flown.filterMap Flight.skip = (flown.map Flight.entry).filterMap fun e =>
        if (job.copyAlone e ⟨w.tree, []⟩).1 = .ok .skipped then some e.path else none := by
      rw [List.filterMap_map]
      apply List.filterMap_congr
      intro f inside
      obtain ⟨placed, stage, alone⟩ := ended f inside
      simp only [Flight.skip, stage, Function.comp_apply, alone]
      cases placed <;> rfl
    rw [skips, same]
    exact perm.filterMap _

/-- An entry that has the run to itself does what it does alone. -/
theorem keeps_lone (e : Entry) : Keeps job [e] fun flown now => (flown = [] ∧ now = w) ∨
    ∃ f n, flown = [f] ∧ job.fly n (job.board e (job.targetOf e)) w = (f, now) where
  perm := by
    rintro l l' now (⟨rfl, rfl⟩ | ⟨f, n, rfl, flies⟩) perm
    · exact .inl ⟨perm.nil_eq.symm, rfl⟩
    · exact .inr ⟨f, n, List.singleton_perm.mp perm |>.symm, flies⟩
  board := by
    rintro l e' rest now (⟨rfl, rfl⟩ | ⟨f, n, rfl, -⟩) whole
    · obtain ⟨rfl, -⟩ := List.cons.inj (List.singleton_perm.mp whole.symm)
      exact .inr ⟨_, 0, rfl, rfl⟩
    · have := whole.length_eq
      simp at this
  call := by
    rintro f l rest now (⟨none_, -⟩ | ⟨g, n, only, flies⟩) -
    · cases none_
    · obtain ⟨rfl, rfl⟩ := List.cons.inj only
      exact .inr ⟨_, n + 1, rfl, by rw [job.fly_add, flies]; rfl⟩

theorem run_lone {e : Entry} {schedule : List Choice} (finished : (drive job (fresh [e] w) schedule).finished = true)
    (fine : (drive job (fresh [e] w) schedule).failed = none) :
    ∃ placed, job.copyAlone e w = (.ok placed, (drive job (fresh [e] w) schedule).world) ∧
      (drive job (fresh [e] w) schedule).skipped = if placed = .skipped then [e.path] else [] := by
  obtain ⟨flown, perm, held, stages, skips⟩ := well_over (keeps_lone e) (.inl ⟨rfl, rfl⟩) finished fine
  rcases held with ⟨rfl, -⟩ | ⟨f, n, rfl, flies⟩
  · have := perm.length_eq
    simp at this
  obtain ⟨placed, stage⟩ := stages f (List.mem_singleton.mpr rfl)
  obtain rfl : f.entry = e := (List.cons.inj (List.singleton_perm.mp perm)).1
  refine ⟨placed, ?_, ?_⟩
  · have whole : job.fly (job.board f.entry (rebase f.entry.path job.source job.dest)).stage.rank
        (job.board f.entry (rebase f.entry.path job.source job.dest)) w = _ :=
      (job.fly_same (n := n) (Nat.le_refl _) (by rw [← stage]; exact congrArg (·.1.stage) flies)).trans flies
    simp only [Job.copyAlone, whole, stage]
  · rw [skips]
    simp only [List.filterMap_cons, List.filterMap_nil, Flight.skip, stage]
    cases placed <;> rfl

end Run

end Norte.Transfer
