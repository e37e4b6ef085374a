import Norte.RenameReport
import Norte.RenameRetry

/-! A change of spelling on a directory that folds names: to an intermediate name and from
there to the one asked for, because a rename does not overwrite and under the new name the
directory finds the entry itself. The second step is out of the reach of the token. -/
namespace Norte.Spelling

open Retry
open Sync (NodeId)

/-- The row of the journal. -/
structure Renamed where
  source : VPath
  target : VPath
  deriving DecidableEq

def detourName (n : Nat) : Bytes :=
  Rename.tempPrefix ++ Utf8.encode "case-".toList ++ Utf8.encode (Nat.toDigits 10 n)

def candidate (source : VPath) (n : Nat) : Except Error VPath := do
  let segment ← (Segment.new (detourName n)).mapError fun _ => Error.invalidPath
  match source.withFileName segment with
  | some path => .ok path
  | none => .error .invalidPath

def detourCap : Nat := 1000

section Rename

variable {K : Type*} {key : VPath → K}

/-- The free intermediate name, and the readings of the token that it took to find it. -/
def spellingDetour (dir : FoldingDir key) (source : VPath) (token : Token) :
    Nat → Nat → Nat → Except Error (VPath × Nat)
  | 0, _, _ => .error (.conflict .exists_)
  | turns + 1, n, clock =>
    if token.isCancelled clock then .error .cancelled
    else
      match candidate source n with
      | .error e => .error e
      | .ok path =>
        match withRetry token (dir.stat path) maxRetries (clock + 1) with
        | (.error .notFound, clock) => .ok (path, clock)
        | (.ok _, clock) => spellingDetour dir source token turns (n + 1) clock
        | (.error e, _) => .error e

variable [DecidableEq K]

structure Outcome (key : VPath → K) where
  answer : Except Error Unit
  dir : FoldingDir key
  rows : List Renamed

/-- The way back has its answer in the log only. -/
def spellingRename (p : Provider) (onMutation : Renamed → Except Error Unit) (dir : FoldingDir key)
    (source target : VPath) (fromId : Option NodeId) (token : Token) : Outcome key :=
  match spellingDetour dir source token detourCap 0 0 with
  | .error e => ⟨.error e, dir, []⟩
  | .ok (step, clock) =>
    match renameRetrying p dir source step fromId token clock with
    | (.error e, dir) => ⟨.error e, dir, []⟩
    | (.ok (), dir) =>
      match renameRetrying p dir step target fromId .new 0 with
      | (.error e, dir) => ⟨.error e, (renameRetrying p dir step source fromId .new 0).2, []⟩
      | (.ok (), dir) =>
        match onMutation ⟨source, target⟩ with
        | .error e => ⟨.error e, dir, []⟩
        | .ok () => ⟨.ok (), dir, [⟨source, target⟩]⟩

/-- The entry gets its new spelling and a row, or it keeps the old one and there is an
error; nothing else of the directory changes either way. -/
inductive AllOrNothing (dir : FoldingDir key) (source target : VPath) (node : NodeId) :
    Outcome key → Prop
  | all : AllOrNothing dir source target node ⟨.ok (), dir.spelt target node, [⟨source, target⟩]⟩
  | nothing (e : Error) : AllOrNothing dir source target node ⟨.error e, dir, []⟩

theorem AllOrNothing.frame {dir : FoldingDir key} {source target : VPath} {node : NodeId}
    {o : Outcome key} (holds : AllOrNothing dir source target node o) {k : K}
    (aside : k ≠ key target) : o.dir.find k = dir.find k := by
  cases holds with
  | all => simp [FoldingDir.spelt, aside]
  | nothing => rfl

end Rename

section Detour

variable {K : Type*} {key : VPath → K} {dir : FoldingDir key} {source : VPath} {token : Token}

/-- `n` is the first candidate from `i` on that the directory does not find, as `step`. -/
structure FreeFrom (dir : FoldingDir key) (source : VPath) (i n : Nat) (step : VPath) : Prop where
  order : i ≤ n
  within : n < detourCap
  named : candidate source n = .ok step
  free : dir.find (key step) = none
  taken : ∀ j, i ≤ j → j < n → ∃ path e, candidate source j = .ok path ∧ dir.find (key path) = some e

theorem FreeFrom.unique {i n m : Nat} {step other : VPath} (first : FreeFrom dir source i n step)
    (second : FreeFrom dir source i m other) : n = m ∧ step = other := by
  have same : n = m := by
    rcases Nat.lt_trichotomy n m with before | same | after
    · obtain ⟨path, e, named, found⟩ := second.taken n first.order before
      obtain rfl := Except.ok.inj (first.named.symm.trans named)
      simp [first.free] at found
    · exact same
    · obtain ⟨path, e, named, found⟩ := first.taken m second.order after
      obtain rfl := Except.ok.inj (second.named.symm.trans named)
      simp [second.free] at found
  subst same
  exact ⟨rfl, Except.ok.inj (first.named.symm.trans second.named)⟩

theorem spellingDetour_spec {turns i : Nat} (budget : i + turns = detourCap) :
    (∃ n step, FreeFrom dir source i n step ∧ token.isCancelled n = false ∧
      spellingDetour dir source token turns i i = .ok (step, n + 1)) ∨
    ((∃ e, spellingDetour dir source token turns i i = .error e) ∧
      ∀ n step, FreeFrom dir source i n step → token.isCancelled n = true) := by
  induction turns generalizing i with
  | zero =>
    refine .inr ⟨⟨_, rfl⟩, fun n step free => ?_⟩
    have := free.order
    have := free.within
    omega
  | succ turns ih =>
    rw [spellingDetour]
    by_cases live : token.isCancelled i = false
    case neg =>
      have cancelled := Bool.eq_true_of_not_eq_false live
      rw [if_pos cancelled]
      exact .inr ⟨⟨_, rfl⟩, fun n step free => Token.isCancelled_mono free.order cancelled⟩
    rw [if_neg (by simp [live])]
    cases named : candidate source i with
    | error e =>
      refine .inr ⟨⟨e, rfl⟩, fun n step free => ?_⟩
      rcases Nat.eq_or_lt_of_le free.order with rfl | later
      · have := free.named
        simp [named] at this
      · obtain ⟨path, e, known, -⟩ := free.taken i le_rfl later
        simp [named] at known
    | ok path =>
      cases found : dir.find (key path) with
      | none =>
        refine .inl ⟨i, path, ⟨le_rfl, by omega, named, found, fun j low high => by omega⟩, live, ?_⟩
        simp [FoldingDir.stat, found, withRetry_notFound]
      | some e =>
        simp only [FoldingDir.stat, found, withRetry_ok]
        rcases ih (by omega : i + 1 + turns = detourCap) with
          ⟨n, step, free, live, ends⟩ | ⟨ends, cancelled⟩
        · have later := free.order
          refine .inl ⟨n, step, ⟨by omega, free.within, free.named, free.free, ?_⟩, live, ends⟩
          intro j low high
          rcases Nat.eq_or_lt_of_le low with rfl | low
          · exact ⟨path, e, named, found⟩
          · exact free.taken j low high
        · refine .inr ⟨ends, fun n step free => ?_⟩
          rcases Nat.eq_or_lt_of_le free.order with rfl | later
          · obtain rfl := Except.ok.inj (named.symm.trans free.named)
            have := free.free
            simp [found] at this
          · exact cancelled n step ⟨later, free.within, free.named, free.free,
              fun j low => free.taken j (by omega)⟩

end Detour

section Outcomes

variable {K : Type*} {key : VPath → K} [DecidableEq K] {p : Provider}
  {onMutation : Renamed → Except Error Unit} {dir : FoldingDir key} {source target step : VPath}
  {node : NodeId} {token : Token}

/-- The second step takes the intermediate name away. -/
theorem moved_moved (free : dir.find (key step) = none) (same : key target = key source) :
    (dir.moved source step node).moved step target node = dir.spelt target node := by
  ext1
  funext k
  by_cases atStep : k = key step <;> by_cases atSource : k = key source <;>
    simp_all [FoldingDir.moved, FoldingDir.spelt, FoldingDir.drop]

theorem spelt_self (stands : dir.find (key source) = some ⟨source, node⟩) :
    dir.spelt source node = dir := by
  ext1
  simp [FoldingDir.spelt, ← stands]

theorem spelt_ne (stands : dir.find (key source) = some ⟨source, node⟩)
    (same : key target = key source) (apart : target ≠ source) : dir.spelt target node ≠ dir := by
  intro equal
  have found : (dir.spelt target node).find (key source) = some ⟨source, node⟩ := by
    rw [equal, stands]
  rw [FoldingDir.spelt, ← same] at found
  simp only [Function.update_self, Option.some.injEq, Entry.mk.injEq] at found
  exact apart found.1

theorem moved_ne (stands : dir.find (key source) = some ⟨source, node⟩)
    (apart : key source ≠ key step) : dir.moved source step node ≠ dir := by
  intro equal
  have gone := dir.moved_find_source node apart
  rw [equal, stands] at gone
  cases gone

/-- The first step, under the token of the task, which the search has read `n + 1` times. -/
def stepOut (p : Provider) (source step : VPath) (token : Token) (n : Nat) : Call :=
  ⟨p source step, token, n + 1⟩

/-- A step that nobody can cancel. -/
def uncancelable (p : Provider) (source target : VPath) : Call := ⟨p source target, .new, 0⟩

theorem not_landsAt_of_cancelled {n k : Nat} (cancelled : token.isCancelled n = true) :
    ¬(stepOut p source step token n).LandsAt k := by
  intro lands
  have live : token.isCancelled (n + 1 + 3 * k) = false := lands.1.live
  have := Token.not_cancelled_before (by omega : n ≤ n + 1 + 3 * k) live
  simp [cancelled] at this

/-- The way back from the intermediate name: what it answers is not asked. -/
theorem way_back (stands : dir.find (key source) = some ⟨source, node⟩)
    (free : dir.find (key step) = none) (lands : ∃ k, (uncancelable p step source).LandsAt k) :
    (renameRetrying p (dir.moved source step node) step source (some node) .new 0).2 = dir := by
  have apart : key source ≠ key step := fun same => by simp [same, free] at stands
  have ends := @renameRetrying_standing _ _ _ p step source .new 0 _ _
    (dir.moved_find_target source step node) (dir.moved_find_source node apart)
  have home : (dir.moved source step node).moved step source node = dir :=
    (moved_moved free rfl).trans (spelt_self stands)
  generalize renameRetrying p (dir.moved source step node) step source (some node) .new 0 = result
    at ends
  cases ends with
  | moved | behind => exact home
  | stayed stays =>
    obtain ⟨k, lands⟩ := lands
    exact absurd lands (stays k)

/-- A change of spelling is all or nothing exactly when no step leaves its effect behind a
failure. -/
theorem spelling_all_or_nothing (stands : dir.find (key source) = some ⟨source, node⟩)
    (same : key target = key source) (apart : target ≠ source)
    (writes : onMutation ⟨source, target⟩ = .ok ())
    (returns : ∀ n step, FreeFrom dir source 0 n step → (stepOut p source step token n).Passes →
      (∀ k, ¬(uncancelable p step target).LandsAt k) →
      ∃ k, (uncancelable p step source).LandsAt k) :
    AllOrNothing dir source target node
        (spellingRename p onMutation dir source target (some node) token) ↔
      ∀ n step, FreeFrom dir source 0 n step → (stepOut p source step token n).Tells ∧
        ((stepOut p source step token n).Passes → (uncancelable p step target).Tells) := by
  rcases @spellingDetour_spec _ key dir source token detourCap 0 (Nat.zero_add detourCap) with ⟨n, step, free, live, found⟩ | ⟨⟨e, found⟩, cancelled⟩
  case inr =>
    rw [spellingRename, found]
    refine iff_of_true (.nothing e) fun n step free => ⟨fun k lands => ?_, ?_⟩
    · exact absurd lands (not_landsAt_of_cancelled (cancelled n step free))
    · rintro ⟨k, lands, -⟩
      exact absurd lands (not_landsAt_of_cancelled (cancelled n step free))
  have only (holds : Nat → VPath → Prop) :
      (∀ m other, FreeFrom dir source 0 m other → holds m other) ↔ holds n step := by
    refine ⟨fun every => every n step free, fun here m other second => ?_⟩
    obtain ⟨rfl, rfl⟩ := free.unique second
    exact here
  rw [only, spellingRename, found]
  have apartStep : key source ≠ key step := fun same => by simp [same, free.free] at stands
  have out : Ends (stepOut p source step token n) dir (dir.moved source step node)
      (renameRetrying p dir source step (some node) token (n + 1)) :=
    renameRetrying_standing stands free.free
  generalize first : renameRetrying p dir source step (some node) token (n + 1) = result at out
  simp only [first]
  cases out with
  | stayed stays e =>
    refine iff_of_true (.nothing e) ⟨fun k lands => absurd lands (stays k), ?_⟩
    rintro ⟨k, lands, -⟩
    exact absurd lands (stays k)
  | behind lands untold e =>
    refine iff_of_false (fun holds => ?_) fun tells => untold tells.1
    generalize after : dir.moved source step node = left at holds
    cases holds
    exact moved_ne stands apartStep after
  | moved passes =>
    rw [and_iff_right passes.tells, imp_iff_right passes]
    have on : Ends (uncancelable p step target) (dir.moved source step node) (dir.spelt target node)
        (renameRetrying p (dir.moved source step node) step target (some node) .new 0) := by
      have gone : (dir.moved source step node).find (key target) = none := by
        rw [same]
        exact dir.moved_find_source node apartStep
      have ends := @renameRetrying_standing _ _ _ p step target .new 0 _ _
        (dir.moved_find_target source step node) gone
      rwa [moved_moved free.free same] at ends
    generalize second : renameRetrying p (dir.moved source step node) step target (some node) .new 0 =
      result at on
    simp only [second]
    cases on with
    | moved onward =>
      simp only [writes]
      exact iff_of_true .all onward.tells
    | behind lands untold e =>
      refine iff_of_false (fun holds => ?_) untold
      have spelt : (dir.spelt target node).find (key source) = some ⟨target, node⟩ := by
        simp [FoldingDir.spelt, same]
      have gone : (dir.spelt target node).find (key step) = none := by
        simp [FoldingDir.spelt, same, apartStep.symm, free.free]
      dsimp only at holds
      rw [renameRetrying_gone gone spelt] at holds
      generalize after : dir.spelt target node = left at holds
      cases holds
      exact spelt_ne stands same apart after
    | stayed stays e =>
      dsimp only
      rw [way_back stands free.free (returns n step free passes stays)]
      exact iff_of_true (.nothing e) fun k lands => absurd lands (stays k)

end Outcomes

/-! `A` becomes `a`, on a provider that loses the first reply to every rename. -/

theorem valid_upper : Segment.Valid [0x41] :=
  ⟨by decide, by decide, by decide, by decide⟩

def upperPath : VPath := Rename.sampleRoot.join ⟨[0x41], valid_upper⟩

def lowerPath : VPath := Rename.sampleRoot.join ⟨[0x61], Segment.valid_a⟩

def asciiKey (p : VPath) : List Bytes :=
  p.segments.map fun s => s.bytes.map fun b => if 0x41 ≤ b && b ≤ 0x5A then b + 0x20 else b

def sampleNode : NodeId := ⟨1, 7⟩

def emptyDir : FoldingDir asciiKey := ⟨fun _ => none, fun found => absurd found (by simp)⟩

def sampleDir : FoldingDir asciiKey := emptyDir.spelt upperPath sampleNode

def losesFirst : Provider := fun _ _ attempt =>
  if attempt = 0 then .lost (.providerUnavailable true) rfl else .done

theorem losesFirst_landsAt (source target : VPath) :
    (uncancelable losesFirst source target).LandsAt 0 :=
  ⟨.here (Nat.zero_le _) rfl, trivial⟩

theorem losesFirst_tells (source target : VPath) (clock : Nat) :
    Call.Tells ⟨losesFirst source target, .new, clock⟩ := by
  intro k lands
  have first : Call.LandsAt ⟨losesFirst source target, .new, clock⟩ 0 :=
    ⟨.here (Nat.zero_le _) rfl, trivial⟩
  obtain rfl := lands.unique first
  exact .inr ⟨1, .here (by decide) rfl, trivial, .inl ⟨0, le_rfl, rfl⟩⟩

theorem spelling_all_or_nothing_losesFirst : AllOrNothing sampleDir upperPath lowerPath sampleNode
    (spellingRename losesFirst (fun _ => .ok ()) sampleDir upperPath lowerPath (some sampleNode)
      .new) :=
  (spelling_all_or_nothing (by decide +kernel) (by decide +kernel) (by decide +kernel) rfl
    (fun _ step _ _ _ => ⟨0, losesFirst_landsAt step upperPath⟩)).mpr
    fun n step _ => ⟨losesFirst_tells upperPath step (n + 1),
      fun _ => losesFirst_tells step lowerPath 0⟩

def stepPath : VPath :=
  match candidate upperPath 0 with
  | .ok path => path
  | .error _ => upperPath

/-- The task is cancelled while the first step waits to try again. -/
theorem spelling_left_at_detour :
    sampleDir.find (asciiKey upperPath) = some ⟨upperPath, sampleNode⟩ ∧
      asciiKey lowerPath = asciiKey upperPath ∧
      (∀ step, (uncancelable losesFirst step upperPath).LandsAt 0) ∧
      ¬AllOrNothing sampleDir upperPath lowerPath sampleNode
        (spellingRename losesFirst (fun _ => .ok ()) sampleDir upperPath lowerPath (some sampleNode)
          ⟨some 3⟩) := by
  refine ⟨by decide +kernel, by decide +kernel, fun step => losesFirst_landsAt step upperPath,
    fun holds => ?_⟩
  have aside : asciiKey stepPath ≠ asciiKey lowerPath := by decide +kernel
  have untouched := holds.frame aside
  revert untouched
  decide +kernel

end Norte.Spelling
