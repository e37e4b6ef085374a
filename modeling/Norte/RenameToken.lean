import Norte.PlanToken
import Norte.RenamePlan

/-! The token of a batch rename: the digest of the conclusions, bound to the directory it
was planned in. It fixes the directory, the fold regime, the ordered steps and the
verdicts; the pairs that were asked for it does not fix. -/
namespace Norte.Rename

open Hashing Utf8 Framing Sync

/-- A plan plus the token that binds it to its directory. -/
structure DirPlan where
  plan : RenamePlan
  hash : PlanHash
  deriving DecidableEq

def DirPlan.bind (sha256 : Bytes → Bytes) (dir : VPath) (plan : RenamePlan) : DirPlan where
  plan := plan
  hash := .fromDigest (sha256 (encode "norte-rename-plan-dir-v1".toList ++
    feed (encode dir.toWire) ++ feed plan.hash))

/-- The part of a step that is digested; the pair it descends from is not. -/
def Step.conclusion (s : Step) : Bytes × Bytes × Bool := (s.fromName, s.toName, s.temp)

/-- What the types of the fields guarantee: lengths of a `usize`, indices of a `u32`. -/
structure RenamePlan.Fits (plan : RenamePlan) : Prop where
  steps : plan.steps.length < 2 ^ 64
  names : ∀ s ∈ plan.steps, s.fromName.length < 2 ^ 64 ∧ s.toName.length < 2 ^ 64
  collisions : plan.collisions.length < 2 ^ 64
  verdicts : ∀ c ∈ plan.collisions, c.name.length < 2 ^ 64 ∧ c.pairIndex < 2 ^ 32

def feedStep (s : Bytes × Bytes × Bool) : Bytes :=
  feed s.1 ++ feed s.2.1 ++ feed [if s.2.2 then 1 else 0]

def feedCollision (c : Collision) : Bytes :=
  feed c.name ++ feed [c.kind.tag] ++ feed (u32LeBytes c.pairIndex)

theorem feedStep_delimits :
    SelfDelimiting feedStep fun s => s.1.length < 2 ^ 64 ∧ s.2.1.length < 2 ^ 64 := by
  rintro ⟨a, b, temp⟩ ⟨a', b', temp'⟩ r s fits fits' same
  simp only [feedStep, List.append_assoc] at same
  obtain ⟨rfl, same⟩ := feed_delimits fits.1 fits'.1 same
  obtain ⟨rfl, same⟩ := feed_delimits fits.2 fits'.2 same
  obtain ⟨rfl, rest⟩ := feedFlag_delimits trivial trivial same
  exact ⟨rfl, rest⟩

theorem tag_injective : Function.Injective CollisionKind.tag := by
  intro a b same
  cases a <;> cases b <;> first | rfl | exact absurd same (by decide)

theorem feedCollision_delimits :
    SelfDelimiting feedCollision fun c => c.name.length < 2 ^ 64 ∧ c.pairIndex < 2 ^ 32 := by
  rintro ⟨name, kind, index⟩ ⟨name', kind', index'⟩ r s fits fits' same
  simp only [feedCollision, List.append_assoc] at same
  obtain ⟨names, rest⟩ := feed_delimits fits.1 fits'.1 same
  obtain ⟨tags, rest⟩ := feed_append_inj (by simp) (by simp) rest
  obtain ⟨words, rest⟩ := feed_append_inj (by simp [u32LeBytes]) (by simp [u32LeBytes]) rest
  have indices : index = index' := leBytes_inj 4 fits.2 fits'.2 words
  have kinds : kind = kind' := tag_injective (List.cons.inj tags).1
  exact ⟨by simp [kinds, indices, show name = name' from names], rest⟩

theorem foldByte_injective {caps caps' : NameCaps} (same : foldByte caps = foldByte caps') :
    caps = caps' := by
  rcases caps with ⟨_ | _ | _⟩ <;> rcases caps' with ⟨_ | _ | _⟩ <;>
    first | rfl | exact absurd same (by decide)

/-- The planner's own digest fixes the regime, the ordered steps and the verdicts. -/
theorem planHash_injective {sha256 : Bytes → Bytes} (injective : Function.Injective sha256)
    {plan plan' : RenamePlan} {caps caps' : NameCaps} (fits : plan.Fits) (fits' : plan'.Fits)
    (same : planHash sha256 plan.steps plan.collisions caps =
      planHash sha256 plan'.steps plan'.collisions caps') :
    caps = caps' ∧ plan.steps.map Step.conclusion = plan'.steps.map Step.conclusion ∧
      plan.collisions = plan'.collisions := by
  have folded (steps : List Step) : (steps.flatMap fun s => feed s.fromName ++ feed s.toName ++
      feed [if s.temp then 1 else 0]) = (steps.map Step.conclusion).flatMap feedStep := by
    rw [List.flatMap_map]
    rfl
  have strings := injective same
  rw [folded, folded] at strings
  simp only [← feedCollision.eq_def] at strings
  simp only [List.append_assoc] at strings
  obtain ⟨regime, rest⟩ := feed_append_inj (by simp) (by simp) (List.append_cancel_left strings)
  obtain ⟨counts, rest⟩ := feedU64_delimits fits.steps fits'.steps rest
  have names {plan : RenamePlan} (fits : plan.Fits) : ∀ s ∈ plan.steps.map Step.conclusion,
      s.1.length < 2 ^ 64 ∧ s.2.1.length < 2 ^ 64 := by
    intro s member
    obtain ⟨step, there, rfl⟩ := List.mem_map.mp member
    exact fits.names step there
  obtain ⟨steps, rest⟩ := feedStep_delimits.flatMap (by simpa using counts) (names fits)
    (names fits') rest
  obtain ⟨counts, rest⟩ := feedU64_delimits fits.collisions fits'.collisions rest
  obtain ⟨collisions, -⟩ := feedCollision_delimits.flatMap (r := []) (s := []) counts
    fits.verdicts fits'.verdicts (congrArg (· ++ []) rest)
  exact ⟨foldByte_injective (List.cons.inj regime).1, steps, collisions⟩

/-- Every plan the planner returns carries the digest of its own conclusions. -/
theorem planBatch_hash {nameKey : Bytes → NameCaps → Bytes} {sha256 : Bytes → Bytes}
    {pairs : List (Bytes × Bytes)} {listing : List Bytes} {caps : NameCaps} {plan : RenamePlan}
    (planned : planBatch nameKey sha256 pairs listing caps = some plan) :
    plan.hash = planHash sha256 plan.steps plan.collisions caps := by
  simp only [planBatch] at planned
  split at planned
  · cases planned
    rfl
  · obtain ⟨steps, -, same⟩ := Option.bind_eq_some_iff.mp planned
    cases same
    rfl

/-- The last field needs no bound: nothing follows it. -/
theorem feed_injective : Function.Injective feed := by
  intro a b same
  exact (List.append_inj same (by simp)).2

/-- Equal tokens of two planned batches. -/
theorem bind_injective {nameKey : Bytes → NameCaps → Bytes} {sha256 : Bytes → Bytes}
    (injective : Function.Injective sha256) {dir dir' : VPath}
    {pairs pairs' : List (Bytes × Bytes)} {listing listing' : List Bytes} {caps caps' : NameCaps}
    {plan plan' : RenamePlan}
    (planned : planBatch nameKey sha256 pairs listing caps = some plan)
    (planned' : planBatch nameKey sha256 pairs' listing' caps' = some plan')
    (fits : plan.Fits) (fits' : plan'.Fits)
    (short : (encode dir.toWire).length < 2 ^ 64) (short' : (encode dir'.toWire).length < 2 ^ 64)
    (same : (DirPlan.bind sha256 dir plan).hash = (DirPlan.bind sha256 dir' plan').hash) :
    dir = dir' ∧ caps = caps' ∧ plan.steps.map Step.conclusion = plan'.steps.map Step.conclusion ∧
      plan.collisions = plan'.collisions := by
  have strings := injective (fromDigest_injective same)
  simp only [List.append_assoc] at strings
  obtain ⟨wires, rest⟩ := feed_delimits short short' (List.append_cancel_left strings)
  have hashes := feed_injective rest
  rw [planBatch_hash planned, planBatch_hash planned'] at hashes
  exact ⟨VPath.toWire_injective_of_parse (encode_injective wires), planHash_injective injective fits fits' hashes⟩

end Norte.Rename
