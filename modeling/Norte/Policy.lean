import Mathlib.Order.Defs.LinearOrder
import Norte.ChainHash
import Norte.SyncTypes

/-! The gate before a mutation that is not the human's: the boundary of what was granted to
its session, then the ordered rules of the policy file, path by path. -/
namespace Norte.Policy

open Chain (Actor)
open Sync (RelPath)

inductive DeleteMode where
  | trash
  | permanent
  deriving DecidableEq, Repr

inductive PolicyOp where
  | copy
  | move
  | delete (mode : DeleteMode)
  | mkdir
  | create
  | setMode (mode : UInt32) (recursive : Bool) (dirMode : Option UInt32)
  deriving DecidableEq, Repr

def PolicyOp.kind : PolicyOp → Str
  | copy => "copy".toList
  | move => "move".toList
  | delete _ => "delete".toList
  | mkdir => "mkdir".toList
  | create => "create".toList
  | setMode _ _ _ => "set-mode".toList

structure OpSet where
  kinds : List Str

def OpSet.allows (set : OpSet) (op : PolicyOp) : Bool := set.kinds.contains op.kind

/-- Ticks of a monotonic clock. -/
abbrev Instant := Nat

structure Scope where
  roots : List VPath
  ops : OpSet
  /-- Never, where there is none. -/
  expiresAt : Option Instant

def Scope.isExpired (s : Scope) (now : Instant) : Bool := s.expiresAt.any fun e => e ≤ now

def isUnder (root path : VPath) : Bool := (RelPath.under root path).isSome

inductive ScopeVerdict where
  | within
  | outOfScope
  | expired
  deriving DecidableEq, Repr

/-- What is granted to each session, and the roots that no grant reaches. -/
structure ScopeRegistry where
  inner : Str → Option (List Scope)
  protectedRoots : List VPath

namespace ScopeRegistry

def isProtected (reg : ScopeRegistry) (path : VPath) : Bool := reg.protectedRoots.any (isUnder · path)

def permitsFrom (op : PolicyOp) (path : VPath) (now : Instant) : List Scope → Bool → ScopeVerdict
  | [], sawExpired => if sawExpired then .expired else .outOfScope
  | s :: scopes, sawExpired =>
    if s.isExpired now then permitsFrom op path now scopes true
    else if s.ops.allows op && s.roots.any (isUnder · path) then .within
    else permitsFrom op path now scopes sawExpired

/-- What is protected is looked at before any grant. -/
def permits (reg : ScopeRegistry) (session : Str) (op : PolicyOp) (path : VPath) (now : Instant) : ScopeVerdict :=
  if reg.isProtected path then .outOfScope
  else match reg.inner session with
    | none => .outOfScope
    | some scopes => permitsFrom op path now scopes false

theorem permitsFrom_within {op : PolicyOp} {path : VPath} {now : Instant} {scopes : List Scope} {sawExpired : Bool} :
    permitsFrom op path now scopes sawExpired = .within ↔
      ∃ s ∈ scopes, s.isExpired now = false ∧ s.ops.allows op = true ∧ s.roots.any (isUnder · path) = true := by
  induction scopes generalizing sawExpired with
  | nil => cases sawExpired <;> simp [permitsFrom]
  | cons s scopes ih =>
    unfold permitsFrom
    split
    · rename_i expired
      rw [ih]
      simp [expired]
    · rename_i live
      split
      · rename_i grants
        simp only [Bool.and_eq_true] at grants
        exact iff_of_true rfl ⟨s, List.mem_cons_self, by simpa using live, grants⟩
      · rename_i away
        rw [ih]
        simp only [Bool.and_eq_true] at away
        simp only [List.mem_cons, exists_eq_or_imp, away, and_false, false_or]

/-- Within: not protected, and below a root of a live scope that grants the operation. -/
theorem permits_within {reg : ScopeRegistry} {session : Str} {op : PolicyOp} {path : VPath} {now : Instant} :
    reg.permits session op path now = .within ↔ reg.isProtected path = false ∧
      ∃ scopes ∈ reg.inner session, ∃ s ∈ scopes, s.isExpired now = false ∧ s.ops.allows op = true ∧
        s.roots.any (isUnder · path) = true := by
  unfold permits
  split
  · rename_i kept
    simp [kept]
  · rename_i free
    cases granted : reg.inner session with
    | none => simp
    | some scopes => simp [permitsFrom_within, free]

end ScopeRegistry

inductive RuleAction where
  | allow
  | ask
  | deny
  deriving DecidableEq, Repr

/-- What a rule leaves out, it does not ask about. -/
structure Rule where
  op : Option Str
  pathPrefix : Option Str
  scheme : Option Str
  actor : Option Str
  action : RuleAction

/-- A prefix that is no path matches nothing. -/
def Rule.matches (rule : Rule) (actorKind : Str) (op : PolicyOp) (path : VPath) : Bool :=
  rule.op.all (· = op.kind) && rule.actor.all (· = actorKind) && rule.scheme.all (· = path.scheme.str) &&
    rule.pathPrefix.all fun pre => match VPath.parse pre with
      | .ok root => isUnder root path
      | .error _ => false

inductive DenyReason where
  | outOfScope
  | scopeExpired
  | policyRule
  | noRule
  | notApproved
  deriving DecidableEq, Repr

inductive Decision where
  | allow
  | ask
  | deny (reason : DenyReason)
  deriving DecidableEq, Repr

namespace Decision

def rank : Decision → Nat
  | deny _ => 2
  | ask => 1
  | allow => 0

/-- Of two that weigh the same, the first one. -/
def moreRestrictive (a b : Decision) : Decision := if b.rank > a.rank then b else a

end Decision

structure PolicyConfig where
  rules : List Rule

namespace PolicyConfig

def decideOne (config : PolicyConfig) (actorKind : Str) (op : PolicyOp) (path : VPath) : Decision :=
  match config.rules.find? fun rule => rule.matches actorKind op path with
  | some rule => match rule.action with
    | .allow => .allow
    | .ask => .ask
    | .deny => .deny .policyRule
  | none => .deny .noRule

def decide (config : PolicyConfig) (actor : Actor) (op : PolicyOp) (paths : List VPath) : Decision :=
  if paths.isEmpty then .deny .noRule
  else paths.foldl (fun acc path => acc.moreRestrictive (config.decideOne actor.parts.1 op path)) .allow

end PolicyConfig

/-- Two namespaces: a plugin's name is a valid session too. -/
def scopeKey : Actor → Option Str
  | .user => none
  | .agent session => some session
  | .plugin id => some ("plugin:".toList ++ id)

def isPlugin : Actor → Bool
  | .plugin _ => true
  | _ => false

structure ScopedPolicy where
  scopes : ScopeRegistry
  config : PolicyConfig

namespace ScopedPolicy

/-- The first path that is not inside. -/
def boundary (policy : ScopedPolicy) (session : Str) (op : PolicyOp) (now : Instant) : List VPath → Option DenyReason
  | [] => none
  | path :: paths => match policy.scopes.permits session op path now with
    | .within => boundary policy session op now paths
    | .outOfScope => some .outOfScope
    | .expired => some .scopeExpired

/-- The human is not sandboxed; a plugin's rule is the manifest that was approved. -/
def evaluate (policy : ScopedPolicy) (now : Instant) (actor : Actor) (op : PolicyOp) (paths : List VPath) : Decision :=
  match scopeKey actor with
  | none => .allow
  | some session => match policy.boundary session op now paths with
    | some reason => .deny reason
    | none => match policy.config.decide actor op paths with
      | .deny .noRule => if isPlugin actor then .allow else .deny .noRule
      | d => d

end ScopedPolicy

/-! The fold keeps the first denial, or the first thing that asks. -/

namespace Decision

theorem foldl_denied (reason : DenyReason) (ds : List Decision) : ds.foldl moreRestrictive (.deny reason) = .deny reason := by
  induction ds with
  | nil => rfl
  | cons d ds ih =>
    have lighter : ¬d.rank > (deny reason).rank := by cases d <;> simp [rank]
    rw [List.foldl_cons, moreRestrictive, if_neg lighter]
    exact ih

/-- What is left of decisions that start from one that lets pass. -/
theorem foldl_moreRestrictive {acc : Decision} (light : acc.rank < 2) (ds : List Decision) :
    ds.foldl moreRestrictive acc = match ds.find? (·.rank = 2) with
      | some d => d
      | none => if acc = .ask ∨ .ask ∈ ds then .ask else .allow := by
  induction ds generalizing acc with
  | nil =>
    cases acc with
    | deny => exact absurd light (by simp [rank])
    | _ => rfl
  | cons d ds ih =>
    rw [List.foldl_cons]
    cases d with
    | deny reason =>
      rw [moreRestrictive, if_pos (by simpa [rank] using light), foldl_denied]
      rfl
    | ask =>
      have asks : acc.moreRestrictive .ask = .ask := by
        cases acc with
        | deny => exact absurd light (by simp [rank])
        | _ => rfl
      rw [asks, ih (by simp [rank])]
      simp [rank]
    | allow =>
      rw [moreRestrictive, if_neg (by simp [rank]), ih light]
      simp [rank]

end Decision

/-! What is promised of an answer. -/

namespace ScopedPolicy

/-- What the first rule that matches a path says of it. -/
def first (policy : ScopedPolicy) (actor : Actor) (op : PolicyOp) (path : VPath) : Option RuleAction :=
  (policy.config.rules.find? fun rule => rule.matches actor.parts.1 op path).map Rule.action

def Within (policy : ScopedPolicy) (now : Instant) (actor : Actor) (op : PolicyOp) (path : VPath) : Prop :=
  ∃ session, scopeKey actor = some session ∧ policy.scopes.permits session op path now = .within

variable (policy : ScopedPolicy) (now : Instant) (op : PolicyOp)

/-- Every path is within, and its rule allows; a path without a rule counts as `missing`. -/
def Allowed (actor : Actor) (missing : RuleAction) (paths : List VPath) : Prop :=
  ∀ path ∈ paths, policy.Within now actor op path ∧ (policy.first actor op path).getD missing = .allow

def Asked (actor : Actor) (missing : RuleAction) (paths : List VPath) : Prop :=
  (∀ path ∈ paths, policy.Within now actor op path ∧ (policy.first actor op path).getD missing ≠ .deny) ∧
    ∃ path ∈ paths, (policy.first actor op path).getD missing = .ask

structure Answers (actor : Actor) (missing : RuleAction) (paths : List VPath) : Prop where
  allows : policy.evaluate now actor op paths = .allow ↔ policy.Allowed now op actor missing paths
  asks : policy.evaluate now actor op paths = .ask ↔ policy.Asked now op actor missing paths
  denies : (∃ reason, policy.evaluate now actor op paths = .deny reason) ↔
    ¬policy.Allowed now op actor missing paths ∧ ¬policy.Asked now op actor missing paths

/-- The answer to any paths, which more of them never make milder; their order and
repetition do not matter. -/
structure Settles (actor : Actor) (missing : RuleAction) : Prop where
  answers : ∀ paths ≠ [], policy.Answers now op actor missing paths
  unordered : ∀ paths paths', paths ≠ [] → (∀ path, path ∈ paths ↔ path ∈ paths') →
    (policy.evaluate now actor op paths).rank = (policy.evaluate now actor op paths').rank
  grows : ∀ paths paths', paths ≠ [] → paths ⊆ paths' →
    (policy.evaluate now actor op paths).rank ≤ (policy.evaluate now actor op paths').rank

/-- The first path that is refused is one without a rule, and a rule asks or denies elsewhere. -/
def Overlooks (actor : Actor) (paths : List VPath) : Prop :=
  (∀ path ∈ paths, policy.Within now actor op path) ∧
    (∃ path ∈ paths, policy.first actor op path = some .ask ∨ policy.first actor op path = some .deny) ∧
    ∃ path, paths.find? (fun path => (policy.first actor op path).getD .deny = .deny) = some path ∧
      policy.first actor op path = none

/-- Within what is granted, there is a path without a rule and one that asks or is denied. -/
def Clashes (actor : Actor) : Prop :=
  ∃ path path', policy.Within now actor op path ∧ policy.Within now actor op path' ∧
    policy.first actor op path = none ∧
    (policy.first actor op path' = some .ask ∨ policy.first actor op path' = some .deny)

variable {policy now op}

/-! What the gate computes. -/

theorem boundary_eq_none {session : Str} {paths : List VPath} :
    policy.boundary session op now paths = none ↔ ∀ path ∈ paths, policy.scopes.permits session op path now = .within := by
  induction paths with
  | nil => simp [boundary]
  | cons path paths ih =>
    unfold boundary
    cases verdict : policy.scopes.permits session op path now <;> simp [verdict, ih]

theorem within_iff {actor : Actor} {session : Str} (key : scopeKey actor = some session) {path : VPath} :
    policy.Within now actor op path ↔ policy.scopes.permits session op path now = .within := by
  constructor
  · rintro ⟨session', key', within⟩
    obtain rfl := Option.some.inj (key.symm.trans key')
    exact within
  · exact fun within => ⟨session, key, within⟩

/-- One path that is not within, and the answer is a denial. -/
theorem evaluate_outside {actor : Actor} {session : Str} (key : scopeKey actor = some session) {paths : List VPath}
    (outside : ¬∀ path ∈ paths, policy.Within now actor op path) :
    ∃ reason, policy.evaluate now actor op paths = .deny reason := by
  unfold evaluate
  rw [key]
  cases refused : policy.boundary session op now paths with
  | some reason =>
    dsimp only
    rw [refused]
    exact ⟨reason, rfl⟩
  | none =>
    refine absurd (fun path member => ?_) outside
    exact (within_iff key).mpr (boundary_eq_none.mp refused path member)

theorem evaluate_inside {actor : Actor} {session : Str} (key : scopeKey actor = some session) {paths : List VPath}
    (inside : ∀ path ∈ paths, policy.Within now actor op path) :
    policy.evaluate now actor op paths = match policy.config.decide actor op paths with
      | .deny .noRule => if isPlugin actor then .allow else .deny .noRule
      | d => d := by
  have none : policy.boundary session op now paths = Option.none :=
    boundary_eq_none.mpr fun path member => (within_iff key).mp (inside path member)
  unfold evaluate
  rw [key]
  dsimp only
  rw [none]

/-- What the first matching rule is worth. -/
def worth : Option RuleAction → Decision
  | some .allow => .allow
  | some .ask => .ask
  | some .deny => .deny .policyRule
  | none => .deny .noRule

theorem decideOne_eq (actor : Actor) (path : VPath) :
    policy.config.decideOne actor.parts.1 op path = worth (policy.first actor op path) := by
  unfold PolicyConfig.decideOne first
  cases policy.config.rules.find? fun rule => rule.matches actor.parts.1 op path with
  | none => rfl
  | some rule => cases action : rule.action <;> simp [worth, action]

theorem worth_denied {action : Option RuleAction} : (worth action).rank = 2 ↔ action.getD .deny = .deny := by
  rcases action with _ | (_ | _ | _) <;> simp [worth, Decision.rank]

theorem worth_asks {action : Option RuleAction} : worth action = .ask ↔ action = some .ask := by
  rcases action with _ | (_ | _ | _) <;> simp [worth]

/-- The rules over several paths: the first one that is refused, or else any that asks. -/
theorem decide_eq {actor : Actor} {paths : List VPath} (some_ : paths ≠ []) :
    policy.config.decide actor op paths =
      match paths.find? fun path => (policy.first actor op path).getD .deny = .deny with
      | some path => worth (policy.first actor op path)
      | none => if ∃ path ∈ paths, policy.first actor op path = some .ask then .ask else .allow := by
  unfold PolicyConfig.decide
  rw [if_neg (by simpa using some_)]
  have folded := @Decision.foldl_moreRestrictive .allow (by decide)
    (paths.map fun path => policy.config.decideOne actor.parts.1 op path)
  rw [List.foldl_map] at folded
  rw [folded, List.find?_map]
  simp only [Function.comp_def, decideOne_eq, worth_denied]
  cases paths.find? fun path => (policy.first actor op path).getD .deny = .deny with
  | some path => rfl
  | none => simp [worth_asks]

/-! Whoever acts, the answer is settled by the paths one by one, unless a plugin's path
without a rule stands before one that a rule refuses. -/

section

variable {actor : Actor} {session : Str} {missing : RuleAction} {paths : List VPath}

theorem not_both : ¬(policy.Allowed now op actor missing paths ∧ policy.Asked now op actor missing paths) := by
  rintro ⟨allowed, _, path, member, asks⟩
  cases (allowed path member).2.symm.trans asks

theorem Answers.allowed (answer : policy.evaluate now actor op paths = .allow)
    (allowed : policy.Allowed now op actor missing paths) : policy.Answers now op actor missing paths where
  allows := iff_of_true answer allowed
  asks := iff_of_false (by simp [answer]) fun asked => not_both ⟨allowed, asked⟩
  denies := iff_of_false (by simp [answer]) fun neither => neither.1 allowed

theorem Answers.asked (answer : policy.evaluate now actor op paths = .ask)
    (asked : policy.Asked now op actor missing paths) : policy.Answers now op actor missing paths where
  allows := iff_of_false (by simp [answer]) fun allowed => not_both ⟨allowed, asked⟩
  asks := iff_of_true answer asked
  denies := iff_of_false (by simp [answer]) fun neither => neither.2 asked

theorem Answers.denied {reason : DenyReason} (answer : policy.evaluate now actor op paths = .deny reason)
    (notAllowed : ¬policy.Allowed now op actor missing paths) (notAsked : ¬policy.Asked now op actor missing paths) :
    policy.Answers now op actor missing paths where
  allows := iff_of_false (by simp [answer]) notAllowed
  asks := iff_of_false (by simp [answer]) notAsked
  denies := iff_of_true ⟨reason, answer⟩ ⟨notAllowed, notAsked⟩

theorem answers_outside (key : scopeKey actor = some session) (outside : ¬∀ path ∈ paths, policy.Within now actor op path) :
    policy.Answers now op actor missing paths := by
  obtain ⟨reason, denied⟩ := evaluate_outside key outside
  apply Answers.denied denied
  · exact fun allowed => outside fun path member => (allowed path member).1
  · exact fun asked => outside fun path member => (asked.1 path member).1

/-- One path that counts as denied. -/
theorem Answers.refused {reason : DenyReason} (answer : policy.evaluate now actor op paths = .deny reason) {path : VPath}
    (member : path ∈ paths) (refused : (policy.first actor op path).getD missing = .deny) :
    policy.Answers now op actor missing paths := by
  apply Answers.denied answer
  · exact fun allowed => by cases (allowed path member).2.symm.trans refused
  · exact fun asked => (asked.1 path member).2 refused

/-- With nothing refused, what asks decides. -/
theorem answers_unrefused (key : scopeKey actor = some session) (some_ : paths ≠ [])
    (inside : ∀ path ∈ paths, policy.Within now actor op path)
    (unrefused : ∀ path ∈ paths, (policy.first actor op path).getD .deny ≠ .deny) :
    policy.Answers now op actor missing paths := by
  have nothing : paths.find? (fun path => (policy.first actor op path).getD .deny = .deny) = none := by
    simpa using unrefused
  have same (path : VPath) (member : path ∈ paths) :
      (policy.first actor op path).getD missing = (policy.first actor op path).getD .deny := by
    have here := unrefused path member
    cases ruled : policy.first actor op path with
    | none => exact absurd (by rw [ruled]; rfl) here
    | some action => rfl
  have asks (path : VPath) (member : path ∈ paths) :
      (policy.first actor op path).getD missing = .ask ↔ policy.first actor op path = some .ask := by
    rw [same path member]
    cases policy.first actor op path <;> simp
  have decided : policy.evaluate now actor op paths =
      if ∃ path ∈ paths, policy.first actor op path = some .ask then .ask else .allow := by
    rw [evaluate_inside key inside, decide_eq some_, nothing]
    dsimp only
    split
    · rename_i refused
      split at refused <;> cases refused
    · rfl
  by_cases asked : ∃ path ∈ paths, policy.first actor op path = some .ask
  · rw [if_pos asked] at decided
    obtain ⟨path, member, here⟩ := asked
    apply Answers.asked decided
    refine ⟨fun path member => ⟨inside path member, ?_⟩, path, member, (asks path member).mpr here⟩
    rw [same path member]
    exact unrefused path member
  · rw [if_neg asked] at decided
    apply Answers.allowed decided
    intro path member
    refine ⟨inside path member, ?_⟩
    cases action : (policy.first actor op path).getD missing with
    | allow => rfl
    | ask => exact absurd ⟨path, member, (asks path member).mp action⟩ asked
    | deny => exact absurd ((same path member).symm.trans action) (unrefused path member)

/-- Answers settled path by path are monotone in the paths. -/
theorem settles_of_answers (answers : ∀ paths ≠ [], policy.Answers now op actor missing paths) :
    policy.Settles now op actor missing := by
  have grows (paths paths' : List VPath) (some_ : paths ≠ []) (more : paths ⊆ paths') :
      (policy.evaluate now actor op paths).rank ≤ (policy.evaluate now actor op paths').rank := by
    have some' : paths' ≠ [] := by
      rintro rfl
      exact some_ (List.subset_nil.mp more)
    have here := answers paths some_
    have there := answers paths' some'
    cases answer : policy.evaluate now actor op paths' with
    | deny reason => cases policy.evaluate now actor op paths <;> simp [Decision.rank]
    | ask =>
      have asked := there.asks.mp answer
      cases answer' : policy.evaluate now actor op paths with
      | deny reason =>
        obtain ⟨notAllowed, notAsked⟩ := here.denies.mp ⟨reason, answer'⟩
        refine absurd ?_ notAllowed
        intro path member
        obtain ⟨within, notDeny⟩ := asked.1 path (more member)
        refine ⟨within, ?_⟩
        cases action : (policy.first actor op path).getD missing with
        | allow => rfl
        | deny => exact absurd action notDeny
        | ask => exact absurd ⟨fun path member => asked.1 path (more member), path, member, action⟩ notAsked
      | ask | allow => simp [Decision.rank]
    | allow =>
      have allowed : policy.Allowed now op actor missing paths := fun path member => there.allows.mp answer path (more member)
      rw [here.allows.mpr allowed]
  exact ⟨answers, fun paths paths' some_ same => by
    have some' : paths' ≠ [] := by
      rintro rfl
      exact some_ (List.eq_nil_iff_forall_not_mem.mpr fun path member => List.not_mem_nil ((same path).mp member))
    exact le_antisymm (grows _ _ some_ fun path => (same path).mp) (grows _ _ some' fun path => (same path).mpr), grows⟩

theorem agent_answers {session : Str} (some_ : paths ≠ []) : policy.Answers now op (.agent session) .deny paths := by
  have key : scopeKey (.agent session) = some session := rfl
  by_cases inside : ∀ path ∈ paths, policy.Within now (.agent session) op path
  · cases refused : paths.find? fun path => (policy.first (.agent session) op path).getD .deny = .deny with
    | none => exact answers_unrefused key some_ inside (by simpa using refused)
    | some path =>
      have denied : (policy.first (.agent session) op path).getD .deny = .deny := by simpa using List.find?_some refused
      have answer : ∃ reason, policy.evaluate now (.agent session) op paths = .deny reason := by
        rw [evaluate_inside key inside, decide_eq some_, refused]
        dsimp only
        cases ruled : policy.first (.agent session) op path with
        | none => exact ⟨.noRule, rfl⟩
        | some action =>
          rw [ruled] at denied
          obtain rfl : action = .deny := denied
          exact ⟨.policyRule, rfl⟩
      obtain ⟨reason, answer⟩ := answer
      exact .refused answer (List.mem_of_find?_eq_some refused) denied
  · exact answers_outside key inside

/-- A plugin's answer is the right one exactly where no missing rule hides one that asks or
denies. -/
theorem plugin_answers_iff {id : Str} (some_ : paths ≠ []) :
    policy.Answers now op (.plugin id) .allow paths ↔ ¬policy.Overlooks now op (.plugin id) paths := by
  have key : scopeKey (.plugin id) = some ("plugin:".toList ++ id) := rfl
  by_cases inside : ∀ path ∈ paths, policy.Within now (.plugin id) op path
  · cases refused : paths.find? fun path => (policy.first (.plugin id) op path).getD .deny = .deny with
    | none =>
      refine iff_of_true (answers_unrefused key some_ inside (by simpa using refused)) ?_
      rintro ⟨_, _, path, found, _⟩
      cases refused.symm.trans found
    | some path =>
      have member := List.mem_of_find?_eq_some refused
      cases ruled : policy.first (.plugin id) op path with
      | none =>
        have answer : policy.evaluate now (.plugin id) op paths = .allow := by
          rw [evaluate_inside key inside, decide_eq some_, refused]
          dsimp only
          rw [ruled]
          rfl
        constructor
        · rintro answers ⟨_, ⟨path', member', asksOrDenies⟩, _⟩
          have allowed := (answers.allows.mp answer path' member').2
          rcases asksOrDenies with here | here
          · rw [here] at allowed
            cases allowed
          · rw [here] at allowed
            cases allowed
        · intro overlooks
          apply Answers.allowed answer
          intro path' member'
          refine ⟨inside path' member', ?_⟩
          cases here : policy.first (.plugin id) op path' with
          | none => rfl
          | some action =>
            cases action with
            | allow => rfl
            | ask => exact absurd ⟨inside, ⟨path', member', .inl here⟩, path, refused, ruled⟩ overlooks
            | deny => exact absurd ⟨inside, ⟨path', member', .inr here⟩, path, refused, ruled⟩ overlooks
      | some action =>
        have denied : (policy.first (.plugin id) op path).getD .deny = .deny := by simpa using List.find?_some refused
        rw [ruled] at denied
        obtain rfl : action = .deny := denied
        have answer : policy.evaluate now (.plugin id) op paths = .deny .policyRule := by
          rw [evaluate_inside key inside, decide_eq some_, refused]
          dsimp only
          rw [ruled]
          rfl
        refine iff_of_true (.refused answer member (by rw [ruled]; rfl)) ?_
        rintro ⟨_, _, path', found, missing⟩
        obtain rfl := Option.some.inj (refused.symm.trans found)
        cases ruled.symm.trans missing
  · refine iff_of_true (answers_outside key inside) ?_
    rintro ⟨within, _⟩
    exact inside within

end

/-- The gate's answers are the ones promised, for an agent always, and for a plugin exactly
where no path without a rule can stand before one that a rule asks about or denies. -/
theorem evaluate_settles (policy : ScopedPolicy) (now : Instant) (op : PolicyOp) :
    (∀ session, policy.Settles now op (.agent session) .deny) ∧
    ∀ id, (∀ paths ≠ [], policy.Answers now op (.plugin id) .allow paths ↔ ¬policy.Overlooks now op (.plugin id) paths) ∧
      (policy.Settles now op (.plugin id) .allow ↔ ¬policy.Clashes now op (.plugin id)) := by
  refine ⟨fun session => settles_of_answers fun paths some_ => agent_answers some_,
    fun id => ⟨fun paths some_ => plugin_answers_iff some_, ?_, ?_⟩⟩
  · rintro settles ⟨path, path', within, within', missing, asksOrDenies⟩
    refine (plugin_answers_iff (List.cons_ne_nil _ _)).mp (settles.answers [path, path'] (List.cons_ne_nil _ _)) ⟨?_, ?_, ?_⟩
    · simp [within, within']
    · exact ⟨path', by simp, asksOrDenies⟩
    · exact ⟨path, by simp [missing], missing⟩
  · intro apart
    apply settles_of_answers
    intro paths some_
    apply (plugin_answers_iff some_).mpr
    rintro ⟨inside, ⟨path', member', asksOrDenies⟩, path, found, missing⟩
    exact apart ⟨path, path', inside path (List.mem_of_find?_eq_some found), inside path' member', missing, asksOrDenies⟩

/-! Two roots are granted to a plugin, and a rule denies one of them. -/

def fileRoot : VPath := ⟨⟨"file".toList, Scheme.check_file⟩, none, []⟩

def memRoot : VPath := ⟨⟨"mem".toList, Scheme.check_mem⟩, none, []⟩

def deniedMem : ScopedPolicy where
  scopes := ⟨fun _ => some [⟨[fileRoot, memRoot], ⟨["copy".toList]⟩, none⟩], []⟩
  config := ⟨[⟨none, none, some "mem".toList, none, .deny⟩]⟩

/-- The copy from a path that no rule knows to one that a rule denies passes. -/
theorem unknown_path_hides_denial : ¬deniedMem.Answers 0 .copy (.plugin []) .allow [fileRoot, memRoot] := by
  intro answers
  have passes : deniedMem.evaluate 0 (.plugin []) .copy [fileRoot, memRoot] = .allow := by decide
  have allowed := (answers.allows.mp passes memRoot (by simp)).2
  exact absurd allowed (by decide)

end ScopedPolicy

end Norte.Policy
