import Norte.Policy

/-! The verdicts of the three gates and what they are said to mean. Two of them look at an
expired scope only where it would have granted; the gate of the mutations looks at any. -/
namespace Norte.Policy

namespace ScopeRegistry

def withProtectedRoots (roots : List VPath) : ScopeRegistry := ⟨fun _ => none, roots⟩

def scopes (reg : ScopeRegistry) (session : Str) : List Scope := (reg.inner session).getD []

/-- Scopes of the session that have expired are dropped on the way. -/
def grant (reg : ScopeRegistry) (session : Str) (scope : Scope) (now : Instant) : ScopeRegistry :=
  { reg with
    inner := Function.update reg.inner session
      (some ((reg.scopes session).filter (fun s => !s.isExpired now) ++ [scope])) }

def revokeAll (reg : ScopeRegistry) (session : Str) : ScopeRegistry :=
  { reg with inner := Function.update reg.inner session none }

/-- Only a scope that applies counts, live or expired. -/
def coversFrom (applies : Scope → Bool) (now : Instant) : List Scope → Bool → ScopeVerdict
  | [], sawExpired => if sawExpired then .expired else .outOfScope
  | s :: scopes, sawExpired =>
    if !applies s then coversFrom applies now scopes sawExpired
    else if s.isExpired now then coversFrom applies now scopes true
    else .within

def covers (applies : Scope → Bool) (reg : ScopeRegistry) (session : Str) (path : VPath) (now : Instant) :
    ScopeVerdict :=
  if reg.isProtected path then .outOfScope
  else match reg.inner session with
    | none => .outOfScope
    | some scopes => coversFrom applies now scopes false

end ScopeRegistry

def Scope.reaches (path : VPath) (s : Scope) : Bool := s.roots.any (isUnder · path)

/-- A root above the path, and the operation. -/
def Scope.grants (op : PolicyOp) (path : VPath) (s : Scope) : Bool := s.ops.allows op && s.reaches path

/-- A root above the path, and an operation that handles bytes. -/
def Scope.grantsContent (path : VPath) (s : Scope) : Bool :=
  s.reaches path && (s.ops.allows .copy || s.ops.allows .move)

namespace ScopeRegistry

def coversRead (reg : ScopeRegistry) (session : Str) (path : VPath) (now : Instant) : ScopeVerdict :=
  covers (Scope.reaches path) reg session path now

def coversContent (reg : ScopeRegistry) (session : Str) (path : VPath) (now : Instant) : ScopeVerdict :=
  covers (Scope.grantsContent path) reg session path now

/-- A registry after grants and revocations in any order. -/
inductive Reached (roots : List VPath) : ScopeRegistry → Prop where
  | new : Reached roots (withProtectedRoots roots)
  | grant {reg : ScopeRegistry} (session : Str) (scope : Scope) (now : Instant) :
    Reached roots reg → Reached roots (reg.grant session scope now)
  | revokeAll {reg : ScopeRegistry} (session : Str) : Reached roots reg → Reached roots (reg.revokeAll session)

theorem Reached.protectedRoots {roots : List VPath} {reg : ScopeRegistry} (reached : Reached roots reg) :
    reg.protectedRoots = roots := by
  induction reached with
  | new => rfl
  | grant session scope now _ ih => exact ih
  | revokeAll session _ ih => exact ih

theorem Reached.isProtected {roots : List VPath} {reg : ScopeRegistry} (reached : Reached roots reg) (path : VPath) :
    reg.isProtected path = true ↔ ∃ root ∈ roots, isUnder root path = true := by
  rw [ScopeRegistry.isProtected, reached.protectedRoots, List.any_eq_true]

end ScopeRegistry

/-- A scope that applies and is live, or is not any more. -/
def Live (applies : Scope → Bool) (now : Instant) (scopes : List Scope) : Prop :=
  ∃ s ∈ scopes, s.isExpired now = false ∧ applies s = true

def Lapsed (applies : Scope → Bool) (now : Instant) (scopes : List Scope) : Prop :=
  ∃ s ∈ scopes, s.isExpired now = true ∧ applies s = true

/-- The verdict says why: a live scope applies, only expired ones do, or none does. Nothing
applies to what is `barred`. -/
structure NamesCause (applies : Scope → Bool) (now : Instant) (scopes : List Scope) (barred : Prop)
    (verdict : ScopeVerdict) : Prop where
  within : verdict = .within ↔ ¬barred ∧ Live applies now scopes
  expired : verdict = .expired ↔ ¬barred ∧ ¬Live applies now scopes ∧ Lapsed applies now scopes
  outOfScope : verdict = .outOfScope ↔ barred ∨ (¬Live applies now scopes ∧ ¬Lapsed applies now scopes)

section

variable {applies : Scope → Bool} {now : Instant} {scopes : List Scope} {barred : Prop} {verdict : ScopeVerdict}

theorem live_cons {s : Scope} :
    Live applies now (s :: scopes) ↔ (s.isExpired now = false ∧ applies s = true) ∨ Live applies now scopes := by
  simp [Live]

theorem lapsed_cons {s : Scope} :
    Lapsed applies now (s :: scopes) ↔ (s.isExpired now = true ∧ applies s = true) ∨ Lapsed applies now scopes := by
  simp [Lapsed]

/-- What is neither within nor expired is out of scope. -/
theorem NamesCause.of (within : verdict = .within ↔ ¬barred ∧ Live applies now scopes)
    (expired : verdict = .expired ↔ ¬barred ∧ ¬Live applies now scopes ∧ Lapsed applies now scopes) :
    NamesCause applies now scopes barred verdict := by
  refine ⟨within, expired, ?_⟩
  cases verdict <;> simp only [true_iff, false_iff, reduceCtorEq] at within expired ⊢ <;> tauto

theorem coversFrom_within {sawExpired : Bool} :
    ScopeRegistry.coversFrom applies now scopes sawExpired = .within ↔ Live applies now scopes := by
  induction scopes generalizing sawExpired with
  | nil => cases sawExpired <;> simp [ScopeRegistry.coversFrom, Live]
  | cons s scopes ih =>
    unfold ScopeRegistry.coversFrom
    rw [live_cons]
    cases applied : applies s <;> cases expired : s.isExpired now <;> simp [ih]

theorem coversFrom_expired {sawExpired : Bool} :
    ScopeRegistry.coversFrom applies now scopes sawExpired = .expired ↔
      ¬Live applies now scopes ∧ (sawExpired = true ∨ Lapsed applies now scopes) := by
  induction scopes generalizing sawExpired with
  | nil => cases sawExpired <;> simp [ScopeRegistry.coversFrom, Live, Lapsed]
  | cons s scopes ih =>
    unfold ScopeRegistry.coversFrom
    rw [live_cons, lapsed_cons]
    cases applied : applies s <;> cases expired : s.isExpired now <;> simp [ih]

/-- The gate of the mutations: any expired scope makes the verdict expired. -/
theorem permitsFrom_expired {op : PolicyOp} {path : VPath} {sawExpired : Bool} :
    ScopeRegistry.permitsFrom op path now scopes sawExpired = .expired ↔
      ¬Live (Scope.grants op path) now scopes ∧ (sawExpired = true ∨ ∃ s ∈ scopes, s.isExpired now = true) := by
  induction scopes generalizing sawExpired with
  | nil => cases sawExpired <;> simp [ScopeRegistry.permitsFrom, Live]
  | cons s scopes ih =>
    unfold ScopeRegistry.permitsFrom
    rw [live_cons]
    cases expired : s.isExpired now with
    | true => simp [ih, expired]
    | false =>
      cases granted : s.grants op path with
      | true =>
        simp only [Scope.grants, Scope.reaches] at granted
        simp [granted]
      | false =>
        simp only [Scope.grants, Scope.reaches] at granted
        simp [granted, ih, expired]

variable {reg : ScopeRegistry} {session : Str} {path : VPath}

/-- The gates of the reads name the cause. -/
theorem covers_names (applies : Scope → Bool) (reg : ScopeRegistry) (session : Str) (path : VPath) (now : Instant) :
    NamesCause applies now (reg.scopes session) (reg.isProtected path = true)
      (reg.covers applies session path now) := by
  unfold ScopeRegistry.covers ScopeRegistry.scopes
  cases kept : reg.isProtected path with
  | true => apply NamesCause.of <;> simp
  | false =>
    cases reg.inner session with
    | none => apply NamesCause.of <;> simp [Live, Lapsed]
    | some scopes =>
      apply NamesCause.of
      · simp [coversFrom_within]
      · simp [coversFrom_expired]

theorem permits_live {op : PolicyOp} :
    reg.permits session op path now = .within ↔
      ¬reg.isProtected path = true ∧ Live (Scope.grants op path) now (reg.scopes session) := by
  rw [ScopeRegistry.permits_within, Bool.not_eq_true, ScopeRegistry.scopes]
  cases reg.inner session <;> simp [Live, Scope.grants, Scope.reaches]

theorem permits_expired {op : PolicyOp} :
    reg.permits session op path now = .expired ↔ ¬reg.isProtected path = true ∧
      ¬Live (Scope.grants op path) now (reg.scopes session) ∧
        ∃ s ∈ reg.scopes session, s.isExpired now = true := by
  unfold ScopeRegistry.permits ScopeRegistry.scopes
  cases kept : reg.isProtected path with
  | true => simp
  | false =>
    cases reg.inner session with
    | none => simp
    | some scopes => simp [permitsFrom_expired]

/-- What an expired scope of the session says about the operation and the path, if it is asked:
the path is protected, a live scope grants, no scope is expired, or an expired one would have
granted. -/
def ExpiryMatters (reg : ScopeRegistry) (session : Str) (op : PolicyOp) (path : VPath) (now : Instant) : Prop :=
  reg.isProtected path = true ∨ Live (Scope.grants op path) now (reg.scopes session) ∨
    (∀ s ∈ reg.scopes session, s.isExpired now = false) ∨ Lapsed (Scope.grants op path) now (reg.scopes session)

theorem Lapsed.any (lapsed : Lapsed applies now scopes) : ∃ s ∈ scopes, s.isExpired now = true := by
  obtain ⟨s, member, expired, -⟩ := lapsed
  exact ⟨s, member, expired⟩

theorem permits_names_iff {op : PolicyOp} :
    NamesCause (Scope.grants op path) now (reg.scopes session) (reg.isProtected path = true)
        (reg.permits session op path now) ↔ ExpiryMatters reg session op path now := by
  have anyOrNone : (∀ s ∈ reg.scopes session, s.isExpired now = false) ↔
      ¬∃ s ∈ reg.scopes session, s.isExpired now = true := by simp
  unfold ExpiryMatters
  rw [anyOrNone]
  constructor
  · intro names
    have expired := names.expired
    rw [permits_expired] at expired
    by_cases kept : reg.isProtected path = true
    · exact .inl kept
    by_cases live : Live (Scope.grants op path) now (reg.scopes session)
    · exact .inr (.inl live)
    by_cases any : ∃ s ∈ reg.scopes session, s.isExpired now = true
    · exact .inr (.inr (.inr (expired.mp ⟨kept, live, any⟩).2.2))
    · exact .inr (.inr (.inl any))
  · intro matters
    apply NamesCause.of permits_live
    rw [permits_expired]
    constructor
    · rintro ⟨kept, live, any⟩
      rcases matters with barred | granted | none | lapsed
      · exact absurd barred kept
      · exact absurd granted live
      · exact absurd any none
      · exact ⟨kept, live, lapsed⟩
    · rintro ⟨kept, live, lapsed⟩
      exact ⟨kept, live, lapsed.any⟩

end

/-- The three gates for a session, an operation, a path and an instant. -/
structure GatesNameCause (roots : List VPath) (reg : ScopeRegistry) (session : Str) (op : PolicyOp) (path : VPath)
    (now : Instant) : Prop where
  permits : NamesCause (Scope.grants op path) now (reg.scopes session) (∃ root ∈ roots, isUnder root path = true)
    (reg.permits session op path now)
  read : NamesCause (Scope.reaches path) now (reg.scopes session) (∃ root ∈ roots, isUnder root path = true)
    (reg.coversRead session path now)
  content : NamesCause (Scope.grantsContent path) now (reg.scopes session) (∃ root ∈ roots, isUnder root path = true)
    (reg.coversContent session path now)

/-- The gates name the cause exactly when no expired scope of something else is in the way. -/
theorem gates_name_cause {roots : List VPath} {reg : ScopeRegistry} (reached : reg.Reached roots) (session : Str)
    (op : PolicyOp) (path : VPath) (now : Instant) :
    GatesNameCause roots reg session op path now ↔ ExpiryMatters reg session op path now := by
  have isProtected := reached.isProtected path
  constructor
  · intro names
    have permits := names.permits
    rw [← isProtected] at permits
    exact permits_names_iff.mp permits
  · intro matters
    constructor <;> rw [← isProtected]
    · exact permits_names_iff.mpr matters
    · exact covers_names ..
    · exact covers_names ..

/-- A copy below the first root is granted until 1. -/
def lapsedCopy : ScopeRegistry :=
  (ScopeRegistry.withProtectedRoots []).grant [] ⟨[ScopedPolicy.fileRoot], ⟨["copy".toList]⟩, some 1⟩ 0

theorem lapsedCopy_reached : lapsedCopy.Reached [] := ScopeRegistry.Reached.new.grant ..

/-- The expired grant is named to who copies below that root. -/
theorem gates_name_cause_lapsed : GatesNameCause [] lapsedCopy [] .copy ScopedPolicy.fileRoot 2 := by
  apply (gates_name_cause lapsedCopy_reached [] .copy ScopedPolicy.fileRoot 2).mpr
  refine .inr (.inr (.inr ⟨⟨[ScopedPolicy.fileRoot], ⟨["copy".toList]⟩, some 1⟩, ?_, by decide, by decide⟩))
  exact List.mem_cons_self ..

/-- To who makes a directory below another root it is named as well, which it never granted. -/
theorem permits_names_another_scope :
    lapsedCopy.permits [] .mkdir ScopedPolicy.memRoot 2 = .expired ∧
      ¬∀ (roots : List VPath) (reg : ScopeRegistry), reg.Reached roots → ∀ session op path now,
        GatesNameCause roots reg session op path now := by
  have expired : lapsedCopy.permits [] .mkdir ScopedPolicy.memRoot 2 = .expired := by decide
  refine ⟨expired, fun names => ?_⟩
  have cause := names [] lapsedCopy lapsedCopy_reached [] .mkdir ScopedPolicy.memRoot 2
  obtain ⟨-, -, s, member, -, granted⟩ := cause.permits.expired.mp expired
  have only : s = ⟨[ScopedPolicy.fileRoot], ⟨["copy".toList]⟩, some 1⟩ := by
    simpa [lapsedCopy, ScopeRegistry.scopes, ScopeRegistry.grant, ScopeRegistry.withProtectedRoots] using member
  rw [only] at granted
  exact absurd granted (by decide)

end Norte.Policy
