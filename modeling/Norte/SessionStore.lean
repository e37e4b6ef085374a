import Norte.LayoutTree
import Norte.VPath

/-! The saved screen of a person, as the daemon keeps it: a document it does not read, a
revision that goes up with every write, and the one connection that may write. -/
namespace Norte.UiSession

/-- What is saved of a slot. `view` is what nothing here reads: the directory, the cursor, the
order, the columns, the hidden entries, the jump point and the saved search. -/
structure SlotState (V : Type) where
  view : V
  back : List VPath
  forward : List VPath
  touchedMs : Nat
  marks : List VPath
  deriving DecidableEq

/-- The body: the layout of each profile, and the state of each slot. -/
structure SessionBody (P V : Type) where
  layouts : Str → Option (Layout.Node P)
  slots : Layout.SlotId → Option (SlotState V)

def SessionBody.empty {P V : Type} : SessionBody P V := ⟨fun _ => none, fun _ => none⟩

/-- A document as it is stored. One that is not a body does not fit the schema or holds a
layout that is refused; its own number may be from a later schema. -/
inductive Value (P V : Type) where
  | body (body : SessionBody P V)
  | unread (future : Bool)

def schemaVersion : Nat := 2

inductive SessionError where
  | fromTheFuture
  | malformed

def SessionBody.fromValue {P V : Type} (envelope : Nat) : Value P V → Except SessionError (SessionBody P V)
  | .body b => if schemaVersion < envelope then .error .fromTheFuture else .ok b
  | .unread future => if future || schemaVersion < envelope then .error .fromTheFuture else .error .malformed

structure Session (P V : Type) where
  version : Nat
  revision : UInt64
  body : Value P V

/-- What a frontend reads of a document. -/
def Session.read {P V : Type} (s : Session P V) : Option (SessionBody P V) :=
  (SessionBody.fromValue s.version s.body).toOption

/-- `u64::saturating_add(1)`. -/
def saturatingSucc (n : UInt64) : UInt64 := if n = 0xFFFFFFFFFFFFFFFF then n else n + 1

theorem saturatingSucc_grows (n : UInt64) :
    n < saturatingSucc n ∨ n = 0xFFFFFFFFFFFFFFFF ∧ saturatingSucc n = 0xFFFFFFFFFFFFFFFF := by
  unfold saturatingSucc
  by_cases last : n = 0xFFFFFFFFFFFFFFFF
  · exact .inr ⟨last, by rw [if_pos last, last]⟩
  · rw [if_neg last]
    have below : n.toNat ≠ 18446744073709551615 := fun same => last (UInt64.toNat_inj.mp same)
    have bound := n.toNat_lt
    refine .inl (UInt64.lt_iff_toNat_lt.mpr ?_)
    rw [UInt64.toNat_add, show (1 : UInt64).toNat = 1 from rfl]
    omega

theorem le_saturatingSucc (n : UInt64) : n ≤ saturatingSucc n := by
  rcases saturatingSucc_grows n with grows | ⟨last, same⟩
  · exact UInt64.le_of_lt grows
  · rw [same, last]
    exact UInt64.le_refl _

structure SessionStore (P V : Type) where
  session : Session P V
  owner : Option Nat
  isSealed : Bool

inductive PutError where
  | tooLarge
  | isSealed
  | conflict (current : UInt64)
  | unknownSchema
  deriving DecidableEq, Repr

/-- `SESSION_BODY_MAX`. -/
def sessionBodyMax : Nat := 1024 * 1024

namespace SessionStore

variable {P V : Type}

/-- Replaces the whole session, and answers the new revision. -/
def put (bytes : Value P V → Nat) (s : SessionStore P V) (version : Nat) (revision : UInt64) (body : Value P V) :
    Except PutError UInt64 × SessionStore P V :=
  if sessionBodyMax < bytes body then (.error .tooLarge, s)
  else if s.isSealed then (.error .isSealed, s)
  else if s.session.revision ≠ revision then (.error (.conflict s.session.revision), s)
  else if version = 0 || schemaVersion < version then (.error .unknownSchema, s)
  else
    let next := saturatingSucc s.session.revision
    (.ok next, { s with session := ⟨version, next, body⟩ })

theorem put_spec (bytes : Value P V → Nat) (s : SessionStore P V) (version : Nat) (revision : UInt64)
    (body : Value P V) :
    (revision = s.session.revision ∧ s.put bytes version revision body = (.ok (saturatingSucc s.session.revision),
        { s with session := ⟨version, saturatingSucc s.session.revision, body⟩ })) ∨
    ∃ e, s.put bytes version revision body = (.error e, s) ∧ ∀ n, e = .conflict n → revision ≠ s.session.revision := by
  unfold put
  split
  · exact .inr ⟨_, rfl, by simp⟩
  split
  · exact .inr ⟨_, rfl, by simp⟩
  split
  · rename_i stale
    exact .inr ⟨_, rfl, fun _ _ same => stale same.symm⟩
  rename_i current
  split
  · exact .inr ⟨_, rfl, by simp⟩
  · exact .inl ⟨(not_not.mp current).symm, rfl⟩

/-- The first connection to claim it keeps it. -/
def claim (s : SessionStore P V) (conn : Nat) : Bool × SessionStore P V :=
  match s.owner with
  | none => (true, { s with owner := some conn })
  | some current => (current = conn, s)

def release (s : SessionStore P V) (conn : Nat) : SessionStore P V :=
  if s.owner = some conn then { s with owner := none } else s

def closed (s : SessionStore P V) : SessionStore P V := { s with isSealed := true }

/-- Takes the document on disk, unless its number is lower. -/
def adoptFromDisk (s : SessionStore P V) (disk : Session P V) : SessionStore P V :=
  if s.session.revision ≤ disk.revision then { s with session := disk } else s

end SessionStore

/-- The daemon: the live session, and whether it has somewhere to write. -/
structure Daemon (P V : Type) where
  store : SessionStore P V
  persists : Bool

inductive SessionPutVeto where
  | notHuman
  | notTheOwner
  | noWriter
  deriving DecidableEq, Repr

def sessionPutVeto (isHuman : Bool) (owner : Option Nat) (conn : Nat) (persists : Bool) : Option SessionPutVeto :=
  if !isHuman then some .notHuman
  else if owner ≠ some conn then some .notTheOwner
  else if !persists then some .noWriter
  else none

/-- What a client hears of a call that failed. -/
inductive Error where
  | conflict
  | limitExceeded
  | permissionDenied
  | cancelled
  | unsupported
  | other
  deriving DecidableEq, Repr

def SessionPutVeto.error : SessionPutVeto → Error
  | .notHuman => .other
  | .notTheOwner | .noWriter => .permissionDenied

def PutError.error : PutError → Error
  | .tooLarge => .limitExceeded
  | .isSealed => .cancelled
  | .conflict _ => .conflict
  | .unknownSchema => .unsupported

namespace Daemon

variable {P V : Type}

/-- `session.get` of a person: the document, and whether this connection may write it. -/
def handleSessionGet (d : Daemon P V) (conn : Nat) : (Session P V × Bool) × Daemon P V :=
  let claimed := d.store.claim conn
  ((d.store.session, claimed.1 && d.persists), { d with store := claimed.2 })

def handleSessionRelease (d : Daemon P V) (conn : Nat) : Bool × Daemon P V :=
  if d.store.owner = some conn then (true, { d with store := d.store.release conn }) else (false, d)

/-- `session.put` of a person. -/
def handleSessionPut (bytes : Value P V → Nat) (d : Daemon P V) (conn version : Nat) (revision : UInt64)
    (body : Value P V) : Except Error UInt64 × Daemon P V :=
  match sessionPutVeto true d.store.owner conn d.persists with
  | some veto => (.error veto.error, d)
  | none =>
    match d.store.put bytes version revision body with
    | (.ok next, store) => (.ok next, { d with store := store })
    | (.error e, _) => (.error e.error, d)

/-- The lock came late: the daemon takes what is on disk, and writes from here on. -/
def lateLock (d : Daemon P V) (disk : Session P V) : Daemon P V := ⟨d.store.adoptFromDisk disk, true⟩

/-- One put: it writes for the owner and against the current revision, or nothing changes. -/
theorem handleSessionPut_spec (bytes : Value P V → Nat) (d : Daemon P V) (conn version : Nat) (revision : UInt64)
    (body : Value P V) :
    (d.store.owner = some conn ∧ d.persists ∧ revision = d.store.session.revision ∧
      d.handleSessionPut bytes conn version revision body = (.ok (saturatingSucc d.store.session.revision),
        { d with store := { d.store with session := ⟨version, saturatingSucc d.store.session.revision, body⟩ } })) ∨
    (∃ e, d.handleSessionPut bytes conn version revision body = (.error e, d) ∧
      (e = .conflict → d.store.owner = some conn ∧ d.persists ∧ revision ≠ d.store.session.revision)) := by
  unfold handleSessionPut
  by_cases mine : d.store.owner = some conn
  · by_cases writes : d.persists
    · have allowed : sessionPutVeto true d.store.owner conn d.persists = none := by
        simp [sessionPutVeto, mine, writes]
      rw [allowed]
      rcases d.store.put_spec bytes version revision body with ⟨current, taken⟩ | ⟨e, refused, stale⟩
      · rw [taken]
        exact .inl ⟨mine, writes, current, rfl⟩
      · rw [refused]
        refine .inr ⟨_, rfl, fun same => ⟨mine, writes, ?_⟩⟩
        cases e with
        | conflict n => exact stale n rfl
        | tooLarge | isSealed | unknownSchema => cases same
    · have refused : sessionPutVeto true d.store.owner conn d.persists = some .noWriter := by
        simp [sessionPutVeto, mine, writes]
      rw [refused]
      exact .inr ⟨_, rfl, by simp [SessionPutVeto.error]⟩
  · have refused : sessionPutVeto true d.store.owner conn d.persists = some .notTheOwner := by
      simp [sessionPutVeto, mine]
    rw [refused]
    exact .inr ⟨_, rfl, by simp [SessionPutVeto.error]⟩

/-- A get leaves the document, and the owner unless there was none. -/
theorem handleSessionGet_spec (d : Daemon P V) (conn : Nat) :
    (d.handleSessionGet conn).1.1 = d.store.session ∧
    (d.handleSessionGet conn).2.store.session = d.store.session ∧
    (d.handleSessionGet conn).2.persists = d.persists ∧
    ((d.handleSessionGet conn).2.store.owner = d.store.owner ∨
      d.store.owner = none ∧ (d.handleSessionGet conn).2.store.owner = some conn) ∧
    ((d.handleSessionGet conn).1.2 →
      (d.handleSessionGet conn).2.store.owner = some conn ∧ d.persists) := by
  unfold handleSessionGet SessionStore.claim
  cases owner : d.store.owner with
  | none => simp
  | some current =>
    refine ⟨rfl, rfl, rfl, .inl owner, ?_⟩
    simp only [Bool.and_eq_true, decide_eq_true_eq]
    rintro ⟨rfl, writes⟩
    exact ⟨owner, writes⟩

end Daemon

end Norte.UiSession
