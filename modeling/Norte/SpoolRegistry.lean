import Mathlib.Data.Finset.Card
import Mathlib.Data.List.Nodup

/-! The right to apply a plan. What a daemon knows of its plans, the operations that change
it between two awaits, and the runs of these over any number of connections. -/
namespace Norte.Spool

variable {H : Type}

def deadCap : Nat := 1024

/-- What this process knows about its own plans, all under one lock. `planning` is zero for
a connection without an entry. -/
structure Registry (H : Type) where
  issued : Finset (Nat × H)
  applying : Finset (Nat × H)
  planning : Nat → Nat
  dead : Finset Nat

namespace Registry

variable [DecidableEq H]

def new : Registry H := ⟨∅, ∅, fun _ => 0, ∅⟩

def recordIssued (reg : Registry H) (connId : Nat) (hash : H) : Option (Registry H) :=
  if connId ∈ reg.dead ∨ (connId, hash) ∈ reg.applying then none
  else some { reg with issued := insert (connId, hash) reg.issued }

def claimIssued (reg : Registry H) (connId : Nat) (hash : H) : Option (Registry H) :=
  if (connId, hash) ∈ reg.issued then
    some { reg with
      issued := reg.issued.erase (connId, hash)
      applying := insert (connId, hash) reg.applying }
  else none

/-- A startup sweep: nothing is known. -/
def forgetAll (reg : Registry H) : Registry H := { reg with issued := ∅, applying := ∅, dead := ∅ }

def forgetIssued (reg : Registry H) (id : Nat) : Registry H :=
  { reg with
    issued := reg.issued.filter fun key => key.1 ≠ id
    applying := reg.applying.filter fun key => key.1 ≠ id
    dead := insert id
      (if deadCap ≤ reg.dead.card then reg.dead.filter fun c => reg.planning c ≠ 0 else reg.dead) }

def releaseApplying (reg : Registry H) (connId : Nat) (hash : H) : Registry H :=
  { reg with applying := reg.applying.erase (connId, hash) }

def openWriter (reg : Registry H) (connId : Nat) : Registry H :=
  { reg with planning := fun c => if c = connId then reg.planning c + 1 else reg.planning c }

/-- With a connection's last writer, its tombstone is also forgotten. -/
def closeWriter (reg : Registry H) (connId : Nat) : Registry H :=
  { reg with
    planning := fun c => if c = connId then reg.planning c - 1 else reg.planning c
    dead := if reg.planning connId = 1 then reg.dead.erase connId else reg.dead }

end Registry

/-- A writer until it is dropped: still planning, about to give its file the name of this
hash, or at the end of `finish`. -/
inductive Phase (H : Type) where
  | writing
  | landing (hash : H)
  | done
  deriving DecidableEq

structure Writer (H : Type) where
  connId : Nat
  phase : Phase H
  deriving DecidableEq

/-- An `open` is named by the place of its claim in the trace. -/
inductive Event (H : Type) where
  | finished (connId : Nat) (hash : H)
  | claimed (connId : Nat) (hash : H)
  | opened (claim : Nat) (connId : Nat) (hash : H)
  | released (connId : Nat) (hash : H)
  | dropped (connId : Nat)
  deriving DecidableEq

/-- An `open` that has taken the right and now reads the file. -/
structure Opening (H : Type) where
  claim : Nat
  connId : Nat
  hash : H
  deriving DecidableEq

/-- One spool and all its clones. `removing` are the calls of `remove` between its two
halves. -/
structure State (H : Type) where
  reg : Registry H
  writers : List (Writer H)
  opening : List (Opening H)
  removing : List (Nat × H)
  events : List (Event H)

def State.new : State H := ⟨.new, [], [], [], []⟩

def State.log (s : State H) (e : Event H) : State H := { s with events := s.events ++ [e] }

/-- What a step asks of the spool, as far as anyone can do it at the wrong time. -/
inductive Action (H : Type) where
  | create (connId : Nat)
  | release (connId : Nat) (hash : H)
  | sweep
  | other

section Runs

variable [DecidableEq H]

/-- One critical section of one operation. -/
inductive Step : State H → Action H → State H → Prop where
  | create (c : Nat) :
      Step s (.create c) { s with reg := s.reg.openWriter c, writers := ⟨c, .writing⟩ :: s.writers }
  -- interrupted, dead on entering `finish`, abandoned, or out of disk
  | close {before after : List (Writer H)} {c : Nat} {phase : Phase H}
      (there : s.writers = before ++ ⟨c, phase⟩ :: after) :
      Step s .other { s with writers := before ++ ⟨c, .done⟩ :: after }
  | check {before after : List (Writer H)} {c : Nat}
      (there : s.writers = before ++ ⟨c, .writing⟩ :: after) (alive : c ∉ s.reg.dead) (h : H) :
      Step s .other { s with writers := before ++ ⟨c, .landing h⟩ :: after }
  | record {before after : List (Writer H)} {c : Nat} {h : H} {reg : Registry H}
      (there : s.writers = before ++ ⟨c, .landing h⟩ :: after)
      (recorded : s.reg.recordIssued c h = some reg) :
      Step s .other (State.log { s with reg := reg, writers := before ++ ⟨c, .done⟩ :: after } (.finished c h))
  | unrecorded {before after : List (Writer H)} {c : Nat} {h : H}
      (there : s.writers = before ++ ⟨c, .landing h⟩ :: after)
      (refused : s.reg.recordIssued c h = none) :
      Step s .other { s with writers := before ++ ⟨c, .done⟩ :: after }
  | dropWriter {before after : List (Writer H)} {c : Nat} {phase : Phase H}
      (there : s.writers = before ++ ⟨c, phase⟩ :: after) :
      Step s .other { s with reg := s.reg.closeWriter c, writers := before ++ after }
  | claim {c : Nat} {h : H} {reg : Registry H} (took : s.reg.claimIssued c h = some reg) :
      Step s .other
        (State.log { s with reg := reg, opening := ⟨s.events.length, c, h⟩ :: s.opening } (.claimed c h))
  | opened {before after : List (Opening H)} {i c : Nat} {h : H}
      (there : s.opening = before ++ ⟨i, c, h⟩ :: after) :
      Step s .other (State.log { s with opening := before ++ after } (.opened i c h))
  | failed {before after : List (Opening H)} {i c : Nat} {h : H}
      (there : s.opening = before ++ ⟨i, c, h⟩ :: after) :
      Step s .other { s with reg := s.reg.releaseApplying c h, opening := before ++ after }
  -- the future is dropped at its await
  | forsaken {before after : List (Opening H)} {i c : Nat} {h : H}
      (there : s.opening = before ++ ⟨i, c, h⟩ :: after) :
      Step s .other { s with opening := before ++ after }
  | remove (c : Nat) (h : H) :
      Step s .other
        { s with reg := (s.reg.claimIssued c h).getD s.reg, removing := (c, h) :: s.removing }
  | removed {before after : List (Nat × H)} {c : Nat} {h : H} (there : s.removing = before ++ (c, h) :: after) :
      Step s (.release c h)
        (State.log { s with reg := s.reg.releaseApplying c h, removing := before ++ after } (.released c h))
  | abandon (c : Nat) (h : H) :
      Step s (.release c h) (State.log { s with reg := s.reg.releaseApplying c h } (.released c h))
  | dropConnection (c : Nat) : Step s .other (State.log { s with reg := s.reg.forgetIssued c } (.dropped c))
  | sweep : Step s .sweep { s with reg := s.reg.forgetAll }

inductive Reached : State H → Prop where
  | new : Reached .new
  | step (before : Reached s) (step : Step s a s') : Reached s'

/-- The right is single-use and dies with its connection. An `open` takes the right at its
claim; `finish` mints it when it records. -/
structure SingleUse (events : List (Event H)) : Prop where
  /-- Every open consumes a finish of its own, earlier than it. -/
  consumes : ∃ minted : Nat → Nat,
    (∀ i c h, .opened i c h ∈ events → events[i]? = some (.claimed c h) ∧
      minted i < i ∧ events[minted i]? = some (.finished c h)) ∧
    ∀ i c h j d k, .opened i c h ∈ events → .opened j d k ∈ events → minted i = minted j → i = j
  once : (events.filterMap fun e => match e with | .opened i _ _ => some i | _ => none).Nodup
  /-- Between two opens of one plan the first is removed or abandoned. -/
  alone : ∀ i j c h, .opened i c h ∈ events → i < j → events[j]? = some (.claimed c h) →
    ∃ k, i < k ∧ k < j ∧ events[k]? = some (.released c h)
  /-- After its connection is dropped a plan is neither recorded nor opened. -/
  dies : ∀ (i j c : Nat) (h : H), i < j → events[i]? = some (.dropped c) →
    events[j]? ≠ some (.finished c h) ∧ events[j]? ≠ some (.claimed c h)

/-- A closed connection starts a plan only while its tombstone stands; a right is given
back only when no `open` of it is still reading; and a sweep, as at startup, finds nothing
being applied nor written by a closed connection. -/
def Orderly (s : State H) : Action H → Prop
  | .create c => .dropped c ∈ s.events → c ∈ s.reg.dead
  | .release c h => ∀ o ∈ s.opening, (o.connId, o.hash) ≠ (c, h)
  | .sweep => s.reg.applying = ∅ ∧ ∀ w ∈ s.writers, .dropped w.connId ∉ s.events
  | .other => True

/-- A run whose steps are all orderly. -/
inductive Kept : State H → Prop where
  | new : Kept .new
  | step (before : Kept s) (step : Step s a s') (orderly : Orderly s a) : Kept s'

end Runs

/-! What every run keeps. -/

theorem getElem?_concat {events : List (Event H)} {e x : Event H} {i : Nat} :
    (events ++ [e])[i]? = some x ↔ events[i]? = some x ∨ i = events.length ∧ e = x := by
  rcases Nat.lt_trichotomy i events.length with below | rfl | above
  · rw [List.getElem?_append_left below]
    constructor
    · exact .inl
    · rintro (known | ⟨rfl, _⟩)
      · exact known
      · exact absurd below (Nat.lt_irrefl _)
  · simp
  · rw [List.getElem?_eq_none (by simp; omega), List.getElem?_eq_none (Nat.le_of_lt above)]
    constructor
    · rintro ⟨⟩
    · rintro (⟨⟨⟩⟩ | ⟨rfl, _⟩)
      exact absurd above (Nat.lt_irrefl _)

theorem getElem?_concat_of {events : List (Event H)} {x : Event H} {i : Nat} (known : events[i]? = some x)
    (e : Event H) : (events ++ [e])[i]? = some x := getElem?_concat.mpr (.inl known)

theorem lt_length_of_getElem? {events : List (Event H)} {x : Event H} {i : Nat} (known : events[i]? = some x) :
    i < events.length := (List.getElem?_eq_some_iff.mp known).1

def opens (events : List (Event H)) : List Nat :=
  events.filterMap fun e => match e with
    | .opened i _ _ => some i
    | _ => none

theorem mem_opens {events : List (Event H)} {i : Nat} : i ∈ opens events ↔ ∃ c h, .opened i c h ∈ events := by
  constructor
  · intro member
    obtain ⟨e, here, same⟩ := List.mem_filterMap.mp member
    cases e <;> cases same
    exact ⟨_, _, here⟩
  · rintro ⟨c, h, here⟩
    exact List.mem_filterMap.mpr ⟨_, here, rfl⟩

/-- Which finish each claim took its right from. -/
structure Minted (s : State H) (minted : Nat → Nat) : Prop where
  earlier : ∀ i c h, s.events[i]? = some (.claimed c h) → minted i < i ∧ s.events[minted i]? = some (.finished c h)
  apart : ∀ i c h j d k, s.events[i]? = some (.claimed c h) → s.events[j]? = some (.claimed d k) →
    minted i = minted j → i = j
  /-- A right nobody has taken comes from a finish nobody has used. -/
  unused : ∀ c h, (c, h) ∈ s.reg.issued → ∃ f, s.events[f]? = some (.finished c h) ∧
    ∀ i d k, s.events[i]? = some (.claimed d k) → minted i ≠ f

/-- The calls of `open` against the trace. -/
structure Opens (s : State H) : Prop where
  pending : ∀ o ∈ s.opening, s.events[o.claim]? = some (.claimed o.connId o.hash) ∧ o.claim ∉ opens s.events
  done : ∀ i c h, .opened i c h ∈ s.events → s.events[i]? = some (.claimed c h)
  apart : (s.opening.map Opening.claim).Nodup
  once : (opens s.events).Nodup

/-- What every run keeps of the registry. -/
structure Sound (s : State H) : Prop where
  planning : ∀ c, s.reg.planning c = s.writers.countP fun w => w.connId = c
  disjoint : ∀ key ∈ s.reg.issued, key ∉ s.reg.applying
  minted : ∃ minted, Minted s minted
  opens : Opens s

/-- Fewer rights, the same claims. -/
theorem Minted.keep {s s' : State H} {minted : Nat → Nat} (known : Minted s minted)
    (issued : s'.reg.issued ⊆ s.reg.issued) (events : s'.events = s.events) : Minted s' minted := by
  obtain ⟨earlier, apart, unused⟩ := known
  refine ⟨events ▸ earlier, events ▸ apart, ?_⟩
  intro c h member
  rw [events]
  exact unused c h (issued member)

/-- An event that is not a claim. -/
theorem Minted.log {s s' : State H} {minted : Nat → Nat} (known : Minted s minted) {e : Event H}
    (issued : s'.reg.issued ⊆ s.reg.issued) (events : s'.events = s.events ++ [e])
    (other : ∀ c h, e ≠ .claimed c h) : Minted s' minted := by
  have old {i c : Nat} {h : H} (claimed : s'.events[i]? = some (.claimed c h)) : s.events[i]? = some (.claimed c h) := by
    rw [events] at claimed
    rcases getElem?_concat.mp claimed with known | ⟨_, same⟩
    · exact known
    · exact absurd same (other c h)
  refine ⟨?_, ?_, ?_⟩
  · intro i c h claimed
    obtain ⟨before, finished⟩ := known.earlier i c h (old claimed)
    exact ⟨before, events ▸ getElem?_concat_of finished e⟩
  · intro i c h j d k first second
    exact known.apart i c h j d k (old first) (old second)
  · intro c h member
    obtain ⟨f, finished, free⟩ := known.unused c h (issued member)
    exact ⟨f, events ▸ getElem?_concat_of finished e, fun i d k claimed => free i d k (old claimed)⟩

theorem opens_append_of_ne {events : List (Event H)} {e : Event H} (other : ∀ i c h, e ≠ .opened i c h) :
    opens (events ++ [e]) = opens events := by
  rw [opens, List.filterMap_append]
  cases e with
  | opened i c h => exact absurd rfl (other i c h)
  | _ => exact List.append_nil _

theorem opens_append_opened (events : List (Event H)) (i c : Nat) (h : H) :
    opens (events ++ [.opened i c h]) = opens events ++ [i] := List.filterMap_append

/-- Fewer calls, and an event that is not an open. -/
theorem Opens.log {s s' : State H} (known : Opens s) {e : Event H} (fewer : s'.opening.Sublist s.opening)
    (events : s'.events = s.events ++ [e]) (other : ∀ i c h, e ≠ .opened i c h) : Opens s' := by
  obtain ⟨pending, done, apart, once⟩ := known
  refine ⟨?_, ?_, apart.sublist (fewer.map _), ?_⟩
  · intro o member
    rw [events, opens_append_of_ne other]
    obtain ⟨claimed, fresh⟩ := pending o (fewer.subset member)
    exact ⟨getElem?_concat_of claimed e, fresh⟩
  · intro i c h member
    rw [events] at member ⊢
    rcases List.mem_append.mp member with known | new
    · exact getElem?_concat_of (done i c h known) e
    · exact absurd (List.mem_singleton.mp new).symm (other i c h)
  · rw [events, opens_append_of_ne other]
    exact once

theorem Opens.keep {s s' : State H} (known : Opens s) (fewer : s'.opening.Sublist s.opening)
    (events : s'.events = s.events) : Opens s' := by
  obtain ⟨pending, done, apart, once⟩ := known
  exact ⟨fun o member => events ▸ pending o (fewer.subset member), events ▸ done, apart.sublist (fewer.map _),
    events ▸ once⟩

theorem sublist_middle {α : Type} {before after : List α} {x : α} :
    (before ++ after).Sublist (before ++ x :: after) :=
  (List.sublist_cons_self x after).append_left before

theorem countP_middle {before after : List (Writer H)} {c : Nat} {phase phase' : Phase H} (d : Nat) :
    (before ++ ⟨c, phase⟩ :: after).countP (fun w => w.connId = d) =
      (before ++ ⟨c, phase'⟩ :: after).countP fun w => w.connId = d := by
  simp only [List.countP_append, List.countP_cons]

/-- An open that reads its file or has read it. -/
def Live (s : State H) (i c : Nat) (h : H) : Prop := ⟨i, c, h⟩ ∈ s.opening ∨ .opened i c h ∈ s.events

theorem Opens.claimed {s : State H} (known : Opens s) {i c : Nat} {h : H} (live : Live s i c h) :
    s.events[i]? = some (.claimed c h) := by
  rcases live with pending | done
  · exact (known.pending _ pending).1
  · exact known.done i c h done

/-- What an orderly run keeps. -/
structure Guarded (s : State H) : Prop where
  /-- A closed connection that is still planning has its tombstone. -/
  tombs : ∀ w ∈ s.writers, .dropped w.connId ∈ s.events → w.connId ∈ s.reg.dead
  buried : ∀ c h, (c, h) ∈ s.reg.issued → .dropped c ∉ s.events
  dies : ∀ (i j c : Nat) (h : H), i < j → s.events[i]? = some (.dropped c) →
    s.events[j]? ≠ some (.finished c h) ∧ s.events[j]? ≠ some (.claimed c h)
  /-- An open holds its plan until the plan is released or its connection dropped. -/
  held : ∀ i c h, Live s i c h →
    (∃ k, i < k ∧ s.events[k]? = some (.released c h)) ∨ .dropped c ∈ s.events ∨ (c, h) ∈ s.reg.applying
  reading : ∀ o ∈ s.opening, ∀ k, o.claim < k → s.events[k]? ≠ some (.released o.connId o.hash)
  alone : ∀ i j c h, Live s i c h → i < j → s.events[j]? = some (.claimed c h) →
    ∃ k, i < k ∧ k < j ∧ s.events[k]? = some (.released c h)

variable {s s' : State H}

theorem Opens.claim (known : Opens s) {c : Nat} {h : H}
    (opening : s'.opening = ⟨s.events.length, c, h⟩ :: s.opening)
    (events : s'.events = s.events ++ [.claimed c h]) : Opens s' := by
  have fresh : s.events.length ∉ opens s.events := by
    intro member
    obtain ⟨d, k, here⟩ := mem_opens.mp member
    exact Nat.lt_irrefl _ (lt_length_of_getElem? (known.done _ d k here))
  have same : opens (s.events ++ [.claimed c h]) = opens s.events := opens_append_of_ne (by simp)
  refine ⟨?_, ?_, ?_, ?_⟩
  · intro o member
    rw [opening] at member
    rw [events, same]
    rcases List.mem_cons.mp member with rfl | old
    · exact ⟨getElem?_concat.mpr (.inr ⟨rfl, rfl⟩), fresh⟩
    · obtain ⟨claimed, unopened⟩ := known.pending o old
      exact ⟨getElem?_concat_of claimed _, unopened⟩
  · intro i d k member
    rw [events] at member ⊢
    rcases List.mem_append.mp member with old | new
    · exact getElem?_concat_of (known.done i d k old) _
    · cases List.mem_singleton.mp new
  · rw [opening, List.map_cons]
    refine List.nodup_cons.mpr ⟨fun member => ?_, known.apart⟩
    obtain ⟨o, here, same⟩ := List.mem_map.mp member
    have below := lt_length_of_getElem? (known.pending o here).1
    exact absurd same (Nat.ne_of_lt below)
  · rw [events, same]
    exact known.once

theorem Opens.opened (known : Opens s) {before after : List (Opening H)} {i c : Nat} {h : H}
    (there : s.opening = before ++ ⟨i, c, h⟩ :: after) (opening : s'.opening = before ++ after)
    (events : s'.events = s.events ++ [.opened i c h]) : Opens s' := by
  obtain ⟨claimed, unopened⟩ := known.pending ⟨i, c, h⟩ (by rw [there]; simp)
  have apart := known.apart
  rw [there, List.map_append, List.map_cons, List.nodup_middle, ← List.map_append] at apart
  obtain ⟨single, apart⟩ := List.nodup_cons.mp apart
  refine ⟨?_, ?_, opening ▸ apart, ?_⟩
  · intro o member
    rw [opening] at member
    have old : o ∈ s.opening := by
      rw [there]
      exact sublist_middle.subset member
    obtain ⟨claimed', unopened'⟩ := known.pending o old
    rw [events, opens_append_opened]
    refine ⟨getElem?_concat_of claimed' _, ?_⟩
    intro opened
    rcases List.mem_append.mp opened with earlier | now
    · exact unopened' earlier
    · exact single (List.mem_map.mpr ⟨o, member, List.mem_singleton.mp now⟩)
  · intro j d k member
    rw [events] at member ⊢
    rcases List.mem_append.mp member with old | new
    · exact getElem?_concat_of (known.done j d k old) _
    · cases List.mem_singleton.mp new
      exact getElem?_concat_of claimed _
  · rw [events, opens_append_opened]
    exact List.nodup_append.mpr ⟨known.once, by simp, by
      intro j earlier k now same
      rw [same, List.mem_singleton.mp now] at earlier
      exact unopened earlier⟩

/-- The same trace, rights at most moved from issued to applying, and no new open. -/
theorem Guarded.keep (guarded : Guarded s) (events : s'.events = s.events)
    (tombs : ∀ w ∈ s'.writers, .dropped w.connId ∈ s.events → w.connId ∈ s'.reg.dead)
    (issued : s'.reg.issued ⊆ s.reg.issued) (applying : s.reg.applying ⊆ s'.reg.applying)
    (opening : s'.opening ⊆ s.opening) : Guarded s' := by
  have live {i c : Nat} {h : H} (live : Live s' i c h) : Live s i c h :=
    live.imp (fun pending => opening pending) (fun done => events ▸ done)
  refine ⟨events ▸ tombs, ?_, events ▸ guarded.dies, ?_, ?_, ?_⟩
  · intro c h member
    exact events ▸ guarded.buried c h (issued member)
  · intro i c h there
    rw [events]
    rcases guarded.held i c h (live there) with released | dropped | applied
    · exact .inl released
    · exact .inr (.inl dropped)
    · exact .inr (.inr (applying applied))
  · intro o member
    exact events ▸ guarded.reading o (opening member)
  · intro i j c h there
    exact events ▸ guarded.alone i j c h (live there)

/-- Writers in another phase have the same connections. -/
theorem Guarded.phase (guarded : Guarded s) {before after : List (Writer H)} {c : Nat} {phase : Phase H}
    (there : s.writers = before ++ ⟨c, phase⟩ :: after) (phase' : Phase H) :
    ∀ w ∈ before ++ ⟨c, phase'⟩ :: after, .dropped w.connId ∈ s.events → w.connId ∈ s.reg.dead := by
  intro w member
  have old : ∃ v ∈ s.writers, v.connId = w.connId := by
    rw [there]
    rcases List.mem_append.mp member with first | last
    · exact ⟨w, List.mem_append_left _ first, rfl⟩
    · rcases List.mem_cons.mp last with rfl | later
      · exact ⟨⟨c, phase⟩, by simp, rfl⟩
      · exact ⟨w, List.mem_append_right _ (List.mem_cons_of_mem _ later), rfl⟩
  obtain ⟨v, here, same⟩ := old
  exact same ▸ guarded.tombs v here

/-- A writer that is not the only one of its connection leaves the tombstone. -/
theorem Sound.closeWriter (sound : Sound s) {before after : List (Writer H)} {c : Nat} {phase : Phase H}
    (there : s.writers = before ++ ⟨c, phase⟩ :: after) {w : Writer H} (member : w ∈ before ++ after)
    (dead : w.connId ∈ s.reg.dead) : w.connId ∈ (s.reg.closeWriter c).dead := by
  simp only [Registry.closeWriter]
  split
  next last =>
    refine Finset.mem_erase.mpr ⟨?_, dead⟩
    rintro rfl
    have count := sound.planning w.connId
    rw [there, List.countP_append, List.countP_cons] at count
    have positive : 0 < (before ++ after).countP fun v => v.connId = w.connId :=
      List.countP_pos_iff.mpr ⟨w, member, by simp⟩
    rw [List.countP_append] at positive
    simp only [decide_true, ↓reduceIte] at count
    omega
  next => exact dead

theorem Sound.forgetIssued (sound : Sound s) {w : Writer H} (member : w ∈ s.writers)
    (dead : w.connId ∈ s.reg.dead) (c : Nat) : w.connId ∈ (s.reg.forgetIssued c).dead := by
  apply Finset.mem_insert_of_mem
  split
  · refine Finset.mem_filter.mpr ⟨dead, ?_⟩
    rw [sound.planning]
    have positive : 0 < s.writers.countP fun v => v.connId = w.connId :=
      List.countP_pos_iff.mpr ⟨w, member, by simp⟩
    omega
  · exact dead

/-- An event that is no claim; what it releases or records is said apart. -/
theorem Guarded.log (guarded : Guarded s) {e : Event H} (events : s'.events = s.events ++ [e])
    (other : ∀ c h, e ≠ .claimed c h)
    (tombs : ∀ w ∈ s'.writers, .dropped w.connId ∈ s.events ++ [e] → w.connId ∈ s'.reg.dead)
    (buried : ∀ c h, (c, h) ∈ s'.reg.issued → .dropped c ∉ s.events ++ [e])
    (recorded : ∀ c h, e = .finished c h → .dropped c ∉ s.events)
    (live : ∀ i c h, Live s' i c h → Live s i c h) (opening : s'.opening ⊆ s.opening)
    (held : ∀ c h, (c, h) ∈ s.reg.applying → (c, h) ∈ s'.reg.applying ∨ e = .released c h ∨ e = .dropped c)
    (reading : ∀ o ∈ s'.opening, e ≠ .released o.connId o.hash) (sound : Opens s) : Guarded s' := by
  refine ⟨events ▸ tombs, events ▸ buried, ?_, ?_, ?_, ?_⟩
  · intro i j c h before dropped
    rw [events] at dropped ⊢
    constructor
    · intro finished
      rcases getElem?_concat.mp finished with old | ⟨rfl, new⟩
      · rcases getElem?_concat.mp dropped with gone | ⟨rfl, _⟩
        · exact (guarded.dies i j c h before gone).1 old
        · exact absurd (Nat.lt_trans before (lt_length_of_getElem? old)) (Nat.lt_irrefl _)
      · rcases getElem?_concat.mp dropped with gone | ⟨rfl, _⟩
        · exact recorded c h new (List.mem_of_getElem? gone)
        · exact absurd before (Nat.lt_irrefl _)
    · intro claimed
      rcases getElem?_concat.mp claimed with old | ⟨rfl, new⟩
      · rcases getElem?_concat.mp dropped with gone | ⟨rfl, _⟩
        · exact (guarded.dies i j c h before gone).2 old
        · exact absurd (Nat.lt_trans before (lt_length_of_getElem? old)) (Nat.lt_irrefl _)
      · exact absurd new (other c h)
  · intro i c h there
    rw [events]
    rcases guarded.held i c h (live i c h there) with ⟨k, after, released⟩ | dropped | applied
    · exact .inl ⟨k, after, getElem?_concat_of released e⟩
    · exact .inr (.inl (List.mem_append_left _ dropped))
    rcases held c h applied with applied | rfl | rfl
    · exact .inr (.inr applied)
    · have claimed := lt_length_of_getElem? (sound.claimed (live i c h there))
      exact .inl ⟨s.events.length, claimed, getElem?_concat.mpr (.inr ⟨rfl, rfl⟩)⟩
    · exact .inr (.inl (by simp))
  · intro o member k after released
    rw [events] at released
    rcases getElem?_concat.mp released with old | ⟨_, new⟩
    · exact guarded.reading o (opening member) k after old
    · exact reading o member new
  · intro i j c h there before claimed
    rw [events] at claimed ⊢
    rcases getElem?_concat.mp claimed with old | ⟨_, new⟩
    · obtain ⟨k, after, earlier, released⟩ := guarded.alone i j c h (live i c h there) before old
      exact ⟨k, after, earlier, getElem?_concat_of released e⟩
    · exact absurd new (other c h)

section Runs

variable [DecidableEq H] {a : Action H}

theorem claimIssued_eq_some {reg reg' : Registry H} {c : Nat} {h : H} (took : reg.claimIssued c h = some reg') :
    (c, h) ∈ reg.issued ∧ reg' = { reg with
      issued := reg.issued.erase (c, h), applying := insert (c, h) reg.applying } := by
  unfold Registry.claimIssued at took
  split at took
  next there =>
    cases took
    exact ⟨there, rfl⟩
  next => cases took

theorem recordIssued_eq_some {reg reg' : Registry H} {c : Nat} {h : H}
    (recorded : reg.recordIssued c h = some reg') :
    c ∉ reg.dead ∧ (c, h) ∉ reg.applying ∧ reg' = { reg with issued := insert (c, h) reg.issued } := by
  unfold Registry.recordIssued at recorded
  split at recorded
  · cases recorded
  next free =>
    cases recorded
    exact ⟨fun dead => free (.inl dead), fun applied => free (.inr applied), rfl⟩

/-- The first half of `remove` takes a right without an open. -/
theorem claim_or_not (reg : Registry H) (c : Nat) (h : H) :
    (reg.claimIssued c h).getD reg = reg ∨ reg.claimIssued c h = some ((reg.claimIssued c h).getD reg) := by
  cases took : reg.claimIssued c h with
  | none => exact .inl rfl
  | some reg' => exact .inr rfl

theorem disjoint_claimed {reg reg' : Registry H} {c : Nat} {h : H}
    (disjoint : ∀ key ∈ reg.issued, key ∉ reg.applying) (took : reg.claimIssued c h = some reg') :
    ∀ key ∈ reg'.issued, key ∉ reg'.applying := by
  obtain ⟨_, rfl⟩ := claimIssued_eq_some took
  intro key issued applied
  obtain ⟨other, old⟩ := Finset.mem_erase.mp issued
  rcases Finset.mem_insert.mp applied with rfl | applied
  · exact other rfl
  · exact disjoint key old applied

/-- The claim takes its right from the finish nobody had used. -/
theorem Minted.claim {minted : Nat → Nat} (known : Minted s minted) {reg : Registry H} {c : Nat} {h : H}
    (took : s.reg.claimIssued c h = some reg) (registry : s'.reg = reg)
    (events : s'.events = s.events ++ [.claimed c h]) : ∃ minted, Minted s' minted := by
  obtain ⟨issued, rfl⟩ := claimIssued_eq_some took
  obtain ⟨f, finished, free⟩ := known.unused c h issued
  have old {i d : Nat} {k : H} (claimed : s.events[i]? = some (.claimed d k)) :
      Function.update minted s.events.length f i = minted i := by
    rw [Function.update_of_ne]
    exact Nat.ne_of_lt (lt_length_of_getElem? claimed)
  refine ⟨Function.update minted s.events.length f, ?_, ?_, ?_⟩
  · intro i d k claimed
    rw [events] at claimed ⊢
    rcases getElem?_concat.mp claimed with known' | ⟨rfl, same⟩
    · obtain ⟨before, finished⟩ := known.earlier i d k known'
      rw [old known']
      exact ⟨before, getElem?_concat_of finished _⟩
    · cases same
      rw [Function.update_self]
      exact ⟨lt_length_of_getElem? finished, getElem?_concat_of finished _⟩
  · intro i d k j e l first second same
    rw [events] at first second
    rcases getElem?_concat.mp first with first | ⟨rfl, _⟩ <;>
      rcases getElem?_concat.mp second with second | ⟨rfl, _⟩
    · rw [old first, old second] at same
      exact known.apart i d k j e l first second same
    · rw [old first, Function.update_self] at same
      exact absurd same (free i d k first)
    · rw [old second, Function.update_self] at same
      exact absurd same.symm (free j e l second)
    · rfl
  · intro d k member
    rw [registry] at member
    obtain ⟨other, issued'⟩ := Finset.mem_erase.mp member
    obtain ⟨f', finished', free'⟩ := known.unused d k issued'
    refine ⟨f', events ▸ getElem?_concat_of finished' _, ?_⟩
    intro i e l claimed
    rw [events] at claimed
    rcases getElem?_concat.mp claimed with known' | ⟨rfl, same⟩
    · rw [old known']
      exact free' i e l known'
    · rw [Function.update_self]
      rintro rfl
      rw [finished] at finished'
      cases finished'
      exact other rfl

theorem Sound.step (sound : Sound s) (step : Step s a s') : Sound s' := by
  obtain ⟨planning, disjoint, ⟨minted, known⟩, opens⟩ := sound
  cases step with
  | create c =>
    refine ⟨?_, disjoint, ⟨minted, known.keep (subset_refl _) rfl⟩, opens.keep (.refl _) rfl⟩
    intro d
    have count := planning d
    simp only [Registry.openWriter, List.countP_cons, decide_eq_true_eq]
    by_cases own : d = c
    · subst own
      simp [count]
    · simp [own, Ne.symm own, count]
  | close there =>
    refine ⟨?_, disjoint, ⟨minted, known.keep (subset_refl _) rfl⟩, opens.keep (.refl _) rfl⟩
    intro d
    rw [planning, there]
    exact countP_middle d
  | check there alive h =>
    refine ⟨?_, disjoint, ⟨minted, known.keep (subset_refl _) rfl⟩, opens.keep (.refl _) rfl⟩
    intro d
    rw [planning, there]
    exact countP_middle d
  | @record before after c h _ there recorded =>
    obtain ⟨alive, free, rfl⟩ := recordIssued_eq_some recorded
    refine ⟨?_, ?_, ⟨minted, ?_⟩, opens.log (.refl _) rfl (by simp)⟩
    · intro d
      rw [State.log, planning, there]
      exact countP_middle d
    · intro key issued applied
      rcases Finset.mem_insert.mp issued with rfl | old
      · exact free applied
      · exact disjoint key old applied
    · have same : Minted (s.log (.finished c h)) minted := known.log (subset_refl _) rfl (by simp)
      obtain ⟨earlier, apart, unused⟩ := same
      refine ⟨earlier, apart, ?_⟩
      intro d k issued
      rcases Finset.mem_insert.mp issued with new | old
      · cases new
        refine ⟨s.events.length, getElem?_concat.mpr (.inr ⟨rfl, rfl⟩), ?_⟩
        intro i d k claimed same
        rcases getElem?_concat.mp claimed with old | ⟨_, other⟩
        · have before := Nat.lt_trans (known.earlier i d k old).1 (lt_length_of_getElem? old)
          exact absurd same (Nat.ne_of_lt before)
        · cases other
      · exact unused d k old
  | unrecorded there refused =>
    refine ⟨?_, disjoint, ⟨minted, known.keep (subset_refl _) rfl⟩, opens.keep (.refl _) rfl⟩
    intro d
    rw [planning, there]
    exact countP_middle d
  | @dropWriter before after c _ there =>
    refine ⟨?_, disjoint, ⟨minted, known.keep (subset_refl _) rfl⟩, opens.keep (.refl _) rfl⟩
    intro d
    have count := planning d
    rw [there, List.countP_append, List.countP_cons] at count
    simp only [Registry.closeWriter, List.countP_append]
    by_cases own : d = c
    · subst own
      simp only [decide_true, ↓reduceIte] at count ⊢
      omega
    · simp only [decide_eq_true_eq, own, Ne.symm own, ↓reduceIte] at count ⊢
      omega
  | @claim c h reg took =>
    have same := (claimIssued_eq_some took).2
    exact ⟨same ▸ planning, disjoint_claimed disjoint took, known.claim took rfl rfl, opens.claim rfl rfl⟩
  | @opened before after i c h there =>
    exact ⟨planning, disjoint, ⟨minted, known.log (subset_refl _) rfl (by simp)⟩, opens.opened there rfl rfl⟩
  | @failed before after i c h there =>
    refine ⟨planning, ?_, ⟨minted, known.keep (subset_refl _) rfl⟩, opens.keep (there ▸ sublist_middle) rfl⟩
    exact fun key issued applied => disjoint key issued (Finset.mem_of_mem_erase applied)
  | forsaken there =>
    exact ⟨planning, disjoint, ⟨minted, known.keep (subset_refl _) rfl⟩, opens.keep (there ▸ sublist_middle) rfl⟩
  | remove c h =>
    rcases claim_or_not s.reg c h with same | took
    · exact ⟨same.symm ▸ planning, same.symm ▸ disjoint, ⟨minted, known.keep (by rw [same]) rfl⟩,
        opens.keep (.refl _) rfl⟩
    · generalize (s.reg.claimIssued c h).getD s.reg = reg at took
      have fewer := (claimIssued_eq_some took).2
      refine ⟨fewer ▸ planning, disjoint_claimed disjoint took, ⟨minted, known.keep ?_ rfl⟩,
        opens.keep (.refl _) rfl⟩
      rw [fewer]
      exact Finset.erase_subset _ _
  | removed there =>
    refine ⟨planning, ?_, ⟨minted, known.log (subset_refl _) rfl (by simp)⟩, opens.log (.refl _) rfl (by simp)⟩
    exact fun key issued applied => disjoint key issued (Finset.mem_of_mem_erase applied)
  | abandon c h =>
    refine ⟨planning, ?_, ⟨minted, known.log (subset_refl _) rfl (by simp)⟩, opens.log (.refl _) rfl (by simp)⟩
    exact fun key issued applied => disjoint key issued (Finset.mem_of_mem_erase applied)
  | dropConnection c =>
    refine ⟨planning, ?_, ⟨minted, known.log (Finset.filter_subset _ _) rfl (by simp)⟩,
      opens.log (.refl _) rfl (by simp)⟩
    intro key issued applied
    exact disjoint key (Finset.mem_of_mem_filter _ issued) (Finset.mem_of_mem_filter _ applied)
  | sweep =>
    refine ⟨planning, fun key issued => absurd issued (Finset.notMem_empty key),
      ⟨minted, known.keep (Finset.empty_subset _) rfl⟩, opens.keep (.refl _) rfl⟩

theorem Reached.sound (reached : Reached s) : Sound s := by
  induction reached with
  | new =>
    refine ⟨fun c => rfl, by simp [State.new, Registry.new], ⟨id, ?_, ?_, ?_⟩, ?_, ?_, ?_, ?_⟩
    all_goals simp [State.new, Registry.new, opens]
  | step _ step ih => exact ih.step step

/-- Reading fails: the right it gives back is held by no other open. -/
theorem Guarded.failed (sound : Sound s) (guarded : Guarded s) {before after : List (Opening H)} {i c : Nat}
    {h : H} (there : s.opening = before ++ ⟨i, c, h⟩ :: after) :
    Guarded { s with reg := s.reg.releaseApplying c h, opening := before ++ after } := by
  have pending : ⟨i, c, h⟩ ∈ s.opening := by
    rw [there]
    simp
  have fewer : before ++ after ⊆ s.opening := there ▸ sublist_middle.subset
  have live {j d : Nat} {k : H} (live : Live { s with
      reg := s.reg.releaseApplying c h, opening := before ++ after } j d k) : Live s j d k ∧ j ≠ i := by
    have apart := sound.opens.apart
    rw [there, List.map_append, List.map_cons, List.nodup_middle, ← List.map_append] at apart
    rcases live with other | done
    · refine ⟨.inl (fewer other), ?_⟩
      rintro rfl
      exact (List.nodup_cons.mp apart).1 (List.mem_map.mpr ⟨_, other, rfl⟩)
    · refine ⟨.inr done, ?_⟩
      rintro rfl
      exact (sound.opens.pending _ pending).2 (mem_opens.mpr ⟨d, k, done⟩)
  refine ⟨guarded.tombs, guarded.buried, guarded.dies, ?_, fun o member => guarded.reading o (fewer member), ?_⟩
  · intro j d k there
    obtain ⟨before, other⟩ := live there
    rcases guarded.held j d k before with released | dropped | applied
    · exact .inl released
    · exact .inr (.inl dropped)
    by_cases own : (d, k) = (c, h)
    · cases own
      rcases Nat.lt_or_gt_of_ne other with earlier | later
      · obtain ⟨m, after, _, released⟩ := guarded.alone j i c h before earlier (sound.opens.pending _ pending).1
        exact .inl ⟨m, after, released⟩
      · obtain ⟨m, after, _, released⟩ :=
          guarded.alone i j c h (.inl pending) later (sound.opens.claimed before)
        exact absurd released (guarded.reading _ pending m after)
    · exact .inr (.inr (Finset.mem_erase.mpr ⟨own, applied⟩))
  · intro j m d k there
    exact guarded.alone j m d k (live there).1

theorem Guarded.released (sound : Sound s) (guarded : Guarded s) {c : Nat} {h : H}
    (idle : ∀ o ∈ s.opening, (o.connId, o.hash) ≠ (c, h)) (events : s'.events = s.events ++ [.released c h])
    (registry : s'.reg = s.reg.releaseApplying c h) (writers : s'.writers = s.writers)
    (opening : s'.opening = s.opening) : Guarded s' := by
  have mem_log {d : Nat} : .dropped d ∈ s.events ++ [.released c h] → .dropped d ∈ s.events := by
    intro member
    rcases List.mem_append.mp member with old | new
    · exact old
    · cases List.mem_singleton.mp new
  refine guarded.log events (by simp) ?_ ?_ (by simp) ?_ (by rw [opening]; exact .refl _) ?_ ?_ sound.opens
  · intro w member dropped
    rw [registry]
    exact guarded.tombs w (writers ▸ member) (mem_log dropped)
  · intro d k member dropped
    rw [registry] at member
    exact guarded.buried d k member (mem_log dropped)
  · intro i d k live
    rcases live with pending | done
    · exact .inl (opening ▸ pending)
    · rw [events] at done
      rcases List.mem_append.mp done with old | new
      · exact .inr old
      · cases List.mem_singleton.mp new
  · intro d k applied
    by_cases own : (d, k) = (c, h)
    · cases own
      exact .inr (.inl rfl)
    · rw [registry]
      exact .inl (Finset.mem_erase.mpr ⟨own, applied⟩)
  · intro o member same
    rw [opening] at member
    cases same
    exact idle o member rfl

/-- A claim takes a right of a living connection, and nobody else's. -/
theorem Guarded.claim (sound : Sound s) (guarded : Guarded s) {reg : Registry H} {c : Nat} {h : H}
    (took : s.reg.claimIssued c h = some reg) : Guarded (State.log { s with
      reg := reg, opening := ⟨s.events.length, c, h⟩ :: s.opening } (.claimed c h)) := by
  obtain ⟨issued, rfl⟩ := claimIssued_eq_some took
  have alive := guarded.buried c h issued
  have free := sound.disjoint _ issued
  have mem_log {d : Nat} : .dropped d ∈ s.events ++ [.claimed c h] → .dropped d ∈ s.events := by
    intro member
    rcases List.mem_append.mp member with old | new
    · exact old
    · cases List.mem_singleton.mp new
  have live {i d : Nat} {k : H} (live : Live (State.log { s with
      reg := { s.reg with issued := s.reg.issued.erase (c, h), applying := insert (c, h) s.reg.applying }
      opening := ⟨s.events.length, c, h⟩ :: s.opening } (.claimed c h)) i d k) :
      Live s i d k ∨ i = s.events.length ∧ d = c ∧ k = h := by
    rcases live with pending | done
    · rcases List.mem_cons.mp pending with new | old
      · cases new
        exact .inr ⟨rfl, rfl, rfl⟩
      · exact .inl (.inl old)
    · rcases List.mem_append.mp done with old | new
      · exact .inl (.inr old)
      · cases List.mem_singleton.mp new
  refine ⟨fun w member dropped => guarded.tombs w member (mem_log dropped), ?_, ?_, ?_, ?_, ?_⟩
  · intro d k member dropped
    exact guarded.buried d k (Finset.mem_of_mem_erase member) (mem_log dropped)
  · intro i j d k before dropped
    have gone : s.events[i]? = some (.dropped d) := by
      rcases getElem?_concat.mp dropped with old | ⟨_, new⟩
      · exact old
      · cases new
    constructor
    · intro finished
      rcases getElem?_concat.mp finished with old | ⟨_, new⟩
      · exact (guarded.dies i j d k before gone).1 old
      · cases new
    · intro claimed
      rcases getElem?_concat.mp claimed with old | ⟨_, new⟩
      · exact (guarded.dies i j d k before gone).2 old
      · cases new
        exact alive (List.mem_of_getElem? gone)
  · intro i d k there
    rcases live there with before | ⟨rfl, rfl, rfl⟩
    · rcases guarded.held i d k before with ⟨m, after, released⟩ | dropped | applied
      · exact .inl ⟨m, after, getElem?_concat_of released _⟩
      · exact .inr (.inl (List.mem_append_left _ dropped))
      · exact .inr (.inr (Finset.mem_insert_of_mem applied))
    · exact .inr (.inr (Finset.mem_insert_self ..))
  · intro o member m after released
    have old : s.events[m]? = some (.released o.connId o.hash) := by
      rcases getElem?_concat.mp released with old | ⟨_, new⟩
      · exact old
      · cases new
    rcases List.mem_cons.mp member with rfl | pending
    · exact Nat.lt_irrefl _ (Nat.lt_trans after (lt_length_of_getElem? old))
    · exact guarded.reading o pending m after old
  · intro i j d k there before claimed
    rcases getElem?_concat.mp claimed with old | ⟨rfl, new⟩
    · rcases live there with earlier | ⟨rfl, _, _⟩
      · obtain ⟨m, after, first, released⟩ := guarded.alone i j d k earlier before old
        exact ⟨m, after, first, getElem?_concat_of released _⟩
      · exact absurd (Nat.lt_trans before (lt_length_of_getElem? old)) (Nat.lt_irrefl _)
    · cases new
      rcases live there with earlier | ⟨rfl, _, _⟩
      · rcases guarded.held i c h earlier with ⟨m, after, released⟩ | dropped | applied
        · exact ⟨m, after, lt_length_of_getElem? released, getElem?_concat_of released _⟩
        · exact absurd dropped alive
        · exact absurd applied free
      · exact absurd before (Nat.lt_irrefl _)

theorem Guarded.step (sound : Sound s) (guarded : Guarded s) (step : Step s a s') (orderly : Orderly s a) :
    Guarded s' := by
  cases step with
  | create c =>
    refine guarded.keep rfl ?_ (subset_refl _) (subset_refl _) (List.Subset.refl _)
    intro w member dropped
    rcases List.mem_cons.mp member with rfl | old
    · exact orderly dropped
    · exact guarded.tombs w old dropped
  | close there => exact guarded.keep rfl (guarded.phase there .done) (subset_refl _) (subset_refl _) (.refl _)
  | check there alive h =>
    exact guarded.keep rfl (guarded.phase there (.landing h)) (subset_refl _) (subset_refl _) (.refl _)
  | @record before after c h reg there recorded =>
    obtain ⟨alive, free, rfl⟩ := recordIssued_eq_some recorded
    have living : .dropped c ∉ s.events := fun dropped =>
      alive (guarded.tombs ⟨c, .landing h⟩ (by rw [there]; simp) dropped)
    have mem_log {d : Nat} : .dropped d ∈ s.events ++ [.finished c h] → .dropped d ∈ s.events := by
      intro member
      rcases List.mem_append.mp member with old | new
      · exact old
      · cases List.mem_singleton.mp new
    refine guarded.log rfl (by simp) ?_ ?_ ?_ ?_ (.refl _) (fun _ _ => .inl) (by simp) sound.opens
    · intro w member dropped
      exact guarded.phase there .done w member (mem_log dropped)
    · intro d k member dropped
      rcases Finset.mem_insert.mp member with new | old
      · cases new
        exact living (mem_log dropped)
      · exact guarded.buried d k old (mem_log dropped)
    · intro d k same
      cases same
      exact living
    · intro i d k there
      rcases there with pending | done
      · exact .inl pending
      · rcases List.mem_append.mp done with old | new
        · exact .inr old
        · cases List.mem_singleton.mp new
  | unrecorded there refused =>
    exact guarded.keep rfl (guarded.phase there .done) (subset_refl _) (subset_refl _) (.refl _)
  | dropWriter there =>
    refine guarded.keep rfl ?_ (subset_refl _) (subset_refl _) (.refl _)
    intro w member dropped
    exact sound.closeWriter there member (guarded.tombs w (there ▸ sublist_middle.subset member) dropped)
  | claim took => exact guarded.claim sound took
  | @opened before after i c h there =>
    have mem_log {d : Nat} : .dropped d ∈ s.events ++ [.opened i c h] → .dropped d ∈ s.events := by
      intro member
      rcases List.mem_append.mp member with old | new
      · exact old
      · cases List.mem_singleton.mp new
    refine guarded.log rfl (by simp) ?_ ?_ (by simp) ?_ (there ▸ sublist_middle.subset) (fun _ _ => .inl) (by simp)
      sound.opens
    · intro w member dropped
      exact guarded.tombs w member (mem_log dropped)
    · intro d k member dropped
      exact guarded.buried d k member (mem_log dropped)
    · intro j d k live
      rcases live with pending | done
      · exact .inl (there ▸ sublist_middle.subset pending)
      · rcases List.mem_append.mp done with old | new
        · exact .inr old
        · cases List.mem_singleton.mp new
          exact .inl (by rw [there]; simp)
  | failed there => exact guarded.failed sound there
  | forsaken there =>
    exact guarded.keep rfl guarded.tombs (subset_refl _) (subset_refl _) (there ▸ sublist_middle.subset)
  | remove c h =>
    rcases claim_or_not s.reg c h with same | took
    · exact guarded.keep rfl (by rw [same]; exact guarded.tombs) (by rw [same]) (by rw [same]) (.refl _)
    · generalize (s.reg.claimIssued c h).getD s.reg = reg at took
      obtain ⟨_, rfl⟩ := claimIssued_eq_some took
      exact guarded.keep rfl guarded.tombs (Finset.erase_subset _ _) (Finset.subset_insert _ _) (.refl _)
  | removed there => exact guarded.released sound orderly rfl rfl rfl rfl
  | abandon c h => exact guarded.released sound orderly rfl rfl rfl rfl
  | dropConnection c =>
    refine guarded.log rfl (by simp) ?_ ?_ (by simp) ?_ (.refl _) ?_ (by simp) sound.opens
    · intro w member dropped
      rcases List.mem_append.mp dropped with old | new
      · exact sound.forgetIssued member (guarded.tombs w member old) c
      · cases List.mem_singleton.mp new
        exact Finset.mem_insert_self ..
    · intro d k member dropped
      obtain ⟨issued, other⟩ := Finset.mem_filter.mp member
      rcases List.mem_append.mp dropped with old | new
      · exact guarded.buried d k issued old
      · cases List.mem_singleton.mp new
        exact other rfl
    · intro i d k live
      rcases live with pending | done
      · exact .inl pending
      · rcases List.mem_append.mp done with old | new
        · exact .inr old
        · cases List.mem_singleton.mp new
    · intro d k applied
      by_cases own : d = c
      · exact .inr (.inr (own ▸ rfl))
      · exact .inl (Finset.mem_filter.mpr ⟨applied, own⟩)
  | sweep =>
    obtain ⟨idle, living⟩ := orderly
    refine guarded.keep rfl ?_ (Finset.empty_subset _) (by rw [idle]; exact Finset.empty_subset _) (.refl _)
    exact fun w member dropped => absurd dropped (living w member)

theorem Kept.reached (kept : Kept s) : Reached s := by
  induction kept with
  | new => exact .new
  | step _ step _ ih => exact ih.step step

theorem Kept.guarded (kept : Kept s) : Guarded s := by
  induction kept with
  | new =>
    constructor
    all_goals simp [State.new, Registry.new, Live]
  | step before step orderly ih => exact ih.step (Kept.reached before).sound step orderly

/-- The right to apply a plan is single-use and dies with its connection, in every run whose
steps are orderly. -/
theorem rights_single_use (kept : Kept s) : SingleUse s.events := by
  obtain ⟨_, _, ⟨minted, earlier, apart, _⟩, opens⟩ := kept.reached.sound
  have guarded := kept.guarded
  refine ⟨⟨minted, ?_, ?_⟩, opens.once, ?_, guarded.dies⟩
  · intro i c h opened
    have claimed := opens.done i c h opened
    exact ⟨claimed, earlier i c h claimed⟩
  · intro i c h j d k first second
    exact apart i c h j d k (opens.done i c h first) (opens.done j d k second)
  · intro i j c h opened
    exact guarded.alone i j c h (.inr opened)

/-- A plan is issued, opened and removed, and issued and opened once more. -/
def sampleEvents : List (Event Nat) :=
  [.finished 1 5, .claimed 1 5, .opened 1 1 5, .released 1 5, .finished 1 5, .claimed 1 5, .opened 5 1 5]

theorem eq_nil_append_cons {α : Type} (x : α) (l : List α) : x :: l = [] ++ x :: l := rfl

theorem sample_kept : ∃ s : State Nat, Kept s ∧ s.events = sampleEvents := by
  have created := Kept.new.step (.create 1) (fun dropped : .dropped 1 ∈ (State.new (H := Nat)).events => nomatch dropped)
  have landing := created.step (.check (eq_nil_append_cons _ _) (by decide) 5) trivial
  have recorded := landing.step (.record (c := 1) (h := 5) (eq_nil_append_cons _ _) rfl) trivial
  have planned := recorded.step (.dropWriter (eq_nil_append_cons _ _)) trivial
  have claimed := planned.step (.claim (c := 1) (h := 5) rfl) trivial
  have applied := claimed.step (.opened (eq_nil_append_cons _ _)) trivial
  have removing := applied.step (.remove 1 5) trivial
  have removed := removing.step (.removed (eq_nil_append_cons _ _)) (fun o pending => nomatch pending)
  have created := removed.step (.create 1) (fun dropped => absurd dropped (by decide))
  have landing := created.step (.check (eq_nil_append_cons _ _) (by decide) 5) trivial
  have recorded := landing.step (.record (c := 1) (h := 5) (eq_nil_append_cons _ _) rfl) trivial
  have claimed := recorded.step (.claim (c := 1) (h := 5) rfl) trivial
  exact ⟨_, claimed.step (.opened (eq_nil_append_cons _ _)) trivial, rfl⟩

theorem rights_single_use_sample : SingleUse sampleEvents := by
  obtain ⟨s, kept, same⟩ := sample_kept
  rw [← same]
  exact rights_single_use kept

/-- The last writer of a closed connection takes the tombstone with it, and a plan that
starts after it is issued and opened. -/
theorem tombstone_forgotten : ∃ s : State Nat, Reached s ∧
    s.events = [.dropped 7, .finished 7 5, .claimed 7 5, .opened 2 7 5] ∧ ¬SingleUse s.events := by
  have created := Reached.new.step (.create (H := Nat) 7)
  have dropped := created.step (.dropConnection 7)
  have forgotten := dropped.step (.dropWriter (eq_nil_append_cons _ _))
  have late := forgotten.step (.create 7)
  have landing := late.step (.check (eq_nil_append_cons _ _) (by decide) 5)
  have recorded := landing.step (.record (c := 7) (h := 5) (eq_nil_append_cons _ _) rfl)
  have claimed := recorded.step (.claim (c := 7) (h := 5) rfl)
  refine ⟨_, claimed.step (.opened (eq_nil_append_cons _ _)), rfl, ?_⟩
  intro single
  exact (single.dies 0 1 7 5 (by decide) rfl).1 rfl

end Runs

end Norte.Spool
