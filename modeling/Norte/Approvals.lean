import Mathlib.Data.Finmap
import Mathlib.Data.Finset.Card
import Mathlib.Data.List.Basic
import Norte.Policy

/-! The approval router of the daemon, lock by lock: requests register, ask and wait on a
channel and a timer, decisions take an entry and then send. Where a decision meets a request
that is giving up, it is told that it was applied. -/
namespace Norte.Approvals

open Chain (Actor)
open Policy (PolicyOp)

structure ApprovalRequest where
  actor : Actor
  op : PolicyOp
  paths : List Str
  pathsTotal : UInt64

/-- What an operation adds to the question. -/
structure ApprovalDetail where
  mode : Option UInt32
  recursive : Bool
  dirMode : Option UInt32

def ApprovalRequest.session (req : ApprovalRequest) : Option Str := req.actor.parts.2

def ApprovalRequest.detail (req : ApprovalRequest) : ApprovalDetail :=
  match req.op with
  | .setMode mode recursive dirMode => ⟨some mode, recursive, dirMode⟩
  | .copy | .move | .delete _ | .mkdir | .create => ⟨none, false, none⟩

/-- An approval in flight; `decide` is the sending half of its request's channel. -/
structure PendingEntry where
  session : Option Str
  op : Str
  paths : List Str
  pathsTotal : UInt64
  detail : ApprovalDetail
  decide : Nat

structure PolicyApprovalRequired where
  approvalId : UInt64
  session : Option Str
  op : Str
  paths : List Str
  pathsTotal : UInt64
  ttlMs : Nat
  detail : ApprovalDetail

inductive Decision where
  | applied
  | expired
  | yaDecided
  | unknown
  deriving DecidableEq, Repr

inductive ApprovalOutcome where
  | approved
  | denied
  | timedOut
  deriving DecidableEq, Repr

def ApprovalOutcome.of : Bool → ApprovalOutcome
  | true => approved
  | false => denied

def maxPendingApprovals : Nat := 256

/-- Where a request stands. From `inserted` on its guard is alive, until the guard is dropped;
its receiver dies when what it waited on does. -/
inductive Phase where
  | numbered
  | inserted
  | polling
  | between
  | suspended
  | settled (outcome : ApprovalOutcome)
  | closed (outcome : ApprovalOutcome)
  | refused
  | unguarded
  | dropping
  | returned (outcome : ApprovalOutcome)
  | dropped
  deriving DecidableEq, Repr

namespace Phase

/-- Its receiver is alive. -/
def listening : Phase → Bool
  | closed _ | dropping | returned _ | dropped => false
  | _ => true

def guarded : Phase → Bool
  | numbered | unguarded | returned _ | dropped => false
  | _ => true

/-- The request will not look at its channel again, and can still be sent to. -/
def givenUp : Phase → Bool
  | settled _ | refused | unguarded => true
  | _ => false

def ended : Phase → Bool
  | returned _ | dropped => true
  | _ => false

/-- The receiver is dropped: with the future that was awaited, or at the end of a refusal. -/
def closes : Phase → Option Phase
  | settled outcome => some (closed outcome)
  | unguarded => some (returned .denied)
  | _ => none

/-- The guard is dropped. -/
def unguards : Phase → Option Phase
  | closed outcome => some (returned outcome)
  | refused => some unguarded
  | dropping => some dropped
  | _ => none

end Phase

structure Request where
  id : UInt64
  req : ApprovalRequest
  phase : Phase
  /-- What was sent on its channel. -/
  answer : Option Bool
  deadline : Nat

/-- A decision that has taken the entry and not sent yet. -/
structure Hand where
  id : UInt64
  channel : Nat
  approve : Bool
  deriving DecidableEq

/-- What a decision was told. -/
structure Reply where
  id : UInt64
  approve : Bool
  decision : Decision
  deriving DecidableEq

structure Router where
  firstId : UInt64
  /-- Requests that have drawn an id. -/
  count : Nat
  requests : Nat → Request
  pending : Finmap fun _ : UInt64 => PendingEntry
  hands : List Hand
  replies : List Reply
  broadcaster : Bool
  told : List PolicyApprovalRequired
  clock : Nat

inductive Act where
  | ask (req : ApprovalRequest)
  | register (k : Nat)
  | broadcast (k : Nat)
  | look (k : Nat)
  | timer (k : Nat)
  | wake (k : Nat)
  | close (k : Nat)
  | dropGuard (k : Nat)
  | drop (k : Nat)
  | take (id : UInt64) (approve : Bool)
  | send (n : Nat)
  | install
  | tick

namespace Router

def idle : Request := ⟨0, ⟨.user, .copy, [], 0⟩, .dropped, none, 0⟩

def start (seed : UInt64) : Router := ⟨seed, 0, fun _ => idle, ∅, [], [], false, [], 0⟩

variable (s : Router)

def nextId : UInt64 := s.firstId + UInt64.ofNat s.count

def phase (k : Nat) : Phase := (s.requests k).phase

def setRequest (k : Nat) (r : Request) : Router := { s with requests := Function.update s.requests k r }

def become (k : Nat) (p : Phase) : Router := s.setRequest k { s.requests k with phase := p }

def entryOf (k : Nat) : PendingEntry :=
  let req := (s.requests k).req
  ⟨req.session, req.op.kind, req.paths, req.pathsTotal, req.detail, k⟩

def questionOf (ttl k : Nat) : PolicyApprovalRequired :=
  let req := (s.requests k).req
  ⟨(s.requests k).id, req.session, req.op.kind, req.paths, req.pathsTotal, ttl, req.detail⟩

/-- Somebody can still send on the channel. -/
def sender (k : Nat) : Bool :=
  (s.pending.lookup (s.requests k).id).any (·.decide = k) || s.hands.any (·.channel = k)

/-- One step of one party: what it does under one lock, or one look at one thing. -/
def step (ttl : Nat) (s : Router) : Act → Option Router
  | .ask req => some { s.setRequest s.count ⟨s.nextId, req, .numbered, none, 0⟩ with count := s.count + 1 }
  | .register k =>
    if k < s.count ∧ s.phase k = .numbered then
      if s.pending.keys.card ≥ maxPendingApprovals then some (s.become k (.returned .denied))
      else some { s.become k .inserted with pending := s.pending.insert (s.requests k).id (s.entryOf k) }
    else none
  | .broadcast k =>
    if k < s.count ∧ s.phase k = .inserted then
      if s.broadcaster then
        some { s.setRequest k { s.requests k with phase := .polling, deadline := s.clock + ttl } with
          told := s.told ++ [s.questionOf ttl k] }
      else some (s.become k .refused)
    else none
  | .look k =>
    if k < s.count ∧ s.phase k = .polling then
      match (s.requests k).answer with
      | some approve => some (s.become k (.settled (.of approve)))
      | none => some (s.become k (if s.sender k then .between else .settled .denied))
    else none
  | .timer k =>
    if k < s.count ∧ s.phase k = .between then
      some (s.become k (if (s.requests k).deadline ≤ s.clock then .settled .timedOut else .suspended))
    else none
  | .wake k => if k < s.count ∧ s.phase k = .suspended then some (s.become k .polling) else none
  | .close k => if k < s.count then (s.phase k).closes.map (s.become k) else none
  | .dropGuard k =>
    if k < s.count then (s.phase k).unguards.map fun p =>
      { s.become k p with pending := s.pending.erase (s.requests k).id }
    else none
  | .drop k => if k < s.count ∧ s.phase k = .suspended then some (s.become k .dropping) else none
  | .take id approve =>
    match s.pending.lookup id with
    | some entry => some { s with pending := s.pending.erase id, hands := s.hands ++ [⟨id, entry.decide, approve⟩] }
    | none =>
      let decision := if s.firstId ≤ id ∧ id < s.nextId then .yaDecided else .unknown
      some { s with replies := s.replies ++ [⟨id, approve, decision⟩] }
  | .send n =>
    match s.hands[n]? with
    | none => none
    | some h =>
      if (s.phase h.channel).listening then
        some { s.setRequest h.channel { s.requests h.channel with answer := some h.approve } with
          hands := s.hands.eraseIdx n, replies := s.replies ++ [⟨h.id, h.approve, .applied⟩] }
      else some { s with hands := s.hands.eraseIdx n, replies := s.replies ++ [⟨h.id, h.approve, .expired⟩] }
  | .install => some { s with broadcaster := true }
  | .tick => some { s with clock := s.clock + 1 }

/-- No id is drawn twice, no request gives up with an answer in its channel, and none that
has given up is sent to. -/
def Kept (s : Router) : Act → Prop
  | .ask _ => s.count < 2 ^ 64
  | .timer k => (s.requests k).deadline ≤ s.clock → (s.requests k).answer = none
  | .broadcast k => s.broadcaster = false → (s.requests k).answer = none
  | .send n => ∀ h ∈ s.hands[n]?, (s.phase h.channel).givenUp = false
  | .register _ | .look _ | .wake _ | .close _ | .dropGuard _ | .drop _ | .take _ _ | .install | .tick => True

/-! What holds of every state that a kept run reaches. -/

/-- What a request makes of what its channel holds. -/
def Believed (r : Request) : Prop :=
  match r.phase with
  | .settled outcome | .closed outcome | .returned outcome =>
    (∀ b, r.answer = some b → outcome = .of b) ∧ (outcome = .approved → r.answer = some true)
  | .numbered | .refused | .unguarded => r.answer = none
  | .inserted | .polling | .between | .suspended | .dropping | .dropped => True

structure Sound (s : Router) : Prop where
  few : s.count ≤ 2 ^ 64
  ids : ∀ k < s.count, (s.requests k).id = s.firstId + UInt64.ofNat k
  held : ∀ id entry, s.pending.lookup id = some entry → entry.decide < s.count ∧ (s.requests entry.decide).id = id ∧
    (s.phase entry.decide).guarded = true ∧ (s.requests entry.decide).answer = none ∧
    ∀ h ∈ s.hands, h.channel ≠ entry.decide
  hand : ∀ h ∈ s.hands, h.channel < s.count ∧ (s.requests h.channel).id = h.id ∧ (s.requests h.channel).answer = none ∧
    s.phase h.channel ≠ .numbered
  apart : (s.hands.map Hand.channel).Nodup
  answered : ∀ k < s.count, ∀ b, (s.requests k).answer = some b ↔ ⟨(s.requests k).id, b, .applied⟩ ∈ s.replies
  owned : ∀ r ∈ s.replies, r.decision = .applied → ∃ k < s.count, (s.requests k).id = r.id
  once : ∀ id, s.replies.countP (fun r => r.id = id ∧ r.decision = .applied) ≤ 1
  believed : ∀ k < s.count, Believed (s.requests k)
  room : s.pending.keys.card ≤ maxPendingApprovals

theorem ofNat_inj {base : UInt64} {k k' : Nat} (few : k < 2 ^ 64) (few' : k' < 2 ^ 64)
    (same : base + UInt64.ofNat k = base + UInt64.ofNat k') : k = k' := by
  have eq := congrArg UInt64.toNat ((UInt64.add_right_inj base).mp same)
  rwa [UInt64.toNat_ofNat_of_lt' few, UInt64.toNat_ofNat_of_lt' few'] at eq

namespace Sound

variable {s s' : Router} {k : Nat}

theorem id_inj (sound : Sound s) {k' : Nat} (here : k < s.count) (here' : k' < s.count)
    (same : (s.requests k).id = (s.requests k').id) : k = k' := by
  rw [sound.ids k here, sound.ids k' here'] at same
  exact ofNat_inj (here.trans_le sound.few) (here'.trans_le sound.few) same

/-- A request moves on, its guard stays as it is. -/
theorem touch (sound : Sound s) {r : Request} (id : r.id = (s.requests k).id)
    (answer : r.answer = (s.requests k).answer) (guards : (s.phase k).guarded = true → r.phase.guarded = true)
    (moved : r.phase ≠ .numbered) (believed : Believed r) (count : s'.count = s.count) (firstId : s'.firstId = s.firstId)
    (pending : s'.pending = s.pending) (hands : s'.hands = s.hands) (replies : s'.replies = s.replies)
    (requests : s'.requests = Function.update s.requests k r) : Sound s' := by
  have ids (j : Nat) : (s'.requests j).id = (s.requests j).id := by
    rw [requests]
    by_cases same : j = k
    · rw [same, Function.update_self, id]
    · rw [Function.update_of_ne same]
  have answers (j : Nat) : (s'.requests j).answer = (s.requests j).answer := by
    rw [requests]
    by_cases same : j = k
    · rw [same, Function.update_self, answer]
    · rw [Function.update_of_ne same]
  have own : s'.requests k = r := by rw [requests, Function.update_self]
  have others (j : Nat) (other : j ≠ k) : s'.requests j = s.requests j := by rw [requests, Function.update_of_ne other]
  refine ⟨count ▸ sound.few, ?_, ?_, ?_, hands ▸ sound.apart, ?_, ?_, replies ▸ sound.once, ?_, pending ▸ sound.room⟩
  · intro j there
    rw [ids, firstId]
    exact sound.ids j (count ▸ there)
  · intro id entry found
    rw [pending] at found
    obtain ⟨there, own', guarded, none, apart⟩ := sound.held id entry found
    refine ⟨count ▸ there, (ids _).trans own', ?_, (answers _).trans none, hands ▸ apart⟩
    by_cases same : entry.decide = k
    · rw [phase, same, own]
      exact guards (same ▸ guarded)
    · rw [phase, others _ same]
      exact guarded
  · intro h inside
    obtain ⟨there, own', none, begun⟩ := sound.hand h (hands ▸ inside)
    refine ⟨count ▸ there, (ids _).trans own', (answers _).trans none, ?_⟩
    by_cases same : h.channel = k
    · rw [phase, same, own]
      exact moved
    · rw [phase, others _ same]
      exact begun
  · intro j there b
    rw [answers, ids, replies]
    exact sound.answered j (count ▸ there) b
  · intro reply inside applied
    obtain ⟨j, there, own'⟩ := sound.owned reply (replies ▸ inside) applied
    exact ⟨j, count ▸ there, (ids j).trans own'⟩
  · intro j there
    by_cases same : j = k
    · rw [same, own]
      exact believed
    · rw [others j same]
      exact sound.believed j (count ▸ there)

theorem become (sound : Sound s) {p : Phase} (guards : (s.phase k).guarded = true → p.guarded = true)
    (moved : p ≠ .numbered) (believed : Believed { s.requests k with phase := p }) : Sound (s.become k p) :=
  @touch s _ k sound { s.requests k with phase := p } rfl rfl guards moved believed rfl rfl rfl rfl rfl rfl

/-- A reply that nothing was applied by. -/
theorem reply (sound : Sound s) {r : Reply} (idle : r.decision ≠ .applied) (hands : s'.hands.Sublist s.hands)
    (pending : s'.pending = s.pending) (count : s'.count = s.count) (firstId : s'.firstId = s.firstId)
    (requests : s'.requests = s.requests) (replies : s'.replies = s.replies ++ [r]) : Sound s' := by
  have mem (id : UInt64) (b : Bool) : ⟨id, b, .applied⟩ ∈ s'.replies ↔ ⟨id, b, .applied⟩ ∈ s.replies := by
    rw [replies, List.mem_append, List.mem_singleton]
    refine ⟨fun inside => inside.resolve_right ?_, .inl⟩
    rintro rfl
    exact idle rfl
  have phases (j : Nat) : s'.phase j = s.phase j := by rw [phase, phase, requests]
  refine ⟨count ▸ sound.few, ?_, ?_, ?_, sound.apart.sublist (hands.map _), ?_, ?_, ?_, ?_, pending ▸ sound.room⟩
  · intro j there
    rw [requests, firstId]
    exact sound.ids j (count ▸ there)
  · intro id entry found
    obtain ⟨there, own, guarded, none, apart⟩ := sound.held id entry (pending ▸ found)
    rw [count, requests, phases]
    exact ⟨there, own, guarded, none, fun h inside => apart h (hands.subset inside)⟩
  · intro h inside
    rw [count, requests, phases]
    exact sound.hand h (hands.subset inside)
  · intro j there b
    rw [mem, requests]
    exact sound.answered j (count ▸ there) b
  · intro reply inside applied
    rw [replies] at inside
    rw [count, requests]
    rcases List.mem_append.mp inside with old | new
    · exact sound.owned reply old applied
    · obtain rfl := List.mem_singleton.mp new
      exact absurd applied idle
  · intro id
    rw [replies, List.countP_append, List.countP_singleton, if_neg (by simp [idle])]
    exact sound.once id
  · intro j there
    rw [requests]
    exact sound.believed j (count ▸ there)

/-- A new request, under a number that nobody has. -/
theorem ask (sound : Sound s) (req : ApprovalRequest) (few : s.count < 2 ^ 64) :
    Sound { s.setRequest s.count ⟨s.nextId, req, .numbered, none, 0⟩ with count := s.count + 1 } := by
  have others (j : Nat) (there : j < s.count) :
      (s.setRequest s.count ⟨s.nextId, req, .numbered, none, 0⟩).requests j = s.requests j :=
    Function.update_of_ne there.ne _ _
  have own : (s.setRequest s.count ⟨s.nextId, req, .numbered, none, 0⟩).requests s.count = ⟨s.nextId, req, .numbered, none, 0⟩ :=
    Function.update_self ..
  have older (j : Nat) (there : j < s.count + 1) : j < s.count ∨ j = s.count := by omega
  refine ⟨few, ?_, ?_, ?_, sound.apart, ?_, ?_, sound.once, ?_, sound.room⟩
  · intro j there
    rcases older j there with old | rfl
    · exact (congrArg Request.id (others j old)).trans (sound.ids j old)
    · exact congrArg Request.id own
  · intro id entry found
    obtain ⟨there, here⟩ := sound.held id entry found
    refine ⟨there.trans (Nat.lt_succ_self _), ?_⟩
    rw [phase, others _ there]
    exact here
  · intro h inside
    obtain ⟨there, here⟩ := sound.hand h inside
    refine ⟨there.trans (Nat.lt_succ_self _), ?_⟩
    rw [phase, others _ there]
    exact here
  · intro j there b
    rcases older j there with old | rfl
    · rw [others j old]
      exact sound.answered j old b
    · rw [own]
      refine iff_of_false (by simp) fun applied => ?_
      obtain ⟨k, there', same⟩ := sound.owned _ applied rfl
      rw [sound.ids k there'] at same
      exact there'.ne (ofNat_inj (there'.trans few) few same)
  · intro reply inside applied
    obtain ⟨j, there, same⟩ := sound.owned reply inside applied
    refine ⟨j, there.trans (Nat.lt_succ_self _), ?_⟩
    rw [others j there]
    exact same
  · intro j there
    rcases older j there with old | rfl
    · rw [others j old]
      exact sound.believed j old
    · rw [own]
      exact (rfl : Option.none = none)

theorem register (sound : Sound s) (here : k < s.count) (at_ : s.phase k = .numbered)
    (room : ¬s.pending.keys.card ≥ maxPendingApprovals) :
    Sound { s.become k .inserted with pending := s.pending.insert (s.requests k).id (s.entryOf k) } := by
  have silent : (s.requests k).answer = none := by
    have believed := sound.believed k here
    unfold Believed at believed
    rw [show (s.requests k).phase = .numbered from at_] at believed
    exact believed
  have moved : Sound (s.become k .inserted) := sound.become (fun _ => rfl) (by simp) trivial
  have own : (s.become k .inserted).requests k = { s.requests k with phase := .inserted } := Function.update_self ..
  refine ⟨moved.few, moved.ids, ?_, moved.hand, moved.apart, moved.answered, moved.owned, moved.once, moved.believed, ?_⟩
  · intro id entry found
    by_cases same : id = (s.requests k).id
    · subst same
      rw [Finmap.lookup_insert] at found
      obtain rfl := Option.some.inj found
      refine ⟨here, ?_, ?_, ?_, fun h inside eq => ?_⟩
      · show ((s.become k .inserted).requests k).id = _
        rw [own]
      · show ((s.become k .inserted).requests k).phase.guarded = true
        rw [own]
        rfl
      · show ((s.become k .inserted).requests k).answer = none
        rw [own]
        exact silent
      · exact (sound.hand h inside).2.2.2 (eq ▸ at_)
    · rw [Finmap.lookup_insert_of_ne _ same] at found
      exact moved.held id entry found
  · have one : (s.pending.insert (s.requests k).id (s.entryOf k)).keys ⊆ insert (s.requests k).id s.pending.keys := by
      intro id inside
      rw [Finmap.mem_keys, Finmap.mem_insert] at inside
      rw [Finset.mem_insert, Finmap.mem_keys]
      exact inside
    exact (Finset.card_le_card one).trans ((Finset.card_insert_le _ _).trans (not_le.mp room))

/-- An entry leaves the map. -/
theorem erase (sound : Sound s) (id : UInt64) : Sound { s with pending := s.pending.erase id } := by
  refine ⟨sound.few, sound.ids, fun id' entry found => ?_, sound.hand, sound.apart, sound.answered, sound.owned, sound.once,
    sound.believed, ?_⟩
  · by_cases same : id' = id
    · subst same
      rw [Finmap.lookup_erase] at found
      cases found
    · rw [Finmap.lookup_erase_ne same] at found
      exact sound.held id' entry found
  · have fewer : (s.pending.erase id).keys ⊆ s.pending.keys := by
      intro id' inside
      rw [Finmap.mem_keys, Finmap.mem_erase] at inside
      exact Finmap.mem_keys.mpr inside.2
    exact (Finset.card_le_card fewer).trans sound.room

theorem unguard (sound : Sound s) (here : k < s.count) {p : Phase} (moved : p ≠ .numbered)
    (believed : Believed { s.requests k with phase := p }) :
    Sound { s.become k p with pending := s.pending.erase (s.requests k).id } := by
  -- Without its entry, nothing asks for the guard.
  have bare := sound.erase (s.requests k).id
  have gone (id : UInt64) (entry : PendingEntry) (found : (s.pending.erase (s.requests k).id).lookup id = some entry) :
      entry.decide ≠ k := by
    rintro rfl
    obtain ⟨_, own, _⟩ := bare.held id entry found
    rw [show id = (s.requests entry.decide).id from own.symm, Finmap.lookup_erase] at found
    cases found
  have ids (j : Nat) : ((s.become k p).requests j).id = (s.requests j).id := by
    unfold Router.become setRequest
    dsimp only
    by_cases same : j = k
    · rw [same, Function.update_self]
    · rw [Function.update_of_ne same]
  have answers (j : Nat) : ((s.become k p).requests j).answer = (s.requests j).answer := by
    unfold Router.become setRequest
    dsimp only
    by_cases same : j = k
    · rw [same, Function.update_self]
    · rw [Function.update_of_ne same]
  have others (j : Nat) (other : j ≠ k) : (s.become k p).requests j = s.requests j := Function.update_of_ne other _ _
  have own : (s.become k p).requests k = { s.requests k with phase := p } := Function.update_self ..
  refine ⟨sound.few, fun j there => (ids j).trans (sound.ids j there), ?_, ?_, sound.apart, ?_, ?_, sound.once, ?_, bare.room⟩
  · intro id entry found
    have other := gone id entry found
    rw [phase, others _ other]
    exact bare.held id entry found
  · intro h inside
    obtain ⟨there, own', silent, begun⟩ := sound.hand h inside
    refine ⟨there, (ids _).trans own', (answers _).trans silent, ?_⟩
    by_cases same : h.channel = k
    · rw [phase, same, own]
      exact moved
    · rw [phase, others _ same]
      exact begun
  · intro j there b
    rw [answers, ids]
    exact sound.answered j there b
  · intro reply inside applied
    obtain ⟨j, there, same⟩ := sound.owned reply inside applied
    exact ⟨j, there, (ids j).trans same⟩
  · intro j there
    by_cases same : j = k
    · rw [same, own]
      exact believed
    · rw [others j same]
      exact sound.believed j there

/-- A decision takes an entry; nobody else can answer its request from then on. -/
theorem take (sound : Sound s) {id : UInt64} {entry : PendingEntry} (found : s.pending.lookup id = some entry) (approve : Bool) :
    Sound { s with pending := s.pending.erase id, hands := s.hands ++ [⟨id, entry.decide, approve⟩] } := by
  have bare := sound.erase id
  obtain ⟨there, own, guarded, silent, apart⟩ := sound.held id entry found
  refine ⟨sound.few, sound.ids, ?_, ?_, ?_, sound.answered, sound.owned, sound.once, sound.believed, bare.room⟩
  · intro id' entry' found'
    obtain ⟨there', own', guarded', silent', apart'⟩ := bare.held id' entry' found'
    refine ⟨there', own', guarded', silent', fun h inside => ?_⟩
    rcases List.mem_append.mp inside with old | new
    · exact apart' h old
    · obtain rfl := List.mem_singleton.mp new
      intro (same : entry.decide = entry'.decide)
      rw [← own', ← same, own, Finmap.lookup_erase] at found'
      cases found'
  · intro h inside
    rcases List.mem_append.mp inside with old | new
    · exact sound.hand h old
    · obtain rfl := List.mem_singleton.mp new
      refine ⟨there, own, silent, fun numbered => ?_⟩
      rw [show s.phase entry.decide = .numbered from numbered] at guarded
      cases guarded
  · rw [List.map_append, List.nodup_append]
    refine ⟨sound.apart, List.nodup_singleton _, fun a inside b new => ?_⟩
    obtain ⟨h, old, rfl⟩ := List.mem_map.mp inside
    obtain rfl := List.mem_singleton.mp new
    exact apart h old

/-- A decision that reaches its request is the only one of its id, and is in its channel. -/
theorem send (sound : Sound s) {n : Nat} {h : Hand} (at_ : s.hands[n]? = some h) (listens : (s.phase h.channel).listening = true)
    (open_ : (s.phase h.channel).givenUp = false) :
    Sound { s.setRequest h.channel { s.requests h.channel with answer := some h.approve } with
      hands := s.hands.eraseIdx n, replies := s.replies ++ [⟨h.id, h.approve, .applied⟩] } := by
  have inside := List.mem_of_getElem? at_
  obtain ⟨there, own, silent, begun⟩ := sound.hand h inside
  generalize eq : s.setRequest h.channel { s.requests h.channel with answer := some h.approve } = s'
  have others (j : Nat) (other : j ≠ h.channel) : s'.requests j = s.requests j := by
    rw [← eq]
    exact Function.update_of_ne other _ _
  have here : s'.requests h.channel = { s.requests h.channel with answer := some h.approve } := by
    rw [← eq]
    exact Function.update_self ..
  have ids (j : Nat) : (s'.requests j).id = (s.requests j).id := by
    by_cases same : j = h.channel
    · rw [same, here]
    · rw [others j same]
  have phases (j : Nat) : s'.phase j = s.phase j := by
    by_cases same : j = h.channel
    · rw [phase, same, here, phase]
    · rw [phase, others j same, phase]
  have left (h' : Hand) (inside' : h' ∈ s.hands.eraseIdx n) : h' ∈ s.hands ∧ h'.channel ≠ h.channel := by
    refine ⟨List.mem_of_mem_eraseIdx inside', fun same => ?_⟩
    obtain ⟨lt, rfl⟩ := List.getElem?_eq_some_iff.mp at_
    obtain ⟨i, lt', other, rfl⟩ := List.mem_eraseIdx_iff_getElem.mp inside'
    have twice : (s.hands.map Hand.channel).get ⟨i, by simpa using lt'⟩ =
        (s.hands.map Hand.channel).get ⟨n, by simpa using lt⟩ := by
      simpa using same
    exact other (sound.apart.getElem_inj_iff.mp twice)
  have fresh (b : Bool) : ⟨h.id, b, .applied⟩ ∉ s.replies := by
    intro applied
    rw [← own] at applied
    cases silent.symm.trans ((sound.answered _ there b).mpr applied)
  refine ⟨by rw [← eq]; exact sound.few, ?_, ?_, ?_, sound.apart.sublist ((List.eraseIdx_sublist ..).map _), ?_, ?_, ?_, ?_,
    by rw [← eq]; exact sound.room⟩
  · intro j there'
    have there' : j < s.count := by rw [← eq] at there'; exact there'
    have first : s'.firstId = s.firstId := by rw [← eq]; rfl
    show (s'.requests j).id = s'.firstId + _
    rw [ids, first]
    exact sound.ids j there'
  · intro id entry found
    have found' : s.pending.lookup id = some entry := by rw [← eq] at found; exact found
    obtain ⟨there', own', guarded, silent', apart⟩ := sound.held id entry found'
    have other : entry.decide ≠ h.channel := fun same => apart h inside same.symm
    refine ⟨by rw [← eq]; exact there', (ids _).trans own', (phases _).symm ▸ guarded, ?_, fun h' inside' => apart h' (left h' inside').1⟩
    show (s'.requests entry.decide).answer = none
    rw [others _ other]
    exact silent'
  · intro h' inside'
    obtain ⟨old, other⟩ := left h' inside'
    obtain ⟨there', own', silent', begun'⟩ := sound.hand h' old
    refine ⟨by rw [← eq]; exact there', (ids _).trans own', ?_, fun numbered => begun' ((phases _).symm.trans numbered)⟩
    show (s'.requests h'.channel).answer = none
    rw [others _ other]
    exact silent'
  · intro j there' b
    have there' : j < s.count := by rw [← eq] at there'; exact there'
    rw [List.mem_append, List.mem_singleton]
    by_cases same : j = h.channel
    · subst same
      show (s'.requests h.channel).answer = some b ↔ ⟨(s'.requests h.channel).id, b, _⟩ ∈ s.replies ∨ _
      rw [here]
      dsimp only
      rw [own]
      constructor
      · intro is
        obtain rfl := Option.some.inj is
        exact .inr rfl
      · rintro (old | new)
        · exact absurd old (fresh b)
        · rw [Reply.mk.injEq] at new
          rw [new.2.1]
    · show (s'.requests j).answer = some b ↔ ⟨(s'.requests j).id, b, _⟩ ∈ s.replies ∨ _
      rw [others j same]
      refine (sound.answered j there' b).trans ⟨.inl, fun inside => inside.resolve_right fun new => same ?_⟩
      rw [Reply.mk.injEq] at new
      exact sound.id_inj there' there (new.1.trans own.symm)
  · intro reply inside' applied
    rcases List.mem_append.mp inside' with old | new
    · obtain ⟨j, there', same⟩ := sound.owned reply old applied
      exact ⟨j, by rw [← eq]; exact there', (ids j).trans same⟩
    · obtain rfl := List.mem_singleton.mp new
      exact ⟨h.channel, by rw [← eq]; exact there, (ids _).trans own⟩
  · intro id
    rw [List.countP_append, List.countP_singleton]
    by_cases same : h.id = id
    · have none : s.replies.countP (fun r => r.id = id ∧ r.decision = .applied) = 0 := by
        refine List.countP_eq_zero.mpr fun reply old => ?_
        simp only [decide_eq_true_eq]
        rintro ⟨rfl, applied⟩
        exact fresh reply.approve (by rw [same, ← applied]; exact old)
      rw [none]
      split <;> omega
    · rw [if_neg (by simp [same])]
      exact sound.once id
  · intro j there'
    have there' : j < s.count := by rw [← eq] at there'; exact there'
    show Believed (s'.requests j)
    by_cases same : j = h.channel
    · -- An answer is news only to a request that has not come to an outcome.
      subst same
      rw [here]
      unfold phase at open_ begun listens
      unfold Believed
      dsimp only
      cases at' : (s.requests h.channel).phase with
      | numbered => exact absurd at' begun
      | refused | unguarded | settled =>
        rw [at'] at open_
        cases open_
      | closed | returned =>
        rw [at'] at listens
        cases listens
      | _ => trivial
    · rw [others j same]
      exact sound.believed j there'

theorem start (seed : UInt64) : Sound (.start seed) := by
  refine ⟨Nat.zero_le _, fun _ none => absurd none (Nat.not_lt_zero _), fun id entry found => ?_,
    fun _ none => absurd none List.not_mem_nil, List.nodup_nil, fun _ none => absurd none (Nat.not_lt_zero _),
    fun _ none => absurd none List.not_mem_nil, fun _ => Nat.zero_le _, fun _ none => absurd none (Nat.not_lt_zero _),
    Nat.zero_le _⟩
  rw [Router.start, Finmap.lookup_empty] at found
  cases found

/-- Every step of a kept run keeps the router sound. -/
theorem step (sound : Sound s) {ttl : Nat} {act : Act} (kept : s.Kept act) (done : s.step ttl act = some s') : Sound s' := by
  cases act with
  | ask req =>
    obtain rfl := Option.some.inj done
    exact sound.ask req kept
  | register k =>
    unfold Router.step at done
    dsimp only at done
    split at done
    · rename_i at_
      split at done
      · obtain rfl := Option.some.inj done
        have silent := sound.believed k at_.1
        unfold Believed at silent
        rw [show (s.requests k).phase = .numbered from at_.2] at silent
        refine sound.become (fun guarded => ?_) (by simp) ⟨fun b is => ?_, nofun⟩
        · rw [at_.2] at guarded
          cases guarded
        · cases silent.symm.trans is
      · rename_i room
        obtain rfl := Option.some.inj done
        exact sound.register at_.1 at_.2 room
    · cases done
  | broadcast k =>
    unfold Router.step at done
    dsimp only at done
    split at done
    · rename_i at_
      split at done
      · obtain rfl := Option.some.inj done
        exact @touch s _ k sound { s.requests k with phase := .polling, deadline := s.clock + ttl } rfl rfl (fun _ => rfl)
          (by simp) trivial rfl rfl rfl rfl rfl rfl
      · rename_i away
        obtain rfl := Option.some.inj done
        exact sound.become (fun _ => rfl) (by simp) (kept (by simpa using away))
    · cases done
  | look k =>
    unfold Router.step at done
    dsimp only at done
    split at done
    · split at done
      · rename_i approve answer
        obtain rfl := Option.some.inj done
        refine sound.become (fun _ => rfl) (by simp) ⟨fun b is => ?_, fun approved => ?_⟩
        · obtain rfl := Option.some.inj (answer.symm.trans is)
          rfl
        · cases approve with
          | true => exact answer
          | false => cases approved
      · rename_i silent
        obtain rfl := Option.some.inj done
        cases s.sender k with
        | true => exact sound.become (fun _ => rfl) (by simp) trivial
        | false =>
          refine sound.become (fun _ => rfl) (by simp) ⟨fun b is => ?_, nofun⟩
          cases silent.symm.trans is
    · cases done
  | timer k =>
    unfold Router.step at done
    dsimp only at done
    split at done
    · obtain rfl := Option.some.inj done
      by_cases late : (s.requests k).deadline ≤ s.clock
      · rw [if_pos late]
        refine sound.become (fun _ => rfl) (by simp) ⟨fun b is => ?_, nofun⟩
        cases (kept late).symm.trans is
      · rw [if_neg late]
        exact sound.become (fun _ => rfl) (by simp) trivial
    · cases done
  | wake k =>
    unfold Router.step at done
    dsimp only at done
    split at done
    · obtain rfl := Option.some.inj done
      exact sound.become (fun _ => rfl) (by simp) trivial
    · cases done
  | drop k =>
    unfold Router.step at done
    dsimp only at done
    split at done
    · obtain rfl := Option.some.inj done
      exact sound.become (fun _ => rfl) (by simp) trivial
    · cases done
  | close k =>
    unfold Router.step at done
    dsimp only at done
    split at done
    · rename_i here
      obtain ⟨p, closes, rfl⟩ := Option.map_eq_some_iff.mp done
      have believed := sound.believed k here
      unfold Believed at believed
      unfold Phase.closes phase at closes
      split at closes
      · rename_i outcome at_
        obtain rfl := Option.some.inj closes
        rw [at_] at believed
        exact sound.become (fun _ => rfl) (by simp) believed
      · rename_i at_
        obtain rfl := Option.some.inj closes
        rw [at_] at believed
        refine sound.become (fun guarded => ?_) (by simp) ⟨fun b is => ?_, nofun⟩
        · rw [phase, at_] at guarded
          cases guarded
        · cases believed.symm.trans is
      · cases closes
    · cases done
  | dropGuard k =>
    unfold Router.step at done
    dsimp only at done
    split at done
    · rename_i here
      obtain ⟨p, unguards, rfl⟩ := Option.map_eq_some_iff.mp done
      have believed := sound.believed k here
      unfold Believed at believed
      unfold Phase.unguards phase at unguards
      split at unguards
      · rename_i outcome at_
        obtain rfl := Option.some.inj unguards
        rw [at_] at believed
        exact sound.unguard here (by simp) believed
      · rename_i at_
        obtain rfl := Option.some.inj unguards
        rw [at_] at believed
        exact sound.unguard here (by simp) believed
      · obtain rfl := Option.some.inj unguards
        exact sound.unguard here (by simp) trivial
      · cases unguards
    · cases done
  | take id approve =>
    unfold Router.step at done
    dsimp only at done
    split at done
    · rename_i entry found
      obtain rfl := Option.some.inj done
      exact sound.take found approve
    · obtain rfl := Option.some.inj done
      refine sound.reply ?_ (List.Sublist.refl _) rfl rfl rfl rfl rfl
      dsimp only
      split <;> simp
  | send n =>
    unfold Router.step at done
    dsimp only at done
    split at done
    · cases done
    · rename_i h at_
      split at done
      · rename_i listens
        obtain rfl := Option.some.inj done
        exact sound.send at_ listens (kept h (by rw [at_]; rfl))
      · obtain rfl := Option.some.inj done
        exact @reply s _ sound ⟨h.id, h.approve, .expired⟩ (by simp) (List.eraseIdx_sublist ..) rfl rfl rfl rfl rfl
  | install =>
    obtain rfl := Option.some.inj done
    exact ⟨sound.few, sound.ids, sound.held, sound.hand, sound.apart, sound.answered, sound.owned, sound.once,
      sound.believed, sound.room⟩
  | tick =>
    obtain rfl := Option.some.inj done
    exact ⟨sound.few, sound.ids, sound.held, sound.hand, sound.apart, sound.answered, sound.owned, sound.once,
      sound.believed, sound.room⟩

end Sound

/-! What is promised of an approval. -/

structure Promises (s : Router) : Prop where
  once : ∀ id, s.replies.countP (fun r => r.id = id ∧ r.decision = .applied) ≤ 1
  backed : ∀ k < s.count, s.phase k = .returned .approved → ⟨(s.requests k).id, true, .applied⟩ ∈ s.replies
  believed : ∀ k < s.count, ∀ b, ⟨(s.requests k).id, b, .applied⟩ ∈ s.replies →
    ∀ outcome, s.phase k = .returned outcome → outcome = .of b
  room : s.pending.keys.card ≤ maxPendingApprovals
  gone : ∀ k < s.count, (s.phase k).ended = true → (s.requests k).id ∉ s.pending

theorem Sound.promises {s : Router} (sound : Sound s) : Promises s := by
  refine ⟨sound.once, fun k here at_ => ?_, fun k here b applied outcome at_ => ?_, sound.room, fun k here ended there => ?_⟩
  · have believed := sound.believed k here
    unfold Believed at believed
    rw [show (s.requests k).phase = _ from at_] at believed
    exact (sound.answered k here true).mp (believed.2 rfl)
  · have believed := sound.believed k here
    unfold Believed at believed
    rw [show (s.requests k).phase = _ from at_] at believed
    exact believed.1 b ((sound.answered k here b).mpr applied)
  · obtain ⟨entry, found⟩ := Finmap.mem_iff.mp there
    obtain ⟨there', own, guarded, -⟩ := sound.held _ entry found
    obtain rfl := sound.id_inj there' here own
    revert ended guarded
    cases s.phase entry.decide <;> simp [Phase.ended, Phase.guarded]

/-- Any interleaving of the parties whose steps are all kept. -/
inductive Run (ttl : Nat) (s : Router) : Router → Prop where
  | refl : Run ttl s s
  | step {s' s'' : Router} {act : Act} (before : Run ttl s s') (kept : s'.Kept act) (done : s'.step ttl act = some s'') :
      Run ttl s s''

/-- A step changes one request, and never one that is over. -/
theorem step_frame {s s' : Router} {ttl : Nat} {act : Act} (done : s.step ttl act = some s') :
    s.count ≤ s'.count ∧ ∀ k < s.count, s'.requests k = s.requests k ∨ (s.phase k).ended = false := by
  have touched (k : Nat) (r : Request) (live : (s.phase k).ended = false) :
      ∀ j < s.count, Function.update s.requests k r j = s.requests j ∨ (s.phase j).ended = false := by
    intro j _
    by_cases same : j = k
    · exact .inr (same ▸ live)
    · exact .inl (Function.update_of_ne same _ _)
  cases act with
  | ask req =>
    obtain rfl := Option.some.inj done
    exact ⟨Nat.le_succ _, fun j there => .inl (Function.update_of_ne there.ne _ _)⟩
  | install | tick =>
    obtain rfl := Option.some.inj done
    exact ⟨le_rfl, fun j _ => .inl rfl⟩
  | take id approve =>
    unfold step at done
    dsimp only at done
    split at done
    · obtain rfl := Option.some.inj done
      exact ⟨le_rfl, fun j _ => .inl rfl⟩
    · obtain rfl := Option.some.inj done
      exact ⟨le_rfl, fun j _ => .inl rfl⟩
  | send n =>
    unfold step at done
    dsimp only at done
    split at done
    · cases done
    · rename_i h at_
      split at done
      · rename_i listens
        obtain rfl := Option.some.inj done
        refine ⟨le_rfl, touched h.channel _ ?_⟩
        revert listens
        cases s.phase h.channel <;> simp [Phase.listening, Phase.ended]
      · obtain rfl := Option.some.inj done
        exact ⟨le_rfl, fun j _ => .inl rfl⟩
  | close k =>
    unfold step at done
    dsimp only at done
    split at done
    · obtain ⟨p, closes, rfl⟩ := Option.map_eq_some_iff.mp done
      refine ⟨le_rfl, touched k _ ?_⟩
      revert closes
      cases s.phase k <;> simp [Phase.closes, Phase.ended]
    · cases done
  | dropGuard k =>
    unfold step at done
    dsimp only at done
    split at done
    · obtain ⟨p, unguards, rfl⟩ := Option.map_eq_some_iff.mp done
      refine ⟨le_rfl, touched k _ ?_⟩
      revert unguards
      cases s.phase k <;> simp [Phase.unguards, Phase.ended]
    · cases done
  | register k | broadcast k =>
    unfold step at done
    dsimp only at done
    split at done
    · rename_i at_
      split at done
      · obtain rfl := Option.some.inj done
        exact ⟨le_rfl, touched k _ (by rw [at_.2]; rfl)⟩
      · obtain rfl := Option.some.inj done
        exact ⟨le_rfl, touched k _ (by rw [at_.2]; rfl)⟩
    · cases done
  | look k =>
    unfold step at done
    dsimp only at done
    split at done
    · rename_i at_
      split at done
      · obtain rfl := Option.some.inj done
        exact ⟨le_rfl, touched k _ (by rw [at_.2]; rfl)⟩
      · obtain rfl := Option.some.inj done
        exact ⟨le_rfl, touched k _ (by rw [at_.2]; rfl)⟩
    · cases done
  | timer k | wake k | drop k =>
    unfold step at done
    dsimp only at done
    split at done
    · rename_i at_
      obtain rfl := Option.some.inj done
      exact ⟨le_rfl, touched k _ (by rw [at_.2]; rfl)⟩
    · cases done

theorem Run.sound {s s' : Router} {ttl : Nat} (run : Run ttl s s') (sound : Sound s) : Sound s' := by
  induction run with
  | refl => exact sound
  | step before kept done ih => exact ih.step kept done

theorem Run.ended {s s' : Router} {ttl : Nat} (run : Run ttl s s') {k : Nat} (here : k < s.count)
    (ended : (s.phase k).ended = true) : k < s'.count ∧ s'.requests k = s.requests k := by
  induction run with
  | refl => exact ⟨here, rfl⟩
  | step before kept done ih =>
    obtain ⟨there, same⟩ := ih
    obtain ⟨more, frame⟩ := step_frame done
    refine ⟨there.trans_le more, ?_⟩
    rcases frame k there with eq | live
    · exact eq.trans same
    · rw [phase, same] at live
      cases ended.symm.trans live

/-- In every run whose steps are kept, an id is applied once at most, an approval is backed
by a decision, a decision that was applied is believed, the map is bounded, and the id of a
request that is over is never in it again. -/
theorem approvals_believed {ttl : Nat} {seed : UInt64} {s s' : Router} (early : Run ttl (.start seed) s)
    (late : Run ttl s s') :
    Promises s' ∧ ∀ k < s.count, (s.phase k).ended = true →
      s'.phase k = s.phase k ∧ (s'.requests k).id = (s.requests k).id ∧ (s.requests k).id ∉ s'.pending := by
  have promises := (late.sound (early.sound (.start seed))).promises
  refine ⟨promises, fun k here ended => ?_⟩
  obtain ⟨there, same⟩ := late.ended here ended
  have phase' : s'.phase k = s.phase k := congrArg Request.phase same
  refine ⟨phase', congrArg Request.id same, ?_⟩
  rw [← same]
  exact promises.gone k there (by rw [phase', ended])

/-- The steps of these acts, in this order. -/
def execute (ttl : Nat) (acts : List Act) (s : Router) : Option Router := acts.foldlM (step ttl) s

instance (s : Router) (act : Act) : Decidable (s.Kept act) :=
  match act with
  | .ask _ => inferInstanceAs (Decidable (s.count < 2 ^ 64))
  | .timer k => inferInstanceAs (Decidable ((s.requests k).deadline ≤ s.clock → (s.requests k).answer = none))
  | .broadcast k => inferInstanceAs (Decidable (s.broadcaster = false → (s.requests k).answer = none))
  | .send n => inferInstanceAs (Decidable (∀ h ∈ s.hands[n]?, (s.phase h.channel).givenUp = false))
  | .register _ | .look _ | .wake _ | .close _ | .dropGuard _ | .drop _ | .take _ _ | .install | .tick =>
    inferInstanceAs (Decidable True)

/-- The same, as long as they are kept. -/
def executeKept (ttl : Nat) : List Act → Router → Option Router
  | [], s => some s
  | act :: acts, s => if s.Kept act then (s.step ttl act).bind (executeKept ttl acts) else none

theorem Run.trans {ttl : Nat} {s s' s'' : Router} (first : Run ttl s s') (second : Run ttl s' s'') : Run ttl s s'' := by
  induction second with
  | refl => exact first
  | step _ kept done ih => exact .step ih kept done

theorem Run.of_executeKept {ttl : Nat} {acts : List Act} {s s' : Router} (ran : executeKept ttl acts s = some s') :
    Run ttl s s' := by
  induction acts generalizing s with
  | nil =>
    obtain rfl := Option.some.inj ran
    exact .refl
  | cons act acts ih =>
    unfold executeKept at ran
    split at ran
    · rename_i kept
      obtain ⟨s₁, done, rest⟩ := Option.bind_eq_some_iff.mp ran
      exact (Run.step .refl kept done).trans (ih rest)
    · cases ran

def sampleRequest : ApprovalRequest := ⟨.agent [], .copy, [], 0⟩

/-- A request that is approved in time. -/
def approvedRun : List Act :=
  [.install, .ask sampleRequest, .register 0, .broadcast 0, .look 0, .timer 0, .take 5 true, .send 0, .wake 0, .look 0,
    .close 0, .dropGuard 0]

def approved : Router := (executeKept 1 approvedRun (start 5)).getD (start 5)

theorem approvals_believed_approved : Promises approved ∧ ∀ k < approved.count, (approved.phase k).ended = true →
    approved.phase k = approved.phase k ∧ (approved.requests k).id = (approved.requests k).id ∧
      (approved.requests k).id ∉ approved.pending := by
  have ran : executeKept 1 approvedRun (start 5) = some approved := rfl
  exact approvals_believed (.of_executeKept ran) .refl

/-- The channel is empty when the request looks, the decision sends, and the timer is over
when the request looks at that. -/
def lateRun : List Act :=
  [.install, .ask sampleRequest, .register 0, .broadcast 0, .look 0, .take 5 true, .tick, .send 0, .timer 0, .close 0,
    .dropGuard 0]

theorem applied_and_timed_out : ¬∀ ttl seed acts s, execute ttl acts (start seed) = some s → ∀ k < s.count, ∀ b,
    ⟨(s.requests k).id, b, .applied⟩ ∈ s.replies → ∀ outcome, s.phase k = .returned outcome → outcome = .of b := by
  intro claim
  have believed := claim 1 5 lateRun _ rfl 0 (by decide) true (by decide) .timedOut (by decide)
  cases believed

end Router

end Norte.Approvals
