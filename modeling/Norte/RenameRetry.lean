import Mathlib.Logic.Function.Basic
import Norte.RenameExec
import Norte.SyncCalls

/-! A rename that is tried again after a transient failure. The failed attempt can have
taken effect all the same, and it is by the identity of what stands at the target that a
later attempt finds out. -/
namespace Norte.Retry

open Sync (NodeId)

def maxRetries : Nat := 3

def isTransient : Error → Bool
  | .providerUnavailable true | .io true | .busy => true
  | _ => false

/-- `Busy` is transient and leaves no doubt: the file was never opened. -/
def sowsDoubt (e : Error) : Bool := isTransient e && e != .busy

/-- What tells a retry that an earlier attempt may have been the one. -/
def isContradiction : Error → Bool
  | .notFound | .conflict _ => true
  | _ => false

/-- A token by the first of its readings that finds it cancelled. -/
structure Token where
  instant : Option Nat

namespace Token

def new : Token := ⟨none⟩

def isCancelled (token : Token) (clock : Nat) : Bool := token.instant.any (· ≤ clock)

@[simp] theorem new_isCancelled (clock : Nat) : new.isCancelled clock = false := rfl

theorem isCancelled_mono {token : Token} {early late : Nat} (order : early ≤ late)
    (cancelled : token.isCancelled early = true) : token.isCancelled late = true := by
  cases instant : token.instant with
  | none => simp [isCancelled, instant] at cancelled
  | some first =>
    simp only [isCancelled, instant, Option.any_some, decide_eq_true_eq] at cancelled ⊢
    omega

theorem not_cancelled_before {token : Token} {early late : Nat} (order : early ≤ late)
    (live : token.isCancelled late = false) : token.isCancelled early = false := by
  by_contra cancelled
  have := isCancelled_mono order (Bool.eq_true_of_not_eq_false cancelled)
  simp [live] at this

end Token

/-- The wait before another attempt, that ends at once when the token is cancelled. -/
def backoffOrCancel (token : Token) (clock : Nat) : Except Error Unit :=
  if token.isCancelled clock then .error .cancelled else .ok ()

/-- Retries of a query, whose answer depends on the directory alone. -/
def withRetry (token : Token) (answer : Except Error α) : Nat → Nat → Except Error α × Nat
  | 0, clock => (answer, clock)
  | retries + 1, clock =>
    match answer with
    | .ok value => (.ok value, clock)
    | .error e =>
      if isTransient e then
        match backoffOrCancel token clock with
        | .error e => (.error e, clock + 1)
        | .ok () => withRetry token answer retries (clock + 1)
      else (.error e, clock)

theorem withRetry_ok (token : Token) (value : α) (retries clock : Nat) :
    withRetry token (.ok value) retries clock = (.ok value, clock) := by
  cases retries <;> rfl

theorem withRetry_notFound (token : Token) (retries clock : Nat) :
    withRetry token (.error .notFound : Except Error α) retries clock = (.error .notFound, clock) := by
  cases retries <;> rfl

structure Entry where
  path : VPath
  node : NodeId
  deriving DecidableEq

/-- A directory that folds names: an entry is found under every spelling of its key. -/
@[ext] structure FoldingDir {K : Type*} (key : VPath → K) where
  find : K → Option Entry
  keyed : ∀ {k e}, find k = some e → key e.path = k

namespace FoldingDir

variable {K : Type*} {key : VPath → K}

def stat (dir : FoldingDir key) (path : VPath) : Except Error Entry :=
  match dir.find (key path) with
  | some e => .ok e
  | none => .error .notFound

def nodeId (dir : FoldingDir key) (path : VPath) : Except Error (Option NodeId) :=
  (dir.stat path).map fun e => some e.node

variable [DecidableEq K]

def drop (dir : FoldingDir key) (path : VPath) : FoldingDir key where
  find := Function.update dir.find (key path) none
  keyed {k e} found := by
    by_cases same : k = key path
    · simp [same] at found
    · exact dir.keyed (by simpa [same] using found)

/-- The entry of the key of `path` is spelt `path` and is `node`. -/
def spelt (dir : FoldingDir key) (path : VPath) (node : NodeId) : FoldingDir key where
  find := Function.update dir.find (key path) (some ⟨path, node⟩)
  keyed {k e} found := by
    by_cases same : k = key path
    · subst same
      obtain rfl : ⟨path, node⟩ = e := by simpa using found
      rfl
    · exact dir.keyed (by simpa [same] using found)

def moved (dir : FoldingDir key) (source target : VPath) (node : NodeId) : FoldingDir key :=
  (dir.drop source).spelt target node

end FoldingDir

/-- What one attempt of a rename meets: it goes through, it fails without effect, or its
effect is there and a transient failure is all that is answered. -/
inductive Answer where
  | done
  | refused (error : Error)
  | lost (error : Error) (transient : isTransient error = true)

/-- Whoever answers the attempts of the renames, by what is renamed and the attempt. -/
abbrev Provider := VPath → VPath → Nat → Answer

section Loop

variable {K : Type*} {key : VPath → K} [DecidableEq K]

/-- A rename does not overwrite: the target has to be free, also of the source itself. -/
def land (dir : FoldingDir key) (source target : VPath) (answer : Except Error Unit) :
    Except Error Unit × FoldingDir key :=
  match dir.find (key source), dir.find (key target) with
  | none, _ => (.error .notFound, dir)
  | some _, some _ => (.error (.conflict .exists_), dir)
  | some e, none => (answer, dir.moved source target e.node)

def rename (dir : FoldingDir key) (source target : VPath) :
    Answer → Except Error Unit × FoldingDir key
  | .done => land dir source target (.ok ())
  | .refused e => (.error e, dir)
  | .lost e _ => land dir source target (.error e)

def renameApplied (dir : FoldingDir key) (source target : VPath) (fromId : Option NodeId)
    (token : Token) (clock : Nat) : Except Error (Option Bool) :=
  match fromId with
  | none => .ok none
  | some expected =>
    match withRetry token (dir.nodeId target) maxRetries clock with
    | (.ok none, _) | (.error .notFound, _) => .ok none
    | (.error e, _) => .error e
    | (.ok (some id), clock) =>
      match withRetry token (dir.stat source) maxRetries clock with
      | (.ok _, _) => .ok (some false)
      | (.error .notFound, _) => .ok (if id = expected then some true else none)
      | (.error e, _) => .error e

/-- The loop of `rename_retrying` with the retries that are left and the attempt it is at.
The token is read before the attempt, before the wait and during it. -/
def renameLoop (p : Provider) (source target : VPath) (fromId : Option NodeId) (token : Token) :
    Nat → Nat → Option Error → Nat → FoldingDir key → Except Error Unit × FoldingDir key
  | retries, attempt, lastTransient, clock, dir =>
    if token.isCancelled clock then (.error .cancelled, dir)
    else
      match rename dir source target (p source target attempt) with
      | (.ok (), dir) => (.ok (), dir)
      | (.error err, dir) =>
        match isContradiction err, lastTransient with
        | true, some transient =>
          match renameApplied dir source target fromId token (clock + 1) with
          | .error e => (.error e, dir)
          | .ok (some true) => (.ok (), dir)
          | .ok (some false) => (.error err, dir)
          | .ok none => (.error transient, dir)
        | _, _ =>
          match retries with
          | 0 => (.error err, dir)
          | retries + 1 =>
            if isTransient err && !token.isCancelled (clock + 1) then
              match backoffOrCancel token (clock + 2) with
              | .error e => (.error e, dir)
              | .ok () =>
                renameLoop p source target fromId token retries (attempt + 1)
                  (if sowsDoubt err then some err else lastTransient) (clock + 3) dir
            else (.error err, dir)

def renameRetrying (p : Provider) (dir : FoldingDir key) (source target : VPath)
    (fromId : Option NodeId) (token : Token) (clock : Nat) : Except Error Unit × FoldingDir key :=
  renameLoop p source target fromId token maxRetries 0 none clock dir

end Loop

/-! A call of the loop as the script of what its attempts meet. -/

namespace Answer

/-- The attempt moves the entry, if it stands at the source and the target is free. -/
def Lands : Answer → Prop
  | done | lost _ _ => True
  | refused _ => False

/-- A transient failure without effect. -/
def Transient : Answer → Prop
  | refused e => isTransient e = true
  | done | lost _ _ => False

/-- Where the entry has gone already, the attempt contradicts the earlier failure. -/
def Contradicts : Answer → Prop
  | refused e => isContradiction e = true
  | done | lost _ _ => True

def Doubtful : Answer → Prop
  | refused e | lost e _ => sowsDoubt e = true
  | done => False

end Answer

structure Call where
  answer : Nat → Answer
  token : Token
  clock : Nat

namespace Call

variable (c : Call)

/-- The token is not cancelled when attempt `k` begins: each attempt reads it three times. -/
def Live (k : Nat) : Prop := c.token.isCancelled (c.clock + 3 * k) = false

/-- The call begun at attempt `i` gets to attempt `k`. -/
structure ReachesFrom (i k : Nat) : Prop where
  order : i ≤ k
  within : k ≤ maxRetries
  live : c.Live k
  retried : ∀ j, i ≤ j → j < k → (c.answer j).Transient

/-- Some attempt from `i` on contradicts a failure that may have hidden an effect. -/
def NoticesFrom (i : Nat) (doubt : Prop) : Prop :=
  ∃ m, c.ReachesFrom i m ∧ (c.answer m).Contradicts ∧
    (doubt ∨ ∃ j, i ≤ j ∧ j < m ∧ (c.answer j).Doubtful)

def LandsAt (k : Nat) : Prop := c.ReachesFrom 0 k ∧ (c.answer k).Lands

/-- What attempt `k` did is known in the end: its reply came, or a later attempt tells. -/
def Known (k : Nat) : Prop :=
  c.answer k = .done ∨ c.NoticesFrom (k + 1) (∃ j ≤ k, (c.answer j).Doubtful)

/-- The rename takes effect and is known to. -/
def Passes : Prop := ∃ k, c.LandsAt k ∧ c.Known k

/-- No effect stays behind a failure. -/
def Tells : Prop := ∀ k, c.LandsAt k → c.Known k

end Call

theorem isTransient_of_isContradiction {e : Error} (contradiction : isContradiction e = true) :
    isTransient e = false := by
  cases e <;> simp_all [isContradiction, isTransient]

theorem Answer.not_transient_of_contradicts {a : Answer} (contradicts : a.Contradicts) :
    ¬a.Transient := by
  cases a with
  | done => exact id
  | refused e => simp [Transient, isTransient_of_isContradiction contradicts]
  | lost e transient => exact id

namespace Call

variable {c : Call} {i k : Nat} {doubt : Prop}

theorem Live.before (live : c.Live k) (order : i ≤ k) : c.Live i :=
  Token.not_cancelled_before (by omega) live

theorem ReachesFrom.here (within : i ≤ maxRetries) (live : c.Live i) : c.ReachesFrom i i :=
  ⟨le_rfl, within, live, fun j low high => absurd high (by omega)⟩

theorem ReachesFrom.next (reaches : c.ReachesFrom i k) (later : i < k) :
    (c.answer i).Transient ∧ c.ReachesFrom (i + 1) k :=
  ⟨reaches.retried i le_rfl later,
    ⟨later, reaches.within, reaches.live, fun j low => reaches.retried j (by omega)⟩⟩

theorem ReachesFrom.retry (transient : (c.answer i).Transient)
    (reaches : c.ReachesFrom (i + 1) k) : c.ReachesFrom i k where
  order := by have := reaches.order; omega
  within := reaches.within
  live := reaches.live
  retried j low high := by
    rcases Nat.eq_or_lt_of_le low with rfl | low
    · exact transient
    · exact reaches.retried j low high

theorem noticesFrom_congr {other : Prop} (same : doubt ↔ other) :
    c.NoticesFrom i doubt ↔ c.NoticesFrom i other := by
  simp only [NoticesFrom, same]

theorem not_noticesFrom (over_ : ¬(i ≤ maxRetries ∧ c.Live i)) : ¬c.NoticesFrom i doubt := by
  rintro ⟨m, reaches, -⟩
  have order := reaches.order
  exact over_ ⟨order.trans reaches.within, reaches.live.before order⟩

theorem noticesFrom_contradicts (within : i ≤ maxRetries) (live : c.Live i)
    (contradicts : (c.answer i).Contradicts) : c.NoticesFrom i doubt ↔ doubt := by
  constructor
  · rintro ⟨m, reaches, -, doubted⟩
    rcases Nat.eq_or_lt_of_le reaches.order with rfl | later
    · rcases doubted with doubted | ⟨j, low, high, -⟩
      · exact doubted
      · omega
    · exact absurd (reaches.next later).1 (Answer.not_transient_of_contradicts contradicts)
  · exact fun doubted => ⟨i, .here within live, contradicts, .inl doubted⟩

theorem noticesFrom_transient (transient : (c.answer i).Transient) :
    c.NoticesFrom i doubt ↔ c.NoticesFrom (i + 1) (doubt ∨ (c.answer i).Doubtful) := by
  constructor
  · rintro ⟨m, reaches, contradicts, doubted⟩
    rcases Nat.eq_or_lt_of_le reaches.order with rfl | later
    · exact absurd transient (Answer.not_transient_of_contradicts contradicts)
    refine ⟨m, (reaches.next later).2, contradicts, ?_⟩
    rcases doubted with doubted | ⟨j, low, high, doubtful⟩
    · exact .inl (.inl doubted)
    · rcases Nat.eq_or_lt_of_le low with rfl | low
      · exact .inl (.inr doubtful)
      · exact .inr ⟨j, low, high, doubtful⟩
  · rintro ⟨m, reaches, contradicts, doubted⟩
    have later := reaches.order
    refine ⟨m, reaches.retry transient, contradicts, ?_⟩
    rcases doubted with (doubted | doubtful) | ⟨j, low, high, doubtful⟩
    · exact .inl doubted
    · exact .inr ⟨i, le_rfl, later, doubtful⟩
    · exact .inr ⟨j, by omega, high, doubtful⟩

theorem not_lands (over_ : ¬(i ≤ maxRetries ∧ c.Live i)) :
    ¬(c.ReachesFrom i k ∧ (c.answer k).Lands) := by
  rintro ⟨reaches, -⟩
  have order := reaches.order
  exact over_ ⟨order.trans reaches.within, reaches.live.before order⟩

theorem not_lands_settled (settled : ¬(c.answer i).Transient) (refused : ¬(c.answer i).Lands) :
    ¬(c.ReachesFrom i k ∧ (c.answer k).Lands) := by
  rintro ⟨reaches, lands⟩
  rcases Nat.eq_or_lt_of_le reaches.order with rfl | later
  · exact refused lands
  · exact settled (reaches.next later).1

theorem lands_transient (transient : (c.answer i).Transient) :
    c.ReachesFrom i k ∧ (c.answer k).Lands ↔ c.ReachesFrom (i + 1) k ∧ (c.answer k).Lands := by
  constructor
  · rintro ⟨reaches, lands⟩
    rcases Nat.eq_or_lt_of_le reaches.order with rfl | later
    · cases answer : c.answer i <;> rw [answer] at transient lands
      · exact absurd transient id
      · exact absurd lands id
      · exact absurd transient id
    · exact ⟨(reaches.next later).2, lands⟩
  · exact fun reached => ⟨reached.1.retry transient, reached.2⟩

theorem not_noticesFrom_settled (settled : ¬(c.answer i).Transient)
    (silent : ¬(c.answer i).Contradicts) : ¬c.NoticesFrom i doubt := by
  rintro ⟨m, reaches, contradicts, -⟩
  rcases Nat.eq_or_lt_of_le reaches.order with rfl | later
  · exact silent contradicts
  · exact settled (reaches.next later).1

end Call

section Loop

variable {K : Type*} {key : VPath → K} [DecidableEq K] {p : Provider} {source target : VPath}
  {fromId : Option NodeId} {token : Token} {retries attempt clock : Nat}
  {lastTransient : Option Error} {dir after : FoldingDir key} {err : Error}

theorem renameLoop_cancelled (cancelled : token.isCancelled clock = true) :
    renameLoop p source target fromId token retries attempt lastTransient clock dir =
      (.error .cancelled, dir) := by
  rw [renameLoop, if_pos cancelled]

theorem renameLoop_ok (live : token.isCancelled clock = false)
    (done : rename dir source target (p source target attempt) = (.ok (), after)) :
    renameLoop p source target fromId token retries attempt lastTransient clock dir =
      (.ok (), after) := by
  rw [renameLoop, live, done]
  simp

/-- A contradiction after a doubt is settled by identity. -/
theorem renameLoop_contradiction {transient : Error} (live : token.isCancelled clock = false)
    (failed : rename dir source target (p source target attempt) = (.error err, after))
    (contradiction : isContradiction err = true) {answer : Option Bool}
    (applied : renameApplied after source target fromId token (clock + 1) = .ok answer) :
    renameLoop p source target fromId token retries attempt (some transient) clock dir =
      match answer with
      | some true => (.ok (), after)
      | some false => (.error err, after)
      | none => (.error transient, after) := by
  rw [renameLoop, live, failed]
  simp only [contradiction, applied, Bool.false_eq_true, if_false]
  rcases answer with - | (- | -) <;> rfl

variable (retries fromId) in
/-- Any other failure ends the call, or is transient and leads to the next attempt. -/
theorem renameLoop_failed (live : token.isCancelled clock = false)
    (failed : rename dir source target (p source target attempt) = (.error err, after))
    (plain : isContradiction err = false ∨ lastTransient = none) :
    ((∃ e, renameLoop p source target fromId token retries attempt lastTransient clock dir =
        (.error e, after)) ∧
      ¬(isTransient err = true ∧ retries ≠ 0 ∧ token.isCancelled (clock + 3) = false)) ∨
    ∃ rest, retries = rest + 1 ∧ isTransient err = true ∧
      renameLoop p source target fromId token retries attempt lastTransient clock dir =
        renameLoop p source target fromId token rest (attempt + 1)
          (if sowsDoubt err then some err else lastTransient) (clock + 3) after := by
  have unfolded : renameLoop p source target fromId token retries attempt lastTransient clock dir =
      match retries with
      | 0 => (.error err, after)
      | retries + 1 =>
        if isTransient err && !token.isCancelled (clock + 1) then
          match backoffOrCancel token (clock + 2) with
          | .error e => (.error e, after)
          | .ok () =>
            renameLoop p source target fromId token retries (attempt + 1)
              (if sowsDoubt err then some err else lastTransient) (clock + 3) after
        else (.error err, after) := by
    rw [renameLoop, live, failed]
    rcases plain with plain | plain
    · simp [plain]
    · simp [plain]
  rw [unfolded]
  cases retries with
  | zero => exact .inl ⟨⟨err, rfl⟩, fun again => again.2.1 rfl⟩
  | succ rest =>
    dsimp only
    cases transient : isTransient err with
    | false => exact .inl ⟨⟨err, rfl⟩, fun again => absurd again.1 Bool.false_ne_true⟩
    | true =>
      cases early : token.isCancelled (clock + 1) with
      | true =>
        refine .inl ⟨⟨err, rfl⟩, fun again => ?_⟩
        have := Token.not_cancelled_before (by omega : clock + 1 ≤ clock + 3) again.2.2
        simp [early] at this
      | false =>
        cases waiting : token.isCancelled (clock + 2) with
        | true =>
          refine .inl ⟨⟨.cancelled, by simp [backoffOrCancel, waiting]⟩, fun again => ?_⟩
          have := Token.not_cancelled_before (by omega : clock + 2 ≤ clock + 3) again.2.2
          simp [waiting] at this
        | false => exact .inr ⟨rest, rfl, rfl, by simp [backoffOrCancel, waiting]⟩

/-- What an attempt answers where the entry does not stand at the source. -/
def Answer.failure : Answer → Error
  | done | lost _ _ => .notFound
  | refused e => e

theorem Answer.contradicts_iff (a : Answer) :
    a.Contradicts ↔ isContradiction a.failure = true := by
  cases a <;> simp [Contradicts, failure, isContradiction]

theorem Answer.transient_iff (a : Answer) : a.Transient ↔ isTransient a.failure = true := by
  cases a <;> simp [Transient, failure, isTransient]

theorem Answer.Transient.doubtful_iff {a : Answer} (transient : a.Transient) :
    a.Doubtful ↔ sowsDoubt a.failure = true := by
  cases a with
  | refused e => rfl
  | done | lost => exact absurd transient id

theorem rename_gone (gone : dir.find (key source) = none) (target : VPath) (a : Answer) :
    rename dir source target a = (.error a.failure, dir) := by
  cases a <;> simp [rename, land, gone, Answer.failure]

omit [DecidableEq K] in
theorem renameApplied_gone {e : Entry} (gone : dir.find (key source) = none)
    (there : dir.find (key target) = some e) :
    renameApplied dir source target (some e.node) token clock = .ok (some true) := by
  simp [renameApplied, FoldingDir.nodeId, FoldingDir.stat, gone, there, Except.map, withRetry_ok,
    withRetry_notFound]

omit [DecidableEq K] in
theorem renameApplied_standing (free : dir.find (key target) = none) :
    renameApplied dir source target fromId token clock = .ok none := by
  cases fromId with
  | none => rfl
  | some expected =>
    simp [renameApplied, FoldingDir.nodeId, FoldingDir.stat, free, Except.map, withRetry_notFound]

omit [DecidableEq K] in
theorem lastTransient_isSome : (if sowsDoubt err then some err else lastTransient).isSome = true ↔
    lastTransient.isSome = true ∨ sowsDoubt err = true := by
  cases sowsDoubt err <;> simp

/-- Where an earlier attempt has moved the entry, the call only finds out about it. -/
theorem renameLoop_gone {e : Entry} {start : Nat} (gone : dir.find (key source) = none)
    (there : dir.find (key target) = some e) (budget : attempt + retries = maxRetries)
    (time : start + 3 * attempt = clock) :
    ∃ answer, renameLoop p source target (some e.node) token retries attempt lastTransient clock
        dir = (answer, dir) ∧
      (answer = .ok () ↔ Call.NoticesFrom ⟨p source target, token, start⟩ attempt
        (lastTransient.isSome = true)) := by
  induction retries using Nat.strong_induction_on generalizing attempt clock lastTransient with
  | _ retries ih =>
    set c : Call := ⟨p source target, token, start⟩ with call
    have reads (k : Nat) : c.Live (attempt + k) ↔ token.isCancelled (clock + 3 * k) = false := by
      rw [Call.Live, show c.clock + 3 * (attempt + k) = clock + 3 * k by simp only [call]; omega]
    by_cases live : token.isCancelled clock = false
    case neg =>
      have silent : ¬c.NoticesFrom attempt (lastTransient.isSome = true) :=
        Call.not_noticesFrom fun here => live ((reads 0).mp here.2)
      exact ⟨_, renameLoop_cancelled (Bool.eq_true_of_not_eq_false live), by simp [silent]⟩
    have here : c.Live attempt := (reads 0).mpr live
    have failed := rename_gone gone target (p source target attempt)
    by_cases contradicts : (p source target attempt).Contradicts
    · rw [c.noticesFrom_contradicts (by omega) here contradicts]
      have contradiction := (Answer.contradicts_iff _).mp contradicts
      cases lastTransient with
      | some transient =>
        exact ⟨_, renameLoop_contradiction live failed contradiction
          (renameApplied_gone gone there), by simp⟩
      | none =>
        rcases renameLoop_failed (some e.node) retries live failed (.inr rfl)
          with ⟨⟨err, ends⟩, -⟩ | ⟨rest, -, transient, -⟩
        · exact ⟨_, ends, by simp⟩
        · simp [isTransient_of_isContradiction contradiction] at transient
    · have plain : isContradiction (p source target attempt).failure = false :=
        Bool.eq_false_of_not_eq_true fun found => contradicts ((Answer.contradicts_iff _).mpr found)
      rcases renameLoop_failed (some e.node) retries live failed (.inl plain)
        with ⟨⟨err, ends⟩, over_⟩ | ⟨rest, rfl, transient, again⟩
      · refine ⟨_, ends, iff_of_false (by simp) ?_⟩
        by_cases retried : (p source target attempt).Transient
        · rw [c.noticesFrom_transient retried]
          refine Call.not_noticesFrom fun next => over_ ⟨(Answer.transient_iff _).mp retried, ?_,
            (reads 1).mp next.2⟩
          have := next.1
          omega
        · exact Call.not_noticesFrom_settled retried contradicts
      · have retried := (Answer.transient_iff _).mpr transient
        rw [again, c.noticesFrom_transient retried, retried.doubtful_iff]
        obtain ⟨answer, ends, known⟩ := @ih rest (by omega) (attempt + 1) (clock + 3)
          (if sowsDoubt (p source target attempt).failure then
            some (p source target attempt).failure else lastTransient) (by omega) (by omega)
        exact ⟨answer, ends, known.trans (Call.noticesFrom_congr lastTransient_isSome)⟩

theorem FoldingDir.moved_find_target (dir : FoldingDir key) (source target : VPath) (node : NodeId) :
    (dir.moved source target node).find (key target) = some ⟨target, node⟩ := by
  simp [moved, spelt]

theorem FoldingDir.moved_find_source (dir : FoldingDir key) {source target : VPath} (node : NodeId)
    (apart : key source ≠ key target) :
    (dir.moved source target node).find (key source) = none := by
  simp [moved, spelt, drop, apart]

/-- A call either moves the entry at one of its attempts and knows it or does not, or it
leaves the directory alone and fails. -/
theorem renameLoop_standing {e : Entry} {start : Nat} (stands : dir.find (key source) = some e)
    (free : dir.find (key target) = none) (budget : attempt + retries = maxRetries)
    (time : start + 3 * attempt = clock) (c : Call) (call : c = ⟨p source target, token, start⟩) :
    (∃ k answer, (c.ReachesFrom attempt k ∧ (c.answer k).Lands) ∧
      renameLoop p source target (some e.node) token retries attempt lastTransient clock dir =
        (answer, dir.moved source target e.node) ∧
      (answer = .ok () ↔ c.answer k = .done ∨ c.NoticesFrom (k + 1)
        (lastTransient.isSome = true ∨ ∃ j, attempt ≤ j ∧ j ≤ k ∧ (c.answer j).Doubtful))) ∨
    ((∀ k, ¬(c.ReachesFrom attempt k ∧ (c.answer k).Lands)) ∧ ∃ err,
      renameLoop p source target (some e.node) token retries attempt lastTransient clock dir =
        (.error err, dir)) := by
  induction retries using Nat.strong_induction_on generalizing attempt clock lastTransient with
  | _ retries ih =>
    have answers : c.answer attempt = p source target attempt := by rw [call]
    have reads (k : Nat) : c.Live (attempt + k) ↔ token.isCancelled (clock + 3 * k) = false := by
      rw [Call.Live, call]
      simp only
      rw [show start + 3 * (attempt + k) = clock + 3 * k by omega]
    by_cases live : token.isCancelled clock = false
    case neg =>
      exact .inr ⟨fun k => Call.not_lands fun here => live ((reads 0).mp here.2), _,
        renameLoop_cancelled (Bool.eq_true_of_not_eq_false live)⟩
    have here : c.ReachesFrom attempt attempt := .here (by omega) ((reads 0).mpr live)
    have apart : key source ≠ key target := fun same => by simp [same, free] at stands
    cases answer : p source target attempt with
    | done =>
      rw [answer] at answers
      have done : rename dir source target (p source target attempt) =
          (.ok (), dir.moved source target e.node) := by
        simp [answer, rename, land, stands, free]
      exact .inl ⟨attempt, _, ⟨here, by simp [answers, Answer.Lands]⟩, renameLoop_ok live done,
        by simp [answers]⟩
    | lost err transient =>
      rw [answer] at answers
      have failed : rename dir source target (p source target attempt) =
          (.error err, dir.moved source target e.node) := by
        simp [answer, rename, land, stands, free]
      have plain : isContradiction err = false := by
        by_contra found
        simp [isTransient_of_isContradiction (Bool.eq_true_of_not_eq_false found)] at transient
      have lands : (c.answer attempt).Lands := by rw [answers]; trivial
      rcases renameLoop_failed (some e.node) retries live failed (.inl plain)
        with ⟨⟨err, ends⟩, over_⟩ | ⟨rest, rfl, -, again⟩
      · refine .inl ⟨attempt, _, ⟨here, lands⟩, ends, iff_of_false (by simp) ?_⟩
        rintro (done | noticed)
        · simp [answers] at done
        · refine Call.not_noticesFrom (fun next => over_ ⟨transient, ?_, (reads 1).mp next.2⟩) noticed
          have := next.1
          omega
      · obtain ⟨answer, ends, known⟩ := @renameLoop_gone _ _ _ p source target token rest
          (attempt + 1) (clock + 3) (if sowsDoubt err then some err else lastTransient) _ _ start
          (dir.moved_find_source e.node apart) (dir.moved_find_target source target e.node)
          (by omega) (by omega)
        rw [← call] at known
        refine .inl ⟨attempt, answer, ⟨here, lands⟩, again.trans ends, known.trans ?_⟩
        rw [or_iff_right (by simp [answers])]
        refine Call.noticesFrom_congr (lastTransient_isSome.trans (or_congr_right ?_))
        constructor
        · exact fun doubted => ⟨attempt, le_rfl, le_rfl, by rw [answers]; exact doubted⟩
        · rintro ⟨j, low, high, doubtful⟩
          obtain rfl : j = attempt := by omega
          rwa [answers] at doubtful
    | refused err =>
      rw [answer] at answers
      have failed : rename dir source target (p source target attempt) = (.error err, dir) := by
        rw [answer, rename]
      have refused : ¬(c.answer attempt).Lands := by rw [answers]; exact id
      have transient_iff : (c.answer attempt).Transient ↔ isTransient err = true := by rw [answers]; rfl
      by_cases contradicted : isContradiction err = true ∧ lastTransient.isSome = true
      · obtain ⟨contradiction, doubted⟩ := contradicted
        obtain ⟨transient, rfl⟩ := Option.isSome_iff_exists.mp doubted
        refine .inr ⟨fun k => Call.not_lands_settled ?_ refused, _,
          renameLoop_contradiction live failed contradiction (renameApplied_standing free)⟩
        simp [transient_iff, isTransient_of_isContradiction contradiction]
      have plain : isContradiction err = false ∨ lastTransient = none := by
        cases found : isContradiction err <;> cases lastTransient <;> simp_all
      rcases renameLoop_failed (some e.node) retries live failed plain
        with ⟨⟨err, ends⟩, over_⟩ | ⟨rest, rfl, transient, again⟩
      · refine .inr ⟨fun k => ?_, err, ends⟩
        by_cases retried : (c.answer attempt).Transient
        · rw [Call.lands_transient retried]
          refine Call.not_lands fun next => over_ ⟨transient_iff.mp retried, ?_, (reads 1).mp next.2⟩
          have := next.1
          omega
        · exact Call.not_lands_settled retried refused
      · have retried := transient_iff.mpr transient
        rw [again]
        rcases @ih rest (by omega) (attempt + 1) (clock + 3)
          (if sowsDoubt err then some err else lastTransient) (by omega) (by omega)
          with ⟨k, answer, lands, ends, known⟩ | ⟨stays, ends⟩
        · have later := lands.1.order
          refine .inl ⟨k, answer, (Call.lands_transient retried).mpr lands, ends, known.trans ?_⟩
          refine or_congr_right (Call.noticesFrom_congr ?_)
          rw [lastTransient_isSome, or_assoc]
          refine or_congr_right ⟨?_, ?_⟩
          · rintro (doubted | ⟨j, low, high, doubtful⟩)
            · exact ⟨attempt, le_rfl, by omega, by rw [answers]; exact doubted⟩
            · exact ⟨j, by omega, high, doubtful⟩
          · rintro ⟨j, low, high, doubtful⟩
            rcases Nat.eq_or_lt_of_le low with rfl | low
            · rw [answers] at doubtful
              exact .inl doubtful
            · exact .inr ⟨j, low, high, doubtful⟩
        · exact .inr ⟨fun k lands => stays k ((Call.lands_transient retried).mp lands), ends⟩

end Loop

theorem Answer.not_transient_of_lands {a : Answer} (lands : a.Lands) : ¬a.Transient := by
  cases a with
  | done => exact id
  | refused e => exact absurd lands id
  | lost e transient => exact id

/-- An entry moves once. -/
theorem Call.LandsAt.unique {c : Call} {k m : Nat} (first : c.LandsAt k) (second : c.LandsAt m) :
    k = m := by
  rcases Nat.lt_trichotomy k m with before | same | after
  · exact absurd (second.1.retried k (Nat.zero_le k) before) (Answer.not_transient_of_lands first.2)
  · exact same
  · exact absurd (first.1.retried m (Nat.zero_le m) after) (Answer.not_transient_of_lands second.2)

theorem Call.LandsAt.passes_iff {c : Call} {k : Nat} (lands : c.LandsAt k) :
    c.Passes ↔ c.Known k := by
  constructor
  · rintro ⟨m, other, known⟩
    rwa [lands.unique other]
  · exact fun known => ⟨k, lands, known⟩

theorem Call.LandsAt.tells_iff {c : Call} {k : Nat} (lands : c.LandsAt k) :
    c.Tells ↔ c.Known k := by
  constructor
  · exact fun tells => tells k lands
  · intro known m other
    rwa [← lands.unique other]

theorem Call.Passes.tells {c : Call} (passes : c.Passes) : c.Tells := by
  obtain ⟨k, lands, known⟩ := passes
  exact lands.tells_iff.mpr known

section Outcomes

variable {K : Type*} {key : VPath → K} [DecidableEq K] {p : Provider} {source target : VPath}
  {token : Token} {clock : Nat} {dir : FoldingDir key} {e : Entry}

/-- How a call ends, by the script of its attempts: the entry is moved and that is known,
it is moved behind a failure, or it has not moved. -/
inductive Ends (c : Call) (before after : FoldingDir key) :
    Except Error Unit × FoldingDir key → Prop
  | moved (passes : c.Passes) : Ends c before after (.ok (), after)
  | behind (lands : ∃ k, c.LandsAt k) (untold : ¬c.Tells) (err : Error) :
    Ends c before after (.error err, after)
  | stayed (stays : ∀ k, ¬c.LandsAt k) (err : Error) : Ends c before after (.error err, before)

theorem renameRetrying_standing (stands : dir.find (key source) = some e)
    (free : dir.find (key target) = none) :
    Ends ⟨p source target, token, clock⟩ dir (dir.moved source target e.node)
      (renameRetrying p dir source target (some e.node) token clock) := by
  rw [renameRetrying]
  have budget : 0 + maxRetries = maxRetries := Nat.zero_add maxRetries
  have time : clock + 3 * 0 = clock := rfl
  rcases @renameLoop_standing _ _ _ p source target token maxRetries 0 clock none dir e clock stands
    free budget time ⟨p source target, token, clock⟩ rfl with
    ⟨k, answer, lands, ends, known⟩ | ⟨stays, err, ends⟩
  · have here : Call.LandsAt ⟨p source target, token, clock⟩ k := lands
    have known : answer = .ok () ↔ Call.Known ⟨p source target, token, clock⟩ k := by
      rw [known, Call.Known]
      simp
    rw [ends]
    cases answer with
    | ok => exact .moved (here.passes_iff.mpr (known.mp rfl))
    | error err =>
      refine .behind ⟨k, here⟩ (fun tells => ?_) err
      have := known.mpr (here.tells_iff.mp tells)
      cases this
  · rw [ends]
    exact .stayed stays err

theorem renameRetrying_gone (gone : dir.find (key source) = none)
    (there : dir.find (key target) = some e) :
    (renameRetrying p dir source target (some e.node) token clock).2 = dir := by
  have budget : 0 + maxRetries = maxRetries := Nat.zero_add maxRetries
  have time : clock + 3 * 0 = clock := rfl
  obtain ⟨answer, ends, -⟩ := @renameLoop_gone _ _ _ p source target token maxRetries 0 clock none dir
    e clock gone there budget time
  rw [renameRetrying, ends]

end Outcomes

end Norte.Retry
