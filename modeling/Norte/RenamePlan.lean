import Mathlib.Data.List.Sort
import Mathlib.Data.Finset.Insert
import Norte.Hashing

/-! The pure part of a batch rename: names in, an ordered plan out. The key two names
collide by and the digest are parameters. A `HashSet` is a list read by membership,
a `HashMap` the function of its lookups. -/
namespace Norte.Rename

open Hashing

inductive FoldMode where
  | none
  | simple
  | full
  deriving DecidableEq, Repr

structure NameCaps where
  fold : FoldMode
  deriving DecidableEq, Repr

inductive CollisionKind where
  | internal
  | external
  | absentSource
  | ambiguousSource
  deriving DecidableEq, Repr

def CollisionKind.tag : CollisionKind → UInt8
  | internal => 1
  | external => 2
  | absentSource => 3
  | ambiguousSource => 4

structure Collision where
  name : Bytes
  kind : CollisionKind
  pairIndex : Nat
  deriving DecidableEq, Repr

structure Step where
  fromName : Bytes
  toName : Bytes
  temp : Bool
  pairIndex : Nat
  deriving DecidableEq, Repr

structure RenamePlan where
  steps : List Step
  collisions : List Collision
  hash : Bytes
  deriving DecidableEq, Repr

def RenamePlan.executable (plan : RenamePlan) : Bool := plan.collisions.isEmpty

structure Work where
  index : Nat
  fromName : Bytes
  toName : Bytes
  fromKey : Bytes
  toKey : Bytes
  deriving DecidableEq, Repr

/-- The index as a `u32`, saturating. -/
def pairIndex (i : Nat) : Nat := min i (2 ^ 32 - 1)

section Planner

variable (nameKey : Bytes → NameCaps → Bytes) (sha256 : Bytes → Bytes)

/-! The directory, indexed byte for byte and folded. -/

structure Listing where
  exact : List Bytes
  /-- The entries under a key, in listing order; none for a key the map lacks. -/
  folded : Bytes → List Bytes
  keys : List Bytes

inductive Resolved where
  | one (bytes : Bytes)
  | absent
  | ambiguous
  deriving DecidableEq, Repr

def Listing.index (listing : List Bytes) (caps : NameCaps) : Listing where
  exact := listing
  folded key := (listing.filter fun entry => nameKey entry caps = key).eraseDups
  keys := listing.map fun entry => nameKey entry caps

def Listing.resolve (l : Listing) (name key : Bytes) : Resolved :=
  if name ∈ l.exact then .one name
  else match l.folded key with
    | [] => .absent
    | [only] => .one only
    | _ :: _ :: _ => .ambiguous

/-- Of the twins that stay, the one spelled like the destination, else the first. -/
def Listing.blocker (l : Listing) (name key : Bytes) (vacated : List Bytes) : Option Bytes :=
  let stays := (l.folded key).filter (· ∉ vacated)
  if name ∈ stays then some name else stays.head?

/-! Pass one and two: verdicts. -/

/-- What the loop over the pairs has built so far. -/
structure Classified where
  work : List Work
  collisions : List Collision
  spokenFor : List Bytes
  vacated : List Bytes
  claimedDests : List Bytes

def reject (i : Nat) (name : Bytes) (kind : CollisionKind) : Collision :=
  ⟨name, kind, pairIndex i⟩

def Classified.reject (st : Classified) (i : Nat) (name : Bytes) (kind : CollisionKind) :
    Classified :=
  { st with collisions := st.collisions ++ [Rename.reject i name kind] }

def classifyPair (listing : Listing) (caps : NameCaps) (st : Classified) (i : Nat)
    (pair : Bytes × Bytes) : Classified :=
  let (fromName, toName) := pair
  let fromKey := nameKey fromName caps
  match listing.resolve fromName fromKey with
  | .absent => st.reject i fromName .absentSource
  | .ambiguous => st.reject i fromName .ambiguousSource
  | .one onDisk =>
    if fromKey ∈ st.spokenFor then st.reject i toName .internal
    else
      let st := { st with spokenFor := fromKey :: st.spokenFor }
      -- a null pair claims its source and vacates nothing
      if onDisk = toName then st
      else
        let toKey := nameKey toName caps
        if toKey ∈ st.claimedDests then st.reject i toName .internal
        else { st with
          claimedDests := toKey :: st.claimedDests
          vacated := onDisk :: st.vacated
          work := st.work ++ [⟨i, onDisk, toName, fromKey, toKey⟩] }

def classifyPairs (listing : Listing) (caps : NameCaps) :
    Nat → List (Bytes × Bytes) → Classified → Classified
  | _, [], st => st
  | i, pair :: pairs, st =>
    classifyPairs listing caps (i + 1) pairs (classifyPair nameKey listing caps st i pair)

def blocked (listing : Listing) (vacated : List Bytes) (w : Work) : Option Collision :=
  (listing.blocker w.toName w.toKey vacated).map (reject w.index · .external)

def classify (pairs : List (Bytes × Bytes)) (listing : Listing) (caps : NameCaps) :
    List Work × List Collision :=
  let st := classifyPairs nameKey listing caps 0 pairs ⟨[], [], [], [], []⟩
  let external := st.work.filterMap (blocked listing st.vacated)
  (st.work, (st.collisions ++ external).insertionSort fun a b => a.pairIndex ≤ b.pairIndex)

/-! Names of temporaries and the digest of the conclusions. -/

def tempPrefix : Bytes := Utf8.encode ".norte-rename-".toList

def foldByte (caps : NameCaps) : UInt8 :=
  match caps.fold with
  | .simple => 0
  | .none => 1
  | .full => 2

def pairLe (a b : Bytes × Bytes) : Bool := a.1 < b.1 || (a.1 = b.1 && a.2 ≤ b.2)

def intentTag (pairs : List (Bytes × Bytes)) (caps : NameCaps) : Bytes :=
  let sorted := pairs.insertionSort fun a b => pairLe a b
  let fed := Utf8.encode "norte-rename-temp-v1".toList ++ feed [foldByte caps] ++
    sorted.flatMap fun pair => feed pair.1 ++ feed pair.2
  hexLower ((sha256 fed).take 4)

structure TempNames where
  tag : Bytes
  next : Nat
  caps : NameCaps

def TempNames.new (tag : Bytes) (caps : NameCaps) : TempNames := ⟨tag, 0, caps⟩

def tempName (tag : Bytes) (n : Nat) : Bytes :=
  tempPrefix ++ tag ++ Utf8.encode ['-'] ++ Utf8.encode (Nat.toDigits 10 n)

/-- The loop of `TempNames::next`: the counter is bumped before the name is tried, so
`u32::MAX` is never used and reaching it is the `unreachable!`. -/
def TempNames.nextFrom : Nat → TempNames → List Bytes → Option (Bytes × TempNames × List Bytes)
  | 0, _, _ => none
  | fuel + 1, temps, taken =>
    let name := tempName temps.tag temps.next
    let temps := { temps with next := temps.next + 1 }
    let key := nameKey name temps.caps
    if key ∈ taken then nextFrom fuel temps taken else some (name, temps, key :: taken)

/-- `none` is the panic; the rounds left are the counter values left. -/
def TempNames.take (temps : TempNames) (taken : List Bytes) :
    Option (Bytes × TempNames × List Bytes) :=
  nextFrom nameKey (2 ^ 32 - 1 - temps.next) temps taken

def planHash (steps : List Step) (collisions : List Collision) (caps : NameCaps) : Bytes :=
  sha256 (Utf8.encode "norte-rename-plan-v1".toList ++ feed [foldByte caps] ++
    feed (u64LeBytes steps.length) ++
    (steps.flatMap fun s => feed s.fromName ++ feed s.toName ++ feed [if s.temp then 1 else 0]) ++
    feed (u64LeBytes collisions.length) ++
    (collisions.flatMap fun c => feed c.name ++ feed [c.kind.tag] ++ feed (u32LeBytes c.pairIndex)))

/-! Pass three: order. A position of the work list is a `Fin`, so no lookup can miss. -/

section Order

variable (work : List Work)

def Work.step (w : Work) (fromName toName : Bytes) (temp : Bool) : Step :=
  ⟨fromName, toName, temp, pairIndex w.index⟩

/-- The map from source keys to positions; a later insert replaces an earlier one. -/
def sources (key : Bytes) : Option (Fin work.length) :=
  (List.finRange work.length).reverse.find? fun i => (work.get i).fromKey = key

/-- The position whose source holds the destination of `i`. A rename onto its own
source waits on nothing. -/
def waitsOn (i : Fin work.length) : Option (Fin work.length) :=
  (sources work (work.get i).toKey).filter (· ≠ i)

def isBlocked (i : Fin work.length) : Bool := (waitsOn work i).isSome

/-- Once `j` has moved, the destination of `waiter j` is free; the last write to the
slot stays. -/
def waiter (j : Fin work.length) : Option (Fin work.length) :=
  (List.finRange work.length).reverse.find? fun i => waitsOn work i = some j

/-- One walk of waiters from `cur`: the steps it pushes and the positions done. -/
def runFrom : Nat → Option (Fin work.length) → Finset (Fin work.length) →
    List Step × Finset (Fin work.length)
  | 0, _, done => ([], done)
  | _ + 1, none, done => ([], done)
  | fuel + 1, some c, done =>
    if c ∈ done then ([], done)
    else
      let w := work.get c
      let (steps, done) := runFrom fuel (waiter work c) (insert c done)
      (w.step w.fromName w.toName false :: steps, done)

/-- Each round of the walk marks one more position, so one round more than there are
positions is enough. -/
def walk (start : Option (Fin work.length)) (done : Finset (Fin work.length)) :
    List Step × Finset (Fin work.length) :=
  runFrom work (work.length + 1) start done

def chains : List (Fin work.length) → Finset (Fin work.length) →
    List Step × Finset (Fin work.length)
  | [], done => ([], done)
  | i :: rest, done =>
    let (first, done) := if isBlocked work i then ([], done) else walk work (some i) done
    let (steps, done) := chains rest done
    (first ++ steps, done)

def cycles : List (Fin work.length) → Finset (Fin work.length) → TempNames → List Bytes →
    Option (List Step)
  | [], _, _, _ => some []
  | i :: rest, done, temps, taken =>
    if i ∈ done then cycles rest done temps taken
    else do
      let (temp, temps, taken) ← temps.take nameKey taken
      let w := work.get i
      let (steps, done) := walk work (waiter work i) (insert i done)
      let later ← cycles rest done temps taken
      return w.step w.fromName temp true :: steps ++ w.step temp w.toName true :: later

def order (taken : List Bytes) (tag : Bytes) (caps : NameCaps) : Option (List Step) :=
  let positions := List.finRange work.length
  let taken := work.map Work.toKey ++ taken
  let (steps, done) := chains work positions ∅
  (cycles nameKey work positions done (TempNames.new tag caps) taken).map (steps ++ ·)

end Order

/-- A plan, or `none` for the panic of a directory that holds every temporary. -/
def planBatch (pairs : List (Bytes × Bytes)) (listing : List Bytes) (caps : NameCaps) :
    Option RenamePlan :=
  let index := Listing.index nameKey listing caps
  let (work, collisions) := classify nameKey pairs index caps
  if collisions ≠ [] then some ⟨[], collisions, planHash sha256 [] collisions caps⟩
  else do
    let steps ← order nameKey work index.keys (intentTag sha256 pairs caps) caps
    return ⟨steps, collisions, planHash sha256 steps collisions caps⟩

end Planner

/-- The collision key on ASCII names, where folding is lowercasing. -/
def asciiKey (name : Bytes) (caps : NameCaps) : Bytes :=
  match caps.fold with
  | .none => name
  | .simple | .full => name.map fun b => if 'A'.toUInt8 ≤ b ∧ b ≤ 'Z'.toUInt8 then b + 32 else b

end Norte.Rename
