import Norte.PairKey
import Norte.Policy
import Norte.ZipWrite

/-! What goes into an archive: the roots are walked, every entry is named relative to the
base, and two that would meet somewhere are refused before a byte is written. -/
namespace Norte.Archive.Pack

open Sync (Entry EntryKind HangsOff)
open Rename (FoldMode)
open Zip (PackEntry)

/-- The two calls of a provider that the walk makes. A listing can break off. -/
structure Provider (E : Type) where
  stat : VPath → Except E Entry
  list : VPath → Except E (List (Except E Entry))

/-- Why the walk gave up: asked to, by the provider, or by itself. -/
inductive WalkError (E : Type) where
  | cancelled
  | provider (e : E)
  | invalidPath
  | exists_
  deriving DecidableEq

structure Piece where
  path : VPath
  entry : PackEntry
  deriving DecidableEq

def maxEntryNameBytes : Nat := 4096
def maxEntryDepth : Nat := 64

/-- The name of `p` below `base`, of which no component may be the marker of an archive. -/
def relativeName (base p : VPath) : Option Bytes :=
  if p.scheme ≠ base.scheme ∨ p.authority ≠ base.authority then none
  else if p.segments.length ≤ base.segments.length ∨ ¬base.segments <+: p.segments then none
  else
    let tail := (p.segments.drop base.segments.length).map Segment.bytes
    if tail.any fun s => s = ['!'.toUInt8] then none else some ([slash].intercalate tail)

/-- `PackEntry::file` and `PackEntry::dir`. -/
def fileEntry (name : Bytes) (size : UInt64) : PackEntry := ⟨name, size, false, none, none⟩

def dirEntry (name : Bytes) : PackEntry := ⟨name, 0, true, none, none⟩

/-- A name that the index would skip when it reads the archive. -/
def exceeds (name : Bytes) : Bool := maxEntryNameBytes < name.length || maxEntryDepth < (name.splitOn slash).length

/-- Nobody follows or stores a link. -/
def pieceOf (e : Entry) (p : VPath) (name : Bytes) : Option Piece :=
  match e.kind with
  | .dir => some ⟨p, dirEntry name⟩
  | .file => some ⟨p, { fileEntry name (e.size.getD 0) with mtimeMs := e.mtimeMs }⟩
  | .symlink | .other => none

/-- A subtree that this actor may not walk. -/
def isExcluded (excluded : List VPath) (p : VPath) : Bool := excluded.any fun root => Policy.isUnder root p

section Walk

/-- The paths a stream hands out, up to its first error. -/
def drain {E : Type} : List (Except E Entry) → Except (WalkError E) (List VPath)
  | [] => .ok []
  | .error e :: _ => .error (.provider e)
  | .ok child :: rest => (drain rest).map (child.path :: ·)

variable {E : Type} (provider : Provider E) (excluded : List VPath) (base : VPath) (isCancelled : Nat → Bool)

/-- What is below a directory, or that its listing broke off. -/
def children (e : Entry) (p : VPath) : Except (WalkError E) (List VPath) :=
  if e.kind = .dir then
    match provider.list p with
    | .error e => .error (.provider e)
    | .ok stream => drain stream
  else .ok []

/-- One path taken off the stack: what it adds, and what is pushed. -/
def visit (p : VPath) : Except (WalkError E) (List Piece × List VPath) :=
  if isExcluded excluded p then .ok ([], [])
  else match provider.stat p with
    | .error e => .error (.provider e)
    | .ok e =>
      match relativeName base p with
      | none => .error .invalidPath
      | some name =>
        if exceeds name then .error .invalidPath
        else do
          let below ← children provider e p
          return ((pieceOf e p name).toList, below)

/-- The stack of one root, its top first; every round asks whether to go on, and `polls` of
these questions were asked before. -/
def walkRoot : Nat → Nat → List VPath → Option (Except (WalkError E) (Nat × List Piece))
  | _, polls, [] => some (.ok (polls, []))
  | 0, _, _ :: _ => none
  | fuel + 1, polls, p :: pending =>
    if isCancelled polls then some (.error .cancelled)
    else match visit provider excluded base p with
      | .error e => some (.error e)
      | .ok (pieces, below) =>
        match walkRoot fuel (polls + 1) (below.reverse ++ pending) with
        | some (.ok (polls, rest)) => some (.ok (polls, pieces ++ rest))
        | other => other

end Walk

section Sources

variable {E : Type} (excluded : List VPath) (base : VPath) (isCancelled : Nat → Bool)

def walkAll (fuel : Nat) : Nat → List (Provider E × VPath) → Option (Except (WalkError E) (List Piece))
  | _, [] => some (.ok [])
  | polls, (provider, root) :: sources =>
    if isCancelled polls then some (.error .cancelled)
    else match walkRoot provider excluded base isCancelled fuel (polls + 1) [root] with
      | none => none
      | some (.error e) => some (.error e)
      | some (.ok (polls, pieces)) =>
        match walkAll fuel polls sources with
        | some (.ok rest) => some (.ok (pieces ++ rest))
        | other => other

def le (a b : Bytes) : Prop := (compare a b).isLE = true

instance : DecidableRel le := fun _ _ => instDecidableEqBool _ _

/-- `windows(2)` of a sorted list. -/
def adjacentEqual : List Bytes → Bool
  | a :: b :: rest => a = b || adjacentEqual (b :: rest)
  | _ => false

/-- Sorted by name; two equal names, or two that fold to one, are refused. -/
def walkSources (nameKey : Bytes → FoldMode → Bytes) (fuel : Nat) (sources : List (Provider E × VPath)) :
    Option (Except (WalkError E) (List Piece)) :=
  match walkAll excluded base isCancelled fuel 0 sources with
  | some (.ok found) =>
    let out := found.insertionSort fun a b => le a.entry.name b.entry.name
    if adjacentEqual (out.map fun p => p.entry.name) then some (.error .exists_)
    else
      let keys := (out.map fun p => nameKey p.entry.name .full).insertionSort le
      if adjacentEqual keys then some (.error .exists_) else some (.ok out)
  | other => other

end Sources

/-! Duplicates of a sorted list are neighbours. -/

theorem le_antisymm {a b : Bytes} (first : le a b) (second : le b a) : a = b := by
  have back : compare b a = (compare a b).swap := Std.OrientedCmp.eq_swap
  rw [le] at first second
  rw [back] at second
  cases order : compare a b with
  | eq => exact Std.LawfulEqCmp.eq_of_compare order
  | lt =>
    rw [order] at second
    cases second
  | gt =>
    rw [order] at first
    cases first

instance : Std.Total le where
  total a b := by
    have back : compare b a = (compare a b).swap := Std.OrientedCmp.eq_swap
    simp only [le]
    rw [back]
    cases compare a b <;> simp

instance : IsTrans Bytes le := ⟨fun _ _ _ first second => Std.TransCmp.isLE_trans first second⟩

theorem adjacentEqual_iff {names : List Bytes} (sorted : names.Pairwise le) :
    adjacentEqual names = false ↔ names.Nodup := by
  induction sorted with
  | nil => exact iff_of_true rfl List.nodup_nil
  | @cons a rest below sorted ih =>
    cases rest with
    | nil => exact iff_of_true rfl (List.nodup_singleton a)
    | cons b rest =>
      have neighbour : a = b ↔ a ∈ b :: rest := by
        constructor
        · rintro rfl
          exact List.mem_cons_self
        · intro member
          rcases List.mem_cons.mp member with same | later
          · exact same
          · -- What is between two equal names is equal to them.
            exact le_antisymm (below b List.mem_cons_self) ((List.pairwise_cons.mp sorted).1 a later)
      rw [adjacentEqual, Bool.or_eq_false_iff, decide_eq_false_iff_not, ih, List.nodup_cons (a := a), neighbour]

/-! Where the pieces come from, and what the walk is refused for. -/

/-- The paths that a walk comes by, from one that is on the stack. -/
inductive Reached {E : Type} (provider : Provider E) (excluded : List VPath) : VPath → VPath → Prop where
  | self (p : VPath) : Reached provider excluded p p
  | inside {p q : VPath} {e child : Entry} {stream : List (Except E Entry)} (free : ¬isExcluded excluded p)
      (found : provider.stat p = .ok e) (dir : e.kind = .dir) (listed : provider.list p = .ok stream)
      (member : .ok child ∈ stream) (rest : Reached provider excluded child.path q) : Reached provider excluded p q

/-- A name the walk does not take: outside the base, with a marker in it, or past a cap. -/
def Refused (base p : VPath) : Prop := ∀ name, relativeName base p = some name → exceeds name

variable {E : Type} {provider : Provider E} {excluded : List VPath} {base : VPath} {isCancelled : Nat → Bool}

theorem mem_drain {stream : List (Except E Entry)} {below : List VPath} (drained : drain stream = .ok below)
    {c : VPath} : c ∈ below ↔ ∃ e, .ok e ∈ stream ∧ e.path = c := by
  induction stream generalizing below with
  | nil =>
    obtain rfl := Except.ok.inj drained
    simp
  | cons first rest ih =>
    cases first with
    | error e => cases drained
    | ok child =>
      rw [drain] at drained
      cases tail : drain rest with
      | error e =>
        rw [tail] at drained
        cases drained
      | ok paths =>
        rw [tail] at drained
        obtain rfl := Except.ok.inj drained
        rw [List.mem_cons, ih tail]
        constructor
        · rintro (rfl | ⟨e, inside, same⟩)
          · exact ⟨child, List.mem_cons_self, rfl⟩
          · exact ⟨e, List.mem_cons_of_mem _ inside, same⟩
        · rintro ⟨e, inside, same⟩
          rcases List.mem_cons.mp inside with first | later
          · obtain rfl := Except.ok.inj first
            exact .inl same.symm
          · exact .inr ⟨e, later, same⟩

theorem drain_error {stream : List (Except E Entry)} {failed : WalkError E} (drained : drain stream = .error failed) :
    ∃ e, failed = .provider e := by
  induction stream with
  | nil => cases drained
  | cons first rest ih =>
    cases first with
    | error e => exact ⟨e, (Except.error.inj drained).symm⟩
    | ok child =>
      rw [drain] at drained
      cases tail : drain rest with
      | ok paths =>
        rw [tail] at drained
        cases drained
      | error e =>
        rw [tail] at drained
        obtain rfl := Except.error.inj drained
        exact ih tail

theorem pieceOf_path {e : Entry} {p : VPath} {name : Bytes} {piece : Piece} (made : pieceOf e p name = some piece) :
    piece.path = p := by
  unfold pieceOf at made
  split at made
  · obtain rfl := Option.some.inj made
    rfl
  · obtain rfl := Option.some.inj made
    rfl
  · cases made
  · cases made

/-- What one visit comes to: a subtree that is left out, or an entry with a name that fits,
and below a directory what its listing holds. -/
theorem visit_ok {p : VPath} {pieces : List Piece} {below : List VPath}
    (visited : visit provider excluded base p = .ok (pieces, below)) :
    isExcluded excluded p ∧ pieces = [] ∧ below = [] ∨
      ¬isExcluded excluded p ∧ ∃ e name, provider.stat p = .ok e ∧ relativeName base p = some name ∧
        exceeds name = false ∧ pieces = (pieceOf e p name).toList ∧
          (e.kind = .dir ∧ (∃ stream, provider.list p = .ok stream ∧ ∀ c, c ∈ below ↔ ∃ e, .ok e ∈ stream ∧ e.path = c) ∨
            e.kind ≠ .dir ∧ below = []) := by
  unfold visit at visited
  split at visited
  next left_ =>
    obtain ⟨rfl, rfl⟩ := Prod.mk.inj (Except.ok.inj visited)
    exact .inl ⟨left_, rfl, rfl⟩
  next free =>
    refine .inr ⟨free, ?_⟩
    split at visited
    · cases visited
    next e found =>
      split at visited
      · cases visited
      next name named =>
        split at visited
        · cases visited
        next fits =>
          cases listed : children provider e p with
          | error failed =>
            rw [listed] at visited
            cases visited
          | ok paths =>
            rw [listed] at visited
            obtain ⟨rfl, rfl⟩ := Prod.mk.inj (Except.ok.inj visited)
            refine ⟨e, name, found, named, Bool.eq_false_iff.mpr fits, rfl, ?_⟩
            unfold children at listed
            split at listed
            next dir =>
              split at listed
              · cases listed
              next stream at_ => exact .inl ⟨dir, stream, at_, fun c => mem_drain listed⟩
            next other => exact .inr ⟨other, (Except.ok.inj listed).symm⟩

theorem visit_error {p : VPath} {failed : WalkError E} (visited : visit provider excluded base p = .error failed) :
    (∃ e, failed = .provider e) ∨ failed = .invalidPath ∧ Refused base p := by
  unfold visit at visited
  split at visited
  · cases visited
  split at visited
  next e _ => exact .inl ⟨e, (Except.error.inj visited).symm⟩
  next e _ =>
    split at visited
    next outside =>
      refine .inr ⟨(Except.error.inj visited).symm, ?_⟩
      intro name named
      rw [outside] at named
      cases named
    next name named =>
      split at visited
      next long =>
        refine .inr ⟨(Except.error.inj visited).symm, ?_⟩
        intro other same
        rw [named] at same
        obtain rfl := Option.some.inj same
        exact long
      next =>
        cases listed : children provider e p with
        | ok paths =>
          rw [listed] at visited
          cases visited
        | error cause =>
          rw [listed] at visited
          obtain rfl := Except.error.inj visited
          unfold children at listed
          split at listed
          · split at listed
            next e _ => exact .inl ⟨e, (Except.error.inj listed).symm⟩
            · exact .inl (drain_error listed)
          · cases listed

/-- A path with an entry in the archive, found by the walk of one root. -/
structure Stored {E : Type} (provider : Provider E) (excluded : List VPath) (root : VPath) (e : Entry) (p : VPath) :
    Prop where
  reached : Reached provider excluded root p
  free : ¬isExcluded excluded p
  found : provider.stat p = .ok e
  kind : e.kind = .dir ∨ e.kind = .file

/-- The pieces of a walk are what it comes by and stores, under names that fit. -/
structure Collects {E : Type} (provider : Provider E) (excluded : List VPath) (base : VPath) (pending : List VPath)
    (pieces : List Piece) : Prop where
  origin : ∀ piece ∈ pieces, ∃ root ∈ pending, ∃ e name, Stored provider excluded root e piece.path ∧
    relativeName base piece.path = some name ∧ exceeds name = false ∧ pieceOf e piece.path name = some piece
  complete : ∀ root ∈ pending, ∀ e p, Stored provider excluded root e p → ∃ piece ∈ pieces, piece.path = p ∧
    ∃ name, relativeName base p = some name ∧ pieceOf e p name = some piece

theorem pieceOf_kind {e : Entry} {p : VPath} {name : Bytes} {piece : Piece} (made : pieceOf e p name = some piece) :
    e.kind = .dir ∨ e.kind = .file := by
  unfold pieceOf at made
  split at made
  next dir => exact .inl dir
  next file => exact .inr file
  · cases made
  · cases made

theorem pieceOf_isSome {e : Entry} (p : VPath) (name : Bytes) (kind : e.kind = .dir ∨ e.kind = .file) :
    ∃ piece, pieceOf e p name = some piece := by
  rcases kind with dir | file
  · exact ⟨⟨p, dirEntry name⟩, by rw [pieceOf, dir]⟩
  · exact ⟨⟨p, { fileEntry name (e.size.getD 0) with mtimeMs := e.mtimeMs }⟩, by rw [pieceOf, file]⟩

/-- One visit, and the walk of what is left then. -/
theorem Collects.visit {p : VPath} {pending : List VPath} {pieces rest : List Piece} {below : List VPath}
    (visited : visit provider excluded base p = .ok (pieces, below))
    (collects : Collects provider excluded base (below.reverse ++ pending) rest) :
    Collects provider excluded base (p :: pending) (pieces ++ rest) := by
  rcases visit_ok visited with ⟨left_, rfl, rfl⟩ | ⟨free, e, name, found, named, fits, rfl, listing⟩
  · refine ⟨?_, ?_⟩
    · intro piece member
      obtain ⟨root, waiting, origin⟩ := collects.origin piece member
      exact ⟨root, List.mem_cons_of_mem _ waiting, origin⟩
    · intro root member e q stored
      rcases List.mem_cons.mp member with rfl | waiting
      · exfalso
        cases stored.reached with
        | self => exact stored.free left_
        | inside free => exact free left_
      · exact collects.complete root waiting e q stored
  · refine ⟨?_, ?_⟩
    · intro piece member
      rcases List.mem_append.mp member with own | later
      · have made := Option.mem_toList.mp own
        obtain rfl := pieceOf_path made
        exact ⟨piece.path, List.mem_cons_self, e, name, ⟨.self _, free, found, pieceOf_kind made⟩, named, fits, made⟩
      · obtain ⟨root, waiting, e', name', stored, origin⟩ := collects.origin piece later
        rcases List.mem_append.mp waiting with new | old
        · rcases listing with ⟨dir, stream, listed, paths⟩ | ⟨_, rfl⟩
          · obtain ⟨child, inside, rfl⟩ := (paths root).mp (List.mem_reverse.mp new)
            exact ⟨p, List.mem_cons_self, e', name',
              { stored with reached := .inside free found dir listed inside stored.reached }, origin⟩
          · cases new
        · exact ⟨root, List.mem_cons_of_mem _ old, e', name', stored, origin⟩
    · intro root member e' q stored
      have later (waiting : root ∈ below.reverse ++ pending) : ∃ piece ∈ (pieceOf e p name).toList ++ rest,
          piece.path = q ∧ ∃ name, relativeName base q = some name ∧ pieceOf e' q name = some piece := by
        obtain ⟨piece, inside, made⟩ := collects.complete root waiting e' q stored
        exact ⟨piece, List.mem_append_right _ inside, made⟩
      rcases List.mem_cons.mp member with rfl | waiting
      · obtain ⟨reached, free', found', kind⟩ := stored
        cases reached with
        | self =>
          rw [found] at found'
          obtain rfl := Except.ok.inj found'
          obtain ⟨piece, made⟩ := pieceOf_isSome root name kind
          refine ⟨piece, List.mem_append_left _ (Option.mem_toList.mpr made), pieceOf_path made, name, named, made⟩
        | @inside _ _ e'' child stream _ again dir listed inside reached =>
          rw [found] at again
          obtain rfl := Except.ok.inj again
          rcases listing with ⟨_, stream', listed', paths⟩ | ⟨other, _⟩
          · rw [listed] at listed'
            obtain rfl := Except.ok.inj listed'
            have waiting := (paths child.path).mpr ⟨child, inside, rfl⟩
            obtain ⟨piece, member', made⟩ := collects.complete child.path
              (List.mem_append_left _ (List.mem_reverse.mpr waiting)) e' q ⟨reached, free', found', kind⟩
            exact ⟨piece, List.mem_append_right _ member', made⟩
          · exact absurd dir other
      · exact later (List.mem_append_right _ waiting)

/-- Why the walk of these paths gives up. -/
def GivesUp {E : Type} (provider : Provider E) (excluded : List VPath) (base : VPath) (pending : List VPath)
    (failed : WalkError E) : Prop :=
  failed = .cancelled ∨ (∃ e, failed = .provider e) ∨
    failed = .invalidPath ∧ ∃ root ∈ pending, ∃ p, Reached provider excluded root p ∧ Refused base p

theorem walkRoot_spec {fuel polls : Nat} {pending : List VPath} {answer : Except (WalkError E) (Nat × List Piece)}
    (walked : walkRoot provider excluded base isCancelled fuel polls pending = some answer) :
    (∀ n pieces, answer = .ok (n, pieces) → Collects provider excluded base pending pieces) ∧
      ∀ failed, answer = .error failed → GivesUp provider excluded base pending failed := by
  induction fuel generalizing polls pending answer with
  | zero =>
    cases pending with
    | nil =>
      obtain rfl := Option.some.inj walked
      refine ⟨?_, fun failed none_ => (by cases none_)⟩
      intro n pieces same
      obtain ⟨_, rfl⟩ := Prod.mk.inj (Except.ok.inj same)
      exact ⟨fun _ none_ => absurd none_ List.not_mem_nil, fun _ none_ => absurd none_ List.not_mem_nil⟩
    | cons p pending => cases walked
  | succ fuel ih =>
    cases pending with
    | nil =>
      obtain rfl := Option.some.inj walked
      refine ⟨?_, fun failed none_ => (by cases none_)⟩
      intro n pieces same
      obtain ⟨_, rfl⟩ := Prod.mk.inj (Except.ok.inj same)
      exact ⟨fun _ none_ => absurd none_ List.not_mem_nil, fun _ none_ => absurd none_ List.not_mem_nil⟩
    | cons p pending =>
      rw [walkRoot] at walked
      split at walked
      · obtain rfl := Option.some.inj walked
        exact ⟨fun n pieces none_ => (by cases none_), fun failed same => .inl (Except.error.inj same).symm⟩
      split at walked
      next failed visited =>
        obtain rfl := Option.some.inj walked
        refine ⟨fun n pieces none_ => (by cases none_), fun other same => ?_⟩
        obtain rfl := Except.error.inj same
        rcases visit_error visited with failing | ⟨invalid, refused⟩
        · exact .inr (.inl failing)
        · exact .inr (.inr ⟨invalid, p, List.mem_cons_self, p, .self p, refused⟩)
      next pieces below visited =>
        cases later : walkRoot provider excluded base isCancelled fuel (polls + 1) (below.reverse ++ pending) with
        | none =>
          rw [later] at walked
          cases walked
        | some rest =>
          obtain ⟨collects, gives⟩ := ih later
          rw [later] at walked
          cases rest with
          | error failed =>
            obtain rfl := Option.some.inj walked
            refine ⟨fun n pieces none_ => (by cases none_), fun other same => ?_⟩
            rcases gives other same with stopped | failing | ⟨invalid, root, waiting, q, reached, refused⟩
            · exact .inl stopped
            · exact .inr (.inl failing)
            · refine .inr (.inr ⟨invalid, ?_⟩)
              rcases List.mem_append.mp waiting with new | old
              · rcases visit_ok visited with ⟨_, _, rfl⟩ | ⟨free, e, name, found, _, _, _, listing⟩
                · cases new
                · rcases listing with ⟨dir, stream, listed, paths⟩ | ⟨_, rfl⟩
                  · obtain ⟨child, inside, rfl⟩ := (paths root).mp (List.mem_reverse.mp new)
                    exact ⟨p, List.mem_cons_self, q, .inside free found dir listed inside reached, refused⟩
                  · cases new
              · exact ⟨root, List.mem_cons_of_mem _ old, q, reached, refused⟩
          | ok answered =>
            obtain ⟨n, more⟩ := answered
            obtain rfl := Option.some.inj walked
            refine ⟨?_, fun failed none_ => (by cases none_)⟩
            intro n' pieces' same
            obtain ⟨_, rfl⟩ := Prod.mk.inj (Except.ok.inj same)
            exact (collects n more rfl).visit visited

/-- The same of all roots, each with its own provider. -/
structure CollectsAll {E : Type} (excluded : List VPath) (base : VPath) (sources : List (Provider E × VPath))
    (pieces : List Piece) : Prop where
  origin : ∀ piece ∈ pieces, ∃ src ∈ sources, ∃ e name, Stored src.1 excluded src.2 e piece.path ∧
    relativeName base piece.path = some name ∧ exceeds name = false ∧ pieceOf e piece.path name = some piece
  complete : ∀ src ∈ sources, ∀ e p, Stored src.1 excluded src.2 e p → ∃ piece ∈ pieces, piece.path = p ∧
    ∃ name, relativeName base p = some name ∧ pieceOf e p name = some piece

def GivesUpAll {E : Type} (excluded : List VPath) (base : VPath) (sources : List (Provider E × VPath))
    (failed : WalkError E) : Prop :=
  failed = .cancelled ∨ (∃ e, failed = .provider e) ∨
    failed = .invalidPath ∧ ∃ src ∈ sources, ∃ p, Reached src.1 excluded src.2 p ∧ Refused base p

theorem Collects.source {root : VPath} {pieces rest : List Piece} {sources : List (Provider E × VPath)}
    (first : Collects provider excluded base [root] pieces) (later : CollectsAll excluded base sources rest) :
    CollectsAll excluded base ((provider, root) :: sources) (pieces ++ rest) where
  origin piece member := by
    rcases List.mem_append.mp member with own | other
    · obtain ⟨from_, waiting, origin⟩ := first.origin piece own
      rw [List.mem_singleton.mp waiting] at origin
      exact ⟨_, List.mem_cons_self, origin⟩
    · obtain ⟨src, inside, origin⟩ := later.origin piece other
      exact ⟨src, List.mem_cons_of_mem _ inside, origin⟩
  complete src member e p stored := by
    rcases List.mem_cons.mp member with rfl | other
    · obtain ⟨piece, inside, made⟩ := first.complete root List.mem_cons_self e p stored
      exact ⟨piece, List.mem_append_left _ inside, made⟩
    · obtain ⟨piece, inside, made⟩ := later.complete src other e p stored
      exact ⟨piece, List.mem_append_right _ inside, made⟩

theorem walkAll_spec {fuel polls : Nat} {sources : List (Provider E × VPath)}
    {answer : Except (WalkError E) (List Piece)}
    (walked : walkAll excluded base isCancelled fuel polls sources = some answer) :
    (∀ pieces, answer = .ok pieces → CollectsAll excluded base sources pieces) ∧
      ∀ failed, answer = .error failed → GivesUpAll excluded base sources failed := by
  induction sources generalizing polls answer with
  | nil =>
    obtain rfl := Option.some.inj walked
    refine ⟨?_, fun failed none_ => (by cases none_)⟩
    intro pieces same
    obtain rfl := Except.ok.inj same
    exact ⟨fun _ none_ => absurd none_ List.not_mem_nil, fun _ none_ => absurd none_ List.not_mem_nil⟩
  | cons src sources ih =>
    obtain ⟨provider, root⟩ := src
    rw [walkAll] at walked
    split at walked
    · obtain rfl := Option.some.inj walked
      exact ⟨fun pieces none_ => (by cases none_), fun failed same => .inl (Except.error.inj same).symm⟩
    split at walked
    · cases walked
    next failed first =>
      obtain rfl := Option.some.inj walked
      refine ⟨fun pieces none_ => (by cases none_), fun other same => ?_⟩
      obtain rfl := Except.error.inj same
      rcases (walkRoot_spec first).2 failed rfl with stopped | failing | ⟨invalid, from_, waiting, p, reached, refused⟩
      · exact .inl stopped
      · exact .inr (.inl failing)
      · rw [List.mem_singleton.mp waiting] at reached
        exact .inr (.inr ⟨invalid, _, List.mem_cons_self, p, reached, refused⟩)
    next n pieces first =>
      have collects := (walkRoot_spec first).1 n pieces rfl
      cases later : walkAll excluded base isCancelled fuel n sources with
      | none =>
        rw [later] at walked
        cases walked
      | some rest =>
        obtain ⟨others, gives⟩ := ih later
        rw [later] at walked
        cases rest with
        | error failed =>
          obtain rfl := Option.some.inj walked
          refine ⟨fun pieces none_ => (by cases none_), fun other same => ?_⟩
          rcases gives other same with stopped | failing | ⟨invalid, src, member, refused⟩
          · exact .inl stopped
          · exact .inr (.inl failing)
          · exact .inr (.inr ⟨invalid, src, List.mem_cons_of_mem _ member, refused⟩)
        | ok more =>
          obtain rfl := Option.some.inj walked
          refine ⟨?_, fun failed none_ => (by cases none_)⟩
          intro pieces' same
          obtain rfl := Except.ok.inj same
          exact collects.source (others more rfl)

section Sorted

variable {nameKey : Bytes → FoldMode → Bytes} {fuel : Nat} {sources : List (Provider E × VPath)}

theorem names_pairwise (pieces : List Piece) :
    ((pieces.insertionSort fun a b => le a.entry.name b.entry.name).map fun p => p.entry.name).Pairwise le := by
  have total : Std.Total fun a b : Piece => le a.entry.name b.entry.name := ⟨fun _ _ => Std.Total.total _ _⟩
  have trans : IsTrans Piece fun a b => le a.entry.name b.entry.name :=
    ⟨fun _ _ _ first second => IsTrans.trans _ _ _ first second⟩
  exact List.pairwise_map.mpr (List.pairwise_insertionSort _ _)

/-- What is handed on is what was found, and no two names of it meet. -/
theorem walkSources_ok {pieces : List Piece}
    (walked : walkSources excluded base isCancelled nameKey fuel sources = some (.ok pieces)) :
    CollectsAll excluded base sources pieces ∧ (pieces.map fun p => p.entry.name).Nodup ∧
      (pieces.map fun p => nameKey p.entry.name .full).Nodup := by
  unfold walkSources at walked
  split at walked
  next found collected =>
    dsimp only at walked
    split at walked
    · cases walked
    next apart =>
      split at walked
      · cases walked
      next folded =>
        obtain rfl := Except.ok.inj (Option.some.inj walked)
        obtain ⟨origin, complete⟩ := (walkAll_spec collected).1 found rfl
        refine ⟨⟨?_, ?_⟩, ?_, ?_⟩
        · exact fun piece member => origin piece ((List.mem_insertionSort _).mp member)
        · intro src member e p stored
          obtain ⟨piece, inside, made⟩ := complete src member e p stored
          exact ⟨piece, (List.mem_insertionSort _).mpr inside, made⟩
        · exact (adjacentEqual_iff (names_pairwise found)).mp (Bool.eq_false_iff.mpr apart)
        · have keys := (adjacentEqual_iff (List.pairwise_insertionSort le _)).mp (Bool.eq_false_iff.mpr folded)
          exact (List.perm_insertionSort _ _).nodup_iff.mp keys
  next other => exact absurd walked (other _)

/-- Two of the names that were found meet, as they are or folded. -/
def Collide (nameKey : Bytes → FoldMode → Bytes) (found : List Piece) : Prop :=
  ¬(found.map fun p => p.entry.name).Nodup ∨ ¬(found.map fun p => nameKey p.entry.name .full).Nodup

theorem walkSources_error {failed : WalkError E}
    (walked : walkSources excluded base isCancelled nameKey fuel sources = some (.error failed)) :
    GivesUpAll excluded base sources failed ∨ failed = .exists_ ∧
      ∃ found, walkAll excluded base isCancelled fuel 0 sources = some (.ok found) ∧ Collide nameKey found := by
  unfold walkSources at walked
  split at walked
  next found collected =>
    dsimp only at walked
    have sorted : (found.insertionSort fun a b => le a.entry.name b.entry.name).Perm found :=
      List.perm_insertionSort _ _
    split at walked
    next equal =>
      refine .inr ⟨(Except.error.inj (Option.some.inj walked)).symm, found, collected, .inl fun nodup => ?_⟩
      have apart := (adjacentEqual_iff (names_pairwise found)).mpr ((sorted.map _).nodup_iff.mpr nodup)
      rw [apart] at equal
      cases equal
    · split at walked
      next equal =>
        refine .inr ⟨(Except.error.inj (Option.some.inj walked)).symm, found, collected, .inr fun nodup => ?_⟩
        have keys := ((List.perm_insertionSort le _).trans (sorted.map fun p => nameKey p.entry.name .full)).nodup_iff.mpr nodup
        rw [(adjacentEqual_iff (List.pairwise_insertionSort le _)).mpr keys] at equal
        cases equal
      · cases Option.some.inj walked
  · exact .inl ((walkAll_spec walked).2 failed rfl)

end Sorted

end Norte.Archive.Pack
