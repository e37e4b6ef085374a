import Mathlib.Logic.Function.Basic
import Norte.SyncCuts

/-! What the calls do to a tree and its trash, as an abstract world the marks of a log are
replayed on. Trash and tree are kept apart: a burial cuts a subtree off, and putting it
back grafts it where it was. -/
namespace Norte.Sync

open Chain (NewEntry)

@[simp] theorem under_nil (root : VPath) : under root ⟨[]⟩ = root := rfl

theorem under_eq (root : VPath) (rel : RelPath) :
    under root rel = { root with segments := root.segments ++ rel.segments } := by
  obtain ⟨segments⟩ := rel
  induction segments generalizing root with
  | nil => simp
  | cons s rest ih =>
    have := ih (root.join s)
    simp only [under, List.foldl_cons, VPath.join] at this ⊢
    rw [this]
    simp

theorem under_join (root : VPath) (segments : List Segment) (s : Segment) :
    under root ⟨segments ++ [s]⟩ = (under root ⟨segments⟩).join s := by
  simp [under]

theorem relPath_under (root : VPath) (rel : RelPath) : RelPath.under root (under root rel) = some rel := by
  simp [RelPath.under, under_eq]

theorem eq_under {root path : VPath} {rel : RelPath} (found : RelPath.under root path = some rel) :
    path = under root rel := by
  unfold RelPath.under at found
  split at found
  · exact nomatch found
  rename_i same
  split at found
  · rename_i hangs
    obtain ⟨rest, whole⟩ := hangs
    obtain rfl := Option.some.inj found
    obtain ⟨scheme, authority, segments⟩ := path
    simp only [not_or, not_not] at same
    obtain ⟨rfl, rfl⟩ := same
    simp only at whole
    subst whole
    simp [under_eq]
  · exact nomatch found

theorem join_ne_self (path : VPath) (s : Segment) : path.join s ≠ path := by
  intro same
  have := congrArg (fun p => p.segments.length) same
  simp [VPath.join] at this

theorem join_injective {p q : VPath} {s t : Segment} (same : p.join s = q.join t) : p = q ∧ s = t := by
  obtain ⟨scheme, authority, segments⟩ := p
  obtain ⟨scheme', authority', segments'⟩ := q
  simp only [VPath.join, VPath.mk.injEq] at same
  obtain ⟨rfl, rfl, together⟩ := same
  obtain ⟨rfl, tail⟩ := List.append_inj' together rfl
  exact ⟨rfl, List.singleton_injective tail⟩

/-- A tree by what stands at each path. -/
def Tree := VPath → Option Node

namespace Tree

/-- Whatever stands somewhere stands in a directory. -/
def WellFormed (t : Tree) : Prop := ∀ p s, t (p.join s) ≠ none → t p = some .dir

def InDir (t : Tree) (path : VPath) : Prop := ∃ p s, path = p.join s ∧ t p = some .dir

def make (t : Tree) (path : VPath) (node : Node) : Tree := fun q => if q = path then some node else t q

def cut (t : Tree) (path : VPath) : Tree := fun q => if (RelPath.under path q).isSome then none else t q

def below (t : Tree) (path : VPath) : RelPath → Option Node := fun rel => t (under path rel)

def graft (t : Tree) (path : VPath) (payload : RelPath → Option Node) : Tree := fun q =>
  match RelPath.under path q with
  | some rel => payload rel
  | none => t q

variable {t : Tree} {path : VPath}

/-- Putting back what was cut off gives the tree back. -/
theorem graft_cut (t : Tree) (path : VPath) : (t.cut path).graft path (t.below path) = t := by
  funext q
  unfold graft cut below
  cases found : RelPath.under path q with
  | none => simp
  | some rel => exact congrArg t (eq_under found).symm

theorem WellFormed.empty_below (wf : t.WellFormed) (free : t path = none) (rel : RelPath) :
    t (under path rel) = none := by
  obtain ⟨segments⟩ := rel
  induction segments using List.reverseRecOn with
  | nil => exact free
  | append_singleton segments s ih =>
    by_contra there
    rw [under_join] at there
    exact absurd (ih.symm.trans (wf _ _ there)) nofun

/-- Cutting off what was made where nothing stood gives the tree back. -/
theorem WellFormed.cut_make (wf : t.WellFormed) (free : t path = none) (node : Node) :
    (t.make path node).cut path = t := by
  funext q
  unfold cut make
  cases found : RelPath.under path q with
  | none =>
    have other : q ≠ path := by
      rintro rfl
      exact absurd ((relPath_under q ⟨[]⟩).symm.trans found) nofun
    simp [other]
  | some rel => simpa [eq_under found] using (wf.empty_below free rel).symm

theorem InDir.make (parent : t.InDir path) (node : Node) : (t.make path node).InDir path := by
  obtain ⟨p, s, rfl, dir⟩ := parent
  refine ⟨p, s, rfl, ?_⟩
  rw [Tree.make, if_neg (join_ne_self p s).symm, dir]

theorem InDir.cut (parent : t.InDir path) : (t.cut path).InDir path := by
  obtain ⟨p, s, rfl, dir⟩ := parent
  refine ⟨p, s, rfl, ?_⟩
  have above : RelPath.under (p.join s) p = none := by
    cases found : RelPath.under (p.join s) p with
    | none => rfl
    | some rel =>
      have long := congrArg (fun q => q.segments.length) (eq_under found)
      simp [under_eq, VPath.join] at long
  simp [Tree.cut, above, dir]

theorem WellFormed.make (wf : t.WellFormed) (free : t path = none) (parent : t.InDir path) (node : Node) :
    (t.make path node).WellFormed := by
  intro p s there
  unfold Tree.make at there ⊢
  split at there
  · rename_i at_
    obtain ⟨q, s', rfl, dir⟩ := parent
    obtain ⟨rfl, rfl⟩ := join_injective at_
    rw [if_neg (join_ne_self p s).symm, dir]
  · have dir := wf p s there
    rw [if_neg, dir]
    rintro rfl
    exact absurd (free.symm.trans dir) nofun

theorem WellFormed.cut (wf : t.WellFormed) (path : VPath) : (t.cut path).WellFormed := by
  intro p s there
  unfold Tree.cut at there ⊢
  cases found : RelPath.under path p with
  | none =>
    split at there
    · exact absurd rfl there
    · simpa using wf p s there
  | some rel =>
    have child : RelPath.under path (p.join s) = some ⟨rel.segments ++ [s]⟩ := by
      rw [eq_under found, ← under_join, relPath_under]
    simp [child] at there

end Tree

/-- A tree and its trash, by the places of the buried. -/
structure World where
  tree : Tree
  trash : VPath → Option (RelPath → Option Node)

namespace World

def apply (w : World) : Mark → World
  | .made path node => { w with tree := w.tree.make path node }
  | .buried path there => ⟨w.tree.cut path, match there with
    | some place => Function.update w.trash place (some (w.tree.below path))
    | none => w.trash⟩
  | .removed path => { w with tree := w.tree.cut path }
  | .putBack there path =>
    match w.trash there with
    | some payload => ⟨w.tree.graft path payload, Function.update w.trash there none⟩
    | none => w
  | .row _ _ => w

/-- What can be done to a tree: to make something where nothing stands, in a directory; to
bury what is in a directory, in a place of its own; to put a burial back where nothing
stands. -/
def Allows (w : World) : Mark → Prop
  | .made path _ => w.tree path = none ∧ w.tree.InDir path
  | .buried path there => w.tree path ≠ none ∧ w.tree.InDir path ∧ ∃ place, there = some place ∧ w.trash place = none ∧
      place.scheme = path.scheme ∧ place.authority = path.authority
  | .removed path => w.tree path ≠ none
  | .putBack there path => (w.trash there).isSome ∧ w.tree path = none ∧ w.tree.InDir path
  | .row _ _ => True

def replay (w : World) (ms : List Mark) : World := ms.foldl apply w

@[simp] theorem replay_nil (w : World) : w.replay [] = w := rfl

@[simp] theorem replay_append (w : World) (ms ms' : List Mark) :
    w.replay (ms ++ ms') = (w.replay ms).replay ms' := List.foldl_append ..

@[simp] theorem replay_cons (w : World) (m : Mark) (ms : List Mark) :
    w.replay (m :: ms) = (w.apply m).replay ms := rfl

end World

/-- Providers and a journal that can only fail without effect, on the destination `w`. All
rows arrive, with growing numbers, and nobody else touches the tree. -/
structure Honest (b : Behaviour) (w : World) : Prop where
  allows : ∀ before m, b.Marks before m → (w.replay before).Allows m
  sure : ¬b.Late
  records : ¬b.Refuses
  grows : ∀ before entry seq, b.Marks before (.row entry seq) →
    ∀ entry' seq', .row entry' seq' ∈ before → seq' < seq

end Norte.Sync
