import Mathlib.Data.List.Basic
import Mathlib.Logic.Relation

/-! A stack of frames: the first leaves what it emits and is replaced by its children,
until none is left. What is said of one frame and its children is said of all that comes out. -/
namespace Norte.StackWalk

open Relation (ReflTransGen TransGen)

variable {F R : Type*}

/-- What comes out of a stack, to its end. -/
inductive Walks (emits : F → List R) (kids : F → List F) : List F → List R → Prop where
  | nil : Walks emits kids [] []
  | cons {f stack inner rest} : Walks emits kids (kids f) inner → Walks emits kids stack rest →
      Walks emits kids (f :: stack) (emits f ++ (inner ++ rest))

/-- A frame found from `f` by going to children. -/
abbrev Reaches (kids : F → List F) : F → F → Prop := ReflTransGen fun f g => g ∈ kids f

namespace Walks

variable {emits : F → List R} {kids : F → List F} {stack stack' : List F} {out out' : List R}

theorem append (first : Walks emits kids stack out) (second : Walks emits kids stack' out') :
    Walks emits kids (stack ++ stack') (out ++ out') := by
  induction first with
  | nil => exact second
  | cons below _ _ ih =>
    rw [List.append_assoc, List.append_assoc]
    exact cons below ih

theorem unique (first : Walks emits kids stack out) (second : Walks emits kids stack out') : out = out' := by
  induction first generalizing out' with
  | nil =>
    cases second
    rfl
  | cons _ _ ihBelow ihRest =>
    cases second with
    | cons below rest => rw [ihBelow below, ihRest rest]

theorem split {stack stack' : List F} {out : List R} (walks : Walks emits kids (stack ++ stack') out) :
    ∃ first second, out = first ++ second ∧ Walks emits kids stack first ∧ Walks emits kids stack' second := by
  induction stack generalizing out with
  | nil => exact ⟨[], out, rfl, nil, walks⟩
  | cons f stack ih =>
    cases walks with
    | cons below rest =>
      obtain ⟨first, second, rfl, walksFirst, walksSecond⟩ := ih rest
      exact ⟨_, second, by simp only [List.append_assoc], cons below walksFirst, walksSecond⟩

/-- Where going to children comes to an end, the walk does. -/
theorem total (ends : ∀ f ∈ stack, Acc (fun g f => g ∈ kids f) f) : ∃ out, Walks emits kids stack out := by
  have single (f : F) (acc : Acc (fun g f => g ∈ kids f) f) : ∃ out, Walks emits kids (kids f) out := by
    induction acc with
    | intro f _ ih =>
      have each : ∀ gs : List F, (∀ g ∈ gs, g ∈ kids f) → ∃ out, Walks emits kids gs out := by
        intro gs sub
        induction gs with
        | nil => exact ⟨[], nil⟩
        | cons g gs ihGs =>
          obtain ⟨inner, below⟩ := ih g (sub g List.mem_cons_self)
          obtain ⟨rest, walks⟩ := ihGs fun g' inside => sub g' (List.mem_cons_of_mem _ inside)
          exact ⟨_, cons below walks⟩
      exact each _ fun _ inside => inside
  induction stack with
  | nil => exact ⟨[], nil⟩
  | cons f stack ih =>
    obtain ⟨inner, below⟩ := single f (ends f List.mem_cons_self)
    obtain ⟨rest, walks⟩ := ih fun g inside => ends g (List.mem_cons_of_mem _ inside)
    exact ⟨_, cons below walks⟩

theorem mem_iff (walks : Walks emits kids stack out) {r : R} :
    r ∈ out ↔ ∃ f ∈ stack, ∃ g, Reaches kids f g ∧ r ∈ emits g := by
  induction walks with
  | nil => simp
  | @cons f stack inner rest _ _ ihBelow ihRest =>
    rw [List.mem_append, List.mem_append, ihBelow, ihRest]
    constructor
    · rintro (here | ⟨k, kid, g, path, found⟩ | ⟨h, inside, g, path, found⟩)
      · exact ⟨f, List.mem_cons_self, f, .refl, here⟩
      · exact ⟨f, List.mem_cons_self, g, .head kid path, found⟩
      · exact ⟨h, List.mem_cons_of_mem _ inside, g, path, found⟩
    · rintro ⟨h, inside, g, path, found⟩
      rcases List.mem_cons.mp inside with rfl | inside
      · rcases path.cases_head with rfl | ⟨k, kid, path⟩
        · exact .inl found
        · exact .inr (.inl ⟨k, kid, g, path, found⟩)
      · exact .inr (.inr ⟨h, inside, g, path, found⟩)

/-- Two frames are apart when nothing one of them leads to is related to what the other
leads to. What is emitted is then related in the order it comes out. -/
theorem pairwise {Rel : R → R → Prop} {Apart : F → F → Prop}
    (own : ∀ f, (emits f).Pairwise Rel)
    (down : ∀ f k g, k ∈ kids f → Reaches kids k g → ∀ r ∈ emits f, ∀ r' ∈ emits g, Rel r r')
    (across : ∀ f h, Apart f h → ∀ g, Reaches kids f g → ∀ g', Reaches kids h g' →
      ∀ r ∈ emits g, ∀ r' ∈ emits g', Rel r r')
    (siblings : ∀ f, (kids f).Pairwise Apart)
    (walks : Walks emits kids stack out) (apart : stack.Pairwise Apart) : out.Pairwise Rel := by
  induction walks with
  | nil => exact .nil
  | @cons f stack inner rest below later ihBelow ihRest =>
    obtain ⟨first, others⟩ := List.pairwise_cons.mp apart
    refine List.pairwise_append.mpr ⟨own f, List.pairwise_append.mpr ⟨ihBelow (siblings f), ihRest others, ?_⟩, ?_⟩
    · intro r inside r' outside
      obtain ⟨k, kid, g, path, found⟩ := below.mem_iff.mp inside
      obtain ⟨h, other, g', path', found'⟩ := later.mem_iff.mp outside
      exact across f h (first h other) g (.head kid path) g' path' r found r' found'
    · intro r here r' there
      rcases List.mem_append.mp there with inside | outside
      · obtain ⟨k, kid, g, path, found⟩ := below.mem_iff.mp inside
        exact down f k g kid path r here r' found
      · obtain ⟨h, other, g', path', found'⟩ := later.mem_iff.mp outside
        exact across f h (first h other) f .refl g' path' r here r' found'

/-- Two walks of frames that correspond, as far as they are reached, emit the same up to
the order within a frame. -/
theorem transfer {F' R' : Type*} {emits' : F' → List R'} {kids' : F' → List F'} (σ : F → F') (τ : R → R')
    (walks : Walks emits kids stack out)
    (alike : ∀ f ∈ stack, ∀ g, Reaches kids f g → (emits' (σ g)).Perm ((emits g).map τ) ∧ kids' (σ g) = (kids g).map σ) :
    ∃ out', Walks emits' kids' (stack.map σ) out' ∧ out'.Perm (out.map τ) := by
  induction walks with
  | nil => exact ⟨[], nil, .refl _⟩
  | @cons f stack inner rest _ _ ihBelow ihRest =>
    obtain ⟨here, branch⟩ := alike f List.mem_cons_self f .refl
    obtain ⟨inner', below', permBelow⟩ := ihBelow fun k kid g path => alike f List.mem_cons_self g (.head kid path)
    obtain ⟨rest', later', permRest⟩ := ihRest fun h inside => alike h (List.mem_cons_of_mem _ inside)
    rw [← branch] at below'
    refine ⟨_, cons below' later', ?_⟩
    rw [List.map_append, List.map_append]
    exact here.append (permBelow.append permRest)

end Walks

end Norte.StackWalk
