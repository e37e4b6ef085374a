import Mathlib.Data.List.Basic

/-! Two lists sorted by key, walked together: what only one of them has, and what meets. -/
namespace Norte.MergeJoin

inductive Joined (α β : Type*) where
  | left (a : α)
  | right (b : β)
  | both (a : α) (b : β)
  deriving DecidableEq

namespace Joined

variable {α β : Type*}

def swap : Joined α β → Joined β α
  | left a => right a
  | right b => left b
  | both a b => both b a

def left? : Joined α β → Option α
  | left a | both a _ => some a
  | right _ => none

def right? : Joined α β → Option β
  | right b | both _ b => some b
  | left _ => none

@[simp] theorem swap_left? (j : Joined α β) : j.swap.left? = j.right? := by cases j <;> rfl

end Joined

variable {K α β : Type*} [Ord K]

/-- What precedes `l` on the right, then `l`, alone or met. -/
def upTo (l : K × α) (rest : List (K × β) → List (Joined (K × α) (K × β))) :
    List (K × β) → List (Joined (K × α) (K × β))
  | [] => .left l :: rest []
  | r :: rs =>
    match compare l.1 r.1 with
    | .lt => .left l :: rest (r :: rs)
    | .gt => .right r :: upTo l rest rs
    | .eq => .both l r :: rest rs

def mergeJoin : List (K × α) → List (K × β) → List (Joined (K × α) (K × β))
  | [] => List.map .right
  | l :: ls => upTo l (mergeJoin ls)

@[simp] theorem mergeJoin_nil_left (rs : List (K × β)) :
    mergeJoin ([] : List (K × α)) rs = rs.map .right := rfl

@[simp] theorem mergeJoin_nil_right (ls : List (K × α)) :
    mergeJoin ls ([] : List (K × β)) = ls.map .left := by
  induction ls with
  | nil => rfl
  | cons l ls ih => rw [mergeJoin, upTo, ih, List.map_cons]

section

variable {l : K × α} {r : K × β} {ls : List (K × α)} {rs : List (K × β)}

theorem mergeJoin_lt (order : compare l.1 r.1 = .lt) :
    mergeJoin (l :: ls) (r :: rs) = .left l :: mergeJoin ls (r :: rs) := by
  simp only [mergeJoin, upTo, order]

theorem mergeJoin_gt (order : compare l.1 r.1 = .gt) :
    mergeJoin (l :: ls) (r :: rs) = .right r :: mergeJoin (l :: ls) rs := by
  simp only [mergeJoin, upTo, order]

theorem mergeJoin_eq (order : compare l.1 r.1 = .eq) :
    mergeJoin (l :: ls) (r :: rs) = .both l r :: mergeJoin ls rs := by
  simp only [mergeJoin, upTo, order]

end

/-- The join's own induction: which of the two heads goes first. -/
theorem join_induction {motive : List (K × α) → List (K × β) → Prop}
    (nil_left : ∀ rs, motive [] rs) (nil_right : ∀ ls, motive ls [])
    (lt : ∀ l ls r rs, compare l.1 r.1 = .lt → motive ls (r :: rs) → motive (l :: ls) (r :: rs))
    (gt : ∀ l ls r rs, compare l.1 r.1 = .gt → motive (l :: ls) rs → motive (l :: ls) (r :: rs))
    (eq : ∀ l ls r rs, compare l.1 r.1 = .eq → motive ls rs → motive (l :: ls) (r :: rs))
    (ls : List (K × α)) (rs : List (K × β)) : motive ls rs := by
  induction ls generalizing rs with
  | nil => exact nil_left rs
  | cons l ls ihl =>
    induction rs with
    | nil => exact nil_right _
    | cons r rs ihr =>
      cases order : compare l.1 r.1 with
      | lt => exact lt l ls r rs order (ihl _)
      | gt => exact gt l ls r rs order ihr
      | eq => exact eq l ls r rs order (ihl _)

/-- Each entry of the left comes out once, in its order. -/
theorem lefts (ls : List (K × α)) (rs : List (K × β)) : (mergeJoin ls rs).filterMap Joined.left? = ls := by
  induction ls, rs using join_induction with
  | nil_left rs => simp [List.filterMap_map, Function.comp_def, Joined.left?]
  | nil_right ls => simp [List.filterMap_map, Function.comp_def, Joined.left?]
  | lt l ls r rs order ih => simp only [mergeJoin_lt order, List.filterMap_cons, Joined.left?, ih]
  | gt l ls r rs order ih => simp only [mergeJoin_gt order, List.filterMap_cons, Joined.left?, ih]
  | eq l ls r rs order ih => simp only [mergeJoin_eq order, List.filterMap_cons, Joined.left?, ih]

theorem rights (ls : List (K × α)) (rs : List (K × β)) : (mergeJoin ls rs).filterMap Joined.right? = rs := by
  induction ls, rs using join_induction with
  | nil_left rs => simp [List.filterMap_map, Function.comp_def, Joined.right?]
  | nil_right ls => simp [List.filterMap_map, Function.comp_def, Joined.right?]
  | lt l ls r rs order ih => simp only [mergeJoin_lt order, List.filterMap_cons, Joined.right?, ih]
  | gt l ls r rs order ih => simp only [mergeJoin_gt order, List.filterMap_cons, Joined.right?, ih]
  | eq l ls r rs order ih => simp only [mergeJoin_eq order, List.filterMap_cons, Joined.right?, ih]

section

variable [Std.OrientedOrd K]

/-- Neither list is preferred. -/
theorem mergeJoin_swap (ls : List (K × α)) (rs : List (K × β)) :
    mergeJoin rs ls = (mergeJoin ls rs).map Joined.swap := by
  induction ls, rs using join_induction with
  | nil_left rs => simp [Joined.swap]
  | nil_right ls => simp [Joined.swap]
  | lt l ls r rs order ih =>
    have back : compare r.1 l.1 = .gt := Std.OrientedCmp.gt_of_lt order
    rw [mergeJoin_lt order, mergeJoin_gt back, ih, List.map_cons]
    rfl
  | gt l ls r rs order ih =>
    have back : compare r.1 l.1 = .lt := Std.OrientedCmp.lt_of_gt order
    rw [mergeJoin_gt order, mergeJoin_lt back, ih, List.map_cons]
    rfl
  | eq l ls r rs order ih =>
    have back : compare r.1 l.1 = .eq := Std.OrientedCmp.eq_symm order
    rw [mergeJoin_eq order, mergeJoin_eq back, ih, List.map_cons]
    rfl

end

/-- Sorted by key, no two alike. -/
def Rising (ls : List (K × α)) : Prop := ls.Pairwise fun a b => compare a.1 b.1 = .lt

variable {ls : List (K × α)} {rs : List (K × β)} {l : K × α} {r : K × β}

theorem met_key [Std.LawfulEqOrd K] (met : .both l r ∈ mergeJoin ls rs) : l.1 = r.1 := by
  induction ls, rs using join_induction with
  | nil_left rs => simp at met
  | nil_right ls => simp at met
  | lt l' ls r' rs order ih =>
    rw [mergeJoin_lt order, List.mem_cons] at met
    exact ih (met.resolve_left nofun)
  | gt l' ls r' rs order ih =>
    rw [mergeJoin_gt order, List.mem_cons] at met
    exact ih (met.resolve_left nofun)
  | eq l' ls r' rs order ih =>
    rw [mergeJoin_eq order, List.mem_cons] at met
    rcases met with ⟨⟨⟩⟩ | met
    · exact Std.LawfulEqCmp.eq_of_compare order
    · exact ih met

theorem Rising.below [Std.TransOrd K] (rising : Rising (l :: ls)) {a : K × β} (small : compare a.1 l.1 = .lt) :
    ∀ b ∈ l :: ls, compare a.1 b.1 = .lt := by
  intro b member
  rcases List.mem_cons.mp member with rfl | later
  · exact small
  · exact Std.TransCmp.lt_trans small ((List.pairwise_cons.mp rising).1 b later)

theorem Rising.injective [Std.ReflOrd K] (rising : Rising ls) {a b : K × α} (inA : a ∈ ls) (inB : b ∈ ls)
    (same : a.1 = b.1) : a = b := by
  induction ls with
  | nil => exact absurd inA List.not_mem_nil
  | cons l ls ih =>
    obtain ⟨first, rest⟩ := List.pairwise_cons.mp rising
    rcases List.mem_cons.mp inA with rfl | laterA <;> rcases List.mem_cons.mp inB with rfl | laterB
    · rfl
    · have small := first b laterB
      rw [same] at small
      exact absurd (Std.ReflCmp.compare_self.symm.trans small) nofun
    · have small := first a laterA
      rw [same] at small
      exact absurd (Std.ReflCmp.compare_self.symm.trans small) nofun
    · exact ih rest laterA laterB

section

variable [Std.TransOrd K] [Std.LawfulEqOrd K]

/-- Two entries of one key meet. -/
theorem meets (risingL : Rising ls) (risingR : Rising rs) (inL : l ∈ ls) (inR : r ∈ rs) (same : l.1 = r.1) :
    .both l r ∈ mergeJoin ls rs := by
  have reflexive : compare l.1 r.1 = .eq := by rw [same]; exact Std.ReflCmp.compare_self
  induction ls, rs using join_induction with
  | nil_left rs => exact absurd inL List.not_mem_nil
  | nil_right ls => exact absurd inR List.not_mem_nil
  | lt l' ls r' rs order ih =>
    have later : l ∈ ls := by
      rcases List.mem_cons.mp inL with rfl | later
      · have small := Rising.below risingR order r inR
        exact absurd (reflexive.symm.trans small) nofun
      · exact later
    rw [mergeJoin_lt order]
    exact List.mem_cons_of_mem _ (ih risingL.of_cons risingR later inR)
  | gt l' ls r' rs order ih =>
    have later : r ∈ rs := by
      rcases List.mem_cons.mp inR with rfl | later
      · have small := Rising.below risingL (Std.OrientedCmp.lt_of_gt order) l inL
        rw [← same] at small
        exact absurd (Std.ReflCmp.compare_self.symm.trans small) nofun
      · exact later
    rw [mergeJoin_gt order]
    exact List.mem_cons_of_mem _ (ih risingL risingR.of_cons inL later)
  | eq l' ls r' rs order ih =>
    have heads : l'.1 = r'.1 := Std.LawfulEqCmp.eq_of_compare order
    rw [mergeJoin_eq order]
    rcases List.mem_cons.mp inL with rfl | laterL <;> rcases List.mem_cons.mp inR with rfl | laterR
    · exact List.mem_cons_self
    · have small := (List.pairwise_cons.mp risingR).1 r laterR
      rw [← heads] at small
      exact absurd (reflexive.symm.trans small) nofun
    · have small := (List.pairwise_cons.mp risingL).1 l laterL
      rw [heads, ← same] at small
      exact absurd (Std.ReflCmp.compare_self.symm.trans small) nofun
    · exact List.mem_cons_of_mem _ (ih risingL.of_cons risingR.of_cons laterL laterR)

end

end Norte.MergeJoin
