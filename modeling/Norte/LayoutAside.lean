import Mathlib.Data.List.ReduceOption
import Norte.LayoutTree

/-! Chrome set aside for a frame that is too small. A tree without one of its parts shows the
tabs it showed, as long as the active tab of every group on the way is one of its tabs. -/
namespace Norte.Layout

variable {P : Type}

namespace Node

/-- Whether a slot of the subtree can hold role `active`. -/
def hasListing (holdsActive : KindId → Bool) : Node P → Bool := walk fun self below =>
  match self with
  | slot _ kind .. => holdsActive kind
  | _ => below.any id

/-- The size of child `i`, where the parent lays out by sizes. -/
def sizesGet : Node P → Nat → Option Size
  | split _ _ sizes, i => sizes[i]?
  | _, _ => none

end Node

/-- A docked panel that can be set aside: its cells, the axis of its split and the child indices
down to it. -/
structure Chrome where
  declared : Nat
  eje : Dir
  camino : List Nat
  slots : List SlotId

/-- Seen from the parent, `i` comes first on the way. -/
def Chrome.below (i : Nat) (chrome : Chrome) : Chrome := { chrome with camino := i :: chrome.camino }

namespace Node

def axis : Node P → Dir
  | split dir .. => dir
  | _ => .horizontal

/-- Child `i`: chrome, if it is of fixed size with no listing inside, or else looked into. -/
def chromeOf (holdsActive : KindId → Bool) (self : Node P) (i : Nat) (c : Node P) (inside : List Chrome) : List Chrome :=
  match self.sizesGet i, c.hasListing holdsActive with
  | some (.fixed n), false => [⟨n, self.axis, [i], c.slotIds⟩]
  | _, _ => inside.map (Chrome.below i)

def collectsChrome (holdsActive : KindId → Bool) : Node P → List Chrome := walk fun self below =>
  (self.children.zip below).zipIdx.flatMap fun child => chromeOf holdsActive self child.2 child.1.1 child.1.2

/-- The tab that `place` shows: the active one, or the first if there is none of that number. -/
def shown (children : List (Node P)) (active : Nat) : Nat := if active < children.length then active else 0

/-- A tab that goes shifts the ones after it. -/
def activeAfter (remains : List (Option (Node P))) (active : Nat) : Nat :=
  remains.zipIdx.foldl (fun active tab => if tab.1.isNone && tab.2 < active then active - 1 else active) active

/-- Each child that remains keeps its size. -/
def sizesOut (remains : List (Option (Node P))) (sizes : List Size) : List Size :=
  remains.zipIdx.filterMap fun (q, j) => q.map fun _ => sizes[j]?.getD (.weight 1)

/-- The tree without the node that the path points at, or nothing if nothing is left. -/
def sinCamino : Node P → List Nat → Option (Node P)
  | _, [] => none
  | slot id kind params bindings, _ :: _ => some (slot id kind params bindings)
  | split dir children sizes, i :: rest =>
    let remains := children.mapIdx fun j c => if j = i then sinCamino c rest else some c
    if remains.reduceOption.isEmpty then none else some (split dir remains.reduceOption (sizesOut remains sizes))
  | tabs children active, i :: rest =>
    let remains := children.mapIdx fun j c => if j = i then sinCamino c rest else some c
    if remains.reduceOption.isEmpty then none
    else some (tabs remains.reduceOption (min (activeAfter remains active) (remains.reduceOption.length - 1)))

/-- The node at the end of a path. -/
def at_ : Node P → List Nat → Option (Node P)
  | n, [] => some n
  | n, i :: rest => n.children[i]?.bind fun c => at_ c rest

/-- Nothing is left of the node without what the path points at: nothing stands beside the path. -/
def Empties : Node P → List Nat → Prop
  | _, [] => True
  | n, i :: rest => n.children.length = 1 ∧ ∀ c, n.children[i]? = some c → Empties c rest

/-- `n'` is `n` without what the path points at: nothing beside the path changes, and a group
on it shows the tab it showed, unless that is the one that goes. -/
inductive Aside : Node P → List Nat → Node P → Prop where
  | splitInside {d cs zs zs' i c c' rest} (there : cs[i]? = some c) (inside : Aside c rest c') :
    Aside (split d cs zs) (i :: rest) (split d (cs.set i c') zs')
  | splitWhole {d cs zs zs' i c rest} (there : cs[i]? = some c) (empties : Empties c rest) :
    Aside (split d cs zs) (i :: rest) (split d (cs.eraseIdx i) zs')
  | tabsInside {cs a a' i c c' rest} (there : cs[i]? = some c) (inside : Aside c rest c')
    (same : shown (cs.set i c') a' = shown cs a) : Aside (tabs cs a) (i :: rest) (tabs (cs.set i c') a')
  | tabsWhole {cs a a' i c rest} (there : cs[i]? = some c) (empties : Empties c rest)
    (same : shown cs a ≠ i → shown (cs.eraseIdx i) a' = if i < shown cs a then shown cs a - 1 else shown cs a) :
    Aside (tabs cs a) (i :: rest) (tabs (cs.eraseIdx i) a')

theorem split_there {l : List α} {i : Nat} {x : α} (there : l[i]? = some x) :
    ∃ pre post, l = pre ++ x :: post ∧ i = pre.length := by
  obtain ⟨bound, rfl⟩ := List.getElem?_eq_some_iff.mp there
  refine ⟨l.take i, l.drop (i + 1), ?_, ?_⟩
  · rw [← List.drop_eq_getElem_cons bound, List.take_append_drop]
  · rw [List.length_take]
    omega

/-! What the loop over the children leaves. -/

section

variable {pre post : List (Node P)} {c : Node P} {rest : List Nat}

theorem remains_eq : (pre ++ c :: post).mapIdx (fun j c => if j = pre.length then sinCamino c rest else some c) =
    pre.map some ++ sinCamino c rest :: post.map some := by
  apply List.ext_getElem?
  intro j
  rw [List.getElem?_mapIdx]
  rcases Nat.lt_trichotomy j pre.length with before | here | after
  · have other : j ≠ pre.length := by omega
    rw [List.getElem?_append_left before, List.getElem?_append_left (by simpa using before), List.getElem?_map]
    simp [other]
  · subst here
    rw [List.getElem?_append_right (Nat.le_refl _), List.getElem?_append_right (by simp)]
    simp
  · have other : j ≠ pre.length := by omega
    obtain ⟨k, rfl⟩ : ∃ k, j = pre.length + (k + 1) := ⟨j - pre.length - 1, by omega⟩
    rw [List.getElem?_append_right (by omega), List.getElem?_append_right (by simp)]
    simp

theorem reduceOption_remains (r : Option (Node P)) :
    (pre.map some ++ r :: post.map some).reduceOption = pre ++ (r.toList ++ post) := by
  have somes (l : List (Node P)) : (l.map some).reduceOption = l := by simp [List.reduceOption]
  cases r with
  | none => rw [List.reduceOption_append, somes, List.reduceOption_cons_of_none, somes]; rfl
  | some r => rw [List.reduceOption_append, somes, List.reduceOption_cons_of_some, somes]; rfl

theorem activeAfter_somes (l : List (Node P)) (k a : Nat) :
    ((l.map some).zipIdx k).foldl (fun active tab => if tab.1.isNone && tab.2 < active then active - 1 else active) a =
      a := by
  induction l generalizing k with
  | nil => rfl
  | cons c l ih =>
    rw [List.map_cons, List.zipIdx_cons, List.foldl_cons]
    exact ih (k + 1)

theorem activeAfter_remains (r : Option (Node P)) (a : Nat) :
    activeAfter (pre.map some ++ r :: post.map some) a = if r.isNone && pre.length < a then a - 1 else a := by
  unfold activeAfter
  rw [List.zipIdx_append, List.foldl_append, activeAfter_somes, List.zipIdx_cons, List.foldl_cons, activeAfter_somes]
  simp

theorem sinCamino_split (pre post : List (Node P)) (c : Node P) (rest : List Nat) (d : Dir) (zs : List Size) :
    ∃ zs', sinCamino (split d (pre ++ c :: post) zs) (pre.length :: rest) =
      if (pre ++ ((sinCamino c rest).toList ++ post)).isEmpty then none
      else some (split d (pre ++ ((sinCamino c rest).toList ++ post)) zs') := by
  refine ⟨sizesOut (pre.map some ++ sinCamino c rest :: post.map some) zs, ?_⟩
  rw [sinCamino]
  simp only [remains_eq, reduceOption_remains]

theorem sinCamino_tabs (pre post : List (Node P)) (c : Node P) (rest : List Nat) (a : Nat) :
    sinCamino (tabs (pre ++ c :: post) a) (pre.length :: rest) =
      if (pre ++ ((sinCamino c rest).toList ++ post)).isEmpty then none
      else some (tabs (pre ++ ((sinCamino c rest).toList ++ post))
        (min (if (sinCamino c rest).isNone && pre.length < a then a - 1 else a)
          ((pre ++ ((sinCamino c rest).toList ++ post)).length - 1))) := by
  rw [sinCamino]
  simp only [remains_eq, reduceOption_remains, activeAfter_remains]

end

/-- A path leads somewhere. -/
def Leads (n : Node P) (path : List Nat) : Prop := (n.at_ path).isSome = true

theorem leads_cons {n c : Node P} {i : Nat} {rest : List Nat} (there : n.children[i]? = some c) :
    n.Leads (i :: rest) ↔ c.Leads rest := by
  rw [Leads, at_, there]
  rfl

theorem Leads.child {n : Node P} {i : Nat} {rest : List Nat} (leads : n.Leads (i :: rest)) :
    ∃ pre c post, n.children = pre ++ c :: post ∧ i = pre.length ∧ c.Leads rest := by
  obtain ⟨end_, found⟩ := Option.isSome_iff_exists.mp leads
  rw [at_] at found
  obtain ⟨c, there, below⟩ := Option.bind_eq_some_iff.mp found
  obtain ⟨pre, post, split, place⟩ := split_there there
  exact ⟨pre, c, post, split, place, Option.isSome_iff_exists.mpr ⟨end_, below⟩⟩

theorem empties_iff {n c : Node P} {pre post : List (Node P)} {rest : List Nat} (children : n.children = pre ++ c :: post) :
    Empties n (pre.length :: rest) ↔ pre = [] ∧ post = [] ∧ Empties c rest := by
  have length : (pre ++ c :: post).length = 1 ↔ pre = [] ∧ post = [] := by
    rw [List.length_append, List.length_cons, ← List.length_eq_zero_iff, ← List.length_eq_zero_iff]
    omega
  rw [Empties, children, length]
  simp [and_assoc]

/-- What is left is nothing exactly when nothing stands beside the path. -/
theorem sinCamino_none {path : List Nat} {n : Node P} (leads : n.Leads path) :
    sinCamino n path = none ↔ Empties n path := by
  induction path generalizing n with
  | nil => exact iff_of_true (by rw [sinCamino]) trivial
  | cons i rest ih =>
    obtain ⟨pre, c, post, children, rfl, below⟩ := leads.child
    rw [empties_iff children, ← ih below]
    have empty : (pre ++ ((sinCamino c rest).toList ++ post)).isEmpty = true ↔
        pre = [] ∧ post = [] ∧ sinCamino c rest = none := by
      rw [List.isEmpty_iff, List.append_eq_nil_iff, List.append_eq_nil_iff, Option.toList_eq_nil_iff]
      tauto
    rw [← empty]
    cases n with
    | slot => simp at children
    | split d cs zs =>
      obtain rfl : cs = pre ++ c :: post := children
      obtain ⟨zs', left⟩ := sinCamino_split pre post c rest d zs
      rw [left]
      split <;> simp_all
    | tabs cs a =>
      obtain rfl : cs = pre ++ c :: post := children
      rw [sinCamino_tabs]
      split <;> simp_all

/-- The active tab of a group is one of its tabs, or the group loses a tab and shows its first
all the same: the first is the one that goes, or the only one that stays. -/
def ActiveFits : Node P → Nat → List Nat → Prop
  | tabs children active, i, rest => active < children.length ∨ children.length = 1 ∨
    ((∀ c, children[i]? = some c → Empties c rest) ∧ (i = 0 ∨ children.length = 2))
  | _, _, _ => True

/-- So it is for every group on the path. -/
def ActivesFit : Node P → List Nat → Prop
  | _, [] => True
  | n, i :: rest => ActiveFits n i rest ∧ ∀ c, n.children[i]? = some c → ActivesFit c rest

/-- Setting aside what the path points at switches no tab. -/
def SetsAside (n : Node P) (path : List Nat) : Prop := ∀ n', sinCamino n path = some n' → Aside n path n'

section

variable {pre post : List (Node P)} {c : Node P} {rest : List Nat}

theorem there_at : (pre ++ c :: post)[pre.length]? = some c := by simp

theorem set_there (c' : Node P) : (pre ++ c :: post).set pre.length c' = pre ++ c' :: post := by simp

theorem erase_there : (pre ++ c :: post).eraseIdx pre.length = pre ++ post := by
  rw [List.eraseIdx_append_of_length_le (Nat.le_refl _), Nat.sub_self, List.eraseIdx_cons_zero]

theorem aside_split {d : Dir} {zs : List Size} {cs' : List (Node P)} {zs' : List Size} :
    Aside (split d (pre ++ c :: post) zs) (pre.length :: rest) (split d cs' zs') ↔
      (∃ c', Aside c rest c' ∧ cs' = pre ++ c' :: post) ∨ (Empties c rest ∧ cs' = pre ++ post) := by
  constructor
  · intro aside
    cases aside with
    | splitInside there inside =>
      rw [there_at] at there
      obtain rfl := Option.some.inj there
      exact .inl ⟨_, inside, set_there _⟩
    | splitWhole there empties =>
      rw [there_at] at there
      obtain rfl := Option.some.inj there
      exact .inr ⟨empties, erase_there⟩
  · rintro (⟨c', inside, rfl⟩ | ⟨empties, rfl⟩)
    · rw [← set_there c' (c := c)]
      exact .splitInside there_at inside
    · have made : Aside (split d (pre ++ c :: post) zs) (pre.length :: rest)
          (split d ((pre ++ c :: post).eraseIdx pre.length) zs') := .splitWhole there_at empties
      rwa [erase_there] at made

theorem aside_tabs {a a' : Nat} {cs' : List (Node P)} :
    Aside (tabs (pre ++ c :: post) a) (pre.length :: rest) (tabs cs' a') ↔
      (∃ c', Aside c rest c' ∧ cs' = pre ++ c' :: post ∧ shown cs' a' = shown (pre ++ c :: post) a) ∨
      (Empties c rest ∧ cs' = pre ++ post ∧ (shown (pre ++ c :: post) a ≠ pre.length →
        shown cs' a' = if pre.length < shown (pre ++ c :: post) a then shown (pre ++ c :: post) a - 1
          else shown (pre ++ c :: post) a)) := by
  constructor
  · intro aside
    cases aside with
    | tabsInside there inside same =>
      rw [there_at] at there
      obtain rfl := Option.some.inj there
      exact .inl ⟨_, inside, set_there _, same⟩
    | tabsWhole there empties same =>
      rw [there_at] at there
      obtain rfl := Option.some.inj there
      exact .inr ⟨empties, erase_there, same⟩
  · rintro (⟨c', inside, rfl, same⟩ | ⟨empties, rfl, same⟩)
    · rw [← set_there c' (c := c)] at same ⊢
      exact .tabsInside there_at inside same
    · have made : Aside (tabs (pre ++ c :: post) a) (pre.length :: rest)
          (tabs ((pre ++ c :: post).eraseIdx pre.length) a') :=
        .tabsWhole there_at empties (by rw [erase_there]; exact same)
      rwa [erase_there] at made

theorem activesFit_iff {n : Node P} (children : n.children = pre ++ c :: post) :
    ActivesFit n (pre.length :: rest) ↔ ActiveFits n pre.length rest ∧ ActivesFit c rest := by
  rw [ActivesFit, children]
  simp

theorem activeFits_tabs {a : Nat} : ActiveFits (tabs (pre ++ c :: post) a) pre.length rest ↔
    a < pre.length + (post.length + 1) ∨ pre.length + post.length = 0 ∨
      (Empties c rest ∧ (pre.length = 0 ∨ pre.length + post.length = 1)) := by
  have one : pre.length + (post.length + 1) = 1 ↔ pre.length + post.length = 0 := by omega
  have two : pre.length + (post.length + 1) = 2 ↔ pre.length + post.length = 1 := by omega
  simp only [ActiveFits, there_at, List.length_append, List.length_cons, Option.some.injEq, forall_eq', one, two]

end

theorem setsAside_some {n n' : Node P} {path : List Nat} (left : sinCamino n path = some n') :
    SetsAside n path ↔ Aside n path n' :=
  ⟨fun sets => sets n' left, fun aside _ again => Option.some.inj (left.symm.trans again) ▸ aside⟩

theorem setsAside_none {n : Node P} {path : List Nat} (left : sinCamino n path = none) : SetsAside n path :=
  fun _ again => absurd (left.symm.trans again) (by simp)

section

variable {pre post : List (Node P)} {c : Node P} {rest : List Nat}

theorem setsAside_split (gone : sinCamino c rest = none ↔ Empties c rest) (d : Dir) (zs : List Size) :
    SetsAside (split d (pre ++ c :: post) zs) (pre.length :: rest) ↔ SetsAside c rest := by
  obtain ⟨zs', left⟩ := sinCamino_split pre post c rest d zs
  cases below : sinCamino c rest with
  | none =>
    refine iff_of_true (fun n' found => ?_) (setsAside_none below)
    rw [left, below] at found
    split at found
    · cases found
    · obtain rfl := Option.some.inj found
      exact aside_split.mpr (.inr ⟨gone.mp below, rfl⟩)
  | some c' =>
    rw [below, if_neg (by simp)] at left
    rw [setsAside_some left, setsAside_some below, aside_split]
    constructor
    · rintro (⟨c'', inside, same⟩ | ⟨empties, -⟩)
      · obtain rfl := (List.cons.inj (List.append_cancel_left same)).1
        exact inside
      · rw [gone.mpr empties] at below
        cases below
    · exact fun inside => .inl ⟨c', inside, rfl⟩

/-- The tab shown before and after one of `p + (q + 1)` tabs goes, the one after the first `p`. -/
theorem shown_without {p q a : Nat} (some_ : 0 < p + q) :
    ((if a < p + (q + 1) then a else 0) ≠ p →
      (if min (if p < a then a - 1 else a) (p + q - 1) < p + q then
        min (if p < a then a - 1 else a) (p + q - 1) else 0) =
      if p < (if a < p + (q + 1) then a else 0) then (if a < p + (q + 1) then a else 0) - 1
        else if a < p + (q + 1) then a else 0) ↔
    a < p + (q + 1) ∨ (p = 0 ∨ p + q = 1) := by
  split_ifs <;> omega

/-- And when none goes. -/
theorem shown_clamped {p q a : Nat} :
    (if min a (p + (q + 1) - 1) < p + (q + 1) then min a (p + (q + 1) - 1) else 0) =
      (if a < p + (q + 1) then a else 0) ↔ a < p + (q + 1) ∨ p + q = 0 := by
  split_ifs <;> omega

/-- Of the tabs, the one that goes shifts those after it; a group whose active tab is out of
range shows its last tab afterwards, where it showed its first. -/
theorem setsAside_tabs (gone : sinCamino c rest = none ↔ Empties c rest) (a : Nat) :
    SetsAside (tabs (pre ++ c :: post) a) (pre.length :: rest) ↔
      ActiveFits (tabs (pre ++ c :: post) a) pre.length rest ∧ SetsAside c rest := by
  have left := sinCamino_tabs pre post c rest a
  rw [activeFits_tabs]
  cases below : sinCamino c rest with
  | none =>
    have empties := gone.mp below
    simp only [below, Option.toList_none, List.nil_append, Option.isNone_none, Bool.true_and, decide_eq_true_eq] at left
    by_cases all : (pre ++ post).isEmpty
    · rw [if_pos all] at left
      refine iff_of_true (setsAside_none left) ⟨.inr (.inl ?_), setsAside_none below⟩
      rw [List.isEmpty_iff] at all
      rw [← List.length_append, all, List.length_nil]
    · rw [if_neg all] at left
      rw [setsAside_some left, aside_tabs]
      have some_ : 0 < pre.length + post.length := by
        rw [← List.length_append]
        exact List.length_pos_iff.mpr (by simpa using all)
      have kept := shown_without (a := a) some_
      simp only [shown, List.length_append, List.length_cons] at kept ⊢
      constructor
      · rintro (⟨c', -, same, -⟩ | ⟨-, -, same⟩)
        · have := congrArg List.length same
          simp at this
        · refine ⟨?_, setsAside_none below⟩
          rcases kept.mp same with inside | few
          · exact .inl inside
          · exact .inr (.inr ⟨empties, few⟩)
      · rintro ⟨inside | none_ | ⟨-, few⟩, -⟩
        · exact .inr ⟨empties, trivial, kept.mpr (.inl inside)⟩
        · omega
        · exact .inr ⟨empties, trivial, kept.mpr (.inr few)⟩
  | some c' =>
    rw [below, if_neg (by simp)] at left
    rw [setsAside_some left, setsAside_some below, aside_tabs]
    have kept := shown_clamped (p := pre.length) (q := post.length) (a := a)
    simp only [shown, List.length_append, List.length_cons, Option.toList_some, List.cons_append,
      List.nil_append, Option.isNone_some, Bool.false_and, Bool.false_eq_true, if_false] at kept ⊢
    constructor
    · rintro (⟨c'', inside, same, number⟩ | ⟨empties, -, -⟩)
      · obtain rfl := (List.cons.inj (List.append_cancel_left same)).1
        rcases kept.mp number with inRange | only
        · exact ⟨.inl inRange, inside⟩
        · exact ⟨.inr (.inl only), inside⟩
      · rw [gone.mpr empties] at below
        cases below
    · rintro ⟨inRange | only | ⟨empties, -⟩, inside⟩
      · exact .inl ⟨c', inside, rfl, kept.mpr (.inl inRange)⟩
      · exact .inl ⟨c', inside, rfl, kept.mpr (.inr only)⟩
      · rw [gone.mpr empties] at below
        cases below

end

/-- Nothing is switched exactly when the groups on the path have their active tab in range, as
far as it can be seen. -/
theorem setsAside_iff {path : List Nat} {n : Node P} (leads : n.Leads path) :
    SetsAside n path ↔ ActivesFit n path := by
  induction path generalizing n with
  | nil => exact iff_of_true (setsAside_none (by rw [sinCamino])) trivial
  | cons i rest ih =>
    obtain ⟨pre, c, post, children, rfl, below⟩ := leads.child
    have gone := sinCamino_none below
    rw [activesFit_iff children, ← ih below]
    cases n with
    | slot => simp at children
    | split d cs zs =>
      obtain rfl : cs = pre ++ c :: post := children
      rw [setsAside_split gone]
      exact ⟨fun sets => ⟨trivial, sets⟩, fun sets => sets.2⟩
    | tabs cs a =>
      obtain rfl : cs = pre ++ c :: post := children
      exact setsAside_tabs gone a

/-- The path of a piece of chrome leads to it. -/
theorem collectsChrome_leads (holdsActive : KindId → Bool) (n : Node P) :
    ∀ chrome ∈ collectsChrome holdsActive n, n.Leads chrome.camino := by
  induction n using induct with
  | step n below =>
    intro chrome member
    rw [collectsChrome, walk_eq] at member
    obtain ⟨⟨⟨c, inside⟩, i⟩, place, found⟩ := List.mem_flatMap.mp member
    obtain ⟨there, recursed⟩ := List.getElem?_zip_eq_some.mp (List.mem_zipIdx_iff_getElem?.mp place)
    dsimp only at there recursed found
    rw [List.getElem?_map, there, Option.map_some] at recursed
    obtain rfl := Option.some.inj recursed
    unfold chromeOf at found
    split at found
    · obtain rfl := List.mem_singleton.mp found
      exact (leads_cons there).mpr rfl
    · obtain ⟨inner, within, rfl⟩ := List.mem_map.mp found
      exact (leads_cons there).mpr (below c (List.mem_of_getElem? there) inner within)

/-- Setting chrome aside switches no tab exactly when every group on its path has its active tab
in range, or shows its first tab after all. -/
theorem chrome_sets_aside {holdsActive : KindId → Bool} {tree : Node P} {chrome : Chrome}
    (found : chrome ∈ collectsChrome holdsActive tree) :
    SetsAside tree chrome.camino ↔ ActivesFit tree chrome.camino :=
  setsAside_iff (collectsChrome_leads holdsActive tree chrome found)

/-- A listing alone, and one beside a panel. -/
def tabbed (active : Nat) : Node Unit :=
  tabs [slot 1 browser () {},
    split .horizontal [slot 9 "places" () {}, slot 2 browser () {}] [.fixed 16, .weight 1]] active

def places : Chrome := ⟨16, .horizontal, [1, 0], [9]⟩

theorem places_found (active : Nat) : places ∈ collectsChrome (· = browser) (tabbed active) := by
  have all : collectsChrome (· = browser) (tabbed active) = [places] := rfl
  rw [all]
  exact List.mem_singleton_self _

theorem chrome_sets_aside_second : SetsAside (tabbed 1) [1, 0] := by
  apply (chrome_sets_aside (places_found 1)).mpr
  refine ⟨.inl (by decide), fun c there => ?_⟩
  obtain rfl := Option.some.inj there
  exact ⟨trivial, fun _ _ => trivial⟩

/-- Out of range, the first tab is shown; with the panel aside the second one is. -/
theorem aside_switches_tab :
    sinCamino (tabbed 9) [1, 0] = some (tabs [slot 1 browser () {}, split .horizontal [slot 2 browser () {}] [.weight 1]] 1) ∧
      shown (tabbed 9).children 9 = 0 ∧
      ¬∀ (holdsActive : KindId → Bool) (tree : Node Unit), ∀ chrome ∈ collectsChrome holdsActive tree,
        SetsAside tree chrome.camino := by
  have left : sinCamino (tabbed 9) [1, 0] =
      some (tabs [slot 1 browser () {}, split .horizontal [slot 2 browser () {}] [.weight 1]] 1) := rfl
  refine ⟨left, rfl, fun claim => ?_⟩
  have aside := claim (· = browser) (tabbed 9) places (places_found 9) _ left
  cases aside with
  | tabsInside there inside same => exact absurd same (by decide)

end Node

end Norte.Layout
