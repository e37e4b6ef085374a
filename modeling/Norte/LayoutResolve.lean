import Norte.LayoutPlace

/-! The layout of a frame. A screen on which no listing has room to show anything sets chrome
aside, the largest first and one at a time, until one has; if that never happens the plain
layout is kept. -/
namespace Norte.Layout

variable {P : Type}

/-! ### What a screen shows -/

/-- The ceiling of what a listing needs to show something. -/
def content : Nat × Nat := (12, 4)

/-- The floor of a kind: its own minimum, capped. -/
def minVisible (decls : KindRegistry) (kind : KindId) : Nat × Nat :=
  (min (decls.minOf kind).1 content.1, min (decls.minOf kind).2 content.2)

def KindRegistry.holdsActive (decls : KindRegistry) (kind : KindId) : Bool := decls.holdsRole kind .active

/-- Whether a placed slot can hold role `active` and has room to show something. -/
def usable (decls : KindRegistry) (tree : Node P) (p : SlotId × Rect) : Bool :=
  (tree.kindOf p.1).any fun k =>
    decls.holdsActive k && (minVisible decls k).1 ≤ p.2.width && (minVisible decls k).2 ≤ p.2.height

def listingUsable (decls : KindRegistry) (tree : Node P) (out : Resolved) : Bool := out.placements.any (usable decls tree)

/-- The axes that some placed listing falls short on; with none placed, both. -/
def axesShort (decls : KindRegistry) (tree : Node P) (out : Resolved) : Bool × Bool :=
  let listings := out.placements.filterMap fun p =>
    (tree.kindOf p.1).bind fun k => if decls.holdsActive k then some (minVisible decls k, p.2) else none
  if listings.isEmpty then (true, true)
  else (listings.any fun l => l.2.width < l.1.1, listings.any fun l => l.2.height < l.1.2)

/-! ### Chrome -/

/-- From largest to smallest, and by slots among those of a size. -/
def Chrome.before (a b : Chrome) : Prop := b.declared < a.declared ∨ a.declared = b.declared ∧ a.slots ≤ b.slots

instance : DecidableRel Chrome.before := fun _ _ => inferInstanceAs (Decidable (_ ∨ _))

def chromeHighToLow (decls : KindRegistry) (n : Node P) : List Chrome :=
  (n.collectsChrome decls.holdsActive).insertionSort Chrome.before

/-- Whether the chrome takes room on an axis that is short. -/
def Chrome.eats (short : Bool × Bool) (chrome : Chrome) : Bool :=
  match chrome.eje with
  | .horizontal => short.1
  | .vertical => short.2

namespace Node

/-- What the path leads to is chrome: its parent gives it a fixed size, and no listing is inside. -/
inductive Docked (holdsActive : KindId → Bool) : Node P → List Nat → Node P → Prop where
  | here {n c : Node P} {i size : Nat} (there : n.children[i]? = some c) (fixed : n.sizesGet i = some (.fixed size))
    (bare : c.hasListing holdsActive = false) : Docked holdsActive n [i] c
  | within {n c removed : Node P} {i : Nat} {rest : List Nat} (there : n.children[i]? = some c)
    (inside : Docked holdsActive c rest removed) : Docked holdsActive n (i :: rest) removed

theorem collectsChrome_docked (holdsActive : KindId → Bool) (n : Node P) : ∀ chrome ∈ collectsChrome holdsActive n,
    ∃ removed, Docked holdsActive n chrome.camino removed ∧ removed.slotIds = chrome.slots := by
  induction n using induct with
  | step n below =>
    intro chrome member
    rw [collectsChrome, walk_eq] at member
    obtain ⟨⟨⟨c, inside⟩, i⟩, place, found⟩ := List.mem_flatMap.mp member
    obtain ⟨there, recursed⟩ := List.getElem?_zip_eq_some.mp (List.mem_zipIdx_iff_getElem?.mp place)
    dsimp only at there recursed found
    rw [List.getElem?_map, there, Option.map_some] at recursed
    obtain rfl := Option.some.inj recursed
    unfold chromeOf at found
    split at found
    · rename_i size fixed bare
      obtain rfl := List.mem_singleton.mp found
      exact ⟨c, .here there fixed bare, rfl⟩
    · obtain ⟨inner, within, rfl⟩ := List.mem_map.mp found
      obtain ⟨removed, docked, slots⟩ := below c (List.mem_of_getElem? there) inner within
      exact ⟨removed, .within there docked, slots⟩

/-- How many nodes the tree has. -/
def nodes : Node P → Nat := walk fun _ below => 1 + below.sum

theorem nodes_eq (n : Node P) : n.nodes = 1 + (n.children.map nodes).sum := by
  rw [nodes, walk_eq]

theorem leaves_perm {n : Node P} {pre post : List (Node P)} {c : Node P} (children : n.children = pre ++ c :: post) :
    (pre.flatMap leaves ++ post.flatMap leaves ++ c.leaves).Perm n.leaves := by
  have inner : n.isSlot = false := by
    cases n with
    | slot => simp at children
    | split => rfl
    | tabs => rfl
  rw [leaves_eq n inner, children, List.flatMap_append, List.flatMap_cons, List.append_assoc]
  exact List.perm_append_comm.append_left _

theorem nodes_split {n : Node P} {pre post : List (Node P)} {c : Node P} (children : n.children = pre ++ c :: post) :
    n.nodes = 1 + (pre.map nodes).sum + (post.map nodes).sum + c.nodes := by
  rw [nodes_eq, children, List.map_append, List.map_cons, List.sum_append, List.sum_cons]
  omega

/-- Without what is at the path, a node keeps the children beside it, and is nothing if there are
none left. -/
theorem sinCamino_children {n c : Node P} {pre post : List (Node P)} (rest : List Nat)
    (children : n.children = pre ++ c :: post) :
    (sinCamino n (pre.length :: rest) = none ∧ pre = [] ∧ post = [] ∧ sinCamino c rest = none) ∨
      ∃ n', sinCamino n (pre.length :: rest) = some n' ∧ n'.isSlot = false ∧
        n'.children = pre ++ ((sinCamino c rest).toList ++ post) := by
  have empty : (pre ++ ((sinCamino c rest).toList ++ post)).isEmpty = true ↔
      pre = [] ∧ post = [] ∧ sinCamino c rest = none := by
    rw [List.isEmpty_iff, List.append_eq_nil_iff, List.append_eq_nil_iff, Option.toList_eq_nil_iff]
    tauto
  cases n with
  | slot => simp at children
  | split d cs zs =>
    obtain rfl : cs = pre ++ c :: post := children
    obtain ⟨zs', left⟩ := sinCamino_split pre post c rest d zs
    rw [left]
    by_cases all : (pre ++ ((sinCamino c rest).toList ++ post)).isEmpty = true
    · exact .inl ⟨if_pos all, empty.mp all⟩
    · exact .inr ⟨_, if_neg all, rfl, rfl⟩
  | tabs cs a =>
    obtain rfl : cs = pre ++ c :: post := children
    rw [sinCamino_tabs]
    by_cases all : (pre ++ ((sinCamino c rest).toList ++ post)).isEmpty = true
    · exact .inl ⟨if_pos all, empty.mp all⟩
    · exact .inr ⟨_, if_neg all, rfl, rfl⟩

/-- What is left of a node and what is taken out of it are the whole of it. -/
theorem Docked.without {holdsActive : KindId → Bool} {n removed : Node P} {path : List Nat}
    (docked : Docked holdsActive n path removed) :
    ((sinCamino n path).toList.flatMap leaves ++ removed.leaves).Perm n.leaves ∧
      ((sinCamino n path).toList.map nodes).sum < n.nodes := by
  suffices step : ∀ {n c removed : Node P} {i : Nat} {rest : List Nat}, n.children[i]? = some c →
      ((sinCamino c rest).toList.flatMap leaves ++ removed.leaves).Perm c.leaves →
      ((sinCamino c rest).toList.map nodes).sum < c.nodes →
      ((sinCamino n (i :: rest)).toList.flatMap leaves ++ removed.leaves).Perm n.leaves ∧
        ((sinCamino n (i :: rest)).toList.map nodes).sum < n.nodes by
    induction docked with
    | @here n c i size there fixed bare =>
      apply step there
      · rw [sinCamino]
        exact List.Perm.refl _
      · rw [sinCamino, nodes_eq]
        simp only [Option.toList_none, List.map_nil, List.sum_nil]
        omega
    | within there inside ih => exact step there ih.1 ih.2
  intro n c removed i rest there leaves fewer
  obtain ⟨pre, post, children, rfl⟩ := split_there there
  have whole := leaves_perm children
  have count := nodes_split children
  rcases sinCamino_children rest children with ⟨none_, rfl, rfl, gone⟩ | ⟨n', left, inner, kept⟩
  · rw [gone] at leaves fewer
    rw [none_]
    refine ⟨leaves.trans whole, ?_⟩
    simp only [Option.toList_none, List.map_nil, List.sum_nil] at fewer ⊢
    omega
  · rw [left]
    simp only [Option.toList_some, List.flatMap_singleton, List.map_cons, List.map_nil, List.sum_cons, List.sum_nil]
    constructor
    · rw [leaves_eq n' inner, kept, List.flatMap_append, List.flatMap_append]
      apply List.Perm.trans _ whole
      simp only [List.append_assoc]
      apply List.Perm.append_left
      exact (List.perm_append_comm_assoc _ _ _).trans (leaves.append_left _)
    · rw [nodes_eq, kept, List.map_append, List.map_append, List.sum_append, List.sum_append]
      omega

theorem hasListing_eq (holdsActive : KindId → Bool) (n : Node P) :
    n.hasListing holdsActive = n.leaves.any fun leaf => leaf.leafKind.any holdsActive := by
  induction n using induct with
  | step n below =>
    have inner (cs : List (Node P)) (below : ∀ c ∈ cs, c.hasListing holdsActive =
        c.leaves.any fun leaf => leaf.leafKind.any holdsActive) : (cs.map (hasListing holdsActive)).any id =
        (cs.flatMap leaves).any fun leaf => leaf.leafKind.any holdsActive := by
      rw [List.any_map, List.any_flatMap]
      induction cs with
      | nil => rfl
      | cons c cs ih =>
        rw [List.forall_mem_cons] at below
        simp only [List.any_cons, Function.comp_def, id_eq, below.1] at ih ⊢
        rw [ih below.2]
    cases n with
    | slot id kind params bindings => simp [hasListing, walk, leafKind]
    | split d cs zs =>
      rw [hasListing, walk_eq, leaves_split]
      exact inner cs below
    | tabs cs a =>
      rw [hasListing, walk_eq, leaves_tabs]
      exact inner cs below

theorem Docked.bare {holdsActive : KindId → Bool} {n removed : Node P} {path : List Nat}
    (docked : Docked holdsActive n path removed) : removed.hasListing holdsActive = false := by
  induction docked with
  | here there fixed bare => exact bare
  | within there inside ih => exact ih

/-! What is left of a tree whose splits each have a flexible child has a flexible child in each
split too: what goes is of fixed size. -/

/-- The sizes of `count` children from child `start`. -/
def sizesFrom (sizes : List Size) (start count : Nat) : List Size :=
  (List.range' start count).map fun j => sizes[j]?.getD (.weight 1)

theorem flexible_split {d : Dir} {cs : List (Node P)} {zs : List Size} :
    Flexible (split d cs zs) ↔ ∃ z ∈ sizesFrom zs 0 cs.length, z.isWeight = true := by
  have same (i : Nat) : (sizePlaced zs i).isWeight = (zs[i]?.getD (.weight 1)).isWeight := by
    unfold sizePlaced
    cases zs[i]? with
    | none => rfl
    | some z =>
      cases z with
      | weight w => cases w <;> rfl
      | fixed n => rfl
      | auto => rfl
  simp only [Flexible, sizesFrom, List.mem_map, List.mem_range'_1, same]
  constructor
  · rintro ⟨i, bound, weight⟩
    exact ⟨_, ⟨i, by omega, rfl⟩, weight⟩
  · rintro ⟨_, ⟨i, bound, rfl⟩, weight⟩
    exact ⟨i, by omega, weight⟩

theorem sizesOut_eq (pre post : List (Node P)) (r : Option (Node P)) (zs : List Size) :
    sizesOut (pre.map some ++ r :: post.map some) zs = sizesFrom zs 0 pre.length ++
      ((r.toList.map fun _ => zs[pre.length]?.getD (.weight 1)) ++ sizesFrom zs (pre.length + 1) post.length) := by
  have somes (l : List (Node P)) (start : Nat) : (((l.map some).zipIdx start).filterMap fun x : Option (Node P) × Nat =>
      x.1.map fun _ => zs[x.2]?.getD (.weight 1)) = sizesFrom zs start l.length := by
    induction l generalizing start with
    | nil => rfl
    | cons c l ih => simpa [sizesFrom, List.range'_succ] using ih (start + 1)
  rw [sizesOut, List.zipIdx_append, List.zipIdx_cons, List.filterMap_append, somes, List.length_map, Nat.zero_add]
  cases r with
  | none =>
    simp only [List.filterMap_cons, Option.map_none, somes]
    rfl
  | some c =>
    simp only [List.filterMap_cons, Option.map_some, somes]
    rfl

theorem sizesFrom_split (zs : List Size) (p q : Nat) :
    sizesFrom zs 0 (p + (q + 1)) = sizesFrom zs 0 p ++ zs[p]?.getD (.weight 1) :: sizesFrom zs (p + 1) q := by
  rw [sizesFrom, ← List.range'_append_1, List.map_append, Nat.zero_add, List.range'_succ, List.map_cons]
  rfl

theorem sizesFrom_self (zs : List Size) : sizesFrom zs 0 zs.length = zs := by
  apply List.ext_getElem
  · simp [sizesFrom]
  · intro i bound bound'
    simp [sizesFrom, bound']

theorem length_sizesFrom (zs : List Size) (start count : Nat) : (sizesFrom zs start count).length = count := by
  simp [sizesFrom]

/-- What is left of a split, with the sizes of the children that stay. -/
theorem sinCamino_sizes {pre post : List (Node P)} {c : Node P} {rest : List Nat} (d : Dir) (zs : List Size)
    (some_ : (pre ++ ((sinCamino c rest).toList ++ post)).isEmpty = false) :
    sinCamino (split d (pre ++ c :: post) zs) (pre.length :: rest) =
      some (split d (pre ++ ((sinCamino c rest).toList ++ post)) (sizesFrom zs 0 pre.length ++
        (((sinCamino c rest).toList.map fun _ => zs[pre.length]?.getD (.weight 1)) ++
          sizesFrom zs (pre.length + 1) post.length))) := by
  rw [sinCamino]
  simp only [remains_eq, reduceOption_remains, some_, sizesOut_eq, Bool.false_eq_true, if_false]

theorem Docked.flexible {holdsActive : KindId → Bool} {n removed : Node P} {path : List Nat}
    (docked : Docked holdsActive n path removed) (flexible : n.All Flexible) :
    ∃ n', sinCamino n path = some n' ∧ n'.All Flexible := by
  induction docked with
  | @here n c i size there fixed bare =>
    obtain ⟨pre, post, children, rfl⟩ := split_there there
    obtain ⟨own, below⟩ := (all_iff n).mp flexible
    cases n with
    | slot => simp at children
    | tabs cs a => simp [sizesGet] at fixed
    | split d cs zs =>
      obtain rfl : cs = pre ++ c :: post := children
      have asked : zs[pre.length]? = some (.fixed size) := fixed
      obtain ⟨z, member, weight⟩ := flexible_split.mp own
      have stays : z ∈ sizesFrom zs 0 pre.length ++ sizesFrom zs (pre.length + 1) post.length := by
        rw [List.length_append, List.length_cons, sizesFrom_split, asked] at member
        rcases List.mem_append.mp member with before | after
        · exact List.mem_append_left _ before
        · rcases List.mem_cons.mp after with rfl | after
          · cases weight
          · exact List.mem_append_right _ after
      have some_ : (pre ++ ((sinCamino c []).toList ++ post)).isEmpty = false := by
        rw [sinCamino, Bool.eq_false_iff]
        intro none_
        obtain ⟨rfl, rfl⟩ := List.append_eq_nil_iff.mp (List.isEmpty_iff.mp none_)
        simp [sizesFrom] at stays
      refine ⟨_, sinCamino_sizes d zs some_, (all_iff _).mpr ⟨flexible_split.mpr ⟨z, ?_, weight⟩, ?_⟩⟩
      · have count : (pre ++ ((sinCamino c []).toList ++ post)).length =
            (sizesFrom zs 0 pre.length ++ (((sinCamino c []).toList.map fun _ => zs[pre.length]?.getD (.weight 1)) ++
              sizesFrom zs (pre.length + 1) post.length)).length := by
          simp [length_sizesFrom]
        rw [count, sizesFrom_self, sinCamino]
        exact stays
      · intro q inside
        rw [sinCamino] at inside
        exact below q (by
          rcases List.mem_append.mp inside with before | after
          · exact List.mem_append_left _ before
          · exact List.mem_append_right _ (List.mem_cons_of_mem _ after))
  | @within n c removed i rest there inside ih =>
    obtain ⟨pre, post, children, rfl⟩ := split_there there
    obtain ⟨own, below⟩ := (all_iff n).mp flexible
    obtain ⟨c', left, kept⟩ := ih (below c (by rw [children]; simp))
    have all : ∀ q ∈ pre ++ (c' :: post), q.All Flexible := by
      intro q member
      rcases List.mem_append.mp member with before | after
      · exact below q (by rw [children]; exact List.mem_append_left _ before)
      · rcases List.mem_cons.mp after with rfl | after
        · exact kept
        · exact below q (by rw [children]; exact List.mem_append_right _ (List.mem_cons_of_mem _ after))
    cases n with
    | slot => simp at children
    | tabs cs a =>
      obtain rfl : cs = pre ++ c :: post := children
      rw [sinCamino_tabs, left, if_neg (by simp)]
      exact ⟨_, rfl, (all_iff _).mpr ⟨by simp [Flexible], all⟩⟩
    | split d cs zs =>
      obtain rfl : cs = pre ++ c :: post := children
      rw [sinCamino_sizes d zs (by simp [left]), left]
      refine ⟨_, rfl, (all_iff _).mpr ⟨flexible_split.mpr ?_, all⟩⟩
      obtain ⟨z, member, weight⟩ := flexible_split.mp own
      refine ⟨z, ?_, weight⟩
      have count : (pre ++ ((some c').toList ++ post)).length =
          (sizesFrom zs 0 pre.length ++ (((some c').toList.map fun _ => zs[pre.length]?.getD (.weight 1)) ++
            sizesFrom zs (pre.length + 1) post.length)).length := by
        simp [length_sizesFrom]
      rw [count, sizesFrom_self]
      rw [List.length_append, List.length_cons, sizesFrom_split] at member
      exact member

end Node

/-! ### The frame -/

/-- The chrome that is set aside next. -/
def chosen (decls : KindRegistry) (pruned : Node P) (short : Bool × Bool) : Option Chrome :=
  (chromeHighToLow decls pruned).find? (Chrome.eats short)

theorem chosen_docked {decls : KindRegistry} {pruned : Node P} {short : Bool × Bool} {chrome : Chrome}
    (next : chosen decls pruned short = some chrome) :
    ∃ removed, Node.Docked decls.holdsActive pruned chrome.camino removed ∧ removed.slotIds = chrome.slots := by
  apply Node.collectsChrome_docked
  have member := List.mem_of_find?_eq_some next
  exact (List.mem_insertionSort _).mp member

theorem chosen_fewer {decls : KindRegistry} {pruned smaller : Node P} {short : Bool × Bool} {chrome : Chrome}
    (next : chosen decls pruned short = some chrome) (left : pruned.sinCamino chrome.camino = some smaller) :
    smaller.nodes < pruned.nodes := by
  obtain ⟨removed, docked, -⟩ := chosen_docked next
  have fewer := docked.without.2
  rw [left] at fewer
  simpa using fewer

/-- The attempts of a frame with no usable listing, each with one piece of chrome less than the
one before, up to the first that shows one. -/
def rescue (decls : KindRegistry) (area : Rect) (tree pruned : Node P) (setAside : List SlotId) (short : Bool × Bool) :
    Option Resolved :=
  match _next : chosen decls pruned short with
  | none => none
  | some chrome =>
    match _left : pruned.sinCamino chrome.camino with
    | none => none
    | some smaller =>
      let attempt := place decls smaller area .empty
      if listingUsable decls tree attempt then
        some ((attempt.note ((setAside ++ chrome.slots).map .chromeSetAside)).hide (setAside ++ chrome.slots))
      else rescue decls area tree smaller (setAside ++ chrome.slots) (axesShort decls tree attempt)
termination_by pruned.nodes
decreasing_by exact chosen_fewer _next _left

def resolve (area : Rect) (tree : Node P) (decls : KindRegistry) : Resolved :=
  let out := place decls tree area .empty
  if listingUsable decls tree out || !tree.hasListing decls.holdsActive then out
  else (rescue decls area tree tree [] (axesShort decls tree out)).getD out

/-! ### What the attempts keep -/

/-- The trees that are tried, with what each has set aside. -/
inductive Tries (decls : KindRegistry) (area : Rect) (tree : Node P) : Node P → List SlotId → Prop where
  | start : Tries decls area tree tree []
  | next {pruned smaller : Node P} {setAside : List SlotId} {chrome : Chrome} (tries : Tries decls area tree pruned setAside)
    (unusable : listingUsable decls tree (placed decls pruned area) = false)
    (next : chosen decls pruned (axesShort decls tree (placed decls pruned area)) = some chrome)
    (left : pruned.sinCamino chrome.camino = some smaller) : Tries decls area tree smaller (setAside ++ chrome.slots)

section Attempts

variable {decls : KindRegistry} {area : Rect} {tree pruned : Node P} {setAside : List SlotId}

/-- What is set aside and what is left are the whole tree, and no listing is set aside. -/
theorem Tries.whole (tries : Tries decls area tree pruned setAside) : ∃ gone : List (Node P),
    setAside = gone.filterMap Node.leafId ∧ (pruned.leaves ++ gone).Perm tree.leaves ∧
      ∀ leaf ∈ gone, leaf.leafKind.any decls.holdsActive = false := by
  induction tries with
  | start => exact ⟨[], rfl, by simp, by simp⟩
  | @next pruned smaller setAside chrome tries unusable next left ih =>
    obtain ⟨gone, rfl, leaves, none_⟩ := ih
    obtain ⟨removed, docked, slots⟩ := chosen_docked next
    have whole := docked.without.1
    rw [left, Option.toList_some, List.flatMap_singleton] at whole
    refine ⟨gone ++ removed.leaves, ?_, ?_, ?_⟩
    · rw [List.filterMap_append, ← Node.slotIds_eq, slots]
    · apply List.Perm.trans _ leaves
      apply List.Perm.trans _ (whole.append_right gone)
      rw [List.append_assoc]
      exact List.perm_append_comm.append_left _
    · intro leaf member
      rcases List.mem_append.mp member with before | now
      · exact none_ leaf before
      · have bare := docked.bare
        rw [Node.hasListing_eq, List.any_eq_false] at bare
        simpa using bare leaf now

theorem Tries.ids (tries : Tries decls area tree pruned setAside) :
    (pruned.slotIds ++ setAside).Perm tree.slotIds := by
  obtain ⟨gone, rfl, leaves, -⟩ := tries.whole
  rw [Node.slotIds_eq, Node.slotIds_eq, ← List.filterMap_append]
  exact leaves.filterMap _

theorem Tries.flexible (tries : Tries decls area tree pruned setAside) (flexible : tree.All Node.Flexible) :
    pruned.All Node.Flexible := by
  induction tries with
  | start => exact flexible
  | next tries unusable next left ih =>
    obtain ⟨removed, docked, -⟩ := chosen_docked next
    obtain ⟨n', left', kept⟩ := docked.flexible ih
    obtain rfl := Option.some.inj (left.symm.trans left')
    exact kept

/-- Nothing more can be set aside for an axis that is short. -/
def Stuck (decls : KindRegistry) (area : Rect) (tree pruned : Node P) : Prop :=
  ∀ chrome, chosen decls pruned (axesShort decls tree (placed decls pruned area)) = some chrome →
    pruned.sinCamino chrome.camino = none

/-- A frame with what was set aside: noted, and hidden. -/
def asideFrame (decls : KindRegistry) (area : Rect) (pruned : Node P) (setAside : List SlotId) : Resolved :=
  ((placed decls pruned area).note (setAside.map .chromeSetAside)).hide setAside

/-- The attempts end at the first that shows a listing, or when nothing more can be set aside. -/
theorem rescue_ends (tries : Tries decls area tree pruned setAside)
    (unusable : listingUsable decls tree (placed decls pruned area) = false) :
    (∃ pruned' setAside', Tries decls area tree pruned' setAside' ∧
      listingUsable decls tree (placed decls pruned' area) = true ∧
      rescue decls area tree pruned setAside (axesShort decls tree (placed decls pruned area)) =
        some (asideFrame decls area pruned' setAside')) ∨
    ∃ pruned' setAside', Tries decls area tree pruned' setAside' ∧
      listingUsable decls tree (placed decls pruned' area) = false ∧ Stuck decls area tree pruned' ∧
      rescue decls area tree pruned setAside (axesShort decls tree (placed decls pruned area)) = none := by
  generalize axes : axesShort decls tree (placed decls pruned area) = short
  fun_induction rescue decls area tree pruned setAside short with
  | case1 pruned setAside short none_ =>
    subst axes
    exact .inr ⟨pruned, setAside, tries, unusable, by simp [Stuck, none_], rfl⟩
  | case2 pruned setAside short chrome next left =>
    subst axes
    refine .inr ⟨pruned, setAside, tries, unusable, fun chrome' again => ?_, rfl⟩
    rw [next] at again
    obtain rfl := Option.some.inj again
    exact left
  | case3 pruned setAside short chrome next smaller left attempt usable =>
    subst axes
    exact .inl ⟨smaller, _, .next tries unusable next left, usable, rfl⟩
  | case4 pruned setAside short chrome next smaller left attempt usable ih =>
    subst axes
    exact ih (.next tries unusable next left) (Bool.eq_false_iff.mpr usable) rfl

end Attempts

section Frame

variable (decls : KindRegistry) (area : Rect) (tree : Node P)

theorem resolve_eq : resolve area tree decls =
    if listingUsable decls tree (placed decls tree area) || !tree.hasListing decls.holdsActive then placed decls tree area
    else (rescue decls area tree tree [] (axesShort decls tree (placed decls tree area))).getD (placed decls tree area) :=
  rfl

/-- What is set aside leaves what is placed as it is. -/
theorem usable_aside (pruned : Node P) (setAside : List SlotId) :
    listingUsable decls tree (asideFrame decls area pruned setAside) = listingUsable decls tree (placed decls pruned area) :=
  rfl

/-- The frame is the plain layout, or the first attempt that shows a listing. -/
theorem resolve_cases : resolve area tree decls = placed decls tree area ∨
    ∃ pruned setAside, Tries decls area tree pruned setAside ∧
      listingUsable decls tree (placed decls pruned area) = true ∧
      resolve area tree decls = asideFrame decls area pruned setAside := by
  rw [resolve_eq]
  split
  · exact .inl rfl
  · rename_i asks
    have unusable : listingUsable decls tree (placed decls tree area) = false := by
      simp only [Bool.or_eq_true, not_or] at asks
      exact Bool.eq_false_iff.mpr asks.1
    rcases rescue_ends .start unusable with ⟨pruned, setAside, tries, usable, found⟩ | ⟨_, _, _, _, _, found⟩
    · rw [found]
      exact .inr ⟨pruned, setAside, tries, usable, rfl⟩
    · rw [found]
      exact .inl rfl

theorem resolve_ids : (resolve area tree decls).ids.Perm tree.slotIds := by
  rcases resolve_cases decls area tree with plain | ⟨pruned, setAside, tries, -, aside⟩
  · rw [plain]
    exact placed_ids decls tree area
  · rw [aside]
    apply List.Perm.trans _ tries.ids
    have inside := (placed_ids decls pruned area).append_right setAside
    simpa [asideFrame, Resolved.ids, Resolved.hide, Resolved.note] using inside

theorem resolve_shown : ∃ shown, Shown decls tree (resolve area tree decls) shown := by
  rcases resolve_cases decls area tree with plain | ⟨pruned, setAside, tries, -, aside⟩
  · rw [plain]
    exact placed_shown decls tree area
  · rw [aside]
    obtain ⟨shown, leaves, placed, focus⟩ := placed_shown decls pruned area
    obtain ⟨gone, -, whole, -⟩ := tries.whole
    exact ⟨shown, fun leaf member => whole.subset (List.mem_append_left _ (leaves leaf member)), placed, focus⟩

/-- Whatever the tree and the area, every slot is placed or hidden, as often as it is in the tree,
and tabbing follows what is placed. -/
theorem resolve_partitions : (resolve area tree decls).ids.Perm tree.slotIds ∧
    (resolve area tree decls).focusOrder.Sublist ((resolve area tree decls).placements.map (·.1)) := by
  obtain ⟨shown, all⟩ := resolve_shown decls area tree
  exact ⟨resolve_ids decls area tree, all.sublist⟩

/-- What is painted lies in the area and shares no cell; when each split has a child that takes
what the fixed ones leave, no cell is left unpainted. -/
theorem resolve_tiles (bounded : area.Bounded) : Laid area (resolve area tree decls) ∧
    (tree.All Node.Flexible → ∀ col row, area.Has col row →
      ∃ p ∈ (resolve area tree decls).placements, p.2.Has col row) := by
  rcases resolve_cases decls area tree with plain | ⟨pruned, setAside, tries, -, aside⟩
  · rw [plain]
    exact ⟨placed_laid decls tree area bounded, fun flexible _ _ => placed_covers decls tree area bounded flexible⟩
  · rw [aside]
    have laid := placed_laid decls pruned area bounded
    exact ⟨⟨laid.inside, laid.apart⟩,
      fun flexible _ _ => placed_covers decls pruned area bounded (tries.flexible flexible)⟩

/-- Two listings side by side, of a kind that takes 20 columns. -/
def listings : KindRegistry := ⟨[⟨browser, (20, 5), true, [.active]⟩]⟩

def pair : Node Unit := .split .horizontal [.slot 1 browser () {}, .slot 2 browser () {}] [.weight 1, .weight 1]

theorem resolve_tiles_pair : Laid ⟨0, 0, 101, 30⟩ (resolve ⟨0, 0, 101, 30⟩ pair listings) ∧
    (pair.All Node.Flexible → ∀ col row, (⟨0, 0, 101, 30⟩ : Rect).Has col row →
      ∃ p ∈ (resolve ⟨0, 0, 101, 30⟩ pair listings).placements, p.2.Has col row) :=
  resolve_tiles listings ⟨0, 0, 101, 30⟩ pair ⟨by decide, by decide⟩

/-- Chrome is set aside only when the plain layout shows no listing, and only if that shows one;
what is set aside holds none, is hidden and is named. Where no listing shows, the layout is the
plain one: the tree has no listing, or nothing more can be set aside for the axis that is short. -/
theorem resolve_rescues :
    (listingUsable decls tree (placed decls tree area) = true → resolve area tree decls = placed decls tree area) ∧
    (listingUsable decls tree (resolve area tree decls) = true → resolve area tree decls = placed decls tree area ∨
      ∃ pruned gone, Tries decls area tree pruned (gone.filterMap Node.leafId) ∧ (pruned.leaves ++ gone).Perm tree.leaves ∧
        (∀ leaf ∈ gone, leaf.leafKind.any decls.holdsActive = false) ∧
        resolve area tree decls = asideFrame decls area pruned (gone.filterMap Node.leafId)) ∧
    (listingUsable decls tree (resolve area tree decls) = false →
      resolve area tree decls = placed decls tree area ∧ (tree.hasListing decls.holdsActive = false ∨
        ∃ pruned setAside, Tries decls area tree pruned setAside ∧
          listingUsable decls tree (placed decls pruned area) = false ∧ Stuck decls area tree pruned)) := by
  refine ⟨fun usable => ?_, fun _ => ?_, fun unusable => ?_⟩
  · rw [resolve_eq, usable, Bool.true_or, if_pos rfl]
  · rcases resolve_cases decls area tree with plain | ⟨pruned, setAside, tries, usable, aside⟩
    · exact .inl plain
    · obtain ⟨gone, rfl, leaves, none_⟩ := tries.whole
      exact .inr ⟨pruned, gone, tries, leaves, none_, aside⟩
  · have plain : resolve area tree decls = placed decls tree area := by
      rcases resolve_cases decls area tree with plain | ⟨pruned, setAside, tries, usable, aside⟩
      · exact plain
      · rw [aside] at unusable
        rw [usable_aside, usable] at unusable
        cases unusable
    refine ⟨plain, ?_⟩
    rw [plain] at unusable
    by_cases listing : tree.hasListing decls.holdsActive = true
    · rcases rescue_ends .start unusable with ⟨pruned, setAside, tries, usable, found⟩ | ⟨pruned, setAside, tries, still, stuck, -⟩
      · simp only [resolve_eq, unusable, listing, Bool.not_true, Bool.or_self, Bool.false_eq_true, if_false, found,
          Option.getD_some] at plain
        rw [← plain, usable_aside, usable] at unusable
        cases unusable
      · exact .inr ⟨pruned, setAside, tries, still, stuck⟩
    · exact .inl (Bool.eq_false_iff.mpr listing)

end Frame

end Norte.Layout
