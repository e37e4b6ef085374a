import Norte.LayoutAside
import Norte.LayoutTiles

/-! Where each slot of a tree is placed: a leaf takes its whole area, a group gives it to the tab
it shows, and a split shares it out or, when its children are all weighted and one of them does
not fit, shows its first child only. What is not placed is hidden. -/
namespace Norte.Layout

variable {P : Type}

inductive LayoutDiagnostic where
  | activeClamped (was to_ : Nat)
  | zeroWeightRaised (at_ : Nat)
  | followRetargeted (slot : SlotId)
  | chromeSetAside (slot : SlotId)
  deriving DecidableEq, Repr

/-- What a frame needs to know: what is painted and where, what is not, and the order that
tabbing follows. -/
@[ext] structure Resolved where
  placements : List (SlotId × Rect)
  hidden : List SlotId
  focusOrder : List SlotId
  diagnostics : List LayoutDiagnostic
  deriving DecidableEq, Repr

namespace Resolved

def empty : Resolved := ⟨[], [], [], []⟩

/-- What comes after in the same frame. -/
instance : Append Resolved where
  append a b := ⟨a.placements ++ b.placements, a.hidden ++ b.hidden, a.focusOrder ++ b.focusOrder,
    a.diagnostics ++ b.diagnostics⟩

def place (out : Resolved) (id : SlotId) (area : Rect) (focusable : Bool) : Resolved :=
  { out with
    placements := out.placements ++ [(id, area)]
    focusOrder := out.focusOrder ++ if focusable then [id] else [] }

def hide (out : Resolved) (ids : List SlotId) : Resolved := { out with hidden := out.hidden ++ ids }

def note (out : Resolved) (notes : List LayoutDiagnostic) : Resolved :=
  { out with diagnostics := out.diagnostics ++ notes }

variable (a b c : Resolved)

@[simp] theorem placements_append : (a ++ b).placements = a.placements ++ b.placements := rfl

@[simp] theorem hidden_append : (a ++ b).hidden = a.hidden ++ b.hidden := rfl

@[simp] theorem focusOrder_append : (a ++ b).focusOrder = a.focusOrder ++ b.focusOrder := rfl

theorem append_assoc : a ++ b ++ c = a ++ (b ++ c) :=
  Resolved.ext (List.append_assoc ..) (List.append_assoc ..) (List.append_assoc ..) (List.append_assoc ..)

@[simp] theorem append_empty : a ++ empty = a :=
  Resolved.ext (List.append_nil _) (List.append_nil _) (List.append_nil _) (List.append_nil _)

@[simp] theorem empty_append : empty ++ a = a := rfl

theorem place_eq (id : SlotId) (area : Rect) (focusable : Bool) : a.place id area focusable = a ++ empty.place id area focusable :=
  Resolved.ext rfl (List.append_nil _).symm rfl (List.append_nil _).symm

theorem hide_eq (ids : List SlotId) : a.hide ids = a ++ empty.hide ids :=
  Resolved.ext (List.append_nil _).symm rfl (List.append_nil _).symm (List.append_nil _).symm

theorem note_eq (notes : List LayoutDiagnostic) : a.note notes = a ++ empty.note notes :=
  Resolved.ext (List.append_nil _).symm (List.append_nil _).symm (List.append_nil _).symm rfl

end Resolved

/-- What the recursion does with a child: it places it in an area, after what was placed. -/
abbrev Placer := Rect → Resolved → Resolved

/-- `solo_one`: child `idx` has the whole area, and the slots of the others are hidden. -/
def soloOne (children : List (Node P × Placer)) (idx : Nat) (area : Rect) (out : Resolved) : Resolved :=
  children.zipIdx.foldl (fun out child => if child.2 = idx then child.1.2 area out else out.hide child.1.1.slotIds) out

/-- The size a child is laid out with: a weight of zero counts as one, and so does a size that
is missing. -/
def sizePlaced (sizes : List Size) (i : Nat) : Size :=
  match sizes[i]? with
  | some (.weight 0) => .weight 1
  | some other => other
  | none => .weight 1

def sizesPlaced (count : Nat) (sizes : List Size) : List Size := (List.range count).map (sizePlaced sizes)

/-- The weights of zero that are raised. -/
def raised (count : Nat) (sizes : List Size) : List LayoutDiagnostic :=
  ((List.range count).filter fun i => sizes[i]? = some (.weight 0)).map .zeroWeightRaised

def Size.isWeight : Size → Bool
  | .weight _ => true
  | .fixed _ | .auto => false

theorem Size.isWeight_iff {size : Size} : size.isWeight = true ↔ ∃ w, size = .weight w := by
  cases size <;> simp [isWeight]

/-- A split collapses only if all its children are weighted. -/
def fits (decls : KindRegistry) (children : List (Node P)) (sizes : List Size) (rects : List Rect) : Bool :=
  !sizes.all Size.isWeight ||
    (children.zip rects).all fun child =>
      (child.1.minOf decls).1 ≤ child.2.width && (child.1.minOf decls).2 ≤ child.2.height

/-- The rectangles of the children of a split. -/
def rectsOf (decls : KindRegistry) (dir : Dir) (children : List (Node P)) (sizes : List Size) (area : Rect) : List Rect :=
  distribute area dir (sizesPlaced children.length sizes) (children.map fun c => dir.along (c.minOf decls))

/-- A child of a split in the rectangle it has been given. -/
def placeEach (below : List Placer) (rects : List Rect) (out : Resolved) : Resolved :=
  (below.zip rects).foldl (fun out child => child.1 child.2 out) out

def place (decls : KindRegistry) : Node P → Placer := Node.walk fun self below area out =>
  match self with
  | .slot id kind .. => out.place id area (decls.focusable kind)
  | .tabs children active =>
    if active < children.length then soloOne (children.zip below) active area out
    else soloOne (children.zip below) 0 area (out.note [.activeClamped active 0])
  | .split dir children sizes =>
    let rects := rectsOf decls dir children sizes area
    if fits decls children (sizesPlaced children.length sizes) rects then
      placeEach below rects (out.note (raised children.length sizes))
    else soloOne (children.zip below) 0 area (out.note (raised children.length sizes))

/-! ### What a node adds -/

/-- What a node adds to what was placed before it. -/
def placed (decls : KindRegistry) (n : Node P) (area : Rect) : Resolved := place decls n area .empty

/-- A child that adds the same, whatever was placed before it. -/
def Adds (placer : Placer) (added : Rect → Resolved) : Prop := ∀ area out, placer area out = out ++ added area

variable {decls : KindRegistry}

/-- What `solo_one` adds: one child, and the slots of the others. -/
def soloed (decls : KindRegistry) (children : List (Node P)) (idx start : Nat) (area : Rect) : Resolved :=
  match children with
  | [] => .empty
  | c :: cs =>
    (if start = idx then placed decls c area else Resolved.empty.hide c.slotIds) ++ soloed decls cs idx (start + 1) area

/-- What a split that fits adds. -/
def eachPlaced (decls : KindRegistry) : List (Node P) → List Rect → Resolved
  | c :: cs, r :: rs => placed decls c r ++ eachPlaced decls cs rs
  | _, _ => .empty

theorem soloOne_adds {children : List (Node P)} (adds : ∀ c ∈ children, Adds (place decls c) (placed decls c))
    (idx : Nat) (area : Rect) (out : Resolved) :
    soloOne (children.zip (children.map (place decls))) idx area out = out ++ soloed decls children idx 0 area := by
  suffices all : ∀ start out, ((children.zip (children.map (place decls))).zipIdx start).foldl
      (fun out child => if child.2 = idx then child.1.2 area out else out.hide child.1.1.slotIds) out =
      out ++ soloed decls children idx start area from all 0 out
  induction children with
  | nil => exact fun _ out => (out.append_empty).symm
  | cons c cs ih =>
    intro start out
    have rest := ih fun c later => adds c (List.mem_cons_of_mem _ later)
    simp only [List.map_cons, List.zip_cons_cons, List.zipIdx_cons, List.foldl_cons, rest, soloed]
    split
    · rw [adds c List.mem_cons_self, Resolved.append_assoc]
    · rw [Resolved.hide_eq, Resolved.append_assoc]

theorem placeEach_adds {children : List (Node P)} (adds : ∀ c ∈ children, Adds (place decls c) (placed decls c))
    (rects : List Rect) (out : Resolved) :
    placeEach (children.map (place decls)) rects out = out ++ eachPlaced decls children rects := by
  unfold placeEach
  induction children generalizing rects out with
  | nil => exact (out.append_empty).symm
  | cons c cs ih =>
    cases rects with
    | nil => exact (out.append_empty).symm
    | cons r rs =>
      have rest := ih fun c later => adds c (List.mem_cons_of_mem _ later)
      simp only [List.map_cons, List.zip_cons_cons, List.foldl_cons, eachPlaced]
      rw [rest, adds c List.mem_cons_self, Resolved.append_assoc]

/-- The notes that a node leaves of its own. -/
def notesOf : Node P → List LayoutDiagnostic
  | .tabs children active => if active < children.length then [] else [.activeClamped active 0]
  | .split _ children sizes => raised children.length sizes
  | .slot .. => []

/-- What a node adds, in terms of what its children add. -/
def addedBy (decls : KindRegistry) (n : Node P) (area : Rect) : Resolved :=
  Resolved.empty.note (notesOf n) ++
    match n with
    | .slot id kind .. => Resolved.empty.place id area (decls.focusable kind)
    | .tabs children active => soloed decls children (Node.shown children active) 0 area
    | .split dir children sizes =>
      if fits decls children (sizesPlaced children.length sizes) (rectsOf decls dir children sizes area) then
        eachPlaced decls children (rectsOf decls dir children sizes area)
      else soloed decls children 0 0 area

variable (decls) in
theorem place_adds (n : Node P) : Adds (place decls n) (addedBy decls n) := by
  have same {n : Node P} (adds : Adds (place decls n) (addedBy decls n)) : Adds (place decls n) (placed decls n) := by
    intro area out
    have own := adds area .empty
    rw [Resolved.empty_append] at own
    rw [adds, placed, own]
  induction n using Node.induct with
  | step n below =>
    intro area out
    have children c member := same (below c member)
    rw [place, Node.walk_eq]
    cases n with
    | slot id kind params bindings => exact out.place_eq id area _
    | tabs cs active =>
      simp only [addedBy, notesOf, Node.shown]
      split
      · exact soloOne_adds children active area out
      · rw [Resolved.note_eq, ← Resolved.append_assoc]
        exact soloOne_adds children 0 area _
    | split dir cs sizes =>
      simp only [addedBy, notesOf]
      rw [← Resolved.append_assoc, ← Resolved.note_eq]
      split
      · exact placeEach_adds children _ _
      · exact soloOne_adds children 0 area _

theorem placed_eq (n : Node P) (area : Rect) : placed decls n area = addedBy decls n area := by
  have own := place_adds decls n area .empty
  rwa [Resolved.empty_append] at own

/-- What was placed before stays. -/
theorem place_eq (n : Node P) (area : Rect) (out : Resolved) : place decls n area out = out ++ placed decls n area := by
  rw [placed_eq]
  exact place_adds decls n area out

/-! ### Every slot is placed or hidden, and no two share a cell -/

/-- The slots placed and those hidden. -/
def Resolved.ids (r : Resolved) : List SlotId := r.placements.map (·.1) ++ r.hidden

theorem Resolved.ids_append (a b : Resolved) : (a ++ b).ids.Perm (a.ids ++ b.ids) := by
  simp only [ids, placements_append, hidden_append, List.map_append, List.append_assoc]
  apply List.Perm.append_left
  rw [← List.append_assoc, ← List.append_assoc]
  exact List.perm_append_comm.append_right _

variable (decls) in
/-- Past the child that is shown the slots of the others are hidden. -/
theorem soloed_past (cs : List (Node P)) {idx start : Nat} (past : idx < start) (area : Rect) :
    soloed decls cs idx start area = Resolved.empty.hide (cs.flatMap Node.slotIds) := by
  induction cs generalizing start with
  | nil => rfl
  | cons c cs ih =>
    have other : start ≠ idx := by omega
    simp only [soloed, other, if_false, ih (Nat.lt_succ_of_lt past), List.flatMap_cons]
    rfl

variable (decls) in
/-- What shows one child of a node: the slots of the others are hidden. -/
theorem soloed_eq (pre : List (Node P)) (c : Node P) (post : List (Node P)) (area : Rect) :
    soloed decls (pre ++ c :: post) pre.length 0 area =
      Resolved.empty.hide (pre.flatMap Node.slotIds) ++ placed decls c area ++
        Resolved.empty.hide (post.flatMap Node.slotIds) := by
  suffices all : ∀ start, soloed decls (pre ++ c :: post) (start + pre.length) start area =
      Resolved.empty.hide (pre.flatMap Node.slotIds) ++ placed decls c area ++
        Resolved.empty.hide (post.flatMap Node.slotIds) by simpa using all 0
  induction pre with
  | nil =>
    intro start
    simp only [List.nil_append, List.length_nil, Nat.add_zero, soloed, if_true, soloed_past decls post (Nat.lt_succ_self start)]
    rfl
  | cons b bs ih =>
    intro start
    have other : start ≠ start + (bs.length + 1) := by omega
    have rest := ih (start + 1)
    rw [show start + 1 + bs.length = start + (bs.length + 1) by omega] at rest
    simp only [List.cons_append, List.length_cons, soloed, other, if_false, rest, List.flatMap_cons]
    simp only [← Resolved.append_assoc]
    rfl

/-- A group shows one of its tabs, if it has any. -/
theorem shown_split {cs : List (Node P)} (active : Nat) (some_ : cs ≠ []) :
    ∃ pre c post, cs = pre ++ c :: post ∧ Node.shown cs active = pre.length := by
  have bound : Node.shown cs active < cs.length := by
    have := List.length_pos_iff.mpr some_
    unfold Node.shown
    split <;> omega
  exact Node.split_there (List.getElem?_eq_getElem bound) |>.imp fun pre ⟨post, split, place⟩ => ⟨_, post, split, place⟩

variable (decls) in
/-- A node is placed as a slot, by showing one child only, or by giving each child a rectangle of
a split. -/
theorem placed_induct {motive : Node P → Rect → Resolved → Prop}
    (slot : ∀ id kind params bindings area,
      motive (.slot id kind params bindings) area (Resolved.empty.place id area (decls.focusable kind)))
    (bare : ∀ active area notes, motive (.tabs [] active) area (Resolved.empty.note notes))
    (solo : ∀ n area notes pre c post, n.children = pre ++ c :: post → n.isSlot = false →
      motive c area (placed decls c area) → motive n area (Resolved.empty.note notes ++
        (Resolved.empty.hide (pre.flatMap Node.slotIds) ++ placed decls c area ++
          Resolved.empty.hide (post.flatMap Node.slotIds))))
    (each : ∀ dir cs sizes area, (∀ c ∈ cs, ∀ r, motive c r (placed decls c r)) → motive (.split dir cs sizes) area
      (Resolved.empty.note (raised cs.length sizes) ++ eachPlaced decls cs (rectsOf decls dir cs sizes area)))
    (n : Node P) : ∀ area, motive n area (placed decls n area) := by
  induction n using Node.induct with
  | step n below =>
    intro area
    rw [placed_eq]
    cases n with
    | slot id kind params bindings => exact slot id kind params bindings area
    | tabs cs active =>
      by_cases none_ : cs = []
      · subst none_
        exact bare active area _
      · obtain ⟨pre, c, post, rfl, place⟩ := shown_split active none_
        simp only [addedBy, place, soloed_eq]
        exact solo _ area _ pre c post rfl rfl (below c (by simp) area)
    | split dir cs sizes =>
      simp only [addedBy, notesOf]
      split
      · exact each dir cs sizes area below
      · rename_i short
        cases cs with
        | nil => simp [fits, sizesPlaced] at short
        | cons c post =>
          have alone := soloed_eq decls [] c post area
          rw [List.nil_append, List.length_nil] at alone
          rw [alone]
          exact solo _ area _ [] c post rfl rfl (below c List.mem_cons_self area)

theorem length_rectsOf (decls : KindRegistry) (dir : Dir) (cs : List (Node P)) (sizes : List Size) (area : Rect) :
    (rectsOf decls dir cs sizes area).length = cs.length := by
  simp [rectsOf, length_distribute, sizesPlaced]

theorem eachPlaced_ids {cs : List (Node P)} (ids : ∀ c ∈ cs, ∀ r, (placed decls c r).ids.Perm c.slotIds)
    {rects : List Rect} (count : rects.length = cs.length) :
    (eachPlaced decls cs rects).ids.Perm (cs.flatMap Node.slotIds) := by
  induction cs generalizing rects with
  | nil => exact List.Perm.refl _
  | cons c cs ih =>
    cases rects with
    | nil => simp at count
    | cons r rs =>
      rw [List.flatMap_cons]
      apply (Resolved.ids_append _ _).trans
      apply (ids c List.mem_cons_self r).append
      exact ih (fun c later => ids c (List.mem_cons_of_mem _ later)) (by simpa using count)

/-- What is placed side by side is placed for one of the children, in its rectangle. -/
theorem mem_eachPlaced {cs : List (Node P)} {rects : List Rect} {p : SlotId × Rect} :
    p ∈ (eachPlaced decls cs rects).placements ↔
      ∃ (i : Nat) (c : Node P) (r : Rect), cs[i]? = some c ∧ rects[i]? = some r ∧ p ∈ (placed decls c r).placements := by
  induction cs generalizing rects with
  | nil => simp [eachPlaced, Resolved.empty]
  | cons c cs ih =>
    cases rects with
    | nil => simp [eachPlaced, Resolved.empty]
    | cons r rs =>
      simp only [eachPlaced, Resolved.placements_append, List.mem_append, ih]
      constructor
      · rintro (here | ⟨i, c', r', child, there, member⟩)
        · exact ⟨0, c, r, rfl, rfl, here⟩
        · exact ⟨i + 1, c', r', child, there, member⟩
      · rintro ⟨i, c', r', child, there, member⟩
        cases i with
        | zero =>
          obtain rfl := Option.some.inj child
          obtain rfl := Option.some.inj there
          exact .inl member
        | succ i => exact .inr ⟨i, c', r', child, there, member⟩

variable (decls) in
/-- Every slot of the tree is placed or hidden, as many times as it is there. -/
theorem placed_ids (n : Node P) (area : Rect) : (placed decls n area).ids.Perm n.slotIds := by
  induction n, area using placed_induct decls with
  | slot id kind params bindings area => exact List.Perm.refl _
  | bare active area notes => exact List.Perm.refl _
  | solo n area notes pre c post children inner ih =>
    rw [Node.slotIds_children inner, children, List.flatMap_append, List.flatMap_cons]
    apply (Resolved.ids_append _ _).trans
    apply ((Resolved.ids_append _ _).trans ((Resolved.ids_append _ _).append_right _)).trans
    rw [List.append_assoc]
    exact (ih.append_right _).append_left _
  | each dir cs sizes area ih =>
    apply (Resolved.ids_append _ _).trans
    rw [Node.slotIds_children rfl]
    exact eachPlaced_ids ih (length_rectsOf ..)

/-- The leaves that are shown: all of them are placed, and tabbing stops at those that take the focus. -/
structure Shown (decls : KindRegistry) (n : Node P) (r : Resolved) (shown : List (Node P)) : Prop where
  leaves : ∀ leaf ∈ shown, leaf ∈ n.leaves
  placed : r.placements.map (·.1) = shown.filterMap Node.leafId
  focus : r.focusOrder = (shown.filter fun leaf => leaf.leafKind.any decls.focusable).filterMap Node.leafId

theorem Shown.sublist {n : Node P} {r : Resolved} {shown : List (Node P)} (all : Shown decls n r shown) :
    r.focusOrder.Sublist (r.placements.map (·.1)) := by
  rw [all.focus, all.placed]
  exact List.filter_sublist.filterMap _

theorem eachPlaced_shown {cs : List (Node P)} (each : ∀ c ∈ cs, ∀ r, ∃ shown, Shown decls c (placed decls c r) shown)
    (rects : List Rect) : ∃ shown : List (Node P), (∀ leaf ∈ shown, leaf ∈ cs.flatMap Node.leaves) ∧
      (eachPlaced decls cs rects).placements.map (·.1) = shown.filterMap Node.leafId ∧
      (eachPlaced decls cs rects).focusOrder =
        (shown.filter fun leaf => leaf.leafKind.any decls.focusable).filterMap Node.leafId := by
  induction cs generalizing rects with
  | nil => exact ⟨[], by simp, rfl, rfl⟩
  | cons c cs ih =>
    cases rects with
    | nil => exact ⟨[], by simp, rfl, rfl⟩
    | cons r rs =>
      obtain ⟨first, here⟩ := each c List.mem_cons_self r
      obtain ⟨rest, inside, placed, focus⟩ := ih (fun c later => each c (List.mem_cons_of_mem _ later)) rs
      refine ⟨first ++ rest, fun leaf member => ?_, ?_, ?_⟩
      · rw [List.flatMap_cons]
        exact List.mem_append.mpr ((List.mem_append.mp member).imp (here.leaves leaf) (inside leaf))
      · rw [eachPlaced, Resolved.placements_append, List.map_append, List.filterMap_append, here.placed, placed]
      · rw [eachPlaced, Resolved.focusOrder_append, List.filter_append, List.filterMap_append, here.focus, focus]

variable (decls) in
theorem placed_shown (n : Node P) (area : Rect) : ∃ shown, Shown decls n (placed decls n area) shown := by
  induction n, area using placed_induct decls with
  | slot id kind params bindings area =>
    refine ⟨[.slot id kind params bindings], by simp, rfl, ?_⟩
    cases focusable : decls.focusable kind <;> simp [Resolved.place, Resolved.empty, Node.leafKind, Node.leafId, focusable]
  | bare active area notes => exact ⟨[], by simp, rfl, rfl⟩
  | solo n area notes pre c post children inner ih =>
    obtain ⟨shown, leaves, placed, focus⟩ := ih
    refine ⟨shown, fun leaf member => ?_, ?_, ?_⟩
    · rw [Node.leaves_eq n inner, children]
      simp [leaves leaf member]
    · simpa [Resolved.hide, Resolved.note, Resolved.empty] using placed
    · simpa [Resolved.hide, Resolved.note, Resolved.empty] using focus
  | each dir cs sizes area ih =>
    obtain ⟨shown, leaves, placed, focus⟩ := eachPlaced_shown ih (rectsOf decls dir cs sizes area)
    refine ⟨shown, fun leaf member => ?_, ?_, ?_⟩
    · rw [Node.leaves_split]
      exact leaves leaf member
    · simpa [Resolved.note, Resolved.empty] using placed
    · simpa [Resolved.note, Resolved.empty] using focus

/-- What is placed lies in the area and shares no cell. -/
structure Laid (area : Rect) (r : Resolved) : Prop where
  inside : ∀ p ∈ r.placements, p.2.Inside area
  apart : r.placements.Pairwise fun a b => a.2.Apart b.2

/-- Side by side in rectangles that share no cell. -/
theorem eachPlaced_laid {area : Rect} {cs : List (Node P)} {rects : List Rect}
    (laid : ∀ c ∈ cs, ∀ r ∈ rects, Laid r (placed decls c r)) (inside : ∀ r ∈ rects, r.Inside area)
    (apart : rects.Pairwise Rect.Apart) : Laid area (eachPlaced decls cs rects) := by
  induction cs generalizing rects with
  | nil => exact ⟨by simp [eachPlaced, Resolved.empty], .nil⟩
  | cons c cs ih =>
    cases rects with
    | nil => exact ⟨by simp [eachPlaced, Resolved.empty], .nil⟩
    | cons r rs =>
      have first := laid c List.mem_cons_self r List.mem_cons_self
      have later (c' : Node P) (member : c' ∈ cs) (r' : Rect) (other : r' ∈ rs) :=
        laid c' (List.mem_cons_of_mem _ member) r' (List.mem_cons_of_mem _ other)
      have rest := ih later (fun r' other => inside r' (List.mem_cons_of_mem _ other)) apart.of_cons
      refine ⟨fun p member => ?_, ?_⟩
      · rcases List.mem_append.mp member with here | there
        · exact (first.inside p here).trans (inside r List.mem_cons_self)
        · exact rest.inside p there
      · apply List.pairwise_append.mpr
        refine ⟨first.apart, rest.apart, fun a here b there => ?_⟩
        obtain ⟨i, c', r', child, other, placed⟩ := mem_eachPlaced.mp there
        have member := List.mem_of_getElem? other
        have within := (later c' (List.mem_of_getElem? child) r' member).inside b placed
        exact ((List.pairwise_cons.mp apart).1 r' member).inside (first.inside a here) within

variable (decls) in
theorem placed_laid (n : Node P) (area : Rect) (bounded : area.Bounded) : Laid area (placed decls n area) := by
  induction n, area using placed_induct decls with
  | slot id kind params bindings area =>
    exact ⟨by simp [Resolved.place, Resolved.empty, Rect.Inside.refl], by simp [Resolved.place, Resolved.empty]⟩
  | bare active area notes => exact ⟨by simp [Resolved.note, Resolved.empty], .nil⟩
  | solo n area notes pre c post children inner ih =>
    have laid := ih bounded
    exact ⟨by simpa [Resolved.hide, Resolved.note, Resolved.empty] using laid.inside,
      by simpa [Resolved.hide, Resolved.note, Resolved.empty] using laid.apart⟩
  | each dir cs sizes area ih =>
    have inside : ∀ r ∈ rectsOf decls dir cs sizes area, r.Inside area := distribute_inside bounded dir _ _
    have laid : Laid area (eachPlaced decls cs (rectsOf decls dir cs sizes area)) :=
      eachPlaced_laid (fun c member r member' => ih c member r ((inside r member').bounded bounded))
        inside (distribute_apart bounded dir _ _)
    exact ⟨by simpa [Resolved.note, Resolved.empty] using laid.inside,
      by simpa [Resolved.note, Resolved.empty] using laid.apart⟩

/-- A split has a child that takes what the fixed ones leave, and no group is empty. -/
def Node.Flexible : Node P → Prop
  | .split _ children sizes => ∃ i < children.length, (sizePlaced sizes i).isWeight = true
  | .tabs children _ => children ≠ []
  | .slot .. => True

variable (decls) in
/-- No cell is left unpainted. -/
theorem placed_covers (n : Node P) (area : Rect) (bounded : area.Bounded) (flexible : n.All Node.Flexible) {col row : Nat}
    (has : area.Has col row) : ∃ p ∈ (placed decls n area).placements, p.2.Has col row := by
  induction n, area using placed_induct decls with
  | slot id kind params bindings area => exact ⟨(id, area), List.mem_singleton_self _, has⟩
  | bare active area notes => exact absurd rfl ((Node.all_iff _).mp flexible).1
  | solo n area notes pre c post children inner ih =>
    have below := ((Node.all_iff _).mp flexible).2 c (by rw [children]; simp)
    simpa [Resolved.hide, Resolved.note, Resolved.empty] using ih bounded below has
  | each dir cs sizes area ih =>
    obtain ⟨⟨i, bound, weight⟩, below⟩ := (Node.all_iff _).mp flexible
    have some_ : ∃ w, Size.weight w ∈ sizesPlaced cs.length sizes := by
      obtain ⟨w, asked⟩ := Size.isWeight_iff.mp weight
      exact ⟨w, List.mem_map.mpr ⟨i, List.mem_range.mpr bound, asked⟩⟩
    obtain ⟨r, member, inside⟩ := distribute_whole bounded dir (sizesPlaced cs.length sizes)
      (cs.map fun c => dir.along (c.minOf decls)) some_ has
    obtain ⟨j, there⟩ := List.mem_iff_getElem?.mp member
    have count : (rectsOf decls dir cs sizes area).length = cs.length := length_rectsOf ..
    obtain ⟨c, child⟩ : ∃ c, cs[j]? = some c := by
      have := (List.getElem?_eq_some_iff.mp there).1
      exact ⟨_, List.getElem?_eq_getElem (count ▸ this)⟩
    have fromChild := ih c (List.mem_of_getElem? child) r
      ((distribute_inside bounded dir _ _ r member).bounded bounded)
      (below c (List.mem_of_getElem? child)) inside
    obtain ⟨p, placed, cell⟩ := fromChild
    exact ⟨p, List.mem_append_right _ (mem_eachPlaced.mpr ⟨j, c, r, child, there, placed⟩), cell⟩

end Norte.Layout
