import Norte.LayoutResolve

/-! Everything that a frame does with a tree. Whatever the tree, its slots are all in the frame, what
is painted lies apart in the area, and each split that is laid out side by side gives all of its
area to its children. -/
namespace Norte.Layout

variable {P : Type}

/-- Laying out a node in an area lays out the other node in the other area: the one tab that is
shown, the first child of a split that collapses, each child of a split that does not. -/
inductive LaidOut (decls : KindRegistry) : Node P → Rect → Node P → Rect → Prop where
  | here (n : Node P) (area : Rect) : LaidOut decls n area n area
  | tab {children : List (Node P)} {active : Nat} {c m : Node P} {area r : Rect}
      (shown : children[Node.shown children active]? = some c) (below : LaidOut decls c area m r) :
      LaidOut decls (.tabs children active) area m r
  | first {dir : Dir} {children : List (Node P)} {sizes : List Size} {c m : Node P} {area r : Rect}
      (collapses : fits decls children (sizesPlaced children.length sizes) (rectsOf decls dir children sizes area) = false)
      (first : children[0]? = some c) (below : LaidOut decls c area m r) :
      LaidOut decls (.split dir children sizes) area m r
  | each {dir : Dir} {children : List (Node P)} {sizes : List Size} {c m : Node P} {area own r : Rect} {i : Nat}
      (fit : fits decls children (sizesPlaced children.length sizes) (rectsOf decls dir children sizes area) = true)
      (child : children[i]? = some c) (rect : (rectsOf decls dir children sizes area)[i]? = some own)
      (below : LaidOut decls c own m r) : LaidOut decls (.split dir children sizes) area m r

variable {decls : KindRegistry}

theorem mem_soloed {children : List (Node P)} {idx : Nat} {area : Rect} {p : SlotId × Rect} :
    p ∈ (soloed decls children idx 0 area).placements ↔
      ∃ c, children[idx]? = some c ∧ p ∈ (placed decls c area).placements := by
  suffices all : ∀ start, p ∈ (soloed decls children (start + idx) start area).placements ↔
      ∃ c, children[idx]? = some c ∧ p ∈ (placed decls c area).placements by simpa using all 0
  induction children generalizing idx with
  | nil => simp [soloed, Resolved.empty]
  | cons c cs ih =>
    intro start
    rw [soloed, Resolved.placements_append, List.mem_append]
    cases idx with
    | zero =>
      rw [Nat.add_zero, if_pos rfl, soloed_past decls cs (Nat.lt_succ_self start)]
      simp [Resolved.hide, Resolved.empty]
    | succ idx =>
      rw [if_neg (by omega), show start + (idx + 1) = start + 1 + idx by omega, ih (start + 1)]
      simp [Resolved.hide, Resolved.empty]

variable (decls) in
/-- What is placed is the slots that are laid out, each in its area. -/
theorem mem_placements (n : Node P) (area : Rect) (p : SlotId × Rect) : p ∈ (placed decls n area).placements ↔
    ∃ kind params bindings, LaidOut decls n area (.slot p.1 kind params bindings) p.2 := by
  induction n using Node.induct generalizing area with
  | step n below =>
    rw [placed_eq]
    unfold addedBy
    rw [Resolved.placements_append]
    cases n with
    | slot id kind params bindings =>
      simp only [Resolved.note, Resolved.place, Resolved.empty, List.nil_append, List.mem_singleton]
      constructor
      · rintro rfl
        exact ⟨kind, params, bindings, .here _ _⟩
      · rintro ⟨_, _, _, laid⟩
        cases laid
        rfl
    | tabs children active =>
      simp only [Resolved.note, Resolved.empty, List.nil_append, mem_soloed]
      constructor
      · rintro ⟨c, there, member⟩
        obtain ⟨kind, params, bindings, laid⟩ := (below c (List.mem_of_getElem? there) area).mp member
        exact ⟨kind, params, bindings, .tab there laid⟩
      · rintro ⟨kind, params, bindings, laid⟩
        cases laid with
        | tab there laid => exact ⟨_, there, (below _ (List.mem_of_getElem? there) area).mpr ⟨_, _, _, laid⟩⟩
    | split dir children sizes =>
      simp only [Resolved.note, Resolved.empty, List.nil_append]
      split
      · rename_i fit
        rw [mem_eachPlaced]
        constructor
        · rintro ⟨i, c, r, child, rect, member⟩
          obtain ⟨kind, params, bindings, laid⟩ := (below c (List.mem_of_getElem? child) r).mp member
          exact ⟨kind, params, bindings, .each fit child rect laid⟩
        · rintro ⟨kind, params, bindings, laid⟩
          cases laid with
          | first collapses => simp [fit] at collapses
          | each _ child rect laid =>
            exact ⟨_, _, _, child, rect, (below _ (List.mem_of_getElem? child) _).mpr ⟨_, _, _, laid⟩⟩
      · rename_i collapses
        rw [mem_soloed]
        constructor
        · rintro ⟨c, there, member⟩
          obtain ⟨kind, params, bindings, laid⟩ := (below c (List.mem_of_getElem? there) area).mp member
          exact ⟨kind, params, bindings, .first (Bool.eq_false_iff.mpr collapses) there laid⟩
        · rintro ⟨kind, params, bindings, laid⟩
          cases laid with
          | first _ there laid => exact ⟨_, there, (below _ (List.mem_of_getElem? there) area).mpr ⟨_, _, _, laid⟩⟩
          | each fit => exact absurd fit collapses

/-- What is laid out lies in the area of what it is laid out in. -/
theorem LaidOut.inside {n m : Node P} {area r : Rect} (laid : LaidOut decls n area m r) (bounded : area.Bounded) :
    r.Inside area := by
  induction laid with
  | here => exact .refl _
  | tab _ _ ih => exact ih bounded
  | first _ _ _ ih => exact ih bounded
  | each _ _ rect _ ih =>
    have within := distribute_inside bounded _ _ _ _ (List.mem_of_getElem? rect)
    exact (ih (within.bounded bounded)).trans within

/-- The rectangles of the children of a split share no cell and leave none of its area out. While
there is room for the floors of all the weighted children, none of these is below its own. -/
structure Tiled (decls : KindRegistry) (dir : Dir) (children : List (Node P)) (sizes : List Size) (area : Rect)
    (rects : List Rect) : Prop where
  count : rects.length = children.length
  inside : ∀ r ∈ rects, r.Inside area
  apart : rects.Pairwise Rect.Apart
  whole : ∀ col row, area.Has col row → ∃ r ∈ rects, r.Has col row
  above : weightedFloors (sizesPlaced children.length sizes) (children.map fun c => dir.along (c.minOf decls)) ≤
      area.along dir - fixedCells (sizesPlaced children.length sizes) →
    ∀ (i : Nat) (c : Node P) (r : Rect), children[i]? = some c → rects[i]? = some r →
      (sizePlaced sizes i).isWeight = true → dir.along (c.minOf decls) ≤ r.along dir

theorem getElem?_sizesPlaced {count i : Nat} {sizes : List Size} (bound : i < count) :
    (sizesPlaced count sizes)[i]? = some (sizePlaced sizes i) := by
  rw [sizesPlaced, List.getElem?_map, List.getElem?_range bound, Option.map_some]

variable (decls) in
theorem rectsOf_tiled {area : Rect} (bounded : area.Bounded) (dir : Dir) {children : List (Node P)} {sizes : List Size}
    (flexible : (Node.split dir children sizes).Flexible) :
    Tiled decls dir children sizes area (rectsOf decls dir children sizes area) := by
  obtain ⟨i, bound, weight⟩ := flexible
  obtain ⟨w, asked⟩ := Size.isWeight_iff.mp weight
  have some_ : ∃ w, Size.weight w ∈ sizesPlaced children.length sizes :=
    ⟨w, asked ▸ List.mem_of_getElem? (getElem?_sizesPlaced bound)⟩
  refine ⟨length_rectsOf .., distribute_inside bounded _ _ _, distribute_apart bounded _ _ _,
    fun _ _ => distribute_whole bounded _ _ _ some_, fun fit j c r child rect weight => ?_⟩
  obtain ⟨w', asked'⟩ := Size.isWeight_iff.mp weight
  have size : (sizesPlaced children.length sizes)[j]? = some (.weight w') :=
    asked' ▸ getElem?_sizesPlaced (List.getElem?_eq_some_iff.mp child).1
  simpa [List.getElem?_map, child] using distribute_above bounded _ _ _ fit size rect

/-- Whatever the tree, a frame places or hides each of its slots, as often as it is there, and what it
places lies in the area and shares no cell. What is placed is what is laid out of the tree, or of
what is left of it, and every split of it that is laid out side by side is tiled by its children. -/
theorem resolve_whole (decls : KindRegistry) (area : Rect) (tree : Node P) (bounded : area.Bounded) :
    (resolve area tree decls).ids.Perm tree.slotIds ∧ Laid area (resolve area tree decls) ∧
    (resolve area tree decls).focusOrder.Sublist ((resolve area tree decls).placements.map (·.1)) ∧
    ∃ left setAside, Tries decls area tree left setAside ∧
      (∀ p, p ∈ (resolve area tree decls).placements ↔
        ∃ kind params bindings, LaidOut decls left area (.slot p.1 kind params bindings) p.2) ∧
      ∀ dir children sizes r, LaidOut decls left area (.split dir children sizes) r →
        fits decls children (sizesPlaced children.length sizes) (rectsOf decls dir children sizes r) = true →
        (∃ i < children.length, (sizePlaced sizes i).isWeight = true) →
        Tiled decls dir children sizes r (rectsOf decls dir children sizes r) := by
  have tiled (left : Node P) (dir : Dir) (children : List (Node P)) (sizes : List Size) (r : Rect)
      (laid : LaidOut decls left area (.split dir children sizes) r) (flexible : (Node.split dir children sizes).Flexible) :
      Tiled decls dir children sizes r (rectsOf decls dir children sizes r) :=
    rectsOf_tiled decls ((laid.inside bounded).bounded bounded) dir flexible
  obtain ⟨shown, all⟩ := resolve_shown decls area tree
  refine ⟨resolve_ids decls area tree, ?_, all.sublist, ?_⟩
  · rcases resolve_cases decls area tree with plain | ⟨left, setAside, -, -, aside⟩
    · rw [plain]
      exact placed_laid decls tree area bounded
    · rw [aside]
      exact ⟨(placed_laid decls left area bounded).inside, (placed_laid decls left area bounded).apart⟩
  · rcases resolve_cases decls area tree with plain | ⟨left, setAside, tries, -, aside⟩
    · rw [plain]
      exact ⟨tree, [], .start, mem_placements decls tree area, fun dir cs zs r laid _ => tiled tree dir cs zs r laid⟩
    · rw [aside]
      exact ⟨left, setAside, tries, mem_placements decls left area, fun dir cs zs r laid _ => tiled left dir cs zs r laid⟩

/-- A sidebar, a group whose active tab is out of range, a split of nothing and a listing that is
there twice, with a weight of zero and no size for the last two. -/
def ragged : Node Unit :=
  .split .horizontal [.slot 3 "places" () {}, .tabs [.slot 1 browser () {}, .slot 2 browser () {}] 7, .split .vertical [] [],
    .slot 1 browser () {}] [.fixed 16, .weight 0]

theorem resolve_whole_ragged : (resolve ⟨0, 0, 80, 24⟩ ragged listings).ids.Perm ragged.slotIds ∧
    Laid ⟨0, 0, 80, 24⟩ (resolve ⟨0, 0, 80, 24⟩ ragged listings) ∧
    (resolve ⟨0, 0, 80, 24⟩ ragged listings).focusOrder.Sublist
      ((resolve ⟨0, 0, 80, 24⟩ ragged listings).placements.map (·.1)) ∧
    ∃ left setAside, Tries listings ⟨0, 0, 80, 24⟩ ragged left setAside ∧
      (∀ p, p ∈ (resolve ⟨0, 0, 80, 24⟩ ragged listings).placements ↔
        ∃ kind params bindings, LaidOut listings left ⟨0, 0, 80, 24⟩ (.slot p.1 kind params bindings) p.2) ∧
      ∀ dir children sizes r, LaidOut listings left ⟨0, 0, 80, 24⟩ (.split dir children sizes) r →
        fits listings children (sizesPlaced children.length sizes) (rectsOf listings dir children sizes r) = true →
        (∃ i < children.length, (sizePlaced sizes i).isWeight = true) →
        Tiled listings dir children sizes r (rectsOf listings dir children sizes r) :=
  resolve_whole listings ⟨0, 0, 80, 24⟩ ragged ⟨by decide, by decide⟩

end Norte.Layout
