import Norte.LayoutResolve
import Norte.LayoutValid

/-! What a frame is asked: whether two slots of a kind would fit where there is one, and which
slot is next on the way of the tab key. -/
namespace Norte.Layout

variable {P : Type}

/-! ### Room for two -/

/-- Asked before a slot is split in two along `dir`. -/
def hasRoomToSplit (rect : Rect) (dir : Dir) (kind : KindId) (decls : KindRegistry) : Bool :=
  match dir with
  | .horizontal => (decls.minOf kind).1 ≤ rect.width / 2 && (decls.minOf kind).2 ≤ rect.height
  | .vertical => (decls.minOf kind).2 ≤ rect.height / 2 && (decls.minOf kind).1 ≤ rect.width

/-- Two slots of a kind, side by side and of equal weight. -/
def twoOf (dir : Dir) (kind : KindId) (first second : SlotId × P × Bindings) : Node P :=
  .split dir [.slot first.1 kind first.2.1 first.2.2, .slot second.1 kind second.2.1 second.2.2] [.weight 1, .weight 1]

/-- Two equal weights have what there is between them, and their floors if it is enough for both. -/
theorem assigned_two (extent least : Nat) : ∃ x y, (assigned extent [.weight 1, .weight 1] [least, least]).map Part.assigned = [x, y] ∧
    x + y = extent ∧ (least + least ≤ extent → least ≤ x ∧ least ≤ y) := by
  have whole := (cells_assigned extent [.weight 1, .weight 1] [least, least]).2 ⟨1, by simp⟩
  obtain ⟨-, -, above⟩ := assigned_proportional extent [.weight 1, .weight 1] [least, least]
  have asked {i : Nat} {p : Part} (here : (assigned extent [.weight 1, .weight 1] [least, least])[i]? = some p) :=
    assigned_asked here
  obtain ⟨a, b, settled⟩ := List.length_eq_two.mp (length_assigned extent [.weight 1, .weight 1] [least, least])
  obtain ⟨first, floor, -, -⟩ := asked (i := 0) (p := a) (by rw [settled]; rfl)
  obtain ⟨second, floor', -, -⟩ := asked (i := 1) (p := b) (by rw [settled]; rfl)
  rw [settled] at whole above ⊢
  simp only [cells, List.map_cons, List.map_nil, List.sum_cons, List.sum_nil, Nat.add_zero] at whole
  refine ⟨a.assigned, b.assigned, rfl, whole, fun room => ?_⟩
  have fits : weightedFloors [.weight 1, .weight 1] [least, least] ≤ extent - fixedCells [.weight 1, .weight 1] := room
  have one := above fits a (by simp) (weighted_iff.mpr ⟨1, (Option.some.inj first).symm⟩)
  have two := above fits b (by simp) (weighted_iff.mpr ⟨1, (Option.some.inj second).symm⟩)
  rw [floor] at one
  rw [floor'] at two
  exact ⟨one, two⟩

/-- The halves of a slot that is split. -/
theorem rectsOf_two {decls : KindRegistry} {rect : Rect} (bounded : rect.Bounded) (dir : Dir) (kind : KindId)
    (first second : SlotId × P × Bindings) : ∃ x y, x + y = rect.along dir ∧
      (dir.along (decls.minOf kind) + dir.along (decls.minOf kind) ≤ rect.along dir →
        dir.along (decls.minOf kind) ≤ x ∧ dir.along (decls.minOf kind) ≤ y) ∧
      rectsOf decls dir (twoOf dir kind first second).children [.weight 1, .weight 1] rect =
        match dir with
        | .horizontal => [⟨rect.x, rect.y, x, rect.height⟩, ⟨rect.x + x, rect.y, y, rect.height⟩]
        | .vertical => [⟨rect.x, rect.y, rect.width, x⟩, ⟨rect.x, rect.y + x, rect.width, y⟩] := by
  obtain ⟨x, y, given, sum, above⟩ := assigned_two (rect.along dir) (dir.along (decls.minOf kind))
  refine ⟨x, y, sum, above, ?_⟩
  have spans : rectsOf decls dir (twoOf dir kind first second).children [.weight 1, .weight 1] rect =
      (EndToEnd.spans 0 [x, y]).map fun s => slice rect dir s.1 s.2 := by
    rw [← given]
    rfl
  rw [spans]
  simp only [EndToEnd.spans, List.map_cons, List.map_nil]
  rw [slice_eq bounded (by omega), slice_eq bounded (by omega)]
  cases dir with
  | horizontal => simp [Rect.part]
  | vertical => simp [Rect.part]

/-- A split of two hides neither exactly when both fit. -/
theorem hidden_two {decls : KindRegistry} {rect : Rect} (dir : Dir) (kind : KindId) (first second : SlotId × P × Bindings) :
    (placed decls (twoOf dir kind first second) rect).hidden = [] ↔
      ∀ r ∈ rectsOf decls dir (twoOf dir kind first second).children [.weight 1, .weight 1] rect,
        (decls.minOf kind).1 ≤ r.width ∧ (decls.minOf kind).2 ≤ r.height := by
  have count := length_rectsOf decls dir (twoOf dir kind first second).children [.weight 1, .weight 1] rect
  rw [placed_eq, twoOf]
  simp only [twoOf, Node.children] at count
  simp only [addedBy, Resolved.hidden_append, Node.children]
  generalize rectsOf decls dir _ _ rect = rects at count ⊢
  obtain ⟨r, r', rfl⟩ := List.length_eq_two.mp count
  have mins (id : SlotId) (params : P) (bindings : Bindings) :
      (Node.slot id kind params bindings : Node P).minOf decls = decls.minOf kind := rfl
  have weights : (sizesPlaced 2 [.weight 1, .weight 1]).all Size.isWeight = true := rfl
  split
  · rename_i both
    simp only [fits, List.length_cons, List.length_nil, Nat.zero_add, Nat.reduceAdd, weights, Bool.not_true, Bool.false_or,
      List.zip_cons_cons, List.zip_nil_right, List.all_cons, List.all_nil, mins, Bool.and_true, Bool.and_eq_true,
      decide_eq_true_eq] at both
    exact iff_of_true rfl (by simpa using both)
  · rename_i short
    simp only [fits, List.length_cons, List.length_nil, Nat.zero_add, Nat.reduceAdd, weights, Bool.not_true, Bool.false_or,
      List.zip_cons_cons, List.zip_nil_right, List.all_cons, List.all_nil, mins, Bool.and_true, Bool.and_eq_true,
      decide_eq_true_eq] at short
    refine iff_of_false ?_ (by simpa using short)
    intro none_
    cases none_

/-- There is room for two exactly when a split of the slot hides neither half. -/
theorem hasRoomToSplit_iff {decls : KindRegistry} {rect : Rect} (bounded : rect.Bounded) (dir : Dir) (kind : KindId)
    (first second : SlotId × P × Bindings) : hasRoomToSplit rect dir kind decls = true ↔
      (placed decls (twoOf dir kind first second) rect).hidden = [] := by
  obtain ⟨x, y, sum, above, rects⟩ := rectsOf_two bounded dir kind first second
  rw [hidden_two, rects]
  cases dir with
  | horizontal =>
    simp only [Rect.along, Dir.along] at sum above
    simp only [hasRoomToSplit, Bool.and_eq_true, decide_eq_true_eq, List.forall_mem_cons, List.not_mem_nil, false_implies,
      implies_true, and_true]
    omega
  | vertical =>
    simp only [Rect.along, Dir.along] at sum above
    simp only [hasRoomToSplit, Bool.and_eq_true, decide_eq_true_eq, List.forall_mem_cons, List.not_mem_nil, false_implies,
      implies_true, and_true]
    omega

theorem hasRoomToSplit_iff_listing : hasRoomToSplit ⟨0, 0, 100, 30⟩ .horizontal browser listings = true ↔
    (placed listings (twoOf .horizontal browser (1, (), {}) (2, (), {})) ⟨0, 0, 100, 30⟩).hidden = [] :=
  hasRoomToSplit_iff ⟨by decide, by decide⟩ .horizontal browser _ _

/-! ### The way of the tab key -/

/-- The next focusable slot, in a cycle; from one that is not on the way, the first. -/
def focusNext (resolved : Resolved) (actual : SlotId) : Option SlotId :=
  match resolved.focusOrder.findIdx? (· = actual) with
  | some i => resolved.focusOrder[(i + 1) % resolved.focusOrder.length]?
  | none => resolved.focusOrder.head?

def focusPrev (resolved : Resolved) (actual : SlotId) : Option SlotId :=
  match resolved.focusOrder.findIdx? (· = actual) with
  | some i => resolved.focusOrder[(i + resolved.focusOrder.length - 1) % resolved.focusOrder.length]?
  | none => resolved.focusOrder.head?

section Focus

variable {resolved : Resolved}

theorem findIdx_at (once : resolved.focusOrder.Nodup) {i : Nat} (bound : i < resolved.focusOrder.length) :
    resolved.focusOrder.findIdx? (· = resolved.focusOrder[i]) = some i := by
  rw [List.findIdx?_eq_some_iff_getElem]
  refine ⟨bound, by simp, fun j before => ?_⟩
  have other : resolved.focusOrder[j] ≠ resolved.focusOrder[i] := fun same =>
    absurd ((List.Nodup.getElem_inj_iff once).mp same) (by omega)
  simpa using other

theorem focusNext_at (once : resolved.focusOrder.Nodup) {i : Nat} (bound : i < resolved.focusOrder.length) :
    focusNext resolved resolved.focusOrder[i] = resolved.focusOrder[(i + 1) % resolved.focusOrder.length]? := by
  simp only [focusNext, findIdx_at once bound]

theorem focusPrev_at (once : resolved.focusOrder.Nodup) {i : Nat} (bound : i < resolved.focusOrder.length) :
    focusPrev resolved resolved.focusOrder[i] =
      resolved.focusOrder[(i + resolved.focusOrder.length - 1) % resolved.focusOrder.length]? := by
  simp only [focusPrev, findIdx_at once bound]

/-- The focus after the tab key is struck a number of times. -/
def tabbed (resolved : Resolved) (actual : SlotId) : Nat → Option SlotId
  | 0 => some actual
  | k + 1 => (tabbed resolved actual k).bind (focusNext resolved)

theorem tabbed_succ (actual : SlotId) (k : Nat) :
    tabbed resolved actual (k + 1) = (focusNext resolved actual).bind fun next => tabbed resolved next k := by
  induction k with
  | zero => cases next : focusNext resolved actual <;> simp [tabbed, next]
  | succ k ih =>
    rw [tabbed, ih]
    cases focusNext resolved actual <;> rfl

theorem tabbed_at (once : resolved.focusOrder.Nodup) {i : Nat} (bound : i < resolved.focusOrder.length) (k : Nat) :
    tabbed resolved resolved.focusOrder[i] k = resolved.focusOrder[(i + k) % resolved.focusOrder.length]? := by
  induction k with
  | zero => rw [tabbed, Nat.add_zero, Nat.mod_eq_of_lt bound, List.getElem?_eq_getElem bound]
  | succ k ih =>
    have here : (i + k) % resolved.focusOrder.length < resolved.focusOrder.length := Nat.mod_lt _ (by omega)
    rw [tabbed, ih, List.getElem?_eq_getElem here, Option.bind_some, focusNext_at once here, Nat.mod_add_mod, Nat.add_assoc]

theorem focus_back (once : resolved.focusOrder.Nodup) {actual : SlotId} (there : actual ∈ resolved.focusOrder) :
    (focusNext resolved actual).bind (focusPrev resolved) = some actual := by
  obtain ⟨i, bound, rfl⟩ := List.mem_iff_getElem.mp there
  have next : (i + 1) % resolved.focusOrder.length < resolved.focusOrder.length := Nat.mod_lt _ (by omega)
  rw [focusNext_at once bound, List.getElem?_eq_getElem next, Option.bind_some, focusPrev_at once next]
  have back : ((i + 1) % resolved.focusOrder.length + resolved.focusOrder.length - 1) % resolved.focusOrder.length = i := by
    rcases Nat.lt_or_eq_of_le (Nat.succ_le_of_lt bound) with inside | last
    · rw [Nat.mod_eq_of_lt inside, show i.succ + resolved.focusOrder.length - 1 = i + resolved.focusOrder.length by omega,
        Nat.add_mod_right, Nat.mod_eq_of_lt bound]
    · rw [show i + 1 = resolved.focusOrder.length from last, Nat.mod_self, Nat.zero_add]
      rw [show resolved.focusOrder.length - 1 = i by omega, Nat.mod_eq_of_lt bound]
  rw [back, List.getElem?_eq_getElem bound]

/-- From wherever the focus is, the tab key reaches every slot that takes it. -/
theorem tabbed_reaches (once : resolved.focusOrder.Nodup) (actual : SlotId) {wanted : SlotId}
    (there : wanted ∈ resolved.focusOrder) : ∃ k ≤ resolved.focusOrder.length, tabbed resolved actual k = some wanted := by
  obtain ⟨j, bound, rfl⟩ := List.mem_iff_getElem.mp there
  by_cases known : actual ∈ resolved.focusOrder
  · obtain ⟨i, bound', rfl⟩ := List.mem_iff_getElem.mp known
    refine ⟨(j + resolved.focusOrder.length - i) % resolved.focusOrder.length, Nat.le_of_lt (Nat.mod_lt _ (by omega)), ?_⟩
    rw [tabbed_at once bound', Nat.add_mod_mod, show i + (j + resolved.focusOrder.length - i) = j + resolved.focusOrder.length by omega,
      Nat.add_mod_right, Nat.mod_eq_of_lt bound, List.getElem?_eq_getElem bound]
  · have some_ : 0 < resolved.focusOrder.length := by omega
    have first : focusNext resolved actual = some resolved.focusOrder[0] := by
      have absent : resolved.focusOrder.findIdx? (· = actual) = none := by
        rw [List.findIdx?_eq_none_iff]
        intro id member
        exact decide_eq_false fun same => known (same ▸ member)
      simp only [focusNext, absent, List.head?_eq_getElem?, List.getElem?_eq_getElem some_]
    refine ⟨j + 1, bound, ?_⟩
    rw [tabbed_succ, first, Option.bind_some, tabbed_at once, Nat.zero_add, Nat.mod_eq_of_lt bound, List.getElem?_eq_getElem bound]

/-- The slots on the screen whose kind takes the focus. -/
def stops (decls : KindRegistry) (tree : Node P) (frame : Resolved) : List SlotId :=
  (frame.placements.map (·.1)).filter fun id => (tree.kindOf id).any decls.focusable

/-- Tabbing stops at all of them, and at nothing else. -/
theorem focusOrder_stops {decls : KindRegistry} {area : Rect} {tree : Node P} (once : tree.slotIds.Nodup) :
    (resolve area tree decls).focusOrder = stops decls tree (resolve area tree decls) := by
  obtain ⟨shown, leaves, placed, focus⟩ := resolve_shown decls area tree
  rw [stops, placed, focus, List.filter_filterMap, List.filterMap_filter]
  apply List.filterMap_congr
  intro leaf member
  obtain ⟨id, named, -⟩ := Node.leafId_of_mem (leaves leaf member)
  have kind : tree.kindOf id = leaf.leafKind := by
    rw [Node.kindOf_eq, Node.findSlot_of_mem once (leaves leaf member) named, Option.bind_some]
  rw [named, Option.filter_some, kind]

/-- In a layout that is accepted, the tab key reaches every panel of the frame that takes the
focus, from wherever it is, and nothing else; and the other way is back. -/
theorem focus_cycles {decls : KindRegistry} {area : Rect} {tree : Node P} (valid : validate tree = .ok ()) :
    (∀ actual, ∀ wanted ∈ stops decls tree (resolve area tree decls),
      ∃ k ≤ (stops decls tree (resolve area tree decls)).length, tabbed (resolve area tree decls) actual k = some wanted) ∧
    (∀ actual next, focusNext (resolve area tree decls) actual = some next → next ∈ stops decls tree (resolve area tree decls)) ∧
    ∀ actual ∈ stops decls tree (resolve area tree decls),
      (focusNext (resolve area tree decls) actual).bind (focusPrev (resolve area tree decls)) = some actual := by
  have ids := ((validate_ok tree).mp valid).1
  have once : (resolve area tree decls).focusOrder.Nodup := by
    obtain ⟨shown, all⟩ := resolve_shown decls area tree
    have whole : (resolve area tree decls).ids.Nodup := (resolve_ids decls area tree).nodup_iff.mpr ids
    exact ((List.nodup_append.mp whole).1).sublist all.sublist
  rw [← focusOrder_stops ids]
  refine ⟨fun actual _ => tabbed_reaches once actual, fun actual next there => ?_, fun _ => focus_back once⟩
  unfold focusNext at there
  split at there
  · exact List.mem_of_getElem? there
  · exact List.mem_of_head? there

theorem focus_cycles_pair : (∀ actual, ∀ wanted ∈ stops listings pair (resolve ⟨0, 0, 101, 30⟩ pair listings),
      ∃ k ≤ (stops listings pair (resolve ⟨0, 0, 101, 30⟩ pair listings)).length,
        tabbed (resolve ⟨0, 0, 101, 30⟩ pair listings) actual k = some wanted) ∧
    (∀ actual next, focusNext (resolve ⟨0, 0, 101, 30⟩ pair listings) actual = some next →
      next ∈ stops listings pair (resolve ⟨0, 0, 101, 30⟩ pair listings)) ∧
    ∀ actual ∈ stops listings pair (resolve ⟨0, 0, 101, 30⟩ pair listings),
      (focusNext (resolve ⟨0, 0, 101, 30⟩ pair listings) actual).bind
        (focusPrev (resolve ⟨0, 0, 101, 30⟩ pair listings)) = some actual :=
  focus_cycles rfl

end Focus

end Norte.Layout
