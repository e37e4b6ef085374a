import Mathlib.Data.List.Forall2

/-! A fallible step over a list stops at its first error. So the whole succeeds exactly when each
step does, and what comes out is, item by item, what each step gave. -/
namespace Norte.FirstError

variable {α β ε : Type}

theorem forM_ok {check : α → Except ε Unit} {items : List α} :
    items.forM check = .ok () ↔ ∀ item ∈ items, check item = .ok () := by
  induction items with
  | nil => simp [pure, Except.pure]
  | cons item rest ih =>
    cases first : check item with
    | ok u => simpa [bind, Except.bind, first] using ih
    | error e => simp [bind, Except.bind, first]

theorem mapM_ok {step : α → Except ε β} {items : List α} {out : List β} :
    items.mapM step = .ok out ↔ List.Forall₂ (fun item given => step item = .ok given) items out := by
  induction items generalizing out with
  | nil => simp [pure, Except.pure, eq_comm]
  | cons item rest ih =>
    rw [List.mapM_cons]
    cases first : step item with
    | error e =>
      refine iff_of_false (fun ok => by cases ok) fun all => ?_
      cases all with
      | cons head tail => rw [first] at head; cases head
    | ok given =>
      cases later : rest.mapM step with
      | error e =>
        refine iff_of_false (fun ok => ?_) fun all => ?_
        · simp [bind, Except.bind] at ok
        · cases all with
          | cons head tail => rw [ih.mpr tail] at later; cases later
      | ok givens =>
        have rest_ := ih.mp later
        constructor
        · intro ok
          simp only [bind, Except.bind, pure, Except.pure, Except.ok.injEq] at ok
          subst ok
          exact .cons first rest_
        · intro all
          cases all with
          | @cons _ g _ gs head tail =>
            rw [first] at head
            obtain rfl := Except.ok.inj head
            rw [ih.mpr tail] at later
            obtain rfl := Except.ok.inj later
            rfl

/-- Where the whole succeeds, each of the items given was given for one of the items. -/
theorem mem_of_mapM {step : α → Except ε β} {items : List α} {out : List β} (ok : items.mapM step = .ok out) {given : β}
    (member : given ∈ out) : ∃ item ∈ items, step item = .ok given := by
  induction mapM_ok.mp ok with
  | nil => simp at member
  | @cons item g rest gs head tail ih =>
    rcases List.mem_cons.mp member with rfl | later
    · exact ⟨item, List.mem_cons_self, head⟩
    · obtain ⟨other, inside, same⟩ := ih (mapM_ok.mpr tail) later
      exact ⟨other, List.mem_cons_of_mem _ inside, same⟩

theorem exists_mapM {step : α → Except ε β} {items : List α} :
    (∃ out, items.mapM step = .ok out) ↔ ∀ item ∈ items, ∃ given, step item = .ok given := by
  simp only [mapM_ok]
  induction items with
  | nil => simp
  | cons item rest ih =>
    rw [List.forall_mem_cons, ← ih]
    constructor
    · rintro ⟨out, all⟩
      cases all with
      | cons head tail => exact ⟨⟨_, head⟩, _, tail⟩
    · rintro ⟨⟨given, head⟩, out, tail⟩
      exact ⟨given :: out, .cons head tail⟩

theorem filterMap_toOption {step : α → Except ε β} {items : List α} {out : List β} (ok : items.mapM step = .ok out) :
    (items.filterMap fun item => (step item).toOption) = out := by
  induction mapM_ok.mp ok with
  | nil => rfl
  | cons head tail ih => rw [List.filterMap_cons_some (by rw [head]; rfl), ih (mapM_ok.mpr tail)]

end Norte.FirstError
