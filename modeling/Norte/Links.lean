import Mathlib.Data.List.Basic

/-! Rows that are numbered one by one and carry the digest of the row before. What is
numbered and what a digest is are parameters. -/
namespace Norte.Links

variable {R H : Type*} (seq : R → Int) (prev hash : R → H)

/-- From number `n` on, after a row with digest `h`. -/
def Linked : Int → H → List R → Prop
  | _, _, [] => True
  | n, h, r :: rows => seq r = n ∧ prev r = h ∧ Linked (n + 1) (hash r) rows

/-- The digest the next row has to carry. -/
def tip : H → List R → H
  | h, [] => h
  | _, r :: rows => tip (hash r) rows

variable {seq prev hash}

@[simp] theorem tip_append (h : H) (first second : List R) :
    tip hash h (first ++ second) = tip hash (tip hash h first) second := by
  induction first generalizing h with
  | nil => rfl
  | cons r first ih => exact ih (hash r)

theorem tip_mem (hash : R → H) (h : H) {rows : List R} (some_ : rows ≠ []) :
    ∃ r ∈ rows, tip hash h rows = hash r := by
  induction rows generalizing h with
  | nil => exact absurd rfl some_
  | cons r rows ih =>
    by_cases last : rows = []
    · exact ⟨r, List.mem_cons_self, by rw [last]; rfl⟩
    · obtain ⟨s, member, same⟩ := ih (hash r) last
      exact ⟨s, List.mem_cons_of_mem _ member, same⟩

theorem linked_append {n : Int} {h : H} {first second : List R} :
    Linked seq prev hash n h (first ++ second) ↔ Linked seq prev hash n h first ∧
      Linked seq prev hash (n + first.length) (tip hash h first) second := by
  induction first generalizing n h with
  | nil => simp [Linked, tip]
  | cons r first ih =>
    simp only [List.cons_append, Linked, tip, ih, List.length_cons, Int.natCast_add, Int.natCast_one,
      and_assoc, Int.add_right_comm n 1, Int.add_assoc]

theorem Linked.mem {n : Int} {h : H} {rows : List R} (linked : Linked seq prev hash n h rows) {r : R}
    (member : r ∈ rows) : n ≤ seq r ∧ seq r < n + rows.length := by
  induction rows generalizing n h with
  | nil => cases member
  | cons s rows ih =>
    rw [List.length_cons]
    rcases List.mem_cons.mp member with rfl | later
    · have := linked.1
      omega
    · have := ih linked.2.2 later
      omega

theorem Linked.getElem {n : Int} {h : H} {rows : List R} (linked : Linked seq prev hash n h rows)
    {i : Nat} (inside : i < rows.length) : seq rows[i] = n + i := by
  induction rows generalizing n h i with
  | nil => cases inside
  | cons r rows ih =>
    cases i with
    | zero => simpa using linked.1
    | succ i =>
      have later := ih linked.2.2 (Nat.lt_of_succ_lt_succ inside)
      rw [List.getElem_cons_succ, later]
      omega

theorem Linked.sorted {n : Int} {h : H} {rows : List R} (linked : Linked seq prev hash n h rows) :
    rows.Pairwise fun r s => seq r < seq s := by
  induction rows generalizing n h with
  | nil => exact .nil
  | cons r rows ih =>
    refine .cons (fun s member => ?_) (ih linked.2.2)
    have := linked.1
    have := linked.2.2.mem member
    omega

/-- Cut after a row: what is left is linked from its digest. -/
theorem Linked.cut {n : Int} {h : H} {rows : List R} (linked : Linked seq prev hash n h rows) {r : R}
    (member : r ∈ rows) :
    Linked seq prev hash (seq r + 1) (hash r) (rows.filter fun s => seq r < seq s) ∧
    tip hash (hash r) (rows.filter fun s => seq r < seq s) = tip hash h rows ∧
    seq r + 1 + (rows.filter fun s => seq r < seq s).length = n + rows.length := by
  obtain ⟨before, after, rfl⟩ := List.append_of_mem member
  obtain ⟨early, own, _, late⟩ := linked_append.mp linked
  have dropped : (before ++ [r]).filter (fun s => seq r < seq s) = [] := by
    rw [List.filter_eq_nil_iff]
    intro s inside
    rcases List.mem_append.mp inside with inside | inside
    · have := early.mem inside
      simp only [decide_eq_true_eq]
      omega
    · simp [List.mem_singleton.mp inside]
  have kept : after.filter (fun s => seq r < seq s) = after := by
    rw [List.filter_eq_self]
    intro s inside
    have := late.mem inside
    simp only [decide_eq_true_eq]
    omega
  rw [List.append_cons, List.filter_append, dropped, kept, List.nil_append, tip_append, tip_append]
  refine ⟨own ▸ late, rfl, ?_⟩
  simp only [List.length_append, List.length_singleton]
  omega

/-- Rows deleted in the middle leave a first gap: everything before it is kept, and so is
the row right after it. -/
theorem exists_gap {kept rows : List R} (sub : List.Sublist kept rows)
    (deleted : ∀ tail, rows ≠ kept ++ tail) :
    ∃ before gap s rest after, rows = before ++ gap ++ s :: rest ∧ kept = before ++ s :: after ∧
      gap ≠ [] := by
  induction sub with
  | slnil => exact absurd rfl (deleted [])
  | @cons kept rows d sub ih =>
    cases kept with
    | nil => exact absurd rfl (deleted (d :: rows))
    | cons s after =>
      obtain ⟨gap, rest, rfl⟩ := List.append_of_mem (sub.subset List.mem_cons_self)
      exact ⟨[], d :: gap, s, rest, after, rfl, rfl, by simp⟩
  | @cons_cons kept rows r sub ih =>
    obtain ⟨before, gap, s, rest, after, rfl, rfl, some_⟩ := ih fun tail same =>
      deleted tail (congrArg (r :: ·) same)
    exact ⟨r :: before, gap, s, rest, after, rfl, rfl, some_⟩

end Norte.Links
