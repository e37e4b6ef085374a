import Mathlib.Data.List.Basic

/-! Strings that are read back from their front. A writer is self-delimiting when whatever
follows what it wrote, what it wrote and what follows are told apart. Lists of such pieces
are, once their end shows: by a length known in advance, or by a mark no piece starts with. -/
namespace Norte.Framing

variable {α β σ : Type}

/-- Among the values `fits` admits, no two are written at the front of one string. -/
def SelfDelimiting (write : α → List σ) (fits : α → Prop) : Prop :=
  ∀ ⦃a b : α⦄ ⦃r s : List σ⦄, fits a → fits b → write a ++ r = write b ++ s → a = b ∧ r = s

/-- At the end of a string what follows is empty. -/
theorem SelfDelimiting.injective {write : α → List σ} {fits : α → Prop}
    (delimits : SelfDelimiting write fits) {a b : α} (fitsA : fits a) (fitsB : fits b)
    (same : write a = write b) : a = b :=
  (delimits (r := []) (s := []) fitsA fitsB (congrArg (· ++ []) same)).1

/-- Pieces of one length need no mark. -/
theorem SelfDelimiting.of_length {write : α → List σ} {fits : α → Prop} (width : Nat)
    (long : ∀ a, (write a).length = width)
    (injective : ∀ a b, fits a → fits b → write a = write b → a = b) :
    SelfDelimiting write fits := by
  intro a b r s fitsA fitsB same
  obtain ⟨pieces, rests⟩ := List.append_inj same (by rw [long, long])
  exact ⟨injective a b fitsA fitsB pieces, rests⟩

/-- A value may be written through another one that determines it. -/
theorem SelfDelimiting.comp {write : β → List σ} {fits : β → Prop}
    (delimits : SelfDelimiting write fits) {view : α → β} (determined : Function.Injective view) :
    SelfDelimiting (fun a => write (view a)) fun a => fits (view a) := by
  intro a b r s fitsA fitsB same
  obtain ⟨views, rests⟩ := delimits fitsA fitsB same
  exact ⟨determined views, rests⟩

/-- Lists of one length are read back piece by piece. -/
theorem SelfDelimiting.flatMap {write : α → List σ} {fits : α → Prop}
    (delimits : SelfDelimiting write fits) {l m : List α} {r s : List σ}
    (long : l.length = m.length) (fitsL : ∀ a ∈ l, fits a) (fitsM : ∀ a ∈ m, fits a)
    (same : l.flatMap write ++ r = m.flatMap write ++ s) : l = m ∧ r = s := by
  induction l generalizing m with
  | nil =>
    have empty : m = [] := List.length_eq_zero_iff.mp long.symm
    subst empty
    exact ⟨rfl, same⟩
  | cons a l ih =>
    obtain ⟨b, m, rfl⟩ := List.exists_cons_of_length_eq_add_one long.symm
    simp only [List.flatMap_cons, List.append_assoc] at same
    obtain ⟨rfl, rest⟩ := delimits (fitsL a (by simp)) (fitsM b (by simp)) same
    obtain ⟨rfl, rests⟩ := ih (by simpa using long)
      (fun x member => fitsL x (List.mem_cons_of_mem _ member))
      (fun x member => fitsM x (List.mem_cons_of_mem _ member)) rest
    exact ⟨rfl, rests⟩

/-- The string does not start with a symbol that opens a piece. -/
def Closed (write : α → List σ) (fits : α → Prop) (s : List σ) : Prop :=
  ∀ a, fits a → ∀ t, write a ++ t ≠ s

/-- Lists of any length are read back where something follows that opens no piece. -/
theorem SelfDelimiting.sequence {write : α → List σ} {fits : α → Prop}
    (delimits : SelfDelimiting write fits) {l m : List α} {r s : List σ}
    (closedR : Closed write fits r) (closedS : Closed write fits s)
    (fitsL : ∀ a ∈ l, fits a) (fitsM : ∀ a ∈ m, fits a)
    (same : l.flatMap write ++ r = m.flatMap write ++ s) : l = m ∧ r = s := by
  induction l generalizing m with
  | nil =>
    cases m with
    | nil => exact ⟨rfl, same⟩
    | cons b m =>
      simp only [List.flatMap_cons, List.append_assoc] at same
      exact absurd same.symm (closedR b (fitsM b (by simp)) _)
  | cons a l ih =>
    cases m with
    | nil =>
      simp only [List.flatMap_cons, List.append_assoc] at same
      exact absurd same (closedS a (fitsL a (by simp)) _)
    | cons b m =>
      simp only [List.flatMap_cons, List.append_assoc] at same
      obtain ⟨rfl, rest⟩ := delimits (fitsL a (by simp)) (fitsM b (by simp)) same
      obtain ⟨rfl, rests⟩ := ih (fun x member => fitsL x (List.mem_cons_of_mem _ member))
        (fun x member => fitsM x (List.mem_cons_of_mem _ member)) rest
      exact ⟨rfl, rests⟩

end Norte.Framing
