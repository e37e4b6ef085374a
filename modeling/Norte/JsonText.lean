import Mathlib.Algebra.BigOperators.Group.List.Basic
import Mathlib.Algebra.Order.BigOperators.Group.List
import Mathlib.Algebra.Ring.Nat
import Mathlib.Data.List.Forall2
import Norte.Utf8

/-! JSON texts from the texts of their parts, and what their lengths say: a text with fewer
or shorter parts is shorter. -/
namespace Norte.JsonText

def array (items : List Bytes) : Bytes := [0x5B] ++ [0x2C].intercalate items ++ [0x5D]

def member (key value : Bytes) : Bytes := key ++ [0x3A] ++ value

def object (members : List Bytes) : Bytes := [0x7B] ++ [0x2C].intercalate members ++ [0x7D]

def bool (b : Bool) : Bytes := Utf8.encode (if b then "true" else "false").toList

def number (n : Nat) : Bytes := Utf8.encode (Nat.toDigits 10 n)

/-- Some of the parts, each no longer than it was. -/
def Shorter : List Bytes → List Bytes → Prop := List.SublistForall₂ fun a b => a.length ≤ b.length

theorem Shorter.refl (parts : List Bytes) : Shorter parts parts :=
  have : Std.Refl fun a b : Bytes => a.length ≤ b.length := ⟨fun _ => Nat.le_refl _⟩
  (List.Sublist.refl parts).sublistForall₂

theorem Shorter.append {parts parts' others others' : List Bytes} (first : Shorter parts parts')
    (second : Shorter others others') : Shorter (parts ++ others) (parts' ++ others') := by
  induction first with
  | nil =>
    rename_i more
    induction more with
    | nil => exact second
    | cons p more ih => exact .cons_right ih
  | cons less _ ih => exact .cons less ih
  | cons_right _ ih => exact .cons_right ih

theorem Shorter.of_sublist {parts parts' : List Bytes} (fewer : parts.Sublist parts') : Shorter parts parts' :=
  have : Std.Refl fun a b : Bytes => a.length ≤ b.length := ⟨fun _ => Nat.le_refl _⟩
  fewer.sublistForall₂

theorem Shorter.map {α : Type*} {f g : α → Bytes} (less : ∀ a, (f a).length ≤ (g a).length) (as : List α) :
    Shorter (as.map f) (as.map g) := by
  induction as with
  | nil => exact .nil
  | cons a as ih => exact .cons (less a) ih

theorem length_intercalate_cons (part : Bytes) (parts : List Bytes) :
    ([0x2C].intercalate (part :: parts) : Bytes).length =
      part.length + (parts.map fun p => p.length + 1).sum := by
  induction parts generalizing part with
  | nil => simp [List.intercalate]
  | cons p parts ih =>
    have rest := ih p
    simp only [List.intercalate, List.intersperse_cons_cons, List.flatten_cons, List.length_append,
      List.map_cons, List.sum_cons] at rest ⊢
    rw [rest]
    simp
    omega

theorem Shorter.sum_le {parts parts' : List Bytes} (less : Shorter parts parts') :
    (parts.map fun p => p.length + 1).sum ≤ (parts'.map fun p => p.length + 1).sum := by
  induction less with
  | nil => simp
  | cons less _ ih =>
    simp only [List.map_cons, List.sum_cons]
    omega
  | cons_right _ ih =>
    simp only [List.map_cons, List.sum_cons]
    omega

theorem Shorter.intercalate_le {parts parts' : List Bytes} (less : Shorter parts parts') :
    ([0x2C].intercalate parts : Bytes).length ≤ ([0x2C].intercalate parts' : Bytes).length := by
  have sums := less.sum_le
  cases parts with
  | nil => simp [List.intercalate]
  | cons p parts =>
    cases parts' with
    | nil => cases less
    | cons p' parts' =>
      rw [length_intercalate_cons, length_intercalate_cons]
      simp only [List.map_cons, List.sum_cons] at sums
      omega

theorem Shorter.array_le {items items' : List Bytes} (less : Shorter items items') :
    (array items).length ≤ (array items').length := by
  have := less.intercalate_le
  simp only [array, List.length_append]
  omega

theorem Shorter.object_le {members members' : List Bytes} (less : Shorter members members') :
    (object members).length ≤ (object members').length := by
  have := less.intercalate_le
  simp only [object, List.length_append]
  omega

theorem member_le {key value value' : Bytes} (less : value.length ≤ value'.length) :
    (member key value).length ≤ (member key value').length := by
  simp only [member, List.length_append]
  omega

/-- A member that is left out where there is nothing to say. -/
theorem Shorter.optional {c c' : Prop} [Decidable c] [Decidable c'] {part part' : Bytes} (fewer : c → c')
    (less : part.length ≤ part'.length) : Shorter (if c then [part] else []) (if c' then [part'] else []) := by
  by_cases there : c
  · rw [if_pos there, if_pos (fewer there)]
    exact .cons less .nil
  · rw [if_neg there]
    exact .nil

end Norte.JsonText
