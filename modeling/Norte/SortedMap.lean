import Mathlib.Data.List.Forall2
import Mathlib.Data.List.Lex
import Mathlib.Data.List.Pairwise
import Mathlib.Order.Lattice

/-! Maps whose entries stand in the order of their keys, each key once. What is taken out or
changed keeps the order, so that equal maps have equal entries. -/
namespace Norte

structure SortedMap (K V : Type*) [LinearOrder K] where
  entries : List (K × V)
  rising : entries.Pairwise fun e e' => e.1 < e'.1

namespace SortedMap

variable {K V W : Type*} [LinearOrder K] {m : SortedMap K V} {k : K} {v : V}

def empty : SortedMap K V := ⟨[], .nil⟩

def get? (m : SortedMap K V) (k : K) : Option V := (m.entries.find? fun e => e.1 = k).map Prod.snd

def keys (m : SortedMap K V) : List K := m.entries.map Prod.fst

def values (m : SortedMap K V) : List V := m.entries.map Prod.snd

def filter (p : K → V → Bool) (m : SortedMap K V) : SortedMap K V where
  entries := m.entries.filter fun e => p e.1 e.2
  rising := m.rising.filter _

/-- `values_mut`. -/
def update (f : K → V → W) (m : SortedMap K V) : SortedMap K W where
  entries := m.entries.map fun e => (e.1, f e.1 e.2)
  rising := List.pairwise_map.mpr m.rising

def remove (m : SortedMap K V) (k : K) : SortedMap K V := m.filter fun k' _ => k' ≠ k

theorem ext_entries {m m' : SortedMap K V} (same : m.entries = m'.entries) : m = m' := by
  cases m
  cases m'
  simpa using same

theorem rising_injective {e e' : K × V} (first : e ∈ m.entries) (second : e' ∈ m.entries) (same : e.1 = e'.1) : e = e' := by
  have once : m.entries.Pairwise fun e e' => e.1 ≠ e'.1 := m.rising.imp fun less => ne_of_lt less
  have symmetric : Std.Symm fun e e' : K × V => e.1 ≠ e'.1 := ⟨fun _ _ other => other.symm⟩
  by_contra other
  exact once.forall first second other same

theorem get?_eq_some : m.get? k = some v ↔ (k, v) ∈ m.entries := by
  constructor
  · intro found
    obtain ⟨e, first, rfl⟩ := Option.map_eq_some_iff.mp found
    have key : e.1 = k := by simpa using List.find?_some first
    rw [← key]
    exact List.mem_of_find?_eq_some first
  · intro member
    cases found : m.entries.find? fun e => e.1 = k with
    | none => simpa using List.find?_eq_none.mp found _ member
    | some e =>
      have key : e.1 = k := by simpa using List.find?_some found
      have same := rising_injective (List.mem_of_find?_eq_some found) member key
      rw [get?, found, same]
      rfl

theorem get?_eq_none : m.get? k = none ↔ k ∉ m.keys := by
  constructor
  · intro missing member
    obtain ⟨e, inside, rfl⟩ := List.mem_map.mp member
    rw [get?_eq_some.mpr inside] at missing
    cases missing
  · intro away
    cases found : m.get? k with
    | none => rfl
    | some v => exact absurd (List.mem_map_of_mem (get?_eq_some.mp found)) away

theorem mem_keys : k ∈ m.keys ↔ ∃ v, m.get? k = some v := by
  rw [← not_iff_not, ← get?_eq_none, Option.eq_none_iff_forall_ne_some]
  simp

theorem mem_values : v ∈ m.values ↔ ∃ k, m.get? k = some v := by
  simp [values, get?_eq_some]

@[simp] theorem get?_filter (p : K → V → Bool) : (m.filter p).get? k = (m.get? k).filter (p k) := by
  ext v
  rw [Option.filter_eq_some_iff, get?_eq_some, get?_eq_some]
  simp [filter]

@[simp] theorem get?_update (f : K → V → W) : (m.update f).get? k = (m.get? k).map (f k) := by
  ext w
  rw [Option.map_eq_some_iff, get?_eq_some]
  simp only [get?_eq_some, update, List.mem_map, Prod.mk.injEq]
  constructor
  · rintro ⟨e, member, rfl, rfl⟩
    exact ⟨e.2, member, rfl⟩
  · rintro ⟨v, member, rfl⟩
    exact ⟨(k, v), member, rfl, rfl⟩

@[simp] theorem filter_filter (p q : K → V → Bool) :
    (m.filter p).filter q = m.filter fun k v => q k v && p k v :=
  ext_entries (List.filter_filter ..)

@[simp] theorem update_update {X : Type*} (f : K → V → W) (g : K → W → X) :
    (m.update f).update g = m.update fun k v => g k (f k v) :=
  ext_entries (List.map_map ..)

theorem filter_congr {p q : K → V → Bool} (same : ∀ k v, m.get? k = some v → p k v = q k v) :
    m.filter p = m.filter q :=
  ext_entries (List.filter_congr fun e member => same e.1 e.2 (get?_eq_some.mpr member))

theorem filter_eq_self {p : K → V → Bool} (all : ∀ k v, m.get? k = some v → p k v = true) : m.filter p = m :=
  ext_entries (List.filter_eq_self.mpr fun e member => all e.1 e.2 (get?_eq_some.mpr member))

theorem update_eq_self {f : K → V → V} (same : ∀ k v, m.get? k = some v → f k v = v) : m.update f = m := by
  refine ext_entries ?_
  conv => rhs; rw [← List.map_id m.entries]
  exact List.map_congr_left fun e member => by simp [same e.1 e.2 (get?_eq_some.mpr member)]

/-- Lists in the order of their keys: what is found under each key of the one in the other
stands there in the same order. -/
theorem sublist_of_rising {R : K × V → K × W → Prop} {es : List (K × V)} {es' : List (K × W)}
    (rising : es.Pairwise fun e e' => e.1 < e'.1) (rising' : es'.Pairwise fun e e' => e.1 < e'.1)
    (found : ∀ e ∈ es, ∃ e' ∈ es', e'.1 = e.1 ∧ R e e') : List.SublistForall₂ R es es' := by
  induction es' generalizing es with
  | nil =>
    cases es with
    | nil => exact .nil
    | cons e es =>
      obtain ⟨e', member, -⟩ := found e List.mem_cons_self
      exact absurd member List.not_mem_nil
  | cons e' es' ih =>
    obtain ⟨later', rest'⟩ := List.pairwise_cons.mp rising'
    cases es with
    | nil => exact .nil
    | cons e es =>
      obtain ⟨later, rest⟩ := List.pairwise_cons.mp rising
      -- what is found for a key after the head is not the head
      have further {x : K × V} (after : e'.1 < x.1) (member : x ∈ e :: es) : ∃ x' ∈ es', x'.1 = x.1 ∧ R x x' := by
        obtain ⟨x', inside, key, related⟩ := found x member
        rcases List.mem_cons.mp inside with rfl | inside
        · exact absurd key (ne_of_lt after)
        · exact ⟨x', inside, key, related⟩
      obtain ⟨x', inside, key, related⟩ := found e List.mem_cons_self
      rcases List.mem_cons.mp inside with rfl | inside
      · refine .cons related (ih rest rest' fun x member => ?_)
        exact further (lt_of_eq_of_lt key (later x member)) (List.mem_cons_of_mem _ member)
      · have after : e'.1 < e.1 := lt_of_lt_of_eq (later' x' inside) key
        refine .cons_right (ih rising rest' fun x member => ?_)
        rcases List.mem_cons.mp member with rfl | member'
        · exact further after member
        · exact further (after.trans (later x member')) member

theorem ext_get? {m m' : SortedMap K V} (same : ∀ k, m.get? k = m'.get? k) : m = m' := by
  have once (m : SortedMap K V) : m.entries.Nodup := m.rising.imp fun less same => by simp [same] at less
  have members (e : K × V) : e ∈ m.entries ↔ e ∈ m'.entries := by
    obtain ⟨k, v⟩ := e
    rw [← get?_eq_some, ← get?_eq_some, same]
  have perm := (List.perm_ext_iff_of_nodup (once m) (once m')).mpr members
  refine ext_entries (perm.eq_of_pairwise (fun e e' _ _ less more => ?_) m.rising m'.rising)
  exact absurd less (lt_asymm more)

/-- Keys taken out one after the other. -/
theorem foldl_remove (ks : List K) : ks.foldl remove m = m.filter fun k _ => k ∉ ks := by
  induction ks generalizing m with
  | nil => exact (filter_eq_self fun _ _ _ => by simp).symm
  | cons k ks ih =>
    rw [List.foldl_cons, ih, remove, filter_filter]
    exact filter_congr fun k' _ _ => by simp [Bool.and_comm]

end SortedMap

end Norte
