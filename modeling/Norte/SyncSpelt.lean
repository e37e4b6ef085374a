import Norte.CompareLands
import Norte.SyncRefuse

/-! Where the steps of a plan write. In a plan without a blocker every row is read, so that the
table of spellings holds every pair of directories that differ in name, and a step with no entry
to pair with writes under its own name where the directory above it comes to lie. -/
namespace Norte.Sync

open Compare (Comparison)
open Compare.Comparison (Lands)
open StackWalk

namespace Transducer

variable (t : Transducer)

/-- How a directory below the root is spelt, by itself or by what is above it. -/
def spelt (dir : RelPath) : Option RelPath :=
  if dir.segments = [] then none else (t.spelling dir).or (t.speltAtTheDestination dir)

variable {t} in
theorem mem_of_spelling {dir found : RelPath} (spells : t.spelling dir = some found) : (dir, found) ∈ t.spellings := by
  obtain ⟨p, first, rfl⟩ := Option.map_eq_some_iff.mp spells
  have same : p.1 = dir := by simpa using List.find?_some first
  rw [← same]
  exact List.mem_of_find?_eq_some first

variable {t} in
theorem not_mem_of_spelling {dir : RelPath} (spells : t.spelling dir = none) (found : RelPath) : (dir, found) ∉ t.spellings := by
  intro member
  have none_ := List.find?_eq_none.mp (Option.map_eq_none_iff.mp spells) _ member
  simp at none_

theorem properAncestors_join {dir : List Segment} (inside : dir ≠ []) (name : Segment) :
    properAncestors ⟨dir ++ [name]⟩ = ⟨dir⟩ :: properAncestors ⟨dir⟩ := by
  have long : 0 < dir.length := List.length_pos_iff.mpr inside
  have cut : (List.range (dir ++ [name]).length).drop 1 = (List.range dir.length).drop 1 ++ [dir.length] := by
    rw [List.length_append, List.length_singleton, List.range_succ, List.drop_append_of_le_length (by simp; omega)]
  simp only [properAncestors, cut, List.reverse_append, List.reverse_singleton, List.singleton_append, List.map_cons,
    List.take_left]
  congr 1
  apply List.map_congr_left
  intro split member
  have short := List.mem_of_mem_drop (List.mem_reverse.mp member)
  rw [List.take_append_of_le_length (List.mem_range.mp short).le]

theorem findSome_congr {α β : Type} {f g : α → Option β} {l : List α} (same : ∀ a ∈ l, f a = g a) :
    l.findSome? f = l.findSome? g := by
  induction l with
  | nil => rfl
  | cons a l ih =>
    rw [List.findSome?_cons, List.findSome?_cons, same a List.mem_cons_self, ih fun b member => same b (List.mem_cons_of_mem _ member)]

/-- A name follows its directory. -/
theorem speltAtTheDestination_join (dir : List Segment) (name : Segment) :
    t.speltAtTheDestination ⟨dir ++ [name]⟩ = (t.spelt ⟨dir⟩).map fun d => ⟨d.segments ++ [name]⟩ := by
  by_cases inside : dir = []
  · subst inside
    rfl
  have others : (properAncestors ⟨dir⟩).findSome? (fun ancestor => (t.spelling ancestor).map fun destDir =>
        (⟨destDir.segments ++ (dir ++ [name]).drop ancestor.segments.length⟩ : RelPath)) =
      (t.speltAtTheDestination ⟨dir⟩).map fun d => ⟨d.segments ++ [name]⟩ := by
    rw [speltAtTheDestination, List.map_findSome?]
    apply findSome_congr
    intro ancestor above
    obtain ⟨split, member, rfl⟩ := List.mem_map.mp above
    have short := List.mem_range.mp (List.mem_of_mem_drop (List.mem_reverse.mp member))
    simp only [Function.comp_apply, Option.map_map, List.length_take]
    rw [List.drop_append_of_le_length (by omega)]
    cases t.spelling ⟨dir.take split⟩ <;> simp
  rw [speltAtTheDestination, properAncestors_join inside, List.findSome?_cons, spelt, if_neg inside]
  cases own : t.spelling ⟨dir⟩ with
  | some d => simp
  | none =>
    simp only [Option.map_none, Option.none_or]
    exact others

theorem spelt_join (dir : List Segment) (name : Segment) : (t.speltAtTheDestination ⟨dir ++ [name]⟩).getD ⟨dir ++ [name]⟩ =
    ⟨((t.spelt ⟨dir⟩).getD ⟨dir⟩).segments ++ [name]⟩ := by
  rw [speltAtTheDestination_join]
  cases t.spelt ⟨dir⟩ <;> rfl

end Transducer

/-- Two directories of a row that are not called alike. -/
def Respells (opts : SyncOptions) (row : CompareRow) (p : RelPath × RelPath) : Prop :=
  ∃ s d, opts.source row = some s ∧ opts.dest row = some d ∧ s.kind = .dir ∧ d.kind = .dir ∧
    s.path = under opts.sourceRoot p.1 ∧ d.path = under opts.destRoot p.2 ∧ p.2 ≠ p.1

namespace Transducer

variable {t t' mid : Transducer} {row : CompareRow} {item : Option PlanItem} {sourceRel : Option RelPath}
  {p : RelPath × RelPath}

theorem relUnder_under (root : VPath) (rel : RelPath) : relUnder root (under root rel) = .ok rel := by
  rw [relUnder, relPath_under]

/-- What is remembered of a row. -/
theorem remembers_respells (named : t.sourceRelOf (t.opts.source row) = .ok sourceRel)
    (remembers : Remembers t sourceRel (t.opts.source row) (t.opts.dest row) mid) :
    p ∈ mid.spellings ↔ p ∈ t.spellings ∨ Respells t.opts row p := by
  have told {s : Entry} {rel : RelPath} (there : t.opts.source row = some s) (at_ : s.path = under t.opts.sourceRoot rel) :
      sourceRel = some rel := by
    simp only [sourceRelOf, there, at_, relUnder_under, Except.map, Except.ok.injEq] at named
    exact named.symm
  cases remembers with
  | @spelt s d rel destRel sourceDir destDir known destNamed differs =>
    have path := eq_under_of_relUnder (named_of_sourceRelOf named sourceDir.1 known)
    have path' := eq_under_of_relUnder destNamed
    rw [List.mem_cons, or_comm]
    apply or_congr_right
    constructor
    · rintro rfl
      exact ⟨s, d, sourceDir.1, destDir.1, sourceDir.2, destDir.2, path, path', differs⟩
    · rintro ⟨s', d', source, dest, -, -, at_, at_', -⟩
      obtain rfl := Option.some.inj (sourceDir.1.symm.trans source)
      obtain rfl := Option.some.inj (destDir.1.symm.trans dest)
      exact Prod.ext (under_injective (at_.symm.trans path)) (under_injective (at_'.symm.trans path'))
  | @alike s d rel sourceDir destDir known destNamed =>
    have path := eq_under_of_relUnder (named_of_sourceRelOf named sourceDir.1 known)
    have path' := eq_under_of_relUnder destNamed
    apply (or_iff_left _).symm
    rintro ⟨s', d', source, dest, -, -, at_, at_', differs⟩
    obtain rfl := Option.some.inj (sourceDir.1.symm.trans source)
    obtain rfl := Option.some.inj (destDir.1.symm.trans dest)
    exact differs ((under_injective (at_'.symm.trans path')).trans (under_injective (at_.symm.trans path)).symm)
  | unpaired alone =>
    apply (or_iff_left _).symm
    rintro ⟨s, d, source, dest, dirs, dirs', at_, -⟩
    apply alone
    rw [source, dest, told source at_]
    simp [dirs, dirs']

theorem absorbRow_spellings {source dest : Option Entry} (table : t.absorbRow row source dest sourceRel = .ok (t', item)) :
    t'.spellings = t.spellings := by
  have emits := @Emits.absorbRow t row source dest sourceRel
  rw [table] at emits
  generalize whole : (.ok (t', item) : Absorbed) = absorbed at emits
  cases emits with
  | failed => cases whole
  | nothing | blocker =>
    obtain ⟨rfl, -⟩ := Prod.mk.inj (Except.ok.inj whole)
    rfl
  | skipped | orphan | paired | deleted => exact (push_packaged whole.symm).2.2.1

/-- A row that is read leaves its spelling, and no other row does. -/
theorem absorb_respells (absorbed : t.absorb row = .ok (t', item)) :
    p ∈ t'.spellings ↔ p ∈ t.spellings ∨ t.opts.fateUnder t.overlap row = .read ∧ Respells t.opts row p := by
  have fated := absorb_fated absorbed
  cases t.absorbs row with
  | pruned prunes nothing =>
    have idle : t.opts.fateUnder t.overlap row ≠ .read := by
      rw [source_eq, dest_eq] at prunes
      cases watches : t.overlap with
      | none => simp [overlapPrunes, watches] at prunes
      | some overlap =>
        simp only [overlapPrunes, watches] at prunes
        simp [SyncOptions.fateUnder, prunes]
    obtain ⟨rfl, rfl⟩ := Prod.mk.inj (Except.ok.inj (absorbed.symm.trans nothing))
    exact (or_iff_left fun respells => idle respells.1).symm
  | @reached blocker overlap kept reaches blocked =>
    obtain ⟨rfl, rfl⟩ := Prod.mk.inj (Except.ok.inj (absorbed.symm.trans blocked))
    apply (or_iff_left _).symm
    rintro ⟨read, -⟩
    rw [read] at fated
    cases fated with
    | read same =>
      have same : some overlap = t.overlap := same
      simp [overlapReached, ← same] at reaches
  | failed e failed =>
    rw [absorbed] at failed
    cases failed
  | @table sourceRel mid kept aside named remembers table =>
    rw [source_eq, dest_eq] at remembers table
    rw [source_eq] at named
    have read : t.opts.fateUnder t.overlap row = .read := by
      rw [source_eq, dest_eq] at kept aside
      cases watches : t.overlap with
      | none => simp [SyncOptions.fateUnder, ← overlapReached_overlapAt watches aside]
      | some overlap =>
        simp only [overlapPrunes, watches] at kept
        simp only [SyncOptions.fateUnder, kept, Bool.false_eq_true, if_false]
    rw [absorbRow_spellings (table.symm.trans absorbed), remembers_respells named remembers]
    simp [read]

/-- What the table holds after a run. -/
theorem Run.respells {opts : SyncOptions} {before : List CompareRow} {items : List PlanItem}
    (run : Run (start opts) before t items) : p ∈ t.spellings ↔
      ∃ pre row post, before = pre ++ row :: post ∧ opts.fate pre row = .read ∧ Respells opts row p := by
  induction before using List.reverseRecOn generalizing t items with
  | nil =>
    cases run
    simp [start]
  | append_singleton before last ih =>
    obtain ⟨mid, first, second, ran, later, rfl⟩ := run.split
    cases later with
    | cons absorbed rest =>
      cases rest
      obtain ⟨own, watched⟩ := ran.overlapOf
      have own : mid.opts = opts := own
      have watched : mid.overlap = opts.overlapOf before := by simpa [start] using watched
      rw [absorb_respells absorbed, ih ran, own, watched]
      constructor
      · rintro (⟨pre, row, post, rfl, read, respells⟩ | ⟨read, respells⟩)
        · exact ⟨pre, row, post ++ [last], by simp, read, respells⟩
        · exact ⟨before, last, [], rfl, read, respells⟩
      · rintro ⟨pre, row, post, whole, read, respells⟩
        rcases List.eq_nil_or_concat post with rfl | ⟨post, other, rfl⟩
        · obtain ⟨rfl, same⟩ := List.append_inj' whole rfl
          obtain rfl := List.singleton_injective same
          exact .inr ⟨read, respells⟩
        · rw [List.concat_eq_append, ← List.cons_append, ← List.append_assoc] at whole
          obtain ⟨rfl, -⟩ := List.append_inj' whole rfl
          exact .inl ⟨pre, row, post, rfl, read, respells⟩

end Transducer

end Norte.Sync
