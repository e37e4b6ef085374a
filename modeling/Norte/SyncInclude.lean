import Norte.SyncTypes

/-! The selection of a plan: which steps are kept is decided on the wire form of one path,
by the slashes in it. Slashes are between segments and nowhere else, so that the decision is
one about segments. -/
namespace Norte.Sync

def RelPath.toWire (rel : RelPath) : Str := ['/'].intercalate (rel.segments.map Segment.toWire)

/-- Where the slashes of a path are. -/
def slashes (wire : Str) : List Nat := (List.range wire.length).filter fun i => wire[i]? = some '/'

structure IncludeFilter where
  everything : Bool
  wire : List Str
  ancestors : List Str

namespace IncludeFilter

def new (list : List RelPath) : IncludeFilter where
  everything := list.any RelPath.isRoot
  wire := list.map RelPath.toWire
  ancestors := (list.map RelPath.toWire).flatMap fun path => (slashes path).map path.take

variable (filter : IncludeFilter)

def covers (rel : RelPath) : Bool :=
  if filter.everything then true
  else if filter.wire.contains rel.toWire then true
  else (slashes rel.toWire).any fun i => filter.wire.contains (rel.toWire.take i)

def isNeededAncestor (rel : RelPath) : Bool := filter.ancestors.contains rel.toWire

def keeps (step : SyncStep) : Bool :=
  filter.covers step.rel || (step.kind = .createDir && filter.isNeededAncestor step.rel)

/-- What gets through: of the steps those that are kept, and every blocker. -/
def passes : PlanItem → Bool
  | .step step _ => filter.keeps step
  | .blocker _ => true

end IncludeFilter

theorem RelPath.toWire_injective : Function.Injective RelPath.toWire := by
  intro rel other same
  have parsed := VPath.parsePath_intercalate rel.segments
  rw [show ['/'].intercalate (rel.segments.map Segment.toWire) = _ from same] at parsed
  have segments := Except.ok.inj (parsed.symm.trans (VPath.parsePath_intercalate other.segments))
  cases rel
  cases other
  exact congrArg _ segments

/-- A slash of a joined path is between two parts. -/
theorem intercalate_slash {parts : List Str} (plain : ∀ p ∈ parts, '/' ∉ p) {before after : Str}
    (cut : ['/'].intercalate parts = before ++ '/' :: after) :
    ∃ k, 0 < k ∧ k < parts.length ∧ before = ['/'].intercalate (parts.take k) := by
  induction parts generalizing before with
  | nil => simp [List.intercalate_nil] at cut
  | cons part parts ih =>
    have fresh : '/' ∉ part := plain part List.mem_cons_self
    cases parts with
    | nil =>
      rw [List.intercalate_singleton] at cut
      exact absurd (by rw [cut]; simp) fresh
    | cons next parts =>
      rw [List.intercalate_cons_cons, List.append_assoc, List.singleton_append] at cut
      rcases List.append_eq_append_iff.mp cut with ⟨more, rfl, rest⟩ | ⟨more, rfl, rest⟩
      · cases more with
        | nil => exact ⟨1, Nat.one_pos, by simp, by simp [List.intercalate_singleton]⟩
        | cons c more =>
          rw [List.cons_append, List.cons.injEq] at rest
          obtain ⟨rfl, rest⟩ := rest
          obtain ⟨k, positive, short, rfl⟩ := ih (fun p member => plain p (List.mem_cons_of_mem _ member)) rest
          refine ⟨k + 1, Nat.succ_pos k, Nat.succ_lt_succ short, ?_⟩
          obtain ⟨k, rfl⟩ : ∃ j, k = j + 1 := ⟨k - 1, by omega⟩
          simp only [List.take_succ_cons, List.intercalate_cons_cons, List.append_assoc,
            List.singleton_append]
      · cases more with
        | nil => exact ⟨1, Nat.one_pos, by simp, by simp [List.intercalate_singleton]⟩
        | cons c more =>
          rw [List.cons_append, List.cons.injEq] at rest
          obtain ⟨rfl, -⟩ := rest
          exact absurd (List.mem_append_right _ List.mem_cons_self) fresh

theorem intercalate_take {parts : List Str} {k : Nat} (positive : 0 < k) (short : k < parts.length) :
    ∃ after, ['/'].intercalate parts = ['/'].intercalate (parts.take k) ++ '/' :: after := by
  induction parts generalizing k with
  | nil => cases short
  | cons part parts ih =>
    cases parts with
    | nil =>
      rw [List.length_singleton] at short
      omega
    | cons next parts =>
      obtain ⟨k, rfl⟩ : ∃ j, k = j + 1 := ⟨k - 1, by omega⟩
      cases k with
      | zero => exact ⟨_, by simp [List.intercalate_cons_cons, List.intercalate_singleton]; rfl⟩
      | succ k =>
        obtain ⟨after, same⟩ := ih (Nat.succ_pos k) (Nat.lt_of_succ_lt_succ short)
        refine ⟨after, ?_⟩
        rw [List.intercalate_cons_cons, same]
        simp only [List.take_succ_cons, List.intercalate_cons_cons, List.append_assoc]

/-- What a slash cuts off is a proper ancestor below the root, and every one is cut off. -/
theorem cut_iff (rel : RelPath) (wire : Str) :
    (∃ i ∈ slashes rel.toWire, rel.toWire.take i = wire) ↔
      ∃ k, 0 < k ∧ k < rel.segments.length ∧ RelPath.toWire ⟨rel.segments.take k⟩ = wire := by
  have plain : ∀ p ∈ rel.segments.map Segment.toWire, '/' ∉ p := by
    intro p member
    obtain ⟨s, -, rfl⟩ := List.mem_map.mp member
    exact s.slash_not_mem_toWire
  constructor
  · rintro ⟨i, at_, rfl⟩
    obtain ⟨-, slash⟩ := List.mem_filter.mp at_
    have slash : rel.toWire[i]? = some '/' := by simpa using slash
    obtain ⟨short, found⟩ := List.getElem?_eq_some_iff.mp slash
    have cut : rel.toWire = rel.toWire.take i ++ '/' :: rel.toWire.drop (i + 1) := by
      rw [← found, List.getElem_cons_drop, List.take_append_drop]
    obtain ⟨k, positive, less, same⟩ := intercalate_slash plain cut
    exact ⟨k, positive, by simpa using less, by rw [same, RelPath.toWire, List.map_take]⟩
  · rintro ⟨k, positive, less, rfl⟩
    obtain ⟨after, same⟩ := intercalate_take positive
      (by simpa using less : k < (rel.segments.map Segment.toWire).length)
    have same : rel.toWire = RelPath.toWire ⟨rel.segments.take k⟩ ++ '/' :: after := by
      rw [RelPath.toWire, RelPath.toWire, List.map_take, same]
    refine ⟨(RelPath.toWire ⟨rel.segments.take k⟩).length, ?_, by rw [same]; simp⟩
    rw [slashes, List.mem_filter]
    simp [same]

/-- At or below something that was chosen. -/
def Chosen (list : List RelPath) (rel : RelPath) : Prop := ∃ sel ∈ list, sel.segments <+: rel.segments

/-- On the way to something that was chosen: not the root, nor the thing itself. -/
def OnTheWay (list : List RelPath) (rel : RelPath) : Prop :=
  ∃ sel ∈ list, rel.segments <+: sel.segments ∧ rel.segments ≠ [] ∧ rel.segments ≠ sel.segments

namespace IncludeFilter

variable {list : List RelPath} {rel : RelPath}

theorem covers_iff : (new list).covers rel = true ↔ Chosen list rel := by
  have wire (other : RelPath) : (new list).wire.contains other.toWire = true ↔ other ∈ list := by
    simp only [new, List.contains_iff_mem, List.mem_map]
    constructor
    · rintro ⟨sel, member, same⟩
      rwa [← RelPath.toWire_injective same]
    · exact fun member => ⟨other, member, rfl⟩
  rw [covers]
  split
  · rename_i everything
    simp only [true_iff]
    obtain ⟨sel, member, root⟩ := List.any_eq_true.mp everything
    refine ⟨sel, member, ?_⟩
    rw [List.isEmpty_iff.mp root]
    exact List.nil_prefix
  · rename_i some_
    split
    · rename_i own
      simp only [true_iff]
      exact ⟨rel, (wire rel).mp own, List.prefix_rfl⟩
    · rename_i other
      rw [List.any_eq_true]
      constructor
      · rintro ⟨i, at_, found⟩
        obtain ⟨k, -, -, same⟩ := (cut_iff rel _).mp ⟨i, at_, rfl⟩
        rw [← same, wire] at found
        exact ⟨_, found, List.take_prefix _ _⟩
      · rintro ⟨sel, member, above⟩
        have proper : sel.segments.length < rel.segments.length := by
          refine lt_of_le_of_ne above.length_le fun same => other ((wire rel).mpr ?_)
          obtain ⟨segments⟩ := sel
          obtain rfl := above.eq_of_length same
          exact member
        have positive : 0 < sel.segments.length := by
          refine Nat.pos_of_ne_zero fun empty => some_ (List.any_eq_true.mpr ⟨sel, member, ?_⟩)
          rw [RelPath.isRoot, List.length_eq_zero_iff.mp empty]
          rfl
        obtain ⟨i, at_, same⟩ := (cut_iff rel sel.toWire).mpr ⟨sel.segments.length, positive, proper, by
          rw [← List.prefix_iff_eq_take.mp above]⟩
        exact ⟨i, at_, by rw [same]; exact (wire sel).mpr member⟩

theorem isNeededAncestor_iff : (new list).isNeededAncestor rel = true ↔ OnTheWay list rel := by
  simp only [isNeededAncestor, new, List.contains_iff_mem, List.mem_flatMap, List.mem_map,
    exists_exists_and_eq_and]
  refine exists_congr fun sel => and_congr_right fun member => ?_
  rw [show (∃ i ∈ slashes sel.toWire, sel.toWire.take i = rel.toWire) ↔ _ from cut_iff sel rel.toWire]
  constructor
  · rintro ⟨k, positive, less, same⟩
    obtain rfl := RelPath.toWire_injective same
    refine ⟨List.take_prefix _ _, fun empty => ?_, fun whole => ?_⟩
    · have := congrArg List.length empty
      rw [List.length_take, List.length_nil] at this
      omega
    · have := congrArg List.length whole
      rw [List.length_take] at this
      omega
  · rintro ⟨above, below_, proper⟩
    refine ⟨rel.segments.length, List.length_pos_iff.mpr below_, ?_, ?_⟩
    · exact lt_of_le_of_ne above.length_le fun same => proper (above.eq_of_length same)
    · rw [← List.prefix_iff_eq_take.mp above]

theorem keeps_iff {step : SyncStep} : (new list).keeps step = true ↔
    Chosen list step.rel ∨ step.kind = .createDir ∧ OnTheWay list step.rel := by
  rw [keeps, Bool.or_eq_true, Bool.and_eq_true, covers_iff, isNeededAncestor_iff, decide_eq_true_eq]

end IncludeFilter

end Norte.Sync
