import Norte.VPath

/-! Paths inside archives: a format in front of the scheme, and a `!` between the path of
the archive and the path within. Layers nest, and one split takes one of them off. -/
namespace Norte

/-- `ARCHIVE_FORMATS`. -/
def archiveFormats : List Str := ["zip".toList, "tar".toList, "tar+gz".toList, "rar".toList]

/-- `MARKER`. -/
def marker : Bytes := ['!'.toUInt8]

theorem Segment.valid_marker : Segment.Valid marker where
  nonempty := by decide
  noNul := by decide
  noSlash := by decide
  notDot := by decide

def Segment.marker : Segment := ⟨Norte.marker, valid_marker⟩

def Segment.isMarker (s : Segment) : Bool := s.bytes = Norte.marker

/-- The last of the longest, as `max_by_key` has it. -/
def maxByLen (words : List Str) : Option Str :=
  words.foldl (fun best f => if best.all (·.length ≤ f.length) then some f else best) none

/-- A format only counts with a `+` behind it, and the longest one that fits is taken. -/
def schemeFormatPrefix (scheme : Str) : Option Str :=
  maxByLen (archiveFormats.filter fun f =>
    f.length < scheme.length && scheme[f.length]? = some '+' && f.isPrefixOf scheme)

structure ArchiveRef where
  format : Str
  outer : VPath
  inner : List Segment
  deriving DecidableEq

/-- `Iterator::rposition`. -/
def rposition (p : α → Bool) (items : List α) : Option Nat :=
  (items.reverse.findIdx? p).map fun i => items.length - 1 - i

namespace VPath

/-- One layer off: at the last marker where the scheme below is compound too, else at the
first. -/
def archiveSplit (p : VPath) : Except VPathError (Option ArchiveRef) :=
  match schemeFormatPrefix p.scheme.str with
  | none => .ok none
  | some format =>
    let innerScheme := p.scheme.str.drop (format.length + 1)
    let nested := (schemeFormatPrefix innerScheme).isSome
    let markerPos :=
      if nested then rposition Segment.isMarker p.segments else p.segments.findIdx? Segment.isMarker
    match markerPos with
    | none => .error .archiveAddressing
    | some pos => do
      let scheme ← Scheme.new innerScheme
      return some ⟨format, ⟨scheme, p.authority, p.segments.take pos⟩, p.segments.drop (pos + 1)⟩

def archiveCompose (format : Str) (outer : VPath) (inner : List Segment) : Except VPathError VPath :=
  if !archiveFormats.contains format then .error .archiveAddressing
  else match outer.archiveSplit with
    | .error _ => .error .archiveAddressing
    | .ok below =>
      let outerNested := below.isSome
      if (schemeFormatPrefix outer.scheme.str).isSome && !outerNested then .error .archiveAddressing
      else
        let composedScheme := format ++ '+' :: outer.scheme.str
        if schemeFormatPrefix composedScheme ≠ some format then .error .archiveAddressing
        else if !outerNested && outer.segments.any Segment.isMarker || inner.any Segment.isMarker then
          .error .archiveAddressing
        else do
          let scheme ← Scheme.new composedScheme
          let composed : VPath := ⟨scheme, outer.authority, outer.segments ++ Segment.marker :: inner⟩
          if composed.archiveSplit = .ok (some ⟨format, outer, inner⟩) then return composed
          else .error .archiveAddressing

end VPath

/-! Formats. -/

theorem maxByLen_mem {words : List Str} {f : Str} (found : maxByLen words = some f) : f ∈ words := by
  have step (seen : List Str) (best : Option Str) (inside : ∀ f ∈ best, f ∈ seen) (rest : List Str) :
      ∀ f ∈ rest.foldl (fun best f => if best.all (·.length ≤ f.length) then some f else best) best,
        f ∈ seen ++ rest := by
    induction rest generalizing seen best with
    | nil => simpa using inside
    | cons g rest ih =>
      have next : ∀ f ∈ (if best.all (·.length ≤ g.length) then some g else best), f ∈ seen ++ [g] := by
        intro f chosen
        split at chosen
        · obtain rfl := Option.some.inj chosen
          simp
        · exact List.mem_append_left _ (inside f chosen)
      simpa using ih (seen ++ [g]) _ next
  exact step [] none (by simp) words f found

/-- A format is read off the front of the scheme, with its plus sign. -/
theorem schemeFormatPrefix_some {scheme format : Str} (found : schemeFormatPrefix scheme = some format) :
    format ∈ archiveFormats ∧ scheme = format ++ '+' :: scheme.drop (format.length + 1) := by
  obtain ⟨listed, fits⟩ := List.mem_filter.mp (maxByLen_mem found)
  simp only [Bool.and_eq_true, decide_eq_true_eq, List.isPrefixOf_iff_prefix] at fits
  obtain ⟨⟨short, plus⟩, rest, rfl⟩ := fits
  refine ⟨listed, ?_⟩
  rw [List.getElem?_append_right (Nat.le_refl _), Nat.sub_self] at plus
  cases rest with
  | nil => cases plus
  | cons c rest =>
    obtain rfl := Option.some.inj plus
    simp

/-! One layer. -/

theorem Segment.isMarker_iff {s : Segment} : s.isMarker ↔ s = Segment.marker := by
  rw [isMarker, decide_eq_true_eq]
  constructor
  · intro same
    cases s
    cases same
    rfl
  · rintro rfl
    rfl

/-- A position of a marker cuts the segments in two. -/
theorem split_at_marker {segments : List Segment} {pos : Nat} {s : Segment} (here : segments[pos]? = some s)
    (marked : s.isMarker) : segments = segments.take pos ++ Segment.marker :: segments.drop (pos + 1) := by
  obtain ⟨inside, rfl⟩ := List.getElem?_eq_some_iff.mp here
  rw [← Segment.isMarker_iff.mp marked, List.getElem_cons_drop, List.take_append_drop]

theorem findIdx?_marker {segments : List Segment} {pos : Nat}
    (found : segments.findIdx? Segment.isMarker = some pos) :
    (∃ s, segments[pos]? = some s ∧ s.isMarker) ∧ (segments.take pos).any Segment.isMarker = false := by
  obtain ⟨inside, marked, before⟩ := List.findIdx?_eq_some_iff_getElem.mp found
  refine ⟨⟨segments[pos], List.getElem?_eq_getElem inside, marked⟩, ?_⟩
  rw [List.any_eq_false]
  intro s member
  obtain ⟨i, low, rfl⟩ := List.mem_take_iff_getElem.mp member
  exact before i (by omega)

theorem rposition_marker {segments : List Segment} {pos : Nat}
    (found : rposition Segment.isMarker segments = some pos) : ∃ s, segments[pos]? = some s ∧ s.isMarker := by
  obtain ⟨i, back, rfl⟩ := Option.map_eq_some_iff.mp found
  obtain ⟨inside, marked, _⟩ := List.findIdx?_eq_some_iff_getElem.mp back
  rw [List.length_reverse] at inside
  rw [List.getElem_reverse] at marked
  exact ⟨_, List.getElem?_eq_getElem (by omega), marked⟩

/-- What a layer is taken off from, and that the one below a flat scheme holds no marker. -/
structure Layer (p : VPath) (r : ArchiveRef) : Prop where
  format : schemeFormatPrefix p.scheme.str = some r.format
  scheme : p.scheme.str = r.format ++ '+' :: r.outer.scheme.str
  authority : r.outer.authority = p.authority
  segments : p.segments = r.outer.segments ++ Segment.marker :: r.inner
  flat : schemeFormatPrefix r.outer.scheme.str = none → r.outer.segments.any Segment.isMarker = false

namespace VPath

theorem scheme_new_ok {s : Str} {scheme : Scheme} (made : Scheme.new s = .ok scheme) : scheme.str = s := by
  unfold Scheme.new at made
  split at made
  · obtain rfl := Except.ok.inj made
    rfl
  · cases made

theorem archiveSplit_some {p : VPath} {r : ArchiveRef} (split_ : p.archiveSplit = .ok (some r)) : Layer p r := by
  unfold archiveSplit at split_
  split at split_
  · cases split_
  next format found =>
    simp only at split_
    split at split_
    · cases split_
    next pos at_ =>
      cases made : Scheme.new (p.scheme.str.drop (format.length + 1)) with
      | error e =>
        rw [made] at split_
        cases split_
      | ok scheme =>
        rw [made] at split_
        obtain rfl := Option.some.inj (Except.ok.inj split_)
        have same := scheme_new_ok made
        have marked : (∃ s, p.segments[pos]? = some s ∧ s.isMarker) ∧
            (schemeFormatPrefix scheme.str = none → (p.segments.take pos).any Segment.isMarker = false) := by
          rw [← same] at at_
          split at at_
          next nested =>
            refine ⟨rposition_marker at_, fun flat => ?_⟩
            rw [flat] at nested
            cases nested
          next =>
            obtain ⟨here, before⟩ := findIdx?_marker at_
            exact ⟨here, fun _ => before⟩
        obtain ⟨⟨s, here, own⟩, flat⟩ := marked
        refine ⟨found, ?_, rfl, split_at_marker here own, flat⟩
        rw [same]
        exact (schemeFormatPrefix_some found).2

theorem archiveSplit_none {p : VPath} : p.archiveSplit = .ok none ↔ schemeFormatPrefix p.scheme.str = none := by
  unfold archiveSplit
  split
  next flat => simp [flat]
  next format found =>
    simp only [found, reduceCtorEq, iff_false]
    intro split_
    split at split_
    · cases split_
    · cases made : Scheme.new (p.scheme.str.drop (format.length + 1)) with
      | error e =>
        rw [made] at split_
        cases split_
      | ok scheme =>
        rw [made] at split_
        cases split_

/-- A split fails for want of a marker, or of a scheme behind the format. -/
theorem archiveSplit_error {p : VPath} {e : VPathError} (failed : p.archiveSplit = .error e) :
    e = .archiveAddressing ∨ e = .invalidScheme ∧ ∃ format rest, p.scheme.str = format ++ '+' :: rest ∧
      schemeFormatPrefix p.scheme.str = some format ∧ Scheme.check rest = false := by
  unfold archiveSplit at failed
  split at failed
  · cases failed
  next format found =>
    simp only at failed
    split at failed
    · exact .inl (Except.error.inj failed).symm
    · unfold Scheme.new at failed
      split at failed
      · cases failed
      next invalid =>
        refine .inr ⟨(Except.error.inj failed).symm, format, _, (schemeFormatPrefix_some found).2, found, ?_⟩
        exact Bool.eq_false_iff.mpr invalid

/-- A layer without markers within is put back by composing. -/
theorem archiveCompose_split {p : VPath} {r : ArchiveRef} (split_ : p.archiveSplit = .ok (some r))
    (plain : ∀ s ∈ r.inner, s ≠ Segment.marker)
    (outer : schemeFormatPrefix r.outer.scheme.str = none ∨ ∃ below, r.outer.archiveSplit = .ok below) :
    archiveCompose r.format r.outer r.inner = .ok p := by
  have layer := archiveSplit_some split_
  obtain ⟨below, peeled⟩ : ∃ below, r.outer.archiveSplit = .ok below := by
    rcases outer with flat | peels
    · exact ⟨none, archiveSplit_none.mpr flat⟩
    · exact peels
  have listed : ¬(!archiveFormats.contains r.format) = true := by
    simpa using (schemeFormatPrefix_some layer.format).1
  have compound : ((schemeFormatPrefix r.outer.scheme.str).isSome && !below.isSome) = false := by
    cases below with
    | none => rw [archiveSplit_none.mp peeled]; rfl
    | some b => rw [Option.isSome_some, Bool.not_true, Bool.and_false]
  have unmarked : (!below.isSome && r.outer.segments.any Segment.isMarker || r.inner.any Segment.isMarker) = false := by
    rw [Bool.or_eq_false_iff]
    constructor
    · cases below with
      | none => rw [layer.flat (archiveSplit_none.mp peeled), Bool.and_false]
      | some b => rfl
    · rw [List.any_eq_false]
      exact fun s member marked => plain s member (Segment.isMarker_iff.mp marked)
  have named : Scheme.new (r.format ++ '+' :: r.outer.scheme.str) = .ok p.scheme := by
    rw [← layer.scheme, Scheme.new, dif_pos p.scheme.valid]
  have whole : (⟨p.scheme, r.outer.authority, r.outer.segments ++ Segment.marker :: r.inner⟩ : VPath) = p := by
    rw [layer.authority, ← layer.segments]
  have format : ¬schemeFormatPrefix (r.format ++ '+' :: r.outer.scheme.str) ≠ some r.format := by
    rw [← layer.scheme]
    exact not_not.mpr layer.format
  rw [archiveCompose, if_neg listed, peeled]
  simp only [compound, Bool.false_eq_true, ↓reduceIte, if_neg format, unmarked, named, bind, Except.bind, whole,
    split_]
  rfl

/-- Composing only answers what splits back to its arguments. -/
theorem archiveSplit_compose {format : Str} {outer p : VPath} {inner : List Segment}
    (composed : archiveCompose format outer inner = .ok p) : p.archiveSplit = .ok (some ⟨format, outer, inner⟩) := by
  unfold archiveCompose at composed
  split at composed
  · cases composed
  split at composed
  · cases composed
  simp only at composed
  split at composed
  · cases composed
  split at composed
  · cases composed
  split at composed
  · cases composed
  cases made : Scheme.new (format ++ '+' :: outer.scheme.str) with
  | error e =>
    rw [made] at composed
    cases composed
  | ok scheme =>
    rw [made] at composed
    simp only [bind, Except.bind] at composed
    split at composed
    next back =>
      obtain rfl := Except.ok.inj composed
      exact back
    · cases composed

end VPath

/-! All layers. -/

/-- Layers taken off one after the other, and where that ends. -/
inductive Peels : VPath → List ArchiveRef → Except VPathError VPath → Prop where
  | flat {p : VPath} (plain : p.archiveSplit = .ok none) : Peels p [] (.ok p)
  | fails {p : VPath} {e : VPathError} (failed : p.archiveSplit = .error e) : Peels p [] (.error e)
  | layer {p : VPath} {r : ArchiveRef} {layers : List ArchiveRef} {last : Except VPathError VPath}
      (split : p.archiveSplit = .ok (some r)) (rest : Peels r.outer layers last) : Peels p (r :: layers) last

/-- Every layer shortens the scheme. -/
theorem Peels.exists (p : VPath) : ∃ layers last, Peels p layers last := by
  induction size : p.scheme.str.length using Nat.strongRecOn generalizing p with
  | ind n ih =>
    cases split_ : p.archiveSplit with
    | error e => exact ⟨[], .error e, .fails split_⟩
    | ok below =>
      cases below with
      | none => exact ⟨[], .ok p, .flat split_⟩
      | some r =>
        have shorter : r.outer.scheme.str.length < n := by
          rw [← size, (VPath.archiveSplit_some split_).scheme, List.length_append, List.length_cons]
          omega
        obtain ⟨layers, last, rest⟩ := ih _ shorter r.outer rfl
        exact ⟨r :: layers, last, .layer split_ rest⟩

theorem Peels.unique {p : VPath} {layers layers' : List ArchiveRef} {last last' : Except VPathError VPath}
    (peels : Peels p layers last) (again : Peels p layers' last') : layers = layers' ∧ last = last' := by
  induction peels generalizing layers' last' with
  | flat plain =>
    cases again with
    | flat => exact ⟨rfl, rfl⟩
    | fails failed =>
      rw [plain] at failed
      cases failed
    | layer split_ =>
      rw [plain] at split_
      cases split_
  | fails failed =>
    cases again with
    | flat plain =>
      rw [failed] at plain
      cases plain
    | fails failed' =>
      rw [failed] at failed'
      exact ⟨rfl, congrArg Except.error (Except.error.inj failed')⟩
    | layer split_ =>
      rw [failed] at split_
      cases split_
  | layer split_ _ ih =>
    cases again with
    | flat plain =>
      rw [split_] at plain
      cases plain
    | fails failed =>
      rw [split_] at failed
      cases failed
    | layer split' rest =>
      rw [split_] at split'
      obtain rfl := Option.some.inj (Except.ok.inj split')
      obtain ⟨rfl, rfl⟩ := ih rest
      exact ⟨rfl, rfl⟩

/-- The path that is left when `layers` are off. -/
def reached (p : VPath) (layers : List ArchiveRef) : VPath := (layers.getLast?.map ArchiveRef.outer).getD p

theorem reached_cons (p : VPath) (r : ArchiveRef) (layers : List ArchiveRef) :
    reached p (r :: layers) = reached r.outer layers := by
  cases layers with
  | nil => rfl
  | cons r' layers => rw [reached, reached, List.getLast?_cons_cons, List.getLast?_cons, Option.map_some,
      Option.getD_some, Option.getD_some]

/-- The innermost path is flat, and the layer above it was cut at the first marker. -/
theorem Peels.innermost {p q : VPath} {layers : List ArchiveRef} {last : Except VPathError VPath}
    (peels : Peels p layers last) (ended : last = .ok q) :
    schemeFormatPrefix q.scheme.str = none ∧ (layers ≠ [] → ∀ s ∈ q.segments, s ≠ Segment.marker) := by
  induction peels with
  | flat plain =>
    obtain rfl := Except.ok.inj ended
    exact ⟨VPath.archiveSplit_none.mp plain, fun none_ => absurd rfl none_⟩
  | fails => cases ended
  | @layer p r layers last split_ rest ih =>
    obtain ⟨flat, plain⟩ := ih ended
    refine ⟨flat, fun _ => ?_⟩
    cases rest with
    | flat _ =>
      obtain rfl := Except.ok.inj ended
      have unmarked := List.any_eq_false.mp ((VPath.archiveSplit_some split_).flat flat)
      exact fun s member same => unmarked s member (Segment.isMarker_iff.mpr same)
    | fails => cases ended
    | layer _ _ => exact plain (List.cons_ne_nil _ _)

theorem Peels.failure {p : VPath} {e : VPathError} {layers : List ArchiveRef} {last : Except VPathError VPath}
    (peels : Peels p layers last) (ended : last = .error e) :
    e = .archiveAddressing ∨ e = .invalidScheme ∧ ∃ format rest,
      (reached p layers).scheme.str = format ++ '+' :: rest ∧ format ∈ archiveFormats ∧
        Scheme.check rest = false := by
  induction peels with
  | flat => cases ended
  | fails failed =>
    obtain rfl := Except.error.inj ended
    rcases VPath.archiveSplit_error failed with addressing | ⟨rfl, format, rest, same, found, invalid⟩
    · exact .inl addressing
    · exact .inr ⟨rfl, format, rest, same, (schemeFormatPrefix_some found).1, invalid⟩
  | layer _ _ ih =>
    rw [reached_cons]
    exact ih ended

/-- Taking layers off comes to one end, at a flat path or at an error; a layer is put back
by composing, and what composing answers comes apart again. -/
theorem archive_layers (p : VPath) :
    (∃ layers last, Peels p layers last ∧
      (∀ layers' last', Peels p layers' last' → layers' = layers ∧ last' = last) ∧
      ((∃ q, last = .ok q ∧ schemeFormatPrefix q.scheme.str = none ∧
          (layers ≠ [] → ∀ s ∈ q.segments, s ≠ Segment.marker)) ∨
        last = .error .archiveAddressing ∨
        last = .error .invalidScheme ∧ ∃ format rest, (reached p layers).scheme.str = format ++ '+' :: rest ∧
          format ∈ archiveFormats ∧ Scheme.check rest = false)) ∧
    (∀ r, p.archiveSplit = .ok (some r) → (∀ s ∈ r.inner, s ≠ Segment.marker) →
      schemeFormatPrefix r.outer.scheme.str = none ∨ (∃ below, r.outer.archiveSplit = .ok below) →
      VPath.archiveCompose r.format r.outer r.inner = .ok p) ∧
    ∀ format outer inner, VPath.archiveCompose format outer inner = .ok p →
      p.archiveSplit = .ok (some ⟨format, outer, inner⟩) := by
  refine ⟨?_, fun r split_ plain outer => VPath.archiveCompose_split split_ plain outer,
    fun format outer inner composed => VPath.archiveSplit_compose composed⟩
  obtain ⟨layers, last, peels⟩ := Peels.exists p
  refine ⟨layers, last, peels, fun _ _ again => again.unique peels, ?_⟩
  cases last with
  | ok q => exact .inl ⟨q, rfl, peels.innermost rfl⟩
  | error e =>
    rcases peels.failure rfl with rfl | ⟨rfl, left⟩
    · exact .inr (.inl rfl)
    · exact .inr (.inr ⟨rfl, left⟩)

theorem check_bare_zip : Scheme.check "zip+".toList := by decide

/-- A scheme that ends with its format, and a flat path with a marker in it. -/
theorem peeling_other_ends :
    (¬∀ p : VPath, ∃ layers last, Peels p layers last ∧
      ((∃ q, last = .ok q ∧ schemeFormatPrefix q.scheme.str = none) ∨ last = .error .archiveAddressing)) ∧
    ¬∀ (p q : VPath) (layers : List ArchiveRef), Peels p layers (.ok q) → ∀ s ∈ q.segments, s ≠ Segment.marker := by
  constructor
  · intro all
    obtain ⟨layers, last, peels, ended⟩ := all ⟨⟨"zip+".toList, check_bare_zip⟩, none, [Segment.marker]⟩
    have failed : VPath.archiveSplit ⟨⟨"zip+".toList, check_bare_zip⟩, none, [Segment.marker]⟩ =
        .error .invalidScheme := by decide
    obtain ⟨_, rfl⟩ := peels.unique (.fails failed)
    rcases ended with ⟨q, same, _⟩ | same
    · cases same
    · exact absurd (Except.error.inj same) (by decide)
  · intro all
    have plain : VPath.archiveSplit ⟨⟨"file".toList, Scheme.check_file⟩, none, [Segment.marker]⟩ = .ok none := by
      decide
    exact all _ _ [] (.flat plain) Segment.marker List.mem_cons_self rfl

end Norte
