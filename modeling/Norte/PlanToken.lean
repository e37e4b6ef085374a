import Mathlib.Data.Option.Basic
import Norte.PlanHasher

/-! Equal tokens come from equal plans. The framing of the hasher is self-delimiting field
by field and element by element, and the mark of the end opens no element. -/
namespace Norte.Sync

open Hashing Utf8 Framing

/-! What the types of the fields guarantee: lengths of a `usize`. -/

def SegmentsFit (segments : List Segment) : Prop :=
  segments.length < 2 ^ 64 ∧ ∀ segment ∈ segments, segment.bytes.length < 2 ^ 64

instance : DecidablePred SegmentsFit := fun segments =>
  inferInstanceAs (Decidable (segments.length < 2 ^ 64 ∧ ∀ segment ∈ segments, _))

structure RootFits (root : VPath) : Prop where
  scheme : (encode root.scheme.str).length < 2 ^ 64
  authority : ∀ name ∈ root.authority.map Authority.str, (encode name).length < 2 ^ 64
  segments : SegmentsFit root.segments

structure SyncOptions.Fits (opts : SyncOptions) : Prop where
  sourceRoot : RootFits opts.sourceRoot
  destRoot : RootFits opts.destRoot

structure SyncStep.Fits (step : SyncStep) : Prop where
  rel : SegmentsFit step.rel.segments
  destRel : ∀ rel ∈ step.destRel, SegmentsFit rel.segments

def PlanItem.Fits : PlanItem → Prop
  | .step s _ => s.Fits
  | .blocker b => SegmentsFit b.rel.segments

/-! Fields. -/

theorem feed_delimits : SelfDelimiting feed fun bytes => bytes.length < 2 ^ 64 :=
  fun _ _ _ _ => feed_append_inj

theorem feedU64_delimits : SelfDelimiting feedU64 (· < 2 ^ 64) := by
  intro a b r s fitsA fitsB same
  obtain ⟨words, rest⟩ := feed_append_inj (by simp) (by simp) same
  exact ⟨leBytes_inj 8 (by omega) (by omega) words, rest⟩

theorem feedFlag_delimits : SelfDelimiting feedFlag fun _ => True := by
  intro a b r s _ _ same
  obtain ⟨flags, rest⟩ := feed_append_inj (by simp) (by simp) same
  exact ⟨by cases a <;> cases b <;> simp_all, rest⟩

theorem u64LeBytes_injective : Function.Injective fun v : UInt64 => u64LeBytes v.toNat := by
  intro a b same
  exact UInt64.toNat_inj.mp (leBytes_inj 8 (by simpa using a.toNat_lt) (by simpa using b.toNat_lt) same)

theorem feedOptU64_delimits : SelfDelimiting feedOptU64 fun _ => True := by
  intro a b r s _ _ same
  have long (v : Option UInt64) : ∀ bytes ∈ v.map fun v => u64LeBytes v.toNat,
      bytes.length < 2 ^ 64 := by
    intro bytes member
    obtain ⟨v, -, rfl⟩ := Option.mem_map.mp member
    simp
  obtain ⟨values, rest⟩ := feedOpt_append_inj (long a) (long b) same
  exact ⟨Option.map_injective u64LeBytes_injective values, rest⟩

theorem feedName_delimits : SelfDelimiting feedName fun name => (encode name).length < 2 ^ 64 :=
  feed_delimits.comp fun _ _ => encode_injective

theorem feedOptName_delimits :
    SelfDelimiting feedOptName fun name => ∀ s ∈ name, (encode s).length < 2 ^ 64 := by
  intro a b r s fitsA fitsB same
  have long {name : Option Str} (fits : ∀ s ∈ name, (encode s).length < 2 ^ 64) :
      ∀ bytes ∈ name.map encode, bytes.length < 2 ^ 64 := by
    intro bytes member
    obtain ⟨s, there, rfl⟩ := Option.mem_map.mp member
    exact fits s there
  obtain ⟨names, rest⟩ := feedOpt_append_inj (long fitsA) (long fitsB) same
  exact ⟨Option.map_injective (fun _ _ => encode_injective) names, rest⟩

theorem segment_injective : Function.Injective Segment.bytes := by
  rintro ⟨a, _⟩ ⟨b, _⟩ same
  congr

theorem feedSegments_delimits : SelfDelimiting feedSegments SegmentsFit := by
  intro a b r s fitsA fitsB same
  simp only [feedSegments, List.append_assoc] at same
  obtain ⟨count, same⟩ := feedU64_delimits fitsA.1 fitsB.1 same
  exact (feed_delimits.comp segment_injective).flatMap count fitsA.2 fitsB.2 same

theorem feedRel_delimits : SelfDelimiting feedRel fun rel => SegmentsFit rel.segments :=
  feedSegments_delimits.comp fun ⟨_⟩ ⟨_⟩ same => congrArg RelPath.mk same

theorem feedOptRel_delimits :
    SelfDelimiting feedOptRel fun rel => ∀ path ∈ rel, SegmentsFit path.segments := by
  intro a b r s fitsA fitsB same
  match a, b with
  | none, none => exact ⟨rfl, (List.cons.inj same).2⟩
  | none, some _ => exact absurd (List.cons.inj same).1 (by decide)
  | some _, none => exact absurd (List.cons.inj same).1 (by decide)
  | some a, some b =>
    obtain ⟨rfl, rest⟩ := feedRel_delimits (fitsA a rfl) (fitsB b rfl) (List.cons.inj same).2
    exact ⟨rfl, rest⟩

theorem scheme_injective : Function.Injective Scheme.str := by
  rintro ⟨a, _⟩ ⟨b, _⟩ same
  congr

theorem authority_injective : Function.Injective Authority.str := by
  rintro ⟨a, _⟩ ⟨b, _⟩ same
  congr

theorem feedRoot_delimits : SelfDelimiting feedRoot RootFits := by
  intro a b r s fitsA fitsB same
  simp only [feedRoot, List.append_assoc] at same
  obtain ⟨schemes, same⟩ := feedName_delimits fitsA.scheme fitsB.scheme same
  obtain ⟨authorities, same⟩ := feedOptName_delimits fitsA.authority fitsB.authority same
  obtain ⟨segments, rest⟩ := feedSegments_delimits fitsA.segments fitsB.segments same
  have equal : a = b := by
    cases a
    cases b
    simp only [VPath.mk.injEq]
    exact ⟨scheme_injective schemes, Option.map_injective authority_injective authorities, segments⟩
  exact ⟨equal, rest⟩

/-! Tokens: each vocabulary has short names, all different. -/

structure Vocabulary (name : τ → Str) : Prop where
  injective : Function.Injective name
  short : ∀ token, (encode (name token)).length < 2 ^ 64

theorem Vocabulary.delimits {name : τ → Str} (vocabulary : Vocabulary name) :
    SelfDelimiting (fun token => feedName (name token)) fun _ => True :=
  fun _ _ _ _ _ _ same =>
    feedName_delimits.comp vocabulary.injective (vocabulary.short _) (vocabulary.short _) same

theorem Vocabulary.delimits_option {name : τ → Str} (vocabulary : Vocabulary name) :
    SelfDelimiting (fun token : Option τ => feedOptName (token.map name)) fun _ => True := by
  intro a b r s _ _ same
  have short (token : Option τ) : ∀ s ∈ token.map name, (encode s).length < 2 ^ 64 := by
    intro s member
    obtain ⟨t, -, rfl⟩ := Option.mem_map.mp member
    exact vocabulary.short t
  obtain ⟨names, rest⟩ := feedOptName_delimits (short a) (short b) same
  exact ⟨Option.map_injective vocabulary.injective names, rest⟩

theorem stepKind_vocabulary : Vocabulary SyncStepKind.name where
  injective a b same := by cases a <;> cases b <;> first | rfl | exact absurd same (by decide)
  short token := by cases token <;> decide

theorem reversal_vocabulary : Vocabulary StepReversal.name where
  injective a b same := by cases a <;> cases b <;> first | rfl | exact absurd same (by decide)
  short token := by cases token <;> decide

theorem reason_vocabulary : Vocabulary SyncReason.name where
  injective a b same := by cases a <;> cases b <;> first | rfl | exact absurd same (by decide)
  short token := by cases token <;> decide

theorem criterion_vocabulary : Vocabulary CompareCriterion.name where
  injective a b same := by cases a <;> cases b <;> first | rfl | exact absurd same (by decide)
  short token := by cases token <;> decide

theorem confidence_vocabulary : Vocabulary CompareConfidence.name where
  injective a b same := by cases a <;> cases b <;> first | rfl | exact absurd same (by decide)
  short token := by cases token <;> decide

theorem blockerKind_vocabulary : Vocabulary SyncBlockerKind.name where
  injective a b same := by cases a <;> cases b <;> first | rfl | exact absurd same (by decide)
  short token := by cases token <;> decide

theorem side_vocabulary : Vocabulary Side.name where
  injective a b same := by cases a <;> cases b <;> first | rfl | exact absurd same (by decide)
  short token := by cases token <;> decide

theorem mode_vocabulary : Vocabulary SyncMode.name where
  injective a b same := by cases a <;> cases b <;> first | rfl | exact absurd same (by decide)
  short token := by cases token <;> decide

theorem onUnknown_vocabulary : Vocabulary OnUnknown.name where
  injective a b same := by cases a <;> cases b <;> first | rfl | exact absurd same (by decide)
  short token := by cases token <;> decide

theorem descendSide_vocabulary : Vocabulary DescendSide.name where
  injective a b same := by cases a <;> cases b <;> first | rfl | exact absurd same (by decide)
  short token := by cases token <;> decide

/-! The intent and the elements. -/

theorem intent_delimits : SelfDelimiting
    (fun intent : SyncOptions × SyncCompareOptions => (PlanHasher.new intent.1 intent.2).fed)
    fun intent => intent.1.Fits := by
  rintro ⟨opts, compare⟩ ⟨opts', compare'⟩ r s fits fits' same
  simp only [PlanHasher.new, List.append_assoc] at same
  replace same := List.append_cancel_left same
  obtain ⟨sourceRoot, same⟩ := feedRoot_delimits fits.sourceRoot fits'.sourceRoot same
  obtain ⟨destRoot, same⟩ := feedRoot_delimits fits.destRoot fits'.destRoot same
  obtain ⟨mode, same⟩ := mode_vocabulary.delimits trivial trivial same
  obtain ⟨onUnknown, same⟩ := onUnknown_vocabulary.delimits trivial trivial same
  obtain ⟨sourceSide, same⟩ := side_vocabulary.delimits trivial trivial same
  obtain ⟨hasTrash, same⟩ := feedFlag_delimits trivial trivial same
  obtain ⟨restorable, same⟩ := feedFlag_delimits trivial trivial same
  obtain ⟨writable, same⟩ := feedFlag_delimits trivial trivial same
  obtain ⟨size, same⟩ := feedFlag_delimits trivial trivial same
  obtain ⟨mtime, same⟩ := feedFlag_delimits trivial trivial same
  obtain ⟨hash, same⟩ := feedFlag_delimits trivial trivial same
  obtain ⟨depth, same⟩ := feedOptU64_delimits trivial trivial same
  have small (v : UInt32) : v.toNat < 2 ^ 64 := Nat.lt_trans v.toNat_lt (by decide)
  obtain ⟨tolerance, same⟩ := feedU64_delimits (small _) (small _) same
  obtain ⟨follow, same⟩ := feedFlag_delimits trivial trivial same
  obtain ⟨descend, rest⟩ := descendSide_vocabulary.delimits_option trivial trivial same
  have widen : Function.Injective UInt32.toUInt64 := by
    intro a b equal
    have := congrArg UInt64.toNat equal
    exact UInt32.toNat_inj.mp (by simpa using this)
  obtain ⟨⟨size, mtime, hash⟩, _, _, _, _⟩ := compare
  obtain ⟨⟨size', mtime', hash'⟩, _, _, _, _⟩ := compare'
  cases opts
  cases opts'
  simp_all only [Prod.mk.injEq, SyncCompareOptions.mk.injEq, true_and, and_true]
  exact ⟨Option.map_injective widen depth, UInt32.toNat_inj.mp tolerance⟩

/-- What a human approves of an element: everything but the id of a step and the witness
the executor revalidates. -/
def PlanItem.approved : PlanItem → SyncStep ⊕ SyncBlocker
  | .step s _ => .inl { s with id := 0 }
  | .blocker b => .inr b

def feedElement : SyncStep ⊕ SyncBlocker → Bytes
  | .inl step => tagStep :: (feedName step.kind.name ++ feedRel step.rel ++
    feedOptRel step.destRel ++ feedOptU64 step.size ++ feedName step.criterion.name ++
    feedName step.confidence.name ++ feedOptName (step.reversal.map StepReversal.name) ++
    feedOptName (step.reason.map SyncReason.name))
  | .inr blocker => tagBlocker :: (feedName blocker.kind.name ++ feedRel blocker.rel ++
    feedOptName (blocker.side.map Side.name))

/-- An element as it is fed, without an id. -/
def ElementFits : SyncStep ⊕ SyncBlocker → Prop
  | .inl step => step.id = 0 ∧ step.Fits
  | .inr blocker => SegmentsFit blocker.rel.segments

theorem PlanItem.approved_fits {item : PlanItem} (fits : item.Fits) : ElementFits item.approved := by
  cases item with
  | step s dest => exact ⟨rfl, fits.rel, fits.destRel⟩
  | blocker b => exact fits

theorem step_delimits {step step' : SyncStep} {r s : Bytes} (fits : step.Fits) (fits' : step'.Fits)
    (unnumbered : step.id = step'.id)
    (same : feedElement (.inl step) ++ r = feedElement (.inl step') ++ s) :
    step = step' ∧ r = s := by
  replace same := (List.cons.inj same).2
  simp only [List.append_eq, List.append_assoc] at same
  obtain ⟨kind, same⟩ := stepKind_vocabulary.delimits trivial trivial same
  obtain ⟨rel, same⟩ := feedRel_delimits fits.rel fits'.rel same
  obtain ⟨destRel, same⟩ := feedOptRel_delimits fits.destRel fits'.destRel same
  obtain ⟨size, same⟩ := feedOptU64_delimits trivial trivial same
  obtain ⟨criterion, same⟩ := criterion_vocabulary.delimits trivial trivial same
  obtain ⟨confidence, same⟩ := confidence_vocabulary.delimits trivial trivial same
  obtain ⟨reversal, same⟩ := reversal_vocabulary.delimits_option trivial trivial same
  obtain ⟨reason, rest⟩ := reason_vocabulary.delimits_option trivial trivial same
  cases step
  cases step'
  simp_all

theorem blocker_delimits {blocker blocker' : SyncBlocker} {r s : Bytes}
    (fits : SegmentsFit blocker.rel.segments) (fits' : SegmentsFit blocker'.rel.segments)
    (same : feedElement (.inr blocker) ++ r = feedElement (.inr blocker') ++ s) :
    blocker = blocker' ∧ r = s := by
  replace same := (List.cons.inj same).2
  simp only [List.append_eq, List.append_assoc] at same
  obtain ⟨kind, same⟩ := blockerKind_vocabulary.delimits trivial trivial same
  obtain ⟨rel, same⟩ := feedRel_delimits fits fits' same
  obtain ⟨side, rest⟩ := side_vocabulary.delimits_option trivial trivial same
  cases blocker
  cases blocker'
  simp_all

/-- A step and a blocker never meet: their tags differ. -/
theorem feedElement_delimits : SelfDelimiting feedElement ElementFits := by
  intro a b r s fitsA fitsB same
  match a, b with
  | .inl step, .inl step' =>
    obtain ⟨rfl, rest⟩ := step_delimits fitsA.2 fitsB.2 (fitsA.1.trans fitsB.1.symm) same
    exact ⟨rfl, rest⟩
  | .inl _, .inr _ => exact absurd (List.cons.inj same).1 (by decide)
  | .inr _, .inl _ => exact absurd (List.cons.inj same).1 (by decide)
  | .inr blocker, .inr blocker' =>
    obtain ⟨rfl, rest⟩ := blocker_delimits fitsA fitsB same
    exact ⟨rfl, rest⟩

theorem closed_end (tail : Bytes) : Closed feedElement ElementFits (tagEnd :: tail) := by
  intro a _ t same
  cases a with
  | inl step => exact absurd (List.cons.inj same).1 (by decide)
  | inr blocker => exact absurd (List.cons.inj same).1 (by decide)

theorem item_fed (hasher : PlanHasher) (item : PlanItem) :
    (hasher.item item).fed = hasher.fed ++ feedElement item.approved := by
  cases item <;> rfl

theorem items_fed (hasher : PlanHasher) (items : List PlanItem) :
    (items.foldl PlanHasher.item hasher).fed =
      hasher.fed ++ (items.map PlanItem.approved).flatMap feedElement := by
  induction items generalizing hasher with
  | nil => simp
  | cons item items ih => rw [List.foldl_cons, ih, item_fed]; simp

theorem hexDigit_injective : ∀ a < 16, ∀ b < 16, hexDigit a = hexDigit b → a = b := by decide

theorem hexLower_length (bytes : Bytes) : (hexLower bytes).length = 2 * bytes.length := by
  induction bytes with
  | nil => rfl
  | cons b bytes ih =>
    simp only [hexLower, List.flatMap_cons, List.length_append, List.length_cons,
      List.length_nil] at ih ⊢
    omega

theorem hexLower_injective : Function.Injective hexLower := by
  have delimits : SelfDelimiting (fun b : UInt8 =>
      [hexDigit (b >>> 4).toNat, hexDigit (b &&& 0x0F).toNat]) fun _ => True := by
    refine .of_length 2 (fun _ => rfl) fun a b _ _ same => ?_
    obtain ⟨high, low⟩ := List.cons.inj same
    have highs := hexDigit_injective _ (VPathCodec.high_nibble_lt a) _ (VPathCodec.high_nibble_lt b) high
    have lows := hexDigit_injective _ (VPathCodec.low_nibble_lt a) _ (VPathCodec.low_nibble_lt b)
      (List.cons.inj low).1
    rw [← VPathCodec.nibbles_join a, ← VPathCodec.nibbles_join b, UInt8.toNat_inj.mp highs,
      UInt8.toNat_inj.mp lows]
  intro a b same
  have lengths := congrArg List.length same
  rw [hexLower_length, hexLower_length] at lengths
  exact (delimits.flatMap (r := []) (s := []) (by omega) (fun _ _ => trivial) (fun _ _ => trivial)
    (congrArg (· ++ []) same)).1

theorem fromDigest_injective : Function.Injective PlanHash.fromDigest := by
  intro a b same
  exact hexLower_injective (congrArg PlanHash.hex same)

/-- A plan that fits in memory. -/
structure PlanFits (opts : SyncOptions) (items : List PlanItem) : Prop where
  opts : opts.Fits
  items : ∀ item ∈ items, item.Fits

theorem PlanFits.approved {opts : SyncOptions} {items : List PlanItem} (fits : PlanFits opts items) :
    ∀ a ∈ items.map PlanItem.approved, ElementFits a := by
  intro a member
  obtain ⟨item, there, rfl⟩ := List.mem_map.mp member
  exact PlanItem.approved_fits (fits.items item there)

/-- The intent first, then the elements up to the mark of the end. -/
theorem planToken_injective {sha256 : Bytes → Bytes} (injective : Function.Injective sha256)
    {opts opts' : SyncOptions} {compare compare' : SyncCompareOptions} {items items' : List PlanItem}
    (fits : PlanFits opts items) (fits' : PlanFits opts' items')
    (same : planToken sha256 opts compare items = planToken sha256 opts' compare' items') :
    opts = opts' ∧ compare = compare' ∧
      items.map PlanItem.approved = items'.map PlanItem.approved := by
  have strings := injective (fromDigest_injective same)
  rw [items_fed, items_fed, List.append_assoc, List.append_assoc] at strings
  obtain ⟨intents, rest⟩ := intent_delimits (a := (opts, compare)) (b := (opts', compare'))
    fits.opts fits'.opts strings
  obtain ⟨elements, -⟩ := feedElement_delimits.sequence (closed_end _) (closed_end _)
    fits.approved fits'.approved rest
  simp only [Prod.mk.injEq] at intents
  exact ⟨intents.1, intents.2, elements⟩

end Norte.Sync
