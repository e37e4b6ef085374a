import Norte.CompareCover

/-! The comparison seen from the other side: what changes when left and right change places.
Only asking for what a listing does not say, and reading two contents, prefer a side. -/
namespace Norte.Compare

open Sync MergeJoin StackWalk

def sideSwap : Side → Side
  | .left => .right
  | .right => .left
  | .unknown => .unknown

def verdictSwap : CompareVerdict → CompareVerdict
  | .onlyLeft => .onlyRight
  | .onlyRight => .onlyLeft
  | verdict => verdict

def Decision.swap (d : Decision) : Decision := { d with verdict := verdictSwap d.verdict, newer := d.newer.map sideSwap }

def Prefetched.swap (facts : Prefetched) : Prefetched := ⟨facts.rightTarget, facts.leftTarget, facts.hash⟩

def Frame.swap (f : Frame) : Frame := ⟨f.right, f.left, f.depth⟩

def PendingRow.swap : PendingRow → PendingRow
  | decision d left right => decision d.swap right left
  | flagged left right verdict criterion reason side =>
    flagged right left (verdictSwap verdict) criterion reason (sideSwap side)

def rowSwap (row : CompareRow) : CompareRow :=
  { row with left := row.right, right := row.left, verdict := verdictSwap row.verdict, newer := row.newer.map sideSwap,
             side := row.side.map sideSwap }

def Listed.swap (listed : Listed) : Listed := ⟨listed.right, listed.left⟩

def CompareOptions.swap (opts : CompareOptions) : CompareOptions :=
  { opts with descendOrphans := opts.descendOrphans.map sideSwap }

def Comparison.swap (c : Comparison) : Comparison :=
  { c with left := c.right, leftRoot := c.rightRoot, right := c.left, rightRoot := c.leftRoot, opts := c.opts.swap,
           sides := c.sides.swap }

@[simp] theorem sideSwap_sideSwap (side : Side) : sideSwap (sideSwap side) = side := by cases side <;> rfl

@[simp] theorem verdictSwap_verdictSwap (verdict : CompareVerdict) : verdictSwap (verdictSwap verdict) = verdict := by
  cases verdict <;> rfl

theorem sideSwap_injective : Function.Injective sideSwap :=
  Function.LeftInverse.injective sideSwap_sideSwap

@[simp] theorem Frame.swap_swap (f : Frame) : f.swap.swap = f := rfl

@[simp] theorem Comparison.swap_swap (c : Comparison) : c.swap.swap = c := by
  have opts : c.opts.swap.swap = c.opts := by
    simp [CompareOptions.swap, Function.comp_def]
  unfold Comparison.swap
  rw [opts]
  rfl

/-! The cascade has no favourite side. -/

namespace Cascade

variable {left right : Entry} {opts : CompareOptions}

theorem saturatingSub_swap (a b : Int) (tolerance : Nat) (small : tolerance < 2 ^ 32) :
    (saturatingSub a b).natAbs > tolerance ↔ (saturatingSub b a).natAbs > tolerance := by
  unfold saturatingSub
  omega

theorem mtimeRung_swap (left right : Entry) (opts : CompareOptions) :
    mtimeRung right left opts = (mtimeRung left right opts).swap := by
  unfold mtimeRung
  cases left.mtimeMs with
  | none => cases right.mtimeMs <;> rfl
  | some l =>
    cases right.mtimeMs with
    | none => rfl
    | some r =>
      have far := saturatingSub_swap l r opts.mtimeToleranceMs.toNat opts.mtimeToleranceMs.toNat_lt
      dsimp only
      by_cases beyond : (saturatingSub l r).natAbs > opts.mtimeToleranceMs.toNat
      · have differ : l ≠ r := by
          rintro rfl
          unfold saturatingSub at beyond
          omega
        rw [if_pos beyond, if_pos (far.mp beyond)]
        by_cases less : l > r
        · rw [if_pos less, if_neg (by omega)]
          rfl
        · rw [if_neg less, if_pos (by omega)]
          rfl
      · rw [if_neg beyond, if_neg (mt far.mpr beyond)]
        rfl

theorem afterSize_swap (left right : Entry) (opts : CompareOptions) :
    afterSize right left opts = (afterSize left right opts).swap := by
  unfold afterSize
  split
  · exact mtimeRung_swap left right opts
  · rfl

theorem sizeAndMtime_swap (left right : Entry) (opts : CompareOptions) :
    sizeAndMtime right left opts = (sizeAndMtime left right opts).swap := by
  unfold sizeAndMtime
  split
  · cases left.size with
    | none => cases right.size <;> rfl
    | some l =>
      cases right.size with
      | none => rfl
      | some r =>
        dsimp only
        by_cases same : l = r
        · rw [if_neg (not_not.mpr same), if_neg (not_not.mpr same.symm), afterSize_swap]
        · rw [if_pos same, if_pos (Ne.symm same)]
          rfl
  · exact afterSize_swap left right opts

theorem cheapRungs_swap (left right : Entry) (opts : CompareOptions) (facts : Prefetched) :
    cheapRungs right left opts facts.swap = (cheapRungs left right opts facts).swap := by
  unfold cheapRungs
  by_cases same : left.kind = right.kind
  · rw [if_neg (not_not.mpr same), if_neg (not_not.mpr same.symm), ← same]
    cases left.kind with
    | file => exact sizeAndMtime_swap left right opts
    | dir => rfl
    | symlink =>
      dsimp only
      unfold linkTarget Prefetched.swap
      cases facts.leftTarget with
      | none => cases facts.rightTarget <;> rfl
      | some l =>
        cases facts.rightTarget with
        | none => rfl
        | some r =>
          dsimp only
          simp only [eq_comm (a := r)]
          split <;> rfl
    | other => rfl
  · rw [if_pos same, if_pos (Ne.symm same)]
    rfl

theorem verdictSwap_eq_same {verdict : CompareVerdict} : verdictSwap verdict = .same ↔ verdict = .same := by
  cases verdict <;> simp [verdictSwap]

theorem decide_swap (left right : Entry) (opts : CompareOptions) (facts : Prefetched) :
    decide right left opts facts.swap = (decide left right opts facts).swap := by
  unfold decide
  rw [cheapRungs_swap]
  dsimp only [Decision.swap]
  by_cases cheapSame : (cheapRungs left right opts facts).verdict = .same
  · have kinds : left.kind = right.kind := by
      by_contra differ
      rw [cheapRungs, if_pos differ] at cheapSame
      cases cheapSame
    have swapped := verdictSwap_eq_same.mpr cheapSame
    rw [swapped, cheapSame, kinds]
    split
    · rw [Decision.mk.injEq]
      exact ⟨swapped.symm, rfl, rfl, rfl, rfl⟩
    · unfold Prefetched.swap
      dsimp only
      cases facts.hash <;> rfl
  · have swapped : verdictSwap (cheapRungs left right opts facts).verdict ≠ .same := mt verdictSwap_eq_same.mp cheapSame
    rw [if_pos (by simp [swapped]), if_pos (by simp [cheapSame])]

end Cascade

/-! Hydration asks the left side first, which shows where both sides are asked at one rung. -/

def StatFailure.swap (failure : StatFailure) : StatFailure := { failure with side := sideSwap failure.side }

/-- The entry with what its provider said when it was asked. -/
def refreshed (e statted : Entry) : Entry := { e with size := statted.size, mtimeMs := statted.mtimeMs }

/-- Both sides are asked at one rung, and the first one to fail keeps the other from being
asked, or from being the one that failed. -/
def StatsClash (left right : Provider) (l r : Entry) : Prop :=
  match left.stat l.path, right.stat r.path with
  | none, none => True
  | none, some statted => refreshed r statted ≠ r
  | some statted, none => refreshed l statted ≠ l
  | some _, some _ => False

/-- What one hydration says of a pair, the other says of the pair turned around. -/
structure Mirrors (h h' : Hydration) : Prop where
  failure : h'.2 = h.2.map StatFailure.swap
  left : h'.1.1.entry = h.1.2.entry
  right : h'.1.2.entry = h.1.1.entry
  ready : h.2 = none → h'.1 = (h.1.2, h.1.1)

section

variable {left right : Provider} {rung : CompareCriterion} {lacks : Entry → Bool} {l r : Fresh}

theorem hydrate_asked {p : Provider} {fresh : Fresh} (asked : fresh.asked = true) : hydrate p fresh = (fresh, true) := by
  unfold hydrate
  rw [if_pos asked]

theorem hydrate_unasked {p : Provider} {fresh : Fresh} (asked : fresh.asked = false) : hydrate p fresh =
    match p.stat fresh.entry.path with
    | none => ({ fresh with asked := true }, false)
    | some statted => (⟨refreshed fresh.entry statted, true⟩, true) := by
  unfold hydrate
  rw [if_neg (by simp [asked])]
  rfl

theorem hydrateRung_mirrors (calm : lacks l.entry = true → lacks r.entry = true → l.asked = false → r.asked = false →
    ¬StatsClash left right l.entry r.entry) :
    Mirrors (hydrateRung left right rung lacks (l, r)) (hydrateRung right left rung lacks (r, l)) := by
  unfold hydrateRung
  dsimp only
  by_cases needL : lacks l.entry = true
  · by_cases needR : lacks r.entry = true
    · rw [if_pos needL, if_pos needR]
      cases askedL : l.asked with
      | true =>
        rw [hydrate_asked askedL]
        cases hydrate right r with
        | mk r' ok => cases ok <;> exact ⟨rfl, rfl, rfl, by simp⟩
      | false =>
        cases askedR : r.asked with
        | true =>
          rw [hydrate_asked askedR]
          cases hydrate left l with
          | mk l' ok => cases ok <;> exact ⟨rfl, rfl, rfl, by simp⟩
        | false =>
          have quiet := calm needL needR askedL askedR
          rw [hydrate_unasked askedL, hydrate_unasked askedR]
          unfold StatsClash at quiet
          cases statL : left.stat l.entry.path with
          | none =>
            cases statR : right.stat r.entry.path with
            | none =>
              rw [statL, statR] at quiet
              exact absurd trivial quiet
            | some statted =>
              rw [statL, statR] at quiet
              exact ⟨rfl, not_not.mp quiet, rfl, by simp⟩
          | some statted =>
            cases statR : right.stat r.entry.path with
            | none =>
              rw [statL, statR] at quiet
              exact ⟨rfl, rfl, (not_not.mp quiet).symm, by simp⟩
            | some statted' => exact ⟨rfl, rfl, rfl, fun _ => rfl⟩
    · rw [if_pos needL, if_neg needR]
      cases hydrate left l with
      | mk l' ok => cases ok <;> exact ⟨rfl, rfl, rfl, by simp⟩
  · rw [if_neg needL]
    by_cases needR : lacks r.entry = true
    · rw [if_pos needR]
      cases hydrate right r with
      | mk r' ok => cases ok <;> exact ⟨rfl, rfl, rfl, by simp⟩
    · rw [if_neg needR]
      exact ⟨rfl, rfl, rfl, fun _ => rfl⟩

end

/-- A rung that asks a side says so, and leaves a side it does not ask as it was. -/
theorem hydrateRung_unasked {left right : Provider} {rung : CompareCriterion} {lacks : Entry → Bool} {l r : Fresh}
    {pair : Fresh × Fresh} (eq : hydrateRung left right rung lacks (l, r) = (pair, none)) :
    (pair.1.asked = false → pair.1 = l ∧ lacks l.entry = false) ∧ (pair.2.asked = false → pair.2 = r ∧ lacks r.entry = false) := by
  have asked (p : Provider) (fresh fresh' : Fresh) (ok : Bool)
      (eq : (if lacks fresh.entry = true then hydrate p fresh else (fresh, true)) = (fresh', ok)) (still : fresh'.asked = false) :
      fresh' = fresh ∧ lacks fresh.entry = false := by
    split at eq
    · exfalso
      unfold hydrate at eq
      split at eq
      · rename_i before
        obtain ⟨rfl, rfl⟩ := Prod.mk.inj eq
        rw [before] at still
        exact nomatch still
      · split at eq <;>
        · obtain ⟨rfl, rfl⟩ := Prod.mk.inj eq
          exact nomatch still
    · rename_i has
      obtain ⟨rfl, rfl⟩ := Prod.mk.inj eq
      exact ⟨rfl, by simpa using has⟩
  unfold hydrateRung at eq
  dsimp only at eq
  cases first : (if lacks l.entry = true then hydrate left l else (l, true)) with
  | mk l' okL =>
    cases second : (if lacks r.entry = true then hydrate right r else (r, true)) with
    | mk r' okR =>
      rw [first, second] at eq
      dsimp only at eq
      split at eq
      · exact nomatch (Prod.mk.inj eq).2
      · obtain ⟨rfl, _⟩ := Prod.mk.inj eq
        exact ⟨asked left l l' okL first, asked right r r' okR second⟩

namespace Comparison

variable {c : Comparison} {l r : Entry}

/-- Both listings lack what one rung asks for. -/
def AsksBoth (c : Comparison) (l r : Entry) : Prop :=
  l.kind = .file ∧ r.kind = .file ∧
    ((c.opts.criteria.size = true ∧ l.size = none ∧ r.size = none) ∨
      (c.opts.criteria.mtime = true ∧ l.mtimeMs = none ∧ r.mtimeMs = none ∧
        (c.opts.criteria.size = false ∨ (l.size.isSome ∧ l.size = r.size))))

/-- The pair as its listings have it. -/
def asListed (l r : Entry) : Fresh × Fresh := (⟨l, false⟩, ⟨r, false⟩)

/-- Both contents are asked for, and neither can be read. -/
def ReadsClash (c : Comparison) (l r : Entry) : Prop :=
  ∃ pair, c.hydrateRungs (asListed l r) = (pair, none) ∧
    (Cascade.decide pair.1.entry pair.2.entry c.opts (c.linkFacts pair.1.entry pair.2.entry)).needsHash = true ∧
    c.sha256Of c.left pair.1.entry.path = none ∧ c.sha256Of c.right pair.2.entry.path = none

/-- No failure makes the row of the pair depend on which side is asked first. -/
def Steady (c : Comparison) (l r : Entry) : Prop :=
  ¬(c.AsksBoth l r ∧ StatsClash c.left c.right l r) ∧ ¬c.ReadsClash l r

theorem mtimeHydration_mirrors {l r : Fresh} (calm : c.opts.criteria.mtime = true → l.entry.mtimeMs = none →
    r.entry.mtimeMs = none → l.asked = false → r.asked = false → ¬StatsClash c.left c.right l.entry r.entry) :
    Mirrors (c.mtimeHydration (l, r)) (c.swap.mtimeHydration (r, l)) := by
  unfold mtimeHydration
  by_cases dated : c.opts.criteria.mtime = true
  · rw [if_pos dated, if_pos (show c.swap.opts.criteria.mtime = true from dated)]
    exact hydrateRung_mirrors fun lackL lackR => calm dated (by simpa using lackL) (by simpa using lackR)
  · rw [if_neg dated, if_neg (show ¬c.swap.opts.criteria.mtime = true from dated)]
    exact ⟨rfl, rfl, rfl, fun _ => rfl⟩

theorem hydrateRungs_mirrors (calm : c.AsksBoth l r → ¬StatsClash c.left c.right l r) :
    Mirrors (c.hydrateRungs (asListed l r)) (c.swap.hydrateRungs (asListed r l)) := by
  unfold hydrateRungs asListed
  by_cases files : l.kind = .file ∧ r.kind = .file
  · rw [if_pos files, if_pos files.symm]
    by_cases sized : c.opts.criteria.size = true
    · rw [if_pos sized, if_pos (show c.swap.opts.criteria.size = true from sized)]
      have first : Mirrors (hydrateRung c.left c.right .size (·.size.isNone) (⟨l, false⟩, ⟨r, false⟩))
          (hydrateRung c.right c.left .size (·.size.isNone) (⟨r, false⟩, ⟨l, false⟩)) :=
        hydrateRung_mirrors fun lackL lackR _ _ =>
          calm ⟨files.1, files.2, .inl ⟨sized, by simpa using lackL, by simpa using lackR⟩⟩
      rw [show c.swap.left = c.right from rfl, show c.swap.right = c.left from rfl]
      cases eq : hydrateRung c.left c.right .size (·.size.isNone) (⟨l, false⟩, ⟨r, false⟩) with
      | mk pair failure =>
        cases eq' : hydrateRung c.right c.left .size (·.size.isNone) (⟨r, false⟩, ⟨l, false⟩) with
        | mk pair' failure' =>
          rw [eq, eq'] at first
          obtain ⟨failed, atLeft, atRight, ready⟩ := first
          dsimp only at failed atLeft atRight ready
          cases failure with
          | some f =>
            subst failed
            exact ⟨rfl, atLeft, atRight, by simp⟩
          | none =>
            subst failed
            obtain rfl := ready rfl
            have agree : sizesAgree (pair.2, pair.1) = sizesAgree pair := by
              unfold sizesAgree
              cases pair.1.entry.size <;> cases pair.2.entry.size <;> simp [eq_comm]
            dsimp only [Option.map_none]
            rw [agree]
            by_cases agreed : sizesAgree pair = true
            · rw [if_pos agreed, if_pos agreed]
              refine mtimeHydration_mirrors fun dated lackL lackR freshL freshR => ?_
              obtain ⟨sameL, hasL⟩ := (hydrateRung_unasked eq).1 freshL
              obtain ⟨sameR, hasR⟩ := (hydrateRung_unasked eq).2 freshR
              rw [sameL] at lackL ⊢
              rw [sameR] at lackR ⊢
              unfold sizesAgree at agreed
              rw [sameL, sameR] at agreed
              have agreed : l.size.isSome = true ∧ l.size = r.size := by simpa using agreed
              exact calm ⟨files.1, files.2, .inr ⟨dated, lackL, lackR, .inr agreed⟩⟩
            · rw [if_neg agreed, if_neg agreed]
              exact ⟨rfl, rfl, rfl, fun _ => rfl⟩
    · rw [if_neg sized, if_neg (show ¬c.swap.opts.criteria.size = true from sized)]
      exact mtimeHydration_mirrors fun dated lackL lackR _ _ =>
        calm ⟨files.1, files.2, .inr ⟨dated, lackL, lackR, .inl (by simpa using sized)⟩⟩
  · rw [if_neg files, if_neg (fun files' => files (And.symm files'))]
    exact ⟨rfl, rfl, rfl, fun _ => rfl⟩

theorem linkFacts_swap (c : Comparison) (l r : Entry) : c.swap.linkFacts r l = (c.linkFacts l r).swap := by
  unfold linkFacts
  by_cases links : l.kind = .symlink ∧ r.kind = .symlink
  · rw [if_pos links, if_pos links.symm]
    rfl
  · rw [if_neg links, if_neg (fun links' => links (And.symm links'))]
    rfl

theorem hashPair_swap (readable : ¬(c.sha256Of c.left l.path = none ∧ c.sha256Of c.right r.path = none)) :
    c.swap.hashPair r l = (c.hashPair l r).mapError sideSwap := by
  have left : c.swap.sha256Of c.swap.left r.path = c.sha256Of c.right r.path := rfl
  have right : c.swap.sha256Of c.swap.right l.path = c.sha256Of c.left l.path := rfl
  unfold hashPair
  rw [left, right]
  cases digestL : c.sha256Of c.left l.path with
  | none =>
    cases digestR : c.sha256Of c.right r.path with
    | none => exact absurd ⟨digestL, digestR⟩ readable
    | some _ => rfl
  | some dL =>
    cases c.sha256Of c.right r.path with
    | none => rfl
    | some dR =>
      dsimp only [Except.mapError]
      simp only [eq_comm (a := dR)]

theorem verdictForPair_swap (readable : (Cascade.decide l r c.opts (c.linkFacts l r)).needsHash = true →
    ¬(c.sha256Of c.left l.path = none ∧ c.sha256Of c.right r.path = none)) :
    c.swap.verdictForPair r l =
      match c.verdictForPair l r with
      | .ok d => .ok d.swap
      | .error side => .error (sideSwap side) := by
  have decided (facts : Prefetched) : Cascade.decide r l c.swap.opts facts.swap = (Cascade.decide l r c.opts facts).swap :=
    Cascade.decide_swap l r c.opts facts
  unfold verdictForPair
  dsimp only
  rw [linkFacts_swap, decided]
  by_cases hashed : (Cascade.decide l r c.opts (c.linkFacts l r)).needsHash = true
  · rw [if_neg (by simpa [Decision.swap] using hashed), if_neg (by simpa using hashed), hashPair_swap (readable hashed)]
    cases c.hashPair l r with
    | error side => rfl
    | ok outcome => exact congrArg Except.ok (decided { c.linkFacts l r with hash := outcome })
  · rw [if_pos (by simpa [Decision.swap] using hashed), if_pos (by simpa using hashed)]

/-- The row of a steady pair, turned around. -/
theorem pairOutcome_swap (steady : c.Steady l r) : c.swap.pairOutcome r l = (c.pairOutcome l r).swap := by
  obtain ⟨calm, readable⟩ := steady
  have mirrors := hydrateRungs_mirrors (not_and.mp calm)
  unfold pairOutcome
  cases eq : c.hydrateRungs (⟨l, false⟩, ⟨r, false⟩) with
  | mk pair failure =>
    cases eq' : c.swap.hydrateRungs (⟨r, false⟩, ⟨l, false⟩) with
    | mk pair' failure' =>
      unfold asListed at mirrors
      rw [eq, eq'] at mirrors
      obtain ⟨failed, atLeft, atRight, ready⟩ := mirrors
      dsimp only at failed atLeft atRight ready
      cases failure with
      | some f =>
        subst failed
        dsimp only [Option.map_some]
        rw [atLeft, atRight]
        rfl
      | none =>
        subst failed
        obtain rfl := ready rfl
        have swapped := verdictForPair_swap (c := c) (l := pair.1.entry) (r := pair.2.entry) fun hashed unread =>
          readable ⟨pair, eq, hashed, unread⟩
        dsimp only [Option.map_none]
        rw [swapped]
        cases c.verdictForPair pair.1.entry pair.2.entry <;> rfl

/-- Where a rung lacks both sides and the first fails, the second is left as it was. -/
theorem hydrateRung_left_fails {left right : Provider} {rung : CompareCriterion} {lacks : Entry → Bool}
    (lackL : lacks l = true) (failed : left.stat l.path = none) :
    hydrateRung left right rung lacks (asListed l r) = ((⟨l, true⟩, ⟨r, false⟩), some ⟨.left, rung⟩) := by
  unfold hydrateRung asListed hydrate
  dsimp only
  rw [if_pos lackL, failed]
  rfl

theorem hydrateRung_right_fails {left right : Provider} {rung : CompareCriterion} {lacks : Entry → Bool}
    (lackL : lacks l = true) (lackR : lacks r = true) (answered : left.stat l.path = some statted)
    (failed : right.stat r.path = none) :
    hydrateRung left right rung lacks (asListed l r) =
      ((⟨refreshed l statted, true⟩, ⟨r, true⟩), some ⟨.right, rung⟩) := by
  unfold hydrateRung asListed hydrate
  dsimp only
  rw [if_pos lackL, if_pos lackR, answered, failed]
  rfl

/-- Where both listings lack a rung's field, the rung decides what a failure leaves. -/
theorem hydrateRungs_asks (asks : c.AsksBoth l r) : ∃ rung, ∃ lacks : Entry → Bool, lacks l = true ∧ lacks r = true ∧
    (∀ pair failure, hydrateRung c.left c.right rung lacks (asListed l r) = (pair, some failure) →
      c.hydrateRungs (asListed l r) = (pair, some failure)) := by
  obtain ⟨fileL, fileR, ⟨sized, lackL, lackR⟩ | ⟨dated, lackL, lackR, agree⟩⟩ := asks
  · refine ⟨.size, (·.size.isNone), by simp [lackL], by simp [lackR], fun pair failure eq => ?_⟩
    unfold hydrateRungs
    rw [if_pos ⟨fileL, fileR⟩, if_pos sized, eq]
  · refine ⟨.mtime, (·.mtimeMs.isNone), by simp [lackL], by simp [lackR], fun pair failure eq => ?_⟩
    have direct : c.mtimeHydration (asListed l r) = (pair, some failure) := by
      unfold mtimeHydration
      rw [if_pos dated, eq]
    unfold hydrateRungs
    rw [if_pos ⟨fileL, fileR⟩]
    rcases agree with unsized | ⟨someL, same⟩
    · rw [if_neg (by simp [unsized]), direct]
    · by_cases sized : c.opts.criteria.size = true
      · have someR : r.size.isSome = true := same ▸ someL
        have hasL : l.size.isNone = false := Option.isNone_eq_false_iff.mpr someL
        have hasR : r.size.isNone = false := Option.isNone_eq_false_iff.mpr someR
        have nothing : hydrateRung c.left c.right .size (·.size.isNone) (asListed l r) = (asListed l r, none) := by
          simp [hydrateRung, asListed, hasL, hasR]
        rw [if_pos sized, nothing]
        dsimp only
        rw [if_pos (by simp [sizesAgree, asListed, someR, same]), direct]
      · rw [if_neg sized, direct]

theorem AsksBoth.swap (asks : c.AsksBoth l r) : c.swap.AsksBoth r l := by
  obtain ⟨fileL, fileR, ⟨sized, lackL, lackR⟩ | ⟨dated, lackL, lackR, agree⟩⟩ := asks
  · exact ⟨fileR, fileL, .inl ⟨sized, lackR, lackL⟩⟩
  · refine ⟨fileR, fileL, .inr ⟨dated, lackR, lackL, agree.imp_right fun ⟨someL, same⟩ => ⟨same ▸ someL, same.symm⟩⟩⟩

theorem pairOutcome_failed {pair : Fresh × Fresh} {failure : StatFailure}
    (eq : c.hydrateRungs (asListed l r) = (pair, some failure)) :
    c.pairOutcome l r = .flagged (some pair.1.entry) (some pair.2.entry) .error failure.rung .unreadable failure.side := by
  unfold pairOutcome
  rw [show c.hydrateRungs (⟨l, false⟩, ⟨r, false⟩) = _ from eq]

theorem pairOutcome_unread {pair : Fresh × Fresh} (eq : c.hydrateRungs (asListed l r) = (pair, none))
    (hashed : (Cascade.decide pair.1.entry pair.2.entry c.opts (c.linkFacts pair.1.entry pair.2.entry)).needsHash = true)
    (unread : c.sha256Of c.left pair.1.entry.path = none) :
    c.pairOutcome l r = .flagged (some pair.1.entry) (some pair.2.entry) .error .hash .readFailed .left := by
  have verdict : c.verdictForPair pair.1.entry pair.2.entry = .error .left := by
    unfold verdictForPair hashPair
    dsimp only
    rw [if_neg (by simpa using hashed), unread]
    rfl
  unfold pairOutcome
  rw [show c.hydrateRungs (⟨l, false⟩, ⟨r, false⟩) = _ from eq]
  dsimp only
  rw [verdict]

/-- The row of a pair that is not steady tells which side was asked first. -/
theorem pairOutcome_differs (names : Names) (unsteady : ¬c.Steady l r) :
    (c.swap.pairOutcome r l).intoRow names 0 ≠ rowSwap ((c.pairOutcome l r).intoRow names 0) := by
  intro same
  have sides := congrArg CompareRow.side same
  have lefts := congrArg CompareRow.left same
  have rights := congrArg CompareRow.right same
  by_cases clash : c.AsksBoth l r ∧ StatsClash c.left c.right l r
  · obtain ⟨asks, clash⟩ := clash
    obtain ⟨rung, lacks, lackL, lackR, own⟩ := hydrateRungs_asks asks
    obtain ⟨rung', lacks', lackR', lackL', own'⟩ := hydrateRungs_asks asks.swap
    unfold StatsClash at clash
    cases statL : c.left.stat l.path with
    | none =>
      have first := pairOutcome_failed (own _ _ (hydrateRung_left_fails lackL statL))
      cases statR : c.right.stat r.path with
      | none =>
        have second := pairOutcome_failed (own' _ _ (hydrateRung_left_fails lackR' statR))
        rw [first, second] at sides
        exact nomatch sides
      | some statted =>
        have second := pairOutcome_failed (own' _ _ (hydrateRung_right_fails lackR' lackL' statR statL))
        rw [first, second] at lefts
        rw [statL, statR] at clash
        exact clash (Option.some.inj lefts)
    | some statted =>
      cases statR : c.right.stat r.path with
      | none =>
        have first := pairOutcome_failed (own _ _ (hydrateRung_right_fails lackL lackR statL statR))
        have second := pairOutcome_failed (own' _ _ (hydrateRung_left_fails lackR' statR))
        rw [first, second] at rights
        rw [statL, statR] at clash
        exact clash (Option.some.inj rights).symm
      | some statted' =>
        rw [statL, statR] at clash
        exact clash
  · have reads : c.ReadsClash l r := by
      by_contra readable
      exact unsteady ⟨clash, readable⟩
    obtain ⟨pair, eq, hashed, unreadL, unreadR⟩ := reads
    have mirrors := hydrateRungs_mirrors (not_and.mp clash)
    cases eq' : c.swap.hydrateRungs (asListed r l) with
    | mk pair' failure =>
      rw [eq, eq'] at mirrors
      obtain ⟨failed, _, _, ready⟩ := mirrors
      dsimp only at failed ready
      subst failed
      obtain rfl := ready rfl
      have decided : (Cascade.decide pair.2.entry pair.1.entry c.swap.opts
          (c.swap.linkFacts pair.2.entry pair.1.entry)).needsHash = true := by
        rw [linkFacts_swap]
        exact (congrArg Decision.needsHash (Cascade.decide_swap pair.1.entry pair.2.entry c.opts _)).trans hashed
      rw [pairOutcome_unread eq hashed unreadL, pairOutcome_unread eq' decided unreadR] at sides
      exact nomatch sides

end Comparison

/-! A directory turned around: the same keys, the same merge. -/

namespace SideIndex

def swap (index : SideIndex) : SideIndex := { index with sides := index.sides.swap }

variable (index : SideIndex)

theorem swap_keyOf : index.swap.keyOf = index.keyOf := by
  funext e
  unfold keyOf Names.keyFor swap
  dsimp only
  rw [Sides.swap_fold]

theorem swap_group : index.swap.group = index.group := by
  funext key
  unfold group
  rw [swap_keyOf]
  rfl

theorem swap_unique : index.swap.unique = index.unique := by
  unfold unique keys
  rw [swap_keyOf, swap_group]
  rfl

theorem swap_collisions : index.swap.collisions = index.collisions := by
  unfold collisions reason
  rw [swap_keyOf, swap_group]
  rfl

theorem swap_collided : index.swap.collided = index.collided := by
  funext key
  unfold collided
  rw [swap_keyOf, swap_collisions]

end SideIndex

namespace Comparison

variable {c : Comparison} {f g : Frame} {l r : Entry}

theorem sidesFor_swap (c : Comparison) (f : Frame) : c.swap.sidesFor f.swap = (c.sidesFor f).swap := by
  unfold sidesFor
  rw [show c.swap.left = c.right from rfl, show c.swap.right = c.left from rfl, show f.swap.left = f.right from rfl,
    show f.swap.right = f.left from rfl, show c.swap.sides = c.sides.swap from rfl]
  cases capabilitiesOf c.left f.left <;> cases capabilitiesOf c.right f.right <;> rfl

theorem index_swap (c : Comparison) (f : Frame) (lefts rights : List Entry) : c.swap.index f.swap rights lefts =
    ⟨(c.index f lefts rights).right.swap, (c.index f lefts rights).left.swap⟩ := by
  unfold index indexSide SideIndex.swap
  rw [sidesFor_swap]
  rfl

theorem joined_swap (c : Comparison) (f : Frame) (lefts rights : List Entry) :
    (c.swap.index f.swap rights lefts).joined = (c.index f lefts rights).joined.map Joined.swap := by
  rw [index_swap, Listed.joined, SideIndex.swap_unique, SideIndex.swap_unique]
  exact mergeJoin_swap _ _

theorem orphanFrame_swap (c : Comparison) (e : Entry) (side : Side) (depth : UInt32) :
    c.swap.orphanFrame e (sideSwap side) depth = (c.orphanFrame e side depth).map Frame.swap := by
  have descends : c.swap.descendsIntoOrphan e (sideSwap side) depth = c.descendsIntoOrphan e side depth := by
    unfold descendsIntoOrphan
    have asked : (c.swap.opts.descendOrphans = some (sideSwap side)) ↔ c.opts.descendOrphans = some side := by
      show (c.opts.descendOrphans.map sideSwap = _) ↔ _
      cases c.opts.descendOrphans <;> simp [sideSwap_injective.eq_iff]
    simp only [asked]
    rfl
  unfold orphanFrame
  rw [descends]
  split
  · cases side <;> rfl
  · rfl

theorem sideOutcome_swap (e : Entry) (why : Option CompareReason) :
    sideOutcome none (some e) why .left = ((sideOutcome (some e) none why .right).1.swap, (sideOutcome (some e) none why .right).2) := by
  cases why <;> rfl

theorem sideOutcome_swap' (e : Entry) (why : Option CompareReason) :
    sideOutcome (some e) none why .right = ((sideOutcome none (some e) why .left).1.swap, (sideOutcome none (some e) why .left).2) := by
  cases why <;> rfl

theorem joinedFrame_swap (c : Comparison) (f : Frame) (lefts rights : List Entry) (depth : UInt32)
    (j : Joined (Bytes × Entry) (Bytes × Entry)) :
    c.swap.joinedFrame (c.swap.index f.swap rights lefts) depth j.swap =
      (c.joinedFrame (c.index f lefts rights) depth j).map Frame.swap := by
  rw [index_swap]
  cases j with
  | left x =>
    show (if (sideOutcome none (some x.2) ((c.index f lefts rights).right.swap.collided x.1) .left).2 then
      c.swap.orphanFrame x.2 (sideSwap .left) depth else none) = _
    rw [SideIndex.swap_collided, sideOutcome_swap, orphanFrame_swap]
    simp only [joinedFrame]
    split <;> rfl
  | right x =>
    show (if (sideOutcome (some x.2) none ((c.index f lefts rights).left.swap.collided x.1) .right).2 then
      c.swap.orphanFrame x.2 (sideSwap .right) depth else none) = _
    rw [SideIndex.swap_collided, sideOutcome_swap', orphanFrame_swap]
    simp only [joinedFrame]
    split <;> rfl
  | both x y =>
    simp only [Joined.swap, joinedFrame]
    by_cases dirs : x.2.kind = .dir ∧ y.2.kind = .dir ∧ c.descendsBelow depth = true
    · rw [if_pos dirs, if_pos ⟨dirs.2.1, dirs.1, dirs.2.2⟩]
      rfl
    · rw [if_neg dirs, if_neg (fun dirs' => dirs ⟨dirs'.2.1, dirs'.1, dirs'.2.2⟩)]
      rfl

theorem joinedRow_swap {lefts rights : List Entry} {j : Joined (Bytes × Entry) (Bytes × Entry)}
    (steady : ∀ x y, j = .both x y → c.Steady x.2 y.2) :
    c.swap.joinedRow (c.swap.index f.swap rights lefts) j.swap = (c.joinedRow (c.index f lefts rights) j).swap := by
  rw [index_swap]
  cases j with
  | left x =>
    simp only [Joined.swap, joinedRow]
    rw [SideIndex.swap_collided, sideOutcome_swap]
  | right x =>
    simp only [Joined.swap, joinedRow]
    rw [SideIndex.swap_collided, sideOutcome_swap']
  | both x y => exact pairOutcome_swap (steady x y rfl)

theorem collisionRows_swap (c : Comparison) (f : Frame) (lefts rights : List Entry) :
    (collisionRows (c.swap.index f.swap rights lefts)).Perm ((collisionRows (c.index f lefts rights)).map PendingRow.swap) := by
  rw [index_swap]
  unfold collisionRows
  rw [SideIndex.swap_collisions, SideIndex.swap_collisions, List.map_append, List.map_map, List.map_map]
  exact List.perm_append_comm

theorem listingErrors_swap (f : Frame) (left right : Except CompareReason (List Entry)) :
    (listingErrors f.swap right left).Perm ((listingErrors f left right).map PendingRow.swap) := by
  unfold listingErrors
  cases left <;> cases right
  · exact List.Perm.swap ..
  · exact .refl _
  · exact .refl _
  · exact .refl _

theorem seen_swap (c : Comparison) (s : DescendSide) (f : Frame) : c.swap.seen s f.swap = c.seen s.other f := by
  cases s <;> rfl

/-- Two entries that the comparison pairs. -/
def Joins (c : Comparison) (f : Frame) (l r : Entry) : Prop :=
  ∃ lefts rights, c.seen .left f = .ok lefts ∧ c.seen .right f = .ok rights ∧ (c.index f lefts rights).left.Alone l ∧
    (c.index f lefts rights).right.Alone r ∧ (c.index f lefts rights).left.keyOf l = (c.index f lefts rights).right.keyOf r

theorem joins_of_joined {lefts rights : List Entry} {x y : Bytes × Entry} (left : c.seen .left f = .ok lefts)
    (right : c.seen .right f = .ok rights) (member : .both x y ∈ (c.index f lefts rights).joined) : c.Joins f x.2 y.2 := by
  obtain ⟨keyX, aloneX⟩ := Listed.mem_joined (s := .left) member rfl
  obtain ⟨keyY, aloneY⟩ := Listed.mem_joined (s := .right) member rfl
  exact ⟨lefts, rights, left, right, aloneX, aloneY, keyX.trans ((met_key member).trans keyY.symm)⟩

theorem Joins.joined (joins : c.Joins f l r) : ∃ lefts rights, c.seen .left f = .ok lefts ∧ c.seen .right f = .ok rights ∧
    ∃ key, .both (key, l) (key, r) ∈ (c.index f lefts rights).joined := by
  obtain ⟨lefts, rights, left, right, aloneL, aloneR, same⟩ := joins
  refine ⟨lefts, rights, left, right, (c.index f lefts rights).left.keyOf l, ?_⟩
  exact meets (SideIndex.unique_rising _) (SideIndex.unique_rising _) (SideIndex.mem_unique.mpr ⟨rfl, aloneL⟩)
    (SideIndex.mem_unique.mpr ⟨same.symm, aloneR⟩) rfl

/-- A directory turned around leads to the same directories, and has the same rows where
its pairs are steady. -/
theorem visit_swap (c : Comparison) (f : Frame) : c.swap.kids f.swap = (c.kids f).map Frame.swap ∧
    ((∀ l r, c.Joins f l r → c.Steady l r) → (c.swap.emits f.swap).Perm ((c.emits f).map PendingRow.swap)) := by
  rcases c.visit_cases f with ⟨lefts, rights, left, right⟩ | ⟨rows, none, s, reason, failed⟩
  · have left' : c.swap.seen .left f.swap = .ok rights := (c.seen_swap .left f).trans right
    have right' : c.swap.seen .right f.swap = .ok lefts := (c.seen_swap .right f).trans left
    constructor
    · rw [kids_listed left' right', kids_listed left right, joined_swap, List.filterMap_map, List.map_filterMap]
      exact List.filterMap_congr fun j _ => c.joinedFrame_swap f lefts rights f.depth j
    · intro steady
      rw [emits_listed left' right', emits_listed left right, joined_swap, List.map_map, List.map_append, List.map_map]
      refine (c.collisionRows_swap f lefts rights).append ?_
      refine .of_eq (List.map_congr_left fun j member => joinedRow_swap fun x y both => ?_)
      subst both
      exact steady _ _ (joins_of_joined left right member)
  · rcases c.swap.visit_cases f.swap with ⟨lefts', rights', left', right'⟩ | ⟨rows', none', _⟩
    · rw [seen_swap] at left' right'
      cases s
      · exact nomatch right'.symm.trans failed
      · exact nomatch left'.symm.trans failed
    · rw [rows, none, rows', none', seen_swap, seen_swap]
      exact ⟨rfl, fun _ => listingErrors_swap f _ _⟩

/-! The whole stream. -/

theorem reaches_swap (down : Reaches c.kids f g) : Reaches c.swap.kids f.swap g.swap := by
  induction down with
  | refl => exact .refl
  | @tail k g _ kid ih =>
    refine ih.tail ?_
    rw [(c.visit_swap k).1]
    exact List.mem_map_of_mem kid

/-- Every pair that the comparison joins has the same row whoever is asked first. -/
def Indifferent (c : Comparison) : Prop :=
  c.excludesRoots = false → ∀ f, Reaches c.kids c.rootFrame f → ∀ l r, c.Joins f l r → c.Steady l r

/-- A row without its number. -/
def unnumbered (row : CompareRow) : CompareRow := { row with id := 0 }

theorem unnumbered_numbered (names : Names) (n : Nat) (out : List PendingRow) :
    (numbered names n out).map unnumbered = out.map (PendingRow.intoRow names 0) := by
  induction out generalizing n with
  | nil => rfl
  | cons row out ih =>
    rw [numbered, List.map_cons, ih, List.map_cons]
    cases row <;> rfl

theorem pairedUnder_swap (names : Names) (left right : Option Entry) :
    pairedUnder names right left = pairedUnder names left right := by
  cases left <;> cases right <;> first | rfl | exact names.pairTransform_comm _ _

theorem intoRow_swap (names : Names) (row : PendingRow) : row.swap.intoRow names 0 = rowSwap (row.intoRow names 0) := by
  cases row with
  | decision d left right =>
    simp [PendingRow.swap, PendingRow.intoRow, Decision.intoRow, rowSwap, Decision.swap, pairedUnder_swap]
  | flagged left right verdict criterion reason side =>
    simp [PendingRow.swap, PendingRow.intoRow, flaggedRow, rowSwap, pairedUnder_swap]

theorem FiniteTree.swap (trees : ∀ s, FiniteTree (c.provider s) (c.root s)) (s : DescendSide) :
    FiniteTree (c.swap.provider s) (c.swap.root s) := by
  cases s
  · exact trees .right
  · exact trees .left

/-- Both comparisons are walks of the same directories. -/
theorem rows_swap {out out' : List PendingRow} (trees : ∀ s, FiniteTree (c.provider s) (c.root s))
    (walks : Walks c.emits c.kids [c.rootFrame] out) (walks' : Walks c.swap.emits c.swap.kids [c.swap.rootFrame] out') :
    (out'.map (PendingRow.intoRow c.names 0)).Perm ((out.map (PendingRow.intoRow c.names 0)).map rowSwap) ↔
      ∀ f, Reaches c.kids c.rootFrame f → ∀ l r, c.Joins f l r → c.Steady l r := by
  constructor
  · intro perm f down l r joins
    by_contra unsteady
    obtain ⟨lefts, rights, left, right, key, joined⟩ := joins.joined
    have here := joinedRow_mem left right joined
    have left' : c.swap.seen .left f.swap = .ok rights := (c.seen_swap .left f).trans right
    have right' : c.swap.seen .right f.swap = .ok lefts := (c.seen_swap .right f).trans left
    have joined' : Joined.both (key, r) (key, l) ∈ (c.swap.index f.swap rights lefts).joined := by
      rw [joined_swap]
      exact List.mem_map.mpr ⟨_, joined, rfl⟩
    have there : c.swap.pairOutcome r l ∈ out' := emits_mem walks' (reaches_swap down) (joinedRow_mem left' right' joined')
    obtain ⟨row, same, eq⟩ := List.mem_map.mp (perm.subset (List.mem_map_of_mem there))
    obtain ⟨z, member, rfl⟩ := List.mem_map.mp same
    obtain ⟨l', r', ownL, _, sameL, _, clean⟩ := c.pairOutcome_spec l r
    obtain ⟨_, l'', _, ownR', _, sameR', clean'⟩ := c.swap.pairOutcome_spec r l
    have named : namesPath .left l.path z = true := by
      refine namesPath_iff.mpr ⟨?_, l'', ?_, sameR'.1⟩
      · have listing := congrArg isListingError eq
        rw [intoRow_listingError, clean'] at listing
        rw [← @intoRow_listingError c.names 0, ← listing]
        unfold isListingError rowSwap
        dsimp only
        cases ((z.intoRow c.names 0).verdict) <;> rfl
      · have entry := congrArg CompareRow.right eq
        have own : z.entry .left = (z.intoRow c.names 0).left := (intoRow_entry .left).symm
        rw [own]
        exact entry.trans ((intoRow_entry .right).trans ownR')
    have named₀ : namesPath .left l.path (c.pairOutcome l r) = true := namesPath_iff.mpr ⟨clean, l', ownL, sameL.1⟩
    obtain ⟨n, at_⟩ := reaches_level down
    have inside : l ∈ ((c.index f lefts rights).side .left).entries := (Listed.mem_joined (s := .left) joined rfl).2.mem
    obtain ⟨d, dir, child⟩ := seen_child left inside
    have once := (count_reaches down dir child walks).trans (count_listed left right (at_.distinct trees left right .left) inside)
    obtain rfl := eq_of_countP_one once member (emits_mem walks down here) named named₀
    exact pairOutcome_differs c.names unsteady eq.symm
  · intro steady
    obtain ⟨out'', again, perm⟩ := walks.transfer Frame.swap PendingRow.swap fun f inside g down => by
      obtain rfl := List.mem_singleton.mp inside
      obtain ⟨branch, rows⟩ := c.visit_swap g
      exact ⟨rows (steady g down), branch⟩
    obtain rfl := again.unique walks'
    refine (perm.map _).trans (.of_eq ?_)
    rw [List.map_map, List.map_map]
    exact List.map_congr_left fun row _ => intoRow_swap c.names row

/-- Two comparisons, one the other turned around, say the same but for numbers and order
exactly where no failure depends on who is asked first. -/
theorem streams_swap (trees : ∀ s, FiniteTree (c.provider s) (c.root s)) :
    ∃ rows rows', c.Streams rows ∧ c.swap.Streams rows' ∧
      ((rows'.map unnumbered).Perm ((rows.map unnumbered).map rowSwap) ↔ c.Indifferent) := by
  have excludes : c.swap.excludesRoots = c.excludesRoots := by
    unfold excludesRoots
    exact congrArg _ (funext fun x => Bool.or_comm _ _)
  cases apart : c.excludesRoots with
  | true =>
    refine ⟨[], [], streams_excluded apart, streams_excluded (excludes.trans apart), iff_of_true (.refl _) ?_⟩
    exact fun inView => nomatch inView.symm.trans apart
  | false =>
    obtain ⟨out, walks⟩ := walks_total trees
    obtain ⟨out', walks'⟩ := walks_total (FiniteTree.swap trees)
    refine ⟨_, _, streams_of_walks walks apart, streams_of_walks walks' (excludes.trans apart), ?_⟩
    rw [unnumbered_numbered, unnumbered_numbered]
    exact (rows_swap trees walks walks').trans ⟨fun steady _ => steady, fun steady => steady apart⟩

end Comparison

end Norte.Compare
