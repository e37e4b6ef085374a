import Norte.CompareRows

/-! What a pair is decided from: what the two providers answer at its paths. Where they answer alike of both
entries, no more can tell them apart than their dates. -/
namespace Norte.Compare

open Sync

/-- Both answer the same at the path, but for listings and capabilities. -/
structure Answers (p p' : Provider) (path : VPath) : Prop where
  stat : p'.stat path = p.stat path
  readLink : p'.readLink path = p.readLink path
  read : p'.read path = p.read path

section

variable {p p' : Provider} {left right left' right' : Provider} {fresh : Fresh} {pair : Fresh × Fresh} {lacks : Entry → Bool}
  {rung : CompareCriterion}

theorem hydrate_congr (stat : p'.stat fresh.entry.path = p.stat fresh.entry.path) : hydrate p' fresh = hydrate p fresh := by
  unfold hydrate
  rw [stat]

theorem hydrateRung_congr (first : left'.stat pair.1.entry.path = left.stat pair.1.entry.path)
    (second : right'.stat pair.2.entry.path = right.stat pair.2.entry.path) :
    hydrateRung left' right' rung lacks pair = hydrateRung left right rung lacks pair := by
  unfold hydrateRung
  rw [hydrate_congr first, hydrate_congr second]

end

namespace Comparison

variable {c c' : Comparison} {pair : Fresh × Fresh} {l r : Entry} {d : Decision}

theorem hydrateRungs_congr (opts : c'.opts = c.opts) (left : c'.left.stat pair.1.entry.path = c.left.stat pair.1.entry.path)
    (right : c'.right.stat pair.2.entry.path = c.right.stat pair.2.entry.path) : c'.hydrateRungs pair = c.hydrateRungs pair := by
  have dated {pair' : Fresh × Fresh} (first : pair'.1.entry.path = pair.1.entry.path)
      (second : pair'.2.entry.path = pair.2.entry.path) : c'.mtimeHydration pair' = c.mtimeHydration pair' := by
    have asked : hydrateRung c'.left c'.right .mtime (·.mtimeMs.isNone) pair' = hydrateRung c.left c.right .mtime (·.mtimeMs.isNone) pair' :=
      hydrateRung_congr (by rw [first, left]) (by rw [second, right])
    unfold mtimeHydration
    rw [opts, asked]
  have sized : hydrateRung c'.left c'.right .size (·.size.isNone) pair = hydrateRung c.left c.right .size (·.size.isNone) pair :=
    hydrateRung_congr left right
  unfold hydrateRungs
  rw [opts, sized, dated rfl rfl]
  cases whole : hydrateRung c.left c.right .size (·.size.isNone) pair with
  | mk pair' failure =>
    obtain ⟨first, second, -⟩ := hydrateRung_same whole
    cases failure with
    | some f => rfl
    | none => simp only [dated first.1 second.1]

theorem verdictForPair_congr (opts : c'.opts = c.opts) (digest : c'.sha256 = c.sha256) (left : Answers c.left c'.left l.path)
    (right : Answers c.right c'.right r.path) : c'.verdictForPair l r = c.verdictForPair l r := by
  have links : c'.linkFacts l r = c.linkFacts l r := by
    unfold linkFacts
    rw [left.readLink, right.readLink]
  have digests : c'.hashPair l r = c.hashPair l r := by
    unfold hashPair sha256Of
    rw [digest, left.read, right.read]
  unfold verdictForPair
  rw [opts, links, digests]

/-- A pair is decided from what is answered at its paths. -/
theorem pairOutcome_congr (opts : c'.opts = c.opts) (digest : c'.sha256 = c.sha256) (left : Answers c.left c'.left l.path)
    (right : Answers c.right c'.right r.path) : c'.pairOutcome l r = c.pairOutcome l r := by
  unfold pairOutcome
  rw [hydrateRungs_congr opts left.stat right.stat]
  cases hydrated : c.hydrateRungs (⟨l, false⟩, ⟨r, false⟩) with
  | mk pair failure =>
    obtain ⟨first, second, -⟩ := hydrateRungs_same hydrated
    cases failure with
    | some f => rfl
    | none =>
      dsimp only
      rw [verdictForPair_congr opts digest (first.1 ▸ left) (second.1 ▸ right)]

end Comparison

/-! ### Alike -/

/-- A size that a provider tells of an entry. -/
def Sized (p : Provider) (e : Entry) (size : UInt64) : Prop :=
  e.size = some size ∨ ∃ statted, p.stat e.path = some statted ∧ statted.size = some size

def contentOf (p : Provider) (path : VPath) : Option Bytes := do
  let chunks ← p.read path
  let contents ← chunks.mapM id
  return contents.flatten

/-- Nothing that the two providers tell of the entries differs, but for their dates. -/
structure Alike (p q : Provider) (l r : Entry) : Prop where
  kind : l.kind = r.kind
  size : ∀ a b, Sized p l a → Sized q r b → a = b
  target : ∀ a b, p.readLink l.path = some a → q.readLink r.path = some b → a = b
  content : ∀ a b, contentOf p l.path = some a → contentOf q r.path = some b → a = b

theorem Alike.symm {p q : Provider} {l r : Entry} (alike : Alike p q l r) : Alike q p r l :=
  ⟨alike.kind.symm, fun a b there across => (alike.size b a across there).symm,
    fun a b there across => (alike.target b a across there).symm, fun a b there across => (alike.content b a across there).symm⟩

/-- What is known of `e` by what its provider told. -/
structure Knows (p : Provider) (e known : Entry) : Prop where
  same : SameEntry known e
  size : ∀ a, known.size = some a → Sized p e a

theorem Knows.refl (p : Provider) (e : Entry) : Knows p e e := ⟨⟨rfl, rfl⟩, fun _ there => .inl there⟩

theorem Knows.alike {p q : Provider} {l r known known' : Entry} (first : Knows p l known) (second : Knows q r known')
    (alike : Alike p q l r) : Alike p q known known' := by
  have sized {p : Provider} {e known : Entry} (knows : Knows p e known) {a : UInt64} (told : Sized p known a) : Sized p e a := by
    rcases told with own | stat
    · exact knows.size a own
    · exact .inr (knows.same.1 ▸ stat)
  refine ⟨first.same.2.trans (alike.kind.trans second.same.2.symm), fun a b there across => ?_, ?_, ?_⟩
  · exact alike.size a b (sized first there) (sized second across)
  · rw [first.same.1, second.same.1]
    exact alike.target
  · rw [first.same.1, second.same.1]
    exact alike.content

section

variable {left right : Provider} {l r : Entry} {pair pair' : Fresh × Fresh} {rung : CompareCriterion} {lacks : Entry → Bool}
  {failure : Option StatFailure}

theorem Knows.hydrate {p : Provider} {e : Entry} {fresh : Fresh} (knows : Knows p e fresh.entry) :
    Knows p e (Compare.hydrate p fresh).1.entry := by
  unfold Compare.hydrate
  split
  · exact knows
  · cases told : p.stat fresh.entry.path with
    | none => exact knows
    | some statted => exact ⟨knows.same, fun a size => .inr ⟨statted, knows.same.1 ▸ told, size⟩⟩

theorem hydrateRung_knows (first : Knows left l pair.1.entry) (second : Knows right r pair.2.entry)
    (whole : hydrateRung left right rung lacks pair = (pair', failure)) : Knows left l pair'.1.entry ∧ Knows right r pair'.2.entry := by
  have asked {p : Provider} {e : Entry} {fresh : Fresh} (knows : Knows p e fresh.entry) :
      Knows p e (if lacks fresh.entry then hydrate p fresh else (fresh, true)).1.entry := by
    split
    · exact knows.hydrate
    · exact knows
  have first' := asked first
  have second' := asked second
  unfold hydrateRung at whole
  revert whole first' second'
  generalize (if lacks pair.1.entry then hydrate left pair.1 else (pair.1, true)) = one
  generalize (if lacks pair.2.entry then hydrate right pair.2 else (pair.2, true)) = other
  intro whole first' second'
  dsimp only at whole
  split at whole
  · obtain ⟨rfl, -⟩ := Prod.mk.inj whole
    exact ⟨first', second⟩
  · obtain ⟨rfl, -⟩ := Prod.mk.inj whole
    exact ⟨first', second'⟩

end

namespace Comparison

variable {c : Comparison} {l r : Entry} {pair pair' : Fresh × Fresh} {failure : Option StatFailure}

theorem hydrateRungs_knows (first : Knows c.left l pair.1.entry) (second : Knows c.right r pair.2.entry)
    (whole : c.hydrateRungs pair = (pair', failure)) : Knows c.left l pair'.1.entry ∧ Knows c.right r pair'.2.entry := by
  have dated {pair pair' : Fresh × Fresh} {failure : Option StatFailure} (first : Knows c.left l pair.1.entry)
      (second : Knows c.right r pair.2.entry) (whole : c.mtimeHydration pair = (pair', failure)) :
      Knows c.left l pair'.1.entry ∧ Knows c.right r pair'.2.entry := by
    unfold mtimeHydration at whole
    split at whole
    · exact hydrateRung_knows first second whole
    · obtain ⟨rfl, -⟩ := Prod.mk.inj whole
      exact ⟨first, second⟩
  unfold hydrateRungs at whole
  split at whole
  · split at whole
    · cases sized : hydrateRung c.left c.right .size (·.size.isNone) pair with
      | mk pair₁ failure₁ =>
        obtain ⟨first', second'⟩ := hydrateRung_knows first second sized
        rw [sized] at whole
        cases failure₁ with
        | some f =>
          obtain ⟨rfl, -⟩ := Prod.mk.inj whole
          exact ⟨first', second'⟩
        | none =>
          dsimp only at whole
          split at whole
          · exact dated first' second' whole
          · obtain ⟨rfl, -⟩ := Prod.mk.inj whole
            exact ⟨first', second'⟩
    · exact dated first second whole
  · obtain ⟨rfl, -⟩ := Prod.mk.inj whole
    exact ⟨first, second⟩

end Comparison

/-- The same, or told apart by their dates. -/
def Decision.Close (d : Decision) : Prop := d.verdict = .same ∨ d.verdict = .different ∧ d.criterion = .mtime

namespace Cascade

variable {l r : Entry} {facts : Prefetched}

theorem sizeAndMtime_close (opts : CompareOptions) (size : ∀ a b, l.size = some a → r.size = some b → a = b) :
    (sizeAndMtime l r opts).Close := by
  have after : (afterSize l r opts).Close := by
    unfold afterSize mtimeRung
    repeat' split
    all_goals simp [Decision.Close, Decision.rung]
  unfold sizeAndMtime
  split
  · split
    · rename_i a b first second
      rw [if_neg (not_not.mpr (size a b first second))]
      exact after
    · exact .inl rfl
  · exact after

theorem decide_close (opts : CompareOptions) (kind : l.kind = r.kind) (size : ∀ a b, l.size = some a → r.size = some b → a = b)
    (target : ∀ a b, facts.leftTarget = some a → facts.rightTarget = some b → a = b) (hash : facts.hash ≠ .differ) :
    (decide l r opts facts).Close := by
  have cheap : (cheapRungs l r opts facts).Close := by
    unfold cheapRungs
    rw [if_neg (not_not.mpr kind)]
    split
    · exact sizeAndMtime_close opts size
    · exact .inl rfl
    · unfold linkTarget
      split
      · rename_i a b first second
        rw [if_pos (target a b first second)]
        exact .inl rfl
      · exact .inl rfl
    · exact .inl rfl
  unfold decide
  dsimp only
  split
  · exact cheap
  · cases ran : facts.hash with
    | notRun => exact cheap
    | equal => exact .inl rfl
    | differ => exact absurd ran hash

end Cascade

namespace Comparison

variable {c : Comparison} {l r : Entry} {d : Decision}

theorem sha256Of_eq (c : Comparison) (p : Provider) (path : VPath) : c.sha256Of p path = (contentOf p path).map c.sha256 := by
  unfold sha256Of contentOf
  cases p.read path with
  | none => rfl
  | some chunks => cases whole : chunks.mapM id <;> simp [whole]

theorem verdictForPair_close (alike : Alike c.left c.right l r) (decided : c.verdictForPair l r = .ok d) : d.Close := by
  have size (a b : UInt64) (first : l.size = some a) (second : r.size = some b) : a = b := alike.size a b (.inl first) (.inl second)
  have target (a b : Bytes) (first : (c.linkFacts l r).leftTarget = some a) (second : (c.linkFacts l r).rightTarget = some b) : a = b := by
    unfold linkFacts at first second
    split at first
    · rename_i links
      rw [if_pos links] at second
      exact alike.target a b first second
    · cases first
  have unread : (c.linkFacts l r).hash ≠ .differ := by
    unfold linkFacts
    split <;> exact nofun
  simp only [verdictForPair] at decided
  split at decided
  · obtain rfl := Except.ok.inj decided
    exact Cascade.decide_close _ alike.kind size target unread
  · cases hashed : c.hashPair l r with
    | error side => simp [hashed, Except.map] at decided
    | ok outcome =>
      simp only [hashed, Except.map, Except.ok.injEq] at decided
      subst decided
      apply @Cascade.decide_close l r { c.linkFacts l r with hash := outcome } c.opts alike.kind size target
      dsimp only
      rintro rfl
      unfold hashPair at hashed
      rw [sha256Of_eq, sha256Of_eq] at hashed
      cases first : contentOf c.left l.path with
      | none => simp [first] at hashed
      | some a =>
        cases second : contentOf c.right r.path with
        | none => simp [first, second] at hashed
        | some b => simp [first, second, alike.content a b first second] at hashed

/-- Two entries that are alike are found the same, or told apart by their dates, or one could not be read. -/
theorem pairOutcome_close (alike : Alike c.left c.right l r) (names : Names) (k : Nat) :
    ((c.pairOutcome l r).intoRow names k).verdict = .error ∨ ((c.pairOutcome l r).intoRow names k).verdict = .same ∨
      ((c.pairOutcome l r).intoRow names k).verdict = .different ∧ ((c.pairOutcome l r).intoRow names k).criterion = .mtime := by
  unfold pairOutcome
  cases hydrated : c.hydrateRungs (⟨l, false⟩, ⟨r, false⟩) with
  | mk pair failure =>
    obtain ⟨first, second⟩ := hydrateRungs_knows (.refl c.left l) (.refl c.right r) hydrated
    cases failure with
    | some f => exact .inl rfl
    | none =>
      dsimp only
      cases decided : c.verdictForPair pair.1.entry pair.2.entry with
      | ok d => exact .inr (verdictForPair_close (first.alike second alike) decided)
      | error side => exact .inl rfl

end Comparison

end Norte.Compare
