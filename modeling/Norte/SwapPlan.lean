import Norte.CompareSwap
import Norte.SyncPlanner

/-! The planner reads a row by source and destination, so rows turned around and a source on
the other side leave the same plan. With it, what is symmetric of a synchronization. -/
namespace Norte.Compare

open Sync

/-- The same plan, with the source on the other side of the rows. -/
def optionsSwap (opts : SyncOptions) : SyncOptions := { opts with sourceSide := sideSwap opts.sourceSide }

def turned (t : Transducer) : Transducer := { t with opts := optionsSwap t.opts }

/-- What a row leaves, seen with the source on the other side. -/
def turnedResult : Transducer.Absorbed → Transducer.Absorbed
  | .ok (t, item) => .ok (turned t, item)
  | .error e => .error e

namespace Turned

variable {t : Transducer} {row : CompareRow} {source dest : Option Entry} {sourceRel : Option RelPath}

theorem bind {α : Type} (first : Except SyncError α) (rest rest' : α → Transducer.Absorbed)
    (same : ∀ a, rest' a = turnedResult (rest a)) : (first >>= rest') = turnedResult (first >>= rest) := by
  cases first with
  | error e => rfl
  | ok a => exact same a

theorem pushSkip (named : Option RelPath) (paired : Option Entry) (why : SyncReason) :
    (turned t).pushSkip (rowSwap row) named paired why dest = turnedResult (t.pushSkip row named paired why dest) := by
  cases named with
  | none => rfl
  | some rel => exact bind _ _ _ fun _ => rfl

theorem pushStep (kind : SyncStepKind) (why : Option SyncReason) :
    (turned t).pushStep (rowSwap row) kind source sourceRel why dest =
      turnedResult (t.pushStep row kind source sourceRel why dest) := by
  unfold Transducer.pushStep
  cases source with
  | none => rfl
  | some entry =>
    cases sourceRel with
    | none => rfl
    | some rel =>
      by_cases above : rel.isRoot ∧ kind ≠ .skip
      · dsimp only
        rw [if_pos above, if_pos above]
        rfl
      · dsimp only
        rw [if_neg above, if_neg above]
        refine bind _ _ _ fun _ => ?_
        cases why <;> rfl

theorem absorbTypeMismatchDir (side : Side) : (turned t).absorbTypeMismatchDir side sourceRel dest =
    turnedResult (t.absorbTypeMismatchDir side sourceRel dest) := bind _ _ _ fun _ => rfl

theorem absorbDestOrphan : (turned t).absorbDestOrphan (rowSwap row) dest = turnedResult (t.absorbDestOrphan row dest) := by
  unfold Transducer.absorbDestOrphan
  cases dest with
  | none => rfl
  | some entry =>
    refine bind _ _ _ fun rel => ?_
    split <;> rfl

theorem speaks (known : t.opts.sourceSide ≠ .unknown) :
    (turned t).speaksForTheDestination (rowSwap row) source dest = t.speaksForTheDestination row source dest := by
  unfold Transducer.speaksForTheDestination turned optionsSwap rowSwap
  dsimp only
  cases side : t.opts.sourceSide with
  | unknown => exact absurd side known
  | left => rcases row.side with _ | (_ | _ | _) <;> rfl
  | right => rcases row.side with _ | (_ | _ | _) <;> rfl

theorem absorbError (known : t.opts.sourceSide ≠ .unknown) : (turned t).absorbError (rowSwap row) source dest sourceRel =
    turnedResult (t.absorbError row source dest sourceRel) := by
  unfold Transducer.absorbError
  rw [speaks known]
  by_cases tooLarge : row.reason = some .dirTooLarge ∧ t.speaksForTheDestination row source dest
  · rw [if_pos tooLarge, if_pos (show (rowSwap row).reason = _ ∧ _ from tooLarge)]
    exact bind _ _ _ fun _ => rfl
  · rw [if_neg tooLarge, if_neg (show ¬((rowSwap row).reason = _ ∧ _) from tooLarge)]
    exact bind _ _ _ fun _ => pushSkip _ _ _

theorem absorbAmbiguous (known : t.opts.sourceSide ≠ .unknown) :
    (turned t).absorbAmbiguous (rowSwap row) source dest sourceRel =
      turnedResult (t.absorbAmbiguous row source dest sourceRel) := by
  unfold Transducer.absorbAmbiguous
  rw [speaks known]
  split
  · exact bind _ _ _ fun _ => rfl
  · exact pushSkip _ _ _

theorem absorbPair : (turned t).absorbPair (rowSwap row) source dest sourceRel =
    turnedResult (t.absorbPair row source dest sourceRel) := by
  unfold Transducer.absorbPair
  rw [show (rowSwap row).verdict = verdictSwap row.verdict from rfl]
  cases row.verdict with
  | typeMismatch =>
    dsimp only [verdictSwap]
    cases directorySide source dest with
    | none => exact pushStep _ _
    | some side => exact absorbTypeMismatchDir side
  | different => exact pushStep _ _
  | same =>
    dsimp only [verdictSwap]
    rw [show (rowSwap row).confidence = row.confidence from rfl,
      show (turned t).opts.onUnknown = t.opts.onUnknown from rfl]
    split
    · rfl
    split
    · exact pushStep _ _
    · exact pushStep _ _
  | onlyLeft | onlyRight | ambiguous | error | unknown => rfl

theorem orphans (known : t.opts.sourceSide ≠ .unknown) : (turned t).sourceOrphan = verdictSwap t.sourceOrphan ∧
    (turned t).destOrphan = verdictSwap t.destOrphan := by
  unfold Transducer.sourceOrphan Transducer.destOrphan Transducer.sourceIsLeft turned optionsSwap
  cases side : t.opts.sourceSide with
  | unknown => exact absurd side known
  | left => exact ⟨rfl, rfl⟩
  | right => exact ⟨rfl, rfl⟩

theorem verdictSwap_inj {v v' : CompareVerdict} : verdictSwap v = verdictSwap v' ↔ v = v' :=
  (Function.LeftInverse.injective verdictSwap_verdictSwap).eq_iff

theorem absorbRow (known : t.opts.sourceSide ≠ .unknown) : (turned t).absorbRow (rowSwap row) source dest sourceRel =
    turnedResult (t.absorbRow row source dest sourceRel) := by
  have same (v : CompareVerdict) : (rowSwap row).verdict = verdictSwap v ↔ row.verdict = v := verdictSwap_inj
  have error : (rowSwap row).verdict = .error ↔ row.verdict = .error := same .error
  have ambiguous : (rowSwap row).verdict = .ambiguous ↔ row.verdict = .ambiguous := same .ambiguous
  unfold Transducer.absorbRow
  rw [(orphans known).1, (orphans known).2]
  simp only [error, ambiguous, same]
  split
  · exact absorbError known
  split
  · exact absorbAmbiguous known
  show (if row.pairedUnder.any _ = true then _ else _) = _
  split
  · exact bind _ _ _ fun _ => pushSkip _ _ _
  split
  · cases source with
    | none => rfl
    | some entry => exact pushStep _ _
  split
  · show (if t.mirroring = true then _ else _) = _
    split
    · exact absorbDestOrphan
    · rfl
  · exact absorbPair

theorem sides (known : t.opts.sourceSide ≠ .unknown) :
    (turned t).source (rowSwap row) = t.source row ∧ (turned t).dest (rowSwap row) = t.dest row := by
  unfold Transducer.source Transducer.dest Transducer.sourceIsLeft turned optionsSwap rowSwap
  cases side : t.opts.sourceSide with
  | unknown => exact absurd side known
  | left => exact ⟨rfl, rfl⟩
  | right => exact ⟨rfl, rfl⟩

theorem remembered : (turned t).remembered sourceRel source dest = (t.remembered sourceRel source dest).map turned := by
  unfold Transducer.remembered
  cases sourceRel with
  | none => rfl
  | some rel =>
    dsimp only
    unfold Transducer.rememberSpelling
    cases source with
    | none => rfl
    | some s =>
      cases dest with
      | none => rfl
      | some d =>
        dsimp only
        split
        · show (relUnder t.opts.destRoot d.path).map _ = ((relUnder t.opts.destRoot d.path).map _).map _
          cases relUnder t.opts.destRoot d.path with
          | error e => rfl
          | ok destRel =>
            show Except.ok (if destRel ≠ rel then _ else _) = Except.ok (turned (if destRel ≠ rel then _ else _))
            split <;> rfl
        · rfl

theorem absorb (known : t.opts.sourceSide ≠ .unknown) :
    (turned t).absorb (rowSwap row) = turnedResult (t.absorb row) := by
  obtain ⟨source, dest⟩ := @sides t row known
  unfold Transducer.absorb
  rw [source, dest]
  dsimp only
  rw [show (turned t).overlapPrunes (t.source row) (t.dest row) = t.overlapPrunes (t.source row) (t.dest row) from rfl]
  split
  · rfl
  refine bind _ _ _ fun reached => ?_
  cases reached with
  | some reached => rfl
  | none =>
    refine bind _ _ _ fun sourceRel => ?_
    rw [remembered]
    cases remembers : t.remembered sourceRel (t.source row) (t.dest row) with
    | error e => rfl
    | ok t' =>
      have known' : t'.opts.sourceSide ≠ .unknown := by
        rw [Keeps.remembered_opts remembers]
        exact known
      exact absorbRow known'

end Turned

theorem absorbAll_turned {t : Transducer} (known : t.opts.sourceSide ≠ .unknown)
    (rows : List (Except CompareError CompareRow)) :
    (turned t).absorbAll (rows.map (Except.map rowSwap)) = t.absorbAll rows := by
  induction rows generalizing t with
  | nil => rfl
  | cons row rows ih =>
    cases row with
    | error e =>
      cases e
      rfl
    | ok row =>
      rw [List.map_cons, Except.map, Transducer.absorbAll_cons, Transducer.absorbAll_cons, Turned.absorb known]
      cases absorbed : t.absorb row with
      | error e => rfl
      | ok result =>
        obtain ⟨t', item⟩ := result
        have known' : t'.opts.sourceSide ≠ .unknown := by
          rw [(Keeps.absorb _ _ absorbed).1]
          exact known
        dsimp only [turnedResult]
        rw [ih known']

/-- The planner does not care which side of the rows is the source. -/
theorem plan_swap (rows : List (Except CompareError CompareRow)) (opts : SyncOptions) :
    plan (rows.map (Except.map rowSwap)) (optionsSwap opts) = plan rows opts := by
  have unknown : sideSwap opts.sourceSide = .unknown ↔ opts.sourceSide = .unknown := by
    cases opts.sourceSide <;> decide
  unfold plan
  by_cases side : opts.sourceSide = .unknown
  · rw [if_pos side, if_pos (show (optionsSwap opts).sourceSide = .unknown from unknown.mpr side)]
  · rw [if_neg side, if_neg (show (optionsSwap opts).sourceSide ≠ .unknown from fun h => side (unknown.mp h))]
    show (if !opts.destWritable then _ else _) = _
    split
    · rfl
    · exact absorbAll_turned (t := ⟨opts, 0, none, []⟩) side rows

/-- Comparing the other way round says the same of every pair, numbers and order apart,
exactly where no failure depends on who is asked first; and rows that say the same leave
the same plan. -/
theorem sides_alike (c : Comparison) (trees : ∀ s, FiniteTree (c.provider s) (c.root s)) :
    (∃ rows rows', c.Streams rows ∧ c.swap.Streams rows' ∧
      ((rows'.map Comparison.unnumbered).Perm ((rows.map Comparison.unnumbered).map rowSwap) ↔ c.Indifferent)) ∧
    ∀ rows opts, plan (rows.map (Except.map rowSwap)) (optionsSwap opts) = plan rows opts :=
  ⟨c.streams_swap trees, plan_swap⟩

theorem sides_alike_mixed : (∃ rows rows', mixed.Streams rows ∧ mixed.swap.Streams rows' ∧
      (rows'.map Comparison.unnumbered).Perm ((rows.map Comparison.unnumbered).map rowSwap) ∧ mixed.Indifferent) ∧
    ∀ rows opts, plan (rows.map (Except.map rowSwap)) (optionsSwap opts) = plan rows opts := by
  obtain ⟨⟨rows, rows', streams, streams', alike⟩, planned⟩ := sides_alike mixed mixed_finite
  have down : StackWalk.Walks mixed.swap.emits mixed.swap.kids [mixedInnerFrame.swap]
      (mixed.swap.emits mixedInnerFrame.swap ++ ([] ++ [])) := .cons .nil .nil
  have walks : StackWalk.Walks mixed.swap.emits mixed.swap.kids [mixed.swap.rootFrame]
      (mixed.swap.emits mixed.swap.rootFrame ++ (mixed.swap.emits mixedInnerFrame.swap ++ ([] ++ []) ++ [])) :=
    .cons down .nil
  have same : (rows'.map Comparison.unnumbered).Perm ((rows.map Comparison.unnumbered).map rowSwap) := by
    rw [streams.unique mixed_streams, streams'.unique (Comparison.streams_of_walks walks rfl)]
    decide +kernel
  exact ⟨⟨rows, rows', streams, streams', same, alike.mp same⟩, planned⟩

/-- Two files of one name, listed without sizes, whose stats both fail: the row blames the
left one either way. -/
theorem failed_stats_blame_left : ¬ ∀ c : Comparison, (∀ s, FiniteTree (c.provider s) (c.root s)) →
    ∃ rows rows', c.Streams rows ∧ c.swap.Streams rows' ∧
      (rows'.map Comparison.unnumbered).Perm ((rows.map Comparison.unnumbered).map rowSwap) := by
  intro claim
  have finite (s : DescendSide) : FiniteTree ((small (some [some smallLeaf])).provider s)
      ((small (some [some smallLeaf])).root s) := by
    cases s
    · exact lone_finite (.inl rfl)
    · exact lone_finite (.inl rfl)
  obtain ⟨rows, rows', streams, streams', perm⟩ := claim (small (some [some smallLeaf])) finite
  have root : (small (some [some smallLeaf])).emits (small (some [some smallLeaf])).rootFrame =
      [.flagged (some smallLeaf) (some smallLeaf) .error .size .unreadable .left] := rfl
  have root' : (small (some [some smallLeaf])).swap.emits (small (some [some smallLeaf])).swap.rootFrame =
      [.flagged (some smallLeaf) (some smallLeaf) .error .size .unreadable .left] := rfl
  have walks : StackWalk.Walks (small (some [some smallLeaf])).emits (small (some [some smallLeaf])).kids
      [(small (some [some smallLeaf])).rootFrame] (_ ++ ([] ++ [])) := .cons .nil .nil
  have walks' : StackWalk.Walks (small (some [some smallLeaf])).swap.emits (small (some [some smallLeaf])).swap.kids
      [(small (some [some smallLeaf])).swap.rootFrame] (_ ++ ([] ++ [])) := .cons .nil .nil
  rw [root] at walks
  rw [root'] at walks'
  obtain rfl := streams.unique (Comparison.streams_of_walks walks rfl)
  obtain rfl := streams'.unique (Comparison.streams_of_walks walks' rfl)
  have blamed := congrArg (List.map CompareRow.side) (List.perm_singleton.mp perm)
  exact absurd blamed (by decide)

end Norte.Compare
