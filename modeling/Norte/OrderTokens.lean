import Norte.OrderSpans

/-! What is painted lies in the words that are read, in their order, and an error is at the
start of something. So the colours of any line can be sliced out of it. -/
namespace Norte.Orders

open Utf8

/-- The error is said to be at a character. -/
def Cuts {α : Type} (line : Str) (x : Except ParseError α) : Prop := ∀ e, x = .error e → Boundary line e.offset

namespace Cuts

variable {line : Str} {α β : Type}

theorem ok (a : α) : Cuts line (.ok a : Except ParseError α) := fun _ none_ => by cases none_

theorem error {e : ParseError} (cut : Boundary line e.offset) : Cuts line (.error e : Except ParseError α) :=
  fun _ same => by
    obtain rfl := Except.error.inj same
    exact cut

theorem map {x : Except ParseError α} (cuts : Cuts line x) (f : α → β) : Cuts line (x.map f) := by
  cases x with
  | error e => exact .error (cuts e rfl)
  | ok a => exact .ok (f a)

theorem bind {x : Except ParseError α} {f : α → Except ParseError β} (cuts : Cuts line x)
    (then_ : ∀ a, Cuts line (f a)) : Cuts line (x >>= f) := by
  cases x with
  | error e => exact .error (cuts e rfl)
  | ok a => exact then_ a

end Cuts

theorem stripFrom_offset (fuel : Nat) (kept : List Piece) (first : Option Nat) (pieces : List Piece) {i : Nat}
    (found : (stripFrom fuel kept first pieces).2 = some i) :
    first = some i ∨ ∃ p ∈ pieces, p.offset = i ∧ p.plain = true ∧ leadLength p.byte ≠ 0 := by
  fun_induction stripFrom fuel kept first pieces with
  | case1 | case2 => exact .inl found
  | case3 fuel kept first p rest n joined stays ih =>
    rcases ih found with here | ⟨q, member, lead⟩
    · exact .inl here
    · exact .inr ⟨q, List.mem_cons_of_mem _ member, lead⟩
  | case4 fuel kept first p rest n joined goes ih =>
    rcases ih found with here | ⟨q, member, lead⟩
    · have format : formatLen (p :: rest) ≠ 0 := by
        intro none_
        exact goes (by simp [n, none_])
      obtain ⟨q, _, _, same, plain, lead, -⟩ := formatLen_ne_zero format
      obtain ⟨rfl, -⟩ := List.cons.inj same
      cases first with
      | some j => exact .inl here
      | none => exact .inr ⟨p, List.mem_cons_self, Option.some.inj here, plain, lead⟩
    · exact .inr ⟨q, List.mem_of_mem_drop member, lead⟩

section Words

variable {line : Str} {w : Word} {body : List Piece} {lo hi : Nat}

theorem noInvisible_cuts (fits : w.Fits line) (inside : ∀ p ∈ body, p ∈ w.pieces) (f : List Piece → Bool) :
    Cuts line (noInvisible body f) := by
  unfold noInvisible
  split
  · rename_i bare i found
    split
    · obtain ⟨⟨kept, first⟩, stripped, same⟩ : ∃ r, stripFrom body.length [] none body = r ∧
          r.2.map (fun i => (r.1, i)) = some (bare, i) := ⟨_, rfl, found⟩
      obtain ⟨j, here, same⟩ := Option.map_eq_some_iff.mp same
      obtain ⟨rfl, rfl⟩ := Prod.mk.inj same
      have at_ : (stripFrom body.length [] none body).2 = some j := by rw [stripped, here]
      rcases stripFrom_offset _ _ _ _ at_ with none_ | ⟨p, member, rfl, plain, lead⟩
      · cases none_
      · exact .error (fits.blocks.lead (inside p member) plain lead)
    · exact .ok ()
  · exact .ok ()

theorem kindSel_cuts (fits : w.Fits line) (inside : ∀ p ∈ body, p ∈ w.pieces) :
    Cuts line (kindSel w.start body) := by
  unfold kindSel
  split
  · exact .ok _
  split
  · exact .ok _
  split
  · exact .ok _
  · exact (noInvisible_cuts fits inside _).bind fun _ => .error fits.start

theorem pred_cuts (fits : w.Fits line) (inside : ∀ p ∈ body, p ∈ w.pieces) : Cuts line (pred w.start body) := by
  unfold pred
  split
  · exact .ok _
  split
  · exact .ok _
  split
  · exact .ok _
  split
  · exact (kindSel_cuts fits fun p member => inside p (List.mem_of_mem_drop member)).map _
  split
  · split
    · exact .ok _
    · exact .error fits.start
  · split
    · split
      · exact .ok _
      · exact .error fits.start
    · exact .ok _

theorem noArgs_cuts {args : List Word} (fits : ∀ w ∈ args, w.Fits line) : Cuts line (noArgs args) := by
  cases args with
  | nil => exact .ok ()
  | cons w args => exact .error (fits w List.mem_cons_self).start

end Words

/-- What is painted lies between `lo` and `hi`, and is no error; the error is at a character. -/
structure Painted.Lies {α : Type} (line : Str) (lo hi : Nat) (x : Painted α) : Prop where
  laid : Laid line lo (x.spans.map Prod.fst) hi
  quiet : ∀ s ∈ x.spans, s.2 ≠ .error
  cuts : Cuts line x.result

namespace Painted.Lies

variable {line : Str} {lo mid hi : Nat} {α β : Type} {x : Painted α}

theorem of {result : Except ParseError α} (less : lo ≤ hi) (cuts : Cuts line result) :
    (Painted.of result).Lies line lo hi := ⟨less, fun _ none_ => absurd none_ List.not_mem_nil, cuts⟩

theorem pure (less : lo ≤ hi) (a : α) : (Pure.pure a : Painted α).Lies line lo hi := of less (.ok a)

theorem fail {offset : Nat} {kind : ParseErrorKind} (less : lo ≤ hi) (cut : Boundary line offset) :
    (Painted.fail offset kind : Painted α).Lies line lo hi := of less (.error cut)

theorem paint {r : Range} {c : TokenClass} (laid : Laid line lo [r] hi) (quiet : c ≠ .error) :
    (Painted.paint r c).Lies line lo hi := by
  refine ⟨laid, fun s member => ?_, .ok ()⟩
  obtain rfl := List.mem_singleton.mp member
  exact quiet

theorem bind {f : α → Painted β} (first : x.Lies line lo mid) (less : mid ≤ hi)
    (later : ∀ a, (f a).Lies line mid hi) : (x >>= f).Lies line lo hi := by
  obtain ⟨spans, result⟩ := x
  cases result with
  | error e => exact ⟨first.laid.widen less, first.quiet, .error (first.cuts e rfl)⟩
  | ok a =>
    obtain ⟨laid, quiet, cuts⟩ := later a
    refine ⟨?_, fun s member => ?_, cuts⟩
    · have both := first.laid.append laid
      rwa [← List.map_append] at both
    · rcases List.mem_append.mp member with now | after
      · exact first.quiet s now
      · exact quiet s after

theorem widen {lo' hi' : Nat} (lies : x.Lies line lo hi) (less : lo' ≤ lo) (more : hi ≤ hi') :
    x.Lies line lo' hi' := ⟨(lies.laid.lower less).widen more, lies.quiet, lies.cuts⟩

theorem mapError {f : ParseError → ParseError} (lies : x.Lies line lo hi)
    (cuts : ∀ e, Boundary line e.offset → Boundary line (f e).offset) : (x.mapError f).Lies line lo hi := by
  refine ⟨lies.laid, lies.quiet, fun e failed => ?_⟩
  obtain ⟨spans, result⟩ := x
  cases result with
  | error e' =>
    obtain rfl := Except.error.inj failed
    exact cuts e' (lies.cuts e' rfl)
  | ok a => cases failed

end Painted.Lies

theorem ite_lies {line : Str} {lo hi : Nat} {α : Type} {p : Prop} [Decidable p] {x y : Painted α}
    (first : x.Lies line lo hi) (second : y.Lies line lo hi) : (if p then x else y).Lies line lo hi := by
  split
  · exact first
  · exact second

theorem plainPrefix_take {pieces : List Piece} {word : Bytes} (plain : plainPrefix pieces word = true) :
    ∀ q ∈ pieces.take word.length, q.byte ∈ word := by
  induction word generalizing pieces with
  | nil => simp
  | cons b word ih =>
    cases pieces with
    | nil => simp
    | cons p pieces =>
      simp only [plainPrefix, Bool.and_eq_true, decide_eq_true_eq] at plain
      obtain ⟨⟨-, same⟩, rest⟩ := plain
      intro q member
      rcases List.mem_cons.mp member with rfl | later
      · exact same ▸ List.mem_cons_self
      · exact List.mem_cons_of_mem _ (ih rest q later)

theorem keyword_low {pieces : List Piece} {word : Bytes} (plain : plainPrefix pieces word = true)
    (low : word.all (· < 0x80)) : ∀ q ∈ pieces.take word.length, q.byte < 0x80 := fun q member => by
  simpa using List.all_eq_true.mp low q.byte (plainPrefix_take plain q member)

theorem keyedCmp_low {body : List Piece} {word : Bytes} {cmp : Cmp} {len : Nat}
    (found : keyedCmp body word = some (cmp, len)) (low : word.all (· < 0x80)) :
    ∀ q ∈ body.take len, q.byte < 0x80 := by
  unfold keyedCmp at found
  split at found
  · rename_i plain
    obtain ⟨op, first, same⟩ := Option.map_eq_some_iff.mp found
    obtain ⟨rfl, rfl⟩ := Prod.mk.inj same
    have small : op.1.all (· < 0x80) := by
      have each : comparisons.all fun op => op.1.all (· < 0x80) := by decide
      exact List.all_eq_true.mp each op (List.mem_of_find?_eq_some first)
    intro q member
    rw [List.take_add] at member
    rcases List.mem_append.mp member with key | sign
    · exact keyword_low plain low q key
    · exact keyword_low (by simpa using List.find?_some first) small q sign
  · cases found

theorem keyLength_low (body : List Piece) : ∀ q ∈ body.take (Colour.keyLength body), q.byte < 0x80 := by
  unfold Colour.keyLength
  split
  · rename_i plain
    exact keyword_low plain (by decide)
  split
  · rename_i plain
    exact keyword_low plain (by decide)
  split
  · rename_i plain
    exact keyword_low plain (by decide)
  split
  · rename_i plain
    exact keyword_low plain (by decide)
  split
  · rename_i found
    exact keyedCmp_low found (by decide)
  · split
    · rename_i found
      exact keyedCmp_low found (by decide)
    · simp

namespace Colour

variable {line : Str} {w : Word} {lo hi : Nat} {args : List Word} {stop : Nat}

theorem key_lies (fits : w.Fits line) {lead len : Nat}
    (low : ∀ q ∈ w.pieces.take (lead + len), q.byte < 0x80) : (key w lead len).Lies line w.start w.stop := by
  have cut : Boundary line ((w.pieces[lead + len]?.map Piece.offset).getD w.stop) ∧
      w.start ≤ (w.pieces[lead + len]?.map Piece.offset).getD w.stop ∧
      (w.pieces[lead + len]?.map Piece.offset).getD w.stop ≤ w.stop := by
    cases there : w.pieces[lead + len]? with
    | none => exact ⟨fits.stop, Nat.le_of_lt fits.width, Nat.le_refl _⟩
    | some p =>
      obtain ⟨short, found⟩ := List.getElem?_eq_some_iff.mp there
      have whole : w.pieces = w.pieces.take (lead + len) ++ p :: w.pieces.drop (lead + len + 1) := by
        rw [← found, List.getElem_cons_drop, List.take_append_drop]
      have blocks := fits.blocks
      rw [whole] at blocks
      refine ⟨blocks.after_ascii low, fits.blocks.bounds (List.mem_of_getElem? there)⟩
  simp only [key]
  generalize (w.pieces[lead + len]?.map Piece.offset).getD w.stop = split at cut ⊢
  obtain ⟨cut, from_, upto⟩ := cut
  refine ⟨?_, fun s member => ?_, .ok ()⟩
  · rw [List.map_append]
    have first : Laid line w.start
        ((if w.start < split then [((⟨w.start, split⟩ : Range), TokenClass.key)] else []).map Prod.fst) split := by
      split
      · exact ⟨⟨Nat.le_refl _, from_⟩, ⟨fits.start, cut⟩, Nat.le_refl _⟩
      · exact from_
    refine first.append ?_
    split
    · exact ⟨⟨Nat.le_refl _, upto⟩, ⟨cut, fits.stop⟩, Nat.le_refl _⟩
    · exact upto
  · rcases List.mem_append.mp member with inside | inside <;>
      · split at inside
        · obtain rfl := List.mem_singleton.mp inside
          simp
        · cases inside

theorem term_lies (fits : w.Fits line) : (term w).Lies line w.start w.stop := by
  have width := Nat.le_of_lt fits.width
  simp only [term]
  cases negated : plainPrefix w.pieces (ascii "!") with
  | false =>
    simp only [Bool.false_eq_true, if_false]
    split
    · exact .fail width fits.start
    · have low : ∀ q ∈ w.pieces.take (0 + keyLength w.pieces), q.byte < 0x80 := by
        rw [Nat.zero_add]
        exact keyLength_low w.pieces
      refine .bind (.of (Nat.le_refl _) (noInvisible_cuts fits (fun p member => member) _)) width fun _ => ?_
      refine .bind (key_lies fits low) (Nat.le_refl _) fun _ => ?_
      exact .bind (.of (Nat.le_refl _) (pred_cuts fits fun p member => member)) (Nat.le_refl _)
        fun _ => .pure (Nat.le_refl _) _
  | true =>
    simp only [if_true]
    split
    · exact .fail width fits.start
    · have inside (p : Piece) (member : p ∈ w.pieces.tail) : p ∈ w.pieces := List.mem_of_mem_tail member
      have low : ∀ q ∈ w.pieces.take (1 + keyLength w.pieces.tail), q.byte < 0x80 := by
        intro q member
        rw [List.take_add] at member
        rcases List.mem_append.mp member with bang | rest
        · exact keyword_low negated (by decide) q bang
        · exact keyLength_low w.pieces.tail q (by rwa [List.drop_one] at rest)
      refine .bind (.of (Nat.le_refl _) (noInvisible_cuts fits inside _)) width fun _ => ?_
      refine .bind (key_lies fits low) (Nat.le_refl _) fun _ => ?_
      exact .bind (.of (Nat.le_refl _) (pred_cuts fits inside)) (Nat.le_refl _)
        fun _ => .pure (Nat.le_refl _) _

theorem terms_lies (fits : ∀ w ∈ args, w.Fits line) (laid : Laid line lo (args.map Word.span) hi) :
    (terms args).Lies line lo hi := by
  induction args generalizing lo with
  | nil => exact .pure laid _
  | cons w args ih =>
    obtain ⟨⟨from_, width⟩, -, later⟩ := laid
    refine .bind ((term_lies (fits w List.mem_cons_self)).widen from_ (Nat.le_refl _)) later.le fun _ => ?_
    exact .bind (ih (fun v member => fits v (List.mem_cons_of_mem _ member)) later) (Nat.le_refl _)
      fun _ => .pure (Nat.le_refl _) _

theorem oneArg_lies (fits : ∀ w ∈ args, w.Fits line) (laid : Laid line lo (args.map Word.span) hi)
    (cut : Boundary line stop) : (oneArg args stop).Lies line lo hi := by
  have less := laid.le
  cases args with
  | nil => exact .fail less cut
  | cons w more =>
    obtain ⟨from_, cuts, later⟩ := laid
    have own := fits w List.mem_cons_self
    have others : ∀ v ∈ more, v.Fits line := fun v member => fits v (List.mem_cons_of_mem _ member)
    simp only [oneArg]
    split
    · exact .fail less own.start
    · refine .bind (.of (Nat.le_refl _) (noInvisible_cuts own (fun p member => member) _)) less fun _ => ?_
      refine .bind (.paint ⟨from_, cuts, Nat.le_refl _⟩ (by simp)) later.le fun _ => ?_
      exact .bind (.of (Nat.le_refl _) (noArgs_cuts others)) later.le fun _ => .pure later.le _

theorem count_lies (fits : ∀ w ∈ args, w.Fits line) (laid : Laid line lo (args.map Word.span) hi) :
    (count args).Lies line lo hi := by
  have less := laid.le
  cases args with
  | nil => exact .pure less _
  | cons w more =>
    obtain ⟨from_, cuts, later⟩ := laid
    have others : ∀ v ∈ more, v.Fits line := fun v member => fits v (List.mem_cons_of_mem _ member)
    simp only [count]
    split
    · exact .fail less (fits w List.mem_cons_self).start
    · refine .bind (.paint ⟨from_, cuts, Nat.le_refl _⟩ (by simp)) later.le fun _ => ?_
      exact .bind (.of (Nat.le_refl _) (noArgs_cuts others)) later.le fun _ => .pure later.le _

/-- A lone `>` and the word it takes. -/
theorem dest_lies (fits : ∀ w ∈ args, w.Fits line) (laid : Laid line lo (args.map Word.span) hi)
    (cut : Boundary line stop) : (dest args stop).Lies line lo hi := by
  have less := laid.le
  cases args with
  | nil => exact .fail less cut
  | cons w more =>
    have own := fits w List.mem_cons_self
    have others : ∀ v ∈ more, v.Fits line := fun v member => fits v (List.mem_cons_of_mem _ member)
    simp only [dest]
    split
    · exact .bind (.of (Nat.le_refl _) (noInvisible_cuts own (fun p member => member) _)) less
        fun _ => .fail less own.start
    split
    · exact .fail less cut
    rename_i body rest found
    split
    · exact .fail less own.start
    obtain ⟨v, taken, inside, painted⟩ : ∃ v : Word, v.Fits line ∧ (∀ p ∈ body, p ∈ v.pieces) ∧
        ∃ mid, Laid line lo [destSpan w more] mid ∧ mid ≤ hi ∧ ∀ r ∈ rest, r.Fits line := by
      obtain ⟨from_, cuts, later⟩ := laid
      unfold destBody at found
      simp only [destSpan]
      split at found
      · rename_i lone
        rw [if_pos lone]
        cases more with
        | nil => cases found
        | cons next more =>
          obtain ⟨rfl, rfl⟩ := Prod.mk.inj (Option.some.inj found)
          obtain ⟨from', cuts', later⟩ := later
          refine ⟨next, others next List.mem_cons_self, fun p member => member, next.stop, ?_, later.le,
            fun r member => others r (List.mem_cons_of_mem _ member)⟩
          exact ⟨⟨from_.1, Nat.le_trans from_.2 (Nat.le_trans from'.1 from'.2)⟩, ⟨cuts.1, cuts'.2⟩, Nat.le_refl _⟩
      · rename_i more_
        rw [if_neg more_]
        obtain ⟨rfl, rfl⟩ := Prod.mk.inj (Option.some.inj found)
        exact ⟨w, own, fun p member => List.mem_of_mem_tail member, w.stop, ⟨from_, cuts, Nat.le_refl _⟩,
          later.le, others⟩
    obtain ⟨mid, span, short, kept⟩ := painted
    refine .bind (.of (Nat.le_refl _) (noInvisible_cuts taken inside _)) less fun _ => ?_
    refine .bind (.paint span (by simp)) short fun _ => ?_
    refine .bind (.of (Nat.le_refl _) (noArgs_cuts kept)) short fun _ => ?_
    split
    · exact .pure short _
    split
    · exact .pure short _
    · exact .pure short _

theorem stageOf_lies {v : Str} {start : Nat} (fits : ∀ w ∈ args, w.Fits line)
    (laid : Laid line lo (args.map Word.span) hi) (from_ : Boundary line start) (cut : Boundary line stop) :
    (stageOf v start args stop).Lies line lo hi := by
  have less := laid.le
  have same := Nat.le_refl hi
  unfold stageOf
  refine ite_lies (ite_lies (.fail less cut) (.bind (terms_lies fits laid) same fun _ => .pure same _)) ?_
  refine ite_lies (.bind (dest_lies fits laid cut) same fun _ => .pure same _) ?_
  refine ite_lies (.bind (dest_lies fits laid cut) same fun _ => .pure same _) ?_
  refine ite_lies (.bind (.of less (noArgs_cuts fits)) same fun _ => .pure same _) ?_
  refine ite_lies (.bind (oneArg_lies fits laid cut) same fun _ => .pure same _) ?_
  refine ite_lies (.bind (oneArg_lies fits laid cut) same fun _ => .pure same _) ?_
  refine ite_lies (.bind (count_lies fits laid) same fun _ => .pure same _) ?_
  refine ite_lies (.bind (count_lies fits laid) same fun _ => .pure same _) ?_
  refine ite_lies (.fail less from_) ?_
  exact ite_lies (.bind (.of less (noArgs_cuts fits)) same fun _ => .pure same _) (.fail less from_)

theorem stage_lies {verb : Word} (fits : ∀ w ∈ verb :: args, w.Fits line)
    (laid : Laid line lo ((verb :: args).map Word.span) hi) (cut : Boundary line stop) :
    (stage verb args stop).Lies line lo hi := by
  have less := laid.le
  obtain ⟨from_, cuts, later⟩ := laid
  have own := fits verb List.mem_cons_self
  have others : ∀ w ∈ args, w.Fits line := fun w member => fits w (List.mem_cons_of_mem _ member)
  refine .bind (.of (Nat.le_refl _) (noInvisible_cuts own (fun p member => member) _)) less fun _ => ?_
  split
  · exact .fail less own.start
  · refine ite_lies ?_ ?_
    · exact .bind (.paint ⟨from_, cuts, Nat.le_refl _⟩ (by simp)) later.le fun _ =>
        stageOf_lies others later own.start cut
    · exact (stageOf_lies others later own.start cut).widen (Nat.le_trans from_.1 from_.2) (Nat.le_refl _)

end Colour

/-- The ranges of stages and of the pipes between them. -/
def woven : List (List Word) → List Nat → List Range
  | [], _ => []
  | seg :: segs, pipes =>
    seg.map Word.span ++ ((pipes.head?.map fun i => (⟨i, i + 1⟩ : Range)).toList ++ woven segs pipes.tail)

theorem woven_segments (toks : List Tok) : woven (segments toks) (pipes toks) = toks.map Tok.span := by
  induction toks with
  | nil => rfl
  | cons tok toks ih =>
    cases tok with
    | pipe i =>
      have tail : pipes (.pipe i :: toks) = i :: pipes toks := rfl
      rw [segments, tail, List.map_cons, ← ih]
      rfl
    | word w =>
      have same : pipes (.word w :: toks) = pipes toks := rfl
      rw [segments, same, List.map_cons, ← ih]
      obtain ⟨seg, segs, some_⟩ := List.exists_cons_of_ne_nil (segments_ne_nil toks)
      rw [some_]
      rfl

namespace Colour

variable {line : Str} {lo hi k : Nat} {pipes : List Nat}

theorem pipe_lies (laid : Laid line lo
    ((if 0 < k then pipes[k - 1]? else none).map fun i => (⟨i, i + 1⟩ : Range)).toList hi) :
    (pipe pipes k).Lies line lo hi := by
  unfold pipe
  generalize (if 0 < k then pipes[k - 1]? else none) = before at laid
  cases before with
  | none => exact .pure laid ()
  | some i => exact .paint laid (by simp)

theorem stages_lies {lexError : Option ParseError} {length : Nat} {segs : List (List Word)}
    (lexCut : ∀ e ∈ lexError, Boundary line e.offset)
    (pipeCuts : ∀ i ∈ pipes, Boundary line i ∧ Boundary line (i + 1)) (whole : Boundary line length)
    (fits : ∀ seg ∈ segs, ∀ w ∈ seg, w.Fits line)
    (laid : Laid line lo (((if 0 < k then pipes[k - 1]? else none).map fun i => (⟨i, i + 1⟩ : Range)).toList ++
      woven segs (pipes.drop k)) hi) :
    (stages lexError length pipes k segs).Lies line lo hi := by
  have lexError_cut {e : ParseError} (cut : Boundary line e.offset) :
      Boundary line (lexError.getD e).offset := by
    cases lexError with
    | none => exact cut
    | some e' => exact lexCut e' rfl
  induction segs generalizing k lo with
  | nil => exact .pure laid.le _
  | cons seg segs ih =>
    obtain ⟨mid, before, after⟩ := laid.split
    cases seg with
    | nil =>
      refine .bind (pipe_lies before) after.le fun _ => .of after.le (.error (lexError_cut ?_))
      dsimp only
      split
      · cases first : pipes.head? with
        | none => exact whole
        | some i => exact (pipeCuts i (List.mem_of_head? first)).1
      · cases there : pipes[k - 1]? with
        | none => exact whole
        | some i => exact (pipeCuts i (List.mem_of_getElem? there)).2
    | cons verb args =>
      obtain ⟨mid', words, later⟩ := after.split
      have own := fits _ List.mem_cons_self
      have cut : Boundary line (((verb :: args).getLast?.map Word.stop).getD length) := by
        cases last : (verb :: args).getLast? with
        | none => exact whole
        | some w => exact (own w (List.mem_of_getLast? last)).stop
      rw [List.head?_drop, List.tail_drop] at later
      refine .bind (pipe_lies before) after.le fun _ => ?_
      refine .bind ((stage_lies own words cut).mapError fun e cut => ?_) later.le fun _ => ?_
      · split
        · exact lexError_cut cut
        · exact cut
      · refine .bind (ih (fun s member => fits s (List.mem_cons_of_mem _ member)) ?_) (Nat.le_refl _)
          fun _ => .pure (Nat.le_refl _) _
        simpa using later

theorem mem_segments {toks : List Tok} {seg : List Word} {w : Word} (member : seg ∈ segments toks)
    (inside : w ∈ seg) : .word w ∈ toks := by
  induction toks generalizing seg with
  | nil =>
    obtain rfl := List.mem_singleton.mp member
    cases inside
  | cons tok toks ih =>
    cases tok with
    | pipe i =>
      rcases List.mem_cons.mp member with rfl | member
      · cases inside
      · exact List.mem_cons_of_mem _ (ih member inside)
    | word v =>
      obtain ⟨first, rest, some_⟩ := List.exists_cons_of_ne_nil (segments_ne_nil toks)
      rw [segments, some_] at member
      rcases List.mem_cons.mp member with rfl | member
      · rcases List.mem_cons.mp inside with rfl | inside
        · exact List.mem_cons_self
        · exact List.mem_cons_of_mem _ (ih (by rw [some_]; exact List.mem_cons_self) inside)
      · exact List.mem_cons_of_mem _ (ih (by rw [some_]; exact List.mem_cons_of_mem _ member) inside)

theorem mem_pipes {toks : List Tok} {i : Nat} (member : i ∈ Orders.pipes toks) : .pipe i ∈ toks := by
  obtain ⟨tok, inside, same⟩ := List.mem_filterMap.mp member
  cases tok with
  | word w => cases same
  | pipe j =>
    obtain rfl := Option.some.inj same
    exact inside

theorem run_lies (line : Str) : (run line).Lies line 0 (encode line).length := by
  obtain ⟨laid, words, error⟩ := lex_laid line
  have whole := Boundary.length line
  have same := Nat.le_refl (encode line).length
  have fits (seg : List Word) (member : seg ∈ segments (lex line).1) (w : Word) (inside : w ∈ seg) :
      w.Fits line := words w (mem_segments member inside)
  simp only [run]
  refine .bind (stages_lies error (fun i member => ?_) whole fits ?_) same fun ss => ?_
  · exact (laid.mem (List.mem_map_of_mem (mem_pipes member))).2
  · simpa [woven_segments] using laid
  · split
    · rename_i e failed
      exact .of same (.error (error e failed))
    · split
      · rename_i k _
        refine .fail same ?_
        cases seg : (segments (lex line).1)[k]? with
        | none => exact .zero line
        | some words =>
          cases words with
          | nil => exact .zero line
          | cons w rest => exact (fits _ (List.mem_of_getElem? seg) w List.mem_cons_self).start
      · exact .pure same _

end Colour

/-- What can be sliced out of a line, and where its colours say that it is wrong. -/
structure Sliceable (line : Str) (spans : Spans) : Prop where
  /-- Sorted by their starts, and apart. -/
  ordered : spans.Pairwise fun a b => a.1.start ≤ b.1.start ∧ a.1.stop ≤ b.1.start
  inside : ∀ s ∈ spans, s.1.start ≤ s.1.stop ∧ s.1.stop ≤ (encode line).length
  boundaries : ∀ s ∈ spans, Boundary line s.1.start ∧ Boundary line s.1.stop
  past : ∀ e, parse line = .error e → ∀ s ∈ spans, e.offset < s.1.stop → s.2 = .error
  once : ∀ e, parse line = .error e →
    spans.countP (fun s => s.2 = .error ∧ s.1.start = e.offset) = 1

theorem sliceable_of_laid {line : Str} {spans : Spans}
    (laid : Laid line 0 (spans.map Prod.fst) (encode line).length)
    (past : ∀ e, parse line = .error e → ∀ s ∈ spans, e.offset < s.1.stop → s.2 = .error)
    (once : ∀ e, parse line = .error e → spans.countP (fun s => s.2 = .error ∧ s.1.start = e.offset) = 1) :
    Sliceable line spans := by
  have each (s : Range × TokenClass) (member : s ∈ spans) := laid.mem (List.mem_map_of_mem member)
  refine ⟨?_, fun s member => (each s member).1.2, fun s member => (each s member).2, past, once⟩
  refine (List.pairwise_map.mp laid.ordered).imp_of_mem fun {a b} inA _ less => ⟨?_, less⟩
  exact Nat.le_trans (each a inA).1.2.1 less

theorem errorStop_spec {line : Str} {lexed : List Range} {offset : Nat}
    (laid : Laid line 0 lexed (encode line).length) (cut : Boundary line offset) :
    offset ≤ errorStop lexed offset (encode line).length ∧
      errorStop lexed offset (encode line).length ≤ (encode line).length ∧
      Boundary line (errorStop lexed offset (encode line).length) ∧
      (errorStop lexed offset (encode line).length = offset → offset = (encode line).length) := by
  have whole := Boundary.length line
  simp only [errorStop]
  cases found : lexed.find? fun r => r.contains offset with
  | none =>
    simp only [Option.map_none, Option.getD_none, ite_self]
    exact ⟨cut.le, Nat.le_refl _, whole, fun same => same.symm⟩
  | some r =>
    simp only [Option.map_some, Option.getD_some]
    obtain ⟨bounds, -, stop⟩ := laid.mem (List.mem_of_find?_eq_some found)
    split
    · rename_i inside
      exact ⟨Nat.le_of_lt inside, bounds.2.2, stop, fun same => by omega⟩
    · exact ⟨cut.le, Nat.le_refl _, whole, fun same => same.symm⟩

theorem tokens_sliceable (line : Str) : Sliceable line (tokens line) := by
  obtain ⟨laid, quiet, cuts⟩ := Colour.run_lies line
  have parsed := Colour.run_result line
  cases result : (Colour.run line).result with
  | ok order =>
    have fine (e : ParseError) (failed : parse line = .error e) : False := by
      rw [← parsed, result] at failed
      cases failed
    have whole : tokens line = (Colour.run line).spans := by simp only [tokens, result]
    rw [whole]
    exact sliceable_of_laid laid (fun e failed => (fine e failed).elim) fun e failed => (fine e failed).elim
  | error e =>
    have same (e' : ParseError) (failed : parse line = .error e') : e' = e := by
      rw [← parsed, result] at failed
      exact (Except.error.inj failed).symm
    have lexed := lex_laid line
    have cut := cuts e result
    obtain ⟨from_, upto, stops, at_end⟩ := errorStop_spec lexed.laid cut
    have whole : tokens line = (Colour.run line).spans.filter (fun s => s.1.stop ≤ e.offset) ++
        (⟨e.offset, max (errorStop ((lex line).1.map Tok.span) e.offset (encode line).length) e.offset⟩, .error) ::
          (((lex line).1.map Tok.span).filter fun r =>
            errorStop ((lex line).1.map Tok.span) e.offset (encode line).length ≤ r.start).map
              fun r => (r, .error) := by simp only [tokens, result]
    rw [whole]
    generalize errorStop ((lex line).1.map Tok.span) e.offset (encode line).length = stop at from_ upto stops at_end
    rw [Nat.max_eq_left from_]
    refine sliceable_of_laid ?_ ?_ ?_
    · have before := laid.upto (Nat.zero_le e.offset)
      have after : Laid line stop (((lex line).1.map Tok.span).filter fun r => stop ≤ r.start)
          (encode line).length := lexed.laid.filter _ (fun r _ late => by simpa using late) upto
      have error : Laid line e.offset ((⟨e.offset, stop⟩ : Range) ::
          ((lex line).1.map Tok.span).filter fun r => stop ≤ r.start) (encode line).length :=
        ⟨⟨Nat.le_refl _, from_⟩, ⟨cut, stops⟩, after⟩
      have all := before.append error
      simpa [List.filter_map, Function.comp_def] using all
    · intro e' failed s member late
      obtain rfl := same e' failed
      rcases List.mem_append.mp member with early | error
      · have early := (List.mem_filter.mp early).2
        simp only [decide_eq_true_eq] at early
        omega
      · rcases List.mem_cons.mp error with rfl | error
        · rfl
        · obtain ⟨r, -, rfl⟩ := List.mem_map.mp error
          rfl
    · intro e' failed
      obtain rfl := same e' failed
      have none_before : ((Colour.run line).spans.filter fun s => s.1.stop ≤ e'.offset).countP
          (fun s => s.2 = .error ∧ s.1.start = e'.offset) = 0 := by
        rw [List.countP_eq_zero]
        intro s member
        have := quiet s (List.mem_of_mem_filter member)
        simp [this]
      have none_after : ((((lex line).1.map Tok.span).filter fun r => stop ≤ r.start).map
          fun r => (r, TokenClass.error)).countP (fun s => s.2 = .error ∧ s.1.start = e'.offset) = 0 := by
        rw [List.countP_eq_zero]
        intro s member
        obtain ⟨r, inside, rfl⟩ := List.mem_map.mp member
        obtain ⟨inside, late⟩ := List.mem_filter.mp inside
        have width := lexed.width inside
        have bounds := (lexed.laid.mem inside).1
        simp only [decide_eq_true_eq] at late ⊢
        rintro ⟨-, here⟩
        have := at_end (by omega)
        omega
      rw [List.countP_append, none_before, List.countP_cons, none_after]
      simp

end Norte.Orders
