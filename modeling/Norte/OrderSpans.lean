import Norte.OrderColour
import Norte.OrderEscape

/-! The ranges of a line are those of whole characters: where the lexer cuts it, where a key
ends in its word, and where an error is said to be. -/
namespace Norte.Orders

open Utf8

/-- Between two characters of the line, or at an end of it. -/
def Boundary (line : Str) (i : Nat) : Prop :=
  ∃ before after, line = before ++ after ∧ (encode before).length = i

/-- What is left of the line at `i`. -/
def Rest (line : Str) (i : Nat) (rest : Str) : Prop :=
  ∃ before, line = before ++ rest ∧ (encode before).length = i

theorem Rest.boundary {line rest : Str} {i : Nat} (left : Rest line i rest) : Boundary line i := by
  obtain ⟨before, whole, length⟩ := left
  exact ⟨before, rest, whole, length⟩

theorem Rest.next {line rest : Str} {c : Char} {i : Nat} (left : Rest line i (c :: rest)) :
    Rest line (i + c.utf8Size) rest := by
  obtain ⟨before, rfl, rfl⟩ := left
  refine ⟨before ++ [c], by simp, ?_⟩
  simp [encode, String.length_utf8EncodeChar]

theorem Boundary.le {line : Str} {i : Nat} (cut : Boundary line i) : i ≤ (encode line).length := by
  obtain ⟨before, after, rfl, rfl⟩ := cut
  simp [encode]

theorem Boundary.zero (line : Str) : Boundary line 0 := ⟨[], line, rfl, rfl⟩

theorem Boundary.length (line : Str) : Boundary line (encode line).length :=
  ⟨line, [], by simp, rfl⟩

/-- Ranges of whole characters, one after the other from `lo` to `hi`. -/
def Laid (line : Str) : Nat → List Range → Nat → Prop
  | lo, [], hi => lo ≤ hi
  | lo, r :: rs, hi => (lo ≤ r.start ∧ r.start ≤ r.stop) ∧
      (Boundary line r.start ∧ Boundary line r.stop) ∧ Laid line r.stop rs hi

namespace Laid

variable {line : Str} {lo mid hi : Nat} {rs rs' : List Range}

theorem le (laid : Laid line lo rs hi) : lo ≤ hi := by
  induction rs generalizing lo with
  | nil => exact laid
  | cons r rs ih =>
    obtain ⟨⟨from_, width⟩, -, later⟩ := laid
    exact Nat.le_trans from_ (Nat.le_trans width (ih later))

theorem append (first : Laid line lo rs mid) (second : Laid line mid rs' hi) :
    Laid line lo (rs ++ rs') hi := by
  induction rs generalizing lo with
  | nil =>
    cases rs' with
    | nil => exact Nat.le_trans first second
    | cons r rs => exact ⟨⟨Nat.le_trans first second.1.1, second.1.2⟩, second.2⟩
  | cons r rs ih => exact ⟨first.1, first.2.1, ih first.2.2⟩

theorem split (laid : Laid line lo (rs ++ rs') hi) : ∃ mid, Laid line lo rs mid ∧ Laid line mid rs' hi := by
  induction rs generalizing lo with
  | nil => exact ⟨lo, Nat.le_refl lo, laid⟩
  | cons r rs ih =>
    obtain ⟨mid, first, second⟩ := ih laid.2.2
    exact ⟨mid, ⟨laid.1, laid.2.1, first⟩, second⟩

theorem widen (laid : Laid line lo rs mid) (more : mid ≤ hi) : Laid line lo rs hi := by
  simpa using laid.append (show Laid line mid [] hi from more)

theorem lower {lo' : Nat} (less : lo' ≤ lo) (laid : Laid line lo rs hi) : Laid line lo' rs hi := by
  simpa using (show Laid line lo' [] lo from less).append laid

theorem mem (laid : Laid line lo rs hi) {r : Range} (member : r ∈ rs) :
    (lo ≤ r.start ∧ r.start ≤ r.stop ∧ r.stop ≤ hi) ∧ Boundary line r.start ∧ Boundary line r.stop := by
  induction rs generalizing lo with
  | nil => cases member
  | cons s rs ih =>
    obtain ⟨⟨from_, width⟩, cuts, later⟩ := laid
    rcases List.mem_cons.mp member with rfl | member
    · exact ⟨⟨from_, width, later.le⟩, cuts⟩
    · obtain ⟨bounds, cuts⟩ := ih later member
      exact ⟨⟨by omega, bounds.2⟩, cuts⟩

theorem ordered (laid : Laid line lo rs hi) : rs.Pairwise fun a b => a.stop ≤ b.start := by
  induction rs generalizing lo with
  | nil => exact .nil
  | cons r rs ih => exact .cons (fun _ member => (laid.2.2.mem member).1.1) (ih laid.2.2)

/-- Some of them, from where the first of these can start. -/
theorem filter (laid : Laid line lo rs hi) (p : Range → Bool) {lo' : Nat}
    (from_ : ∀ r ∈ rs, p r = true → lo' ≤ r.start) (less : lo' ≤ hi) : Laid line lo' (rs.filter p) hi := by
  induction rs generalizing lo lo' with
  | nil => exact less
  | cons r rs ih =>
    have later := laid.2.2
    by_cases keep : p r = true
    · rw [List.filter_cons_of_pos keep]
      refine ⟨⟨from_ r List.mem_cons_self keep, laid.1.2⟩, laid.2.1, ih later ?_ later.le⟩
      exact fun s member _ => (later.mem member).1.1
    · rw [List.filter_cons_of_neg keep]
      exact ih later (fun s member => from_ s (List.mem_cons_of_mem _ member)) less

/-- Those that end by then. -/
theorem upto {e : Nat} (laid : Laid line lo rs hi) (less : lo ≤ e) :
    Laid line lo (rs.filter fun r => r.stop ≤ e) e := by
  induction rs generalizing lo with
  | nil => exact less
  | cons r rs ih =>
    by_cases early : r.stop ≤ e
    · rw [List.filter_cons_of_pos (by simpa using early)]
      exact ⟨laid.1, laid.2.1, ih laid.2.2 early⟩
    · rw [List.filter_cons_of_neg (by simpa using early)]
      exact ih (laid.2.2.lower (Nat.le_trans laid.1.1 laid.1.2)) less

end Laid

/-- The pieces of one character, or of one escape. -/
inductive Block (line : Str) (lo hi : Nat) : List Piece → Prop
  | char (plain : Bool) (c : Char) {i : Nat} (cut : Boundary line i) (from_ : lo ≤ i)
    (upto : i + c.utf8Size ≤ hi) : Block line lo hi (piecesFrom plain i (String.utf8EncodeChar c))
  | escape (b : UInt8) {i : Nat} (cut : Boundary line i) (from_ : lo ≤ i) (upto : i ≤ hi) :
    Block line lo hi [⟨b, false, i⟩]

/-- Pieces that are those of whole characters and escapes. -/
def Blocks (line : Str) (lo hi : Nat) (pieces : List Piece) : Prop :=
  ∃ groups : List (List Piece), pieces = groups.flatten ∧ ∀ g ∈ groups, Block line lo hi g

theorem mem_piecesFrom {plain : Bool} {run : Bytes} {i : Nat} {p : Piece} (member : p ∈ piecesFrom plain i run) :
    p.plain = plain ∧ p.byte ∈ run ∧ i ≤ p.offset ∧ p.offset < i + run.length := by
  induction run generalizing i with
  | nil => cases member
  | cons b run ih =>
    rcases List.mem_cons.mp member with rfl | member
    · exact ⟨rfl, List.mem_cons_self, Nat.le_refl i, by simp⟩
    · obtain ⟨same, byte, from_, upto⟩ := ih member
      refine ⟨same, List.mem_cons_of_mem _ byte, by omega, ?_⟩
      rw [List.length_cons]
      omega

namespace Block

variable {line : Str} {lo hi : Nat} {g : List Piece}

theorem widen {hi' : Nat} (block : Block line lo hi g) (more : hi ≤ hi') : Block line lo hi' g := by
  cases block with
  | char plain c cut from_ upto => exact .char plain c cut from_ (Nat.le_trans upto more)
  | escape b cut from_ upto => exact .escape b cut from_ (Nat.le_trans upto more)

theorem bounds (block : Block line lo hi g) {p : Piece} (member : p ∈ g) : lo ≤ p.offset ∧ p.offset ≤ hi := by
  cases block with
  | char plain c cut from_ upto =>
    obtain ⟨-, -, above, below_⟩ := mem_piecesFrom member
    rw [String.length_utf8EncodeChar] at below_
    exact ⟨Nat.le_trans from_ above, by omega⟩
  | escape b cut from_ upto =>
    obtain rfl := List.mem_singleton.mp member
    exact ⟨from_, upto⟩

theorem head (block : Block line lo hi g) : ∃ p rest, g = p :: rest ∧ Boundary line p.offset := by
  cases block with
  | char plain c cut =>
    obtain ⟨b, run, bytes⟩ := List.exists_cons_of_ne_nil (String.utf8EncodeChar_ne_nil : String.utf8EncodeChar c ≠ [])
    rw [bytes]
    exact ⟨_, _, rfl, cut⟩
  | escape b cut => exact ⟨_, _, rfl, cut⟩

/-- An ASCII byte is a block of its own. -/
theorem ascii (block : Block line lo hi g) {p : Piece} {rest : List Piece} (first : g = p :: rest)
    (low : p.byte < 0x80) : rest = [] := by
  cases block with
  | @char plain c i cut =>
    have member : p ∈ piecesFrom plain i (String.utf8EncodeChar c) := by
      rw [first]
      exact List.mem_cons_self
    rw [(encodeChar_byte_lt (mem_piecesFrom member).2.1 low).1] at first
    exact (List.cons.inj first).2.symm
  | escape b cut => exact (List.cons.inj first).2.symm

/-- Only the first byte of a character looks like one. -/
theorem lead (block : Block line lo hi g) {p : Piece} (member : p ∈ g) (plain : p.plain = true)
    (leads : leadLength p.byte ≠ 0) : Boundary line p.offset := by
  cases block with
  | char plain c cut =>
    obtain ⟨b, run, bytes⟩ := List.exists_cons_of_ne_nil (String.utf8EncodeChar_ne_nil : String.utf8EncodeChar c ≠ [])
    rw [bytes] at member
    rcases List.mem_cons.mp member with rfl | later
    · exact cut
    · refine absurd (leadLength_tail (c := c) ?_) leads
      rw [bytes]
      exact (mem_piecesFrom later).2.1
  | escape b cut =>
    obtain rfl := List.mem_singleton.mp member
    cases plain

end Block

namespace Blocks

variable {line : Str} {lo hi : Nat} {pieces : List Piece}

theorem push {hi' : Nat} {g : List Piece} (blocks : Blocks line lo hi pieces) (more : hi ≤ hi')
    (block : Block line lo hi' g) : Blocks line lo hi' (pieces ++ g) := by
  obtain ⟨groups, rfl, each⟩ := blocks
  refine ⟨groups ++ [g], by simp, fun h member => ?_⟩
  rcases List.mem_append.mp member with before | last
  · exact (each h before).widen more
  · rwa [List.mem_singleton.mp last]

theorem widen {hi' : Nat} (blocks : Blocks line lo hi pieces) (more : hi ≤ hi') : Blocks line lo hi' pieces := by
  obtain ⟨groups, rfl, each⟩ := blocks
  exact ⟨groups, rfl, fun h member => (each h member).widen more⟩

theorem bounds (blocks : Blocks line lo hi pieces) {p : Piece} (member : p ∈ pieces) :
    lo ≤ p.offset ∧ p.offset ≤ hi := by
  obtain ⟨groups, rfl, each⟩ := blocks
  obtain ⟨g, inside, member⟩ := List.mem_flatten.mp member
  exact (each g inside).bounds member

theorem lead (blocks : Blocks line lo hi pieces) {p : Piece} (member : p ∈ pieces) (plain : p.plain = true)
    (leads : leadLength p.byte ≠ 0) : Boundary line p.offset := by
  obtain ⟨groups, rfl, each⟩ := blocks
  obtain ⟨g, inside, member⟩ := List.mem_flatten.mp member
  exact (each g inside).lead member plain leads

/-- After ASCII bytes a character begins. -/
theorem after_ascii {pre post : List Piece} {p : Piece} (blocks : Blocks line lo hi (pre ++ p :: post))
    (low : ∀ q ∈ pre, q.byte < 0x80) : Boundary line p.offset := by
  obtain ⟨groups, whole, each⟩ := blocks
  induction groups generalizing pre with
  | nil => simp at whole
  | cons g groups ih =>
    obtain ⟨first, rest, rfl, cut⟩ := (each g List.mem_cons_self).head
    cases pre with
    | nil =>
      obtain ⟨rfl, -⟩ := List.cons.inj whole
      exact cut
    | cons q pre =>
      obtain ⟨rfl, others⟩ := List.cons.inj whole
      obtain rfl := (each _ List.mem_cons_self).ascii rfl (low _ List.mem_cons_self)
      exact ih (fun q member => low q (List.mem_cons_of_mem _ member)) others
        fun g member => each g (List.mem_cons_of_mem _ member)

end Blocks

/-- A word of the line. -/
structure Word.Fits (line : Str) (w : Word) : Prop where
  width : w.start < w.stop
  start : Boundary line w.start
  stop : Boundary line w.stop
  blocks : Blocks line w.start w.stop w.pieces

/-- A word that is open at `i`. -/
structure Open.Fits (line : Str) (i : Nat) (w : Open) : Prop where
  width : w.start ≤ i
  start : Boundary line w.start
  quote : ∀ q ∈ w.quote, Boundary line q
  blocks : Blocks line w.start i w.pieces

/-- What the lexer makes of the line from `lo` on. -/
structure Lexed (line : Str) (lo : Nat) (result : List Tok × Option ParseError) : Prop where
  laid : Laid line lo (result.1.map Tok.span) (encode line).length
  words : ∀ w, .word w ∈ result.1 → w.Fits line
  error : ∀ e ∈ result.2, Boundary line e.offset

theorem Lexed.width {line : Str} {lo : Nat} {result : List Tok × Option ParseError} (lexed : Lexed line lo result)
    {r : Range} (member : r ∈ result.1.map Tok.span) : r.start < r.stop := by
  obtain ⟨tok, inside, rfl⟩ := List.mem_map.mp member
  cases tok with
  | word w => exact (lexed.words w inside).width
  | pipe i => exact Nat.lt_succ_self i

theorem Lexed.nothing {line : Str} {lo : Nat} (short : lo ≤ (encode line).length) : Lexed line lo ([], none) :=
  ⟨short, fun _ none_ => absurd none_ List.not_mem_nil, fun _ none_ => by cases none_⟩

theorem Lexed.failed {line : Str} {lo i : Nat} {kind : ParseErrorKind} (short : lo ≤ (encode line).length)
    (cut : Boundary line i) : Lexed line lo ([], some ⟨i, kind⟩) :=
  ⟨short, fun _ none_ => absurd none_ List.not_mem_nil, fun e there => by
    obtain rfl := Option.mem_some.mp there
    exact cut⟩

namespace Open.Fits

variable {line rest : Str} {i : Nat} {w : Open}

theorem fresh (cut : Boundary line i) : Open.Fits line i ⟨i, [], none⟩ :=
  ⟨Nat.le_refl i, cut, fun q none_ => (Option.not_mem_none q none_).elim, [], rfl,
    fun _ none_ => absurd none_ List.not_mem_nil⟩

theorem push {i' : Nat} {g : List Piece} (fits : w.Fits line i) (more : i ≤ i')
    (block : Block line w.start i' g) : (w.push g).Fits line i' :=
  ⟨Nat.le_trans fits.width more, fits.start, fits.quote, fits.blocks.push more block⟩

theorem close (fits : w.Fits line i) (some_ : w.start < i) (cut : Boundary line i) :
    Word.Fits line ⟨w.start, i, w.pieces⟩ := ⟨some_, fits.start, cut, fits.blocks⟩

end Open.Fits

/-- At `i` the lexer is in a word that has begun before, or in none. -/
def Opened (line : Str) (i : Nat) (word : Option Open) : Prop := ∀ w ∈ word, w.Fits line i ∧ w.start < i

/-- The word that takes the next character. -/
theorem Opened.taken {line : Str} {i : Nat} {word : Option Open} (opened : Opened line i word)
    (cut : Boundary line i) : (word.getD ⟨i, [], none⟩).Fits line i := by
  cases word with
  | none => exact .fresh cut
  | some w => exact (opened w rfl).1

theorem Opened.none (line : Str) (i : Nat) : Opened line i none := fun w none_ => (Option.not_mem_none w none_).elim

theorem Opened.some {line : Str} {i : Nat} {w : Open} (fits : w.Fits line i) (begun : w.start < i) :
    Opened line i (some w) := fun v there => by
  obtain rfl := Option.mem_some.mp there
  exact ⟨fits, begun⟩

theorem utf8Size_ascii {c : Char} (low : c.toNat < 128) : c.utf8Size = 1 := by
  rw [← String.length_utf8EncodeChar, encodeChar_ascii c low]
  rfl

theorem hex_ascii {c : Char} {b : UInt8} (found : hex c = some b) : c.toNat < 128 := by
  unfold hex at found
  split_ifs at found with digit lower upper
  · exact lt_of_le_of_lt digit.2 (by decide)
  · exact lt_of_le_of_lt lower.2 (by decide)
  · exact lt_of_le_of_lt upper.2 (by decide)

/-- Where a word ends, and a pipe if there is one. -/
theorem ended_laid {line rest : Str} {word : Option Open} {i : Nat} {c : Char} (left : Rest line i (c :: rest))
    (opened : Opened line i word) :
    Laid line (word.getD ⟨i, [], none⟩).start
      (((word.map fun w : Open => w.close i).toList ++ if c = '|' then [Tok.pipe i] else []).map Tok.span)
      (i + c.utf8Size) := by
  have cut := left.boundary
  have next := left.next.boundary
  have pipe : Laid line i ((if c = '|' then [Tok.pipe i] else []).map Tok.span) (i + c.utf8Size) := by
    split
    · rename_i bar
      subst bar
      exact ⟨⟨Nat.le_refl i, Nat.le_succ i⟩, ⟨cut, next⟩, Nat.le_refl _⟩
    · exact Nat.le_add_right _ _
  rw [List.map_append]
  cases word with
  | none => exact pipe
  | some w =>
    obtain ⟨fits, begun⟩ := opened w rfl
    exact ⟨⟨Nat.le_refl _, Nat.le_of_lt begun⟩, ⟨fits.start, cut⟩, pipe⟩

/-- The words and pipes of the line are where its characters are. -/
theorem lexFrom_laid {line : Str} (word : Option Open) (i : Nat) (rest : Str) (left : Rest line i rest)
    (opened : Opened line i word) :
    Lexed line (word.getD ⟨i, [], none⟩).start (lexFrom word i rest) := by
  fun_induction lexFrom word i rest with
  | case1 => exact .nothing left.boundary.le
  | case2 w i q quote =>
    have fits := (opened w rfl).1
    exact .failed fits.start.le (fits.quote q quote)
  | case3 w i closed =>
    obtain ⟨fits, begun⟩ := opened w rfl
    have cut := left.boundary
    refine ⟨⟨⟨Nat.le_refl _, Nat.le_of_lt begun⟩, ⟨fits.start, cut⟩, cut.le⟩, fun v member => ?_,
      fun _ none_ => by cases none_⟩
    obtain rfl := Tok.word.inj (List.mem_singleton.mp member)
    exact fits.close begun cut
  | case4 word i c rest ends toks error later ih =>
    have after := ih left.next (.none line _)
    rw [later] at after
    refine ⟨?_, fun v member => ?_, after.error⟩
    · rw [List.map_append]
      exact (ended_laid left opened).append after.laid
    · rcases List.mem_append.mp member with now | member
      · rcases List.mem_append.mp now with closed | pipe
        · obtain ⟨w, there, same⟩ := Option.map_eq_some_iff.mp (Option.mem_toList.mp closed)
          obtain ⟨fits, begun⟩ := opened w there
          obtain rfl := Tok.word.inj same
          exact fits.close begun left.boundary
        · split at pipe <;> simp at pipe
      · exact after.words v member
  | case5 word i rest w inside ih =>
    have fits : w.Fits line i := opened.taken left.boundary
    refine ih left.next (.some ⟨Nat.le_succ_of_le fits.width, fits.start, fun q there => ?_,
      fits.blocks.widen (Nat.le_succ i)⟩ (Nat.lt_succ_of_le fits.width))
    dsimp only at there
    split at there
    · cases there
    · obtain rfl := Option.mem_some.mp there
      exact left.boundary
  | case6 word i => exact .failed (opened.taken left.boundary).start.le left.boundary
  | case7 word i w h l rest hi lo low high inside quote ih =>
    have fits : w.Fits line i := opened.taken left.boundary
    have next := left.next.next.next.next
    rw [utf8Size_ascii (hex_ascii high), utf8Size_ascii (hex_ascii low)] at next
    exact ih next (.some (fits.push (Nat.le_add_right i 4)
      (.escape _ left.boundary fits.width (Nat.le_add_right i 4))) (Nat.lt_of_le_of_lt fits.width (Nat.lt_add_of_pos_right (by decide))))
  | case8 word i | case9 word i | case11 word i =>
    exact .failed (opened.taken left.boundary).start.le left.boundary
  | case10 word i w d rest other escaped inside quote ih =>
    have fits : w.Fits line i := opened.taken left.boundary
    have small : d.utf8Size = 1 := by
      simp only [List.mem_cons, List.not_mem_nil, or_false] at escaped
      rcases escaped with rfl | rfl | rfl | rfl <;> rfl
    have next := left.next.next
    rw [small] at next
    exact ih next (.some (fits.push (Nat.le_add_right i 2)
      (.escape _ left.boundary fits.width (Nat.le_add_right i 2))) (Nat.lt_of_le_of_lt fits.width (Nat.lt_add_of_pos_right (by decide))))
  | case12 word i c rest inside w quote escape ih =>
    have fits : w.Fits line i := opened.taken left.boundary
    exact ih left.next (.some (fits.push (Nat.le_add_right i _)
      (.char _ c left.boundary fits.width (Nat.le_refl _))) (Nat.lt_of_le_of_lt fits.width (Nat.lt_add_of_pos_right c.utf8Size_pos)))

theorem lex_laid (line : Str) : Lexed line 0 (lex line) :=
  lexFrom_laid none 0 line ⟨[], rfl, rfl⟩ (.none line 0)

end Norte.Orders
