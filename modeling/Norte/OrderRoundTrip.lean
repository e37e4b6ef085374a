import Norte.OrderWords

/-! The printer and the parser agree. Every stage is printed as glyphs whose keywords are
the parser's own; the parser finds these, and no others, and gives the stage back. -/
namespace Norte.Orders

open Utf8

/-! What the parser can produce. -/

def Pred.Wf : Pred → Prop
  | ext list => list ≠ []
  | size _ n => n < 2 ^ 64
  | age _ n => n < 2 ^ 64
  | name _ | literal _ | kind _ => True

def Dest.Wf : Dest → Prop
  | path p => p ≠ []
  | other | here => True

def Stage.Wf : Stage → Prop
  | sel q => q.terms ≠ [] ∧ ∀ t ∈ q.terms, t.pred.Wf
  | cp d | mv d => d.Wf
  | trash => True
  | mkdir n | cd n => n ≠ []
  | log n | undo n => ∀ m ∈ n, m < 2 ^ 32
  | catalogue id => isCatalogueId id

structure Order.Wf (o : Order) : Prop where
  some_ : o.stages ≠ []
  stages : ∀ s ∈ o.stages, s.Wf
  alone : 1 < o.stages.length → ∀ s ∈ o.stages, ¬s.standsAlone

/-! What the printer writes, as glyphs. -/

section Glyphs

variable (unicode : Unicode)

def destGlyphs : Dest → List Glyph
  | .other => raws "other".toList
  | .here => raws "here".toList
  | .path p =>
    if p = ascii "other" ∨ p = ascii "here" then .esc (p.headD 0) :: glyphs unicode p.tail false
    else glyphs unicode p false

def nameGlyphs (n : Bytes) : List Glyph :=
  let e := escape unicode n false
  (if e.isEmpty || readsAsSyntax e then raws "name:".toList else []) ++ glyphs unicode n false

def predGlyphs : Pred → List Glyph
  | .ext list => raws "ext:".toList ++ [.raw ','].intercalate (list.map fun e => glyphs unicode e true)
  | .name n => nameGlyphs unicode n
  | .literal n => raws "name=".toList ++ glyphs unicode n false
  | .size cmp n => raws "size".toList ++ (raws cmp.asStr ++ raws (size n))
  | .age cmp n => raws "age".toList ++ (raws cmp.asStr ++ raws (age n))
  | .kind k => raws k.asStr

def termGlyphs (t : Term) : List Glyph := (if t.negated then raws ['!'] else []) ++ predGlyphs unicode t.pred

def phrase : Stage → Phrase
  | .sel q => ⟨raws "sel".toList, q.terms.map (termGlyphs unicode)⟩
  | .cp d => ⟨raws "cp".toList, [raws ['>'] ++ destGlyphs unicode d]⟩
  | .mv d => ⟨raws "mv".toList, [raws ['>'] ++ destGlyphs unicode d]⟩
  | .trash => ⟨raws "trash".toList, []⟩
  | .mkdir n => ⟨raws "mkdir".toList, [glyphs unicode n false]⟩
  | .cd n => ⟨raws "cd".toList, [glyphs unicode n false]⟩
  | .log n => ⟨raws "log".toList, n.toList.map fun m => raws (digits m)⟩
  | .undo n => ⟨raws "undo".toList, n.toList.map fun m => raws (digits m)⟩
  | .catalogue id => ⟨raws id, []⟩

end Glyphs

section Spelling

variable {unicode : Unicode}

theorem spell_dest (d : Dest) : spell (destGlyphs unicode d) = printDest unicode d := by
  cases d with
  | other => rfl
  | here => rfl
  | path p =>
    rw [destGlyphs, printDest]
    split <;> rfl

theorem spell_intercalate (sep : List Glyph) (list : List (List Glyph)) :
    spell (sep.intercalate list) = (spell sep).intercalate (list.map spell) := by
  induction list with
  | nil => rfl
  | cons first more ih =>
    cases more with
    | nil => simp
    | cons second more =>
      simp only [List.intercalate, List.intersperse, List.map_cons, List.flatten_cons] at ih ⊢
      rw [spell_append, spell_append, ih]

theorem spell_pred (p : Pred) : spell (predGlyphs unicode p) = printPred unicode p := by
  cases p with
  | ext list =>
    rw [predGlyphs, printPred, spell_append, spell_raws, spell_intercalate, List.map_map]
    rfl
  | name n =>
    rw [predGlyphs, nameGlyphs, printPred, spell_append]
    split <;> simp [escape]
  | literal n => rw [predGlyphs, printPred, spell_append, spell_raws]; rfl
  | size cmp n => simp [predGlyphs, printPred]
  | age cmp n => simp [predGlyphs, printPred]
  | kind k => rw [predGlyphs, printPred, spell_raws]

theorem spell_term (t : Term) : spell (termGlyphs unicode t) = printTerm unicode t := by
  rw [termGlyphs, printTerm, spell_append, spell_pred]
  split <;> simp

theorem word_eq {n : Bytes} (some_ : n ≠ []) : word unicode n = spell (glyphs unicode n false) := by
  rw [word, if_neg (by simpa using some_), escape]

theorem phrase_str {s : Stage} (wf : s.Wf) : (phrase unicode s).str = printStage unicode s := by
  cases s with
  | sel q =>
    simp only [phrase, Phrase.str, printStage, spell_raws, spaced, List.flatMap_map, spell_term]
  | cp d => simp [phrase, Phrase.str, printStage, spaced, spell_dest]
  | mv d => simp [phrase, Phrase.str, printStage, spaced, spell_dest]
  | trash => simp [phrase, Phrase.str, printStage, spaced]
  | mkdir n => simp [phrase, Phrase.str, printStage, spaced, word_eq wf]
  | cd n => simp [phrase, Phrase.str, printStage, spaced, word_eq wf]
  | log n => cases n <;> simp [phrase, Phrase.str, printStage, spaced, printCount]
  | undo n => cases n <;> simp [phrase, Phrase.str, printStage, spaced, printCount]
  | catalogue id =>
    have valid : isCatalogueId id = true := wf
    simp [phrase, Phrase.str, printStage, spaced, valid]

end Spelling

/-! All of it is legible. -/

theorem clear_raws {comma : Bool} {s : Str} (legible : ∀ c ∈ s, Legible comma c) : Clear comma (raws s) := by
  intro c member
  obtain ⟨d, here, same⟩ := List.mem_map.mp member
  obtain rfl := Glyph.raw.inj same
  exact legible d here

theorem clear_graphic {s : Str} (graphic : ∀ c ∈ s, isGraphic c ∧ c ∉ ['|', '\'', '\\']) :
    Clear false (raws s) := clear_raws fun c member =>
  legible_ascii (graphic c member).1 (graphic c member).2 fun on => nomatch on

def isKeyword (s : Str) : Bool := s.all fun c => isGraphic c && c ∉ ['|', '\'', '\\']

theorem clear_keyword {s : Str} (keyword : isKeyword s) : Clear false (raws s) := by
  apply clear_graphic
  intro c member
  have graphic := List.all_eq_true.mp keyword c member
  rwa [Bool.and_eq_true, decide_eq_true_eq] at graphic

theorem digit_range {c : Char} (digit : c.isDigit) : 48 ≤ c.toNat ∧ c.toNat ≤ 57 := by
  simp only [Char.isDigit, Bool.and_eq_true, decide_eq_true_eq, ge_iff_le, UInt32.le_iff_toNat_le] at digit
  exact digit

theorem digits_isDigit {n : Nat} {c : Char} (member : c ∈ digits n) : c.isDigit :=
  Nat.isDigit_of_mem_toDigits (by decide) (by decide) member

theorem clear_digits (n : Nat) : Clear false (raws (digits n)) := by
  apply clear_graphic
  intro c member
  obtain ⟨low, high⟩ := digit_range (digits_isDigit member)
  refine ⟨?_, ?_⟩
  · simp only [isGraphic, Bool.and_eq_true, decide_eq_true_eq]
    omega
  · intro special
    simp only [List.mem_cons, List.not_mem_nil, or_false] at special
    rcases special with rfl | rfl | rfl <;> revert low high <;> decide

/-! Numbers. -/

theorem takeWhile_digits (m : Nat) {u : Str} (unit : ∀ c ∈ u, ¬c.isDigit) :
    (digits m ++ u).takeWhile Char.isDigit = digits m ∧ (digits m ++ u).dropWhile Char.isDigit = u := by
  have stop : u.takeWhile Char.isDigit = [] ∧ u.dropWhile Char.isDigit = u := by
    cases u with
    | nil => exact ⟨rfl, rfl⟩
    | cons c u => simp [unit c List.mem_cons_self]
  have all : ∀ c ∈ digits m, c.isDigit := fun _ => digits_isDigit
  rw [List.takeWhile_append_of_pos all, List.dropWhile_append_of_pos all, stop.1, stop.2, List.append_nil]
  exact ⟨rfl, rfl⟩

theorem parseDigits_digits {bits m : Nat} (fits : m < 2 ^ bits) : parseDigits bits (digits m) = some m := by
  rw [parseDigits, digits]
  simp only [Nat.ofDigitChars_ten_toDigits, fits, ↓reduceIte]

/-- A whole number with its unit is the product of both. -/
theorem number_digits {pieces : List Piece} {m k : Nat} {u : Str} {units : List (Char × Nat)} {size : Bool}
    (spells : Spells pieces (raws (digits m ++ u))) (unit : ∀ c ∈ u, ¬c.isDigit ∧ c ≠ '.')
    (known : multiplier units size u = some k) (positive : 0 < k) (fits : m * k < 2 ^ 64) :
    number pieces units size = some (m * k) := by
  obtain ⟨taken, dropped⟩ := takeWhile_digits m fun c member => (unit c member).1
  have small : m < 2 ^ 128 := by
    have := Nat.le_mul_of_pos_right m positive
    omega
  have whole : fraction size u = some ((0, 0), u) := by
    cases u with
    | nil => rfl
    | cons c u =>
      have := (unit c List.mem_cons_self).2
      unfold fraction
      split
      next same => exact absurd (List.cons.inj same).1 this
      next => rfl
  have nonempty : (digits m).isEmpty = false := by
    rw [digits, List.isEmpty_eq_false_iff]
    exact Nat.toDigits_ne_nil
  have wide : ¬2 ^ 128 ≤ m * k := by omega
  unfold number
  rw [spells.plainText]
  simp only [Option.bind_eq_bind, Option.bind_some, taken, dropped, nonempty, Bool.false_eq_true, ↓reduceIte,
    parseDigits_digits small, whole, known, wide, Nat.zero_mul, Nat.zero_div, Nat.add_zero, fits]

/-- What `inUnit` writes is digits and a unit whose product is the number. -/
theorem inUnit_eq_some {units : List (Char × Nat)} {n : Nat} {s : Str} (found : inUnit units n = some s) :
    ∃ unit ∈ units, ∃ m, s = digits m ++ [unit.1] ∧ m * unit.2 = n := by
  obtain ⟨unit, first, rfl⟩ := Option.map_eq_some_iff.mp found
  have divides := List.find?_some first
  simp only [Bool.and_eq_true, decide_eq_true_eq] at divides
  exact ⟨unit, List.mem_reverse.mp (List.mem_of_find?_eq_some first), n / unit.2, rfl,
    Nat.div_mul_cancel (Nat.dvd_of_mod_eq_zero divides.2)⟩

/-- A printed number: digits, and nothing or a unit the parser knows. -/
structure Counted (units : List (Char × Nat)) (isSize : Bool) (n m k : Nat) (u : Str) : Prop where
  unit : ∀ c ∈ u, ¬c.isDigit ∧ c ≠ '.' ∧ isGraphic c ∧ c ∉ ['|', '\'', '\\']
  known : multiplier units isSize u = some k
  positive : 0 < k
  product : m * k = n

theorem counted_unit {units : List (Char × Nat)} {isSize : Bool} {n : Nat} {s : Str}
    (known : ∀ unit ∈ units, multiplier units isSize [unit.1] = some unit.2 ∧ 0 < unit.2 ∧
      ¬unit.1.isDigit ∧ unit.1 ≠ '.' ∧ isGraphic unit.1 ∧ unit.1 ∉ ['|', '\'', '\\'])
    (found : inUnit units n = some s) : ∃ m u k, s = digits m ++ u ∧ Counted units isSize n m k u := by
  obtain ⟨unit, member, m, rfl, product⟩ := inUnit_eq_some found
  obtain ⟨mult, positive, plain⟩ := known unit member
  refine ⟨m, [unit.1], unit.2, rfl, ?_, mult, positive, product⟩
  intro c here
  rwa [List.mem_singleton.mp here]

theorem counted_size (n : Nat) : ∃ m u k, size n = digits m ++ u ∧ Counted unitsSize true n m k u := by
  rw [size]
  cases found : inUnit unitsSize n with
  | none => exact ⟨n, [], 1, (List.append_nil _).symm, by simp, rfl, Nat.one_pos, Nat.mul_one n⟩
  | some s => exact counted_unit (by decide +kernel) found

theorem counted_age (n : Nat) : ∃ m u k, age n = digits m ++ u ∧ Counted unitsAge false n m k u := by
  rw [age]
  cases found : inUnit unitsAge n with
  | none => exact ⟨n, ['s'], 1, rfl, by simp; decide, rfl, Nat.one_pos, Nat.mul_one n⟩
  | some s => exact counted_unit (by decide +kernel) found

namespace Counted

variable {units : List (Char × Nat)} {isSize : Bool} {n m k : Nat} {u : Str}

theorem number_eq (counted : Counted units isSize n m k u) {pieces : List Piece}
    (spells : Spells pieces (raws (digits m ++ u))) (fits : n < 2 ^ 64) :
    number pieces units isSize = some n := by
  rw [← counted.product] at fits ⊢
  exact number_digits spells (fun c member => ⟨(counted.unit c member).1, (counted.unit c member).2.1⟩)
    counted.known counted.positive fits

theorem clear (counted : Counted units isSize n m k u) : Clear false (raws (digits m ++ u)) := by
  rw [raws, List.map_append]
  exact (clear_digits m).append (clear_graphic fun c member => (counted.unit c member).2.2)

end Counted

/-- It starts with a digit, so no comparison goes on into it. -/
theorem digits_head (m : Nat) (u : Str) : ∃ c rest, digits m ++ u = c :: rest ∧ c.isDigit := by
  cases spelled : digits m with
  | nil => exact absurd spelled Nat.toDigits_ne_nil
  | cons c rest => exact ⟨c, rest ++ u, rfl, digits_isDigit (spelled ▸ List.mem_cons_self)⟩

/-! Terms. -/

section Terms

variable {unicode : Unicode} {pieces : List Piece}

theorem plainPrefix_self {k : Str} {rest : List Glyph} (low : isAscii k)
    (spells : Spells pieces (raws k ++ rest)) : plainPrefix pieces (encode k) = true :=
  (spells.plainPrefix low).mpr ⟨rest, rfl⟩

theorem plainPrefix_other {k : Str} {glyphs : List Glyph} (low : isAscii k)
    (spells : Spells pieces glyphs) (other : ∀ rest, glyphs ≠ raws k ++ rest) :
    plainPrefix pieces (encode k) = false := by
  rw [Bool.eq_false_iff, Ne, spells.plainPrefix low]
  rintro ⟨rest, same⟩
  exact other rest same

theorem plainEq_other {k : Str} {glyphs : List Glyph} (low : isAscii k)
    (spells : Spells pieces glyphs) (other : glyphs ≠ raws k) : plainEq pieces (encode k) = false := by
  rw [Bool.eq_false_iff, Ne, spells.plainEq low]
  exact other

theorem startsWith_raws (k : String) (rest : List Glyph) : startsWith k (spell (raws k.toList ++ rest)) = true := by
  rw [startsWith, spell_append, spell_raws, List.isPrefixOf_iff_prefix]
  exact List.prefix_append _ _

theorem plainPrefix_spelled {k : String} {glyphs : List Glyph} (low : isAscii k.toList)
    (spells : Spells pieces glyphs) (bare : startsWith k (spell glyphs) = false) :
    plainPrefix pieces (ascii k) = false := by
  apply plainPrefix_other low spells
  rintro rest rfl
  rw [startsWith_raws] at bare
  cases bare

theorem keyedCmp_bare {k : String} {glyphs : List Glyph} (low : isAscii k.toList)
    (spells : Spells pieces glyphs) (bare : startsWith k (spell glyphs) = true →
      ((spell glyphs).drop k.length).head?.any (· ∈ ['<', '>', '=']) = false) :
    keyedCmp pieces (ascii k) = none := by
  rw [keyedCmp]
  split
  next starts =>
    obtain ⟨rest, rfl⟩ := (spells.plainPrefix low).mp starts
    have operators : ∀ op ∈ comparisons, ∃ c s, op.1 = encode (c :: s) ∧ c ∈ ['<', '>', '='] ∧
        isAscii (c :: s) := by
      intro op member
      simp only [comparisons, List.mem_cons, List.not_mem_nil, or_false] at member
      rcases member with rfl | rfl | rfl | rfl | rfl
      · exact ⟨'<', ['='], rfl, by decide⟩
      · exact ⟨'>', ['='], rfl, by decide⟩
      · exact ⟨'<', [], rfl, by decide⟩
      · exact ⟨'>', [], rfl, by decide⟩
      · exact ⟨'=', [], rfl, by decide⟩
    have none : comparisons.find? (fun op => plainPrefix (pieces.drop (ascii k).length) op.1) = none := by
      rw [List.find?_eq_none]
      intro op member
      obtain ⟨c, s, written, operator, low'⟩ := operators op member
      rw [written, ascii, spells.drop.plainPrefix low']
      rintro ⟨more, rfl⟩
      have length : k.length = k.toList.length := String.length_toList.symm
      have first := bare (startsWith_raws k _)
      rw [spell_append, spell_raws, length, List.drop_left, spell_append, spell_raws] at first
      simp only [List.cons_append, List.head?_cons, Option.any_some, decide_eq_false_iff_not] at first
      exact first operator
    rw [none]
    rfl
  next => rfl

theorem keyedCmp_written {k : Str} {cmp : Cmp} {number : List Glyph} {c : Char} {more : List Glyph}
    (low : isAscii k) (spells : Spells pieces (raws k ++ (raws cmp.asStr ++ number)))
    (first : number = .raw c :: more) (digit : c.isDigit) :
    keyedCmp pieces (encode k) = some (cmp, (encode k).length + (encode cmp.asStr).length) := by
  have noEqual : c ≠ '=' := by
    rintro rfl
    cases digit
  have found : comparisons.find? (fun op => plainPrefix (pieces.drop (encode k).length) op.1) =
      some (encode cmp.asStr, cmp) := by
    have spells' := spells.drop
    have own : plainPrefix (pieces.drop (encode k).length) (encode cmp.asStr) :=
      plainPrefix_self (by cases cmp <;> decide) spells'
    have other (s : Str) (low' : isAscii s)
        (apart : ∀ rest, raws cmp.asStr ++ number ≠ raws s ++ rest) :
        plainPrefix (pieces.drop (encode k).length) (encode s) = false := plainPrefix_other low' spells' apart
    subst first
    cases cmp with
    | lt =>
      have le := other "<=".toList (by decide) (by simp [raws, Cmp.asStr, noEqual])
      have ge := other ">=".toList (by decide) (by simp [raws, Cmp.asStr])
      simp only [comparisons, ascii, List.find?_cons, le, ge]
      rw [show plainPrefix _ (encode "<".toList) = true from own]
      rfl
    | le =>
      simp only [comparisons, ascii, List.find?_cons]
      rw [show plainPrefix _ (encode "<=".toList) = true from own]
      rfl
    | gt =>
      have le := other "<=".toList (by decide) (by simp [raws, Cmp.asStr])
      have ge := other ">=".toList (by decide) (by simp [raws, Cmp.asStr, noEqual])
      have lt := other "<".toList (by decide) (by simp [raws, Cmp.asStr])
      simp only [comparisons, ascii, List.find?_cons, le, ge, lt]
      rw [show plainPrefix _ (encode ">".toList) = true from own]
      rfl
    | ge =>
      have le := other "<=".toList (by decide) (by simp [raws, Cmp.asStr])
      simp only [comparisons, ascii, List.find?_cons, le]
      rw [show plainPrefix _ (encode ">=".toList) = true from own]
      rfl
    | eq =>
      have le := other "<=".toList (by decide) (by simp [raws, Cmp.asStr])
      have ge := other ">=".toList (by decide) (by simp [raws, Cmp.asStr])
      have lt := other "<".toList (by decide) (by simp [raws, Cmp.asStr])
      have gt := other ">".toList (by decide) (by simp [raws, Cmp.asStr])
      simp only [comparisons, ascii, List.find?_cons, le, ge, lt, gt]
      rw [show plainPrefix _ (encode "=".toList) = true from own]
      rfl
  rw [keyedCmp, plainPrefix_self low spells, found]
  rfl

/-- A comma typed plain is only ever the one between two extensions. -/
theorem no_comma {glyphs : List Glyph} (clear : Clear true glyphs) (i : Nat) :
    ∀ q ∈ layout i glyphs, (q.plain && q.byte = ','.toUInt8) = false := by
  induction glyphs generalizing i with
  | nil => simp [layout]
  | cons g glyphs ih =>
    intro q member
    cases g with
    | raw c =>
      rcases List.mem_append.mp member with own | later
      · have other := (clear c List.mem_cons_self).comma rfl
        have here : q.byte ∈ String.utf8EncodeChar c := by
          rw [← bytes_piecesFrom true i (String.utf8EncodeChar c)]
          exact List.mem_map_of_mem own
        rw [Bool.and_eq_false_iff, decide_eq_false_iff_not]
        refine .inr fun comma => other ?_
        rw [comma] at here
        exact Char.toNat_inj.mp (encodeChar_byte_lt here (by decide)).2
      · exact ih clear.tail _ q later
    | esc b =>
      rcases List.mem_cons.mp member with rfl | later
      · rfl
      · exact ih clear.tail _ q later

theorem splitOnP_commas {list : List (List Glyph)} (some_ : list ≠ [])
    (clear : ∀ glyphs ∈ list, Clear true glyphs) (i : Nat) :
    ((layout i ([.raw ','].intercalate list)).splitOnP fun q => q.plain && q.byte = ','.toUInt8).map bytes =
      list.map glyphBytes := by
  induction list generalizing i with
  | nil => exact absurd rfl some_
  | cons first more ih =>
    have clear' := clear first List.mem_cons_self
    cases more with
    | nil =>
      rw [List.intercalate_singleton, List.splitOnP_eq_singleton (no_comma clear' i)]
      simp
    | cons second more =>
      have spread : [Glyph.raw ','].intercalate (first :: second :: more) =
          first ++ (.raw ',' :: [Glyph.raw ','].intercalate (second :: more)) := by
        simp [List.intercalate]
      have comma (j : Nat) (rest : List Glyph) :
          layout j (.raw ',' :: rest) = ⟨','.toUInt8, true, j⟩ :: layout (j + 1) rest := rfl
      rw [spread, layout_append, comma,
        List.splitOnP_append_cons_of_forall_mem (no_comma clear' i) _ (by rfl), List.map_cons,
        ih (by simp) fun glyphs member => clear glyphs (List.mem_cons_of_mem _ member)]
      simp

/-- A glob that does not read as syntax is taken whole. -/
theorem pred_bare {glyphs : List Glyph} (spells : Spells pieces glyphs)
    (bare : readsAsSyntax (spell glyphs) = false) (start : Nat) :
    pred start pieces = .ok (.name (glyphBytes glyphs)) ∧ plainPrefix pieces (ascii "!") = false := by
  simp only [readsAsSyntax, Bool.or_eq_false_iff] at bare
  obtain ⟨⟨⟨⟨⟨⟨bang, ext⟩, name⟩, literal⟩, type⟩, size⟩, age⟩ := bare
  have unkeyed (k : String) (low : isAscii k.toList)
      (off : (startsWith k (spell glyphs) &&
        ((spell glyphs).drop k.length).head?.any (· ∈ ['<', '>', '='])) = false) :
      keyedCmp pieces (ascii k) = none := by
    apply keyedCmp_bare low spells
    intro starts
    rwa [starts, Bool.true_and] at off
  refine ⟨?_, plainPrefix_spelled (by decide) spells bang⟩
  rw [pred, plainPrefix_spelled (by decide) spells ext, plainPrefix_spelled (by decide) spells name,
    plainPrefix_spelled (by decide) spells literal, plainPrefix_spelled (by decide) spells type,
    unkeyed "size" (by decide) size, unkeyed "age" (by decide) age, spells.bytes_eq]
  rfl

theorem pred_name {k : Str} {name : List Glyph} (key : k = "name:".toList)
    (spells : Spells pieces (raws k ++ name)) (start : Nat) :
    pred start pieces = .ok (.name (glyphBytes name)) := by
  subst key
  have ext : plainPrefix pieces (ascii "ext:") = false :=
    plainPrefix_other (by decide) spells (by simp [raws])
  have name_ : plainPrefix pieces (ascii "name:") = true := plainPrefix_self (by decide) spells
  rw [pred, ext, name_]
  exact congrArg (fun n => Except.ok (Pred.name n)) spells.drop.bytes_eq

theorem kindSel_printed (start : Nat) (kind : KindSel) :
    ∃ value, raws kind.asStr = raws "type:".toList ++ raws value ∧
      ∀ {rest : List Piece}, Spells rest (raws value) → kindSel start rest = .ok kind := by
  cases kind with
  | file =>
    refine ⟨"file".toList, rfl, fun {rest} spells => ?_⟩
    have file : plainEq rest (ascii "file") = true := (spells.plainEq (by decide)).mpr rfl
    rw [kindSel, file]
    rfl
  | dir =>
    refine ⟨"dir".toList, rfl, fun {rest} spells => ?_⟩
    have file : plainEq rest (ascii "file") = false := plainEq_other (by decide) spells (by simp [raws])
    have dir : plainEq rest (ascii "dir") = true := (spells.plainEq (by decide)).mpr rfl
    rw [kindSel, file, dir]
    rfl
  | link =>
    refine ⟨"link".toList, rfl, fun {rest} spells => ?_⟩
    have file : plainEq rest (ascii "file") = false := plainEq_other (by decide) spells (by simp [raws])
    have dir : plainEq rest (ascii "dir") = false := plainEq_other (by decide) spells (by simp [raws])
    have link : plainEq rest (ascii "link") = true := (spells.plainEq (by decide)).mpr rfl
    rw [kindSel, file, dir, link]
    rfl

theorem pred_printed {p : Pred} (wf : p.Wf) (spells : Spells pieces (predGlyphs unicode p)) (start : Nat) :
    pred start pieces = .ok p := by
  cases p with
  | ext list =>
    have ext : plainPrefix pieces (ascii "ext:") = true := plainPrefix_self (by decide) spells
    obtain ⟨i, after⟩ := spells.drop
    have clear : ∀ gs ∈ list.map fun e => glyphs unicode e true, Clear true gs := by
      intro gs member
      obtain ⟨e, _, rfl⟩ := List.mem_map.mp member
      exact glyphs_clear e true
    have listed := splitOnP_commas (fun none => wf (List.map_eq_nil_iff.mp none)) clear i
    have back : (list.map fun e => glyphs unicode e true).map glyphBytes = list := by
      rw [List.map_map]
      refine (List.map_congr_left fun e _ => ?_).trans (List.map_id list)
      exact glyphBytes_glyphs e true
    rw [pred, if_pos ext]
    refine congrArg (fun l => Except.ok (Pred.ext l)) ?_
    rw [← back, ← listed, ← after]
    rfl
  | name n =>
    rw [predGlyphs, nameGlyphs] at spells
    split at spells
    · rw [pred_name rfl spells, glyphBytes_glyphs]
    next plain =>
      simp only [Bool.or_eq_true, not_or, Bool.not_eq_true] at plain
      rw [List.nil_append] at spells
      rw [(pred_bare spells plain.2 start).1, glyphBytes_glyphs]
  | literal n =>
    have ext : plainPrefix pieces (ascii "ext:") = false :=
      plainPrefix_other (by decide) spells (by simp [raws, predGlyphs])
    have name : plainPrefix pieces (ascii "name:") = false :=
      plainPrefix_other (by decide) spells (by simp [raws, predGlyphs])
    have literal : plainPrefix pieces (ascii "name=") = true := plainPrefix_self (by decide) spells
    rw [pred, ext, name, literal]
    refine congrArg (fun n => Except.ok (Pred.literal n)) (spells.drop.bytes_eq.trans ?_)
    exact glyphBytes_glyphs n false
  | size cmp n =>
    obtain ⟨m, u, k, written, counted⟩ := counted_size n
    obtain ⟨c, more, first, digit⟩ := digits_head m u
    rw [predGlyphs, written] at spells
    have other (s : Str) (low : isAscii s)
        (apart : ∀ rest, raws "size".toList ++ (raws cmp.asStr ++ raws (digits m ++ u)) ≠ raws s ++ rest) :
        plainPrefix pieces (encode s) = false := plainPrefix_other low spells apart
    have ext := other "ext:".toList (by decide) (by simp [raws])
    have name := other "name:".toList (by decide) (by simp [raws])
    have literal := other "name=".toList (by decide) (by simp [raws])
    have type := other "type:".toList (by decide) (by simp [raws])
    have cmp_ := keyedCmp_written (by decide) spells (by rw [first]; rfl) digit
    have length : ((encode "size".toList).length + (encode cmp.asStr).length) =
        (encode ("size".toList ++ cmp.asStr)).length := by rw [encode_append, List.length_append]
    have value : number (pieces.drop ((encode "size".toList).length + (encode cmp.asStr).length)) unitsSize true =
        some n := by
      rw [← List.drop_drop]
      exact counted.number_eq spells.drop.drop wf
    simp only [pred, ascii, ext, name, literal, type, cmp_, value, Bool.false_eq_true, ↓reduceIte]
  | age cmp n =>
    obtain ⟨m, u, k, written, counted⟩ := counted_age n
    obtain ⟨c, more, first, digit⟩ := digits_head m u
    rw [predGlyphs, written] at spells
    have other (s : Str) (low : isAscii s)
        (apart : ∀ rest, raws "age".toList ++ (raws cmp.asStr ++ raws (digits m ++ u)) ≠ raws s ++ rest) :
        plainPrefix pieces (encode s) = false := plainPrefix_other low spells apart
    have ext := other "ext:".toList (by decide) (by simp [raws])
    have name := other "name:".toList (by decide) (by simp [raws])
    have literal := other "name=".toList (by decide) (by simp [raws])
    have type := other "type:".toList (by decide) (by simp [raws])
    have size : keyedCmp pieces (encode "size".toList) = none := by
      rw [keyedCmp, other "size".toList (by decide) (by simp [raws])]
      rfl
    have cmp_ := keyedCmp_written (by decide) spells (by rw [first]; rfl) digit
    have value : number (pieces.drop ((encode "age".toList).length + (encode cmp.asStr).length)) unitsAge false =
        some n := by
      rw [← List.drop_drop]
      exact counted.number_eq spells.drop.drop wf
    simp only [pred, ascii, ext, name, literal, type, size, cmp_, value, Bool.false_eq_true, ↓reduceIte]
  | kind kind =>
    obtain ⟨value, same, parsed⟩ := kindSel_printed start kind
    rw [predGlyphs, same] at spells
    have ext : plainPrefix pieces (ascii "ext:") = false := plainPrefix_other (by decide) spells (by simp [raws])
    have name : plainPrefix pieces (ascii "name:") = false := plainPrefix_other (by decide) spells (by simp [raws])
    have literal : plainPrefix pieces (ascii "name=") = false :=
      plainPrefix_other (by decide) spells (by simp [raws])
    have type : plainPrefix pieces (ascii "type:") = true := plainPrefix_self (by decide) spells
    have sel : kindSel start (pieces.drop 5) = .ok kind := parsed spells.drop
    rw [pred, ext, name, literal, type, sel]
    rfl

theorem clear_intercalate {list : List (List Glyph)} (clear : ∀ glyphs ∈ list, Clear false glyphs) :
    Clear false ([.raw ','].intercalate list) := by
  induction list with
  | nil => intro c member; cases member
  | cons first more ih =>
    have clear' := clear first List.mem_cons_self
    have comma : Clear false [.raw ','] := clear_keyword (s := [',']) (by decide)
    cases more with
    | nil => rwa [List.intercalate_singleton]
    | cons second more =>
      have spread : [Glyph.raw ','].intercalate (first :: second :: more) =
          first ++ ([.raw ','] ++ [Glyph.raw ','].intercalate (second :: more)) := by
        simp [List.intercalate]
      rw [spread]
      exact clear'.append (comma.append (ih fun glyphs member => clear glyphs (List.mem_cons_of_mem _ member)))

theorem clear_pred (p : Pred) : Clear false (predGlyphs unicode p) := by
  cases p with
  | ext list =>
    refine (clear_keyword (by decide)).append (clear_intercalate ?_)
    intro glyphs member
    obtain ⟨e, _, rfl⟩ := List.mem_map.mp member
    exact (glyphs_clear e true).weaken
  | name n =>
    rw [predGlyphs, nameGlyphs]
    refine Clear.append ?_ (glyphs_clear n false)
    split
    · exact clear_keyword (by decide)
    · intro c member
      cases member
  | literal n => exact (clear_keyword (by decide)).append (glyphs_clear n false)
  | size cmp n =>
    obtain ⟨m, u, k, written, counted⟩ := counted_size n
    rw [predGlyphs, written]
    exact (clear_keyword (by decide)).append ((clear_keyword (by cases cmp <;> decide)).append counted.clear)
  | age cmp n =>
    obtain ⟨m, u, k, written, counted⟩ := counted_age n
    rw [predGlyphs, written]
    exact (clear_keyword (by decide)).append ((clear_keyword (by cases cmp <;> decide)).append counted.clear)
  | kind k => exact clear_keyword (s := k.asStr) (by cases k <;> decide)

theorem raws_append_ne_nil {k : Str} (some_ : k ≠ []) (rest : List Glyph) : raws k ++ rest ≠ [] := by
  intro none
  exact some_ (List.map_eq_nil_iff.mp (List.append_eq_nil_iff.mp none).1)

theorem predGlyphs_ne_nil (p : Pred) : predGlyphs unicode p ≠ [] := by
  cases p with
  | ext list => exact raws_append_ne_nil (by decide) _
  | name n =>
    rw [predGlyphs, nameGlyphs]
    split
    · exact raws_append_ne_nil (by decide) _
    next plain =>
      intro none
      rw [List.nil_append] at none
      rw [escape, none] at plain
      exact plain rfl
  | literal n => exact raws_append_ne_nil (by decide) _
  | size cmp n => exact raws_append_ne_nil (by decide) _
  | age cmp n => exact raws_append_ne_nil (by decide) _
  | kind k => cases k <;> exact List.cons_ne_nil _ _

/-- No predicate is printed as a negation. -/
theorem pred_bang {p : Pred} (spells : Spells pieces (predGlyphs unicode p)) :
    plainPrefix pieces (ascii "!") = false := by
  have other (apart : ∀ rest, predGlyphs unicode p ≠ raws "!".toList ++ rest) :
      plainPrefix pieces (ascii "!") = false := plainPrefix_other (by decide) spells apart
  cases p with
  | ext list => exact other (by simp [raws, predGlyphs])
  | name n =>
    rw [predGlyphs, nameGlyphs] at spells
    split at spells
    · exact plainPrefix_other (by decide) spells (by simp [raws])
    next plain =>
      simp only [Bool.or_eq_true, not_or, Bool.not_eq_true] at plain
      rw [List.nil_append] at spells
      exact (pred_bare spells plain.2 0).2
  | literal n => exact other (by simp [raws, predGlyphs])
  | size cmp n => exact other (by simp [raws, predGlyphs])
  | age cmp n => exact other (by simp [raws, predGlyphs])
  | kind k =>
    obtain ⟨value, same, _⟩ := kindSel_printed 0 k
    exact other (by rw [predGlyphs, same]; simp [raws])

theorem term_printed {w : Word} {t : Term} (wf : t.pred.Wf) (printed : Printed w (termGlyphs unicode t)) :
    term w = .ok t := by
  obtain ⟨negated, p⟩ := t
  have body : ∃ body, plainPrefix w.pieces (ascii "!") = negated ∧
      (if negated then w.pieces.tail else w.pieces) = body ∧ Spells body (predGlyphs unicode p) := by
    cases negated with
    | true =>
      have bang : plainPrefix w.pieces (ascii "!") = true := plainPrefix_self (k := ['!']) (by decide) printed
      exact ⟨_, bang, rfl, List.drop_one ▸ Spells.drop (k := ['!']) printed⟩
    | false => exact ⟨_, pred_bang printed, rfl, printed⟩
  obtain ⟨body, bang, same, spells⟩ := body
  have some_ : body.isEmpty = false := by
    rw [spells.isEmpty_eq, List.isEmpty_eq_false_iff]
    exact predGlyphs_ne_nil p
  rw [term]
  simp only [bang, same, some_, Bool.false_eq_true, ↓reduceIte]
  rw [spells.noInvisible (clear_pred p), pred_printed wf spells]
  rfl

theorem terms_printed {args : List Word} {ts : List Term} (wf : ∀ t ∈ ts, t.pred.Wf)
    (printed : List.Forall₂ Printed args (ts.map (termGlyphs unicode))) : terms args = .ok ts := by
  induction ts generalizing args with
  | nil =>
    cases printed
    rfl
  | cons t ts ih =>
    cases printed with
    | cons first rest =>
      rw [terms, term_printed (wf t List.mem_cons_self) first,
        ih (fun t member => wf t (List.mem_cons_of_mem _ member)) rest]
      rfl

end Terms

/-! Stages. -/

section Stages

variable {unicode : Unicode}

theorem clear_dest (d : Dest) : Clear false (destGlyphs unicode d) := by
  cases d with
  | other => exact clear_keyword (by decide)
  | here => exact clear_keyword (by decide)
  | path p =>
    rw [destGlyphs]
    split
    · exact (clear_escs false [p.headD 0]).append (glyphs_clear p.tail false)
    · exact glyphs_clear p false

theorem glyphBytes_path (p : Bytes) : glyphBytes (destGlyphs unicode (.path p)) = p := by
  rw [destGlyphs]
  split
  next keyword =>
    rw [glyphBytes_cons, glyphBytes_glyphs]
    rcases keyword with rfl | rfl <;> rfl
  next => exact glyphBytes_glyphs p false

/-- A path is never printed as one of the two keywords. -/
theorem path_ne_keyword {p : Bytes} {k : Str} (keyword : encode k = ascii "other" ∨ encode k = ascii "here") :
    destGlyphs unicode (.path p) ≠ raws k := by
  intro same
  have whole : p = encode k := by
    have path : glyphBytes (destGlyphs unicode (.path p)) = p := glyphBytes_path p
    rw [← path, same, glyphBytes_raws]
  subst whole
  rw [destGlyphs, if_pos keyword] at same
  cases k with
  | nil => cases same
  | cons c k => cases same

theorem dest_printed {w : Word} {d : Dest} (wf : d.Wf) (printed : Printed w (raws ['>'] ++ destGlyphs unicode d))
    (stop : Nat) : dest [w] stop = .ok d := by
  have arrow : plainPrefix w.pieces (ascii ">") = true := plainPrefix_self (k := ['>']) (by decide) printed
  have body : Spells w.pieces.tail (destGlyphs unicode d) := List.drop_one ▸ Spells.drop (k := ['>']) printed
  have some_ : destGlyphs unicode d ≠ [] := by
    cases d with
    | other => simp [destGlyphs, raws]
    | here => simp [destGlyphs, raws]
    | path p =>
      intro none
      apply wf
      have path : glyphBytes (destGlyphs unicode (.path p)) = p := glyphBytes_path p
      rw [← path, none]
      rfl
  have rest : w.pieces.tail ≠ [] := fun none => some_ (body.eq_nil.mp none)
  have length : w.pieces.length ≠ 1 := by
    intro one
    apply rest
    rw [← List.length_eq_zero_iff, List.length_tail, one]
  have split : destBody w [] = some (w.pieces.tail, []) := by rw [destBody, if_neg length]
  rw [dest, arrow]
  simp only [Bool.not_true, Bool.false_eq_true, ↓reduceIte, split, List.isEmpty_iff, rest]
  rw [body.noInvisible (clear_dest d)]
  cases d with
  | other =>
    have other : plainEq w.pieces.tail (ascii "other") = true := (body.plainEq (by decide)).mpr rfl
    simp only [other, noArgs]
    rfl
  | here =>
    have other : plainEq w.pieces.tail (ascii "other") = false :=
      plainEq_other (by decide) body (by simp [raws, destGlyphs])
    have here : plainEq w.pieces.tail (ascii "here") = true := (body.plainEq (by decide)).mpr rfl
    simp only [other, here, noArgs]
    rfl
  | path p =>
    have other : plainEq w.pieces.tail (ascii "other") = false :=
      plainEq_other (by decide) body (path_ne_keyword (.inl rfl))
    have here : plainEq w.pieces.tail (ascii "here") = false :=
      plainEq_other (by decide) body (path_ne_keyword (.inr rfl))
    simp only [other, here, noArgs, body.bytes_eq, glyphBytes_path]
    rfl

theorem oneArg_printed {w : Word} {n : Bytes} (wf : n ≠ []) (printed : Printed w (glyphs unicode n false))
    (stop : Nat) : oneArg [w] stop = .ok n := by
  have some_ : w.pieces.isEmpty = false := by
    rw [Spells.isEmpty_eq printed, List.isEmpty_eq_false_iff]
    exact glyphs_ne_nil wf false
  simp only [oneArg, some_, Bool.false_eq_true, ↓reduceIte]
  rw [Spells.noInvisible printed (glyphs_clear n false), Spells.bytes_eq printed, glyphBytes_glyphs]
  rfl

theorem count_printed {args : List Word} {n : Option Nat} (wf : ∀ m ∈ n, m < 2 ^ 32)
    (printed : List.Forall₂ Printed args (n.toList.map fun m => raws (digits m))) : count args = .ok n := by
  cases n with
  | none =>
    cases printed
    rfl
  | some m =>
    cases printed with
    | cons first rest =>
      cases rest
      have some_ : digits m ≠ [] := Nat.toDigits_ne_nil
      have all : (digits m).all Char.isDigit := List.all_eq_true.mpr fun c member => digits_isDigit member
      rw [count, Spells.plainText first, Option.bind_some, if_pos ⟨some_, all⟩, parseDigits_digits (wf m rfl)]
      rfl

theorem stage_verb {verb : Word} {v : Str} (clear : Clear false (raws v)) (printed : Printed verb (raws v))
    (args : List Word) (stop : Nat) : stage verb args stop = stageOf v verb.start args stop := by
  rw [stage, Spells.noInvisible printed clear, Spells.plainText printed]
  rfl

theorem clear_catalogue {id : Str} (valid : isCatalogueId id) : Clear false (raws id) := by
  rw [isCatalogueId, Bool.and_eq_true, List.all_eq_true] at valid
  apply clear_graphic
  intro c member
  have kind := valid.2 c member
  simp only [Bool.or_eq_true, Bool.and_eq_true, decide_eq_true_eq] at kind
  rcases kind with (lower | digit) | other
  · have low : 97 ≤ c.toNat := lower.1
    have high : c.toNat ≤ 122 := lower.2
    refine ⟨by simp only [isGraphic, Bool.and_eq_true, decide_eq_true_eq]; omega, ?_⟩
    intro special
    simp only [List.mem_cons, List.not_mem_nil, or_false] at special
    rcases special with rfl | rfl | rfl <;> revert low high <;> decide
  · obtain ⟨low, high⟩ := digit_range digit
    refine ⟨by simp only [isGraphic, Bool.and_eq_true, decide_eq_true_eq]; omega, ?_⟩
    intro special
    simp only [List.mem_cons, List.not_mem_nil, or_false] at special
    rcases special with rfl | rfl | rfl <;> revert low high <;> decide
  · simp only [List.mem_cons, List.not_mem_nil, or_false] at other
    rcases other with rfl | rfl | rfl <;> decide

/-- Every stage the parser can produce is read back from its printed words. -/
theorem stage_printed {words : List Word} {s : Stage} (wf : s.Wf)
    (printed : (phrase unicode s).Printed words) : ∃ verb args, words = verb :: args ∧
      ∀ stop, stage verb args stop = .ok s := by
  cases printed with
  | @cons verb _ args _ first rest =>
  refine ⟨verb, args, rfl, fun stop => ?_⟩
  cases s with
  | sel q =>
    have some_ : args.isEmpty = false := by
      rw [List.isEmpty_eq_false_iff]
      rintro rfl
      generalize listed : (phrase unicode (.sel q)).args = list at rest
      cases rest
      exact wf.1 (List.map_eq_nil_iff.mp listed)
    rw [stage_verb (clear_keyword (by decide)) first, stageOf, if_pos rfl, terms_printed wf.2 rest, some_]
    rfl
  | cp d =>
    cases rest with
    | cons second none =>
      cases none
      rw [stage_verb (clear_keyword (by decide)) first, stageOf, if_neg (by decide), if_pos rfl,
        dest_printed wf second]
      rfl
  | mv d =>
    cases rest with
    | cons second none =>
      cases none
      rw [stage_verb (clear_keyword (by decide)) first, stageOf, if_neg (by decide), if_neg (by decide),
        if_pos rfl, dest_printed wf second]
      rfl
  | trash =>
    cases rest
    rw [stage_verb (clear_keyword (by decide)) first]
    rfl
  | mkdir n =>
    cases rest with
    | cons second none =>
      cases none
      rw [stage_verb (clear_keyword (by decide)) first, stageOf]
      simp only [↓reduceIte, oneArg_printed wf second]
      rfl
  | cd n =>
    cases rest with
    | cons second none =>
      cases none
      rw [stage_verb (clear_keyword (by decide)) first, stageOf]
      simp only [↓reduceIte, oneArg_printed wf second]
      rfl
  | log n =>
    rw [stage_verb (clear_keyword (by decide)) first, stageOf]
    simp only [↓reduceIte, count_printed wf rest]
    rfl
  | undo n =>
    rw [stage_verb (clear_keyword (by decide)) first, stageOf]
    simp only [↓reduceIte, count_printed wf rest]
    rfl
  | catalogue id =>
    have valid : isCatalogueId id = true := wf
    have other : ∀ v ∈ "redo".toList :: verbs, id ≠ v := by
      rintro v member rfl
      revert valid
      simp only [verbs, List.mem_cons, List.not_mem_nil, or_false] at member
      rcases member with rfl | rfl | rfl | rfl | rfl | rfl | rfl | rfl | rfl <;> decide
    simp only [verbs, List.forall_mem_cons] at other
    cases rest
    rw [stage_verb (clear_catalogue valid) first, stageOf]
    simp only [other, ↓reduceIte, valid]
    rfl

theorem clear_term (t : Term) : Clear false (termGlyphs unicode t) := by
  rw [termGlyphs]
  refine Clear.append ?_ (clear_pred t.pred)
  split
  · exact clear_keyword (by decide)
  · intro c member
    cases member

theorem termGlyphs_ne_nil (t : Term) : termGlyphs unicode t ≠ [] := by
  intro none
  exact predGlyphs_ne_nil t.pred (List.append_eq_nil_iff.mp none).2

theorem written_keyword {k : Str} (some_ : k ≠ []) (keyword : isKeyword k) :
    Written (raws k) := ⟨fun none => some_ (List.map_eq_nil_iff.mp none), clear_keyword keyword⟩

theorem written_count (n : Option Nat) : ∀ glyphs ∈ n.toList.map fun m => raws (digits m), Written glyphs := by
  intro glyphs member
  obtain ⟨m, _, rfl⟩ := List.mem_map.mp member
  exact ⟨fun none => Nat.toDigits_ne_nil (List.map_eq_nil_iff.mp none), clear_digits m⟩

theorem written_dest (d : Dest) : ∀ glyphs ∈ [raws ['>'] ++ destGlyphs unicode d], Written glyphs := by
  intro glyphs member
  rw [List.mem_singleton.mp member]
  exact ⟨raws_append_ne_nil (by decide) _, (clear_keyword (by decide)).append (clear_dest d)⟩

theorem written_name {n : Bytes} (wf : n ≠ []) : ∀ gs ∈ [glyphs unicode n false], Written gs := by
  intro gs member
  rw [List.mem_singleton.mp member]
  exact ⟨glyphs_ne_nil wf false, glyphs_clear n false⟩

theorem phrase_written {s : Stage} (wf : s.Wf) : (phrase unicode s).Written := by
  cases s with
  | sel q =>
    refine ⟨written_keyword (by decide) (by decide), ?_⟩
    intro glyphs member
    obtain ⟨t, _, rfl⟩ := List.mem_map.mp member
    exact ⟨termGlyphs_ne_nil t, clear_term t⟩
  | cp d => exact ⟨written_keyword (by decide) (by decide), written_dest d⟩
  | mv d => exact ⟨written_keyword (by decide) (by decide), written_dest d⟩
  | trash => exact ⟨written_keyword (by decide) (by decide), by simp [phrase]⟩
  | mkdir n => exact ⟨written_keyword (by decide) (by decide), written_name wf⟩
  | cd n => exact ⟨written_keyword (by decide) (by decide), written_name wf⟩
  | log n => exact ⟨written_keyword (by decide) (by decide), written_count n⟩
  | undo n => exact ⟨written_keyword (by decide) (by decide), written_count n⟩
  | catalogue id =>
    refine ⟨⟨?_, clear_catalogue wf⟩, by simp [phrase]⟩
    intro none
    have empty : id = [] := List.map_eq_nil_iff.mp none
    subst empty
    have valid : isCatalogueId [] = true := wf
    revert valid
    decide

theorem stages_printed {segs : List (List Word)} {ss : List Stage} (wf : ∀ s ∈ ss, s.Wf)
    (printed : List.Forall₂ Phrase.Printed segs (ss.map (phrase unicode))) (length : Nat) (pipes : List Nat)
    (k : Nat) : stages none length pipes k segs = .ok ss := by
  induction ss generalizing segs k with
  | nil =>
    cases printed
    rfl
  | cons s ss ih =>
    cases printed with
    | cons first rest =>
      obtain ⟨verb, args, rfl, read⟩ := stage_printed (wf s List.mem_cons_self) first
      rw [stages]
      simp only [read, ih (fun s member => wf s (List.mem_cons_of_mem _ member)) rest]
      rfl

/-- An order the parser can produce is read back from its printed line. -/
theorem parse_print {o : Order} (wf : o.Wf) : parse (print unicode o) = .ok o := by
  obtain ⟨ss⟩ := o
  cases ss with
  | nil => exact absurd rfl wf.some_
  | cons s more =>
    have first : (phrase unicode s).Written := phrase_written (wf.stages s List.mem_cons_self)
    have rest : ∀ p ∈ more.map (phrase unicode), p.Written := by
      intro p member
      obtain ⟨t, here, rfl⟩ := List.mem_map.mp member
      exact phrase_written (wf.stages t (List.mem_cons_of_mem _ here))
    obtain ⟨toks, lexed, printed⟩ := lexFrom_line first rest 0
    have line : print unicode ⟨s :: more⟩ =
        " | ".toList.intercalate ((phrase unicode s :: more.map (phrase unicode)).map Phrase.str) := by
      rw [print, ← List.map_cons, List.map_map]
      congr 1
      exact List.map_congr_left fun t member => (phrase_str (wf.stages t member)).symm
    have read := stages_printed wf.stages printed (encode (print unicode ⟨s :: more⟩)).length (pipes toks) 0
    have alone : (if 1 < (s :: more).length then (s :: more).findIdx? Stage.standsAlone else none) = none := by
      split
      next several =>
        rw [List.findIdx?_eq_none_iff]
        intro t member
        exact Bool.eq_false_iff.mpr (wf.alone several t member)
      next => rfl
    rw [parse, lex, line, lexed]
    rw [line] at read
    simp only [read, alone]

end Stages

/-! What the parser produces. -/

theorem bind_eq_ok {x : Except ParseError α} {f : α → Except ParseError β} {r : β}
    (returned : (x >>= f) = .ok r) : ∃ a, x = .ok a ∧ f a = .ok r := by
  cases x with
  | error e => cases returned
  | ok a => exact ⟨a, rfl, returned⟩

theorem map_eq_ok {x : Except ParseError α} {f : α → β} {r : β} (returned : x.map f = .ok r) :
    ∃ a, x = .ok a ∧ f a = r := by
  cases x with
  | error e => cases returned
  | ok a => exact ⟨a, rfl, Except.ok.inj returned⟩

theorem number_lt {pieces : List Piece} {units : List (Char × Nat)} {isSize : Bool} {n : Nat}
    (read : number pieces units isSize = some n) : n < 2 ^ 64 := by
  unfold number at read
  obtain ⟨text, _, read⟩ := Option.bind_eq_some_iff.mp read
  dsimp only at read
  split at read
  · cases read
  obtain ⟨int, _, read⟩ := Option.bind_eq_some_iff.mp read
  obtain ⟨⟨frac, rest⟩, _, read⟩ := Option.bind_eq_some_iff.mp read
  obtain ⟨mult, _, read⟩ := Option.bind_eq_some_iff.mp read
  dsimp only at read
  split at read
  · cases read
  split at read
  next fits =>
    obtain rfl := Option.some.inj read
    exact fits
  next => cases read

theorem pred_wf {start : Nat} {body : List Piece} {p : Pred} (read : pred start body = .ok p) : p.Wf := by
  unfold pred at read
  split at read
  · obtain rfl := Except.ok.inj read
    exact fun none => List.splitOnP_ne_nil _ _ (List.map_eq_nil_iff.mp none)
  split at read
  · obtain rfl := Except.ok.inj read
    trivial
  split at read
  · obtain rfl := Except.ok.inj read
    trivial
  split at read
  · obtain ⟨k, _, rfl⟩ := map_eq_ok read
    trivial
  split at read
  · split at read
    next n value =>
      obtain rfl := Except.ok.inj read
      exact number_lt value
    next => cases read
  split at read
  · split at read
    next n value =>
      obtain rfl := Except.ok.inj read
      exact number_lt value
    next => cases read
  · obtain rfl := Except.ok.inj read
    trivial

theorem term_wf {w : Word} {t : Term} (read : term w = .ok t) : t.pred.Wf := by
  unfold term at read
  extract_lets negated body at read
  split at read
  · cases read
  obtain ⟨_, _, read⟩ := bind_eq_ok read
  obtain ⟨p, parsed, read⟩ := bind_eq_ok read
  obtain rfl := Except.ok.inj read
  exact pred_wf parsed

theorem terms_wf {args : List Word} {ts : List Term} (read : terms args = .ok ts) :
    ts.length = args.length ∧ ∀ t ∈ ts, t.pred.Wf := by
  induction args generalizing ts with
  | nil =>
    obtain rfl := Except.ok.inj read
    exact ⟨rfl, by simp⟩
  | cons w args ih =>
    unfold terms at read
    obtain ⟨first, parsed, read⟩ := bind_eq_ok read
    obtain ⟨rest, parsed', read⟩ := bind_eq_ok read
    obtain rfl := Except.ok.inj read
    obtain ⟨length, wf⟩ := ih parsed'
    refine ⟨by simp [length], ?_⟩
    intro t member
    rcases List.mem_cons.mp member with rfl | later
    · exact term_wf parsed
    · exact wf t later

theorem bytes_ne_nil {pieces : List Piece} (some_ : ¬pieces.isEmpty) : bytes pieces ≠ [] := by
  intro none
  exact some_ (List.isEmpty_iff.mpr (List.map_eq_nil_iff.mp none))

theorem dest_wf {args : List Word} {stop : Nat} {d : Dest} (read : dest args stop = .ok d) : d.Wf := by
  unfold dest at read
  split at read
  · cases read
  split at read
  · obtain ⟨_, _, read⟩ := bind_eq_ok read
    cases read
  split at read
  · cases read
  split at read
  · cases read
  next some_ =>
    obtain ⟨_, _, read⟩ := bind_eq_ok read
    obtain ⟨_, _, read⟩ := bind_eq_ok read
    split at read
    · obtain rfl := Except.ok.inj read
      trivial
    split at read
    · obtain rfl := Except.ok.inj read
      trivial
    · obtain rfl := Except.ok.inj read
      exact bytes_ne_nil some_

theorem oneArg_wf {args : List Word} {stop : Nat} {n : Bytes} (read : oneArg args stop = .ok n) : n ≠ [] := by
  unfold oneArg at read
  split at read
  · cases read
  split at read
  · cases read
  next some_ =>
    obtain ⟨_, _, read⟩ := bind_eq_ok read
    obtain ⟨_, _, read⟩ := bind_eq_ok read
    obtain rfl := Except.ok.inj read
    exact bytes_ne_nil some_

theorem count_wf {args : List Word} {n : Option Nat} (read : count args = .ok n) : ∀ m ∈ n, m < 2 ^ 32 := by
  unfold count at read
  split at read
  · obtain rfl := Except.ok.inj read
    simp
  split at read
  · cases read
  next m parsed =>
    obtain ⟨_, _, read⟩ := bind_eq_ok read
    obtain rfl := Except.ok.inj read
    obtain ⟨t, _, digits⟩ := Option.bind_eq_some_iff.mp parsed
    split at digits
    · rw [parseDigits] at digits
      split at digits
      next fits =>
        obtain rfl := Option.some.inj digits
        intro k same
        rwa [← Option.some.inj same]
      next => cases digits
    · cases digits

theorem stageOf_wf {v : Str} {start stop : Nat} {args : List Word} {s : Stage}
    (read : stageOf v start args stop = .ok s) : s.Wf := by
  unfold stageOf at read
  split at read
  · split at read
    · cases read
    next some_ =>
      obtain ⟨ts, parsed, rfl⟩ := map_eq_ok read
      obtain ⟨length, wf⟩ := terms_wf parsed
      refine ⟨?_, wf⟩
      rintro rfl
      exact some_ (List.isEmpty_iff.mpr (List.eq_nil_of_length_eq_zero length.symm))
  split at read
  · obtain ⟨d, parsed, rfl⟩ := map_eq_ok read
    exact dest_wf parsed
  split at read
  · obtain ⟨d, parsed, rfl⟩ := map_eq_ok read
    exact dest_wf parsed
  split at read
  · obtain ⟨_, _, rfl⟩ := map_eq_ok read
    trivial
  split at read
  · obtain ⟨n, parsed, rfl⟩ := map_eq_ok read
    exact oneArg_wf parsed
  split at read
  · obtain ⟨n, parsed, rfl⟩ := map_eq_ok read
    exact oneArg_wf parsed
  split at read
  · obtain ⟨n, parsed, rfl⟩ := map_eq_ok read
    exact count_wf parsed
  split at read
  · obtain ⟨n, parsed, rfl⟩ := map_eq_ok read
    exact count_wf parsed
  split at read
  · cases read
  split at read
  next valid =>
    obtain ⟨_, _, rfl⟩ := map_eq_ok read
    exact valid
  next => cases read

theorem stage_wf {verb : Word} {args : List Word} {stop : Nat} {s : Stage}
    (read : stage verb args stop = .ok s) : s.Wf := by
  unfold stage at read
  obtain ⟨_, _, read⟩ := bind_eq_ok read
  split at read
  · cases read
  · exact stageOf_wf read

theorem stages_wf {lexError : Option ParseError} {length k : Nat} {pipes : List Nat} {segs : List (List Word)}
    {ss : List Stage} (read : stages lexError length pipes k segs = .ok ss) :
    ss.length = segs.length ∧ ∀ s ∈ ss, s.Wf := by
  induction segs generalizing k ss with
  | nil =>
    obtain rfl := Except.ok.inj read
    exact ⟨rfl, by simp⟩
  | cons seg segs ih =>
    cases seg with
    | nil => cases read
    | cons verb args =>
      unfold stages at read
      simp only at read
      split at read
      · cases read
      next first parsed =>
        obtain ⟨rest, parsed', read⟩ := bind_eq_ok read
        obtain rfl := Except.ok.inj read
        obtain ⟨same, wf⟩ := ih parsed'
        refine ⟨by simp [same], ?_⟩
        intro s member
        rcases List.mem_cons.mp member with rfl | later
        · exact stage_wf parsed
        · exact wf s later

theorem parse_wf {line : Str} {o : Order} (read : parse line = .ok o) : o.Wf := by
  unfold parse at read
  simp only at read
  split at read
  · cases read
  next ss parsed =>
    split at read
    · cases read
    split at read
    · cases read
    next alone =>
      obtain rfl := Except.ok.inj read
      obtain ⟨length, wf⟩ := stages_wf parsed
      refine ⟨?_, wf, ?_⟩
      · rintro rfl
        exact segments_ne_nil _ (List.eq_nil_of_length_eq_zero length.symm)
      · intro several s member
        rw [if_pos several, List.findIdx?_eq_none_iff] at alone
        exact Bool.eq_false_iff.mp (alone s member)

/-- Order lines round-trip, and a name or a destination that the printer escaped for a
line is exactly what the parser reads there, whatever its bytes. -/
theorem print_round_trip (unicode : Unicode) :
    (∀ line o, parse line = .ok o → parse (print unicode o) = .ok o) ∧
    ∀ n : Bytes, n ≠ [] →
      parse ("mkdir ".toList ++ escapeName unicode n) = .ok ⟨[.mkdir n]⟩ ∧
      parse ("cp >".toList ++ escapeDest unicode n) = .ok ⟨[.cp (.path n)]⟩ ∧
      ∀ literal, ∃ p, (p = .name n ∨ p = .literal n) ∧
        parse ("sel ".toList ++ nameTerm unicode n literal) = .ok ⟨[.sel ⟨[⟨false, p⟩]⟩]⟩ := by
  have alone {s : Stage} (wf : s.Wf) : parse (printStage unicode s) = .ok ⟨[s]⟩ := by
    have whole : print unicode ⟨[s]⟩ = printStage unicode s := by
      rw [print, List.map_cons, List.map_nil, List.intercalate_singleton]
    rw [← whole]
    exact parse_print ⟨by simp, by simpa using wf, by simp⟩
  refine ⟨fun line o read => parse_print (parse_wf read), fun n some_ => ⟨?_, ?_, fun literal => ?_⟩⟩
  · exact alone (s := .mkdir n) some_
  · exact alone (s := .cp (.path n)) some_
  · refine ⟨if literal || n.any (· ∈ globBytes) then .literal n else .name n, ?_, ?_⟩
    · split
      · exact .inr rfl
      · exact .inl rfl
    · have read := alone (s := .sel ⟨[⟨false, if literal || n.any (· ∈ globBytes) then .literal n else .name n⟩]⟩)
        ⟨by simp, by intro t member; rw [List.mem_singleton.mp member]; split <;> trivial⟩
      rw [← read, printStage, List.flatMap_cons, List.flatMap_nil, List.append_nil]
      rfl

def latinLetters : List (Nat × Nat) :=
  [(0x30, 0x39), (0x41, 0x5A), (0x61, 0x7A), (0xC0, 0xD6), (0xD8, 0xF6), (0xF8, 0x24F)]

theorem inRanges_iff {ranges : List (Nat × Nat)} {c : Char} :
    inRanges ranges c ↔ ∃ r ∈ ranges, r.1 ≤ c.toNat ∧ c.toNat ≤ r.2 := by
  simp only [inRanges, List.any_eq_true, Bool.and_eq_true, decide_eq_true_eq]

/-- Ranges that never meet hold no common character. -/
theorem inRanges_apart {first second : List (Nat × Nat)} {c : Char}
    (apart : ∀ r ∈ first, ∀ s ∈ second, r.2 < s.1 ∨ s.2 < r.1) (here : inRanges first c) : ¬inRanges second c := by
  intro there
  obtain ⟨r, member, low, high⟩ := inRanges_iff.mp here
  obtain ⟨s, member', low', high'⟩ := inRanges_iff.mp there
  have := apart r member s member'
  omega

theorem isWhitespace_inRanges {c : Char} (space : isWhitespace c) : inRanges [(9, 13), (0x20, 0x20),
    (0x85, 0x85), (0xA0, 0xA0), (0x1680, 0x1680), (0x2000, 0x200A), (0x2028, 0x2029), (0x202F, 0x202F),
    (0x205F, 0x205F), (0x3000, 0x3000)] c := by
  simp only [isWhitespace, Bool.or_eq_true, Bool.and_eq_true, decide_eq_true_eq] at space
  simp only [inRanges, List.any_cons, List.any_nil, Bool.or_false, Bool.or_eq_true, Bool.and_eq_true,
    decide_eq_true_eq]
  omega

/-- Latin letters and digits, and the combining marks of their block. -/
def latin : Unicode where
  isAlphanumeric := inRanges latinLetters
  isCombiningMark := inRanges [(0x300, 0x36F)]
  spaces c space := ⟨inRanges_apart (by decide) (isWhitespace_inRanges space),
    inRanges_apart (by decide) (isWhitespace_inRanges space)⟩
  formats c format := ⟨inRanges_apart (by decide) format, inRanges_apart (by decide) format⟩
  letters c letter := inRanges_apart (by decide) letter
  marks c mark letter := absurd letter (inRanges_apart (by decide) mark)

theorem print_round_trip_latin :
    parse (print latin ⟨[.sel ⟨[⟨true, .name (ascii "ext:")⟩]⟩, .cp .here]⟩) =
      .ok ⟨[.sel ⟨[⟨true, .name (ascii "ext:")⟩]⟩, .cp .here]⟩ ∧
    parse ("cp >".toList ++ escapeDest latin (ascii "other")) = .ok ⟨[.cp (.path (ascii "other"))]⟩ :=
  ⟨(print_round_trip latin).1 "sel !name:ext: | cp > here".toList _ (by decide +kernel),
    ((print_round_trip latin).2 (ascii "other") (by decide)).2.1⟩

end Norte.Orders
