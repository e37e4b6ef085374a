import Norte.KeyLoad

/-! A sequence of keys as it is typed, with the count before it. Whatever is typed, a command that
runs was typed whole, with its count; and a sequence that is typed runs its command. -/
namespace Norte.Keymap

/-- The largest count, of four digits. -/
def maxCount : Nat := 10 ^ 4 - 1

/-- What a count did to the command it was typed before. -/
inductive Count where
  | none_
  | repeat_ (n : Nat)
  | ignored (n : Nat)
  deriving DecidableEq, Repr

/-- How many times the command runs. -/
def Count.times : Count → Nat
  | repeat_ n => max n 1
  | none_ | ignored _ => 1

inductive Resolution where
  | run (command : Str) (count : Count)
  | pending (depth : Nat)
  | counting (n : Nat)
  | unavailable (command : Str) (why : Availability)
  | reset
  deriving DecidableEq, Repr

/-- The sequence that was begun, and the count typed before it. -/
structure Resolver where
  pending : List Chord
  count : Option Nat
  deriving DecidableEq

def Resolver.clean : Resolver := ⟨[], none⟩

/-- One more digit; a fifth is dropped. -/
def accumulate (count : Option Nat) (d : Nat) : Nat :=
  let acc := count.getD 0
  min (if maxCount / 10 < acc then acc else acc * 10 + d) maxCount

/-- What the count means for a command: the catalogue says which of them take one. -/
def countFor (catalogue : Catalogue) (run : Str) : Option Nat → Count
  | none => .none_
  | some n => if (catalogue.lookup run).any CommandDef.counts then .repeat_ n else .ignored n

/-! ### The count -/

/-- The digits of a count, and what they come to one after another. -/
inductive Typed : List Chord → Option Nat → Prop where
  | none_ : Typed [] none
  | digit {digits : List Chord} {count : Option Nat} {c : Chord} {d : Nat} (typed : Typed digits count)
    (spells : digitOf c = some d) (opens : count.isSome = true ∨ d ≠ 0) : Typed (digits ++ [c]) (some (accumulate count d))

/-- Digits, the first of them no zero. -/
def Digits (keys : List Chord) : Prop :=
  (∀ c ∈ keys, (digitOf c).isSome = true) ∧ ∀ c, keys.head? = some c → opensCount c = true

def decimal (keys : List Chord) : Nat := keys.foldl (fun n c => n * 10 + (digitOf c).getD 0) 0

/-- What is typed is what is meant, up to the fourth digit. -/
def counted (keys : List Chord) : Option Nat := if keys = [] then none else some (decimal (keys.take 4))

theorem digitOf_lt {c : Chord} {d : Nat} (spells : digitOf c = some d) : d < 10 := by
  unfold digitOf at spells
  split at spells
  · split at spells
    · rename_i digit
      obtain rfl := Option.some.inj spells
      have isDigit := digit.2
      simp only [Char.isDigit, Bool.and_eq_true, decide_eq_true_eq, ge_iff_le, UInt32.le_iff_toNat_le] at isDigit
      have top : ('9' : Char).val.toNat = 57 := rfl
      have zero : ('0' : Char).toNat = 48 := rfl
      simp only [Char.toNat] at zero ⊢
      omega
    · cases spells
  · cases spells

theorem decimal_concat (keys : List Chord) (c : Chord) : decimal (keys ++ [c]) = decimal keys * 10 + (digitOf c).getD 0 := by
  simp [decimal, List.foldl_append]

theorem accumulate_eq (count : Option Nat) (d : Nat) : accumulate count d =
    min (if 999 < count.getD 0 then count.getD 0 else count.getD 0 * 10 + d) 9999 := rfl

theorem accumulate_none {d : Nat} (small : d < 10) : accumulate none d = d := by
  rw [accumulate_eq, Option.getD_none, if_neg (by omega), Nat.zero_mul, Nat.zero_add, Nat.min_eq_left (by omega)]

/-- A digit is taken up to the fourth, and dropped from there on. -/
theorem accumulate_some {n d k : Nat} (small : d < 10) (some_ : 0 < k) (low : 10 ^ (min k 4 - 1) ≤ n) (high : n < 10 ^ min k 4) :
    accumulate (some n) d = (if k < 4 then n * 10 + d else n) ∧
      10 ^ (min (k + 1) 4 - 1) ≤ accumulate (some n) d ∧ accumulate (some n) d < 10 ^ min (k + 1) 4 := by
  rw [accumulate_eq, Option.getD_some]
  rcases Nat.lt_or_ge k 4 with few | many
  · obtain rfl | rfl | rfl : k = 1 ∨ k = 2 ∨ k = 3 := by omega
    all_goals
      simp only [Nat.reduceLeDiff, Nat.min_eq_left, Nat.reduceSub, Nat.reduceAdd, Nat.reducePow] at low high ⊢
      rw [if_neg (by omega), Nat.min_eq_left (by omega)]
      simp only [Nat.reduceLT, if_true, true_and]
      omega
  · have four : min k 4 = 4 := Nat.min_eq_right many
    have four' : min (k + 1) 4 = 4 := by omega
    rw [four] at low high
    rw [four', if_neg (by omega : ¬k < 4)]
    simp only [Nat.reduceSub, Nat.reducePow] at low high ⊢
    rw [if_pos (by omega), Nat.min_eq_left (by omega)]
    omega

/-- After `k` digits the count has `k` of them, up to four. -/
theorem Typed.value {digits : List Chord} {count : Option Nat} (typed : Typed digits count) :
    Digits digits ∧ count = counted digits ∧ ∀ n, count = some n →
      10 ^ (min digits.length 4 - 1) ≤ n ∧ n < 10 ^ min digits.length 4 := by
  induction typed with
  | none_ => exact ⟨⟨by simp, by simp⟩, rfl, by simp⟩
  | @digit digits count c d typed spells opens ih =>
    obtain ⟨⟨all, first⟩, rfl, bounds⟩ := ih
    have small := digitOf_lt spells
    by_cases none_ : digits = []
    · subst none_
      have some_ : d ≠ 0 := by simpa [counted] using opens
      have only : accumulate (counted []) d = d := accumulate_none small
      refine ⟨⟨by simp [spells], by simp [opensCount, spells, some_]⟩, ?_, ?_⟩
      · rw [only]
        simp [counted, decimal, spells]
      · intro n same
        rw [only] at same
        obtain rfl := Option.some.inj same
        have one : 10 ^ (min ([] ++ [c]).length 4 - 1) = 1 := rfl
        have ten : 10 ^ min ([] ++ [c]).length 4 = 10 := rfl
        omega
    · have digit : Digits (digits ++ [c]) := by
        refine ⟨fun k member => ?_, fun k head => ?_⟩
        · rcases List.mem_append.mp member with before | last
          · exact all k before
          · rw [List.mem_singleton.mp last, spells]
            rfl
        · rw [List.head?_append_of_ne_nil _ none_] at head
          exact first k head
      have some_ : counted digits = some (decimal (digits.take 4)) := if_neg none_
      obtain ⟨low, high⟩ := bounds _ some_
      obtain ⟨more, low', high'⟩ := accumulate_some small (List.length_pos_iff.mpr none_) low high
      rw [some_]
      refine ⟨digit, ?_, ?_⟩
      · have next : counted (digits ++ [c]) = some (decimal ((digits ++ [c]).take 4)) := if_neg (by simp)
        rw [more, next]
        split
        · rename_i few
          have all_ : digits.take 4 = digits := List.take_of_length_le (by omega)
          have all' : (digits ++ [c]).take 4 = digits ++ [c] := List.take_of_length_le (by
            rw [List.length_append, List.length_singleton]
            omega)
          rw [all_, all', decimal_concat, spells]
          rfl
        · rename_i many
          have four : (digits ++ [c]).take 4 = digits.take 4 := List.take_append_of_le_length (by omega)
          rw [four]
      · intro n same
        obtain rfl := Option.some.inj same
        rw [List.length_append, List.length_singleton]
        exact ⟨low', high'⟩

section Push

variable (catalogue : Catalogue) (eff : Effective)

/-- The digit that goes on with the count, or opens it. -/
def countDigit (r : Resolver) (chord : Chord) : Option Nat :=
  if eff.counts = true ∧ r.pending = [] then (digitOf chord).filter fun d => r.count.isSome || d ≠ 0 else none

def push (r : Resolver) (chord : Chord) : Resolver × Resolution :=
  if chord.isBareEsc = true ∧ (r.pending ≠ [] ∨ r.count.isSome) then (.clean, .reset)
  else
    match countDigit eff r chord with
    | some d => ({ r with count := some (accumulate r.count d) }, .counting (accumulate r.count d))
    | none =>
      match eff.lookup (r.pending ++ [chord]) with
      | .exact run .here => (.clean, .run run (countFor catalogue run r.count))
      | .exact run why => (.clean, .unavailable run why)
      | .prefix_ => ({ r with pending := r.pending ++ [chord] }, .pending (r.pending.length + 1))
      | .miss => (.clean, .reset)

/-- The state after some keys. -/
def pushes (r : Resolver) (keys : List Chord) : Resolver := keys.foldl (fun r chord => (push catalogue eff r chord).1) r

/-! ### What was typed -/

/-- An answer that ends what was typed. -/
def Resolution.ends : Resolution → Bool
  | run .. | unavailable .. | reset => true
  | pending _ | counting _ => false

/-- One more key, with those typed since the last answer that ended something. -/
def typeKey (s : Resolver × List Chord) (chord : Chord) : Resolver × List Chord :=
  ((push catalogue eff s.1 chord).1, if (push catalogue eff s.1 chord).2.ends then [] else s.2 ++ [chord])

def typing (keys : List Chord) : List Chord := (keys.foldl (typeKey catalogue eff) (.clean, [])).2

def isDigit (c : Chord) : Bool := (digitOf c).isSome

/-- The digits that the keys begin with, where they are a count. -/
def countKeys (keys : List Chord) : List Chord :=
  if eff.counts = true ∧ keys.head?.any opensCount = true then keys.takeWhile isDigit else []

def sequenceKeys (keys : List Chord) : List Chord := keys.drop (countKeys eff keys).length

/-- What an answer says of the keys that were typed since the last one that ended something. -/
def Explains (keys : List Chord) : Resolution → Prop
  | .run command count => ∃ b ∈ eff.bindings, b.seq = sequenceKeys eff keys ∧ b.run = command ∧ b.avail = .here ∧
      count = countFor catalogue command (counted (countKeys eff keys))
  | .unavailable command why => ∃ b ∈ eff.bindings, b.seq = sequenceKeys eff keys ∧ b.run = command ∧ b.avail = why ∧ why ≠ .here
  | .pending depth => (sequenceKeys eff keys).length = depth ∧ ∃ b ∈ eff.bindings, sequenceKeys eff keys <+: b.seq ∧
      sequenceKeys eff keys ≠ b.seq
  | .counting n => sequenceKeys eff keys = [] ∧ counted (countKeys eff keys) = some n
  | .reset => (1 < keys.length ∧ keys.getLast?.any Chord.isBareEsc = true) ∨
      (sequenceKeys eff keys ≠ [] ∧ ∀ b ∈ eff.bindings, ¬sequenceKeys eff keys <+: b.seq)

/-- The resolver holds the count and the sequence of the keys. -/
structure Reads (keys : List Chord) (r : Resolver) : Prop where
  pending : r.pending = sequenceKeys eff keys
  count : r.count = counted (countKeys eff keys)

variable {catalogue eff} {keys : List Chord} {r : Resolver}

variable (eff) in
theorem countKeys_append (keys : List Chord) : countKeys eff keys ++ sequenceKeys eff keys = keys := by
  have taken : countKeys eff keys = keys.take (countKeys eff keys).length := by
    unfold countKeys
    split
    · exact List.prefix_iff_eq_take.mp (List.takeWhile_prefix _)
    · rfl
  rw [sequenceKeys]
  nth_rw 1 [taken]
  exact List.take_append_drop ..

theorem isDigit_of_opens {c : Chord} (opens : opensCount c = true) : isDigit c = true := by
  unfold opensCount at opens
  unfold isDigit
  cases spells : digitOf c with
  | none => simp [spells] at opens
  | some d => rfl

variable (eff) in
theorem countKeys_digits (keys : List Chord) : Digits (countKeys eff keys) := by
  unfold countKeys
  split
  · rename_i opens
    have digits (c : Chord) (member : c ∈ keys.takeWhile isDigit) : isDigit c = true := List.mem_takeWhile_imp member
    refine ⟨digits, fun c head => ?_⟩
    cases keys with
    | nil => cases head
    | cons k ks =>
      rw [List.takeWhile_cons_of_pos (isDigit_of_opens opens.2)] at head
      obtain rfl := Option.some.inj head
      exact opens.2
  · exact ⟨by simp, by simp⟩

/-- The key that goes on with the count is the one that the resolver takes for a digit. -/
theorem countKeys_concat (reads : Reads eff keys r) (chord : Chord) : countKeys eff (keys ++ [chord]) =
    if (countDigit eff r chord).isSome then keys ++ [chord] else countKeys eff keys := by
  by_cases counts : eff.counts = true
  · cases keys with
    | nil =>
      have none_ : r.count = none := by simpa [countKeys, counted] using reads.count
      have pending : r.pending = [] := by simpa [sequenceKeys, countKeys] using reads.pending
      cases spells : digitOf chord with
      | none => simp [countDigit, countKeys, pending, opensCount, spells]
      | some d => by_cases zero : d = 0 <;> simp [countDigit, countKeys, counts, pending, none_, opensCount, isDigit, spells, zero]
    | cons k ks =>
      by_cases opens : opensCount k = true
      · have taken (more : List Chord) : countKeys eff (k :: more) = (k :: more).takeWhile isDigit := by
          simp [countKeys, counts, opens]
        have some_ : r.count.isSome = true := by
          rw [reads.count, taken, List.takeWhile_cons_of_pos (isDigit_of_opens opens)]
          rfl
        rw [List.cons_append, taken, ← List.cons_append, List.takeWhile_append, ← taken]
        by_cases all : (countKeys eff (k :: ks)).length = (k :: ks).length
        · have pending : r.pending = [] := by simp [reads.pending, sequenceKeys, all]
          have same : countKeys eff (k :: ks) = k :: ks := by
            have whole := countKeys_append eff (k :: ks)
            rwa [← reads.pending, pending, List.append_nil] at whole
          rw [if_pos all, same]
          cases spells : digitOf chord <;> simp [countDigit, counts, pending, some_, isDigit, spells]
        · have pending : r.pending ≠ [] := by
            intro none_
            rw [reads.pending, sequenceKeys, List.drop_eq_nil_iff] at none_
            have short := congrArg List.length (countKeys_append eff (k :: ks))
            rw [List.length_append] at short
            omega
          rw [if_neg all]
          simp [countDigit, pending]
      · have none_ (more : List Chord) : countKeys eff (k :: more) = [] := by simp [countKeys, opens]
        have pending : r.pending ≠ [] := by simp [reads.pending, sequenceKeys, none_]
        rw [List.cons_append, none_, none_]
        simp [countDigit, pending]
  · simp [countKeys, countDigit, counts]

theorem reads_clean : Reads eff [] .clean :=
  ⟨by simp [Resolver.clean, sequenceKeys], by simp [Resolver.clean, countKeys, counted]⟩

theorem typed_of_digits {digits : List Chord} (right : Digits digits) : Typed digits (counted digits) := by
  induction digits using List.reverseRecOn with
  | nil => exact .none_
  | append_singleton digits c ih =>
    obtain ⟨all, first⟩ := right
    obtain ⟨d, spells⟩ := Option.isSome_iff_exists.mp (all c (by simp))
    by_cases none_ : digits = []
    · subst none_
      have opens : d ≠ 0 := by simpa [opensCount, spells] using first c rfl
      have typed := Typed.digit .none_ spells (.inr opens)
      rw [typed.value.2.1] at typed
      exact typed
    · have before : Digits digits :=
        ⟨fun k member => all k (List.mem_append_left _ member),
          fun k head => first k (by rw [List.head?_append_of_ne_nil _ none_]; exact head)⟩
      have typed := Typed.digit (ih before) spells (.inl (by simp [counted, none_]))
      rw [typed.value.2.1] at typed
      exact typed

/-- One more key: its answer, and what is held then. -/
theorem push_reads (reads : Reads eff keys r) (chord : Chord) :
    Explains catalogue eff (keys ++ [chord]) (push catalogue eff r chord).2 ∧
      Reads eff (if (push catalogue eff r chord).2.ends then [] else keys ++ [chord]) (push catalogue eff r chord).1 := by
  have parts := countKeys_append eff keys
  have concat := countKeys_concat reads chord
  unfold push
  split
  · rename_i cancels
    refine ⟨.inl ⟨?_, by simp [cancels.1]⟩, reads_clean⟩
    have some_ : keys ≠ [] := by
      rintro rfl
      obtain ⟨pending, count⟩ := reads
      simp [pending, count, sequenceKeys, countKeys, counted] at cancels
    have := List.length_pos_iff.mpr some_
    rw [List.length_append, List.length_singleton]
    omega
  · split
    · rename_i d digit
      rw [digit, Option.isSome_some, if_pos rfl] at concat
      have none_ : sequenceKeys eff (keys ++ [chord]) = [] := by rw [sequenceKeys, concat, List.drop_length]
      unfold countDigit at digit
      split at digit
      · rename_i counting
        obtain ⟨spells, opens⟩ := Option.filter_eq_some_iff.mp digit
        rw [← reads.pending, counting.2, List.append_nil] at parts
        have typed := Typed.digit (typed_of_digits (countKeys_digits eff keys)) spells (by simpa [reads.count] using opens)
        rw [parts] at typed
        have value : counted (countKeys eff (keys ++ [chord])) = some (accumulate r.count d) := by
          rw [concat, reads.count, parts]
          exact typed.value.2.1.symm
        exact ⟨⟨none_, value⟩, ⟨counting.2.trans none_.symm, value.symm⟩⟩
      · cases digit
    · rename_i other
      rw [other, Option.isSome_none, if_neg Bool.false_ne_true] at concat
      have seq : sequenceKeys eff (keys ++ [chord]) = r.pending ++ [chord] := by
        rw [reads.pending, sequenceKeys, concat, sequenceKeys, List.drop_append_of_le_length]
        rw [← congrArg List.length parts, List.length_append]
        exact Nat.le_add_right ..
      have count : r.count = counted (countKeys eff (keys ++ [chord])) := by rw [concat, reads.count]
      split
      · rename_i run found
        obtain ⟨b, member, same, command, avail⟩ := eff.lookup_exact.mp found
        exact ⟨⟨b, member, same.trans seq.symm, command, avail, by rw [← count]⟩, reads_clean⟩
      · rename_i run why notHere found
        obtain ⟨b, member, same, command, avail⟩ := eff.lookup_exact.mp found
        refine ⟨⟨b, member, same.trans seq.symm, command, avail, ?_⟩, reads_clean⟩
        rintro rfl
        exact notHere rfl
      · rename_i found
        refine ⟨⟨by simp [seq], ?_⟩, seq.symm, count⟩
        rw [seq]
        exact eff.lookup_prefix.mp found
      · rename_i found
        refine ⟨.inr ⟨by simp [seq], ?_⟩, reads_clean⟩
        rw [seq]
        exact eff.lookup_miss.mp found

/-- Whatever is typed, from the start. -/
theorem pushes_reads (keys : List Chord) : Reads eff (typing catalogue eff keys) (pushes catalogue eff .clean keys) := by
  suffices all : (keys.foldl (typeKey catalogue eff) (.clean, [])).1 = pushes catalogue eff .clean keys ∧
      Reads eff (typing catalogue eff keys) (keys.foldl (typeKey catalogue eff) (.clean, [])).1 by
    rw [← all.1]
    exact all.2
  induction keys using List.reverseRecOn with
  | nil => exact ⟨rfl, reads_clean⟩
  | append_singleton keys chord ih =>
    have next : pushes catalogue eff .clean (keys ++ [chord]) = (push catalogue eff (pushes catalogue eff .clean keys) chord).1 := by
      rw [pushes, List.foldl_append]
      rfl
    rw [typing, next, ← ih.1, List.foldl_append]
    exact ⟨rfl, (push_reads ih.2 chord).2⟩

/-- Every answer is explained by the keys since the last one that ended something, a count's digits
and then a sequence: a command that runs, or cannot run here, has this sequence and this count, what
is pending begins a binding, and what is reset was cancelled or begins none. -/
theorem push_explains (keys : List Chord) (chord : Chord) : Explains catalogue eff (typing catalogue eff keys ++ [chord])
    (push catalogue eff (pushes catalogue eff .clean keys) chord).2 :=
  (push_reads (pushes_reads keys) chord).1

/-! ### What is typed whole runs -/

/-- The answers to some keys. -/
def replies (catalogue : Catalogue) (eff : Effective) (r : Resolver) : List Chord → List Resolution
  | [] => []
  | k :: ks => (push catalogue eff r k).2 :: replies catalogue eff (push catalogue eff r k).1 ks

theorem replies_append (a b : List Chord) : replies catalogue eff r (a ++ b) =
    replies catalogue eff r a ++ replies catalogue eff (pushes catalogue eff r a) b := by
  induction a generalizing r with
  | nil => rfl
  | cons k ks ih =>
    simp only [List.cons_append, replies, ih]
    rfl

theorem pushes_append (a b : List Chord) : pushes catalogue eff r (a ++ b) =
    pushes catalogue eff (pushes catalogue eff r a) b := List.foldl_append

/-- The keys leave a state, with these answers that end something. -/
def Leaves (catalogue : Catalogue) (eff : Effective) (r : Resolver) (keys : List Chord) (after : Resolver)
    (answers : List Resolution) : Prop :=
  pushes catalogue eff r keys = after ∧ (replies catalogue eff r keys).filter Resolution.ends = answers

theorem Leaves.append {a b : List Chord} {mid after : Resolver} {first second : List Resolution}
    (one : Leaves catalogue eff r a mid first) (two : Leaves catalogue eff mid b after second) :
    Leaves catalogue eff r (a ++ b) after (first ++ second) := by
  obtain ⟨rfl, rfl⟩ := one
  obtain ⟨rfl, rfl⟩ := two
  exact ⟨pushes_append a b, by rw [replies_append, List.filter_append]⟩

theorem leaves_one {chord : Chord} {after : Resolver} {reply : Resolution} (pushed : push catalogue eff r chord = (after, reply)) :
    Leaves catalogue eff r [chord] after (if reply.ends then [reply] else []) := by
  refine ⟨by rw [pushes, List.foldl_cons, List.foldl_nil, pushed], ?_⟩
  simp only [replies, pushed, List.filter_cons, List.filter_nil]

theorem digit_plain {c : Chord} {d : Nat} (spells : digitOf c = some d) : c.isBareEsc = false := by
  unfold digitOf at spells
  split at spells
  · rename_i char
    simp [Chord.isBareEsc, char]
  · cases spells

/-- The digits leave their count. -/
theorem digits_leave (counts : eff.counts = true) {digits : List Chord} {count : Option Nat} (typed : Typed digits count) :
    Leaves catalogue eff .clean digits ⟨[], count⟩ [] := by
  induction typed with
  | none_ => exact ⟨rfl, rfl⟩
  | @digit digits count c d typed spells opens ih =>
    apply ih.append
    have key : countDigit eff ⟨[], count⟩ c = some d := by
      simp only [countDigit, counts, true_and, if_true, spells, Option.filter_some]
      rw [if_pos (by simpa using opens)]
    have pushed : push catalogue eff ⟨[], count⟩ c = (⟨[], some (accumulate count d)⟩, .counting (accumulate count d)) := by
      simp only [push, digit_plain spells, key, Bool.false_eq_true, false_and, if_false]
    exact leaves_one pushed

/-- A count can come before a binding that no digit opens and that is not `esc`. -/
def Admits (eff : Effective) (digits : List Chord) (b : Binding) : Prop := digits ≠ [] →
  eff.counts = true ∧ ∀ first, b.seq.head? = some first → digitOf first = none ∧ first.isBareEsc = false

/-- The answer to a whole binding. -/
def answer (catalogue : Catalogue) (count : Option Nat) (b : Binding) : Resolution :=
  match b.avail with
  | .here => .run b.run (countFor catalogue b.run count)
  | why => .unavailable b.run why

theorem answer_ends (count : Option Nat) (b : Binding) : (answer catalogue count b).ends = true := by
  unfold answer
  split <;> rfl

/-- What is left of a binding's sequence is typed to its end. -/
theorem seq_leaves {digits begun rest : List Chord} {b : Binding} (member : b ∈ eff.bindings) (admits : Admits eff digits b)
    (seq : b.seq = begun ++ rest) (some_ : rest ≠ []) :
    Leaves catalogue eff ⟨begun, counted digits⟩ rest .clean [answer catalogue (counted digits) b] := by
  have shaped := (eff.shaped b member).2
  have key (begun : List Chord) (c : Chord) (rest : List Chord) (seq : b.seq = begun ++ c :: rest) :
      countDigit eff ⟨begun, counted digits⟩ c = none := by
    unfold countDigit
    split
    · rename_i counting
      obtain ⟨counts, rfl⟩ := counting
      have head : b.seq.head? = some c := by rw [seq]; rfl
      by_cases none_ : digits = []
      · have free := eff.digitsFree counts b member c head
        cases spells : digitOf c with
        | none => rfl
        | some d =>
          have zero : d = 0 := by simpa [opensCount, spells] using free
          simp [counted, none_, zero]
      · rw [((admits none_).2 c head).1]
        rfl
    · rfl
  induction rest generalizing begun with
  | nil => exact absurd rfl some_
  | cons c rest ih =>
    cases rest with
    | nil =>
      have found := eff.lookup_exact.mpr ⟨b, member, seq, rfl, rfl⟩
      have goes : ¬(c.isBareEsc = true ∧ (begun ≠ [] ∨ (counted digits).isSome)) := by
        rintro ⟨esc, inFlight⟩
        by_cases lone : begun = []
        · subst lone
          have typed : digits ≠ [] := by
            rintro rfl
            simp [counted] at inFlight
          rw [((admits typed).2 c (by rw [seq]; rfl)).2] at esc
          cases esc
        · have longer : 1 < b.seq.length := by
            have := List.length_pos_iff.mpr lone
            rw [seq, List.length_append, List.length_singleton]
            omega
          have none_ := List.any_eq_false.mp (shaped longer) c (by rw [seq]; simp)
          exact none_ esc
      have pushed : push catalogue eff ⟨begun, counted digits⟩ c = (.clean, answer catalogue (counted digits) b) := by
        simp only [push, if_neg goes, key begun c [] seq, found, answer]
        cases b.avail <;> rfl
      have leaves := leaves_one pushed
      rwa [answer_ends, if_pos rfl] at leaves
    | cons c' rest =>
      have longer : 1 < b.seq.length := by rw [seq]; simp; omega
      have plain : c.isBareEsc = false := Bool.eq_false_iff.mpr (List.any_eq_false.mp (shaped longer) c (by rw [seq]; simp))
      have found : eff.lookup (begun ++ [c]) = .prefix_ := by
        apply eff.lookup_prefix.mpr
        refine ⟨b, member, ⟨c' :: rest, by rw [seq]; simp⟩, fun same => ?_⟩
        have := congrArg List.length (same.trans seq)
        simp at this
      have pushed : push catalogue eff ⟨begun, counted digits⟩ c = (⟨begun ++ [c], counted digits⟩, .pending (begun.length + 1)) := by
        simp only [push, plain, key begun c (c' :: rest) seq, found, Bool.false_eq_true, false_and, if_false]
      have later := ih (show b.seq = (begun ++ [c]) ++ c' :: rest by rw [seq]; simp) (by simp)
      exact (leaves_one pushed).append later

/-- Whatever bindings are typed one after another, each after its count, each is answered with its
command, in order and with nothing else, and nothing stays pending. -/
theorem typed_answers (phrases : List (List Chord × Binding))
    (right : ∀ p ∈ phrases, p.2 ∈ eff.bindings ∧ Digits p.1 ∧ Admits eff p.1 p.2) :
    Leaves catalogue eff .clean (phrases.flatMap fun p => p.1 ++ p.2.seq) .clean
      (phrases.map fun p => answer catalogue (counted p.1) p.2) := by
  induction phrases with
  | nil => exact ⟨rfl, rfl⟩
  | cons p ps ih =>
    rw [List.forall_mem_cons] at right
    obtain ⟨⟨member, digits, admits⟩, later⟩ := right
    have counts : Leaves catalogue eff .clean p.1 ⟨[], counted p.1⟩ [] := by
      by_cases none_ : p.1 = []
      · rw [none_]
        exact ⟨rfl, rfl⟩
      · exact digits_leave (admits none_).1 (typed_of_digits digits)
    have whole := counts.append (seq_leaves member admits rfl (eff.shaped p.2 member).1)
    exact whole.append (ih later)

/-- A keymap with counts in which `j` goes down. -/
def downOnJ : Effective :=
  ⟨[⟨[.new {} (.char 'j')], "cursor.down".toList, .here, false⟩], .browse, true, false, 0, by decide, by simp [Shaped],
    by simp [PrefixFree], by simp [DigitsFree]; decide, by simp [SacredFree, sacredChords]; decide⟩

theorem typed_answers_down :
    Leaves ⟨fun _ => some ⟨true, .live⟩, fun _ => none, by simp⟩ downOnJ .clean
      [.new {} (.char '4'), .new {} (.char '2'), .new {} (.char 'j')] .clean [.run "cursor.down".toList (.repeat_ 42)] :=
  typed_answers [([.new {} (.char '4'), .new {} (.char '2')], ⟨[.new {} (.char 'j')], "cursor.down".toList, .here, false⟩)]
    (by
      simp only [List.mem_singleton, forall_eq]
      refine ⟨List.mem_singleton.mpr rfl, ⟨by decide, by simp; decide⟩, fun _ => ⟨rfl, ?_⟩⟩
      intro first head
      obtain rfl := Option.some.inj head
      decide)

end Push

/-! ### The keys that go on -/

/-- A key that may follow what is pending, with the binding it was read from. -/
structure Continuation where
  next : Chord
  seqLen : Nat
  command : Str
  avail : Availability
  deriving DecidableEq

def continuation (prefix_ : List Chord) (b : Binding) : Option Continuation :=
  if strictPrefix prefix_ b.seq then b.seq[prefix_.length]?.map fun next => ⟨next, b.seq.length, b.run, b.avail⟩ else none

/-- One row a key: the first in the order of the bindings. -/
def rows (prefix_ : List Chord) : List Binding → List Chord → List Continuation
  | [], _ => []
  | b :: bs, seen =>
    match continuation prefix_ b with
    | some row => if row.next ∈ seen then rows prefix_ bs seen else row :: rows prefix_ bs (row.next :: seen)
    | none => rows prefix_ bs seen

/-- In the order in which the keys are painted. -/
def Effective.continuations (eff : Effective) (paint : Chord → Str) (prefix_ : List Chord) : List Continuation :=
  (rows prefix_ eff.bindings []).insertionSort fun a b => paint a.next ≤ paint b.next

theorem continuation_some {prefix_ : List Chord} {b : Binding} {row : Continuation} :
    continuation prefix_ b = some row ↔ (prefix_ ++ [row.next]) <+: b.seq ∧ row.seqLen = b.seq.length ∧
      row.command = b.run ∧ row.avail = b.avail := by
  unfold continuation
  constructor
  · intro found
    split at found
    · rename_i strict
      obtain ⟨next, there, rfl⟩ := Option.map_eq_some_iff.mp found
      obtain ⟨⟨rest, seq⟩, -⟩ := strictPrefix_iff.mp strict
      rw [← seq, List.getElem?_append_right (Nat.le_refl _), Nat.sub_self] at there
      cases rest with
      | nil => cases there
      | cons c rest =>
        obtain rfl := Option.some.inj there
        exact ⟨⟨rest, by rw [← seq]; simp⟩, rfl, rfl, rfl⟩
    · cases found
  · rintro ⟨⟨rest, seq⟩, length, command, avail⟩
    have strict : strictPrefix prefix_ b.seq = true := by
      apply strictPrefix_iff.mpr
      refine ⟨⟨row.next :: rest, by rw [← seq]; simp⟩, fun same => ?_⟩
      have := congrArg List.length (same.trans seq.symm)
      simp at this
    have there : b.seq[prefix_.length]? = some row.next := by
      rw [← seq, List.append_assoc, List.getElem?_append_right (Nat.le_refl _), Nat.sub_self]
      rfl
    rw [if_pos strict, there, Option.map_some, ← length, ← command, ← avail]

theorem mem_rows {prefix_ : List Chord} {bindings : List Binding} {seen : List Chord} {row : Continuation} :
    row ∈ rows prefix_ bindings seen → row.next ∉ seen ∧ ∃ b ∈ bindings, continuation prefix_ b = some row := by
  induction bindings generalizing seen with
  | nil => simp [rows]
  | cons b bs ih =>
    intro member
    have later {seen : List Chord} (member : row ∈ rows prefix_ bs seen) :
        row.next ∉ seen ∧ ∃ c ∈ b :: bs, continuation prefix_ c = some row := by
      obtain ⟨new, c, inside, found⟩ := ih member
      exact ⟨new, c, List.mem_cons_of_mem _ inside, found⟩
    unfold rows at member
    split at member
    · rename_i row' found
      split at member
      · exact later member
      · rename_i new
        rcases List.mem_cons.mp member with rfl | member
        · exact ⟨new, b, List.mem_cons_self, found⟩
        · obtain ⟨unseen, rest⟩ := later member
          exact ⟨fun old => unseen (List.mem_cons_of_mem _ old), rest⟩
    · exact later member

theorem rows_once (prefix_ : List Chord) (bindings : List Binding) (seen : List Chord) :
    ((rows prefix_ bindings seen).map Continuation.next).Nodup := by
  induction bindings generalizing seen with
  | nil => exact .nil
  | cons b bs ih =>
    unfold rows
    split
    · split
      · exact ih seen
      · rw [List.map_cons, List.nodup_cons]
        refine ⟨fun again => ?_, ih _⟩
        obtain ⟨row, member, same⟩ := List.mem_map.mp again
        exact (mem_rows member).1 (by simp [same])
    · exact ih seen

theorem rows_all {prefix_ : List Chord} {bindings : List Binding} {seen : List Chord} {b : Binding} {row : Continuation}
    (member : b ∈ bindings) (found : continuation prefix_ b = some row) (new : row.next ∉ seen) :
    ∃ row' ∈ rows prefix_ bindings seen, row'.next = row.next := by
  induction bindings generalizing seen with
  | nil => simp at member
  | cons c cs ih =>
    unfold rows
    rcases List.mem_cons.mp member with rfl | later
    · rw [found]
      exact ⟨row, by simp [new], rfl⟩
    · split
      · rename_i row' _
        split
        · exact ih later new
        · by_cases same : row'.next = row.next
          · exact ⟨row', List.mem_cons_self, same⟩
          · obtain ⟨r, inside, eq⟩ := ih later (show row.next ∉ row'.next :: seen by simp [new, Ne.symm same])
            exact ⟨r, List.mem_cons_of_mem _ inside, eq⟩
      · exact ih later new

/-- The rows after a prefix are the keys that go on from it, each once: a row that ends its
sequence names what the key runs, and any other key leaves the sequence pending. -/
theorem continuations_are (eff : Effective) (paint : Chord → Str) (prefix_ : List Chord) :
    ((eff.continuations paint prefix_).map Continuation.next).Nodup ∧
    (∀ c, (∃ row ∈ eff.continuations paint prefix_, row.next = c) ↔ eff.lookup (prefix_ ++ [c]) ≠ .miss) ∧
    ∀ row ∈ eff.continuations paint prefix_, eff.lookup (prefix_ ++ [row.next]) =
      if row.seqLen = prefix_.length + 1 then .exact row.command row.avail else .prefix_ := by
  have perm := List.perm_insertionSort (fun a b : Continuation => paint a.next ≤ paint b.next) (rows prefix_ eff.bindings [])
  refine ⟨((perm.map _).nodup_iff).mpr (rows_once prefix_ eff.bindings []), fun c => ?_, fun row member => ?_⟩
  · rw [Ne, eff.lookup_miss, Classical.not_forall]
    constructor
    · rintro ⟨row, member, rfl⟩
      obtain ⟨-, b, inside, found⟩ := mem_rows (perm.mem_iff.mp member)
      exact ⟨b, fun none_ => none_ inside (continuation_some.mp found).1⟩
    · rintro ⟨b, some_⟩
      rw [Classical.not_imp, Classical.not_not] at some_
      have found : continuation prefix_ b = some ⟨c, b.seq.length, b.run, b.avail⟩ := continuation_some.mpr ⟨some_.2, rfl, rfl, rfl⟩
      obtain ⟨row, member, same⟩ := rows_all some_.1 found List.not_mem_nil
      exact ⟨row, perm.mem_iff.mpr member, same⟩
  · obtain ⟨-, b, inside, found⟩ := mem_rows (perm.mem_iff.mp member)
    obtain ⟨prefix', length, command, avail⟩ := continuation_some.mp found
    split
    · rename_i whole
      have seq : b.seq = prefix_ ++ [row.next] := (prefix'.eq_of_length (by simp [← length, whole])).symm
      exact eff.lookup_exact.mpr ⟨b, inside, seq, command.symm, avail.symm⟩
    · rename_i longer
      refine eff.lookup_prefix.mpr ⟨b, inside, prefix', fun same => longer ?_⟩
      rw [length, ← same, List.length_append, List.length_singleton]

end Norte.Keymap
