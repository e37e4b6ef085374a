import Mathlib
import Norte.Utf8

/-! A key with its modifiers, and its spelling in `keymap.toml`. What is written of a chord reads
back as that chord, and what is read can be written: so an editor may store the chords it shows. -/
namespace Norte.Keymap

inductive KeyCode where
  | char (c : Char)
  | f (n : Nat)
  | enter
  | tab
  | esc
  | backspace
  | up
  | down
  | left
  | right
  | home
  | end_
  | pageUp
  | pageDown
  | insert
  | delete
  | menu
  deriving DecidableEq, Repr

structure Mods where
  ctrl : Bool := false
  alt : Bool := false
  shift : Bool := false
  cmd : Bool := false
  deriving DecidableEq, Repr

/-- Which physical modifier `mod+` means in this process. -/
inductive ModKey where
  | ctrl
  | cmd
  deriving DecidableEq, Repr

def KeyCode.isChar : KeyCode → Bool
  | char _ => true
  | _ => false

/-- On a character the shift is in the character itself. -/
structure Chord where
  mods : Mods
  code : KeyCode
  plain : code.isChar = true → mods.shift = false
  deriving DecidableEq

def Chord.new (mods : Mods) (code : KeyCode) : Chord :=
  if char : code.isChar = true then ⟨{ mods with shift := false }, code, fun _ => rfl⟩
  else ⟨mods, code, fun again => absurd again char⟩

def Chord.isBareEsc (c : Chord) : Bool := c.code = .esc && c.mods = {}

/-- A load error of a keymap. -/
inductive KeymapError where
  | badChord (chord : Str)
  | emptySequence (run : Str)
  | unknownCommand (run : Str)
  | shiftWithChar (chord : Str)
  | wrongLayerKey (layer key : String)
  | escInSequence (sequence : List Str)
  | ambiguousPrefix (shorter longer : List Chord)
  | digitBoundWithCounts (chord run : Str)
  | sacredKey (chord reservedFor run : Str)
  deriving DecidableEq

/-! ### Written -/

def KeyCode.text : KeyCode → Str
  | char c => if c = ' ' then "space".toList else if c = '+' then "plus".toList else [c]
  | f n => 'f' :: Nat.toDigits 10 n
  | enter => "enter".toList
  | tab => "tab".toList
  | esc => "esc".toList
  | backspace => "backspace".toList
  | up => "up".toList
  | down => "down".toList
  | left => "left".toList
  | right => "right".toList
  | home => "home".toList
  | end_ => "end".toList
  | pageUp => "pgup".toList
  | pageDown => "pgdn".toList
  | insert => "insert".toList
  | delete => "delete".toList
  | menu => "menu".toList

/-- `cmd` comes first, so that a chord has one spelling. -/
def Chord.display (c : Chord) : Str :=
  (if c.mods.cmd then "cmd+".toList else []) ++ ((if c.mods.ctrl then "ctrl+".toList else []) ++
    ((if c.mods.alt then "alt+".toList else []) ++ ((if c.mods.shift then "shift+".toList else []) ++ c.code.text)))

/-! ### Read -/

/-- The modifier that a token names. -/
inductive Slot where
  | ctrl
  | alt
  | shift
  | cmd
  deriving DecidableEq

/-- `mod` is an alias for the one of this process. -/
def slotOf (modKey : ModKey) (token : Str) : Option Slot :=
  if token = "ctrl".toList then some .ctrl
  else if token = "alt".toList then some .alt
  else if token = "shift".toList then some .shift
  else if token = "cmd".toList then some .cmd
  else if token = "mod".toList then
    match modKey with
    | .ctrl => some .ctrl
    | .cmd => some .cmd
  else none

def Mods.has (m : Mods) : Slot → Bool
  | .ctrl => m.ctrl
  | .alt => m.alt
  | .shift => m.shift
  | .cmd => m.cmd

def Mods.with_ (m : Mods) : Slot → Mods
  | .ctrl => { m with ctrl := true }
  | .alt => { m with alt := true }
  | .shift => { m with shift := true }
  | .cmd => { m with cmd := true }

/-- A modifier that is named twice is refused. -/
def parseMods (modKey : ModKey) : List Str → Mods → Option Mods
  | [], m => some m
  | token :: rest, m =>
    (slotOf modKey token).bind fun slot => if m.has slot then none else parseMods modKey rest (m.with_ slot)

def namedKeys : List (Str × KeyCode) :=
  [("enter".toList, .enter), ("tab".toList, .tab), ("esc".toList, .esc), ("space".toList, .char ' '),
    ("plus".toList, .char '+'), ("backspace".toList, .backspace), ("up".toList, .up), ("down".toList, .down),
    ("left".toList, .left), ("right".toList, .right), ("home".toList, .home), ("end".toList, .end_),
    ("pgup".toList, .pageUp), ("pgdn".toList, .pageDown), ("insert".toList, .insert), ("delete".toList, .delete),
    ("menu".toList, .menu)]

/-- `u8::from_str`, of digits. -/
def parseU8 (digits : Str) : Option Nat :=
  if digits ≠ [] ∧ digits.all Char.isDigit then
    let value := Nat.ofDigitChars 10 digits 0
    if value < 2 ^ 8 then some value else none
  else none

/-- A key without a name: a character, or one of the function keys. -/
def plainKey : Str → Option KeyCode
  | [] => none
  | [c] => some (.char c)
  | c :: digits =>
    if c = 'f' then (parseU8 digits).bind fun n => if 1 ≤ n ∧ n ≤ 12 then some (.f n) else none else none

def parseKey (key : Str) : Option KeyCode := (namedKeys.lookup key).or (plainKey key)

/-- `+` separates the modifiers, so that key is spelled `plus`; `cmd` and `mod` together are
refused whatever `mod` means. -/
def parseChord (modKey : ModKey) (s : Str) : Except KeymapError Chord :=
  let parts := s.splitOn '+'
  let tokens := parts.dropLast
  let key := parts.getLast?.getD []
  if key = [] ∨ (tokens.contains "cmd".toList && tokens.contains "mod".toList) then .error (.badChord s)
  else
    match parseMods modKey tokens {}, parseKey key with
    | some mods, some code =>
      if shifted : code.isChar = true ∧ mods.shift = true then .error (.shiftWithChar s)
      else .ok ⟨mods, code, fun char => by simpa [char] using shifted⟩
    | _, _ => .error (.badChord s)

/-! ### The round trip -/

/-- The function keys there are. -/
def KeyCode.Known : KeyCode → Prop
  | f n => 1 ≤ n ∧ n ≤ 12
  | _ => True

instance (code : KeyCode) : Decidable code.Known := by
  cases code <;> simp only [KeyCode.Known] <;> infer_instance

theorem text_char (c : Char) : (KeyCode.char c).text =
    if c = ' ' then "space".toList else if c = '+' then "plus".toList else [c] := rfl

theorem text_f (n : Nat) : (KeyCode.f n).text = 'f' :: Nat.toDigits 10 n := rfl

/-- The spelling of a key has no separator in it, and is never empty. -/
theorem text_plain (code : KeyCode) : '+' ∉ code.text ∧ code.text ≠ [] := by
  cases code with
  | char c =>
    rw [text_char]
    split
    · decide
    · split
      · decide
      · rename_i other
        exact ⟨fun inside => other (List.mem_singleton.mp inside).symm, by simp⟩
  | f n =>
    rw [text_f]
    refine ⟨fun inside => ?_, by simp⟩
    rcases List.mem_cons.mp inside with same | digit
    · exact absurd same (by decide)
    · have isDigit := Nat.isDigit_of_mem_toDigits (by decide) (by decide) digit
      exact absurd isDigit (by decide)
  | _ => decide

theorem parseKey_text {code : KeyCode} (known : code.Known) : parseKey code.text = some code := by
  cases code with
  | char c =>
    rw [text_char]
    split
    · subst c
      decide
    · split
      · subst c
        decide
      · have absent : namedKeys.lookup [c] = none := by
          simp [namedKeys, List.lookup]
        rw [parseKey, absent, Option.none_or, plainKey]
  | f n =>
    have all : ∀ n < 13, 1 ≤ n → parseKey (KeyCode.f n).text = some (.f n) := by decide
    exact all n (Nat.lt_succ_of_le known.2) known.1
  | _ => decide

/-- The modifiers of a chord, as they are written. -/
def Mods.tokens (m : Mods) : List Str :=
  (if m.cmd then ["cmd".toList] else []) ++ ((if m.ctrl then ["ctrl".toList] else []) ++
    ((if m.alt then ["alt".toList] else []) ++ (if m.shift then ["shift".toList] else [])))

theorem display_eq (c : Chord) : c.display = ['+'].intercalate (c.mods.tokens ++ [c.code.text]) := by
  obtain ⟨⟨ctrl, alt, shift, cmd⟩, code, plain⟩ := c
  cases ctrl <;> cases alt <;> cases shift <;> cases cmd <;> simp [Chord.display, Mods.tokens, List.intercalate]

theorem tokens_plain (m : Mods) : ∀ token ∈ m.tokens, '+' ∉ token := by
  obtain ⟨ctrl, alt, shift, cmd⟩ := m
  cases ctrl <;> cases alt <;> cases shift <;> cases cmd <;> decide

theorem parseMods_tokens (modKey : ModKey) (m : Mods) : parseMods modKey m.tokens {} = some m := by
  obtain ⟨ctrl, alt, shift, cmd⟩ := m
  cases ctrl <;> cases alt <;> cases shift <;> cases cmd <;> rfl

/-- What is written never names the alias. -/
theorem tokens_physical (m : Mods) : "mod".toList ∉ m.tokens := by
  obtain ⟨ctrl, alt, shift, cmd⟩ := m
  cases ctrl <;> cases alt <;> cases shift <;> cases cmd <;> decide

theorem display_parts (c : Chord) : c.display.splitOn '+' = c.mods.tokens ++ [c.code.text] := by
  rw [display_eq]
  apply List.splitOn_intercalate
  · intro part member
    rcases List.mem_append.mp member with token | key
    · exact tokens_plain _ part token
    · rw [List.mem_singleton.mp key]
      exact (text_plain c.code).1
  · simp

/-- What is written of a chord reads back as it, whatever `mod` means. -/
theorem parse_display (modKey : ModKey) (c : Chord) (known : c.code.Known) : parseChord modKey c.display = .ok c := by
  have shifted : ¬(c.code.isChar = true ∧ c.mods.shift = true) := fun ⟨char, shift⟩ => by
    rw [c.plain char] at shift
    cases shift
  simp only [parseChord, display_parts, List.dropLast_concat, List.getLast?_concat, Option.getD_some, (text_plain c.code).2,
    Bool.and_eq_true, List.contains_iff_mem, tokens_physical, and_false, or_self, if_false, parseMods_tokens, parseKey_text known, shifted, dite_false]

/-- A key that is read is one that can be written. -/
theorem parseKey_known {key : Str} {code : KeyCode} (read : parseKey key = some code) : code.Known := by
  rcases Option.or_eq_some_iff.mp read with named | ⟨-, plain⟩
  · have all : ∀ entry ∈ namedKeys, entry.2.Known := by decide
    obtain ⟨before, after, split, -⟩ := List.lookup_eq_some_iff.mp named
    exact all (key, code) (by rw [split]; simp)
  · unfold plainKey at plain
    split at plain
    · cases plain
    · obtain rfl := Option.some.inj plain
      trivial
    · split at plain
      · obtain ⟨n, -, bounded⟩ := Option.bind_eq_some_iff.mp plain
        split at bounded
        · rename_i within
          obtain rfl := Option.some.inj bounded
          exact within
        · cases bounded
      · cases plain

theorem parse_known {modKey : ModKey} {s : Str} {c : Chord} (read : parseChord modKey s = .ok c) : c.code.Known := by
  simp only [parseChord] at read
  split at read
  · cases read
  · split at read
    · rename_i mods code _ key
      split at read
      · cases read
      · obtain rfl := Except.ok.inj read
        exact parseKey_known key
    · cases read

/-- A function key that there is not has no spelling. -/
theorem parseKey_f {n : Nat} (unknown : ¬(KeyCode.f n).Known) : parseKey (KeyCode.f n).text = none := by
  cases digits : Nat.toDigits 10 n with
  | nil => exact absurd digits Nat.toDigits_ne_nil
  | cons d ds =>
    have all : (d :: ds).all Char.isDigit = true := by
      rw [List.all_eq_true, ← digits]
      exact fun c member => Nat.isDigit_of_mem_toDigits (by decide) (by decide) member
    have value : Nat.ofDigitChars 10 (d :: ds) 0 = n := by
      rw [← digits]
      exact Nat.ofDigitChars_toDigits (by decide) (by decide)
    have unnamed : namedKeys.lookup ('f' :: d :: ds) = none := by simp [namedKeys, List.lookup]
    have outside : ¬(1 ≤ n ∧ n ≤ 12) := unknown
    simp only [text_f, digits, parseKey, unnamed, Option.none_or, plainKey, if_true, parseU8, all, value]
    split
    · split
      · simp [outside]
      · rfl
    · rfl

/-- What is written of a chord reads back as no other chord, and not at all without its key. -/
theorem parse_display_only {modKey : ModKey} {c c' : Chord} (read : parseChord modKey c.display = .ok c') :
    c.code.Known ∧ c' = c := by
  have known : c.code.Known := by
    by_contra unknown
    cases code : c.code with
    | f n =>
      rw [code] at unknown
      simp only [parseChord, display_parts, List.dropLast_concat, List.getLast?_concat, Option.getD_some,
        code, parseKey_f unknown, parseMods_tokens] at read
      split at read <;> cases read
    | _ => simp [code, KeyCode.Known] at unknown
  rw [parse_display modKey c known] at read
  exact ⟨known, (Except.ok.inj read).symm⟩

/-- A chord can be stored exactly when its key is one of the grammar's, and every chord that a file
spells, in whatever order and under whatever alias, is stored in one spelling that reads back as it. -/
theorem chord_round_trips (modKey : ModKey) :
    (∀ c : Chord, parseChord modKey c.display = .ok c ↔ c.code.Known) ∧
      ∀ s c, parseChord modKey s = .ok c → parseChord modKey c.display = .ok c := by
  constructor
  · exact fun c => ⟨fun read => (parse_display_only read).1, parse_display modKey c⟩
  · exact fun s c read => parse_display modKey c (parse_known read)

end Norte.Keymap
