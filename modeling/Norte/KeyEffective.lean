import Norte.KeyLayers

/-! The keymap of a screen: its files merged, the first binding of a sequence winning, and checked
so that no sequence is a prefix of another. -/
namespace Norte.Keymap

inductive Availability where
  | here
  | notBuilt (reason : Str) (issue : Nat)
  | notHere
  deriving DecidableEq, Repr

inductive Status where
  | live
  | planned (reason : Str) (issue : Nat)
  deriving DecidableEq, Repr

structure CommandDef where
  counts : Bool
  status : Status
  deriving DecidableEq, Repr

/-- The table of the commands there are, and of those that had another name, without a chain. -/
structure Catalogue where
  lookup : Str → Option CommandDef
  renamedTo : Str → Option Str
  settled : ∀ old new, renamedTo old = some new → renamedTo new = none

structure Binding where
  seq : List Chord
  run : Str
  avail : Availability
  global : Bool
  deriving DecidableEq

/-- What a frontend brings: what `mod` means, the commands there are, and those it implements. -/
structure Frontend where
  modKey : ModKey
  catalogue : Catalogue
  known : List Str

def luaHost : Str := "lua:*".toList
def userHost : Str := "user:*".toList

def isLower (c : Char) : Bool := 'a' ≤ c && c ≤ 'z'

def validLuaName (name : Str) : Bool :=
  !name.isEmpty && name.length ≤ 64 && name.all fun c => isLower c || c.isDigit || c = '.' || c = '_' || c = '-'

def validUserId (id : Str) : Bool :=
  !id.isEmpty && id.length ≤ 64 && (id.head?.any fun c => isLower c || c.isDigit) &&
    id.all fun c => isLower c || c.isDigit || c = '-'

namespace Frontend

variable (fe : Frontend)

/-- Whether the command runs here. A script is never looked up, only its name is checked. -/
def availOf (run : Str) : Except KeymapError Availability :=
  match stripPrefix lua run with
  | some name =>
    if validLuaName name then .ok (if fe.known.contains luaHost then .here else .notHere) else .error (.unknownCommand run)
  | none =>
    match stripPrefix user run with
    | some id =>
      if validUserId id then .ok (if fe.known.contains userHost then .here else .notHere) else .error (.unknownCommand run)
    | none =>
      if fe.known.contains run then .ok .here
      else
        match (fe.catalogue.lookup run).map CommandDef.status with
        | some (.planned reason issue) => .ok (.notBuilt reason issue)
        | some .live => .ok .notHere
        | none => .error (.unknownCommand run)

/-- The command that a name binds: the current one, for a name that was renamed. -/
def current (run : Str) : Str := (fe.catalogue.renamedTo run).getD run

@[simp] theorem current_current (run : Str) : fe.current (fe.current run) = fe.current run := by
  unfold current
  cases renamed : fe.catalogue.renamedTo run with
  | none => simp [renamed]
  | some new => simp [fe.catalogue.settled run new renamed]

/-- The chords of a sequence: a lone `esc` is a key, in a sequence it could not be reached. -/
def checkShape (on : List Str) (run : Str) (seq : List Chord) : Except KeymapError Unit :=
  if seq = [] then .error (.emptySequence run)
  else if 1 < seq.length ∧ seq.any Chord.isBareEsc then .error (.escInSequence on)
  else .ok ()

def checkBinding (raw : RawBinding) (section_ : Section) : Except KeymapError Binding := do
  let seq ← raw.on.mapM (parseChord fe.modKey)
  checkShape raw.on (fe.current raw.run) seq
  let avail ← fe.availOf (fe.current raw.run)
  return ⟨seq, fe.current raw.run, avail, section_ = .global⟩

end Frontend

/-- The first binding of each sequence, but for the sequences that were seen. -/
def firstOfEach (seen : List (List Chord)) : List Binding → List Binding
  | [] => []
  | b :: bs => if b.seq ∈ seen then firstOfEach seen bs else b :: firstOfEach (b.seq :: seen) bs

def strictPrefix (a b : List Chord) : Bool := a.length < b.length && a.isPrefixOf b

/-- One of the two that would keep the other from being reached. -/
def clash (a b : List Chord) : Option (List Chord × List Chord) :=
  if strictPrefix a b then some (a, b) else if strictPrefix b a then some (b, a) else none

def checkPrefixFree : List Binding → Except KeymapError Unit
  | [] => .ok ()
  | first :: rest =>
    match rest.findSome? fun second => clash first.seq second.seq with
    | some (shorter, longer) => .error (.ambiguousPrefix shorter longer)
    | none => checkPrefixFree rest

/-- The digit that a bare chord spells. -/
def digitOf (c : Chord) : Option Nat :=
  match c.code with
  | .char d => if c.mods = {} ∧ d.isDigit then some (d.toNat - '0'.toNat) else none
  | _ => none

/-- Zero never opens a count. -/
def opensCount (c : Chord) : Bool := (digitOf c).any (· ≠ 0)

/-- With counts, a digit cannot also open a binding. -/
def checkDigitsFree (bindings : List Binding) (counts : Bool) : Except KeymapError Unit :=
  if !counts then .ok ()
  else
    match bindings.findSome? fun b => b.seq.head?.bind fun first => if opensCount first then some (first, b.run) else none with
    | some (first, run) => .error (.digitBoundWithCounts first.display run)
    | none => .ok ()

/-- The keys of a screen that no binding takes, with what each is for. -/
def sacredChords : Screen → List (Chord × Str)
  | .browse => [(.new {} .tab, "pane.switch".toList)]
  | .viewer | .dialog => []

/-- Only alone and for its command may a reserved key be bound. -/
def takesSacred (sacred : Chord × Str) (b : Binding) : Bool :=
  b.seq.head? = some sacred.1 && !(b.seq = [sacred.1] && b.run = sacred.2)

def checkSacred (bindings : List Binding) (screen : Screen) : Except KeymapError Unit :=
  match (sacredChords screen).findSome? fun sacred => (bindings.find? (takesSacred sacred)).map (sacred, ·) with
  | some (sacred, b) => .error (.sacredKey sacred.1.display sacred.2 b.run)
  | none => .ok ()

/-! ### What the checks say -/

theorem strictPrefix_iff {a b : List Chord} : strictPrefix a b = true ↔ a <+: b ∧ a ≠ b := by
  simp only [strictPrefix, Bool.and_eq_true, decide_eq_true_eq, List.isPrefixOf_iff_prefix]
  constructor
  · rintro ⟨shorter, prefix_⟩
    refine ⟨prefix_, fun same => ?_⟩
    rw [same] at shorter
    omega
  · rintro ⟨prefix_, other⟩
    refine ⟨Nat.lt_of_le_of_ne prefix_.length_le fun same => ?_, prefix_⟩
    exact other (prefix_.eq_of_length same)

theorem clash_eq_none {a b : List Chord} : clash a b = none ↔ (a <+: b → a = b) ∧ (b <+: a → b = a) := by
  unfold clash
  split
  · rename_i strict
    have := strictPrefix_iff.mp strict
    simp [this.1, this.2]
  · rename_i plain
    split
    · rename_i strict
      have := strictPrefix_iff.mp strict
      simp [this.1, this.2]
    · rename_i plain'
      rw [strictPrefix_iff] at plain plain'
      simp only [true_iff]
      exact ⟨fun prefix_ => Classical.by_contradiction fun other => plain ⟨prefix_, other⟩,
        fun prefix_ => Classical.by_contradiction fun other => plain' ⟨prefix_, other⟩⟩

/-- No sequence is a prefix of another. -/
def PrefixFree (bindings : List Binding) : Prop := ∀ a ∈ bindings, ∀ b ∈ bindings, a.seq <+: b.seq → a.seq = b.seq

theorem checkPrefixFree_ok {bindings : List Binding} : checkPrefixFree bindings = .ok () ↔ PrefixFree bindings := by
  induction bindings with
  | nil => simp [checkPrefixFree, PrefixFree]
  | cons first rest ih =>
    have apart : (rest.findSome? fun second => clash first.seq second.seq) = none ↔
        ∀ b ∈ rest, (first.seq <+: b.seq → first.seq = b.seq) ∧ (b.seq <+: first.seq → b.seq = first.seq) := by
      simp only [List.findSome?_eq_none_iff, clash_eq_none]
    unfold checkPrefixFree
    split
    · rename_i found
      refine iff_of_false (fun ok => by cases ok) fun free => ?_
      have none_ := apart.mpr fun b later =>
        ⟨free first List.mem_cons_self b (List.mem_cons_of_mem _ later), free b (List.mem_cons_of_mem _ later) first List.mem_cons_self⟩
      rw [none_] at found
      cases found
    · rename_i none_
      rw [ih]
      constructor
      · intro free a inA b inB
        rcases List.mem_cons.mp inA with rfl | laterA
        · rcases List.mem_cons.mp inB with rfl | laterB
          · exact fun _ => rfl
          · exact (apart.mp none_ b laterB).1
        · rcases List.mem_cons.mp inB with rfl | laterB
          · exact (apart.mp none_ a laterA).2
          · exact free a laterA b laterB
      · exact fun free a later b later' => free a (List.mem_cons_of_mem _ later) b (List.mem_cons_of_mem _ later')

/-- No binding is opened by a digit that opens a count. -/
def DigitsFree (bindings : List Binding) : Prop := ∀ b ∈ bindings, ∀ first, b.seq.head? = some first → opensCount first = false

theorem checkDigitsFree_ok {bindings : List Binding} {counts : Bool} :
    checkDigitsFree bindings counts = .ok () ↔ (counts = true → DigitsFree bindings) := by
  have none_iff : (bindings.findSome? fun b => b.seq.head?.bind fun first => if opensCount first then some (first, b.run) else none) =
      none ↔ DigitsFree bindings := by
    simp only [List.findSome?_eq_none_iff, Option.bind_eq_none_iff, ite_eq_right_iff, reduceCtorEq, imp_false,
      Bool.not_eq_true, DigitsFree]
  cases counts with
  | false => simp [checkDigitsFree]
  | true =>
    simp only [checkDigitsFree, Bool.not_true, Bool.false_eq_true, if_false, true_implies]
    rw [← none_iff]
    split
    · rename_i found
      exact iff_of_false (fun ok => by cases ok) (by simp [found])
    · rename_i none_
      exact iff_of_true rfl none_

/-- No binding takes a key of the screen. -/
def SacredFree (bindings : List Binding) (screen : Screen) : Prop :=
  ∀ sacred ∈ sacredChords screen, ∀ b ∈ bindings, takesSacred sacred b = false

theorem checkSacred_ok {bindings : List Binding} {screen : Screen} :
    checkSacred bindings screen = .ok () ↔ SacredFree bindings screen := by
  have none_iff : ((sacredChords screen).findSome? fun sacred => (bindings.find? (takesSacred sacred)).map (sacred, ·)) =
      none ↔ SacredFree bindings screen := by
    simp only [List.findSome?_eq_none_iff, Option.map_eq_none_iff, List.find?_eq_none, Bool.not_eq_true, SacredFree]
  unfold checkSacred
  rw [← none_iff]
  split
  · rename_i found
    exact iff_of_false (fun ok => by cases ok) (by simp [found])
  · rename_i none_
    exact iff_of_true rfl none_

theorem checkSacred_error {bindings : List Binding} {screen : Screen} {e : KeymapError}
    (wrong : checkSacred bindings screen = .error e) : ∃ sacred ∈ sacredChords screen, ∃ b ∈ bindings,
      takesSacred sacred b = true ∧ e = .sacredKey sacred.1.display sacred.2 b.run := by
  unfold checkSacred at wrong
  split at wrong
  · rename_i sacred b found
    obtain ⟨reserved, member, first⟩ := List.exists_of_findSome?_eq_some found
    obtain ⟨taker, picked, pair⟩ := Option.map_eq_some_iff.mp first
    obtain ⟨rfl, rfl⟩ := Prod.mk.inj pair
    exact ⟨reserved, member, taker, List.mem_of_find?_eq_some picked, List.find?_some picked, (Except.error.inj wrong).symm⟩
  · cases wrong

/-- A binding has a sequence, and `esc` is not in a longer one. -/
def Shaped (bindings : List Binding) : Prop :=
  ∀ b ∈ bindings, b.seq ≠ [] ∧ (1 < b.seq.length → b.seq.any Chord.isBareEsc = false)

theorem checkShape_ok {on : List Str} {run : Str} {seq : List Chord} : Frontend.checkShape on run seq = .ok () ↔
    seq ≠ [] ∧ (1 < seq.length → seq.any Chord.isBareEsc = false) := by
  unfold Frontend.checkShape
  split
  · rename_i none_
    exact iff_of_false (fun ok => by cases ok) (by simp [none_])
  · split
    · rename_i some_ esc
      exact iff_of_false (fun ok => by cases ok) (by simp [esc.1, esc.2])
    · rename_i some_ plain
      exact iff_of_true rfl ⟨some_, fun longer => Bool.eq_false_iff.mpr fun esc => plain ⟨longer, esc⟩⟩

/-! ### The first of each sequence -/

theorem mem_firstOfEach {seen : List (List Chord)} {bindings : List Binding} {b : Binding} :
    b ∈ firstOfEach seen bindings ↔ b.seq ∉ seen ∧ bindings.find? (·.seq = b.seq) = some b := by
  induction bindings generalizing seen with
  | nil => simp [firstOfEach]
  | cons c cs ih =>
    unfold firstOfEach
    split
    · rename_i old
      rw [ih]
      by_cases same : c.seq = b.seq
      · simp [← same, old]
      · simp [same]
    · rename_i new
      rw [List.mem_cons, ih]
      by_cases same : c.seq = b.seq
      · simp only [List.find?_cons, same, decide_true, Option.some.injEq, List.mem_cons, true_or, not_true, false_and,
          or_false]
        exact ⟨fun eq => ⟨by rw [← same]; exact new, eq.symm⟩, fun both => both.2.symm⟩
      · have other : b ≠ c := fun eq => same (by rw [eq])
        simp [same, other, Ne.symm same]

theorem firstOfEach_once (seen : List (List Chord)) (bindings : List Binding) :
    ((firstOfEach seen bindings).map Binding.seq).Nodup := by
  induction bindings generalizing seen with
  | nil => exact .nil
  | cons c cs ih =>
    unfold firstOfEach
    split
    · exact ih seen
    · rw [List.map_cons, List.nodup_cons]
      refine ⟨fun again => ?_, ih _⟩
      obtain ⟨b, member, same⟩ := List.mem_map.mp again
      exact (mem_firstOfEach.mp member).1 (by simp [same])

/-- The same sequences are bound. -/
theorem firstOfEach_seqs {bindings : List Binding} {seq : List Chord} :
    (∃ b ∈ firstOfEach [] bindings, b.seq = seq) ↔ ∃ b ∈ bindings, b.seq = seq := by
  constructor
  · rintro ⟨b, member, same⟩
    exact ⟨b, List.mem_of_find?_eq_some (mem_firstOfEach.mp member).2, same⟩
  · rintro ⟨b, member, rfl⟩
    obtain ⟨c, found⟩ := Option.isSome_iff_exists.mp (List.find?_isSome (p := fun c => c.seq = b.seq) |>.mpr ⟨b, member, by simp⟩)
    have same : c.seq = b.seq := by simpa using List.find?_some found
    exact ⟨c, mem_firstOfEach.mpr ⟨by simp, by rw [same]; exact found⟩, same⟩

/-! ### The keymap -/

/-- The keymap that is in force, as it was checked. -/
structure Effective where
  bindings : List Binding
  screen : Screen
  counts : Bool
  typeToSearch : Bool
  discardedLuaBindings : Nat
  once : (bindings.map Binding.seq).Nodup
  shaped : Shaped bindings
  prefixFree : PrefixFree bindings
  digitsFree : counts = true → DigitsFree bindings
  sacredFree : SacredFree bindings screen

namespace Frontend

variable (fe : Frontend)

/-- Every binding of the files, checked, in the order in which they win. -/
def checkAll (preset : KeymapFile) (layers : List KeymapFile) (screen : Screen) : Except KeymapError (List Binding) :=
  (mergedBindings preset layers screen).mapM fun entry => fe.checkBinding entry.1 entry.2

theorem checkBinding_ok {raw : RawBinding} {section_ : Section} {b : Binding}
    (ok : fe.checkBinding raw section_ = .ok b) : raw.on.mapM (parseChord fe.modKey) = .ok b.seq ∧
      checkShape raw.on (fe.current raw.run) b.seq = .ok () ∧ fe.availOf (fe.current raw.run) = .ok b.avail ∧
      b.run = fe.current raw.run ∧ b.global = decide (section_ = .global) := by
  unfold checkBinding at ok
  cases parsed : raw.on.mapM (parseChord fe.modKey) with
  | error e => simp [parsed, bind, Except.bind] at ok
  | ok seq =>
    cases shape : checkShape raw.on (fe.current raw.run) seq with
    | error e => simp [parsed, shape, bind, Except.bind] at ok
    | ok u =>
      cases avail : fe.availOf (fe.current raw.run) with
      | error e => simp [parsed, shape, avail, bind, Except.bind] at ok
      | ok a =>
        simp only [parsed, shape, avail, bind, Except.bind, pure, Except.pure, Except.ok.injEq] at ok
        subst ok
        exact ⟨rfl, shape, rfl, rfl, rfl⟩

theorem checkAll_shaped {preset : KeymapFile} {layers : List KeymapFile} {screen : Screen} {all : List Binding}
    (ok : fe.checkAll preset layers screen = .ok all) : Shaped (firstOfEach [] all) := by
  intro b member
  have inside := List.mem_of_find?_eq_some (mem_firstOfEach.mp member).2
  obtain ⟨entry, -, checked⟩ := FirstError.mem_of_mapM ok inside
  exact checkShape_ok.mp (fe.checkBinding_ok checked).2.1

/-- `build_for`: the files merged for a screen, or the first thing that is wrong with them. -/
def buildFor (preset : KeymapFile) (layers : List KeymapFile) (screen : Screen) : Except KeymapError Effective :=
  match checkLayerKeys preset layers with
  | .error e => .error e
  | .ok () =>
    match checked : fe.checkAll preset layers screen with
    | .error e => .error e
    | .ok all =>
      let bindings := firstOfEach [] all
      match free : checkPrefixFree bindings with
      | .error e => .error e
      | .ok () =>
        match digits : checkDigitsFree bindings preset.counts with
        | .error e => .error e
        | .ok () =>
          match sacred : checkSacred bindings screen with
          | .error e => .error e
          | .ok () => .ok ⟨bindings, screen, preset.counts, preset.typeToSearch, discardedBindings layers screen,
              firstOfEach_once [] all, fe.checkAll_shaped checked, checkPrefixFree_ok.mp free,
              checkDigitsFree_ok.mp digits, checkSacred_ok.mp sacred⟩

/-- What is put together, and what it takes. -/
theorem buildFor_ok {preset : KeymapFile} {layers : List KeymapFile} {screen : Screen} {eff : Effective} :
    fe.buildFor preset layers screen = .ok eff ↔ ∃ all, checkLayerKeys preset layers = .ok () ∧
      fe.checkAll preset layers screen = .ok all ∧ eff.bindings = firstOfEach [] all ∧ eff.screen = screen ∧
      eff.counts = preset.counts ∧ eff.typeToSearch = preset.typeToSearch ∧
      eff.discardedLuaBindings = discardedBindings layers screen := by
  unfold buildFor
  constructor
  · intro ok
    split at ok
    · cases ok
    · rename_i keys
      split at ok
      · cases ok
      · rename_i all checked
        dsimp only at ok
        split at ok
        · cases ok
        · split at ok
          · cases ok
          · split at ok
            · cases ok
            · obtain rfl := Except.ok.inj ok
              exact ⟨all, keys, checked, rfl, rfl, rfl, rfl, rfl⟩
  · rintro ⟨all, keys, checked, bindings, screens, counts, search, discarded⟩
    obtain ⟨bs, screen', counts', search', discarded', once, shaped, free, digits, sacred⟩ := eff
    dsimp only at bindings screens counts search discarded
    subst bindings screens counts search discarded
    split
    · rename_i wrong
      rw [keys] at wrong
      cases wrong
    · split
      · rename_i wrong
        rw [checked] at wrong
        cases wrong
      · rename_i all' checked'
        rw [checked] at checked'
        obtain rfl := Except.ok.inj checked'
        dsimp only
        split
        · rename_i wrong
          rw [checkPrefixFree_ok.mpr free] at wrong
          cases wrong
        · split
          · rename_i wrong
            rw [checkDigitsFree_ok.mpr digits] at wrong
            cases wrong
          · split
            · rename_i wrong
              rw [checkSacred_ok.mpr sacred] at wrong
              cases wrong
            · rfl

end Frontend

end Norte.Keymap
