import Norte.KeyLoad

/-! Rebinding a key. A check on the keymap that is loaded says what a sequence would collide with;
a dry run puts the binding where the writer will put it and asks the loader. What the dry run
approves loads once it is written and the key runs the command, every other sequence keeps its
own, and the check and the dry run agree on what may be bound. -/
namespace Norte.Keymap

/-- What binding a sequence would collide with. -/
inductive Rebind where
  | free
  | replaces (command : Str) (avail : Availability)
  | prefixClash (with_ : List Chord) (command : Str)
  | sacred (reservedFor : Str)
  | digitWithCounts
  | empty
  | escInSequence
  | unwritable (chord : Chord)
  deriving DecidableEq

def Rebind.isRefusal : Rebind → Bool
  | free | replaces .. => false
  | _ => true

/-- Whether a chord that is written reads back as itself. -/
def roundTrips (modKey : ModKey) (c : Chord) : Bool := parseChord modKey c.display = .ok c

/-- In the order of the loader's own checks. -/
def rebindCheck (modKey : ModKey) (eff : Effective) (seq : List Chord) : Rebind :=
  match seq.find? fun c => !roundTrips modKey c with
  | some c => .unwritable c
  | none =>
    match seq with
    | [] => .empty
    | first :: rest =>
      if 1 < (first :: rest).length ∧ (first :: rest).any Chord.isBareEsc then .escInSequence
      else
        match eff.bindings.find? fun b => (clash b.seq (first :: rest)).isSome with
        | some b => .prefixClash b.seq b.run
        | none =>
          if eff.counts = true ∧ opensCount first then .digitWithCounts
          else
            match (sacredChords eff.screen).find? fun sacred => sacred.1 = first with
            | some sacred => .sacred sacred.2
            | none =>
              match eff.bindings.find? (·.seq = first :: rest) with
              | some b => .replaces b.run b.avail
              | none => .free

/-- What the loader would read after the write, cut at the layer that is written. -/
structure RebindSources where
  preset : KeymapFile
  below : List KeymapFile
  target : KeymapFile
  above : List KeymapFile
  screen : Screen

namespace RebindSources

/-- The layers with another file in the place of the one that is written. -/
def layers (src : RebindSources) (target : KeymapFile) : List KeymapFile := src.below ++ target :: src.above

/-- The file with other lists in the section of the screen. -/
def written (src : RebindSources) (s : RawSection) : KeymapFile := src.target.withSection src.screen s

def own (src : RebindSources) : RawSection := src.screen.specific src.target

end RebindSources

inductive RebindError where
  | load (error : KeymapError)
  | shadowed (by_ : Str) (avail : Availability)
  deriving DecidableEq

structure RebindWrite where
  section_ : String
  chords : List Str
  command : Str
  deriving DecidableEq, Repr

/-- `bind_in_list`: the first entry of these chords runs the command, or a new one at the end. -/
def bindInList (chords : List Str) (command : Str) : List RawBinding → List RawBinding
  | [] => [⟨chords, command⟩]
  | b :: bs => if b.on = chords then { b with run := command } :: bs else b :: bindInList chords command bs

namespace Frontend

variable (fe : Frontend)

/-- `insert-or-replace` by the sequence an entry is read as; with the list, the chords as they are
in the file. -/
def rebindList (seq : List Chord) (command : Str) : List RawBinding → List Str × List RawBinding
  | [] => (seq.map Chord.display, [⟨seq.map Chord.display, command⟩])
  | b :: bs =>
    if fe.parsesTo seq b then (b.on, { b with run := command } :: bs)
    else
      let rest := rebindList seq command bs
      (rest.1, b :: rest.2)

/-- `rebind_dry_run`. -/
def rebindDryRun (src : RebindSources) (seq : List Chord) (command : Str) : Except RebindError RebindWrite :=
  let command := fe.current command
  let rebound := fe.rebindList seq command src.own.prependKeymap
  match fe.buildFor src.preset (src.layers (src.written { src.own with prependKeymap := rebound.2 })) src.screen with
  | .error e => .error (.load e)
  | .ok after =>
    match after.lookup seq with
    | .exact by_ avail => if by_ = command then .ok ⟨src.screen.section, rebound.1, command⟩ else .error (.shadowed by_ avail)
    | .prefix_ | .miss => if [] = command then .ok ⟨src.screen.section, rebound.1, command⟩ else .error (.shadowed [] .here)

/-! ### What the other sequences see -/

/-- The bindings of the entries, but for those of one sequence. -/
def others (seq : List Chord) (entries : List (RawBinding × Section)) : List Binding :=
  (entries.filterMap fe.bound).filter (·.seq ≠ seq)

theorem others_append (seq : List Chord) (a b : List (RawBinding × Section)) :
    fe.others seq (a ++ b) = fe.others seq a ++ fe.others seq b := by
  simp only [others, List.filterMap_append, List.filter_append]

/-- An entry of the sequence is not seen. -/
theorem others_cons {seq : List Chord} {raw : RawBinding} (rest : List (RawBinding × Section)) (section_ : Section)
    (only : ∀ seq', fe.parsesTo seq' raw = true → seq' = seq) :
    fe.others seq ((raw, section_) :: rest) = fe.others seq rest := by
  unfold others
  cases ok : fe.bound (raw, section_) with
  | none => rw [List.filterMap_cons_none ok]
  | some b =>
    rw [List.filterMap_cons_some ok, List.filter_cons]
    simp [only b.seq (fe.bound_parses ok)]

/-- What is written of a sequence reads back as no other. -/
theorem parse_rendered {seq seq' : List Chord} (read : (seq.map Chord.display).mapM (parseChord fe.modKey) = .ok seq') :
    (∀ c ∈ seq, c.code.Known) ∧ seq' = seq := by
  have each := FirstError.mapM_ok.mp read
  rw [List.forall₂_map_left_iff] at each
  induction each with
  | nil => simp
  | cons head tail ih =>
    obtain ⟨known, rfl⟩ := parse_display_only head
    obtain ⟨later, rfl⟩ := ih (FirstError.mapM_ok.mpr (List.forall₂_map_left_iff.mpr tail))
    exact ⟨by simpa using ⟨known, later⟩, rfl⟩

theorem rendered_parses {seq : List Chord} (known : ∀ c ∈ seq, c.code.Known) :
    (seq.map Chord.display).mapM (parseChord fe.modKey) = .ok seq := by
  rw [FirstError.mapM_ok, List.forall₂_map_left_iff, List.forall₂_same]
  exact fun c member => parse_display fe.modKey c (known c member)

theorem others_rebound (seq : List Chord) (command : Str) (keep : RawBinding → Bool) (section_ : Section)
    (list : List RawBinding) :
    fe.others seq (((fe.rebindList seq command list).2.filter keep).map (·, section_)) =
      fe.others seq ((list.filter keep).map (·, section_)) := by
  induction list with
  | nil =>
    rw [rebindList, List.filter_cons]
    split
    · exact fe.others_cons [] section_ fun seq' read => (fe.parse_rendered (by simpa [parsesTo] using read)).2
    · rfl
  | cons b bs ih =>
    have unseen (raw : RawBinding) (on : raw.on = b.on) (parses : fe.parsesTo seq b = true) :
        fe.others seq (((raw :: bs).filter keep).map (·, section_)) = fe.others seq ((bs.filter keep).map (·, section_)) := by
      rw [List.filter_cons]
      split
      · refine fe.others_cons _ section_ fun seq' again => fe.parses_only parses ?_
        simpa only [parsesTo, on] using again
      · rfl
    unfold rebindList
    split
    · rename_i parses
      exact (unseen { b with run := command } rfl parses).trans (unseen b rfl parses).symm
    · rw [List.filter_cons, List.filter_cons]
      split
      · have apart (rest : List RawBinding) : fe.others seq ((b :: rest).map (·, section_)) =
            fe.others seq [(b, section_)] ++ fe.others seq (rest.map (·, section_)) := fe.others_append seq [(b, section_)] _
        rw [apart, apart, ih]
      · exact ih

/-- The same bindings for the other sequences, where the two lists of the file have the same. -/
theorem others_merged (src : RebindSources) (seq : List Chord) (own : RawSection)
    (prepend : ∀ keep : RawBinding → Bool, fe.others seq ((own.prependKeymap.filter keep).map (·, .specific)) =
      fe.others seq ((src.own.prependKeymap.filter keep).map (·, .specific)))
    (append : ∀ keep : RawBinding → Bool, fe.others seq ((own.appendKeymap.filter keep).map (·, .specific)) =
      fe.others seq ((src.own.appendKeymap.filter keep).map (·, .specific))) :
    fe.others seq (mergedBindings src.preset (src.layers (src.written own)) src.screen) =
      fe.others seq (mergedBindings src.preset (src.layers src.target) src.screen) := by
  have project : discards (src.written own) = discards src.target := by
    funext b
    simp [discards, RebindSources.written]
  have prepend' := prepend fun b => !discards src.target b
  have append' := append fun b => !discards src.target b
  simp only [RebindSources.own] at prepend' append'
  simp only [mergedBindings, mergeCtx, RebindSources.layers, List.reverse_append, List.reverse_cons, List.flatMap_append,
    List.flatMap_cons, List.flatMap_nil, List.append_nil, List.map_append, others_append, project]
  simp only [RebindSources.written, specific_withSection, global_withSection, prepend', append']

theorem find_others {seq s : List Chord} (other : s ≠ seq) (entries : List (RawBinding × Section)) :
    (entries.filterMap fe.bound).find? (·.seq = s) = (fe.others seq entries).find? (·.seq = s) := by
  rw [others, List.find?_filter]
  congr 1
  funext b
  by_cases same : b.seq = s
  · simp [same, other]
  · simp [same]

/-! ### A sequence in the keymap -/

end Frontend

/-- What the sequence needs to be bound beside what is bound. -/
structure Fits (eff : Effective) (seq : List Chord) : Prop where
  known : ∀ c ∈ seq, c.code.Known
  some_ : seq ≠ []
  esc : 1 < seq.length → seq.any Chord.isBareEsc = false
  apart : ∀ b ∈ eff.bindings, clash b.seq seq = none
  digits : eff.counts = true → ∀ first, seq.head? = some first → opensCount first = false

/-- The keys of the screen are not in the way. -/
def OffSacred (eff : Effective) (seq : List Chord) : Prop := ∀ sacred ∈ sacredChords eff.screen, seq.head? ≠ some sacred.1

theorem roundTrips_iff {modKey : ModKey} {c : Chord} : roundTrips modKey c = true ↔ c.code.Known := by
  simp only [roundTrips, decide_eq_true_eq]
  exact ⟨fun read => (parse_display_only read).1, parse_display modKey c⟩

/-- The check lets through exactly what fits off the keys of the screen. -/
theorem rebindCheck_iff {modKey : ModKey} {eff : Effective} {seq : List Chord} :
    (rebindCheck modKey eff seq).isRefusal = false ↔ Fits eff seq ∧ OffSacred eff seq := by
  unfold rebindCheck
  split
  · rename_i c found
    refine iff_of_false (by simp [Rebind.isRefusal]) fun fits => ?_
    have unknown : roundTrips modKey c = false := by simpa using List.find?_some found
    rw [roundTrips_iff.mpr (fits.1.known c (List.mem_of_find?_eq_some found))] at unknown
    cases unknown
  · rename_i all
    have known : ∀ c ∈ seq, c.code.Known := by
      intro c member
      have := List.find?_eq_none.mp all c member
      simpa [roundTrips_iff] using this
    cases seq with
    | nil => exact iff_of_false (by simp [Rebind.isRefusal]) fun fits => fits.1.some_ rfl
    | cons first rest =>
      dsimp only
      split
      · rename_i inside
        refine iff_of_false (by simp [Rebind.isRefusal]) fun fits => ?_
        rw [fits.1.esc inside.1] at inside
        cases inside.2
      · rename_i plain
        split
        · rename_i b found
          refine iff_of_false (by simp [Rebind.isRefusal]) fun fits => ?_
          have clashes := List.find?_some found
          rw [fits.1.apart b (List.mem_of_find?_eq_some found)] at clashes
          cases clashes
        · rename_i apart
          split
          · rename_i digit
            refine iff_of_false (by simp [Rebind.isRefusal]) fun fits => ?_
            rw [fits.1.digits digit.1 first rfl] at digit
            cases digit.2
          · rename_i off
            split
            · rename_i sacred found
              refine iff_of_false (by simp [Rebind.isRefusal]) fun fits => ?_
              have same : sacred.1 = first := by simpa using List.find?_some found
              exact fits.2 sacred (List.mem_of_find?_eq_some found) (by simp [same])
            · rename_i free
              refine iff_of_true (by split <;> rfl) ⟨⟨known, by simp, ?_, ?_, ?_⟩, ?_⟩
              · exact fun longer => Bool.eq_false_iff.mpr fun esc => plain ⟨longer, esc⟩
              · intro b member
                simpa using List.find?_eq_none.mp apart b member
              · intro counts f head
                obtain rfl := Option.some.inj head
                exact Bool.eq_false_iff.mpr fun opens => off ⟨counts, opens⟩
              · intro sacred member same
                have other := List.find?_eq_none.mp free sacred member
                simp only [List.head?_cons, Option.some.injEq] at same
                simp [same] at other

/-- A list of bindings that differs from another in one sequence. -/
theorem mem_other {all all' : List Binding} {seq : List Chord}
    (same : ∀ s, s ≠ seq → all'.find? (·.seq = s) = all.find? (·.seq = s)) {b : Binding} (other : b.seq ≠ seq) :
    b ∈ firstOfEach [] all' ↔ b ∈ firstOfEach [] all := by
  rw [mem_firstOfEach, mem_firstOfEach, same b.seq other]

theorem prefixFree_other {all all' : List Binding} {seq : List Chord}
    (same : ∀ s, s ≠ seq → all'.find? (·.seq = s) = all.find? (·.seq = s)) (free : PrefixFree (firstOfEach [] all))
    (apart : ∀ b ∈ firstOfEach [] all, clash b.seq seq = none) : PrefixFree (firstOfEach [] all') := by
  intro a inA b inB prefix_
  by_cases onA : a.seq = seq
  · by_cases onB : b.seq = seq
    · rw [onA, onB]
    · rw [onA] at prefix_ ⊢
      exact (clash_eq_none.mp (apart b ((mem_other same onB).mp inB))).2 prefix_
  · by_cases onB : b.seq = seq
    · rw [onB] at prefix_ ⊢
      exact (clash_eq_none.mp (apart a ((mem_other same onA).mp inA))).1 prefix_
    · exact free a ((mem_other same onA).mp inA) b ((mem_other same onB).mp inB) prefix_

theorem digitsFree_other {all all' : List Binding} {seq : List Chord}
    (same : ∀ s, s ≠ seq → all'.find? (·.seq = s) = all.find? (·.seq = s)) (free : DigitsFree (firstOfEach [] all))
    (digits : ∀ first, seq.head? = some first → opensCount first = false) : DigitsFree (firstOfEach [] all') := by
  intro b member first head
  by_cases on : b.seq = seq
  · exact digits first (on ▸ head)
  · exact free b ((mem_other same on).mp member) first head

namespace Frontend

variable (fe : Frontend)

theorem mem_mergeCtx {preset : KeymapFile} {layers : List KeymapFile} {get : KeymapFile → RawSection} {b : RawBinding} :
    b ∈ mergeCtx preset layers get ↔ (∃ l ∈ layers, (b ∈ (get l).prependKeymap ∨ b ∈ (get l).appendKeymap) ∧
      discards l b = false) ∨ b ∈ (get preset).keymap := by
  simp only [mergeCtx, List.mem_append, List.mem_flatMap, List.mem_reverse, List.mem_filter, Bool.not_eq_true']
  constructor
  · rintro (⟨l, member, inside, kept⟩ | own | ⟨l, member, inside, kept⟩)
    · exact .inl ⟨l, member, .inl inside, kept⟩
    · exact .inr own
    · exact .inl ⟨l, member, .inr inside, kept⟩
  · rintro (⟨l, member, inside | inside, kept⟩ | own)
    · exact .inl ⟨l, member, inside, kept⟩
    · exact .inr (.inr ⟨l, member, inside, kept⟩)
    · exact .inr (.inl own)

theorem mem_mergedBindings {preset : KeymapFile} {layers : List KeymapFile} {screen : Screen} {entry : RawBinding × Section} :
    entry ∈ mergedBindings preset layers screen ↔
      (entry.1 ∈ mergeCtx preset layers screen.specific ∧ entry.2 = .specific) ∨
        (entry.1 ∈ mergeCtx preset layers KeymapFile.global ∧ entry.2 = .global) := by
  obtain ⟨raw, section_⟩ := entry
  simp only [mergedBindings, List.mem_append, List.mem_map, Prod.mk.injEq, ↓existsAndEq, true_and, eq_comm]

/-- What is read after the write was read before, or is in the section that is written. -/
theorem mem_written {src : RebindSources} {own : RawSection} {entry : RawBinding × Section}
    (member : entry ∈ mergedBindings src.preset (src.layers (src.written own)) src.screen) :
    entry ∈ mergedBindings src.preset (src.layers src.target) src.screen ∨
      (entry.2 = .specific ∧ (entry.1 ∈ own.prependKeymap ∨ entry.1 ∈ own.appendKeymap) ∧ discards src.target entry.1 = false) := by
  have project : discards (src.written own) = discards src.target := by
    funext b
    simp [discards, RebindSources.written]
  simp only [mem_mergedBindings, mem_mergeCtx, RebindSources.layers, List.mem_append, List.mem_cons] at member ⊢
  rcases member with ⟨⟨l, below | rfl | above, inside, kept⟩ | preset, section_⟩ | ⟨⟨l, below | rfl | above, inside, kept⟩ | preset, section_⟩
  · exact .inl (.inl ⟨.inl ⟨l, .inl below, inside, kept⟩, section_⟩)
  · rw [project] at kept
    simp only [RebindSources.written, specific_withSection] at inside
    exact .inr ⟨section_, inside, kept⟩
  · exact .inl (.inl ⟨.inl ⟨l, .inr (.inr above), inside, kept⟩, section_⟩)
  · exact .inl (.inl ⟨.inr preset, section_⟩)
  · exact .inl (.inr ⟨.inl ⟨l, .inl below, inside, kept⟩, section_⟩)
  · rw [project] at kept
    simp only [RebindSources.written, global_withSection] at inside
    exact .inl (.inr ⟨.inl ⟨src.target, .inr (.inl rfl), inside, kept⟩, section_⟩)
  · exact .inl (.inr ⟨.inl ⟨l, .inr (.inr above), inside, kept⟩, section_⟩)
  · exact .inl (.inr ⟨.inr preset, section_⟩)

theorem mem_own {src : RebindSources} {b : RawBinding} (inside : b ∈ src.own.prependKeymap ∨ b ∈ src.own.appendKeymap)
    (kept : discards src.target b = false) : (b, Section.specific) ∈ mergedBindings src.preset (src.layers src.target) src.screen := by
  rw [mem_mergedBindings, mem_mergeCtx]
  exact .inl ⟨.inl ⟨src.target, by simp [RebindSources.layers], inside, kept⟩, rfl⟩

theorem checkLayerKeys_written (src : RebindSources) (prepend append : List RawBinding) :
    checkLayerKeys src.preset (src.layers (src.written { src.own with prependKeymap := prepend, appendKeymap := append })) =
      checkLayerKeys src.preset (src.layers src.target) := by
  have each : checkLayer (src.written { src.own with prependKeymap := prepend, appendKeymap := append }) = checkLayer src.target := by
    unfold RebindSources.written RebindSources.own
    cases src.screen <;> rfl
  unfold checkLayerKeys
  split
  · rfl
  · have step (l : KeymapFile) (ls : List KeymapFile) : (l :: ls).forM checkLayer = (checkLayer l).bind fun _ => ls.forM checkLayer := rfl
    unfold RebindSources.layers
    induction src.below with
    | nil => rw [List.nil_append, List.nil_append, step, step, each]
    | cons l ls ih => rw [List.cons_append, List.cons_append, step, step, ih]

/-! ### The list that is written -/

section List

variable (seq : List Chord) (command : Str)

theorem rebindList_new (list : List RawBinding) :
    (⟨(fe.rebindList seq command list).1, command⟩ : RawBinding) ∈ (fe.rebindList seq command list).2 := by
  induction list with
  | nil => exact List.mem_singleton.mpr rfl
  | cons b bs ih =>
    unfold rebindList
    split
    · exact List.mem_cons_self
    · exact List.mem_cons_of_mem _ ih

theorem mem_rebindList {list : List RawBinding} {b : RawBinding} (member : b ∈ (fe.rebindList seq command list).2) :
    b ∈ list ∨ b = ⟨(fe.rebindList seq command list).1, command⟩ := by
  induction list with
  | nil => exact .inr (List.mem_singleton.mp member)
  | cons c cs ih =>
    unfold rebindList at member ⊢
    split
    · rename_i parses
      rw [if_pos parses] at member
      rcases List.mem_cons.mp member with rfl | later
      · exact .inr rfl
      · exact .inl (List.mem_cons_of_mem _ later)
    · rename_i other
      rw [if_neg other] at member
      rcases List.mem_cons.mp member with rfl | later
      · exact .inl List.mem_cons_self
      · exact (ih later).imp (List.mem_cons_of_mem _) id

/-- The chords that are written are the sequence, or are nothing that loads. -/
theorem rebindList_reads {list : List RawBinding} {seq' : List Chord}
    (read : (fe.rebindList seq command list).1.mapM (parseChord fe.modKey) = .ok seq') : seq' = seq := by
  induction list with
  | nil => exact (fe.parse_rendered read).2
  | cons b bs ih =>
    unfold rebindList at read
    split at read
    · rename_i parses
      exact fe.parses_only parses (by simpa [parsesTo] using read)
    · exact ih read

theorem rebindList_parses (known : ∀ c ∈ seq, c.code.Known) (list : List RawBinding) :
    (fe.rebindList seq command list).1.mapM (parseChord fe.modKey) = .ok seq := by
  induction list with
  | nil => exact fe.rendered_parses known
  | cons b bs ih =>
    unfold rebindList
    split
    · rename_i parses
      simpa [parsesTo] using parses
    · exact ih

/-- The writer, which compares the bytes of the chords, makes the list that was checked. -/
theorem bindInList_rebindList (known : ∀ c ∈ seq, c.code.Known) (list : List RawBinding) :
    bindInList (fe.rebindList seq command list).1 command list = (fe.rebindList seq command list).2 := by
  induction list with
  | nil => rfl
  | cons b bs ih =>
    unfold rebindList
    split
    · exact if_pos rfl
    · rename_i other
      have apart : b.on ≠ (fe.rebindList seq command bs).1 := fun same =>
        other (by simpa [parsesTo, same] using fe.rebindList_parses seq command known bs)
      rw [bindInList, if_neg apart, ih]

end List

/-! ### The map after the write -/

/-- The layers that the dry run loads. -/
def rebound (src : RebindSources) (seq : List Chord) (command : Str) : List KeymapFile :=
  src.layers (src.written { src.own with
    prependKeymap := (fe.rebindList seq (fe.current command) src.own.prependKeymap).2 })

/-- The chords of a keymap that loads were read. -/
theorem known_of_loads {preset : KeymapFile} {layers : List KeymapFile} {screen : Screen} {eff : Effective}
    (loads : fe.buildFor preset layers screen = .ok eff) {b : Binding} (member : b ∈ eff.bindings) :
    ∀ c ∈ b.seq, c.code.Known := by
  obtain ⟨all, -, checked, bindings, -⟩ := fe.buildFor_ok.mp loads
  rw [bindings] at member
  obtain ⟨entry, -, ok⟩ := FirstError.mem_of_mapM checked (List.mem_of_find?_eq_some (mem_firstOfEach.mp member).2)
  intro c inside
  obtain ⟨text, -, read⟩ := FirstError.mem_of_mapM (fe.checkBinding_ok ok).1 inside
  exact parse_known read

/-- Every sequence but the one that is written keeps its binding. -/
theorem frame {src : RebindSources} {layers : List KeymapFile} {before after : Effective} {seq : List Chord}
    (loads : fe.buildFor src.preset (src.layers src.target) src.screen = .ok before)
    (again : fe.buildFor src.preset layers src.screen = .ok after)
    (same : fe.others seq (mergedBindings src.preset layers src.screen) =
      fe.others seq (mergedBindings src.preset (src.layers src.target) src.screen)) {s : List Chord} (other : s ≠ seq) :
    after.bindings.find? (·.seq = s) = before.bindings.find? (·.seq = s) := by
  rw [fe.find_of_loads again, fe.find_of_loads loads, fe.find_others other, fe.find_others other, same]

theorem others_dryRun (src : RebindSources) (seq : List Chord) (command : Str) :
    fe.others seq (mergedBindings src.preset (fe.rebound src seq command) src.screen) =
      fe.others seq (mergedBindings src.preset (src.layers src.target) src.screen) :=
  fe.others_merged src seq _ (fun keep => fe.others_rebound seq (fe.current command) keep .specific src.own.prependKeymap)
    fun _ => rfl

/-- The entry that is written is read, where the file is not a project's. -/
theorem mem_rebound (src : RebindSources) {seq : List Chord} {command : Str} {raw : RawBinding}
    (member : raw ∈ (fe.rebindList seq (fe.current command) src.own.prependKeymap).2)
    (kept : discards src.target raw = false) :
    (raw, Section.specific) ∈ mergedBindings src.preset (fe.rebound src seq command) src.screen := by
  rw [mem_mergedBindings, mem_mergeCtx]
  refine .inl ⟨.inl ⟨_, List.mem_append.mpr (.inr List.mem_cons_self), .inl ?_, ?_⟩, rfl⟩
  · simpa only [RebindSources.written, specific_withSection] using member
  · simpa [discards, RebindSources.written] using kept

/-- What is read is bound, by itself or by one before it. -/
theorem lookup_of_loads {preset : KeymapFile} {layers : List KeymapFile} {screen : Screen} {eff : Effective}
    (loads : fe.buildFor preset layers screen = .ok eff) {entry : RawBinding × Section}
    (member : entry ∈ mergedBindings preset layers screen) :
    ∃ b run avail, fe.checkBinding entry.1 entry.2 = .ok b ∧ eff.lookup b.seq = .exact run avail := by
  obtain ⟨all, -, checked, bindings, -⟩ := fe.buildFor_ok.mp loads
  obtain ⟨b, ok⟩ := fe.bound_of_loads loads member
  have inside : b ∈ all := by
    rw [← FirstError.filterMap_toOption checked]
    exact List.mem_filterMap.mpr ⟨entry, member, by rw [ok]; rfl⟩
  obtain ⟨c, first, same⟩ := firstOfEach_seqs.mpr ⟨b, inside, rfl⟩
  exact ⟨b, c.run, c.avail, ok, eff.lookup_exact.mpr ⟨c, bindings ▸ first, same, rfl, rfl⟩⟩

/-- What the dry run approves is bound in the map it built. -/
theorem dryRun_ok {src : RebindSources} {seq : List Chord} {command : Str} {w : RebindWrite} :
    fe.rebindDryRun src seq command = .ok w ↔
      w = ⟨src.screen.section, (fe.rebindList seq (fe.current command) src.own.prependKeymap).1, fe.current command⟩ ∧
        ∃ after avail, fe.buildFor src.preset (fe.rebound src seq command) src.screen = .ok after ∧
          after.lookup seq = .exact (fe.current command) avail := by
  unfold rebindDryRun rebound
  dsimp only
  split
  · rename_i wrong
    refine iff_of_false (fun ok => by cases ok) fun ⟨_, after, _, ok, _⟩ => ?_
    rw [wrong] at ok
    cases ok
  · rename_i after loads
    -- A key that is not bound does not run the empty command either: the entry of that was read.
    have unbound (none_ : ∀ run avail, after.lookup seq ≠ .exact run avail) : [] ≠ fe.current command := by
      intro empty
      have kept : discards src.target ⟨(fe.rebindList seq (fe.current command) src.own.prependKeymap).1, fe.current command⟩ = false := by
        simp [discards, RawBinding.isScript, ← empty, lua, user]
      obtain ⟨b, run, avail, ok, found⟩ := fe.lookup_of_loads loads
        (fe.mem_rebound src (fe.rebindList_new seq (fe.current command) src.own.prependKeymap) kept)
      rw [fe.rebindList_reads seq (fe.current command) (fe.checkBinding_ok ok).1] at found
      exact none_ run avail found
    have only : (∃ after' avail, Except.ok after = (Except.ok after' : Except KeymapError Effective) ∧
        after'.lookup seq = .exact (fe.current command) avail) ↔ ∃ avail, after.lookup seq = .exact (fe.current command) avail := by
      simp
    rw [loads, only]
    split
    · rename_i by_ avail found
      rw [found]
      by_cases same : by_ = fe.current command
      · simp [same, eq_comm]
      · simp [same]
    · rename_i found
      rw [found, if_neg (unbound (by simp [found]))]
      simp
    · rename_i found
      rw [found, if_neg (unbound (by simp [found]))]
      simp

/-- What the dry run approves is what the writer makes, and it loads, also where the file did not:
the sequence runs the command, and every other sequence what it ran before. -/
theorem dryRun_written {src : RebindSources} {seq : List Chord} {command : Str} {w : RebindWrite}
    (approved : fe.rebindDryRun src seq command = .ok w) :
    ∃ after, fe.buildFor src.preset (src.layers (src.written { src.own with
        prependKeymap := bindInList w.chords w.command src.own.prependKeymap })) src.screen = .ok after ∧
      (∃ avail, after.lookup seq = .exact (fe.current command) avail) ∧
      ∀ before, fe.buildFor src.preset (src.layers src.target) src.screen = .ok before →
        ∀ s, s ≠ seq → ∀ run avail, after.lookup s = .exact run avail ↔ before.lookup s = .exact run avail := by
  obtain ⟨rfl, after, avail, again, runs⟩ := fe.dryRun_ok.mp approved
  obtain ⟨b, member, rfl, -⟩ := after.lookup_exact.mp runs
  rw [fe.bindInList_rebindList b.seq (fe.current command) (fe.known_of_loads again member)]
  refine ⟨after, again, ⟨avail, runs⟩, fun before loads s other run avail => ?_⟩
  rw [Effective.lookup_find, Effective.lookup_find, fe.frame loads again (fe.others_dryRun src b.seq command) other]

/-- A user's file that spells `ctrl+j` another way, over the preset. -/
def spelledMod : RebindSources :=
  ⟨onlyF5, [], { pane := { prependKeymap := [⟨["mod+j".toList], "pane.copy".toList⟩] } }, [], .browse⟩

def ctrlJ : Chord := .new { ctrl := true } (.char 'j')

theorem dryRun_written_mod : ∃ before after,
    twoCommands.buildFor spelledMod.preset (spelledMod.layers spelledMod.target) .browse = .ok before ∧
      twoCommands.buildFor spelledMod.preset (spelledMod.layers (spelledMod.written { spelledMod.own with
        prependKeymap := bindInList ["mod+j".toList] "pane.move".toList spelledMod.own.prependKeymap })) .browse = .ok after ∧
      (∃ avail, after.lookup [ctrlJ] = .exact "pane.move".toList avail) ∧
      ∀ s, s ≠ [ctrlJ] → ∀ run avail, after.lookup s = .exact run avail ↔ before.lookup s = .exact run avail := by
  obtain ⟨before, loads⟩ : ∃ before, twoCommands.buildFor spelledMod.preset (spelledMod.layers spelledMod.target) .browse = .ok before :=
    ⟨_, rfl⟩
  have approved : twoCommands.rebindDryRun spelledMod [ctrlJ] "pane.move".toList =
      .ok ⟨"pane", ["mod+j".toList], "pane.move".toList⟩ := rfl
  obtain ⟨after, again, runs, others⟩ := twoCommands.dryRun_written approved
  exact ⟨before, after, loads, again, runs, others before loads⟩

/-! ### Where the entry that is written stands -/

/-- What the layers above put before it. -/
def outranking (src : RebindSources) : List (RawBinding × Section) :=
  (src.above.reverse.flatMap fun l => (src.screen.specific l).prependKeymap.filter fun b => !discards l b).map (·, .specific)

theorem merged_split (src : RebindSources) (own : RawSection) (file : src.target.project = false) :
    ∃ rest, mergedBindings src.preset (src.layers (src.written own)) src.screen =
      outranking src ++ (own.prependKeymap.map (·, .specific) ++ rest) := by
  have all : (own.prependKeymap.filter fun b => !discards (src.written own) b) = own.prependKeymap := by
    simp [discards, RebindSources.written, file]
  simp only [mergedBindings, mergeCtx, RebindSources.layers, List.reverse_append, List.reverse_cons, List.flatMap_append,
    List.flatMap_cons, List.flatMap_nil, List.append_nil, List.map_append, List.append_assoc, outranking]
  simp only [RebindSources.written, specific_withSection] at all ⊢
  rw [all]
  exact ⟨_, rfl⟩

theorem written_own (src : RebindSources) : src.written src.own = src.target := by
  unfold RebindSources.written RebindSources.own
  cases src.screen <;> rfl

/-- In its own list the entry that is written is the first of the sequence. -/
theorem find_rebound {seq : List Chord} {command : Str} {list : List RawBinding} {c : Binding}
    (ok : fe.checkBinding ⟨(fe.rebindList seq command list).1, command⟩ .specific = .ok c) :
    (((fe.rebindList seq command list).2.map fun b => (b, Section.specific)).filterMap fe.bound).find? (·.seq = seq) = some c := by
  have first (raw : RawBinding) (ok : fe.checkBinding raw .specific = .ok c) (same : c.seq = seq) (rest : List (RawBinding × Section)) :
      (((raw, Section.specific) :: rest).filterMap fe.bound).find? (·.seq = seq) = some c := by
    rw [List.filterMap_cons_some (by rw [bound, ok]; rfl), List.find?_cons_of_pos (by simpa using same)]
  have same := fe.rebindList_reads seq command (fe.checkBinding_ok ok).1
  induction list with
  | nil => exact first _ ok same []
  | cons b bs ih =>
    unfold rebindList at ok ⊢
    split
    · rename_i parses
      rw [if_pos parses] at ok
      exact first _ ok same _
    · rename_i other
      rw [if_neg other] at ok
      have later := ih ok
      rw [List.map_cons]
      cases bound : fe.bound (b, Section.specific) with
      | none => rwa [List.filterMap_cons_none bound]
      | some d =>
        have apart : d.seq ≠ seq := fun on => other (on ▸ fe.bound_parses bound)
        rwa [List.filterMap_cons_some bound, List.find?_cons_of_neg (by simpa using apart)]

/-- A layer above has the sequence, or the entry that is written. -/
theorem find_written {src : RebindSources} {seq : List Chord} {command : Str} {c : Binding} (file : src.target.project = false)
    (ok : fe.checkBinding ⟨(fe.rebindList seq (fe.current command) src.own.prependKeymap).1, fe.current command⟩ .specific = .ok c) :
    ((mergedBindings src.preset (fe.rebound src seq command) src.screen).filterMap fe.bound).find? (·.seq = seq) =
      (((outranking src).filterMap fe.bound).find? (·.seq = seq)).or (some c) := by
  obtain ⟨rest, merged⟩ := merged_split src { src.own with
    prependKeymap := (fe.rebindList seq (fe.current command) src.own.prependKeymap).2 } file
  rw [rebound, merged, List.filterMap_append, List.filterMap_append, List.find?_append, List.find?_append, fe.find_rebound ok]
  rfl

/-- A binding that loads and does not fire has a layer above that keeps the key. -/
theorem dryRun_shadowed {src : RebindSources} {seq : List Chord} {command by_ : Str} {avail : Availability}
    (file : src.target.project = false) (shadowed : fe.rebindDryRun src seq command = .error (.shadowed by_ avail)) :
    by_ ≠ fe.current command ∧ ∃ layer ∈ src.above, ∃ raw ∈ (src.screen.specific layer).prependKeymap,
      fe.parsesTo seq raw = true ∧ fe.current raw.run = by_ ∧ fe.availOf by_ = .ok avail := by
  unfold rebindDryRun at shadowed
  dsimp only at shadowed
  split at shadowed
  · cases shadowed
  · rename_i after loads
    have member := fe.mem_rebound src (fe.rebindList_new seq (fe.current command) src.own.prependKeymap)
      (by simp [discards, file])
    obtain ⟨c, run, avail', ok, found⟩ := fe.lookup_of_loads loads member
    have same := fe.rebindList_reads seq (fe.current command) (fe.checkBinding_ok ok).1
    rw [same] at found
    rw [found] at shadowed
    dsimp only at shadowed
    split at shadowed
    · cases shadowed
    · rename_i other
      obtain ⟨rfl, rfl⟩ : run = by_ ∧ avail' = avail := by simpa using shadowed
      refine ⟨other, ?_⟩
      obtain ⟨b, first, rfl, rfl⟩ := after.lookup_find.mp found
      have placed := fe.find_written file ok
      unfold rebound at placed
      rw [fe.find_of_loads loads, placed] at first
      cases above : ((outranking src).filterMap fe.bound).find? (·.seq = seq) with
      | none =>
        rw [above] at first
        obtain rfl : c = b := by simpa using first
        exact absurd (by simpa using (fe.checkBinding_ok ok).2.2.2.1) other
      | some d =>
        rw [above] at first
        obtain rfl : d = b := by simpa using first
        obtain ⟨entry, inside, checked⟩ := List.mem_filterMap.mp (List.mem_of_find?_eq_some above)
        have on : d.seq = seq := by simpa using List.find?_some above
        obtain ⟨raw, member, rfl⟩ := List.mem_map.mp inside
        obtain ⟨layer, higher, kept⟩ := List.mem_flatMap.mp member
        have ok' : fe.checkBinding raw .specific = .ok d := by
          cases read : fe.checkBinding raw .specific <;> simp [bound, read, Except.toOption] at checked ⊢
          exact checked
        obtain ⟨-, -, avail, runs, -⟩ := fe.checkBinding_ok ok'
        exact ⟨layer, List.mem_reverse.mp higher, raw, (List.mem_filter.mp kept).1, on ▸ fe.bound_parses checked, runs.symm,
          by rw [runs]; exact avail⟩

/-- A project's layer that keeps `ctrl+j`. -/
def keptAbove : RebindSources :=
  { spelledMod with above := [{ pane := { prependKeymap := [⟨["ctrl+j".toList], "pane.copy".toList⟩] }, project := true }] }

theorem dryRun_shadowed_project : "pane.copy".toList ≠ "pane.move".toList ∧
    ∃ layer ∈ keptAbove.above, ∃ raw ∈ (keptAbove.screen.specific layer).prependKeymap,
      twoCommands.parsesTo [ctrlJ] raw = true ∧ twoCommands.current raw.run = "pane.copy".toList ∧
        twoCommands.availOf "pane.copy".toList = .ok .here :=
  have refused : twoCommands.rebindDryRun keptAbove [ctrlJ] "pane.move".toList = .error (.shadowed "pane.copy".toList .here) := rfl
  twoCommands.dryRun_shadowed rfl refused

/-! ### The check and the dry run -/

theorem counts_of_loads {preset : KeymapFile} {layers : List KeymapFile} {screen : Screen} {eff : Effective}
    (loads : fe.buildFor preset layers screen = .ok eff) : eff.counts = preset.counts ∧ eff.screen = screen := by
  obtain ⟨all, -, -, -, screens, counts, -⟩ := fe.buildFor_ok.mp loads
  exact ⟨counts, screens⟩

/-- A sequence fits beside what it is bound with. -/
theorem fits_of_bound {src : RebindSources} {layers : List KeymapFile} {before after : Effective} {b : Binding}
    (loads : fe.buildFor src.preset (src.layers src.target) src.screen = .ok before)
    (again : fe.buildFor src.preset layers src.screen = .ok after)
    (same : fe.others b.seq (mergedBindings src.preset layers src.screen) =
      fe.others b.seq (mergedBindings src.preset (src.layers src.target) src.screen))
    (member : b ∈ after.bindings) : Fits before b.seq := by
  refine ⟨fe.known_of_loads again member, (after.shaped b member).1, (after.shaped b member).2, ?_, ?_⟩
  · intro c inside
    rw [clash_eq_none]
    by_cases on : c.seq = b.seq
    · exact ⟨fun _ => on, fun _ => on.symm⟩
    · have kept : c ∈ after.bindings := by
        have found := before.find_mem.mpr ⟨inside, rfl⟩
        rw [← fe.frame loads again same on] at found
        exact (after.find_mem.mp found).1
      exact ⟨after.prefixFree c kept b member, after.prefixFree b member c kept⟩
  · intro counts first head
    refine after.digitsFree ?_ b member first head
    rw [(fe.counts_of_loads again).1, ← (fe.counts_of_loads loads).1]
    exact counts

/-- The entry that is written is right when the sequence fits and the command is one there is. -/
theorem checkBinding_new {eff : Effective} {seq : List Chord} {command : Str} {avail : Availability} (fits : Fits eff seq)
    (there : fe.availOf (fe.current command) = .ok avail) (list : List RawBinding) :
    ∃ c, fe.checkBinding ⟨(fe.rebindList seq (fe.current command) list).1, fe.current command⟩ .specific = .ok c ∧
      c.seq = seq ∧ c.run = fe.current command := by
  refine ⟨⟨seq, fe.current command, avail, false⟩, ?_, rfl, rfl⟩
  have shape (on : List Str) (run : Str) : checkShape on run seq = .ok () := checkShape_ok.mpr ⟨fits.some_, fits.esc⟩
  simp [checkBinding, fe.rebindList_parses seq (fe.current command) fits.known list, shape, there, bind, Except.bind, pure,
    Except.pure]

/-- Files that differ in one sequence load as well, as far as the other sequences and the sequence
itself may stand beside each other. -/
theorem others_load {src : RebindSources} {layers : List KeymapFile} {before : Effective} {seq : List Chord}
    (loads : fe.buildFor src.preset (src.layers src.target) src.screen = .ok before) (fits : Fits before seq)
    (each : ∀ entry ∈ mergedBindings src.preset layers src.screen, ∃ b, fe.checkBinding entry.1 entry.2 = .ok b)
    (same : fe.others seq (mergedBindings src.preset layers src.screen) =
      fe.others seq (mergedBindings src.preset (src.layers src.target) src.screen)) :
    ∃ all, fe.checkAll src.preset layers src.screen = .ok all ∧ PrefixFree (firstOfEach [] all) ∧
      (src.preset.counts = true → DigitsFree (firstOfEach [] all)) ∧
      ∀ b ∈ firstOfEach [] all, b.seq ≠ seq → b ∈ before.bindings := by
  obtain ⟨all, -, checked, bindings, -, counts, -⟩ := fe.buildFor_ok.mp loads
  obtain ⟨all', checked'⟩ := FirstError.exists_mapM.mpr each
  have whole : (mergedBindings src.preset (src.layers src.target) src.screen).filterMap fe.bound = all :=
    FirstError.filterMap_toOption checked
  have whole' : (mergedBindings src.preset layers src.screen).filterMap fe.bound = all' :=
    FirstError.filterMap_toOption checked'
  have found (s : List Chord) (other : s ≠ seq) : all'.find? (·.seq = s) = all.find? (·.seq = s) := by
    rw [← whole, ← whole', fe.find_others other, fe.find_others other, same]
  refine ⟨all', checked', prefixFree_other found (bindings ▸ before.prefixFree) (bindings ▸ fits.apart), ?_, ?_⟩
  · intro counted
    rw [← counts] at counted
    exact digitsFree_other found (bindings ▸ before.digitsFree counted) (fits.digits counted)
  · intro b member other
    rw [bindings]
    exact (mem_other found other).mp member

/-- A sequence that fits can be bound, where whoever has it then keeps off the keys of the screen. -/
theorem rebound_loads {src : RebindSources} {before : Effective} {seq : List Chord} {command : Str} {c : Binding}
    (loads : fe.buildFor src.preset (src.layers src.target) src.screen = .ok before) (fits : Fits before seq)
    (ok : fe.checkBinding ⟨(fe.rebindList seq (fe.current command) src.own.prependKeymap).1, fe.current command⟩ .specific = .ok c)
    (right : ∀ sacred ∈ sacredChords src.screen, ∀ b,
      ((mergedBindings src.preset (fe.rebound src seq command) src.screen).filterMap fe.bound).find? (·.seq = seq) = some b →
        takesSacred sacred b = false) :
    ∃ after, fe.buildFor src.preset (fe.rebound src seq command) src.screen = .ok after := by
  have each : ∀ entry ∈ mergedBindings src.preset (fe.rebound src seq command) src.screen,
      ∃ b, fe.checkBinding entry.1 entry.2 = .ok b := by
    rintro ⟨raw, section_⟩ member
    rcases mem_written member with old | ⟨rfl, prepend | append, kept⟩
    · exact fe.bound_of_loads loads old
    · rcases fe.mem_rebindList seq (fe.current command) prepend with old | rfl
      · exact fe.bound_of_loads loads (mem_own (.inl old) kept)
      · exact ⟨c, ok⟩
    · exact fe.bound_of_loads loads (mem_own (.inr append) kept)
  obtain ⟨all, checked, free, digits, kept⟩ := fe.others_load loads fits each (fe.others_dryRun src seq command)
  obtain ⟨-, keys, -, -, screens, -⟩ := fe.buildFor_ok.mp loads
  refine fe.loads_iff.mpr ⟨(checkLayerKeys_written src _ src.own.appendKeymap).trans keys, all, checked, free, digits, ?_⟩
  intro sacred reserved b member
  by_cases on : b.seq = seq
  · refine right sacred reserved b ?_
    have whole : (mergedBindings src.preset (fe.rebound src seq command) src.screen).filterMap fe.bound = all :=
      FirstError.filterMap_toOption checked
    rw [whole, ← on]
    exact (mem_firstOfEach.mp member).2
  · exact before.sacredFree sacred (by rw [screens]; exact reserved) b (kept b member on)

theorem sacred_plain {screen : Screen} {sacred : Chord × Str} (reserved : sacred ∈ sacredChords screen) :
    sacred.1.code.Known ∧ opensCount sacred.1 = false := by
  cases screen with
  | browse =>
    obtain rfl := List.mem_singleton.mp reserved
    exact ⟨trivial, rfl⟩
  | viewer => cases reserved
  | dialog => cases reserved

theorem sacred_once {screen : Screen} {a b : Chord × Str} (first : a ∈ sacredChords screen) (second : b ∈ sacredChords screen) :
    a = b := by
  cases screen with
  | browse => exact (List.mem_singleton.mp first).trans (List.mem_singleton.mp second).symm
  | viewer => cases first
  | dialog => cases first

/-- A reserved key alone fits, in a keymap that keeps it. -/
theorem fits_sacred {eff : Effective} {sacred : Chord × Str} (reserved : sacred ∈ sacredChords eff.screen) :
    Fits eff [sacred.1] := by
  have plain := sacred_plain reserved
  refine ⟨by simpa using plain.1, by simp, by simp, ?_, ?_⟩
  · intro b member
    rw [clash_eq_none]
    constructor
    · intro prefix_
      rcases List.prefix_cons_iff.mp prefix_ with empty | ⟨rest, whole, none_⟩
      · exact absurd empty (eff.shaped b member).1
      · rw [whole, List.prefix_nil.mp none_]
    · rintro ⟨rest, split⟩
      have head : b.seq.head? = some sacred.1 := by rw [← split]; rfl
      have free := eff.sacredFree sacred reserved b member
      have alone : b.seq = [sacred.1] ∧ b.run = sacred.2 := by simpa [takesSacred, head] using free
      exact alone.1.symm
  · intro _ first head
    obtain rfl := Option.some.inj head
    exact plain.2

/-- What a layer above has of the sequence, it had before. -/
theorem outranking_bound {src : RebindSources} {before : Effective} {seq : List Chord} {b : Binding}
    (loads : fe.buildFor src.preset (src.layers src.target) src.screen = .ok before) (file : src.target.project = false)
    (above : ((outranking src).filterMap fe.bound).find? (·.seq = seq) = some b) : b ∈ before.bindings := by
  obtain ⟨rest, merged⟩ := merged_split src src.own file
  rw [written_own] at merged
  have found : before.bindings.find? (·.seq = seq) = some b := by
    rw [fe.find_of_loads loads, merged, List.filterMap_append, List.find?_append, above]
    rfl
  exact (before.find_mem.mp found).1

/-- The check and the dry run agree on what may be bound. What the dry run approves, the check lets
through, but for a reserved key that is bound to its own command; and what the check lets through, or
such a key, loads, whatever a layer above may keep. -/
theorem dryRun_agrees {src : RebindSources} {before : Effective} {seq : List Chord} {command : Str} {avail : Availability}
    (loads : fe.buildFor src.preset (src.layers src.target) src.screen = .ok before) (file : src.target.project = false)
    (there : fe.availOf (fe.current command) = .ok avail) :
    ((∃ w, fe.rebindDryRun src seq command = .ok w) → (rebindCheck fe.modKey before seq).isRefusal = false ∨
      ∃ sacred ∈ sacredChords src.screen, seq = [sacred.1] ∧ fe.current command = sacred.2) ∧
    ((rebindCheck fe.modKey before seq).isRefusal = false ∨
      (∃ sacred ∈ sacredChords src.screen, seq = [sacred.1] ∧ fe.current command = sacred.2) →
      ∀ e, fe.rebindDryRun src seq command ≠ .error (.load e)) := by
  constructor
  · rintro ⟨w, approved⟩
    obtain ⟨-, after, avail', again, runs⟩ := fe.dryRun_ok.mp approved
    obtain ⟨b, member, rfl, same, -⟩ := after.lookup_exact.mp runs
    have fits := fe.fits_of_bound loads again (fe.others_dryRun src b.seq command) member
    by_cases off : OffSacred before b.seq
    · exact .inl (rebindCheck_iff.mpr ⟨fits, off⟩)
    · right
      simp only [OffSacred, not_forall, not_not] at off
      obtain ⟨sacred, reserved, head⟩ := off
      rw [(fe.counts_of_loads loads).2] at reserved
      have free := after.sacredFree sacred (by rw [(fe.counts_of_loads again).2]; exact reserved) b member
      refine ⟨sacred, reserved, ?_⟩
      simpa [takesSacred, head, same] using free
  · intro lets e refused
    have fits : Fits before seq := by
      rcases lets with free | ⟨sacred, reserved, rfl, -⟩
      · exact (rebindCheck_iff.mp free).1
      · exact fits_sacred (by rw [(fe.counts_of_loads loads).2]; exact reserved)
    obtain ⟨c, ok, on, runs⟩ := fe.checkBinding_new fits there src.own.prependKeymap
    have right : ∀ sacred ∈ sacredChords src.screen, ∀ b,
        ((mergedBindings src.preset (fe.rebound src seq command) src.screen).filterMap fe.bound).find? (·.seq = seq) = some b →
          takesSacred sacred b = false := by
      intro sacred reserved b found
      have same : b.seq = seq := by simpa using List.find?_some found
      rcases lets with free | ⟨sacred', reserved', rfl, own⟩
      · have off := (rebindCheck_iff.mp free).2 sacred (by rw [(fe.counts_of_loads loads).2]; exact reserved)
        simp [takesSacred, same, off]
      · obtain rfl := sacred_once reserved reserved'
        rw [fe.find_written file ok] at found
        cases above : ((outranking src).filterMap fe.bound).find? (·.seq = [sacred.1]) with
        | some d =>
          rw [above] at found
          obtain rfl : d = b := by simpa using found
          exact before.sacredFree sacred (by rw [(fe.counts_of_loads loads).2]; exact reserved) d
            (fe.outranking_bound loads file above)
        | none =>
          rw [above] at found
          obtain rfl : c = b := by simpa using found
          simp [takesSacred, on, runs, own]
    obtain ⟨after, again⟩ := fe.rebound_loads loads fits ok right
    unfold rebound at again
    unfold rebindDryRun at refused
    dsimp only at refused
    rw [again] at refused
    dsimp only at refused
    split at refused
    · split at refused <;> cases refused
    · split at refused <;> cases refused
    · split at refused <;> cases refused

theorem dryRun_agrees_mod : ∃ before,
    twoCommands.buildFor spelledMod.preset (spelledMod.layers spelledMod.target) .browse = .ok before ∧
      ((∃ w, twoCommands.rebindDryRun spelledMod [ctrlJ] "pane.move".toList = .ok w) →
        (rebindCheck .ctrl before [ctrlJ]).isRefusal = false ∨
          ∃ sacred ∈ sacredChords .browse, [ctrlJ] = [sacred.1] ∧ "pane.move".toList = sacred.2) ∧
      ((rebindCheck .ctrl before [ctrlJ]).isRefusal = false ∨
        (∃ sacred ∈ sacredChords .browse, [ctrlJ] = [sacred.1] ∧ "pane.move".toList = sacred.2) →
        ∀ e, twoCommands.rebindDryRun spelledMod [ctrlJ] "pane.move".toList ≠ .error (.load e)) := by
  obtain ⟨before, loads⟩ : ∃ before, twoCommands.buildFor spelledMod.preset (spelledMod.layers spelledMod.target) .browse = .ok before :=
    ⟨_, rfl⟩
  exact ⟨before, loads, twoCommands.dryRun_agrees loads rfl rfl⟩

end Frontend

/-! ### Unbinding -/

inductive UnbindOutcome where
  | notBound
  | cleared
  | runs (command : Str) (avail : Availability)
  deriving DecidableEq

/-- What an outcome says of the map that is left. -/
def UnbindOutcome.Tells (after : Effective) (seq : List Chord) : UnbindOutcome → Prop
  | .notBound => False
  | .cleared => ∀ run avail, after.lookup seq ≠ .exact run avail
  | .runs command avail => after.lookup seq = .exact command avail

structure UnbindWrite where
  section_ : String
  chords : List Str
  command : Str
  outcome : UnbindOutcome
  deriving DecidableEq

/-- What `persist_keymap_unbind` keeps of a list: every copy of the entry goes, and nothing else. -/
def unbindList (chords : List Str) (command : Str) (list : List RawBinding) : List RawBinding :=
  list.filter fun b => !(b.on = chords && b.run = command)

def RawSection.unbind (s : RawSection) (chords : List Str) (command : Str) : RawSection :=
  { s with
    prependKeymap := unbindList chords command s.prependKeymap
    appendKeymap := unbindList chords command s.appendKeymap }

namespace Frontend

variable (fe : Frontend)

/-- The entry of the file that has the sequence, however it is spelled. -/
def ownEntry (src : RebindSources) (seq : List Chord) : Option RawBinding :=
  (src.own.prependKeymap.find? (fe.parsesTo seq)).or (src.own.appendKeymap.find? (fe.parsesTo seq))

/-- `unbind_dry_run`: the outcome is what the map without the entry says. -/
def unbindDryRun (src : RebindSources) (seq : List Chord) : Except KeymapError UnbindWrite :=
  match fe.ownEntry src seq with
  | none => .ok ⟨src.screen.section, seq.map Chord.display, [], .notBound⟩
  | some existing =>
    match fe.buildFor src.preset (src.layers (src.written (src.own.unbind existing.on existing.run))) src.screen with
    | .error e => .error e
    | .ok after =>
      match after.lookup seq with
      | .exact run avail => .ok ⟨src.screen.section, existing.on, existing.run, .runs run avail⟩
      | .prefix_ | .miss => .ok ⟨src.screen.section, existing.on, existing.run, .cleared⟩

theorem ownEntry_mem {src : RebindSources} {seq : List Chord} {b : RawBinding} (found : fe.ownEntry src seq = some b) :
    (b ∈ src.own.prependKeymap ∨ b ∈ src.own.appendKeymap) ∧ fe.parsesTo seq b = true := by
  rcases Option.or_eq_some_iff.mp found with first | ⟨-, second⟩
  · exact ⟨.inl (List.mem_of_find?_eq_some first), List.find?_some first⟩
  · exact ⟨.inr (List.mem_of_find?_eq_some second), List.find?_some second⟩

theorem others_unbound {seq : List Chord} {entry : RawBinding} (parses : fe.parsesTo seq entry = true)
    (keep : RawBinding → Bool) (section_ : Section) (list : List RawBinding) :
    fe.others seq (((unbindList entry.on entry.run list).filter keep).map (·, section_)) =
      fe.others seq ((list.filter keep).map (·, section_)) := by
  induction list with
  | nil => rfl
  | cons b bs ih =>
    have apart (rest : List RawBinding) : fe.others seq ((b :: rest).map (·, section_)) =
        fe.others seq [(b, section_)] ++ fe.others seq (rest.map (·, section_)) := fe.others_append seq [(b, section_)] _
    unfold unbindList at ih ⊢
    by_cases same : b.on = entry.on ∧ b.run = entry.run
    · have unseen : fe.others seq [(b, section_)] = [] :=
        fe.others_cons [] section_ fun seq' again => fe.parses_only parses (by simpa only [parsesTo, same.1] using again)
      rw [List.filter_cons_of_neg (by simp [same]), ih, List.filter_cons]
      split
      · rw [apart, unseen, List.nil_append]
      · rfl
    · rw [List.filter_cons_of_pos (by simpa using not_and_or.mp same), List.filter_cons, List.filter_cons]
      split
      · rw [apart, apart, ih]
      · exact ih

theorem others_unbind {src : RebindSources} {seq : List Chord} {entry : RawBinding} (parses : fe.parsesTo seq entry = true) :
    fe.others seq (mergedBindings src.preset (src.layers (src.written (src.own.unbind entry.on entry.run))) src.screen) =
      fe.others seq (mergedBindings src.preset (src.layers src.target) src.screen) :=
  fe.others_merged src seq _ (fun keep => fe.others_unbound parses keep .specific src.own.prependKeymap)
    fun keep => fe.others_unbound parses keep .specific src.own.appendKeymap

/-- Without the entry only a reserved key can be wrong, and only where another binding of it comes
to light. -/
theorem unbind_error {src : RebindSources} {before : Effective} {seq : List Chord} {entry : RawBinding} {e : KeymapError}
    (loads : fe.buildFor src.preset (src.layers src.target) src.screen = .ok before) (file : src.target.project = false)
    (found : fe.ownEntry src seq = some entry)
    (wrong : fe.buildFor src.preset (src.layers (src.written (src.own.unbind entry.on entry.run))) src.screen = .error e) :
    ∃ sacred ∈ sacredChords src.screen, seq = [sacred.1] ∧ ∃ run, run ≠ sacred.2 ∧
      e = .sacredKey sacred.1.display sacred.2 run := by
  obtain ⟨inside, parses⟩ := fe.ownEntry_mem found
  obtain ⟨b, run, avail, ok, bound⟩ := fe.lookup_of_loads loads (mem_own inside (by simp [discards, file]))
  have on : b.seq = seq := fe.parses_only parses (by simp [parsesTo, (fe.checkBinding_ok ok).1])
  obtain ⟨old, member, same, -⟩ := before.lookup_exact.mp (on ▸ bound)
  have fits : Fits before seq := by
    rw [← same]
    exact fe.fits_of_bound loads loads rfl member
  have each : ∀ item ∈ mergedBindings src.preset (src.layers (src.written (src.own.unbind entry.on entry.run))) src.screen,
      ∃ b, fe.checkBinding item.1 item.2 = .ok b := by
    rintro ⟨raw, section_⟩ member
    rcases mem_written member with old | ⟨rfl, prepend | append, kept⟩
    · exact fe.bound_of_loads loads old
    · exact fe.bound_of_loads loads (mem_own (.inl (List.mem_filter.mp prepend).1) kept)
    · exact fe.bound_of_loads loads (mem_own (.inr (List.mem_filter.mp append).1) kept)
  obtain ⟨all, checked, free, digits, kept⟩ := fe.others_load loads fits each (fe.others_unbind parses)
  obtain ⟨-, keys, -, -, screens, -⟩ := fe.buildFor_ok.mp loads
  have keys' : checkLayerKeys src.preset (src.layers (src.written (src.own.unbind entry.on entry.run))) = .ok () :=
    (checkLayerKeys_written src _ _).trans keys
  have rest := fe.buildFor_bindings src.preset (src.layers (src.written (src.own.unbind entry.on entry.run))) src.screen
  rw [wrong, keys', checked] at rest
  simp only [Except.map, Except.bind, checkPrefixFree_ok.mpr free, checkDigitsFree_ok.mpr digits] at rest
  cases sacred : checkSacred (firstOfEach [] all) src.screen with
  | ok u => simp [sacred] at rest
  | error e' =>
    obtain rfl : e = e' := by simpa [sacred] using rest
    obtain ⟨reserved, inList, taker, picked, takes, rfl⟩ := checkSacred_error sacred
    have onSeq : taker.seq = seq := by
      by_contra other
      rw [before.sacredFree reserved (by rw [screens]; exact inList) taker (kept taker picked other)] at takes
      cases takes
    simp only [takesSacred, Bool.and_eq_true, decide_eq_true_eq, Bool.not_eq_true', Bool.and_eq_false_iff,
      decide_eq_false_iff_not, onSeq] at takes
    have alone : seq = [reserved.1] := by
      have quiet := before.sacredFree reserved (by rw [screens]; exact inList) old member
      simp only [takesSacred, same, takes.1, decide_true, Bool.true_and, Bool.not_eq_false', Bool.and_eq_true,
        decide_eq_true_eq] at quiet
      exact quiet.1
    exact ⟨reserved, inList, alone, taker.run, takes.2.resolve_left (absurd alone), rfl⟩

/-- Unbinding removes what the file has of the sequence, says what the key does then, and touches
no other; it is refused only where a reserved key would come to run another command. -/
theorem unbind_answers {src : RebindSources} {before : Effective}
    (loads : fe.buildFor src.preset (src.layers src.target) src.screen = .ok before) (file : src.target.project = false)
    (seq : List Chord) :
    match fe.unbindDryRun src seq with
    | .error e => ∃ sacred ∈ sacredChords src.screen, seq = [sacred.1] ∧ ∃ run, run ≠ sacred.2 ∧
        e = .sacredKey sacred.1.display sacred.2 run
    | .ok w => (w.outcome = .notBound ∧ ∀ b, b ∈ src.own.prependKeymap ∨ b ∈ src.own.appendKeymap → fe.parsesTo seq b = false) ∨
        (⟨w.chords, w.command⟩ ∈ src.own.prependKeymap ++ src.own.appendKeymap ∧ fe.parsesTo seq ⟨w.chords, w.command⟩ = true ∧
          ∃ after, fe.buildFor src.preset (src.layers (src.written (src.own.unbind w.chords w.command))) src.screen = .ok after ∧
            w.outcome.Tells after seq ∧
            ∀ s, s ≠ seq → ∀ run avail, after.lookup s = .exact run avail ↔ before.lookup s = .exact run avail) := by
  unfold unbindDryRun
  cases found : fe.ownEntry src seq with
  | none =>
    refine .inl ⟨rfl, fun b inside => ?_⟩
    obtain ⟨first, second⟩ := Option.or_eq_none_iff.mp found
    rcases inside with prepend | append
    · simpa using List.find?_eq_none.mp first b prepend
    · simpa using List.find?_eq_none.mp second b append
  | some entry =>
    obtain ⟨inside, parses⟩ := fe.ownEntry_mem found
    dsimp only
    cases again : fe.buildFor src.preset (src.layers (src.written (src.own.unbind entry.on entry.run))) src.screen with
    | error e => exact fe.unbind_error loads file found again
    | ok after =>
      have kept (s : List Chord) (other : s ≠ seq) (run : Str) (avail : Availability) :
          after.lookup s = .exact run avail ↔ before.lookup s = .exact run avail := by
        rw [Effective.lookup_find, Effective.lookup_find, fe.frame loads again (fe.others_unbind parses) other]
      have member : entry ∈ src.own.prependKeymap ++ src.own.appendKeymap := List.mem_append.mpr inside
      dsimp only
      cases told : after.lookup seq with
      | exact run avail => exact .inr ⟨member, parses, after, again, told, kept⟩
      | prefix_ => exact .inr ⟨member, parses, after, again, by simp [UnbindOutcome.Tells, told], kept⟩
      | miss => exact .inr ⟨member, parses, after, again, by simp [UnbindOutcome.Tells, told], kept⟩

theorem unbind_answers_mod : ∃ before,
    twoCommands.buildFor spelledMod.preset (spelledMod.layers spelledMod.target) .browse = .ok before ∧
      twoCommands.parsesTo [ctrlJ] ⟨["mod+j".toList], "pane.copy".toList⟩ = true ∧ ∃ after, twoCommands.buildFor spelledMod.preset (spelledMod.layers (spelledMod.written
          (spelledMod.own.unbind ["mod+j".toList] "pane.copy".toList))) .browse = .ok after ∧
        UnbindOutcome.cleared.Tells after [ctrlJ] ∧
        ∀ s, s ≠ [ctrlJ] → ∀ run avail, after.lookup s = .exact run avail ↔ before.lookup s = .exact run avail := by
  obtain ⟨before, loads⟩ : ∃ before, twoCommands.buildFor spelledMod.preset (spelledMod.layers spelledMod.target) .browse = .ok before :=
    ⟨_, rfl⟩
  have answered : twoCommands.unbindDryRun spelledMod [ctrlJ] = .ok ⟨"pane", ["mod+j".toList], "pane.copy".toList, .cleared⟩ := rfl
  have whole := twoCommands.unbind_answers loads rfl [ctrlJ]
  rw [answered] at whole
  rcases whole with ⟨wrong, -⟩ | ⟨-, rest⟩
  · cases wrong
  · exact ⟨before, loads, rest⟩

end Frontend

end Norte.Keymap
