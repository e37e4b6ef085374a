import Norte.KeyEffective

/-! What a keymap that loads does with a sequence: the binding that comes first in the order of the
files has it, whatever comes later. A project's own layer never decides which script of the user's
a key runs, and the report that goes on after an error finds nothing exactly when there is none. -/
namespace Norte.Keymap

/-- What a sequence means: a whole binding, the beginning of one, or nothing. -/
inductive Lookup where
  | exact (run : Str) (avail : Availability)
  | prefix_
  | miss
  deriving DecidableEq, Repr

def Effective.lookup (eff : Effective) (candidate : List Chord) : Lookup :=
  match eff.bindings.find? (·.seq = candidate) with
  | some b => .exact b.run b.avail
  | none => if eff.bindings.any fun b => strictPrefix candidate b.seq then .prefix_ else .miss

namespace Effective

variable (eff : Effective)

theorem find_mem {seq : List Chord} {b : Binding} : eff.bindings.find? (·.seq = seq) = some b ↔ b ∈ eff.bindings ∧ b.seq = seq := by
  constructor
  · intro found
    exact ⟨List.mem_of_find?_eq_some found, by simpa using List.find?_some found⟩
  · rintro ⟨member, rfl⟩
    cases found : eff.bindings.find? (·.seq = b.seq) with
    | none => simpa using List.find?_eq_none.mp found b member
    | some c =>
      have same : c.seq = b.seq := by simpa using List.find?_some found
      rw [List.inj_on_of_nodup_map eff.once (List.mem_of_find?_eq_some found) member same]

theorem lookup_exact {seq : List Chord} {run : Str} {avail : Availability} : eff.lookup seq = .exact run avail ↔
    ∃ b ∈ eff.bindings, b.seq = seq ∧ b.run = run ∧ b.avail = avail := by
  unfold lookup
  cases found : eff.bindings.find? (·.seq = seq) with
  | some b =>
    obtain ⟨member, same⟩ := eff.find_mem.mp found
    constructor
    · intro ok
      simp only [Lookup.exact.injEq] at ok
      exact ⟨b, member, same, ok⟩
    · rintro ⟨c, inside, again, rfl, rfl⟩
      rw [List.inj_on_of_nodup_map eff.once inside member (again.trans same.symm)]
  | none =>
    refine iff_of_false ?_ ?_
    · dsimp only
      split <;> simp
    · rintro ⟨b, member, same, -⟩
      exact absurd same (by simpa using List.find?_eq_none.mp found b member)

theorem lookup_find {seq : List Chord} {run : Str} {avail : Availability} :
    eff.lookup seq = .exact run avail ↔ ∃ b, eff.bindings.find? (·.seq = seq) = some b ∧ b.run = run ∧ b.avail = avail := by
  simp only [lookup_exact, find_mem, and_assoc]

theorem lookup_prefix {seq : List Chord} : eff.lookup seq = .prefix_ ↔ ∃ b ∈ eff.bindings, seq <+: b.seq ∧ seq ≠ b.seq := by
  have any_iff : (eff.bindings.any fun b => strictPrefix seq b.seq) = true ↔ ∃ b ∈ eff.bindings, seq <+: b.seq ∧ seq ≠ b.seq := by
    simp only [List.any_eq_true, strictPrefix_iff]
  rw [← any_iff]
  unfold lookup
  cases found : eff.bindings.find? (·.seq = seq) with
  | some b =>
    obtain ⟨member, same⟩ := eff.find_mem.mp found
    refine iff_of_false (by simp) fun longer => ?_
    obtain ⟨c, inside, prefix_, other⟩ := any_iff.mp longer
    exact other (same ▸ eff.prefixFree b member c inside (same ▸ prefix_))
  | none =>
    dsimp only
    split
    · rename_i longer
      exact iff_of_true rfl longer
    · rename_i short
      exact iff_of_false (by simp) short

theorem lookup_miss {seq : List Chord} : eff.lookup seq = .miss ↔ ∀ b ∈ eff.bindings, ¬seq <+: b.seq := by
  cases found : eff.lookup seq with
  | exact run avail =>
    obtain ⟨b, member, same, -⟩ := eff.lookup_exact.mp found
    exact iff_of_false (by simp) fun none_ => none_ b member (same ▸ List.prefix_refl _)
  | prefix_ =>
    obtain ⟨b, member, prefix_, -⟩ := eff.lookup_prefix.mp found
    exact iff_of_false (by simp) fun none_ => none_ b member prefix_
  | miss =>
    refine iff_of_true rfl fun b member prefix_ => ?_
    by_cases same : seq = b.seq
    · rw [eff.lookup_exact.mpr ⟨b, member, same.symm, rfl, rfl⟩] at found
      cases found
    · rw [eff.lookup_prefix.mpr ⟨b, member, prefix_, same⟩] at found
      cases found

end Effective

namespace Frontend

variable (fe : Frontend)

theorem loads_iff {preset : KeymapFile} {layers : List KeymapFile} {screen : Screen} :
    (∃ eff, fe.buildFor preset layers screen = .ok eff) ↔ checkLayerKeys preset layers = .ok () ∧
      ∃ all, fe.checkAll preset layers screen = .ok all ∧ PrefixFree (firstOfEach [] all) ∧
        (preset.counts = true → DigitsFree (firstOfEach [] all)) ∧ SacredFree (firstOfEach [] all) screen := by
  constructor
  · rintro ⟨eff, ok⟩
    obtain ⟨all, keys, checked, bindings, rfl, counts, -, -⟩ := fe.buildFor_ok.mp ok
    exact ⟨keys, all, checked, bindings ▸ eff.prefixFree, by rw [← bindings, ← counts]; exact eff.digitsFree,
      bindings ▸ eff.sacredFree⟩
  · rintro ⟨keys, all, checked, free, digits, sacred⟩
    exact ⟨⟨firstOfEach [] all, screen, preset.counts, preset.typeToSearch, discardedBindings layers screen,
      firstOfEach_once [] all, fe.checkAll_shaped checked, free, digits, sacred⟩,
      fe.buildFor_ok.mpr ⟨all, keys, checked, rfl, rfl, rfl, rfl, rfl⟩⟩

/-- The bindings that come of it, or the error. -/
theorem buildFor_bindings (preset : KeymapFile) (layers : List KeymapFile) (screen : Screen) :
    (fe.buildFor preset layers screen).map Effective.bindings = (checkLayerKeys preset layers).bind fun _ =>
      (fe.checkAll preset layers screen).bind fun all => (checkPrefixFree (firstOfEach [] all)).bind fun _ =>
        (checkDigitsFree (firstOfEach [] all) preset.counts).bind fun _ =>
          (checkSacred (firstOfEach [] all) screen).bind fun _ => .ok (firstOfEach [] all) := by
  unfold buildFor
  split
  · rename_i wrong
    simp [wrong, Except.map, Except.bind]
  · rename_i keys
    split
    · rename_i wrong
      simp [keys, wrong, Except.map, Except.bind]
    · rename_i all checked
      dsimp only
      split
      · rename_i wrong
        simp [keys, checked, wrong, Except.map, Except.bind]
      · rename_i free
        split
        · rename_i wrong
          simp [keys, checked, free, wrong, Except.map, Except.bind]
        · rename_i digits
          split
          · rename_i wrong
            simp [keys, checked, free, digits, wrong, Except.map, Except.bind]
          · rename_i sacred
            simp [keys, checked, free, digits, sacred, Except.map, Except.bind]

/-- What a written binding binds, if it is right. -/
def bound (entry : RawBinding × Section) : Option Binding := (fe.checkBinding entry.1 entry.2).toOption

/-- A sequence has the first binding of it in the order of the files. -/
theorem find_of_loads {preset : KeymapFile} {layers : List KeymapFile} {screen : Screen} {eff : Effective}
    (ok : fe.buildFor preset layers screen = .ok eff) (seq : List Chord) :
    eff.bindings.find? (·.seq = seq) = ((mergedBindings preset layers screen).filterMap fe.bound).find? (·.seq = seq) := by
  obtain ⟨all, -, checked, bindings, -⟩ := fe.buildFor_ok.mp ok
  have whole : (mergedBindings preset layers screen).filterMap fe.bound = all := FirstError.filterMap_toOption checked
  rw [whole]
  cases found : all.find? (·.seq = seq) with
  | some b =>
    have same : b.seq = seq := by simpa using List.find?_some found
    exact eff.find_mem.mpr ⟨by rw [bindings, mem_firstOfEach]; exact ⟨by simp, by rw [same]; exact found⟩, same⟩
  | none =>
    rw [List.find?_eq_none] at found ⊢
    intro b member
    rw [bindings] at member
    exact found b (List.mem_of_find?_eq_some (mem_firstOfEach.mp member).2)

/-- Whether written chords are a sequence, however they are spelled. -/
def parsesTo (seq : List Chord) (b : RawBinding) : Bool := b.on.mapM (parseChord fe.modKey) = .ok seq

theorem bound_parses {entry : RawBinding × Section} {b : Binding} (ok : fe.bound entry = some b) :
    fe.parsesTo b.seq entry.1 = true := by
  cases checked : fe.checkBinding entry.1 entry.2 with
  | error e => simp [bound, checked, Except.toOption] at ok
  | ok c =>
    obtain rfl : c = b := by simpa [bound, checked, Except.toOption] using ok
    simp [parsesTo, (fe.checkBinding_ok checked).1]

theorem parses_only {seq seq' : List Chord} {raw : RawBinding} (parses : fe.parsesTo seq raw = true)
    (again : fe.parsesTo seq' raw = true) : seq' = seq := by
  simp only [parsesTo, decide_eq_true_eq] at parses again
  rw [parses] at again
  exact (Except.ok.inj again).symm

theorem bound_of_loads {preset : KeymapFile} {layers : List KeymapFile} {screen : Screen} {eff : Effective}
    (loads : fe.buildFor preset layers screen = .ok eff) {entry : RawBinding × Section}
    (member : entry ∈ mergedBindings preset layers screen) : ∃ b, fe.checkBinding entry.1 entry.2 = .ok b := by
  obtain ⟨all, -, checked, -⟩ := fe.buildFor_ok.mp loads
  exact FirstError.exists_mapM.mp ⟨all, checked⟩ entry member

/-- The first binding of a sequence is that of the first entry of it. -/
theorem find_bound {entries : List (RawBinding × Section)} (read : ∀ entry ∈ entries, ∃ b, fe.checkBinding entry.1 entry.2 = .ok b)
    {seq : List Chord} {b : Binding} : (entries.filterMap fe.bound).find? (·.seq = seq) = some b ↔
      ∃ before entry after, entries = before ++ entry :: after ∧ (∀ earlier ∈ before, fe.parsesTo seq earlier.1 = false) ∧
        b.seq = seq ∧ fe.checkBinding entry.1 entry.2 = .ok b := by
  induction entries with
  | nil => simp
  | cons e es ih =>
    rw [List.forall_mem_cons] at read
    obtain ⟨⟨c, ok⟩, later⟩ := read
    have parses : fe.parsesTo c.seq e.1 = true := by simp [parsesTo, (fe.checkBinding_ok ok).1]
    rw [List.filterMap_cons_some (by rw [bound, ok]; rfl), List.find?_cons]
    by_cases on : c.seq = seq
    · simp only [on, decide_true]
      constructor
      · intro same
        obtain rfl := Option.some.inj same
        exact ⟨[], e, es, rfl, by simp, on, ok⟩
      · rintro ⟨before, entry, after, split, earlier, -, ok'⟩
        cases before with
        | nil =>
          obtain ⟨rfl, rfl⟩ := List.cons.inj split
          exact congrArg some (Except.ok.inj (ok.symm.trans ok'))
        | cons first rest =>
          obtain ⟨rfl, rfl⟩ := List.cons.inj split
          have other := earlier e List.mem_cons_self
          rw [← on, parses] at other
          cases other
    · simp only [on, decide_false]
      rw [ih later]
      constructor
      · rintro ⟨before, entry, after, rfl, earlier, same, ok'⟩
        have other : fe.parsesTo seq e.1 = false := Bool.eq_false_iff.mpr fun again => on (fe.parses_only parses again).symm
        exact ⟨e :: before, entry, after, rfl, List.forall_mem_cons.mpr ⟨other, earlier⟩, same, ok'⟩
      · rintro ⟨before, entry, after, split, earlier, same, ok'⟩
        cases before with
        | nil =>
          obtain ⟨rfl, rfl⟩ := List.cons.inj split
          obtain rfl := Except.ok.inj (ok.symm.trans ok')
          exact absurd same on
        | cons first rest =>
          obtain ⟨rfl, rfl⟩ := List.cons.inj split
          exact ⟨rest, entry, after, rfl, (List.forall_mem_cons.mp earlier).2, same, ok'⟩

/-- A key runs what the first entry of it says: first what the layers prepend, the higher first,
then the preset, then what they append, and all of the screen's own context before the one that is
in every screen. However an entry is spelled, none before it is of the same keys. -/
theorem first_wins {preset : KeymapFile} {layers : List KeymapFile} {screen : Screen} {eff : Effective}
    (loads : fe.buildFor preset layers screen = .ok eff) (seq : List Chord) (run : Str) (avail : Availability) :
    eff.lookup seq = .exact run avail ↔ ∃ before entry after, mergedBindings preset layers screen = before ++ entry :: after ∧
      (∀ earlier ∈ before, fe.parsesTo seq earlier.1 = false) ∧ fe.parsesTo seq entry.1 = true ∧
        fe.current entry.1.run = run ∧ fe.availOf run = .ok avail := by
  have read : ∀ entry ∈ mergedBindings preset layers screen, ∃ b, fe.checkBinding entry.1 entry.2 = .ok b :=
    fun _ => fe.bound_of_loads loads
  rw [eff.lookup_find, fe.find_of_loads loads]
  simp only [fe.find_bound read]
  constructor
  · rintro ⟨b, ⟨before, entry, after, split, earlier, rfl, ok⟩, rfl, rfl⟩
    obtain ⟨parsed, -, avail, runs, -⟩ := fe.checkBinding_ok ok
    exact ⟨before, entry, after, split, earlier, by simp [parsesTo, parsed], runs.symm, by rw [runs]; exact avail⟩
  · rintro ⟨before, entry, after, split, earlier, parses, rfl, there⟩
    obtain ⟨b, ok⟩ := read entry (by rw [split]; simp)
    obtain ⟨parsed, -, avail', runs, -⟩ := fe.checkBinding_ok ok
    have on : b.seq = seq := fe.parses_only parses (by simp [parsesTo, parsed])
    exact ⟨b, ⟨before, entry, after, split, earlier, on, ok⟩, runs, Except.ok.inj (avail'.symm.trans there)⟩

/-- A frontend of two commands, and a preset that binds one of them. -/
def twoCommands : Frontend :=
  ⟨.ctrl, ⟨fun _ => none, fun _ => none, by simp⟩, ["pane.copy".toList, "pane.move".toList]⟩

def onlyF5 : KeymapFile := { pane := { keymap := [⟨["f5".toList], "pane.copy".toList⟩] } }

theorem first_wins_f5 : ∃ eff, twoCommands.buildFor onlyF5 [] .browse = .ok eff ∧
    (eff.lookup [.new {} (.f 5)] = .exact "pane.copy".toList .here ↔ ∃ before entry after,
      mergedBindings onlyF5 [] .browse = before ++ entry :: after ∧
        (∀ earlier ∈ before, twoCommands.parsesTo [.new {} (.f 5)] earlier.1 = false) ∧
        twoCommands.parsesTo [.new {} (.f 5)] entry.1 = true ∧ twoCommands.current entry.1.run = "pane.copy".toList ∧
        twoCommands.availOf "pane.copy".toList = .ok .here) := by
  obtain ⟨eff, loads⟩ : ∃ eff, twoCommands.buildFor onlyF5 [] .browse = .ok eff := ⟨_, rfl⟩
  exact ⟨eff, loads, twoCommands.first_wins loads [.new {} (.f 5)] "pane.copy".toList .here⟩

/-! ### A project's layer -/

/-- A section without the scripts in it. -/
def withoutScripts (s : RawSection) : RawSection :=
  { s with
    prependKeymap := s.prependKeymap.filter fun b => !b.isScript
    appendKeymap := s.appendKeymap.filter fun b => !b.isScript }

/-- A project's layer that binds no script. -/
def harmless (layer : KeymapFile) : KeymapFile :=
  if layer.project then
    { layer with
      global := withoutScripts layer.global
      pane := withoutScripts layer.pane
      viewer := withoutScripts layer.viewer
      dialog := withoutScripts layer.dialog }
  else layer

theorem mergeCtx_harmless (preset : KeymapFile) (layers : List KeymapFile) (get : KeymapFile → RawSection)
    (read : ∀ layer, layer.project = true → get (harmless layer) = withoutScripts (get layer)) :
    mergeCtx preset (layers.map harmless) get = mergeCtx preset layers get := by
  have each (list : RawSection → List RawBinding)
      (kept : ∀ s, list (withoutScripts s) = (list s).filter fun b => !b.isScript) (layer : KeymapFile) :
      ((list (get (harmless layer))).filter fun b => !discards (harmless layer) b) =
        (list (get layer)).filter fun b => !discards layer b := by
    cases project : layer.project with
    | false => simp only [harmless, project, Bool.false_eq_true, if_false]
    | true =>
      have stays : (harmless layer).project = true := by simp [harmless, project]
      simp only [discards, stays, project, Bool.true_and, read layer project, kept, List.filter_filter, Bool.and_self]
  simp only [mergeCtx, ← List.map_reverse, List.flatMap_map, each RawSection.prependKeymap (fun _ => rfl),
    each RawSection.appendKeymap (fun _ => rfl)]

theorem checkLayerKeys_harmless (preset : KeymapFile) (layers : List KeymapFile) :
    checkLayerKeys preset (layers.map harmless) = checkLayerKeys preset layers := by
  have each (layer : KeymapFile) : checkLayer (harmless layer) = checkLayer layer := by
    unfold harmless
    split <;> rfl
  unfold checkLayerKeys
  split
  · rfl
  · induction layers with
    | nil => rfl
    | cons l ls ih =>
      have step (l : KeymapFile) (ls : List KeymapFile) : (l :: ls).forM checkLayer = (checkLayer l).bind fun _ => ls.forM checkLayer := rfl
      rw [List.map_cons, step, step, each, ih]

/-- The keymap is what it would be if the projects' layers bound no script at all: but for the
count of those discarded, and whether it loads, a repository decides no script that runs. -/
theorem project_scripts (preset : KeymapFile) (layers : List KeymapFile) (screen : Screen) :
    (fe.buildFor preset layers screen).map Effective.bindings =
      (fe.buildFor preset (layers.map harmless) screen).map Effective.bindings := by
  have read (screen : Screen) (layer : KeymapFile) (project : layer.project = true) :
      screen.specific (harmless layer) = withoutScripts (screen.specific layer) := by
    cases screen <;> simp [harmless, project, Screen.specific]
  have merged : mergedBindings preset (layers.map harmless) screen = mergedBindings preset layers screen := by
    rw [mergedBindings, mergedBindings, mergeCtx_harmless preset layers screen.specific (read screen),
      mergeCtx_harmless preset layers KeymapFile.global fun layer project => by simp [harmless, project]]
  rw [buildFor_bindings, buildFor_bindings, checkLayerKeys_harmless, checkAll, checkAll, merged]

/-! ### The report -/

/-- A finding: what is wrong, or a name that has a newer one. -/
inductive KeymapDiagnostic where
  | unknownCommand (run : Str)
  | structural (error : KeymapError)
  | renamed (old new : Str)
  deriving DecidableEq

/-- What a written binding that is wrong is reported as. -/
def reported : KeymapError → KeymapDiagnostic
  | .unknownCommand run =>
    if (stripPrefix lua run).all validLuaName && (stripPrefix user run).all validUserId then .unknownCommand run
    else .structural (.unknownCommand run)
  | e => .structural e

def structuralOf (result : Except KeymapError Unit) : List KeymapDiagnostic :=
  match result with
  | .ok () => []
  | .error e => [.structural e]

/-- The findings of one written binding. -/
def findings (entry : RawBinding × Section) : List KeymapDiagnostic :=
  (match fe.catalogue.renamedTo entry.1.run with
    | some new => [.renamed entry.1.run new]
    | none => []) ++
    match fe.checkBinding entry.1 entry.2 with
    | .ok _ => []
    | .error e => [reported e]

/-- `build_diagnostics`: no error stops the walk, and the rules of the whole map look at the
bindings that are right. -/
def buildDiagnostics (preset : KeymapFile) (layers : List KeymapFile) (screen : Screen) : List KeymapDiagnostic :=
  let ordered := mergedBindings preset layers screen
  let bindings := firstOfEach [] (ordered.filterMap fe.bound)
  structuralOf (checkLayerKeys preset layers) ++ (ordered.flatMap fe.findings ++
    (structuralOf (checkPrefixFree bindings) ++
      (structuralOf (checkDigitsFree bindings preset.counts) ++ structuralOf (checkSacred bindings screen))))

def KeymapDiagnostic.isNudge : KeymapDiagnostic → Bool
  | .renamed .. => true
  | .unknownCommand _ | .structural _ => false

/-- Only nudges. -/
def Clean (found : List KeymapDiagnostic) : Prop := ∀ d ∈ found, d.isNudge = true

theorem clean_append {a b : List KeymapDiagnostic} : Clean (a ++ b) ↔ Clean a ∧ Clean b := List.forall_mem_append

theorem clean_structural {result : Except KeymapError Unit} : Clean (structuralOf result) ↔ result = .ok () := by
  cases result with
  | ok u => simp [structuralOf, Clean]
  | error e => simp [structuralOf, Clean, KeymapDiagnostic.isNudge]

theorem clean_findings {entry : RawBinding × Section} : Clean (fe.findings entry) ↔ ∃ b, fe.checkBinding entry.1 entry.2 = .ok b := by
  have nudge : Clean (match fe.catalogue.renamedTo entry.1.run with
      | some new => [.renamed entry.1.run new]
      | none => []) := by
    split <;> simp [Clean, KeymapDiagnostic.isNudge]
  unfold findings
  rw [clean_append]
  cases checked : fe.checkBinding entry.1 entry.2 with
  | ok b => exact iff_of_true ⟨nudge, by simp [Clean]⟩ ⟨b, rfl⟩
  | error e =>
    have plain : (reported e).isNudge = false := by
      unfold reported
      split
      · split <;> rfl
      · rfl
    simp [Clean, plain]

/-- The report of a keymap has nothing but renamed commands exactly when the keymap loads. -/
theorem diagnostics_clean {preset : KeymapFile} {layers : List KeymapFile} {screen : Screen} :
    Clean (fe.buildDiagnostics preset layers screen) ↔ ∃ eff, fe.buildFor preset layers screen = .ok eff := by
  have each : Clean ((mergedBindings preset layers screen).flatMap fe.findings) ↔
      ∃ all, fe.checkAll preset layers screen = .ok all := by
    rw [checkAll, FirstError.exists_mapM]
    simp only [← clean_findings, Clean, List.mem_flatMap]
    exact ⟨fun all entry member d found => all d ⟨entry, member, found⟩, fun all d ⟨entry, member, found⟩ => all entry member d found⟩
  rw [loads_iff]
  simp only [buildDiagnostics, clean_append, clean_structural, each, checkPrefixFree_ok, checkDigitsFree_ok, checkSacred_ok]
  apply and_congr_right
  intro keys
  constructor
  · rintro ⟨⟨all, checked⟩, rest⟩
    have whole : (mergedBindings preset layers screen).filterMap fe.bound = all := FirstError.filterMap_toOption checked
    rw [whole] at rest
    exact ⟨all, checked, rest⟩
  · rintro ⟨all, checked, rest⟩
    have whole : (mergedBindings preset layers screen).filterMap fe.bound = all := FirstError.filterMap_toOption checked
    rw [whole]
    exact ⟨⟨all, checked⟩, rest⟩

end Frontend

end Norte.Keymap
