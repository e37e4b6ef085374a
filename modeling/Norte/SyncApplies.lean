import Norte.PutCut
import Norte.SyncPlaced

/-! A plan without a blocker can be applied in its order: whatever a step needs at the destination is
there when the steps before it were applied, and nothing that one step leaves is touched by another. -/
namespace Norte.Sync

open Compare (Comparison Frame Listed joinedOn InTree)
open MergeJoin StackWalk Transducer PutCut

instance : DecidableRel HangsOff := fun _ _ => decidable_of_iff _ RelPath.under_isSome

/-- What stands at a path of the destination: what stood there, or what was made of an entry of the source. -/
inductive Standing where
  | own (kind : EntryKind)
  | dir (source : VPath)
  | leaf (source : VPath)
  deriving DecidableEq

def Standing.isDir : Standing → Bool
  | own kind => kind = .dir
  | dir _ => true
  | leaf _ => false

abbrev Standings := VPath → Option Standing

/-- What a step makes of the destination. -/
def SyncOptions.edit (opts : SyncOptions) : PlanItem → Option (Edit VPath Standing)
  | .step step _ => match step.kind with
    | .createDir => some (.put (opts.writtenPath step) (.dir (under opts.sourceRoot step.rel)))
    | .copy | .overwrite => some (.put (opts.writtenPath step) (.leaf (under opts.sourceRoot step.rel)))
    | .deleteTree => some (.cut (opts.writtenPath step))
    | .skip | .unknown => none
  | .blocker _ => none

/-- The destination when the elements were applied in their order. -/
def SyncOptions.applied (opts : SyncOptions) (items : List PlanItem) (t : Standings) : Standings :=
  applyAll HangsOff t (items.filterMap opts.edit)

/-- What stands below the root, by what the provider lists. -/
structure Shows (p : Compare.Provider) (root : VPath) (t : Standings) : Prop where
  top : t root = some (.own .dir)
  entry : ∀ e, InTree p root e → t e.path = some (.own e.kind)
  only : ∀ path, HangsOff root path → path ≠ root → t path ≠ none → ∃ e, InTree p root e ∧ e.path = path

def Standings.InDir (t : Standings) (path : VPath) : Prop := ∃ dir st, Child dir path ∧ t dir = some st ∧ st.isDir = true

/-- What a step needs: a free place in a directory, or what it destroys to be as it was seen. -/
def SyncOptions.Ready (opts : SyncOptions) (t : Standings) (step : SyncStep) (witness : Option DestWitness) : Prop :=
  match step.kind with
  | .createDir | .copy => t (opts.writtenPath step) = none ∧ t.InDir (opts.writtenPath step)
  | .overwrite => (∃ kind, t (opts.writtenPath step) = some (.own kind) ∧ kind ≠ .dir ∧ witness.map (·.kind) = some kind) ∧
      t.InDir (opts.writtenPath step)
  | .deleteTree => (∃ kind, t (opts.writtenPath step) = some (.own kind) ∧ witness.map (·.kind) = some kind) ∧
      t.InDir (opts.writtenPath step)
  | .skip | .unknown => True

variable {c : Comparison} {s : DescendSide} {rows : List CompareRow} {opts : SyncOptions} {row row' : CompareRow}
  {f g : Frame} {lefts rights lefts' rights' : List Entry} {j j' : Joined (Bytes × Entry) (Bytes × Entry)}
  {x y : Bytes × Entry} {d e : Entry} {step step' : SyncStep} {witness witness' : Option DestWitness}

namespace Wired

/-- Two rows of one entry are one row. -/
theorem row_of_entry (wired : Wired c s rows opts) (member : row ∈ rows) (member' : row' ∈ rows)
    (tells : Tells c f lefts rights j row) (tells' : Tells c g lefts' rights' j' row') {at_ : DescendSide}
    (on : joinedOn at_ j = some x) (on' : joinedOn at_ j' = some y) (same : x.2.path = y.2.path) : row = row' := by
  obtain ⟨out, walks, rfl⟩ := wired.walks member
  obtain ⟨d, dir, child, inside⟩ := tells.listed on
  obtain ⟨e, there, alike⟩ := tells.entry on
  obtain ⟨e', there', alike'⟩ := tells'.entry on'
  apply Compare.eq_of_countP_one (Comparison.count_found wired.trees walks tells.down tells.left tells.right dir child inside)
    member member'
  · simp [Compare.rowNames, tells.clean, there, alike.1]
  · simp [Compare.rowNames, tells'.clean, there', alike'.1, same]

/-- A step that is no deletion writes where what it reads comes to lie. -/
theorem lies (tells : Tells c f lefts rights j row) (acts : Acts c s opts f lefts rights j step witness)
    (puts : step.kind ≠ .deleteTree) : ∃ x, joinedOn s j = some x ∧ opts.readPath step = some x.2.path ∧
      Comparison.Lies c s x.2 (opts.writtenPath step) := by
  cases acts with
  | makes on none_ kind reads lies => exact ⟨_, on, reads, lies⟩
  | replaces on on' leaves kind reads writes =>
    rw [writes]
    exact ⟨_, on, reads, .met tells.toEvent on on'⟩
  | deletes none_ on' kind => exact absurd kind puts

/-- What a deletion takes away met nothing. -/
theorem takes_lone (acts : Acts c s opts f lefts rights j step witness) (deletes : step.kind = .deleteTree) :
    ∃ y, joinedOn s j = none ∧ joinedOn s.other j = some y ∧ opts.writtenPath step = y.2.path := by
  cases acts with
  | makes on none_ kind =>
    rw [deletes] at kind
    split at kind <;> cases kind
  | replaces on on' leaves kind =>
    rw [deletes] at kind
    cases kind
  | deletes none_ on' kind writes => exact ⟨_, none_, on', writes⟩

/-- What is deleted is in a directory that is paired. -/
theorem takes_in (gone : c.opts.descendOrphans = some s.side) (event : Comparison.Event c f lefts rights j)
    (on' : joinedOn s.other j = some y) :
    ∃ d z, f.dir s = some d ∧ f.dir s.other = some z ∧ Child z.path y.2.path := by
  obtain ⟨z, across, child, -⟩ := event.listed on'
  cases dir : f.dir s with
  | some d => exact ⟨d, z, rfl, across, child⟩
  | none =>
    have other := (Comparison.orphan_side event.down dir).symm.trans gone
    cases s <;> cases other

/-- The directory that is written in is where one of the source comes to lie. -/
theorem writes_in (gone : c.opts.descendOrphans = some s.side) (tells : Tells c f lefts rights j row)
    (acts : Acts c s opts f lefts rights j step witness) : ∃ f d path, Reaches c.kids c.rootFrame f ∧ f.dir s = some d ∧
      Comparison.Lands c s f path ∧ Child path (opts.writtenPath step) := by
  by_cases deletes : step.kind = .deleteTree
  · obtain ⟨y, -, on', writes⟩ := takes_lone acts deletes
    obtain ⟨d, z, dir, across, child⟩ := takes_in gone tells.toEvent on'
    rw [writes]
    exact ⟨f, d, z.path, tells.down, dir, .there across, child⟩
  · obtain ⟨x, -, -, lies⟩ := lies tells acts deletes
    obtain ⟨g, d, path, down, dir, -, lands, child⟩ := lies.within
    exact ⟨g, d, path, down, dir, lands, child⟩

variable (shown : ∀ e, InTree (c.provider s.other) (c.root s.other) e → c.visible e = true)
include shown

/-- No two rows write at one path. -/
theorem apart (wired : Wired c s rows opts) (member : row ∈ rows) (member' : row' ∈ rows) (other : row ≠ row')
    (tells : Tells c f lefts rights j row) (tells' : Tells c g lefts' rights' j' row')
    (acts : Acts c s opts f lefts rights j step witness) (acts' : Acts c s opts g lefts' rights' j' step' witness') :
    opts.writtenPath step ≠ opts.writtenPath step' := by
  intro same
  by_cases deletes : step.kind = .deleteTree
  · obtain ⟨y, none_, on, writes⟩ := takes_lone acts deletes
    by_cases deletes' : step'.kind = .deleteTree
    · obtain ⟨y', -, on', writes'⟩ := takes_lone acts' deletes'
      exact other (wired.row_of_entry member member' tells tells' on on' (by rw [← writes, same, writes']))
    · obtain ⟨x, -, -, lies⟩ := lies tells' acts' deletes'
      exact lies.spared shown tells.toEvent none_ on (by rw [← writes, same]; exact .refl _)
  · obtain ⟨x, on, -, lies₁⟩ := lies tells acts deletes
    by_cases deletes' : step'.kind = .deleteTree
    · obtain ⟨y, none_, on', writes⟩ := takes_lone acts' deletes'
      exact lies₁.spared shown tells'.toEvent none_ on' (by rw [← writes, ← same]; exact .refl _)
    · obtain ⟨x', on', -, lies₂⟩ := lies tells' acts' deletes'
      rw [← same] at lies₂
      exact other (wired.row_of_entry member member' tells tells' on on' (by rw [lies₁.injective shown lies₂]))

/-- Nothing is written at or below what is deleted. -/
theorem not_below (wired : Wired c s rows opts) (gone : c.opts.descendOrphans = some s.side) (member : row ∈ rows)
    (member' : row' ∈ rows) (other : row ≠ row') (tells : Tells c f lefts rights j row) (tells' : Tells c g lefts' rights' j' row')
    (acts : Acts c s opts f lefts rights j step witness) (acts' : Acts c s opts g lefts' rights' j' step' witness')
    (deletes : step'.kind = .deleteTree) : ¬HangsOff (opts.writtenPath step') (opts.writtenPath step) := by
  obtain ⟨h, d, path, down, dir, lands, child⟩ := writes_in gone tells acts
  obtain ⟨y, none_, on, writes⟩ := takes_lone acts' deletes
  intro above
  rcases child.above above with same | inside
  · exact wired.apart shown member member' other tells tells' acts acts' same.symm
  · rw [writes] at inside
    exact tells'.spared none_ on (shown _ (tells'.inTree on)) lands down dir inside

end Wired

/-- Neither step undoes the other: they write at two paths, and nothing is written at or below what
is deleted. -/
structure Away (opts : SyncOptions) (step step' : SyncStep) : Prop where
  apart : opts.writtenPath step ≠ opts.writtenPath step'
  first : step.kind = .deleteTree → ¬HangsOff (opts.writtenPath step) (opts.writtenPath step')
  second : step'.kind = .deleteTree → ¬HangsOff (opts.writtenPath step') (opts.writtenPath step)

theorem Away.clear (away : Away opts step step') {edit edit' : Edit VPath Standing}
    (does : opts.edit (.step step witness) = some edit) (does' : opts.edit (.step step' witness') = some edit') :
    Clear HangsOff edit edit' := by
  obtain ⟨apart, first, second⟩ := away
  simp only [SyncOptions.edit] at does does'
  cases kind : step.kind <;> simp only [kind, Option.some.injEq, reduceCtorEq] at does <;>
    cases kind' : step'.kind <;> simp only [kind', Option.some.injEq, reduceCtorEq] at does' <;>
    subst does does' <;> simp_all [Clear]

namespace Transducer.Run

variable {t t' t'' : Transducer} {first second : List CompareRow} {items items' : List PlanItem}

theorem append (run : Run t first t' items) (later : Run t' second t'' items') :
    Run t (first ++ second) t'' (items ++ items') := by
  induction run with
  | nil => exact later
  | cons absorbed rest ih =>
    rw [List.cons_append, List.append_assoc]
    exact .cons absorbed (ih later)

end Transducer.Run

namespace Wired

variable {before after : List PlanItem}

/-- Two steps of a plan come from two rows. -/
theorem yields_two (wired : Wired c s rows opts) (whole : fullPlan rows opts = before ++ .step step witness :: after)
    (later : .step step' witness' ∈ after) : ∃ row ∈ rows, ∃ row' ∈ rows, row ≠ row' ∧
      Yields opts rows row (.step step witness) ∧ Yields opts rows row' (.step step' witness') := by
  have inside : .step step witness ∈ fullPlan rows opts := by simp [whole]
  obtain ⟨done, rest, t', split, run⟩ := wired.planned inside
  rw [whole] at run
  obtain ⟨first, row, last, mid, mid', rfl, ran, here, remains⟩ := run.at_item
  obtain ⟨b, a, rfl⟩ := List.append_of_mem later
  obtain ⟨first', row', last', mid₁, mid₂, rfl, ran', there, -⟩ := remains.at_item
  have member : row ∈ rows := by simp [split]
  have cut : rows = first ++ row :: (first' ++ row' :: last' ++ rest) := by simp [split]
  have cut' : rows = (first ++ row :: first') ++ row' :: (last' ++ rest) := by simp [split]
  refine ⟨row, member, row', by simp [split], ?_, ⟨_, _, _, _, _, cut, ran, here⟩, _, _, _, _, _, cut', ran.append (.cons here ran'), there⟩
  obtain ⟨out, -, numbers⟩ := wired.walks member
  have order := Compare.numbered_increasing c.names 0 out
  rw [← numbers, cut'] at order
  have less := (List.pairwise_append.mp order).2.2 row (by simp) row' List.mem_cons_self
  rintro rfl
  omega

theorem yields_one (wired : Wired c s rows opts) (inside : .step step witness ∈ fullPlan rows opts) :
    ∃ row ∈ rows, Yields opts rows row (.step step witness) := by
  obtain ⟨done, rest, t', split, run⟩ := wired.planned inside
  obtain ⟨before, after, whole⟩ := List.append_of_mem inside
  rw [whole] at run
  obtain ⟨first, row, last, mid, mid', rfl, ran, here, -⟩ := run.at_item
  exact ⟨row, by simp [split], first, last ++ rest, mid, mid', before, by simp [split], ran, here⟩

/-- The acting steps of a plan keep out of each other's way. -/
theorem away (wired : Wired c s rows opts) (unblocked : Unblocked opts rows) (gone : c.opts.descendOrphans = some s.side)
    (shown : ∀ e, InTree (c.provider s.other) (c.root s.other) e → c.visible e = true)
    (whole : fullPlan rows opts = before ++ .step step witness :: after) (later : .step step' witness' ∈ after)
    (acting : step.kind.acts = true) (acting' : step'.kind.acts = true) : Away opts step step' := by
  obtain ⟨row, member, row', member', other, yields, yields'⟩ := wired.yields_two whole later
  obtain ⟨f, lefts, rights, j, tells, acts⟩ := wired.acts unblocked yields acting
  obtain ⟨g, lefts', rights', j', tells', acts'⟩ := wired.acts unblocked yields' acting'
  exact ⟨wired.apart shown member member' other tells tells' acts acts',
    wired.not_below shown gone member' member (Ne.symm other) tells' tells acts' acts,
    wired.not_below shown gone member member' other tells tells' acts acts'⟩

/-- A row that is read and calls for a step leaves it. -/
theorem yields_called (wired : Wired c s rows opts) (unblocked : Unblocked opts rows) (member : row ∈ rows)
    (calls : opts.calls row = true) : ∃ step witness, Yields opts rows row (.step step witness) ∧
      .step step witness ∈ fullPlan rows opts ∧ step.kind.acts = true := by
  obtain ⟨before, after, split⟩ := List.append_of_mem member
  obtain ⟨t, t', items, item, run, absorbed, planned⟩ := wired.at_row split
  obtain ⟨own, fated⟩ := fated_of_run run absorbed
  rw [wired.read unblocked split] at fated
  obtain ⟨mid, sourceRel, rfl, named, known, table⟩ := fated.table own
  have acts := absorbRow_acts known table
  rw [calls] at acts
  cases item with
  | none => cases acts
  | some i =>
    cases i with
    | blocker b => cases acts
    | step step witness =>
      exact ⟨step, witness, ⟨before, after, t, t', items, split, run, absorbed⟩, planned (wired.writable unblocked) _ rfl, acts⟩

/-- A directory with nothing across is made. -/
theorem makes_dir (wired : Wired c s rows opts) (unblocked : Unblocked opts rows) (open_ : c.excludesRoots = false)
    (down : Reaches c.kids c.rootFrame f) (dir : f.dir s = some d) (missing : f.dir s.other = none) {path : VPath}
    (lands : Comparison.Lands c s f path) : ∃ step witness, .step step witness ∈ fullPlan rows opts ∧ step.kind = .createDir ∧
      opts.writtenPath step = path := by
  rcases down.cases_tail with rfl | ⟨p, walked, kid⟩
  · rw [Comparison.rootFrame_dir] at missing
    cases missing
  obtain ⟨lefts, rights, j, event, sides, clear⟩ := Comparison.Event.of_kid walked kid
  obtain ⟨row, member, tells⟩ := wired.exists_tells open_ event
  obtain ⟨x, on, rfl⟩ : ∃ x, joinedOn s j = some x ∧ x.2 = d := Option.map_eq_some_iff.mp ((sides s).trans dir)
  have none_ : joinedOn s.other j = none := Option.map_eq_none_iff.mp ((sides s.other).trans missing)
  obtain ⟨step, witness, yields, planned, acting⟩ := wired.yields_called unblocked member
    (tells.orphan_calls wired on none_ (clear s x on))
  obtain ⟨g, lefts', rights', j', tells', acts⟩ := wired.acts unblocked yields acting
  obtain ⟨rfl, rfl, rfl, rfl⟩ := tells.unique tells' on
  refine ⟨step, witness, planned, ?_⟩
  cases acts with
  | makes on₁ none₁ kind reads lies =>
    obtain rfl := Option.some.inj (on.symm.trans on₁)
    obtain ⟨-, -, -, isDir⟩ := Comparison.kids_region kid dir
    rw [if_pos isDir] at kind
    exact ⟨kind, lies.unique (.of_lands lands walked kid dir)⟩
  | replaces on₁ on₂ =>
    rw [none_] at on₂
    cases on₂
  | deletes none₁ =>
    rw [on] at none₁
    cases none₁

end Wired

/-! ### The destination, step after step -/

theorem acts_of_edit {edit : Edit VPath Standing} (does : opts.edit (.step step witness) = some edit) : step.kind.acts = true := by
  simp only [SyncOptions.edit] at does
  cases kind : step.kind <;> simp_all [SyncStepKind.acts]

theorem put_of_mem {items : List PlanItem} {path : VPath} {standing : Standing} (member : .put path standing ∈ items.filterMap opts.edit) :
    ∃ step witness, .step step witness ∈ items ∧ step.kind.acts = true ∧ step.kind ≠ .deleteTree ∧ opts.writtenPath step = path := by
  obtain ⟨item, inside, does⟩ := List.mem_filterMap.mp member
  cases item with
  | blocker => cases does
  | step step witness =>
    refine ⟨step, witness, inside, acts_of_edit does, ?_⟩
    simp only [SyncOptions.edit] at does
    cases kind : step.kind <;> simp_all

theorem cut_of_mem {items : List PlanItem} {path : VPath} (member : .cut path ∈ items.filterMap opts.edit) :
    ∃ step witness, .step step witness ∈ items ∧ step.kind = .deleteTree ∧ opts.writtenPath step = path := by
  obtain ⟨item, inside, does⟩ := List.mem_filterMap.mp member
  cases item with
  | blocker => cases does
  | step step witness =>
    refine ⟨step, witness, inside, ?_⟩
    simp only [SyncOptions.edit] at does
    cases kind : step.kind <;> simp_all

namespace Shows

variable {t : Standings} (shows : Shows (c.provider s.other) (c.root s.other) t)
include shows

/-- A directory that is walked stands. -/
theorem dir (down : Reaches c.kids c.rootFrame f) (dir : f.dir s.other = some d) : t d.path = some (.own .dir) := by
  obtain ⟨n, at_⟩ := Comparison.reaches_level down
  rcases at_.inside s.other d dir with root | ⟨e, tree, isDir, same⟩
  · rw [root]
    exact shows.top
  · rw [← same, shows.entry e tree, isDir]

/-- Nothing stands where an entry that nothing met comes to lie. -/
theorem made (shown : ∀ e, InTree (c.provider s.other) (c.root s.other) e → c.visible e = true)
    (event : Comparison.Event c f lefts rights j) (on : joinedOn s j = some x) (none_ : joinedOn s.other j = none) {path : VPath}
    (lies : Comparison.Lies c s x.2 path) : t path = none := by
  by_contra there
  obtain ⟨hangs, proper⟩ := lies.inside
  obtain ⟨e, tree, same⟩ := shows.only _ hangs proper there
  obtain ⟨g, lefts', rights', j', key, y, event', on₁, on₂, -⟩ := lies.stands shown tree same
  obtain ⟨rfl, rfl, rfl, rfl⟩ := event.unique event' on on₁ rfl
  rw [none_] at on₂
  cases on₂

end Shows

namespace Wired

variable {before after : List PlanItem} {t : Standings}

theorem clear_rest (wired : Wired c s rows opts) (unblocked : Unblocked opts rows) (gone : c.opts.descendOrphans = some s.side)
    (shown : ∀ e, InTree (c.provider s.other) (c.root s.other) e → c.visible e = true) {items : List PlanItem}
    (whole : fullPlan rows opts = before ++ items) : (items.filterMap opts.edit).Pairwise (Clear HangsOff) := by
  induction items generalizing before with
  | nil => exact .nil
  | cons item items ih =>
    have rest := @ih (before ++ [item]) (by simp [whole])
    rw [List.filterMap_cons]
    split
    · exact rest
    · rename_i edit does
      apply List.pairwise_cons.mpr
      refine ⟨fun edit' member => ?_, rest⟩
      obtain ⟨item', later, does'⟩ := List.mem_filterMap.mp member
      cases item with
      | blocker => cases does
      | step step witness =>
        cases item' with
        | blocker => cases does'
        | step step' witness' =>
          exact (wired.away unblocked gone shown whole later (acts_of_edit does) (acts_of_edit does')).clear does does'

/-- No directory of the destination is written. -/
theorem not_dir (wired : Wired c s rows opts) (unblocked : Unblocked opts rows)
    (shown : ∀ e, InTree (c.provider s.other) (c.root s.other) e → c.visible e = true)
    (shows : Shows (c.provider s.other) (c.root s.other) t) {path : VPath} (dir : t path = some (.own .dir))
    (inside : .step step' witness' ∈ fullPlan rows opts) (acting' : step'.kind.acts = true) (puts : step'.kind ≠ .deleteTree) :
    opts.writtenPath step' ≠ path := by
  obtain ⟨row, member, yields⟩ := wired.yields_one inside
  obtain ⟨f, lefts, rights, j, tells, acts⟩ := wired.acts unblocked yields acting'
  rintro rfl
  cases acts with
  | makes on none_ kind reads lies =>
    rw [shows.made shown tells.toEvent on none_ lies] at dir
    cases dir
  | replaces on on' leaves kind reads writes =>
    rw [writes, shows.entry _ (tells.inTree on')] at dir
    exact leaves.2 (Standing.own.inj (Option.some.inj dir))
  | deletes none_ on' kind => exact puts kind

section

variable (wired : Wired c s rows opts) (unblocked : Unblocked opts rows) (gone : c.opts.descendOrphans = some s.side)
  (shown : ∀ e, InTree (c.provider s.other) (c.root s.other) e → c.visible e = true)
  (whole : fullPlan rows opts = before ++ .step step witness :: after) (acting : step.kind.acts = true)

include wired unblocked gone shown whole acting

theorem earlier_away (earlier : .step step' witness' ∈ before) (acting' : step'.kind.acts = true) : Away opts step' step := by
  obtain ⟨first, last, rfl⟩ := List.append_of_mem earlier
  have cut : fullPlan rows opts = first ++ .step step' witness' :: (last ++ .step step witness :: after) := by simp [whole]
  have later : PlanItem.step step witness ∈ last ++ .step step witness :: after := by simp
  exact wired.away unblocked gone shown cut later acting' acting

/-- What is at or above the place of a step, and is not written before, is as it was. -/
theorem applied_eq {path : VPath} (above : HangsOff path (opts.writtenPath step))
    (other : ∀ step' witness', .step step' witness' ∈ before → step'.kind.acts = true → step'.kind ≠ .deleteTree →
      opts.writtenPath step' ≠ path) : opts.applied before t path = t path := by
  apply applyAll_other
  · intro standing member
    obtain ⟨step', witness', earlier, acting', puts, same⟩ := put_of_mem member
    exact other step' witness' earlier acting' puts same
  · intro place member inside
    obtain ⟨step', witness', earlier, deletes, rfl⟩ := cut_of_mem member
    have away := wired.earlier_away unblocked gone shown whole acting earlier (by rw [deletes]; rfl)
    exact away.first deletes (inside.trans above)

/-- The place of a step is as it was. -/
theorem applied_here : opts.applied before t (opts.writtenPath step) = t (opts.writtenPath step) := by
  apply wired.applied_eq unblocked gone shown whole acting (.refl _)
  intro step' witness' earlier acting' _
  exact (wired.earlier_away unblocked gone shown whole acting earlier acting').apart

/-- A directory of the destination is still there for a step that writes in it. -/
theorem still_dir (shows : Shows (c.provider s.other) (c.root s.other) t) {path : VPath} (dir : t path = some (.own .dir))
    (above : HangsOff path (opts.writtenPath step)) : opts.applied before t path = some (.own .dir) := by
  rw [wired.applied_eq unblocked gone shown whole acting above, dir]
  intro step' witness' earlier acting' puts
  have planned : .step step' witness' ∈ fullPlan rows opts := whole ▸ List.mem_append_left _ earlier
  exact wired.not_dir unblocked shown shows dir planned acting' puts

/-- A step finds a directory to write in. -/
theorem in_dir (shows : Shows (c.provider s.other) (c.root s.other) t) :
    (opts.applied before t).InDir (opts.writtenPath step) := by
  have inside : .step step witness ∈ fullPlan rows opts := by simp [whole]
  obtain ⟨row, member, yields⟩ := wired.yields_one inside
  obtain ⟨f, lefts, rights, j, tells, acts⟩ := wired.acts unblocked yields acting
  have there {g : Frame} {z : Entry} (down : Reaches c.kids c.rootFrame g) (across : g.dir s.other = some z)
      (child : Child z.path (opts.writtenPath step)) : (opts.applied before t).InDir (opts.writtenPath step) :=
    ⟨z.path, .own .dir, child, wired.still_dir unblocked gone shown whole acting shows (shows.dir down across) child.hangsOff, rfl⟩
  by_cases deletes : step.kind = .deleteTree
  · obtain ⟨y, -, on', writes⟩ := takes_lone acts deletes
    obtain ⟨d, z, -, across, child⟩ := takes_in gone tells.toEvent on'
    exact there tells.down across (writes ▸ child)
  · obtain ⟨x, -, reads, lies⟩ := lies tells acts deletes
    obtain ⟨g, d, path, down, dir, -, lands, child⟩ := lies.within
    cases across : g.dir s.other with
    | some z =>
      obtain rfl := lands.eq_there across
      exact there down across child
    | none =>
      obtain ⟨made, witness', planned, createDir, rfl⟩ := wired.makes_dir unblocked (wired.open_ member) down dir across lands
      have reads' : opts.readPath made ≠ none := by simp [SyncOptions.readPath, createDir]
      have earlier := wired.parent_before whole (by simp [reads]) planned reads' child
      have edit : opts.edit (.step made witness') = some (.put (opts.writtenPath made) (.dir (under opts.sourceRoot made.rel))) := by
        simp [SyncOptions.edit, createDir]
      have clear := @clear_rest _ _ _ _ [] wired unblocked gone shown (fullPlan rows opts) rfl
      rw [whole, List.filterMap_append] at clear
      exact ⟨_, _, child, applyAll_put (List.pairwise_append.mp clear).1 (List.mem_filterMap.mpr ⟨_, earlier, edit⟩), rfl⟩

/-- A step that acts finds the destination as it needs it. -/
theorem ready (shows : Shows (c.provider s.other) (c.root s.other) t) : opts.Ready (opts.applied before t) step witness := by
  have inside : .step step witness ∈ fullPlan rows opts := by simp [whole]
  obtain ⟨row, member, yields⟩ := wired.yields_one inside
  obtain ⟨f, lefts, rights, j, tells, acts⟩ := wired.acts unblocked yields acting
  have here : opts.applied before t (opts.writtenPath step) = t (opts.writtenPath step) :=
    wired.applied_here unblocked gone shown whole acting
  have parent := wired.in_dir unblocked gone shown whole acting shows
  unfold SyncOptions.Ready
  cases acts with
  | @makes x on none_ kind reads lies =>
    have nothing := here.trans (shows.made shown tells.toEvent on none_ lies)
    by_cases dir : x.2.kind = .dir
    · rw [if_pos dir] at kind
      rw [kind]
      exact ⟨nothing, parent⟩
    · rw [if_neg dir] at kind
      rw [kind]
      exact ⟨nothing, parent⟩
  | @replaces x y on on' leaves kind reads writes seen =>
    have stands := shows.entry _ (tells.inTree on')
    rw [← writes, ← here] at stands
    rw [kind]
    exact ⟨⟨y.2.kind, stands, leaves.2, seen⟩, parent⟩
  | @deletes y none_ on' kind writes seen =>
    have stands := shows.entry _ (tells.inTree on')
    rw [← writes, ← here] at stands
    rw [kind]
    exact ⟨⟨y.2.kind, stands, seen⟩, parent⟩

end

end Wired

/-- A provider that holds these entries and says how it folds. -/
def foldingShelf (entries : List Entry) (folds : VPath → Compare.Capabilities) : Compare.Provider :=
  { Compare.shelf entries with capabilitiesAt := fun path => some (folds path) }

theorem foldingShelf_inTree {entries : List Entry} {folds : VPath → Compare.Capabilities} {root : VPath}
    (tree : InTree (foldingShelf entries folds) root e) : InTree (Compare.shelf entries) root e := by
  induction tree with
  | top lists member above => exact .top lists member above
  | deeper _ dir lists member above ih => exact .deeper ih dir lists member above

theorem foldingShelf_finite {entries : List Entry} {folds : VPath → Compare.Capabilities}
    (distinct : (entries.map (·.path)).Nodup) (root : VPath) : Compare.FiniteTree (foldingShelf entries folds) root := by
  obtain ⟨⟨height, bound⟩, names⟩ := Compare.shelf_finite distinct root
  refine ⟨⟨height, fun e tree => bound e (foldingShelf_inTree tree)⟩, fun dir items place lists => names dir items ?_ lists⟩
  exact place.imp_right fun ⟨d, tree, rest⟩ => ⟨d, foldingShelf_inTree tree, rest⟩

def stickRoot (name : Segment) : VPath := Compare.smallRoot.join name

/-- The folder `d`, which folds names on the right. -/
def stickDir (name : Segment) : Entry := ⟨(stickRoot name).join ⟨[0x64], Segment.valid_d⟩, .dir, none, none⟩

/-- On the left `c` in it, with `a` and `A`. -/
def stickInner : Entry := ⟨(stickDir lowerName).path.join ⟨[0x63], Segment.valid_c⟩, .dir, none, none⟩

def stickFile (name : Segment) : Entry := ⟨stickInner.path.join name, .file, some 1, some 0⟩

/-- The folder is on both sides, and what is in it on the left only. No root folds. -/
def stick : Comparison where
  left := foldingShelf [stickDir lowerName, stickInner, stickFile lowerName, stickFile upperName] fun _ => ⟨true, false⟩
  leftRoot := stickRoot lowerName
  right := foldingShelf [stickDir upperName] fun path => ⟨path ≠ (stickDir upperName).path, false⟩
  rightRoot := stickRoot upperName
  opts := ⟨⟨true, true, false⟩, none, 2000, false, some .left⟩
  sides := ⟨.none, .none⟩
  excluded := []
  names := ⟨fun name mode =>
    if mode = .none then name else name.map fun b => if 0x41 ≤ b ∧ b ≤ 0x5A then b + 0x20 else b, fun _ => false⟩
  sha256 := id

def stickFrame : Frame := ⟨some (stickDir lowerName), some (stickDir upperName), 1⟩

def stickInnerFrame : Frame := ⟨some stickInner, none, 2⟩

def stickRows : List CompareRow :=
  Compare.numbered stick.names 0
    (stick.emits stick.rootFrame ++ (stick.emits stickFrame ++ stick.emits stickInnerFrame))

def stickOptions : SyncOptions := ⟨stickRoot lowerName, stickRoot upperName, .update, .skip, .left, true, true, true⟩

/-- The rows of three directories, each in the one before. -/
theorem streams_chain {c : Comparison} {f g : Frame} (top : c.kids c.rootFrame = [f]) (mid : c.kids f = [g]) (last : c.kids g = [])
    (apart : c.excludesRoots = false) :
    c.Streams (Compare.numbered c.names 0 (c.emits c.rootFrame ++ (c.emits f ++ c.emits g))) := by
  have inner : Walks c.emits c.kids [g] (c.emits g ++ ([] ++ [])) := .cons (last ▸ .nil) .nil
  have down : Walks c.emits c.kids [f] (c.emits f ++ (c.emits g ++ ([] ++ []) ++ [])) := .cons (mid ▸ inner) .nil
  have walks : Walks c.emits c.kids [c.rootFrame] (c.emits c.rootFrame ++ (c.emits f ++ (c.emits g ++ ([] ++ []) ++ []) ++ [])) :=
    .cons (top ▸ down) .nil
  have streams := Comparison.streams_of_walks walks apart
  simpa using streams

theorem stick_wired : Wired stick .left stickRows stickOptions where
  trees s := by
    cases s
    · exact foldingShelf_finite (by decide) _
    · exact foldingShelf_finite (by decide) _
  streams := streams_chain rfl rfl rfl rfl
  side := rfl
  source := rfl
  dest := rfl

def stickInside : VPath := (stickDir upperName).path.join ⟨[0x63], Segment.valid_c⟩

theorem stick_plan : ∃ createDir copy copy', fullPlan stickRows stickOptions =
      [.step createDir none, .step copy none, .step copy' none] ∧
    (createDir.kind = .createDir ∧ stickOptions.writtenPath createDir = stickInside) ∧
    (copy.kind = .copy ∧ stickOptions.writtenPath copy = stickInside.join upperName) ∧
    copy'.kind = .copy ∧ stickOptions.writtenPath copy' = stickInside.join lowerName :=
  ⟨_, _, _, rfl, ⟨rfl, rfl⟩, ⟨rfl, rfl⟩, rfl, rfl⟩

theorem stick_unblocked : Unblocked stickOptions stickRows := by
  intro blocker member
  obtain ⟨createDir, copy, copy', whole, -⟩ := stick_plan
  simp [whole] at member

theorem stick_down : Reaches stick.kids stick.rootFrame stickFrame := .tail .refl (List.mem_singleton_self _)

theorem stick_inner : Reaches stick.kids stick.rootFrame stickInnerFrame := .tail stick_down (List.mem_singleton_self _)

/-- What stands on the right. -/
def stickStandings (path : VPath) : Option Standing :=
  if path = stickRoot upperName ∨ path = (stickDir upperName).path then some (.own .dir) else none

theorem stick_shows : Shows (stick.provider .right) (stick.root .right) stickStandings where
  top := if_pos (.inl rfl)
  entry e tree := by
    obtain rfl := List.mem_singleton.mp (Compare.shelf_inTree (foldingShelf_inTree tree))
    exact if_pos (.inr rfl)
  only path _ proper there := by
    by_cases here : path = (stickDir upperName).path
    · exact ⟨stickDir upperName, .top rfl (List.mem_singleton_self _) ⟨_, rfl⟩, here.symm⟩
    · exact absurd (if_neg (not_or.mpr ⟨proper, here⟩)) there

end Norte.Sync
