import Norte.SyncApplies

/-! What a plan puts in one directory is told apart there, as long as the directory joins no two names
that the rules it was compared by kept apart. The rules of a directory that one side lacks are those of
the roots, and there it may join more. -/
namespace Norte.Sync

open Compare (Comparison Frame Listed joinedOn InTree pairName)
open Rename (FoldMode)
open MergeJoin StackWalk Transducer

/-- The kinds that put something at the destination. -/
def SyncStepKind.puts : SyncStepKind → Bool
  | .createDir | .copy | .overwrite => true
  | .deleteTree | .skip | .unknown => false

/-- How names fold where a directory of the source comes to lie: as in the directory that stands there,
and where none does yet as in the one above it. -/
inductive Folds (c : Comparison) (s : DescendSide) (mode : VPath → FoldMode) : Frame → FoldMode → Prop
  | there {f : Frame} {d : Entry} (dir : f.dir s.other = some d) : Folds c s mode f (mode d.path)
  | made {f g : Frame} {m : FoldMode} (above : Folds c s mode f m) (kid : g ∈ c.kids f) (missing : g.dir s.other = none) :
      Folds c s mode g m

/-- What the mode joins of the names listed in the directories of a frame, the rules they are compared by join too. -/
def Joins (c : Comparison) (f : Frame) (m : FoldMode) : Prop :=
  ∀ lefts rights, c.seen .left f = .ok lefts → c.seen .right f = .ok rights → ∀ e ∈ lefts ++ rights, ∀ e' ∈ lefts ++ rights,
    c.names.nameKey (pairName e) m = c.names.nameKey (pairName e') m →
      c.names.keyFor (pairName e) (c.sidesFor f) = c.names.keyFor (pairName e') (c.sidesFor f)

/-- The mode `m` tells apart what the plan puts in `dir`, each from the other and from what the
comparison sees there under another name. -/
structure ToldApart (c : Comparison) (s : DescendSide) (opts : SyncOptions) (rows : List CompareRow) (dir : VPath)
    (m : FoldMode) : Prop where
  steps : ∀ before step witness after step' witness' (name name' : Segment),
    fullPlan rows opts = before ++ .step step witness :: after → .step step' witness' ∈ after →
    step.kind.puts = true → step'.kind.puts = true → opts.writtenPath step = dir.join name →
    opts.writtenPath step' = dir.join name' → c.names.nameKey name.bytes m ≠ c.names.nameKey name'.bytes m
  standing : ∀ step witness e (name name' : Segment), .step step witness ∈ fullPlan rows opts → step.kind.puts = true →
    opts.writtenPath step = dir.join name → InTree (c.provider s.other) (c.root s.other) e → c.visible e = true →
    e.path = dir.join name' → name ≠ name' → c.names.nameKey name.bytes m ≠ c.names.nameKey name'.bytes m

variable {c : Comparison} {s : DescendSide} {rows : List CompareRow} {opts : SyncOptions} {row row' : CompareRow}
  {f g : Frame} {lefts rights lefts' rights' : List Entry} {j j' : Joined (Bytes × Entry) (Bytes × Entry)}
  {x : Bytes × Entry} {d e : Entry} {step step' : SyncStep} {witness witness' : Option DestWitness} {mode : VPath → FoldMode}
  {m : FoldMode} {dir : VPath}

theorem SyncStepKind.puts_acts {kind : SyncStepKind} (puts : kind.puts = true) : kind.acts = true ∧ kind ≠ .deleteTree := by
  cases kind <;> simp_all [SyncStepKind.puts, SyncStepKind.acts]

/-- Rules that are the mode itself join what it joins. -/
theorem Joins.of_fold (same : (c.sidesFor f).fold = m) : Joins c f m := by
  intro lefts rights _ _ e _ e' _ joined
  unfold Compare.Names.keyFor
  rw [same]
  exact joined

/-- Every directory that is walked folds somehow. -/
theorem exists_folds (mode : VPath → FoldMode) (down : Reaches c.kids c.rootFrame f) : ∃ m, Folds c s mode f m := by
  induction down with
  | refl => exact ⟨_, .there (c.rootFrame_dir s.other)⟩
  | @tail g h walked kid ih =>
    obtain ⟨m, folds⟩ := ih
    cases dir : h.dir s.other with
    | some d => exact ⟨_, .there dir⟩
    | none => exact ⟨m, .made folds kid dir⟩

/-- Where an entry that nothing met comes to lie, by the directory it was listed in. -/
theorem lies_alone {path : VPath} (event : Comparison.Event c f lefts rights j) (on : joinedOn s j = some x)
    (none_ : joinedOn s.other j = none) (lies : Comparison.Lies c s x.2 path) : ∃ d dir name, f.dir s = some d ∧
      x.2.path = d.path.join name ∧ Comparison.Lands c s f dir ∧ path = dir.join name ∧
      ((c.index f lefts rights).side s.other).collided x.1 = none := by
  cases lies with
  | met event' on₁ on₂ =>
    obtain ⟨rfl, rfl, rfl, rfl⟩ := event.unique event' on on₁ rfl
    rw [none_] at on₂
    cases on₂
  | alone event' on₁ none₁ clear above named lands =>
    obtain ⟨rfl, rfl, rfl, rfl⟩ := event.unique event' on on₁ rfl
    have key : _ = x.1 := congrArg Prod.fst (Option.some.inj (on₁.symm.trans on))
    subst key
    exact ⟨_, _, _, above, named, lands, rfl, clear⟩

namespace Tells

theorem mem_lists {at_ : DescendSide} (inside : e ∈ ((c.index f lefts rights).side at_).entries) : e ∈ lefts ++ rights := by
  cases at_
  · exact List.mem_append_left _ inside
  · exact List.mem_append_right _ inside

/-- What a step that puts something writes: a name that is listed in the directories of its event, with the
event's key, where the directory of the source comes to lie. -/
theorem writes (tells : Tells c f lefts rights j row) (acts : Acts c s opts f lefts rights j step witness)
    (puts : step.kind.puts = true) : ∃ x d dir name z, joinedOn s j = some x ∧ f.dir s = some d ∧
      Comparison.Lands c s f dir ∧ opts.writtenPath step = dir.join name ∧ z ∈ lefts ++ rights ∧
      pairName z = name.bytes ∧ c.names.keyFor name.bytes (c.sidesFor f) = x.1 := by
  cases acts with
  | @makes x on none_ kind reads lies =>
    obtain ⟨-, -, -, inside⟩ := tells.listed on
    obtain ⟨d, dir, name, above, named, lands, written, -⟩ := lies_alone tells.toEvent on none_ lies
    have key := (Listed.mem_joined tells.member on).1
    rw [Comparison.index_keyOf, Comparison.pairName_join named] at key
    exact ⟨x, d, dir, name, x.2, on, above, lands, written, mem_lists inside, Comparison.pairName_join named, key⟩
  | @replaces x y on on' leaves kind reads writes =>
    obtain ⟨d, above, -, -⟩ := tells.listed on
    obtain ⟨z, across, ⟨name, named⟩, inside⟩ := tells.listed on'
    have key := (Listed.mem_joined tells.member on').1
    rw [Comparison.index_keyOf, Comparison.pairName_join named, Comparison.joined_key tells.member on on'] at key
    exact ⟨x, d, z.path, name, y.2, on, above, .there across, writes.trans named, mem_lists inside,
      Comparison.pairName_join named, key⟩
  | deletes none_ on' kind =>
    rw [kind] at puts
    cases puts

end Tells

namespace Wired

variable (wired : Wired c s rows opts)
include wired

/-- Two rows that write in one directory write two keys of it. -/
theorem keys_apart (member : row ∈ rows) (member' : row' ∈ rows) (other : row ≠ row')
    (tells : Tells c f lefts rights j row) (tells' : Tells c f lefts rights j' row') {y : Bytes × Entry}
    (on : joinedOn s j = some x) (on' : joinedOn s j' = some y) : x.1 ≠ y.1 := by
  intro same
  obtain ⟨key, alone⟩ := Listed.mem_joined tells.member on
  obtain ⟨key', alone'⟩ := Listed.mem_joined tells'.member on'
  have one := alone.only alone'.mem (key'.trans (same.symm.trans key.symm))
  exact other (wired.row_of_entry member member' tells tells' on on' (congrArg Entry.path one.symm))

/-- What a step writes in a directory is listed where one of the source comes to lie there. -/
theorem writes_here (unblocked : Unblocked opts rows) {name : Segment} (yields : Yields opts rows row (.step step witness))
    (puts : step.kind.puts = true) (written : opts.writtenPath step = dir.join name) (down : Reaches c.kids c.rootFrame f)
    (above : f.dir s = some d) (lands : Comparison.Lands c s f dir) : ∃ lefts rights j x z, Tells c f lefts rights j row ∧
      Acts c s opts f lefts rights j step witness ∧ joinedOn s j = some x ∧ z ∈ lefts ++ rights ∧ pairName z = name.bytes ∧
      c.names.keyFor name.bytes (c.sidesFor f) = x.1 := by
  obtain ⟨g, lefts, rights, j, tells, acts⟩ := wired.acts unblocked yields (SyncStepKind.puts_acts puts).1
  obtain ⟨x, d', dir', name', z, on, above', lands', written', listed, called, key⟩ := tells.writes acts puts
  obtain ⟨rfl, rfl⟩ := join_injective (written'.symm.trans written)
  obtain rfl := lands.frame lands' down tells.down above above'
  exact ⟨lefts, rights, j, x, z, tells, acts, on, listed, called, key⟩

/-- Where the mode joins nothing that the rules keep apart, it tells apart what the plan puts there. -/
theorem told_apart (unblocked : Unblocked opts rows) (down : Reaches c.kids c.rootFrame f) (above : f.dir s = some d)
    (lands : Comparison.Lands c s f dir) (joins : Joins c f m) : ToldApart c s opts rows dir m where
  steps before step witness after step' witness' name name' whole later puts puts' written written' joined := by
    obtain ⟨row, member, row', member', other, yields, yields'⟩ := wired.yields_two whole later
    obtain ⟨lefts, rights, j, x, z, tells, -, on, listed, called, key⟩ := wired.writes_here unblocked yields puts written down above lands
    obtain ⟨lefts', rights', j', y, z', tells', -, on', listed', called', key'⟩ :=
      wired.writes_here unblocked yields' puts' written' down above lands
    obtain rfl := Except.ok.inj (tells.left.symm.trans tells'.left)
    obtain rfl := Except.ok.inj (tells.right.symm.trans tells'.right)
    apply wired.keys_apart member member' other tells tells' on on'
    rw [← key, ← key', ← called, ← called']
    exact joins _ _ tells.left tells.right z listed z' listed' (by rw [called, called', joined])
  standing step witness e name name' inside puts written tree shown at_ other joined := by
    obtain ⟨row, member, yields⟩ := wired.yields_one inside
    obtain ⟨lefts, rights, j, x, z, tells, acts, on, listed, called, key⟩ := wired.writes_here unblocked yields puts written down above lands
    have child : Child dir e.path := ⟨name', at_⟩
    obtain ⟨y, across, seen⟩ : ∃ y, f.dir s.other = some y ∧ e ∈ ((c.index f lefts rights).side s.other).entries := by
      cases across : f.dir s.other with
      | some y =>
        obtain rfl := lands.eq_there across
        obtain ⟨items, lists, member⟩ := Comparison.listed_of_inTree tree child
        exact ⟨y, rfl, Comparison.seen_mem tells.left tells.right across lists member shown⟩
      | none =>
        cases tree with
        | top lists member top =>
          obtain rfl := child.parent top
          have root : Comparison.Lands c s c.rootFrame (c.root s.other) := .there (c.rootFrame_dir s.other)
          obtain rfl := lands.frame root down .refl above (c.rootFrame_dir s)
          rw [Comparison.rootFrame_dir] at across
          cases across
        | @deeper y items _ tree isDir lists member top =>
          exact absurd (top.parent child)
            (lands.nothing_there across tree (Comparison.visible_of_below shown top.hangsOff))
    have same : ((c.index f lefts rights).side s.other).keyOf e = x.1 := by
      rw [Comparison.index_keyOf, Comparison.pairName_join at_, ← key, ← Comparison.pairName_join at_, ← called]
      exact joins _ _ tells.left tells.right e (Tells.mem_lists seen) z listed (by rw [called, Comparison.pairName_join at_, joined])
    cases acts with
    | @makes x₁ on₁ none_ kind reads lies =>
      obtain rfl := Option.some.inj (on.symm.trans on₁)
      obtain ⟨-, -, -, -, -, -, -, clear⟩ := lies_alone tells.toEvent on none_ lies
      exact Comparison.not_seen_of_event tells.member on none_ clear seen same
    | @replaces x₁ y₁ on₁ on' leaves kind reads writes =>
      obtain ⟨key', alone⟩ := Listed.mem_joined tells.member on'
      have one := alone.only seen (by rw [same, key', Comparison.joined_key tells.member on on'])
      rw [← one, written, at_] at writes
      exact other (join_injective writes).2
    | deletes none_ on' kind =>
      rw [kind] at puts
      cases puts

end Wired

def stickMode (path : VPath) : FoldMode := if path = (stickDir upperName).path then .simple else .none

theorem stick_folds : Folds stick .left stickMode stickFrame .simple := by
  have folds : stickMode (stickDir upperName).path = .simple := rfl
  rw [← folds]
  exact .there rfl

end Norte.Sync
