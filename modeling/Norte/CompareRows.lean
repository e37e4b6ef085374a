import Norte.CompareWalk

/-! What a whole comparison emits: the run of the walk is the preorder of its frames, each
frame speaks of the children of its own directories only, and directories that are walked
apart never meet again. -/
namespace Norte.Compare

open Sync MergeJoin StackWalk

/-! The run. -/

def numbered (names : Names) : Nat → List PendingRow → List CompareRow
  | _, [] => []
  | n, row :: rows => row.intoRow names (n + 1) :: numbered names (n + 1) rows

namespace Comparison

variable {c : Comparison}

theorem foldl_push (rows : List PendingRow) (w : Walk) :
    rows.foldl c.push w =
      ⟨w.stack, w.pending ++ numbered c.names w.nextId rows, w.nextId + rows.length⟩ := by
  induction rows generalizing w with
  | nil => simp [numbered]
  | cons row rows ih =>
    rw [List.foldl_cons, ih, push]
    simp [numbered, Nat.add_assoc, Nat.add_comm 1]

/-- What comes out of a state, whatever more turns it is given. -/
def Runs (c : Comparison) (w : Walk) (rows : List CompareRow) : Prop :=
  ∃ turns, ∀ more, turns ≤ more → c.run more w = some rows

theorem Runs.pending {rows : List CompareRow} {stack : List Frame} {n : Nat} (pending : List CompareRow)
    (later : c.Runs ⟨stack, [], n⟩ rows) : c.Runs ⟨stack, pending, n⟩ (pending ++ rows) := by
  induction pending with
  | nil => exact later
  | cons row pending ih =>
    obtain ⟨turns, enough⟩ := ih
    refine ⟨turns + 1, fun more large => ?_⟩
    obtain ⟨more, rfl⟩ : ∃ k, more = k + 1 := ⟨more - 1, by omega⟩
    rw [run, turn]
    simp only [enough more (by omega), Option.map_some]
    rfl

theorem Runs.frame {rows : List CompareRow} {f : Frame} {stack : List Frame} {n : Nat}
    (later : c.Runs ⟨c.kids f ++ stack, [], n + (c.emits f).length⟩ rows) :
    c.Runs ⟨f :: stack, [], n⟩ (numbered c.names n (c.emits f) ++ rows) := by
  obtain ⟨turns, enough⟩ := later.pending (numbered c.names n (c.emits f))
  refine ⟨turns + 1, fun more large => ?_⟩
  obtain ⟨more, rfl⟩ : ∃ k, more = k + 1 := ⟨more - 1, by omega⟩
  rw [run, turn]
  simp only [visitFrame, foldl_push, List.nil_append, enough more (by omega), Option.map_some]
  rfl

theorem numbered_append (names : Names) (n : Nat) (rows rows' : List PendingRow) :
    numbered names n (rows ++ rows') = numbered names n rows ++ numbered names (n + rows.length) rows' := by
  induction rows generalizing n with
  | nil => rfl
  | cons row rows ih =>
    rw [List.cons_append, numbered, ih, numbered, List.cons_append, List.length_cons, Nat.add_assoc, Nat.add_comm 1]

theorem runs_of_walks {stack below : List Frame} {out : List PendingRow} (walks : Walks c.emits c.kids stack out)
    {n : Nat} {rows : List CompareRow} (later : c.Runs ⟨below, [], n + out.length⟩ rows) :
    c.Runs ⟨stack ++ below, [], n⟩ (numbered c.names n out ++ rows) := by
  induction walks generalizing below n rows with
  | nil => exact later
  | @cons f stack inner rest _ _ ihBelow ihRest =>
    have afterRest := ihRest (n := n + (c.emits f).length + inner.length)
      (by simpa only [List.length_append, Nat.add_assoc] using later)
    have afterInner := ihBelow afterRest
    have whole := Runs.frame (f := f) afterInner
    simpa only [numbered_append, List.append_assoc, List.cons_append] using whole

def excludesRoots (c : Comparison) : Bool :=
  c.excluded.any fun x => isDescendant x c.leftRoot || isDescendant x c.rightRoot

/-- The stream of a comparison, to its end. -/
def Streams (c : Comparison) (rows : List CompareRow) : Prop :=
  ∃ turns, ∀ more, turns ≤ more → c.compare more = some rows

theorem Streams.unique {rows rows' : List CompareRow} (first : c.Streams rows) (second : c.Streams rows') :
    rows = rows' := by
  obtain ⟨turns, enough⟩ := first
  obtain ⟨turns', enough'⟩ := second
  have same := (enough (max turns turns') (le_max_left ..)).symm.trans (enough' _ (le_max_right ..))
  exact Option.some.inj same

theorem streams_of_walks {out : List PendingRow} (walks : Walks c.emits c.kids [c.rootFrame] out)
    (apart : c.excludesRoots = false) : c.Streams (numbered c.names 0 out) := by
  have ended : c.Runs ⟨[], [], 0 + out.length⟩ [] := by
    refine ⟨1, fun more large => ?_⟩
    obtain ⟨more, rfl⟩ : ∃ k, more = k + 1 := ⟨more - 1, by omega⟩
    rfl
  obtain ⟨turns, enough⟩ := runs_of_walks walks ended
  refine ⟨turns, fun more large => ?_⟩
  rw [compare, if_neg (by simpa [excludesRoots] using apart)]
  simpa using enough more large

theorem streams_excluded (apart : c.excludesRoots = true) : c.Streams [] := by
  refine ⟨0, fun more _ => ?_⟩
  rw [compare, if_pos (by simpa [excludesRoots] using apart)]

end Comparison

/-! Rows by their numbers. -/

theorem mem_numbered {names : Names} {row : CompareRow} {n : Nat} {out : List PendingRow} :
    row ∈ numbered names n out ↔ ∃ k, ∃ r : PendingRow, out[k]? = some r ∧ row = r.intoRow names (n + k + 1) := by
  induction out generalizing n with
  | nil => simp [numbered]
  | cons r out ih =>
    rw [numbered, List.mem_cons, ih]
    constructor
    · rintro (rfl | ⟨k, r', found, rfl⟩)
      · exact ⟨0, r, rfl, rfl⟩
      · exact ⟨k + 1, r', found, by rw [Nat.add_assoc n 1, Nat.add_comm 1]⟩
    · rintro ⟨k, r', found, rfl⟩
      cases k with
      | zero =>
        obtain rfl := Option.some.inj found
        exact .inl rfl
      | succ k => exact .inr ⟨k, r', found, by rw [Nat.add_assoc n 1, Nat.add_comm 1]⟩

@[simp] theorem intoRow_id (names : Names) (n : Nat) (row : PendingRow) : (row.intoRow names n).id = n := by
  cases row <;> rfl

theorem numbered_increasing (names : Names) (n : Nat) (out : List PendingRow) :
    (numbered names n out).Pairwise fun a b => a.id < b.id := by
  induction out generalizing n with
  | nil => exact .nil
  | cons r out ih =>
    refine List.pairwise_cons.mpr ⟨fun row later => ?_, ih (n + 1)⟩
    obtain ⟨k, r', _, rfl⟩ := mem_numbered.mp later
    rw [intoRow_id, intoRow_id]
    omega

/-! One directory, side by side. -/

def Frame.dir (f : Frame) : DescendSide → Option Entry
  | .left => f.left
  | .right => f.right

namespace PendingRow

def entry (row : PendingRow) (s : DescendSide) : Option Entry :=
  match row, s with
  | decision _ left _, .left | flagged left _ _ _ _ _, .left => left
  | decision _ _ right, .right | flagged _ right _ _ _ _, .right => right

def verdict : PendingRow → CompareVerdict
  | decision d _ _ => d.verdict
  | flagged _ _ verdict _ _ _ => verdict

def criterion : PendingRow → CompareCriterion
  | decision d _ _ => d.criterion
  | flagged _ _ _ criterion _ _ => criterion

/-- The row of a directory that could not be listed, next to the row it has as an entry. -/
def listingError (row : PendingRow) : Bool := row.verdict = .error && row.criterion = .presence

end PendingRow

namespace Comparison

def provider (c : Comparison) : DescendSide → Provider
  | .left => c.left
  | .right => c.right

def root (c : Comparison) : DescendSide → VPath
  | .left => c.leftRoot
  | .right => c.rightRoot

/-- What is seen of one side of a directory. -/
def seen (c : Comparison) (s : DescendSide) (f : Frame) : Except CompareReason (List Entry) :=
  c.listVisible (c.provider s) (f.dir s)

end Comparison

theorem isDirectChild_iff {dir path : VPath} : isDirectChild dir path = true ↔ Child dir path := by
  unfold isDirectChild
  simp only [Bool.and_eq_true, decide_eq_true_eq]
  constructor
  · rintro ⟨⟨⟨scheme, authority⟩, hangs⟩, long⟩
    obtain ⟨rest, whole⟩ := hangs
    rw [← whole, List.length_append] at long
    obtain ⟨s, rfl⟩ := List.length_eq_one_iff.mp (Nat.add_left_cancel long)
    refine ⟨s, ?_⟩
    obtain ⟨scheme', authority', segments'⟩ := path
    simp only at scheme authority whole
    subst scheme authority whole
    rfl
  · rintro ⟨s, rfl⟩
    exact ⟨⟨⟨rfl, rfl⟩, List.prefix_append ..⟩, List.length_append⟩

theorem drainListing_ok {dir : VPath} {items : List (Option Entry)} {out entries : List Entry}
    (drained : drainListing dir items out = .ok entries) :
    ∃ listed, items = listed.map some ∧ entries = out ++ listed ∧ ∀ e ∈ listed, Child dir e.path := by
  induction items generalizing out with
  | nil =>
    obtain rfl := Except.ok.inj drained
    exact ⟨[], rfl, by simp, by simp⟩
  | cons item items ih =>
    cases item with
    | none => exact nomatch drained
    | some e =>
      rw [drainListing] at drained
      split at drained
      · exact nomatch drained
      rename_i inside
      split at drained
      · exact nomatch drained
      obtain ⟨listed, rfl, rfl, children⟩ := ih drained
      refine ⟨e :: listed, rfl, by simp, ?_⟩
      exact List.forall_mem_cons.mpr ⟨isDirectChild_iff.mp (by simpa using inside), children⟩

/-- The children of a directory as its provider lists them. -/
def Provider.Lists (p : Provider) (dir : VPath) (entries : List Entry) : Prop :=
  p.list dir = some (entries.map some) ∧ ∀ e ∈ entries, Child dir e.path

theorem listAll_ok {p : Provider} {dir : VPath} {entries : List Entry} (listed : listAll p dir = .ok entries) :
    p.Lists dir entries := by
  unfold listAll at listed
  split at listed
  · exact nomatch listed
  rename_i items found
  obtain ⟨listed, rfl, rfl, children⟩ := drainListing_ok listed
  exact ⟨by simpa using found, by simpa using children⟩

namespace Comparison

variable {c : Comparison} {s : DescendSide} {f : Frame}

def visible (c : Comparison) (e : Entry) : Bool := !c.excluded.any fun x => isDescendant x e.path

/-- What is seen of a side that is there is what its provider lists and nothing excludes. -/
theorem seen_ok {entries : List Entry} (seen : c.seen s f = .ok entries) (there : f.dir s = some d) :
    ∃ listed, (c.provider s).Lists d.path listed ∧ entries = listed.filter c.visible := by
  unfold Comparison.seen listVisible listSide at seen
  rw [there] at seen
  dsimp only at seen
  cases listed : listAll (c.provider s) d.path with
  | error r =>
    rw [listed] at seen
    exact nomatch seen
  | ok found =>
    rw [listed] at seen
    exact ⟨found, listAll_ok listed, (Except.ok.inj seen).symm⟩

theorem seen_missing (missing : f.dir s = none) : c.seen s f = .ok [] := by
  unfold Comparison.seen listVisible listSide
  rw [missing]
  rfl

theorem seen_child {entries : List Entry} (seen : c.seen s f = .ok entries) (inside : e ∈ entries) :
    ∃ d, f.dir s = some d ∧ Child d.path e.path := by
  cases there : f.dir s with
  | none =>
    rw [seen_missing there] at seen
    obtain rfl := Except.ok.inj seen
    exact absurd inside List.not_mem_nil
  | some d =>
    obtain ⟨listed, lists, rfl⟩ := seen_ok seen there
    exact ⟨d, rfl, lists.2 e (List.mem_of_mem_filter inside)⟩

/-- A directory either is listed on both sides, or leaves rows that say which was not. -/
theorem visit_cases (c : Comparison) (f : Frame) :
    (∃ lefts rights, c.seen .left f = .ok lefts ∧ c.seen .right f = .ok rights) ∨
      (c.emits f = listingErrors f (c.seen .left f) (c.seen .right f) ∧ c.kids f = [] ∧
        ∃ s reason, c.seen s f = .error reason) := by
  have failed {left right : Except CompareReason (List Entry)} (seenLeft : c.seen .left f = left)
      (seenRight : c.seen .right f = right) (visited : c.visit f = (listingErrors f left right, [])) :
      c.emits f = listingErrors f left right ∧ c.kids f = [] :=
    ⟨congrArg Prod.fst visited, congrArg Prod.snd visited⟩
  unfold visit at failed
  cases left : c.seen .left f with
  | error r =>
    have seenLeft : c.listVisible c.left f.left = .error r := left
    rw [seenLeft] at failed
    obtain ⟨rows, none⟩ := failed left rfl rfl
    exact .inr ⟨rows, none, .left, r, left⟩
  | ok lefts =>
    cases right : c.seen .right f with
    | error r =>
      have seenLeft : c.listVisible c.left f.left = .ok lefts := left
      have seenRight : c.listVisible c.right f.right = .error r := right
      rw [seenLeft, seenRight] at failed
      obtain ⟨rows, none⟩ := failed left right rfl
      exact .inr ⟨rows, none, .right, r, right⟩
    | ok rights => exact .inl ⟨lefts, rights, rfl, rfl⟩

variable {lefts rights : List Entry}

theorem emits_listed (left : c.seen .left f = .ok lefts) (right : c.seen .right f = .ok rights) :
    c.emits f = collisionRows (c.index f lefts rights) ++
      (c.index f lefts rights).joined.map (c.joinedRow (c.index f lefts rights)) := by
  unfold emits visit
  rw [show c.listVisible c.left f.left = _ from left, show c.listVisible c.right f.right = _ from right]

theorem kids_listed (left : c.seen .left f = .ok lefts) (right : c.seen .right f = .ok rights) :
    c.kids f = (c.index f lefts rights).joined.filterMap (c.joinedFrame (c.index f lefts rights) f.depth) := by
  unfold kids visit
  rw [show c.listVisible c.left f.left = _ from left, show c.listVisible c.right f.right = _ from right]

end Comparison

/-! What is known of a pair after it was hydrated is still the pair. -/

def SameEntry (e e' : Entry) : Prop := e.path = e'.path ∧ e.kind = e'.kind

theorem SameEntry.trans (first : SameEntry e e') (second : SameEntry e' e'') : SameEntry e e'' :=
  ⟨first.1.trans second.1, first.2.trans second.2⟩

theorem hydrate_same (p : Provider) (fresh : Fresh) : SameEntry (hydrate p fresh).1.entry fresh.entry := by
  unfold hydrate
  split
  · exact ⟨rfl, rfl⟩
  · split <;> exact ⟨rfl, rfl⟩

theorem hydrateRung_same {left right : Provider} {rung : CompareCriterion} {lacks : Entry → Bool}
    {pair pair' : Fresh × Fresh} {failure : Option StatFailure}
    (eq : hydrateRung left right rung lacks pair = (pair', failure)) :
    SameEntry pair'.1.entry pair.1.entry ∧ SameEntry pair'.2.entry pair.2.entry ∧
      ∀ f, failure = some f → f.rung = rung := by
  have asked (p : Provider) (fresh : Fresh) :
      SameEntry (if lacks fresh.entry then hydrate p fresh else (fresh, true)).1.entry fresh.entry := by
    split
    · exact hydrate_same p fresh
    · exact ⟨rfl, rfl⟩
  have first := asked left pair.1
  have second := asked right pair.2
  unfold hydrateRung at eq
  revert eq first second
  generalize (if lacks pair.1.entry then hydrate left pair.1 else (pair.1, true)) = l
  generalize (if lacks pair.2.entry then hydrate right pair.2 else (pair.2, true)) = r
  intro eq first second
  dsimp only at eq
  split at eq
  · obtain ⟨rfl, rfl⟩ := Prod.mk.inj eq
    exact ⟨first, ⟨rfl, rfl⟩, fun f same => by rw [← Option.some.inj same]⟩
  · obtain ⟨rfl, rfl⟩ := Prod.mk.inj eq
    refine ⟨first, second, fun f same => ?_⟩
    split at same
    · exact nomatch same
    · rw [← Option.some.inj same]

namespace Comparison

variable {c : Comparison} {pair pair' : Fresh × Fresh} {failure : Option StatFailure}

theorem mtimeHydration_same (eq : c.mtimeHydration pair = (pair', failure)) :
    SameEntry pair'.1.entry pair.1.entry ∧ SameEntry pair'.2.entry pair.2.entry ∧
      ∀ f, failure = some f → f.rung ≠ .presence := by
  unfold mtimeHydration at eq
  split at eq
  · obtain ⟨left, right, rung⟩ := hydrateRung_same eq
    exact ⟨left, right, fun f same => by rw [rung f same]; exact nofun⟩
  · obtain ⟨rfl, rfl⟩ := Prod.mk.inj eq
    exact ⟨⟨rfl, rfl⟩, ⟨rfl, rfl⟩, nofun⟩

theorem hydrateRungs_same (eq : c.hydrateRungs pair = (pair', failure)) :
    SameEntry pair'.1.entry pair.1.entry ∧ SameEntry pair'.2.entry pair.2.entry ∧
      ∀ f, failure = some f → f.rung ≠ .presence := by
  unfold hydrateRungs at eq
  split at eq
  · split at eq
    · cases sized : hydrateRung c.left c.right .size (·.size.isNone) pair with
      | mk pair₁ failure₁ =>
        obtain ⟨left, right, rung⟩ := hydrateRung_same sized
        rw [sized] at eq
        cases failure₁ with
        | some f =>
          obtain ⟨rfl, rfl⟩ := Prod.mk.inj eq
          exact ⟨left, right, fun f same => by rw [rung f same]; exact nofun⟩
        | none =>
          dsimp only at eq
          split at eq
          · obtain ⟨left', right', rung'⟩ := mtimeHydration_same eq
            exact ⟨left'.trans left, right'.trans right, rung'⟩
          · obtain ⟨rfl, rfl⟩ := Prod.mk.inj eq
            exact ⟨left, right, nofun⟩
    · exact mtimeHydration_same eq
  · obtain ⟨rfl, rfl⟩ := Prod.mk.inj eq
    exact ⟨⟨rfl, rfl⟩, ⟨rfl, rfl⟩, nofun⟩

theorem verdictForPair_verdict {l r : Entry} {d : Decision} (decided : c.verdictForPair l r = .ok d) :
    d.verdict = .same ∨ d.verdict = .different ∨ d.verdict = .typeMismatch := by
  simp only [verdictForPair] at decided
  split at decided
  · obtain rfl := Except.ok.inj decided
    exact Cascade.decide_verdict _ _ _ _
  · cases hashed : c.hashPair l r with
    | error side => simp [hashed, Except.map] at decided
    | ok outcome =>
      simp only [hashed, Except.map, Except.ok.injEq] at decided
      subst decided
      exact Cascade.decide_verdict _ _ _ _

/-- The row of a pair carries both entries and is not about a listing. -/
theorem pairOutcome_spec (c : Comparison) (l r : Entry) :
    ∃ l' r', (c.pairOutcome l r).entry .left = some l' ∧ (c.pairOutcome l r).entry .right = some r' ∧
      SameEntry l' l ∧ SameEntry r' r ∧ (c.pairOutcome l r).listingError = false := by
  unfold pairOutcome
  cases hydrated : c.hydrateRungs (⟨l, false⟩, ⟨r, false⟩) with
  | mk pair failure =>
    obtain ⟨left, right, rung⟩ := hydrateRungs_same hydrated
    cases failure with
    | some f =>
      refine ⟨pair.1.entry, pair.2.entry, rfl, rfl, left, right, ?_⟩
      simp [PendingRow.listingError, PendingRow.criterion, rung f rfl]
    | none =>
      dsimp only
      cases decided : c.verdictForPair pair.1.entry pair.2.entry with
      | ok d =>
        refine ⟨pair.1.entry, pair.2.entry, rfl, rfl, left, right, ?_⟩
        rcases verdictForPair_verdict decided with same | different | mismatch
        · simp [PendingRow.listingError, PendingRow.verdict, same]
        · simp [PendingRow.listingError, PendingRow.verdict, different]
        · simp [PendingRow.listingError, PendingRow.verdict, mismatch]
      | error side => exact ⟨pair.1.entry, pair.2.entry, rfl, rfl, left, right, rfl⟩

end Comparison

/-! The rows of a directory that was listed, by the events of the merge. -/

def Listed.side (listed : Listed) : DescendSide → SideIndex
  | .left => listed.left
  | .right => listed.right

/-- The entry an event of the merge has on a side. -/
def joinedOn : DescendSide → Joined (Bytes × Entry) (Bytes × Entry) → Option (Bytes × Entry)
  | .left, j => j.left?
  | .right, j => j.right?

theorem Listed.joinedOn_unique (listed : Listed) (s : DescendSide) :
    listed.joined.filterMap (joinedOn s) = (listed.side s).unique := by
  cases s
  · exact lefts _ _
  · exact rights _ _

theorem sideOutcome_entry (left right : Option Entry) (why : Option CompareReason) (at_ : Side) (s : DescendSide) :
    (sideOutcome left right why at_).1.entry s = match s with | .left => left | .right => right := by
  cases why <;> cases s <;> rfl

theorem sideOutcome_listingError (left right : Option Entry) (why : Option CompareReason) (at_ : Side) :
    (sideOutcome left right why at_).1.listingError = false := by
  cases why <;> cases left <;> rfl

namespace Comparison

variable {c : Comparison} {listed : Listed} {j : Joined (Bytes × Entry) (Bytes × Entry)} {s : DescendSide}

/-- The row of an event carries the entries of the event, as they are known by then. -/
theorem joinedRow_entry (c : Comparison) (listed : Listed) (j : Joined (Bytes × Entry) (Bytes × Entry)) (s : DescendSide) :
    match joinedOn s j with
    | some x => ∃ e, (c.joinedRow listed j).entry s = some e ∧ SameEntry e x.2
    | none => (c.joinedRow listed j).entry s = none := by
  cases j with
  | left x => cases s <;> simp [joinedOn, Joined.left?, Joined.right?, joinedRow, sideOutcome_entry, SameEntry]
  | right x => cases s <;> simp [joinedOn, Joined.left?, Joined.right?, joinedRow, sideOutcome_entry, SameEntry]
  | both x y =>
    obtain ⟨l', r', left, right, sameL, sameR, _⟩ := c.pairOutcome_spec x.2 y.2
    cases s
    · exact ⟨l', left, sameL⟩
    · exact ⟨r', right, sameR⟩

theorem joinedRow_listingError (c : Comparison) (listed : Listed) (j : Joined (Bytes × Entry) (Bytes × Entry)) :
    (c.joinedRow listed j).listingError = false := by
  cases j with
  | left x => exact sideOutcome_listingError ..
  | right x => exact sideOutcome_listingError ..
  | both x y =>
    obtain ⟨_, _, _, _, _, _, clean⟩ := c.pairOutcome_spec x.2 y.2
    exact clean

theorem collisionRows_listingError {row : PendingRow} (member : row ∈ collisionRows listed) :
    row.listingError = false := by
  rcases List.mem_append.mp member with inside | inside <;>
    · obtain ⟨_, _, rfl⟩ := List.mem_map.mp inside
      rfl

def rowPath (s : DescendSide) (row : PendingRow) : Option VPath := (row.entry s).map (·.path)

theorem joinedRow_path (c : Comparison) (listed : Listed) (j : Joined (Bytes × Entry) (Bytes × Entry)) (s : DescendSide) :
    rowPath s (c.joinedRow listed j) = (joinedOn s j).map (·.2.path) := by
  have known := c.joinedRow_entry listed j s
  unfold rowPath
  cases on : joinedOn s j with
  | none =>
    rw [on] at known
    rw [known]
    rfl
  | some x =>
    rw [on] at known
    obtain ⟨e, found, same⟩ := known
    rw [found, Option.map_some, same.1]
    rfl

theorem collisionRows_path (listed : Listed) (s : DescendSide) :
    (collisionRows listed).filterMap (rowPath s) = (listed.side s).collisions.map (·.1.path) := by
  unfold collisionRows
  rw [List.filterMap_append, List.filterMap_map, List.filterMap_map]
  have nothing (l : List (Entry × CompareReason)) : (l.filterMap fun _ => (none : Option VPath)) = [] := by simp
  cases s with
  | left =>
    refine (congrArg (_ ++ ·) (nothing listed.right.collisions)).trans ((List.append_nil _).trans ?_)
    rw [← List.filterMap_eq_map]
    rfl
  | right =>
    refine (congrArg (· ++ _) (nothing listed.left.collisions)).trans ((List.nil_append _).trans ?_)
    rw [← List.filterMap_eq_map]
    rfl

/-- Every entry of a directory that was listed is in one row of it on its side. -/
theorem emits_paths {lefts rights : List Entry} (left : c.seen .left f = .ok lefts)
    (right : c.seen .right f = .ok rights) (s : DescendSide) :
    ((c.emits f).filterMap (rowPath s)).Perm (((c.index f lefts rights).side s).entries.map (·.path)) := by
  rw [emits_listed left right, List.filterMap_append, collisionRows_path, List.filterMap_map]
  have joined : (c.index f lefts rights).joined.filterMap (rowPath s ∘ c.joinedRow (c.index f lefts rights)) =
      ((c.index f lefts rights).side s).unique.map (·.2.path) := by
    rw [← Listed.joinedOn_unique, List.map_filterMap]
    exact List.filterMap_congr fun j _ => c.joinedRow_path _ j s
  rw [joined]
  have whole := ((c.index f lefts rights).side s).partition.map (·.path)
  rw [List.map_append, List.map_map, List.map_map] at whole
  exact whole

end Comparison

/-! Where the rows and the directories of a frame lie. -/

theorem Listed.mem_joined {listed : Listed} {s : DescendSide} {j : Joined (Bytes × Entry) (Bytes × Entry)}
    {x : Bytes × Entry} (member : j ∈ listed.joined) (on : joinedOn s j = some x) :
    (listed.side s).keyOf x.2 = x.1 ∧ (listed.side s).Alone x.2 := by
  refine SideIndex.mem_unique.mp ?_
  rw [Prod.eta, ← listed.joinedOn_unique s]
  exact List.mem_filterMap.mpr ⟨j, member, on⟩

/-- No two events of a merge name one path on one side. -/
theorem Listed.joined_apart (listed : Listed) (s : DescendSide) :
    listed.joined.Pairwise fun j j' => ∀ x, joinedOn s j = some x → ∀ y, joinedOn s j' = some y →
      x.2.path ≠ y.2.path := by
  have rising := (listed.side s).unique_rising
  rw [Rising, ← listed.joinedOn_unique s, List.pairwise_filterMap] at rising
  refine rising.imp_of_mem fun {j j'} inJ inJ' small x on y on' same => ?_
  have keyX := (Listed.mem_joined inJ on).1
  have keyY := (Listed.mem_joined inJ' on').1
  have keys : x.1 = y.1 := by
    rw [← keyX, ← keyY]
    unfold SideIndex.keyOf pairName
    rw [same]
  have lt := small x on y on'
  rw [keys] at lt
  cases Std.ReflCmp.compare_self.symm.trans lt

namespace Comparison

variable {c : Comparison} {f g h k : Frame} {s : DescendSide}

theorem joinedFrame_dir {listed : Listed} {depth : UInt32} {j : Joined (Bytes × Entry) (Bytes × Entry)}
    (into : c.joinedFrame listed depth j = some g) (there : g.dir s = some e) :
    ∃ key, joinedOn s j = some (key, e) ∧ e.kind = .dir := by
  have orphan {x : Entry} {at_ : Side} (into : c.orphanFrame x at_ depth = some g) :
      x.kind = .dir ∧ (g = ⟨some x, none, satSucc depth⟩ ∧ at_ = .left ∨ g = ⟨none, some x, satSucc depth⟩ ∧ at_ = .right) := by
    unfold orphanFrame at into
    split at into
    · rename_i descends
      simp only [descendsIntoOrphan, Bool.and_eq_true, decide_eq_true_eq] at descends
      refine ⟨descends.1.1, ?_⟩
      cases at_ with
      | left => exact .inl ⟨(Option.some.inj into).symm, rfl⟩
      | right => exact .inr ⟨(Option.some.inj into).symm, rfl⟩
      | unknown => exact nomatch into
    · exact nomatch into
  cases j with
  | left x =>
    simp only [joinedFrame] at into
    split at into
    · obtain ⟨isDir, ⟨rfl, _⟩ | ⟨_, ⟨⟩⟩⟩ := orphan into
      cases s with
      | left =>
        obtain rfl := Option.some.inj there
        exact ⟨x.1, rfl, isDir⟩
      | right => exact nomatch there
    · exact nomatch into
  | right x =>
    simp only [joinedFrame] at into
    split at into
    · obtain ⟨isDir, ⟨_, ⟨⟩⟩ | ⟨rfl, _⟩⟩ := orphan into
      cases s with
      | left => exact nomatch there
      | right =>
        obtain rfl := Option.some.inj there
        exact ⟨x.1, rfl, isDir⟩
    · exact nomatch into
  | both x y =>
    simp only [joinedFrame] at into
    split at into
    · rename_i dirs
      obtain rfl := Option.some.inj into
      cases s with
      | left =>
        obtain rfl := Option.some.inj there
        exact ⟨x.1, rfl, dirs.1⟩
      | right =>
        obtain rfl := Option.some.inj there
        exact ⟨y.1, rfl, dirs.2.1⟩
    · exact nomatch into

/-- A directory that is gone into was seen in the one above. -/
theorem kids_seen (kid : g ∈ c.kids f) : ∃ lefts rights, c.seen .left f = .ok lefts ∧ c.seen .right f = .ok rights ∧
    ∃ j ∈ (c.index f lefts rights).joined, c.joinedFrame (c.index f lefts rights) f.depth j = some g := by
  rcases c.visit_cases f with ⟨lefts, rights, left, right⟩ | ⟨_, none, _⟩
  · rw [kids_listed left right] at kid
    exact ⟨lefts, rights, left, right, List.mem_filterMap.mp kid⟩
  · rw [none] at kid
    exact absurd kid List.not_mem_nil

theorem index_side {lefts rights : List Entry} (left : c.seen .left f = .ok lefts)
    (right : c.seen .right f = .ok rights) (s : DescendSide) :
    c.seen s f = .ok ((c.index f lefts rights).side s).entries := by
  cases s
  · exact left
  · exact right

theorem kids_region (kid : g ∈ c.kids f) (there : g.dir s = some e) :
    ∃ d, f.dir s = some d ∧ Child d.path e.path ∧ e.kind = .dir := by
  obtain ⟨lefts, rights, left, right, j, member, into⟩ := kids_seen kid
  obtain ⟨key, on, isDir⟩ := joinedFrame_dir into there
  obtain ⟨d, dir, child⟩ := seen_child (index_side left right s) (Listed.mem_joined member on).2.mem
  exact ⟨d, dir, child, isDir⟩

theorem reaches_region (path : Reaches c.kids f g) (there : g.dir s = some e) :
    ∃ d, f.dir s = some d ∧ HangsOff d.path e.path := by
  induction path generalizing e with
  | refl => exact ⟨e, there, .refl _⟩
  | tail _ kid ih =>
    obtain ⟨d, dir, child, _⟩ := kids_region kid there
    obtain ⟨top, there', hangs⟩ := ih dir
    exact ⟨top, there', hangs.trans child.hangsOff⟩

theorem emits_clean {lefts rights : List Entry} {row : PendingRow} (left : c.seen .left f = .ok lefts)
    (right : c.seen .right f = .ok rights) (member : row ∈ c.emits f) : row.listingError = false := by
  rw [emits_listed left right] at member
  rcases List.mem_append.mp member with collided | merged
  · exact collisionRows_listingError collided
  · obtain ⟨j, _, rfl⟩ := List.mem_map.mp merged
    exact c.joinedRow_listingError _ j

/-- The rows of a directory that could not be listed are about itself. -/
theorem listingErrors_spec {left right : Except CompareReason (List Entry)} {row : PendingRow}
    (member : row ∈ listingErrors f left right) :
    row.listingError = true ∧ ∃ s, row.entry s = f.dir s ∧ row.entry s.other = none := by
  unfold listingErrors at member
  rcases List.mem_append.mp member with first | second
  · split at first
    · obtain rfl := List.mem_singleton.mp first
      exact ⟨rfl, .left, rfl, rfl⟩
    · exact absurd first List.not_mem_nil
  · split at second
    · obtain rfl := List.mem_singleton.mp second
      exact ⟨rfl, .right, rfl, rfl⟩
    · exact absurd second List.not_mem_nil

/-- The rows of a directory are about its children, or about itself where it was not listed. -/
theorem emits_region {row : PendingRow} (member : row ∈ c.emits f) (there : row.entry s = some e) :
    ∃ d, f.dir s = some d ∧ if row.listingError then e = d else Child d.path e.path := by
  rcases c.visit_cases f with ⟨lefts, rights, left, right⟩ | ⟨rows, _, _⟩
  · have clean := emits_clean left right member
    have named : e.path ∈ (c.emits f).filterMap (rowPath s) :=
      List.mem_filterMap.mpr ⟨row, member, by rw [rowPath, there]; rfl⟩
    obtain ⟨e', inside, same⟩ := List.mem_map.mp ((emits_paths left right s).subset named)
    obtain ⟨d, dir, child⟩ := seen_child (index_side left right s) inside
    exact ⟨d, dir, by rw [clean, ← same]; exact child⟩
  · rw [rows] at member
    obtain ⟨failed, s', own, none⟩ := listingErrors_spec member
    have side : s = s' := by
      by_contra other
      have : s = s'.other := by cases s <;> cases s' <;> first | rfl | exact absurd rfl other
      rw [this, none] at there
      exact nomatch there
    rw [side, own] at there
    exact ⟨e, side ▸ there, by rw [if_pos failed]⟩

/-- Two directories, or pairs of them, that nothing lies in both of. -/
def Apart (f h : Frame) : Prop :=
  ∀ s d d', f.dir s = some d → h.dir s = some d' → ¬HangsOff d.path d'.path ∧ ¬HangsOff d'.path d.path

theorem kids_apart (c : Comparison) (f : Frame) : (c.kids f).Pairwise Apart := by
  rcases c.visit_cases f with ⟨lefts, rights, left, right⟩ | ⟨_, none, _⟩
  · have apartOn (s : DescendSide) : (c.kids f).Pairwise fun g h => ∀ d d', g.dir s = some d → h.dir s = some d' →
        d.path ≠ d'.path := by
      rw [kids_listed left right, List.pairwise_filterMap]
      refine ((c.index f lefts rights).joined_apart s).imp fun {j j'} away g into h into' d d' there there' => ?_
      obtain ⟨key, on, _⟩ := joinedFrame_dir into there
      obtain ⟨key', on', _⟩ := joinedFrame_dir into' there'
      exact away (key, d) on (key', d') on'
    refine ((apartOn .left).and (apartOn .right)).imp_of_mem fun {g h} kid kid' away s d d' there there' => ?_
    obtain ⟨p, dir, child, _⟩ := kids_region kid there
    obtain ⟨p', dir', child', _⟩ := kids_region kid' there'
    obtain rfl := Option.some.inj (dir.symm.trans dir')
    have long := child.length.trans child'.length.symm
    have differ : d.path ≠ d'.path := by
      cases s
      · exact away.1 d d' there there'
      · exact away.2 d d' there there'
    exact ⟨fun hangs => differ (hangs.eq_of_length long), fun hangs => differ (hangs.eq_of_length long.symm).symm⟩
  · rw [none]
    exact .nil

theorem Apart.reaches (apart : Apart f h) (path : Reaches c.kids f g) (path' : Reaches c.kids h k)
    (there : g.dir s = some e) (there' : k.dir s = some e') (p : VPath) : ¬(HangsOff e.path p ∧ HangsOff e'.path p) := by
  rintro ⟨hangs, hangs'⟩
  obtain ⟨d, dir, above⟩ := reaches_region path there
  obtain ⟨d', dir', above'⟩ := reaches_region path' there'
  obtain ⟨no, no'⟩ := apart s d d' dir dir'
  exact ((above.trans hangs).comparable (above'.trans hangs')).elim no no'

theorem emits_hangsOff {row : PendingRow} (member : row ∈ c.emits f) (there : row.entry s = some e) :
    ∃ d, f.dir s = some d ∧ HangsOff d.path e.path := by
  obtain ⟨d, dir, region⟩ := emits_region member there
  split at region
  · exact ⟨d, dir, region ▸ .refl _⟩
  · exact ⟨d, dir, region.hangsOff⟩

end Comparison

end Norte.Compare
