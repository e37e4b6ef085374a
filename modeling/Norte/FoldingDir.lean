import Mathlib.Data.Multiset.MapFold
import Norte.Moves

/-! A directory that looks names up by key, as one that folds case does: a name finds
the entry that shares its key, whatever its spelling. Entries have keys of their own,
so the multiset of keys is a ledger that every rename balances. -/
namespace Norte.Moves

variable {N K : Type*} [DecidableEq N] [DecidableEq K] {key : N → K}

def Distinct (key : N → K) (dir : Finset N) : Prop := Set.InjOn key dir

instance (key : N → K) (dir : Finset N) : Decidable (Distinct key dir) :=
  decidable_of_iff (∀ a ∈ dir, ∀ b ∈ dir, key a = key b → a = b)
    ⟨fun apart a inA b inB => apart a inA b inB, fun apart _ inA _ inB => apart inA inB⟩

def Holds (key : N → K) (dir : Finset N) (name : N) : Prop := ∃ e ∈ dir, key e = key name

instance (key : N → K) (dir : Finset N) (name : N) : Decidable (Holds key dir name) :=
  inferInstanceAs (Decidable (∃ e ∈ dir, key e = key name))

/-- The source is found, and its target is free or finds the very same entry. -/
def Permitted (key : N → K) (dir : Finset N) (m : Move N) : Prop :=
  Holds key dir m.source ∧ (key m.source = key m.target ∨ ¬Holds key dir m.target)

instance (key : N → K) (dir : Finset N) (m : Move N) : Decidable (Permitted key dir m) :=
  inferInstanceAs (Decidable (_ ∧ _))

/-- The entry found under the source gets the spelling of the target. -/
def respell (key : N → K) (dir : Finset N) (m : Move N) : Finset N :=
  insert m.target (dir.filter fun e => key e ≠ key m.source)

@[simp] theorem holds_respell_target {dir : Finset N} {m : Move N} :
    Holds key (respell key dir m) m.target :=
  ⟨m.target, Finset.mem_insert_self .., rfl⟩

/-- After a rename the old name finds nothing, or the renamed entry itself. -/
@[simp] theorem holds_respell_source {dir : Finset N} {m : Move N} :
    Holds key (respell key dir m) m.source ↔ key m.source = key m.target := by
  constructor
  · rintro ⟨e, member, found⟩
    rcases Finset.mem_insert.mp member with rfl | member
    · exact found.symm
    · exact absurd found (Finset.mem_filter.mp member).2
  · exact fun same => ⟨m.target, Finset.mem_insert_self .., same.symm⟩

def keysOf (key : N → K) (dir : Finset N) : Multiset K := dir.val.map key

omit [DecidableEq N] [DecidableEq K] in
theorem mem_keysOf {dir : Finset N} {name : N} : key name ∈ keysOf key dir ↔ Holds key dir name :=
  Multiset.mem_map

theorem filter_eq_erase {dir : Finset N} (distinct : Distinct key dir) {e name : N} (member : e ∈ dir)
    (found : key e = key name) : (dir.filter fun x => key x ≠ key name) = dir.erase e := by
  ext x
  simp only [Finset.mem_filter, Finset.mem_erase]
  constructor
  · rintro ⟨inside, other⟩
    exact ⟨fun same => other (same ▸ found), inside⟩
  · rintro ⟨other, inside⟩
    exact ⟨inside, fun same => other (distinct inside member (same.trans found.symm))⟩

omit [DecidableEq K] in
theorem Clear.permitted {dir : Finset N} {m : Move N} (clear : Clear key dir m) :
    Permitted key dir m := by
  refine ⟨⟨m.source, clear.1, rfl⟩, ?_⟩
  by_cases same : key m.source = key m.target
  · exact .inl same
  · refine .inr fun ⟨e, member, found⟩ => ?_
    by_cases own : e = m.source
    · exact same (own ▸ found)
    · exact clear.2 e member own found

theorem Clear.respell {dir : Finset N} (distinct : Distinct key dir) {m : Move N}
    (clear : Clear key dir m) : respell key dir m = move dir m := by
  rw [Moves.respell, filter_eq_erase distinct clear.1 rfl, move]

/-- The entry a permitted rename takes away, and the target it leaves absent before it. -/
theorem Permitted.entry {dir : Finset N} (distinct : Distinct key dir) {m : Move N}
    (permitted : Permitted key dir m) : ∃ e ∈ dir, key e = key m.source ∧
      respell key dir m = insert m.target (dir.erase e) ∧ m.target ∉ dir.erase e := by
  obtain ⟨⟨e, member, found⟩, free⟩ := permitted
  refine ⟨e, member, found, by rw [respell, filter_eq_erase distinct member found], ?_⟩
  intro inside
  obtain ⟨other, inside⟩ := Finset.mem_erase.mp inside
  rcases free with same | free
  · exact other (distinct inside member (same.symm.trans found.symm))
  · exact free ⟨_, inside, rfl⟩

theorem Permitted.distinct {dir : Finset N} (distinct : Distinct key dir) {m : Move N}
    (permitted : Permitted key dir m) : Distinct key (respell key dir m) := by
  have apart (e : N) (inside : e ∈ dir.filter fun e => key e ≠ key m.source) :
      key e ≠ key m.target := by
    obtain ⟨member, other⟩ := Finset.mem_filter.mp inside
    rcases permitted.2 with same | free
    · rwa [← same]
    · exact fun held => free ⟨e, member, held⟩
  intro a inA c inC same
  rcases Finset.mem_insert.mp inA with rfl | inA <;> rcases Finset.mem_insert.mp inC with rfl | inC
  · rfl
  · exact absurd same.symm (apart c inC)
  · exact absurd same (apart a inA)
  · exact distinct (Finset.mem_filter.mp inA).1 (Finset.mem_filter.mp inC).1 same

/-- The ledger: a rename pays the key of its target for the key of its source. -/
theorem Permitted.ledger {dir : Finset N} (distinct : Distinct key dir) {m : Move N}
    (permitted : Permitted key dir m) :
    key m.source ::ₘ keysOf key (respell key dir m) = key m.target ::ₘ keysOf key dir := by
  obtain ⟨e, member, found, same, absent⟩ := permitted.entry distinct
  have split : keysOf key dir = key e ::ₘ keysOf key (dir.erase e) := by
    rw [keysOf, keysOf, Finset.erase_val, ← Multiset.map_cons, Multiset.cons_erase member]
  rw [same, keysOf, Finset.insert_val_of_notMem absent, Multiset.map_cons, split, found,
    Multiset.cons_swap]
  rfl

/-- Taking a move back where the old name has to be free: the rollback's guard. -/
def takeBack (key : N → K) (dir : Finset N) (m : Move N) : Option (Finset N) :=
  if ¬Holds key dir m.source ∧ Holds key dir m.target then some (respell key dir m.inverse)
  else none

/-- Taking moves back, newest first. -/
def takeAllBack (key : N → K) : List (Move N) → Finset N → Option (Finset N)
  | [], dir => some dir
  | m :: moves, dir => (takeBack key dir m).bind (takeAllBack key moves)

theorem takeBack_permitted {dir back : Finset N} {m : Move N}
    (taken : takeBack key dir m = some back) :
    Permitted key dir m.inverse ∧ back = respell key dir m.inverse := by
  unfold takeBack at taken
  split at taken
  next guard => exact ⟨⟨guard.2, .inr guard.1⟩, (Option.some.inj taken).symm⟩
  next => cases taken

theorem Clear.distinct {dir : Finset N} (distinct : Distinct key dir) {m : Move N}
    (clear : Clear key dir m) : Distinct key (move dir m) := by
  rw [← clear.respell distinct]
  exact clear.permitted.distinct distinct

/-- A clear move that changes the key is taken back. -/
theorem Clear.takeBack {dir : Finset N} (distinct : Distinct key dir) {m : Move N}
    (clear : Clear key dir m) (changed : key m.source ≠ key m.target) :
    takeBack key (move dir m) m = some dir := by
  have free : ¬Holds key (move dir m) m.source := by
    rintro ⟨e, member, found⟩
    rcases mem_move.mp member with rfl | ⟨other, member⟩
    · exact changed found.symm
    · exact other (distinct member clear.1 found)
  have there : Holds key (move dir m) m.target := ⟨m.target, mem_move.mpr (.inl rfl), rfl⟩
  have erased : Moves.respell key (move dir m) m.inverse = move (move dir m) m.inverse :=
    congrArg (insert m.source) (filter_eq_erase (clear.distinct distinct) (mem_move.mpr (.inl rfl)) rfl)
  rw [Moves.takeBack, if_pos ⟨free, there⟩, erased, move_inverse clear]

/-- Splitting off the last move of a run. -/
theorem run_concat {dir final : Finset N} {moves : List (Move N)} {m : Move N}
    (ran : run key dir (moves ++ [m]) = some final) :
    ∃ mid, run key dir moves = some mid ∧ Clear key mid m ∧ final = move mid m := by
  rw [run_append] at ran
  obtain ⟨mid, first, last⟩ := Option.bind_eq_some_iff.mp ran
  rw [run] at last
  split at last
  next clear => exact ⟨mid, first, clear, (Option.some.inj last).symm⟩
  next => cases last

/-- A run is clear at each of its moves. -/
theorem run_clear {dir final mid : Finset N} {before after : List (Move N)} {m : Move N}
    (ran : run key dir (before ++ m :: after) = some final) (reached : run key dir before = some mid) :
    Clear key mid m := by
  rw [run_append_of_eq reached, run] at ran
  split at ran
  next clear => exact clear
  next => cases ran

theorem run_distinct {moves : List (Move N)} {dir final : Finset N} (distinct : Distinct key dir)
    (ran : run key dir moves = some final) : Distinct key final := by
  induction moves using List.reverseRecOn generalizing final with
  | nil => obtain rfl := Option.some.inj ran; exact distinct
  | append_singleton moves m ih =>
    obtain ⟨mid, first, clear, rfl⟩ := run_concat ran
    exact clear.distinct (ih first)

/-- A run of clear moves, each of which changes the key, is taken back whole. -/
theorem run_takeAllBack {moves : List (Move N)} {dir final : Finset N} (distinct : Distinct key dir)
    (ran : run key dir moves = some final) (changed : ∀ m ∈ moves, key m.source ≠ key m.target) :
    takeAllBack key moves.reverse final = some dir := by
  induction moves using List.reverseRecOn generalizing final with
  | nil => exact congrArg some (Option.some.inj ran).symm
  | append_singleton moves m ih =>
    obtain ⟨mid, first, clear, rfl⟩ := run_concat ran
    rw [List.reverse_append, List.reverse_singleton, List.singleton_append, takeAllBack,
      clear.takeBack (run_distinct distinct first) (changed m (by simp))]
    exact ih first fun m member => changed m (List.mem_append_left _ member)

/-- Whatever the rollback starts from, its ledger and that of the run it takes back stay
apart by the same amount. -/
theorem takeAllBack_ledger {moves : List (Move N)} {dir final other back : Finset N} {owed due : K}
    (distinct : Distinct key dir) (distinctOther : Distinct key other)
    (ran : run key dir moves = some final)
    (apart : owed ::ₘ keysOf key other = due ::ₘ keysOf key final)
    (taken : takeAllBack key moves.reverse other = some back) :
    owed ::ₘ keysOf key back = due ::ₘ keysOf key dir := by
  induction moves using List.reverseRecOn generalizing final other with
  | nil =>
    obtain rfl := Option.some.inj ran
    obtain rfl := Option.some.inj taken
    exact apart
  | append_singleton moves m ih =>
    obtain ⟨mid, first, clear, rfl⟩ := run_concat ran
    rw [List.reverse_append, List.reverse_singleton, List.singleton_append, takeAllBack] at taken
    obtain ⟨next, back, rest⟩ := Option.bind_eq_some_iff.mp taken
    obtain ⟨permitted, rfl⟩ := takeBack_permitted back
    have forward := clear.permitted.ledger (run_distinct distinct first)
    rw [clear.respell (run_distinct distinct first)] at forward
    have backward := permitted.ledger distinctOther
    refine ih (permitted.distinct distinctOther) first ?_ rest
    -- both ledgers move by the same two keys
    apply Multiset.cons_inj_right (key m.target) |>.mp
    calc key m.target ::ₘ owed ::ₘ keysOf key (respell key other m.inverse)
        = owed ::ₘ key m.source ::ₘ keysOf key other := by
          rw [Multiset.cons_swap]
          exact congrArg _ backward
      _ = due ::ₘ key m.source ::ₘ keysOf key (move mid m) := by
          rw [Multiset.cons_swap, apart, Multiset.cons_swap]
      _ = key m.target ::ₘ due ::ₘ keysOf key mid := by
          rw [forward, Multiset.cons_swap]

/-- A rollback over a move that only respells its entry gets stuck there: the entry
itself holds the old name. -/
theorem takeAllBack_respelled {moves : List (Move N)} {dir final other : Finset N}
    (distinct : Distinct key dir) (distinctOther : Distinct key other)
    (ran : run key dir moves = some final) (same : keysOf key other = keysOf key final)
    {m : Move N} (member : m ∈ moves) (respelled : key m.source = key m.target) :
    takeAllBack key moves.reverse other = none := by
  induction moves using List.reverseRecOn generalizing final other with
  | nil => cases member
  | append_singleton moves last ih =>
    obtain ⟨mid, first, clear, rfl⟩ := run_concat ran
    rw [List.reverse_append, List.reverse_singleton, List.singleton_append, takeAllBack]
    cases back : takeBack key other last with
    | none => rfl
    | some next =>
      obtain ⟨permitted, rfl⟩ := takeBack_permitted back
      rcases List.mem_append.mp member with early | here
      · have once : run key mid [last] = some (move mid last) := run_cons clear []
        have taken : takeAllBack key [last].reverse other = some (respell key other last.inverse) := by
          simp [takeAllBack, back]
        have ledger := takeAllBack_ledger (run_distinct distinct first) distinctOther once
          (congrArg (key last.source ::ₘ ·) same) taken
        exact ih (permitted.distinct distinctOther) first
          (Multiset.cons_inj_right _ |>.mp ledger) early
      · obtain rfl := List.mem_singleton.mp here
        have held : Holds key other m.target := by
          rw [← mem_keysOf, same, mem_keysOf]
          exact ⟨m.target, mem_move.mpr (.inl rfl), rfl⟩
        have free : ¬Holds key other m.source := by
          unfold takeBack at back
          split at back
          next guard => exact guard.1
          next => cases back
        exact absurd (respelled ▸ held : ∃ e ∈ other, key e = key m.source) free

/-- A name that is no source of the moves taken back does not come back with them. -/
theorem takeAllBack_absent {moves : List (Move N)} {dir back : Finset N} {name : N}
    (absent : name ∉ dir) (foreign : ∀ m ∈ moves, m.source ≠ name)
    (taken : takeAllBack key moves dir = some back) : name ∉ back := by
  induction moves generalizing dir with
  | nil => obtain rfl := Option.some.inj taken; exact absent
  | cons m moves ih =>
    obtain ⟨mid, first, rest⟩ := Option.bind_eq_some_iff.mp taken
    obtain ⟨_, rfl⟩ := takeBack_permitted first
    refine ih ?_ (fun m member => foreign m (List.mem_cons_of_mem _ member)) rest
    intro member
    rcases Finset.mem_insert.mp member with rfl | member
    · exact foreign m List.mem_cons_self rfl
    · exact absent (Finset.mem_filter.mp member).1

theorem takeAllBack_eq_some_iff {moves : List (Move N)} {dir final : Finset N}
    (distinct : Distinct key dir) (ran : run key dir moves = some final) :
    takeAllBack key moves.reverse final = some dir ↔ ∀ m ∈ moves, key m.source ≠ key m.target := by
  constructor
  · intro taken m member respelled
    have stuck := takeAllBack_respelled distinct (run_distinct distinct ran) ran rfl member respelled
    rw [stuck] at taken
    cases taken
  · exact run_takeAllBack distinct ran

/-- A name that no move made was there from the start and no move took it. -/
theorem run_untouched {moves : List (Move N)} {dir final : Finset N} {name : N}
    (ran : run key dir moves = some final) (member : name ∈ final)
    (foreign : ∀ m ∈ moves, m.target ≠ name) : name ∈ dir ∧ ∀ m ∈ moves, m.source ≠ name := by
  induction moves using List.reverseRecOn generalizing final with
  | nil => exact ⟨Option.some.inj ran ▸ member, by simp⟩
  | append_singleton moves last ih =>
    obtain ⟨mid, first, _, rfl⟩ := run_concat ran
    rcases mem_move.mp member with own | ⟨other, early⟩
    · exact absurd own.symm (foreign last (by simp))
    obtain ⟨start, untaken⟩ := ih first early fun m inside => foreign m (List.mem_append_left _ inside)
    refine ⟨start, fun m inside => ?_⟩
    rcases List.mem_append.mp inside with inside | here
    · exact untaken m inside
    · rw [List.mem_singleton.mp here]
      exact fun same => other same.symm

/-- A rollback that does not know of the last move does not restore the directory. -/
theorem takeAllBack_forgotten {moves : List (Move N)} {m : Move N} {dir final : Finset N}
    (distinct : Distinct key dir) (ran : run key dir (moves ++ [m]) = some final)
    (real : m.source ≠ m.target)
    (foreign : key m.source = key m.target → ∀ other ∈ moves, other.target ≠ m.source) :
    takeAllBack key moves.reverse final ≠ some dir := by
  obtain ⟨mid, first, clear, rfl⟩ := run_concat ran
  have distinctMid := run_distinct distinct first
  intro taken
  by_cases respelled : key m.source = key m.target
  · -- the old spelling is gone, and no move taken back brings it
    obtain ⟨start, untaken⟩ := run_untouched first clear.1 (foreign respelled)
    have gone : m.source ∉ move mid m := by simp [real]
    exact takeAllBack_absent gone (fun other inside => untaken other (List.mem_reverse.mp inside)) taken
      start
  · -- the ledger is off by the two keys of the move
    have ledger := clear.permitted.ledger distinctMid
    rw [clear.respell distinctMid] at ledger
    have off := takeAllBack_ledger distinct (clear.distinct distinctMid) first ledger taken
    exact respelled ((Multiset.cons_inj_left _).mp off)

end Norte.Moves
