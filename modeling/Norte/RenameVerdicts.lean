import Norte.Moves
import Norte.RenamePlan

/-! What a plan without verdicts says about its pairs: the work is the pairs that are
not null, each with the bytes its source has on disk, and it is a batch of moves whose
targets only its own sources hold. -/
namespace Norte.Rename

open Moves

variable {nameKey : Bytes → NameCaps → Bytes}

/-- An answer of the directory is one of its entries, under the key that was asked. -/
theorem Listing.resolve_one {listing : List Bytes} {caps : NameCaps} {name bytes : Bytes}
    (found : (Listing.index nameKey listing caps).resolve name (nameKey name caps) = .one bytes) :
    bytes ∈ listing ∧ nameKey bytes caps = nameKey name caps := by
  unfold Listing.resolve at found
  split at found
  next exact =>
    obtain rfl := Resolved.one.inj found
    exact ⟨exact, rfl⟩
  next =>
    split at found
    next => cases found
    next only twins =>
      obtain rfl := Resolved.one.inj found
      have member : only ∈ (Listing.index nameKey listing caps).folded (nameKey name caps) := by
        rw [twins]; exact List.mem_singleton_self _
      simpa [Listing.index] using member
    next => cases found

/-- A directory that names no blocker has no entry under the key but what moves. -/
theorem Listing.blocker_none {listing : List Bytes} {caps : NameCaps} {name key : Bytes}
    {vacated : List Bytes}
    (clear : (Listing.index nameKey listing caps).blocker name key vacated = none) {e : Bytes}
    (member : e ∈ listing) (same : nameKey e caps = key) : e ∈ vacated := by
  by_contra stays
  have inside : e ∈ ((Listing.index nameKey listing caps).folded key).filter (· ∉ vacated) := by
    simp [Listing.index, member, same, stays]
  simp only [Listing.blocker] at clear
  split at clear
  · cases clear
  · rw [List.head?_eq_none_iff.mp clear] at inside
    cases inside

/-- The work a pair stands for, unless it is null or names no file. -/
def workOf (nameKey : Bytes → NameCaps → Bytes) (listing : Listing) (caps : NameCaps) (i : Nat)
    (pair : Bytes × Bytes) : Option Work :=
  match listing.resolve pair.1 (nameKey pair.1 caps) with
  | .one onDisk =>
    if onDisk = pair.2 then none
    else some ⟨i, onDisk, pair.2, nameKey pair.1 caps, nameKey pair.2 caps⟩
  | _ => none

/-- A pair that gets no verdict: what it claims, and what it adds. -/
theorem classifyPair_clean {listing : Listing} {caps : NameCaps} {st : Classified} {i : Nat}
    {pair : Bytes × Bytes} (clean : (classifyPair nameKey listing caps st i pair).collisions = []) :
    st.collisions = [] ∧ ∃ onDisk, listing.resolve pair.1 (nameKey pair.1 caps) = .one onDisk ∧
      nameKey pair.1 caps ∉ st.spokenFor ∧
      ((onDisk = pair.2 ∧ classifyPair nameKey listing caps st i pair =
          { st with spokenFor := nameKey pair.1 caps :: st.spokenFor }) ∨
        (onDisk ≠ pair.2 ∧ nameKey pair.2 caps ∉ st.claimedDests ∧
          classifyPair nameKey listing caps st i pair = { st with
            spokenFor := nameKey pair.1 caps :: st.spokenFor
            claimedDests := nameKey pair.2 caps :: st.claimedDests
            vacated := onDisk :: st.vacated
            work := st.work ++
              [⟨i, onDisk, pair.2, nameKey pair.1 caps, nameKey pair.2 caps⟩] })) := by
  obtain ⟨fromName, toName⟩ := pair
  unfold classifyPair at clean ⊢
  cases resolved : listing.resolve fromName (nameKey fromName caps) with
  | absent => simp [resolved, Classified.reject] at clean
  | ambiguous => simp [resolved, Classified.reject] at clean
  | one onDisk =>
    simp only [resolved] at clean ⊢
    by_cases spoken : nameKey fromName caps ∈ st.spokenFor
    · simp [spoken, Classified.reject] at clean
    by_cases null : onDisk = toName
    · simp only [spoken, null, ↓reduceIte] at clean ⊢
      exact ⟨clean, toName, rfl, not_false, .inl ⟨rfl, trivial⟩⟩
    by_cases claimed : nameKey toName caps ∈ st.claimedDests
    · simp [spoken, null, claimed, Classified.reject] at clean
    · simp only [spoken, null, claimed, ↓reduceIte] at clean ⊢
      exact ⟨clean, onDisk, rfl, not_false, .inr ⟨null, not_false, rfl⟩⟩

/-- What the loop keeps as long as it rejects nothing. -/
structure Classified.Sound (nameKey : Bytes → NameCaps → Bytes) (listing : List Bytes)
    (caps : NameCaps) (st : Classified) : Prop where
  onDisk : ∀ w ∈ st.work, w.fromName ∈ listing ∧ nameKey w.fromName caps = w.fromKey ∧
    nameKey w.toName caps = w.toKey
  fromKeys : (st.work.map Work.fromKey).Nodup
  spoken : ∀ w ∈ st.work, w.fromKey ∈ st.spokenFor
  toKeys : (st.work.map Work.toKey).Nodup
  claimed : ∀ w ∈ st.work, w.toKey ∈ st.claimedDests
  vacated : ∀ e ∈ st.vacated, ∃ w ∈ st.work, e = w.fromName

theorem classifyPair_sound {listing : List Bytes} {caps : NameCaps} {st : Classified} {i : Nat}
    {pair : Bytes × Bytes} (sound : st.Sound nameKey listing caps)
    (clean : (classifyPair nameKey (.index nameKey listing caps) caps st i pair).collisions = []) :
    (classifyPair nameKey (.index nameKey listing caps) caps st i pair).Sound nameKey listing caps := by
  obtain ⟨_, onDisk, resolved, unspoken, ⟨_, next⟩ | ⟨_, unclaimed, next⟩⟩ := classifyPair_clean clean
  · rw [next]
    exact ⟨sound.onDisk, sound.fromKeys, fun w member => List.mem_cons_of_mem _ (sound.spoken w member),
      sound.toKeys, sound.claimed, sound.vacated⟩
  · have entry := Listing.resolve_one resolved
    rw [next]
    refine ⟨?_, ?_, ?_, ?_, ?_, ?_⟩
    · intro w member
      rcases List.mem_append.mp member with old | new
      · exact sound.onDisk w old
      · obtain rfl := List.mem_singleton.mp new
        exact ⟨entry.1, entry.2, rfl⟩
    · rw [List.map_append, List.nodup_append]
      refine ⟨sound.fromKeys, List.nodup_singleton _, ?_⟩
      rintro _ old _ new rfl
      obtain ⟨w, member, rfl⟩ := List.mem_map.mp old
      rw [List.map_singleton, List.mem_singleton] at new
      have claim := sound.spoken w member
      rw [new] at claim
      exact unspoken claim
    · intro w member
      rcases List.mem_append.mp member with old | new
      · exact List.mem_cons_of_mem _ (sound.spoken w old)
      · obtain rfl := List.mem_singleton.mp new
        exact List.mem_cons_self
    · rw [List.map_append, List.nodup_append]
      refine ⟨sound.toKeys, List.nodup_singleton _, ?_⟩
      rintro _ old _ new rfl
      obtain ⟨w, member, rfl⟩ := List.mem_map.mp old
      rw [List.map_singleton, List.mem_singleton] at new
      have claim := sound.claimed w member
      rw [new] at claim
      exact unclaimed claim
    · intro w member
      rcases List.mem_append.mp member with old | new
      · exact List.mem_cons_of_mem _ (sound.claimed w old)
      · obtain rfl := List.mem_singleton.mp new
        exact List.mem_cons_self
    · intro e member
      rcases List.mem_cons.mp member with rfl | member
      · exact ⟨_, List.mem_append_right _ (List.mem_singleton_self _), rfl⟩
      · obtain ⟨w, inside, rfl⟩ := sound.vacated e member
        exact ⟨w, List.mem_append_left _ inside, rfl⟩

theorem classifyPairs_collisions {listing : Listing} {caps : NameCaps} (pairs : List (Bytes × Bytes))
    (i : Nat) (st : Classified)
    (clean : (classifyPairs nameKey listing caps i pairs st).collisions = []) :
    st.collisions = [] := by
  induction pairs generalizing i st with
  | nil => exact clean
  | cons pair pairs ih => exact (classifyPair_clean (ih _ _ clean)).1

/-- The loop over the pairs: no verdict at the end means none along the way. -/
theorem classifyPairs_sound {listing : List Bytes} {caps : NameCaps} (pairs : List (Bytes × Bytes))
    (i : Nat) (st : Classified) (sound : st.Sound nameKey listing caps)
    (clean : (classifyPairs nameKey (.index nameKey listing caps) caps i pairs st).collisions = []) :
    (classifyPairs nameKey (.index nameKey listing caps) caps i pairs st).Sound nameKey listing caps ∧
    (classifyPairs nameKey (.index nameKey listing caps) caps i pairs st).work = st.work ++
      (pairs.zipIdx i).filterMap fun p => workOf nameKey (.index nameKey listing caps) caps p.2 p.1 := by
  induction pairs generalizing i st with
  | nil => exact ⟨sound, (List.append_nil _).symm⟩
  | cons pair pairs ih =>
    rw [classifyPairs] at clean ⊢
    have head := classifyPairs_collisions pairs _ _ clean
    obtain ⟨rest, work⟩ := ih (i + 1) _ (classifyPair_sound sound head) clean
    obtain ⟨_, onDisk, resolved, _, same⟩ := classifyPair_clean head
    refine ⟨rest, ?_⟩
    rw [work, List.zipIdx_cons, List.filterMap_cons]
    rcases same with ⟨null, next⟩ | ⟨real, _, next⟩
    · simp [next, workOf, resolved, null]
    · simp [next, workOf, resolved, real]

/-- The pairs that are real work, in order. -/
def realWork (nameKey : Bytes → NameCaps → Bytes) (pairs : List (Bytes × Bytes))
    (listing : List Bytes) (caps : NameCaps) : List Work :=
  pairs.zipIdx.filterMap fun p => workOf nameKey (.index nameKey listing caps) caps p.2 p.1

/-- What a list of work has to satisfy to be ordered. -/
structure Orderly (nameKey : Bytes → NameCaps → Bytes) (listing : List Bytes) (caps : NameCaps)
    (work : List Work) : Prop where
  onDisk : ∀ w ∈ work, w.fromName ∈ listing ∧ nameKey w.fromName caps = w.fromKey ∧
    nameKey w.toName caps = w.toKey
  fromKeys : (work.map Work.fromKey).Nodup
  toKeys : (work.map Work.toKey).Nodup
  unblocked : ∀ w ∈ work, ∀ e ∈ listing, nameKey e caps = w.toKey → ∃ v ∈ work, e = v.fromName

theorem classify_orderly {pairs : List (Bytes × Bytes)} {listing : List Bytes} {caps : NameCaps}
    (clean : (classify nameKey pairs (.index nameKey listing caps) caps).2 = []) :
    (classify nameKey pairs (.index nameKey listing caps) caps).1 = realWork nameKey pairs listing caps ∧
    Orderly nameKey listing caps (realWork nameKey pairs listing caps) := by
  simp only [classify] at clean ⊢
  generalize found : classifyPairs nameKey (.index nameKey listing caps) caps 0 pairs
    ⟨[], [], [], [], []⟩ = st at clean ⊢
  have perm := List.perm_insertionSort (fun a b : Collision => a.pairIndex ≤ b.pairIndex)
    (st.collisions ++ st.work.filterMap (blocked (.index nameKey listing caps) st.vacated))
  rw [clean] at perm
  obtain ⟨early, late⟩ := List.append_eq_nil_iff.mp perm.nil_eq.symm
  have start : Classified.Sound nameKey listing caps ⟨[], [], [], [], []⟩ := by
    constructor <;> simp
  obtain ⟨sound, work⟩ := classifyPairs_sound pairs 0 _ start (by rw [found]; exact early)
  rw [found] at sound work
  have same : st.work = realWork nameKey pairs listing caps := by rw [work]; rfl
  refine ⟨same, ?_⟩
  rw [← same]
  refine ⟨sound.onDisk, sound.fromKeys, sound.toKeys, ?_⟩
  intro w member e entry key
  have quiet := List.filterMap_eq_nil_iff.mp late w member
  exact sound.vacated e (Listing.blocker_none (Option.map_eq_none_iff.mp quiet) entry key)

theorem mem_realWork {pairs : List (Bytes × Bytes)} {listing : List Bytes} {caps : NameCaps}
    {w : Work} : w ∈ realWork nameKey pairs listing caps ↔ ∃ i pair, pairs[i]? = some pair ∧
      (Listing.index nameKey listing caps).resolve pair.1 (nameKey pair.1 caps) = .one w.fromName ∧
      w.fromName ≠ pair.2 ∧
      w = ⟨i, w.fromName, pair.2, nameKey pair.1 caps, nameKey pair.2 caps⟩ := by
  simp only [realWork, List.mem_filterMap, List.mem_zipIdx_iff_getElem?]
  constructor
  · rintro ⟨⟨pair, i⟩, at_i, made⟩
    refine ⟨i, pair, at_i, ?_⟩
    unfold workOf at made
    split at made
    next onDisk resolved =>
      split at made
      next => cases made
      next real =>
        obtain rfl := Option.some.inj made
        exact ⟨resolved, real, rfl⟩
    next => cases made
  · rintro ⟨i, pair, at_i, resolved, real, same⟩
    refine ⟨⟨pair, i⟩, at_i, ?_⟩
    simp only [workOf, resolved, if_neg real]
    rw [← same]

end Norte.Rename
