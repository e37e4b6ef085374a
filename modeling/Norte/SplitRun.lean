import Mathlib.Data.List.TakeDrop
import Norte.SplitPieces

/-! A split as the calls it makes, in their order: what a run leaves is told by the first of
them that fails. -/
namespace Norte.FileSplit

/-! ### The calls in their order -/

/-- A call of a split, by the chunk and the piece it is made for. -/
inductive Op where
  | pin
  | stat
  | read
  | cancelled (chunk : Nat)
  | chunk (chunk : Nat)
  | opening (n : Nat)
  | write (chunk n : Nat)
  | commit (n : Nat)
  | row (n : Nat)
  deriving DecidableEq

def Faults.error (f : Faults) : Op → Option Error
  | .pin => f.pin
  | .stat => f.stat
  | .read => f.read
  | .cancelled i => if f.cancelled i then some .cancelled else none
  | .chunk i => f.broken i
  | .opening n => f.opening n
  | .write i n => f.write i n
  | .commit n => (f.commit n).map Prod.fst
  | .row n => f.row n

/-- The calls that a chunk of `rest` bytes is written with, `w` bytes after the start. -/
def cuts (part : Nat) (i w rest : Nat) : List Op :=
  if 0 < part ∧ 0 < rest then
    let cut := min (part - w % part) rest
    (if w % part = 0 then [.opening (w / part + 1)] else []) ++ [.write i (w / part + 1)] ++
      (if (w + cut) % part = 0 then [.commit (w / part + 1), .row (w / part + 1)] else []) ++
      cuts part i (w + cut) (rest - cut)
  else []
termination_by rest
decreasing_by
  have := Nat.mod_lt w ‹0 < part ∧ 0 < rest›.1
  omega

/-- The calls of the loops and of the last close. -/
def chunkOps (part : Nat) : Nat → Nat → List Bytes → List Op
  | _, w, [] => if w % part = 0 then [] else [.commit (w / part + 1), .row (w / part + 1)]
  | i, w, chunk :: chunks =>
    [.cancelled i, .chunk i] ++ cuts part i w chunk.length ++ chunkOps part (i + 1) (w + chunk.length) chunks

/-- The calls of a split in which nothing fails. -/
def schedule (part : Nat) (chunks : List Bytes) : List Op := [.pin, .stat, .read] ++ chunkOps part 0 0 chunks

/-- The call a run fails at. -/
def Faults.first (f : Faults) (ops : List Op) : Option Op := ops.find? fun op => (f.error op).isSome

/-! ### The pieces -/

variable {part : Nat} {base : Segment} {content : Bytes} {d : Dir} {f : Faults}

/-- What piece `k + 1` holds. -/
def slice (part : Nat) (content : Bytes) (k : Nat) : Bytes := (content.drop (k * part)).take part

def slices (part : Nat) (content : Bytes) (n : Nat) : List Bytes := (List.range n).map (slice part content)

def names (base : Segment) (n : Nat) : List Segment := (List.range n).map fun i => piece base (i + 1)

/-- The directory with the first pieces in it. -/
def placed (d : Dir) (base : Segment) (part : Nat) (content : Bytes) : Nat → Dir
  | 0 => d
  | n + 1 => (placed d base part content n).put (piece base (n + 1)) (slice part content n)

theorem slices_succ (n : Nat) : slices part content (n + 1) = slices part content n ++ [slice part content n] := by
  simp [slices, List.range_succ]

theorem names_succ (n : Nat) : names base (n + 1) = names base n ++ [piece base (n + 1)] := by
  simp [names, List.range_succ]

theorem flatten_slices (n : Nat) : (slices part content n).flatten = content.take (n * part) := by
  induction n with
  | zero => simp [slices]
  | succ n ih => rw [slices_succ, List.flatten_append, ih, List.flatten_singleton, slice, Nat.succ_mul, List.take_add]

/-! ### What a run leaves -/

/-- The open piece, `w` bytes after the start. -/
def openAt (base : Segment) (content : Bytes) (positive : 0 < part) (w : Nat) : OpenPiece part :=
  ⟨piece base (w / part + 1), (content.drop (w / part * part)).take (w % part),
    lt_of_le_of_lt (List.length_take_le _ _) (Nat.mod_lt w positive)⟩

/-- Between two cuts, `w` bytes after the start. -/
def stateAt (d : Dir) (base : Segment) (content : Bytes) (positive : 0 < part) (w : Nat) : Splitting part where
  dir := placed d base part content (w / part)
  sink := if w % part = 0 then none else some (openAt base content positive w)
  done := w / part
  published := names base (w / part)

/-- A failed call that leaves its piece where no undo looks for it. -/
def Faults.leaves (f : Faults) : Op → Bool
  | .row _ => true
  | .commit n => (f.commit n).any Prod.snd
  | _ => false

/-- An error of an opening goes past the undo. -/
def Op.undone : Op → Bool
  | .opening _ => false
  | _ => true

/-- The piece a call is for. -/
def Op.piece? : Op → Option Nat
  | .opening n | .commit n | .row n => some n
  | _ => none

/-- The exit at a failed call, with `k` pieces in the list. -/
def exitAt (f : Faults) (d : Dir) (base : Segment) (part : Nat) (content : Bytes) (op : Op) (e : Error) (k : Nat) : Exit where
  error := e
  undo := op.undone
  dir := placed d base part content (if f.leaves op then k + 1 else k)
  published := names base k

/-- Calls that were made up to the first that fails. -/
def Made {α : Type} (f : Faults) (d : Dir) (base : Segment) (part : Nat) (content : Bytes) (ops : List Op)
    (result : Except Exit α) (good : α) : Prop :=
  (f.first ops = none ∧ result = .ok good) ∨
    ∃ op e k, f.first ops = some op ∧ f.error op = some e ∧ (∀ n, op.piece? = some n → n = k + 1 ∧ n ≤ FILE_SPLIT_MAX_PARTS) ∧
      result = .error (exitAt f d base part content op e k)

theorem Made.nil {α : Type} {result : Except Exit α} {good : α} (done : result = .ok good) :
    Made f d base part content [] result good := .inl ⟨rfl, done⟩

theorem Made.andThen {α β : Type} {ops ops' : List Op} {result : Except Exit α} {good : α} {whole : Except Exit β}
    {good' : β} (first : Made f d base part content ops result good)
    (stops : ∀ exit, result = .error exit → whole = .error exit)
    (goes : result = .ok good → Made f d base part content ops' whole good') :
    Made f d base part content (ops ++ ops') whole good' := by
  have append : f.first (ops ++ ops') = (f.first ops).or (f.first ops') := List.find?_append
  rcases first with ⟨quiet, passed⟩ | ⟨op, e, k, failed, error, its, stopped⟩
  · have same : f.first (ops ++ ops') = f.first ops' := by rw [append, quiet, Option.none_or]
    rw [Made, same]
    exact goes passed
  · refine .inr ⟨op, e, k, ?_, error, its, stops _ stopped⟩
    rw [append, failed, Option.some_or]

/-- A call first: the run fails with its exit, or goes on. -/
theorem Made.call {α : Type} {op : Op} {ops : List Op} {k : Nat} {good : α} {result : Except Exit α}
    (its : ∀ n, op.piece? = some n → n = k + 1 ∧ n ≤ FILE_SPLIT_MAX_PARTS)
    (fails : ∀ e, f.error op = some e → result = .error (exitAt f d base part content op e k))
    (goes : f.error op = none → Made f d base part content ops result good) :
    Made f d base part content (op :: ops) result good := by
  cases failed : f.error op with
  | none =>
    have same : f.first (op :: ops) = f.first ops := by simp [Faults.first, failed]
    rw [Made, same]
    exact goes failed
  | some e => exact .inr ⟨op, e, k, by simp [Faults.first, failed], failed, its, fails e failed⟩

/-! ### The loops -/

theorem room_after {w cut : Nat} (room : w % part + cut < part) :
    (w + cut) / part = w / part ∧ (w + cut) % part = w % part + cut := by
  have positive : 0 < part := Nat.zero_lt_of_lt room
  have sum : w + cut = part * (w / part) + (w % part + cut) := by
    rw [← Nat.add_assoc, Nat.div_add_mod]
  rw [sum, Nat.mul_add_div positive, Nat.mul_add_mod, Nat.div_eq_of_lt room, Nat.mod_eq_of_lt room]
  exact ⟨rfl, rfl⟩

theorem full_after {w cut : Nat} (positive : 0 < part) (full : w % part + cut = part) :
    (w + cut) / part = w / part + 1 ∧ (w + cut) % part = 0 := by
  have sum : w + cut = part * (w / part + 1) := by
    rw [Nat.mul_succ, ← full, ← Nat.add_assoc, full, Nat.div_add_mod]
  rw [sum, Nat.mul_div_cancel_left _ positive, Nat.mul_mod_right]
  exact ⟨rfl, rfl⟩

theorem openPiece_made (positive : 0 < part) {w : Nat} (few : w / part < FILE_SPLIT_MAX_PARTS) :
    Made f d base part content (if w % part = 0 then [.opening (w / part + 1)] else [])
      (openPiece f base positive (stateAt d base content positive w)) (openAt base content positive w) := by
  by_cases start : w % part = 0
  · rw [if_pos start]
    refine Made.call (k := w / part) (by simpa [Op.piece?] using Nat.succ_le_of_lt few) (fun e failed => ?_) fun passed => .nil ?_
    · simp only [Faults.error] at failed
      simp [openPiece, stateAt, start, Nat.not_le.mpr few, new_pieceName, failed, exitAt, Splitting.question,
        Op.undone, Faults.leaves]
    · simp only [Faults.error] at passed
      simp [openPiece, stateAt, start, Nat.not_le.mpr few, new_pieceName, passed, openAt]
  · rw [if_neg start]
    exact .nil (by simp [openPiece, stateAt, start])

theorem closePiece_made {s : Splitting part} {k : Nat} (few : k < FILE_SPLIT_MAX_PARTS) (dir : s.dir = placed d base part content k) (done : s.done = k)
    (published : s.published = names base k) :
    Made f d base part content [.commit (k + 1), .row (k + 1)]
      (closePiece f s (piece base (k + 1)) (slice part content k))
      ⟨placed d base part content (k + 1), none, k + 1, names base (k + 1)⟩ := by
  refine Made.call (k := k) (by simpa [Op.piece?] using Nat.succ_le_of_lt few) (fun e failed => ?_) fun committed => ?_
  · simp only [Faults.error, Option.map_eq_some_iff] at failed
    obtain ⟨⟨e, effect⟩, failed, rfl⟩ := failed
    cases effect <;>
      simp [closePiece, done, failed, exitAt, Splitting.undoWith, dir, published, placed, Op.undone, Faults.leaves]
  simp only [Faults.error, Option.map_eq_none_iff] at committed
  refine Made.call (k := k) (by simpa [Op.piece?] using Nat.succ_le_of_lt few) (fun e failed => ?_) fun passed => .nil ?_
  · simp only [Faults.error] at failed
    simp [closePiece, done, committed, failed, exitAt, Splitting.undoWith, dir, published, placed, Op.undone,
      Faults.leaves]
  · simp only [Faults.error] at passed
    simp [closePiece, done, committed, passed, dir, published, placed, names_succ]

/-- What the open piece holds once more of the content is written to it. -/
theorem openAt_take (base : Segment) (positive : 0 < part) {w cut : Nat} {rest : Bytes} (next : rest <+: content.drop w)
    (short : cut ≤ rest.length) :
    (openAt base content positive w).content ++ rest.take cut =
      (content.drop (w / part * part)).take (w % part + cut) := by
  have upto : rest.take cut = (content.drop w).take cut := by
    rw [List.prefix_iff_eq_take.mp next, List.take_take, min_eq_left short]
  have position : w / part * part + w % part = w := by rw [Nat.mul_comm, Nat.div_add_mod]
  rw [List.take_add, List.drop_drop, position, upto]
  rfl

theorem length_openAt (base : Segment) (positive : 0 < part) {w : Nat} (inside : w ≤ content.length) :
    (openAt base content positive w).content.length = w % part := by
  have position := Nat.div_add_mod w part
  rw [Nat.mul_comm] at position
  simp only [openAt, List.length_take, List.length_drop]
  omega

section Fill

variable {positive : 0 < part} {i cut : Nat} {rest grown : Bytes} {s : Splitting part} {open_ : OpenPiece part}

theorem fill_stuck {e : Error} (some_ : rest ≠ []) (opened : openPiece f base positive s = .ok open_)
    (failed : f.write i (s.done + 1) = some e) : fill f base positive i rest s = .error (s.undoWith e) := by
  rw [fill]
  simp only [some_, ↓reduceDIte, opened, failed]

theorem fill_room (some_ : rest ≠ []) (opened : openPiece f base positive s = .ok open_)
    (passed : f.write i (s.done + 1) = none) (cutting : min (part - open_.content.length) rest.length = cut)
    (grows : open_.content ++ rest.take cut = grown) (room : grown.length < part) :
    fill f base positive i rest s =
      fill f base positive i (rest.drop cut) { s with sink := some ⟨open_.dest, grown, room⟩ } := by
  subst cutting grows
  rw [fill]
  simp only [some_, ↓reduceDIte, opened, passed, room]

theorem fill_full (some_ : rest ≠ []) (opened : openPiece f base positive s = .ok open_)
    (passed : f.write i (s.done + 1) = none) (cutting : min (part - open_.content.length) rest.length = cut)
    (grows : open_.content ++ rest.take cut = grown) (full : ¬grown.length < part) :
    fill f base positive i rest s =
      (closePiece f s open_.dest grown).bind (fill f base positive i (rest.drop cut)) := by
  subst cutting grows
  rw [fill]
  simp only [some_, ↓reduceDIte, opened, passed, full]
  cases closePiece f s open_.dest _ <;> rfl

end Fill

/-- The inner loop over what comes next of the content. -/
theorem fill_made (positive : 0 < part) {i w : Nat} {rest : Bytes} (next : rest <+: content.drop w)
    (few : content.length ≤ FILE_SPLIT_MAX_PARTS * part) :
    Made f d base part content (cuts part i w rest.length) (fill f base positive i rest (stateAt d base content positive w))
      (stateAt d base content positive (w + rest.length)) := by
  induction size : rest.length using Nat.strong_induction_on generalizing w rest with
  | _ n ih =>
    subst size
    by_cases none_ : rest = []
    · subst none_
      rw [cuts, if_neg (by simp)]
      exact .nil (by rw [fill]; simp)
    have some_ := List.length_pos_of_ne_nil none_
    have remainder := Nat.mod_lt w positive
    have inside : w + rest.length ≤ content.length := by
      have length := next.length_le
      rw [List.length_drop] at length
      omega
    have fewer : w / part < FILE_SPLIT_MAX_PARTS := (Nat.div_lt_iff_lt_mul positive).mpr (by omega)
    have length := length_openAt base positive (Nat.le_of_add_right_le inside)
    rw [cuts, if_pos ⟨positive, some_⟩]
    simp only [List.append_assoc, List.singleton_append]
    refine (openPiece_made positive fewer).andThen (fun exit stopped => ?_) fun opened => ?_
    · rw [fill]
      simp [none_, stopped]
    refine Made.call (k := w / part) (by simp [Op.piece?]) (fun e failed => ?_) fun passed => ?_
    · simp only [Faults.error] at failed
      rw [fill_stuck none_ opened failed]
      simp [stateAt, exitAt, Splitting.undoWith, Op.undone, Faults.leaves]
    simp only [Faults.error] at passed
    generalize cutting : min (part - w % part) rest.length = cut
    have bounds : 0 < cut ∧ cut ≤ rest.length ∧ w % part + cut ≤ part := by omega
    rw [← length] at cutting
    have grows := openAt_take base positive next bounds.2.1
    have later : rest.drop cut <+: content.drop (w + cut) := by
      rw [← List.drop_drop]
      exact next.drop cut
    have rest_ := ih (rest.drop cut).length (by rw [List.length_drop]; omega) later rfl
    rw [List.length_drop, Nat.add_assoc, Nat.add_sub_cancel' bounds.2.1] at rest_
    have position := Nat.div_add_mod w part
    rw [Nat.mul_comm] at position
    have size : ((content.drop (w / part * part)).take (w % part + cut)).length = w % part + cut := by
      rw [List.length_take, List.length_drop]
      omega
    by_cases room : w % part + cut < part
    · obtain ⟨same, after⟩ := room_after room
      have goes := fill_room none_ opened passed cutting grows (by rwa [size])
      have state : { stateAt d base content positive w with sink := some ⟨(openAt base content positive w).dest,
          (content.drop (w / part * part)).take (w % part + cut), by rwa [size]⟩ } =
          stateAt d base content positive (w + cut) := by
        have left : cut ≠ 0 := by omega
        simp [stateAt, openAt, same, after, left]
      have left : ¬(w % part + cut = 0) := by omega
      rw [after, if_neg left, goes, state]
      exact rest_
    · have full : w % part + cut = part := by omega
      obtain ⟨next, after⟩ := full_after positive full
      have goes := fill_full none_ opened passed cutting grows (by rwa [size])
      rw [full] at goes
      have state : stateAt d base content positive (w + cut) =
          ⟨placed d base part content (w / part + 1), none, w / part + 1, names base (w / part + 1)⟩ := by
        simp [stateAt, next, after]
      rw [after, if_pos rfl, goes]
      rw [state] at rest_
      have closing := closePiece_made (f := f) (d := d) (s := stateAt d base content positive w) fewer rfl rfl rfl
      refine closing.andThen (fun exit stopped => ?_) fun closed => ?_
      · change (closePiece f _ (piece base (w / part + 1)) (slice part content (w / part))).bind _ = _
        rw [stopped]
        rfl
      · change Made f d base part content _
          ((closePiece f _ (piece base (w / part + 1)) (slice part content (w / part))).bind _) _
        rw [closed]
        exact rest_

/-- What is written of the last piece is all of it. -/
theorem openAt_last (base : Segment) (content : Bytes) (positive : 0 < part) :
    (openAt base content positive content.length).content = slice part content (content.length / part) := by
  have position := Nat.div_add_mod content.length part
  rw [Nat.mul_comm] at position
  have remainder := Nat.mod_lt content.length positive
  have rest : (content.drop (content.length / part * part)).length = content.length % part := by
    rw [List.length_drop]
    omega
  change (content.drop (content.length / part * part)).take (content.length % part) = _
  rw [slice, List.take_of_length_le (by omega), List.take_of_length_le (by omega)]

/-- The outer loop, from a cut of the content on. -/
theorem splitChunks_made (base : Segment) (positive : 0 < part) (few : content.length ≤ FILE_SPLIT_MAX_PARTS * part) {i w : Nat}
    {chunks : List Bytes} (next : chunks.flatten = content.drop w) (inside : w ≤ content.length) :
    Made f d base part content (chunkOps part i w chunks)
      ((splitChunks f base positive i chunks (stateAt d base content positive w)).bind (closeLast f))
      (if content.length % part = 0 then stateAt d base content positive content.length
        else ⟨placed d base part content (content.length / part + 1), none, content.length / part + 1,
          names base (content.length / part + 1)⟩) := by
  induction chunks generalizing i w with
  | nil =>
    have whole : w = content.length := by
      have length := congrArg List.length next
      simp only [List.flatten_nil, List.length_nil, List.length_drop] at length
      omega
    subst whole
    by_cases exact_ : content.length % part = 0
    · rw [if_pos exact_, chunkOps, if_pos exact_]
      exact .nil (by simp [splitChunks, Except.bind, closeLast, stateAt, exact_])
    · rw [if_neg exact_, chunkOps, if_neg exact_]
      have fewer : content.length / part < FILE_SPLIT_MAX_PARTS := by
        refine (Nat.div_lt_iff_lt_mul positive).mpr (Nat.lt_of_le_of_ne few fun whole => exact_ ?_)
        rw [whole, Nat.mul_mod_left]
      have closing := closePiece_made (f := f) (d := d) (s := stateAt d base content positive content.length)
        fewer rfl rfl rfl
      rw [← openAt_last base content positive] at closing
      have run : (splitChunks f base positive i [] (stateAt d base content positive content.length)).bind (closeLast f) =
          closePiece f (stateAt d base content positive content.length) (piece base (content.length / part + 1))
            (openAt base content positive content.length).content := by
        simp [splitChunks, Except.bind, closeLast, stateAt, exact_, openAt]
      rw [run]
      exact closing
  | cons chunk chunks ih =>
    rw [List.flatten_cons] at next
    have here : chunk <+: content.drop w := ⟨chunks.flatten, next⟩
    have upto : w + chunk.length ≤ content.length := by
      have length := here.length_le
      rw [List.length_drop] at length
      omega
    have later : chunks.flatten = content.drop (w + chunk.length) := by
      rw [← List.drop_drop, ← next, List.drop_left]
    have exit_ {op : Op} {e : Error} (undone : op.undone = true) (stays : f.leaves op = false) :
        (stateAt d base content positive w).undoWith e = exitAt f d base part content op e (w / part) := by
      simp [exitAt, Splitting.undoWith, undone, stays, stateAt]
    rw [chunkOps, List.append_assoc, List.cons_append, List.cons_append, List.nil_append]
    refine Made.call (k := w / part) (by simp [Op.piece?]) (fun e failed => ?_) fun going => ?_
    · simp only [Faults.error, Option.ite_none_right_eq_some, Option.some.injEq] at failed
      obtain ⟨cancelled, rfl⟩ := failed
      rw [splitChunks, if_pos cancelled, ← exit_ rfl rfl]
      rfl
    replace going : f.cancelled i ≠ true := by simpa [Faults.error] using going
    refine Made.call (k := w / part) (by simp [Op.piece?]) (fun e failed => ?_) fun whole => ?_
    · simp only [Faults.error] at failed
      rw [splitChunks, if_neg going, ← exit_ rfl rfl]
      simp [failed, Except.bind]
    simp only [Faults.error] at whole
    refine (fill_made positive here few).andThen (fun exit stopped => ?_) fun filled => ?_
    · rw [splitChunks, if_neg going]
      simp [whole, stopped, Except.bind]
    · rw [splitChunks, if_neg going]
      simp only [whole, filled]
      exact ih later upto

/-! ### A whole run -/

/-- How many pieces a content has. -/
def pieceCount (part : Nat) (content : Bytes) : Nat :=
  content.length / part + if content.length % part = 0 then 0 else 1

/-- What is there after an exit. -/
def Exit.settle (f : Faults) (exit : Exit) : Dir :=
  if exit.undo then removePieces f exit.published exit.dir else exit.dir

theorem checkSlotsFree_ok (free : d.Free base) (ns : List Nat) (few : ∀ n ∈ ns, n ≤ FILE_SPLIT_MAX_PARTS) :
    checkSlotsFree d base ns = .ok () := by
  induction ns with
  | nil => rfl
  | cons n ns ih =>
    have none_ := free.stat (few n List.mem_cons_self)
    simp only [checkSlotsFree, new_pieceName, none_]
    exact ih fun m member => few m (List.mem_cons_of_mem _ member)

theorem measuresTheDistribution_ok {src : Source} (enough : FILE_SPLIT_MIN_BYTES ≤ part)
    (few : src.content.length ≤ FILE_SPLIT_MAX_PARTS * part) (known : f.stat = none) :
    ∃ count ≤ FILE_SPLIT_MAX_PARTS, measuresTheDistribution f src part = .ok count := by
  have positive : 0 < part := Nat.lt_of_lt_of_le (by decide) enough
  have bound : src.size.getD 0 ≤ src.content.length := by
    rcases src.honest with none_ | some_
    · simp [none_]
    · simp [some_]
  have ceiling : (src.size.getD 0 + part - 1) / part ≤ FILE_SPLIT_MAX_PARTS := by
    refine Nat.le_of_lt_succ ((Nat.div_lt_iff_lt_mul positive).mpr ?_)
    rw [Nat.succ_mul]
    omega
  have count : max ((src.size.getD 0 + part - 1) / part) 1 ≤ FILE_SPLIT_MAX_PARTS := max_le ceiling (by decide)
  refine ⟨_, count, ?_⟩
  simp only [measuresTheDistribution, if_neg (Nat.not_lt.mpr enough), known, if_neg (Nat.not_lt.mpr count)]

/-- A split either makes all its calls, or stops at the first that fails. -/
theorem split_made {src : Source} (chunks : Chunking) (enough : FILE_SPLIT_MIN_BYTES ≤ part)
    (few : src.content.length ≤ FILE_SPLIT_MAX_PARTS * part) (free : d.Free src.name) :
    (f.first (schedule part (chunks.cut src.content)) = none ∧
        split f src chunks part d = (.ok (), placed d src.name part src.content (pieceCount part src.content))) ∨
      ∃ op e k, f.first (schedule part (chunks.cut src.content)) = some op ∧
        (∀ n, op.piece? = some n → n = k + 1 ∧ n ≤ FILE_SPLIT_MAX_PARTS) ∧
        split f src chunks part d = (.error e, (exitAt f d src.name part src.content op e k).settle f) := by
  have positive : 0 < part := Nat.lt_of_lt_of_le (by decide) enough
  -- before the loops there is nothing to undo
  have early {op : Op} {e : Error} (undone : op.undone = true) (stays : f.leaves op = false) :
      (exitAt f d src.name part src.content op e 0).settle f = d := by
    simp [exitAt, Exit.settle, undone, stays, placed, removePieces, names]
  cases pinned : f.pin with
  | some e =>
    refine .inr ⟨.pin, e, 0, by simp [Faults.first, schedule, Faults.error, pinned], by simp [Op.piece?], ?_⟩
    rw [early rfl rfl]
    simp [split, pinned]
  | none =>
  cases known : f.stat with
  | some e =>
    refine .inr ⟨.stat, e, 0, by simp [Faults.first, schedule, Faults.error, pinned, known], by simp [Op.piece?], ?_⟩
    rw [early rfl rfl]
    simp [split, pinned, measuresTheDistribution, Nat.not_lt.mpr enough, known]
  | none =>
  obtain ⟨count, fewer, measured⟩ := measuresTheDistribution_ok (f := f) enough few known
  have slots := checkSlotsFree_ok free (List.range' 1 count) fun n member => by
    have := List.mem_range'_1.mp member
    omega
  cases opened : f.read with
  | some e =>
    refine .inr ⟨.read, e, 0, by simp [Faults.first, schedule, Faults.error, pinned, known, opened], by simp [Op.piece?], ?_⟩
    rw [early rfl rfl]
    simp [split, pinned, measured, slots, opened]
  | none =>
  have start : stateAt d src.name src.content positive 0 = ⟨d, none, 0, []⟩ := by
    simp [stateAt, placed, names]
  have made := splitChunks_made (f := f) (d := d) (i := 0) (w := 0) src.name positive few (chunks.whole src.content) (Nat.zero_le _)
  rw [start] at made
  have before : f.first (schedule part (chunks.cut src.content)) = f.first (chunkOps part 0 0 (chunks.cut src.content)) := by
    simp [Faults.first, schedule, Faults.error, pinned, known, opened]
  rcases made with ⟨quiet, ran⟩ | ⟨op, e, k, failed, error, its, ran⟩
  · refine .inl ⟨before.trans quiet, ?_⟩
    simp only [split, pinned, measured, slots, opened, positive, ↓reduceDIte, ran]
    by_cases exact_ : src.content.length % part = 0
    · simp [exact_, stateAt, pieceCount]
    · simp [exact_, pieceCount]
  · refine .inr ⟨op, e, k, before.trans failed, its, ?_⟩
    simp only [split, pinned, measured, slots, opened, positive, ↓reduceDIte, ran]
    rfl

end Norte.FileSplit
