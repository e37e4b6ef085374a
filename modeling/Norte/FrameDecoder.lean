import Norte.Utf8
import Mathlib.Data.List.DropRight
import Mathlib.Algebra.Ring.Nat

/-! The frames of a stream of bytes. Whatever the pieces the bytes come in, and whenever the
frames are asked for, the decoder delivers the lines of the stream, and its indices and its
count of line ends are those of the buffer. -/
namespace Norte.Wire

def newline : UInt8 := 10
def carriageReturn : UInt8 := 13

def maxFrameBytes : Nat := 16 * 1024 * 1024

inductive FrameOversized where
  | frameOversized
  deriving DecidableEq, Repr

structure FrameDecoder where
  buf : Bytes := []
  start : Nat := 0
  scanned : Nat := 0
  pendingNewlines : Nat := 0
  deriving DecidableEq, Repr

/-- Without its trailing carriage returns, however many. -/
def trim (line : Bytes) : Bytes := line.rdropWhile (· == carriageReturn)

namespace FrameDecoder

/-- What was read is dropped once for each push. -/
def compact (d : FrameDecoder) : FrameDecoder :=
  if d.start > 0 then { d with buf := d.buf.drop d.start, scanned := d.scanned - d.start, start := 0 }
  else d

def fed (d : FrameDecoder) (bytes : Bytes) : FrameDecoder :=
  { d.compact with
    pendingNewlines := d.compact.pendingNewlines + bytes.count newline
    buf := d.compact.buf ++ bytes }

/-- The bytes stay in the buffer, also those of a push that is refused. -/
def push (d : FrameDecoder) (bytes : Bytes) : Except FrameOversized Unit × FrameDecoder :=
  if (d.fed bytes).buf.length > maxFrameBytes ∧ (d.fed bytes).pendingNewlines = 0 then
    (.error .frameOversized, d.fed bytes)
  else (.ok (), d.fed bytes)

/-- Past the line that ends at `nl`. -/
def past (d : FrameDecoder) (nl : Nat) : FrameDecoder :=
  { d with start := nl + 1, scanned := nl + 1, pendingNewlines := d.pendingNewlines - 1 }

def line (d : FrameDecoder) (nl : Nat) : Bytes := trim ((d.buf.take nl).drop d.start)

def nextFrameLoop : Nat → FrameDecoder → Option Bytes × FrameDecoder
  | 0, d => (none, d)
  | fuel + 1, d =>
    match (d.buf.drop d.scanned).findIdx? (· == newline) with
    | none => (none, { d with scanned := d.buf.length })
    | some i =>
      if (d.line (i + d.scanned)).isEmpty then nextFrameLoop fuel (d.past (i + d.scanned))
      else (some (d.line (i + d.scanned)), d.past (i + d.scanned))

/-- Every turn of the loop reads one byte of the buffer at least. -/
def nextFrame (d : FrameDecoder) : Option Bytes × FrameDecoder := nextFrameLoop (d.buf.length + 1) d

def drainLoop : Nat → FrameDecoder → List Bytes × FrameDecoder
  | 0, d => ([], d)
  | fuel + 1, d =>
    match d.nextFrame with
    | (none, d) => ([], d)
    | (some frame, d) => (frame :: (drainLoop fuel d).1, (drainLoop fuel d).2)

/-- Frames are asked for until there is none. -/
def drain (d : FrameDecoder) : List Bytes × FrameDecoder := drainLoop (d.buf.length + 1) d

/-- Every piece is pushed and what it completes is drained. -/
def feed : FrameDecoder → List Bytes → Except FrameOversized (List Bytes)
  | _, [] => .ok []
  | d, bytes :: chunks =>
    match d.push bytes with
    | (.error oversized, _) => .error oversized
    | (.ok (), d) =>
      match feed d.drain.2 chunks with
      | .error oversized => .error oversized
      | .ok frames => .ok (d.drain.1 ++ frames)

end FrameDecoder

/-- What a stream says: its closed lines, trimmed, those with nothing in them left out. -/
def frames (stream : Bytes) : List Bytes :=
  ((stream.splitOn newline).dropLast.map trim).filter fun line => !line.isEmpty

def Closed (stream : Bytes) : Prop := stream = [] ∨ ∃ s, stream = s ++ [newline]

theorem frames_open {rest : Bytes} (open_ : newline ∉ rest) : frames rest = [] := by
  simp [frames, List.splitOn_eq_singleton open_]

theorem frames_split (s rest : Bytes) :
    frames (s ++ newline :: rest) = frames (s ++ [newline]) ++ frames rest := by
  have nonempty := List.splitOn_ne_nil newline rest
  simp [frames, List.splitOn_append_cons_self, List.dropLast_append_of_ne_nil nonempty]

theorem Closed.frames {s : Bytes} (closed : Closed s) (rest : Bytes) :
    frames (s ++ rest) = Wire.frames s ++ Wire.frames rest := by
  rcases closed with rfl | ⟨s, rfl⟩
  · simp [Wire.frames]
  · rw [List.append_assoc, List.singleton_append]
    exact frames_split s rest

theorem closed_line (s line : Bytes) : Closed (s ++ (line ++ [newline])) :=
  .inr ⟨s ++ line, (List.append_assoc ..).symm⟩

theorem frames_line {line : Bytes} (open_ : newline ∉ line) :
    frames (line ++ [newline]) = if (trim line).isEmpty then [] else [trim line] := by
  have split : (line ++ [newline]).splitOn newline = [line] ++ [[]] := by
    rw [List.splitOn_append_cons_self, List.splitOn_eq_singleton open_, List.splitOn_nil]
  by_cases empty : (trim line).isEmpty <;> simp [frames, split, empty]

/-- What the decoder knows of the stream: what it is past, and of the rest how far it looked and
how many lines are closed. -/
structure At (received : Bytes) (delivered : List Bytes) (d : FrameDecoder) (read : Bytes) : Prop where
  stream : received = read ++ d.buf.drop d.start
  closed : Closed read
  delivered : delivered = frames read
  ordered : d.start ≤ d.scanned
  inside : d.scanned ≤ d.buf.length
  seen : newline ∉ (d.buf.take d.scanned).drop d.start
  pending : d.pendingNewlines = (d.buf.drop d.start).count newline

theorem At.new : At [] [] {} [] where
  stream := rfl
  closed := .inl rfl
  delivered := rfl
  ordered := Nat.le_refl 0
  inside := Nat.le_refl 0
  seen := List.not_mem_nil
  pending := rfl

variable {received read : Bytes} {delivered : List Bytes} {d : FrameDecoder}

namespace FrameDecoder

theorem compact_start (d : FrameDecoder) : d.compact.start = 0 := by
  unfold compact
  split
  · rfl
  · omega

theorem compact_buf (d : FrameDecoder) : d.compact.buf = d.buf.drop d.start := by
  unfold compact
  split
  · rfl
  · have zero : d.start = 0 := by omega
    simp [zero]

theorem compact_scanned (d : FrameDecoder) : d.compact.scanned = d.scanned - d.start := by
  unfold compact
  split
  · rfl
  · have zero : d.start = 0 := by omega
    simp [zero]

theorem compact_pending (d : FrameDecoder) : d.compact.pendingNewlines = d.pendingNewlines := by
  unfold compact
  split <;> rfl

@[simp] theorem push_snd (d : FrameDecoder) (bytes : Bytes) : (d.push bytes).2 = d.fed bytes := by
  unfold push
  split <;> rfl

end FrameDecoder

theorem At.push (at_ : At received delivered d read) (bytes : Bytes) :
    At (received ++ bytes) delivered (d.fed bytes) read where
  stream := by
    simp [FrameDecoder.fed, d.compact_start, d.compact_buf, at_.stream]
  closed := at_.closed
  delivered := at_.delivered
  ordered := by simp [FrameDecoder.fed, d.compact_start]
  inside := by
    have inside := at_.inside
    simp only [FrameDecoder.fed, d.compact_scanned, d.compact_buf, List.length_append, List.length_drop]
    omega
  seen := by
    have inside := at_.inside
    have short : d.scanned - d.start ≤ (d.buf.drop d.start).length := by
      rw [List.length_drop]
      omega
    simp only [FrameDecoder.fed, d.compact_start, d.compact_scanned, d.compact_buf, List.drop_zero]
    rw [List.take_append_of_le_length short, ← List.drop_take]
    exact at_.seen
  pending := by
    simp [FrameDecoder.fed, d.compact_start, d.compact_buf, d.compact_pending, at_.pending]

/-- The first line end that was not looked at yet closes the line that starts at `start`. -/
theorem At.found (at_ : At received delivered d read) {i : Nat}
    (found : (d.buf.drop d.scanned).findIdx? (· == newline) = some i) :
    i + d.scanned < d.buf.length ∧ newline ∉ (d.buf.take (i + d.scanned)).drop d.start ∧
      d.buf.drop d.start =
        (d.buf.take (i + d.scanned)).drop d.start ++ newline :: d.buf.drop (i + d.scanned + 1) := by
  obtain ⟨bound, ends, before⟩ := List.findIdx?_eq_some_iff_getElem.mp found
  have ordered := at_.ordered
  rw [List.length_drop] at bound
  have inside : i + d.scanned < d.buf.length := by omega
  simp only [List.getElem_drop, beq_iff_eq] at ends before
  refine ⟨inside, ?_, ?_⟩
  · intro member
    obtain ⟨k, bound, equal⟩ := List.mem_iff_getElem.mp member
    rw [List.getElem_drop, List.getElem_take] at equal
    rw [List.length_drop, List.length_take] at bound
    by_cases looked : d.start + k < d.scanned
    · apply at_.seen
      apply List.mem_iff_getElem.mpr
      exact ⟨k, by simp; omega, by rw [List.getElem_drop, List.getElem_take]; exact equal⟩
    · apply before (d.start + k - d.scanned) (by omega)
      have place : d.scanned + (d.start + k - d.scanned) = d.start + k := by omega
      simpa only [place] using equal
  · have place : d.scanned + i = i + d.scanned := by omega
    simp only [place] at ends
    rw [← ends, ← List.drop_eq_getElem_cons inside]
    conv_lhs => rw [← List.take_append_drop (i + d.scanned) d.buf]
    rw [List.drop_append_of_le_length]
    rw [List.length_take]
    omega

theorem At.past (at_ : At received delivered d read) {i : Nat}
    (found : (d.buf.drop d.scanned).findIdx? (· == newline) = some i) :
    At received
      (delivered ++ if (d.line (i + d.scanned)).isEmpty then [] else [d.line (i + d.scanned)])
      (d.past (i + d.scanned)) (read ++ ((d.buf.take (i + d.scanned)).drop d.start ++ [newline])) := by
  obtain ⟨inside, open_, split⟩ := at_.found found
  constructor
  · simp [at_.stream, split, FrameDecoder.past]
  · exact closed_line _ _
  · rw [at_.closed.frames, at_.delivered, frames_line open_]
    rfl
  · exact Nat.le_refl _
  · exact inside
  · simp [FrameDecoder.past]
  · have pending := at_.pending
    rw [split, List.count_append, List.count_eq_zero.mpr open_, List.count_cons_self] at pending
    simp only [FrameDecoder.past]
    omega

/-- No line end is left in what was not looked at: the whole buffer was looked at. -/
theorem At.all (at_ : At received delivered d read)
    (none_ : (d.buf.drop d.scanned).findIdx? (· == newline) = none) :
    At received delivered { d with scanned := d.buf.length } read ∧ newline ∉ d.buf.drop d.start := by
  have open_ : newline ∉ d.buf.drop d.start := by
    have unseen : newline ∉ d.buf.drop d.scanned := by
      intro member
      have := List.findIdx?_eq_none_iff.mp none_ newline member
      simp at this
    have ordered := at_.ordered
    have inside := at_.inside
    rw [← List.take_append_drop d.scanned d.buf, List.drop_append_of_le_length (by rw [List.length_take]; omega)]
    exact fun member => (List.mem_append.mp member).elim at_.seen unseen
  refine ⟨⟨at_.stream, at_.closed, at_.delivered, ?_, Nat.le_refl _, ?_, at_.pending⟩, open_⟩
  · exact Nat.le_trans at_.ordered at_.inside
  · rw [List.take_length]
    exact open_

/-- What an answer of `next_frame` adds to what was delivered. A frame is read from what was not
looked at before, and where there is none no closed line is left. -/
structure Answers (received : Bytes) (delivered : List Bytes) (d : FrameDecoder) (frame : Option Bytes)
    (d' : FrameDecoder) : Prop where
  at_ : ∃ read, At received (delivered ++ frame.toList) d' read
  buf : d'.buf = d.buf
  further : frame ≠ none → d.scanned < d'.scanned
  drained : frame = none → newline ∉ d'.buf.drop d'.start

theorem At.loop (fuel : Nat) (at_ : At received delivered d read)
    (enough : d.buf.length < fuel + d.scanned) :
    Answers received delivered d (d.nextFrameLoop fuel).1 (d.nextFrameLoop fuel).2 := by
  induction fuel generalizing d read with
  | zero =>
    have inside := at_.inside
    omega
  | succ fuel ih =>
    unfold FrameDecoder.nextFrameLoop
    cases found : (d.buf.drop d.scanned).findIdx? (· == newline) with
    | none =>
      obtain ⟨all, open_⟩ := at_.all found
      refine ⟨⟨read, ?_⟩, rfl, fun some_ => absurd rfl some_, fun _ => open_⟩
      simpa using all
    | some i =>
      have past := at_.past found
      dsimp only
      by_cases empty : (d.line (i + d.scanned)).isEmpty
      · simp only [empty, if_true, List.append_nil] at past ⊢
        have rest := ih past (by simp only [FrameDecoder.past]; omega)
        refine ⟨rest.at_, rest.buf, fun some_ => ?_, rest.drained⟩
        apply Nat.lt_trans _ (rest.further some_)
        simp only [FrameDecoder.past]
        omega
      · simp only [empty, if_false, Bool.false_eq_true] at past ⊢
        refine ⟨⟨_, past⟩, rfl, fun _ => ?_, fun none_ => by cases none_⟩
        simp only [FrameDecoder.past]
        omega

theorem At.nextFrame (at_ : At received delivered d read) :
    Answers received delivered d d.nextFrame.1 d.nextFrame.2 :=
  at_.loop _ (by omega)

/-- Drained, the decoder has delivered every frame of what it received. -/
theorem At.drained (at_ : At received delivered d read) (open_ : newline ∉ d.buf.drop d.start) :
    delivered = frames received := by
  rw [at_.stream, at_.closed.frames, frames_open open_, List.append_nil, at_.delivered]

theorem At.drainLoop (fuel : Nat) (at_ : At received delivered d read)
    (enough : d.buf.length < fuel + d.scanned) :
    delivered ++ (d.drainLoop fuel).1 = frames received ∧
      ∃ read, At received (frames received) (d.drainLoop fuel).2 read := by
  induction fuel generalizing d read delivered with
  | zero =>
    have inside := at_.inside
    omega
  | succ fuel ih =>
    have answers := at_.nextFrame
    unfold FrameDecoder.drainLoop
    cases answer : d.nextFrame with
    | mk frame next =>
      rw [answer] at answers
      obtain ⟨⟨read, reached⟩, buf, further, drained⟩ := answers
      cases frame with
      | none =>
        simp only [Option.toList_none, List.append_nil] at reached ⊢
        have whole := reached.drained (drained rfl)
        rw [← whole]
        exact ⟨rfl, read, reached⟩
      | some frame =>
        have further := further (Option.some_ne_none frame)
        dsimp only at further buf reached ⊢
        have rest := ih reached (by rw [buf]; omega)
        rw [List.append_assoc] at rest
        exact rest

theorem At.drain (at_ : At received delivered d read) :
    delivered ++ d.drain.1 = frames received ∧ ∃ read, At received (frames received) d.drain.2 read :=
  at_.drainLoop _ (by omega)

theorem At.feed (chunks : List Bytes) (at_ : At received (frames received) d read) {delivered : List Bytes}
    (fed : d.feed chunks = .ok delivered) :
    frames received ++ delivered = frames (received ++ chunks.flatten) := by
  induction chunks generalizing received d read delivered with
  | nil =>
    obtain rfl := Except.ok.inj fed
    simp
  | cons bytes chunks ih =>
    unfold FrameDecoder.feed at fed
    have pushed := at_.push bytes
    rw [← FrameDecoder.push_snd] at pushed
    cases answer : d.push bytes with
    | mk result d' =>
      rw [answer] at fed pushed
      cases result with
      | error oversized => cases fed
      | ok done =>
        dsimp only at fed pushed
        obtain ⟨drained, read, rest⟩ := pushed.drain
        cases more : d'.drain.2.feed chunks with
        | error oversized =>
          rw [more] at fed
          cases fed
        | ok frames_ =>
          rw [more] at fed
          obtain rfl := Except.ok.inj fed
          rw [← List.append_assoc, drained, ih rest more, List.flatten_cons, List.append_assoc]

/-- A decoder after pushes and questions in any order, with what came and what was delivered. -/
inductive Reached : Bytes → List Bytes → FrameDecoder → Prop
  | new : Reached [] [] {}
  | push {received : Bytes} {delivered : List Bytes} {d : FrameDecoder} (bytes : Bytes) :
    Reached received delivered d → Reached (received ++ bytes) delivered (d.push bytes).2
  | nextFrame {received : Bytes} {delivered : List Bytes} {d : FrameDecoder} :
    Reached received delivered d →
      Reached received (delivered ++ d.nextFrame.1.toList) d.nextFrame.2

theorem Reached.at_ (reached : Reached received delivered d) : ∃ read, At received delivered d read := by
  induction reached with
  | new => exact ⟨[], At.new⟩
  | push bytes _ ih =>
    obtain ⟨read, at_⟩ := ih
    rw [FrameDecoder.push_snd]
    exact ⟨read, at_.push bytes⟩
  | nextFrame _ ih =>
    obtain ⟨read, at_⟩ := ih
    exact at_.nextFrame.at_

/-- A push is refused when the line in progress, alone in the buffer, is too long. -/
theorem At.oversized (at_ : At received delivered d read) {bytes : Bytes} {oversized : FrameOversized}
    (refused : (d.push bytes).1 = .error oversized) :
    received ++ bytes = read ++ (d.push bytes).2.buf ∧ newline ∉ (d.push bytes).2.buf ∧
      maxFrameBytes < (d.push bytes).2.buf.length := by
  have pushed := at_.push bytes
  have start : (d.fed bytes).start = 0 := d.compact_start
  have stream := pushed.stream
  have pending := pushed.pending
  rw [start, List.drop_zero] at stream pending
  rw [FrameDecoder.push_snd]
  unfold FrameDecoder.push at refused
  split at refused
  case isTrue over_ =>
    refine ⟨stream, ?_, over_.1⟩
    rw [over_.2] at pending
    exact List.count_eq_zero.mp pending.symm
  case isFalse => cases refused

/-- The frames of a stream do not depend on its pieces; the indices and the count of line ends
hold whatever was pushed and asked for; only a line in progress is ever too long. -/
theorem framing_any_pieces :
    (∀ (chunks delivered : List Bytes),
      FrameDecoder.feed {} chunks = .ok delivered → delivered = frames chunks.flatten) ∧
    ∀ (received : Bytes) (delivered : List Bytes) (d : FrameDecoder), Reached received delivered d →
      d.start ≤ d.scanned ∧ d.scanned ≤ d.buf.length ∧
      d.pendingNewlines = (d.buf.drop d.start).count newline ∧
      ∀ (bytes : Bytes) (oversized : FrameOversized), (d.push bytes).1 = .error oversized →
        ∃ read tail, received ++ bytes = read ++ tail ∧ Closed read ∧ delivered = frames read ∧
          (d.push bytes).2.buf = tail ∧ newline ∉ tail ∧ maxFrameBytes < tail.length := by
  constructor
  · intro chunks delivered fed
    simpa [frames] using At.new.feed chunks fed
  · intro received delivered d reached
    obtain ⟨read, at_⟩ := reached.at_
    refine ⟨at_.ordered, at_.inside, at_.pending, fun bytes oversized refused => ?_⟩
    obtain ⟨stream, open_, long⟩ := at_.oversized refused
    exact ⟨read, _, stream, at_.closed, at_.delivered, rfl, open_, long⟩

/-- Three lines in three pieces; one ends in two carriage returns, one is empty, one is open. -/
theorem framing_pieces :
    FrameDecoder.feed {} [[97], [98, 13, 13, 10, 10, 99], [10, 100]] = .ok [[97, 98], [99]] ∧
      [[97, 98], [99]] = frames [97, 98, 13, 13, 10, 10, 99, 10, 100] :=
  ⟨by decide, framing_any_pieces.1 [[97], [98, 13, 13, 10, 10, 99], [10, 100]] _ (by decide)⟩

end Norte.Wire
