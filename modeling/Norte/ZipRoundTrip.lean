import Norte.ZipEnd

/-! Whole runs of the writer, with the buffer drained whenever it may be: what comes out is
read back entry by entry, and each entry's data are where its header says. -/
namespace Norte.Archive.Zip

open Hashing

variable {codec : Codec} {level : Nat}

/-- An entry of a run: what it was opened with, the chunks it was given, and the places of
its header and of its first byte of data. -/
structure Member where
  entry : PackEntry
  chunks : List Bytes
  offset : Nat
  start : Nat

namespace Member

variable (codec : Codec) (level : Nat) (m : Member)

/-- The body after the chunks, and what it has put out. -/
def packed : Body codec × Bytes :=
  m.chunks.foldl (fun packed chunk =>
    let (body, ready) := ZipWriter.pack packed.1 chunk
    (body, packed.2 ++ ready))
    (if entryMethod level m.entry = methodDeflate then .deflate (codec.new level) else .store, [])

/-- All the bytes that are stored for an entry. -/
def data : Bytes := (m.packed codec level).2 ++ ZipWriter.rest (m.packed codec level).1

def crc : codec.Crc := m.chunks.foldl codec.crcUpdate codec.crcNew

/-- What the directory has to say of an entry. -/
def written : Written where
  name := entryName m.entry
  flags := entryFlags m.entry
  method := entryMethod level m.entry
  dosTime := (dosDatetime m.entry.mtimeMs).1
  dosDate := (dosDatetime m.entry.mtimeMs).2
  crc := codec.crcSum (m.crc codec)
  compSize := (m.data codec level).length
  uncompSize := m.chunks.flatten.length
  offset := m.offset
  externalAttrs := externalAttrs m.entry

/-- What the writer holds of an open entry. -/
def progress : InProgress codec where
  name := entryName m.entry
  flags := entryFlags m.entry
  method := entryMethod level m.entry
  dosTime := (dosDatetime m.entry.mtimeMs).1
  dosDate := (dosDatetime m.entry.mtimeMs).2
  offset := m.offset
  externalAttrs := externalAttrs m.entry
  zip64 := isZip64Entry m.entry
  crc := m.crc codec
  uncomp := m.chunks.flatten.length
  comp := (m.packed codec level).2.length
  body := (m.packed codec level).1

end Member

/-- A writer, what was drained from it, and the entries of the run. -/
structure Session (codec : Codec) where
  writer : ZipWriter codec
  sent : Bytes
  members : List Member
  current : Option Member

/-- Any order of calls; those that are refused are no different. -/
inductive Run (codec : Codec) (level : Nat) : Session codec → Prop where
  | new : Run codec level ⟨.new level, [], [], none⟩
  | begin {s : Session codec} {entry : PackEntry} {w : ZipWriter codec} : Run codec level s →
      s.writer.begin entry = (.ok (), w) →
      Run codec level { s with writer := w, current := some ⟨entry, [], s.writer.pos, w.pos⟩ }
  | data {s : Session codec} {chunk : Bytes} {w : ZipWriter codec} : Run codec level s →
      s.writer.data chunk = (.ok (), w) →
      Run codec level { s with
        writer := w
        current := s.current.map fun m => { m with chunks := m.chunks ++ [chunk] } }
  | end_ {s : Session codec} {w : ZipWriter codec} : Run codec level s → s.writer.end_ = (.ok (), w) →
      Run codec level { s with writer := w, members := s.members ++ s.current.toList, current := none }
  | refused {s : Session codec} {w : ZipWriter codec} {e : PackError} : Run codec level s →
      ((∃ entry, s.writer.begin entry = (.error e, w)) ∨ (∃ chunk, s.writer.data chunk = (.error e, w)) ∨
        s.writer.end_ = (.error e, w)) →
      Run codec level { s with writer := w }
  | take {s : Session codec} : Run codec level s →
      Run codec level { s with writer := s.writer.take.2, sent := s.sent ++ s.writer.take.1 }

/-- All that was put out so far. -/
def Session.file (s : Session codec) : Bytes := s.sent ++ s.writer.out

/-! What the calls do. -/

theorem begin_error {w w' : ZipWriter codec} {entry : PackEntry} {e : PackError}
    (refused : w.begin entry = (.error e, w')) : w' = w := by
  unfold ZipWriter.begin at refused
  split at refused
  · exact (Prod.mk.inj refused).2.symm
  split at refused
  · exact (Prod.mk.inj refused).2.symm
  · cases (Prod.mk.inj refused).1

theorem data_error {w w' : ZipWriter codec} {chunk : Bytes} {e : PackError}
    (refused : w.data chunk = (.error e, w')) : w' = w := by
  unfold ZipWriter.data at refused
  split at refused
  · exact (Prod.mk.inj refused).2.symm
  · cases (Prod.mk.inj refused).1

theorem end_error {w w' : ZipWriter codec} {e : PackError} (refused : w.end_ = (.error e, w')) : w' = w := by
  unfold ZipWriter.end_ at refused
  split at refused
  · exact (Prod.mk.inj refused).2.symm
  · cases (Prod.mk.inj refused).1

/-- The header of an entry and its first data are in a file. -/
structure Placed (level : Nat) (file : Bytes) (m : Member) (data : Bytes) : Prop where
  name : (entryName m.entry).length ≤ u16Max
  start : m.start = m.offset + (localHeader level m.entry).length
  inside : m.start ≤ file.length
  header : localHeader level m.entry <+: file.drop m.offset
  body : data <+: file.drop m.start

theorem prefix_append {file data more : Bytes} {pos : Nat} (inside : pos ≤ file.length)
    (there : data <+: file.drop pos) : data <+: (file ++ more).drop pos := by
  rw [List.drop_append_of_le_length inside]
  exact there.trans (List.prefix_append _ _)

/-- What is appended leaves the entries in place. -/
theorem Placed.append {file data : Bytes} {m : Member} (placed : Placed level file m data) (more : Bytes) :
    Placed level (file ++ more) m data where
  name := placed.name
  start := placed.start
  inside := by
    rw [List.length_append]
    exact Nat.le_add_right_of_le placed.inside
  header := prefix_append (by have := placed.start; have := placed.inside; omega) placed.header
  body := prefix_append placed.inside placed.body

/-- The writer's books agree with what it has put out. -/
structure Sound (codec : Codec) (level : Nat) (s : Session codec) : Prop where
  same : s.writer.level = level
  delivered : s.writer.delivered = s.sent.length
  done : s.writer.done = s.members.map (Member.written codec level)
  placed : ∀ m ∈ s.members, Placed level s.file m (m.data codec level)
  current : s.writer.current = s.current.map (Member.progress codec level)
  open_ : ∀ m ∈ s.current, Placed level s.file m (m.packed codec level).2 ∧
    s.file.length = m.start + (m.packed codec level).2.length

theorem begin_ok {w w' : ZipWriter codec} {entry : PackEntry} (opened : w.begin entry = (.ok (), w')) :
    w.current = none ∧ (entryName entry).length ≤ u16Max ∧ w' = { w with
      out := w.out ++ localHeader w.level entry
      current := some (Member.progress codec w.level ⟨entry, [], w.pos, w'.pos⟩) } := by
  unfold ZipWriter.begin at opened
  split at opened
  · cases (Prod.mk.inj opened).1
  rename_i idle
  split at opened
  · cases (Prod.mk.inj opened).1
  rename_i fits
  obtain ⟨_, rfl⟩ := Prod.mk.inj opened
  exact ⟨by simpa using idle, Nat.le_of_not_lt fits, rfl⟩

theorem data_ok {w w' : ZipWriter codec} {chunk : Bytes} (given : w.data chunk = (.ok (), w')) :
    ∃ current, w.current = some current ∧ w' = { w with
      out := w.out ++ (ZipWriter.pack current.body chunk).2
      current := some { current with
        crc := codec.crcUpdate current.crc chunk
        uncomp := current.uncomp + chunk.length
        comp := current.comp + (ZipWriter.pack current.body chunk).2.length
        body := (ZipWriter.pack current.body chunk).1 } } := by
  unfold ZipWriter.data at given
  split at given
  · cases (Prod.mk.inj given).1
  · rename_i current found
    exact ⟨current, found, (Prod.mk.inj given).2.symm⟩

theorem end_ok {w w' : ZipWriter codec} (closed : w.end_ = (.ok (), w')) :
    ∃ current more, w.current = some current ∧ w' = { w with
      out := w.out ++ ZipWriter.rest current.body ++ more
      current := none
      done := w.done ++ [⟨current.name, current.flags, current.method, current.dosTime, current.dosDate,
        codec.crcSum current.crc, current.comp + (ZipWriter.rest current.body).length, current.uncomp, current.offset,
        current.externalAttrs⟩] } := by
  unfold ZipWriter.end_ at closed
  split at closed
  · cases (Prod.mk.inj closed).1
  · rename_i current found
    exact ⟨current, _, found, (Prod.mk.inj closed).2.symm⟩

/-- One more chunk. -/
theorem Member.packed_chunk (m : Member) (chunk : Bytes) :
    Member.packed codec level { m with chunks := m.chunks ++ [chunk] } =
      ((ZipWriter.pack (m.packed codec level).1 chunk).1,
        (m.packed codec level).2 ++ (ZipWriter.pack (m.packed codec level).1 chunk).2) := by
  rw [Member.packed, List.foldl_append]
  rfl

theorem Member.progress_chunk (m : Member) (chunk : Bytes) :
    Member.progress codec level { m with chunks := m.chunks ++ [chunk] } =
      { m.progress codec level with
        crc := codec.crcUpdate (m.crc codec) chunk
        uncomp := m.chunks.flatten.length + chunk.length
        comp := (m.packed codec level).2.length + (ZipWriter.pack (m.packed codec level).1 chunk).2.length
        body := (ZipWriter.pack (m.packed codec level).1 chunk).1 } := by
  simp only [Member.progress, Member.packed_chunk, Member.crc, List.foldl_append, List.foldl_cons, List.foldl_nil,
    List.flatten_append, List.flatten_cons, List.flatten_nil, List.append_nil, List.length_append]

/-- The output of an open entry ends the file. -/
theorem Placed.exact {file data : Bytes} {m : Member} (placed : Placed level file m data)
    (length : file.length = m.start + data.length) : file.drop m.start = data := by
  refine (placed.body.eq_of_length ?_).symm
  rw [List.length_drop, length, Nat.add_sub_cancel_left]

/-- More output for it. -/
theorem Placed.extend {file data : Bytes} {m : Member} (placed : Placed level file m data)
    (length : file.length = m.start + data.length) (more : Bytes) : Placed level (file ++ more) m (data ++ more) := by
  have grown := placed.append more
  refine ⟨grown.name, grown.start, grown.inside, grown.header, ?_⟩
  rw [List.drop_append_of_le_length placed.inside, placed.exact length]

theorem Run.sound {s : Session codec} (run : Run codec level s) : Sound codec level s := by
  induction run with
  | new => exact ⟨rfl, rfl, rfl, by simp, rfl, by simp⟩
  | refused _ which ih =>
    rcases which with ⟨_, refused⟩ | ⟨_, refused⟩ | refused
    · rw [begin_error refused]
      exact ih
    · rw [data_error refused]
      exact ih
    · rw [end_error refused]
      exact ih
  | @take s _ ih =>
    have file : ({ s with writer := s.writer.take.2, sent := s.sent ++ s.writer.take.1 } : Session codec).file = s.file :=
      List.append_nil _
    refine ⟨ih.same, ?_, ih.done, ?_, ih.current, ?_⟩
    · rw [List.length_append, ← ih.delivered]
      rfl
    · rw [file]
      exact ih.placed
    · rw [file]
      exact ih.open_
  | @begin s entry w _ opened ih =>
    obtain ⟨idle, fits, shape⟩ := begin_ok opened
    have pos : s.writer.pos = s.file.length := by
      rw [ZipWriter.pos, ih.delivered, Session.file, List.length_append]
    have out : s.sent ++ w.out = s.file ++ localHeader level entry := by
      rw [shape, ih.same, Session.file, List.append_assoc]
    have start : w.pos = s.writer.pos + (localHeader level entry).length := by
      rw [shape, ih.same, ZipWriter.pos, ZipWriter.pos, List.length_append, Nat.add_assoc]
    refine ⟨?_, ?_, ?_, fun m member => ?_, ?_, fun m current => ?_⟩
    · rw [shape]
      exact ih.same
    · rw [shape]
      exact ih.delivered
    · rw [shape]
      exact ih.done
    · rw [Session.file, out]
      exact (ih.placed m member).append _
    · rw [shape, ih.same]
      rfl
    · obtain rfl := Option.some.inj current
      rw [Session.file, out]
      have header : (s.file ++ localHeader level entry).drop s.writer.pos = localHeader level entry := by
        rw [pos, List.drop_left]
      refine ⟨⟨fits, start, ?_, ?_, List.nil_prefix⟩, ?_⟩
      · show w.pos ≤ _
        rw [List.length_append]
        omega
      · rw [header]
      · rw [List.length_append]
        show _ = w.pos + 0
        omega
  | @data s chunk w _ given ih =>
    obtain ⟨current, found, shape⟩ := data_ok given
    obtain ⟨m, opened, rfl⟩ := Option.map_eq_some_iff.mp (ih.current.symm.trans found)
    obtain ⟨placed, length⟩ := ih.open_ m opened
    have packed := @Member.packed_chunk codec level m chunk
    have out : s.sent ++ w.out = s.file ++ (ZipWriter.pack (m.packed codec level).1 chunk).2 := by
      rw [shape, Session.file, List.append_assoc]
      rfl
    refine ⟨?_, ?_, ?_, fun m member => ?_, ?_, fun m' current => ?_⟩
    · rw [shape]
      exact ih.same
    · rw [shape]
      exact ih.delivered
    · rw [shape]
      exact ih.done
    · rw [Session.file, out]
      exact (ih.placed m member).append _
    · rw [shape, opened, Option.map_some, Option.map_some, Member.progress_chunk]
      rfl
    · rw [opened, Option.map_some] at current
      obtain rfl := Option.some.inj current
      rw [Session.file, out, packed]
      have grown := placed.extend length (ZipWriter.pack (m.packed codec level).1 chunk).2
      refine ⟨⟨grown.name, grown.start, grown.inside, grown.header, grown.body⟩, ?_⟩
      rw [List.length_append, List.length_append, length, Nat.add_assoc]
  | @end_ s w _ closed ih =>
    obtain ⟨current, more, found, shape⟩ := end_ok closed
    obtain ⟨m, opened, rfl⟩ := Option.map_eq_some_iff.mp (ih.current.symm.trans found)
    obtain ⟨placed, length⟩ := ih.open_ m opened
    have out : s.sent ++ w.out = s.file ++ ZipWriter.rest (m.packed codec level).1 ++ more := by
      rw [shape, Session.file, List.append_assoc, List.append_assoc, List.append_assoc]
      rfl
    refine ⟨?_, ?_, ?_, fun m' member => ?_, ?_, fun m' none => by cases none⟩
    · rw [shape]
      exact ih.same
    · rw [shape]
      exact ih.delivered
    · rw [shape, opened, List.map_append, ← ih.done]
      simp only [Option.toList_some, List.map_cons, List.map_nil, Member.written, Member.data, List.length_append]
      rfl
    · rw [Session.file, out]
      rw [opened] at member
      rcases List.mem_append.mp member with old | new
      · exact ((ih.placed m' old).append _).append _
      · obtain rfl := List.mem_singleton.mp new
        exact (placed.extend length _).append _
    · rw [shape]
      rfl

/-! What is read of a finished archive. -/

theorem finish_ok {w w' : ZipWriter codec} (finished : w.finish = (.ok (), w')) :
    w.current = none ∧ w'.out = w.out ++ w.done.flatMap writeCd ++
      (if needs64 w.done (w.done.flatMap writeCd).length w.pos then
        zip64Tail w.done.length (w.done.flatMap writeCd).length w.pos (w.pos + (w.done.flatMap writeCd).length)
      else []) ++ eocdRecord w.done.length (w.done.flatMap writeCd).length w.pos := by
  unfold ZipWriter.finish at finished
  split at finished
  · cases (Prod.mk.inj finished).1
  · rename_i idle
    obtain ⟨_, rfl⟩ := Prod.mk.inj finished
    exact ⟨by simpa using idle, rfl⟩

def directorySize (done : List Written) : Nat := (done.map fun e => 46 + e.name.length + if e.zip64 then 28 else 0).sum

theorem directory_length (done : List Written) : (done.flatMap writeCd).length = directorySize done := by
  rw [List.length_flatMap, directorySize]
  congr 1
  apply List.map_congr_left
  intro e _
  rw [writeCd_length, extra_length]

theorem length_le_directorySize (done : List Written) : done.length ≤ directorySize done := by
  induction done with
  | nil => exact Nat.le_refl _
  | cons e done ih =>
    rw [directorySize] at ih ⊢
    rw [List.length_cons, List.map_cons, List.sum_cons]
    omega

/-- The local header leads to the data. -/
theorem Placed.dataOffset {file data : Bytes} {m : Member} (placed : Placed level file m data)
    (small : file.length < 2 ^ 63) : Zip.dataOffset file m.offset = .ok m.start := by
  obtain ⟨rest, header⟩ := placed.header
  have fields : localFields level m.entry = [u32 localSig,
      u16 (if isZip64Entry m.entry then versionZip64 else versionBase), u16 (entryFlags m.entry).toNat,
      u16 (entryMethod level m.entry).toNat, u16 (dosDatetime m.entry.mtimeMs).1.toNat,
      u16 (dosDatetime m.entry.mtimeMs).2.toNat, u32 0, u32 (if isZip64Entry m.entry then u32Max else 0),
      u32 (if isZip64Entry m.entry then u32Max else 0), u16 (entryName m.entry).length,
      u16 (localExtra m.entry).length] := rfl
  have front : (puts (localFields level m.entry)).length = 30 := by
    rw [puts_length, fields]
    rfl
  have length : (localHeader level m.entry).length = 30 + (entryName m.entry).length + (localExtra m.entry).length := by
    rw [localHeader, List.length_append, List.length_append, front, Nat.add_assoc]
  rw [localHeader, List.append_assoc] at header
  have read {i width value off : Nat} (there : (localFields level m.entry)[i]? = some (width, value))
      (before : widths ((localFields level m.entry).take i) = off) (inside : off + width ≤ 30) :
      leNat (slice (slice file m.offset 30) off width) = value % 256 ^ width := by
    rw [slice_slice inside, ← slice_drop, ← header, leNat_puts _ there before]
  have nameLen : le16 (slice file m.offset 30) 26 = (entryName m.entry).length := by
    have fits := placed.name
    rw [fields] at read
    refine (@read 9 2 _ 26 rfl rfl (by decide)).trans (Nat.mod_eq_of_lt ?_)
    exact Nat.lt_of_le_of_lt fits (by decide)
  have extraLen : le16 (slice file m.offset 30) 28 = (localExtra m.entry).length := by
    rw [fields] at read
    refine (@read 10 2 _ 28 rfl rfl (by decide)).trans (Nat.mod_eq_of_lt ?_)
    unfold localExtra
    split
    · rw [puts_length]
      decide
    · decide
  have sig : slice (slice file m.offset 30) 0 4 = sigLocal := by
    rw [slice_slice (by decide), ← slice_drop, ← header, fields]
    rfl
  have start := placed.start
  have inside := placed.inside
  rw [Zip.dataOffset, readExact_eq (by omega)]
  dsimp only
  rw [if_neg (not_not.mpr sig), nameLen, extraLen, if_neg (by omega), if_neg (by omega)]
  congr 1
  omega

/-- An archive reads as these entries, by a directory that is located at `eocd`. -/
structure Reads (codec : Codec) (level : Nat) (file : Bytes) (members : List Member) (eocd : Eocd) : Prop where
  located : locateEocd file = .ok eocd
  count : eocd.count = members.length
  parsed : parseCd collect file eocd [] =
    .ok (⟨members.length, 0⟩, members.map fun m => (m.written codec level).entry)
  data : ∀ m ∈ members, dataOffset file m.offset = .ok m.start ∧
    slice file m.start (m.data codec level).length = m.data codec level

/-- The directory of a finished run, and the line that its end draws. -/
structure Finished (codec : Codec) (level : Nat) (s : Session codec) (file : Bytes) : Prop where
  sound : Sound codec level s
  whole : file = s.file ++ s.writer.done.flatMap writeCd ++ (if needs64 s.writer.done (directorySize s.writer.done) s.writer.pos
    then zip64Tail s.writer.done.length (directorySize s.writer.done) s.writer.pos
      (s.writer.pos + directorySize s.writer.done) else []) ++
    eocdRecord s.writer.done.length (directorySize s.writer.done) s.writer.pos
  small : file.length < 2 ^ 63
  sizes : ∀ m ∈ s.members, m.chunks.flatten.length < 2 ^ 63

theorem Run.finished {s : Session codec} {w : ZipWriter codec} (run : Run codec level s)
    (finished : s.writer.finish = (.ok (), w)) (small : (s.sent ++ w.out).length < 2 ^ 63)
    (sizes : ∀ m ∈ s.members, m.chunks.flatten.length < 2 ^ 63) : Finished codec level s (s.sent ++ w.out) where
  sound := run.sound
  whole := by
    rw [(finish_ok finished).2, directory_length, Session.file]
    simp only [List.append_assoc]
  small := small
  sizes := sizes

namespace Finished

variable {s : Session codec} {file : Bytes}

theorem pos (finished : Finished codec level s file) : s.writer.pos = s.file.length := by
  rw [ZipWriter.pos, finished.sound.delivered, Session.file, List.length_append]

/-- What was put out before the directory stays where it is. -/
theorem placed (finished : Finished codec level s file) {m : Member} (member : m ∈ s.members) :
    Placed level file m (m.data codec level) := by
  rw [finished.whole, List.append_assoc, List.append_assoc]
  exact (finished.sound.placed m member).append _

theorem fits (finished : Finished codec level s file) : ∀ e ∈ s.writer.done, e.Fits := by
  intro e member
  rw [finished.sound.done] at member
  obtain ⟨m, inside, rfl⟩ := List.mem_map.mp member
  have placed := finished.placed inside
  have start := placed.start
  have within := placed.inside
  have small := finished.small
  have body := placed.body.length_le
  rw [List.length_drop] at body
  refine ⟨placed.name, ?_, ?_, ?_⟩
  · show (m.data codec level).length < 2 ^ 64
    omega
  · exact Nat.lt_trans (finished.sizes m inside) (by decide)
  · show m.offset < 2 ^ 64
    omega

theorem directory (finished : Finished codec level s file) : ∃ tail,
    file.drop s.writer.pos = s.writer.done.flatMap writeCd ++ tail := by
  rw [finished.whole, finished.pos, List.append_assoc, List.append_assoc, List.drop_left]
  exact ⟨_, rfl⟩

theorem ends (finished : Finished codec level s file) : Ends file s.writer.done.length (directorySize s.writer.done) s.writer.pos
    (needs64 s.writer.done (directorySize s.writer.done) s.writer.pos) := by
  have length : file.length = s.writer.pos + directorySize s.writer.done +
      (if needs64 s.writer.done (directorySize s.writer.done) s.writer.pos then 76 else 0) + 22 := by
    rw [finished.whole, List.length_append, List.length_append, List.length_append, directory_length, finished.pos]
    congr 1
    congr 1
    split
    · rw [zip64Tail_length]
    · rfl
  refine ⟨?_, finished.small, length, ?_⟩
  · have few := length_le_directorySize s.writer.done
    have small := finished.small
    omega
  · have front : (s.file ++ s.writer.done.flatMap writeCd).length = s.writer.pos + directorySize s.writer.done := by
      rw [List.length_append, directory_length, finished.pos]
    rw [← front]
    rw [finished.whole, List.append_assoc _ _ (eocdRecord _ _ _), List.drop_left, front]

/-- The walk over the directory that was written. -/
theorem parsed (finished : Finished codec level s file) :
    parseCd collect file ⟨s.writer.done.length, s.writer.pos, directorySize s.writer.done⟩ [] =
      .ok (⟨s.writer.done.length, s.writer.done.countP fun e => !e.readable⟩,
        (s.writer.done.filter Written.readable).map Written.entry) := by
  obtain ⟨tail, there⟩ := finished.directory
  have walked := parseFrom_written finished.fits there ⟨0, 0⟩ []
  rw [directory_length] at walked
  rw [parseCd]
  simpa only [Nat.zero_add, List.nil_append] using walked

end Finished

/-- The writer and the reader draw their lines in the same places. -/
structure Agrees (w : ZipWriter codec) : Prop where
  entries : ∀ e ∈ w.done, e.marked → e.zip64
  tail : needs64 w.done (directorySize w.done) w.pos = marks w.done.length (directorySize w.done) w.pos

theorem Finished.reads_iff {s : Session codec} {file : Bytes} (finished : Finished codec level s file) :
    Reads codec level file s.members ⟨s.writer.done.length, s.writer.pos, directorySize s.writer.done⟩ ↔
      Agrees s.writer := by
  have count : s.writer.done.length = s.members.length := by rw [finished.sound.done, List.length_map]
  constructor
  · intro reads
    refine ⟨fun e member marked => ?_, finished.ends.agree reads.located⟩
    have same := Except.ok.inj (finished.parsed.symm.trans reads.parsed)
    have none : s.writer.done.countP (fun e => !e.readable) = 0 := congrArg (fun p => p.1.hostileSkipped) same
    have readable := List.countP_eq_zero.mp none e member
    simpa [Written.readable, marked] using readable
  · intro agrees
    have readable : ∀ e ∈ s.writer.done, e.readable := by
      intro e member
      cases marked : e.marked with
      | false => simp [Written.readable, marked]
      | true => simp [Written.readable, agrees.entries e member marked]
    have none : s.writer.done.countP (fun e => !e.readable) = 0 := by
      rw [List.countP_eq_zero]
      intro e member
      simp [readable e member]
    refine ⟨finished.ends.located agrees.tail, count, ?_, fun m member => ?_⟩
    · rw [finished.parsed, none, List.filter_eq_self.mpr readable, count, finished.sound.done, List.map_map]
      rfl
    · have placed := finished.placed member
      refine ⟨placed.dataOffset finished.small, ?_⟩
      obtain ⟨rest, body⟩ := placed.body
      rw [slice, ← body, List.take_left]

/-- After any run that finishes, the archive is read as the entries of the run, by the
directory that was written, if and only if no value is all ones by accident and the end is
zip64's exactly where it reads so. A refused entry changes nothing. -/
theorem written_is_read {s : Session codec} {w : ZipWriter codec} (run : Run codec level s)
    (finished : s.writer.finish = (.ok (), w)) (small : (s.sent ++ w.out).length < 2 ^ 63)
    (sizes : ∀ m ∈ s.members, m.chunks.flatten.length < 2 ^ 63) :
    (Reads codec level (s.sent ++ w.out) s.members
      ⟨s.writer.done.length, s.writer.pos, directorySize s.writer.done⟩ ↔ Agrees s.writer) ∧
    ∀ entry e w', s.writer.begin entry = (.error e, w') → w' = s.writer :=
  ⟨(run.finished finished small sizes).reads_iff, fun _ _ _ refused => begin_error refused⟩

/-! Runs for examples. -/

/-- The remainder of a byte more, bit by bit. -/
def crcByte (crc : UInt32) (b : UInt8) : UInt32 :=
  (List.range 8).foldl (fun crc _ => if crc &&& 1 = 1 then (crc >>> 1) ^^^ 0xEDB88320 else crc >>> 1) (crc ^^^ b.toUInt32)

/-- A compressor that puts everything in one stored block, and the checksum. -/
def sampleCodec : Codec where
  Encoder := Bytes
  new _ := []
  write held chunk := (held ++ chunk, [])
  finish held := 1 :: (leBytes 2 held.length ++ leBytes 2 (65535 - held.length) ++ held)
  Crc := UInt32
  crcNew := 0xFFFFFFFF
  crcUpdate := List.foldl crcByte
  crcSum crc := ~~~crc

def sampleFile : PackEntry := ⟨[0x61], 3, false, none, none⟩

def opened : ZipWriter sampleCodec := ((ZipWriter.new 0).begin sampleFile).2

/-- The writer after one stored entry. -/
def stored (chunk : Bytes) : ZipWriter sampleCodec := (opened.data chunk).2.end_.2

theorem stored_run (chunk : Bytes) : Run sampleCodec 0 ⟨stored chunk, [], [⟨sampleFile, [chunk], 0, opened.pos⟩], none⟩ := by
  have first : (ZipWriter.new 0 : ZipWriter sampleCodec).begin sampleFile = (.ok (), opened) := rfl
  have second : opened.data chunk = (.ok (), (opened.data chunk).2) := rfl
  have third : (opened.data chunk).2.end_ = (.ok (), stored chunk) := rfl
  exact ((Run.new.begin first).data second).end_ third

/-- Three bytes are stored and read. -/
theorem written_is_read_stored : Reads sampleCodec 0 ((stored [1, 2, 3]).finish.2.out)
    [⟨sampleFile, [[1, 2, 3]], 0, opened.pos⟩] ⟨1, 50, 47⟩ := by
  have finished : (stored [1, 2, 3]).finish = (.ok (), (stored [1, 2, 3]).finish.2) := rfl
  refine (written_is_read (stored_run [1, 2, 3]) finished ?_ ?_).1.mpr ⟨?_, ?_⟩
  · decide +kernel
  · simp
  · decide +kernel
  · decide +kernel

theorem descriptor_length (zip64 : Bool) (crc : UInt32) (comp uncomp : Nat) :
    (ZipWriter.descriptor zip64 crc comp uncomp).length ≤ 24 := by
  rw [ZipWriter.descriptor, puts_length]
  cases zip64 with
  | true => exact Nat.le_refl 24
  | false => exact Nat.le_add_right 16 8

/-- The sizes of the writer after one stored entry. -/
theorem stored_sizes (chunk : Bytes) : ∃ e, (stored chunk).done = [e] ∧ e.compSize = chunk.length ∧
    e.uncompSize = chunk.length ∧ e.offset = 0 ∧ e.name.length = 1 ∧ chunk.length + 31 ≤ (stored chunk).pos ∧
    (stored chunk).pos ≤ chunk.length + 55 := by
  obtain ⟨zip64, crc, comp, uncomp, out⟩ : ∃ zip64 crc comp uncomp,
    (stored chunk).out = opened.out ++ chunk ++ [] ++ ZipWriter.descriptor zip64 crc comp uncomp := ⟨_, _, _, _, rfl⟩
  have pos : (stored chunk).pos = 0 + (stored chunk).out.length := rfl
  have front : opened.out.length = 31 := by decide
  have more := descriptor_length zip64 crc comp uncomp
  rw [out, List.append_nil, List.length_append, List.length_append, front] at pos
  refine ⟨_, rfl, ?_, ?_, rfl, rfl, by omega, by omega⟩
  · show 0 + chunk.length + 0 = _
    omega
  · exact Nat.zero_add _

/-- A stored file of 2^32 − 1 bytes is left out when its archive is read. -/
theorem largest_file_is_left_out : ¬∀ (codec : Codec) (level : Nat) (s : Session codec) (w : ZipWriter codec),
    Run codec level s → s.writer.finish = (.ok (), w) → (s.sent ++ w.out).length < 2 ^ 63 →
    (∀ m ∈ s.members, m.chunks.flatten.length < 2 ^ 63) →
    ∃ eocd, Reads codec level (s.sent ++ w.out) s.members eocd := by
  intro claim
  obtain ⟨chunk, length⟩ : ∃ chunk : Bytes, chunk.length = 4294967295 := ⟨List.replicate 4294967295 0, List.length_replicate⟩
  have finish : (stored chunk).finish = (.ok (), (stored chunk).finish.2) := rfl
  obtain ⟨e, done, comp, uncomp, offset, name, least, most⟩ := stored_sizes chunk
  have plain : ¬e.zip64 := by simp [Written.zip64, comp, uncomp, offset, length, u32Max]
  have directory : directorySize (stored chunk).done = 47 := by
    rw [done, directorySize, List.map_singleton, List.sum_singleton, name, if_neg plain]
  have small : ([] ++ (stored chunk).finish.2.out).length < 2 ^ 63 := by
    have out := (finish_ok finish).2
    rw [directory_length, directory] at out
    have held : (stored chunk).out.length ≤ (stored chunk).pos := Nat.le_add_left ..
    have last : (eocdRecord (stored chunk).done.length 47 (stored chunk).pos).length = 22 := by
      rw [eocdRecord, puts_length]
      rfl
    rw [List.nil_append, out, List.length_append, List.length_append, List.length_append, directory_length, directory, last]
    split
    · rw [zip64Tail_length]
      omega
    · rw [List.length_nil]
      omega
  have sizes : ∀ m ∈ [(⟨sampleFile, [chunk], 0, opened.pos⟩ : Member)], m.chunks.flatten.length < 2 ^ 63 := by
    intro m member
    rw [List.mem_singleton.mp member]
    simp [length]
  obtain ⟨eocd, reads⟩ := claim sampleCodec 0 _ _ (stored_run chunk) finish small sizes
  have finished := (stored_run chunk).finished finish small sizes
  have far : u32Max < (stored chunk).pos := by
    rw [u32Max]
    omega
  have agree : needs64 (stored chunk).done (directorySize (stored chunk).done) (stored chunk).pos =
      marks (stored chunk).done.length (directorySize (stored chunk).done) (stored chunk).pos := by
    simp [needs64, marks, far, Nat.le_of_lt far]
  obtain rfl := Except.ok.inj ((finished.ends.located agree).symm.trans reads.located)
  have agrees := finished.reads_iff.mp reads
  refine plain (agrees.entries e ?_ ?_)
  · show e ∈ (stored chunk).done
    rw [done]
    exact List.mem_singleton_self e
  · simp [Written.marked, comp, length, u32Max]

end Norte.Archive.Zip
