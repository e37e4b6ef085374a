import Norte.ZipRead
import Norte.ZipWrite

/-! The records of the directory and the end of an archive, read back. The writer and the
reader each draw a line between the classic end and zip64's; the directory is located where
the lines agree, and only there. -/
namespace Norte.Archive.Zip

open Hashing

/-! Numbers and slices. -/

theorem leNat_leBytes (width n : Nat) : leNat (leBytes width n) = n % 256 ^ width := by
  induction width generalizing n with
  | zero => simp [leBytes, leNat, Nat.mod_one]
  | succ width ih =>
    have low : (UInt8.ofNat n).toNat = n % 256 := UInt8.toNat_ofNat'
    rw [leBytes, leNat, ih, low, Nat.pow_succ', Nat.mod_mul]

theorem slice_take {b : Bytes} {m off n : Nat} (inside : off + n ≤ m) : slice (b.take m) off n = slice b off n := by
  rw [slice, slice, List.drop_take, List.take_take, Nat.min_eq_left (by omega)]

theorem slice_skip {a b : Bytes} {off n : Nat} (before : a.length ≤ off) :
    slice (a ++ b) off n = slice b (off - a.length) n := by
  rw [slice, slice, List.drop_append, List.drop_eq_nil_of_le before, List.nil_append]

theorem slice_here {a b : Bytes} {n : Nat} (whole : a.length = n) : slice (a ++ b) 0 n = a := by
  rw [slice, List.drop_zero, ← whole, List.take_left]

theorem slice_drop (b : Bytes) (k off n : Nat) : slice (b.drop k) off n = slice b (k + off) n := by
  rw [slice, slice, List.drop_drop]

def widths : List (Nat × Nat) → Nat
  | [] => 0
  | f :: fields => widths fields + f.1

theorem puts_length (fields : List (Nat × Nat)) : (puts fields).length = widths fields := by
  induction fields with
  | nil => rfl
  | cons f fields ih =>
    rw [puts, List.flatMap_cons, List.length_append, leBytes_length, widths, Nat.add_comm, ← ih]
    rfl

/-- A number is read where the widths before it add up to. -/
theorem leNat_puts {fields : List (Nat × Nat)} {i width value off : Nat} (tail : Bytes)
    (there : fields[i]? = some (width, value)) (before : widths (fields.take i) = off) :
    leNat (slice (puts fields ++ tail) off width) = value % 256 ^ width := by
  induction fields generalizing i off with
  | nil => cases there
  | cons f fields ih =>
    rw [puts, List.flatMap_cons, List.append_assoc]
    cases i with
    | zero =>
      obtain rfl := Option.some.inj there
      obtain rfl : 0 = off := before
      rw [slice_here (leBytes_length ..), leNat_leBytes]
    | succ i =>
      rw [List.take_succ_cons, widths] at before
      rw [slice_skip (by rw [leBytes_length]; omega), leBytes_length]
      exact ih there (by omega)

/-! The records of the writer. -/

theorem writeCd_length (e : Written) : (writeCd e).length = 46 + e.name.length + e.extra.length := by
  have fixed : widths e.fields = 46 := rfl
  rw [writeCd, List.length_append, puts_length, List.length_append, fixed, Nat.add_assoc]

/-- What is read at an offset of the header of a record, whatever follows the record. -/
theorem writeCd_field {e : Written} (i : Nat) {width value off : Nat} (tail : Bytes)
    (there : e.fields[i]? = some (width, value)) (before : widths (e.fields.take i) = off)
    (inside : off + width ≤ 46) (fits : value < 256 ^ width) :
    leNat (slice ((writeCd e ++ tail).take 46) off width) = value := by
  rw [slice_take inside, writeCd, List.append_assoc, leNat_puts _ there before, Nat.mod_eq_of_lt fits]

theorem puts_drop (f : Nat × Nat) (fields : List (Nat × Nat)) : (puts (f :: fields)).drop f.1 = puts fields := by
  rw [puts, List.flatMap_cons, List.drop_left' (leBytes_length ..)]
  rfl

/-- Some value is all ones by itself, which the reader takes for a mark. -/
def Written.marked (e : Written) : Bool := e.compSize = u32Max || e.uncompSize = u32Max || e.offset = u32Max

/-- The values of an entry fit the record. -/
structure Written.Fits (e : Written) : Prop where
  name : e.name.length ≤ u16Max
  comp : e.compSize < 2 ^ 64
  uncomp : e.uncompSize < 2 ^ 64
  offset : e.offset < 2 ^ 64

def Written.sizes (e : Written) : Sizes := ⟨e.compSize, e.uncompSize, e.offset⟩

def Written.fixedSizes (e : Written) : Sizes := ⟨e.fixed e.compSize, e.fixed e.uncompSize, e.fixed e.offset⟩

theorem zip64Values_written {e : Written} (fits : e.Fits) (large : e.zip64) :
    zip64Values (puts [u64 e.uncompSize, u64 e.compSize, u64 e.offset]) e.fixedSizes = some e.sizes := by
  have sentinel (v : Nat) : e.fixed v = 4294967295 := by
    rw [Written.fixed, if_pos large]
    rfl
  have value (n : Nat) (fields : List (Nat × Nat)) (small : n < 2 ^ 64) : le64 (puts (u64 n :: fields)) 0 = n := by
    have read : leNat (slice (puts (u64 n :: fields) ++ []) 0 8) = n % 256 ^ 8 := leNat_puts [] (i := 0) rfl rfl
    rw [List.append_nil] at read
    rw [le64, read]
    exact Nat.mod_eq_of_lt small
  have room (n : Nat) (fields : List (Nat × Nat)) : ¬(puts (u64 n :: fields)).length < 8 := by
    rw [puts_length, widths]
    exact Nat.not_lt.mpr (Nat.le_add_left ..)
  have next (n : Nat) (fields : List (Nat × Nat)) : (puts (u64 n :: fields)).drop 8 = puts fields := puts_drop (u64 n) fields
  simp only [zip64Values, Written.fixedSizes, sentinel, decide_true, Bool.not_true, Bool.false_eq_true, if_false, room,
    next, value _ _ fits.uncomp, value _ _ fits.comp, value _ _ fits.offset, bind, Option.bind, pure]
  rfl

/-- The extra field gives the values back, where the fixed fields mark none by accident. -/
theorem resolveExtra_written {e : Written} (fits : e.Fits) :
    resolveExtra e.extra e.fixedSizes = if e.zip64 ∨ ¬e.marked then some e.sizes else none := by
  by_cases large : e.zip64
  · have written : e.extra = puts [u16 1, u16 24] ++ puts [u64 e.uncompSize, u64 e.compSize, u64 e.offset] := by
      rw [Written.extra, if_pos large]
      rfl
    have number {i off n : Nat} (there : [u16 1, u16 24][i]? = some (2, n))
        (before : widths ([u16 1, u16 24].take i) = off) : le16 e.extra off = n % 256 ^ 2 := by
      rw [written]
      exact leNat_puts _ there before
    have id : le16 e.extra 0 = 1 := number (i := 0) rfl rfl
    have size : le16 e.extra 2 = 24 := number (i := 1) rfl rfl
    have length : e.extra.length = 28 := by
      rw [written, List.length_append, puts_length, puts_length]
      rfl
    have body : slice e.extra 4 24 = puts [u64 e.uncompSize, u64 e.compSize, u64 e.offset] := by
      have front : (puts [u16 1, u16 24]).length = 4 := puts_length _
      rw [written, slice_skip (Nat.le_of_eq front), front, slice, Nat.sub_self, List.drop_zero]
      exact List.take_of_length_le (Nat.le_of_eq (puts_length _))
    have ended : extraRecords (e.extra.drop 28) e.fixedSizes (some e.sizes) = some (some e.sizes) := by
      rw [extraRecords, if_pos (by rw [List.length_drop, length]; decide)]
    have first : extraRecords e.extra e.fixedSizes none = some (some e.sizes) := by
      rw [extraRecords, if_neg (by rw [length]; decide)]
      simp only [id, size, length, body, zip64Values_written fits large, ended]
      rfl
    simp only [resolveExtra, first, large, true_or, if_true]
  · have none_ : e.extra = [] := by rw [Written.extra, if_neg large]
    have low (v : Nat) (small : v ≤ u32Max) : e.fixed v = v := by
      rw [Written.fixed, if_neg large, Nat.min_eq_left small]
    obtain ⟨comp, uncomp, off⟩ : e.compSize ≤ u32Max ∧ e.uncompSize ≤ u32Max ∧ e.offset ≤ u32Max := by
      simpa [Written.zip64, and_assoc] using large
    have ended : extraRecords [] e.sizes none = some none := by
      rw [extraRecords, if_pos (by decide)]
    have plain : e.fixedSizes = e.sizes := by
      rw [Written.fixedSizes, low _ comp, low _ uncomp, low _ off, Written.sizes]
    rw [none_, plain, resolveExtra, ended]
    simp only [large, Bool.false_eq_true, false_or, Written.marked, Written.sizes, ite_not]
    rfl

/-! The directory. -/

def Written.readable (e : Written) : Bool := e.zip64 || !e.marked

/-- The entry that the reader makes of a record. -/
def Written.entry (e : Written) : CdEntry :=
  ⟨e.name, e.flags, e.method, e.crc, UInt64.ofNat e.compSize, UInt64.ofNat e.uncompSize, UInt64.ofNat e.offset,
    dosPairToMs e.dosTime e.dosDate⟩

/-- The caller that keeps what it is handed. -/
theorem extra_length (e : Written) : e.extra.length = if e.zip64 then 28 else 0 := by
  unfold Written.extra
  split
  · rfl
  · rfl

def collect (entries : List CdEntry) (entry : CdEntry) : Except Error (List CdEntry) := .ok (entries ++ [entry])

theorem fixed_lt (e : Written) (v : Nat) : e.fixed v < 256 ^ 4 := by
  unfold Written.fixed u32Max
  split
  · decide
  · omega

/-- One round of the walk. -/
theorem parseFrom_record {e : Written} (fits : e.Fits) {file tail : Bytes} {pos limit : Nat}
    (there : file.drop pos = writeCd e ++ tail) (room : (writeCd e).length ≤ limit) (stats : ParseStats)
    (entries : List CdEntry) :
    parseFrom collect file pos limit stats entries =
      if e.readable then
        parseFrom collect file (pos + (writeCd e).length) (limit - (writeCd e).length)
          ⟨stats.parsed + 1, stats.hostileSkipped⟩ (entries ++ [e.entry])
      else parseFrom collect file (pos + (writeCd e).length) (limit - (writeCd e).length)
        ⟨stats.parsed + 1, stats.hostileSkipped + 1⟩ entries := by
  have length := writeCd_length e
  have inside : pos + (writeCd e).length ≤ file.length := by
    have total := congrArg List.length there
    rw [List.length_drop, List.length_append] at total
    omega
  have header : slice file pos 46 = (writeCd e ++ tail).take 46 := by rw [slice, there]
  have sig : slice (slice file pos 46) 0 4 = sigCdEntry := by
    rw [header, slice_take (by decide), writeCd, List.append_assoc]
    rfl
  have field (i : Nat) {width value off : Nat} (at_ : e.fields[i]? = some (width, value))
      (before : widths (e.fields.take i) = off) (within : off + width ≤ 46) (small : value < 256 ^ width) :
      leNat (slice (slice file pos 46) off width) = value := by
    rw [header]
    exact writeCd_field i tail at_ before within small
  have flags : le16 (slice file pos 46) 8 = e.flags.toNat := field 3 rfl rfl (by decide) e.flags.toNat_lt
  have method : le16 (slice file pos 46) 10 = e.method.toNat := field 4 rfl rfl (by decide) e.method.toNat_lt
  have dosTime : le16 (slice file pos 46) 12 = e.dosTime.toNat := field 5 rfl rfl (by decide) e.dosTime.toNat_lt
  have dosDate : le16 (slice file pos 46) 14 = e.dosDate.toNat := field 6 rfl rfl (by decide) e.dosDate.toNat_lt
  have crc : le32 (slice file pos 46) 16 = e.crc.toNat := field 7 rfl rfl (by decide) e.crc.toNat_lt
  have comp : le32 (slice file pos 46) 20 = e.fixed e.compSize := field 8 rfl rfl (by decide) (fixed_lt ..)
  have uncomp : le32 (slice file pos 46) 24 = e.fixed e.uncompSize := field 9 rfl rfl (by decide) (fixed_lt ..)
  have off : le32 (slice file pos 46) 42 = e.fixed e.offset := field 16 rfl rfl (by decide) (fixed_lt ..)
  have comment : le16 (slice file pos 46) 32 = 0 := field 12 rfl rfl (by decide) (by decide)
  have nameLen : le16 (slice file pos 46) 28 = e.name.length := by
    have small := fits.name
    have read : le16 (slice file pos 46) 28 = min e.name.length u16Max :=
      field 10 rfl rfl (by decide) (Nat.lt_of_le_of_lt (Nat.min_le_right ..) (by decide))
    rw [read, Nat.min_eq_left small]
  have extraLen : le16 (slice file pos 46) 30 = e.extra.length := by
    refine field 11 rfl rfl (by decide) ?_
    rw [extra_length]
    split
    · decide
    · decide
  have front : (puts e.fields).length = 46 := puts_length _
  have name : slice file (pos + 46) e.name.length = e.name := by
    rw [← slice_drop, there, writeCd, List.append_assoc, slice_skip (Nat.le_of_eq front), front, Nat.sub_self,
      List.append_assoc, slice_here rfl]
  have extra : slice file (pos + 46 + e.name.length) e.extra.length = e.extra := by
    rw [Nat.add_assoc, ← slice_drop, there, writeCd, List.append_assoc, slice_skip (by omega), front,
      Nat.add_sub_cancel_left, List.append_assoc, slice_skip (Nat.le_refl _), Nat.sub_self, slice_here rfl]
  rw [parseFrom, if_neg (by omega), dif_neg (by omega)]
  dsimp only
  rw [if_neg (not_not.mpr sig)]
  simp only [flags, method, dosTime, dosDate, crc, comp, uncomp, off, comment, nameLen, extraLen, name, extra, Nat.add_zero,
    ← length]
  rw [if_neg (by omega)]
  have resolved := resolveExtra_written fits
  rw [Written.fixedSizes] at resolved
  by_cases readable : e.readable
  · have fine : e.zip64 ∨ ¬e.marked := by simpa [Written.readable] using readable
    rw [resolved, if_pos fine, if_pos readable]
    simp only [collect, Written.sizes, UInt16.ofNat_toNat, UInt32.ofNat_toNat]
    rfl
  · have hostile : ¬(e.zip64 ∨ ¬e.marked) := by simpa [Written.readable] using readable
    rw [resolved, if_neg hostile, if_neg readable]

/-- The walk over the records of a directory. -/
theorem parseFrom_written {done : List Written} (fits : ∀ e ∈ done, e.Fits) {file tail : Bytes} {pos : Nat}
    (there : file.drop pos = done.flatMap writeCd ++ tail) (stats : ParseStats) (entries : List CdEntry) :
    parseFrom collect file pos (done.flatMap writeCd).length stats entries =
      .ok (⟨stats.parsed + done.length, stats.hostileSkipped + done.countP fun e => !e.readable⟩,
        entries ++ (done.filter Written.readable).map Written.entry) := by
  induction done generalizing pos stats entries with
  | nil =>
    have ended : parseFrom collect file pos 0 stats entries = .ok (stats, entries) := by rw [parseFrom, if_pos rfl]
    rw [List.flatMap_nil, List.length_nil, ended]
    simp
  | cons e done ih =>
    rw [List.flatMap_cons, List.append_assoc] at there
    have later : file.drop (pos + (writeCd e).length) = done.flatMap writeCd ++ tail := by
      rw [← List.drop_drop, there, List.drop_left]
    have round := ih (fun e member => fits e (List.mem_cons_of_mem _ member)) later
    rw [List.flatMap_cons, List.length_append, parseFrom_record (fits e List.mem_cons_self) there (Nat.le_add_right ..),
      Nat.add_sub_cancel_left, round, round]
    cases readable : e.readable with
    | true => simp [readable, Nat.add_assoc, Nat.add_comm 1]
    | false => simp [readable, Nat.add_assoc, Nat.add_comm 1]

/-! The search for the end. -/

theorem find_last {holds : Nat → Bool} {m k : Nat} (found : (List.range m).reverse.find? holds = some k) :
    ∀ q, k < q → q < m → holds q = false := by
  induction m with
  | zero => exact fun q _ none => absurd none (Nat.not_lt_zero q)
  | succ m ih =>
    intro q later inside
    rw [List.range_succ, List.reverse_append, List.reverse_singleton, List.singleton_append, List.find?_cons] at found
    cases last : holds m with
    | true =>
      rw [last] at found
      obtain rfl := Option.some.inj found
      omega
    | false =>
      rw [last] at found
      rcases Nat.lt_or_eq_of_le (Nat.le_of_lt_succ inside) with before | rfl
      · exact ih found q later before
      · exact last

theorem rposition_some {buf : Bytes} {search pos : Nat} (found : rposition buf search = some pos) :
    slice buf pos 4 = sigEocd ∧ ∀ q, pos < q → q + 3 < search → slice buf q 4 ≠ sigEocd := by
  refine ⟨by simpa using List.find?_some found, fun q later inside => ?_⟩
  simpa using find_last found q later (by omega)

theorem rposition_none {buf : Bytes} {search : Nat} (none : rposition buf search = none) {q : Nat}
    (inside : q + 3 < search) : slice buf q 4 ≠ sigEocd := by
  have missed := List.find?_eq_none.mp none q (List.mem_reverse.mpr (List.mem_range.mpr (by omega)))
  simpa using missed

theorem slice_getElem? {b : Bytes} {off n i : Nat} (inside : i < n) : (slice b off n)[i]? = b[off + i]? := by
  rw [slice, List.getElem?_take_of_lt inside, List.getElem?_drop]

/-- Two signatures do not overlap. -/
theorem sigEocd_apart {b : Bytes} {p q : Nat} (first : slice b p 4 = sigEocd) (second : slice b q 4 = sigEocd)
    (before : p < q) : p + 4 ≤ q := by
  have at_ (i : Nat) (small : i < 4) : b[p + i]? = sigEocd[i]? := by rw [← slice_getElem? small, first]
  have other : b[q]? = some 0x50 := by
    have lead := @slice_getElem? b q 4 0 (by decide)
    rw [second] at lead
    exact lead.symm
  by_contra near
  obtain rfl | rfl | rfl : q = p + 1 ∨ q = p + 2 ∨ q = p + 3 := by omega
  · rw [at_ 1 (by decide)] at other
    cases other
  · rw [at_ 2 (by decide)] at other
    cases other
  · rw [at_ 3 (by decide)] at other
    cases other

/-- The last candidate that is taken for something is what is located. -/
theorem locateFrom_last {file buf : Bytes} {start p : Nat} {eocd : Eocd} (sig : slice buf p 4 = sigEocd)
    (taken : candidate file buf start p = some eocd)
    (late : ∀ q, p < q → slice buf q 4 = sigEocd → candidate file buf start q = none) {search : Nat}
    (room : p + 4 ≤ search) : locateFrom file buf start search = .ok eocd := by
  induction search using Nat.strong_induction_on with
  | _ search ih =>
    rw [locateFrom]
    split
    · rename_i none
      exact absurd sig (rposition_none none (by omega))
    · rename_i q found
      obtain ⟨here, last⟩ := rposition_some found
      have inside := rposition_lt found
      rcases Nat.lt_trichotomy p q with before | rfl | after
      · simp only [late q before here]
        exact ih q (by omega) (sigEocd_apart sig here before)
      · simp only [taken]
      · exact absurd sig (last p after (by omega))

/-- What is located is what some candidate is taken for. -/
theorem locateFrom_ok {file buf : Bytes} {start search : Nat} {eocd : Eocd}
    (located : locateFrom file buf start search = .ok eocd) :
    ∃ p, slice buf p 4 = sigEocd ∧ candidate file buf start p = some eocd := by
  induction search using Nat.strong_induction_on with
  | _ search ih =>
    rw [locateFrom] at located
    split at located
    · cases located
    · rename_i q found
      split at located
      · rename_i e taken
        obtain rfl := Except.ok.inj located
        exact ⟨q, (rposition_some found).1, taken⟩
      · exact ih q (by have := rposition_lt found; omega) located

/-- Candidates are at the same places of the file. -/
theorem candidate_drop {file : Bytes} {start p : Nat} (within : start ≤ file.length) :
    candidate file (file.drop start) start p = candidate file file 0 (start + p) := by
  have outside : p + 22 > (file.drop start).length ↔ start + p + 22 > file.length := by
    rw [List.length_drop]
    omega
  simp only [candidate, le16, le32, slice_drop, outside, Nat.zero_add, Nat.add_assoc]

/-- What the candidates of the whole file are taken for decides, from the back. -/
theorem locateEocd_last {file : Bytes} {p : Nat} {eocd : Eocd} (recent : file.length ≤ p + (22 + 65535))
    (sig : slice file p 4 = sigEocd) (taken : candidate file file 0 p = some eocd)
    (late : ∀ q, p < q → slice file q 4 = sigEocd → candidate file file 0 q = none) :
    locateEocd file = .ok eocd := by
  have inside : p + 22 ≤ file.length := by
    by_contra outside
    rw [candidate, if_pos (by omega)] at taken
    cases taken
  rw [locateEocd]
  generalize first : file.length - (22 + 65535) = start
  have within : start ≤ file.length := by omega
  have place : start + (p - start) = p := by omega
  apply locateFrom_last (p := p - start)
  · rw [slice_drop, place]
    exact sig
  · rw [candidate_drop within, place]
    exact taken
  · intro q later here
    rw [candidate_drop within]
    rw [slice_drop] at here
    exact late (start + q) (by omega) here
  · rw [List.length_drop]
    omega

theorem locateEocd_ok {file : Bytes} {eocd : Eocd} (located : locateEocd file = .ok eocd) :
    ∃ p, slice file p 4 = sigEocd ∧ candidate file file 0 p = some eocd := by
  obtain ⟨p, sig, taken⟩ := locateFrom_ok located
  rw [candidate_drop (by omega)] at taken
  rw [slice_drop] at sig
  exact ⟨_, sig, taken⟩

/-! The end of an archive. -/

/-- The fields of the last record that read as if the values were in zip64's. -/
def marks (n cdSize cdOffset : Nat) : Bool := n ≥ u16Max || cdSize ≥ u32Max || cdOffset ≥ u32Max

/-- A file that ends as the writer ends it. -/
structure Ends (file : Bytes) (n cdSize cdOffset : Nat) (zip64 : Bool) : Prop where
  count : n < 2 ^ 63
  small : file.length < 2 ^ 63
  length : file.length = cdOffset + cdSize + (if zip64 then 76 else 0) + 22
  tail : file.drop (cdOffset + cdSize) =
    (if zip64 then zip64Tail n cdSize cdOffset (cdOffset + cdSize) else []) ++ eocdRecord n cdSize cdOffset

variable {file : Bytes} {n cdSize cdOffset : Nat} {zip64 : Bool}

theorem zip64Tail_length (n cdSize cdOffset eocd64 : Nat) : (zip64Tail n cdSize cdOffset eocd64).length = 76 := by
  rw [zip64Tail, List.length_append, puts_length, puts_length]
  rfl

theorem Ends.eocd (ends : Ends file n cdSize cdOffset zip64) :
    file.drop (file.length - 22) = eocdRecord n cdSize cdOffset := by
  have front : file.length - 22 = cdOffset + cdSize + (if zip64 then 76 else 0) := by
    rw [ends.length]
    exact Nat.add_sub_cancel _ 22
  rw [front, ← List.drop_drop, ends.tail]
  cases zip64 with
  | true => exact List.drop_left' (zip64Tail_length ..)
  | false => rfl

/-- What the last record says, where it ends the file. -/
theorem Ends.fields (ends : Ends file n cdSize cdOffset zip64) :
    slice file (file.length - 22) 4 = sigEocd ∧ le16 file (file.length - 22 + 10) = min n u16Max ∧
    le32 file (file.length - 22 + 12) = min cdSize u32Max ∧ le32 file (file.length - 22 + 16) = min cdOffset u32Max := by
  have read {i width value off : Nat} (there : [u32 eocdSig, u16 0, u16 0, u16 (min n u16Max), u16 (min n u16Max),
        u32 (min cdSize u32Max), u32 (min cdOffset u32Max), u16 0][i]? = some (width, value))
      (before : widths ([u32 eocdSig, u16 0, u16 0, u16 (min n u16Max), u16 (min n u16Max),
        u32 (min cdSize u32Max), u32 (min cdOffset u32Max), u16 0].take i) = off) :
      leNat (slice file (file.length - 22 + off) width) = value % 256 ^ width := by
    rw [← slice_drop, ends.eocd, eocdRecord, ← List.append_nil (puts _)]
    exact leNat_puts _ there before
  refine ⟨?_, ?_, ?_, ?_⟩
  · rw [← Nat.add_zero (file.length - 22), ← slice_drop, ends.eocd]
    rfl
  · refine (read (i := 4) rfl rfl).trans (Nat.mod_eq_of_lt ?_)
    exact Nat.lt_of_le_of_lt (Nat.min_le_right ..) (by decide)
  · refine (read (i := 5) rfl rfl).trans (Nat.mod_eq_of_lt ?_)
    exact Nat.lt_of_le_of_lt (Nat.min_le_right ..) (by decide)
  · refine (read (i := 6) rfl rfl).trans (Nat.mod_eq_of_lt ?_)
    exact Nat.lt_of_le_of_lt (Nat.min_le_right ..) (by decide)

/-- What the candidate at the end is taken for. -/
theorem Ends.candidate (ends : Ends file n cdSize cdOffset zip64) :
    Zip.candidate file file 0 (file.length - 22) =
      if marks n cdSize cdOffset then readZip64 file (file.length - 22)
      else if zip64 then none else some ⟨n, cdOffset, cdSize⟩ := by
  obtain ⟨_, count, size, offset⟩ := ends.fields
  have length := ends.length
  rw [Zip.candidate, if_neg (by omega)]
  simp only [count, size, offset, Nat.zero_add]
  by_cases marked : marks n cdSize cdOffset
  · have large : n ≥ 65535 ∨ cdSize ≥ 4294967295 ∨ cdOffset ≥ 4294967295 := by
      simpa [marks, u16Max, u32Max, or_assoc] using marked
    rw [if_pos marked, u16Max, u32Max, if_pos (by omega)]
  · obtain ⟨few, small, near⟩ : n < 65535 ∧ cdSize < 4294967295 ∧ cdOffset < 4294967295 := by
      simpa [marks, u16Max, u32Max, and_assoc] using marked
    rw [if_neg marked, u16Max, u32Max, Nat.min_eq_left (by omega), Nat.min_eq_left (by omega),
      Nat.min_eq_left (by omega), if_neg (by omega)]
    cases zip64 with
    | true =>
      simp only [if_true] at length
      rw [if_neg (by omega)]
      rfl
    | false =>
      simp only [Bool.false_eq_true, if_false] at length
      rw [if_pos (by omega)]
      rfl

theorem slice_slice {b : Bytes} {p m off n : Nat} (inside : off + n ≤ m) :
    slice (slice b p m) off n = slice b (p + off) n := by
  rw [show slice b p m = (b.drop p).take m from rfl, slice_take inside, slice_drop]

theorem readExact_eq {p m : Nat} (inside : p + m ≤ file.length) : readExact file p m = some (slice file p m) :=
  if_pos inside

/-- Behind the marks of the last record, zip64's is found. -/
theorem Ends.readZip64 (ends : Ends file n cdSize cdOffset true) :
    Zip.readZip64 file (file.length - 22) = some ⟨n, cdOffset, cdSize⟩ := by
  have length : file.length = cdOffset + cdSize + 76 + 22 := ends.length
  have tail : file.drop (cdOffset + cdSize) = zip64Tail n cdSize cdOffset (cdOffset + cdSize) ++ eocdRecord n cdSize cdOffset :=
    ends.tail
  have count := ends.count
  have small := ends.small
  rw [zip64Tail, List.append_assoc] at tail
  generalize first : [u32 eocd64Sig, u64 44, u16 versionZip64, u16 versionZip64, u32 0, u32 0, u64 n, u64 n, u64 cdSize,
    u64 cdOffset] = record at tail
  generalize second : [u32 eocd64LocSig, u32 0, u64 (cdOffset + cdSize), u32 1] = locator at tail
  have front : (puts record).length = 56 := by
    rw [puts_length, ← first]
    rfl
  have inRecord {i off value : Nat} (there : record[i]? = some (8, value)) (before : widths (record.take i) = off)
      (fits : value < 2 ^ 63) : leNat (slice file (cdOffset + cdSize + off) 8) = value := by
    rw [← slice_drop, tail, leNat_puts _ there before]
    exact Nat.mod_eq_of_lt (Nat.lt_trans fits (by decide))
  have recordSig : slice file (cdOffset + cdSize + 0) 4 = sigEocd64 := by
    rw [← slice_drop, tail, ← first]
    rfl
  have locatorSig : slice file (cdOffset + cdSize + 56 + 0) 4 = sigLocator := by
    rw [Nat.add_assoc, ← slice_drop, tail, slice_skip (Nat.le_of_eq front), front, ← second]
    rfl
  have place : leNat (slice file (cdOffset + cdSize + 56 + 8) 8) = cdOffset + cdSize := by
    rw [Nat.add_assoc, ← slice_drop, tail, slice_skip (by omega), front]
    have read : leNat (slice (puts locator ++ eocdRecord n cdSize cdOffset) 8 8) = (cdOffset + cdSize) % 256 ^ 8 := by
      rw [← second]
      exact leNat_puts (i := 2) _ rfl rfl
    rw [read]
    exact Nat.mod_eq_of_lt (by omega)
  have number : leNat (slice file (cdOffset + cdSize + 32) 8) = n := by
    rw [← first] at inRecord
    exact inRecord (i := 7) rfl rfl count
  have size : leNat (slice file (cdOffset + cdSize + 40) 8) = cdSize := by
    rw [← first] at inRecord
    exact inRecord (i := 8) rfl rfl (by omega)
  have offset : leNat (slice file (cdOffset + cdSize + 48) 8) = cdOffset := by
    rw [← first] at inRecord
    exact inRecord (i := 9) rfl rfl (by omega)
  have locatorPos : file.length - 22 - 20 = cdOffset + cdSize + 56 := by omega
  have far : 20 ≤ file.length - 22 := by omega
  simp only [Zip.readZip64, guard, far, if_true, locatorPos, bind, Option.bind, pure, le64,
    readExact_eq (show cdOffset + cdSize + 56 + 20 ≤ file.length by omega), slice_slice (show 0 + 4 ≤ 20 by decide), locatorSig,
    slice_slice (show 8 + 8 ≤ 20 by decide), place, show cdOffset + cdSize < cdOffset + cdSize + 56 by omega,
    readExact_eq (show cdOffset + cdSize + 56 ≤ file.length by omega), slice_slice (show 0 + 4 ≤ 56 by decide), recordSig,
    slice_slice (show 32 + 8 ≤ 56 by decide), slice_slice (show 40 + 8 ≤ 56 by decide),
    slice_slice (show 48 + 8 ≤ 56 by decide), number, size, offset, Nat.le_refl,
    show cdOffset + cdSize < 2 ^ 64 by omega]

/-- Where both draw the line in one place, the directory that was written is located. -/
theorem Ends.located (ends : Ends file n cdSize cdOffset zip64) (agree : zip64 = marks n cdSize cdOffset) :
    locateEocd file = .ok ⟨n, cdOffset, cdSize⟩ := by
  have length := ends.length
  refine locateEocd_last (p := file.length - 22) (by omega) ends.fields.1 ?_ fun q later _ => ?_
  · rw [ends.candidate, ← agree]
    cases zip64 with
    | true => exact ends.readZip64
    | false => rfl
  · rw [Zip.candidate, if_pos (by omega)]

theorem of_guard {holds : Prop} [Decidable holds] {u : Unit} (passed : (guard holds : Option Unit) = some u) : holds := by
  by_contra failed
  rw [guard, if_neg failed] at passed
  cases passed

theorem readExact_some {p m : Nat} {bytes : Bytes} (read : readExact file p m = some bytes) : bytes = slice file p m := by
  unfold readExact at read
  split at read
  · exact (Option.some.inj read).symm
  · cases read

/-- A candidate of zip64 has its locator before it, and the directory before both. -/
theorem readZip64_some {p : Nat} {eocd : Eocd} (read : readZip64 file p = some eocd) :
    slice file (p - 20) 4 = sigLocator ∧ eocd.cdOffset + eocd.cdSize + 20 < p := by
  unfold readZip64 at read
  obtain ⟨_, _, read⟩ := Option.bind_eq_some_iff.mp read
  obtain ⟨locator, found, read⟩ := Option.bind_eq_some_iff.mp read
  obtain ⟨_, sig, read⟩ := Option.bind_eq_some_iff.mp read
  obtain ⟨_, before, read⟩ := Option.bind_eq_some_iff.mp read
  obtain ⟨record, _, read⟩ := Option.bind_eq_some_iff.mp read
  obtain ⟨_, _, read⟩ := Option.bind_eq_some_iff.mp read
  obtain ⟨_, _, read⟩ := Option.bind_eq_some_iff.mp read
  obtain ⟨_, inside, read⟩ := Option.bind_eq_some_iff.mp read
  obtain rfl := Option.some.inj read
  have sig := of_guard sig
  have before := of_guard before
  have inside := of_guard inside
  rw [readExact_some found, slice_slice (by decide), Nat.add_zero] at sig
  exact ⟨sig, by dsimp only; omega⟩

theorem candidate_some {p : Nat} {eocd : Eocd} (taken : candidate file file 0 p = some eocd) :
    p + 22 ≤ file.length ∧ (eocd.cdOffset + eocd.cdSize = p ∨ readZip64 file p = some eocd) := by
  unfold candidate at taken
  dsimp only at taken
  split at taken
  · cases taken
  rename_i inside
  refine ⟨by omega, ?_⟩
  split at taken
  · rw [Nat.zero_add] at taken
    exact .inr taken
  · split at taken
    · rename_i consistent
      obtain rfl := Option.some.inj taken
      exact .inl (consistent.trans (Nat.zero_add p))
    · cases taken

/-! No end but the last one is taken for what was written. -/

theorem leBytes_zero (width : Nat) : leBytes width 0 = List.replicate width 0 := by
  induction width with
  | zero => rfl
  | succ width ih =>
    rw [leBytes, List.replicate_succ, ← ih]
    rfl

/-- The high bytes of a small number. -/
theorem leBytes_small {low high v : Nat} (small : v < 256 ^ low) :
    leBytes (high + low) v = leBytes low v ++ List.replicate high 0 := by
  induction low generalizing v with
  | zero =>
    obtain rfl : v = 0 := by omega
    rw [Nat.add_zero, leBytes_zero]
    rfl
  | succ low ih =>
    rw [Nat.pow_succ'] at small
    rw [← Nat.add_assoc, leBytes, ih (Nat.div_lt_of_lt_mul small)]
    rfl

/-- The tail of zip64 where no value is large. -/
theorem zip64Tail_small (few : n < 256 ^ 2) (short : cdSize < 256 ^ 4) (near : cdOffset < 256 ^ 4) (rest : Bytes) :
    zip64Tail n cdSize cdOffset (cdOffset + cdSize) ++ rest =
      leBytes 4 eocd64Sig ++ (leBytes 8 44 ++ (leBytes 2 45 ++ (leBytes 2 45 ++ (leBytes 4 0 ++ (leBytes 4 0 ++
        ((leBytes 2 n ++ List.replicate 6 0) ++ ((leBytes 2 n ++ List.replicate 6 0) ++
          ((leBytes 4 cdSize ++ List.replicate 4 0) ++ ((leBytes 4 cdOffset ++ List.replicate 4 0) ++
            (leBytes 4 eocd64LocSig ++ (leBytes 4 0 ++ ((leBytes 5 (cdOffset + cdSize) ++ List.replicate 3 0) ++
              (leBytes 4 1 ++ rest))))))))))))) := by
  have count : leBytes 8 n = leBytes 2 n ++ List.replicate 6 0 := @leBytes_small 2 6 n few
  have size : leBytes 8 cdSize = leBytes 4 cdSize ++ List.replicate 4 0 := @leBytes_small 4 4 cdSize short
  have offset : leBytes 8 cdOffset = leBytes 4 cdOffset ++ List.replicate 4 0 := @leBytes_small 4 4 cdOffset near
  have place : leBytes 8 (cdOffset + cdSize) = leBytes 5 (cdOffset + cdSize) ++ List.replicate 3 0 :=
    @leBytes_small 5 3 _ (by omega)
  rw [← count, ← size, ← offset, ← place]
  simp only [zip64Tail, puts, u16, u32, u64, versionZip64, List.flatMap_cons, List.flatMap_nil, List.append_assoc,
    List.append_nil]

/-- Where the bytes of that tail are known to be zero. -/
def zeros : List Nat :=
  [5, 6, 7, 8, 9, 10, 11, 13, 15, 16, 17, 18, 19, 20, 21, 22, 23, 26, 27, 28, 29, 30, 31, 34, 35, 36, 37, 38, 39, 44, 45, 46,
    47, 52, 53, 54, 55, 60, 69]

theorem zip64Tail_zeros (few : n < 256 ^ 2) (short : cdSize < 256 ^ 4) (near : cdOffset < 256 ^ 4) (rest : Bytes) :
    ∀ i ∈ zeros, (zip64Tail n cdSize cdOffset (cdOffset + cdSize) ++ rest)[i]? = some 0 := by
  have all : zeros.map (fun i => (zip64Tail n cdSize cdOffset (cdOffset + cdSize) ++ rest)[i]?) =
      List.replicate zeros.length (some 0) := by
    rw [zip64Tail_small few short near]
    rfl
  intro i member
  have inside := List.mem_map_of_mem (f := fun i => (zip64Tail n cdSize cdOffset (cdOffset + cdSize) ++ rest)[i]?) member
  rw [all] at inside
  exact List.eq_of_mem_replicate inside

/-- Every place of the tail where a locator could begin, but its own, has a byte that is wrong
for it or for the end 20 bytes further on. -/
theorem zeros_cover : ∀ g < 56, g = 0 ∨ g = 1 ∨ g = 2 ∨ g = 3 ∨ g = 4 ∨ g = 12 ∨ g = 14 ∨
    (∃ j < 4, g + j ∈ zeros) ∨ ∃ j < 4, g + 20 + j ∈ zeros := by
  decide

/-- Where no value of zip64's tail is large, no other locator and end hide in it. -/
theorem Ends.alone (ends : Ends file n cdSize cdOffset true) (plain : ¬marks n cdSize cdOffset) {g : Nat}
    (positive : 0 < g) (inside : g < 56) (locator : slice file (cdOffset + cdSize + g) 4 = sigLocator)
    (eocd : slice file (cdOffset + cdSize + (g + 20)) 4 = sigEocd) : False := by
  obtain ⟨few, short, near⟩ : n < 256 ^ 2 ∧ cdSize < 256 ^ 4 ∧ cdOffset < 256 ^ 4 := by
    simp only [marks, u16Max, u32Max, ge_iff_le, Bool.or_eq_true, decide_eq_true_eq] at plain
    omega
  have tail : file.drop (cdOffset + cdSize) = zip64Tail n cdSize cdOffset (cdOffset + cdSize) ++ eocdRecord n cdSize cdOffset :=
    ends.tail
  have zero := zip64Tail_zeros few short near (eocdRecord n cdSize cdOffset)
  have known := zip64Tail_small few short near (eocdRecord n cdSize cdOffset)
  rw [← tail] at zero known
  have loc {j : Nat} (small : j < 4) : (file.drop (cdOffset + cdSize))[g + j]? = sigLocator[j]? := by
    rw [List.getElem?_drop, ← Nat.add_assoc, ← locator, slice_getElem? small]
  have end_ {j : Nat} (small : j < 4) : (file.drop (cdOffset + cdSize))[g + 20 + j]? = sigEocd[j]? := by
    rw [List.getElem?_drop, ← Nat.add_assoc, ← eocd, slice_getElem? small]
  have nonzero : ∀ j < 4, sigLocator[j]? ≠ some 0 ∧ sigEocd[j]? ≠ some 0 := by decide
  have lead {b : UInt8} (byte : (file.drop (cdOffset + cdSize))[g]? = some b) (other : b ≠ 0x50) : False := by
    have first := @loc 0 (by decide)
    rw [Nat.add_zero, byte] at first
    exact other (Option.some.inj first)
  rcases zeros_cover g inside with rfl | rfl | rfl | rfl | rfl | rfl | rfl | ⟨j, small, hit⟩ | ⟨j, small, hit⟩
  · exact Nat.lt_irrefl 0 positive
  · exact @lead 0x4b (by rw [known]; rfl) (by decide)
  · exact @lead 0x06 (by rw [known]; rfl) (by decide)
  · exact @lead 0x06 (by rw [known]; rfl) (by decide)
  · exact @lead 0x2c (by rw [known]; rfl) (by decide)
  · exact @lead 0x2d (by rw [known]; rfl) (by decide)
  · exact @lead 0x2d (by rw [known]; rfl) (by decide)
  · exact (nonzero j small).1 ((loc small).symm.trans (zero _ hit))
  · exact (nonzero j small).2 ((end_ small).symm.trans (zero _ hit))

/-- The directory that was written is located only where both draw the line in one place. -/
theorem Ends.agree (ends : Ends file n cdSize cdOffset zip64)
    (located : locateEocd file = .ok ⟨n, cdOffset, cdSize⟩) : zip64 = marks n cdSize cdOffset := by
  obtain ⟨p, sig, taken⟩ := locateEocd_ok located
  obtain ⟨inside, which⟩ := candidate_some taken
  have length := ends.length
  have last := ends.candidate
  cases zip64 with
  | false =>
    simp only [Bool.false_eq_true, if_false] at length
    have far {q : Nat} (read : Zip.readZip64 file q = some ⟨n, cdOffset, cdSize⟩) : cdOffset + cdSize + 20 < q :=
      (readZip64_some read).2
    rcases which with here | read
    · have here : cdOffset + cdSize = p := here
      have same : file.length - 22 = p := by omega
      by_contra marked
      rw [if_pos (by simpa using marked), same, taken] at last
      have := far last.symm
      omega
    · have := far read
      omega
  | true =>
    simp only [if_true] at length
    by_contra plain
    have plain : ¬marks n cdSize cdOffset := fun marked => plain marked.symm
    rcases which with here | read
    · have here : cdOffset + cdSize = p := here
      have record : slice file (cdOffset + cdSize) 4 = sigEocd64 := by
        have tail : file.drop (cdOffset + cdSize) = zip64Tail n cdSize cdOffset (cdOffset + cdSize) ++
          eocdRecord n cdSize cdOffset := ends.tail
        rw [← Nat.add_zero (cdOffset + cdSize), ← slice_drop, tail]
        rfl
      rw [here, sig] at record
      exact absurd record (by decide)
    · obtain ⟨locator, far⟩ := readZip64_some read
      have far : cdOffset + cdSize + 20 < p := far
      by_cases latest : p = file.length - 22
      · rw [← latest, if_neg plain, if_pos rfl, taken] at last
        cases last
      · obtain ⟨g, rfl⟩ := Nat.exists_eq_add_of_lt far
        refine ends.alone plain (g := g + 1) (Nat.succ_pos g) (by omega) ?_ ?_
        · rw [← locator]
          congr 1
          omega
        · rw [← sig]
          congr 1
          omega

end Norte.Archive.Zip
