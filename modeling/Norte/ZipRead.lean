import Norte.ArchiveIndex
import Norte.Hashing

/-! The reader of a zip's directory: its end is looked for from the back, the directory is
walked entry by entry, and the local header says where the data begin. The container is read
without faults, and the walk is not cancelled. -/
namespace Norte.Archive.Zip

def sigEocd : Bytes := [0x50, 0x4b, 0x05, 0x06]
def sigEocd64 : Bytes := [0x50, 0x4b, 0x06, 0x06]
def sigLocator : Bytes := [0x50, 0x4b, 0x06, 0x07]
def sigCdEntry : Bytes := [0x50, 0x4b, 0x01, 0x02]
def sigLocal : Bytes := [0x50, 0x4b, 0x03, 0x04]

structure Eocd where
  count : Nat
  cdOffset : Nat
  cdSize : Nat
  deriving DecidableEq, Repr

/-- Entries that were consumed, and those of them that were left out. -/
structure ParseStats where
  parsed : Nat
  hostileSkipped : Nat
  deriving DecidableEq, Repr

def slice (b : Bytes) (off n : Nat) : Bytes := (b.drop off).take n

/-- The number that bytes spell, least significant first. -/
def leNat : Bytes → Nat
  | [] => 0
  | b :: rest => b.toNat + 256 * leNat rest

def le16 (b : Bytes) (off : Nat) : Nat := leNat (slice b off 2)
def le32 (b : Bytes) (off : Nat) : Nat := leNat (slice b off 4)
def le64 (b : Bytes) (off : Nat) : Nat := leNat (slice b off 8)

/-- `read_exact` at a position. -/
def readExact (file : Bytes) (pos n : Nat) : Option Bytes :=
  if pos + n ≤ file.length then some (slice file pos n) else none

/-- The zip64 branch of a candidate at `eocdPos`. -/
def readZip64 (file : Bytes) (eocdPos : Nat) : Option Eocd := do
  guard (20 ≤ eocdPos)
  let locatorPos := eocdPos - 20
  let locator ← readExact file locatorPos 20
  guard (slice locator 0 4 = sigLocator)
  let eocd64Pos := le64 locator 8
  guard (eocd64Pos < locatorPos)
  let record ← readExact file eocd64Pos 56
  guard (slice record 0 4 = sigEocd64)
  let count := le64 record 32
  let cdSize := le64 record 40
  let cdOffset := le64 record 48
  guard (cdOffset + cdSize < 2 ^ 64)
  guard (cdOffset + cdSize ≤ eocd64Pos)
  return ⟨count, cdOffset, cdSize⟩

/-- The last window of the buffer before `search` that holds the signature. -/
def rposition (buf : Bytes) (search : Nat) : Option Nat :=
  (List.range (search - 3)).reverse.find? fun pos => slice buf pos 4 = sigEocd

/-- What a candidate in the buffer, which begins at `start`, is taken for. -/
def candidate (file buf : Bytes) (start pos : Nat) : Option Eocd :=
  if pos + 22 > buf.length then none
  else
    let count := le16 buf (pos + 10)
    let cdSize := le32 buf (pos + 12)
    let cdOff := le32 buf (pos + 16)
    let candidatePos := start + pos
    if count = 65535 ∨ cdOff = 4294967295 ∨ cdSize = 4294967295 then readZip64 file candidatePos
    else if cdOff + cdSize = candidatePos then some ⟨count, cdOff, cdSize⟩
    else none

theorem rposition_lt {buf : Bytes} {search pos : Nat} (found : rposition buf search = some pos) : pos + 3 < search := by
  have inside := List.mem_reverse.mp (List.mem_of_find?_eq_some found)
  have := List.mem_range.mp inside
  omega

/-- The candidates from the back, until one is taken. -/
def locateFrom (file buf : Bytes) (start search : Nat) : Except Error Eocd :=
  match _found : rposition buf search with
  | none => .error .corrupt
  | some pos =>
    match candidate file buf start pos with
    | some eocd => .ok eocd
    | none => locateFrom file buf start pos
termination_by search
decreasing_by
  have := rposition_lt _found
  omega

def locateEocd (file : Bytes) : Except Error Eocd :=
  let start := file.length - (22 + 65535)
  let buf := file.drop start
  locateFrom file buf start buf.length

structure Sizes where
  comp : Nat
  uncomp : Nat
  off : Nat
  deriving DecidableEq

/-- The values of a zip64 record, for the fields that are marked; none where one is missing. -/
def zip64Values (body : Bytes) (fixed : Sizes) : Option Sizes := do
  let value (marked : Bool) (body : Bytes) (kept : Nat) : Option (Nat × Bytes) :=
    if !marked then some (kept, body)
    else if body.length < 8 then none
    else some (le64 body 0, body.drop 8)
  let (uncomp, body) ← value (fixed.uncomp = 4294967295) body fixed.uncomp
  let (comp, body) ← value (fixed.comp = 4294967295) body fixed.comp
  let (off, _) ← value (fixed.off = 4294967295) body fixed.off
  return ⟨comp, uncomp, off⟩

/-- The records of an extra field; the first zip64 record is the one that counts. -/
def extraRecords (extra : Bytes) (fixed : Sizes) (resolved : Option Sizes) : Option (Option Sizes) :=
  if extra.length < 4 then some resolved
  else
    let id := le16 extra 0
    let size := le16 extra 2
    if extra.length < 4 + size then some resolved
    else if id = 1 ∧ resolved.isNone then
      match zip64Values (slice extra 4 size) fixed with
      | none => none
      | some values => extraRecords (extra.drop (4 + size)) fixed (some values)
    else extraRecords (extra.drop (4 + size)) fixed resolved
termination_by extra.length
decreasing_by
  all_goals
    rw [List.length_drop]
    omega

def resolveExtra (extra : Bytes) (fixed : Sizes) : Option Sizes :=
  let anyMarker : Bool := fixed.comp = 4294967295 || fixed.uncomp = 4294967295 || fixed.off = 4294967295
  match extraRecords extra fixed none with
  | none => none
  | some none => if anyMarker then none else some fixed
  | some (some values) => some values

/-! Times. -/

def daysFromCivil (y m d : Int) : Int :=
  let y := if m ≤ 2 then y - 1 else y
  let era := (if 0 ≤ y then y else y - 399).tdiv 400
  let yoe := y - era * 400
  let mp := (m + 9).tmod 12
  let doy := (153 * mp + 2).tdiv 5 + d - 1
  let doe := yoe * 365 + yoe.tdiv 4 - yoe.tdiv 100 + doy
  era * 146097 + doe - 719468

def dosPairToMs (time date : UInt16) : Option Int :=
  let y : Int := 1980 + (date >>> 9).toNat
  let m : Int := ((date >>> 5) &&& 0xF).toNat
  let d : Int := (date &&& 0x1F).toNat
  if m = 0 ∨ 12 < m ∨ d = 0 then none
  else
    let secs := daysFromCivil y m d * 86400 + (time >>> 11).toNat * 3600 + ((time >>> 5) &&& 0x3F).toNat * 60 +
      (time &&& 0x1F).toNat * 2
    if -9223372036854775808 ≤ secs * 1000 ∧ secs * 1000 < 9223372036854775808 then some (secs * 1000) else none

/-! The directory. -/

section Directory

variable {σ : Type} (perEntry : σ → CdEntry → Except Error σ)

/-- The walk from `pos`, with `limit` bytes of the directory left. -/
def parseFrom (file : Bytes) (pos limit : Nat) (stats : ParseStats) (state : σ) : Except Error (ParseStats × σ) :=
  if limit = 0 then .ok (stats, state)
  else if _whole : limit < 46 ∨ file.length < pos + 46 then .error .corrupt
  else
    let header := slice file pos 46
    if slice header 0 4 ≠ sigCdEntry then .error .corrupt
    else
      let flags := le16 header 8
      let method := le16 header 10
      let dosTime := le16 header 12
      let dosDate := le16 header 14
      let crc32 := le32 header 16
      let comp32 := le32 header 20
      let uncomp32 := le32 header 24
      let nameLen := le16 header 28
      let extraLen := le16 header 30
      let commentLen := le16 header 32
      let off32 := le32 header 42
      let size := 46 + nameLen + extraLen + commentLen
      if limit < size ∨ file.length < pos + size then .error .corrupt
      else
        let nameRaw := slice file (pos + 46) nameLen
        let extra := slice file (pos + 46 + nameLen) extraLen
        match resolveExtra extra ⟨comp32, uncomp32, off32⟩ with
        | none => parseFrom file (pos + size) (limit - size) ⟨stats.parsed + 1, stats.hostileSkipped + 1⟩ state
        | some sizes =>
          match perEntry state ⟨nameRaw, UInt16.ofNat flags, UInt16.ofNat method, UInt32.ofNat crc32,
              UInt64.ofNat sizes.comp, UInt64.ofNat sizes.uncomp, UInt64.ofNat sizes.off,
              dosPairToMs (UInt16.ofNat dosTime) (UInt16.ofNat dosDate)⟩ with
          | .error e => .error e
          | .ok state => parseFrom file (pos + size) (limit - size) ⟨stats.parsed + 1, stats.hostileSkipped⟩ state
termination_by limit
decreasing_by
  all_goals omega

def parseCd (file : Bytes) (eocd : Eocd) (state : σ) : Except Error (ParseStats × σ) :=
  parseFrom perEntry file eocd.cdOffset eocd.cdSize ⟨0, 0⟩ state

end Directory

/-- Where the data of the entry at `headerOffset` begin. -/
def dataOffset (file : Bytes) (headerOffset : Nat) : Except Error Nat :=
  match readExact file headerOffset 30 with
  | none => .error .corrupt
  | some header =>
    if slice header 0 4 ≠ sigLocal then .error .corrupt
    else
      let nameLen := le16 header 26
      let extraLen := le16 header 28
      let data := headerOffset + (30 + nameLen + extraLen)
      if 2 ^ 64 ≤ data then .error .corrupt
      else if file.length < data then .error .corrupt
      else .ok data

end Norte.Archive.Zip
