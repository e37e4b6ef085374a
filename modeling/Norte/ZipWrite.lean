import Norte.ArchiveIndex
import Norte.Hashing

/-! The incremental zip writer: local headers and data descriptors as entries come, the
central directory and its end when they are over. The compressor and the checksum are
parameters; counters do not wrap. -/
namespace Norte.Archive.Zip

open Hashing

/-- `DeflateEncoder` over a vector, which has some bytes ready after each write, and `Crc`. -/
structure Codec where
  Encoder : Type
  new : (level : Nat) → Encoder
  write : Encoder → Bytes → Encoder × Bytes
  finish : Encoder → Bytes
  Crc : Type
  crcNew : Crc
  crcUpdate : Crc → Bytes → Crc
  crcSum : Crc → UInt32

inductive PackError where
  | name
  | state
  | size
  | io
  deriving DecidableEq, Repr

structure PackEntry where
  name : Bytes
  size : UInt64
  dir : Bool
  mode : Option UInt32
  mtimeMs : Option Int
  deriving DecidableEq

def localSig : Nat := 0x04034b50
def cdSig : Nat := 0x02014b50
def eocdSig : Nat := 0x06054b50
def eocd64Sig : Nat := 0x06064b50
def eocd64LocSig : Nat := 0x07064b50
def ddSig : Nat := 0x08074b50

/-- Bit 3: sizes and checksum go after the data. -/
def flagDataDescriptor : UInt16 := 8

/-- Bit 11: the name is UTF-8. -/
def flagUtf8 : UInt16 := 2048

def methodStore : UInt16 := 0
def methodDeflate : UInt16 := 8
def versionBase : Nat := 20
def versionZip64 : Nat := 45
def u16Max : Nat := 65535
def u32Max : Nat := 4294967295

/-- Numbers of given widths, put one behind the other. -/
def puts (fields : List (Nat × Nat)) : Bytes := fields.flatMap fun f => leBytes f.1 f.2

def u16 (n : Nat) : Nat × Nat := (2, n)
def u32 (n : Nat) : Nat × Nat := (4, n)
def u64 (n : Nat) : Nat × Nat := (8, n)

/-! Times and attributes. -/

structure Civil where
  year : Int
  month : UInt8
  day : UInt8
  hour : UInt8
  min : UInt8
  sec : UInt8

def toU8 (n : Int) : Option UInt8 := if 0 ≤ n ∧ n < 256 then some (UInt8.ofNat n.toNat) else none

def civilFromUnix (secs : Int) : Option Civil := do
  let days := secs / 86400
  let remainder := secs % 86400
  let z := days + 719468
  let era := z / 146097
  let doe := z % 146097
  let yoe := (doe - doe / 1460 + doe / 36524 - doe / 146096) / 365
  let y := yoe + era * 400
  let doy := doe - (365 * yoe + yoe / 4 - yoe / 100)
  let mp := (5 * doy + 2) / 153
  let d := doy - (153 * mp + 2) / 5 + 1
  let m := if mp < 10 then mp + 3 else mp - 9
  return ⟨if m ≤ 2 then y + 1 else y, ← toU8 m, ← toU8 d, ← toU8 (remainder / 3600),
    ← toU8 (remainder % 3600 / 60), ← toU8 (remainder % 60)⟩

def epochDos : UInt16 × UInt16 := (0, 33)

/-- Time and date as MS-DOS has them, which begins in 1980. -/
def dosDatetime (mtimeMs : Option Int) : UInt16 × UInt16 :=
  match mtimeMs.bind fun ms => civilFromUnix (ms / 1000) with
  | none => epochDos
  | some dt =>
    if dt.year < 1980 then epochDos
    else
      let year : UInt16 := if dt.year - 1980 < 65536 then UInt16.ofNat (dt.year - 1980).toNat else 0
      (dt.hour.toUInt16 <<< 11 ||| dt.min.toUInt16 <<< 5 ||| (dt.sec / 2).toUInt16,
        year <<< 9 ||| dt.month.toUInt16 <<< 5 ||| dt.day.toUInt16)

/-- Unix permissions in the high half, and the directory bit. -/
def externalAttrs (entry : PackEntry) : UInt32 :=
  let mode := entry.mode.getD (if entry.dir then 0o755 else 0o644)
  let kind : UInt32 := if entry.dir then 0o040000 else 0o100000
  ((kind ||| (mode &&& 0o7777)) <<< 16) ||| (if entry.dir then 1 else 0)

/-! The writer. -/

/-- An entry that is written, for the central directory. -/
structure Written where
  name : Bytes
  flags : UInt16
  method : UInt16
  dosTime : UInt16
  dosDate : UInt16
  crc : UInt32
  compSize : Nat
  uncompSize : Nat
  offset : Nat
  externalAttrs : UInt32
  deriving DecidableEq

inductive Body (codec : Codec) where
  | store
  | deflate (enc : codec.Encoder)

structure InProgress (codec : Codec) where
  name : Bytes
  flags : UInt16
  method : UInt16
  dosTime : UInt16
  dosDate : UInt16
  offset : Nat
  externalAttrs : UInt32
  /-- The local header announced zip64, by the declared size. -/
  zip64 : Bool
  crc : codec.Crc
  uncomp : Nat
  comp : Nat
  body : Body codec

structure ZipWriter (codec : Codec) where
  out : Bytes
  delivered : Nat
  done : List Written
  current : Option (InProgress codec)
  level : Nat

/-- The name as it is written: the trailing slash is what says directory. -/
def entryName (entry : PackEntry) : Bytes :=
  if entry.dir ∧ entry.name.getLast? ≠ some slash then entry.name ++ [slash] else entry.name

def entryMethod (level : Nat) (entry : PackEntry) : UInt16 :=
  if entry.dir ∨ level = 0 then methodStore else methodDeflate

def entryFlags (entry : PackEntry) : UInt16 :=
  flagDataDescriptor ||| if (Utf8.fromUtf8 (entryName entry)).isSome then flagUtf8 else 0

def isZip64Entry (entry : PackEntry) : Bool := entry.size.toNat > u32Max

/-- The values are not known yet; what matters is the width that is announced. -/
def localExtra (entry : PackEntry) : Bytes :=
  if isZip64Entry entry then puts [u16 1, u16 16, u64 0, u64 0] else []

def localFields (level : Nat) (entry : PackEntry) : List (Nat × Nat) :=
  let (dosTime, dosDate) := dosDatetime entry.mtimeMs
  let size := if isZip64Entry entry then u32Max else 0
  [u32 localSig, u16 (if isZip64Entry entry then versionZip64 else versionBase), u16 (entryFlags entry).toNat,
    u16 (entryMethod level entry).toNat, u16 dosTime.toNat, u16 dosDate.toNat, u32 0, u32 size, u32 size,
    u16 (entryName entry).length, u16 (localExtra entry).length]

def localHeader (level : Nat) (entry : PackEntry) : Bytes :=
  puts (localFields level entry) ++ (entryName entry ++ localExtra entry)

def Written.zip64 (e : Written) : Bool := e.compSize > u32Max || e.uncompSize > u32Max || e.offset > u32Max

/-- If one value needs zip64, all three fixed fields are the sentinel. -/
def Written.fixed (e : Written) (v : Nat) : Nat := if e.zip64 then u32Max else min v u32Max

def Written.extra (e : Written) : Bytes :=
  if e.zip64 then puts [u16 1, u16 24, u64 e.uncompSize, u64 e.compSize, u64 e.offset] else []

def Written.fields (e : Written) : List (Nat × Nat) :=
  [u32 cdSig, u16 (3 * 256 + versionBase), u16 (if e.zip64 then versionZip64 else versionBase), u16 e.flags.toNat,
    u16 e.method.toNat, u16 e.dosTime.toNat, u16 e.dosDate.toNat, u32 e.crc.toNat, u32 (e.fixed e.compSize),
    u32 (e.fixed e.uncompSize), u16 (min e.name.length u16Max), u16 e.extra.length, u16 0, u16 0, u16 0,
    u32 e.externalAttrs.toNat, u32 (e.fixed e.offset)]

/-- An entry of the central directory. -/
def writeCd (e : Written) : Bytes := puts e.fields ++ (e.name ++ e.extra)

/-- Something does not fit 32 bits, or 16. -/
def needs64 (done : List Written) (cdSize cdOffset : Nat) : Bool :=
  done.length > u16Max || cdSize > u32Max || cdOffset > u32Max || done.any Written.zip64

/-- The record of zip64's end, at `eocd64`, and its locator. -/
def zip64Tail (n cdSize cdOffset eocd64 : Nat) : Bytes :=
  puts [u32 eocd64Sig, u64 44, u16 versionZip64, u16 versionZip64, u32 0, u32 0, u64 n, u64 n, u64 cdSize,
    u64 cdOffset] ++ puts [u32 eocd64LocSig, u32 0, u64 eocd64, u32 1]

def eocdRecord (n cdSize cdOffset : Nat) : Bytes :=
  puts [u32 eocdSig, u16 0, u16 0, u16 (min n u16Max), u16 (min n u16Max), u32 (min cdSize u32Max),
    u32 (min cdOffset u32Max), u16 0]

namespace ZipWriter

variable {codec : Codec}

def new (level : Nat) : ZipWriter codec := ⟨[], 0, [], none, level⟩

def take (w : ZipWriter codec) : Bytes × ZipWriter codec :=
  (w.out, { w with out := [], delivered := w.delivered + w.out.length })

def pos (w : ZipWriter codec) : Nat := w.delivered + w.out.length

def begin (entry : PackEntry) (w : ZipWriter codec) : Except PackError Unit × ZipWriter codec :=
  if w.current.isSome then (.error .state, w)
  else if (entryName entry).length > u16Max then (.error .name, w)
  else
    let method := entryMethod w.level entry
    let (dosTime, dosDate) := dosDatetime entry.mtimeMs
    (.ok (), { w with
      out := w.out ++ localHeader w.level entry
      current := some {
        name := entryName entry
        flags := entryFlags entry
        method := method
        dosTime := dosTime
        dosDate := dosDate
        offset := w.pos
        externalAttrs := externalAttrs entry
        zip64 := isZip64Entry entry
        crc := codec.crcNew
        uncomp := 0
        comp := 0
        body := if method = methodDeflate then .deflate (codec.new w.level) else .store } })

/-- What a chunk adds to the output, and the body after it. -/
def pack (body : Body codec) (chunk : Bytes) : Body codec × Bytes :=
  match body with
  | .store => (.store, chunk)
  | .deflate enc =>
    let (enc, ready) := codec.write enc chunk
    (.deflate enc, ready)

def data (chunk : Bytes) (w : ZipWriter codec) : Except PackError Unit × ZipWriter codec :=
  match w.current with
  | none => (.error .state, w)
  | some current =>
    let (body, ready) := pack current.body chunk
    (.ok (), { w with
      out := w.out ++ ready
      current := some { current with
        crc := codec.crcUpdate current.crc chunk
        uncomp := current.uncomp + chunk.length
        comp := current.comp + ready.length
        body := body } })

/-- What the compressor still held. -/
def rest : Body codec → Bytes
  | .store => []
  | .deflate enc => codec.finish enc

/-- The width is the one that the local header announced. -/
def descriptor (zip64 : Bool) (crc : UInt32) (comp uncomp : Nat) : Bytes :=
  puts ([u32 ddSig, u32 crc.toNat] ++
    if zip64 then [u64 comp, u64 uncomp] else [u32 (min comp u32Max), u32 (min uncomp u32Max)])

def end_ (w : ZipWriter codec) : Except PackError Unit × ZipWriter codec :=
  match w.current with
  | none => (.error .state, w)
  | some current =>
    let tail := rest current.body
    let comp := current.comp + tail.length
    let crc := codec.crcSum current.crc
    let zip64 := current.zip64 || comp > u32Max || current.uncomp > u32Max
    (.ok (), { w with
      out := w.out ++ tail ++ descriptor zip64 crc comp current.uncomp
      current := none
      done := w.done ++ [⟨current.name, current.flags, current.method, current.dosTime, current.dosDate, crc, comp,
        current.uncomp, current.offset, current.externalAttrs⟩] })

def finish (w : ZipWriter codec) : Except PackError Unit × ZipWriter codec :=
  if w.current.isSome then (.error .state, w)
  else
    let cdOffset := w.pos
    let directory := w.done.flatMap writeCd
    let cdSize := directory.length
    let n := w.done.length
    let zip64 := if needs64 w.done cdSize cdOffset then zip64Tail n cdSize cdOffset (cdOffset + cdSize) else []
    (.ok (), { w with
      out := w.out ++ directory ++ zip64 ++ eocdRecord n cdSize cdOffset
      done := [] })

end ZipWriter

end Norte.Archive.Zip
