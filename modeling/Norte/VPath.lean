import Norte.VPathCodec

/-! Paths of the virtual file system: `scheme://authority/segments`. A segment is
bytes, never forced into UTF-8; only the wire form is text. The three components
carry their own validity, so a path that breaks a rule cannot be built. -/
namespace Norte

open Utf8

/-- `str::split_once`, at the first occurrence of `sep`. -/
def splitOnce (sep : Str) : Str → Option (Str × Str)
  | [] => if sep = [] then some ([], []) else none
  | c :: rest =>
    if sep <+: c :: rest then some ([], (c :: rest).drop sep.length)
    else (splitOnce sep rest).map fun halves => (c :: halves.1, halves.2)

theorem splitOnce_first {c : Char} {before : Str} (fresh : c ∉ before) (sep after : Str) :
    splitOnce (c :: sep) (before ++ c :: (sep ++ after)) = some (before, after) := by
  induction before with
  | nil =>
    have here : c :: sep <+: c :: (sep ++ after) := ⟨after, rfl⟩
    simp [splitOnce, here]
  | cons d before ih =>
    obtain ⟨other, fresh⟩ := List.ne_and_not_mem_of_not_mem_cons fresh
    have later : ¬c :: sep <+: d :: (before ++ c :: (sep ++ after)) := by
      rintro ⟨_, same⟩
      exact other (List.cons.inj same).1
    rw [List.cons_append, splitOnce, if_neg later, ih fresh]
    rfl

def isAsciiLowercase (b : UInt8) : Bool := 'a'.toUInt8 ≤ b && b ≤ 'z'.toUInt8
def isAsciiDigit (b : UInt8) : Bool := '0'.toUInt8 ≤ b && b ≤ '9'.toUInt8
def isAsciiGraphic (b : UInt8) : Bool := 0x21 ≤ b && b ≤ 0x7E

/-- `[a-z][a-z0-9+.-]*`, over the bytes of the text. -/
def Scheme.check (s : Str) : Bool :=
  let bytes := encode s
  let headOk := bytes.head?.any isAsciiLowercase
  let tailOk := bytes.all fun b => isAsciiLowercase b || isAsciiDigit b ||
    b = '+'.toUInt8 || b = '.'.toUInt8 || b = '-'.toUInt8
  headOk && tailOk

structure Scheme where
  str : Str
  valid : Scheme.check str
  deriving DecidableEq

def Scheme.new (s : Str) : Except VPathError Scheme :=
  if valid : Scheme.check s then .ok ⟨s, valid⟩ else .error .invalidScheme

/-- Userinfo is what precedes the last `@`; a `:` there is an inline password. -/
def Authority.noInlinePassword (s : Str) : Bool :=
  match s.reverse.dropWhile (· ≠ '@') with
  | [] => true
  | _ :: userinfo => !userinfo.contains ':'

def Authority.check (s : Str) : Bool :=
  let charsetOk := !s.isEmpty && (encode s).all fun b =>
    isAsciiGraphic b && b ≠ '/'.toUInt8 && b ≠ '%'.toUInt8
  charsetOk && Authority.noInlinePassword s

structure Authority where
  str : Str
  valid : Authority.check str
  deriving DecidableEq

def Authority.new (s : Str) : Except VPathError Authority :=
  if valid : Authority.check s then .ok ⟨s, valid⟩ else .error .invalidAuthority

/-- What `Segment::new` guarantees. -/
structure Segment.Valid (bytes : Bytes) : Prop where
  nonempty : bytes ≠ []
  noNul : 0 ∉ bytes
  noSlash : '/'.toUInt8 ∉ bytes
  notDot : bytes ≠ ['.'.toUInt8] ∧ bytes ≠ ['.'.toUInt8, '.'.toUInt8]

structure Segment where
  bytes : Bytes
  valid : Segment.Valid bytes
  deriving DecidableEq

/-! What the samples are named by. -/

theorem Scheme.check_file : Scheme.check "file".toList := by decide

theorem Scheme.check_mem : Scheme.check "mem".toList := by decide

theorem Segment.valid_letter {b : UInt8} (letter : isAsciiLowercase b = true) : Segment.Valid [b] := by
  have apart (c : UInt8) (other : isAsciiLowercase c = false) : c ≠ b := by
    rintro rfl
    exact Bool.noConfusion (letter.symm.trans other)
  refine ⟨List.cons_ne_nil _ _, ?_, ?_, ?_⟩
  · simpa using apart 0 rfl
  · simpa using apart '/'.toUInt8 rfl
  · simpa using (apart '.'.toUInt8 rfl).symm

theorem Segment.valid_a : Segment.Valid [0x61] := valid_letter rfl

theorem Segment.valid_b : Segment.Valid [0x62] := valid_letter rfl

theorem Segment.valid_c : Segment.Valid [0x63] := valid_letter rfl

theorem Segment.valid_d : Segment.Valid [0x64] := valid_letter rfl

namespace Segment

def new (bytes : Bytes) : Except VPathError Segment :=
  if empty : bytes = [] then .error .emptySegment
  else if nul : 0 ∈ bytes then .error .nulByte
  else if slash : '/'.toUInt8 ∈ bytes then .error .invalidByte
  else if dot : bytes = ['.'.toUInt8] ∨ bytes = ['.'.toUInt8, '.'.toUInt8] then .error .dotSegment
  else .ok ⟨bytes, empty, nul, slash, not_or.mp dot⟩

def toWire (s : Segment) : Str := VPathCodec.encodeSegment s.bytes

def parseWire (wire : Str) : Except VPathError Segment := do
  let bytes ← VPathCodec.decodeSegment wire
  new bytes

theorem new_bytes (s : Segment) : new s.bytes = .ok s := by
  have dot : ¬(s.bytes = ['.'.toUInt8] ∨ s.bytes = ['.'.toUInt8, '.'.toUInt8]) :=
    not_or.mpr s.valid.notDot
  simp only [new, s.valid.nonempty, s.valid.noNul, s.valid.noSlash, dot, ↓reduceDIte]

theorem new_ok {bytes : Bytes} {s : Segment} (made : new bytes = .ok s) : s.bytes = bytes := by
  unfold new at made
  split at made
  · cases made
  split at made
  · cases made
  split at made
  · cases made
  split at made
  · cases made
  · obtain rfl := Except.ok.inj made
    rfl

/-- The wire form of one segment reads back as that segment. -/
theorem parseWire_toWire (s : Segment) : parseWire s.toWire = .ok s := by
  rw [parseWire, toWire, VPathCodec.decodeSegment_encodeSegment]
  exact new_bytes s

theorem toWire_ne_nil (s : Segment) : s.toWire ≠ [] := by
  simp [toWire, s.valid.nonempty]

theorem slash_not_mem_toWire (s : Segment) : '/' ∉ s.toWire :=
  VPathCodec.slash_not_mem_encodeSegment s.valid.noSlash

end Segment

structure VPath where
  scheme : Scheme
  authority : Option Authority
  segments : List Segment
  deriving DecidableEq

namespace VPath

def root (scheme : Scheme) (authority : Option Authority) : VPath := ⟨scheme, authority, []⟩

def parseSegments : List Str → Except VPathError (List Segment)
  | [] => .ok []
  | raw :: rest =>
    if raw = [] then .error .emptySegment
    else do
      let segment ← Segment.parseWire raw
      let segments ← parseSegments rest
      return segment :: segments

def parseAuthority (raw : Str) : Except VPathError (Option Authority) :=
  if raw = [] then .ok none else (Authority.new raw).map some

/-- A missing or empty path is the root. -/
def parsePath : Option Str → Except VPathError (List Segment)
  | none | some [] => .ok []
  | some (c :: path) => parseSegments ((c :: path).splitOn '/')

def parse (wire : Str) : Except VPathError VPath :=
  match splitOnce "://".toList wire with
  | none => .error .missingScheme
  | some (schemeRaw, rest) => do
    let scheme ← Scheme.new schemeRaw
    let (authorityRaw, pathRaw) := match splitOnce ['/'] rest with
      | some (a, p) => (a, some p)
      | none => (rest, none)
    let authority ← parseAuthority authorityRaw
    let segments ← parsePath pathRaw
    return ⟨scheme, authority, segments⟩

def writePrefix (p : VPath) : Str :=
  p.scheme.str ++ "://".toList ++ (p.authority.elim [] Authority.str) ++ ['/']

def toWire (p : VPath) : Str :=
  p.writePrefix ++ ['/'].intercalate (p.segments.map Segment.toWire)

def isRoot (p : VPath) : Bool := p.segments.isEmpty

def join (p : VPath) (segment : Segment) : VPath := { p with segments := p.segments ++ [segment] }

def parent (p : VPath) : Option VPath :=
  if p.segments = [] then none else some { p with segments := p.segments.dropLast }

def fileName (p : VPath) : Option Segment := p.segments.getLast?

def withFileName (p : VPath) (segment : Segment) : Option VPath :=
  if p.segments = [] then none
  else some { p with segments := p.segments.dropLast ++ [segment] }

theorem parseSegments_map_toWire (segments : List Segment) :
    parseSegments (segments.map Segment.toWire) = .ok segments := by
  induction segments with
  | nil => rfl
  | cons segment segments ih =>
    rw [List.map_cons, parseSegments, if_neg segment.toWire_ne_nil, segment.parseWire_toWire, ih]
    rfl

theorem mem_encode_of_ascii {s : Str} (member : c ∈ s) (ascii : c.toNat < 128) :
    UInt8.ofNat c.toNat ∈ encode s :=
  List.mem_flatMap.mpr ⟨c, member, by simp [encodeChar_ascii c ascii]⟩

theorem colon_not_mem_scheme (scheme : Scheme) : ':' ∉ scheme.str := by
  intro member
  have valid := scheme.valid
  simp only [Scheme.check, Bool.and_eq_true, List.all_eq_true] at valid
  exact absurd (valid.2 _ (mem_encode_of_ascii member (by decide))) (by decide)

theorem authority_bytes (authority : Authority) {b : UInt8} (member : b ∈ encode authority.str) :
    isAsciiGraphic b ∧ b ≠ '/'.toUInt8 := by
  have valid := authority.valid
  simp only [Authority.check, Bool.and_eq_true, List.all_eq_true, decide_eq_true_eq] at valid
  exact (valid.1.2 b member).1

theorem slash_not_mem_authority (authority : Option Authority) :
    '/' ∉ authority.elim [] Authority.str := by
  cases authority with
  | none => exact List.not_mem_nil
  | some authority =>
    intro member
    exact (authority_bytes authority (mem_encode_of_ascii member (by decide))).2 rfl

theorem parseAuthority_str (authority : Option Authority) :
    parseAuthority (authority.elim [] Authority.str) = .ok authority := by
  cases authority with
  | none => rfl
  | some authority =>
    have nonempty : authority.str ≠ [] := by
      have valid := authority.valid
      simp only [Authority.check, Bool.and_eq_true] at valid
      simpa using valid.1.1
    simp [parseAuthority, nonempty, Authority.new, authority.valid, Except.map]

theorem parsePath_intercalate (segments : List Segment) :
    parsePath (some (['/'].intercalate (segments.map Segment.toWire))) = .ok segments := by
  cases segments with
  | nil => rfl
  | cons segment segments =>
    have nonempty : ['/'].intercalate ((segment :: segments).map Segment.toWire) ≠ [] := by
      cases segments <;> simp [segment.toWire_ne_nil]
    have separate : ∀ l ∈ (segment :: segments).map Segment.toWire, '/' ∉ l := by
      intro l member
      obtain ⟨s, _, rfl⟩ := List.mem_map.mp member
      exact s.slash_not_mem_toWire
    have split := List.splitOn_intercalate '/' separate (by simp)
    have parsed := parseSegments_map_toWire (segment :: segments)
    rw [← split] at parsed
    revert nonempty parsed
    generalize ['/'].intercalate ((segment :: segments).map Segment.toWire) = path
    intro nonempty parsed
    cases path with
    | nil => exact absurd rfl nonempty
    | cons c path => exact parsed

/-- Parsing a printed path gives the path back. -/
theorem parse_toWire_eq (p : VPath) : parse p.toWire = .ok p := by
  have wire : p.toWire = p.scheme.str ++ ':' :: (['/', '/'] ++ (p.authority.elim [] Authority.str ++
      '/' :: ([] ++ ['/'].intercalate (p.segments.map Segment.toWire)))) := by
    simp [toWire, writePrefix]
  have scheme : splitOnce "://".toList p.toWire = some (p.scheme.str, p.authority.elim [] Authority.str ++
      '/' :: ([] ++ ['/'].intercalate (p.segments.map Segment.toWire))) := by
    rw [wire]
    exact splitOnce_first (colon_not_mem_scheme p.scheme) _ _
  have authority := splitOnce_first (slash_not_mem_authority p.authority) []
    (['/'].intercalate (p.segments.map Segment.toWire))
  have named : Scheme.new p.scheme.str = .ok p.scheme := by simp [Scheme.new, p.scheme.valid]
  have path := parsePath_intercalate p.segments
  simp only [List.nil_append] at scheme authority
  simp only [parse, scheme, named, authority, parseAuthority_str, path]
  rfl

theorem toWire_injective_of_parse : Function.Injective toWire := by
  intro p q same
  have parsed := parse_toWire_eq p
  rw [same, parse_toWire_eq] at parsed
  exact (Except.ok.inj parsed).symm

/-- Neither a C0 control nor DEL. -/
def WireByte (b : UInt8) : Prop := 0x20 ≤ b ∧ b ≠ 0x7F

instance : DecidablePred WireByte := fun b => inferInstanceAs (Decidable (0x20 ≤ b ∧ b ≠ 0x7F))

theorem scheme_wireByte (scheme : Scheme) : ∀ b ∈ encode scheme.str, WireByte b := by
  intro b member
  have valid := scheme.valid
  simp only [Scheme.check, Bool.and_eq_true, List.all_eq_true] at valid
  have allowed := valid.2 b member
  clear member
  revert allowed
  rcases b with ⟨⟨v⟩⟩
  revert v
  decide +kernel

theorem authority_wireByte (authority : Option Authority) :
    ∀ b ∈ encode (authority.elim [] Authority.str), WireByte b := by
  intro b member
  cases authority with
  | none => cases member
  | some authority =>
    have graphic := (authority_bytes authority member).1
    simp only [isAsciiGraphic, Bool.and_eq_true, decide_eq_true_eq] at graphic
    exact ⟨UInt8.le_trans (by decide) graphic.1, by rintro rfl; exact absurd graphic.2 (by decide)⟩

theorem segment_wireByte (segment : Segment) : ∀ b ∈ encode segment.toWire, WireByte b := by
  intro b member
  obtain ⟨c, inside, spelled⟩ := List.mem_flatMap.mp member
  have plain := VPathCodec.encodeSegment_no_control inside
  simp only [VPathCodec.isAsciiControl, Bool.or_eq_false_iff, decide_eq_false_iff_not] at plain
  rw [WireByte, UInt8.le_iff_toNat_le, ← UInt8.toNat_inj.ne]
  by_cases low : b < 0x80
  · obtain ⟨_, value⟩ := encodeChar_byte_lt spelled low
    rw [value] at plain
    exact ⟨Nat.le_of_not_lt plain.1, plain.2⟩
  · have high : 128 ≤ b.toNat := UInt8.le_iff_toNat_le.mp (UInt8.not_lt.mp low)
    exact ⟨Nat.le_trans (by decide) high, by intro same; rw [same] at high; exact absurd high (by decide)⟩

theorem mem_intercalate {c sep : α} {ls : List (List α)} (member : c ∈ [sep].intercalate ls) :
    c = sep ∨ ∃ l ∈ ls, c ∈ l := by
  induction ls with
  | nil => cases member
  | cons l ls ih =>
    cases ls with
    | nil => exact .inr ⟨l, List.mem_cons_self, by simpa using member⟩
    | cons l' ls =>
      rw [List.intercalate_cons_cons] at member
      rcases List.mem_append.mp member with first | rest
      · rcases List.mem_append.mp first with here | separator
        · exact .inr ⟨l, List.mem_cons_self, here⟩
        · exact .inl (List.mem_singleton.mp separator)
      · rcases ih rest with same | ⟨m, inside, found⟩
        · exact .inl same
        · exact .inr ⟨m, List.mem_cons_of_mem _ inside, found⟩

theorem literal_wireByte {s : Str} (plain : (encode s).all fun b => decide (WireByte b)) :
    ∀ b ∈ encode s, WireByte b := by
  simpa using plain

theorem toWire_wireByte (p : VPath) : ∀ b ∈ encode p.toWire, WireByte b := by
  intro b member
  simp only [toWire, writePrefix, encode_append, List.mem_append] at member
  rcases member with (((scheme | separator) | authority) | slash) | path
  · exact scheme_wireByte _ b scheme
  · exact literal_wireByte (by decide) b separator
  · exact authority_wireByte _ b authority
  · exact literal_wireByte (by decide) b slash
  · obtain ⟨c, inside, spelled⟩ := List.mem_flatMap.mp path
    rcases mem_intercalate inside with rfl | ⟨l, found, inside⟩
    · exact literal_wireByte (by decide) b (List.mem_flatMap.mpr ⟨_, List.mem_singleton_self _, spelled⟩)
    · obtain ⟨segment, _, rfl⟩ := List.mem_map.mp found
      exact segment_wireByte segment b (List.mem_flatMap.mpr ⟨c, inside, spelled⟩)

/-- The wire is a canonical form: it reads back as the path it was printed from,
whatever spelling was accepted, and no accepted spelling smuggles in a separator,
a NUL or a relative segment. -/
theorem wire_round_trip :
    (∀ p : VPath, parse p.toWire = .ok p) ∧
    (∀ (w : Str) (p : VPath), parse w = .ok p →
      (parse p.toWire).map toWire = .ok p.toWire) ∧
    Function.Injective toWire ∧
    (∀ (p : VPath), ∀ b ∈ encode p.toWire, 0x20 ≤ b ∧ b ≠ 0x7F) ∧
    (∀ (w : Str) (p : VPath), parse w = .ok p → ∀ segment ∈ p.segments,
      segment.bytes ≠ [] ∧ segment.bytes ≠ ['.'.toUInt8] ∧
      segment.bytes ≠ ['.'.toUInt8, '.'.toUInt8] ∧
      '/'.toUInt8 ∉ segment.bytes ∧ 0 ∉ segment.bytes) := by
  refine ⟨parse_toWire_eq, ?_, toWire_injective_of_parse, toWire_wireByte, ?_⟩
  · intro _ p _
    rw [parse_toWire_eq]
    rfl
  · intro _ _ _ segment _
    have valid := segment.valid
    exact ⟨valid.nonempty, valid.notDot.1, valid.notDot.2, valid.noSlash, valid.noNul⟩

/-- A spelling with needless escapes is accepted and canonicalised. -/
example : (parse "file:///%41%20b/%FF".toList).map toWire = .ok "file:///A b/%FF".toList := by
  decide +kernel

end VPath
end Norte
