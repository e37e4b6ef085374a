import Mathlib.Data.List.Nodup
import Norte.JournalCompact
import Norte.OrderEscape
import Norte.VPath

/-! Anchors of the journal's head, one keyed line each, and the signatures of compactions. A
verification reads every line against the rows that survive and the base they continue from;
the keyed digest and the deserializer are parameters. -/
namespace Norte.Audit

open Hashing Utf8 Chain
open Orders (isWhitespace)

structure Anchor where
  seq : Int
  head : Hash
  deriving DecidableEq

inductive AnchorVerdict where
  | ok (anchor : Anchor)
  | badLine
  | badMac
  | missingSeq (anchor : Anchor)
  | hashMismatch (anchor : Anchor)
  deriving DecidableEq

/-! The lines of both files. -/

inductive File where
  | anchors
  | compactions
  deriving DecidableEq, Repr

/-- How the number and the digest are called in a file's lines. -/
def File.seqKey : File → Str
  | anchors => "seq".toList
  | compactions => "through_seq".toList

def File.hashKey : File → Str
  | anchors => "head".toList
  | compactions => "through_hash".toList

/-- A line as it is deserialized. -/
structure Line where
  seq : Int
  hash : Str
  mac : Str
  deriving DecidableEq

def hexLower (bytes : Bytes) : Str :=
  bytes.flatMap fun (b : UInt8) => [Orders.hexLower.getD (b >>> 4).toNat '0', Orders.hexLower.getD (b &&& 0x0F).toNat '0']

/-- The bytes of pairs of hex digits. -/
def pairs : Str → Option Bytes
  | hi :: lo :: rest => do
    let hi ← Orders.hex hi
    let lo ← Orders.hex lo
    let rest ← pairs rest
    return (hi * 16 + lo) :: rest
  | _ => some []

/-- `unhex::<32>`. -/
def unhex (s : Str) : Option Hash :=
  if s.length ≠ 32 * 2 ∨ !s.all fun c => c.toNat < 128 then none
  else (pairs s).bind Hash.ofBytes

def displayInt (n : Int) : Str := if n < 0 then '-' :: Nat.toDigits 10 n.natAbs else Nat.toDigits 10 n.natAbs

def quoted (s : Str) : Str := '"' :: s ++ ['"']

/-- The line, formatted by hand. -/
def format (file : File) (n : Int) (hash mac : Str) : Str :=
  '\x7b' :: quoted file.seqKey ++ ':' :: displayInt n ++ ',' :: quoted file.hashKey ++ ':' :: quoted hash ++
    ',' :: quoted "mac".toList ++ ':' :: quoted mac ++ ['\x7d']

def stripCr (line : Str) : Str := if line.getLast? = some '\r' then line.dropLast else line

def linesFrom (line : Str) : Str → List Str
  | [] => if line = [] then [] else [line]
  | c :: rest => if c = '\n' then stripCr line :: linesFrom [] rest else linesFrom (line ++ [c]) rest

/-- `str::lines`. -/
def lines (text : Str) : List Str := linesFrom [] text

def blank (line : Str) : Bool := line.all isWhitespace

section Verify

variable (hmac : Bytes → Bytes → Hash) (fromStr : File → Str → Option Line) (seqOf : Str → Option Int)

def anchorContext : Bytes := encode "norte-anchor-v1".toList

def anchorMac (key : Bytes) (seq : Int) (head : Hash) : Hash :=
  hmac key (anchorContext ++ i64LeBytes seq ++ head.bytes)

def compactContext : Bytes := encode "norte-compact-v1".toList

def compactMac (key : Bytes) (base : CompactionBase) (marker : Option Hash) : Hash :=
  hmac key (compactContext ++ i64LeBytes base.throughSeq ++ base.throughHash.bytes ++
    match marker with
    | some m => 1 :: m.bytes
    | none => [0])

def compactionLine (key : Bytes) (base : CompactionBase) (marker : Option Hash) : Str :=
  format .compactions base.throughSeq (hexLower base.throughHash.bytes)
    (hexLower (compactMac hmac key base marker).bytes)

/-- Lines that sign another base are passed over. -/
def baseIsSigned (key : Bytes) (text : Str) (base : CompactionBase) (marker : Option Hash) : Bool :=
  (lines text).any fun line =>
    match fromStr .compactions line with
    | none => false
    | some l =>
      match unhex l.hash, unhex l.mac with
      | some hash, some mac =>
        l.seq = base.throughSeq && hash = base.throughHash && compactMac hmac key base marker = mac
      | _, _ => false

def anchorLine (key : Bytes) (anchor : Anchor) : Str :=
  format .anchors anchor.seq (hexLower anchor.head.bytes) (hexLower (anchorMac hmac key anchor.seq anchor.head).bytes)

/-- The keyed digest is checked before the chain is looked at. -/
def verifyAnchorLine (key : Bytes) (line : Str) (hashAtSeq : Option Hash) : AnchorVerdict :=
  match fromStr .anchors line with
  | none => .badLine
  | some parsed =>
    match unhex parsed.hash, unhex parsed.mac with
    | some head, some mac =>
      if anchorMac hmac key parsed.seq head ≠ mac then .badMac
      else match hashAtSeq with
        | none => .missingSeq ⟨parsed.seq, head⟩
        | some h => if h = head then .ok ⟨parsed.seq, head⟩ else .hashMismatch ⟨parsed.seq, head⟩
    | _, _ => .badLine

structure AnchorsReport where
  checked : Nat
  bad : List (Nat × AnchorVerdict)
  maxOkSeq : Option Int
  compacted : Nat
  deriving DecidableEq

/-- What the chain has at a number, where the base stands in for the row it names. -/
def hashAt (hashBySeq : Int → Option Hash) (base : Option CompactionBase) (seq : Int) : Option Hash :=
  match base with
  | some b => if seq = b.throughSeq then some b.throughHash else hashBySeq seq
  | none => hashBySeq seq

def AnchorsReport.add (base : Option CompactionBase) (report : AnchorsReport) (number : Nat) :
    AnchorVerdict → AnchorsReport
  | .ok a => { report with maxOkSeq := some (report.maxOkSeq.elim a.seq (max · a.seq)) }
  | .missingSeq a =>
    if base.any fun b => 1 ≤ a.seq && a.seq < b.throughSeq then { report with compacted := report.compacted + 1 }
    else { report with bad := report.bad ++ [(number, .missingSeq a)] }
  | verdict => { report with bad := report.bad ++ [(number, verdict)] }

/-- The verdict on a line, against what the chain has at its number. -/
def verdictOf (key : Bytes) (hashBySeq : Int → Option Hash) (base : Option CompactionBase) (line : Str) :
    AnchorVerdict :=
  verifyAnchorLine hmac fromStr key line ((seqOf line).bind (hashAt hashBySeq base))

def verifyAnchorsOverBase (key : Bytes) (text : Str) (hashBySeq : Int → Option Hash)
    (base : Option CompactionBase) : AnchorsReport :=
  ((lines text).zipIdx.filter fun p => !blank p.1).foldl
    (fun report p => { report with checked := report.checked + 1 }.add base (p.2 + 1)
      (verdictOf hmac fromStr seqOf key hashBySeq base p.1)) ⟨0, [], none, 0⟩

end Verify

/-- The map that is collected from the entries of a journal: the last one of a number wins. -/
def hashBySeq (rows : List StoredRow) (seq : Int) : Option Hash :=
  (rows.reverse.filter fun r => 1 ≤ r.seq && r.seq = seq).findSome? fun r => Hash.ofBytes r.entryHash

/-- The digest of the format marker. -/
def markerHash (db : Database) : Option Hash := (db.rows.find? fun r => r.seq = formatSeq).map Row.entryHash

/-! What is written is read back. -/

theorem nibbles_value (b : UInt8) : (b >>> 4) * 16 + (b &&& 0x0F) = b := by
  rw [← UInt8.toNat_inj]
  have high : (b >>> 4).toNat = b.toNat / 16 := by
    rw [UInt8.toNat_shiftRight, Nat.shiftRight_eq_div_pow]
    rfl
  have low : (b &&& 0x0F).toNat = b.toNat % 16 := by
    rw [UInt8.toNat_and]
    exact Nat.and_two_pow_sub_one_eq_mod _ 4
  have small := b.toNat_lt
  rw [UInt8.toNat_add, UInt8.toNat_mul, high, low]
  simp only [UInt8.reduceToNat]
  omega

theorem pairs_hexLower (bytes : Bytes) : pairs (hexLower bytes) = some bytes := by
  induction bytes with
  | nil => rfl
  | cons b bytes ih =>
    obtain ⟨high, low⟩ := Orders.hex_nibbles b
    rw [hexLower, List.flatMap_cons]
    simp only [List.cons_append, List.nil_append, pairs, high, low, bind, Option.bind, pure]
    rw [hexLower] at ih
    rw [ih, nibbles_value]

theorem hexLower_length (bytes : Bytes) : (hexLower bytes).length = bytes.length * 2 := by
  induction bytes with
  | nil => rfl
  | cons b bytes ih =>
    rw [hexLower] at ih ⊢
    rw [List.flatMap_cons, List.length_append, ih, List.length_cons, List.length_cons, List.length_cons,
      List.length_nil]
    omega

/-- What the lines are made of besides their punctuation. -/
def plain (c : Char) : Bool := c.toNat < 128 && c ≠ '\n' && c ≠ '"' && c ≠ ':' && c ≠ ','

theorem plain_hexLower {bytes : Bytes} {c : Char} (member : c ∈ hexLower bytes) : plain c := by
  have table : ∀ n < 16, plain (Orders.hexLower.getD n '0') := by decide
  obtain ⟨b, _, inside⟩ := List.mem_flatMap.mp member
  rcases List.mem_cons.mp inside with rfl | inside
  · exact table _ (VPathCodec.high_nibble_lt b)
  · rw [List.mem_singleton.mp inside]
    exact table _ (VPathCodec.low_nibble_lt b)

theorem plain_displayInt {n : Int} {c : Char} (member : c ∈ displayInt n) : plain c := by
  have digit {m : Nat} (inside : c ∈ Nat.toDigits 10 m) : plain c := by
    have digit := Nat.isDigit_of_mem_toDigits (by decide) (by decide) inside
    simp only [Char.isDigit, Bool.and_eq_true, decide_eq_true_eq, ge_iff_le, UInt32.le_iff_toNat_le] at digit
    obtain ⟨low, high⟩ : 48 ≤ c.toNat ∧ c.toNat ≤ 57 := digit
    have other {d : Char} (outside : d.toNat < 48 ∨ 57 < d.toNat) : c ≠ d := by
      rintro rfl
      omega
    simp only [plain, Bool.and_eq_true, decide_eq_true_eq]
    exact ⟨⟨⟨⟨by omega, other (.inl (by decide))⟩, other (.inl (by decide))⟩, other (.inr (by decide))⟩,
      other (.inl (by decide))⟩
  unfold displayInt at member
  split at member
  · rcases List.mem_cons.mp member with rfl | inside
    · decide
    · exact digit inside
  · exact digit member

theorem unhex_hexLower (h : Hash) : unhex (hexLower h.bytes) = some h := by
  have length : (hexLower h.bytes).length = 32 * 2 := by rw [hexLower_length, h.length]
  have ascii : (hexLower h.bytes).all (fun c => c.toNat < 128) = true := by
    rw [List.all_eq_true]
    intro c member
    have plain := plain_hexLower member
    simp only [Audit.plain, Bool.and_eq_true] at plain
    exact plain.1.1.1.1
  rw [unhex, if_neg (by simp [length, ascii]), pairs_hexLower, Option.bind_some, Hash.ofBytes_bytes]

/-! Lines that are appended come back as they were. -/

theorem linesFrom_newline {l : Str} (clear : '\n' ∉ l) (line rest : Str) :
    linesFrom line (l ++ '\n' :: rest) = stripCr (line ++ l) :: linesFrom [] rest := by
  induction l generalizing line with
  | nil => simp [linesFrom]
  | cons c l ih =>
    obtain ⟨other, clear⟩ := List.ne_and_not_mem_of_not_mem_cons clear
    rw [List.cons_append, linesFrom, if_neg other.symm, ih clear, List.append_assoc]
    rfl

theorem lines_flatMap {ls : List Str} (clear : ∀ l ∈ ls, '\n' ∉ l) :
    lines (ls.flatMap fun l => l ++ ['\n']) = ls.map stripCr := by
  induction ls with
  | nil => rfl
  | cons l ls ih =>
    rw [lines, List.flatMap_cons, List.append_assoc, List.singleton_append,
      linesFrom_newline (clear l List.mem_cons_self), List.nil_append]
    exact congrArg _ (ih fun l member => clear l (List.mem_cons_of_mem _ member))

variable {file : File} {n : Int} {b c : Bytes}

theorem newline_not_mem_format : '\n' ∉ format file n (hexLower b) (hexLower c) := by
  have keys : '\n' ∉ file.seqKey ∧ '\n' ∉ file.hashKey ∧ '\n' ∉ "mac".toList := by
    cases file <;> decide
  have apart {s : Str} (clear : ∀ c ∈ s, plain c) : '\n' ∉ s := fun member => by
    cases clear _ member
  have number : '\n' ∉ displayInt n := apart fun _ => plain_displayInt
  have hash : '\n' ∉ hexLower b := apart fun _ => plain_hexLower
  have mac : '\n' ∉ hexLower c := apart fun _ => plain_hexLower
  simp [format, quoted, keys, number, hash, mac]

theorem stripCr_format : stripCr (format file n (hexLower b) (hexLower c)) = format file n (hexLower b) (hexLower c) := by
  have last : (format file n (hexLower b) (hexLower c)).getLast? = some '\x7d' := by
    rw [format, List.getLast?_concat]
  rw [stripCr, last, if_neg (by decide)]

theorem blank_format : blank (format file n (hexLower b) (hexLower c)) = false := by
  have begins : isWhitespace '\x7b' = false := by decide
  simp only [format, blank, List.cons_append, List.all_cons, begins, Bool.false_and]

theorem blank_stripCr (line : Str) : blank (stripCr line) = blank line := by
  unfold stripCr
  split
  · rename_i last
    obtain ⟨front, rfl⟩ := List.getLast?_eq_some_iff.mp last
    rw [List.dropLast_concat, blank, blank, List.all_append, List.all_cons, List.all_nil]
    have space : isWhitespace '\r' = true := by decide
    rw [space, Bool.and_true, Bool.and_true]
  · rfl

/-! Runs. -/

/-- A journal with its two files, and what their lines are about. -/
structure Trail where
  journal : Journal
  anchors : List Anchor
  anchorsText : Str
  signed : List CompactionBase
  compactionsText : Str

section Runs

variable (sha256 : Bytes → Hash) (hmac : Bytes → Bytes → Hash) (key : Bytes)

/-- Records, anchors of the head and signed compactions, in any order. A signed plan may be
carried out later, or never. -/
inductive Run : Trail → Prop where
  | fresh (tsMs : Int) : Run ⟨openInMemory sha256 tsMs, [], [], [], []⟩
  | older : Run ⟨unmarked, [], [], [], []⟩
  | record {t : Trail} {j' : Journal} {e : NewEntry} {tsMs : Int} {taken : Bool} {answer : Except JournalError Int} :
      Run t → recordEntry sha256 e tsMs taken t.journal = some (answer, j') → Run { t with journal := j' }
  | allocBatch {t : Trail} {j' : Journal} {id : Int} : Run t → allocBatch t.journal = some (id, j') →
      Run { t with journal := j' }
  | reopen {t : Trail} (tsMs : Int) : Run t → Run { t with journal := fromOptions sha256 tsMs t.journal.db }
  | anchor {t : Trail} {seq : Int} {head : Hash} : Run t → t.journal.db.head = some (seq, head) →
      Run { t with
        anchors := t.anchors ++ [⟨seq, head⟩]
        anchorsText := t.anchorsText ++ (anchorLine hmac key ⟨seq, head⟩ ++ ['\n']) }
  | space {t : Trail} {line : Str} : Run t → blank line → '\n' ∉ line →
      Run { t with anchorsText := t.anchorsText ++ (line ++ ['\n']) }
  | sign {t : Trail} {beforeMs : Int} {plan : CompactionBase} : Run t →
      compactionPlan t.journal.db beforeMs = .ok (some plan) →
      Run { t with
        signed := t.signed ++ [plan]
        compactionsText := t.compactionsText ++ (compactionLine hmac key plan (markerHash t.journal.db) ++ ['\n']) }
  | compact {t : Trail} {plan : CompactionBase} : Run t → plan ∈ t.signed →
      Run { t with journal := ⟨(compact plan t.journal.db).2, t.journal.chain⟩ }

end Runs

variable {sha256 : Bytes → Hash} {hmac : Bytes → Bytes → Hash} {key : Bytes} {t : Trail}

theorem Run.chain (run : Run sha256 hmac key t) : ∃ handed, Chain.Run sha256 (fun _ _ => True) t.journal handed := by
  induction run with
  | fresh tsMs => exact ⟨_, .fresh tsMs⟩
  | older => exact ⟨_, .older⟩
  | record _ recorded ih => exact ⟨_, ih.choose_spec.record trivial recorded⟩
  | allocBatch _ given ih => exact ⟨_, ih.choose_spec.allocBatch given⟩
  | reopen tsMs _ ih => exact ⟨_, ih.choose_spec.reopen tsMs⟩
  | anchor _ _ ih => exact ih
  | space _ _ _ ih => exact ih
  | sign _ _ ih => exact ih
  | compact _ _ ih => exact ⟨_, ih.choose_spec.compact _⟩

theorem Run.sound (run : Run sha256 hmac key t) : ∃ marker mutations, Sound sha256 t.journal marker mutations :=
  run.chain.choose_spec.sound

/-- The text of the anchors file is its lines; those that are not blank are the anchors'. -/
theorem Run.anchorsText (run : Run sha256 hmac key t) : ∃ ls : List Str, (∀ l ∈ ls, '\n' ∉ l) ∧
    t.anchorsText = ls.flatMap (fun l => l ++ ['\n']) ∧
    ls.filter (fun l => !blank l) = t.anchors.map (anchorLine hmac key) := by
  induction run with
  | fresh | older => exact ⟨[], by simp, rfl, rfl⟩
  | record _ _ ih | allocBatch _ _ ih | reopen _ _ ih | sign _ _ ih | compact _ _ ih => exact ih
  | @anchor t seq head _ _ ih =>
    obtain ⟨ls, clear, text, own⟩ := ih
    refine ⟨ls ++ [anchorLine hmac key ⟨seq, head⟩], ?_, by simp [text], ?_⟩
    · intro l member
      rcases List.mem_append.mp member with old | new
      · exact clear l old
      · rw [List.mem_singleton.mp new]
        exact newline_not_mem_format
    · rw [List.filter_append, own, List.map_append, List.filter_singleton, anchorLine, blank_format]
      rfl
  | @space t line _ empty single ih =>
    obtain ⟨ls, clear, text, own⟩ := ih
    refine ⟨ls ++ [line], ?_, by simp [text], ?_⟩
    · intro l member
      rcases List.mem_append.mp member with old | new
      · exact clear l old
      · rwa [List.mem_singleton.mp new]
    · rw [List.filter_append, own, List.filter_singleton, empty]
      exact List.append_nil _

/-- What a step of a run can do to the table, once these plans are signed. -/
inductive Change (plans : List CompactionBase) (db : Database) : Database → Prop where
  | same : Change plans db db
  | append (r : Row) : 1 ≤ r.seq → Change plans db { db with rows := db.rows ++ [r] }
  | stamp (marker : Row) : db.rows = [] → Change plans db { db with rows := [marker] }
  | cut (plan : CompactionBase) : plan ∈ plans → db.entryHashAt plan.throughSeq = some plan.throughHash →
      Change plans db (db.cutAt plan.throughSeq (some plan))

variable {plans : List CompactionBase}

theorem Change.record {j j' : Journal} {marker mutations : List Row} {e : NewEntry} {tsMs : Int} {taken : Bool}
    {answer : Except JournalError Int} (sound : Sound sha256 j marker mutations)
    (recorded : recordEntry sha256 e tsMs taken j = some (answer, j')) : Change plans j.db j'.db := by
  rcases recordEntry_cases sound e tsMs taken with none | refused | written
  · rw [none] at recorded
    cases recorded
  · rw [refused] at recorded
    obtain ⟨_, rfl⟩ := Prod.mk.inj (Option.some.inj recorded)
    exact .same
  · rw [written] at recorded
    obtain ⟨_, rfl⟩ := Prod.mk.inj (Option.some.inj recorded)
    apply Change.append
    have first := sound.chained.first
    have number := sound.lastSeq
    show 1 ≤ j.chain.lastSeq + 1
    omega

theorem Change.reopen (tsMs : Int) (db : Database) : Change plans db (fromOptions sha256 tsMs db).db := by
  show Change plans db (stampFormatIfNew sha256 tsMs db)
  rw [stampFormatIfNew]
  split
  · rename_i empty
    exact .stamp _ empty
  · exact .same

theorem Change.compact {plan : CompactionBase} (planned : plan ∈ plans) (db : Database) :
    Change plans db (Chain.compact plan db).2 := by
  unfold Chain.compact
  split
  · exact .same
  rename_i named
  split
  · exact .same
  · exact .cut plan planned (not_not.mp named)

/-- The marker of a table with rows is there to stay. -/
theorem Change.markerHash {db db' : Database} (change : Change plans db db') (written : db.rows ≠ []) :
    Audit.markerHash db' = Audit.markerHash db := by
  cases change with
  | same => rfl
  | append r positive =>
    have mutation : ¬r.seq = formatSeq := by
      simp only [formatSeq]
      omega
    simp [Audit.markerHash, List.find?_append, mutation]
  | stamp marker empty => exact absurd empty written
  | cut plan planned named =>
    rw [Audit.markerHash, Audit.markerHash, Database.cutAt, List.find?_filter]
    congr 2
    funext r
    by_cases metadata : r.seq = formatSeq
    · simp [metadata, Row.survives, formatSeq]
    · simp [metadata]

/-- What an anchor says about a table from its first mutation on, and about the base. -/
structure Holds (db : Database) (a : Anchor) : Prop where
  there : db.first ≤ a.seq → db.entryHashAt a.seq = some a.head
  base : ∀ b ∈ db.base, a.seq = b.throughSeq → a.head = b.throughHash

theorem Change.holds {db db' : Database} {marker mutations : List Row} (change : Change plans db db')
    (chained : Chained sha256 db marker mutations) {a : Anchor} (holds : Holds db a) : Holds db' a := by
  cases change with
  | same => exact holds
  | append r positive =>
    refine ⟨fun young => ?_, holds.base⟩
    have there := holds.there young
    rw [Database.entryHashAt] at there ⊢
    obtain ⟨s, found, own⟩ := Option.map_eq_some_iff.mp there
    rw [List.find?_append, found, Option.some_or, Option.map_some, own]
  | stamp marker empty =>
    refine ⟨fun young => ?_, holds.base⟩
    have there := holds.there young
    rw [Database.entryHashAt, empty] at there
    cases there
  | cut plan planned named =>
    obtain ⟨r, member, number, _⟩ := entryHashAt_eq_some named
    rw [chained.mutations] at member
    have first : db.first ≤ r.seq := (chained.linked.mem member).1
    constructor
    · intro (young : plan.throughSeq + 1 ≤ a.seq)
      rw [← holds.there (by omega), Database.entryHashAt, Database.entryHashAt, Database.cutAt, List.find?_filter]
      congr 2
      funext s
      by_cases same : s.seq = a.seq
      · have stays : s.survives plan.throughSeq := Row.survives_iff.mpr (.inr (by omega))
        simp [same, stays]
      · simp [same]
    · intro b current same
      obtain rfl := Option.some.inj current
      have there := holds.there (by omega)
      rw [same, named] at there
      exact (Option.some.inj there).symm

theorem Run.written (run : Run sha256 hmac key t) (base : t.journal.db.base.isSome) : t.journal.db.rows ≠ [] := by
  obtain ⟨marker, mutations, sound⟩ := run.sound
  have followed := sound.chained.followed base
  rw [sound.chained.rows]
  exact fun empty => followed (List.append_eq_nil_iff.mp empty).2

/-- The other file holds a line for each plan that was signed, and the base is one of them. -/
structure Signed (hmac : Bytes → Bytes → Hash) (key : Bytes) (t : Trail) (ls : List Str) : Prop where
  text : t.compactionsText = ls.flatMap fun l => l ++ ['\n']
  clear : ∀ l ∈ ls, '\n' ∉ l ∧ stripCr l = l
  lines : ∀ plan ∈ t.signed, compactionLine hmac key plan (markerHash t.journal.db) ∈ ls
  written : t.signed ≠ [] → t.journal.db.rows ≠ []
  base : ∀ b ∈ t.journal.db.base, b ∈ t.signed

/-- A step that changes the table keeps what was signed. -/
theorem Signed.change {ls : List Str} {j' : Journal} (signed : Signed hmac key t ls)
    (change : Change t.signed t.journal.db j'.db) (written : j'.db.base.isSome → j'.db.rows ≠ []) :
    Signed hmac key { t with journal := j' } ls where
  text := signed.text
  clear := signed.clear
  lines plan member := by
    rw [change.markerHash (signed.written (List.ne_nil_of_mem member))]
    exact signed.lines plan member
  written some_ := by
    generalize j'.db = db at change written ⊢
    cases change with
    | same => exact signed.written some_
    | append r _ => exact List.append_ne_nil_of_right_ne_nil _ (List.cons_ne_nil _ _)
    | stamp marker _ => exact List.cons_ne_nil _ _
    | cut plan _ _ => exact written rfl
  base := by
    generalize j'.db = db at change ⊢
    cases change with
    | same | append r _ | stamp marker _ => exact signed.base
    | cut plan planned _ =>
      intro b current
      obtain rfl := Option.some.inj current
      exact planned

theorem Run.signed (run : Run sha256 hmac key t) : ∃ ls, Signed hmac key t ls := by
  induction run with
  | fresh | older => exact ⟨[], rfl, by simp, by simp, by simp, by rintro b ⟨⟩⟩
  | record earlier recorded ih =>
    obtain ⟨ls, signed⟩ := ih
    obtain ⟨marker, mutations, sound⟩ := earlier.sound
    exact ⟨ls, signed.change (.record sound recorded) (earlier.record recorded).written⟩
  | allocBatch earlier given ih =>
    obtain ⟨ls, signed⟩ := ih
    have same := (allocBatch_eq_some given).2
    exact ⟨ls, signed.change (by rw [same]; exact .same) (earlier.allocBatch given).written⟩
  | reopen tsMs earlier ih =>
    obtain ⟨ls, signed⟩ := ih
    exact ⟨ls, signed.change (.reopen tsMs _) (earlier.reopen tsMs).written⟩
  | compact earlier planned ih =>
    obtain ⟨ls, signed⟩ := ih
    exact ⟨ls, signed.change (.compact planned _) (earlier.compact planned).written⟩
  | anchor _ _ ih | space _ _ _ ih =>
    obtain ⟨ls, signed⟩ := ih
    exact ⟨ls, signed.text, signed.clear, signed.lines, signed.written, signed.base⟩
  | @sign t beforeMs plan _ planned ih =>
    obtain ⟨ls, signed⟩ := ih
    obtain ⟨named, _⟩ := compactionPlan_spec planned
    obtain ⟨r, member, _⟩ := entryHashAt_eq_some named
    refine ⟨ls ++ [compactionLine hmac key plan (markerHash t.journal.db)], by simp [signed.text], ?_, ?_, ?_, ?_⟩
    · intro l member
      rcases List.mem_append.mp member with old | new
      · exact signed.clear l old
      · rw [List.mem_singleton.mp new]
        exact ⟨newline_not_mem_format, stripCr_format⟩
    · intro p member
      rcases List.mem_append.mp member with old | new
      · exact List.mem_append_left _ (signed.lines p old)
      · rw [List.mem_singleton.mp new]
        exact List.mem_append_right _ (List.mem_singleton_self _)
    · exact fun _ => List.ne_nil_of_mem (List.mem_filter.mp member).1
    · exact fun b current => List.mem_append_left _ (signed.base b current)

theorem entryHashAt_mem {db : Database} (sorted : db.rows.Pairwise fun r s => r.seq < s.seq) {r : Row}
    (member : r ∈ db.rows) (positive : 1 ≤ r.seq) : db.entryHashAt r.seq = some r.entryHash := by
  cases found : db.rows.find? fun s => s.seq = r.seq && 1 ≤ s.seq with
  | none =>
    have missed := List.find?_eq_none.mp found r member
    simp [positive] at missed
  | some s =>
    have same : s.seq = r.seq := by
      have matched := List.find?_some found
      simp only [Bool.and_eq_true, decide_eq_true_eq] at matched
      exact matched.1
    have numbers : (db.rows.map fun s => s.seq).Nodup :=
      List.pairwise_map.mpr (sorted.imp fun below => Int.ne_of_lt below)
    have unique : s = r := List.inj_on_of_nodup_map numbers (List.mem_of_find?_eq_some found) member same
    rw [Database.entryHashAt, found, unique]
    rfl

/-- The head is the last of the mutations. -/
theorem head_mem {db : Database} {seq : Int} {head : Hash} (found : db.head = some (seq, head)) :
    ∃ r ∈ db.mutations, r.seq = seq ∧ r.entryHash = head := by
  obtain ⟨r, last, same⟩ := Option.map_eq_some_iff.mp found
  obtain ⟨rfl, rfl⟩ := Prod.mk.inj same
  exact ⟨r, List.mem_of_getLast? last, rfl, rfl⟩

/-- What every anchor of a run says stays true, down to the base. -/
theorem Run.holds (run : Run sha256 hmac key t) : ∀ a ∈ t.anchors, Holds t.journal.db a := by
  induction run with
  | fresh | older => simp
  | record earlier recorded ih =>
    obtain ⟨marker, mutations, sound⟩ := earlier.sound
    exact fun a member => (@Change.record _ [] _ _ _ _ _ _ _ _ sound recorded).holds sound.chained (ih a member)
  | allocBatch _ given ih =>
    obtain ⟨_, rfl⟩ := allocBatch_eq_some given
    exact ih
  | reopen tsMs earlier ih =>
    obtain ⟨marker, mutations, sound⟩ := earlier.sound
    exact fun a member => (@Change.reopen _ [] tsMs _).holds sound.chained (ih a member)
  | compact earlier planned ih =>
    obtain ⟨marker, mutations, sound⟩ := earlier.sound
    exact fun a member => (Change.compact planned _).holds sound.chained (ih a member)
  | @anchor t seq head earlier found ih =>
    obtain ⟨marker, mutations, sound⟩ := earlier.sound
    obtain ⟨r, member, rfl, rfl⟩ := head_mem found
    intro a known
    rcases List.mem_append.mp known with old | new
    · exact ih a old
    · obtain rfl := List.mem_singleton.mp new
      obtain ⟨stored, mutation⟩ := List.mem_filter.mp member
      refine ⟨fun _ => entryHashAt_mem sound.chained.sorted stored (of_decide_eq_true mutation), ?_⟩
      intro b current same
      rw [sound.chained.mutations] at member
      have first : t.journal.db.first ≤ r.seq := (sound.chained.linked.mem member).1
      have current : t.journal.db.base = some b := current
      rw [Database.first, current, firstSeq_some] at first
      have same : r.seq = b.throughSeq := same
      omega
  | space _ _ _ ih | sign _ _ ih => exact ih

theorem fromOptions_lastSeq {j : Journal} {marker mutations : List Row} (sound : Sound sha256 j marker mutations)
    (tsMs : Int) : (fromOptions sha256 tsMs j.db).chain.lastSeq = j.chain.lastSeq := by
  obtain ⟨marker', opened⟩ := sound.chained.open tsMs
  have first : (fromOptions sha256 tsMs j.db).db.first = j.db.first := by
    show firstSeq (stampFormatIfNew sha256 tsMs j.db).base = _
    rw [stampFormatIfNew]
    split
    · rfl
    · rfl
  have before := sound.lastSeq
  have after := opened.lastSeq
  omega

/-- Numbers fit the column, and so do those of the anchors. -/
theorem Run.fits (run : Run sha256 hmac key t) : t.journal.chain.lastSeq ≤ maxI64 ∧
    ∀ a ∈ t.anchors, 1 ≤ a.seq ∧ a.seq ≤ maxI64 := by
  induction run with
  | fresh tsMs => exact ⟨show (0 : Int) ≤ maxI64 by decide, by simp⟩
  | older => exact ⟨by decide, by simp⟩
  | @record t j' e tsMs taken answer earlier recorded ih =>
    refine ⟨?_, ih.2⟩
    obtain ⟨marker, mutations, sound⟩ := earlier.sound
    rcases recordEntry_cases sound e tsMs taken with none | refused | written
    · rw [none] at recorded
      cases recorded
    · rw [refused] at recorded
      obtain ⟨_, rfl⟩ := Prod.mk.inj (Option.some.inj recorded)
      exact ih.1
    · have room : t.journal.chain.lastSeq ≠ maxI64 := by
        intro full
        rw [recordEntry, if_pos full] at written
        cases written
      rw [written] at recorded
      obtain ⟨_, rfl⟩ := Prod.mk.inj (Option.some.inj recorded)
      have low := ih.1
      show t.journal.chain.lastSeq + 1 ≤ maxI64
      omega
  | allocBatch _ given ih =>
    obtain ⟨_, rfl⟩ := allocBatch_eq_some given
    exact ih
  | reopen tsMs earlier ih =>
    obtain ⟨marker, mutations, sound⟩ := earlier.sound
    refine ⟨?_, ih.2⟩
    rw [fromOptions_lastSeq sound]
    exact ih.1
  | compact _ _ ih | space _ _ _ ih | sign _ _ ih => exact ih
  | @anchor t seq head earlier found ih =>
    obtain ⟨marker, mutations, sound⟩ := earlier.sound
    obtain ⟨r, member, rfl, rfl⟩ := head_mem found
    obtain ⟨stored, mutation⟩ := List.mem_filter.mp member
    have below := sound.below stored
    refine ⟨ih.1, fun a known => ?_⟩
    rcases List.mem_append.mp known with old | new
    · exact ih.2 a old
    · obtain rfl := List.mem_singleton.mp new
      have low := ih.1
      exact ⟨of_decide_eq_true mutation, show r.seq ≤ maxI64 by omega⟩

/-! What a verification says. -/

variable {fromStr : File → Str → Option Line} {seqOf : Str → Option Int}

def InI64 (n : Int) : Prop := -maxI64 - 1 ≤ n ∧ n ≤ maxI64

/-- What is relied on of the deserializer: the lines that are written, it reads. -/
structure Serde (fromStr : File → Str → Option Line) (seqOf : Str → Option Int) : Prop where
  line : ∀ file n b c, InI64 n →
    fromStr file (format file n (hexLower b) (hexLower c)) = some ⟨n, hexLower b, hexLower c⟩
  seq : ∀ n b c, InI64 n → seqOf (format .anchors n (hexLower b) (hexLower c)) = some n

/-- The verdict on an anchor that was written with the key. -/
theorem verdictOf_anchorLine (serde : Serde fromStr seqOf) (map : Int → Option Hash) (base : Option CompactionBase)
    {a : Anchor} (fits : InI64 a.seq) :
    verdictOf hmac fromStr seqOf key map base (anchorLine hmac key a) =
      match hashAt map base a.seq with
      | none => .missingSeq a
      | some h => if h = a.head then .ok a else .hashMismatch a := by
  rw [verdictOf, anchorLine, serde.seq _ _ _ fits, Option.bind_some, verifyAnchorLine, serde.line _ _ _ _ fits]
  simp only [unhex_hexLower, ne_eq, not_true_eq_false, if_false]

def beneath (base : Option CompactionBase) (a : Anchor) : Bool := base.any fun b => a.seq < b.throughSeq

/-- An anchor that the chain bears out, as far as the chain goes. -/
structure Borne (map : Int → Option Hash) (base : Option CompactionBase) (a : Anchor) : Prop where
  fits : InI64 a.seq
  dropped : beneath base a → 1 ≤ a.seq ∧ hashAt map base a.seq = none
  there : ¬beneath base a → hashAt map base a.seq = some a.head

abbrev AnchorsReport.line (hmac : Bytes → Bytes → Hash) (fromStr : File → Str → Option Line) (seqOf : Str → Option Int)
    (key : Bytes) (map : Int → Option Hash) (base : Option CompactionBase) (report : AnchorsReport) (p : Str × Nat) :
    AnchorsReport :=
  { report with checked := report.checked + 1 }.add base (p.2 + 1) (verdictOf hmac fromStr seqOf key map base p.1)

def greatest (seen : Option Int) (a : Anchor) : Option Int := some (seen.elim a.seq (max · a.seq))

theorem line_borne (serde : Serde fromStr seqOf) {map : Int → Option Hash} {base : Option CompactionBase} {a : Anchor}
    (borne : Borne map base a) (report : AnchorsReport) (n : Nat) :
    report.line hmac fromStr seqOf key map base (anchorLine hmac key a, n) =
      ⟨report.checked + 1, report.bad, if beneath base a then report.maxOkSeq else greatest report.maxOkSeq a,
        report.compacted + if beneath base a then 1 else 0⟩ := by
  rw [AnchorsReport.line, verdictOf_anchorLine serde map base borne.fits]
  by_cases dropped : beneath base a
  · obtain ⟨positive, none⟩ := borne.dropped dropped
    have compacted : (base.any fun b => 1 ≤ a.seq && a.seq < b.throughSeq) = true := by
      simpa [beneath, positive] using dropped
    rw [none, if_pos dropped, if_pos dropped]
    simp only [AnchorsReport.add, compacted, if_true]
  · rw [borne.there dropped, if_neg dropped, if_neg dropped]
    simp only [AnchorsReport.add, if_true, greatest, Nat.add_zero]

theorem foldl_borne (serde : Serde fromStr seqOf) {map : Int → Option Hash} {base : Option CompactionBase}
    {ps : List (Str × Nat)} {as : List Anchor} (own : ps.map Prod.fst = as.map (anchorLine hmac key))
    (borne : ∀ a ∈ as, Borne map base a) (report : AnchorsReport) :
    ps.foldl (AnchorsReport.line hmac fromStr seqOf key map base) report =
      ⟨report.checked + as.length, report.bad, (as.filter fun a => !beneath base a).foldl greatest report.maxOkSeq,
        report.compacted + as.countP (beneath base)⟩ := by
  induction as generalizing ps report with
  | nil =>
    obtain rfl := List.map_eq_nil_iff.mp own
    rfl
  | cons a as ih =>
    obtain ⟨p, ps, rfl, first, rest⟩ := List.map_eq_cons_iff.mp own
    obtain ⟨line, n⟩ := p
    obtain rfl : line = anchorLine hmac key a := first
    rw [List.foldl_cons, line_borne serde (borne a List.mem_cons_self), ih rest fun b member =>
      borne b (List.mem_cons_of_mem _ member)]
    cases dropped : beneath base a with
    | true => simp [dropped, Nat.add_assoc, Nat.add_comm 1]
    | false => simp [dropped, Nat.add_assoc, Nat.add_comm 1]

theorem foldl_greatest (as : List Anchor) : as.foldl greatest none = (as.map Anchor.seq).max? := by
  have past (as : List Anchor) (m : Int) : as.foldl greatest (some m) = some ((as.map Anchor.seq).foldl max m) := by
    induction as generalizing m with
    | nil => rfl
    | cons a as ih => exact ih (max m a.seq)
  cases as with
  | nil => rfl
  | cons a as => exact past as a.seq

/-- Once a line is bad the report says so to the end. -/
theorem foldl_bad {map : Int → Option Hash} {base : Option CompactionBase} {ps : List (Str × Nat)}
    {report : AnchorsReport} (bad : report.bad ≠ []) :
    (ps.foldl (AnchorsReport.line hmac fromStr seqOf key map base) report).bad ≠ [] := by
  induction ps generalizing report with
  | nil => exact bad
  | cons p ps ih =>
    apply ih
    rw [AnchorsReport.line]
    unfold AnchorsReport.add
    split
    · exact bad
    · split
      · exact bad
      · exact List.append_ne_nil_of_left_ne_nil bad _
    · exact List.append_ne_nil_of_left_ne_nil bad _

/-- An anchor that is not below the base and finds another hash, or none, is an accusation. -/
theorem foldl_accuses (serde : Serde fromStr seqOf) {map : Int → Option Hash} {base : Option CompactionBase}
    {ps : List (Str × Nat)} {a : Anchor} (fits : InI64 a.seq) (above : ¬beneath base a)
    (other : hashAt map base a.seq ≠ some a.head) {n : Nat} (member : (anchorLine hmac key a, n) ∈ ps)
    (report : AnchorsReport) :
    (ps.foldl (AnchorsReport.line hmac fromStr seqOf key map base) report).bad ≠ [] := by
  obtain ⟨before, after, rfl⟩ := List.append_of_mem member
  rw [List.foldl_append, List.foldl_cons]
  apply foldl_bad
  generalize before.foldl _ report = report
  rw [AnchorsReport.line, verdictOf_anchorLine serde map base fits]
  have kept : ¬(base.any fun b => 1 ≤ a.seq && a.seq < b.throughSeq) = true := by
    intro dropped
    apply above
    rw [beneath]
    rw [Option.any_eq_true] at dropped ⊢
    obtain ⟨b, current, inside⟩ := dropped
    exact ⟨b, current, (Bool.and_eq_true_iff.mp inside).2⟩
  cases found : hashAt map base a.seq with
  | none =>
    simp only [AnchorsReport.add, if_neg kept]
    exact List.append_ne_nil_of_right_ne_nil _ (List.cons_ne_nil _ _)
  | some h =>
    have differs : h ≠ a.head := fun same => other (by rw [found, same])
    simp only [if_neg differs, AnchorsReport.add]
    exact List.append_ne_nil_of_right_ne_nil _ (List.cons_ne_nil _ _)

theorem hashBySeq_mem {rows : List Row} (sorted : rows.Pairwise fun r s => r.seq < s.seq) {r : Row} (member : r ∈ rows)
    (positive : 1 ≤ r.seq) : hashBySeq (rows.map Row.stored) r.seq = some r.entryHash := by
  have numbers : (rows.map fun s => s.seq).Nodup := List.pairwise_map.mpr (sorted.imp fun below => Int.ne_of_lt below)
  generalize picked : ((rows.map Row.stored).reverse.filter fun s => 1 ≤ s.seq && s.seq = r.seq) = found
  have only : ∀ s ∈ found, s = r.stored := by
    intro s inside
    rw [← picked] at inside
    obtain ⟨inside, matched⟩ := List.mem_filter.mp inside
    obtain ⟨s, stored, rfl⟩ := List.mem_map.mp (List.mem_reverse.mp inside)
    simp only [Bool.and_eq_true, decide_eq_true_eq] at matched
    rw [List.inj_on_of_nodup_map numbers stored member matched.2]
  have there : r.stored ∈ found := by
    rw [← picked]
    refine List.mem_filter.mpr ⟨List.mem_reverse.mpr (List.mem_map_of_mem member), ?_⟩
    simp [Row.stored, positive]
  rw [hashBySeq, picked]
  cases found with
  | nil => cases there
  | cons s found =>
    obtain rfl := only s List.mem_cons_self
    exact List.findSome?_cons_of_isSome (by simp [Row.stored]) |>.trans (Hash.ofBytes_bytes _)

theorem hashBySeq_missing {rows : List StoredRow} {seq : Int} (missing : ∀ r ∈ rows, 1 ≤ r.seq → r.seq ≠ seq) :
    hashBySeq rows seq = none := by
  have empty : (rows.reverse.filter fun r => 1 ≤ r.seq && r.seq = seq) = [] := by
    rw [List.filter_eq_nil_iff]
    intro r member matched
    simp only [Bool.and_eq_true, decide_eq_true_eq] at matched
    exact missing r (List.mem_reverse.mp member) matched.1 matched.2
  rw [hashBySeq, empty]
  rfl

/-- Every anchor of a run is borne out by the rows that are left. -/
theorem Run.borne (run : Run sha256 hmac key t) : ∀ a ∈ t.anchors,
    Borne (hashBySeq (t.journal.db.rows.map Row.stored)) t.journal.db.base a := by
  intro a member
  obtain ⟨positive, small⟩ := run.fits.2 a member
  have holds := run.holds a member
  obtain ⟨marker, mutations, sound⟩ := run.sound
  refine ⟨⟨?_, small⟩, fun dropped => ⟨positive, ?_⟩, fun kept => ?_⟩
  · have least : -maxI64 - 1 ≤ 1 := by decide
    omega
  · obtain ⟨b, current, low⟩ := (Option.any_eq_true _ _).mp dropped
    have low := of_decide_eq_true low
    simp only [hashAt, current, if_neg (Int.ne_of_lt low)]
    apply hashBySeq_missing
    intro s inside mutation same
    obtain ⟨r, stored, rfl⟩ := List.mem_map.mp inside
    have chained : r ∈ t.journal.db.mutations := List.mem_filter.mpr ⟨stored, decide_eq_true mutation⟩
    rw [sound.chained.mutations] at chained
    have first : t.journal.db.first ≤ r.seq := (sound.chained.linked.mem chained).1
    rw [Database.first, current, firstSeq_some] at first
    have same : r.seq = a.seq := same
    omega
  · have there (young : t.journal.db.first ≤ a.seq) :
        hashBySeq (t.journal.db.rows.map Row.stored) a.seq = some a.head := by
      obtain ⟨r, chained, number, hash⟩ := entryHashAt_eq_some (holds.there young)
      obtain ⟨stored, mutation⟩ := List.mem_filter.mp chained
      rw [← number, ← hash]
      exact hashBySeq_mem sound.chained.sorted stored (of_decide_eq_true mutation)
    cases current : t.journal.db.base with
    | none =>
      apply there
      rw [Database.first, current]
      exact positive
    | some b =>
      rw [beneath, current, Option.any_some, decide_eq_true_eq] at kept
      simp only [hashAt]
      split
      · rename_i same
        rw [holds.base b current same]
      · apply there
        rw [Database.first, current, firstSeq_some]
        omega

theorem Run.base_fits (run : Run sha256 hmac key t) : ∀ b ∈ t.journal.db.base, InI64 b.throughSeq := by
  intro b current
  obtain ⟨marker, mutations, sound⟩ := run.sound
  have least : -maxI64 - 1 ≤ 0 := by decide
  have room := run.fits.1
  have number := sound.lastSeq
  have first := sound.chained.first
  have current : t.journal.db.base = some b := current
  simp only [Database.first, current, firstSeq_some] at number first
  constructor
  · omega
  · omega

/-- The base of a run's journal is one that a line of the other file signs. -/
theorem Run.baseIsSigned (serde : Serde fromStr seqOf) (run : Run sha256 hmac key t) : ∀ b ∈ t.journal.db.base,
    Audit.baseIsSigned hmac fromStr key t.compactionsText b (markerHash t.journal.db) := by
  intro b current
  have fits := run.base_fits b current
  obtain ⟨ls, signed⟩ := run.signed
  have line := signed.lines b (signed.base b current)
  rw [Audit.baseIsSigned, signed.text, lines_flatMap fun l member => (signed.clear l member).1, List.any_eq_true]
  refine ⟨_, List.mem_map.mpr ⟨_, line, (signed.clear _ line).2⟩, ?_⟩
  rw [compactionLine, serde.line _ _ _ _ fits]
  simp only [unhex_hexLower, decide_true, Bool.and_self]

/-- The lines that are not blank are those of the anchors, in order. -/
theorem Run.lines (run : Run sha256 hmac key t) : (Audit.lines t.anchorsText).filter (fun l => !blank l) =
    t.anchors.map (anchorLine hmac key) := by
  obtain ⟨ls, clear, text, own⟩ := run.anchorsText
  have same : (fun l => !blank l) ∘ stripCr = fun l => !blank l := by
    funext l
    simp [blank_stripCr]
  rw [text, lines_flatMap clear, List.filter_map, same, own, List.map_map]
  apply List.map_congr_left
  intro a _
  exact stripCr_format

/-- Anchors never accuse the rows a run leaves, and always accuse rows that differ from them
at an anchor, whether those verify as a chain or not. The base counts as the row it names. -/
theorem anchors_hold (serde : Serde fromStr seqOf) (run : Run sha256 hmac key t) :
    verifyAnchorsOverBase hmac fromStr seqOf key t.anchorsText (hashBySeq (t.journal.db.rows.map Row.stored))
      t.journal.db.base = {
        checked := (lines t.anchorsText).countP fun l => !blank l
        bad := []
        maxOkSeq := ((t.anchors.filter fun a => !beneath t.journal.db.base a).map Anchor.seq).max?
        compacted := t.anchors.countP (beneath t.journal.db.base) } ∧
    (∀ b ∈ t.journal.db.base, baseIsSigned hmac fromStr key t.compactionsText b (markerHash t.journal.db)) ∧
    ∀ rows : List StoredRow, (∃ a ∈ t.anchors, ¬beneath t.journal.db.base a ∧
        hashAt (hashBySeq rows) t.journal.db.base a.seq ≠ some a.head) →
      (verifyAnchorsOverBase hmac fromStr seqOf key t.anchorsText (hashBySeq rows) t.journal.db.base).bad ≠ [] := by
  have own : ((lines t.anchorsText).zipIdx.filter fun p => !blank p.1).map Prod.fst =
      t.anchors.map (anchorLine hmac key) := by
    rw [← run.lines]
    nth_rewrite 2 [← List.zipIdx_map_fst 0 (lines t.anchorsText)]
    rw [List.filter_map]
    rfl
  refine ⟨?_, run.baseIsSigned serde, fun rows ⟨a, member, above, other⟩ => ?_⟩
  · have checked : (lines t.anchorsText).countP (fun l => !blank l) = t.anchors.length := by
      rw [List.countP_eq_length_filter, run.lines, List.length_map]
    refine (foldl_borne serde own run.borne _).trans ?_
    rw [checked, foldl_greatest, Nat.zero_add, Nat.zero_add]
  · have line : anchorLine hmac key a ∈ t.anchors.map (anchorLine hmac key) := List.mem_map_of_mem member
    rw [← own] at line
    obtain ⟨⟨_, n⟩, inside, rfl⟩ := List.mem_map.mp line
    exact foldl_accuses serde (run.borne a member).fits above other inside _

/-! A run for examples, with a deserializer that reads just these lines. -/

def readInt (s : Str) : Int :=
  if s.head? = some '-' then -(Nat.ofDigitChars 10 s.tail 0 : Int) else Nat.ofDigitChars 10 s 0

theorem readInt_displayInt (n : Int) : readInt (displayInt n) = n := by
  unfold displayInt
  split
  · rw [readInt, List.head?_cons, if_pos rfl, List.tail_cons, Nat.ofDigitChars_ten_toDigits]
    omega
  · have digits : ¬(Nat.toDigits 10 n.natAbs).head? = some '-' := by
      intro minus
      cases Nat.isDigit_of_mem_toDigits (by decide) (by decide) (List.mem_of_head? minus)
    rw [readInt, if_neg digits, Nat.ofDigitChars_ten_toDigits]
    omega

def sampleFromStr (_ : File) (line : Str) : Option Line := do
  let (_, rest) ← splitOnce [':'] line
  let (n, rest) ← splitOnce [','] rest
  let (_, rest) ← splitOnce [':', '"'] rest
  let (hash, rest) ← splitOnce ['"'] rest
  let (_, rest) ← splitOnce [':', '"'] rest
  let (mac, _) ← splitOnce ['"'] rest
  return ⟨readInt n, hash, mac⟩

def sampleSeqOf (line : Str) : Option Int := (sampleFromStr .anchors line).map Line.seq

theorem sampleFromStr_format (file : File) (n : Int) (b c : Bytes) :
    sampleFromStr file (format file n (hexLower b) (hexLower c)) = some ⟨n, hexLower b, hexLower c⟩ := by
  have apart {d : Char} {s : Str} (other : ¬plain d) (clear : ∀ c ∈ s, plain c) : d ∉ s := fun member =>
    other (clear d member)
  have number : ',' ∉ displayInt n := apart (by decide) fun _ => plain_displayInt
  have hash : '"' ∉ hexLower b := apart (by decide) fun _ => plain_hexLower
  have mac : '"' ∉ hexLower c := apart (by decide) fun _ => plain_hexLower
  have keys : ':' ∉ '\x7b' :: quoted file.seqKey ∧ ':' ∉ quoted file.hashKey ∧ ':' ∉ ',' :: quoted "mac".toList := by
    cases file <;> decide
  have written : format file n (hexLower b) (hexLower c) = ('\x7b' :: quoted file.seqKey) ++ ':' :: ([] ++
      (displayInt n ++ ',' :: ([] ++ (quoted file.hashKey ++ ':' :: (['"'] ++ (hexLower b ++ '"' :: ([] ++
        ((',' :: quoted "mac".toList) ++ ':' :: (['"'] ++ (hexLower c ++ '"' :: ([] ++ ['\x7d']))))))))))) := by
    simp [format, quoted]
  rw [written, sampleFromStr]
  simp only [splitOnce_first keys.1, splitOnce_first number, splitOnce_first keys.2.1, splitOnce_first hash,
    splitOnce_first keys.2.2, splitOnce_first mac, bind, Option.bind, pure, readInt_displayInt]

theorem sampleSerde : Serde sampleFromStr sampleSeqOf where
  line file n b c _ := sampleFromStr_format file n b c
  seq n b c _ := by rw [sampleSeqOf, sampleFromStr_format, Option.map_some]

def sampleHmac (key message : Bytes) : Hash := sampleHash (key ++ message)

/-- The user records something. -/
def Trail.recorded (tsMs : Int) (t : Trail) : Option Trail :=
  (recordEntry sampleHash (sampleEntry none) tsMs true t.journal).map fun p => { t with journal := p.2 }

/-- `audit anchor`. -/
def Trail.anchored (t : Trail) : Option Trail :=
  t.journal.db.head.map fun head => { t with
    anchors := t.anchors ++ [⟨head.1, head.2⟩]
    anchorsText := t.anchorsText ++ (anchorLine sampleHmac [7] ⟨head.1, head.2⟩ ++ ['\n']) }

/-- `journal compact`. -/
def Trail.compacted (beforeMs : Int) (t : Trail) : Option Trail :=
  (compactionPlan t.journal.db beforeMs).toOption.join.map fun plan => { t with
    journal := ⟨(compact plan t.journal.db).2, t.journal.chain⟩
    signed := t.signed ++ [plan]
    compactionsText := t.compactionsText ++
      (compactionLine sampleHmac [7] plan (markerHash t.journal.db) ++ ['\n']) }

/-- Three entries, each one anchored, and the first two dropped. -/
def sampleTrail : Option Trail := do
  let t ← Trail.recorded 7 ⟨openInMemory sampleHash 7, [], [], [], []⟩
  let t ← t.anchored
  let t ← t.recorded 8
  let t ← t.anchored
  let t ← t.recorded 9
  let t ← t.anchored
  t.compacted 9

theorem Run.recorded {t t' : Trail} {tsMs : Int} (run : Run sampleHash sampleHmac [7] t)
    (done : t.recorded tsMs = some t') : Run sampleHash sampleHmac [7] t' := by
  obtain ⟨p, recorded, rfl⟩ := Option.map_eq_some_iff.mp done
  exact run.record recorded

theorem Run.anchored {t t' : Trail} (run : Run sampleHash sampleHmac [7] t) (done : t.anchored = some t') :
    Run sampleHash sampleHmac [7] t' := by
  obtain ⟨⟨seq, head⟩, found, rfl⟩ := Option.map_eq_some_iff.mp done
  exact run.anchor found

theorem Run.compacted {t t' : Trail} {beforeMs : Int} (run : Run sampleHash sampleHmac [7] t)
    (done : t.compacted beforeMs = some t') : Run sampleHash sampleHmac [7] t' := by
  obtain ⟨plan, found, rfl⟩ := Option.map_eq_some_iff.mp done
  have planned : compactionPlan t.journal.db beforeMs = .ok (some plan) := by
    cases answer : compactionPlan t.journal.db beforeMs with
    | error e =>
      rw [answer] at found
      cases found
    | ok p =>
      rw [answer] at found
      exact congrArg Except.ok found
  exact (run.sign planned).compact (List.mem_append_right _ (List.mem_singleton_self _))

theorem sampleTrail_run {t : Trail} (reached : sampleTrail = some t) : Run sampleHash sampleHmac [7] t := by
  unfold sampleTrail at reached
  obtain ⟨one, done, reached⟩ := Option.bind_eq_some_iff.mp reached
  have run := (Run.fresh 7).recorded done
  obtain ⟨two, done, reached⟩ := Option.bind_eq_some_iff.mp reached
  have run := run.anchored done
  obtain ⟨three, done, reached⟩ := Option.bind_eq_some_iff.mp reached
  have run := run.recorded done
  obtain ⟨four, done, reached⟩ := Option.bind_eq_some_iff.mp reached
  have run := run.anchored done
  obtain ⟨five, done, reached⟩ := Option.bind_eq_some_iff.mp reached
  have run := run.recorded done
  obtain ⟨six, done, reached⟩ := Option.bind_eq_some_iff.mp reached
  exact (run.anchored done).compacted reached

/-- Of the three anchors one is below the base, one at it and one above. -/
theorem anchors_hold_sampleTrail : ∃ t ∈ sampleTrail, t.anchors.map Anchor.seq = [1, 2, 3] ∧
    (verifyAnchorsOverBase sampleHmac sampleFromStr sampleSeqOf [7] t.anchorsText
      (hashBySeq (t.journal.db.rows.map Row.stored)) t.journal.db.base).bad = [] ∧
    t.anchors.countP (beneath t.journal.db.base) = 1 := by
  have ran : sampleTrail.map (fun t => (t.anchors.map Anchor.seq, t.anchors.countP (beneath t.journal.db.base))) =
      some ([1, 2, 3], 1) := by
    decide +kernel
  obtain ⟨t, reached, same⟩ := Option.map_eq_some_iff.mp ran
  obtain ⟨seqs, dropped⟩ := Prod.mk.inj same
  refine ⟨t, reached, seqs, ?_, dropped⟩
  rw [(anchors_hold sampleSerde (sampleTrail_run reached)).1]

end Norte.Audit
