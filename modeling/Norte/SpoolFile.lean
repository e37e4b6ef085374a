import Norte.PlanToken
import Norte.SpoolRegistry

/-! A plan retained in a file: how it is opened and how its steps are read back. Opening
verifies the digest in one loop over the records, streaming reads them in another one, in
batches; both meet at `Body`, what a well-formed file says after its header. -/
namespace Norte.Sync

open Hashing Utf8

inductive SpoolError where
  | notFound
  | expired
  | malformed (why : String)
  | io
  deriving DecidableEq, Repr

structure SpoolHeader where
  format : UInt32
  connId : Nat
  options : SyncOptions
  compare : SyncCompareOptions
  deriving DecidableEq

structure SpoolSummary where
  planHash : PlanHash
  counts : SyncCounts
  blockers : List SyncBlocker
  blockersTotal : UInt64
  executable : Bool
  deriving DecidableEq

structure SpoolStep where
  step : SyncStep
  dest : Option DestWitness
  deriving DecidableEq

inductive Record where
  | head (header : SpoolHeader)
  | step (step : SpoolStep)
  | terminator (summary : SpoolSummary)

def spoolFormat : UInt32 := 2
def spoolMaxRecord : Nat := 8 * 2 ^ 20
def readChunkBytes : Nat := 64 * 1024
def syncPlanTtlMs : Nat := 600000
def newline : UInt8 := '\n'.toUInt8

/-- A file as it lies in the spool directory. There is no age when the time of its last
change is unknown or ahead of the clock. -/
structure SpoolFile where
  isFile : Bool
  age : Option Nat
  bytes : Bytes

def SpoolFile.expired (file : SpoolFile) : Bool :=
  match file.age with
  | none => false
  | some age => syncPlanTtlMs < age

/-- `take(limit).read_until(b'\n')`: what is read, and what is left. -/
def readUntil : Nat → Bytes → Bytes × Bytes
  | 0, rest => ([], rest)
  | _ + 1, [] => ([], [])
  | limit + 1, b :: rest =>
    if b = newline then ([b], rest)
    else
      let (line, rest) := readUntil limit rest
      (b :: line, rest)

/-- One capped line: how many bytes it took, the line, and what is left. Zero is the end
of the file. -/
def readCappedLine (rest : Bytes) : Except SpoolError (Nat × Bytes × Bytes) :=
  let (line, rest) := readUntil (spoolMaxRecord + 1) rest
  if line = [] then .ok (0, [], rest)
  else if line.getLast? ≠ some newline then
    .error (.malformed "a record with no line ending: truncated spool, or the record exceeds the cap")
  else .ok (line.length, line.dropLast, rest)

theorem readUntil_length (limit : Nat) (rest : Bytes) :
    (readUntil limit rest).1.length + (readUntil limit rest).2.length = rest.length := by
  fun_induction readUntil limit rest <;> grind

theorem readCappedLine_length {rest line tail : Bytes} {n : Nat}
    (read : readCappedLine rest = .ok (n, line, tail)) : n + tail.length = rest.length := by
  have total := readUntil_length (spoolMaxRecord + 1) rest
  simp only [readCappedLine] at read
  split at read
  · cases read
    simp_all
  · split at read
    · cases read
    · cases read
      exact total

/-- The window that holds the last complete line; it doubles up to the cap and two bytes. -/
def lastLineFrom (window : Nat) (positive : 0 < window) (bytes : Bytes) :
    Except SpoolError Bytes :=
  let ceiling := spoolMaxRecord + 2
  let start := bytes.length - window
  let buf := bytes.drop start
  let body := if buf.getLast? = some newline then buf.dropLast else buf
  if newline ∈ body then .ok (body.reverse.takeWhile (· ≠ newline)).reverse
  else if start = 0 then .ok body
  else if ceiling ≤ window then
    .error (.malformed "the spool's last record exceeds the cap")
  else lastLineFrom (min (window * 2) ceiling) (by omega) bytes
termination_by spoolMaxRecord + 2 - window
decreasing_by omega

def readLastLine (bytes : Bytes) : Except SpoolError Bytes :=
  if bytes = [] then .error (.malformed "empty spool") else lastLineFrom (8 * 1024) (by decide) bytes

/-! A record is written as a line of its own. Either reader gives such a line back. -/

theorem readUntil_line {line : Bytes} (clear : newline ∉ line) (rest : Bytes) {limit : Nat}
    (room : line.length < limit) :
    readUntil limit (line ++ newline :: rest) = (line ++ [newline], rest) := by
  induction line generalizing limit with
  | nil =>
    cases limit with
    | zero => exact absurd room (by simp)
    | succ limit => simp [readUntil]
  | cons b line ih =>
    rw [List.mem_cons, not_or] at clear
    cases limit with
    | zero => exact absurd room (by simp)
    | succ limit =>
      have tail := ih clear.2 (Nat.lt_of_succ_lt_succ room)
      simp [readUntil, tail, Ne.symm clear.1]

theorem readCappedLine_line {line : Bytes} (clear : newline ∉ line)
    (room : line.length ≤ spoolMaxRecord) (rest : Bytes) :
    readCappedLine (line ++ newline :: rest) = .ok (line.length + 1, line, rest) := by
  simp [readCappedLine, readUntil_line clear rest (Nat.lt_succ_of_le room)]

/-- A window that holds the last line, and the end of the one before it, finds it. -/
theorem lastLineFrom_line {last : Bytes} (clear : newline ∉ last) {window : Nat}
    (positive : 0 < window) (fits : last.length + 2 ≤ window) (before : Bytes) :
    lastLineFrom window positive (before ++ newline :: (last ++ [newline])) = .ok last := by
  have start : (before ++ newline :: (last ++ [newline])).length - window ≤ before.length := by
    simp
    omega
  have stop : ∀ b ∈ last.reverse, decide (b ≠ newline) := by
    intro b member
    apply decide_eq_true
    rintro rfl
    exact clear (List.mem_reverse.mp member)
  rw [lastLineFrom]
  simp only [List.drop_append_of_le_length start]
  generalize before.drop _ = kept
  have closed : (kept ++ newline :: (last ++ [newline])).getLast? = some newline := by
    rw [← List.cons_append, ← List.append_assoc, List.getLast?_concat]
  have body : (kept ++ newline :: (last ++ [newline])).dropLast = kept ++ newline :: last := by
    rw [← List.cons_append, ← List.append_assoc, List.dropLast_concat]
  have found : ((kept ++ newline :: last).reverse.takeWhile (· ≠ newline)).reverse = last := by
    rw [List.reverse_append, List.reverse_cons, List.append_assoc, List.takeWhile_append_of_pos stop]
    simp
  rw [if_pos closed, body, if_pos (by simp), found]

def validatedStep (record : SpoolStep) : Except SpoolError SpoolStep :=
  if record.step.kind = .unknown then
    .error (.malformed "an unknown-class step in a spool we wrote ourselves")
  else if !record.step.shapeIsConsistent then
    .error (.malformed "a step whose class, reversal and reason don't agree")
  else .ok record

section Reading

variable (decode : Bytes → Except SpoolError Record)

/-- The loop of `verify_digest`: the digest and the counters over the records. -/
def verifyLoop (hasher : PlanHasher) (counts : SyncCounts) (rest : Bytes) :
    Except SpoolError (PlanHasher × SyncCounts) :=
  match _read : readCappedLine rest with
  | .error e => .error e
  | .ok (0, _, _) => .error (.malformed "the spool ends with no terminator")
  | .ok (_ + 1, line, tail) =>
    match decode line with
    | .error e => .error e
    | .ok (.step record) =>
      match validatedStep record with
      | .error e => .error e
      | .ok record => verifyLoop (hasher.step record.step) (counts.add record.step) tail
    | .ok (.terminator _) =>
      match readCappedLine tail with
      | .error e => .error e
      | .ok (0, _, _) => .ok (hasher, counts)
      | .ok _ => .error (.malformed "there are records after the terminator")
    | .ok (.head _) => .error (.malformed "a header in the middle of the spool")
termination_by rest.length
decreasing_by
  have := readCappedLine_length _read
  omega

/-- One batch of the stream: it ends at the terminator, or once enough bytes were read. -/
def readBatch (read : Nat) (batch : List SpoolStep) (rest : Bytes) :
    Except SpoolError (List SpoolStep × Bool × Bytes) :=
  if readChunkBytes ≤ read then .ok (batch, false, rest)
  else
    match _took : readCappedLine rest with
    | .error e => .error e
    | .ok (0, _, _) => .error (.malformed "the spool ends with no terminator")
    | .ok (n + 1, line, tail) =>
      match decode line with
      | .error e => .error e
      | .ok (.step record) =>
        match validatedStep record with
        | .error e => .error e
        | .ok record => readBatch (read + (n + 1)) (batch ++ [record]) tail
      | .ok (.terminator _) =>
        match readCappedLine tail with
        | .error e => .error e
        | .ok (0, _, after) => .ok (batch, true, after)
        | .ok _ => .error (.malformed "there are records after the terminator")
      | .ok (.head _) => .error (.malformed "a header in the middle of the spool")
termination_by rest.length
decreasing_by
  have := readCappedLine_length _took
  omega

/-- A batch never gives bytes back, and a fresh one that did not end took some. -/
theorem readBatch_length {read : Nat} {batch batch' : List SpoolStep} {rest tail : Bytes}
    {ended : Bool} (took : readBatch decode read batch rest = .ok (batch', ended, tail)) :
    tail.length ≤ rest.length ∧ (read < readChunkBytes → ended = false → tail.length < rest.length) := by
  fun_induction readBatch decode read batch rest with
  | case1 => cases took; exact ⟨Nat.le_refl _, fun room => absurd room (by omega)⟩
  | case6 read batch rest room n line tail' took' record record' _ _ ih =>
    have step := readCappedLine_length took'
    have later := (ih took).1
    exact ⟨by omega, fun _ _ => by omega⟩
  | case8 read batch rest room n line tail' took' _ _ _ _ closed =>
    cases took
    have step := readCappedLine_length took'
    have last := readCappedLine_length closed
    exact ⟨by omega, fun _ notYet => nomatch notYet⟩
  | _ => cases took

/-- The stream of steps: a batch is handed out before the next one is read. What comes
after the last step is the end of the stream, or an error. -/
def drain (rest : Bytes) : List SpoolStep × Option SpoolError :=
  match _took : readBatch decode 0 [] rest with
  | .error e => ([], some e)
  | .ok (batch, true, _) => (batch, none)
  | .ok (batch, false, tail) =>
    let (more, e) := drain tail
    (batch ++ more, e)
termination_by rest.length
decreasing_by exact (readBatch_length decode _took).2 (by decide) rfl

/-! Opening. -/

variable (sha256 : Bytes → Bytes)

/-- Recomputes the digest and the counters over the steps that follow the header. -/
def verifyDigest (bytes : Bytes) (headLen : Nat) (header : SpoolHeader) (want : PlanHash)
    (summary : SpoolSummary) : Except SpoolError Unit :=
  match verifyLoop decode (.new header.options header.compare) .empty (bytes.drop headLen) with
  | .error e => .error e
  | .ok (hasher, counts) =>
    if hasher.finish sha256 ≠ want then
      .error (.malformed
        "the recomputed digest is not the one in the name: the spool was tampered with")
    else if counts ≠ summary.counts then
      .error (.malformed "the terminator's counters are not the steps'")
    else .ok ()

/-- A retained plan: its header, its summary, and the bytes its steps are read from. -/
structure SpoolReader where
  file : Bytes
  header : SpoolHeader
  summary : SpoolSummary
  deriving DecidableEq

def SpoolReader.steps (reader : SpoolReader) : List SpoolStep × Option SpoolError :=
  drain decode reader.file

/-- The content has to state the connection and the hash of the name, and to agree with
itself on being executable; only then are the steps read. -/
def openChecked (bytes : Bytes) (headLen : Nat) (header : SpoolHeader) (summary : SpoolSummary)
    (connId : Nat) (want : PlanHash) : Except SpoolError SpoolReader :=
  if header.format ≠ spoolFormat then
    .error (.malformed s!"spool format {header.format} (this binary writes {spoolFormat})")
  else if header.connId ≠ connId ∨ summary.planHash ≠ want then
    .error (.malformed "the spool does not state its name's connection and hash")
  else if summary.executable ≠ (summary.blockersTotal = 0) then
    .error (.malformed "`executable` does not agree with the number of blockers")
  else
    let reader := ⟨bytes.drop headLen, header, summary⟩
    if summary.executable then
      (verifyDigest decode sha256 bytes headLen header summary.planHash summary).map fun _ => reader
    else .ok reader

def openHeader (bytes : Bytes) (summary : SpoolSummary) (connId : Nat) (want : PlanHash) :
    Except SpoolError SpoolReader :=
  match readCappedLine bytes with
  | .error e => .error e
  | .ok (0, _, _) => .error (.malformed "empty spool")
  | .ok (n + 1, line, _) =>
    match decode line with
    | .error e => .error e
    | .ok (.head header) => openChecked decode sha256 bytes (n + 1) header summary connId want
    | .ok _ => .error (.malformed "the spool's first line is not its header")

/-- The last line is read first: without a terminator the file is not a plan. -/
def openBlocking (file : Option SpoolFile) (connId : Nat) (want : PlanHash) :
    Except SpoolError SpoolReader :=
  match file with
  | none => .error .notFound
  | some file =>
    if !file.isFile then .error .notFound
    else if file.expired then .error .expired
    else
      match readLastLine file.bytes with
      | .error e => .error e
      | .ok line =>
        match decode line with
        | .error e => .error e
        | .ok (.terminator summary) => openHeader decode sha256 file.bytes summary connId want
        | .ok _ => .error (.malformed "the spool's last line is not its terminator")

/-- The name a plan is looked up by. -/
def fileName (connId : Nat) (hash : PlanHash) : Bytes :=
  encode (Nat.toDigits 10 connId) ++ encode ['-'] ++ hash.hex ++ encode ".jsonl".toList

/-- The right is charged first; a file that does not open gives it back unusable. -/
def Spool.open (reg : Spool.Registry PlanHash) (dir : Bytes → Option SpoolFile) (connId : Nat)
    (hash : PlanHash) : Spool.Registry PlanHash × Except SpoolError SpoolReader :=
  match reg.claimIssued connId hash with
  | none => (reg, .error .notFound)
  | some reg =>
    match openBlocking decode sha256 (dir (fileName connId hash)) connId hash with
    | .error e => (reg.releaseApplying connId hash, .error e)
    | .ok reader => (reg, .ok reader)

/-! Both loops read a body: step records, one terminator, and nothing after it. -/

inductive Body : Bytes → List SpoolStep → Prop where
  | terminator {rest line tail after : Bytes} {n : Nat} {summary : SpoolSummary}
      (took : readCappedLine rest = .ok (n + 1, line, tail))
      (decoded : decode line = .ok (.terminator summary))
      (closed : readCappedLine tail = .ok (0, [], after)) : Body rest []
  | step {rest line tail : Bytes} {n : Nat} {record : SpoolStep} {records : List SpoolStep}
      (took : readCappedLine rest = .ok (n + 1, line, tail))
      (decoded : decode line = .ok (.step record))
      (valid : validatedStep record = .ok record)
      (more : Body tail records) : Body rest (record :: records)

theorem validatedStep_eq {record record' : SpoolStep}
    (valid : validatedStep record = .ok record') : record' = record := by
  simp only [validatedStep] at valid
  split at valid
  · cases valid
  · split at valid <;> cases valid
    rfl

theorem readCappedLine_end {rest line after : Bytes}
    (closed : readCappedLine rest = .ok (0, line, after)) : line = [] := by
  simp only [readCappedLine] at closed
  split at closed
  · cases closed
    rfl
  · split at closed
    · cases closed
    · injection closed with closed
      simp_all

variable {decode sha256}

/-- What the digest is recomputed over is a body. -/
theorem verifyLoop_body {hasher hasher' : PlanHasher} {counts counts' : SyncCounts} {rest : Bytes}
    (verified : verifyLoop decode hasher counts rest = .ok (hasher', counts')) :
    ∃ records, Body decode rest records ∧
      hasher' = records.foldl (fun h r => h.step r.step) hasher := by
  fun_induction verifyLoop decode hasher counts rest with
  | case5 hasher counts rest n line tail took record decoded record' valid ih =>
    obtain ⟨records, body, folded⟩ := ih verified
    obtain rfl := validatedStep_eq valid
    exact ⟨record' :: records, .step took decoded valid body, folded⟩
  | case7 hasher counts rest n line tail took summary decoded end' after closed =>
    cases verified
    obtain rfl := readCappedLine_end closed
    exact ⟨[], .terminator took decoded closed, rfl⟩
  | _ => cases verified

theorem body_verifies {rest : Bytes} {records : List SpoolStep} (body : Body decode rest records)
    (hasher : PlanHasher) (counts : SyncCounts) :
    verifyLoop decode hasher counts rest =
      .ok (records.foldl (fun h r => h.step r.step) hasher,
        records.foldl (fun c r => c.add r.step) counts) := by
  induction body generalizing hasher counts with
  | terminator took decoded closed =>
    rw [verifyLoop]
    split <;> simp_all
  | @step rest line tail n record records took decoded valid more ih =>
    have next : verifyLoop decode hasher counts rest =
        verifyLoop decode (hasher.step record.step) (counts.add record.step) tail := by
      rw [verifyLoop]
      split <;> simp_all
    rw [next, ih]
    rfl

/-- A batch of a body is its front; what is left, if anything, is a body again. -/
theorem readBatch_body {rest : Bytes} {records : List SpoolStep} (body : Body decode rest records)
    (read : Nat) (batch : List SpoolStep) :
    (∃ tail, readBatch decode read batch rest = .ok (batch ++ records, true, tail)) ∨
      ∃ tail front back, records = front ++ back ∧ Body decode tail back ∧
        readBatch decode read batch rest = .ok (batch ++ front, false, tail) := by
  induction body generalizing read batch with
  | @terminator rest line tail after n summary took decoded closed =>
    by_cases full : readChunkBytes ≤ read
    · refine .inr ⟨rest, [], [], rfl, .terminator took decoded closed, ?_⟩
      rw [readBatch, if_pos full, List.append_nil]
    · refine .inl ⟨after, ?_⟩
      rw [readBatch, if_neg full]
      split <;> simp_all
  | @step rest line tail n record records took decoded valid more ih =>
    by_cases full : readChunkBytes ≤ read
    · refine .inr ⟨rest, [], _, rfl, .step took decoded valid more, ?_⟩
      rw [readBatch, if_pos full, List.append_nil]
    · have next : readBatch decode read batch rest =
          readBatch decode (read + (n + 1)) (batch ++ [record]) tail := by
        rw [readBatch, if_neg full]
        split <;> simp_all
      rw [next]
      obtain ⟨last, whole⟩ | ⟨last, front, back, split, left, part⟩ :=
        ih (read + (n + 1)) (batch ++ [record])
      · exact .inl ⟨last, by simpa using whole⟩
      · exact .inr ⟨last, record :: front, back, by rw [split]; rfl, left, by simpa using part⟩

/-- Streamed in whatever batches, a body gives all its records and then ends. -/
theorem drain_body {rest : Bytes} {records : List SpoolStep} (body : Body decode rest records) :
    drain decode rest = (records, none) := by
  fun_induction drain decode rest generalizing records with
  | case1 rest e took =>
    obtain ⟨tail, whole⟩ | ⟨tail, front, back, split, left, part⟩ := readBatch_body body 0 [] <;>
      simp_all
  | case2 rest batch tail took =>
    obtain ⟨tail, whole⟩ | ⟨tail, front, back, split, left, part⟩ := readBatch_body body 0 [] <;>
      simp_all
  | case3 rest batch tail took more e streamed ih =>
    obtain ⟨tail, whole⟩ | ⟨tail', front, back, split, left, part⟩ := readBatch_body body 0 []
    · simp_all
    · have same := took.symm.trans part
      simp only [Except.ok.injEq, Prod.mk.injEq, true_and, List.nil_append] at same
      obtain ⟨rfl, rfl⟩ := same
      have rest := ih left
      rw [streamed] at rest
      cases rest
      rw [split]

theorem Body.decoded {rest : Bytes} {records : List SpoolStep} (body : Body decode rest records) :
    ∀ record ∈ records, ∃ line, decode line = .ok (.step record) := by
  induction body with
  | terminator => simp
  | step took decoded valid more ih =>
    intro record member
    rcases List.mem_cons.mp member with rfl | later
    · exact ⟨_, decoded⟩
    · exact ih record later

def SpoolStep.item (record : SpoolStep) : PlanItem := .step record.step record.dest

/-- A plan that opens as executable is a body, and its name is the token of what the body
says under the options of its header. -/
theorem openChecked_body {bytes : Bytes} {headLen connId : Nat} {header : SpoolHeader}
    {summary : SpoolSummary} {want : PlanHash} {reader : SpoolReader}
    (opened : openChecked decode sha256 bytes headLen header summary connId want = .ok reader)
    (executable : reader.summary.executable) :
    reader.header = header ∧ ∃ records, Body decode reader.file records ∧
      planToken sha256 header.options header.compare (records.map SpoolStep.item) = want := by
  simp only [openChecked] at opened
  split at opened
  · cases opened
  split at opened
  · cases opened
  split at opened
  · cases opened
  rename_i named _
  rw [not_or, not_not, not_not] at named
  split at opened
  · rw [verifyDigest] at opened
    split at opened
    · cases opened
    rename_i hasher counts verified
    split at opened
    · cases opened
    rename_i finished
    split at opened
    · cases opened
    cases opened
    obtain ⟨records, body, rfl⟩ := verifyLoop_body verified
    refine ⟨rfl, records, body, ?_⟩
    rw [planToken, List.foldl_map, ← named.2]
    exact not_not.mp finished
  · cases opened
    contradiction

theorem openBlocking_body {file : Option SpoolFile} {connId : Nat} {want : PlanHash}
    {reader : SpoolReader} (opened : openBlocking decode sha256 file connId want = .ok reader)
    (executable : reader.summary.executable) :
    (∃ line, decode line = .ok (.head reader.header)) ∧
      ∃ records, Body decode reader.file records ∧
        planToken sha256 reader.header.options reader.header.compare
          (records.map SpoolStep.item) = want := by
  cases file with
  | none => cases opened
  | some file =>
    rw [openBlocking] at opened
    split at opened
    · cases opened
    split at opened
    · cases opened
    split at opened
    · cases opened
    split at opened
    · cases opened
    · rw [openHeader] at opened
      split at opened
      · cases opened
      · cases opened
      split at opened
      · cases opened
      · rename_i header decoded
        obtain ⟨same, records, body, token⟩ := openChecked_body opened executable
        rw [same]
        exact ⟨⟨_, decoded⟩, records, body, token⟩
      · cases opened
    · cases opened

theorem verifyDigest_of_body {bytes : Bytes} {headLen : Nat} {header : SpoolHeader}
    {summary : SpoolSummary} {want : PlanHash} {records : List SpoolStep}
    (body : Body decode (bytes.drop headLen) records)
    (token : planToken sha256 header.options header.compare (records.map SpoolStep.item) = want)
    (counts : records.foldl (fun c r => c.add r.step) .empty = summary.counts) :
    verifyDigest decode sha256 bytes headLen header want summary = .ok () := by
  rw [planToken, List.foldl_map] at token
  have finished : (records.foldl (fun h r => h.step r.step)
      (PlanHasher.new header.options header.compare)).finish sha256 = want := token
  rw [verifyDigest, body_verifies body]
  simp only [finished, counts, ne_eq, not_true_eq_false, if_false]

/-- The other direction: a file that says what its name says opens. -/
theorem openBlocking_of_body {file : SpoolFile} {tail head rest : Bytes} {n connId : Nat}
    {header : SpoolHeader} {summary : SpoolSummary} {records : List SpoolStep}
    (regular : file.isFile) (fresh : file.expired = false)
    (last : readLastLine file.bytes = .ok tail) (ends : decode tail = .ok (.terminator summary))
    (first : readCappedLine file.bytes = .ok (n + 1, head, rest))
    (starts : decode head = .ok (.head header)) (format : header.format = spoolFormat)
    (conn : header.connId = connId) (executable : summary.executable)
    (clean : summary.blockersTotal = 0) (body : Body decode (file.bytes.drop (n + 1)) records)
    (token : planToken sha256 header.options header.compare (records.map SpoolStep.item) =
      summary.planHash)
    (counts : records.foldl (fun c r => c.add r.step) .empty = summary.counts) :
    openBlocking decode sha256 (some file) connId summary.planHash =
      .ok ⟨file.bytes.drop (n + 1), header, summary⟩ := by
  have verified := verifyDigest_of_body body token counts
  simp only [openBlocking, regular, fresh, last, ends, openHeader, first, starts, openChecked,
    format, conn, executable, clean, verified]
  simp [Except.map]

end Reading

end Norte.Sync
