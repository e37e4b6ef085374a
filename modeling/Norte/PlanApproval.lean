import Norte.RenameToken
import Norte.SpoolFile

/-! What an approval is worth. A token names one plan, so a file that opens under a minted
token streams the steps the token was minted over. -/
namespace Norte.Sync

open Hashing Utf8

/-- What is decoded lies in memory. -/
structure DecodesFitting (decode : Bytes → Except SpoolError Record) : Prop where
  head : ∀ line header, decode line = .ok (.head header) → header.options.Fits
  step : ∀ line record, decode line = .ok (.step record) → record.step.Fits

section Opened

variable {decode : Bytes → Except SpoolError Record} {sha256 : Bytes → Bytes}

theorem body_fits (fitting : DecodesFitting decode) {rest : Bytes} {records : List SpoolStep}
    (body : Body decode rest records) : ∀ item ∈ records.map SpoolStep.item, item.Fits := by
  intro item member
  obtain ⟨record, there, rfl⟩ := List.mem_map.mp member
  obtain ⟨line, decoded⟩ := body.decoded record there
  exact fitting.step line record decoded

theorem open_ok {reg reg' : Spool.Registry PlanHash} {dir : Bytes → Option SpoolFile}
    {connId : Nat} {hash : PlanHash} {reader : SpoolReader}
    (opened : Spool.open decode sha256 reg dir connId hash = (reg', .ok reader)) :
    openBlocking decode sha256 (dir (fileName connId hash)) connId hash = .ok reader := by
  rw [Spool.open] at opened
  split at opened
  · cases opened
  · split at opened
    · cases opened
    · cases opened
      assumption

theorem ok_open {reg reg' : Spool.Registry PlanHash} {dir : Bytes → Option SpoolFile}
    {connId : Nat} {hash : PlanHash} {reader : SpoolReader}
    (claimed : reg.claimIssued connId hash = some reg')
    (opened : openBlocking decode sha256 (dir (fileName connId hash)) connId hash = .ok reader) :
    Spool.open decode sha256 reg dir connId hash = (reg', .ok reader) := by
  simp only [Spool.open, claimed, opened]

/-- The file may say what it likes: opened under a minted token it says the minted plan. -/
theorem open_streams (injective : Function.Injective sha256) (fitting : DecodesFitting decode)
    {reg reg' : Spool.Registry PlanHash} {dir : Bytes → Option SpoolFile} {connId : Nat}
    {opts : SyncOptions} {compare : SyncCompareOptions} {items : List PlanItem}
    {reader : SpoolReader} (fits : PlanFits opts items)
    (opened : Spool.open decode sha256 reg dir connId (planToken sha256 opts compare items) =
      (reg', .ok reader)) (executable : reader.summary.executable) :
    reader.header.options = opts ∧ reader.header.compare = compare ∧
      ∃ records, reader.steps decode = (records, none) ∧
        (records.map SpoolStep.item).map PlanItem.approved = items.map PlanItem.approved := by
  obtain ⟨⟨line, headed⟩, records, body, token⟩ := openBlocking_body (open_ok opened) executable
  have fitsFile : PlanFits reader.header.options (records.map SpoolStep.item) :=
    ⟨fitting.head line _ headed, body_fits fitting body⟩
  obtain ⟨options, criteria, steps⟩ := planToken_injective injective fitsFile fits token
  exact ⟨options, criteria, records, drain_body body, steps⟩

end Opened

/-- Equal tokens of two synchronization plans or of two rename batches come from the same
conclusions; and what a file streams under a token is what the token was minted over. -/
theorem tokens_injective {sha256 : Bytes → Bytes} (injective : Function.Injective sha256)
    {decode : Bytes → Except SpoolError Record} (fitting : DecodesFitting decode)
    (nameKey : Bytes → Rename.NameCaps → Bytes) :
    (∀ (opts opts' : SyncOptions) (compare compare' : SyncCompareOptions)
      (items items' : List PlanItem), PlanFits opts items → PlanFits opts' items' →
      planToken sha256 opts compare items = planToken sha256 opts' compare' items' →
      opts = opts' ∧ compare = compare' ∧
        items.map PlanItem.approved = items'.map PlanItem.approved) ∧
    (∀ (dir dir' : VPath) (pairs pairs' : List (Bytes × Bytes)) (listing listing' : List Bytes)
      (caps caps' : Rename.NameCaps) (plan plan' : Rename.RenamePlan),
      Rename.planBatch nameKey sha256 pairs listing caps = some plan →
      Rename.planBatch nameKey sha256 pairs' listing' caps' = some plan' →
      plan.Fits → plan'.Fits → (encode dir.toWire).length < 2 ^ 64 →
      (encode dir'.toWire).length < 2 ^ 64 →
      (Rename.DirPlan.bind sha256 dir plan).hash = (Rename.DirPlan.bind sha256 dir' plan').hash →
      dir = dir' ∧ caps = caps' ∧
        plan.steps.map Rename.Step.conclusion = plan'.steps.map Rename.Step.conclusion ∧
        plan.collisions = plan'.collisions) ∧
    ∀ (reg reg' : Spool.Registry PlanHash) (dir : Bytes → Option SpoolFile) (connId : Nat)
      (opts : SyncOptions) (compare : SyncCompareOptions) (items : List PlanItem)
      (reader : SpoolReader), PlanFits opts items →
      Spool.open decode sha256 reg dir connId (planToken sha256 opts compare items) =
        (reg', .ok reader) →
      reader.summary.executable →
      reader.header.options = opts ∧ reader.header.compare = compare ∧
        ∃ records, reader.steps decode = (records, none) ∧
          (records.map SpoolStep.item).map PlanItem.approved = items.map PlanItem.approved := by
  refine ⟨?_, ?_, ?_⟩
  · intro opts opts' compare compare' items items' fits fits' same
    exact planToken_injective injective fits fits' same
  · intro dir dir' pairs pairs' listing listing' caps caps' plan plan' planned planned' fits fits'
      short short' same
    exact Rename.bind_injective injective planned planned' fits fits' short short' same
  · intro reg reg' dir connId opts compare items reader fits opened executable
    exact open_streams injective fitting fits opened executable

/-! A file with one step, under the identity as a digest. -/

def sampleSegment : Segment := ⟨[0x61], Segment.valid_a⟩

def sampleOptions : SyncOptions :=
  let root := ⟨⟨"file".toList, Scheme.check_file⟩, none, [sampleSegment]⟩
  ⟨root, { root with segments := [] }, .update, .copy, .left, true, true, true⟩

def sampleCompare : SyncCompareOptions := ⟨⟨true, true, false⟩, none, 2000, false, some .left⟩

def sampleCopy : SyncStep :=
  ⟨7, .copy, ⟨[sampleSegment]⟩, none, some 3, .presence, .certain, some .delete, none⟩

def sampleToken : PlanHash := planToken id sampleOptions sampleCompare [.step sampleCopy none]

/-! Its three lines, as the spool writes them. -/

def headLine : Bytes :=
  encode "\x7b\"r\":\"head\",\"v\":\x7b\"format\":2,\"conn_id\":1,\"options\":\x7b\"source_root\":\"file:///a\",".toList ++
  encode "\"dest_root\":\"file:///\",\"mode\":\"update\",\"on_unknown\":\"copy\",".toList ++
  encode "\"source_side\":\"left\",\"dest_has_trash\":true,\"dest_trash_restorable\":true,".toList ++
  encode "\"dest_writable\":true\x7d,\"compare\":\x7b\"criteria\":\x7b\"size\":true,\"mtime\":true,".toList ++
  encode "\"hash\":false\x7d,\"mtime_tolerance_ms\":2000,\"follow_symlinks\":false,".toList ++
  encode "\"descend_orphans\":\"left\"\x7d\x7d\x7d".toList

def stepLine : Bytes :=
  encode "\x7b\"r\":\"step\",\"v\":\x7b\"step\":\x7b\"id\":7,\"kind\":\"copy\",\"rel\":\"a\",\"size\":3,".toList ++
  encode "\"criterion\":\"presence\",\"confidence\":\"certain\",\"reversal\":\"delete\"\x7d\x7d\x7d".toList

def endLine : Bytes :=
  encode "\x7b\"r\":\"end\",\"v\":\x7b\"plan_hash\":\"".toList ++ sampleToken.hex ++
  encode "\",\"counts\":\x7b\"create_dir\":0,\"copy\":1,\"overwrite\":0,\"delete_tree\":0,\"skip\":0,".toList ++
  encode "\"unknown_kind\":0,\"irreversible\":0,\"bytes\":3,\"unmeasured_steps\":0\x7d,".toList ++
  encode "\"blockers\":[],\"blockers_total\":0,\"executable\":true\x7d\x7d".toList

def sampleDecode (line : Bytes) : Except SpoolError Record :=
  if line = headLine then .ok (.head ⟨spoolFormat, 1, sampleOptions, sampleCompare⟩)
  else if line = stepLine then .ok (.step ⟨sampleCopy, none⟩)
  else if line = endLine then
    .ok (.terminator ⟨sampleToken, SyncCounts.empty.add sampleCopy, [], 0, true⟩)
  else .error (.malformed "expected value at line 1 column 1")

def sampleReader : SpoolReader where
  file := stepLine ++ newline :: (endLine ++ [newline])
  header := ⟨spoolFormat, 1, sampleOptions, sampleCompare⟩
  summary := ⟨sampleToken, SyncCounts.empty.add sampleCopy, [], 0, true⟩

def sampleFile : SpoolFile := ⟨true, some 5, headLine ++ newline :: sampleReader.file⟩

theorem sample_lines : ∀ line ∈ [headLine, stepLine, endLine],
    newline ∉ line ∧ line.length + 2 ≤ 8 * 1024 := by
  decide +kernel

theorem sample_apart : stepLine ≠ headLine ∧ endLine ≠ headLine ∧ endLine ≠ stepLine := by
  decide +kernel

theorem sample_reads {line : Bytes} (sampled : line ∈ [headLine, stepLine, endLine])
    (rest : Bytes) : readCappedLine (line ++ newline :: rest) = .ok (line.length + 1, line, rest) := by
  obtain ⟨clear, short⟩ := sample_lines line sampled
  apply readCappedLine_line clear
  have cap : 8 * 1024 ≤ spoolMaxRecord := by decide
  omega

theorem sample_steps : sampleDecode stepLine = .ok (.step ⟨sampleCopy, none⟩) := by
  simp [sampleDecode, sample_apart.1]

theorem sample_ends : sampleDecode endLine = .ok (.terminator sampleReader.summary) := by
  simp [sampleDecode, sample_apart.2, sampleReader]

theorem sample_body : Body sampleDecode sampleReader.file [⟨sampleCopy, none⟩] := by
  apply Body.step (sample_reads (by simp) _) sample_steps rfl
  exact Body.terminator (sample_reads (by simp) []) sample_ends rfl

theorem sample_last : readLastLine sampleFile.bytes = .ok endLine := by
  obtain ⟨clear, short⟩ := sample_lines endLine (by simp)
  have written : sampleFile.bytes =
      (headLine ++ newline :: stepLine) ++ newline :: (endLine ++ [newline]) := by
    simp [sampleFile, sampleReader]
  rw [readLastLine, if_neg (by simp [written]), written]
  exact lastLineFrom_line clear (by decide) short _

theorem sample_opens :
    openBlocking sampleDecode id (some sampleFile) 1 sampleToken = .ok sampleReader := by
  have kept : sampleFile.bytes.drop (headLine.length + 1) = sampleReader.file := by
    simp [sampleFile, List.drop_append]
  have starts : sampleDecode headLine = .ok (.head sampleReader.header) := by
    simp [sampleDecode, sampleReader]
  have token : planToken id sampleReader.header.options sampleReader.header.compare
      ([⟨sampleCopy, none⟩].map SpoolStep.item) = sampleReader.summary.planHash := rfl
  have body : Body sampleDecode (sampleFile.bytes.drop (headLine.length + 1))
      [⟨sampleCopy, none⟩] := by rw [kept]; exact sample_body
  have opened := openBlocking_of_body rfl rfl sample_last sample_ends
    (sample_reads (by simp) sampleReader.file) starts rfl rfl rfl rfl body token rfl
  rw [kept] at opened
  exact opened

theorem sample_fits : PlanFits sampleOptions [.step sampleCopy none] where
  opts := ⟨⟨by decide, by decide, by decide⟩, ⟨by decide, by decide, by decide⟩⟩
  items := by
    intro item member
    obtain rfl := List.mem_singleton.mp member
    exact ⟨by decide, nofun⟩

theorem sample_fitting : DecodesFitting sampleDecode where
  head line header decoded := by
    simp only [sampleDecode] at decoded
    split at decoded
    · cases decoded
      exact sample_fits.opts
    · split at decoded
      · cases decoded
      · split at decoded <;> cases decoded
  step line record decoded := by
    simp only [sampleDecode] at decoded
    split at decoded
    · cases decoded
    · split at decoded
      · cases decoded
        have there : PlanItem.step sampleCopy none ∈ [PlanItem.step sampleCopy none] := by simp
        exact sample_fits.items _ there
      · split at decoded <;> cases decoded

/-- The file opens, and streams the one approved copy. -/
theorem tokens_injective_sample :
    (Spool.open sampleDecode id ⟨{(1, sampleToken)}, ∅, fun _ => 0, ∅⟩ (fun _ => some sampleFile) 1
      sampleToken).2 = .ok sampleReader ∧
    ∃ records, sampleReader.steps sampleDecode = (records, none) ∧
      (records.map SpoolStep.item).map PlanItem.approved = [.inl { sampleCopy with id := 0 }] := by
  have claimed : (⟨{(1, sampleToken)}, ∅, fun _ => 0, ∅⟩ : Spool.Registry PlanHash).claimIssued 1
      sampleToken = some ⟨∅, {(1, sampleToken)}, fun _ => 0, ∅⟩ := by
    simp [Spool.Registry.claimIssued]
  have opened : Spool.open sampleDecode id ⟨{(1, sampleToken)}, ∅, fun _ => 0, ∅⟩
      (fun _ => some sampleFile) 1 sampleToken =
      (⟨∅, {(1, sampleToken)}, fun _ => 0, ∅⟩, .ok sampleReader) :=
    ok_open claimed sample_opens
  obtain ⟨-, -, streams⟩ :=
    tokens_injective Function.injective_id sample_fitting Rename.asciiKey
  obtain ⟨-, -, records, streamed, approved⟩ := streams _ _ _ 1 sampleOptions sampleCompare
    [.step sampleCopy none] sampleReader sample_fits opened rfl
  exact ⟨by rw [opened], records, streamed, approved⟩

/-- A pair that renames nothing leaves no trace in the token. -/
theorem token_forgets_pairs : ¬ ∀ (sha256 : Bytes → Bytes), Function.Injective sha256 →
    ∀ (nameKey : Bytes → Rename.NameCaps → Bytes) (dir dir' : VPath)
      (pairs pairs' : List (Bytes × Bytes)) (listing listing' : List Bytes)
      (caps caps' : Rename.NameCaps) (plan plan' : Rename.RenamePlan),
      Rename.planBatch nameKey sha256 pairs listing caps = some plan →
      Rename.planBatch nameKey sha256 pairs' listing' caps' = some plan' →
      plan.Fits → plan'.Fits → (encode dir.toWire).length < 2 ^ 64 →
      (encode dir'.toWire).length < 2 ^ 64 →
      (Rename.DirPlan.bind sha256 dir plan).hash = (Rename.DirPlan.bind sha256 dir' plan').hash →
      pairs = pairs' := by
  intro claim
  have conclusions : (Rename.planBatch Rename.asciiKey id [([0x61], [0x62])] [[0x61], [0x63]]
      ⟨.none⟩).map (fun plan => (plan.steps, plan.collisions)) =
      some ([⟨[0x61], [0x62], false, 0⟩], []) := by decide
  have again : Rename.planBatch Rename.asciiKey id [([0x61], [0x62]), ([0x63], [0x63])]
      [[0x61], [0x63]] ⟨.none⟩ = Rename.planBatch Rename.asciiKey id [([0x61], [0x62])]
      [[0x61], [0x63]] ⟨.none⟩ := by decide
  obtain ⟨plan, planned, same⟩ := Option.map_eq_some_iff.mp conclusions
  have steps : plan.steps = [⟨[0x61], [0x62], false, 0⟩] := (Prod.mk.inj same).1
  have collisions : plan.collisions = [] := (Prod.mk.inj same).2
  have fits : plan.Fits := by
    constructor
    · rw [steps]; decide
    · rw [steps]; simp
    · rw [collisions]; decide
    · rw [collisions]; simp
  have short : (encode sampleOptions.sourceRoot.toWire).length < 2 ^ 64 := by decide
  have equal := claim id Function.injective_id Rename.asciiKey sampleOptions.sourceRoot
    sampleOptions.sourceRoot _ _ _ _ _ _ plan plan planned (again.trans planned) fits fits short
    short rfl
  exact absurd equal (by decide)

end Norte.Sync
