import Norte.Hashing

/-! What a row of the journal hashes as: the previous digest, then every field framed so
that no two records share a preimage. The last field has no presence byte; it needs none
because nothing follows it. -/
namespace Norte.Chain

open Hashing Utf8

/-- A digest as the chain keeps it, `[u8; 32]`. -/
structure Hash where
  bytes : Bytes
  length : bytes.length = 32
  deriving DecidableEq

namespace Hash

def zero : Hash := ⟨List.replicate 32 0, List.length_replicate⟩

def ofBytes (bytes : Bytes) : Option Hash :=
  if length : bytes.length = 32 then some ⟨bytes, length⟩ else none

@[simp] theorem ofBytes_bytes (h : Hash) : ofBytes h.bytes = some h := dif_pos h.length

@[simp] theorem bytes_inj {g h : Hash} : g.bytes = h.bytes ↔ g = h := by
  constructor
  · intro same
    cases g
    cases h
    congr
  · exact congrArg _

end Hash

inductive Actor where
  | user
  | agent (session : Str)
  | plugin (id : Str)
  deriving DecidableEq, Repr

def Actor.parts : Actor → Str × Option Str
  | user => ("user".toList, none)
  | agent session => ("agent".toList, some session)
  | plugin id => ("plugin".toList, some id)

inductive Reversal where
  | delete
  | renameBack
  | restoreTrash
  | irreversible
  | setModeBack
  deriving DecidableEq, Repr

def Reversal.asStr : Reversal → Str
  | delete => "delete".toList
  | renameBack => "rename_back".toList
  | restoreTrash => "restore_trash".toList
  | irreversible => "irreversible".toList
  | setModeBack => "set_mode_back".toList

/-- The content columns of a row. -/
structure VerifiedRow where
  tsMs : Int
  actorKind : Str
  actorId : Option Str
  op : Str
  path : Bytes
  pathTo : Option Bytes
  reversal : Str
  reversalRef : Option Bytes
  undoesSeq : Option Int
  batchId : Option Int
  deriving DecidableEq, Repr

/-- An entry's fields, in the order they are hashed. -/
structure Record extends VerifiedRow where
  seq : Int
  deriving DecidableEq, Repr

def VerifiedRow.record (c : VerifiedRow) (seq : Int) : Record := { c with seq }

/-- The last field: nothing at all without a batch. -/
def feedBatch : Option Int → Bytes
  | none => []
  | some b => 1 :: feed (i64LeBytes b)

/-- The string that is hashed for `r` after a row with digest `prev`. -/
def Record.preimage (prev : Hash) (r : Record) : Bytes :=
  prev.bytes ++ feed (i64LeBytes r.seq) ++ feed (i64LeBytes r.tsMs) ++ feed (encode r.actorKind) ++
    feedOpt (r.actorId.map encode) ++ feed (encode r.op) ++ feed r.path ++ feedOpt r.pathTo ++
    feed (encode r.reversal) ++ feedOpt r.reversalRef ++ feedOpt (r.undoesSeq.map i64LeBytes) ++
    feedBatch r.batchId

def chainHash (sha256 : Bytes → Hash) (prev : Hash) (r : Record) : Hash := sha256 (r.preimage prev)

/-- The range of an `i64`. -/
def IsI64 (n : Int) : Prop := -2 ^ 63 ≤ n ∧ n < 2 ^ 63

instance : DecidablePred IsI64 := fun n => inferInstanceAs (Decidable (-2 ^ 63 ≤ n ∧ n < 2 ^ 63))

/-- What the types of the fields guarantee: `i64` numbers and lengths of a `usize`. -/
structure Record.Fits (r : Record) : Prop where
  seq : IsI64 r.seq
  tsMs : IsI64 r.tsMs
  actorKind : (encode r.actorKind).length < 2 ^ 64
  actorId : ∀ x ∈ r.actorId, (encode x).length < 2 ^ 64
  op : (encode r.op).length < 2 ^ 64
  path : r.path.length < 2 ^ 64
  pathTo : ∀ x ∈ r.pathTo, x.length < 2 ^ 64
  reversal : (encode r.reversal).length < 2 ^ 64
  reversalRef : ∀ x ∈ r.reversalRef, x.length < 2 ^ 64
  undoesSeq : ∀ n ∈ r.undoesSeq, IsI64 n
  batchId : ∀ n ∈ r.batchId, IsI64 n

instance (r : Record) : Decidable r.Fits :=
  decidable_of_iff (IsI64 r.seq ∧ IsI64 r.tsMs ∧ (encode r.actorKind).length < 2 ^ 64 ∧
    (∀ x ∈ r.actorId, (encode x).length < 2 ^ 64) ∧ (encode r.op).length < 2 ^ 64 ∧
    r.path.length < 2 ^ 64 ∧ (∀ x ∈ r.pathTo, x.length < 2 ^ 64) ∧
    (encode r.reversal).length < 2 ^ 64 ∧ (∀ x ∈ r.reversalRef, x.length < 2 ^ 64) ∧
    (∀ n ∈ r.undoesSeq, IsI64 n) ∧ ∀ n ∈ r.batchId, IsI64 n)
    ⟨fun ⟨a, b, c, d, e, f, g, h, i, j, k⟩ => ⟨a, b, c, d, e, f, g, h, i, j, k⟩,
      fun ⟨a, b, c, d, e, f, g, h, i, j, k⟩ => ⟨a, b, c, d, e, f, g, h, i, j, k⟩⟩

theorem feed_i64_append_inj {m n : Int} {r s : Bytes} (rangeM : IsI64 m) (rangeN : IsI64 n)
    (same : feed (i64LeBytes m) ++ r = feed (i64LeBytes n) ++ s) : m = n ∧ r = s := by
  obtain ⟨words, rest⟩ := feed_append_inj (by simp) (by simp) same
  exact ⟨i64LeBytes_inj rangeM rangeN words, rest⟩

theorem feed_encode_append_inj {a b : Str} {r s : Bytes} (fitsA : (encode a).length < 2 ^ 64)
    (fitsB : (encode b).length < 2 ^ 64) (same : feed (encode a) ++ r = feed (encode b) ++ s) :
    a = b ∧ r = s := by
  obtain ⟨spelled, rest⟩ := feed_append_inj fitsA fitsB same
  exact ⟨encode_injective spelled, rest⟩

/-- An optional field that is fed through an injective spelling. -/
theorem feedOpt_map_append_inj {spell : α → Bytes} {a b : Option α} {r s : Bytes}
    (fitsA : ∀ x ∈ a, (spell x).length < 2 ^ 64) (fitsB : ∀ x ∈ b, (spell x).length < 2 ^ 64)
    (injective : ∀ x ∈ a, ∀ y ∈ b, spell x = spell y → x = y)
    (same : feedOpt (a.map spell) ++ r = feedOpt (b.map spell) ++ s) : a = b ∧ r = s := by
  obtain ⟨spelled, rest⟩ := feedOpt_append_inj (by simpa using fitsA) (by simpa using fitsB) same
  refine ⟨?_, rest⟩
  cases a with
  | none => cases b with
    | none => rfl
    | some y => cases spelled
  | some x => cases b with
    | none => cases spelled
    | some y => exact congrArg some (injective x rfl y rfl (Option.some.inj spelled))

theorem feedBatch_inj {a b : Option Int} (rangeA : ∀ n ∈ a, IsI64 n) (rangeB : ∀ n ∈ b, IsI64 n)
    (same : feedBatch a = feedBatch b) : a = b := by
  cases a with
  | none => cases b with
    | none => rfl
    | some n => cases same
  | some m => cases b with
    | none => cases same
    | some n =>
      have fed := (List.cons.inj same).2
      rw [← List.append_nil (feed _), ← List.append_nil (feed (i64LeBytes n))] at fed
      exact congrArg some (feed_i64_append_inj (rangeA m rfl) (rangeB n rfl) fed).1

/-- No two records share a preimage, whatever digest they follow. -/
theorem preimage_injective {prev prev' : Hash} {r r' : Record} (fits : r.Fits) (fits' : r'.Fits)
    (same : r.preimage prev = r'.preimage prev') : prev = prev' ∧ r = r' := by
  simp only [Record.preimage, List.append_assoc] at same
  obtain ⟨prevs, same⟩ := List.append_inj same (prev.length.trans prev'.length.symm)
  obtain ⟨seq, same⟩ := feed_i64_append_inj fits.seq fits'.seq same
  obtain ⟨tsMs, same⟩ := feed_i64_append_inj fits.tsMs fits'.tsMs same
  obtain ⟨actorKind, same⟩ := feed_encode_append_inj fits.actorKind fits'.actorKind same
  obtain ⟨actorId, same⟩ := feedOpt_map_append_inj fits.actorId fits'.actorId
    (fun _ _ _ _ => encode_injective) same
  obtain ⟨op, same⟩ := feed_encode_append_inj fits.op fits'.op same
  obtain ⟨path, same⟩ := feed_append_inj fits.path fits'.path same
  obtain ⟨pathTo, same⟩ := feedOpt_append_inj fits.pathTo fits'.pathTo same
  obtain ⟨reversal, same⟩ := feed_encode_append_inj fits.reversal fits'.reversal same
  obtain ⟨reversalRef, same⟩ := feedOpt_append_inj fits.reversalRef fits'.reversalRef same
  obtain ⟨undoesSeq, same⟩ := feedOpt_map_append_inj (by simp) (by simp)
    (fun x inside y inside' => i64LeBytes_inj (fits.undoesSeq x inside) (fits'.undoesSeq y inside'))
    same
  have batchId := feedBatch_inj fits.batchId fits'.batchId same
  refine ⟨Hash.bytes_inj.mp prevs, ?_⟩
  cases r with
  | mk content seq =>
    cases r' with
    | mk content' seq' =>
      cases content
      cases content'
      simp_all

end Norte.Chain
