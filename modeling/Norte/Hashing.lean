import Mathlib.Algebra.Ring.Int.Defs
import Mathlib.Algebra.Ring.Nat
import Norte.Utf8

/-! What the core feeds into a digest: little-endian integers, fields with their
length in front, optional fields with a presence byte. Equal framings come from
equal fields, whatever follows them. -/
namespace Norte.Hashing

/-- The `width` low bytes of `n`, least significant first. -/
def leBytes : Nat → Nat → Bytes
  | 0, _ => []
  | width + 1, n => UInt8.ofNat n :: leBytes width (n / 256)

def u32LeBytes (n : Nat) : Bytes := leBytes 4 n
def u64LeBytes (n : Nat) : Bytes := leBytes 8 n

/-- `i64::to_le_bytes`: two's complement. -/
def i64LeBytes (n : Int) : Bytes := leBytes 8 (n % 2 ^ 64).toNat

/-- A field with its length in front. -/
def feed (bytes : Bytes) : Bytes := u64LeBytes bytes.length ++ bytes

/-- A field behind a presence byte. -/
def feedOpt : Option Bytes → Bytes
  | none => [0]
  | some bytes => 1 :: feed bytes

def hexDigit (n : Nat) : UInt8 := ("0123456789abcdef".toList.getD n '0').toUInt8

def hexLower (bytes : Bytes) : Bytes :=
  bytes.flatMap fun (b : UInt8) => [hexDigit (b >>> 4).toNat, hexDigit (b &&& 0x0F).toNat]

@[simp] theorem leBytes_length (width n : Nat) : (leBytes width n).length = width := by
  induction width generalizing n with
  | zero => rfl
  | succ width ih => simp [leBytes, ih]

theorem leBytes_inj (width : Nat) {m n : Nat} (boundM : m < 256 ^ width) (boundN : n < 256 ^ width)
    (same : leBytes width m = leBytes width n) : m = n := by
  induction width generalizing m n with
  | zero => omega
  | succ width ih =>
    obtain ⟨low, high⟩ := List.cons.inj same
    rw [Nat.pow_succ'] at boundM boundN
    have quotients := ih (Nat.div_lt_of_lt_mul boundM) (Nat.div_lt_of_lt_mul boundN) high
    have remainders := UInt8.toNat_inj.mpr low
    simp only [UInt8.toNat_ofNat'] at remainders
    omega

@[simp] theorem u64LeBytes_length (n : Nat) : (u64LeBytes n).length = 8 := leBytes_length 8 n
@[simp] theorem i64LeBytes_length (n : Int) : (i64LeBytes n).length = 8 := leBytes_length 8 _

theorem i64LeBytes_inj {m n : Int} (boundM : -2 ^ 63 ≤ m ∧ m < 2 ^ 63)
    (boundN : -2 ^ 63 ≤ n ∧ n < 2 ^ 63) (same : i64LeBytes m = i64LeBytes n) : m = n := by
  have residues := leBytes_inj 8 (by omega) (by omega) same
  omega

/-- One field is read back off the front of what was fed, and so is the rest. -/
theorem feed_append_inj {a b r s : Bytes} (fitsA : a.length < 2 ^ 64) (fitsB : b.length < 2 ^ 64)
    (same : feed a ++ r = feed b ++ s) : a = b ∧ r = s := by
  simp only [feed, List.append_assoc] at same
  obtain ⟨lengths, same⟩ := List.append_inj same (by simp)
  have equal : a.length = b.length := leBytes_inj 8 (by omega) (by omega) lengths
  exact List.append_inj same equal

/-- An absent field and an empty one never meet. -/
theorem feedOpt_append_inj {a b : Option Bytes} {r s : Bytes}
    (fitsA : ∀ x ∈ a, x.length < 2 ^ 64) (fitsB : ∀ x ∈ b, x.length < 2 ^ 64)
    (same : feedOpt a ++ r = feedOpt b ++ s) : a = b ∧ r = s := by
  match a, b with
  | none, none => exact ⟨rfl, (List.cons.inj same).2⟩
  | none, some _ => exact absurd (List.cons.inj same).1 (by decide)
  | some _, none => exact absurd (List.cons.inj same).1 (by decide)
  | some a, some b =>
    obtain ⟨rfl, rest⟩ := feed_append_inj (fitsA a rfl) (fitsB b rfl) (List.cons.inj same).2
    exact ⟨rfl, rest⟩

end Norte.Hashing
