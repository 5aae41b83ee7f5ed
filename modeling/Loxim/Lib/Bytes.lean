import Mathlib.Algebra.Group.Nat.Defs
import Mathlib.Algebra.Group.Int.Defs
import Mathlib.Tactic.Common

/-!
# Little-endian scalars of the LP64 data model

A C++ value written as the bytes of its object representation is the
little-endian expansion of the value modulo a power of 256; the static type
fixes the width and the sign. Reading the same bytes at a narrower type keeps
the low digits and leaves the rest in the stream, which is what the laws at
the end say.
-/

namespace Loxim.Bytes

/-- The `w` low base-256 digits of `n`, least significant first. -/
def encode : Nat → Nat → List UInt8
  | 0, _ => []
  | w + 1, n => UInt8.ofNat n :: encode w (n / 256)

def decode : List UInt8 → Nat
  | [] => 0
  | b :: bs => b.toNat + 256 * decode bs

@[simp] theorem length_encode : (encode w n).length = w := by
  induction w generalizing n with
  | zero => rfl
  | succ w ih => simp [encode, ih]

theorem decode_encode : decode (encode w n) = n % 256 ^ w := by
  induction w generalizing n with
  | zero => simp [encode, decode, Nat.mod_one]
  | succ w ih =>
    have hd : (UInt8.ofNat n).toNat = n % 256 := by simp
    rw [encode, decode, ih, hd, Nat.pow_succ, Nat.mul_comm (256 ^ w), Nat.mod_mul]

theorem decode_lt (bs : List UInt8) : decode bs < 256 ^ bs.length := by
  induction bs with
  | nil => exact Nat.one_pos
  | cons b bs ih =>
    have hb := b.toNat_lt
    rw [decode, List.length_cons, Nat.pow_succ]
    omega

theorem encode_decode (bs : List UInt8) : encode bs.length (decode bs) = bs := by
  induction bs with
  | nil => rfl
  | cons b bs ih =>
    have hb := b.toNat_lt
    have hdiv : (b.toNat + 256 * decode bs) / 256 = decode bs := by omega
    have hlow : UInt8.ofNat (b.toNat + 256 * decode bs) = b := by
      rw [← UInt8.toNat_inj, UInt8.toNat_ofNat']
      omega
    rw [List.length_cons, decode, encode, hdiv, ih, hlow]

/-- A wide value is its low digits followed by its high ones. -/
theorem encode_add : encode (v + w) n = encode v n ++ encode w (n / 256 ^ v) := by
  induction v generalizing n with
  | zero => simp [encode]
  | succ v ih =>
    rw [Nat.succ_add, encode, ih, encode, Nat.div_div_eq_div_mul, Nat.pow_succ, Nat.mul_comm (256 ^ v)]
    rfl

/-- The scalar types of the code: `int`, `unsigned int` and `unsigned long`
(which is also `size_t`). -/
inductive Scalar
  | int
  | uint
  | ulong
  deriving DecidableEq, Repr

namespace Scalar

variable {t : Scalar} {v : Int}

def size : Scalar → Nat
  | .int | .uint => 4
  | .ulong => 8

/-- The number of values of the type. -/
def count (t : Scalar) : Nat := 256 ^ t.size

def Holds : Scalar → Int → Prop
  | .int, v => -2 ^ 31 ≤ v ∧ v < 2 ^ 31
  | .uint, v => 0 ≤ v ∧ v < 2 ^ 32
  | .ulong, v => 0 ≤ v ∧ v < 2 ^ 64

instance : Decidable (Holds t v) := by cases t <;> unfold Holds <;> infer_instance

/-- Conversion to the type, as an assignment between integer types makes it. -/
def wrap : Scalar → Int → Int
  | .int, v => (v + 2 ^ 31) % 2 ^ 32 - 2 ^ 31
  | .uint, v => v % 2 ^ 32
  | .ulong, v => v % 2 ^ 64

def toBytes (t : Scalar) (v : Int) : List UInt8 := encode t.size (v % t.count).toNat

def ofBytes (t : Scalar) (bs : List UInt8) : Int := t.wrap (decode bs)

@[simp] theorem length_toBytes : (toBytes t v).length = t.size := length_encode

theorem wrap_of_holds (h : Holds t v) : t.wrap v = v := by
  cases t <;> simp only [Holds] at h <;> simp only [wrap] <;> omega

theorem wrap_mod : t.wrap (v % t.count) = t.wrap v := by
  cases t <;> simp only [wrap, count, size] <;> omega

theorem ofBytes_toBytes : ofBytes t (toBytes t v) = t.wrap v := by
  have hc : (0 : Int) < t.count := by cases t <;> decide
  have hn := Int.emod_nonneg v (Int.ne_of_gt hc)
  have hlt : (v % t.count).toNat < 256 ^ t.size := by
    have hm := Int.emod_lt_of_pos v hc
    have hd : t.count = 256 ^ t.size := rfl
    omega
  rw [ofBytes, toBytes, decode_encode, Nat.mod_eq_of_lt hlt, Int.toNat_of_nonneg hn, wrap_mod]

/-- A small `unsigned long` is an `unsigned int` followed by four zero bytes. -/
theorem toBytes_ulong (hl : 0 ≤ v) (hu : v < 2 ^ 32) :
    toBytes .ulong v = toBytes .uint v ++ toBytes .uint 0 := by
  have hw : (v % (ulong.count : Int)).toNat = v.toNat := by simp only [count, size]; omega
  have hn : (v % (uint.count : Int)).toNat = v.toNat := by simp only [count, size]; omega
  have hz : v.toNat / 256 ^ 4 = 0 := by
    apply Nat.div_eq_of_lt
    omega
  rw [toBytes, toBytes, hw, hn, show ulong.size = 4 + 4 from rfl, encode_add, hz]
  rfl

end Scalar

end Loxim.Bytes
