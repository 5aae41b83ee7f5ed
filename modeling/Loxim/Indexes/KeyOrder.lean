import Mathlib.Data.List.Lex
import Mathlib.Data.Prod.Lex
import Mathlib.Order.WithBot
import Mathlib.Algebra.Group.Int.Defs
import Mathlib.Algebra.Group.Nat.Defs
import Mathlib.Algebra.GroupWithZero.Nat
import Loxim.Indexes.Comparator

/-!
# The order of the keys

The keys of an index have an order of their own. A comparator is asked for it,
and does not always tell it: an `int` difference wraps around, and the
difference of two equal infinities is no number.
-/

namespace Loxim.Indexes

variable {K L : Type}

namespace Comparator

/-- The answer for `a` against `b` is that of the order. -/
def Tells [LinearOrder K] (cmp : Comparator K) (a b : K) : Prop :=
  (cmp.keyCompare a b < 0 ↔ a < b) ∧ (0 < cmp.keyCompare a b ↔ b < a)

/-- The comparator of a smaller type of keys. -/
def on (cmp : Comparator K) (f : L → K) : Comparator L where
  keyCompare a b := cmp.keyCompare (f a) (f b)
  keySize k := cmp.keySize (f k)
  maxKeySize := cmp.maxKeySize

end Comparator

/-- What holds of every comparator, even where it errs: keys it takes for equal
are, no key is smaller than itself, and where a greater key is not seen to be
greater, no key beyond it is. -/
structure OrderedComparator (K : Type) [LinearOrder K] extends Comparator K where
  eq_of_zero : ∀ a b, keyCompare a b = 0 → a = b
  self : ∀ a, 0 ≤ keyCompare a a
  far : ∀ a b c, a < b → b ≤ c → 0 ≤ keyCompare a b → 0 ≤ keyCompare a c

namespace OrderedComparator

variable [LinearOrder K] (cmp : OrderedComparator K)

def lessThan (a b : K) : Bool := cmp.keyCompare a b < 0

def lessOrEqual (a b : K) : Bool := cmp.keyCompare a b ≤ 0

def equal (a b : K) : Bool := cmp.keyCompare a b = 0

end OrderedComparator

-- ---------------------------------------------------------------------------
-- Whole numbers
-- ---------------------------------------------------------------------------

abbrev IntKey := {k : Int // -2 ^ 31 ≤ k ∧ k < 2 ^ 31}

theorem bmod_int (z : Int) : -2 ^ 31 ≤ Int.bmod z (2 ^ 32) ∧ Int.bmod z (2 ^ 32) < 2 ^ 31 := by
  rw [Int.bmod_def]
  split <;> omega

/-- A number made an `int`. -/
def IntKey.wrap (z : Int) : IntKey := ⟨Int.bmod z (2 ^ 32), bmod_int z⟩

theorem intCompare_nonneg_iff (a b : IntKey) :
    0 ≤ IntComparator.keyCompare a.1 b.1 ↔ 0 ≤ Int.bmod (a.1 - b.1) (2 ^ 32) := by
  simp only [IntComparator]
  split
  · simp_all
  · split <;> simp_all

/-- A key is not seen to be greater from `2 ^ 31 + 1` on. -/
theorem bmod_nonneg_iff_of_lt {a b : IntKey} (h : a < b) :
    0 ≤ Int.bmod (a.1 - b.1) (2 ^ 32) ↔ 2 ^ 31 < b.1 - a.1 := by
  have ha := a.2
  have hb := b.2
  have hlt : a.1 < b.1 := h
  rw [Int.bmod_def]
  split <;> omega

def IntComparator.ordered : OrderedComparator IntKey where
  toComparator := IntComparator.on Subtype.val
  eq_of_zero a b h := by
    have ha := a.2
    have hb := b.2
    simp only [Comparator.on, IntComparator] at h
    split at h
    · apply Subtype.ext
      rename_i hz
      rw [Int.bmod_def] at hz
      split at hz <;> omega
    · split at h <;> omega
  self a := by simp [Comparator.on, IntComparator]
  far a b c hab hbc h := by
    have hac : a < c := lt_of_lt_of_le hab hbc
    have hle : b.1 ≤ c.1 := hbc
    simp only [Comparator.on] at h ⊢
    rw [intCompare_nonneg_iff, bmod_nonneg_iff_of_lt hab] at h
    rw [intCompare_nonneg_iff, bmod_nonneg_iff_of_lt hac]
    omega

/-- The order is told of keys whose difference is an `int`. -/
theorem IntComparator.tells {a b : IntKey} (h : -2 ^ 31 ≤ a.1 - b.1 ∧ a.1 - b.1 < 2 ^ 31) :
    IntComparator.ordered.Tells a b := by
  have hb : Int.bmod (a.1 - b.1) (2 ^ 32) = a.1 - b.1 :=
    Int.bmod_eq_of_le (by omega) (by omega)
  simp only [Comparator.Tells, IntComparator.ordered, Comparator.on, IntComparator, hb,
    ← Subtype.coe_lt_coe]
  split
  · omega
  · split <;> omega

-- ---------------------------------------------------------------------------
-- Floating point numbers
-- ---------------------------------------------------------------------------

abbrev NumberKey := {d : Double // d ≠ .nan}

def NumberKey.rank : NumberKey → WithBot (WithTop Rat)
  | ⟨.finite value, _⟩ => ((value : WithTop Rat) : WithBot (WithTop Rat))
  | ⟨.infinity true, _⟩ => ⊥
  | ⟨.infinity false, _⟩ => ((⊤ : WithTop Rat) : WithBot (WithTop Rat))
  | ⟨.nan, h⟩ => absurd rfl h

theorem NumberKey.rank_injective : Function.Injective NumberKey.rank := by
  rintro ⟨a, ha⟩ ⟨b, hb⟩ h
  cases a with
  | nan => exact absurd rfl ha
  | finite x =>
    cases b with
    | nan => exact absurd rfl hb
    | finite y => simpa [rank] using h
    | infinity n => cases n <;> simp [rank] at h
  | infinity m =>
    cases b with
    | nan => exact absurd rfl hb
    | finite y => cases m <;> simp [rank] at h
    | infinity n => cases m <;> cases n <;> simp_all [rank]

instance : LinearOrder NumberKey := LinearOrder.lift' NumberKey.rank NumberKey.rank_injective

def NumberKey.isInfinite : NumberKey → Bool
  | ⟨.infinity _, _⟩ => true
  | _ => false

theorem NumberKey.lt_iff (a b : NumberKey) : a < b ↔ a.rank < b.rank := Iff.rfl

theorem doubleCompare_neg_iff (a b : NumberKey) :
    DoubleComparator.keyCompare a.1 b.1 < 0 ↔ a < b := by
  rw [NumberKey.lt_iff]
  obtain ⟨a, ha⟩ := a
  obtain ⟨b, hb⟩ := b
  cases a with
  | nan => exact absurd rfl ha
  | finite x =>
    cases b with
    | nan => exact absurd rfl hb
    | finite y =>
      simp only [DoubleComparator, NumberKey.rank, WithBot.coe_lt_coe, WithTop.coe_lt_coe]
      split
      · simp_all
      · split <;> simp_all
    | infinity n =>
      cases n with
      | true => simp [DoubleComparator, NumberKey.rank]
      | false =>
        apply iff_of_true (by simp [DoubleComparator])
        exact WithBot.coe_lt_coe.mpr (WithTop.coe_lt_top x)
  | infinity m =>
    cases b with
    | nan => exact absurd rfl hb
    | finite y => cases m <;> simp [DoubleComparator, NumberKey.rank]
    | infinity n => cases m <;> cases n <;> simp [DoubleComparator, NumberKey.rank]

theorem doubleCompare_eq_zero_iff (a b : NumberKey) :
    DoubleComparator.keyCompare a.1 b.1 = 0 ↔ a = b ∧ a.isInfinite = false := by
  obtain ⟨a, ha⟩ := a
  obtain ⟨b, hb⟩ := b
  cases a with
  | nan => exact absurd rfl ha
  | finite x =>
    cases b with
    | nan => exact absurd rfl hb
    | finite y =>
      simp only [DoubleComparator, NumberKey.isInfinite, Subtype.mk.injEq, Double.finite.injEq,
        and_true]
      split
      · simp_all
      · split <;> simp_all
    | infinity n => cases n <;> simp [DoubleComparator]
  | infinity m =>
    cases b with
    | nan => exact absurd rfl hb
    | finite y => cases m <;> simp [DoubleComparator]
    | infinity n => cases m <;> cases n <;> simp [DoubleComparator, NumberKey.isInfinite]

def DoubleComparator.ordered : OrderedComparator NumberKey where
  toComparator := DoubleComparator.on Subtype.val
  eq_of_zero a b h := ((doubleCompare_eq_zero_iff a b).mp h).1
  self a := not_lt.mp fun h => lt_irrefl a ((doubleCompare_neg_iff a a).mp h)
  far a b _ hab _ h := absurd ((doubleCompare_neg_iff a b).mpr hab) (not_lt.mpr h)

/-- Only equal infinities are mistaken. -/
theorem DoubleComparator.tells {a b : NumberKey} (h : a = b → a.isInfinite = false) :
    DoubleComparator.ordered.Tells a b := by
  have hneg := doubleCompare_neg_iff a b
  have hzero := doubleCompare_eq_zero_iff a b
  refine ⟨hneg, ?_⟩
  change 0 < DoubleComparator.keyCompare a.1 b.1 ↔ b < a
  rcases lt_trichotomy a b with hlt | heq | hgt
  · have := hneg.mpr hlt
    exact iff_of_false (by omega) (lt_asymm hlt)
  · have := hzero.mpr ⟨heq, h heq⟩
    exact iff_of_false (by omega) (heq ▸ lt_irrefl a)
  · have := mt hneg.mp (lt_asymm hgt)
    have := mt hzero.mp fun he => hgt.ne' he.1
    exact iff_of_true (by omega) hgt

-- ---------------------------------------------------------------------------
-- Strings
-- ---------------------------------------------------------------------------

instance : LinearOrder StringKey :=
  LinearOrder.lift' (fun k => k.bytes.map UInt8.toNat) fun a b h => by
    have hb : a.bytes = b.bytes := List.map_injective_iff.mpr (fun _ _ => UInt8.toNat_inj.mp) h
    cases a
    cases b
    simp_all

theorem StringKey.lt_iff (a b : StringKey) :
    a < b ↔ a.bytes.map UInt8.toNat < b.bytes.map UInt8.toNat := Iff.rfl

def Padded (l : List UInt8) : Prop := ∀ b ∈ l.dropWhile (· ≠ 0), b = 0

theorem Padded.tail {b : UInt8} {l : List UInt8} (h : Padded (b :: l)) (hb : b ≠ 0) : Padded l := by
  intro x hx
  apply h x
  rw [List.dropWhile_cons_of_pos (by simpa using hb)]
  exact hx

theorem Padded.zeros {l : List UInt8} (h : Padded (0 :: l)) : l = List.replicate l.length 0 := by
  apply List.eq_replicate_of_mem
  intro x hx
  apply h x
  rw [List.dropWhile_cons_of_neg (by simp)]
  exact List.mem_cons_of_mem _ hx

theorem replicate_lt_replicate_iff (z m n : Nat) :
    List.replicate m z < List.replicate n z ↔ m < n := by
  induction m generalizing n with
  | zero => cases n <;> simp [List.replicate_succ]
  | succ m ih =>
    cases n with
    | zero => simp [List.replicate_succ]
    | succ n => simp [List.replicate_succ, ih]

/-- What `compare` answers once neither string is empty. -/
def byteCompare (as bs : List UInt8) : Int :=
  if strncmp as bs = 0 then (as.length : Int) - bs.length else strncmp as bs

section

attribute [local simp] byteCompare

end

theorem byteCompare_cons_ne {a b : UInt8} (h : a ≠ b) (as bs : List UInt8) :
    byteCompare (a :: as) (b :: bs) = (a.toNat : Int) - b.toNat := by
  have hne : a.toNat ≠ b.toNat := fun he => h (UInt8.toNat_inj.mp he)
  simp only [byteCompare, strncmp, if_pos h]
  exact if_neg (by omega)

theorem byteCompare_cons_same {a : UInt8} (h : a ≠ 0) (as bs : List UInt8) :
    byteCompare (a :: as) (a :: bs) = byteCompare as bs := by
  simp [byteCompare, strncmp, h]

theorem byteCompare_zero (as bs : List UInt8) :
    byteCompare (0 :: as) (0 :: bs) = (as.length : Int) - bs.length := by
  simp [byteCompare, strncmp]

theorem byteCompare_neg_iff {as bs : List UInt8} (ha : Padded as) (hb : Padded bs) :
    byteCompare as bs < 0 ↔ as.map UInt8.toNat < bs.map UInt8.toNat := by
  induction as generalizing bs with
  | nil => cases bs <;> simp [byteCompare, strncmp]; omega
  | cons a as ih =>
    cases bs with
    | nil => simp [byteCompare, strncmp]; omega
    | cons b bs =>
      simp only [List.map_cons, List.cons_lt_cons_iff]
      by_cases hab : a = b
      · subst hab
        by_cases hz : a = 0
        · subst hz
          rw [byteCompare_zero, ha.zeros, hb.zeros]
          simp [replicate_lt_replicate_iff]
        · rw [byteCompare_cons_same hz, ih (ha.tail hz) (hb.tail hz)]
          simp
      · rw [byteCompare_cons_ne hab]
        have hne : a.toNat ≠ b.toNat := fun he => hab (UInt8.toNat_inj.mp he)
        simp only [hne, false_and, or_false]
        omega

theorem strncmp_swap (as bs : List UInt8) : strncmp bs as = - strncmp as bs := by
  induction as generalizing bs with
  | nil => cases bs <;> simp [strncmp]
  | cons a as ih =>
    cases bs with
    | nil => simp [strncmp]
    | cons b bs =>
      by_cases hab : a = b
      · subst hab
        by_cases hz : a = 0 <;> simp [strncmp, hz, ih]
      · simp [strncmp, hab, Ne.symm hab]

theorem byteCompare_swap (as bs : List UInt8) : byteCompare bs as = - byteCompare as bs := by
  simp only [byteCompare, strncmp_swap as bs, neg_eq_zero]
  split <;> omega

theorem stringCompare_eq (a b : StringKey) :
    (StringComparator.keyCompare a b < 0 ↔ byteCompare a.bytes b.bytes < 0) ∧
      (0 < StringComparator.keyCompare a b ↔ 0 < byteCompare a.bytes b.bytes) := by
  obtain ⟨as, _, _⟩ := a
  obtain ⟨bs, _, _⟩ := b
  cases as <;> cases bs <;> simp [StringComparator, byteCompare, strncmp] <;> omega

/-- Strings are ordered by their bytes. -/
theorem StringComparator.tells (a b : StringKey) : StringComparator.Tells a b := by
  have ha : Padded a.bytes := a.padded
  have hb : Padded b.bytes := b.padded
  obtain ⟨hneg, hpos⟩ := stringCompare_eq a b
  constructor
  · rw [hneg, byteCompare_neg_iff ha hb, StringKey.lt_iff]
  · rw [hpos, StringKey.lt_iff, ← byteCompare_neg_iff hb ha, byteCompare_swap]
    omega

def StringComparator.ordered : OrderedComparator StringKey where
  toComparator := StringComparator
  eq_of_zero a b h := by
    obtain ⟨hlt, hgt⟩ := StringComparator.tells a b
    rw [h] at hlt hgt
    exact le_antisymm (not_lt.mp fun hg => absurd (hgt.mpr hg) (by simp))
      (not_lt.mp fun hl => absurd (hlt.mpr hl) (by simp))
  self a := not_lt.mp fun h => lt_irrefl a ((StringComparator.tells a a).1.mp h)
  far a b _ hab _ h := absurd ((StringComparator.tells a b).1.mpr hab) (not_lt.mpr h)

end Loxim.Indexes
