import Mathlib.Data.Rat.Init
import Mathlib.Algebra.Order.Ring.Rat
import Loxim.Indexes.Basic

/-!
# Comparators

How entries are ordered and how much room their keys take. A comparator
compares keys first; equal keys are told apart by the difference of the logical
ids, an unsigned number read back as an `int`.
-/

namespace Loxim.Indexes

-- ---------------------------------------------------------------------------
-- Comparison
-- ---------------------------------------------------------------------------

structure Comparator (K : Type) where
  /-- The sign of the stored value against a key of the tree. -/
  keyCompare : K → K → Int
  /-- `getSpaceNeeded`: the bytes of the key behind its entry. -/
  keySize : K → Nat
  maxKeySize : Nat

namespace Comparator

variable {K : Type}

def lidDiff (a b : Lid) : Int := Int.bmod (a - b) (2 ^ 32)

def compare (cmp : Comparator K) (k : K) (lid : Lid) (k' : K) (lid' : Lid) : Int :=
  let result := cmp.keyCompare k k'
  if result = 0 then lidDiff lid lid' else result

def maxEntrySize (cmp : Comparator K) : Nat := maxIndexStructSize + cmp.maxKeySize

def minNodeSizeAllowed (cmp : Comparator K) : Nat := maxNodeCapacity / 2 - 2 * cmp.maxEntrySize

def leafEntrySize (cmp : Comparator K) (k : K) : Nat := rootEntrySize + cmp.keySize k

def innerEntrySize (cmp : Comparator K) (k : K) : Nat := nodeEntrySize + cmp.keySize k

/-- On the entries of `D` the comparison is a total order of key and id. -/
structure Consistent (cmp : Comparator K) (D : K → Lid → Prop) : Prop where
  refl : ∀ k l, D k l → cmp.compare k l k l = 0
  eq : ∀ k l k' l', D k l → D k' l' → cmp.compare k l k' l' = 0 → k = k' ∧ l = l'
  swap : ∀ k l k' l', D k l → D k' l' → (cmp.compare k l k' l' < 0 ↔ 0 < cmp.compare k' l' k l)
  trans : ∀ k₁ l₁ k₂ l₂ k₃ l₃, D k₁ l₁ → D k₂ l₂ → D k₃ l₃ →
    cmp.compare k₁ l₁ k₂ l₂ ≤ 0 → cmp.compare k₂ l₂ k₃ l₃ ≤ 0 → cmp.compare k₁ l₁ k₃ l₃ ≤ 0

end Comparator

-- ---------------------------------------------------------------------------
-- Keys of a fixed length
-- ---------------------------------------------------------------------------

/-- The sign of `value - key` in `int` arithmetic. -/
def IntComparator : Comparator Int where
  keyCompare value key :=
    let odds := Int.bmod (value - key) (2 ^ 32)
    if odds = 0 then 0 else if odds < 0 then -1 else 1
  keySize _ := 4
  maxKeySize := 4

inductive Double
  | finite (value : Rat)
  | infinity (negative : Bool)
  | nan
  deriving DecidableEq

/-- The sign of `value - key`. A difference that is no number is neither zero
nor negative. -/
def DoubleComparator : Comparator Double where
  keyCompare
    | .finite value, .finite key => if value = key then 0 else if value < key then -1 else 1
    | .finite _, .infinity negative => if negative then 1 else -1
    | .infinity negative, .finite _ => if negative then -1 else 1
    | .infinity true, .infinity false => -1
    | _, _ => 1
  keySize _ := 8
  maxKeySize := 8

-- ---------------------------------------------------------------------------
-- Strings
-- ---------------------------------------------------------------------------

/-- What `strncpy` leaves of a string: at most 255 bytes, and nothing but zeros
behind the first zero. -/
structure StringKey where
  bytes : List UInt8
  length_le : bytes.length ≤ maxStringLen
  padded : ∀ b ∈ bytes.dropWhile (· ≠ 0), b = 0
  deriving DecidableEq

/-- Both lists are as long as the comparison goes. -/
def strncmp : List UInt8 → List UInt8 → Int
  | a :: as, b :: bs =>
    if a ≠ b then (a.toNat : Int) - b.toNat else if a = 0 then 0 else strncmp as bs
  | _, _ => 0

section

-- Its equations, once before the many proofs that unfold it.
attribute [local simp] strncmp

end

def StringComparator : Comparator StringKey where
  keyCompare value key :=
    if value.bytes = [] ∧ key.bytes ≠ [] then -1
    else if key.bytes = [] ∧ value.bytes ≠ [] then 1
    else
      let result := strncmp value.bytes key.bytes
      if result = 0 then (value.bytes.length : Int) - key.bytes.length else result
  keySize key := 4 + key.bytes.length
  maxKeySize := 4 + maxStringLen

end Loxim.Indexes
