import Mathlib.Algebra.Group.Nat.Defs
import Mathlib.Algebra.GroupWithZero.Nat
import Mathlib.Data.Nat.Basic
import Mathlib.Order.Basic
import Loxim.Lib.ComparatorMap

/-!
# The order of the lock table

`map_of_locks` is ordered by the physical ids. The comparator keeps the page in a
`short`, and pages that differ by a multiple of 65536 are the same to it.
-/

namespace Loxim.Lock

structure DBPhysicalID where
  file : UInt16
  page : UInt32
  offset : UInt16
  deriving DecidableEq

/-- `none` is the null pointer. -/
def DBPhysicalIDCmp : Option DBPhysicalID → Option DBPhysicalID → Bool
  | none, db2 => db2.isNone
  | some _, none => false
  | some db1, some db2 =>
    if db1.file ≠ db2.file then db1.file < db2.file
    else
      let p1 := db1.page.toUInt16
      let p2 := db2.page.toUInt16
      if p1 ≠ p2 then p1 < p2 else db1.offset < db2.offset

namespace DBPhysicalID

def less (a b : DBPhysicalID) : Bool := DBPhysicalIDCmp (some a) (some b)

/-- All that the comparator sees. -/
def seen (a : DBPhysicalID) : Nat :=
  a.file.toNat * 2 ^ 32 + a.page.toNat % 2 ^ 16 * 2 ^ 16 + a.offset.toNat

theorem less_iff (a b : DBPhysicalID) : a.less b = true ↔ a.seen < b.seen := by
  have hao := a.offset.toNat_lt
  have hbo := b.offset.toNat_lt
  have hap : a.page.toNat % 2 ^ 16 < 2 ^ 16 := Nat.mod_lt _ (by simp)
  have hbp : b.page.toNat % 2 ^ 16 < 2 ^ 16 := Nat.mod_lt _ (by simp)
  simp only [less, DBPhysicalIDCmp, seen, ne_eq, ← UInt16.toNat_inj, UInt32.toNat_toUInt16,
    UInt16.lt_iff_toNat_lt, ite_not]
  split
  · split
    · simp only [decide_eq_true_eq]
      omega
    · simp only [decide_eq_true_eq]
      omega
  · simp only [decide_eq_true_eq]
    omega

/-- Pages told apart by what the comparator sees of them. -/
def Separate (S : DBPhysicalID → Prop) : Prop :=
  ∀ a b, S a → S b → a.file = b.file → a.offset = b.offset →
    a.page.toNat % 2 ^ 16 = b.page.toNat % 2 ^ 16 → a.page = b.page

theorem eq_of_seen_eq {a b : DBPhysicalID} (h : a.seen = b.seen) :
    a.file = b.file ∧ a.offset = b.offset ∧ a.page.toNat % 2 ^ 16 = b.page.toNat % 2 ^ 16 := by
  have hao := a.offset.toNat_lt
  have hbo := b.offset.toNat_lt
  have hap : a.page.toNat % 2 ^ 16 < 2 ^ 16 := Nat.mod_lt _ (by simp)
  have hbp : b.page.toNat % 2 ^ 16 < 2 ^ 16 := Nat.mod_lt _ (by simp)
  simp only [← UInt16.toNat_inj]
  simp only [seen] at h
  omega

theorem Separate.tells {S : DBPhysicalID → Prop} (h : Separate S) :
    ComparatorMap.Tells less seen S := by
  refine ⟨fun a b _ _ => less_iff a b, ?_⟩
  intro a b ha hb hseen
  obtain ⟨hfile, hoffset, hpage⟩ := eq_of_seen_eq hseen
  have := h a b ha hb hfile hoffset hpage
  cases a
  cases b
  simp_all

/-- The comparator is a strict weak order on a set of ids, its equivalence is
equality, and the lock table gives for each id the lock last put there. -/
structure OrdersTable (S : DBPhysicalID → Prop) : Prop where
  irrefl : ∀ a, S a → a.less a = false
  trans : ∀ a b c, S a → S b → S c → a.less b = true → b.less c = true → a.less c = true
  equivalence : ∀ a b, S a → S b → (a.less b = false ∧ b.less a = false ↔ a = b)
  table : ∀ ops : List (ComparatorMap.Op DBPhysicalID Nat), (∀ op ∈ ops, S op.key) → ∀ a, S a →
    ComparatorMap.find less a (ComparatorMap.run less ops) = ComparatorMap.content ops a

theorem less_eq_false_iff (a b : DBPhysicalID) : a.less b = false ↔ b.seen ≤ a.seen := by
  rw [← Bool.not_eq_true, less_iff, not_lt]

/-- Equivalence is transitive whatever the ids are. -/
theorem incomparable_trans (a b c : DBPhysicalID) (hab : a.less b = false ∧ b.less a = false)
    (hbc : b.less c = false ∧ c.less b = false) : a.less c = false ∧ c.less a = false := by
  simp only [less_eq_false_iff] at *
  omega

/-- The comparator orders the ids in use, and the table keeps their locks apart,
if and only if no two of them are on pages of one file that differ by a multiple of
65536, with the same offset. -/
theorem ordersTable_iff (S : DBPhysicalID → Prop) : OrdersTable S ↔ Separate S := by
  constructor
  · intro h a b ha hb hfile hoffset hpage
    have hseen : a.seen = b.seen := by rw [seen, seen, hfile, hoffset, hpage]
    have heq := (h.equivalence a b ha hb).mp
      ⟨(less_eq_false_iff a b).mpr hseen.ge, (less_eq_false_iff b a).mpr hseen.le⟩
    rw [heq]
  · intro h
    refine ⟨?_, ?_, ?_, ?_⟩
    · intro a _
      exact (less_eq_false_iff a a).mpr le_rfl
    · intro a b c _ _ _ hab hbc
      rw [less_iff] at *
      exact lt_trans hab hbc
    · intro a b ha hb
      simp only [less_eq_false_iff]
      constructor
      · rintro ⟨hba, hab⟩
        exact h.tells.injective a b ha hb (le_antisymm hab hba)
      · rintro rfl
        exact ⟨le_rfl, le_rfl⟩
    · intro ops hops a ha
      exact (h.tells.find_run ops hops).2 a ha

/-- Page 0 and page 65536 of a file. -/
theorem not_ordersTable : ¬ OrdersTable fun _ => True := by
  intro h
  have hfind := h.table [.set ⟨1, 0, 0⟩ 7] (by simp) ⟨1, 65536, 0⟩ trivial
  revert hfind
  decide

end DBPhysicalID

end Loxim.Lock
