import Loxim.Lib.Bytes

/-!
# Byte-addressed memory

Integers overlay the bytes, and what is written somewhere is not seen elsewhere.
-/

namespace Loxim

open Bytes

def Memory := Nat → UInt8

namespace Memory

variable {m m' : Memory} {p q n k x : Nat} {v : Int} {bs : List UInt8}

def set (m : Memory) (p : Nat) (b : UInt8) : Memory := fun x => if x = p then b else m x

def readBytes (m : Memory) (p n : Nat) : List UInt8 := (List.range n).map fun i => m (p + i)

def writeBytes (m : Memory) (p : Nat) (bs : List UInt8) : Memory :=
  fun x => if p ≤ x ∧ x < p + bs.length then bs.getD (x - p) 0 else m x

def readInt (m : Memory) (p : Nat) : Int := Scalar.int.ofBytes (m.readBytes p 4)

def writeInt (m : Memory) (p : Nat) (v : Int) : Memory := m.writeBytes p (Scalar.int.toBytes v)

/-- `memmove`. -/
def move (m : Memory) (src dst n : Nat) : Memory := m.writeBytes dst (m.readBytes src n)

/-- A loop that copies bytes one by one, the lowest first, by `k` down. -/
def copyDown (m : Memory) (p n k : Nat) : Memory :=
  (List.range n).foldl (fun m i => m.set (p + i - k) (m (p + i))) m

/-- `memset` with zero. -/
def clear (m : Memory) (p n : Nat) : Memory := fun x => if p ≤ x ∧ x < p + n then 0 else m x

@[simp] theorem length_readBytes : (m.readBytes p n).length = n := by simp [readBytes]

theorem readBytes_congr (h : ∀ i < n, m (p + i) = m' (q + i)) :
    m.readBytes p n = m'.readBytes q n := by
  refine List.map_congr_left fun i hi => ?_
  exact h i (List.mem_range.mp hi)

theorem readBytes_add (m : Memory) (p n k : Nat) :
    m.readBytes p (n + k) = m.readBytes p n ++ m.readBytes (p + n) k := by
  simp only [readBytes, List.range_add, List.map_append, List.map_map]
  congr 1
  refine List.map_congr_left fun i _ => ?_
  simp [Nat.add_assoc]

theorem writeBytes_of_out (h : x < p ∨ p + bs.length ≤ x) : m.writeBytes p bs x = m x :=
  if_neg (by omega)

theorem writeBytes_add (h : k < bs.length) : m.writeBytes p bs (p + k) = bs[k] := by
  have hin : p ≤ p + k ∧ p + k < p + bs.length := by omega
  rw [writeBytes, if_pos hin, Nat.add_sub_cancel_left]
  simp [List.getD, h]

@[simp] theorem readBytes_writeBytes_self : (m.writeBytes p bs).readBytes p bs.length = bs := by
  apply List.ext_getElem
  · exact length_readBytes
  · intro i hi hi'
    simp only [readBytes, List.getElem_map, List.getElem_range]
    exact writeBytes_add hi'

theorem readBytes_writeBytes_of_disjoint (h : p + n ≤ q ∨ q + bs.length ≤ p) :
    (m.writeBytes q bs).readBytes p n = m.readBytes p n := by
  apply readBytes_congr
  intro i hi
  exact writeBytes_of_out (by omega)

theorem readInt_congr (h : ∀ i < 4, m (p + i) = m' (q + i)) : m.readInt p = m'.readInt q := by
  rw [readInt, readInt, readBytes_congr h]

theorem readInt_writeInt (h : Scalar.int.Holds v) : (m.writeInt p v).readInt p = v := by
  have hlen : (Scalar.int.toBytes v).length = 4 := Scalar.length_toBytes
  have hread : (m.writeInt p v).readBytes p 4 = Scalar.int.toBytes v := by
    rw [writeInt, ← hlen, readBytes_writeBytes_self]
  rw [readInt, hread, Scalar.ofBytes_toBytes, Scalar.wrap_of_holds h]

theorem writeInt_of_out (h : x < p ∨ p + 4 ≤ x) : m.writeInt p v x = m x := by
  have hlen : (Scalar.int.toBytes v).length = 4 := Scalar.length_toBytes
  exact writeBytes_of_out (by omega)

theorem readInt_writeInt_of_disjoint (h : p + 4 ≤ q ∨ q + 4 ≤ p) :
    (m.writeInt q v).readInt p = m.readInt p := by
  apply readInt_congr
  intro i hi
  exact writeInt_of_out (by omega)

theorem readInt_writeBytes_of_disjoint (h : p + 4 ≤ q ∨ q + bs.length ≤ p) :
    (m.writeBytes q bs).readInt p = m.readInt p := by
  apply readInt_congr
  intro i hi
  exact writeBytes_of_out (by omega)

theorem readBytes_writeInt_of_disjoint (h : p + n ≤ q ∨ q + 4 ≤ p) :
    (m.writeInt q v).readBytes p n = m.readBytes p n := by
  apply readBytes_congr
  intro i hi
  exact writeInt_of_out (by omega)

theorem move_of_out (h : x < q ∨ q + n ≤ x) : m.move p q n x = m x := by
  apply writeBytes_of_out
  simpa using h

theorem move_add (h : k < n) : m.move p q n (q + k) = m (p + k) := by
  have hlen : k < (m.readBytes p n).length := by simpa using h
  rw [move, writeBytes_add hlen]
  simp [readBytes]

/-- Bytes that are copied down are read before they are written over. -/
theorem copyDown_eq_move (h : k ≤ p) : m.copyDown p n k = m.move p (p - k) n := by
  induction n with
  | zero =>
    funext x
    exact (move_of_out (by omega)).symm
  | succ n ih =>
    have hlast : m.copyDown p (n + 1) k =
        (m.copyDown p n k).set (p + n - k) (m.copyDown p n k (p + n)) := by
      simp only [copyDown, List.range_succ, List.foldl_append, List.foldl_cons, List.foldl_nil]
    have hread : m.move p (p - k) n (p + n) = m (p + n) := move_of_out (by omega)
    rw [hlast, ih, hread]
    funext x
    have hsplit : x < p - k ∨ p - k + (n + 1) ≤ x ∨ ∃ i < n + 1, x = p - k + i := by
      by_cases hx : p - k ≤ x ∧ x < p - k + (n + 1)
      · exact .inr (.inr ⟨x - (p - k), by omega, by omega⟩)
      · omega
    rcases hsplit with hx | hx | ⟨i, hi, rfl⟩
    · rw [set, if_neg (by omega), move_of_out (.inl hx), move_of_out (.inl hx)]
    · rw [set, if_neg (by omega), move_of_out (by omega), move_of_out (.inr hx)]
    · rw [move_add hi]
      by_cases hin : i < n
      · rw [set, if_neg (by omega), move_add hin]
      · obtain rfl : i = n := by omega
        rw [set, if_pos (by omega)]

theorem clear_of_out (h : x < p ∨ p + n ≤ x) : m.clear p n x = m x := if_neg (by omega)

-- arithmetic about what is read need not look into the bytes
attribute [irreducible] readInt

end Memory

end Loxim
