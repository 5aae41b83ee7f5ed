import Mathlib.Data.Fintype.Card
import Mathlib.Data.Finset.Card

/-!
# Counting threads

Finitely many threads are each in some state. How many of them are in states of
a kind, and how that changes when one thread or all of a kind move on.
-/

namespace Loxim

variable {T S : Type} [Fintype T]

def tally (pc : T → S) (P : S → Bool) : Nat := (Finset.univ.filter fun t => P (pc t)).card

variable {pc : T → S} {P Q : S → Bool} {t u : T}

theorem tally_pos : 0 < tally pc P ↔ ∃ t, P (pc t) = true := by
  simp [tally, Finset.card_pos, Finset.Nonempty]

theorem tally_eq_zero : tally pc P = 0 ↔ ∀ t, P (pc t) = false := by
  simp [tally, Finset.filter_eq_empty_iff]

theorem tally_lt_card (h : P (pc t) = false) : tally pc P < Fintype.card T := by
  apply Finset.card_lt_univ_of_notMem (x := t)
  simp [h]

theorem tally_le_card : tally pc P ≤ Fintype.card T := Finset.card_le_univ _

/-- One thread is in such a state and no other. -/
theorem tally_one_unique (h : tally pc P = 1) (ht : P (pc t) = true) (hu : P (pc u) = true) :
    t = u :=
  Finset.card_le_one.mp h.le t (by simp [ht]) u (by simp [hu])

theorem tally_or [DecidableEq T] (h : ∀ c, P c = true → Q c = false) :
    tally pc (fun c => P c || Q c) = tally pc P + tally pc Q := by
  unfold tally
  rw [← Finset.card_union_of_disjoint]
  · congr 1
    ext t
    simp
  · refine Finset.disjoint_filter.mpr fun t _ hP hQ => ?_
    rw [h _ hP] at hQ
    cases hQ

theorem tally_congr (h : ∀ t, P (pc t) = Q (pc t)) : tally pc P = tally pc Q := by
  unfold tally
  simp only [h]

/-- A thread moves on from one state to another. -/
theorem tally_update [DecidableEq T] (t : T) (b : S) :
    tally (Function.update pc t b) P + (P (pc t)).toNat = tally pc P + (P b).toNat := by
  have hother (f : T → S) : tally f P =
      (Finset.univ.filter fun u => u ≠ t ∧ P (f u) = true).card + (P (f t)).toNat := by
    unfold tally
    cases hf : P (f t) with
    | true =>
      have hsplit : (Finset.univ.filter fun u => P (f u) = true) =
          insert t (Finset.univ.filter fun u => u ≠ t ∧ P (f u) = true) := by
        ext u
        by_cases hu : u = t
        · simp [hu, hf]
        · simp [hu]
      rw [hsplit, Finset.card_insert_of_notMem (by simp)]
      rfl
    | false =>
      congr 2
      ext u
      by_cases hu : u = t
      · simp [hu, hf]
      · simp [hu]
  have hsame : (Finset.univ.filter fun u => u ≠ t ∧ P (Function.update pc t b u) = true) =
      Finset.univ.filter fun u => u ≠ t ∧ P (pc u) = true := by
    ext u
    by_cases hu : u = t
    · simp [hu]
    · simp [hu]
  rw [hother, hother pc, hsame, Function.update_self]
  omega

end Loxim
