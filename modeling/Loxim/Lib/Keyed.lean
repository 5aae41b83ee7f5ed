import Mathlib.Data.Finset.Max
import Mathlib.Data.Finset.Prod
import Mathlib.Data.Int.Order.Basic

/-!
# Maps from numbers to sets

An ordered map whose values are sets that are never empty is the set of its
pairs.
-/

namespace Loxim

def firstKey [DecidableEq α] (s : Finset (Int × α)) : Option Int :=
  if h : (s.image Prod.fst).Nonempty then some ((s.image Prod.fst).min' h) else none

def lastKey [DecidableEq α] (s : Finset (Int × α)) : Option Int :=
  if h : (s.image Prod.fst).Nonempty then some ((s.image Prod.fst).max' h) else none

/-- The set a map holds under `p`. -/
def under [DecidableEq α] (s : Finset (Int × α)) (p : Int) : Finset α :=
  (s.filter (·.1 = p)).image Prod.snd

section
variable {α : Type} [DecidableEq α] {s : Finset (Int × α)}

theorem firstKey_eq_none : firstKey s = none ↔ s = ∅ := by
  unfold firstKey
  split
  · rename_i h
    simpa using (Finset.image_nonempty.mp h).ne_empty
  · rename_i h
    simpa using h

theorem firstKey_eq_some : firstKey s = some p ↔ (∃ a, (p, a) ∈ s) ∧ ∀ x ∈ s, p ≤ x.1 := by
  unfold firstKey
  split
  · rename_i h
    rw [Option.some.injEq]
    constructor
    · rintro rfl
      have hmem := Finset.min'_mem _ h
      obtain ⟨x, hx, hfst⟩ := Finset.mem_image.mp hmem
      refine ⟨⟨x.2, hfst ▸ hx⟩, fun y hy => ?_⟩
      exact Finset.min'_le _ _ (Finset.mem_image_of_mem _ hy)
    · rintro ⟨⟨a, ha⟩, hle⟩
      apply le_antisymm
      · exact Finset.min'_le _ _ (Finset.mem_image.mpr ⟨_, ha, rfl⟩)
      · obtain ⟨x, hx, hfst⟩ := Finset.mem_image.mp (Finset.min'_mem _ h)
        exact hfst ▸ hle x hx
  · rename_i h
    simp only [reduceCtorEq, false_iff, not_and]
    rintro ⟨a, ha⟩
    exact absurd (Finset.image_nonempty.mpr ⟨_, ha⟩) h

theorem lastKey_isSome (h : s.Nonempty) : ∃ p, lastKey s = some p ∧ ∃ a, (p, a) ∈ s := by
  have hne := h.image Prod.fst
  obtain ⟨x, hx, hfst⟩ := Finset.mem_image.mp (Finset.max'_mem _ hne)
  refine ⟨_, dif_pos hne, x.2, ?_⟩
  rw [← hfst]
  exact hx

@[simp] theorem mem_under : a ∈ under s p ↔ (p, a) ∈ s := by
  simp [under]

theorem firstKey_insert (h : firstKey s = some p) : firstKey (insert (q, a) s) = some (min p q) := by
  obtain ⟨⟨b, hb⟩, hle⟩ := firstKey_eq_some.mp h
  refine firstKey_eq_some.mpr ⟨?_, ?_⟩
  · rcases le_total p q with hpq | hpq
    · exact ⟨b, by simp [min_eq_left hpq, hb]⟩
    · exact ⟨a, by simp [min_eq_right hpq]⟩
  · intro x hx
    rcases Finset.mem_insert.mp hx with rfl | hx
    · exact min_le_right _ _
    · exact (min_le_left _ _).trans (hle x hx)

theorem firstKey_insert_empty (h : firstKey s = none) : firstKey (insert (q, a) s) = some q := by
  rw [firstKey_eq_none.mp h]
  simp [firstKey_eq_some]

/-- The first key with a pair put back. -/
theorem firstKey_of_erase (h : (q, a) ∈ s) (hp : firstKey (s.erase (q, a)) = some p) :
    firstKey s = some (min p q) := by
  have hins := firstKey_insert (q := q) (a := a) hp
  rwa [Finset.insert_erase h] at hins

end

end Loxim
