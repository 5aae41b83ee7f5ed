import Mathlib.Data.List.Basic
import Mathlib.Order.Defs.LinearOrder

/-!
# Walks over a list whose hits come first

A walk from the front passes elements until one stops it. Where the elements
looked for stand at the front, it passes just these if it passes each of them
and the first of the others stops it.
-/

namespace Loxim

variable {α : Type} {p q : α → Bool} {l : List α}

/-- What `q` holds of stands before everything else. -/
def Leading (q : α → Bool) (l : List α) : Prop := l.Pairwise fun a b => q b → q a

namespace Leading

theorem of_pairwise {r : α → α → Prop} (h : l.Pairwise r) (hq : ∀ a b, r a b → q b → q a) :
    Leading q l :=
  h.imp fun {a b} hab => hq a b hab

theorem filter_eq_nil {a : α} (h : Leading q (a :: l)) (ha : q a = false) : l.filter q = [] := by
  apply List.filter_eq_nil_iff.mpr
  intro b hb hqb
  have := (List.pairwise_cons.mp h).1 b hb hqb
  rw [ha] at this
  exact absurd this (by simp)

/-- The hits and the rest make up the list. -/
theorem filter_append (h : Leading q l) : l.filter q ++ l.filter (! q ·) = l := by
  induction l with
  | nil => rfl
  | cons a l ih =>
    cases ha : q a with
    | true => simp [ha, ih (List.pairwise_cons.mp h).2]
    | false =>
      have hnil := h.filter_eq_nil ha
      have hrest : l.filter (! q ·) = l := by
        apply List.filter_eq_self.mpr
        intro b hb
        simpa using List.filter_eq_nil_iff.mp hnil b hb
      simp [ha, hnil, hrest]

theorem takeWhile_eq_filter_iff (h : Leading q l) :
    l.takeWhile p = l.filter q ↔
      (∀ a ∈ l, q a → p a) ∧ ∀ a, l.find? (! q ·) = some a → p a = false := by
  induction l with
  | nil => simp
  | cons a l ih =>
    cases ha : q a with
    | true =>
      have hl := ih (List.pairwise_cons.mp h).2
      cases hp : p a with
      | true => simp [ha, hp, hl]
      | false => simp [ha, hp]
    | false =>
      have hnil := h.filter_eq_nil ha
      have hno : ∀ b ∈ l, q b = false := by simpa using hnil
      cases hp : p a with
      | true => simp [ha, hp, hnil]
      | false => simp +contextual [ha, hp, hnil, hno]

theorem dropWhile_eq_filter_iff (h : Leading q l) :
    l.dropWhile p = l.filter (! q ·) ↔ l.takeWhile p = l.filter q := by
  constructor
  · intro hd
    apply (List.append_left_inj (l.dropWhile p)).mp
    rw [List.takeWhile_append_dropWhile, hd, h.filter_append]
  · intro ht
    apply (List.append_right_inj (l.takeWhile p)).mp
    rw [List.takeWhile_append_dropWhile, ht, h.filter_append]

theorem dropWhile_self (h : Leading q l) : l.dropWhile q = l.filter (! q ·) := by
  apply h.dropWhile_eq_filter_iff.mpr
  apply h.takeWhile_eq_filter_iff.mpr
  refine ⟨fun _ _ ha => ha, ?_⟩
  intro a ha
  simpa using List.find?_some ha

end Leading

/-- Where the first element is none of those looked for, the walk has to end
there, and nothing is to be found. -/
theorem takeWhile_eq_filter_of_head {a : α} (hq : q a = false) :
    (a :: l).takeWhile p = (a :: l).filter q ↔ (∀ b ∈ a :: l, q b = false) ∧ p a = false := by
  constructor
  · intro h
    have hp : p a = false := by
      by_contra hpa
      have hpass : p a = true := by simpa using hpa
      have hmem : a ∈ (a :: l).takeWhile p := by simp [hpass]
      rw [h] at hmem
      have := (List.mem_filter.mp hmem).2
      rw [hq] at this
      exact absurd this (by simp)
    rw [List.takeWhile_cons_of_neg (by simp [hp])] at h
    refine ⟨?_, hp⟩
    intro b hb
    simpa using List.filter_eq_nil_iff.mp h.symm b hb
  · rintro ⟨hnone, hp⟩
    rw [List.takeWhile_cons_of_neg (by simp [hp]), eq_comm]
    apply List.filter_eq_nil_iff.mpr
    intro b hb
    simp [hnone b hb]

end Loxim
