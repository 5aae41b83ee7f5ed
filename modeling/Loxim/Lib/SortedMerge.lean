import Loxim.Lib.Sorting

/-!
# Reading sorted lists side by side

Of two sorted lists the smaller of the first elements is taken off each time, and of two that are
equal both. How often an element is met in both lists, or is left over in one of them, can be read
off the lists as multisets. In one sorted list equal elements stand side by side.
-/

namespace Loxim

section

variable {α : Type}

/-- Elements that neither of which is less than the other one are equal. -/
structure Ordered (lt eq : α → α → Bool) : Prop where
  weak : StrictWeak lt
  same (a b : α) : eq a b = true ↔ lt a b = false ∧ lt b a = false

def Ascends (lt : α → α → Bool) (l : List α) : Prop := l.Pairwise fun a b => lt b a = false

/-- The elements of the left list that are met in the right one, those that are not, or all. -/
def picked (lt eq : α → α → Bool) (met alone : Bool) : List α → List α → List α
  | [], _ => []
  | a :: l, [] => if alone then a :: picked lt eq met alone l [] else picked lt eq met alone l []
  | a :: l, b :: r =>
    if eq a b then if met then a :: picked lt eq met alone l r else picked lt eq met alone l r
    else if lt a b then
      if alone then a :: picked lt eq met alone l (b :: r)
      else picked lt eq met alone l (b :: r)
    else picked lt eq met alone (a :: l) r
termination_by l r => l.length + r.length

/-- The first of each row of equal elements after `current`. -/
def firsts (eq : α → α → Bool) (current : α) : List α → List α
  | [] => []
  | a :: l => if eq a current then firsts eq current l else a :: firsts eq a l

end

section

variable {α : Type} {lt eq : α → α → Bool} {met alone : Bool} {a b c v : α} {l r : List α}

theorem Ordered.refl (h : Ordered lt eq) (a : α) : eq a a = true :=
  (h.same a a).mpr ⟨h.weak.irrefl a, h.weak.irrefl a⟩

theorem Ordered.symm (h : Ordered lt eq) (hab : eq a b = true) : eq b a = true :=
  (h.same b a).mpr ((h.same a b).mp hab).symm

theorem Ordered.trans (h : Ordered lt eq) (hab : eq a b = true) (hbc : eq b c = true) :
    eq a c = true := by
  obtain ⟨hab, hba⟩ := (h.same a b).mp hab
  obtain ⟨hbc, hcb⟩ := (h.same b c).mp hbc
  exact (h.same a c).mpr (h.weak.incomparable hab hba hbc hcb)

theorem Ordered.congr (h : Ordered lt eq) (hab : eq a b = true) (v : α) : eq v a = eq v b := by
  rw [Bool.eq_iff_iff]
  exact ⟨fun hva => h.trans hva hab, fun hvb => h.trans hvb (h.symm hab)⟩

theorem Ordered.lt_of_lt_of_eq (h : Ordered lt eq) (hab : lt a b = true) (hbc : eq b c = true) :
    lt a c = true := by
  obtain ⟨hbc, hcb⟩ := (h.same b c).mp hbc
  cases hac : lt a c with
  | true => rfl
  | false =>
    cases hca : lt c a with
    | true => rw [h.weak.trans hca hab] at hcb; contradiction
    | false =>
      have hinc := h.weak.incomparable hac hca hcb hbc
      rw [hinc.1] at hab
      contradiction

theorem Ordered.lt_of_lt_of_le (h : Ordered lt eq) (hab : lt a b = true) (hcb : lt c b = false) :
    lt a c = true := by
  cases hbc : lt b c with
  | true => exact h.weak.trans hab hbc
  | false => exact h.lt_of_lt_of_eq hab ((h.same b c).mpr ⟨hbc, hcb⟩)

theorem Ordered.ne_of_lt (h : Ordered lt eq) (hab : lt a b = true) : eq a b = false := by
  cases heq : eq a b with
  | false => rfl
  | true =>
    rw [((h.same a b).mp heq).1] at hab
    contradiction

/-- What is equal to something below all of `l` is not in `l`. -/
theorem Ordered.countP_eq_zero (h : Ordered lt eq) (hva : eq v a = true)
    (hl : ∀ x ∈ l, lt a x = true) : l.countP (eq v) = 0 := by
  rw [List.countP_eq_zero]
  intro x hx hvx
  have hax := h.trans (h.symm hva) hvx
  rw [h.ne_of_lt (hl x hx)] at hax
  contradiction

theorem Ordered.lt_all (h : Ordered lt eq) (hab : lt a b = true) (hs : Ascends lt (b :: l)) :
    ∀ x ∈ b :: l, lt a x = true := by
  rintro x (_ | ⟨_, hx⟩)
  · exact hab
  · exact h.lt_of_lt_of_le hab ((List.pairwise_cons.mp hs).1 x hx)

theorem Ordered.gt_of (h : Ordered lt eq) (hne : eq a b = false) (hlt : lt a b = false) :
    lt b a = true := by
  cases hba : lt b a with
  | true => rfl
  | false =>
    rw [(h.same a b).mpr ⟨hlt, hba⟩] at hne
    contradiction

-- ---------------------------------------------------------------------------
-- How often
-- ---------------------------------------------------------------------------

theorem Ordered.countP_picked (h : Ordered lt eq) (hl : Ascends lt l) (hr : Ascends lt r) (v : α) :
    (picked lt eq met alone l r).countP (eq v) =
      (if met then min (l.countP (eq v)) (r.countP (eq v)) else 0) +
      (if alone then l.countP (eq v) - r.countP (eq v) else 0) := by
  fun_induction picked lt eq met alone l r with
  | case1 r => simp
  | case2 a l halone ih =>
    rw [List.countP_cons, List.countP_cons, ih hl.tail hr, if_pos halone, if_pos halone]
    simp [Nat.add_comm]
  | case3 a l halone ih =>
    rw [ih hl.tail hr, if_neg halone, if_neg halone]
    simp
  | case4 a l b r hab hmet ih =>
    rw [List.countP_cons, List.countP_cons, List.countP_cons, ih hl.tail hr.tail, if_pos hmet,
      if_pos hmet, h.congr hab, Nat.add_sub_add_right, Nat.add_min_add_right]
    omega
  | case5 a l b r hab hmet ih =>
    rw [List.countP_cons, List.countP_cons, ih hl.tail hr.tail, if_neg hmet, if_neg hmet,
      h.congr hab, Nat.add_sub_add_right]
  | case6 a l b r hab hlt halone ih =>
    rw [List.countP_cons, List.countP_cons, ih hl.tail hr, if_pos halone, if_pos halone]
    by_cases hva : eq v a = true
    · rw [h.countP_eq_zero hva (h.lt_all hlt hr)]
      simp
    · simp [hva]
  | case7 a l b r hab hlt halone ih =>
    rw [List.countP_cons, ih hl.tail hr, if_neg halone, if_neg halone]
    by_cases hva : eq v a = true
    · rw [h.countP_eq_zero hva (h.lt_all hlt hr)]
      simp
    · simp [hva]
  | case8 a l b r hab hlt ih =>
    have hba := h.gt_of (Bool.eq_false_of_not_eq_true hab) (Bool.eq_false_of_not_eq_true hlt)
    have hright : (b :: r).countP (eq v) = r.countP (eq v) + if eq v b then 1 else 0 :=
      List.countP_cons
    rw [ih hl hr.tail, hright]
    by_cases hvb : eq v b = true
    · rw [h.countP_eq_zero hvb (h.lt_all hba hl)]
      simp
    · simp [hvb]

theorem picked_sublist : (picked lt eq met alone l r).Sublist l := by
  fun_induction picked lt eq met alone l r with
  | case1 r => exact List.Sublist.slnil
  | case2 a l halone ih => exact ih.cons_cons a
  | case3 a l halone ih => exact ih.cons a
  | case4 a l b r hab hmet ih => exact ih.cons_cons a
  | case5 a l b r hab hmet ih => exact ih.cons a
  | case6 a l b r hab hlt halone ih => exact ih.cons_cons a
  | case7 a l b r hab hlt halone ih => exact ih.cons a
  | case8 a l b r hab hlt ih => exact ih

theorem firsts_sublist (current : α) : (firsts eq current l).Sublist l := by
  induction l generalizing current with
  | nil => exact List.Sublist.slnil
  | cons a l ih =>
    rw [firsts]
    split
    · exact (ih current).cons a
    · exact (ih a).cons_cons a

/-- Once each, except for what is equal to `current`. -/
theorem Ordered.countP_firsts (h : Ordered lt eq) (hl : Ascends lt (a :: l)) (v : α) :
    (firsts eq a l).countP (eq v) = if eq v a then 0 else min 1 (l.countP (eq v)) := by
  induction l generalizing a with
  | nil => simp [firsts]
  | cons b l ih =>
    have hrest : Ascends lt (a :: l) :=
      hl.sublist ((List.Sublist.refl l).cons b |>.cons_cons a)
    rw [firsts, List.countP_cons]
    split
    · rename_i hba
      rw [ih hrest, h.congr hba]
      split
      · rfl
      · rfl
    · rename_i hba
      have hlt : lt a b = true := by
        apply h.gt_of (Bool.eq_false_of_not_eq_true hba)
        exact (List.pairwise_cons.mp hl).1 b List.mem_cons_self
      rw [List.countP_cons, ih hl.tail]
      by_cases hva : eq v a = true
      · have hvb := h.countP_eq_zero hva (h.lt_all hlt hl.tail)
        rw [List.countP_cons] at hvb
        rw [if_pos hva]
        split
        · simp_all
        · omega
      · rw [if_neg hva]
        split
        · omega
        · rfl

end

end Loxim
