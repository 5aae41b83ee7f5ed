import Mathlib.Data.List.Basic

/-!
# Linked lists in a memory

`next` is one link field of every cell. A list of cells is linked when each
cell points to the following one and the last points to `e`. Code that changes
a list writes a few links; the laws say what may be written where.
-/

namespace Loxim

variable {α : Type} {null : α} {next next' : α → α} {l l' : List α} {a e e' : α}

/-- The cells of `l`, none of them null, point along the list and then to `e`. -/
def Linked (null : α) (next : α → α) : List α → α → Prop
  | [], _ => True
  | a :: l, e => a ≠ null ∧ next a = l.headD e ∧ Linked null next l e

namespace Linked

@[simp] theorem nil : Linked null next [] e := trivial

theorem append : Linked null next (l ++ l') e ↔
    Linked null next l (l'.headD e) ∧ Linked null next l' e := by
  induction l with
  | nil => simp
  | cons a l ih =>
    have hhead : (l ++ l').headD e = l.headD (l'.headD e) := by cases l <;> simp
    rw [List.cons_append, Linked, Linked, ih, hhead, and_assoc, and_assoc]

theorem ne_null (h : Linked null next l e) (ha : a ∈ l) : a ≠ null := by
  induction l with
  | nil => cases ha
  | cons b l ih =>
    rcases List.mem_cons.mp ha with rfl | ha
    · exact h.1
    · exact ih h.2.2 ha

/-- Links outside the list do not matter. -/
theorem congr (h : Linked null next l e) (hn : ∀ x ∈ l, next' x = next x) :
    Linked null next' l e := by
  induction l with
  | nil => trivial
  | cons b l ih =>
    refine ⟨h.1, ?_, ih h.2.2 fun x hx => hn x (by simp [hx])⟩
    rw [hn b (by simp)]
    exact h.2.1

/-- Writing the link of the last cell moves the end. -/
theorem retarget (h : Linked null next l e) (hnd : l.Nodup)
    (hn : ∀ x ∈ l, l.getLast? ≠ some x → next' x = next x)
    (hlast : ∀ x, l.getLast? = some x → next' x = e') : Linked null next' l e' := by
  induction l with
  | nil => trivial
  | cons b l ih =>
    cases l with
    | nil => exact ⟨h.1, hlast b rfl, trivial⟩
    | cons c l =>
      have hbc : (b :: c :: l).getLast? = (c :: l).getLast? := by simp
      refine ⟨h.1, ?_, ih h.2.2 (List.nodup_cons.mp hnd).2 ?_ ?_⟩
      · rw [hn b (by simp)]
        · exact h.2.1
        · rw [hbc]
          intro hb
          exact (List.nodup_cons.mp hnd).1 (List.mem_of_getLast? hb)
      · intro x hx hne
        exact hn x (by simp [hx]) (hbc ▸ hne)
      · intro x hx
        exact hlast x (hbc ▸ hx)

theorem next_eq (h : Linked null next (l ++ a :: l') e) : next a = l'.headD e :=
  (append.mp h).2.2.1

/-- A memory has one list from each cell. -/
theorem unique (h : Linked null next l null) (h' : Linked null next l' null)
    (hh : l.headD null = l'.headD null) : l = l' := by
  induction l generalizing l' with
  | nil =>
    cases l' with
    | nil => rfl
    | cons b l' => exact absurd hh.symm h'.1
  | cons a l ih =>
    cases l' with
    | nil => exact absurd hh h.1
    | cons b l' =>
      have hab : a = b := hh
      subst hab
      rw [ih h.2.2 h'.2.2 (h.2.1.symm.trans h'.2.1)]

end Linked

end Loxim
