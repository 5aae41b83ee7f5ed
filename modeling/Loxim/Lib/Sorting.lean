import Mathlib.Data.List.Sort
import Mathlib.Data.List.Lex
import Mathlib.Data.List.Perm.Basic

/-!
# Comparators, sorting and comparing lists

A comparator that compares keys of a linear order is a strict weak order, and a list that
is sorted with it has its keys in order. Lists of the same length that are compared
element by element are compared by their keys.
-/

namespace Loxim

/-- What `std::sort` requires of its comparator. -/
structure StrictWeak {α : Type} (lt : α → α → Bool) : Prop where
  irrefl (a : α) : lt a a = false
  trans {a b c : α} : lt a b = true → lt b c = true → lt a c = true
  incomparable {a b c : α} : lt a b = false → lt b a = false → lt b c = false → lt c b = false →
    lt a c = false ∧ lt c a = false

/-- `key` gives the order of `lt` on the elements of `s`. -/
def Orders {α κ : Type} [LT κ] (lt : α → α → Bool) (key : α → κ) (s : α → Prop) : Prop :=
  ∀ a b, s a → s b → (lt a b = true ↔ key a < key b)

section

variable {α : Type} {lt : α → α → Bool}

/-- It is enough that any three elements have keys. -/
theorem StrictWeak.of_keys
    (h : ∀ a b c, ∃ (κ : Type) (_ : LinearOrder κ) (key : α → κ),
      Orders lt key fun x => x = a ∨ x = b ∨ x = c) : StrictWeak lt := by
  refine ⟨fun a => ?_, fun {a b c} hab hbc => ?_, fun {a b c} hab hba hbc hcb => ?_⟩
  · obtain ⟨κ, _, key, hkey⟩ := h a a a
    have haa := hkey a a (Or.inl rfl) (Or.inl rfl)
    exact Bool.eq_false_iff.mpr fun hlt => lt_irrefl _ (haa.mp hlt)
  · obtain ⟨κ, _, key, hkey⟩ := h a b c
    have hab' := (hkey a b (Or.inl rfl) (Or.inr (Or.inl rfl))).mp hab
    have hbc' := (hkey b c (Or.inr (Or.inl rfl)) (Or.inr (Or.inr rfl))).mp hbc
    exact (hkey a c (Or.inl rfl) (Or.inr (Or.inr rfl))).mpr (hab'.trans hbc')
  · obtain ⟨κ, _, key, hkey⟩ := h a b c
    have hnot {x y : α} (hx : x = a ∨ x = b ∨ x = c) (hy : y = a ∨ y = b ∨ y = c)
        (hlt : lt x y = false) : key y ≤ key x := by
      apply le_of_not_gt
      intro hgt
      rw [(hkey x y hx hy).mpr hgt] at hlt
      cases hlt
    have hac : key a = key c := by
      have heq₁ := le_antisymm (hnot (Or.inr (Or.inl rfl)) (Or.inl rfl) hba)
        (hnot (Or.inl rfl) (Or.inr (Or.inl rfl)) hab)
      have heq₂ := le_antisymm (hnot (Or.inr (Or.inr rfl)) (Or.inr (Or.inl rfl)) hcb)
        (hnot (Or.inr (Or.inl rfl)) (Or.inr (Or.inr rfl)) hbc)
      exact heq₁.trans heq₂
    constructor
    · refine Bool.eq_false_iff.mpr fun hlt => ?_
      exact absurd ((hkey a c (Or.inl rfl) (Or.inr (Or.inr rfl))).mp hlt) (by simp [hac])
    · refine Bool.eq_false_iff.mpr fun hlt => ?_
      exact absurd ((hkey c a (Or.inr (Or.inr rfl)) (Or.inl rfl)).mp hlt) (by simp [hac])

end

-- ---------------------------------------------------------------------------
-- Sorting
-- ---------------------------------------------------------------------------

/-- One of the orders that `std::sort` may leave. -/
def sort {α : Type} (lt : α → α → Bool) (l : List α) : List α :=
  l.insertionSort fun a b => lt b a = false

section

variable {α κ : Type} [LinearOrder κ] {lt lt' : α → α → Bool} {key : α → κ} {l l' : List α}

theorem sort_perm (lt : α → α → Bool) (l : List α) : (sort lt l).Perm l := l.perm_insertionSort _

theorem mem_sort {a : α} : a ∈ sort lt l ↔ a ∈ l := (sort_perm lt l).mem_iff

theorem length_sort : (sort lt l).length = l.length := (sort_perm lt l).length_eq

theorem sort_congr (h : ∀ a ∈ l, ∀ b ∈ l, lt a b = lt' a b) : sort lt l = sort lt' l := by
  have hmap := List.map_insertionSort (fun a b => lt b a = false) (fun a b => lt' b a = false) id l
    fun a ha b hb => by rw [h b hb a ha]; rfl
  rwa [List.map_id, List.map_id] at hmap

theorem map_sort (h : Orders lt key (· ∈ l)) :
    (sort lt l).map key = (l.map key).insertionSort (· ≤ ·) := by
  refine List.map_insertionSort _ _ key l fun a ha b hb => ?_
  rw [← Bool.not_eq_true, h b a hb ha, not_lt]

/-- Whichever order it leaves, sorted lists have the same keys when they have them as
multisets. -/
theorem map_sort_eq_iff (h : Orders lt key (· ∈ l)) (h' : Orders lt key (· ∈ l')) :
    (sort lt l).map key = (sort lt l').map key ↔ (l.map key).Perm (l'.map key) := by
  rw [map_sort h, map_sort h']
  have hperm := List.perm_insertionSort (· ≤ ·) (l.map key)
  have hperm' := List.perm_insertionSort (· ≤ ·) (l'.map key)
  refine ⟨fun heq => hperm.symm.trans (heq ▸ hperm'), fun hkeys => ?_⟩
  refine List.Perm.eq_of_pairwise (fun a b _ _ => le_antisymm) (List.pairwise_insertionSort _ _)
    (List.pairwise_insertionSort _ _) (hperm.trans (hkeys.trans hperm'.symm))

omit [LinearOrder κ] in
theorem forall₂_congr_mem {r r' : α → α → Prop} (h : ∀ a ∈ l, ∀ b ∈ l', (r a b ↔ r' a b)) :
    List.Forall₂ r l l' ↔ List.Forall₂ r' l l' := by
  rw [List.forall₂_iff_zip, List.forall₂_iff_zip]
  refine and_congr_right fun _ => ⟨fun hall a b hab => ?_, fun hall a b hab => ?_⟩
  · obtain ⟨ha, hb⟩ := List.of_mem_zip hab
    exact (h a ha b hb).mp (hall hab)
  · obtain ⟨ha, hb⟩ := List.of_mem_zip hab
    exact (h a ha b hb).mpr (hall hab)

omit [LinearOrder κ] in
/-- The keys are the same when the elements can be put in an order with the same keys. -/
theorem map_perm_iff :
    (l.map key).Perm (l'.map key) ↔ ∃ l'', l''.Perm l' ∧ List.Forall₂ (key · = key ·) l l'' := by
  constructor
  · intro h
    have hkeys : List.Forall₂ (fun k a => k = key a) (l'.map key) l' := by
      rw [List.forall₂_map_left_iff]
      exact List.forall₂_same.mpr fun a _ => rfl
    obtain ⟨l'', hl'', hperm⟩ := List.perm_comp_forall₂ h hkeys
    rw [List.forall₂_map_left_iff] at hl''
    exact ⟨l'', hperm, hl''⟩
  · rintro ⟨l'', hperm, hkeys⟩
    have heq : l.map key = l''.map key := by
      clear hperm
      induction hkeys with
      | nil => rfl
      | cons hab _ ih => exact congrArg₂ List.cons hab ih
    rw [heq]
    exact hperm.map key

end

-- ---------------------------------------------------------------------------
-- Comparing element by element
-- ---------------------------------------------------------------------------

/-- The loop of a comparison for equality. -/
def equalLoop {α : Type} (eq : α → α → Bool) : List α → List α → Bool
  | [], _ => true
  | _ :: _, [] => false
  | a :: l, b :: l' => if eq a b then equalLoop eq l l' else false

/-- The loop of a comparison for order. -/
def lessLoop {α : Type} (lt gt : α → α → Bool) : List α → List α → Bool
  | [], _ => false
  | _ :: _, [] => false
  | a :: l, b :: l' => if lt a b then true else if gt a b then false else lessLoop lt gt l l'

section

variable {α κ : Type} [LinearOrder κ] {eq lt gt : α → α → Bool} {key : α → κ} {l l' : List α}

omit [LinearOrder κ] in
theorem equalLoop_iff (h : ∀ a ∈ l, ∀ b ∈ l', (eq a b = true ↔ key a = key b))
    (hlen : l.length = l'.length) : equalLoop eq l l' = true ↔ l.map key = l'.map key := by
  induction l generalizing l' with
  | nil =>
    cases l' with
    | nil => simp [equalLoop]
    | cons b l' => cases hlen
  | cons a l ih =>
    cases l' with
    | nil => cases hlen
    | cons b l' =>
      have hab := h a List.mem_cons_self b List.mem_cons_self
      have hrest := ih (fun x hx y hy => h x (List.mem_cons_of_mem a hx) y (List.mem_cons_of_mem b hy))
        (Nat.succ.inj hlen)
      rw [equalLoop, List.map_cons, List.map_cons, List.cons.injEq, ← hrest, ← hab]
      split
      · rename_i htrue
        simp [htrue]
      · rename_i hfalse
        simp [hfalse]

theorem lessLoop_iff (hlt : ∀ a ∈ l, ∀ b ∈ l', (lt a b = true ↔ key a < key b))
    (hgt : ∀ a ∈ l, ∀ b ∈ l', (gt a b = true ↔ key b < key a))
    (hlen : l.length = l'.length) : lessLoop lt gt l l' = true ↔ l.map key < l'.map key := by
  induction l generalizing l' with
  | nil =>
    cases l' with
    | nil => simp [lessLoop]
    | cons b l' => cases hlen
  | cons a l ih =>
    cases l' with
    | nil => cases hlen
    | cons b l' =>
      have hab := hlt a List.mem_cons_self b List.mem_cons_self
      have hba := hgt a List.mem_cons_self b List.mem_cons_self
      have hrest := ih (fun x hx y hy => hlt x (List.mem_cons_of_mem a hx) y (List.mem_cons_of_mem b hy))
        (fun x hx y hy => hgt x (List.mem_cons_of_mem a hx) y (List.mem_cons_of_mem b hy))
        (Nat.succ.inj hlen)
      rw [lessLoop, List.map_cons, List.map_cons, List.cons_lt_cons_iff, ← hrest]
      split
      · rename_i hless
        simp [hab.mp hless]
      · rename_i hless
        have hle : key b ≤ key a := le_of_not_gt fun h => hless (hab.mpr h)
        split
        · rename_i hgreater
          have hlt' := hba.mp hgreater
          simp [hlt'.not_gt, hlt'.ne']
        · rename_i hgreater
          have heq : key a = key b :=
            le_antisymm (le_of_not_gt fun h => hgreater (hba.mpr h)) hle
          simp [heq]

end

end Loxim
