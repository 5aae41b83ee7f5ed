import Mathlib.Algebra.Group.Int.Defs
import Mathlib.Algebra.BigOperators.Group.List.Basic
import Mathlib.Data.List.Induction
import Mathlib.Order.Lattice

/-!
# What a loop over a list collects

Elements are read one after another, and the first that cannot be read ends the loop. A word that
the elements are added to holds their sum up to its width, and a value that gives way to better ones
is a best one at the end.
-/

namespace Loxim

-- ---------------------------------------------------------------------------
-- Reading elements one after another
-- ---------------------------------------------------------------------------

section

variable {α β σ ε : Type} {read : α → Except ε β} {step : σ → β → σ} {l : List α}

theorem foldlM_read {values : List β} (h : l.mapM read = .ok values) (acc : σ) :
    l.foldlM (fun acc a => do return step acc (← read a)) acc =
      Except.ok (values.foldl step acc) := by
  induction l generalizing values acc with
  | nil =>
    cases h
    rfl
  | cons a l ih =>
    rw [List.mapM_cons] at h
    rw [List.foldlM_cons]
    cases hread : read a with
    | error e =>
      rw [hread] at h
      contradiction
    | ok b =>
      cases hrest : l.mapM read with
      | error e =>
        rw [hread, hrest] at h
        contradiction
      | ok values' =>
        rw [hread, hrest] at h
        cases h
        exact ih hrest _

theorem foldlM_read_error {e : ε} (h : l.mapM read = .error e) (acc : σ) :
    l.foldlM (fun acc a => do return step acc (← read a)) acc = Except.error e := by
  induction l generalizing acc with
  | nil => contradiction
  | cons a l ih =>
    rw [List.mapM_cons] at h
    rw [List.foldlM_cons]
    cases hread : read a with
    | error e' =>
      rw [hread] at h
      cases h
      rfl
    | ok b =>
      cases hrest : l.mapM read with
      | error e' =>
        rw [hread, hrest] at h
        cases h
        exact ih hrest _
      | ok values' =>
        rw [hread, hrest] at h
        contradiction

/-- What every step keeps of the elements seen so far holds of all of them at the end. -/
theorem foldl_seen {P : List β → σ → Prop} {acc : σ} (hinit : P [] acc)
    (hstep : ∀ seen acc b, P seen acc → P (seen ++ [b]) (step acc b)) (values : List β) :
    P values (values.foldl step acc) := by
  induction values using List.reverseRecOn with
  | nil => exact hinit
  | append_singleton seen b ih =>
    rw [List.foldl_append]
    exact hstep seen _ b ih

end

-- ---------------------------------------------------------------------------
-- Words that wrap
-- ---------------------------------------------------------------------------

/-- The integer is what a word of `w + 1` bits can hold. -/
def InRange (w : Nat) (i : Int) : Prop := -2 ^ w ≤ i ∧ i < 2 ^ w

instance (w : Nat) (i : Int) : Decidable (InRange w i) :=
  inferInstanceAs (Decidable (_ ∧ _))

theorem toInt_ofInt_eq_iff (w : Nat) (i : Int) :
    (BitVec.ofInt (w + 1) i).toInt = i ↔ InRange w i := by
  constructor
  · intro h
    have hle := BitVec.le_toInt (BitVec.ofInt (w + 1) i)
    have hlt := BitVec.toInt_lt (x := BitVec.ofInt (w + 1) i)
    rw [h] at hle hlt
    exact ⟨hle, hlt⟩
  · rintro ⟨hle, hlt⟩
    rw [BitVec.toInt_ofInt]
    apply Int.bmod_eq_of_le <;> push_cast <;> omega

theorem ofInt_add_word (w : Nat) (i : Int) (v : BitVec w) :
    BitVec.ofInt w i + v = BitVec.ofInt w (i + v.toInt) := by
  rw [BitVec.ofInt_add, BitVec.ofInt_toInt]

-- ---------------------------------------------------------------------------
-- The best element
-- ---------------------------------------------------------------------------

section

variable {α : Type} (le : α → α → Prop)

structure IsBest (l : List α) (a : α) : Prop where
  mem : a ∈ l
  best : ∀ b ∈ l, le a b

/-- The element kept when another one comes. -/
def keep (better : α → α → Bool) : Option α → α → α
  | none, b => b
  | some a, b => if better b a then b else a

/-- The element kept, if there has been any. -/
def KeepsBest (l : List α) : Option α → Prop
  | none => l = []
  | some a => IsBest le l a

variable {le} {better : α → α → Bool} {l : List α}

/-- An element that is not better than the one kept comes after it. -/
structure Picks (le : α → α → Prop) (better : α → α → Bool) : Prop where
  refl (a : α) : le a a
  trans {a b c : α} : le a b → le b c → le a c
  better_le {a b : α} : better a b = true → le a b
  le_of_not {a b : α} : better a b = false → le b a

theorem Picks.of_lt {β : Type} [LinearOrder β] (f : α → β)
    (h : ∀ a b, better a b = true ↔ f a < f b) : Picks (fun a b => f a ≤ f b) better where
  refl a := le_refl (f a)
  trans := le_trans
  better_le hbetter := ((h _ _).mp hbetter).le
  le_of_not hbetter := not_lt.mp fun hlt => by simp [(h _ _).mpr hlt] at hbetter

theorem KeepsBest.keep (h : Picks le better) {kept : Option α} (hkept : KeepsBest le l kept)
    (b : α) :
    KeepsBest le (l ++ [b]) (some (keep better kept b)) := by
  cases kept with
  | none =>
    cases hkept
    refine ⟨List.mem_singleton_self b, ?_⟩
    intro c hc
    rw [List.mem_singleton.mp hc]
    exact h.refl b
  | some a =>
    obtain ⟨hmem, hbest⟩ := hkept
    rw [Loxim.keep]
    cases hbetter : better b a with
    | true =>
      refine ⟨List.mem_append_right _ (List.mem_singleton_self b), ?_⟩
      intro c hc
      rcases List.mem_append.mp hc with hc | hc
      · exact h.trans (h.better_le hbetter) (hbest c hc)
      · rw [List.mem_singleton.mp hc]
        exact h.refl b
    | false =>
      refine ⟨List.mem_append_left _ hmem, ?_⟩
      intro c hc
      rcases List.mem_append.mp hc with hc | hc
      · exact hbest c hc
      · rw [List.mem_singleton.mp hc]
        exact h.le_of_not hbetter

end

end Loxim
