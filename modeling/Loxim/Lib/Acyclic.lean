import Mathlib.Data.Fintype.Card
import Mathlib.Logic.Relation
import Mathlib.Order.Filter.AtTopBot.Basic
import Mathlib.Order.Filter.Finite

/-!
# Relations without cycles

Nothing is reached from itself. On a finite type the relation can then be followed only
finitely often, so a recursion along it returns when the stack is deep enough.
-/

namespace Loxim

open Relation (TransGen ReflTransGen)

variable {α : Type} {r r' : α → α → Prop} {x : α}

def Acyclic (r : α → α → Prop) : Prop := ∀ a, ¬ TransGen r a a

theorem Acyclic.mono (h : Acyclic r) (hsub : ∀ a b, r' a b → r a b) : Acyclic r' :=
  fun a hcycle => h a (TransGen.mono hsub _ _ hcycle)

theorem Acyclic.swap (h : Acyclic r) : Acyclic (Function.swap r) :=
  fun a hcycle => h a (Relation.transGen_swap.mp hcycle)

theorem Acyclic.wellFounded [Finite α] (h : Acyclic r) : WellFounded (Function.swap r) := by
  have : IsTrans α (TransGen (Function.swap r)) := ⟨fun _ _ _ => TransGen.trans⟩
  have : Std.Irrefl (TransGen (Function.swap r)) := ⟨h.swap⟩
  have hwf := Finite.wellFounded_of_trans_of_irrefl (TransGen (Function.swap r))
  exact Subrelation.wf (fun hab => TransGen.single hab) hwf

theorem acyclic_of_acc {a : α} (h : Acc (Function.swap r) a) : ¬ TransGen r a a := by
  induction h with
  | intro a _ ih =>
    intro hcycle
    obtain ⟨b, hab, hba⟩ := TransGen.head'_iff.mp hcycle
    exact ih b hab (TransGen.tail' hba hab)

theorem Acyclic.of_acc (h : ∀ a, Acc (Function.swap r) a) : Acyclic r :=
  fun a => acyclic_of_acc (h a)

/-- The type may be infinite when only finitely many of its elements have an edge. -/
theorem Acyclic.wellFounded_of_finite (h : Acyclic r) (hfin : {a | ∃ b, r a b}.Finite) :
    WellFounded (Function.swap r) := by
  let s := {a | ∃ b, r a b}
  have : Finite s := hfin
  let q : s → s → Prop := fun a b => r a b
  have hq : Acyclic q := fun a hcycle =>
    h a (TransGen.lift (p := r) Subtype.val (fun _ _ hab => hab) _ _ hcycle)
  have hin (a : s) : Acc (Function.swap r) a := by
    induction a using hq.wellFounded.induction with
    | _ a ih =>
      refine Acc.intro _ fun b hb => ?_
      by_cases hbs : b ∈ s
      · exact ih ⟨b, hbs⟩ hb
      · exact Acc.intro _ fun c hc => absurd ⟨c, hc⟩ hbs
  refine ⟨fun a => ?_⟩
  by_cases has : a ∈ s
  · exact hin ⟨a, has⟩
  · exact Acc.intro _ fun b hb => absurd ⟨b, hb⟩ has

section

-- The edges out of `x` are new ones, and from their ends `x` could not be reached.
variable (hother : ∀ {a b}, r' a b → a ≠ x → r a b)
  (hnew : ∀ {b}, r' x b → ¬ ReflTransGen r b x)
include hother hnew

theorem reflTransGen_of_redirect {b c : α} (hb : r' x b) (h : ReflTransGen r' b c) :
    ReflTransGen r b c := by
  induction h with
  | refl => exact .refl
  | tail _ hstep ih =>
    refine ih.tail (hother hstep ?_)
    rintro rfl
    exact hnew hb ih

theorem not_transGen_of_redirect : ¬ TransGen r' x x := by
  intro hcycle
  obtain ⟨b, hb, hpath⟩ := TransGen.head'_iff.mp hcycle
  exact hnew hb (reflTransGen_of_redirect hother hnew hb hpath)

theorem Acyclic.redirect (h : Acyclic r) : Acyclic r' := by
  have hsplit {a c : α} (hac : TransGen r' a c) :
      TransGen r a c ∨ ReflTransGen r' a x ∧ TransGen r' x c := by
    induction hac with
    | @single c hstep =>
      by_cases hax : a = x
      · subst hax
        exact Or.inr ⟨.refl, .single hstep⟩
      · exact Or.inl (.single (hother hstep hax))
    | @tail b c hpath hstep ih =>
      by_cases hbx : b = x
      · subst hbx
        exact Or.inr ⟨hpath.to_reflTransGen, .single hstep⟩
      · rcases ih with ih | ⟨hax, hxb⟩
        · exact Or.inl (ih.tail (hother hstep hbx))
        · exact Or.inr ⟨hax, hxb.tail hstep⟩
  intro a hcycle
  rcases hsplit hcycle with hold | ⟨hax, hxa⟩
  · exact h a hold
  · exact not_transGen_of_redirect hother hnew (hxa.trans_left hax)

end

-- ---------------------------------------------------------------------------
-- Deep enough
-- ---------------------------------------------------------------------------

open Filter (atTop)

theorem eventually_of_succ {P : Nat → Prop} (h : ∀ᶠ n in atTop, P (n + 1)) : ∀ᶠ n in atTop, P n := by
  rw [← Filter.map_add_atTop_eq_nat 1]
  exact h

/-- What a recursion finds when it follows `r` from `a` with room for `n` calls. -/
theorem eventually_of_wellFounded (hwf : WellFounded (Function.swap r))
    (hfin : ∀ a, {b | r a b}.Finite) {P : α → Nat → Prop}
    (hstep : ∀ a n, (∀ b, r a b → P b n) → P a (n + 1)) (a : α) : ∀ᶠ n in atTop, P a n := by
  induction a using hwf.induction with
  | _ a ih =>
    have hall : ∀ᶠ n in atTop, ∀ b ∈ {b | r a b}, P b n :=
      (Filter.eventually_all_finite (hfin a)).mpr ih
    exact eventually_of_succ (hall.mono fun n hn => hstep a n hn)

theorem Acyclic.eventually [Finite α] (h : Acyclic r) {P : α → Nat → Prop}
    (hstep : ∀ a n, (∀ b, r a b → P b n) → P a (n + 1)) (a : α) : ∀ᶠ n in atTop, P a n :=
  eventually_of_wellFounded h.wellFounded (fun _ => Set.toFinite _) hstep a

/-- A recursion that returns has not met a cycle. -/
theorem acc_of_returns {P : α → Nat → Prop} (hzero : ∀ a, ¬ P a 0)
    (hstep : ∀ a n, P a (n + 1) → ∀ b, r a b → P b n) {a : α} {n : Nat} (h : P a n) :
    Acc (Function.swap r) a := by
  induction n generalizing a with
  | zero => exact absurd h (hzero a)
  | succ n ih => exact Acc.intro a fun b hb => ih (hstep a n h b hb)

end Loxim
