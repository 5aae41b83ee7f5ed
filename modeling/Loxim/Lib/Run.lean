import Mathlib.Tactic.Common

/-!
# Runs of a state machine

`step` makes one call and fails where the program does; `ok` is what the caller
of a call guarantees in the state the call is made in.
-/

namespace Loxim

inductive Reaches (step : σ → α → Option σ) (ok : σ → α → Prop) (start : σ) : σ → Prop
  | refl : Reaches step ok start start
  | step (h : Reaches step ok start s) (hok : ok s a) (hs : step s a = some s') :
    Reaches step ok start s'

namespace Reaches

variable {σ α : Type} {step : σ → α → Option σ} {ok ok' : σ → α → Prop} {start s : σ}

theorem invariant {I : σ → Prop} (h : Reaches step ok start s) (hstart : I start)
    (hstep : ∀ s a s', I s → ok s a → step s a = some s' → I s') : I s := by
  induction h with
  | refl => exact hstart
  | step _ hok hs ih => exact hstep _ _ _ ih hok hs

theorem mono (h : Reaches step ok start s) (hok : ∀ s a, ok s a → ok' s a) :
    Reaches step ok' start s := by
  induction h with
  | refl => exact .refl
  | step _ ho hs ih => exact .step ih (hok _ _ ho) hs

end Reaches

/-- Make the calls one after another; fails where a call may not be made. -/
def play (step : σ → α → Option σ) (ok : σ → α → Prop) [∀ s a, Decidable (ok s a)] :
    List α → σ → Option σ
  | [], s => some s
  | a :: l, s => if ok s a then step s a >>= play step ok l else none

section

variable {σ α : Type} {step : σ → α → Option σ} {ok : σ → α → Prop} [∀ s a, Decidable (ok s a)]
  {start s s' : σ}

theorem Reaches.play (h : Reaches step ok start s) (hplay : play step ok l s = some s') :
    Reaches step ok start s' := by
  induction l generalizing s with
  | nil =>
    cases hplay
    exact h
  | cons a l ih =>
    unfold Loxim.play at hplay
    split at hplay
    · rename_i hok
      obtain ⟨s₁, hs₁, hrest⟩ := Option.bind_eq_some_iff.mp hplay
      exact ih (h.step hok hs₁) hrest
    · cases hplay

/-- A run that can be evaluated, and what is found at its end. -/
theorem Reaches.of_play (step : σ → α → Option σ) (ok : σ → α → Prop) [∀ s a, Decidable (ok s a)]
    (start : σ) (l : List α) (Q : σ → Bool) (h : (Loxim.play step ok l start).any Q = true) :
    ∃ s, Reaches step ok start s ∧ Q s = true := by
  cases hs : Loxim.play step ok l start with
  | none => simp [hs] at h
  | some s => exact ⟨s, Reaches.refl.play hs, by simpa [hs] using h⟩

/-- A run that goes on under another condition. -/
theorem Reaches.of_play_on (step : σ → α → Option σ) (ok ok' : σ → α → Prop)
    [∀ s a, Decidable (ok s a)] [∀ s a, Decidable (ok' s a)] (start : σ) (l l' : List α)
    (Q : σ → σ → Bool)
    (h : ((Loxim.play step ok l start).any fun s => (Loxim.play step ok' l' s).any (Q s)) = true) :
    ∃ s s', Reaches step ok start s ∧ Reaches step ok' s s' ∧ Q s s' = true := by
  obtain ⟨s, hs, hrest⟩ := Reaches.of_play step ok start l _ h
  obtain ⟨s', hs', hQ⟩ := Reaches.of_play step ok' s l' _ hrest
  exact ⟨s, s', hs, hs', hQ⟩

end

end Loxim
