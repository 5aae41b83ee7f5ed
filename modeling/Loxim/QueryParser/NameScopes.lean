import Loxim.QueryParser.StackInvariant
import Loxim.QueryParser.Rewriting

/-!
# Names and what binds them

A name that the data scheme does not have can only be bound by an `as` of that name that was
evaluated before.
-/

namespace Loxim.QueryParser.Optimizer

/-- No binder in the signature has the name. -/
abbrev Sig.Lacks (x : String) : Sig → Prop := Sig.Deep (fun _ => True) (· ≠ x)

theorem Sig.Lacks.hereditary {S : Scheme} {x : String} (hx : x ∉ S.names) :
    Hereditary S (Sig.Lacks x) :=
  Sig.Deep.hereditary trivial fun _ hn he => hx (he ▸ hn)

/-- How many nodes of the tree give the name. -/
def Tree.asCount (x : String) : Tree → Nat
  | .as _ arg n _ => arg.asCount x + if n = x then 1 else 0
  | .unOp _ _ arg => arg.asCount x
  | .coerce _ _ arg => arg.asCount x
  | .castTo _ arg => arg.asCount x
  | .algOp _ _ larg rarg => larg.asCount x + rarg.asCount x
  | .nonAlgOp _ _ larg rarg => larg.asCount x + rarg.asCount x
  | _ => 0

/-- The name is used before any node has given it. -/
def Tree.Unbound (x : String) : Tree → Prop
  | .name _ n => n = x
  | .as _ arg _ _ => arg.Unbound x
  | .unOp _ _ arg => arg.Unbound x
  | .coerce _ _ arg => arg.Unbound x
  | .castTo _ arg => arg.Unbound x
  | .algOp _ _ larg rarg => larg.Unbound x ∨ larg.asCount x = 0 ∧ rarg.Unbound x
  | .nonAlgOp _ _ larg rarg => larg.Unbound x ∨ larg.asCount x = 0 ∧ rarg.Unbound x
  | _ => False

theorem Tree.makes_lacks {x : String} {t : Tree} (h : t.asCount x = 0) :
    t.Makes (Sig.Lacks x) := by
  induction t with
  | name o n =>
    intro s hs
    exact hs.setDependsOn trivial
  | value => trivial
  | «as» o arg n group ih =>
    simp only [asCount, Nat.add_eq_zero_iff, ite_eq_right_iff, one_ne_zero, imp_false] at h
    exact ⟨ih h.1, fun v hv => ⟨trivial, h.2, hv⟩⟩
  | unOp o op arg ih => exact ih h
  | coerce o c arg ih => exact ih h
  | castTo o arg ih => exact ih h
  | algOp o op larg rarg ihl ihr =>
    simp only [asCount, Nat.add_eq_zero_iff] at h
    exact ⟨ihl h.1, ihr h.2⟩
  | nonAlgOp o op larg rarg ihl ihr =>
    simp only [asCount, Nat.add_eq_zero_iff] at h
    exact ⟨ihl h.1, ihr h.2⟩
  | other => trivial

/-- A name that nothing binds is not evaluated. -/
theorem bindName2_lacks {x : String} {st : State} (h : st.All (Sig.Lacks x)) :
    bindName2 x st.envs = none := by
  cases hb : bindName2 x st.envs with
  | none => rfl
  | some found =>
    obtain ⟨sect, size, vec⟩ := found
    obtain ⟨section_, hs, hv⟩ := bindName2_mem hb
    have hne := bindName2_ne_nil hb
    obtain ⟨b, l, rfl⟩ := List.exists_cons_of_ne_nil hne
    have hb := hv b List.mem_cons_self
    exact absurd hb.2 (h.envs section_ hs b hb.1).2.1

theorem unbound_not_ok {S : Scheme} {run : Nat} {x : String} (hx : x ∉ S.names) {t : Tree}
    (hu : t.Unbound x) {st : State} (h : st.All (Sig.Lacks x)) (st' : State) :
    staticEval S run t st ≠ .ok st' := by
  have hP := Sig.Lacks.hereditary hx
  induction t generalizing st st' with
  | name o n =>
    cases hu
    simp [staticEval, nameEval, bindName2_lacks h]
  | value => cases hu
  | «as» o arg n group ih =>
    intro he
    obtain ⟨st₁, h₁, -⟩ := Outcome.andThen_ok he
    exact ih hu h st₁ h₁
  | unOp o op arg ih =>
    intro he
    obtain ⟨st₁, h₁, -⟩ := Outcome.andThen_ok he
    exact ih hu h st₁ h₁
  | coerce o c arg ih =>
    intro he
    obtain ⟨st₁, h₁, -⟩ := Outcome.andThen_ok he
    exact ih hu h st₁ h₁
  | castTo o arg ih =>
    intro he
    obtain ⟨st₁, h₁, -⟩ := Outcome.andThen_ok he
    exact ih hu h st₁ h₁
  | algOp o op larg rarg ihl ihr =>
    intro he
    obtain ⟨st₁, h₁, he⟩ := Outcome.andThen_ok he
    cases hu with
    | inl hu => exact ihl hu h st₁ h₁
    | inr hu =>
      obtain ⟨st₂, h₂, -⟩ := Outcome.andThen_ok he
      exact ihr hu.2 (hP.staticEval (Tree.makes_lacks hu.1) h h₁) st₂ h₂
  | nonAlgOp o op larg rarg ihl ihr =>
    intro he
    obtain ⟨st₁, h₁, he⟩ := Outcome.andThen_ok he
    cases hu with
    | inl hu => exact ihl hu h st₁ h₁
    | inr hu =>
      have hl := hP.staticEval (Tree.makes_lacks hu.1) h h₁
      simp only at he
      split at he
      · cases he
      · rename_i st₂ sToPop ho
        obtain ⟨st₃, h₃, -⟩ := Outcome.andThen_ok he
        exact ihr hu.2 (hP.openSections hl (fun s hs => hl.topSig hP hs) ho) st₃ h₃
  | other => cases hu

/-- A query that uses a name before it is given is not evaluated. -/
theorem statEvaluate_unbound {S : Scheme} {x : String} (hx : x ∉ S.names) {t : Tree}
    (hu : t.Unbound x) (m m' : Memory) : statEvaluate S t m ≠ .ok (true, m') := by
  have h : ((State.mk [] [] m.nodes).pushBinders S.bindBaseObjects).All (Sig.Lacks x) :=
    S.base_all trivial (fun _ hn he => hx (Eq.subst he hn)) m.nodes
  intro he
  simp only [statEvaluate] at he
  split at he
  · rename_i st' hs
    exact unbound_not_ok hx hu h st' hs
  · cases he
  · cases he

end Loxim.QueryParser.Optimizer
