import Loxim.QueryParser.Simplifying

/-!
# What the optimisation of a query returns

All its loops end, provided that the random names are different. What it returns when an
evaluation fails depends on which one it is.
-/

namespace Loxim.QueryParser.Optimizer

-- ---------------------------------------------------------------------------
-- The optimisation ends
-- ---------------------------------------------------------------------------

namespace Tree

/-- The names that the `as` nodes give. -/
def givenNames : Tree → Finset String
  | .as _ arg n _ => insert n arg.givenNames
  | .unOp _ _ arg => arg.givenNames
  | .coerce _ _ arg => arg.givenNames
  | .castTo _ arg => arg.givenNames
  | .algOp _ _ larg rarg => larg.givenNames ∪ rarg.givenNames
  | .nonAlgOp _ _ larg rarg => larg.givenNames ∪ rarg.givenNames
  | _ => ∅

theorem asCount_of_notMem {x : String} {t : Tree} (h : x ∉ t.givenNames) : t.asCount x = 0 := by
  induction t with
  | name => rfl
  | value => rfl
  | «as» o arg n g ih =>
    simp only [givenNames, Finset.mem_insert, not_or] at h
    simp only [asCount, ih h.2, if_neg (Ne.symm h.1)]
  | unOp o op arg ih => exact ih h
  | coerce o c arg ih => exact ih h
  | castTo o arg ih => exact ih h
  | algOp o op larg rarg ihl ihr =>
    simp only [givenNames, Finset.mem_union, not_or] at h
    simp only [asCount, ihl h.1, ihr h.2]
  | nonAlgOp o op larg rarg ihl ihr =>
    simp only [givenNames, Finset.mem_union, not_or] at h
    simp only [asCount, ihl h.1, ihr h.2]
  | other => rfl

theorem oids_length (t : Tree) : t.oids.length = t.size := by
  induction t with
  | name => rfl
  | value => rfl
  | «as» o arg n g ih => exact congrArg (· + 1) ih
  | unOp o op arg ih => exact congrArg (· + 1) ih
  | coerce o c arg ih => exact congrArg (· + 1) ih
  | castTo o arg ih => exact congrArg (· + 1) ih
  | algOp o op larg rarg ihl ihr =>
    simp only [size, total, oids, List.length_cons, List.length_append] at *
    omega
  | nonAlgOp o op larg rarg ihl ihr =>
    simp only [size, total, oids, List.length_cons, List.length_append] at *
    omega
  | other => rfl

/-- A subquery is looked for by one operator at most. -/
theorem candidates_le (G : Finset String) (t : Tree) :
    t.candidates G + t.heads.length ≤ t.size := by
  induction t with
  | name => exact Nat.zero_le _
  | value => exact Nat.zero_le _
  | «as» o arg n g ih =>
    simp only [candidates, heads, List.length_nil, size, total] at *
    omega
  | unOp o op arg ih =>
    simp only [candidates, heads, size, total] at *
    omega
  | coerce o c arg ih =>
    simp only [candidates, heads, List.length_nil, size, total] at *
    omega
  | castTo o arg ih =>
    simp only [candidates, heads, List.length_nil, size, total] at *
    omega
  | algOp o op larg rarg ihl ihr =>
    simp only [candidates, heads, List.length_append, size, total] at *
    omega
  | nonAlgOp o op larg rarg ihl ihr =>
    simp only [candidates, heads, List.length_singleton, size, total] at *
    split <;> omega
  | other => exact Nat.zero_le _

theorem guardsUse_empty (t : Tree) : t.GuardsUse ∅ := by
  induction t with
  | name => trivial
  | value => trivial
  | «as» o arg n g ih => exact ih
  | unOp o op arg ih => exact ih
  | coerce o c arg ih => exact ih
  | castTo o arg ih => exact ih
  | algOp o op larg rarg ihl ihr => exact ⟨ihl, ihr⟩
  | nonAlgOp o op larg rarg ihl ihr => exact ⟨by simp, ihl, ihr⟩
  | other => trivial

end Tree

/-- `TreeNode()` numbers the nodes: each has a number of its own, and `uv` comes after them. -/
structure Numbered (uv : Oid) (qTree : Tree) : Prop where
  nodup : qTree.oids.Nodup
  lt : ∀ o ∈ qTree.oids, o < uv

section
variable {S : Scheme} {rand : Nat → Nat} {junk : Char} {uv : Oid} {qTree : Tree}

theorem Numbered.single (h : Numbered uv qTree) : Single qTree := by
  intro o
  rw [Tree.occurrences_eq]
  exact List.nodup_iff_count_le_one.mp h.nodup o

theorem Numbered.fresh (h : Numbered uv qTree) {o : Oid} (ho : uv ≤ o) :
    qTree.occurrences o = 0 := by
  rw [Tree.occurrences_eq, List.count_eq_zero]
  intro hm
  exact Nat.not_lt.mpr ho (h.lt o hm)

/-- The names that are in use before the first one is drawn. -/
def usedNames (S : Scheme) (qTree : Tree) : Finset String := S.names ∪ qTree.givenNames

/-- More factorings are not made. -/
def mostFactorings (S : Scheme) (qTree : Tree) : Nat :=
  qTree.size + (usedNames S qTree).card + 1

/-- The state before the main loop. -/
theorem loops_initial (h : Numbered uv qTree) {nt : Tree} (hle : Lighter nt qTree) {m : Memory}
    (huv : m.uv = uv) (hdr : m.drawn = 0) (evaluations : List Bool) :
    Loops (usedNames S qTree) rand qTree.size ⟨nt, m, evaluations, []⟩ := by
  have hown : ownNames (usedNames S qTree) rand m.drawn = ∅ := by
    simp [ownNames, drawnBefore, hdr]
  refine ⟨?_, ?_, ?_, hle.single h.single, ?_, List.nodup_nil, by simp, hle _⟩
  · rintro x hx -
    have h0 := Tree.asCount_of_notMem fun hm => hx (Finset.mem_union_right _ hm)
    have hlight := hle fun _ k => k.giftOf x
    rw [← Tree.asCount_eq, ← Tree.asCount_eq, h0] at hlight
    exact Nat.le_zero.mp hlight
  · intro x hx
    rw [hown] at hx
    exact absurd hx (Finset.notMem_empty x)
  · rw [hown]
    exact nt.guardsUse_empty
  · intro o ho
    have hlight : nt.occurrences o ≤ qTree.occurrences o := hle _
    rw [h.fresh (huv ▸ ho)] at hlight
    exact Nat.le_zero.mp hlight

theorem weight_initial {nt : Tree} (hle : Lighter nt qTree) (m : Memory)
    (evaluations : List Bool) (factored : List (Oid × Oid)) :
    Factoring.weight (usedNames S qTree) rand ⟨nt, m, evaluations, factored⟩ + 1 ≤
      mostFactorings S qTree := by
  have hsize : nt.size ≤ qTree.size := hle _
  have hc := nt.candidates_le (ownNames (usedNames S qTree) rand m.drawn)
  have hcl : clashesLeft (usedNames S qTree) rand m.drawn ≤ (usedNames S qTree).card :=
    Finset.card_le_card Finset.sdiff_subset
  simp only [Factoring.weight, mostFactorings]
  omega

/-- The main loop, from what the removal of dead subqueries leaves. -/
theorem mainLoop_ends (h : Numbered uv qTree) (hrand : Distinct rand (mostFactorings S qTree))
    {nt : Tree} (hle : Lighter nt qTree) {m : Memory} (huv : m.uv = uv) (hdr : m.drawn = 0)
    (evaluations : List Bool) {n : Nat} (hn : mostFactorings S qTree < n) :
    Ends (Looped (mostFactorings S qTree) qTree.size)
      (factoringLoop S rand n ⟨nt, m, evaluations, []⟩) := by
  have hw : Factoring.weight (usedNames S qTree) rand ⟨nt, m, evaluations, []⟩ + 1 ≤
      mostFactorings S qTree := weight_initial hle m evaluations []
  have hloops : Loops (usedNames S qTree) rand qTree.size ⟨nt, m, evaluations, []⟩ :=
    loops_initial h hle huv hdr evaluations
  have hS : S.names ⊆ usedNames S qTree := Finset.subset_union_left
  have hends := factoringLoop_ends hS hrand hloops (n := n) (by omega) (by simp only [hdr]; omega)
  refine hends.mono ?_
  rintro r ⟨hnodup, hlength, hsingle, hgrown⟩
  simp only [List.length_nil] at hlength
  exact ⟨hnodup, by omega, hsingle, hgrown⟩

end

theorem simplify_ends {S : Scheme} {junk : Char} {bound s fuel : Nat} {loop : Factoring}
    (h : Looped bound s loop) (hn : s + 3 * bound < fuel) :
    Ends (fun r => r.factored.Nodup ∧ r.factored.length ≤ bound)
      (simplify S junk fuel loop) := by
  have hlength := h.length
  have hgrown := h.grown
  refine (rmvAux_ends h.single (by omega)).bind ?_
  rintro ⟨nt, m⟩ - hsize
  refine (replaceJoin_ends (Nat.lt_of_le_of_lt hsize (by omega))).bind ?_
  rintro nt' - -
  exact .ok ⟨h.nodup, hlength⟩

/-- With enough fuel all loops of the optimisation end, unless a null pointer is read: there are
finitely many factorings, and no subquery is moved twice out of the same operator. -/
theorem optimisation_ends (S : Scheme) (rand : Nat → Nat) (junk : Char) {uv : Oid} {qTree : Tree}
    (h : Numbered uv qTree) (hrand : Distinct rand (mostFactorings S qTree)) :
    ∃ least, ∀ fuel ≥ least,
      Ends (fun r => r.factored.Nodup ∧ r.factored.length ≤ mostFactorings S qTree)
        (optimisation S rand junk uv fuel qTree) := by
  refine ⟨qTree.size + 3 * mostFactorings S qTree + 2, ?_⟩
  intro fuel hfuel
  have ht : qTree.Ordered qTree.oids.idxOf 0 qTree.oids.length := by
    simpa using Tree.Ordered.of_nodup h.nodup [] [] (by simp)
  have hrank (o : Oid) : qTree.oids.idxOf o < fuel := by
    have hle := qTree.oids.idxOf_le_length (a := o)
    rw [Tree.oids_length] at hle
    omega
  have hparents : Rising qTree.oids.idxOf (qTree.setParents none fun _ => none) :=
    ht.setParents (fun _ => dependsBefore_none) dependsBefore_none
  have hfresh : Backward qTree.oids.idxOf (freshNodes junk) := fun _ => dependsBefore_none
  unfold optimisation
  refine (statEvaluate_backward ht hfresh).bind ?_
  rintro ⟨ok, m⟩ - ⟨hb, huv, hdr⟩
  cases ok with
  | false => exact .ok ⟨List.nodup_nil, Nat.zero_le _⟩
  | true =>
    refine (rmvDeath_ends hrank (by omega) ht hparents hb).bind ?_
    rintro ⟨nt, m₁⟩ - ⟨hle, huv₁, hdr₁⟩
    refine (statEvaluate_ends S nt m₁).bind ?_
    rintro ⟨alive, m₂⟩ - ⟨huv₂, hdr₂⟩
    have huv' : m₂.uv = uv := huv₂.trans (huv₁.trans huv)
    have hdr' : m₂.drawn = 0 := hdr₂.trans (hdr₁.trans hdr)
    have least : mostFactorings S qTree < fuel := by omega
    cases alive with
    | false =>
      have hlight : Lighter nt qTree := hle
      have hl : Looped (mostFactorings S qTree) qTree.size ⟨nt, m₂, [true, false], []⟩ :=
        ⟨List.nodup_nil, Nat.zero_le _, hlight.single h.single, hle _⟩
      exact simplify_ends hl (by omega)
    | true =>
      refine (mainLoop_ends h hrand hle huv' hdr' _ least).bind ?_
      rintro loop - hl
      exact simplify_ends hl (by omega)

/-- `(1 as a).((2 as b).(cast (a to string)))`. -/
def castQuery : Tree :=
  .nonAlgOp 0 .dot (.as 1 (.value 2 .int) "a" false)
    (.nonAlgOp 3 .dot (.as 4 (.value 5 .int) "b" false) (.castTo 6 (.name 7 "a")))

theorem optimisation_ends_castQuery :
    Numbered 8 castQuery ∧ Distinct (· / 20) (mostFactorings {} castQuery) ∧
      ∃ least, ∀ fuel ≥ least,
        Ends (fun r => r.factored.Nodup ∧ r.factored.length ≤ mostFactorings {} castQuery)
          (optimisation {} (· / 20) '\x00' 8 fuel castQuery) :=
  have numbered : Numbered 8 castQuery := ⟨by decide, by decide⟩
  have distinct : Distinct (· / 20) (mostFactorings {} castQuery) := by
    unfold Distinct
    decide
  ⟨numbered, distinct, optimisation_ends {} _ _ numbered distinct⟩

-- ---------------------------------------------------------------------------
-- A failed evaluation
-- ---------------------------------------------------------------------------

section
variable {S : Scheme} {rand : Nat → Nat} {junk : Char} {uv : Oid} {fuel : Nat} {qTree : Tree}

theorem bind_ok {α β : Type} {x : Except Halt α} {f : α → Except Halt β} {b : β}
    (h : x >>= f = .ok b) : ∃ a, x = .ok a ∧ f a = .ok b := by
  cases x with
  | error e => cases h
  | ok a => exact ⟨a, rfl, h⟩

theorem simplify_returned {loop : Factoring} {r : Optimised}
    (h : simplify S junk fuel loop = .ok r) : r.returned ≠ .original := by
  obtain ⟨⟨nt, m⟩, -, h⟩ := bind_ok h
  obtain ⟨nt', -, h⟩ := bind_ok h
  cases h
  exact Returned.noConfusion

/-- Where an evaluation fails the query is returned as it was only if the first one does. -/
theorem returned_original_iff {r : Optimised}
    (h : optimisation S rand junk uv fuel qTree = .ok r) (hfail : false ∈ r.evaluations) :
    r.returned = .original ↔
      ∃ m, statEvaluate S qTree { nodes := freshNodes junk, uv } = .ok (false, m) := by
  obtain ⟨⟨ok, m⟩, hfirst, h⟩ := bind_ok h
  cases ok with
  | false =>
    cases h
    exact ⟨fun _ => ⟨m, hfirst⟩, fun _ => rfl⟩
  | true =>
    obtain ⟨⟨nt, m₁⟩, -, h⟩ := bind_ok h
    obtain ⟨⟨alive, m₂⟩, -, h⟩ := bind_ok h
    have hreturned : r.returned ≠ .original := by
      cases alive with
      | false => exact simplify_returned h
      | true =>
        obtain ⟨loop, -, h⟩ := bind_ok h
        exact simplify_returned h
    constructor
    · intro ho
      exact absurd ho hreturned
    · rintro ⟨m', hm⟩
      rw [hfirst] at hm
      cases hm

end

/-- `b`, where nothing has the name. -/
def unknownQuery : Tree := .name 0 "b"

theorem returned_original_unknownQuery :
    ∃ r, optimisation {} (· / 20) '\x00' 1 1 unknownQuery = .ok r ∧ false ∈ r.evaluations ∧
      (r.returned = .original ↔ ∃ m, statEvaluate {} unknownQuery
        { nodes := freshNodes '\x00', uv := 1 } = .ok (false, m)) :=
  have h : optimisation {} (· / 20) '\x00' 1 1 unknownQuery = .ok ⟨.original, [false], []⟩ := rfl
  have hfail : false ∈ [false] := List.mem_singleton.mpr rfl
  ⟨_, h, hfail, returned_original_iff h hfail⟩

/-- A cast is taken for independent of everything. Its name is not bound in the factored query,
which is returned all the same. -/
theorem castQuery_not_original :
    ∃ r, optimisation {} (· / 20) '\x00' 8 13 castQuery = .ok r ∧ false ∈ r.evaluations ∧
      r.returned = .optimized
        (.nonAlgOp 10 .dot
          (.as 9 (.nonAlgOp 3 .dot (.as 4 (.value 5 .int) "b" false) (.castTo 6 (.name 7 "a")))
            "aaaaaaaaaaaaaaaaaaaa" true)
          (.nonAlgOp 0 .dot (.as 1 (.value 2 .int) "a" false)
            (.name 8 "aaaaaaaaaaaaaaaaaaaa"))) :=
  ⟨⟨_, [true, true, false], [(0, 3)]⟩, rfl, by simp, rfl⟩

end Loxim.QueryParser.Optimizer
