import Loxim.QueryParser.Factoring

/-!
# The main optimisation loop

Every factoring but the last leaves fewer candidates, or uses up a name that the query or the
data scheme has too. The names that `randomString` gives have to be different from each other.
-/

namespace Loxim.QueryParser.Optimizer

theorem statEvaluate_ends (S : Scheme) (t : Tree) (m : Memory) :
    Ends (fun r => r.2.uv = m.uv ∧ r.2.drawn = m.drawn) (statEvaluate S t m) := by
  simp only [statEvaluate]
  split
  · exact .ok ⟨rfl, rfl⟩
  · exact .ok ⟨rfl, rfl⟩
  · exact .crash

-- ---------------------------------------------------------------------------
-- The names that were drawn
-- ---------------------------------------------------------------------------

def drawnBefore (rand : Nat → Nat) (k : Nat) : Finset String :=
  (Finset.range k).image (randomString rand)

/-- Those that are no names of the query or the data scheme. -/
def ownNames (U : Finset String) (rand : Nat → Nat) (k : Nat) : Finset String :=
  drawnBefore rand k \ U

/-- The names that may still be drawn a first time by mistake. -/
def clashesLeft (U : Finset String) (rand : Nat → Nat) (k : Nat) : Nat :=
  (U \ drawnBefore rand k).card

section
variable {U : Finset String} {rand : Nat → Nat} {k : Nat} {x : String}

theorem mem_drawnBefore_succ :
    x ∈ drawnBefore rand (k + 1) ↔ x = randomString rand k ∨ x ∈ drawnBefore rand k := by
  simp only [drawnBefore, Finset.range_add_one, Finset.image_insert, Finset.mem_insert]

theorem mem_ownNames : x ∈ ownNames U rand k ↔ x ∈ drawnBefore rand k ∧ x ∉ U :=
  Finset.mem_sdiff

theorem clashesLeft_succ (h : randomString rand k ∉ drawnBefore rand k) :
    clashesLeft U rand (k + 1) + (if randomString rand k ∈ U then 1 else 0) =
      clashesLeft U rand k := by
  have hs : U \ drawnBefore rand (k + 1) =
      (U \ drawnBefore rand k).erase (randomString rand k) := by
    ext y
    simp only [Finset.mem_sdiff, mem_drawnBefore_succ, Finset.mem_erase]
    tauto
  simp only [clashesLeft, hs]
  by_cases hu : randomString rand k ∈ U
  · have hm : randomString rand k ∈ U \ drawnBefore rand k := Finset.mem_sdiff.mpr ⟨hu, h⟩
    rw [if_pos hu]
    exact Finset.card_erase_add_one hm
  · have hm : randomString rand k ∉ U \ drawnBefore rand k := by
      simp [hu]
    rw [if_neg hu, Finset.erase_eq_of_notMem hm, Nat.add_zero]

/-- The first `n` names are different. -/
def Distinct (rand : Nat → Nat) (n : Nat) : Prop :=
  ∀ i < n, ∀ j < n, randomString rand i = randomString rand j → i = j

theorem Distinct.notMem {n : Nat} (h : Distinct rand n) (hk : k < n) :
    randomString rand k ∉ drawnBefore rand k := by
  intro hm
  obtain ⟨i, hi, he⟩ := Finset.mem_image.mp hm
  have hi := Finset.mem_range.mp hi
  have := h i (hi.trans hk) k hk he
  omega

end

-- ---------------------------------------------------------------------------
-- Other names
-- ---------------------------------------------------------------------------

namespace Tree

theorem asCount_of_auxName {x : String} {t : Tree} (h : t.auxName = some x) :
    t.asCount x ≠ 0 := by
  cases t with
  | «as» o arg n g =>
    cases h
    simp [asCount]
  | _ => cases h

/-- Only the names that the nodes give matter. -/
theorem candidates_congr {G G' : Finset String} {t : Tree}
    (h : ∀ x, t.asCount x ≠ 0 → (x ∈ G ↔ x ∈ G')) : t.candidates G = t.candidates G' := by
  induction t with
  | name => rfl
  | value => rfl
  | «as» o arg n g ih =>
    refine ih ?_
    intro x hx
    exact h x (by simp only [asCount]; omega)
  | unOp o op arg ih => exact ih h
  | coerce o c arg ih => exact ih h
  | castTo o arg ih => exact ih h
  | algOp o op larg rarg ihl ihr =>
    have hl := ihl fun x hx => h x (by simp only [asCount]; omega)
    have hr := ihr fun x hx => h x (by simp only [asCount]; omega)
    simp only [candidates, hl, hr]
  | nonAlgOp o op larg rarg ihl ihr =>
    have hl := ihl fun x hx => h x (by simp only [asCount]; omega)
    have hr := ihr fun x hx => h x (by simp only [asCount]; omega)
    have hg : Guarded G larg ↔ Guarded G' larg := by
      have mem (x) (hn : larg.auxName = some x) : x ∈ G ↔ x ∈ G' := by
        have := asCount_of_auxName hn
        exact h x (by simp only [asCount]; omega)
      constructor
      · rintro ⟨x, hx, hn⟩
        exact ⟨x, (mem x hn).mp hx, hn⟩
      · rintro ⟨x, hx, hn⟩
        exact ⟨x, (mem x hn).mpr hx, hn⟩
    simp only [candidates, hl, hr, hg]
  | other => rfl

theorem GuardsUse.congr {G G' : Finset String} {t : Tree} (ht : t.GuardsUse G)
    (h : ∀ x, t.asCount x ≠ 0 → (x ∈ G ↔ x ∈ G')) : t.GuardsUse G' := by
  induction t with
  | name => trivial
  | value => trivial
  | «as» o arg n g ih =>
    refine ih ht ?_
    intro x hx
    exact h x (by simp only [asCount]; omega)
  | unOp o op arg ih => exact ih ht h
  | coerce o c arg ih => exact ih ht h
  | castTo o arg ih => exact ih ht h
  | algOp o op larg rarg ihl ihr =>
    exact ⟨ihl ht.1 fun x hx => h x (by simp only [asCount]; omega),
      ihr ht.2 fun x hx => h x (by simp only [asCount]; omega)⟩
  | nonAlgOp o op larg rarg ihl ihr =>
    refine ⟨?_, ihl ht.2.1 fun x hx => h x (by simp only [asCount]; omega),
      ihr ht.2.2 fun x hx => h x (by simp only [asCount]; omega)⟩
    intro x hx hn
    have := asCount_of_auxName hn
    exact ht.1 x ((h x (by simp only [asCount]; omega)).mpr hx) hn
  | other => trivial

end Tree

-- ---------------------------------------------------------------------------
-- The loop
-- ---------------------------------------------------------------------------

/-- The tree and the memory at the head of the loop; there were `s` nodes at the beginning. -/
structure Loops (U : Finset String) (rand : Nat → Nat) (s : Nat) (loop : Factoring) : Prop where
  given : ∀ x, x ∉ U → x ∉ drawnBefore rand loop.memory.drawn → loop.tree.asCount x = 0
  once : ∀ x ∈ ownNames U rand loop.memory.drawn, loop.tree.asCount x ≤ 1
  guards : loop.tree.GuardsUse (ownNames U rand loop.memory.drawn)
  single : ∀ o, loop.tree.occurrences o ≤ 1
  old : ∀ o, loop.memory.uv ≤ o → loop.tree.occurrences o = 0
  nodup : loop.factored.Nodup
  gone : ∀ c ∈ loop.factored,
    c.1 < loop.memory.uv ∧ c.2 < loop.memory.uv ∧ loop.tree.pairCount c = 0
  grown : loop.tree.size ≤ s + 3 * loop.factored.length

/-- More factorings than this and one are not made. -/
def Factoring.weight (U : Finset String) (rand : Nat → Nat) (loop : Factoring) : Nat :=
  loop.tree.candidates (ownNames U rand loop.memory.drawn) +
    clashesLeft U rand loop.memory.drawn

/-- What the loop leaves. -/
structure Looped (bound s : Nat) (r : Factoring) : Prop where
  nodup : r.factored.Nodup
  length : r.factored.length ≤ bound
  single : ∀ o, r.tree.occurrences o ≤ 1
  grown : r.tree.size ≤ s + 3 * r.factored.length

section
variable {S : Scheme} {U : Finset String} {rand : Nat → Nat} {s : Nat} {loop : Factoring}
  {d : Factored}

theorem Loops.notMem (h : Loops U rand s loop)
    (hd : Moved loop.memory.uv (randomString rand loop.memory.drawn) loop.tree d) :
    (d.operator, d.subquery) ∉ loop.factored := by
  intro hm
  exact hd.pair_pos (h.gone _ hm).2.2

theorem Loops.single_moved (h : Loops U rand s loop)
    (hd : Moved loop.memory.uv (randomString rand loop.memory.drawn) loop.tree d) (o : Oid) :
    d.tree.occurrences o ≤ 1 := by
  have hocc := hd.occurrences o
  have hs := h.single o
  by_cases ho : loop.memory.uv ≤ o
  · have := h.old o ho
    simp only [Oid] at *
    split at hocc <;> split at hocc <;> split at hocc <;> omega
  · simp only [Oid] at *
    split at hocc <;> split at hocc <;> split at hocc <;> omega

/-- What the loop goes on with. -/
def Factoring.next (loop : Factoring) (d : Factored) (m : Memory) (ok : Bool) : Factoring :=
  ⟨d.tree, m, loop.evaluations ++ [ok], loop.factored ++ [(d.operator, d.subquery)]⟩

theorem Loops.nodup_next (h : Loops U rand s loop)
    (hd : Moved loop.memory.uv (randomString rand loop.memory.drawn) loop.tree d) (m ok) :
    (loop.next d m ok).factored.Nodup := by
  refine List.Nodup.append h.nodup (List.nodup_singleton _) ?_
  intro c hc hs
  cases List.mem_singleton.mp hs
  exact h.notMem hd hc

theorem Loops.grown_next (h : Loops U rand s loop)
    (hd : Moved loop.memory.uv (randomString rand loop.memory.drawn) loop.tree d) (m ok) :
    (loop.next d m ok).tree.size ≤ s + 3 * (loop.next d m ok).factored.length := by
  have hsize := hd.size
  have hgrown := h.grown
  simp only [Factoring.next, List.length_append, List.length_singleton]
  omega

/-- A name of the loop is given once after the factoring, too. -/
theorem Loops.once_moved (h : Loops U rand s loop)
    (hd : Moved loop.memory.uv (randomString rand loop.memory.drawn) loop.tree d)
    (hn : randomString rand loop.memory.drawn ∉ drawnBefore rand loop.memory.drawn) :
    ∀ x ∈ ownNames U rand (loop.memory.drawn + 1), d.tree.asCount x ≤ 1 := by
  intro x hx
  obtain ⟨hx, hxU⟩ := mem_ownNames.mp hx
  rw [hd.asCount]
  by_cases he : randomString rand loop.memory.drawn = x
  · rw [if_pos he, h.given x hxU (he ▸ hn)]
  · rw [if_neg he]
    have hx := (mem_drawnBefore_succ.mp hx).resolve_left (Ne.symm he)
    exact h.once x (mem_ownNames.mpr ⟨hx, hxU⟩)

/-- The names of the loop are, of those that the tree gives, the same before and after. -/
theorem Loops.own_iff (h : Loops U rand s loop) {x : String} (hx : loop.tree.asCount x ≠ 0) :
    x ∈ ownNames U rand loop.memory.drawn ↔ x ∈ ownNames U rand (loop.memory.drawn + 1) := by
  simp only [mem_ownNames, mem_drawnBefore_succ]
  constructor
  · rintro ⟨hd, hu⟩
    exact ⟨.inr hd, hu⟩
  · rintro ⟨-, hu⟩
    refine ⟨?_, hu⟩
    by_contra hd
    exact hx (h.given x hu hd)

/-- Either the loop goes on with less weight, or the query can not be evaluated any more. -/
theorem Loops.step (h : Loops U rand s loop) (hS : S.names ⊆ U)
    (hd : Moved loop.memory.uv (randomString rand loop.memory.drawn) loop.tree d)
    (hn : randomString rand loop.memory.drawn ∉ drawnBefore rand loop.memory.drawn)
    {m : Memory} (huv : m.uv = loop.memory.uv + 3) (hdr : m.drawn = loop.memory.drawn + 1) (ok) :
    (Loops U rand s (loop.next d m ok) ∧
        (loop.next d m ok).weight U rand + 1 ≤ loop.weight U rand) ∨
      ∀ m m', statEvaluate S d.tree m ≠ .ok (true, m') := by
  have hg := h.guards.congr fun x hx => h.own_iff hx
  cases hd.guards hg (h.once_moved hd hn) with
  | inr bad =>
    obtain ⟨x, hx, hu, -⟩ := bad
    have hxU := (mem_ownNames.mp hx).2
    exact .inr fun m m' => statEvaluate_unbound (fun hs => hxU (hS hs)) hu m m'
  | inl good =>
    obtain ⟨hgu, hc⟩ := good
    left
    constructor
    · refine ⟨?_, ?_, ?_, h.single_moved hd, ?_, h.nodup_next hd m ok, ?_, h.grown_next hd m ok⟩
      · intro x hxU hx
        rw [Factoring.next, hdr, mem_drawnBefore_succ] at hx
        push Not at hx
        show d.tree.asCount x = 0
        rw [hd.asCount, h.given x hxU hx.2, if_neg (Ne.symm hx.1)]
      · rw [Factoring.next, hdr]
        exact h.once_moved hd hn
      · rw [Factoring.next, hdr]
        exact hgu
      · intro o ho
        rw [Factoring.next, huv] at ho
        show d.tree.occurrences o = 0
        have h0 : loop.memory.uv ≤ o := (Nat.le_add_right _ 3).trans ho
        rw [hd.occurrences, h.old o h0, if_neg, if_neg, if_neg]
        · exact Nat.ne_of_lt ho
        · exact Nat.ne_of_lt ((Nat.lt_succ_self _).trans ho)
        · exact Nat.ne_of_lt ((Nat.lt_add_of_pos_right (by decide : 0 < 2)).trans ho)
      · intro c hc
        have hlt : c.1 < loop.memory.uv ∧ c.2 < loop.memory.uv ∧ d.tree.pairCount c = 0 := by
          cases List.mem_append.mp hc with
          | inl hc =>
            obtain ⟨h1, h2, h0⟩ := h.gone c hc
            have := hd.pairCount h2 h1
            exact ⟨h1, h2, by omega⟩
          | inr hc =>
            cases List.mem_singleton.mp hc
            have hp := hd.pair_pos
            have hle := Tree.pairCount_add_heads_le (d.operator, d.subquery) loop.tree
            have hs := h.single d.subquery
            have h1 : d.operator < loop.memory.uv := by
              by_contra hge
              exact Tree.occurrences_of_pairCount hp (h.old _ (not_lt.mp hge))
            have h2 : d.subquery < loop.memory.uv := by
              by_contra hge
              have := h.old _ (not_lt.mp hge)
              simp only at hle
              omega
            have hpc := hd.pairCount (c := (d.operator, d.subquery)) h2 h1
            simp only [Factored.moves, and_self, ↓reduceIte] at hpc hle
            exact ⟨h1, h2, by omega⟩
        obtain ⟨h1, h2, h0⟩ := hlt
        rw [Factoring.next, huv]
        exact ⟨h1.trans_le (Nat.le_add_right _ 3), h2.trans_le (Nat.le_add_right _ 3), h0⟩
    · have hcl := clashesLeft_succ (U := U) hn
      have hca := Tree.candidates_congr fun x hx => h.own_iff hx
      have hown : randomString rand loop.memory.drawn ∈ ownNames U rand (loop.memory.drawn + 1) ↔
          randomString rand loop.memory.drawn ∉ U := by
        simp [mem_ownNames, mem_drawnBefore_succ]
      simp only [Factoring.weight, Factoring.next, hdr]
      by_cases hu : randomString rand loop.memory.drawn ∈ U
      · rw [if_neg (by simp [hown, hu])] at hc
        rw [if_pos hu] at hcl
        omega
      · rw [if_pos (hown.mpr hu)] at hc
        rw [if_neg hu] at hcl
        omega

/-- The loop ends, and no subquery is moved twice out of the same operator. -/
theorem factoringLoop_ends (hS : S.names ⊆ U) {n N : Nat} (hN : Distinct rand N)
    (h : Loops U rand s loop) (hn : loop.weight U rand + 2 ≤ n)
    (hw : loop.memory.drawn + loop.weight U rand < N) :
    Ends (Looped (loop.factored.length + loop.weight U rand + 1) s)
      (factoringLoop S rand n loop) := by
  induction n generalizing loop with
  | zero => omega
  | succ n ih =>
    simp only [factoringLoop]
    cases ho : optimizeTree loop.memory.nodes loop.memory.uv
        (randomString rand loop.memory.drawn) loop.tree with
    | none =>
      refine (statEvaluate_ends S loop.tree loop.memory).bind ?_
      rintro ⟨ok, m⟩ - -
      have hlen : loop.factored.length ≤ loop.factored.length + loop.weight U rand + 1 := by omega
      exact .ok ⟨h.nodup, hlen, h.single, h.grown⟩
    | some d =>
      have hd := optimizeTree_moved ho
      have hfresh := hN.notMem (k := loop.memory.drawn) (by omega)
      refine (statEvaluate_ends S d.tree
        { loop.memory with uv := loop.memory.uv + 3, drawn := loop.memory.drawn + 1 }).bind ?_
      rintro ⟨ok, m⟩ he ⟨huv, hdr⟩
      have hlen : (loop.next d m ok).factored.length = loop.factored.length + 1 :=
        List.length_append
      cases ok with
      | false =>
        have hle : (loop.next d m false).factored.length ≤
            loop.factored.length + loop.weight U rand + 1 := by omega
        exact .ok ⟨h.nodup_next hd m false, hle, h.single_moved hd, h.grown_next hd m false⟩
      | true =>
        cases h.step (m := m) hS hd hfresh huv hdr true with
        | inr bad => exact absurd he (bad _ m)
        | inl good =>
          obtain ⟨hnext, hless⟩ := good
          have hdr' : (loop.next d m true).memory.drawn = loop.memory.drawn + 1 := hdr
          refine (ih hnext (by omega) (by omega)).mono ?_
          rintro r ⟨hnd, hlr, hsr, hgr⟩
          exact ⟨hnd, by omega, hsr, hgr⟩

end

end Loxim.QueryParser.Optimizer
