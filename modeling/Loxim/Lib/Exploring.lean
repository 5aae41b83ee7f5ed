import Mathlib.Data.List.Basic
import Mathlib.Data.List.Pairwise

/-!
# Exploring what can be reached

A list of elements is taken up one after another, and what an element leads to is put behind them,
either all of it or what is not equal to anything seen before. In the second way the exploration
ends when there are finitely many elements up to equality, and has then met all of them.
-/

namespace Loxim.Exploring

variable {α : Type}

/-- `eq` is reflexive, symmetric and transitive. -/
structure Equality (eq : α → α → Bool) : Prop where
  refl (a : α) : eq a a = true
  symm {a b : α} : eq a b = true → eq b a = true
  trans {a b c : α} : eq a b = true → eq b c = true → eq a c = true

section

variable (eq : α → α → Bool) (succ : α → List α) (start : List α)

inductive Reachable : α → Prop
  | start {a : α} (h : a ∈ start) : Reachable a
  | next {a b : α} (ha : Reachable a) (h : b ∈ succ a) : Reachable b

/-- The places that lead to an element, the last one first. -/
inductive Way : List Nat → α → Prop
  | start {i : Nat} {a : α} (h : start[i]? = some a) : Way [i] a
  | next {way : List Nat} {i : Nat} {a b : α} (ha : Way way a) (h : (succ a)[i]? = some b) :
    Way (i :: way) b

/-- Nothing is reached in two ways. -/
def Treelike : Prop :=
  ∀ way way' a b, Way succ start way a → Way succ start way' b → eq a b = true → way = way'

/-- Finitely many elements up to equality. -/
def Covers (values : List α) : Prop :=
  ∀ a, Reachable succ start a → ∃ v ∈ values, eq v a = true

/-- What an element leads to does not depend on which of the equal ones it is. -/
def Congruent : Prop :=
  ∀ a b, Reachable succ start a → Reachable succ start b → eq a b = true →
    ∀ c ∈ succ a, ∃ d ∈ succ b, eq c d = true

/-- Those that are not equal to an element seen before. -/
def unseen : List α → List α → List α
  | _, [] => []
  | seen, a :: l => if seen.any (eq a) then unseen seen l else a :: unseen (seen ++ [a]) l

/-- The elements in the order in which they are taken up, when `n` turns are enough. -/
def walk (new : List α → α → List α) : Nat → List α → List α → Option (List α)
  | _, [], _ => some []
  | 0, _ :: _, _ => none
  | n + 1, a :: queue, seen =>
    (walk new n (queue ++ new seen a) (seen ++ new seen a)).map (a :: ·)

/-- The elements after `start` are new when they come. -/
def Distinct (seen : List α) : Prop :=
  ∃ others, seen = start ++ others ∧ (others.Pairwise fun a b => eq a b = false) ∧
    ∀ a ∈ others, ∀ b ∈ start, eq a b = false

/-- What holds between two turns. -/
structure Explored (expanded queue : List α) : Prop where
  reachable : ∀ a ∈ expanded ++ queue, Reachable succ start a
  closed : ∀ a ∈ expanded, ∀ b ∈ succ a, (expanded ++ queue).any (eq b) = true
  distinct : Distinct eq start (expanded ++ queue)

def missing (values seen : List α) : List α := values.filter fun v => !seen.any (eq v)

end

section

variable {eq : α → α → Bool} {succ : α → List α} {start values seen l queue expanded : List α}
  {a b : α}

theorem Reachable.mem (hstart : ∀ a ∈ start, a ∈ values)
    (hnext : ∀ a ∈ values, ∀ b ∈ succ a, b ∈ values) (h : Reachable succ start a) : a ∈ values := by
  induction h with
  | start hmem => exact hstart _ hmem
  | next _ hmem ih => exact hnext _ ih _ hmem

-- ---------------------------------------------------------------------------
-- What is new
-- ---------------------------------------------------------------------------

theorem mem_of_mem_unseen (h : a ∈ unseen eq seen l) : a ∈ l := by
  induction l generalizing seen with
  | nil => exact h
  | cons b l ih =>
    rw [unseen] at h
    split at h
    · exact List.mem_cons_of_mem b (ih h)
    · rcases List.mem_cons.mp h with rfl | h
      · exact List.mem_cons_self
      · exact List.mem_cons_of_mem b (ih h)

theorem any_of_any_prefix (h : seen.any (eq a) = true) : (seen ++ l).any (eq a) = true := by
  rw [List.any_append, h, Bool.true_or]

theorem any_unseen (heq : Equality eq) (h : a ∈ l) :
    (seen ++ unseen eq seen l).any (eq a) = true := by
  induction l generalizing seen with
  | nil => contradiction
  | cons b l ih =>
    rw [unseen]
    split
    · rename_i hseen
      rcases List.mem_cons.mp h with rfl | h
      · exact any_of_any_prefix hseen
      · exact ih h
    · rw [List.append_cons]
      rcases List.mem_cons.mp h with rfl | h
      · apply any_of_any_prefix
        rw [List.any_append, List.any_cons, heq.refl, Bool.true_or, Bool.or_true]
      · exact ih h

theorem Distinct.append_one (heq : Equality eq) (h : Distinct eq start seen)
    (hnew : seen.any (eq a) = false) : Distinct eq start (seen ++ [a]) := by
  obtain ⟨others, rfl, hothers, hstart⟩ := h
  have hne (b : α) (hb : b ∈ start ++ others) : ¬eq a b = true := by
    intro hab
    rw [List.any_eq_true.mpr ⟨b, hb, hab⟩] at hnew
    contradiction
  refine ⟨others ++ [a], List.append_assoc .., ?_, ?_⟩
  · rw [List.pairwise_append]
    refine ⟨hothers, List.pairwise_singleton _ a, ?_⟩
    intro b hb c hc
    rw [List.mem_singleton.mp hc, Bool.eq_false_iff]
    intro hba
    exact hne b (List.mem_append_right start hb) (heq.symm hba)
  · intro b hb c hc
    rcases List.mem_append.mp hb with hb | hb
    · exact hstart b hb c hc
    · rw [List.mem_singleton.mp hb, Bool.eq_false_iff]
      exact hne c (List.mem_append_left others hc)

theorem Distinct.append_unseen (heq : Equality eq) (h : Distinct eq start seen) :
    Distinct eq start (seen ++ unseen eq seen l) := by
  induction l generalizing seen with
  | nil => rwa [unseen, List.append_nil]
  | cons a l ih =>
    rw [unseen]
    split
    · exact ih h
    · rename_i hnew
      rw [List.append_cons]
      exact ih (h.append_one heq (Bool.eq_false_iff.mpr hnew))

theorem missing_append_one (heq : Equality eq) {v : α} (hv : v ∈ values) (hva : eq v a = true)
    (hnew : seen.any (eq a) = false) :
    (missing eq values (seen ++ [a])).length + 1 ≤ (missing eq values seen).length := by
  have hfilter : missing eq values (seen ++ [a]) =
      (missing eq values seen).filter fun w => !eq w a := by
    rw [missing, missing, List.filter_filter]
    apply List.filter_congr
    intro w _
    rw [List.any_append, List.any_cons, List.any_nil, Bool.or_false, Bool.not_or, Bool.and_comm]
  have hmem : v ∈ missing eq values seen := by
    refine List.mem_filter.mpr ⟨hv, ?_⟩
    rw [Bool.not_eq_true', List.any_eq_false]
    intro b hb hvb
    rw [List.any_eq_true.mpr ⟨b, hb, heq.trans (heq.symm hva) hvb⟩] at hnew
    contradiction
  rw [hfilter]
  exact List.length_filter_lt_length_iff_exists.mpr ⟨v, hmem, by rw [hva]; exact Bool.false_ne_true⟩

/-- What is new makes up for itself in what is missing. -/
theorem length_missing (heq : Equality eq) (hl : ∀ a ∈ l, ∃ v ∈ values, eq v a = true) :
    (missing eq values (seen ++ unseen eq seen l)).length + (unseen eq seen l).length ≤
      (missing eq values seen).length := by
  induction l generalizing seen with
  | nil => simp [unseen]
  | cons a l ih =>
    obtain ⟨ha, hrest⟩ := List.forall_mem_cons.mp hl
    rw [unseen]
    split
    · exact ih hrest
    · rename_i hnew
      obtain ⟨v, hv, hva⟩ := ha
      have hone := missing_append_one heq hv hva (Bool.eq_false_iff.mpr hnew)
      have hstep := @ih (seen ++ [a]) hrest
      rw [List.append_cons, List.length_cons]
      omega

-- ---------------------------------------------------------------------------
-- The exploration
-- ---------------------------------------------------------------------------

theorem Explored.init : Explored eq succ start [] start where
  reachable _ ha := .start ha
  closed _ ha := absurd ha List.not_mem_nil
  distinct := ⟨[], (List.append_nil start).symm, .nil, fun _ ha => absurd ha List.not_mem_nil⟩

theorem Explored.turn (heq : Equality eq) (h : Explored eq succ start expanded (a :: queue)) :
    Explored eq succ start (expanded ++ [a])
      (queue ++ unseen eq (expanded ++ a :: queue) (succ a)) := by
  have hseen : expanded ++ [a] ++ (queue ++ unseen eq (expanded ++ a :: queue) (succ a)) =
      (expanded ++ a :: queue) ++ unseen eq (expanded ++ a :: queue) (succ a) := by
    simp
  have ha : Reachable succ start a := h.reachable a (by simp)
  constructor
  · intro b hb
    rw [hseen] at hb
    rcases List.mem_append.mp hb with hb | hb
    · exact h.reachable b hb
    · exact .next ha (mem_of_mem_unseen hb)
  · intro b hb c hc
    rw [hseen]
    rcases List.mem_append.mp hb with hb | hb
    · exact any_of_any_prefix (h.closed b hb c hc)
    · rw [List.mem_singleton.mp hb] at hc
      exact any_unseen heq hc
  · rw [hseen]
    exact h.distinct.append_unseen heq

/-- With a turn for every element of the queue and every value that is missing it ends. -/
theorem Explored.run (heq : Equality eq) (hcovers : Covers eq succ start values) {n : Nat}
    (h : Explored eq succ start expanded queue)
    (hn : queue.length + (missing eq values (expanded ++ queue)).length ≤ n) :
    ∃ rest, walk (fun seen a => unseen eq seen (succ a)) n queue (expanded ++ queue) = some rest ∧
      Explored eq succ start (expanded ++ rest) [] := by
  induction n generalizing expanded queue with
  | zero =>
    have hqueue : queue = [] := List.length_eq_zero_iff.mp (by omega)
    subst hqueue
    exact ⟨[], rfl, by rwa [List.append_nil]⟩
  | succ n ih =>
    cases queue with
    | nil => exact ⟨[], rfl, by rwa [List.append_nil]⟩
    | cons a queue =>
      have hnext := h.turn heq
      have hseen : expanded ++ [a] ++ (queue ++ unseen eq (expanded ++ a :: queue) (succ a)) =
          (expanded ++ a :: queue) ++ unseen eq (expanded ++ a :: queue) (succ a) := by
        simp
      have hless := @length_missing α eq values (expanded ++ a :: queue) (succ a) heq
        fun b hb => hcovers b (.next (h.reachable a (by simp)) hb)
      obtain ⟨rest, hrest, hdone⟩ := ih hnext (by
        rw [hseen]
        simp only [List.length_append, List.length_cons] at hn ⊢
        omega)
      refine ⟨a :: rest, ?_, ?_⟩
      · rw [walk, ← hseen, hrest]
        rfl
      · rwa [List.append_cons]

/-- It has met everything that can be reached. -/
theorem Explored.complete (heq : Equality eq) (hcongr : Congruent eq succ start)
    (h : Explored eq succ start expanded []) (ha : Reachable succ start a) :
    ∃ b ∈ expanded, eq a b = true := by
  induction ha with
  | start hmem =>
    obtain ⟨others, hall, -⟩ := h.distinct
    rw [List.append_nil] at hall
    exact ⟨_, hall ▸ List.mem_append_left others hmem, heq.refl _⟩
  | @next a b ha hmem ih =>
    obtain ⟨c, hc, hac⟩ := ih
    obtain ⟨d, hd, hbd⟩ := hcongr a c ha (h.reachable c (List.mem_append_left [] hc)) hac b hmem
    have hany := h.closed c hc d hd
    rw [List.append_nil] at hany
    obtain ⟨e, he, hde⟩ := List.any_eq_true.mp hany
    exact ⟨e, he, heq.trans hbd hde⟩

/-- More turns do not matter. -/
theorem walk_mono {new : List α → α → List α} {n m : Nat} {rest : List α} (hnm : n ≤ m)
    (h : walk new n queue seen = some rest) : walk new m queue seen = some rest := by
  induction n generalizing m queue seen rest with
  | zero =>
    cases queue with
    | nil =>
      rw [walk] at h
      rw [walk, h]
    | cons a queue => rw [walk] at h; contradiction
  | succ n ih =>
    cases queue with
    | nil =>
      rw [walk] at h
      rw [walk, h]
    | cons a queue =>
      obtain ⟨k, rfl⟩ : ∃ k, m = k + 1 := ⟨m - 1, by omega⟩
      rw [walk] at h ⊢
      obtain ⟨rest', hrest', rfl⟩ := Option.map_eq_some_iff.mp h
      rw [ih (by omega) hrest']
      rfl

-- ---------------------------------------------------------------------------
-- Nothing in two ways
-- ---------------------------------------------------------------------------

theorem Way.value_eq {way : List Nat} (h : Way succ start way a) (h' : Way succ start way b) :
    a = b := by
  induction h generalizing b with
  | start hi =>
    cases h' with
    | start hi' => exact Option.some.inj (hi.symm.trans hi')
    | next ha _ => cases ha
  | next ha hi ih =>
    cases h' with
    | start hi' => cases ha
    | next ha' hi' =>
      rw [ih ha'] at hi
      exact Option.some.inj (hi.symm.trans hi')

theorem Way.ne_nil (h : Way succ start [] a) : False := by
  cases h

theorem Reachable.exists_way (h : Reachable succ start a) : ∃ way, Way succ start way a := by
  induction h with
  | start hmem =>
    obtain ⟨i, hi⟩ := List.mem_iff_getElem?.mp hmem
    exact ⟨[i], .start hi⟩
  | next _ hmem ih =>
    obtain ⟨way, hway⟩ := ih
    obtain ⟨i, hi⟩ := List.mem_iff_getElem?.mp hmem
    exact ⟨i :: way, .next hway hi⟩

/-- Elements of a list at different places are reached in different ways. -/
theorem Treelike.pairwise (h : Treelike eq succ start) {way : List Nat}
    (hway : ∀ i a, l[i]? = some a → Way succ start (i :: way) a) :
    l.Pairwise fun a b => eq a b = false := by
  rw [List.pairwise_iff_getElem]
  intro i j hi hj hij
  rw [Bool.eq_false_iff]
  intro hab
  have hsame := h _ _ _ _ (hway i _ (List.getElem?_eq_getElem hi))
    (hway j _ (List.getElem?_eq_getElem hj)) hab
  rw [List.cons.injEq] at hsame
  omega

/-- Everything after the start comes from one element that has been taken up. -/
structure Rooted (eq : α → α → Bool) (succ : α → List α) (start expanded queue : List α) :
    Prop where
  reachable : ∀ a ∈ expanded ++ queue, Reachable succ start a
  pairwise : (expanded ++ queue).Pairwise fun a b => eq a b = false
  parent : ∀ b ∈ expanded ++ queue, b ∈ start ∨ ∃ a ∈ expanded, b ∈ succ a

theorem Rooted.init (h : Treelike eq succ start) : Rooted eq succ start [] start where
  reachable _ ha := .start ha
  pairwise := h.pairwise fun _ _ hi => .start hi
  parent _ ha := .inl ha

/-- What an element leads to has not been seen. -/
theorem Rooted.new (heq : Equality eq) (htree : Treelike eq succ start)
    (h : Rooted eq succ start expanded (a :: queue)) :
    ∀ b ∈ succ a, ∀ c ∈ expanded ++ a :: queue, eq b c = false := by
  intro b hb c hc
  rw [Bool.eq_false_iff]
  intro hbc
  obtain ⟨way, hway⟩ := (h.reachable a (by simp)).exists_way
  obtain ⟨i, hi⟩ := List.mem_iff_getElem?.mp hb
  obtain hstart | ⟨a', ha', hmem⟩ := h.parent c hc
  · obtain ⟨j, hj⟩ := List.mem_iff_getElem?.mp hstart
    have hsame := htree _ _ _ _ (.next hway hi) (.start hj) hbc
    rw [List.cons.injEq] at hsame
    rw [hsame.2] at hway
    exact hway.ne_nil
  · obtain ⟨way', hway'⟩ := (h.reachable a' (List.mem_append_left _ ha')).exists_way
    obtain ⟨j, hj⟩ := List.mem_iff_getElem?.mp hmem
    have hsame := htree _ _ _ _ (.next hway hi) (.next hway' hj) hbc
    rw [List.cons.injEq] at hsame
    rw [hsame.2] at hway
    have hbefore := (List.pairwise_append.mp h.pairwise).2.2 a' ha' a List.mem_cons_self
    rw [hway.value_eq hway', heq.refl] at hbefore
    contradiction

theorem Rooted.turn (heq : Equality eq) (htree : Treelike eq succ start)
    (h : Rooted eq succ start expanded (a :: queue)) :
    Rooted eq succ start (expanded ++ [a]) (queue ++ succ a) := by
  have hseen : expanded ++ [a] ++ (queue ++ succ a) = (expanded ++ a :: queue) ++ succ a := by
    simp
  have ha : Reachable succ start a := h.reachable a (by simp)
  constructor
  · intro b hb
    rw [hseen] at hb
    rcases List.mem_append.mp hb with hb | hb
    · exact h.reachable b hb
    · exact .next ha hb
  · rw [hseen, List.pairwise_append]
    refine ⟨h.pairwise, ?_, ?_⟩
    · obtain ⟨way, hway⟩ := ha.exists_way
      exact htree.pairwise fun i b hi => .next hway hi
    · intro c hc b hb
      rw [Bool.eq_false_iff]
      intro hcb
      have hnew := h.new heq htree b hb c hc
      rw [heq.symm hcb] at hnew
      contradiction
  · intro b hb
    rw [hseen] at hb
    rcases List.mem_append.mp hb with hb | hb
    · obtain hstart | ⟨a', ha', hmem⟩ := h.parent b hb
      · exact .inl hstart
      · exact .inr ⟨a', List.mem_append_left [a] ha', hmem⟩
    · exact .inr ⟨a, by simp, hb⟩

theorem unseen_eq_self (hl : l.Pairwise fun a b => eq a b = false) (heq : Equality eq)
    (hseen : ∀ a ∈ l, ∀ b ∈ seen, eq a b = false) : unseen eq seen l = l := by
  induction l generalizing seen with
  | nil => rfl
  | cons a l ih =>
    obtain ⟨ha, hrest⟩ := List.pairwise_cons.mp hl
    have hnew : ¬seen.any (eq a) = true := by
      intro hany
      obtain ⟨b, hb, hab⟩ := List.any_eq_true.mp hany
      rw [hseen a List.mem_cons_self b hb] at hab
      contradiction
    rw [unseen, if_neg hnew, ih hrest]
    intro b hb c hc
    rcases List.mem_append.mp hc with hc | hc
    · exact hseen b (List.mem_cons_of_mem a hb) c hc
    · rw [List.mem_singleton.mp hc, Bool.eq_false_iff]
      intro hba
      have hab := ha b hb
      rw [heq.symm hba] at hab
      contradiction

/-- The occur check finds nothing. -/
theorem Rooted.run (heq : Equality eq) (htree : Treelike eq succ start) {n : Nat}
    (h : Rooted eq succ start expanded queue) :
    walk (fun _ a => succ a) n queue (expanded ++ queue) =
      walk (fun seen a => unseen eq seen (succ a)) n queue (expanded ++ queue) := by
  induction n generalizing expanded queue with
  | zero =>
    cases queue with
    | nil => rfl
    | cons a queue => rfl
  | succ n ih =>
    cases queue with
    | nil => rfl
    | cons a queue =>
      have hnext := h.turn heq htree
      have hseen : expanded ++ [a] ++ (queue ++ succ a) = (expanded ++ a :: queue) ++ succ a := by
        simp
      have hunseen : unseen eq (expanded ++ a :: queue) (succ a) = succ a := by
        refine unseen_eq_self ?_ heq (h.new heq htree)
        have hpairwise := hnext.pairwise
        rw [hseen] at hpairwise
        exact (List.pairwise_append.mp hpairwise).2.1
      have hrun := ih hnext
      rw [hseen] at hrun
      rw [walk, walk, hunseen, hrun]

end

end Loxim.Exploring
