import Loxim.QueryParser.DeadParts
import Loxim.QueryParser.FactoringLoop

/-!
# The last passes end

When an auxiliary name is removed, nodes are lost and none are new. When a join is replaced there
is one join less.
-/

namespace Loxim.QueryParser.Optimizer

theorem Ends.of_ok {α : Type} {P : α → Prop} {x : Except Halt α} (h : Ends P x) {a : α}
    (ha : x = .ok a) : P a := by
  cases h with
  | inl h =>
    rw [h] at ha
    cases ha
  | inr h =>
    obtain ⟨b, hb, hP⟩ := h
    rw [hb] at ha
    cases ha
    exact hP

-- ---------------------------------------------------------------------------
-- One node for another
-- ---------------------------------------------------------------------------

namespace Tree

variable {s t : Tree}

theorem occurrences_self (t : Tree) : t.occurrences t.oid ≠ 0 := by
  cases t <;> simp [occurrences, total, oid]

/-- A part of a tree weighs no more than the tree. -/
theorem total_le (h : s ∈ t.infixList) (w) : s.total w ≤ t.total w := by
  induction t with
  | name => rw [List.mem_singleton.mp h]
  | value => rw [List.mem_singleton.mp h]
  | other => rw [List.mem_singleton.mp h]
  | castTo o arg ih => exact (ih h).trans (Nat.le_add_right _ _)
  | «as» o arg n g ih =>
    cases h with
    | head => exact Nat.le_refl _
    | tail _ h => exact (ih h).trans (Nat.le_add_right _ _)
  | unOp o op arg ih =>
    cases h with
    | head => exact Nat.le_refl _
    | tail _ h => exact (ih h).trans (Nat.le_add_right _ _)
  | coerce o c arg ih =>
    cases h with
    | head => exact Nat.le_refl _
    | tail _ h => exact (ih h).trans (Nat.le_add_right _ _)
  | algOp o op larg rarg ihl ihr =>
    simp only [total]
    cases List.mem_append.mp h with
    | inl h =>
      have := ihl h
      omega
    | inr h =>
      cases h with
      | head => exact Nat.le_refl _
      | tail _ h =>
        have := ihr h
        omega
  | nonAlgOp o op larg rarg ihl ihr =>
    simp only [total]
    cases List.mem_append.mp h with
    | inl h =>
      have := ihl h
      omega
    | inr h =>
      cases h with
      | head => exact Nat.le_refl _
      | tail _ h =>
        have := ihr h
        omega

theorem occurrences_of_mem (h : s ∈ t.infixList) : t.occurrences s.oid ≠ 0 := by
  have hle : s.occurrences s.oid ≤ t.occurrences s.oid := total_le h _
  have hs := occurrences_self s
  omega

@[simp] theorem occurrences_name (o p : Oid) (n) :
    (Tree.name p n).occurrences o = if p = o then 1 else 0 := rfl

@[simp] theorem occurrences_value (o p : Oid) (v) :
    (Tree.value p v).occurrences o = if p = o then 1 else 0 := rfl

@[simp] theorem occurrences_other (o p : Oid) :
    (Tree.other p).occurrences o = if p = o then 1 else 0 := rfl

/-- Where a node is not below an operator, nor the operator itself. -/
theorem absent_below {p o : Oid} {a : Nat} (h : a + (if p = o then 1 else 0) = 0) :
    a = 0 ∧ p ≠ o := by
  refine ⟨Nat.eq_zero_of_add_eq_zero_right h, ?_⟩
  rintro rfl
  rw [if_pos rfl] at h
  exact Nat.succ_ne_zero _ h

theorem absent_root {p o : Oid} (h : (if p = o then 1 else 0) = 0) : p ≠ o := by
  rintro rfl
  rw [if_pos rfl] at h
  cases h

theorem swap_of_absent {o : Oid} (h : t.occurrences o = 0) (new : Tree) : t.swap o new = t := by
  induction t with
  | name p n => exact if_neg (absent_root h)
  | value p v => exact if_neg (absent_root h)
  | other p => exact if_neg (absent_root h)
  | «as» p arg n g ih =>
    obtain ⟨ha, hp⟩ := absent_below h
    rw [swap, if_neg hp, ih ha]
  | unOp p op arg ih =>
    obtain ⟨ha, hp⟩ := absent_below h
    rw [swap, if_neg hp, ih ha]
  | coerce p c arg ih =>
    obtain ⟨ha, hp⟩ := absent_below h
    rw [swap, if_neg hp, ih ha]
  | castTo p arg ih =>
    obtain ⟨ha, hp⟩ := absent_below h
    rw [swap, if_neg hp, ih ha]
  | algOp p op larg rarg ihl ihr =>
    obtain ⟨hlr, hp⟩ := absent_below h
    obtain ⟨hl, hr⟩ := Nat.add_eq_zero_iff.mp hlr
    rw [swap, if_neg hp, ihl hl, ihr hr]
  | nonAlgOp p op larg rarg ihl ihr =>
    obtain ⟨hlr, hp⟩ := absent_below h
    obtain ⟨hl, hr⟩ := Nat.add_eq_zero_iff.mp hlr
    rw [swap, if_neg hp, ihl hl, ihr hr]

theorem swap_self (t new : Tree) : t.swap t.oid new = new := by
  cases t <;> simp [swap, oid]

/-- A node that is below an operator is not the operator. -/
theorem once_below {p o : Oid} {a : Nat} (h : a + (if p = o then 1 else 0) ≤ 1) (ha : a ≠ 0) :
    a = 1 ∧ p ≠ o := by
  split at h
  · omega
  · rename_i hp
    exact ⟨by omega, hp⟩

theorem once_left {p o : Oid} {a b : Nat} (h : a + b + (if p = o then 1 else 0) ≤ 1)
    (ha : a ≠ 0) : a ≤ 1 ∧ b = 0 ∧ p ≠ o := by
  obtain ⟨hab, hp⟩ := once_below h (by omega)
  exact ⟨by omega, by omega, hp⟩

theorem once_right {p o : Oid} {a b : Nat} (h : a + b + (if p = o then 1 else 0) ≤ 1)
    (hb : b ≠ 0) : a = 0 ∧ b ≤ 1 ∧ p ≠ o := by
  obtain ⟨hab, hp⟩ := once_below h (by omega)
  exact ⟨by omega, by omega, hp⟩

/-- The weights when the node `s` is replaced. -/
theorem swap_total (ht : t.occurrences s.oid ≤ 1) (h : s ∈ t.infixList) (new : Tree) (w) :
    (t.swap s.oid new).total w + s.total w = t.total w + new.total w := by
  have root : (s.swap s.oid new).total w + s.total w = s.total w + new.total w := by
    rw [swap_self, Nat.add_comm]
  induction t with
  | name p n =>
    rw [← List.mem_singleton.mp h]
    exact root
  | value p v =>
    rw [← List.mem_singleton.mp h]
    exact root
  | other p =>
    rw [← List.mem_singleton.mp h]
    exact root
  | castTo p arg ih =>
    obtain ⟨ha, hp⟩ := once_below ht (occurrences_of_mem h)
    have := ih (Nat.le_of_eq ha) h
    rw [swap, if_neg hp]
    simp only [total]
    omega
  | «as» p arg n g ih =>
    cases h with
    | head => exact root
    | tail _ h =>
      obtain ⟨ha, hp⟩ := once_below ht (occurrences_of_mem h)
      have := ih (Nat.le_of_eq ha) h
      rw [swap, if_neg hp]
      simp only [total]
      omega
  | unOp p op arg ih =>
    cases h with
    | head => exact root
    | tail _ h =>
      obtain ⟨ha, hp⟩ := once_below ht (occurrences_of_mem h)
      have := ih (Nat.le_of_eq ha) h
      rw [swap, if_neg hp]
      simp only [total]
      omega
  | coerce p c arg ih =>
    cases h with
    | head => exact root
    | tail _ h =>
      obtain ⟨ha, hp⟩ := once_below ht (occurrences_of_mem h)
      have := ih (Nat.le_of_eq ha) h
      rw [swap, if_neg hp]
      simp only [total]
      omega
  | algOp p op larg rarg ihl ihr =>
    cases List.mem_append.mp h with
    | inl h =>
      obtain ⟨hl, hr, hp⟩ := once_left ht (occurrences_of_mem h)
      have := ihl hl h
      rw [swap, if_neg hp, swap_of_absent hr]
      simp only [total]
      omega
    | inr h =>
      cases h with
      | head => exact root
      | tail _ h =>
        obtain ⟨hl, hr, hp⟩ := once_right ht (occurrences_of_mem h)
        have := ihr hr h
        rw [swap, if_neg hp, swap_of_absent hl]
        simp only [total]
        omega
  | nonAlgOp p op larg rarg ihl ihr =>
    cases List.mem_append.mp h with
    | inl h =>
      obtain ⟨hl, hr, hp⟩ := once_left ht (occurrences_of_mem h)
      have := ihl hl h
      rw [swap, if_neg hp, swap_of_absent hr]
      simp only [total]
      omega
    | inr h =>
      cases h with
      | head => exact root
      | tail _ h =>
        obtain ⟨hl, hr, hp⟩ := once_right ht (occurrences_of_mem h)
        have := ihr hr h
        rw [swap, if_neg hp, swap_of_absent hl]
        simp only [total]
        omega

end Tree

-- ---------------------------------------------------------------------------
-- Auxiliary names
-- ---------------------------------------------------------------------------

/-- Nothing in the tree `s` is new. -/
def Lighter (s t : Tree) : Prop := ∀ w, s.total w ≤ t.total w

theorem Lighter.trans {s t u : Tree} (h : Lighter s t) (h' : Lighter t u) : Lighter s u :=
  fun w => (h w).trans (h' w)

/-- No two nodes have one number. -/
def Single (t : Tree) : Prop := ∀ o, t.occurrences o ≤ 1

theorem Lighter.single {s t : Tree} (h : Lighter s t) (ht : Single t) : Single s :=
  fun o => (h _).trans (ht o)

theorem Lighter.swap {s t new : Tree} (hs : s ∈ t.infixList) (h : Lighter new s)
    (ht : Single t) : Lighter (t.swap s.oid new) t := by
  intro w
  have heq := Tree.swap_total (ht s.oid) hs new w
  have hle := h w
  omega

/-- The node above is a node of the tree. -/
theorem getParent_mem {o : Oid} {t p : Tree} (h : t.getParent o = some p) :
    p ∈ t.infixList ∨ ∃ q arg, p = .castTo q arg := by
  induction t with
  | «as» q arg n g ih =>
    simp only [Tree.getParent] at h
    split at h
    · cases h
      exact .inl List.mem_cons_self
    · exact (ih h).imp_left (List.mem_cons_of_mem _)
  | unOp q op arg ih =>
    simp only [Tree.getParent] at h
    split at h
    · cases h
      exact .inl List.mem_cons_self
    · exact (ih h).imp_left (List.mem_cons_of_mem _)
  | coerce q c arg ih =>
    simp only [Tree.getParent] at h
    split at h
    · cases h
      exact .inl List.mem_cons_self
    · exact (ih h).imp_left (List.mem_cons_of_mem _)
  | castTo q arg ih =>
    simp only [Tree.getParent] at h
    split at h
    · cases h
      exact .inr ⟨q, arg, rfl⟩
    · exact ih h
  | algOp q op larg rarg ihl ihr =>
    simp only [Tree.getParent] at h
    split at h
    · cases h
      exact .inl (List.mem_append_right _ List.mem_cons_self)
    · cases Option.or_eq_some_iff.mp h with
      | inl h => exact (ihl h).imp_left (List.mem_append_left _)
      | inr h =>
        exact (ihr h.2).imp_left fun hm => List.mem_append_right _ (List.mem_cons_of_mem _ hm)
  | nonAlgOp q op larg rarg ihl ihr =>
    simp only [Tree.getParent] at h
    split at h
    · cases h
      exact .inl (List.mem_append_right _ List.mem_cons_self)
    · cases Option.or_eq_some_iff.mp h with
      | inl h => exact (ihl h).imp_left (List.mem_append_left _)
      | inr h =>
        exact (ihr h.2).imp_left fun hm => List.mem_append_right _ (List.mem_cons_of_mem _ hm)
  | _ => cases h

section
variable {S : Scheme} {junk : Char} {qTree klon : Tree} {m : Memory}

theorem replaceOperator_ends (hk : Single klon) {p left right : Tree} (hp : p ∈ klon.infixList)
    (hl : Lighter left p) (hr : Lighter right p) (u : Oid) :
    Ends (Lighter · klon) (replaceOperator klon u p.oid left right) := by
  unfold replaceOperator
  split
  · split
    · exact .crash
    · exact .ok (hr.swap hp hk)
  · split
    · exact .ok (hl.trans (Tree.total_le hp))
    · exact .ok (hl.swap hp hk)

theorem removeUse_ends (hk : Single klon) (u : Oid) :
    Ends (Lighter · klon) (removeUse klon u) := by
  unfold removeUse
  split
  · rename_i o op left right hp
    have hm := (getParent_mem hp).resolve_right (by simp)
    refine replaceOperator_ends hk hm ?_ ?_ u
    · intro w
      simp only [Tree.total]
      omega
    · intro w
      simp only [Tree.total]
      omega
  · rename_i o op left right hp
    have hm := (getParent_mem hp).resolve_right (by simp)
    refine replaceOperator_ends hk hm ?_ ?_ u
    · intro w
      simp only [Tree.total]
      omega
    · intro w
      simp only [Tree.total]
      omega
  · exact .crash

theorem removeUses_ends (hk : Single klon) (us : List Oid) :
    Ends (Lighter · klon) (removeUses klon us) := by
  induction us generalizing klon with
  | nil => exact .ok fun _ => Nat.le_refl _
  | cons u us ih =>
    refine (removeUse_ends hk u).bind ?_
    rintro klon' - hk'
    exact (ih (hk'.single hk)).mono fun _ h => h.trans hk'

theorem canTryToRemoveAux_ends (nodes : Nodes) (nameVec : List Oid) :
    Ends (fun _ => True) (canTryToRemoveAux qTree nodes nameVec) := by
  induction nameVec with
  | nil => exact .ok trivial
  | cons u nameVec ih =>
    simp only [canTryToRemoveAux]
    split
    · exact .ok trivial
    · split
      · exact .crash
      · exact ih
      · exact .ok trivial

theorem sameBound_ends (pairs : List (Option Oid × Option Oid)) :
    Ends (fun _ => True) (sameBound pairs) := by
  induction pairs with
  | nil => exact .ok trivial
  | cons pair rest ih =>
    obtain ⟨n, o⟩ := pair
    cases n with
    | none =>
      cases o with
      | none => exact ih.bind fun _ _ _ => .ok trivial
      | some o => exact .crash
    | some n =>
      cases o with
      | none => exact .crash
      | some o => exact ih.bind fun _ _ _ => .ok trivial

theorem sameBindings_ends (old : Tree) (oldNodes newNodes : Nodes) (nameVec : List Tree) :
    Ends (fun _ => True) (sameBindings old oldNodes newNodes nameVec) := by
  induction nameVec with
  | nil => exact .ok trivial
  | cons newNode nameVec ih =>
    simp only [sameBindings]
    split
    · exact .crash
    · refine (sameBound_ends _).bind ?_
      rintro ok - -
      split
      · exact ih
      · exact .ok trivial

/-- A tree from which a name was removed. -/
structure Removed (qTree : Tree) (r : Tree) : Prop where
  lighter : Lighter r qTree
  size : r.size < qTree.size

theorem removedAux_ends (hq : Single qTree) {aux : Oid} {son : Tree} {n : String} {g : Bool}
    (ha : .as aux son n g ∈ qTree.infixList) (usedBy : List Oid) :
    Ends (fun r => ∀ p ∈ r, Removed qTree p.1)
      (removedAux S junk aux son usedBy qTree m) := by
  have hson : Lighter son (.as aux son n g) := fun w => Nat.le_add_right _ _
  have hswap : Lighter (qTree.swap aux son) qTree := hson.swap ha hq
  have hsize : (qTree.swap aux son).size < qTree.size := by
    have heq := Tree.swap_total (hq _) ha son fun _ _ => 1
    simp only [Tree.size, Tree.total, Tree.oid] at heq ⊢
    omega
  refine (removeUses_ends (hswap.single hq) usedBy).bind ?_
  rintro klon - hk
  refine (statEvaluate_ends S klon _).bind ?_
  rintro ⟨ok, new⟩ - -
  refine (sameBindings_ends _ _ _ _).bind ?_
  rintro same - -
  refine .ok ?_
  intro p hp
  split at hp
  · cases hp
    exact ⟨hk.trans hswap, (hk _).trans_lt hsize⟩
  · cases hp

theorem removeFirst_ends (hq : Single qTree) {auxVec : List Tree}
    (hv : ∀ t ∈ auxVec, t ∈ qTree.infixList) :
    Ends (fun r => ∀ p ∈ r, Removed qTree p.1) (removeFirst S junk qTree m auxVec) := by
  induction auxVec with
  | nil => exact .ok (by simp)
  | cons t auxVec ih =>
    have rest := ih fun t ht => hv t (List.mem_cons_of_mem _ ht)
    have ht := hv t List.mem_cons_self
    cases t with
    | «as» aux son n g =>
      refine (canTryToRemoveAux_ends _ _).bind ?_
      rintro can - -
      split
      · exact rest
      · refine (removedAux_ends hq ht _).bind ?_
        rintro r - hr
        cases r with
        | none => exact rest
        | some done => exact .ok hr
    | _ => exact rest

theorem rmvAux_ends (hq : Single qTree) {n : Nat} (hn : qTree.size < n) :
    Ends (fun r => r.1.size ≤ qTree.size) (rmvAux S junk n qTree m) := by
  induction n generalizing qTree m with
  | zero => omega
  | succ n ih =>
    refine (statEvaluate_ends S qTree _).bind ?_
    rintro ⟨ok, m₁⟩ - -
    refine (removeFirst_ends hq fun t ht => ht).bind ?_
    rintro r - hr
    cases r with
    | none => exact .ok (Nat.le_refl _)
    | some done =>
      obtain ⟨hlight, hsize⟩ := hr done rfl
      refine (ih (hlight.single hq) (by omega)).mono ?_
      intro r hr
      omega

end

-- ---------------------------------------------------------------------------
-- Joins
-- ---------------------------------------------------------------------------

namespace Tree

def joins : Tree → Nat
  | .as _ arg _ _ => arg.joins
  | .unOp _ _ arg => arg.joins
  | .coerce _ _ arg => arg.joins
  | .castTo _ arg => arg.joins
  | .algOp _ _ larg rarg => larg.joins + rarg.joins
  | .nonAlgOp _ op larg rarg => larg.joins + rarg.joins + if op = .join then 1 else 0
  | _ => 0

theorem joins_le_size (t : Tree) : t.joins ≤ t.size := by
  induction t with
  | name => exact Nat.zero_le _
  | value => exact Nat.zero_le _
  | «as» o arg n g ih => exact ih.trans (Nat.le_add_right _ _)
  | unOp o op arg ih => exact ih.trans (Nat.le_add_right _ _)
  | coerce o c arg ih => exact ih.trans (Nat.le_add_right _ _)
  | castTo o arg ih => exact ih.trans (Nat.le_add_right _ _)
  | algOp o op larg rarg ihl ihr =>
    simp only [joins, size, total] at *
    omega
  | nonAlgOp o op larg rarg ihl ihr =>
    simp only [joins, size, total] at *
    split <;> omega
  | other => exact Nat.zero_le _

/-- A part of a part is a part. -/
theorem infixList_trans {r s t : Tree} (hr : r ∈ s.infixList) (hs : s ∈ t.infixList) :
    r ∈ t.infixList := by
  induction t with
  | name => rwa [List.mem_singleton.mp hs] at hr
  | value => rwa [List.mem_singleton.mp hs] at hr
  | other => rwa [List.mem_singleton.mp hs] at hr
  | castTo o arg ih => exact ih hs
  | «as» o arg n g ih =>
    cases hs with
    | head => exact hr
    | tail _ hs => exact List.mem_cons_of_mem _ (ih hs)
  | unOp o op arg ih =>
    cases hs with
    | head => exact hr
    | tail _ hs => exact List.mem_cons_of_mem _ (ih hs)
  | coerce o c arg ih =>
    cases hs with
    | head => exact hr
    | tail _ hs => exact List.mem_cons_of_mem _ (ih hs)
  | algOp o op larg rarg ihl ihr =>
    cases List.mem_append.mp hs with
    | inl hs => exact List.mem_append_left _ (ihl hs)
    | inr hs =>
      cases hs with
      | head => exact hr
      | tail _ hs => exact List.mem_append_right _ (List.mem_cons_of_mem _ (ihr hs))
  | nonAlgOp o op larg rarg ihl ihr =>
    cases List.mem_append.mp hs with
    | inl hs => exact List.mem_append_left _ (ihl hs)
    | inr hs =>
      cases hs with
      | head => exact hr
      | tail _ hs => exact List.mem_append_right _ (List.mem_cons_of_mem _ (ihr hs))

theorem mem_infixList_nonAlgOp (o op) (larg rarg : Tree) :
    .nonAlgOp o op larg rarg ∈ (Tree.nonAlgOp o op larg rarg).infixList :=
  List.mem_append_right _ List.mem_cons_self

end Tree

theorem setDot_joins_le (join : Oid) (t : Tree) : (setDot join t).joins ≤ t.joins := by
  induction t with
  | name => exact Nat.le_refl _
  | value => exact Nat.le_refl _
  | «as» o arg n g ih => exact ih
  | unOp o op arg ih => exact ih
  | coerce o c arg ih => exact ih
  | castTo o arg ih => exact ih
  | algOp o op larg rarg ihl ihr => exact Nat.add_le_add ihl ihr
  | nonAlgOp o op larg rarg ihl ihr =>
    refine Nat.add_le_add (Nat.add_le_add ihl ihr) ?_
    by_cases ho : o = join
    · simp [ho]
    · rw [if_neg ho]
  | other => exact Nat.le_refl _

/-- A node of the tree is a join with this number. -/
def HasJoin (join : Oid) (t : Tree) : Prop := ∃ q1 q2, .nonAlgOp join .join q1 q2 ∈ t.infixList

theorem setDot_joins_lt {join : Oid} {t : Tree} (h : HasJoin join t) :
    (setDot join t).joins < t.joins := by
  obtain ⟨q1, q2, h⟩ := h
  induction t with
  | name => cases List.mem_singleton.mp h
  | value => cases List.mem_singleton.mp h
  | other => cases List.mem_singleton.mp h
  | castTo o arg ih => exact ih h
  | «as» o arg n g ih =>
    cases h with
    | tail _ h => exact ih h
  | unOp o op arg ih =>
    cases h with
    | tail _ h => exact ih h
  | coerce o c arg ih =>
    cases h with
    | tail _ h => exact ih h
  | algOp o op larg rarg ihl ihr =>
    cases List.mem_append.mp h with
    | inl h => exact Nat.add_lt_add_of_lt_of_le (ihl h) (setDot_joins_le join rarg)
    | inr h =>
      cases h with
      | tail _ h => exact Nat.add_lt_add_of_le_of_lt (setDot_joins_le join larg) (ihr h)
  | nonAlgOp o op larg rarg ihl ihr =>
    have hl := setDot_joins_le join larg
    have hr := setDot_joins_le join rarg
    have hop : (if (if o = join then NonAlgOp.dot else op) = .join then 1 else 0) ≤
        if op = .join then 1 else 0 := by
      by_cases ho : o = join
      · simp [ho]
      · rw [if_neg ho]
    cases List.mem_append.mp h with
    | inl h =>
      have := ihl h
      simp only [setDot, Tree.joins]
      omega
    | inr h =>
      cases h with
      | head =>
        simp only [setDot, Tree.joins, reduceIte, reduceCtorEq]
        omega
      | tail _ h =>
        have := ihr h
        simp only [setDot, Tree.joins]
        omega

theorem hasJoin_of_supposed {qTree : Tree} {s : Supposed} (h : s ∈ getSupposed qTree) :
    HasJoin s.join qTree := by
  obtain ⟨t, ht, hs⟩ := List.mem_filterMap.mp h
  unfold supposed at hs
  split at hs
  · rename_i o join q1 q2 q3
    cases hs
    refine ⟨q1, q2, Tree.infixList_trans ?_ ht⟩
    exact List.mem_append_left _ (Tree.mem_infixList_nonAlgOp _ _ _ _)
  · cases hs

theorem boundOutside_ends (q1 : Tree) (boundIn : List (Option Oid)) :
    Ends (fun _ => True) (boundOutside q1 boundIn) := by
  induction boundIn with
  | nil => exact .ok trivial
  | cons o boundIn ih =>
    cases o with
    | none => exact .crash
    | some o =>
      simp only [boundOutside]
      split
      · exact .ok trivial
      · exact ih

theorem canReplace_ends (nodes : Nodes) (q1 : Tree) (q3NamesVec : List Tree) :
    Ends (fun _ => True) (canReplace nodes q1 q3NamesVec) := by
  induction q3NamesVec with
  | nil => exact .ok trivial
  | cons q3Name q3NamesVec ih =>
    refine (boundOutside_ends _ _).bind ?_
    rintro ok - -
    split
    · exact ih
    · exact .ok trivial

/-- The tree after a pass, and whether a join was replaced. -/
structure Replaced (qTree : Tree) (replaced : Bool) (r : Tree × Bool) : Prop where
  le : r.1.joins ≤ qTree.joins
  lt : r.2 = true → replaced = true ∨ r.1.joins < qTree.joins

theorem replaceAll_ends (nodes : Nodes) {toReplaceVec : List Supposed} {qTree : Tree}
    {replaced : Bool} (h : replaced = false → ∀ s ∈ toReplaceVec, HasJoin s.join qTree) :
    Ends (Replaced qTree replaced) (replaceAll nodes toReplaceVec qTree replaced) := by
  induction toReplaceVec generalizing qTree replaced with
  | nil => exact .ok ⟨Nat.le_refl _, .inl⟩
  | cons s toReplaceVec ih =>
    refine (canReplace_ends _ _ _).bind ?_
    rintro ok - -
    split
    · have next : Ends (Replaced (setDot s.join qTree) true)
          (replaceAll nodes toReplaceVec (setDot s.join qTree) true) := ih (by simp)
      refine next.mono ?_
      rintro r ⟨hle, -⟩
      refine ⟨hle.trans (setDot_joins_le _ _), ?_⟩
      intro _
      cases replaced with
      | true => exact .inl rfl
      | false => exact .inr (hle.trans_lt (setDot_joins_lt (h rfl s List.mem_cons_self)))
    · exact ih fun hr s hs => h hr s (List.mem_cons_of_mem _ hs)

theorem replaceLoop_ends (nodes : Nodes) {n : Nat} {qTree : Tree} (hn : qTree.joins < n) :
    Ends (fun _ => True) (replaceLoop nodes n qTree) := by
  induction n generalizing qTree with
  | zero => omega
  | succ n ih =>
    refine (replaceAll_ends nodes fun _ s hs => hasJoin_of_supposed hs).bind ?_
    rintro ⟨qTree', replaced⟩ - ⟨hle, hlt⟩
    simp only
    split
    · rename_i hr
      have hless : qTree'.joins < qTree.joins := (hlt hr).resolve_left (by simp)
      exact ih (by omega)
    · exact .ok trivial

theorem replaceJoin_ends {S : Scheme} {fuel : Nat} {qTree : Tree} {m : Memory}
    (hn : qTree.size < fuel) : Ends (fun _ => True) (replaceJoin S fuel qTree m) := by
  refine (statEvaluate_ends S qTree _).bind ?_
  rintro ⟨ok, m₁⟩ - -
  exact replaceLoop_ends _ ((Tree.joins_le_size qTree).trans_lt hn)

end Loxim.QueryParser.Optimizer
