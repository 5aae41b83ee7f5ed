import Mathlib.Data.List.Basic
import Loxim.Indexes.QueryOptimizer

/-!
# What the scan of a query finds

A predicate is the conjunction of its `and`-leaves. `FieldScanned` and
`Scanned` say what `findPossibleFields` knows after a prefix of them, in terms
of the comparisons of a field with a literal met so far.
-/

namespace Loxim.Indexes

open QueryOptimizer

-- ---------------------------------------------------------------------------
-- Conjuncts and bounds
-- ---------------------------------------------------------------------------

/-- A comparison of a field with a literal, turned so that the field is on the
left. -/
structure Bound where
  field : String
  op : CompOp
  address : Nat
  value : Literal
  deriving DecidableEq

inductive Side
  | exact
  | lower
  | upper
  deriving DecidableEq

def CompOp.side : CompOp → Side
  | .eq => .exact
  | .gt | .ge => .lower
  | .lt | .le => .upper

/-- A bound `b` after `a` is refused. -/
def Bound.Repeats (a b : Bound) : Prop :=
  a.field = b.field ∧ (a.op.side = .exact ∨ a.op.side = b.op.side)

instance : Decidable (Bound.Repeats a b) := by unfold Bound.Repeats; infer_instance

namespace TreeNode

def conjuncts : TreeNode → List TreeNode
  | .algOp .boolAnd larg rarg => larg.conjuncts ++ rarg.conjuncts
  | t => [t]

def isComparison : TreeNode → Bool
  | .algOp (.comp _) _ _ => true
  | _ => false

def bound? : TreeNode → Option Bound
  | .algOp (.comp op) (.name f) (.literal a v) => some ⟨f, op, a, v⟩
  | .algOp (.comp op) (.literal a v) (.name f) => some ⟨f, opposite op, a, v⟩
  | _ => none

def literals : TreeNode → List Nat
  | .literal address _ => [address]
  | .algOp _ larg rarg | .nonAlgOp _ larg rarg => larg.literals ++ rarg.literals
  | _ => []

end TreeNode

abbrev bounds (cs : List TreeNode) : List Bound := cs.filterMap TreeNode.bound?

/-- The bounds on one field, in the order of the scan. -/
abbrev boundsOf (f : String) (cs : List TreeNode) : List Bound := (bounds cs).filter (·.field == f)

theorem opposite_opposite (op : CompOp) : opposite (opposite op) = op := by cases op <;> rfl

theorem isComparison_of_bound? (h : TreeNode.bound? c = some b) : c.isComparison = true := by
  unfold TreeNode.bound? at h
  split at h <;> simp_all [TreeNode.isComparison]

theorem isParent_iff_of_bound? (h : TreeNode.bound? c = some b) :
    isParent v c = true ↔ v = b.address := by
  unfold TreeNode.bound? at h
  split at h
  · cases h
    simp only [isParent, isParent.isLiteral, Bool.false_or, beq_iff_eq]
    exact eq_comm
  · cases h
    simp only [isParent, isParent.isLiteral, Bool.or_false, beq_iff_eq]
    exact eq_comm
  · cases h

theorem mem_literals_of_isParent (h : isParent v c = true) : v ∈ c.literals := by
  unfold isParent at h
  split at h
  · rename_i l r
    rw [Bool.or_eq_true] at h
    have hlit (t : TreeNode) (ht : isParent.isLiteral v t = true) : v ∈ t.literals := by
      unfold isParent.isLiteral at ht
      split at ht
      · rw [beq_iff_eq] at ht
        simp [TreeNode.literals, ht]
      · cases ht
    simp only [TreeNode.literals, List.mem_append]
    exact h.imp (hlit l) (hlit r)
  · cases h

theorem literals_eq_flatMap (t : TreeNode) : t.literals = t.conjuncts.flatMap TreeNode.literals := by
  induction t using TreeNode.conjuncts.induct with
  | case1 l r ihl ihr =>
    rw [TreeNode.literals, TreeNode.conjuncts, List.flatMap_append, ← ihl, ← ihr]
  | case2 t h => rw [TreeNode.conjuncts.eq_2 t h, List.flatMap_singleton]

-- ---------------------------------------------------------------------------
-- What the scan knows of one field
-- ---------------------------------------------------------------------------

def Bound.boundary (b : Bound) : IndexBoundaryNode :=
  { inclusive := b.op = .ge ∨ b.op = .le, value := b.value }

/-- The used bounds are what the selection is made of: one equality, or at
most one bound on either side. -/
def OptimizedField.MadeOf (o : OptimizedField) (used : List Bound) : Prop :=
  (∃ b, b.op = .eq ∧ o.exact = some b.value ∧ used = [b]) ∨
    (o.exact = none ∧ ∃ lower upper : Option Bound,
      used.Perm (lower.toList ++ upper.toList) ∧
      o.greaterThan = lower.map Bound.boundary ∧ o.smallerThan = upper.map Bound.boundary ∧
      (∀ b ∈ lower, b.op.side = .lower) ∧ ∀ b ∈ upper, b.op.side = .upper)

/-- `bs` are the bounds on the field `f` met so far. -/
structure FieldScanned (indexOf : String → Option String) (f : String) (bs : List Bound)
    (o : OptimizedField) : Prop where
  named : indexOf f = some o.indexName
  exact_iff : o.exact.isSome ↔ ∃ b ∈ bs, b.op.side = .exact
  lower_iff : o.exact = none → (o.greaterThan.isSome ↔ ∃ b ∈ bs, b.op.side = .lower)
  upper_iff : o.exact = none → (o.smallerThan.isSome ↔ ∃ b ∈ bs, b.op.side = .upper)
  rejected_iff : o.boundsRejected ↔
    (∃ b ∈ bs, b.op.side = .exact) ∧ ∃ a, bs.head? = some a ∧ a.op.side ≠ .exact
  used : ∃ used, used.Sublist bs ∧ o.usedBounds = used.map Bound.address ∧ o.MadeOf used ∧
    (used = [] → bs = []) ∧
    (bs.Pairwise (¬ Bound.Repeats · ·) → o.boundsRejected = false → used = bs)

theorem FieldScanned.new (h : indexOf f = some index) :
    FieldScanned indexOf f [] (OptimizedField.new index) where
  named := h
  exact_iff := by simp [OptimizedField.new]
  lower_iff := by simp [OptimizedField.new]
  upper_iff := by simp [OptimizedField.new]
  rejected_iff := by simp [OptimizedField.new]
  used := ⟨[], by simp, rfl, .inr ⟨rfl, none, none, by simp [OptimizedField.new]⟩, by simp, by simp⟩

section
variable {indexOf : String → Option String} {f : String} {bs : List Bound} {o : OptimizedField}
  {b : Bound}

theorem addBound_lower (h : o.exact = none) (hs : b.op.side = .lower) :
    o.addBound b.address b.value b.op =
      if o.greaterThan.isSome then (false, o)
      else (true, { o with greaterThan := some b.boundary,
                           usedBounds := o.usedBounds ++ [b.address] }) := by
  cases hop : b.op <;> simp [OptimizedField.addBound, Bound.boundary, h, hop, CompOp.side] at hs ⊢

theorem addBound_upper (h : o.exact = none) (hs : b.op.side = .upper) :
    o.addBound b.address b.value b.op =
      if o.smallerThan.isSome then (false, o)
      else (true, { o with smallerThan := some b.boundary,
                           usedBounds := o.usedBounds ++ [b.address] }) := by
  cases hop : b.op <;> simp [OptimizedField.addBound, Bound.boundary, h, hop, CompOp.side] at hs ⊢

theorem exists_side_snoc {s : Side} :
    (∃ c ∈ bs ++ [b], c.op.side = s) ↔ (∃ c ∈ bs, c.op.side = s) ∨ b.op.side = s := by
  simp only [List.mem_append, List.mem_singleton, or_and_right, exists_or, exists_eq_left]

theorem FieldScanned.refuse (h : FieldScanned indexOf f bs o) (hr : ∃ a ∈ bs, a.Repeats b) :
    FieldScanned indexOf f (bs ++ [b]) o := by
  obtain ⟨a, ha, hrep⟩ := hr
  have hex : (∃ c ∈ bs ++ [b], c.op.side = .exact) ↔ ∃ c ∈ bs, c.op.side = .exact := by
    rw [exists_side_snoc]
    refine or_iff_left_of_imp fun hb => ⟨a, ha, ?_⟩
    exact hrep.2.elim id fun heq => heq.trans hb
  have hother (s : Side) (hs : o.exact = none) :
      (∃ c ∈ bs ++ [b], c.op.side = s) ↔ ∃ c ∈ bs, c.op.side = s := by
    have hno : ¬ ∃ c ∈ bs, c.op.side = .exact := by simp [← h.exact_iff, hs]
    rw [exists_side_snoc]
    refine or_iff_left_of_imp fun hb => ⟨a, ha, ?_⟩
    exact hrep.2.elim (fun hx => absurd ⟨a, ha, hx⟩ hno) fun heq => heq.trans hb
  have hhead : (bs ++ [b]).head? = bs.head? := List.head?_append_of_ne_nil _ (List.ne_nil_of_mem ha)
  obtain ⟨used, hsub, haddr, hmade, hnil, -⟩ := h.used
  refine ⟨h.named, h.exact_iff.trans hex.symm, fun hs => (h.lower_iff hs).trans (hother _ hs).symm,
    fun hs => (h.upper_iff hs).trans (hother _ hs).symm, by rw [hex, hhead, h.rejected_iff], ?_⟩
  refine ⟨used, hsub.trans (List.sublist_append_left _ _), haddr, hmade, ?_, ?_⟩
  · intro hu
    exact absurd (hnil hu) (List.ne_nil_of_mem ha)
  · intro hp
    exact absurd hrep (List.pairwise_append.mp hp |>.2.2 a ha b (by simp))

/-- An equality takes the place of the bounds so far. -/
theorem FieldScanned.accept_exact (h : FieldScanned indexOf f bs o) (hs : b.op = .eq)
    (hnone : o.exact = none) :
    FieldScanned indexOf f (bs ++ [b]) (o.addBound b.address b.value b.op).2 := by
  have hno : ∀ c ∈ bs, c.op.side ≠ .exact := by
    intro c hc he
    have := h.exact_iff.mpr ⟨c, hc, he⟩
    simp [hnone] at this
  have hnil : (o.greaterThan.isSome || o.smallerThan.isSome) = true ↔ bs ≠ [] := by
    rw [Bool.or_eq_true, h.lower_iff hnone, h.upper_iff hnone]
    constructor
    · rintro (⟨c, hc, -⟩ | ⟨c, hc, -⟩) <;> exact List.ne_nil_of_mem hc
    · intro hne
      obtain ⟨c, hc⟩ := List.exists_mem_of_ne_nil _ hne
      cases hcs : c.op.side with
      | exact => exact absurd hcs (hno c hc)
      | lower => exact .inl ⟨c, hc, hcs⟩
      | upper => exact .inr ⟨c, hc, hcs⟩
  have hadd : (o.addBound b.address b.value b.op).2 =
      { o with exact := some b.value, usedBounds := [b.address],
               boundsRejected := o.greaterThan.isSome || o.smallerThan.isSome } := by
    simp [OptimizedField.addBound, hnone, hs]
  have hbs : b.op.side = .exact := by rw [hs]; rfl
  rw [hadd]
  refine ⟨h.named, ?_, by simp, by simp, ?_, ?_⟩
  · simp [hbs]
  · rw [hnil, exists_side_snoc]
    simp only [hbs, or_true, true_and]
    cases bs with
    | nil => simp [hbs]
    | cons c cs => simpa using hno c (by simp)
  · refine ⟨[b], List.sublist_append_right _ _, rfl, .inl ⟨b, hs, rfl, rfl⟩, by simp, ?_⟩
    intro _ hrej
    have : bs = [] := by
      by_contra hne
      rw [hnil.mpr hne] at hrej
      cases hrej
    simp [this]

/-- A bound on a free side is used next to the one on the other side. -/
theorem FieldScanned.accept_side (h : FieldScanned indexOf f bs o) (hnone : o.exact = none)
    (hs : b.op.side ≠ .exact) (hfree : ¬ ∃ a ∈ bs, a.op.side = b.op.side) :
    FieldScanned indexOf f (bs ++ [b]) (o.addBound b.address b.value b.op).2 := by
  have hex : ¬ ∃ c ∈ bs ++ [b], c.op.side = .exact := by
    rw [exists_side_snoc, not_or, ← h.exact_iff]
    exact ⟨by simp [hnone], hs⟩
  have hrej : o.boundsRejected = false := by
    rw [← Bool.not_eq_true, h.rejected_iff, ← h.exact_iff]
    simp [hnone]
  obtain ⟨used, hsub, haddr, hmade, -, hall⟩ := h.used
  obtain ⟨b', -, hb', -⟩ | ⟨-, lower, upper, hperm, hgt, hlt, hlow, hup⟩ := hmade
  · rw [hnone] at hb'
    cases hb'
  have hused : (bs ++ [b]).Pairwise (¬ Bound.Repeats · ·) → used ++ [b] = bs ++ [b] := by
    intro hp
    rw [hall (List.pairwise_append.mp hp).1 hrej]
  have hsub' : (used ++ [b]).Sublist (bs ++ [b]) := hsub.append (List.Sublist.refl _)
  have hrej' : o.boundsRejected = true ↔ (∃ c ∈ bs ++ [b], c.op.side = .exact) ∧
      ∃ a, (bs ++ [b]).head? = some a ∧ a.op.side ≠ .exact := by
    rw [hrej]
    exact ⟨nofun, fun hx => absurd hx.1 hex⟩
  have hex' : o.exact.isSome ↔ ∃ c ∈ bs ++ [b], c.op.side = .exact := by
    rw [hnone]
    exact ⟨nofun, fun hx => absurd hx hex⟩
  cases hside : b.op.side with
  | exact => exact absurd hside hs
  | lower =>
    have hg : o.greaterThan = none := by
      rw [hside, ← h.lower_iff hnone] at hfree
      simpa using hfree
    have hl : lower = none := by
      rw [hg] at hgt
      exact Option.map_eq_none_iff.mp hgt.symm
    rw [addBound_lower hnone hside, hg]
    refine ⟨h.named, hex', ?_, ?_, hrej', used ++ [b], hsub', ?_, ?_, by simp, fun hp _ => hused hp⟩
    · intro _
      simp [hside]
    · intro _
      rw [exists_side_snoc, hside]
      simpa using h.upper_iff hnone
    · simp [haddr]
    · refine .inr ⟨hnone, some b, upper, ?_, rfl, hlt, by simp [hside], hup⟩
      rw [hl] at hperm
      exact List.perm_append_comm.trans (hperm.cons b)
  | upper =>
    have hg : o.smallerThan = none := by
      rw [hside, ← h.upper_iff hnone] at hfree
      simpa using hfree
    have hu : upper = none := by
      rw [hg] at hlt
      exact Option.map_eq_none_iff.mp hlt.symm
    rw [addBound_upper hnone hside, hg]
    refine ⟨h.named, hex', ?_, ?_, hrej', used ++ [b], hsub', ?_, ?_, by simp, fun hp _ => hused hp⟩
    · intro _
      rw [exists_side_snoc, hside]
      simpa using h.lower_iff hnone
    · intro _
      simp [hside]
    · simp [haddr]
    · refine .inr ⟨hnone, lower, some b, ?_, hgt, rfl, hlow, by simp [hside]⟩
      rw [hu, Option.toList_none, List.append_nil] at hperm
      exact hperm.append_right [b]

/-- One call of `addBound` on the field. -/
theorem FieldScanned.addBound (h : FieldScanned indexOf f bs o) (hf : ∀ a ∈ bs, a.field = b.field) :
    FieldScanned indexOf f (bs ++ [b]) (o.addBound b.address b.value b.op).2 ∧
      ((o.addBound b.address b.value b.op).1 = false ↔ ∃ a ∈ bs, a.Repeats b) := by
  have hrep : (∃ a ∈ bs, a.Repeats b) ↔
      (∃ a ∈ bs, a.op.side = .exact) ∨ ∃ a ∈ bs, a.op.side = b.op.side := by
    rw [← exists_or]
    refine exists_congr fun a => ?_
    rw [← and_or_left]
    exact and_congr_right fun ha => and_iff_right (hf a ha)
  by_cases hnone : o.exact = none
  · have hno : ¬ ∃ a ∈ bs, a.op.side = .exact := by simp [← h.exact_iff, hnone]
    rw [or_iff_right hno] at hrep
    by_cases hfree : ∃ a ∈ bs, a.op.side = b.op.side
    · have hout : o.addBound b.address b.value b.op = (false, o) := by
        cases hside : b.op.side with
        | exact => exact absurd (hside ▸ hfree) hno
        | lower =>
          rw [addBound_lower hnone hside, if_pos ((h.lower_iff hnone).mpr (hside ▸ hfree))]
        | upper =>
          rw [addBound_upper hnone hside, if_pos ((h.upper_iff hnone).mpr (hside ▸ hfree))]
      rw [hout]
      exact ⟨h.refuse (hrep.mpr hfree), iff_of_true rfl (hrep.mpr hfree)⟩
    · have hout : (o.addBound b.address b.value b.op).1 = true := by
        cases hside : b.op.side with
        | exact =>
          have hop : b.op = .eq := by cases hop : b.op <;> simp [hop, CompOp.side] at hside ⊢
          simp [OptimizedField.addBound, hnone, hop]
        | lower =>
          rw [addBound_lower hnone hside, if_neg ((h.lower_iff hnone).not.mpr (hside ▸ hfree))]
        | upper =>
          rw [addBound_upper hnone hside, if_neg ((h.upper_iff hnone).not.mpr (hside ▸ hfree))]
      rw [hout]
      refine ⟨?_, iff_of_false (by simp) (hrep.not.mpr hfree)⟩
      by_cases hside : b.op.side = .exact
      · have hop : b.op = .eq := by cases hop : b.op <;> simp [hop, CompOp.side] at hside ⊢
        exact h.accept_exact hop hnone
      · exact h.accept_side hnone hside hfree
  · have hsome : o.exact.isSome := Option.isSome_iff_ne_none.mpr hnone
    have hr := hrep.mpr (.inl (h.exact_iff.mp hsome))
    have hout : o.addBound b.address b.value b.op = (false, o) := by
      simp [OptimizedField.addBound, hsome]
    rw [hout]
    exact ⟨h.refuse hr, iff_of_true rfl hr⟩

end

-- ---------------------------------------------------------------------------
-- What the scan knows of the query
-- ---------------------------------------------------------------------------

/-- No conjunct raises `differentNodeCount` during the scan. -/
def Plain (indexOf : String → Option String) (cs : List TreeNode) : Prop :=
  (∀ c ∈ cs, c.isComparison) ∧ (∀ b ∈ bounds cs, (indexOf b.field).isSome) ∧
    (bounds cs).Pairwise (¬ Bound.Repeats · ·)

/-- The first equality with an indexed field. -/
def firstExact (indexOf : String → Option String) (cs : List TreeNode) : Option Bound :=
  ((bounds cs).filter fun b => (indexOf b.field).isSome).find? (·.op.side == .exact)

structure Scanned (indexOf : String → Option String) (cs : List TreeNode) (q : QueryOptimizer) :
    Prop where
  found : q.find f = some o → FieldScanned indexOf f (boundsOf f cs) o ∧ boundsOf f cs ≠ []
  missing : q.find f = none → (indexOf f).isSome → boundsOf f cs = []
  count : q.differentNodeCount = 0 ↔ Plain indexOf cs
  best_none : q.bestField = none → q.find f = none
  best_some : q.bestField = some f → ∃ o, q.find f = some o
  best_exact : q.bestField = some f → firstExact indexOf cs = some b → b.field = f

theorem Scanned.init (indexOf : String → Option String) : Scanned indexOf [] {} where
  found := by simp [QueryOptimizer.find]
  missing := by simp
  count := by simp [Plain]
  best_none := by simp [QueryOptimizer.find]
  best_some := by simp
  best_exact := by simp

theorem lookup_filter_ne {fields : List (String × OptimizedField)} (h : g ≠ f) :
    (fields.filter (·.1 != f)).lookup g = fields.lookup g := by
  induction fields with
  | nil => rfl
  | cons p ps ih =>
    obtain ⟨k, v⟩ := p
    by_cases hk : k = f
    · have hgk : (g == k) = false := by simpa [hk] using h
      simp [hk, List.lookup_cons, ← ih, hk ▸ hgk]
    · have hkf : (k != f) = true := by simpa using hk
      simp only [List.filter_cons, hkf, if_true, List.lookup_cons, ih]

@[simp] theorem find_put (q : QueryOptimizer) :
    (q.put f o).find g = if g = f then some o else q.find g := by
  by_cases h : g = f
  · simp [QueryOptimizer.put, QueryOptimizer.find, h]
  · have hb : (g == f) = false := by simpa using h
    simp only [QueryOptimizer.put, QueryOptimizer.find, List.lookup_cons, hb, if_neg h]
    exact lookup_filter_ne h

@[simp] theorem find_differentNode (q : QueryOptimizer) : q.differentNode.find f = q.find f := by
  unfold differentNode
  split <;> rfl

@[simp] theorem bestField_differentNode (q : QueryOptimizer) :
    q.differentNode.bestField = q.bestField := by
  unfold differentNode
  split <;> rfl

@[simp] theorem count_differentNode (q : QueryOptimizer) :
    q.differentNode.differentNodeCount = q.differentNodeCount + 1 := by
  unfold differentNode
  split <;> rfl

theorem Scanned.goodNode (h : Scanned indexOf cs q) : Scanned indexOf cs q.goodNode := by
  unfold QueryOptimizer.goodNode
  split
  · exact ⟨h.found, h.missing, h.count, h.best_none, h.best_some, h.best_exact⟩
  · exact h

theorem bounds_snoc_none (h : TreeNode.bound? c = none) : bounds (cs ++ [c]) = bounds cs := by
  simp [bounds, List.filterMap_append, h]

theorem bounds_snoc_some (h : TreeNode.bound? c = some b) :
    bounds (cs ++ [c]) = bounds cs ++ [b] := by
  simp [bounds, List.filterMap_append, h]

/-- A conjunct without a bound adds nothing but perhaps to the count. -/
theorem Scanned.no_bound (h : Scanned indexOf cs q) (hb : TreeNode.bound? c = none)
    (hfind : ∀ f, q'.find f = q.find f) (hbest : q'.bestField = q.bestField)
    (hcount : q'.differentNodeCount = 0 ↔ q.differentNodeCount = 0 ∧ c.isComparison) :
    Scanned indexOf (cs ++ [c]) q' := by
  have hof (f : String) : boundsOf f (cs ++ [c]) = boundsOf f cs := by
    rw [boundsOf, bounds_snoc_none hb]
  refine ⟨?_, ?_, ?_, ?_, ?_, ?_⟩
  · intro f o ho
    rw [hof]
    exact h.found ((hfind f).symm.trans ho)
  · intro f ho hi
    rw [hof]
    exact h.missing ((hfind f).symm.trans ho) hi
  · rw [hcount, h.count, Plain, Plain, bounds_snoc_none hb, List.forall_mem_append,
      List.forall_mem_singleton]
    tauto
  · intro f hn
    rw [hfind]
    exact h.best_none (hbest ▸ hn)
  · intro f hn
    rw [hfind]
    exact h.best_some (hbest ▸ hn)
  · intro f b hn hfe
    rw [firstExact, bounds_snoc_none hb] at hfe
    exact h.best_exact (hbest ▸ hn) hfe

theorem FieldScanned.howRestrictive_lt (h : FieldScanned indexOf f bs o) (hn : o.exact = none) :
    o.howRestrictive < 10 := by
  obtain ⟨used, -, haddr, hmade, -⟩ := h.used
  obtain ⟨b, -, hb, -⟩ | ⟨-, lower, upper, hperm, -⟩ := hmade
  · rw [hn] at hb
    cases hb
  · have hlen := hperm.length_eq
    have hl : lower.toList.length ≤ 1 := by cases lower <;> simp
    have hu : upper.toList.length ≤ 1 := by cases upper <;> simp
    simp only [List.length_append] at hlen
    simp only [OptimizedField.howRestrictive, hn, Option.isSome_none, Bool.false_eq_true, if_false,
      haddr, List.length_map]
    omega

theorem howRestrictive_exact {o : OptimizedField} (h : o.exact.isSome) : o.howRestrictive = 10 := by
  simp [OptimizedField.howRestrictive, h]

theorem FieldScanned.howRestrictive_le (h : FieldScanned indexOf f bs o) :
    o.howRestrictive ≤ 10 := by
  by_cases hn : o.exact = none
  · exact Nat.le_of_lt (h.howRestrictive_lt hn)
  · exact Nat.le_of_eq (howRestrictive_exact (Option.isSome_iff_ne_none.mpr hn))

theorem mem_boundsOf : b ∈ boundsOf f cs ↔ b ∈ bounds cs ∧ b.field = f := by
  simp [boundsOf]

theorem firstExact_snoc (h : TreeNode.bound? c = some b) (hi : (indexOf b.field).isSome) :
    firstExact indexOf (cs ++ [c]) =
      (firstExact indexOf cs).or (if b.op.side = .exact then some b else none) := by
  rw [firstExact, bounds_snoc_some h, List.filter_append, List.find?_append, firstExact]
  congr 1
  by_cases hs : b.op.side = .exact <;> simp [hi, hs]

theorem exists_of_firstExact (h : firstExact indexOf cs = some b) :
    b ∈ boundsOf b.field cs ∧ (indexOf b.field).isSome ∧ b.op.side = .exact := by
  have hmem := List.mem_of_find?_eq_some h
  rw [List.mem_filter] at hmem
  exact ⟨mem_boundsOf.mpr ⟨hmem.1, rfl⟩, hmem.2, by simpa using List.find?_some h⟩

theorem firstExact_ne_none (indexOf : String → Option String) (h : a ∈ boundsOf f cs) (hi : (indexOf f).isSome)
    (hs : a.op.side = .exact) : firstExact indexOf cs ≠ none := by
  obtain ⟨ha, rfl⟩ := mem_boundsOf.mp h
  rw [firstExact, ne_eq, List.find?_eq_none]
  push Not
  exact ⟨a, List.mem_filter.mpr ⟨ha, hi⟩, by simp [hs]⟩

theorem Scanned.field (h : Scanned indexOf cs q) (hi : indexOf f = some index) :
    FieldScanned indexOf f (boundsOf f cs) ((q.find f).getD (.new index)) := by
  cases hf : q.find f with
  | none =>
    rw [h.missing hf (by simp [hi])]
    exact .new hi
  | some o => exact (h.found hf).1

theorem Plain_snoc (indexOf : String → Option String) (cs : List TreeNode)
    (hb : TreeNode.bound? c = some b) :
    Plain indexOf (cs ++ [c]) ↔
      Plain indexOf cs ∧ (indexOf b.field).isSome ∧ ¬ ∃ a ∈ boundsOf b.field cs, a.Repeats b := by
  have hrep : (∃ a ∈ boundsOf b.field cs, a.Repeats b) ↔ ∃ a ∈ bounds cs, a.Repeats b := by
    refine exists_congr fun a => ?_
    rw [mem_boundsOf, and_assoc]
    exact and_congr_right fun _ => and_iff_right_of_imp fun hr => hr.1
  rw [hrep]
  simp only [Plain, bounds_snoc_some hb, List.forall_mem_append, List.forall_mem_singleton,
    isComparison_of_bound? hb, List.pairwise_append, List.pairwise_singleton, not_exists, not_and]
  tauto

/-- The rest of the scan state after the field of a bound was updated. -/
theorem Scanned.put (h : Scanned indexOf cs q) (hb : TreeNode.bound? c = some b)
    (ho : FieldScanned indexOf b.field (boundsOf b.field (cs ++ [c])) o)
    (hfind : ∀ f, q'.find f = if f = b.field then some o else q.find f)
    (hcount : q'.differentNodeCount = 0 ↔ Plain indexOf (cs ++ [c]))
    (hbest : q'.bestField = q.bestField ∧ q.bestField ≠ none ∨ q'.bestField = some b.field)
    (hexact : ∀ f b, q'.bestField = some f → firstExact indexOf (cs ++ [c]) = some b → b.field = f) :
    Scanned indexOf (cs ++ [c]) q' := by
  have hof (f : String) (hf : f ≠ b.field) : boundsOf f (cs ++ [c]) = boundsOf f cs := by
    rw [boundsOf, bounds_snoc_some hb, List.filter_append]
    simp [Ne.symm hf]
  refine ⟨?_, ?_, hcount, ?_, ?_, fun {f b} => hexact f b⟩
  · intro f o' hf
    rw [hfind] at hf
    split at hf
    · rename_i hfb
      cases hf
      rw [hfb]
      refine ⟨ho, List.ne_nil_of_mem (a := b) ?_⟩
      rw [mem_boundsOf, bounds_snoc_some hb]
      simp
    · rename_i hfb
      rw [hof f hfb]
      exact h.found hf
  · intro f hf hi
    rw [hfind] at hf
    split at hf
    · cases hf
    · rename_i hfb
      rw [hof f hfb]
      exact h.missing hf hi
  · intro f hn
    rcases hbest with ⟨heq, hne⟩ | hs
    · exact absurd (heq ▸ hn) hne
    · rw [hs] at hn
      cases hn
  · intro f hf
    rw [hfind]
    split
    · exact ⟨o, rfl⟩
    · rename_i hfb
      rcases hbest with ⟨heq, -⟩ | hs
      · exact h.best_some (heq ▸ hf)
      · rw [hs] at hf
        exact absurd (Option.some.inj hf).symm hfb

theorem Scanned.not_indexed (h : Scanned indexOf cs q) (hb : TreeNode.bound? c = some b)
    (hi : indexOf b.field = none) : Scanned indexOf (cs ++ [c]) q.differentNode := by
  have hof (f : String) (hf : (indexOf f).isSome) : boundsOf f (cs ++ [c]) = boundsOf f cs := by
    have hne : b.field ≠ f := by
      rintro rfl
      simp [hi] at hf
    rw [boundsOf, bounds_snoc_some hb, List.filter_append]
    simp [hne]
  have hfirst : firstExact indexOf (cs ++ [c]) = firstExact indexOf cs := by
    rw [firstExact, bounds_snoc_some hb, List.filter_append]
    simp [hi, firstExact]
  refine ⟨?_, ?_, ?_, ?_, ?_, ?_⟩
  · intro f o hf
    rw [find_differentNode] at hf
    rw [hof f (by simp [(h.found hf).1.named])]
    exact h.found hf
  · intro f hf hs
    rw [hof f hs]
    exact h.missing (by simpa using hf) hs
  · rw [count_differentNode, Plain_snoc _ _ hb, hi]
    simp
  · intro f hf
    simpa using h.best_none (by simpa using hf)
  · intro f hf
    simpa using h.best_some (by simpa using hf)
  · intro f b hf
    rw [hfirst]
    exact h.best_exact (by simpa using hf)

/-- Against another best field, the updated one wins exactly with the first
equality of the query. -/
theorem Scanned.improves (h : Scanned indexOf cs q) (hb : TreeNode.bound? c = some b)
    (ho : FieldScanned indexOf b.field (boundsOf b.field (cs ++ [c])) o)
    (hg : q.bestField = some g) (hog : q.find g = some og)
    (he : firstExact indexOf (cs ++ [c]) = some e) :
    e.field = if o.howRestrictive > og.howRestrictive then b.field else g := by
  have hogs := (h.found hog).1
  rw [firstExact_snoc hb (by simp [ho.named])] at he
  cases hfirst : firstExact indexOf cs with
  | some e' =>
    rw [hfirst, Option.some_or] at he
    have heg := h.best_exact hg (hfirst.trans he)
    obtain ⟨hmem, -, hs⟩ := exists_of_firstExact (hfirst.trans he)
    have hten := howRestrictive_exact (hogs.exact_iff.mpr ⟨e, heg ▸ hmem, hs⟩)
    have hle := ho.howRestrictive_le
    rw [if_neg (by omega), heg]
  | none =>
    rw [hfirst, Option.none_or] at he
    split at he
    · rename_i hs
      cases he
      have hten : o.howRestrictive = 10 := by
        refine howRestrictive_exact (ho.exact_iff.mpr ⟨b, ?_, hs⟩)
        simp [hb]
      have hlt := hogs.howRestrictive_lt (by
        by_contra hn
        obtain ⟨a, ha, has⟩ := hogs.exact_iff.mp (Option.isSome_iff_ne_none.mpr hn)
        exact firstExact_ne_none _ ha (by simp [hogs.named]) has hfirst)
      rw [if_pos (by omega)]
    · cases he

theorem Scanned.accept (h : Scanned indexOf cs q) (hb : TreeNode.bound? c = some b)
    (ho : FieldScanned indexOf b.field (boundsOf b.field (cs ++ [c])) o)
    (hcount : q.differentNodeCount = 0 ↔ Plain indexOf (cs ++ [c])) :
    Scanned indexOf (cs ++ [c]) ((q.put b.field o).preferField b.field o) := by
  unfold QueryOptimizer.preferField
  have hfind (f : String) : (q.put b.field o).find f = if f = b.field then some o else q.find f :=
    find_put q
  have hb' : (q.put b.field o).bestField = q.bestField := rfl
  cases hg : q.bestField with
  | none =>
    rw [hb', hg, Option.bind_none]
    refine h.put hb ho hfind hcount (.inr rfl) ?_
    intro f e hf he
    cases hf
    rw [firstExact_snoc hb (by simp [ho.named])] at he
    cases hfirst : firstExact indexOf cs with
    | some e' =>
      obtain ⟨hmem, hi, -⟩ := exists_of_firstExact hfirst
      rw [h.missing (h.best_none hg) hi] at hmem
      cases hmem
    | none =>
      rw [hfirst, Option.none_or] at he
      split at he <;> cases he
      rfl
  | some g =>
    obtain ⟨og, hog⟩ := h.best_some hg
    rw [hb', hg, Option.bind_some, hfind]
    by_cases hgb : g = b.field
    · rw [if_pos hgb]
      dsimp only
      rw [if_neg (Nat.lt_irrefl _)]
      refine h.put hb ho hfind hcount (.inr (by rw [hb', hg, hgb])) ?_
      intro f e hf he
      rw [hb', hg] at hf
      cases hf
      rw [firstExact_snoc hb (by simp [ho.named]), Option.or_eq_some_iff] at he
      rcases he with he | ⟨-, he⟩
      · exact h.best_exact hg he
      · split at he <;> cases he
        exact hgb.symm
    · rw [if_neg hgb, hog]
      dsimp only
      have himp := fun e => h.improves (e := e) hb ho hg hog
      split
      · rename_i hgt
        refine h.put hb ho hfind hcount (.inr rfl) ?_
        intro f e hf he
        cases hf
        rw [himp e he, if_pos hgt]
      · rename_i hgt
        refine h.put hb ho hfind hcount (.inl ⟨rfl, by simp [hg]⟩) ?_
        intro f e hf he
        rw [hb', hg] at hf
        cases hf
        rw [himp e he, if_neg hgt]

theorem Scanned.reject (h : Scanned indexOf cs q) (hb : TreeNode.bound? c = some b)
    (ho : FieldScanned indexOf b.field (boundsOf b.field (cs ++ [c])) o)
    (hrep : ∃ a ∈ boundsOf b.field cs, a.Repeats b) :
    Scanned indexOf (cs ++ [c]) (q.put b.field o).differentNode := by
  have hi : (indexOf b.field).isSome := by simp [ho.named]
  have hbest : (q.put b.field o).differentNode.bestField = q.bestField := by
    rw [bestField_differentNode]
    rfl
  obtain ⟨a, ha, hr⟩ := hrep
  have hsome : q.bestField ≠ none := by
    intro hn
    rw [h.missing (h.best_none hn) hi] at ha
    cases ha
  refine h.put hb ho (by simp) ?_ (.inl ⟨hbest, hsome⟩) ?_
  · rw [count_differentNode, Plain_snoc _ _ hb]
    exact iff_of_false (by simp) fun hp => hp.2.2 ⟨a, ha, hr⟩
  · intro f e hf he
    rw [hbest] at hf
    rw [firstExact_snoc hb hi, Option.or_eq_some_iff] at he
    rcases he with he | ⟨hnone, he⟩
    · exact h.best_exact hf he
    · split at he
      · rename_i hs
        exact absurd hnone (firstExact_ne_none _ ha hi (hr.2.elim id fun heq => heq.trans hs))
      · cases he

theorem Scanned.checkComparison (h : Scanned indexOf cs q) (hb : TreeNode.bound? c = some b) :
    Scanned indexOf (cs ++ [c])
      (checkComparison indexOf q (.name b.field) (.literal b.address b.value) b.op) := by
  unfold QueryOptimizer.checkComparison
  dsimp only
  cases hi : indexOf b.field with
  | none => exact h.not_indexed hb hi
  | some index =>
    have hbs : boundsOf b.field (cs ++ [c]) = boundsOf b.field cs ++ [b] := by
      simp [boundsOf, bounds_snoc_some hb]
    have hfield := (h.field hi).addBound (b := b) (fun a ha => (mem_boundsOf.mp ha).2)
    rw [← hbs] at hfield
    dsimp only
    generalize ((q.find b.field).getD (.new index)).addBound b.address b.value b.op = r
      at hfield ⊢
    obtain ⟨used, o⟩ := r
    obtain ⟨hscan, hused⟩ := hfield
    have hplain := Plain_snoc indexOf cs hb
    rw [← hused, hi] at hplain
    cases used with
    | false => exact h.reject hb hscan (hused.mp rfl)
    | true => exact h.accept hb hscan (by simpa [hplain] using h.count)

/-- A comparison of anything but a field with a literal is passed over without
being counted. -/
theorem checkComparison_of_bound?_none (h : TreeNode.bound? (.algOp (.comp op) l r) = none) :
    checkComparison indexOf (checkComparison indexOf q l r op) r l (opposite op) = q := by
  unfold TreeNode.bound? at h
  cases l <;> cases r <;> first | rfl | cases h

theorem checkComparison_of_bound?_some (h : TreeNode.bound? (.algOp (.comp op) l r) = some b) :
    checkComparison indexOf (checkComparison indexOf q l r op) r l (opposite op) =
      checkComparison indexOf q (.name b.field) (.literal b.address b.value) b.op := by
  unfold TreeNode.bound? at h
  cases l <;> cases r <;> first | (cases h; rfl) | cases h

theorem Scanned.conjunct (h : Scanned indexOf cs q)
    (hand : ∀ l r, t = TreeNode.algOp .boolAnd l r → False) :
    Scanned indexOf (cs ++ [t]) (findPossibleFields indexOf q t) := by
  by_cases hcmp : t.isComparison
  · obtain ⟨op, l, r, rfl⟩ : ∃ op l r, t = .algOp (.comp op) l r := by
      unfold TreeNode.isComparison at hcmp
      split at hcmp
      · exact ⟨_, _, _, rfl⟩
      · cases hcmp
    rw [QueryOptimizer.findPossibleFields]
    cases hb : TreeNode.bound? (.algOp (.comp op) l r) with
    | none =>
      rw [checkComparison_of_bound?_none hb]
      exact h.goodNode.no_bound hb (fun _ => rfl) rfl (by simp [hcmp])
    | some b =>
      rw [checkComparison_of_bound?_some hb]
      exact h.goodNode.checkComparison hb
  · have hdiff : QueryOptimizer.findPossibleFields indexOf q t = q.differentNode := by
      refine QueryOptimizer.findPossibleFields.eq_3 indexOf q t hand fun op l r ht => ?_
      rw [ht] at hcmp
      exact hcmp rfl
    have hb : t.bound? = none := by
      rw [Option.eq_none_iff_forall_ne_some]
      intro b hb
      exact hcmp (isComparison_of_bound? hb)
    rw [hdiff]
    exact h.no_bound hb (by simp) (by simp) (by simp [hcmp])

/-- The scan goes over the conjuncts from left to right. -/
theorem Scanned.findPossibleFields (h : Scanned indexOf cs q) :
    Scanned indexOf (cs ++ t.conjuncts) (findPossibleFields indexOf q t) := by
  induction t using TreeNode.conjuncts.induct generalizing cs q with
  | case1 l r ihl ihr =>
    rw [TreeNode.conjuncts, ← List.append_assoc, QueryOptimizer.findPossibleFields]
    exact ihr (ihl h.goodNode)
  | case2 t hand =>
    rw [TreeNode.conjuncts.eq_2 t hand]
    exact h.conjunct hand

/-- The first node of the scan decides whether an optimisation is made. -/
def Decided (b : Bool) (q : QueryOptimizer) : Prop := q.firstUpdate = false ∧ q.correctNode = b

theorem Decided.goodNode (h : Decided b q) : Decided b q.goodNode := by
  simpa [QueryOptimizer.goodNode, h.1] using h

theorem Decided.differentNode (h : Decided b q) : Decided b q.differentNode := by
  simpa [QueryOptimizer.differentNode, h.1, Decided] using h.2

theorem Decided.checkComparison (h : Decided b q) :
    Decided b (checkComparison indexOf q field value op) := by
  unfold QueryOptimizer.checkComparison
  split
  · split
    · exact h.differentNode
    · dsimp only
      split
      · unfold preferField
        repeat' split
        all_goals exact h
      · exact Decided.differentNode h
  · exact h

theorem Decided.findPossibleFields (h : Decided b q) : Decided b (findPossibleFields indexOf q t) := by
  induction t using TreeNode.conjuncts.induct generalizing q with
  | case1 l r ihl ihr => exact ihr (ihl h.goodNode)
  | case2 t hand =>
    unfold QueryOptimizer.findPossibleFields
    split
    · exact absurd rfl (hand _ _)
    · exact h.goodNode.checkComparison.checkComparison
    · exact h.differentNode

end Loxim.Indexes
