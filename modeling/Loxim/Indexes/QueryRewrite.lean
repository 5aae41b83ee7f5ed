import Mathlib.Data.List.Flatten
import Mathlib.Data.List.Nodup
import Mathlib.Data.List.Pairwise
import Loxim.Indexes.QueryScan

/-!
# The rewritten query against the query

Query and rewritten query are compared on every row. A row fixes the value of
every operand and the comparison of values, so two queries that agree on all
rows ask for the same conjuncts.
-/

namespace Loxim.Indexes

open QueryOptimizer

-- ---------------------------------------------------------------------------
-- Meaning
-- ---------------------------------------------------------------------------

/-- An object of the root: the values of its fields, of literals and of every
other operand, and the truth of every conjunct that compares nothing. The
comparison of values is free but for the two ways to write it. -/
structure Row (V : Type) where
  field : String → V
  literal : Literal → V
  expr : TreeNode → V
  test : TreeNode → Prop
  cmp : CompOp → V → V → Prop
  cmp_opposite : cmp op a b ↔ cmp (opposite op) b a

namespace Row

variable {V : Type} (row : Row V)

def value : TreeNode → V
  | .name f => row.field f
  | .literal _ v => row.literal v
  | t => row.expr t

def holds : TreeNode → Prop
  | .algOp .boolAnd larg rarg => holds larg ∧ holds rarg
  | .algOp (.comp op) larg rarg => row.cmp op (row.value larg) (row.value rarg)
  | t => row.test t

def bound (b : Bound) : Prop := row.cmp b.op (row.field b.field) (row.literal b.value)

def lower (f : String) (b : IndexBoundaryNode) : Prop :=
  row.cmp (if b.inclusive then .ge else .gt) (row.field f) (row.literal b.value)

def upper (f : String) (b : IndexBoundaryNode) : Prop :=
  row.cmp (if b.inclusive then .le else .lt) (row.field f) (row.literal b.value)

/-- The key interval of a selection. -/
def within (f : String) : Constraints → Prop
  | .exact v => row.cmp .eq (row.field f) (row.literal v)
  | .twoSide l r => row.lower f l ∧ row.upper f r
  | .leftBounded l => row.lower f l
  | .rightBounded r => row.upper f r

/-- The query yields this object of `rootName`. An index selection yields the
objects whose value in the field of the index lies in the interval. -/
def chosen (im : IndexManager) (rootName : String) : TreeNode → Prop
  | .nonAlgOp .where larg rarg => chosen im rootName larg ∧ row.holds rarg
  | .name n => n = rootName
  | .indexSelect s =>
    ∃ f, im.getIndexFromField rootName f = some s.indexName ∧ row.within f s.constraints
  | t => row.test t

theorem holds_iff_conjuncts (t : TreeNode) : row.holds t ↔ ∀ c ∈ t.conjuncts, row.holds c := by
  induction t using TreeNode.conjuncts.induct with
  | case1 l r ihl ihr =>
    rw [holds, TreeNode.conjuncts, ihl, ihr, List.forall_mem_append]
  | case2 t h => rw [TreeNode.conjuncts.eq_2 t h, List.forall_mem_singleton]

theorem holds_bound? (h : TreeNode.bound? c = some b) : row.holds c ↔ row.bound b := by
  unfold TreeNode.bound? at h
  split at h
  · cases h
    rfl
  · cases h
    exact row.cmp_opposite
  · cases h

end Row

-- ---------------------------------------------------------------------------
-- Cutting bounds out of the tree
-- ---------------------------------------------------------------------------

theorem conjuncts_of_isParent (h : isParent v t = true) : t.conjuncts = [t] := by
  refine TreeNode.conjuncts.eq_2 t fun l r ht => ?_
  rw [ht] at h
  cases h

theorem isParent_eq_false (h : ∀ c ∈ t.conjuncts, isParent v c = false) :
    isParent v t = false := by
  by_contra hp
  rw [Bool.not_eq_false] at hp
  rw [conjuncts_of_isParent hp, List.forall_mem_singleton, hp] at h
  cases h

/-- Different literals are arguments of one comparison only. -/
theorem not_isParent_of_disjoint {cs ds : List TreeNode}
    (h : (cs.flatMap TreeNode.literals).Disjoint (ds.flatMap TreeNode.literals))
    (hc : c ∈ cs) (hp : isParent v c = true) : ∀ d ∈ ds, isParent v d = false := by
  intro d hd
  by_contra hn
  rw [Bool.not_eq_false] at hn
  exact h (List.mem_flatMap.mpr ⟨c, hc, mem_literals_of_isParent hp⟩)
    (List.mem_flatMap.mpr ⟨d, hd, mem_literals_of_isParent hn⟩)

theorem cutOff_eq_none (h : ∀ c ∈ t.conjuncts, isParent v c = false) : cutOff v t = none := by
  induction t using TreeNode.conjuncts.induct with
  | case1 l r ihl ihr =>
    rw [TreeNode.conjuncts, List.forall_mem_append] at h
    rw [cutOff, isParent_eq_false h.1, isParent_eq_false h.2, ihl h.1, ihr h.2]
    rfl
  | case2 t hand => exact cutOff.eq_2 v t hand

/-- One comparison goes, all others stay in their order. -/
theorem cutOff_eq_some (hn : t.literals.Nodup) (hc : c ∈ t.conjuncts) (hp : isParent v c = true)
    (hne : t ≠ c) :
    ∃ t', cutOff v t = some t' ∧ t'.conjuncts = t.conjuncts.filter (!isParent v ·) := by
  induction t using TreeNode.conjuncts.induct with
  | case1 l r ihl ihr =>
    rw [literals_eq_flatMap, TreeNode.conjuncts, List.flatMap_append, List.nodup_append'] at hn
    obtain ⟨hnl, hnr, hdisj⟩ := hn
    have hkeep {cs : List TreeNode} (h : ∀ d ∈ cs, isParent v d = false) :
        cs.filter (!isParent v ·) = cs := by
      rw [List.filter_eq_self]
      intro d hd
      simp [h d hd]
    rw [TreeNode.conjuncts, List.mem_append] at hc
    rw [cutOff, TreeNode.conjuncts, List.filter_append]
    rcases hc with hc | hc
    · have hr := not_isParent_of_disjoint hdisj hc hp
      rw [hkeep hr]
      by_cases hl : isParent v l = true
      · refine ⟨r, by rw [if_pos hl], ?_⟩
        simp [conjuncts_of_isParent hl, hl]
      · have hlc : l ≠ c := by
          rintro rfl
          exact hl hp
        obtain ⟨l', hcut, hconj⟩ := ihl (by rwa [literals_eq_flatMap]) hc hlc
        refine ⟨.algOp .boolAnd l' r, ?_, ?_⟩
        · simp [hl, isParent_eq_false hr, hcut]
        · rw [TreeNode.conjuncts, hconj]
    · have hl := not_isParent_of_disjoint (fun a ha hb => hdisj hb ha) hc hp
      have hl' := isParent_eq_false hl
      rw [hkeep hl]
      by_cases hr : isParent v r = true
      · refine ⟨l, by simp [hl', hr], ?_⟩
        simp [conjuncts_of_isParent hr, hr]
      · have hrc : r ≠ c := by
          rintro rfl
          exact hr hp
        obtain ⟨r', hcut, hconj⟩ := ihr (by rwa [literals_eq_flatMap]) hc hrc
        refine ⟨.algOp .boolAnd l r', ?_, ?_⟩
        · simp [hl', hr, cutOff_eq_none hl, hcut]
        · rw [TreeNode.conjuncts, hconj]
  | case2 t hand =>
    rw [TreeNode.conjuncts.eq_2 t hand, List.mem_singleton] at hc
    exact absurd hc.symm hne

/-- All used bounds go, as long as some conjunct stays. -/
theorem foldlM_cutOff {used : List Bound} {t : TreeNode} (hn : t.literals.Nodup)
    (hused : ∀ b ∈ used, ∃ c ∈ t.conjuncts, c.bound? = some b)
    (haddr : (used.map Bound.address).Nodup)
    (hstay : ∃ c ∈ t.conjuncts, ∀ b ∈ used, isParent b.address c = false) :
    ∃ t', (used.map Bound.address).foldlM (fun t value => cutOff value t) t = some t' ∧
      t'.conjuncts = t.conjuncts.filter fun c => used.all fun b => !isParent b.address c := by
  induction used generalizing t with
  | nil => exact ⟨t, rfl, by simp⟩
  | cons b used ih =>
    obtain ⟨c, hc, hb⟩ := hused b (by simp)
    obtain ⟨d, hd, hdstay⟩ := hstay
    have hp : isParent b.address c = true := (isParent_iff_of_bound? hb).mpr rfl
    have hne : t ≠ c := by
      rintro rfl
      rw [conjuncts_of_isParent hp, List.mem_singleton] at hd
      have := hdstay b (by simp)
      rw [hd, hp] at this
      cases this
    obtain ⟨t', hcut, hconj⟩ := cutOff_eq_some hn hc hp hne
    rw [List.map_cons, List.nodup_cons] at haddr
    have hn' : t'.literals.Nodup := by
      rw [literals_eq_flatMap] at hn
      rw [literals_eq_flatMap, hconj]
      exact hn.sublist (List.filter_sublist.flatMap _)
    have hused' : ∀ b' ∈ used, ∃ c ∈ t'.conjuncts, c.bound? = some b' := by
      intro b' hb'
      obtain ⟨c', hc', hbc'⟩ := hused b' (by simp [hb'])
      -- another bound of the list has another address
      have hab : b.address ≠ b'.address := by
        intro heq
        exact haddr.1 (heq ▸ List.mem_map_of_mem hb')
      refine ⟨c', ?_, hbc'⟩
      rw [hconj, List.mem_filter]
      refine ⟨hc', ?_⟩
      rw [Bool.not_eq_true', ← Bool.not_eq_true, isParent_iff_of_bound? hbc']
      exact hab
    have hstay' : ∃ c ∈ t'.conjuncts, ∀ b' ∈ used, isParent b'.address c = false := by
      refine ⟨d, ?_, fun b' hb' => hdstay b' (by simp [hb'])⟩
      rw [hconj, List.mem_filter]
      exact ⟨hd, by simp [hdstay b (by simp)]⟩
    obtain ⟨t'', hfold, hconj'⟩ := ih hn' hused' haddr.2 hstay'
    refine ⟨t'', ?_, ?_⟩
    · rw [List.map_cons, List.foldlM_cons, hcut]
      exact hfold
    · rw [hconj', hconj, List.filter_filter]
      congr 1
      funext e
      rw [List.all_cons, Bool.and_comm]

-- ---------------------------------------------------------------------------
-- The selection
-- ---------------------------------------------------------------------------

theorem Row.bound_eq {row : Row V} (h : b.op = .eq) :
    row.bound b ↔ row.within b.field (.exact b.value) := by
  rw [Row.bound, h]
  rfl

theorem Row.bound_lower {row : Row V} (h : b.op.side = .lower) :
    row.bound b ↔ row.lower b.field b.boundary := by
  cases hop : b.op <;> simp [hop, CompOp.side] at h <;>
    simp [Row.bound, Row.lower, Bound.boundary, hop]

theorem Row.bound_upper {row : Row V} (h : b.op.side = .upper) :
    row.bound b ↔ row.upper b.field b.boundary := by
  cases hop : b.op <;> simp [hop, CompOp.side] at h <;>
    simp [Row.bound, Row.upper, Bound.boundary, hop]

/-- The selection asks for the used bounds and nothing else. -/
theorem OptimizedField.MadeOf.select (h : OptimizedField.MadeOf o used) (hne : used ≠ [])
    (hf : ∀ b ∈ used, b.field = f) :
    ∃ s, o.getSelectNode = some s ∧ s.indexName = o.indexName ∧
      ∀ (V : Type) (row : Row V), row.within f s.constraints ↔ ∀ b ∈ used, row.bound b := by
  obtain ⟨b, hb, he, rfl⟩ | ⟨hn, lower, upper, hperm, hgt, hlt, hlow, hup⟩ := h
  · refine ⟨⟨o.indexName, .exact b.value⟩, by simp [OptimizedField.getSelectNode, he], rfl, ?_⟩
    intro V row
    rw [List.forall_mem_singleton, Row.bound_eq hb, hf b (by simp)]
  · have hmem (b : Bound) : b ∈ used ↔ b ∈ lower ∨ b ∈ upper := by
      rw [hperm.mem_iff, List.mem_append, Option.mem_toList, Option.mem_toList]
      rfl
    have hl (V : Type) (row : Row V) (b : Bound) (hb : b ∈ lower) :
        row.bound b ↔ row.lower f b.boundary := by
      rw [Row.bound_lower (hlow b hb), hf b ((hmem b).mpr (.inl hb))]
    have hu (V : Type) (row : Row V) (b : Bound) (hb : b ∈ upper) :
        row.bound b ↔ row.upper f b.boundary := by
      rw [Row.bound_upper (hup b hb), hf b ((hmem b).mpr (.inr hb))]
    have hall (V : Type) (row : Row V) :
        (∀ b ∈ used, row.bound b) ↔ (∀ b ∈ lower, row.lower f b.boundary) ∧
          ∀ b ∈ upper, row.upper f b.boundary := by
      simp only [hmem, or_imp, forall_and]
      exact and_congr (forall₂_congr fun b hb => hl V row b hb)
        (forall₂_congr fun b hb => hu V row b hb)
    cases lower with
    | none =>
      cases upper with
      | none => exact absurd (List.perm_nil.mp hperm) hne
      | some u =>
        refine ⟨⟨o.indexName, .rightBounded u.boundary⟩, ?_, rfl, ?_⟩
        · simp [OptimizedField.getSelectNode, hn, hgt, hlt]
        · intro V row
          simp [hall, Row.within]
    | some l =>
      cases upper with
      | none =>
        refine ⟨⟨o.indexName, .leftBounded l.boundary⟩, ?_, rfl, ?_⟩
        · simp [OptimizedField.getSelectNode, hn, hgt, hlt]
        · intro V row
          simp [hall, Row.within]
      | some u =>
        refine ⟨⟨o.indexName, .twoSide l.boundary u.boundary⟩, ?_, rfl, ?_⟩
        · simp [OptimizedField.getSelectNode, hn, hgt, hlt]
        · intro V row
          simp [hall, Row.within]

/-- Two used bounds never repeat each other. -/
theorem OptimizedField.MadeOf.pairwise (h : OptimizedField.MadeOf o used) :
    used.Pairwise (¬ Bound.Repeats · ·) := by
  obtain ⟨b, -, -, rfl⟩ | ⟨-, lower, upper, hperm, -, -, hlow, hup⟩ := h
  · simp
  · have hsides : used.Pairwise fun a b => a.op.side ≠ b.op.side ∧
        a.op.side ≠ .exact ∧ b.op.side ≠ .exact := by
      refine (hperm.pairwise_iff ?_).mpr ?_
      · rintro a b ⟨hab, ha, hb⟩
        exact ⟨hab.symm, hb, ha⟩
      · cases lower <;> cases upper <;> simp_all
    refine hsides.imp ?_
    rintro a b ⟨hab, ha, -⟩ ⟨-, hr⟩
    exact hr.elim ha hab

-- ---------------------------------------------------------------------------
-- The rewrite
-- ---------------------------------------------------------------------------

/-- A query `rootName where pred`. The literals of a tree are nodes of their own. -/
structure WhereQuery where
  rootName : String
  pred : TreeNode
  literals_nodup : pred.literals.Nodup

namespace WhereQuery

def tree (w : WhereQuery) : TreeNode := .nonAlgOp .where (.name w.rootName) w.pred

/-- The same objects of the root are chosen, whatever they are. -/
def RewrittenTo (im : IndexManager) (w : WhereQuery) (t : TreeNode) : Prop :=
  ∀ (V : Type) (row : Row V), row.chosen im w.rootName t ↔ row.chosen im w.rootName w.tree

/-- The field of the first equality has a bound before it. -/
def Overridden (cs : List TreeNode) : Prop :=
  ∃ b a, (bounds cs).find? (·.op.side == .exact) = some b ∧
    (boundsOf b.field cs).head? = some a ∧ a.op.side ≠ .exact

/-- Once a field with an index is compared with a literal, some conjunct forces
a `where` to be kept, or all conjuncts bound one field. -/
def Covered (im : IndexManager) (w : WhereQuery) : Prop :=
  im.rootIndexed w.rootName →
    (∃ b ∈ bounds w.pred.conjuncts, (im.getIndexFromField w.rootName b.field).isSome) →
      ¬ Plain (im.getIndexFromField w.rootName) w.pred.conjuncts ∨ Overridden w.pred.conjuncts ∨
        ∃ f, ∀ c ∈ w.pred.conjuncts, ∃ b, c.bound? = some b ∧ b.field = f

end WhereQuery

theorem Row.chosen_tree {row : Row V} {w : WhereQuery} :
    row.chosen im w.rootName w.tree ↔ row.holds w.pred := by
  simp [WhereQuery.tree, Row.chosen]

theorem Scanned.rejected_iff (h : Scanned indexOf cs q) (hp : Plain indexOf cs)
    (hbest : q.bestField = some f) (hfind : q.find f = some o) :
    o.boundsRejected ↔ WhereQuery.Overridden cs := by
  have hfirst : firstExact indexOf cs = (bounds cs).find? (·.op.side == .exact) := by
    rw [firstExact, List.filter_eq_self.mpr hp.2.1]
  have hs := (h.found hfind).1
  rw [hs.rejected_iff, WhereQuery.Overridden]
  constructor
  · rintro ⟨⟨e, he, hes⟩, a, ha, has⟩
    have hne := firstExact_ne_none indexOf he (by simp [hs.named]) hes
    obtain ⟨b, hb⟩ := Option.ne_none_iff_exists'.mp hne
    have hbf := h.best_exact hbest hb
    exact ⟨b, a, hfirst ▸ hb, hbf ▸ ha, has⟩
  · rintro ⟨b, a, hb, ha, has⟩
    rw [← hfirst] at hb
    obtain ⟨hmem, -, hbs⟩ := exists_of_firstExact hb
    have hbf := h.best_exact hbest hb
    rw [hbf] at hmem ha
    exact ⟨⟨b, hmem, hbs⟩, a, ha, has⟩

/-- If the used bounds are all there is, nothing was counted. -/
theorem FieldScanned.used_all {used : List Bound}
    (h : FieldScanned indexOf f (boundsOf f cs) o) (hused : used.Sublist (boundsOf f cs)) (hmade : o.MadeOf used)
    (haddr : (bounds cs).Nodup) (hall : ∀ c ∈ cs, ∃ b ∈ used, c.bound? = some b) :
    Plain indexOf cs ∧ ¬ WhereQuery.Overridden cs := by
  have hbounds : used = bounds cs := by
    refine (hused.trans List.filter_sublist).eq_of_length_le (haddr.length_le_of_subset ?_)
    intro b hb
    obtain ⟨c, hc, hcb⟩ := List.mem_filterMap.mp hb
    obtain ⟨b', hb', hcb'⟩ := hall c hc
    rw [hcb] at hcb'
    cases hcb'
    exact hb'
  refine ⟨⟨?_, ?_, hbounds ▸ hmade.pairwise⟩, ?_⟩
  · intro c hc
    obtain ⟨b, -, hb⟩ := hall c hc
    exact isComparison_of_bound? hb
  · intro b hb
    rw [(mem_boundsOf.mp (hused.subset (hbounds ▸ hb))).2, h.named]
    rfl
  · rintro ⟨b, a, hb, ha, has⟩
    have hbm : b ∈ used := hbounds ▸ List.mem_of_find?_eq_some hb
    have ham : a ∈ used := by
      have := List.mem_of_mem_head? ha
      exact hbounds ▸ (mem_boundsOf.mp this).1
    have hbs : b.op.side = .exact := by simpa using List.find?_some hb
    obtain ⟨e, he, -, rfl⟩ | ⟨-, lower, upper, hperm, -, -, hlow, hup⟩ := hmade
    · rw [List.mem_singleton.mp ham, he] at has
      exact has rfl
    · rw [hperm.mem_iff, List.mem_append, Option.mem_toList, Option.mem_toList] at hbm
      rcases hbm with hbm | hbm
      · rw [hlow b hbm] at hbs
        cases hbs
      · rw [hup b hbm] at hbs
        cases hbs

theorem addresses_sublist (cs : List TreeNode) :
    ((bounds cs).map Bound.address).Sublist (cs.flatMap TreeNode.literals) := by
  induction cs with
  | nil => simp
  | cons c cs ih =>
    rw [List.flatMap_cons]
    cases hb : c.bound? with
    | none =>
      rw [bounds, List.filterMap_cons_none hb]
      exact ih.trans (List.sublist_append_right _ _)
    | some b =>
      have hlit : c.literals = [b.address] := by
        unfold TreeNode.bound? at hb
        split at hb <;> cases hb <;> rfl
      rw [bounds, List.filterMap_cons_some hb, hlit]
      exact ih.cons_cons _

theorem eq_of_mem_literals {cs : List TreeNode} {c d : TreeNode} (h : (cs.flatMap TreeNode.literals).Nodup) 
    (hc : c ∈ cs) (hd : d ∈ cs) (hvc : v ∈ c.literals) (hvd : v ∈ d.literals) : c = d := by
  by_contra hne
  have hpair := (List.nodup_flatMap.mp h).2
  have hsymm : Std.Symm (Function.onFun List.Disjoint TreeNode.literals) := 
    ⟨fun a b hab v ha hb => hab hb ha⟩
  exact hpair.forall hc hd hne hvc hvd

/-- With a `where` kept, selection and remaining conjuncts make up the query. -/
theorem keep_where {w : WhereQuery} {used : List Bound}
    (hused : used.Sublist (bounds w.pred.conjuncts))
    (hstay : ∃ c ∈ w.pred.conjuncts, ∀ b ∈ used, isParent b.address c = false) :
    ∃ rest, (used.map Bound.address).foldlM (fun t value => cutOff value t) w.pred = some rest ∧
      ∀ (V : Type) (row : Row V),
        row.holds w.pred ↔ (∀ b ∈ used, row.bound b) ∧ row.holds rest := by
  have hn := w.literals_nodup
  rw [literals_eq_flatMap] at hn
  have hconj (b : Bound) (hb : b ∈ used) : ∃ c ∈ w.pred.conjuncts, c.bound? = some b :=
    List.mem_filterMap.mp (hused.subset hb)
  have haddr : (used.map Bound.address).Nodup :=
    hn.sublist ((hused.map _).trans (addresses_sublist _))
  obtain ⟨rest, hfold, hrest⟩ := foldlM_cutOff w.literals_nodup hconj haddr hstay
  refine ⟨rest, hfold, fun V row => ?_⟩
  rw [row.holds_iff_conjuncts, row.holds_iff_conjuncts rest, hrest]
  simp only [List.mem_filter, List.all_eq_true, Bool.not_eq_true']
  constructor
  · intro h
    refine ⟨fun b hb => ?_, fun c hc => h c hc.1⟩
    obtain ⟨c, hc, hcb⟩ := hconj b hb
    exact (row.holds_bound? hcb).mp (h c hc)
  · rintro ⟨hbs, hrs⟩ c hc
    by_cases hstays : ∀ b ∈ used, isParent b.address c = false
    · exact hrs c ⟨hc, hstays⟩
    · push Not at hstays
      obtain ⟨b, hb, hp⟩ := hstays
      rw [ne_eq, Bool.not_eq_false] at hp
      obtain ⟨d, hd, hdb⟩ := hconj b hb
      have hpd := (isParent_iff_of_bound? (v := b.address) hdb).mpr rfl
      rw [eq_of_mem_literals hn hc hd (mem_literals_of_isParent hp) (mem_literals_of_isParent hpd),
        row.holds_bound? hdb]
      exact hbs b hb

/-- The value of an operand that tells operands apart. -/
def TreeNode.freeValue : TreeNode → String ⊕ Literal ⊕ TreeNode
  | .name f => .inl f
  | .literal _ v => .inr (.inl v)
  | t => .inr (.inr t)

/-- A row on which one comparison fails, in both its spellings, and everything
else holds. -/
def Row.failing (op : CompOp) (l r : TreeNode) : Row (String ⊕ Literal ⊕ TreeNode) where
  field := .inl
  literal v := .inr (.inl v)
  expr t := .inr (.inr t)
  test _ := True
  cmp op' a b := ¬ (op' = op ∧ a = l.freeValue ∧ b = r.freeValue) ∧
    ¬ (opposite op' = op ∧ b = l.freeValue ∧ a = r.freeValue)
  cmp_opposite := by
    intro op' a b
    rw [opposite_opposite, and_comm]

theorem Row.failing_value : (Row.failing op l r).value t = t.freeValue := by cases t <;> rfl

theorem Row.failing_self : ¬ (Row.failing op l r).holds (.algOp (.comp op) l r) := by
  intro h
  rw [Row.holds, Row.failing_value, Row.failing_value] at h
  exact h.1 ⟨rfl, rfl, rfl⟩

/-- Every bound that the failing comparison does not spell holds. -/
theorem Row.failing_bound (h : ∀ b', TreeNode.bound? (.algOp (.comp op) l r) = some b' →
    b'.field ≠ b.field) : (Row.failing op l r).bound b := by
  have hname (t : TreeNode) (f : String) (ht : Sum.inl f = t.freeValue) : t = .name f := by
    cases t <;> simp_all [TreeNode.freeValue]
  have hlit (t : TreeNode) (v : Literal) (ht : Sum.inr (Sum.inl v) = t.freeValue) :
      ∃ a, t = .literal a v := by
    cases t <;> simp_all [TreeNode.freeValue]
  constructor
  · rintro ⟨-, hl, hr⟩
    obtain ⟨a, rfl⟩ := hlit r _ hr
    cases hname l _ hl
    exact h _ rfl rfl
  · rintro ⟨-, hl, hr⟩
    obtain ⟨a, rfl⟩ := hlit l _ hl
    cases hname r _ hr
    exact h _ rfl rfl

section
variable {im : IndexManager} {w : WhereQuery}

theorem find_ne_none (q : QueryOptimizer) (h : ∀ f, q.find f = none) : q.optimizedFields = [] := by
  cases hq : q.optimizedFields with
  | nil => rfl
  | cons p ps =>
    have := h p.1
    simp [QueryOptimizer.find, hq] at this

theorem decided_of_bound (hb : b ∈ bounds t.conjuncts) :
    Decided true (findPossibleFields indexOf {} t) := by
  have hgood : Decided true (QueryOptimizer.goodNode {}) := ⟨rfl, rfl⟩
  unfold QueryOptimizer.findPossibleFields
  split
  · exact hgood.findPossibleFields.findPossibleFields
  · exact hgood.checkComparison.checkComparison
  · rename_i hand hcmp
    obtain ⟨c, hc, hcb⟩ := List.mem_filterMap.mp hb
    rw [TreeNode.conjuncts.eq_2 _ hand, List.mem_singleton] at hc
    have hc' := isComparison_of_bound? hcb
    unfold TreeNode.isComparison at hc'
    split at hc'
    · exact absurd hc.symm (hcmp _ _ _)
    · cases hc'

theorem optimize_unchanged (h : (whereReplace im w.tree).optimizedFields = []) :
    optimizeWithIndexes im w.tree = some w.tree := by
  simp [optimizeWithIndexes, createResult, optimizationPossible, h]

variable {q : QueryOptimizer} {o : OptimizedField} {s : IndexSelectNode}

/-- `createResult` once a best field is known. -/
theorem createResult_best (hfind : q.find f = some o) (hbest : q.bestField = some f)
    (hc : q.correctNode = true) (hs : o.getSelectNode = some s) :
    q.createResult w.tree =
      if q.differentNodeCount > 0 ∨ o.boundsRejected then
        (o.usedBounds.foldlM (fun t value => cutOff value t) w.pred).map
          (.nonAlgOp .where (.indexSelect s) ·)
      else some (.indexSelect s) := by
  have hne : q.optimizedFields ≠ [] := by
    intro hnil
    simp [QueryOptimizer.find, hnil] at hfind
  have hpos : q.optimizationPossible = true := by simp [optimizationPossible, hc, hne]
  rw [createResult, hpos, hbest, Option.bind_some, hfind]
  cases hr : o.boundsRejected with
  | false =>
    by_cases hd : q.differentNodeCount > 0
    · simp [hr, hd, hs, WhereQuery.tree, Option.map_eq_bind, Function.comp_def]
    · simp [hr, hd, hs]
  | true => simp [hr, hs, WhereQuery.tree, Option.map_eq_bind, Function.comp_def]

theorem chosen_indexSelect {row : Row V} (hf : im.getIndexFromField w.rootName f = some o.indexName)
    (hs : s.indexName = o.indexName) :
    row.chosen im w.rootName (.indexSelect s) ↔ row.within f s.constraints := by
  simp only [Row.chosen, hs]
  constructor
  · rintro ⟨g, hg, hw⟩
    rwa [im.name_inj hf hg]
  · intro hw
    exact ⟨f, hf, hw⟩

/-- Some conjunct is not among the used bounds, if any was counted. -/
theorem exists_unused {used : List Bound}
    (h : FieldScanned indexOf f (boundsOf f w.pred.conjuncts) o)
    (hused : used.Sublist (boundsOf f w.pred.conjuncts)) (hmade : o.MadeOf used)
    (hcount : ¬ Plain indexOf w.pred.conjuncts ∨ WhereQuery.Overridden w.pred.conjuncts) :
    ∃ c ∈ w.pred.conjuncts, ∀ b ∈ used, isParent b.address c = false := by
  have hn := w.literals_nodup
  rw [literals_eq_flatMap] at hn
  by_contra hno
  push Not at hno
  have hall : ∀ c ∈ w.pred.conjuncts, ∃ b ∈ used, c.bound? = some b := by
    intro c hc
    obtain ⟨b, hb, hp⟩ := hno c hc
    rw [ne_eq, Bool.not_eq_false] at hp
    obtain ⟨d, hd, hdb⟩ := List.mem_filterMap.mp (mem_boundsOf.mp (hused.subset hb)).1
    have hpd := (isParent_iff_of_bound? (v := b.address) hdb).mpr rfl
    refine ⟨b, hb, ?_⟩
    rwa [eq_of_mem_literals hn hc hd (mem_literals_of_isParent hp) (mem_literals_of_isParent hpd)]
  obtain ⟨hplain, hover⟩ :=
    h.used_all hused hmade (List.Nodup.of_map _ (hn.sublist (addresses_sublist _))) hall
  exact hcount.elim (absurd hplain) hover

/-- Without a `where`, the selection is the query iff all conjuncts bound its
field. -/
theorem replace_where {used : List Bound} (hplain : Plain indexOf w.pred.conjuncts)
    (hused : used = boundsOf f w.pred.conjuncts) (hne : used ≠ []) :
    (∀ (V : Type) (row : Row V), (∀ b ∈ used, row.bound b) ↔ row.holds w.pred) ↔
      ∃ g, ∀ c ∈ w.pred.conjuncts, ∃ b, c.bound? = some b ∧ b.field = g := by
  constructor
  · intro h
    refine ⟨f, fun c hc => ?_⟩
    by_contra hno
    push Not at hno
    have hcmp := hplain.1 c hc
    unfold TreeNode.isComparison at hcmp
    split at hcmp
    · rename_i op l r
      have hbounds : ∀ b ∈ used, (Row.failing op l r).bound b := by
        intro b hb
        have hbf : b.field = f := (mem_boundsOf.mp (hused ▸ hb)).2
        exact Row.failing_bound fun b' hb' => hbf ▸ hno b' hb'
      have hpred := (h _ (Row.failing op l r)).mp hbounds
      exact Row.failing_self ((Row.holds_iff_conjuncts _ _).mp hpred _ hc)
    · cases hcmp
  · rintro ⟨g, hg⟩ V row
    have hfield : ∀ b ∈ bounds w.pred.conjuncts, b.field = g := by
      intro b hb
      obtain ⟨c, hc, hcb⟩ := List.mem_filterMap.mp hb
      obtain ⟨b', hcb', hb'⟩ := hg c hc
      rw [hcb] at hcb'
      cases hcb'
      exact hb'
    have hfg : f = g := by
      obtain ⟨b, hb⟩ := List.exists_mem_of_ne_nil _ hne
      obtain ⟨hb, rfl⟩ := mem_boundsOf.mp (hused ▸ hb)
      exact hfield b hb
    rw [row.holds_iff_conjuncts, hused]
    constructor
    · intro h c hc
      obtain ⟨b, hcb, hb⟩ := hg c hc
      rw [row.holds_bound? hcb]
      exact h b (mem_boundsOf.mpr ⟨List.mem_filterMap.mpr ⟨c, hc, hcb⟩, hfg ▸ hb⟩)
    · intro h b hb
      obtain ⟨c, hc, hcb⟩ := List.mem_filterMap.mp (mem_boundsOf.mp hb).1
      exact (row.holds_bound? hcb).mp (h c hc)

/-- The rewrite keeps the query exactly when it is covered. -/
theorem optimizeWithIndexes_equivalent_iff (im : IndexManager) (w : WhereQuery) :
    (∃ t, optimizeWithIndexes im w.tree = some t ∧ w.RewrittenTo im t) ↔ w.Covered im := by
  by_cases hroot : im.rootIndexed w.rootName
  swap
  · refine iff_of_true ⟨w.tree, optimize_unchanged ?_, fun V row => Iff.rfl⟩ fun h => absurd h hroot
    simp [whereReplace, WhereQuery.tree, hroot, differentNode]
  have hw : whereReplace im w.tree =
      findPossibleFields (im.getIndexFromField w.rootName) {} w.pred := by
    simp [whereReplace, WhereQuery.tree, hroot]
  have hscan := (Scanned.init (im.getIndexFromField w.rootName)).findPossibleFields
    (t := w.pred)
  rw [List.nil_append, ← hw] at hscan
  cases hbest : (whereReplace im w.tree).bestField with
  | none =>
    have hfind (f : String) := hscan.best_none (f := f) hbest
    refine iff_of_true ⟨w.tree, optimize_unchanged (find_ne_none _ hfind), fun V row => Iff.rfl⟩ ?_
    rintro - ⟨b, hb, hi⟩
    have hnil := hscan.missing (hfind b.field) hi
    exact absurd (mem_boundsOf.mpr ⟨hb, rfl⟩) (by rw [hnil]; exact List.not_mem_nil)
  | some f =>
    obtain ⟨o, hfind⟩ := hscan.best_some hbest
    obtain ⟨hfield, hne⟩ := hscan.found hfind
    obtain ⟨used, hused, haddr, hmade, hnil, hall⟩ := hfield.used
    have hne' : used ≠ [] := fun h => hne (hnil h)
    obtain ⟨b₀, hb₀⟩ := List.exists_mem_of_ne_nil _ hne
    obtain ⟨hb₀, hb₀f⟩ := mem_boundsOf.mp hb₀
    obtain ⟨s, hs, hname, hwithin⟩ :=
      hmade.select hne' fun b hb => (mem_boundsOf.mp (hused.subset hb)).2
    have hresult := createResult_best (w := w) hfind hbest (hw ▸ (decided_of_bound hb₀).2) hs
    have hchosen (V : Type) (row : Row V) :
        row.chosen im w.rootName (.indexSelect s) ↔ ∀ b ∈ used, row.bound b :=
      (chosen_indexSelect hfield.named hname).trans (hwithin V row)
    have hcov : w.Covered im ↔
        ¬ Plain (im.getIndexFromField w.rootName) w.pred.conjuncts ∨
          WhereQuery.Overridden w.pred.conjuncts ∨
          ∃ f, ∀ c ∈ w.pred.conjuncts, ∃ b, c.bound? = some b ∧ b.field = f :=
      ⟨fun h => h hroot ⟨b₀, hb₀, by rw [hb₀f, hfield.named]; rfl⟩, fun h _ _ => h⟩
    rw [hcov]
    by_cases hcount : ¬ Plain (im.getIndexFromField w.rootName) w.pred.conjuncts ∨
        WhereQuery.Overridden w.pred.conjuncts
    · refine iff_of_true ?_ (or_assoc.mp (.inl hcount))
      have hif : (whereReplace im w.tree).differentNodeCount > 0 ∨ o.boundsRejected = true := by
        by_cases hp : Plain (im.getIndexFromField w.rootName) w.pred.conjuncts
        · exact .inr ((hscan.rejected_iff hp hbest hfind).mpr (hcount.resolve_left (absurd hp)))
        · exact .inl (Nat.pos_of_ne_zero (hscan.count.not.mpr hp))
      obtain ⟨rest, hfold, hrest⟩ :=
        keep_where (hused.trans List.filter_sublist) (exists_unused hfield hused hmade hcount)
      refine ⟨.nonAlgOp .where (.indexSelect s) rest, ?_, fun V row => ?_⟩
      · rw [optimizeWithIndexes, hresult, if_pos hif, haddr, hfold]
        rfl
      · rw [Row.chosen_tree, hrest, Row.chosen, hchosen]
    · obtain ⟨hplain, hover⟩ := not_or.mp hcount
      rw [not_not] at hplain
      have hrej : o.boundsRejected = false := by
        rw [← Bool.not_eq_true, hscan.rejected_iff hplain hbest hfind]
        exact hover
      have hif : ¬ ((whereReplace im w.tree).differentNodeCount > 0 ∨ o.boundsRejected = true) := by
        simp [hscan.count.mpr hplain, hrej]
      have hall' := hall (hplain.2.2.sublist List.filter_sublist) hrej
      rw [or_iff_right (not_not.mpr hplain), or_iff_right hover,
        ← replace_where hplain hall' hne', optimizeWithIndexes, hresult, if_neg hif]
      simp only [Option.some.injEq, exists_eq_left', WhereQuery.RewrittenTo, hchosen,
        Row.chosen_tree]

end

-- ---------------------------------------------------------------------------
-- A dropped conjunct
-- ---------------------------------------------------------------------------

/-- The indexes `emp_age` and `emp_name` of the tests. -/
def empIndexes : IndexManager where
  rootIndexed r := r = "emp"
  getIndexFromField r f :=
    if r = "emp" ∧ f = "age" then some "emp_age"
    else if r = "emp" ∧ f = "name" then some "emp_name"
    else none
  name_inj := by
    intro r f n g hf hg
    grind

/-- `emp where age > 3 and name = 5` -/
def ageAndName : WhereQuery where
  rootName := "emp"
  pred := .algOp .boolAnd (.algOp (.comp .gt) (.name "age") (.literal 0 (.int 3)))
    (.algOp (.comp .eq) (.name "name") (.literal 1 (.int 5)))
  literals_nodup := by decide

/-- An employee with age 0 and name 5. -/
def zeroAge : Row Int where
  field f := if f = "name" then 5 else 0
  literal
    | .int v => v
    | _ => 0
  expr _ := 0
  test _ := True
  cmp
    | .eq, a, b => a = b
    | .lt, a, b => a < b
    | .gt, a, b => b < a
    | .le, a, b => a ≤ b
    | .ge, a, b => b ≤ a
  cmp_opposite := by
    intro op a b
    cases op <;> simp [opposite, eq_comm]

/-- The bound on `age` is on an indexed field, so it is not counted, and then
`name` is chosen and nothing of it is kept. -/
theorem ageAndName_age_dropped :
    optimizeWithIndexes empIndexes ageAndName.tree =
        some (.indexSelect { indexName := "emp_name", constraints := .exact (.int 5) }) ∧
      ¬ ∃ t, optimizeWithIndexes empIndexes ageAndName.tree = some t ∧
        ageAndName.RewrittenTo empIndexes t := by
  have hopt : optimizeWithIndexes empIndexes ageAndName.tree =
      some (.indexSelect { indexName := "emp_name", constraints := .exact (.int 5) }) := by
    decide +kernel
  refine ⟨hopt, ?_⟩
  rintro ⟨t, ht, hsame⟩
  rw [hopt] at ht
  cases ht
  have hrow := (hsame Int zeroAge).mp ⟨"name", by simp [empIndexes, ageAndName], rfl⟩
  rw [Row.chosen_tree] at hrow
  have hage : (3 : Int) < 0 := hrow.1
  omega

end Loxim.Indexes
