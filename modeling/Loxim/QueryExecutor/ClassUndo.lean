import Loxim.QueryExecutor.ClassIndex

/-!
# Class updates that fail

A class that extends or is extended by a class that is not in the graph is taken out again.
What is undone is the vertex with its edges, not what it replaced in the indexes, nor the
removal of the old version, nor the flags of its subclasses.
-/

namespace Loxim.QueryExecutor

open Store (Iterates)

/-- `ErrQExecutor | ENoClassDefFound`. -/
def eNoClassDefFound : Nat := 0x1401920

/-- The graph, and which of its vertices are `invalid`. -/
structure FlaggedGraph where
  graph : ClassGraph := {}
  invalid : Finset UInt32 := ∅

namespace FlaggedGraph

open ClassGraph

section

variable (order : Finset UInt32 → List UInt32) (g : FlaggedGraph)

def removeFromExtends (subclasses : Finset UInt32) (lid : UInt32) : FlaggedGraph where
  graph := g.graph.removeFromExtends order subclasses lid
  invalid := g.invalid ∪ subclasses.filter fun i => g.graph.vertexExist i

def removeClass (lid : UInt32) : FlaggedGraph :=
  match g.graph.classGraph lid with
  | none => g
  | some v =>
    let graph := g.graph.removeFromNameIndex v.name
    let graph := graph.removeFromInvariant lid v.invariant
    let graph := graph.removeFromSubclasses order v.extended lid
    let subclasses := ((graph.classGraph lid).map ClassGraphVertex.subclasses).getD ∅
    let g := { g with graph }.removeFromExtends order subclasses lid
    { graph := { g.graph with classGraph := Function.update g.graph.classGraph lid none }
      invalid := g.invalid.erase lid }

/-- A new vertex is not `invalid`. -/
def putVertex (c : ClassObject) : FlaggedGraph where
  graph := g.graph.putVertex c
  invalid := g.invalid.erase c.lid

/-- The links of a class, which is removed if one of the others is not found. `p` says which
is the subclass. -/
def linkLoop (lid : UInt32) (p : UInt32 → UInt32 × UInt32) :
    List UInt32 → FlaggedGraph → FlaggedGraph × Nat
  | [], g => (g, 0)
  | i :: l, g =>
    if g.graph.vertexExist i then linkLoop lid p l { g with graph := g.graph.link (p i).1 (p i).2 }
    else (g.removeClass order lid, eNoClassDefFound)

def addClass (c : ClassObject) : FlaggedGraph × Nat :=
  linkLoop order c.lid (fun i => (c.lid, i)) (order c.classMarks) (g.putVertex c)

def updateClass (c : ClassObject) : FlaggedGraph × Nat :=
  let (g, errcode) := (g.removeClass order c.lid).addClass order c
  if errcode ≠ 0 then (g, errcode)
  else linkLoop order c.lid (fun i => (i, c.lid)) (order c.subclasses) g

end

variable {order : Finset UInt32 → List UInt32} {g : FlaggedGraph} {g₁ : ClassGraph}
  {c : ClassObject} {lid a b x : UInt32} {l : List UInt32} {s : Finset UInt32}

/-- What holds between the calls. -/
structure Tidy (g : FlaggedGraph) : Prop where
  graph : g.graph.Tidy
  flags : ∀ i ∈ g.invalid, g.graph.vertexExist i = true

-- ---------------------------------------------------------------------------
-- The graph without the flags
-- ---------------------------------------------------------------------------

theorem flagged_eq {g' : FlaggedGraph} (hgraph : g'.graph = g.graph)
    (hinvalid : g'.invalid = g.invalid) : g' = g := by
  obtain ⟨graph, invalid⟩ := g
  obtain ⟨graph', invalid'⟩ := g'
  simp only at hgraph hinvalid
  rw [hgraph, hinvalid]

theorem graph_removeClass : (g.removeClass order lid).graph = g.graph.removeClass order lid := by
  unfold removeClass ClassGraph.removeClass
  cases g.graph.classGraph lid with
  | none => rfl
  | some v => rfl

theorem removeClass_of_none (h : g.graph.vertexExist lid = false) :
    g.removeClass order lid = g := by
  rw [vertexExist, Option.isSome_eq_false_iff, Option.isNone_iff_eq_none] at h
  unfold removeClass
  rw [h]

theorem classGraph_removeClass : (g.removeClass order lid).graph.classGraph lid = none := by
  cases h : g.graph.classGraph lid with
  | none =>
    rw [removeClass_of_none (by rw [vertexExist, h]; rfl)]
    exact h
  | some v =>
    unfold removeClass
    rw [h]
    exact Function.update_self ..

theorem mem_invalid_removeClass (horder : Iterates order)
    (h : g.graph.vertexExist lid = true) : x ∈ (g.removeClass order lid).invalid ↔
      x ≠ lid ∧ (x ∈ g.invalid ∨ g.graph.HasSubclass lid x ∧ g.graph.vertexExist x = true) := by
  obtain ⟨v, hv⟩ := vertexExist_iff.mp h
  let g₁ := (g.graph.removeFromNameIndex v.name).removeFromInvariant lid v.invariant
  have hclass₁ : g₁.classGraph = g.graph.classGraph := removeFromInvariant_classGraph ..
  obtain ⟨hsame, -, hsub⟩ := removeFromSubclasses_spec horder g₁ v.extended lid
  let g₂ := g₁.removeFromSubclasses order v.extended lid
  have hmem : x ∈ ((g₂.classGraph lid).map ClassGraphVertex.subclasses).getD ∅ ↔
      g₂.HasSubclass lid x := by
    cases hlid : g₂.classGraph lid with
    | none => simp [HasSubclass, hlid]
    | some w => simp [HasSubclass, hlid]
  have hexist : g₂.vertexExist x = g.graph.vertexExist x := by
    rw [show g₂.vertexExist x = g₁.vertexExist x from vertexExist_of_label hsame.label,
      vertexExist, vertexExist, hclass₁]
  have hsub₂ : g₂.HasSubclass lid x ↔
      g.graph.HasSubclass lid x ∧ ¬ (lid ∈ v.extended ∧ x = lid) := by
    rw [show g₂.HasSubclass lid x ↔ _ from hsub lid x]
    simp only [HasSubclass, hclass₁]
  have hinvalid : (g.removeClass order lid).invalid = (g.invalid ∪
      (((g₂.classGraph lid).map ClassGraphVertex.subclasses).getD ∅).filter
        fun i => g₂.vertexExist i).erase lid := by
    unfold removeClass
    rw [hv]
    rfl
  rw [hinvalid, Finset.mem_erase, Finset.mem_union, Finset.mem_filter, hmem, hsub₂, hexist]
  refine and_congr_right fun hne => or_congr_right (and_congr_left fun _ => ?_)
  exact and_iff_left fun hself => hne hself.2

-- ---------------------------------------------------------------------------
-- The loop
-- ---------------------------------------------------------------------------

variable {p : UInt32 → UInt32 × UInt32}

/-- Either all are linked, or the class is removed when the first of them is not found. -/
theorem linkLoop_spec (order : Finset UInt32 → List UInt32) (lid : UInt32) (l : List UInt32)
    (g : FlaggedGraph) :
    (∀ i ∈ l, g.graph.vertexExist i = true) ∧ (∃ g₁, g.graph.linkAll p l = some g₁ ∧
      linkLoop order lid p l g = ({ g with graph := g₁ }, 0)) ∨
    (∃ i ∈ l, g.graph.vertexExist i = false) ∧
      ∃ g₁, g.graph.linkAll p (l.takeWhile (g.graph.vertexExist ·)) = some g₁ ∧
        linkLoop order lid p l g =
          ({ g with graph := g₁ : FlaggedGraph }.removeClass order lid, eNoClassDefFound) := by
  induction l generalizing g with
  | nil => exact .inl ⟨fun i hi => absurd hi List.not_mem_nil, g.graph, rfl, rfl⟩
  | cons i l ih =>
    have hexist (j : UInt32) : (g.graph.link (p i).1 (p i).2).vertexExist j =
        g.graph.vertexExist j := vertexExist_of_label sameClasses_link.label
    rw [linkLoop]
    cases hi : g.graph.vertexExist i with
    | true =>
      have hlink (l : List UInt32) :
          g.graph.linkAll p (i :: l) = (g.graph.link (p i).1 (p i).2).linkAll p l := by
        rw [linkAll, List.foldlM_cons, hi]
        rfl
      rw [if_pos rfl, List.takeWhile_cons_of_pos hi, hlink, hlink]
      have hstep := ih { g with graph := g.graph.link (p i).1 (p i).2 }
      simp only [hexist] at hstep
      obtain ⟨hall, hloop⟩ | ⟨⟨j, hj, hmissing⟩, hloop⟩ := hstep
      · exact .inl ⟨List.forall_mem_cons.mpr ⟨hi, hall⟩, hloop⟩
      · exact .inr ⟨⟨j, List.mem_cons_of_mem i hj, hmissing⟩, hloop⟩
    | false =>
      have hnot : ¬ g.graph.vertexExist i = true := by simp [hi]
      rw [if_neg Bool.false_ne_true, List.takeWhile_cons_of_neg hnot]
      exact .inr ⟨⟨i, List.mem_cons_self, hi⟩, g.graph, rfl, rfl⟩

-- ---------------------------------------------------------------------------
-- What is undone
-- ---------------------------------------------------------------------------

/-- The methods of a class. -/
def methodsOf (g : ClassGraph) (lid : UInt32) : Option (List ((String × Nat) × UInt32)) :=
  (g.classGraph lid).map ClassGraphVertex.methods

variable {g' : ClassGraph} {f : ClassGraphVertex → ClassGraphVertex}

theorem methodsOf_modify (h : ∀ v, (f v).methods = v.methods) :
    methodsOf (g'.modify lid f) = methodsOf g' := by
  funext x
  rcases eq_or_ne x lid with rfl | hne
  · simp only [methodsOf, modify_self, Option.map_map]
    congr 1
    funext v
    exact h v
  · simp only [methodsOf, modify_of_ne hne]

theorem methodsOf_foldl (h : ∀ v, (f v).methods = v.methods) :
    methodsOf (l.foldl (fun g i => g.modify i f) g') = methodsOf g' := by
  induction l generalizing g' with
  | nil => rfl
  | cons i l ih => rw [List.foldl_cons, ih, methodsOf_modify h]

theorem methodsOf_linkAll (h : g'.linkAll p l = some g₁) : methodsOf g₁ = methodsOf g' := by
  induction l generalizing g' with
  | nil =>
    cases h
    rfl
  | cons i l ih =>
    rw [linkAll, List.foldlM_cons] at h
    split at h
    · have hsuper : methodsOf (g'.modify (p i).2 (·.addSubclass (p i).1)) = methodsOf g' :=
        methodsOf_modify fun _ => rfl
      have hsub : methodsOf (g'.link (p i).1 (p i).2) =
          methodsOf (g'.modify (p i).2 (·.addSubclass (p i).1)) := methodsOf_modify fun _ => rfl
      rw [ih h, hsub, hsuper]
    · cases h

theorem methodsOf_removeClass (h : g'.vertexExist lid = true) :
    methodsOf (g'.removeClass order lid) = Function.update (methodsOf g') lid none := by
  obtain ⟨v, hv⟩ := vertexExist_iff.mp h
  let g₁ := (g'.removeFromNameIndex v.name).removeFromInvariant lid v.invariant
  have hclass₁ : g₁.classGraph = g'.classGraph := removeFromInvariant_classGraph ..
  let g₂ := g₁.removeFromSubclasses order v.extended lid
  let subclasses := ((g₂.classGraph lid).map ClassGraphVertex.subclasses).getD ∅
  let g₃ := g₂.removeFromExtends order subclasses lid
  have hmethods : methodsOf g₃ = methodsOf g' := by
    have hfirst : methodsOf g₁ = methodsOf g' := by
      funext x
      simp only [methodsOf, hclass₁]
    have hsecond : methodsOf g₂ = methodsOf g₁ := methodsOf_foldl fun _ => rfl
    have hthird : methodsOf g₃ = methodsOf g₂ := methodsOf_foldl fun _ => rfl
    rw [hthird, hsecond, hfirst]
  have hresult : g'.removeClass order lid =
      { g₃ with classGraph := Function.update g₃.classGraph lid none } := by
    simp only [ClassGraph.removeClass, hv]
    rfl
  rw [hresult, ← hmethods]
  funext x
  rcases eq_or_ne x lid with rfl | hne
  · simp [methodsOf]
  · simp [methodsOf, hne]

/-- Graphs that look the same are the same. -/
theorem graph_eq (hlabel : g₁.label = g'.label) (hmethods : methodsOf g₁ = methodsOf g')
    (hextends : ∀ b a, g₁.Extends b a ↔ g'.Extends b a)
    (hsub : ∀ a b, g₁.HasSubclass a b ↔ g'.HasSubclass a b)
    (hinvariants : g₁.invariants = g'.invariants) (hnames : g₁.nameIndex = g'.nameIndex) :
    g₁ = g' := by
  have hclass : g₁.classGraph = g'.classGraph := by
    funext x
    have hlabelx := congrFun hlabel x
    have hmethodsx := congrFun hmethods x
    simp only [label, methodsOf] at hlabelx hmethodsx
    cases h₁ : g₁.classGraph x with
    | none =>
      rw [h₁, Option.map_none] at hlabelx
      exact (Option.map_eq_none_iff.mp hlabelx.symm).symm
    | some v₁ =>
      rw [h₁, Option.map_some] at hlabelx hmethodsx
      obtain ⟨v, hv, hname⟩ := Option.map_eq_some_iff.mp hlabelx.symm
      rw [hv, Option.map_some, Option.some.injEq] at hmethodsx
      have hextended : v₁.extended = v.extended := by
        ext a
        rw [← extends_iff h₁, ← extends_iff hv, hextends]
      have hsubclasses : v₁.subclasses = v.subclasses := by
        ext b
        rw [← hasSubclass_iff h₁, ← hasSubclass_iff hv, hsub]
      rw [hv]
      obtain ⟨extended, subclasses, methods, invariant, name⟩ := v
      obtain ⟨extended₁, subclasses₁, methods₁, invariant₁, name₁⟩ := v₁
      simp only [Prod.mk.injEq] at hname hmethodsx hextended hsubclasses
      obtain ⟨rfl, rfl⟩ := hname
      rw [hmethodsx, hextended, hsubclasses]
  obtain ⟨classGraph₁, invariants₁, nameIndex₁⟩ := g₁
  obtain ⟨classGraph', invariants', nameIndex'⟩ := g'
  simp only at hclass hinvariants hnames
  rw [hclass, hinvariants, hnames]

/-- A new class that has been linked to others is taken out without a trace if and only if its
name and its invariant were not in the indexes. -/
theorem removeClass_eq_iff (horder : Iterates order) (hmirror : g'.Mirror)
    (hnew : g'.vertexExist c.lid = false) (hmirror₁ : g₁.Mirror)
    (hsame : SameClasses (g'.putVertex c) g₁) (hmethods : methodsOf g₁ = methodsOf (g'.putVertex c))
    (hedges : ∀ b a, b ≠ c.lid → a ≠ c.lid → (g₁.Extends b a ↔ g'.Extends b a)) :
    g₁.removeClass order c.lid = g' ↔
      g'.nameIndex c.name = none ∧ g'.invariants c.invariant = none := by
  have hlabel₁ : g₁.label = Function.update g'.label c.lid (some (c.name, c.invariant)) := by
    rw [hsame.label, putVertex_label]
  have hself : g₁.vertexExist c.lid = true := by
    rw [vertexExist_of_label hsame.label]
    exact putVertex_vertexExist.mpr (.inl rfl)
  obtain ⟨v, hv⟩ := vertexExist_iff.mp hself
  have hvlabel := congrFun hlabel₁ c.lid
  rw [Function.update_self, label, hv, Option.map_some, Option.some.injEq, Prod.mk.injEq] at hvlabel
  obtain ⟨hlabel, hnames, hinv, hextends, hsub⟩ := removeClass_spec horder hmirror₁ hv
  rw [hvlabel.1, hsame.nameIndex, putVertex_nameIndex, Function.update_idem] at hnames
  have hinv' : (g₁.removeClass order c.lid).invariants =
      Function.update g'.invariants c.invariant none := by
    rw [hinv, hvlabel.2, hsame.invariants, putVertex_invariants]
    split
    · rfl
    · rw [Function.update_idem]
  constructor
  · intro heq
    rw [heq] at hnames hinv'
    refine ⟨?_, ?_⟩
    · rw [hnames, Function.update_self]
    · rw [hinv', Function.update_self]
  · rintro ⟨hname, hinvariant⟩
    have hout (b a : UInt32) (h : g'.Extends b a) : b ≠ c.lid ∧ a ≠ c.lid := by
      refine ⟨fun hb => ?_, fun ha => ?_⟩
      · rw [← hb, h.vertexExist] at hnew
        cases hnew
      · rw [← ha, ((hmirror a b).mp h).vertexExist] at hnew
        cases hnew
    have hextends' (b a : UInt32) : (g₁.removeClass order c.lid).Extends b a ↔ g'.Extends b a := by
      rw [hextends]
      constructor
      · rintro ⟨h, hb, ha⟩
        exact (hedges b a hb ha).mp h
      · intro h
        obtain ⟨hb, ha⟩ := hout b a h
        exact ⟨(hedges b a hb ha).mpr h, hb, ha⟩
    refine graph_eq ?_ ?_ hextends' (fun a b => ?_) ?_ ?_
    · rw [hlabel, hlabel₁, Function.update_idem, ← label_eq_none hnew, Function.update_eq_self]
    · rw [methodsOf_removeClass hself, hmethods]
      funext x
      rcases eq_or_ne x c.lid with rfl | hne
      · rw [Function.update_self, methodsOf]
        rw [vertexExist, Option.isSome_eq_false_iff, Option.isNone_iff_eq_none] at hnew
        rw [hnew, Option.map_none]
      · rw [Function.update_of_ne hne, methodsOf, methodsOf, putVertex_classGraph,
          Function.update_of_ne hne]
    · rw [← hmirror a b, ← hextends', (hmirror₁.removeClass horder c.lid) a b]
    · rw [hinv', ← hinvariant, Function.update_eq_self]
    · rw [hnames, ← hname, Function.update_eq_self]

theorem removeClass_undo_iff (horder : Iterates order) (h : g.Tidy)
    (hnew : g.graph.vertexExist c.lid = false) (hmirror₁ : g₁.Mirror)
    (hsame : SameClasses (g.graph.putVertex c) g₁)
    (hmethods : methodsOf g₁ = methodsOf (g.graph.putVertex c))
    (hedges : ∀ b a, b ≠ c.lid → a ≠ c.lid → (g₁.Extends b a ↔ g.graph.Extends b a)) :
    { g.putVertex c with graph := g₁ }.removeClass order c.lid = g ↔
      (g.graph.nameIndex c.name = none ∧ g.graph.invariants c.invariant = none) ∧
        ∀ x, x ≠ c.lid → g₁.HasSubclass c.lid x → x ∈ g.invalid := by
  have hself : g₁.vertexExist c.lid = true := by
    rw [vertexExist_of_label hsame.label]
    exact putVertex_vertexExist.mpr (.inl rfl)
  have hnot : c.lid ∉ g.invalid := by
    intro hmem
    rw [h.flags _ hmem] at hnew
    cases hnew
  have hgraph : ({ g.putVertex c with graph := g₁ }.removeClass order c.lid).graph =
      g₁.removeClass order c.lid := graph_removeClass
  have hinvalid (x : UInt32) :
      x ∈ ({ g.putVertex c with graph := g₁ }.removeClass order c.lid).invalid ↔
        x ∈ g.invalid ∨ x ≠ c.lid ∧ g₁.HasSubclass c.lid x := by
    rw [mem_invalid_removeClass horder hself, putVertex, Finset.mem_erase]
    have hexist : g₁.HasSubclass c.lid x → g₁.vertexExist x = true :=
      fun hsub => ((hmirror₁ _ _).mpr hsub).vertexExist
    have hne : x ∈ g.invalid → x ≠ c.lid := fun hmem heq => hnot (heq ▸ hmem)
    tauto
  rw [← removeClass_eq_iff horder h.graph.mirror hnew hmirror₁ hsame hmethods hedges]
  constructor
  · intro heq
    refine ⟨hgraph.symm.trans (congrArg FlaggedGraph.graph heq), fun x hx hsub => ?_⟩
    rw [← congrArg FlaggedGraph.invalid heq, hinvalid]
    exact .inr ⟨hx, hsub⟩
  · rintro ⟨heq, hflags⟩
    have hset : ({ g.putVertex c with graph := g₁ }.removeClass order c.lid).invalid =
        g.invalid := by
      ext x
      rw [hinvalid]
      refine ⟨?_, .inl⟩
      rintro (hmem | ⟨hx, hsub⟩)
      · exact hmem
      · exact hflags x hx hsub
    exact flagged_eq (hgraph.trans heq) hset

-- ---------------------------------------------------------------------------
-- When a failed call leaves the graph as it was
-- ---------------------------------------------------------------------------

/-- The name and the invariant of the class are new to the graph, and so is the class. -/
structure New (g : FlaggedGraph) (c : ClassObject) : Prop where
  vertex : g.graph.vertexExist c.lid = false
  name : g.graph.nameIndex c.name = none
  invariant : g.graph.invariants c.invariant = none

/-- One of the classes is not in the graph, the class itself apart. -/
def Missing (g : FlaggedGraph) (c : ClassObject) (s : Finset UInt32) : Prop :=
  ∃ i ∈ s, i ≠ c.lid ∧ g.graph.vertexExist i = false

/-- The classes that are found are linked up to the first that is not. -/
def linked (order : Finset UInt32 → List UInt32) (g : FlaggedGraph) (c : ClassObject)
    (s : Finset UInt32) : List UInt32 :=
  (order s).takeWhile fun i => decide (i = c.lid) || g.graph.vertexExist i

theorem vertexExist_putVertex (hsame : SameClasses (g.graph.putVertex c) g₁) (i : UInt32) :
    g₁.vertexExist i = (decide (i = c.lid) || g.graph.vertexExist i) := by
  rw [vertexExist_of_label hsame.label, Bool.eq_iff_iff, putVertex_vertexExist, Bool.or_eq_true,
    decide_eq_true_iff]

/-- What the loop over the class marks does with a class that is not in the graph. -/
theorem markLoop_spec (horder : Iterates order) (h : g.Tidy)
    (hnew : g.graph.vertexExist c.lid = false) :
    (¬ g.Missing c c.classMarks ∧ ∃ g₁,
      g.addClass order c = ({ g.putVertex c with graph := g₁ }, 0) ∧ g₁.Mirror ∧ SameClasses (g.graph.putVertex c) g₁ ∧
      methodsOf g₁ = methodsOf (g.graph.putVertex c) ∧
      (∀ b a, b ≠ c.lid → (g₁.Extends b a ↔ g.graph.Extends b a))) ∨
    g.Missing c c.classMarks ∧ ∃ g', g.addClass order c = (g', eNoClassDefFound) ∧
      (g' = g ↔ g.graph.nameIndex c.name = none ∧ g.graph.invariants c.invariant = none) := by
  have hself : (g.graph.putVertex c).vertexExist c.lid = true :=
    putVertex_vertexExist.mpr (.inl rfl)
  have hput (i : UInt32) : (g.graph.putVertex c).vertexExist i =
      (decide (i = c.lid) || g.graph.vertexExist i) := vertexExist_putVertex (.refl _) i
  have hlinks {l : List UInt32} {g₁ : ClassGraph}
      (hg₁ : (g.graph.putVertex c).linkAll (fun i => (c.lid, i)) l = some g₁) :
      g₁.Mirror ∧ SameClasses (g.graph.putVertex c) g₁ ∧
        ∀ b a, b ≠ c.lid → (g₁.Extends b a ↔ g.graph.Extends b a) := by
    obtain ⟨hmirror₁, hsame, -, hedges⟩ :=
      linkAll_spec (h.graph.mirror.putVertex hnew) (fun i hi => ⟨hself, hi⟩) hg₁
    refine ⟨hmirror₁, hsame, fun b a hb => ?_⟩
    rw [hedges, putVertex_extends hnew]
    refine or_iff_left ?_
    rintro ⟨i, -, heq⟩
    exact hb (congrArg Prod.fst heq)
  obtain ⟨hall, g₁, hg₁, hloop⟩ | ⟨⟨i, hi, hmissing⟩, g₁, hg₁, hloop⟩ :=
    @linkLoop_spec (fun i => (c.lid, i)) order c.lid (order c.classMarks) (g.putVertex c)
  · refine .inl ⟨?_, g₁, hloop, ?_⟩
    · rintro ⟨i, hi, hne, hmissing⟩
      have hfound := (hput i).symm.trans (hall i ((mem_order horder).mpr hi))
      simp [hne, hmissing] at hfound
    · obtain ⟨hmirror₁, hsame, hedges⟩ := hlinks hg₁
      exact ⟨hmirror₁, hsame, methodsOf_linkAll hg₁, hedges⟩
  · refine .inr ⟨⟨i, (mem_order horder).mp hi, ?_⟩, _, hloop, ?_⟩
    · have hnot := (hput i).symm.trans hmissing
      simpa using hnot
    · obtain ⟨hmirror₁, hsame, hedges⟩ := hlinks hg₁
      rw [removeClass_undo_iff horder h hnew hmirror₁ hsame (methodsOf_linkAll hg₁)
        fun b a hb _ => hedges b a hb]
      -- a new class has no subclass but itself
      refine and_iff_left fun x hx hsub => ?_
      have hextends := (hedges x c.lid hx).mp ((hmirror₁ _ _).mpr hsub)
      rw [((h.graph.mirror _ _).mp hextends).vertexExist] at hnew
      cases hnew

theorem err_ne_zero : eNoClassDefFound ≠ 0 := by decide

/-- A class that was in the graph is gone after a call that fails. -/
theorem classGraph_of_failed {g' g'' : FlaggedGraph}
    (h : linkLoop order lid p l g' = (g'', eNoClassDefFound)) :
    g''.graph.classGraph lid = none := by
  obtain ⟨-, g₁, -, hloop⟩ | ⟨-, g₁, -, hloop⟩ := @linkLoop_spec p order lid l g'
  · rw [hloop] at h
    exact absurd (congrArg Prod.snd h).symm err_ne_zero
  · rw [hloop] at h
    cases h
    exact classGraph_removeClass

theorem vertexExist_of_failed {l : List UInt32} {g' : FlaggedGraph}
    (h : linkLoop order lid p l g' = (g, eNoClassDefFound)) : g.graph.vertexExist lid = false := by
  rw [vertexExist, classGraph_of_failed h]
  rfl

theorem addClass_failed_iff (horder : Iterates order) (h : g.Tidy) :
    g.addClass order c = (g, eNoClassDefFound) ↔ g.New c ∧ g.Missing c c.classMarks := by
  constructor
  · intro heq
    have hnew := vertexExist_of_failed heq
    obtain ⟨-, g₁, hadd, -⟩ | ⟨hmissing, g', hadd, hiff⟩ := markLoop_spec horder h hnew
    · rw [heq] at hadd
      exact absurd (congrArg Prod.snd hadd) err_ne_zero
    · rw [heq] at hadd
      obtain ⟨hname, hinv⟩ := hiff.mp (congrArg Prod.fst hadd).symm
      exact ⟨⟨hnew, hname, hinv⟩, hmissing⟩
  · rintro ⟨⟨hnew, hname, hinv⟩, hmissing⟩
    obtain ⟨hnot, -⟩ | ⟨-, g', hadd, hiff⟩ := markLoop_spec horder h hnew
    · exact absurd hmissing hnot
    · rw [hadd, hiff.mpr ⟨hname, hinv⟩]

/-- All extended classes are found, and one of the subclasses is not. -/
theorem subclassLoop_spec (horder : Iterates order) (h : g.Tidy)
    (hnew : g.graph.vertexExist c.lid = false) (hmirror₁ : g₁.Mirror)
    (hsame : SameClasses (g.graph.putVertex c) g₁)
    (hmethods : methodsOf g₁ = methodsOf (g.graph.putVertex c))
    (hedges : ∀ b a, b ≠ c.lid → (g₁.Extends b a ↔ g.graph.Extends b a)) :
    linkLoop order c.lid (fun i => (i, c.lid)) (order c.subclasses)
        { g.putVertex c with graph := g₁ } = (g, eNoClassDefFound) ↔
      g.New c ∧ g.Missing c c.subclasses ∧
        ∀ i ∈ g.linked order c c.subclasses, i ≠ c.lid → i ∈ g.invalid := by
  have hself : g₁.vertexExist c.lid = true := by
    rw [vertexExist_of_label hsame.label]
    exact putVertex_vertexExist.mpr (.inl rfl)
  have hexist := vertexExist_putVertex hsame
  obtain ⟨hall, g₂, -, hloop⟩ | ⟨⟨i, hi, hmissing⟩, g₂, hg₂, hloop⟩ :=
    @linkLoop_spec (fun i => (i, c.lid)) order c.lid (order c.subclasses)
      { g.putVertex c with graph := g₁ }
  · rw [hloop]
    refine iff_of_false (fun heq => err_ne_zero (congrArg Prod.snd heq).symm) ?_
    rintro ⟨-, ⟨i, hi, hne, hmissing⟩, -⟩
    have hfound := (hexist i).symm.trans (hall i ((mem_order horder).mpr hi))
    simp [hne, hmissing] at hfound
  · have hmiss : g.Missing c c.subclasses := by
      have hnot := (hexist i).symm.trans hmissing
      exact ⟨i, (mem_order horder).mp hi, by simpa using hnot⟩
    obtain ⟨hmirror₂, hsame₂, -, hedges₂⟩ := linkAll_spec hmirror₁ (fun i hi => ⟨hi, hself⟩) hg₂
    have hprefix : (order c.subclasses).takeWhile (g₁.vertexExist ·) =
        g.linked order c c.subclasses := by
      rw [linked, funext hexist]
    have hsub (x : UInt32) (hx : x ≠ c.lid) :
        g₂.HasSubclass c.lid x ↔ x ∈ g.linked order c c.subclasses := by
      rw [← hmirror₂, hedges₂, hedges x c.lid hx, ← hprefix]
      constructor
      · rintro (hold | ⟨j, hj, heq⟩)
        · rw [((h.graph.mirror _ _).mp hold).vertexExist] at hnew
          cases hnew
        · cases heq
          exact hj
      · exact fun hj => .inr ⟨x, hj, rfl⟩
    have hundo := removeClass_undo_iff horder h hnew hmirror₂ (hsame.trans hsame₂)
      ((methodsOf_linkAll hg₂).trans hmethods) fun b a hb ha => by
        rw [hedges₂, hedges b a hb]
        refine or_iff_left ?_
        rintro ⟨j, -, heq⟩
        exact ha (congrArg Prod.snd heq)
    rw [hloop, Prod.mk.injEq, and_iff_left rfl, hundo]
    constructor
    · rintro ⟨⟨hname, hinv⟩, hflags⟩
      exact ⟨⟨hnew, hname, hinv⟩, hmiss, fun j hj hne => hflags j hne ((hsub j hne).mpr hj)⟩
    · rintro ⟨⟨-, hname, hinv⟩, -, hflags⟩
      exact ⟨⟨hname, hinv⟩, fun j hne hj => hflags j ((hsub j hne).mp hj) hne⟩

theorem updateClass_failed_iff (horder : Iterates order) (h : g.Tidy) :
    g.updateClass order c = (g, eNoClassDefFound) ↔ g.New c ∧ (g.Missing c c.classMarks ∨
      g.Missing c c.subclasses ∧
        ∀ i ∈ g.linked order c c.subclasses, i ≠ c.lid → i ∈ g.invalid) := by
  by_cases hlid : g.graph.vertexExist c.lid = true
  · -- the old version is gone
    refine iff_of_false (fun heq => ?_) fun hnew => ?_
    · have hgone : g.graph.vertexExist c.lid = false := by
        rw [updateClass] at heq
        split at heq
        rename_i g' errcode hadd
        split at heq
        · obtain ⟨rfl, rfl⟩ := Prod.mk.injEq .. ▸ heq
          exact vertexExist_of_failed hadd
        · exact vertexExist_of_failed heq
      rw [hlid] at hgone
      cases hgone
    · rw [hnew.1.vertex] at hlid
      cases hlid
  · rw [Bool.not_eq_true] at hlid
    rw [updateClass, removeClass_of_none hlid]
    obtain ⟨hnot, g₁, hadd, hmirror₁, hsame, hmethods, hedges⟩ | ⟨hmissing, g', hadd, hiff⟩ :=
      markLoop_spec horder h hlid
    · rw [hadd, or_iff_right hnot]
      exact subclassLoop_spec horder h hlid hmirror₁ hsame hmethods hedges
    · rw [hadd]
      simp only [ne_eq, err_ne_zero, not_false_eq_true, if_true, Prod.mk.injEq, and_true, hiff,
        hmissing, true_or]
      exact ⟨fun hnew => ⟨hlid, hnew.1, hnew.2⟩, fun hnew => ⟨hnew.name, hnew.invariant⟩⟩

/-- A person of a class that does not exist. -/
def orphan : ClassObject := { person with classMarks := {9} }

theorem tidy_empty : Tidy {} where
  graph := tidy_of_reaches Store.iterates_toList .refl
  flags := fun _ hi => absurd hi (Finset.notMem_empty _)

theorem tidy_twoClasses : Tidy { graph := twoClasses } where
  graph := tidy_of_reaches Store.iterates_toList legalRun_twoClasses
  flags := fun _ hi => absurd hi (Finset.notMem_empty _)

end FlaggedGraph

end Loxim.QueryExecutor
