import Loxim.Lib.Run
import Loxim.Store.RoundTrip
import Loxim.QueryExecutor.ClassGraph

/-!
# The indexes and the edges of the graph of classes

A class extends another one when it is one of its subclasses, and the indexes have what
the vertices say. Each change is described by what it does to the edges, to the names and
invariants of the vertices, and to the indexes.
-/

namespace Loxim.QueryExecutor.ClassGraph

open Store (Iterates)

variable {order : Finset UInt32 → List UInt32} {g g' : ClassGraph} {lid a b x y : UInt32}
  {v : ClassGraphVertex} {f : ClassGraphVertex → ClassGraphVertex} {l : List UInt32}

theorem mem_order (horder : Iterates order) {s : Finset UInt32} : a ∈ order s ↔ a ∈ s := by
  have hset := (horder s).2
  rw [← List.mem_toFinset, hset]

-- ---------------------------------------------------------------------------
-- What is seen of a graph
-- ---------------------------------------------------------------------------

/-- `b` extends `a`. -/
def Extends (g : ClassGraph) (b a : UInt32) : Prop :=
  ∃ v, g.classGraph b = some v ∧ a ∈ v.extended

/-- `a` has the subclass `b`. -/
def HasSubclass (g : ClassGraph) (a b : UInt32) : Prop :=
  ∃ v, g.classGraph a = some v ∧ b ∈ v.subclasses

/-- The name and the invariant of a class. -/
def label (g : ClassGraph) (lid : UInt32) : Option (String × String) :=
  (g.classGraph lid).map fun v => (v.name, v.invariant)

def Mirror (g : ClassGraph) : Prop := ∀ a b, g.Extends b a ↔ g.HasSubclass a b

theorem vertexExist_iff : g.vertexExist lid = true ↔ ∃ v, g.classGraph lid = some v :=
  Option.isSome_iff_exists

theorem vertexExist_of_label (h : g'.label = g.label) : g'.vertexExist lid = g.vertexExist lid := by
  have hlid := congrFun h lid
  simp only [label] at hlid
  rw [vertexExist, vertexExist, ← Option.isSome_map (f := fun v => (v.name, v.invariant)), hlid,
    Option.isSome_map]

theorem Extends.vertexExist (h : g.Extends b a) : g.vertexExist b = true :=
  let ⟨v, hv, _⟩ := h
  vertexExist_iff.mpr ⟨v, hv⟩

theorem HasSubclass.vertexExist (h : g.HasSubclass a b) : g.vertexExist a = true :=
  let ⟨v, hv, _⟩ := h
  vertexExist_iff.mpr ⟨v, hv⟩

theorem extends_iff (h : g.classGraph b = some v) : g.Extends b a ↔ a ∈ v.extended := by
  simp [Extends, h]

theorem hasSubclass_iff (h : g.classGraph a = some v) : g.HasSubclass a b ↔ b ∈ v.subclasses := by
  simp [HasSubclass, h]

-- ---------------------------------------------------------------------------
-- Changing a vertex
-- ---------------------------------------------------------------------------

theorem modify_self : (g.modify lid f).classGraph lid = (g.classGraph lid).map f :=
  Function.update_self ..

theorem modify_of_ne (h : x ≠ lid) : (g.modify lid f).classGraph x = g.classGraph x :=
  Function.update_of_ne h ..

theorem label_modify (h : ∀ v, (f v).name = v.name ∧ (f v).invariant = v.invariant) :
    (g.modify lid f).label = g.label := by
  funext x
  rcases eq_or_ne x lid with rfl | hne
  · simp only [label, modify_self, Option.map_map]
    congr 1
    funext v
    simp [(h v).1, (h v).2]
  · simp only [label, modify_of_ne hne]

theorem extends_modify (h : ∀ v, (f v).extended = v.extended) :
    (g.modify lid f).Extends b a ↔ g.Extends b a := by
  rcases eq_or_ne b lid with rfl | hne
  · simp [Extends, modify_self, h]
  · simp [Extends, modify_of_ne hne]

theorem hasSubclass_modify (h : ∀ v, (f v).subclasses = v.subclasses) :
    (g.modify lid f).HasSubclass a b ↔ g.HasSubclass a b := by
  rcases eq_or_ne a lid with rfl | hne
  · simp [HasSubclass, modify_self, h]
  · simp [HasSubclass, modify_of_ne hne]

theorem extends_addSubclass : (g.modify x (·.addSubclass y)).Extends b a ↔ g.Extends b a :=
  extends_modify fun _ => rfl

theorem extends_removeSubclass : (g.modify x (·.removeSubclass y)).Extends b a ↔ g.Extends b a :=
  extends_modify fun _ => rfl

theorem hasSubclass_addExtend : (g.modify x (·.addExtend y)).HasSubclass a b ↔ g.HasSubclass a b :=
  hasSubclass_modify fun _ => rfl

theorem hasSubclass_removeExtend :
    (g.modify x (·.removeExtend y)).HasSubclass a b ↔ g.HasSubclass a b :=
  hasSubclass_modify fun _ => rfl

theorem extends_addExtend (h : g.vertexExist x = true) :
    (g.modify x (·.addExtend y)).Extends b a ↔ g.Extends b a ∨ b = x ∧ a = y := by
  obtain ⟨v, hv⟩ := vertexExist_iff.mp h
  rcases eq_or_ne b x with rfl | hne
  · simp [Extends, modify_self, hv, ClassGraphVertex.addExtend, or_comm]
  · simp [Extends, modify_of_ne hne, hne]

theorem hasSubclass_addSubclass (h : g.vertexExist x = true) :
    (g.modify x (·.addSubclass y)).HasSubclass a b ↔ g.HasSubclass a b ∨ a = x ∧ b = y := by
  obtain ⟨v, hv⟩ := vertexExist_iff.mp h
  rcases eq_or_ne a x with rfl | hne
  · simp [HasSubclass, modify_self, hv, ClassGraphVertex.addSubclass, or_comm]
  · simp [HasSubclass, modify_of_ne hne, hne]

theorem extends_removeExtend :
    (g.modify x (·.removeExtend y)).Extends b a ↔ g.Extends b a ∧ ¬ (b = x ∧ a = y) := by
  rcases eq_or_ne b x with rfl | hne
  · cases hv : g.classGraph b with
    | none => simp [Extends, modify_self, hv]
    | some v => simp [Extends, modify_self, hv, ClassGraphVertex.removeExtend, and_comm]
  · simp [Extends, modify_of_ne hne, hne]

theorem hasSubclass_removeSubclass :
    (g.modify x (·.removeSubclass y)).HasSubclass a b ↔ g.HasSubclass a b ∧ ¬ (a = x ∧ b = y) := by
  rcases eq_or_ne a x with rfl | hne
  · cases hv : g.classGraph a with
    | none => simp [HasSubclass, modify_self, hv]
    | some v => simp [HasSubclass, modify_self, hv, ClassGraphVertex.removeSubclass, and_comm]
  · simp [HasSubclass, modify_of_ne hne, hne]

-- ---------------------------------------------------------------------------
-- Linking classes
-- ---------------------------------------------------------------------------

/-- Everything but the edges is the same. -/
structure SameClasses (g g' : ClassGraph) : Prop where
  label : g'.label = g.label
  invariants : g'.invariants = g.invariants
  nameIndex : g'.nameIndex = g.nameIndex

theorem SameClasses.refl (g : ClassGraph) : SameClasses g g := ⟨rfl, rfl, rfl⟩

theorem SameClasses.trans {g'' : ClassGraph} (h : SameClasses g g') (h' : SameClasses g' g'') :
    SameClasses g g'' :=
  ⟨h'.label.trans h.label, h'.invariants.trans h.invariants, h'.nameIndex.trans h.nameIndex⟩

theorem sameClasses_modify (h : ∀ v, (f v).name = v.name ∧ (f v).invariant = v.invariant) :
    SameClasses g (g.modify lid f) := ⟨label_modify h, rfl, rfl⟩

theorem sameClasses_link : SameClasses g (g.link a b) := by
  have hsuper : SameClasses g (g.modify b (·.addSubclass a)) := sameClasses_modify fun _ => ⟨rfl, rfl⟩
  exact hsuper.trans (sameClasses_modify fun _ => ⟨rfl, rfl⟩)

theorem extends_link (h : g.vertexExist a = true) :
    (g.link a b).Extends x y ↔ g.Extends x y ∨ x = a ∧ y = b := by
  have hsuper : SameClasses g (g.modify b (·.addSubclass a)) := sameClasses_modify fun _ => ⟨rfl, rfl⟩
  have ha : (g.modify b (·.addSubclass a)).vertexExist a = true :=
    (vertexExist_of_label hsuper.label).trans h
  rw [link, extends_addExtend ha, extends_addSubclass]

theorem hasSubclass_link (h : g.vertexExist b = true) :
    (g.link a b).HasSubclass y x ↔ g.HasSubclass y x ∨ x = a ∧ y = b := by
  rw [link, hasSubclass_addExtend, hasSubclass_addSubclass h, and_comm (a := x = a)]

theorem Mirror.link (h : g.Mirror) (ha : g.vertexExist a = true) (hb : g.vertexExist b = true) :
    (g.link a b).Mirror := by
  intro y x
  rw [extends_link ha, hasSubclass_link hb, h y x]

/-- A loop that links a class to others, which have to be in the graph. `p` says which is
the subclass. -/
def linkAll (g : ClassGraph) (p : UInt32 → UInt32 × UInt32) (l : List UInt32) : Option ClassGraph :=
  l.foldlM (fun g i => if g.vertexExist i then some (g.link (p i).1 (p i).2) else none) g

/-- The loop adds its edges, and its classes are in the graph. -/
theorem linkAll_spec {p : UInt32 → UInt32 × UInt32} (hmirror : g.Mirror)
    (hp : ∀ i, g.vertexExist i = true → g.vertexExist (p i).1 = true ∧ g.vertexExist (p i).2 = true)
    (h : g.linkAll p l = some g') :
    g'.Mirror ∧ SameClasses g g' ∧ (∀ i ∈ l, g.vertexExist i = true) ∧
      ∀ x y, g'.Extends x y ↔ g.Extends x y ∨ ∃ i ∈ l, (x, y) = p i := by
  induction l generalizing g with
  | nil =>
    cases h
    exact ⟨hmirror, .refl _, nofun, fun x y => by simp⟩
  | cons i l ih =>
    rw [linkAll, List.foldlM_cons] at h
    split at h
    · rename_i hi
      obtain ⟨hsub, hsuper⟩ := hp i hi
      have hsame : SameClasses g (g.link (p i).1 (p i).2) := sameClasses_link
      have hexist (j : UInt32) : (g.link (p i).1 (p i).2).vertexExist j = g.vertexExist j :=
        vertexExist_of_label hsame.label
      obtain ⟨hmirror', hsame', hall, hedges⟩ := ih (hmirror.link hsub hsuper)
        (fun j hj => by
          rw [hexist] at hj ⊢
          rw [hexist]
          exact hp j hj) h
      refine ⟨hmirror', hsame.trans hsame', fun j hj => ?_, fun x y => ?_⟩
      · rcases List.mem_cons.mp hj with rfl | hj
        · exact hi
        · rw [← hexist]
          exact hall j hj
      · rw [hedges, extends_link hsub, List.exists_mem_cons_iff, or_assoc]
        simp only [Prod.ext_iff]
    · cases h

-- ---------------------------------------------------------------------------
-- Removing a class
-- ---------------------------------------------------------------------------

theorem removeFromSubclasses_spec (horder : Iterates order) (g : ClassGraph) (s : Finset UInt32)
    (lid : UInt32) : SameClasses g (g.removeFromSubclasses order s lid) ∧
      (∀ b a, (g.removeFromSubclasses order s lid).Extends b a ↔ g.Extends b a) ∧
      ∀ a b, (g.removeFromSubclasses order s lid).HasSubclass a b ↔
        g.HasSubclass a b ∧ ¬ (a ∈ s ∧ b = lid) := by
  suffices hloop : ∀ (l : List UInt32) (g : ClassGraph),
      SameClasses g (l.foldl (fun g i => g.modify i (·.removeSubclass lid)) g) ∧
      (∀ b a, (l.foldl (fun g i => g.modify i (·.removeSubclass lid)) g).Extends b a ↔
        g.Extends b a) ∧
      ∀ a b, (l.foldl (fun g i => g.modify i (·.removeSubclass lid)) g).HasSubclass a b ↔
        g.HasSubclass a b ∧ ¬ (a ∈ l ∧ b = lid) by
    have hall := hloop (order s) g
    simp only [mem_order horder] at hall
    exact hall
  intro l
  induction l with
  | nil => exact fun g => ⟨.refl g, fun b a => Iff.rfl, fun a b => by simp⟩
  | cons i l ih =>
    intro g
    obtain ⟨hsame, hextends, hsub⟩ := ih (g.modify i (·.removeSubclass lid))
    have hfirst : SameClasses g (g.modify i (·.removeSubclass lid)) :=
      sameClasses_modify fun _ => ⟨rfl, rfl⟩
    refine ⟨hfirst.trans hsame, fun b a => ?_, fun a b => ?_⟩
    · exact (hextends b a).trans extends_removeSubclass
    · rw [List.foldl_cons, hsub a b, hasSubclass_removeSubclass, List.mem_cons]
      tauto

theorem removeFromExtends_spec (horder : Iterates order) (g : ClassGraph) (s : Finset UInt32)
    (lid : UInt32) : SameClasses g (g.removeFromExtends order s lid) ∧
      (∀ a b, (g.removeFromExtends order s lid).HasSubclass a b ↔ g.HasSubclass a b) ∧
      ∀ b a, (g.removeFromExtends order s lid).Extends b a ↔
        g.Extends b a ∧ ¬ (b ∈ s ∧ a = lid) := by
  suffices hloop : ∀ (l : List UInt32) (g : ClassGraph),
      SameClasses g (l.foldl (fun g i => g.modify i (·.removeExtend lid)) g) ∧
      (∀ a b, (l.foldl (fun g i => g.modify i (·.removeExtend lid)) g).HasSubclass a b ↔
        g.HasSubclass a b) ∧
      ∀ b a, (l.foldl (fun g i => g.modify i (·.removeExtend lid)) g).Extends b a ↔
        g.Extends b a ∧ ¬ (b ∈ l ∧ a = lid) by
    have hall := hloop (order s) g
    simp only [mem_order horder] at hall
    exact hall
  intro l
  induction l with
  | nil => exact fun g => ⟨.refl g, fun a b => Iff.rfl, fun b a => by simp⟩
  | cons i l ih =>
    intro g
    obtain ⟨hsame, hsub, hextends⟩ := ih (g.modify i (·.removeExtend lid))
    have hfirst : SameClasses g (g.modify i (·.removeExtend lid)) :=
      sameClasses_modify fun _ => ⟨rfl, rfl⟩
    refine ⟨hfirst.trans hsame, fun a b => ?_, fun b a => ?_⟩
    · exact (hsub a b).trans hasSubclass_removeExtend
    · rw [List.foldl_cons, hextends b a, extends_removeExtend, List.mem_cons]
      tauto

theorem removeFromInvariant_invariants (g : ClassGraph) (lid : UInt32) (name : String) :
    (g.removeFromInvariant lid name).invariants = Function.update g.invariants name none := by
  unfold removeFromInvariant
  split
  · rename_i hnone
    funext x
    rcases eq_or_ne x name with rfl | hne
    · rw [Function.update_self, hnone]
    · rw [Function.update_of_ne hne]
  · rfl

theorem removeFromInvariant_classGraph (g : ClassGraph) (lid : UInt32) (name : String) :
    (g.removeFromInvariant lid name).classGraph = g.classGraph := by
  unfold removeFromInvariant
  split <;> rfl

theorem removeFromInvariant_nameIndex (g : ClassGraph) (lid : UInt32) (name : String) :
    (g.removeFromInvariant lid name).nameIndex = g.nameIndex := by
  unfold removeFromInvariant
  split <;> rfl

/-- The class, its edges and its name are gone, and all of its invariant. -/
theorem removeClass_spec (horder : Iterates order) (hmirror : g.Mirror)
    (hv : g.classGraph lid = some v) :
    (g.removeClass order lid).label = Function.update g.label lid none ∧
      (g.removeClass order lid).nameIndex = Function.update g.nameIndex v.name none ∧
      (g.removeClass order lid).invariants = Function.update g.invariants v.invariant none ∧
      (∀ b a, (g.removeClass order lid).Extends b a ↔ g.Extends b a ∧ b ≠ lid ∧ a ≠ lid) ∧
      ∀ a b, (g.removeClass order lid).HasSubclass a b ↔ g.HasSubclass a b ∧ a ≠ lid ∧ b ≠ lid := by
  let g₁ := (g.removeFromNameIndex v.name).removeFromInvariant lid v.invariant
  have hclass₁ : g₁.classGraph = g.classGraph := removeFromInvariant_classGraph ..
  have hnames₁ : g₁.nameIndex = Function.update g.nameIndex v.name none :=
    removeFromInvariant_nameIndex ..
  have hinv₁ : g₁.invariants = Function.update g.invariants v.invariant none :=
    removeFromInvariant_invariants ..
  have hlabel₁ : g₁.label = g.label := by
    funext x
    simp only [label, hclass₁]
  have hextends₁ (b a : UInt32) : g₁.Extends b a ↔ g.Extends b a := by simp only [Extends, hclass₁]
  have hsub₁ (a b : UInt32) : g₁.HasSubclass a b ↔ g.HasSubclass a b := by
    simp only [HasSubclass, hclass₁]
  obtain ⟨hsame₂, hextends₂, hsub₂⟩ := removeFromSubclasses_spec horder g₁ v.extended lid
  let g₂ := g₁.removeFromSubclasses order v.extended lid
  let subclasses := ((g₂.classGraph lid).map ClassGraphVertex.subclasses).getD ∅
  have hsubclasses (b : UInt32) : b ∈ subclasses ↔ g₂.HasSubclass lid b := by
    show b ∈ ((g₂.classGraph lid).map ClassGraphVertex.subclasses).getD ∅ ↔ _
    cases hlid : g₂.classGraph lid with
    | none => simp [HasSubclass, hlid]
    | some w => simp [HasSubclass, hlid]
  obtain ⟨hsame₃, hsub₃, hextends₃⟩ := removeFromExtends_spec horder g₂ subclasses lid
  let g₃ := g₂.removeFromExtends order subclasses lid
  have hsame := hsame₂.trans hsame₃
  have hresult : g.removeClass order lid =
      { g₃ with classGraph := Function.update g₃.classGraph lid none } := by
    simp only [removeClass, hv]
    rfl
  have hlast_extends (b a : UInt32) :
      (g.removeClass order lid).Extends b a ↔ g₃.Extends b a ∧ b ≠ lid := by
    rw [hresult]
    rcases eq_or_ne b lid with rfl | hne
    · simp [Extends]
    · simp [Extends, hne]
  have hlast_sub (a b : UInt32) :
      (g.removeClass order lid).HasSubclass a b ↔ g₃.HasSubclass a b ∧ a ≠ lid := by
    rw [hresult]
    rcases eq_or_ne a lid with rfl | hne
    · simp [HasSubclass]
    · simp [HasSubclass, hne]
  have hsub (a b : UInt32) : g₂.HasSubclass a b ↔ g.HasSubclass a b ∧ ¬ (a ∈ v.extended ∧ b = lid) := by
    rw [hsub₂, hsub₁]
  refine ⟨?_, ?_, ?_, fun b a => ?_, fun a b => ?_⟩
  · rw [hresult]
    funext x
    rcases eq_or_ne x lid with rfl | hne
    · simp [label]
    · have hx : g₃.label x = g.label x := by rw [hsame.label, hlabel₁]
      simpa [label, Function.update_of_ne hne] using hx
  · rw [hresult]
    exact hsame.nameIndex.trans hnames₁
  · rw [hresult]
    exact hsame.invariants.trans hinv₁
  · rw [hlast_extends, hextends₃, hextends₂, hextends₁, hsubclasses, hsub]
    constructor
    · rintro ⟨⟨hedge, hnot⟩, hb⟩
      refine ⟨hedge, hb, fun ha => ?_⟩
      subst ha
      exact hnot ⟨⟨(hmirror _ _).mp hedge, fun h => hb h.2⟩, rfl⟩
    · rintro ⟨hedge, hb, ha⟩
      exact ⟨⟨hedge, fun h => ha h.2⟩, hb⟩
  · rw [hlast_sub, hsub₃, hsub]
    constructor
    · rintro ⟨⟨hedge, hnot⟩, ha⟩
      refine ⟨hedge, ha, fun hb => ?_⟩
      subst hb
      exact hnot ⟨(extends_iff hv).mp ((hmirror _ _).mpr hedge), rfl⟩
    · rintro ⟨hedge, ha, hb⟩
      exact ⟨⟨hedge, fun h => hb h.2⟩, ha⟩

theorem Mirror.removeClass (horder : Iterates order) (h : g.Mirror) (lid : UInt32) :
    (g.removeClass order lid).Mirror := by
  cases hv : g.classGraph lid with
  | none =>
    have heq : g.removeClass order lid = g := by simp only [ClassGraph.removeClass, hv]
    rw [heq]
    exact h
  | some v =>
    obtain ⟨-, -, -, hextends, hsub⟩ := removeClass_spec horder h hv
    intro a b
    rw [hextends, hsub, h a b, and_comm (a := b ≠ lid)]

-- ---------------------------------------------------------------------------
-- The indexes
-- ---------------------------------------------------------------------------

/-- The indexes have the names and the invariants of the classes. -/
structure Indexed (g : ClassGraph) : Prop where
  names {n : String} {lid : UInt32} : g.nameIndex n = some lid ↔ ∃ i, g.label lid = some (n, i)
  entry {i : String} {lids : Finset UInt32} : i ≠ "" → g.invariants i = some lids →
    lids.Nonempty ∧ ∀ lid, lid ∈ lids ↔ ∃ n, g.label lid = some (n, i)
  noEntry {i n : String} {lid : UInt32} : i ≠ "" → g.invariants i = none →
    g.label lid ≠ some (n, i)

theorem Indexed.of_same (h : g.Indexed) (hsame : SameClasses g g') : g'.Indexed := by
  refine ⟨?_, ?_, ?_⟩
  · rw [hsame.nameIndex, hsame.label]
    exact h.names
  · rw [hsame.invariants, hsame.label]
    exact h.entry
  · rw [hsame.invariants, hsame.label]
    exact h.noEntry

variable {c : ClassObject}

theorem putVertex_classGraph : (g.putVertex c).classGraph =
    Function.update g.classGraph c.lid (some (.initNotGraphProperties c)) := by
  unfold putVertex putToInvariants
  split <;> rfl

theorem putVertex_nameIndex :
    (g.putVertex c).nameIndex = Function.update g.nameIndex c.name (some c.lid) := by
  unfold putVertex putToInvariants
  split <;> rfl

theorem putVertex_invariants : (g.putVertex c).invariants =
    if c.invariant = "" then g.invariants
    else Function.update g.invariants c.invariant
      (some (insert c.lid ((g.invariants c.invariant).getD ∅))) := by
  unfold putVertex putToInvariants
  simp only [String.isEmpty_iff]
  split <;> rfl

theorem putVertex_label :
    (g.putVertex c).label = Function.update g.label c.lid (some (c.name, c.invariant)) := by
  funext x
  rcases eq_or_ne x c.lid with rfl | hne
  · simp [label, putVertex_classGraph, ClassGraphVertex.initNotGraphProperties]
  · simp [label, putVertex_classGraph, Function.update_of_ne hne]

theorem label_eq_none (h : g.vertexExist lid = false) : g.label lid = none := by
  rw [vertexExist, Option.isSome_eq_false_iff, Option.isNone_iff_eq_none] at h
  rw [label, h]
  rfl

/-- A class with a name that no other one has is put into the graph. -/
theorem Indexed.putVertex (h : g.Indexed) (hlid : g.vertexExist c.lid = false)
    (hname : g.nameIndex c.name = none) : (g.putVertex c).Indexed := by
  have hnone := label_eq_none hlid
  have hother (x : UInt32) (i : String) : g.label x ≠ some (c.name, i) := by
    intro hx
    rw [h.names.mpr ⟨i, hx⟩] at hname
    cases hname
  refine ⟨fun {n x} => ?_, fun {i lids} hi hentry => ?_, fun {i n x} hi hentry => ?_⟩
  · rw [putVertex_nameIndex, putVertex_label]
    rcases eq_or_ne n c.name with rfl | hne
    · rw [Function.update_self]
      rcases eq_or_ne x c.lid with rfl | hx
      · simp
      · simp only [Function.update_of_ne hx, hother, exists_false, iff_false]
        exact fun heq => hx (Option.some.inj heq).symm
    · rw [Function.update_of_ne hne, h.names]
      rcases eq_or_ne x c.lid with rfl | hx
      · simp [hnone, hne.symm]
      · rw [Function.update_of_ne hx]
  · rw [putVertex_invariants] at hentry
    rw [putVertex_label]
    split at hentry
    · rename_i hempty
      obtain ⟨hsome, hmem⟩ := h.entry hi hentry
      refine ⟨hsome, fun x => ?_⟩
      rcases eq_or_ne x c.lid with rfl | hx
      · simp [hmem, hnone, hempty, hi.symm]
      · rw [Function.update_of_ne hx, hmem]
    · rename_i hinv
      rcases eq_or_ne i c.invariant with rfl | hne
      · rw [Function.update_self, Option.some.injEq] at hentry
        subst hentry
        refine ⟨Finset.insert_nonempty _ _, fun x => ?_⟩
        rcases eq_or_ne x c.lid with rfl | hx
        · simp
        · rw [Finset.mem_insert, Function.update_of_ne hx]
          simp only [hx, false_or]
          cases hold : g.invariants c.invariant with
          | none => simp [h.noEntry hi hold]
          | some lids => exact (h.entry hi hold).2 x
      · rw [Function.update_of_ne hne] at hentry
        obtain ⟨hsome, hmem⟩ := h.entry hi hentry
        refine ⟨hsome, fun x => ?_⟩
        rcases eq_or_ne x c.lid with rfl | hx
        · simp [hmem, hnone, hne.symm]
        · rw [Function.update_of_ne hx, hmem]
  · rw [putVertex_invariants] at hentry
    rw [putVertex_label]
    have hkept : g.invariants i = none ∧ c.invariant ≠ i := by
      split at hentry
      · rename_i hempty
        exact ⟨hentry, fun heq => hi (heq ▸ hempty)⟩
      · rcases eq_or_ne i c.invariant with rfl | hne
        · rw [Function.update_self] at hentry
          cases hentry
        · rw [Function.update_of_ne hne] at hentry
          exact ⟨hentry, hne.symm⟩
    rcases eq_or_ne x c.lid with rfl | hx
    · simp [hkept.2]
    · rw [Function.update_of_ne hx]
      exact h.noEntry hi hkept.1

/-- No other class has the invariant of a class. -/
def OwnInvariant (g : ClassGraph) (lid : UInt32) : Prop :=
  ∀ n i, g.label lid = some (n, i) → i = "" ∨ ∀ x n', x ≠ lid → g.label x ≠ some (n', i)

theorem Indexed.removeClass (horder : Iterates order) (h : g.Indexed) (hmirror : g.Mirror)
    (hown : g.OwnInvariant lid) : (g.removeClass order lid).Indexed := by
  cases hv : g.classGraph lid with
  | none =>
    have heq : g.removeClass order lid = g := by simp only [ClassGraph.removeClass, hv]
    rw [heq]
    exact h
  | some v =>
    obtain ⟨hlabel, hnames, hinv, -, -⟩ := removeClass_spec horder hmirror hv
    have hself : g.label lid = some (v.name, v.invariant) := by
      rw [label, hv]
      rfl
    have hlid := h.names.mpr ⟨_, hself⟩
    have hkept {i : String} (hi : i ≠ "") (hne : i ≠ v.invariant) :
        (g.removeClass order lid).invariants i = g.invariants i := by
      rw [hinv, Function.update_of_ne hne]
    refine ⟨fun {n x} => ?_, fun {i lids} hi hentry => ?_, fun {i n x} hi hentry => ?_⟩
    · rw [hnames, hlabel]
      rcases eq_or_ne n v.name with rfl | hne
      · rw [Function.update_self]
        rcases eq_or_ne x lid with rfl | hx
        · simp
        · rw [Function.update_of_ne hx, ← h.names, hlid]
          simp [hx.symm]
      · rw [Function.update_of_ne hne, h.names]
        rcases eq_or_ne x lid with rfl | hx
        · simp [hself, hne.symm]
        · rw [Function.update_of_ne hx]
    · rw [hlabel]
      rcases eq_or_ne i v.invariant with rfl | hne
      · rw [hinv, Function.update_self] at hentry
        cases hentry
      · rw [hkept hi hne] at hentry
        obtain ⟨hsome, hmem⟩ := h.entry hi hentry
        refine ⟨hsome, fun x => ?_⟩
        rcases eq_or_ne x lid with rfl | hx
        · simp [hmem, hself, hne.symm]
        · rw [Function.update_of_ne hx, hmem]
    · rw [hlabel]
      rcases eq_or_ne x lid with rfl | hx
      · simp
      · rw [Function.update_of_ne hx]
        rcases eq_or_ne i v.invariant with rfl | hne
        · exact (hown _ _ hself).resolve_left hi x n hx
        · rw [hkept hi hne] at hentry
          exact h.noEntry hi hentry

-- ---------------------------------------------------------------------------
-- Adding and updating a class
-- ---------------------------------------------------------------------------

theorem putVertex_extends (hlid : g.vertexExist c.lid = false) :
    (g.putVertex c).Extends b a ↔ g.Extends b a := by
  rcases eq_or_ne b c.lid with rfl | hne
  · have hnot : ¬ g.Extends c.lid a := fun h => by simp [h.vertexExist] at hlid
    simp [Extends, putVertex_classGraph, ClassGraphVertex.initNotGraphProperties] at hnot ⊢
    exact hnot
  · simp [Extends, putVertex_classGraph, hne]

theorem putVertex_hasSubclass (hlid : g.vertexExist c.lid = false) :
    (g.putVertex c).HasSubclass a b ↔ g.HasSubclass a b := by
  rcases eq_or_ne a c.lid with rfl | hne
  · have hnot : ¬ g.HasSubclass c.lid b := fun h => by simp [h.vertexExist] at hlid
    simp [HasSubclass, putVertex_classGraph, ClassGraphVertex.initNotGraphProperties] at hnot ⊢
    exact hnot
  · simp [HasSubclass, putVertex_classGraph, hne]

theorem putVertex_vertexExist :
    (g.putVertex c).vertexExist x = true ↔ x = c.lid ∨ g.vertexExist x = true := by
  rw [vertexExist, putVertex_classGraph]
  rcases eq_or_ne x c.lid with rfl | hne
  · simp
  · simp [hne, vertexExist]

theorem Mirror.putVertex (h : g.Mirror) (hlid : g.vertexExist c.lid = false) :
    (g.putVertex c).Mirror := by
  intro a b
  rw [putVertex_extends hlid, putVertex_hasSubclass hlid, h a b]

theorem addClass_spec (horder : Iterates order) (hmirror : g.Mirror)
    (hlid : g.vertexExist c.lid = false) (h : g.addClass order c = some g') :
    g'.Mirror ∧ SameClasses (g.putVertex c) g' ∧
      (∀ a ∈ c.classMarks, a = c.lid ∨ g.vertexExist a = true) ∧
      ∀ b a, g'.Extends b a ↔ g.Extends b a ∨ b = c.lid ∧ a ∈ c.classMarks := by
  have hself : (g.putVertex c).vertexExist c.lid = true := putVertex_vertexExist.mpr (Or.inl rfl)
  obtain ⟨hmirror', hsame, hall, hedges⟩ := linkAll_spec (p := fun i => (c.lid, i))
    (hmirror.putVertex hlid) (fun i hi => ⟨hself, hi⟩) h
  refine ⟨hmirror', hsame, fun a ha => ?_, fun b a => ?_⟩
  · exact putVertex_vertexExist.mp (hall a ((mem_order horder).mpr ha))
  · rw [hedges, putVertex_extends hlid]
    simp [mem_order horder, and_comm]

theorem vertexExist_removeClass (horder : Iterates order) (hmirror : g.Mirror) :
    (g.removeClass order lid).vertexExist lid = false := by
  cases hv : g.classGraph lid with
  | none =>
    have heq : g.removeClass order lid = g := by simp only [ClassGraph.removeClass, hv]
    rw [heq, vertexExist, hv]
    rfl
  | some v =>
    have hlabel := congrFun (removeClass_spec horder hmirror hv).1 lid
    rw [Function.update_self, label, Option.map_eq_none_iff] at hlabel
    rw [vertexExist, hlabel]
    rfl

theorem updateClass_spec (horder : Iterates order) (hmirror : g.Mirror)
    (h : g.updateClass order c = some g') :
    g'.Mirror ∧ SameClasses ((g.removeClass order c.lid).putVertex c) g' ∧
      (∀ b ∈ c.subclasses, ((g.removeClass order c.lid).putVertex c).vertexExist b = true) ∧
      ∀ b a, g'.Extends b a ↔ (g.removeClass order c.lid).Extends b a ∨
        b = c.lid ∧ a ∈ c.classMarks ∨ b ∈ c.subclasses ∧ a = c.lid := by
  obtain ⟨g₁, hadd, hloop⟩ := Option.bind_eq_some_iff.mp h
  have hlid : (g.removeClass order c.lid).vertexExist c.lid = false :=
    vertexExist_removeClass horder hmirror
  obtain ⟨hmirror₁, hsame₁, -, hedges₁⟩ :=
    addClass_spec horder (hmirror.removeClass horder c.lid) hlid hadd
  have hself : g₁.vertexExist c.lid = true := by
    rw [vertexExist_of_label hsame₁.label]
    exact putVertex_vertexExist.mpr (Or.inl rfl)
  obtain ⟨hmirror', hsame', hall, hedges⟩ := linkAll_spec (p := fun i => (i, c.lid)) hmirror₁
    (fun i hi => ⟨hi, hself⟩) hloop
  refine ⟨hmirror', hsame₁.trans hsame', fun b hb => ?_, fun b a => ?_⟩
  · rw [← vertexExist_of_label hsame₁.label]
    exact hall b ((mem_order horder).mpr hb)
  · rw [hedges, hedges₁, or_assoc]
    refine or_congr_right (or_congr_right ⟨?_, ?_⟩)
    · rintro ⟨i, hi, heq⟩
      cases heq
      exact ⟨(mem_order horder).mp hi, rfl⟩
    · rintro ⟨hb, rfl⟩
      exact ⟨b, (mem_order horder).mpr hb, rfl⟩

/-- What the calls keep. -/
structure Tidy (g : ClassGraph) : Prop where
  mirror : g.Mirror
  indexed : g.Indexed

theorem Tidy.removeClass (horder : Iterates order) (h : g.Tidy) (hown : g.OwnInvariant lid) :
    (g.removeClass order lid).Tidy :=
  ⟨h.mirror.removeClass horder lid, h.indexed.removeClass horder h.mirror hown⟩

theorem Tidy.addClass (horder : Iterates order) (h : g.Tidy) (hlid : g.vertexExist c.lid = false)
    (hname : g.nameIndex c.name = none) (hs : g.addClass order c = some g') : g'.Tidy := by
  obtain ⟨hmirror, hsame, -, -⟩ := addClass_spec horder h.mirror hlid hs
  exact ⟨hmirror, (h.indexed.putVertex hlid hname).of_same hsame⟩

/-- A name that nobody has or the class itself is free when the class has been removed. -/
theorem nameIndex_removeClass (horder : Iterates order) (h : g.Tidy) {n : String}
    (hname : ∀ x, g.nameIndex n = some x → x = lid) :
    (g.removeClass order lid).nameIndex n = none := by
  cases hv : g.classGraph lid with
  | none =>
    have heq : g.removeClass order lid = g := by simp only [ClassGraph.removeClass, hv]
    rw [heq]
    cases hn : g.nameIndex n with
    | none => rfl
    | some x =>
      obtain ⟨i, hi⟩ := h.indexed.names.mp hn
      rw [hname x hn, label, hv] at hi
      cases hi
  | some v =>
    rw [(removeClass_spec horder h.mirror hv).2.1]
    rcases eq_or_ne n v.name with rfl | hne
    · rw [Function.update_self]
    · rw [Function.update_of_ne hne]
      cases hn : g.nameIndex n with
      | none => rfl
      | some x =>
        obtain ⟨i, hi⟩ := h.indexed.names.mp hn
        rw [hname x hn, label, hv] at hi
        exact absurd (congrArg Prod.fst (Option.some.inj hi)).symm hne

theorem Tidy.updateClass (horder : Iterates order) (h : g.Tidy) (hown : g.OwnInvariant c.lid)
    (hname : ∀ x, g.nameIndex c.name = some x → x = c.lid)
    (hs : g.updateClass order c = some g') : g'.Tidy := by
  obtain ⟨hmirror, hsame, -, -⟩ := updateClass_spec horder h.mirror hs
  have hremoved := h.removeClass horder hown
  have hput := hremoved.indexed.putVertex (vertexExist_removeClass horder h.mirror)
    (nameIndex_removeClass horder h hname)
  exact ⟨hmirror, hput.of_same hsame⟩

-- ---------------------------------------------------------------------------
-- Loading
-- ---------------------------------------------------------------------------

/-- The classes of a store know each other, and no two have the same name. -/
structure Mirrored (store : UInt32 → Option ClassObject) : Prop where
  edges {a b : UInt32} {ca cb : ClassObject} : store a = some ca → store b = some cb →
    (a ∈ cb.classMarks ↔ b ∈ ca.subclasses)
  names {a b : UInt32} {ca cb : ClassObject} : store a = some ca → store b = some cb →
    ca.name = cb.name → a = b

/-- The vertices are as in the store. Those of `open_` do not have all their edges yet. -/
structure Loaded (store : UInt32 → Option ClassObject) (open_ : UInt32 → Prop) (g : ClassGraph) :
    Prop where
  stored {x : UInt32} {v : ClassGraphVertex} : g.classGraph x = some v → ∃ c, store x = some c ∧
    v.name = c.name ∧ v.invariant = c.invariant ∧
      (¬ open_ x → v.extended = c.classMarks ∧ v.subclasses = c.subclasses)
  closed {x y : UInt32} : g.Extends x y ∨ g.HasSubclass x y → g.vertexExist y = true
  indexed : g.Indexed

/-- The vertices that were there are there as they were, but for one. -/
def Grows (g g' : ClassGraph) (P : UInt32 → Prop) : Prop :=
  ∀ x v, P x → g.classGraph x = some v → g'.classGraph x = some v

variable {store : UInt32 → Option ClassObject} {open_ : UInt32 → Prop} {fuel : Nat}

theorem Grows.vertexExist {P : UInt32 → Prop} (h : Grows g g' P) (hP : P x)
    (hx : g.vertexExist x = true) : g'.vertexExist x = true := by
  obtain ⟨v, hv⟩ := vertexExist_iff.mp hx
  exact vertexExist_iff.mpr ⟨v, h x v hP hv⟩

theorem Grows.trans {g'' : ClassGraph} {P : UInt32 → Prop} (h : Grows g g' P) (h' : Grows g' g'' P) :
    Grows g g'' P := fun x v hP hv => h' x v hP (h x v hP hv)

/-- One round of a loop that loads a class and makes an edge to it. -/
def loadEdge (call : ClassGraph → UInt32 → Option ClassGraph) (lid : UInt32)
    (add : UInt32 → ClassGraphVertex → ClassGraphVertex) (g : ClassGraph) (i : UInt32) :
    Option ClassGraph := do
  let g ← if g.vertexExist i then some g else call g i
  return g.modify lid (add i)

theorem loadEdge_eq_some {call : ClassGraph → UInt32 → Option ClassGraph}
    {add : UInt32 → ClassGraphVertex → ClassGraphVertex} (h : loadEdge call lid add g x = some g') :
    ∃ g₁, (g.vertexExist x = true ∧ g₁ = g ∨ call g x = some g₁) ∧ g' = g₁.modify lid (add x) := by
  unfold loadEdge at h
  split at h
  · rename_i hx
    exact ⟨g, Or.inl ⟨hx, rfl⟩, (Option.some.inj h).symm⟩
  · obtain ⟨g₁, hcall, hedge⟩ := Option.bind_eq_some_iff.mp h
    exact ⟨g₁, Or.inr hcall, (Option.some.inj hedge).symm⟩

/-- The calls of the loop keep `Good`, and so do its edges. The vertex gets them all. -/
theorem loadEdges_spec {Good : ClassGraph → Prop}
    {call : ClassGraph → UInt32 → Option ClassGraph}
    {add : UInt32 → ClassGraphVertex → ClassGraphVertex}
    (hcall : ∀ g i g', Good g → call g i = some g' →
      Good g' ∧ g'.vertexExist i = true ∧ Grows g g' fun _ => True)
    (hadd : ∀ g i, i ∈ l → Good g → g.vertexExist lid = true → g.vertexExist i = true →
      Good (g.modify lid (add i)))
    (hgood : Good g) (hv : g.classGraph lid = some v)
    (h : l.foldlM (loadEdge call lid add) g = some g') :
    Good g' ∧ Grows g g' (· ≠ lid) ∧
      g'.classGraph lid = some (l.foldl (fun v i => add i v) v) := by
  induction l generalizing g v with
  | nil =>
    cases h
    exact ⟨hgood, fun x w _ hw => hw, hv⟩
  | cons i l ih =>
    rw [List.foldlM_cons] at h
    obtain ⟨g₂, hround, hrest⟩ := Option.bind_eq_some_iff.mp h
    obtain ⟨g₁, hload, rfl⟩ := loadEdge_eq_some hround
    have hloaded : Good g₁ ∧ g₁.vertexExist i = true ∧ Grows g g₁ fun _ => True := by
      rcases hload with ⟨hi, rfl⟩ | hload
      · exact ⟨hgood, hi, fun x w _ hw => hw⟩
      · exact hcall g i g₁ hgood hload
    obtain ⟨hgood₁, hi, hgrows⟩ := hloaded
    have hv₁ := hgrows lid v trivial hv
    have hlid : g₁.vertexExist lid = true := vertexExist_iff.mpr ⟨v, hv₁⟩
    have hv₂ : (g₁.modify lid (add i)).classGraph lid = some (add i v) := by
      rw [modify_self, hv₁]
      rfl
    obtain ⟨hgood', hgrows', hlast⟩ := ih
      (fun g j hj => hadd g j (List.mem_cons_of_mem i hj))
      (hadd g₁ i List.mem_cons_self hgood₁ hlid hi) hv₂ hrest
    refine ⟨hgood', fun x w hx hw => hgrows' x w hx ?_, hlast⟩
    rw [modify_of_ne hx]
    exact hgrows x w trivial hw

theorem completeFrom_eq : completeFrom order store (fuel + 1) g lid =
    if g.vertexExist lid then some g
    else (store lid).bind fun c =>
      ((order c.classMarks).foldlM
        (loadEdge (completeFrom order store fuel) lid fun i v => v.addExtend i)
        (g.putVertex { c with lid })).bind
      ((order c.subclasses).foldlM
        (loadEdge (completeFrom order store fuel) lid fun i v => v.addSubclass i)) := rfl

theorem foldl_addExtend (l : List UInt32) (v : ClassGraphVertex) :
    l.foldl (fun v i => v.addExtend i) v = { v with extended := l.toFinset ∪ v.extended } := by
  induction l generalizing v with
  | nil => simp
  | cons i l ih =>
    rw [List.foldl_cons, ih]
    simp [ClassGraphVertex.addExtend, Finset.union_insert, Finset.insert_union]

theorem foldl_addSubclass (l : List UInt32) (v : ClassGraphVertex) :
    l.foldl (fun v i => v.addSubclass i) v = { v with subclasses := l.toFinset ∪ v.subclasses } := by
  induction l generalizing v with
  | nil => simp
  | cons i l ih =>
    rw [List.foldl_cons, ih]
    simp [ClassGraphVertex.addSubclass, Finset.union_insert, Finset.insert_union]

/-- An edge of a vertex that is still open. -/
theorem Loaded.modify (h : Loaded store open_ g) (hopen : open_ lid)
    (hlabel : ∀ v, (f v).name = v.name ∧ (f v).invariant = v.invariant)
    (hedges : ∀ v y, y ∈ (f v).extended ∨ y ∈ (f v).subclasses →
      y ∈ v.extended ∨ y ∈ v.subclasses ∨ g.vertexExist y = true) :
    Loaded store open_ (g.modify lid f) := by
  have hexist (y : UInt32) : (g.modify lid f).vertexExist y = g.vertexExist y :=
    vertexExist_of_label (label_modify hlabel)
  refine ⟨fun {x v} hv => ?_, fun {x y} hedge => ?_, h.indexed.of_same (sameClasses_modify hlabel)⟩
  · rcases eq_or_ne x lid with rfl | hne
    · rw [modify_self, Option.map_eq_some_iff] at hv
      obtain ⟨w, hw, rfl⟩ := hv
      obtain ⟨c, hc, hname, hinv, -⟩ := h.stored hw
      exact ⟨c, hc, (hlabel w).1.trans hname, (hlabel w).2.trans hinv, fun hnot => absurd hopen hnot⟩
    · rw [modify_of_ne hne] at hv
      exact h.stored hv
  · rw [hexist]
    rcases eq_or_ne x lid with rfl | hne
    · cases hx : g.classGraph x with
      | none => simp [Extends, HasSubclass, modify_self, hx] at hedge
      | some w =>
        simp only [Extends, HasSubclass, modify_self, hx, Option.map_some, Option.some.injEq,
          exists_eq_left'] at hedge
        rcases hedges w y hedge with hold | hold | hnew
        · exact h.closed (Or.inl ⟨w, hx, hold⟩)
        · exact h.closed (Or.inr ⟨w, hx, hold⟩)
        · exact hnew
    · simp only [Extends, HasSubclass, modify_of_ne hne] at hedge
      exact h.closed hedge

theorem Loaded.addExtend (h : Loaded store open_ g) (hopen : open_ lid)
    (hx : g.vertexExist x = true) : Loaded store open_ (g.modify lid (·.addExtend x)) := by
  refine h.modify hopen (fun _ => ⟨rfl, rfl⟩) fun v y hy => ?_
  simp only [ClassGraphVertex.addExtend, Finset.mem_insert] at hy
  rcases hy with (rfl | hy) | hy
  · exact Or.inr (Or.inr hx)
  · exact Or.inl hy
  · exact Or.inr (Or.inl hy)

theorem Loaded.addSubclass (h : Loaded store open_ g) (hopen : open_ lid)
    (hx : g.vertexExist x = true) : Loaded store open_ (g.modify lid (·.addSubclass x)) := by
  refine h.modify hopen (fun _ => ⟨rfl, rfl⟩) fun v y hy => ?_
  simp only [ClassGraphVertex.addSubclass, Finset.mem_insert] at hy
  rcases hy with hy | (rfl | hy)
  · exact Or.inl hy
  · exact Or.inr (Or.inr hx)
  · exact Or.inr (Or.inl hy)

/-- The vertex has its edges and is no longer open. -/
theorem Loaded.close (h : Loaded store (fun x => open_ x ∨ x = lid) g) {c : ClassObject}
    (hc : store lid = some c) (hv : g.classGraph lid = some v) (hextended : v.extended = c.classMarks)
    (hsubclasses : v.subclasses = c.subclasses) : Loaded store open_ g := by
  refine ⟨fun {x w} hw => ?_, h.closed, h.indexed⟩
  obtain ⟨c', hc', hname, hinv, hedges⟩ := h.stored hw
  refine ⟨c', hc', hname, hinv, fun hnot => ?_⟩
  rcases eq_or_ne x lid with rfl | hne
  · cases hc.symm.trans hc'
    cases hv.symm.trans hw
    exact ⟨hextended, hsubclasses⟩
  · exact hedges fun hor => hor.elim hnot hne

theorem Loaded.putVertex (hstore : Mirrored store) (h : Loaded store open_ g)
    (hlid : g.vertexExist lid = false) {c : ClassObject} (hc : store lid = some c) :
    Loaded store (fun x => open_ x ∨ x = lid) (g.putVertex { c with lid }) := by
  have hname : g.nameIndex c.name = none := by
    cases hn : g.nameIndex c.name with
    | none => rfl
    | some x =>
      obtain ⟨i, hi⟩ := h.indexed.names.mp hn
      rw [label, Option.map_eq_some_iff] at hi
      obtain ⟨v, hv, heq⟩ := hi
      obtain ⟨c', hc', hname, -⟩ := h.stored hv
      have hx : x = lid := hstore.names hc' hc (hname.symm.trans (congrArg Prod.fst heq))
      rw [vertexExist, ← hx, hv] at hlid
      cases hlid
  refine ⟨fun {x v} hv => ?_, fun {x y} hedge => ?_, h.indexed.putVertex hlid hname⟩
  · rw [putVertex_classGraph] at hv
    rcases eq_or_ne x lid with rfl | hne
    · rw [Function.update_self, Option.some.injEq] at hv
      subst hv
      exact ⟨c, hc, rfl, rfl, fun hnot => absurd (Or.inr rfl) hnot⟩
    · rw [Function.update_of_ne hne] at hv
      obtain ⟨c', hc', hname', hinv, hedges⟩ := h.stored hv
      exact ⟨c', hc', hname', hinv, fun hnot => hedges fun hopen => hnot (Or.inl hopen)⟩
  · rw [putVertex_extends hlid, putVertex_hasSubclass hlid] at hedge
    exact putVertex_vertexExist.mpr (Or.inr (h.closed hedge))

/-- A call loads a class with everything that is reached from it. -/
theorem completeFrom_spec (horder : Iterates order) (hstore : Mirrored store)
    (h : Loaded store open_ g) (hs : completeFrom order store fuel g lid = some g') :
    Loaded store open_ g' ∧ g'.vertexExist lid = true ∧ Grows g g' fun _ => True := by
  induction fuel generalizing g g' lid open_ with
  | zero => cases hs
  | succ fuel ih =>
    rw [completeFrom_eq] at hs
    split at hs
    · rename_i hlid
      cases hs
      exact ⟨h, hlid, fun x v _ hv => hv⟩
    · rename_i hlid
      rw [Bool.not_eq_true] at hlid
      obtain ⟨c, hc, hs⟩ := Option.bind_eq_some_iff.mp hs
      obtain ⟨g₁, hmarks, hs⟩ := Option.bind_eq_some_iff.mp hs
      have hput := h.putVertex hstore hlid hc
      have hv₀ : (g.putVertex { c with lid }).classGraph lid =
          some (.initNotGraphProperties { c with lid }) := by
        rw [putVertex_classGraph, Function.update_self]
      have hgrows₀ : Grows g (g.putVertex { c with lid }) fun x => x ≠ lid := by
        intro x v hx hv
        rw [putVertex_classGraph, Function.update_of_ne hx, hv]
      have hcall (g : ClassGraph) (i : UInt32) (g' : ClassGraph)
          (hg : Loaded store (fun x => open_ x ∨ x = lid) g)
          (hs : completeFrom order store fuel g i = some g') := ih hg hs
      obtain ⟨hloaded₁, hgrows₁, hv₁⟩ := loadEdges_spec hcall
        (fun g i _ hg _ hi => hg.addExtend (Or.inr rfl) hi) hput hv₀ hmarks
      obtain ⟨hloaded₂, hgrows₂, hv₂⟩ := loadEdges_spec hcall
        (fun g i _ hg _ hi => hg.addSubclass (Or.inr rfl) hi) hloaded₁ hv₁ hs
      have hset (t : Finset UInt32) : (order t).toFinset = t := (horder t).2
      refine ⟨hloaded₂.close hc hv₂ ?_ ?_, vertexExist_iff.mpr ⟨_, hv₂⟩, fun x v _ hv => ?_⟩
      · rw [foldl_addSubclass, foldl_addExtend, hset]
        exact Finset.union_empty c.classMarks
      · rw [foldl_addSubclass, foldl_addExtend]
        show (order c.subclasses).toFinset ∪ ∅ = c.subclasses
        rw [hset, Finset.union_empty]
      · have hx : x ≠ lid := by
          rintro rfl
          rw [vertexExist, hv] at hlid
          cases hlid
        exact hgrows₂ x v hx (hgrows₁ x v hx (hgrows₀ x v hx hv))

/-- A graph that is as the store has it. -/
theorem Loaded.tidy (hstore : Mirrored store) (h : Loaded store (fun _ => False) g) : g.Tidy := by
  refine ⟨fun a b => ?_, h.indexed⟩
  constructor
  · rintro ⟨vb, hb, hmem⟩
    obtain ⟨va, ha⟩ := vertexExist_iff.mp (h.closed (Or.inl ⟨vb, hb, hmem⟩))
    obtain ⟨cb, hcb, -, -, hfullb⟩ := h.stored hb
    obtain ⟨ca, hca, -, -, hfulla⟩ := h.stored ha
    rw [(hfullb id).1] at hmem
    refine ⟨va, ha, ?_⟩
    rw [(hfulla id).2]
    exact (hstore.edges hca hcb).mp hmem
  · rintro ⟨va, ha, hmem⟩
    obtain ⟨vb, hb⟩ := vertexExist_iff.mp (h.closed (Or.inr ⟨va, ha, hmem⟩))
    obtain ⟨cb, hcb, -, -, hfullb⟩ := h.stored hb
    obtain ⟨ca, hca, -, -, hfulla⟩ := h.stored ha
    rw [(hfulla id).2] at hmem
    refine ⟨vb, hb, ?_⟩
    rw [(hfullb id).1]
    exact (hstore.edges hca hcb).mpr hmem

-- ---------------------------------------------------------------------------
-- Sequences of calls
-- ---------------------------------------------------------------------------

inductive Event
  | addClass (c : ClassObject)
  | updateClass (c : ClassObject)
  | removeClass (lid : UInt32)
  | completeSubgraph (store : UInt32 → Option ClassObject) (lid : UInt32)

/-- A call that succeeds. -/
def step (order : Finset UInt32 → List UInt32) (g : ClassGraph) : Event → Option ClassGraph
  | .addClass c => g.addClass order c
  | .updateClass c => g.updateClass order c
  | .removeClass lid => some (g.removeClass order lid)
  | .completeSubgraph store lid => g.completeSubgraph order store lid

/-- Classes are added with new ids and names and keep their names, and the graph is
loaded from a store whose classes know each other. -/
def Legal (g : ClassGraph) : Event → Prop
  | .addClass c => g.vertexExist c.lid = false ∧ g.nameIndex c.name = none
  | .updateClass c => ∀ x, g.nameIndex c.name = some x → x = c.lid
  | .removeClass _ => True
  | .completeSubgraph store _ => Mirrored store ∧ Loaded store (fun _ => False) g

/-- A class that is removed shares its invariant with no other. -/
def Alone (g : ClassGraph) : Event → Prop
  | .updateClass c => g.OwnInvariant c.lid
  | .removeClass lid => g.OwnInvariant lid
  | .addClass _ | .completeSubgraph _ _ => True

theorem Tidy.step (horder : Iterates order) (h : g.Tidy) {ev : Event} (hlegal : g.Legal ev)
    (halone : g.Alone ev) (hs : g.step order ev = some g') : g'.Tidy := by
  cases ev with
  | addClass c => exact h.addClass horder hlegal.1 hlegal.2 hs
  | updateClass c => exact h.updateClass horder halone hlegal hs
  | removeClass lid =>
    cases hs
    exact h.removeClass horder halone
  | completeSubgraph store lid =>
    exact (completeFrom_spec horder hlegal.1 hlegal.2 hs).1.tidy hlegal.1

theorem tidy_empty : ({} : ClassGraph).Tidy := by
  refine ⟨fun a b => ?_, ?_, nofun, nofun⟩
  · simp [Extends, HasSubclass]
  · simp [label]

theorem tidy_of_reaches (horder : Iterates order)
    (h : Reaches (step order) (fun g ev => g.Legal ev ∧ g.Alone ev) {} g) : g.Tidy :=
  h.invariant tidy_empty fun _ _ _ hg hok hs => hg.step horder hok.1 hok.2 hs

/-- As long as no class that is removed or updated shares its invariant with another one,
the edges go both ways, and the indexes have exactly the invariants and the names of the
classes. -/
theorem classGraph_consistent (horder : Iterates order)
    (h : Reaches (step order) (fun g ev => g.Legal ev ∧ g.Alone ev) {} g) :
    (∀ a b va vb, g.classGraph a = some va → g.classGraph b = some vb →
      (a ∈ vb.extended ↔ b ∈ va.subclasses)) ∧
    (∀ name lids, name ≠ "" → (g.invariants name = some lids ↔ lids.Nonempty ∧
      ∀ lid, lid ∈ lids ↔ ∃ v, g.classGraph lid = some v ∧ v.invariant = name)) ∧
    ∀ name lid, g.nameIndex name = some lid ↔ ∃ v, g.classGraph lid = some v ∧ v.name = name := by
  have htidy := tidy_of_reaches horder h
  have hname (name : String) (lid : UInt32) :
      (∃ i, g.label lid = some (name, i)) ↔ ∃ v, g.classGraph lid = some v ∧ v.name = name := by
    simp [label]
  have hinv (name : String) (lid : UInt32) :
      (∃ n, g.label lid = some (n, name)) ↔ ∃ v, g.classGraph lid = some v ∧ v.invariant = name := by
    simp [label]
  refine ⟨fun a b va vb ha hb => ?_, fun name lids hne => ⟨fun hentry => ?_, ?_⟩, fun name lid => ?_⟩
  · rw [← extends_iff hb, ← hasSubclass_iff ha]
    exact htidy.mirror a b
  · obtain ⟨hsome, hmem⟩ := htidy.indexed.entry hne hentry
    exact ⟨hsome, fun lid => (hmem lid).trans (hinv name lid)⟩
  · rintro ⟨⟨x, hx⟩, hmem⟩
    cases hentry : g.invariants name with
    | none =>
      obtain ⟨n, hn⟩ := (hinv name x).mpr ((hmem x).mp hx)
      exact absurd hn (htidy.indexed.noEntry hne hentry)
    | some lids' =>
      have hmem' := (htidy.indexed.entry hne hentry).2
      congr 1
      ext y
      rw [hmem' y, hmem y, hinv]
  · rw [htidy.indexed.names, hname]

/-- A class with the invariant of all persons. -/
def person : ClassObject := { lid := 1, name := "Person", invariant := "I" }

def student : ClassObject := { lid := 2, name := "Student", invariant := "I" }

/-- The graph of two classes without edges. -/
def twoClasses : ClassGraph := (({} : ClassGraph).putVertex person).putVertex student

theorem addClass_of_noMarks (g : ClassGraph) {c : ClassObject} (h : c.classMarks = ∅) :
    g.addClass Finset.toList c = some (g.putVertex c) := by
  rw [addClass, h, Finset.toList_empty]
  rfl

theorem reaches_twoClasses {ok : ClassGraph → Event → Prop} (hperson : ok {} (.addClass person))
    (hstudent : ok (({} : ClassGraph).putVertex person) (.addClass student)) :
    Reaches (step Finset.toList) ok {} twoClasses := by
  have h : Reaches (step Finset.toList) ok {} (({} : ClassGraph).putVertex person) :=
    Reaches.refl.step hperson (addClass_of_noMarks {} rfl)
  exact h.step hstudent (addClass_of_noMarks _ rfl)

theorem legal_person : ({} : ClassGraph).Legal (.addClass person) := ⟨rfl, rfl⟩

theorem legal_student : (({} : ClassGraph).putVertex person).Legal (.addClass student) := by
  constructor <;> decide

theorem legalRun_twoClasses :
    Reaches (step Finset.toList) (fun g ev => g.Legal ev ∧ g.Alone ev) {} twoClasses :=
  reaches_twoClasses ⟨legal_person, trivial⟩ ⟨legal_student, trivial⟩

theorem classGraph_consistent_twoClasses :
    twoClasses.nameIndex "Student" = some 2 ↔
      ∃ v, twoClasses.classGraph 2 = some v ∧ v.name = "Student" :=
  (classGraph_consistent Store.iterates_toList legalRun_twoClasses).2.2 "Student" 2

/-- A class is removed, and the index loses the other one that has the invariant too. -/
theorem invariant_lost :
    ∃ g, Reaches (step Finset.toList) Legal {} g ∧ g.invariants "I" = none ∧
      ∃ v, g.classGraph 2 = some v ∧ v.invariant = "I" := by
  have htidy : twoClasses.Tidy := tidy_of_reaches Store.iterates_toList legalRun_twoClasses
  have hperson : twoClasses.classGraph 1 = some (.initNotGraphProperties person) := rfl
  obtain ⟨hlabel, -, hinvariants, -, -⟩ :=
    removeClass_spec Store.iterates_toList htidy.mirror hperson
  refine ⟨twoClasses.removeClass Finset.toList 1, ?_, ?_, ?_⟩
  · exact (reaches_twoClasses legal_person legal_student).step (a := Event.removeClass 1) trivial rfl
  · rw [hinvariants]
    exact Function.update_self ..
  · have hstudent : (twoClasses.removeClass Finset.toList 1).label 2 = some ("Student", "I") := by
      rw [hlabel, Function.update_of_ne (by decide)]
      rfl
    simp only [label, Option.map_eq_some_iff, Prod.mk.injEq] at hstudent
    obtain ⟨v, hv, -, hinvariant⟩ := hstudent
    exact ⟨v, hv, hinvariant⟩

end Loxim.QueryExecutor.ClassGraph
