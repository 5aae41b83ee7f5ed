import Loxim.Lib.Acyclic
import Loxim.Lib.OrderedMap
import Mathlib.Data.Finset.Erase
import Mathlib.Data.Finset.Lattice.Fold
import Mathlib.Data.String.Basic

/-!
# Which implementation an interface is bound to

An interface is bound to a class, a view or another interface. A second map says which
interfaces show an implementation; what it holds under an implementation outlives the
bind when the interface is bound again. Neither walk over the binds remembers where it
has been.
-/

namespace Loxim.QueryExecutor

inductive BindType
  | bindInterface
  | bindClass
  | bindView
deriving DecidableEq

structure ImplementationInfo where
  name : String := ""
  objectName : String := ""
  type : BindType := .bindClass
deriving DecidableEq

structure BindMap where
  intToImp : OrderedMap String ImplementationInfo := ∅
  /-- Implementation to interfaces. -/
  reverseMap : OrderedMap String (Finset String) := ∅

namespace BindMap

open OrderedMap (alter)

variable (b : BindMap)

def hasBind (interface : String) : Bool := (b.intToImp.lookup interface).isSome

/-- An implementation without an entry is shown by no interface. -/
def interfacesShowingImplementation (implementationName : String) : Finset String :=
  (b.reverseMap.lookup implementationName).getD ∅

def addToReverseMap (interface implementation : String) : BindMap :=
  { b with
    reverseMap := alter b.reverseMap implementation fun s => insert interface (s.getD ∅) }

def removeInterfaceFromReverseMap (interface implementation : String) : BindMap :=
  { b with
    reverseMap := alter b.reverseMap implementation fun s => (s.getD ∅).erase interface }

/-- The entry of the implementation the interface was bound to before stays as it is. -/
def addBind (interface boundName boundObjectName : String) (t : BindType) : BindMap :=
  let iI : ImplementationInfo := { name := boundName, objectName := boundObjectName, type := t }
  { b with intToImp := b.intToImp.insert interface iI }.addToReverseMap interface boundName

def removeBind (interface : String) : BindMap :=
  let iI := (b.intToImp.lookup interface).getD {}
  { b with intToImp := b.intToImp.erase interface }.removeInterfaceFromReverseMap interface iI.name

def removeEntriesForImplementation (implementationName : String) : BindMap :=
  let b' := (elements (b.interfacesShowingImplementation implementationName)).foldl removeBind b
  { b' with reverseMap := b'.reverseMap.erase implementationName }

def changeObjectNameForImplementation (implementationName newObjectName : String) : BindMap :=
  { b with
    intToImp := (elements (b.interfacesShowingImplementation implementationName)).foldl
      (fun m interfaceName =>
        alter m interfaceName fun iI => { iI.getD {} with objectName := newObjectName })
      b.intToImp }

/-- The interface and all that are bound to it through others. The first argument bounds the
depth of the calls. -/
def getAllBoundNames : Nat → String → Option (Finset String)
  | 0, _ => none
  | n + 1, interfaceName =>
    (elements (b.interfacesShowingImplementation interfaceName)).foldlM
      (fun names pointingName => do
        let ppNameSet ← getAllBoundNames n pointingName
        pure (names ∪ ppNameSet))
      {interfaceName}

/-- What the interface is bound to, if it is; with `final` the implementation at the end of
the chain. The first argument bounds the depth of the calls. -/
def getImpForInterface (final : Bool) : Nat → String → Option (Option ImplementationInfo)
  | 0, _ => none
  | n + 1, iName =>
    match b.intToImp.lookup iName with
    | none => some none
    | some out =>
      if final ∧ out.type = .bindInterface then getImpForInterface final n out.name
      else some (some out)

-- ---------------------------------------------------------------------------
-- The two relations
-- ---------------------------------------------------------------------------

/-- The interface `i` is bound to the interface `j`. -/
def BoundTo (i j : String) : Prop :=
  ∃ info, b.intToImp.lookup i = some info ∧ info.type = .bindInterface ∧ info.name = j

/-- Among the interfaces that show `j` is `i`. -/
def Shown (j i : String) : Prop := i ∈ b.interfacesShowingImplementation j

instance (j i : String) : Decidable (b.Shown j i) := inferInstanceAs (Decidable (_ ∈ _))

/-- A bind to an interface is in both maps. -/
def Listed : Prop := ∀ i j, b.BoundTo i j → b.Shown j i

variable {b} {i j imp interface obj : String} {t : BindType} {n : Nat}

theorem boundTo_iff (h : b.intToImp.lookup i = some info) :
    b.BoundTo i j ↔ info.type = .bindInterface ∧ info.name = j := by
  unfold BoundTo
  rw [h]
  simp

theorem shown_alter {f : Finset String → Finset String} :
    ({ b with reverseMap := alter b.reverseMap imp fun s => f (s.getD ∅) } : BindMap).Shown j i ↔
      if j = imp then i ∈ f (b.interfacesShowingImplementation j) else b.Shown j i := by
  unfold Shown interfacesShowingImplementation
  rw [OrderedMap.lookup_alter]
  split
  · rfl
  · rfl

theorem shown_addToReverseMap :
    (b.addToReverseMap interface imp).Shown j i ↔
      j = imp ∧ i = interface ∨ b.Shown j i := by
  unfold addToReverseMap
  rw [shown_alter (f := insert interface)]
  split
  · rename_i h
    simp [h, Shown]
  · rename_i h
    simp [h]

theorem shown_removeInterfaceFromReverseMap :
    (b.removeInterfaceFromReverseMap interface imp).Shown j i ↔
      b.Shown j i ∧ ¬ (j = imp ∧ i = interface) := by
  unfold removeInterfaceFromReverseMap
  rw [shown_alter (f := fun s => s.erase interface)]
  split
  · rename_i h
    rw [Finset.mem_erase]
    simp only [h, Shown, true_and]
    exact and_comm
  · rename_i h
    simp [h]

theorem shown_addBind :
    (b.addBind interface imp obj t).Shown j i ↔ j = imp ∧ i = interface ∨ b.Shown j i :=
  shown_addToReverseMap

theorem boundTo_addBind :
    (b.addBind interface imp obj t).BoundTo i j ↔
      if i = interface then t = .bindInterface ∧ imp = j else b.BoundTo i j := by
  unfold BoundTo addBind addToReverseMap
  rw [OrderedMap.lookup_insert_eq]
  split
  · simp
  · rfl

theorem shown_removeBind :
    (b.removeBind interface).Shown j i ↔ b.Shown j i ∧
      ¬ (j = ((b.intToImp.lookup interface).getD {}).name ∧ i = interface) :=
  shown_removeInterfaceFromReverseMap

theorem boundTo_removeBind :
    (b.removeBind interface).BoundTo i j ↔ i ≠ interface ∧ b.BoundTo i j := by
  unfold BoundTo removeBind removeInterfaceFromReverseMap
  rw [OrderedMap.lookup_erase_eq]
  split
  · rename_i h
    simp [h]
  · rename_i h
    simp [h]

theorem Listed.addBind (h : b.Listed) : (b.addBind interface imp obj t).Listed := by
  intro i j hbound
  rw [boundTo_addBind] at hbound
  rw [shown_addBind]
  split at hbound
  · rename_i hi
    exact Or.inl ⟨hbound.2.symm, hi⟩
  · exact Or.inr (h i j hbound)

theorem Listed.removeBind (h : b.Listed) : (b.removeBind interface).Listed := by
  intro i j hbound
  obtain ⟨hi, hbound⟩ := boundTo_removeBind.mp hbound
  exact shown_removeBind.mpr ⟨h i j hbound, fun hsame => hi hsame.2⟩

-- ---------------------------------------------------------------------------
-- Removals
-- ---------------------------------------------------------------------------

theorem foldl_removeBind (l : List String) (b : BindMap) :
    (∀ j i, (l.foldl BindMap.removeBind b).Shown j i → b.Shown j i) ∧
      (b.Listed → (l.foldl BindMap.removeBind b).Listed) ∧
      ∀ i j, (l.foldl BindMap.removeBind b).BoundTo i j ↔ i ∉ l ∧ b.BoundTo i j := by
  induction l generalizing b with
  | nil => simp
  | cons a l ih =>
    obtain ⟨hshown, hlisted, hbound⟩ := ih (b.removeBind a)
    refine ⟨fun j i h => (shown_removeBind.mp (hshown j i h)).1,
      fun h => hlisted h.removeBind, fun i j => ?_⟩
    rw [List.foldl_cons, hbound, boundTo_removeBind, List.mem_cons, not_or]
    constructor
    · rintro ⟨hl, ha, h⟩
      exact ⟨⟨ha, hl⟩, h⟩
    · rintro ⟨⟨ha, hl⟩, h⟩
      exact ⟨hl, ha, h⟩

theorem shown_erase (b : BindMap) :
    ({ b with reverseMap := b.reverseMap.erase imp } : BindMap).Shown j i ↔
      j ≠ imp ∧ b.Shown j i := by
  unfold Shown interfacesShowingImplementation
  rw [OrderedMap.lookup_erase_eq]
  split
  · rename_i h
    simp [h]
  · rename_i h
    simp [h]

theorem shown_of_removeEntriesForImplementation
    (h : (b.removeEntriesForImplementation imp).Shown j i) : b.Shown j i :=
  (foldl_removeBind _ b).1 j i ((shown_erase _).mp h).2

theorem Listed.removeEntriesForImplementation (h : b.Listed) :
    (b.removeEntriesForImplementation imp).Listed := by
  obtain ⟨_, hlisted, hbound⟩ :=
    foldl_removeBind (elements (b.interfacesShowingImplementation imp)) b
  intro i j hij
  refine (shown_erase _).mpr ⟨?_, hlisted h i j hij⟩
  -- What was bound to the implementation is among the binds that have been removed.
  rintro rfl
  obtain ⟨hi, hbound⟩ := (hbound i j).mp hij
  exact hi (mem_elements.mpr (h i j hbound))

theorem boundTo_of_changeObjectName
    (h : (b.changeObjectNameForImplementation imp obj).BoundTo i j) : b.BoundTo i j := by
  obtain ⟨info, hinfo, htype, hname⟩ := h
  unfold changeObjectNameForImplementation at hinfo
  simp only at hinfo
  rw [OrderedMap.lookup_foldl_alter (nodup_elements _)] at hinfo
  split at hinfo
  · cases Option.some.inj hinfo
    -- An entry that is made here is not for an interface.
    cases hold : b.intToImp.lookup i with
    | none =>
      rw [hold] at htype
      cases htype
    | some old =>
      rw [hold] at htype hname
      exact ⟨old, hold, htype, hname⟩
  · exact ⟨info, hinfo, htype, hname⟩

theorem Listed.changeObjectName (h : b.Listed) :
    (b.changeObjectNameForImplementation imp obj).Listed :=
  fun i j hbound => h i j (boundTo_of_changeObjectName hbound)

-- ---------------------------------------------------------------------------
-- The walks return
-- ---------------------------------------------------------------------------

open Filter (atTop)
open Relation (ReflTransGen)

theorem finite_shown (b : BindMap) : {j | ∃ i, b.Shown j i}.Finite := by
  apply Set.Finite.subset b.reverseMap.keys.finite_toSet
  rintro j ⟨i, hi⟩
  unfold Shown interfacesShowingImplementation at hi
  cases hj : b.reverseMap.lookup j with
  | none => simp [hj] at hi
  | some s => exact Finmap.mem_keys.mpr (Finmap.mem_of_lookup_eq_some hj)

theorem finite_boundTo (b : BindMap) : {i | ∃ j, b.BoundTo i j}.Finite := by
  apply Set.Finite.subset b.intToImp.keys.finite_toSet
  rintro i ⟨j, info, hinfo, _⟩
  exact Finmap.mem_keys.mpr (Finmap.mem_of_lookup_eq_some hinfo)

theorem getAllBoundNames_succ :
    (b.getAllBoundNames (n + 1) j).isSome ↔
      ∀ i, b.Shown j i → (b.getAllBoundNames n i).isSome := by
  rw [getAllBoundNames, foldlM_isSome fun i => (b.getAllBoundNames n i).isSome]
  · simp only [mem_elements, Shown]
  · intro names i
    cases b.getAllBoundNames n i <;> rfl

theorem getImpForInterface_succ :
    (b.getImpForInterface true (n + 1) i).isSome ↔
      ∀ j, b.BoundTo i j → (b.getImpForInterface true n j).isSome := by
  rw [getImpForInterface]
  cases hi : b.intToImp.lookup i with
  | none => simp [BoundTo, hi]
  | some out =>
    by_cases htype : out.type = .bindInterface
    · simp [boundTo_iff hi, htype]
    · simp [boundTo_iff hi, htype]

/-- The walk over all that show an interface returns exactly when they form no cycle. -/
theorem getAllBoundNames_returns :
    (∀ j, ∃ n, (b.getAllBoundNames n j).isSome) ↔ Acyclic b.Shown := by
  constructor
  · intro h
    apply Acyclic.of_acc
    intro j
    obtain ⟨n, hn⟩ := h j
    exact acc_of_returns (P := fun j n => (b.getAllBoundNames n j).isSome)
      (fun j => by simp [getAllBoundNames]) (fun j n h => getAllBoundNames_succ.mp h) hn
  · intro h j
    have hfinite (j : String) : {i | b.Shown j i}.Finite :=
      (b.interfacesShowingImplementation j).finite_toSet
    have hall := eventually_of_wellFounded (h.wellFounded_of_finite b.finite_shown) hfinite
      (P := fun j n => (b.getAllBoundNames n j).isSome)
      (fun j n h => getAllBoundNames_succ.mpr h) j
    exact hall.exists

theorem finite_boundTo_self (b : BindMap) (i : String) : {j | b.BoundTo i j}.Finite := by
  refine Set.Subsingleton.finite ?_
  rintro j ⟨info, hinfo, _, rfl⟩ k ⟨info', hinfo', _, rfl⟩
  rw [hinfo] at hinfo'
  cases hinfo'
  rfl

theorem getImpForInterface_returns :
    (∀ i, ∃ n, (b.getImpForInterface true n i).isSome) ↔ Acyclic b.BoundTo := by
  constructor
  · intro h
    apply Acyclic.of_acc
    intro i
    obtain ⟨n, hn⟩ := h i
    exact acc_of_returns (P := fun i n => (b.getImpForInterface true n i).isSome)
      (fun i => by simp [getImpForInterface]) (fun i n h => getImpForInterface_succ.mp h) hn
  · intro h i
    have hall := eventually_of_wellFounded (h.wellFounded_of_finite b.finite_boundTo)
      b.finite_boundTo_self (P := fun i n => (b.getImpForInterface true n i).isSome)
      (fun i n h => getImpForInterface_succ.mpr h) i
    exact hall.exists

theorem Listed.acyclic (h : b.Listed) (hacyclic : Acyclic b.Shown) : Acyclic b.BoundTo :=
  have hswap : Acyclic (Function.swap b.BoundTo) := hacyclic.mono fun j i hij => h i j hij
  hswap.swap

-- ---------------------------------------------------------------------------
-- Binds that close no cycle
-- ---------------------------------------------------------------------------

/-- A bind closes a cycle exactly when the implementation already shows, directly or through
binds that are or were made, among the interfaces bound to this one. -/
theorem acyclic_addBind (h : Acyclic b.Shown) :
    Acyclic (b.addBind interface imp obj t).Shown ↔ ¬ ReflTransGen b.Shown interface imp := by
  have hsub (j i : String) (hij : b.Shown j i) : (b.addBind interface imp obj t).Shown j i :=
    shown_addBind.mpr (Or.inr hij)
  constructor
  · intro hacyclic hchain
    refine hacyclic imp (Relation.TransGen.head' (shown_addBind.mpr (Or.inl ⟨rfl, rfl⟩)) ?_)
    exact ReflTransGen.mono hsub _ _ hchain
  · intro hchain
    refine Acyclic.redirect (x := imp) ?_ ?_ h
    · intro j i hij hj
      rcases shown_addBind.mp hij with ⟨hsame, _⟩ | hold
      · exact absurd hsame hj
      · exact hold
    · intro i hij
      rcases shown_addBind.mp hij with ⟨_, rfl⟩ | hold
      · exact hchain
      · exact fun hback => h imp (Relation.TransGen.head' hold hback)

end BindMap

end Loxim.QueryExecutor
