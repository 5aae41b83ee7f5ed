import Mathlib.Algebra.Group.Nat.Defs
import Mathlib.Data.Finset.Dedup
import Mathlib.Data.Finset.Insert
import Mathlib.Data.Finset.Erase

/-!
# The graph of classes

A vertex knows the classes it extends and its subclasses. Two indexes find the classes
with an invariant and the class with a name. The graph is loaded from the store with all
that can be reached from a class, and classes are added to it, removed and updated.
-/

namespace Loxim.QueryExecutor

/-- What a class of the store has. Methods are found by name and number of arguments. -/
structure ClassObject where
  lid : UInt32
  name : String
  invariant : String := ""
  methods : List ((String × Nat) × UInt32) := []
  classMarks : Finset UInt32 := ∅
  subclasses : Finset UInt32 := ∅

/-- `extends` of the source is `extended` here. -/
structure ClassGraphVertex where
  extended : Finset UInt32 := ∅
  subclasses : Finset UInt32 := ∅
  methods : List ((String × Nat) × UInt32) := []
  invariant : String
  name : String

namespace ClassGraphVertex

def addSubclass (v : ClassGraphVertex) (lid : UInt32) : ClassGraphVertex :=
  { v with subclasses := insert lid v.subclasses }

def addExtend (v : ClassGraphVertex) (lid : UInt32) : ClassGraphVertex :=
  { v with extended := insert lid v.extended }

def removeSubclass (v : ClassGraphVertex) (lid : UInt32) : ClassGraphVertex :=
  { v with subclasses := v.subclasses.erase lid }

def removeExtend (v : ClassGraphVertex) (lid : UInt32) : ClassGraphVertex :=
  { v with extended := v.extended.erase lid }

def initNotGraphProperties (c : ClassObject) : ClassGraphVertex :=
  { methods := c.methods, invariant := c.invariant, name := c.name }

def getMethod (v : ClassGraphVertex) (name : String) (argsCount : Nat) : Option UInt32 :=
  v.methods.lookup (name, argsCount)

end ClassGraphVertex

structure ClassGraph where
  classGraph : UInt32 → Option ClassGraphVertex := fun _ => none
  invariants : String → Option (Finset UInt32) := fun _ => none
  nameIndex : String → Option UInt32 := fun _ => none

namespace ClassGraph

variable (order : Finset UInt32 → List UInt32) (g : ClassGraph)

def vertexExist (lid : UInt32) : Bool := (g.classGraph lid).isSome

/-- A vertex that is found is changed. -/
def modify (lid : UInt32) (f : ClassGraphVertex → ClassGraphVertex) : ClassGraph :=
  { g with classGraph := Function.update g.classGraph lid ((g.classGraph lid).map f) }

-- ---------------------------------------------------------------------------
-- The indexes
-- ---------------------------------------------------------------------------

def putToNameIndex (className : String) (classLid : UInt32) : ClassGraph :=
  { g with nameIndex := Function.update g.nameIndex className (some classLid) }

def removeFromNameIndex (className : String) : ClassGraph :=
  { g with nameIndex := Function.update g.nameIndex className none }

def putToInvariants (invariantName : String) (lid : UInt32) : ClassGraph :=
  if invariantName.isEmpty then g
  else
    let slids := (g.invariants invariantName).getD ∅
    { g with invariants := Function.update g.invariants invariantName (some (insert lid slids)) }

/-- The set of the others is erased together with the class. -/
def removeFromInvariant (_lid : UInt32) (name : String) : ClassGraph :=
  match g.invariants name with
  | none => g
  | some _ => { g with invariants := Function.update g.invariants name none }

-- ---------------------------------------------------------------------------
-- Changes
-- ---------------------------------------------------------------------------

def removeFromSubclasses (extendedClasses : Finset UInt32) (lid : UInt32) : ClassGraph :=
  (order extendedClasses).foldl (fun g i => g.modify i (·.removeSubclass lid)) g

def removeFromExtends (subclasses : Finset UInt32) (lid : UInt32) : ClassGraph :=
  (order subclasses).foldl (fun g i => g.modify i (·.removeExtend lid)) g

def removeClass (lid : UInt32) : ClassGraph :=
  match g.classGraph lid with
  | none => g
  | some v =>
    let g := g.removeFromNameIndex v.name
    let g := g.removeFromInvariant lid v.invariant
    let g := g.removeFromSubclasses order v.extended lid
    let subclasses := ((g.classGraph lid).map ClassGraphVertex.subclasses).getD ∅
    let g := g.removeFromExtends order subclasses lid
    { g with classGraph := Function.update g.classGraph lid none }

/-- One class extends another one. -/
def link (sub super : UInt32) : ClassGraph :=
  (g.modify super (·.addSubclass sub)).modify sub (·.addExtend super)

/-- A vertex without edges, with its entries in the indexes. -/
def putVertex (c : ClassObject) : ClassGraph :=
  let g := { g with
    classGraph := Function.update g.classGraph c.lid (some (.initNotGraphProperties c)) }
  let g := g.putToInvariants c.invariant c.lid
  g.putToNameIndex c.name c.lid

/-- Fails when an extended class is not in the graph. -/
def addClass (c : ClassObject) : Option ClassGraph :=
  (order c.classMarks).foldlM
    (fun g i => if g.vertexExist i then some (g.link c.lid i) else none) (g.putVertex c)

def updateClass (c : ClassObject) : Option ClassGraph := do
  let g ← (g.removeClass order c.lid).addClass order c
  (order c.subclasses).foldlM
    (fun g i => if g.vertexExist i then some (g.link i c.lid) else none) g

-- ---------------------------------------------------------------------------
-- Loading
-- ---------------------------------------------------------------------------

variable (store : UInt32 → Option ClassObject)

/-- `fuel` bounds the depth of the calls. A call fails when a class is not in the store. -/
def completeFrom : Nat → ClassGraph → UInt32 → Option ClassGraph
  | 0, _, _ => none
  | fuel + 1, g, lid =>
    if g.vertexExist lid then some g
    else do
      let c ← store lid
      let g := g.putVertex { c with lid }
      let g ← (order c.classMarks).foldlM (fun g i => do
        let g ← if g.vertexExist i then some g else completeFrom fuel g i
        return g.modify lid (·.addExtend i)) g
      (order c.subclasses).foldlM (fun g i => do
        let g ← if g.vertexExist i then some g else completeFrom fuel g i
        return g.modify lid (·.addSubclass i)) g

/-- Every call inside another one puts a new class in the graph, and there are not more
classes than ids. -/
def completeSubgraph (lid : UInt32) : Option ClassGraph :=
  completeFrom order store (2 ^ 32 + 1) g lid

end ClassGraph

end Loxim.QueryExecutor
