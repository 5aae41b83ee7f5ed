import Loxim.QueryExecutor.BindMap
import Loxim.QueryExecutor.InterfaceMatcher

/-!
# The catalogue of interfaces

Four maps hold the schemas of the interfaces, who extends whom and whose objects carry
which name; a fifth holds the binds. A change is first made and then taken back when it
spoils the hierarchy.
-/

namespace Loxim.QueryExecutor

open OrderedMap (alter)

structure HierarchyInfo where
  parents : Finset String := ∅
  children : Finset String := ∅
deriving DecidableEq

namespace HierarchyInfo

def addChild (h : HierarchyInfo) (c : String) : HierarchyInfo :=
  { h with children := insert c h.children }

def removeChild (h : HierarchyInfo) (c : String) : HierarchyInfo :=
  { h with children := h.children.erase c }

end HierarchyInfo

structure InterfaceMembersCache where
  interfaceFields : OrderedMap String (List Field) := ∅
  interfaceMethods : OrderedMap String (List Method) := ∅

structure InterfaceMaps where
  objNameToName : OrderedMap String String := ∅
  nameToSchema : OrderedMap String Schema := ∅
  nameToHierarchy : OrderedMap String HierarchyInfo := ∅
  nameToInterfacesExtending : OrderedMap String (Finset String) := ∅
  cache : InterfaceMembersCache := {}
  bindMap : BindMap := {}

inductive CreateType
  | create
  | update
  | createOrUpdate
deriving DecidableEq

inductive InterfaceError
  | notUniqueInterfaceName
  | spoilsInterfaceHierarchy
  | noInterfaceFound
  | noImplementationFound
  | interfaceMapCorrupted
  | classGraphCorrupted
  | otherResExp
  | cannotBindNoObjectName
deriving DecidableEq

namespace InterfaceMaps

variable (m : InterfaceMaps)

def hasInterface (n : String) : Bool := (m.nameToSchema.lookup n).isSome

def hasObjectName (n : String) : Bool := (m.objNameToName.lookup n).isSome

def isInterfaceBound (n : String) : Bool := m.bindMap.hasBind n

/-- The parents an interface has in the hierarchy. -/
def getParents (n : String) : Finset String :=
  ((m.nameToHierarchy.lookup n).map HierarchyInfo.parents).getD ∅

def getChildren (n : String) : Finset String :=
  ((m.nameToHierarchy.lookup n).map HierarchyInfo.children).getD ∅

def interfacesExtending (n : String) : Finset String :=
  (m.nameToInterfacesExtending.lookup n).getD ∅

-- ---------------------------------------------------------------------------
-- Validity of the hierarchy
-- ---------------------------------------------------------------------------

/-- `some` with the names found valid so far, or `none` for a loop or a parent that is missing.
The first argument bounds the depth of the calls; the forbidden names bound it as well. -/
def checkDerivationValidity :
    Nat → String → Finset String → Finset String → Option (Finset String)
  | 0, _, _, _ => none
  | n + 1, baseName, forbiddenNames, namesAlreadyChecked =>
    if baseName ∈ forbiddenNames then none
    else
      match m.nameToHierarchy.lookup baseName with
      | none => none
      | some info =>
        (elements info.parents).foldlM
          (fun checked parentName => do
            let checked ←
              checkDerivationValidity n parentName (insert baseName forbiddenNames) checked
            pure (insert parentName checked))
          namesAlreadyChecked

/-- One name of the hierarchy; a name met on the way up from another one is not checked again. -/
def checkName (namesAlreadyChecked : Finset String) (name : String) : Option (Finset String) :=
  if name ∈ namesAlreadyChecked then some namesAlreadyChecked
  else if ¬ m.hasInterface name then none
  else m.checkDerivationValidity (m.nameToHierarchy.keys.card + 1) name ∅ namesAlreadyChecked

def checkHierarchyValidity : Bool :=
  ((elements m.nameToHierarchy.keys).foldlM m.checkName ∅).isSome

-- ---------------------------------------------------------------------------
-- Changes
-- ---------------------------------------------------------------------------

/-- What is done for one parent of a new interface. -/
def addToParent (interfaceName : String) (m : InterfaceMaps) (parent : String) : InterfaceMaps :=
  let m := { m with
    nameToInterfacesExtending := alter m.nameToInterfacesExtending parent fun set =>
      insert interfaceName (set.getD ∅) }
  if parent ∈ m.nameToHierarchy then
    { m with
      nameToHierarchy := alter m.nameToHierarchy parent fun h =>
        (h.getD {}).addChild interfaceName }
  else m

/-- The maps with the new interface, before they are checked. -/
def propagateHierarchy (interfaceSchema : Schema) : InterfaceMaps :=
  let interfaceName := interfaceSchema.name
  let supers := interfaceSchema.supers
  let hI : HierarchyInfo :=
    { parents := supers, children := m.interfacesExtending interfaceName }
  let m' := (elements supers).foldl (addToParent interfaceName) m
  { m' with
    nameToHierarchy := m'.nameToHierarchy.insert interfaceName hI
    nameToSchema := m'.nameToSchema.insert interfaceName interfaceSchema }

/-- Whether the interface fits into the hierarchy, and the maps as they are left. -/
def insertNewInterfaceAndPropagateHierarchy (interfaceSchema : Schema)
    (checkValidity tryOnly : Bool) : Bool × InterfaceMaps :=
  let m' := m.propagateHierarchy interfaceSchema
  let valid := m'.checkHierarchyValidity
  if checkValidity ∧ ¬ valid ∨ tryOnly then
    (valid, { m' with
      nameToSchema := m'.nameToSchema.erase interfaceSchema.name
      nameToHierarchy := m.nameToHierarchy
      nameToInterfacesExtending := m.nameToInterfacesExtending })
  else
    (true, { m' with
      cache := {}
      objNameToName :=
        m'.objNameToName.insert interfaceSchema.associatedObjectName interfaceSchema.name })

def checkIfCanBeInserted (interfaceSchema : Schema) : Bool × InterfaceMaps :=
  m.insertNewInterfaceAndPropagateHierarchy interfaceSchema true true

/-- The maps without the interface, before they are checked. The interface is looked for among
those that extend its children. -/
def withdrawFromHierarchy (interfaceName : String) : InterfaceMaps :=
  let nameToHierarchy := (elements (m.getParents interfaceName)).foldl
    (fun h par => alter h par fun info => (info.getD {}).removeChild interfaceName)
    m.nameToHierarchy
  let children :=
    ((nameToHierarchy.lookup interfaceName).map HierarchyInfo.children).getD ∅
  let nameToInterfacesExtending := (elements children).foldl
    (fun e child => alter e child fun set => (set.getD ∅).erase interfaceName)
    m.nameToInterfacesExtending
  { m with
    nameToSchema := m.nameToSchema.erase interfaceName
    nameToHierarchy := nameToHierarchy.erase interfaceName
    nameToInterfacesExtending := nameToInterfacesExtending }

def removeInterfaceFromMaps (interfaceName : String) (checkValidity : Bool) :
    Option InterfaceError × InterfaceMaps :=
  match m.nameToSchema.lookup interfaceName with
  | none => (none, m)
  | some s =>
    let m' := m.withdrawFromHierarchy interfaceName
    if checkValidity ∧ ¬ m'.checkHierarchyValidity then
      (some .spoilsInterfaceHierarchy, { m' with
        nameToSchema := m'.nameToSchema.insert interfaceName s
        nameToHierarchy := m.nameToHierarchy
        nameToInterfacesExtending := m.nameToInterfacesExtending })
    else
      (none, { m' with
        bindMap := m'.bindMap.removeBind interfaceName
        objNameToName := m'.objNameToName.erase s.associatedObjectName
        cache := {} })

/-- The replacement is made; it is taken back when it is found invalid. -/
def checkIfCanBeReplaced (newSchema : Schema) : Bool × InterfaceMaps :=
  let (_, m') := m.removeInterfaceFromMaps newSchema.name false
  let (_, m') := m'.insertNewInterfaceAndPropagateHierarchy newSchema false false
  if ¬ m'.checkHierarchyValidity then
    (false, { m' with
      nameToInterfacesExtending := m.nameToInterfacesExtending
      nameToHierarchy := m.nameToHierarchy
      bindMap := m.bindMap
      objNameToName := m.objNameToName
      nameToSchema := m.nameToSchema })
  else (true, m')

/-- The steps of the store succeed; `taken` says which names its roots have. -/
def addInterface (taken : String → Bool) (s : Schema) (ct : CreateType) (checkValidity : Bool) :
    Option InterfaceError × InterfaceMaps :=
  if ct = .create ∧ taken s.name then (some .notUniqueInterfaceName, m)
  else if ct = .create ∧ ¬ s.associatedObjectName.isEmpty ∧ taken s.associatedObjectName then
    (some .notUniqueInterfaceName, m)
  else if m.hasInterface s.name then
    let (valid, m) := if checkValidity then m.checkIfCanBeReplaced s else (true, m)
    if ¬ valid then (some .spoilsInterfaceHierarchy, m)
    else
      let (_, m) := m.removeInterfaceFromMaps s.name false
      (none, (m.insertNewInterfaceAndPropagateHierarchy s checkValidity false).2)
  else
    let (valid, m) := if checkValidity then m.checkIfCanBeInserted s else (true, m)
    if ¬ valid then (some .spoilsInterfaceHierarchy, m)
    else (none, (m.insertNewInterfaceAndPropagateHierarchy s checkValidity false).2)

/-- The steps of the store succeed. -/
def removeInterface (interfaceName : String) (checkValidity : Bool) :
    Option InterfaceError × InterfaceMaps :=
  m.removeInterfaceFromMaps interfaceName checkValidity

end InterfaceMaps

end Loxim.QueryExecutor
