import Loxim.Lib.OrderedMap
import Mathlib.Data.Finset.Filter
import Mathlib.Data.String.Basic

/-!
# The access rights of a user

Rights come from the schema of the user and, while an object is navigated into, from the
object. The latter are held in one map for all sections of the environment stack, and a
second map says which names to forget with a section.
-/

namespace Loxim.QueryExecutor

namespace Crud

def noAccess : Nat := 0
def create : Nat := 1
def read : Nat := 2
def update : Nat := 4
def delete : Nat := 8
def fullAccess : Nat := create + read + update + delete
def procedureOnly : Nat := 16

end Crud

def canCreate (crud : Nat) : Bool := crud &&& Crud.create ≠ 0
def canRead (crud : Nat) : Bool := crud &&& Crud.read ≠ 0
def canUpdate (crud : Nat) : Bool := crud &&& Crud.update ≠ 0
def canDelete (crud : Nat) : Bool := crud &&& Crud.delete ≠ 0

/-- The rights to a name and whether they may be given on. -/
abbrev TAccess := Nat × Bool

structure AccessMap where
  baseMap : OrderedMap String TAccess := ∅
  accessMap : OrderedMap String TAccess := ∅
  sectionToNamesMap : OrderedMap Nat (Finset String) := ∅
  isDba : Bool := false
  procedureAccessControl : Bool := false
  procLevel : Int := -1
  disabled : Bool := false
  disabledLevel : Int := -1
  userValidation : Bool := false
  keepSection : Bool := false

namespace AccessMap

variable (m : AccessMap)

def getUserTableName : String := "xuser"

/-- The rights to a name whose entry, if it has one, is at hand. -/
def accessOf (access : Nat) : Nat :=
  if access = Crud.procedureOnly then
    if m.procedureAccessControl then Crud.fullAccess else Crud.noAccess
  else if m.isDba then Crud.fullAccess else access

/-- What `getAccess` does with the entry the name has in the map of the sections. -/
def accessFrom (name : String) (entry : Option TAccess) : Nat :=
  if m.disabled then Crud.fullAccess
  else
    match entry with
    | some (access, _) => m.accessOf access
    | none =>
      if name = getUserTableName ∧ m.isDba then Crud.fullAccess
      else if name = getUserTableName ∧ m.userValidation then Crud.read
      else
        match m.baseMap.lookup name with
        | some (access, _) => m.accessOf access
        | none => if m.isDba then Crud.fullAccess else Crud.noAccess

def getAccess (name : String) : Nat := m.accessFrom name (m.accessMap.lookup name)

def hasAccess (access : Nat) (objectName : String) : Bool :=
  access = m.getAccess objectName &&& access

def mergeCruds (crud₁ crud₂ : Nat) : Nat :=
  if crud₁ = Crud.procedureOnly ∨ crud₂ = Crud.procedureOnly then Crud.procedureOnly
  else
    (if canCreate crud₁ || canCreate crud₂ then Crud.create else 0) +
      (if canRead crud₁ || canRead crud₂ then Crud.read else 0) +
      (if canUpdate crud₁ || canUpdate crud₂ then Crud.update else 0) +
      (if canDelete crud₁ || canDelete crud₂ then Crud.delete else 0)

/-- The entry of a name that is given rights. -/
def addedTo (crud : Nat) (canGive : Bool) (entry : Option TAccess) : TAccess :=
  match entry with
  | none => (crud, canGive)
  | some (oldCrud, _) => (mergeCruds crud oldCrud, canGive)

def addAccess (name : String) (crud : Nat) (canGive base : Bool) : AccessMap :=
  if base then { m with baseMap := OrderedMap.alter m.baseMap name (addedTo crud canGive) }
  else { m with accessMap := OrderedMap.alter m.accessMap name (addedTo crud canGive) }

def addAccessList (names : Finset String) (crud : Nat) (canGive : Bool) : AccessMap :=
  (elements names).foldl (fun m name => m.addAccess name crud canGive false) m

def deriveFatherCrud (fatherCrud : Nat) : Nat :=
  (if canRead fatherCrud then Crud.read else 0) +
    (if canUpdate fatherCrud then Crud.update + Crud.delete + Crud.create else 0)

/-- `false` stands for a field that is not visible through the interface and accessible only by
procedures. -/
def propagateAccess (father : String) (children : OrderedMap String Bool) : AccessMap :=
  let fatherCrud := m.getAccess father
  let crud := deriveFatherCrud fatherCrud
  if crud = Crud.noAccess then m
  else
    let accessibleChildren := children.keys.filter fun name => children.lookup name = some true
    let procedureOnlyChildren := children.keys.filter fun name => children.lookup name = some false
    (m.addAccessList accessibleChildren crud false).addAccessList procedureOnlyChildren
      Crud.procedureOnly false

def removeSection (secNo : Nat) : AccessMap :=
  if m.keepSection then m
  else
    match m.sectionToNamesMap.lookup secNo with
    | none => m
    | some names =>
      { m with
        accessMap := (elements names).foldl (fun a name => a.erase name) m.accessMap
        sectionToNamesMap := m.sectionToNamesMap.erase secNo }

def addSectionInfo (secNo : Nat) (names : Finset String) : AccessMap :=
  { m with sectionToNamesMap := m.sectionToNamesMap.insert secNo names }

def trueMap (names : Finset String) : OrderedMap String Bool :=
  (elements names).foldl (fun truemap name => truemap.insert name true) ∅

/-- The seeds of a virtual object give their names rights as fields of the object do. -/
def addViewEnvironment (vo_name : String) (seeds : Finset String) : AccessMap :=
  m.propagateAccess vo_name (trueMap seeds)

end AccessMap

end Loxim.QueryExecutor
