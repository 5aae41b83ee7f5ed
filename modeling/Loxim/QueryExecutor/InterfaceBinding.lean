import Loxim.QueryExecutor.InterfaceHierarchy

/-!
# Binding an interface to an implementation

An interface is bound to what has its members. That the implementation leads back to
the interface is not looked at.
-/

namespace Loxim.QueryExecutor

/-- The classes and the views of the database, as schemas. -/
structure Implementations where
  classes : OrderedMap String Schema := ∅
  classOfObject : String → Option Schema := fun _ => none
  views : String → Option Schema := fun _ => none

/-- The schemas of the names in `base` and of all their supers. The last name of the vector comes
first here. The first argument bounds the number of the names. -/
def completeSupersFrom (find : String → Except InterfaceError Schema) :
    Nat → List String → Finset String → List Schema → Option (Except InterfaceError (List Schema))
  | _, [], _, out => some (.ok out)
  | 0, _ :: _, _, _ => none
  | n + 1, name :: base, baseSet, out =>
    match find name with
    | .error errcode => some (.error errcode)
    | .ok s =>
      let new := (elements s.supers).filter fun superName => superName ∉ baseSet
      completeSupersFrom find n (new.reverse ++ base) (baseSet ∪ s.supers) (out ++ [s])

namespace InterfaceMaps

variable (m : InterfaceMaps) (imps : Implementations)

/-- A view that is missing leaves no schema at all. -/
def findSchema (t : BindType) (name : String) : Except InterfaceError Schema :=
  match t with
  | .bindInterface =>
    match m.nameToSchema.lookup name with
    | some s => .ok s
    | none => .error .interfaceMapCorrupted
  | .bindClass =>
    match imps.classes.lookup name with
    | some s => .ok s
    | none => .error .classGraphCorrupted
  | .bindView =>
    match imps.views name with
    | some s => .ok s
    | none => .error .otherResExp

/-- There are as many names as schemas of the kind, but for one that is missing. -/
def supersBound (t : BindType) : Nat :=
  match t with
  | .bindInterface => m.nameToSchema.keys.card + 1
  | .bindClass => imps.classes.keys.card + 1
  | .bindView => 1

def completeSupersForBase (base : String) (t : BindType) : Except InterfaceError (List Schema) :=
  (completeSupersFrom (m.findSchema imps t) (m.supersBound imps t) [base] {base} []).getD
    (.error .otherResExp)

def fromNameIncludingDerivedMembers (name : String) (t : BindType) :
    Except InterfaceError Schema := do
  let allSchemas ← m.completeSupersForBase imps name t
  match allSchemas.getLast?, allSchemas.head? with
  | some out, some front =>
    let out := allSchemas.dropLast.foldl Schema.join out
    pure { out with associatedObjectName := front.associatedObjectName }
  | _, _ => throw .otherResExp

def interfaceMatchesImplementation (interface implementation : String) (t : BindType) :
    Except InterfaceError Bool := do
  let intSchema ← m.fromNameIncludingDerivedMembers imps interface .bindInterface
  let impSchema ← m.fromNameIncludingDerivedMembers imps implementation t
  pure (Matcher.MatchInterfaceWithImplementation intSchema impSchema)

def getInterfaceNameForObject (o : String) : Option String :=
  if o.isEmpty then none else m.objNameToName.lookup o

def getSchemaForInterface (interfaceName : String) : Schema :=
  (m.nameToSchema.lookup interfaceName).getD { name := "" }

def getInterfaceForInterfaceOrObjectName (name : String) : Option Schema :=
  if m.hasInterface name then some (m.getSchemaForInterface name)
  else (m.getInterfaceNameForObject name).map m.getSchemaForInterface

def getImplementationForName (name : String) : Option (BindType × Schema) :=
  match m.getInterfaceForInterfaceOrObjectName name with
  | some s => some (.bindInterface, s)
  | none =>
    match imps.views name with
    | some s => some (.bindView, s)
    | none =>
      match imps.classes.lookup name with
      | some s => some (.bindClass, s)
      | none => (imps.classOfObject name).map fun s => (.bindClass, s)

/-- Whether the members fit is not checked for a view. -/
def fits (interfaceName implementationName : String) (t : BindType) :
    Except InterfaceError Bool :=
  if t = .bindView then .ok true
  else m.interfaceMatchesImplementation imps interfaceName implementationName t

/-- Whether the members fit, and the maps. The steps of the store succeed. -/
def bindInterface (interfaceOrObjectName implementationOrObjectName : String) :
    Except InterfaceError (Bool × InterfaceMaps) :=
  match m.getInterfaceForInterfaceOrObjectName interfaceOrObjectName with
  | none => .error .noInterfaceFound
  | some interfaceSchema =>
    match m.getImplementationForName imps implementationOrObjectName with
    | none => .error .noImplementationFound
    | some (implementationType, implementationSchema) =>
      match m.fits imps interfaceSchema.name implementationSchema.name implementationType with
      | .error errcode => .error errcode
      | .ok false => .ok (false, m)
      | .ok true =>
        if interfaceSchema.associatedObjectName.isEmpty then .error .cannotBindNoObjectName
        else
          .ok (true, { m with
            bindMap := m.bindMap.addBind interfaceSchema.name implementationSchema.name
              implementationSchema.associatedObjectName implementationType })

/-- The names of all that are bound, directly or not, to one of the interfaces. -/
def affectedBy (n : Nat) (interfaces : List String) : Option (Finset String) :=
  interfaces.foldlM
    (fun affectedInterfaces interfaceName => do
      let affectedNames ← m.bindMap.getAllBoundNames n interfaceName
      pure (affectedInterfaces ∪ affectedNames))
    ∅

def removeBinds (interfaces : Finset String) : InterfaceMaps :=
  { m with bindMap := (elements interfaces).foldl BindMap.removeBind m.bindMap }

/-- `unset` is what the source reads when the check of an interface fails. -/
def implementationUpdated (unset : String → Bool) (n : Nat) (implementationName objectName : String)
    (t : BindType) : Option InterfaceMaps := do
  let iShowing := elements (m.bindMap.interfacesShowingImplementation implementationName)
  let mismatched := iShowing.filter fun interfaceName =>
    match m.interfaceMatchesImplementation imps interfaceName implementationName t with
    | .ok isMatching => !isMatching
    | .error _ => !unset interfaceName
  let affectedInterfaces ← m.affectedBy n mismatched
  let m := m.removeBinds affectedInterfaces
  pure { m with
    bindMap := m.bindMap.changeObjectNameForImplementation implementationName objectName }

def implementationRemoved (n : Nat) (implementationName : String) : Option InterfaceMaps := do
  let iShowing := elements (m.bindMap.interfacesShowingImplementation implementationName)
  let affectedInterfaces ← m.affectedBy n iShowing
  let m := m.removeBinds affectedInterfaces
  pure { m with bindMap := m.bindMap.removeEntriesForImplementation implementationName }

end InterfaceMaps

inductive SchemaState
  | valid
  | invalidOther
  | invalidNoBind
  | invalidBadBind
  | errorNameNotUnique
  | errorTM
  | errorNoName
  | errorNotInterface
deriving DecidableEq

namespace InterfaceMaps

/-- Whether an interface fits what it is bound to; `unset` is what is read when the check fails. -/
def fitsBound (m : InterfaceMaps) (imps : Implementations) (unset : String → Bool)
    (interfaceName : String) (i : ImplementationInfo) : Bool :=
  match m.fits imps interfaceName i.name i.type with
  | .ok fit => fit
  | .error _ => unset interfaceName

/-- Whether the binds from an interface on are there and fit. -/
def validateInterfaceBind (m : InterfaceMaps) (imps : Implementations)
    (unset : String → Bool) : Nat → String → Option SchemaState
  | 0, _ => none
  | n + 1, interfaceName =>
    match m.bindMap.intToImp.lookup interfaceName with
    | none => some .invalidNoBind
    | some i =>
      if ¬ m.fitsBound imps unset interfaceName i then some .invalidBadBind
      else if i.type = .bindInterface then validateInterfaceBind m imps unset n i.name
      else some .valid

end InterfaceMaps

end Loxim.QueryExecutor
