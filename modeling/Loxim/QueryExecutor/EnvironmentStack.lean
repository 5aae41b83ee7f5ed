import Loxim.QueryExecutor.AccessMap

/-!
# Navigating into an object

The fields of an object become a section of the environment stack and get rights from
those to the object. The rights are given when the section is made, and taken away when
it is popped by erasing its names.
-/

namespace Loxim.QueryExecutor

/-- A name of a section, with the object when it is a reference. -/
structure Binder where
  name : String
  reference : Option UInt32 := none
deriving DecidableEq

/-- What the code of a view does to the access map, and how many seeds it returns. -/
abbrev Procedure := AccessMap → Option (AccessMap × Nat)

structure View where
  virtualName : String
  code : Procedure

inductive StoredValue
  | atom
  | pointer (target : UInt32)
  | vector (fields : List UInt32)

structure StoredObject where
  name : String
  value : StoredValue
  isView : Bool := false
  isLink : Bool := false

/-- What is read while a section is made: the objects of the store, the definitions of views, the
fields an interface shows when it is bound, and the invariants that extend the one of an object. -/
structure World where
  object : UInt32 → Option StoredObject
  view : UInt32 → Option View := fun _ => none
  namesVisible : String → Option (Finset String) := fun _ => none
  extInvariantNames : UInt32 → Option (List String) := fun _ => some []

/-- A row of a result that may be navigated into. A seed of a virtual object has a name when it is
a binder; `onNavigate` is the code of the procedure with the names of what it returns. -/
inductive Row
  | reference (value : Option UInt32) (interfaceKey : String)
  | virtualObject (voName interfaceKey : String) (seeds : List (Option String))
    (onNavigate : Option (AccessMap → Option (AccessMap × List Binder))) (subviews : List View)

namespace World

variable (w : World)

/-- Whether the field is visible through the interface, if there is one that filters. -/
def accessible (interfaceKey name : String) : Bool :=
  match w.namesVisible interfaceKey with
  | none => true
  | some names => name ∈ names

/-- One field: its name is noted, and a binder to it is added. -/
def nestField (interfaceKey : String) (acc : OrderedMap String Bool × List Binder)
    (lid : UInt32) : Option (OrderedMap String Bool × List Binder) := do
  let field ← w.object lid
  pure (acc.1.insert field.name (w.accessible interfaceKey field.name),
    acc.2 ++ [{ name := field.name, reference := some lid }])

/-- A view among the fields of an object that is no view itself. -/
def isSubview (object : StoredObject) (lid : UInt32) : Bool :=
  match w.object lid with
  | some field =>
    !object.isView && field.isView && match field.value with
      | .vector _ => true
      | _ => false
  | none => false

/-- The virtual objects a view defines, one for each seed. -/
def nestView (acc : AccessMap × List Binder) (v : View) : Option (AccessMap × List Binder) := do
  let (m, seeds) ← v.code acc.1
  pure (m, acc.2 ++ List.replicate seeds { name := v.virtualName })

/-- The fields of an object, with rights to them, and the views among them. -/
def nestValue (m : AccessMap) (object : StoredObject) (interfaceKey : String) :
    Option (AccessMap × List Binder × List UInt32) :=
  match object.value with
  | .atom => some (m, [], [])
  | .pointer target => do
    let o ← w.object target
    pure (m, [{ name := o.name, reference := some target }], [])
  | .vector fields => do
    let (namesAccessible, r) ← fields.foldlM (w.nestField interfaceKey) (∅, [])
    pure (m.propagateAccess object.name namesAccessible, r, fields.filter (w.isSubview object))

def nestedReference (m : AccessMap) (value : Option UInt32) (interfaceKey : String) :
    Option (AccessMap × List Binder) :=
  match value with
  | none => some (m, [])
  | some lid => do
    let object ← w.object lid
    if object.isLink then none
    else
      let (m, r, subviews) ← w.nestValue m object interfaceKey
      let selfBinder : Binder := { name := "self", reference := some lid }
      let viewParentBinder : Binder := { name := "ViewParent", reference := some lid }
      let r := r ++ if subviews.isEmpty then [selfBinder] else [selfBinder, viewParentBinder]
      subviews.foldlM
        (fun acc subview => do
          let v ← w.view subview
          nestView acc v)
        (m, r)

/-- The names a virtual object gives rights to; its own views only count without `onNavigate`. -/
def accessibleNames (interfaceKey : String) (navigates : Bool) (subviews : List View) :
    OrderedMap String Bool :=
  let shown : OrderedMap String Bool :=
    match w.namesVisible interfaceKey with
    | none => ∅
    | some names => AccessMap.trueMap names
  if navigates then shown
  else
    subviews.foldl
      (fun a v => a.insert v.virtualName (w.accessible interfaceKey v.virtualName)) shown

/-- What is found in a virtual object: what `onNavigate` returns, or what its own views define. -/
def navigate (m : AccessMap) (onNavigate : Option (AccessMap → Option (AccessMap × List Binder)))
    (subviews : List View) : Option (AccessMap × List Binder) :=
  match onNavigate with
  | some code => code m
  | none => subviews.foldlM nestView (m, [])

def nestedVirtual (m : AccessMap) (voName interfaceKey : String) (seeds : List (Option String))
    (onNavigate : Option (AccessMap → Option (AccessMap × List Binder)))
    (subviews : List View) : Option (AccessMap × List Binder) := do
  let (m, r) ← navigate m onNavigate subviews
  let m := m.propagateAccess voName
    (w.accessibleNames interfaceKey onNavigate.isSome subviews)
  -- A seed that is no binder is an error, and no seed gives its name rights then.
  let m :=
    if seeds.all Option.isSome then m.addViewEnvironment voName seeds.reduceOption.toFinset
    else m
  pure (m, r)

def nested (m : AccessMap) : Row → Option (AccessMap × List Binder)
  | .reference value interfaceKey => w.nestedReference m value interfaceKey
  | .virtualObject voName interfaceKey seeds onNavigate subviews =>
    w.nestedVirtual m voName interfaceKey seeds onNavigate subviews

/-- The names of the invariants that the invariant of a reference extends are names of it too. -/
def extend (section_ : List Binder) : Option (List Binder) :=
  section_.foldlM
    (fun r qr =>
      match qr.reference with
      | none => some r
      | some lid => do
        let shs ← w.extInvariantNames lid
        pure (r ++ shs.map fun j => { name := j, reference := some lid }))
    section_

end World

/-- The sections above each other, the last one first, and how many there are up to the one of
the database. -/
structure EnvironmentStack where
  es : List (List Binder) := []
  sectionDBnumber : Nat := 0

namespace EnvironmentStack

variable (w : World) (envs : EnvironmentStack) (m : AccessMap)

def names (r : List Binder) : Finset String := (r.map Binder.name).toFinset

def push (r : List Binder) : Option (AccessMap × EnvironmentStack) := do
  let r ← w.extend r
  pure (m.addSectionInfo envs.es.length (names r), { envs with es := r :: envs.es })

def pop : Option (AccessMap × EnvironmentStack) :=
  match envs.es with
  | [] => none
  | _ :: es =>
    if envs.es.length = envs.sectionDBnumber then none
    else some (m.removeSection es.length, { envs with es := es })

def nested_and_push_on_envs (row : Row) : Option (AccessMap × EnvironmentStack) := do
  let (m, r) ← w.nested m row
  envs.push w m r

end EnvironmentStack

end Loxim.QueryExecutor
