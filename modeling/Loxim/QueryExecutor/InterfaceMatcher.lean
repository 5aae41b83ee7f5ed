import Loxim.Lib.OrderedMap
import Mathlib.Data.String.Basic

/-!
# Members of interfaces and of their implementations

A schema is what an interface declares or what a class or a view has. An interface fits
an implementation when each of its fields and methods is among those of the implementation.
-/

namespace Loxim.QueryExecutor

structure Field where
  name : String
deriving DecidableEq

def Field.Matches (f other : Field) : Bool := f.name == other.name

structure Method where
  name : String
  params : List Field := []
deriving DecidableEq

namespace Method

def getParamsCount (m : Method) : Nat := m.params.length

def sortParams (m : Method) : Method :=
  { m with params := m.params.insertionSort fun left right => left.name ≤ right.name }

/-- Both are sorted. -/
def Matches (m other : Method) : Bool :=
  if m.name ≠ other.name then false
  else if m.getParamsCount ≠ other.getParamsCount then false
  else (m.params.zip other.params).all fun (f, f') => f.Matches f'

/-- By the name and then by the number of parameters. -/
def ascending (left right : Method) : Bool :=
  left.name < right.name ||
    left.name = right.name && left.getParamsCount ≤ right.getParamsCount

end Method

structure Schema where
  name : String
  associatedObjectName : String := ""
  fields : List Field := []
  methods : List Method := []
  supers : Finset String := ∅
deriving DecidableEq

namespace Schema

def sortVectors (s : Schema) : Schema :=
  { s with
    fields := s.fields.insertionSort fun left right => left.name ≤ right.name
    methods := s.methods.insertionSort fun left right => left.ascending right }

/-- The members of the guest are copies, and no copy is among the members of the host. -/
def join (s guest : Schema) : Schema :=
  sortVectors
    { s with
      supers := ∅
      fields := s.fields ++ guest.fields
      methods := s.methods ++ guest.methods }

end Schema

namespace Matcher

def matchesAnyField (f : Field) (impF : List Field) : Bool := impF.any fun cand => f.Matches cand

def matchesAnyMethod (m : Method) (impM : List Method) : Bool :=
  impM.any fun cand => m.sortParams.Matches cand.sortParams

def MatchFields (intF impF : List Field) : Bool := intF.all fun f => matchesAnyField f impF

def MatchMethods (intM impM : List Method) : Bool := intM.all fun m => matchesAnyMethod m impM

def MatchInterfaceWithImplementation (interface implementation : Schema) : Bool :=
  let interface := interface.sortVectors
  let implementation := implementation.sortVectors
  MatchFields interface.fields implementation.fields &&
    MatchMethods interface.methods implementation.methods

end Matcher

end Loxim.QueryExecutor
