import Loxim.Lib.OrderedMap
import Mathlib.Data.Finset.Prod
import Mathlib.Data.String.Basic
import Mathlib.Algebra.Order.Group.Int

/-!
# The comparison of types

Two signatures are compared field by field, and references by what they point to in the data
scheme. Definitions may refer to each other in circles; a pair of references that has been
met before is taken to match.
-/

namespace Loxim.QueryParser

/-- The characters 0 and 3 of a cardinality such as `0..*`. -/
structure Card where
  lower : Char := '1'
  upper : Char := '1'
deriving DecidableEq

structure SigAttrs where
  distinctTypeName : String := ""
  collectionKind : String := ""
  card : Card := {}
  refed : Bool := false
deriving DecidableEq

def SigAttrs.setCard (a : SigAttrs) (card : Card) : SigAttrs :=
  { a with
    card
    collectionKind :=
      if card.upper = '1' then ""
      else if card.upper = '*' ∧ a.collectionKind = "" then "bag"
      else a.collectionKind }

/-- What a new signature has after `copyAttrsOf`. -/
def SigAttrs.copied (a : SigAttrs) : SigAttrs :=
  { (({ distinctTypeName := a.distinctTypeName, collectionKind := a.collectionKind } :
      SigAttrs).setCard a.card) with refed := a.refed }

inductive CollType
  | seq
  | bag
  | struct
  | var
deriving DecidableEq

/-- An `emptyBinder` is a binder without a value. -/
inductive Signature
  | atom (attrs : SigAttrs) (atomType : String)
  | ref (attrs : SigAttrs) (refNo : Int)
  | void (attrs : SigAttrs)
  | binder (attrs : SigAttrs) (name : String) (value : Signature)
  | emptyBinder (attrs : SigAttrs) (name : String)
  | coll (attrs : SigAttrs) (collType : CollType) (myList : List Signature)

/-- Where the code reads what is not there, the result is `undefined`. -/
inductive SigResult
  | ok
  | typesDiffer
  | tNamesDiffer
  | missedSubs
  | cdOverflow
  | cdDynamic
  | undefined
deriving DecidableEq

namespace Signature

def attrs : Signature → SigAttrs
  | atom a _ | ref a _ | void a | binder a _ _ | emptyBinder a _ | coll a _ _ => a

def mapAttrs (f : SigAttrs → SigAttrs) : Signature → Signature
  | atom a t => atom (f a) t
  | ref a r => ref (f a) r
  | void a => void (f a)
  | binder a n v => binder (f a) n v
  | emptyBinder a n => emptyBinder (f a) n
  | coll a c l => coll (f a) c l

/-- The name of a binder. -/
def getName : Signature → Option String
  | binder _ n _ | emptyBinder _ n => some n
  | _ => none

def getValue : Signature → Option Signature
  | binder _ _ v => some v
  | _ => none

def getNumb (atype : String) : Int :=
  if atype = "int" then 5
  else if atype = "double" then 6
  else if atype = "string" then 7
  else if atype = "boolean" then 8
  else -1

/-- `SigType`. -/
def type : Signature → Int
  | atom _ t => getNumb t
  | ref .. => 9
  | void _ => 10
  | binder .. | emptyBinder .. => 4
  | coll _ .seq _ => 1
  | coll _ .bag _ => 2
  | coll _ .struct _ => 3
  | coll _ .var _ => 11

-- ---------------------------------------------------------------------------
-- Copies
-- ---------------------------------------------------------------------------

mutual

/-- `junk` is the value of a binder that was not given one. -/
def clone (junk : Signature) : Signature → Signature
  | atom a t => atom a.copied t
  | ref a r => ref a.copied r
  | void a => void a.copied
  | binder a n v => binder a.copied n (clone junk v)
  | emptyBinder a n => binder a.copied n junk
  | coll a c l => coll a.copied c (cloneAll junk l)

def cloneAll (junk : Signature) : List Signature → List Signature
  | [] => []
  | s :: l => clone junk s :: cloneAll junk l

end

end Signature

-- ---------------------------------------------------------------------------
-- The data scheme
-- ---------------------------------------------------------------------------

structure ObjectHead where
  myId : Int
  name : String
  card : Card := {}
  isTypedef : Bool := false
  isDistinct : Bool := false

/-- A definition holds the definitions of its subobjects and its type. None holds itself: a type
that would is refused when it is defined. -/
inductive DataObjectDef
  | link (head : ObjectHead) (targetId : Int)
  | atomic (head : ObjectHead) (type : String)
  | complex (head : ObjectHead) (subObjects : List DataObjectDef)
  | defType (head : ObjectHead) (typeObj : DataObjectDef)
  /-- Of a type that is not found. -/
  | untyped (head : ObjectHead)
  | otherKind (head : ObjectHead)

namespace DataObjectDef

def head : DataObjectDef → ObjectHead
  | link h _ | atomic h _ | complex h _ | defType h _ | untyped h | otherKind h => h

/-- The value with its attributes set. -/
def dress (h : ObjectHead) (valSig : Signature) : Signature :=
  valSig.mapAttrs fun a =>
    let a := a.setCard h.card
    if h.isTypedef ∧ h.isDistinct then { a with distinctTypeName := h.name } else a

/-- The binder of a named value. -/
def bound (h : ObjectHead) : Option Signature → Signature
  | some valSig => .binder valSig.attrs.copied h.name valSig
  | none => .emptyBinder {} h.name

mutual

/-- The value of a named signature. -/
def valSig : DataObjectDef → Option Signature
  | link h targetId => some (dress h (.ref {} targetId))
  | atomic h type => some (dress h (.atom {} type))
  | complex h subObjects => some (dress h (.coll {} .struct (namedSubs subObjects)))
  | defType h typeObj => typeObj.valSig.map (dress h)
  | untyped _ => none
  | otherKind h => some (dress h (.ref {} h.myId))

def namedSubs : List DataObjectDef → List Signature
  | [] => []
  | d :: l => bound d.head d.valSig :: namedSubs l

end

def createNamedSignature (d : DataObjectDef) : Signature := bound d.head d.valSig

end DataObjectDef

structure DataScheme where
  objects : OrderedMap Int DataObjectDef := ∅

namespace DataScheme

def getObjById (S : DataScheme) (objId : Int) : Option DataObjectDef := S.objects.lookup objId

def isTypeDefId (S : DataScheme) (objId : Int) : Bool :=
  match S.getObjById objId with
  | none => false
  | some obd => obd.head.isTypedef

def namedSignatureOfRef (S : DataScheme) (objId : Int) : Option Signature :=
  (S.getObjById objId).map DataObjectDef.createNamedSignature

end DataScheme

-- ---------------------------------------------------------------------------
-- The comparison
-- ---------------------------------------------------------------------------

abbrev Visited := List (Int × Int)

instance lawful_pairs : LawfulBEq (Int × Int) := inferInstance

def digit (c : Char) : Int := c.toNat - 48

def cardToMapPair (card : Card) : Int × Int :=
  (digit card.lower, if card.upper = '*' then 10 else digit card.upper)

namespace Signature

variable (S : DataScheme) (needTName : Bool)

/-- What each of the comparisons checks first. -/
def mismatch (this : Signature) : Option Signature → Option SigResult
  | none => some (if this.type = 10 then .undefined else .typesDiffer)
  | some flatSig =>
    if this.type ≠ flatSig.type then some .typesDiffer
    else if this.type ≠ 10 ∧ needTName ∧
        this.attrs.distinctTypeName ≠ flatSig.attrs.distinctTypeName then some .tNamesDiffer
    else none

/-- The bounds of a name after one more field of it. -/
def addToSubMap (subMap : OrderedMap String (Int × Int)) (sName : String) (cdVal : Int × Int) :
    OrderedMap String (Int × Int) :=
  OrderedMap.alter subMap sName fun
    | none => cdVal
    | some bounds => (bounds.1 + cdVal.1, bounds.2 + cdVal.2)

/-- The field that a field of the guest is compared with, the first of its name. -/
def findMatch (sName : String) : List Signature → Except SigResult Signature
  | [] => .error .typesDiffer
  | mptr :: rest =>
    match mptr.getName with
    | none => .error .undefined
    | some name => if name = sName then .ok mptr else findMatch sName rest

/-- `for each elt of guest signature - check we have a matching node`. -/
def compareElts
    (compare : Signature → Option Signature → Visited → Option (SigResult × Visited))
    (myList : List Signature) :
    List Signature → OrderedMap String (Int × Int) → SigResult → Visited →
      Option ((OrderedMap String (Int × Int) × SigResult ⊕ SigResult) × Visited)
  | [], subMap, result, vPairs => some (.inl (subMap, result), vPairs)
  | sptr :: rest, subMap, result, vPairs =>
    match sptr.getName with
    | none => some (.inr .undefined, vPairs)
    | some sName =>
      match findMatch sName myList with
      | .error result => some (.inr result, vPairs)
      | .ok match_ =>
        match compare match_ (some sptr) vPairs with
        | none => none
        | some (partResult, vPairs) =>
          if partResult ≠ .ok ∧ partResult ≠ .cdDynamic then some (.inr partResult, vPairs)
          else
            compareElts compare myList rest
              (addToSubMap subMap sName (cardToMapPair sptr.attrs.card))
              (if partResult ≠ .ok then partResult else result) vPairs

/-- `check for: subOverflows, subsMissing, cdDynamicChecks`. -/
def checkCards : List Signature → OrderedMap String (Int × Int) → SigResult → SigResult
  | [], _, result => result
  | ptr :: rest, subMap, result =>
    match ptr.getName with
    | none => .undefined
    | some name =>
      let card := ptr.attrs.card
      if subMap.lookup name = none ∧ card.lower = '1' then .missedSubs
      else
        let crt := (subMap.lookup name).getD (0, 0)
        if card.upper ≠ '*' ∧ digit card.upper < crt.1 then .cdOverflow
        else
          checkCards rest (subMap.insert name crt)
            (if crt.1 < digit card.lower ∨ card.upper ≠ '*' ∧ digit card.upper < crt.2
              then .cdDynamic else result)

/-- Of lists of fields, whatever the fields are compared by. -/
def compareSigCrt
    (compare : Signature → Option Signature → Visited → Option (SigResult × Visited))
    (myList list : List Signature) (vPairs : Visited) : Option (SigResult × Visited) :=
  match compareElts compare myList list ∅ .ok vPairs with
  | none => none
  | some (.inr result, vPairs) => some (result, vPairs)
  | some (.inl (subMap, result), vPairs) => some (checkCards myList subMap result, vPairs)

def compareRecNamedSigCrt :
    Nat → Signature → Option Signature → Visited → Option (SigResult × Visited)
  | 0, _, _, _ => none
  | n + 1, this, flatSig, vPairs =>
    match mismatch needTName this flatSig with
    | some result => some (result, vPairs)
    | none =>
      match this, flatSig with
      | binder _ name value, some flatSig =>
        if flatSig.getName ≠ some name then some (.typesDiffer, vPairs)
        else compareRecNamedSigCrt n value flatSig.getValue vPairs
      | emptyBinder _ name, some flatSig =>
        if flatSig.getName ≠ some name ∨ flatSig.getValue.isSome then some (.typesDiffer, vPairs)
        else some (.ok, vPairs)
      | ref _ myRef, some (ref _ sigRef) =>
        if myRef = sigRef then some (.ok, vPairs)
        else if ¬ S.isTypeDefId myRef ∧ ¬ S.isTypeDefId sigRef then some (.typesDiffer, vPairs)
        else if (myRef, sigRef) ∈ vPairs then some (.ok, vPairs)
        else
          let vPairs := vPairs ++ [(myRef, sigRef)]
          match S.namedSignatureOfRef myRef, S.namedSignatureOfRef sigRef with
          | some myVal, some sigVal =>
            match myVal.getValue with
            | some value => compareRecNamedSigCrt n value sigVal.getValue vPairs
            | none => some (.typesDiffer, vPairs)
          | _, _ => some (.typesDiffer, vPairs)
      | coll _ _ myList, some (coll _ _ list) =>
        compareSigCrt (compareRecNamedSigCrt n) myList list vPairs
      | _, _ => some (.ok, vPairs)

def compareNamedSigCrt : Nat → Signature → Option Signature → Option SigResult
  | 0, _, _ => none
  | n + 1, this, flatSig =>
    match mismatch needTName this flatSig with
    | some result => some result
    | none =>
      match this, flatSig with
      | binder _ name value, some flatSig =>
        if flatSig.getName ≠ some name then some .typesDiffer
        else compareNamedSigCrt n value flatSig.getValue
      | emptyBinder _ name, some flatSig =>
        if flatSig.getName ≠ some name ∨ flatSig.getValue.isSome then some .typesDiffer
        else some .ok
      | ref _ myRef, some (ref _ sigRef) =>
        if myRef = sigRef then some .ok
        else (compareRecNamedSigCrt S needTName n this flatSig []).map Prod.fst
      | coll _ _ myList, some (coll _ _ list) =>
        (compareSigCrt (fun m s vPairs => (compareNamedSigCrt n m s).map (·, vPairs)) myList list
          []).map Prod.fst
      | _, _ => some .ok

end Signature

end Loxim.QueryParser
