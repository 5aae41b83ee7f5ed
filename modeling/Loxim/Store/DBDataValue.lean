import Mathlib.Data.Finset.Sort
import Mathlib.Data.Finset.Dedup
import Loxim.Lib.Decoder
import Loxim.Store.PageManager

/-!
# The bytes of an object

`serialize` appends the parts of an object to a buffer that grows by doubling, and
`deserialize` takes them apart again. The members of a vector that have been deleted
are left out when an object is read from a page.
-/

namespace Loxim.Store

open Bytes

/-- A class has the set of its subclasses, or a null pointer. -/
inductive DBSubtype
  | none
  | link
  | classType (subclasses : Option (Finset UInt32))
  | procedure
  | view
  | interface
  | storeSchema
  deriving DecidableEq

inductive DBValue
  | integer (value : BitVec 32)
  | double (bits : BitVec 64)
  | string (bytes : List UInt8)
  | pointer (lid : UInt32)
  | vector (lids : List UInt32)
  deriving DecidableEq

structure DBDataValue where
  subtype : DBSubtype := .none
  classMarks : Option (Finset UInt32) := Option.none
  value : DBValue
  deriving DecidableEq

structure DBObjectPointer where
  lid : UInt32
  isRoot : Bool
  name : List UInt8
  value : DBDataValue
  deriving DecidableEq

-- ---------------------------------------------------------------------------
-- The buffer
-- ---------------------------------------------------------------------------

/-- `realsize` bytes are allocated. -/
structure Serialized where
  bytes : List UInt8 := []
  realsize : Nat := 0

namespace Serialized

/-- The sizes are `int`, and more than they hold cannot be allocated. -/
def append (s : Serialized) (z : List UInt8) : Option Serialized :=
  if z.length = 0 then some s
  else if s.realsize - s.bytes.length < z.length then
    if (s.bytes.length + z.length) * 2 < 2 ^ 31 then
      some { bytes := s.bytes ++ z, realsize := (s.bytes.length + z.length) * 2 }
    else none
  else some { s with bytes := s.bytes ++ z }

/-- The length of a string is converted to `int`. -/
def appendString (s : Serialized) (str : List UInt8) : Option Serialized :=
  let slen := Scalar.int.wrap str.length
  if slen < 0 then none else s.append (Scalar.int.toBytes slen ++ str.take slen.toNat)

def appendLids (s : Serialized) (lids : List UInt32) : Option Serialized :=
  lids.foldlM (fun s lid => s.append (Scalar.uint.toBytes lid.toNat)) s

end Serialized

section

-- the order of iteration over a hash set
variable (order : Finset UInt32 → List UInt32)

def Serialized.appendSet (s : Serialized) : Option (Finset UInt32) → Option Serialized
  | none => s.append (Scalar.uint.toBytes 0)
  | some lids => do
    let s ← s.append (Scalar.uint.toBytes lids.card)
    s.appendLids (order lids)

def DBSubtype.toInt : DBSubtype → Int
  | .none => 0
  | .link => 1
  | .classType _ => 2
  | .procedure => 3
  | .view => 4
  | .interface => 5
  | .storeSchema => 6

/-- `DataType`. -/
def DBValue.type : DBValue → Int
  | .integer _ => 0x01
  | .double _ => 0x02
  | .string _ => 0x03
  | .pointer _ => 0xE0
  | .vector _ => 0xF0

def Serialized.appendSubclasses (s : Serialized) : DBSubtype → Option Serialized
  | .classType subclasses => s.appendSet order subclasses
  | .none | .link | .procedure | .view | .interface | .storeSchema => some s

def Serialized.appendValue (s : Serialized) : DBValue → Option Serialized
  | .integer v => s.append (Scalar.int.toBytes v.toInt)
  | .double v => s.append (Scalar.ulong.toBytes v.toNat)
  | .string str => s.appendString str
  | .pointer lid => s.append (Scalar.uint.toBytes lid.toNat)
  | .vector lids => do
    let s ← s.append (Scalar.int.toBytes (Scalar.int.wrap lids.length))
    s.appendLids lids

def DBDataValue.serialize (v : DBDataValue) : Option Serialized := do
  let s ← Serialized.append {} (Scalar.int.toBytes v.value.type)
  let s ← s.append (Scalar.int.toBytes v.subtype.toInt)
  let s ← s.appendSet order v.classMarks
  let s ← s.appendSubclasses order v.subtype
  s.appendValue v.value

def DBObjectPointer.serialize (o : DBObjectPointer) : Option Serialized := do
  let s ← Serialized.append {} (Scalar.uint.toBytes o.lid.toNat)
  let s ← s.append (Scalar.int.toBytes (if o.isRoot then 1 else 0))
  let s ← s.append (Scalar.int.toBytes 0x78563412)
  let s ← s.appendString o.name
  let value ← o.value.serialize order
  s.append value.bytes

end

-- ---------------------------------------------------------------------------
-- Reading
-- ---------------------------------------------------------------------------

/-- What is read is outside of the memory, the value has no known type, the object is
longer than its place, or the process ends. -/
inductive LoadError
  | outside
  | unknownType
  | tooLong
  | exit
  deriving DecidableEq

/-- `getPhysicalID` finds the ids up to the last one that has been assigned. -/
structure LidMap where
  lastAssigned : UInt32
  isRIP : UInt32 → Bool

def LidMap.getPhysicalID (map : LidMap) (lid : UInt32) : Option Bool :=
  if lid = 0 then none else if map.lastAssigned < lid then none else some (map.isRIP lid)

open Decoder

def readInt : Decoder LoadError Int := scalar .outside .int

def DBLogicalID.deserialize : Decoder LoadError UInt32 := do
  let v ← scalar .outside .uint
  return UInt32.ofNat v.toNat

namespace DBDataValue

def deserializeSetOfLids : Decoder LoadError (Finset UInt32) := do
  let setSize ← scalar .outside .uint
  let lids ← replicate DBLogicalID.deserialize setSize.toNat
  return lids.toFinset

def subtypeOf (subtype : Int) : Decoder LoadError DBSubtype :=
  if subtype = 2 then do
    let subclasses ← deserializeSetOfLids
    return .classType (some subclasses)
  else if subtype = 0 then return .none
  else if subtype = 1 then return .link
  else if subtype = 3 then return .procedure
  else if subtype = 4 then return .view
  else if subtype = 5 then return .interface
  else if subtype = 6 then return .storeSchema
  else fail .unknownType

/-- With a map, the members that it has no longer are left out. -/
def keepMember (autoRemove : Option LidMap) (lid : UInt32) : Decoder LoadError (List UInt32) :=
  match autoRemove with
  | none => return [lid]
  | some map =>
    match map.getPhysicalID lid with
    | none => fail .exit
    | some isRIP => return if isRIP then [] else [lid]

def deserializeMember (autoRemove : Option LidMap) : Decoder LoadError (List UInt32) := do
  let lid ← DBLogicalID.deserialize
  keepMember autoRemove lid

def deserializeValue (autoRemove : Option LidMap) (type : Int) : Decoder LoadError DBValue :=
  if type = 0x01 then do
    let v ← readInt
    return .integer (BitVec.ofInt 32 v)
  else if type = 0x02 then do
    let v ← scalar .outside .ulong
    return .double (BitVec.ofInt 64 v)
  else if type = 0x03 then do
    let slen ← readInt
    let bytes ← take .outside slen.toNat
    return .string bytes
  else if type = 0xE0 then do
    let lid ← DBLogicalID.deserialize
    return .pointer lid
  else if type = 0xF0 then do
    let vlen ← readInt
    let kept ← replicate (deserializeMember autoRemove) vlen.toNat
    return .vector kept.flatten
  else fail .unknownType

def deserialize (autoRemove : Option LidMap) : Decoder LoadError DBDataValue := do
  let type ← readInt
  let subtype ← readInt
  let classMarks ← deserializeSetOfLids
  let subtype ← subtypeOf subtype
  let value ← deserializeValue autoRemove type
  return { subtype, classMarks := some classMarks, value }

end DBDataValue

namespace DBObjectPointer

def deserializeParts (map : LidMap) : Decoder LoadError DBObjectPointer := do
  let lid ← DBLogicalID.deserialize
  let isRoot ← readInt
  let _ ← readInt
  let slen ← readInt
  let name ← if slen < 0 then fail .outside else take .outside slen.toNat
  let value ← DBDataValue.deserialize (some map)
  return { lid, isRoot := isRoot = 1, name, value }

/-- `PageManager::deserialize` of an object that has `osize` bytes on its page, with the
number of bytes it uses. -/
def deserialize (map : LidMap) (osize : Nat) (bytes : List UInt8) :
    Except LoadError (DBObjectPointer × Nat) :=
  match deserializeParts map bytes with
  | .error e => .error e
  | .ok (o, rest) =>
    if osize < bytes.length - rest.length then .error .tooLong
    else .ok (o, bytes.length - rest.length)

end DBObjectPointer

end Loxim.Store
