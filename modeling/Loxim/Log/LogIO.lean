import Loxim.Store.RoundTrip

/-!
# The log file

A record is its type, its number, its body and its length. Reading goes forward
through the parts, or back by the length and then forward.
-/

namespace Loxim.Log

open Bytes Decoder Store

/-- The ten types of records, with what they have in the file. -/
inductive RecordBody
  | begin (tid : BitVec 32)
  | commit (tid : BitVec 32)
  | rollback (tid : BitVec 32)
  | ckpt (tids : List (BitVec 32))
  | endCkpt
  | write (tid : BitVec 32) (lid : Option UInt32) (name : List UInt8)
    (oldVal newVal : Option DBDataValue) (newLID : Bool)
  | shutdown
  | addRoot (tid : BitVec 32) (lid : Option UInt32)
  | removeRoot (tid : BitVec 32) (lid : Option UInt32)
  | redoLogs
  deriving DecidableEq

structure FileRecord where
  id : BitVec 32
  body : RecordBody
  deriving DecidableEq

/-- `XXXX_LOG_REC_TYPE`. -/
def RecordBody.type : RecordBody → Int
  | .begin _ => 1
  | .commit _ => 2
  | .rollback _ => 3
  | .ckpt _ => 4
  | .endCkpt => 5
  | .write .. => 6
  | .shutdown => 7
  | .addRoot .. => 8
  | .removeRoot .. => 9
  | .redoLogs => 10

-- ---------------------------------------------------------------------------
-- Writing
-- ---------------------------------------------------------------------------

namespace LogIO

def writeInt (v : Int) : List UInt8 := Scalar.int.toBytes v

/-- The length is an `unsigned`. -/
def writeString (str : List UInt8) : List UInt8 :=
  writeInt (str.length % 2 ^ 32 : Nat) ++ str.take (str.length % 2 ^ 32)

def writeTransactionID (tid : BitVec 32) : List UInt8 := writeInt tid.toInt

def writeLogicalID : Option UInt32 → List UInt8
  | none => writeInt 0
  | some lid => writeString (lidBytes lid)

def writeTransactionIDVector (tids : List (BitVec 32)) : List UInt8 :=
  writeInt tids.length ++ tids.flatMap writeTransactionID

end LogIO

open LogIO

section

-- the order of iteration over a hash set
variable (order : Finset UInt32 → List UInt32)

/-- `oldValS` and `newValS`, which are made with the record. -/
def valueString : Option DBDataValue → Option (List UInt8)
  | none => some []
  | some v => (v.serialize order).map Serialized.bytes

def RecordBody.writeBody : RecordBody → Option (List UInt8)
  | .begin tid | .commit tid | .rollback tid => some (writeTransactionID tid)
  | .ckpt tids => some (writeTransactionIDVector tids)
  | .endCkpt | .shutdown | .redoLogs => some []
  | .addRoot tid lid | .removeRoot tid lid => some (writeTransactionID tid ++ writeLogicalID lid)
  | .write tid lid name oldVal newVal newLID => do
    let oldValS ← valueString order oldVal
    let newValS ← valueString order newVal
    return writeTransactionID tid ++ (writeLogicalID lid ++ (writeString name ++
      (writeString oldValS ++ (writeString newValS ++ writeInt (if newLID then 1 else 0)))))

def writeLogRecord (r : FileRecord) : Option (List UInt8) := do
  let body ← r.body.writeBody order
  return writeInt r.body.type ++ (writeInt r.id.toInt ++
    (body ++ writeInt (8 + body.length + 4 : Nat)))

end

-- ---------------------------------------------------------------------------
-- Reading
-- ---------------------------------------------------------------------------

/-- The file ends, the length is wrong, a buffer has a negative size, a type is not
known, a value cannot be read, or a position would be before the file. -/
inductive LogError
  | unexpectedEof
  | lengthMismatch
  | badAlloc
  | assertion
  | undefined
  | eInval
  deriving DecidableEq

namespace LogIO

def readInt : Decoder LogError Int := scalar .unexpectedEof .int

def readString : Decoder LogError (List UInt8) := do
  let len ← readInt
  if len < 0 then fail .badAlloc else take .unexpectedEof len.toNat

def readTransactionID : Decoder LogError (BitVec 32) := do
  let id ← readInt
  return BitVec.ofInt 32 id

def logicalIDFromByteArray (s : List UInt8) : Decoder LogError (Option UInt32) :=
  match DBLogicalID.deserialize s with
  | .ok (lid, _) => return some lid
  | .error _ => fail .undefined

def readLogicalID : Decoder LogError (Option UInt32) := do
  let s ← readString
  if s.isEmpty then return none else logicalIDFromByteArray s

def dataValueFromByteArray (s : List UInt8) : Decoder LogError (Option DBDataValue) :=
  match DBDataValue.deserialize none s with
  | .ok (v, _) => return some v
  | .error _ => fail .undefined

def readDataValue : Decoder LogError (Option DBDataValue) := do
  let s ← readString
  if s.isEmpty then return none else dataValueFromByteArray s

def readTransactionIDVector : Decoder LogError (List (BitVec 32)) := do
  let size ← readInt
  if size < 0 then fail .badAlloc else replicate readTransactionID size.toNat

end LogIO

def readWrite : Decoder LogError RecordBody := do
  let tid ← readTransactionID
  let lid ← readLogicalID
  let name ← readString
  let oldVal ← readDataValue
  let newVal ← readDataValue
  let flag ← readInt
  return .write tid lid name oldVal newVal (0 < flag)

def readRoot (make : BitVec 32 → Option UInt32 → RecordBody) : Decoder LogError RecordBody := do
  let tid ← readTransactionID
  let lid ← readLogicalID
  return make tid lid

def readBody (type : Int) : Decoder LogError RecordBody :=
  if type = 1 then .begin <$> readTransactionID
  else if type = 2 then .commit <$> readTransactionID
  else if type = 3 then .rollback <$> readTransactionID
  else if type = 4 then .ckpt <$> readTransactionIDVector
  else if type = 5 then return .endCkpt
  else if type = 6 then readWrite
  else if type = 7 then return .shutdown
  else if type = 8 then readRoot .addRoot
  else if type = 9 then readRoot .removeRoot
  else if type = 10 then return .redoLogs
  else fail .assertion

/-- A record and the length that is after it. -/
def readRecord : Decoder LogError (FileRecord × Int) := do
  let type ← readInt
  let id ← readInt
  let body ← readBody type
  let recordLen ← readInt
  return ({ id := BitVec.ofInt 32 id, body }, recordLen)

def readLogRecordForward (file : List UInt8) (pos : Nat) : Except LogError (FileRecord × Nat) :=
  match readRecord (file.drop pos) with
  | .error e => .error e
  | .ok ((r, recordLen), rest) =>
    let posEnd := file.length - rest.length
    if (posEnd : Int) - pos = recordLen then .ok (r, posEnd) else .error .lengthMismatch

/-- A position `offset` from another one, if it is not before the file. -/
def lseek (pos offset : Int) : Except LogError Nat :=
  if pos + offset < 0 then .error .eInval else .ok (pos + offset).toNat

def readLogRecordBackward (file : List UInt8) (pos : Nat) : Except LogError (FileRecord × Nat) := do
  let pos ← lseek pos (-4)
  match LogIO.readInt (file.drop pos) with
  | .error e => .error e
  | .ok (recordLen, rest) =>
    let pos ← lseek (file.length - rest.length : Nat) (-recordLen)
    let (r, pos) ← readLogRecordForward file pos
    let pos ← lseek pos (-recordLen)
    return (r, pos)

end Loxim.Log
