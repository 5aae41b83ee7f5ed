import Loxim.Store.DBStoreManager

/-!
# Log records

Every change of an object is logged with its old and its new value before it is
made. A record undoes or repeats its change through the same operations of the
store; what these do then is not logged.
-/

namespace Loxim.Log

open Store

structure WriteRecord where
  tid : Nat
  lid : Nat
  name : List (BitVec 8)
  oldVal : Option DataValue
  newVal : Option DataValue
  deriving DecidableEq

inductive LogRecord
  | begin (tid : Nat)
  | write (r : WriteRecord)
  | commit (tid : Nat)
  | rollback (tid : Nat)
  | ckpt (tids : List Nat)
  | endCkpt
  | shutdown
  deriving DecidableEq

/-- `LOG_INCORRECT_RECORD_FORMAT`. -/
def incorrectRecordFormat : Int := 200004

/-- `errno` when `lseek` would go before the start of the file. -/
def eInval : Int := 22

namespace WriteRecord

def deleteFromStore (r : WriteRecord) (s : DBStoreManager) : DBStoreManager × Int :=
  match s.deleteObject r.lid with
  | .ok s' => (s', 0)
  | .error e => (s, e)

/-- The object comes back as one that is not a root. -/
def addToStore (r : WriteRecord) (s : DBStoreManager) (dv : DataValue) :
    Option (DBStoreManager × Int) := do
  let (s', _) ← s.createObject r.name dv (some r.lid) false
  return (s', 0)

/-- A deleted object is found as a null pointer, and that has no value to set. -/
def changeValue (r : WriteRecord) (s : DBStoreManager) (dv : DataValue) :
    Option (DBStoreManager × Int) :=
  match s.getObject r.lid with
  | .ok (some o) => do
    let (s', _) ← (r.deleteFromStore s).1.createObject o.name dv (some r.lid) false
    return (s', 0)
  | .ok none => none
  | .error _ => r.addToStore s dv

/-- The code of what is done with a record, and `none` where that is not defined. -/
def rollBack (r : WriteRecord) (s : DBStoreManager) : Option (DBStoreManager × Int) :=
  match r.oldVal, r.newVal with
  | none, none => some (s, incorrectRecordFormat)
  | none, some _ => some (r.deleteFromStore s)
  | some old, none => r.addToStore s old
  | some old, some _ => r.changeValue s old

def commit (r : WriteRecord) (s : DBStoreManager) : Option (DBStoreManager × Int) :=
  match r.oldVal, r.newVal with
  | none, none => some (s, incorrectRecordFormat)
  | none, some new => r.addToStore s new
  | some _, none => some (r.deleteFromStore s)
  | some _, some new => r.changeValue s new

end WriteRecord

/-- `LogManager::rollbackTransaction`, with the log from its end to its start. -/
def rollbackTransaction (tid : Nat) : List LogRecord → DBStoreManager → Option (DBStoreManager × Int)
  | [], s => some (s, eInval)
  | .begin t :: rest, s => if t = tid then some (s, 0) else rollbackTransaction tid rest s
  | .write r :: rest, s =>
    if r.tid = tid then do
      let (s, err) ← r.rollBack s
      if 0 < err then return (s, err) else rollbackTransaction tid rest s
    else rollbackTransaction tid rest s
  | .commit _ :: rest, s | .rollback _ :: rest, s | .ckpt _ :: rest, s | .endCkpt :: rest, s
  | .shutdown :: rest, s => rollbackTransaction tid rest s

end Loxim.Log
