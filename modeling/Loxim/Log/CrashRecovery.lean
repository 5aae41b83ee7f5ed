import Mathlib.Data.Finset.Basic
import Loxim.Log.LogRecord

/-!
# Recovery after a crash

The log is read three times: backward to note who has to be rolled back and who
committed, up to the last checkpoint that ended; further backward to undo; and
forward from the checkpoint to redo. What is left to roll back at the end gets a
Rollback record, but then nothing is left.

The log is given from its end to its start.
-/

namespace Loxim.Log

open Store

/-- `UNEXPECTED_EOF_ERROR`. -/
def unexpectedEof : Int := 100001

structure CrashRecovery where
  afterCkptEnd : Bool := false
  tidsToRollback : Finset Nat := ∅
  tidsToCommit : Finset Nat := ∅

namespace LogRecord

def modifySetsBackDir (c : CrashRecovery) : LogRecord → CrashRecovery
  | .begin tid =>
    if tid ∈ c.tidsToCommit then c else { c with tidsToRollback := c.tidsToRollback.erase tid }
  | .write r =>
    if r.tid ∈ c.tidsToCommit then c else { c with tidsToRollback := insert r.tid c.tidsToRollback }
  | .commit tid => { c with tidsToCommit := insert tid c.tidsToCommit }
  | .rollback tid => { c with tidsToRollback := insert tid c.tidsToRollback }
  | .ckpt _ | .endCkpt | .shutdown => c

/-- What `rollBack` does to the set of transactions. -/
def rollBackTids (tids : Finset Nat) : LogRecord → Finset Nat
  | .begin tid => tids.erase tid
  | .write _ | .commit _ | .rollback _ | .ckpt _ | .endCkpt | .shutdown => tids

/-- What `rollBack` does to the store; the callers do not look at the code. -/
def rollBackStore (tids : Finset Nat) (s : DBStoreManager) : LogRecord → Option DBStoreManager
  | .write r => if r.tid ∈ tids then (r.rollBack s).map Prod.fst else some s
  | .begin _ | .commit _ | .rollback _ | .ckpt _ | .endCkpt | .shutdown => some s

def ckptEnd (c : CrashRecovery) : LogRecord → CrashRecovery
  | .endCkpt => { c with afterCkptEnd := true }
  | .begin _ | .write _ | .commit _ | .rollback _ | .ckpt _ | .shutdown => c

/-- The transactions that were active are rolled back unless they committed later. -/
def ckptStart (c : CrashRecovery) : LogRecord → CrashRecovery
  | .ckpt tids => { c with
    tidsToRollback := c.tidsToRollback ∪ tids.toFinset.filter (· ∉ c.tidsToCommit) }
  | .begin _ | .write _ | .commit _ | .rollback _ | .endCkpt | .shutdown => c

def ckptReached (c : CrashRecovery) : LogRecord → Bool
  | .ckpt _ => c.afterCkptEnd
  | .begin _ | .write _ | .commit _ | .rollback _ | .endCkpt | .shutdown => false

def commitTids (tids : Finset Nat) : LogRecord → Finset Nat
  | .commit tid => tids.erase tid
  | .begin _ | .write _ | .rollback _ | .ckpt _ | .endCkpt | .shutdown => tids

def commitStore (tids : Finset Nat) (s : DBStoreManager) : LogRecord → Option DBStoreManager
  | .write r => if r.tid ∈ tids then (r.commit s).map Prod.fst else some s
  | .begin _ | .commit _ | .rollback _ | .ckpt _ | .endCkpt | .shutdown => some s

end LogRecord

namespace CrashRecovery

/-- One record read backward. The store must not be read yet, so no write is
undone. -/
def note (c : CrashRecovery) (r : LogRecord) : CrashRecovery :=
  let c := r.modifySetsBackDir c
  let c := { c with tidsToRollback := r.rollBackTids c.tidsToRollback }
  r.ckptStart (r.ckptEnd c)

/-- The sets, and the log before the checkpoint. At the start of the file `lseek`
fails, and that is not the code that is waited for. -/
def crNoteAndRollback (c : CrashRecovery) : List LogRecord → CrashRecovery × List LogRecord
  | [] => (c, [])
  | r :: rest =>
    if r.ckptReached (c.note r) then (c.note r, rest) else (c.note r).crNoteAndRollback rest

end CrashRecovery

def crRollback (tids : Finset Nat) (s : DBStoreManager) :
    List LogRecord → Option (DBStoreManager × Int)
  | [] => some (s, if tids = ∅ then 0 else eInval)
  | r :: rest =>
    if tids = ∅ then some (s, 0)
    else do
      let s ← r.rollBackStore tids s
      crRollback (r.rollBackTids tids) s rest

/-- With the log from the checkpoint to its end. -/
def crCommit (tids : Finset Nat) (s : DBStoreManager) :
    List LogRecord → Option (DBStoreManager × Int)
  | [] => some (s, if tids = ∅ then 0 else unexpectedEof)
  | r :: rest =>
    if tids = ∅ then some (s, 0)
    else do
      let s ← r.commitStore tids s
      crCommit (r.commitTids tids) s rest

def recover (log : List LogRecord) (s : DBStoreManager) : Option (DBStoreManager × Int) :=
  match log with
  | [] => some (s, eInval)
  | .shutdown :: _ => some (s, 0)
  | _ => do
    let (c, rest) := CrashRecovery.crNoteAndRollback {} log
    let (s, err) ← crRollback c.tidsToRollback s rest
    if err ≠ 0 then return (s, err)
    crCommit c.tidsToCommit s (log.take (log.length - rest.length)).reverse

end Loxim.Log
