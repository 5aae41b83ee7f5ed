import Loxim.Indexes.Basic

/-!
# The visibility resolver

Which transactions a reader may see. The active transactions are a list in
begin order, closed by `tail`, the node the next transaction will get. Every
node knows which transactions ended while it was the last one; the end of the
oldest active transaction moves the horizon to that of the node after it.
-/

namespace Loxim.Indexes

abbrev Impact := Std.ExtTreeMap Lid Nat

-- ---------------------------------------------------------------------------
-- Transaction impact
-- ---------------------------------------------------------------------------

/-- A node of the list. `finishedBefore` is `none` once it has been forgotten. -/
structure TransactionImpact where
  entryCounter : Impact := ∅
  finishedBefore : Option (List Tid) := some []
  horizon : Tid := 0

namespace TransactionImpact

def addFinished (tr : TransactionImpact) (id : Tid) : Option TransactionImpact := do
  let done ← tr.finishedBefore
  return { tr with
    finishedBefore := some (done.insert id)
    horizon := if tr.horizon < id then id else tr.horizon }

def forgetFinishedBefore (tr : TransactionImpact) : TransactionImpact :=
  { tr with finishedBefore := none }

def entryAdded (tr : TransactionImpact) (index : Lid) : TransactionImpact :=
  { tr with entryCounter := tr.entryCounter.insert index (tr.entryCounter[index]?.getD 0 + 1) }

/-- A counter that reaches zero is erased. -/
def entryDropped (tr : TransactionImpact) (index : Lid) (count : Nat) : TransactionImpact :=
  { tr with
    entryCounter :=
      if count = 1 then tr.entryCounter.erase index else tr.entryCounter.insert index (count - 1) }

end TransactionImpact

-- ---------------------------------------------------------------------------
-- The resolver
-- ---------------------------------------------------------------------------

inductive TransactionEntryStatus
  | active
  | rolledBack
  deriving DecidableEq, Repr

structure VisibilityResolver where
  active : List (Tid × TransactionImpact) := []
  tail : TransactionImpact := {}
  commitTs : Std.ExtTreeMap Tid Ts := ∅
  rolledBack : RolledBack := ∅
  horizon : Tid := 0

namespace VisibilityResolver

def find (v : VisibilityResolver) (id : Tid) : Option TransactionImpact :=
  v.active.lookup id

def modify (v : VisibilityResolver) (id : Tid) (f : TransactionImpact → TransactionImpact) :
    VisibilityResolver :=
  { v with active := v.active.map fun p => if p.1 = id then (p.1, f p.2) else p }

def isRolledBack (v : VisibilityResolver) (tid : Tid) (index : Lid) : Bool :=
  if tid = Tid.rolledBack then true
  else match v.rolledBack[index]? with
    | none => false
    | some counts => counts.contains tid

def isBeyondHorizon (v : VisibilityResolver) (tid : Tid) : Bool := tid ≤ v.horizon

def isVisible (v : VisibilityResolver) (origin : Tid) (begin : Ts) (index : Lid) : Bool :=
  if origin = Tid.beyondHorizon then true
  else if v.isRolledBack origin index then false
  else match v.commitTs[origin]? with
    | none => v.isBeyondHorizon origin
    | some commitTime => commitTime < begin

def begin (v : VisibilityResolver) (id : Tid) : VisibilityResolver :=
  { v with active := v.active ++ [(id, v.tail)], tail := {} }

/-- `id` has ended just before `tail`. Fails where `id` is not active. -/
def prepare2finish (v : VisibilityResolver) (id : Tid) :
    Option (TransactionImpact × VisibilityResolver) := do
  let tr ← v.find id
  let tail ← v.tail.addFinished id
  return (tr, { v with tail })

def forgetCommitTs (commitTs : Std.ExtTreeMap Tid Ts) (done : List Tid) : Std.ExtTreeMap Tid Ts :=
  done.foldl (fun m tid => m.erase tid) commitTs

def moveHorizon (v : VisibilityResolver) (next : TransactionImpact) : Option VisibilityResolver := do
  let done ← next.finishedBefore
  return { v with horizon := next.horizon, commitTs := forgetCommitTs v.commitTs done }

/-- Takes `id` off the list. Only the end of the oldest transaction has an
effect on the others. -/
def finish (v : VisibilityResolver) (id : Tid) : Option VisibilityResolver :=
  match v.active with
  | [] => none
  | (first, _) :: rest =>
    if first ≠ id then some { v with active := v.active.eraseP (·.1 = id) }
    else match rest with
      | [] => do
        let v' ← v.moveHorizon v.tail
        return { v' with active := [], tail := v.tail.forgetFinishedBefore }
      | (next, tr) :: others => do
        let v' ← v.moveHorizon tr
        return { v' with active := (next, tr.forgetFinishedBefore) :: others }

def addRolledBack (id : Tid) (rolledBack : RolledBack) (counter : Lid × Nat) : RolledBack :=
  rolledBack.insert counter.1 ((rolledBack.getD counter.1 ∅).insertIfNew id counter.2)

def abort (v : VisibilityResolver) (id : Tid) : Option VisibilityResolver := do
  let (tr, v) ← v.prepare2finish id
  let v ← v.finish id
  return { v with
    rolledBack := tr.entryCounter.toList.foldl (addRolledBack id) v.rolledBack }

/-- A transaction without entries leaves no commit time behind. -/
def commit (v : VisibilityResolver) (id : Tid) (timestamp : Ts) : Option VisibilityResolver := do
  let (tr, v) ← v.prepare2finish id
  let v := if tr.entryCounter.isEmpty then v
    else { v with commitTs := v.commitTs.insertIfNew id timestamp }
  v.finish id

def indexDropped (v : VisibilityResolver) (index : Lid) : VisibilityResolver :=
  { v with rolledBack := v.rolledBack.erase index }

def entryAdded (v : VisibilityResolver) (tid : Tid) (index : Lid) : Option VisibilityResolver := do
  let _ ← v.find tid
  return v.modify tid (·.entryAdded index)

/-- `none` where an assertion fails. -/
def entryDropped (v : VisibilityResolver) (tid : Tid) (index : Lid) :
    TransactionEntryStatus → Option VisibilityResolver
  | .active => do
    let tr ← v.find tid
    let count ← tr.entryCounter[index]?
    return v.modify tid (·.entryDropped index count)
  | .rolledBack =>
    if tid = Tid.rolledBack then some v
    else do
      let counts ← v.rolledBack[index]?
      let count ← counts[tid]?
      if count = 1 then
        let counts := counts.erase tid
        return { v with
          rolledBack := if counts.isEmpty then v.rolledBack.erase index
            else v.rolledBack.insert index counts }
      else
        return { v with rolledBack := v.rolledBack.insert index (counts.insert tid (count - 1)) }

end VisibilityResolver

end Loxim.Indexes
