import Loxim.Lock.LockKept
import Loxim.Log.RunFrame

/-!
# Transactions

A call of a transaction asks the lock manager for its object and then works on the
store in a section of `sem`. A section that makes an object, or makes one anew at
another place, locks it there before it ends. The lock manager knows places: what is
locked is the place where the object was when it was asked for.
-/

namespace Loxim.TManager

open Store Log Lock

deriving instance DecidableEq for Operation

/-- All that the order of the lock table sees of a physical id. -/
abbrev Place := Nat × Nat × Nat

/-- `LogicalID::getPhysicalID`, the null pointer for an id that is not assigned. -/
def getPhysicalID (s : DBStoreManager) (lid : Nat) : Option Place :=
  match s.getPhysicalID lid with
  | .ok id => some (id.file, id.page % 65536, id.offset)
  | .error _ => none

/-- Where a transaction is in a call. `next` is what it does when it has the lock,
`again` the object that is to be locked at its new place. -/
inductive CallStage
  | idle
  | locking (lid : Nat) (mode : AccessMode) (place : Place) (next : Option Operation)
  | locked (c : Operation)
  | inside (again : Option Nat)
  | failed
  | ending
  | unlocking
  | ended
  deriving DecidableEq

/-- The call that has its lock. -/
def CallStage.ready : CallStage → Option Operation
  | .locked c => some c
  | .idle | .locking _ _ _ _ | .inside _ | .failed | .ending | .unlocking | .ended => none

/-- `granted` has what `LockManager::lock` returned 0 for, until `unlockAll`, and
`moved` the objects that a transaction may have moved and has not locked since. -/
structure TransactionManager (n : Nat) where
  system : System := {}
  locks : LockManager (Fin n) Place := {}
  stage : Fin n → CallStage := fun _ => .idle
  sem : Option (Fin n) := none
  granted : Fin n → Finset (Nat × AccessMode) := fun _ => ∅
  moved : Fin n → Finset Nat := fun _ => ∅

/-- A step of the store and the log, a step inside the lock manager, or one of a
transaction's call. -/
inductive Action (n : Nat)
  | log (e : System.Event)
  | manager (c : ManagerCall (Fin n) Place)
  | lock (t : Fin n) (lid : Nat) (mode : AccessMode) (next : Option Operation)
  | answer (t : Fin n)
  | createObject (t : Fin n) (name : List (BitVec 8)) (value : DataValue)
  | addRoot (t : Fin n) (o : Object)
  | call (t : Fin n)
  | again (t : Fin n)
  | leave (t : Fin n)
  | commit (t : Fin n)
  | abort (t : Fin n)
  | unlockAll (t : Fin n)
  | ended (t : Fin n)

/-- The object of a call; a new one gets the next id. -/
def object (s : DBStoreManager) : Operation → Nat
  | .createObject _ _ => s.lastAssigned + 1
  | .modifyObject o _ | .deleteObject o | .addRoot o | .removeRoot o => o.lid
  | .getObject lid => lid

/-- Calls that lock their object before the section. -/
def locksFirst : Operation → Bool
  | .modifyObject _ _ | .deleteObject _ | .removeRoot _ => true
  | .createObject _ _ | .addRoot _ | .getObject _ => false

/-- Calls that lock it at the end of the section. `removeRoot` moves it too. -/
def locksAgain : Operation → Bool
  | .createObject _ _ | .modifyObject _ _ | .addRoot _ => true
  | .deleteObject _ | .removeRoot _ | .getObject _ => false

/-- The pointer of a call is what is stored. -/
def PointsRight (s : DBStoreManager) : Operation → Prop
  | .modifyObject o _ | .deleteObject o | .addRoot o | .removeRoot o =>
    content s o.lid = some (o.name, o.value)
  | .createObject _ _ | .getObject _ => True

instance (s : DBStoreManager) : DecidablePred (PointsRight s)
  | .modifyObject o _ | .deleteObject o | .addRoot o | .removeRoot o =>
    inferInstanceAs (Decidable (content s o.lid = some (o.name, o.value)))
  | .createObject _ _ | .getObject _ => .isTrue trivial

namespace TransactionManager

variable {n : Nat} (priority : Fin n → Int)

/-- Before the first transaction, which gets the id `k`. -/
def init (k : Nat) : TransactionManager n := { system := { transactionId := k } }

def goto (m : TransactionManager n) (t : Fin n) (stage : CallStage) : TransactionManager n :=
  { m with stage := Function.update m.stage t stage }

/-- The section is left, if the transaction is in one. -/
def unlockSem (m : TransactionManager n) (t : Fin n) : TransactionManager n :=
  { m with sem := if m.sem = some t then none else m.sem }

/-- `lock` returns an error; `abort` is next. -/
def fail (m : TransactionManager n) (t : Fin n) : TransactionManager n :=
  (m.unlockSem t).goto t .failed

/-- `lock` returns 0. -/
def grant (m : TransactionManager n) (t : Fin n) (lid : Nat) (mode : AccessMode)
    (next : Option Operation) : TransactionManager n :=
  { (m.unlockSem t).goto t (next.elim .idle .locked) with
    granted := Function.update m.granted t (insert (lid, mode) (m.granted t))
    moved := if mode = .write then Function.update m.moved t ((m.moved t).erase lid) else m.moved }

/-- `LockManager::lock`. A new lock is granted at once. -/
def lock (m : TransactionManager n) (t : Fin n) (lid : Nat) (mode : AccessMode)
    (next : Option Operation) : Option (TransactionManager n) :=
  match getPhysicalID m.system.store lid with
  | none => some (m.fail t)
  | some place => do
    let locks ← m.locks.step priority (.lock t place mode)
    return if m.locks.mapOfLocks place = none then { m with locks }.grant t lid mode next
      else { m with locks }.goto t (.locking lid mode place next)

/-- The return from `lock` of who has waited. -/
def answer (m : TransactionManager n) (t : Fin n) : Option (TransactionManager n) :=
  match m.stage t, m.locks.stage t with
  | .locking lid mode _ next, .inLock id => do
    let (_, l) ← m.locks.heap id
    let locks ← m.locks.step priority (.note t)
    match l.stage t with
    | .returned _ 0 => return { m with locks }.grant t lid mode next
    | _ => return { m with locks }.fail t
  | _, _ => none

/-- The write section of a call. -/
def enter (m : TransactionManager n) (t : Fin n) (c : Operation) : Option (TransactionManager n) := do
  let system ← m.system.step (.call t c)
  let lid := object m.system.store c
  return { m.goto t (.inside (if locksAgain c then some lid else none)) with
    system
    sem := some t
    moved := Function.update m.moved t (insert lid (m.moved t)) }

/-- What a transaction that aborts may have moved when it has. -/
def written (m : TransactionManager n) (t : Fin n) : Finset Nat :=
  m.moved t ∪ ((m.granted t).filter (·.2 = .write)).image Prod.fst

def step (m : TransactionManager n) : Action n → Option (TransactionManager n)
  | .log e => (m.system.step e).map fun system => { m with system }
  | .manager c => (m.locks.step priority c).map fun locks => { m with locks }
  | .lock t lid mode next => m.lock priority t lid mode next
  | .answer t => m.answer priority t
  | .createObject t name value => m.enter t (.createObject name value)
  | .addRoot t o => m.enter t (.addRoot o)
  | .call t =>
    match m.stage t with
    | .locked c => m.enter t c
    | _ => none
  | .again t =>
    match m.stage t with
    | .inside (some lid) => m.lock priority t lid .write none
    | _ => none
  | .leave t => some ((m.unlockSem t).goto t .idle)
  | .commit t => (m.system.step (.commit t)).map fun system => { m.goto t .ending with system }
  | .abort t => (m.system.step (.abort t)).map fun system =>
    { m.goto t .ending with system, moved := Function.update m.moved t (m.written t) }
  | .unlockAll t => (m.locks.step priority (.unlockAll t)).map fun locks =>
    { m.goto t .unlocking with
      locks
      granted := Function.update m.granted t ∅
      moved := Function.update m.moved t ∅ }
  | .ended t => (m.locks.step priority (.ended t)).map fun locks => { m.goto t .ended with locks }

-- ---------------------------------------------------------------------------
-- What the calls see to
-- ---------------------------------------------------------------------------

/-- The calls of a transaction are not made behind its back, and it leaves the list
when it has unlocked. -/
def LogLegal (m : TransactionManager n) : System.Event → Prop
  | .call _ _ | .commit _ | .abort _ => False
  | .leave u => m.system.Legal (.leave u) ∧ ∀ t : Fin n, u = t → m.stage t = .ended
  | .enter => m.system.Legal .enter
  | .begin u => m.system.Legal (.begin u)
  | .work => m.system.Legal .work
  | .undo u => m.system.Legal (.undo u)
  | .rollback u => m.system.Legal (.rollback u)
  | .ckpt => m.system.Legal .ckpt
  | .endCkpt => m.system.Legal .endCkpt

/-- A step in the middle of `lock` or of `unlockAll`. -/
def inManager : ManagerCall (Fin n) Place → Bool
  | .wait _ | .inner _ | .unlockNext _ _ | .unlocked _ => true
  | .lock _ _ _ | .note _ | .unlockAll _ | .ended _ => false

/-- The transaction may call the lock manager. -/
def MayLock (m : TransactionManager n) (t : Fin n) : Prop :=
  m.locks.mutex = none ∧ m.locks.stage t = .idle

def Legal (m : TransactionManager n) : Action n → Prop
  | .log e => m.LogLegal e
  | .manager c => inManager c = true ∧ m.locks.Enabled c
  | .lock t lid mode next => m.stage t = .idle ∧ m.system.stage t = .running ∧ m.MayLock t ∧
    ∀ c ∈ next, mode = .write ∧ locksFirst c = true ∧ object m.system.store c = lid
  | .answer t => m.locks.Enabled (.note t)
  | .createObject t name value => m.stage t = .idle ∧ m.sem = none ∧
    m.system.Legal (.call t (.createObject name value))
  | .addRoot t o => m.stage t = .idle ∧ m.sem = none ∧ m.system.Legal (.call t (.addRoot o))
  | .call t => m.sem = none ∧ ∀ c ∈ (m.stage t).ready, m.system.Legal (.call t c)
  | .again t => m.system.work = none ∧ m.MayLock t
  | .leave t => m.stage t = .inside none ∧ m.system.work = none
  | .commit t => m.stage t = .idle ∧ m.system.Legal (.commit t)
  | .abort t => (m.stage t = .idle ∨ m.stage t = .failed) ∧ m.system.Legal (.abort t)
  | .unlockAll t => m.stage t = .ending ∧ (m.system.stage t = .committed ∨
    m.system.stage t = .rolledBack ∨ m.system.stage t = .failed) ∧ m.locks.Enabled (.unlockAll t)
  | .ended t => m.stage t = .unlocking ∧ m.locks.Enabled (.ended t)

-- ---------------------------------------------------------------------------
-- What nothing sees to
-- ---------------------------------------------------------------------------

/-- A place that nobody has locked. -/
def newPlace (m : TransactionManager n) (lid : Nat) : Option Place :=
  (getPhysicalID m.system.store lid).filter fun place => m.locks.mapOfLocks place = none

/-- What is given to a transaction: an object, and the place where it was. -/
structure Given (n : Nat) where
  t : Fin n
  lid : Nat
  place : Place

/-- What an action gives. -/
def gives (m : TransactionManager n) : Action n → Option (Given n)
  | .lock t lid _ _ => (m.newPlace lid).map (Given.mk t lid)
  | .again t =>
    match m.stage t with
    | .inside (some lid) => (m.newPlace lid).map (Given.mk t lid)
    | _ => none
  | .answer t =>
    match m.stage t, m.locks.stage t with
    | .locking lid _ place _, .inLock id =>
      match m.locks.heap id with
      | some (_, l) =>
        match l.stage t with
        | .returned _ 0 => some ⟨t, lid, place⟩
        | _ => none
      | none => none
    | _, _ => none
  | .log _ | .manager _ | .createObject _ _ _ | .addRoot _ _ | .call _ | .leave _ | .commit _
  | .abort _ | .unlockAll _ | .ended _ => none

/-- The lock manager is used with care, and `addRoot` has its object locked. -/
def Minds (m : TransactionManager n) : Action n → Prop
  | .manager c => m.locks.Within (SingleLock.NoUpgrade priority) c ∧ m.locks.NoLookup c
  | .addRoot t o => (o.lid, .write) ∈ m.granted t
  | .log _ | .lock _ _ _ _ | .answer _ | .createObject _ _ _ | .call _ | .again _ | .leave _
  | .commit _ | .abort _ | .unlockAll _ | .ended _ => True

/-- Who is given an object finds it where it was asked for, and no other transaction
has moved it and not locked it again. -/
def Careful (m : TransactionManager n) (a : Action n) : Prop :=
  (∀ g ∈ m.gives a, getPhysicalID m.system.store g.lid = some g.place ∧
    ∀ u, u ≠ g.t → g.lid ∉ m.moved u) ∧ m.Minds priority a

/-- The call that an action begins. -/
def begins (m : TransactionManager n) : Action n → Option (Fin n × Operation)
  | .createObject t name value => some (t, .createObject name value)
  | .addRoot t o => some (t, .addRoot o)
  | .call t => (m.stage t).ready.map (Prod.mk t)
  | .log _ | .manager _ | .lock _ _ _ _ | .answer _ | .again _ | .leave _ | .commit _ | .abort _
  | .unlockAll _ | .ended _ => none

/-- The pointers of calls are what is stored. -/
def Pointed (m : TransactionManager n) (a : Action n) : Prop :=
  ∀ x ∈ m.begins a, PointsRight m.system.store x.2

/-- Checkpoints are settled. -/
def Settled (m : TransactionManager n) : Action n → Prop
  | .log e => m.system.Settled e
  | .manager _ | .lock _ _ _ _ | .answer _ | .createObject _ _ _ | .addRoot _ _ | .call _
  | .again _ | .leave _ | .commit _ | .abort _ | .unlockAll _ | .ended _ => True

/-- A transaction ends. -/
def ends (t : Fin n) : Action n → Bool
  | .commit u | .abort u | .unlockAll u => u = t
  | .log _ | .manager _ | .lock _ _ _ _ | .answer _ | .createObject _ _ _ | .addRoot _ _ | .call _
  | .again _ | .leave _ | .ended _ => false

-- ---------------------------------------------------------------------------
-- All of it can be decided
-- ---------------------------------------------------------------------------

instance (m : TransactionManager n) : DecidablePred m.LogLegal
  | .call _ _ | .commit _ | .abort _ => .isFalse id
  | .leave u => inferInstanceAs (Decidable (m.system.Legal (.leave u) ∧
      ∀ t : Fin n, u = t → m.stage t = .ended))
  | .enter => inferInstanceAs (Decidable (m.system.Legal .enter))
  | .begin u => inferInstanceAs (Decidable (m.system.Legal (.begin u)))
  | .work => inferInstanceAs (Decidable (m.system.Legal .work))
  | .undo u => inferInstanceAs (Decidable (m.system.Legal (.undo u)))
  | .rollback u => inferInstanceAs (Decidable (m.system.Legal (.rollback u)))
  | .ckpt => inferInstanceAs (Decidable (m.system.Legal .ckpt))
  | .endCkpt => inferInstanceAs (Decidable (m.system.Legal .endCkpt))

instance (m : TransactionManager n) (t : Fin n) : Decidable (m.MayLock t) :=
  inferInstanceAs (Decidable (_ ∧ _))

instance (m : TransactionManager n) : DecidablePred m.Legal
  | .log e => inferInstanceAs (Decidable (m.LogLegal e))
  | .manager c => inferInstanceAs (Decidable (inManager c = true ∧ m.locks.Enabled c))
  | .lock t lid mode next => inferInstanceAs (Decidable (m.stage t = .idle ∧
      m.system.stage t = .running ∧ m.MayLock t ∧
      ∀ c ∈ next, mode = .write ∧ locksFirst c = true ∧ object m.system.store c = lid))
  | .answer t => inferInstanceAs (Decidable (m.locks.Enabled (.note t)))
  | .createObject t name value => inferInstanceAs (Decidable (m.stage t = .idle ∧ m.sem = none ∧
      m.system.Legal (.call t (.createObject name value))))
  | .addRoot t o => inferInstanceAs (Decidable (m.stage t = .idle ∧ m.sem = none ∧
      m.system.Legal (.call t (.addRoot o))))
  | .call t => inferInstanceAs (Decidable (m.sem = none ∧
      ∀ c ∈ (m.stage t).ready, m.system.Legal (.call t c)))
  | .again t => decidable_of_iff (m.system.work.isNone = true ∧ m.MayLock t) (by simp [Legal])
  | .leave t => decidable_of_iff (m.stage t = .inside none ∧ m.system.work.isNone = true)
      (by simp [Legal])
  | .commit t => inferInstanceAs (Decidable (m.stage t = .idle ∧ m.system.Legal (.commit t)))
  | .abort t => inferInstanceAs (Decidable ((m.stage t = .idle ∨ m.stage t = .failed) ∧
      m.system.Legal (.abort t)))
  | .unlockAll t => inferInstanceAs (Decidable (m.stage t = .ending ∧
      (m.system.stage t = .committed ∨ m.system.stage t = .rolledBack ∨
        m.system.stage t = .failed) ∧ m.locks.Enabled (.unlockAll t)))
  | .ended t => inferInstanceAs (Decidable (m.stage t = .unlocking ∧ m.locks.Enabled (.ended t)))

instance (m : TransactionManager n) : DecidablePred (m.Minds priority)
  | .manager c => inferInstanceAs (Decidable (m.locks.Within (SingleLock.NoUpgrade priority) c ∧
      m.locks.NoLookup c))
  | .addRoot t o => inferInstanceAs (Decidable ((o.lid, .write) ∈ m.granted t))
  | .log _ | .lock _ _ _ _ | .answer _ | .createObject _ _ _ | .call _ | .again _ | .leave _
  | .commit _ | .abort _ | .unlockAll _ | .ended _ => .isTrue trivial

instance (m : TransactionManager n) : DecidablePred (m.Careful priority) := fun a =>
  inferInstanceAs (Decidable ((∀ g ∈ m.gives a, getPhysicalID m.system.store g.lid = some g.place ∧
    ∀ u, u ≠ g.t → g.lid ∉ m.moved u) ∧ m.Minds priority a))

instance (m : TransactionManager n) : DecidablePred m.Pointed := fun a =>
  inferInstanceAs (Decidable (∀ x ∈ m.begins a, PointsRight m.system.store x.2))

instance (m : TransactionManager n) : DecidablePred m.Settled
  | .log e => inferInstanceAs (Decidable (m.system.Settled e))
  | .manager _ | .lock _ _ _ _ | .answer _ | .createObject _ _ _ | .addRoot _ _ | .call _
  | .again _ | .leave _ | .commit _ | .abort _ | .unlockAll _ | .ended _ => .isTrue trivial

end TransactionManager

end Loxim.TManager
