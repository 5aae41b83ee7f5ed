import Loxim.Lib.Run
import Loxim.Log.Recover

/-!
# Runs of the system and the logs they leave

A transaction is in the active list before its Begin is logged and after its end
is. A call that changes the store does so in the write section, each change after
its record; a rollback reads the log that it finds and is outside the section. The
page writer logs a checkpoint with the active list, and later its end.
-/

namespace Loxim.Log

open Store

/-- Where a transaction is. One that is undone still has to log it. -/
inductive Stage
  | unborn
  | entered
  | running
  | committed
  | undoing (rest : List LogRecord)
  | undone
  | failed
  | rolledBack
  deriving DecidableEq

structure Change where
  r : WriteRecord
  isRoot : Bool := false

/-- A call in the write section: the changes it has to make, and whether the first
one has its record. -/
structure Work where
  tid : Nat
  changes : List Change
  logged : Bool := false

/-- `saved` is the store at the last checkpoint that ended. -/
structure System where
  store : DBStoreManager := {}
  log : List LogRecord := []
  transactionId : Nat := 0
  active : List Nat := []
  stage : Nat → Stage := fun _ => .unborn
  work : Option Work := none
  ckpt : Option DBStoreManager := none
  saved : DBStoreManager := {}

/-- What a call does to the store; `lid` is the id of a new object. -/
def Operation.changes (t lid : Nat) : Operation → List Change
  | .createObject name value => [{ r := ⟨t, lid, name, none, some value⟩ }]
  | .modifyObject o dv =>
    [{ r := ⟨t, o.lid, o.name, some o.value, none⟩ },
      { r := ⟨t, o.lid, o.name, none, some dv⟩, isRoot := o.isRoot }]
  | .deleteObject o => [{ r := ⟨t, o.lid, o.name, some o.value, none⟩ }]
  | .addRoot o =>
    [{ r := ⟨t, o.lid, o.name, some o.value, none⟩ },
      { r := ⟨t, o.lid, o.name, none, some o.value⟩, isRoot := true }]
  | .removeRoot o =>
    [{ r := ⟨t, o.lid, o.name, some o.value, none⟩ },
      { r := ⟨t, o.lid, o.name, none, some o.value⟩, isRoot := false }]
  | .getObject _ => []

/-- A new object takes its id first. -/
def Operation.assign (s : DBStoreManager) : Operation → DBStoreManager
  | .createObject _ _ => s.createLogicalID
  | .modifyObject _ _ | .deleteObject _ | .addRoot _ | .removeRoot _ | .getObject _ => s

/-- The change itself. Whether there was something to delete is not looked at. -/
def Change.make (c : Change) (s : DBStoreManager) : Option DBStoreManager :=
  match c.r.newVal with
  | some v => (s.createObject c.r.name v (some c.r.lid) c.isRoot).map Prod.fst
  | none => some (c.r.deleteFromStore s).1

def Work.of (tid : Nat) : List Change → Option Work
  | [] => none
  | c :: changes => some { tid, changes := c :: changes }

namespace System

inductive Event
  | enter
  | begin (t : Nat)
  | call (t : Nat) (c : Operation)
  | work
  | commit (t : Nat)
  | abort (t : Nat)
  | undo (t : Nat)
  | rollback (t : Nat)
  | leave (t : Nat)
  | ckpt
  | endCkpt

def setStage (s : System) (t : Nat) (g : Stage) : System :=
  { s with stage := Function.update s.stage t g }

def push (s : System) (x : LogRecord) : System := { s with log := x :: s.log }

/-- One record of a rollback. Before the start of the log `lseek` fails. -/
def undo (s : System) (t : Nat) : List LogRecord → Option System
  | [] => some (s.setStage t .failed)
  | .begin u :: rest => some (s.setStage t (if u = t then .undone else .undoing rest))
  | .write r :: rest =>
    if r.tid = t then do
      let (store, err) ← r.rollBack s.store
      return { s.setStage t (if 0 < err then .failed else .undoing rest) with store }
    else some (s.setStage t (.undoing rest))
  | .commit _ :: rest | .rollback _ :: rest | .ckpt _ :: rest | .endCkpt :: rest
  | .shutdown :: rest => some (s.setStage t (.undoing rest))

/-- The record of the next change is pushed, or the change is made. -/
def doWork (s : System) (w : Work) : Option System :=
  match w.changes with
  | [] => none
  | c :: rest =>
    if w.logged then do
      let store ← c.make s.store
      return { s with store, work := Work.of w.tid rest }
    else some { s.push (.write c.r) with work := some { w with logged := true } }

def step (s : System) : Event → Option System
  | .enter => some { s.setStage s.transactionId .entered with
    active := s.active ++ [s.transactionId], transactionId := s.transactionId + 1 }
  | .begin t => some ((s.push (.begin t)).setStage t .running)
  | .call t c =>
    let store := c.assign s.store
    some { s with store, work := Work.of t (c.changes t store.lastAssigned) }
  | .work => s.work.bind s.doWork
  | .commit t => some ((s.push (.commit t)).setStage t .committed)
  | .abort t => some (s.setStage t (.undoing s.log))
  | .undo t =>
    match s.stage t with
    | .undoing rest => s.undo t rest
    | .unborn | .entered | .running | .committed | .undone | .failed | .rolledBack => none
  | .rollback t => some ((s.push (.rollback t)).setStage t .rolledBack)
  | .leave t => some { s with active := s.active.erase t }
  | .ckpt => some { s.push (.ckpt s.active) with ckpt := some s.store }
  | .endCkpt => s.ckpt.map fun store => { s.push .endCkpt with ckpt := none, saved := store }

/-- What one transaction and the page writer do is in order. Calls are made with
values that fit. -/
def Legal (s : System) : Event → Prop
  | .enter | .work | .undo _ | .endCkpt => True
  | .begin t => s.stage t = .entered
  | .call t c => s.stage t = .running ∧ s.work = none ∧
    Session.Allowed { store := s.store, log := s.log } c
  | .commit t | .abort t => s.stage t = .running ∧ ∀ w ∈ s.work, w.tid ≠ t
  | .rollback t => s.stage t = .undone
  | .leave t => s.stage t = .committed ∨ s.stage t = .rolledBack ∨ s.stage t = .failed
  | .ckpt => s.ckpt = none

/-- No other unfinished transaction has written the object. -/
def Alone (log : List LogRecord) (t lid : Nat) : Prop :=
  ∀ u, Unfinished log u → Wrote log u lid → u = t

/-- A call has the object for itself, and its pointer is right. -/
structure Owned (s : System) (t : Nat) (o : Object) : Prop where
  alone : Alone s.log t o.lid
  stored : content s.store o.lid = some (o.name, o.value)

def Exclusive (s : System) : Event → Prop
  | .call t c =>
    match c with
    | .modifyObject o _ | .deleteObject o | .addRoot o | .removeRoot o => s.Owned t o
    | .createObject _ _ | .getObject _ => True
  | .enter | .begin _ | .work | .commit _ | .abort _ | .undo _ | .rollback _ | .leave _ | .ckpt
  | .endCkpt => True

/-- A checkpoint is logged when every transaction in the active list has its Begin
in the log and has not its end, and no change is left to be made after its record. -/
def Settled (s : System) : Event → Prop
  | .ckpt => (∀ t ∈ s.active, Unfinished s.log t) ∧ ∀ w ∈ s.work, w.logged = false
  | .enter | .begin _ | .call _ _ | .work | .commit _ | .abort _ | .undo _ | .rollback _
  | .leave _ | .endCkpt => True

end System

end Loxim.Log
