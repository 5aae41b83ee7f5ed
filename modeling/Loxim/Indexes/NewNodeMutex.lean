import Loxim.Indexes.Basic
import Loxim.Lib.Run

/-!
# The mutex of new pages

`getNode` locks and unlocks `newNodeMutex` by hand. The mutex is recursive: what
matters to a thread is how often it holds it, and nobody else changes that. What the
other threads do to the shared data is in the answers the call gets.
-/

namespace Loxim.Indexes.NewNodeMutex

-- ---------------------------------------------------------------------------
-- The mutex
-- ---------------------------------------------------------------------------

/-- A thread's program over its holds of the mutex; `none` is the exception of
`Mutex::unlock`. -/
abbrev Locking := StateT Nat Option

namespace Locking

def lock : Locking Unit := fun held => some ((), held + 1)

/-- A mutex that the thread does not hold is not unlocked: EPERM. -/
def unlock : Locking Unit
  | 0 => none
  | held + 1 => some ((), held)

/-- `Mutex::Locker` around a block that does not throw. -/
def locker {α : Type} (block : Locking α) : Locking α := do
  lock
  let a ← block
  unlock
  return a

variable {α β : Type} {p : Locking α} {f : α → Locking β} {a : α} {b : β} {held held' : Nat}

theorem bind_apply (h : p held = some (a, held')) : (p >>= f) held = f a held' := by
  change (p held).bind (fun x => f x.1 x.2) = f a held'
  rw [h]
  rfl

theorem locker_apply (h : p (held + 1) = some (a, held + 1)) :
    locker p held = some (a, held) := by
  have hlock : lock held = some ((), held + 1) := rfl
  have hunlock : unlock (held + 1) = some ((), held) := rfl
  rw [locker, bind_apply hlock, bind_apply h, bind_apply hunlock]
  rfl

end Locking

open Locking

-- ---------------------------------------------------------------------------
-- The calls that lock it
-- ---------------------------------------------------------------------------

/-- What `getCachedNode` finds in the cache. -/
structure CacheAnswer where
  cached : Bool
  /-- A page has to leave the cache. -/
  full : Bool
  /-- Of `removeAndFlush`. -/
  flushCode : Int

/-- `firstNode` and the cache when the page is put on its list. -/
structure ListAnswer where
  firstNode : NodeAddress
  get : CacheAnswer
  /-- Of `freeNode`: the page is let go and too many are in use. -/
  free : CacheAnswer

/-- What a call of `getNode(NEW_NODE)` meets. -/
structure Surroundings where
  droppedNode : NodeAddress
  nextFreeNodeAddr : NodeAddress
  recycled : CacheAnswer
  /-- Of `CachedNode::getNode`, that reads the page. -/
  readCode : Int
  /-- Of `cacheMonitor->lock()`. -/
  monitorCode : Int
  allocated : CacheAnswer
  /-- What `malloc` gives. -/
  memory : Bool
  errno : Int
  list : ListAnswer

/-- `EFBIG`. -/
def eFBig : Int := 27

/-- The dropped pages are looked at under the mutex. -/
def choose2flush : Locking Unit := locker (pure ())

def flushIfNecessary (c : CacheAnswer) : Locking Int :=
  if c.full then do
    choose2flush
    return c.flushCode
  else return 0

def getCachedNode (c : CacheAnswer) : Locking Int :=
  if c.cached then return 0 else flushIfNecessary c

/-- Only the last code is returned. -/
def addToList (l : ListAnswer) : Locking Int :=
  if l.firstNode ≠ newNode then do
    let _ ← getCachedNode l.get
    flushIfNecessary l.free
  else return 0

/-- `getNode(NEW_NODE)`, without the wait for room in the cache. -/
def getNode (s : Surroundings) : Locking Int := do
  lock
  if s.droppedNode ≠ newNode then
    let err ← getCachedNode s.recycled
    if err ≠ 0 then return err
    if s.readCode ≠ 0 then return s.readCode
    let err ← addToList s.list
    if err ≠ 0 then return err
    unlock
    return err
  else
    if maxNodeAddr ≤ s.nextFreeNodeAddr then return eFBig
    unlock
    if s.monitorCode ≠ 0 then return s.monitorCode
    let err ← flushIfNecessary s.allocated
    if err ≠ 0 then return err
    if s.memory = false then return s.errno
    unlock
    let err ← addToList s.list
    lock
    return err

-- ---------------------------------------------------------------------------
-- Codes
-- ---------------------------------------------------------------------------

def CacheAnswer.freeCode (c : CacheAnswer) : Int := if c.full then c.flushCode else 0

def CacheAnswer.getCode (c : CacheAnswer) : Int := if c.cached then 0 else c.freeCode

def ListAnswer.code (l : ListAnswer) : Int := if l.firstNode ≠ newNode then l.free.freeCode else 0

variable {held : Nat} {s : Surroundings}

theorem flushIfNecessary_apply (c : CacheAnswer) (held : Nat) :
    flushIfNecessary c held = some (c.freeCode, held) := by
  unfold flushIfNecessary CacheAnswer.freeCode
  split
  · have h : choose2flush held = some ((), held) := locker_apply rfl
    rw [bind_apply h]
    rfl
  · rfl

theorem getCachedNode_apply (c : CacheAnswer) (held : Nat) :
    getCachedNode c held = some (c.getCode, held) := by
  unfold getCachedNode CacheAnswer.getCode
  split
  · rfl
  · exact flushIfNecessary_apply c held

theorem addToList_apply (l : ListAnswer) (held : Nat) :
    addToList l held = some (l.code, held) := by
  unfold addToList ListAnswer.code
  split
  · rw [bind_apply (getCachedNode_apply l.get held)]
    exact flushIfNecessary_apply l.free held
  · rfl

-- ---------------------------------------------------------------------------
-- Balance
-- ---------------------------------------------------------------------------

/-- The call returns, and the thread holds the mutex as often as before. -/
def Balanced (held : Nat) (s : Surroundings) : Prop := ∃ err, getNode s held = some (err, held)

/-- A dropped page is used again without an error; or there is none, the file has
room, and the page is given up for lack of memory or of the cache, or else the caller
holds the mutex. -/
structure Releases (held : Nat) (s : Surroundings) : Prop where
  recycled : s.droppedNode ≠ newNode →
    s.recycled.getCode = 0 ∧ s.readCode = 0 ∧ s.list.code = 0
  fresh : s.droppedNode = newNode →
    s.nextFreeNodeAddr < maxNodeAddr ∧
      (s.monitorCode ≠ 0 ∨ s.allocated.freeCode ≠ 0 ∨ s.memory = false ∨ 0 < held)

theorem lock_apply (held : Nat) : lock held = some ((), held + 1) := rfl

theorem unlock_apply (held : Nat) : unlock (held + 1) = some ((), held) := rfl

theorem getNode_recycled (h : s.droppedNode ≠ newNode) (held : Nat) :
    getNode s held =
      if s.recycled.getCode ≠ 0 then some (s.recycled.getCode, held + 1)
      else if s.readCode ≠ 0 then some (s.readCode, held + 1)
      else if s.list.code ≠ 0 then some (s.list.code, held + 1)
      else some (s.list.code, held) := by
  rw [getNode, bind_apply (lock_apply held), if_pos h, bind_apply (getCachedNode_apply _ _)]
  split
  · rfl
  · split
    · rfl
    · rw [bind_apply (addToList_apply _ _)]
      split
      · rfl
      · rw [bind_apply (unlock_apply held)]
        rfl

theorem getNode_fresh (h : s.droppedNode = newNode) (held : Nat) :
    getNode s held =
      if maxNodeAddr ≤ s.nextFreeNodeAddr then some (eFBig, held + 1)
      else if s.monitorCode ≠ 0 then some (s.monitorCode, held)
      else if s.allocated.freeCode ≠ 0 then some (s.allocated.freeCode, held)
      else if s.memory = false then some (s.errno, held)
      else if held = 0 then none
      else some (s.list.code, held) := by
  rw [getNode, bind_apply (lock_apply held), if_neg (not_not.mpr h)]
  split
  · rfl
  · rw [bind_apply (unlock_apply held)]
    split
    · rfl
    · rw [bind_apply (flushIfNecessary_apply _ _)]
      split
      · rfl
      · split
        · rfl
        · cases held with
          | zero => rfl
          | succ held =>
            rw [bind_apply (unlock_apply held), bind_apply (addToList_apply _ _),
              bind_apply (lock_apply held)]
            rfl

theorem some_held_iff {code : Int} {n : Nat} :
    (∃ err, some (code, n) = some (err, held)) ↔ n = held := by
  simp

theorem balanced_recycled (h : s.droppedNode ≠ newNode) :
    Balanced held s ↔ s.recycled.getCode = 0 ∧ s.readCode = 0 ∧ s.list.code = 0 := by
  rw [Balanced, getNode_recycled h]
  split
  · simp_all
  · split
    · simp_all
    · split <;> simp_all

theorem balanced_fresh (h : s.droppedNode = newNode) :
    Balanced held s ↔ s.nextFreeNodeAddr < maxNodeAddr ∧
      (s.monitorCode ≠ 0 ∨ s.allocated.freeCode ≠ 0 ∨ s.memory = false ∨ 0 < held) := by
  rw [Balanced, getNode_fresh h]
  split
  · simp_all
  · split
    · simp_all
    · split
      · simp_all
      · split
        · simp_all
        · split
          · simp_all
          · simp_all
            omega

theorem balanced_iff : Balanced held s ↔ Releases held s := by
  by_cases h : s.droppedNode = newNode
  · rw [balanced_fresh h]
    exact ⟨fun hb => ⟨fun hne => absurd h hne, fun _ => hb⟩, fun hr => hr.fresh h⟩
  · rw [balanced_recycled h]
    exact ⟨fun hb => ⟨fun _ => hb, fun heq => absurd heq h⟩, fun hr => hr.recycled h⟩

-- ---------------------------------------------------------------------------
-- Runs
-- ---------------------------------------------------------------------------

/-- How often a thread holds the mutex after a call. After the exception it is as
before the call that threw. -/
def afterCall (held : Nat) (s : Surroundings) : Option Nat :=
  some ((getNode s held).elim 0 Prod.snd)

/-- A thread that starts without the mutex, and whose calls so far met the condition,
has it no more; and whatever state a thread is in, a call gives the mutex back and
never unlocks it in vain if and only if the condition is met. -/
theorem getNode_balanced (held : Nat) (s : Surroundings) :
    (Reaches afterCall Releases 0 held → held = 0) ∧ (Balanced held s ↔ Releases held s) := by
  refine ⟨fun h => ?_, balanced_iff⟩
  apply h.invariant (I := fun held => held = 0) rfl
  rintro _ s _ rfl hok ⟨⟩
  obtain ⟨err, herr⟩ := balanced_iff.mpr hok
  rw [herr]
  rfl

/-- Nothing is cached, and nothing goes wrong. -/
def firstPage : Surroundings where
  droppedNode := newNode
  nextFreeNodeAddr := 0
  recycled := ⟨false, false, 0⟩
  readCode := 0
  monitorCode := 0
  allocated := ⟨false, false, 0⟩
  memory := true
  errno := 0
  list := ⟨newNode, ⟨false, false, 0⟩, ⟨false, false, 0⟩⟩

/-- The first page of the first index: the mutex is unlocked twice. -/
theorem firstPage_throws : ¬ Balanced 0 firstPage := by
  rintro ⟨err, ⟨⟩⟩

end Loxim.Indexes.NewNodeMutex
