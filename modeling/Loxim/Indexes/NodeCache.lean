import Loxim.Lib.Keyed
import Loxim.Lib.Run
import Loxim.Indexes.IndexHandler

/-!
# Which page leaves the cache

The cache counts its pages and the pages in use. Every handler keeps its unused
pages by depth in `freeNodes`, and `freeHandlers` keeps the handlers that have
such pages by the distance of the deepest one from the root.
-/

namespace Loxim.Indexes

def maxCachedNodes : Nat := 16

/-- `ROOT_PRIORITY`. -/
def rootPriority : Int := 0

/-- What a call finds by chance: which of some pointers is the lowest, and what
is in the `depth` of a new `CachedNode`, which no constructor sets. -/
structure Chance where
  handler : Finset Lid → Lid
  handler_mem : s.Nonempty → handler s ∈ s
  node : Finset NodeAddress → NodeAddress
  node_mem : s.Nonempty → node s ∈ s
  depth : Int

structure NodeCache where
  file : IndexFile
  depth : NodeAddress → Int
  cachedCount : Nat
  usedCount : Nat
  freeNodes : Lid → Finset (Int × NodeAddress)
  freeHandlers : Finset (Int × Lid)
  /-- `rootLevel` of the tree of a handler. -/
  rootLevel : Lid → Int

namespace NodeCache

def init (disk : NodeAddress → Links) : NodeCache :=
  { file := .init disk, depth := fun _ => 0, cachedCount := 0, usedCount := 0,
    freeNodes := fun _ => ∅, freeHandlers := ∅, rootLevel := fun _ => rootPriority }

/-- Changes the cached node of a page. -/
def update (c : NodeCache) (a : NodeAddress) (f : CachedNode → CachedNode) : NodeCache :=
  { c with file := c.file.putCached a ((c.file.cache a).map f) }

-- ---------------------------------------------------------------------------
-- The two maps. `none` where an assertion fails
-- ---------------------------------------------------------------------------

def addHandler (c : NodeCache) (i : Lid) (priority : Int) : NodeCache :=
  { c with freeHandlers := insert (priority, i) c.freeHandlers }

/-- A set of one handler goes whole, whichever handler it is. -/
def removeHandler (c : NodeCache) (i : Lid) (priority : Int) : Option NodeCache :=
  let s := c.freeHandlers.filter (·.1 = priority)
  if s = ∅ then none
  else if s.card = 1 then some { c with freeHandlers := c.freeHandlers \ s }
  else some { c with freeHandlers := c.freeHandlers.erase (priority, i) }

def changePriority (c : NodeCache) (i : Lid) (oldp newp : Int) : Option NodeCache := do
  let c ← c.removeHandler i oldp
  some (c.addHandler i newp)

def setFree (c : NodeCache) (i : Lid) (a : NodeAddress) : Option NodeCache := do
  let newPriority := c.depth a
  let depth := c.rootLevel i - c.depth a
  let c ← match firstKey (c.freeNodes i) with
    | none => some (c.addHandler i depth)
    | some oldPriority =>
      if newPriority < oldPriority then c.changePriority i (c.rootLevel i - oldPriority) depth
      else some c
  some { c.update a (fun n => { n with freeIn := some i }) with
    freeNodes := Function.update c.freeNodes i (insert (newPriority, a) (c.freeNodes i)) }

def setNotFree (c : NodeCache) (i : Lid) (a : NodeAddress) : Option NodeCache :=
  let oldPriority := c.depth a
  let depth := c.rootLevel i - c.depth a
  if (oldPriority, a) ∈ c.freeNodes i then
    let c := { c.update a (fun n => { n with freeIn := none }) with
      freeNodes := Function.update c.freeNodes i ((c.freeNodes i).erase (oldPriority, a)) }
    match firstKey (c.freeNodes i) with
    | none => c.removeHandler i depth
    | some newPriority =>
      if newPriority > oldPriority then c.changePriority i depth (c.rootLevel i - newPriority)
      else some c
  else some c

/-- The tree passes the level it has as the old one. -/
def rootChange (c : NodeCache) (i : Lid) (newLevel : Int) : Option NodeCache := do
  let oldLevel := c.rootLevel i
  if oldLevel = newLevel then none
  else
    let c ← match firstKey (c.freeNodes i) with
      | none => some c
      | some priority => c.changePriority i (oldLevel - priority) (newLevel - priority)
    some { c with rootLevel := Function.update c.rootLevel i newLevel }

-- ---------------------------------------------------------------------------
-- Flushing
-- ---------------------------------------------------------------------------

def getDropped2flush (c : NodeCache) (a : NodeAddress) : Option (NodeAddress × NodeCache) :=
  match c.file.cache a with
  | none => none
  | some n =>
    if n.users = 0 ∧ n.node.isSome then
      some (a, { c with
        file := { c.file with
          droppedCachedNodes := c.file.droppedCachedNodes.dropLast }.write a id })
    else none

section
variable (e : Chance)

def localChoose2flush (c : NodeCache) (i : Lid) : Option (NodeAddress × NodeCache) :=
  match firstKey (c.freeNodes i) with
  | none => none
  | some d => do
    let a := e.node (under (c.freeNodes i) d)
    let c ← c.setNotFree i a
    some (a, c)

def choose2flush (c : NodeCache) : Option (NodeAddress × NodeCache) :=
  match c.file.droppedCachedNodes.getLast? with
  | some a => c.getDropped2flush a
  | none =>
    match lastKey c.freeHandlers with
    | none => none
    | some p => c.localChoose2flush e (e.handler (under c.freeHandlers p))

/-- A dirty page is written, which asserts that nobody uses it. -/
def removeAndFlush (c : NodeCache) (a : NodeAddress) : Option NodeCache :=
  if (c.file.cache a).any fun n => n.dirty && n.users != 0 then none
  else some { c with file := c.file.removeAndFlush a, cachedCount := c.cachedCount - 1 }

def flushIfNecessary (c : NodeCache) : Option NodeCache :=
  if maxCachedNodes ≤ c.cachedCount ∧ c.usedCount < c.cachedCount then do
    let (a, c) ← c.choose2flush e
    c.removeAndFlush a
  else some c

def addToCacheMap (c : NodeCache) (a : NodeAddress) (n : CachedNode) : NodeCache :=
  { c with
    file := c.file.putCached a (some n)
    depth := Function.update c.depth a e.depth
    cachedCount := c.cachedCount + 1
    usedCount := c.usedCount + 1 }

-- ---------------------------------------------------------------------------
-- Taking a page and letting it go
-- ---------------------------------------------------------------------------

def getCachedNode (c : NodeCache) (i : Lid) (a : NodeAddress) : Option NodeCache :=
  match c.file.cache a with
  | some n => do
    let c ← if n.users = 0 then setNotFree { c with usedCount := c.usedCount + 1 } i a else some c
    some (c.update a fun n => { n with users := n.users + 1 })
  | none => do
    let c ← c.flushIfNecessary e
    some (c.addToCacheMap e a { node := none, dirty := false, users := 1, freeIn := none })

def freeNode (c : NodeCache) (i : Lid) (a : NodeAddress) (setFree : Bool) : Option NodeCache :=
  match c.file.cache a with
  | none => none
  | some n =>
    if n.users = 0 then none
    else
      let c := c.update a fun n => { n with users := n.users - 1 }
      if n.users = 1 then do
        let c := { c with usedCount := c.usedCount - 1 }
        let c ← if setFree then c.setFree i a else some c
        if c.usedCount < maxCachedNodes then some c
        else if setFree then c.flushIfNecessary e else some c
      else some c

/-- `CachedNode::getNode` with the depth of the page; the page is read. -/
def load (c : NodeCache) (a : NodeAddress) (priority : Int) : Option NodeCache :=
  if c.file.users a = 0 then none
  else some { c.update a (fun n => { n with node := some (c.file.links a) }) with
    depth := Function.update c.depth a priority }

def write (c : NodeCache) (a : NodeAddress) (f : Links → Links) : NodeCache :=
  { c with file := c.file.write a f }

def visit (c : NodeCache) (i : Lid) (a : NodeAddress) (f : Links → Links) : Option NodeCache := do
  let c ← c.getCachedNode e i a
  (c.write a f).freeNode e i a true

-- ---------------------------------------------------------------------------
-- The lists
-- ---------------------------------------------------------------------------

def setList (c : NodeCache) (i : Lid) (f : IndexList → IndexList) : NodeCache :=
  { c with file := c.file.setList i f }

def removeFromList (c : NodeCache) (i : Lid) (a : NodeAddress) : Option NodeCache := do
  let prev := c.file.prev a
  let next := c.file.next a
  let c ←
    if prev ≠ newNode then c.visit e i prev fun n => { n with nextNode := next }
    else some (c.setList i fun l => { l with firstNode := next })
  if next ≠ newNode then c.visit e i next fun n => { n with prevNode := prev }
  else some (c.setList i fun l => { l with lastNode := prev })

def addToList (c : NodeCache) (i : Lid) (h : IndexList) (a : NodeAddress) : Option NodeCache := do
  let c ←
    if h.firstNode ≠ newNode then c.visit e i h.firstNode fun n => { n with prevNode := a }
    else some (c.setList i fun l => { l with lastNode := a })
  some ((c.write a fun _ => { prevNode := newNode, nextNode := h.firstNode }).setList i
    fun l => { l with firstNode := a })

def dropNode (c : NodeCache) (i : Lid) (a : NodeAddress) : Option NodeCache :=
  if c.file.users a = 0 then none
  else do
    let c ← c.removeFromList e i a
    let droppedTmp := c.file.droppedNode
    let c := { c with file := { c.file with
      droppedNode := a
      droppedCachedNodes := a :: c.file.droppedCachedNodes
      droppedLastNode :=
        if c.file.droppedLastNode = newNode then a else c.file.droppedLastNode } }
    (c.write a fun n => { n with nextNode := droppedTmp }).freeNode e i a false

def recycleNode (c : NodeCache) (i : Lid) (h : IndexList) : Option NodeCache := do
  let a := c.file.droppedNode
  let c ← getCachedNode e { c with file := c.file.popDroppedCached } i a
  let c := { c with file := c.file.unlinkDropped a }
  if (c.file.droppedNode ≠ newNode ∧ c.file.droppedLastNode ≠ newNode) ∨
      c.file.droppedNode = c.file.droppedLastNode then
    c.addToList e i h a
  else none

def allocateNode (c : NodeCache) (i : Lid) (h : IndexList) : Option NodeCache := do
  let a := c.file.nextFreeNodeAddr
  let links := c.file.disk a
  let c ← flushIfNecessary e { c with file := c.file.reserveNode }
  let c := c.addToCacheMap e a { node := some links, dirty := true, users := 1, freeIn := none }
  c.addToList e i h a

/-- `getNode(NEW_NODE)`. A full file is an error that changes nothing. -/
def getNewNode (c : NodeCache) (i : Lid) : Option NodeCache := do
  let h ← c.file.handlers i
  if c.file.droppedNode ≠ newNode then c.recycleNode e i h
  else if c.file.nextFreeNodeAddr ≥ maxNodeAddr then some c
  else c.allocateNode e i h

end

-- ---------------------------------------------------------------------------
-- Runs
-- ---------------------------------------------------------------------------

inductive Call
  | create (i : Lid)
  | getNewNode (i : Lid) (first : Bool)
  | getNode (i : Lid) (a : NodeAddress) (first : Bool)
  | load (a : NodeAddress) (priority : Int)
  | freeNode (i : Lid) (a : NodeAddress)
  | dropNode (i : Lid) (a : NodeAddress)
  | rootChange (i : Lid) (newLevel : Int)
  | flushIfNecessary
  deriving DecidableEq, Repr

def step (c : NodeCache) : Chance × Call → Option NodeCache
  | (_, .create i) =>
    some { c with
      file := { c.file with
        handlers := Function.update c.file.handlers i (some ⟨newNode, newNode⟩) }
      freeNodes := Function.update c.freeNodes i ∅
      rootLevel := Function.update c.rootLevel i rootPriority }
  | (e, .getNewNode i _) => c.getNewNode e i
  | (e, .getNode i a _) => c.getCachedNode e i a
  | (_, .load a priority) => c.load a priority
  | (e, .freeNode i a) => c.freeNode e i a true
  | (e, .dropNode i a) => c.dropNode e i a
  | (_, .rootChange i newLevel) => c.rootChange i newLevel
  | (e, .flushIfNecessary) => c.flushIfNecessary e

/-- The first page of a search waits while all the cache is in use. -/
def Admitted (c : NodeCache) (first : Bool) (a : NodeAddress) : Prop :=
  first = true → (c.file.cache a).isSome ∨ c.usedCount < maxCachedNodes

/-- What the code itself makes sure of: handlers are there, a page let go or
given back is in use, the level of a root changes, and calls that would wait are
not over. -/
def Ready (c : NodeCache) : Chance × Call → Prop
  | (_, .create i) => c.file.handlers i = none
  | (_, .getNewNode i first) => (c.file.handlers i).isSome ∧ c.Admitted first c.file.droppedNode
  | (_, .getNode i a first) => (c.file.handlers i).isSome ∧ c.Admitted first a
  | (_, .load a _) => c.file.users a ≠ 0
  | (_, .freeNode i a) => (c.file.handlers i).isSome ∧ c.file.users a ≠ 0
  | (_, .dropNode i a) => (c.file.handlers i).isSome ∧ c.file.users a ≠ 0
  | (_, .rootChange i newLevel) => (c.file.handlers i).isSome ∧ c.rootLevel i ≠ newLevel
  | (_, .flushIfNecessary) => True

/-- A page is asked for and let go while it is on the list of the index, and it
is given back by its only user. -/
def Listed (c : NodeCache) : Chance × Call → Prop
  | (_, .getNode i a _) => c.file.OnList i a
  | (_, .freeNode i a) => c.file.OnList i a
  | (_, .dropNode i a) => c.file.OnList i a ∧ c.file.users a = 1
  | _ => True

end NodeCache

end Loxim.Indexes
