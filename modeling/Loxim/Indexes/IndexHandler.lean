import Mathlib.Logic.Function.Basic
import Loxim.Lib.Chain
import Loxim.Lib.Run
import Loxim.Indexes.Basic

/-!
# Pages of the index file

All indexes share one file. Its pages are on the free list, which runs through
`nextNode` from `droppedNode`, or on the doubly linked list of one handler.
Pages are changed in a cache and reach the file when they are flushed.

Only the links of a page are kept here. Which unused page leaves a full cache
is decided by `freeHandlers`; the choice is the parameter `victim`.
-/

namespace Loxim.Indexes

structure Links where
  prevNode : NodeAddress
  nextNode : NodeAddress
  deriving DecidableEq, Repr

structure CachedNode where
  /-- Not there before the page is read. -/
  node : Option Links
  dirty : Bool
  users : Nat
  /-- The handler whose `freeNodes` holds the page. -/
  freeIn : Option Lid
  deriving DecidableEq, Repr

/-- The ends of the page list of an index. -/
structure IndexList where
  firstNode : NodeAddress
  lastNode : NodeAddress
  deriving DecidableEq, Repr

structure IndexFile where
  disk : NodeAddress → Links
  cache : NodeAddress → Option CachedNode
  droppedNode : NodeAddress
  droppedLastNode : NodeAddress
  nextFreeNodeAddr : NodeAddress
  droppedCachedNodes : List NodeAddress
  /-- The live indexes. -/
  handlers : Lid → Option IndexList

namespace IndexFile

def init (disk : NodeAddress → Links) : IndexFile :=
  { disk := disk, cache := fun _ => none, droppedNode := newNode, droppedLastNode := newNode,
    nextFreeNodeAddr := 0, droppedCachedNodes := [], handlers := fun _ => none }

/-- The links of a page as `CachedNode::getNode` shows them. -/
def links (s : IndexFile) (id : NodeAddress) : Links :=
  match s.cache id with
  | some c => c.node.getD (s.disk id)
  | none => s.disk id

def next (s : IndexFile) (id : NodeAddress) : NodeAddress := (s.links id).nextNode

def prev (s : IndexFile) (id : NodeAddress) : NodeAddress := (s.links id).prevNode

def users (s : IndexFile) (id : NodeAddress) : Nat := (s.cache id).elim 0 CachedNode.users

def putCached (s : IndexFile) (id : NodeAddress) (c : Option CachedNode) : IndexFile :=
  { s with cache := Function.update s.cache id c }

/-- Changes a loaded page and marks it dirty. -/
def write (s : IndexFile) (id : NodeAddress) (f : Links → Links) : IndexFile :=
  s.putCached id ((s.cache id).map fun c => { c with node := some (f (s.links id)), dirty := true })

def setList (s : IndexFile) (i : Lid) (f : IndexList → IndexList) : IndexFile :=
  { s with handlers := Function.update s.handlers i ((s.handlers i).map f) }

-- ---------------------------------------------------------------------------
-- The cache
-- ---------------------------------------------------------------------------

def removeAndFlush (s : IndexFile) (id : NodeAddress) : IndexFile :=
  let dirty := (s.cache id).any (·.dirty)
  { s with cache := Function.update s.cache id none
           disk := if dirty then Function.update s.disk id (s.links id) else s.disk }

section
variable (victim : IndexFile → Option NodeAddress)

/-- Dropped pages leave the cache first, the one dropped longest ago before the
others; after them some page of a `freeNodes`. -/
def flushIfNecessary (s : IndexFile) : IndexFile :=
  match victim s with
  | none => s
  | some v =>
    match s.droppedCachedNodes.getLast? with
    | some d =>
      ({ s with droppedCachedNodes := s.droppedCachedNodes.dropLast }.write d id).removeAndFlush d
    | none => if (s.cache v).any (·.freeIn.isSome) then s.removeAndFlush v else s

def getCachedNode (s : IndexFile) (i : Lid) (id : NodeAddress) : IndexFile :=
  match s.cache id with
  | some c =>
    s.putCached id (some { c with
      users := c.users + 1
      freeIn := if c.users = 0 ∧ c.freeIn = some i then none else c.freeIn })
  | none =>
    (s.flushIfNecessary victim).putCached id
      (some { node := none, dirty := false, users := 1, freeIn := none })

/-- The assertion that the page is in use is left to the caller. -/
def freeNode (s : IndexFile) (i : Lid) (id : NodeAddress) (setFree : Bool) : IndexFile :=
  match s.cache id with
  | none => s
  | some c =>
    if c.users = 1 then
      let s := s.putCached id (some { c with
        users := 0
        freeIn := if setFree then some i else c.freeIn })
      if setFree then s.flushIfNecessary victim else s
    else s.putCached id (some { c with users := c.users - 1 })

/-- Takes a page into the cache, changes its links and lets it go. -/
def visit (s : IndexFile) (i : Lid) (id : NodeAddress) (f : Links → Links) : IndexFile :=
  ((s.getCachedNode victim i id).write id f).freeNode victim i id true

-- ---------------------------------------------------------------------------
-- The lists
-- ---------------------------------------------------------------------------

def removeFromList (s : IndexFile) (i : Lid) (id : NodeAddress) : IndexFile :=
  let prev := s.prev id
  let next := s.next id
  let s :=
    if prev ≠ newNode then s.visit victim i prev fun n => { n with nextNode := next }
    else s.setList i fun l => { l with firstNode := next }
  if next ≠ newNode then s.visit victim i next fun n => { n with prevNode := prev }
  else s.setList i fun l => { l with lastNode := prev }

def addToList (s : IndexFile) (i : Lid) (h : IndexList) (id : NodeAddress) : IndexFile :=
  let s :=
    if h.firstNode ≠ newNode then s.visit victim i h.firstNode fun n => { n with prevNode := id }
    else s.setList i fun l => { l with lastNode := id }
  (s.write id fun _ => { prevNode := newNode, nextNode := h.firstNode }).setList i
    fun l => { l with firstNode := id }

/-- The caller is the only user of the page. -/
def dropNode (s : IndexFile) (i : Lid) (id : NodeAddress) : IndexFile :=
  let s := s.removeFromList victim i id
  let droppedTmp := s.droppedNode
  let s := { s with
    droppedNode := id
    droppedCachedNodes := id :: s.droppedCachedNodes
    droppedLastNode := if s.droppedLastNode = newNode then id else s.droppedLastNode }
  (s.write id fun n => { n with nextNode := droppedTmp }).freeNode victim i id false

def popDroppedCached (s : IndexFile) : IndexFile :=
  { s with droppedCachedNodes := s.droppedCachedNodes.tail }

/-- `id` is the first dropped page. -/
def unlinkDropped (s : IndexFile) (id : NodeAddress) : IndexFile :=
  { s with
    droppedLastNode := if id = s.droppedLastNode then newNode else s.droppedLastNode
    droppedNode := s.next id }

/-- The first dropped page is used again. -/
def recycleNode (s : IndexFile) (i : Lid) (h : IndexList) : Option (NodeAddress × IndexFile) :=
  let id := s.droppedNode
  let s := (s.popDroppedCached.getCachedNode victim i id).unlinkDropped id
  if (s.droppedNode ≠ newNode ∧ s.droppedLastNode ≠ newNode) ∨
      s.droppedNode = s.droppedLastNode then
    some (id, s.addToList victim i h id)
  else none

def reserveNode (s : IndexFile) : IndexFile :=
  { s with nextFreeNodeAddr := s.nextFreeNodeAddr + nodeSize }

/-- A page is added at the end of the file. Its links are whatever `malloc`
left there until `addToList` sets them. -/
def allocateNode (s : IndexFile) (i : Lid) (h : IndexList) : NodeAddress × IndexFile :=
  let id := s.nextFreeNodeAddr
  let new : CachedNode := { node := some (s.disk id), dirty := true, users := 1, freeIn := none }
  (id, ((s.reserveNode.flushIfNecessary victim).putCached id (some new)).addToList victim i h id)

/-- `getNode(NEW_NODE)`: the page and the state, `none` where an assertion fails
or the file is full. -/
def getNewNode (s : IndexFile) (i : Lid) : Option (NodeAddress × IndexFile) := do
  let h ← s.handlers i
  if s.droppedNode ≠ newNode then s.recycleNode victim i h
  else if s.nextFreeNodeAddr ≥ maxNodeAddr then none
  else some (s.allocateNode victim i h)

end

/-- The pages of `freeNodes` leave the cache. -/
def flushFree (s : IndexFile) (i : Lid) : IndexFile :=
  let out (id : NodeAddress) : Bool := (s.cache id).any (·.freeIn == some i)
  { s with cache := fun id => if out id then none else s.cache id
           disk := fun id =>
             if out id && (s.cache id).any (·.dirty) then s.links id else s.disk id }

/-- The list that starts at `first` is hung on the end of the free list. `none`
where the assertion on the last dropped page fails or that page cannot be read. -/
def appendDropped (s : IndexFile) (first : NodeAddress) : Option IndexFile :=
  if s.droppedNode ≠ newNode then
    let last := s.droppedLastNode
    match s.cache last with
    | some c =>
      if c.users = 0 then some (s.write last fun n => { n with nextNode := first }) else none
    | none =>
      if last = newNode then none
      else
        some { s with disk := Function.update s.disk last { s.disk last with nextNode := first } }
  else some { s with droppedNode := first }

def drop (s : IndexFile) (i : Lid) : Option IndexFile := do
  let h ← s.handlers i
  let s ← (s.flushFree i).appendDropped h.firstNode
  some { s with
    droppedLastNode := h.lastNode
    handlers := Function.update s.handlers i none }

-- ---------------------------------------------------------------------------
-- Runs
-- ---------------------------------------------------------------------------

inductive Call
  | create (i : Lid)
  | getNewNode (i : Lid)
  | getNode (i : Lid) (id : NodeAddress)
  | freeNode (i : Lid) (id : NodeAddress)
  | dropNode (i : Lid) (id : NodeAddress)
  | drop (i : Lid)
  deriving DecidableEq, Repr

def step (victim : IndexFile → Option NodeAddress) (s : IndexFile) : Call → Option IndexFile
  | .create i =>
    some { s with handlers := Function.update s.handlers i (some ⟨newNode, newNode⟩) }
  | .getNewNode i => (s.getNewNode victim i).map Prod.snd
  | .getNode i id => some (s.getCachedNode victim i id)
  | .freeNode i id => some (s.freeNode victim i id true)
  | .dropNode i id => some (s.dropNode victim i id)
  | .drop i => s.drop i

/-- `id` is met on the way from the first page of index `i`. -/
def OnList (s : IndexFile) (i : Lid) (id : NodeAddress) : Prop :=
  ∃ h l, s.handlers i = some h ∧ Linked newNode s.next l newNode ∧ h.firstNode = l.headD newNode ∧
    id ∈ l

/-- What callers keep to: an index works on its own pages, a page let go was
taken, a page is dropped by its last user, and an index is dropped when none of
its pages is used. -/
def Allowed (s : IndexFile) : Call → Prop
  | .create i => s.handlers i = none
  | .getNewNode i => (s.handlers i).isSome
  | .getNode i id => s.OnList i id
  | .freeNode i id => s.OnList i id ∧ s.users id ≠ 0
  | .dropNode i id => s.OnList i id ∧ s.users id = 1
  | .drop i => (s.handlers i).isSome ∧ ∀ id, s.OnList i id → s.users id = 0

end IndexFile

end Loxim.Indexes
