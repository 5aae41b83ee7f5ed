import Loxim.Indexes.Cleaner

/-!
# The B-tree

Entries are kept in leaves, ordered by key and logical id. On its way down
`addEntry` splits what is full and joins or balances what is nearly empty, so
that nothing has to be done on the way back.

Nodes are values here, of a height known to their type; a leaf still carries the
address of the next one. The page file is reduced to its free list, locks and
the cache are left out. `none` stands for an assertion that fails, a full page
file, and a node whose bytes no longer hold whole entries.
-/

namespace Loxim.Indexes

/-- The part of a `NodeEntry` that is compared. -/
structure Separator (K : Type) where
  key : K
  logicalID : Lid
  deriving DecidableEq, Repr

def Item.separator {K : Type} (e : Item K) : Separator K := ⟨e.key, e.entry.logicalID⟩

/-- An entry of an inner node. The child stands behind the separator. -/
structure NodeEntry (K C : Type) where
  child : C
  separator : Separator K

structure Leaf (K : Type) where
  id : NodeAddress
  nextLeaf : NodeAddress
  items : List (Item K)

structure Inner (K C : Type) where
  id : NodeAddress
  firstChild : C
  entries : List (NodeEntry K C)

def Node (K : Type) : Nat → Type
  | 0 => Leaf K
  | height + 1 => Inner K (Node K height)

/-- Free pages of the file: the dropped ones, the last one first, and those
behind the end. -/
structure Pages where
  dropped : List NodeAddress := []
  nextFreeNodeAddr : NodeAddress := 0

def Pages.getNode (pages : Pages) : Option (NodeAddress × Pages) :=
  match pages.dropped with
  | id :: dropped => some (id, { pages with dropped })
  | [] =>
    if pages.nextFreeNodeAddr ≥ maxNodeAddr then none
    else some (pages.nextFreeNodeAddr,
      { pages with nextFreeNodeAddr := pages.nextFreeNodeAddr + nodeSize })

def Pages.dropNode (pages : Pages) (id : NodeAddress) : Pages :=
  { pages with dropped := id :: pages.dropped }

/-- What is worth remembering of a run: the leaves that were cleaned, and that
two nodes were balanced. -/
inductive Event (K : Type)
  | cleaned (resolver : VisibilityResolver) (items : List (Item K))
  | balanced

/-- All that `addEntry` changes besides the tree. `trace` is not in the source. -/
structure Work (K : Type) where
  resolver : VisibilityResolver
  pages : Pages := {}
  trace : List (Event K) := []

inductive NodeCapacityType
  | splitNeeded
  | deleteNeeded
  | properSize
  deriving DecidableEq, Repr

namespace BTree

variable {K C : Type} (cmp : Comparator K) (index : Lid)

-- ---------------------------------------------------------------------------
-- Sizes
-- ---------------------------------------------------------------------------

def leafSize (leaf : Leaf K) : Nat := Cleaner.bytes cmp leaf.items

def innerSize (node : Inner K C) : Nat :=
  (node.entries.map fun e => cmp.innerEntrySize e.separator.key).sum

def size : (n : Nat) → Node K n → Nat
  | 0, leaf => leafSize cmp leaf
  | _ + 1, node => innerSize cmp node

def takesExtraKey (size : Nat) : Bool := size + cmp.maxEntrySize ≤ maxNodeCapacity

def checkForDelete (size : Nat) : NodeCapacityType :=
  if size < cmp.minNodeSizeAllowed then .deleteNeeded else .properSize

/-- The assertion of `checkSize`. -/
def checkSize (size : Nat) : Bool := cmp.minNodeSizeAllowed ≤ size ∧ size ≤ maxNodeCapacity

-- ---------------------------------------------------------------------------
-- Cleaning and splitting
-- ---------------------------------------------------------------------------

/-- `Cleaner::clean`, which leaves inner nodes alone. -/
def clean : (n : Nat) → Node K n → Work K → Option (Node K n × Work K)
  | 0, leaf, w => do
    let leaf : Leaf K := leaf
    let (resolver, items) ← Cleaner.clean cmp index w.resolver leaf.items
    return (({ leaf with items } : Leaf K),
      { w with resolver, trace := .cleaned w.resolver leaf.items :: w.trace })
  | _ + 1, node, w => some (node, w)

def canTakeExtraKey (n : Nat) (node : Node K n) (w : Work K) :
    Option (NodeCapacityType × Node K n × Work K) := do
  if takesExtraKey cmp (size cmp n node) then
    return (checkForDelete cmp (size cmp n node), node, w)
  else
    let (node, w) ← clean cmp index n node w
    if takesExtraKey cmp (size cmp n node) then
      return (checkForDelete cmp (size cmp n node), node, w)
    else return (.splitNeeded, node, w)

/-- Cuts behind the last entry that starts in the first half of the node. -/
def cut {α : Type} (size : α → Nat) : Nat → List α → List α × List α
  | _, [] => ([], [])
  | offset, e :: entries =>
    if offset < maxNodeCapacity / 2 then
      let (left, right) := cut size (offset + size e) entries
      (e :: left, right)
    else ([], e :: entries)

def splitLeaf (leaf : Leaf K) (new : NodeAddress) : Option (Leaf K × Separator K × Leaf K) := do
  let (left, right) := cut (fun e => cmp.leafEntrySize e.key) nodeHeaderSize leaf.items
  let prevEntry ← left.getLast?
  return ({ leaf with items := left, nextLeaf := new }, prevEntry.separator,
    { id := new, nextLeaf := leaf.nextLeaf, items := right })

/-- The last entry of the left half moves up. -/
def splitInner (node : Inner K C) (new : NodeAddress) :
    Option (Inner K C × Separator K × Inner K C) := do
  let (left, right) :=
    cut (fun e => cmp.innerEntrySize e.separator.key) nodeHeaderSize node.entries
  let prevEntry ← left.getLast?
  return ({ node with entries := left.dropLast }, prevEntry.separator,
    { id := new, firstChild := prevEntry.child, entries := right })

def splitChild : (n : Nat) → Node K n → NodeAddress → Option (Node K n × Separator K × Node K n)
  | 0, leaf, new => splitLeaf cmp leaf new
  | _ + 1, node, new => splitInner cmp node new

-- ---------------------------------------------------------------------------
-- Joining
-- ---------------------------------------------------------------------------

def nodeID : (n : Nat) → Node K n → NodeAddress
  | 0, leaf => leaf.id
  | _ + 1, node => node.id

def mergeLeaf (dest source : Leaf K) : Option (Leaf K) :=
  if leafSize cmp dest + leafSize cmp source + cmp.maxEntrySize ≤ maxNodeCapacity then
    some { dest with nextLeaf := source.nextLeaf, items := dest.items ++ source.items }
  else none

/-- The separator comes down between the two. -/
def mergeInner (dest : Inner K C) (s : Separator K) (source : Inner K C) : Option (Inner K C) :=
  if innerSize cmp dest + cmp.innerEntrySize s.key + innerSize cmp source + cmp.maxEntrySize ≤
      maxNodeCapacity then
    some { dest with entries := dest.entries ++ ⟨source.firstChild, s⟩ :: source.entries }
  else none

def merge : (n : Nat) → Node K n → Separator K → Node K n → Option (Node K n)
  | 0, dest, _, source => mergeLeaf cmp dest source
  | _ + 1, dest, s, source => mergeInner cmp dest s source

-- ---------------------------------------------------------------------------
-- Balancing
-- ---------------------------------------------------------------------------

/-- The walk of `getBalanceBorder`: it goes on while the two sizes come closer.
The last entry is never passed. -/
def balanceBorder {α : Type} (leaf : Bool) (times : Int) (size : α → Nat) :
    (parentEntrySize fromSize toSize diff : Int) → List α → List α × List α
  | _, _, _, _, [] => ([], [])
  | _, _, _, _, [e] => ([], [e])
  | parentEntrySize, fromSize, toSize, diff, e :: entries =>
    let distance : Int := size e
    let toSize := toSize + times * parentEntrySize
    let fromSize := fromSize - times * distance
    let newDiff := if leaf then diff - 2 * distance else ((fromSize - toSize).natAbs : Int)
    if newDiff.natAbs ≥ diff.natAbs then ([], e :: entries)
    else
      let (passed, rest) := balanceBorder leaf times size distance fromSize toSize newDiff entries
      (e :: passed, rest)

/-- What is passed and what is not. -/
def getBalanceBorder {α : Type} (leaf : Bool) (size : α → Nat) (source : List α) (toSize : Nat)
    (frontTransfer : Bool) (parentEntrySize : Nat) : List α × List α :=
  let whole : Int := (source.map size).sum
  let fromSize := if frontTransfer then whole else 0
  let toSize := if frontTransfer then (toSize : Int) else toSize + whole
  balanceBorder leaf (if frontTransfer then 1 else -1) size parentEntrySize fromSize toSize
    (fromSize - toSize).natAbs source

/-- Moves entries to the leaf before. The key in the middle is the one the parent
gets. -/
def balanceBackLeaf (dest : Leaf K) (s : Separator K) (source : Leaf K) :
    Option (Leaf K × K × Leaf K) := do
  let (moved, kept) := getBalanceBorder true (fun e => cmp.leafEntrySize e.key) source.items
    (leafSize cmp dest) true (cmp.innerEntrySize s.key)
  let lastEntry ← moved.getLast?
  let dest := { dest with items := dest.items ++ moved }
  let source := { source with items := kept }
  if checkSize cmp (leafSize cmp dest) && checkSize cmp (leafSize cmp source) then
    return (dest, lastEntry.key, source)
  else none

def balanceBackInner (dest : Inner K C) (s : Separator K) (source : Inner K C) :
    Option (Inner K C × K × Inner K C) := do
  let (moved, kept) := getBalanceBorder false (fun e => cmp.innerEntrySize e.separator.key)
    source.entries (innerSize cmp dest) true (cmp.innerEntrySize s.key)
  let lastEntry ← moved.getLast?
  let dest := { dest with entries := dest.entries ++ ⟨source.firstChild, s⟩ :: moved.dropLast }
  let source := { source with firstChild := lastEntry.child, entries := kept }
  -- `left` grows by the size of the parent's entry, not by that of `lastEntry`
  if cmp.innerEntrySize lastEntry.separator.key = cmp.innerEntrySize s.key &&
      checkSize cmp (innerSize cmp dest) &&
      checkSize cmp (innerSize cmp source + cmp.innerEntrySize s.key) then
    return (dest, lastEntry.separator.key, source)
  else none

def balanceBack : (n : Nat) → Node K n → Separator K → Node K n → Option (Node K n × K × Node K n)
  | 0, dest, s, source => balanceBackLeaf cmp dest s source
  | _ + 1, dest, s, source => balanceBackInner cmp dest s source

/-- Moves entries to the leaf behind. -/
def balanceForwardLeaf (source : Leaf K) (s : Separator K) (dest : Leaf K) :
    Option (Leaf K × K × Leaf K) := do
  let (kept, moved) := getBalanceBorder true (fun e => cmp.leafEntrySize e.key) source.items
    (leafSize cmp dest) false (cmp.innerEntrySize s.key)
  let lastEntry ← kept.getLast?
  let dest := { dest with items := moved ++ dest.items }
  let source := { source with items := kept }
  if checkSize cmp (leafSize cmp dest) && checkSize cmp (leafSize cmp source) then
    return (source, lastEntry.key, dest)
  else none

/-- The entry that comes down from the parent gets no logical id: it keeps the
`junk` that stood in its place. -/
def balanceForwardInner (junk : Lid) (source : Inner K C) (s : Separator K) (dest : Inner K C) :
    Option (Inner K C × K × Inner K C) := do
  let (kept, rest) := getBalanceBorder false (fun e => cmp.innerEntrySize e.separator.key)
    source.entries (innerSize cmp dest) false (cmp.innerEntrySize s.key)
  let _ ← kept.getLast?
  let lastEntry ← rest.head?
  let dest := { dest with
    firstChild := lastEntry.child
    entries := rest.tail ++ ⟨dest.firstChild, ⟨s.key, junk⟩⟩ :: dest.entries }
  let source := { source with entries := kept }
  if checkSize cmp (innerSize cmp dest) && checkSize cmp (innerSize cmp source) then
    return (source, lastEntry.separator.key, dest)
  else none

def balanceForward (junk : Lid) :
    (n : Nat) → Node K n → Separator K → Node K n → Option (Node K n × K × Node K n)
  | 0, source, s, dest => balanceForwardLeaf cmp source s dest
  | _ + 1, source, s, dest => balanceForwardInner cmp junk source s dest

def isBalancePossible (fromSize toSize : Nat) : Bool :=
  fromSize + toSize + 2 * cmp.maxEntrySize > maxNodeCapacity

/-- The assertions of `changeKey` in a parent of the given size. -/
def keyFits (parentSize : Nat) (old new : K) : Bool :=
  let changed := parentSize + cmp.keySize new - cmp.keySize old
  changed ≤ maxNodeCapacity && (cmp.keySize new = cmp.keySize old || checkSize cmp changed)

-- ---------------------------------------------------------------------------
-- A place in an inner node
-- ---------------------------------------------------------------------------

/-- The children and separators passed on the way, the child reached, and the
entries behind it. -/
structure Place (K C : Type) where
  passed : List (C × Separator K)
  child : C
  rest : List (NodeEntry K C)

/-- Whether the new entry is greater than a separator. -/
def greaterThan (x : Item K) (s : Separator K) : Bool :=
  0 < cmp.compare x.key x.entry.logicalID s.key s.logicalID

/-- Stops before the first separator that is not smaller than the new entry. -/
def descend (x : Item K) : C → List (NodeEntry K C) → Place K C
  | child, [] => ⟨[], child, []⟩
  | child, entry :: entries =>
    if greaterThan cmp x entry.separator then
      let p := descend x entry.child entries
      { p with passed := (child, entry.separator) :: p.passed }
    else ⟨[], child, entry :: entries⟩

def close : List (C × Separator K) → C → List (NodeEntry K C) → C × List (NodeEntry K C)
  | [], child, rest => (child, rest)
  | (first, s) :: passed, child, rest =>
    let (next, entries) := close passed child rest
    (first, ⟨next, s⟩ :: entries)

/-- The node around a place. -/
def Place.node (p : Place K C) (id : NodeAddress) : Inner K C :=
  let (firstChild, entries) := close p.passed p.child p.rest
  { id, firstChild, entries }

def Place.size (p : Place K C) : Nat := innerSize cmp (p.node 0)

/-- The child is nearly empty. It is joined or balanced with its right neighbour
or, if it is the last child, with the left one; but `prev` is only known from the
third child on. -/
def remove (junk : Lid) (n : Nat) (p : Place K (Node K n)) (w : Work K) :
    Option (Place K (Node K n) × Work K) :=
  match p.rest with
  | next :: rest => do
    let brother := next.child
    if isBalancePossible cmp (size cmp n brother) (size cmp n p.child) then
      let (child, key, brother) ← balanceBack cmp n p.child next.separator brother
      if keyFits cmp (p.size cmp) next.separator.key key then
        return ({ p with child, rest := ⟨brother, { next.separator with key }⟩ :: rest },
          { w with trace := .balanced :: w.trace })
      else none
    else
      let child ← merge cmp n p.child next.separator brother
      return ({ p with child, rest }, { w with pages := w.pages.dropNode (nodeID n brother) })
  | [] =>
    match p.passed.reverse with
    | (brother, s) :: prev :: passed => do
      if isBalancePossible cmp (size cmp n brother) (size cmp n p.child) then
        let (brother, key, child) ← balanceForward cmp junk n brother s p.child
        if keyFits cmp (p.size cmp) s.key key then
          return ({ p with child, passed := (prev :: passed).reverse ++ [(brother, { s with key })] },
            { w with trace := .balanced :: w.trace })
        else none
      else
        let child ← merge cmp n brother s p.child
        return ({ p with child, passed := (prev :: passed).reverse },
          { w with pages := w.pages.dropNode (nodeID n p.child) })
    | _ => none

/-- Splits the child. The new entry goes to the right half if it is greater than
the new separator. -/
def split (x : Item K) (n : Nat) (p : Place K (Node K n)) (w : Work K) :
    Option (Place K (Node K n) × Work K) := do
  let (new, pages) ← w.pages.getNode
  let (left, s, right) ← splitChild cmp n p.child new
  if greaterThan cmp x s then
    return ({ p with passed := p.passed ++ [(left, s)], child := right }, { w with pages })
  else return ({ p with child := left, rest := ⟨right, s⟩ :: p.rest }, { w with pages })

/-- Sees to it that the child can take the entry. After a removal the child is
tested again if the node has become too full; it has its proper size then. -/
def testSize (junk : Lid) (x : Item K) (n : Nat) (p : Place K (Node K n)) (w : Work K) :
    Option (Place K (Node K n) × Work K) := do
  let (capacity, child, w) ← canTakeExtraKey cmp index n p.child w
  let p := { p with child }
  match capacity with
  | .splitNeeded => split cmp x n p w
  | .deleteNeeded =>
    let (p, w) ← remove cmp junk n p w
    if takesExtraKey cmp (p.size cmp) then return (p, w)
    else
      let (capacity, child, w) ← canTakeExtraKey cmp index n p.child w
      if capacity = .properSize then return ({ p with child }, w) else none
  | .properSize => return (p, w)

-- ---------------------------------------------------------------------------
-- Adding
-- ---------------------------------------------------------------------------

/-- Puts the entry before the first one that is not smaller, or takes out that
one if it is equal and the transaction takes back what it has done. -/
def put (x : Item K) (v : VisibilityResolver) (items : List (Item K)) :
    Option (VisibilityResolver × List (Item K)) := do
  let before := items.takeWhile fun e => greaterThan cmp x e.separator
  let rest := items.dropWhile fun e => greaterThan cmp x e.separator
  let add : Option (VisibilityResolver × List (Item K)) := do
    let v ← v.entryAdded x.entry.modyfierTransactionId index
    return (v, before ++ x :: rest)
  match rest with
  | [] => add
  | e :: behind =>
    if cmp.compare x.key x.entry.logicalID e.key e.entry.logicalID = 0 then
      if ← Cleaner.putEqualLid e.entry x.entry then
        let v ← v.entryDropped e.entry.modyfierTransactionId index .active
        return (v, before ++ behind)
      else add
    else add

/-- `addEntry` from a node that can take the entry. -/
def addTo (junk : Lid) (x : Item K) : (n : Nat) → Node K n → Work K → Option (Node K n × Work K)
  | 0, leaf, w => do
    if takesExtraKey cmp (size cmp 0 leaf) then
      let (leaf, w) ← clean cmp index 0 leaf w
      let leaf : Leaf K := leaf
      let (resolver, items) ← put cmp index x w.resolver leaf.items
      return (({ leaf with items } : Leaf K), { w with resolver })
    else none
  | n + 1, node, w => do
    let node : Inner K (Node K n) := node
    if takesExtraKey cmp (innerSize cmp node) then
      let p := descend cmp x node.firstChild node.entries
      let (p, w) ← testSize cmp index junk x n p w
      let (child, w) ← addTo junk x n p.child w
      return ({ p with child }.node node.id, w)
    else none

end BTree

structure BTree (K : Type) where
  height : Nat
  root : Node K height

namespace BTree

variable {K : Type} (cmp : Comparator K) (index : Lid)

def createRoot (pages : Pages) : Option (BTree K × Pages) := do
  let (id, pages) ← pages.getNode
  return (⟨0, ({ id, nextLeaf := newNode, items := [] } : Leaf K)⟩, pages)

/-- The root is full: it is cut in two under a new one. -/
def growRoot (junk : Lid) (x : Item K) (n : Nat) (root : Node K n) (w : Work K) :
    Option (BTree K × Work K) := do
  let (id, pages) ← w.pages.getNode
  let (p, w) ← split cmp x n ⟨[], root, []⟩ { w with pages }
  let (root, w) ← addTo cmp index junk x (n + 1) (p.node id : Inner K (Node K n)) w
  return (⟨n + 1, root⟩, w)

def addBelow (junk : Lid) (x : Item K) (n : Nat) (root : Node K n) (w : Work K) :
    Option (BTree K × Work K) := do
  let (root, w) ← addTo cmp index junk x n root w
  return (⟨n, root⟩, w)

/-- The root grows when it is full and goes when it has only one child left. The last
leaf is never taken away. -/
def addRoot (junk : Lid) (x : Item K) : (n : Nat) → Node K n → Work K → Option (BTree K × Work K)
  | 0, root, w => do
    let (capacity, root, w) ← canTakeExtraKey cmp index 0 root w
    match capacity with
    | .splitNeeded => growRoot cmp index junk x 0 root w
    | .deleteNeeded | .properSize => addBelow cmp index junk x 0 root w
  | n + 1, root, w => do
    let (capacity, root, w) ← canTakeExtraKey cmp index (n + 1) root w
    let node : Inner K (Node K n) := root
    match capacity with
    | .splitNeeded => growRoot cmp index junk x (n + 1) root w
    | .deleteNeeded =>
      if node.entries.isEmpty then
        addRoot junk x n node.firstChild { w with pages := w.pages.dropNode node.id }
      else addBelow cmp index junk x (n + 1) root w
    | .properSize => addBelow cmp index junk x (n + 1) root w

def addEntry (junk : Lid) (x : Item K) (t : BTree K) (w : Work K) : Option (BTree K × Work K) :=
  addRoot cmp index junk x t.height t.root w

end BTree

end Loxim.Indexes
