import Mathlib.Data.List.Basic
import Mathlib.Data.Rat.Init

/-!
# Implicit use of indexes

`root where p` is rewritten to a selection from one index of `root`. The scan
of `p` (`findPossibleFields`) collects for every indexed field the literals it
is compared with, and counts in `differentNodeCount` the conjuncts that a
selection cannot stand for. `createResult` keeps a `where` only if that count
is not zero.

A literal node is identified by its address, which is what `usedBounds` holds.
-/

namespace Loxim.Indexes

/-- The operators of `AlgOpNode` that compare. -/
inductive CompOp
  | eq
  | lt
  | gt
  | le
  | ge
  deriving DecidableEq, Repr

inductive AlgOp
  | bagUnion | bagIntersect | bagMinus | plus | minus | times | divide
  | comp (op : CompOp)
  | refeq | neq | boolAnd | boolOr | comma | insert | insertViewproc | insertInto
  | assign | assignViewproc | semicolon
  deriving DecidableEq, Repr

inductive NonAlgOp
  | dot | join | where | closeBy | closeUniqueBy | leavesBy | leavesUniqueBy | orderBy | exists
  | forAll | forEach
  deriving DecidableEq, Repr

/-- The values of `IntNode`, `StringNode` and `DoubleNode`. -/
inductive Literal
  | int (value : Int)
  | string (value : String)
  | double (value : Rat)
  deriving DecidableEq

structure IndexBoundaryNode where
  inclusive : Bool
  value : Literal
  deriving DecidableEq

inductive Constraints
  | exact (value : Literal)
  | twoSide (left right : IndexBoundaryNode)
  | leftBounded (left : IndexBoundaryNode)
  | rightBounded (right : IndexBoundaryNode)
  deriving DecidableEq

structure IndexSelectNode where
  indexName : String
  constraints : Constraints
  deriving DecidableEq

/-- A query tree as far as the optimizer looks into it; `other` is a subtree
whose root is of any other class. -/
inductive TreeNode
  | name (name : String)
  | literal (address : Nat) (value : Literal)
  | algOp (op : AlgOp) (larg rarg : TreeNode)
  | nonAlgOp (op : NonAlgOp) (larg rarg : TreeNode)
  | indexSelect (select : IndexSelectNode)
  | other (text : String)
  deriving DecidableEq

-- ---------------------------------------------------------------------------
-- OptimizedField
-- ---------------------------------------------------------------------------

/-- The bounds collected for one indexed field. -/
structure OptimizedField where
  indexName : String
  exact : Option Literal
  greaterThan : Option IndexBoundaryNode
  smallerThan : Option IndexBoundaryNode
  boundsRejected : Bool
  usedBounds : List Nat
  deriving DecidableEq

namespace OptimizedField

def new (indexName : String) : OptimizedField :=
  { indexName := indexName, exact := none, greaterThan := none, smallerThan := none,
    boundsRejected := false, usedBounds := [] }

def howRestrictive (o : OptimizedField) : Nat := if o.exact.isSome then 10 else o.usedBounds.length

/-- `none` is the failed assertion: no bound was accepted. -/
def getSelectNode (o : OptimizedField) : Option IndexSelectNode :=
  let select (c : Constraints) : Option IndexSelectNode :=
    some { indexName := o.indexName, constraints := c }
  match o.exact, o.greaterThan, o.smallerThan with
  | some v, _, _ => select (.exact v)
  | none, some l, some r => select (.twoSide l r)
  | none, some l, none => select (.leftBounded l)
  | none, none, some r => select (.rightBounded r)
  | none, none, none => none

/-- The first component tells whether the bound is used. -/
def addBound (o : OptimizedField) (address : Nat) (value : Literal) (boundType : CompOp) :
    Bool × OptimizedField :=
  if o.exact.isSome then (false, o)
  else
    match boundType with
    | .eq =>
      (true, { o with exact := some value, usedBounds := [address],
                      boundsRejected := o.greaterThan.isSome || o.smallerThan.isSome })
    | .gt | .ge =>
      if o.greaterThan.isSome then (false, o)
      else
        (true, { o with greaterThan := some { inclusive := boundType = .ge, value := value },
                        usedBounds := o.usedBounds ++ [address] })
    | .lt | .le =>
      if o.smallerThan.isSome then (false, o)
      else
        (true, { o with smallerThan := some { inclusive := boundType = .le, value := value },
                        usedBounds := o.usedBounds ++ [address] })

end OptimizedField

-- ---------------------------------------------------------------------------
-- QueryOptimizer
-- ---------------------------------------------------------------------------

/-- `IndexManager::indexes`: the index of a field of a root. The name of an
index is a key of `indexNames`, so it belongs to one field. -/
structure IndexManager where
  /-- The roots with at least one index. -/
  rootIndexed : String → Bool
  getIndexFromField : String → String → Option String
  name_inj : getIndexFromField r f = some n → getIndexFromField r g = some n → f = g

structure QueryOptimizer where
  firstUpdate : Bool := true
  correctNode : Bool := false
  differentNodeCount : Nat := 0
  optimizedFields : List (String × OptimizedField) := []
  /-- The key of the best field in `optimizedFields`. -/
  bestField : Option String := none

namespace QueryOptimizer

def opposite : CompOp → CompOp
  | .eq => .eq
  | .lt => .gt
  | .gt => .lt
  | .le => .ge
  | .ge => .le

def goodNode (q : QueryOptimizer) : QueryOptimizer :=
  if q.firstUpdate then { q with correctNode := true, firstUpdate := false } else q

def differentNode (q : QueryOptimizer) : QueryOptimizer :=
  let q := if q.firstUpdate then { q with correctNode := false, firstUpdate := false } else q
  { q with differentNodeCount := q.differentNodeCount + 1 }

def find (q : QueryOptimizer) (field : String) : Option OptimizedField :=
  q.optimizedFields.lookup field

/-- Also when the bound is refused the field stays in the map. -/
def put (q : QueryOptimizer) (field : String) (o : OptimizedField) : QueryOptimizer :=
  { q with optimizedFields := (field, o) :: q.optimizedFields.filter (·.1 != field) }

/-- The field becomes the best one if it is more restrictive. -/
def preferField (q : QueryOptimizer) (name : String) (oField : OptimizedField) : QueryOptimizer :=
  match q.bestField.bind q.find with
  | none => { q with bestField := some name }
  | some best =>
    if oField.howRestrictive > best.howRestrictive then { q with bestField := some name } else q

/-- `indexOf` is the lookup in the index map of the root. -/
def checkComparison (indexOf : String → Option String) (q : QueryOptimizer)
    (field value : TreeNode) (boundType : CompOp) : QueryOptimizer :=
  match field, value with
  | .name name, .literal address v =>
    match indexOf name with
    | none => q.differentNode
    | some index =>
      let oField := (q.find name).getD (.new index)
      let (used, oField) := oField.addBound address v boundType
      let q := q.put name oField
      if used then q.preferField name oField else q.differentNode
  | _, _ => q

def findPossibleFields (indexOf : String → Option String) (q : QueryOptimizer) :
    TreeNode → QueryOptimizer
  | .algOp .boolAnd larg rarg =>
    findPossibleFields indexOf (findPossibleFields indexOf q.goodNode larg) rarg
  | .algOp (.comp op) larg rarg =>
    checkComparison indexOf (checkComparison indexOf q.goodNode larg rarg op) rarg larg (opposite op)
  | _ => q.differentNode

def whereReplace (im : IndexManager) : TreeNode → QueryOptimizer
  | .nonAlgOp .where (.name rootName) andTree =>
    if im.rootIndexed rootName then
      findPossibleFields (im.getIndexFromField rootName) {} andTree
    else differentNode {}
  | _ => differentNode {}

def optimizationPossible (q : QueryOptimizer) : Bool :=
  !q.optimizedFields.isEmpty && q.correctNode

/-- `t` is the comparison that the literal at `value` is an argument of. -/
def isParent (value : Nat) : TreeNode → Bool
  | .algOp (.comp _) larg rarg => isLiteral larg || isLiteral rarg
  | _ => false
where
  isLiteral : TreeNode → Bool
    | .literal address _ => address == value
    | _ => false

/-- Removes the comparison of a literal that was met under `and`s only. The
`and` above it is replaced by its other argument; with no such `and` the cast
of the parent is a null pointer. -/
def cutOff (value : Nat) : TreeNode → Option TreeNode
  | .algOp .boolAnd larg rarg =>
    if isParent value larg then some rarg
    else if isParent value rarg then some larg
    else
      match cutOff value larg with
      | some toUp => some (.algOp .boolAnd toUp rarg)
      | none => (cutOff value rarg).map (.algOp .boolAnd larg ·)
  | _ => none

/-- `none` stands for a failed assertion or a null pointer. -/
def createResult (q : QueryOptimizer) (tree : TreeNode) : Option TreeNode :=
  if !q.optimizationPossible then some tree
  else do
    let bestField ← q.bestField.bind q.find
    let q := if bestField.boundsRejected then q.differentNode else q
    let selectNode ← bestField.getSelectNode
    if q.differentNodeCount > 0 then
      match tree with
      | .nonAlgOp op _ andTree => do
        let rest ← bestField.usedBounds.foldlM (fun t value => cutOff value t) andTree
        some (.nonAlgOp op (.indexSelect selectNode) rest)
      | _ => none
    else some (.indexSelect selectNode)

/-- `optimizeWithIndexes` with `implicitIndexCall` set. -/
def optimizeWithIndexes (im : IndexManager) (tree : TreeNode) : Option TreeNode :=
  (whereReplace im tree).createResult tree

end QueryOptimizer

end Loxim.Indexes
