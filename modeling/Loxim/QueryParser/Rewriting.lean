import Loxim.QueryParser.StaticEval

/-!
# The rewriting of a query

A query that can be evaluated statically is copied, and the copy is rewritten: parts that are not
needed are removed, subqueries that do not depend on the section an operator opens are moved out
of it under an auxiliary name, auxiliary names are removed again and joins are replaced by dots.
After each step the static evaluation notes in the nodes what the next step reads.
-/

namespace Loxim.QueryParser.Optimizer

/-- How a pass does not return. -/
inductive Halt
  | crash
  | fuel
deriving DecidableEq

/-- A pass has enough fuel: it returns what meets `P`, or reads through a null pointer. -/
def Ends {α : Type} (P : α → Prop) (x : Except Halt α) : Prop :=
  x = .error .crash ∨ ∃ a, x = .ok a ∧ P a

theorem Ends.bind {α β : Type} {P : α → Prop} {Q : β → Prop} {x : Except Halt α}
    {f : α → Except Halt β} (h : Ends P x) (hf : ∀ a, x = .ok a → P a → Ends Q (f a)) :
    Ends Q (x >>= f) := by
  cases h with
  | inl h =>
    left
    rw [h]
    rfl
  | inr h =>
    obtain ⟨a, h, ha⟩ := h
    rw [h]
    exact hf a h ha

theorem Ends.ok {α : Type} {P : α → Prop} {a : α} (h : P a) : Ends P (.ok a) := .inr ⟨a, rfl, h⟩

theorem Ends.crash {α : Type} {P : α → Prop} : Ends P (.error .crash) := .inl rfl

theorem Ends.mono {α : Type} {P Q : α → Prop} {x : Except Halt α} (h : Ends P x)
    (hpq : ∀ a, P a → Q a) : Ends Q x := by
  cases h with
  | inl h => exact .inl h
  | inr h =>
    obtain ⟨a, h, ha⟩ := h
    exact .inr ⟨a, h, hpq a ha⟩

theorem Ends.not_fuel {α : Type} {P : α → Prop} {x : Except Halt α} (h : Ends P x) :
    x ≠ .error .fuel := by
  rintro rfl
  cases h with
  | inl h => cases h
  | inr h =>
    obtain ⟨a, h, -⟩ := h
    cases h

abbrev Nodes := Oid → NodeInfo

structure Memory where
  nodes : Nodes
  statEvalRun : Nat := 0
  uv : Oid
  /-- How often `randomString` was called. -/
  drawn : Nat := 0

/-- `TreeNode::randomString`, from the 20 numbers that `rand` gives. -/
def randomString (rand : Nat → Nat) (call : Nat) : String :=
  String.ofList ((List.range 20).map fun i => Char.ofNat ('a'.toNat + rand (20 * call + i) % 22))

/-- `""` where a cardinality is read: its first character is the end of the text, and behind that
is `junk`. -/
def emptyCard (junk : Char) : Card := { lower := '\x00', upper := junk }

/-- What is noted in the nodes of a copy. -/
def freshNodes (junk : Char) : Nodes := fun _ => { card := emptyCard junk }

namespace Tree

/-- `getInfixList`; a cast is not listed itself. -/
def infixList : Tree → List Tree
  | .name o n => [.name o n]
  | .value o v => [.value o v]
  | .as o arg n g => .as o arg n g :: arg.infixList
  | .unOp o op arg => .unOp o op arg :: arg.infixList
  | .coerce o c arg => .coerce o c arg :: arg.infixList
  | .castTo _ arg => arg.infixList
  | .algOp o op larg rarg => larg.infixList ++ .algOp o op larg rarg :: rarg.infixList
  | .nonAlgOp o op larg rarg => larg.infixList ++ .nonAlgOp o op larg rarg :: rarg.infixList
  | .other o => [.other o]

def isName : Tree → Bool
  | .name .. => true
  | _ => false

def isAs : Tree → Bool
  | .as .. => true
  | _ => false

def getNodeByOid (listVec : List Tree) (o : Oid) : Option Tree := listVec.find? (·.oid = o)

def containsOid (t : Tree) (o : Oid) : Bool := t.infixList.any (·.oid = o)

/-- The node above. -/
def getParent (o : Oid) : Tree → Option Tree
  | .as p arg n g => if arg.oid = o then some (.as p arg n g) else arg.getParent o
  | .unOp p op arg => if arg.oid = o then some (.unOp p op arg) else arg.getParent o
  | .coerce p c arg => if arg.oid = o then some (.coerce p c arg) else arg.getParent o
  | .castTo p arg => if arg.oid = o then some (.castTo p arg) else arg.getParent o
  | .algOp p op larg rarg =>
    if larg.oid = o ∨ rarg.oid = o then some (.algOp p op larg rarg)
    else (larg.getParent o).or (rarg.getParent o)
  | .nonAlgOp p op larg rarg =>
    if larg.oid = o ∨ rarg.oid = o then some (.nonAlgOp p op larg rarg)
    else (larg.getParent o).or (rarg.getParent o)
  | _ => none

/-- `swapSon` of the node above. -/
def swap : Tree → Oid → Tree → Tree
  | .as p arg n g, o, new => if p = o then new else .as p (arg.swap o new) n g
  | .unOp p op arg, o, new => if p = o then new else .unOp p op (arg.swap o new)
  | .coerce p c arg, o, new => if p = o then new else .coerce p c (arg.swap o new)
  | .castTo p arg, o, new => if p = o then new else .castTo p (arg.swap o new)
  | .algOp p op larg rarg, o, new =>
    if p = o then new else .algOp p op (larg.swap o new) (rarg.swap o new)
  | .nonAlgOp p op larg rarg, o, new =>
    if p = o then new else .nonAlgOp p op (larg.swap o new) (rarg.swap o new)
  | t, o, new => if t.oid = o then new else t

end Tree

/-- `QueryParser::statEvaluate`. -/
def statEvaluate (S : Scheme) (tn : Tree) (m : Memory) : Except Halt (Bool × Memory) :=
  let run := m.statEvalRun + 1
  match staticEval S run tn ((State.mk [] [] m.nodes).pushBinders S.bindBaseObjects) with
  | .ok st => .ok (true, { m with nodes := st.nodes, statEvalRun := run })
  | .failed st => .ok (false, { m with nodes := st.nodes, statEvalRun := run })
  | .crash => .error .crash

/-- `resetUsedNeeded` and `setStatEvalRun(0)`. -/
def resetUsed (t : Tree) (m : Memory) : Memory :=
  { m with
    nodes := fun o =>
      if (t.infixList.any fun n => n.oid = o && (n.isName || n.isAs)) then
        { m.nodes o with usedBy := [], boundIn := [] }
      else m.nodes o
    statEvalRun := 0 }

-- ---------------------------------------------------------------------------
-- Dead subqueries
-- ---------------------------------------------------------------------------

/-- The node above each node, as it was set last. -/
abbrev Parents := Oid → Option Oid

def Tree.setParents : Tree → Option Oid → Parents → Parents
  | .as o arg _ _, p, f => arg.setParents (some o) (Function.update f o p)
  | .unOp o _ arg, p, f => arg.setParents (some o) (Function.update f o p)
  | .coerce o _ arg, p, f => arg.setParents (some o) (Function.update f o p)
  | .castTo o arg, p, f => arg.setParents (some o) (Function.update f o p)
  | .algOp o _ larg rarg, p, f =>
    rarg.setParents (some o) (larg.setParents (some o) (Function.update f o p))
  | .nonAlgOp o _ larg rarg, p, f =>
    rarg.setParents (some o) (larg.setParents (some o) (Function.update f o p))
  | t, p, f => Function.update f t.oid p

def setNeeded (o : Oid) (nodes : Nodes) : Nodes :=
  Function.update nodes o { nodes o with needed := true }

/-- `mark` goes on with a node, if there is one. -/
def onNode (mark : Oid → Nodes → Except Halt Nodes) : Option Oid → Nodes → Except Halt Nodes
  | none, nodes => .ok nodes
  | some o, nodes => mark o nodes

/-- Only names depend on anything. -/
def markNeededUp (parents : Parents) : Nat → Oid → Nodes → Except Halt Nodes
  | 0, _, _ => .error .fuel
  | n + 1, o, nodes => do
    let nodes ← onNode (markNeededUp parents n) (parents o) (setNeeded o nodes)
    onNode (markNeededUp parents n) (nodes o).dependsOn nodes

/-- Of what a name is bound in. -/
def markBoundIn (parents : Parents) (fuel : Nat) : List (Option Oid) → Nodes → Except Halt Nodes
  | [], nodes => .ok nodes
  | w :: boundIn, nodes => do
    let nodes ← onNode (markNeededUp parents fuel) w nodes
    markBoundIn parents fuel boundIn nodes

def markNeeded2 (parents : Parents) (fuel : Nat) : Tree → Nodes → Except Halt Nodes
  | .name o _, nodes =>
    let nodes := setNeeded o nodes
    markBoundIn parents fuel (nodes o).boundIn nodes
  | .value o _, nodes => .ok (setNeeded o nodes)
  | .as o arg _ _, nodes => markNeeded2 parents fuel arg (setNeeded o nodes)
  | .unOp o _ arg, nodes => markNeeded2 parents fuel arg (setNeeded o nodes)
  | .coerce o _ arg, nodes => markNeeded2 parents fuel arg (setNeeded o nodes)
  | .castTo o arg, nodes => markNeeded2 parents fuel arg (setNeeded o nodes)
  | .algOp o _ larg rarg, nodes => do
    let nodes ← markNeeded2 parents fuel larg (setNeeded o nodes)
    markNeeded2 parents fuel rarg nodes
  | .nonAlgOp o op larg rarg, nodes => do
    let nodes ← markNeeded2 parents fuel rarg (setNeeded o nodes)
    if op ≠ .dot then markNeeded2 parents fuel larg nodes else .ok nodes
  | .other _, nodes => .ok nodes

/-- The tree without a dead subquery: the operator `parent` above it is replaced by its other
argument `live`. -/
structure Death where
  tree : Tree
  parent : Oid
  live : Oid

def Death.under (f : Tree → Tree) (d : Death) : Death := { d with tree := f d.tree }

def isDead (nodes : Nodes) (t : Tree) : Bool :=
  !(nodes t.oid).needed && (nodes t.oid).card = {}

def getDeath (nodes : Nodes) : Tree → Option Death
  | .as o arg n g => (getDeath nodes arg).map (.under (.as o · n g))
  | .unOp o op arg => (getDeath nodes arg).map (.under (.unOp o op ·))
  | .coerce o c arg => (getDeath nodes arg).map (.under (.coerce o c ·))
  | .castTo o arg => (getDeath nodes arg).map (.under (.castTo o ·))
  | .algOp o op larg rarg =>
    if op = .comma ∧ isDead nodes rarg then some ⟨larg, o, larg.oid⟩
    else if op = .comma ∧ isDead nodes larg then some ⟨rarg, o, rarg.oid⟩
    else
      match getDeath nodes larg with
      | some d => some (d.under (.algOp o op · rarg))
      | none => (getDeath nodes rarg).map (.under (.algOp o op larg ·))
  | .nonAlgOp o op larg rarg =>
    if op = .join ∧ isDead nodes rarg then some ⟨larg, o, larg.oid⟩
    else
      match getDeath nodes larg with
      | some d => some (d.under (.nonAlgOp o op · rarg))
      | none => (getDeath nodes rarg).map (.under (.nonAlgOp o op larg ·))
  | _ => none

/-- `DeathRmver::rmvDeath`. What the evaluation returns is not looked at. -/
def rmvDeath (S : Scheme) (fuel : Nat) :
    Nat → Tree → Parents → Memory → Except Halt (Tree × Memory)
  | 0, _, _, _ => .error .fuel
  | n + 1, qTree, parents, m => do
    let (_, m) ← statEvaluate S qTree m
    let nodes ← markNeeded2 parents fuel qTree m.nodes
    let m := { m with nodes }
    match getDeath nodes qTree with
    | none => .ok (qTree, m)
    | some death =>
      rmvDeath S fuel n death.tree
        (Function.update parents death.live (parents death.parent)) m

-- ---------------------------------------------------------------------------
-- Factoring
-- ---------------------------------------------------------------------------

def isIndependent (nodes : Nodes) (min max : Nat) : Tree → Bool
  | .name o _ => (nodes o).bindSect < min || max < (nodes o).bindSect
  | .algOp _ _ larg rarg => isIndependent nodes min max larg && isIndependent nodes min max rarg
  | .nonAlgOp _ _ larg rarg =>
    isIndependent nodes min max larg && isIndependent nodes min max rarg
  | .unOp _ _ arg => isIndependent nodes min max arg
  | .as _ arg _ _ => isIndependent nodes min max arg
  | _ => true

/-- A subquery and how the tree looks with another one in its place. -/
structure Found where
  tree : Tree
  plug : Tree → Tree

def Found.under (f : Tree → Tree) (i : Found) : Found := { i with plug := fun t => f (i.plug t) }

def doGetIndep (nodes : Nodes) (min max : Nat) : Tree → Nat → Option Found × Nat
  | .nonAlgOp o op larg rarg, depth =>
    if isIndependent nodes min max (.nonAlgOp o op larg rarg) then
      (some ⟨.nonAlgOp o op larg rarg, id⟩, depth)
    else (none, depth)
  | .algOp o op larg rarg, depth =>
    let (lind, dl) := doGetIndep nodes min max larg (depth + 1)
    let (rind, dr) := doGetIndep nodes min max rarg (depth + 1)
    match lind, rind with
    | none, rind => (rind.map (.under (.algOp o op larg ·)), dr)
    | some lind, none => (some (lind.under (.algOp o op · rarg)), dl)
    | some lind, some rind =>
      if dl < dr then (some (lind.under (.algOp o op · rarg)), dl)
      else (some (rind.under (.algOp o op larg ·)), dr)
  | .unOp o op arg, depth =>
    let (ind, depth) := doGetIndep nodes min max arg (depth + 1)
    (ind.map (.under (.unOp o op ·)), depth)
  | _, depth => (none, depth)

/-- Of the right argument of the operator `o`. -/
def getIndependant (nodes : Nodes) (o : Oid) (rarg : Tree) : Option Found :=
  (doGetIndep nodes (nodes o).firstOpenSect (nodes o).lastOpenSect rarg 0).1

/-- A tree in which `subquery` was moved out of `operator`. -/
structure Factored where
  operator : Oid
  subquery : Oid
  tree : Tree

def Factored.under (f : Tree → Tree) (d : Factored) : Factored := { d with tree := f d.tree }

/-- The nodes that are made are numbered from `uv` on. -/
def factorSubQuery (uv : Oid) (newName : String) (op : Tree → Tree) (subT : Found) : Tree :=
  .nonAlgOp (uv + 2) .dot (.as (uv + 1) subT.tree newName true)
    (op (subT.plug (.name uv newName)))

/-- `none` where `optimizeTree` returns 0, the rewritten tree where it returns -2. -/
def optimizeTree (nodes : Nodes) (uv : Oid) (newName : String) : Tree → Option Factored
  | .as o arg n g => (optimizeTree nodes uv newName arg).map (.under (.as o · n g))
  | .unOp o op arg => (optimizeTree nodes uv newName arg).map (.under (.unOp o op ·))
  | .coerce o c arg => (optimizeTree nodes uv newName arg).map (.under (.coerce o c ·))
  | .castTo o arg => (optimizeTree nodes uv newName arg).map (.under (.castTo o ·))
  | .algOp o op larg rarg =>
    match optimizeTree nodes uv newName larg with
    | some d => some (d.under (.algOp o op · rarg))
    | none => (optimizeTree nodes uv newName rarg).map (.under (.algOp o op larg ·))
  | .nonAlgOp o op larg rarg =>
    match getIndependant nodes o rarg with
    | some hInd => some ⟨o, hInd.tree.oid, factorSubQuery uv newName (.nonAlgOp o op larg ·) hInd⟩
    | none =>
      match optimizeTree nodes uv newName larg with
      | some d => some (d.under (.nonAlgOp o op · rarg))
      | none => (optimizeTree nodes uv newName rarg).map (.under (.nonAlgOp o op larg ·))
  | _ => none

/-- What the loop leaves: the tree, what the evaluations in it returned, and from which operator
which subquery was moved. -/
structure Factoring where
  tree : Tree
  memory : Memory
  evaluations : List Bool
  factored : List (Oid × Oid)

/-- `The main optimisation loop`. -/
def factoringLoop (S : Scheme) (rand : Nat → Nat) : Nat → Factoring → Except Halt Factoring
  | 0, _ => .error .fuel
  | n + 1, ⟨nt, m, evaluations, factored⟩ =>
    match optimizeTree m.nodes m.uv (randomString rand m.drawn) nt with
    | none => do
      let (ok, m) ← statEvaluate S nt m
      return ⟨nt, m, evaluations ++ [ok], factored⟩
    | some d => do
      let (ok, m) ← statEvaluate S d.tree { m with uv := m.uv + 3, drawn := m.drawn + 1 }
      let next : Factoring :=
        ⟨d.tree, m, evaluations ++ [ok], factored ++ [(d.operator, d.subquery)]⟩
      if ok then factoringLoop S rand n next else .ok next

-- ---------------------------------------------------------------------------
-- Auxiliary names
-- ---------------------------------------------------------------------------

/-- `canTryToRemoveAux`. -/
def canTryToRemoveAux (qTree : Tree) (nodes : Nodes) : List Oid → Except Halt Bool
  | [] => .ok true
  | u :: nameVec =>
    if 1 < (nodes u).statEnvSecSize then .ok false
    else
      match qTree.getParent u with
      | none => .error .crash
      | some (.nonAlgOp _ .dot _ _) => canTryToRemoveAux qTree nodes nameVec
      | some _ => .ok false

/-- An operator is replaced by that of its arguments that the name `u` is not. -/
def replaceOperator (klon : Tree) (u parentDot : Oid) (left right : Tree) : Except Halt Tree :=
  if left.oid = u then
    match klon.getParent parentDot with
    | none => .error .crash
    | some _ => .ok (klon.swap parentDot right)
  else
    match klon.getParent parentDot with
    | none => .ok left
    | some _ => .ok (klon.swap parentDot left)

/-- The operator above a name need not be a dot any more, when another name was removed before. -/
def removeUse (klon : Tree) (u : Oid) : Except Halt Tree :=
  match klon.getParent u with
  | some (.algOp o _ left right) => replaceOperator klon u o left right
  | some (.nonAlgOp o _ left right) => replaceOperator klon u o left right
  | _ => .error .crash

def removeUses (klon : Tree) : List Oid → Except Halt Tree
  | [] => .ok klon
  | u :: us => do
    let klon ← removeUse klon u
    removeUses klon us

/-- One node a name is bound in is compared with one of the other tree. -/
def sameBound : List (Option Oid × Option Oid) → Except Halt Bool
  | [] => .ok false
  | (none, none) :: rest => do
    let _ ← sameBound rest
    return true
  | (some n, some o) :: rest => do
    let ok ← sameBound rest
    return n = o || ok
  | _ :: _ => .error .crash

/-- Each name of the new tree is bound in a node that the name was bound in. -/
def sameBindings (old : Tree) (oldNodes newNodes : Nodes) : List Tree → Except Halt Bool
  | [] => .ok true
  | newNode :: nameVec =>
    match Tree.getNodeByOid old.infixList newNode.oid with
    | none => .error .crash
    | some oldNode => do
      let ok ← sameBound
        (List.product (newNodes newNode.oid).boundIn (oldNodes oldNode.oid).boundIn)
      if ok then sameBindings old oldNodes newNodes nameVec else return false

/-- `removedAux`: on a copy, which is taken for the tree if the names are bound as before. -/
def removedAux (S : Scheme) (junk : Char) (aux : Oid) (son : Tree) (usedBy : List Oid)
    (qTree : Tree) (m : Memory) : Except Halt (Option (Tree × Memory)) := do
  let klon ← removeUses (qTree.swap aux son) usedBy
  let (_, new) ← statEvaluate S klon { m with nodes := freshNodes junk, statEvalRun := 0 }
  let same ← sameBindings qTree m.nodes new.nodes (klon.infixList.filter Tree.isName)
  return if same then some (klon, new) else none

/-- The first auxiliary name that is removed. -/
def removeFirst (S : Scheme) (junk : Char) (qTree : Tree) (m : Memory) :
    List Tree → Except Halt (Option (Tree × Memory))
  | [] => .ok none
  | .as aux son _ _ :: auxVec => do
    let usedBy := (m.nodes aux).usedBy
    let can ← canTryToRemoveAux qTree m.nodes usedBy
    if usedBy.isEmpty || !can then removeFirst S junk qTree m auxVec
    else
      match ← removedAux S junk aux son usedBy qTree m with
      | some done => return some done
      | none => removeFirst S junk qTree m auxVec
  | _ :: auxVec => removeFirst S junk qTree m auxVec

/-- `AuxRmver::rmvAux`. -/
def rmvAux (S : Scheme) (junk : Char) : Nat → Tree → Memory → Except Halt (Tree × Memory)
  | 0, _, _ => .error .fuel
  | n + 1, qTree, m => do
    let (_, m) ← statEvaluate S qTree (resetUsed qTree m)
    match ← removeFirst S junk qTree m qTree.infixList with
    | some (qTree, m) => rmvAux S junk n qTree m
    | none => return (qTree, m)

-- ---------------------------------------------------------------------------
-- Joins
-- ---------------------------------------------------------------------------

/-- A dot with a join on its left. -/
structure Supposed where
  join : Oid
  q1 : Tree
  q3 : Tree

def supposed : Tree → Option Supposed
  | .nonAlgOp _ .dot (.nonAlgOp join .join q1 _) q3 => some ⟨join, q1, q3⟩
  | _ => none

def getSupposed (qTree : Tree) : List Supposed := qTree.infixList.filterMap supposed

/-- No name is bound in a node of `q1`. A name that is bound in the base section has no node. -/
def boundOutside (q1 : Tree) : List (Option Oid) → Except Halt Bool
  | [] => .ok true
  | none :: _ => .error .crash
  | some o :: boundIn => if q1.containsOid o then .ok false else boundOutside q1 boundIn

def canReplace (nodes : Nodes) (q1 : Tree) : List Tree → Except Halt Bool
  | [] => .ok true
  | q3Name :: q3NamesVec => do
    let ok ← boundOutside q1 (nodes q3Name.oid).boundIn
    if ok then canReplace nodes q1 q3NamesVec else return false

/-- `replaceJoinWithDot`. -/
def setDot (join : Oid) : Tree → Tree
  | .as o arg n g => .as o (setDot join arg) n g
  | .unOp o op arg => .unOp o op (setDot join arg)
  | .coerce o c arg => .coerce o c (setDot join arg)
  | .castTo o arg => .castTo o (setDot join arg)
  | .algOp o op larg rarg => .algOp o op (setDot join larg) (setDot join rarg)
  | .nonAlgOp o op larg rarg =>
    .nonAlgOp o (if o = join then .dot else op) (setDot join larg) (setDot join rarg)
  | t => t

/-- One pass over the dots, with whether one was changed. -/
def replaceAll (nodes : Nodes) : List Supposed → Tree → Bool → Except Halt (Tree × Bool)
  | [], qTree, replaced => .ok (qTree, replaced)
  | s :: toReplaceVec, qTree, replaced => do
    let ok ← canReplace nodes s.q1 (s.q3.infixList.filter Tree.isName)
    if ok then replaceAll nodes toReplaceVec (setDot s.join qTree) true
    else replaceAll nodes toReplaceVec qTree replaced

def replaceLoop (nodes : Nodes) : Nat → Tree → Except Halt Tree
  | 0, _ => .error .fuel
  | n + 1, qTree => do
    let (qTree, replaced) ← replaceAll nodes (getSupposed qTree) qTree false
    if replaced then replaceLoop nodes n qTree else return qTree

/-- `JoinRpcer::replaceJoin`. -/
def replaceJoin (S : Scheme) (fuel : Nat) (qTree : Tree) (m : Memory) : Except Halt Tree := do
  let (_, m) ← statEvaluate S qTree (resetUsed qTree m)
  replaceLoop m.nodes fuel qTree

-- ---------------------------------------------------------------------------
-- The optimisation in `parseIt`
-- ---------------------------------------------------------------------------

/-- `parseIt` leaves the tree it has, or puts the copy in its place. -/
inductive Returned
  | original
  | optimized (nt : Tree)
deriving DecidableEq

structure Optimised where
  returned : Returned
  /-- What the static evaluations returned that `parseIt` makes itself. -/
  evaluations : List Bool
  factored : List (Oid × Oid)

/-- What is done after the main optimisation loop, however it ended. -/
def simplify (S : Scheme) (junk : Char) (fuel : Nat) (loop : Factoring) :
    Except Halt Optimised := do
  let (nt, m) ← rmvAux S junk fuel loop.tree loop.memory
  let nt ← replaceJoin S fuel nt m
  return ⟨.optimized nt, loop.evaluations, loop.factored⟩

/-- The variable `optres` that is -1 after a failure is declared in the inner block: after the
first evaluation the outer one is 0, and the copy is returned. -/
def optimisation (S : Scheme) (rand : Nat → Nat) (junk : Char) (uv : Oid) (fuel : Nat)
    (qTree : Tree) : Except Halt Optimised := do
  let (ok, m) ← statEvaluate S qTree { nodes := freshNodes junk, uv }
  if !ok then return ⟨.original, [false], []⟩
  else
    let (nt, m) ← rmvDeath S fuel fuel qTree (qTree.setParents none fun _ => none) m
    let (alive, m) ← statEvaluate S nt m
    if alive then
      let loop ← factoringLoop S rand fuel ⟨nt, m, [true, true], []⟩
      simplify S junk fuel loop
    else simplify S junk fuel ⟨nt, m, [true, false], []⟩

end Loxim.QueryParser.Optimizer
