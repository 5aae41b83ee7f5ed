import Loxim.QueryParser.Signature
import Loxim.QueryParser.TreeNode

/-!
# Static evaluation

Before a query is rewritten it is evaluated on signatures: names are bound on a stack of sections
of binders, and every operator takes the signatures of its arguments from the stack of results
and leaves its own.
-/

namespace Loxim.QueryParser.Optimizer

/-- What the copies of a node share with it. -/
abbrev Oid := Nat

inductive ValueType
  | int
  | string
  | double
  | refid
deriving DecidableEq

inductive AlgOp
  | bagUnion | bagIntersect | bagMinus | plus | minus | times | divide
  | eq | refeq | neq | lt | gt | le | ge | boolAnd | boolOr | comma
  | insert | insertViewproc | insertInto | assign | assignViewproc | semicolon
deriving DecidableEq

inductive NonAlgOp
  | dot | join | where | closeBy | closeUniqueBy | leavesBy | leavesUniqueBy | orderBy
  | exists | forAll | forEach
deriving DecidableEq

inductive CoerceType
  | toString | toDouble | toBool | toInt | element | toBag | toSeq | canDel | canCrt | extCrt
deriving DecidableEq

/-- The nodes that the optimiser tells apart. An `other` node has what `TreeNode` gives to each
class. -/
inductive Tree
  | name (oid : Oid) (name : String)
  | value (oid : Oid) (type : ValueType)
  | as (oid : Oid) (arg : Tree) (name : String) (group : Bool)
  | unOp (oid : Oid) (op : UnOp) (arg : Tree)
  | coerce (oid : Oid) (cType : CoerceType) (arg : Tree)
  | castTo (oid : Oid) (arg : Tree)
  | algOp (oid : Oid) (op : AlgOp) (larg rarg : Tree)
  | nonAlgOp (oid : Oid) (op : NonAlgOp) (larg rarg : Tree)
  | other (oid : Oid)
deriving DecidableEq

def Tree.oid : Tree → Oid
  | name o _ | value o _ | as o _ _ _ | unOp o _ _ | coerce o _ _ | castTo o _ | algOp o _ _ _
  | nonAlgOp o _ _ _ | other o => o

-- ---------------------------------------------------------------------------
-- Signatures
-- ---------------------------------------------------------------------------

/-- A signature with the node whose value it is. -/
inductive Sig
  | atom (card : Card) (dependsOn : Option Oid) (atomType : String)
  | ref (card : Card) (dependsOn : Option Oid) (refNo : Int)
  | binder (card : Card) (dependsOn : Option Oid) (name : String) (value : Sig)
  | coll (card : Card) (dependsOn : Option Oid) (collType : CollType) (myList : List Sig)

/-- A binder in a section of the stack of environments. -/
structure Binder where
  card : Card := {}
  dependsOn : Option Oid
  name : String
  value : Sig

namespace Sig

def card : Sig → Card
  | atom c _ _ | ref c _ _ | binder c _ _ _ | coll c _ _ _ => c

def setCard (card : Card) : Sig → Sig
  | atom _ d t => atom card d t
  | ref _ d r => ref card d r
  | binder _ d n v => binder card d n v
  | coll _ d c l => coll card d c l

def setCardMultiple (s : Sig) : Sig := s.setCard { s.card with upper := '*' }

def dependsOn : Sig → Option Oid
  | atom _ d _ | ref _ d _ | binder _ d _ _ | coll _ d _ _ => d

def setDependsOn (dependsOn : Option Oid) : Sig → Sig
  | atom c _ t => atom c dependsOn t
  | ref c _ r => ref c dependsOn r
  | binder c _ n v => binder c dependsOn n v
  | coll c _ t l => coll c dependsOn t l

/-- `SigType`. -/
def type : Sig → Int
  | atom _ _ t => Signature.getNumb t
  | ref .. => 9
  | binder .. => 4
  | coll _ _ .seq _ => 1
  | coll _ _ .bag _ => 2
  | coll _ _ .struct _ => 3
  | coll _ _ .var _ => 11

def isAtom : Sig → Bool
  | atom .. => true
  | _ => false

def isColl : Sig → Bool
  | coll .. => true
  | _ => false

mutual

/-- Of a collection the copy does not depend on what the original depends on. -/
def clone : Sig → Sig
  | atom c d t => atom c d t
  | ref c d r => ref c d r
  | binder c d n v => binder c d n (clone v)
  | coll c _ t l => coll c none t (cloneAll l)

def cloneAll : List Sig → List Sig
  | [] => []
  | s :: l => clone s :: cloneAll l

end

/-- `SSTRUCT` with the elements of the left and one more. -/
def pair (lSig : Sig) (rSig : Option Sig) : Sig :=
  match lSig with
  | coll c d .struct l => coll c d .struct (l ++ rSig.toList)
  | lSig => coll {} none .struct (lSig :: rSig.toList)

end Sig

-- ---------------------------------------------------------------------------
-- What is nested in a signature
-- ---------------------------------------------------------------------------

/-- The data scheme with the list of its root objects. -/
structure Scheme extends DataScheme where
  baseObjects : List DataObjectDef := []

namespace Scheme

/-- In the section of the root objects each depends on nothing. -/
def bindBaseObjects (S : Scheme) : List Binder :=
  (S.baseObjects.map fun obt =>
    { card := obt.head.card
      dependsOn := none
      name := obt.head.name
      value := .ref obt.head.card none obt.head.myId }).reverse

/-- `none` where the code reads through a null pointer. -/
def statNestedDef (S : Scheme) (treeNode : Option Oid) (obCard : Card) :
    DataObjectDef → Option (List Binder)
  | .atomic .. => some []
  | .untyped _ => some []
  | .link _ targetId =>
    match S.getObjById targetId with
    | none => none
    | some pom =>
      let binderName := if pom.head.isTypedef then "__REFTYPE_" ++ pom.head.name else pom.head.name
      some [{ card := obCard, dependsOn := treeNode, name := binderName,
              value := .ref obCard none pom.head.myId }]
  | .defType _ typeObj => statNestedDef S treeNode obCard typeObj
  | .complex _ [] => none
  | .complex _ subObjects =>
    some (subObjects.map fun pom =>
      { card := pom.head.card
        dependsOn := treeNode
        name := pom.head.name
        value := .ref pom.head.card none pom.head.myId }).reverse
  | .otherKind _ => none

def statNested (S : Scheme) (objId : Int) (treeNode : Option Oid) : Option (List Binder) :=
  match S.getObjById objId with
  | none => none
  | some candidate => S.statNestedDef treeNode candidate.head.card candidate

end Scheme

namespace Sig

mutual

def statNested (S : Scheme) : Sig → Option Oid → Option (List Binder)
  | atom .., _ => some []
  | ref _ _ refNo, treeNode => S.statNested refNo treeNode
  | binder c d n v, _ => some [⟨c, d, n, v⟩]
  | coll _ _ _ l, _ => nestedAll S l []

/-- The binders of the first element as they are, those of the others put before them one by
one. -/
def nestedAll (S : Scheme) : List Sig → List Binder → Option (List Binder)
  | [], resultBinders => some resultBinders
  | pt :: l, resultBinders =>
    match statNested S pt pt.dependsOn with
    | none => none
    | some bindersCol =>
      nestedAll S l
        (if resultBinders.isEmpty then bindersCol else bindersCol.reverse ++ resultBinders)

end

end Sig

-- ---------------------------------------------------------------------------
-- The stacks
-- ---------------------------------------------------------------------------

/-- What is noted in a node. -/
structure NodeInfo where
  card : Card
  needed : Bool := false
  bindSect : Nat := 0
  statEnvSecSize : Nat := 0
  firstOpenSect : Nat := 0
  lastOpenSect : Nat := 0
  dependsOn : Option Oid := none
  boundIn : List (Option Oid) := []
  usedBy : List Oid := []

/-- Both stacks have their top in front. -/
structure State where
  qres : List Sig
  envs : List (List Binder)
  nodes : Oid → NodeInfo

namespace State

def mark (st : State) (o : Oid) (f : NodeInfo → NodeInfo) : State :=
  { st with nodes := Function.update st.nodes o (f (st.nodes o)) }

def setCard (st : State) (o : Oid) (card : Card) : State :=
  st.mark o fun i => { i with card }

def pushSig (st : State) (s : Sig) : State := { st with qres := s :: st.qres }

/-- Of an empty stack nothing is taken. -/
def pop (st : State) : State := { st with qres := st.qres.tail }

def topSig (st : State) : Option Sig := st.qres.head?.map Sig.clone

/-- A section without binders is not pushed. -/
def pushBinders (st : State) (binders : List Binder) : State :=
  if binders.isEmpty then st else { st with envs := binders :: st.envs }

def popSection (st : State) : State := { st with envs := st.envs.tail }

@[simp] theorem mark_qres (st : State) (o f) : (st.mark o f).qres = st.qres := rfl
@[simp] theorem mark_envs (st : State) (o f) : (st.mark o f).envs = st.envs := rfl
@[simp] theorem setCard_qres (st : State) (o c) : (st.setCard o c).qres = st.qres := rfl
@[simp] theorem setCard_envs (st : State) (o c) : (st.setCard o c).envs = st.envs := rfl
@[simp] theorem pushSig_qres (st : State) (s) : (st.pushSig s).qres = s :: st.qres := rfl
@[simp] theorem pushSig_envs (st : State) (s) : (st.pushSig s).envs = st.envs := rfl
@[simp] theorem pop_qres (st : State) : st.pop.qres = st.qres.tail := rfl
@[simp] theorem pop_envs (st : State) : st.pop.envs = st.envs := rfl
@[simp] theorem popSection_qres (st : State) : st.popSection.qres = st.qres := rfl
@[simp] theorem popSection_envs (st : State) : st.popSection.envs = st.envs.tail := rfl

@[simp] theorem pushBinders_qres (st : State) (binders) :
    (st.pushBinders binders).qres = st.qres := by
  simp only [pushBinders]
  split <;> rfl

end State

/-- `bindName2`: the number of the section, its size and the binders of the name in it. -/
def bindName2 (aName : String) : List (List Binder) → Option (Nat × Nat × List Binder)
  | [] => none
  | section_ :: rest =>
    match section_.filter (·.name = aName) with
    | [] => bindName2 aName rest
    | vec => some (rest.length + 1, section_.length, vec)

-- ---------------------------------------------------------------------------
-- Cardinalities
-- ---------------------------------------------------------------------------

def minCard (card : Card) : Nat :=
  if card.lower = '0' then 0 else if card.lower = '1' then 1 else 10

def maxCard (card : Card) : Nat :=
  if card.upper = '0' then 0 else if card.upper = '1' then 1 else 10

def int2card (card : Nat) : Char :=
  if card = 0 then '0' else if card = 1 then '1' else '*'

def mulCard (leftCard rightCard : Card) : Card where
  lower := int2card (min (minCard leftCard) (minCard rightCard))
  upper := int2card (maxCard leftCard * maxCard rightCard)

/-- `evalCard`, of each class its own. -/
def evalCard (st : State) : Tree → State
  | .as o arg _ _ => st.setCard o (st.nodes arg.oid).card
  | .castTo o arg => st.setCard o (st.nodes arg.oid).card
  | .algOp o .comma larg rarg =>
    st.setCard o (mulCard (st.nodes larg.oid).card (st.nodes rarg.oid).card)
  | .nonAlgOp o .dot larg rarg =>
    st.setCard o (mulCard (st.nodes larg.oid).card (st.nodes rarg.oid).card)
  | .nonAlgOp o .join larg rarg =>
    st.setCard o (mulCard (st.nodes larg.oid).card (st.nodes rarg.oid).card)
  | .nonAlgOp o .where larg _ => st.setCard o (st.nodes larg.oid).card
  | .nonAlgOp o _ _ _ => st.setCard o { lower := '0', upper := '*' }
  | t => st.setCard t.oid {}

@[simp] theorem evalCard_qres (st : State) (t : Tree) : (evalCard st t).qres = st.qres := by
  unfold evalCard
  split <;> rfl

@[simp] theorem evalCard_envs (st : State) (t : Tree) : (evalCard st t).envs = st.envs := by
  unfold evalCard
  split <;> rfl

-- ---------------------------------------------------------------------------
-- The evaluation
-- ---------------------------------------------------------------------------

/-- The evaluation returns 0 or -1, or reads through a null pointer. -/
inductive Outcome
  | ok (st : State)
  | failed (st : State)
  | crash

def Outcome.andThen : Outcome → (State → Outcome) → Outcome
  | ok st, f => f st
  | failed st, _ => failed st
  | crash, _ => crash

@[simp] theorem Outcome.ok_andThen (st : State) (f) : (Outcome.ok st).andThen f = f st := rfl
@[simp] theorem Outcome.failed_andThen (st : State) (f) :
    (Outcome.failed st).andThen f = .failed st := rfl
@[simp] theorem Outcome.crash_andThen (f) : Outcome.crash.andThen f = .crash := rfl

/-- A name is bound by a binder: the name notes what the binder depends on, and that node that
the name uses it. -/
def noteBound (o : Oid) (st : State) (bw : Binder) : State :=
  let st := st.mark o fun i => { i with boundIn := i.boundIn ++ [bw.dependsOn] }
  match bw.dependsOn with
  | none => st
  | some w => st.mark w fun i => { i with usedBy := i.usedBy ++ [o] }

/-- `calculateBoundUsed`, of the first evaluation only. -/
def calculateBoundUsed (run : Nat) (o : Oid) (vec : List Binder) (st : State) : State :=
  if run = 1 then vec.foldl (noteBound o) st else st

theorem noteBound_stacks (o : Oid) (st : State) (bw : Binder) :
    (noteBound o st bw).qres = st.qres ∧ (noteBound o st bw).envs = st.envs := by
  simp only [noteBound]
  cases bw.dependsOn <;> exact ⟨rfl, rfl⟩

theorem calculateBoundUsed_stacks (run : Nat) (o : Oid) (vec : List Binder) (st : State) :
    (calculateBoundUsed run o vec st).qres = st.qres ∧
      (calculateBoundUsed run o vec st).envs = st.envs := by
  simp only [calculateBoundUsed]
  split
  · induction vec generalizing st with
    | nil => exact ⟨rfl, rfl⟩
    | cons bw vec ih =>
      have h := noteBound_stacks o st bw
      exact ⟨(ih _).1.trans h.1, (ih _).2.trans h.2⟩
  · exact ⟨rfl, rfl⟩

@[simp] theorem calculateBoundUsed_qres (run : Nat) (o : Oid) (vec : List Binder) (st : State) :
    (calculateBoundUsed run o vec st).qres = st.qres :=
  (calculateBoundUsed_stacks run o vec st).1

@[simp] theorem calculateBoundUsed_envs (run : Nat) (o : Oid) (vec : List Binder) (st : State) :
    (calculateBoundUsed run o vec st).envs = st.envs :=
  (calculateBoundUsed_stacks run o vec st).2

/-- The value of a name: that of the last binder, and with it those of all but the first. -/
def nameSig (o : Oid) (bw : Binder) (vec : List Binder) : Sig :=
  let sig := bw.value.clone
  let sig := match sig.dependsOn with
    | none => sig.setDependsOn (some o)
    | some _ => sig
  vec.tail.foldl (fun sig pombw => sig.pair (some pombw.value.clone)) sig

/-- `NameNode::staticEval2`. -/
def nameEval (run : Nat) (o : Oid) (name : String) (st : State) : Outcome :=
  match bindName2 name st.envs with
  | none => .failed st
  | some (bindSect, size, vec) =>
    match vec.getLast? with
    | none => .failed st
    | some bw =>
      let st := st.mark o fun i =>
        { i with bindSect, card := bw.card, statEnvSecSize := size, dependsOn := bw.dependsOn }
      .ok (calculateBoundUsed run o vec (st.pushSig (nameSig o bw vec)))

def valueEval (st : State) (o : Oid) : ValueType → Outcome
  | .int => .ok ((st.pushSig (.atom {} none "int")).setCard o {})
  | .string => .ok ((st.pushSig (.atom {} none "string")).setCard o {})
  | .double => .ok ((st.pushSig (.atom {} none "double")).setCard o {})
  | .refid => .failed st

/-- `UnOpNode::staticEval` after the argument. -/
def unOpEval (S : Scheme) (o : Oid) (op : UnOp) (st₀ : State) : Outcome :=
  let st := st₀.pop
  match op, st₀.topSig with
  | .unMinus, some topSig =>
    if ¬ topSig.isAtom ∨ topSig.type = 7 then .failed st else .ok (st.pushSig topSig.clone)
  | .boolNot, some topSig =>
    if topSig.type ≠ 8 then .ok st else .ok (st.pushSig topSig.clone)
  | .deref, some (.ref _ _ refNo) =>
    match S.getObjById refNo with
    | none => .failed st
    | some (.complex ..) => .ok st
    | some (.atomic _ type) => .ok (st.pushSig (.atom {} none type))
    | some (.link _ targetId) =>
      match S.getObjById targetId with
      | none => .crash
      | some target => .ok (st.pushSig (.ref {} none target.head.myId))
    | some _ => .ok st
  | .nameof, some (.ref _ _ refNo) =>
    match S.getObjById refNo with
    | none => .failed st
    | some _ => .ok (st.pushSig (.atom {} none "string"))
  | .deref, some _ => .failed st
  | .nameof, some _ => .failed st
  | .count, _ => .ok (st.pushSig (.atom {} none "int"))
  | .sum, _ => .ok (st.pushSig (.atom {} none "int"))
  | .avg, _ => .ok (st.pushSig (.atom {} none "int"))
  | .min, _ => .ok (st.pushSig (.atom {} none "int"))
  | .max, _ => .ok (st.pushSig (.atom {} none "int"))
  | .distinct, _ => .failed (st.setCard o {})
  | .deleteOp, _ => .failed (st.setCard o {})
  | .ref, _ => .failed (st.setCard o {})
  | _, none => .crash

/-- `AlgOpNode::staticEval` after both arguments. -/
def algOpEval (t : Tree) (op : AlgOp) (lSig : Option Sig) (st : State) : Outcome :=
  let rSig := st.topSig
  let st := evalCard st.pop.pop t
  match op with
  | .eq | .neq | .lt | .gt | .le | .ge | .boolAnd | .boolOr =>
    .ok (st.pushSig (.atom {} none "bool"))
  | .plus | .minus | .times | .divide => .ok (st.pushSig (.atom {} none "double"))
  | .bagUnion | .bagIntersect | .bagMinus => .failed st
  | .comma =>
    match lSig with
    | none => .crash
    | some lSig => .ok (st.pushSig (lSig.pair rSig))
  | .insert => .failed st
  | .refeq | .insertViewproc | .insertInto | .assign | .assignViewproc | .semicolon =>
    .ok (evalCard st t)

/-- `NonAlgOpNode::staticEval` between its arguments: the new section, and how many sections are
to be popped. -/
def openSections (S : Scheme) (o : Oid) (lSig : Option Sig) (st : State) :
    Option (State × Nat) :=
  let st := st.mark o fun i => { i with firstOpenSect := st.envs.length + 1 }
  match lSig with
  | none => none
  | some lSig =>
    let toPush := lSig.clone
    match toPush.statNested S toPush.dependsOn with
    | none => none
    | some binders =>
      let st := st.pushBinders binders
      let sToPop := if toPush.isColl then 1 else if binders.isEmpty then 0 else 1
      some (st.mark o fun i => { i with lastOpenSect := st.envs.length }, sToPop)

/-- `NonAlgOpNode::staticEval` after both arguments. -/
def nonAlgOpEval (t : Tree) (op : NonAlgOp) (lSig : Option Sig) (sToPop : Nat) (st : State) :
    Outcome :=
  let rSig := st.topSig
  let st := (State.popSection^[sToPop] st).pop.pop
  match op, rSig with
  | .dot, some rSig => .ok (evalCard (st.pushSig rSig.clone) t)
  | .dot, none => .crash
  | .where, some rSig =>
    if rSig.type ≠ 8 then .failed st
    else
      match lSig with
      | none => .crash
      | some lSig => .ok (evalCard (st.pushSig lSig.clone) t)
  | .where, none => .crash
  | .join, rSig =>
    match lSig with
    | none => .crash
    | some lSig => .ok (evalCard (st.pushSig (Sig.coll {} none .struct (lSig :: rSig.toList)).clone) t)
  | _, _ => .failed st

/-- The signature of a coerced value. -/
def coerceSig (cType : CoerceType) (topSig : Sig) : Option Sig :=
  let atom (atomType : String) :=
    if topSig.isAtom then some (Sig.atom topSig.card none atomType) else none
  match cType with
  | .toString => atom "string"
  | .toDouble => atom "double"
  | .toInt => atom "int"
  | .toBool => atom "boolean"
  | .element => some (topSig.setCard {}).clone
  | .toBag => some topSig.setCardMultiple.clone
  | .toSeq => some topSig.setCardMultiple.clone
  | .canDel | .canCrt | .extCrt => some topSig.clone

def staticEval (S : Scheme) (run : Nat) : Tree → State → Outcome
  | .name o name, st => nameEval run o name st
  | .value o type, st => valueEval st o type
  | .as o arg name group, st =>
    (staticEval S run arg st).andThen fun st =>
      match st.topSig with
      | none => .crash
      | some topSig =>
        .ok (evalCard (st.pop.pushSig (.binder {} (some o) name topSig.clone)) (.as o arg name group))
  | .unOp o op arg, st => (staticEval S run arg st).andThen (unOpEval S o op)
  | .coerce o cType arg, st =>
    (staticEval S run arg st).andThen fun st =>
      match st.topSig with
      | none => .crash
      | some topSig =>
        match coerceSig cType topSig with
        | none => .failed st.pop
        | some sig => .ok (evalCard (st.pop.pushSig sig) (.coerce o cType arg))
  | .castTo o arg, st =>
    (staticEval S run arg st).andThen fun st => .ok (evalCard st (.castTo o arg))
  | .algOp o op larg rarg, st =>
    (staticEval S run larg st).andThen fun st =>
      let lSig := st.topSig
      (staticEval S run rarg st).andThen (algOpEval (.algOp o op larg rarg) op lSig)
  | .nonAlgOp o op larg rarg, st =>
    (staticEval S run larg st).andThen fun st =>
      let lSig := st.topSig
      match openSections S o lSig st with
      | none => .crash
      | some (st, sToPop) =>
        (staticEval S run rarg st).andThen
          (nonAlgOpEval (.nonAlgOp o op larg rarg) op lSig sToPop)
  | .other _, st => .failed st

end Loxim.QueryParser.Optimizer
