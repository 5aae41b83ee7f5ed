import Loxim.QueryParser.Scanner

/-!
# The parser

The rules of the grammar for queries, read from left to right with a stack of the rules that
have been begun. After an operand a rule is finished or the next operator is shifted: the
precedence of the rule and that of the operator decide it.
-/

namespace Loxim.QueryParser

-- ---------------------------------------------------------------------------
-- Precedences
-- ---------------------------------------------------------------------------

inductive Assoc
  | left | right | nonassoc
  deriving DecidableEq

/-- The lines of the precedence declarations, from the loosest on. -/
def AlgOp.level : AlgOp → Nat
  | .semicolon => 2
  | .insert => 5
  | .comma => 7
  | .assign => 10
  | .bagUnion | .bagMinus => 11
  | .bagIntersect => 12
  | .boolOr => 14
  | .boolAnd => 15
  | .eq | .neq | .gt | .lt | .ge | .le => 17
  | .plus | .minus => 18
  | .times | .divide => 19

def NonAlgOp.level : NonAlgOp → Nat
  | .exists | .forAll => 8
  | .where | .join | .closeBy | .closeUniqueBy | .leavesBy | .leavesUniqueBy | .orderBy => 13
  | .dot => 21

def BinOp.level : BinOp → Nat
  | .alg op => op.level
  | .nonAlg op => op.level

def returnLevel : Nat := 3

def createLevel : Nat := 5

/-- `AS`, `GROUP_AS`, `INCLUDES`, `EXCLUDES` and `INSTANCEOF`. -/
def asLevel : Nat := 9

def equalLevel : Nat := 17

/-- The operators that are written before their argument; `delete` has the level of `create`. -/
def UnOp.level : UnOp → Nat
  | .deleteOp => 5
  | .boolNot => 16
  | .unMinus => 20
  | _ => 0

def assocOf (level : Nat) : Assoc :=
  if level = 2 ∨ level = 8 ∨ level = 10 ∨ level = 13 ∨ level = 21 then .right
  else if level = 7 ∨ level = 9 ∨ level = 11 ∨ level = 12 ∨ level = 14 ∨ level = 15 ∨
    level = 18 ∨ level = 19 then .left
  else .nonassoc

-- ---------------------------------------------------------------------------
-- Rules that have been begun
-- ---------------------------------------------------------------------------

inductive Frame
  | twoArgs (larg : Query) (op : BinOp)
  | refEqual (larg : Query)
  | classes (larg : Query) (op : ClassOp)
  | prefixed (op : UnOp)
  | create
  | return
  | indexExact (index : Text)
  /-- From here on a rule ends with a token of its own. -/
  | unary (op : UnOp)
  | paren (queries : List Query)
  | args (name : Text) (queries : List Query)
  | ifCondition
  | ifThen (condition : Query)
  | ifElse (condition larg : Query)
  | whileCondition
  | whileDo (condition : Query)
  | eachOf
  | eachDo (larg : Query)
  | fix (parts : List (Text × Query)) (name : Text)
  | indexLeft (index : Text) (inclusive : Bool)
  | indexRight (index : Text)
  | indexBetween (index : Text) (inclusiveLeft : Bool) (left : Query)

/-- The precedence of a rule that ends with a query, and what it makes of the query. -/
def Frame.rule : Frame → Option (Nat × (Query → Query))
  | .twoArgs larg op => some (op.level, .twoArgs op larg)
  | .refEqual larg =>
    some (equalLevel, fun q => .twoArgs (.alg .eq) (.unOp .ref larg) (.unOp .ref q))
  | .classes larg op => some (asLevel, .classes op larg)
  | .prefixed op => some (op.level, .unOp op)
  | .create => some (createLevel, .create)
  | .return => some (returnLevel, .return)
  | .indexExact index => some (equalLevel, .indexExact index)
  | _ => none

/-- Finish rules before an operator of this level is shifted. Fails where two operators that
do not associate meet. -/
def reduceBy (level : Nat) : Query → List Frame → Option (Query × List Frame)
  | q, [] => some (q, [])
  | q, f :: stack =>
    match f.rule with
    | none => some (q, f :: stack)
    | some (l, close) =>
      if level < l then reduceBy level (close q) stack
      else if l < level then some (q, f :: stack)
      else
        match assocOf level with
        | .left => reduceBy level (close q) stack
        | .right => some (q, f :: stack)
        | .nonassoc => none

/-- Finish all rules that end with a query. -/
def reduceAll : Query → List Frame → Query × List Frame
  | q, [] => (q, [])
  | q, f :: stack =>
    match f.rule with
    | none => (q, f :: stack)
    | some (_, close) => reduceAll (close q) stack

-- ---------------------------------------------------------------------------
-- Steps
-- ---------------------------------------------------------------------------

/-- What has been read of the rule on top of the stack. -/
inductive Mode
  | expect
  | word (name : Text)
  | operand (q : Query)
  | unary (op : UnOp)
  | as (q : Query) (group : Bool)
  | fixpoint
  | fixName (parts : List (Text × Query))
  | fixOp (parts : List (Text × Query)) (name : Text)
  | index
  | indexName (index : Text)

structure State where
  mode : Mode
  stack : List Frame

/-- `AlgOpNode::newNode`, from the last query on. -/
def newNode : List Query → Query → Query
  | [], last => last
  | q :: queries, last => .twoArgs (.alg .comma) q (newNode queries last)

/-- A token where a query begins. -/
def beginQuery (stack : List Frame) : Token → Option State
  | .name name | .extName name => some ⟨.word name, stack⟩
  | .systemViewName name | .onName name => some ⟨.operand (.name name), stack⟩
  | .integer value => some ⟨.operand (.int value), stack⟩
  | .refid value => some ⟨.operand (.refid value), stack⟩
  | .string value => some ⟨.operand (.string value), stack⟩
  | .unary op => some ⟨.unary op, stack⟩
  | .infixOp (.alg .minus) => some ⟨.expect, .prefixed .unMinus :: stack⟩
  | .not => some ⟨.expect, .prefixed .boolNot :: stack⟩
  | .delete => some ⟨.expect, .prefixed .deleteOp :: stack⟩
  | .create => some ⟨.expect, .create :: stack⟩
  | .return => some ⟨.expect, .return :: stack⟩
  | .break => some ⟨.operand .break, stack⟩
  | .leftPar => some ⟨.expect, .paren [] :: stack⟩
  | .rightPar =>
    match stack with
    | .args name [] :: stack => some ⟨.operand (.callProc name []), stack⟩
    | _ => none
  | .if => some ⟨.expect, .ifCondition :: stack⟩
  | .while => some ⟨.expect, .whileCondition :: stack⟩
  | .forEach => some ⟨.expect, .eachOf :: stack⟩
  | .fixpoint => some ⟨.fixpoint, stack⟩
  | .index => some ⟨.index, stack⟩
  | _ => none

/-- A token that ends a rule. -/
def endRule (q : Query) : List Frame → Token → Option State
  | .paren queries :: stack, .infixOp (.alg .comma) =>
    some ⟨.expect, .paren (queries ++ [q]) :: stack⟩
  | .args name queries :: stack, .infixOp (.alg .comma) =>
    some ⟨.expect, .args name (queries ++ [q]) :: stack⟩
  | .unary op :: stack, .rightPar => some ⟨.operand (.unOp op q), stack⟩
  | .paren queries :: stack, .rightPar => some ⟨.operand (newNode queries q), stack⟩
  | .args name queries :: stack, .rightPar =>
    some ⟨.operand (.callProc name (queries ++ [q])), stack⟩
  | .fix parts name :: stack, .rightPar =>
    some ⟨.operand (.fixPoint (parts ++ [(name, q)])), stack⟩
  | .fix parts name :: stack, .name next => some ⟨.fixOp (parts ++ [(name, q)]) next, stack⟩
  | .ifCondition :: stack, .then => some ⟨.expect, .ifThen q :: stack⟩
  | .ifThen condition :: stack, .else => some ⟨.expect, .ifElse condition q :: stack⟩
  | .ifThen condition :: stack, .fi => some ⟨.operand (.ifThen condition q), stack⟩
  | .ifElse condition larg :: stack, .fi => some ⟨.operand (.ifElse condition larg q), stack⟩
  | .whileCondition :: stack, .do => some ⟨.expect, .whileDo q :: stack⟩
  | .whileDo condition :: stack, .od => some ⟨.operand (.while condition q), stack⟩
  | .eachOf :: stack, .do => some ⟨.expect, .eachDo q :: stack⟩
  | .eachDo larg :: stack, .od => some ⟨.operand (.forEach larg q), stack⟩
  | .indexLeft index inclusive :: stack, .indexPar =>
    some ⟨.operand (.indexLeft index inclusive q), stack⟩
  | .indexLeft index inclusive :: stack, .to =>
    some ⟨.expect, .indexBetween index inclusive q :: stack⟩
  | .indexRight index :: stack, .rightInclusive => some ⟨.operand (.indexRight index q true), stack⟩
  | .indexRight index :: stack, .rightExclusive =>
    some ⟨.operand (.indexRight index q false), stack⟩
  | .indexBetween index inclusiveLeft left :: stack, .rightInclusive =>
    some ⟨.operand (.indexBetween index inclusiveLeft left q true), stack⟩
  | .indexBetween index inclusiveLeft left :: stack, .rightExclusive =>
    some ⟨.operand (.indexBetween index inclusiveLeft left q false), stack⟩
  | _, _ => none

/-- A token after a query. -/
def afterQuery (q : Query) (stack : List Frame) (t : Token) : Option State :=
  match t with
  | .infixOp op =>
    if op = .alg .comma then endRule (reduceAll q stack).1 (reduceAll q stack).2 t
    else do
      let (q, stack) ← reduceBy op.level q stack
      return ⟨.expect, .twoArgs q op :: stack⟩
  | .refEqual => do
    let (q, stack) ← reduceBy equalLevel q stack
    return ⟨.expect, .refEqual q :: stack⟩
  | .classOp op => do
    let (q, stack) ← reduceBy asLevel q stack
    return ⟨.expect, .classes q op :: stack⟩
  | .as group => do
    let (q, stack) ← reduceBy asLevel q stack
    return ⟨.as q group, stack⟩
  | _ => endRule (reduceAll q stack).1 (reduceAll q stack).2 t

/-- Only the name of an object that is created may be that of a member of a class. -/
def feed (s : State) (t : Token) : Option State :=
  match s.mode, t with
  | .expect, _ => beginQuery s.stack t
  | .word name, .leftPar => some ⟨.expect, .args name [] :: s.stack⟩
  | .word name, _ => afterQuery (.name name) s.stack t
  | .operand q, _ => afterQuery q s.stack t
  | .unary op, .leftPar => some ⟨.expect, .unary op :: s.stack⟩
  | .as q group, .name name => some ⟨.operand (.nameAs q name group), s.stack⟩
  | .as q group, .extName name =>
    match group, s.stack with
    | false, .create :: stack => some ⟨.operand (.createMember q name), stack⟩
    | _, _ => none
  | .fixpoint, .leftPar => some ⟨.fixName [], s.stack⟩
  | .fixName parts, .name name => some ⟨.fixOp parts name, s.stack⟩
  | .fixOp parts name, .fixOp => some ⟨.expect, .fix parts name :: s.stack⟩
  | .index, .name index => some ⟨.indexName index, s.stack⟩
  | .indexName index, .infixOp (.alg .eq) => some ⟨.expect, .indexExact index :: s.stack⟩
  | .indexName index, .leftInclusive => some ⟨.expect, .indexLeft index true :: s.stack⟩
  | .indexName index, .leftExclusive => some ⟨.expect, .indexLeft index false :: s.stack⟩
  | .indexName index, .indexPar => some ⟨.expect, .indexRight index :: s.stack⟩
  | _, _ => none

/-- A query at the end of the text. -/
def accept (q : Query) (stack : List Frame) : Option Query :=
  match reduceAll q stack with
  | (q, []) => some q
  | _ => none

/-- A semicolon at the end is not an operator. -/
def State.result (s : State) : Option Query :=
  match s.mode with
  | .operand q => accept q s.stack
  | .word name => accept (.name name) s.stack
  | .expect =>
    match s.stack with
    | [.twoArgs q (.alg .semicolon)] => some q
    | _ => none
  | _ => none

def parseTokens (tokens : List Token) : Option Query := do
  let s ← tokens.foldlM feed ⟨.expect, []⟩
  s.result

def parse (text : Text) : Option Query := parseTokens (scan text)

end Loxim.QueryParser
