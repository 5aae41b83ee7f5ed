import Mathlib

/-!
# Query trees and their text

The nodes that the grammar builds of names, literals and operators. `deParse` is one method
for each class of nodes: most of them put themselves in parentheses, some do not.
-/

namespace Loxim.QueryParser

abbrev Text := List Char

instance : LawfulBEq Text := inferInstance


inductive UnOp
  | count | sum | avg | min | max | deref | ref | distinct | unMinus | boolNot | deleteOp | nameof
  deriving DecidableEq

inductive AlgOp
  | bagUnion | bagIntersect | bagMinus | plus | minus | times | divide
  | eq | neq | lt | gt | le | ge | boolAnd | boolOr | comma | insert | assign | semicolon
  deriving DecidableEq

inductive NonAlgOp
  | dot | join | where | closeBy | closeUniqueBy | leavesBy | leavesUniqueBy | orderBy
  | exists | forAll
  deriving DecidableEq

/-- The operator of an `AlgOpNode` or of a `NonAlgOpNode`. -/
inductive BinOp
  | alg (op : AlgOp)
  | nonAlg (op : NonAlgOp)
  deriving DecidableEq

/-- The nodes with a query for objects and a query for classes. -/
inductive ClassOp
  | includes | excludes | instanceOf
  deriving DecidableEq

inductive Query
  | name (name : Text)
  | int (value : Nat)
  | refid (value : Nat)
  | string (value : Text)
  | nameAs (arg : Query) (name : Text) (group : Bool)
  | unOp (op : UnOp) (arg : Query)
  | twoArgs (op : BinOp) (larg rarg : Query)
  | forEach (larg rarg : Query)
  | create (arg : Query)
  /-- `create query as name` with the name of a member of a class. -/
  | createMember (arg : Query) (name : Text)
  | ifThen (condition larg : Query)
  | ifElse (condition larg rarg : Query)
  | while (condition larg : Query)
  | fixPoint (parts : List (Text × Query))
  | break
  | return (query : Query)
  | callProc (name : Text) (queries : List Query)
  | classes (op : ClassOp) (larg rarg : Query)
  | indexExact (index : Text) (value : Query)
  | indexLeft (index : Text) (inclusive : Bool) (value : Query)
  | indexRight (index : Text) (value : Query) (inclusive : Bool)
  | indexBetween (index : Text) (inclusiveLeft : Bool) (left right : Query) (inclusiveRight : Bool)

-- ---------------------------------------------------------------------------
-- Keywords as they are printed
-- ---------------------------------------------------------------------------

/-- `nameof` is printed as a procedure call. -/
def UnOp.text : UnOp → Text
  | .count => "count".toList
  | .sum => "sum".toList
  | .avg => "avg".toList
  | .min => "min".toList
  | .max => "max".toList
  | .deref => "deref".toList
  | .ref => "ref".toList
  | .distinct => "distinct".toList
  | .unMinus => "-".toList
  | .boolNot => "not".toList
  | .deleteOp => "delete".toList
  | .nameof => "name".toList

def AlgOp.text : AlgOp → Text
  | .bagUnion => "union".toList
  | .bagIntersect => "intersect".toList
  | .bagMinus => "minus".toList
  | .plus => "+".toList
  | .minus => "-".toList
  | .times => "*".toList
  | .divide => "/".toList
  | .eq => "=".toList
  | .neq => "!=".toList
  | .lt => "<".toList
  | .gt => ">".toList
  | .le => "<=".toList
  | .ge => ">=".toList
  | .boolAnd => "and".toList
  | .boolOr => "or".toList
  | .comma => ",".toList
  | .insert => ":<".toList
  | .assign => ":=".toList
  | .semicolon => ";".toList

def NonAlgOp.text : NonAlgOp → Text
  | .dot => ".".toList
  | .join => "join".toList
  | .where => "where".toList
  | .closeBy => "close by".toList
  | .closeUniqueBy => "close unique by".toList
  | .leavesBy => "leaves by".toList
  | .leavesUniqueBy => "leaves unique by".toList
  | .orderBy => "order by".toList
  | .exists => "exists".toList
  | .forAll => "for all".toList

def BinOp.text : BinOp → Text
  | .alg op => op.text
  | .nonAlg op => op.text

def ClassOp.text : ClassOp → Text
  | .includes => "includes".toList
  | .excludes => "excludes".toList
  | .instanceOf => "instanceof".toList

def asText (group : Bool) : Text := if group then "group as ".toList else "as ".toList

-- ---------------------------------------------------------------------------
-- Text of a tree
-- ---------------------------------------------------------------------------

mutual

/-- A `refid` is printed as its number, and the bounds of an index as an interval. -/
def Query.deParse : Query → Text
  | .name name => " ".toList ++ name ++ " ".toList
  | .int value => " ".toList ++ Nat.toDigits 10 value ++ " ".toList
  | .refid value => " ".toList ++ Nat.toDigits 10 value ++ " ".toList
  | .string value => " \"".toList ++ value ++ "\" ".toList
  | .nameAs arg name group =>
    " (".toList ++ arg.deParse ++ asText group ++ name ++ ") ".toList
  | .unOp op arg => " ".toList ++ op.text ++ "(".toList ++ arg.deParse ++ ") ".toList
  | .twoArgs op larg rarg =>
    " (".toList ++ larg.deParse ++ op.text ++ rarg.deParse ++ ") ".toList
  | .forEach larg rarg =>
    " for each".toList ++ larg.deParse ++ "do".toList ++ rarg.deParse ++ "od ".toList
  | .create arg => " (create ".toList ++ arg.deParse ++ ") ".toList
  | .createMember arg name =>
    " (create ".toList ++ " (".toList ++ arg.deParse ++ asText false ++ name ++ ") ".toList ++
      ") ".toList
  | .ifThen condition larg =>
    " if".toList ++ condition.deParse ++ "then".toList ++ larg.deParse ++ "fi ".toList
  | .ifElse condition larg rarg =>
    " if".toList ++ condition.deParse ++ "then".toList ++ larg.deParse ++ "else".toList ++
      rarg.deParse ++ "fi ".toList
  | .while condition larg =>
    " while".toList ++ condition.deParse ++ "do".toList ++ larg.deParse ++ "od ".toList
  | .fixPoint parts => " fixpoint ( ".toList ++ deParseParts parts ++ ") ".toList
  | .break => " break ".toList
  | .return query => " (return ".toList ++ query.deParse ++ ") ".toList
  | .callProc name queries =>
    " ".toList ++ name ++ "(".toList ++ deParseList queries ++ ") ".toList
  | .classes op larg rarg =>
    " (".toList ++ larg.deParse ++ ") ".toList ++ op.text ++ " (".toList ++ rarg.deParse ++
      ") ".toList
  | .indexExact index value =>
    " index ".toList ++ index ++ " ".toList ++ "=".toList ++ value.deParse ++ " ".toList
  | .indexLeft index inclusive value =>
    " index ".toList ++ index ++ " ".toList ++ (if inclusive then "<".toList else "(".toList) ++
      value.deParse ++ " to +inf)".toList ++ " ".toList
  | .indexRight index value inclusive =>
    " index ".toList ++ index ++ " ".toList ++ "(-inf to ".toList ++ value.deParse ++
      (if inclusive then ">".toList else ")".toList) ++ " ".toList
  | .indexBetween index inclusiveLeft left right inclusiveRight =>
    " index ".toList ++ index ++ " ".toList ++
      (if inclusiveLeft then "<".toList else "(".toList) ++ left.deParse ++ " to ".toList ++
      right.deParse ++ (if inclusiveRight then ">".toList else ")".toList) ++ " ".toList

def deParseParts : List (Text × Query) → Text
  | [] => []
  | (name, query) :: parts => name ++ " :-".toList ++ query.deParse ++ deParseParts parts

/-- With a comma after each but the last. -/
def deParseList : List Query → Text
  | [] => []
  | [query] => query.deParse
  | query :: queries => query.deParse ++ ",".toList ++ deParseList queries

end

end Loxim.QueryParser
