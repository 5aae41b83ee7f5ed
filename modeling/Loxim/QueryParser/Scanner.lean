import Loxim.QueryParser.TreeNode

/-!
# The scanner

At each place the rule with the longest match is taken, and of several such rules the first.
The keywords come before the names.
-/

namespace Loxim.QueryParser

inductive Token
  | leftPar | rightPar
  | name (text : Text)
  | extName (text : Text)
  | paramName (text : Text)
  | systemViewName (text : Text)
  /-- Keywords that are queries themselves. -/
  | onName (text : Text)
  | integer (value : Nat)
  | double (text : Text)
  | refid (value : Nat)
  | string (value : Text)
  /-- An operator that is written before parentheses. -/
  | unary (op : UnOp)
  | not | delete | create | return | break
  /-- `MINUS`, `COMMA` and `SEMICOLON` are among these. -/
  | infixOp (op : BinOp)
  | refEqual
  | as (group : Bool)
  | classOp (op : ClassOp)
  | if | then | else | fi | while | do | od | forEach | fixpoint | fixOp
  | index | to | leftExclusive | leftInclusive | rightExclusive | rightInclusive | indexPar
  /-- Tokens of other statements. -/
  | other (text : Text)
  deriving DecidableEq

/-- The rules for keywords, in the order of the source. -/
def keywords : List (Text × Token) :=
  [("(".toList, .leftPar),
   (")".toList, .rightPar),
   (";".toList, .infixOp (.alg .semicolon)),
   ("create or update".toList, .other "create or update".toList),
   ("sum".toList, .unary .sum),
   ("count".toList, .unary .count),
   ("avg".toList, .unary .avg),
   ("min".toList, .unary .min),
   ("max".toList, .unary .max),
   ("distinct".toList, .unary .distinct),
   ("includes".toList, .classOp .includes),
   ("excludes".toList, .classOp .excludes),
   ("group as".toList, .as true),
   ("as".toList, .as false),
   ("union".toList, .infixOp (.alg .bagUnion)),
   ("intersect".toList, .infixOp (.alg .bagIntersect)),
   ("exists".toList, .infixOp (.nonAlg .exists)),
   ("for all".toList, .infixOp (.nonAlg .forAll)),
   ("where".toList, .infixOp (.nonAlg .where)),
   ("join".toList, .infixOp (.nonAlg .join)),
   ("close by".toList, .infixOp (.nonAlg .closeBy)),
   ("close unique by".toList, .infixOp (.nonAlg .closeUniqueBy)),
   ("leaves by".toList, .infixOp (.nonAlg .leavesBy)),
   ("leaves unique by".toList, .infixOp (.nonAlg .leavesUniqueBy)),
   ("order by".toList, .infixOp (.nonAlg .orderBy)),
   ("or".toList, .infixOp (.alg .boolOr)),
   ("and".toList, .infixOp (.alg .boolAnd)),
   ("not".toList, .not),
   ("=".toList, .infixOp (.alg .eq)),
   ("==".toList, .refEqual),
   ("!=".toList, .infixOp (.alg .neq)),
   (">".toList, .infixOp (.alg .gt)),
   ("<".toList, .infixOp (.alg .lt)),
   (">=".toList, .infixOp (.alg .ge)),
   ("<=".toList, .infixOp (.alg .le)),
   ("+".toList, .infixOp (.alg .plus)),
   ("-".toList, .infixOp (.alg .minus)),
   ("*".toList, .infixOp (.alg .times)),
   ("/".toList, .infixOp (.alg .divide)),
   ("minus".toList, .infixOp (.alg .bagMinus)),
   (".".toList, .infixOp (.nonAlg .dot)),
   (",".toList, .infixOp (.alg .comma)),
   (":".toList, .other ":".toList),
   (":<".toList, .infixOp (.alg .insert)),
   ("delete".toList, .delete),
   (":=".toList, .infixOp (.alg .assign)),
   ("deref".toList, .unary .deref),
   ("ref".toList, .unary .ref),
   ("nameof".toList, .unary .nameof),
   ("reloadScheme".toList, .other "reloadScheme".toList),
   ("begin".toList, .other "begin".toList),
   ("end".toList, .other "end".toList),
   ("abort".toList, .other "abort".toList),
   ("create".toList, .create),
   ("update".toList, .other "update".toList),
   ("interface".toList, .other "interface".toList),
   ("for each".toList, .forEach),
   ("do".toList, .do),
   ("od".toList, .od),
   ("if".toList, .if),
   ("then".toList, .then),
   ("else".toList, .else),
   ("fi".toList, .fi),
   ("while".toList, .while),
   ("link".toList, .other "link".toList),
   ("fixpoint".toList, .fixpoint),
   (":-".toList, .fixOp),
   ("return".toList, .return),
   ("break".toList, .break),
   ("procedure".toList, .other "procedure".toList),
   ("class".toList, .other "class".toList),
   ("extends".toList, .other "extends".toList),
   ("instance".toList, .other "instance".toList),
   ("instanceof".toList, .classOp .instanceOf),
   ("cast".toList, .other "cast".toList),
   ("static".toList, .other "static".toList),
   ("\x7b".toList, .other "\x7b".toList),
   ("\x7d".toList, .other "\x7d".toList),
   ("[".toList, .other "[".toList),
   ("]".toList, .other "]".toList),
   ("view".toList, .other "view".toList),
   ("on_update".toList, .onName "on_update".toList),
   ("on_retrieve".toList, .onName "on_retrieve".toList),
   ("on_delete".toList, .onName "on_delete".toList),
   ("on_create".toList, .onName "on_create".toList),
   ("on_insert".toList, .onName "on_insert".toList),
   ("on_navigate".toList, .onName "on_navigate".toList),
   ("on_virtualize".toList, .onName "on_virtualize".toList),
   ("on_store".toList, .onName "on_store".toList),
   ("validate".toList, .other "validate".toList),
   ("grant".toList, .other "grant".toList),
   ("revoke".toList, .other "revoke".toList),
   ("to".toList, .to),
   ("from".toList, .other "from".toList),
   ("on".toList, .other "on".toList),
   ("with".toList, .other "with".toList),
   ("option".toList, .other "option".toList),
   ("read".toList, .other "read".toList),
   ("modify".toList, .other "modify".toList),
   ("user".toList, .other "user".toList),
   ("passwd".toList, .other "passwd".toList),
   ("remove".toList, .other "remove".toList),
   ("index".toList, .index),
   ("virtual objects".toList, .other "virtual objects".toList),
   ("virtualize as".toList, .other "virtualize as".toList),
   ("shows".toList, .other "shows".toList),
   ("associate".toList, .other "associate".toList),
   ("typedef".toList, .other "typedef".toList),
   ("string".toList, .other "string".toList),
   ("double".toList, .other "double".toList),
   ("integer".toList, .other "integer".toList),
   ("boolean".toList, .other "boolean".toList),
   ("tcOFF".toList, .other "tcOFF".toList),
   ("tcON".toList, .other "tcON".toList),
   ("int".toList, .other "int".toList),
   ("(|".toList, .leftExclusive),
   ("|)".toList, .rightExclusive),
   ("<|".toList, .leftInclusive),
   ("|>".toList, .rightInclusive),
   ("|".toList, .indexPar),
   ("throw".toList, .other "throw".toList),
   ("object name is".toList, .other "object name is".toList),
   ("schema".toList, .other "schema".toList),
   ("export".toList, .other "export".toList),
   ("import".toList, .other "import".toList)]

-- ---------------------------------------------------------------------------
-- Lengths of the other matches, 0 where a rule does not match
-- ---------------------------------------------------------------------------

def isLetter (c : Char) : Bool := c == '_' || c.isAlpha

def isWordChar (c : Char) : Bool := isLetter c || c.isDigit

/-- `[_a-zA-Z][_a-zA-Z0-9]*` -/
def wordLength : Text → Nat
  | [] => 0
  | c :: cs => if isLetter c then 1 + (cs.takeWhile isWordChar).length else 0

/-- A name, maybe none, and a name with `::` between them. -/
def extNameLength (cs : Text) : Nat :=
  match cs.drop (wordLength cs) with
  | ':' :: ':' :: rest =>
    if wordLength rest = 0 then 0 else wordLength cs + 2 + wordLength rest
  | _ => 0

/-- A name after a mark. -/
def markedLength (mark : Char) : Text → Nat
  | [] => 0
  | c :: cs => if c = mark ∧ wordLength cs ≠ 0 then 1 + wordLength cs else 0

def cardLength : Text → Nat
  | a :: '.' :: '.' :: b :: _ =>
    if (a = '0' ∨ a = '1') ∧ (b = '0' ∨ b = '1' ∨ b = '\x22' ∨ b = '*') then 4 else 0
  | _ => 0

def digitsLength (cs : Text) : Nat := (cs.takeWhile Char.isDigit).length

def doubleLength (cs : Text) : Nat :=
  match digitsLength cs, cs.drop (digitsLength cs) with
  | 0, _ => 0
  | n, '.' :: rest => if digitsLength rest = 0 then 0 else n + 1 + digitsLength rest
  | _, _ => 0

/-- `refid\([0-9]+\)` -/
def refidLength (cs : Text) : Nat :=
  if "refid(".toList <+: cs then
    let digits := digitsLength (cs.drop 6)
    match digits, cs.drop (6 + digits) with
    | 0, _ => 0
    | _, ')' :: _ => 7 + digits
    | _, _ => 0
  else 0

def commentLength (cs : Text) : Nat := if ['/', '*'] <+: cs then 2 else 0

def stringLength : Text → Nat
  | '\x22' :: cs =>
    let inner := (cs.takeWhile (· ≠ '\x22')).length
    if (cs.drop inner).isEmpty then 0 else inner + 2
  | _ => 0

def isBlank (c : Char) : Bool := c == ' ' || c == '\t' || c == '\r' || c == '\n'

def blankLength (cs : Text) : Nat := (cs.takeWhile isBlank).length

-- ---------------------------------------------------------------------------
-- Scanning
-- ---------------------------------------------------------------------------

inductive Lexeme
  | token (t : Token)
  | comment
  | blank
  deriving DecidableEq

/-- What `atoi` gives for digits. The value of a number that is not an `int` is undefined. -/
def atoi (digits : Text) : Nat := Nat.ofDigitChars 10 digits 0

/-- All rules with the length of their match. -/
def rules (cs : Text) : List (Nat × Lexeme) :=
  keywords.map (fun (text, t) => (if text <+: cs then text.length else 0, .token t)) ++
  [(extNameLength cs, .token (.extName (cs.take (extNameLength cs)))),
   (wordLength cs, .token (.name (cs.take (wordLength cs)))),
   (markedLength '$' cs, .token (.paramName (cs.take (markedLength '$' cs)))),
   (markedLength '%' cs, .token (.systemViewName (cs.take (markedLength '%' cs)))),
   (cardLength cs, .token (.other (cs.take (cardLength cs)))),
   (digitsLength cs, .token (.integer (atoi (cs.take (digitsLength cs))))),
   (doubleLength cs, .token (.double (cs.take (doubleLength cs)))),
   (refidLength cs, .token (.refid (atoi ((cs.drop 6).take (refidLength cs - 7))))),
   (commentLength cs, .comment),
   (stringLength cs, .token (.string ((cs.drop 1).take (stringLength cs - 2)))),
   (blankLength cs, .blank)]

/-- The first of the longest matches. A character that no rule matches is echoed, and the
scanner goes on. -/
def longest (l : List (Nat × Lexeme)) : Nat × Lexeme :=
  l.foldl (fun best rule => if best.1 < rule.1 then rule else best) (0, .blank)

def afterComment : Text → Text
  | '*' :: '/' :: cs => cs
  | _ :: cs => afterComment cs
  | [] => []

theorem afterComment_length_le (cs : Text) : (afterComment cs).length ≤ cs.length := by
  fun_induction afterComment cs with
  | case1 cs => simp; omega
  | case2 c cs h ih => simp; omega
  | case3 => simp

/-- The text after a match. -/
def rest (cs : Text) : Text :=
  let (n, lexeme) := longest (rules cs)
  match lexeme with
  | .comment => afterComment (cs.drop (max n 1))
  | .token _ | .blank => cs.drop (max n 1)

theorem rest_length_lt (c : Char) (cs : Text) : (rest (c :: cs)).length < (c :: cs).length := by
  have hdrop (n : Nat) : ((c :: cs).drop (max n 1)).length < (c :: cs).length := by
    rw [List.length_drop, List.length_cons]
    omega
  unfold rest
  dsimp only
  split
  · exact Nat.lt_of_le_of_lt (afterComment_length_le _) (hdrop _)
  · exact hdrop _
  · exact hdrop _

def scan : Text → List Token
  | [] => []
  | c :: cs =>
    match (longest (rules (c :: cs))).2 with
    | .token t => t :: scan (rest (c :: cs))
    | .comment | .blank => scan (rest (c :: cs))
termination_by cs => cs.length
decreasing_by all_goals exact rest_length_lt c cs

end Loxim.QueryParser
