import Loxim.QueryParser.Lexing
import Loxim.QueryParser.Parser

/-!
# Reading the tokens of a tree

After the tokens of a tree the parser may still have rules of that tree on its stack, because
not every node puts itself in parentheses. What comes next decides whether they are finished
as the tree has them.
-/

namespace Loxim.QueryParser

-- ---------------------------------------------------------------------------
-- Tokens of a tree
-- ---------------------------------------------------------------------------

def onNames : List Text :=
  ["on_update".toList, "on_retrieve".toList, "on_delete".toList, "on_create".toList,
   "on_insert".toList, "on_navigate".toList, "on_virtualize".toList, "on_store".toList]

def nameToken (text : Text) : Token :=
  if text ∈ onNames then .onName text
  else if text.head? = some '%' then .systemViewName text
  else if ':' ∈ text then .extName text
  else .name text

/-- The token that is read where the operator was printed. -/
def UnOp.token : UnOp → Token
  | .unMinus => .infixOp (.alg .minus)
  | .boolNot => .not
  | .deleteOp => .delete
  | .nameof => .name "name".toList
  | op => .unary op

mutual

def Query.tokens : Query → List Token
  | .name name => [nameToken name]
  | .int value | .refid value => [.integer value]
  | .string value => [.string value]
  | .nameAs arg name group => .leftPar :: (arg.tokens ++ [.as group, .name name, .rightPar])
  | .unOp op arg => op.token :: .leftPar :: (arg.tokens ++ [.rightPar])
  | .twoArgs op larg rarg =>
    .leftPar :: (larg.tokens ++ .infixOp op :: (rarg.tokens ++ [.rightPar]))
  | .forEach larg rarg => .forEach :: (larg.tokens ++ .do :: (rarg.tokens ++ [.od]))
  | .create arg => .leftPar :: .create :: (arg.tokens ++ [.rightPar])
  | .createMember arg name =>
    .leftPar :: .create :: .leftPar ::
      (arg.tokens ++ [.as false, .extName name, .rightPar, .rightPar])
  | .ifThen condition larg => .if :: (condition.tokens ++ .then :: (larg.tokens ++ [.fi]))
  | .ifElse condition larg rarg =>
    .if :: (condition.tokens ++ .then :: (larg.tokens ++ .else :: (rarg.tokens ++ [.fi])))
  | .while condition larg => .while :: (condition.tokens ++ .do :: (larg.tokens ++ [.od]))
  | .fixPoint parts => .fixpoint :: .leftPar :: (tokensParts parts ++ [.rightPar])
  | .break => [.break]
  | .return query => .leftPar :: .return :: (query.tokens ++ [.rightPar])
  | .callProc name queries => nameToken name :: .leftPar :: (tokensList queries ++ [.rightPar])
  | .classes op larg rarg =>
    .leftPar :: (larg.tokens ++ .rightPar :: .classOp op :: .leftPar ::
      (rarg.tokens ++ [.rightPar]))
  | .indexExact index value => .index :: .name index :: .infixOp (.alg .eq) :: value.tokens
  | .indexLeft index inclusive value =>
    .index :: .name index :: (if inclusive then .infixOp (.alg .lt) else .leftPar) ::
      (value.tokens ++ [.to, .infixOp (.alg .plus), .name "inf".toList, .rightPar])
  | .indexRight index value inclusive =>
    .index :: .name index :: .leftPar :: .infixOp (.alg .minus) :: .name "inf".toList :: .to ::
      (value.tokens ++ [if inclusive then .infixOp (.alg .gt) else .rightPar])
  | .indexBetween index inclusiveLeft left right inclusiveRight =>
    .index :: .name index :: (if inclusiveLeft then .infixOp (.alg .lt) else .leftPar) ::
      (left.tokens ++ .to :: (right.tokens ++
        [if inclusiveRight then .infixOp (.alg .gt) else .rightPar]))

def tokensParts : List (Text × Query) → List Token
  | [] => []
  | (name, query) :: parts => .name name :: .fixOp :: (query.tokens ++ tokensParts parts)

def tokensList : List Query → List Token
  | [] => []
  | [query] => query.tokens
  | query :: queries => query.tokens ++ .infixOp (.alg .comma) :: tokensList queries

end

-- ---------------------------------------------------------------------------
-- Trees that are read as they are
-- ---------------------------------------------------------------------------

/-- Written before its argument without parentheses around both. -/
def UnOp.isPrefixed (op : UnOp) : Bool := op = .unMinus || op = .boolNot || op = .deleteOp

/-- Operators up to this level may follow the text of the tree. -/
def Query.tightness : Query → Nat
  | .unOp .unMinus _ => 19
  | .unOp .boolNot _ => 15
  | .unOp .deleteOp _ => 4
  | .classes .. => asLevel
  | .indexExact _ value => min 16 value.tightness
  | _ => 21

def Query.isClasses : Query → Bool
  | .classes .. => true
  | _ => false

/-- Two words that begin with a keyword longer than the first one. -/
def joined (word next : Text) : Bool :=
  keywords.any fun (text, _) => decide (word.length < text.length ∧ text <+: word ++ ' ' :: next)

/-- The name is read together with the `as` after it. -/
def joinsAs (arg : Query) (group : Bool) : Bool :=
  match arg with
  | .name word => !group && joined word "as".toList
  | _ => false

mutual

/-- Each node is under a parent that leaves it as it is. -/
def Query.safe : Query → Bool
  | .name _ | .int _ | .string _ | .break => true
  | .refid _ | .createMember .. | .indexLeft .. | .indexRight .. | .indexBetween .. => false
  | .nameAs arg _ group => arg.safe && decide (asLevel ≤ arg.tightness) && !joinsAs arg group
  | .unOp op arg => decide (op ≠ .nameof) && arg.safe
  | .twoArgs op larg rarg =>
    larg.safe && rarg.safe && (decide (op = .alg .comma) ||
      (decide (op.level ≤ larg.tightness) && (!rarg.isClasses || decide (op.level < asLevel))))
  | .forEach larg rarg | .classes _ larg rarg | .ifThen larg rarg | .while larg rarg =>
    larg.safe && rarg.safe
  | .ifElse condition larg rarg => condition.safe && larg.safe && rarg.safe
  | .create arg | .return arg => arg.safe
  | .fixPoint parts => safeParts parts
  | .callProc _ queries => safeList queries
  | .indexExact _ value => value.safe && !value.isClasses

/-- A name is not read together with the name of the next part. -/
def safeParts : List (Text × Query) → Bool
  | [] => true
  | [(_, query)] => query.safe
  | (_, query) :: (next, query') :: parts =>
    query.safe && !(match query with | .name word => joined word next | _ => false) &&
      safeParts ((next, query') :: parts)

def safeList : List Query → Bool
  | [] => true
  | query :: queries => query.safe && safeList queries

end

-- ---------------------------------------------------------------------------
-- Trees that the grammar builds
-- ---------------------------------------------------------------------------

mutual

/-- The names are those that the scanner gives, the numbers are `int`s, a string has no
quotation mark, and a fixpoint has a part. -/
def Query.wellFormed : Query → Bool
  | .name name =>
    isName name || isExtName name || isSystemViewName name || decide (name ∈ onNames)
  | .int value | .refid value => decide (value < 2 ^ 31)
  | .string value => decide ('\x22' ∉ value)
  | .nameAs arg name _ => arg.wellFormed && isName name
  | .unOp _ arg | .create arg | .return arg => arg.wellFormed
  | .twoArgs _ larg rarg | .forEach larg rarg | .classes _ larg rarg | .ifThen larg rarg
  | .while larg rarg => larg.wellFormed && rarg.wellFormed
  | .createMember arg name => arg.wellFormed && isExtName name
  | .ifElse condition larg rarg => condition.wellFormed && larg.wellFormed && rarg.wellFormed
  | .fixPoint parts => !parts.isEmpty && wellFormedParts parts
  | .break => true
  | .callProc name queries => (isName name || isExtName name) && wellFormedList queries
  | .indexExact index value | .indexLeft index _ value | .indexRight index value _ =>
    isName index && value.wellFormed
  | .indexBetween index _ left right _ => isName index && left.wellFormed && right.wellFormed

def wellFormedParts : List (Text × Query) → Bool
  | [] => true
  | (name, query) :: parts => isName name && query.wellFormed && wellFormedParts parts

def wellFormedList : List Query → Bool
  | [] => true
  | query :: queries => query.wellFormed && wellFormedList queries

end

-- ---------------------------------------------------------------------------
-- The stack after a tree
-- ---------------------------------------------------------------------------

variable {t q : Query} {S : List Frame} {level : Nat} {tok : Token}

/-- The rules of a tree that are still on the stack after its tokens. -/
def pending : Query → List Frame
  | .unOp op _ => if op.isPrefixed then [.prefixed op] else []
  | .classes op larg _ => [.classes larg op]
  | .indexExact index value => pending value ++ [.indexExact index]
  | _ => []

/-- The last query of these rules. -/
def core : Query → Query
  | .unOp op arg => if op.isPrefixed then arg else .unOp op arg
  | .classes _ _ rarg => rarg
  | .indexExact _ value => core value
  | q => q

/-- A name may still turn out to be that of a procedure. -/
def lastMode : Query → Mode
  | .name name =>
    match nameToken name with
    | .name _ | .extName _ => .word name
    | _ => .operand (.name name)
  | .indexExact _ value => lastMode value
  | q => .operand (core q)

/-- The state after the tokens of a tree. -/
def after (t : Query) (stack : List Frame) : State := ⟨lastMode t, pending t ++ stack⟩

theorem core_of_pending_nil (h₁ : ∀ op arg, t ≠ .unOp op arg) (h₂ : ∀ op l r, t ≠ .classes op l r)
    (h₃ : ∀ i v, t ≠ .indexExact i v) : core t = t := by
  cases t with
  | unOp op arg => exact absurd rfl (h₁ op arg)
  | classes op l r => exact absurd rfl (h₂ op l r)
  | indexExact i v => exact absurd rfl (h₃ i v)
  | _ => rfl

theorem reduceAll_core (t : Query) (S : List Frame) :
    reduceAll (core t) (pending t ++ S) = reduceAll t S := by
  fun_induction pending t generalizing S with
  | case1 op arg h => simp [core, h, reduceAll, Frame.rule]
  | case2 op arg h => simp [core, h]
  | case3 op larg rarg => simp [core, reduceAll, Frame.rule]
  | case4 index value ih =>
    rw [List.append_assoc, core, ih]
    simp [reduceAll, Frame.rule]
  | case5 t h₁ h₂ h₃ => rw [core_of_pending_nil h₁ h₂ h₃, List.nil_append]

theorem lt_level_of_isPrefixed {op : UnOp} (h : op.isPrefixed = true)
    (hlevel : level ≤ (Query.unOp op q).tightness) : level < op.level := by
  cases op with
  | unMinus | boolNot | deleteOp => exact Nat.lt_succ_of_le hlevel
  | _ => cases h

/-- An operator that may follow finishes the rules of the tree. -/
theorem reduceBy_core (S : List Frame) (hlevel : level ≤ t.tightness) :
    reduceBy level (core t) (pending t ++ S) = reduceBy level t S := by
  fun_induction pending t generalizing S with
  | case1 op arg h =>
    have hlt := lt_level_of_isPrefixed h hlevel
    simp [core, h, reduceBy, Frame.rule, hlt]
  | case2 op arg h => simp [core, h]
  | case3 op larg rarg =>
    rcases Nat.lt_or_eq_of_le hlevel with hlt | rfl
    · have hlt : level < asLevel := hlt
      simp [core, reduceBy, Frame.rule, hlt]
    · simp [core, reduceBy, Frame.rule, Query.tightness, assocOf, asLevel]
  | case4 index value ih =>
    have hboth : level ≤ 16 ∧ level ≤ value.tightness := Nat.le_min.mp hlevel
    have hlt : level < equalLevel := Nat.lt_succ_of_le hboth.1
    rw [List.append_assoc, core, ih _ hboth.2]
    simp [reduceBy, Frame.rule, hlt]
  | case5 t h₁ h₂ h₃ => rw [core_of_pending_nil h₁ h₂ h₃, List.nil_append]

-- ---------------------------------------------------------------------------
-- The token after a tree
-- ---------------------------------------------------------------------------

theorem feed_lastMode (htok : tok ≠ .leftPar) (t : Query) (S : List Frame) :
    feed ⟨lastMode t, S⟩ tok = afterQuery (core t) S tok := by
  fun_induction lastMode t with
  | case1 name _ h =>
    cases tok <;> first | rfl | exact absurd rfl htok
  | case2 name _ h =>
    cases tok <;> first | rfl | exact absurd rfl htok
  | case3 name _ h => rfl
  | case4 index value ih => exact ih
  | case5 q => rfl

/-- Tokens that finish all rules which end with a query. -/
def Token.closes : Token → Bool
  | .infixOp op => op = .alg .comma
  | .leftPar | .refEqual | .classOp _ | .as _ => false
  | _ => true

theorem afterQuery_closes (h : tok.closes = true) :
    afterQuery q S tok = endRule (reduceAll q S).1 (reduceAll q S).2 tok := by
  cases tok with
  | infixOp op =>
    have hop : op = .alg .comma := by simpa [Token.closes] using h
    simp [afterQuery, hop]
  | leftPar | refEqual | classOp | as => cases h
  | _ => rfl

theorem feed_after_closes (h : tok.closes = true) :
    feed (after t S) tok = endRule (reduceAll t S).1 (reduceAll t S).2 tok := by
  have hne : tok ≠ .leftPar := by
    rintro rfl
    cases h
  rw [after, feed_lastMode hne, afterQuery_closes h, reduceAll_core]

theorem feed_after_infixOp {op : BinOp} (hop : op ≠ .alg .comma) (hlevel : op.level ≤ t.tightness) :
    feed (after t S) (.infixOp op) = (reduceBy op.level t S).map fun r =>
      ⟨.expect, .twoArgs r.1 op :: r.2⟩ := by
  have hne : Token.infixOp op ≠ .leftPar := nofun
  rw [after, feed_lastMode hne, afterQuery]
  simp only [hop, if_false, reduceBy_core S hlevel]
  cases reduceBy op.level t S <;> rfl

theorem feed_after_as {group : Bool} (hlevel : asLevel ≤ t.tightness) :
    feed (after t S) (.as group) = (reduceBy asLevel t S).map fun r => ⟨.as r.1 group, r.2⟩ := by
  have hne : Token.as group ≠ .leftPar := nofun
  rw [after, feed_lastMode hne, afterQuery]
  simp only [reduceBy_core S hlevel]
  cases reduceBy asLevel t S <;> rfl

theorem result_lastMode (t : Query) (S : List Frame) :
    State.result ⟨lastMode t, S⟩ = accept (core t) S := by
  fun_induction lastMode t with
  | case1 | case2 | case3 => rfl
  | case4 index value ih => exact ih
  | case5 q => rfl

theorem result_after (t : Query) : (after t []).result = some t := by
  rw [after, result_lastMode, accept, reduceAll_core]
  rfl

-- ---------------------------------------------------------------------------
-- Reading
-- ---------------------------------------------------------------------------

def run (s : State) (tokens : List Token) : Option State := tokens.foldlM feed s

theorem run_cons {s s' : State} {tokens : List Token} (h : feed s tok = some s') :
    run s (tok :: tokens) = run s' tokens := by
  rw [run, List.foldlM_cons, h]
  rfl

theorem run_append {s s' : State} {tokens tokens' : List Token} (h : run s tokens = some s') :
    run s (tokens ++ tokens') = run s' tokens' := by
  rw [run, List.foldlM_append]
  rw [run] at h
  rw [h]
  rfl

/-- The rule on top is not finished by `includes`. -/
def Opened : List Frame → Prop
  | [] => True
  | f :: _ => ∀ r ∈ f.rule, r.1 < asLevel

theorem opened_of_rule_none {f : Frame} (h : f.rule = none) : Opened (f :: S) := by
  simp [Opened, h]

theorem reduceBy_asLevel (h : Opened S) (q : Query) : reduceBy asLevel q S = some (q, S) := by
  cases S with
  | nil => rfl
  | cons f S =>
    cases hrule : f.rule with
    | none => simp [reduceBy, hrule]
    | some r =>
      have hlt : r.1 < asLevel := h r hrule
      have hnot : ¬ asLevel < r.1 := Nat.lt_asymm hlt
      simp [reduceBy, hrule, hlt, hnot]

theorem reduceBy_of_rule_none {f : Frame} (h : f.rule = none) :
    reduceBy level q (f :: S) = some (q, f :: S) := by
  simp [reduceBy, h]

theorem reduceAll_of_rule_none {f : Frame} (h : f.rule = none) :
    reduceAll q (f :: S) = (q, f :: S) := by
  simp [reduceAll, h]

/-- A tree in a rule that ends with a token of its own, and that token. -/
theorem feed_after_endRule {f : Frame} (h : f.rule = none) (htok : tok.closes = true) :
    feed (after t (f :: S)) tok = endRule t (f :: S) tok := by
  rw [feed_after_closes htok, reduceAll_of_rule_none h]

theorem reads_name (name : Text) (S : List Frame) :
    feed ⟨.expect, S⟩ (nameToken name) = some (after (.name name) S) := by
  have hword : nameToken name = .onName name ∨ nameToken name = .systemViewName name ∨
      nameToken name = .extName name ∨ nameToken name = .name name := by
    unfold nameToken
    split
    · exact Or.inl rfl
    · split
      · exact Or.inr (Or.inl rfl)
      · split
        · exact Or.inr (Or.inr (Or.inl rfl))
        · exact Or.inr (Or.inr (Or.inr rfl))
  rcases hword with h | h | h | h <;> simp [h, feed, beginQuery, after, lastMode, pending]

theorem reads_parenthesized {tokens rest : List Token} (S : List Frame)
    (h : run ⟨.expect, .paren [] :: S⟩ tokens = some (after t (.paren [] :: S))) :
    run ⟨.expect, S⟩ (.leftPar :: (tokens ++ .rightPar :: rest)) = run ⟨.operand t, S⟩ rest := by
  refine (run_cons rfl).trans ((run_append h).trans ?_)
  exact run_cons (feed_after_endRule rfl rfl)

theorem reads_unOp {op : UnOp} {arg : Query} (hop : op ≠ .nameof) (S : List Frame)
    (h : ∀ S, Opened S → run ⟨.expect, S⟩ arg.tokens = some (after arg S)) :
    run ⟨.expect, S⟩ (Query.unOp op arg).tokens = some (after (.unOp op arg) S) := by
  have hfunc (hunary : op.isPrefixed = false) (htoken : op.token = .unary op) :
      run ⟨.expect, S⟩ (Query.unOp op arg).tokens = some (after (.unOp op arg) S) := by
    rw [Query.tokens, htoken]
    refine (run_cons rfl).trans ((run_cons rfl).trans ?_)
    refine (run_append (h (.unary op :: S) (opened_of_rule_none rfl))).trans ?_
    refine (run_cons (feed_after_endRule rfl rfl)).trans ?_
    simp [after, lastMode, core, pending, hunary, run]
  have hprefix (hunary : op.isPrefixed = true)
      (hbegin : feed ⟨.expect, S⟩ op.token = some ⟨.expect, .prefixed op :: S⟩) :
      run ⟨.expect, S⟩ (Query.unOp op arg).tokens = some (after (.unOp op arg) S) := by
    rw [Query.tokens]
    refine (run_cons hbegin).trans ?_
    refine (reads_parenthesized _ (h _ (opened_of_rule_none rfl))).trans ?_
    simp [after, lastMode, core, pending, hunary, run]
  cases op with
  | unMinus | boolNot | deleteOp => exact hprefix rfl rfl
  | nameof => exact absurd rfl hop
  | _ => exact hfunc rfl rfl

theorem onNames_keyword : ∀ name ∈ onNames, keyword name = some (.onName name) := by
  decide +kernel

theorem nameToken_of_isName {name : Text} (h : isName name = true) : nameToken name = .name name := by
  rw [isName, Bool.and_eq_true] at h
  obtain ⟨hword, hkeyword⟩ := h
  have hon : name ∉ onNames := by
    intro hmem
    obtain ⟨before, after, hsplit, -⟩ := exists_split_of_keyword (onNames_keyword name hmem)
    simp only [isKeyword, Bool.not_eq_true', List.any_eq_false, decide_eq_true_eq] at hkeyword
    exact hkeyword (name, .onName name) (by simp [hsplit]) rfl
  have hcolon : ':' ∉ name := notMem_of_isWord hword (by decide)
  have hhead : name.head? ≠ some '%' := by
    intro hhead
    exact notMem_of_isWord hword (by decide) (List.mem_of_mem_head? hhead)
  simp [nameToken, hon, hcolon, hhead]

theorem nameToken_of_isExtName {name : Text} (h : isExtName name = true) :
    nameToken name = .extName name := by
  obtain ⟨w₁, w₂, rfl, hw₁, hw₂⟩ := exists_of_isExtName h
  have hon : w₁ ++ ':' :: ':' :: w₂ ∉ onNames := by
    intro hmem
    have hcolon : ∀ name ∈ onNames, ':' ∉ name := by decide +kernel
    exact hcolon _ hmem (by simp)
  have hhead : (w₁ ++ ':' :: ':' :: w₂).head? ≠ some '%' := by
    intro hhead
    have hmem : '%' ∈ w₁ ++ ':' :: ':' :: w₂ := List.mem_of_mem_head? hhead
    have h₁ : '%' ∉ w₁ := by
      rcases hw₁ with rfl | hw₁
      · simp
      · exact notMem_of_isWord hw₁ (by decide)
    have h₂ : '%' ∉ w₂ := notMem_of_isWord hw₂ (by decide)
    simp [h₁, h₂] at hmem
  rw [nameToken, if_neg hon, if_neg hhead, if_pos (by simp)]

theorem nameToken_of_isSystemViewName {name : Text} (h : isSystemViewName name = true) :
    nameToken name = .systemViewName name := by
  simp only [isSystemViewName, decide_eq_true_eq] at h
  obtain ⟨c, cs, rfl⟩ := List.exists_cons_of_ne_nil h.1
  have hc : c = '%' := by
    by_contra hc
    simp [markedLength, hc] at h
  have hon : c :: cs ∉ onNames := by
    intro hmem
    have hhead : ∀ name ∈ onNames, name.head? ≠ some '%' := by decide +kernel
    exact hhead _ hmem (by rw [hc]; rfl)
  rw [nameToken, if_neg hon, if_pos (by rw [hc]; rfl)]

/-- The token of the name of a procedure. -/
theorem reads_procedure {name : Text} (h : (isName name || isExtName name) = true) (S : List Frame) :
    feed ⟨.expect, S⟩ (nameToken name) = some ⟨.word name, S⟩ := by
  rcases Bool.or_eq_true_iff.mp h with h | h
  · rw [nameToken_of_isName h]
    rfl
  · rw [nameToken_of_isExtName h]
    rfl

mutual

/-- The tokens of a tree are read as the tree, up to the rules that what follows finishes. -/
theorem Query.reads (t : Query) (hsafe : t.safe = true) (hwell : t.wellFormed = true)
    (S : List Frame) (hS : t.isClasses = true → Opened S) :
    run ⟨.expect, S⟩ t.tokens = some (after t S) := by
  cases t with
  | name name => exact run_cons (reads_name name S)
  | int | string | «break» => rfl
  | refid | createMember | indexLeft | indexRight | indexBetween => cases hsafe
  | nameAs arg name group =>
    simp only [Query.safe, Bool.and_eq_true, decide_eq_true_eq] at hsafe
    obtain ⟨⟨harg, htight⟩, -⟩ := hsafe
    simp only [Query.wellFormed, Bool.and_eq_true] at hwell
    have hread := arg.reads harg hwell.1 (.paren [] :: S) fun _ => opened_of_rule_none rfl
    have has : feed (after arg (.paren [] :: S)) (.as group) =
        some ⟨.as arg group, .paren [] :: S⟩ := by
      rw [feed_after_as htight, reduceBy_of_rule_none rfl]
      rfl
    refine (run_cons rfl).trans ((run_append hread).trans ?_)
    exact (run_cons has).trans ((run_cons rfl).trans (run_cons rfl))
  | unOp op arg =>
    simp only [Query.safe, Bool.and_eq_true, decide_eq_true_eq] at hsafe
    exact reads_unOp hsafe.1 S fun S hopen => arg.reads hsafe.2 hwell S fun _ => hopen
  | twoArgs op larg rarg =>
    simp only [Query.safe, Bool.and_eq_true, Bool.or_eq_true, decide_eq_true_eq] at hsafe
    obtain ⟨⟨hl, hr⟩, hop⟩ := hsafe
    simp only [Query.wellFormed, Bool.and_eq_true] at hwell
    have hlread := larg.reads hl hwell.1 (.paren [] :: S) fun _ => opened_of_rule_none rfl
    refine (run_cons rfl).trans ((run_append hlread).trans ?_)
    by_cases hcomma : op = .alg .comma
    · subst hcomma
      have hrread := rarg.reads hr hwell.2 (.paren [larg] :: S) fun _ => opened_of_rule_none rfl
      refine (run_cons (feed_after_endRule rfl rfl)).trans ((run_append hrread).trans ?_)
      exact run_cons (feed_after_endRule rfl rfl)
    · obtain ⟨hlevel, hclasses⟩ := hop.resolve_left hcomma
      have hinfix : feed (after larg (.paren [] :: S)) (.infixOp op) =
          some ⟨.expect, .twoArgs larg op :: .paren [] :: S⟩ := by
        rw [feed_after_infixOp hcomma hlevel, reduceBy_of_rule_none rfl]
        rfl
      have hrread := rarg.reads hr hwell.2 (.twoArgs larg op :: .paren [] :: S) fun h => by
        rintro r ⟨rfl⟩
        simpa [h] using hclasses
      refine (run_cons hinfix).trans ((run_append hrread).trans ?_)
      refine run_cons ?_
      rw [feed_after_closes rfl]
      rfl
  | forEach larg rarg =>
    simp only [Query.safe, Bool.and_eq_true] at hsafe
    simp only [Query.wellFormed, Bool.and_eq_true] at hwell
    have hlread := larg.reads hsafe.1 hwell.1 (.eachOf :: S) fun _ => opened_of_rule_none rfl
    have hrread := rarg.reads hsafe.2 hwell.2 (.eachDo larg :: S) fun _ => opened_of_rule_none rfl
    refine (run_cons rfl).trans ((run_append hlread).trans ?_)
    refine (run_cons (feed_after_endRule rfl rfl)).trans ((run_append hrread).trans ?_)
    exact run_cons (feed_after_endRule rfl rfl)
  | create arg =>
    have hread := arg.reads hsafe hwell (.create :: .paren [] :: S) fun _ => by
      rintro r ⟨rfl⟩
      decide
    refine (run_cons rfl).trans ((run_cons rfl).trans ((run_append hread).trans ?_))
    refine run_cons ?_
    rw [feed_after_closes rfl]
    rfl
  | «return» arg =>
    have hread := arg.reads hsafe hwell (.return :: .paren [] :: S) fun _ => by
      rintro r ⟨rfl⟩
      decide
    refine (run_cons rfl).trans ((run_cons rfl).trans ((run_append hread).trans ?_))
    refine run_cons ?_
    rw [feed_after_closes rfl]
    rfl
  | ifThen condition larg =>
    simp only [Query.safe, Bool.and_eq_true] at hsafe
    simp only [Query.wellFormed, Bool.and_eq_true] at hwell
    have hcread := condition.reads hsafe.1 hwell.1 (.ifCondition :: S) fun _ =>
      opened_of_rule_none rfl
    have hlread := larg.reads hsafe.2 hwell.2 (.ifThen condition :: S) fun _ =>
      opened_of_rule_none rfl
    refine (run_cons rfl).trans ((run_append hcread).trans ?_)
    refine (run_cons (feed_after_endRule rfl rfl)).trans ((run_append hlread).trans ?_)
    exact run_cons (feed_after_endRule rfl rfl)
  | ifElse condition larg rarg =>
    simp only [Query.safe, Bool.and_eq_true] at hsafe
    simp only [Query.wellFormed, Bool.and_eq_true] at hwell
    have hcread := condition.reads hsafe.1.1 hwell.1.1 (.ifCondition :: S) fun _ =>
      opened_of_rule_none rfl
    have hlread := larg.reads hsafe.1.2 hwell.1.2 (.ifThen condition :: S) fun _ =>
      opened_of_rule_none rfl
    have hrread := rarg.reads hsafe.2 hwell.2 (.ifElse condition larg :: S) fun _ =>
      opened_of_rule_none rfl
    refine (run_cons rfl).trans ((run_append hcread).trans ?_)
    refine (run_cons (feed_after_endRule rfl rfl)).trans ((run_append hlread).trans ?_)
    refine (run_cons (feed_after_endRule rfl rfl)).trans ((run_append hrread).trans ?_)
    exact run_cons (feed_after_endRule rfl rfl)
  | «while» condition larg =>
    simp only [Query.safe, Bool.and_eq_true] at hsafe
    simp only [Query.wellFormed, Bool.and_eq_true] at hwell
    have hcread := condition.reads hsafe.1 hwell.1 (.whileCondition :: S) fun _ =>
      opened_of_rule_none rfl
    have hlread := larg.reads hsafe.2 hwell.2 (.whileDo condition :: S) fun _ =>
      opened_of_rule_none rfl
    refine (run_cons rfl).trans ((run_append hcread).trans ?_)
    refine (run_cons (feed_after_endRule rfl rfl)).trans ((run_append hlread).trans ?_)
    exact run_cons (feed_after_endRule rfl rfl)
  | fixPoint parts =>
    simp only [Query.wellFormed, Bool.and_eq_true] at hwell
    refine (run_cons rfl).trans ((run_cons rfl).trans ?_)
    have hne : parts ≠ [] := by simpa using hwell.1
    exact readsParts parts hsafe hwell.2 hne [] (S := S) fun _ => rfl
  | callProc name queries =>
    simp only [Query.wellFormed, Bool.and_eq_true] at hwell
    refine (run_cons (reads_procedure hwell.1 S)).trans ((run_cons rfl).trans ?_)
    by_cases hne : queries = []
    · subst hne
      rfl
    · exact readsList queries hsafe hwell.2 hne name [] S
  | classes op larg rarg =>
    simp only [Query.safe, Bool.and_eq_true] at hsafe
    simp only [Query.wellFormed, Bool.and_eq_true] at hwell
    have hlread := larg.reads hsafe.1 hwell.1 (.paren [] :: S) fun _ => opened_of_rule_none rfl
    have hclass : feed ⟨.operand larg, S⟩ (.classOp op) = some ⟨.expect, .classes larg op :: S⟩ := by
      show afterQuery larg S (.classOp op) = _
      rw [afterQuery, reduceBy_asLevel (hS rfl)]
      rfl
    have hrread := rarg.reads hsafe.2 hwell.2 (.paren [] :: .classes larg op :: S) fun _ =>
      opened_of_rule_none rfl
    refine (reads_parenthesized S hlread).trans ((run_cons hclass).trans ?_)
    exact reads_parenthesized _ hrread
  | indexExact index value =>
    simp only [Query.safe, Bool.and_eq_true] at hsafe
    simp only [Query.wellFormed, Bool.and_eq_true] at hwell
    have hread := value.reads hsafe.1 hwell.2 (.indexExact index :: S) fun h => by
      simp [h] at hsafe
    refine (run_cons rfl).trans ((run_cons rfl).trans ((run_cons rfl).trans (hread.trans ?_)))
    simp [after, lastMode, pending]

theorem readsParts (parts : List (Text × Query)) (hsafe : safeParts parts = true)
    (hwell : wellFormedParts parts = true) (hne : parts ≠ []) (done : List (Text × Query))
    {s : State} {S : List Frame} (hs : ∀ name, feed s (.name name) = some ⟨.fixOp done name, S⟩) :
    run s (tokensParts parts ++ [.rightPar]) =
      some ⟨.operand (.fixPoint (done ++ parts)), S⟩ := by
  match parts with
  | [] => exact absurd rfl hne
  | [(name, query)] =>
    simp only [wellFormedParts, Bool.and_eq_true] at hwell
    have hread := query.reads hsafe hwell.1.2 (.fix done name :: S) fun _ => opened_of_rule_none rfl
    rw [tokensParts, tokensParts, List.append_nil]
    refine (run_cons (hs name)).trans ((run_cons rfl).trans ((run_append hread).trans ?_))
    exact run_cons (feed_after_endRule rfl rfl)
  | (name, query) :: (name', query') :: parts =>
    rw [wellFormedParts, Bool.and_eq_true, Bool.and_eq_true] at hwell
    unfold safeParts at hsafe
    rw [Bool.and_eq_true, Bool.and_eq_true] at hsafe
    have hread := query.reads hsafe.1.1 hwell.1.2 (.fix done name :: S) fun _ =>
      opened_of_rule_none rfl
    have hnext (next : Text) : feed (after query (.fix done name :: S)) (.name next) =
        some ⟨.fixOp (done ++ [(name, query)]) next, S⟩ := feed_after_endRule rfl rfl
    have hrest := readsParts ((name', query') :: parts) hsafe.2 hwell.2 nofun
      (done ++ [(name, query)]) hnext
    rw [tokensParts, List.cons_append, List.cons_append, List.append_assoc]
    refine (run_cons (hs name)).trans ((run_cons rfl).trans ((run_append hread).trans ?_))
    refine hrest.trans ?_
    rw [List.append_assoc]
    rfl

theorem readsList (queries : List Query) (hsafe : safeList queries = true)
    (hwell : wellFormedList queries = true) (hne : queries ≠ []) (name : Text) (done : List Query)
    (S : List Frame) :
    run ⟨.expect, .args name done :: S⟩ (tokensList queries ++ [.rightPar]) =
      some ⟨.operand (.callProc name (done ++ queries)), S⟩ := by
  match queries with
  | [] => exact absurd rfl hne
  | [query] =>
    simp only [safeList, wellFormedList, Bool.and_true] at hsafe hwell
    have hread := query.reads hsafe hwell (.args name done :: S) fun _ => opened_of_rule_none rfl
    refine (run_append hread).trans ?_
    exact run_cons (feed_after_endRule rfl rfl)
  | query :: query' :: queries =>
    rw [safeList, Bool.and_eq_true] at hsafe
    rw [wellFormedList, Bool.and_eq_true] at hwell
    have hread := query.reads hsafe.1 hwell.1 (.args name done :: S) fun _ => opened_of_rule_none rfl
    rw [tokensList, List.append_assoc]
    · refine (run_append hread).trans ((run_cons (feed_after_endRule rfl rfl)).trans ?_)
      refine (readsList (query' :: queries) hsafe.2 hwell.2 nofun name (done ++ [query]) S).trans ?_
      rw [List.append_assoc]
      rfl
    · nofun

end

end Loxim.QueryParser
