import Loxim.QueryParser.Reading

/-!
# The text of a tree, scanned and parsed again

Every text begins and ends with a blank, so that only a name and the word after it can be read
as one keyword.
-/

namespace Loxim.QueryParser

variable {w k r next : Text} {c : Char} {tok : Token}

-- ---------------------------------------------------------------------------
-- Names before other words
-- ---------------------------------------------------------------------------

theorem firstWords_create : ∀ k ∈ firstWords, k = "create".toList ∨ ' ' ∈ k ∨
    k.take 6 ≠ "create".toList ∧ ¬ k <+: "create".toList := by
  decide +kernel

theorem find_token_mem {text : Text}
    (h : (keywords.find? fun rule => rule.2 = tok) = some (text, tok)) : (text, tok) ∈ keywords :=
  List.mem_of_find?_eq_some h

theorem create_mem_keywords : ("create".toList, .create) ∈ keywords := find_token_mem rfl

theorem not_isName_of_mem {k : Text} (h : (k, tok) ∈ keywords) : isName k = false := by
  have hkeyword : isKeyword k = true := List.any_eq_true.mpr ⟨(k, tok), h, by simp⟩
  simp [isName, hkeyword]

theorem not_create_prefix (hfirst : k ∈ firstWords) (hname : isName k = true) :
    ¬ "create".toList <+: k ++ ' ' :: next := by
  intro hprefix
  rcases firstWords_create k hfirst with rfl | hblank | ⟨htake, hshort⟩
  · rw [not_isName_of_mem create_mem_keywords] at hname
    cases hname
  · rw [isName, Bool.and_eq_true] at hname
    exact notMem_of_isWord hname.1 (by decide) hblank
  · rcases List.prefix_or_prefix_of_prefix hprefix (List.prefix_append k _) with h | h
    · exact htake (List.prefix_iff_eq_take.mp h).symm
    · exact hshort h

/-- A keyword longer than a name goes on with another word. -/
theorem exists_next_of_longer (hw : isName w = true) {rule : Text × Token}
    (hrule : rule ∈ keywords) ( hprefix : rule.1 <+: w ++ ' ' :: r)
    (hlonger : w.length < rule.1.length) :
    ∃ next ∈ lastWords, rule.1 = w ++ ' ' :: next ∧ next <+: r := by
  have hblank := append_singleton_prefix hprefix hlonger
  obtain ⟨next, htext, hfirst, -, -, hlast⟩ := keyword_blank_of_prefix hrule hblank
  refine ⟨next, hlast.resolve_left ?_, htext, ?_⟩
  · rw [htext]
    exact not_create_prefix hfirst hw
  · rw [htext] at hprefix
    simpa using hprefix

/-- The text begins with something else than the second word of a keyword. -/
def isApart (text : Text) : Bool := lastWords.all fun next => !(next <+: text) && !(text <+: next)

theorem apart_of_isApart {text : Text} (hw : isName w = true) (htext : isApart text = true)
    (r : Text) : Apart w (' ' :: (text ++ r)) := by
  intro rule hrule hprefix
  by_contra hlonger
  obtain ⟨next, hlast, -, hnext⟩ :=
    exists_next_of_longer hw hrule hprefix (Nat.lt_of_not_le hlonger)
  have hapart := List.all_eq_true.mp htext next hlast
  simp only [Bool.and_eq_true, Bool.not_eq_true', decide_eq_false_iff_not] at hapart
  rcases List.prefix_or_prefix_of_prefix hnext (List.prefix_append text r) with h | h
  · exact hapart.1 h
  · exact hapart.2 h

/-- Neither the next word nor what follows it makes a keyword of the name. -/
theorem apart_of_joined (hw : isName w = true) (hjoined : joined w next = false)
    (hr : ∀ x ∈ lastWords, next ++ [' '] <+: x → ¬ x <+: next ++ ' ' :: r) :
    Apart w (' ' :: (next ++ ' ' :: r)) := by
  intro rule hrule hprefix
  by_contra hlonger
  have hlonger := Nat.lt_of_not_le hlonger
  obtain ⟨x, hlast, htext, hx⟩ := exists_next_of_longer hw hrule hprefix hlonger
  have hnot : ¬ next ++ [' '] <+: x := fun h => hr x hlast h hx
  have hblank : next ++ [' '] <+: next ++ ' ' :: r := by simp
  rcases List.prefix_or_prefix_of_prefix hx hblank with h | h
  · rcases List.prefix_concat_iff.mp h with rfl | h
    · exact hnot List.prefix_rfl
    · simp only [joined, List.any_eq_false, decide_eq_true_eq] at hjoined
      refine hjoined rule hrule ⟨hlonger, ?_⟩
      rw [htext]
      simpa using h
  · exact hnot h

theorem lastWords_as : ∀ x ∈ lastWords, ¬ "as".toList ++ [' '] <+: x := by
  decide +kernel

theorem lastWords_plain : ∀ x ∈ lastWords, ':' ∉ x ∧ x.getLast? ≠ some ' ' := by
  decide +kernel

theorem apart_as (hw : isName w = true) (hjoined : joined w "as".toList = false) (r : Text) :
    Apart w (' ' :: ("as ".toList ++ r)) :=
  apart_of_joined hw hjoined fun x hx h => absurd h (lastWords_as x hx)

/-- A name before the next part of a fixpoint. -/
theorem apart_part (hw : isName w = true) (hjoined : joined w next = false) (r : Text) :
    Apart w (' ' :: (next ++ (" :-".toList ++ r))) := by
  show Apart w (' ' :: (next ++ ' ' :: ':' :: '-' :: r))
  refine apart_of_joined hw hjoined fun x hx h hprefix => ?_
  obtain ⟨hcolon, hlast⟩ := lastWords_plain x hx
  obtain ⟨s, rfl⟩ := h
  cases s with
  | nil => simp at hlast
  | cons c s =>
    have hc : c = ':' := by
      have hprefix : c :: s <+: ':' :: '-' :: r := by simpa using hprefix
      exact (List.cons_prefix_cons.mp hprefix).1
    simp [hc] at hcolon

-- ---------------------------------------------------------------------------
-- Keywords as they are printed
-- ---------------------------------------------------------------------------

theorem AlgOp.text_mem (op : AlgOp) : (op.text, .infixOp (.alg op)) ∈ keywords := by
  cases op <;> exact find_token_mem rfl

theorem NonAlgOp.text_mem (op : NonAlgOp) : (op.text, .infixOp (.nonAlg op)) ∈ keywords := by
  cases op <;> exact find_token_mem rfl

theorem BinOp.text_mem (op : BinOp) : (op.text, .infixOp op) ∈ keywords := by
  cases op with
  | alg op => exact op.text_mem
  | nonAlg op => exact op.text_mem

theorem ClassOp.text_mem (op : ClassOp) : (op.text, .classOp op) ∈ keywords := by
  cases op <;> exact find_token_mem rfl

theorem UnOp.text_mem {op : UnOp} (h : op ≠ .nameof) : (op.text, op.token) ∈ keywords := by
  cases op with
  | nameof => exact absurd rfl h
  | _ => exact find_token_mem rfl

theorem UnOp.token_isPrinted (op : UnOp) : op.token.isPrinted = true := by
  cases op <;> rfl

theorem scan_printed (h : (k, tok) ∈ keywords) (hprinted : tok.isPrinted = true) (r : Text) :
    scan (k ++ ' ' :: r) = tok :: scan r := by
  obtain ⟨hplain, hfirst⟩ := keyword_printed h hprinted
  exact scan_plain_blank (keyword_of_mem h) hplain hfirst

theorem deParse_head (t : Query) : ∃ s, t.deParse = ' ' :: s := by
  cases t <;> exact ⟨_, rfl⟩

/-- A keyword before a query. -/
theorem scan_before (h : (k, tok) ∈ keywords) (hprinted : tok.isPrinted = true) (t : Query)
    (r : Text) : scan (k ++ (t.deParse ++ r)) = tok :: scan (t.deParse ++ r) := by
  obtain ⟨s, hs⟩ := deParse_head t
  rw [hs, List.cons_append, scan_printed h hprinted, scan_blank rfl]

theorem scan_leftPar (hc : c ≠ '|') : scan ('(' :: c :: r) = .leftPar :: scan (c :: r) := by
  refine scan_keyword (k := ['(']) (r := c :: r) (keyword_of_mem (find_token_mem rfl)) nofun ?_ ?_
  · intro rule hrule hprefix
    cases htext : rule.1 with
    | nil => exact Nat.zero_le _
    | cons d text =>
      rw [htext] at hprefix
      obtain ⟨rfl, htail⟩ := List.cons_prefix_cons.mp hprefix
      rcases (keywords_par hrule).2.2.1 (by rw [htext]; rfl) with h | h
      · rw [← htext, h]
      · rw [htext] at h
        rw [(List.cons.inj h).2] at htail
        exact absurd (List.cons_prefix_cons.mp htail).1.symm hc
  · intro y hy
    have hzero := otherRules_symbol (c := '(') (by decide) (by decide) (by simp) (by simp) y hy
    exact Nat.le_trans (Nat.le_of_eq hzero) (Nat.zero_le _)

theorem scan_rightPar (r : Text) : scan (')' :: r) = .rightPar :: scan r := by
  refine scan_keyword (k := [')']) (r := r) (keyword_of_mem (find_token_mem rfl)) nofun ?_ ?_
  · intro rule hrule hprefix
    cases htext : rule.1 with
    | nil => exact Nat.zero_le _
    | cons d text =>
      rw [htext] at hprefix
      obtain ⟨rfl, -⟩ := List.cons_prefix_cons.mp hprefix
      rw [← htext, (keywords_par hrule).2.2.2 (by rw [htext]; rfl)]
  · intro y hy
    have hzero := otherRules_symbol (c := ')') (by decide) (by decide) (by simp) (by simp) y hy
    exact Nat.le_trans (Nat.le_of_eq hzero) (Nat.zero_le _)

theorem scan_close (r : Text) : scan (") ".toList ++ r) = .rightPar :: scan r := by
  show scan (')' :: ' ' :: r) = _
  rw [scan_rightPar, scan_blank rfl]

/-- An opening parenthesis before a query. -/
theorem scan_open (t : Query) (r : Text) :
    scan ("(".toList ++ (t.deParse ++ r)) = .leftPar :: scan (t.deParse ++ r) := by
  obtain ⟨s, hs⟩ := deParse_head t
  rw [hs]
  exact scan_leftPar (by decide)

theorem scan_blank_append (r : Text) : scan (" ".toList ++ r) = scan r := scan_blank rfl

theorem scan_blank_open (t : Query) (r : Text) :
    scan (" (".toList ++ (t.deParse ++ r)) = .leftPar :: scan (t.deParse ++ r) := by
  show scan (' ' :: ("(".toList ++ (t.deParse ++ r))) = _
  rw [scan_blank rfl, scan_open]

/-- A keyword between a blank and a query. -/
theorem scan_blank_before (text : Text) (h : (k, tok) ∈ keywords) (hprinted : tok.isPrinted = true)
    (htext : text = ' ' :: k) (t : Query) (r : Text) :
    scan (text ++ (t.deParse ++ r)) = tok :: scan (t.deParse ++ r) := by
  rw [htext, List.cons_append, scan_blank rfl, scan_before h hprinted]

/-- A keyword at the end of a query. -/
theorem scan_last (text : Text) (h : (k, tok) ∈ keywords) (hprinted : tok.isPrinted = true)
    (htext : text = k ++ [' ']) (r : Text) : scan (text ++ r) = tok :: scan r := by
  rw [htext, List.append_assoc]
  exact scan_printed h hprinted r

/-- A keyword before a query in parentheses. -/
theorem scan_function (h : (k, tok) ∈ keywords) (hprinted : tok.isPrinted = true) (t : Query)
    (r : Text) :
    scan (k ++ ("(".toList ++ (t.deParse ++ r))) = tok :: .leftPar :: scan (t.deParse ++ r) := by
  obtain ⟨hplain, -⟩ := keyword_printed h hprinted
  have hne : k ≠ [] := by
    rintro rfl
    cases hplain
  rw [← scan_open]
  obtain ⟨s, hs⟩ := deParse_head t
  rw [hs]
  refine scan_plain (keyword_of_mem h) hplain ⟨stops_leftPar ?_, by decide⟩ (apart_leftPar hne _)
  rintro d ⟨rfl⟩
  rfl

theorem scan_return (t : Query) (r : Text) :
    scan (" (return ".toList ++ (t.deParse ++ r)) =
      .leftPar :: .return :: scan (t.deParse ++ r) := by
  show scan (' ' :: '(' :: 'r' :: ("eturn".toList ++ ' ' :: (t.deParse ++ r))) = _
  rw [scan_blank rfl, scan_leftPar (by decide)]
  have hreturn := scan_printed (find_token_mem rfl : ("return".toList, .return) ∈ keywords) rfl
    (t.deParse ++ r)
  exact congrArg (List.cons Token.leftPar) hreturn

/-- Two blanks keep `create` from being read together with the next word. -/
theorem scan_create (t : Query) (r : Text) :
    scan (" (create ".toList ++ (t.deParse ++ r)) =
      .leftPar :: .create :: scan (t.deParse ++ r) := by
  obtain ⟨s, hs⟩ := deParse_head t
  have hcreate : scan ("create".toList ++ ' ' :: ' ' :: (s ++ r)) =
      .create :: scan (' ' :: ' ' :: (s ++ r)) :=
    scan_plain (keyword_of_mem create_mem_keywords) (by decide +kernel)
      ⟨stops_blank _, by decide⟩ (apart_blanks _ _)
  rw [scan_blank rfl] at hcreate
  rw [hs]
  show scan (' ' :: '(' :: 'c' :: ("reate".toList ++ ' ' :: ' ' :: (s ++ r))) = _
  rw [scan_blank rfl, scan_leftPar (by decide)]
  exact congrArg (List.cons Token.leftPar) hcreate

-- ---------------------------------------------------------------------------
-- Names as they are printed
-- ---------------------------------------------------------------------------

/-- The name is read as it stands before this text. -/
def Clear (t : Query) (r : Text) : Prop := ∀ w, t = .name w → isName w = true → Apart w (' ' :: r)

theorem clear_of_isApart {text : Text} (h : isApart text = true) (t : Query) (r : Text) :
    Clear t (text ++ r) :=
  fun _ _ hw => apart_of_isApart hw h r

theorem onNames_mem : ∀ name ∈ onNames, (name, .onName name) ∈ keywords := by
  intro name hname
  simp only [onNames, List.mem_cons, List.not_mem_nil, or_false] at hname
  rcases hname with rfl | rfl | rfl | rfl | rfl | rfl | rfl | rfl <;> exact find_token_mem rfl

theorem scan_nameToken (hwell : (Query.name w).wellFormed = true) (hr : Clear (.name w) r) :
    scan (w ++ (" ".toList ++ r)) = [nameToken w] ++ scan r := by
  show scan (w ++ ' ' :: r) = nameToken w :: scan r
  simp only [Query.wellFormed, Bool.or_eq_true, decide_eq_true_eq] at hwell
  rcases hwell with ((h | h) | h) | h
  · rw [scan_name h (stops_blank r) (hr w rfl h), nameToken_of_isName h, scan_blank rfl]
  · rw [scan_extName h (stops_blank r), nameToken_of_isExtName h, scan_blank rfl]
  · rw [scan_systemViewName h, nameToken_of_isSystemViewName h]
  · rw [scan_printed (onNames_mem w h) rfl, nameToken, if_pos h]

theorem scan_integer_blank (value : Nat) (r : Text) :
    scan (Nat.toDigits 10 value ++ (" ".toList ++ r)) = [.integer value] ++ scan r := by
  have hblank : " ".toList ++ r = ' ' :: r := rfl
  rw [hblank, scan_integer]
  rfl

theorem isWord_of_isName (h : isName w = true) : isWord w = true := (Bool.and_eq_true_iff.mp h).1

theorem stops_rightPar (r : Text) : Stops (')' :: r) := ⟨by decide, by decide, by simp⟩

theorem scan_name_close (h : isName w = true) (r : Text) :
    scan (w ++ (") ".toList ++ r)) = .name w :: .rightPar :: scan r := by
  rw [← scan_close]
  exact scan_name h (stops_rightPar _) (apart_rightPar (isWord_of_isName h) _)

theorem scan_as (group : Bool) (h : isName w = true) (r : Text) :
    scan (asText group ++ (w ++ (") ".toList ++ r))) =
      .as group :: .name w :: .rightPar :: scan r := by
  rw [← scan_name_close h]
  cases group with
  | false => exact scan_last _ (find_token_mem rfl : ("as".toList, .as false) ∈ keywords) rfl rfl _
  | true => exact scan_last _ (find_token_mem rfl : ("group as".toList, .as true) ∈ keywords) rfl rfl _

/-- The name of a procedure before its arguments. -/
theorem scan_procedure (h : (isName w || isExtName w) = true) (hr : Stops ('(' :: r)) :
    scan (w ++ '(' :: r) = nameToken w :: scan ('(' :: r) := by
  rcases Bool.or_eq_true_iff.mp h with h | h
  · have hne : w ≠ [] := by
      rintro rfl
      cases h
    rw [scan_name h hr (apart_leftPar hne r), nameToken_of_isName h]
  · rw [scan_extName h hr, nameToken_of_isExtName h]

/-- The name of an index, or of a part of a fixpoint, before a symbol. -/
theorem scan_name_before (h : isName w = true) {text : Text} (htext : isApart text = true)
    (r : Text) : scan (w ++ ' ' :: (text ++ r)) = .name w :: scan (text ++ r) := by
  rw [scan_name h (stops_blank _) (apart_of_isApart h htext r), scan_blank rfl]

-- ---------------------------------------------------------------------------
-- Trees
-- ---------------------------------------------------------------------------

theorem isApart_op (op : BinOp) : isApart op.text = true := by
  cases op with
  | alg op => cases op <;> decide +kernel
  | nonAlg op => cases op <;> decide +kernel

theorem clear_close (t : Query) (r : Text) : Clear t (") ".toList ++ r) :=
  clear_of_isApart (by decide +kernel) t r

theorem clear_asText {arg : Query} {group : Bool} (h : joinsAs arg group = false) (r : Text) :
    Clear arg (asText group ++ r) := by
  rintro w rfl hw
  cases group with
  | true => exact apart_of_isApart hw (by decide +kernel) r
  | false => exact apart_as hw (by simpa [joinsAs] using h) r

/-- A keyword between two queries. -/
theorem scans_before {t t' : Query} (h : (k, tok) ∈ keywords) (hprinted : tok.isPrinted = true)
    (hapart : isApart k = true)
    (ht : ∀ r, Clear t r → scan (t.deParse ++ r) = t.tokens ++ scan r) (r : Text) :
    scan (t.deParse ++ (k ++ (t'.deParse ++ r))) = t.tokens ++ tok :: scan (t'.deParse ++ r) := by
  rw [ht _ (clear_of_isApart hapart t _), scan_before h hprinted]

/-- A keyword after the last query. -/
theorem scans_last {t : Query} (text : Text) (h : (k, tok) ∈ keywords)
    (hprinted : tok.isPrinted = true) (htext : text = k ++ [' ']) (hapart : isApart text = true)
    (ht : ∀ r, Clear t r → scan (t.deParse ++ r) = t.tokens ++ scan r) (r : Text) :
    scan (t.deParse ++ (text ++ r)) = t.tokens ++ tok :: scan r := by
  rw [ht _ (clear_of_isApart hapart t _), scan_last text h hprinted htext]

theorem scans_close {t : Query} (ht : ∀ r, Clear t r → scan (t.deParse ++ r) = t.tokens ++ scan r)
    (r : Text) : scan (t.deParse ++ (") ".toList ++ r)) = t.tokens ++ .rightPar :: scan r := by
  rw [ht _ (clear_close t r), scan_close]

theorem deParseList_cons (query : Query) (queries : List Query) :
    ∃ s, deParseList (query :: queries) = query.deParse ++ s := by
  cases queries with
  | nil => exact ⟨[], (List.append_nil _).symm⟩
  | cons query' queries =>
    refine ⟨",".toList ++ deParseList (query' :: queries), ?_⟩
    rw [← List.append_assoc]
    rfl

theorem deParseList_head (queries : List Query) (r : Text) :
    ∀ d ∈ (deParseList queries ++ (") ".toList ++ r)).head?, d = ' ' ∨ d = ')' := by
  cases queries with
  | nil =>
    rintro d ⟨rfl⟩
    exact Or.inr rfl
  | cons query queries =>
    obtain ⟨s, hs⟩ := deParseList_cons query queries
    obtain ⟨s', hs'⟩ := deParse_head query
    rw [hs, hs']
    rintro d ⟨rfl⟩
    exact Or.inl rfl

theorem scan_comma (query : Query) (queries : List Query) (r : Text) :
    scan (",".toList ++ (deParseList (query :: queries) ++ r)) =
      .infixOp (.alg .comma) :: scan (deParseList (query :: queries) ++ r) := by
  obtain ⟨s, hs⟩ := deParseList_cons query queries
  rw [hs, List.append_assoc]
  exact scan_before (AlgOp.text_mem .comma) rfl query (s ++ r)

/-- The name of a part before its query. -/
theorem scan_part (h : isName w = true) (t : Query) (r : Text) :
    scan (w ++ (" :-".toList ++ (t.deParse ++ r))) = .name w :: .fixOp :: scan (t.deParse ++ r) := by
  have hfix : (":-".toList, .fixOp) ∈ keywords := find_token_mem rfl
  rw [← scan_before hfix rfl]
  exact scan_name_before h (by decide +kernel) _

mutual

/-- The text of a tree is scanned as its tokens. -/
theorem Query.scans (t : Query) (hsafe : t.safe = true) (hwell : t.wellFormed = true) (r : Text)
    (hr : Clear t r) : scan (t.deParse ++ r) = t.tokens ++ scan r := by
  cases t with
  | name name =>
    show scan (" ".toList ++ name ++ " ".toList ++ r) = _
    simp only [List.append_assoc]
    rw [scan_blank_append]
    exact scan_nameToken hwell hr
  | int value =>
    show scan (" ".toList ++ Nat.toDigits 10 value ++ " ".toList ++ r) = _
    simp only [List.append_assoc]
    rw [scan_blank_append]
    exact scan_integer_blank value r
  | string value =>
    have hquote : '\x22' ∉ value := by simpa [Query.wellFormed] using hwell
    show scan (" \"".toList ++ value ++ "\" ".toList ++ r) = _
    simp only [List.append_assoc]
    show scan (' ' :: '\x22' :: (value ++ '\x22' :: ' ' :: r)) = _
    rw [scan_blank rfl, scan_string hquote, scan_blank rfl]
    rfl
  | refid | createMember | indexLeft | indexRight | indexBetween => cases hsafe
  | «break» =>
    have hbreak := scan_printed (find_token_mem rfl : ("break".toList, .break) ∈ keywords) rfl r
    exact (scan_blank rfl).trans hbreak
  | nameAs arg name group =>
    simp only [Query.safe, Bool.and_eq_true, Bool.not_eq_true'] at hsafe
    simp only [Query.wellFormed, Bool.and_eq_true] at hwell
    show scan (" (".toList ++ arg.deParse ++ asText group ++ name ++ ") ".toList ++ r) = _
    simp only [List.append_assoc]
    rw [scan_blank_open, arg.scans hsafe.1.1 hwell.1 _ (clear_asText hsafe.2 _),
      scan_as group hwell.2]
    simp [Query.tokens]
  | unOp op arg =>
    simp only [Query.safe, Bool.and_eq_true, decide_eq_true_eq] at hsafe
    show scan (" ".toList ++ op.text ++ "(".toList ++ arg.deParse ++ ") ".toList ++ r) = _
    simp only [List.append_assoc]
    rw [scan_blank_append, scan_function (UnOp.text_mem hsafe.1) op.token_isPrinted,
      scans_close (arg.scans hsafe.2 hwell)]
    simp [Query.tokens]
  | twoArgs op larg rarg =>
    simp only [Query.safe, Bool.and_eq_true] at hsafe
    simp only [Query.wellFormed, Bool.and_eq_true] at hwell
    show scan (" (".toList ++ larg.deParse ++ op.text ++ rarg.deParse ++ ") ".toList ++ r) = _
    simp only [List.append_assoc]
    rw [scan_blank_open, scans_before op.text_mem rfl (isApart_op op) (larg.scans hsafe.1.1 hwell.1),
      scans_close (rarg.scans hsafe.1.2 hwell.2)]
    simp [Query.tokens]
  | forEach larg rarg =>
    simp only [Query.safe, Bool.and_eq_true] at hsafe
    simp only [Query.wellFormed, Bool.and_eq_true] at hwell
    have heach : ("for each".toList, .forEach) ∈ keywords := find_token_mem rfl
    have hdo : ("do".toList, .do) ∈ keywords := find_token_mem rfl
    have hod : ("od".toList, .od) ∈ keywords := find_token_mem rfl
    show scan (" for each".toList ++ larg.deParse ++ "do".toList ++ rarg.deParse ++ "od ".toList ++ r) = _
    simp only [List.append_assoc]
    rw [scan_blank_before " for each".toList heach rfl rfl,
      scans_before hdo rfl (by decide +kernel) (larg.scans hsafe.1 hwell.1),
      scans_last "od ".toList hod rfl rfl (by decide +kernel)
        (rarg.scans hsafe.2 hwell.2)]
    simp [Query.tokens]
  | create arg =>
    show scan (" (create ".toList ++ arg.deParse ++ ") ".toList ++ r) = _
    simp only [List.append_assoc]
    rw [scan_create, scans_close (arg.scans hsafe hwell)]
    simp [Query.tokens]
  | «return» arg =>
    show scan (" (return ".toList ++ arg.deParse ++ ") ".toList ++ r) = _
    simp only [List.append_assoc]
    rw [scan_return, scans_close (arg.scans hsafe hwell)]
    simp [Query.tokens]
  | ifThen condition larg =>
    simp only [Query.safe, Bool.and_eq_true] at hsafe
    simp only [Query.wellFormed, Bool.and_eq_true] at hwell
    have hif : ("if".toList, .if) ∈ keywords := find_token_mem rfl
    have hthen : ("then".toList, .then) ∈ keywords := find_token_mem rfl
    have hfi : ("fi".toList, .fi) ∈ keywords := find_token_mem rfl
    show scan (" if".toList ++ condition.deParse ++ "then".toList ++ larg.deParse ++ "fi ".toList ++ r) = _
    simp only [List.append_assoc]
    rw [scan_blank_before " if".toList hif rfl rfl,
      scans_before hthen rfl (by decide +kernel) (condition.scans hsafe.1 hwell.1),
      scans_last "fi ".toList hfi rfl rfl (by decide +kernel)
        (larg.scans hsafe.2 hwell.2)]
    simp [Query.tokens]
  | ifElse condition larg rarg =>
    simp only [Query.safe, Bool.and_eq_true] at hsafe
    simp only [Query.wellFormed, Bool.and_eq_true] at hwell
    have hif : ("if".toList, .if) ∈ keywords := find_token_mem rfl
    have hthen : ("then".toList, .then) ∈ keywords := find_token_mem rfl
    have helse : ("else".toList, .else) ∈ keywords := find_token_mem rfl
    have hfi : ("fi".toList, .fi) ∈ keywords := find_token_mem rfl
    show scan (" if".toList ++ condition.deParse ++ "then".toList ++ larg.deParse ++
      "else".toList ++ rarg.deParse ++ "fi ".toList ++ r) = _
    simp only [List.append_assoc]
    rw [scan_blank_before " if".toList hif rfl rfl,
      scans_before hthen rfl (by decide +kernel) (condition.scans hsafe.1.1 hwell.1.1),
      scans_before helse rfl (by decide +kernel) (larg.scans hsafe.1.2 hwell.1.2),
      scans_last "fi ".toList hfi rfl rfl (by decide +kernel)
        (rarg.scans hsafe.2 hwell.2)]
    simp [Query.tokens]
  | «while» condition larg =>
    simp only [Query.safe, Bool.and_eq_true] at hsafe
    simp only [Query.wellFormed, Bool.and_eq_true] at hwell
    have hwhile : ("while".toList, .while) ∈ keywords := find_token_mem rfl
    have hdo : ("do".toList, .do) ∈ keywords := find_token_mem rfl
    have hod : ("od".toList, .od) ∈ keywords := find_token_mem rfl
    show scan (" while".toList ++ condition.deParse ++ "do".toList ++ larg.deParse ++ "od ".toList ++ r) = _
    simp only [List.append_assoc]
    rw [scan_blank_before " while".toList hwhile rfl rfl,
      scans_before hdo rfl (by decide +kernel) (condition.scans hsafe.1 hwell.1),
      scans_last "od ".toList hod rfl rfl (by decide +kernel)
        (larg.scans hsafe.2 hwell.2)]
    simp [Query.tokens]
  | fixPoint parts =>
    simp only [Query.wellFormed, Bool.and_eq_true] at hwell
    have hfix := scan_printed (find_token_mem rfl : ("fixpoint".toList, .fixpoint) ∈ keywords) rfl
      ('(' :: ' ' :: (deParseParts parts ++ (") ".toList ++ r)))
    rw [scan_leftPar (by decide), scan_blank rfl, scansParts parts hsafe hwell.2] at hfix
    show scan (" fixpoint ( ".toList ++ deParseParts parts ++ ") ".toList ++ r) = _
    simp only [List.append_assoc]
    refine (scan_blank rfl).trans (hfix.trans ?_)
    simp [Query.tokens]
  | callProc name queries =>
    simp only [Query.wellFormed, Bool.and_eq_true] at hwell
    show scan (" ".toList ++ name ++ "(".toList ++ deParseList queries ++ ") ".toList ++ r) = _
    simp only [List.append_assoc]
    have hlist := scansList queries hsafe hwell.2 r
    have hhead : ∀ d ∈ (deParseList queries ++ (") ".toList ++ r)).head?, d = ' ' ∨ d = ')' :=
      deParseList_head queries r
    have hstops : Stops ('(' :: (deParseList queries ++ (") ".toList ++ r))) := by
      refine stops_leftPar fun d hd => ?_
      rcases hhead d hd with rfl | rfl <;> rfl
    have hopen : scan ('(' :: (deParseList queries ++ (") ".toList ++ r))) =
        .leftPar :: scan (deParseList queries ++ (") ".toList ++ r)) := by
      cases hd : deParseList queries ++ (") ".toList ++ r) with
      | nil => simp at hd
      | cons d s =>
        rcases hhead d (by rw [hd]; rfl) with rfl | rfl <;> exact scan_leftPar (by decide)
    refine (scan_blank rfl).trans ((scan_procedure hwell.1 hstops).trans ?_)
    rw [hopen, hlist]
    simp [Query.tokens]
  | classes op larg rarg =>
    simp only [Query.safe, Bool.and_eq_true] at hsafe
    simp only [Query.wellFormed, Bool.and_eq_true] at hwell
    have hop : scan (op.text ++ (" (".toList ++ (rarg.deParse ++ (") ".toList ++ r)))) =
        .classOp op :: scan ("(".toList ++ (rarg.deParse ++ (") ".toList ++ r))) :=
      scan_printed op.text_mem rfl _
    show scan (" (".toList ++ larg.deParse ++ ") ".toList ++ op.text ++ " (".toList ++
      rarg.deParse ++ ") ".toList ++ r) = _
    simp only [List.append_assoc]
    rw [scan_blank_open, scans_close (larg.scans hsafe.1 hwell.1), hop, scan_open,
      scans_close (rarg.scans hsafe.2 hwell.2)]
    simp [Query.tokens]
  | indexExact index value =>
    simp only [Query.safe, Bool.and_eq_true] at hsafe
    simp only [Query.wellFormed, Bool.and_eq_true] at hwell
    have hindex := scan_printed (find_token_mem rfl : ("index".toList, .index) ∈ keywords) rfl
      (index ++ ' ' :: ("=".toList ++ (value.deParse ++ (" ".toList ++ r))))
    have heq : ("=".toList, .infixOp (.alg .eq)) ∈ keywords := find_token_mem rfl
    have hblank : isApart " ".toList = true := by decide +kernel
    rw [scan_name_before hwell.1 (by decide +kernel), scan_before heq rfl,
      value.scans hsafe.1 hwell.2 _ (clear_of_isApart hblank value r), scan_blank_append] at hindex
    show scan (" index ".toList ++ index ++ " ".toList ++ "=".toList ++ value.deParse ++
      " ".toList ++ r) = _
    simp only [List.append_assoc]
    refine (scan_blank rfl).trans (hindex.trans ?_)
    simp [Query.tokens]

theorem scansParts (parts : List (Text × Query)) (hsafe : safeParts parts = true)
    (hwell : wellFormedParts parts = true) (r : Text) :
    scan (deParseParts parts ++ (") ".toList ++ r)) = tokensParts parts ++ .rightPar :: scan r := by
  match parts with
  | [] => exact scan_close r
  | [(name, query)] =>
    simp only [wellFormedParts, Bool.and_eq_true] at hwell
    show scan (name ++ " :-".toList ++ query.deParse ++ [] ++ (") ".toList ++ r)) = _
    simp only [List.append_assoc, List.nil_append]
    rw [scan_part hwell.1.1, scans_close (query.scans hsafe hwell.1.2)]
    simp [tokensParts]
  | (name, query) :: (next, query') :: parts =>
    rw [wellFormedParts, Bool.and_eq_true, Bool.and_eq_true] at hwell
    unfold safeParts at hsafe
    rw [Bool.and_eq_true, Bool.and_eq_true, Bool.not_eq_true'] at hsafe
    have hrest := scansParts ((next, query') :: parts) hsafe.2 hwell.2 r
    show scan (name ++ " :-".toList ++ query.deParse ++ deParseParts ((next, query') :: parts) ++
      (") ".toList ++ r)) = _
    simp only [List.append_assoc]
    have hclear : Clear query (deParseParts ((next, query') :: parts) ++ (") ".toList ++ r)) := by
      rintro w rfl hw
      show Apart w (' ' :: ((next ++ " :-".toList ++ query'.deParse ++ deParseParts parts) ++
        (") ".toList ++ r)))
      simp only [List.append_assoc]
      exact apart_part hw hsafe.1.2 _
    rw [scan_part hwell.1.1, query.scans hsafe.1.1 hwell.1.2 _ hclear, hrest]
    simp [tokensParts]

theorem scansList (queries : List Query) (hsafe : safeList queries = true)
    (hwell : wellFormedList queries = true) (r : Text) :
    scan (deParseList queries ++ (") ".toList ++ r)) = tokensList queries ++ .rightPar :: scan r := by
  match queries with
  | [] => exact scan_close r
  | [query] =>
    simp only [safeList, wellFormedList, Bool.and_true] at hsafe hwell
    exact scans_close (query.scans hsafe hwell) r
  | query :: query' :: queries =>
    rw [safeList, Bool.and_eq_true] at hsafe
    rw [wellFormedList, Bool.and_eq_true] at hwell
    have hrest := scansList (query' :: queries) hsafe.2 hwell.2 r
    show scan (query.deParse ++ ",".toList ++ deParseList (query' :: queries) ++
      (") ".toList ++ r)) = _
    simp only [List.append_assoc]
    have hcomma : isApart ",".toList = true := by decide +kernel
    rw [query.scans hsafe.1 hwell.1 _ (clear_of_isApart hcomma query _), scan_comma, hrest]
    simp [tokensList]

end

theorem clear_nil (t : Query) : Clear t [] := by
  intro w _ hw rule hrule hprefix
  by_contra hlonger
  obtain ⟨next, hlast, -, hnext⟩ :=
    exists_next_of_longer hw hrule hprefix (Nat.lt_of_not_le hlonger)
  rw [List.prefix_nil.mp hnext] at hlast
  exact absurd hlast (by decide +kernel)

-- ---------------------------------------------------------------------------
-- Round trip
-- ---------------------------------------------------------------------------

/-- A tree is read back from its text when each node is under a parent that leaves it as it is:
there is no `refid`, `nameof`, `create` of a member or range of an index, a node without
parentheses of its own is not followed by a tighter operator, and no name is read together with
the word after it. -/
theorem parse_deParse (t : Query) (hwell : t.wellFormed = true) (hsafe : t.safe = true) :
    parse t.deParse = some t := by
  have hscan := t.scans hsafe hwell [] (clear_nil t)
  have hrun := t.reads hsafe hwell [] fun _ => trivial
  rw [List.append_nil, scan, List.append_nil] at hscan
  rw [parse, hscan, parseTokens]
  rw [run] at hrun
  rw [hrun]
  exact result_after t

/-- `count(a where a > 5) and not a` -/
def countedQuery : Query :=
  .twoArgs (.alg .boolAnd)
    (.unOp .count (.twoArgs (.nonAlg .where) (.name "a".toList)
      (.twoArgs (.alg .gt) (.name "a".toList) (.int 5))))
    (.unOp .boolNot (.name "a".toList))

theorem parse_deParse_countedQuery :
    countedQuery.wellFormed = true ∧ countedQuery.safe = true ∧
      parse countedQuery.deParse = some countedQuery :=
  have hwell : countedQuery.wellFormed = true := by decide +kernel
  have hsafe : countedQuery.safe = true := by decide +kernel
  ⟨hwell, hsafe, parse_deParse countedQuery hwell hsafe⟩

/-- `(not a) = a` -/
def negatedOperand : Query :=
  .twoArgs (.alg .eq) (.unOp .boolNot (.name "a".toList)) (.name "a".toList)

/-- It is printed as `( not( a ) = a )` and read as `not (a = a)`. -/
theorem parse_deParse_lost :
    negatedOperand.wellFormed = true ∧
      parse negatedOperand.deParse = some (.unOp .boolNot (.twoArgs (.alg .eq)
        (.name "a".toList) (.name "a".toList))) ∧
      ¬ ∀ t : Query, t.wellFormed = true → parse t.deParse = some t := by
  have hwell : negatedOperand.wellFormed = true := by decide +kernel
  have hscan : scan negatedOperand.deParse =
      [.leftPar, .not, .leftPar, .name "a".toList, .rightPar, .infixOp (.alg .eq),
        .name "a".toList, .rightPar] := by
    decide +kernel
  have hparse : parse negatedOperand.deParse = some (.unOp .boolNot (.twoArgs (.alg .eq)
      (.name "a".toList) (.name "a".toList))) := by
    rw [parse, hscan]
    rfl
  refine ⟨hwell, hparse, fun h => ?_⟩
  have hsame := hparse.symm.trans (h negatedOperand hwell)
  cases Option.some.inj hsame

end Loxim.QueryParser
