import Mathlib.Data.List.Nodup
import Mathlib.Data.List.TakeWhile
import Loxim.QueryParser.Scanner

/-!
# What the scanner makes of a word, a keyword or a literal

Each is followed by a text that does not make the match longer.
-/

namespace Loxim.QueryParser

variable {cs r w k : Text} {c : Char} {t : Token} {n : Nat}

-- ---------------------------------------------------------------------------
-- One match
-- ---------------------------------------------------------------------------

theorem foldl_longest_of_le {l : List (Nat × Lexeme)} {x : Nat × Lexeme}
    (h : ∀ y ∈ l, y.1 ≤ x.1) :
    l.foldl (fun best rule => if best.1 < rule.1 then rule else best) x = x := by
  induction l with
  | nil => rfl
  | cons y l ih =>
    have hy : ¬ x.1 < y.1 := Nat.not_lt.mpr (h y List.mem_cons_self)
    rw [List.foldl_cons, if_neg hy]
    exact ih fun z hz => h z (List.mem_cons_of_mem y hz)

theorem foldl_longest_lt {l : List (Nat × Lexeme)} {x : Nat × Lexeme} (hx : x.1 < n)
    (h : ∀ y ∈ l, y.1 < n) :
    (l.foldl (fun best rule => if best.1 < rule.1 then rule else best) x).1 < n := by
  induction l generalizing x with
  | nil => exact hx
  | cons y l ih =>
    rw [List.foldl_cons]
    refine ih ?_ fun z hz => h z (List.mem_cons_of_mem y hz)
    split
    · exact h y List.mem_cons_self
    · exact hx

/-- The first of the longest. -/
theorem longest_eq {l₁ l₂ : List (Nat × Lexeme)} {x : Nat × Lexeme} (hx : 0 < x.1)
    (h₁ : ∀ y ∈ l₁, y.1 < x.1) (h₂ : ∀ y ∈ l₂, y.1 ≤ x.1) : longest (l₁ ++ x :: l₂) = x := by
  rw [longest, List.foldl_append, List.foldl_cons, if_pos (foldl_longest_lt hx h₁)]
  exact foldl_longest_of_le h₂

/-- The rules that are not keywords. -/
def otherRules (cs : Text) : List (Nat × Lexeme) :=
  [(extNameLength cs, .token (.extName (cs.take (extNameLength cs)))),
   (wordLength cs, .token (.name (cs.take (wordLength cs)))),
   (markedLength '$' cs, .token (.paramName (cs.take (markedLength '$' cs)))),
   (markedLength '%' cs, .token (.systemViewName (cs.take (markedLength '%' cs)))),
   (cardLength cs, .token (.other (cs.take (cardLength cs)))),
   (digitsLength cs, .token (.integer (atoi (cs.take (digitsLength cs))))),
   (doubleLength cs, .token (.double (cs.take (doubleLength cs)))),
   (refidLength cs, .token (.refid (atoi ((cs.drop 6).take (refidLength cs - 7))))),
   (commentLength cs, .comment),
   (stringLength cs, .token (.string ((cs.drop 1).take (stringLength cs - 2)))),
   (blankLength cs, .blank)]

def keywordRule (cs : Text) (rule : Text × Token) : Nat × Lexeme :=
  (if rule.1 <+: cs then rule.1.length else 0, .token rule.2)

theorem rules_eq (cs : Text) : rules cs = keywords.map (keywordRule cs) ++ otherRules cs := rfl

theorem scan_of_longest (h : longest (rules cs) = (n, .token t)) (hn : 0 < n) (hcs : cs ≠ []) :
    scan cs = t :: scan (cs.drop n) := by
  cases cs with
  | nil => exact absurd rfl hcs
  | cons c cs =>
    rw [scan, h]
    simp only [rest, h]
    rw [Nat.max_eq_left hn]

theorem scan_append_of_longest (h : longest (rules (w ++ r)) = (w.length, .token t)) (hw : w ≠ []) :
    scan (w ++ r) = t :: scan r := by
  have hn : 0 < w.length := List.length_pos_iff.mpr hw
  have hne : w ++ r ≠ [] := List.append_ne_nil_of_left_ne_nil hw r
  rw [scan_of_longest h hn hne, List.drop_left]

/-- The token of a keyword. -/
def keyword (k : Text) : Option Token := (keywords.find? fun rule => rule.1 = k).map (·.2)

theorem exists_split_of_keyword (h : keyword k = some t) :
    ∃ before after, keywords = before ++ (k, t) :: after ∧ ∀ rule ∈ before, rule.1 ≠ k := by
  obtain ⟨⟨k', t'⟩, hfind, rfl⟩ := Option.map_eq_some_iff.mp h
  obtain ⟨hk, before, after, hsplit, hbefore⟩ := List.find?_eq_some_iff_append.mp hfind
  have hk : k' = k := by simpa using hk
  subst hk
  exact ⟨before, after, hsplit, fun rule hrule => by simpa using hbefore rule hrule⟩

/-- A keyword that is followed by something else. -/
theorem scan_keyword (hk : keyword k = some t) (hne : k ≠ [])
    (hlonger : ∀ rule ∈ keywords, rule.1 <+: k ++ r → rule.1.length ≤ k.length)
    (hother : ∀ y ∈ otherRules (k ++ r), y.1 ≤ k.length) : scan (k ++ r) = t :: scan r := by
  refine scan_append_of_longest ?_ hne
  obtain ⟨before, after, hsplit, hdiff⟩ := exists_split_of_keyword hk
  have hself : keywordRule (k ++ r) (k, t) = (k.length, .token t) := by
    simp [keywordRule]
  have hbefore : ∀ rule ∈ before, (keywordRule (k ++ r) rule).1 < k.length := by
    intro rule hrule
    have hmem : rule ∈ keywords := hsplit ▸ List.mem_append_left _ hrule
    unfold keywordRule
    split
    · rename_i hprefix
      refine Nat.lt_of_le_of_ne (hlonger rule hmem hprefix) fun heq => hdiff rule hrule ?_
      have hboth := List.prefix_of_prefix_length_le hprefix (List.prefix_append k r)
        (Nat.le_of_eq heq)
      exact hboth.eq_of_length heq
    · exact List.length_pos_iff.mpr hne
  have hafter : ∀ rule ∈ after, (keywordRule (k ++ r) rule).1 ≤ k.length := by
    intro rule hrule
    have hmem : rule ∈ keywords := hsplit ▸ List.mem_append_right _ (List.mem_cons_of_mem _ hrule)
    unfold keywordRule
    split
    · exact hlonger rule hmem ‹_›
    · exact Nat.zero_le _
  rw [rules_eq, hsplit, List.map_append, List.map_cons, hself, List.append_assoc, List.cons_append]
  refine longest_eq (List.length_pos_iff.mpr hne) ?_ ?_
  · intro y hy
    obtain ⟨rule, hrule, rfl⟩ := List.mem_map.mp hy
    exact hbefore rule hrule
  · intro y hy
    rcases List.mem_append.mp hy with hy | hy
    · obtain ⟨rule, hrule, rfl⟩ := List.mem_map.mp hy
      exact hafter rule hrule
    · exact hother y hy

-- ---------------------------------------------------------------------------
-- Words
-- ---------------------------------------------------------------------------

def isWord (text : Text) : Bool := decide (text ≠ [] ∧ wordLength text = text.length)

theorem isWord_iff : isWord w = true ↔
    ∃ c cs, w = c :: cs ∧ isLetter c = true ∧ ∀ x ∈ cs, isWordChar x = true := by
  have htake (cs : Text) : (cs.takeWhile isWordChar).length = cs.length ↔
      ∀ x ∈ cs, isWordChar x = true := by
    rw [← List.takeWhile_eq_self_iff]
    exact ⟨fun h => (List.takeWhile_prefix _).eq_of_length h, fun h => by rw [h]⟩
  cases w with
  | nil => simp [isWord]
  | cons c cs =>
    simp only [isWord, wordLength, ne_eq, reduceCtorEq, not_false_eq_true, true_and,
      decide_eq_true_eq, List.length_cons, List.cons.injEq]
    split
    · rename_i hc
      constructor
      · intro h
        exact ⟨c, cs, ⟨rfl, rfl⟩, hc, (htake cs).mp (by omega)⟩
      · rintro ⟨_, _, ⟨rfl, rfl⟩, -, h⟩
        have hlen := (htake cs).mpr h
        omega
    · rename_i hc
      constructor
      · intro h
        omega
      · rintro ⟨_, _, ⟨rfl, rfl⟩, h, -⟩
        exact absurd h hc

/-- A text that does not make a word longer, nor an external name or a `refid` of it. -/
def Stops : Text → Prop
  | [] => True
  | c :: cs => isWordChar c = false ∧ c ≠ ':' ∧ ∀ d ∈ cs.head?, c = '(' → d.isDigit = false

theorem Stops.takeWhile (hr : Stops r) : r.takeWhile isWordChar = [] := by
  cases r with
  | nil => rfl
  | cons d r => simp [hr.1]

theorem wordLength_append_of (hw : isWord w = true) (hr : r.takeWhile isWordChar = []) :
    wordLength (w ++ r) = w.length := by
  obtain ⟨c, cs, rfl, hc, hcs⟩ := isWord_iff.mp hw
  rw [List.cons_append, wordLength, if_pos hc, List.takeWhile_append_of_pos hcs, hr,
    List.append_nil, List.length_cons, Nat.add_comm]

theorem wordLength_append (hw : isWord w = true) (hr : Stops r) : wordLength (w ++ r) = w.length :=
  wordLength_append_of hw hr.takeWhile

theorem extNameLength_append (hw : isWord w = true) (hr : Stops r) : extNameLength (w ++ r) = 0 := by
  rw [extNameLength, wordLength_append hw hr, List.drop_left]
  split
  · exact absurd rfl hr.2.1
  · rfl

theorem isDigit_eq_false_of_isLetter (h : isLetter c = true) : c.isDigit = false := by
  simp only [isLetter, Char.isAlpha, Char.isUpper, Char.isLower, Bool.or_eq_true, Bool.and_eq_true,
    beq_iff_eq, decide_eq_true_eq, ge_iff_le] at h
  simp only [Char.isDigit, Bool.and_eq_false_iff, decide_eq_false_iff_not, ge_iff_le]
  rcases h with rfl | ⟨h, -⟩ | ⟨h, -⟩
  · exact Or.inr (by decide)
  · refine Or.inr fun hle => ?_
    exact absurd (UInt32.le_trans h hle) (by decide)
  · refine Or.inr fun hle => ?_
    exact absurd (UInt32.le_trans h hle) (by decide)

/-- Rules that match nothing of a text which begins with a letter. -/
theorem lengths_of_isLetter (h : isLetter c = true) (cs : Text) :
    markedLength '$' (c :: cs) = 0 ∧ markedLength '%' (c :: cs) = 0 ∧ cardLength (c :: cs) = 0 ∧
      digitsLength (c :: cs) = 0 ∧ doubleLength (c :: cs) = 0 ∧ commentLength (c :: cs) = 0 ∧
      stringLength (c :: cs) = 0 ∧ blankLength (c :: cs) = 0 := by
  have hne (d : Char) (hd : isLetter d = false) : c ≠ d := by
    rintro rfl
    rw [h] at hd
    cases hd
  have hdigit := isDigit_eq_false_of_isLetter h
  have hdigits : digitsLength (c :: cs) = 0 := by simp [digitsLength, hdigit]
  refine ⟨?_, ?_, ?_, hdigits, ?_, ?_, ?_, ?_⟩
  · simp [markedLength, hne '$' (by decide)]
  · simp [markedLength, hne '%' (by decide)]
  · unfold cardLength
    split
    · rename_i heq
      obtain ⟨rfl, -⟩ := List.cons.inj heq
      simp [hne '0' (by decide), hne '1' (by decide)]
    · rfl
  · simp [doubleLength, hdigits]
  · refine if_neg fun hprefix => ?_
    have hhead : '/' = c := (List.cons_prefix_cons.mp hprefix).1
    exact hne '/' (by decide) hhead.symm
  · unfold stringLength
    split
    · rename_i heq
      exact absurd (List.cons.inj heq).1 (hne '\x22' (by decide))
    · rfl
  · have hblank : isBlank c = false := by
      simp [isBlank, hne ' ' (by decide), hne '\t' (by decide), hne '\r' (by decide),
        hne '\n' (by decide)]
    simp [blankLength, hblank]

theorem takeWhile_append_stops (hw : isWord w = true) (hr : Stops r) :
    (w ++ r).takeWhile isWordChar = w := by
  obtain ⟨c, cs, rfl, hc, hcs⟩ := isWord_iff.mp hw
  have hall : ∀ x ∈ c :: cs, isWordChar x = true := by
    intro x hx
    rcases List.mem_cons.mp hx with rfl | hx
    · simp [isWordChar, hc]
    · exact hcs x hx
  rw [List.takeWhile_append_of_pos hall, hr.takeWhile, List.append_nil]

theorem refidLength_append (hw : isWord w = true) (hr : Stops r) : refidLength (w ++ r) = 0 := by
  unfold refidLength
  split
  · rename_i hprefix
    obtain ⟨s, hs⟩ := hprefix
    have hword : w = "refid".toList := by
      rw [← takeWhile_append_stops hw hr, ← hs]
      rfl
    subst hword
    have hr' : r = '(' :: s := by simpa using hs.symm
    subst hr'
    have hdigits : digitsLength s = 0 := by
      cases s with
      | nil => rfl
      | cons d s => simp [digitsLength, hr.2.2 d rfl rfl]
    simp [hdigits]
  · rfl

theorem otherRules_word (hw : isWord w = true) (hr : Stops r) :
    ∀ y ∈ otherRules (w ++ r), y.1 ≤ w.length := by
  have hword := wordLength_append hw hr
  have hext := extNameLength_append hw hr
  have hrefid := refidLength_append hw hr
  obtain ⟨c, cs, rfl, hc, -⟩ := isWord_iff.mp hw
  obtain ⟨h₁, h₂, h₃, h₄, h₅, h₆, h₇, h₈⟩ := lengths_of_isLetter hc (cs ++ r)
  rw [List.cons_append] at hword hext hrefid ⊢
  simp [otherRules, hword, hext, hrefid, h₁, h₂, h₃, h₄, h₅, h₆, h₇, h₈]

def isKeyword (text : Text) : Bool := keywords.any fun k => k.1 = text

def isName (text : Text) : Bool := isWord text && !isKeyword text

/-- No keyword begins here that is longer than the word. -/
def Apart (w r : Text) : Prop := ∀ rule ∈ keywords, rule.1 <+: w ++ r → rule.1.length ≤ w.length

theorem scan_name (hw : isName w = true) (hr : Stops r) (hapart : Apart w r) :
    scan (w ++ r) = .name w :: scan r := by
  rw [isName, Bool.and_eq_true] at hw
  obtain ⟨hword, hkeyword⟩ := hw
  have hne : w ≠ [] := by
    rintro rfl
    cases hword
  have hlen := wordLength_append hword hr
  have hother := otherRules_word hword hr
  have hsplit : rules (w ++ r) = (keywords.map (keywordRule (w ++ r)) ++ [(otherRules (w ++ r)).head
      (by simp [otherRules])]) ++ (w.length, .token (.name w)) :: (otherRules (w ++ r)).drop 2 := by
    rw [rules_eq, List.append_assoc]
    simp [otherRules, hlen]
  refine scan_append_of_longest ?_ hne
  rw [hsplit]
  refine longest_eq (List.length_pos_iff.mpr hne) ?_ fun y hy => hother y (List.mem_of_mem_drop hy)
  intro y hy
  rcases List.mem_append.mp hy with hy | hy
  · obtain ⟨rule, hrule, rfl⟩ := List.mem_map.mp hy
    unfold keywordRule
    split
    · rename_i hprefix
      refine Nat.lt_of_le_of_ne (hapart rule hrule hprefix) fun heq => ?_
      have hboth := List.prefix_of_prefix_length_le hprefix (List.prefix_append w r)
        (Nat.le_of_eq heq)
      have hsame : rule.1 = w := hboth.eq_of_length heq
      simp only [isKeyword, Bool.not_eq_true', List.any_eq_false, decide_eq_true_eq] at hkeyword
      exact hkeyword rule hrule hsame
    · exact List.length_pos_iff.mpr hne
  · rw [List.mem_singleton.mp hy]
    show extNameLength (w ++ r) < w.length
    rw [extNameLength_append hword hr]
    exact List.length_pos_iff.mpr hne

-- ---------------------------------------------------------------------------
-- Symbols and blanks
-- ---------------------------------------------------------------------------

/-- A character that begins neither a name nor a literal. -/
def isSymbolChar (c : Char) : Bool :=
  !isLetter c && !c.isDigit && c != '$' && c != '%' && c != '\x22'

theorem lengths_of_isSymbolChar (h : isSymbolChar c = true) (cs : Text) :
    wordLength (c :: cs) = 0 ∧ markedLength '$' (c :: cs) = 0 ∧ markedLength '%' (c :: cs) = 0 ∧
      cardLength (c :: cs) = 0 ∧ digitsLength (c :: cs) = 0 ∧ doubleLength (c :: cs) = 0 ∧
      refidLength (c :: cs) = 0 ∧ stringLength (c :: cs) = 0 := by
  simp only [isSymbolChar, Bool.and_eq_true, Bool.not_eq_true', bne_iff_ne] at h
  obtain ⟨⟨⟨⟨hletter, hdigit⟩, hdollar⟩, hpercent⟩, hquote⟩ := h
  have hdigits : digitsLength (c :: cs) = 0 := by simp [digitsLength, hdigit]
  have hne (d : Char) (hd : d.isDigit = true) : c ≠ d := by
    rintro rfl
    rw [hdigit] at hd
    cases hd
  refine ⟨?_, ?_, ?_, ?_, hdigits, ?_, ?_, ?_⟩
  · simp [wordLength, hletter]
  · simp [markedLength, hdollar]
  · simp [markedLength, hpercent]
  · unfold cardLength
    split
    · rename_i heq
      obtain ⟨rfl, -⟩ := List.cons.inj heq
      simp [hne '0' rfl, hne '1' rfl]
    · rfl
  · simp [doubleLength, hdigits]
  · refine if_neg fun hprefix => ?_
    have hhead : 'r' = c := (List.cons_prefix_cons.mp hprefix).1
    rw [← hhead] at hletter
    cases hletter
  · unfold stringLength
    split
    · rename_i heq
      exact absurd (List.cons.inj heq).1 hquote
    · rfl

theorem extNameLength_of_wordLength (hw : wordLength cs = 0) (h : ¬ [':', ':'] <+: cs) :
    extNameLength cs = 0 := by
  rw [extNameLength, hw, List.drop_zero]
  split
  · exact absurd (by simp) h
  · rfl

theorem otherRules_symbol (h : isSymbolChar c = true) (hblank : isBlank c = false)
    (hext : ¬ [':', ':'] <+: c :: cs) (hcomment : ¬ ['/', '*'] <+: c :: cs) :
    ∀ y ∈ otherRules (c :: cs), y.1 = 0 := by
  obtain ⟨h₁, h₂, h₃, h₄, h₅, h₆, h₇, h₈⟩ := lengths_of_isSymbolChar h cs
  have h₉ := extNameLength_of_wordLength h₁ hext
  have h₁₀ : commentLength (c :: cs) = 0 := if_neg hcomment
  have h₁₁ : blankLength (c :: cs) = 0 := by simp [blankLength, hblank]
  simp [otherRules, h₁, h₂, h₃, h₄, h₅, h₆, h₇, h₈, h₉, h₁₀, h₁₁]

/-- What stands before a blank in a keyword. -/
def firstWords : List Text :=
  ["create".toList, "create or".toList, "group".toList, "for".toList, "close".toList,
   "close unique".toList, "leaves".toList, "leaves unique".toList, "order".toList,
   "virtual".toList, "virtualize".toList, "object".toList, "object name".toList]

/-- What stands after a blank in a keyword that does not begin with `create`. -/
def lastWords : List Text :=
  ["as".toList, "all".toList, "by".toList, "unique by".toList, "each".toList, "objects".toList,
   "name is".toList, "is".toList]

/-- What a keyword may begin with, and where it has a blank, a parenthesis or a colon. -/
def isPlainText (text : Text) : Bool :=
  (text.head?.all fun c => !isBlank c && !c.isDigit && c != '%' && c != '\x22') &&
  ((List.range text.length).all fun i => text[i]? != some ' ' ||
    decide (text.take i ∈ firstWords ∧ (text.drop (i + 1)).head? ≠ some ' ' ∧
      text.drop (i + 1) ≠ [] ∧ ("create".toList <+: text ∨ text.drop (i + 1) ∈ lastWords))) &&
  decide ('(' ∉ text.tail ∧ (')' ∈ text.tail → text = ['|', ')']) ∧
    (text.head? = some '(' → text = ['('] ∨ text = ['(', '|']) ∧
    (text.head? = some ')' → text = [')'])) && !decide ([':', ':'] <:+: text)

/-- A keyword that is a word, or begins with one, or is a symbol. -/
def isPlain (k : Text) : Bool :=
  match k with
  | [] => false
  | c :: cs =>
    (isWord (k.takeWhile isWordChar) &&
      ((k.dropWhile isWordChar).isEmpty || (k.dropWhile isWordChar).head? = some ' ')) ||
    (isSymbolChar c && !isBlank c && decide (c ≠ ':' ∨ cs ≠ [] ∧ cs.head? ≠ some ':') &&
      decide (c ≠ '/' ∨ cs = []))

/-- The tokens that are printed before a blank. -/
def Token.isPrinted : Token → Bool
  | .other _ | .create => false
  | _ => true

/-- A number for each text. -/
def code (text : Text) : Nat := text.foldl (fun n c => n * 2 ^ 32 + c.toNat) 0

-- One evaluation of the whole table: most of its time goes into the characters of the texts.
theorem keywords_checked : (keywords.all fun rule => isPlainText rule.1 &&
    (!rule.2.isPrinted || isPlain rule.1 && !decide (rule.1 ∈ firstWords))) = true ∧
    (keywords.map fun rule => code rule.1).Nodup := by
  decide +kernel

theorem keywords_plain : (keywords.all fun rule => isPlainText rule.1) = true := by
  rw [List.all_eq_true]
  intro rule hrule
  have h := List.all_eq_true.mp keywords_checked.1 rule hrule
  rw [Bool.and_eq_true] at h
  exact h.1

theorem keyword_of_mem (h : (k, t) ∈ keywords) : keyword k = some t := by
  cases hfind : keywords.find? fun rule => rule.1 = k with
  | none =>
    have hnone := List.find?_eq_none.mp hfind (k, t) h
    simp at hnone
  | some rule =>
    have hk : rule.1 = k := by simpa using List.find?_some hfind
    have hrule : rule = (k, t) :=
      List.inj_on_of_nodup_map keywords_checked.2 (List.mem_of_find?_eq_some hfind) h
        (by rw [hk])
    rw [keyword, hfind, hrule]
    rfl

theorem keyword_printed (h : (k, t) ∈ keywords) (ht : t.isPrinted = true) :
    isPlain k = true ∧ k ∉ firstWords := by
  have hrule := List.all_eq_true.mp keywords_checked.1 (k, t) h
  simpa [ht] using And.right (Bool.and_eq_true_iff.mp hrule)

theorem keywords_head {rule : Text × Token} (hrule : rule ∈ keywords) (hc : c ∈ rule.1.head?) :
    isBlank c = false ∧ c.isDigit = false ∧ c ≠ '%' ∧ c ≠ '\x22' := by
  have h := List.all_eq_true.mp keywords_plain rule hrule
  simp only [isPlainText, Bool.and_eq_true] at h
  have hhead := h.1.1.1
  rw [Option.mem_def.mp hc] at hhead
  simpa [and_assoc] using hhead

theorem keywords_blank {rule : Text × Token} (hrule : rule ∈ keywords) {i : Nat}
    (hi : rule.1[i]? = some ' ') :
    rule.1.take i ∈ firstWords ∧ (rule.1.drop (i + 1)).head? ≠ some ' ' ∧
      rule.1.drop (i + 1) ≠ [] ∧
      ("create".toList <+: rule.1 ∨ rule.1.drop (i + 1) ∈ lastWords) := by
  have h := List.all_eq_true.mp keywords_plain rule hrule
  simp only [isPlainText, Bool.and_eq_true] at h
  have hlt : i < rule.1.length := (List.getElem?_eq_some_iff.mp hi).1
  have hblank := List.all_eq_true.mp h.1.1.2 i (List.mem_range.mpr hlt)
  rw [hi, bne_self_eq_false, Bool.false_or, decide_eq_true_eq] at hblank
  exact hblank

theorem keywords_par {rule : Text × Token} (hrule : rule ∈ keywords) :
    '(' ∉ rule.1.tail ∧ (')' ∈ rule.1.tail → rule.1 = ['|', ')']) ∧
      (rule.1.head? = some '(' → rule.1 = ['('] ∨ rule.1 = ['(', '|']) ∧
      (rule.1.head? = some ')' → rule.1 = [')']) := by
  have h := List.all_eq_true.mp keywords_plain rule hrule
  simp only [isPlainText, Bool.and_eq_true, decide_eq_true_eq] at h
  exact h.1.2

theorem keywordRule_eq_zero (h : isBlank c = true ∨ c.isDigit = true ∨ c = '%' ∨ c = '\x22') :
    ∀ y ∈ keywords.map (keywordRule (c :: cs)), y.1 = 0 := by
  intro y hy
  obtain ⟨rule, hrule, rfl⟩ := List.mem_map.mp hy
  unfold keywordRule
  split
  · rename_i hprefix
    cases htext : rule.1 with
    | nil => rfl
    | cons d text =>
      rw [htext] at hprefix
      obtain ⟨rfl, -⟩ := List.cons_prefix_cons.mp hprefix
      have hhead := keywords_head hrule (c := d) (by rw [htext]; rfl)
      rcases h with h | h | h | h <;> simp [h] at hhead
  · rfl

theorem scan_blanks (h : isBlank c = true) : scan (c :: cs) = scan (cs.dropWhile isBlank) := by
  have hsymbol : isSymbolChar c = true := by
    simp only [isBlank, Bool.or_eq_true, beq_iff_eq] at h
    rcases h with ((rfl | rfl) | rfl) | rfl <;> decide
  obtain ⟨h₁, h₂, h₃, h₄, h₅, h₆, h₇, h₈⟩ := lengths_of_isSymbolChar hsymbol cs
  have hhead (d : Char) (hd : isBlank d = false) : c ≠ d := by
    rintro rfl
    rw [h] at hd
    cases hd
  have h₉ : extNameLength (c :: cs) = 0 := extNameLength_of_wordLength h₁ fun hprefix =>
    hhead ':' (by decide) (List.cons_prefix_cons.mp hprefix).1.symm
  have h₁₀ : commentLength (c :: cs) = 0 := if_neg fun hprefix =>
    hhead '/' (by decide) (List.cons_prefix_cons.mp hprefix).1.symm
  have hlength : blankLength (c :: cs) = 1 + blankLength cs := by
    simp [blankLength, h, Nat.add_comm]
  have hsplit : rules (c :: cs) = (keywords.map (keywordRule (c :: cs)) ++
      (otherRules (c :: cs)).take 10) ++ (1 + blankLength cs, .blank) :: [] := by
    rw [rules_eq, List.append_assoc, ← hlength]
    rfl
  have hother : ∀ y ∈ (otherRules (c :: cs)).take 10, y.1 = 0 := by
    simp [otherRules, h₁, h₂, h₃, h₄, h₅, h₆, h₇, h₈, h₉, h₁₀]
  have hpos : 0 < 1 + blankLength cs := by omega
  have hlongest : longest (rules (c :: cs)) = (1 + blankLength cs, .blank) := by
    rw [hsplit]
    refine longest_eq hpos ?_ nofun
    intro y hy
    refine Nat.lt_of_le_of_lt (Nat.le_of_eq ?_) hpos
    rcases List.mem_append.mp hy with hy | hy
    · exact keywordRule_eq_zero (Or.inl h) y hy
    · exact hother y hy
  have hdrop := @List.drop_left _ (cs.takeWhile isBlank) (cs.dropWhile isBlank)
  rw [List.takeWhile_append_dropWhile] at hdrop
  rw [scan, hlongest]
  simp only [rest, hlongest]
  rw [Nat.max_eq_left hpos, Nat.add_comm, List.drop_succ_cons, blankLength, hdrop]

/-- Blanks are skipped one after another. -/
theorem scan_blank (h : isBlank c = true) : scan (c :: cs) = scan cs := by
  rw [scan_blanks h]
  cases cs with
  | nil => rfl
  | cons d cs =>
    cases hd : isBlank d with
    | true => rw [List.dropWhile_cons, if_pos hd, ← scan_blanks hd]
    | false => simp [hd]

-- ---------------------------------------------------------------------------
-- Keywords before a blank or a parenthesis
-- ---------------------------------------------------------------------------

/-- A longer keyword goes on with the next character. -/
theorem append_singleton_prefix {text : Text} (h : text <+: k ++ c :: r)
    (hlonger : k.length < text.length) : k ++ [c] <+: text := by
  have hprefix : k ++ [c] <+: k ++ c :: r := by simp
  exact List.prefix_of_prefix_length_le hprefix h (by simpa using Nat.succ_le_of_lt hlonger)

/-- A keyword that goes on with a blank. -/
theorem keyword_blank_of_prefix {rule : Text × Token} (hrule : rule ∈ keywords)
    (h : k ++ [' '] <+: rule.1) :
    ∃ next, rule.1 = k ++ ' ' :: next ∧ k ∈ firstWords ∧ next.head? ≠ some ' ' ∧ next ≠ [] ∧
      ("create".toList <+: rule.1 ∨ next ∈ lastWords) := by
  obtain ⟨next, hs⟩ := h
  have hs : rule.1 = k ++ ' ' :: next := by simpa using hs.symm
  have hget : rule.1[k.length]? = some ' ' := by
    rw [hs]
    simp
  have hdrop : rule.1.drop (k.length + 1) = next := by
    rw [hs, List.append_cons]
    simp
  have htake : rule.1.take k.length = k := by
    rw [hs, List.take_left]
  have hblank := keywords_blank hrule hget
  rw [hdrop, htake] at hblank
  exact ⟨next, hs, hblank⟩

theorem apart_of_not_prefix (h : ∀ rule ∈ keywords, ¬ k ++ [c] <+: rule.1) (r : Text) :
    Apart k (c :: r) := by
  intro rule hrule hprefix
  by_contra hlonger
  exact h rule hrule ( append_singleton_prefix hprefix (Nat.lt_of_not_le hlonger))

theorem apart_blank (hk : k ∉ firstWords) (r : Text) : Apart k (' ' :: r) := by
  refine apart_of_not_prefix (fun rule hrule hprefix => ?_) r
  obtain ⟨next, -, hfirst, -⟩ := keyword_blank_of_prefix hrule hprefix
  exact hk hfirst

/-- There is only one blank between the words of a keyword. -/
theorem apart_blanks (k r : Text) : Apart k (' ' :: ' ' :: r) := by
  intro rule hrule hprefix
  by_contra hlonger
  have hblank := append_singleton_prefix hprefix (Nat.lt_of_not_le hlonger)
  obtain ⟨next, htext, -, hhead, hne, -⟩ := keyword_blank_of_prefix hrule hblank
  rw [htext] at hprefix
  obtain ⟨c, next, rfl⟩ := List.exists_cons_of_ne_nil hne
  have hc : c = ' ' ∧ next <+: r := by simpa using hprefix
  exact hhead (by rw [hc.1]; rfl)

theorem apart_leftPar (hk : k ≠ []) (r : Text) : Apart k ('(' :: r) := by
  refine apart_of_not_prefix (fun rule hrule hprefix => ?_) r
  obtain ⟨s, hs⟩ := hprefix
  apply (keywords_par hrule).1
  rw [← hs]
  cases k with
  | nil => exact absurd rfl hk
  | cons d k => simp

theorem apart_rightPar (hw : isWord w = true) (r : Text) : Apart w (')' :: r) := by
  refine apart_of_not_prefix (fun rule hrule hprefix => ?_) r
  obtain ⟨c, cs, rfl, hc, -⟩ := isWord_iff.mp hw
  obtain ⟨s, hs⟩ := hprefix
  have htext : rule.1 = ['|', ')'] := by
    apply (keywords_par hrule).2.1
    rw [← hs]
    simp
  rw [htext] at hs
  rw [(List.cons.inj hs).1] at hc
  exact absurd hc (by decide)

theorem stops_blank (r : Text) : Stops (' ' :: r) := ⟨by decide, by decide, by simp⟩

theorem stops_leftPar (h : ∀ d ∈ r.head?, d.isDigit = false) : Stops ('(' :: r) :=
  ⟨by decide, by decide, fun d hd _ => h d hd⟩

/-- The text after a keyword. -/
def Follows (c : Char) (r : Text) : Prop := Stops (c :: r) ∧ c ≠ '*'

theorem otherRules_plain (hk : isPlain k = true) (hr : Follows c r) :
    ∀ y ∈ otherRules (k ++ c :: r), y.1 ≤ k.length := by
  cases k with
  | nil => cases hk
  | cons d k =>
    rcases Bool.or_eq_true_iff.mp hk with hk | hk
    · simp only [Bool.and_eq_true, Bool.or_eq_true, decide_eq_true_eq] at hk
      obtain ⟨hword, hrest⟩ := hk
      generalize hw : (d :: k).takeWhile isWordChar = w at hword
      generalize hs : (d :: k).dropWhile isWordChar = s at hrest
      have hsplit : d :: k = w ++ s := by
        rw [← hw, ← hs, List.takeWhile_append_dropWhile]
      have hstops : Stops (s ++ c :: r) := by
        cases s with
        | nil => exact hr.1
        | cons e s =>
          have he : e = ' ' := by simpa using hrest
          subst he
          exact stops_blank _
      intro y hy
      rw [hsplit, List.append_assoc] at hy
      refine Nat.le_trans (otherRules_word hword hstops y hy) ?_
      rw [hsplit, List.length_append]
      exact Nat.le_add_right ..
    · simp only [Bool.and_eq_true, Bool.not_eq_true', decide_eq_true_eq] at hk
      obtain ⟨⟨⟨hsymbol, hblank⟩, hext⟩, hcomment⟩ := hk
      intro y hy
      refine Nat.le_trans (Nat.le_of_eq (otherRules_symbol hsymbol hblank ?_ ?_ y hy)) (Nat.zero_le _)
      · intro hprefix
        obtain ⟨hd, htail⟩ := List.cons_prefix_cons.mp hprefix
        obtain ⟨hne, hcolon⟩ := hext.resolve_left (fun h => h hd.symm)
        cases k with
        | nil => exact hne rfl
        | cons e k =>
          have he : ':' = e := (List.cons_prefix_cons.mp htail).1
          exact hcolon (by rw [← he]; rfl)
      · intro hprefix
        obtain ⟨hd, htail⟩ := List.cons_prefix_cons.mp hprefix
        have hk := hcomment.resolve_left (fun h => h hd.symm)
        subst hk
        exact hr.2 (List.cons_prefix_cons.mp htail).1.symm

theorem scan_plain (hk : keyword k = some t) (hplain : isPlain k = true) (hr : Follows c r)
    (hapart : Apart k (c :: r)) : scan (k ++ c :: r) = t :: scan (c :: r) := by
  refine scan_keyword hk ?_ hapart (otherRules_plain hplain hr)
  rintro rfl
  cases hplain

/-- A keyword before a blank. -/
theorem scan_plain_blank (hk : keyword k = some t) (hplain : isPlain k = true)
    (hfirst : k ∉ firstWords) : scan (k ++ ' ' :: r) = t :: scan r := by
  rw [scan_plain hk hplain ⟨stops_blank r, by decide⟩ (apart_blank hfirst r), scan_blank rfl]

-- ---------------------------------------------------------------------------
-- Names of members, names of system views and literals
-- ---------------------------------------------------------------------------

def isExtName (text : Text) : Bool := decide (text ≠ [] ∧ extNameLength text = text.length)

theorem isWord_take (h : wordLength cs ≠ 0) : isWord (cs.take (wordLength cs)) = true := by
  cases cs with
  | nil => exact absurd rfl h
  | cons c cs =>
    by_cases hc : isLetter c = true
    · rw [wordLength, if_pos hc, Nat.add_comm, List.take_succ_cons]
      refine isWord_iff.mpr ⟨c, _, rfl, hc, fun x hx => ?_⟩
      have htake : cs.take (cs.takeWhile isWordChar).length = cs.takeWhile isWordChar :=
        (List.prefix_iff_eq_take.mp (List.takeWhile_prefix _)).symm
      rw [htake] at hx
      exact List.mem_takeWhile_imp hx
    · exact absurd (if_neg hc) h

theorem exists_of_isExtName (h : isExtName w = true) :
    ∃ w₁ w₂, w = w₁ ++ ':' :: ':' :: w₂ ∧ (w₁ = [] ∨ isWord w₁ = true) ∧ isWord w₂ = true := by
  simp only [isExtName, decide_eq_true_eq] at h
  obtain ⟨hne, hlen⟩ := h
  have hpos : w.length ≠ 0 := fun h => hne (List.length_eq_zero_iff.mp h)
  unfold extNameLength at hlen
  split at hlen
  · rename_i w₂ hdrop
    have hsplit : w = w.take (wordLength w) ++ ':' :: ':' :: w₂ := by
      rw [← hdrop, List.take_append_drop]
    have hwlen : w.length = (w.take (wordLength w)).length + (2 + w₂.length) := by
      conv_lhs => rw [hsplit]
      simp
      omega
    split at hlen
    · exact absurd hlen.symm hpos
    · rename_i hw₂
      have htake : (w.take (wordLength w)).length = wordLength w := by
        have hle : (w.drop (wordLength w)).length = w.length - wordLength w := List.length_drop
        rw [hdrop] at hle
        simp at hle ⊢
        omega
      refine ⟨w.take (wordLength w), w₂, hsplit, ?_, ?_⟩
      · by_cases hw : wordLength w = 0
        · exact Or.inl (by rw [hw, List.take_zero])
        · exact Or.inr (isWord_take hw)
      · have hw₂len : wordLength w₂ = w₂.length := by omega
        simp only [isWord, decide_eq_true_eq]
        refine ⟨fun h => hw₂ (by rw [h]; rfl), hw₂len⟩
  · exact absurd hlen.symm hpos

theorem refidLength_colon (h : '(' ∉ w) : refidLength (w ++ ':' :: r) = 0 := by
  refine if_neg fun hprefix => ?_
  have hcolon : w ++ [':'] <+: w ++ ':' :: r := by simp
  rcases List.prefix_or_prefix_of_prefix hprefix hcolon with h' | h'
  · have hmem : '(' ∈ w ++ [':'] := h'.mem (by decide)
    simp [h] at hmem
  · have hmem : ':' ∈ "refid(".toList := h'.mem (by simp)
    exact absurd hmem (by decide)

theorem keywords_colons {rule : Text × Token} (hrule : rule ∈ keywords) :
    ¬ [':', ':'] <:+: rule.1 := by
  have h := List.all_eq_true.mp keywords_plain rule hrule
  simp only [isPlainText, Bool.and_eq_true] at h
  simpa using h.2

theorem isWordChar_of_isWord (hw : isWord w = true) : ∀ x ∈ w, isWordChar x = true := by
  obtain ⟨c, cs, rfl, hc, hcs⟩ := isWord_iff.mp hw
  intro x hx
  rcases List.mem_cons.mp hx with rfl | hx
  · simp [isWordChar, hc]
  · exact hcs x hx

theorem notMem_of_isWord (hw : isWord w = true) (hc : isWordChar c = false) : c ∉ w := by
  intro hmem
  rw [isWordChar_of_isWord hw c hmem] at hc
  cases hc

theorem otherRules_extName {w₁ w₂ : Text} (hw₁ : w₁ = [] ∨ isWord w₁ = true)
    (hw₂ : isWord w₂ = true) (hr : Stops r) :
    extNameLength (w₁ ++ ':' :: ':' :: (w₂ ++ r)) = (w₁ ++ ':' :: ':' :: w₂).length ∧
      ∀ y ∈ otherRules (w₁ ++ ':' :: ':' :: (w₂ ++ r)), y.1 ≤ (w₁ ++ ':' :: ':' :: w₂).length := by
  have hlen₁ : wordLength (w₁ ++ ':' :: ':' :: (w₂ ++ r)) = w₁.length := by
    rcases hw₁ with rfl | hw₁
    · rfl
    · exact wordLength_append_of hw₁ (by simp; decide)
  have hlen₂ : wordLength (w₂ ++ r) = w₂.length := wordLength_append hw₂ hr
  have hne₂ : w₂.length ≠ 0 := by
    obtain ⟨c, cs, rfl, -, -⟩ := isWord_iff.mp hw₂
    simp
  have hext : extNameLength (w₁ ++ ':' :: ':' :: (w₂ ++ r)) =
      (w₁ ++ ':' :: ':' :: w₂).length := by
    rw [extNameLength, hlen₁, List.drop_left]
    simp [hlen₂, hne₂]
    omega
  have hrefid : refidLength (w₁ ++ ':' :: ':' :: (w₂ ++ r)) = 0 := by
    refine refidLength_colon ?_
    rcases hw₁ with rfl | hw₁
    · simp
    · exact notMem_of_isWord hw₁ (by decide)
  refine ⟨hext, ?_⟩
  rcases hw₁ with rfl | hw₁
  · obtain ⟨h₁, h₂, h₃, h₄, h₅, h₆, h₇, h₈⟩ :=
      lengths_of_isSymbolChar (c := ':') (by decide) (':' :: (w₂ ++ r))
    have h₉ : commentLength (':' :: ':' :: (w₂ ++ r)) = 0 := if_neg (by simp)
    have h₁₀ : blankLength (':' :: ':' :: (w₂ ++ r)) = 0 := by simp [blankLength, isBlank]
    rw [List.nil_append] at hext
    simp [otherRules, hext, h₁, h₂, h₃, h₄, h₅, h₆, h₇, h₈, h₉, h₁₀]
  · obtain ⟨c, cs, rfl, hc, -⟩ := isWord_iff.mp hw₁
    obtain ⟨h₁, h₂, h₃, h₄, h₅, h₆, h₇, h₈⟩ :=
      lengths_of_isLetter hc (cs ++ ':' :: ':' :: (w₂ ++ r))
    rw [List.cons_append] at hlen₁ hext hrefid ⊢
    simp [otherRules, hlen₁, hext, hrefid, h₁, h₂, h₃, h₄, h₅, h₆, h₇, h₈]

/-- The name of a member of a class. -/
theorem scan_extName (hw : isExtName w = true) (hr : Stops r) :
    scan (w ++ r) = .extName w :: scan r := by
  obtain ⟨w₁, w₂, rfl, hw₁, hw₂⟩ := exists_of_isExtName hw
  obtain ⟨hext, hother⟩ := otherRules_extName hw₁ hw₂ hr
  have happend : w₁ ++ ':' :: ':' :: w₂ ++ r = w₁ ++ ':' :: ':' :: (w₂ ++ r) := by
    simp
  generalize hcs : w₁ ++ ':' :: ':' :: (w₂ ++ r) = cs at happend hext hother
  generalize hname : w₁ ++ ':' :: ':' :: w₂ = name at happend hext hother
  have hne : name ≠ [] := by
    rw [← hname]
    simp
  have hkeyword : ∀ y ∈ keywords.map (keywordRule cs), y.1 < name.length := by
    intro y hy
    obtain ⟨rule, hrule, rfl⟩ := List.mem_map.mp hy
    unfold keywordRule
    split
    · rename_i hprefix
      by_contra hlonger
      have hbegin : name <+: cs := ⟨r, happend⟩
      have hlong := List.prefix_of_prefix_length_le hbegin hprefix (Nat.le_of_not_lt hlonger)
      refine keywords_colons hrule (List.IsInfix.trans ?_ hlong.isInfix)
      exact ⟨w₁, w₂, by rw [← hname]; simp⟩
    · exact List.length_pos_iff.mpr hne
  have htake : cs.take name.length = name := by
    rw [← happend, List.take_left]
  have hsplit : rules cs = keywords.map (keywordRule cs) ++
      (name.length, .token (.extName name)) :: (otherRules cs).drop 1 := by
    rw [rules_eq]
    simp [otherRules, htake, hext]
  have hlongest : longest (rules (name ++ r)) = (name.length, .token (.extName name)) := by
    rw [happend, hsplit]
    exact longest_eq (List.length_pos_iff.mpr hne) hkeyword fun y hy =>
      hother y (List.mem_of_mem_drop hy)
  exact scan_append_of_longest hlongest hne

def isSystemViewName (text : Text) : Bool :=
  decide (text ≠ [] ∧ markedLength '%' text = text.length)

/-- A rule that is not one for keywords, when no other one matches. -/
theorem scan_other (before after : List (Nat × Lexeme)) (hw : w ≠ [])
    (hkeyword : ∀ y ∈ keywords.map (keywordRule (w ++ r)), y.1 = 0)
    (hsplit : otherRules (w ++ r) = before ++ (w.length, .token t) :: after)
    (hbefore : ∀ y ∈ before, y.1 < w.length) (hafter : ∀ y ∈ after, y.1 ≤ w.length) :
    scan (w ++ r) = t :: scan r := by
  refine scan_append_of_longest ?_ hw
  have hpos : 0 < w.length := List.length_pos_iff.mpr hw
  rw [rules_eq, hsplit, ← List.append_assoc]
  refine longest_eq hpos (fun y hy => ?_) hafter
  rcases List.mem_append.mp hy with hy | hy
  · rw [hkeyword y hy]
    exact hpos
  · exact hbefore y hy

theorem scan_systemViewName (hw : isSystemViewName w = true) :
    scan (w ++ ' ' :: r) = .systemViewName w :: scan r := by
  simp only [isSystemViewName, decide_eq_true_eq] at hw
  obtain ⟨hne, hlen⟩ := hw
  obtain ⟨c, w', rfl⟩ := List.exists_cons_of_ne_nil hne
  have hparts : c = '%' ∧ isWord w' = true := by
    rw [markedLength] at hlen
    split at hlen
    · rename_i h
      refine ⟨h.1, ?_⟩
      have hword : wordLength w' = w'.length := by
        rw [List.length_cons] at hlen
        omega
      have hw' : w' ≠ [] := by
        rintro rfl
        exact h.2 rfl
      simp [isWord, hw', hword]
    · simp at hlen
  obtain ⟨rfl, hw'⟩ := hparts
  have hlen' : wordLength (w' ++ ' ' :: r) = w'.length := wordLength_append hw' (stops_blank r)
  have hpos : w'.length ≠ 0 := by
    obtain ⟨d, cs, rfl, -, -⟩ := isWord_iff.mp hw'
    simp
  have hmarked : markedLength '%' ('%' :: (w' ++ ' ' :: r)) = w'.length + 1 := by
    simp [markedLength, hlen', hpos, Nat.add_comm]
  have hletter : isLetter '%' = false := by decide
  have h₁ : wordLength ('%' :: (w' ++ ' ' :: r)) = 0 := by simp [wordLength, hletter]
  have h₂ : extNameLength ('%' :: (w' ++ ' ' :: r)) = 0 :=
    extNameLength_of_wordLength h₁ (by simp)
  have h₃ : markedLength '$' ('%' :: (w' ++ ' ' :: r)) = 0 := by simp [markedLength]
  have h₄ : digitsLength ('%' :: (w' ++ ' ' :: r)) = 0 := by simp [digitsLength]
  have h₅ : cardLength ('%' :: (w' ++ ' ' :: r)) = 0 := by
    unfold cardLength
    split
    · rename_i heq
      obtain ⟨rfl, -⟩ := List.cons.inj heq
      rfl
    · rfl
  have h₆ : refidLength ('%' :: (w' ++ ' ' :: r)) = 0 := if_neg (by simp)
  have hscan : scan (('%' :: w') ++ ' ' :: r) = .systemViewName ('%' :: w') :: scan (' ' :: r) := by
    refine scan_other ((otherRules ('%' :: (w' ++ ' ' :: r))).take 3)
      ((otherRules ('%' :: (w' ++ ' ' :: r))).drop 4) hne
      (keywordRule_eq_zero (Or.inr (Or.inr (Or.inl rfl)))) ?_ ?_ ?_
    · simp [otherRules, hmarked]
    · simp [otherRules, h₁, h₂, h₃]
    · simp [otherRules, h₄, h₅, h₆, doubleLength, commentLength, stringLength, blankLength, isBlank]
  rw [hscan, scan_blank rfl]

theorem scan_integer (value : Nat) :
    scan (Nat.toDigits 10 value ++ ' ' :: r) = .integer value :: scan r := by
  have hdigit : ∀ c ∈ Nat.toDigits 10 value, c.isDigit = true :=
    fun c hc => Nat.isDigit_of_mem_toDigits (by decide) (by decide) hc
  have hvalue : atoi (Nat.toDigits 10 value) = value := Nat.ofDigitChars_ten_toDigits
  have hne : Nat.toDigits 10 value ≠ [] := Nat.toDigits_ne_nil
  generalize hds : Nat.toDigits 10 value = ds at hdigit hvalue hne ⊢
  obtain ⟨d, ds', rfl⟩ := List.exists_cons_of_ne_nil hne
  have hd : d.isDigit = true := hdigit d List.mem_cons_self
  have hother (x : Char) (hx : x.isDigit = false) : d ≠ x := by
    rintro rfl
    rw [hd] at hx
    cases hx
  have hletter : isLetter d = false := by
    cases hl : isLetter d with
    | false => rfl
    | true =>
      rw [isDigit_eq_false_of_isLetter hl] at hd
      cases hd
  have hdigits : digitsLength (d :: (ds' ++ ' ' :: r)) = ds'.length + 1 := by
    have htake : (d :: ds' ++ ' ' :: r).takeWhile Char.isDigit =
        d :: ds' ++ (' ' :: r).takeWhile Char.isDigit := List.takeWhile_append_of_pos hdigit
    rw [List.cons_append] at htake
    rw [digitsLength, htake]
    simp
  have h₁ : wordLength (d :: (ds' ++ ' ' :: r)) = 0 := by simp [wordLength, hletter]
  have h₂ : extNameLength (d :: (ds' ++ ' ' :: r)) = 0 := extNameLength_of_wordLength h₁ fun hp =>
    hother ':' rfl (List.cons_prefix_cons.mp hp).1.symm
  have h₃ : cardLength (d :: (ds' ++ ' ' :: r)) = 0 := by
    unfold cardLength
    split
    · rename_i heq
      have htail := (List.cons.inj heq).2
      cases ds' with
      | nil => exact absurd (List.cons.inj htail).1 (by decide)
      | cons e ds' =>
        have he : e.isDigit = true := hdigit e (by simp)
        rw [(List.cons.inj htail).1] at he
        cases he
    · rfl
  have h₄ : doubleLength (d :: (ds' ++ ' ' :: r)) = 0 := by
    have hdrop : (d :: (ds' ++ ' ' :: r)).drop (ds'.length + 1) = ' ' :: r := by simp
    unfold doubleLength
    rw [hdigits, hdrop]
    rfl
  have h₅ : refidLength (d :: (ds' ++ ' ' :: r)) = 0 := if_neg fun hp =>
    hother 'r' rfl (List.cons_prefix_cons.mp hp).1.symm
  have h₆ : commentLength (d :: (ds' ++ ' ' :: r)) = 0 := if_neg fun hp =>
    hother '/' rfl (List.cons_prefix_cons.mp hp).1.symm
  have h₇ : stringLength (d :: (ds' ++ ' ' :: r)) = 0 := by
    unfold stringLength
    split
    · rename_i heq
      exact absurd (List.cons.inj heq).1 (hother '\x22' rfl)
    · rfl
  have h₈ : blankLength (d :: (ds' ++ ' ' :: r)) = 0 := by
    have hblank : isBlank d = false := by
      simp [isBlank, hother ' ' rfl, hother '\t' rfl, hother '\r' rfl, hother '\n' rfl]
    simp [blankLength, hblank]
  have h₉ (m : Char) (hm : m.isDigit = false) : markedLength m (d :: (ds' ++ ' ' :: r)) = 0 := by
    simp [markedLength, hother m hm]
  have hscan : scan ((d :: ds') ++ ' ' :: r) = .integer value :: scan (' ' :: r) := by
    refine scan_other ((otherRules (d :: (ds' ++ ' ' :: r))).take 5)
      ((otherRules (d :: (ds' ++ ' ' :: r))).drop 6) hne
      (keywordRule_eq_zero (Or.inr (Or.inl hd))) ?_ ?_ ?_
    · simp [otherRules, hdigits, hvalue]
    · simp [otherRules, h₁, h₂, h₃, h₉ '$' rfl, h₉ '%' rfl]
    · simp [otherRules, h₄, h₅, h₆, h₇, h₈]
  rw [hscan, scan_blank rfl]

theorem scan_string {value : Text} (h : '\x22' ∉ value) :
    scan ('\x22' :: (value ++ '\x22' :: r)) = .string value :: scan r := by
  have hinner : (value ++ '\x22' :: r).takeWhile (· ≠ '\x22') = value := by
    have hall : ∀ x ∈ value, decide (x ≠ '\x22') = true := by
      intro x hx
      simp only [ne_eq, decide_eq_true_eq]
      rintro rfl
      exact h hx
    rw [List.takeWhile_append_of_pos hall]
    simp
  have hstring : stringLength ('\x22' :: (value ++ '\x22' :: r)) = value.length + 2 := by
    simp only [stringLength, hinner]
    simp
  have h₁ : wordLength ('\x22' :: (value ++ '\x22' :: r)) = 0 := by
    have hletter : isLetter '\x22' = false := by decide
    simp [wordLength, hletter]
  have h₂ : extNameLength ('\x22' :: (value ++ '\x22' :: r)) = 0 :=
    extNameLength_of_wordLength h₁ (by simp)
  have h₃ : cardLength ('\x22' :: (value ++ '\x22' :: r)) = 0 := by
    unfold cardLength
    split
    · rename_i heq
      obtain ⟨rfl, -⟩ := List.cons.inj heq
      rfl
    · rfl
  have h₄ : refidLength ('\x22' :: (value ++ '\x22' :: r)) = 0 := if_neg (by simp)
  have hscan : scan (('\x22' :: (value ++ ['\x22'])) ++ r) = .string value :: scan r := by
    refine scan_other ((otherRules ('\x22' :: (value ++ '\x22' :: r))).take 9)
      ((otherRules ('\x22' :: (value ++ '\x22' :: r))).drop 10) (by simp)
      (keywordRule_eq_zero (Or.inr (Or.inr (Or.inr rfl)))) ?_ ?_ ?_
    · simp [otherRules, hstring]
    · simp [otherRules, h₁, h₂, h₃, h₄, markedLength, digitsLength, doubleLength, commentLength]
    · simp [otherRules, blankLength, isBlank]
  simpa using hscan

end Loxim.QueryParser
