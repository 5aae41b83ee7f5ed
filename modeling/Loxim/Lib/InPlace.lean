import Mathlib.Data.List.Forall2
import Mathlib.Data.Prod.Lex
import Mathlib.Logic.Relation
import Loxim.Lib.Sorting

/-!
# Comparisons that change what they compare

A comparison of two values may leave others in their place. Sorting with it compares some
elements with others and leaves them in an order that it allows. Where the values have
keys, a comparison answers by the keys, keeps them, and leaves one value as it is when
that value already stands in the order in which comparing would put it.
-/

namespace Loxim

/-- `C a b r a' b'`: comparing `a` with `b` answers `r` and leaves `a'` and `b'`. -/
abbrev Comparison (α : Type) := α → α → Bool → α → α → Prop

section

variable {α : Type}

/-- Comparing two values does not change what `f` says of them. -/
def Keeps {β : Type} (C : Comparison α) (f : α → β) : Prop :=
  ∀ ⦃a b : α⦄ ⦃r : Bool⦄ ⦃a' b' : α⦄, C a b r a' b' → f a' = f a ∧ f b' = f b

/-- Some comparisons of two elements of a list. -/
inductive Compared (C : Comparison α) : List α → List α → Prop
  | refl (l : List α) : Compared C l l
  | ahead {p q t k : List α} {x y x' y' : α} {r : Bool} : C x y r x' y' →
      Compared C (p ++ x' :: (q ++ y' :: t)) k → Compared C (p ++ x :: (q ++ y :: t)) k
  | behind {p q t k : List α} {x y x' y' : α} {r : Bool} : C y x r y' x' →
      Compared C (p ++ x' :: (q ++ y' :: t)) k → Compared C (p ++ x :: (q ++ y :: t)) k

/-- What `std::sort` may leave: no element compares less than one before it. -/
def SortLeaves (C : Comparison α) (l s : List α) : Prop :=
  ∃ k, Compared C l k ∧ s.Perm k ∧ s.Pairwise fun a b => ∀ a' b', ¬ C b a true b' a'

/-- The loop of a comparison for equality. -/
inductive EqualLoop (E : Comparison α) : List α → List α → Bool → List α → List α → Prop
  | done : EqualLoop E [] [] true [] []
  | unequal {a b a' b' : α} (l l' : List α) : E a b false a' b' →
      EqualLoop E (a :: l) (b :: l') false (a' :: l) (b' :: l')
  | equal {a b a' b' : α} {l l' k k' : List α} {r : Bool} : E a b true a' b' →
      EqualLoop E l l' r k k' → EqualLoop E (a :: l) (b :: l') r (a' :: k) (b' :: k')

/-- The loop of a comparison for order. -/
inductive LessLoop (L G : Comparison α) : List α → List α → Bool → List α → List α → Prop
  | done : LessLoop L G [] [] false [] []
  | less {a b a' b' : α} (l l' : List α) : L a b true a' b' →
      LessLoop L G (a :: l) (b :: l') true (a' :: l) (b' :: l')
  | greater {a b a' b' a'' b'' : α} (l l' : List α) : L a b false a' b' → G a' b' true a'' b'' →
      LessLoop L G (a :: l) (b :: l') false (a'' :: l) (b'' :: l')
  | next {a b a' b' a'' b'' : α} {l l' k k' : List α} {r : Bool} : L a b false a' b' →
      G a' b' false a'' b'' → LessLoop L G l l' r k k' →
      LessLoop L G (a :: l) (b :: l') r (a'' :: k) (b'' :: k')

/-- `not (equal || less)`. -/
inductive GreaterRun (E L : Comparison α) : Comparison α
  | equal {a b a' b' : α} : E a b true a' b' → GreaterRun E L a b false a' b'
  | unequal {a b a' b' a'' b'' : α} {r : Bool} : E a b false a' b' → L a' b' r a'' b'' →
      GreaterRun E L a b (!r) a'' b''

/-- Lists of one size are sorted and compared. -/
inductive ListEqual (E L : Comparison α) : List α → List α → Bool → List α → List α → Prop
  | sizes {l l' : List α} : l'.length ≠ l.length → ListEqual E L l l' false l l'
  | sorted {l l' s s' k k' : List α} {r : Bool} : l'.length = l.length → SortLeaves L l s →
      SortLeaves L l' s' → EqualLoop E s s' r k k' → ListEqual E L l l' r k k'

inductive ListLess (E L : Comparison α) : List α → List α → Bool → List α → List α → Prop
  | sizes {l l' : List α} : l'.length ≠ l.length →
      ListLess E L l l' (decide (l.length < l'.length)) l l'
  | sorted {l l' s s' k k' : List α} {r : Bool} : l'.length = l.length → SortLeaves L l s →
      SortLeaves L l' s' → LessLoop L (GreaterRun E L) s s' r k k' → ListLess E L l l' r k k'

end

-- ---------------------------------------------------------------------------
-- When a value stays
-- ---------------------------------------------------------------------------

section

variable {α κ : Type} [LinearOrder κ]

/-- Of two lists the elements are compared up to the first with different keys. -/
def LoopStays (key : α → κ) (stays : α → α → Prop) : List α → List α → Prop
  | a :: l, b :: l' => stays a b ∧ (key a = key b → LoopStays key stays l l')
  | _, _ => True

/-- The list is in its only order, and its elements stay when they are compared with each
other and with those of the other list. -/
structure ListStays (key : α → κ) (stays : α → α → Prop) (l l' : List α) : Prop where
  ordered : l.Pairwise fun a b => key a < key b ∨ a = b
  pairs : l.Pairwise fun a b => stays a b ∧ stays b a
  loop : LoopStays key stays l (sort (fun a b => decide (key a < key b)) l')

/-- Lists of different sizes are not gone through. -/
def SizesStay (key : α → κ) (stays : α → α → Prop) (l l' : List α) : Prop :=
  l'.length = l.length → ListStays key stays l l'

/-- Lists are compared by their sizes and then by the keys in order. -/
def listKey (key : α → κ) (l : List α) : ℕ ×ₗ List κ :=
  toLex (l.length, (l.map key).insertionSort (· ≤ ·))

/-- One comparison after another of the same two values. -/
inductive Passes (E L : Comparison α) : α → α → α → α → Prop
  | equal {a b a' b' : α} {r : Bool} : E a b r a' b' → Passes E L a b a' b'
  | less {a b a' b' : α} {r : Bool} : L a b r a' b' → Passes E L a b a' b'
  | trans {a b a' b' a'' b'' : α} : Passes E L a b a' b' → Passes E L a' b' a'' b'' →
      Passes E L a b a'' b''

/-- Two lists are gone through up to the first elements with different keys. -/
inductive Visits (P : α → α → α → α → Prop) (key : α → κ) :
    List α → List α → List α → List α → Prop
  | done : Visits P key [] [] [] []
  | stop {a b a' b' : α} (l l' : List α) : P a b a' b' → key a ≠ key b →
      Visits P key (a :: l) (b :: l') (a' :: l) (b' :: l')
  | next {a b a' b' : α} {l l' k k' : List α} : P a b a' b' → key a = key b →
      Visits P key l l' k k' → Visits P key (a :: l) (b :: l') (a' :: k) (b' :: k')

/-- Lists of one size are sorted and gone through, others are left. -/
inductive ListVisits (P : α → α → α → α → Prop) (L : Comparison α) (key : α → κ) :
    List α → List α → List α → List α → Prop
  | sizes {l l' : List α} : l'.length ≠ l.length → ListVisits P L key l l' l l'
  | sorted {l l' s s' k k' : List α} : l'.length = l.length → SortLeaves L l s →
      SortLeaves L l' s' → Visits P key s s' k k' → ListVisits P L key l l' k k'

/-- What comparisons with other values make of a value. -/
inductive Reach (E L : Comparison α) : α → α → Prop
  | refl (a : α) : Reach E L a a
  | left {a a' b c c' : α} : Reach E L a a' → Passes E L a' c b c' → Reach E L a b
  | right {a a' b c c' : α} : Reach E L a a' → Passes E L c a' c' b → Reach E L a b

/-- `y` has the key of `x` and can be left wherever `x` stays. -/
structure Follows (E : Comparison α) (key : α → κ) (stays : α → α → Prop) (x y : α) : Prop where
  key_eq : key y = key x
  left {b : α} : stays x b → ∃ r b', E y b r y b'

/-- The comparisons answer by the keys and keep them, and `stays` says when they leave a
value as it is. -/
structure Level (E L : Comparison α) (key : α → κ) (stays : α → α → Prop) : Prop where
  equal_answer {a b a' b' : α} {r : Bool} : E a b r a' b' → (r = true ↔ key a = key b)
  less_answer {a b a' b' : α} {r : Bool} : L a b r a' b' → (r = true ↔ key a < key b)
  equal_key : Keeps E key
  less_key : Keeps L key
  equal_total (a b : α) : ∃ r a' b', E a b r a' b'
  equal_symm {a b a' b' : α} {r : Bool} : E a b r a' b' → E b a r b' a'
  /-- What `equal` leaves `less` can leave. -/
  less_of_equal {a b a' b' : α} {r : Bool} : E a b r a' b' → ∃ r, L a b r a' b'
  /-- What was compared can stay. -/
  equal_again {a b a' b' : α} {r : Bool} : E a b r a' b' → ∃ r, E a' b' r a' b'
  less_again {a b a' b' : α} {r : Bool} : L a b r a' b' → ∃ r, E a' b' r a' b'
  congr {a b b' : α} : key b = key b' → stays a b → stays a b'
  full {a : α} : stays a a → ∀ b, stays a b
  equal_left {a b a' b' : α} {r : Bool} : E a b r a' b' → stays a b → a' = a
  less_left {a b a' b' : α} {r : Bool} : L a b r a' b' → stays a b → a' = a
  less_right {a b a' b' : α} {r : Bool} : L a b r a' b' → stays b a → b' = b
  leaves {a b : α} : (∀ r a' b', E a b r a' b' → a' = a) → stays a b
  /-- A value can stay where what it came from does. -/
  id {a a' b : α} : Reach E L a a' → stays a b → ∃ r b', E a' b r a' b'

-- ---------------------------------------------------------------------------
-- Keys
-- ---------------------------------------------------------------------------

section

variable {E L : Comparison α} {key : α → κ} {stays : α → α → Prop} {P : α → α → α → α → Prop}
  {a b a' b' : α} {l l' k k' s s' : List α} {r : Bool}

omit [LinearOrder κ]

theorem Visits.swap (h : Visits P key l l' k k') :
    Visits (fun a b a' b' => P b a b' a') key l' l k' k := by
  induction h with
  | done => exact .done
  | stop l l' hab hne => exact .stop l' l hab hne.symm
  | next hab heq _ ih => exact .next hab heq.symm ih

theorem GreaterRun.passes (h : GreaterRun E L a b r a' b') : Passes E L a b a' b' := by
  cases h with
  | equal hE => exact .equal hE
  | unequal hE hL => exact .trans (.equal hE) (.less hL)

section

variable {β : Type} {C : Comparison α} {f : α → β}

theorem Compared.map_eq (hf : Keeps C f) (h : Compared C l k) : k.map f = l.map f := by
  induction h with
  | refl l => rfl
  | ahead hab _ ih =>
    obtain ⟨ha, hb⟩ := hf hab
    rw [ih]
    simp only [List.map_append, List.map_cons, ha, hb]
  | behind hab _ ih =>
    obtain ⟨hb, ha⟩ := hf hab
    rw [ih]
    simp only [List.map_append, List.map_cons, ha, hb]

theorem SortLeaves.map_perm (hf : Keeps C f) (h : SortLeaves C l s) :
    (s.map f).Perm (l.map f) := by
  obtain ⟨k, hcompared, hperm, -⟩ := h
  rw [← hcompared.map_eq hf]
  exact hperm.map f

theorem Passes.map_eq (hE : Keeps E f) (hL : Keeps L f) (h : Passes E L a b a' b') :
    f a' = f a ∧ f b' = f b := by
  induction h with
  | equal h => exact hE h
  | less h => exact hL h
  | trans _ _ ih ih' => exact ⟨ih'.1.trans ih.1, ih'.2.trans ih.2⟩

/-- What both operands of every comparison keep. -/
theorem Reach.preserves {p : α → Prop}
    (hE : ∀ {a b r a' b'}, E a b r a' b' → (p a → p a') ∧ (p b → p b'))
    (hL : ∀ {a b r a' b'}, L a b r a' b' → (p a → p a') ∧ (p b → p b'))
    (h : Reach E L a a') (ha : p a) : p a' := by
  have hpasses {a b a' b' : α} (h : Passes E L a b a' b') : (p a → p a') ∧ (p b → p b') := by
    induction h with
    | equal h => exact hE h
    | less h => exact hL h
    | trans _ _ ih ih' => exact ⟨fun ha => ih'.1 (ih.1 ha), fun hb => ih'.2 (ih.2 hb)⟩
  induction h with
  | refl => exact ha
  | left _ hab ih => exact (hpasses hab).1 ih
  | right _ hab ih => exact (hpasses hab).2 ih

theorem Visits.map_eq (hf : ∀ {a b a' b'}, P a b a' b' → f a' = f a ∧ f b' = f b)
    (h : Visits P key l l' k k') : k.map f = l.map f ∧ k'.map f = l'.map f := by
  induction h with
  | done => exact ⟨rfl, rfl⟩
  | stop l l' hab =>
    obtain ⟨ha, hb⟩ := hf hab
    exact ⟨by rw [List.map_cons, ha, List.map_cons], by rw [List.map_cons, hb, List.map_cons]⟩
  | next hab _ _ ih =>
    obtain ⟨ha, hb⟩ := hf hab
    exact ⟨by rw [List.map_cons, ha, ih.1, List.map_cons],
      by rw [List.map_cons, hb, ih.2, List.map_cons]⟩

end

theorem map_sort_key [LinearOrder κ] (key : α → κ) (l : List α) :
    (sort (fun a b => decide (key a < key b)) l).map key = (l.map key).insertionSort (· ≤ ·) :=
  map_sort fun a b _ _ => by rw [decide_eq_true_iff]

theorem ordered_keys [LinearOrder κ] (h : l.Pairwise fun a b => key a < key b ∨ a = b) :
    l.Pairwise fun a b => key a ≤ key b :=
  h.imp fun hab => hab.elim le_of_lt fun heq => le_of_eq (congrArg key heq)

theorem ordered_inj [LinearOrder κ] (h : l.Pairwise fun a b => key a < key b ∨ a = b)
    (ha : a ∈ l) (hb : b ∈ l) (heq : key a = key b) : a = b := by
  have hinj : l.Pairwise fun a b => key a = key b → a = b :=
    h.imp fun hab heq => hab.elim (fun hlt => absurd heq hlt.ne) id
  exact hinj.forall_of_forall_of_flip (fun _ _ _ => rfl)
    (hinj.imp fun hab heq => (hab heq.symm).symm) ha hb heq

theorem listKey_inj [LinearOrder κ] : listKey key l = listKey key l' ↔
    l.length = l'.length ∧
      (l.map key).insertionSort (· ≤ ·) = (l'.map key).insertionSort (· ≤ ·) := by
  rw [listKey, listKey, EmbeddingLike.apply_eq_iff_eq, Prod.mk.injEq]

theorem listKey_lt [LinearOrder κ] : listKey key l < listKey key l' ↔
    l.length < l'.length ∨ l.length = l'.length ∧
      (l.map key).insertionSort (· ≤ ·) < (l'.map key).insertionSort (· ≤ ·) := by
  rw [listKey, listKey, Prod.Lex.toLex_lt_toLex]

theorem listKey_congr [LinearOrder κ] (h : (l.map key).Perm (l'.map key)) :
    listKey key l = listKey key l' := by
  refine listKey_inj.mpr ⟨by simpa using h.length_eq, ?_⟩
  refine List.Perm.eq_of_pairwise (fun a b _ _ => le_antisymm) (List.pairwise_insertionSort _ _)
    (List.pairwise_insertionSort _ _) ?_
  exact (List.perm_insertionSort _ _).trans (h.trans (List.perm_insertionSort _ _).symm)

theorem LoopStays.congr {l'' : List α}
    (h : LoopStays key stays l l') (hcongr : ∀ a b b', key b = key b' → stays a b → stays a b')
    (heq : l'.map key = l''.map key) :
    LoopStays key stays l l'' := by
  induction l generalizing l' l'' with
  | nil => trivial
  | cons a l ih =>
    cases l'' with
    | nil => trivial
    | cons b'' l'' =>
      cases l' with
      | nil => cases heq
      | cons b l' =>
        obtain ⟨hb, hrest⟩ := List.cons.inj heq
        exact ⟨hcongr a b b'' hb h.1, fun hkey => ih (h.2 (hkey.trans hb.symm)) hrest⟩

theorem ListVisits.map_perm {β : Type} {f : α → β} (hE : Keeps E f) (hL : Keeps L f)
    (h : ListVisits (Passes E L) L key l l' k k') :
    (k.map f).Perm (l.map f) ∧ (k'.map f).Perm (l'.map f) := by
  cases h with
  | sizes => exact ⟨.refl _, .refl _⟩
  | sorted _ hs hs' hv =>
    obtain ⟨hk, hk'⟩ := hv.map_eq fun hab => hab.map_eq hE hL
    rw [hk, hk']
    exact ⟨hs.map_perm hL, hs'.map_perm hL⟩

theorem Visits.eq_left (hP : ∀ {a b a' b'}, P a b a' b' → stays a b → a' = a)
    (h : Visits P key l l' k k') (hstays : LoopStays key stays l l') : k = l := by
  induction h with
  | done => rfl
  | stop l l' hab => rw [hP hab hstays.1]
  | next hab heq _ ih => rw [hP hab hstays.1, ih (hstays.2 heq)]

theorem pair_sublist (p q t : List α) (x y : α) :
    [x, y].Sublist (p ++ x :: (q ++ y :: t)) := by
  refine List.Sublist.trans ?_ (List.sublist_append_right p _)
  refine List.Sublist.cons_cons x (List.Sublist.trans ?_ (List.sublist_append_right q _))
  exact List.Sublist.cons_cons y (List.nil_sublist t)

theorem pair_perm (p q t : List α) (x y : α) :
    (p ++ y :: (q ++ x :: t)).Perm (p ++ x :: (q ++ y :: t)) := by
  refine List.Perm.append_left p ?_
  refine (List.perm_middle.cons y).trans ((List.Perm.swap x y _).trans ?_)
  exact List.perm_middle.symm.cons x

theorem pair_inj {p q t : List α} {x y x' y' : α}
    (h : p ++ x' :: (q ++ y' :: t) = p ++ x :: (q ++ y :: t)) : x' = x ∧ y' = y := by
  obtain ⟨hx, hrest⟩ := List.cons.inj (List.append_cancel_left h)
  exact ⟨hx, (List.cons.inj (List.append_cancel_left hrest)).1⟩

theorem forall₂_trans {R S : α → α → Prop} (h : List.Forall₂ R l k)
    (h' : List.Forall₂ S k s) (htrans : ∀ x y z, R x y → S y z → R x z) : List.Forall₂ R l s := by
  induction h generalizing s with
  | nil =>
    cases h'
    exact .nil
  | cons hxy _ ih =>
    cases h' with
    | cons hyz h' => exact .cons (htrans _ _ _ hxy hyz) (ih h')

theorem forall₂_of_map {R : α → α → Prop} (h : l.map key = s.map key)
    (hR : ∀ x ∈ l, ∀ y ∈ s, key x = key y → R x y) : List.Forall₂ R l s := by
  induction l generalizing s with
  | nil =>
    cases s with
    | nil => exact .nil
    | cons y s => cases h
  | cons x l ih =>
    cases s with
    | nil => cases h
    | cons y s =>
      obtain ⟨hxy, hrest⟩ := List.cons.inj h
      refine .cons (hR x List.mem_cons_self y List.mem_cons_self hxy) (ih hrest ?_)
      exact fun x' hx' y' hy' => hR x' (List.mem_cons_of_mem x hx') y' (List.mem_cons_of_mem y hy')

theorem exists_of_forall₂ {R : α → α → Prop} (h : List.Forall₂ R l k) (hb : b ∈ k) :
    ∃ a ∈ l, R a b := by
  induction h with
  | nil => cases hb
  | cons hxy _ ih =>
    cases hb with
    | head => exact ⟨_, List.mem_cons_self, hxy⟩
    | tail _ hb =>
      obtain ⟨a, ha, hab⟩ := ih hb
      exact ⟨a, List.mem_cons_of_mem _ ha, hab⟩

theorem ListVisits.swap {L : Comparison α} (h : ListVisits P L key l l' k k') :
    ListVisits (fun a b a' b' => P b a b' a') L key l' l k' k := by
  cases h with
  | sizes hne => exact .sizes hne.symm
  | sorted hlen hs hs' hv => exact .sorted hlen.symm hs' hs hv.swap

theorem forall₂_pair {R : α → α → Prop} {p q t : List α} {x y x' y' : α} (hrefl : ∀ a, R a a)
    (hx : R x x') (hy : R y y') :
    List.Forall₂ R (p ++ x :: (q ++ y :: t)) (p ++ x' :: (q ++ y' :: t)) := by
  have hsame (l : List α) : List.Forall₂ R l l := List.forall₂_same.mpr fun a _ => hrefl a
  exact List.rel_append (hsame p) (.cons hx (List.rel_append (hsame q) (.cons hy (hsame t))))

theorem exists_of_pair_sublist {x y : α} (h : [x, y].Sublist l) :
    ∃ p q t, l = p ++ x :: (q ++ y :: t) := by
  obtain ⟨l₁, l₂, rfl, hx, hy⟩ := List.cons_sublist_iff.mp h
  obtain ⟨p, q, rfl⟩ := List.append_of_mem hx
  obtain ⟨q', t, rfl⟩ := List.append_of_mem (List.singleton_sublist.mp hy)
  exact ⟨p, q ++ q', t, by simp only [List.append_assoc, List.cons_append]⟩

end

section

variable {E L : Comparison α} {key : α → κ} {stays : α → α → Prop} {a b a' b' : α}
  {l l' k k' s s' : List α} {r : Bool} (h : Level E L key stays)
include h

theorem Level.passes_key (hab : Passes E L a b a' b') : key a' = key a ∧ key b' = key b :=
  hab.map_eq h.equal_key h.less_key

theorem Level.again (hab : Passes E L a b a' b') : ∃ r, E a' b' r a' b' := by
  induction hab with
  | equal hE => exact h.equal_again hE
  | less hL => exact h.less_again hL
  | trans _ _ _ ih => exact ih

theorem Level.left (hab : Passes E L a b a' b') (hstays : stays a b) : a' = a := by
  induction hab with
  | equal hE => exact h.equal_left hE hstays
  | less hL => exact h.less_left hL hstays
  | trans hab _ ih ih' =>
    obtain rfl := ih hstays
    exact ih' (h.congr (h.passes_key hab).2.symm hstays)

theorem Level.right (hab : Passes E L a b a' b') (hstays : stays b a) : b' = b := by
  induction hab with
  | equal hE => exact h.equal_left (h.equal_symm hE) hstays
  | less hL => exact h.less_right hL hstays
  | trans hab _ ih ih' =>
    obtain rfl := ih hstays
    exact ih' (h.congr (h.passes_key hab).1.symm hstays)

theorem Level.greater_answer (hG : GreaterRun E L a b r a' b') :
    r = true ↔ key b < key a := by
  cases hG with
  | equal hE =>
    have heq := (h.equal_answer hE).mp rfl
    exact iff_of_false Bool.false_ne_true heq.not_gt
  | unequal hE hL =>
    rename_i a₁ b₁ r
    have hne : key a ≠ key b := fun heq => Bool.false_ne_true ((h.equal_answer hE).mpr heq)
    obtain ⟨ha, hb⟩ := h.equal_key hE
    have hless := h.less_answer hL
    rw [ha, hb] at hless
    rw [Bool.not_eq_true', ← Bool.not_eq_true, hless, not_lt]
    exact ⟨fun hle => lt_of_le_of_ne hle hne.symm, le_of_lt⟩

theorem Level.key_eq_of_next {a'' b'' : α} (hL : L a b false a' b')
    (hG : GreaterRun E L a' b' false a'' b'') : key a = key b := by
  obtain ⟨ha, hb⟩ := h.less_key hL
  have hle : key b ≤ key a := not_lt.mp fun hlt => Bool.false_ne_true ((h.less_answer hL).mpr hlt)
  have hge : key a ≤ key b := not_lt.mp fun hlt => by
    rw [← ha, ← hb] at hlt
    exact Bool.false_ne_true ((h.greater_answer hG).mpr hlt)
  exact le_antisymm hge hle

theorem Level.equalLoop_visits (hloop : EqualLoop E l l' r k k') :
    Visits (Passes E L) key l l' k k' := by
  induction hloop with
  | done => exact .done
  | unequal l l' hE =>
    exact .stop l l' (.equal hE) fun heq => Bool.false_ne_true ((h.equal_answer hE).mpr heq)
  | equal hE _ ih => exact .next (.equal hE) ((h.equal_answer hE).mp rfl) ih

theorem Level.lessLoop_visits (hloop : LessLoop L (GreaterRun E L) l l' r k k') :
    Visits (Passes E L) key l l' k k' := by
  induction hloop with
  | done => exact .done
  | less l l' hL => exact .stop l l' (.less hL) ((h.less_answer hL).mp rfl).ne
  | greater l l' hL hG =>
    obtain ⟨ha, hb⟩ := h.less_key hL
    have hgreater := (h.greater_answer hG).mp rfl
    rw [ha, hb] at hgreater
    exact .stop l l' (.trans (.less hL) (hG.passes)) hgreater.ne'
  | next hL hG _ ih =>
    exact .next (.trans (.less hL) hG.passes) (h.key_eq_of_next hL hG) ih

-- ---------------------------------------------------------------------------
-- Sorting and the loops
-- ---------------------------------------------------------------------------

theorem Level.less_total (a b : α) : ∃ r a' b', L a b r a' b' := by
  obtain ⟨_, a', b', hE⟩ := h.equal_total a b
  obtain ⟨r, hL⟩ := h.less_of_equal hE
  exact ⟨r, a', b', hL⟩

theorem Level.allowed_iff : (∀ a' b', ¬ L b a true b' a') ↔ key a ≤ key b := by
  constructor
  · intro hnot
    obtain ⟨r, b', a', hL⟩ := h.less_total b a
    refine not_lt.mp fun hlt => ?_
    rw [(h.less_answer hL).mpr hlt] at hL
    exact hnot a' b' hL
  · intro hle a' b' hL
    exact hle.not_gt ((h.less_answer hL).mp rfl)

theorem Level.sortLeaves_iff : SortLeaves L l s ↔
    ∃ k, Compared L l k ∧ s.Perm k ∧ (s.map key).Pairwise (· ≤ ·) := by
  simp only [SortLeaves, h.allowed_iff, List.pairwise_map]

theorem Level.sort_keys (hs : SortLeaves L l s) :
    s.map key = (l.map key).insertionSort (· ≤ ·) := by
  obtain ⟨_, _, _, hsorted⟩ := h.sortLeaves_iff.mp hs
  refine List.Perm.eq_of_pairwise (fun a b _ _ => le_antisymm) hsorted
    (List.pairwise_insertionSort _ _) ?_
  exact (hs.map_perm h.less_key).trans (List.perm_insertionSort _ _).symm

theorem Level.sortLeaves_sort (l : List α) :
    SortLeaves L l (sort (fun a b => decide (key a < key b)) l) := by
  refine h.sortLeaves_iff.mpr ⟨l, .refl l, sort_perm _ l, ?_⟩
  rw [map_sort_key]
  exact List.pairwise_insertionSort _ _

/-- A list whose keys are in order may be left as it is. -/
theorem Level.sortLeaves_self (hsorted : (l.map key).Pairwise (· ≤ ·)) : SortLeaves L l l :=
  h.sortLeaves_iff.mpr ⟨l, .refl l, .refl l, hsorted⟩

theorem Level.sort_pairwise (hs : SortLeaves L l s) : (s.map key).Pairwise (· ≤ ·) := by
  rw [h.sort_keys hs]
  exact List.pairwise_insertionSort _ _

theorem Level.visits_keys (hv : Visits (Passes E L) key l l' k k') :
    k.map key = l.map key ∧ k'.map key = l'.map key :=
  hv.map_eq h.passes_key

theorem Level.equalLoop_answer (hloop : EqualLoop E l l' r k k') :
    r = true ↔ l.map key = l'.map key := by
  induction hloop with
  | done => exact iff_of_true rfl rfl
  | unequal l l' hE =>
    refine iff_of_false Bool.false_ne_true fun heq => ?_
    exact Bool.false_ne_true ((h.equal_answer hE).mpr (List.cons.inj heq).1)
  | equal hE _ ih =>
    rw [ih, List.map_cons, List.map_cons, List.cons.injEq, (h.equal_answer hE).mp rfl]
    simp only [true_and]

theorem Level.lessLoop_answer (hloop : LessLoop L (GreaterRun E L) l l' r k k') :
    r = true ↔ l.map key < l'.map key := by
  induction hloop with
  | done => exact iff_of_false Bool.false_ne_true (lt_irrefl _)
  | less l l' hL =>
    refine iff_of_true rfl ?_
    rw [List.map_cons, List.map_cons, List.cons_lt_cons_iff]
    exact .inl ((h.less_answer hL).mp rfl)
  | greater l l' hL hG =>
    obtain ⟨ha, hb⟩ := h.less_key hL
    have hgreater := (h.greater_answer hG).mp rfl
    rw [ha, hb] at hgreater
    refine iff_of_false Bool.false_ne_true ?_
    rw [List.map_cons, List.map_cons, List.cons_lt_cons_iff]
    rintro (hlt | ⟨heq, -⟩)
    · exact hgreater.not_gt hlt
    · exact hgreater.ne' heq
  | next hL hG _ ih =>
    have heq := h.key_eq_of_next hL hG
    rw [ih, List.map_cons, List.map_cons, List.cons_lt_cons_iff, heq]
    simp only [lt_self_iff_false, true_and, false_or]

theorem Level.equalLoop_total (hlen : l.length = l'.length) :
    ∃ r k k', EqualLoop E l l' r k k' := by
  induction l generalizing l' with
  | nil =>
    cases l' with
    | nil => exact ⟨true, [], [], .done⟩
    | cons b l' => cases hlen
  | cons a l ih =>
    cases l' with
    | nil => cases hlen
    | cons b l' =>
      obtain ⟨r, a', b', hE⟩ := h.equal_total a b
      cases r with
      | false => exact ⟨false, _, _, .unequal l l' hE⟩
      | true =>
        obtain ⟨r, k, k', hloop⟩ := ih (Nat.succ.inj hlen)
        exact ⟨r, _, _, .equal hE hloop⟩

theorem Level.lessLoop_of_equalLoop (hloop : EqualLoop E l l' r k k') :
    ∃ r, LessLoop L (GreaterRun E L) l l' r k k' := by
  induction hloop with
  | done => exact ⟨false, .done⟩
  | @unequal a b a' b' l l' hE =>
    obtain ⟨r, hL⟩ := h.less_of_equal hE
    obtain ⟨r', hagain⟩ := h.again (.equal hE)
    cases r with
    | true => exact ⟨true, .less l l' hL⟩
    | false =>
      obtain ⟨r'', hL'⟩ := h.less_of_equal hagain
      obtain ⟨ha, hb⟩ := h.equal_key hE
      have hr' : r' = false := Bool.eq_false_iff.mpr fun heq => by
        have hkey := (h.equal_answer hagain).mp heq
        rw [ha, hb] at hkey
        exact Bool.false_ne_true ((h.equal_answer hE).mpr hkey)
      have hr'' : r'' = false := Bool.eq_false_iff.mpr fun heq => by
        have hkey := (h.less_answer hL').mp heq
        rw [ha, hb] at hkey
        exact Bool.false_ne_true ((h.less_answer hL).mpr hkey)
      rw [hr'] at hagain
      rw [hr''] at hL'
      exact ⟨false, .greater l l' hL (.unequal hagain hL')⟩
  | equal hE _ ih =>
    obtain ⟨r, hless⟩ := ih
    obtain ⟨r', hL⟩ := h.less_of_equal hE
    obtain ⟨r'', hagain⟩ := h.again (.equal hE)
    obtain ⟨ha, hb⟩ := h.equal_key hE
    have hkey := (h.equal_answer hE).mp rfl
    have hr' : r' = false := Bool.eq_false_iff.mpr fun heq =>
      ((h.less_answer hL).mp heq).ne hkey
    have hr'' : r'' = true := by rw [h.equal_answer hagain, ha, hb, hkey]
    rw [hr'] at hL
    rw [hr''] at hagain
    exact ⟨r, .next hL (.equal hagain) hless⟩

-- ---------------------------------------------------------------------------
-- A list that stays
-- ---------------------------------------------------------------------------

theorem Level.compared_eq (hpairs : l.Pairwise fun a b => stays a b ∧ stays b a)
    (hcompared : Compared L l k) : k = l := by
  induction hcompared with
  | refl l => rfl
  | ahead hL _ ih =>
    obtain ⟨hx, hy⟩ := List.pairwise_iff_forall_sublist.mp hpairs (pair_sublist _ _ _ _ _)
    obtain rfl := h.less_left hL hx
    obtain rfl := h.less_right hL hy
    exact ih hpairs
  | behind hL _ ih =>
    obtain ⟨hx, hy⟩ := List.pairwise_iff_forall_sublist.mp hpairs (pair_sublist _ _ _ _ _)
    obtain rfl := h.less_left hL hy
    obtain rfl := h.less_right hL hx
    exact ih hpairs

theorem Level.sort_eq (hordered : l.Pairwise fun a b => key a < key b ∨ a = b)
    (hpairs : l.Pairwise fun a b => stays a b ∧ stays b a) (hs : SortLeaves L l s) : s = l := by
  obtain ⟨k, hcompared, hperm, hsorted⟩ := h.sortLeaves_iff.mp hs
  obtain rfl := h.compared_eq hpairs hcompared
  refine List.Perm.eq_of_pairwise ?_ (List.pairwise_map.mp hsorted) (ordered_keys hordered) hperm
  intro a b ha hb hab hba
  exact ordered_inj hordered (hperm.mem_iff.mp ha) hb (le_antisymm hab hba)

-- ---------------------------------------------------------------------------
-- Lists as values
-- ---------------------------------------------------------------------------

theorem Level.listEqual_visits (hrun : ListEqual E L l l' r k k') :
    ListVisits (Passes E L) L key l l' k k' := by
  cases hrun with
  | sizes hne => exact .sizes hne
  | sorted hlen hs hs' hloop => exact .sorted hlen hs hs' (h.equalLoop_visits hloop)

theorem Level.listLess_visits (hrun : ListLess E L l l' r k k') :
    ListVisits (Passes E L) L key l l' k k' := by
  cases hrun with
  | sizes hne => exact .sizes hne
  | sorted hlen hs hs' hloop => exact .sorted hlen hs hs' (h.lessLoop_visits hloop)

theorem Level.listVisits_key (hv : ListVisits (Passes E L) L key l l' k k') :
    listKey key k = listKey key l ∧ listKey key k' = listKey key l' := by
  obtain ⟨hk, hk'⟩ := hv.map_perm h.equal_key h.less_key
  exact ⟨listKey_congr hk, listKey_congr hk'⟩

theorem Level.listEqual_answer (hrun : ListEqual E L l l' r k k') :
    r = true ↔ listKey key l = listKey key l' := by
  cases hrun with
  | sizes hne =>
    refine iff_of_false Bool.false_ne_true fun heq => hne ?_
    exact (listKey_inj.mp heq).1.symm
  | sorted hlen hs hs' hloop =>
    rw [h.equalLoop_answer hloop, h.sort_keys hs, h.sort_keys hs', listKey_inj]
    simp only [hlen, true_and]

theorem Level.listLess_answer (hrun : ListLess E L l l' r k k') :
    r = true ↔ listKey key l < listKey key l' := by
  cases hrun with
  | sizes hne =>
    rw [decide_eq_true_iff, listKey_lt]
    simp only [hne.symm, false_and, or_false]
  | sorted hlen hs hs' hloop =>
    rw [h.lessLoop_answer hloop, h.sort_keys hs, h.sort_keys hs', listKey_lt]
    simp only [hlen, lt_self_iff_false, true_and, false_or]

theorem Level.listEqual_total (l l' : List α) : ∃ r k k', ListEqual E L l l' r k k' := by
  by_cases hlen : l'.length = l.length
  · let s := sort (fun a b => decide (key a < key b)) l
    let s' := sort (fun a b => decide (key a < key b)) l'
    have hlen' : s.length = s'.length := by rw [length_sort, length_sort, hlen]
    obtain ⟨r, k, k', hloop⟩ := h.equalLoop_total hlen'
    exact ⟨r, k, k', .sorted hlen (h.sortLeaves_sort l) (h.sortLeaves_sort l') hloop⟩
  · exact ⟨false, l, l', .sizes hlen⟩

theorem Level.equalLoop_symm (hloop : EqualLoop E l l' r k k') : EqualLoop E l' l r k' k := by
  induction hloop with
  | done => exact .done
  | unequal l l' hE => exact .unequal l' l (h.equal_symm hE)
  | equal hE _ ih => exact .equal (h.equal_symm hE) ih

theorem Level.listEqual_symm (hrun : ListEqual E L l l' r k k') : ListEqual E L l' l r k' k := by
  cases hrun with
  | sizes hne => exact .sizes hne.symm
  | sorted hlen hs hs' hloop => exact .sorted hlen.symm hs' hs (h.equalLoop_symm hloop)

theorem Level.listLess_of_listEqual (hrun : ListEqual E L l l' r k k') :
    ∃ r, ListLess E L l l' r k k' := by
  cases hrun with
  | sizes hne => exact ⟨_, .sizes hne⟩
  | sorted hlen hs hs' hloop =>
    obtain ⟨r, hless⟩ := h.lessLoop_of_equalLoop hloop
    exact ⟨r, .sorted hlen hs hs' hless⟩

theorem Level.equalLoop_again (hv : Visits (Passes E L) key l l' k k') :
    ∃ r, EqualLoop E k k' r k k' := by
  induction hv with
  | done => exact ⟨true, .done⟩
  | @stop a b a' b' l l' hab hne =>
    obtain ⟨r, hE⟩ := h.again hab
    obtain ⟨ha, hb⟩ := h.passes_key hab
    cases r with
    | false => exact ⟨false, .unequal l l' hE⟩
    | true =>
      have heq := (h.equal_answer hE).mp rfl
      rw [ha, hb] at heq
      exact absurd heq hne
  | next hab heq _ ih =>
    obtain ⟨r, hE⟩ := h.again hab
    obtain ⟨ha, hb⟩ := h.passes_key hab
    obtain ⟨r', hloop⟩ := ih
    have hr : r = true := by rw [h.equal_answer hE, ha, hb, heq]
    rw [hr] at hE
    exact ⟨r', .equal hE hloop⟩

theorem Level.listVisits_again (hv : ListVisits (Passes E L) L key l l' k k') :
    ∃ r, ListEqual E L k k' r k k' := by
  cases hv with
  | sizes hne => exact ⟨false, .sizes hne⟩
  | sorted hlen hs hs' hv =>
    obtain ⟨r, hloop⟩ := h.equalLoop_again hv
    obtain ⟨hk, hk'⟩ := h.visits_keys hv
    have hsorted : (k.map key).Pairwise (· ≤ ·) := by
      rw [hk]
      exact h.sort_pairwise hs
    have hsorted' : (k'.map key).Pairwise (· ≤ ·) := by
      rw [hk']
      exact h.sort_pairwise hs'
    refine ⟨r, .sorted ?_ (h.sortLeaves_self hsorted) (h.sortLeaves_self hsorted') hloop⟩
    have hperm := ListVisits.map_perm h.equal_key h.less_key (.sorted hlen hs hs' hv)
    rw [← List.length_map key, hperm.2.length_eq, List.length_map, hlen, ← List.length_map key,
      ← hperm.1.length_eq, List.length_map]

theorem Level.listVisits_left {P : α → α → α → α → Prop}
    (hP : ∀ {a b a' b'}, P a b a' b' → stays a b → a' = a)
    (hv : ListVisits P L key l l' k k') (hstays : SizesStay key stays l l') : k = l := by
  cases hv with
  | sizes hne => rfl
  | sorted hlen hs hs' hv =>
    obtain ⟨hordered, hpairs, hloop⟩ := hstays hlen
    obtain rfl := h.sort_eq hordered hpairs hs
    have hkeys := (map_sort_key key l').trans (h.sort_keys hs').symm
    have hloop' := hloop.congr (fun _ _ _ heq hstays => h.congr heq hstays) hkeys
    exact hv.eq_left hP hloop'

theorem Level.listKey_congr_stays {l'' : List α} (heq : listKey key l' = listKey key l'')
    (hstays : SizesStay key stays l l') : SizesStay key stays l l'' := by
  intro hlen
  obtain ⟨hlen', hkeys⟩ := listKey_inj.mp heq
  obtain ⟨hordered, hpairs, hloop⟩ := hstays (hlen'.trans hlen)
  refine ⟨hordered, hpairs, hloop.congr (fun _ _ _ heq hstays => h.congr heq hstays) ?_⟩
  rw [map_sort_key, map_sort_key, hkeys]

theorem Level.loopStays_full {l₁ : List α} (hfull : ∀ a ∈ l, stays a a) :
    LoopStays key stays l l₁ := by
  induction l generalizing l₁ with
  | nil => trivial
  | cons a l ih =>
    cases l₁ with
    | nil => trivial
    | cons b l₁ =>
      exact ⟨h.full (hfull a List.mem_cons_self) b, fun _ =>
        ih fun x hx => hfull x (List.mem_cons_of_mem a hx)⟩

/-- Where the keys are the same everything is gone through. -/
theorem Level.loopStays_self (hstays : LoopStays key stays l l') (hkeys : l'.map key = l.map key)
    (ha : a ∈ l) : stays a a := by
  induction l generalizing l' with
  | nil => cases ha
  | cons x l ih =>
    cases l' with
    | nil => cases hkeys
    | cons y l' =>
      obtain ⟨hxy, hrest⟩ := List.cons.inj hkeys
      cases ha with
      | head => exact h.congr hxy hstays.1
      | tail _ ha => exact ih (hstays.2 hxy.symm) hrest ha

theorem Level.sizesStay_full (hstays : SizesStay key stays l l) (l' : List α) :
    SizesStay key stays l l' := by
  intro _
  obtain ⟨hordered, hpairs, hloop⟩ := hstays rfl
  refine ⟨hordered, hpairs, h.loopStays_full fun a ha => h.loopStays_self hloop ?_ ha⟩
  rw [map_sort_key]
  refine List.Perm.eq_of_pairwise (fun a b _ _ => le_antisymm) (List.pairwise_insertionSort _ _)
    (List.pairwise_map.mpr (ordered_keys hordered)) (List.perm_insertionSort _ _)

-- ---------------------------------------------------------------------------
-- Runs that leave a list
-- ---------------------------------------------------------------------------

/-- Elements that can stay where those of a list do that stays. -/
theorem Level.exists_loop (hl : List.Forall₂ (Follows E key stays) l s)
    (hstays : LoopStays key stays l l') (hlen : l'.length = l.length) :
    ∃ r k', EqualLoop E s l' r s k' := by
  induction hl generalizing l' with
  | nil =>
    cases l' with
    | nil => exact ⟨true, [], .done⟩
    | cons b l' => cases hlen
  | @cons x y l s hxy _ ih =>
    cases l' with
    | nil => cases hlen
    | cons b l' =>
      obtain ⟨r, b', hE⟩ := hxy.left hstays.1
      cases r with
      | false => exact ⟨false, _, .unequal s l' hE⟩
      | true =>
        have hkey := (h.equal_answer hE).mp rfl
        rw [hxy.key_eq] at hkey
        obtain ⟨r, k', hloop⟩ := ih (hstays.2 hkey) (Nat.succ.inj hlen)
        exact ⟨r, _, .equal hE hloop⟩

theorem Level.exists_equal_left (hstays : stays a b) : ∃ r b', E a b r a b' :=
  h.id (.refl a) hstays

/-- If every run leaves a list whose keys are in order, then the elements stay. -/
theorem Level.loopStays_of_runs (hlen : l.length = l'.length)
    (hruns : ∀ r k k', EqualLoop E l l' r k k' → k = l) : LoopStays key stays l l' := by
  induction l generalizing l' with
  | nil => trivial
  | cons a l ih =>
    cases l' with
    | nil => trivial
    | cons b l' =>
      constructor
      · refine h.leaves fun r a' b' hE => ?_
        cases r with
        | false => exact (List.cons.inj (hruns _ _ _ (.unequal l l' hE))).1
        | true =>
          obtain ⟨r, k, k', hloop⟩ := h.equalLoop_total (Nat.succ.inj hlen)
          exact (List.cons.inj (hruns _ _ _ (.equal hE hloop))).1
      · intro heq
        refine ih (Nat.succ.inj hlen) fun r k k' hloop => ?_
        obtain ⟨r', a', b', hE⟩ := h.equal_total a b
        rw [(h.equal_answer hE).mpr heq] at hE
        exact (List.cons.inj (hruns _ _ _ (.equal hE hloop))).2

theorem Level.reach_key (hreach : Reach E L a a') : key a' = key a := by
  refine hreach.preserves (p := fun x => key x = key a) (fun hE => ?_) (fun hL => ?_) rfl
  · obtain ⟨ha, hb⟩ := h.equal_key hE
    exact ⟨ha.trans, hb.trans⟩
  · obtain ⟨ha, hb⟩ := h.less_key hL
    exact ⟨ha.trans, hb.trans⟩

theorem Level.follows_of_reach (hreach : Reach E L a a') : Follows E key stays a a' :=
  ⟨h.reach_key hreach, h.id hreach⟩

/-- If every run leaves a list, the list stays. -/
theorem Level.sizesStay_of_runs (hruns : ∀ r k k', ListEqual E L l l' r k k' → k = l) :
    SizesStay key stays l l' := by
  intro hlen
  let s' := sort (fun a b => decide (key a < key b)) l'
  have hlen' : s'.length = l.length := length_sort.trans hlen
  have hs' : SortLeaves L l' s' := h.sortLeaves_sort l'
  -- a run leaves the keys in order
  have hsorted : (l.map key).Pairwise (· ≤ ·) := by
    obtain ⟨r, k, k', hrun⟩ := h.listEqual_total l l'
    obtain rfl := hruns r k k' hrun
    cases hrun with
    | sizes hne => exact absurd hlen hne
    | sorted _ hs _ hloop =>
      rw [(h.visits_keys (h.equalLoop_visits hloop)).1]
      exact h.sort_pairwise hs
  have hloop : LoopStays key stays l s' := by
    refine h.loopStays_of_runs hlen'.symm fun r k k' hrun => ?_
    exact hruns r k k' (.sorted hlen (h.sortLeaves_self hsorted) hs' hrun)
  -- a list that sorting may leave and that the loop may leave is the list
  have hsame {s : List α} (hs : SortLeaves L l s)
      (hl : List.Forall₂ (Follows E key stays) l s) : s = l := by
    obtain ⟨r, k', hrun⟩ := h.exists_loop hl hloop hlen'
    exact hruns r s k' (.sorted hlen hs hs' hrun)
  have hrefl (a : α) : Follows E key stays a a := h.follows_of_reach (.refl a)
  have hpair {p q t : List α} {x y x' y' : α} (hl : l = p ++ x :: (q ++ y :: t))
      (hcompared : Compared L l (p ++ x' :: (q ++ y' :: t)))
      (hx : Reach E L x x') (hy : Reach E L y y') : x' = x ∧ y' = y := by
    have hs : SortLeaves L l (p ++ x' :: (q ++ y' :: t)) :=
      h.sortLeaves_iff.mpr ⟨_, hcompared, .refl _, by rwa [hcompared.map_eq h.less_key]⟩
    have heq := hsame hs (hl ▸ forall₂_pair hrefl (h.follows_of_reach hx) (h.follows_of_reach hy))
    exact pair_inj (heq.trans hl)
  have hpairs : l.Pairwise fun a b => stays a b ∧ stays b a := by
    refine List.pairwise_of_forall_sublist fun {x y} hxy => ?_
    obtain ⟨p, q, t, hl⟩ := exists_of_pair_sublist hxy
    constructor
    · refine h.leaves fun r x' y' hE => ?_
      obtain ⟨r, hL⟩ := h.less_of_equal hE
      have hcompared : Compared L l (p ++ x' :: (q ++ y' :: t)) := hl ▸ .ahead hL (.refl _)
      exact (hpair hl hcompared (.left (.refl x) (.equal hE)) (.right (.refl y) (.equal hE))).1
    · refine h.leaves fun r y' x' hE => ?_
      obtain ⟨r, hL⟩ := h.less_of_equal hE
      have hcompared : Compared L l (p ++ x' :: (q ++ y' :: t)) := hl ▸ .behind hL (.refl _)
      exact (hpair hl hcompared (.right (.refl x) (.equal hE)) (.left (.refl y) (.equal hE))).2
  refine ⟨List.pairwise_of_forall_sublist fun {x y} hxy => ?_, hpairs, hloop⟩
  have hle := List.pairwise_iff_forall_sublist.mp (List.pairwise_map.mp hsorted) hxy
  obtain hlt | heq := hle.lt_or_eq
  · exact .inl hlt
  · -- elements with the same key may be exchanged
    obtain ⟨hx, hy⟩ := List.pairwise_iff_forall_sublist.mp hpairs hxy
    have hfollows {a b : α} (hkey : key b = key a) (hb : stays b a) : Follows E key stays a b :=
      ⟨hkey, fun _ => h.exists_equal_left (h.full (h.congr hkey.symm hb) _)⟩
    obtain ⟨p, q, t, hl⟩ := exists_of_pair_sublist hxy
    have hkeys : (p ++ y :: (q ++ x :: t)).map key = l.map key := by
      rw [hl]
      simp only [List.map_append, List.map_cons, heq]
    have hperm : (p ++ y :: (q ++ x :: t)).Perm l := by
      rw [hl]
      exact pair_perm p q t x y
    have hs : SortLeaves L l (p ++ y :: (q ++ x :: t)) :=
      h.sortLeaves_iff.mpr ⟨l, .refl l, hperm, by rwa [hkeys]⟩
    have hswap := hsame hs (hl ▸ forall₂_pair hrefl (hfollows heq.symm hy) (hfollows heq hx))
    exact .inr (pair_inj (hswap.trans hl)).2

-- ---------------------------------------------------------------------------
-- What comparisons make of a list that has one order
-- ---------------------------------------------------------------------------

theorem Level.forall₂_reach_key (hreach : List.Forall₂ (Reach E L) l k) :
    k.map key = l.map key := by
  induction hreach with
  | nil => rfl
  | cons hxy _ ih => rw [List.map_cons, List.map_cons, h.reach_key hxy, ih]

omit h in
theorem Compared.reach (hreach : List.Forall₂ (Reach E L) l k) (hcompared : Compared L k k') :
    List.Forall₂ (Reach E L) l k' := by
  have hstep {k k' : List α} (hreach : List.Forall₂ (Reach E L) l k)
      (hext : List.Forall₂ (fun x x' => ∀ z, Reach E L z x → Reach E L z x') k k') :
      List.Forall₂ (Reach E L) l k' :=
    forall₂_trans hreach hext fun z x x' hz hx => hx z hz
  induction hcompared with
  | refl => exact hreach
  | ahead hL _ ih =>
    refine ih (hstep hreach (forall₂_pair (fun _ _ hz => hz) ?_ ?_))
    · exact fun z hz => .left hz (.less hL)
    · exact fun z hz => .right hz (.less hL)
  | behind hL _ ih =>
    refine ih (hstep hreach (forall₂_pair (fun _ _ hz => hz) ?_ ?_))
    · exact fun z hz => .right hz (.less hL)
    · exact fun z hz => .left hz (.less hL)

/-- What is reached from the elements of a list that has one order can be sorted only into
places where it is reached as well. -/
theorem Level.reach_sort (hordered : l.Pairwise fun a b => key a < key b ∨ a = b)
    (hreach : List.Forall₂ (Reach E L) l k) (hs : SortLeaves L k s) :
    List.Forall₂ (Reach E L) l s := by
  obtain ⟨k₁, hcompared, hperm, hsorted⟩ := h.sortLeaves_iff.mp hs
  have hk₁ := hcompared.reach hreach
  have hkeys : l.map key = s.map key := by
    refine List.Perm.eq_of_pairwise (fun a b _ _ => le_antisymm)
      (List.pairwise_map.mpr (ordered_keys hordered)) hsorted ?_
    rw [← h.forall₂_reach_key hk₁]
    exact (hperm.map key).symm
  refine forall₂_of_map hkeys fun x hx y hy heq => ?_
  obtain ⟨x', hx', hreach'⟩ := exists_of_forall₂ hk₁ (hperm.mem_iff.mp hy)
  have hkey := (h.reach_key hreach').symm.trans heq.symm
  rwa [ordered_inj hordered hx' hx hkey] at hreach'

theorem Level.reach_visits {P : α → α → α → α → Prop}
    (hP : ∀ {a b a' b' z}, P a b a' b' → Reach E L z a → Reach E L z a')
    (hordered : l.Pairwise fun a b => key a < key b ∨ a = b)
    (hreach : List.Forall₂ (Reach E L) l k) {m m' : List α}
    (hv : ListVisits P L key k m k' m') : List.Forall₂ (Reach E L) l k' := by
  cases hv with
  | sizes => exact hreach
  | sorted hlen hs hs' hv =>
    have hsorted := h.reach_sort hordered hreach hs
    clear hreach hordered hs hs' hlen
    induction hv generalizing l with
    | done => exact hsorted
    | stop l l' hab =>
      cases hsorted with
      | cons hx hrest => exact .cons (hP hab hx) hrest
    | next hab _ _ ih =>
      cases hsorted with
      | cons hx hrest => exact .cons (hP hab hx) (ih hrest)

theorem Level.reach_list (hordered : l.Pairwise fun a b => key a < key b ∨ a = b)
    (hreach : Reach (ListEqual E L) (ListLess E L) l k) : List.Forall₂ (Reach E L) l k := by
  have hvisits {m m' k k' : List α} (hv : ListVisits (Passes E L) L key m m' k k') :
      (List.Forall₂ (Reach E L) l m → List.Forall₂ (Reach E L) l k) ∧
        (List.Forall₂ (Reach E L) l m' → List.Forall₂ (Reach E L) l k') :=
    ⟨fun hm => h.reach_visits (fun hab hz => .left hz hab) hordered hm hv,
      fun hm => h.reach_visits (fun hab hz => .right hz hab) hordered hm hv.swap⟩
  refine hreach.preserves (p := List.Forall₂ (Reach E L) l)
    (fun hE => hvisits (h.listEqual_visits hE)) (fun hL => hvisits (h.listLess_visits hL)) ?_
  exact List.forall₂_same.mpr fun a _ => .refl a

theorem Level.reach_length (hreach : Reach (ListEqual E L) (ListLess E L) l k) :
    k.length = l.length := by
  have hvisits {m m' k k' : List α} (hv : ListVisits (Passes E L) L key m m' k k') :
      (m.length = l.length → k.length = l.length) ∧
        (m'.length = l.length → k'.length = l.length) := by
    obtain ⟨hk, hk'⟩ := h.listVisits_key hv
    exact ⟨(listKey_inj.mp hk).1.trans, (listKey_inj.mp hk').1.trans⟩
  exact hreach.preserves (p := fun m => m.length = l.length)
    (fun hE => hvisits (h.listEqual_visits hE)) (fun hL => hvisits (h.listLess_visits hL)) rfl

theorem Level.list_id (hreach : Reach (ListEqual E L) (ListLess E L) l k)
    (hstays : SizesStay key stays l l') : ∃ r k', ListEqual E L k l' r k k' := by
  have hlength := h.reach_length hreach
  by_cases hlen : l'.length = l.length
  · obtain ⟨hordered, -, hloop⟩ := hstays hlen
    have hl := h.reach_list hordered hreach
    have hfollows : List.Forall₂ (Follows E key stays) l k :=
      hl.imp fun _ _ hxy => h.follows_of_reach hxy
    obtain ⟨r, k', hrun⟩ := h.exists_loop hfollows hloop (length_sort.trans hlen)
    have hsorted : (k.map key).Pairwise (· ≤ ·) := by
      rw [h.forall₂_reach_key hl]
      exact List.pairwise_map.mpr (ordered_keys hordered)
    exact ⟨r, k', .sorted (hlen.trans hlength.symm) (h.sortLeaves_self hsorted)
      (h.sortLeaves_sort l') hrun⟩
  · exact ⟨false, l', .sizes fun heq => hlen (heq.trans hlength)⟩

/-- Lists whose elements are compared by their keys are compared by their sizes and the keys
of their elements in order. -/
theorem Level.list : Level (ListEqual E L) (ListLess E L) (listKey key) (SizesStay key stays) where
  equal_answer := h.listEqual_answer
  less_answer := h.listLess_answer
  equal_key := fun _ _ _ _ _ hE => h.listVisits_key (h.listEqual_visits hE)
  less_key := fun _ _ _ _ _ hL => h.listVisits_key (h.listLess_visits hL)
  equal_total := h.listEqual_total
  equal_symm := h.listEqual_symm
  less_of_equal := h.listLess_of_listEqual
  equal_again := fun hE => h.listVisits_again (h.listEqual_visits hE)
  less_again := fun hL => h.listVisits_again (h.listLess_visits hL)
  congr := h.listKey_congr_stays
  full := h.sizesStay_full
  equal_left := fun hE => h.listVisits_left h.left (h.listEqual_visits hE)
  less_left := fun hL => h.listVisits_left h.left (h.listLess_visits hL)
  less_right := fun hL => h.listVisits_left h.right (h.listLess_visits hL).swap
  leaves := h.sizesStay_of_runs
  id := h.list_id

end

end

end Loxim
