import Mathlib.Algebra.Order.Ring.Cast
import Mathlib.Algebra.Order.Ring.Rat
import Mathlib.Data.Nat.Cast.Order.Ring
import Loxim.QueryExecutor.QueryResult

/-!
# The order of results is a weak order

A result has a key of a linear order at every depth: its type, its number, its text, its
size, and the sorted keys of its parts. The comparisons compare the keys.
-/

namespace Loxim.QueryExecutor.QueryResult

-- ---------------------------------------------------------------------------
-- Keys
-- ---------------------------------------------------------------------------

def Key : Nat → Type
  | 0 => Unit
  | n + 1 => ℕ ×ₗ ℚ ×ₗ Text ×ₗ ℕ ×ₗ List (Key n)

instance Key.linearOrder : (n : Nat) → LinearOrder (Key n)
  | 0 => inferInstanceAs (LinearOrder Unit)
  | n + 1 =>
    haveI := Key.linearOrder n
    inferInstanceAs (LinearOrder (ℕ ×ₗ ℚ ×ₗ Text ×ₗ ℕ ×ₗ List (Key n)))

def Key.mk {n : Nat} (code : ℕ) (number : ℚ) (text : Text) (size : ℕ) (parts : List (Key n)) :
    Key (n + 1) :=
  toLex (code, toLex (number, toLex (text, toLex (size, parts))))

variable {n : Nat}

theorem Key.mk_lt {c c' : ℕ} {q q' : ℚ} {t t' : Text} {k k' : ℕ} {l l' : List (Key n)} :
    Key.mk c q t k l < Key.mk c' q' t' k' l' ↔
      c < c' ∨ c = c' ∧ (q < q' ∨ q = q' ∧ (t < t' ∨ t = t' ∧ (k < k' ∨ k = k' ∧ l < l'))) := by
  rw [Key.mk, Key.mk]
  refine (Prod.Lex.toLex_lt_toLex (α := ℕ) (β := ℚ ×ₗ Text ×ₗ ℕ ×ₗ List (Key n))).trans ?_
  simp only [Prod.Lex.toLex_lt_toLex]

theorem Key.mk_inj {c c' : ℕ} {q q' : ℚ} {t t' : Text} {k k' : ℕ} {l l' : List (Key n)} :
    Key.mk c q t k l = Key.mk c' q' t' k' l' ↔
      c = c' ∧ q = q' ∧ t = t' ∧ k = k' ∧ l = l' := by
  rw [Key.mk, Key.mk]
  refine (Equiv.apply_eq_iff_eq (toLex : ℕ × ℚ ×ₗ Text ×ₗ ℕ ×ₗ List (Key n) ≃ _)).trans ?_
  simp only [EmbeddingLike.apply_eq_iff_eq, Prod.mk.injEq]

section

variable (text : QueryResult → Text)

/-- Numbers have the same type. -/
def key : (n : Nat) → QueryResult → Key n
  | 0, _ => ()
  | _ + 1, .reference v => Key.mk 1 v.toNat [] 0 []
  | _ + 1, .virtual n d s => Key.mk 2 0 (text (.virtual n d s)) 0 []
  | _ + 1, .string v => Key.mk 3 0 v 0 []
  | _ + 1, .int v => Key.mk 4 v [] 0 []
  | _ + 1, .double v => Key.mk 4 v [] 0 []
  | _ + 1, .bool v => Key.mk 6 (if v then 1 else 0) [] 0 []
  | n + 1, .binder name item => Key.mk 7 0 name 0 [key n item]
  | n + 1, .struct l => Key.mk 8 0 [] l.length ((l.map (key n)).insertionSort (· ≤ ·))
  | n + 1, .bag l => Key.mk 9 0 [] l.length ((l.map (key n)).insertionSort (· ≤ ·))
  | n + 1, .sequence l => Key.mk 10 0 [] l.length ((l.map (key n)).insertionSort (· ≤ ·))
  | _ + 1, .nothing => Key.mk 11 0 [] 0 []

end

variable {text : QueryResult → Text} {a b c : QueryResult} {l l' : List QueryResult}
  {eq lt gt : QueryResult → QueryResult → Bool} {f : QueryResult → Key n}

/-- The two comparisons compare keys. -/
structure Keyed (eq lt : QueryResult → QueryResult → Bool) (f : QueryResult → Key n) : Prop where
  less (a b : QueryResult) : lt a b = true ↔ f a < f b
  same (a b : QueryResult) : eq a b = true ↔ f a = f b

theorem Keyed.greater (h : Keyed eq lt f) (a b : QueryResult) :
    (!(eq a b || lt a b)) = true ↔ f b < f a := by
  rw [Bool.not_eq_true', Bool.or_eq_false_iff, ← Bool.not_eq_true, ← Bool.not_eq_true, h.same,
    h.less, not_lt, ← ne_eq]
  exact ⟨fun ⟨hne, hle⟩ => lt_of_le_of_ne hle hne.symm, fun hlt => ⟨hlt.ne', hlt.le⟩⟩

theorem Keyed.equalElements (h : Keyed eq lt f) : equalElements eq lt l l' = true ↔
    l.length = l'.length ∧
      (l.map f).insertionSort (· ≤ ·) = (l'.map f).insertionSort (· ≤ ·) := by
  rw [QueryResult.equalElements]
  split
  · rename_i hlen
    simp [Ne.symm hlen]
  · rename_i hlen
    have hlen' : l.length = l'.length := (not_ne_iff.mp hlen).symm
    have hloop : equalLoop eq (sort lt l) (sort lt l') = true ↔
        (sort lt l).map f = (sort lt l').map f :=
      equalLoop_iff (fun a _ b _ => h.same a b) (by rw [length_sort, length_sort, hlen'])
    rw [hloop, map_sort fun a b _ _ => h.less a b, map_sort fun a b _ _ => h.less a b]
    simp [hlen']

theorem Keyed.lessElements (h : Keyed eq lt f) :
    lessElements lt (fun x y => !(eq x y || lt x y)) l l' = true ↔
      l.length < l'.length ∨ l.length = l'.length ∧
        (l.map f).insertionSort (· ≤ ·) < (l'.map f).insertionSort (· ≤ ·) := by
  rw [QueryResult.lessElements]
  split
  · rename_i hlen
    simp [Ne.symm hlen]
  · rename_i hlen
    have hlen' : l.length = l'.length := (not_ne_iff.mp hlen).symm
    have hloop : lessLoop lt (fun x y => !(eq x y || lt x y)) (sort lt l) (sort lt l') = true ↔
        (sort lt l).map f < (sort lt l').map f :=
      lessLoop_iff (fun a _ b _ => h.less a b) (fun a _ b _ => h.greater a b)
        (by rw [length_sort, length_sort, hlen'])
    rw [hloop, map_sort fun a b _ _ => h.less a b, map_sort fun a b _ _ => h.less a b]
    simp [hlen']

theorem Keyed.less_succ (h : Keyed (equalAt text n) (lessThanAt text n) (key text n)) :
    lessThanAt text (n + 1) a b = true ↔ key text (n + 1) a < key text (n + 1) b := by
  cases a with
  | reference v => cases b <;> simp [lessThanAt, key, Key.mk_lt, type]
  | virtual n d s => cases b <;> simp [lessThanAt, key, Key.mk_lt, type]
  | string v => cases b <;> simp [lessThanAt, key, Key.mk_lt, type]
  | int v => cases b <;> simp [lessThanAt, key, Key.mk_lt, type]
  | double v => cases b <;> simp [lessThanAt, key, Key.mk_lt, type]
  | bool v =>
    cases b with
    | bool v' =>
      have hone : ¬ (1 : ℚ) < 0 := not_lt_of_ge zero_le_one
      cases v <;> cases v' <;> simp [lessThanAt, key, Key.mk_lt, Bool.lt_iff, hone]
    | _ => simp [lessThanAt, key, Key.mk_lt, type]
  | binder name item =>
    cases b with
    | binder name' item' =>
      have hitem := h.less item item'
      rcases eq_or_ne name name' with rfl | hne
      · simpa [lessThanAt, key, Key.mk_lt, List.cons_lt_cons_iff] using hitem
      · simp [lessThanAt, key, Key.mk_lt, hne]
    | _ => simp [lessThanAt, key, Key.mk_lt, type]
  | struct l => cases b <;> simp [lessThanAt, key, Key.mk_lt, type, h.lessElements, -Bool.not_or]
  | bag l => cases b <;> simp [lessThanAt, key, Key.mk_lt, type, h.lessElements, -Bool.not_or]
  | sequence l => cases b <;> simp [lessThanAt, key, Key.mk_lt, type, h.lessElements, -Bool.not_or]
  | nothing => cases b <;> simp [lessThanAt, key, Key.mk_lt, type]

theorem Keyed.same_succ (h : Keyed (equalAt text n) (lessThanAt text n) (key text n)) :
    equalAt text (n + 1) a b = true ↔ key text (n + 1) a = key text (n + 1) b := by
  cases a with
  | reference v => cases b <;> simp [equalAt, key, Key.mk_inj]
  | virtual n d s => cases b <;> simp [equalAt, key, Key.mk_inj]
  | string v => cases b <;> simp [equalAt, key, Key.mk_inj]
  | int v => cases b <;> simp [equalAt, key, Key.mk_inj]
  | double v => cases b <;> simp [equalAt, key, Key.mk_inj]
  | bool v =>
    cases b with
    | bool v' => cases v <;> cases v' <;> simp [equalAt, key, Key.mk_inj]
    | _ => simp [equalAt, key, Key.mk_inj]
  | binder name item => cases b <;> simp [equalAt, key, Key.mk_inj, h.same]
  | struct l => cases b <;> simp [equalAt, key, Key.mk_inj, h.equalElements]
  | bag l => cases b <;> simp [equalAt, key, Key.mk_inj, h.equalElements]
  | sequence l => cases b <;> simp [equalAt, key, Key.mk_inj, h.equalElements]
  | nothing => cases b <;> simp [equalAt, key, Key.mk_inj]

theorem keyed_at (text : QueryResult → Text) (n : Nat) :
    Keyed (equalAt text n) (lessThanAt text n) (key text n) := by
  induction n with
  | zero =>
    exact ⟨fun a b => iff_of_false Bool.false_ne_true (lt_irrefl _), fun a b => iff_of_true rfl rfl⟩
  | succ n ih => exact ⟨fun a b => ih.less_succ, fun a b => ih.same_succ⟩

-- ---------------------------------------------------------------------------
-- Depth
-- ---------------------------------------------------------------------------

theorem depth_le_depths (h : a ∈ l) : a.depth ≤ depths l := by
  induction h with
  | head l => exact le_max_left _ _
  | tail b _ ih => exact ih.trans (le_max_right _ _)

theorem depth_pos (a : QueryResult) : 0 < a.depth := by
  cases a <;> simp [depth]

theorem equalLoop_congr {eq' : QueryResult → QueryResult → Bool}
    (h : ∀ a ∈ l, ∀ b ∈ l', eq a b = eq' a b) : equalLoop eq l l' = equalLoop eq' l l' := by
  induction l generalizing l' with
  | nil => simp [equalLoop]
  | cons a l ih =>
    cases l' with
    | nil => rfl
    | cons b l' =>
      have hrest := @ih l' fun x hx y hy =>
        h x (List.mem_cons_of_mem a hx) y (List.mem_cons_of_mem b hy)
      rw [equalLoop, equalLoop, hrest, h a List.mem_cons_self b List.mem_cons_self]

theorem lessLoop_congr {lt' gt' : QueryResult → QueryResult → Bool}
    (hlt : ∀ a ∈ l, ∀ b ∈ l', lt a b = lt' a b) (hgt : ∀ a ∈ l, ∀ b ∈ l', gt a b = gt' a b) :
    lessLoop lt gt l l' = lessLoop lt' gt' l l' := by
  induction l generalizing l' with
  | nil => simp [lessLoop]
  | cons a l ih =>
    cases l' with
    | nil => rfl
    | cons b l' =>
      have hrest := @ih l'
        (fun x hx y hy => hlt x (List.mem_cons_of_mem a hx) y (List.mem_cons_of_mem b hy))
        (fun x hx y hy => hgt x (List.mem_cons_of_mem a hx) y (List.mem_cons_of_mem b hy))
      rw [lessLoop, lessLoop, hrest, hlt a List.mem_cons_self b List.mem_cons_self,
        hgt a List.mem_cons_self b List.mem_cons_self]

/-- Comparing deeper than the results are makes no difference. -/
theorem at_succ (ha : a.depth ≤ n) (hb : b.depth ≤ n) :
    equalAt text (n + 1) a b = equalAt text n a b ∧
      lessThanAt text (n + 1) a b = lessThanAt text n a b := by
  induction n generalizing a b with
  | zero => exact absurd ha (Nat.not_le.mpr a.depth_pos)
  | succ n ih =>
    -- the elements of two containers
    have hparts {l l' : List QueryResult} (hl : depths l ≤ n) (hl' : depths l' ≤ n) :
        equalElements (equalAt text (n + 1)) (lessThanAt text (n + 1)) l l' =
          equalElements (equalAt text n) (lessThanAt text n) l l' ∧
        lessElements (lessThanAt text (n + 1))
            (fun x y => !(equalAt text (n + 1) x y || lessThanAt text (n + 1) x y)) l l' =
          lessElements (lessThanAt text n)
            (fun x y => !(equalAt text n x y || lessThanAt text n x y)) l l' := by
      have hsort : sort (lessThanAt text (n + 1)) l = sort (lessThanAt text n) l :=
        sort_congr fun x hx y hy => (ih ((depth_le_depths hx).trans hl) ((depth_le_depths hy).trans hl)).2
      have hsort' : sort (lessThanAt text (n + 1)) l' = sort (lessThanAt text n) l' :=
        sort_congr fun x hx y hy =>
          (ih ((depth_le_depths hx).trans hl') ((depth_le_depths hy).trans hl')).2
      have hboth (x : QueryResult) (hx : x ∈ sort (lessThanAt text n) l) (y : QueryResult)
          (hy : y ∈ sort (lessThanAt text n) l') :=
        ih (a := x) (b := y) ((depth_le_depths (mem_sort.mp hx)).trans hl)
          ((depth_le_depths (mem_sort.mp hy)).trans hl')
      rw [equalElements, equalElements, lessElements, lessElements, hsort, hsort',
        equalLoop_congr fun x hx y hy => (hboth x hx y hy).1,
        lessLoop_congr (fun x hx y hy => (hboth x hx y hy).2)
          fun x hx y hy => by rw [(hboth x hx y hy).1, (hboth x hx y hy).2]]
      exact ⟨rfl, rfl⟩
    cases a with
    | reference v | virtual n d s | string v | int v | double v | bool v | nothing =>
      cases b <;> exact ⟨rfl, rfl⟩
    | binder name item =>
      cases b with
      | binder name' item' =>
        have hitem := ih (Nat.le_of_succ_le_succ ha) (Nat.le_of_succ_le_succ hb)
        simp only [equalAt, lessThanAt] at hitem ⊢
        rw [hitem.1, hitem.2]
        exact ⟨rfl, rfl⟩
      | _ => exact ⟨rfl, rfl⟩
    | struct l =>
      cases b with
      | struct l' => exact hparts (Nat.le_of_succ_le_succ ha) (Nat.le_of_succ_le_succ hb)
      | _ => exact ⟨rfl, rfl⟩
    | bag l =>
      cases b with
      | bag l' => exact hparts (Nat.le_of_succ_le_succ ha) (Nat.le_of_succ_le_succ hb)
      | _ => exact ⟨rfl, rfl⟩
    | sequence l =>
      cases b with
      | sequence l' => exact hparts (Nat.le_of_succ_le_succ ha) (Nat.le_of_succ_le_succ hb)
      | _ => exact ⟨rfl, rfl⟩

theorem equal_lessThan_at (ha : a.depth ≤ n) (hb : b.depth ≤ n) :
    equal text a b = equalAt text n a b ∧ lessThan text a b = lessThanAt text n a b := by
  have hmax : max a.depth b.depth ≤ n := max_le ha hb
  induction n, hmax using Nat.le_induction with
  | base => exact ⟨rfl, rfl⟩
  | succ n hn ih =>
    obtain ⟨hequal, hless⟩ := ih ((le_max_left _ _).trans hn) ((le_max_right _ _).trans hn)
    obtain ⟨hequal', hless'⟩ := @at_succ _ text a b
      ((le_max_left _ _).trans hn) ((le_max_right _ _).trans hn)
    exact ⟨hequal.trans hequal'.symm, hless.trans hless'.symm⟩

theorem lessThan_iff (ha : a.depth ≤ n) (hb : b.depth ≤ n) :
    lessThan text a b = true ↔ key text n a < key text n b := by
  rw [(equal_lessThan_at ha hb).2]
  exact (keyed_at text n).less a b

theorem equal_iff (ha : a.depth ≤ n) (hb : b.depth ≤ n) :
    equal text a b = true ↔ key text n a = key text n b := by
  rw [(equal_lessThan_at ha hb).1]
  exact (keyed_at text n).same a b

-- ---------------------------------------------------------------------------
-- The comparisons
-- ---------------------------------------------------------------------------

theorem lessThan_strictWeak (text : QueryResult → Text) : StrictWeak (lessThan text) := by
  apply StrictWeak.of_keys
  intro a b c
  have hdepth {x : QueryResult} (hx : x = a ∨ x = b ∨ x = c) :
      x.depth ≤ max a.depth (max b.depth c.depth) := by
    obtain rfl | rfl | rfl := hx
    · exact le_max_left _ _
    · exact (le_max_left _ _).trans (le_max_right _ _)
    · exact (le_max_right _ _).trans (le_max_right _ _)
  exact ⟨_, _, key text (max a.depth (max b.depth c.depth)), fun x y hx hy =>
    lessThan_iff (hdepth hx) (hdepth hy)⟩

/-- Neither is less than the other one. -/
theorem equal_iff_incomparable (text : QueryResult → Text) (a b : QueryResult) :
    equal text a b = true ↔ lessThan text a b = false ∧ lessThan text b a = false := by
  have ha : a.depth ≤ max a.depth b.depth := le_max_left _ _
  have hb : b.depth ≤ max a.depth b.depth := le_max_right _ _
  rw [equal_iff ha hb, ← Bool.not_eq_true, ← Bool.not_eq_true, lessThan_iff ha hb,
    lessThan_iff hb ha, not_lt, not_lt]
  exact ⟨fun h => ⟨h.ge, h.le⟩, fun ⟨hge, hle⟩ => le_antisymm hle hge⟩

theorem greaterThan_eq (text : QueryResult → Text) (a b : QueryResult) :
    greaterThan text a b = lessThan text b a := by
  have ha : a.depth ≤ max a.depth b.depth := le_max_left _ _
  have hb : b.depth ≤ max a.depth b.depth := le_max_right _ _
  rw [Bool.eq_iff_iff, lessThan_iff hb ha, greaterThan, (equal_lessThan_at ha hb).1,
    (equal_lessThan_at ha hb).2]
  exact (keyed_at text _).greater a b

theorem lessEq_eq (text : QueryResult → Text) (a b : QueryResult) :
    lessEq text a b = !lessThan text b a := by
  rw [← greaterThan_eq, greaterThan, Bool.not_not, lessEq]

/-- Bags are equal when the elements of one can be put in an order in which they are equal
to those of the other. -/
theorem equal_bag_iff (text : QueryResult → Text) (l l' : List QueryResult) :
    equal text (.bag l) (.bag l') = true ↔
      ∃ l'', l''.Perm l' ∧ List.Forall₂ (fun a b => equal text a b = true) l l'' := by
  let n := max (depths l) (depths l')
  have hl (a : QueryResult) (ha : a ∈ l) : a.depth ≤ n := (depth_le_depths ha).trans (le_max_left _ _)
  have hl' (a : QueryResult) (ha : a ∈ l') : a.depth ≤ n :=
    (depth_le_depths ha).trans (le_max_right _ _)
  have hbag : equal text (.bag l) (.bag l') = true ↔
      key text (n + 1) (.bag l) = key text (n + 1) (.bag l') :=
    equal_iff (Nat.succ_le_succ (le_max_left _ _)) (Nat.succ_le_succ (le_max_right _ _))
  have hkeys : (sort (lessThanAt text n) l).map (key text n) =
      (sort (lessThanAt text n) l').map (key text n) ↔
      (l.map (key text n)).Perm (l'.map (key text n)) :=
    map_sort_eq_iff (fun a b _ _ => (keyed_at text n).less a b)
      fun a b _ _ => (keyed_at text n).less a b
  rw [map_sort fun a b _ _ => (keyed_at text n).less a b,
    map_sort fun a b _ _ => (keyed_at text n).less a b, map_perm_iff] at hkeys
  rw [hbag, key, key, Key.mk_inj]
  simp only [true_and, hkeys]
  have hsame {l'' : List QueryResult} (hperm : l''.Perm l') :
      List.Forall₂ (fun a b => key text n a = key text n b) l l'' ↔
        List.Forall₂ (fun a b => equal text a b = true) l l'' :=
    forall₂_congr_mem fun a ha b hb =>
      (equal_iff (hl a ha) (hl' b (hperm.mem_iff.mp hb))).symm
  constructor
  · rintro ⟨-, l'', hperm, hkey⟩
    exact ⟨l'', hperm, (hsame hperm).mp hkey⟩
  · rintro ⟨l'', hperm, hequal⟩
    exact ⟨hequal.length_eq.trans hperm.length_eq, l'', hperm, (hsame hperm).mpr hequal⟩

theorem sortingStrictLess_strictWeak (text : QueryResult → Text) :
    StrictWeak fun r r' : QueryResult × QueryResult =>
      sortingStrictLess text [r.1, r.2] [r'.1, r'.2] := by
  apply StrictWeak.of_keys
  intro a b c
  let n := max (depths a.2.addResult) (max (depths b.2.addResult) (depths c.2.addResult))
  have hdepth {x : QueryResult × QueryResult} (hx : x = a ∨ x = b ∨ x = c) {r : QueryResult}
      (hr : r ∈ x.2.addResult) : r.depth ≤ n := by
    refine (depth_le_depths hr).trans ?_
    obtain rfl | rfl | rfl := hx
    · exact le_max_left _ _
    · exact (le_max_left _ _).trans (le_max_right _ _)
    · exact (le_max_right _ _).trans (le_max_right _ _)
  refine ⟨ℕ ×ₗ List (Key n), inferInstance, fun r =>
    toLex (r.2.addResult.length, r.2.addResult.map (key text n)), fun x y hx hy => ?_⟩
  rw [Prod.Lex.toLex_lt_toLex]
  simp only [sortingStrictLess, List.getElem?_cons_succ, List.getElem?_cons_zero]
  split
  · rename_i hlt
    simp [hlt]
  · rename_i hlt
    split
    · rename_i hgt
      simp [hlt, hgt.ne']
    · rename_i hgt
      have hlen : x.2.addResult.length = y.2.addResult.length :=
        le_antisymm (not_lt.mp hgt) (not_lt.mp hlt)
      have hgreater (r : QueryResult) (hr : r ∈ x.2.addResult) (r' : QueryResult)
          (hr' : r' ∈ y.2.addResult) :
          greaterThan text r r' = true ↔ key text n r' < key text n r := by
        rw [greaterThan_eq]
        exact lessThan_iff (hdepth hy hr') (hdepth hx hr)
      have hloop : lessLoop (lessThan text) (greaterThan text) x.2.addResult y.2.addResult = true ↔
          x.2.addResult.map (key text n) < y.2.addResult.map (key text n) :=
        lessLoop_iff (fun r hr r' hr' => lessThan_iff (hdepth hx hr) (hdepth hy hr')) hgreater hlen
      rw [hloop]
      simp [hlen]

/-- Whatever virtual objects are printed as, `less_than` is a strict weak order, `equal` is
its incomparability, the other comparisons are the derived ones, and bags are equal as
multisets. So is the comparison of rows that `orderBy` sorts with. -/
theorem results_ordered (text : QueryResult → Text) :
    StrictWeak (lessThan text) ∧
    (∀ a b, equal text a b = true ↔ lessThan text a b = false ∧ lessThan text b a = false) ∧
    (∀ a b, greaterThan text a b = lessThan text b a ∧ lessEq text a b = !lessThan text b a ∧
      greaterEq text a b = !lessThan text a b) ∧
    (StrictWeak fun r r' : QueryResult × QueryResult =>
      sortingStrictLess text [r.1, r.2] [r'.1, r'.2]) ∧
    ∀ l l', equal text (.bag l) (.bag l') = true ↔
      ∃ l'', l''.Perm l' ∧ List.Forall₂ (fun a b => equal text a b = true) l l'' :=
  ⟨lessThan_strictWeak text, equal_iff_incomparable text,
    fun a b => ⟨greaterThan_eq text a b, lessEq_eq text a b, rfl⟩, sortingStrictLess_strictWeak text,
    equal_bag_iff text⟩

end Loxim.QueryExecutor.QueryResult
