import Mathlib.Data.FinEnum
import Mathlib.Data.Fintype.Card
import Loxim.Indexes.KeyOrder

/-!
# Whether comparison is a total order

Entries are compared by their keys as they are stored, then by their logical ids.
Three things get in the way of a total order: the two differences wrap around, and
a string is cut at 255 bytes and at its first zero before it is stored.
-/

namespace Loxim.Indexes

-- ---------------------------------------------------------------------------
-- Strings as they are stored
-- ---------------------------------------------------------------------------

/-- A string as it is given to `setValue`. -/
structure StringValue where
  bytes : List UInt8

instance : LinearOrder StringValue :=
  LinearOrder.lift' (fun v => v.bytes.map UInt8.toNat) fun a b h => by
    have hb : a.bytes = b.bytes := List.map_injective_iff.mpr (fun _ _ => UInt8.toNat_inj.mp) h
    cases a
    cases b
    simp_all

theorem StringValue.lt_iff (v w : StringValue) :
    v < w ↔ v.bytes.map UInt8.toNat < w.bytes.map UInt8.toNat := Iff.rfl

/-- `normLen`. -/
def normLen (length : Nat) : Nat := min length maxStringLen

/-- The first bytes of a string as `strncpy` copies them: zeros from the first zero
on. -/
def strncpy : Nat → List UInt8 → List UInt8
  | 0, _ => []
  | n + 1, [] => List.replicate (n + 1) 0
  | n + 1, b :: bs => if b = 0 then List.replicate (n + 1) 0 else b :: strncpy n bs

theorem strncpy_cons (n : Nat) (b : UInt8) (bs : List UInt8) :
    strncpy (n + 1) (b :: bs) = b :: if b = 0 then List.replicate n 0 else strncpy n bs := by
  simp only [strncpy]
  split
  · subst b
    rfl
  · rfl

theorem length_strncpy (n : Nat) (v : List UInt8) : (strncpy n v).length = n := by
  induction n generalizing v with
  | zero => rfl
  | succ n ih =>
    cases v with
    | nil => simp [strncpy]
    | cons b bs =>
      simp only [strncpy]
      split
      · simp
      · simp [ih]

theorem padded_strncpy (n : Nat) (v : List UInt8) : Padded (strncpy n v) := by
  have hzeros (m : Nat) : Padded (List.replicate m 0) := by
    intro b hb
    exact List.eq_of_mem_replicate ((List.dropWhile_suffix _).subset hb)
  induction n generalizing v with
  | zero => exact hzeros 0
  | succ n ih =>
    cases v with
    | nil => exact hzeros _
    | cons b bs =>
      simp only [strncpy]
      split
      · exact hzeros _
      · intro x hx
        rw [List.dropWhile_cons_of_pos (by simpa)] at hx
        exact ih bs x hx

theorem length_strncpy_le (v : List UInt8) :
    (strncpy (normLen v.length) v).length ≤ maxStringLen := by
  rw [length_strncpy]
  exact min_le_right ..

/-- `setValueConverted`. -/
def StringKey.ofValue (v : StringValue) : StringKey where
  bytes := strncpy (normLen v.bytes.length) v.bytes
  length_le := length_strncpy_le v.bytes
  padded := padded_strncpy (normLen v.bytes.length) v.bytes

def commonPrefix : List UInt8 → List UInt8 → List UInt8
  | a :: as, b :: bs => if a = b then a :: commonPrefix as bs else []
  | _, _ => []

/-- The first difference is seen, or the lengths tell the strings apart. -/
theorem strncpy_lt_iff (n : Nat) {v w : List UInt8} (h : v.map UInt8.toNat < w.map UInt8.toNat) :
    (strncpy (min v.length n) v).map UInt8.toNat < (strncpy (min w.length n) w).map UInt8.toNat ↔
      ((commonPrefix v w).length < n ∧ 0 ∉ commonPrefix v w) ∨ min v.length n < min w.length n := by
  induction v generalizing w n with
  | nil =>
    cases w with
    | nil => simp at h
    | cons b bs =>
      cases n with
      | zero => simp [strncpy]
      | succ n => simp [strncpy, commonPrefix]; split <;> simp [List.replicate_succ]
  | cons a as ih =>
    cases w with
    | nil => simp at h
    | cons b bs =>
      cases n with
      | zero => simp [strncpy]
      | succ n =>
        simp only [List.length_cons, Nat.add_min_add_right]
        rcases eq_or_ne a b with rfl | hab
        · simp only [List.map_cons, List.cons_lt_cons_iff, lt_irrefl, true_and, false_or] at h
          rcases eq_or_ne a 0 with rfl | hz
          · simp [strncpy, commonPrefix, replicate_lt_replicate_iff]
          · simp [strncpy, commonPrefix, hz, hz.symm, ih n h]
        · have hne : a.toNat ≠ b.toNat := fun he => hab (UInt8.toNat_inj.mp he)
          simp only [List.map_cons, List.cons_lt_cons_iff, hne, false_and, or_false] at h
          simp only [strncpy_cons, List.map_cons, List.cons_lt_cons_iff, commonPrefix, hab]
          simp [h]

-- ---------------------------------------------------------------------------
-- Logical ids
-- ---------------------------------------------------------------------------

/-- All the ids lie within half of the numbers that follow one of them. -/
def HalfCircle (B : UInt32 → Prop) : Prop :=
  ∃ first, ∀ l, B l → (l - first).toNat < 2 ^ 31

theorem lidDiff_nonneg_iff (a b : UInt32) :
    0 ≤ Comparator.lidDiff a.toNat b.toNat ↔ (a - b).toNat < 2 ^ 31 := by
  have ha := a.toNat_lt
  have hb := b.toNat_lt
  rw [Comparator.lidDiff, Int.bmod_def, UInt32.toNat_sub]
  split <;> omega

theorem lidDiff_eq_zero_iff (a b : UInt32) :
    Comparator.lidDiff a.toNat b.toNat = 0 ↔ a = b := by
  have ha := a.toNat_lt
  have hb := b.toNat_lt
  rw [← UInt32.toNat_inj, Comparator.lidDiff, Int.bmod_def]
  split <;> omega

/-- Within half a circle ids are ordered by their distance from the first. -/
theorem lidDiff_eq_sub {first a b : UInt32} (ha : (a - first).toNat < 2 ^ 31)
    (hb : (b - first).toNat < 2 ^ 31) :
    Comparator.lidDiff a.toNat b.toNat = ((a - first).toNat : Int) - (b - first).toNat := by
  have ha' := a.toNat_lt
  have hb' := b.toNat_lt
  have hf := first.toNat_lt
  simp only [UInt32.toNat_sub] at *
  rw [Comparator.lidDiff, Int.bmod_def]
  split <;> omega

-- ---------------------------------------------------------------------------
-- Total orders
-- ---------------------------------------------------------------------------

variable {K V : Type} [LinearOrder V] {cmp : Comparator K} {stored : V → K} {A : V → Prop}
  {B : UInt32 → Prop}

/-- On pairs of a value and an id the sign of the comparison is a total order that
agrees with the order of the values. -/
structure TotalOrder (cmp : Comparator K) (stored : V → K) (A : V → Prop) (B : UInt32 → Prop) :
    Prop where
  antisymm : ∀ v w, A v → A w → ∀ l m, B l → B m →
    (cmp.compare (stored v) l.toNat (stored w) m.toNat < 0 ↔
      0 < cmp.compare (stored w) m.toNat (stored v) l.toNat)
  trans : ∀ u v w, A u → A v → A w → ∀ k l m, B k → B l → B m →
    cmp.compare (stored u) k.toNat (stored v) l.toNat < 0 →
    cmp.compare (stored v) l.toNat (stored w) m.toNat < 0 →
    cmp.compare (stored u) k.toNat (stored w) m.toNat < 0
  equal : ∀ v w, A v → A w → ∀ l m, B l → B m →
    (cmp.compare (stored v) l.toNat (stored w) m.toNat = 0 ↔ stored v = stored w ∧ l = m)
  agrees : ∀ v w, A v → A w → ∀ l m, B l → B m → v < w →
    cmp.compare (stored v) l.toNat (stored w) m.toNat < 0

/-- The keys alone are compared as the values they are stored for. -/
structure KeysInOrder (cmp : Comparator K) (stored : V → K) (A : V → Prop) : Prop where
  self : ∀ v, A v → cmp.keyCompare (stored v) (stored v) = 0
  less : ∀ v w, A v → A w → v < w → cmp.keyCompare (stored v) (stored w) < 0
  greater : ∀ v w, A v → A w → v < w → 0 < cmp.keyCompare (stored w) (stored v)

section

variable {v w : V} {l m : Lid}

theorem KeysInOrder.compare_lt (h : KeysInOrder cmp stored A) (hv : A v) (hw : A w)
    (hlt : v < w) : cmp.compare (stored v) l (stored w) m < 0 := by
  have := h.less v w hv hw hlt
  simp [Comparator.compare, this, this.ne]

theorem KeysInOrder.compare_gt (h : KeysInOrder cmp stored A) (hv : A v) (hw : A w)
    (hlt : v < w) : 0 < cmp.compare (stored w) l (stored v) m := by
  have := h.greater v w hv hw hlt
  simp [Comparator.compare, this, this.ne']

theorem KeysInOrder.compare_self (h : KeysInOrder cmp stored A) (hv : A v) :
    cmp.compare (stored v) l (stored v) m = Comparator.lidDiff l m := by
  simp [Comparator.compare, h.self v hv]

/-- Only the smaller value, or the smaller id with the same value, comes out
smaller. -/
theorem KeysInOrder.compare_neg (h : KeysInOrder cmp stored A) (hv : A v) (hw : A w)
    (hneg : cmp.compare (stored v) l (stored w) m < 0) :
    v < w ∨ v = w ∧ Comparator.lidDiff l m < 0 := by
  rcases lt_trichotomy v w with hlt | rfl | hgt
  · exact Or.inl hlt
  · rw [h.compare_self hv] at hneg
    exact Or.inr ⟨rfl, hneg⟩
  · have := h.compare_gt (l := l) (m := m) hw hv hgt
    omega

end

theorem KeysInOrder.totalOrder (h : KeysInOrder cmp stored A) (hB : ∀ v, A v → HalfCircle B) :
    TotalOrder cmp stored A B := by
  refine ⟨?_, ?_, ?_, ?_⟩
  · intro v w hv hw l m hl hm
    rcases lt_trichotomy v w with hlt | rfl | hgt
    · exact iff_of_true (h.compare_lt hv hw hlt) (h.compare_gt hv hw hlt)
    · obtain ⟨first, hfirst⟩ := hB v hv
      rw [h.compare_self hv, h.compare_self hv, lidDiff_eq_sub (hfirst l hl) (hfirst m hm),
        lidDiff_eq_sub (hfirst m hm) (hfirst l hl)]
      omega
    · have hpos := h.compare_gt (l := l.toNat) (m := m.toNat) hw hv hgt
      have hneg := h.compare_lt (l := m.toNat) (m := l.toNat) hw hv hgt
      exact iff_of_false (by omega) (by omega)
  · intro u v w hu hv hw k l m hk hl hm huv hvw
    rcases h.compare_neg hu hv huv with hlt | ⟨rfl, hkl⟩
    · rcases h.compare_neg hv hw hvw with hlt' | ⟨rfl, hlm⟩
      · exact h.compare_lt hu hw (hlt.trans hlt')
      · exact h.compare_lt hu hv hlt
    · rcases h.compare_neg hv hw hvw with hlt' | ⟨rfl, hlm⟩
      · exact h.compare_lt hu hw hlt'
      · obtain ⟨first, hfirst⟩ := hB u hu
        rw [lidDiff_eq_sub (hfirst k hk) (hfirst l hl)] at hkl
        rw [lidDiff_eq_sub (hfirst l hl) (hfirst m hm)] at hlm
        rw [h.compare_self hu, lidDiff_eq_sub (hfirst k hk) (hfirst m hm)]
        omega
  · intro v w hv hw l m hl hm
    constructor
    · intro hzero
      rcases lt_trichotomy v w with hlt | rfl | hgt
      · exact absurd hzero (h.compare_lt hv hw hlt).ne
      · rw [h.compare_self hv, lidDiff_eq_zero_iff] at hzero
        exact ⟨rfl, hzero⟩
      · exact absurd hzero (h.compare_gt hw hv hgt).ne'
    · rintro ⟨heq, rfl⟩
      rw [← heq, h.compare_self hv, lidDiff_eq_zero_iff]
  · intro v w hv hw l m _ _ hlt
    exact h.compare_lt hv hw hlt

theorem TotalOrder.keysInOrder (h : TotalOrder cmp stored A B) {l : UInt32} (hl : B l)
    (hself : ∀ v, A v → cmp.keyCompare (stored v) (stored v) = 0) :
    KeysInOrder cmp stored A := by
  have hdiff : Comparator.lidDiff l.toNat l.toNat = 0 := (lidDiff_eq_zero_iff l l).mpr rfl
  -- with one id for both, the keys decide
  have hkey (v w : V) : cmp.compare (stored v) l.toNat (stored w) l.toNat =
      cmp.keyCompare (stored v) (stored w) := by
    simp only [Comparator.compare, hdiff]
    split
    · exact Eq.symm ‹_›
    · rfl
  refine ⟨hself, ?_, ?_⟩
  · intro v w hv hw hlt
    rw [← hkey]
    exact h.agrees v w hv hw l l hl hl hlt
  · intro v w hv hw hlt
    rw [← hkey, ← h.antisymm v w hv hw l l hl hl]
    exact h.agrees v w hv hw l l hl hl hlt

/-- Ids that are ordered have a first one, and all the others lie in the half circle
behind it. -/
theorem TotalOrder.halfCircle (h : TotalOrder cmp stored A B) {v : V} (hv : A v)
    (hself : cmp.keyCompare (stored v) (stored v) = 0) : HalfCircle B := by
  have hcompare (l m : UInt32) : cmp.compare (stored v) l.toNat (stored v) m.toNat =
      Comparator.lidDiff l.toNat m.toNat := by
    simp [Comparator.compare, hself]
  let before (l m : {l // B l}) : Prop := Comparator.lidDiff l.1.toNat m.1.toNat < 0
  have htrans : IsTrans {l // B l} before := by
    refine ⟨fun k l m hkl hlm => ?_⟩
    have := h.trans v v v hv hv hv k l m k.2 l.2 m.2
    simp only [hcompare] at this
    exact this hkl hlm
  have hirrefl : Std.Irrefl before := by
    refine ⟨fun l hl => ?_⟩
    have := (lidDiff_eq_zero_iff l.1 l.1).mpr rfl
    exact absurd this hl.ne
  by_cases hB : ∃ l, B l
  · obtain ⟨l, hl⟩ := hB
    obtain ⟨first, -, hfirst⟩ := (Finite.wellFounded_of_trans_of_irrefl before).has_min
      Set.univ ⟨⟨l, hl⟩, trivial⟩
    refine ⟨first, fun m hm => ?_⟩
    rw [← lidDiff_nonneg_iff]
    exact not_lt.mp (hfirst ⟨m, hm⟩ trivial)
  · exact ⟨0, fun l hl => absurd ⟨l, hl⟩ hB⟩

theorem totalOrder_iff (hself : ∀ v, A v → cmp.keyCompare (stored v) (stored v) = 0) :
    TotalOrder cmp stored A B ↔
      (∀ l, B l → KeysInOrder cmp stored A) ∧ ∀ v, A v → HalfCircle B := by
  constructor
  · intro h
    exact ⟨fun l hl => h.keysInOrder hl hself, fun v hv => h.halfCircle hv (hself v hv)⟩
  · rintro ⟨hkeys, hB⟩
    by_cases hl : ∃ l, B l
    · obtain ⟨l, hl⟩ := hl
      exact (hkeys l hl).totalOrder hB
    · have hno (l : UInt32) : ¬ B l := fun h => hl ⟨l, h⟩
      refine ⟨?_, ?_, ?_, ?_⟩
      · intro v w _ _ l m hl
        exact absurd hl (hno l)
      · intro u v w _ _ _ k l m hk
        exact absurd hk (hno k)
      · intro v w _ _ l m hl
        exact absurd hl (hno l)
      · intro v w _ _ l m hl
        exact absurd hl (hno l)

-- ---------------------------------------------------------------------------
-- The two comparators
-- ---------------------------------------------------------------------------

/-- The difference of any two of the keys is an `int`. -/
def NoOverflow (A : IntKey → Prop) : Prop := ∀ v w, A v → A w → w.1 - v.1 < 2 ^ 31

theorem keysInOrder_int {A : IntKey → Prop} :
    KeysInOrder IntComparator (fun k : IntKey => k.1) A ↔ NoOverflow A := by
  constructor
  · intro h v w hv hw
    rcases lt_or_ge v w with hlt | hge
    · have hv' := v.2
      have hw' := w.2
      have hlt' : v.1 < w.1 := hlt
      have hpos := h.greater v w hv hw hlt
      simp only [IntComparator] at hpos
      split at hpos
      · omega
      · split at hpos
        · omega
        · rename_i hneg
          rw [Int.bmod_def] at hneg
          split at hneg <;> omega
    · have : w.1 ≤ v.1 := hge
      omega
  · intro h
    have htells (v w : IntKey) (hv : A v) (hw : A w) : IntComparator.ordered.Tells v w := by
      have := h v w hv hw
      have := h w v hw hv
      exact IntComparator.tells ⟨by omega, by omega⟩
    refine ⟨?_, ?_, ?_⟩
    · intro v _
      simp [IntComparator]
    · intro v w hv hw hlt
      exact (htells v w hv hw).1.mpr hlt
    · intro v w hv hw hlt
      exact (htells w v hw hv).2.mpr hlt

/-- Of two of the strings the first 255 bytes, up to the first zero, differ, or the
smaller is shorter once both are cut at 255 bytes. -/
def Distinguished (S : StringValue → Prop) : Prop :=
  ∀ v w, S v → S w → v < w →
    ((commonPrefix v.bytes w.bytes).length < maxStringLen ∧ 0 ∉ commonPrefix v.bytes w.bytes) ∨
      normLen v.bytes.length < normLen w.bytes.length

theorem ofValue_lt_iff {v w : StringValue} (h : v < w) :
    StringKey.ofValue v < StringKey.ofValue w ↔
      ((commonPrefix v.bytes w.bytes).length < maxStringLen ∧ 0 ∉ commonPrefix v.bytes w.bytes) ∨
        normLen v.bytes.length < normLen w.bytes.length :=
  strncpy_lt_iff maxStringLen h

theorem string_self (k : StringKey) : StringComparator.keyCompare k k = 0 := by
  obtain ⟨hneg, hpos⟩ := StringComparator.tells k k
  rw [iff_false_intro (lt_irrefl k), iff_false] at hneg hpos
  omega

theorem keysInOrder_string {S : StringValue → Prop} :
    KeysInOrder StringComparator StringKey.ofValue S ↔ Distinguished S := by
  constructor
  · intro h v w hv hw hlt
    rw [← ofValue_lt_iff hlt, ← (StringComparator.tells _ _).1]
    exact h.less v w hv hw hlt
  · intro h
    have hkeys (v w : StringValue) (hv : S v) (hw : S w) (hlt : v < w) :
        StringKey.ofValue v < StringKey.ofValue w := (ofValue_lt_iff hlt).mpr (h v w hv hw hlt)
    refine ⟨?_, ?_, ?_⟩
    · intro v _
      exact string_self _
    · intro v w hv hw hlt
      exact (StringComparator.tells _ _).1.mpr (hkeys v w hv hw hlt)
    · intro v w hv hw hlt
      exact (StringComparator.tells _ _).2.mpr (hkeys v w hv hw hlt)

/-- Comparison is a total order on the ints `A` and the strings `S` with the ids `B`
if and only if no difference of two of the ints is beyond an `int`, the strings can
be told apart as they are stored, and the ids lie within half a circle. -/
theorem totalOrder_iff_noOverflow (A : IntKey → Prop) (S : StringValue → Prop)
    (B : UInt32 → Prop) :
    (TotalOrder IntComparator (fun k : IntKey => k.1) A B ↔
      (∀ l, B l → NoOverflow A) ∧ ∀ v, A v → HalfCircle B) ∧
    (TotalOrder StringComparator StringKey.ofValue S B ↔
      (∀ l, B l → Distinguished S) ∧ ∀ v, S v → HalfCircle B) := by
  constructor
  · rw [totalOrder_iff, keysInOrder_int]
    intro v _
    simp [IntComparator]
  · rw [totalOrder_iff, keysInOrder_string]
    intro v _
    exact string_self _

/-- Two ints far apart; two strings with a zero before their difference. -/
theorem not_totalOrder :
    ¬ TotalOrder IntComparator (fun k : IntKey => k.1) (fun _ => True) (fun _ => True) ∧
      ¬ TotalOrder StringComparator StringKey.ofValue (fun _ => True) (fun _ => True) := by
  constructor
  · intro h
    have hless := h.agrees ⟨-2000000000, by decide⟩ ⟨2000000000, by decide⟩ trivial trivial 0 0
      trivial trivial (by decide)
    revert hless
    decide
  · intro h
    have hless := h.agrees ⟨[0, 1]⟩ ⟨[0, 2]⟩ trivial trivial 0 0 trivial trivial (by decide)
    revert hless
    decide

end Loxim.Indexes
