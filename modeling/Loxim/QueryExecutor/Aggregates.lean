import Loxim.Lib.Accumulators
import Loxim.QueryExecutor.StoredValues
import Mathlib.Algebra.Order.Field.Rat
import Mathlib.Algebra.Order.Ring.Cast
import Mathlib.Tactic.NormNum

/-!
# The aggregate operators

`count`, `sum`, `avg`, `min` and `max` put their argument in a bag and take its elements out one
after another. Integers and reals are collected apart and put together at the end. Reals are exact
here.
-/

namespace Loxim.QueryExecutor.Aggregates

open StoredValues

-- ---------------------------------------------------------------------------
-- The operators
-- ---------------------------------------------------------------------------

section

variable {σ : Type} (deref : Item ℚ → Except Fault (Item ℚ))

/-- The loop of every operator, which stops at the first element that cannot be dereferenced. -/
def overElements (step : σ → Item ℚ → σ) (res : σ) (bagArg : List (Item ℚ)) : Except Fault σ :=
  bagArg.foldlM (fun res current => do return step res (← deref current)) res

structure Totals where
  iSumRes : BitVec 32 := 0
  iCount : Nat := 0
  dSumRes : ℚ := 0
  dCount : Nat := 0

def Totals.add (t : Totals) : Item ℚ → Totals
  | .int v => { t with iSumRes := t.iSumRes + v, iCount := t.iCount + 1 }
  | .double v => { t with dSumRes := t.dSumRes + v, dCount := t.dCount + 1 }
  | _ => t

structure Extremum where
  iRes : BitVec 32 := 0
  iCounted : Bool := false
  dRes : ℚ := 0
  dCounted : Bool := false

/-- The tests say when a value replaces the one that is kept. -/
def Extremum.add (iBetter : BitVec 32 → BitVec 32 → Bool) (dBetter : ℚ → ℚ → Bool)
    (e : Extremum) : Item ℚ → Extremum
  | .int v =>
    if !e.iCounted then { e with iRes := v, iCounted := true }
    else if iBetter v e.iRes then { e with iRes := v }
    else e
  | .double v =>
    if !e.dCounted then { e with dRes := v, dCounted := true }
    else if dBetter v e.dRes then { e with dRes := v }
    else e
  | _ => e

/-- The test says when the integer is taken. -/
def Extremum.final (iFirst : BitVec 32 → ℚ → Bool) (e : Extremum) : Item ℚ :=
  if e.iCounted then
    if e.dCounted then
      if iFirst e.iRes e.dRes then .int e.iRes else .double e.dRes
    else .int e.iRes
  else
    if e.dCounted then .double e.dRes else .nothing

def extremum (iBetter : BitVec 32 → BitVec 32 → Bool) (dBetter : ℚ → ℚ → Bool)
    (iFirst : BitVec 32 → ℚ → Bool) (arg : Item ℚ) : Except Fault (Item ℚ) := do
  let e ← overElements deref (Extremum.add iBetter dBetter) {} (Item.bagAdd [] arg)
  return e.final iFirst

def count (arg : Item ℚ) : Item ℚ := .int (BitVec.ofNat 32 (Item.bagAdd [] arg).length)

def sum (arg : Item ℚ) : Except Fault (Item ℚ) := do
  let t ← overElements deref Totals.add {} (Item.bagAdd [] arg)
  if t.dCount > 0 then return .double (t.dSumRes + t.iSumRes.toInt)
  else return .int t.iSumRes

/-- A division by zero gives no number, `none` here. -/
def avg (arg : Item ℚ) : Except Fault (Option (Item ℚ)) := do
  let t ← overElements deref Totals.add {} (Item.bagAdd [] arg)
  let dSumRes := t.dSumRes + t.iSumRes.toInt
  -- the integer 0 prepared for an empty bag is overwritten here
  if t.iCount + t.dCount = 0 then return none
  else return some (.double (dSumRes / (t.iCount + t.dCount : Nat)))

def min : Item ℚ → Except Fault (Item ℚ) :=
  extremum deref (fun v res => v.slt res) (fun v res => v < res) (fun i d => i.toInt ≤ d)

def max : Item ℚ → Except Fault (Item ℚ) :=
  extremum deref (fun v res => res.slt v) (fun v res => v > res) (fun i d => i.toInt ≥ d)

end

-- ---------------------------------------------------------------------------
-- What is asked of them
-- ---------------------------------------------------------------------------

def asInt : Item ℚ → Option (BitVec 32)
  | .int v => some v
  | _ => none

def asDouble : Item ℚ → Option ℚ
  | .double v => some v
  | _ => none

def number : Item ℚ → Option ℚ
  | .int v => some v.toInt
  | .double v => some v
  | _ => none

def integers (values : List (Item ℚ)) : List (BitVec 32) := values.filterMap asInt

def reals (values : List (Item ℚ)) : List ℚ := values.filterMap asDouble

def numbers (values : List (Item ℚ)) : List ℚ := values.filterMap number

def intTotal (values : List (Item ℚ)) : Int := ((integers values).map BitVec.toInt).sum

def average (l : List ℚ) : ℚ := if l = [] then 0 else l.sum / l.length

/-- One of the values with the best number, and nothing when there is no number. -/
def BestNumber (le : ℚ → ℚ → Prop) (values : List (Item ℚ)) (r : Item ℚ) : Prop :=
  (numbers values = [] → r = .nothing) ∧
    (numbers values ≠ [] → r ∈ values ∧ ∃ m, number r = some m ∧ IsBest le (numbers values) m)

/-- The results are those of the numbers among the values of the elements. -/
structure Exact (deref : Item ℚ → Except Fault (Item ℚ)) (arg : Item ℚ)
    (values : List (Item ℚ)) : Prop where
  sum : ∃ r, sum deref arg = .ok r ∧ number r = some (numbers values).sum
  avg : ∃ r, avg deref arg = .ok (some r) ∧ number r = some (average (numbers values))
  min : ∃ r, min deref arg = .ok r ∧ BestNumber (· ≤ ·) values r
  max : ∃ r, max deref arg = .ok r ∧ BestNumber (· ≥ ·) values r

-- ---------------------------------------------------------------------------
-- Sums
-- ---------------------------------------------------------------------------

/-- What the totals tell of the values that were added. -/
structure Tells (values : List (Item ℚ)) (t : Totals) : Prop where
  iSum : t.iSumRes = BitVec.ofInt 32 (intTotal values)
  total : t.dSumRes + intTotal values = (numbers values).sum
  count : t.iCount + t.dCount = (numbers values).length
  noDouble : t.dCount = 0 → t.dSumRes = 0

section

variable {values : List (Item ℚ)} {t : Totals}

theorem filterMap_concat {α : Type} (f : Item ℚ → Option α) (v : Item ℚ) :
    (values ++ [v]).filterMap f = values.filterMap f ++ (f v).toList := by
  rw [List.filterMap_append]
  cases h : f v <;> simp [h]

theorem intTotal_concat (v : Item ℚ) :
    intTotal (values ++ [v]) =
      intTotal values + ((asInt v).toList.map BitVec.toInt).sum := by
  rw [intTotal, integers, filterMap_concat, List.map_append, List.sum_append]
  rfl

theorem numbers_concat (v : Item ℚ) :
    numbers (values ++ [v]) = numbers values ++ (number v).toList := filterMap_concat number v

theorem Tells.init : Tells [] {} :=
  ⟨rfl, by simp [intTotal, integers, numbers], rfl, fun _ => rfl⟩

theorem Tells.add (h : Tells values t) (v : Item ℚ) : Tells (values ++ [v]) (t.add v) := by
  cases v with
  | int v =>
    refine ⟨?_, ?_, ?_, h.noDouble⟩
    · rw [intTotal_concat, asInt, Option.toList_some, List.map_singleton, List.sum_singleton,
        ← ofInt_add_word, ← h.iSum]
      rfl
    · rw [intTotal_concat, numbers_concat, List.sum_append, ← h.total]
      simp [asInt, number, Totals.add, add_assoc]
    · rw [numbers_concat, List.length_append, ← h.count]
      exact Nat.add_right_comm _ _ _
  | double v =>
    refine ⟨?_, ?_, ?_, ?_⟩
    · rw [intTotal_concat]
      simpa [asInt, Totals.add] using h.iSum
    · rw [intTotal_concat, numbers_concat, List.sum_append, ← h.total]
      simp [asInt, number, Totals.add, add_right_comm]
    · rw [numbers_concat, List.length_append, ← h.count]
      rfl
    · intro hzero
      exact absurd hzero (Nat.succ_ne_zero _)
  | _ =>
    refine ⟨?_, ?_, ?_, h.noDouble⟩
    · rw [intTotal_concat]
      simpa [asInt, Totals.add] using h.iSum
    · rw [intTotal_concat, numbers_concat]
      simpa [asInt, number, Totals.add] using h.total
    · rw [numbers_concat]
      simpa [number, Totals.add] using h.count

theorem Tells.foldl (values : List (Item ℚ)) : Tells values (values.foldl Totals.add {}) :=
  foldl_seen Tells.init (fun _ _ v h => h.add v) values

variable {deref : Item ℚ → Except Fault (Item ℚ)} {arg : Item ℚ}

theorem overElements_eq {σ : Type} (step : σ → Item ℚ → σ) (res : σ)
    (h : (Item.bagAdd [] arg).mapM deref = .ok values) :
    overElements deref step res (Item.bagAdd [] arg) = .ok (values.foldl step res) :=
  foldlM_read h res

theorem overElements_error {σ : Type} (step : σ → Item ℚ → σ) (res : σ) {fault : Fault}
    (h : (Item.bagAdd [] arg).mapM deref = .error fault) :
    overElements deref step res (Item.bagAdd [] arg) = .error fault :=
  foldlM_read_error h res

/-- The sum as the totals have it. -/
def Totals.value (t : Totals) : ℚ := t.dSumRes + t.iSumRes.toInt

theorem Tells.value_eq_iff (h : Tells values t) :
    t.value = (numbers values).sum ↔ InRange 31 (intTotal values) := by
  rw [← h.total, Totals.value, add_right_inj, Int.cast_inj, h.iSum]
  exact toInt_ofInt_eq_iff 31 (intTotal values)

theorem sum_number (h : (Item.bagAdd [] arg).mapM deref = .ok values) :
    ∃ r, sum deref arg = .ok r ∧ number r = some (values.foldl Totals.add {}).value := by
  have htells := Tells.foldl values
  rw [sum, overElements_eq Totals.add {} h]
  generalize values.foldl Totals.add {} = t at htells ⊢
  by_cases hcount : t.dCount > 0
  · exact ⟨.double t.value, if_pos hcount, rfl⟩
  · refine ⟨.int t.iSumRes, if_neg hcount, ?_⟩
    rw [number, Totals.value, htells.noDouble (Nat.eq_zero_of_not_pos hcount), zero_add]

theorem sum_exact_iff (h : (Item.bagAdd [] arg).mapM deref = .ok values) :
    (∃ r, sum deref arg = .ok r ∧ number r = some (numbers values).sum) ↔
      InRange 31 (intTotal values) := by
  obtain ⟨r, hr, hnumber⟩ := sum_number h
  rw [← (Tells.foldl values).value_eq_iff]
  constructor
  · rintro ⟨r', hr', hnumber'⟩
    rw [hr] at hr'
    cases hr'
    exact Option.some.inj (hnumber.symm.trans hnumber')
  · intro hvalue
    exact ⟨r, hr, hnumber.trans (congrArg some hvalue)⟩

theorem avg_eq (h : (Item.bagAdd [] arg).mapM deref = .ok values) :
    avg deref arg = .ok (if (numbers values).length = 0 then none
      else some (.double ((values.foldl Totals.add {}).value / (numbers values).length))) := by
  have htells := Tells.foldl values
  rw [avg, overElements_eq Totals.add {} h]
  generalize values.foldl Totals.add {} = t at htells ⊢
  change (if t.iCount + t.dCount = 0 then Except.ok none
    else Except.ok (some (Item.double (t.value / (t.iCount + t.dCount : Nat))))) = _
  rw [htells.count]
  split <;> rfl

theorem avg_exact_iff (h : (Item.bagAdd [] arg).mapM deref = .ok values) :
    (∃ r, avg deref arg = .ok (some r) ∧ number r = some (average (numbers values))) ↔
      numbers values ≠ [] ∧ InRange 31 (intTotal values) := by
  rw [avg_eq h]
  by_cases hempty : numbers values = []
  · rw [if_pos (List.length_eq_zero_iff.mpr hempty)]
    constructor
    · rintro ⟨r, hr, -⟩
      cases hr
    · rintro ⟨hne, -⟩
      exact absurd hempty hne
  · have hne : (numbers values).length ≠ 0 := List.length_eq_zero_iff.not.mpr hempty
    have hlength : ((numbers values).length : ℚ) ≠ 0 := Nat.cast_ne_zero.mpr hne
    rw [if_neg hne, average, if_neg hempty, ← (Tells.foldl values).value_eq_iff]
    constructor
    · rintro ⟨r, hr, hnumber⟩
      cases hr
      exact ⟨hempty, (div_left_inj' hlength).mp (Option.some.inj hnumber)⟩
    · rintro ⟨-, hvalue⟩
      exact ⟨_, rfl, congrArg some (congrArg (· / ((numbers values).length : ℚ)) hvalue)⟩

end

-- ---------------------------------------------------------------------------
-- Extremes
-- ---------------------------------------------------------------------------

/-- The tests of an operator agree with an order. -/
structure Agrees (le : ℚ → ℚ → Prop) (iBetter : BitVec 32 → BitVec 32 → Bool)
    (dBetter : ℚ → ℚ → Bool) (iFirst : BitVec 32 → ℚ → Bool) : Prop where
  ints : Picks (fun v w => le v.toInt w.toInt) iBetter
  doubles : Picks le dBetter
  first {i : BitVec 32} {d : ℚ} : iFirst i d = true → le i.toInt d
  second {i : BitVec 32} {d : ℚ} : iFirst i d = false → le d i.toInt

def Extremum.keptInt (e : Extremum) : Option (BitVec 32) :=
  bif e.iCounted then some e.iRes else none

def Extremum.keptDouble (e : Extremum) : Option ℚ := bif e.dCounted then some e.dRes else none

/-- What is kept of the values that were added. -/
structure Kept (le : ℚ → ℚ → Prop) (values : List (Item ℚ)) (e : Extremum) : Prop where
  ints : KeepsBest (fun v w => le v.toInt w.toInt) (integers values) e.keptInt
  doubles : KeepsBest le (reals values) e.keptDouble

section

variable {le : ℚ → ℚ → Prop} {iBetter : BitVec 32 → BitVec 32 → Bool} {dBetter : ℚ → ℚ → Bool}
  {iFirst : BitVec 32 → ℚ → Bool} {values : List (Item ℚ)} {e : Extremum}

theorem integers_concat (v : Item ℚ) :
    integers (values ++ [v]) = integers values ++ (asInt v).toList := filterMap_concat asInt v

theorem reals_concat (v : Item ℚ) :
    reals (values ++ [v]) = reals values ++ (asDouble v).toList := filterMap_concat asDouble v

theorem Extremum.add_int (iBetter : BitVec 32 → BitVec 32 → Bool) (dBetter : ℚ → ℚ → Bool)
    (e : Extremum) (v : BitVec 32) :
    (e.add iBetter dBetter (.int v)).keptInt = some (keep iBetter e.keptInt v) ∧
      (e.add iBetter dBetter (.int v)).keptDouble = e.keptDouble := by
  simp only [Extremum.add, keptInt, keptDouble]
  cases hcounted : e.iCounted with
  | false => exact ⟨rfl, rfl⟩
  | true => cases hbetter : iBetter v e.iRes <;> simp [hcounted, hbetter, keep]

theorem Extremum.add_double (iBetter : BitVec 32 → BitVec 32 → Bool) (dBetter : ℚ → ℚ → Bool)
    (e : Extremum) (v : ℚ) :
    (e.add iBetter dBetter (.double v)).keptInt = e.keptInt ∧
      (e.add iBetter dBetter (.double v)).keptDouble = some (keep dBetter e.keptDouble v) := by
  simp only [Extremum.add, keptInt, keptDouble]
  cases hcounted : e.dCounted with
  | false => exact ⟨rfl, rfl⟩
  | true => cases hbetter : dBetter v e.dRes <;> simp [hcounted, hbetter, keep]

theorem Kept.add (h : Agrees le iBetter dBetter iFirst) (hkept : Kept le values e) (v : Item ℚ) :
    Kept le (values ++ [v]) (e.add iBetter dBetter v) := by
  cases v with
  | int v =>
    obtain ⟨hint, hdouble⟩ := e.add_int iBetter dBetter v
    refine ⟨?_, ?_⟩
    · rw [integers_concat, hint]
      exact hkept.ints.keep h.ints v
    · rw [reals_concat, hdouble]
      simpa [asDouble] using hkept.doubles
  | double v =>
    obtain ⟨hint, hdouble⟩ := e.add_double iBetter dBetter v
    refine ⟨?_, ?_⟩
    · rw [integers_concat, hint]
      simpa [asInt] using hkept.ints
    · rw [reals_concat, hdouble]
      exact hkept.doubles.keep h.doubles v
  | _ =>
    refine ⟨?_, ?_⟩
    · rw [integers_concat]
      simpa [asInt, Extremum.add] using hkept.ints
    · rw [reals_concat]
      simpa [asDouble, Extremum.add] using hkept.doubles

theorem Kept.foldl (h : Agrees le iBetter dBetter iFirst) (values : List (Item ℚ)) :
    Kept le values (values.foldl (Extremum.add iBetter dBetter) {}) :=
  foldl_seen ⟨rfl, rfl⟩ (fun _ _ v hkept => hkept.add h v) values

theorem mem_integers {v : BitVec 32} : v ∈ integers values ↔ Item.int v ∈ values := by
  rw [integers, List.mem_filterMap]
  constructor
  · rintro ⟨r, hr, hv⟩
    cases r <;> cases hv
    exact hr
  · intro hv
    exact ⟨_, hv, rfl⟩

theorem mem_reals {v : ℚ} : v ∈ reals values ↔ Item.double v ∈ values := by
  rw [reals, List.mem_filterMap]
  constructor
  · rintro ⟨r, hr, hv⟩
    cases r <;> cases hv
    exact hr
  · intro hv
    exact ⟨_, hv, rfl⟩

theorem mem_numbers {m : ℚ} :
    m ∈ numbers values ↔ (∃ v ∈ integers values, (v.toInt : ℚ) = m) ∨ m ∈ reals values := by
  rw [numbers, List.mem_filterMap]
  constructor
  · rintro ⟨r, hr, hm⟩
    cases r <;> cases hm
    · exact .inl ⟨_, mem_integers.mpr hr, rfl⟩
    · exact .inr (mem_reals.mpr hr)
  · rintro (⟨v, hv, rfl⟩ | hm)
    · exact ⟨_, mem_integers.mp hv, rfl⟩
    · exact ⟨_, mem_reals.mp hm, rfl⟩

theorem numbers_eq_nil : numbers values = [] ↔ integers values = [] ∧ reals values = [] := by
  simp only [List.eq_nil_iff_forall_not_mem, mem_numbers, not_or, not_exists, not_and]
  constructor
  · intro h
    exact ⟨fun v hv => (h v.toInt).1 v hv rfl, fun m => (h m).2⟩
  · rintro ⟨hints, hreals⟩ m
    exact ⟨fun v hv => absurd hv (hints v), hreals m⟩

/-- An integer that is best among the integers, and not worse than any real. -/
theorem bestNumber_int {v : BitVec 32}
    (hbest : IsBest (fun v w => le v.toInt w.toInt) (integers values) v)
    (hreals : ∀ d ∈ reals values, le v.toInt d) : BestNumber le values (.int v) := by
  have hmem := mem_numbers.mpr (.inl ⟨v, hbest.mem, rfl⟩)
  refine ⟨fun hempty => absurd hmem (by rw [hempty]; exact List.not_mem_nil), fun _ => ?_⟩
  refine ⟨mem_integers.mp hbest.mem, _, rfl, hmem, ?_⟩
  intro m hm
  rcases mem_numbers.mp hm with ⟨w, hw, rfl⟩ | hm
  · exact hbest.best w hw
  · exact hreals m hm

theorem bestNumber_double {d : ℚ} (hbest : IsBest le (reals values) d)
    (hints : ∀ v ∈ integers values, le d v.toInt) : BestNumber le values (.double d) := by
  have hmem := mem_numbers.mpr (.inr hbest.mem)
  refine ⟨fun hempty => absurd hmem (by rw [hempty]; exact List.not_mem_nil), fun _ => ?_⟩
  refine ⟨mem_reals.mp hbest.mem, _, rfl, hmem, ?_⟩
  intro m hm
  rcases mem_numbers.mp hm with ⟨w, hw, rfl⟩ | hm
  · exact hints w hw
  · exact hbest.best m hm

theorem Kept.final (h : Agrees le iBetter dBetter iFirst) (hkept : Kept le values e) :
    BestNumber le values (e.final iFirst) := by
  obtain ⟨hints, hreals⟩ := hkept
  rw [Extremum.keptInt] at hints
  rw [Extremum.keptDouble] at hreals
  rw [Extremum.final]
  cases hi : e.iCounted <;> cases hd : e.dCounted <;> rw [hi] at hints <;> rw [hd] at hreals
  case false.false =>
    exact ⟨fun _ => rfl, fun hne => absurd (numbers_eq_nil.mpr ⟨hints, hreals⟩) hne⟩
  case false.true =>
    refine bestNumber_double hreals ?_
    intro v hv
    rw [show integers values = [] from hints] at hv
    exact absurd hv List.not_mem_nil
  case true.false =>
    refine bestNumber_int hints ?_
    intro d hd
    rw [show reals values = [] from hreals] at hd
    exact absurd hd List.not_mem_nil
  case true.true =>
    simp only [if_true]
    cases hfirst : iFirst e.iRes e.dRes with
    | true =>
      refine bestNumber_int hints ?_
      intro d hd
      exact h.doubles.trans (h.first hfirst) (hreals.best d hd)
    | false =>
      refine bestNumber_double hreals ?_
      intro v hv
      exact h.doubles.trans (h.second hfirst) (hints.best v hv)

variable {deref : Item ℚ → Except Fault (Item ℚ)} {arg : Item ℚ}

theorem extremum_best (h : Agrees le iBetter dBetter iFirst)
    (hread : (Item.bagAdd [] arg).mapM deref = .ok values) :
    ∃ r, extremum deref iBetter dBetter iFirst arg = .ok r ∧ BestNumber le values r := by
  rw [extremum, overElements_eq (Extremum.add iBetter dBetter) {} hread]
  exact ⟨_, rfl, (Kept.foldl h values).final h⟩

theorem agrees_min : Agrees (· ≤ ·) (fun v res => v.slt res) (fun v res => decide (v < res))
    (fun i d => decide ((i.toInt : ℚ) ≤ d)) where
  ints := by
    refine Picks.of_lt (fun v : BitVec 32 => (v.toInt : ℚ)) ?_
    intro v w
    rw [BitVec.slt_eq_decide, decide_eq_true_iff, Int.cast_lt]
  doubles := Picks.of_lt (fun v => v) fun v w => decide_eq_true_iff
  first hfirst := of_decide_eq_true hfirst
  second hfirst := (not_le.mp (of_decide_eq_false hfirst)).le

theorem agrees_max : Agrees (· ≥ ·) (fun v res => res.slt v) (fun v res => decide (v > res))
    (fun i d => decide ((i.toInt : ℚ) ≥ d)) where
  ints := by
    refine Picks.of_lt (β := ℚᵒᵈ) (fun v : BitVec 32 => OrderDual.toDual (v.toInt : ℚ)) ?_
    intro v w
    rw [BitVec.slt_eq_decide, decide_eq_true_iff, OrderDual.toDual_lt_toDual, Int.cast_lt]
  doubles := Picks.of_lt (β := ℚᵒᵈ) (fun v => OrderDual.toDual v) fun v w => decide_eq_true_iff
  first hfirst := of_decide_eq_true hfirst
  second hfirst := (not_le.mp (of_decide_eq_false hfirst)).le

theorem min_best (h : (Item.bagAdd [] arg).mapM deref = .ok values) :
    ∃ r, min deref arg = .ok r ∧ BestNumber (· ≤ ·) values r := extremum_best agrees_min h

theorem max_best (h : (Item.bagAdd [] arg).mapM deref = .ok values) :
    ∃ r, max deref arg = .ok r ∧ BestNumber (· ≥ ·) values r := extremum_best agrees_max h

end

-- ---------------------------------------------------------------------------
-- All operators
-- ---------------------------------------------------------------------------

section

variable {real : BitVec 64 → ℚ} {bound : Name → Option (List Name)} {s : Store.DBStoreManager}

/-- The value of an object with a number is the number. -/
theorem derefQuery_number (hs : s.Sound) {lid : Nat} {o : Store.Object}
    (ho : s.object lid = some o) (n : Nat) :
    (∀ v, o.value.content = .integer v →
      derefQuery real bound s (n + 1) (.reference { lid }) = .ok (.int v)) ∧
    (∀ v, o.value.content = .double v →
      derefQuery real bound s (n + 1) (.reference { lid }) = .ok (.double (real v))) := by
  rw [derefQuery_reference hs ho]
  obtain ⟨_, _, _, value⟩ := o
  cases value
  constructor
  · rintro v ⟨⟩
    rfl
  · rintro v ⟨⟩
    rfl

/-- An element that cannot be dereferenced is an error of every operator. -/
theorem aggregates_error {deref : Item ℚ → Except Fault (Item ℚ)} {arg : Item ℚ} {fault : Fault}
    (h : (Item.bagAdd [] arg).mapM deref = .error fault) :
    sum deref arg = .error fault ∧ avg deref arg = .error fault ∧
      min deref arg = .error fault ∧ max deref arg = .error fault := by
  refine ⟨?_, ?_, ?_, ?_⟩
  · rw [sum, overElements_error Totals.add {} h]
    rfl
  · rw [avg, overElements_error Totals.add {} h]
    rfl
  · rw [min, extremum, overElements_error (Extremum.add _ _) {} h]
    rfl
  · rw [max, extremum, overElements_error (Extremum.add _ _) {} h]
    rfl

end

/-- The operators give what they should if there is a number to divide by and the integers do not
add up to more than a word holds. -/
theorem aggregates_exact_iff {real : BitVec 64 → ℚ} {bound : Name → Option (List Name)}
    {s : Store.DBStoreManager} {n : Nat} {arg : Item ℚ} {values : List (Item ℚ)}
    (h : (Item.bagAdd [] arg).mapM (derefQuery real bound s n) = .ok values) :
    Exact (derefQuery real bound s n) arg values ↔
      numbers values ≠ [] ∧ InRange 31 (intTotal values) := by
  rw [← avg_exact_iff h]
  constructor
  · intro hexact
    exact hexact.avg
  · intro havg
    have hrange := ((avg_exact_iff h).mp havg).2
    exact ⟨(sum_exact_iff h).mpr hrange, havg, min_best h, max_best h⟩

def mixed : List (Item ℚ) := [.int 2, .double (1 / 2), .string [97]]

theorem aggregates_exact_mixed :
    Exact (derefQuery (fun _ => 0) (fun _ => none) {} 1) (.sequence mixed) mixed := by
  have hread : (Item.bagAdd [] (.sequence mixed)).mapM
      (derefQuery (fun _ => 0) (fun _ => none) {} 1) = .ok mixed := rfl
  exact (aggregates_exact_iff hread).mpr ⟨by simp [mixed, numbers, number], by decide⟩

/-- The average of nothing, and a sum that a word does not hold. -/
theorem not_aggregates_exact :
    ¬Exact (derefQuery (fun _ => 0) (fun _ => none) {} 1) (.bag []) [] ∧
      ¬Exact (derefQuery (fun _ => 0) (fun _ => none) {} 1)
        (.bag [.int 2147483647, .int 1]) [.int 2147483647, .int 1] := by
  constructor
  · intro hexact
    obtain ⟨r, hr, -⟩ := hexact.avg
    cases hr
  · intro hexact
    obtain ⟨r, hr, hnumber⟩ := hexact.sum
    have hvalue : (2147483648#32).toInt = -2147483648 := by decide
    change Except.ok (Item.int 2147483648#32) = Except.ok r at hr
    cases hr
    rw [number, hvalue] at hnumber
    simp [number, numbers] at hnumber
    norm_num at hnumber

end Loxim.QueryExecutor.Aggregates
