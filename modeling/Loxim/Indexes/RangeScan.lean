import Loxim.Lib.Prefix
import Loxim.Indexes.LeafTraveller

/-!
# Range scans

The constraints of a query put a traveller on the first entry in question and let
it grab what it passes on the way to the other bound. A bound is what `setValue`
makes of the value given.

What is handed to the sieve is the interval, if the comparator tells the order of
those keys at which the walk has to turn.
-/

namespace Loxim.Indexes

variable {K : Type}

structure ExactConstraints (K : Type) where
  value : K

structure LeftBoundedConstraints (K : Type) where
  inclusive : Bool
  value : K

structure RightBoundedConstraints (K : Type) where
  value : K
  inclusive : Bool

structure TwoSideConstraints (K : Type) where
  inclusiveLeft : Bool
  leftValue : K
  rightValue : K
  inclusiveRight : Bool

inductive RangeConstraints (K : Type)
  | exact (c : ExactConstraints K)
  | leftBounded (c : LeftBoundedConstraints K)
  | rightBounded (c : RightBoundedConstraints K)
  | twoSide (c : TwoSideConstraints K)

/-- `BTree::find` of a tree, for a value or with the `MinComparator`. -/
abbrev Find (K : Type) := Option K → Option (Position K)

section

variable [LinearOrder K] (cmp : OrderedComparator K) (tree : Find K) (junk : K)

def ExactConstraints.find (c : ExactConstraints K) (traveler : LeafTraveller K) : LeafTraveller K :=
  match tree (some c.value) with
  | some ⟨e :: rest, leaves⟩ =>
    if cmp.lessThan c.value e.key then traveler
    else ((traveler.setPosition ⟨e :: rest, leaves⟩).setGrab true).travelToGreater cmp junk
  | _ => traveler

def LeftBoundedConstraints.find (c : LeftBoundedConstraints K) (traveler : LeafTraveller K) :
    LeafTraveller K :=
  match tree (some c.value) with
  | some ⟨e :: rest, leaves⟩ =>
    let stepOver := !c.inclusive && cmp.equal c.value e.key
    let traveler := traveler.setPosition ⟨e :: rest, leaves⟩
    let traveler :=
      if stepOver then (traveler.setGrab false).travelToGreater cmp junk else traveler
    (traveler.setGrab true).travelToEnd
  | _ => traveler

/-- The way to the right bound, and over it if it belongs to the interval. -/
def grabToDestination (inclusive : Bool) (traveler : LeafTraveller K) : LeafTraveller K :=
  let traveler := (traveler.setGrab true).travelToDestination cmp
  if inclusive && !traveler.destinationExceeded then traveler.travelToGreater cmp junk
  else traveler

def RightBoundedConstraints.find (c : RightBoundedConstraints K) (traveler : LeafTraveller K) :
    LeafTraveller K :=
  let traveler := traveler.setDestination c.value
  match tree none with
  | some ⟨e :: rest, leaves⟩ =>
    grabToDestination cmp junk c.inclusive (traveler.setPosition ⟨e :: rest, leaves⟩)
  | _ => traveler

def TwoSideConstraints.find (c : TwoSideConstraints K) (traveler : LeafTraveller K) :
    LeafTraveller K :=
  let traveler := traveler.setDestination c.rightValue
  match tree (some c.leftValue) with
  | some ⟨e :: rest, leaves⟩ =>
    let traveler := traveler.setPosition ⟨e :: rest, leaves⟩
    let equal := cmp.equal c.leftValue e.key
    let traveler :=
      if equal && !c.inclusiveLeft then (traveler.setGrab false).travelToGreater cmp junk
      else traveler
    grabToDestination cmp junk c.inclusiveRight traveler
  | _ => traveler

namespace RangeConstraints

def find : RangeConstraints K → LeafTraveller K → LeafTraveller K
  | .exact c => c.find cmp tree junk
  | .leftBounded c => c.find cmp tree junk
  | .rightBounded c => c.find cmp tree junk
  | .twoSide c => c.find cmp tree junk

/-- `Constraints::search`: what the sieve is given. -/
def search (destinationExceeded : Bool) (c : RangeConstraints K) : List (Item K) :=
  (c.find cmp tree junk { destinationExceeded }).added

end RangeConstraints

end

-- ---------------------------------------------------------------------------
-- What is searched for
-- ---------------------------------------------------------------------------

/-- The first entry along the leaves that meets the condition. -/
def firstAt (condition : Item K → Bool) : List (List (Item K)) → Option (Position K)
  | [] => none
  | leaf :: leaves =>
    match leaf.dropWhile (! condition ·) with
    | [] => firstAt condition leaves
    | e :: rest => some ⟨e :: rest, leaves⟩

section

variable [LinearOrder K]

/-- Every entry is greater than what a `MinComparator` stands for. -/
def atLeast (bound : Option K) (e : Item K) : Bool := bound.all (· ≤ e.key)

def lowerBound (leaves : List (List (Item K))) : Find K := fun bound =>
  firstAt (atLeast bound) leaves

def belowRight (inclusive : Bool) (v k : K) : Bool := if inclusive then k ≤ v else k < v

def aboveLeft (inclusive : Bool) (v k : K) : Bool := if inclusive then v ≤ k else v < k

def RangeConstraints.contains : RangeConstraints K → K → Bool
  | .exact c, k => k = c.value
  | .leftBounded c, k => aboveLeft c.inclusive c.value k
  | .rightBounded c, k => belowRight c.inclusive c.value k
  | .twoSide c, k =>
    aboveLeft c.inclusiveLeft c.leftValue k && belowRight c.inclusiveRight c.rightValue k

/-- The leaf chain is in the order of the keys. -/
def Ordered (entries : List (Item K)) : Prop := entries.Pairwise fun a b => a.key ≤ b.key

instance (entries : List (Item K)) : Decidable (Ordered entries) :=
  inferInstanceAs (Decidable (entries.Pairwise fun a b => a.key ≤ b.key))

end

-- ---------------------------------------------------------------------------
-- Where the walk turns
-- ---------------------------------------------------------------------------

section

variable [LinearOrder K] (cmp : OrderedComparator K)

/-- The next key above `v` is seen to be above it. -/
def tellsAbove (v : K) (entries : List (Item K)) : Bool :=
  (entries.find? (v < ·.key)).all (cmp.lessThan v ·.key)

/-- The keys below the right bound are seen to be below it, and the next one is
not. -/
def tellsEnd (inclusive : Bool) (v : K) (entries : List (Item K)) : Bool :=
  entries.all (fun e => v ≤ e.key || !cmp.lessOrEqual v e.key) &&
    if inclusive then tellsAbove cmp v entries
    else (entries.find? (v ≤ ·.key)).all (cmp.lessOrEqual v ·.key)

def holdsKey (v : K) (entries : List (Item K)) : Bool := entries.any (·.key = v)

/-- Without a mistake before the right bound, the interval has to end in the
right place. If the left bound is not skipped, or everything is, nothing may be
grabbed and the interval has to be empty. -/
def TwoSideConstraints.judged (c : TwoSideConstraints K) (entries : List (Item K)) : Bool :=
  let nothing := entries.all fun e => !(RangeConstraints.twoSide c).contains e.key
  if c.inclusiveLeft || !holdsKey c.leftValue entries then
    tellsEnd cmp c.inclusiveRight c.rightValue (entries.filter (c.leftValue ≤ ·.key))
  else if !cmp.equal c.leftValue c.leftValue then
    nothing && cmp.lessOrEqual c.rightValue c.leftValue &&
      (!c.inclusiveRight || cmp.lessThan c.rightValue c.leftValue)
  else if tellsAbove cmp c.leftValue entries then
    tellsEnd cmp c.inclusiveRight c.rightValue (entries.filter (c.leftValue < ·.key))
  else nothing

def RangeConstraints.judged (entries : List (Item K)) : RangeConstraints K → Bool
  | .exact c => tellsAbove cmp c.value entries
  | .leftBounded c => c.inclusive || !holdsKey c.value entries ||
    (cmp.equal c.value c.value && tellsAbove cmp c.value entries)
  | .rightBounded c => tellsEnd cmp c.inclusive c.value entries
  | .twoSide c => c.judged cmp entries

end

-- ---------------------------------------------------------------------------
-- What is grabbed
-- ---------------------------------------------------------------------------

structure FirstAt (condition : Item K → Bool) (entries : List (Item K)) (r : Option (Position K)) :
    Prop where
  found : ∀ p, r = some p → p.entry ≠ [] ∧
    p.entry ++ p.nextLeaf.flatten = entries.dropWhile (! condition ·)
  missing : r = none → entries.dropWhile (! condition ·) = []

theorem firstAt_spec (condition : Item K → Bool) (leaves : List (List (Item K))) :
    FirstAt condition leaves.flatten (firstAt condition leaves) := by
  induction leaves with
  | nil => exact ⟨by simp [firstAt], by simp⟩
  | cons leaf leaves ih =>
    rw [firstAt, List.flatten_cons]
    cases hd : leaf.dropWhile (! condition ·) with
    | nil =>
      have hall : ∀ e ∈ leaf, (! condition e) = true := List.dropWhile_eq_nil_iff.mp hd
      constructor
      · rw [List.dropWhile_append_of_pos hall]
        exact ih.found
      · rw [List.dropWhile_append_of_pos hall]
        exact ih.missing
    | cons e rest =>
      refine ⟨?_, by simp⟩
      rintro p ⟨⟩
      simp [List.dropWhile_append, hd]

section

variable [LinearOrder K] {cmp : OrderedComparator K} {tree : Find K} {junk : K}
  {leaves : List (List (Item K))} {entries : List (Item K)} {t : LeafTraveller K} {v : K}

theorem lessThan_self (cmp : OrderedComparator K) (v : K) : cmp.lessThan v v = false := by
  have := cmp.self v
  simpa [OrderedComparator.lessThan] using this

theorem Ordered.leading (h : Ordered entries) {q : K → Bool} (hq : ∀ a b, a ≤ b → q b → q a) :
    Leading (fun e => q e.key) entries :=
  Leading.of_pairwise h fun a b => hq a.key b.key

theorem Ordered.filter (h : Ordered entries) (q : Item K → Bool) : Ordered (entries.filter q) :=
  List.Pairwise.filter q h

/-- The traveller is put before the entries that are not smaller than the bound,
or there are none. -/
theorem Ordered.lowerBound_cases (h : Ordered leaves.flatten) (bound : Option K) :
    (lowerBound leaves bound = none ∧ leaves.flatten.filter (atLeast bound) = []) ∨
      ∃ e rest next, lowerBound leaves bound = some ⟨e :: rest, next⟩ ∧
        leaves.flatten.filter (atLeast bound) = e :: (rest ++ next.flatten) := by
  have hlead : Leading (fun e : Item K => ! atLeast bound e) leaves.flatten := by
    apply Leading.of_pairwise h
    intro a b hab hb
    cases bound with
    | none => simp [atLeast] at hb
    | some v =>
      simp only [atLeast, Option.all_some, Bool.not_eq_true', decide_eq_false_iff_not,
        not_le] at hb ⊢
      exact lt_of_le_of_lt hab hb
  have hf := firstAt_spec (atLeast bound) leaves
  have heq := hlead.dropWhile_self
  simp only [Bool.not_not] at heq
  cases hr : lowerBound leaves bound with
  | none => exact Or.inl ⟨rfl, heq ▸ hf.missing hr⟩
  | some p =>
    obtain ⟨hne, hp⟩ := hf.found p hr
    obtain ⟨entry, next⟩ := p
    cases entry with
    | nil => exact absurd rfl hne
    | cons e rest => exact Or.inr ⟨e, rest, next, rfl, heq ▸ hp.symm⟩

/-- Where the walk to the right bound stops for good. -/
def stops (cmp : OrderedComparator K) (inclusive : Bool) (v : K) (e : Item K) : Bool :=
  if inclusive then cmp.lessThan v e.key else cmp.lessOrEqual v e.key

/-- Going on from the bound is going on from its own key. -/
theorem grab_takeWhile (cmp : OrderedComparator K) (v : K) (l : List (Item K)) {e : Item K}
    {rest : List (Item K)} (hd : l.dropWhile (! cmp.lessOrEqual v ·.key) = e :: rest) :
    l.takeWhile (! cmp.lessThan v ·.key) = l.takeWhile (! cmp.lessOrEqual v ·.key) ++
      if cmp.lessThan v e.key then []
      else (e :: rest).takeWhile (! cmp.lessThan e.key ·.key) := by
  have hpass : ∀ a ∈ l.takeWhile (! cmp.lessOrEqual v ·.key), (! cmp.lessThan v a.key) = true := by
    intro a ha
    have := List.mem_takeWhile_imp ha
    simp only [OrderedComparator.lessOrEqual, OrderedComparator.lessThan, Bool.not_eq_true',
      decide_eq_false_iff_not] at this ⊢
    omega
  conv_lhs => rw [← List.takeWhile_append_dropWhile (p := (! cmp.lessOrEqual v ·.key)) (l := l), hd]
  rw [List.takeWhile_append_of_pos hpass]
  congr 1
  cases hlt : cmp.lessThan v e.key with
  | true => simp [hlt]
  | false =>
    have hle : cmp.lessOrEqual v e.key = true := by
      have := List.head?_dropWhile_not (fun a : Item K => ! cmp.lessOrEqual v a.key) l
      simpa [hd] using this
    have hkey : v = e.key := by
      apply cmp.eq_of_zero
      simp only [OrderedComparator.lessOrEqual, OrderedComparator.lessThan, decide_eq_true_eq,
        decide_eq_false_iff_not] at hlt hle
      omega
    simp [hkey]

variable (cmp junk) in
theorem LeafTraveller.Stands.grabToDestination (h : t.Stands) (hd : t.destinationComp = some v)
    (inclusive : Bool) :
    (grabToDestination cmp junk inclusive t).added =
      t.added ++ t.ahead.takeWhile (! stops cmp inclusive v ·) := by
  have hg : (t.setGrab true).Stands := h
  obtain ⟨hw, hexceeded⟩ := hg.travelToDestination cmp hd
  have hadded : ((t.setGrab true).travelToDestination cmp).added =
      t.added ++ t.ahead.takeWhile (! cmp.lessOrEqual v ·.key) := hw.added
  have hgrab : ((t.setGrab true).travelToDestination cmp).grab = true := hw.grab
  have hahead : ((t.setGrab true).travelToDestination cmp).ahead =
      t.ahead.dropWhile (! cmp.lessOrEqual v ·.key) := hw.ahead
  cases inclusive with
  | false => simpa [Indexes.grabToDestination, stops] using hadded
  | true =>
    obtain ⟨key, hkey, hgreater⟩ := hw.stands.travelToGreater cmp junk
    have hover := hgreater.added
    rw [hgrab, if_pos rfl] at hover
    simp only [Indexes.grabToDestination, Bool.true_and, stops, if_true]
    cases hrest : t.ahead.dropWhile (! cmp.lessOrEqual v ·.key) with
    | nil =>
      have hall : ∀ e ∈ t.ahead, (! cmp.lessOrEqual v e.key) = true :=
        List.dropWhile_eq_nil_iff.mp hrest
      have hall' : ∀ e ∈ t.ahead, (! cmp.lessThan v e.key) = true := by
        intro e he
        have := hall e he
        simp only [OrderedComparator.lessOrEqual, OrderedComparator.lessThan, Bool.not_eq_true',
          decide_eq_false_iff_not] at this ⊢
        omega
      rw [List.takeWhile_eq_self_iff.mpr hall] at hadded
      rw [List.takeWhile_eq_self_iff.mpr hall']
      rw [hahead, hrest, hadded] at hover
      split
      · simpa using hover
      · exact hadded
    | cons e rest =>
      have heq : ((t.setGrab true).travelToDestination cmp).ahead = e :: rest := by
        rw [hahead, hrest]
      rw [grab_takeWhile cmp v t.ahead hrest, hexceeded e rest heq]
      rw [heq, hkey e rest heq, hadded, List.append_assoc] at hover
      cases hlt : cmp.lessThan v e.key with
      | true => simpa using hadded
      | false => simpa using hover

-- ---------------------------------------------------------------------------
-- The bounds of the interval
-- ---------------------------------------------------------------------------

theorem tellsAbove_iff :
    tellsAbove cmp v entries = true ↔
      ∀ e, entries.find? (v < ·.key) = some e → cmp.lessThan v e.key = true := by
  simp [tellsAbove, Option.all_eq_true]

theorem not_key_le :
    (fun e : Item K => ! decide (e.key ≤ v)) = fun e => decide (v < e.key) := by
  funext e
  simp only [← decide_not, not_le]

theorem leading_belowRight (h : Ordered entries) (inclusive : Bool) :
    Leading (fun e : Item K => belowRight inclusive v e.key) entries := by
  apply h.leading
  intro a b hab
  cases inclusive with
  | false => simpa [belowRight] using lt_of_le_of_lt hab
  | true => simpa [belowRight] using le_trans hab

variable (cmp v) in
theorem Ordered.takeWhile_lessThan_iff (h : Ordered entries) :
    entries.takeWhile (! cmp.lessThan v ·.key) = entries.filter (·.key ≤ v) ↔
      (∀ e ∈ entries, e.key < v → cmp.lessThan v e.key = false) ∧
        tellsAbove cmp v entries = true := by
  have hlead := leading_belowRight (v := v) h true
  simp only [belowRight, if_true] at hlead
  rw [hlead.takeWhile_eq_filter_iff, not_key_le, tellsAbove_iff]
  apply and_congr
  · constructor
    · intro hall e he hlt
      simpa using hall e he (by simpa using hlt.le)
    · intro hall e he hle
      rcases (of_decide_eq_true hle).lt_or_eq with hlt | heq
      · simpa using hall e he hlt
      · simp [heq, lessThan_self]
  · simp

variable (cmp v) in
theorem Ordered.takeWhile_stops_iff (h : Ordered entries) (inclusive : Bool) :
    entries.takeWhile (! stops cmp inclusive v ·) =
        entries.filter (belowRight inclusive v ·.key) ↔
      tellsEnd cmp inclusive v entries = true := by
  cases inclusive with
  | false =>
    have hlead := leading_belowRight (v := v) h false
    simp only [belowRight, Bool.false_eq_true, if_false] at hlead
    have hnot : (fun e : Item K => ! decide (e.key < v)) = fun e => decide (v ≤ e.key) := by
      funext e
      simp only [← decide_not, not_lt]
    simp only [belowRight, stops, tellsEnd, Bool.false_eq_true, if_false, Bool.and_eq_true,
      List.all_eq_true, Option.all_eq_true]
    rw [hlead.takeWhile_eq_filter_iff, hnot]
    apply and_congr
    · apply forall₂_congr
      intro e _
      rcases lt_or_ge e.key v with hlt | hge
      · simp [hlt]
      · simp [hge, not_lt.mpr hge]
    · simp
  | true =>
    simp only [belowRight, stops, tellsEnd, if_true, Bool.and_eq_true, List.all_eq_true]
    rw [h.takeWhile_lessThan_iff cmp v]
    apply and_congr_left
    intro _
    apply forall₂_congr
    intro e _
    by_cases hlt : e.key < v
    · have hne : cmp.keyCompare v e.key ≠ 0 := fun hz => hlt.ne' (cmp.eq_of_zero _ _ hz)
      simp only [hlt, OrderedComparator.lessThan, OrderedComparator.lessOrEqual, forall_const,
        not_le.mpr hlt, decide_false, Bool.false_or, Bool.not_eq_true', decide_eq_false_iff_not]
      omega
    · simp [hlt, not_lt.mp hlt]

variable (cmp v) in
theorem Ordered.dropWhile_lessThan_iff (h : Ordered entries) (hv : ∀ e ∈ entries, v ≤ e.key) :
    entries.dropWhile (! cmp.lessThan v ·.key) = entries.filter (v < ·.key) ↔
      tellsAbove cmp v entries = true := by
  have hlead := leading_belowRight (v := v) h true
  simp only [belowRight, if_true] at hlead
  have hiff := hlead.dropWhile_eq_filter_iff (p := (! cmp.lessThan v ·.key))
  rw [not_key_le] at hiff
  rw [hiff, h.takeWhile_lessThan_iff cmp v]
  apply and_iff_right
  intro e he hlt
  exact absurd hlt (not_lt.mpr (hv e he))

-- ---------------------------------------------------------------------------
-- The entries from the left bound on
-- ---------------------------------------------------------------------------

theorem tellsAbove_filter :
    tellsAbove cmp v (entries.filter (v ≤ ·.key)) = tellsAbove cmp v entries := by
  rw [tellsAbove, tellsAbove, List.find?_filter]
  congr 2
  funext e
  apply decide_eq_decide.mpr
  simp only [decide_eq_true_eq]
  exact ⟨And.right, fun h => ⟨h.le, h⟩⟩

/-- The left bound is there if it is the first key found. -/
theorem Ordered.holdsKey_iff (h : Ordered entries) {e : Item K} {rest : List (Item K)}
    (hcons : entries.filter (v ≤ ·.key) = e :: rest) :
    holdsKey v entries = true ↔ e.key = v := by
  have hord : Ordered (e :: rest) := hcons ▸ h.filter _
  have hmem : e ∈ entries.filter (v ≤ ·.key) := by simp [hcons]
  have hge : v ≤ e.key := by simpa using (List.mem_filter.mp hmem).2
  simp only [holdsKey, List.any_eq_true, decide_eq_true_eq]
  constructor
  · rintro ⟨a, ha, rfl⟩
    have hfrom : a ∈ e :: rest := hcons ▸ List.mem_filter.mpr ⟨ha, by simp⟩
    rcases List.mem_cons.mp hfrom with rfl | hrest
    · rfl
    · exact le_antisymm ((List.pairwise_cons.mp hord).1 a hrest) hge
  · intro heq
    exact ⟨e, (List.mem_filter.mp hmem).1, heq⟩

theorem holdsKey_of_nil (h : entries.filter (v ≤ ·.key) = []) : holdsKey v entries = false := by
  simp only [holdsKey, List.any_eq_false, decide_eq_true_eq]
  rintro a ha rfl
  simpa using List.filter_eq_nil_iff.mp h a ha

theorem tellsAbove_of_nil (h : entries.filter (v ≤ ·.key) = []) :
    tellsAbove cmp v entries = true := by
  rw [← tellsAbove_filter, h]
  rfl

-- ---------------------------------------------------------------------------
-- The four constraints
-- ---------------------------------------------------------------------------

theorem Ordered.head_le {e a : Item K} {rest : List (Item K)} (h : Ordered (e :: rest))
    (ha : a ∈ e :: rest) : e.key ≤ a.key := by
  rcases List.mem_cons.mp ha with rfl | hrest
  · exact le_rfl
  · exact (List.pairwise_cons.mp h).1 a hrest

theorem tellsAbove_cons {e : Item K} {rest : List (Item K)} (h : v < e.key) :
    tellsAbove cmp v (e :: rest) = cmp.lessThan v e.key := by
  simp [tellsAbove, h]

/-- From the first key that is not smaller, all equal ones. -/
theorem Ordered.grabEqual_iff {e : Item K} {rest : List (Item K)} (h : Ordered (e :: rest))
    (hv : v ≤ e.key) :
    (if cmp.lessThan v e.key then []
      else (e :: rest).takeWhile (! cmp.lessThan e.key ·.key)) = (e :: rest).filter (·.key ≤ v) ↔
      tellsAbove cmp v (e :: rest) = true := by
  rcases hv.lt_or_eq with hlt | heq
  · have hnone : (e :: rest).filter (·.key ≤ v) = [] := by
      simp only [List.filter_eq_nil_iff, decide_eq_true_eq, not_le]
      intro a ha
      exact lt_of_lt_of_le hlt (h.head_le ha)
    rw [hnone, tellsAbove_cons hlt]
    cases hless : cmp.lessThan v e.key <;> simp [lessThan_self]
  · rw [heq, lessThan_self, if_neg (by simp), h.takeWhile_lessThan_iff cmp]
    apply and_iff_right
    intro a ha hlt
    exact absurd hlt (not_lt.mpr (h.head_le ha))

theorem eq_of_equal {a b : K} (h : cmp.equal a b = true) : a = b :=
  cmp.eq_of_zero a b (by simpa [OrderedComparator.equal] using h)

theorem Ordered.start_cases (h : Ordered leaves.flatten) (v : K) :
    (lowerBound leaves (some v) = none ∧ leaves.flatten.filter (v ≤ ·.key) = []) ∨
      ∃ e rest next, lowerBound leaves (some v) = some ⟨e :: rest, next⟩ ∧
        leaves.flatten.filter (v ≤ ·.key) = e :: (rest ++ next.flatten) ∧
        Ordered (e :: (rest ++ next.flatten)) ∧ ∀ a ∈ e :: (rest ++ next.flatten), v ≤ a.key := by
  have hge : ∀ a ∈ leaves.flatten.filter (v ≤ ·.key), v ≤ a.key := by simp
  have hfrom : Ordered (leaves.flatten.filter (v ≤ ·.key)) := h.filter _
  obtain hnone | ⟨e, rest, next, hsome, hcons⟩ := h.lowerBound_cases (some v)
  · exact Or.inl hnone
  · change leaves.flatten.filter (v ≤ ·.key) = _ at hcons
    rw [hcons] at hfrom hge
    exact Or.inr ⟨e, rest, next, hsome, hcons, hfrom, hge⟩

theorem filter_aboveLeft (inclusive : Bool) :
    entries.filter (aboveLeft inclusive v ·.key) =
      (entries.filter (v ≤ ·.key)).filter (aboveLeft inclusive v ·.key) := by
  rw [List.filter_filter]
  congr 1
  funext e
  cases inclusive with
  | true => simp [aboveLeft]
  | false =>
    simp only [aboveLeft, Bool.false_eq_true, if_false]
    rw [← Bool.decide_and]
    exact decide_eq_decide.mpr ⟨fun h => ⟨h, h.le⟩, And.left⟩

theorem holdsKey_filter : holdsKey v (entries.filter (v ≤ ·.key)) = holdsKey v entries := by
  simp only [holdsKey, List.any_filter]
  congr 1
  funext e
  by_cases he : e.key = v <;> simp [he]

theorem le_of_contains {c : TwoSideConstraints K} {k : K}
    (h : (RangeConstraints.twoSide c).contains k = true) : c.leftValue ≤ k := by
  simp only [RangeConstraints.contains, Bool.and_eq_true] at h
  have hleft := h.1
  cases hc : c.inclusiveLeft with
  | true => simpa [aboveLeft, hc] using hleft
  | false =>
    simp only [aboveLeft, hc, Bool.false_eq_true, if_false, decide_eq_true_eq] at hleft
    exact hleft.le

theorem filter_contains (c : TwoSideConstraints K) :
    entries.filter ((RangeConstraints.twoSide c).contains ·.key) =
      (entries.filter (c.leftValue ≤ ·.key)).filter ((RangeConstraints.twoSide c).contains ·.key) := by
  rw [List.filter_filter]
  congr 1
  funext e
  cases hc : (RangeConstraints.twoSide c).contains e.key with
  | true => simp [le_of_contains hc]
  | false => simp

/-- Only what is not below the left bound matters. -/
theorem TwoSideConstraints.judged_filter (c : TwoSideConstraints K) :
    c.judged cmp (entries.filter (c.leftValue ≤ ·.key)) = c.judged cmp entries := by
  have hnothing : ((entries.filter (c.leftValue ≤ ·.key)).all fun e =>
      !(RangeConstraints.twoSide c).contains e.key) =
      entries.all fun e => !(RangeConstraints.twoSide c).contains e.key := by
    rw [List.all_filter]
    congr 1
    funext e
    cases hc : (RangeConstraints.twoSide c).contains e.key with
    | true => simp [le_of_contains hc]
    | false => simp
  have hlt : (entries.filter (c.leftValue ≤ ·.key)).filter (c.leftValue < ·.key) =
      entries.filter (c.leftValue < ·.key) := by
    rw [List.filter_filter]
    congr 1
    funext e
    rw [← Bool.decide_and]
    exact decide_eq_decide.mpr ⟨And.left, fun h => ⟨h, h.le⟩⟩
  have hle : (entries.filter (c.leftValue ≤ ·.key)).filter (c.leftValue ≤ ·.key) =
      entries.filter (c.leftValue ≤ ·.key) := by simp [List.filter_filter]
  simp only [TwoSideConstraints.judged, holdsKey_filter, tellsAbove_filter, hnothing, hlt, hle]

/-- Once the next key is not seen, none is. -/
theorem dropWhile_eq_nil_of_not_tellsAbove {e : Item K} {rest : List (Item K)}
    (h : Ordered (e :: rest)) (hge : ∀ a ∈ e :: rest, v ≤ a.key)
    (habove : tellsAbove cmp v (e :: rest) = false) :
    (e :: rest).dropWhile (! cmp.lessThan v ·.key) = [] := by
  have hfirst : ∃ x, (e :: rest).find? (v < ·.key) = some x ∧ cmp.lessThan v x.key = false := by
    by_contra hno
    have : tellsAbove cmp v (e :: rest) = true := by
      apply tellsAbove_iff.mpr
      intro x hx
      by_contra hless
      exact hno ⟨x, hx, by simpa using hless⟩
    rw [this] at habove
    exact absurd habove (by simp)
  obtain ⟨x, hx, hless⟩ := hfirst
  have hvx : v < x.key := by simpa using List.find?_some hx
  obtain ⟨_, before, behind, hsplit, hbefore⟩ := List.find?_eq_some_iff_append.mp hx
  have hbehind : ∀ a ∈ behind, x.key ≤ a.key := by
    rw [hsplit] at h
    exact (List.pairwise_cons.mp (List.pairwise_append.mp h).2.1).1
  apply List.dropWhile_eq_nil_iff.mpr
  intro a ha
  have hnot : 0 ≤ cmp.keyCompare v x.key := by
    simpa [OrderedComparator.lessThan] using hless
  suffices 0 ≤ cmp.keyCompare v a.key by simpa [OrderedComparator.lessThan] using this
  rw [hsplit, List.mem_append, List.mem_cons] at ha
  rcases ha with hb | rfl | hb
  · have hle : a.key ≤ v := by simpa using hbefore a hb
    have heq : v = a.key := by
      apply le_antisymm _ hle
      exact hge a (by rw [hsplit]; exact List.mem_append_left _ hb)
    rw [← heq]
    exact cmp.self v
  · exact hnot
  · exact cmp.far v x.key a.key hvx (hbehind a hb) hnot

theorem Ordered.twoSide_iff {e : Item K} {rest : List (Item K)} (h : Ordered (e :: rest))
    (c : TwoSideConstraints K) (hge : ∀ a ∈ e :: rest, c.leftValue ≤ a.key) :
    (if cmp.equal c.leftValue e.key && !c.inclusiveLeft then
        (e :: rest).dropWhile (! cmp.lessThan e.key ·.key)
      else e :: rest).takeWhile (! stops cmp c.inclusiveRight c.rightValue ·) =
        (e :: rest).filter ((RangeConstraints.twoSide c).contains ·.key) ↔
      c.judged cmp (e :: rest) = true := by
  have hself : (e :: rest).filter (c.leftValue ≤ ·.key) = e :: rest :=
    List.filter_eq_self.mpr (by simpa using hge)
  have hholds := h.holdsKey_iff hself
  -- without a left bound in the way the right one decides
  have hright : (∀ a ∈ e :: rest, aboveLeft c.inclusiveLeft c.leftValue a.key = true) →
      (e :: rest).filter ((RangeConstraints.twoSide c).contains ·.key) =
        (e :: rest).filter (belowRight c.inclusiveRight c.rightValue ·.key) := by
    intro hall
    apply List.filter_congr
    intro a ha
    simp [RangeConstraints.contains, hall a ha]
  cases hc : c.inclusiveLeft with
  | true =>
    rw [hright (by simpa [aboveLeft, hc] using hge)]
    simp only [Bool.not_true, Bool.and_false, Bool.false_eq_true, if_false, hc,
      TwoSideConstraints.judged, Bool.true_or, if_true, hself]
    exact h.takeWhile_stops_iff cmp c.rightValue c.inclusiveRight
  | false =>
    by_cases hkey : e.key = c.leftValue
    · have hpresent := hholds.mpr hkey
      simp only [hc, Bool.not_false, Bool.and_true, TwoSideConstraints.judged, Bool.false_or,
        hpresent, Bool.not_true, Bool.false_eq_true, if_false, hkey]
      cases heq : cmp.equal c.leftValue c.leftValue with
      | false =>
        have hout : (RangeConstraints.twoSide c).contains e.key = false := by
          simp [RangeConstraints.contains, aboveLeft, hc, hkey]
        simp only [Bool.false_eq_true, if_false, Bool.not_false, if_true]
        rw [takeWhile_eq_filter_of_head
          (q := fun a : Item K => (RangeConstraints.twoSide c).contains a.key) hout]
        simp only [Bool.and_eq_true, List.all_eq_true, Bool.not_eq_true', Bool.not_eq_false',
          and_assoc]
        apply and_congr_right
        intro _
        rw [← hkey]
        cases hr : c.inclusiveRight with
        | false => simp [stops]
        | true =>
          simp only [stops, if_true, Bool.not_true, Bool.false_or]
          constructor
          · intro hlt
            refine ⟨?_, hlt⟩
            simp only [OrderedComparator.lessThan, OrderedComparator.lessOrEqual,
              decide_eq_true_eq] at hlt ⊢
            omega
          · exact And.right
      | true =>
        simp only [if_true, Bool.not_true, Bool.false_eq_true, if_false]
        cases habove : tellsAbove cmp c.leftValue (e :: rest) with
        | true =>
          rw [(h.dropWhile_lessThan_iff cmp c.leftValue hge).mpr habove, if_pos rfl]
          have hsame : (e :: rest).filter ((RangeConstraints.twoSide c).contains ·.key) =
              ((e :: rest).filter (c.leftValue < ·.key)).filter
                (belowRight c.inclusiveRight c.rightValue ·.key) := by
            rw [List.filter_filter]
            apply List.filter_congr
            intro a _
            simp [RangeConstraints.contains, aboveLeft, hc, Bool.and_comm]
          rw [hsame]
          exact (h.filter _).takeWhile_stops_iff cmp c.rightValue c.inclusiveRight
        | false =>
          rw [dropWhile_eq_nil_of_not_tellsAbove h hge habove, if_neg (by simp), List.takeWhile_nil,
            eq_comm, List.filter_eq_nil_iff]
          simp
    · have hlt : c.leftValue < e.key :=
        lt_of_le_of_ne (hge e List.mem_cons_self) (Ne.symm hkey)
      have habsent : holdsKey c.leftValue (e :: rest) = false :=
        Bool.eq_false_iff.mpr (mt hholds.mp hkey)
      have hne : cmp.equal c.leftValue e.key = false :=
        Bool.eq_false_iff.mpr fun heq => hkey (eq_of_equal heq).symm
      have hall : ∀ a ∈ e :: rest, aboveLeft c.inclusiveLeft c.leftValue a.key = true := by
        intro a ha
        simpa [aboveLeft, hc] using lt_of_lt_of_le hlt (h.head_le ha)
      rw [hright hall]
      simp only [hne, Bool.false_and, Bool.false_eq_true, if_false, hc,
        TwoSideConstraints.judged, habsent, Bool.not_false, Bool.or_true, if_true, hself]
      exact h.takeWhile_stops_iff cmp c.rightValue c.inclusiveRight

section

variable (hord : Ordered leaves.flatten) (ht : t.endReached = false) (hempty : t.added = [])

include hord ht hempty

theorem ExactConstraints.added_iff (c : ExactConstraints K) :
    (c.find cmp (lowerBound leaves) junk t).added = leaves.flatten.filter (·.key = c.value) ↔
      tellsAbove cmp c.value leaves.flatten = true := by
  have hin : leaves.flatten.filter (·.key = c.value) =
      (leaves.flatten.filter (c.value ≤ ·.key)).filter (·.key ≤ c.value) := by
    rw [List.filter_filter]
    congr 1
    funext e
    rw [← Bool.decide_and]
    exact decide_eq_decide.mpr (le_antisymm_iff (a := e.key))
  rw [hin, ← tellsAbove_filter]
  obtain ⟨hnone, hnil⟩ | ⟨e, rest, next, hsome, hcons, hfrom, hge⟩ := hord.start_cases c.value
  · simp [ExactConstraints.find, hnone, hnil, hempty, tellsAbove]
  · obtain ⟨hs, hahead⟩ := LeafTraveller.stands_setPosition (t := t.setGrab true) e rest next ht
    have hadded := (hs.travelToGreater_from cmp junk hahead).added
    have hfind : (c.find cmp (lowerBound leaves) junk t).added =
        if cmp.lessThan c.value e.key then []
        else (e :: (rest ++ next.flatten)).takeWhile (! cmp.lessThan e.key ·.key) := by
      simp only [ExactConstraints.find, hsome]
      split
      · exact hempty
      · refine hadded.trans ?_
        simp [LeafTraveller.setPosition, LeafTraveller.setGrab, LeafTraveller.ahead, hempty]
    rw [hfind, hcons]
    exact hfrom.grabEqual_iff (hge e List.mem_cons_self)

theorem LeftBoundedConstraints.added_iff (c : LeftBoundedConstraints K) :
    (c.find cmp (lowerBound leaves) junk t).added =
        leaves.flatten.filter (aboveLeft c.inclusive c.value ·.key) ↔
      (RangeConstraints.leftBounded c).judged cmp leaves.flatten = true := by
  rw [filter_aboveLeft]
  obtain ⟨hnone, hnil⟩ | ⟨e, rest, next, hsome, hcons, hfrom, hge⟩ := hord.start_cases c.value
  · simp [LeftBoundedConstraints.find, hnone, hnil, hempty, RangeConstraints.judged,
      holdsKey_of_nil hnil]
  · have hholds := hord.holdsKey_iff hcons
    simp only [RangeConstraints.judged]
    rw [← tellsAbove_filter, hcons]
    obtain ⟨hs, hahead⟩ := LeafTraveller.stands_setPosition (t := t) e rest next ht
    have hrest : (c.find cmp (lowerBound leaves) junk t).added =
        if !c.inclusive && cmp.equal c.value e.key then
          (e :: (rest ++ next.flatten)).dropWhile (! cmp.lessThan e.key ·.key)
        else e :: (rest ++ next.flatten) := by
      simp only [LeftBoundedConstraints.find, hsome]
      split
      · have hw := LeafTraveller.Stands.travelToGreater_from cmp
          (t := (t.setPosition ⟨e :: rest, next⟩).setGrab false) hs junk hahead
        rw [hw.stands.grabToEnd, hw.added, hw.ahead]
        simp [LeafTraveller.setPosition, LeafTraveller.setGrab, LeafTraveller.ahead, hempty]
      · rw [hs.grabToEnd, hahead]
        simp [LeafTraveller.setPosition, hempty]
    rw [hrest]
    cases hc : c.inclusive with
    | true =>
      rw [eq_comm, if_neg (by simp), List.filter_eq_self]
      simpa [aboveLeft] using hge
    | false =>
      simp only [aboveLeft, Bool.not_false, Bool.true_and, Bool.false_or, Bool.false_eq_true, if_false]
      cases heq : cmp.equal c.value e.key with
      | true =>
        have hkey := eq_of_equal heq
        rw [← hkey] at heq ⊢
        simp only [hholds.mpr hkey.symm, heq, if_true, Bool.not_true, Bool.false_or, Bool.true_and]
        exact hfrom.dropWhile_lessThan_iff cmp c.value hge
      | false =>
        rw [eq_comm, if_neg (by simp), List.filter_eq_self]
        by_cases hkey : e.key = c.value
        · have hself : cmp.equal c.value c.value = false := hkey ▸ heq
          simp [hholds.mpr hkey, hself, hkey]
        · have hnot : holdsKey c.value leaves.flatten = false :=
            Bool.eq_false_iff.mpr (mt hholds.mp hkey)
          have hlt : c.value < e.key :=
            lt_of_le_of_ne (hge e List.mem_cons_self) (Ne.symm hkey)
          simp only [hnot, Bool.not_false, Bool.true_or, iff_true, decide_eq_true_eq]
          intro a ha
          exact lt_of_lt_of_le hlt (hfrom.head_le ha)

theorem RightBoundedConstraints.added_iff (c : RightBoundedConstraints K) :
    (c.find cmp (lowerBound leaves) junk t).added =
        leaves.flatten.filter (belowRight c.inclusive c.value ·.key) ↔
      tellsEnd cmp c.inclusive c.value leaves.flatten = true := by
  rw [← hord.takeWhile_stops_iff cmp]
  have hall : leaves.flatten.filter (atLeast none) = leaves.flatten :=
    List.filter_eq_self.mpr fun _ _ => rfl
  obtain ⟨hnone, hnil⟩ | ⟨e, rest, next, hsome, hcons⟩ := hord.lowerBound_cases none
  · rw [hall] at hnil
    simp [RightBoundedConstraints.find, hnone, hnil, hempty, LeafTraveller.setDestination]
  · rw [hall] at hcons
    obtain ⟨hs, hahead⟩ :=
      LeafTraveller.stands_setPosition (t := t.setDestination c.value) e rest next ht
    have hadded := hs.grabToDestination cmp junk rfl c.inclusive
    rw [hahead, ← hcons] at hadded
    simp only [RightBoundedConstraints.find, hsome, hadded]
    simp [LeafTraveller.setPosition, LeafTraveller.setDestination, hempty]

theorem TwoSideConstraints.added_iff (c : TwoSideConstraints K) :
    (c.find cmp (lowerBound leaves) junk t).added =
        leaves.flatten.filter ((RangeConstraints.twoSide c).contains ·.key) ↔
      c.judged cmp leaves.flatten = true := by
  rw [filter_contains, ← c.judged_filter]
  obtain ⟨hnone, hnil⟩ | ⟨e, rest, next, hsome, hcons, hfrom, hge⟩ := hord.start_cases c.leftValue
  · simp [TwoSideConstraints.find, hnone, hnil, hempty, LeafTraveller.setDestination,
      TwoSideConstraints.judged, holdsKey, tellsEnd, tellsAbove]
  · obtain ⟨hs, hahead⟩ :=
      LeafTraveller.stands_setPosition (t := t.setDestination c.rightValue) e rest next ht
    have hadded : (c.find cmp (lowerBound leaves) junk t).added =
        (if cmp.equal c.leftValue e.key && !c.inclusiveLeft then
          (e :: (rest ++ next.flatten)).dropWhile (! cmp.lessThan e.key ·.key)
        else e :: (rest ++ next.flatten)).takeWhile
          (! stops cmp c.inclusiveRight c.rightValue ·) := by
      simp only [TwoSideConstraints.find, hsome]
      split
      · have hw := LeafTraveller.Stands.travelToGreater_from cmp
          (t := ((t.setDestination c.rightValue).setPosition ⟨e :: rest, next⟩).setGrab false)
          hs junk hahead
        rw [hw.stands.grabToDestination cmp junk hw.destination, hw.added, hw.ahead]
        simp [LeafTraveller.setPosition, LeafTraveller.setGrab, LeafTraveller.setDestination,
          LeafTraveller.ahead, hempty]
      · rw [hs.grabToDestination cmp junk rfl, hahead]
        simp [LeafTraveller.setPosition, LeafTraveller.setDestination, hempty]
    rw [hadded, hcons]
    exact hfrom.twoSide_iff c hge

end

/-- What a range scan hands over is the interval, each entry once and in the
order of the leaves, if and only if the comparator tells the order of the keys
where the scan turns. -/
theorem RangeConstraints.search_iff (cmp : OrderedComparator K) (junk : K) (exceeded : Bool)
    (leaves : List (List (Item K))) (hord : Ordered leaves.flatten) (tree : Find K)
    (hfind : ∀ bound, tree bound = lowerBound leaves bound) (c : RangeConstraints K) :
    c.search cmp tree junk exceeded = leaves.flatten.filter (c.contains ·.key) ↔
      c.judged cmp leaves.flatten = true := by
  have htree : tree = lowerBound leaves := funext hfind
  subst htree
  cases c with
  | exact c => exact c.added_iff hord rfl rfl
  | leftBounded c => exact c.added_iff hord rfl rfl
  | rightBounded c => exact c.added_iff hord rfl rfl
  | twoSide c => exact c.added_iff hord rfl rfl

-- ---------------------------------------------------------------------------
-- Where the order is told
-- ---------------------------------------------------------------------------

def RangeConstraints.bounds : RangeConstraints K → List K
  | .exact c => [c.value]
  | .leftBounded c => [c.value]
  | .rightBounded c => [c.value]
  | .twoSide c => [c.leftValue, c.rightValue]

theorem tellsAbove_of_tells (h : ∀ e ∈ entries, cmp.Tells v e.key) :
    tellsAbove cmp v entries = true := by
  apply tellsAbove_iff.mpr
  intro e he
  have hlt : v < e.key := by simpa using List.find?_some he
  simpa [OrderedComparator.lessThan] using (h e (List.mem_of_find?_eq_some he)).1.mpr hlt

theorem tellsEnd_of_tells (inclusive : Bool) (h : ∀ e ∈ entries, cmp.Tells v e.key) :
    tellsEnd cmp inclusive v entries = true := by
  have hbelow : ∀ e ∈ entries, (decide (v ≤ e.key) || !cmp.lessOrEqual v e.key) = true := by
    intro e he
    rcases lt_or_ge e.key v with hlt | hge
    · have := (h e he).2.mpr hlt
      simp [OrderedComparator.lessOrEqual, this]
    · simp [hge]
  simp only [tellsEnd, Bool.and_eq_true, List.all_eq_true]
  refine ⟨hbelow, ?_⟩
  cases inclusive with
  | true => simpa using tellsAbove_of_tells h
  | false =>
    simp only [Bool.false_eq_true, if_false, Option.all_eq_true]
    intro e he
    have hge : v ≤ e.key := by simpa using List.find?_some he
    have := mt (h e (List.mem_of_find?_eq_some he)).2.mp (not_lt.mpr hge)
    simpa [OrderedComparator.lessOrEqual] using this

theorem equal_of_tells (h : cmp.Tells v v) : cmp.equal v v = true := by
  have hlt := mt h.1.mp (lt_irrefl v)
  have hgt := mt h.2.mp (lt_irrefl v)
  simp only [OrderedComparator.equal, decide_eq_true_eq]
  omega

theorem RangeConstraints.judged_of_tells {c : RangeConstraints K}
    (h : ∀ v ∈ c.bounds, cmp.Tells v v ∧ ∀ e ∈ entries, cmp.Tells v e.key) :
    c.judged cmp entries = true := by
  cases c with
  | exact c => exact tellsAbove_of_tells (h c.value (by simp [bounds])).2
  | leftBounded c =>
    obtain ⟨hself, hkeys⟩ := h c.value (by simp [bounds])
    simp [judged, equal_of_tells hself, tellsAbove_of_tells hkeys]
  | rightBounded c => exact tellsEnd_of_tells c.inclusive (h c.value (by simp [bounds])).2
  | twoSide c =>
    obtain ⟨hself, hleft⟩ := h c.leftValue (by simp [bounds])
    obtain ⟨-, hright⟩ := h c.rightValue (by simp [bounds])
    have hpart (q : Item K → Bool) :
        tellsEnd cmp c.inclusiveRight c.rightValue (entries.filter q) = true :=
      tellsEnd_of_tells c.inclusiveRight fun e he => hright e (List.mem_filter.mp he).1
    simp [judged, TwoSideConstraints.judged, equal_of_tells hself, tellsAbove_of_tells hleft, hpart]

end

theorem StringComparator.judged (entries : List (Item StringKey)) (c : RangeConstraints StringKey) :
    c.judged StringComparator.ordered entries = true :=
  RangeConstraints.judged_of_tells fun v _ =>
    ⟨StringComparator.tells v v, fun e _ => StringComparator.tells v e.key⟩

/-- Two leaves with the keys 1, 2, 2 and 5. -/
def fourNumbers : List (List (Item IntKey)) :=
  [[⟨.wrap 1, ⟨1, 1, -1, 10⟩⟩, ⟨.wrap 2, ⟨1, 2, -1, 11⟩⟩],
    [⟨.wrap 2, ⟨1, 3, -1, 12⟩⟩, ⟨.wrap 5, ⟨1, 4, -1, 13⟩⟩]]

theorem fourNumbers_search :
    Ordered fourNumbers.flatten ∧
      (RangeConstraints.twoSide ⟨false, .wrap 1, .wrap 2, true⟩).search IntComparator.ordered
        (lowerBound fourNumbers) (.wrap 0) true =
      fourNumbers.flatten.filter
        ((RangeConstraints.twoSide ⟨false, .wrap 1, .wrap 2, true⟩).contains ·.key) := by
  have hord : Ordered fourNumbers.flatten := by decide
  refine ⟨hord, ?_⟩
  apply (RangeConstraints.search_iff IntComparator.ordered (.wrap 0) true fourNumbers hord
    (lowerBound fourNumbers) (fun _ => rfl) _).mpr
  decide

def farBelow : List (List (Item IntKey)) := [[⟨.wrap (-2000000000), ⟨1, 1, -1, 10⟩⟩]]

/-- The difference of the two keys is no `int`: nothing is found up to two
thousand million, though the only key is negative. -/
theorem farBelow_not_found :
    ¬ ∀ (junk : IntKey) (exceeded : Bool) (leaves : List (List (Item IntKey))),
      Ordered leaves.flatten → ∀ tree : Find IntKey,
        (∀ bound, tree bound = lowerBound leaves bound) → ∀ c : RangeConstraints IntKey,
          c.search IntComparator.ordered tree junk exceeded =
            leaves.flatten.filter (c.contains ·.key) := by
  intro h
  have hscan := h (.wrap 0) true farBelow (by decide) (lowerBound farBelow) (fun _ => rfl)
    (.rightBounded ⟨.wrap 2000000000, true⟩)
  revert hscan
  decide

end Loxim.Indexes
