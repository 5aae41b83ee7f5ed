import Loxim.Lib.InPlace
import Loxim.QueryExecutor.ResultOrder

/-!
# What comparing results does to them

Sequences, bags and structs of one size are sorted where they are before they are compared,
and sorting compares elements, which are sorted in turn. An operand is left as it was if
it already stands in the only order that it can be put in.
-/

namespace Loxim.QueryExecutor.QueryResult

-- ---------------------------------------------------------------------------
-- The comparisons
-- ---------------------------------------------------------------------------

/-- The results that hold others in a vector. -/
inductive Container
  | struct
  | bag
  | sequence

def Container.make : Container → List QueryResult → QueryResult
  | .struct, l => .struct l
  | .bag, l => .bag l
  | .sequence, l => .sequence l

/-- Collections of one kind, or binders with one name. -/
inductive Alike : QueryResult → QueryResult → Prop
  | container (c : Container) (l l' : List QueryResult) : Alike (c.make l) (c.make l')
  | binder (name : Text) (item item' : QueryResult) : Alike (.binder name item) (.binder name item')

section

variable (text : QueryResult → Text) (n : Nat) (E L : Comparison QueryResult)

/-- `equal`, with what it leaves of the operands. -/
inductive EqualStep : Comparison QueryResult
  | container (c : Container) {l l' k k' : List QueryResult} {r : Bool} :
      ListEqual E L l l' r k k' → EqualStep (c.make l) (c.make l') r (c.make k) (c.make k')
  | binder (name : Text) {item item' i i' : QueryResult} {r : Bool} : E item item' r i i' →
      EqualStep (.binder name item) (.binder name item') r (.binder name i) (.binder name i')
  | other {a b : QueryResult} : ¬ Alike a b → EqualStep a b (equalAt text (n + 1) a b) a b

/-- `less_than`, with what it leaves of the operands. -/
inductive LessStep : Comparison QueryResult
  | container (c : Container) {l l' k k' : List QueryResult} {r : Bool} :
      ListLess E L l l' r k k' → LessStep (c.make l) (c.make l') r (c.make k) (c.make k')
  | binder (name : Text) {item item' i i' : QueryResult} {r : Bool} : L item item' r i i' →
      LessStep (.binder name item) (.binder name item') r (.binder name i) (.binder name i')
  | other {a b : QueryResult} : ¬ Alike a b → LessStep a b (lessThanAt text (n + 1) a b) a b

/-- A result stays if it is compared with one of another kind, or its elements are in the
only order and stay. -/
inductive StaysStep (stays : QueryResult → QueryResult → Prop) : QueryResult → QueryResult → Prop
  | container (c : Container) {l l' : List QueryResult} : SizesStay (key text n) stays l l' →
      StaysStep stays (c.make l) (c.make l')
  | binder (name : Text) {item item' : QueryResult} : stays item item' →
      StaysStep stays (.binder name item) (.binder name item')
  | other {a b : QueryResult} : ¬ Alike a b → StaysStep stays a b

end

mutual

def equalRun (text : QueryResult → Text) : Nat → Comparison QueryResult
  | 0 => fun a b r a' b' => r = true ∧ a' = a ∧ b' = b
  | n + 1 => EqualStep text n (equalRun text n) (lessRun text n)

def lessRun (text : QueryResult → Text) : Nat → Comparison QueryResult
  | 0 => fun a b r a' b' => r = false ∧ a' = a ∧ b' = b
  | n + 1 => LessStep text n (equalRun text n) (lessRun text n)

end

def staysAt (text : QueryResult → Text) : Nat → QueryResult → QueryResult → Prop
  | 0 => fun _ _ => True
  | n + 1 => StaysStep text n (staysAt text n)

-- ---------------------------------------------------------------------------
-- The shapes
-- ---------------------------------------------------------------------------

variable {text : QueryResult → Text} {n : Nat} {E L : Comparison QueryResult}
  {stays : QueryResult → QueryResult → Prop} {a b a' b' item item' : QueryResult}
  {l l' : List QueryResult} {c c' : Container} {name : Text} {r : Bool}

def Container.code : Container → Nat
  | .struct => 8
  | .bag => 9
  | .sequence => 10

theorem Container.make_inj (h : c.make l = c'.make l') : c = c' ∧ l = l' := by
  cases c <;> cases c' <;> cases h <;> exact ⟨rfl, rfl⟩

theorem Container.make_ne_binder : c.make l ≠ .binder name item := by
  cases c <;> rintro ⟨⟩

theorem key_make (c : Container) (l : List QueryResult) : key text (n + 1) (c.make l) =
    Key.mk c.code 0 [] l.length ((l.map (key text n)).insertionSort (· ≤ ·)) := by
  cases c <;> rfl

theorem key_binder : key text (n + 1) (.binder name item) =
    Key.mk 7 0 name 0 [key text n item] := by
  rw [key]

theorem key_make_inj : key text (n + 1) (c.make l) = key text (n + 1) (c.make l') ↔
    listKey (key text n) l = listKey (key text n) l' := by
  rw [key_make, key_make, Key.mk_inj, listKey_inj]
  simp only [true_and]

theorem key_make_lt : key text (n + 1) (c.make l) < key text (n + 1) (c.make l') ↔
    listKey (key text n) l < listKey (key text n) l' := by
  rw [key_make, key_make, Key.mk_lt, listKey_lt]
  simp only [lt_self_iff_false, true_and, false_or]

theorem key_binder_inj :
    key text (n + 1) (.binder name item) = key text (n + 1) (.binder name item') ↔
      key text n item = key text n item' := by
  rw [key_binder, key_binder, Key.mk_inj]
  simp only [true_and, List.cons.injEq, and_true]

theorem key_binder_lt :
    key text (n + 1) (.binder name item) < key text (n + 1) (.binder name item') ↔
      key text n item < key text n item' := by
  rw [key_binder, key_binder, Key.mk_lt]
  simp [List.cons_lt_cons_iff]

theorem exists_make_of_key (h : key text (n + 1) a = key text (n + 1) (c.make l)) :
    ∃ k, a = c.make k := by
  rw [key_make] at h
  cases a with
  | struct k => cases c <;> simp_all [key, Key.mk_inj, Container.code, Container.make]
  | bag k => cases c <;> simp_all [key, Key.mk_inj, Container.code, Container.make]
  | sequence k => cases c <;> simp_all [key, Key.mk_inj, Container.code, Container.make]
  | _ => cases c <;> simp [key, Key.mk_inj, Container.code] at h

theorem exists_binder_of_key (h : key text (n + 1) a = key text (n + 1) (.binder name item)) :
    ∃ i, a = .binder name i := by
  rw [key_binder] at h
  cases a with
  | binder name' i =>
    rw [key_binder, Key.mk_inj] at h
    exact ⟨i, by rw [h.2.2.1]⟩
  | _ => simp [key, Key.mk_inj] at h

theorem Alike.symm (h : Alike a b) : Alike b a := by
  cases h with
  | container c l l' => exact .container c l' l
  | binder name item item' => exact .binder name item' item

theorem Alike.congr (h : Alike a b) (heq : key text (n + 1) a' = key text (n + 1) a) :
    Alike a' b := by
  cases h with
  | container c l l' =>
    obtain ⟨k, rfl⟩ := exists_make_of_key heq
    exact .container c k l'
  | binder name item item' =>
    obtain ⟨i, rfl⟩ := exists_binder_of_key heq
    exact .binder name i item'

-- ---------------------------------------------------------------------------
-- One level
-- ---------------------------------------------------------------------------

theorem equalStep_container : EqualStep text n E L (c.make l) (c.make l') r a' b' ↔
    ∃ k k', ListEqual E L l l' r k k' ∧ a' = c.make k ∧ b' = c.make k' := by
  constructor
  · intro h
    generalize ha : c.make l = a at h
    generalize hb : c.make l' = b at h
    cases h with
    | container c' hrun =>
      obtain ⟨rfl, rfl⟩ := Container.make_inj ha
      obtain ⟨-, rfl⟩ := Container.make_inj hb
      exact ⟨_, _, hrun, rfl, rfl⟩
    | binder name hrun => exact absurd ha Container.make_ne_binder
    | other hnot =>
      rw [← ha, ← hb] at hnot
      exact absurd (.container c l l') hnot
  · rintro ⟨k, k', hrun, rfl, rfl⟩
    exact .container c hrun

theorem equalStep_binder :
    EqualStep text n E L (.binder name item) (.binder name item') r a' b' ↔
      ∃ i i', E item item' r i i' ∧ a' = .binder name i ∧ b' = .binder name i' := by
  constructor
  · intro h
    generalize ha : QueryResult.binder name item = a at h
    generalize hb : QueryResult.binder name item' = b at h
    cases h with
    | container c' hrun => exact absurd ha.symm Container.make_ne_binder
    | binder name hrun =>
      cases ha
      cases hb
      exact ⟨_, _, hrun, rfl, rfl⟩
    | other hnot =>
      rw [← ha, ← hb] at hnot
      exact absurd (.binder name item item') hnot
  · rintro ⟨i, i', hrun, rfl, rfl⟩
    exact .binder name hrun

theorem staysStep_container : StaysStep text n stays (c.make l) (c.make l') ↔
    SizesStay (key text n) stays l l' := by
  constructor
  · intro h
    generalize ha : c.make l = a at h
    generalize hb : c.make l' = b at h
    cases h with
    | container c' hstays =>
      obtain ⟨rfl, rfl⟩ := Container.make_inj ha
      obtain ⟨-, rfl⟩ := Container.make_inj hb
      exact hstays
    | binder name hstays => exact absurd ha Container.make_ne_binder
    | other hnot =>
      rw [← ha, ← hb] at hnot
      exact absurd (.container c l l') hnot
  · exact .container c

theorem staysStep_binder :
    StaysStep text n stays (.binder name item) (.binder name item') ↔ stays item item' := by
  constructor
  · intro h
    generalize ha : QueryResult.binder name item = a at h
    generalize hb : QueryResult.binder name item' = b at h
    cases h with
    | container c' hstays => exact absurd ha.symm Container.make_ne_binder
    | binder name hstays =>
      cases ha
      cases hb
      exact hstays
    | other hnot =>
      rw [← ha, ← hb] at hnot
      exact absurd (.binder name item item') hnot
  · exact .binder name

section

variable (h : Level E L (key text n) stays)
include h

theorem equalStep_answer (hE : EqualStep text n E L a b r a' b') :
    r = true ↔ key text (n + 1) a = key text (n + 1) b := by
  cases hE with
  | container c hrun => rw [h.list.equal_answer hrun, key_make_inj]
  | binder name hrun => rw [h.equal_answer hrun, key_binder_inj]
  | other hnot => exact (keyed_at text (n + 1)).same a b

theorem lessStep_answer (hL : LessStep text n E L a b r a' b') :
    r = true ↔ key text (n + 1) a < key text (n + 1) b := by
  cases hL with
  | container c hrun => rw [h.list.less_answer hrun, key_make_lt]
  | binder name hrun => rw [h.less_answer hrun, key_binder_lt]
  | other hnot => exact (keyed_at text (n + 1)).less a b

theorem equalStep_key : Keeps (EqualStep text n E L) (key text (n + 1)) := by
  intro a b r a' b' hE
  cases hE with
  | container c hrun => exact (h.list.equal_key hrun).imp key_make_inj.mpr key_make_inj.mpr
  | binder name hrun => exact (h.equal_key hrun).imp key_binder_inj.mpr key_binder_inj.mpr
  | other hnot => exact ⟨rfl, rfl⟩

theorem lessStep_key : Keeps (LessStep text n E L) (key text (n + 1)) := by
  intro a b r a' b' hL
  cases hL with
  | container c hrun => exact (h.list.less_key hrun).imp key_make_inj.mpr key_make_inj.mpr
  | binder name hrun => exact (h.less_key hrun).imp key_binder_inj.mpr key_binder_inj.mpr
  | other hnot => exact ⟨rfl, rfl⟩

theorem equalStep_total (a b : QueryResult) : ∃ r a' b', EqualStep text n E L a b r a' b' := by
  by_cases halike : Alike a b
  · cases halike with
    | container c l l' =>
      obtain ⟨r, k, k', hrun⟩ := h.list.equal_total l l'
      exact ⟨r, _, _, .container c hrun⟩
    | binder name item item' =>
      obtain ⟨r, i, i', hrun⟩ := h.equal_total item item'
      exact ⟨r, _, _, .binder name hrun⟩
  · exact ⟨_, a, b, .other halike⟩

theorem equalStep_symm (hE : EqualStep text n E L a b r a' b') :
    EqualStep text n E L b a r b' a' := by
  cases hE with
  | container c hrun => exact .container c (h.list.equal_symm hrun)
  | binder name hrun => exact .binder name (h.equal_symm hrun)
  | other hnot =>
    have hsame (x y : QueryResult) := (keyed_at text (n + 1)).same x y
    have hr : equalAt text (n + 1) a b = equalAt text (n + 1) b a := by
      rw [Bool.eq_iff_iff, hsame, hsame]
      exact eq_comm
    rw [hr]
    exact .other fun halike => hnot halike.symm

theorem lessStep_of_equalStep (hE : EqualStep text n E L a b r a' b') :
    ∃ r, LessStep text n E L a b r a' b' := by
  cases hE with
  | container c hrun =>
    obtain ⟨r, hL⟩ := h.list.less_of_equal hrun
    exact ⟨r, .container c hL⟩
  | binder name hrun =>
    obtain ⟨r, hL⟩ := h.less_of_equal hrun
    exact ⟨r, .binder name hL⟩
  | other hnot => exact ⟨_, .other hnot⟩

theorem equalStep_again (hE : EqualStep text n E L a b r a' b') :
    ∃ r, EqualStep text n E L a' b' r a' b' := by
  cases hE with
  | container c hrun =>
    obtain ⟨r, hE⟩ := h.list.equal_again hrun
    exact ⟨r, .container c hE⟩
  | binder name hrun =>
    obtain ⟨r, hE⟩ := h.equal_again hrun
    exact ⟨r, .binder name hE⟩
  | other hnot => exact ⟨_, .other hnot⟩

theorem lessStep_again (hL : LessStep text n E L a b r a' b') :
    ∃ r, EqualStep text n E L a' b' r a' b' := by
  cases hL with
  | container c hrun =>
    obtain ⟨r, hE⟩ := h.list.less_again hrun
    exact ⟨r, .container c hE⟩
  | binder name hrun =>
    obtain ⟨r, hE⟩ := h.less_again hrun
    exact ⟨r, .binder name hE⟩
  | other hnot => exact ⟨_, .other hnot⟩

theorem staysStep_congr (heq : key text (n + 1) b = key text (n + 1) b')
    (hstays : StaysStep text n stays a b) : StaysStep text n stays a b' := by
  cases hstays with
  | container c hstays =>
    obtain ⟨k, rfl⟩ := exists_make_of_key heq.symm
    exact .container c (h.list.congr (key_make_inj.mp heq) hstays)
  | binder name hstays =>
    obtain ⟨i, rfl⟩ := exists_binder_of_key heq.symm
    exact .binder name (h.congr (key_binder_inj.mp heq) hstays)
  | other hnot => exact .other fun halike => hnot (halike.symm.congr heq).symm

theorem staysStep_full (hstays : StaysStep text n stays a a) (b : QueryResult) :
    StaysStep text n stays a b := by
  by_cases halike : Alike a b
  · cases halike with
    | container c l l' => exact .container c (h.list.full (staysStep_container.mp hstays) l')
    | binder name item item' => exact .binder name (h.full (staysStep_binder.mp hstays) item')
  · exact .other halike

theorem equalStep_left (hE : EqualStep text n E L a b r a' b')
    (hstays : StaysStep text n stays a b) : a' = a := by
  cases hE with
  | container c hrun => rw [h.list.equal_left hrun (staysStep_container.mp hstays)]
  | binder name hrun => rw [h.equal_left hrun (staysStep_binder.mp hstays)]
  | other hnot => rfl

theorem lessStep_left (hL : LessStep text n E L a b r a' b')
    (hstays : StaysStep text n stays a b) : a' = a := by
  cases hL with
  | container c hrun => rw [h.list.less_left hrun (staysStep_container.mp hstays)]
  | binder name hrun => rw [h.less_left hrun (staysStep_binder.mp hstays)]
  | other hnot => rfl

theorem lessStep_right (hL : LessStep text n E L a b r a' b')
    (hstays : StaysStep text n stays b a) : b' = b := by
  cases hL with
  | container c hrun => rw [h.list.less_right hrun (staysStep_container.mp hstays)]
  | binder name hrun => rw [h.less_right hrun (staysStep_binder.mp hstays)]
  | other hnot => rfl

theorem staysStep_of_runs (hruns : ∀ r a' b', EqualStep text n E L a b r a' b' → a' = a) :
    StaysStep text n stays a b := by
  by_cases halike : Alike a b
  · cases halike with
    | container c l l' =>
      refine .container c (h.list.leaves fun r k k' hrun => ?_)
      exact (Container.make_inj (hruns _ _ _ (.container c hrun))).2
    | binder name item item' =>
      refine .binder name (h.leaves fun r i i' hrun => ?_)
      exact (QueryResult.binder.inj (hruns _ _ _ (.binder name hrun))).2
  · exact .other halike

end

-- ---------------------------------------------------------------------------
-- What comparisons make of a result
-- ---------------------------------------------------------------------------

/-- What either comparison does to its operands. -/
inductive Moves (E L : Comparison QueryResult) :
    QueryResult → QueryResult → QueryResult → QueryResult → Prop
  | container (c : Container) {l l' k k' : List QueryResult} :
      Passes (ListEqual E L) (ListLess E L) l l' k k' →
      Moves E L (c.make l) (c.make l') (c.make k) (c.make k')
  | binder (name : Text) {item item' i i' : QueryResult} : Passes E L item item' i i' →
      Moves E L (.binder name item) (.binder name item') (.binder name i) (.binder name i')
  | other (a b : QueryResult) : Moves E L a b a b

theorem EqualStep.moves (h : EqualStep text n E L a b r a' b') : Moves E L a b a' b' := by
  cases h with
  | container c hrun => exact .container c (.equal hrun)
  | binder name hrun => exact .binder name (.equal hrun)
  | other hnot => exact .other a b

theorem LessStep.moves (h : LessStep text n E L a b r a' b') : Moves E L a b a' b' := by
  cases h with
  | container c hrun => exact .container c (.less hrun)
  | binder name hrun => exact .binder name (.less hrun)
  | other hnot => exact .other a b

/-- The container that is left was reached from the elements. -/
def FromContainer (E L : Comparison QueryResult) (c : Container) (l : List QueryResult)
    (a : QueryResult) : Prop :=
  ∃ k, a = c.make k ∧ Reach (ListEqual E L) (ListLess E L) l k

def FromBinder (E L : Comparison QueryResult) (name : Text) (item a : QueryResult) : Prop :=
  ∃ i, a = .binder name i ∧ Reach E L item i

theorem Moves.fromContainer (h : Moves E L a b a' b') :
    (FromContainer E L c l a → FromContainer E L c l a') ∧
      (FromContainer E L c l b → FromContainer E L c l b') := by
  cases h with
  | container c' hab =>
    constructor
    · rintro ⟨k, hk, hreach⟩
      obtain ⟨rfl, rfl⟩ := Container.make_inj hk
      exact ⟨_, rfl, .left hreach hab⟩
    · rintro ⟨k, hk, hreach⟩
      obtain ⟨rfl, rfl⟩ := Container.make_inj hk
      exact ⟨_, rfl, .right hreach hab⟩
  | binder name hab =>
    constructor
    · rintro ⟨k, hk, -⟩
      exact absurd hk.symm Container.make_ne_binder
    · rintro ⟨k, hk, -⟩
      exact absurd hk.symm Container.make_ne_binder
  | other => exact ⟨id, id⟩

theorem Moves.fromBinder (h : Moves E L a b a' b') :
    (FromBinder E L name item a → FromBinder E L name item a') ∧
      (FromBinder E L name item b → FromBinder E L name item b') := by
  cases h with
  | container c' hab =>
    constructor
    · rintro ⟨i, hi, -⟩
      exact absurd hi Container.make_ne_binder
    · rintro ⟨i, hi, -⟩
      exact absurd hi Container.make_ne_binder
  | binder name hab =>
    constructor
    · rintro ⟨i, hi, hreach⟩
      cases hi
      exact ⟨_, rfl, .left hreach hab⟩
    · rintro ⟨i, hi, hreach⟩
      cases hi
      exact ⟨_, rfl, .right hreach hab⟩
  | other => exact ⟨id, id⟩

section

variable (h : Level E L (key text n) stays)
include h

theorem step_reach_key (hreach : Reach (EqualStep text n E L) (LessStep text n E L) a a') :
    key text (n + 1) a' = key text (n + 1) a := by
  refine hreach.preserves (p := fun x => key text (n + 1) x = key text (n + 1) a)
    (fun hE => ?_) (fun hL => ?_) rfl
  · obtain ⟨ha, hb⟩ := equalStep_key h hE
    exact ⟨ha.trans, hb.trans⟩
  · obtain ⟨ha, hb⟩ := lessStep_key h hL
    exact ⟨ha.trans, hb.trans⟩

theorem step_id (hreach : Reach (EqualStep text n E L) (LessStep text n E L) a a')
    (hstays : StaysStep text n stays a b) : ∃ r b', EqualStep text n E L a' b r a' b' := by
  cases hstays with
  | container c hstays =>
    rename_i l l'
    obtain ⟨k, rfl, hl⟩ := hreach.preserves (p := FromContainer E L c l)
      (fun hE => hE.moves.fromContainer) (fun hL => hL.moves.fromContainer) ⟨l, rfl, .refl l⟩
    obtain ⟨r, k', hrun⟩ := h.list.id hl hstays
    exact ⟨r, _, .container c hrun⟩
  | binder name hstays =>
    rename_i item item'
    obtain ⟨i, rfl, hitem⟩ := hreach.preserves (p := FromBinder E L name item)
      (fun hE => hE.moves.fromBinder) (fun hL => hL.moves.fromBinder) ⟨item, rfl, .refl item⟩
    obtain ⟨r, i', hrun⟩ := h.id hitem hstays
    exact ⟨r, _, .binder name hrun⟩
  | other hnot =>
    exact ⟨_, b, .other fun halike => hnot (halike.congr (step_reach_key h hreach).symm)⟩

/-- What holds of comparing the parts of results holds of comparing results. -/
theorem level_step : Level (EqualStep text n E L) (LessStep text n E L) (key text (n + 1))
    (StaysStep text n stays) where
  equal_answer := equalStep_answer h
  less_answer := lessStep_answer h
  equal_key := equalStep_key h
  less_key := lessStep_key h
  equal_total := equalStep_total h
  equal_symm := equalStep_symm h
  less_of_equal := lessStep_of_equalStep h
  equal_again := equalStep_again h
  less_again := lessStep_again h
  congr := staysStep_congr h
  full := staysStep_full h
  equal_left := equalStep_left h
  less_left := lessStep_left h
  less_right := lessStep_right h
  leaves := staysStep_of_runs h
  id := step_id h

end

theorem level_zero (text : QueryResult → Text) :
    Level (equalRun text 0) (lessRun text 0) (key text 0) (staysAt text 0) where
  equal_answer := fun hE => iff_of_true hE.1 rfl
  less_answer := fun hL => iff_of_false (hL.1 ▸ Bool.false_ne_true) (lt_irrefl _)
  equal_key := fun _ _ _ _ _ _ => ⟨rfl, rfl⟩
  less_key := fun _ _ _ _ _ _ => ⟨rfl, rfl⟩
  equal_total := fun a b => ⟨true, a, b, rfl, rfl, rfl⟩
  equal_symm := fun hE => ⟨hE.1, hE.2.2, hE.2.1⟩
  less_of_equal := fun hE => ⟨false, rfl, hE.2⟩
  equal_again := fun _ => ⟨true, rfl, rfl, rfl⟩
  less_again := fun _ => ⟨true, rfl, rfl, rfl⟩
  congr := fun _ _ => trivial
  full := fun _ _ => trivial
  equal_left := fun hE _ => hE.2.1
  less_left := fun hL _ => hL.2.1
  less_right := fun hL _ => hL.2.2
  leaves := fun _ => trivial
  id := fun _ _ => ⟨true, _, rfl, rfl, rfl⟩

theorem level_at (text : QueryResult → Text) (n : Nat) :
    Level (equalRun text n) (lessRun text n) (key text n) (staysAt text n) := by
  induction n with
  | zero => exact level_zero text
  | succ n ih => exact level_step ih

-- ---------------------------------------------------------------------------
-- The six comparisons
-- ---------------------------------------------------------------------------

inductive ComparisonOp
  | equal
  | notEqual
  | greaterThan
  | lessThan
  | greaterEq
  | lessEq

/-- `compareRun text op a b r a' b'`: the comparison answers `r` and leaves `a'` and `b'`. -/
def compareRun (text : QueryResult → Text) (op : ComparisonOp) : Comparison QueryResult :=
  fun a b r a' b' =>
    let equal := equalRun text (max a.depth b.depth)
    let lessThan := lessRun text (max a.depth b.depth)
    match op with
    | .equal => equal a b r a' b'
    | .notEqual => equal a b (!r) a' b'
    | .lessThan => lessThan a b r a' b'
    | .greaterThan => GreaterRun equal lessThan a b r a' b'
    | .greaterEq => lessThan a b (!r) a' b'
    | .lessEq => GreaterRun equal lessThan a b (!r) a' b'

/-- Comparing them leaves both operands with the same elements in the same order. -/
def LeavesOperands (text : QueryResult → Text) (op : ComparisonOp) (a b : QueryResult) : Prop :=
  ∀ r a' b', compareRun text op a b r a' b' → a' = a ∧ b' = b

/-- Sequences and structs that compare equal have equal elements at the same places. -/
def EqualInPlace (text : QueryResult → Text) (a b : QueryResult) : Prop :=
  ∀ l l', a = .sequence l ∧ b = .sequence l' ∨ a = .struct l ∧ b = .struct l' →
    ∀ a' b', compareRun text .equal a b true a' b' →
      List.Forall₂ (fun x y => QueryResult.equal text x y = true) l l'

/-- Each operand is in the only order in which comparing it with the other can put it. -/
def Settled (text : QueryResult → Text) (a b : QueryResult) : Prop :=
  staysAt text (max a.depth b.depth) a b ∧ staysAt text (max a.depth b.depth) b a

/-- What the comparison answers when nothing is sorted in place. -/
def ComparisonOp.answer (text : QueryResult → Text) :
    ComparisonOp → QueryResult → QueryResult → Bool
  | .equal => QueryResult.equal text
  | .notEqual => QueryResult.notEqual text
  | .greaterThan => QueryResult.greaterThan text
  | .lessThan => QueryResult.lessThan text
  | .greaterEq => QueryResult.greaterEq text
  | .lessEq => QueryResult.lessEq text

theorem equalRun_answer {text : QueryResult → Text} {a b a' b' : QueryResult} {r : Bool}
    (h : equalRun text (max a.depth b.depth) a b r a' b') : r = QueryResult.equal text a b := by
  rw [Bool.eq_iff_iff, (level_at text _).equal_answer h]
  exact ((keyed_at text _).same a b).symm

theorem lessRun_answer {text : QueryResult → Text} {a b a' b' : QueryResult} {r : Bool}
    (h : lessRun text (max a.depth b.depth) a b r a' b') : r = QueryResult.lessThan text a b := by
  rw [Bool.eq_iff_iff, (level_at text _).less_answer h]
  exact ((keyed_at text _).less a b).symm

theorem greaterRun_answer {text : QueryResult → Text} {a b a' b' : QueryResult} {r : Bool}
    (h : GreaterRun (equalRun text (max a.depth b.depth)) (lessRun text (max a.depth b.depth))
      a b r a' b') : r = QueryResult.greaterThan text a b := by
  rw [Bool.eq_iff_iff, (level_at text _).greater_answer h]
  exact ((keyed_at text _).greater a b).symm

/-- The answers are those of the comparisons that change nothing. -/
theorem compareRun_answer {text : QueryResult → Text} {op : ComparisonOp}
    {a b a' b' : QueryResult} {r : Bool} (h : compareRun text op a b r a' b') :
    r = op.answer text a b := by
  cases op with
  | equal => exact equalRun_answer h
  | notEqual => exact Bool.not_eq_eq_eq_not.mp (equalRun_answer h)
  | greaterThan => exact greaterRun_answer h
  | lessThan => exact lessRun_answer h
  | greaterEq => exact Bool.not_eq_eq_eq_not.mp (lessRun_answer h)
  | lessEq => exact Bool.not_inj (greaterRun_answer h)

section

variable {text : QueryResult → Text} {a b a' b' : QueryResult} {r : Bool} {op : ComparisonOp}

theorem Settled.left (h : Settled text a b)
    (hab : Passes (equalRun text (max a.depth b.depth)) (lessRun text (max a.depth b.depth))
      a b a' b') : a' = a ∧ b' = b :=
  ⟨(level_at text _).left hab h.1, (level_at text _).right hab h.2⟩

theorem Settled.leavesOperands (h : Settled text a b) (op : ComparisonOp) :
    LeavesOperands text op a b := by
  intro r a' b' hrun
  cases op with
  | equal => exact h.left (.equal hrun)
  | notEqual => exact h.left (.equal hrun)
  | greaterThan => exact h.left (GreaterRun.passes hrun)
  | lessThan => exact h.left (.less hrun)
  | greaterEq => exact h.left (.less hrun)
  | lessEq => exact h.left (GreaterRun.passes hrun)

/-- What `equal` can leave every other comparison can leave. -/
theorem exists_compareRun (op : ComparisonOp)
    (h : equalRun text (max a.depth b.depth) a b r a' b') :
    ∃ r, compareRun text op a b r a' b' := by
  have hlevel := level_at text (max a.depth b.depth)
  obtain ⟨r', hless⟩ := hlevel.less_of_equal h
  obtain ⟨r'', hgreater⟩ : ∃ r, GreaterRun (equalRun text (max a.depth b.depth))
      (lessRun text (max a.depth b.depth)) a b r a' b' := by
    cases r with
    | true => exact ⟨false, .equal h⟩
    | false =>
      obtain ⟨_, hagain⟩ := hlevel.equal_again h
      obtain ⟨r, hless⟩ := hlevel.less_of_equal hagain
      exact ⟨!r, .unequal h hless⟩
  cases op with
  | equal => exact ⟨r, h⟩
  | notEqual =>
    refine ⟨!r, ?_⟩
    rwa [compareRun, Bool.not_not]
  | greaterThan => exact ⟨r'', hgreater⟩
  | lessThan => exact ⟨r', hless⟩
  | greaterEq =>
    refine ⟨!r', ?_⟩
    rwa [compareRun, Bool.not_not]
  | lessEq =>
    refine ⟨!r'', ?_⟩
    rwa [compareRun, Bool.not_not]

theorem LeavesOperands.settled (h : LeavesOperands text op a b) : Settled text a b := by
  have hlevel := level_at text (max a.depth b.depth)
  constructor
  · refine hlevel.leaves fun r a' b' hE => ?_
    obtain ⟨r, hrun⟩ := exists_compareRun op hE
    exact (h r a' b' hrun).1
  · refine hlevel.leaves fun r b' a' hE => ?_
    obtain ⟨r, hrun⟩ := exists_compareRun op (hlevel.equal_symm hE)
    exact (h r a' b' hrun).2

theorem sorted_of_sizesStay {n : Nat} {l l' : List QueryResult} (hlen : l'.length = l.length)
    (h : SizesStay (key text n) (staysAt text n) l l') :
    (l.map (key text n)).insertionSort (· ≤ ·) = l.map (key text n) := by
  refine List.Perm.eq_of_pairwise (fun a b _ _ => le_antisymm) (List.pairwise_insertionSort _ _)
    (List.pairwise_map.mpr (ordered_keys (h hlen).ordered)) (List.perm_insertionSort _ _)

theorem Settled.forall₂ {c : Container} {l l' : List QueryResult}
    (h : Settled text (c.make l) (c.make l')) (hequal : equal text (c.make l) (c.make l') = true) :
    List.Forall₂ (fun x y => equal text x y = true) l l' := by
  have hdepth : max (c.make l).depth (c.make l').depth = max (depths l) (depths l') + 1 := by
    cases c <;> exact Nat.add_max_add_right _ _ _
  rw [Settled, hdepth] at h
  obtain ⟨hstays, hstays'⟩ := h
  have hkey : key text (max (depths l) (depths l') + 1) (c.make l) =
      key text (max (depths l) (depths l') + 1) (c.make l') := by
    rw [← hdepth]
    exact (equal_iff (le_max_left _ _) (le_max_right _ _)).mp hequal
  obtain ⟨hlen, hkeys⟩ := listKey_inj.mp (key_make_inj.mp hkey)
  rw [sorted_of_sizesStay hlen.symm (staysStep_container.mp hstays),
    sorted_of_sizesStay hlen (staysStep_container.mp hstays')] at hkeys
  refine forall₂_of_map hkeys fun x hx y hy hxy => ?_
  exact (equal_iff ((depth_le_depths hx).trans (le_max_left _ _))
    ((depth_le_depths hy).trans (le_max_right _ _))).mpr hxy

theorem Settled.equalInPlace (h : Settled text a b) : EqualInPlace text a b := by
  rintro l l' hab a' b' hrun
  have hequal := equalRun_answer hrun
  obtain ⟨rfl, rfl⟩ | ⟨rfl, rfl⟩ := hab
  · exact Settled.forall₂ (c := .sequence) h hequal.symm
  · exact Settled.forall₂ (c := .struct) h hequal.symm

/-- Comparing two results leaves both as they are, and finds sequences and structs equal only
place by place, exactly if both are in the only order in which comparing can put them. -/
theorem leavesOperands_iff (text : QueryResult → Text) (op : ComparisonOp) (a b : QueryResult) :
    LeavesOperands text op a b ∧ EqualInPlace text a b ↔ Settled text a b :=
  ⟨fun h => h.1.settled, fun h => ⟨h.leavesOperands op, h.equalInPlace⟩⟩

end

-- ---------------------------------------------------------------------------
-- A sequence that is sorted by a comparison
-- ---------------------------------------------------------------------------

theorem Alike.le_type {a b : QueryResult} (h : Alike a b) : 7 ≤ a.type := by
  cases h with
  | container c => cases c <;> simp [Container.make, type]
  | binder => simp [type]

theorem sortLeaves_ints (text : QueryResult → Text) {l : List QueryResult}
    (h : l.Perm [.int 1, .int 2]) : SortLeaves (lessRun text 1) l [.int 1, .int 2] := by
  refine (level_at text 1).sortLeaves_iff.mpr ⟨l, .refl l, h.symm, ?_⟩
  simp [key, Key.mk_lt, le_of_lt]

theorem equalRun_ints (text : QueryResult → Text) :
    compareRun text .equal (.sequence [.int 2, .int 1]) (.sequence [.int 1, .int 2]) true
      (.sequence [.int 1, .int 2]) (.sequence [.int 1, .int 2]) := by
  have hint (v : Int) : equalRun text 1 (.int v) (.int v) true (.int v) (.int v) := by
    have hother : ¬ Alike (.int v) (.int v) := fun halike => absurd halike.le_type (by simp [type])
    have hequal : equalAt text 1 (.int v) (.int v) = true := by simp [equalAt]
    exact hequal ▸ EqualStep.other hother
  refine EqualStep.container .sequence (.sorted rfl (sortLeaves_ints text (.swap _ _ _))
    (sortLeaves_ints text (.refl _)) ?_)
  exact .equal (hint 1) (.equal (hint 2) .done)

/-- The first sequence is sorted, and found equal to one with other elements at its places. -/
theorem not_leavesOperands :
    ¬ (LeavesOperands (fun _ => []) .equal (.sequence [.int 2, .int 1])
        (.sequence [.int 1, .int 2]) ∨
      EqualInPlace (fun _ => []) (.sequence [.int 2, .int 1]) (.sequence [.int 1, .int 2])) := by
  rintro (h | h)
  · have hsame := (h _ _ _ (equalRun_ints _)).1
    cases hsame
  · have hplaces := h _ _ (.inl ⟨rfl, rfl⟩) _ _ (equalRun_ints _)
    cases hplaces with
    | cons hfirst _ => simp [equal, depth, equalAt] at hfirst

end Loxim.QueryExecutor.QueryResult
