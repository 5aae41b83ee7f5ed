import Loxim.QueryExecutor.OrderBy

/-!
# Adding to a bag or a sequence

`addResult` takes the elements out of the collection that it adds, and leaves out what is
nothing. A bag without elements takes over the elements as they are.
-/

namespace Loxim.QueryExecutor.QueryResult

/-- The loop of so many calls of `getResult`, each of which takes the first element. -/
def drain : Nat → List QueryResult → List QueryResult → List QueryResult × List QueryResult
  | 0, c, l => (c, l)
  | _ + 1, c, [] => (c, [])
  | n + 1, c, tmpRes :: l => drain n (if tmpRes.isNothing then c else c ++ [tmpRes]) l

/-- What is left of the receiver and of the result that was added. -/
structure Added where
  content : List QueryResult
  added : QueryResult

/-- `QuerySequenceResult::addResult`. -/
def sequenceAdd (seq : List QueryResult) (r : QueryResult) : Added :=
  match r with
  | .sequence l =>
    let (seq, l) := drain l.length seq l
    ⟨seq, .sequence l⟩
  | .bag l =>
    let (seq, l) := drain l.length seq l
    ⟨seq, .bag l⟩
  | r => ⟨if r.isNothing then seq else seq ++ [r], r⟩

/-- `QueryBagResult::addResult`. -/
def bagAdd (bag : List QueryResult) (r : QueryResult) : Added :=
  match r with
  | .sequence l =>
    if bag.length = 0 then ⟨l, .sequence l⟩
    else
      let (bag, l) := drain l.length bag l
      ⟨bag, .sequence l⟩
  | .bag l =>
    if bag.length = 0 then ⟨l, .bag l⟩
    else
      let (bag, l) := drain l.length bag l
      ⟨bag, .bag l⟩
  | r => ⟨if r.isNothing then bag else bag ++ [r], r⟩

/-- The parts are added to a new bag one after another. -/
def buildBag (parts : List QueryResult) : List QueryResult :=
  parts.foldl (fun bag r => (bagAdd bag r).content) []

-- ---------------------------------------------------------------------------
-- What adding is for
-- ---------------------------------------------------------------------------

/-- The elements of a bag or a sequence. -/
def contents? : QueryResult → Option (List QueryResult)
  | .sequence l | .bag l => some l
  | _ => none

/-- The receiver gets what is not nothing, and the result stays as it was. -/
def Unites (add : List QueryResult → QueryResult → Added) (c : List QueryResult)
    (r : QueryResult) : Prop :=
  add c r = ⟨c ++ r.pieces, r⟩

/-- The parts make the same bag in every order. -/
def OrderFree (parts : List QueryResult) : Prop :=
  ∀ parts', parts'.Perm parts → (buildBag parts').Perm (buildBag parts)

/-- What an empty bag takes over. -/
def raw (r : QueryResult) : List QueryResult := r.contents?.getD r.whole

/-- What is nothing in it. -/
def nothings (r : QueryResult) : List QueryResult := r.raw.filter isNothing

variable {c l bag seq parts parts' : List QueryResult} {r p q : QueryResult}

theorem drain_length : drain l.length c l = (c ++ l.filter fun r => !r.isNothing, []) := by
  induction l generalizing c with
  | nil => rw [List.length_nil, drain, List.filter_nil, List.append_nil]
  | cons r l ih =>
    rw [List.length_cons, drain, ih, List.filter_cons]
    cases r.isNothing with
    | true => rfl
    | false => simp

/-- A sequence unites what is no collection, and empty collections. -/
theorem sequenceAdd_unites_iff :
    Unites sequenceAdd seq r ↔ ∀ l, r.contents? = some l → l = [] := by
  cases r with
  | sequence l | bag l =>
    simp only [Unites, sequenceAdd, drain_length, pieces, contents?, Added.mk.injEq, true_and,
      QueryResult.sequence.injEq, QueryResult.bag.injEq, Option.some.injEq, forall_eq']
    exact eq_comm
  | _ =>
    refine iff_of_true ?_ (fun l hl => by cases hl)
    simp only [Unites, sequenceAdd, pieces, whole]
    split
    · rw [List.append_nil]
    · rfl

/-- So does a bag, and without elements it also unites collections without nothings. -/
theorem bagAdd_unites_iff :
    Unites bagAdd bag r ↔ ∀ l, r.contents? = some l →
      l = [] ∨ bag = [] ∧ ∀ x ∈ l, x.isNothing = false := by
  cases r with
  | sequence l | bag l =>
    simp only [Unites, bagAdd, drain_length, pieces, contents?, List.length_eq_zero_iff,
      Option.some.injEq, forall_eq']
    split
    · rename_i hempty
      subst hempty
      simp only [List.nil_append, Added.mk.injEq, and_true, true_and]
      constructor
      · intro h
        refine .inr fun x hx => ?_
        have hfilter := List.filter_eq_self.mp h.symm x hx
        simpa using hfilter
      · rintro (rfl | h)
        · rfl
        · exact (List.filter_eq_self.mpr fun x hx => by simp [h x hx]).symm
    · rename_i hne
      simp only [Added.mk.injEq, true_and, QueryResult.sequence.injEq, QueryResult.bag.injEq,
        hne, false_and, or_false]
      exact eq_comm
  | _ =>
    refine iff_of_true ?_ (fun l hl => by cases hl)
    simp only [Unites, bagAdd, pieces, whole]
    split
    · rw [List.append_nil]
    · rfl

-- ---------------------------------------------------------------------------
-- Building a bag
-- ---------------------------------------------------------------------------

theorem filter_raw : (r.raw.filter fun x => !x.isNothing) = r.pieces := by
  cases r with
  | sequence l | bag l => rfl
  | _ =>
    simp only [raw, contents?, Option.getD_none, pieces, whole]
    split
    · rfl
    · rename_i h
      simp [h]

theorem raw_perm : r.raw.Perm (r.pieces ++ r.nothings) := by
  rw [← filter_raw, nothings]
  have h := List.filter_append_perm (fun x => !x.isNothing) r.raw
  simpa using h.symm

theorem pieces_of_raw (h : r.raw = []) : r.pieces = [] := by
  rw [← filter_raw, h, List.filter_nil]

theorem content_bagAdd_nil : (bagAdd [] r).content = r.raw := by
  cases r with
  | sequence l | bag l => rfl
  | _ => rfl

theorem content_bagAdd (h : bag ≠ []) : (bagAdd bag r).content = bag ++ r.pieces := by
  have hlen : bag.length ≠ 0 := fun hzero => h (List.length_eq_zero_iff.mp hzero)
  cases r with
  | sequence l | bag l => simp only [bagAdd, if_neg hlen, drain_length, pieces]
  | _ =>
    simp only [bagAdd, pieces, whole]
    split
    · rw [List.append_nil]
    · rfl

theorem foldl_bagAdd (h : bag ≠ []) :
    parts.foldl (fun bag r => (bagAdd bag r).content) bag = bag ++ parts.flatMap pieces := by
  induction parts generalizing bag with
  | nil => rw [List.foldl_nil, List.flatMap_nil, List.append_nil]
  | cons r parts ih =>
    rw [List.foldl_cons, content_bagAdd h, ih (List.append_ne_nil_of_left_ne_nil h _),
      List.flatMap_cons, List.append_assoc]

/-- The first part with elements is taken over with its nothings. -/
theorem buildBag_cons (h : r.raw ≠ []) :
    (buildBag (r :: parts)).Perm ((r :: parts).flatMap pieces ++ r.nothings) := by
  rw [buildBag, List.foldl_cons, content_bagAdd_nil, foldl_bagAdd h, List.flatMap_cons]
  refine (raw_perm.append_right _).trans ?_
  rw [List.append_assoc, List.append_assoc]
  exact List.perm_append_comm.append_left _

theorem buildBag_perm : (∀ p ∈ parts, p.raw = []) ∧ buildBag parts = [] ∨
    ∃ p ∈ parts, p.raw ≠ [] ∧ (buildBag parts).Perm (parts.flatMap pieces ++ p.nothings) := by
  induction parts with
  | nil => exact .inl ⟨fun p hp => absurd hp List.not_mem_nil, rfl⟩
  | cons r parts ih =>
    by_cases h : r.raw = []
    · have hbuild : buildBag (r :: parts) = buildBag parts := by
        rw [buildBag, List.foldl_cons, content_bagAdd_nil, h, buildBag]
      rw [hbuild, List.flatMap_cons, pieces_of_raw h, List.nil_append]
      obtain ⟨hall, hempty⟩ | ⟨p, hp, hraw, hperm⟩ := ih
      · refine .inl ⟨?_, hempty⟩
        rintro p (_ | ⟨_, hp⟩)
        · exact h
        · exact hall p hp
      · exact .inr ⟨p, List.mem_cons_of_mem r hp, hraw, hperm⟩
    · exact .inr ⟨r, List.mem_cons_self, h, buildBag_cons h⟩

/-- It does not matter which part comes first if all parts have the same nothings. -/
theorem orderFree_iff : OrderFree parts ↔
    ∀ p ∈ parts, ∀ q ∈ parts, p.raw ≠ [] → q.raw ≠ [] → p.nothings.Perm q.nothings := by
  constructor
  · intro h p hp q hq hpraw hqraw
    have hfirst {r} (hr : r ∈ parts) (hraw : r.raw ≠ []) :
        (buildBag parts).Perm (parts.flatMap pieces ++ r.nothings) := by
      obtain ⟨before, after, rfl⟩ := List.append_of_mem hr
      have hmove : (r :: (before ++ after)).Perm (before ++ r :: after) :=
        List.perm_middle.symm
      exact (h _ hmove).symm.trans ((buildBag_cons hraw).trans
        ((hmove.flatMap_right _).append_right _))
    exact (List.perm_append_left_iff _).mp ((hfirst hp hpraw).symm.trans (hfirst hq hqraw))
  · intro h parts' hperm
    have hpieces : (parts'.flatMap pieces).Perm (parts.flatMap pieces) := hperm.flatMap_right _
    obtain ⟨hall', hempty'⟩ | ⟨p', hp', hraw', hperm'⟩ := @buildBag_perm parts'
    · obtain ⟨-, hempty⟩ | ⟨p, hp, hraw, -⟩ := @buildBag_perm parts
      · rw [hempty, hempty']
      · exact absurd (hall' p (hperm.mem_iff.mpr hp)) hraw
    · obtain ⟨hall, -⟩ | ⟨p, hp, hraw, hparts⟩ := @buildBag_perm parts
      · exact absurd (hall p' (hperm.mem_iff.mp hp')) hraw'
      · have hsame := h p' (hperm.mem_iff.mp hp') p hp hraw' hraw
        exact hperm'.trans ((hpieces.append hsame).trans hparts.symm)

-- ---------------------------------------------------------------------------
-- When adding is a union
-- ---------------------------------------------------------------------------

/-- A result is united with a receiver, and parts are added in any order. -/
theorem addResult_unites_iff (seq bag : List QueryResult) (r : QueryResult)
    (parts : List QueryResult) :
    (Unites sequenceAdd seq r ↔ ∀ l, r.contents? = some l → l = []) ∧
    (Unites bagAdd bag r ↔ ∀ l, r.contents? = some l →
      l = [] ∨ bag = [] ∧ ∀ x ∈ l, x.isNothing = false) ∧
    (OrderFree parts ↔
      ∀ p ∈ parts, ∀ q ∈ parts, p.raw ≠ [] → q.raw ≠ [] → p.nothings.Perm q.nothings) :=
  ⟨sequenceAdd_unites_iff, bagAdd_unites_iff, orderFree_iff⟩

/-- `bag(2)` added to `bag(1)` loses its element, `bag(nothing)` added to an empty bag brings
a nothing, and so the order of the parts matters. -/
theorem not_unites : ¬ Unites bagAdd [.int 1] (.bag [.int 2]) ∧
    ¬ Unites sequenceAdd [] (.bag [.int 2]) ∧ ¬ Unites bagAdd [] (.bag [.nothing]) ∧
    ¬ OrderFree [.bag [.nothing], .bag [.int 1]] := by
  refine ⟨?_, ?_, ?_, ?_⟩
  · simp [bagAdd_unites_iff, contents?]
  · simp [sequenceAdd_unites_iff, contents?]
  · simp [bagAdd_unites_iff, contents?, isNothing]
  · rw [orderFree_iff]
    intro h
    have hperm := h (.bag [.nothing]) (by simp) (.bag [.int 1]) (by simp) (by simp [raw, contents?])
      (by simp [raw, contents?])
    simp [nothings, raw, contents?, isNothing] at hperm

end Loxim.QueryExecutor.QueryResult
