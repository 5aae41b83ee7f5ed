import Mathlib.Data.Set.List
import Loxim.QueryExecutor.ResultOrder

/-!
# Ordering a bag

The rows of the bag are sorted by their keys and then the elements of the rows are added to
a new sequence. Of a key only the columns that are not nothing are compared, keys with
fewer of them come first, and an element that is a bag or a sequence is added part by part.
-/

namespace Loxim.QueryExecutor.QueryResult

-- ---------------------------------------------------------------------------
-- Sorting and adding up
-- ---------------------------------------------------------------------------

/-- What `sortBag_in_orderBy` may leave. -/
structure SortBagInOrderBy (text : QueryResult → Text) (rows rows' : List (List QueryResult)) :
    Prop where
  perm : rows'.Perm rows
  sorted : rows'.Pairwise fun row row' => sortingStrictLess text row' row = false

/-- `addResult` of a sequence takes the elements out of a collection. -/
def sequenceAddResult (seq : List QueryResult) : QueryResult → List QueryResult
  | .sequence l | .bag l => seq ++ l.filter fun r => !r.isNothing
  | r => if r.isNothing then seq else seq ++ [r]

def postSortLoop (f : List QueryResult) : List (List QueryResult) → Option (List QueryResult)
  | [] => some f
  | row :: rows =>
    match row[0]? with
    | some elem => postSortLoop (sequenceAddResult f elem) rows
    | none => none

/-- The sequence, or the error of a row without an element. -/
def postSort (rows : List (List QueryResult)) : Option (List QueryResult) := postSortLoop [] rows

-- ---------------------------------------------------------------------------
-- The order by columns
-- ---------------------------------------------------------------------------

structure OrderByRow where
  elem : QueryResult
  orderSeq : QueryResult

def OrderByRow.toStruct (row : OrderByRow) : List QueryResult := [row.elem, row.orderSeq]

def columns : QueryResult → List QueryResult
  | .struct l => l
  | r => [r]

/-- The lexicographic order of the columns. -/
inductive ColumnsLess (text : QueryResult → Text) : List QueryResult → List QueryResult → Prop
  | nil (b : QueryResult) (l' : List QueryResult) : ColumnsLess text [] (b :: l')
  | head {a b : QueryResult} (l l' : List QueryResult) :
      lessThan text a b = true → ColumnsLess text (a :: l) (b :: l')
  | tail {a b : QueryResult} {l l' : List QueryResult} :
      equal text a b = true → ColumnsLess text l l' → ColumnsLess text (a :: l) (b :: l')

/-- The order of the keys by all their columns. -/
def KeyLess (text : QueryResult → Text) (key key' : QueryResult) : Prop :=
  ColumnsLess text (columns key) (columns key')

/-- Keys with fewer columns that are not nothing come first. -/
def PresentLess (text : QueryResult → Text) (key key' : QueryResult) : Prop :=
  let present := (columns key).filter fun r => !r.isNothing
  let present' := (columns key').filter fun r => !r.isNothing
  present.length < present'.length ∨
    present.length = present'.length ∧ ColumnsLess text present present'

/-- The result itself. -/
def whole (r : QueryResult) : List QueryResult := if r.isNothing then [] else [r]

/-- The elements of a collection. -/
def pieces : QueryResult → List QueryResult
  | .sequence l | .bag l => l.filter fun r => !r.isNothing
  | r => r.whole

/-- `f` has what `parts` makes of the elements of the rows, in an order in which the keys of
the rows do not go down. -/
def Arranges (parts : QueryResult → List QueryResult) (less : QueryResult → QueryResult → Prop)
    (rows : List OrderByRow) (f : List QueryResult) : Prop :=
  ∃ placed : List OrderByRow, f = placed.map OrderByRow.elem ∧
    placed.Perm (rows.flatMap fun row => (parts row.elem).map (OrderByRow.mk · row.orderSeq)) ∧
    placed.Pairwise fun row row' => ¬ less row'.orderSeq row.orderSeq

/-- No element is a collection to be taken apart, and every key has the same columns. -/
structure Plain (rows : List OrderByRow) : Prop where
  elem : ∀ row ∈ rows, row.elem.type ≠ 9 ∧ row.elem.type ≠ 10
  present : ∀ row ∈ rows, ∀ r ∈ columns row.orderSeq, r.isNothing = false
  length : ∀ row ∈ rows, ∀ row' ∈ rows,
    (columns row.orderSeq).length = (columns row'.orderSeq).length

variable {text : QueryResult → Text} {l l' f : List QueryResult} {key key' r : QueryResult}
  {rows : List OrderByRow} {sorted : List (List QueryResult)}

theorem lessLoop_iff_columns (hlen : l.length = l'.length) :
    lessLoop (lessThan text) (greaterThan text) l l' = true ↔ ColumnsLess text l l' := by
  induction l generalizing l' with
  | nil =>
    cases l' with
    | nil =>
      rw [lessLoop]
      refine iff_of_false Bool.false_ne_true ?_
      rintro ⟨⟩
    | cons b l' => cases hlen
  | cons a l ih =>
    cases l' with
    | nil => cases hlen
    | cons b l' =>
      have hrest := @ih l' (Nat.succ.inj hlen)
      rw [lessLoop]
      split
      · rename_i hless
        exact iff_of_true rfl (.head l l' hless)
      · rename_i hless
        rw [greaterThan_eq]
        split
        · rename_i hgreater
          refine iff_of_false Bool.false_ne_true ?_
          rintro (_ | ⟨_, _, h⟩ | ⟨h, _⟩)
          · exact hless h
          · have hnot := ((equal_iff_incomparable text a b).mp h).2
            rw [hgreater] at hnot
            cases hnot
        · rename_i hgreater
          have hequal : equal text a b = true := (equal_iff_incomparable text a b).mpr
            ⟨Bool.eq_false_iff.mpr hless, Bool.eq_false_iff.mpr hgreater⟩
          rw [hrest]
          refine ⟨.tail hequal, ?_⟩
          rintro (_ | ⟨_, _, h⟩ | ⟨_, h⟩)
          · exact absurd h hless
          · exact h

theorem addResult_eq (key : QueryResult) :
    key.addResult = (columns key).filter fun r => !r.isNothing := by
  cases key <;> simp only [addResult, columns, List.filter_cons, List.filter_nil]
  all_goals
    split
    · rename_i hnothing
      simp [hnothing]
    · rename_i hnothing
      simp [hnothing]

theorem sortingStrictLess_iff {row row' : OrderByRow} :
    sortingStrictLess text row.toStruct row'.toStruct = true ↔
      PresentLess text row.orderSeq row'.orderSeq := by
  rw [PresentLess, ← addResult_eq, ← addResult_eq, OrderByRow.toStruct, OrderByRow.toStruct]
  simp only [sortingStrictLess, List.getElem?_cons_succ, List.getElem?_cons_zero]
  split
  · rename_i hlt
    exact iff_of_true rfl (.inl hlt)
  · rename_i hlt
    split
    · rename_i hgt
      refine iff_of_false Bool.false_ne_true ?_
      rintro (h | ⟨h, -⟩)
      · exact hlt h
      · exact hgt.ne' h
    · rename_i hgt
      have hlen := le_antisymm (not_lt.mp hgt) (not_lt.mp hlt)
      rw [lessLoop_iff_columns hlen]
      exact ⟨fun h => .inr ⟨hlen, h⟩, fun h => h.elim (fun h => absurd h hlt) And.right⟩

theorem presentLess_irrefl (key : QueryResult) : ¬ PresentLess text key key := by
  intro h
  let row : OrderByRow := ⟨key, key⟩
  have hless : sortingStrictLess text row.toStruct row.toStruct = true :=
    sortingStrictLess_iff.mpr h
  have hirrefl := (sortingStrictLess_strictWeak text).irrefl (key, key)
  rw [OrderByRow.toStruct, hirrefl] at hless
  cases hless

theorem sequenceAddResult_eq (seq : List QueryResult) (r : QueryResult) :
    sequenceAddResult seq r = seq ++ pieces r := by
  cases r <;> simp only [sequenceAddResult, pieces, whole]
  all_goals
    split
    · rw [List.append_nil]
    · rfl

theorem postSortLoop_eq (f : List QueryResult) (rows : List OrderByRow) :
    postSortLoop f (rows.map OrderByRow.toStruct) =
      some (f ++ rows.flatMap fun row => pieces row.elem) := by
  induction rows generalizing f with
  | nil => rw [List.map_nil, postSortLoop, List.flatMap_nil, List.append_nil]
  | cons row rows ih =>
    rw [List.map_cons, postSortLoop, OrderByRow.toStruct, List.getElem?_cons_zero]
    show postSortLoop (sequenceAddResult f row.elem) _ = _
    rw [ih, sequenceAddResult_eq, List.flatMap_cons, List.append_assoc]

theorem SortBagInOrderBy.exists_rows
    (h : SortBagInOrderBy text (rows.map OrderByRow.toStruct) sorted) :
    ∃ rows' : List OrderByRow, sorted = rows'.map OrderByRow.toStruct ∧ rows'.Perm rows ∧
      rows'.Pairwise fun row row' => ¬ PresentLess text row'.orderSeq row.orderSeq := by
  have hrange : sorted ∈ Set.range (List.map OrderByRow.toStruct) := by
    rw [Set.range_list_map]
    intro row hrow
    obtain ⟨row', -, rfl⟩ := List.mem_map.mp (h.perm.mem_iff.mp hrow)
    exact ⟨row', rfl⟩
  obtain ⟨rows', rfl⟩ := hrange
  have hinj : Function.Injective OrderByRow.toStruct := by
    rintro ⟨elem, orderSeq⟩ ⟨elem', orderSeq'⟩ heq
    simpa [OrderByRow.toStruct] using heq
  refine ⟨rows', rfl, (List.map_perm_map_iff hinj).mp h.perm, ?_⟩
  refine (List.pairwise_map.mp h.sorted).imp fun {row row'} hless hpresent => ?_
  rw [sortingStrictLess_iff.mpr hpresent] at hless
  cases hless

theorem arranges_pieces {rows' : List OrderByRow} (hperm : rows'.Perm rows)
    (hsorted : rows'.Pairwise fun row row' => ¬ PresentLess text row'.orderSeq row.orderSeq) :
    Arranges pieces (PresentLess text) rows (rows'.flatMap fun row => pieces row.elem) := by
  refine ⟨rows'.flatMap fun row => (pieces row.elem).map (OrderByRow.mk · row.orderSeq), ?_,
    hperm.flatMap_right _, ?_⟩
  · rw [List.map_flatMap]
    simp only [List.map_map, Function.comp_def, List.map_id']
  · refine List.pairwise_flatMap.mpr ⟨fun row _ => ?_, hsorted.imp fun hless a ha b hb => ?_⟩
    -- the parts of one element have the same key
    · refine List.pairwise_map.mpr (List.pairwise_of_forall fun _ _ => presentLess_irrefl _)
    · obtain ⟨_, -, rfl⟩ := List.mem_map.mp ha
      obtain ⟨_, -, rfl⟩ := List.mem_map.mp hb
      exact hless

theorem Plain.arranges (h : Plain rows) (hf : Arranges pieces (PresentLess text) rows f) :
    Arranges whole (KeyLess text) rows f := by
  obtain ⟨placed, hplaced, hperm, hsorted⟩ := hf
  have hwhole : ∀ row ∈ rows, (pieces row.elem).map (OrderByRow.mk · row.orderSeq) =
      (whole row.elem).map (OrderByRow.mk · row.orderSeq) := by
    intro row hrow
    obtain ⟨hbag, hsequence⟩ := h.elem row hrow
    cases helem : row.elem with
    | bag l => exact absurd (by rw [helem, type]) hbag
    | sequence l => exact absurd (by rw [helem, type]) hsequence
    | _ => rfl
  have hkeys {row : OrderByRow} (hrow : row ∈ placed) :
      ∃ row' ∈ rows, row'.orderSeq = row.orderSeq := by
    obtain ⟨row', hrow', hmem⟩ := List.mem_flatMap.mp (hperm.mem_iff.mp hrow)
    obtain ⟨_, -, rfl⟩ := List.mem_map.mp hmem
    exact ⟨row', hrow', rfl⟩
  have hpresent {key : QueryResult} (hkey : ∃ row ∈ rows, row.orderSeq = key) :
      ((columns key).filter fun r => !r.isNothing) = columns key := by
    obtain ⟨row, hrow, rfl⟩ := hkey
    exact List.filter_eq_self.mpr fun r hr => by rw [h.present row hrow r hr, Bool.not_false]
  refine ⟨placed, hplaced, ?_, ?_⟩
  · rwa [List.flatMap_congr hwhole] at hperm
  · refine hsorted.imp_of_mem fun {row row'} hrow hrow' hnot hless => hnot ?_
    obtain ⟨a, ha, hakey⟩ := hkeys hrow
    obtain ⟨b, hb, hbkey⟩ := hkeys hrow'
    refine .inr ?_
    rw [hpresent ⟨a, ha, hakey⟩, hpresent ⟨b, hb, hbkey⟩]
    exact ⟨by rw [← hakey, ← hbkey, h.length b hb a ha], hless⟩

/-- `orderBy` lists the parts of the elements in an order in which the keys do not go down,
compared by the columns that are not nothing, fewer columns first. Where no element is a
collection and the keys have the same columns it lists the elements in the order of the
columns. -/
theorem orderBy_arranges (h : SortBagInOrderBy text (rows.map OrderByRow.toStruct) sorted) :
    ∃ f, postSort sorted = some f ∧ Arranges pieces (PresentLess text) rows f ∧
      (Plain rows → Arranges whole (KeyLess text) rows f) := by
  obtain ⟨rows', rfl, hperm, hsorted⟩ := h.exists_rows
  have harranges := arranges_pieces hperm hsorted
  refine ⟨_, ?_, harranges, fun hplain => hplain.arranges harranges⟩
  rw [postSort, postSortLoop_eq, List.nil_append]

/-- Rows with plain keys. -/
def intRows : List OrderByRow := [⟨.bool true, .int 2⟩, ⟨.bool false, .int 1⟩]

theorem sort_intRows (text : QueryResult → Text) :
    SortBagInOrderBy text (intRows.map OrderByRow.toStruct)
      (intRows.reverse.map OrderByRow.toStruct) := by
  refine ⟨(List.reverse_perm _).map _, ?_⟩
  simp [intRows, OrderByRow.toStruct, sortingStrictLess, addResult, isNothing, lessLoop, lessThan,
    greaterThan, equal, depth, lessThanAt, equalAt]

theorem plain_intRows : Plain intRows := by
  constructor <;> simp [intRows, columns, isNothing, type]

theorem orderBy_intRows : ∃ f,
    postSort (intRows.reverse.map OrderByRow.toStruct) = some f ∧
      Arranges whole (KeyLess fun _ => []) intRows f := by
  obtain ⟨f, hf, -, hplain⟩ := orderBy_arranges (sort_intRows fun _ => [])
  exact ⟨f, hf, hplain plain_intRows⟩

-- ---------------------------------------------------------------------------
-- An element that is a sequence, and a key with fewer columns
-- ---------------------------------------------------------------------------

def nestedRow : OrderByRow := ⟨.sequence [.int 1, .int 2], .int 0⟩

theorem sort_nestedRow (text : QueryResult → Text) :
    SortBagInOrderBy text ([nestedRow].map OrderByRow.toStruct)
      ([nestedRow].map OrderByRow.toStruct) :=
  ⟨.refl _, List.pairwise_singleton _ _⟩

theorem not_arranges_nestedRow {less : QueryResult → QueryResult → Prop} :
    ¬ Arranges whole less [nestedRow] [.int 1, .int 2] := by
  rintro ⟨placed, hplaced, hperm, -⟩
  have hlength := hperm.length_eq
  rw [← List.length_map OrderByRow.elem, ← hplaced] at hlength
  simp [nestedRow, whole, isNothing] at hlength

/-- The key of the first row has two columns, of which the first is less. -/
def shortRows : List OrderByRow :=
  [⟨.bool false, .struct [.int 1, .int 9]⟩, ⟨.bool true, .int 2⟩]

theorem sort_shortRows (text : QueryResult → Text) :
    SortBagInOrderBy text (shortRows.map OrderByRow.toStruct)
      (shortRows.reverse.map OrderByRow.toStruct) := by
  refine ⟨(List.reverse_perm _).map _, ?_⟩
  simp [shortRows, OrderByRow.toStruct, sortingStrictLess, addResult, isNothing]

theorem not_arranges_shortRows (text : QueryResult → Text) :
    ¬ Arranges whole (KeyLess text) shortRows [.bool true, .bool false] := by
  rintro ⟨placed, hplaced, hperm, hsorted⟩
  obtain ⟨row, rest, rfl, hrow, hrest⟩ := List.map_eq_cons_iff.mp hplaced.symm
  obtain ⟨row', rest', rfl, hrow', hnil⟩ := List.map_eq_cons_iff.mp hrest
  have hmem (x : OrderByRow) (hx : x ∈ row :: row' :: rest') : x ∈ shortRows := by
    simpa [shortRows, whole, isNothing] using hperm.mem_iff.mp hx
  have hkey : row.orderSeq = .int 2 := by
    have h := hmem row List.mem_cons_self
    simp only [shortRows, List.mem_cons, List.not_mem_nil, or_false] at h
    obtain rfl | rfl := h
    · cases hrow
    · rfl
  have hkey' : row'.orderSeq = .struct [.int 1, .int 9] := by
    have h := hmem row' (List.mem_cons_of_mem row List.mem_cons_self)
    simp only [shortRows, List.mem_cons, List.not_mem_nil, or_false] at h
    obtain rfl | rfl := h
    · rfl
    · cases hrow'
  refine (List.pairwise_cons.mp hsorted).1 row' List.mem_cons_self ?_
  rw [KeyLess, hkey, hkey']
  refine .head _ _ ?_
  simp [lessThan, depth, lessThanAt]

/-- The sequence is taken apart, and the row whose key comes first in the lexicographic order
is listed last. -/
theorem orderBy_not_lexicographic :
    (SortBagInOrderBy (fun _ => []) ([nestedRow].map OrderByRow.toStruct)
        ([nestedRow].map OrderByRow.toStruct) ∧
      postSort ([nestedRow].map OrderByRow.toStruct) = some [.int 1, .int 2] ∧
      ¬ Arranges whole (KeyLess fun _ => []) [nestedRow] [.int 1, .int 2]) ∧
    SortBagInOrderBy (fun _ => []) (shortRows.map OrderByRow.toStruct)
      (shortRows.reverse.map OrderByRow.toStruct) ∧
    postSort (shortRows.reverse.map OrderByRow.toStruct) = some [.bool true, .bool false] ∧
    ¬ Arranges whole (KeyLess fun _ => []) shortRows [.bool true, .bool false] := by
  refine ⟨⟨sort_nestedRow _, ?_, not_arranges_nestedRow⟩, sort_shortRows _, ?_,
    not_arranges_shortRows _⟩
  · simp [nestedRow, OrderByRow.toStruct, postSort, postSortLoop, sequenceAddResult, isNothing]
  · simp [shortRows, OrderByRow.toStruct, postSort, postSortLoop, sequenceAddResult, isNothing]

end Loxim.QueryExecutor.QueryResult
