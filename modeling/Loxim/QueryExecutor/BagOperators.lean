import Loxim.Lib.SortedMerge
import Loxim.QueryExecutor.AddResult

/-!
# Operators on bags

The union adds both arguments to a new bag. Intersection and difference copy them, sort the copies
and read them side by side; what they find is added to the result one by one, and so are the
distinct elements of a sorted copy.
-/

namespace Loxim.QueryExecutor.QueryResult

-- ---------------------------------------------------------------------------
-- The operators
-- ---------------------------------------------------------------------------

/-- What `sortBag` may leave. -/
structure SortBag (text : QueryResult → Text) (bag bag' : List QueryResult) : Prop where
  perm : bag'.Perm bag
  sorted : Ascends (lessThan text) bag'

inductive MergeOp
  | bagIntersect
  | bagMinus
deriving DecidableEq

/-- The arguments of an operator. They may be one object, and then what an operation does to one
is done to both. -/
structure Arguments where
  lArg : QueryResult
  rArg : QueryResult
  oneObject : Bool
  same : oneObject = true → lArg = rArg

/-- The other argument, after an operation that left `arg` of the first one. -/
def Arguments.beside (args : Arguments) (other arg : QueryResult) : QueryResult :=
  if args.oneObject then arg else other

def bagUnion (args : Arguments) : List QueryResult :=
  let final := bagAdd [] args.lArg
  (bagAdd final.content (args.beside args.rArg final.added)).content

section

variable (text : QueryResult → Text) (sortBag : List QueryResult → List QueryResult)

/-- The loop over the sorted bags. -/
def mergeLoop (op : MergeOp) :
    List QueryResult → List QueryResult → List QueryResult → List QueryResult
  | final, [], _ => final
  | final, leftElem :: leftBag, [] =>
    mergeLoop op (if op = .bagMinus then (bagAdd final leftElem).content else final) leftBag []
  | final, leftElem :: leftBag, rightElem :: rightBag =>
    if equal text leftElem rightElem then
      mergeLoop op (if op = .bagIntersect then (bagAdd final leftElem).content else final) leftBag
        rightBag
    else if lessThan text leftElem rightElem then
      mergeLoop op (if op = .bagMinus then (bagAdd final leftElem).content else final) leftBag
        (rightElem :: rightBag)
    else mergeLoop op final (leftElem :: leftBag) rightBag
termination_by _ leftBag rightBag => leftBag.length + rightBag.length

def bagMerge (op : MergeOp) (args : Arguments) : List QueryResult :=
  let leftBag := bagAdd [] args.lArg
  let rightBag := bagAdd [] (args.beside args.rArg leftBag.added)
  if leftBag.content.length = 0 ∨ rightBag.content.length = 0 then
    if op = .bagMinus then (bagAdd [] (args.beside leftBag.added rightBag.added)).content else []
  else mergeLoop text op [] (sortBag leftBag.content) (sortBag rightBag.content)

def distinctLoop : List QueryResult → QueryResult → List QueryResult → List QueryResult
  | final, _, [] => final
  | final, current, next :: bagArg =>
    if notEqual text next current then distinctLoop (bagAdd final next).content next bagArg
    else distinctLoop final current bagArg

def distinct (arg : QueryResult) : List QueryResult :=
  match sortBag (bagAdd [] arg).content with
  | [] => []
  | current :: bagArg => distinctLoop text (bagAdd [] current).content current bagArg

end

-- ---------------------------------------------------------------------------
-- Multisets
-- ---------------------------------------------------------------------------

section

variable (text : QueryResult → Text)

/-- How often an argument has a value. -/
def occurrences (arg v : QueryResult) : Nat := arg.pieces.countP (equal text v)

/-- The result has elements of `source`, every value as often as `n` says. -/
structure Makes (result source : List QueryResult) (n : QueryResult → Nat) : Prop where
  source : ∀ r ∈ result, r ∈ source
  count : ∀ v, result.countP (equal text v) = n v

def MultisetSum (args : Arguments) : Prop :=
  Makes text (bagUnion args) (args.lArg.pieces ++ args.rArg.pieces) fun v =>
    occurrences text args.lArg v + occurrences text args.rArg v

def MultisetIntersection (args : Arguments) : Prop :=
  ∀ sortBag : List QueryResult → List QueryResult, (∀ bag, SortBag text bag (sortBag bag)) →
    Makes text (bagMerge text sortBag .bagIntersect args) args.lArg.pieces fun v =>
      min (occurrences text args.lArg v) (occurrences text args.rArg v)

def MultisetDifference (args : Arguments) : Prop :=
  ∀ sortBag : List QueryResult → List QueryResult, (∀ bag, SortBag text bag (sortBag bag)) →
    Makes text (bagMerge text sortBag .bagMinus args) args.lArg.pieces fun v =>
      occurrences text args.lArg v - occurrences text args.rArg v

def OneOfEach (arg : QueryResult) : Prop :=
  ∀ sortBag : List QueryResult → List QueryResult, (∀ bag, SortBag text bag (sortBag bag)) →
    Makes text (distinct text sortBag arg) arg.pieces fun v => min 1 (occurrences text arg v)

end

/-- No bag or sequence that is taken is more than nothing, and when only nothings are taken, the
bags and sequences among them are empty. -/
structure Flat (elements : List QueryResult) (taken : QueryResult → Prop) : Prop where
  collections : ∀ x ∈ elements, taken x → x.contents?.isSome → x.isNothing = true
  nothings : (∃ x ∈ elements, taken x ∧ x.isNothing = false) ∨
    ∀ x ∈ elements, taken x → x.raw = []

-- ---------------------------------------------------------------------------
-- Equal results have the same shape
-- ---------------------------------------------------------------------------

variable {text : QueryResult → Text} {a b c v : QueryResult} {l l' bag : List QueryResult}
  {n : Nat}

theorem isNothing_bag (l : List QueryResult) :
    (QueryResult.bag l).isNothing = (QueryResult.struct l).isNothing := by
  match l with
  | [] | [_] | _ :: _ :: _ => simp [isNothing]

theorem isNothing_sequence (l : List QueryResult) :
    (QueryResult.sequence l).isNothing = (QueryResult.struct l).isNothing := by
  match l with
  | [] | [_] | _ :: _ :: _ => simp [isNothing]

theorem depths_perm (h : l.Perm l') : depths l = depths l' := by
  induction h with
  | nil => rfl
  | cons a _ ih => rw [depths, depths, ih]
  | swap a b l => rw [depths, depths, depths, depths, max_left_comm]
  | trans _ _ ih ih' => exact ih.trans ih'

theorem shape_of_forall₂ (h : List.Forall₂ (fun a b : QueryResult =>
      a.depth = b.depth ∧ a.isNothing = b.isNothing) l l') :
    depths l = depths l' ∧ (QueryResult.struct l).isNothing = (QueryResult.struct l').isNothing := by
  constructor
  · induction h with
    | nil => rfl
    | cons hab _ ih => rw [depths, depths, hab.1, ih]
  · match l, l', h with
    | [], [], .nil => rfl
    | [a], [b], .cons hab .nil => simpa [isNothing] using hab.2
    | _ :: _ :: _, _ :: _ :: _, .cons _ (.cons _ _) => simp [isNothing]

theorem isNothing_struct_perm (h : l.Perm l') :
    (QueryResult.struct l).isNothing = (QueryResult.struct l').isNothing := by
  match l, l', h.length_eq with
  | [], [], _ => rfl
  | [a], [b], _ => rw [List.perm_singleton.mp h]
  | _ :: _ :: _, _ :: _ :: _, _ => simp [isNothing]

theorem key_shape (ha : a.depth ≤ n) (hb : b.depth ≤ n) (h : key text n a = key text n b) :
    a.depth = b.depth ∧ a.isNothing = b.isNothing ∧
      a.contents?.map List.length = b.contents?.map List.length := by
  induction n generalizing a b with
  | zero => exact absurd ha (Nat.not_le.mpr a.depth_pos)
  | succ n ih =>
    have hparts {l l' : List QueryResult} (hl : depths l ≤ n) (hl' : depths l' ≤ n)
        (hkeys : (l.map (key text n)).insertionSort (· ≤ ·) =
          (l'.map (key text n)).insertionSort (· ≤ ·)) :
        depths l = depths l' ∧
          (QueryResult.struct l).isNothing = (QueryResult.struct l').isNothing := by
      have hperm : (l.map (key text n)).Perm (l'.map (key text n)) :=
        (List.perm_insertionSort (· ≤ ·) _).symm.trans
          ((List.Perm.of_eq hkeys).trans (List.perm_insertionSort (· ≤ ·) _))
      obtain ⟨l'', hl'', hsame⟩ := map_perm_iff.mp hperm
      rw [List.forall₂_iff_zip] at hsame
      have hshape : List.Forall₂ (fun a b : QueryResult =>
          a.depth = b.depth ∧ a.isNothing = b.isNothing) l l'' := by
        refine List.forall₂_iff_zip.mpr ⟨hsame.1, fun {a b} hab => ?_⟩
        obtain ⟨hamem, hbmem⟩ := List.of_mem_zip hab
        obtain ⟨hdepth, hnothing, -⟩ := ih ((depth_le_depths hamem).trans hl)
          ((depth_le_depths (hl''.mem_iff.mp hbmem)).trans hl') (hsame.2 hab)
        exact ⟨hdepth, hnothing⟩
      obtain ⟨hdepths, hnothing⟩ := shape_of_forall₂ hshape
      exact ⟨hdepths.trans (depths_perm hl''), hnothing.trans (isNothing_struct_perm hl'')⟩
    cases a with
    | binder name item =>
      cases b with
      | binder name' item' =>
        simp only [key, Key.mk_inj, List.cons.injEq, and_true, true_and] at h
        obtain ⟨hdepth, -⟩ := ih (Nat.le_of_succ_le_succ ha) (Nat.le_of_succ_le_succ hb) h.2
        exact ⟨congrArg (· + 1) hdepth, rfl, rfl⟩
      | _ => simp [key, Key.mk_inj] at h
    | struct l =>
      cases b with
      | struct l' =>
        simp only [key, Key.mk_inj, true_and] at h
        obtain ⟨hdepths, hnothing⟩ :=
          hparts (Nat.le_of_succ_le_succ ha) (Nat.le_of_succ_le_succ hb) h.2
        exact ⟨congrArg (· + 1) hdepths, hnothing, rfl⟩
      | _ => simp [key, Key.mk_inj] at h
    | bag l =>
      cases b with
      | bag l' =>
        simp only [key, Key.mk_inj, true_and] at h
        obtain ⟨hdepths, hnothing⟩ :=
          hparts (Nat.le_of_succ_le_succ ha) (Nat.le_of_succ_le_succ hb) h.2
        rw [← isNothing_bag, ← isNothing_bag] at hnothing
        exact ⟨congrArg (· + 1) hdepths, hnothing, congrArg some h.1⟩
      | _ => simp [key, Key.mk_inj] at h
    | sequence l =>
      cases b with
      | sequence l' =>
        simp only [key, Key.mk_inj, true_and] at h
        obtain ⟨hdepths, hnothing⟩ :=
          hparts (Nat.le_of_succ_le_succ ha) (Nat.le_of_succ_le_succ hb) h.2
        rw [← isNothing_sequence, ← isNothing_sequence] at hnothing
        exact ⟨congrArg (· + 1) hdepths, hnothing, congrArg some h.1⟩
      | _ => simp [key, Key.mk_inj] at h
    | _ => cases b <;> first | exact ⟨rfl, rfl, rfl⟩ | simp [key, Key.mk_inj] at h

theorem equal_shape (h : equal text a b = true) : a.depth = b.depth ∧ a.isNothing = b.isNothing ∧
    a.contents?.map List.length = b.contents?.map List.length :=
  key_shape (le_max_left _ _) (le_max_right _ _)
    ((equal_iff (le_max_left _ _) (le_max_right _ _)).mp h)

theorem ordered (text : QueryResult → Text) : Ordered (lessThan text) (equal text) :=
  ⟨lessThan_strictWeak text, equal_iff_incomparable text⟩

/-- What would be added to an empty bag is nothing for both or for neither. -/
theorem raw_eq_nil_congr (h : equal text a b = true) : a.raw = [] ↔ b.raw = [] := by
  obtain ⟨-, hnothing, hlength⟩ := equal_shape h
  rw [raw, raw, whole, whole, hnothing]
  cases hal : a.contents? with
  | none =>
    cases hbl : b.contents? with
    | none => simp only [Option.getD_none]; split <;> simp
    | some l' => rw [hal, hbl] at hlength; contradiction
  | some l =>
    cases hbl : b.contents? with
    | none => rw [hal, hbl] at hlength; contradiction
    | some l' =>
      rw [hal, hbl] at hlength
      rw [Option.getD_some, Option.getD_some, ← List.length_eq_zero_iff, ← List.length_eq_zero_iff,
        Option.some.inj hlength]

/-- Bags and sequences come behind all other results but nothing. -/
theorem lessThan_contents (ha : a.contents? = none) (hne : a.isNothing = false)
    (hb : b.contents?.isSome) : lessThan text a b = true := by
  cases b with
  | bag l | sequence l =>
    rw [lessThan, ← Nat.sub_add_cancel (Nat.le_trans a.depth_pos (le_max_left a.depth _))]
    cases a with
    | bag l' | sequence l' => contradiction
    | nothing => contradiction
    | _ => rfl
  | _ => contradiction

theorem pieces_of_isNothing (h : a.isNothing = true) : a.pieces = [] := by
  have hlist {l : List QueryResult} (h : (QueryResult.struct l).isNothing = true) :
      (l.filter fun r => !r.isNothing) = [] := by
    match l with
    | [] => rfl
    | [r] => simpa [isNothing] using h
    | _ :: _ :: _ => simp [isNothing] at h
  cases a with
  | bag l => exact hlist ((isNothing_bag l).symm.trans h)
  | sequence l => exact hlist ((isNothing_sequence l).symm.trans h)
  | _ =>
    rw [pieces, whole, if_pos h]
    all_goals rintro l heq; cases heq

theorem raw_of_none (h : a.contents? = none) (hne : a.isNothing = false) : a.raw = [a] := by
  rw [raw, h, Option.getD_none, whole, if_neg (by rw [hne]; exact Bool.false_ne_true)]

theorem pieces_of_none (h : a.contents? = none) (hne : a.isNothing = false) : a.pieces = [a] := by
  rw [← filter_raw, raw_of_none h hne]
  simp [hne]

theorem mem_raw_of_mem_pieces (h : a ∈ b.pieces) : a ∈ b.raw ∧ a.isNothing = false := by
  rw [← filter_raw] at h
  simpa using List.mem_filter.mp h

/-- What stands in a collection is less deep. -/
theorem depth_lt_of_mem_raw (hb : b.contents?.isSome) (h : a ∈ b.raw) : a.depth < b.depth := by
  cases b with
  | bag l | sequence l => exact Nat.lt_succ_of_le (depth_le_depths h)
  | _ => contradiction

theorem added_bagAdd_nil (r : QueryResult) : (bagAdd [] r).added = r := by
  cases r <;> rfl

theorem Arguments.beside_self (args : Arguments) : args.beside args.rArg args.lArg = args.rArg := by
  rw [beside]
  split
  · exact args.same ‹_›
  · rfl

-- ---------------------------------------------------------------------------
-- Counting
-- ---------------------------------------------------------------------------

/-- A value is not nothing when it is equal to something that is not. -/
theorem countP_present (l : List QueryResult) (v : QueryResult) :
    (l.filter fun r => !r.isNothing).countP (equal text v) =
      if v.isNothing then 0 else l.countP (equal text v) := by
  rw [List.countP_filter]
  split
  · rename_i hv
    rw [List.countP_eq_zero]
    rintro x - hx
    rw [Bool.and_eq_true, Bool.not_eq_true'] at hx
    rw [← (equal_shape hx.1).2.1, hv] at hx
    exact absurd hx.2 (by simp)
  · rename_i hv
    apply List.countP_congr
    rintro x -
    rw [Bool.and_eq_true, and_iff_left_iff_imp]
    intro hx
    rw [← (equal_shape hx).2.1]
    simpa using hv

theorem occurrences_eq (arg v : QueryResult) :
    occurrences text arg v = if v.isNothing then 0 else arg.raw.countP (equal text v) := by
  rw [occurrences, ← filter_raw, countP_present]

/-- The counts tell whether anything came in beside `l`. -/
theorem makes_append_iff {result source extra : List QueryResult} {count : QueryResult → Nat}
    (hperm : result.Perm (source ++ extra)) (hcount : ∀ v, source.countP (equal text v) = count v) :
    Makes text result source count ↔ extra = [] := by
  constructor
  · intro h
    cases extra with
    | nil => rfl
    | cons x extra =>
      have hx := h.count x
      rw [hperm.countP_eq, List.countP_append, hcount, List.countP_cons,
        if_pos ((ordered text).refl x)] at hx
      omega
  · rintro rfl
    rw [List.append_nil] at hperm
    exact ⟨fun r hr => hperm.mem_iff.mp hr, fun v => (hperm.countP_eq _).trans (hcount v)⟩

theorem multisetSum_iff (args : Arguments) : MultisetSum text args ↔
    args.lArg.nothings = [] ∧ (args.lArg.raw = [] → args.rArg.nothings = []) := by
  have hunion : bagUnion args = buildBag [args.lArg, args.rArg] := by
    rw [bagUnion, added_bagAdd_nil, args.beside_self, buildBag]
    rfl
  have hcount (v : QueryResult) : (args.lArg.pieces ++ args.rArg.pieces).countP (equal text v) =
      occurrences text args.lArg v + occurrences text args.rArg v := List.countP_append
  rw [MultisetSum, hunion]
  by_cases hraw : args.lArg.raw = []
  · have hbuild : (buildBag [args.lArg, args.rArg]).Perm
        ((args.lArg.pieces ++ args.rArg.pieces) ++ args.rArg.nothings) := by
      rw [buildBag, List.foldl_cons, content_bagAdd_nil, hraw, List.foldl_cons, List.foldl_nil,
        content_bagAdd_nil, pieces_of_raw hraw, List.nil_append]
      exact raw_perm
    have hnothings : args.lArg.nothings = [] := by
      rw [nothings, hraw]
      rfl
    rw [makes_append_iff hbuild hcount]
    simp [hraw, hnothings]
  · have hbuild : (buildBag [args.lArg, args.rArg]).Perm
        ((args.lArg.pieces ++ args.rArg.pieces) ++ args.lArg.nothings) := by
      simpa using @buildBag_cons [args.rArg] args.lArg hraw
    rw [makes_append_iff hbuild hcount]
    simp [hraw]

-- ---------------------------------------------------------------------------
-- Adding what was found
-- ---------------------------------------------------------------------------

/-- The first element that brings something to an empty bag brings its nothings. -/
theorem buildBag_first {skipped found : List QueryResult} (hskip : ∀ x ∈ skipped, x.raw = [])
    (h : a.raw ≠ []) : (buildBag (skipped ++ a :: found)).Perm
      ((skipped ++ a :: found).flatMap pieces ++ a.nothings) := by
  induction skipped with
  | nil => exact buildBag_cons h
  | cons x skipped ih =>
    obtain ⟨hx, hrest⟩ := List.forall_mem_cons.mp hskip
    have hbuild : buildBag (x :: (skipped ++ a :: found)) = buildBag (skipped ++ a :: found) := by
      rw [buildBag, List.foldl_cons, content_bagAdd_nil, hx, buildBag]
    rw [List.cons_append, hbuild, List.flatMap_cons, pieces_of_raw hx, List.nil_append]
    exact ih hrest

theorem exists_first (l : List QueryResult) : (∀ x ∈ l, x.raw = []) ∨
    ∃ skipped a found, l = skipped ++ a :: found ∧ (∀ x ∈ skipped, x.raw = []) ∧ a.raw ≠ [] := by
  induction l with
  | nil => exact .inl fun x hx => absurd hx List.not_mem_nil
  | cons b l ih =>
    by_cases hb : b.raw = []
    · obtain hall | ⟨skipped, a, found, rfl, hskip, ha⟩ := ih
      · exact .inl (List.forall_mem_cons.mpr ⟨hb, hall⟩)
      · exact .inr ⟨b :: skipped, a, found, rfl, List.forall_mem_cons.mpr ⟨hb, hskip⟩, ha⟩
    · exact .inr ⟨[], b, l, rfl, fun x hx => absurd hx List.not_mem_nil, hb⟩

theorem flatMap_pieces (h : ∀ x ∈ l, x.contents?.isSome → x.isNothing = true) :
    l.flatMap pieces = l.filter fun r => !r.isNothing := by
  induction l with
  | nil => rfl
  | cons a l ih =>
    obtain ⟨ha, hrest⟩ := List.forall_mem_cons.mp h
    rw [List.flatMap_cons, ih hrest, List.filter_cons]
    cases hnothing : a.isNothing with
    | true => rw [pieces_of_isNothing hnothing]; rfl
    | false =>
      have hnone : a.contents? = none := by
        rw [← Option.not_isSome_iff_eq_none]
        intro hsome
        rw [ha hsome] at hnothing
        contradiction
      rw [pieces_of_none hnone hnothing]
      rfl

theorem raw_nil_of_buildBag (h : ∀ x ∈ l, x.raw = []) : buildBag l = [] := by
  induction l with
  | nil => rfl
  | cons a l ih =>
    obtain ⟨ha, hrest⟩ := List.forall_mem_cons.mp h
    rw [buildBag, List.foldl_cons, content_bagAdd_nil, ha]
    exact ih hrest

theorem Flat.buildBag_perm (hl : Ascends (lessThan text) l) (h : Flat l fun _ => True) :
    (buildBag l).Perm (l.filter fun r => !r.isNothing) := by
  have hcollections (x : QueryResult) (hx : x ∈ l) := h.collections x hx trivial
  rw [← flatMap_pieces hcollections]
  obtain hall | ⟨skipped, a, found, rfl, hskip, ha⟩ := exists_first l
  · rw [raw_nil_of_buildBag hall]
    have hpieces : l.flatMap pieces = [] :=
      List.flatMap_eq_nil_iff.mpr fun x hx => pieces_of_raw (hall x hx)
    rw [hpieces]
  · have hnothings : a.nothings = [] := by
      cases hcontents : a.contents? with
      | none =>
        rw [QueryResult.nothings, raw, hcontents, Option.getD_none, whole]
        split
        · rfl
        · rename_i hne
          simpa using hne
      | some c =>
        have hamem : a ∈ skipped ++ a :: found := by simp
        obtain ⟨x, hx, -, hxne⟩ | hempty := h.nothings
        · -- `x` would have come first
          have hxnone : x.contents? = none := by
            rw [← Option.not_isSome_iff_eq_none]
            intro hsome
            rw [hcollections x hx hsome] at hxne
            contradiction
          have hless : lessThan text x a = true :=
            lessThan_contents hxnone hxne (by rw [hcontents]; rfl)
          have hxraw : x.raw ≠ [] := by
            rw [raw_of_none hxnone hxne]
            exact List.cons_ne_nil x []
          have hafter : x ∈ found := by
            rcases List.mem_append.mp hx with hx | hx
            · exact absurd (hskip x hx) hxraw
            · rcases List.mem_cons.mp hx with rfl | hx
              · rw [hxnone] at hcontents
                contradiction
              · exact hx
          have hsorted := (List.pairwise_cons.mp (List.pairwise_append.mp hl).2.1).1 x hafter
          rw [hless] at hsorted
          contradiction
        · exact absurd (hempty a hamem trivial) ha
    have hperm : (buildBag (skipped ++ a :: found)).Perm _ := buildBag_first hskip ha
    rwa [hnothings, List.append_nil] at hperm

theorem exists_deepest {p : QueryResult → Prop} (h : ∃ x ∈ l, p x) :
    ∃ x ∈ l, p x ∧ ∀ y ∈ l, p y → y.depth ≤ x.depth := by
  induction l with
  | nil =>
    obtain ⟨x, hx, -⟩ := h
    exact absurd hx List.not_mem_nil
  | cons a l ih =>
    by_cases hrest : ∃ x ∈ l, p x
    · obtain ⟨x, hx, hpx, hmax⟩ := ih hrest
      by_cases ha : p a ∧ x.depth < a.depth
      · refine ⟨a, List.mem_cons_self, ha.1, ?_⟩
        rintro y (_ | ⟨_, hy⟩) hpy
        · exact Nat.le_refl _
        · exact (hmax y hy hpy).trans ha.2.le
      · refine ⟨x, List.mem_cons_of_mem a hx, hpx, ?_⟩
        rintro y (_ | ⟨_, hy⟩) hpy
        · exact Nat.le_of_not_lt fun hlt => ha ⟨hpy, hlt⟩
        · exact hmax y hy hpy
    · obtain ⟨x, hx, hpx⟩ := h
      rcases List.mem_cons.mp hx with rfl | hx
      · refine ⟨x, List.mem_cons_self, hpx, ?_⟩
        rintro y (_ | ⟨_, hy⟩) hpy
        · exact Nat.le_refl _
        · exact absurd ⟨y, hy, hpy⟩ hrest
      · exact absurd ⟨x, hx, hpx⟩ hrest

theorem isNothing_of_raw (h : a.raw = []) : a.isNothing = true := by
  cases hnothing : a.isNothing with
  | true => rfl
  | false =>
    cases a with
    | bag l | sequence l =>
      change l = [] at h
      subst h
      simp [isNothing] at hnothing
    | _ =>
      rw [raw_of_none rfl hnothing] at h
      contradiction

/-- The deepest collection that is taken apart is missing in the result. -/
theorem collections_of_count (hperm : (buildBag l).Perm (l.flatMap pieces ++ a.nothings))
    (h : ∀ v, (buildBag l).countP (equal text v) =
      (l.filter fun r => !r.isNothing).countP (equal text v)) :
    ∀ x ∈ l, x.contents?.isSome → x.isNothing = true := by
  by_contra hcon
  have hex : ∃ x ∈ l, x.contents?.isSome ∧ x.isNothing = false := by
    simpa using hcon
  obtain ⟨c, hc, ⟨hsome, hne⟩, hmax⟩ := exists_deepest hex
  have hcount : 0 < (buildBag l).countP (equal text c) := by
    rw [h, List.countP_pos_iff]
    exact ⟨c, List.mem_filter.mpr ⟨hc, by rw [hne]; rfl⟩, (ordered text).refl c⟩
  obtain ⟨y, hy, hequal⟩ := List.countP_pos_iff.mp hcount
  obtain ⟨hdepth, hnothing, hlength⟩ := equal_shape hequal
  rcases List.mem_append.mp (hperm.mem_iff.mp hy) with hy | hy
  · obtain ⟨p, hp, hyp⟩ := List.mem_flatMap.mp hy
    obtain ⟨hyraw, -⟩ := mem_raw_of_mem_pieces hyp
    cases hpcontents : p.contents? with
    | none =>
      have hwhole : y ∈ p.whole := by rwa [raw, hpcontents] at hyraw
      have hyp : y = p := by
        rw [whole] at hwhole
        split at hwhole
        · contradiction
        · exact List.mem_singleton.mp hwhole
      rw [hyp, hpcontents, Option.map_none, Option.map_eq_none_iff] at hlength
      rw [hlength] at hsome
      contradiction
    | some l' =>
      have hpsome : p.contents?.isSome := by rw [hpcontents]; rfl
      have hpne : p.isNothing = false := by
        cases hpnothing : p.isNothing with
        | false => rfl
        | true =>
          rw [pieces_of_isNothing hpnothing] at hyp
          contradiction
      have hless := depth_lt_of_mem_raw hpsome hyraw
      have hle := hmax p hp ⟨hpsome, hpne⟩
      omega
  · rw [nothings, List.mem_filter, ← hnothing, hne] at hy
    exact absurd hy.2 Bool.false_ne_true

theorem flat_of_count (h : ∀ v, (buildBag l).countP (equal text v) =
      (l.filter fun r => !r.isNothing).countP (equal text v)) : Flat l fun _ => True := by
  obtain hall | ⟨skipped, a, found, rfl, hskip, ha⟩ := exists_first l
  · exact ⟨fun x hx _ _ => isNothing_of_raw (hall x hx), .inr fun x hx _ => hall x hx⟩
  · have hperm : (buildBag (skipped ++ a :: found)).Perm _ := buildBag_first hskip ha
    refine ⟨fun x hx _ => collections_of_count hperm h x hx, ?_⟩
    by_cases hex : ∃ x ∈ skipped ++ a :: found, x.isNothing = false
    · obtain ⟨x, hx, hne⟩ := hex
      exact .inl ⟨x, hx, trivial, hne⟩
    · have hall (x : QueryResult) (hx : x ∈ skipped ++ a :: found) : x.isNothing = true := by
        cases hnothing : x.isNothing with
        | true => rfl
        | false => exact absurd ⟨x, hx, hnothing⟩ hex
      have hfilter : ((skipped ++ a :: found).filter fun r => !r.isNothing) = [] :=
        List.filter_eq_nil_iff.mpr fun x hx => by rw [hall x hx]; exact Bool.false_ne_true
      have hempty : buildBag (skipped ++ a :: found) = [] := by
        rw [List.eq_nil_iff_forall_not_mem]
        intro x hx
        have hzero := h x
        rw [hfilter, List.countP_nil, List.countP_eq_zero] at hzero
        exact hzero x hx ((ordered text).refl x)
      rw [hempty, List.nil_perm, List.append_eq_nil_iff] at hperm
      have hraw := @raw_perm a
      rw [pieces_of_isNothing (hall a (by simp)), hperm.2, List.append_nil, List.perm_nil] at hraw
      exact absurd hraw ha

/-- `found` stands for what is taken of an argument. -/
theorem makes_buildBag_iff {arg : QueryResult} {found : List QueryResult}
    {taken : QueryResult → Prop} {count : QueryResult → Nat}
    (hsorted : Ascends (lessThan text) found) (hsource : ∀ x ∈ found, x ∈ arg.raw ∧ taken x)
    (htaken : ∀ x ∈ arg.raw, taken x → ∃ y ∈ found, equal text x y = true)
    (hcount : ∀ v, (found.filter fun r => !r.isNothing).countP (equal text v) = count v) :
    Makes text (buildBag found) arg.pieces count ↔ Flat arg.raw taken := by
  constructor
  · intro h
    have hflat : Flat found fun _ => True :=
      flat_of_count fun v => (h.count v).trans (hcount v).symm
    constructor
    · intro x hx htx hsome
      obtain ⟨y, hy, hequal⟩ := htaken x hx htx
      obtain ⟨-, hnothing, hlength⟩ := equal_shape hequal
      rw [hnothing]
      apply hflat.collections y hy trivial
      rwa [← Option.isSome_map (f := List.length), ← hlength, Option.isSome_map]
    · obtain ⟨x, hx, -, hne⟩ | hempty := hflat.nothings
      · exact .inl ⟨x, (hsource x hx).1, (hsource x hx).2, hne⟩
      · refine .inr fun x hx htx => ?_
        obtain ⟨y, hy, hequal⟩ := htaken x hx htx
        exact (raw_eq_nil_congr hequal).mpr (hempty y hy trivial)
  · intro h
    have hflat : Flat found fun _ => True := by
      constructor
      · intro x hx _ hsome
        exact h.collections x (hsource x hx).1 (hsource x hx).2 hsome
      · obtain ⟨x, hx, htx, hne⟩ | hempty := h.nothings
        · obtain ⟨y, hy, hequal⟩ := htaken x hx htx
          exact .inl ⟨y, hy, trivial, by rw [← (equal_shape hequal).2.1, hne]⟩
        · exact .inr fun x hx _ => hempty x (hsource x hx).1 (hsource x hx).2
    have hperm := hflat.buildBag_perm hsorted
    constructor
    · intro r hr
      obtain ⟨hmem, hne⟩ := List.mem_filter.mp (hperm.mem_iff.mp hr)
      rw [← filter_raw]
      exact List.mem_filter.mpr ⟨(hsource r hmem).1, hne⟩
    · intro v
      rw [hperm.countP_eq, hcount]

-- ---------------------------------------------------------------------------
-- Intersection and difference
-- ---------------------------------------------------------------------------

/-- What the loop finds is added one by one. -/
theorem mergeLoop_eq (op : MergeOp) (final leftBag rightBag : List QueryResult) :
    mergeLoop text op final leftBag rightBag =
      (picked (lessThan text) (equal text) (op = .bagIntersect) (op = .bagMinus) leftBag
        rightBag).foldl (fun bag r => (bagAdd bag r).content) final := by
  fun_induction mergeLoop text op final leftBag rightBag with
  | case1 final rightBag => rw [picked, List.foldl_nil]
  | case2 final leftElem leftBag ih =>
    rw [dite_eq_ite] at ih
    rw [ih, picked]
    cases op with
    | bagIntersect => rfl
    | bagMinus => rfl
  | case3 final leftElem leftBag rightElem rightBag hequal ih =>
    rw [dite_eq_ite] at ih
    rw [ih, picked, if_pos hequal]
    cases op with
    | bagIntersect => rfl
    | bagMinus => rfl
  | case4 final leftElem leftBag rightElem rightBag hequal hless ih =>
    rw [dite_eq_ite] at ih
    rw [ih, picked, if_neg hequal, if_pos hless]
    cases op with
    | bagIntersect => rfl
    | bagMinus => rfl
  | case5 final leftElem leftBag rightElem rightBag hequal hless ih =>
    rw [ih, picked, if_neg hequal, if_neg hless]

theorem bagMerge_eq (sortBag : List QueryResult → List QueryResult) (op : MergeOp)
    (args : Arguments) : bagMerge text sortBag op args =
      if args.lArg.raw = [] ∨ args.rArg.raw = [] then
        if op = .bagMinus then args.lArg.raw else []
      else mergeLoop text op [] (sortBag args.lArg.raw) (sortBag args.rArg.raw) := by
  have hleft : args.beside args.lArg args.rArg = args.lArg := by
    rw [Arguments.beside]
    split
    · exact (args.same ‹_›).symm
    · rfl
  simp only [bagMerge, added_bagAdd_nil, args.beside_self, hleft, content_bagAdd_nil,
    List.length_eq_zero_iff]

theorem SortBag.countP_eq {bag' : List QueryResult} (h : SortBag text bag bag')
    (v : QueryResult) : bag'.countP (equal text v) = bag.countP (equal text v) :=
  h.perm.countP_eq _

/-- What is found by the loop stands for what both have, or what the left argument has more
often. -/
theorem makes_mergeLoop_iff {op : MergeOp} {lArg : QueryResult}
    {leftBag rightBag : List QueryResult} (hleft : SortBag text lArg.raw leftBag)
    (taken : QueryResult → Prop) {count : QueryResult → Nat}
    (htaken : ∀ v, taken v ↔ 0 < (picked (lessThan text) (equal text) (op = .bagIntersect)
      (op = .bagMinus) leftBag rightBag).countP (equal text v))
    (hcount : ∀ v, count v = if v.isNothing then 0 else
      (picked (lessThan text) (equal text) (op = .bagIntersect) (op = .bagMinus) leftBag
        rightBag).countP (equal text v)) :
    Makes text (mergeLoop text op [] leftBag rightBag) lArg.pieces count ↔
      Flat lArg.raw taken := by
  rw [mergeLoop_eq]
  refine makes_buildBag_iff (hleft.sorted.sublist picked_sublist) ?_ ?_ ?_
  · intro x hx
    refine ⟨hleft.perm.mem_iff.mp (picked_sublist.subset hx), (htaken x).mpr ?_⟩
    exact List.countP_pos_iff.mpr ⟨x, hx, (ordered text).refl x⟩
  · intro x _ htx
    exact List.countP_pos_iff.mp ((htaken x).mp htx)
  · intro v
    rw [countP_present, hcount]

/-- Both have it. -/
def InBoth (text : QueryResult → Text) (args : Arguments) (v : QueryResult) : Prop :=
  0 < args.lArg.raw.countP (equal text v) ∧ 0 < args.rArg.raw.countP (equal text v)

/-- The left argument has it more often. -/
def LeftOver (text : QueryResult → Text) (args : Arguments) (v : QueryResult) : Prop :=
  args.rArg.raw.countP (equal text v) < args.lArg.raw.countP (equal text v)

theorem sortBag_sort (bag : List QueryResult) : SortBag text bag (sort (lessThan text) bag) := by
  refine ⟨sort_perm _ bag, ?_⟩
  have hkeys : Orders (lessThan text) (key text (depths bag)) (· ∈ bag) :=
    fun a b ha hb => lessThan_iff (depth_le_depths ha) (depth_le_depths hb)
  have hsorted := List.pairwise_insertionSort (· ≤ ·) (bag.map (key text (depths bag)))
  rw [← map_sort hkeys, List.pairwise_map] at hsorted
  refine hsorted.imp_of_mem fun {a b} ha hb hle => ?_
  rw [← Bool.not_eq_true, hkeys b a (mem_sort.mp hb) (mem_sort.mp ha)]
  exact not_lt.mpr hle

theorem multisetIntersection_iff (args : Arguments) :
    MultisetIntersection text args ↔ Flat args.lArg.raw (InBoth text args) := by
  have hone (sortBag : List QueryResult → List QueryResult)
      (hsort : ∀ bag, SortBag text bag (sortBag bag)) :
      Makes text (bagMerge text sortBag .bagIntersect args) args.lArg.pieces (fun v =>
        min (occurrences text args.lArg v) (occurrences text args.rArg v)) ↔
      Flat args.lArg.raw (InBoth text args) := by
    rw [bagMerge_eq]
    split
    · rename_i hempty
      have hzero (v : QueryResult) : args.lArg.raw.countP (equal text v) = 0 ∨
          args.rArg.raw.countP (equal text v) = 0 := by
        rcases hempty with hempty | hempty
        · exact .inl (by rw [hempty, List.countP_nil])
        · exact .inr (by rw [hempty, List.countP_nil])
      refine iff_of_true ⟨fun r hr => absurd hr List.not_mem_nil, fun v => ?_⟩ ?_
      · rw [occurrences_eq, occurrences_eq, if_neg (by decide), List.countP_nil]
        rcases hzero v with hv | hv
        · simp [hv]
        · simp [hv]
      · have hnone (v : QueryResult) : ¬InBoth text args v := by
          rintro ⟨hl, hr⟩
          rcases hzero v with hv | hv
          · omega
          · omega
        exact ⟨fun x _ hx => absurd hx (hnone x), .inr fun x _ hx => absurd hx (hnone x)⟩
    · apply makes_mergeLoop_iff (hsort _) (InBoth text args)
      · intro v
        rw [(ordered text).countP_picked (hsort _).sorted (hsort _).sorted, InBoth,
          (hsort _).countP_eq, (hsort _).countP_eq]
        simp
      · intro v
        rw [(ordered text).countP_picked (hsort _).sorted (hsort _).sorted, occurrences_eq,
          occurrences_eq, (hsort _).countP_eq, (hsort _).countP_eq]
        cases v.isNothing <;> simp
  exact ⟨fun h => (hone _ sortBag_sort).mp (h _ sortBag_sort),
    fun h sortBag hsort => (hone sortBag hsort).mpr h⟩

theorem multisetDifference_iff (args : Arguments) : MultisetDifference text args ↔
    (args.rArg.raw = [] → args.lArg.nothings = []) ∧
    (args.rArg.raw ≠ [] → Flat args.lArg.raw (LeftOver text args)) := by
  have hone (sortBag : List QueryResult → List QueryResult)
      (hsort : ∀ bag, SortBag text bag (sortBag bag)) :
      Makes text (bagMerge text sortBag .bagMinus args) args.lArg.pieces (fun v =>
        occurrences text args.lArg v - occurrences text args.rArg v) ↔
      (args.rArg.raw = [] → args.lArg.nothings = []) ∧
      (args.rArg.raw ≠ [] → Flat args.lArg.raw (LeftOver text args)) := by
    rw [bagMerge_eq]
    by_cases hr : args.rArg.raw = []
    · -- the left argument as it is
      rw [if_pos (.inr hr), if_pos rfl, makes_append_iff raw_perm]
      · simp [hr]
      · intro v
        rw [occurrences_eq args.rArg, hr, List.countP_nil, ite_self, Nat.sub_zero, occurrences]
    · by_cases hl : args.lArg.raw = []
      · rw [if_pos (.inl hl), if_pos rfl, hl]
        refine iff_of_true ⟨fun r hr => absurd hr List.not_mem_nil, fun v => ?_⟩
          ⟨fun hempty => absurd hempty hr, fun _ => ?_⟩
        · rw [occurrences_eq, hl, List.countP_nil, ite_self, Nat.zero_sub]
        · exact ⟨fun x hx => absurd hx List.not_mem_nil, .inr fun x hx => absurd hx List.not_mem_nil⟩
      · rw [if_neg (by simp [hl, hr]), makes_mergeLoop_iff (hsort _) (LeftOver text args)]
        · simp [hr]
        · intro v
          rw [(ordered text).countP_picked (hsort _).sorted (hsort _).sorted, LeftOver,
            (hsort _).countP_eq, (hsort _).countP_eq]
          simp
        · intro v
          rw [(ordered text).countP_picked (hsort _).sorted (hsort _).sorted, occurrences_eq,
            occurrences_eq, (hsort _).countP_eq, (hsort _).countP_eq]
          cases v.isNothing <;> simp
  exact ⟨fun h => (hone _ sortBag_sort).mp (h _ sortBag_sort),
    fun h sortBag hsort => (hone sortBag hsort).mpr h⟩

-- ---------------------------------------------------------------------------
-- Distinct elements
-- ---------------------------------------------------------------------------

theorem distinctLoop_eq (final : List QueryResult) (current : QueryResult)
    (bagArg : List QueryResult) : distinctLoop text final current bagArg =
      (firsts (equal text) current bagArg).foldl (fun bag r => (bagAdd bag r).content) final := by
  induction bagArg generalizing final current with
  | nil => rfl
  | cons next bagArg ih =>
    rw [distinctLoop, firsts, notEqual]
    cases equal text next current with
    | true => exact ih final current
    | false => exact ih _ next

theorem countP_distinct {current : QueryResult} {bagArg : List QueryResult}
    (h : Ascends (lessThan text) (current :: bagArg)) (v : QueryResult) :
    (current :: firsts (equal text) current bagArg).countP (equal text v) =
      min 1 ((current :: bagArg).countP (equal text v)) := by
  rw [List.countP_cons, (ordered text).countP_firsts h, List.countP_cons]
  split
  · omega
  · rfl

theorem oneOfEach_iff (arg : QueryResult) :
    OneOfEach text arg ↔ Flat arg.raw fun _ => True := by
  have hone (sortBag : List QueryResult → List QueryResult)
      (hsort : ∀ bag, SortBag text bag (sortBag bag)) :
      Makes text (distinct text sortBag arg) arg.pieces (fun v => min 1 (occurrences text arg v)) ↔
      Flat arg.raw fun _ => True := by
    have hbag := hsort arg.raw
    rw [distinct, content_bagAdd_nil]
    cases hcases : sortBag arg.raw with
    | nil =>
      rw [hcases] at hbag
      have hempty : arg.raw = [] := hbag.perm.symm.eq_nil
      rw [hempty]
      refine iff_of_true ⟨fun r hr => absurd hr List.not_mem_nil, fun v => ?_⟩
        ⟨fun x hx => absurd hx List.not_mem_nil, .inr fun x hx => absurd hx List.not_mem_nil⟩
      rw [occurrences_eq, hempty, List.countP_nil, ite_self, Nat.min_zero]
    | cons current bagArg =>
      rw [hcases] at hbag
      have hsub : (current :: firsts (equal text) current bagArg).Sublist (current :: bagArg) :=
        (firsts_sublist current).cons_cons current
      have hbuild : distinctLoop text (bagAdd [] current).content current bagArg =
          buildBag (current :: firsts (equal text) current bagArg) := distinctLoop_eq _ _ _
      change Makes text (distinctLoop text (bagAdd [] current).content current bagArg) _ _ ↔ _
      rw [hbuild]
      apply makes_buildBag_iff (hbag.sorted.sublist hsub)
      · exact fun x hx => ⟨hbag.perm.mem_iff.mp (hsub.subset hx), trivial⟩
      · intro x hx _
        have hpos : 0 < (current :: bagArg).countP (equal text x) :=
          List.countP_pos_iff.mpr ⟨x, hbag.perm.mem_iff.mpr hx, (ordered text).refl x⟩
        rw [← List.countP_pos_iff, countP_distinct hbag.sorted]
        omega
      · intro v
        rw [countP_present, countP_distinct hbag.sorted, hbag.countP_eq, occurrences_eq]
        split
        · rfl
        · rfl
  exact ⟨fun h => (hone _ sortBag_sort).mp (h _ sortBag_sort),
    fun h sortBag hsort => (hone sortBag hsort).mpr h⟩

-- ---------------------------------------------------------------------------
-- When the operators are those of multisets
-- ---------------------------------------------------------------------------

def Arguments.apart (lArg rArg : QueryResult) : Arguments := ⟨lArg, rArg, false, nofun⟩

end Loxim.QueryExecutor.QueryResult
