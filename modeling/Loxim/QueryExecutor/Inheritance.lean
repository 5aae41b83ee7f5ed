import Loxim.Lib.Acyclic
import Loxim.QueryExecutor.ClassIndex

/-!
# Inheritance

The walks along the edges of the graph keep no account of the classes they have seen. They
return because the graph has no cycle, and it has none because a class is only updated after
a walk has not found it above its new superclasses.
-/

namespace Loxim.QueryExecutor

/-- What a walk stops with. A class that is looked up without a test is a null pointer when
it is not in the graph, and the stack has room for so many calls. -/
inductive WalkError
  | classDefNotFound
  | nullVertex
  | stackOverflow
  deriving DecidableEq

inductive SearchPhase
  | searching
  | skipOneStep
  | searchingStartClass
  deriving DecidableEq

/-- A loop that is left as soon as a call sets the flag. -/
def untilSet (call : UInt32 → Bool → Except WalkError Bool) :
    List UInt32 → Bool → Except WalkError Bool
  | [], flag => pure flag
  | i :: l, flag => do
    let flag ← call i flag
    if flag then pure flag else untilSet call l flag

/-- A loop that is left with the first method that is found. -/
def untilFound (call : UInt32 → Except WalkError (Option α)) :
    List UInt32 → Except WalkError (Option α)
  | [] => pure none
  | i :: l => do
    let found ← call i
    if found.isSome then pure found else untilFound call l

namespace ClassGraph

variable (order : Finset UInt32 → List UInt32) (g : ClassGraph)

def classBelongsToExtSubGraph : Nat → UInt32 → UInt32 → Bool → Except WalkError Bool
  | 0, _, _, _ => throw .stackOverflow
  | depth + 1, classI, subGraphI, belongs =>
    if g.vertexExist classI then
      match g.classGraph subGraphI with
      | none => throw .classDefNotFound
      | some v =>
        if classI = subGraphI then pure true
        else untilSet (classBelongsToExtSubGraph depth classI) (order v.extended) belongs
    else throw .classDefNotFound

/-- Classes that are not in the graph are skipped. -/
def includesClass (depth : Nat) (classLid : UInt32) (classesToCheck : Finset UInt32)
    (includes : Bool) : Except WalkError Bool :=
  untilSet (g.classBelongsToExtSubGraph order depth classLid)
    ((order classesToCheck).filter g.vertexExist) includes

/-- A class can't be cast. -/
def isCastAllowed (depth : Nat) (classLid : UInt32) (isClass : Bool) (classMarks : Finset UInt32) :
    Except WalkError Bool :=
  if isClass then pure false else g.includesClass order depth classLid classMarks false

/-- The id of the class, and whether it may extend these classes. -/
def checkExtendsForUpdate (depth : Nat) (updatedClass : String) (extendedClasses : Finset UInt32) :
    Except WalkError (UInt32 × Bool) :=
  match g.nameIndex updatedClass with
  | none => throw .classDefNotFound
  | some upLid => do
    let inSubGraph ← g.includesClass order depth upLid extendedClasses false
    pure (upLid, !inSubGraph)

/-- The method, and the class that has it. -/
def findMethod (name : String) (argsCount : Nat) (classLidToStartSearching : Option UInt32) :
    Nat → Finset UInt32 → SearchPhase → Except WalkError (Option (UInt32 × UInt32))
  | 0, _, _ => throw .stackOverflow
  | depth + 1, classesToSearch, searchPhase =>
    untilFound (fun i =>
      match g.classGraph i with
      | none => pure none
      | some cgv =>
        if searchPhase = .skipOneStep then
          findMethod name argsCount classLidToStartSearching depth cgv.extended .searching
        else if searchPhase = .searchingStartClass ∧ classLidToStartSearching ≠ some i then
          findMethod name argsCount classLidToStartSearching depth cgv.extended searchPhase
        else
          match cgv.getMethod name argsCount with
          | some method => pure (some (method, i))
          | none => findMethod name argsCount classLidToStartSearching depth cgv.extended .searching)
      (order classesToSearch)

/-- An object of a class without an invariant is not in an invariant by that class. -/
def belongsToInvariant (invariantUpName : String) :
    Nat → Finset UInt32 → Bool → Except WalkError Bool
  | 0, _, _ => throw .stackOverflow
  | depth + 1, extClasses, isObject =>
    if invariantUpName.isEmpty then pure false
    else (order extClasses).anyM fun i =>
      match g.classGraph i with
      | none => pure false
      | some cgv =>
        if isObject ∧ cgv.invariant.isEmpty then pure false
        else if cgv.invariant = invariantUpName then pure true
        else if cgv.extended.Nonempty then
          belongsToInvariant invariantUpName depth cgv.extended false
        else pure false

/-- The invariants above a class, or below it. -/
def fetchFrom (sub : Bool) :
    Nat → ClassGraphVertex → Finset String → Except WalkError (Finset String)
  | 0, _, _ => throw .stackOverflow
  | depth + 1, cgvIn, invariantsNames =>
    (order (if sub then cgvIn.subclasses else cgvIn.extended)).foldlM (fun names i =>
      match g.classGraph i with
      | none => throw .nullVertex
      | some cgv =>
        fetchFrom sub depth cgv
          (if cgv.invariant.isEmpty then names else insert cgv.invariant names)) invariantsNames

def fetchInvariantNames (sub : Bool) (depth : Nat) (invariantName : String)
    (invariantsNames : Finset String) : Except WalkError (Finset String) :=
  match g.invariants invariantName with
  | none => pure invariantsNames
  | some slids =>
    (order slids).foldlM (fun names i =>
      match g.classGraph i with
      | none => throw .nullVertex
      | some cgv => g.fetchFrom order sub depth cgv names) invariantsNames

-- ---------------------------------------------------------------------------
-- Loops
-- ---------------------------------------------------------------------------

end ClassGraph

variable {l : List UInt32}

theorem untilSet_spec {call : UInt32 → Bool → Except WalkError Bool} {P : UInt32 → Prop}
    (h : ∀ i ∈ l, ∃ flag, call i false = .ok flag ∧ (flag = true ↔ P i)) :
    ∃ flag, untilSet call l false = .ok flag ∧ (flag = true ↔ ∃ i ∈ l, P i) := by
  induction l with
  | nil => exact ⟨false, rfl, by simp⟩
  | cons i l ih =>
    obtain ⟨flag, hcall, hflag⟩ := h i List.mem_cons_self
    obtain ⟨last, hloop, hlast⟩ := ih fun j hj => h j (List.mem_cons_of_mem i hj)
    cases flag with
    | true =>
      refine ⟨true, ?_, ?_⟩
      · rw [untilSet, hcall]
        rfl
      · simp [hflag.mp rfl]
    | false =>
      refine ⟨last, ?_, ?_⟩
      · rw [untilSet, hcall]
        exact hloop
      · have hnot : ¬ P i := fun hi => by simpa using hflag.mpr hi
        simp [hlast, hnot]

theorem untilFound_ok {call : UInt32 → Except WalkError (Option α)}
    (h : ∀ i ∈ l, ∃ found, call i = .ok found) : ∃ found, untilFound call l = .ok found := by
  induction l with
  | nil => exact ⟨none, rfl⟩
  | cons i l ih =>
    obtain ⟨found, hcall⟩ := h i List.mem_cons_self
    obtain ⟨last, hloop⟩ := ih fun j hj => h j (List.mem_cons_of_mem i hj)
    cases found with
    | none =>
      refine ⟨last, ?_⟩
      rw [untilFound, hcall]
      exact hloop
    | some m =>
      refine ⟨some m, ?_⟩
      rw [untilFound, hcall]
      rfl

theorem anyM_ok {call : UInt32 → Except WalkError Bool} (h : ∀ i ∈ l, ∃ b, call i = .ok b) :
    ∃ b, l.anyM call = .ok b := by
  induction l with
  | nil => exact ⟨false, rfl⟩
  | cons i l ih =>
    obtain ⟨b, hcall⟩ := h i List.mem_cons_self
    obtain ⟨last, hloop⟩ := ih fun j hj => h j (List.mem_cons_of_mem i hj)
    cases b with
    | false =>
      refine ⟨last, ?_⟩
      rw [List.anyM, hcall]
      exact hloop
    | true =>
      refine ⟨true, ?_⟩
      rw [List.anyM, hcall]
      rfl

/-- A loop that collects what is found for each class. -/
theorem foldlM_collect {call : Finset String → UInt32 → Except WalkError (Finset String)}
    {Q : UInt32 → String → Prop}
    (h : ∀ i ∈ l, ∀ names, ∃ names', call names i = .ok names' ∧
      ∀ n, n ∈ names' ↔ n ∈ names ∨ Q i n) (names : Finset String) :
    ∃ names', l.foldlM call names = .ok names' ∧ ∀ n, n ∈ names' ↔ n ∈ names ∨ ∃ i ∈ l, Q i n := by
  induction l generalizing names with
  | nil => exact ⟨names, rfl, by simp⟩
  | cons i l ih =>
    obtain ⟨names₁, hcall, hnames₁⟩ := h i List.mem_cons_self names
    obtain ⟨names', hloop, hnames'⟩ := ih (fun j hj => h j (List.mem_cons_of_mem i hj)) names₁
    refine ⟨names', ?_, fun n => ?_⟩
    · rw [List.foldlM_cons, hcall]
      exact hloop
    · rw [hnames', hnames₁]
      simp [or_assoc]

namespace ClassGraph

open Filter (atTop)
open Relation (TransGen ReflTransGen)
open Store (Iterates)

variable {order : Finset UInt32 → List UInt32} {g g' : ClassGraph} {a b x : UInt32}
  {v : ClassGraphVertex} {c : ClassObject}

instance : Finite UInt32 := Finite.of_injective UInt32.toFin fun _ _ => UInt32.toFin_inj.mp

-- ---------------------------------------------------------------------------
-- Walks in a graph without cycles
-- ---------------------------------------------------------------------------

theorem Mirror.vertexExist (h : g.Mirror) (hedge : g.Extends b a) : g.vertexExist a = true :=
  ((h a b).mp hedge).vertexExist

theorem vertexExist_of_above (hpath : ReflTransGen g.Extends b a) (ha : g.vertexExist a = true) :
    g.vertexExist b = true := by
  rcases ReflTransGen.cases_head hpath with rfl | ⟨y, hfirst, -⟩
  · exact ha
  · exact hfirst.vertexExist

theorem classBelongsToExtSubGraph_spec (horder : Iterates order) (hmirror : g.Mirror)
    (hacyclic : Acyclic g.Extends) (hx : g.vertexExist x = true) (a : UInt32) :
    ∀ᶠ depth in atTop, g.vertexExist a = true →
      ∃ belongs, g.classBelongsToExtSubGraph order depth x a false = .ok belongs ∧
        (belongs = true ↔ ReflTransGen g.Extends a x) := by
  revert a
  apply hacyclic.eventually
  intro a depth ih ha
  obtain ⟨v, hv⟩ := vertexExist_iff.mp ha
  rw [classBelongsToExtSubGraph, if_pos hx, hv]
  by_cases hxa : x = a
  · subst hxa
    exact ⟨true, if_pos rfl, by simp [ReflTransGen.refl]⟩
  · have hcalls : ∀ i ∈ order v.extended,
        ∃ belongs, g.classBelongsToExtSubGraph order depth x i false = .ok belongs ∧
          (belongs = true ↔ ReflTransGen g.Extends i x) := by
      intro i hi
      have hedge : g.Extends a i := (extends_iff hv).mpr ((mem_order horder).mp hi)
      exact ih i hedge (hmirror.vertexExist hedge)
    obtain ⟨belongs, hloop, hbelongs⟩ := untilSet_spec hcalls
    refine ⟨belongs, (if_neg hxa).trans hloop, hbelongs.trans ?_⟩
    rw [ReflTransGen.cases_head_iff]
    constructor
    · rintro ⟨i, hi, hpath⟩
      exact Or.inr ⟨i, (extends_iff hv).mpr ((mem_order horder).mp hi), hpath⟩
    · rintro (rfl | ⟨i, hedge, hpath⟩)
      · exact absurd rfl hxa
      · exact ⟨i, (mem_order horder).mpr ((extends_iff hv).mp hedge), hpath⟩

theorem includesClass_spec (horder : Iterates order) (hmirror : g.Mirror)
    (hacyclic : Acyclic g.Extends) (hx : g.vertexExist x = true) (s : Finset UInt32) :
    ∀ᶠ depth in atTop, ∃ includes, g.includesClass order depth x s false = .ok includes ∧
      (includes = true ↔ ∃ i ∈ s, ReflTransGen g.Extends i x) := by
  have hall := Filter.eventually_all.mpr
    (classBelongsToExtSubGraph_spec horder hmirror hacyclic hx)
  refine hall.mono fun depth hdepth => ?_
  have hcalls : ∀ i ∈ (order s).filter g.vertexExist,
      ∃ belongs, g.classBelongsToExtSubGraph order depth x i false = .ok belongs ∧
        (belongs = true ↔ ReflTransGen g.Extends i x) :=
    fun i hi => hdepth i (List.mem_filter.mp hi).2
  obtain ⟨includes, hloop, hincludes⟩ := untilSet_spec hcalls
  refine ⟨includes, hloop, hincludes.trans ?_⟩
  refine exists_congr fun i => and_congr_left fun hpath => ?_
  simp [mem_order horder, vertexExist_of_above hpath hx]

variable {depth : Nat} {name : String} {argsCount : Nat} {start : Option UInt32}
  {phase : SearchPhase} {isObject sub : Bool} {s : Finset UInt32}

/-- A search returns when it does from above every class of the set. -/
theorem findMethod_succ (horder : Iterates order)
    (h : ∀ i ∈ s, ∀ v, g.classGraph i = some v → ∀ phase,
      ∃ found, g.findMethod order name argsCount start depth v.extended phase = .ok found) :
    ∃ found, g.findMethod order name argsCount start (depth + 1) s phase = .ok found := by
  rw [findMethod]
  apply untilFound_ok
  intro i hi
  cases hv : g.classGraph i with
  | none => exact ⟨none, rfl⟩
  | some v =>
    have habove := h i ((mem_order horder).mp hi) v hv
    dsimp only
    split
    · exact habove .searching
    · split
      · exact habove phase
      · split
        · exact ⟨_, rfl⟩
        · exact habove .searching

theorem findMethod_ok (horder : Iterates order) (hacyclic : Acyclic g.Extends) (s : Finset UInt32)
    (phase : SearchPhase) : ∀ᶠ depth in atTop,
      ∃ found, g.findMethod order name argsCount start depth s phase = .ok found := by
  have habove : ∀ i, ∀ᶠ depth in atTop, ∀ v, g.classGraph i = some v → ∀ phase,
      ∃ found, g.findMethod order name argsCount start depth v.extended phase = .ok found := by
    apply hacyclic.eventually
    intro a depth ih v hv phase
    exact findMethod_succ horder fun i hi w hw => ih i ((extends_iff hv).mpr hi) w hw
  refine eventually_of_succ ((Filter.eventually_all.mpr habove).mono fun depth hdepth => ?_)
  exact findMethod_succ horder fun i _ => hdepth i

theorem belongsToInvariant_succ (horder : Iterates order)
    (h : ∀ i ∈ s, ∀ v, g.classGraph i = some v →
      ∃ b, g.belongsToInvariant order name depth v.extended false = .ok b) :
    ∃ b, g.belongsToInvariant order name (depth + 1) s isObject = .ok b := by
  rw [belongsToInvariant]
  split
  · exact ⟨false, rfl⟩
  · apply anyM_ok
    intro i hi
    cases hv : g.classGraph i with
    | none => exact ⟨false, rfl⟩
    | some v =>
      dsimp only
      split
      · exact ⟨false, rfl⟩
      · split
        · exact ⟨true, rfl⟩
        · split
          · exact h i ((mem_order horder).mp hi) v hv
          · exact ⟨false, rfl⟩

theorem belongsToInvariant_ok (horder : Iterates order) (hacyclic : Acyclic g.Extends)
    (s : Finset UInt32) (isObject : Bool) : ∀ᶠ depth in atTop,
      ∃ b, g.belongsToInvariant order name depth s isObject = .ok b := by
  have habove : ∀ i, ∀ᶠ depth in atTop, ∀ v, g.classGraph i = some v →
      ∃ b, g.belongsToInvariant order name depth v.extended false = .ok b := by
    apply hacyclic.eventually
    intro a depth ih v hv
    exact belongsToInvariant_succ horder fun i hi w hw => ih i ((extends_iff hv).mpr hi) w hw
  refine eventually_of_succ ((Filter.eventually_all.mpr habove).mono fun depth hdepth => ?_)
  exact belongsToInvariant_succ horder fun i _ => hdepth i

-- ---------------------------------------------------------------------------
-- Invariants above and below
-- ---------------------------------------------------------------------------

/-- The edges that are followed. -/
def Follows (sub : Bool) (g : ClassGraph) : UInt32 → UInt32 → Prop :=
  if sub then g.HasSubclass else g.Extends

/-- `c` is strictly above `a`, or below it, and has the invariant. -/
def FindsInvariant (sub : Bool) (g : ClassGraph) (a : UInt32) (n : String) : Prop :=
  n ≠ "" ∧ ∃ c v, TransGen (g.Follows sub) a c ∧ g.classGraph c = some v ∧ v.invariant = n

theorem follows_iff (hv : g.classGraph a = some v) :
    g.Follows sub a b ↔ b ∈ if sub then v.subclasses else v.extended := by
  cases sub with
  | true => exact hasSubclass_iff hv
  | false => exact extends_iff hv

theorem Mirror.vertexExist_of_follows (h : g.Mirror) (hedge : g.Follows sub a b) :
    g.vertexExist b = true := by
  cases sub with
  | true => exact ((h a b).mpr hedge).vertexExist
  | false => exact h.vertexExist hedge

theorem Mirror.acyclic_follows (h : g.Mirror) (hacyclic : Acyclic g.Extends) :
    Acyclic (g.Follows sub) := by
  cases sub with
  | true => exact hacyclic.swap.mono fun a b hedge => (h a b).mpr hedge
  | false => exact hacyclic

/-- One class further, the class itself is found too. -/
theorem findsInvariant_iff {n : String} :
    g.FindsInvariant sub a n ↔ ∃ i, g.Follows sub a i ∧
      ((∃ v, g.classGraph i = some v ∧ v.invariant = n ∧ n ≠ "") ∨ g.FindsInvariant sub i n) := by
  constructor
  · rintro ⟨hne, c, v, hpath, hv, hn⟩
    obtain ⟨i, hedge, hrest⟩ := TransGen.head'_iff.mp hpath
    refine ⟨i, hedge, ?_⟩
    rcases Relation.reflTransGen_iff_eq_or_transGen.mp hrest with rfl | hrest
    · exact Or.inl ⟨v, hv, hn, hne⟩
    · exact Or.inr ⟨hne, c, v, hrest, hv, hn⟩
  · rintro ⟨i, hedge, ⟨v, hv, hn, hne⟩ | ⟨hne, c, v, hpath, hv, hn⟩⟩
    · exact ⟨hne, i, v, .single hedge, hv, hn⟩
    · exact ⟨hne, c, v, .head hedge hpath, hv, hn⟩

theorem fetchFrom_spec (horder : Iterates order) (hmirror : g.Mirror)
    (hacyclic : Acyclic g.Extends) (a : UInt32) :
    ∀ᶠ depth in atTop, ∀ v, g.classGraph a = some v → ∀ names,
      ∃ names', g.fetchFrom order sub depth v names = .ok names' ∧
        ∀ n, n ∈ names' ↔ n ∈ names ∨ g.FindsInvariant sub a n := by
  revert a
  apply Acyclic.eventually (hmirror.acyclic_follows hacyclic : Acyclic (g.Follows sub))
  intro a depth ih v hv names
  rw [fetchFrom]
  have hcalls : ∀ i ∈ order (if sub then v.subclasses else v.extended), ∀ names,
      ∃ names' : Finset String, (match g.classGraph i with
        | none => throw WalkError.nullVertex
        | some cgv => g.fetchFrom order sub depth cgv (if cgv.invariant.isEmpty then names
          else insert cgv.invariant names) : Except WalkError (Finset String)) = .ok names' ∧
        ∀ n, n ∈ names' ↔ n ∈ names ∨
          ((∃ v, g.classGraph i = some v ∧ v.invariant = n ∧ n ≠ "") ∨ g.FindsInvariant sub i n) := by
    intro i hi names
    have hedge : g.Follows sub a i := (follows_iff hv).mpr ((mem_order horder).mp hi)
    obtain ⟨w, hw⟩ := vertexExist_iff.mp (hmirror.vertexExist_of_follows hedge)
    rw [hw]
    obtain ⟨names', hcall, hnames'⟩ := ih i hedge w hw
      (if w.invariant.isEmpty then names else insert w.invariant names)
    refine ⟨names', hcall, fun n => (hnames' n).trans ?_⟩
    rw [← or_assoc]
    refine or_congr_left ?_
    by_cases hempty : w.invariant = ""
    · simp [hempty]
    · simp only [String.isEmpty_iff, hempty, if_false, Finset.mem_insert, Option.some.injEq]
      constructor
      · rintro (rfl | hn)
        · exact Or.inr ⟨w, rfl, rfl, hempty⟩
        · exact Or.inl hn
      · rintro (hn | ⟨_, rfl, hn, -⟩)
        · exact Or.inr hn
        · exact Or.inl hn.symm
  obtain ⟨names', hloop, hnames'⟩ := foldlM_collect hcalls names
  refine ⟨names', hloop, fun n => (hnames' n).trans (or_congr_right ?_)⟩
  rw [findsInvariant_iff]
  refine exists_congr fun i => and_congr_left' ?_
  rw [mem_order horder, follows_iff hv]

theorem fetchInvariantNames_spec (horder : Iterates order) (htidy : g.Tidy)
    (hacyclic : Acyclic g.Extends) (hname : name ≠ "") (names : Finset String) :
    ∀ᶠ depth in atTop, ∃ names', g.fetchInvariantNames order sub depth name names = .ok names' ∧
      ∀ n, n ∈ names' ↔ n ∈ names ∨
        ∃ a v, g.classGraph a = some v ∧ v.invariant = name ∧ g.FindsInvariant sub a n := by
  have hclass (a : UInt32) : (∃ n, g.label a = some (n, name)) ↔
      ∃ v, g.classGraph a = some v ∧ v.invariant = name := by simp [label]
  refine (Filter.eventually_all.mpr
    (@fetchFrom_spec _ _ sub horder htidy.mirror hacyclic)).mono fun depth hdepth => ?_
  cases hentry : g.invariants name with
  | none =>
    refine ⟨names, by simp [fetchInvariantNames, hentry, pure, Except.pure], fun n => ?_⟩
    have hnone : ¬ ∃ a v, g.classGraph a = some v ∧ v.invariant = name ∧
        g.FindsInvariant sub a n := by
      rintro ⟨a, v, hv, hn, -⟩
      obtain ⟨m, hm⟩ := (hclass a).mpr ⟨v, hv, hn⟩
      exact htidy.indexed.noEntry hname hentry hm
    simp [hnone]
  | some slids =>
    have hmem := (htidy.indexed.entry hname hentry).2
    have hcalls : ∀ i ∈ order slids, ∀ names,
        ∃ names' : Finset String, (match g.classGraph i with
          | none => throw WalkError.nullVertex
          | some cgv => g.fetchFrom order sub depth cgv names :
            Except WalkError (Finset String)) = .ok names' ∧
          ∀ n, n ∈ names' ↔ n ∈ names ∨ g.FindsInvariant sub i n := by
      intro i hi names
      obtain ⟨v, hv, -⟩ := (hclass i).mp ((hmem i).mp ((mem_order horder).mp hi))
      rw [hv]
      exact hdepth i v hv names
    obtain ⟨names', hloop, hnames'⟩ := foldlM_collect hcalls names
    refine ⟨names', ?_, fun n => (hnames' n).trans (or_congr_right ?_)⟩
    · simp only [fetchInvariantNames, hentry]
      exact hloop
    · refine exists_congr fun i => ?_
      rw [mem_order horder, hmem, hclass]
      simp only [← and_assoc, exists_and_right]

-- ---------------------------------------------------------------------------
-- Changes make no cycle
-- ---------------------------------------------------------------------------

theorem acyclic_removeClass (horder : Iterates order) (hmirror : g.Mirror)
    (hacyclic : Acyclic g.Extends) (lid : UInt32) : Acyclic (g.removeClass order lid).Extends := by
  cases hv : g.classGraph lid with
  | none =>
    have heq : g.removeClass order lid = g := by simp only [ClassGraph.removeClass, hv]
    rwa [heq]
  | some v =>
    have hedges := (removeClass_spec horder hmirror hv).2.2.2.1
    exact hacyclic.mono fun b a hedge => ((hedges b a).mp hedge).1

/-- Nobody extends a class that is not there yet. -/
theorem acyclic_addClass (horder : Iterates order) (hmirror : g.Mirror)
    (hacyclic : Acyclic g.Extends) (hlid : g.vertexExist c.lid = false)
    (hself : c.lid ∉ c.classMarks) (hs : g.addClass order c = some g') : Acyclic g'.Extends := by
  have hedges := (addClass_spec horder hmirror hlid hs).2.2.2
  have hsource {a : UInt32} : ¬ g.Extends c.lid a := fun hedge => by simp [hedge.vertexExist] at hlid
  refine hacyclic.redirect (x := c.lid) (fun hedge hne => ?_) fun hedge hpath => ?_
  · exact ((hedges _ _).mp hedge).resolve_right fun h => hne h.1
  · have hmark := (((hedges _ _).mp hedge).resolve_left hsource).2
    rcases ReflTransGen.cases_tail hpath with heq | ⟨y, -, hlast⟩
    · exact hself (heq ▸ hmark)
    · simp [hmirror.vertexExist hlast] at hlid

/-- The check before an update walks up from the new superclasses. -/
theorem acyclic_updateClass (horder : Iterates order) (htidy : g.Tidy)
    (hacyclic : Acyclic g.Extends)
    (hcheck : ∀ᶠ depth in atTop,
      g.checkExtendsForUpdate order depth c.name c.classMarks = .ok (c.lid, true))
    (hsub : ∀ b ∈ c.subclasses, g.HasSubclass c.lid b) (hs : g.updateClass order c = some g') :
    Acyclic g'.Extends := by
  have hmirror := htidy.mirror
  have hname : g.nameIndex c.name = some c.lid := by
    obtain ⟨depth, hdepth⟩ := hcheck.exists
    unfold checkExtendsForUpdate at hdepth
    split at hdepth
    · cases hdepth
    · rename_i upLid hup
      cases hwalk : g.includesClass order depth upLid c.classMarks false with
      | error e =>
        rw [hwalk] at hdepth
        cases hdepth
      | ok includes =>
        rw [hwalk] at hdepth
        have hpair : (upLid, !includes) = (c.lid, true) := Except.ok.inj hdepth
        rw [hup, (Prod.mk.inj hpair).1]
  have hlid : g.vertexExist c.lid = true := by
    obtain ⟨i, hi⟩ := htidy.indexed.names.mp hname
    simp only [label, Option.map_eq_some_iff] at hi
    obtain ⟨v, hv, -⟩ := hi
    exact vertexExist_iff.mpr ⟨v, hv⟩
  have habove : ∀ i ∈ c.classMarks, ¬ ReflTransGen g.Extends i c.lid := by
    obtain ⟨depth, hdepth, includes, hwalk, hincludes⟩ :=
      (hcheck.and (includesClass_spec horder hmirror hacyclic hlid c.classMarks)).exists
    intro i hi hpath
    simp only [checkExtendsForUpdate, hname, hwalk, hincludes.mpr ⟨i, hi, hpath⟩] at hdepth
    cases hdepth
  have hedges := (updateClass_spec horder hmirror hs).2.2.2
  obtain ⟨v, hv⟩ := vertexExist_iff.mp hlid
  have hold := (removeClass_spec horder hmirror hv).2.2.2.1
  refine hacyclic.redirect (x := c.lid) (fun hedge hne => ?_) fun hedge => ?_
  · rcases (hedges _ _).mp hedge with hedge | ⟨heq, -⟩ | ⟨hb, rfl⟩
    · exact ((hold _ _).mp hedge).1
    · exact absurd heq hne
    · exact (hmirror _ _).mpr (hsub _ hb)
  · rcases (hedges _ _).mp hedge with hedge | ⟨-, hmark⟩ | ⟨hb, -⟩
    · exact absurd rfl ((hold _ _).mp hedge).2.1
    · exact habove _ hmark
    · exact absurd (TransGen.single ((hmirror _ _).mpr (hsub _ hb))) (hacyclic c.lid)

/-- The classes of the store that a class extends. -/
def StoreExtends (store : UInt32 → Option ClassObject) (b a : UInt32) : Prop :=
  ∃ c, store b = some c ∧ a ∈ c.classMarks

theorem Loaded.acyclic {store : UInt32 → Option ClassObject} (h : Loaded store (fun _ => False) g)
    (hstore : Acyclic (StoreExtends store)) : Acyclic g.Extends := by
  refine hstore.mono fun b a hedge => ?_
  obtain ⟨v, hv, hmem⟩ := hedge
  obtain ⟨cb, hcb, -, -, hfull⟩ := h.stored hv
  rw [(hfull id).1] at hmem
  exact ⟨cb, hcb, hmem⟩

-- ---------------------------------------------------------------------------
-- Sequences of calls
-- ---------------------------------------------------------------------------

/-- A new class does not extend itself, an update is admitted by the check and hands the
subclasses on, and the classes of the store were made in the same way. -/
def Guarded (order : Finset UInt32 → List UInt32) (g : ClassGraph) : Event → Prop
  | .addClass c => c.lid ∉ c.classMarks
  | .updateClass c =>
    (∀ᶠ depth in atTop,
      g.checkExtendsForUpdate order depth c.name c.classMarks = .ok (c.lid, true)) ∧
    ∀ b ∈ c.subclasses, g.HasSubclass c.lid b
  | .removeClass _ => True
  | .completeSubgraph store _ => Acyclic (StoreExtends store)

/-- What the callers keep to. -/
def Admitted (order : Finset UInt32 → List UInt32) (g : ClassGraph) (ev : Event) : Prop :=
  g.Legal ev ∧ g.Guarded order ev

/-- What the calls keep. -/
structure Hierarchy (g : ClassGraph) : Prop where
  tidy : g.Tidy
  acyclic : Acyclic g.Extends

theorem Hierarchy.step (horder : Iterates order) (h : g.Hierarchy) {ev : Event}
    (hok : g.Admitted order ev) (halone : g.Alone ev) (hs : g.step order ev = some g') :
    g'.Hierarchy := by
  obtain ⟨hlegal, hguarded⟩ := hok
  refine ⟨h.tidy.step horder hlegal halone hs, ?_⟩
  cases ev with
  | addClass c => exact acyclic_addClass horder h.tidy.mirror h.acyclic hlegal.1 hguarded hs
  | updateClass c => exact acyclic_updateClass horder h.tidy h.acyclic hguarded.1 hguarded.2 hs
  | removeClass lid =>
    cases hs
    exact acyclic_removeClass horder h.tidy.mirror h.acyclic lid
  | completeSubgraph store lid =>
    exact (completeFrom_spec horder hlegal.1 hlegal.2 hs).1.acyclic hguarded

theorem hierarchy_empty : ({} : ClassGraph).Hierarchy := by
  refine ⟨tidy_empty, fun a hcycle => ?_⟩
  obtain ⟨b, ⟨v, hv, -⟩, -⟩ := TransGen.head'_iff.mp hcycle
  cases hv

theorem hierarchy_of_reaches (horder : Iterates order)
    (h : Reaches (step order) (fun g ev => g.Admitted order ev ∧ g.Alone ev) {} g) : g.Hierarchy :=
  h.invariant hierarchy_empty fun _ _ _ hg hok hs => hg.step horder hok.1 hok.2 hs

/-- No class is above itself. So all walks return when the stack is deep enough, and they
find what is above the class they start from. -/
theorem walks_reach (horder : Iterates order)
    (h : Reaches (step order) (fun g ev => g.Admitted order ev ∧ g.Alone ev) {} g) :
    (∀ a, ¬ TransGen g.Extends a a) ∧
    (∀ name argsCount start s phase, ∀ᶠ depth in atTop,
      ∃ found, g.findMethod order name argsCount start depth s phase = .ok found) ∧
    (∀ name s isObject, ∀ᶠ depth in atTop,
      ∃ b, g.belongsToInvariant order name depth s isObject = .ok b) ∧
    (∀ a b, g.vertexExist a = true → g.vertexExist b = true → ∀ᶠ depth in atTop,
      ∃ belongs, g.classBelongsToExtSubGraph order depth a b false = .ok belongs ∧
        (belongs = true ↔ ReflTransGen g.Extends b a)) ∧
    (∀ a classMarks, g.vertexExist a = true → ∀ᶠ depth in atTop,
      ∃ includes, g.isCastAllowed order depth a false classMarks = .ok includes ∧
        (includes = true ↔ ∃ i ∈ classMarks, ReflTransGen g.Extends i a)) ∧
    ∀ sub name names, name ≠ "" → ∀ᶠ depth in atTop,
      ∃ names', g.fetchInvariantNames order sub depth name names = .ok names' ∧
        ∀ n, n ∈ names' ↔ n ∈ names ∨
          ∃ a v, g.classGraph a = some v ∧ v.invariant = name ∧ g.FindsInvariant sub a n := by
  obtain ⟨htidy, hacyclic⟩ := hierarchy_of_reaches horder h
  refine ⟨hacyclic, ?_, ?_, ?_, ?_, ?_⟩
  · intro name argsCount start s phase
    exact findMethod_ok horder hacyclic s phase
  · intro name s isObject
    exact belongsToInvariant_ok horder hacyclic s isObject
  · intro a b ha hb
    refine (classBelongsToExtSubGraph_spec horder htidy.mirror hacyclic ha b).mono ?_
    intro depth hdepth
    exact hdepth hb
  · intro a classMarks ha
    exact includesClass_spec horder htidy.mirror hacyclic ha classMarks
  · intro sub name names hname
    exact fetchInvariantNames_spec horder htidy hacyclic hname names

theorem admitted_addClass (hlid : g.vertexExist c.lid = false) (hname : g.nameIndex c.name = none)
    (hself : c.lid ∉ c.classMarks) : g.Admitted order (.addClass c) := ⟨⟨hlid, hname⟩, hself⟩

theorem walks_reach_twoClasses : ∀ᶠ depth in atTop,
    ∃ belongs, twoClasses.classBelongsToExtSubGraph Finset.toList depth 1 2 false = .ok belongs ∧
      (belongs = true ↔ ReflTransGen twoClasses.Extends 2 1) := by
  have hrun : Reaches (step Finset.toList) (fun g ev => g.Admitted Finset.toList ev ∧ g.Alone ev)
      {} twoClasses :=
    reaches_twoClasses ⟨⟨legal_person, Finset.notMem_empty _⟩, trivial⟩
      ⟨⟨legal_student, Finset.notMem_empty _⟩, trivial⟩
  exact (walks_reach Store.iterates_toList hrun).2.2.2.1 1 2 (by decide) (by decide)

-- ---------------------------------------------------------------------------
-- An update loses the classes with the same invariant
-- ---------------------------------------------------------------------------

def being : ClassObject := { lid := 3, name := "Being", invariant := "J" }

def worker : ClassObject := { lid := 1, name := "Worker", invariant := "I", classMarks := {3} }

/-- A worker is a being. -/
def workers : ClassGraph := ((({} : ClassGraph).putVertex being).putVertex worker).link 1 3

def workersAndStudents : ClassGraph := workers.putVertex student

/-- The students are removed and added again. -/
def studentsUpdated : ClassGraph :=
  let g := (workersAndStudents.removeFromNameIndex "Student").removeFromInvariant 2 "I"
  ({ g with classGraph := Function.update g.classGraph 2 none } : ClassGraph).putVertex student

theorem updateClass_student :
    workersAndStudents.updateClass Finset.toList student = some studentsUpdated := by
  let g := (workersAndStudents.removeFromNameIndex "Student").removeFromInvariant 2 "I"
  have hstudent : workersAndStudents.classGraph 2 = some (.initNotGraphProperties student) := rfl
  have hedges : ((g.classGraph 2).map ClassGraphVertex.subclasses).getD ∅ = ∅ := rfl
  have hremove : workersAndStudents.removeClass Finset.toList 2 =
      { g with classGraph := Function.update g.classGraph 2 none } := by
    simp only [removeClass, hstudent]
    simp only [ClassGraphVertex.initNotGraphProperties, student, removeFromSubclasses,
      removeFromExtends, Finset.toList_empty, List.foldl_nil]
    rw [hedges, Finset.toList_empty]
    rfl
  show (do
    let g ← (workersAndStudents.removeClass Finset.toList 2).addClass Finset.toList student
    (Finset.toList ∅).foldlM _ g) = _
  rw [hremove, addClass_of_noMarks _ rfl, Finset.toList_empty]
  rfl

theorem admitted_student : workersAndStudents.Admitted Finset.toList (.updateClass student) := by
  refine ⟨?_, ?_, nofun⟩
  · intro x hx
    have hname : workersAndStudents.nameIndex "Student" = some 2 := rfl
    exact Option.some.inj (hx.symm.trans hname)
  · refine Filter.Eventually.of_forall fun depth => ?_
    show checkExtendsForUpdate Finset.toList workersAndStudents depth "Student" ∅ = _
    have hname : workersAndStudents.nameIndex "Student" = some 2 := rfl
    simp only [checkExtendsForUpdate, hname, includesClass, Finset.toList_empty]
    rfl

theorem reaches_studentsUpdated :
    Reaches (step Finset.toList) (Admitted Finset.toList) {} studentsUpdated := by
  have hbeing : Reaches (step Finset.toList) (Admitted Finset.toList) {}
      (({} : ClassGraph).putVertex being) :=
    Reaches.refl.step (admitted_addClass (c := being) rfl rfl (Finset.notMem_empty _))
      (addClass_of_noMarks {} rfl)
  have hworkers : Reaches (step Finset.toList) (Admitted Finset.toList) {} workers := by
    refine hbeing.step (admitted_addClass (c := worker) (by decide) (by decide) (by decide)) ?_
    show addClass Finset.toList _ worker = _
    simp only [addClass, worker, Finset.toList_singleton]
    rfl
  have hstudents : Reaches (step Finset.toList) (Admitted Finset.toList) {} workersAndStudents :=
    hworkers.step (admitted_addClass (c := student) (by decide) (by decide) (Finset.notMem_empty _))
      (addClass_of_noMarks _ rfl)
  exact hstudents.step admitted_student updateClass_student

/-- The invariant above the workers is missed, since the index has only the students. -/
theorem invariant_notFetched :
    ∃ g, Reaches (step Finset.toList) (Admitted Finset.toList) {} g ∧
      (∃ a v, g.classGraph a = some v ∧ v.invariant = "I" ∧ g.FindsInvariant false a "J") ∧
      ∀ depth, g.fetchInvariantNames Finset.toList false (depth + 1) "I" ∅ = .ok ∅ := by
  refine ⟨studentsUpdated, reaches_studentsUpdated, ?_, fun depth => ?_⟩
  · have hedge : studentsUpdated.Extends 1 3 := ⟨_, rfl, by decide⟩
    exact ⟨1, _, rfl, rfl, by decide, 3, _, .single hedge, rfl, rfl⟩
  · have hentry : studentsUpdated.invariants "I" = some {2} := by decide
    have hstudent : studentsUpdated.classGraph 2 = some (.initNotGraphProperties student) := rfl
    simp only [fetchInvariantNames, hentry, Finset.toList_singleton, List.foldlM_cons,
      List.foldlM_nil, hstudent, fetchFrom, ClassGraphVertex.initNotGraphProperties, ite_self,
      Finset.toList_empty]
    rfl

end ClassGraph

end Loxim.QueryExecutor
