import Loxim.Lib.Run
import Loxim.QueryExecutor.BindMap

/-!
# Both maps of the binds

The reverse map lists an interface under an implementation if the interface is bound to it,
as long as no interface is bound again to another implementation without being released
first.
-/

namespace Loxim.QueryExecutor.BindMap

inductive Call
  | addBind (interface boundName boundObjectName : String) (t : BindType)
  | removeBind (interface : String)
  | removeEntriesForImplementation (implementationName : String)
  | changeObjectNameForImplementation (implementationName newObjectName : String)

def call (b : BindMap) : Call → BindMap
  | .addBind interface boundName boundObjectName t =>
    b.addBind interface boundName boundObjectName t
  | .removeBind interface => b.removeBind interface
  | .removeEntriesForImplementation implementationName =>
    b.removeEntriesForImplementation implementationName
  | .changeObjectNameForImplementation implementationName newObjectName =>
    b.changeObjectNameForImplementation implementationName newObjectName

def step (b : BindMap) (c : Call) : Option BindMap := some (b.call c)

/-- The interface has a bind, which names the implementation. -/
def Names (b : BindMap) (i imp : String) : Prop :=
  ∃ info, b.intToImp.lookup i = some info ∧ info.name = imp

/-- The maps agree, and an implementation is updated and removed in the binds that name it. -/
structure InOrder (b : BindMap) : Prop where
  agree : ∀ i imp, b.Shown imp i ↔ b.Names i imp
  update : ∀ imp obj i, (b.changeObjectNameForImplementation imp obj).intToImp.lookup i =
    (b.intToImp.lookup i).map fun info =>
      if info.name = imp then { info with objectName := obj } else info
  remove : ∀ imp i, (b.removeEntriesForImplementation imp).intToImp.lookup i =
    (b.intToImp.lookup i).filter fun info => info.name ≠ imp

/-- An interface that is bound is not bound to another implementation. -/
def Ready (b : BindMap) : Call → Prop
  | .addBind interface boundName _ _ =>
    ∀ info, b.intToImp.lookup interface = some info → info.name = boundName
  | .removeBind _ => True
  | .removeEntriesForImplementation _ => True
  | .changeObjectNameForImplementation _ _ => True

variable {b : BindMap} {i j imp interface obj : String} {t : BindType}

theorem names_iff {info : ImplementationInfo} (h : b.intToImp.lookup i = some info) :
    b.Names i imp ↔ info.name = imp := by
  rw [Names, h]
  simp

theorem not_names (h : b.intToImp.lookup i = none) : ¬ b.Names i imp := by
  rw [Names, h]
  simp

-- ---------------------------------------------------------------------------
-- What the calls leave of a bind
-- ---------------------------------------------------------------------------

theorem lookup_foldl_removeBind (l : List String) (b : BindMap) :
    (l.foldl BindMap.removeBind b).intToImp.lookup i =
      if i ∈ l then none else b.intToImp.lookup i := by
  induction l generalizing b with
  | nil => rfl
  | cons j l ih =>
    have hone : (b.removeBind j).intToImp.lookup i = if i = j then none else b.intToImp.lookup i :=
      OrderedMap.lookup_erase_eq ..
    rw [List.foldl_cons, ih, hone]
    by_cases hmem : i ∈ l
    · rw [if_pos hmem, if_pos (List.mem_cons_of_mem j hmem)]
    · rw [if_neg hmem]
      by_cases heq : i = j
      · rw [if_pos heq, if_pos (List.mem_cons.mpr (.inl heq))]
      · rw [if_neg heq, if_neg (fun h => (List.mem_cons.mp h).elim heq hmem)]

/-- What follows from the maps agreeing. -/
theorem inOrder (h : ∀ i imp, b.Shown imp i ↔ b.Names i imp) : b.InOrder := by
  have hmem (i imp) : i ∈ elements (b.interfacesShowingImplementation imp) ↔ b.Names i imp := by
    rw [mem_elements]
    exact h i imp
  refine ⟨h, fun imp obj i => ?_, fun imp i => ?_⟩
  · rw [changeObjectNameForImplementation, OrderedMap.lookup_foldl_alter (nodup_elements _)]
    cases hold : b.intToImp.lookup i with
    | none => rw [if_neg (fun hi => not_names hold ((hmem i imp).mp hi)), Option.map_none]
    | some info =>
      rw [Option.map_some, Option.getD_some]
      by_cases hname : info.name = imp
      · rw [if_pos ((hmem i imp).mpr ((names_iff hold).mpr hname)), if_pos hname]
      · rw [if_neg (fun hi => hname ((names_iff hold).mp ((hmem i imp).mp hi))), if_neg hname]
  · have hlookup : (b.removeEntriesForImplementation imp).intToImp.lookup i =
        if i ∈ elements (b.interfacesShowingImplementation imp) then none
        else b.intToImp.lookup i := lookup_foldl_removeBind _ b
    rw [hlookup]
    cases hold : b.intToImp.lookup i with
    | none => rw [ite_self, Option.filter_none]
    | some info =>
      rw [Option.filter_some]
      by_cases hname : info.name = imp
      · rw [if_pos ((hmem i imp).mpr ((names_iff hold).mpr hname)), if_neg (by simpa using hname)]
      · rw [if_neg (fun hi => hname ((names_iff hold).mp ((hmem i imp).mp hi))),
          if_pos (by simpa using hname)]

-- ---------------------------------------------------------------------------
-- What keeps the maps in agreement
-- ---------------------------------------------------------------------------

theorem names_addBind : (b.addBind interface imp obj t).Names i j ↔
    if i = interface then imp = j else b.Names i j := by
  unfold Names addBind addToReverseMap
  rw [OrderedMap.lookup_insert_eq]
  split
  · simp
  · rfl

theorem InOrder.addBind_iff (h : b.InOrder) : (b.addBind interface imp obj t).InOrder ↔
    b.Ready (.addBind interface imp obj t) := by
  constructor
  · intro h' info hinfo
    have hold : b.Shown info.name interface :=
      (h.agree interface info.name).mpr ⟨info, hinfo, rfl⟩
    have hnames := (h'.agree interface info.name).mp (shown_addBind.mpr (.inr hold))
    rw [names_addBind, if_pos rfl] at hnames
    exact hnames.symm
  · intro hready
    refine inOrder fun i j => ?_
    rw [shown_addBind, names_addBind, h.agree]
    split
    · rename_i heq
      subst heq
      constructor
      · rintro (⟨rfl, -⟩ | ⟨info, hinfo, rfl⟩)
        · rfl
        · exact (hready info hinfo).symm
      · rintro rfl
        exact .inl ⟨rfl, rfl⟩
    · rename_i hne
      constructor
      · rintro (⟨-, heq⟩ | hold)
        · exact absurd heq hne
        · exact hold
      · exact .inr

theorem InOrder.removeBind (h : b.InOrder) : (b.removeBind interface).InOrder := by
  refine inOrder fun i j => ?_
  have hlookup : (b.removeBind interface).intToImp.lookup i =
      if i = interface then none else b.intToImp.lookup i := OrderedMap.lookup_erase_eq ..
  rw [shown_removeBind, h.agree]
  by_cases heq : i = interface
  · subst heq
    rw [if_pos rfl] at hlookup
    refine iff_of_false ?_ (not_names hlookup)
    rintro ⟨⟨info, hinfo, rfl⟩, hname⟩
    rw [hinfo] at hname
    exact hname ⟨rfl, rfl⟩
  · rw [if_neg heq] at hlookup
    rw [Names, Names, hlookup]
    exact ⟨And.left, fun hold => ⟨hold, fun hname => heq hname.2⟩⟩

theorem InOrder.foldl_removeBind (l : List String) (h : b.InOrder) :
    (l.foldl BindMap.removeBind b).InOrder := by
  induction l generalizing b with
  | nil => exact h
  | cons i l ih => exact ih h.removeBind

theorem InOrder.removeEntries (h : b.InOrder) : (b.removeEntriesForImplementation imp).InOrder := by
  have hfold := h.foldl_removeBind (elements (b.interfacesShowingImplementation imp))
  refine inOrder fun i j => ?_
  have hnames : (b.removeEntriesForImplementation imp).Names i j ↔
      ((elements (b.interfacesShowingImplementation imp)).foldl BindMap.removeBind b).Names i j :=
    Iff.rfl
  rw [removeEntriesForImplementation, shown_erase, hfold.agree]
  refine ⟨And.right, fun hname => ⟨?_, hname⟩⟩
  -- a bind that names the implementation is among those that have been removed
  rintro rfl
  obtain ⟨info, hinfo, hname'⟩ := hname
  have hleft := h.remove j i
  rw [show (b.removeEntriesForImplementation j).intToImp.lookup i = some info from hinfo] at hleft
  have hfilter := (Option.filter_eq_some_iff.mp hleft.symm).2
  simp [hname'] at hfilter

theorem InOrder.changeObjectName (h : b.InOrder) :
    (b.changeObjectNameForImplementation imp obj).InOrder := by
  refine inOrder fun i j => ?_
  have hshown : (b.changeObjectNameForImplementation imp obj).Shown j i ↔ b.Shown j i := Iff.rfl
  rw [hshown, h.agree, Names, Names, h.update]
  cases b.intToImp.lookup i with
  | none => rw [Option.map_none]
  | some info =>
    simp only [Option.map_some, Option.some.injEq, exists_eq_left']
    split
    · rfl
    · rfl

theorem InOrder.call_iff {c : Call} (h : b.InOrder) : (b.call c).InOrder ↔ b.Ready c := by
  cases c with
  | addBind interface boundName boundObjectName t => exact h.addBind_iff
  | removeBind interface => exact iff_of_true h.removeBind trivial
  | removeEntriesForImplementation implementationName => exact iff_of_true h.removeEntries trivial
  | changeObjectNameForImplementation implementationName newObjectName =>
    exact iff_of_true h.changeObjectName trivial

theorem inOrder_empty : InOrder {} := by
  refine inOrder fun i j => iff_of_false ?_ (not_names rfl)
  simp [Shown, interfacesShowingImplementation]

theorem inOrder_of_reaches (h : Reaches step Ready {} b) : b.InOrder := by
  refine h.invariant inOrder_empty ?_
  rintro b c b' hb hready hstep
  cases hstep
  exact hb.call_iff.mpr hready

/-- The calls that met the condition left the maps in order, and the next one does if and only
if it meets it. -/
theorem inOrder_call_iff (c : Call) (h : Reaches step Ready {} b) :
    b.InOrder ∧ ((b.call c).InOrder ↔ b.Ready c) := by
  have hb := inOrder_of_reaches h
  exact ⟨hb, hb.call_iff⟩

/-- An interface is bound to a class. -/
def firstBind : BindMap := BindMap.addBind {} "i" "c" "o" .bindClass

theorem reaches_firstBind : Reaches step Ready {} firstBind := by
  refine .step (a := .addBind "i" "c" "o" .bindClass) .refl ?_ rfl
  intro info hinfo
  cases hinfo

theorem inOrder_firstBind :
    firstBind.InOrder ∧ ((firstBind.call (.removeBind "i")).InOrder ↔
      firstBind.Ready (.removeBind "i")) :=
  inOrder_call_iff (.removeBind "i") reaches_firstBind

/-- The interface is bound to another class, and still listed under the first. -/
theorem not_inOrder_rebound : ∃ b, Reaches step (fun _ _ => True) {} b ∧
    b.Shown "c" "i" ∧ ¬ b.Names "i" "c" ∧ ¬ b.InOrder := by
  have hshown : (firstBind.addBind "i" "d" "p" .bindClass).Shown "c" "i" :=
    shown_addBind.mpr (.inr (shown_addBind.mpr (.inl ⟨rfl, rfl⟩)))
  have hnames : ¬ (firstBind.addBind "i" "d" "p" .bindClass).Names "i" "c" := by
    rw [names_addBind, if_pos rfl]
    decide
  have hfirst : Reaches step (fun _ _ => True) {} firstBind :=
    reaches_firstBind.mono fun _ _ _ => trivial
  refine ⟨firstBind.addBind "i" "d" "p" .bindClass, ?_, hshown, hnames, fun h => ?_⟩
  · exact hfirst.step (a := .addBind "i" "d" "p" .bindClass) trivial rfl
  · exact hnames ((h.agree "i" "c").mp hshown)

end Loxim.QueryExecutor.BindMap
