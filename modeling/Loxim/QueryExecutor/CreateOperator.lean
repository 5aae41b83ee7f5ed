import Loxim.QueryExecutor.AccessMap
import Loxim.QueryExecutor.ClassGraph
import Loxim.QueryExecutor.InterfaceBinding
import Loxim.QueryExecutor.StoredValues

/-!
# The operator `create`

A binder whose name belongs to a view is left to the view. One whose name belongs to an interface
gets the name of what the interface is bound to. The branch that finds this out has variables of its
own with the names of those that are looked at afterwards.
-/

namespace Loxim.QueryExecutor.CreateOperator

open Store StoredValues

/-- The maps have their names as texts, a character for each byte. -/
def text (name : Name) : String := String.ofList (name.map fun b => Char.ofNat b.toNat)

def bytes (s : String) : Name := s.toList.map fun c => BitVec.ofNat 8 c.toNat

inductive CreateFault
  | otherResExp
  | badBindName
  | noClassDef
  | notFinal
  | endlessChain
  | noObject
  | cards (code : Int)
  | classGraph (code : Int)
  | procedure (code : Int)
  | object (error : CreateError)

/-- A virtual object of a view, or a reference to an object of the store. -/
inductive Created (ρ : Type)
  | virtual (name : Name) (view : Nat) (seed : Item ρ)
  | reference (r : Reference)

/-- What the operator works with. `onCreate` calls the procedure of a view, and keeps the store
sound as all calls do. -/
structure Surroundings (ρ : Type) where
  bits : ρ → BitVec 64
  garbage : Nat → Nat
  am : AccessMap
  im : InterfaceMaps
  cg : ClassGraph
  viewsLID : LoggedStore → Name → List Nat
  onCreate : Nat → Item ρ → LoggedStore → Except Int (Item ρ) × LoggedStore
  needsDeepCardCheck : Bool
  checkSubCardsRec : Item ρ → Option Int
  isStaticMember : Bool
  staticFieldExist : Name → Except Int Bool
  onCreate_sound : ∀ view item s, s.store.Sound → (onCreate view item s).2.store.Sound

section

variable {ρ : Type} (e : Surroundings ρ)

-- ---------------------------------------------------------------------------
-- The code
-- ---------------------------------------------------------------------------

/-- The virtual objects that were made. A view is found if there are any. -/
def createOnView (objectName : Name) (item : Item ρ) (s : LoggedStore) :
    Except CreateFault (List (Created ρ)) × LoggedStore :=
  match e.viewsLID s objectName with
  | [] => (.ok [], s)
  | [view] =>
    match e.onCreate view item s with
    | (.error code, s) => (.error (.procedure code), s)
    | (.ok res, s) => (.ok ((Item.bagAdd [] res).map (.virtual objectName view)), s)
  | _ :: _ :: _ => (.error .badBindName, s)

def isObjectNameBound (name : Name) : Bool :=
  match e.im.getInterfaceNameForObject (text name) with
  | none => false
  | some i => e.im.bindMap.hasBind i

/-- The object that is to be stored: its name, whether it comes from an interface, and the name of
the interface. -/
structure Pending where
  name : Name
  interfaced : Bool := false
  interfaceKey : Name := []

/-- Up to `objectFromBinder`. The walk over the interfaces makes at most so many calls. -/
def implement (n : Nat) (name : Name) (item : Item ρ) (s : LoggedStore) :
    Except CreateFault (List (Created ρ) × Pending) × LoggedStore :=
  match e.im.getInterfaceNameForObject (text name) with
  | none => (.ok ([], { name }), s)
  | some iName =>
    if !e.im.bindMap.hasBind iName then (.ok ([], { name }), s)
    else
      match e.im.bindMap.getImpForInterface true n iName with
      | none => (.error .endlessChain, s)
      | some none => (.ok ([], { name }), s)
      | some (some iI) =>
        let bound : Pending :=
          { name := bytes iI.objectName, interfaced := true, interfaceKey := bytes iName }
        match iI.type with
        | .bindClass =>
          match e.cg.nameIndex iI.name with
          | none => (.ok ([], { name }), s)
          | some _ => (.ok ([], bound), s)
        | .bindView =>
          match createOnView e (bytes iI.objectName) item s with
          | (.error fault, s) => (.error fault, s)
          | (.ok made, s) => (.ok (made, bound), s)
        | .bindInterface => (.error .notFinal, s)

def addRoot (o : Object) (s : LoggedStore) : LoggedStore :=
  (s.modifyObject 0 { o with isRoot := true } o.value (e.garbage o.lid)).2

def addClassMarks (o : Object) (classMarks : Finset Nat) (s : LoggedStore) :
    Object × LoggedStore :=
  let newDV := { o.value with classMarks := o.value.classMarks ∪ classMarks }
  ({ o with value := newDV }, (s.modifyObject 0 o newDV (e.garbage o.lid)).2)

/-- From `objectFromBinder` on. -/
def store (implType : BindType) (classMarks : Finset Nat) (p : Pending) (item : Item ρ)
    (s : LoggedStore) : Except CreateFault (Created ρ) × LoggedStore :=
  match objectFromBinder e.bits e.garbage (.binder p.name item) s with
  | (.error error, s) => (.error (.object error), s)
  | (.ok lid, s) =>
    match s.store.object lid with
    -- only if there was no room for it
    | none => (.error .noObject, s)
    | some optr =>
      let (optr, s) :=
        if p.interfaced ∧ implType = .bindClass then addClassMarks e optr classMarks s
        else (optr, s)
      (.ok (.reference { lid := optr.lid, interfaceKey := p.interfaceKey }), addRoot e optr s)

/-- An object for a binder no view has been found for. -/
def createObject (n : Nat) (name : Name) (item : Item ρ) (s : LoggedStore) :
    Except CreateFault (List (Created ρ)) × LoggedStore :=
  -- the variables of these names that are set in the branch above are others
  let implType := BindType.bindInterface
  let classMarks := ∅
  match implement e n name item s with
  | (.error fault, s) => (.error fault, s)
  | (.ok (made, p), s) =>
    match store e implType classMarks p item s with
    | (.error fault, s) => (.error fault, s)
    | (.ok lidres, s) => (.ok (made ++ [lidres]), s)

/-- What is looked at before anything is created. -/
def check (name : Name) (item : Item ρ) : Except CreateFault Unit := do
  if e.needsDeepCardCheck then
    match e.checkSubCardsRec (.binder name item) with
    | some code => throw (.cards code)
    | none => pure ()
  if e.isStaticMember then
    match e.staticFieldExist name with
    | .error code => throw (.classGraph code)
    | .ok false => throw .noClassDef
    | .ok true => pure ()

/-- One turn of the loop over the binders. -/
def createOne (n : Nat) (binder : Item ρ) (s : LoggedStore) :
    Except CreateFault (List (Created ρ)) × LoggedStore :=
  match binder with
  | .binder name item =>
    if !e.am.hasAccess Crud.create (text name) then (.ok [], s)
    else
      match check e name item with
      | .error fault => (.error fault, s)
      | .ok () =>
        match createOnView e name item s with
        | (.error fault, s) => (.error fault, s)
        | (.ok (c :: made), s) => (.ok (c :: made), s)
        | (.ok [], s) => createObject e n name item s
  | _ => (.error .otherResExp, s)

def createAll (n : Nat) : List (Item ρ) → LoggedStore →
    Except CreateFault (List (Created ρ)) × LoggedStore
  | [], s => (.ok [], s)
  | binder :: l, s =>
    match createOne e n binder s with
    | (.error fault, s) => (.error fault, s)
    | (.ok made, s) =>
      match createAll n l s with
      | (.error fault, s) => (.error fault, s)
      | (.ok rest, s) => (.ok (made ++ rest), s)

/-- `TNCREATE`, when the argument has been evaluated. -/
def create (n : Nat) (arg : Item ρ) (s : LoggedStore) :
    Except CreateFault (List (Created ρ)) × LoggedStore :=
  createAll e n (Item.bagAdd [] arg) s

-- ---------------------------------------------------------------------------
-- What is asked of it
-- ---------------------------------------------------------------------------

/-- The interface is bound to a class or a view, at once or through other interfaces. -/
inductive LeadsTo (b : BindMap) : String → ImplementationInfo → Prop
  | last {i : String} {iI : ImplementationInfo} (h : b.intToImp.lookup i = some iI)
    (htype : iI.type ≠ .bindInterface) : LeadsTo b i iI
  | next {i : String} {iI iI' : ImplementationInfo} (h : b.intToImp.lookup i = some iI)
    (htype : iI.type = .bindInterface) (hrest : LeadsTo b iI.name iI') : LeadsTo b i iI'

def Implements (name : Name) (iName : String) (iI : ImplementationInfo) : Prop :=
  e.im.getInterfaceNameForObject (text name) = some iName ∧ LeadsTo e.im.bindMap iName iI

def BoundToClass (name : Name) (iName : String) (iI : ImplementationInfo) (lid : UInt32) : Prop :=
  Implements e name iName iI ∧ iI.type = .bindClass ∧ e.cg.nameIndex iI.name = some lid

def BoundToView (s : LoggedStore) (name : Name) (iName : String) (iI : ImplementationInfo)
    (view : Nat) : Prop :=
  Implements e name iName iI ∧ iI.type = .bindView ∧
    e.viewsLID s (bytes iI.objectName) = [view]

def IsRoot (s : LoggedStore) (lid : Nat) : Prop :=
  ∃ o, s.store.object lid = some o ∧ o.isRoot = true

def SameRoots (s s' : LoggedStore) : Prop := ∀ i, IsRoot s' i ↔ IsRoot s i

def OneMoreRoot (s s' : LoggedStore) (lid : Nat) : Prop :=
  ¬IsRoot s lid ∧ ∀ i, IsRoot s' i ↔ i = lid ∨ IsRoot s i

/-- What was made for a binder is an instance of the class, what the view makes, or a plain root. -/
structure Right (name : Name) (item : Item ρ) (s : LoggedStore) (made : List (Created ρ))
    (s' : LoggedStore) : Prop where
  ofClass : ∀ iName iI cls, BoundToClass e name iName iI cls →
    ∃ lid o vertex, made = [.reference { lid, interfaceKey := bytes iName }] ∧
      OneMoreRoot s s' lid ∧ s'.store.object lid = some o ∧
      e.cg.classGraph cls = some vertex ∧ o.name = bytes vertex.invariant ∧
      cls.toNat ∈ o.value.classMarks
  ofView : ∀ iName iI view, BoundToView e s name iName iI view →
    ∃ res s₁, e.onCreate view item s = (.ok res, s₁) ∧
      made = (Item.bagAdd [] res).map (.virtual (bytes iI.objectName) view) ∧ SameRoots s₁ s'
  plain : isObjectNameBound e name = false → e.viewsLID s name = [] →
    ∃ lid o, made = [.reference { lid }] ∧ OneMoreRoot s s' lid ∧
      s'.store.object lid = some o ∧ o.name = name ∧ o.value.classMarks = ∅

/-- The name leads to no class, and to a view only that has this very name and makes something. -/
def Harmless (name : Name) (item : Item ρ) (s : LoggedStore) : Prop :=
  (∀ iName iI cls, ¬BoundToClass e name iName iI cls) ∧
    ∀ iName iI view, BoundToView e s name iName iI view → bytes iI.objectName = name ∧
      ∃ res s₁, e.onCreate view item s = (.ok res, s₁) ∧ Item.bagAdd [] res ≠ []

/-- There is room for the object that is to be stored. -/
def HasSpace (n : Nat) (name : Name) (item : Item ρ) (s : LoggedStore) : Prop :=
  ∀ made p s₁, implement e n name item (createOnView e name item s).2 = (.ok (made, p), s₁) →
    HasRoom s₁ (.binder p.name item)

/-- In every turn for a binder whose name may be created, `P` holds of the name, the value, the
store before, what is made and the store afterwards. -/
def EveryTurn (n : Nat)
    (P : Name → Item ρ → LoggedStore → List (Created ρ) → LoggedStore → Prop) :
    List (Item ρ) → LoggedStore → Prop
  | [], _ => True
  | binder :: l, s => ∀ made s', createOne e n binder s = (.ok made, s') →
    (∀ name item, binder = .binder name item →
      e.am.hasAccess Crud.create (text name) = true → P name item s made s') ∧
    EveryTurn n P l s'

end

-- ---------------------------------------------------------------------------
-- Roots
-- ---------------------------------------------------------------------------

section

variable {ρ : Type} {bits : ρ → BitVec 64} {garbage : Nat → Nat} {s s' s'' : LoggedStore}

theorem SameRoots.refl (s : LoggedStore) : SameRoots s s := fun _ => Iff.rfl

theorem SameRoots.trans (h : SameRoots s s') (h' : SameRoots s' s'') : SameRoots s s'' :=
  fun i => (h' i).trans (h i)

/-- An object that is put in a place that had none, or one that was no root. -/
theorem isRoot_update {lid : Nat} {o : Object}
    (h : s'.store.object = Function.update s.store.object lid (some o)) (i : Nat) :
    IsRoot s' i ↔ if i = lid then o.isRoot = true else IsRoot s i := by
  unfold IsRoot
  rw [h]
  split
  · rename_i heq
    subst heq
    rw [Function.update_self]
    constructor
    · rintro ⟨o', ho, hroot⟩
      cases ho
      exact hroot
    · intro hroot
      exact ⟨o, rfl, hroot⟩
  · rename_i hne
    rw [Function.update_of_ne hne]

/-- The object that is created is not a root. -/
theorem create_stored (garbage : Nat → Nat) {name : Name} {content : Content} (h : s.store.Sound)
    (hmax : s.store.lastAssigned + 1 ≤ maxLogicalID) (hroom : Room name content) :
    ∃ s', StoredValues.create garbage name content s = (.ok (s.store.lastAssigned + 1), s') ∧
      s'.store.Sound ∧ SameRoots s s' ∧
      s'.store.object (s.store.lastAssigned + 1) =
        some ⟨s.store.lastAssigned + 1, false, name, { content }⟩ := by
  have hlegal : ({ lid := s.store.lastAssigned + 1, isRoot := false, name, value := { content } } :
      Object).size + 4 ≤ maxFreeSpace := hroom
  obtain ⟨hsound₁, -, hobject₁⟩ := h.createLogicalID
  obtain ⟨store, hstore, hsound, hobject, -⟩ := hsound₁.createObject (Nat.succ_pos _) hmax hlegal
  rw [hobject₁] at hobject
  rw [← DBStoreManager.createObject_new] at hstore
  obtain ⟨s', hs', rfl⟩ :=
    LoggedStore.createObject_eq hstore 0 (garbage (s.store.lastAssigned + 1))
  refine ⟨s', by rw [StoredValues.create, hs'], hsound, ?_, ?_⟩
  · intro i
    rw [isRoot_update hobject]
    split
    · rename_i heq
      constructor
      · intro hroot
        contradiction
      · rintro ⟨o, ho, -⟩
        rw [heq, object_unassigned h (Nat.lt_succ_self _)] at ho
        contradiction
    · rfl
  · rw [hobject, Function.update_self]

/-- Another object, that is not a root. -/
theorem create_sameRoots {name : Name} {content : Content} {l₀ : LoggedStore} {n : Nat}
    (h : SameRoots l₀ s) (hs : s.store.Sound)
    (hlast : s.store.lastAssigned ≤ l₀.store.lastAssigned + n)
    (hmax : l₀.store.lastAssigned + (n + 1) ≤ maxLogicalID) (hroom : Room name content) :
    SameRoots l₀ (StoredValues.create garbage name content s).2 := by
  obtain ⟨s', hcreate, -, hsame, -⟩ := create_stored garbage hs (by omega) hroom
  rw [hcreate]
  exact h.trans hsame

mutual

theorem objectFromBinder_sameRoots : ∀ (r : Item ρ) {l : LoggedStore}, l.store.Sound → r.Fits →
    l.store.lastAssigned + r.binders ≤ maxLogicalID →
    SameRoots l (objectFromBinder bits garbage r l).2
  | .binder name (.int v), l, h, hfits, hmax =>
    create_sameRoots (.refl l) h (Nat.le_add_right _ 0) hmax hfits
  | .binder name (.double v), l, h, hfits, hmax =>
    create_sameRoots (.refl l) h (Nat.le_add_right _ 0) hmax hfits
  | .binder name (.string v), l, h, hfits, hmax =>
    create_sameRoots (.refl l) h (Nat.le_add_right _ 0) hmax hfits
  | .binder name (.reference r), l, h, hfits, hmax =>
    create_sameRoots (.refl l) h (Nat.le_add_right _ 0) hmax hfits
  | .binder name (.binder name' item), l, h, hfits, hmax => by
    have hle := Nat.le_trans (Nat.add_le_add_left (Nat.le_succ _) _) hmax
    have hinner := objectFromBinder_sameRoots (.binder name' item) h hfits.1 hle
    have hrun : Outcome l _ _ _ (objectFromBinder bits garbage (.binder name' item) l) :=
      objectFromBinder_outcome (.binder name' item) h hfits.1 hle
    rw [objectFromBinder]
    generalize objectFromBinder bits garbage (.binder name' item) l = res at hinner hrun ⊢
    obtain ⟨result, l'⟩ := res
    cases result with
    | error error => exact hinner
    | ok lid =>
      exact create_sameRoots hinner hrun.grown.sound hrun.last hmax
        (@room_vector name [lid] 1 hfits.2 rfl)
  | .binder name (.bag rs), l, h, hfits, hmax => by
    rw [objectFromBinder]
    cases hlids : lidsOf rs with
    | error error => exact .refl l
    | ok lids =>
      exact create_sameRoots (.refl l) h (Nat.le_add_right _ 0) hmax
        (room_vector hfits (length_lidsOf hlids))
  | .binder name (.struct rs), l, h, hfits, hmax => by
    have hle := Nat.le_trans (Nat.add_le_add_left (Nat.le_succ _) _) hmax
    have hinner := objectsFromStruct_sameRoots rs h hfits.1 hle
    have hrun : Outcome l _ _ _ (objectsFromStruct bits garbage rs l) :=
      objectsFromStruct_outcome rs h hfits.1 hle
    rw [objectFromBinder]
    generalize objectsFromStruct bits garbage rs l = res at hinner hrun ⊢
    obtain ⟨result, l'⟩ := res
    cases result with
    | error error => exact hinner
    | ok lids =>
      exact create_sameRoots hinner hrun.grown.sound hrun.last hmax
        (room_vector hfits.2 hrun.of_ok.2.2)
  | .binder _ (.bool _), l, _, _, _ => .refl l
  | .binder _ (.sequence _), l, _, _, _ => .refl l
  | .binder _ .nothing, l, _, _, _ => .refl l
  | .reference _, l, _, _, _ => .refl l
  | .string _, l, _, _, _ => .refl l
  | .int _, l, _, _, _ => .refl l
  | .double _, l, _, _, _ => .refl l
  | .bool _, l, _, _, _ => .refl l
  | .struct _, l, _, _, _ => .refl l
  | .bag _, l, _, _, _ => .refl l
  | .sequence _, l, _, _, _ => .refl l
  | .nothing, l, _, _, _ => .refl l

theorem objectsFromStruct_sameRoots : ∀ (rs : List (Item ρ)) {l : LoggedStore}, l.store.Sound →
    AllFit rs → l.store.lastAssigned + allBinders rs ≤ maxLogicalID →
    SameRoots l (objectsFromStruct bits garbage rs l).2
  | [], l, _, _, _ => .refl l
  | r :: rs, l, h, hfits, hmax => by
    rw [allBinders] at hmax
    have hle : l.store.lastAssigned + r.binders ≤ maxLogicalID := by omega
    have hfirst := objectFromBinder_sameRoots r h hfits.1 hle
    have hrun : Outcome l _ _ _ (objectFromBinder bits garbage r l) :=
      objectFromBinder_outcome r h hfits.1 hle
    rw [objectsFromStruct]
    generalize objectFromBinder bits garbage r l = res at hfirst hrun ⊢
    obtain ⟨result, l'⟩ := res
    cases result with
    | error error => exact hfirst
    | ok lid =>
      have hlast := hrun.last
      have hrest := objectsFromStruct_sameRoots rs hrun.grown.sound hfits.2 (by omega)
      simp only at hrest ⊢
      generalize objectsFromStruct bits garbage rs l' = res at hrest ⊢
      obtain ⟨result, l''⟩ := res
      cases result with
      | error error => exact hfirst.trans hrest
      | ok lids => exact hfirst.trans hrest

end

/-- An object with this name and nothing but its content, which is not a root yet. -/
def Stored (name : Name) (lid : Nat) (s : LoggedStore) : Prop :=
  ∃ content, s.store.object lid = some ⟨lid, false, name, { content }⟩ ∧ Room name content

theorem create_object {name : Name} {content : Content} {lid : Nat} {l₀ : LoggedStore} {n : Nat}
    (hs : s.store.Sound) (hlast : s.store.lastAssigned ≤ l₀.store.lastAssigned + n)
    (hmax : l₀.store.lastAssigned + (n + 1) ≤ maxLogicalID) (hroom : Room name content)
    (h : StoredValues.create garbage name content s = (.ok lid, s')) :
    Stored name lid s' ∧ 0 < lid ∧ lid ≤ maxLogicalID := by
  have hle : s.store.lastAssigned + 1 ≤ maxLogicalID := by omega
  obtain ⟨s₁, hcreate, -, -, hobject⟩ := create_stored garbage hs hle hroom
  rw [hcreate] at h
  cases h
  exact ⟨⟨content, hobject, hroom⟩, Nat.succ_pos _, hle⟩

theorem objectFromBinder_object {name : Name} {item : Item ρ} {lid : Nat} (hs : s.store.Sound)
    (hroom : HasRoom s (.binder name item))
    (h : objectFromBinder bits garbage (.binder name item) s = (.ok lid, s')) :
    Stored name lid s' ∧ 0 < lid ∧ lid ≤ maxLogicalID := by
  obtain ⟨hfits, hmax, -⟩ := hroom
  cases item with
  | int v =>
    have hroom : Room name (.integer v) := hfits
    exact create_object hs (Nat.le_add_right _ 0) hmax hroom h
  | double v =>
    have hroom : Room name (.double (bits v)) := hfits
    exact create_object hs (Nat.le_add_right _ 0) hmax hroom h
  | string v => exact create_object hs (Nat.le_add_right _ 0) hmax hfits h
  | reference r => exact create_object hs (Nat.le_add_right _ 0) hmax hfits h
  | binder name' item =>
    have hrun : Outcome s _ _ _ (objectFromBinder bits garbage (.binder name' item) s) :=
      objectFromBinder_outcome (.binder name' item) hs hfits.1
        (Nat.le_trans (Nat.add_le_add_left (Nat.le_succ _) _) hmax)
    rw [objectFromBinder] at h
    generalize objectFromBinder bits garbage (.binder name' item) s = res at hrun h
    obtain ⟨result, s₁⟩ := res
    cases result with
    | error error => cases h
    | ok lid' =>
      exact create_object hrun.grown.sound hrun.last hmax
        (@room_vector name [lid'] 1 hfits.2 rfl) h
  | bag rs =>
    rw [objectFromBinder] at h
    cases hlids : lidsOf rs with
    | error error =>
      rw [hlids] at h
      cases h
    | ok lids =>
      rw [hlids] at h
      exact create_object hs (Nat.le_add_right _ 0) hmax
        (room_vector hfits (length_lidsOf hlids)) h
  | struct rs =>
    have hrun : Outcome s _ _ _ (objectsFromStruct bits garbage rs s) :=
      objectsFromStruct_outcome rs hs hfits.1
        (Nat.le_trans (Nat.add_le_add_left (Nat.le_succ _) _) hmax)
    rw [objectFromBinder] at h
    generalize objectsFromStruct bits garbage rs s = res at hrun h
    obtain ⟨result, s₁⟩ := res
    cases result with
    | error error => cases h
    | ok lids =>
      exact create_object hrun.grown.sound hrun.last hmax
        (room_vector hfits.2 hrun.of_ok.2.2) h
  | bool _ => cases h
  | sequence _ => cases h
  | nothing => cases h

end

-- ---------------------------------------------------------------------------
-- One turn
-- ---------------------------------------------------------------------------

section

variable {ρ : Type} {e : Surroundings ρ} {n : Nat} {name : Name} {item : Item ρ}
  {s s' : LoggedStore} {made : List (Created ρ)} {p : Pending}

theorem addRoot_spec (e : Surroundings ρ) {o : Object} (h : s.store.Sound) (hpos : 0 < o.lid)
    (hmax : o.lid ≤ maxLogicalID) (hroom : o.size + 4 ≤ maxFreeSpace) :
    (addRoot e o s).store.Sound ∧ (addRoot e o s).store.object =
      Function.update s.store.object o.lid (some { o with isRoot := true }) := by
  have hlegal : ({ { o with isRoot := true } with value := o.value } : Object).size + 4 ≤
      maxFreeSpace := hroom
  obtain ⟨store, hstore, hsound, hobject⟩ :=
    h.modifyObject_any (o := { o with isRoot := true }) hpos hmax hlegal
  obtain ⟨s', hs', rfl⟩ := LoggedStore.modifyObject_eq hstore 0 (e.garbage o.lid)
  rw [addRoot, hs']
  exact ⟨hsound, hobject⟩

/-- As the code calls it, no object gets a class mark. -/
theorem store_spec {c : Created ρ} (hs : s.store.Sound) (hroom : HasRoom s (.binder p.name item))
    (h : store e .bindInterface ∅ p item s = (.ok c, s')) :
    s'.store.Sound ∧ ∃ lid o, c = .reference { lid, interfaceKey := p.interfaceKey } ∧
      OneMoreRoot s s' lid ∧ s'.store.object lid = some o ∧ o.name = p.name ∧
      o.value.classMarks = ∅ := by
  have hsame : SameRoots s (objectFromBinder e.bits e.garbage (.binder p.name item) s).2 :=
    objectFromBinder_sameRoots (.binder p.name item) hs hroom.fits hroom.ids
  have hrun : Outcome s _ _ _ (objectFromBinder e.bits e.garbage (.binder p.name item) s) :=
    objectFromBinder_outcome (.binder p.name item) hs hroom.fits hroom.ids
  rw [store] at h
  cases hfrom : objectFromBinder e.bits e.garbage (.binder p.name item) s with
  | mk result s₁ =>
    rw [hfrom] at h hsame hrun
    cases result with
    | error error => cases h
    | ok lid =>
      obtain ⟨⟨content, hobject, hsize⟩, hpos, hmax⟩ := objectFromBinder_object hs hroom hfrom
      simp only [hobject, reduceCtorEq, and_false, if_false] at h
      cases h
      have hlegal : (⟨lid, false, p.name, { content }⟩ : Object).size + 4 ≤ maxFreeSpace := hsize
      obtain ⟨hsound, hupdate⟩ := addRoot_spec e hrun.grown.sound hpos hmax hlegal
      refine ⟨hsound, lid, _, rfl, ⟨?_, ?_⟩, by rw [hupdate, Function.update_self], rfl, rfl⟩
      · intro hroot
        obtain ⟨o, ho, hisRoot⟩ := (hsame lid).mpr hroot
        rw [hobject] at ho
        cases ho
        contradiction
      · intro i
        rw [isRoot_update hupdate]
        split
        · rename_i heq
          exact ⟨fun _ => .inl heq, fun _ => rfl⟩
        · rename_i hne
          exact (hsame i).trans ⟨.inr, fun hor => hor.resolve_left hne⟩

theorem createOnView_ok {objectName : Name}
    (h : createOnView e objectName item s = (.ok made, s')) :
    (e.viewsLID s objectName = [] ∧ made = [] ∧ s' = s) ∨
      ∃ view res, e.viewsLID s objectName = [view] ∧ e.onCreate view item s = (.ok res, s') ∧
        made = (Item.bagAdd [] res).map (.virtual objectName view) := by
  rw [createOnView] at h
  cases hviews : e.viewsLID s objectName with
  | nil =>
    rw [hviews] at h
    cases h
    exact .inl ⟨rfl, rfl, rfl⟩
  | cons view views =>
    cases views with
    | cons _ _ =>
      rw [hviews] at h
      cases h
    | nil =>
      rw [hviews] at h
      simp only at h
      cases hrun : e.onCreate view item s with
      | mk result s₁ =>
        rw [hrun] at h
        cases result with
        | error code => cases h
        | ok res =>
          cases h
          exact .inr ⟨view, res, rfl, hrun, rfl⟩

theorem createOnView_sound (e : Surroundings ρ) (objectName : Name) (item : Item ρ)
    (hs : s.store.Sound) :
    (createOnView e objectName item s).2.store.Sound := by
  rw [createOnView]
  split
  · exact hs
  · rename_i view _
    have hsound := e.onCreate_sound view item s hs
    generalize e.onCreate view item s = res at hsound ⊢
    obtain ⟨result, s₁⟩ := res
    cases result with
    | error code => exact hsound
    | ok res => exact hsound
  · exact hs

theorem implement_sound (e : Surroundings ρ) (n : Nat) (name : Name) (item : Item ρ)
    (hs : s.store.Sound) : (implement e n name item s).2.store.Sound := by
  unfold implement
  split
  · exact hs
  · split
    · exact hs
    · split
      · exact hs
      · exact hs
      · rename_i iI _
        dsimp only
        split
        · split <;> exact hs
        · have hsound := createOnView_sound e (bytes iI.objectName) item hs
          generalize createOnView e (bytes iI.objectName) item s = res at hsound ⊢
          obtain ⟨result, s₁⟩ := res
          cases result with
          | error fault => exact hsound
          | ok made => exact hsound
        · exact hs

theorem implement_unbound (h : isObjectNameBound e name = false) :
    implement e n name item s = (.ok ([], { name }), s) := by
  rw [isObjectNameBound] at h
  rw [implement]
  cases hname : e.im.getInterfaceNameForObject (text name) with
  | none => rfl
  | some iName =>
    rw [hname] at h
    simp only at h
    simp only [h, Bool.not_false, if_true]

/-- What a turn for a binder that may be created makes: the virtual objects of the view that has the
name, or at last a reference to an object that is stored. -/
theorem createOne_ok (hpermitted : e.am.hasAccess Crud.create (text name) = true)
    (h : createOne e n (.binder name item) s = (.ok made, s')) :
    (made ≠ [] ∧ createOnView e name item s = (.ok made, s')) ∨
      ∃ s₀ before p s₁ c, createOnView e name item s = (.ok [], s₀) ∧
        implement e n name item s₀ = (.ok (before, p), s₁) ∧
        store e .bindInterface ∅ p item s₁ = (.ok c, s') ∧ made = before ++ [c] := by
  rw [createOne, hpermitted] at h
  simp only [Bool.not_true, Bool.false_eq_true, if_false] at h
  cases hcheck : check e name item with
  | error fault =>
    rw [hcheck] at h
    cases h
  | ok _ =>
    rw [hcheck] at h
    simp only at h
    cases hview : createOnView e name item s with
    | mk result s₀ =>
      rw [hview] at h
      cases result with
      | error fault => cases h
      | ok virtual =>
        cases virtual with
        | cons c rest =>
          cases h
          exact .inl ⟨List.cons_ne_nil _ _, rfl⟩
        | nil =>
          simp only [createObject] at h
          cases himp : implement e n name item s₀ with
          | mk result s₁ =>
            rw [himp] at h
            cases result with
            | error fault => cases h
            | ok pair =>
              obtain ⟨before, p⟩ := pair
              simp only at h
              cases hstore : store e .bindInterface ∅ p item s₁ with
              | mk result s₂ =>
                rw [hstore] at h
                cases result with
                | error fault => cases h
                | ok c =>
                  cases h
                  exact .inr ⟨s₀, before, p, s₁, c, rfl, himp, hstore, rfl⟩

theorem createOne_sound (hs : s.store.Sound)
    (hpermitted : e.am.hasAccess Crud.create (text name) = true)
    (hspace : HasSpace e n name item s)
    (h : createOne e n (.binder name item) s = (.ok made, s')) : s'.store.Sound := by
  have hsound := createOnView_sound e name item hs
  rcases createOne_ok hpermitted h with ⟨-, hview⟩ | ⟨s₀, before, p, s₁, c, hview, himp, hstore, -⟩
  · rw [hview] at hsound
    exact hsound
  · rw [HasSpace, hview] at hspace
    rw [hview] at hsound
    have hsound₁ := implement_sound e n name item hsound
    rw [himp] at hsound₁
    exact (store_spec hsound₁ (hspace before p s₁ himp) hstore).1

theorem createOne_refused (hrefused : e.am.hasAccess Crud.create (text name) = false)
    (h : createOne e n (.binder name item) s = (.ok made, s')) : s' = s := by
  rw [createOne, hrefused] at h
  cases h
  rfl

theorem virtual_ne_reference {objectName : Name} {view : Nat} {l : List (Item ρ)} {r : Reference} :
    Created.reference r ∉ l.map (.virtual objectName view) := by
  intro hmem
  obtain ⟨seed, -, hseed⟩ := List.mem_map.mp hmem
  cases hseed

/-- What a turn makes is as it should be just when the name is harmless. -/
theorem right_iff (hs : s.store.Sound)
    (hpermitted : e.am.hasAccess Crud.create (text name) = true)
    (hspace : HasSpace e n name item s)
    (h : createOne e n (.binder name item) s = (.ok made, s')) :
    Right e name item s made s' ↔ Harmless e name item s := by
  rcases createOne_ok hpermitted h with
    ⟨hne, hview⟩ | ⟨s₀, before, p, s₁, c, hview, himp, hstore, rfl⟩
  · -- the view of the name has made something
    rcases createOnView_ok hview with ⟨-, hnil, -⟩ | ⟨view, res, hviews, hrun, rfl⟩
    · exact absurd hnil hne
    constructor
    · intro hright
      refine ⟨fun iName iI cls hclass => ?_, fun iName iI view' hbound => ?_⟩
      · obtain ⟨lid, o, vertex, hmade, -⟩ := hright.ofClass iName iI cls hclass
        have hmem : Created.reference { lid, interfaceKey := bytes iName } ∈
            (Item.bagAdd [] res).map (.virtual name view) := by
          rw [hmade]
          exact List.mem_singleton_self _
        exact virtual_ne_reference hmem
      · obtain ⟨res', s₁, hrun', hmade, -⟩ := hright.ofView iName iI view' hbound
        cases hres : Item.bagAdd [] res with
        | nil => exact absurd (by rw [hres]; rfl) hne
        | cons seed seeds =>
          cases hres' : Item.bagAdd [] res' with
          | nil =>
            rw [hres, hres'] at hmade
            cases hmade
          | cons seed' seeds' =>
            rw [hres, hres'] at hmade
            injection hmade with hhead
            injection hhead with hname
            exact ⟨hname.symm, res', s₁, hrun', by rw [hres']; exact List.cons_ne_nil _ _⟩
    · rintro ⟨hclass, hviews'⟩
      refine ⟨fun iName iI cls hbound => absurd hbound (hclass iName iI cls), ?_, ?_⟩
      · intro iName iI view' hbound
        obtain ⟨hname, -⟩ := hviews' iName iI view' hbound
        have hsame := hbound.2.2
        rw [hname, hviews] at hsame
        cases hsame
        exact ⟨res, s', hrun, by rw [hname], .refl s'⟩
      · intro _ hnone
        rw [hnone] at hviews
        cases hviews
  · -- an object has been stored
    have hsound₀ := createOnView_sound e name item hs
    rw [HasSpace, hview] at hspace
    rw [hview] at hsound₀
    have hsound₁ := implement_sound e n name item hsound₀
    rw [himp] at hsound₁
    obtain ⟨-, lid, o, rfl, hroot, hobject, hname, hmarks⟩ :=
      store_spec hsound₁ (hspace before p s₁ himp) hstore
    have hlast : Created.reference (ρ := ρ) { lid, interfaceKey := p.interfaceKey } ∈
        before ++ [.reference { lid, interfaceKey := p.interfaceKey }] :=
      List.mem_append_right _ (List.mem_singleton_self _)
    constructor
    · intro hright
      refine ⟨fun iName iI cls hclass => ?_, fun iName iI view hbound => ?_⟩
      · obtain ⟨lid', o', vertex, hmade, -, hobject', -, -, hmark⟩ :=
          hright.ofClass iName iI cls hclass
        rw [hmade, List.mem_singleton] at hlast
        injection hlast with hreference
        injection hreference with hlid
        rw [← hlid, hobject] at hobject'
        cases hobject'
        rw [hmarks] at hmark
        exact absurd hmark (Finset.notMem_empty _)
      · obtain ⟨res, s₂, -, hmade, -⟩ := hright.ofView iName iI view hbound
        rw [hmade] at hlast
        exact absurd hlast virtual_ne_reference
    · rintro ⟨hclass, hviews⟩
      refine ⟨fun iName iI cls hbound => absurd hbound (hclass iName iI cls), ?_, ?_⟩
      · intro iName iI view hbound
        obtain ⟨hname', res, s₂, hrun, hsome⟩ := hviews iName iI view hbound
        have hviews' := hbound.2.2
        rw [hname'] at hviews'
        rw [createOnView, hviews'] at hview
        simp only [hrun] at hview
        injection hview with hlist
        injection hlist with hlist
        exact absurd (List.map_eq_nil_iff.mp hlist) hsome
      · intro hunbound hnone
        rcases createOnView_ok hview with ⟨-, -, rfl⟩ | ⟨view, res, hviews', -⟩
        · rw [implement_unbound hunbound] at himp
          cases himp
          exact ⟨lid, o, rfl, hroot, hobject, hname, hmarks⟩
        · rw [hnone] at hviews'
          cases hviews'

theorem turn_sound {binder : Item ρ} (hs : s.store.Sound)
    (hspace : ∀ name item, binder = .binder name item →
      e.am.hasAccess Crud.create (text name) = true → HasSpace e n name item s)
    (h : createOne e n binder s = (.ok made, s')) : s'.store.Sound := by
  cases binder with
  | binder name item =>
    cases haccess : e.am.hasAccess Crud.create (text name) with
    | true => exact createOne_sound hs haccess (hspace name item rfl haccess) h
    | false => rwa [createOne_refused haccess h]
  | _ => cases h

end

-- ---------------------------------------------------------------------------
-- All binders
-- ---------------------------------------------------------------------------

/-- In a run every turn makes what it should just when every name is harmless in its turn. -/
theorem everyTurn_right_iff {ρ : Type} {e : Surroundings ρ} {n : Nat} {l : List (Item ρ)}
    {s : LoggedStore} (hs : s.store.Sound)
    (hspace : EveryTurn e n (fun name item s _ _ => HasSpace e n name item s) l s) :
    EveryTurn e n (Right e) l s ↔
      EveryTurn e n (fun name item s _ _ => Harmless e name item s) l s := by
  induction l generalizing s with
  | nil => exact Iff.rfl
  | cons binder l ih =>
    refine forall_congr' fun made => forall_congr' fun s' => forall_congr' fun hturn => ?_
    obtain ⟨hfirst, hrest⟩ := hspace made s' hturn
    refine and_congr ?_ (ih (turn_sound hs hfirst hturn) hrest)
    refine forall_congr' fun name => forall_congr' fun item => forall_congr' fun hbinder =>
      forall_congr' fun hpermitted => ?_
    subst hbinder
    exact right_iff hs hpermitted (hfirst name item rfl hpermitted) hturn

/-- An interface `I` with objects `o`, which is bound to the class `C`. -/
def classBound : Surroundings Unit where
  bits _ := 0
  garbage _ := 0
  am := { disabled := true }
  im := { objNameToName := (∅ : OrderedMap String String).insert "o" "I"
          bindMap := BindMap.addBind {} "I" "C" "c" .bindClass }
  cg := { classGraph := fun _ => some { invariant := "c", name := "C" }
          nameIndex := fun _ => some 5 }
  viewsLID _ _ := []
  onCreate _ item s := (.ok item, s)
  needsDeepCardCheck := false
  checkSubCardsRec _ := none
  isStaticMember := false
  staticFieldExist _ := .ok false
  onCreate_sound _ _ _ h := h

theorem hasRoom_seven (name : Name) (hname : name.length = 1) :
    HasRoom {} (.binder name (.int 7 : Item Unit)) := by
  refine ⟨?_, ?_, ?_⟩
  · simp [Item.Fits, Room, Object.size, DataValue.size, DataValue.setSize,
      DataValue.subclassesSize, DataValue.contentSize, maxFreeSpace, pageSize, hname]
  · change 0 + 1 ≤ maxLogicalID
    decide
  · change pageId (0 + 1) < 65536
    decide

/-- A name that belongs to nothing. -/
theorem everyTurn_right_plain :
    EveryTurn classBound 1 (Right classBound) [.binder [112] (.int 7)] {} := by
  refine (everyTurn_right_iff DBStoreManager.sound_init ?_).mpr ?_
  · intro made s' hturn
    refine ⟨?_, trivial⟩
    rintro _ _ ⟨⟩ - made p s₁ ⟨⟩
    exact hasRoom_seven [112] rfl
  · intro made s' hturn
    refine ⟨?_, trivial⟩
    rintro _ _ ⟨⟩ -
    have hnone : classBound.im.getInterfaceNameForObject (text [112]) = none := rfl
    constructor
    · rintro iName iI cls ⟨⟨hname, -⟩, -⟩
      rw [hnone] at hname
      contradiction
    · rintro iName iI view ⟨⟨hname, -⟩, -⟩
      rw [hnone] at hname
      contradiction

/-- The object made through the interface has no mark of the class. -/
theorem not_everyTurn_right_class :
    ¬EveryTurn classBound 1 (Right classBound) [.binder [111] (.int 7)] {} := by
  intro h
  obtain ⟨made, s', hturn⟩ : ∃ made s',
      createOne classBound 1 (.binder [111] (.int 7)) {} = (.ok made, s') := ⟨_, _, rfl⟩
  have hspace : HasSpace classBound 1 [111] (.int 7) {} := by
    rintro made p s₁ ⟨⟩
    exact hasRoom_seven _ rfl
  have hright := (h made s' hturn).1 [111] (.int 7) rfl rfl
  have hharmless := (right_iff DBStoreManager.sound_init rfl hspace hturn).mp hright
  exact hharmless.1 "I" ⟨"C", "c", .bindClass⟩ 5 ⟨⟨rfl, .last rfl (by decide)⟩, rfl, rfl⟩

end Loxim.QueryExecutor.CreateOperator
