import Loxim.Store.StoreCalls

/-!
# Creating objects from values and reading them back

`objectFromBinder` creates an object for every binder in a value, the inner ones first.
`derefQuery` follows references and puts a value together from the objects.
-/

namespace Loxim.QueryExecutor.StoredValues

open Store

abbrev Name := List (BitVec 8)

/-- A reference may have been made by `ref`, and may come with the name of an interface. -/
structure Reference where
  lid : Nat
  refed : Bool := false
  interfaceKey : Name := []
deriving DecidableEq

/-- A result whose real numbers are of the type `ρ`. -/
inductive Item (ρ : Type)
  | reference (value : Reference)
  | string (value : Name)
  | int (value : BitVec 32)
  | double (value : ρ)
  | bool (value : Bool)
  | binder (name : Name) (item : Item ρ)
  | struct (str : List (Item ρ))
  | bag (bag : List (Item ρ))
  | sequence (seq : List (Item ρ))
  | nothing

namespace Item

variable {ρ : Type}

def isNothing : Item ρ → Bool
  | .sequence [] | .bag [] | .struct [] => true
  | .sequence [r] | .bag [r] | .struct [r] => r.isNothing
  | .sequence (_ :: _ :: _) | .bag (_ :: _ :: _) | .struct (_ :: _ :: _) => false
  | .nothing => true
  | .reference _ | .string _ | .int _ | .double _ | .bool _ | .binder .. => false

def present (l : List (Item ρ)) : List (Item ρ) := l.filter fun r => !r.isNothing

/-- The receivers of `addResult` afterwards. -/
def structAdd (str : List (Item ρ)) : Item ρ → List (Item ρ)
  | .struct l => str ++ present l
  | r => str ++ present [r]

def sequenceAdd (seq : List (Item ρ)) : Item ρ → List (Item ρ)
  | .sequence l | .bag l => seq ++ present l
  | r => seq ++ present [r]

def bagAdd (bag : List (Item ρ)) : Item ρ → List (Item ρ)
  | .sequence l | .bag l => if bag.length = 0 then l else bag ++ present l
  | r => bag ++ present [r]

end Item

-- ---------------------------------------------------------------------------
-- Creating
-- ---------------------------------------------------------------------------

inductive CreateError
  | otherResExp
  | refExpected
deriving DecidableEq

section

variable {ρ : Type} (bits : ρ → BitVec 64) (garbage : Nat → Nat)

/-- `createObject` of the transaction. What is left of the store when there is no room for the
object depends on memory that is not set. -/
def create (name : Name) (content : Content) (s : LoggedStore) :
    Except CreateError Nat × LoggedStore :=
  let lid := s.store.lastAssigned + 1
  (.ok lid, (s.createObject 0 name { content } none false (garbage lid)).2)

/-- The ids of the references in a bag. -/
def lidsOf : List (Item ρ) → Except CreateError (List Nat)
  | [] => .ok []
  | .reference r :: l => (lidsOf l).map (r.lid :: ·)
  | _ :: _ => .error .refExpected

mutual

/-- The id of the new object, and the store, also after an error. -/
def objectFromBinder : Item ρ → LoggedStore → Except CreateError Nat × LoggedStore
  | .binder name (.int v), s => create garbage name (.integer v) s
  | .binder name (.double v), s => create garbage name (.double (bits v)) s
  | .binder name (.string v), s => create garbage name (.string v) s
  | .binder name (.reference r), s => create garbage name (.pointer r.lid) s
  | .binder name (.binder name' item), s =>
    match objectFromBinder (.binder name' item) s with
    | (.error error, s) => (.error error, s)
    | (.ok lid, s) => create garbage name (.vector [lid]) s
  | .binder name (.bag l), s =>
    match lidsOf l with
    | .error error => (.error error, s)
    | .ok lids => create garbage name (.vector lids) s
  | .binder name (.struct l), s =>
    match objectsFromStruct l s with
    | (.error error, s) => (.error error, s)
    | (.ok lids, s) => create garbage name (.vector lids) s
  | .binder _ (.bool _), s | .binder _ (.sequence _), s | .binder _ .nothing, s =>
    (.error .otherResExp, s)
  | .reference _, s | .string _, s | .int _, s | .double _, s | .bool _, s | .struct _, s
  | .bag _, s | .sequence _, s | .nothing, s => (.error .otherResExp, s)

/-- The objects of the fields one after another. -/
def objectsFromStruct : List (Item ρ) → LoggedStore → Except CreateError (List Nat) × LoggedStore
  | [], s => (.ok [], s)
  | curr :: l, s =>
    match objectFromBinder curr s with
    | (.error error, s) => (.error error, s)
    | (.ok lid, s) =>
      match objectsFromStruct l s with
      | (.error error, s) => (.error error, s)
      | (.ok lids, s) => (.ok (lid :: lids), s)

end

end

-- ---------------------------------------------------------------------------
-- Reading
-- ---------------------------------------------------------------------------

/-- An error of the store, an object that is not there, a field whose value was never set, or a
value that is deeper than the calls allowed. -/
inductive Fault
  | store (code : Int)
  | noObject
  | unset
  | depth
deriving DecidableEq

section

variable {ρ : Type} (real : BitVec 64 → ρ) (bound : Name → Option (List Name))

/-- The fields of the objects that an interface shows, if it is bound. -/
def visible (key : Name) : Option (List Name) := if key = [] then none else bound key

/-- `getObjectPointer`, when the object has to be there. -/
def getObjectPointer (s : DBStoreManager) (lid : Nat) : Except Fault Object :=
  match s.getObject lid with
  | .error code => .error (.store code)
  | .ok none => .error .noObject
  | .ok (some o) => .ok o

/-- What a call whose error is not looked at leaves in its result. -/
def unchecked : Except Fault (Item ρ) → Except Fault (Item ρ)
  | .error .depth => .error .depth
  | .error _ => .error .unset
  | .ok r => .ok r

/-- A collection of one element is the element. -/
def single : Item ρ → Item ρ
  | .bag [r] | .sequence [r] => r
  | r => r

/-- `deref` is the call one level down. -/
def derefObject (deref : Item ρ → Except Fault (Item ρ)) (s : DBStoreManager) (o : Object)
    (names : Option (List Name)) : Except Fault (Item ρ) :=
  match o.value.content with
  | .integer v => .ok (.int v)
  | .double v => .ok (.double (real v))
  | .string v => .ok (.string v)
  | .pointer lid => .ok (.reference { lid })
  | .vector lids => do
    let str ← lids.foldlM (fun res lid => do
      let curr ← getObjectPointer s lid
      if names.any fun names => curr.name ∉ names then return res
      let inside ← unchecked (deref (.reference { lid }))
      return Item.structAdd res (.binder curr.name inside)) []
    return .struct str

/-- So many levels of calls are allowed. -/
def derefQuery (s : DBStoreManager) : Nat → Item ρ → Except Fault (Item ρ)
  | 0, _ => .error .depth
  | n + 1, arg => do
    let res ← match arg with
      | .sequence l => do
        let seq ← l.foldlM (fun res item => do
          return Item.sequenceAdd res (← derefQuery s n item)) []
        return .sequence seq
      | .bag l => do
        let bag ← l.foldlM (fun res item => do return Item.bagAdd res (← derefQuery s n item)) []
        return .bag bag
      | .struct l => do
        let str ← l.foldlM (fun res item => do
          return Item.structAdd res (← derefQuery s n item)) []
        return .struct str
      | .binder name item => return .binder name (← derefQuery s n item)
      | .reference r =>
        if r.refed then return .reference r
        else
          match s.getObject r.lid with
          | .error code => throw (.store code)
          | .ok none => return .bag []
          | .ok (some o) => derefObject real (derefQuery s n) s o (visible bound r.interfaceKey)
      | .bool _ | .int _ | .double _ | .string _ | .nothing => return arg
    return single res

end

-- ---------------------------------------------------------------------------
-- What values are
-- ---------------------------------------------------------------------------

/-- What becomes of a binder: an object, an error before anything is created, or one after. -/
inductive Verdict
  | creates
  | failsAtOnce
  | failsLate
deriving DecidableEq

section

variable {ρ : Type}

mutual

/-- References without their marks. -/
def Item.unmarked : Item ρ → Item ρ
  | .reference r => .reference { lid := r.lid }
  | .binder name item => .binder name item.unmarked
  | .struct l => .struct (allUnmarked l)
  | .bag l => .bag (allUnmarked l)
  | .sequence l => .sequence (allUnmarked l)
  | .string v => .string v
  | .int v => .int v
  | .double v => .double v
  | .bool v => .bool v
  | .nothing => .nothing

def allUnmarked : List (Item ρ) → List (Item ρ)
  | [] => []
  | r :: l => r.unmarked :: allUnmarked l

end

mutual

/-- Numbers, strings, references, and structs of binders with at least one field. -/
def Item.Built : Item ρ → Prop
  | .int _ | .double _ | .string _ | .reference _ => True
  | .struct l => l ≠ [] ∧ FieldsBuilt l
  | .bool _ | .binder .. | .bag _ | .sequence _ | .nothing => False

def FieldsBuilt : List (Item ρ) → Prop
  | [] => True
  | .binder _ item :: l => item.Built ∧ FieldsBuilt l
  | _ :: _ => False

end

mutual

def Item.verdict : Item ρ → Verdict
  | .binder _ (.int _) | .binder _ (.double _) | .binder _ (.string _) | .binder _ (.reference _) =>
    .creates
  | .binder _ (.binder name item) => (Item.binder name item).verdict
  | .binder _ (.bag l) =>
    match lidsOf l with
    | .error _ => .failsAtOnce
    | .ok _ => .creates
  | .binder _ (.struct l) => fieldsVerdict l
  | .binder _ (.bool _) | .binder _ (.sequence _) | .binder _ .nothing => .failsAtOnce
  | .reference _ | .string _ | .int _ | .double _ | .bool _ | .struct _ | .bag _ | .sequence _
  | .nothing => .failsAtOnce

def fieldsVerdict : List (Item ρ) → Verdict
  | [] => .creates
  | r :: l =>
    match r.verdict with
    | .creates => if fieldsVerdict l = .creates then .creates else .failsLate
    | .failsAtOnce => .failsAtOnce
    | .failsLate => .failsLate

end

/-- There is room for an object on a page. -/
def Room (name : Name) (content : Content) : Prop :=
  ({ lid := 0, isRoot := false, name, value := { content } } : Object).size + 4 ≤ maxFreeSpace

mutual

/-- There is room for every object that is created. -/
def Item.Fits : Item ρ → Prop
  | .binder name (.int _) => Room name (.integer 0)
  | .binder name (.double _) => Room name (.double 0)
  | .binder name (.string v) => Room name (.string v)
  | .binder name (.reference r) => Room name (.pointer r.lid)
  | .binder name (.binder name' item) =>
    (Item.binder name' item).Fits ∧ Room name (.vector [0])
  | .binder name (.bag l) => Room name (.vector (List.replicate l.length 0))
  | .binder name (.struct l) => AllFit l ∧ Room name (.vector (List.replicate l.length 0))
  | .binder _ (.bool _) | .binder _ (.sequence _) | .binder _ .nothing => True
  | .reference _ | .string _ | .int _ | .double _ | .bool _ | .struct _ | .bag _ | .sequence _
  | .nothing => True

def AllFit : List (Item ρ) → Prop
  | [] => True
  | r :: l => r.Fits ∧ AllFit l

end

mutual

/-- How many binders there are, and so how many objects at most. -/
def Item.binders : Item ρ → Nat
  | .binder _ item => item.binders + 1
  | .struct l => allBinders l
  | .reference _ | .string _ | .int _ | .double _ | .bool _ | .bag _ | .sequence _ | .nothing => 0

def allBinders : List (Item ρ) → Nat
  | [] => 0
  | r :: l => r.binders + allBinders l

end

end

-- ---------------------------------------------------------------------------
-- Creating one object
-- ---------------------------------------------------------------------------

/-- The store has got more objects. -/
structure Grown (s s' : DBStoreManager) : Prop where
  sound : s'.Sound
  last : s.lastAssigned ≤ s'.lastAssigned
  kept : ∀ lid o, s.object lid = some o → s'.object lid = some o

variable {s s' s'' : DBStoreManager} {l : LoggedStore} {name : Name} {content : Content}
  {lid : Nat}

theorem Grown.refl (h : s.Sound) : Grown s s := ⟨h, Nat.le_refl _, fun _ _ ho => ho⟩

theorem Grown.trans (h : Grown s s') (h' : Grown s' s'') : Grown s s'' :=
  ⟨h'.sound, h.last.trans h'.last, fun lid o ho => h'.kept lid o (h.kept lid o ho)⟩

theorem object_unassigned (h : s.Sound) (hlid : s.lastAssigned < lid) : s.object lid = none := by
  rw [DBStoreManager.object, h.unassigned lid (.inr hlid), if_pos rfl]

theorem create_spec (h : l.store.Sound) (hmax : l.store.lastAssigned + 1 ≤ maxLogicalID)
    (hroom : Room name content) (garbage : Nat → Nat) :
    ∃ l', create garbage name content l = (.ok (l.store.lastAssigned + 1), l') ∧
      Grown l.store l'.store ∧ l'.store.lastAssigned = l.store.lastAssigned + 1 ∧
      l'.store.object (l.store.lastAssigned + 1) =
        some ⟨l.store.lastAssigned + 1, false, name, { content }⟩ := by
  obtain ⟨hsound, -, hobject⟩ := h.createLogicalID
  obtain ⟨store, hstore, hsound', hobject', -, -, -, hlast⟩ :=
    hsound.createObject (o := ⟨l.store.lastAssigned + 1, false, name, { content }⟩)
      (Nat.succ_pos _) hmax hroom
  rw [← DBStoreManager.createObject_new] at hstore
  obtain ⟨l', hl', rfl⟩ :=
    LoggedStore.createObject_eq hstore 0 (garbage (l.store.lastAssigned + 1))
  rw [hobject] at hobject'
  have hlast' : l'.store.lastAssigned = l.store.lastAssigned + 1 :=
    hlast.trans (Nat.max_self _)
  refine ⟨l', by rw [create, hl'], ⟨hsound', by omega, ?_⟩, hlast', ?_⟩
  · intro lid o ho
    have hne : lid ≠ l.store.lastAssigned + 1 := by
      rintro rfl
      rw [object_unassigned h (Nat.lt_succ_self _)] at ho
      contradiction
    rw [hobject', Function.update_of_ne hne, ho]
  · rw [hobject', Function.update_self]

theorem room_vector {lids : List Nat} {n : Nat} (h : Room name (.vector (List.replicate n 0)))
    (hn : lids.length = n) : Room name (.vector lids) := by
  have hsize : DataValue.contentSize (.vector lids) =
      DataValue.contentSize (.vector (List.replicate n 0)) := by
    rw [DataValue.contentSize, DataValue.contentSize, hn, List.length_replicate]
  rw [Room, Object.size, DataValue.size] at h ⊢
  rwa [hsize]

-- ---------------------------------------------------------------------------
-- What the store holds of a value
-- ---------------------------------------------------------------------------

section

variable {ρ : Type} (bits : ρ → BitVec 64)

mutual

/-- The object of a binder with a value that is built, its fields being other objects. -/
def Holds (s : DBStoreManager) : Nat → Item ρ → Prop
  | lid, .binder name (.int v) =>
    s.object lid = some ⟨lid, false, name, { content := .integer v }⟩
  | lid, .binder name (.double v) =>
    s.object lid = some ⟨lid, false, name, { content := .double (bits v) }⟩
  | lid, .binder name (.string v) =>
    s.object lid = some ⟨lid, false, name, { content := .string v }⟩
  | lid, .binder name (.reference r) =>
    s.object lid = some ⟨lid, false, name, { content := .pointer r.lid }⟩
  | lid, .binder name (.struct l) => ∃ lids, HoldsFields s lids l ∧
    s.object lid = some ⟨lid, false, name, { content := .vector lids }⟩
  | _, .binder _ (.binder ..) | _, .binder _ (.bag _) | _, .binder _ (.bool _)
  | _, .binder _ (.sequence _) | _, .binder _ .nothing => True
  | _, .reference _ | _, .string _ | _, .int _ | _, .double _ | _, .bool _ | _, .struct _
  | _, .bag _ | _, .sequence _ | _, .nothing => True

def HoldsFields (s : DBStoreManager) : List Nat → List (Item ρ) → Prop
  | [], [] => True
  | lid :: lids, r :: l => Holds s lid r ∧ HoldsFields s lids l
  | _, _ => False

end

end

section

variable {ρ : Type} {bits : ρ → BitVec 64} {garbage : Nat → Nat}

mutual

theorem Holds.grown (h : Grown s s') :
    ∀ {lid : Nat} {r : Item ρ}, Holds bits s lid r → Holds bits s' lid r
  | lid, .binder name item, hr => by
    cases item with
    | struct l =>
      obtain ⟨lids, hfields, hobject⟩ := hr
      exact ⟨lids, HoldsFields.grown h hfields, h.kept _ _ hobject⟩
    | int v => exact h.kept _ _ hr
    | double v => exact h.kept _ _ hr
    | string v => exact h.kept _ _ hr
    | reference r => exact h.kept _ _ hr
    | _ => trivial
  | _, .reference _, _ => trivial
  | _, .string _, _ => trivial
  | _, .int _, _ => trivial
  | _, .double _, _ => trivial
  | _, .bool _, _ => trivial
  | _, .struct _, _ => trivial
  | _, .bag _, _ => trivial
  | _, .sequence _, _ => trivial
  | _, .nothing, _ => trivial

theorem HoldsFields.grown (h : Grown s s') :
    ∀ {lids : List Nat} {l : List (Item ρ)}, HoldsFields bits s lids l → HoldsFields bits s' lids l
  | [], [], _ => trivial
  | _ :: _, _ :: _, hl => ⟨Holds.grown h hl.1, HoldsFields.grown h hl.2⟩
  | [], _ :: _, hl => hl
  | _ :: _, [], hl => hl

end

end

-- ---------------------------------------------------------------------------
-- What creating comes to
-- ---------------------------------------------------------------------------

/-- At most `n` objects are created, and what a verdict says comes true. -/
structure Outcome {α : Type} (l : LoggedStore) (verdict : Verdict) (n : Nat)
    (holds : α → DBStoreManager → Prop) (res : Except CreateError α × LoggedStore) : Prop where
  grown : Grown l.store res.2.store
  last : res.2.store.lastAssigned ≤ l.store.lastAssigned + n
  creates : verdict = .creates → ∃ a, res.1 = .ok a ∧ holds a res.2.store
  fails : verdict ≠ .creates → ∃ error, res.1 = .error error
  atOnce : verdict = .failsAtOnce → res.2 = l
  late : verdict = .failsLate →
    ∃ lid o, l.store.lastAssigned < lid ∧ res.2.store.object lid = some o

section

variable {ρ : Type} {bits : ρ → BitVec 64} {garbage : Nat → Nat}

theorem Outcome.error {α : Type} {holds : α → DBStoreManager → Prop} (h : l.store.Sound) (n : Nat)
    (error : CreateError) : Outcome l .failsAtOnce n holds (.error error, l) where
  grown := .refl h
  last := Nat.le_add_right _ n
  creates h := by contradiction
  fails _ := ⟨error, rfl⟩
  atOnce _ := rfl
  late h := by contradiction

/-- An error is handed on. -/
theorem Outcome.of_error {α β : Type} {holds : α → DBStoreManager → Prop}
    {holds' : β → DBStoreManager → Prop} {l' : LoggedStore} {verdict : Verdict} {n m : Nat}
    {error : CreateError} (h : Outcome l verdict n holds (.error error, l')) (hn : n ≤ m) :
    Outcome l verdict m holds' (.error error, l') where
  grown := h.grown
  last := h.last.trans (Nat.add_le_add_left hn _)
  creates hv := by
    obtain ⟨a, ha, -⟩ := h.creates hv
    contradiction
  fails _ := ⟨error, rfl⟩
  atOnce := h.atOnce
  late := h.late

theorem Outcome.of_ok {α : Type} {holds : α → DBStoreManager → Prop} {l' : LoggedStore}
    {verdict : Verdict} {n : Nat} {a : α} (h : Outcome l verdict n holds (.ok a, l')) :
    verdict = .creates ∧ holds a l'.store := by
  have hv : verdict = .creates := by
    by_contra hne
    obtain ⟨error, herror⟩ := h.fails hne
    contradiction
  obtain ⟨a', ha', hholds⟩ := h.creates hv
  cases ha'
  exact ⟨hv, hholds⟩

/-- The object of a binder, of which it holds what is said of its content. -/
def New (bits : ρ → BitVec 64) (last : Nat) (r : Item ρ) (lid : Nat) (s : DBStoreManager) : Prop :=
  Holds bits s lid r ∧ last < lid ∧ ∃ o, s.object lid = some o

/-- One object is created, after those of the fields. -/
theorem outcome_create {l₀ : LoggedStore} {n : Nat} {r : Item ρ} (hgrown : Grown l₀.store l.store)
    (hlast : l.store.lastAssigned ≤ l₀.store.lastAssigned + n)
    (hmax : l₀.store.lastAssigned + (n + 1) ≤ maxLogicalID) (hroom : Room name content)
    (hholds : ∀ s lid, Grown l.store s →
      s.object lid = some ⟨lid, false, name, { content }⟩ → Holds bits s lid r) :
    Outcome l₀ .creates (n + 1) (New bits l₀.store.lastAssigned r)
      (create garbage name content l) := by
  obtain ⟨l', hcreate, hgrown', hlast', hobject⟩ :=
    create_spec hgrown.sound (by omega) hroom garbage
  rw [hcreate]
  refine ⟨hgrown.trans hgrown', by simp only; omega, fun _ => ⟨_, rfl, ?_⟩, ?_, ?_, ?_⟩
  · refine ⟨hholds _ _ hgrown' hobject, ?_, _, hobject⟩
    have := hgrown.last
    omega
  · intro h
    contradiction
  · intro h
    contradiction
  · intro h
    contradiction

theorem length_lidsOf : ∀ {rs : List (Item ρ)} {lids : List Nat}, lidsOf rs = .ok lids →
    lids.length = rs.length := by
  intro rs
  induction rs with
  | nil =>
    intro lids h
    cases h
    rfl
  | cons r rs ih =>
    intro lids h
    cases r with
    | reference r =>
      rw [lidsOf] at h
      cases hrest : lidsOf rs with
      | error error => rw [hrest] at h; contradiction
      | ok rest =>
        rw [hrest] at h
        cases h
        rw [List.length_cons, List.length_cons, ih hrest]
    | _ => contradiction

mutual

theorem objectFromBinder_outcome : ∀ (r : Item ρ) {l : LoggedStore}, l.store.Sound → r.Fits →
    l.store.lastAssigned + r.binders ≤ maxLogicalID →
    Outcome l r.verdict r.binders (New bits l.store.lastAssigned r)
      (objectFromBinder bits garbage r l)
  | .binder name (.int v), l, h, hfits, hmax =>
    outcome_create (.refl h) (Nat.le_add_right _ 0) hmax hfits fun _ _ _ ho => ho
  | .binder name (.double v), l, h, hfits, hmax =>
    outcome_create (.refl h) (Nat.le_add_right _ 0) hmax hfits fun _ _ _ ho => ho
  | .binder name (.string v), l, h, hfits, hmax =>
    outcome_create (.refl h) (Nat.le_add_right _ 0) hmax hfits fun _ _ _ ho => ho
  | .binder name (.reference r), l, h, hfits, hmax =>
    outcome_create (.refl h) (Nat.le_add_right _ 0) hmax hfits fun _ _ _ ho => ho
  | .binder name (.binder name' item), l, h, hfits, hmax => by
    have hinner := objectFromBinder_outcome (.binder name' item) h hfits.1
      (Nat.le_trans (Nat.add_le_add_left (Nat.le_succ _) _) hmax)
    rw [objectFromBinder]
    generalize objectFromBinder bits garbage (.binder name' item) l = res at hinner ⊢
    obtain ⟨result, l'⟩ := res
    cases result with
    | error error => exact hinner.of_error (Nat.le_succ _)
    | ok lid =>
      rw [Item.verdict, hinner.of_ok.1]
      exact outcome_create hinner.grown hinner.last hmax (@room_vector name [lid] 1 hfits.2 rfl)
        fun _ _ _ _ => trivial
  | .binder name (.bag rs), l, h, hfits, hmax => by
    rw [objectFromBinder, Item.verdict]
    cases hlids : lidsOf rs with
    | error error => exact .error h _ error
    | ok lids =>
      exact outcome_create (.refl h) (Nat.le_add_right _ 0) hmax
        (room_vector hfits (length_lidsOf hlids)) fun _ _ _ _ => trivial
  | .binder name (.struct rs), l, h, hfits, hmax => by
    have hinner := objectsFromStruct_outcome rs h hfits.1
      (Nat.le_trans (Nat.add_le_add_left (Nat.le_succ _) _) hmax)
    rw [objectFromBinder]
    generalize objectsFromStruct bits garbage rs l = res at hinner ⊢
    obtain ⟨result, l'⟩ := res
    cases result with
    | error error => exact hinner.of_error (Nat.le_succ _)
    | ok lids =>
      obtain ⟨hverdict, hfields, hlength⟩ := hinner.of_ok
      rw [Item.verdict, hverdict]
      exact outcome_create hinner.grown hinner.last hmax (room_vector hfits.2 hlength)
        fun s lid hgrown hobject => ⟨lids, hfields.grown hgrown, hobject⟩
  | .binder _ (.bool _), l, h, _, _ => .error h _ _
  | .binder _ (.sequence _), l, h, _, _ => .error h _ _
  | .binder _ .nothing, l, h, _, _ => .error h _ _
  | .reference _, l, h, _, _ => .error h _ _
  | .string _, l, h, _, _ => .error h _ _
  | .int _, l, h, _, _ => .error h _ _
  | .double _, l, h, _, _ => .error h _ _
  | .bool _, l, h, _, _ => .error h _ _
  | .struct _, l, h, _, _ => .error h _ _
  | .bag _, l, h, _, _ => .error h _ _
  | .sequence _, l, h, _, _ => .error h _ _
  | .nothing, l, h, _, _ => .error h _ _

theorem objectsFromStruct_outcome : ∀ (rs : List (Item ρ)) {l : LoggedStore}, l.store.Sound →
    AllFit rs → l.store.lastAssigned + allBinders rs ≤ maxLogicalID →
    Outcome l (fieldsVerdict rs) (allBinders rs)
      (fun lids s => HoldsFields bits s lids rs ∧ lids.length = rs.length)
      (objectsFromStruct bits garbage rs l)
  | [], l, h, _, _ => by
    refine ⟨.refl h, Nat.le_add_right _ _, fun _ => ⟨[], rfl, trivial, rfl⟩, ?_, ?_, ?_⟩
    · intro hne; exact absurd rfl hne
    · intro _; rfl
    · intro hlate; contradiction
  | r :: rs, l, h, hfits, hmax => by
    rw [allBinders] at hmax ⊢
    have hfirst := objectFromBinder_outcome r h hfits.1 (by omega)
    rw [objectsFromStruct, fieldsVerdict]
    generalize objectFromBinder bits garbage r l = res at hfirst ⊢
    obtain ⟨result, l'⟩ := res
    cases result with
    | error error =>
      have herror : Outcome l r.verdict (r.binders + allBinders rs)
          (fun lids s => HoldsFields bits s lids (r :: rs) ∧ lids.length = (r :: rs).length)
          (.error error, l') := hfirst.of_error (Nat.le_add_right _ _)
      cases hverdict : r.verdict with
      | creates =>
        obtain ⟨lid, hlid, -⟩ := hfirst.creates hverdict
        contradiction
      | failsAtOnce => rwa [hverdict] at herror
      | failsLate => rwa [hverdict] at herror
    | ok lid =>
      obtain ⟨hverdict, hholds, hnew, o, hobject⟩ := hfirst.of_ok
      have hlast := hfirst.last
      simp only at hlast
      have hrest := objectsFromStruct_outcome rs hfirst.grown.sound hfits.2 (by
        simp only
        omega)
      rw [hverdict]
      simp only at hrest ⊢
      generalize objectsFromStruct bits garbage rs l' = res at hrest ⊢
      obtain ⟨result, l''⟩ := res
      have hgrown := hfirst.grown.trans hrest.grown
      have hlast' := hrest.last
      simp only at hlast' hgrown
      cases result with
      | error error =>
        have hne : fieldsVerdict rs ≠ .creates := by
          intro hcreates
          obtain ⟨lids, hlids, -⟩ := hrest.creates hcreates
          contradiction
        rw [if_neg hne]
        refine ⟨hgrown, by simp only; omega, ?_, fun _ => ⟨error, rfl⟩, ?_, fun _ => ?_⟩
        · intro hcreates; contradiction
        · intro hatOnce; contradiction
        · exact ⟨lid, o, hnew, hrest.grown.kept _ _ hobject⟩
      | ok lids =>
        obtain ⟨hcreates, hfields, hlength⟩ := hrest.of_ok
        rw [if_pos hcreates]
        refine ⟨hgrown, by simp only; omega, fun _ => ⟨lid :: lids, rfl, ?_, ?_⟩, ?_, ?_, ?_⟩
        · exact ⟨hholds.grown hrest.grown, hfields⟩
        · rw [List.length_cons, List.length_cons, hlength]
        · intro hne; exact absurd rfl hne
        · intro hatOnce; contradiction
        · intro hlate; contradiction

end

end

-- ---------------------------------------------------------------------------
-- Reading what was created
-- ---------------------------------------------------------------------------

theorem getObject_object (h : s.Sound) {o : Object} (ho : s.object lid = some o) :
    s.getObject lid = .ok (some (s.read o)) := by
  obtain ⟨hne, hat, -, hpos, hlast⟩ := h.map_ne_rip ho
  have hat' : (s.pages (s.map lid).page).objectAt (s.map lid).offset = some o := hat
  unfold DBStoreManager.getObject
  rw [DBStoreManager.Sound.getPhysicalID hpos hlast]
  simp only [bind, Except.bind, if_neg hne, hat']
  rfl

section

variable {ρ : Type} {bits : ρ → BitVec 64} {real : BitVec 64 → ρ}
  {bound : Name → Option (List Name)}

theorem holds_object {item : Item ρ} (hbuilt : item.Built)
    (h : Holds bits s lid (.binder name item)) : ∃ o, s.object lid = some o ∧ o.name = name := by
  cases item with
  | int v | double v | string v | reference r => exact ⟨_, h, rfl⟩
  | struct l =>
    obtain ⟨lids, -, hobject⟩ := h
    exact ⟨_, hobject, rfl⟩
  | _ => exact hbuilt.elim

theorem exists_binder {r : Item ρ} {l : List (Item ρ)} (h : FieldsBuilt (r :: l)) :
    ∃ name item, r = .binder name item := by
  cases r with
  | binder name item => exact ⟨name, item, rfl⟩
  | _ => exact h.elim

theorem holdsFields_mapped (hs : s.Sound) {lids : List Nat} {l : List (Item ρ)}
    (hbuilt : FieldsBuilt l) (h : HoldsFields bits s lids l) : ∀ lid ∈ lids, s.map lid ≠ rip := by
  induction lids generalizing l with
  | nil => exact fun lid hlid => absurd hlid List.not_mem_nil
  | cons lid lids ih =>
    cases l with
    | nil => exact h.elim
    | cons r l =>
      obtain ⟨name, item, rfl⟩ := exists_binder hbuilt
      obtain ⟨o, ho, -⟩ := holds_object hbuilt.1 h.1
      rintro lid' (_ | ⟨_, hmem⟩)
      · exact (hs.map_ne_rip ho).1
      · exact ih hbuilt.2 h.2 lid' hmem

/-- One level of a reference to an object that is there. -/
theorem derefQuery_reference (hs : s.Sound) {o : Object} (ho : s.object lid = some o) (n : Nat) :
    derefQuery real bound s (n + 1) (.reference { lid }) =
      (derefObject real (derefQuery real bound s n) s (s.read o) none).map single := by
  rw [derefQuery]
  simp only [Bool.false_eq_true, if_false, getObject_object hs ho, visible]
  rfl

mutual

theorem deref_holds (hs : s.Sound) (hreal : ∀ v, real (bits v) = v) :
    ∀ {item : Item ρ} {name : Name} {lid : Nat}, item.Built → Holds bits s lid (.binder name item) →
      ∃ n, ∀ m, n ≤ m → derefQuery real bound s m (.reference { lid }) = .ok item.unmarked
  | .int v, name, lid, _, h => by
    refine ⟨1, fun m hm => ?_⟩
    obtain ⟨m, rfl⟩ := Nat.exists_eq_add_of_le' hm
    rw [derefQuery_reference hs h]
    rfl
  | .double v, name, lid, _, h => by
    refine ⟨1, fun m hm => ?_⟩
    obtain ⟨m, rfl⟩ := Nat.exists_eq_add_of_le' hm
    rw [derefQuery_reference hs h]
    exact congrArg (fun x => Except.ok (Item.double x)) (hreal v)
  | .string v, name, lid, _, h => by
    refine ⟨1, fun m hm => ?_⟩
    obtain ⟨m, rfl⟩ := Nat.exists_eq_add_of_le' hm
    rw [derefQuery_reference hs h]
    rfl
  | .reference r, name, lid, _, h => by
    refine ⟨1, fun m hm => ?_⟩
    obtain ⟨m, rfl⟩ := Nat.exists_eq_add_of_le' hm
    rw [derefQuery_reference hs h]
    rfl
  | .struct l, name, lid, hbuilt, h => by
    obtain ⟨lids, hfields, hobject⟩ := h
    obtain ⟨n, hn⟩ := deref_holdsFields hs hreal hbuilt.2 hfields
    refine ⟨n + 1, fun m hm => ?_⟩
    obtain ⟨m, rfl⟩ := Nat.exists_eq_add_of_le' (Nat.le_trans (Nat.le_add_left 1 n) hm)
    have hcontent : (s.read ⟨lid, false, name, { content := .vector lids }⟩).value.content =
        .vector lids := by
      change Content.vector (lids.filter fun lid => s.map lid ≠ rip) = _
      rw [List.filter_eq_self.mpr]
      intro lid hlid
      exact decide_eq_true (holdsFields_mapped hs hbuilt.2 hfields lid hlid)
    have hfold := hn m (by omega) []
    rw [derefQuery_reference hs hobject, derefObject, hcontent]
    simp only [Option.any_none, Bool.false_eq_true, if_false]
    rw [hfold]
    rfl
  | .bool _, _, _, hbuilt, _ => hbuilt.elim
  | .binder _ _, _, _, hbuilt, _ => hbuilt.elim
  | .bag _, _, _, hbuilt, _ => hbuilt.elim
  | .sequence _, _, _, hbuilt, _ => hbuilt.elim
  | .nothing, _, _, hbuilt, _ => hbuilt.elim

theorem deref_holdsFields (hs : s.Sound) (hreal : ∀ v, real (bits v) = v) :
    ∀ {l : List (Item ρ)} {lids : List Nat}, FieldsBuilt l → HoldsFields bits s lids l →
      ∃ n, ∀ m, n ≤ m → ∀ res : List (Item ρ),
        lids.foldlM (fun res lid => do
          let curr ← getObjectPointer s lid
          let inside ← unchecked (derefQuery real bound s m (.reference { lid }))
          return Item.structAdd res (.binder curr.name inside)) res =
            .ok (res ++ allUnmarked l)
  | [], [], _, _ => ⟨0, fun m _ res => by simp [allUnmarked, pure, Except.pure]⟩
  | r :: l, lid :: lids, hbuilt, h => by
    obtain ⟨name, item, rfl⟩ := exists_binder hbuilt
    obtain ⟨n, hn⟩ := deref_holds hs hreal hbuilt.1 h.1
    obtain ⟨n', hn'⟩ := deref_holdsFields hs hreal hbuilt.2 h.2
    refine ⟨max n n', fun m hm res => ?_⟩
    obtain ⟨o, ho, rfl⟩ := holds_object hbuilt.1 h.1
    have hpointer : getObjectPointer s lid = .ok (s.read o) := by
      rw [getObjectPointer, getObject_object hs ho]
    have hrest := hn' m (by omega) (res ++ [.binder o.name item.unmarked])
    rw [List.foldlM_cons, hpointer, hn m (by omega)]
    rw [List.append_assoc] at hrest
    exact hrest
  | _ :: _, [], _, h => h.elim
  | [], _ :: _, _, h => h.elim

end

end

-- ---------------------------------------------------------------------------
-- Creating and reading back
-- ---------------------------------------------------------------------------

section

variable {ρ : Type}

mutual

theorem verdict_built : ∀ {item : Item ρ} {name : Name}, item.Built →
    (Item.binder name item).verdict = .creates
  | .int _, _, _ => rfl
  | .double _, _, _ => rfl
  | .string _, _, _ => rfl
  | .reference _, _, _ => rfl
  | .struct _, _, h => fieldsVerdict_built h.2
  | .bool _, _, h => h.elim
  | .binder _ _, _, h => h.elim
  | .bag _, _, h => h.elim
  | .sequence _, _, h => h.elim
  | .nothing, _, h => h.elim

theorem fieldsVerdict_built : ∀ {l : List (Item ρ)}, FieldsBuilt l → fieldsVerdict l = .creates
  | [], _ => rfl
  | r :: l, h => by
    obtain ⟨name, item, rfl⟩ := exists_binder h
    rw [fieldsVerdict, verdict_built h.1, fieldsVerdict_built h.2]
    rfl

end

/-- The store takes the objects of a binder. Pages have numbers of 16 bits. -/
structure HasRoom (l : LoggedStore) (r : Item ρ) : Prop where
  fits : r.Fits
  ids : l.store.lastAssigned + r.binders ≤ maxLogicalID
  pages : pageId (l.store.freeMap.length + r.binders) < 65536

end

/-- What was created for a binder is read back as its value, references being the same with all
marks, and an error leaves the objects as they were. -/
def RoundTrips (garbage : Nat → Nat) (bound : Name → Option (List Name)) (l : LoggedStore)
    (name : Name) (v : Item (BitVec 64)) : Prop :=
  match objectFromBinder id garbage (.binder name v) l with
  | (.ok lid, l') => v.Built →
    ∃ n, ∀ m, n ≤ m → derefQuery id bound l'.store m (.reference { lid }) = .ok v.unmarked
  | (.error _, l') => ¬v.Built ∧ l'.store.object = l.store.object

section

variable {garbage : Nat → Nat} {bound : Name → Option (List Name)} {v : Item (BitVec 64)}

theorem roundTrips_of_verdict (h : l.store.Sound) (hroom : HasRoom l (.binder name v))
    (hverdict : (Item.binder name v).verdict ≠ .failsLate) :
    RoundTrips garbage bound l name v := by
  have hrun : Outcome l _ _ _ (objectFromBinder id garbage (.binder name v) l) :=
    objectFromBinder_outcome _ h hroom.fits hroom.ids
  unfold RoundTrips
  generalize objectFromBinder id garbage (.binder name v) l = res at hrun ⊢
  obtain ⟨result, l'⟩ := res
  cases result with
  | ok lid =>
    intro hbuilt
    exact deref_holds hrun.grown.sound (fun _ => rfl) hbuilt hrun.of_ok.2.1
  | error error =>
    have hatOnce : (Item.binder name v).verdict = .failsAtOnce := by
      cases hv : (Item.binder name v).verdict with
      | failsAtOnce => rfl
      | failsLate => exact absurd hv hverdict
      | creates =>
        obtain ⟨lid, hlid, -⟩ := hrun.creates hv
        contradiction
    refine ⟨fun hbuilt => ?_, congrArg (fun l => l.store.object) (hrun.atOnce hatOnce)⟩
    rw [verdict_built hbuilt] at hatOnce
    contradiction

/-- An object that was created before the error stays. -/
theorem not_roundTrips_of_verdict (h : l.store.Sound) (hroom : HasRoom l (.binder name v))
    (hverdict : (Item.binder name v).verdict = .failsLate) :
    ¬RoundTrips garbage bound l name v := by
  have hrun : Outcome l _ _ _ (objectFromBinder id garbage (.binder name v) l) :=
    objectFromBinder_outcome _ h hroom.fits hroom.ids
  obtain ⟨lid, o, hnew, hobject⟩ := hrun.late hverdict
  obtain ⟨error, herror⟩ := hrun.fails (by rw [hverdict]; decide)
  intro hround
  unfold RoundTrips at hround
  generalize objectFromBinder id garbage (.binder name v) l = res at *
  obtain ⟨result, l'⟩ := res
  cases herror
  rw [hround.2, object_unassigned h hnew] at hobject
  contradiction

end

/-- Creating and reading back goes well unless a part that cannot be stored comes after one that
has been created. -/
theorem roundTrips_iff {garbage : Nat → Nat} {bound : Name → Option (List Name)}
    {v : Item (BitVec 64)} (h : l.store.Sound) (hroom : HasRoom l (.binder name v)) :
    RoundTrips garbage bound l name v ↔ (Item.binder name v).verdict ≠ .failsLate :=
  ⟨fun hround hverdict => not_roundTrips_of_verdict h hroom hverdict hround,
    roundTrips_of_verdict h hroom⟩

def sevenAndText : Item (BitVec 64) :=
  .struct [.binder [97] (.int 7), .binder [98] (.struct [.binder [99] (.string [0, 1])])]

theorem roundTrips_sevenAndText : RoundTrips (fun _ => 0) (fun _ => none) {} [120] sevenAndText := by
  have hroom : HasRoom {} (.binder [120] sevenAndText) := by
    refine ⟨?_, by decide, by decide⟩
    simp [sevenAndText, Item.Fits, AllFit, Room, Object.size, DataValue.size,
      DataValue.setSize, DataValue.subclassesSize, DataValue.contentSize, maxFreeSpace, pageSize]
  exact (roundTrips_iff DBStoreManager.sound_init hroom).mpr (by decide)

/-- The object of `a` stays although `b` cannot be stored. -/
def sevenAndTrue : Item (BitVec 64) :=
  .struct [.binder [97] (.int 7), .binder [98] (.bool true)]

theorem not_roundTrips_sevenAndTrue :
    ¬RoundTrips (fun _ => 0) (fun _ => none) {} [120] sevenAndTrue := by
  have hroom : HasRoom {} (.binder [120] sevenAndTrue) := by
    refine ⟨?_, by decide, by decide⟩
    simp [sevenAndTrue, Item.Fits, AllFit, Room, Object.size, DataValue.size,
      DataValue.setSize, DataValue.subclassesSize, DataValue.contentSize, maxFreeSpace, pageSize]
  exact not_roundTrips_of_verdict DBStoreManager.sound_init hroom (by decide)

end Loxim.QueryExecutor.StoredValues
