import Loxim.Lib.Run
import Loxim.Log.LogRecord

/-!
# The calls of the store

A call logs its change before anything is looked at, and what `insertObject` returns is not
looked at either. `garbage` stands for the offset that is then never set.
-/

namespace Loxim.Store

open Log

structure LoggedStore where
  store : DBStoreManager := {}
  log : List WriteRecord := []

namespace DBStoreManager

/-- Where `createObject` believes the object to be. A page that did not take it still comes to
the free map. -/
def place (s : DBStoreManager) (o : Object) (garbage : Nat) : DBStoreManager × PhysicalID :=
  match s.insertObject o with
  | some placed => placed
  | none =>
    let page := getFreePage s.freeMap o.size
    ({ s with freeMap := updateFreeMap s.freeMap page (s.pages page).freeSpace },
      ⟨page, fileDefault, garbage⟩)

/-- The object that `getObject` gives. -/
def found (s : DBStoreManager) (lid : Nat) : Option Object :=
  match s.getObject lid with
  | .ok o => o
  | .error _ => none

end DBStoreManager

namespace LoggedStore

def createObject (s : LoggedStore) (tid : Nat) (name : List (BitVec 8)) (value : DataValue)
    (lid : Option Nat) (isRoot : Bool) (garbage : Nat) : Int × LoggedStore :=
  let store := if lid = none then s.store.createLogicalID else s.store
  let o : Object := { lid := lid.getD store.lastAssigned, isRoot, name, value }
  let (placed, id) := store.place o garbage
  (0, { store := placed.setPhysicalID o.lid id
        log := ⟨tid, o.lid, name, none, some value⟩ :: s.log })

def deleteObject (s : LoggedStore) (tid : Nat) (o : Object) : Int × LoggedStore :=
  let log := ⟨tid, o.lid, o.name, some o.value, none⟩ :: s.log
  match s.store.deleteObject o.lid with
  | .ok store => (0, { store, log })
  | .error e => (e, { s with log })

def modifyObject (s : LoggedStore) (tid : Nat) (o : Object) (dv : DataValue) (garbage : Nat) :
    Int × LoggedStore :=
  let (_, s') := (s.deleteObject tid o).2.createObject tid o.name dv (some o.lid) o.isRoot garbage
  (0, s')

-- ---------------------------------------------------------------------------
-- Calls one after another
-- ---------------------------------------------------------------------------

inductive Call
  | createObject (tid : Nat) (name : List (BitVec 8)) (value : DataValue) (lid : Option Nat)
    (isRoot : Bool) (garbage : Nat)
  | modifyObject (tid : Nat) (o : Object) (dv : DataValue) (garbage : Nat)
  | deleteObject (tid : Nat) (o : Object)

def call (s : LoggedStore) : Call → Int × LoggedStore
  | .createObject tid name value lid isRoot garbage =>
    s.createObject tid name value lid isRoot garbage
  | .modifyObject tid o dv garbage => s.modifyObject tid o dv garbage
  | .deleteObject tid o => s.deleteObject tid o

def step (s : LoggedStore) (c : Call) : Option LoggedStore := some (s.call c).2

end LoggedStore

/-- The objects that a vector refers to. -/
def DataValue.children (v : DataValue) : List Nat :=
  match v.content with
  | .vector lids => lids
  | .integer _ | .double _ | .string _ | .pointer _ => []

namespace LoggedStore

/-- The object has an id that the map takes, and it fits on a page. The pages have numbers of
16 bits, and what it refers to has been assigned. -/
def Takes (s : DBStoreManager) (o : Object) : Prop :=
  0 < o.lid ∧ o.lid ≤ maxLogicalID ∧ o.size + 4 ≤ maxFreeSpace ∧
    pageId s.freeMap.length < 65536 ∧
    ∀ child ∈ o.value.children, 0 < child ∧ child ≤ max s.lastAssigned o.lid

instance (s : DBStoreManager) (o : Object) : Decidable (Takes s o) :=
  inferInstanceAs (Decidable (_ ∧ _ ∧ _ ∧ _ ∧ _))

/-- The id of the object that is created. -/
def newId (s : LoggedStore) (lid : Option Nat) : Nat := lid.getD (s.store.lastAssigned + 1)

def Legal (s : LoggedStore) : Call → Prop
  | .createObject _ name value lid isRoot _ =>
    Takes s.store { lid := s.newId lid, isRoot, name, value }
  | .modifyObject _ o dv _ => Takes s.store { o with value := dv }
  | .deleteObject _ o => 0 < o.lid

instance (s : LoggedStore) : DecidablePred s.Legal
  | .createObject .. => inferInstanceAs (Decidable (Takes ..))
  | .modifyObject .. => inferInstanceAs (Decidable (Takes ..))
  | .deleteObject _ o => inferInstanceAs (Decidable (0 < o.lid))

end LoggedStore

-- ---------------------------------------------------------------------------
-- What is found
-- ---------------------------------------------------------------------------

namespace DBStoreManager

variable {s s' : DBStoreManager} {o : Object} {lid i : Nat}

/-- What is read of an object. -/
def read (s : DBStoreManager) (o : Object) : Object := { o with value := s.autoRemove o.value }

theorem Sound.found (h : s.Sound) (hlid : 0 < lid) : s.found lid = (s.object lid).map s.read := by
  unfold DBStoreManager.found DBStoreManager.getObject DBStoreManager.getPhysicalID object
  rw [if_neg (Nat.ne_of_gt hlid)]
  by_cases hlast : s.lastAssigned < lid
  · rw [if_pos hlast, if_pos (h.unassigned lid (.inr hlast))]
    rfl
  · rw [if_neg hlast]
    by_cases hrip : s.map lid = rip
    · rw [if_pos hrip]
      simp only [bind, Except.bind, if_pos hrip]
      rfl
    · obtain ⟨-, -, o, hat, -⟩ := h.stored lid hrip
      have hat' : (s.pages (s.map lid).page).objectAt (s.map lid).offset = some o := hat
      rw [if_neg hrip, hat]
      simp only [bind, Except.bind, if_neg hrip, hat']
      rfl

theorem autoRemove_congr {v : DataValue}
    (h : ∀ child ∈ v.children, s'.map child = rip ↔ s.map child = rip) :
    s'.autoRemove v = s.autoRemove v := by
  unfold DBStoreManager.autoRemove
  unfold DataValue.children at h
  cases hv : v.content with
  | vector lids =>
    rw [hv] at h
    have hfilter : lids.filter (fun lid => s'.map lid ≠ rip) =
        lids.filter fun lid => s.map lid ≠ rip := by
      refine List.filter_congr fun lid hmem => ?_
      simp [h lid hmem]
    simp only [hfilter]
  | _ => rfl

theorem Sound.map_eq_rip_iff (h : s.Sound) : s.map lid = rip ↔ s.object lid = none := by
  unfold object
  split
  · simpa
  · rename_i hne
    obtain ⟨-, -, o, hat, -⟩ := h.stored lid hne
    simp [hne, hat]

/-- The object lists the id among those that it refers to. -/
def Mentions (s : DBStoreManager) (i lid : Nat) : Prop :=
  ∃ o, s.object i = some o ∧ lid ∈ o.value.children

/-- Where one object comes, goes or changes, no other one is read otherwise, unless it refers
to the one that comes or goes. -/
theorem Sound.found_of_ne (h : s.Sound) (h' : s'.Sound) {o : Option Object}
    (hobject : s'.object = Function.update s.object lid o)
    (hmentions : (s.object lid).isSome = o.isSome ∨ ¬ s.Mentions i lid)
    (hne : i ≠ lid) (hi : 0 < i) : s'.found i = s.found i := by
  rw [h'.found hi, h.found hi, hobject, Function.update_of_ne hne]
  cases hoi : s.object i with
  | none => rfl
  | some oi =>
    have hvalue : s'.autoRemove oi.value = s.autoRemove oi.value := by
      refine autoRemove_congr fun child hchild => ?_
      rw [h'.map_eq_rip_iff, h.map_eq_rip_iff, hobject]
      by_cases hsame : child = lid
      · subst hsame
        rw [Function.update_self]
        rcases hmentions with hsome | hnot
        · cases hs : s.object child <;> cases o <;> simp_all
        · exact absurd ⟨oi, hoi, hchild⟩ hnot
      · rw [Function.update_of_ne hsame]
    simp [read, hvalue]

theorem Sound.found_self (h' : s'.Sound) {o : Option Object}
    (hobject : s'.object = Function.update s.object lid o) (hlid : 0 < lid) :
    s'.found lid = o.map s'.read := by
  rw [h'.found hlid, hobject, Function.update_self]

/-- `modifyObject` also takes an id that has not been assigned. -/
theorem Sound.modifyObject_any {dv : DataValue} (h : s.Sound) (hpos : 0 < o.lid)
    (hmax : o.lid ≤ maxLogicalID)
    (hsize : ({ o with value := dv } : Object).size + 4 ≤ maxFreeSpace) :
    ∃ s', s.modifyObject o dv = some (s', { o with value := dv }) ∧ s'.Sound ∧
      s'.object = Function.update s.object o.lid (some { o with value := dv }) := by
  by_cases hlast : o.lid ≤ s.lastAssigned
  · obtain ⟨s', hs', hsound, hobject, -⟩ := h.modifyObject hpos hlast hmax hsize
    exact ⟨s', hs', hsound, hobject⟩
  · obtain ⟨s', hs', hsound, hobject, -⟩ :=
      h.createObject (o := { o with value := dv }) hpos hmax hsize
    refine ⟨s', ?_, hsound, hobject⟩
    have hdelete : s.deleteObject o.lid = .error 2 := by
      simp only [DBStoreManager.deleteObject, DBStoreManager.getPhysicalID, bind, Except.bind]
      rw [if_neg (Nat.ne_of_gt hpos), if_pos (Nat.lt_of_not_le hlast)]
    simp only [DBStoreManager.modifyObject, hdelete]
    exact hs'

end DBStoreManager

namespace LoggedStore

variable {s s' : LoggedStore} {c : Call} {tid garbage : Nat} {name : List (BitVec 8)}
  {value dv : DataValue} {lid : Option Nat} {isRoot : Bool} {o : Object}

theorem createObject_eq {store : DBStoreManager}
    (h : s.store.createObject name value lid isRoot = some (store, o)) (tid garbage : Nat) :
    ∃ s', s.createObject tid name value lid isRoot garbage = (0, s') ∧ s'.store = store := by
  refine ⟨_, rfl, ?_⟩
  simp only [DBStoreManager.createObject] at h
  obtain ⟨placed, hplaced, h⟩ := Option.bind_eq_some_iff.mp h
  cases h
  simp only [hplaced]

theorem deleteObject_store : (s.deleteObject tid o).2.store =
    match s.store.deleteObject o.lid with
    | .ok store => store
    | .error _ => s.store := by
  unfold LoggedStore.deleteObject
  cases s.store.deleteObject o.lid <;> rfl

theorem modifyObject_eq {store : DBStoreManager} {o' : Object}
    (h : s.store.modifyObject o dv = some (store, o')) (tid garbage : Nat) :
    ∃ s', s.modifyObject tid o dv garbage = (0, s') ∧ s'.store = store := by
  have hcreate : (s.deleteObject tid o).2.store.createObject o.name dv (some o.lid) o.isRoot =
      some (store, o') := by
    rw [deleteObject_store, ← h]
    rfl
  obtain ⟨s', hs', hstore⟩ := createObject_eq hcreate tid garbage
  refine ⟨s', ?_, hstore⟩
  rw [LoggedStore.modifyObject, hs']

/-- The store after an object with this id was created. -/
theorem created (h : s.store.Sound)
    (hlegal : Takes s.store { lid := s.newId lid, isRoot, name, value }) (tid garbage : Nat) :
    ∃ s', s.createObject tid name value lid isRoot garbage = (0, s') ∧ s'.store.Sound ∧
      s'.store.object = Function.update s.store.object (s.newId lid)
        (some { lid := s.newId lid, isRoot, name, value }) := by
  obtain ⟨hpos, hmax, hsize, -⟩ := hlegal
  cases lid with
  | some n =>
    obtain ⟨store, hstore, hsound, hobject, -⟩ :=
      h.createObject (o := { lid := n, isRoot, name, value }) hpos hmax hsize
    obtain ⟨s', hs', rfl⟩ := createObject_eq hstore tid garbage
    exact ⟨s', hs', hsound, hobject⟩
  | none =>
    obtain ⟨hsound₁, -, hobject₁⟩ := h.createLogicalID
    obtain ⟨store, hstore, hsound, hobject, -⟩ := hsound₁.createObject
      (o := { lid := s.store.lastAssigned + 1, isRoot, name, value }) hpos hmax hsize
    rw [hobject₁] at hobject
    rw [← DBStoreManager.createObject_new] at hstore
    obtain ⟨s', hs', rfl⟩ := createObject_eq hstore tid garbage
    exact ⟨s', hs', hsound, hobject⟩

theorem modified (h : s.store.Sound) (hlegal : Takes s.store { o with value := dv })
    (tid garbage : Nat) :
    ∃ s', s.modifyObject tid o dv garbage = (0, s') ∧ s'.store.Sound ∧
      s'.store.object = Function.update s.store.object o.lid (some { o with value := dv }) := by
  have hpos : 0 < o.lid := hlegal.1
  have hmax : o.lid ≤ maxLogicalID := hlegal.2.1
  obtain ⟨store, hstore, hsound, hobject⟩ := h.modifyObject_any hpos hmax hlegal.2.2.1
  obtain ⟨s', hs', rfl⟩ := modifyObject_eq hstore tid garbage
  exact ⟨s', hs', hsound, hobject⟩

theorem deleted (h : s.store.Sound) (hlid : 0 < o.lid) (tid : Nat) :
    ∃ r s', s.deleteObject tid o = (r, s') ∧ s'.store.Sound ∧
      (r = 0 → (s.store.object o.lid).isSome ∧
        s'.store.object = Function.update s.store.object o.lid none) ∧
      (r ≠ 0 → s.store.object o.lid = none ∧ s'.store = s.store) := by
  cases ho : s.store.object o.lid with
  | some o₀ =>
    obtain ⟨store, hstore, hsound, hobject, -⟩ := h.deleteObject ho
    refine ⟨0, { store, log := ⟨tid, o.lid, o.name, some o.value, none⟩ :: s.log }, ?_, hsound,
      fun _ => ⟨rfl, hobject⟩, fun hr => absurd rfl hr⟩
    simp only [LoggedStore.deleteObject, hstore]
  | none =>
    have herror : ∃ e, s.store.deleteObject o.lid = .error e ∧ e ≠ 0 := by
      by_cases hlast : o.lid ≤ s.store.lastAssigned
      · exact ⟨3, h.deleteObject_gone ho hlid hlast, by decide⟩
      · refine ⟨2, ?_, by decide⟩
        simp only [DBStoreManager.deleteObject, DBStoreManager.getPhysicalID, bind, Except.bind]
        rw [if_neg (Nat.ne_of_gt hlid), if_pos (Nat.lt_of_not_le hlast)]
    obtain ⟨e, he, hne⟩ := herror
    refine ⟨e, { s with log := ⟨tid, o.lid, o.name, some o.value, none⟩ :: s.log }, ?_, h,
      fun hr => absurd hr hne, fun _ => ⟨rfl, rfl⟩⟩
    simp only [LoggedStore.deleteObject, he]

theorem sound_step (h : s.store.Sound) (hlegal : s.Legal c) (hstep : s.step c = some s') :
    s'.store.Sound := by
  cases hstep
  cases c with
  | createObject tid name value lid isRoot garbage =>
    obtain ⟨s', hs', hsound, -⟩ := created h hlegal tid garbage
    rw [LoggedStore.call, hs']
    exact hsound
  | modifyObject tid o dv garbage =>
    obtain ⟨s', hs', hsound, -⟩ := modified h hlegal tid garbage
    rw [LoggedStore.call, hs']
    exact hsound
  | deleteObject tid o =>
    obtain ⟨r, s', hs', hsound, -⟩ := deleted h hlegal tid
    rw [LoggedStore.call, hs']
    exact hsound

theorem sound_of_reaches (h : Reaches step Legal {} s) : s.store.Sound :=
  h.invariant (I := fun s => s.store.Sound) DBStoreManager.sound_init
    fun _ _ _ hs hlegal hstep => sound_step hs hlegal hstep

/-- The store is a map from ids to objects, as `getObject` reads them: what is created or
modified is found under its id with its name, its flag and its value but for the children that
are deleted, what is deleted is not found any more, and no other id is affected, unless its
object refers to the one that comes or goes. -/
theorem calls_map (h : Reaches step Legal {} s) :
    (∀ tid name value lid isRoot garbage,
      s.Legal (.createObject tid name value lid isRoot garbage) →
      ∃ s', s.createObject tid name value lid isRoot garbage = (0, s') ∧
        s'.store.found (s.newId lid) =
          some { lid := s.newId lid, isRoot, name, value := s'.store.autoRemove value } ∧
        ∀ i, 0 < i → i ≠ s.newId lid →
          (s.store.object (s.newId lid)).isSome ∨ ¬ s.store.Mentions i (s.newId lid) →
          s'.store.found i = s.store.found i) ∧
    (∀ tid o dv garbage, s.Legal (.modifyObject tid o dv garbage) →
      ∃ s', s.modifyObject tid o dv garbage = (0, s') ∧
        s'.store.found o.lid = some { o with value := s'.store.autoRemove dv } ∧
        ∀ i, 0 < i → i ≠ o.lid →
          (s.store.object o.lid).isSome ∨ ¬ s.store.Mentions i o.lid →
          s'.store.found i = s.store.found i) ∧
    ∀ tid o, 0 < o.lid → ∃ r s', s.deleteObject tid o = (r, s') ∧
      (r = 0 → s.store.found o.lid ≠ none ∧ s'.store.found o.lid = none ∧
        ∀ i, 0 < i → i ≠ o.lid → ¬ s.store.Mentions i o.lid →
          s'.store.found i = s.store.found i) ∧
      (r ≠ 0 → s.store.found o.lid = none ∧ s'.store = s.store) := by
  have hsound := sound_of_reaches h
  refine ⟨fun tid name value lid isRoot garbage hlegal => ?_, fun tid o dv garbage hlegal => ?_,
    fun tid o hlid => ?_⟩
  · obtain ⟨s', hs', hsound', hobject⟩ := created hsound hlegal tid garbage
    refine ⟨s', hs', hsound'.found_self hobject hlegal.1, fun i hi hne hmentions => ?_⟩
    exact hsound.found_of_ne hsound' hobject (by simpa using hmentions) hne hi
  · obtain ⟨s', hs', hsound', hobject⟩ := modified hsound hlegal tid garbage
    refine ⟨s', hs', hsound'.found_self hobject hlegal.1, fun i hi hne hmentions => ?_⟩
    exact hsound.found_of_ne hsound' hobject (by simpa using hmentions) hne hi
  · obtain ⟨r, s', hs', hsound', hok, herror⟩ := deleted hsound hlid tid
    refine ⟨r, s', hs', fun hr => ?_, fun hr => ?_⟩
    · obtain ⟨hsome, hobject⟩ := hok hr
      refine ⟨?_, hsound'.found_self hobject hlid, fun i hi hne hmentions =>
        hsound.found_of_ne hsound' hobject (.inr hmentions) hne hi⟩
      rw [hsound.found hlid]
      intro hnone
      rw [Option.map_eq_none_iff.mp hnone] at hsome
      cases hsome
    · obtain ⟨hnone, hstore⟩ := herror hr
      rw [hsound.found hlid, hnone]
      exact ⟨rfl, hstore⟩

def child : DataValue := { content := .integer 7 }

/-- Refers to the object with the id 1. -/
def parent : DataValue := { content := .vector [1] }

/-- A child and its parent are created, and the child is deleted. -/
theorem calls_map_family : ∃ s s' : LoggedStore, s.deleteObject 1 ⟨1, false, [], child⟩ = (0, s') ∧
    s.store.found 1 ≠ none ∧ s'.store.found 1 = none ∧ s'.store.found 3 = s.store.found 3 := by
  obtain ⟨s, hs, hQ⟩ := Reaches.of_play step Legal {}
    [.createObject 1 [] child none false 0, .createObject 1 [] parent none true 0,
      .createObject 1 [] child none true 0]
    (fun s => (s.store.found 1).isSome && (s.store.object 3 == some ⟨3, true, [], child⟩))
    (by decide +kernel)
  rw [Bool.and_eq_true, beq_iff_eq] at hQ
  obtain ⟨-, -, hdelete⟩ := calls_map hs
  obtain ⟨r, s', hs', hok, herror⟩ := hdelete 1 ⟨1, false, [], child⟩ (by decide)
  have hr : r = 0 := by
    by_contra hne
    rw [(herror hne).1] at hQ
    cases hQ.1
  subst hr
  obtain ⟨hfound, hgone, hother⟩ := hok rfl
  refine ⟨s, s', hs', hfound, hgone, hother 3 (by decide) (by decide) ?_⟩
  rintro ⟨o, ho, hmem⟩
  rw [hQ.2] at ho
  cases ho
  cases hmem

/-- The parent is there, and its child has been deleted. -/
def orphaned : LoggedStore :=
  (((({} : LoggedStore).createObject 1 [] child none false 0).2.createObject 1 [] parent none true
    0).2.deleteObject 1 ⟨1, false, [], child⟩).2

def tooLarge : DataValue := { content := .string (List.replicate 20000 0) }

/-- A child that is created again comes back to its parent, and an object that fits on no page
is created without an error and not found. -/
theorem found_otherwise :
    (orphaned.createObject 1 [] child (some 1) false 0).1 = 0 ∧
      orphaned.store.found 2 = some ⟨2, true, [], { content := .vector [] }⟩ ∧
      (orphaned.createObject 1 [] child (some 1) false 0).2.store.found 2 =
        some ⟨2, true, [], parent⟩ ∧
      (({} : LoggedStore).createObject 1 [] tooLarge none false 0).1 = 0 ∧
      (({} : LoggedStore).createObject 1 [] tooLarge none false 0).2.store.found 1 = none := by
  decide +kernel

end LoggedStore

end Loxim.Store
