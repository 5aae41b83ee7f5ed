import Loxim.Store.PageManager

/-!
# The store

The map gives the physical id of every logical id. Objects are never changed in
place: a modified object is deleted and created again, as a rule in another slot.
-/

namespace Loxim.Store

/-- `STORE_FILE_DEFAULT`. -/
def fileDefault : Nat := 1

/-- The map takes no larger ids. -/
def maxLogicalID : Nat := 10000000

structure PhysicalID where
  page : Nat
  file : Nat
  offset : Nat
  deriving DecidableEq

/-- `map->RIP`, for objects that are deleted or not there yet. -/
def rip : PhysicalID := ⟨0xFFFFFFFF, 0xFFFF, 0xFFFF⟩

structure DBStoreManager where
  pages : Nat → Page := fun _ => {}
  freeMap : List Int := []
  lastAssigned : Nat := 0
  map : Nat → PhysicalID := fun _ => rip

namespace DBStoreManager

-- ---------------------------------------------------------------------------
-- The map
-- ---------------------------------------------------------------------------

def createLogicalID (s : DBStoreManager) : DBStoreManager :=
  { s with map := Function.update s.map (s.lastAssigned + 1) rip, lastAssigned := s.lastAssigned + 1 }

/-- 1 for the null id, 2 for one that is not assigned. -/
def getPhysicalID (s : DBStoreManager) (lid : Nat) : Except Int PhysicalID :=
  if lid = 0 then .error 1
  else if s.lastAssigned < lid then .error 2
  else .ok (s.map lid)

/-- All ids up to this one are assigned. -/
def assign (s : DBStoreManager) (lid : Nat) : DBStoreManager :=
  { s with
    map := fun i => if s.lastAssigned < i ∧ i ≤ lid then rip else s.map i
    lastAssigned := max s.lastAssigned lid }

def setPhysicalID (s : DBStoreManager) (lid : Nat) (id : PhysicalID) : DBStoreManager :=
  if lid = 0 ∨ maxLogicalID < lid then s
  else { s.assign lid with map := Function.update (s.assign lid).map lid id }

-- ---------------------------------------------------------------------------
-- Objects
-- ---------------------------------------------------------------------------

/-- Where an object is put. There is no place if it does not fit on a page. -/
def insertObject (s : DBStoreManager) (o : Object) : Option (DBStoreManager × PhysicalID) := do
  let page := getFreePage s.freeMap o.size
  let (p, offset) ← (s.pages page).insertObject o
  return ({ s with
    pages := Function.update s.pages page p
    freeMap := updateFreeMap s.freeMap page p.freeSpace }, ⟨page, fileDefault, offset⟩)

def createObject (s : DBStoreManager) (name : List (BitVec 8)) (value : DataValue) (lid : Option Nat)
    (isRoot : Bool) : Option (DBStoreManager × Object) := do
  let s' := if lid = none then s.createLogicalID else s
  let o : Object := { lid := lid.getD s'.lastAssigned, isRoot, name, value }
  let (s', id) ← s'.insertObject o
  return (s'.setPhysicalID o.lid id, o)

/-- 2 for an id that is not assigned, 3 for an object that is deleted already. -/
def deleteObject (s : DBStoreManager) (lid : Nat) : Except Int DBStoreManager := do
  let id ← s.getPhysicalID lid
  if id.file = 0 ∧ id.page = 0 ∧ id.offset = 0 then throw 2
  if pageSize / 4 < id.offset then throw 3
  let p := (s.pages id.page).deleteObject id.offset
  return { s.setPhysicalID lid rip with
    pages := Function.update s.pages id.page p
    freeMap := updateFreeMap s.freeMap id.page p.freeSpace }

/-- Whether the object could be deleted is not looked at. -/
def modifyObject (s : DBStoreManager) (o : Object) (dv : DataValue) : Option (DBStoreManager × Object) :=
  let s' := match s.deleteObject o.lid with
    | .ok s' => s'
    | .error _ => s
  s'.createObject o.name dv (some o.lid) o.isRoot

def addRoot (s : DBStoreManager) (o : Object) : Option (DBStoreManager × Object) :=
  s.modifyObject { o with isRoot := true } o.value

def removeRoot (s : DBStoreManager) (o : Object) : Option (DBStoreManager × Object) :=
  s.modifyObject { o with isRoot := false } o.value

/-- Children that are deleted are left out of a vector that is read. -/
def autoRemove (s : DBStoreManager) (v : DataValue) : DataValue :=
  match v.content with
  | .vector lids => { v with content := .vector (lids.filter fun lid => s.map lid ≠ rip) }
  | .integer _ | .double _ | .string _ | .pointer _ => v

/-- A deleted object is not found, and that is no error. -/
def getObject (s : DBStoreManager) (lid : Nat) : Except Int (Option Object) := do
  let id ← s.getPhysicalID lid
  if id = rip then return none
  match (s.pages id.page).objectAt id.offset with
  | none => throw (-1)
  | some o => return some { o with value := s.autoRemove o.value }

-- ---------------------------------------------------------------------------
-- What the store holds
-- ---------------------------------------------------------------------------

/-- What is in a slot. -/
def objectAt (s : DBStoreManager) (id : PhysicalID) : Option Object :=
  (s.pages id.page).objectAt id.offset

/-- The object of a logical id. -/
def object (s : DBStoreManager) (lid : Nat) : Option Object :=
  if s.map lid = rip then none else s.objectAt (s.map lid)

/-- A logical id has its own object, and the free map has the free space of every page. -/
structure Sound (s : DBStoreManager) : Prop where
  unassigned : ∀ lid, lid = 0 ∨ s.lastAssigned < lid → s.map lid = rip
  mapped : ∀ lid, s.map lid ≠ rip → lid ≤ maxLogicalID
  stored : ∀ lid, s.map lid ≠ rip → (s.map lid).file = fileDefault ∧
    (∃ index, (s.map lid).page = pageId index ∧ index < s.freeMap.length) ∧
    ∃ o, s.objectAt (s.map lid) = some o ∧ o.lid = lid
  accounted : ∀ page, (s.pages page).Accounted
  free : ∀ index, s.freeMap[index]?.getD (maxFreeSpace : Int) = (s.pages (pageId index)).freeSpace

variable {s s' : DBStoreManager} {o : Object} {lid : Nat} {id : PhysicalID}

theorem sound_init : ({} : DBStoreManager).Sound := by
  refine ⟨fun _ _ => rfl, fun _ h => absurd rfl h, fun _ h => absurd rfl h,
    fun _ => Page.accounted_init, ?_⟩
  intro index
  rfl

theorem pageId_injective : Function.Injective pageId := fun i j h => by
  rw [← freeIndex_pageId i, h, freeIndex_pageId]

/-- The free map follows a page that changes. -/
theorem free_update {freeMap : List Int} {pages : Nat → Page} {index : Nat} (p : Page)
    (h : ∀ i, freeMap[i]?.getD (maxFreeSpace : Int) = (pages (pageId i)).freeSpace)
    (hle : index ≤ freeMap.length) (i : Nat) :
    (updateFreeMap freeMap (pageId index) p.freeSpace)[i]?.getD (maxFreeSpace : Int) =
      (Function.update pages (pageId index) p (pageId i)).freeSpace := by
  unfold updateFreeMap
  rw [freeIndex_pageId, if_neg (not_lt.mpr hle)]
  rcases eq_or_ne i index with rfl | hne
  · rw [Function.update_self]
    split
    · rename_i hlen
      simp [← hlen]
    · rename_i hlen
      have hlt : i < freeMap.length := by omega
      simp [hlt]
  · rw [Function.update_of_ne fun heq => hne (pageId_injective heq)]
    rw [← h i]
    split
    · rename_i hlen
      rcases Nat.lt_or_ge i freeMap.length with hlt | hge
      · rw [List.getElem?_append_left hlt]
      · rw [List.getElem?_eq_none (by simp; omega), List.getElem?_eq_none hge]
    · rw [List.getElem?_set_ne hne.symm]

theorem length_updateFreeMap (freeMap : List Int) (page : Nat) (free : Int) :
    freeMap.length ≤ (updateFreeMap freeMap page free).length := by
  unfold updateFreeMap
  split
  · exact Nat.le_refl _
  · split
    · simp
    · simp

/-- An object that fits on a page gets an empty slot. -/
theorem Sound.insertObject (h : s.Sound) (hsize : o.size + 4 ≤ maxFreeSpace) :
    ∃ index p offset, s.insertObject o = some ({ s with
        pages := Function.update s.pages (pageId index) p
        freeMap := updateFreeMap s.freeMap (pageId index) p.freeSpace },
        ⟨pageId index, fileDefault, offset⟩) ∧
      index ≤ s.freeMap.length ∧ p.Accounted ∧ (s.pages (pageId index)).objectAt offset = none ∧
      p.objectAt = Function.update (s.pages (pageId index)).objectAt offset (some o) ∧
      getFreePage s.freeMap o.size = pageId index := by
  set index := s.freeMap.findIdx fun free => decide ((o.size + 4 : Int) ≤ free) with hindex
  have hle : index ≤ s.freeMap.length := List.findIdx_le_length
  have hroom : (o.size + 4 : Int) ≤ (s.pages (pageId index)).freeSpace := by
    rw [← h.free index]
    rcases Nat.lt_or_eq_of_le hle with hlt | heq
    · have hget := List.findIdx_getElem (w := hlt)
      simpa [hlt] using hget
    · rw [heq, List.getElem?_eq_none (Nat.le_refl _)]
      simp
      omega
  obtain ⟨p, offset, hp⟩ := Page.insertObject_isSome hroom
  obtain ⟨hat, hnone⟩ := Page.insertObject_objectAt hp
  refine ⟨index, p, offset, ?_, hle, (h.accounted _).insertObject hp, hnone, hat, rfl⟩
  unfold DBStoreManager.insertObject
  show ((s.pages (pageId index)).insertObject o).bind _ = _
  rw [hp]
  rfl

theorem rip_file : rip.file ≠ fileDefault := by decide

/-- The slots of the page change, and the free map with them. -/
theorem Sound.update {index : Nat} {p : Page} (h : s.Sound) (hle : index ≤ s.freeMap.length)
    (hp : p.Accounted) (hkeep : ∀ lid, s.map lid ≠ rip → (s.map lid).page = pageId index →
      p.objectAt (s.map lid).offset = s.objectAt (s.map lid)) :
    Sound { s with
      pages := Function.update s.pages (pageId index) p
      freeMap := updateFreeMap s.freeMap (pageId index) p.freeSpace } ∧
    ∀ lid, s.map lid ≠ rip → DBStoreManager.objectAt { s with
      pages := Function.update s.pages (pageId index) p
      freeMap := updateFreeMap s.freeMap (pageId index) p.freeSpace } (s.map lid) =
        s.objectAt (s.map lid) := by
  have hobject (lid : Nat) (hne : s.map lid ≠ rip) : DBStoreManager.objectAt { s with
      pages := Function.update s.pages (pageId index) p
      freeMap := updateFreeMap s.freeMap (pageId index) p.freeSpace } (s.map lid) =
        s.objectAt (s.map lid) := by
    by_cases hpage : (s.map lid).page = pageId index
    · rw [← hkeep lid hne hpage]
      simp [DBStoreManager.objectAt, hpage]
    · simp [DBStoreManager.objectAt, hpage]
  refine ⟨⟨h.unassigned, h.mapped, fun lid hne => ?_, fun page => ?_,
    free_update p h.free hle⟩, hobject⟩
  · obtain ⟨hfile, ⟨i, hi, hlt⟩, o, ho, hlid⟩ := h.stored lid hne
    refine ⟨hfile, ⟨i, hi, Nat.lt_of_lt_of_le hlt (length_updateFreeMap ..)⟩, o, ?_, hlid⟩
    rw [hobject lid hne, ho]
  · rcases eq_or_ne page (pageId index) with rfl | hne
    · simpa using hp
    · simpa [hne] using h.accounted page

theorem Sound.assign (h : s.Sound) (lid : Nat) : (s.assign lid).map = s.map := by
  funext i
  unfold DBStoreManager.assign
  simp only
  split
  · rename_i hi
    exact (h.unassigned i (.inr hi.1)).symm
  · rfl

/-- A logical id is given a slot that has its object. -/
theorem Sound.setPhysicalID (h : s.Sound) (hlid : 0 < lid) (hmax : lid ≤ maxLogicalID)
    (hid : id = rip ∨ (id.file = fileDefault ∧
      (∃ index, id.page = pageId index ∧ index < s.freeMap.length) ∧
      ∃ o, s.objectAt id = some o ∧ o.lid = lid)) :
    (s.setPhysicalID lid id).Sound ∧ (s.setPhysicalID lid id).map = Function.update s.map lid id ∧
      (s.setPhysicalID lid id).lastAssigned = max s.lastAssigned lid ∧
      (s.setPhysicalID lid id).pages = s.pages := by
  have hset : s.setPhysicalID lid id =
      { s.assign lid with map := Function.update (s.assign lid).map lid id } := by
    rw [DBStoreManager.setPhysicalID, if_neg (by omega)]
  have hmap : (s.setPhysicalID lid id).map = Function.update s.map lid id := by
    rw [hset]
    show Function.update (s.assign lid).map lid id = _
    rw [h.assign]
  have hlast : (s.setPhysicalID lid id).lastAssigned = max s.lastAssigned lid := by
    rw [hset]
    rfl
  have hpages : (s.setPhysicalID lid id).pages = s.pages := by
    rw [hset]
    rfl
  have hfree : (s.setPhysicalID lid id).freeMap = s.freeMap := by
    rw [hset]
    rfl
  refine ⟨⟨?_, ?_, ?_, ?_, ?_⟩, hmap, hlast, hpages⟩
  · intro i hi
    rw [hlast] at hi
    have hne : i ≠ lid := by omega
    rw [hmap, Function.update_of_ne hne]
    exact h.unassigned i (by omega)
  · intro i hi
    rw [hmap] at hi
    rcases eq_or_ne i lid with rfl | hne
    · exact hmax
    · rw [Function.update_of_ne hne] at hi
      exact h.mapped i hi
  · intro i hi
    rw [hmap] at hi ⊢
    unfold DBStoreManager.objectAt
    rw [hfree, hpages]
    rcases eq_or_ne i lid with rfl | hne
    · rw [Function.update_self] at hi ⊢
      exact hid.resolve_left hi
    · rw [Function.update_of_ne hne] at hi ⊢
      exact h.stored i hi
  · rw [hpages]
    exact h.accounted
  · rw [hfree, hpages]
    exact h.free

/-- An object with its own id is created in a slot that was empty. -/
theorem Sound.createObject (h : s.Sound) (hlid : 0 < o.lid) (hmax : o.lid ≤ maxLogicalID)
    (hsize : o.size + 4 ≤ maxFreeSpace) :
    ∃ s', s.createObject o.name o.value (some o.lid) o.isRoot = some (s', o) ∧ s'.Sound ∧
      s'.object = Function.update s.object o.lid (some o) ∧
      (∀ i, i ≠ o.lid → s'.map i = s.map i) ∧ s'.map o.lid ≠ rip ∧
      s.objectAt (s'.map o.lid) = none ∧ s'.lastAssigned = max s.lastAssigned o.lid := by
  obtain ⟨index, p, offset, hins, hle, hp, hnone, hat, -⟩ := h.insertObject hsize
  have hkeep (lid : Nat) (hne : s.map lid ≠ rip) (hpage : (s.map lid).page = pageId index) :
      p.objectAt (s.map lid).offset = s.objectAt (s.map lid) := by
    obtain ⟨-, -, o', ho', -⟩ := h.stored lid hne
    have hoffset : (s.map lid).offset ≠ offset := by
      rintro rfl
      rw [DBStoreManager.objectAt, hpage, hnone] at ho'
      cases ho'
    rw [hat, Function.update_of_ne hoffset, DBStoreManager.objectAt, hpage]
  obtain ⟨hsound, hobjects⟩ := h.update hle hp hkeep
  generalize hs₁ : ({ s with
    pages := Function.update s.pages (pageId index) p
    freeMap := updateFreeMap s.freeMap (pageId index) p.freeSpace } : DBStoreManager) = s₁ at *
  have hmap₁ : s₁.map = s.map := by rw [← hs₁]
  have hlast₁ : s₁.lastAssigned = s.lastAssigned := by rw [← hs₁]
  have hnew : s₁.objectAt ⟨pageId index, fileDefault, offset⟩ = some o := by
    rw [← hs₁]
    simp [DBStoreManager.objectAt, hat]
  have hlt : index < s₁.freeMap.length := by
    rw [← hs₁]
    simp only [updateFreeMap, freeIndex_pageId, if_neg (not_lt.mpr hle)]
    split
    · simp
      omega
    · simp
      omega
  have hne : (⟨pageId index, fileDefault, offset⟩ : PhysicalID) ≠ rip := by
    intro heq
    exact rip_file (by rw [← heq])
  obtain ⟨hsound₂, hmap₂, hlast₂, hpages₂⟩ := @Sound.setPhysicalID _ o.lid _ hsound hlid hmax
    (.inr ⟨rfl, ⟨index, rfl, hlt⟩, o, hnew, rfl⟩)
  rw [hmap₁] at hmap₂
  refine ⟨_, ?_, hsound₂, ?_, ?_, ?_, ?_, ?_⟩
  · simp only [DBStoreManager.createObject]
    simp [hins]
  · funext i
    unfold object
    rw [hmap₂]
    rcases eq_or_ne i o.lid with rfl | hi
    · simp only [Function.update_self, if_neg hne]
      unfold DBStoreManager.objectAt at hnew ⊢
      rw [hpages₂, hnew]
    · simp only [Function.update_of_ne hi]
      split
      · rfl
      · rename_i hi'
        rw [← hobjects i hi']
        unfold DBStoreManager.objectAt
        rw [hpages₂]
  · intro i hi
    rw [hmap₂, Function.update_of_ne hi]
  · rwa [hmap₂, Function.update_self]
  · rw [hmap₂, Function.update_self]
    exact hnone
  · rw [hlast₂, hlast₁]

theorem Sound.createLogicalID (h : s.Sound) :
    s.createLogicalID.Sound ∧ s.createLogicalID.map = s.map ∧
      s.createLogicalID.object = s.object := by
  have hmap : s.createLogicalID.map = s.map := by
    rw [DBStoreManager.createLogicalID, ← h.unassigned (s.lastAssigned + 1) (.inr (Nat.lt_succ_self _))]
    exact Function.update_eq_self ..
  refine ⟨⟨?_, ?_, ?_, h.accounted, h.free⟩, hmap, ?_⟩
  · intro i hi
    rw [hmap]
    exact h.unassigned i (hi.imp_right fun hlt => Nat.lt_of_succ_lt hlt)
  · rw [hmap]
    exact h.mapped
  · rw [hmap]
    exact h.stored
  · funext i
    unfold object
    rw [hmap]
    rfl

/-- A new object is an object with the next id. -/
theorem createObject_new (s : DBStoreManager) (name : List (BitVec 8)) (value : DataValue)
    (isRoot : Bool) : s.createObject name value none isRoot =
      s.createLogicalID.createObject name value (some (s.lastAssigned + 1)) isRoot := rfl

theorem Sound.map_ne_rip (h : s.Sound) (ho : s.object lid = some o) :
    s.map lid ≠ rip ∧ s.objectAt (s.map lid) = some o ∧ o.lid = lid ∧ 0 < lid ∧
      lid ≤ s.lastAssigned := by
  have hne : s.map lid ≠ rip := by
    intro heq
    simp [object, heq] at ho
  have hat : s.objectAt (s.map lid) = some o := by simpa [object, hne] using ho
  obtain ⟨-, -, o', ho', hlid⟩ := h.stored lid hne
  rw [hat] at ho'
  cases ho'
  refine ⟨hne, hat, hlid, ?_, ?_⟩
  · by_contra hzero
    exact hne (h.unassigned lid (.inl (by omega)))
  · by_contra hlt
    exact hne (h.unassigned lid (.inr (by omega)))

theorem Sound.getPhysicalID (ho : 0 < lid) (hlast : lid ≤ s.lastAssigned) :
    s.getPhysicalID lid = .ok (s.map lid) := by
  unfold DBStoreManager.getPhysicalID
  rw [if_neg (by omega), if_neg (by omega)]

/-- An object that is there is deleted, and no other one. -/
theorem Sound.deleteObject (h : s.Sound) (ho : s.object lid = some o) :
    ∃ s', s.deleteObject lid = .ok s' ∧ s'.Sound ∧ s'.object = Function.update s.object lid none ∧
      s'.map = Function.update s.map lid rip ∧ s'.lastAssigned = s.lastAssigned := by
  obtain ⟨hne, hat, hlid, hpos, hlast⟩ := h.map_ne_rip ho
  have hmax := h.mapped lid hne
  obtain ⟨hfile, ⟨index, hpage, hlt⟩, -⟩ := h.stored lid hne
  have hoffset : (s.map lid).offset < ((s.pages (pageId index)).objects).length := by
    rw [← hpage]
    exact Page.objectAt_lt hat
  set p := (s.pages (pageId index)).deleteObject (s.map lid).offset with hp
  obtain ⟨hsound₁, hmap₁, hlast₁, hpages₁⟩ := @Sound.setPhysicalID _ lid rip h hpos hmax (.inl rfl)
  have hkeep (i : Nat) (hi : (s.setPhysicalID lid rip).map i ≠ rip)
      (hipage : ((s.setPhysicalID lid rip).map i).page = pageId index) :
      p.objectAt ((s.setPhysicalID lid rip).map i).offset =
        (s.setPhysicalID lid rip).objectAt ((s.setPhysicalID lid rip).map i) := by
    unfold DBStoreManager.objectAt
    rw [hmap₁] at hi hipage ⊢
    rw [hpages₁]
    have hil : i ≠ lid := by
      rintro rfl
      exact hi (Function.update_self ..)
    rw [Function.update_of_ne hil] at hi hipage ⊢
    rw [hp, Page.deleteObject_objectAt, hipage]
    apply Function.update_of_ne
    intro heq
    obtain ⟨-, -, o', ho', hlid'⟩ := h.stored i hi
    unfold DBStoreManager.objectAt at ho' hat
    rw [hipage, heq] at ho'
    rw [hpage, ho'] at hat
    cases hat
    exact hil (hlid'.symm.trans hlid)
  have hfree₁ : (s.setPhysicalID lid rip).freeMap = s.freeMap := by
    rw [DBStoreManager.setPhysicalID, if_neg (by omega)]
    rfl
  obtain ⟨hsound₂, hobjects⟩ := hsound₁.update (by rw [hfree₁]; exact Nat.le_of_lt hlt)
    ((h.accounted (pageId index)).deleteObject hoffset) hkeep
  refine ⟨_, ?_, hsound₂, ?_, hmap₁, ?_⟩
  · have hslots := (h.accounted (pageId index)).length_le
    have hcount : maxObjectCount ≤ pageSize / 4 := by decide
    have hzero : ¬((s.map lid).file = 0 ∧ (s.map lid).page = 0 ∧ (s.map lid).offset = 0) := by
      rw [hfile]
      exact fun hz => absurd hz.1 (by decide)
    simp only [DBStoreManager.deleteObject, Sound.getPhysicalID hpos hlast, bind, Except.bind,
      pure, Except.pure]
    rw [if_neg hzero, if_neg (by omega), hpage, hpages₁, hfree₁]
  · funext i
    unfold object
    show (if (s.setPhysicalID lid rip).map i = rip then none else _) = _
    rcases eq_or_ne i lid with rfl | hil
    · rw [if_pos (by rw [hmap₁, Function.update_self]), Function.update_self]
    · rw [Function.update_of_ne hil]
      by_cases hi : s.map i = rip
      · rw [if_pos (by rw [hmap₁, Function.update_of_ne hil, hi]), if_pos hi]
      · have hi₁ : (s.setPhysicalID lid rip).map i ≠ rip := by
          rwa [hmap₁, Function.update_of_ne hil]
        rw [if_neg hi₁, if_neg hi]
        refine (hobjects i hi₁).trans ?_
        unfold DBStoreManager.objectAt
        rw [hmap₁, Function.update_of_ne hil, hpages₁]
  · show (s.setPhysicalID lid rip).lastAssigned = s.lastAssigned
    rw [hlast₁]
    omega

/-- An object that is deleted cannot be deleted again. -/
theorem Sound.deleteObject_gone (h : s.Sound) (ho : s.object lid = none) (hpos : 0 < lid)
    (hlast : lid ≤ s.lastAssigned) : s.deleteObject lid = .error 3 := by
  have hrip : s.map lid = rip := by
    by_contra hne
    obtain ⟨-, -, o, hat, -⟩ := h.stored lid hne
    simp [object, hne, hat] at ho
  simp only [DBStoreManager.deleteObject, Sound.getPhysicalID hpos hlast, hrip, bind, Except.bind]
  rfl

/-- After `modifyObject` the object has the new value, whether it was there or not. -/
theorem Sound.modifyObject {dv : DataValue} (h : s.Sound) (hpos : 0 < o.lid)
    (hlast : o.lid ≤ s.lastAssigned) (hmax : o.lid ≤ maxLogicalID)
    (hsize : ({ o with value := dv } : Object).size + 4 ≤ maxFreeSpace) :
    ∃ s', s.modifyObject o dv = some (s', { o with value := dv }) ∧ s'.Sound ∧
      s'.object = Function.update s.object o.lid (some { o with value := dv }) ∧
      (∀ i, i ≠ o.lid → s'.map i = s.map i) ∧ s'.map o.lid ≠ rip ∧
      s'.lastAssigned = s.lastAssigned := by
  have hcreate {s₁ : DBStoreManager} (h₁ : s₁.Sound) (hlast₁ : s₁.lastAssigned = s.lastAssigned) :=
    h₁.createObject (o := { o with value := dv }) hpos hmax hsize
  cases ho : s.object o.lid with
  | none =>
    obtain ⟨s', hs', hsound, hobject, hmap, hrip, -, hlast'⟩ := hcreate h rfl
    refine ⟨s', ?_, hsound, hobject, hmap, hrip, by rw [hlast']; exact max_eq_left hlast⟩
    simp only [DBStoreManager.modifyObject, h.deleteObject_gone ho hpos hlast]
    exact hs'
  | some o₀ =>
    obtain ⟨s₁, hs₁, hsound₁, hobject₁, hmap₁, hlast₁⟩ := h.deleteObject ho
    obtain ⟨s', hs', hsound, hobject, hmap, hrip, -, hlast'⟩ := hcreate hsound₁ hlast₁
    refine ⟨s', ?_, hsound, ?_, ?_, hrip, ?_⟩
    · simp only [DBStoreManager.modifyObject, hs₁]
      exact hs'
    · rw [hobject, hobject₁]
      exact Function.update_idem ..
    · intro i hi
      rw [hmap i hi, hmap₁, Function.update_of_ne hi]
    · rw [hlast', hlast₁]
      exact max_eq_left hlast

-- ---------------------------------------------------------------------------
-- The stores there are
-- ---------------------------------------------------------------------------

/-- A store that objects were created in and deleted from. -/
inductive Reachable : DBStoreManager → Prop
  | init : Reachable {}
  | create {s s' : DBStoreManager} {o : Object} {lid : Option Nat} (h : Reachable s)
    (hs : s.createObject name value lid isRoot = some (s', o)) : Reachable s'
  | delete {s s' : DBStoreManager} {lid : Nat} (h : Reachable s)
    (hs : s.deleteObject lid = .ok s') : Reachable s'

/-- No page takes an object that does not fit on an empty one. -/
theorem Sound.fits_of_insertObject {id : PhysicalID} (h : s.Sound)
    (hs : s.insertObject o = some (s', id)) : o.size + 4 ≤ maxFreeSpace := by
  obtain ⟨⟨p, offset⟩, hp, -⟩ := Option.bind_eq_some_iff.mp hs
  obtain ⟨index, hindex⟩ : ∃ index, s.freeMap.findIdx
      (fun free => decide ((o.size + 4 : Int) ≤ free)) = index := ⟨_, rfl⟩
  have hpage : getFreePage s.freeMap o.size = pageId index := by rw [← hindex]; rfl
  rw [hpage] at hp
  have hmax := (h.accounted (pageId index)).free
  have hfree := h.free index
  rcases Nat.lt_or_ge index s.freeMap.length with hlt | hge
  · have hget := List.findIdx_getElem (w := hindex ▸ hlt)
    simp only [hindex, decide_eq_true_eq] at hget
    rw [List.getElem?_eq_getElem hlt, Option.getD_some] at hfree
    omega
  · -- a new page
    rw [List.getElem?_eq_none hge, Option.getD_none] at hfree
    have hempty : (s.pages (pageId index)).objects = [] := by
      apply List.eq_nil_of_length_eq_zero
      omega
    unfold Page.insertObject at hp
    rw [hempty] at hp
    simp only [List.findIdx?_nil] at hp
    split at hp
    · cases hp
    · split at hp
      · cases hp
      · omega

theorem Sound.of_insertObject {id : PhysicalID} (h : s.Sound)
    (hs : s.insertObject o = some (s', id)) :
    s'.Sound ∧ id.file = fileDefault ∧ (∃ index, id.page = pageId index ∧ index < s'.freeMap.length) ∧
      s'.objectAt id = some o := by
  obtain ⟨index, p, offset, hins, hle, hp, hnone, hat, -⟩ := h.insertObject (h.fits_of_insertObject hs)
  rw [hins] at hs
  cases hs
  refine ⟨(h.update hle hp fun lid hne hpage => ?_).1, rfl, ⟨index, rfl, ?_⟩, ?_⟩
  · obtain ⟨-, -, o', ho', -⟩ := h.stored lid hne
    have hoffset : (s.map lid).offset ≠ offset := by
      rintro rfl
      rw [DBStoreManager.objectAt, hpage, hnone] at ho'
      cases ho'
    rw [hat, Function.update_of_ne hoffset, DBStoreManager.objectAt, hpage]
  · simp only [updateFreeMap, freeIndex_pageId, if_neg (not_lt.mpr hle)]
    split
    · simp
      omega
    · simp
      omega
  · simp [DBStoreManager.objectAt, hat]

theorem Sound.of_createObject {name : List (BitVec 8)} {value : DataValue} {lid : Option Nat}
    {isRoot : Bool} (h : s.Sound) (hs : s.createObject name value lid isRoot = some (s', o)) :
    s'.Sound := by
  simp only [DBStoreManager.createObject] at hs
  obtain ⟨⟨s₁, id⟩, hins, hs⟩ := Option.bind_eq_some_iff.mp hs
  cases hs
  have hbase : (if lid = none then s.createLogicalID else s).Sound := by
    split
    · exact h.createLogicalID.1
    · exact h
  obtain ⟨hsound, hfile, hpage, hat⟩ := hbase.of_insertObject hins
  generalize lid.getD (if lid = none then s.createLogicalID else s).lastAssigned = n at hat ⊢
  by_cases hlid : n = 0 ∨ maxLogicalID < n
  · simp only [DBStoreManager.setPhysicalID, if_pos hlid]
    exact hsound
  · have hpos : 0 < n := by omega
    have hmax : n ≤ maxLogicalID := by omega
    exact (hsound.setPhysicalID hpos hmax (.inr ⟨hfile, hpage, _, hat, rfl⟩)).1

theorem Sound.of_deleteObject (h : s.Sound) (hs : s.deleteObject lid = .ok s') : s'.Sound := by
  cases ho : s.object lid with
  | some o =>
    obtain ⟨s₁, hs₁, hsound, -⟩ := h.deleteObject ho
    rw [hs₁] at hs
    cases hs
    exact hsound
  | none =>
    by_cases hlid : 0 < lid ∧ lid ≤ s.lastAssigned
    · rw [h.deleteObject_gone ho hlid.1 hlid.2] at hs
      cases hs
    · simp only [DBStoreManager.deleteObject, DBStoreManager.getPhysicalID] at hs
      split at hs
      · cases hs
      · rw [if_pos (by omega)] at hs
        cases hs

theorem Reachable.sound (h : Reachable s) : s.Sound := by
  induction h with
  | init => exact sound_init
  | create _ hs ih => exact ih.of_createObject hs
  | delete _ hs ih => exact ih.of_deleteObject hs

end DBStoreManager

end Loxim.Store
