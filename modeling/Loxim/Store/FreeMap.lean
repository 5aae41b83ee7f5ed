import Loxim.Lib.Run
import Loxim.Store.Buffer
import Loxim.Store.DBStoreManager

/-!
# The pages of the free map

The first page of every group has the free space of the others, as far as they have been
used. The buffer knows the pages by the lower 16 bits of their numbers: page 65536 is
page 0 to it, which belongs to the free map.
-/

namespace Loxim.Store

/-- A page of the free map and the pages it describes. -/
def groupSize : Nat := maxObjectCount + 1

/-- A page of the free map has entries where a data page has the offsets of its objects. -/
inductive RawPage
  | header (objectOffset : List Int) (freeSpace : Int)
  | data (p : Page)

def RawPage.initializePage (pageNum : Nat) : RawPage :=
  if pageNum % groupSize = 0 then .header [] maxObjectCount else .data {}

namespace RawPage

/-- Every object ends where the one before it begins. -/
def offsets (objects : List (Option Object)) : List Int :=
  (objects.scanl (fun (start : Int) o => start - ((o.map Object.size).getD 0 : Nat)) pageSize).tail

def objectOffset : RawPage → List Int
  | .header objectOffset _ => objectOffset
  | .data p => offsets p.objects

def freeSpace : RawPage → Int
  | .header _ freeSpace => freeSpace
  | .data p => p.freeSpace

/-- The only page of the free map that is taken for a data page is page 0, which has no free
space by then. -/
def insertObject : RawPage → Object → Option (RawPage × Nat)
  | .header _ _, _ => none
  | .data p, o => (p.insertObject o).map fun (p, offset) => (.data p, offset)

end RawPage

/-- The data file as it is seen through the buffer, and the map. -/
structure PagedStore where
  pages : Nat × Nat → RawPage := fun addr => RawPage.initializePage addr.2
  lastAssigned : Nat := 0
  map : Nat → PhysicalID := fun _ => rip

namespace PagedStore

def page (s : PagedStore) (pageID : Nat) : RawPage := s.pages (bufferAddr fileDefault pageID)

def setPage (s : PagedStore) (pageID : Nat) (p : RawPage) : PagedStore :=
  { s with pages := Function.update s.pages (bufferAddr fileDefault pageID) p }

-- ---------------------------------------------------------------------------
-- The free map
-- ---------------------------------------------------------------------------

/-- The loop over the pages of the free map; the first argument bounds its turns. -/
def getFreePageFrom (s : PagedStore) (objsize : Nat) : Nat → Nat → Nat
  | 0, _ => 0
  | n + 1, pii =>
    let entries := (s.page pii).objectOffset
    match entries.findIdx? fun free => decide ((objsize + 4 : Int) ≤ free) with
    | some i => pii + i + 1
    | none =>
      if entries.length < maxObjectCount then pii + entries.length + 1
      else getFreePageFrom s objsize n (pii + groupSize)

/-- The loop ends at the latest when `pii` is negative. -/
def getFreePage (s : PagedStore) (objsize : Nat) : Nat :=
  s.getFreePageFrom objsize (2 ^ 31 / groupSize + 1) 0

/-- A page has its number in its header, which is the one it got when it came to the buffer.
The entry before the first one is the free space of the page of the free map itself. -/
def updateFreeMap (s : PagedStore) (pageID : Nat) : PagedStore :=
  let pageNum := (bufferAddr fileDefault pageID).2
  let pii := pageNum - pageNum % groupSize
  let free := (s.page pageID).freeSpace
  if pageNum % groupSize = 0 then s
  else
    let offset := pageNum % groupSize - 1
    match s.page pii with
    | .data _ => s
    | .header f freeSpace =>
      if f.length < offset then s
      else if f.length = offset then s.setPage pii (.header (f ++ [free]) (freeSpace - 1))
      else s.setPage pii (.header (f.set offset free) freeSpace)

-- ---------------------------------------------------------------------------
-- The map
-- ---------------------------------------------------------------------------

/-- The map is that of `DBStoreManager`. -/
def ids (s : PagedStore) : DBStoreManager := { lastAssigned := s.lastAssigned, map := s.map }

def withIds (s : PagedStore) (ids : DBStoreManager) : PagedStore :=
  { s with lastAssigned := ids.lastAssigned, map := ids.map }

def createLogicalID (s : PagedStore) : PagedStore := s.withIds s.ids.createLogicalID

def getPhysicalID (s : PagedStore) (lid : Nat) : Except Int PhysicalID := s.ids.getPhysicalID lid

def setPhysicalID (s : PagedStore) (lid : Nat) (id : PhysicalID) : PagedStore :=
  s.withIds (s.ids.setPhysicalID lid id)

-- ---------------------------------------------------------------------------
-- Objects
-- ---------------------------------------------------------------------------

/-- An object that is not taken by its page would get an offset that is never set. -/
def insertObject (s : PagedStore) (o : Object) : Option (PagedStore × PhysicalID) := do
  let freepage := s.getFreePage o.size
  let (p, offset) ← (s.page freepage).insertObject o
  return ((s.setPage freepage p).updateFreeMap freepage, ⟨freepage, fileDefault, offset⟩)

def createObject (s : PagedStore) (name : List (BitVec 8)) (value : DataValue) (lid : Option Nat)
    (isRoot : Bool) : Option (PagedStore × Object) := do
  let s' := if lid = none then s.createLogicalID else s
  let o : Object := { lid := lid.getD s'.lastAssigned, isRoot, name, value }
  let (s', id) ← s'.insertObject o
  return (s'.setPhysicalID o.lid id, o)

/-- 2 for an id that is not assigned, 3 for an object that is deleted already. No object is on a
page of the free map. -/
def deleteObject (s : PagedStore) (lid : Nat) : Except Int PagedStore := do
  let id ← s.getPhysicalID lid
  if id.file = 0 ∧ id.page = 0 ∧ id.offset = 0 then throw 2
  if pageSize / 4 < id.offset then throw 3
  match s.page id.page with
  | .header _ _ => throw (-1)
  | .data p =>
    let s := s.setPhysicalID lid rip
    return (s.setPage id.page (.data (p.deleteObject id.offset))).updateFreeMap id.page

/-- Whether the object could be deleted is not looked at. -/
def withdrawn (s : PagedStore) (lid : Nat) : PagedStore :=
  match s.deleteObject lid with
  | .ok s' => s'
  | .error _ => s

def modifyObject (s : PagedStore) (o : Object) (dv : DataValue) : Option (PagedStore × Object) :=
  (s.withdrawn o.lid).createObject o.name dv (some o.lid) o.isRoot

-- ---------------------------------------------------------------------------
-- Calls one after another
-- ---------------------------------------------------------------------------

inductive Call
  | createObject (name : List (BitVec 8)) (value : DataValue)
  | modifyObject (o : Object) (dv : DataValue)
  | deleteObject (lid : Nat)

def step (s : PagedStore) : Call → Option PagedStore
  | .createObject name value => (s.createObject name value none false).map Prod.fst
  | .modifyObject o dv => (s.modifyObject o dv).map Prod.fst
  | .deleteObject lid => some (s.withdrawn lid)

/-- Page 65534 has not been used yet, or a page that has been used has room. -/
def HasRoom (s : PagedStore) (objsize : Nat) : Prop :=
  (s.page (16 * groupSize)).objectOffset.length < 62 ∨
    ∃ g ≤ 16, ∃ free ∈ (s.page (g * groupSize)).objectOffset, (objsize + 4 : Int) ≤ free

/-- The object is not larger than `MAX_OBJECT_SIZE`, and its page is not the last with a number
of 16 bits. -/
def Takes (s : PagedStore) (o : Object) : Prop := o.size + 4 ≤ maxFreeSpace ∧ s.HasRoom o.size

def Roomy (s : PagedStore) : Call → Prop
  | .createObject name value =>
    s.Takes { lid := s.lastAssigned + 1, isRoot := false, name, value }
  | .modifyObject o dv => (s.withdrawn o.lid).Takes { o with value := dv }
  | .deleteObject _ => True

/-- The free map has the free space of every page that has been used, these are the first of
their group, and a page that it gives has room for the object. -/
structure FreeMapExact (s : PagedStore) : Prop where
  entry : ∀ g ≤ 16, ∀ i free, (s.page (g * groupSize)).objectOffset[i]? = some free →
    ∃ p, s.page (g * groupSize + i + 1) = .data p ∧ p.freeSpace = free
  unused : ∀ g ≤ 16, ∀ i, (s.page (g * groupSize)).objectOffset.length ≤ i → i < maxObjectCount →
    g * groupSize + i + 1 < 65536 → s.page (g * groupSize + i + 1) = .data {}
  apart : ∀ lid, s.map lid ≠ rip → (s.map lid).page % groupSize ≠ 0
  accepts : ∀ o : Object, o.size + 4 ≤ maxFreeSpace →
    ∃ placed, (s.page (s.getFreePage o.size)).insertObject o = some placed

-- ---------------------------------------------------------------------------
-- Groups of a list
-- ---------------------------------------------------------------------------

/-- The entries of one page of the free map. -/
def group (freeMap : List Int) (g : Nat) : List Int :=
  (freeMap.drop (g * maxObjectCount)).take maxObjectCount

variable {freeMap : List Int} {g i index : Nat} {free : Int}

theorem maxObjectCount_eq : maxObjectCount = 4091 := rfl

theorem groupSize_eq : groupSize = 4092 := rfl

theorem pageId_eq (index : Nat) : pageId index = index / 4091 * 4092 + index % 4091 + 1 := rfl

theorem pageId_group (hi : i < 4091) : pageId (g * 4091 + i) = g * 4092 + i + 1 := by
  rw [pageId_eq, Nat.mul_comm g 4091, Nat.mul_add_div (by decide), Nat.mul_add_mod,
    Nat.div_eq_of_lt hi, Nat.mod_eq_of_lt hi]
  rfl

theorem length_group : (group freeMap g).length = min 4091 (freeMap.length - g * 4091) := by
  simp [group, maxObjectCount_eq]

theorem getElem?_group (hi : i < 4091) : (group freeMap g)[i]? = freeMap[g * 4091 + i]? := by
  simp [group, maxObjectCount_eq, hi]

theorem getElem?_group_of_le (hi : 4091 ≤ i) : (group freeMap g)[i]? = none :=
  List.getElem?_eq_none (by rw [length_group]; omega)

theorem group_set : group (freeMap.set index free) g =
    if g = index / 4091 then (group freeMap g).set (index % 4091) free else group freeMap g := by
  apply List.ext_getElem?
  intro i
  rcases Nat.lt_or_ge i 4091 with hi | hi
  · rw [getElem?_group hi, List.getElem?_set]
    split
    · rename_i heq
      have hg : g = index / 4091 := by omega
      have hmod : index % 4091 = i := by omega
      rw [if_pos hg, List.getElem?_set, if_pos hmod, length_group]
      congr 1
      simp only [eq_iff_iff]
      omega
    · rename_i hne
      split
      · rename_i hg
        have hmod : index % 4091 ≠ i := by omega
        rw [List.getElem?_set, if_neg hmod, getElem?_group hi]
      · rw [getElem?_group hi]
  · rw [getElem?_group_of_le hi]
    split
    · rw [List.getElem?_eq_none]
      rw [List.length_set, length_group]
      omega
    · rw [getElem?_group_of_le hi]

theorem group_append : group (freeMap ++ [free]) g =
    if g = freeMap.length / 4091 then group freeMap g ++ [free] else group freeMap g := by
  apply List.ext_getElem?
  intro i
  rcases Nat.lt_or_ge i 4091 with hi | hi
  · rw [getElem?_group hi, List.getElem?_append]
    split
    · -- an entry that was there
      rename_i hlt
      split
      · rw [List.getElem?_append_left (by rw [length_group]; omega), getElem?_group hi]
      · rw [getElem?_group hi]
    · rename_i hge
      split
      · rename_i hg
        have hlen : (group freeMap g).length = freeMap.length - g * 4091 := by
          rw [length_group]
          omega
        rw [List.getElem?_append_right (by omega), hlen]
        congr 1
        omega
      · rename_i hg
        rw [getElem?_group hi, List.getElem?_eq_none (by rw [List.length_singleton]; omega),
          List.getElem?_eq_none (by omega)]
  · rw [getElem?_group_of_le hi]
    split
    · rw [List.getElem?_eq_none]
      rw [List.length_append, length_group, List.length_singleton]
      omega
    · rw [getElem?_group_of_le hi]

-- ---------------------------------------------------------------------------
-- The store with a list for its free map
-- ---------------------------------------------------------------------------

/-- The pages of the free map have the entries of the list. -/
structure Represents (s : PagedStore) (a : DBStoreManager) : Prop where
  header : ∀ g ≤ 16, s.page (g * 4092) =
    .header (group a.freeMap g) (maxObjectCount - (group a.freeMap g).length : Nat)
  data : ∀ index, pageId index < 65536 → s.page (pageId index) = .data (a.pages (pageId index))
  last : s.lastAssigned = a.lastAssigned
  map : s.map = a.map

variable {s s' : PagedStore} {a a' : DBStoreManager} {o : Object} {lid p q : Nat} {r : RawPage}

theorem bufferAddr_inj (hp : p < 65536) (hq : q < 65536)
    (h : bufferAddr fileDefault p = bufferAddr fileDefault q) : p = q := by
  have hmod := (Prod.mk.inj h).2
  rwa [Nat.mod_eq_of_lt hp, Nat.mod_eq_of_lt hq] at hmod

theorem page_setPage_self : (s.setPage p r).page p = r := Function.update_self ..

theorem page_setPage_of_ne (hp : p < 65536) (hq : q < 65536) (h : q ≠ p) :
    (s.setPage p r).page q = s.page q :=
  Function.update_of_ne (fun heq => h (bufferAddr_inj hq hp heq)) ..

theorem represents_init : Represents {} {} := by
  refine ⟨fun g hg => ?_, fun index hlt => ?_, rfl, rfl⟩
  · have hnum : (g * 4092) % 65536 = g * 4092 := Nat.mod_eq_of_lt (by omega)
    simp only [page, bufferAddr, RawPage.initializePage, groupSize_eq, hnum]
    rw [if_pos (Nat.mul_mod_left ..)]
    simp [group]
  · have hnum : pageId index % 65536 = pageId index := Nat.mod_eq_of_lt hlt
    simp only [page, bufferAddr, RawPage.initializePage, groupSize_eq, hnum]
    rw [if_neg (by rw [pageId_eq]; omega)]

theorem pageId_ne_header : pageId index ≠ g * 4092 := by
  rw [pageId_eq]
  omega

/-- A page changes, and the free map with it. -/
theorem Represents.store (h : Represents s a) (page : Page) (hlt : pageId index < 65536)
    (hle : index ≤ a.freeMap.length) :
    Represents ((s.setPage (pageId index) (.data page)).updateFreeMap (pageId index))
      { a with
        pages := Function.update a.pages (pageId index) page
        freeMap := Store.updateFreeMap a.freeMap (pageId index) page.freeSpace } := by
  have hnum : pageId index % 65536 = pageId index := Nat.mod_eq_of_lt hlt
  have hmod : pageId index % 4092 = index % 4091 + 1 := by
    rw [pageId_eq]
    omega
  have hpii : pageId index - (index % 4091 + 1) = index / 4091 * 4092 := by
    rw [pageId_eq]
    omega
  have hg : index / 4091 ≤ 16 := by
    rw [pageId_eq] at hlt
    omega
  have hheader : (s.setPage (pageId index) (.data page)).page (index / 4091 * 4092) =
      .header (group a.freeMap (index / 4091))
        (maxObjectCount - (group a.freeMap (index / 4091)).length : Nat) := by
    rw [page_setPage_of_ne hlt (by omega) pageId_ne_header.symm]
    exact h.header _ hg
  have hfree : ((s.setPage (pageId index) (.data page)).page (pageId index)).freeSpace =
      page.freeSpace := by
    rw [page_setPage_self]
    rfl
  have hlen : (group a.freeMap (index / 4091)).length =
      min 4091 (a.freeMap.length - index / 4091 * 4091) := length_group
  -- what is written to the page of the free map
  have hupdate : (s.setPage (pageId index) (.data page)).updateFreeMap (pageId index) =
      (s.setPage (pageId index) (.data page)).setPage (index / 4091 * 4092)
        (.header
          (group (Store.updateFreeMap a.freeMap (pageId index) page.freeSpace) (index / 4091))
          (maxObjectCount - (group (Store.updateFreeMap a.freeMap (pageId index) page.freeSpace)
            (index / 4091)).length : Nat)) := by
    simp only [updateFreeMap, bufferAddr, hnum, groupSize_eq, hmod, hpii, hheader, hfree]
    rw [if_neg (Nat.succ_ne_zero _), Nat.add_sub_cancel, if_neg (by omega)]
    simp only [Store.updateFreeMap, freeIndex_pageId, if_neg (not_lt.mpr hle)]
    rcases Nat.lt_or_eq_of_le hle with hin | rfl
    · rw [if_neg (by omega), if_neg (by omega), group_set, if_pos rfl, List.length_set]
    · rw [if_pos (by omega), if_pos rfl, group_append, if_pos rfl, List.length_append,
        List.length_singleton, maxObjectCount_eq]
      have hlast : ((4091 - (group a.freeMap (a.freeMap.length / 4091)).length : Nat) : Int) - 1 =
          (4091 - ((group a.freeMap (a.freeMap.length / 4091)).length + 1) : Nat) := by omega
      rw [hlast]
  rw [hupdate]
  refine ⟨fun g hg' => ?_, fun i hi => ?_, h.last, h.map⟩
  · rcases eq_or_ne g (index / 4091) with rfl | hne
    · rw [page_setPage_self]
    · rw [page_setPage_of_ne (by omega) (by omega) (by omega),
        page_setPage_of_ne hlt (by omega) pageId_ne_header.symm, h.header g hg']
      have hgroup : group (Store.updateFreeMap a.freeMap (pageId index) page.freeSpace) g =
          group a.freeMap g := by
        simp only [Store.updateFreeMap, freeIndex_pageId, if_neg (not_lt.mpr hle)]
        split
        · rename_i heq
          rw [group_append, if_neg (by rwa [heq])]
        · rw [group_set, if_neg hne]
      simp only [hgroup]
  · rw [page_setPage_of_ne (by omega) hi pageId_ne_header]
    rcases eq_or_ne i index with rfl | hne
    · rw [page_setPage_self]
      simp
    · have hpage : pageId i ≠ pageId index :=
        fun heq => hne (DBStoreManager.pageId_injective heq)
      rw [page_setPage_of_ne hlt hi hpage, h.data i hi]
      simp [hpage]

-- ---------------------------------------------------------------------------
-- Finding a page
-- ---------------------------------------------------------------------------

/-- None of the first entries has room. -/
def FullUpTo (freeMap : List Int) (size n : Nat) : Prop :=
  ∀ i < n, ∀ free, freeMap[i]? = some free → ¬ (size + 4 : Int) ≤ free

theorem getFreePage_first {size : Nat} (hi : freeMap[i]? = some free)
    (hroom : (size + 4 : Int) ≤ free) (hfull : FullUpTo freeMap size i) :
    Store.getFreePage freeMap size = pageId i := by
  obtain ⟨hlt, rfl⟩ := List.getElem?_eq_some_iff.mp hi
  unfold Store.getFreePage
  congr 1
  refine (List.findIdx_eq hlt).mpr ⟨by simpa using hroom, fun j hj => ?_⟩
  have hnone := hfull j hj _ (List.getElem?_eq_getElem (hj.trans hlt))
  simpa using hnone

theorem getFreePage_full {size : Nat} (hfull : FullUpTo freeMap size freeMap.length) :
    Store.getFreePage freeMap size = pageId freeMap.length := by
  unfold Store.getFreePage
  congr 1
  refine List.findIdx_eq_length.mpr fun free hfree => ?_
  obtain ⟨i, hi⟩ := List.mem_iff_getElem?.mp hfree
  have hnone := hfull i (List.getElem?_eq_some_iff.mp hi).1 free hi
  simpa using hnone

theorem FullUpTo.group {size n : Nat} (h : FullUpTo freeMap size (g * 4091))
    (hgroup : ∀ i < n, ∀ free, (group freeMap g)[i]? = some free → ¬ (size + 4 : Int) ≤ free)
    (hn : n ≤ 4091) : FullUpTo freeMap size (g * 4091 + n) := by
  intro i hi free hfree
  rcases Nat.lt_or_ge i (g * 4091) with hlt | hge
  · exact h i hlt free hfree
  · obtain ⟨k, rfl⟩ := Nat.exists_eq_add_of_le hge
    exact hgroup k (by omega) free (by rwa [getElem?_group (by omega)])

/-- The pages of the free map are searched as the list is. -/
theorem getFreePageFrom_eq {size n : Nat} (hheader : ∀ g ≤ 16, (s.page (g * 4092)).objectOffset =
    group freeMap g) (hlen : freeMap.length ≤ 65519) (hn : 16 < g + n)
    (hle : g * 4091 ≤ freeMap.length) (hfull : FullUpTo freeMap size (g * 4091)) :
    s.getFreePageFrom size n (g * 4092) = Store.getFreePage freeMap size := by
  induction n generalizing g with
  | zero => omega
  | succ n ih =>
    unfold getFreePageFrom
    simp only [hheader g (by omega)]
    have hlength : (group freeMap g).length = min 4091 (freeMap.length - g * 4091) := length_group
    clear hlen
    split
    · rename_i i hi
      obtain ⟨hlt, hroom, hmin⟩ := List.findIdx?_eq_some_iff_getElem.mp hi
      have hfirst : freeMap[g * 4091 + i]? = some (group freeMap g)[i] := by
        rw [← getElem?_group (by omega), List.getElem?_eq_getElem hlt]
      have hbefore := hfull.group (n := i) (fun j hj free hfree => by
        obtain ⟨hjlt, rfl⟩ := List.getElem?_eq_some_iff.mp hfree
        simpa using hmin j hj) (by omega)
      rw [getFreePage_first hfirst (by simpa using hroom) hbefore, pageId_group (by omega)]
    · rename_i hnone
      have hbefore := hfull.group (n := (group freeMap g).length) (fun j _ free hfree => by
        have hfalse := List.findIdx?_eq_none_iff.mp hnone free (List.mem_of_getElem? hfree)
        simpa using hfalse) (by omega)
      rw [maxObjectCount_eq, groupSize_eq]
      split
      · have hend : g * 4091 + (group freeMap g).length = freeMap.length := by omega
        rw [hend] at hbefore
        rw [getFreePage_full hbefore, ← hend, pageId_group ‹_›]
      · have hfullgroup : (group freeMap g).length = 4091 := by omega
        have hnext : (g + 1) * 4091 ≤ freeMap.length := by
          have hrest := Nat.min_le_right 4091 (freeMap.length - g * 4091)
          rw [← hlength, hfullgroup] at hrest
          rw [Nat.succ_mul, Nat.add_comm]
          exact Nat.add_le_of_le_sub hle hrest
        rw [hfullgroup, ← Nat.succ_mul] at hbefore
        rw [← Nat.succ_mul]
        exact ih (by omega) hnext hbefore

theorem Represents.objectOffset (h : Represents s a) (hg : g ≤ 16) :
    (s.page (g * 4092)).objectOffset = group a.freeMap g := by
  rw [h.header g hg]
  rfl

theorem Represents.getFreePage (h : Represents s a) (hlen : a.freeMap.length ≤ 65519) (size : Nat) :
    s.getFreePage size = Store.getFreePage a.freeMap size := by
  unfold PagedStore.getFreePage
  have hturns : 16 < 0 + (2 ^ 31 / groupSize + 1) := by decide
  generalize 2 ^ 31 / groupSize + 1 = n at hturns ⊢
  have hfull : FullUpTo a.freeMap size (0 * 4091) := fun i hi => by omega
  have hloop := getFreePageFrom_eq (g := 0) (fun g hg => h.objectOffset hg) hlen hturns
    (by rw [Nat.zero_mul]; exact Nat.zero_le _) hfull
  rwa [Nat.zero_mul] at hloop

-- ---------------------------------------------------------------------------
-- The calls
-- ---------------------------------------------------------------------------

theorem setPhysicalID_pages (a : DBStoreManager) (lid : Nat) (id : PhysicalID) :
    (a.setPhysicalID lid id).pages = a.pages ∧ (a.setPhysicalID lid id).freeMap = a.freeMap := by
  unfold DBStoreManager.setPhysicalID
  split <;> exact ⟨rfl, rfl⟩

theorem Represents.setPhysicalID (h : Represents s a) (lid : Nat) (id : PhysicalID) :
    Represents (s.setPhysicalID lid id) (a.setPhysicalID lid id) := by
  obtain ⟨hpages, hfree⟩ := setPhysicalID_pages a lid id
  have hids : (s.ids.setPhysicalID lid id).map = (a.setPhysicalID lid id).map ∧
      (s.ids.setPhysicalID lid id).lastAssigned = (a.setPhysicalID lid id).lastAssigned := by
    unfold DBStoreManager.setPhysicalID
    split
    · exact ⟨h.map, h.last⟩
    · simp [DBStoreManager.assign, ids, h.map, h.last]
  refine ⟨fun g hg => ?_, fun index hlt => ?_, hids.2, hids.1⟩
  · rw [hfree]
    exact h.header g hg
  · rw [hpages]
    exact h.data index hlt

theorem Represents.createLogicalID (h : Represents s a) :
    Represents s.createLogicalID a.createLogicalID := by
  refine ⟨h.header, h.data, ?_, ?_⟩
  · simp [PagedStore.createLogicalID, withIds, ids, DBStoreManager.createLogicalID, h.last]
  · simp [PagedStore.createLogicalID, withIds, ids, DBStoreManager.createLogicalID, h.last, h.map]

/-- Room is found in the same way on the pages and in the list. -/
theorem Represents.hasRoom_iff (h : Represents s a) (hlen : a.freeMap.length ≤ 65518)
    (size : Nat) : s.HasRoom size ↔
      a.freeMap.length < 65518 ∨ ∃ free ∈ a.freeMap, (size + 4 : Int) ≤ free := by
  unfold HasRoom
  rw [groupSize_eq, h.objectOffset (le_refl 16), length_group]
  refine or_congr (by omega) ⟨?_, ?_⟩
  · rintro ⟨g, hg, free, hmem, hroom⟩
    rw [h.objectOffset hg] at hmem
    exact ⟨free, List.mem_of_mem_drop (List.mem_of_mem_take hmem), hroom⟩
  · rintro ⟨free, hmem, hroom⟩
    obtain ⟨i, hi⟩ := List.mem_iff_getElem?.mp hmem
    have hlt := (List.getElem?_eq_some_iff.mp hi).1
    refine ⟨i / 4091, by omega, free, ?_, hroom⟩
    rw [h.objectOffset (by omega)]
    refine List.mem_iff_getElem?.mpr ⟨i % 4091, ?_⟩
    rw [getElem?_group (by omega), ← hi]
    congr 1
    omega

theorem pageId_lt (h : index < 65519) : pageId index < 65536 := by
  rw [pageId_eq]
  omega

theorem length_updateFreeMap (hle : index ≤ freeMap.length) :
    (Store.updateFreeMap freeMap (pageId index) free).length = max freeMap.length (index + 1) := by
  simp only [Store.updateFreeMap, freeIndex_pageId, if_neg (not_lt.mpr hle)]
  split
  · simp
    omega
  · simp
    omega

/-- An object that fits is put where the store with the list puts it. -/
theorem Represents.insertObject (h : Represents s a) (hsound : a.Sound)
    (hfew : a.freeMap.length ≤ 65518) (hsize : o.size + 4 ≤ maxFreeSpace) :
    ∃ s' a' id, s.insertObject o = some (s', id) ∧ a.insertObject o = some (a', id) ∧
      Represents s' a' ∧ (s.HasRoom o.size → a'.freeMap.length ≤ 65518) := by
  obtain ⟨index, p, offset, hins, hle, -, -, -, hpage⟩ := hsound.insertObject hsize
  have hinsert : (a.pages (pageId index)).insertObject o = some (p, offset) := by
    obtain ⟨⟨p', offset'⟩, hp, heq⟩ := Option.bind_eq_some_iff.mp hins
    rw [hpage] at hp
    have hpages := congrArg (fun r => r.1.pages (pageId index)) (Option.some.inj heq)
    have hoffset := congrArg (fun r => r.2.offset) (Option.some.inj heq)
    simp only [hpage, Function.update_self] at hpages hoffset
    rw [hp, hpages, hoffset]
  have hlt : pageId index < 65536 := pageId_lt (by omega)
  have hget : s.getFreePage o.size = pageId index := by
    rw [h.getFreePage (by omega), hpage]
  refine ⟨_, _, _, ?_, hins, h.store _ hlt hle, fun hroom => ?_⟩
  · unfold PagedStore.insertObject
    simp only [hget, h.data index hlt, RawPage.insertObject, hinsert]
    rfl
  · -- a new page is only taken while there are few
    show (Store.updateFreeMap _ _ _).length ≤ _
    rw [length_updateFreeMap hle]
    rcases (h.hasRoom_iff hfew _).mp hroom with hlt | ⟨free, hmem, hfree⟩
    · omega
    · have hfound : index < a.freeMap.length := by
        rw [← DBStoreManager.pageId_injective hpage]
        exact List.findIdx_lt_length_of_exists ⟨free, hmem, by simpa using hfree⟩
      omega

/-- A created object is the one the store with the list creates. -/
theorem Represents.createObject {name : List (BitVec 8)} {value : DataValue} {lid : Option Nat}
    {isRoot : Bool} (h : Represents s a) (hsound : a.Sound) (hfew : a.freeMap.length ≤ 65518)
    (ho : o = { lid := lid.getD (s.lastAssigned + 1), isRoot, name, value })
    (hsize : o.size + 4 ≤ maxFreeSpace) :
    ∃ s' a', s.createObject name value lid isRoot = some (s', o) ∧
      a.createObject name value lid isRoot = some (a', o) ∧ Represents s' a' ∧
      (s.HasRoom o.size → a'.freeMap.length ≤ 65518) := by
  obtain ⟨sb, hsb⟩ : ∃ sb, (if lid = none then s.createLogicalID else s) = sb := ⟨_, rfl⟩
  obtain ⟨ab, hab⟩ : ∃ ab, (if lid = none then a.createLogicalID else a) = ab := ⟨_, rfl⟩
  have hbase : Represents sb ab ∧ ab.Sound ∧ ab.freeMap = a.freeMap ∧ sb.HasRoom = s.HasRoom ∧
      o = { lid := lid.getD sb.lastAssigned, isRoot, name, value } := by
    rw [← hsb, ← hab, ho]
    cases lid with
    | none => exact ⟨h.createLogicalID, hsound.createLogicalID.1, rfl, rfl, rfl⟩
    | some lid => exact ⟨h, hsound, rfl, rfl, rfl⟩
  obtain ⟨hrep, hsound', hfree, hroom, ho'⟩ := hbase
  obtain ⟨s', a', id, hs, ha, hrep', hlen⟩ :=
    hrep.insertObject hsound' (by rw [hfree]; exact hfew) hsize
  rw [hroom] at hlen
  have hid : o.lid = lid.getD sb.lastAssigned := congrArg Object.lid ho'
  refine ⟨s'.setPhysicalID o.lid id, a'.setPhysicalID o.lid id, ?_, ?_, hrep'.setPhysicalID _ _, ?_⟩
  · simp only [PagedStore.createObject, hsb, ← ho', hs, hid]
    rfl
  · simp only [DBStoreManager.createObject, hab, ← hrep.last, ← ho', ha, hid]
    rfl
  · rw [(setPhysicalID_pages ..).2]
    exact hlen

/-- What holds after calls that find room. -/
structure Sound (s : PagedStore) (a : DBStoreManager) : Prop where
  represents : Represents s a
  sound : a.Sound
  few : a.freeMap.length ≤ 65518

theorem Sound.createObject {name : List (BitVec 8)} {value : DataValue} {lid : Option Nat}
    {isRoot : Bool} (h : Sound s a)
    (htakes : s.Takes { lid := lid.getD (s.lastAssigned + 1), isRoot, name, value }) :
    ∃ s' a' o, s.createObject name value lid isRoot = some (s', o) ∧ Sound s' a' := by
  obtain ⟨s', a', hs, ha, hrep, hlen⟩ :=
    h.represents.createObject h.sound h.few rfl htakes.1
  exact ⟨s', a', _, hs, hrep, h.sound.of_createObject ha, hlen htakes.2⟩

/-- What is deleted is what the store with the list deletes. -/
theorem Sound.withdrawn (h : Sound s a) (lid : Nat) : ∃ a', Sound (s.withdrawn lid) a' := by
  have hget : s.getPhysicalID lid = a.getPhysicalID lid := by
    simp [PagedStore.getPhysicalID, DBStoreManager.getPhysicalID, ids, h.represents.last,
      h.represents.map]
  unfold PagedStore.withdrawn PagedStore.deleteObject
  rw [hget]
  have hdelete : ∀ a', a.deleteObject lid = .ok a' → a'.Sound := fun a' => h.sound.of_deleteObject
  unfold DBStoreManager.deleteObject at hdelete
  cases hid : a.getPhysicalID lid with
  | error e => exact ⟨a, h⟩
  | ok id =>
    simp only [hid, bind, Except.bind, pure, Except.pure] at hdelete ⊢
    by_cases hzero : id.file = 0 ∧ id.page = 0 ∧ id.offset = 0
    · rw [if_pos hzero]
      exact ⟨a, h⟩
    by_cases hoffset : pageSize / 4 < id.offset
    · rw [if_neg hzero, if_pos hoffset]
      exact ⟨a, h⟩
    rw [if_neg hzero, if_neg hoffset] at hdelete
    rw [if_neg hzero, if_neg hoffset]
    -- the object is in its slot
    have hmap : id = a.map lid := by
      unfold DBStoreManager.getPhysicalID at hid
      split at hid
      · cases hid
      · split at hid
        · cases hid
        · exact (Except.ok.inj hid).symm
    have hne : a.map lid ≠ rip := by
      intro heq
      rw [hmap, heq] at hoffset
      exact hoffset (by decide)
    obtain ⟨-, ⟨index, hpage, hlt⟩, -⟩ := h.sound.stored lid hne
    have hfew := h.few
    rw [← hmap] at hpage
    have h16 : pageId index < 65536 := pageId_lt (by omega)
    have hids := h.represents.setPhysicalID lid rip
    obtain ⟨hpages, hfree⟩ := setPhysicalID_pages a lid rip
    have hstore := hids.store ((a.pages (pageId index)).deleteObject id.offset) h16
      (by rw [hfree]; omega)
    simp only [hpage, h.represents.data index h16] at hdelete ⊢
    refine ⟨_, hstore, ?_, ?_⟩
    · rw [hpages, hfree]
      exact hdelete _ rfl
    · show (Store.updateFreeMap _ _ _).length ≤ _
      rw [hfree, length_updateFreeMap (by omega)]
      omega

theorem Sound.step {c : Call} (h : Sound s a) (hroomy : s.Roomy c) :
    ∃ s' a', s.step c = some s' ∧ Sound s' a' := by
  cases c with
  | createObject name value =>
    obtain ⟨s', a', o, hs, hsound⟩ := @Sound.createObject s a name value none false h hroomy
    exact ⟨s', a', by simp [PagedStore.step, hs], hsound⟩
  | modifyObject o dv =>
    obtain ⟨a₁, hsound₁⟩ := h.withdrawn o.lid
    obtain ⟨s', a', o', hs, hsound⟩ :=
      @Sound.createObject _ _ o.name dv (some o.lid) o.isRoot hsound₁ hroomy
    exact ⟨s', a', by simp [PagedStore.step, PagedStore.modifyObject, hs], hsound⟩
  | deleteObject lid =>
    obtain ⟨a', hsound⟩ := h.withdrawn lid
    exact ⟨_, a', rfl, hsound⟩

theorem sound_of_reaches (h : Reaches step Roomy {} s) : ∃ a, Sound s a := by
  refine h.invariant (I := fun s => ∃ a, Sound s a)
    ⟨{}, represents_init, DBStoreManager.sound_init, Nat.zero_le _⟩ ?_
  rintro s c s' ⟨a, ha⟩ hroomy hstep
  obtain ⟨s₁, a', hs₁, hsound⟩ := ha.step hroomy
  rw [hs₁] at hstep
  cases hstep
  exact ⟨a', hsound⟩

-- ---------------------------------------------------------------------------
-- The free map is exact
-- ---------------------------------------------------------------------------

/-- A page that is not in the free map yet is empty. -/
theorem page_unused (h : a.Sound) (hle : a.freeMap.length ≤ index) :
    a.pages (pageId index) = {} := by
  have hfree := h.free index
  rw [List.getElem?_eq_none hle, Option.getD_none] at hfree
  have haccount := (h.accounted (pageId index)).free
  generalize a.pages (pageId index) = page at *
  have hnone : page.objects = [] := by
    apply List.eq_nil_of_length_eq_zero
    omega
  cases page
  cases hnone
  cases hfree
  rfl

theorem Represents.exact (h : Represents s a) (hsound : a.Sound) (hfew : a.freeMap.length ≤ 65518) :
    s.FreeMapExact := by
  refine ⟨fun g hg i free hi => ?_, fun g hg i hle hi hlt => ?_, fun lid hne => ?_, fun o ho => ?_⟩
  · rw [groupSize_eq] at hi ⊢
    rw [h.objectOffset hg] at hi
    have hi4091 : i < 4091 := by
      by_contra hge
      rw [getElem?_group_of_le (by omega)] at hi
      cases hi
    rw [getElem?_group hi4091] at hi
    have hin := (List.getElem?_eq_some_iff.mp hi).1
    have hpage : pageId (g * 4091 + i) < 65536 := pageId_lt (by omega)
    refine ⟨a.pages (pageId (g * 4091 + i)), ?_, ?_⟩
    · rw [← pageId_group hi4091]
      exact h.data _ hpage
    · rw [← hsound.free, hi]
      rfl
  · rw [groupSize_eq] at hle hlt ⊢
    rw [h.objectOffset hg, length_group] at hle
    rw [maxObjectCount_eq] at hi
    rw [← pageId_group hi] at hlt ⊢
    rw [h.data _ hlt, page_unused hsound (by omega)]
  · rw [h.map] at hne ⊢
    obtain ⟨-, ⟨index, hpage, -⟩, -⟩ := hsound.stored lid hne
    rw [hpage, groupSize_eq, pageId_eq]
    omega
  · obtain ⟨s', a', id, hs, -⟩ := h.insertObject hsound hfew ho
    unfold PagedStore.insertObject at hs
    obtain ⟨placed, hplaced, -⟩ := Option.bind_eq_some_iff.mp hs
    exact ⟨placed, hplaced⟩

/-- As long as there is room on pages with numbers below 65535, the free map is exact. -/
theorem freeMap_exact (h : Reaches step Roomy {} s) : s.FreeMapExact := by
  obtain ⟨a, ha⟩ := sound_of_reaches h
  exact ha.represents.exact ha.sound ha.few

theorem freeMap_exact_first : ∃ s, Reaches step Roomy {} s ∧ s.FreeMapExact := by
  have hinit : Sound {} {} := ⟨represents_init, DBStoreManager.sound_init, Nat.zero_le _⟩
  have hroomy : ({} : PagedStore).Roomy (.createObject [] { content := .integer 7 }) :=
    ⟨by decide, (represents_init.hasRoom_iff (Nat.zero_le _) _).mpr (.inl (by decide))⟩
  obtain ⟨s, a, hs, -⟩ := hinit.step hroomy
  have hreach : Reaches step Roomy {} s := Reaches.refl.step hroomy hs
  exact ⟨s, hreach, freeMap_exact hreach⟩

/-- An object that fills a page. -/
def filler (lid : Nat) (bytes : List (BitVec 8)) : Object :=
  { lid, isRoot := false, name := [], value := { content := .string bytes } }

theorem size_filler {bytes : List (BitVec 8)} (h : bytes.length = 16328) (lid : Nat) :
    (filler lid bytes).size = 16360 := by
  simp only [filler, Object.size, DataValue.size, DataValue.contentSize, DataValue.setSize,
    DataValue.subclassesSize, h, List.length_nil, Finset.card_empty]

/-- It comes to a new page. -/
theorem freeMap_filler {bytes : List (BitVec 8)} {n : Nat} {lid : Nat} {id : PhysicalID}
    (hbytes : bytes.length = 16328) (h : a.Sound) (hfull : a.freeMap = List.replicate n 0)
    (ha : a.insertObject (filler lid bytes) = some (a', id)) :
    a'.freeMap = List.replicate (n + 1) 0 := by
  have hlen : a.freeMap.length = n := by rw [hfull, List.length_replicate]
  have hsize := size_filler hbytes lid
  generalize filler lid bytes = object at ha hsize
  have hpage : Store.getFreePage a.freeMap object.size = pageId n := by
    rw [← hlen]
    refine getFreePage_full fun i _ free hfree => ?_
    have hzero : free = 0 := by
      rw [hfull] at hfree
      exact List.eq_of_mem_replicate (List.mem_of_getElem? hfree)
    rw [hzero, hsize]
    decide
  have hinsert : (a.pages (pageId n)).insertObject object =
      some ({ objects := [some object], freeSpace := 0 }, 0) := by
    rw [page_unused h (Nat.le_of_eq hlen)]
    simp [Page.insertObject, hsize, maxFreeSpace, pageSize]
  simp only [DBStoreManager.insertObject, hpage, hinsert] at ha
  cases ha
  show Store.updateFreeMap a.freeMap (pageId n) 0 = _
  simp only [Store.updateFreeMap, freeIndex_pageId, hlen, if_neg (Nat.lt_irrefl n), if_pos]
  rw [hfull, List.replicate_succ']

theorem filler_fits {bytes : List (BitVec 8)} (hbytes : bytes.length = 16328) (lid : Nat) :
    (filler lid bytes).size + 4 ≤ maxFreeSpace := by
  rw [size_filler hbytes]
  decide

/-- As many pages are filled as have numbers of 16 bits. -/
theorem reaches_filled {bytes : List (BitVec 8)} {n : Nat} (hbytes : bytes.length = 16328)
    (hn : n ≤ 65519) : ∃ s a, Reaches step (fun _ _ => True) {} s ∧ Represents s a ∧ a.Sound ∧
      a.freeMap = List.replicate n 0 := by
  induction n with
  | zero => exact ⟨{}, {}, .refl, represents_init, DBStoreManager.sound_init, rfl⟩
  | succ n ih =>
    obtain ⟨s, a, hreach, hrep, hsound, hfull⟩ := ih (by omega)
    have hlen : a.freeMap.length ≤ 65518 := by
      rw [hfull, List.length_replicate]
      omega
    obtain ⟨s', a', hs, ha, hrep', -⟩ :=
      @Represents.createObject s a _ [] { content := .string bytes } none false hrep hsound hlen rfl
        (filler_fits hbytes (s.lastAssigned + 1))
    refine ⟨s', a', ?_, hrep', hsound.of_createObject ha, ?_⟩
    · refine hreach.step (a := .createObject [] { content := .string bytes }) trivial ?_
      rw [step, hs]
      rfl
    · simp only [DBStoreManager.createObject] at ha
      obtain ⟨⟨a₁, id⟩, hins, heq⟩ := Option.bind_eq_some_iff.mp ha
      have hins : a.createLogicalID.insertObject (filler (a.lastAssigned + 1) bytes) =
        some (a₁, id) := hins
      have hstore : _ = a' := congrArg Prod.fst (Option.some.inj heq)
      rw [← hstore, (setPhysicalID_pages ..).2]
      exact freeMap_filler hbytes hsound.createLogicalID.1 hfull hins

/-- The next page is the first page of the free map, which takes no object. -/
theorem not_freeMapExact : ∃ s, Reaches step (fun _ _ => True) {} s ∧ ¬ s.FreeMapExact := by
  have hbytes : (List.replicate 16328 (0 : BitVec 8)).length = 16328 := List.length_replicate
  obtain ⟨s, a, hreach, hrep, hsound, hfull⟩ := reaches_filled hbytes (Nat.le_refl _)
  have hlen : a.freeMap.length = 65519 := by rw [hfull, List.length_replicate]
  generalize List.replicate 16328 (0 : BitVec 8) = bytes at hbytes
  refine ⟨s, hreach, fun hexact => ?_⟩
  obtain ⟨placed, hplaced⟩ := hexact.accepts (filler 1 bytes) (filler_fits hbytes 1)
  have hpage : s.getFreePage (filler 1 bytes).size = 65536 := by
    have hpageId : pageId 65519 = 65536 := rfl
    rw [hrep.getFreePage (Nat.le_of_eq hlen), ← hpageId, ← hlen]
    refine getFreePage_full fun i _ free hfree => ?_
    have hzero : free = 0 := by
      rw [hfull] at hfree
      exact List.eq_of_mem_replicate (List.mem_of_getElem? hfree)
    rw [hzero, size_filler hbytes]
    decide
  have hsame : s.page 65536 = s.page (0 * 4092) := rfl
  rw [hpage, hsame, hrep.header 0 (Nat.zero_le _)] at hplaced
  cases hplaced

end PagedStore

end Loxim.Store
