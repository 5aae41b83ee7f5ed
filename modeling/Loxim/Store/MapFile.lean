import Loxim.Store.Buffer
import Loxim.Store.SlottedPage
import Loxim.Store.DBStoreManager

/-!
# The map of logical ids

The file of the map has a header with the last id that was assigned, and pages of
physical ids. Its pages are worked on in the buffer, which knows them by the lower 16
bits of their numbers.
-/

namespace Loxim.Store

open Bytes

/-- `STORE_FILE_MAP`. -/
def fileMap : Nat := 0xFF10

/-- `sizeof(map_page)`. -/
def mapHeaderSize : Nat := 12

/-- `STORE_MAP_PERPAGE`, with eight bytes for a physical id. -/
def mapPerPage : Nat := (pageSize - mapHeaderSize) / 8

/-- `STORE_MAP_MAPPAGE`. -/
def mapPage (i : Nat) : Nat := 1 + i / mapPerPage

/-- `STORE_MAP_MAPOFFSET`. -/
def mapOffset (i : Nat) : Nat := mapHeaderSize + 8 * (i % mapPerPage)

/-- The bytes of a `physical_id`. -/
abbrev PhysicalIDBytes := {bs : List UInt8 // bs.length = 8}

/-- `RIP`. -/
def ripBytes : PhysicalIDBytes := ⟨List.replicate 8 0xFF, rfl⟩

/-- The pages of the map as they are in the buffer. -/
abbrev MapFile := Nat × Nat → Memory

namespace MapFile

def page (f : MapFile) (p : Nat) : Memory := f (bufferAddr fileMap p)

def modifyPage (f : MapFile) (p : Nat) (g : Memory → Memory) : MapFile :=
  Function.update f (bufferAddr fileMap p) (g (f.page p))

/-- `junk` is what stands in the pages before they are written: `initializePage` leaves
a new one as it is. -/
def initializeFile (junk : MapFile) : MapFile := fun a =>
  let page := ((junk a).clear 0 pageSize).writeBytes 4 (encode 2 fileMap)
  if a = bufferAddr fileMap 0 then
    ((page.writeBytes 6 (encode 2 0x1001)).writeBytes 12 (encode 4 16)).writeBytes 16 (encode 4 0)
  else if a.1 = fileMap ∧ a.2 < 16 then
    (page.writeBytes 6 (encode 2 0x1002)).writeBytes 0 (encode 4 a.2)
  else junk a

/-- `last_assigned` stands behind the page header and `page_count`. -/
def getLastAssigned (f : MapFile) : Nat := decode ((f.page 0).readBytes 16 4)

section
variable (timer : MapFile → Int)

/-- `timer` gives the values of the logical timer. -/
def setLastAssigned (f : MapFile) (last : Nat) : MapFile :=
  f.modifyPage 0 fun m => (PageData.setTimestamp m (timer f)).writeBytes 16 (encode 4 last)

def putEntry (f : MapFile) (logicalID : Nat) (physicalID : PhysicalIDBytes) : MapFile :=
  f.modifyPage (mapPage logicalID) fun m =>
    PageData.setTimestamp (m.writeBytes (mapOffset logicalID) physicalID.1) (timer f)

/-- `last + 1` is an `unsigned int`. -/
def createLogicalID (f : MapFile) : Nat × MapFile :=
  let id := (f.getLastAssigned + 1) % 2 ^ 32
  (id, (f.putEntry timer id ripBytes).setLastAssigned timer id)

def entry (f : MapFile) (logicalID : Nat) : PhysicalIDBytes :=
  ⟨(f.page (mapPage logicalID)).readBytes (mapOffset logicalID) 8, Memory.length_readBytes⟩

def getPhysicalID (f : MapFile) (logicalID : Nat) : Int × Option PhysicalIDBytes :=
  if logicalID = 0 then (1, none)
  else if f.getLastAssigned < logicalID then (2, none)
  else (0, some (f.entry logicalID))

/-- The loop that assigns the ids up to `logicalID`; `set` is `setPhysicalID`. -/
def extend (set : MapFile → Nat → PhysicalIDBytes → Option (MapFile × Int)) (logicalID : Nat) :
    Nat → MapFile → Option MapFile
  | 0, f => if f.getLastAssigned < logicalID then none else some f
  | n + 1, f =>
    if f.getLastAssigned < logicalID then do
      let (ll, f) := f.createLogicalID timer
      let (f, _) ← set f ll ripBytes
      extend set logicalID n f
    else some f

/-- With a bound on the depth of the recursion. -/
def setWithin : Nat → MapFile → Nat → PhysicalIDBytes → Option (MapFile × Int)
  | 0, _, _, _ => none
  | depth + 1, f, logicalID, physicalID =>
    if logicalID = 0 then some (f, 1)
    else if maxLogicalID < logicalID then some (f, 2)
    else do
      let f ← extend timer (setWithin depth) logicalID logicalID f
      return (f.putEntry timer logicalID physicalID, 0)

/-- `none` is the null pointer. -/
def setPhysicalID (f : MapFile) (logicalID : Nat) :
    Option PhysicalIDBytes → Option (MapFile × Int)
  | none => some (f, 1)
  | some physicalID => setWithin timer 2 f logicalID physicalID

end

-- ---------------------------------------------------------------------------
-- Where the entries are
-- ---------------------------------------------------------------------------

/-- The entry in the buffer. -/
def address (i : Nat) : Nat × Nat := bufferAddr fileMap (mapPage i)

/-- From this id on an entry is on a page with a number of more than 16 bits. -/
def aliasedID : Nat := 65535 * mapPerPage

/-- Two entries have no byte in common. -/
def Apart (i j : Nat) : Prop :=
  address i ≠ address j ∨ mapOffset i + 8 ≤ mapOffset j ∨ mapOffset j + 8 ≤ mapOffset i

/-- The entry of an assigned id lies in a page behind its header, and not on the header
of the map or the entry of another id. -/
structure Placed (f : MapFile) (i : Nat) : Prop where
  header : mapHeaderSize ≤ mapOffset i
  fits : mapOffset i + 8 ≤ pageSize
  mapHeader : address i ≠ bufferAddr fileMap 0
  apart : ∀ j, 0 < j → j ≤ f.getLastAssigned → j ≠ i → Apart i j

theorem mapPerPage_eq : mapPerPage = 2046 := rfl

theorem aliasedID_eq : aliasedID = 134084610 := rfl

theorem header_le (i : Nat) : mapHeaderSize ≤ mapOffset i := Nat.le_add_right ..

theorem mapOffset_le (i : Nat) : mapOffset i + 8 ≤ pageSize := by
  have h : i % 2046 < 2046 := Nat.mod_lt _ (by omega)
  rw [mapOffset, mapPerPage_eq]
  simp only [mapHeaderSize, pageSize]
  omega

theorem address_eq (i : Nat) : address i = (fileMap, (1 + i / 2046) % 65536) := rfl

theorem address_ne_header {i : Nat} (h : i < aliasedID) : address i ≠ bufferAddr fileMap 0 := by
  rw [aliasedID_eq] at h
  simp only [address_eq, bufferAddr, ne_eq, Prod.mk.injEq, true_and]
  omega

theorem apart_of_ne {i j : Nat} (hi : i < aliasedID) (hj : j < aliasedID) (h : j ≠ i) :
    Apart i j := by
  rw [aliasedID_eq] at hi hj
  simp only [Apart, address_eq, mapOffset, mapPerPage_eq, mapHeaderSize, ne_eq, Prod.mk.injEq,
    true_and]
  omega

theorem placed {f : MapFile} {i : Nat} (h : f.getLastAssigned < aliasedID) (hi : i < aliasedID) :
    f.Placed i :=
  ⟨header_le i, mapOffset_le i, address_ne_header hi,
    fun _ _ hj hne => apart_of_ne hi (lt_of_le_of_lt hj h) hne⟩

-- ---------------------------------------------------------------------------
-- Reading what was written
-- ---------------------------------------------------------------------------

variable {timer : MapFile → Int} {f f' : MapFile} {i j last id : Nat} {p : PhysicalIDBytes}
  {map : Nat → PhysicalIDBytes}

theorem page_modifyPage_self (q : Nat) (g : Memory → Memory) :
    (f.modifyPage q g).page q = g (f.page q) := Function.update_self ..

theorem page_modifyPage_of_ne {q r : Nat} (g : Memory → Memory)
    (h : bufferAddr fileMap r ≠ bufferAddr fileMap q) : (f.modifyPage q g).page r = f.page r :=
  Function.update_of_ne h ..

theorem page_modifyPage_of_eq {q r : Nat} (g : Memory → Memory)
    (h : bufferAddr fileMap r = bufferAddr fileMap q) :
    (f.modifyPage q g).page r = g (f.page r) := by
  simp only [modifyPage, page, h, Function.update_self]

theorem entry_putEntry_self : (f.putEntry timer i p).entry i = p := by
  apply Subtype.ext
  have hlen := p.2
  have h := header_le i
  simp only [mapHeaderSize] at h
  simp only [entry, putEntry, page_modifyPage_self, PageData.setTimestamp]
  have hread : (((f.page (mapPage i)).writeBytes (mapOffset i) p.1).readBytes (mapOffset i)
      p.1.length) = p.1 := Memory.readBytes_writeBytes_self
  rw [Memory.readBytes_writeInt_of_disjoint (by omega)]
  rwa [hlen] at hread

theorem entry_putEntry_of_apart (h : Apart i j) :
    (f.putEntry timer i p).entry j = f.entry j := by
  apply Subtype.ext
  have hlen := p.2
  have hj := header_le j
  simp only [mapHeaderSize] at hj
  simp only [entry, putEntry]
  by_cases hpage : address j = address i
  · have hoff := h.resolve_left (not_not.mpr hpage.symm)
    rw [page_modifyPage_of_eq _ hpage, PageData.setTimestamp,
      Memory.readBytes_writeInt_of_disjoint (by omega),
      Memory.readBytes_writeBytes_of_disjoint (by omega)]
  · rw [page_modifyPage_of_ne _ hpage]

theorem entry_setLastAssigned (h : address j ≠ bufferAddr fileMap 0) :
    (f.setLastAssigned timer last).entry j = f.entry j := by
  apply Subtype.ext
  simp only [entry, setLastAssigned]
  rw [page_modifyPage_of_ne _ h]

theorem getLastAssigned_putEntry (h : address i ≠ bufferAddr fileMap 0) :
    (f.putEntry timer i p).getLastAssigned = f.getLastAssigned := by
  simp only [getLastAssigned, putEntry]
  rw [page_modifyPage_of_ne _ h.symm]

theorem getLastAssigned_setLastAssigned (h : last < 2 ^ 32) :
    (f.setLastAssigned timer last).getLastAssigned = last := by
  have hlen : (encode 4 last).length = 4 := length_encode
  have hread : ((PageData.setTimestamp (f.page 0) (timer f)).writeBytes 16 (encode 4 last)).readBytes
      16 4 = encode 4 last := by
    conv_lhs => rw [← hlen]
    exact Memory.readBytes_writeBytes_self
  simp only [getLastAssigned, setLastAssigned, page_modifyPage_self]
  rw [hread, decode_encode]
  exact Nat.mod_eq_of_lt h

-- ---------------------------------------------------------------------------
-- The map the file stands for
-- ---------------------------------------------------------------------------

/-- The file has `last` assigned ids, and their physical ids are those of `map`. -/
structure Represents (f : MapFile) (last : Nat) (map : Nat → PhysicalIDBytes) : Prop where
  assigned : f.getLastAssigned = last
  entries : ∀ j, 0 < j → j ≤ last → f.entry j = map j

theorem Represents.self (f : MapFile) : f.Represents f.getLastAssigned f.entry :=
  ⟨rfl, fun _ _ _ => rfl⟩

theorem Represents.getPhysicalID (h : f.Represents last map) (hj : 0 < j) :
    f.getPhysicalID j = if last < j then (2, none) else (0, some (map j)) := by
  unfold MapFile.getPhysicalID
  rw [if_neg hj.ne', h.assigned]
  split
  · rfl
  · rw [h.entries j hj (by omega)]

variable (timer) in
theorem Represents.putEntry (h : f.Represents last map) (hlast : last < aliasedID) (hid : 0 < id)
    (hle : id ≤ last) : (f.putEntry timer id p).Represents last (Function.update map id p) := by
  have hlt : id < aliasedID := lt_of_le_of_lt hle hlast
  refine ⟨?_, ?_⟩
  · rw [getLastAssigned_putEntry (address_ne_header hlt), h.assigned]
  · intro j hj hjle
    rcases eq_or_ne j id with rfl | hne
    · rw [entry_putEntry_self, Function.update_self]
    · have hjlt : j < aliasedID := lt_of_le_of_lt hjle hlast
      rw [entry_putEntry_of_apart (apart_of_ne hlt hjlt hne), h.entries j hj hjle,
        Function.update_of_ne hne]

variable (timer) in
/-- A new id is the next one, and nothing is there yet. -/
theorem Represents.createLogicalID (h : f.Represents last map) (hlt : last + 1 < aliasedID) :
    (f.createLogicalID timer).1 = last + 1 ∧
      (f.createLogicalID timer).2.Represents (last + 1)
        (Function.update map (last + 1) ripBytes) := by
  have hmod : (last + 1) % 2 ^ 32 = last + 1 := by
    rw [aliasedID_eq] at hlt
    omega
  have hid : (f.createLogicalID timer).1 = last + 1 := by
    simp only [MapFile.createLogicalID, h.assigned, hmod]
  refine ⟨hid, ?_, ?_⟩
  · simp only [MapFile.createLogicalID, h.assigned, hmod]
    apply getLastAssigned_setLastAssigned
    rw [aliasedID_eq] at hlt
    omega
  · intro j hj hjle
    have hjlt : j < aliasedID := lt_of_le_of_lt hjle hlt
    simp only [MapFile.createLogicalID, h.assigned, hmod]
    rw [entry_setLastAssigned (address_ne_header hjlt)]
    rcases eq_or_ne j (last + 1) with rfl | hne
    · rw [entry_putEntry_self, Function.update_self]
    · rw [entry_putEntry_of_apart (apart_of_ne hlt hjlt hne), h.entries j hj (by omega),
        Function.update_of_ne hne]

/-- The map with all ids up to `id` assigned. -/
def assign (last : Nat) (map : Nat → PhysicalIDBytes) (id : Nat) : Nat → PhysicalIDBytes :=
  fun j => if last < j ∧ j ≤ id then ripBytes else map j

theorem assign_of_le (h : id ≤ last) : assign last map id = map := by
  funext j
  exact if_neg (by omega)

/-- Assigning the next id and then the rest. -/
theorem assign_succ (hj : j ≤ id) :
    assign (last + 1) (Function.update map (last + 1) ripBytes) id j = assign last map id j := by
  unfold assign
  rcases eq_or_ne j (last + 1) with rfl | hne
  · rw [Function.update_self, ite_self, if_pos ⟨Nat.lt_succ_self last, hj⟩]
  · rw [Function.update_of_ne hne]
    have hiff : last + 1 < j ∧ j ≤ id ↔ last < j ∧ j ≤ id := by omega
    simp only [hiff]

theorem Represents.congr {map' : Nat → PhysicalIDBytes} (h : f.Represents last map)
    (hmap : ∀ j, 0 < j → j ≤ last → map j = map' j) : f.Represents last map' :=
  ⟨h.assigned, fun j hj hle => (h.entries j hj hle).trans (hmap j hj hle)⟩

variable (timer) in
/-- `setPhysicalID` on an id that is assigned already does not come to its loop. -/
theorem Represents.setWithin (h : f.Represents last map) (hlast : last < aliasedID) (hid : 0 < id)
    (hle : id ≤ last) (hmax : id ≤ maxLogicalID) (p : PhysicalIDBytes) (depth : Nat) :
    ∃ f', MapFile.setWithin timer (depth + 1) f id p = some (f', 0) ∧
      f'.Represents last (Function.update map id p) := by
  have hnot : ¬ f.getLastAssigned < id := by
    rw [h.assigned]
    omega
  have hextend : MapFile.extend timer (MapFile.setWithin timer depth) id id f = some f := by
    cases id with
    | zero => exact if_neg hnot
    | succ n => exact if_neg hnot
  refine ⟨_, ?_, h.putEntry timer hlast hid hle⟩
  rw [MapFile.setWithin, if_neg hid.ne', if_neg (by omega), hextend]
  rfl

variable (timer) in
/-- The loop assigns one id after the other, and none of them has an object. -/
theorem Represents.extend (h : f.Represents last map) (hlast : last < aliasedID)
    (hmax : id ≤ maxLogicalID) (depth : Nat) {n : Nat} (hn : id ≤ last + n) :
    ∃ f', MapFile.extend timer (MapFile.setWithin timer (depth + 1)) id n f = some f' ∧
      f'.Represents (max last id) (assign last map id) := by
  induction n generalizing f last map with
  | zero =>
    have hnot : ¬ f.getLastAssigned < id := by
      rw [h.assigned]
      omega
    have hle : id ≤ last := hn
    refine ⟨f, if_neg hnot, ?_⟩
    rw [max_eq_left hle, assign_of_le hle]
    exact h
  | succ n ih =>
    rcases Nat.lt_or_ge last id with hlt | hge
    · have hsmall : last + 1 < aliasedID := by
        rw [aliasedID_eq]
        simp only [maxLogicalID] at hmax
        omega
      obtain ⟨hll, hcreated⟩ := h.createLogicalID timer hsmall
      obtain ⟨f₁, hf₁, hset⟩ := hcreated.setWithin timer hsmall (Nat.succ_pos last) le_rfl
        (by omega) ripBytes depth
      rw [Function.update_idem] at hset
      obtain ⟨f', hf', hrep⟩ := ih hset hsmall (by omega)
      refine ⟨f', ?_, ?_⟩
      · rw [MapFile.extend, if_pos (by rwa [h.assigned])]
        change (MapFile.setWithin timer (depth + 1) (f.createLogicalID timer).2
          (f.createLogicalID timer).1 ripBytes >>= fun x => _) = _
        rw [hll, hf₁]
        exact hf'
      · rw [max_eq_right (by omega)] at hrep ⊢
        exact hrep.congr fun j _ hj => assign_succ hj
    · refine ⟨f, if_neg (by rw [h.assigned]; omega), ?_⟩
      rw [max_eq_left hge, assign_of_le hge]
      exact h

variable (timer) in
/-- `setPhysicalID` in every case. -/
theorem Represents.setPhysicalID (h : f.Represents last map) (hlast : last < aliasedID)
    (id : Nat) (pid : Option PhysicalIDBytes) :
    ∃ f' code, f.setPhysicalID timer id pid = some (f', code) ∧
      ((code ≠ 0 ∧ f' = f ∧ (pid = none ∨ id = 0 ∨ maxLogicalID < id)) ∨ ∃ p, pid = some p ∧ 0 < id ∧ id ≤ maxLogicalID ∧ code = 0 ∧
        f'.Represents (max last id) (Function.update (assign last map id) id p)) := by
  cases pid with
  | none => exact ⟨f, 1, rfl, .inl ⟨by decide, rfl, .inl rfl⟩⟩
  | some p =>
    rw [MapFile.setPhysicalID, MapFile.setWithin]
    rcases Nat.eq_zero_or_pos id with rfl | hid
    · exact ⟨f, 1, rfl, .inl ⟨by decide, rfl, .inr (.inl rfl)⟩⟩
    · rw [if_neg hid.ne']
      rcases Nat.lt_or_ge maxLogicalID id with hmax | hmax
      · exact ⟨f, 2, if_pos hmax, .inl ⟨by decide, rfl, .inr (.inr hmax)⟩⟩
      · obtain ⟨f₁, hf₁, hrep⟩ := h.extend timer hlast hmax 0 (Nat.le_add_left id last)
        have hsmall : max last id < aliasedID := by
          rw [aliasedID_eq] at hlast ⊢
          simp only [maxLogicalID] at hmax
          omega
        refine ⟨f₁.putEntry timer id p, 0, ?_, .inr ⟨p, rfl, hid, hmax, rfl, ?_⟩⟩
        · rw [if_neg (by omega), hf₁]
          rfl
        · exact hrep.putEntry timer hsmall hid (le_max_right ..)

-- ---------------------------------------------------------------------------
-- The map of the store
-- ---------------------------------------------------------------------------

/-- `page_id`, `file_id` and `offset`. -/
def toPhysicalID (p : PhysicalIDBytes) : PhysicalID :=
  ⟨decode (p.1.take 4), decode ((p.1.drop 4).take 2), decode (p.1.drop 6)⟩

/-- The file has the map that the store works with. -/
structure Implements (f : MapFile) (s : DBStoreManager) : Prop where
  assigned : f.getLastAssigned = s.lastAssigned
  map : ∀ j, 0 < j → j ≤ s.lastAssigned → s.map j = toPhysicalID (f.entry j)

variable {s : DBStoreManager}

theorem Implements.getPhysicalID (h : f.Implements s) (id : Nat) :
    s.getPhysicalID id = if (f.getPhysicalID id).1 = 0 then .ok (toPhysicalID (f.entry id))
      else .error (f.getPhysicalID id).1 := by
  unfold DBStoreManager.getPhysicalID MapFile.getPhysicalID
  rw [h.assigned]
  split
  · rfl
  · split
    · rfl
    · rw [h.map id (by omega) (by omega)]
      rfl

theorem Implements.of_represents (h : f'.Represents s.lastAssigned map)
    (hmap : ∀ j, 0 < j → j ≤ s.lastAssigned → s.map j = toPhysicalID (map j)) : f'.Implements s :=
  ⟨h.assigned, fun j hj hle => by rw [h.entries j hj hle, hmap j hj hle]⟩

theorem Implements.createLogicalID (h : f.Implements s) (hlt : s.lastAssigned + 1 < aliasedID) :
    (f.createLogicalID timer).2.Implements s.createLogicalID := by
  have hself : f.Represents s.lastAssigned f.entry := ⟨h.assigned, fun _ _ _ => rfl⟩
  apply Implements.of_represents (hself.createLogicalID timer hlt).2
  intro j hj hle
  simp only [DBStoreManager.createLogicalID] at hle ⊢
  rcases eq_or_ne j (s.lastAssigned + 1) with rfl | hne
  · simp only [Function.update_self]
    rfl
  · rw [Function.update_of_ne hne, Function.update_of_ne hne]
    exact h.map j hj (by omega)

theorem Implements.setPhysicalID (h : f.Implements s) (hlast : s.lastAssigned < aliasedID)
    (id : Nat) (p : PhysicalIDBytes) :
    ∃ f' code, f.setPhysicalID timer id (some p) = some (f', code) ∧
      f'.Implements (s.setPhysicalID id (toPhysicalID p)) := by
  have hself : f.Represents s.lastAssigned f.entry := ⟨h.assigned, fun _ _ _ => rfl⟩
  obtain ⟨f', code, hf', hcases⟩ := hself.setPhysicalID timer hlast id (some p)
  refine ⟨f', code, hf', ?_⟩
  rcases hcases with ⟨-, rfl, hno⟩ | ⟨_, ⟨⟩, hid, hmax, -, hrep⟩
  · have hbad : id = 0 ∨ maxLogicalID < id := hno.resolve_left (by simp)
    rw [DBStoreManager.setPhysicalID, if_pos hbad]
    exact h
  · have hgood : ¬ (id = 0 ∨ maxLogicalID < id) := by omega
    rw [DBStoreManager.setPhysicalID, if_neg hgood]
    apply Implements.of_represents hrep
    intro j hj hle
    rcases eq_or_ne j id with rfl | hne
    · simp only [Function.update_self]
    · simp only [Function.update_of_ne hne, DBStoreManager.assign, MapFile.assign]
      split
      · rfl
      · simp only [DBStoreManager.assign] at hle
        exact h.map j hj (by omega)

end MapFile

-- ---------------------------------------------------------------------------
-- Runs
-- ---------------------------------------------------------------------------

/-- The file with what was said about it so far. -/
structure MapRun where
  file : MapFile
  /-- What `createLogicalID` returned, the last first. -/
  returned : List Nat := []
  /-- What `setPhysicalID` set last. -/
  given : Nat → Option PhysicalIDBytes := fun _ => none

inductive MapCall
  | createLogicalID (timer : MapFile → Int)
  | setPhysicalID (timer : MapFile → Int) (logicalID : Nat) (physicalID : Option PhysicalIDBytes)
  | getPhysicalID (logicalID : Nat)

namespace MapRun

open MapFile

def step (s : MapRun) : MapCall → Option MapRun
  | .createLogicalID timer =>
    let (id, file) := s.file.createLogicalID timer
    some { s with file, returned := id :: s.returned }
  | .setPhysicalID timer id pid => do
    let (file, code) ← s.file.setPhysicalID timer id pid
    return { s with file, given := if code = 0 then Function.update s.given id pid else s.given }
  | .getPhysicalID _ => some s

/-- The id whose entry a call is meant to change. -/
def target : MapCall → Option Nat
  | .setPhysicalID _ id _ => some id
  | .createLogicalID _ | .getPhysicalID _ => none

/-- What a call leaves. -/
structure CallOk (s : MapRun) (c : MapCall) (s' : MapRun) : Prop where
  fresh : s'.returned.Nodup
  kept : ∀ id p, s'.given id = some p → s'.file.getPhysicalID id = (0, some p)
  others : ∀ id, target c ≠ some id → (s.file.getPhysicalID id).1 = 0 →
    s'.file.getPhysicalID id = s.file.getPhysicalID id
  skipped : ∀ timer id pid, c = .setPhysicalID timer id pid →
    s.file.setPhysicalID timer id pid = some (s'.file, 0) → ∀ j, s.file.getLastAssigned < j →
      j < id → s'.file.getPhysicalID j = (0, some ripBytes)
  placed : ∀ i, 0 < i → i ≤ s'.file.getLastAssigned → s'.file.Placed i

/-- A new id is not beyond the pages with numbers of 16 bits. -/
def Below (s : MapRun) : MapCall → Prop
  | .createLogicalID _ => s.file.getLastAssigned + 1 < aliasedID
  | .setPhysicalID .. | .getPhysicalID _ => True

/-- After calls that kept to the condition. -/
structure Inv (s : MapRun) : Prop where
  below : s.file.getLastAssigned < aliasedID
  returned : s.returned.Nodup ∧ ∀ id ∈ s.returned, id ≤ s.file.getLastAssigned
  given : ∀ id p, s.given id = some p →
    0 < id ∧ id ≤ s.file.getLastAssigned ∧ s.file.entry id = p

variable {s s' : MapRun} {c : MapCall}

theorem Inv.kept (h : Inv s) {id : Nat} {p : PhysicalIDBytes} (hp : s.given id = some p) :
    s.file.getPhysicalID id = (0, some p) := by
  obtain ⟨hid, hle, hentry⟩ := h.given id p hp
  rw [(Represents.self s.file).getPhysicalID hid, if_neg (by omega), hentry]

/-- Ids that have a physical id are assigned. -/
theorem assigned_of_code {f : MapFile} {id : Nat} (h : (f.getPhysicalID id).1 = 0) :
    0 < id ∧ id ≤ f.getLastAssigned := by
  unfold MapFile.getPhysicalID at h
  split at h
  · cases h
  · split at h
    · cases h
    · omega

theorem getPhysicalID_congr {f f' : MapFile} {id : Nat} (hid : 0 < id)
    (hle : id ≤ f.getLastAssigned) (hle' : id ≤ f'.getLastAssigned)
    (h : f'.entry id = f.entry id) : f'.getPhysicalID id = f.getPhysicalID id := by
  rw [(Represents.self f).getPhysicalID hid, (Represents.self f').getPhysicalID hid,
    if_neg (by omega), if_neg (by omega), h]

theorem Inv.placed (h : Inv s) (i : Nat) (hi : i ≤ s.file.getLastAssigned) : s.file.Placed i :=
  MapFile.placed h.below (lt_of_le_of_lt hi h.below)

theorem Inv.create (h : Inv s) (timer : MapFile → Int)
    (hlt : s.file.getLastAssigned + 1 < aliasedID) (hs : s.step (.createLogicalID timer) = some s') :
    Inv s' ∧ CallOk s (.createLogicalID timer) s' := by
  obtain ⟨hid, hrep⟩ := (Represents.self s.file).createLogicalID timer hlt
  cases hs
  have hentry (j : Nat) (hj : 0 < j) (hle : j ≤ s.file.getLastAssigned) :
      (s.file.createLogicalID timer).2.entry j = s.file.entry j := by
    rw [hrep.entries j hj (by omega), Function.update_of_ne (by omega)]
  have hinv : Inv { s with
      file := (s.file.createLogicalID timer).2
      returned := (s.file.createLogicalID timer).1 :: s.returned } := by
    refine ⟨?_, ⟨?_, ?_⟩, ?_⟩
    · rw [hrep.assigned]
      exact hlt
    · rw [hid, List.nodup_cons]
      refine ⟨fun hmem => ?_, h.returned.1⟩
      have := h.returned.2 _ hmem
      omega
    · intro id hmem
      rw [hrep.assigned]
      rcases List.mem_cons.mp hmem with rfl | hmem
      · rw [hid]
      · exact Nat.le_succ_of_le (h.returned.2 id hmem)
    · intro id p hp
      obtain ⟨hpos, hle, he⟩ := h.given id p hp
      rw [hrep.assigned, hentry id hpos hle]
      exact ⟨hpos, Nat.le_succ_of_le hle, he⟩
  refine ⟨hinv, hinv.returned.1, fun id p hp => hinv.kept hp, ?_, ?_, fun i _ hi => hinv.placed i hi⟩
  · intro id _ hcode
    obtain ⟨hpos, hle⟩ := assigned_of_code hcode
    apply getPhysicalID_congr hpos hle
    · exact hle.trans ((Nat.le_succ _).trans hrep.assigned.ge)
    · exact hentry id hpos hle
  · rintro _ _ _ ⟨⟩

/-- An id that is set, with all the ids before it assigned. -/
theorem Inv.set (h : Inv s) (timer : MapFile → Int) {id : Nat} {p : PhysicalIDBytes} {f' : MapFile}
    (hid : 0 < id) (hmax : id ≤ maxLogicalID)
    (hset : s.file.setPhysicalID timer id (some p) = some (f', 0))
    (hrep : f'.Represents (max s.file.getLastAssigned id)
      (Function.update (assign s.file.getLastAssigned s.file.entry id) id p)) :
    Inv { s with file := f', given := Function.update s.given id (some p) } ∧
      CallOk s (.setPhysicalID timer id (some p))
        { s with file := f', given := Function.update s.given id (some p) } := by
  have hself : f'.entry id = p := by
    rw [hrep.entries id hid (le_max_right ..), Function.update_self]
  have hother (j : Nat) (hj : 0 < j) (hle : j ≤ s.file.getLastAssigned) (hne : j ≠ id) :
      f'.entry j = s.file.entry j := by
    rw [hrep.entries j hj (hle.trans (le_max_left ..)), Function.update_of_ne hne]
    exact if_neg (by omega)
  have hinv : Inv { s with file := f', given := Function.update s.given id (some p) } := by
    refine ⟨?_, ⟨h.returned.1, ?_⟩, ?_⟩
    · have hbelow := h.below
      rw [hrep.assigned]
      rw [aliasedID_eq] at hbelow ⊢
      simp only [maxLogicalID] at hmax
      omega
    · intro j hmem
      rw [hrep.assigned]
      exact (h.returned.2 j hmem).trans (le_max_left ..)
    · intro j q hq
      change Function.update s.given id (some p) j = some q at hq
      rw [hrep.assigned]
      rcases eq_or_ne j id with rfl | hne
      · rw [Function.update_self, Option.some.injEq] at hq
        exact ⟨hid, le_max_right .., hself.trans hq⟩
      · rw [Function.update_of_ne hne] at hq
        obtain ⟨hpos, hle, he⟩ := h.given j q hq
        exact ⟨hpos, hle.trans (le_max_left ..), (hother j hpos hle hne).trans he⟩
  refine ⟨hinv, hinv.returned.1, fun j q hq => hinv.kept hq, ?_, ?_, fun i _ hi => hinv.placed i hi⟩
  · intro j hj hcode
    obtain ⟨hpos, hle⟩ := assigned_of_code hcode
    have hne : j ≠ id := by
      rintro rfl
      exact hj rfl
    apply getPhysicalID_congr hpos hle
    · exact (hle.trans (le_max_left ..)).trans hrep.assigned.ge
    · exact hother j hpos hle hne
  · rintro _ _ _ ⟨⟩ - j hlast hj
    have hpos : 0 < j := by omega
    rw [hrep.getPhysicalID hpos, if_neg (by omega), Function.update_of_ne (by omega)]
    exact congrArg (fun q => ((0 : Int), some q)) (if_pos ⟨hlast, hj.le⟩)

/-- A call that changes nothing. -/
theorem Inv.same (h : Inv s)
    (hskip : ∀ timer id pid, c = .setPhysicalID timer id pid →
      s.file.setPhysicalID timer id pid ≠ some (s.file, 0)) : CallOk s c s :=
  ⟨h.returned.1, fun _ _ hp => h.kept hp, fun _ _ _ => rfl,
    fun timer id pid hc hset => absurd hset (hskip timer id pid hc), fun i _ hi => h.placed i hi⟩

theorem Inv.step (h : Inv s) (hc : Below s c) :
    ∃ s', s.step c = some s' ∧ Inv s' ∧ CallOk s c s' := by
  cases c with
  | createLogicalID timer => exact ⟨_, rfl, h.create timer hc rfl⟩
  | getPhysicalID id =>
    refine ⟨s, rfl, h, h.same ?_⟩
    rintro _ _ _ ⟨⟩
  | setPhysicalID timer id pid =>
    obtain ⟨f', code, hf', hcases⟩ :=
      (Represents.self s.file).setPhysicalID timer h.below id pid
    rcases hcases with ⟨hcode, rfl, -⟩ | ⟨p, rfl, hid, hmax, rfl, hrep⟩
    · refine ⟨s, ?_, h, h.same ?_⟩
      · rw [MapRun.step, hf']
        simp [hcode]
      · rintro _ _ _ ⟨⟩ hset
        rw [hf'] at hset
        simp only [Option.some.injEq, Prod.mk.injEq, true_and] at hset
        exact hcode hset
    · refine ⟨{ s with file := f', given := Function.update s.given id (some p) }, ?_,
        h.set timer hid hmax hf' hrep⟩
      rw [MapRun.step, hf']
      rfl

/-- The map of a new database. -/
def start (junk : MapFile) : MapRun := { file := initializeFile junk }

theorem getLastAssigned_start (junk : MapFile) : (start junk).file.getLastAssigned = 0 := by
  have hlen : (encode 4 0).length = 4 := length_encode
  have hread (m : Memory) : (m.writeBytes 16 (encode 4 0)).readBytes 16 4 = encode 4 0 := by
    conv_lhs => rw [← hlen]
    exact Memory.readBytes_writeBytes_self
  simp only [start, MapFile.getLastAssigned, page, initializeFile, if_true, hread]
  rfl

theorem inv_start (junk : MapFile) : Inv (start junk) := by
  refine ⟨?_, ⟨List.nodup_nil, ?_⟩, ?_⟩
  · rw [getLastAssigned_start]
    decide
  · rintro _ ⟨⟩
  · rintro _ _ ⟨⟩

theorem inv_of_reaches {junk : MapFile} (h : Reaches MapRun.step Below (start junk) s) : Inv s := by
  apply h.invariant (inv_start junk)
  intro s c s' hs hok hstep
  obtain ⟨s₁, hs₁, hinv, -⟩ := hs.step hok
  rw [hs₁] at hstep
  cases hstep
  exact hinv

/-- The first id beyond has its entry on the header of the map. -/
theorem Inv.not_ok (h : Inv s) (hc : ¬ Below s c) (hstep : s.step c = some s') :
    ¬ CallOk s c s' := by
  intro hok
  cases c with
  | createLogicalID timer =>
    have hbelow := h.below
    have hlast : s.file.getLastAssigned + 1 = aliasedID :=
      le_antisymm hbelow (not_lt.mp hc)
    have hid : (s.file.getLastAssigned + 1) % 2 ^ 32 = aliasedID := by
      rw [hlast]
      rfl
    cases hstep
    have hassigned : ((s.file.createLogicalID timer).2).getLastAssigned = aliasedID := by
      simp only [MapFile.createLogicalID, hid]
      exact getLastAssigned_setLastAssigned (by decide)
    exact (hok.placed aliasedID (by decide) hassigned.ge).mapHeader rfl
  | setPhysicalID timer id pid => exact hc trivial
  | getPhysicalID id => exact hc trivial

/-- In every state that calls reach that kept to the condition, a call returns, and it
leaves the map in order if and only if it keeps to the condition. -/
theorem callOk_iff {junk : MapFile} (h : Reaches MapRun.step Below (start junk) s) (c : MapCall) :
    ∃ s', s.step c = some s' ∧ (CallOk s c s' ↔ Below s c) := by
  have hinv := inv_of_reaches h
  by_cases hc : Below s c
  · obtain ⟨s', hs', -, hok⟩ := hinv.step hc
    exact ⟨s', hs', iff_of_true hok hc⟩
  · cases c with
    | createLogicalID timer => exact ⟨_, rfl, iff_of_false (hinv.not_ok hc rfl) hc⟩
    | setPhysicalID timer id pid => exact absurd trivial hc
    | getPhysicalID id => exact absurd trivial hc

def zeros : MapFile := fun _ _ => 0

/-- The first id of a new database. -/
theorem callOk_first :
    ∃ s', (start zeros).step (.createLogicalID fun _ => 0) = some s' ∧
      CallOk (start zeros) (.createLogicalID fun _ => 0) s' := by
  obtain ⟨s', hs', hok⟩ := callOk_iff .refl (.createLogicalID fun _ => 0)
  refine ⟨s', hs', hok.mpr ?_⟩
  change (start zeros).file.getLastAssigned + 1 < aliasedID
  rw [getLastAssigned_start]
  decide

/-- The entry of the first id outlasts so many new ids. -/
theorem entry_one_createLogicalID {f : MapFile} (timer : MapFile → Int) {n : Nat}
    (hlast : f.getLastAssigned = n + 1) (hn : n + 1 < 65536 * mapPerPage) :
    (f.createLogicalID timer).2.getLastAssigned = n + 2 ∧
      (f.createLogicalID timer).2.entry 1 = f.entry 1 := by
  rw [mapPerPage_eq] at hn
  have hid : (f.getLastAssigned + 1) % 2 ^ 32 = n + 2 := by
    rw [hlast]
    omega
  have hapart : Apart (n + 2) 1 := by
    simp only [Apart, address_eq, mapOffset, mapPerPage_eq, mapHeaderSize, ne_eq, Prod.mk.injEq,
      true_and]
    omega
  simp only [MapFile.createLogicalID, hid]
  constructor
  · exact getLastAssigned_setLastAssigned (by omega)
  · rw [entry_setLastAssigned (address_ne_header (by decide)), entry_putEntry_of_apart hapart]

/-- Many ids are created, of which the first has been given a physical id. -/
theorem reaches_created (n : Nat) (h : n < 65536 * mapPerPage) :
    ∃ s, Reaches MapRun.step (fun _ _ => True) (start zeros) s ∧
      s.file.getLastAssigned = n + 1 ∧ s.file.entry 1 = ⟨List.replicate 8 0, rfl⟩ := by
  let timer : MapFile → Int := fun _ => 0
  induction n with
  | zero =>
    have hself := Represents.self (start zeros).file
    rw [getLastAssigned_start] at hself
    obtain ⟨-, hcreated⟩ := hself.createLogicalID timer (by decide)
    obtain ⟨f, hf, hset⟩ := hcreated.setWithin timer (by decide) Nat.one_pos le_rfl (by decide)
      ⟨List.replicate 8 0, rfl⟩ 1
    have hstep : MapRun.step { start zeros with
          file := ((start zeros).file.createLogicalID timer).2
          returned := ((start zeros).file.createLogicalID timer).1 ::
            (start zeros).returned }
        (.setPhysicalID timer 1 (some ⟨List.replicate 8 0, rfl⟩)) =
        some { start zeros with
          file := f
          returned := ((start zeros).file.createLogicalID timer).1 ::
            (start zeros).returned
          given := Function.update (start zeros).given 1
            (some ⟨List.replicate 8 0, rfl⟩) } := by
      rw [MapRun.step, MapFile.setPhysicalID, hf]
      rfl
    have hfirst : Reaches MapRun.step (fun _ _ => True) (start zeros) (start zeros) := .refl
    refine ⟨_, (hfirst.step (a := .createLogicalID timer) trivial rfl).step trivial hstep,
      hset.assigned, ?_⟩
    rw [hset.entries 1 Nat.one_pos le_rfl, Function.update_self]
  | succ n ih =>
    obtain ⟨s, hs, hlast, hentry⟩ := ih (Nat.lt_of_succ_lt h)
    obtain ⟨hlast', hentry'⟩ := entry_one_createLogicalID timer hlast h
    refine ⟨{ s with
      file := (s.file.createLogicalID timer).2
      returned := (s.file.createLogicalID timer).1 :: s.returned }, ?_, hlast', ?_⟩
    · exact hs.step (a := .createLogicalID timer) trivial rfl
    · exact hentry'.trans hentry

theorem entry_congr {f : MapFile} {i j : Nat} (haddress : address i = address j)
    (hoffset : mapOffset i = mapOffset j) : f.entry i = f.entry j := by
  apply Subtype.ext
  have hpage : f.page (mapPage i) = f.page (mapPage j) := congrArg f haddress
  simp only [MapFile.entry, hpage, hoffset]

/-- The entry of id 134086657 is on that of id 1. -/
theorem not_callOk :
    ¬ ∀ s, Reaches MapRun.step (fun _ _ => True) (start zeros) s →
      ∀ c s', s.step c = some s' → CallOk s c s' := by
  intro hall
  obtain ⟨s, hs, hlast, hentry⟩ := reaches_created (65536 * mapPerPage - 1) (by decide)
  have hok := hall s hs (.createLogicalID fun _ => 0) _ rfl
  have hread := (Represents.self s.file).getPhysicalID Nat.one_pos
  have hid : (s.file.getLastAssigned + 1) % 2 ^ 32 = 134086657 := by
    rw [hlast]
    rfl
  have hnew : (s.file.createLogicalID fun _ => 0).2.entry 1 = ripBytes := by
    simp only [MapFile.createLogicalID, hid]
    rw [entry_setLastAssigned (address_ne_header (by decide))]
    have hsame (f : MapFile) : f.entry 1 = f.entry 134086657 := entry_congr rfl rfl
    rw [hsame, entry_putEntry_self]
  have hassigned : (s.file.createLogicalID fun _ => 0).2.getLastAssigned = 134086657 := by
    simp only [MapFile.createLogicalID, hid]
    exact getLastAssigned_setLastAssigned (by decide)
  have hread' := (Represents.self (s.file.createLogicalID fun _ => 0).2).getPhysicalID Nat.one_pos
  rw [hlast, if_neg (by decide), hentry] at hread
  rw [hassigned, if_neg (by decide), hnew] at hread'
  have hsame : (s.file.createLogicalID fun _ => 0).2.getPhysicalID 1 = s.file.getPhysicalID 1 :=
    hok.others 1 (by rintro ⟨⟩) (by rw [hread])
  rw [hread, hread'] at hsame
  revert hsame
  decide

end MapRun

end Loxim.Store
