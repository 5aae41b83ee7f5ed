import Mathlib.Algebra.GroupWithZero.Nat
import Mathlib.Data.Finset.Card
import Mathlib.Data.List.DropRight

/-!
# Objects and the pages they are stored on

A page keeps its objects one after the other from its end; an object whose offset
is that of its predecessor is empty, and its slot is used again. The free map has
the free space of every page.
-/

namespace Loxim.Store

/-- A class also has the set of its subclasses. -/
inductive ExtendedType
  | none
  | link
  | classOf (subclasses : Finset Nat)
  | procedure
  | view
  | interface
  | storeSchema
  deriving DecidableEq

inductive Content
  | integer (value : BitVec 32)
  | double (bits : BitVec 64)
  | string (bytes : List (BitVec 8))
  | pointer (lid : Nat)
  | vector (lids : List Nat)
  deriving DecidableEq

structure DataValue where
  subtype : ExtendedType := .none
  classMarks : Finset Nat := ∅
  content : Content
  deriving DecidableEq

structure Object where
  lid : Nat
  isRoot : Bool
  name : List (BitVec 8)
  value : DataValue
  deriving DecidableEq

namespace DataValue

def setSize (lids : Finset Nat) : Nat := 4 + 4 * lids.card

def subclassesSize : ExtendedType → Nat
  | .classOf subclasses => setSize subclasses
  | .none | .link | .procedure | .view | .interface | .storeSchema => 0

def contentSize : Content → Nat
  | .integer _ => 4
  | .double _ => 8
  | .string bytes => 4 + bytes.length
  | .pointer _ => 4
  | .vector lids => 4 + 4 * lids.length

/-- The number of bytes `serialize` makes. -/
def size (v : DataValue) : Nat :=
  4 + 4 + setSize v.classMarks + subclassesSize v.subtype + contentSize v.content

end DataValue

/-- The logical id, the root flag, a constant, the name and the value. -/
def Object.size (o : Object) : Nat := 4 + 4 + 4 + (4 + o.name.length) + o.value.size

def pageSize : Nat := 0x4000

/-- `MAX_FREE_SPACE`. -/
def maxFreeSpace : Nat := pageSize - 20

/-- `MAX_OBJECT_COUNT`. -/
def maxObjectCount : Nat := maxFreeSpace / 4

structure Page where
  objects : List (Option Object) := []
  freeSpace : Int := maxFreeSpace

namespace Page

/-- The first empty object, else a new one at the end. -/
def insertObject (p : Page) (o : Object) : Option (Page × Nat) :=
  if p.freeSpace < o.size then none
  else
    match p.objects.findIdx? Option.isNone with
    | some offset =>
      some ({ objects := p.objects.set offset (some o), freeSpace := p.freeSpace - o.size }, offset)
    | none =>
      if p.freeSpace < o.size + 4 then none
      else some ({ objects := p.objects ++ [some o], freeSpace := p.freeSpace - (o.size + 4) },
        p.objects.length)

def sizeAt (p : Page) (offset : Nat) : Nat := ((p.objects[offset]?.join).map Object.size).getD 0

/-- The slot becomes empty, and so many empty objects as are at the end go. -/
def deleteObject (p : Page) (offset : Nat) : Page :=
  let objects := p.objects.set offset none
  let kept := objects.rdropWhile Option.isNone
  { objects := kept
    freeSpace := p.freeSpace + p.sizeAt offset + 4 * (objects.length - kept.length : Nat) }

end Page

/-- The pages with objects are all but every `maxObjectCount + 1`-th, which have the free map. -/
def pageId (index : Nat) : Nat :=
  index / maxObjectCount * (maxObjectCount + 1) + index % maxObjectCount + 1

/-- The place of a page in the free map. -/
def freeIndex (page : Nat) : Nat :=
  page / (maxObjectCount + 1) * maxObjectCount + (page % (maxObjectCount + 1) - 1)

theorem freeIndex_pageId (index : Nat) : freeIndex (pageId index) = index := by
  have hpos : 0 < maxObjectCount := by decide
  have hmod := Nat.mod_lt index hpos
  have hpage : pageId index =
      (index % maxObjectCount + 1) + (maxObjectCount + 1) * (index / maxObjectCount) := by
    unfold pageId
    rw [Nat.mul_comm]
    omega
  have hdiv : pageId index / (maxObjectCount + 1) = index / maxObjectCount := by
    rw [hpage, Nat.add_mul_div_left _ _ (Nat.succ_pos _), Nat.div_eq_of_lt (by omega), Nat.zero_add]
  have hrem : pageId index % (maxObjectCount + 1) = index % maxObjectCount + 1 := by
    rw [hpage, Nat.add_mul_mod_self_left, Nat.mod_eq_of_lt (by omega)]
  unfold freeIndex
  rw [hdiv, hrem, Nat.add_sub_cancel, Nat.mul_comm]
  exact Nat.div_add_mod index maxObjectCount

/-- The page that has room for an object and its offset, else a new one. -/
def getFreePage (freeMap : List Int) (objsize : Nat) : Nat :=
  pageId (freeMap.findIdx fun free => decide ((objsize + 4 : Int) ≤ free))

def updateFreeMap (freeMap : List Int) (page : Nat) (freeSpace : Int) : List Int :=
  if freeMap.length < freeIndex page then freeMap
  else if freeMap.length = freeIndex page then freeMap ++ [freeSpace]
  else freeMap.set (freeIndex page) freeSpace

-- ---------------------------------------------------------------------------
-- What a slot holds
-- ---------------------------------------------------------------------------

namespace Page

variable {p p' : Page} {o : Object} {offset k : Nat}

/-- The object in a slot. -/
def objectAt (p : Page) (offset : Nat) : Option Object := p.objects[offset]?.join

theorem insertObject_objectAt (h : p.insertObject o = some (p', offset)) :
    p'.objectAt = Function.update p.objectAt offset (some o) ∧ p.objectAt offset = none := by
  unfold insertObject at h
  split at h
  · cases h
  split at h
  · rename_i n hn
    cases h
    obtain ⟨hlt, hnone, -⟩ := List.findIdx?_eq_some_iff_getElem.mp hn
    refine ⟨?_, ?_⟩
    · funext k
      rcases eq_or_ne k offset with rfl | hk
      · simp [objectAt, hlt]
      · simp [objectAt, hk, List.getElem?_set_ne hk.symm]
    · simpa [objectAt, hlt] using hnone
  · split at h
    · cases h
    · cases h
      refine ⟨?_, by simp [objectAt]⟩
      funext k
      rcases eq_or_ne k p.objects.length with rfl | hk
      · simp [objectAt]
      · rw [Function.update_of_ne hk]
        unfold objectAt
        rcases Nat.lt_or_ge k p.objects.length with hlt | hge
        · rw [List.getElem?_append_left hlt]
        · rw [List.getElem?_eq_none (by simp; omega), List.getElem?_eq_none hge]

theorem getElem?_rdropWhile_isNone (l : List (Option Object)) (k : Nat) :
    (l.rdropWhile Option.isNone)[k]?.join = l[k]?.join := by
  induction l using List.reverseRecOn with
  | nil => rfl
  | append_singleton l o ih =>
    cases o with
    | none =>
      rw [List.rdropWhile_concat_pos _ _ _ rfl, ih]
      rcases Nat.lt_trichotomy k l.length with hlt | rfl | hgt
      · rw [List.getElem?_append_left hlt]
      · simp
      · rw [List.getElem?_eq_none (by omega), List.getElem?_eq_none (by simp; omega)]
    | some o => rw [List.rdropWhile_concat_neg _ _ _ (by simp)]

theorem deleteObject_objectAt (p : Page) (offset : Nat) :
    (p.deleteObject offset).objectAt = Function.update p.objectAt offset none := by
  funext k
  unfold deleteObject objectAt
  simp only
  rw [getElem?_rdropWhile_isNone]
  rcases eq_or_ne k offset with rfl | hk
  · rw [Function.update_self]
    rcases Nat.lt_or_ge k p.objects.length with hlt | hge
    · simp [hlt]
    · simp [hge]
  · rw [Function.update_of_ne hk, List.getElem?_set_ne hk.symm]

-- ---------------------------------------------------------------------------
-- The free space of a page
-- ---------------------------------------------------------------------------

/-- The bytes that the objects take. -/
def used (objects : List (Option Object)) : Nat := (objects.map fun o => (o.map Object.size).getD 0).sum

/-- What is not free is taken by the objects and their offsets. -/
structure Accounted (p : Page) : Prop where
  free : p.freeSpace + used p.objects + 4 * p.objects.length = maxFreeSpace
  room : 0 ≤ p.freeSpace

theorem used_set (objects : List (Option Object)) (offset : Nat) (o : Option Object)
    (h : offset < objects.length) :
    used (objects.set offset o) + ((objects[offset]?.join).map Object.size).getD 0 =
      used objects + (o.map Object.size).getD 0 := by
  induction objects generalizing offset with
  | nil => simp at h
  | cons x l ih =>
    cases offset with
    | zero =>
      simp [used]
      omega
    | succ n =>
      have := ih n (by simpa using h)
      simp [used] at this ⊢
      omega

theorem used_rdropWhile_isNone (l : List (Option Object)) :
    used (l.rdropWhile Option.isNone) = used l := by
  induction l using List.reverseRecOn with
  | nil => rfl
  | append_singleton l o ih =>
    cases o with
    | none => simpa [List.rdropWhile_concat_pos, used] using ih
    | some o => rw [List.rdropWhile_concat_neg _ _ _ (by simp)]

theorem accounted_init : ({} : Page).Accounted := ⟨rfl, by decide⟩

theorem Accounted.insertObject (h : p.Accounted) (hp : p.insertObject o = some (p', offset)) :
    p'.Accounted := by
  unfold Page.insertObject at hp
  split at hp
  · cases hp
  rename_i hroom
  have hfree := h.free
  split at hp
  · rename_i n hn
    cases hp
    obtain ⟨hlt, hnone, -⟩ := List.findIdx?_eq_some_iff_getElem.mp hn
    have hused := used_set p.objects offset (some o) hlt
    have hempty : p.objects[offset]?.join = none := by simpa [hlt] using hnone
    rw [hempty] at hused
    refine ⟨?_, ?_⟩
    · simp at hused ⊢
      omega
    · show 0 ≤ p.freeSpace - o.size
      omega
  · split at hp
    · cases hp
    · rename_i hroom'
      cases hp
      refine ⟨?_, ?_⟩
      · simp [used] at hfree ⊢
        omega
      · show 0 ≤ p.freeSpace - (o.size + 4)
        omega

theorem Accounted.deleteObject (h : p.Accounted) (hlt : offset < p.objects.length) :
    (p.deleteObject offset).Accounted := by
  have hused := used_set p.objects offset none hlt
  have hlen : ((p.objects.set offset none).rdropWhile Option.isNone).length ≤ p.objects.length := by
    simpa using (List.rdropWhile_prefix Option.isNone (p.objects.set offset none)).length_le
  have hfree := h.free
  have hroom := h.room
  refine ⟨?_, ?_⟩
  · simp only [Page.deleteObject, sizeAt, used_rdropWhile_isNone, List.length_set]
    simp at hused
    omega
  · simp only [Page.deleteObject]
    omega

/-- There are not more slots than offsets fit on a page. -/
theorem Accounted.length_le (h : p.Accounted) : p.objects.length ≤ maxObjectCount := by
  have hfree := h.free
  have hroom := h.room
  have hmax : maxFreeSpace = 4 * maxObjectCount := by decide
  omega

theorem objectAt_lt (h : p.objectAt offset = some o) : offset < p.objects.length := by
  by_contra hge
  simp [objectAt, List.getElem?_eq_none (not_lt.mp hge)] at h

/-- A page with so much free space takes the object. -/
theorem insertObject_isSome (h : (o.size + 4 : Int) ≤ p.freeSpace) :
    ∃ p' offset, p.insertObject o = some (p', offset) := by
  unfold insertObject
  rw [if_neg (by omega)]
  split
  · exact ⟨_, _, rfl⟩
  · rw [if_neg (by omega)]
    exact ⟨_, _, rfl⟩

end Page

end Loxim.Store
