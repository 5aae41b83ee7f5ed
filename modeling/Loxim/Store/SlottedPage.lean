import Loxim.Lib.Memory
import Loxim.Lib.Run
import Loxim.Store.PageManager

/-!
# The bytes of a data page

The header, the number of objects, the free space and the offsets of the objects
stand at the beginning of a page, as integers over its bytes. The objects stand one
after the other from its end. All of it is moved by hand.
-/

namespace Loxim.Store.PageData

open Bytes

def objectCount (m : Memory) : Int := m.readInt 12

def freeSpace (m : Memory) : Int := m.readInt 16

def objectOffset (m : Memory) (i : Nat) : Int := m.readInt (20 + 4 * i)

def setTimestamp (m : Memory) (v : Int) : Memory := m.writeInt 8 v

def setObjectCount (m : Memory) (v : Int) : Memory := m.writeInt 12 v

def setFreeSpace (m : Memory) (v : Int) : Memory := m.writeInt 16 v

def setObjectOffset (m : Memory) (i : Nat) (v : Int) : Memory := m.writeInt (20 + 4 * i) v

def addOffset (d : Int) (m : Memory) (i : Nat) : Memory :=
  setObjectOffset m i (objectOffset m i + d)

section

variable (m : Memory) (v : Int) (i : Nat)

@[simp] theorem objectCount_setTimestamp : objectCount (setTimestamp m v) = objectCount m :=
  Memory.readInt_writeInt_of_disjoint (by omega)

@[simp] theorem objectCount_setFreeSpace : objectCount (setFreeSpace m v) = objectCount m :=
  Memory.readInt_writeInt_of_disjoint (by omega)

@[simp] theorem objectCount_setObjectOffset : objectCount (setObjectOffset m i v) = objectCount m :=
  Memory.readInt_writeInt_of_disjoint (by omega)

@[simp] theorem freeSpace_setTimestamp : freeSpace (setTimestamp m v) = freeSpace m :=
  Memory.readInt_writeInt_of_disjoint (by omega)

@[simp] theorem freeSpace_setObjectCount : freeSpace (setObjectCount m v) = freeSpace m :=
  Memory.readInt_writeInt_of_disjoint (by omega)

@[simp] theorem freeSpace_setObjectOffset : freeSpace (setObjectOffset m i v) = freeSpace m :=
  Memory.readInt_writeInt_of_disjoint (by omega)

@[simp] theorem objectOffset_setTimestamp : objectOffset (setTimestamp m v) i = objectOffset m i :=
  Memory.readInt_writeInt_of_disjoint (by omega)

@[simp] theorem objectOffset_setObjectCount :
    objectOffset (setObjectCount m v) i = objectOffset m i :=
  Memory.readInt_writeInt_of_disjoint (by omega)

@[simp] theorem objectOffset_setFreeSpace : objectOffset (setFreeSpace m v) i = objectOffset m i :=
  Memory.readInt_writeInt_of_disjoint (by omega)

variable {m v i}

theorem objectCount_setObjectCount (h : Scalar.int.Holds v) : objectCount (setObjectCount m v) = v :=
  Memory.readInt_writeInt h

theorem freeSpace_setFreeSpace (h : Scalar.int.Holds v) : freeSpace (setFreeSpace m v) = v :=
  Memory.readInt_writeInt h

theorem objectOffset_setObjectOffset (h : Scalar.int.Holds v) :
    objectOffset (setObjectOffset m i v) i = v :=
  Memory.readInt_writeInt h

theorem objectOffset_setObjectOffset_of_ne {j : Nat} (h : j ≠ i) :
    objectOffset (setObjectOffset m i v) j = objectOffset m j :=
  Memory.readInt_writeInt_of_disjoint (by omega)

/-- What is read before the objects are not there. -/
theorem objectCount_congr {m' : Memory} (h : ∀ x < 20, m' x = m x) : objectCount m' = objectCount m :=
  Memory.readInt_congr fun j hj => h (12 + j) (by omega)

theorem freeSpace_congr {m' : Memory} (h : ∀ x < 20, m' x = m x) : freeSpace m' = freeSpace m :=
  Memory.readInt_congr fun j hj => h (16 + j) (by omega)

theorem objectOffset_congr {m' : Memory} (h : ∀ x < 24 + 4 * i, m' x = m x) :
    objectOffset m' i = objectOffset m i :=
  Memory.readInt_congr fun j hj => h (20 + 4 * i + j) (by omega)

/-- The integers of the header are before the offsets. -/
theorem setTimestamp_of_le {x : Nat} (h : 20 ≤ x) : setTimestamp m v x = m x :=
  Memory.writeInt_of_out (by omega)

theorem setObjectCount_of_le {x : Nat} (h : 20 ≤ x) : setObjectCount m v x = m x :=
  Memory.writeInt_of_out (by omega)

theorem setFreeSpace_of_le {x : Nat} (h : 20 ≤ x) : setFreeSpace m v x = m x :=
  Memory.writeInt_of_out (by omega)

theorem setObjectOffset_of_le {x : Nat} (h : 24 + 4 * i ≤ x) : setObjectOffset m i v x = m x :=
  Memory.writeInt_of_out (by omega)

end

/-- `STORE_FILE_DEFAULT`, and `STORE_PAGE_DATAHEADER` or `STORE_PAGE_DATAPAGE`. -/
def initializePage (pageNum : Nat) (m : Memory) : Memory :=
  let m := m.clear 0 pageSize
  let m := m.writeBytes 4 [1, 0]
  let m := m.writeBytes 0 (Scalar.uint.toBytes pageNum)
  let m := setTimestamp m 0
  let m := setObjectCount m 0
  if pageNum % (maxObjectCount + 1) = 0 then
    setFreeSpace (m.writeBytes 6 [1, 0]) maxObjectCount
  else setFreeSpace (m.writeBytes 6 [2, 0]) maxFreeSpace

-- ---------------------------------------------------------------------------
-- Insertion
-- ---------------------------------------------------------------------------

/-- An object with the offset of its predecessor is empty. -/
def findEmpty (m : Memory) : List Nat → Except Int (Option Nat)
  | [] => .ok none
  | i :: l =>
    if objectOffset m i ≤ objectOffset m (i + 1) then
      if objectOffset m i < objectOffset m (i + 1) then .error (-11) else .ok (some (i + 1))
    else findEmpty m l

def emptyObject (m : Memory) : Except Int (Option Nat) :=
  if 0 < objectCount m then
    if objectOffset m 0 = pageSize then .ok (some 0)
    else findEmpty m (List.range (objectCount m - 1).toNat)
  else .ok none

def appendObject (m : Memory) (obj : List UInt8) : Memory × Nat :=
  let lastoffset := if 0 < objectCount m then objectOffset m (objectCount m - 1).toNat else pageSize
  let m := setFreeSpace m (freeSpace m - (obj.length + 4))
  let newoffset := lastoffset - obj.length
  let m := setObjectOffset m (objectCount m).toNat newoffset
  let pidoffset := (objectCount m).toNat
  let m := m.writeBytes newoffset.toNat obj
  (setObjectCount m (objectCount m + 1), pidoffset)

/-- The objects behind the empty one make room for the new one. -/
def reuseObject (m : Memory) (roffset : Nat) (obj : List UInt8) : Memory :=
  let first := objectOffset m (objectCount m - 1).toNat
  let last := objectOffset m roffset
  let m := m.copyDown first.toNat (last - first).toNat obj.length
  let m := m.writeBytes (last - obj.length).toNat obj
  let m := (List.range' roffset ((objectCount m).toNat - roffset)).foldl (addOffset (-obj.length)) m
  setFreeSpace m (freeSpace m - obj.length)

def insertObject (m : Memory) (obj : List UInt8) (logId : Int) : Except Int (Memory × Nat) :=
  if freeSpace m < obj.length then .error (-1)
  else
    match emptyObject m with
    | .error e => .error e
    | .ok none =>
      if freeSpace m < obj.length + 4 then .error (-2)
      else .ok (setTimestamp (appendObject m obj).1 logId, (appendObject m obj).2)
    | .ok (some roffset) => .ok (setTimestamp (reuseObject m roffset obj) logId, roffset)

-- ---------------------------------------------------------------------------
-- Deletion
-- ---------------------------------------------------------------------------

/-- The objects behind the deleted one move up, one after the other. -/
def moveObject (objectSize : Int) (m : Memory) (i : Nat) : Memory :=
  m.move (objectOffset m i).toNat (objectOffset m i + objectSize).toNat
    (objectOffset m (i - 1) - objectOffset m i).toNat

/-- Empty objects at the end go, but for the first of the page. -/
def trim : Nat → Memory → Memory
  | 0, m => m
  | i + 1, m =>
    if objectOffset m i ≤ objectOffset m (i + 1) then
      if objectOffset m i < objectOffset m (i + 1) then m
      else
        let m := setObjectCount m (objectCount m - 1)
        trim i (setFreeSpace m (freeSpace m + 4))
    else m

/-- The object is taken out of the page and of its books. -/
def removeObject (m : Memory) (pos : Nat) : Memory :=
  let endOfObject := if pos = 0 then (pageSize : Int) else objectOffset m (pos - 1)
  let objectSize := endOfObject - objectOffset m pos
  let younger := List.range' (pos + 1) ((objectCount m).toNat - (pos + 1))
  let m := younger.foldl (moveObject objectSize) m
  let m := younger.foldl (addOffset objectSize) m
  let m := addOffset objectSize m pos
  if objectCount m - 1 = pos then
    let m := setObjectCount m (objectCount m - 1)
    setFreeSpace m (freeSpace m + objectSize + 4)
  else setFreeSpace m (freeSpace m + objectSize)

def dropFirst (m : Memory) : Memory :=
  if objectCount m = 1 ∧ objectOffset m 0 = pageSize then
    let m := setObjectCount m (objectCount m - 1)
    setFreeSpace m (freeSpace m + 4)
  else m

/-- What is between the offsets and the objects. -/
def clearGap (m : Memory) : Memory :=
  let first := if objectCount m ≤ 0 then (pageSize : Int)
    else objectOffset m (objectCount m - 1).toNat
  m.clear (20 + 4 * (objectCount m).toNat) (first - (20 + 4 * objectCount m)).toNat

def deleteObject (m : Memory) (pos : Nat) (logId : Int) : Memory :=
  let m := removeObject (setTimestamp m logId) pos
  clearGap (dropFirst (trim (objectCount m - 1).toNat m))

end Loxim.Store.PageData
