import Loxim.Store.SlottedPage
import Mathlib.Data.List.DropRight
import Mathlib.Algebra.BigOperators.Group.List.Basic

/-!
# The layout of a data page

A page stores a list of byte strings, the empty ones for its empty objects. Their
offsets are sums of their lengths, and the two tables meet nowhere.
-/

namespace Loxim.Store.PageData

open Bytes

variable {m m' : Memory} {slots : List (List UInt8)} {obj : List UInt8} {i j r pos n a x : Nat}
  {d v : Int}

def total (slots : List (List UInt8)) : Nat := (slots.map List.length).sum

/-- Where the objects from `i` on end. -/
@[irreducible] def bound (slots : List (List UInt8)) (i : Nat) : Nat := pageSize - total (slots.take i)

-- ---------------------------------------------------------------------------
-- Sums of lengths
-- ---------------------------------------------------------------------------

@[simp] theorem total_nil : total [] = 0 := rfl

@[simp] theorem total_cons : total (obj :: slots) = obj.length + total slots := rfl

@[simp] theorem total_append (l l' : List (List UInt8)) : total (l ++ l') = total l + total l' := by
  simp [total]

theorem total_take_succ (h : i < slots.length) :
    total (slots.take (i + 1)) = total (slots.take i) + slots[i].length := by
  have htake : slots.take (i + 1) = slots.take i ++ [slots[i]] := by simp
  rw [htake, total_append, total_cons, total_nil, Nat.add_zero]

theorem total_take_le (slots : List (List UInt8)) (i : Nat) : total (slots.take i) ≤ total slots := by
  conv_rhs => rw [← List.take_append_drop i slots]
  rw [total_append]
  omega

theorem total_take_mono (slots : List (List UInt8)) (h : i ≤ j) : total (slots.take i) ≤ total (slots.take j) := by
  have htake : slots.take i = (slots.take j).take i := by rw [List.take_take, Nat.min_eq_left h]
  rw [htake]
  exact total_take_le ..

theorem total_take_set (obj : List UInt8) (i : Nat) (h : r < slots.length) :
    total ((slots.set r obj).take i) + (if r < i then slots[r].length else 0) =
      total (slots.take i) + if r < i then obj.length else 0 := by
  induction slots generalizing r i with
  | nil => simp at h
  | cons b slots ih =>
    cases i with
    | zero => simp
    | succ i =>
      cases r with
      | zero => simp; omega
      | succ r =>
        have hrec := @ih r i (by simpa using h)
        simp only [List.set_cons_succ, List.take_succ_cons, total_cons, List.getElem_cons_succ,
          Nat.add_lt_add_iff_right]
        omega

theorem total_set (obj : List UInt8) (h : r < slots.length) :
    total (slots.set r obj) + slots[r].length = total slots + obj.length := by
  have htake := total_take_set obj slots.length h
  rw [if_pos h, if_pos h, List.take_length, List.take_of_length_le (by simp)] at htake
  exact htake

theorem bound_set_of_le (h : r < slots.length) (hi : i ≤ r) :
    bound (slots.set r obj) i = bound slots i := by
  have htake := total_take_set obj i h
  rw [if_neg (by omega), if_neg (by omega)] at htake
  rw [bound, bound]
  omega

theorem bound_set_of_lt (obj : List UInt8) (h : r < slots.length) (hi : r < i) (hfits : total slots ≤ pageSize)
    (hfits' : total (slots.set r obj) ≤ pageSize) :
    bound (slots.set r obj) i + obj.length = bound slots i + slots[r].length := by
  have htake := total_take_set obj i h
  have hle := total_take_le slots i
  have hle' := total_take_le (slots.set r obj) i
  rw [if_pos hi, if_pos hi] at htake
  rw [bound, bound]
  omega

/-- The objects before the place of a new one stay, the others move down. -/
theorem bound_reuse (hr : r < slots.length) (hempty : slots[r] = [])
    (hroom : total slots + obj.length ≤ pageSize) :
    (∀ i ≤ r, bound (slots.set r obj) i = bound slots i) ∧
      ∀ i, r < i → bound (slots.set r obj) i + obj.length = bound slots i := by
  have htotal := total_set obj hr
  refine ⟨fun i hi => bound_set_of_le hr hi, fun i hi => ?_⟩
  rw [hempty, List.length_nil] at htotal
  have hset := bound_set_of_lt obj hr hi (by omega) (by omega)
  rwa [hempty] at hset

-- ---------------------------------------------------------------------------
-- The loops
-- ---------------------------------------------------------------------------

theorem holds_of_small (hl : -100000 ≤ v) (hu : v ≤ 100000) : Scalar.int.Holds v := by
  simp only [Scalar.Holds]
  omega

theorem toNat_pred (n : Nat) : ((n : Int) - 1).toNat = n - 1 := by omega

theorem addOffsets_of_out (hx : x < 20 + 4 * a ∨ 20 + 4 * (a + n) ≤ x) :
    (List.range' a n).foldl (addOffset d) m x = m x := by
  induction n with
  | zero => rfl
  | succ n ih =>
    rw [List.range'_1_concat, List.foldl_append]
    show addOffset d _ (a + n) x = m x
    rw [addOffset, setObjectOffset, Memory.writeInt_of_out (by omega), ih (by omega)]

theorem addOffsets_tail_of_out {c : Nat} (h : a ≤ c) (hx : x < 20 + 4 * a ∨ 20 + 4 * c ≤ x) :
    (List.range' a (c - a)).foldl (addOffset d) m x = m x :=
  addOffsets_of_out (by omega)

theorem objectOffset_addOffsets (hi : a ≤ i ∧ i < a + n)
    (hholds : Scalar.int.Holds (objectOffset m i + d)) :
    objectOffset ((List.range' a n).foldl (addOffset d) m) i = objectOffset m i + d := by
  induction n with
  | zero => omega
  | succ n ih =>
    rw [List.range'_1_concat, List.foldl_append]
    show objectOffset (addOffset d _ (a + n)) i = objectOffset m i + d
    rcases Nat.lt_or_ge i (a + n) with hlt | hge
    · rw [addOffset, objectOffset_setObjectOffset_of_ne (by omega), ih ⟨hi.1, hlt⟩]
    · obtain rfl : i = a + n := by omega
      have hold : objectOffset ((List.range' a n).foldl (addOffset d) m) (a + n) =
          objectOffset m (a + n) :=
        Memory.readInt_congr fun j _ => addOffsets_of_out (by omega)
      rw [addOffset, hold, objectOffset_setObjectOffset hholds]

/-- The objects behind the one that is deleted are moved one after the other, the
upper ones first, each into the place that has become free above it. -/
theorem moveObjects (off : Nat → Nat) (k pos n : Nat)
    (hoff : ∀ j ≤ n, objectOffset m (pos + j) = off (pos + j))
    (hanti : ∀ j < n, off (pos + j + 1) ≤ off (pos + j))
    (htable : 24 + 4 * (pos + n) ≤ off (pos + n)) :
    let m' := (List.range' (pos + 1) n).foldl (moveObject k) m
    (∀ x, off (pos + n) ≤ x → x < off pos → m' (x + k) = m x) ∧
    (∀ x < off (pos + n), m' x = m x) ∧ ∀ x, off pos + k ≤ x → m' x = m x := by
  induction n with
  | zero => exact ⟨fun x hx hx' => absurd hx' (Nat.not_lt.mpr hx), fun x _ => rfl, fun x _ => rfl⟩
  | succ n ih =>
    have hstep := hanti n (Nat.lt_succ_self n)
    have hnext : pos + (n + 1) = pos + n + 1 := rfl
    rw [hnext] at htable
    obtain ⟨hmoved, hlow, hhigh⟩ := ih (fun j hj => hoff j (by omega)) (fun j hj => hanti j (by omega))
      (by omega)
    have hup : off (pos + n) ≤ off pos := by
      clear ih hmoved hlow hhigh htable hstep hoff hnext
      induction n with
      | zero => exact le_rfl
      | succ n ihn => exact (hanti n (by omega)).trans (ihn fun j hj => hanti j (by omega))
    intro m'
    set mid := (List.range' (pos + 1) n).foldl (moveObject k) m with hmid
    have hlast : m' = moveObject k mid (pos + n + 1) := by
      simp only [m', List.range'_1_concat, List.foldl_append, hmid]
      show moveObject _ _ (pos + 1 + n) = _
      rw [Nat.add_right_comm]
    have hsame {i : Nat} (hi : i ≤ pos + n + 1) : objectOffset mid i = objectOffset m i :=
      objectOffset_congr fun x hx => hlow x (by omega)
    have hfrom : objectOffset mid (pos + n + 1) = off (pos + n + 1) := by
      rw [hsame le_rfl]
      exact hoff (n + 1) le_rfl
    have hto : objectOffset mid (pos + n + 1 - 1) = off (pos + n) := by
      rw [Nat.add_sub_cancel, hsame (by omega)]
      exact hoff n (by omega)
    have hsize : ((off (pos + n) : Int) - off (pos + n + 1)).toNat =
        off (pos + n) - off (pos + n + 1) := by
      clear hmoved hlow hhigh htable hup
      omega
    have hdst : ((off (pos + n + 1) : Int) + k).toNat = off (pos + n + 1) + k := by
      clear hmoved hlow hhigh htable hup hsize
      omega
    rw [hlast, moveObject, hfrom, hto, Int.toNat_natCast, hsize, hdst, hnext]
    refine ⟨fun x hx hx' => ?_, fun x hx => ?_, fun x hx => ?_⟩
    · rcases Nat.lt_or_ge x (off (pos + n)) with hlt | hge
      · obtain ⟨j, rfl⟩ : ∃ j, x = off (pos + n + 1) + j := ⟨x - off (pos + n + 1), by omega⟩
        have hplace : off (pos + n + 1) + j + k = off (pos + n + 1) + k + j := Nat.add_right_comm ..
        rw [hplace, Memory.move_add (by omega), hlow _ hlt]
      · rw [Memory.move_of_out (by omega), hmoved x hge hx']
    · rw [Memory.move_of_out (by omega), hlow x (by omega)]
    · rw [Memory.move_of_out (by omega), hhigh x hx]

-- ---------------------------------------------------------------------------
-- What a page stores
-- ---------------------------------------------------------------------------

/-- A page that need not be trimmed. -/
structure Stores (m : Memory) (slots : List (List UInt8)) : Prop where
  count : objectCount m = slots.length
  fits : 20 + 4 * slots.length + total slots ≤ pageSize
  free : freeSpace m = (maxFreeSpace : Int) - total slots - 4 * slots.length
  offset {i : Nat} : i < slots.length → objectOffset m i = bound slots (i + 1)
  bytes {i : Nat} (h : i < slots.length) :
    m.readBytes (bound slots (i + 1)) slots[i].length = slots[i]

theorem bound_zero : bound slots 0 = pageSize := by simp [bound]

theorem bound_anti (slots : List (List UInt8)) (h : i ≤ j) : bound slots j ≤ bound slots i := by
  have hmono := total_take_mono slots h
  unfold bound
  omega

theorem bound_le (slots : List (List UInt8)) (i : Nat) : bound slots i ≤ pageSize := by
  unfold bound
  omega

namespace Stores

variable (h : Stores m slots)
include h

theorem table_le : 20 + 4 * slots.length ≤ bound slots i := by
  have hfits := h.fits
  have hle := total_take_le slots i
  unfold bound
  omega

theorem bound_succ (hi : i < slots.length) : bound slots (i + 1) + slots[i].length = bound slots i := by
  have hfits := h.fits
  have hle := total_take_le slots (i + 1)
  have hsucc := total_take_succ hi
  unfold bound
  omega

theorem small : slots.length < 4096 := by
  have hfits := h.fits
  have hsize : pageSize = 16384 := rfl
  omega

theorem lastOffset : (if 0 < objectCount m then objectOffset m (objectCount m - 1).toNat
    else pageSize) = bound slots slots.length := by
  rw [h.count]
  rcases Nat.eq_zero_or_pos slots.length with hzero | hpos
  · rw [if_neg (by omega), hzero, bound_zero]
  · rw [if_pos (by omega)]
    rw [toNat_pred, h.offset (by omega), Nat.sub_add_cancel hpos]

/-- The bytes before the objects do not matter, but for the integers there. -/
theorem of_eq (hcount : objectCount m' = objectCount m) (hfree : freeSpace m' = freeSpace m)
    (hoffset : ∀ i < slots.length, objectOffset m' i = objectOffset m i)
    (hbytes : ∀ x, bound slots slots.length ≤ x → m' x = m x) : Stores m' slots := by
  refine ⟨hcount.trans h.count, h.fits, hfree.trans h.free, fun {i} hi => ?_, fun {i} hi => ?_⟩
  · rw [hoffset i hi, h.offset hi]
  · have hle : bound slots slots.length ≤ bound slots (i + 1) := bound_anti slots hi
    refine Eq.trans (Memory.readBytes_congr fun j _ => hbytes _ ?_) (h.bytes hi)
    omega

theorem findEmpty (hn : a + 1 + n = slots.length) : findEmpty m (List.range' a n) =
    .ok (((slots.drop (a + 1)).findIdx? List.isEmpty).map (· + (a + 1))) := by
  induction n generalizing a with
  | zero =>
    rw [List.drop_of_length_le (by omega)]
    rfl
  | succ n ih =>
    have hnext : a + 1 < slots.length := by omega
    have hsucc := h.bound_succ hnext
    rw [List.range'_succ, PageData.findEmpty, h.offset (by omega), h.offset hnext,
      List.drop_eq_getElem_cons hnext, List.findIdx?_cons]
    cases hslot : slots[a + 1] with
    | nil =>
      rw [hslot, List.length_nil] at hsucc
      rw [if_pos (by omega), if_neg (by omega)]
      simp
    | cons b bs =>
      rw [hslot, List.length_cons] at hsucc
      have hshift : ((fun x => x + (a + 1)) ∘ fun i => i + 1) = fun x => x + (a + 1 + 1) := by
        funext x
        simp only [Function.comp_apply]
        omega
      rw [if_neg (by omega), ih (by omega)]
      simp only [List.isEmpty_cons, Bool.false_eq_true, if_false, Option.map_map, hshift]

/-- The empty object is the first of length zero. -/
theorem emptyObject : emptyObject m = .ok (slots.findIdx? List.isEmpty) := by
  unfold PageData.emptyObject
  rw [h.count, toNat_pred]
  cases hslots : slots with
  | nil => rfl
  | cons s rest =>
    have hzero : 0 < slots.length := by simp [hslots]
    have hfirst : slots[0] = s := by simp [hslots]
    have hsucc := h.bound_succ hzero
    rw [hfirst, bound_zero] at hsucc
    rw [← hslots, if_pos (by omega), h.offset hzero, hslots, List.findIdx?_cons]
    cases s with
    | nil =>
      rw [List.length_nil] at hsucc
      rw [hslots] at hsucc
      rw [if_pos (by omega)]
      rfl
    | cons b bs =>
      rw [List.length_cons] at hsucc
      rw [hslots] at hsucc
      rw [if_neg (by omega), ← hslots, List.range_eq_range', h.findEmpty (by omega), hslots]
      rfl

/-- Room for one more object, and where it goes. -/
theorem exists_room (hfree : (obj.length : Int) + 4 ≤ freeSpace m) :
    ∃ b, b + obj.length = bound slots slots.length ∧ 24 + 4 * slots.length ≤ b ∧
      bound (slots ++ [obj]) (slots.length + 1) = b := by
  have hbound : bound slots slots.length = pageSize - total slots := by
    rw [bound, List.take_length]
  have hnew : bound (slots ++ [obj]) (slots.length + 1) = pageSize - (total slots + obj.length) := by
    rw [bound, List.take_of_length_le (by simp), total_append, total_cons, total_nil, Nat.add_zero]
  have hroom : 20 + 4 * (slots.length + 1) + (total slots + obj.length) ≤ pageSize := by
    have hmax : maxFreeSpace = 16364 := rfl
    have hsize : pageSize = 16384 := rfl
    have hnow := h.free
    omega
  refine ⟨pageSize - (total slots + obj.length), ?_, ?_, hnew⟩
  · rw [hbound]
    omega
  · omega

/-- A new object at the end. -/
theorem appendObject (hfree : (obj.length : Int) + 4 ≤ freeSpace m) :
    Stores (appendObject m obj).1 (slots ++ [obj]) ∧ (appendObject m obj).2 = slots.length := by
  obtain ⟨b, hb, hroom, hnew⟩ := h.exists_room hfree
  have hmax : maxFreeSpace = 16364 := rfl
  have hle : bound slots slots.length ≤ 16384 := bound_le ..
  have hnow := h.free
  have hlen : (slots ++ [obj]).length = slots.length + 1 := by simp
  have htotal : total (slots ++ [obj]) = total slots + obj.length := by simp
  have hkept {i : Nat} (hi : i ≤ slots.length) : bound (slots ++ [obj]) i = bound slots i := by
    rw [bound, bound, List.take_append_of_le_length hi]
  have hoff : (bound slots slots.length : Int) - obj.length = b := by omega
  have hbytes (m' : Memory) (x : Nat) (hx : x < b) : m'.writeBytes b obj x = m' x :=
    Memory.writeBytes_of_out (.inl hx)
  have hcount (m' : Memory) : objectCount (m'.writeBytes b obj) = objectCount m' :=
    objectCount_congr fun x hx => hbytes m' x (by omega)
  simp only [PageData.appendObject, h.lastOffset, hoff]
  simp only [objectCount_setFreeSpace, objectCount_setObjectOffset, hcount, h.count,
    Int.toNat_natCast, and_true]
  refine ⟨?_, ?_, ?_, fun {i} hi => ?_, fun {i} hi => ?_⟩
  · rw [objectCount_setObjectCount (holds_of_small (by omega) (by omega)), hlen]
    push_cast
    rfl
  · rw [hlen, htotal]
    have hsize : pageSize = 16384 := rfl
    omega
  · rw [freeSpace_setObjectCount, freeSpace_congr fun x hx => hbytes _ x (by omega),
      freeSpace_setObjectOffset, freeSpace_setFreeSpace (holds_of_small (by omega) (by omega)), hlen,
      htotal]
    push_cast
    omega
  · rw [hlen] at hi
    rw [objectOffset_setObjectCount, objectOffset_congr fun x hx => hbytes _ x (by omega)]
    rcases Nat.lt_or_ge i slots.length with hold | hge
    · rw [objectOffset_setObjectOffset_of_ne (by omega), objectOffset_setFreeSpace, hkept hold,
        h.offset hold]
    · obtain rfl : i = slots.length := by omega
      rw [hnew, objectOffset_setObjectOffset (holds_of_small (by omega) (by omega))]
  · rw [hlen] at hi
    rcases Nat.lt_or_ge i slots.length with hold | hge
    · have hbelow : bound slots slots.length ≤ bound slots (i + 1) := bound_anti slots hold
      simp only [List.getElem_append_left hold, hkept (i := i + 1) hold]
      refine Eq.trans (Memory.readBytes_congr fun j hj => ?_) (h.bytes hold)
      rw [setObjectCount_of_le (by omega), Memory.writeBytes_of_out (by omega),
        setObjectOffset_of_le (by omega), setFreeSpace_of_le (by omega)]
    · obtain rfl : i = slots.length := by omega
      simp only [List.getElem_concat_length, hnew]
      rw [setObjectCount, Memory.readBytes_writeInt_of_disjoint (by omega),
        Memory.readBytes_writeBytes_self]

/-- The bytes of the page once the new object stands where the empty one was. -/
theorem reuse_bytes (hr : r < slots.length) {k : Nat} (hk : k = obj.length)
    (hroom : 20 + 4 * slots.length + k ≤ bound slots slots.length) :
    ∃ m' : Memory, ((m.copyDown (objectOffset m (slots.length - 1)).toNat
        (objectOffset m r - objectOffset m (slots.length - 1)).toNat k).writeBytes
          (objectOffset m r - k).toNat obj) = m' ∧
      (∀ x < 20 + 4 * slots.length, m' x = m x) ∧
      (∀ x, bound slots (r + 1) ≤ x → m' x = m x) ∧
      (∀ x, bound slots slots.length ≤ x + k → x + k < bound slots (r + 1) → m' x = m (x + k)) ∧
      ∀ j (hj : j < obj.length), m' (bound slots (r + 1) - k + j) = obj[j] := by
  have hlast : objectOffset m (slots.length - 1) = bound slots slots.length := by
    rw [h.offset (by omega), Nat.sub_add_cancel (by omega)]
  have hle : bound slots slots.length ≤ bound slots (r + 1) := bound_anti slots hr
  have hnum : ((bound slots (r + 1) : Int) - bound slots slots.length).toNat =
      bound slots (r + 1) - bound slots slots.length := by omega
  have hpos : ((bound slots (r + 1) : Int) - k).toNat = bound slots (r + 1) - k := by omega
  refine ⟨_, rfl, ?_⟩
  rw [hlast, h.offset hr, Int.toNat_natCast, hnum, hpos, Memory.copyDown_eq_move (by omega)]
  refine ⟨fun x hx => ?_, fun x hx => ?_, fun x hx hx' => ?_, fun j hj => ?_⟩
  · rw [Memory.writeBytes_of_out (by omega), Memory.move_of_out (by omega)]
  · rw [Memory.writeBytes_of_out (by omega), Memory.move_of_out (by omega)]
  · obtain ⟨j, rfl⟩ : ∃ j, x = bound slots slots.length - k + j :=
      ⟨x - (bound slots slots.length - k), by omega⟩
    have hback : bound slots slots.length - k + j + k = bound slots slots.length + j := by omega
    rw [Memory.writeBytes_of_out (by omega), Memory.move_add (by omega), hback]
  · exact Memory.writeBytes_add hj

theorem reuse_room (hfree : (obj.length : Int) ≤ freeSpace m) :
    20 + 4 * slots.length + obj.length ≤ bound slots slots.length ∧
      total slots + obj.length ≤ pageSize ∧ freeSpace m ≤ 16364 := by
  have hmax : maxFreeSpace = 16364 := rfl
  have hsize : pageSize = 16384 := rfl
  have hnow := h.free
  rw [bound, List.take_length]
  omega

/-- A new object in the place of an empty one. -/
theorem reuseObject (hr : r < slots.length) (hempty : slots[r] = [])
    (hfree : (obj.length : Int) ≤ freeSpace m) :
    Stores (reuseObject m r obj) (slots.set r obj) := by
  obtain ⟨hroom, hpage, hfew⟩ := h.reuse_room hfree
  obtain ⟨hbelow, habove⟩ := bound_reuse hr hempty hpage
  have hlen : (slots.set r obj).length = slots.length := List.length_set
  have htotal : total (slots.set r obj) = total slots + obj.length := by
    have hset := total_set obj hr
    rwa [hempty] at hset
  obtain ⟨m₁, hm₁, htable, hold, hmoved, hobj⟩ := h.reuse_bytes hr rfl hroom
  have hcount : objectCount m₁ = slots.length := by
    rw [objectCount_congr fun x hx => htable x (by omega), h.count]
  simp only [PageData.reuseObject, h.count, toNat_pred, hm₁, hcount, Int.toNat_natCast]
  set m₂ := (List.range' r (slots.length - r)).foldl (addOffset (-obj.length)) m₁ with hm₂
  have hout {x : Nat} (hx : x < 20 + 4 * r ∨ 20 + 4 * slots.length ≤ x) : m₂ x = m₁ x :=
    addOffsets_tail_of_out hr.le hx
  have hhead {x : Nat} (hx : x < 20) : m₂ x = m x := by
    rw [hout (by omega), htable x (by omega)]
  have hbytes {x : Nat} (hx : 20 + 4 * slots.length ≤ x) :
      setFreeSpace m₂ (freeSpace m₂ - obj.length) x = m₁ x := by
    rw [setFreeSpace_of_le (by omega), hout (.inr hx)]
  have hoffset₁ {i : Nat} (hi : i < slots.length) : objectOffset m₁ i = bound slots (i + 1) := by
    rw [objectOffset_congr fun x hx => htable x (by omega), h.offset hi]
  refine ⟨?_, ?_, ?_, fun {i} hi => ?_, fun {i} hi => ?_⟩
  · rw [objectCount_setFreeSpace, objectCount_congr fun x hx => hhead hx, h.count, hlen]
  · have hfits := h.fits
    rw [hlen, htotal]
    rw [bound, List.take_length] at hroom
    omega
  · rw [@freeSpace_congr _ m₂ fun x hx => hhead hx,
      freeSpace_setFreeSpace (holds_of_small (by omega) (by omega)), h.free, hlen, htotal]
    push_cast
    omega
  · rw [hlen] at hi
    rw [objectOffset_setFreeSpace]
    rcases Nat.lt_or_ge i r with hlt | hge
    · rw [objectOffset_congr fun x hx => hout (by omega), hoffset₁ hi, hbelow (i + 1) hlt]
    · have hset := habove (i + 1) (by omega)
      have hb : bound slots (i + 1) ≤ 16384 := bound_le ..
      have hin : r ≤ i ∧ i < r + (slots.length - r) := by
        clear hroom hpage hfew htotal
        omega
      rw [hm₂, objectOffset_addOffsets hin, hoffset₁ hi]
      · omega
      · rw [hoffset₁ hi]
        exact holds_of_small (by omega) (by omega)
  · rw [hlen] at hi
    have hle : bound slots slots.length ≤ bound slots (i + 1) := bound_anti slots hi
    rcases Nat.lt_trichotomy i r with hlt | rfl | hgt
    · have hb : bound slots (r + 1) ≤ bound slots (i + 1) := bound_anti slots (by omega)
      simp only [List.getElem_set_ne (Nat.ne_of_gt hlt), hbelow (i + 1) hlt]
      refine Eq.trans (Memory.readBytes_congr fun j hj => ?_) (h.bytes hi)
      rw [hbytes (by omega), hold _ (by omega)]
    · have hset := habove (i + 1) (Nat.lt_succ_self i)
      simp only [List.getElem_set_self]
      apply List.ext_getElem Memory.length_readBytes
      intro j hj hj'
      have hplace : bound (slots.set i obj) (i + 1) + j = bound slots (i + 1) - obj.length + j := by
        omega
      simp only [Memory.readBytes, List.getElem_map, List.getElem_range]
      rw [hbytes (by omega), hplace, hobj j hj']
    · have hset := habove (i + 1) (by omega)
      have hsucc := h.bound_succ hi
      have hb : bound slots i ≤ bound slots (r + 1) := bound_anti slots hgt
      simp only [List.getElem_set_ne (Nat.ne_of_lt hgt)]
      refine Eq.trans (Memory.readBytes_congr fun j hj => ?_) (h.bytes hi)
      have hplace : bound (slots.set r obj) (i + 1) + j + obj.length = bound slots (i + 1) + j := by
        omega
      rw [hbytes (by omega), hmoved _ (by omega) (by omega), hplace]

theorem objectSize (hpos : pos < slots.length) :
    (if pos = 0 then (pageSize : Int) else objectOffset m (pos - 1)) - objectOffset m pos =
      slots[pos].length := by
  have hsucc := h.bound_succ hpos
  have hend : (if pos = 0 then (pageSize : Int) else objectOffset m (pos - 1)) = bound slots pos := by
    rcases Nat.eq_zero_or_pos pos with rfl | hgt
    · rw [if_pos rfl, bound_zero]
    · rw [if_neg (by omega), h.offset (by omega), Nat.sub_add_cancel hgt]
  rw [hend, h.offset hpos]
  omega

/-- The bytes of the page once the younger objects have moved. -/
theorem remove_bytes (hpos : pos < slots.length) {k : Nat} (hk : k = slots[pos].length) :
    ∃ m' : Memory, (List.range' (pos + 1) (slots.length - (pos + 1))).foldl (moveObject k) m = m' ∧
      (∀ x < 20 + 4 * slots.length, m' x = m x) ∧
      (∀ x, bound slots slots.length ≤ x → x < bound slots (pos + 1) → m' (x + k) = m x) ∧
      ∀ x, bound slots pos ≤ x → m' x = m x := by
  obtain ⟨n, hn⟩ : ∃ n, slots.length = pos + n + 1 := ⟨slots.length - (pos + 1), by omega⟩
  have hsub : slots.length - (pos + 1) = n := by omega
  have htable : 20 + 4 * slots.length ≤ bound slots slots.length := h.table_le
  have hsucc := h.bound_succ hpos
  obtain ⟨hmoved, hlow, hhigh⟩ := moveObjects (m := m) (fun i => bound slots (i + 1)) k pos n
    (fun j hj => h.offset (by omega)) (fun j _ => bound_anti slots (Nat.le_succ _))
    (by rw [← hn]; omega)
  rw [hsub]
  rw [← hn] at hmoved hlow
  refine ⟨_, rfl, fun x hx => hlow x (by omega), hmoved, fun x hx => hhigh x ?_⟩
  omega

/-- The objects up to a deleted one stay, the others move up. -/
theorem bound_remove (hpos : pos < slots.length) :
    (∀ i ≤ pos, bound (slots.set pos []) i = bound slots i) ∧
      ∀ i, pos < i → bound (slots.set pos []) i = bound slots i + slots[pos].length := by
  have hfits := h.fits
  have htotal := total_set [] hpos
  rw [List.length_nil] at htotal
  refine ⟨fun i hi => bound_set_of_le hpos hi, fun i hi => ?_⟩
  exact bound_set_of_lt [] hpos hi (by omega) (by omega)

theorem remove_room (hpos : pos < slots.length) {k : Nat} (hk : k = slots[pos].length) :
    20 + 4 * slots.length + total (slots.set pos []) ≤ pageSize ∧
      freeSpace m + k = (maxFreeSpace : Int) - total (slots.set pos []) - 4 * slots.length ∧
      Scalar.int.Holds (freeSpace m + k) := by
  have hmax : maxFreeSpace = 16364 := rfl
  have hpage : pageSize = 16384 := rfl
  have hfits := h.fits
  have htotal : total (slots.set pos []) + k = total slots := by
    rw [hk]
    exact total_set [] hpos
  have hfree : freeSpace m + k = (maxFreeSpace : Int) - total (slots.set pos []) - 4 * slots.length := by
    rw [h.free]
    omega
  refine ⟨by omega, hfree, ?_⟩
  rw [hfree]
  exact holds_of_small (by omega) (by omega)

/-- The object is gone, and its slot is empty. -/
theorem empties (hpos : pos < slots.length) {k : Nat} (hk : k = slots[pos].length) :
    ∃ m', addOffset k ((List.range' (pos + 1) (slots.length - (pos + 1))).foldl (addOffset k)
      ((List.range' (pos + 1) (slots.length - (pos + 1))).foldl (moveObject k) m)) pos = m' ∧
      freeSpace m' = freeSpace m ∧
      Stores (setFreeSpace m' (freeSpace m + k)) (slots.set pos []) := by
  obtain ⟨hbelow, habove⟩ := h.bound_remove hpos
  have hlen : (slots.set pos []).length = slots.length := List.length_set
  have htable : 20 + 4 * slots.length ≤ bound slots slots.length := h.table_le
  have hsucc := h.bound_succ hpos
  obtain ⟨m₁, hm₁, hlow, hmoved, hhigh⟩ := h.remove_bytes hpos hk
  rw [hm₁]
  set m₂ := (List.range' (pos + 1) (slots.length - (pos + 1))).foldl (addOffset k) m₁ with hm₂
  have hout₂ {x : Nat} (hx : x < 24 + 4 * pos ∨ 20 + 4 * slots.length ≤ x) : m₂ x = m₁ x :=
    addOffsets_tail_of_out hpos (by omega)
  have hout {x : Nat} (hx : x < 20 + 4 * pos ∨ 20 + 4 * slots.length ≤ x) :
      addOffset k m₂ pos x = m₁ x := by
    rw [addOffset, setObjectOffset, Memory.writeInt_of_out (by omega), hout₂ (by omega)]
  have hhead {x : Nat} (hx : x < 20) : addOffset k m₂ pos x = m x := by
    rw [hout (by omega), hlow x (by omega)]
  have hbytes {x : Nat} (hx : 20 + 4 * slots.length ≤ x) :
      setFreeSpace (addOffset k m₂ pos) (freeSpace m + k) x = m₁ x := by
    rw [setFreeSpace_of_le (by omega), hout (.inr hx)]
  have hoffset₁ {i : Nat} (hi : i < slots.length) : objectOffset m₁ i = bound slots (i + 1) := by
    rw [objectOffset_congr fun x hx => hlow x (by omega), h.offset hi]
  have hholds {i : Nat} (hi : i < slots.length) : Scalar.int.Holds (objectOffset m₁ i + k) := by
    have hb : bound slots (i + 1) ≤ 16384 := bound_le ..
    have hb' : bound slots pos ≤ 16384 := bound_le ..
    rw [hoffset₁ hi]
    exact holds_of_small (by omega) (by omega)
  refine ⟨_, rfl, freeSpace_congr fun x hx => hhead hx, ?_, ?_, ?_, fun {i} hi => ?_,
    fun {i} hi => ?_⟩
  · rw [objectCount_setFreeSpace, objectCount_congr fun x hx => hhead hx, h.count, hlen]
  · rw [hlen]
    exact (h.remove_room hpos hk).1
  · obtain ⟨-, hfree, hsmall⟩ := h.remove_room hpos hk
    rw [freeSpace_setFreeSpace hsmall, hfree, hlen]
  · rw [hlen] at hi
    rw [objectOffset_setFreeSpace]
    rcases Nat.lt_trichotomy i pos with hlt | rfl | hgt
    · rw [objectOffset_congr fun x hx => hout (by omega), hoffset₁ hi, hbelow (i + 1) hlt]
    · have hold : objectOffset m₂ i = objectOffset m₁ i :=
        objectOffset_congr fun x hx => hout₂ (by omega)
      rw [addOffset, hold, objectOffset_setObjectOffset (hholds hi), hoffset₁ hi,
        habove (i + 1) (Nat.lt_succ_self i), hk]
      push_cast
      rfl
    · have hin : pos + 1 ≤ i ∧ i < pos + 1 + (slots.length - (pos + 1)) := by
        clear htable hsucc
        omega
      rw [addOffset, objectOffset_setObjectOffset_of_ne (by omega), hm₂,
        objectOffset_addOffsets hin (hholds hi), hoffset₁ hi, habove (i + 1) (by omega), hk]
      push_cast
      rfl
  · rw [hlen] at hi
    have hle : bound slots slots.length ≤ bound slots (i + 1) := bound_anti slots hi
    rcases Nat.lt_trichotomy i pos with hlt | rfl | hgt
    · have hb : bound slots pos ≤ bound slots (i + 1) := bound_anti slots hlt
      simp only [List.getElem_set_ne (Nat.ne_of_gt hlt), hbelow (i + 1) hlt]
      refine Eq.trans (Memory.readBytes_congr fun j hj => ?_) (h.bytes hi)
      rw [hbytes (by omega), hhigh _ (by omega)]
    · simp only [List.getElem_set_self]
      rfl
    · have hisucc := h.bound_succ hi
      have hb : bound slots i ≤ bound slots (pos + 1) := bound_anti slots hgt
      simp only [List.getElem_set_ne (Nat.ne_of_lt hgt), habove (i + 1) (by omega), ← hk]
      refine Eq.trans (Memory.readBytes_congr fun j hj => ?_) (h.bytes hi)
      rw [hbytes (by omega), Nat.add_right_comm, hmoved _ (by omega) (by omega)]

end Stores

-- ---------------------------------------------------------------------------
-- Empty objects at the end
-- ---------------------------------------------------------------------------

namespace Stores

/-- An empty object at the end goes. -/
theorem pop (h : Stores m (slots ++ [[]])) (hcount : objectCount m' = slots.length)
    (hfree : freeSpace m' = freeSpace m + 4)
    (hoffset : ∀ i < slots.length, objectOffset m' i = objectOffset m i)
    (hbytes : ∀ x, 20 + 4 * slots.length ≤ x → m' x = m x) : Stores m' slots := by
  have hlen : (slots ++ [[]]).length = slots.length + 1 := by simp
  have htotal : total (slots ++ [[]]) = total slots := by simp
  have hkept {i : Nat} (hi : i ≤ slots.length) : bound (slots ++ [[]]) i = bound slots i := by
    rw [bound, bound, List.take_append_of_le_length hi]
  refine ⟨hcount, ?_, ?_, fun {i} hi => ?_, fun {i} hi => ?_⟩
  · have hfits := h.fits
    rw [hlen, htotal] at hfits
    omega
  · rw [hfree, h.free, hlen, htotal]
    push_cast
    omega
  · rw [hoffset i hi, h.offset (by omega), hkept (i := i + 1) hi]
  · have htable : 20 + 4 * (slots ++ [[]]).length ≤ bound (slots ++ [[]]) (i + 1) := h.table_le
    have hread := h.bytes (i := i) (by omega)
    simp only [List.getElem_append_left hi] at hread
    rw [hkept (i := i + 1) hi] at hread htable
    refine Eq.trans (Memory.readBytes_congr fun j hj => hbytes _ ?_) hread
    omega

/-- The count goes down, and the free space up. -/
theorem pop_set (h : Stores m (slots ++ [[]])) : Stores
    (setFreeSpace (setObjectCount m (objectCount m - 1))
      (freeSpace (setObjectCount m (objectCount m - 1)) + 4)) slots := by
  have hmax : maxFreeSpace = 16364 := rfl
  have hpage : pageSize = 16384 := rfl
  have hfits := h.fits
  have hnow := h.free
  have hcount : objectCount m - 1 = slots.length := by
    rw [h.count]
    simp
  have hlen : (slots ++ [[]]).length = slots.length + 1 := by simp
  rw [hlen] at hfits hnow
  refine h.pop ?_ ?_ (fun i _ => ?_) fun x hx => ?_
  · rw [objectCount_setFreeSpace, hcount,
      objectCount_setObjectCount (holds_of_small (by omega) (by omega))]
  · rw [freeSpace_setObjectCount, freeSpace_setFreeSpace (holds_of_small (by omega) (by omega))]
  · rw [objectOffset_setFreeSpace, objectOffset_setObjectCount]
  · rw [setFreeSpace_of_le (by omega), setObjectCount_of_le (by omega)]

/-- What is trimmed is empty objects, and all of them but the first of the page. -/
theorem trim (h : Stores m slots) (hi : slots.length = i + 1) :
    ∃ slots', Stores (trim i m) slots' ∧
      slots'.rdropWhile List.isEmpty = slots.rdropWhile List.isEmpty ∧
      (slots'.length = 1 ∨ slots'.rdropWhile List.isEmpty = slots') := by
  induction i generalizing m slots with
  | zero => exact ⟨slots, h, rfl, .inl hi⟩
  | succ i ih =>
    obtain ⟨front, last, rfl⟩ : ∃ front last, slots = front ++ [last] :=
      ⟨_, _, (List.dropLast_append_getLast (by rintro rfl; simp at hi)).symm⟩
    have hfront : front.length = i + 1 := by simpa using hi
    have hsucc := h.bound_succ (i := i + 1) (by omega)
    have hlast : (front ++ [last])[i + 1] = last := by simp [← hfront]
    rw [hlast] at hsucc
    rw [PageData.trim, h.offset (by omega), h.offset (by omega)]
    cases last with
    | nil =>
      rw [List.length_nil] at hsucc
      rw [if_pos (by omega), if_neg (by omega)]
      obtain ⟨slots', hs, hsame, hdone⟩ := ih h.pop_set hfront
      refine ⟨slots', hs, ?_, hdone⟩
      rw [hsame, List.rdropWhile_concat_pos _ _ _ rfl]
    | cons b bs =>
      rw [List.length_cons] at hsucc
      rw [if_neg (by omega)]
      refine ⟨_, h, rfl, .inr ?_⟩
      exact List.rdropWhile_concat_neg _ _ _ (by simp)

/-- A page with one empty object is an empty page. -/
theorem dropFirst (h : Stores m slots)
    (hdone : slots.length ≤ 1 ∨ slots.rdropWhile List.isEmpty = slots) :
    Stores (dropFirst m) (slots.rdropWhile List.isEmpty) := by
  unfold PageData.dropFirst
  rw [h.count]
  match slots, h, hdone with
  | [], h, _ =>
    rw [if_neg (by simp)]
    exact h
  | [s], h, _ =>
    have hsucc := h.bound_succ (i := 0) (by simp)
    rw [bound_zero] at hsucc
    rw [h.offset (by simp)]
    cases s with
    | nil =>
      simp only [List.getElem_cons_zero, List.length_nil, Nat.add_zero] at hsucc
      rw [if_pos ⟨rfl, by rw [hsucc]⟩]
      have hpop : Stores _ [] := h.pop_set
      rw [h.count] at hpop
      exact hpop
    | cons b bs =>
      simp only [List.getElem_cons_zero, List.length_cons] at hsucc
      rw [if_neg fun heq => by omega]
      have hkeep : [b :: bs].rdropWhile List.isEmpty = [b :: bs] :=
        List.rdropWhile_concat_neg _ [] _ (by simp)
      rw [hkeep]
      exact h
  | s :: s' :: rest, h, hdone =>
    have hkeep := hdone.resolve_left (by simp)
    rw [if_neg fun heq => by simp at heq; omega, hkeep]
    exact h

/-- Neither the offsets nor the objects are cleared. -/
theorem clearGap (h : Stores m slots) : Stores (clearGap m) slots := by
  have htable : 20 + 4 * slots.length ≤ bound slots slots.length := h.table_le
  have hfirst : (if objectCount m ≤ 0 then (pageSize : Int)
      else objectOffset m (objectCount m - 1).toNat) = bound slots slots.length := by
    rw [← h.lastOffset]
    by_cases hpos : 0 < objectCount m
    · rw [if_pos hpos, if_neg (by omega)]
    · rw [if_neg hpos, if_pos (by omega)]
  have hgap : ((bound slots slots.length : Int) - (20 + 4 * slots.length)).toNat =
      bound slots slots.length - (20 + 4 * slots.length) := by omega
  simp only [PageData.clearGap, hfirst]
  simp only [h.count, Int.toNat_natCast, hgap]
  have hlow {x : Nat} (hx : x < 20 + 4 * slots.length) :
      m.clear (20 + 4 * slots.length) (bound slots slots.length - (20 + 4 * slots.length)) x = m x :=
    Memory.clear_of_out (.inl hx)
  refine h.of_eq (objectCount_congr fun x hx => hlow (by omega))
    (freeSpace_congr fun x hx => hlow (by omega))
    (fun i hi => objectOffset_congr fun x hx => hlow (by omega))
    fun x hx => Memory.clear_of_out (.inr (by omega))

theorem setTimestamp (h : Stores m slots) : Stores (setTimestamp m v) slots := by
  have htable : 20 + 4 * slots.length ≤ bound slots slots.length := h.table_le
  exact h.of_eq (objectCount_setTimestamp m v) (freeSpace_setTimestamp m v)
    (fun i _ => objectOffset_setTimestamp m v i) fun x hx => setTimestamp_of_le (by omega)

/-- The object and the empty ones at the end go. -/
theorem removeObject (h : Stores m slots) (hpos : pos < slots.length) :
    ∃ slots', Stores (removeObject m pos) slots' ∧
      slots'.rdropWhile List.isEmpty = (slots.set pos []).rdropWhile List.isEmpty := by
  obtain ⟨m₁, hm₁, hfree, hempty⟩ := h.empties hpos rfl
  have hcount : objectCount m₁ = slots.length := by
    rw [← objectCount_setFreeSpace m₁ (freeSpace m + slots[pos].length), hempty.count,
      List.length_set]
  simp only [PageData.removeObject, h.objectSize hpos]
  simp only [h.count, Int.toNat_natCast, hm₁, hcount, hfree]
  by_cases hlast : (slots.length : Int) - 1 = pos
  · -- the last object leaves no empty one
    have hend : slots.length = pos + 1 := by omega
    have hset : slots.set pos [] = slots.take pos ++ [[]] := by
      rw [List.set_eq_take_append_cons_drop, if_pos hpos, List.drop_of_length_le (by omega)]
    rw [if_pos hlast, hset, List.rdropWhile_concat_pos _ _ _ rfl]
    rw [hset] at hempty
    obtain ⟨hfits, hroom, hsmall⟩ := h.remove_room hpos rfl
    have hpage : pageSize = 16384 := rfl
    have hsmall' : Scalar.int.Holds (freeSpace m + slots[pos].length + 4) := by
      have hmax : maxFreeSpace = 16364 := rfl
      rw [hroom]
      exact holds_of_small (by omega) (by omega)
    have htake : (slots.take pos).length = pos := by simp [hpos.le]
    refine ⟨slots.take pos, hempty.pop ?_ ?_ (fun i _ => ?_) fun x hx => ?_, rfl⟩
    · rw [objectCount_setFreeSpace, hlast, htake,
        objectCount_setObjectCount (holds_of_small (by omega) (by omega))]
    · rw [freeSpace_setObjectCount, hfree, freeSpace_setFreeSpace hsmall', freeSpace_setFreeSpace hsmall]
    · rw [objectOffset_setFreeSpace, objectOffset_setObjectCount, objectOffset_setFreeSpace]
    · rw [setFreeSpace_of_le (by omega), setObjectCount_of_le (by omega), setFreeSpace_of_le (by omega)]
  · rw [if_neg hlast]
    exact ⟨_, hempty, rfl⟩

theorem deleteObject (h : Stores m slots) (hpos : pos < slots.length) :
    Stores (deleteObject m pos v) ((slots.set pos []).rdropWhile List.isEmpty) := by
  obtain ⟨slots', hs, hsame⟩ := (h.setTimestamp (v := v)).removeObject hpos
  simp only [PageData.deleteObject, hs.count, toNat_pred, ← hsame]
  apply clearGap
  rcases Nat.eq_zero_or_pos slots'.length with hzero | hgt
  · rw [hzero]
    exact hs.dropFirst (.inl (by omega))
  · obtain ⟨slots'', hs', hsame', hdone⟩ := hs.trim (i := slots'.length - 1) (by omega)
    rw [← hsame']
    exact hs'.dropFirst (hdone.imp_left le_of_eq)

end Stores

end Loxim.Store.PageData
