import Mathlib.Algebra.BigOperators.Intervals
import Mathlib.Algebra.BigOperators.Ring.Finset
import Mathlib.Data.List.GetD
import Loxim.Store.PageLayout

/-!
# What happens to a data page

Objects come to a page and go, in any order. `live` has the bytes of the objects that
are there; it is changed only where an object comes or goes.
-/

namespace Loxim.Store

open PageData

structure PageRun where
  page : Memory
  live : Nat → List UInt8 := fun _ => []

namespace PageRun

inductive Event
  | insertObject (obj : List UInt8) (logId : Int)
  | deleteObject (offset : Nat) (logId : Int)

/-- After an error the page is as before. -/
def inserted (s : PageRun) (obj : List UInt8) : Except Int (Memory × Nat) → PageRun
  | .error _ => s
  | .ok (page, offset) => { page, live := Function.update s.live offset obj }

def step (s : PageRun) : Event → Option PageRun
  | .insertObject obj logId => some (s.inserted obj (insertObject s.page obj logId))
  | .deleteObject offset logId => some {
      page := deleteObject s.page offset logId
      live := Function.update s.live offset [] }

/-- Objects have bytes, and those are deleted that are there. -/
def Legal (s : PageRun) : Event → Prop
  | .insertObject obj _ => obj ≠ []
  | .deleteObject offset _ => s.live offset ≠ []

/-- The bytes that `deserialize` reads. -/
def objectBytes (m : Memory) (i : Nat) : List UInt8 :=
  m.readBytes (objectOffset m i).toNat
    ((if i = 0 then (pageSize : Int) else objectOffset m (i - 1)) - objectOffset m i).toNat

variable {s s' : PageRun} {ev : Event} {m : Memory} {slots : List (List UInt8)} {obj : List UInt8}
  {logId : Int} {i r pageNum : Nat}

theorem objectBytes_of_stores (h : Stores m slots) (hi : i < slots.length) :
    objectBytes m i = slots[i] := by
  rw [objectBytes, h.objectSize hi, Int.toNat_natCast, h.offset hi, Int.toNat_natCast, h.bytes hi]

/-- The page stores the objects, and nothing empty at the end. -/
structure Kept (s : PageRun) (slots : List (List UInt8)) : Prop where
  stores : Stores s.page slots
  trimmed : slots.rdropWhile List.isEmpty = slots
  live (i : Nat) : s.live i = slots.getD i []

theorem stores_initializePage (m : Memory) (h : pageNum % (maxObjectCount + 1) ≠ 0) :
    Stores (initializePage pageNum m) [] := by
  have hbytes (m : Memory) : objectCount (m.writeBytes 6 [2, 0]) = objectCount m :=
    Memory.readInt_writeBytes_of_disjoint (by simp)
  refine ⟨?_, by decide, ?_, nofun, nofun⟩
  · simp only [initializePage, if_neg h, objectCount_setFreeSpace, hbytes]
    exact objectCount_setObjectCount (holds_of_small (by decide) (by decide))
  · simp only [initializePage, if_neg h]
    exact freeSpace_setFreeSpace (holds_of_small (by decide) (by decide))

theorem update_length {live : Nat → List UInt8} (h : ∀ i, live i = slots.getD i []) (i : Nat) :
    Function.update live slots.length obj i = (slots ++ [obj]).getD i [] := by
  rcases Nat.lt_trichotomy i slots.length with hlt | rfl | hgt
  · rw [Function.update_of_ne (by omega), h, List.getD_append _ _ _ _ hlt]
  · rw [Function.update_self]
    simp
  · rw [Function.update_of_ne (by omega), h, List.getD_eq_default _ _ (by omega),
      List.getD_eq_default _ _ (by simpa using hgt)]

theorem update_set {live : Nat → List UInt8} (h : ∀ i, live i = slots.getD i [])
    (hr : r < slots.length) (i : Nat) :
    Function.update live r obj i = (slots.set r obj).getD i [] := by
  rcases eq_or_ne i r with rfl | hne
  · rw [Function.update_self]
    simp [hr]
  · rw [Function.update_of_ne hne, h]
    simp [List.getElem?_set_ne hne.symm]

theorem getD_rdropWhile (slots : List (List UInt8)) (i : Nat) :
    (slots.rdropWhile List.isEmpty).getD i [] = slots.getD i [] := by
  induction slots using List.reverseRecOn with
  | nil => rfl
  | append_singleton l s ih =>
    cases s with
    | nil =>
      rw [List.rdropWhile_concat_pos _ _ _ rfl, ih]
      rcases Nat.lt_or_ge i l.length with hlt | hge
      · rw [List.getD_append _ _ _ _ hlt]
      · rw [List.getD_eq_default _ _ hge]
        simp only [List.getD_eq_getElem?_getD, List.getElem?_append_right hge]
        rcases i - l.length with - | j <;> simp
    | cons b bs => rw [List.rdropWhile_concat_neg _ _ _ (by simp)]

/-- An empty object that is filled is not the last one. -/
theorem trimmed_set (h : slots.rdropWhile List.isEmpty = slots) (hobj : obj ≠ []) :
    (slots.set r obj).rdropWhile List.isEmpty = slots.set r obj := by
  rw [List.rdropWhile_eq_self_iff] at h ⊢
  intro hne
  have hne' : slots ≠ [] := by
    rintro rfl
    simp at hne
  rw [List.getLast_eq_getElem, List.getElem_set]
  split
  · simpa using hobj
  · have hlast := h hne'
    rw [List.getLast_eq_getElem] at hlast
    simpa using hlast

/-- An object comes to the end of the page or to an empty place. -/
theorem Kept.insertObject {page : Memory} (h : s.Kept slots) (hobj : obj ≠ [])
    (hok : insertObject s.page obj logId = .ok (page, r)) :
    s.live r = [] ∧ ∃ slots', Kept { page, live := Function.update s.live r obj } slots' := by
  unfold PageData.insertObject at hok
  split at hok
  · cases hok
  · rename_i hfree
    rw [h.stores.emptyObject] at hok
    cases hfind : slots.findIdx? List.isEmpty with
    | none =>
      simp only [hfind] at hok
      split at hok
      · cases hok
      · rename_i hroom
        have hroom' : (obj.length : Int) + 4 ≤ freeSpace s.page := not_lt.mp hroom
        obtain ⟨hstores, hplace⟩ := h.stores.appendObject hroom'
        cases hok
        rw [hplace, h.live]
        refine ⟨by simp, slots ++ [obj], hstores.setTimestamp, ?_, update_length h.live⟩
        exact List.rdropWhile_concat_neg _ _ _ (by simpa using hobj)
    | some roffset =>
      simp only [hfind] at hok
      cases hok
      obtain ⟨hr, hempty, -⟩ := List.findIdx?_eq_some_iff_getElem.mp hfind
      have hempty' : slots[r] = [] := by simpa using hempty
      have hfree' : (obj.length : Int) ≤ freeSpace s.page := not_lt.mp hfree
      have hstores := h.stores.reuseObject hr hempty' hfree'
      refine ⟨by simp [h.live, hr, hempty'], slots.set r obj, hstores.setTimestamp,
        trimmed_set h.trimmed hobj, update_set h.live hr⟩

theorem Kept.step (h : s.Kept slots) (hlegal : s.Legal ev) (hstep : s.step ev = some s') :
    ∃ slots', s'.Kept slots' := by
  cases ev with
  | insertObject obj logId =>
    cases hstep
    cases hok : PageData.insertObject s.page obj logId with
    | error e => exact ⟨slots, h⟩
    | ok res => exact (h.insertObject hlegal hok).2
  | deleteObject offset logId =>
    cases hstep
    have hlive : s.live offset ≠ [] := hlegal
    have hoffset : offset < slots.length := by
      by_contra hge
      rw [h.live, List.getD_eq_default _ _ (by omega)] at hlive
      exact hlive rfl
    refine ⟨_, h.stores.deleteObject hoffset, List.rdropWhile_idempotent .., fun i => ?_⟩
    rw [getD_rdropWhile]
    exact update_set h.live hoffset i

theorem total_eq_sum {live : Nat → List UInt8} (h : ∀ i, live i = slots.getD i []) :
    total slots = ∑ i ∈ Finset.range slots.length, (live i).length := by
  have hsum (l : List (List UInt8)) :
      total l = ∑ i ∈ Finset.range l.length, (l.getD i []).length := by
    induction l with
    | nil => rfl
    | cons s l ih =>
      rw [total_cons, ih, List.length_cons, Finset.sum_range_succ', Nat.add_comm]
      rfl
  rw [hsum]
  refine Finset.sum_congr rfl fun i _ => ?_
  rw [h]

/-- Whatever objects come to a page and go, the offsets do not increase, the free space
is what the objects and the offsets leave, the two do not overlap, the last object is
not empty, and every object keeps its place and its bytes. -/
theorem page_invariant {m₀ : Memory} (hnum : pageNum % (maxObjectCount + 1) ≠ 0)
    (h : Reaches step Legal { page := initializePage pageNum m₀ } s) :
    ∃ count : Nat, objectCount s.page = count ∧
      (∀ i < count, objectOffset s.page i ≤
        if i = 0 then (pageSize : Int) else objectOffset s.page (i - 1)) ∧
      freeSpace s.page =
        maxFreeSpace - ∑ i ∈ Finset.range count, ((s.live i).length : Int) - 4 * count ∧
      (∀ i < count, (20 + 4 * count : Int) ≤ objectOffset s.page i) ∧
      (0 < count → s.live (count - 1) ≠ []) ∧
      (∀ i < count, objectBytes s.page i = s.live i) ∧
      (∀ i, s.live i ≠ [] → i < count) ∧
      ∀ obj logId page r, obj ≠ [] → insertObject s.page obj logId = .ok (page, r) →
        s.live r = [] := by
  have hkept : ∃ slots, s.Kept slots := by
    refine h.invariant (I := fun s => ∃ slots, s.Kept slots)
      ⟨[], stores_initializePage m₀ hnum, rfl, fun _ => rfl⟩ ?_
    intro s ev s' hs hlegal hstep
    obtain ⟨slots, hs⟩ := hs
    exact hs.step hlegal hstep
  obtain ⟨slots, hs⟩ := hkept
  have hlive {i : Nat} (hi : i < slots.length) : s.live i = slots[i] := by
    rw [hs.live, List.getD_eq_getElem _ _ hi]
  refine ⟨slots.length, hs.stores.count, fun i hi => ?_, ?_, fun i hi => ?_, fun hpos => ?_,
    fun i hi => ?_, fun i hi => ?_, fun obj logId page r hobj hok => ?_⟩
  · have hsize := hs.stores.objectSize hi
    omega
  · rw [hs.stores.free, total_eq_sum hs.live]
    push_cast
    rfl
  · rw [hs.stores.offset hi]
    exact_mod_cast hs.stores.table_le
  · have hlast := (List.rdropWhile_eq_self_iff.mp hs.trimmed) (List.length_pos_iff.mp hpos)
    rw [List.getLast_eq_getElem] at hlast
    rw [hlive (by omega)]
    simpa using hlast
  · rw [objectBytes_of_stores hs.stores hi, hlive hi]
  · by_contra hge
    rw [hs.live, List.getD_eq_default _ _ (by omega)] at hi
    exact hi rfl
  · exact (hs.insertObject hobj hok).1

instance (s : PageRun) : DecidablePred s.Legal
  | .insertObject obj _ => inferInstanceAs (Decidable (obj ≠ []))
  | .deleteObject offset _ => inferInstanceAs (Decidable (s.live offset ≠ []))

/-- Three objects come, the second goes, and a longer one comes to its place. -/
theorem page_invariant_reused : ∃ s : PageRun, s.live 1 = [7, 8, 9, 10] ∧
    objectBytes s.page 0 = [1, 2] ∧ objectBytes s.page 1 = [7, 8, 9, 10] ∧
    objectBytes s.page 2 = [5, 6] := by
  obtain ⟨s, hs, hQ⟩ := Reaches.of_play step Legal { page := initializePage 1 fun _ => 0 }
    [.insertObject [1, 2] 1, .insertObject [3, 4] 2, .insertObject [5, 6] 3, .deleteObject 1 4,
      .insertObject [7, 8, 9, 10] 5]
    (fun s => s.live 0 = [1, 2] ∧ s.live 1 = [7, 8, 9, 10] ∧ s.live 2 = [5, 6]) (by decide +kernel)
  obtain ⟨h₀, h₁, h₂⟩ := of_decide_eq_true hQ
  obtain ⟨count, -, -, -, -, -, hbytes, hplace, -⟩ := page_invariant (by decide) hs
  refine ⟨s, h₁, ?_, ?_, ?_⟩
  · rw [hbytes 0 (hplace 0 (by simp [h₀])), h₀]
  · rw [hbytes 1 (hplace 1 (by simp [h₁])), h₁]
  · rw [hbytes 2 (hplace 2 (by simp [h₂])), h₂]

end PageRun

end Loxim.Store
