import Mathlib.Order.Lattice
import Mathlib.Data.List.Basic

/-!
# Maps ordered by a comparator

A map keeps its elements in the order of a comparator and takes two keys for the
same if neither is less. If the comparator is that of a linear order on the keys in
use, and tells them apart, the map is a function.
-/

namespace Loxim

namespace ComparatorMap

variable {α β κ : Type} (lt : α → α → Bool)

def find (k : α) : List (α × β) → Option β
  | [] => none
  | (a, b) :: m => if lt a k then find k m else if lt k a then none else some b

/-- `m[k] = v`. A key that is there stays as it is. -/
def set (k : α) (v : β) : List (α × β) → List (α × β)
  | [] => [(k, v)]
  | (a, b) :: m =>
    if lt a k then (a, b) :: set k v m
    else if lt k a then (k, v) :: (a, b) :: m
    else (a, v) :: m

def erase (k : α) : List (α × β) → List (α × β)
  | [] => []
  | (a, b) :: m =>
    if lt a k then (a, b) :: erase k m
    else if lt k a then (a, b) :: m
    else m

inductive Op (α β : Type)
  | set (k : α) (v : β)
  | erase (k : α)

def Op.key : Op α β → α
  | .set k _ => k
  | .erase k => k

def run : List (Op α β) → List (α × β)
  | [] => []
  | .set k v :: ops => set lt k v (run ops)
  | .erase k :: ops => erase lt k (run ops)

/-- What the operations, the last one first, should have left. -/
def content [DecidableEq α] : List (Op α β) → α → Option β
  | [] => fun _ => none
  | .set k v :: ops => fun j => if j = k then some v else content ops j
  | .erase k :: ops => fun j => if j = k then none else content ops j

section

variable [LinearOrder κ] (key : α → κ) (S : α → Prop)

/-- On the keys in `S` the comparator is the order of `key`, which tells them apart. -/
structure Tells : Prop where
  less : ∀ a b, S a → S b → (lt a b = true ↔ key a < key b)
  injective : ∀ a b, S a → S b → key a = key b → a = b

structure Sorted (m : List (α × β)) : Prop where
  keys : ∀ e ∈ m, S e.1
  order : m.Pairwise fun e f => key e.1 < key f.1

variable {lt key S} {m : List (α × β)} {k j : α} {v : β}

theorem Sorted.tail {e : α × β} (h : Sorted key S (e :: m)) : Sorted key S m :=
  ⟨fun f hf => h.keys f (List.mem_cons_of_mem _ hf), (List.pairwise_cons.mp h.order).2⟩

theorem Sorted.cons {e : α × β} (h : Sorted key S m) (he : S e.1)
    (hlt : ∀ f ∈ m, key e.1 < key f.1) : Sorted key S (e :: m) := by
  refine ⟨?_, List.pairwise_cons.mpr ⟨hlt, h.order⟩⟩
  intro f hf
  rcases List.mem_cons.mp hf with rfl | hf
  · exact he
  · exact h.keys f hf

/-- A key that is less than the first one is not there. -/
theorem Tells.find_eq_none (h : Tells lt key S) (hm : Sorted key S m) (hk : S k)
    (hlt : ∀ e ∈ m, key k < key e.1) : find lt k m = none := by
  cases m with
  | nil => rfl
  | cons e m =>
    have he := hm.keys e List.mem_cons_self
    have hless := hlt e List.mem_cons_self
    have hno : lt e.1 k = false :=
      Bool.eq_false_iff.mpr fun hc => lt_asymm hless ((h.less _ _ he hk).mp hc)
    simp [find, hno, (h.less _ _ hk he).mpr hless]

theorem mem_set {e : α × β} (he : e ∈ set lt k v m) : e.1 = k ∨ ∃ f ∈ m, e.1 = f.1 := by
  induction m with
  | nil => exact Or.inl (by simpa [set] using congrArg Prod.fst (List.mem_singleton.mp he))
  | cons f m ih =>
    simp only [set] at he
    split at he
    · rcases List.mem_cons.mp he with rfl | he
      · exact Or.inr ⟨_, List.mem_cons_self, rfl⟩
      · exact (ih he).imp_right fun ⟨g, hg, heq⟩ => ⟨g, List.mem_cons_of_mem _ hg, heq⟩
    · split at he
      · rcases List.mem_cons.mp he with rfl | he
        · exact Or.inl rfl
        · exact Or.inr ⟨e, he, rfl⟩
      · rcases List.mem_cons.mp he with rfl | he
        · exact Or.inr ⟨f, List.mem_cons_self, rfl⟩
        · exact Or.inr ⟨e, List.mem_cons_of_mem _ he, rfl⟩

theorem erase_sublist (lt : α → α → Bool) (k : α) (m : List (α × β)) :
    (erase lt k m).Sublist m := by
  induction m with
  | nil => exact .slnil
  | cons e m ih =>
    simp only [erase]
    split
    · exact ih.cons_cons _
    · split
      · exact .refl _
      · exact List.sublist_cons_self _ _

theorem Tells.sorted_set (h : Tells lt key S) (hm : Sorted key S m) (hk : S k) :
    Sorted key S (set lt k v m) := by
  induction m with
  | nil => exact ⟨by simpa [set] using hk, by simp [set]⟩
  | cons e m ih =>
    have he := hm.keys e List.mem_cons_self
    have hbehind := (List.pairwise_cons.mp hm.order).1
    simp only [set]
    split
    · rename_i hless
      refine (ih hm.tail).cons he ?_
      intro f hf
      rcases mem_set hf with heq | ⟨g, hg, heq⟩
      · rw [heq]
        exact (h.less _ _ he hk).mp hless
      · rw [heq]
        exact hbehind g hg
    · split
      · rename_i hless
        have hfirst := (h.less _ _ hk he).mp hless
        refine hm.cons hk ?_
        intro f hf
        rcases List.mem_cons.mp hf with rfl | hf
        · exact hfirst
        · exact lt_trans hfirst (hbehind f hf)
      · exact hm.tail.cons he hbehind

theorem Sorted.erase (hm : Sorted key S m) (lt : α → α → Bool) (k : α) :
    Sorted key S (erase lt k m) :=
  ⟨fun e he => hm.keys e ((erase_sublist lt k m).subset he),
    hm.order.sublist (erase_sublist lt k m)⟩

/-- The three ways a key may stand to the first element. -/
theorem Tells.cases (h : Tells lt key S) {a : α} (ha : S a) (hk : S k) :
    (key a < key k ∧ lt a k = true) ∨ (key k < key a ∧ lt a k = false ∧ lt k a = true) ∨
      (a = k ∧ lt a k = false ∧ lt k a = false) := by
  rcases lt_trichotomy (key a) (key k) with hlt | heq | hgt
  · exact Or.inl ⟨hlt, (h.less _ _ ha hk).mpr hlt⟩
  · obtain rfl := h.injective _ _ ha hk heq
    have hno : lt a a = false :=
      Bool.eq_false_iff.mpr fun hc => lt_irrefl _ ((h.less _ _ ha ha).mp hc)
    exact Or.inr (Or.inr ⟨rfl, hno, hno⟩)
  · refine Or.inr (Or.inl ⟨hgt, ?_, (h.less _ _ hk ha).mpr hgt⟩)
    exact Bool.eq_false_iff.mpr fun hc => lt_asymm hgt ((h.less _ _ ha hk).mp hc)

variable [DecidableEq α]

/-- What is behind an element that is passed. -/
theorem Tells.find_cons (h : Tells lt key S) {e : α × β} (hm : Sorted key S (e :: m)) (hj : S j) :
    find lt j (e :: m) = if j = e.1 then some e.2 else find lt j m := by
  have he := hm.keys e List.mem_cons_self
  have hbehind := (List.pairwise_cons.mp hm.order).1
  rcases h.cases he hj with ⟨hlt, hless⟩ | ⟨hgt, hno, hless⟩ | ⟨heq, hno, hno'⟩
  · have hne : j ≠ e.1 := fun hc => lt_irrefl _ (hc ▸ hlt)
    simp [find, hless, hne]
  · have hne : j ≠ e.1 := fun hc => lt_irrefl _ (hc ▸ hgt)
    have hnone := h.find_eq_none hm.tail hj fun f hf => lt_trans hgt (hbehind f hf)
    simp [find, hno, hless, hne, hnone]
  · rw [if_pos heq.symm]
    simp [find, hno, hno']

theorem Tells.find_set (h : Tells lt key S) (hm : Sorted key S m) (hk : S k) (hj : S j) :
    find lt j (set lt k v m) = if j = k then some v else find lt j m := by
  induction m with
  | nil =>
    have hone : Sorted key S [(k, v)] := ⟨by simpa using hk, by simp⟩
    rw [set, h.find_cons hone hj]
  | cons e m ih =>
    have hset := h.sorted_set (v := v) hm hk
    have he := hm.keys e List.mem_cons_self
    rcases h.cases he hk with ⟨hlt, hless⟩ | ⟨hgt, hno, hless⟩ | ⟨heq, hno, hno'⟩
    · have hcons : set lt k v (e :: m) = e :: set lt k v m := by simp [set, hless]
      rw [hcons] at hset ⊢
      rw [h.find_cons hset hj, ih hm.tail, h.find_cons hm hj]
      have hne : e.1 ≠ k := fun hc => lt_irrefl _ (hc ▸ hlt)
      rcases eq_or_ne j e.1 with rfl | hje
      · simp [hne]
      · simp [hje]
    · have hcons : set lt k v (e :: m) = (k, v) :: e :: m := by simp [set, hno, hless]
      rw [hcons] at hset ⊢
      rw [h.find_cons hset hj]
    · have hcons : set lt k v (e :: m) = (e.1, v) :: m := by simp [set, hno, hno']
      rw [hcons] at hset ⊢
      rw [h.find_cons hset hj, h.find_cons hm hj, ← heq]
      rcases eq_or_ne j e.1 with rfl | hje
      · simp
      · simp [hje]

theorem Tells.find_erase (h : Tells lt key S) (hm : Sorted key S m) (hk : S k) (hj : S j) :
    find lt j (ComparatorMap.erase lt k m) = if j = k then none else find lt j m := by
  induction m with
  | nil => simp [ComparatorMap.erase, find]
  | cons e m ih =>
    have herase := hm.erase lt k
    have he := hm.keys e List.mem_cons_self
    have hbehind := (List.pairwise_cons.mp hm.order).1
    rcases h.cases he hk with ⟨hlt, hless⟩ | ⟨hgt, hno, hless⟩ | ⟨heq, hno, hno'⟩
    · have hcons : ComparatorMap.erase lt k (e :: m) = e :: ComparatorMap.erase lt k m := by
        simp [ComparatorMap.erase, hless]
      rw [hcons] at herase ⊢
      rw [h.find_cons herase hj, ih hm.tail, h.find_cons hm hj]
      have hne : e.1 ≠ k := fun hc => lt_irrefl _ (hc ▸ hlt)
      rcases eq_or_ne j e.1 with rfl | hje
      · simp [hne]
      · simp [hje]
    · have hcons : ComparatorMap.erase lt k (e :: m) = e :: m := by
        simp [ComparatorMap.erase, hno, hless]
      have hnone := h.find_eq_none hm hk fun f hf => by
        rcases List.mem_cons.mp hf with rfl | hf
        · exact hgt
        · exact lt_trans hgt (hbehind f hf)
      rw [hcons]
      rcases eq_or_ne j k with rfl | hjk
      · simp [hnone]
      · simp [hjk]
    · have hcons : ComparatorMap.erase lt k (e :: m) = m := by
        simp [ComparatorMap.erase, hno, hno']
      have hnone := h.find_eq_none hm.tail hk fun f hf => heq ▸ hbehind f hf
      rw [hcons, h.find_cons hm hj, ← heq]
      rcases eq_or_ne j e.1 with rfl | hje
      · rw [heq, hnone, if_pos rfl]
      · simp [hje]

/-- The map has what was put in last. -/
theorem Tells.find_run (h : Tells lt key S) (ops : List (Op α β)) (hops : ∀ op ∈ ops, S op.key) :
    Sorted key S (run lt ops) ∧ ∀ j, S j → find lt j (run lt ops) = content ops j := by
  induction ops with
  | nil => exact ⟨⟨by simp [run], by simp [run]⟩, fun _ _ => rfl⟩
  | cons op ops ih =>
    obtain ⟨hsorted, hfind⟩ := ih fun o ho => hops o (List.mem_cons_of_mem _ ho)
    have hkey := hops op List.mem_cons_self
    cases op with
    | set k v =>
      refine ⟨h.sorted_set hsorted hkey, ?_⟩
      intro j hj
      rw [run, h.find_set hsorted (k := k) hkey hj, hfind j hj, content]
    | erase k =>
      refine ⟨hsorted.erase lt k, ?_⟩
      intro j hj
      rw [run, h.find_erase hsorted (k := k) hkey hj, hfind j hj, content]

end

end ComparatorMap

end Loxim
