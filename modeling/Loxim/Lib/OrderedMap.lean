import Mathlib.Data.Finmap
import Mathlib.Data.List.Sort
import Mathlib.Order.Lattice

/-!
# Ordered sets and maps

A set is gone through in the order of its elements, a map in the order of its keys.
What a loop leaves in a map is read off at one key.
-/

namespace Loxim

section
variable {α : Type} [LinearOrder α]

def elements (s : Finset α) : List α :=
  Quot.liftOn s.val (fun l => l.insertionSort (· ≤ ·)) fun l l' hperm =>
    List.Perm.eq_of_pairwise (fun _ _ _ _ => le_antisymm) (List.pairwise_insertionSort _ l)
      (List.pairwise_insertionSort _ l')
      (((List.perm_insertionSort _ l).trans hperm).trans (List.perm_insertionSort _ l').symm)

theorem coe_elements (s : Finset α) : (elements s : Multiset α) = s.val := by
  obtain ⟨l, hl⟩ := s
  induction l using Quot.inductionOn with
  | h l => exact Quot.sound (List.perm_insertionSort _ l)

@[simp] theorem mem_elements {s : Finset α} {a : α} : a ∈ elements s ↔ a ∈ s := by
  rw [← Multiset.mem_coe, coe_elements]
  rfl

theorem nodup_elements (s : Finset α) : (elements s).Nodup := by
  rw [← Multiset.coe_nodup, coe_elements]
  exact s.nodup

end

abbrev OrderedMap (α β : Type) := Finmap fun _ : α => β

namespace OrderedMap

section
variable {α β : Type} [DecidableEq α] {m : OrderedMap α β} {k j : α} {v w : β}

theorem lookup_insert_eq (m : OrderedMap α β) (k j : α) (v : β) :
    (m.insert k v).lookup j = if j = k then some v else m.lookup j := by
  split
  · rename_i h
    rw [h, Finmap.lookup_insert]
  · rename_i h
    exact Finmap.lookup_insert_of_ne m h

theorem lookup_erase_eq (m : OrderedMap α β) (k j : α) :
    (m.erase k).lookup j = if j = k then none else m.lookup j := by
  split
  · rename_i h
    rw [h, Finmap.lookup_erase]
  · rename_i h
    exact Finmap.lookup_erase_ne h

/-- The value at a key, written back after `f`; a key that is missing is added. -/
def alter (m : OrderedMap α β) (k : α) (f : Option β → β) : OrderedMap α β :=
  m.insert k (f (m.lookup k))

theorem lookup_alter (m : OrderedMap α β) (k j : α) (f : Option β → β) :
    (m.alter k f).lookup j = if j = k then some (f (m.lookup j)) else m.lookup j := by
  unfold alter
  rw [lookup_insert_eq]
  split
  · rename_i h
    rw [h]
  · rfl

/-- A loop that changes the map at the keys it goes through, at each of them in the same way. -/
theorem lookup_foldl_alter {l : List α} (hl : l.Nodup) (m : OrderedMap α β) (f : Option β → β)
    (j : α) :
    (l.foldl (fun m k => m.alter k f) m).lookup j =
      if j ∈ l then some (f (m.lookup j)) else m.lookup j := by
  induction l generalizing m with
  | nil => simp
  | cons k l ih =>
    obtain ⟨hk, hl⟩ := List.nodup_cons.mp hl
    rw [List.foldl_cons, ih hl, lookup_alter]
    by_cases hjk : j = k
    · subst hjk
      simp [hk]
    · simp [hjk]

end

end OrderedMap

-- ---------------------------------------------------------------------------
-- Loops that may stop
-- ---------------------------------------------------------------------------

section
variable {α β : Type} {f : β → α → Option β} {l : List α} {acc acc' : β}

theorem foldlM_isSome (P : α → Prop) (hf : ∀ acc a, (f acc a).isSome ↔ P a) :
    (l.foldlM f acc).isSome ↔ ∀ a ∈ l, P a := by
  induction l generalizing acc with
  | nil => simp
  | cons a l ih =>
    rw [List.foldlM_cons, List.forall_mem_cons, ← hf acc a]
    cases f acc a with
    | none => simp
    | some acc =>
      simp only [Option.bind_eq_bind, Option.bind_some, Option.isSome_some, true_and]
      exact ih

theorem foldlM_runs (I : β → Prop) (hinit : I acc)
    (hf : ∀ acc, ∀ a ∈ l, I acc → ∃ acc', f acc a = some acc' ∧ I acc') :
    ∃ acc', l.foldlM f acc = some acc' ∧ I acc' := by
  induction l generalizing acc with
  | nil => exact ⟨acc, rfl, hinit⟩
  | cons a l ih =>
    obtain ⟨next, hnext, hI⟩ := hf acc a List.mem_cons_self hinit
    rw [List.foldlM_cons, hnext]
    exact ih hI fun acc b hb => hf acc b (List.mem_cons_of_mem a hb)

theorem foldlM_invariant (I : β → Prop) (P : α → Prop) (hinit : I acc)
    (hf : ∀ acc a acc', I acc → f acc a = some acc' → I acc' ∧ P a)
    (h : l.foldlM f acc = some acc') : I acc' ∧ ∀ a ∈ l, P a := by
  induction l generalizing acc with
  | nil =>
    cases h
    exact ⟨hinit, fun _ ha => absurd ha List.not_mem_nil⟩
  | cons a l ih =>
    rw [List.foldlM_cons] at h
    obtain ⟨next, hnext, hrest⟩ := Option.bind_eq_some_iff.mp h
    obtain ⟨hI, ha⟩ := hf acc a next hinit hnext
    obtain ⟨hI', hl⟩ := ih hI hrest
    exact ⟨hI', List.forall_mem_cons.mpr ⟨ha, hl⟩⟩

end

end Loxim
