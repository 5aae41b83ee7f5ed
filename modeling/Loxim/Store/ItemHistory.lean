import Mathlib.Data.List.Perm.Basic
import Loxim.Store.NamedItems

/-!
# What a transaction is to see of the named items

An item has the transaction that added it and the one that removed it, with the
times at which these committed. A reader is to see the items of its snapshot; the
file has no entry for what happened to an item before, and one field for who is
changing it.
-/

namespace Loxim.Store

structure Item where
  lid : Nat
  names : List (List (BitVec 8))
  adder : Nat
  added : Option Nat := none
  remover : Option Nat := none
  removed : Option Nat := none
  deriving DecidableEq

namespace Item

/-- In the snapshot of a transaction: the addition was committed by then or is its
own, and the item was not removed by it nor by one that committed before. -/
def Visible (t b : Nat) (i : Item) : Prop :=
  (i.added = none ∧ i.adder = t ∨ ∃ c ∈ i.added, c ≤ b) ∧ i.remover ≠ some t ∧
    ∀ c ∈ i.removed, ¬ c < b

instance (t b : Nat) (i : Item) : Decidable (Visible t b i) := inferInstanceAs (Decidable (_ ∧ _ ∧ _))

/-- An item that the transaction adds and removes was never there. -/
def remove (t lid : Nat) (i : Item) : Option Item :=
  if i.lid = lid ∧ i.remover = none ∧ (i.added ≠ none ∨ i.adder = t) then
    if i.added = none then none else some { i with remover := some t }
  else some i

def commit (t now : Nat) (i : Item) : Item :=
  { i with
    added := if i.added = none ∧ i.adder = t then some now else i.added
    removed := if i.removed = none ∧ i.remover = some t then some now else i.removed }

def abort (t : Nat) (i : Item) : Option Item :=
  if i.added = none ∧ i.adder = t then none
  else if i.removed = none ∧ i.remover = some t then some { i with remover := none }
  else some i

/-- Only what is committed is removed by others. -/
structure Wf (i : Item) : Prop where
  removed : i.remover = none → i.removed = none
  added : i.added = none → i.remover = none

/-- The entry of an item, with the transactions' timestamps. -/
def entry (ts : Nat → Nat) (i : Item) : IxEntry where
  lid := i.lid
  names := i.names
  curTran := if i.added = none then some i.adder else if i.removed = none then i.remover else none
  addT := i.added.getD (ts i.adder)
  delT := i.remover.map fun u => i.removed.getD (ts u)

end Item

/-- A file beside the items it stands for. -/
structure ItemHistory where
  file : NamedItems := {}
  items : List Item := []

namespace ItemHistory

open NamedItems

variable {k : ItemKind} {s s' : ItemHistory} {ts : Nat → Nat} {ev : Event} {i : Item} {t now lid : Nat}

def callItems (k : ItemKind) (t : Nat) (items : List Item) : Call → List Item
  | .addItem lid names => if k.Accepts names then items ++ [{ lid, names, adder := t }] else items
  | .removeItem lid => items.filterMap (Item.remove t lid)

def nextItems (k : ItemKind) (items : List Item) : Event → List Item
  | .call t c => callItems k t.id items c
  | .commit tid now => items.map (Item.commit tid now)
  | .abort tid _ => items.filterMap (Item.abort tid)

def step (k : ItemKind) (s : ItemHistory) (ev : Event) : Option ItemHistory :=
  (s.file.step k ev).map fun file => { file, items := nextItems k s.items ev }

/-- A transaction has one timestamp. -/
def Timed (ts : Nat → Nat) : Event → Prop
  | .call t _ => t.timeStamp = ts t.id
  | .commit _ _ | .abort _ _ => True

-- ---------------------------------------------------------------------------
-- The entries stand for the items
-- ---------------------------------------------------------------------------

structure Agrees (ts : Nat → Nat) (s : ItemHistory) : Prop where
  wf : ∀ i ∈ s.items, i.Wf
  perm : s.file.entries.Perm (s.items.map (Item.entry ts))

theorem entry_standing (hi : i.Wf) : Standing t (i.entry ts) ↔
    i.remover = none ∧ (i.added ≠ none ∨ i.adder = t) := by
  cases hr : i.remover with
  | some u => simp [Standing, Item.entry, hr]
  | none =>
    have hremoved := hi.removed hr
    cases ha : i.added with
    | none => simp [Standing, Item.entry, hr, ha]
    | some c => simp [Standing, Item.entry, hr, ha]

/-- What `removeItem` does to an entry of the id that is standing. -/
def removeEntry (t : TransactionID) (lid : Nat) (e : IxEntry) : Option IxEntry :=
  if e.lid = lid ∧ Standing t.id e then
    if e.curTran = none then some { e with curTran := some t.id, delT := some t.timeStamp } else none
  else some e

theorem filterMap_removeEntry {l : List IxEntry} {t : TransactionID}
    (h : ∀ e ∈ l, e.lid = lid → ¬ Standing t.id e) : l.filterMap (removeEntry t lid) = l := by
  refine (List.filterMap_congr fun e he => ?_).trans List.filterMap_some
  rw [removeEntry, if_neg fun hx => h e he hx.1 hx.2]

theorem removeItem_entries {f : NamedItems} {t : TransactionID}
    (h : Removable t.id lid f.entries) :
    (f.removeItem t lid).entries = f.entries.filterMap (removeEntry t lid) := by
  rcases entries_removeItem h with ⟨hsame, hall⟩ | ⟨A, e, B, hf, he, hstanding, hgone, hremove⟩
  · rw [hsame, filterMap_removeEntry fun e he hlid => absurd hlid (hall e he)]
  · have hrest (l : List IxEntry) (hl : ∀ e' ∈ l, e' ∈ A ++ B) :
        l.filterMap (removeEntry t lid) = l :=
      filterMap_removeEntry fun e' he' hlid hs => (hgone e' (hl e' he') hlid).1 hs.1
    rw [hremove, hf, List.filterMap_append, hrest A fun e' he' => List.mem_append_left _ he',
      List.append_assoc]
    congr 1
    by_cases hcur : e.curTran = none
    · rw [List.filterMap_cons_some (b := { e with curTran := some t.id, delT := some t.timeStamp })
        (by simp [removeEntry, he, hstanding, hcur]), hrest B fun e' he' => List.mem_append_right _ he',
        if_pos hcur, List.singleton_append]
    · rw [List.filterMap_cons_none (by simp [removeEntry, he, hstanding, hcur]),
        hrest B fun e' he' => List.mem_append_right _ he', if_neg hcur, List.nil_append]

theorem removeEntry_entry {t : TransactionID} (hi : i.Wf) (ht : t.timeStamp = ts t.id) :
    removeEntry t lid (i.entry ts) = (i.remove t.id lid).map (Item.entry ts) := by
  have hiff : (i.entry ts).lid = lid ∧ Standing t.id (i.entry ts) ↔
      i.lid = lid ∧ i.remover = none ∧ (i.added ≠ none ∨ i.adder = t.id) :=
    and_congr_right fun _ => entry_standing hi
  unfold removeEntry Item.remove
  by_cases h : i.lid = lid ∧ i.remover = none ∧ (i.added ≠ none ∨ i.adder = t.id)
  · have hremoved := hi.removed h.2.1
    rw [if_pos (hiff.mpr h), if_pos h]
    cases ha : i.added with
    | none => simp [Item.entry, ha]
    | some c => simp [Item.entry, ha, h.2.1, hremoved, ht]
  · rw [if_neg fun hx => h (hiff.mp hx), if_neg h]
    rfl

theorem modifyEntry_commit (hi : i.Wf) :
    modifyEntry t now .commit (i.entry ts) = some ((i.commit t now).entry ts) := by
  have hadded := hi.added
  have hremoved := hi.removed
  cases ha : i.added with
  | none =>
    have hr := hadded ha
    have hd := hremoved hr
    by_cases ht : i.adder = t
    · simp [modifyEntry, Item.entry, Item.commit, ha, hr, hd, ht]
    · simp [modifyEntry, Item.entry, Item.commit, ha, hr, hd, ht]
  | some c =>
    cases hd : i.removed with
    | some d => simp [modifyEntry, Item.entry, Item.commit, ha, hd]
    | none =>
      by_cases hr : i.remover = some t
      · simp [modifyEntry, Item.entry, Item.commit, ha, hr, hd]
      · simp [modifyEntry, Item.entry, Item.commit, ha, hr, hd]

theorem modifyEntry_abort (hi : i.Wf) :
    modifyEntry t now .abort (i.entry ts) = (i.abort t).map (Item.entry ts) := by
  have hadded := hi.added
  have hremoved := hi.removed
  cases ha : i.added with
  | none =>
    have hr := hadded ha
    by_cases ht : i.adder = t
    · simp [modifyEntry, Item.entry, Item.abort, ha, hr, ht]
    · simp [modifyEntry, Item.entry, Item.abort, ha, hr, ht]
  | some c =>
    cases hd : i.removed with
    | some d => simp [modifyEntry, Item.entry, Item.abort, ha, hd]
    | none =>
      by_cases hr : i.remover = some t
      · simp [modifyEntry, Item.entry, Item.abort, ha, hr, hd]
      · simp [modifyEntry, Item.entry, Item.abort, ha, hr, hd]

theorem wf_remove {i' : Item} (hi : i.Wf) (h : i.remove t lid = some i') : i'.Wf := by
  unfold Item.remove at h
  split at h
  · split at h
    · cases h
    · rename_i hadded
      cases h
      exact ⟨nofun, fun hnone => absurd hnone hadded⟩
  · cases h
    exact hi

theorem wf_commit (hi : i.Wf) : (i.commit t now).Wf := by
  refine ⟨fun hr => ?_, fun ha => ?_⟩
  · have hr' : i.remover = none := hr
    simp [Item.commit, hr', hi.removed hr']
  · simp only [Item.commit] at ha
    split at ha
    · cases ha
    · exact hi.added ha

theorem wf_abort {i' : Item} (hi : i.Wf) (h : i.abort t = some i') : i'.Wf := by
  unfold Item.abort at h
  split at h
  · cases h
  · split at h
    · rename_i hremoved
      cases h
      exact ⟨fun _ => hremoved.1, fun _ => rfl⟩
    · cases h
      exact hi

/-- Entries and items that are changed one by one in the same way. -/
theorem perm_filterMap {l : List IxEntry} {items : List Item} {F : IxEntry → Option IxEntry}
    {G : Item → Option Item} (h : l.Perm (items.map (Item.entry ts)))
    (hFG : ∀ i ∈ items, F (i.entry ts) = (G i).map (Item.entry ts)) :
    (l.filterMap F).Perm ((items.filterMap G).map (Item.entry ts)) := by
  refine (h.filterMap F).trans (List.Perm.of_eq ?_)
  rw [List.filterMap_map, List.map_filterMap]
  exact List.filterMap_congr hFG

theorem Agrees.step (h : s.Agrees ts) (hready : s.file.Ready ev) (htimed : Timed ts ev)
    (hs : s.step k ev = some s') : s'.Agrees ts := by
  obtain ⟨f, hf, rfl⟩ := Option.map_eq_some_iff.mp hs
  cases ev with
  | call t c =>
    cases hf
    cases c with
    | addItem lid names =>
      by_cases hk : k.Accepts names
      · obtain ⟨A, B, hentries, hadd⟩ := entries_addItem s.file t lid hk
        have hitems : nextItems k s.items (.call t (.addItem lid names)) =
            s.items ++ [{ lid, names, adder := t.id }] := if_pos hk
        refine ⟨fun i hi => ?_, ?_⟩
        · rw [hitems] at hi
          rcases List.mem_append.mp hi with hi | hi
          · exact h.wf i hi
          · rw [List.mem_singleton.mp hi]
            exact ⟨fun _ => rfl, fun _ => rfl⟩
        · have hone : Item.entry ts { lid, names, adder := t.id } = createEntry t lid names := by
            simp [Item.entry, createEntry, htimed.symm]
          show ((s.file.addItem k t lid names).1.entries).Perm _
          rw [hadd, hitems, List.map_append, List.map_singleton, hone]
          refine List.perm_middle.trans ?_
          rw [← hentries]
          exact (h.perm.cons _).trans (List.perm_append_singleton _ _).symm
      · have hfile : NamedItems.call k t s.file (.addItem lid names) = s.file := by
          rw [NamedItems.call, addItem, if_neg hk]
        have hitems : nextItems k s.items (.call t (.addItem lid names)) = s.items := if_neg hk
        rw [hfile, hitems]
        exact h
    | removeItem lid =>
      refine ⟨fun i' hi' => ?_, ?_⟩
      · obtain ⟨i, hi, hremove⟩ := List.mem_filterMap.mp hi'
        exact wf_remove (h.wf i hi) hremove
      · show ((s.file.removeItem t lid).entries).Perm _
        rw [removeItem_entries hready]
        exact perm_filterMap h.perm fun i hi => removeEntry_entry (h.wf i hi) htimed
  | commit tid now =>
    cases hf
    refine ⟨fun i' hi' => ?_, ?_⟩
    · obtain ⟨i, hi, rfl⟩ := List.mem_map.mp hi'
      exact wf_commit (h.wf i hi)
    · show ((s.file.modifyTransaction tid now .commit).entries).Perm _
      rw [entries_modifyTransaction]
      have hperm := perm_filterMap (F := modifyEntry tid now .commit)
        (G := fun i => some (i.commit tid now)) h.perm fun i hi => modifyEntry_commit (h.wf i hi)
      rwa [List.filterMap_eq_map'] at hperm
  | abort tid now =>
    cases hf
    refine ⟨fun i' hi' => ?_, ?_⟩
    · obtain ⟨i, hi, habort⟩ := List.mem_filterMap.mp hi'
      exact wf_abort (h.wf i hi) habort
    · show ((s.file.modifyTransaction tid now .abort).entries).Perm _
      rw [entries_modifyTransaction]
      exact perm_filterMap h.perm fun i hi => modifyEntry_abort (h.wf i hi)

-- ---------------------------------------------------------------------------
-- What is read
-- ---------------------------------------------------------------------------

/-- Whoever removes an item hides it. -/
theorem shown_entry (hi : i.Wf) :
    shown ⟨t, ts t⟩ (i.entry ts) = decide (i.Visible t (ts t) ∧ i.remover = none) := by
  rw [Bool.eq_iff_iff]
  cases hr : i.remover with
  | some u => simp [shown, Item.entry, hr]
  | none =>
    have hd := hi.removed hr
    cases ha : i.added with
    | none =>
      by_cases ht : i.adder = t
      · simp [shown, Item.entry, Item.Visible, hr, ha, hd, ht]
      · simp [shown, Item.entry, Item.Visible, hr, ha, hd, ht]
    | some c => simp [shown, Item.entry, Item.Visible, hr, ha, hd]

theorem getItems_perm (h : s.Agrees ts) : (s.file.getItems ⟨t, ts t⟩).Perm
    ((s.items.filter fun i => i.Visible t (ts t) ∧ i.remover = none).map Item.lid) := by
  have hget : s.file.getItems ⟨t, ts t⟩ =
      (s.file.entries.filter (shown ⟨t, ts t⟩)).map IxEntry.lid := by
    simp [getItems, getItemsByAnything, findByName]
  rw [hget]
  refine ((h.perm.filter _).map _).trans (List.Perm.of_eq ?_)
  rw [List.filter_map, List.map_map]
  have hfilter : s.items.filter (shown ⟨t, ts t⟩ ∘ Item.entry ts) =
      s.items.filter fun i => i.Visible t (ts t) ∧ i.remover = none :=
    List.filter_congr fun i hi => shown_entry (h.wf i hi)
  rw [hfilter]
  rfl

instance (f : NamedItems) : DecidablePred f.Ready
  | .call t c => inferInstanceAs (Decidable (Met t f c))
  | .commit _ _ | .abort _ _ => .isTrue trivial

instance (ts : Nat → Nat) : DecidablePred (Timed ts)
  | .call t _ => inferInstanceAs (Decidable (t.timeStamp = ts t.id))
  | .commit _ _ | .abort _ _ => .isTrue trivial

end ItemHistory

end Loxim.Store
