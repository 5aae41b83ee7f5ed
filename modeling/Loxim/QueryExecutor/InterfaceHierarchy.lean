import Loxim.Lib.Run
import Loxim.QueryExecutor.InterfaceMaps

/-!
# The hierarchy of interfaces stays consistent

The maps of the catalogue hold one relation in both directions. The validity check finds
out whether each interface is derived from interfaces that are there, without a loop.
-/

namespace Loxim.QueryExecutor.InterfaceMaps

open OrderedMap (alter lookup_alter lookup_insert_eq lookup_erase_eq lookup_foldl_alter)
open Relation (ReflTransGen TransGen)

variable {m m' : InterfaceMaps} {s s₀ : Schema} {c p i j name : String}

/-- The interface `p` is a parent of `c`. -/
def HasParent (m : InterfaceMaps) (c p : String) : Prop := p ∈ m.getParents c

theorem hasParent_iff (h : m.nameToHierarchy.lookup c = some info) :
    m.HasParent c p ↔ p ∈ info.parents := by
  unfold HasParent getParents
  rw [h]
  rfl

theorem HasParent.mem (h : m.HasParent c p) : c ∈ m.nameToHierarchy := by
  unfold HasParent getParents at h
  cases hc : m.nameToHierarchy.lookup c with
  | none => simp [hc] at h
  | some info => exact Finmap.mem_of_lookup_eq_some hc

-- ---------------------------------------------------------------------------
-- What the validity check finds out
-- ---------------------------------------------------------------------------

/-- The interface is in the hierarchy, and so are all it is derived from, with no way back. -/
inductive Derived (m : InterfaceMaps) : String → Prop
  | intro {c : String} (hmem : c ∈ m.nameToHierarchy)
    (hparents : ∀ p, m.HasParent c p → Derived m p) : Derived m c

theorem Derived.mem (h : m.Derived c) : c ∈ m.nameToHierarchy := by
  cases h with
  | intro hmem _ => exact hmem

theorem Derived.parent (h : m.Derived c) (hp : m.HasParent c p) : m.Derived p := by
  cases h with
  | intro _ hparents => exact hparents p hp

theorem Derived.acc (h : m.Derived c) : Acc (Function.swap m.HasParent) c := by
  induction h with
  | intro _ _ ih => exact Acc.intro _ fun p hp => ih p hp

/-- Only the parents and the names of the hierarchy matter. -/
theorem Derived.congr (h : m.Derived c) (hmem : ∀ c, c ∈ m.nameToHierarchy → c ∈ m'.nameToHierarchy)
    (hparents : ∀ c p, m'.HasParent c p → m.HasParent c p) : m'.Derived c := by
  induction h with
  | intro hc _ ih => exact Derived.intro (hmem _ hc) fun p hp => ih p (hparents _ _ hp)

theorem derived_of_checkDerivationValidity {n : Nat} {forbidden checked checked' : Finset String}
    (hchecked : ∀ a ∈ checked, m.Derived a)
    (h : m.checkDerivationValidity n c forbidden checked = some checked') :
    (∀ a ∈ checked', m.Derived a) ∧ m.Derived c := by
  induction n generalizing c forbidden checked checked' with
  | zero => cases h
  | succ n ih =>
    rw [checkDerivationValidity] at h
    split at h
    · cases h
    · split at h
      · cases h
      · rename_i info hinfo
        have hloop := foldlM_invariant (fun checked => ∀ a ∈ checked, m.Derived a)
          (fun p => m.Derived p) hchecked
          (fun acc p acc' hacc hstep => by
            obtain ⟨next, hnext, hpure⟩ := Option.bind_eq_some_iff.mp hstep
            obtain ⟨hall, hp⟩ := ih hacc hnext
            cases hpure
            exact ⟨fun a ha => (Finset.mem_insert.mp ha).elim (fun hap => hap ▸ hp) (hall a), hp⟩)
          h
        refine ⟨hloop.1, Derived.intro (Finmap.mem_of_lookup_eq_some hinfo) fun p hp => ?_⟩
        exact hloop.2 p (mem_elements.mpr ((hasParent_iff hinfo).mp hp))

/-- The depth suffices: the forbidden names are those on the way, each in the hierarchy. -/
theorem checkDerivationValidity_of_derived {n : Nat} {forbidden checked : Finset String}
    (h : m.Derived c) (hway : ∀ a, ReflTransGen m.HasParent c a → a ∉ forbidden)
    (hsub : forbidden ⊆ m.nameToHierarchy.keys)
    (hdepth : m.nameToHierarchy.keys.card < n + forbidden.card) :
    ∃ checked', m.checkDerivationValidity n c forbidden checked = some checked' := by
  induction h generalizing n forbidden checked with
  | @intro c hmem hparents ih =>
    cases n with
    | zero =>
      have hle := Finset.card_le_card hsub
      omega
    | succ n =>
      obtain ⟨info, hinfo⟩ := Finmap.mem_iff.mp hmem
      have hc : c ∉ forbidden := hway c .refl
      have hacc : Acc (Function.swap m.HasParent) c := (Derived.intro hmem hparents).acc
      rw [checkDerivationValidity, if_neg hc]
      simp only [hinfo]
      obtain ⟨checked', hrun, _⟩ := @foldlM_runs _ _ (fun checked parentName => do
          let checked ←
            m.checkDerivationValidity n parentName (insert c forbidden) checked
          pure (insert parentName checked))
        (elements info.parents) checked (fun _ => True) trivial fun checked p hp _ => by
          have hcp : m.HasParent c p := (hasParent_iff hinfo).mpr (mem_elements.mp hp)
          have hway' : ∀ a, ReflTransGen m.HasParent p a → a ∉ insert c forbidden := by
            intro a ha hmem
            rcases Finset.mem_insert.mp hmem with rfl | hold
            · have hcycle : TransGen m.HasParent a a := TransGen.head' hcp ha
              exact acyclic_of_acc hacc hcycle
            · exact hway a (ReflTransGen.head hcp ha) hold
          have hsub' : insert c forbidden ⊆ m.nameToHierarchy.keys :=
            Finset.insert_subset (Finmap.mem_keys.mpr hmem) hsub
          have hdepth' : m.nameToHierarchy.keys.card < n + (insert c forbidden).card := by
            rw [Finset.card_insert_of_notMem hc]
            omega
          obtain ⟨next, hnext⟩ := @ih p hcp n (insert c forbidden) checked hway' hsub' hdepth'
          exact ⟨insert p next, by rw [hnext]; rfl, trivial⟩
      exact ⟨checked', hrun⟩

/-- The check finds out whether each interface of the hierarchy is derived. -/
theorem checkHierarchyValidity_iff (hnames : ∀ c ∈ m.nameToHierarchy, m.hasInterface c) :
    m.checkHierarchyValidity = true ↔ ∀ c ∈ m.nameToHierarchy, m.Derived c := by
  unfold checkHierarchyValidity
  constructor
  · intro h c hc
    obtain ⟨checked, hchecked⟩ := Option.isSome_iff_exists.mp h
    have hloop := foldlM_invariant (fun checked => ∀ a ∈ checked, m.Derived a)
      (fun c => m.Derived c) (by simp)
      (fun checked c checked' hacc hstep => by
        unfold checkName at hstep
        split at hstep
        · rename_i hmem
          cases hstep
          exact ⟨hacc, hacc c hmem⟩
        · split at hstep
          · cases hstep
          · exact derived_of_checkDerivationValidity hacc hstep)
      hchecked
    exact hloop.2 c (mem_elements.mpr (Finmap.mem_keys.mpr hc))
  · intro h
    obtain ⟨checked, hchecked, _⟩ := @foldlM_runs _ _ m.checkName
      (elements m.nameToHierarchy.keys) ∅ (fun _ => True) trivial
      fun checked c hc _ => by
        have hmem : c ∈ m.nameToHierarchy := Finmap.mem_keys.mp (mem_elements.mp hc)
        unfold checkName
        split
        · exact ⟨checked, rfl, trivial⟩
        · rw [if_neg (not_not.mpr (hnames c hmem))]
          obtain ⟨checked', h'⟩ := @checkDerivationValidity_of_derived _ _
            (m.nameToHierarchy.keys.card + 1) ∅ checked (h c hmem)
            (fun _ _ => Finset.notMem_empty _) (Finset.empty_subset _) (by simp)
          exact ⟨checked', h', trivial⟩
    exact Option.isSome_iff_exists.mpr ⟨checked, hchecked⟩

-- ---------------------------------------------------------------------------
-- What an insertion changes
-- ---------------------------------------------------------------------------

theorem foldl_addToParent (name : String) (l : List String) (hl : l.Nodup) (m : InterfaceMaps) :
    l.foldl (addToParent name) m = { m with
      nameToHierarchy := (l.foldl (addToParent name) m).nameToHierarchy
      nameToInterfacesExtending := (l.foldl (addToParent name) m).nameToInterfacesExtending } ∧
    (∀ j, (l.foldl (addToParent name) m).nameToHierarchy.lookup j =
      if j ∈ l then (m.nameToHierarchy.lookup j).map (·.addChild name)
      else m.nameToHierarchy.lookup j) ∧
    ∀ j, (l.foldl (addToParent name) m).interfacesExtending j =
      if j ∈ l then insert name (m.interfacesExtending j) else m.interfacesExtending j := by
  induction l generalizing m with
  | nil => simp
  | cons parent l ih =>
    obtain ⟨hparent, hl⟩ := List.nodup_cons.mp hl
    obtain ⟨hrest, hhier, hext⟩ := ih hl (m.addToParent name parent)
    have hone : m.addToParent name parent = { m with
        nameToHierarchy := (m.addToParent name parent).nameToHierarchy
        nameToInterfacesExtending :=
          (m.addToParent name parent).nameToInterfacesExtending } := by
      unfold addToParent
      dsimp only
      split <;> rfl
    have hhier₁ (j : String) : (m.addToParent name parent).nameToHierarchy.lookup j =
        if j = parent then (m.nameToHierarchy.lookup j).map (·.addChild name)
        else m.nameToHierarchy.lookup j := by
      unfold addToParent
      by_cases hmem : parent ∈ m.nameToHierarchy
      · rw [if_pos hmem]
        obtain ⟨info, hinfo⟩ := Finmap.mem_iff.mp hmem
        rw [lookup_alter]
        split
        · rename_i hj
          subst hj
          rw [hinfo]
          rfl
        · rfl
      · rw [if_neg hmem]
        split
        · rename_i hj
          subst hj
          rw [Finmap.lookup_eq_none.mpr hmem]
          rfl
        · rfl
    have hext₁ (j : String) : (m.addToParent name parent).interfacesExtending j =
        if j = parent then insert name (m.interfacesExtending j)
        else m.interfacesExtending j := by
      have hlookup : (m.addToParent name parent).nameToInterfacesExtending.lookup j =
          if j = parent then some (insert name (m.interfacesExtending j))
          else m.nameToInterfacesExtending.lookup j := by
        unfold addToParent
        dsimp only
        split <;> exact lookup_alter _ _ _ _
      unfold interfacesExtending
      rw [hlookup]
      split <;> rfl
    rw [List.foldl_cons]
    refine ⟨?_, fun j => ?_, fun j => ?_⟩
    · exact hrest.trans (by rw [hone])
    · rw [hhier j, hhier₁ j]
      by_cases hj : j = parent
      · subst hj
        simp [hparent]
      · simp [hj]
    · rw [hext j, hext₁ j]
      by_cases hj : j = parent
      · subst hj
        simp [hparent]
      · simp [hj]

section
variable (m s)

theorem propagateHierarchy_eq : m.propagateHierarchy s = { m with
    nameToHierarchy := (m.propagateHierarchy s).nameToHierarchy
    nameToInterfacesExtending := (m.propagateHierarchy s).nameToInterfacesExtending
    nameToSchema := m.nameToSchema.insert s.name s } := by
  obtain ⟨h, _⟩ := foldl_addToParent s.name (elements s.supers) (nodup_elements _) m
  unfold propagateHierarchy
  simp only
  rw [h]

theorem propagateHierarchy_hierarchy (j : String) :
    (m.propagateHierarchy s).nameToHierarchy.lookup j =
      if j = s.name then
        some { parents := s.supers, children := m.interfacesExtending s.name }
      else if j ∈ s.supers then (m.nameToHierarchy.lookup j).map (·.addChild s.name)
      else m.nameToHierarchy.lookup j := by
  obtain ⟨_, h, _⟩ := foldl_addToParent s.name (elements s.supers) (nodup_elements _) m
  unfold propagateHierarchy
  simp only
  rw [lookup_insert_eq]
  split
  · rfl
  · rw [h j]
    simp only [mem_elements]

theorem propagateHierarchy_extending (j : String) :
    (m.propagateHierarchy s).interfacesExtending j =
      if j ∈ s.supers then insert s.name (m.interfacesExtending j)
      else m.interfacesExtending j := by
  obtain ⟨_, _, h⟩ := foldl_addToParent s.name (elements s.supers) (nodup_elements _) m
  unfold propagateHierarchy
  simp only
  unfold interfacesExtending at h ⊢
  rw [h j]
  simp only [mem_elements]

theorem mem_propagateHierarchy :
    j ∈ (m.propagateHierarchy s).nameToHierarchy ↔ j = s.name ∨ j ∈ m.nameToHierarchy := by
  rw [← Finmap.lookup_isSome, propagateHierarchy_hierarchy]
  split
  · rename_i h
    simp [h]
  · rename_i h
    split
    · simp [h, ← Finmap.lookup_isSome]
    · simp [h, ← Finmap.lookup_isSome]

theorem getParents_propagateHierarchy (c : String) :
    (m.propagateHierarchy s).getParents c = if c = s.name then s.supers else m.getParents c := by
  unfold getParents
  rw [propagateHierarchy_hierarchy]
  split
  · rfl
  · split
    · cases m.nameToHierarchy.lookup c <;> rfl
    · rfl

theorem mem_getChildren_propagateHierarchy :
    c ∈ (m.propagateHierarchy s).getChildren p ↔
      if p = s.name then c ∈ m.interfacesExtending s.name
      else c ∈ m.getChildren p ∨ c = s.name ∧ p ∈ s.supers ∧ p ∈ m.nameToHierarchy := by
  unfold getChildren
  rw [propagateHierarchy_hierarchy]
  split
  · rfl
  · split
    · rename_i hp
      cases hlookup : m.nameToHierarchy.lookup p with
      | none =>
        have hmem : p ∉ m.nameToHierarchy := Finmap.lookup_eq_none.mp hlookup
        simp [hmem]
      | some info =>
        have hmem : p ∈ m.nameToHierarchy := Finmap.mem_of_lookup_eq_some hlookup
        simp only [Option.map_some, Option.getD_some, HierarchyInfo.addChild, Finset.mem_insert,
          hp, hmem, and_true]
        exact or_comm
    · rename_i hp
      simp [hp]

end

-- ---------------------------------------------------------------------------
-- What a removal changes
-- ---------------------------------------------------------------------------

section
variable (m name)

theorem withdrawFromHierarchy_hierarchy (j : String) :
    (m.withdrawFromHierarchy name).nameToHierarchy.lookup j =
      if j = name then none
      else if j ∈ m.getParents name then
        some (((m.nameToHierarchy.lookup j).getD {}).removeChild name)
      else m.nameToHierarchy.lookup j := by
  unfold withdrawFromHierarchy
  simp only
  rw [lookup_erase_eq]
  split
  · rfl
  · rw [lookup_foldl_alter (nodup_elements _)]
    simp only [mem_elements]

theorem getParents_withdrawFromHierarchy (c : String) :
    (m.withdrawFromHierarchy name).getParents c = if c = name then ∅ else m.getParents c := by
  unfold getParents
  rw [withdrawFromHierarchy_hierarchy]
  split
  · rfl
  · split
    · cases m.nameToHierarchy.lookup c <;> rfl
    · rfl

theorem mem_getChildren_withdrawFromHierarchy :
    c ∈ (m.withdrawFromHierarchy name).getChildren p ↔
      p ≠ name ∧ c ∈ m.getChildren p ∧ ¬ (c = name ∧ p ∈ m.getParents name) := by
  unfold getChildren
  rw [withdrawFromHierarchy_hierarchy]
  split
  · rename_i h
    simp [h]
  · rename_i h
    split
    · rename_i hp
      cases m.nameToHierarchy.lookup p with
      | none => simp [HierarchyInfo.removeChild]
      | some info => simp [HierarchyInfo.removeChild, h, hp, and_comm]
    · rename_i hp
      simp [h, hp]

/-- The interface is erased where its children are looked up, its parents keep it. -/
theorem withdrawFromHierarchy_extending (hself : name ∉ m.getParents name) (p : String) :
    (m.withdrawFromHierarchy name).interfacesExtending p =
      if p ∈ m.getChildren name then (m.interfacesExtending p).erase name
      else m.interfacesExtending p := by
  unfold withdrawFromHierarchy interfacesExtending
  simp only
  have hchildren : (((elements (m.getParents name)).foldl
      (fun h par => alter h par fun info => (info.getD {}).removeChild name)
      m.nameToHierarchy).lookup name).map HierarchyInfo.children =
        (m.nameToHierarchy.lookup name).map HierarchyInfo.children := by
    rw [lookup_foldl_alter (nodup_elements _), if_neg]
    exact fun h => hself (mem_elements.mp h)
  rw [hchildren, lookup_foldl_alter (nodup_elements _)]
  simp only [mem_elements]
  unfold getChildren
  split <;> rfl

end

-- ---------------------------------------------------------------------------
-- One relation in all maps
-- ---------------------------------------------------------------------------

theorem hasInterface_iff : m.hasInterface i = true ↔ i ∈ m.nameToSchema := Finmap.lookup_isSome

/-- The hierarchy says of the interfaces that are there what their schemas say. -/
structure Linked (m : InterfaceMaps) : Prop where
  entries : ∀ i, i ∈ m.nameToHierarchy ↔ i ∈ m.nameToSchema
  parents : ∀ i s, m.nameToSchema.lookup i = some s → m.getParents i = s.supers
  present : ∀ c p, m.HasParent c p → p ∈ m.nameToSchema
  children : ∀ p c, c ∈ m.getChildren p ↔ m.HasParent c p
  extending : ∀ p c, c ∈ m.interfacesExtending p ↔
    ∃ s, m.nameToSchema.lookup c = some s ∧ p ∈ s.supers
  acyclic : Acyclic m.HasParent

/-- The same with the interface `name` taken out: others may still be derived from it, and it is
still found among those that extend `kept`. -/
structure Dangling (m : InterfaceMaps) (name : String) (kept : Finset String) : Prop where
  entries : ∀ i, i ∈ m.nameToHierarchy ↔ i ∈ m.nameToSchema
  absent : name ∉ m.nameToSchema
  parents : ∀ i s, m.nameToSchema.lookup i = some s → m.getParents i = s.supers
  present : ∀ c p, m.HasParent c p → p = name ∨ p ∈ m.nameToSchema
  children : ∀ p c, p ≠ name → (c ∈ m.getChildren p ↔ m.HasParent c p)
  extending : ∀ p c, c ∈ m.interfacesExtending p ↔
    (∃ s, m.nameToSchema.lookup c = some s ∧ p ∈ s.supers) ∨ c = name ∧ p ∈ kept

theorem acyclic_of_derived (h : ∀ c ∈ m.nameToHierarchy, m.Derived c) : Acyclic m.HasParent := by
  apply Acyclic.of_acc
  intro c
  by_cases hc : c ∈ m.nameToHierarchy
  · exact (h c hc).acc
  · exact Acc.intro _ fun p hp => absurd (HasParent.mem hp) hc

theorem derived_of_valid (hentries : ∀ i, i ∈ m.nameToHierarchy ↔ i ∈ m.nameToSchema) :
    m.checkHierarchyValidity = true ↔ ∀ c ∈ m.nameToHierarchy, m.Derived c :=
  checkHierarchyValidity_iff fun c hc => hasInterface_iff.mpr ((hentries c).mp hc)

theorem hasParent_iff_supers (hentries : ∀ i, i ∈ m.nameToHierarchy ↔ i ∈ m.nameToSchema)
    (hparents : ∀ i s, m.nameToSchema.lookup i = some s → m.getParents i = s.supers) :
    m.HasParent c p ↔ ∃ s, m.nameToSchema.lookup c = some s ∧ p ∈ s.supers := by
  constructor
  · intro h
    obtain ⟨s, hs⟩ := Finmap.mem_iff.mp ((hentries c).mp h.mem)
    refine ⟨s, hs, ?_⟩
    rw [← hparents c s hs]
    exact h
  · rintro ⟨s, hs, hp⟩
    unfold HasParent
    rw [hparents c s hs]
    exact hp

/-- The way up is right, whatever is known of the way down. -/
structure Upward (m : InterfaceMaps) : Prop where
  entries : ∀ i, i ∈ m.nameToHierarchy ↔ i ∈ m.nameToSchema
  parents : ∀ i s, m.nameToSchema.lookup i = some s → m.getParents i = s.supers
  derived : ∀ c ∈ m.nameToHierarchy, m.Derived c

theorem Upward.present (h : m.Upward) (hp : m.HasParent c p) : p ∈ m.nameToSchema :=
  (h.entries p).mp ((h.derived c hp.mem).parent hp).mem

theorem Upward.acyclic (h : m.Upward) : Acyclic m.HasParent := acyclic_of_derived h.derived

theorem Linked.upward (h : m.Linked) : m.Upward where
  entries := h.entries
  parents := h.parents
  derived c hc := by
    have hfinite : {c | ∃ p, m.HasParent c p}.Finite :=
      Set.Finite.subset m.nameToHierarchy.keys.finite_toSet
        fun c hc => Finmap.mem_keys.mpr (HasParent.mem hc.choose_spec)
    induction c using (h.acyclic.wellFounded_of_finite hfinite).induction with
    | _ c ih => exact Derived.intro hc fun p hp => ih p hp ((h.entries p).mpr (h.present c p hp))

theorem Linked.dangling (h : m.Linked) (hname : name ∉ m.nameToSchema) : m.Dangling name ∅ where
  entries := h.entries
  absent := hname
  parents := h.parents
  present c p hp := Or.inr (h.present c p hp)
  children p c _ := h.children p c
  extending p c := by simp [h.extending p c]

theorem nameToSchema_withdraw (m : InterfaceMaps) (name i : String) :
    (m.withdrawFromHierarchy name).nameToSchema.lookup i =
      if i = name then none else m.nameToSchema.lookup i :=
  lookup_erase_eq _ _ _

theorem mem_withdraw (h : m.Upward) :
    i ∈ (m.withdrawFromHierarchy name).nameToHierarchy ↔ i ≠ name ∧ i ∈ m.nameToHierarchy := by
  rw [← Finmap.lookup_isSome, withdrawFromHierarchy_hierarchy]
  split
  · rename_i hi
    simp [hi]
  · rename_i hi
    split
    · rename_i hp
      simp [hi, (h.entries i).mpr (h.present hp)]
    · simp [hi, ← Finmap.lookup_isSome]

theorem hasParent_withdraw :
    (m.withdrawFromHierarchy name).HasParent c p ↔ c ≠ name ∧ m.HasParent c p := by
  unfold HasParent
  rw [getParents_withdrawFromHierarchy]
  split
  · rename_i h
    simp [h]
  · rename_i h
    simp [h]

theorem entries_withdraw (h : m.Upward) (i : String) :
    i ∈ (m.withdrawFromHierarchy name).nameToHierarchy ↔
      i ∈ (m.withdrawFromHierarchy name).nameToSchema := by
  rw [mem_withdraw h, h.entries i, ← Finmap.lookup_isSome, ← Finmap.lookup_isSome,
    nameToSchema_withdraw]
  split
  · rename_i hi
    simp [hi]
  · rename_i hi
    simp [hi]

/-- The interface stays among those that extend its parents. -/
theorem Linked.withdraw (h : m.Linked) (hname : m.nameToSchema.lookup name = some s₀) :
    (m.withdrawFromHierarchy name).Dangling name s₀.supers := by
  have hiff (c p : String) := hasParent_iff_supers (c := c) (p := p) h.entries h.parents
  have hself : name ∉ m.getParents name := fun hp => h.acyclic name (.single hp)
  constructor
  · intro i
    exact entries_withdraw h.upward i
  · rw [← Finmap.lookup_eq_none, nameToSchema_withdraw, if_pos rfl]
  · intro i s hs
    rw [nameToSchema_withdraw] at hs
    rw [getParents_withdrawFromHierarchy]
    split at hs
    · cases hs
    · rename_i hi
      rw [if_neg hi]
      exact h.parents i s hs
  · intro c p hp
    by_cases hpn : p = name
    · exact Or.inl hpn
    · refine Or.inr ?_
      rw [← Finmap.lookup_isSome, nameToSchema_withdraw, if_neg hpn, Finmap.lookup_isSome]
      exact h.present c p (hasParent_withdraw.mp hp).2
  · intro p c hp
    rw [mem_getChildren_withdrawFromHierarchy, hasParent_withdraw, h.children]
    constructor
    · rintro ⟨_, hc, hnot⟩
      refine ⟨?_, hc⟩
      rintro rfl
      exact hnot ⟨rfl, hc⟩
    · rintro ⟨hc, hcp⟩
      exact ⟨hp, hcp, fun hsame => hc hsame.1⟩
  · intro p c
    -- No child of the interface is one of its parents, so it is erased nowhere.
    have hkeep : (m.withdrawFromHierarchy name).interfacesExtending p = m.interfacesExtending p := by
      rw [withdrawFromHierarchy_extending m name hself]
      split
      · rename_i hchild
        apply Finset.erase_eq_of_notMem
        intro hmem
        have hback : m.HasParent name p := (hiff name p).mpr ((h.extending p name).mp hmem)
        exact h.acyclic name (.tail (.single hback) ((h.children name p).mp hchild))
      · rfl
    rw [hkeep, h.extending p c, nameToSchema_withdraw]
    split
    · rename_i hc
      subst hc
      simp [hname]
    · rename_i hc
      simp [hc]

theorem entries_propagateHierarchy
    (h : ∀ i, i ∈ m.nameToHierarchy ↔ i ∈ m.nameToSchema) (i : String) :
    i ∈ (m.propagateHierarchy s).nameToHierarchy ↔ i ∈ (m.propagateHierarchy s).nameToSchema := by
  rw [mem_propagateHierarchy, h i, propagateHierarchy_eq]
  exact Finmap.mem_insert.symm

theorem hasParent_propagateHierarchy : (m.propagateHierarchy s).HasParent c p ↔
    if c = s.name then p ∈ s.supers else m.HasParent c p := by
  unfold HasParent
  rw [getParents_propagateHierarchy]
  split <;> rfl

theorem Dangling.insert (h : m.Dangling s.name kept) (hkept : kept ⊆ s.supers)
    (hvalid : (m.propagateHierarchy s).checkHierarchyValidity = true) :
    (m.propagateHierarchy s).Linked := by
  have hschema (i : String) : (m.propagateHierarchy s).nameToSchema.lookup i =
      if i = s.name then some s else m.nameToSchema.lookup i := by
    rw [propagateHierarchy_eq]
    exact lookup_insert_eq _ _ _ _
  have hentries := entries_propagateHierarchy (s := s) h.entries
  have hderived := (derived_of_valid hentries).mp hvalid
  have hparents (c p : String) := hasParent_propagateHierarchy (m := m) (s := s) (c := c) (p := p)
  have hiff (c p : String) := hasParent_iff_supers (c := c) (p := p) h.entries h.parents
  have hpresent (c p : String) (hp : (m.propagateHierarchy s).HasParent c p) :
      p ∈ (m.propagateHierarchy s).nameToSchema :=
    (hentries p).mp ((hderived c hp.mem).parent hp).mem
  have hacyclic := acyclic_of_derived hderived
  have hself : s.name ∉ s.supers := fun hp =>
    hacyclic s.name (.single ((hparents s.name s.name).mpr (by simpa using hp)))
  have hnot (p : String) : ¬ m.HasParent s.name p := fun hp =>
    h.absent ((h.entries s.name).mp hp.mem)
  refine ⟨hentries, ?_, hpresent, ?_, ?_, hacyclic⟩
  · intro i s' hs'
    rw [hschema] at hs'
    rw [getParents_propagateHierarchy]
    split at hs'
    · rename_i hi
      cases hs'
      rw [if_pos hi]
    · rename_i hi
      rw [if_neg hi]
      exact h.parents i s' hs'
  · intro p c
    rw [mem_getChildren_propagateHierarchy, hparents]
    by_cases hp : p = s.name
    · -- The children are those found to extend the name.
      rw [if_pos hp, h.extending, hp]
      split
      · rename_i hc
        rw [hc, ← hiff]
        have hk : s.name ∉ kept := fun hmem => hself (hkept hmem)
        simp [hnot, hk, hself]
      · rename_i hc
        rw [← hiff]
        simp [hc]
    · rw [if_neg hp, h.children p c hp]
      split
      · rename_i hc
        subst hc
        simp only [true_and]
        constructor
        · rintro (hold | hnew)
          · exact absurd hold (hnot p)
          · exact hnew.1
        · intro hsuper
          have hmem := (mem_propagateHierarchy m s).mp ((hentries p).mpr
            (hpresent s.name p ((hparents s.name p).mpr (by simpa using hsuper))))
          exact Or.inr ⟨hsuper, hmem.resolve_left hp⟩
      · rename_i hc
        simp [hc]
  · intro p c
    rw [propagateHierarchy_extending, hschema]
    by_cases hc : c = s.name
    · subst hc
      rw [if_pos rfl]
      by_cases hp : p ∈ s.supers
      · simp [hp]
      · rw [if_neg hp, h.extending, ← hiff]
        have hk : p ∉ kept := fun hmem => hp (hkept hmem)
        simp [hnot, hk, hp]
    · rw [if_neg hc]
      have hmem : c ∈ (if p ∈ s.supers then Insert.insert s.name (m.interfacesExtending p)
          else m.interfacesExtending p) ↔ c ∈ m.interfacesExtending p := by
        split
        · simp [hc]
        · rfl
      rw [hmem, h.extending]
      simp [hc]

/-- Nothing is derived from the interface and it was derived from nothing. -/
theorem Dangling.linked (h : m.Dangling name ∅) (hvalid : m.checkHierarchyValidity = true) :
    m.Linked := by
  have hderived := (derived_of_valid h.entries).mp hvalid
  have hpresent (c p : String) (hp : m.HasParent c p) : p ∈ m.nameToSchema :=
    (h.entries p).mp ((hderived c hp.mem).parent hp).mem
  refine ⟨h.entries, h.parents, hpresent, ?_, ?_, acyclic_of_derived hderived⟩
  · intro p c
    by_cases hp : p = name
    · subst hp
      have hempty : m.getChildren p = ∅ := by
        have hnone := Finmap.lookup_eq_none.mpr fun hmem => h.absent ((h.entries p).mp hmem)
        unfold getChildren
        rw [hnone]
        rfl
      rw [hempty]
      simp only [Finset.notMem_empty, false_iff]
      exact fun hcp => h.absent (hpresent c p hcp)
    · exact h.children p c hp
  · intro p c
    rw [h.extending]
    simp

-- ---------------------------------------------------------------------------
-- Names of objects
-- ---------------------------------------------------------------------------

/-- The interface declares the name of objects. -/
def Declares (m : InterfaceMaps) (i o : String) : Prop :=
  ∃ s, m.nameToSchema.lookup i = some s ∧ s.associatedObjectName = o

instance : Decidable (m.Declares i o) :=
  decidable_of_iff ((m.nameToSchema.lookup i).map Schema.associatedObjectName = some o)
    Option.map_eq_some_iff

/-- The hierarchy is one relation, and a name of objects leads to the interface with it. -/
structure Consistent (m : InterfaceMaps) : Prop where
  linked : m.Linked
  objects : ∀ o, o ≠ "" → ∀ i, m.objNameToName.lookup o = some i ↔ m.Declares i o

/-- No interface but `s` itself declares the objects of `s`. -/
def FreshObjects (m : InterfaceMaps) (s : Schema) : Prop :=
  s.associatedObjectName ≠ "" → ∀ i, i ≠ s.name → ¬ m.Declares i s.associatedObjectName

instance : Decidable (m.FreshObjects s) :=
  decidable_of_iff
    (s.associatedObjectName ≠ "" →
      ∀ i ∈ m.nameToSchema.keys, i ≠ s.name → ¬ m.Declares i s.associatedObjectName) <| by
    refine ⟨fun h ho i hi hdecl => ?_, fun h ho i _ => h ho i⟩
    obtain ⟨s', hs', hobj⟩ := hdecl
    exact h ho i (Finmap.mem_keys.mpr (Finmap.mem_of_lookup_eq_some hs')) hi ⟨s', hs', hobj⟩

theorem Consistent.declares_unique (h : m.Consistent) (ho : o ≠ "") (hi : m.Declares i o)
    (hj : m.Declares j o) : i = j := by
  have hi' := (h.objects o ho i).mpr hi
  rw [(h.objects o ho j).mpr hj] at hi'
  exact (Option.some.inj hi').symm

/-- The interface is put in, in the place of one of its name or as a new one. -/
theorem objects_insert (h : m.Consistent) (hfresh : m.FreshObjects s)
    (hobj : ∀ o, m'.objNameToName.lookup o =
      if o = s.associatedObjectName then some s.name
      else if m.Declares s.name o then none else m.objNameToName.lookup o)
    (hschema : ∀ i, m'.nameToSchema.lookup i =
      if i = s.name then some s else m.nameToSchema.lookup i) (ho : o ≠ "") :
    m'.objNameToName.lookup o = some i ↔ m'.Declares i o := by
  have hdecl : m'.Declares i o ↔
      if i = s.name then s.associatedObjectName = o else m.Declares i o := by
    unfold Declares
    rw [hschema]
    split
    · simp
    · rfl
  rw [hobj, hdecl]
  by_cases hso : o = s.associatedObjectName
  · subst hso
    rw [if_pos rfl]
    split
    · rename_i hi
      simp [hi]
    · rename_i hi
      simp [hfresh ho i hi, Ne.symm hi]
  · rw [if_neg hso]
    split
    · rename_i hold
      split
      · simp [Ne.symm hso]
      · rename_i hi
        simp only [reduceCtorEq, false_iff]
        exact fun hdecl => hi (h.declares_unique ho hdecl hold)
    · rename_i hold
      rw [h.objects o ho i]
      split
      · rename_i hi
        subst hi
        simp [hold, Ne.symm hso]
      · rfl

theorem objNameToName_propagate (m : InterfaceMaps) (s : Schema) :
    (m.propagateHierarchy s).objNameToName = m.objNameToName := by
  rw [propagateHierarchy_eq]

theorem nameToSchema_propagate (m : InterfaceMaps) (s : Schema) :
    (m.propagateHierarchy s).nameToSchema = m.nameToSchema.insert s.name s := by
  rw [propagateHierarchy_eq]

-- ---------------------------------------------------------------------------
-- The operations
-- ---------------------------------------------------------------------------

/-- An insertion that is kept. -/
def inserted (m : InterfaceMaps) (s : Schema) : InterfaceMaps :=
  { m.propagateHierarchy s with
    cache := {}
    objNameToName :=
      (m.propagateHierarchy s).objNameToName.insert s.associatedObjectName s.name }

/-- A removal that is kept. -/
def removed (m : InterfaceMaps) (name : String) (s : Schema) : InterfaceMaps :=
  { m.withdrawFromHierarchy name with
    bindMap := (m.withdrawFromHierarchy name).bindMap.removeBind name
    objNameToName := (m.withdrawFromHierarchy name).objNameToName.erase s.associatedObjectName
    cache := {} }

theorem insert_eq (checkValidity : Bool)
    (h : checkValidity = false ∨ (m.propagateHierarchy s).checkHierarchyValidity = true) :
    m.insertNewInterfaceAndPropagateHierarchy s checkValidity false = (true, m.inserted s) := by
  unfold insertNewInterfaceAndPropagateHierarchy inserted
  rcases h with h | h
  · simp [h]
  · simp [h]

theorem removeInterfaceFromMaps_false (h : m.nameToSchema.lookup name = some s) :
    m.removeInterfaceFromMaps name false = (none, m.removed name s) := by
  unfold removeInterfaceFromMaps removed
  rw [h]
  simp

/-- Validity is read off the schemas and the hierarchy. -/
theorem checkHierarchyValidity_congr (hhier : m'.nameToHierarchy = m.nameToHierarchy)
    (hschema : m'.nameToSchema = m.nameToSchema) :
    m'.checkHierarchyValidity = m.checkHierarchyValidity := by
  have hderiv (n : Nat) (c : String) (f k : Finset String) :
      m'.checkDerivationValidity n c f k = m.checkDerivationValidity n c f k := by
    induction n generalizing c f k with
    | zero => rfl
    | succ n ih => simp only [checkDerivationValidity, hhier, ih]
  unfold checkHierarchyValidity
  have hname : m'.checkName = m.checkName := by
    funext k c
    have hint : m'.hasInterface c = m.hasInterface c := by
      unfold hasInterface
      rw [hschema]
    unfold checkName
    rw [hint, hhier, hderiv]
  rw [hhier, hname]

theorem checkHierarchyValidity_inserted : (m.inserted s).checkHierarchyValidity =
    (m.propagateHierarchy s).checkHierarchyValidity :=
  checkHierarchyValidity_congr rfl rfl

theorem Linked.congr (h : m.Linked) (hhier : m'.nameToHierarchy = m.nameToHierarchy)
    (hschema : m'.nameToSchema = m.nameToSchema)
    (hext : m'.nameToInterfacesExtending = m.nameToInterfacesExtending) : m'.Linked := by
  obtain ⟨_, _, _, _, _, _⟩ := m
  obtain ⟨_, _, _, _, _, _⟩ := m'
  cases hhier
  cases hschema
  cases hext
  exact ⟨h.entries, h.parents, h.present, h.children, h.extending, h.acyclic⟩

theorem Dangling.congr {kept : Finset String} (h : m.Dangling name kept)
    (hhier : m'.nameToHierarchy = m.nameToHierarchy)
    (hschema : m'.nameToSchema = m.nameToSchema)
    (hext : m'.nameToInterfacesExtending = m.nameToInterfacesExtending) :
    m'.Dangling name kept := by
  obtain ⟨_, _, _, _, _, _⟩ := m
  obtain ⟨_, _, _, _, _, _⟩ := m'
  cases hhier
  cases hschema
  cases hext
  exact ⟨h.entries, h.absent, h.parents, h.present, h.children, h.extending⟩

theorem Consistent.inserted (h : m.Consistent) (hname : s.name ∉ m.nameToSchema)
    (hfresh : m.FreshObjects s)
    (hvalid : (m.propagateHierarchy s).checkHierarchyValidity = true) :
    (m.inserted s).Consistent := by
  have hlinked := (h.linked.dangling hname).insert (Finset.empty_subset _) hvalid
  refine ⟨hlinked.congr rfl rfl rfl, fun o ho i => objects_insert h hfresh ?_ ?_ ho⟩
  · intro o
    have hnone : ¬ m.Declares s.name o := by
      rintro ⟨s', hs', _⟩
      exact hname (Finmap.mem_of_lookup_eq_some hs')
    unfold InterfaceMaps.inserted
    rw [objNameToName_propagate, if_neg hnone]
    exact lookup_insert_eq _ _ _ _
  · intro i
    unfold InterfaceMaps.inserted
    rw [nameToSchema_propagate]
    exact lookup_insert_eq _ _ _ _

theorem Consistent.removed (h : m.Consistent) (hname : m.nameToSchema.lookup name = some s₀)
    (hsupers : s₀.supers = ∅)
    (hvalid : (m.withdrawFromHierarchy name).checkHierarchyValidity = true) :
    (m.removed name s₀).Consistent := by
  have hdangling := h.linked.withdraw hname
  rw [hsupers] at hdangling
  refine ⟨(hdangling.linked hvalid).congr rfl rfl rfl, fun o ho i => ?_⟩
  have hdecl : (m.removed name s₀).Declares i o ↔ i ≠ name ∧ m.Declares i o := by
    unfold Declares InterfaceMaps.removed
    simp only [nameToSchema_withdraw]
    split
    · rename_i hi
      simp [hi]
    · rename_i hi
      simp [hi]
  have hobj : (m.removed name s₀).objNameToName.lookup o =
      if o = s₀.associatedObjectName then none else m.objNameToName.lookup o :=
    lookup_erase_eq _ _ _
  rw [hdecl, hobj]
  split
  · rename_i hso
    simp only [reduceCtorEq, false_iff, not_and]
    intro hi hdecl
    exact hi (h.declares_unique ho hdecl ⟨s₀, hname, hso.symm⟩)
  · rename_i hso
    rw [h.objects o ho i]
    constructor
    · rintro ⟨s', hs', hobj'⟩
      refine ⟨?_, s', hs', hobj'⟩
      rintro rfl
      rw [hname] at hs'
      cases hs'
      exact hso hobj'.symm
    · exact fun hboth => hboth.2

theorem checkIfCanBeInserted_eq (h : s.name ∉ m.nameToSchema) :
    m.checkIfCanBeInserted s = ((m.propagateHierarchy s).checkHierarchyValidity, m) := by
  have hschema : (m.propagateHierarchy s).nameToSchema.erase s.name = m.nameToSchema := by
    rw [nameToSchema_propagate]
    refine Finmap.ext_lookup fun i => ?_
    rw [lookup_erase_eq, lookup_insert_eq]
    split
    · rename_i hi
      rw [hi, Finmap.lookup_eq_none.mpr h]
    · rfl
  unfold checkIfCanBeInserted insertNewInterfaceAndPropagateHierarchy
  simp only [or_true, if_true, hschema]
  rw [propagateHierarchy_eq]

/-- The interface with what it is derived from now in the place of the old one. -/
def replaced (m : InterfaceMaps) (s s₀ : Schema) : InterfaceMaps := (m.removed s.name s₀).inserted s

theorem nameToSchema_replaced (m : InterfaceMaps) (s s₀ : Schema) (i : String) :
    (m.replaced s s₀).nameToSchema.lookup i =
      if i = s.name then some s else m.nameToSchema.lookup i := by
  unfold replaced inserted
  rw [nameToSchema_propagate]
  refine (lookup_insert_eq _ _ _ _).trans ?_
  split
  · rfl
  · rename_i hi
    refine (nameToSchema_withdraw m s.name i).trans ?_
    rw [if_neg hi]

theorem mem_replaced (h : m.Upward) :
    i ∈ (m.replaced s s₀).nameToHierarchy ↔ i = s.name ∨ i ∈ m.nameToHierarchy := by
  have hmem : i ∈ (m.removed s.name s₀).nameToHierarchy ↔ i ≠ s.name ∧ i ∈ m.nameToHierarchy :=
    mem_withdraw h
  refine (mem_propagateHierarchy (m.removed s.name s₀) s).trans ?_
  rw [hmem]
  by_cases hi : i = s.name
  · simp [hi]
  · simp [hi]

theorem hasParent_replaced : (m.replaced s s₀).HasParent c p ↔
    if c = s.name then p ∈ s.supers else m.HasParent c p := by
  refine (hasParent_propagateHierarchy (m := m.removed s.name s₀)).trans ?_
  split
  · rfl
  · rename_i hc
    have hp : (m.removed s.name s₀).HasParent c p ↔ c ≠ s.name ∧ m.HasParent c p :=
      hasParent_withdraw
    simp [hp, hc]

theorem entries_replaced (h : m.Upward) (i : String) :
    i ∈ (m.replaced s s₀).nameToHierarchy ↔ i ∈ (m.replaced s s₀).nameToSchema :=
  entries_propagateHierarchy (m := m.removed s.name s₀) (entries_withdraw h) i

theorem Upward.replaced (h : m.Upward)
    (hvalid : (m.replaced s s₀).checkHierarchyValidity = true) : (m.replaced s s₀).Upward where
  entries := entries_replaced h
  parents i s' hs' := by
    ext p
    refine hasParent_replaced.trans ?_
    rw [nameToSchema_replaced] at hs'
    split at hs'
    · rename_i hi
      cases hs'
      simp [hi]
    · rename_i hi
      rw [if_neg hi, ← h.parents i s' hs']
      rfl
  derived := (derived_of_valid (entries_replaced h)).mp hvalid

/-- An interface put in the place of itself fits where it did. -/
theorem Upward.valid_again (h : m.Upward) (hname : m.nameToSchema.lookup s.name = some s) :
    (m.replaced s s).checkHierarchyValidity = true := by
  have hthere := (h.entries s.name).mpr (Finmap.mem_of_lookup_eq_some hname)
  rw [derived_of_valid (entries_replaced h)]
  intro c hc
  have hc' : c ∈ m.nameToHierarchy := by
    rcases (mem_replaced h).mp hc with rfl | hold
    · exact hthere
    · exact hold
  refine (h.derived c hc').congr (fun c hc => (mem_replaced h).mpr (Or.inr hc)) fun c p hp => ?_
  have hp := hasParent_replaced.mp hp
  split at hp
  · rename_i hcn
    rw [hcn]
    exact (hasParent_iff_supers h.entries h.parents).mpr ⟨s, hname, hp⟩
  · exact hp

/-- A replacement that keeps what the interface was derived from. -/
theorem Consistent.replaced (h : m.Consistent) (hname : m.nameToSchema.lookup s.name = some s₀)
    (hsupers : s₀.supers ⊆ s.supers) (hfresh : m.FreshObjects s)
    (hvalid : (m.replaced s s₀).checkHierarchyValidity = true) :
    (m.replaced s s₀).Consistent := by
  have hdangling : (m.removed s.name s₀).Dangling s.name s₀.supers :=
    (h.linked.withdraw hname).congr rfl rfl rfl
  have hlinked := hdangling.insert hsupers (checkHierarchyValidity_inserted.symm.trans hvalid)
  refine ⟨hlinked.congr rfl rfl rfl, fun o ho i => objects_insert h hfresh ?_ ?_ ho⟩
  · intro o
    have hdecl : m.Declares s.name o ↔ o = s₀.associatedObjectName := by
      unfold Declares
      rw [hname]
      simp [eq_comm]
    unfold InterfaceMaps.replaced InterfaceMaps.inserted
    rw [objNameToName_propagate]
    refine (lookup_insert_eq _ _ _ _).trans ?_
    split
    · rfl
    · simp only [hdecl]
      exact lookup_erase_eq _ _ _
  · exact nameToSchema_replaced m s s₀

theorem FreshObjects.replaced (h : m.FreshObjects s) : (m.replaced s s₀).FreshObjects s := by
  intro ho i hi hdecl
  refine h ho i hi ?_
  obtain ⟨s', hs', hobj⟩ := hdecl
  rw [nameToSchema_replaced, if_neg hi] at hs'
  exact ⟨s', hs', hobj⟩

/-- An interface that is there is replaced twice, once in the check. -/
theorem addInterface_cases (h : m.Upward) {taken : String → Bool} {ct : CreateType}
    (hadd : m.addInterface taken s ct true = (none, m')) :
    (∃ s₀, m.nameToSchema.lookup s.name = some s₀ ∧
      (m.replaced s s₀).checkHierarchyValidity = true ∧ m' = (m.replaced s s₀).replaced s s) ∨
    (s.name ∉ m.nameToSchema ∧ (m.propagateHierarchy s).checkHierarchyValidity = true ∧
      m' = m.inserted s) := by
  unfold InterfaceMaps.addInterface at hadd
  split at hadd
  · cases hadd
  · split at hadd
    · cases hadd
    · split at hadd
      · rename_i hpresent
        obtain ⟨s₀, hs₀⟩ := Option.isSome_iff_exists.mp hpresent
        have hcheck : m.checkIfCanBeReplaced s =
            if ¬ (m.replaced s s₀).checkHierarchyValidity then
              (false, { m.replaced s s₀ with
                nameToInterfacesExtending := m.nameToInterfacesExtending
                nameToHierarchy := m.nameToHierarchy
                bindMap := m.bindMap
                objNameToName := m.objNameToName
                nameToSchema := m.nameToSchema })
            else (true, m.replaced s s₀) := by
          unfold checkIfCanBeReplaced
          rw [removeInterfaceFromMaps_false hs₀]
          simp only
          rw [insert_eq false (Or.inl rfl)]
          rfl
        rw [if_pos rfl, hcheck] at hadd
        by_cases hvalid : (m.replaced s s₀).checkHierarchyValidity = true
        · have hthere : (m.replaced s s₀).nameToSchema.lookup s.name = some s := by
            rw [nameToSchema_replaced, if_pos rfl]
          have hagain := (h.replaced hvalid).valid_again hthere
          rw [if_neg (not_not.mpr hvalid)] at hadd
          simp only [not_true_eq_false, if_false] at hadd
          rw [removeInterfaceFromMaps_false hthere] at hadd
          simp only at hadd
          rw [insert_eq true (Or.inr (checkHierarchyValidity_inserted.symm.trans hagain))] at hadd
          cases hadd
          exact Or.inl ⟨s₀, hs₀, hvalid, rfl⟩
        · rw [if_pos hvalid] at hadd
          simp at hadd
      · rename_i habsent
        have hname : s.name ∉ m.nameToSchema := fun hmem => habsent (hasInterface_iff.mpr hmem)
        rw [if_pos rfl, checkIfCanBeInserted_eq hname] at hadd
        by_cases hvalid : (m.propagateHierarchy s).checkHierarchyValidity = true
        · simp only [hvalid, not_true_eq_false, if_false] at hadd
          rw [insert_eq true (Or.inr hvalid)] at hadd
          cases hadd
          exact Or.inr ⟨hname, hvalid, rfl⟩
        · simp [hvalid] at hadd

theorem Consistent.addInterface (h : m.Consistent) {taken : String → Bool} {ct : CreateType}
    (hfresh : m.FreshObjects s)
    (hsupers : ∀ s₀, m.nameToSchema.lookup s.name = some s₀ → s₀.supers ⊆ s.supers)
    (hadd : m.addInterface taken s ct true = (none, m')) : m'.Consistent := by
  rcases addInterface_cases h.linked.upward hadd with ⟨s₀, hs₀, hvalid, rfl⟩ | ⟨hname, hvalid, rfl⟩
  · have hthere : (m.replaced s s₀).nameToSchema.lookup s.name = some s := by
      rw [nameToSchema_replaced, if_pos rfl]
    have honce := h.replaced hs₀ (hsupers s₀ hs₀) hfresh hvalid
    exact honce.replaced hthere (Finset.Subset.refl _) hfresh.replaced
      (honce.linked.upward.valid_again hthere)
  · exact h.inserted hname hfresh hvalid

theorem Consistent.removeInterface (h : m.Consistent)
    (hsupers : ∀ s₀, m.nameToSchema.lookup name = some s₀ → s₀.supers = ∅)
    (hremove : m.removeInterface name true = (none, m')) : m'.Consistent := by
  unfold InterfaceMaps.removeInterface removeInterfaceFromMaps at hremove
  split at hremove
  · cases hremove
    exact h
  · rename_i s₀ hs₀
    by_cases hvalid : (m.withdrawFromHierarchy name).checkHierarchyValidity = true
    · simp only [hvalid, not_true_eq_false, and_false, if_false] at hremove
      cases hremove
      exact h.removed hs₀ (hsupers s₀ hs₀) hvalid
    · simp [hvalid] at hremove

-- ---------------------------------------------------------------------------
-- Runs
-- ---------------------------------------------------------------------------

inductive HierarchyCall
  | addInterface (taken : String → Bool) (s : Schema) (ct : CreateType)
  | removeInterface (interfaceName : String)

/-- A call that succeeds. -/
def changeHierarchy (m : InterfaceMaps) (call : HierarchyCall) : Option InterfaceMaps :=
  let (errcode, m') :=
    match call with
    | .addInterface taken s ct => m.addInterface taken s ct true
    | .removeInterface interfaceName => m.removeInterface interfaceName true
  if errcode = none then some m' else none

/-- An interface that is replaced keeps what it was derived from, one that is removed was derived
from nothing, and no two interfaces declare the same objects. -/
def Conservative (m : InterfaceMaps) : HierarchyCall → Prop
  | .addInterface _ s _ => m.FreshObjects s ∧
      ∀ s₀ ∈ m.nameToSchema.lookup s.name, s₀.supers ⊆ s.supers
  | .removeInterface name => ∀ s₀ ∈ m.nameToSchema.lookup name, s₀.supers = ∅

instance : DecidablePred m.Conservative
  | .addInterface _ _ _ => inferInstanceAs (Decidable (_ ∧ _))
  | .removeInterface _ => inferInstanceAs (Decidable (∀ _, _))

theorem changeHierarchy_addInterface {taken : String → Bool} {ct : CreateType} :
    m.changeHierarchy (.addInterface taken s ct) = some m' ↔
      m.addInterface taken s ct true = (none, m') := by
  unfold changeHierarchy
  dsimp only
  rcases m.addInterface taken s ct true with ⟨errcode, m₁⟩
  cases errcode <;> simp

theorem changeHierarchy_removeInterface :
    m.changeHierarchy (.removeInterface name) = some m' ↔
      m.removeInterface name true = (none, m') := by
  unfold changeHierarchy
  dsimp only
  rcases m.removeInterface name true with ⟨errcode, m₁⟩
  cases errcode <;> simp

theorem consistent_empty : ({} : InterfaceMaps).Consistent := by
  have hnone (c p : String) : ¬ ({} : InterfaceMaps).HasParent c p := by
    simp [HasParent, getParents]
  refine ⟨⟨fun _ => Iff.rfl, by simp, fun c p h => absurd h (hnone c p), ?_, ?_, ?_⟩, ?_⟩
  · intro p c
    simp [hnone, getChildren]
  · simp [interfacesExtending]
  · intro c hcycle
    obtain ⟨p, hp, _⟩ := TransGen.head'_iff.mp hcycle
    exact hnone c p hp
  · intro o _ i
    simp [Declares]

theorem Consistent.changeHierarchy {call : HierarchyCall} (h : m.Consistent)
    (hcall : m.Conservative call) (hstep : m.changeHierarchy call = some m') : m'.Consistent := by
  cases call with
  | addInterface taken s ct =>
    exact h.addInterface hcall.1 hcall.2 (changeHierarchy_addInterface.mp hstep)
  | removeInterface name =>
    exact h.removeInterface hcall (changeHierarchy_removeInterface.mp hstep)

/-- What an interface was derived from keeps it among those that extend it. -/
theorem mem_extending_replaced (h : m.Linked) (hs₀ : m.nameToSchema.lookup s.name = some s₀)
    (hvalid : (m.replaced s s₀).checkHierarchyValidity = true) (hp : p ∈ s₀.supers) :
    s.name ∈ ((m.replaced s s₀).replaced s s).interfacesExtending p := by
  have hdangling : (m.removed s.name s₀).Dangling s.name s₀.supers :=
    (h.withdraw hs₀).congr rfl rfl rfl
  have hcp : m.HasParent s.name p :=
    (hasParent_iff_supers h.entries h.parents).mpr ⟨s₀, hs₀, hp⟩
  have hgrows (m : InterfaceMaps) (hold : s.name ∈ m.interfacesExtending p) :
      s.name ∈ (m.inserted s).interfacesExtending p := by
    have hext : (m.inserted s).interfacesExtending p =
        (m.propagateHierarchy s).interfacesExtending p := rfl
    rw [hext, propagateHierarchy_extending]
    split
    · exact Finset.mem_insert_self _ _
    · exact hold
  have honce : s.name ∈ (m.replaced s s₀).interfacesExtending p :=
    hgrows _ ((hdangling.extending p s.name).mpr (Or.inr ⟨rfl, hp⟩))
  have hself : s.name ∉ (m.replaced s s₀).getParents s.name := fun hmem =>
    (h.upward.replaced hvalid).acyclic s.name (.single hmem)
  have hnochild : p ∉ (m.replaced s s₀).getChildren s.name := by
    intro hchild
    have hmem := (mem_getChildren_propagateHierarchy (m.removed s.name s₀) s).mp hchild
    rw [if_pos rfl, hdangling.extending] at hmem
    rcases hmem with ⟨s', hs', hback⟩ | ⟨hpn, _⟩
    · have hlookup := (nameToSchema_withdraw m s.name p).symm.trans hs'
      split at hlookup
      · cases hlookup
      · have hback' : m.HasParent p s.name :=
          (hasParent_iff_supers h.entries h.parents).mpr ⟨s', hlookup, hback⟩
        exact h.acyclic p (.tail (.single hback') hcp)
    · rw [hpn] at hcp
      exact h.acyclic s.name (.single hcp)
  refine hgrows _ ?_
  have hkeep : ((m.replaced s s₀).removed s.name s).interfacesExtending p =
      ((m.replaced s s₀).withdrawFromHierarchy s.name).interfacesExtending p := rfl
  rw [hkeep, withdrawFromHierarchy_extending _ _ hself, if_neg hnochild]
  exact honce

/-- Any other call that succeeds leaves the maps inconsistent. -/
theorem Consistent.conservative {call : HierarchyCall} (h : m.Consistent)
    (hstep : m.changeHierarchy call = some m') (h' : m'.Consistent) : m.Conservative call := by
  cases call with
  | addInterface taken s ct =>
    have hcases := addInterface_cases h.linked.upward (changeHierarchy_addInterface.mp hstep)
    have hschema (i : String) : m'.nameToSchema.lookup i =
        if i = s.name then some s else m.nameToSchema.lookup i := by
      rcases hcases with ⟨s₀, _, _, rfl⟩ | ⟨_, _, rfl⟩
      · rw [nameToSchema_replaced, nameToSchema_replaced]
        split <;> rfl
      · unfold InterfaceMaps.inserted
        rw [nameToSchema_propagate]
        exact lookup_insert_eq _ _ _ _
    refine ⟨fun ho i hi hdecl => ?_, fun s₀ hs₀ p hp => ?_⟩
    · obtain ⟨s', hs', hobj⟩ := hdecl
      have hother : m'.Declares i s.associatedObjectName := ⟨s', by rw [hschema, if_neg hi, hs'], hobj⟩
      have hown : m'.Declares s.name s.associatedObjectName := ⟨s, by rw [hschema, if_pos rfl], rfl⟩
      exact hi (h'.declares_unique ho hother hown)
    · rcases hcases with ⟨s₁, hs₁, hvalid, rfl⟩ | ⟨hname, _, _⟩
      · rw [hs₀] at hs₁
        cases hs₁
        have hmem := mem_extending_replaced h.linked hs₀ hvalid hp
        obtain ⟨s', hs', hp'⟩ := (h'.linked.extending p s.name).mp hmem
        rw [hschema, if_pos rfl] at hs'
        cases hs'
        exact hp'
      · exact absurd (Finmap.mem_of_lookup_eq_some hs₀) hname
  | removeInterface name =>
    intro s₀ hs₀
    apply Finset.eq_empty_of_forall_notMem
    intro p hp
    have hremove := changeHierarchy_removeInterface.mp hstep
    have hm' : m' = m.removed name s₀ := by
      unfold InterfaceMaps.removeInterface removeInterfaceFromMaps at hremove
      rw [hs₀] at hremove
      simp only at hremove
      split at hremove
      · cases hremove
      · cases hremove
        rfl
    have hmem : name ∈ m'.interfacesExtending p := by
      rw [hm']
      exact ((h.linked.withdraw hs₀).extending p name).mpr (Or.inr ⟨rfl, hp⟩)
    obtain ⟨s', hs', _⟩ := (h'.linked.extending p name).mp hmem
    have hgone : m'.nameToSchema.lookup name = none := by
      rw [hm']
      exact (nameToSchema_withdraw m name name).trans (if_pos rfl)
    rw [hgone] at hs'
    cases hs'

/-- The maps stay consistent in every run of conservative calls, and any other call that succeeds
on consistent maps makes them inconsistent. -/
theorem hierarchy_consistent (m : InterfaceMaps) :
    (Reaches changeHierarchy Conservative {} m → m.Consistent) ∧
      ∀ call m', m.Consistent → m.changeHierarchy call = some m' →
        (m'.Consistent ↔ m.Conservative call) := by
  constructor
  · intro hm
    exact hm.invariant consistent_empty fun m call m' h hcall hstep => h.changeHierarchy hcall hstep
  · intro call m' h hstep
    exact ⟨fun h' => h.conservative hstep h', fun hcall => h.changeHierarchy hcall hstep⟩

theorem hierarchy_consistent_students :
    ∃ m, Reaches changeHierarchy Conservative {} m ∧ m.Consistent ∧
      m.interfacesExtending "Person" = {"Student"} := by
  obtain ⟨m, hm, hQ⟩ := Reaches.of_play changeHierarchy Conservative {}
    [.addInterface (fun _ => false) { name := "Person", associatedObjectName := "person" } .create,
      .addInterface (fun _ => false) { name := "Thing" } .create,
      .addInterface (fun _ => false)
        { name := "Student", associatedObjectName := "student", supers := {"Person"} } .create,
      .addInterface (fun _ => false)
        { name := "Student", associatedObjectName := "pupil", supers := {"Person"} } .update,
      .removeInterface "Thing"]
    (fun m => m.interfacesExtending "Person" = {"Student"}) (by decide +kernel)
  exact ⟨m, hm, (hierarchy_consistent m).1 hm, of_decide_eq_true hQ⟩

/-- An interface that extended another one is removed, and still extends it. -/
theorem removed_interface_extends :
    ∃ m, Reaches changeHierarchy (fun _ _ => True) {} m ∧ ¬ m.Consistent := by
  obtain ⟨m, hm, hQ⟩ := Reaches.of_play changeHierarchy (fun _ _ => True) {}
    [.addInterface (fun _ => false) { name := "Person", associatedObjectName := "person" } .create,
      .addInterface (fun _ => false)
        { name := "Student", associatedObjectName := "student", supers := {"Person"} } .create,
      .removeInterface "Student"]
    (fun m => "Student" ∈ m.interfacesExtending "Person" ∧
      m.nameToSchema.lookup "Student" = none) (by decide +kernel)
  refine ⟨m, hm, fun hconsistent => ?_⟩
  obtain ⟨hmem, hgone⟩ := of_decide_eq_true hQ
  obtain ⟨s, hs, _⟩ := (hconsistent.linked.extending _ _).mp hmem
  rw [hgone] at hs
  cases hs

end Loxim.QueryExecutor.InterfaceMaps
