import Loxim.QueryExecutor.InterfaceBinding

/-!
# Binds that lead back

The walks along the binds return as long as no interface is bound to one that is, or was,
bound to it through others. Everything but a bind only takes binds away.
-/

namespace Loxim.QueryExecutor

open Relation (ReflTransGen)

variable {m m' : InterfaceMaps} {b b' : BindMap} {imps : Implementations} {n : Nat}
  {i j imp obj : String} {s : Schema}

-- ---------------------------------------------------------------------------
-- Binds that are taken away
-- ---------------------------------------------------------------------------

namespace BindMap

/-- Binds may be gone, and none is new. -/
structure Shrinks (b b' : BindMap) : Prop where
  shown : ∀ j i, b'.Shown j i → b.Shown j i
  listed : b.Listed → b'.Listed

theorem Shrinks.refl (b : BindMap) : b.Shrinks b := ⟨fun _ _ => id, id⟩

theorem Shrinks.trans {b'' : BindMap} (h : b.Shrinks b') (h' : b'.Shrinks b'') : b.Shrinks b'' :=
  ⟨fun j i hij => h.shown j i (h'.shown j i hij), fun hb => h'.listed (h.listed hb)⟩

theorem shrinks_removeBind (b : BindMap) : b.Shrinks (b.removeBind i) :=
  ⟨fun _ _ h => (shown_removeBind.mp h).1, Listed.removeBind⟩

theorem shrinks_foldl_removeBind (b : BindMap) (l : List String) :
    b.Shrinks (l.foldl removeBind b) :=
  ⟨(foldl_removeBind l b).1, (foldl_removeBind l b).2.1⟩

theorem shrinks_removeEntries (b : BindMap) : b.Shrinks (b.removeEntriesForImplementation imp) :=
  ⟨fun _ _ => shown_of_removeEntriesForImplementation, Listed.removeEntriesForImplementation⟩

theorem shrinks_changeObjectName (b : BindMap) :
    b.Shrinks (b.changeObjectNameForImplementation imp obj) :=
  ⟨fun _ _ => id, Listed.changeObjectName⟩

/-- Both maps hold the same binds, and following them leads nowhere twice. -/
structure Sound (b : BindMap) : Prop where
  listed : b.Listed
  acyclic : Acyclic b.Shown

theorem Sound.shrinks (h : b.Sound) (hb : b.Shrinks b') : b'.Sound :=
  ⟨hb.listed h.listed, h.acyclic.mono hb.shown⟩

end BindMap

namespace InterfaceMaps

open BindMap (Shrinks)

theorem bindMap_insert (checkValidity tryOnly : Bool) :
    (m.insertNewInterfaceAndPropagateHierarchy s checkValidity tryOnly).2.bindMap = m.bindMap := by
  unfold insertNewInterfaceAndPropagateHierarchy
  dsimp only
  split <;> rw [propagateHierarchy_eq]

theorem shrinks_removeInterfaceFromMaps (m : InterfaceMaps) (checkValidity : Bool) :
    m.bindMap.Shrinks (m.removeInterfaceFromMaps i checkValidity).2.bindMap := by
  unfold removeInterfaceFromMaps
  split
  · exact Shrinks.refl _
  · dsimp only
    split
    · exact Shrinks.refl _
    · exact m.bindMap.shrinks_removeBind

theorem shrinks_checkIfCanBeReplaced (m : InterfaceMaps) :
    m.bindMap.Shrinks (m.checkIfCanBeReplaced s).2.bindMap := by
  unfold checkIfCanBeReplaced
  dsimp only
  split
  · exact Shrinks.refl _
  · rw [bindMap_insert]
    exact m.shrinks_removeInterfaceFromMaps false

theorem shrinks_addInterface (m : InterfaceMaps) (taken : String → Bool) (ct : CreateType)
    (checkValidity : Bool) :
    m.bindMap.Shrinks (m.addInterface taken s ct checkValidity).2.bindMap := by
  have hcheck : m.bindMap.Shrinks
      (if checkValidity then m.checkIfCanBeReplaced s else (true, m)).2.bindMap := by
    split
    · exact m.shrinks_checkIfCanBeReplaced
    · exact Shrinks.refl _
  have htry : (if checkValidity then m.checkIfCanBeInserted s else (true, m)).2.bindMap =
      m.bindMap := by
    split
    · exact bindMap_insert true true
    · rfl
  unfold addInterface
  split
  · exact Shrinks.refl _
  · split
    · exact Shrinks.refl _
    · split
      · dsimp only
        generalize (if checkValidity then m.checkIfCanBeReplaced s else (true, m)) = r at hcheck ⊢
        split
        · exact hcheck
        · rw [bindMap_insert]
          exact hcheck.trans (shrinks_removeInterfaceFromMaps _ false)
      · dsimp only
        generalize (if checkValidity then m.checkIfCanBeInserted s else (true, m)) = r at htry ⊢
        split
        · rw [htry]
          exact Shrinks.refl _
        · rw [bindMap_insert, htry]
          exact Shrinks.refl _

theorem shrinks_removeBinds (m : InterfaceMaps) (l : Finset String) :
    m.bindMap.Shrinks (m.removeBinds l).bindMap :=
  m.bindMap.shrinks_foldl_removeBind _

theorem shrinks_implementationUpdated {unset : String → Bool} {t : BindType}
    (h : m.implementationUpdated imps unset n imp obj t = some m') :
    m.bindMap.Shrinks m'.bindMap := by
  obtain ⟨affected, _, hrest⟩ := Option.bind_eq_some_iff.mp h
  cases hrest
  exact (m.shrinks_removeBinds affected).trans (BindMap.shrinks_changeObjectName _)

theorem shrinks_implementationRemoved (h : m.implementationRemoved n imp = some m') :
    m.bindMap.Shrinks m'.bindMap := by
  obtain ⟨affected, _, hrest⟩ := Option.bind_eq_some_iff.mp h
  cases hrest
  exact (m.shrinks_removeBinds affected).trans (BindMap.shrinks_removeEntries _)

-- ---------------------------------------------------------------------------
-- The walks return
-- ---------------------------------------------------------------------------

/-- No interface is bound to itself through others, and the walks along the binds return. -/
structure WalksReturn (m : InterfaceMaps) : Prop where
  acyclic : Acyclic m.bindMap.BoundTo
  final : ∀ i, ∃ n, (m.bindMap.getImpForInterface true n i).isSome
  names : ∀ i, ∃ n, (m.bindMap.getAllBoundNames n i).isSome
  validate : ∀ imps unset i, ∃ n, (m.validateInterfaceBind imps unset n i).isSome

theorem validateInterfaceBind_succ {unset : String → Bool}
    (h : ∀ j, m.bindMap.BoundTo i j → (m.validateInterfaceBind imps unset n j).isSome) :
    (m.validateInterfaceBind imps unset (n + 1) i).isSome := by
  rw [validateInterfaceBind]
  split
  · rfl
  · rename_i info hinfo
    split
    · rfl
    · split
      · rename_i htype
        exact h info.name ((BindMap.boundTo_iff hinfo).mpr ⟨htype, rfl⟩)
      · rfl

theorem walksReturn_iff (h : m.bindMap.Listed) : m.WalksReturn ↔ Acyclic m.bindMap.Shown := by
  constructor
  · exact fun hreturn => BindMap.getAllBoundNames_returns.mp hreturn.names
  · intro hacyclic
    have hbound := h.acyclic hacyclic
    refine ⟨hbound, BindMap.getImpForInterface_returns.mpr hbound,
      BindMap.getAllBoundNames_returns.mpr hacyclic, fun imps unset i => ?_⟩
    have hall := eventually_of_wellFounded
      (hbound.wellFounded_of_finite m.bindMap.finite_boundTo) m.bindMap.finite_boundTo_self
      (P := fun i n => (m.validateInterfaceBind imps unset n i).isSome)
      (fun i n hstep => validateInterfaceBind_succ hstep) i
    exact hall.exists

-- ---------------------------------------------------------------------------
-- Runs
-- ---------------------------------------------------------------------------

inductive BindCall
  | hierarchy (call : HierarchyCall)
  | bindInterface (imps : Implementations)
    (interfaceOrObjectName implementationOrObjectName : String)
  | implementationUpdated (imps : Implementations) (unset : String → Bool) (n : Nat)
    (implementationName objectName : String) (t : BindType)
  | implementationRemoved (n : Nat) (implementationName : String)

/-- A call that succeeds; `n` is how deep the stack is. -/
def changeBinds (m : InterfaceMaps) : BindCall → Option InterfaceMaps
  | .hierarchy call => m.changeHierarchy call
  | .bindInterface imps interface implementation =>
    (m.bindInterface imps interface implementation).toOption.map Prod.snd
  | .implementationUpdated imps unset n implementation obj t =>
    m.implementationUpdated imps unset n implementation obj t
  | .implementationRemoved n implementation => m.implementationRemoved n implementation

/-- An interface is not bound to one that is bound to it, or once was, through others; the one it
is bound to is not itself. -/
def LeadsNotBack (m : InterfaceMaps) : BindCall → Prop
  | .bindInterface imps interface implementation =>
    ∀ s t s', m.getInterfaceForInterfaceOrObjectName interface = some s →
      m.getImplementationForName imps implementation = some (t, s') →
      m.fits imps s.name s'.name t = .ok true → ¬ ReflTransGen m.bindMap.Shown s.name s'.name
  | _ => True

theorem shrinks_changeHierarchy {call : HierarchyCall} (h : m.changeHierarchy call = some m') :
    m.bindMap.Shrinks m'.bindMap := by
  cases call with
  | addInterface taken s ct =>
    have hadd := changeHierarchy_addInterface.mp h
    have hshrinks := m.shrinks_addInterface (s := s) taken ct true
    rw [hadd] at hshrinks
    exact hshrinks
  | removeInterface name =>
    have hremove := changeHierarchy_removeInterface.mp h
    have hshrinks := m.shrinks_removeInterfaceFromMaps (i := name) true
    unfold removeInterface at hremove
    rw [hremove] at hshrinks
    exact hshrinks

/-- A bind that is made, or nothing when the members do not fit. -/
theorem bindInterface_cases {interface implementation : String}
    (h : m.changeBinds (.bindInterface imps interface implementation) = some m') :
    m' = m ∧ m.LeadsNotBack (.bindInterface imps interface implementation) ∨
      ∃ s t s', m.getInterfaceForInterfaceOrObjectName interface = some s ∧
      m.getImplementationForName imps implementation = some (t, s') ∧
      m.fits imps s.name s'.name t = .ok true ∧
      m' = { m with bindMap := m.bindMap.addBind s.name s'.name s'.associatedObjectName t } := by
  have hresult : (m.bindInterface imps interface implementation).toOption.map Prod.snd = some m' := h
  cases hr : m.bindInterface imps interface implementation with
  | error errcode =>
    rw [hr] at hresult
    cases hresult
  | ok r =>
    rw [hr] at hresult
    obtain rfl : r.2 = m' := Option.some.inj hresult
    unfold bindInterface at hr
    split at hr
    · cases hr
    · rename_i s hs
      split at hr
      · cases hr
      · rename_i t s' hs'
        split at hr
        · cases hr
        · rename_i hfits
          cases hr
          refine Or.inl ⟨rfl, fun s₁ t₁ s₁' hs₁ hs₁' hfits₁ => ?_⟩
          rw [hs] at hs₁
          rw [hs'] at hs₁'
          cases hs₁
          cases hs₁'
          rw [hfits] at hfits₁
          cases hfits₁
        · rename_i hfits
          split at hr
          · cases hr
          · cases hr
            exact Or.inr ⟨s, t, s', hs, hs', hfits, rfl⟩

/-- From sound binds the walks return after a call exactly when it does not lead back. -/
theorem walksReturn_step {call : BindCall} (h : m.bindMap.Sound)
    (hstep : m.changeBinds call = some m') :
    m'.bindMap.Listed ∧ (m'.WalksReturn ↔ m.LeadsNotBack call) := by
  have hshrinks (hb : m.bindMap.Shrinks m'.bindMap) :
      m'.bindMap.Listed ∧ m'.WalksReturn := by
    have hsound := h.shrinks hb
    exact ⟨hsound.listed, (walksReturn_iff hsound.listed).mpr hsound.acyclic⟩
  cases call with
  | hierarchy call =>
    obtain ⟨hlisted, hreturn⟩ := hshrinks (shrinks_changeHierarchy hstep)
    exact ⟨hlisted, fun _ => trivial, fun _ => hreturn⟩
  | implementationUpdated imps unset n implementation obj t =>
    obtain ⟨hlisted, hreturn⟩ := hshrinks (shrinks_implementationUpdated hstep)
    exact ⟨hlisted, fun _ => trivial, fun _ => hreturn⟩
  | implementationRemoved n implementation =>
    obtain ⟨hlisted, hreturn⟩ := hshrinks (shrinks_implementationRemoved hstep)
    exact ⟨hlisted, fun _ => trivial, fun _ => hreturn⟩
  | bindInterface imps interface implementation =>
    rcases bindInterface_cases hstep with ⟨rfl, hcall⟩ | ⟨s, t, s', hs, hs', hfits, rfl⟩
    · obtain ⟨hlisted, hreturn⟩ := hshrinks (Shrinks.refl _)
      exact ⟨hlisted, fun _ => hcall, fun _ => hreturn⟩
    · have hlisted : (m.bindMap.addBind s.name s'.name s'.associatedObjectName t).Listed :=
        h.listed.addBind
      refine ⟨hlisted, ?_⟩
      rw [walksReturn_iff hlisted, BindMap.acyclic_addBind h.acyclic]
      constructor
      · intro hchain s₁ t₁ s₁' hs₁ hs₁' _
        rw [hs] at hs₁
        rw [hs'] at hs₁'
        cases hs₁
        cases hs₁'
        exact hchain
      · exact fun hcall => hcall s t s' hs hs' hfits

theorem sound_empty : ({} : BindMap).Sound := by
  have hnone (j i : String) : ¬ ({} : BindMap).Shown j i := by
    simp [BindMap.Shown, BindMap.interfacesShowingImplementation]
  refine ⟨?_, fun j hcycle => ?_⟩
  · rintro i j ⟨info, hinfo, _⟩
    simp at hinfo
  · obtain ⟨i, hi, _⟩ := Relation.TransGen.head'_iff.mp hcycle
    exact hnone j i hi

/-- In a run of binds that do not lead back the walks return in every state. From such a state
they return after a further call exactly when it does not lead back either. -/
theorem binding_never_loops {m : InterfaceMaps} (hm : Reaches changeBinds LeadsNotBack {} m) :
    m.WalksReturn ∧
      ∀ call m', m.changeBinds call = some m' → (m'.WalksReturn ↔ m.LeadsNotBack call) := by
  have hsound : m.bindMap.Sound :=
    hm.invariant sound_empty fun m call m' h hcall hstep => by
      obtain ⟨hlisted, hreturn⟩ := walksReturn_step h hstep
      exact ⟨hlisted, (walksReturn_iff hlisted).mp (hreturn.mpr hcall)⟩
  constructor
  · exact (walksReturn_iff hsound.listed).mpr hsound.acyclic
  · intro call m' hstep
    exact (walksReturn_step hsound hstep).2

def BindCall.isHierarchy : BindCall → Bool
  | .hierarchy _ => true
  | _ => false

def people : Implementations :=
  { classes := Finmap.singleton "PersonClass" { name := "PersonClass", fields := [⟨"name"⟩] } }

theorem binding_never_loops_person :
    ∃ m, Reaches changeBinds LeadsNotBack {} m ∧ m.WalksReturn ∧
      m.bindMap.hasBind "Person" = true := by
  obtain ⟨m, hm, hQ⟩ := Reaches.of_play changeBinds (fun _ call => call.isHierarchy = true) {}
    [.hierarchy (.addInterface (fun _ => false)
        { name := "Person", associatedObjectName := "person", fields := [⟨"name"⟩] } .create)]
    (fun m => m.bindMap.reverseMap = ∅ ∧
      (m.changeBinds (.bindInterface people "Person" "PersonClass")).any
        (fun m' => m'.bindMap.hasBind "Person") = true ∧
      m.getInterfaceForInterfaceOrObjectName "Person" =
        some { name := "Person", associatedObjectName := "person", fields := [⟨"name"⟩] } ∧
      m.getImplementationForName people "PersonClass" =
        some (.bindClass, { name := "PersonClass", fields := [⟨"name"⟩] })) (by decide +kernel)
  obtain ⟨hempty, hbound, hinterface, himplementation⟩ := of_decide_eq_true hQ
  have hm : Reaches changeBinds LeadsNotBack {} m := by
    refine hm.mono fun m call hcall => ?_
    cases call with
    | hierarchy call => trivial
    | _ => cases hcall
  obtain ⟨m', hstep, hbound⟩ := (Option.any_eq_true _ _).mp hbound
  have hnone (j i : String) : ¬ m.bindMap.Shown j i := by
    simp [BindMap.Shown, BindMap.interfacesShowingImplementation, hempty]
  have hcall : m.LeadsNotBack (.bindInterface people "Person" "PersonClass") := by
    intro s t s' hs hs' _ hchain
    rw [hinterface] at hs
    rw [himplementation] at hs'
    cases hs
    cases hs'
    obtain hsame | ⟨i, hi, _⟩ := hchain.cases_head
    · exact absurd hsame (by decide)
    · exact hnone _ _ hi
  have hm' := hm.step hcall hstep
  exact ⟨m', hm', (binding_never_loops hm').1, hbound⟩

/-- An interface is bound to itself. -/
theorem bound_to_itself :
    ∃ m, Reaches changeBinds (fun _ _ => True) {} m ∧ ¬ m.WalksReturn := by
  obtain ⟨m, hm, hQ⟩ := Reaches.of_play changeBinds (fun _ _ => True) {}
    [.hierarchy (.addInterface (fun _ => false)
        { name := "Person", associatedObjectName := "person", fields := [⟨"name"⟩] } .create),
      .bindInterface {} "Person" "person"]
    (fun m => "Person" ∈ m.bindMap.interfacesShowingImplementation "Person") (by decide +kernel)
  refine ⟨m, hm, fun hreturn => ?_⟩
  have hacyclic := BindMap.getAllBoundNames_returns.mp hreturn.names
  exact hacyclic "Person" (.single (of_decide_eq_true hQ))

end InterfaceMaps

end Loxim.QueryExecutor
