import Loxim.QueryExecutor.EnvironmentStack

/-!
# Rights before a section and after it

When a section is popped its names lose their rights, also those they had before, and a
name that got rights without being in the section keeps them.
-/

namespace Loxim.QueryExecutor

open OrderedMap (alter lookup_alter lookup_erase_eq)

variable {m m' m₁ : AccessMap} {w : World} {name father : String}
  {children : OrderedMap String Bool} {crud : Nat} {canGive : Bool}

namespace AccessMap

/-- All that `getAccess` reads, and whether sections are kept. -/
def rights (m : AccessMap) : AccessMap := { m with sectionToNamesMap := ∅ }

@[simp] theorem rights_rights : m.rights.rights = m.rights := rfl
@[simp] theorem rights_accessMap : m.rights.accessMap = m.accessMap := rfl
@[simp] theorem rights_keepSection : m.rights.keepSection = m.keepSection := rfl
@[simp] theorem getAccess_rights : m.rights.getAccess name = m.getAccess name := rfl

theorem getAccess_of_rights (h : m'.rights = m.rights) (name : String) :
    m'.getAccess name = m.getAccess name := by
  rw [← getAccess_rights, h, getAccess_rights]

theorem addAccessList_eq (m : AccessMap) (l : List String) :
    l.foldl (fun m name => m.addAccess name crud canGive false) m =
      { m with
        accessMap :=
          l.foldl (fun a name => alter a name (addedTo crud canGive)) m.accessMap } := by
  induction l generalizing m with
  | nil => rfl
  | cons name l ih =>
    rw [List.foldl_cons, ih]
    rfl

theorem lookup_addAccessList (m : AccessMap) (names : Finset String) (name : String) :
    (m.addAccessList names crud canGive).accessMap.lookup name =
      if name ∈ names then some (addedTo crud canGive (m.accessMap.lookup name))
      else m.accessMap.lookup name := by
  unfold addAccessList
  rw [addAccessList_eq]
  dsimp only
  rw [OrderedMap.lookup_foldl_alter (nodup_elements _)]
  simp only [mem_elements]

/-- Only the entries of names change. -/
theorem propagateAccess_eq (m : AccessMap) (father : String) (children : OrderedMap String Bool) :
    m.propagateAccess father children =
      { m with accessMap := (m.propagateAccess father children).accessMap } := by
  unfold propagateAccess addAccessList
  dsimp only
  split
  · rfl
  · rw [addAccessList_eq, addAccessList_eq]

theorem propagateAccess_rights :
    (m.propagateAccess father children).rights = m.rights.propagateAccess father children := by
  unfold propagateAccess addAccessList
  dsimp only
  rw [getAccess_rights]
  split
  · rfl
  · rw [addAccessList_eq, addAccessList_eq, addAccessList_eq, addAccessList_eq]
    rfl

/-- A name that is not among the children keeps its entry. -/
theorem lookup_propagateAccess_of_notMem (h : name ∉ children) :
    (m.propagateAccess father children).accessMap.lookup name = m.accessMap.lookup name := by
  unfold propagateAccess
  dsimp only
  split
  · rfl
  · rw [lookup_addAccessList, if_neg, lookup_addAccessList, if_neg]
    · simp [Finmap.mem_keys, h]
    · simp [Finmap.mem_keys, h]

/-- The rights given to the children of one object after the other. -/
def give (m : AccessMap) (grants : List (String × OrderedMap String Bool)) : AccessMap :=
  grants.foldl (fun m g => m.propagateAccess g.1 g.2) m

theorem give_eq (m : AccessMap) (grants : List (String × OrderedMap String Bool)) :
    m.give grants = { m with accessMap := (m.give grants).accessMap } := by
  unfold give
  induction grants generalizing m with
  | nil => rfl
  | cons g grants ih =>
    rw [List.foldl_cons, ih, propagateAccess_eq]

theorem give_rights (grants : List (String × OrderedMap String Bool)) :
    (m.give grants).rights = m.rights.give grants := by
  unfold give
  induction grants generalizing m with
  | nil => rfl
  | cons g grants ih => rw [List.foldl_cons, List.foldl_cons, ih, propagateAccess_rights]

theorem lookup_give_of_notMem {grants : List (String × OrderedMap String Bool)}
    (h : ∀ g ∈ grants, name ∉ g.2) :
    (m.give grants).accessMap.lookup name = m.accessMap.lookup name := by
  unfold give
  induction grants generalizing m with
  | nil => rfl
  | cons g grants ih =>
    obtain ⟨hg, hrest⟩ := List.forall_mem_cons.mp h
    rw [List.foldl_cons, ih hrest, lookup_propagateAccess_of_notMem hg]

theorem lookup_foldl_erase (a : OrderedMap String TAccess) (l : List String) (name : String) :
    (l.foldl (fun a name => a.erase name) a).lookup name =
      if name ∈ l then none else a.lookup name := by
  induction l generalizing a with
  | nil => simp
  | cons first l ih =>
    rw [List.foldl_cons, ih, lookup_erase_eq]
    by_cases h : name = first
    · simp [h]
    · simp [h]

/-- What is left when a section with these names is gone. -/
def forget (m : AccessMap) (names : Finset String) : AccessMap :=
  if m.keepSection then m
  else { m with accessMap := (elements names).foldl (fun a name => a.erase name) m.accessMap }

theorem removeSection_addSectionInfo (secNo : Nat) (names : Finset String) :
    ((m.addSectionInfo secNo names).removeSection secNo).rights = m.rights.forget names := by
  unfold removeSection forget
  by_cases hkeep : m.keepSection = true
  · have hkeep' : (m.addSectionInfo secNo names).keepSection = true := hkeep
    rw [if_pos hkeep', rights_keepSection, if_pos hkeep]
    rfl
  · have hkeep' : ¬ (m.addSectionInfo secNo names).keepSection = true := hkeep
    have hnames : (m.addSectionInfo secNo names).sectionToNamesMap.lookup secNo = some names :=
      Finmap.lookup_insert _
    rw [if_neg hkeep', rights_keepSection, if_neg hkeep, hnames]
    rfl

theorem getAccess_forget (h : m = { m' with accessMap := m.accessMap }) (names : Finset String)
    (name : String) :
    (m.forget names).getAccess name =
      m'.accessFrom name
        (if name ∈ names ∧ ¬ m'.keepSection then none else m.accessMap.lookup name) := by
  have hkeep : m.keepSection = m'.keepSection := by rw [h]
  have hfrom (entry : Option TAccess) : m.accessFrom name entry = m'.accessFrom name entry := by
    rw [h]
    rfl
  rw [← hfrom, ← hkeep]
  unfold forget
  by_cases hk : m.keepSection = true
  · rw [if_pos hk]
    simp [hk, getAccess]
  · rw [if_neg hk]
    have hlookup := lookup_foldl_erase m.accessMap (elements names) name
    have hin : (name ∈ names ∧ ¬ m.keepSection = true) ↔ name ∈ elements names := by
      simp [hk]
    simp only [hin, ← hlookup]
    rfl

/-- Access control is off; or no name of the section has an entry with other rights than it has
without, unless sections are kept, and no name that stays with what it is given had other rights
before. -/
def KeepsRights (m : AccessMap) (grants : List (String × OrderedMap String Bool))
    (names : Finset String) : Prop :=
  m.disabled = true ∨
    (m.keepSection = false → ∀ name ∈ names, m.accessFrom name none = m.getAccess name) ∧
      ∀ g ∈ grants, ∀ name ∈ g.2, (m.keepSection = true ∨ name ∉ names) →
        (m.give grants).getAccess name = m.getAccess name

instance {grants : List (String × OrderedMap String Bool)} {names : Finset String} :
    Decidable (m.KeepsRights grants names) :=
  decidable_of_iff
    (m.disabled = true ∨
      (m.keepSection = false → ∀ name ∈ names, m.accessFrom name none = m.getAccess name) ∧
        ∀ g ∈ grants, ∀ name ∈ g.2.keys, (m.keepSection = true ∨ name ∉ names) →
          (m.give grants).getAccess name = m.getAccess name)
    (by simp only [KeepsRights, Finmap.mem_keys])

theorem getAccess_give_forget {grants : List (String × OrderedMap String Bool)}
    {names : Finset String} :
    (∀ name, ((m.give grants).forget names).getAccess name = m.getAccess name) ↔
      m.KeepsRights grants names := by
  have hfrom (name : String) := getAccess_forget (give_eq m grants) names name
  have hgiven (name : String) : (m.give grants).getAccess name =
      m.accessFrom name ((m.give grants).accessMap.lookup name) := by
    unfold getAccess
    rw [give_eq]
    rfl
  constructor
  · intro h
    by_cases hdisabled : m.disabled = true
    · exact Or.inl hdisabled
    · refine Or.inr ⟨fun hkeep name hname => ?_, fun g hg name hname hstays => ?_⟩
      · have hsame := h name
        rw [hfrom, if_pos ⟨hname, by simp [hkeep]⟩] at hsame
        exact hsame
      · have hsame := h name
        rw [hfrom, if_neg] at hsame
        · rw [hgiven]
          exact hsame
        · rintro ⟨hin, hkeep⟩
          exact hstays.elim (fun hk => hkeep hk) fun hout => hout hin
  · rintro (hdisabled | ⟨herased, hstays⟩) name
    · rw [hfrom]
      simp [accessFrom, getAccess, hdisabled]
    · rw [hfrom]
      split
      · rename_i hin
        exact herased (by simpa using hin.2) name hin.1
      · rename_i hout
        by_cases hgrant : ∃ g ∈ grants, name ∈ g.2
        · obtain ⟨g, hg, hname⟩ := hgrant
          rw [← hgiven]
          refine hstays g hg name hname ?_
          by_cases hkeep : m.keepSection = true
          · exact Or.inl hkeep
          · exact Or.inr fun hin => hout ⟨hin, hkeep⟩
        · have hnone : ∀ g ∈ grants, name ∉ g.2 := fun g hg hname => hgrant ⟨g, hg, hname⟩
          rw [lookup_give_of_notMem hnone]
          rfl

end AccessMap

-- ---------------------------------------------------------------------------
-- What an object gives rights to
-- ---------------------------------------------------------------------------

/-- The code leaves the rights as it finds them. -/
def Quiet {β : Type} (code : AccessMap → Option (AccessMap × β)) : Prop :=
  ∀ m m' x, code m = some (m', x) → m'.rights = m.rights

namespace World

/-- The object is a vector with these names of fields. -/
def fieldGrants (w : World) (object : StoredObject) (interfaceKey : String) :
    List (String × OrderedMap String Bool) :=
  match object.value with
  | .vector fields =>
    match fields.foldlM (w.nestField interfaceKey) (∅, []) with
    | some (namesAccessible, _) => [(object.name, namesAccessible)]
    | none => []
  | _ => []

/-- The objects rights are derived from, with the names that get them. -/
def grants (w : World) : Row → List (String × OrderedMap String Bool)
  | .reference value interfaceKey =>
    match value.bind w.object with
    | some object => w.fieldGrants object interfaceKey
    | none => []
  | .virtualObject voName interfaceKey seeds onNavigate subviews =>
    (voName, w.accessibleNames interfaceKey onNavigate.isSome subviews) ::
      if seeds.all Option.isSome then
        [(voName, AccessMap.trueMap seeds.reduceOption.toFinset)]
      else []

/-- The code of views that is run leaves the rights as it finds them. -/
def QuietRow (w : World) : Row → Prop
  | .reference value _ =>
    ∀ object fields, value.bind w.object = some object → object.value = .vector fields →
      ∀ lid ∈ fields.filter (w.isSubview object), ∀ v, w.view lid = some v → Quiet v.code
  | .virtualObject _ _ _ onNavigate subviews =>
    match onNavigate with
    | some code => Quiet code
    | none => ∀ v ∈ subviews, Quiet v.code

theorem nestView_rights {acc acc' : AccessMap × List Binder} {v : View} (hv : Quiet v.code)
    (h : nestView acc v = some acc') : acc'.1.rights = acc.1.rights := by
  obtain ⟨⟨m, seeds⟩, hcode, hrest⟩ := Option.bind_eq_some_iff.mp h
  cases hrest
  exact hv _ _ _ hcode

theorem foldlM_rights {α : Type} {f : AccessMap × List Binder → α →
    Option (AccessMap × List Binder)} {l : List α}
    (hf : ∀ a ∈ l, ∀ acc acc', f acc a = some acc' → acc'.1.rights = acc.1.rights)
    {acc acc' : AccessMap × List Binder} (h : l.foldlM f acc = some acc') :
    acc'.1.rights = acc.1.rights := by
  induction l generalizing acc with
  | nil =>
    cases h
    rfl
  | cons a l ih =>
    rw [List.foldlM_cons] at h
    obtain ⟨next, hnext, hrest⟩ := Option.bind_eq_some_iff.mp h
    have hone := hf a List.mem_cons_self acc next hnext
    exact (ih (fun b hb => hf b (List.mem_cons_of_mem a hb)) hrest).trans hone

theorem nestValue_spec {object : StoredObject} {interfaceKey : String} {r : List Binder}
    {subviews : List UInt32} (h : w.nestValue m object interfaceKey = some (m', r, subviews)) :
    m' = m.give (w.fieldGrants object interfaceKey) ∧
      ∀ lid ∈ subviews, ∃ fields, object.value = .vector fields ∧
        lid ∈ fields.filter (w.isSubview object) := by
  unfold nestValue at h
  unfold fieldGrants
  split at h
  · rename_i hvalue
    cases h
    rw [hvalue]
    exact ⟨rfl, fun _ hlid => absurd hlid List.not_mem_nil⟩
  · rename_i target hvalue
    obtain ⟨o, _, hrest⟩ := Option.bind_eq_some_iff.mp h
    cases hrest
    rw [hvalue]
    exact ⟨rfl, fun _ hlid => absurd hlid List.not_mem_nil⟩
  · rename_i fields hvalue
    obtain ⟨⟨names, r'⟩, hfields, hrest⟩ := Option.bind_eq_some_iff.mp h
    cases hrest
    rw [hvalue]
    simp only [hfields]
    exact ⟨rfl, fun lid hlid => ⟨fields, rfl, hlid⟩⟩

theorem nested_rights {row : Row} {r : List Binder} (hquiet : w.QuietRow row)
    (h : w.nested m row = some (m', r)) : m'.rights = (m.give (w.grants row)).rights := by
  cases row with
  | reference value interfaceKey =>
    cases value with
    | none =>
      cases h
      rfl
    | some lid =>
      obtain ⟨object, hobject, hrest⟩ := Option.bind_eq_some_iff.mp h
      split at hrest
      · cases hrest
      · obtain ⟨⟨m₁, r₁, subviews⟩, hvalue, hloop⟩ := Option.bind_eq_some_iff.mp hrest
        obtain ⟨rfl, hsubviews⟩ := nestValue_spec hvalue
        have hgrants : w.grants (.reference (some lid) interfaceKey) =
            w.fieldGrants object interfaceKey := by
          unfold grants
          simp [hobject]
        rw [hgrants]
        refine foldlM_rights (fun subview hsub acc acc' hstep => ?_) hloop
        obtain ⟨v, hv, hview⟩ := Option.bind_eq_some_iff.mp hstep
        obtain ⟨fields, hfields, hmem⟩ := hsubviews subview hsub
        exact nestView_rights (hquiet object fields (by simp [hobject]) hfields subview hmem v hv)
          hview
  | virtualObject voName interfaceKey seeds onNavigate subviews =>
    obtain ⟨⟨m₁, r₁⟩, hcode, hrest⟩ := Option.bind_eq_some_iff.mp h
    have hbefore : m₁.rights = m.rights := by
      cases onNavigate with
      | some code => exact hquiet _ _ _ hcode
      | none => exact foldlM_rights (fun v hv acc acc' hstep => nestView_rights (hquiet v hv) hstep) hcode
    cases hrest
    have hgrants : w.grants (.virtualObject voName interfaceKey seeds onNavigate subviews) =
        (voName, w.accessibleNames interfaceKey onNavigate.isSome subviews) ::
          if seeds.all Option.isSome then
            [(voName, AccessMap.trueMap seeds.reduceOption.toFinset)]
          else [] := rfl
    rw [hgrants, AccessMap.give_rights, ← hbefore, ← AccessMap.give_rights]
    split <;> rfl

end World

/-- An employee with a salary. -/
def employees : World where
  object
    | 1 => some { name := "Emp", value := .vector [2] }
    | 2 => some { name := "salary", value := .atom }
    | _ => none

/-- The schema lets the user read employees and, if `salaries`, whatever is called a salary. -/
def reader (salaries : Bool) : AccessMap where
  baseMap := ((∅ : OrderedMap String TAccess).insert "Emp" (Crud.read, false)).insert "salary"
    (if salaries then Crud.read else Crud.noAccess, false)

end Loxim.QueryExecutor
