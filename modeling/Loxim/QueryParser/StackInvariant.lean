import Loxim.QueryParser.StaticEval
import Mathlib.Data.Finset.Union

/-!
# What all signatures on the stacks have in common

The operators make signatures of those they find, the names of what is bound, and the data scheme
of nothing. What this keeps holds throughout an evaluation.
-/

namespace Loxim.QueryParser.Optimizer

def Binder.sig (b : Binder) : Sig := .binder b.card b.dependsOn b.name b.value

/-- What holds of signatures holds of those that the operators make of them. -/
structure Hereditary (S : Scheme) (P : Sig → Prop) : Prop where
  clone : ∀ {s}, P s → P s.clone
  setCard : ∀ {s c}, P s → P (s.setCard c)
  atom : ∀ {c t}, P (.atom c none t)
  ref : ∀ {c r}, P (.ref c none r)
  value : ∀ {c d n v}, P (.binder c d n v) → P v
  pair : ∀ {l : Sig} {r : Option Sig}, P l → (∀ s ∈ r, P s) → P (l.pair r)
  struct : ∀ {l : Sig} {r : Option Sig}, P l → (∀ s ∈ r, P s) →
    P (.coll {} none .struct (l :: r.toList))
  nested : ∀ {s : Sig} {binders}, P s → s.statNested S s.dependsOn = some binders →
    ∀ b ∈ binders, P b.sig

/-- It holds of what the names and the `as` nodes of the tree make. -/
def Tree.Makes (P : Sig → Prop) : Tree → Prop
  | .name o _ => ∀ s, P s → P (s.setDependsOn (some o))
  | .value .. => True
  | .as o arg n _ => arg.Makes P ∧ ∀ v, P v → P (.binder {} (some o) n v)
  | .unOp _ _ arg => arg.Makes P
  | .coerce _ _ arg => arg.Makes P
  | .castTo _ arg => arg.Makes P
  | .algOp _ _ larg rarg => larg.Makes P ∧ rarg.Makes P
  | .nonAlgOp _ _ larg rarg => larg.Makes P ∧ rarg.Makes P
  | .other _ => True

/-- It holds of all signatures on both stacks. -/
structure State.All (P : Sig → Prop) (st : State) : Prop where
  qres : ∀ s ∈ st.qres, P s
  envs : ∀ section_ ∈ st.envs, ∀ b ∈ section_, P b.sig

-- ---------------------------------------------------------------------------
-- The operations on the stacks
-- ---------------------------------------------------------------------------

namespace State

section
variable {P : Sig → Prop} {st st' : State}

theorem All.of_stacks (h : st.All P) (hq : st'.qres = st.qres) (he : st'.envs = st.envs) :
    st'.All P := ⟨hq ▸ h.qres, he ▸ h.envs⟩

theorem All.mark (h : st.All P) (o f) : (st.mark o f).All P := h.of_stacks rfl rfl

theorem All.evalCard (h : st.All P) (t) : (evalCard st t).All P :=
  h.of_stacks (by simp) (by simp)

theorem All.pop (h : st.All P) : st.pop.All P :=
  ⟨fun s hs => h.qres s (List.mem_of_mem_tail hs), h.envs⟩

theorem All.popSection (h : st.All P) : st.popSection.All P :=
  ⟨h.qres, fun s hs => h.envs s (List.mem_of_mem_tail hs)⟩

theorem All.popSections (h : st.All P) (n : Nat) : (State.popSection^[n] st).All P := by
  induction n generalizing st with
  | zero => exact h
  | succ n ih => exact ih h.popSection

theorem All.pushSig (h : st.All P) {s : Sig} (hs : P s) : (st.pushSig s).All P := by
  refine ⟨?_, h.envs⟩
  intro s' hm
  cases hm with
  | head => exact hs
  | tail _ hm => exact h.qres s' hm

theorem All.pushBinders (h : st.All P) {binders : List Binder} (hb : ∀ b ∈ binders, P b.sig) :
    (st.pushBinders binders).All P := by
  unfold State.pushBinders
  split
  · exact h
  · refine ⟨h.qres, ?_⟩
    intro s hm
    cases hm with
    | head => exact hb
    | tail _ hm => exact h.envs s hm

theorem All.topSig {S : Scheme} (hP : Hereditary S P) (h : st.All P) {sig : Sig}
    (ht : st.topSig = some sig) : P sig := by
  obtain ⟨s, hs, rfl⟩ := Option.map_eq_some_iff.mp ht
  exact hP.clone (h.qres s (List.mem_of_mem_head? hs))

end

end State

theorem Outcome.andThen_ok {o : Outcome} {f : State → Outcome} {st' : State}
    (h : o.andThen f = .ok st') : ∃ st, o = .ok st ∧ f st = .ok st' := by
  cases o with
  | ok st => exact ⟨st, rfl, h⟩
  | failed st => cases h
  | crash => cases h

/-- The binders that a name is bound to are those of its name in one section. -/
theorem bindName2_mem {name : String} {envs : List (List Binder)} {sect size : Nat}
    {vec : List Binder} (h : bindName2 name envs = some (sect, size, vec)) :
    ∃ section_ ∈ envs, ∀ b ∈ vec, b ∈ section_ ∧ b.name = name := by
  induction envs with
  | nil => cases h
  | cons section_ rest ih =>
    simp only [bindName2] at h
    split at h
    · obtain ⟨s, hs, hv⟩ := ih h
      exact ⟨s, List.mem_cons_of_mem _ hs, hv⟩
    · cases h
      refine ⟨section_, List.mem_cons_self, ?_⟩
      intro b hb
      simpa using List.mem_filter.mp hb

theorem bindName2_ne_nil {name : String} {envs : List (List Binder)} {sect size : Nat}
    {vec : List Binder} (h : bindName2 name envs = some (sect, size, vec)) : vec ≠ [] := by
  induction envs with
  | nil => cases h
  | cons section_ rest ih =>
    simp only [bindName2] at h
    split at h
    · exact ih h
    · rename_i hf
      cases h
      exact hf

-- ---------------------------------------------------------------------------
-- The evaluation
-- ---------------------------------------------------------------------------

namespace Hereditary

variable {S : Scheme} {P : Sig → Prop} {run : Nat} {st st' : State}

theorem nameSig (hP : Hereditary S P) {o : Oid} {bw : Binder} {vec : List Binder}
    (hm : ∀ s, P s → P (s.setDependsOn (some o))) (hb : P bw.sig) (hv : ∀ b ∈ vec, P b.sig) :
    P (nameSig o bw vec) := by
  have fold (l : List Binder) (hl : ∀ b ∈ l, P b.sig) (s : Sig) (hs : P s) :
      P (l.foldl (fun sig pombw => sig.pair (some pombw.value.clone)) s) := by
    induction l generalizing s with
    | nil => exact hs
    | cons b l ih =>
      refine ih (fun b' hb' => hl b' (List.mem_cons_of_mem _ hb')) _ ?_
      refine hP.pair hs ?_
      intro s hm
      cases hm
      exact hP.clone (hP.value (hl b List.mem_cons_self))
  refine fold vec.tail (fun b hb => hv b (List.mem_of_mem_tail hb)) _ ?_
  have hc : P bw.value.clone := hP.clone (hP.value hb)
  split
  · exact hm _ hc
  · exact hc

theorem nameEval (hP : Hereditary S P) {o : Oid} {name : String}
    (hm : ∀ s, P s → P (s.setDependsOn (some o))) (h : st.All P)
    (he : nameEval run o name st = .ok st') : st'.All P := by
  simp only [Optimizer.nameEval] at he
  split at he
  · cases he
  · rename_i sect size vec hbind
    obtain ⟨section_, hs, hvec⟩ := bindName2_mem hbind
    split at he
    · cases he
    · rename_i bw hlast
      cases he
      have hv : ∀ b ∈ vec, P b.sig := fun b hb => h.envs section_ hs b (hvec b hb).1
      have hsig := hP.nameSig hm (hv bw (List.mem_of_getLast? hlast)) hv
      exact (h.pushSig hsig).of_stacks (by simp) (by simp)

theorem unOpEval (hP : Hereditary S P) {o : Oid} {op : UnOp} (h : st.All P)
    (he : unOpEval S o op st = .ok st') : st'.All P := by
  have push {s : Sig} (hs : P s) : (st.pop.pushSig s).All P := h.pop.pushSig hs
  simp only [Optimizer.unOpEval] at he
  split at he
  · rename_i topSig ht
    split at he
    · cases he
    · cases he
      exact push (hP.clone (h.topSig hP ht))
  · rename_i topSig ht
    split at he
    · cases he
      exact h.pop
    · cases he
      exact push (hP.clone (h.topSig hP ht))
  · split at he
    · cases he
    · cases he
      exact h.pop
    · cases he
      exact push hP.atom
    · split at he
      · cases he
      · cases he
        exact push hP.ref
    · cases he
      exact h.pop
  · split at he
    · cases he
    · cases he
      exact push hP.atom
  -- what is left pushes an atom, or returns no 0
  all_goals cases he
  all_goals exact push hP.atom

theorem algOpEval (hP : Hereditary S P) {t : Tree} {op : AlgOp} {lSig : Option Sig}
    (h : st.All P) (hl : ∀ s ∈ lSig, P s) (he : algOpEval t op lSig st = .ok st') :
    st'.All P := by
  have push {s : Sig} (hs : P s) : ((evalCard st.pop.pop t).pushSig s).All P :=
    (h.pop.pop.evalCard t).pushSig hs
  cases op with
  | bagUnion => cases he
  | bagIntersect => cases he
  | bagMinus => cases he
  | insert => cases he
  | comma =>
    cases lSig with
    | none => cases he
    | some lSig =>
      cases he
      exact push (hP.pair (hl lSig rfl) fun s hs => h.topSig hP hs)
  | refeq | insertViewproc | insertInto | assign | assignViewproc | semicolon =>
    cases he
    exact (h.pop.pop.evalCard t).evalCard t
  | _ =>
    cases he
    exact push hP.atom

theorem openSections (hP : Hereditary S P) {o : Oid} {lSig : Option Sig} {sToPop : Nat}
    (h : st.All P) (hl : ∀ s ∈ lSig, P s)
    (he : openSections S o lSig st = some (st', sToPop)) : st'.All P := by
  simp only [Optimizer.openSections] at he
  cases lSig with
  | none => cases he
  | some lSig =>
    simp only at he
    split at he
    · cases he
    · rename_i binders hn
      cases he
      exact ((h.mark _ _).pushBinders (hP.nested (hP.clone (hl lSig rfl)) hn)).mark _ _

theorem nonAlgOpEval (hP : Hereditary S P) {t : Tree} {op : NonAlgOp} {lSig : Option Sig}
    {sToPop : Nat} (h : st.All P) (hl : ∀ s ∈ lSig, P s)
    (he : nonAlgOpEval t op lSig sToPop st = .ok st') : st'.All P := by
  have push {s : Sig} (hs : P s) :
      (evalCard ((State.popSection^[sToPop] st).pop.pop.pushSig s) t).All P :=
    ((h.popSections sToPop).pop.pop.pushSig hs).evalCard t
  simp only [Optimizer.nonAlgOpEval] at he
  split at he
  · rename_i rSig ht
    cases he
    exact push (hP.clone (h.topSig hP ht))
  · cases he
  · split at he
    · cases he
    · split at he
      · cases he
      · cases he
        exact push (hP.clone (hl _ rfl))
  · cases he
  · split at he
    · cases he
    · cases he
      exact push (hP.clone (hP.struct (hl _ rfl) fun s hs => h.topSig hP hs))
  · cases he

theorem coerceSig (hP : Hereditary S P) {cType : CoerceType} {topSig sig : Sig}
    (h : P topSig) (he : coerceSig cType topSig = some sig) : P sig := by
  have atom (c t) (ht : (if topSig.isAtom then some (Sig.atom c none t) else none) = some sig) :
      P sig := by
    split at ht
    · cases ht
      exact hP.atom
    · cases ht
  cases cType with
  | toString => exact atom _ _ he
  | toDouble => exact atom _ _ he
  | toInt => exact atom _ _ he
  | toBool => exact atom _ _ he
  | element | toBag | toSeq =>
    cases he
    exact hP.clone (hP.setCard h)
  | canDel | canCrt | extCrt =>
    cases he
    exact hP.clone h

/-- What holds of the signatures before an evaluation holds after it. -/
theorem staticEval (hP : Hereditary S P) {t : Tree} (hm : t.Makes P) {st st' : State}
    (h : st.All P) (he : staticEval S run t st = .ok st') : st'.All P := by
  induction t generalizing st st' with
  | name o name => exact hP.nameEval hm h he
  | value o type =>
    cases type with
    | refid => cases he
    | _ =>
      cases he
      exact (h.pushSig hP.atom).mark _ _
  | «as» o arg name group ih =>
    obtain ⟨st₁, h₁, he⟩ := Outcome.andThen_ok he
    have ha := ih hm.1 h h₁
    split at he
    · cases he
    · rename_i topSig ht
      cases he
      exact (ha.pop.pushSig (hm.2 _ (hP.clone (ha.topSig hP ht)))).evalCard _
  | unOp o op arg ih =>
    obtain ⟨st₁, h₁, he⟩ := Outcome.andThen_ok he
    exact hP.unOpEval (ih hm h h₁) he
  | coerce o cType arg ih =>
    obtain ⟨st₁, h₁, he⟩ := Outcome.andThen_ok he
    have ha := ih hm h h₁
    split at he
    · cases he
    · rename_i topSig ht
      split at he
      · cases he
      · rename_i sig hc
        cases he
        exact (ha.pop.pushSig (hP.coerceSig (ha.topSig hP ht) hc)).evalCard _
  | castTo o arg ih =>
    obtain ⟨st₁, h₁, he⟩ := Outcome.andThen_ok he
    cases he
    exact (ih hm h h₁).evalCard _
  | algOp o op larg rarg ihl ihr =>
    obtain ⟨st₁, h₁, he⟩ := Outcome.andThen_ok he
    obtain ⟨st₂, h₂, he⟩ := Outcome.andThen_ok he
    have hl := ihl hm.1 h h₁
    exact hP.algOpEval (ihr hm.2 hl h₂) (fun s hs => hl.topSig hP hs) he
  | nonAlgOp o op larg rarg ihl ihr =>
    obtain ⟨st₁, h₁, he⟩ := Outcome.andThen_ok he
    have hl := ihl hm.1 h h₁
    have hsig : ∀ s ∈ st₁.topSig, P s := fun s hs => hl.topSig hP hs
    simp only at he
    split at he
    · cases he
    · rename_i st₂ sToPop ho
      obtain ⟨st₃, h₃, he⟩ := Outcome.andThen_ok he
      exact hP.nonAlgOpEval (ihr hm.2 (hP.openSections hl hsig ho) h₃) hsig he
  | other o => cases he

end Hereditary

-- ---------------------------------------------------------------------------
-- The names of the data scheme
-- ---------------------------------------------------------------------------

namespace Scheme

def nestedNames (S : Scheme) (objId : Int) : Finset String :=
  match S.statNested objId none with
  | none => ∅
  | some binders => (binders.map (·.name)).toFinset

/-- The names that a section of the data scheme can bind. -/
def names (S : Scheme) : Finset String :=
  (S.bindBaseObjects.map (·.name)).toFinset ∪ S.objects.keys.biUnion S.nestedNames

/-- What the binders depend on makes no other difference. -/
theorem statNestedDef_eq (S : Scheme) (treeNode : Option Oid) (obCard : Card)
    (d : DataObjectDef) :
    S.statNestedDef treeNode obCard d =
      (S.statNestedDef none obCard d).map (·.map fun b => { b with dependsOn := treeNode }) := by
  fun_induction S.statNestedDef none obCard d with
  | case1 => rfl
  | case2 => rfl
  | case3 _ _ h => simp [statNestedDef, h]
  | case4 _ _ _ h binderName => simp [statNestedDef, h, binderName]
  | case5 _ _ ih => simpa [statNestedDef] using ih
  | case6 => rfl
  | case7 => simp_all [statNestedDef, List.map_reverse, Function.comp_def]
  | case8 => rfl

theorem statNested_eq (S : Scheme) (objId : Int) (treeNode : Option Oid) :
    S.statNested objId treeNode =
      (S.statNested objId none).map (·.map fun b => { b with dependsOn := treeNode }) := by
  unfold statNested
  cases S.getObjById objId with
  | none => rfl
  | some d => exact S.statNestedDef_eq treeNode d.head.card d

theorem statNestedDef_value (S : Scheme) {treeNode : Option Oid} {obCard : Card}
    {d : DataObjectDef} {binders : List Binder}
    (h : S.statNestedDef treeNode obCard d = some binders) {b : Binder} (hb : b ∈ binders) :
    ∃ card refNo, b.value = .ref card none refNo := by
  fun_induction S.statNestedDef treeNode obCard d with
  | case1 => simp_all
  | case2 => simp_all
  | case3 => simp_all
  | case4 =>
    cases h
    cases List.mem_singleton.mp hb
    exact ⟨_, _, rfl⟩
  | case5 _ _ ih => exact ih h
  | case6 => simp_all
  | case7 =>
    cases h
    obtain ⟨pom, -, rfl⟩ := List.mem_map.mp (List.mem_reverse.mp hb)
    exact ⟨_, _, rfl⟩
  | case8 => simp_all

/-- A section of the data scheme binds names of the scheme to references. -/
theorem statNested_mem {S : Scheme} {objId : Int} {treeNode : Option Oid}
    {binders : List Binder} (h : S.statNested objId treeNode = some binders) {b : Binder}
    (hb : b ∈ binders) :
    b.name ∈ S.names ∧ b.dependsOn = treeNode ∧ ∃ card refNo, b.value = .ref card none refNo := by
  have hkey : objId ∈ S.objects.keys := by
    rw [Finmap.mem_keys]
    by_contra hn
    have hnone : S.getObjById objId = none := Finmap.lookup_eq_none.mpr hn
    simp [statNested, hnone] at h
  rw [statNested_eq] at h
  obtain ⟨binders', h', rfl⟩ := Option.map_eq_some_iff.mp h
  obtain ⟨b', hb', rfl⟩ := List.mem_map.mp hb
  refine ⟨?_, rfl, ?_⟩
  · refine Finset.mem_union_right _ (Finset.mem_biUnion.mpr ⟨objId, hkey, ?_⟩)
    simp only [nestedNames, h', List.mem_toFinset]
    exact List.mem_map_of_mem hb'
  · unfold statNested at h'
    cases ho : S.getObjById objId with
    | none => simp [ho] at h'
    | some d =>
      rw [ho] at h'
      obtain ⟨card, refNo, hv⟩ := statNestedDef_value S h' hb'
      exact ⟨card, refNo, hv⟩

theorem bindBaseObjects_mem {S : Scheme} {b : Binder} (hb : b ∈ S.bindBaseObjects) :
    b.name ∈ S.names ∧ b.dependsOn = none ∧ ∃ card refNo, b.value = .ref card none refNo := by
  refine ⟨?_, ?_⟩
  · refine Finset.mem_union_left _ ?_
    simp only [List.mem_toFinset]
    exact List.mem_map_of_mem hb
  · obtain ⟨obt, -, rfl⟩ := List.mem_map.mp (List.mem_reverse.mp hb)
    exact ⟨rfl, _, _, rfl⟩

end Scheme

-- ---------------------------------------------------------------------------
-- What holds of all parts of a signature
-- ---------------------------------------------------------------------------

namespace Sig

mutual

/-- `D` holds of all that the signature and its parts depend on, `N` of all names in it. -/
def Deep (D : Option Oid → Prop) (N : String → Prop) : Sig → Prop
  | atom _ d _ => D d
  | ref _ d _ => D d
  | binder _ d n v => D d ∧ N n ∧ Deep D N v
  | coll _ d _ l => D d ∧ AllDeep D N l

def AllDeep (D : Option Oid → Prop) (N : String → Prop) : List Sig → Prop
  | [] => True
  | s :: l => Deep D N s ∧ AllDeep D N l

end

section
variable {D D' : Option Oid → Prop} {N N' : String → Prop}

theorem allDeep_iff {l : List Sig} : AllDeep D N l ↔ ∀ s ∈ l, Deep D N s := by
  induction l with
  | nil => simp [AllDeep]
  | cons s l ih => simp [AllDeep, ih]

theorem Deep.dependsOn {s : Sig} (h : s.Deep D N) : D s.dependsOn := by
  cases s with
  | atom => exact h
  | ref => exact h
  | binder => exact h.1
  | coll => exact h.1

theorem Deep.setCard {s : Sig} (h : s.Deep D N) (c) : (s.setCard c).Deep D N := by
  cases s <;> exact h

theorem Deep.setDependsOn {s : Sig} (h : s.Deep D N) {d : Option Oid} (hd : D d) :
    (s.setDependsOn d).Deep D N := by
  cases s with
  | atom => exact hd
  | ref => exact hd
  | binder => exact ⟨hd, h.2⟩
  | coll => exact ⟨hd, h.2⟩

mutual

theorem Deep.mono (hD : ∀ d, D d → D' d) (hN : ∀ n, N n → N' n) :
    (s : Sig) → Deep D N s → Deep D' N' s
  | atom .., h => hD _ h
  | ref .., h => hD _ h
  | binder _ _ _ v, h => ⟨hD _ h.1, hN _ h.2.1, Deep.mono hD hN v h.2.2⟩
  | coll _ _ _ l, h => ⟨hD _ h.1, AllDeep.mono hD hN l h.2⟩

theorem AllDeep.mono (hD : ∀ d, D d → D' d) (hN : ∀ n, N n → N' n) :
    (l : List Sig) → AllDeep D N l → AllDeep D' N' l
  | [], _ => trivial
  | s :: l, h => ⟨Deep.mono hD hN s h.1, AllDeep.mono hD hN l h.2⟩

end

mutual

theorem Deep.clone (hD : D none) : (s : Sig) → Deep D N s → Deep D N s.clone
  | atom .., h => h
  | ref .., h => h
  | binder _ _ _ v, h => ⟨h.1, h.2.1, Deep.clone hD v h.2.2⟩
  | coll _ _ _ l, h => ⟨hD, AllDeep.clone hD l h.2⟩

theorem AllDeep.clone (hD : D none) : (l : List Sig) → AllDeep D N l → AllDeep D N (cloneAll l)
  | [], _ => trivial
  | s :: l, h => ⟨Deep.clone hD s h.1, AllDeep.clone hD l h.2⟩

end

theorem Deep.pair (hD : D none) {lSig : Sig} {rSig : Option Sig} (hl : lSig.Deep D N)
    (hr : ∀ s ∈ rSig, s.Deep D N) : (lSig.pair rSig).Deep D N := by
  have hr' : AllDeep D N rSig.toList := by
    rw [allDeep_iff]
    simpa using hr
  unfold Sig.pair
  split
  · rename_i c d l
    refine ⟨hl.1, ?_⟩
    have hl := hl.2
    rw [allDeep_iff] at hl hr' ⊢
    intro s hs
    cases List.mem_append.mp hs with
    | inl hs => exact hl s hs
    | inr hs => exact hr' s hs
  · exact ⟨hD, hl, hr'⟩

variable {S : Scheme}

/-- A binder of the data scheme. -/
theorem deep_of_ref (hD : D none) (hN : ∀ n ∈ S.names, N n) {b : Binder}
    (hb : b.name ∈ S.names ∧ D b.dependsOn ∧ ∃ card refNo, b.value = .ref card none refNo) :
    b.sig.Deep D N := by
  obtain ⟨hn, hd, card, refNo, hv⟩ := hb
  refine ⟨hd, hN _ hn, ?_⟩
  rw [hv]
  exact hD

mutual

theorem Deep.nested (hD : D none) (hN : ∀ n ∈ S.names, N n) : (s : Sig) → s.Deep D N →
    ∀ d, D d → ∀ binders, s.statNested S d = some binders → ∀ b ∈ binders, b.sig.Deep D N
  | atom .., _, _, _, _, he => by
    cases he
    simp
  | ref .., _, _, hd, _, he => by
    intro b hb
    obtain ⟨hn, rfl, hv⟩ := Scheme.statNested_mem he hb
    exact deep_of_ref hD hN ⟨hn, hd, hv⟩
  | binder .., h, _, _, _, he => by
    cases he
    simpa [Binder.sig] using h
  | coll _ _ _ l, h, _, _, _, he => AllDeep.nested hD hN l h.2 [] (by simp) _ he

theorem AllDeep.nested (hD : D none) (hN : ∀ n ∈ S.names, N n) : (l : List Sig) →
    AllDeep D N l → ∀ before, (∀ b ∈ before, b.sig.Deep D N) →
      ∀ binders, nestedAll S l before = some binders → ∀ b ∈ binders, b.sig.Deep D N
  | [], _, before, hb, _, he => by
    cases he
    exact hb
  | s :: l, h, before, hb, binders, he => by
    simp only [nestedAll] at he
    split at he
    · cases he
    · rename_i bindersCol hs
      have hcol := Deep.nested hD hN s h.1 _ h.1.dependsOn _ hs
      refine AllDeep.nested hD hN l h.2 _ ?_ _ he
      intro b hm
      split at hm
      · exact hcol b hm
      · cases List.mem_append.mp hm with
        | inl hm => exact hcol b (List.mem_reverse.mp hm)
        | inr hm => exact hb b hm

end

theorem Deep.hereditary (hD : D none) (hN : ∀ n ∈ S.names, N n) :
    Hereditary S (Sig.Deep D N) where
  clone h := Deep.clone hD _ h
  setCard h := h.setCard _
  atom := hD
  ref := hD
  value h := h.2.2
  pair hl hr := hl.pair hD hr
  struct hl hr := ⟨hD, hl, by
    rw [allDeep_iff]
    simpa using hr⟩
  nested h he := Deep.nested hD hN _ h _ h.dependsOn _ he

end

end Sig

/-- The stacks at the beginning. -/
theorem Scheme.base_all {S : Scheme} {D : Option Oid → Prop} {N : String → Prop} (hD : D none)
    (hN : ∀ n ∈ S.names, N n) (nodes : Oid → NodeInfo) :
    ((State.mk [] [] nodes).pushBinders S.bindBaseObjects).All (Sig.Deep D N) := by
  refine State.All.pushBinders ⟨by simp, by simp⟩ ?_
  intro b hb
  obtain ⟨hn, hd, hv⟩ := Scheme.bindBaseObjects_mem hb
  exact Sig.deep_of_ref hD hN ⟨hn, hd ▸ hD, hv⟩

end Loxim.QueryParser.Optimizer
