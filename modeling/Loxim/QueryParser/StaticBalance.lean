import Loxim.QueryParser.StaticEval

/-!
# The balance of the stacks

An evaluation that succeeds should leave one more signature and nothing else. The signature of a
query is defined here without a stack of results; the evaluation of a query agrees with it until
an operator is met that takes its arguments and leaves nothing, or closes a section it did not
open.
-/

namespace Loxim.QueryParser.Optimizer

-- ---------------------------------------------------------------------------
-- The signature of a query
-- ---------------------------------------------------------------------------

/-- Why a query has no signature. -/
inductive Verdict
  | rejected
  | crash
  | unbalanced
deriving DecidableEq

/-- The negation of what is no boolean, and the value of an object that has no single value, are
`unbalanced`. -/
def unOpType (S : Scheme) (op : UnOp) (sig : Sig) : Except Verdict Sig :=
  match op with
  | .unMinus => if sig.isAtom ∧ sig.type ≠ 7 then .ok sig else .error .rejected
  | .boolNot => if sig.type = 8 then .ok sig else .error .unbalanced
  | .deref =>
    match sig with
    | .ref _ _ refNo =>
      match S.getObjById refNo with
      | none => .error .rejected
      | some (.atomic _ type) => .ok (.atom {} none type)
      | some (.link _ targetId) =>
        match S.getObjById targetId with
        | none => .error .crash
        | some target => .ok (.ref {} none target.head.myId)
      | some _ => .error .unbalanced
    | _ => .error .rejected
  | .nameof =>
    match sig with
    | .ref _ _ refNo =>
      if (S.getObjById refNo).isSome then .ok (.atom {} none "string") else .error .rejected
    | _ => .error .rejected
  | .count | .sum | .avg | .min | .max => .ok (.atom {} none "int")
  | .distinct | .deleteOp | .ref => .error .rejected

def algOpType (op : AlgOp) (lSig rSig : Sig) : Except Verdict Sig :=
  match op with
  | .eq | .neq | .lt | .gt | .le | .ge | .boolAnd | .boolOr => .ok (.atom {} none "bool")
  | .plus | .minus | .times | .divide => .ok (.atom {} none "double")
  | .comma => .ok (lSig.pair (some rSig))
  | .bagUnion | .bagIntersect | .bagMinus | .insert => .error .rejected
  | .refeq | .insertViewproc | .insertInto | .assign | .assignViewproc | .semicolon =>
    .error .unbalanced

def nonAlgOpType (op : NonAlgOp) (lSig rSig : Sig) : Except Verdict Sig :=
  match op with
  | .dot => .ok rSig
  | .join => .ok (Sig.coll {} none .struct [lSig, rSig])
  | .where => if rSig.type = 8 then .ok lSig else .error .rejected
  | _ => .error .rejected

/-- A structure without a named part opens no section, and still one is closed. -/
def closes (lSig : Sig) (binders : List Binder) (envs : List (List Binder)) : Bool :=
  lSig.isColl && binders.isEmpty && !envs.isEmpty

def opened (binders : List Binder) (envs : List (List Binder)) : List (List Binder) :=
  if binders.isEmpty then envs else binders :: envs

def typeOf (S : Scheme) : Tree → List (List Binder) → Except Verdict Sig
  | .name o name, envs =>
    match bindName2 name envs with
    | none => .error .rejected
    | some (_, _, vec) =>
      match vec.getLast? with
      | none => .error .rejected
      | some bw => .ok (nameSig o bw vec)
  | .value _ .int, _ => .ok (.atom {} none "int")
  | .value _ .string, _ => .ok (.atom {} none "string")
  | .value _ .double, _ => .ok (.atom {} none "double")
  | .value _ .refid, _ => .error .rejected
  | .as o arg name _, envs => do
    let sig ← typeOf S arg envs
    return .binder {} (some o) name sig.clone
  | .unOp _ op arg, envs => do
    let sig ← typeOf S arg envs
    unOpType S op sig.clone
  | .coerce _ cType arg, envs => do
    let sig ← typeOf S arg envs
    match coerceSig cType sig.clone with
    | none => .error .rejected
    | some sig => .ok sig
  | .castTo _ arg, envs => typeOf S arg envs
  | .algOp _ op larg rarg, envs => do
    let lSig ← typeOf S larg envs
    let rSig ← typeOf S rarg envs
    algOpType op lSig.clone rSig.clone
  | .nonAlgOp _ op larg rarg, envs => do
    let lSig ← typeOf S larg envs
    match lSig.clone.statNested S lSig.clone.dependsOn with
    | none => .error .crash
    | some binders =>
      let rSig ← typeOf S rarg (opened binders envs)
      let sig ← nonAlgOpType op lSig.clone rSig.clone
      if closes lSig binders envs then .error .unbalanced else .ok sig.clone
  | .other _, _ => .error .rejected

-- ---------------------------------------------------------------------------
-- Copies
-- ---------------------------------------------------------------------------

namespace Sig

mutual

@[simp] theorem clone_clone : (s : Sig) → s.clone.clone = s.clone
  | atom .. => rfl
  | ref .. => rfl
  | binder _ _ _ v => by simp [clone, clone_clone v]
  | coll _ _ _ l => by simp [clone, cloneAll_cloneAll l]

@[simp] theorem cloneAll_cloneAll : (l : List Sig) → cloneAll (cloneAll l) = cloneAll l
  | [] => rfl
  | s :: l => by simp [cloneAll, clone_clone s, cloneAll_cloneAll l]

end

@[simp] theorem isColl_clone (s : Sig) : s.clone.isColl = s.isColl := by
  cases s <;> simp [clone, isColl]

end Sig

-- ---------------------------------------------------------------------------
-- The calls of an evaluation
-- ---------------------------------------------------------------------------

section
variable (S : Scheme) (run : Nat)

/-- The subtrees that are evaluated, each with what it is evaluated on. -/
def calls : Tree → State → List (Tree × State)
  | .as o arg name group, st => (.as o arg name group, st) :: calls arg st
  | .unOp o op arg, st => (.unOp o op arg, st) :: calls arg st
  | .coerce o cType arg, st => (.coerce o cType arg, st) :: calls arg st
  | .castTo o arg, st => (.castTo o arg, st) :: calls arg st
  | .algOp o op larg rarg, st =>
    (.algOp o op larg rarg, st) :: calls larg st ++
      match staticEval S run larg st with
      | .ok st => calls rarg st
      | _ => []
  | .nonAlgOp o op larg rarg, st =>
    (.nonAlgOp o op larg rarg, st) :: calls larg st ++
      match staticEval S run larg st with
      | .ok st =>
        match openSections S o st.topSig st with
        | some (st, _) => calls rarg st
        | none => []
      | _ => []
  | t, st => [(t, st)]

/-- One signature more, and all else as it was. -/
def Balanced (t : Tree) (st : State) : Prop :=
  ∀ st', staticEval S run t st = .ok st' →
    st'.envs = st.envs ∧ ∃ sig, st'.qres = sig :: st.qres

end

/-- What an evaluation returns that goes as the signature says. -/
def Follows (st : State) : Except Verdict Sig → Outcome → Prop
  | .ok sig, o => ∃ nodes, o = .ok ⟨sig :: st.qres, st.envs, nodes⟩
  | .error .rejected, o => ∃ st', o = .failed st'
  | .error .crash, o => o = .crash
  | .error .unbalanced, o => ∃ st', o = .ok st' ∧ (st'.envs ≠ st.envs ∨ st'.qres = st.qres)

theorem Follows.balanced {S : Scheme} {run : Nat} {t : Tree} {st : State}
    {v : Except Verdict Sig} (h : Follows st v (staticEval S run t st)) :
    Balanced S run t st ↔ v ≠ .error .unbalanced := by
  cases v with
  | ok sig =>
    obtain ⟨nodes, h⟩ := h
    constructor
    · simp
    · intro _ st' h'
      cases h.symm.trans h'
      exact ⟨rfl, sig, rfl⟩
  | error verdict =>
    cases verdict with
    | rejected =>
      obtain ⟨st', h⟩ := h
      constructor
      · simp
      · intro _ st'' h''
        cases h.symm.trans h''
    | crash =>
      constructor
      · simp
      · intro _ st'' h''
        cases h.symm.trans h''
    | unbalanced =>
      obtain ⟨st', h, hd⟩ := h
      constructor
      · intro hb
        obtain ⟨he, sig, hq⟩ := hb st' h
        cases hd with
        | inl hd => exact absurd he hd
        | inr hd =>
          have hl := congrArg List.length (hd.symm.trans hq)
          simp at hl
      · simp

section
variable (S : Scheme) (run : Nat)

/-- The evaluation goes as the signature says, or some call in it leaves the stacks otherwise. -/
def Agrees (t : Tree) (st : State) : Prop :=
  Follows st (typeOf S t st.envs) (staticEval S run t st) ∧
      typeOf S t st.envs ≠ .error .unbalanced ∧
      (∀ c ∈ calls S run t st, Balanced S run c.1 c.2) ∨
    typeOf S t st.envs = .error .unbalanced ∧ ∃ c ∈ calls S run t st, ¬ Balanced S run c.1 c.2

end

section
variable {S : Scheme} {run : Nat} {t : Tree} {st : State} {inner : List (Tree × State)}

/-- Once the calls inside are balanced it is the call itself that decides. -/
theorem Agrees.of_follows (hc : calls S run t st = (t, st) :: inner)
    (hi : ∀ c ∈ inner, Balanced S run c.1 c.2)
    (hf : Follows st (typeOf S t st.envs) (staticEval S run t st)) : Agrees S run t st := by
  by_cases hu : typeOf S t st.envs = .error .unbalanced
  · right
    refine ⟨hu, (t, st), ?_, ?_⟩
    · simp [hc]
    · rw [hf.balanced]
      exact not_not.mpr hu
  · left
    refine ⟨hf, hu, ?_⟩
    intro c hm
    rw [hc] at hm
    cases hm with
    | head => exact hf.balanced.mpr hu
    | tail _ hm => exact hi c hm

theorem Agrees.of_inner (hc : calls S run t st = (t, st) :: inner)
    (hi : ∃ c ∈ inner, ¬ Balanced S run c.1 c.2)
    (hu : typeOf S t st.envs = .error .unbalanced) : Agrees S run t st := by
  obtain ⟨c, hm, hb⟩ := hi
  exact .inr ⟨hu, c, by simp [hc, hm], hb⟩

end

-- ---------------------------------------------------------------------------
-- One operator
-- ---------------------------------------------------------------------------

section
variable {S : Scheme} {st : State} {nodes : Oid → NodeInfo}

@[simp] theorem State.topSig_cons (sig : Sig) (qres envs nodes) :
    (State.mk (sig :: qres) envs nodes).topSig = some sig.clone := rfl

theorem Follows.pushed (h : st'.qres = sig :: st.qres) (he : st'.envs = st.envs) :
    Follows st (.ok sig) (.ok st') := by
  cases st'
  simp only at h he
  subst h he
  exact ⟨_, rfl⟩

theorem Follows.kept (h : st'.qres = st.qres) :
    Follows st (.error .unbalanced) (.ok st') := ⟨st', rfl, .inr h⟩

theorem unOpEval_follows (o : Oid) (op : UnOp) (sig : Sig) :
    Follows st (unOpType S op sig.clone) (unOpEval S o op ⟨sig :: st.qres, st.envs, nodes⟩) := by
  cases op with
  | unMinus =>
    simp only [unOpEval, unOpType, State.topSig_cons]
    by_cases h : sig.clone.isAtom = true ∧ sig.clone.type ≠ 7
    · rw [if_pos h, if_neg]
      · exact Follows.pushed (by simp) rfl
      · simp [h.1, h.2]
    · rw [if_neg h, if_pos]
      · exact ⟨_, rfl⟩
      · simpa [or_iff_not_imp_left] using h
  | boolNot =>
    simp only [unOpEval, unOpType, State.topSig_cons]
    by_cases h : sig.clone.type = 8
    · rw [if_pos h, if_neg (not_not.mpr h)]
      exact Follows.pushed (by simp) rfl
    · rw [if_neg h, if_pos h]
      exact Follows.kept rfl
  | deref =>
    simp only [unOpEval, unOpType, State.topSig_cons]
    cases sig.clone with
    | ref c d refNo =>
      simp only
      cases S.getObjById refNo with
      | none => exact ⟨_, rfl⟩
      | some obj =>
        cases obj with
        | link h targetId =>
          simp only
          cases S.getObjById targetId with
          | none => rfl
          | some target => exact ⟨_, rfl⟩
        | atomic h type => exact ⟨_, rfl⟩
        | complex h l => exact Follows.kept rfl
        | defType h d => exact Follows.kept rfl
        | untyped h => exact Follows.kept rfl
        | otherKind h => exact Follows.kept rfl
    | _ => exact ⟨_, rfl⟩
  | nameof =>
    simp only [unOpEval, unOpType, State.topSig_cons]
    cases sig.clone with
    | ref c d refNo =>
      simp only
      cases S.getObjById refNo with
      | none => exact ⟨_, rfl⟩
      | some obj => exact ⟨_, rfl⟩
    | _ => exact ⟨_, rfl⟩
  | count => exact ⟨_, rfl⟩
  | sum => exact ⟨_, rfl⟩
  | avg => exact ⟨_, rfl⟩
  | min => exact ⟨_, rfl⟩
  | max => exact ⟨_, rfl⟩
  | distinct => exact ⟨_, rfl⟩
  | deleteOp => exact ⟨_, rfl⟩
  | ref => exact ⟨_, rfl⟩

theorem algOpEval_follows (t : Tree) (op : AlgOp) (lSig rSig : Sig) :
    Follows st (algOpType op lSig.clone rSig.clone)
      (algOpEval t op (some lSig.clone) ⟨rSig :: lSig :: st.qres, st.envs, nodes⟩) := by
  cases op with
  | bagUnion => exact ⟨_, rfl⟩
  | bagIntersect => exact ⟨_, rfl⟩
  | bagMinus => exact ⟨_, rfl⟩
  | insert => exact ⟨_, rfl⟩
  | refeq => exact Follows.kept (by simp)
  | insertViewproc => exact Follows.kept (by simp)
  | insertInto => exact Follows.kept (by simp)
  | assign => exact Follows.kept (by simp)
  | assignViewproc => exact Follows.kept (by simp)
  | semicolon => exact Follows.kept (by simp)
  | _ => exact Follows.pushed (by simp) (by simp)

theorem openSections_none (o : Oid) (lSig : Sig)
    (h : lSig.clone.statNested S lSig.clone.dependsOn = none) :
    openSections S o (some lSig.clone) st = none := by
  simp [openSections, h]

/-- The sections that are closed afterwards. -/
def sectionsToPop (lSig : Sig) (binders : List Binder) : Nat :=
  if lSig.isColl then 1 else if binders.isEmpty then 0 else 1

theorem openSections_some (st : State) (o : Oid) (lSig : Sig) {binders : List Binder}
    (h : lSig.clone.statNested S lSig.clone.dependsOn = some binders) :
    ∃ nodes', openSections S o (some lSig.clone) st =
      some (⟨st.qres, opened binders st.envs, nodes'⟩, sectionsToPop lSig binders) := by
  simp only [openSections, Sig.clone_clone, Sig.isColl_clone, h, State.pushBinders, opened,
    sectionsToPop]
  cases binders with
  | nil => exact ⟨_, rfl⟩
  | cons b l => exact ⟨_, rfl⟩

/-- The stack of environments is as it was unless a section too many is closed. -/
theorem popSections_eq (lSig : Sig) (binders : List Binder) (qres envs)
    (nodes : Oid → NodeInfo) :
    ∃ envs', State.popSection^[sectionsToPop lSig binders] ⟨qres, opened binders envs, nodes⟩ =
        ⟨qres, envs', nodes⟩ ∧
      (if closes lSig binders envs then envs' ≠ envs else envs' = envs) := by
  cases binders with
  | cons b l =>
    refine ⟨envs, ?_, ?_⟩
    · cases h : lSig.isColl <;> simp [sectionsToPop, opened, h, State.popSection]
    · simp [closes]
  | nil =>
    cases h : lSig.isColl with
    | false => exact ⟨envs, by simp [sectionsToPop, opened, h], by simp [closes, h]⟩
    | true =>
      refine ⟨envs.tail, ?_, ?_⟩
      · simp [sectionsToPop, opened, h, State.popSection]
      · cases envs with
        | nil => simp [closes, h]
        | cons s l =>
          simp only [closes, h, List.isEmpty_nil, List.isEmpty_cons, Bool.not_false,
            Bool.and_self, ↓reduceIte, List.tail_cons]
          intro hl
          have := congrArg List.length hl
          simp at this

theorem nonAlgOpEval_follows (t : Tree) (op : NonAlgOp) (lSig rSig : Sig)
    (binders : List Binder) :
    Follows st
      (do
        let sig ← nonAlgOpType op lSig.clone rSig.clone
        if closes lSig binders st.envs then .error .unbalanced else .ok sig.clone)
      (nonAlgOpEval t op (some lSig.clone) (sectionsToPop lSig binders)
        ⟨rSig :: lSig :: st.qres, opened binders st.envs, nodes⟩) := by
  obtain ⟨envs', hp, he⟩ := popSections_eq lSig binders
    (rSig :: lSig :: st.qres) st.envs nodes
  have push (sig : Sig) :
      Follows st (if closes lSig binders st.envs then .error .unbalanced else .ok sig.clone)
        (.ok (evalCard (State.pushSig ⟨st.qres, envs', nodes⟩ sig.clone) t)) := by
    cases hc : closes lSig binders st.envs with
    | true =>
      simp only [hc, ↓reduceIte] at he ⊢
      exact ⟨_, rfl, .inl (by simpa using he)⟩
    | false =>
      simp only [hc, Bool.false_eq_true, ↓reduceIte] at he ⊢
      exact Follows.pushed (by simp) (by simpa using he)
  simp only [nonAlgOpEval, State.topSig_cons, hp, State.pop, List.tail_cons]
  cases op with
  | dot => exact push rSig.clone
  | join => exact push (.coll {} none .struct [lSig.clone, rSig.clone])
  | «where» =>
    simp only [nonAlgOpType]
    by_cases h : rSig.clone.type = 8
    · rw [if_pos h, if_neg (not_not.mpr h)]
      exact push lSig.clone
    · rw [if_neg h, if_pos h]
      exact ⟨_, rfl⟩
  | _ => exact ⟨_, rfl⟩

end

-- ---------------------------------------------------------------------------
-- The whole query
-- ---------------------------------------------------------------------------

section
variable {S : Scheme} {run : Nat} {st : State}

/-- One argument: the calls before it were balanced, and what follows is up to `next`. -/
theorem Agrees.arg {t arg : Tree} {st₁ : State} {f : State → Outcome}
    {g : Sig → Except Verdict Sig} (before after : List (Tree × State))
    (ih : Agrees S run arg st₁) (hb : ∀ c ∈ before, Balanced S run c.1 c.2)
    (hc : calls S run t st = (t, st) :: (before ++ (calls S run arg st₁ ++ after)))
    (ha : (∀ st', staticEval S run arg st₁ ≠ .ok st') → after = [])
    (he : staticEval S run t st = (staticEval S run arg st₁).andThen f)
    (ht : typeOf S t st.envs = typeOf S arg st₁.envs >>= g)
    (next : ∀ sig nodes, typeOf S arg st₁.envs = .ok sig →
      staticEval S run arg st₁ = .ok ⟨sig :: st₁.qres, st₁.envs, nodes⟩ →
      (∀ c ∈ before ++ calls S run arg st₁, Balanced S run c.1 c.2) → Agrees S run t st) :
    Agrees S run t st := by
  cases ih with
  | inr bad =>
    obtain ⟨hu, c, hm, hn⟩ := bad
    refine .of_inner hc ⟨c, ?_, hn⟩ (by rw [ht, hu]; rfl)
    exact List.mem_append_right _ (List.mem_append_left _ hm)
  | inl good =>
    obtain ⟨hfol, hu, hi⟩ := good
    have hin : ∀ c ∈ before ++ calls S run arg st₁, Balanced S run c.1 c.2 := by
      intro c hm
      cases List.mem_append.mp hm with
      | inl hm => exact hb c hm
      | inr hm => exact hi c hm
    -- when the argument fails nothing is evaluated after it
    have stops (hno : ∀ st', staticEval S run arg st₁ ≠ .ok st')
        (hfol : Follows st (typeOf S t st.envs) (staticEval S run t st)) :
        Agrees S run t st := by
      refine .of_follows hc ?_ hfol
      simpa [ha hno] using hin
    cases hv : typeOf S arg st₁.envs with
    | ok sig =>
      rw [hv] at hfol
      obtain ⟨nodes, hfol⟩ := hfol
      exact next sig nodes hv hfol hin
    | error verdict =>
      rw [hv] at hfol hu
      cases verdict with
      | rejected =>
        obtain ⟨st', hfol⟩ := hfol
        refine stops (by simp [hfol]) ?_
        rw [ht, he, hv, hfol]
        exact ⟨st', rfl⟩
      | crash =>
        have hfol : staticEval S run arg st₁ = .crash := hfol
        refine stops (by simp [hfol]) ?_
        rw [ht, he, hv, hfol]
        rfl
      | unbalanced => exact absurd rfl hu

/-- The last argument. -/
theorem Agrees.last {t arg : Tree} {st₁ : State} {f : State → Outcome}
    {g : Sig → Except Verdict Sig} (before : List (Tree × State))
    (ih : Agrees S run arg st₁) (hb : ∀ c ∈ before, Balanced S run c.1 c.2)
    (hc : calls S run t st = (t, st) :: (before ++ calls S run arg st₁))
    (he : staticEval S run t st = (staticEval S run arg st₁).andThen f)
    (ht : typeOf S t st.envs = typeOf S arg st₁.envs >>= g)
    (hf : ∀ sig nodes, Follows st (g sig) (f ⟨sig :: st₁.qres, st₁.envs, nodes⟩)) :
    Agrees S run t st := by
  refine .arg before [] ih hb (by simpa using hc) (fun _ => rfl) he ht ?_
  intro sig nodes hv hfol hin
  refine .of_follows hc hin ?_
  rw [ht, he, hv, hfol]
  exact hf sig nodes

theorem agrees_name (o : Oid) (name : String) : Agrees S run (.name o name) st := by
  refine .of_follows rfl (by simp) ?_
  simp only [typeOf, staticEval, nameEval]
  cases bindName2 name st.envs with
  | none => exact ⟨st, rfl⟩
  | some found =>
    obtain ⟨bindSect, size, vec⟩ := found
    simp only
    cases vec.getLast? with
    | none => exact ⟨st, rfl⟩
    | some bw => exact Follows.pushed (by simp) (by simp)

theorem agrees_value (o : Oid) (type : ValueType) : Agrees S run (.value o type) st := by
  refine .of_follows rfl (by simp) ?_
  cases type with
  | refid => exact ⟨st, rfl⟩
  | _ => exact ⟨_, rfl⟩

theorem agrees_as (o : Oid) (name : String) (group : Bool) {arg : Tree}
    (ih : Agrees S run arg st) : Agrees S run (.as o arg name group) st := by
  refine .last [] ih (by simp) rfl rfl rfl ?_
  intro sig nodes
  exact Follows.pushed (by simp [State.pop]) (by simp)

theorem agrees_unOp (o : Oid) (op : UnOp) {arg : Tree} (ih : Agrees S run arg st) :
    Agrees S run (.unOp o op arg) st := by
  refine .last [] ih (by simp) rfl rfl rfl ?_
  intro sig nodes
  exact unOpEval_follows o op sig

theorem agrees_coerce (o : Oid) (cType : CoerceType) {arg : Tree} (ih : Agrees S run arg st) :
    Agrees S run (.coerce o cType arg) st := by
  refine .last [] ih (by simp) rfl rfl rfl ?_
  intro sig nodes
  simp only [State.topSig_cons]
  cases coerceSig cType sig.clone with
  | none => exact ⟨_, rfl⟩
  | some sig => exact Follows.pushed (by simp) (by simp)

theorem agrees_castTo (o : Oid) {arg : Tree} (ih : Agrees S run arg st) :
    Agrees S run (.castTo o arg) st := by
  refine .last (g := Except.ok) [] ih (by simp) rfl rfl ?_ ?_
  · simp only [typeOf]
    cases typeOf S arg st.envs <;> rfl
  · intro sig nodes
    exact Follows.pushed (by simp) (by simp)

theorem agrees_algOp (o : Oid) (op : AlgOp) {larg rarg : Tree} (ihl : Agrees S run larg st)
    (ihr : ∀ st, Agrees S run rarg st) : Agrees S run (.algOp o op larg rarg) st := by
  refine .arg [] _ ihl (by simp) rfl ?_ rfl rfl ?_
  · intro hno
    cases h : staticEval S run larg st with
    | ok st' => exact absurd h (hno st')
    | failed => rfl
    | crash => rfl
  · intro lSig nodes hv hl hin
    refine .last (calls S run larg st) (ihr ⟨lSig :: st.qres, st.envs, nodes⟩) (by simpa using hin)
      ?_ ?_ ?_ fun rSig nodes' => algOpEval_follows (.algOp o op larg rarg) op lSig rSig
    · simp [calls, hl]
    · simp [staticEval, hl]
    · simp only [typeOf, hv]
      rfl

theorem agrees_nonAlgOp (o : Oid) (op : NonAlgOp) {larg rarg : Tree}
    (ihl : Agrees S run larg st) (ihr : ∀ st, Agrees S run rarg st) :
    Agrees S run (.nonAlgOp o op larg rarg) st := by
  refine .arg [] _ ihl (by simp) rfl ?_ rfl rfl ?_
  · intro hno
    cases h : staticEval S run larg st with
    | ok st' => exact absurd h (hno st')
    | failed => rfl
    | crash => rfl
  · intro lSig nodes hv hl hin
    cases hn : lSig.clone.statNested S lSig.clone.dependsOn with
    | none =>
      have ho : openSections S o (some lSig.clone) ⟨lSig :: st.qres, st.envs, nodes⟩ = none :=
        openSections_none o lSig hn
      have hcalls : calls S run (.nonAlgOp o op larg rarg) st =
          (.nonAlgOp o op larg rarg, st) :: calls S run larg st := by
        simp [calls, hl, ho]
      refine .of_follows hcalls (by simpa using hin) ?_
      · simp only [typeOf, staticEval, hv, hl, Outcome.ok_andThen, State.topSig_cons, ho]
        rw [show (Except.ok lSig : Except Verdict Sig) = pure lSig from rfl, pure_bind, hn]
        rfl
    | some binders =>
      obtain ⟨nodes', ho⟩ := openSections_some ⟨lSig :: st.qres, st.envs, nodes⟩ o lSig hn
      refine .last (calls S run larg st)
        (ihr ⟨lSig :: st.qres, opened binders st.envs, nodes'⟩) (by simpa using hin) ?_ ?_ ?_
        fun rSig nodes'' =>
          nonAlgOpEval_follows (.nonAlgOp o op larg rarg) op lSig rSig binders
      · simp [calls, hl, ho]
      · simp [staticEval, hl, ho]
      · simp only [typeOf, hv]
        rw [show (Except.ok lSig : Except Verdict Sig) = pure lSig from rfl, pure_bind, hn]

theorem agrees (t : Tree) : ∀ st, Agrees S run t st := by
  induction t with
  | name o name =>
    intro st
    exact agrees_name o name
  | value o type =>
    intro st
    exact agrees_value o type
  | «as» o arg name group ih =>
    intro st
    exact agrees_as o name group (ih st)
  | unOp o op arg ih =>
    intro st
    exact agrees_unOp o op (ih st)
  | coerce o cType arg ih =>
    intro st
    exact agrees_coerce o cType (ih st)
  | castTo o arg ih =>
    intro st
    exact agrees_castTo o (ih st)
  | algOp o op larg rarg ihl ihr =>
    intro st
    exact agrees_algOp o op (ihl st) ihr
  | nonAlgOp o op larg rarg ihl ihr =>
    intro st
    exact agrees_nonAlgOp o op (ihl st) ihr
  | other o =>
    intro st
    exact .of_follows rfl (by simp) ⟨st, rfl⟩

/-- Every evaluation that is begun leaves one signature more and all else as it was, exactly when
no operator of the query takes its arguments and leaves nothing, or closes a section too many. -/
theorem calls_balanced_iff (S : Scheme) (run : Nat) (t : Tree) (st : State) :
    (∀ c ∈ calls S run t st, Balanced S run c.1 c.2) ↔
      typeOf S t st.envs ≠ .error .unbalanced := by
  have h : Agrees S run t st := agrees t st
  cases h with
  | inl good => exact ⟨fun _ => good.2.1, fun _ => good.2.2⟩
  | inr bad =>
    obtain ⟨hu, c, hm, hn⟩ := bad
    constructor
    · intro h
      exact absurd (h c hm) hn
    · intro h
      exact absurd hu h

/-- A query that has a signature leaves it. -/
theorem staticEval_typed {t : Tree} {sig : Sig} (h : typeOf S t st.envs = .ok sig) :
    ∃ nodes, staticEval S run t st = .ok ⟨sig :: st.qres, st.envs, nodes⟩ := by
  have hagrees : Agrees S run t st := agrees t st
  cases hagrees with
  | inl good =>
    have hfol := good.1
    rw [h] at hfol
    exact hfol
  | inr bad => exact absurd (h.symm.trans bad.1) (by simp)

/-- `not (1 = 2)`: a comparison has no signature that `not` takes for a boolean. -/
theorem not_comparison_unbalanced :
    ¬ Balanced {} 1 (.unOp 0 .boolNot (.algOp 1 .eq (.value 2 .int) (.value 3 .int)))
      ⟨[], [], fun _ => { card := {} }⟩ := by
  intro h
  obtain ⟨-, sig, hq⟩ := h _ rfl
  cases hq

end

end Loxim.QueryParser.Optimizer
