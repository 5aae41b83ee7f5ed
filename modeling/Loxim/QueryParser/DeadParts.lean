import Loxim.QueryParser.NameScopes
import Loxim.QueryParser.Factoring

/-!
# The removal of dead subqueries ends

A removal makes the tree smaller. What is to be shown is that marking what is needed ends, too:
it goes from a node to the one above it and from a name to the node it depends on, and both
come before it in the query.
-/

namespace Loxim.QueryParser.Optimizer

-- ---------------------------------------------------------------------------
-- The order of the nodes
-- ---------------------------------------------------------------------------

/-- The nodes in the order in which their evaluation begins. -/
def Tree.oids : Tree → List Oid
  | .name o _ => [o]
  | .value o _ => [o]
  | .as o arg _ _ => o :: arg.oids
  | .unOp o _ arg => o :: arg.oids
  | .coerce o _ arg => o :: arg.oids
  | .castTo o arg => o :: arg.oids
  | .algOp o _ larg rarg => o :: (larg.oids ++ rarg.oids)
  | .nonAlgOp o _ larg rarg => o :: (larg.oids ++ rarg.oids)
  | .other o => [o]

theorem Tree.occurrences_eq (o : Oid) (t : Tree) : t.occurrences o = t.oids.count o := by
  induction t with
  | name p n => simp [occurrences, total, oids, List.count_singleton]
  | value p v => simp [occurrences, total, oids, List.count_singleton]
  | «as» p arg n g ih => simp [oids, List.count_cons, ih]
  | unOp p op arg ih => simp [oids, List.count_cons, ih]
  | coerce p c arg ih => simp [oids, List.count_cons, ih]
  | castTo p arg ih => simp [oids, List.count_cons, ih]
  | algOp p op larg rarg ihl ihr => simp [oids, List.count_cons, List.count_append, ihl, ihr]
  | nonAlgOp p op larg rarg ihl ihr => simp [oids, List.count_cons, List.count_append, ihl, ihr]
  | other p => simp [occurrences, total, oids, List.count_singleton]

/-- The ranks of the nodes lie between the bounds and increase in their order. -/
def Tree.Ordered (rank : Oid → Nat) : Tree → Nat → Nat → Prop
  | .as o arg _ _, lo, hi => (lo ≤ rank o ∧ rank o < hi) ∧ arg.Ordered rank (rank o + 1) hi
  | .unOp o _ arg, lo, hi => (lo ≤ rank o ∧ rank o < hi) ∧ arg.Ordered rank (rank o + 1) hi
  | .coerce o _ arg, lo, hi => (lo ≤ rank o ∧ rank o < hi) ∧ arg.Ordered rank (rank o + 1) hi
  | .castTo o arg, lo, hi => (lo ≤ rank o ∧ rank o < hi) ∧ arg.Ordered rank (rank o + 1) hi
  | .algOp o _ larg rarg, lo, hi =>
    (lo ≤ rank o ∧ rank o < hi) ∧
      ∃ mid, larg.Ordered rank (rank o + 1) mid ∧ rarg.Ordered rank mid hi
  | .nonAlgOp o _ larg rarg, lo, hi =>
    (lo ≤ rank o ∧ rank o < hi) ∧
      ∃ mid, larg.Ordered rank (rank o + 1) mid ∧ rarg.Ordered rank mid hi
  | t, lo, hi => lo ≤ rank t.oid ∧ rank t.oid < hi

namespace Tree.Ordered

variable {rank : Oid → Nat} {t : Tree} {lo hi : Nat}

theorem root (h : t.Ordered rank lo hi) : lo ≤ rank t.oid ∧ rank t.oid < hi := by
  cases t <;> first | exact h | exact h.1

theorem le (h : t.Ordered rank lo hi) : lo ≤ hi :=
  h.root.1.trans (Nat.le_of_lt h.root.2)

theorem mono (h : t.Ordered rank lo hi) {lo' hi' : Nat} (hl : lo' ≤ lo) (hh : hi ≤ hi') :
    t.Ordered rank lo' hi' := by
  induction t generalizing lo hi lo' hi' with
  | name o n => exact ⟨hl.trans h.1, h.2.trans_le hh⟩
  | value o v => exact ⟨hl.trans h.1, h.2.trans_le hh⟩
  | «as» o arg n g ih =>
    exact ⟨⟨hl.trans h.1.1, h.1.2.trans_le hh⟩, ih h.2 (Nat.le_refl _) hh⟩
  | unOp o op arg ih =>
    exact ⟨⟨hl.trans h.1.1, h.1.2.trans_le hh⟩, ih h.2 (Nat.le_refl _) hh⟩
  | coerce o c arg ih =>
    exact ⟨⟨hl.trans h.1.1, h.1.2.trans_le hh⟩, ih h.2 (Nat.le_refl _) hh⟩
  | castTo o arg ih =>
    exact ⟨⟨hl.trans h.1.1, h.1.2.trans_le hh⟩, ih h.2 (Nat.le_refl _) hh⟩
  | algOp o op larg rarg ihl ihr =>
    obtain ⟨ho, mid, hlm, hmr⟩ := h
    exact ⟨⟨hl.trans ho.1, ho.2.trans_le hh⟩, mid, hlm, ihr hmr (Nat.le_refl _) hh⟩
  | nonAlgOp o op larg rarg ihl ihr =>
    obtain ⟨ho, mid, hlm, hmr⟩ := h
    exact ⟨⟨hl.trans ho.1, ho.2.trans_le hh⟩, mid, hlm, ihr hmr (Nat.le_refl _) hh⟩
  | other o => exact ⟨hl.trans h.1, h.2.trans_le hh⟩

/-- The nodes of a tree without repetitions, by their places in a list of which they are part. -/
theorem of_nodup {L : List Oid} (hL : L.Nodup) (before after : List Oid)
    (h : L = before ++ (t.oids ++ after)) :
    t.Ordered L.idxOf before.length (before.length + t.oids.length) := by
  have place (o : Oid) (before rest : List Oid) (h : L = before ++ o :: rest) :
      L.idxOf o = before.length := by
    have hn : o ∉ before := by
      intro hm
      rw [h] at hL
      exact (List.nodup_append.mp hL).2.2 o hm o List.mem_cons_self rfl
    rw [h, List.idxOf_append_of_notMem hn, List.idxOf_cons_self, Nat.add_zero]
  induction t generalizing before after with
  | name o n =>
    have ho := place o before after (by simpa [oids] using h)
    simp [Ordered, oid, oids, ho]
  | value o v =>
    have ho := place o before after (by simpa [oids] using h)
    simp [Ordered, oid, oids, ho]
  | other o =>
    have ho := place o before after (by simpa [oids] using h)
    simp [Ordered, oid, oids, ho]
  | «as» o arg n g ih =>
    have ho := place o before (arg.oids ++ after) (by simpa [oids] using h)
    have ha := ih (before ++ [o]) after (by simpa [oids] using h)
    refine ⟨by simp [oids, ho], ?_⟩
    refine ha.mono (by simp [ho]) ?_
    simp [oids]
    omega
  | unOp o op arg ih =>
    have ho := place o before (arg.oids ++ after) (by simpa [oids] using h)
    have ha := ih (before ++ [o]) after (by simpa [oids] using h)
    refine ⟨by simp [oids, ho], ?_⟩
    refine ha.mono (by simp [ho]) ?_
    simp [oids]
    omega
  | coerce o c arg ih =>
    have ho := place o before (arg.oids ++ after) (by simpa [oids] using h)
    have ha := ih (before ++ [o]) after (by simpa [oids] using h)
    refine ⟨by simp [oids, ho], ?_⟩
    refine ha.mono (by simp [ho]) ?_
    simp [oids]
    omega
  | castTo o arg ih =>
    have ho := place o before (arg.oids ++ after) (by simpa [oids] using h)
    have ha := ih (before ++ [o]) after (by simpa [oids] using h)
    refine ⟨by simp [oids, ho], ?_⟩
    refine ha.mono (by simp [ho]) ?_
    simp [oids]
    omega
  | algOp o op larg rarg ihl ihr =>
    have ho := place o before (larg.oids ++ rarg.oids ++ after) (by simpa [oids] using h)
    have hl := ihl (before ++ [o]) (rarg.oids ++ after) (by simpa [oids] using h)
    have hr := ihr (before ++ o :: larg.oids) after (by simpa [oids] using h)
    refine ⟨by simp [oids, ho], before.length + 1 + larg.oids.length, ?_, ?_⟩
    · exact hl.mono (by simp [ho]) (by simp)
    · refine hr.mono (by simp; omega) ?_
      simp [oids]
      omega
  | nonAlgOp o op larg rarg ihl ihr =>
    have ho := place o before (larg.oids ++ rarg.oids ++ after) (by simpa [oids] using h)
    have hl := ihl (before ++ [o]) (rarg.oids ++ after) (by simpa [oids] using h)
    have hr := ihr (before ++ o :: larg.oids) after (by simpa [oids] using h)
    refine ⟨by simp [oids, ho], before.length + 1 + larg.oids.length, ?_, ?_⟩
    · exact hl.mono (by simp [ho]) (by simp)
    · refine hr.mono (by simp; omega) ?_
      simp [oids]
      omega

end Tree.Ordered

-- ---------------------------------------------------------------------------
-- What signatures depend on
-- ---------------------------------------------------------------------------

def DependsBefore (rank : Oid → Nat) (b : Nat) (dependsOn : Option Oid) : Prop :=
  ∀ w ∈ dependsOn, rank w < b

theorem dependsBefore_none {rank : Oid → Nat} {b : Nat} : DependsBefore rank b none := by
  intro w hw
  cases hw

/-- All that the signature depends on comes before. -/
abbrev Sig.Before (rank : Oid → Nat) (b : Nat) : Sig → Prop :=
  Sig.Deep (DependsBefore rank b) fun _ => True

theorem Sig.Before.mono {rank : Oid → Nat} {b b' : Nat} (hb : b ≤ b') (s : Sig)
    (h : s.Before rank b) : s.Before rank b' :=
  Sig.Deep.mono (fun _ hd w hw => (hd w hw).trans_le hb) (fun _ h => h) s h

theorem Sig.Before.hereditary {S : Scheme} {rank : Oid → Nat} {b : Nat} :
    Hereditary S (Sig.Before rank b) :=
  Sig.Deep.hereditary dependsBefore_none fun _ _ => trivial

theorem Tree.Ordered.makes {rank : Oid → Nat} {t : Tree} {lo hi : Nat}
    (h : t.Ordered rank lo hi) : t.Makes (Sig.Before rank hi) := by
  have self {o : Oid} (ho : rank o < hi) : DependsBefore rank hi (some o) := by
    intro w hw
    cases hw
    exact ho
  induction t generalizing lo with
  | name o n => exact fun s hs => hs.setDependsOn (self h.2)
  | value => trivial
  | «as» o arg n g ih => exact ⟨ih h.2, fun v hv => ⟨self h.1.2, trivial, hv⟩⟩
  | unOp o op arg ih => exact ih h.2
  | coerce o c arg ih => exact ih h.2
  | castTo o arg ih => exact ih h.2
  | algOp o op larg rarg ihl ihr =>
    obtain ⟨-, mid, hl, hr⟩ := h
    exact ⟨ihl (hl.mono (Nat.le_refl _) hr.le), ihr hr⟩
  | nonAlgOp o op larg rarg ihl ihr =>
    obtain ⟨-, mid, hl, hr⟩ := h
    exact ⟨ihl (hl.mono (Nat.le_refl _) hr.le), ihr hr⟩
  | other => trivial

theorem State.All.mono {P Q : Sig → Prop} {st : State} (h : st.All P) (hpq : ∀ s, P s → Q s) :
    st.All Q :=
  ⟨fun s hs => hpq s (h.qres s hs), fun sec hs b hb => hpq _ (h.envs sec hs b hb)⟩

-- ---------------------------------------------------------------------------
-- What the names depend on
-- ---------------------------------------------------------------------------

/-- What is noted in the nodes as what the names depend on. -/
def dependencies (nodes : Nodes) (o : Oid) : Option Oid := (nodes o).dependsOn

/-- Names depend on nodes before them. -/
def Backward (rank : Oid → Nat) (nodes : Nodes) : Prop :=
  ∀ o, DependsBefore rank (rank o) (dependencies nodes o)

/-- What holds after an evaluation, successful or not. -/
def Outcome.Leaves (P : State → Prop) : Outcome → Prop
  | ok st => P st
  | failed st => P st
  | crash => True

theorem Outcome.Leaves.andThen {P Q : State → Prop} {o : Outcome} {f : State → Outcome}
    (h : o.Leaves P) (hpq : ∀ st, P st → Q st)
    (hf : ∀ st, o = .ok st → P st → (f st).Leaves Q) : (o.andThen f).Leaves Q := by
  cases o with
  | ok st => exact hf st rfl h
  | failed st => exact hpq st h
  | crash => trivial

theorem Outcome.Leaves.mono {P Q : State → Prop} {o : Outcome} (h : o.Leaves P)
    (hpq : ∀ st, P st → Q st) : o.Leaves Q := by
  cases o with
  | ok st => exact hpq st h
  | failed st => exact hpq st h
  | crash => trivial

section
variable {st : State}

theorem mark_dependencies (o : Oid) {f : NodeInfo → NodeInfo}
    (hf : ∀ i, (f i).dependsOn = i.dependsOn) :
    dependencies (st.mark o f).nodes = dependencies st.nodes := by
  funext p
  simp only [dependencies, State.mark, Function.update_apply]
  split
  · rename_i hp
    rw [hf, hp]
  · rfl

@[simp] theorem setCard_dependencies (o : Oid) (c : Card) :
    dependencies (st.setCard o c).nodes = dependencies st.nodes :=
  mark_dependencies o fun _ => rfl

@[simp] theorem evalCard_dependencies (t : Tree) :
    dependencies (evalCard st t).nodes = dependencies st.nodes := by
  unfold evalCard
  split <;> exact setCard_dependencies _ _

@[simp] theorem pushSig_nodes (s : Sig) : (st.pushSig s).nodes = st.nodes := rfl

@[simp] theorem pop_nodes : st.pop.nodes = st.nodes := rfl

@[simp] theorem pushBinders_nodes (binders : List Binder) :
    (st.pushBinders binders).nodes = st.nodes := by
  unfold State.pushBinders
  split <;> rfl

@[simp] theorem popSections_nodes (n : Nat) : (State.popSection^[n] st).nodes = st.nodes := by
  induction n generalizing st with
  | zero => rfl
  | succ n ih => exact ih

theorem noteBound_dependencies (o : Oid) (bw : Binder) :
    dependencies (noteBound o st bw).nodes = dependencies st.nodes := by
  simp only [noteBound]
  cases bw.dependsOn with
  | none => exact mark_dependencies o fun _ => rfl
  | some w =>
    refine (mark_dependencies w ?_).trans (mark_dependencies o ?_)
    · exact fun _ => rfl
    · exact fun _ => rfl

theorem calculateBoundUsed_dependencies (run : Nat) (o : Oid) (vec : List Binder) :
    dependencies (calculateBoundUsed run o vec st).nodes = dependencies st.nodes := by
  simp only [calculateBoundUsed]
  split
  · induction vec generalizing st with
    | nil => rfl
    | cons bw vec ih => exact ih.trans (noteBound_dependencies o bw)
  · rfl

theorem nameEval_backward {rank : Oid → Nat} {run : Nat} {o : Oid} {n : String}
    (h : st.All (Sig.Before rank (rank o))) (hb : Backward rank st.nodes) :
    (nameEval run o n st).Leaves fun st' => Backward rank st'.nodes := by
  simp only [nameEval]
  split
  · exact hb
  · rename_i sect size vec hbind
    split
    · exact hb
    · rename_i bw hlast
      obtain ⟨section_, hs, hvec⟩ := bindName2_mem hbind
      have hbw := h.envs section_ hs bw (hvec bw (List.mem_of_getLast? hlast)).1
      intro p
      rw [calculateBoundUsed_dependencies]
      simp only [dependencies, State.mark, pushSig_nodes, Function.update_apply]
      split
      · rename_i hp
        subst hp
        exact hbw.1
      · exact hb p

/-- The operators leave what the names depend on. -/
theorem unOpEval_dependencies (S : Scheme) (o : Oid) (op : UnOp) :
    (unOpEval S o op st).Leaves fun st' => dependencies st'.nodes = dependencies st.nodes := by
  simp only [unOpEval]
  repeat' split
  all_goals first | rfl | trivial | exact setCard_dependencies _ _

theorem algOpEval_dependencies (t : Tree) (op : AlgOp) (lSig : Option Sig) :
    (algOpEval t op lSig st).Leaves fun st' =>
      dependencies st'.nodes = dependencies st.nodes := by
  simp only [algOpEval]
  repeat' split
  all_goals simp [Outcome.Leaves]

theorem openSections_dependencies {S : Scheme} {o : Oid} {lSig : Option Sig} {st' : State}
    {sToPop : Nat} (h : openSections S o lSig st = some (st', sToPop)) :
    dependencies st'.nodes = dependencies st.nodes := by
  simp only [openSections] at h
  cases lSig with
  | none => cases h
  | some lSig =>
    simp only at h
    split at h
    · cases h
    · rename_i binders hn
      cases h
      refine (mark_dependencies o ?_).trans ?_
      · exact fun _ => rfl
      · rw [pushBinders_nodes]
        exact mark_dependencies o fun _ => rfl

theorem nonAlgOpEval_dependencies (t : Tree) (op : NonAlgOp) (lSig : Option Sig) (sToPop : Nat) :
    (nonAlgOpEval t op lSig sToPop st).Leaves fun st' =>
      dependencies st'.nodes = dependencies st.nodes := by
  simp only [nonAlgOpEval]
  repeat' split
  all_goals simp [Outcome.Leaves]

end

theorem Backward.congr {rank : Oid → Nat} {nodes nodes' : Nodes} (h : Backward rank nodes)
    (hd : dependencies nodes' = dependencies nodes) : Backward rank nodes' := by
  intro o
  rw [hd]
  exact h o

theorem State.All.later {rank : Oid → Nat} {st : State} {lo hi : Nat} (hle : lo ≤ hi)
    (h : st.All (Sig.Before rank lo)) : st.All (Sig.Before rank hi) :=
  h.mono (Sig.Before.mono hle)

/-- An evaluation notes dependencies that go backward. -/
theorem staticEval_backward {S : Scheme} {rank : Oid → Nat} {run : Nat} {t : Tree} {lo hi : Nat}
    (ht : t.Ordered rank lo hi) {st : State} (h : st.All (Sig.Before rank lo))
    (hb : Backward rank st.nodes) :
    (staticEval S run t st).Leaves fun st' => Backward rank st'.nodes := by
  induction t generalizing st lo hi with
  | name o n => exact nameEval_backward (h.later ht.1) hb
  | value o type =>
    cases type with
    | refid => exact hb
    | _ => exact hb.congr (setCard_dependencies _ _)
  | «as» o arg n group ih =>
    have ha := ih ht.2 (h.later (ht.1.1.trans (Nat.le_succ _))) hb
    refine ha.andThen (fun _ h => h) ?_
    rintro st₁ - hb₁
    split
    · trivial
    · exact hb₁.congr (evalCard_dependencies _)
  | unOp o op arg ih =>
    have ha := ih ht.2 (h.later (ht.1.1.trans (Nat.le_succ _))) hb
    refine ha.andThen (fun _ h => h) ?_
    rintro st₁ - hb₁
    exact (unOpEval_dependencies S o op).mono fun _ => hb₁.congr
  | coerce o c arg ih =>
    have ha := ih ht.2 (h.later (ht.1.1.trans (Nat.le_succ _))) hb
    refine ha.andThen (fun _ h => h) ?_
    rintro st₁ - hb₁
    split
    · trivial
    · split
      · exact hb₁
      · exact hb₁.congr (evalCard_dependencies _)
  | castTo o arg ih =>
    have ha := ih ht.2 (h.later (ht.1.1.trans (Nat.le_succ _))) hb
    refine ha.andThen (fun _ h => h) ?_
    rintro st₁ - hb₁
    exact hb₁.congr (evalCard_dependencies _)
  | algOp o op larg rarg ihl ihr =>
    obtain ⟨ho, mid, hlm, hmr⟩ := ht
    have hl := ihl hlm (h.later (ho.1.trans (Nat.le_succ _))) hb
    refine hl.andThen (fun _ h => h) ?_
    intro st₁ h₁ hb₁
    have hmid := Sig.Before.hereditary.staticEval hlm.makes
      (h.later (ho.1.trans ((Nat.le_succ _).trans hlm.le))) h₁
    refine (ihr hmr hmid hb₁).andThen (fun _ h => h) ?_
    rintro st₂ - hb₂
    exact (algOpEval_dependencies _ op _).mono fun _ => hb₂.congr
  | nonAlgOp o op larg rarg ihl ihr =>
    obtain ⟨ho, mid, hlm, hmr⟩ := ht
    have hl := ihl hlm (h.later (ho.1.trans (Nat.le_succ _))) hb
    refine hl.andThen (fun _ h => h) ?_
    intro st₁ h₁ hb₁
    have hP : Hereditary S (Sig.Before rank mid) := Sig.Before.hereditary
    have hmid := hP.staticEval hlm.makes
      (h.later (ho.1.trans ((Nat.le_succ _).trans hlm.le))) h₁
    simp only
    split
    · trivial
    · rename_i st₂ sToPop hs
      have hopen := hP.openSections hmid (fun s hm => hmid.topSig hP hm) hs
      have hb₂ := hb₁.congr (openSections_dependencies hs)
      refine (ihr hmr hopen hb₂).andThen (fun _ h => h) ?_
      rintro st₃ - hb₃
      exact (nonAlgOpEval_dependencies _ op _ sToPop).mono fun _ => hb₃.congr
  | other => exact hb

theorem statEvaluate_backward {S : Scheme} {rank : Oid → Nat} {t : Tree} {hi : Nat}
    (ht : t.Ordered rank 0 hi) {m : Memory} (hb : Backward rank m.nodes) :
    Ends (fun r => Backward rank r.2.nodes ∧ r.2.uv = m.uv ∧ r.2.drawn = m.drawn)
      (statEvaluate S t m) := by
  have hst : ((State.mk [] [] m.nodes).pushBinders S.bindBaseObjects).All (Sig.Before rank 0) :=
    S.base_all dependsBefore_none (fun _ _ => trivial) m.nodes
  have hl : (staticEval S (m.statEvalRun + 1) t _).Leaves fun st' => Backward rank st'.nodes :=
    staticEval_backward ht hst (by simpa using hb)
  simp only [statEvaluate]
  split
  · rename_i st hs
    rw [hs] at hl
    exact .ok ⟨hl, rfl, rfl⟩
  · rename_i st hs
    rw [hs] at hl
    exact .ok ⟨hl, rfl, rfl⟩
  · exact .crash

-- ---------------------------------------------------------------------------
-- Marking what is needed
-- ---------------------------------------------------------------------------

/-- The node above each node comes before it. -/
def Rising (rank : Oid → Nat) (parents : Parents) : Prop :=
  ∀ o, DependsBefore rank (rank o) (parents o)

theorem Rising.update {rank : Oid → Nat} {parents : Parents} (h : Rising rank parents) {o : Oid}
    {p : Option Oid} (hp : DependsBefore rank (rank o) p) :
    Rising rank (Function.update parents o p) := by
  intro q
  simp only [Function.update_apply]
  split
  · rename_i hq
    subst hq
    exact hp
  · exact h q

theorem DependsBefore.mono {rank : Oid → Nat} {b b' : Nat} {p : Option Oid}
    (h : DependsBefore rank b p) (hb : b ≤ b') : DependsBefore rank b' p :=
  fun w hw => (h w hw).trans_le hb

theorem dependsBefore_self {rank : Oid → Nat} {o : Oid} :
    DependsBefore rank (rank o + 1) (some o) := by
  intro w hw
  cases hw
  exact Nat.lt_succ_self _

theorem Tree.Ordered.setParents {rank : Oid → Nat} {t : Tree} {lo hi : Nat}
    (ht : t.Ordered rank lo hi) {p : Option Oid} {parents : Parents} (h : Rising rank parents)
    (hp : DependsBefore rank lo p) : Rising rank (t.setParents p parents) := by
  induction t generalizing lo hi p parents with
  | name o n => exact h.update (hp.mono ht.1)
  | value o v => exact h.update (hp.mono ht.1)
  | «as» o arg n g ih => exact ih ht.2 (h.update (hp.mono ht.1.1)) dependsBefore_self
  | unOp o op arg ih => exact ih ht.2 (h.update (hp.mono ht.1.1)) dependsBefore_self
  | coerce o c arg ih => exact ih ht.2 (h.update (hp.mono ht.1.1)) dependsBefore_self
  | castTo o arg ih => exact ih ht.2 (h.update (hp.mono ht.1.1)) dependsBefore_self
  | algOp o op larg rarg ihl ihr =>
    obtain ⟨ho, mid, hlm, hmr⟩ := ht
    have hl := ihl hlm (h.update (hp.mono ho.1)) dependsBefore_self
    exact ihr hmr hl (dependsBefore_self.mono hlm.le)
  | nonAlgOp o op larg rarg ihl ihr =>
    obtain ⟨ho, mid, hlm, hmr⟩ := ht
    have hl := ihl hlm (h.update (hp.mono ho.1)) dependsBefore_self
    exact ihr hmr hl (dependsBefore_self.mono hlm.le)
  | other o => exact h.update (hp.mono ht.1)

theorem setNeeded_dependencies (o : Oid) (nodes : Nodes) :
    dependencies (setNeeded o nodes) = dependencies nodes := by
  funext p
  simp only [dependencies, setNeeded, Function.update_apply]
  split
  · rename_i hp
    rw [hp]
  · rfl

section
variable {rank : Oid → Nat} {parents : Parents} {nodes : Nodes}

/-- What marking returns, where `nodes` was marked. -/
abbrev Marked (nodes : Nodes) (x : Except Halt Nodes) : Prop :=
  Ends (fun nodes' => dependencies nodes' = dependencies nodes) x

theorem onNode_ends {mark : Oid → Nodes → Except Halt Nodes} {b : Nat} {w : Option Oid}
    (hmark : ∀ o, rank o < b → Marked nodes (mark o nodes)) (hw : DependsBefore rank b w) :
    Marked nodes (onNode mark w nodes) := by
  cases w with
  | none => exact .ok rfl
  | some o => exact hmark o (hw o rfl)

/-- From one node to those above it and those it depends on. -/
theorem markNeededUp_ends (hp : Rising rank parents) {n : Nat} {o : Oid} (hn : rank o < n)
    (hb : Backward rank nodes) : Marked nodes (markNeededUp parents n o nodes) := by
  induction n generalizing o nodes with
  | zero => omega
  | succ n ih =>
    have go {nodes : Nodes} (hb : Backward rank nodes) {w : Option Oid}
        (hw : DependsBefore rank (rank o) w) :
        Marked nodes (onNode (markNeededUp parents n) w nodes) :=
      onNode_ends (fun p hlt => ih (by omega) hb) hw
    have hs := setNeeded_dependencies o nodes
    have hb₁ := hb.congr hs
    refine (go hb₁ (hp o)).bind ?_
    rintro nodes₂ - h₂
    have hb₂ := hb₁.congr h₂
    exact (go hb₂ (hb₂ o)).mono fun _ h => h.trans (h₂.trans hs)

theorem markBoundIn_ends (hp : Rising rank parents) {n : Nat} (hn : ∀ o, rank o < n)
    (boundIn : List (Option Oid)) (hb : Backward rank nodes) :
    Marked nodes (markBoundIn parents n boundIn nodes) := by
  induction boundIn generalizing nodes with
  | nil => exact .ok rfl
  | cons w boundIn ih =>
    have hw : DependsBefore rank n w := fun o _ => hn o
    refine (onNode_ends (fun o ho => markNeededUp_ends hp ho hb) hw).bind ?_
    rintro nodes' - hd
    exact (ih (hb.congr hd)).mono fun _ h => h.trans hd

theorem Backward.setNeeded (hb : Backward rank nodes) (o : Oid) :
    Backward rank (setNeeded o nodes) := hb.congr (setNeeded_dependencies o nodes)

theorem Marked.after {o : Oid} {x : Except Halt Nodes} (h : Marked (setNeeded o nodes) x) :
    Marked nodes x := h.mono fun _ h => h.trans (setNeeded_dependencies o nodes)

theorem markNeeded2_ends (hp : Rising rank parents) {n : Nat} (hn : ∀ o, rank o < n) (t : Tree)
    (hb : Backward rank nodes) : Marked nodes (markNeeded2 parents n t nodes) := by
  induction t generalizing nodes with
  | name o name => exact Marked.after (markBoundIn_ends hp hn _ (hb.setNeeded o))
  | value o v => exact .ok (setNeeded_dependencies o nodes)
  | «as» o arg n g ih => exact Marked.after (ih (hb.setNeeded o))
  | unOp o op arg ih => exact Marked.after (ih (hb.setNeeded o))
  | coerce o c arg ih => exact Marked.after (ih (hb.setNeeded o))
  | castTo o arg ih => exact Marked.after (ih (hb.setNeeded o))
  | algOp o op larg rarg ihl ihr =>
    have h₁ := Marked.after (ihl (hb.setNeeded o))
    refine h₁.bind ?_
    rintro nodes' - hd
    exact (ihr (hb.congr hd)).mono fun _ h => h.trans hd
  | nonAlgOp o op larg rarg ihl ihr =>
    have h₁ := Marked.after (ihr (hb.setNeeded o))
    refine h₁.bind ?_
    rintro nodes' - hd
    split
    · exact (ihl (hb.congr hd)).mono fun _ h => h.trans hd
    · exact .ok hd
  | other o => exact .ok rfl

end

-- ---------------------------------------------------------------------------
-- The removal
-- ---------------------------------------------------------------------------

/-- A tree and what is left when a dead subquery is removed. -/
inductive Dies : Tree → Death → Prop
  | algLeft {o op larg rarg} : Dies (.algOp o op larg rarg) ⟨larg, o, larg.oid⟩
  | algRight {o op larg rarg} : Dies (.algOp o op larg rarg) ⟨rarg, o, rarg.oid⟩
  | nonAlg {o op larg rarg} : Dies (.nonAlgOp o op larg rarg) ⟨larg, o, larg.oid⟩
  | as {o arg n g d} (h : Dies arg d) : Dies (.as o arg n g) (d.under (.as o · n g))
  | unOp {o op arg d} (h : Dies arg d) : Dies (.unOp o op arg) (d.under (.unOp o op ·))
  | coerce {o c arg d} (h : Dies arg d) : Dies (.coerce o c arg) (d.under (.coerce o c ·))
  | castTo {o arg d} (h : Dies arg d) : Dies (.castTo o arg) (d.under (.castTo o ·))
  | inAlgLeft {o op larg rarg d} (h : Dies larg d) :
      Dies (.algOp o op larg rarg) (d.under (.algOp o op · rarg))
  | inAlgRight {o op larg rarg d} (h : Dies rarg d) :
      Dies (.algOp o op larg rarg) (d.under (.algOp o op larg ·))
  | inNonAlgLeft {o op larg rarg d} (h : Dies larg d) :
      Dies (.nonAlgOp o op larg rarg) (d.under (.nonAlgOp o op · rarg))
  | inNonAlgRight {o op larg rarg d} (h : Dies rarg d) :
      Dies (.nonAlgOp o op larg rarg) (d.under (.nonAlgOp o op larg ·))

theorem getDeath_dies {nodes : Nodes} {t : Tree} {d : Death} (h : getDeath nodes t = some d) :
    Dies t d := by
  induction t generalizing d with
  | «as» o arg n g ih =>
    obtain ⟨d', h', rfl⟩ := Option.map_eq_some_iff.mp h
    exact .as (ih h')
  | unOp o op arg ih =>
    obtain ⟨d', h', rfl⟩ := Option.map_eq_some_iff.mp h
    exact .unOp (ih h')
  | coerce o c arg ih =>
    obtain ⟨d', h', rfl⟩ := Option.map_eq_some_iff.mp h
    exact .coerce (ih h')
  | castTo o arg ih =>
    obtain ⟨d', h', rfl⟩ := Option.map_eq_some_iff.mp h
    exact .castTo (ih h')
  | algOp o op larg rarg ihl ihr =>
    simp only [getDeath] at h
    split at h
    · cases h
      exact .algLeft
    · split at h
      · cases h
        exact .algRight
      · split at h
        · rename_i d' hl
          cases h
          exact .inAlgLeft (ihl hl)
        · obtain ⟨d', h', rfl⟩ := Option.map_eq_some_iff.mp h
          exact .inAlgRight (ihr h')
  | nonAlgOp o op larg rarg ihl ihr =>
    simp only [getDeath] at h
    split at h
    · cases h
      exact .nonAlg
    · split at h
      · rename_i d' hl
        cases h
        exact .inNonAlgLeft (ihl hl)
      · obtain ⟨d', h', rfl⟩ := Option.map_eq_some_iff.mp h
        exact .inNonAlgRight (ihr h')
  | _ => cases h

section
variable {t : Tree} {d : Death}

theorem Dies.total (h : Dies t d) (w) : d.tree.total w ≤ t.total w := by
  induction h with
  | algLeft | algRight | nonAlg =>
    simp only [Tree.total]
    omega
  | _ =>
    simp only [Death.under, Tree.total]
    omega

theorem Dies.size (h : Dies t d) : d.tree.size < t.size := by
  induction h with
  | algLeft | algRight | nonAlg =>
    simp only [Tree.size, Tree.total]
    omega
  | _ =>
    simp only [Death.under, Tree.size, Tree.total] at *
    omega

theorem Dies.ordered {rank : Oid → Nat} (h : Dies t d) {lo hi : Nat} (ht : t.Ordered rank lo hi) :
    d.tree.Ordered rank lo hi ∧ rank d.parent < rank d.live := by
  induction h generalizing lo hi with
  | algLeft =>
    obtain ⟨ho, mid, hlm, hmr⟩ := ht
    exact ⟨hlm.mono (ho.1.trans (Nat.le_succ _)) hmr.le, hlm.root.1⟩
  | algRight =>
    obtain ⟨ho, mid, hlm, hmr⟩ := ht
    exact ⟨hmr.mono (ho.1.trans ((Nat.le_succ _).trans hlm.le)) (Nat.le_refl _),
      hlm.le.trans hmr.root.1⟩
  | nonAlg =>
    obtain ⟨ho, mid, hlm, hmr⟩ := ht
    exact ⟨hlm.mono (ho.1.trans (Nat.le_succ _)) hmr.le, hlm.root.1⟩
  | «as» h ih => exact ⟨⟨ht.1, (ih ht.2).1⟩, (ih ht.2).2⟩
  | unOp h ih => exact ⟨⟨ht.1, (ih ht.2).1⟩, (ih ht.2).2⟩
  | coerce h ih => exact ⟨⟨ht.1, (ih ht.2).1⟩, (ih ht.2).2⟩
  | castTo h ih => exact ⟨⟨ht.1, (ih ht.2).1⟩, (ih ht.2).2⟩
  | inAlgLeft h ih =>
    obtain ⟨ho, mid, hlm, hmr⟩ := ht
    exact ⟨⟨ho, mid, (ih hlm).1, hmr⟩, (ih hlm).2⟩
  | inAlgRight h ih =>
    obtain ⟨ho, mid, hlm, hmr⟩ := ht
    exact ⟨⟨ho, mid, hlm, (ih hmr).1⟩, (ih hmr).2⟩
  | inNonAlgLeft h ih =>
    obtain ⟨ho, mid, hlm, hmr⟩ := ht
    exact ⟨⟨ho, mid, (ih hlm).1, hmr⟩, (ih hlm).2⟩
  | inNonAlgRight h ih =>
    obtain ⟨ho, mid, hlm, hmr⟩ := ht
    exact ⟨⟨ho, mid, hlm, (ih hmr).1⟩, (ih hmr).2⟩

end

/-- What is left of a tree when its dead subqueries are removed. -/
structure Alive (t : Tree) (m : Memory) (r : Tree × Memory) : Prop where
  total : ∀ w, r.1.total w ≤ t.total w
  uv : r.2.uv = m.uv
  drawn : r.2.drawn = m.drawn

theorem rmvDeath_ends {S : Scheme} {rank : Oid → Nat} {fuel : Nat} (hfuel : ∀ o, rank o < fuel)
    {n hi : Nat} {t : Tree} {parents : Parents} {m : Memory} (hn : t.size < n)
    (ht : t.Ordered rank 0 hi) (hp : Rising rank parents) (hb : Backward rank m.nodes) :
    Ends (Alive t m) (rmvDeath S fuel n t parents m) := by
  induction n generalizing t parents m with
  | zero => omega
  | succ n ih =>
    simp only [rmvDeath]
    refine (statEvaluate_backward ht hb).bind ?_
    rintro ⟨ok, m₁⟩ - ⟨hb₁, huv, hdr⟩
    refine (markNeeded2_ends hp hfuel t hb₁).bind ?_
    rintro nodes - hd
    simp only
    split
    · exact .ok ⟨fun _ => Nat.le_refl _, huv, hdr⟩
    · rename_i death hdeath
      have hdies := getDeath_dies hdeath
      have hsize := hdies.size
      obtain ⟨hord, hlive⟩ := hdies.ordered ht
      have hup : DependsBefore rank (rank death.live) (parents death.parent) :=
        (hp death.parent).mono (Nat.le_of_lt hlive)
      refine (ih (m := { m₁ with nodes }) (by omega) hord (hp.update hup) (hb₁.congr hd)).mono ?_
      rintro r ⟨hle, hruv, hrdr⟩
      exact ⟨fun w => (hle w).trans (hdies.total w), hruv.trans huv, hrdr.trans hdr⟩

end Loxim.QueryParser.Optimizer
