import Loxim.Log.Serial
import Loxim.TransactionManager.Isolation

/-!
# Runs under locks are serial

The locks see to it that a call has its object for itself, so that what a run leaves
can be recovered: it is what the committed transactions leave when they run one after
another, and what a transaction reads is what it reads then.
-/

namespace Loxim.Log.System

variable {s s' : System} {e : Event} {t : Nat}

/-- A transaction that has ended stays as it is. -/
theorem stage_gone (h : s.Inv) (hlegal : s.Legal e) (hs : s.step e = some s')
    (ht : s.stage t = .committed ∨ s.stage t = .rolledBack) : s'.stage t = s.stage t := by
  have hset {u : Nat} {g : Stage} (hstage : s'.stage = Function.update s.stage u g)
      (hu : s.stage u ≠ .committed ∧ s.stage u ≠ .rolledBack) : s'.stage t = s.stage t := by
    have hne : t ≠ u := by
      rintro rfl
      exact ht.elim hu.1 hu.2
    rw [hstage, Function.update_of_ne hne]
  cases e with
  | enter =>
    cases hs
    have hunborn := h.fresh (Nat.le_refl s.transactionId)
    exact hset rfl (by simp [hunborn])
  | begin u =>
    cases hs
    exact hset rfl (by simp [show s.stage u = _ from hlegal])
  | commit u | abort u =>
    cases hs
    exact hset rfl (by simp [hlegal.1])
  | rollback u =>
    cases hs
    exact hset rfl (by simp [show s.stage u = _ from hlegal])
  | undo u =>
    cases hu : s.stage u with
    | undoing rest =>
      simp only [System.step, hu] at hs
      cases rest with
      | nil =>
        cases hs
        exact hset rfl (by simp [hu])
      | cons x rest =>
        cases x with
        | write r =>
          simp only [System.undo] at hs
          split at hs
          · obtain ⟨⟨d, code⟩, -, hs⟩ := Option.bind_eq_some_iff.mp hs
            cases hs
            exact hset rfl (by simp [hu])
          · cases hs
            exact hset rfl (by simp [hu])
        | begin v | commit v | rollback v | ckpt tids | endCkpt | shutdown =>
          cases hs
          exact hset rfl (by simp [hu])
    | unborn | entered | running | committed | undone | failed | rolledBack =>
      simp [System.step, hu] at hs
  | work =>
    obtain ⟨⟨u, changes, logged⟩, hwork, hs⟩ := Option.bind_eq_some_iff.mp hs
    cases changes with
    | nil => cases hs
    | cons c rest =>
      cases logged with
      | false =>
        cases hs
        rfl
      | true =>
        obtain ⟨d, -, hs⟩ := Option.bind_eq_some_iff.mp hs
        cases hs
        rfl
  | endCkpt =>
    obtain ⟨d, -, rfl⟩ := Option.map_eq_some_iff.mp hs
    rfl
  | call u c | leave u | ckpt =>
    cases hs
    rfl

end Loxim.Log.System

namespace Loxim.TManager

open Store Log Lock

namespace TransactionManager

variable {n k : Nat} {priority : Fin n → Int} {m m' : TransactionManager n} {t u : Fin n} {lid : Nat}
  {mode : AccessMode} {a : Action n} {e : System.Event}

/-- The locks and the log are in order, and who unlocks has ended. -/
structure Ordered (m : TransactionManager n) : Prop where
  inv : m.Inv
  system : m.system.Inv
  gone {t : Fin n} : m.stage t = .unlocking ∨ m.stage t = .ended →
    m.system.stage t = .committed ∨ m.system.stage t = .rolledBack
  serial : base m.system.log = execute (serial m.system.log)

theorem ordered_init (k : Nat) : (init k : TransactionManager n).Ordered where
  inv := inv_init k
  system := System.inv_init k
  gone := by
    rintro t (h | h) <;> cases h
  serial := rfl

/-- An unfinished transaction owns what it has written. -/
theorem Ordered.owner (h : m.Ordered) {v : Nat} (hun : Unfinished m.system.log v)
    (hw : Wrote m.system.log v lid) : ∃ u : Fin n, v = u ∧ m.Owns u lid := by
  obtain ⟨u, rfl, hu⟩ := h.inv.stored.wrote hw
  have hopen : ¬(m.stage u = .unlocking ∨ m.stage u = .ended) := by
    intro hend
    have hplaced := h.system.placed u
    rcases h.gone hend with hstage | hstage
    · rw [hstage] at hplaced
      exact hun.2.1 hplaced
    · rw [hstage] at hplaced
      exact hun.2.2 hplaced.1
  exact ⟨u, rfl, ((or_assoc.mpr hu).resolve_left hopen)⟩

/-- Nobody else has written the object of a transaction and may roll it back. -/
theorem Ordered.alone (h : m.Ordered) (ht : (lid, mode) ∈ m.granted t) :
    System.Alone m.system.log t lid := by
  intro v hun hw
  obtain ⟨u, rfl, hu⟩ := h.owner hun hw
  by_contra hne
  exact (h.inv.locked.owner hu fun heq => hne (congrArg Fin.val heq.symm)).2 mode ht

theorem Ordered.exclusive (h : m.Ordered) (hlegal : m.Legal a) (hcareful : m.Careful priority a)
    (hpointed : m.Pointed a) (he : m.event a = some e) : m.system.Exclusive e := by
  cases e with
  | call v c =>
    obtain ⟨u, rfl, hbegins, hhas⟩ := h.inv.begins hlegal hcareful he
    have hright := hpointed _ hbegins
    cases c with
    | createObject name value | getObject lid => trivial
    | modifyObject o dv | deleteObject o | addRoot o | removeRoot o =>
      have hgranted : (o.lid, .write) ∈ m.granted u := hhas.resolve_left (by simp)
      exact ⟨h.alone hgranted, hright⟩
  | enter | begin v | work | commit v | abort v | undo v | rollback v | leave v | ckpt | endCkpt =>
    trivial

/-- A transaction goes to a place in a call that is not the end. -/
def Goes (m m' : TransactionManager n) : Prop :=
  ∃ u g, m'.stage = Function.update m.stage u g ∧ g ≠ .unlocking ∧ g ≠ .ended

theorem lock_stage {next : Option Operation} (hs : m.lock priority t lid mode next = some m') :
    m.Goes m' := by
  unfold TransactionManager.lock at hs
  split at hs
  · cases hs
    exact ⟨t, .failed, rfl, nofun, nofun⟩
  · rw [Option.bind_eq_bind, Option.bind_eq_some_iff] at hs
    obtain ⟨locks, -, hs⟩ := hs
    cases hs
    split
    · refine ⟨t, next.elim .idle .locked, rfl, ?_, ?_⟩ <;> cases next <;> nofun
    · exact ⟨t, .locking lid mode _ next, rfl, (fun heq => by cases heq), fun heq => by cases heq⟩

theorem answer_stage (hs : m.answer priority t = some m') : m.Goes m' := by
  unfold TransactionManager.answer at hs
  split at hs
  · rename_i lid mode place next id hstage hin
    rw [Option.bind_eq_bind, Option.bind_eq_some_iff] at hs
    obtain ⟨⟨p, l⟩, -, hs⟩ := hs
    rw [Option.bind_eq_bind, Option.bind_eq_some_iff] at hs
    obtain ⟨locks, -, hs⟩ := hs
    split at hs
    · cases hs
      refine ⟨t, next.elim .idle .locked, rfl, ?_, ?_⟩ <;> cases next <;> nofun
    · cases hs
      exact ⟨t, .failed, rfl, nofun, nofun⟩
  · cases hs

theorem enter_stage {c : Operation} (hs : m.enter t c = some m') : m.Goes m' := by
  unfold TransactionManager.enter at hs
  rw [Option.bind_eq_bind, Option.bind_eq_some_iff] at hs
  obtain ⟨system, -, hs⟩ := hs
  cases hs
  exact ⟨t, _, rfl, (fun heq => by cases heq), fun heq => by cases heq⟩

theorem Goes.gone (h : m.Goes m') (ht : m'.stage t = .unlocking ∨ m'.stage t = .ended) :
    m.stage t = .unlocking ∨ m.stage t = .ended := by
  obtain ⟨u, g, hstage, h₁, h₂⟩ := h
  rw [hstage] at ht
  rcases eq_or_ne t u with rfl | hne
  · rw [Function.update_self] at ht
    exact (ht.elim h₁ h₂).elim
  · rwa [Function.update_of_ne hne] at ht

/-- A transaction comes to its end through `unlockAll`. -/
theorem step_gone (hlegal : m.Legal a) (hs : m.step priority a = some m')
    (ht : m'.stage t = .unlocking ∨ m'.stage t = .ended) :
    (m.stage t = .unlocking ∨ m.stage t = .ended) ∨ a = .unlockAll t := by
  cases a with
  | log e | manager c =>
    simp only [TransactionManager.step, Option.map_eq_some_iff] at hs
    obtain ⟨x, -, rfl⟩ := hs
    exact .inl ht
  | lock v i mode next => exact .inl ((lock_stage hs).gone ht)
  | answer v => exact .inl ((answer_stage hs).gone ht)
  | createObject v name value => exact .inl ((enter_stage hs).gone ht)
  | addRoot v o => exact .inl ((enter_stage hs).gone ht)
  | call v =>
    simp only [TransactionManager.step] at hs
    split at hs
    · exact .inl ((enter_stage hs).gone ht)
    · cases hs
  | again v =>
    simp only [TransactionManager.step] at hs
    split at hs
    · exact .inl ((lock_stage hs).gone ht)
    · cases hs
  | leave v =>
    cases hs
    have hgoes : m.Goes ((m.unlockSem v).goto v .idle) :=
      ⟨v, .idle, rfl, (fun heq => by cases heq), (fun heq => by cases heq)⟩
    exact .inl (hgoes.gone ht)
  | commit v | abort v =>
    simp only [TransactionManager.step, Option.map_eq_some_iff] at hs
    obtain ⟨x, -, rfl⟩ := hs
    have hgoes : m.Goes (m.goto v .ending) :=
      ⟨v, .ending, rfl, (fun heq => by cases heq), (fun heq => by cases heq)⟩
    exact .inl (hgoes.gone ht)
  | unlockAll v =>
    simp only [TransactionManager.step, Option.map_eq_some_iff] at hs
    obtain ⟨x, -, rfl⟩ := hs
    rcases eq_or_ne t v with rfl | hne
    · exact .inr rfl
    · simp only [goto_other hne] at ht
      exact .inl ht
  | ended v =>
    simp only [TransactionManager.step, Option.map_eq_some_iff] at hs
    obtain ⟨x, -, rfl⟩ := hs
    rcases eq_or_ne t v with rfl | hne
    · exact .inl (.inl hlegal.1)
    · simp only [goto_other hne] at ht
      exact .inl ht

theorem Ordered.step (h : m.Ordered) (hlegal : m.Legal a) (hcareful : m.Careful priority a)
    (hpointed : m.Pointed a) (hsettled : m.Settled a) (hs : m.step priority a = some m') :
    m'.Ordered ∧ (m'.system = m.system ∨ ∃ e, m.event a = some e ∧ m.system.Legal e ∧
      m.system.Exclusive e ∧ m.system.Settled e ∧ m.system.step e = some m'.system) := by
  have hinv := h.inv.step hlegal hcareful hs
  have hgone {t : Fin n} (ht : m'.stage t = .unlocking ∨ m'.stage t = .ended) :
      m.system.stage t = .committed ∨ m.system.stage t = .rolledBack := by
    rcases step_gone hlegal hs ht with ht | rfl
    · exact h.gone ht
    · rcases hlegal.2.1 with hstage | hstage | hstage
      · exact .inl hstage
      · exact .inr hstage
      · have hplaced := h.system.placed t
        rw [hstage] at hplaced
        exact hplaced.elim
  rcases step_system hs with ⟨-, hsame⟩ | ⟨e, he, hsystem⟩
  · exact ⟨⟨hinv, hsame ▸ h.system, fun ht => hsame ▸ hgone ht, hsame ▸ h.serial⟩, .inl hsame⟩
  · have hl := event_legal hlegal he
    have hx := h.exclusive hlegal hcareful hpointed he
    have hd : m.system.Settled e := by
      cases e with
      | ckpt =>
        cases a with
        | log e =>
          cases he
          exact hsettled
        | call v =>
          obtain ⟨c, -, heq⟩ := Option.map_eq_some_iff.mp he
          cases heq
        | _ => cases he
      | _ => trivial
    refine ⟨⟨hinv, h.system.step hl hx hd hsystem, fun {t} ht => ?_,
      System.serial_step h.system hl h.serial hsystem⟩, .inr ⟨e, he, hl, hx, hd, hsystem⟩⟩
    rw [System.stage_gone h.system hl hsystem (hgone ht)]
    exact hgone ht

variable (priority) in
/-- The steps that the results on a run are about. -/
def Good (m : TransactionManager n) (a : Action n) : Prop :=
  m.Legal a ∧ m.Careful priority a ∧ m.Pointed a ∧ m.Settled a

instance (m : TransactionManager n) : DecidablePred (m.Good priority) := fun a =>
  inferInstanceAs (Decidable (m.Legal a ∧ m.Careful priority a ∧ m.Pointed a ∧ m.Settled a))

theorem ordered_of_reaches (h : Reaches (step priority) (Good priority) (init k) m) : m.Ordered := by
  apply h.invariant (ordered_init k)
  rintro m a m' hm ⟨hlegal, hcareful, hpointed, hsettled⟩ hs
  exact (hm.step hlegal hcareful hpointed hsettled hs).1

/-- The locks give every call its object for itself: what the log and the store see of a
run is a run in which calls are exclusive. At its end, and so after a crash at any
time, recovery leaves what the committed transactions leave that run one after another
in the order of their Commit records. -/
theorem locked_run (h : Reaches (step priority) (Good priority) (init k) m) :
    Reaches System.step (fun s e => s.Legal e ∧ s.Exclusive e ∧ s.Settled e) { transactionId := k }
      m.system ∧
    (m.system.log ≠ [] → ∃ d, recover m.system.log m.system.saved = some (d, 0) ∧
      ∀ lid, content d lid = execute (serial m.system.log) lid) := by
  have hboth : m.Ordered ∧ Reaches System.step (fun s e => s.Legal e ∧ s.Exclusive e ∧ s.Settled e)
      { transactionId := k } m.system := by
    apply h.invariant (I := fun m => m.Ordered ∧ Reaches System.step
      (fun s e => s.Legal e ∧ s.Exclusive e ∧ s.Settled e) { transactionId := k } m.system)
      ⟨ordered_init k, .refl⟩
    rintro m a m' ⟨hm, hrun⟩ ⟨hlegal, hcareful, hpointed, hsettled⟩ hs
    obtain ⟨hm', hsame | ⟨e, -, hl, hx, hd, hsystem⟩⟩ :=
      hm.step hlegal hcareful hpointed hsettled hs
    · exact ⟨hm', hsame ▸ hrun⟩
    · exact ⟨hm', hrun.step ⟨hl, hx, hd⟩ hsystem⟩
  refine ⟨hboth.2, fun hne => ?_⟩
  obtain ⟨d, hd, hcontent⟩ := hboth.1.system.recover hne
  refine ⟨d, hd, fun lid => ?_⟩
  rw [hcontent, ← hboth.1.serial]
  exact foldl_writes _

/-- A transaction changes an object that another has made and committed, while a third
is rolled back. -/
theorem locked_run_three : ∃ (m : TransactionManager 3) (d : DBStoreManager),
    m.system.log.length = 9 ∧ recover m.system.log m.system.saved = some (d, 0) ∧
      ∀ lid, content d lid = execute (serial m.system.log) lid := by
  obtain ⟨m, hm, hQ⟩ := Reaches.of_play (step ![3, 5, 7]) (Good ![3, 5, 7])
    (init 0 : TransactionManager 3)
    [.log .enter, .log (.begin 0), .createObject 0 [] { content := .integer 7 }, .log .work,
      .log .work, .again 0, .commit 0, .unlockAll 0, .manager (.unlockNext 0 0),
      .manager (.inner (.release 0 ⟨0, 0⟩)), .manager (.unlocked 0), .ended 0, .log (.leave 0),
      .log .enter, .log (.begin 1), .log .enter, .log (.begin 2),
      .lock 1 1 .write (some (.modifyObject ⟨1, false, [], { content := .integer 7 }⟩
        { content := .integer 9 })), .lock 2 1 .write none, .call 1, .log .work, .log .work,
      .manager (.wait 2), .manager (.inner (.check 2)), .answer 2, .abort 2, .log .work,
      .log .work, .again 1, .manager (.wait 1), .manager (.inner (.check 1)), .answer 1,
      .log (.undo 2), .log (.undo 2), .log (.rollback 2), .commit 1]
    (fun m => m.system.log.length = 9 ∧ m.system.log ≠ []) (by decide +kernel)
  obtain ⟨hlength, hne⟩ := of_decide_eq_true hQ
  obtain ⟨d, hd, hcontent⟩ := (locked_run hm).2 hne
  exact ⟨m, d, hlength, hd, hcontent⟩

-- ---------------------------------------------------------------------------
-- What is read
-- ---------------------------------------------------------------------------

/-- What is logged of an object that nobody is changing is there. -/
theorem view_eq (hwork : ∀ w ∈ m.system.work, ∀ c ∈ w.changes, c.r.lid ≠ lid) :
    m.system.view lid = content m.system.store lid := by
  have hview : m.system.view = Function.update m.system.view lid (content m.system.store lid) :=
    System.view_update hwork (Function.update_eq_self ..).symm
  rw [hview, Function.update_self]

/-- What others commit leaves the object as it is. -/
theorem Ordered.base_step (h : m.Ordered) (hlegal : m.Legal a) (ht : (lid, mode) ∈ m.granted t)
    (hends : ends t a = false) (hs : m.step priority a = some m') :
    base m'.system.log lid = base m.system.log lid := by
  rcases step_system hs with ⟨-, hsame⟩ | ⟨e, he, hsystem⟩
  · rw [hsame]
  · have hl := event_legal hlegal he
    rcases System.commits_of_step h.system hl hsystem with ⟨hbase, -⟩ | ⟨v, rfl, hlog, hun⟩
    · rw [hbase]
    · rw [hlog, base_commit h.system.history hun, newest_eq_none, Option.getD_none]
      intro hw
      obtain rfl : v = t := h.alone ht v hun hw
      cases a with
      | commit u =>
        have heq : u = t := Fin.val_injective (System.Event.commit.inj (Option.some.inj he))
        simp [ends, heq] at hends
      | log e =>
        cases he
        exact hlegal
      | call u =>
        obtain ⟨c, -, heq⟩ := Option.map_eq_some_iff.mp he
        cases heq
      | _ => cases he

/-- What a transaction reads under a lock is what it has written last, or else what the
transactions leave that have committed when it is about to end itself, run one after
another in the order of their Commit records. -/
theorem read_serial (h : Reaches (step priority) (Good priority) (init k) m)
    (hrun : Reaches (step priority) (fun m a => m.Good priority a ∧ ends t a = false) m m')
    (hgranted : (lid, mode) ∈ m.granted t) (hrunning : m.system.stage t = .running)
    (hwork : ∀ w ∈ m.system.work, w.tid ≠ t) :
    content m.system.store lid =
      (newest (· == (t : Nat)) m.system.log lid).getD (execute (serial m'.system.log) lid) := by
  have hm := ordered_of_reaches h
  have hend : m'.Ordered ∧ (lid, mode) ∈ m'.granted t ∧
      base m'.system.log lid = base m.system.log lid := by
    apply hrun.invariant (I := fun m' => m'.Ordered ∧ (lid, mode) ∈ m'.granted t ∧
      base m'.system.log lid = base m.system.log lid) ⟨hm, hgranted, rfl⟩
    rintro m₁ a m₂ ⟨hm₁, hg₁, hbase⟩ ⟨⟨hlegal, hcareful, hpointed, hsettled⟩, hends⟩ hs
    exact ⟨(hm₁.step hlegal hcareful hpointed hsettled hs).1, step_granted hg₁ hends hs,
      (hm₁.base_step hlegal hg₁ hends hs).trans hbase⟩
  rw [← hend.1.serial, hend.2.2, ← view_eq (hm.inv.untouched hgranted hwork)]
  exact hm.system.old_eq hrunning (hm.alone hgranted)

/-- A transaction reads an object, and another commits before it ends itself. -/
theorem read_serial_between : ∃ m m' : TransactionManager 3,
    m.system.log.length = 4 ∧ m'.system.log.length = 7 ∧
      content m.system.store 1 = (newest (· == ((1 : Fin 3) : Nat)) m.system.log 1).getD
        (execute (serial m'.system.log) 1) := by
  obtain ⟨m, m', hm, hm', hQ⟩ := Reaches.of_play_on (step ![3, 5, 7]) (Good ![3, 5, 7])
    (fun m a => m.Good ![3, 5, 7] a ∧ ends 1 a = false) (init 0 : TransactionManager 3)
    [.log .enter, .log (.begin 0), .createObject 0 [] { content := .integer 7 }, .log .work,
      .log .work, .again 0, .commit 0, .unlockAll 0, .manager (.unlockNext 0 0),
      .manager (.inner (.release 0 ⟨0, 0⟩)), .manager (.unlocked 0), .ended 0, .log (.leave 0),
      .log .enter, .log (.begin 1), .lock 1 1 .read none]
    [.log .enter, .log (.begin 2), .createObject 2 [] { content := .integer 8 }, .log .work,
      .log .work, .again 2, .commit 2, .unlockAll 2]
    (fun m m' => (m.system.log.length = 4 ∧ m'.system.log.length = 7) ∧
      (1, .read) ∈ m.granted 1 ∧ m.system.stage 1 = .running ∧ m.system.work.isNone = true)
    (by decide +kernel)
  obtain ⟨⟨hlog, hlog'⟩, hgranted, hrunning, hwork⟩ := of_decide_eq_true hQ
  exact ⟨m, m', hlog, hlog', read_serial hm hm' hgranted hrunning
    (by simp [Option.isNone_iff_eq_none.mp hwork])⟩

end TransactionManager

end Loxim.TManager
