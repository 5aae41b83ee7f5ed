import Loxim.TransactionManager.CallRun

/-!
# Isolation

Who may write an object has it alone, and what a transaction has read under a lock it
reads again.
-/

namespace Loxim.TManager

open Store Log Lock

namespace TransactionManager

variable {n k : Nat} {priority : Fin n → Int} {m m' : TransactionManager n} {t u : Fin n} {lid : Nat}
  {mode : AccessMode} {a : Action n}

/-- As long as nobody is given an object that has been moved, an object that
`LockManager::lock` has given to write is given to no other transaction. -/
theorem lock_alone
    (h : Reaches (step priority) (fun m a => m.Legal a ∧ m.Careful priority a) (init k) m)
    (ht : (lid, .write) ∈ m.granted t) (hu : u ≠ t) : (lid, mode) ∉ m.granted u :=
  ((inv_of_reaches h).locked.alone ht hu).2 mode

/-- A transaction waits for an object that another has made. -/
theorem lock_alone_waits : ∃ m : TransactionManager 2,
    m.stage 1 = .locking 1 .read (1, 1, 0) none ∧ (1, .write) ∈ m.granted 0 ∧
      (1, .read) ∉ m.granted 1 := by
  obtain ⟨m, hm, hQ⟩ := Reaches.of_play (step ![5, 3])
    (fun m a => m.Legal a ∧ m.Careful ![5, 3] a) (init 0 : TransactionManager 2)
    [.log .enter, .log (.begin 0), .createObject 0 [] { content := .integer 7 }, .log .work,
      .log .work, .again 0, .log .enter, .log (.begin 1), .lock 1 1 .read none,
      .manager (.wait 1), .manager (.inner (.check 1)), .manager (.inner (.ask 1 ⟨0, 0⟩))]
    (fun m => m.stage 1 = .locking 1 .read (1, 1, 0) none ∧ (1, .write) ∈ m.granted 0)
    (by decide +kernel)
  obtain ⟨hstage, ht⟩ := of_decide_eq_true hQ
  exact ⟨m, hstage, ht, lock_alone hm ht (by decide)⟩

/-- `removeRoot` does not lock its object at the new place, and both transactions may
write it. -/
theorem removeRoot_unlocked : ∃ m : TransactionManager 3,
    Reaches (step ![3, 5, 7]) Legal (init 0) m ∧
      (2, .write) ∈ m.granted 1 ∧ (2, .write) ∈ m.granted 2 := by
  obtain ⟨m, hm, hQ⟩ := Reaches.of_play (step ![3, 5, 7]) Legal (init 0 : TransactionManager 3)
    [.log .enter, .log (.begin 0),
      .createObject 0 [] { content := .integer 7 }, .log .work, .log .work, .again 0,
      .createObject 0 [] { content := .integer 7 }, .log .work, .log .work, .again 0,
      .lock 0 1 .write (some (.deleteObject ⟨1, false, [], { content := .integer 7 }⟩)),
      .manager (.wait 0), .manager (.inner (.check 0)), .answer 0, .call 0, .log .work, .log .work,
      .leave 0, .commit 0, .unlockAll 0, .manager (.unlockNext 0 0),
      .manager (.inner (.release 0 ⟨0, 0⟩)), .manager (.unlocked 0), .manager (.unlockNext 0 1),
      .manager (.inner (.release 0 ⟨0, 0⟩)), .manager (.unlocked 0), .ended 0, .log (.leave 0),
      .log .enter, .log (.begin 1),
      .lock 1 2 .write (some (.removeRoot ⟨2, false, [], { content := .integer 7 }⟩)), .call 1,
      .log .work, .log .work, .log .work, .log .work, .leave 1,
      .log .enter, .log (.begin 2), .lock 2 2 .write none]
    (fun m => (2, .write) ∈ m.granted 1 ∧ (2, .write) ∈ m.granted 2) (by decide +kernel)
  exact ⟨m, hm, of_decide_eq_true hQ⟩

-- ---------------------------------------------------------------------------
-- What has been read
-- ---------------------------------------------------------------------------

theorem lock_granted {next : Option Operation} {i : Nat} {mode' : AccessMode}
    (h : (lid, mode) ∈ m.granted t) (hs : m.lock priority u i mode' next = some m') :
    (lid, mode) ∈ m'.granted t := by
  unfold TransactionManager.lock at hs
  split at hs
  · cases hs
    exact h
  · rw [Option.bind_eq_bind, Option.bind_eq_some_iff] at hs
    obtain ⟨locks, -, hs⟩ := hs
    cases hs
    split
    · exact granted_grant.mpr (.inr h)
    · exact h

theorem answer_granted (h : (lid, mode) ∈ m.granted t) (hs : m.answer priority u = some m') :
    (lid, mode) ∈ m'.granted t := by
  unfold TransactionManager.answer at hs
  split at hs
  · rw [Option.bind_eq_bind, Option.bind_eq_some_iff] at hs
    obtain ⟨⟨p, l⟩, -, hs⟩ := hs
    rw [Option.bind_eq_bind, Option.bind_eq_some_iff] at hs
    obtain ⟨locks, -, hs⟩ := hs
    split at hs
    · cases hs
      exact granted_grant.mpr (.inr h)
    · cases hs
      exact h
  · cases hs

theorem enter_granted {c : Operation} (h : (lid, mode) ∈ m.granted t) (hs : m.enter u c = some m') :
    (lid, mode) ∈ m'.granted t := by
  unfold TransactionManager.enter at hs
  rw [Option.bind_eq_bind, Option.bind_eq_some_iff] at hs
  obtain ⟨system, -, hs⟩ := hs
  cases hs
  exact h

/-- What a transaction has been given it has until it ends. -/
theorem step_granted (h : (lid, mode) ∈ m.granted t) (hends : ends t a = false)
    (hs : m.step priority a = some m') : (lid, mode) ∈ m'.granted t := by
  cases a with
  | log e | manager c | commit v | abort v | ended v =>
    simp only [TransactionManager.step, Option.map_eq_some_iff] at hs
    obtain ⟨x, -, rfl⟩ := hs
    exact h
  | lock v i mode next => exact lock_granted h hs
  | answer v => exact answer_granted h hs
  | createObject v name value => exact enter_granted h hs
  | addRoot v o => exact enter_granted h hs
  | call v =>
    simp only [TransactionManager.step] at hs
    split at hs
    · exact enter_granted h hs
    · cases hs
  | again v =>
    simp only [TransactionManager.step] at hs
    split at hs
    · exact lock_granted h hs
    · cases hs
  | leave v =>
    cases hs
    exact h
  | unlockAll v =>
    have hne : t ≠ v := by
      rintro rfl
      simp [ends] at hends
    simp only [TransactionManager.step, Option.map_eq_some_iff] at hs
    obtain ⟨x, -, rfl⟩ := hs
    simpa only [Function.update_of_ne hne] using h

/-- The transaction goes on and does not write the object. -/
def LeavesAlone (m : TransactionManager n) (t : Fin n) (lid : Nat) (a : Action n) : Prop :=
  ends t a = false ∧ ∀ x ∈ m.begins a, x.1 = t → object m.system.store x.2 ≠ lid

instance (m : TransactionManager n) (t : Fin n) (lid : Nat) : DecidablePred (m.LeavesAlone t lid) :=
  fun a => inferInstanceAs (Decidable (ends t a = false ∧
    ∀ x ∈ m.begins a, x.1 = t → object m.system.store x.2 ≠ lid))

/-- The transaction has the object, and no change of it is under way. -/
structure Reads (m : TransactionManager n) (t : Fin n) (lid : Nat) (mode : AccessMode) : Prop where
  granted : (lid, mode) ∈ m.granted t
  going (rest : List LogRecord) : m.system.stage t ≠ .undoing rest
  work : ∀ w ∈ m.system.work, ∀ c ∈ w.changes, c.r.lid ≠ lid

theorem Reads.touches {e : System.Event} (h : m.Reads t lid mode) (hinv : m.Inv) :
    m.system.touches e ≠ some lid := by
  intro htouches
  obtain ⟨u, hu, how⟩ := hinv.stored.touched htouches
  obtain rfl : t = u := by
    by_contra hne
    exact (hinv.locked.apart hu hne).2 mode h.granted
  rcases how with ⟨rfl, -⟩ | rfl
  · simp only [System.touches] at htouches
    split at htouches
    · rename_i w c rest hwork
      exact h.work _ hwork c List.mem_cons_self (Option.some.inj htouches)
    · cases htouches
  · simp only [System.touches] at htouches
    split at htouches
    · rename_i hstage
      exact h.going _ hstage
    · cases htouches

/-- No transaction but this one may call for the object. -/
theorem Reads.other {v : Nat} {c : Operation} (h : m.Reads t lid mode) (hinv : m.Inv)
    (hlegal : m.Legal a) (hcareful : m.Careful priority a) (halone : m.LeavesAlone t lid a)
    (he : m.event a = some (.call v c)) : object m.system.store c ≠ lid := by
  obtain ⟨u, rfl, hbegins, hhas⟩ := hinv.begins hlegal hcareful he
  rintro rfl
  rcases eq_or_ne u t with rfl | hne
  · exact halone.2 _ hbegins rfl rfl
  · exact (hinv.locked.object_free hinv.stored hhas hne.symm).2 mode h.granted

theorem Reads.step (h : m.Reads t lid mode) (hinv : m.Inv) (hlegal : m.Legal a)
    (hcareful : m.Careful priority a) (halone : m.LeavesAlone t lid a)
    (hs : m.step priority a = some m') :
    m'.Reads t lid mode ∧ Stays m.system.store m'.system.store lid := by
  have hgranted := step_granted h.granted halone.1 hs
  rcases step_system hs with ⟨-, hsame⟩ | ⟨e, he, hsystem⟩
  · rw [hsame]
    exact ⟨⟨hgranted, hsame ▸ h.going, hsame ▸ h.work⟩, .refl⟩
  · have hstays := System.step_stays hinv.stored.sound hinv.stored.addressed hsystem
      (h.touches hinv) (hinv.stored.granted h.granted).2
    refine ⟨⟨hgranted, fun rest hrest => ?_, fun w hw c hc => ?_⟩, hstays⟩
    · rcases System.step_undoing hsystem hrest with ⟨rest', hold, -⟩ | ⟨rfl, -⟩
      · exact h.going _ hold
      · cases a with
        | abort v =>
          have heq : v = t := Fin.val_injective (System.Event.abort.inj (Option.some.inj he))
          have hends := halone.1
          simp [ends, heq] at hends
        | log e =>
          cases he
          exact hlegal
        | call v =>
          obtain ⟨c, -, heq⟩ := Option.map_eq_some_iff.mp he
          cases heq
        | _ => cases he
    · by_cases hcall : ∃ v c, e = .call v c
      · obtain ⟨v, c', rfl⟩ := hcall
        have hother := h.other hinv hlegal hcareful halone he
        simp only [System.step, Option.some.injEq] at hsystem
        rw [← hsystem] at hw
        obtain ⟨-, hlid⟩ := (work_of_call hw).2 c hc
        rw [hlid]
        exact hother
      · obtain ⟨w₀, hw₀, -, hsub⟩ := System.step_work (fun v c heq => hcall ⟨v, c, heq⟩) hsystem hw
        exact h.work w₀ hw₀ c (hsub hc)

/-- A transaction that is between two calls has its objects to itself. -/
theorem Inv.untouched (h : m.Inv) (ht : (lid, mode) ∈ m.granted t)
    (hwork : ∀ w ∈ m.system.work, w.tid ≠ t) :
    ∀ w ∈ m.system.work, ∀ c ∈ w.changes, c.r.lid ≠ lid := by
  rintro w hw c hc rfl
  obtain ⟨u, hu, -, hall⟩ := h.stored.working hw
  have hne : t ≠ u := by
    rintro rfl
    exact hwork w hw hu
  exact (h.locked.apart (hall c hc).2 hne).2 mode ht

/-- What a transaction that has an object reads of it, it reads until it ends or
writes the object itself, whatever the others do meanwhile. -/
theorem read_again
    (h : Reaches (step priority) (fun m a => m.Legal a ∧ m.Careful priority a) (init k) m)
    (hrun : Reaches (step priority)
      (fun m a => (m.Legal a ∧ m.Careful priority a) ∧ m.LeavesAlone t lid a) m m')
    (hgranted : (lid, mode) ∈ m.granted t) (hrunning : m.system.stage t = .running)
    (hwork : ∀ w ∈ m.system.work, w.tid ≠ t) :
    (lid, mode) ∈ m'.granted t ∧
      m'.system.store.getPhysicalID lid = m.system.store.getPhysicalID lid ∧
      m'.system.store.object lid = m.system.store.object lid := by
  have hreads : m.Reads t lid mode := by
    have hinv := inv_of_reaches h
    exact ⟨hgranted, fun rest hrest => by simp [hrunning] at hrest,
      hinv.untouched hgranted hwork⟩
  have hboth : m'.Inv ∧ m'.Reads t lid mode ∧ Stays m.system.store m'.system.store lid := by
    apply hrun.invariant (I := fun m' => m'.Inv ∧ m'.Reads t lid mode ∧
      Stays m.system.store m'.system.store lid) ⟨inv_of_reaches h, hreads, .refl⟩
    rintro m₁ a m₂ ⟨hinv, hreads, hstays⟩ ⟨⟨hlegal, hcareful⟩, halone⟩ hs
    obtain ⟨hreads', hstays'⟩ := hreads.step hinv hlegal hcareful halone hs
    exact ⟨hinv.step hlegal hcareful hs, hreads',
      hstays'.place.trans hstays.place, hstays'.object.trans hstays.object⟩
  exact ⟨hboth.2.1.granted, hboth.2.2.place, hboth.2.2.object⟩

/-- Meanwhile another transaction makes an object, wants to delete this one, is refused
and rolls back. -/
theorem read_again_refused : ∃ m m' : TransactionManager 3,
    m.system.log.length = 4 ∧ m'.system.log.length = 7 ∧ (1, .read) ∈ m'.granted 1 ∧
      m'.system.store.getPhysicalID 1 = m.system.store.getPhysicalID 1 ∧
      m'.system.store.object 1 = m.system.store.object 1 := by
  obtain ⟨m, m', hm, hm', hQ⟩ := Reaches.of_play_on (step ![3, 5, 7])
    (fun m a => m.Legal a ∧ m.Careful ![3, 5, 7] a)
    (fun m a => (m.Legal a ∧ m.Careful ![3, 5, 7] a) ∧ m.LeavesAlone 1 1 a)
    (init 0 : TransactionManager 3)
    [.log .enter, .log (.begin 0), .createObject 0 [] { content := .integer 7 }, .log .work,
      .log .work, .again 0, .commit 0, .unlockAll 0, .manager (.unlockNext 0 0),
      .manager (.inner (.release 0 ⟨0, 0⟩)), .manager (.unlocked 0), .ended 0, .log (.leave 0),
      .log .enter, .log (.begin 1), .lock 1 1 .read none]
    [.log .enter, .log (.begin 2), .createObject 2 [] { content := .integer 8 }, .log .work,
      .log .work, .again 2,
      .lock 2 1 .write (some (.deleteObject ⟨1, false, [], { content := .integer 7 }⟩)),
      .manager (.wait 2), .manager (.inner (.check 2)), .answer 2, .abort 2, .log (.undo 2),
      .log (.undo 2), .log (.rollback 2)]
    (fun m m' => (m.system.log.length = 4 ∧ m'.system.log.length = 7) ∧
      (1, .read) ∈ m.granted 1 ∧ m.system.stage 1 = .running ∧ m.system.work.isNone = true)
    (by decide +kernel)
  obtain ⟨⟨hlog, hlog'⟩, hgranted, hrunning, hwork⟩ := of_decide_eq_true hQ
  exact ⟨m, m', hlog, hlog', read_again hm hm' hgranted hrunning
    (by simp [Option.isNone_iff_eq_none.mp hwork])⟩

end TransactionManager

end Loxim.TManager
