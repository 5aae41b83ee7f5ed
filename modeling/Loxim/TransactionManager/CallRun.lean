import Loxim.TransactionManager.LockedRun

/-!
# The calls of a run

Every step of a run keeps what is known of the locks, of the store and of where the
transactions are.
-/

namespace Loxim.TManager

open Store Log Lock

namespace TransactionManager

variable {n : Nat} {priority : Fin n → Int} {m m' : TransactionManager n} {t u : Fin n} {lid : Nat}
  {mode : AccessMode} {place : Place} {next : Option Operation}

/-- Where the transactions are in the lock manager. -/
structure Staged (m : TransactionManager n) : Prop where
  asks {t : Fin n} {lid : Nat} {mode : AccessMode} {place : Place} {next : Option Operation} :
    m.stage t = .locking lid mode place next → ∃ id, m.locks.Asks t place mode id
  unlocking {t : Fin n} : LockManager.unlocks (m.locks.stage t) = true → m.stage t = .unlocking
  cleared {t : Fin n} : m.stage t = .unlocking ∨ m.stage t = .ended →
    m.granted t = ∅ ∧ m.moved t = ∅

/-- One transaction goes on with its call. -/
theorem Staged.change {g : CallStage} (h : m.Staged) (hstage : m'.stage = Function.update m.stage t g)
    (hasks : ∀ u, u ≠ t → ∀ place mode id, m.locks.Asks u place mode id →
      m'.locks.Asks u place mode id)
    (hunlocks : ∀ u, u ≠ t → m'.locks.stage u = m.locks.stage u)
    (hsets : ∀ u, u ≠ t → m'.granted u = m.granted u ∧ m'.moved u = m.moved u)
    (hown : ∀ lid mode place next, g = .locking lid mode place next →
      ∃ id, m'.locks.Asks t place mode id)
    (hself : LockManager.unlocks (m'.locks.stage t) = true → g = .unlocking)
    (hclear : g = .unlocking ∨ g = .ended → m'.granted t = ∅ ∧ m'.moved t = ∅) : m'.Staged := by
  have hat : m'.stage t = g := by rw [hstage, Function.update_self]
  have hother {u : Fin n} (hu : u ≠ t) : m'.stage u = m.stage u := by
    rw [hstage, Function.update_of_ne hu]
  refine ⟨fun {u lid mode place next} hu => ?_, fun {u} hu => ?_, fun {u} hu => ?_⟩
  · rcases eq_or_ne u t with rfl | hne
    · exact hown lid mode place next (hat ▸ hu)
    · obtain ⟨id, hid⟩ := h.asks (hother hne ▸ hu)
      exact ⟨id, hasks u hne place mode id hid⟩
  · rcases eq_or_ne u t with rfl | hne
    · rw [hat]
      exact hself hu
    · rw [hother hne]
      exact h.unlocking (hunlocks u hne ▸ hu)
  · rcases eq_or_ne u t with rfl | hne
    · exact hclear (hat ▸ hu)
    · rw [(hsets u hne).1, (hsets u hne).2]
      exact h.cleared (hother hne ▸ hu)

/-- The part of the lock manager is left alone. -/
theorem Staged.keep {g : CallStage} (h : m.Staged) (hstage : m'.stage = Function.update m.stage t g)
    (hlocks : m'.locks = m.locks)
    (hsets : ∀ u, u ≠ t → m'.granted u = m.granted u ∧ m'.moved u = m.moved u)
    (hopen : m.stage t ≠ .unlocking) (hg : ∀ lid mode place next, g ≠ .locking lid mode place next)
    (hend : g ≠ .unlocking ∧ g ≠ .ended) : m'.Staged := by
  refine h.change hstage (fun u _ place mode id => ?_) (fun u _ => ?_) hsets
    (fun lid mode place next heq => absurd heq (hg lid mode place next)) (fun hu => ?_)
    fun heq => absurd heq (not_or.mpr hend)
  · rw [hlocks]
    exact fun hid => hid
  · rw [hlocks]
  · rw [hlocks] at hu
    exact absurd (h.unlocking hu) hopen

/-- A step of the lock manager for one transaction. -/
theorem Staged.onLocks {c : ManagerCall (Fin n) Place} {g : CallStage} (h : m.Staged)
    (hc : m.locks.Enabled c) (hstep : m.locks.step priority c = some m'.locks)
    (ht : c.transaction = t) (hstage : m'.stage = Function.update m.stage t g)
    (hsets : ∀ u, u ≠ t → m'.granted u = m.granted u ∧ m'.moved u = m.moved u)
    (hown : ∀ lid mode place next, g = .locking lid mode place next →
      ∃ id, m'.locks.Asks t place mode id)
    (hself : LockManager.unlocks (m'.locks.stage t) = true → g = .unlocking)
    (hclear : g = .unlocking ∨ g = .ended → m'.granted t = ∅ ∧ m'.moved t = ∅) : m'.Staged := by
  refine h.change hstage (fun u hu place mode id hid => ?_) (fun u hu => ?_) hsets hown hself hclear
  · exact hid.step ⟨hc, fun heq => absurd (heq.symm.trans ht) hu⟩ hstep
  · exact LockManager.stage_others hstep (ht ▸ hu)

structure Inv (m : TransactionManager n) : Prop where
  locked : m.Locked
  stored : m.Stored
  staged : m.Staged

theorem inv_init (k : Nat) : (init k : TransactionManager n).Inv where
  locked := {
    guarded := LockManager.guarded_init
    covers := fun h => absurd h (Finset.notMem_empty _)
    apart := fun h => absurd h (Finset.notMem_empty _) }
  stored := stored_init k
  staged := {
    asks := fun h => by cases h
    unlocking := fun h => by cases h
    cleared := fun _ => ⟨rfl, rfl⟩ }

theorem hasId_of_place (h : getPhysicalID m.system.store lid = some place) : m.HasId lid := by
  unfold getPhysicalID at h
  split at h
  · rename_i id hid
    simp only [DBStoreManager.getPhysicalID] at hid
    split at hid
    · cases hid
    · split at hid
      · cases hid
      · exact ⟨by omega, by omega⟩
  · cases h

/-- The stages and the section are nothing to the locks. -/
theorem Locked.congr (h : m.Locked) (hsystem : m'.system = m.system) (hlocks : m'.locks = m.locks)
    (hgranted : m'.granted = m.granted) (hmoved : m'.moved = m.moved) : m'.Locked := by
  obtain ⟨system, locks, stage, sem, granted, moved⟩ := m
  obtain ⟨system', locks', stage', sem', granted', moved'⟩ := m'
  subst hsystem hlocks hgranted hmoved
  exact ⟨h.guarded, h.covers, h.apart⟩

theorem Stored.congr (h : m.Stored) (hsystem : m'.system = m.system) (hstage : m'.stage = m.stage)
    (hgranted : m'.granted = m.granted) (hmoved : m'.moved = m.moved) : m'.Stored := by
  obtain ⟨system, locks, stage, sem, granted, moved⟩ := m
  obtain ⟨system', locks', stage', sem', granted', moved'⟩ := m'
  subst hsystem hstage hgranted hmoved
  exact ⟨h.sound, h.small, h.granted, h.moved, h.working, h.wrote, h.undoing, h.waiting, h.ready⟩

theorem Inv.fail (h : m.Inv) (hwork : ∀ w ∈ m.system.work, w.tid ≠ t)
    (hopen : m.stage t ≠ .unlocking ∧ m.stage t ≠ .ended ∧ m.stage t ≠ .ending) : (m.fail t).Inv where
  locked := h.locked.congr rfl rfl rfl rfl
  stored := (h.stored.goto (g := .failed) hwork hopen (fun _ _ _ _ heq => by cases heq)
    fun _ heq => by cases heq).congr
    rfl rfl rfl rfl
  staged := h.staged.keep (t := t) (g := .failed) rfl rfl (fun _ _ => ⟨rfl, rfl⟩) hopen.1
    (fun _ _ _ _ heq => by cases heq) ⟨(fun heq => by cases heq), fun heq => by cases heq⟩

/-- A transaction that has the lock is granted it, or goes on with its call. -/
theorem Staged.granted {c : ManagerCall (Fin n) Place} {locks : LockManager (Fin n) Place}
    (h : m.Staged) (hc : m.locks.Enabled c) (hstep : m.locks.step priority c = some locks)
    (ht : c.transaction = t) (hself : LockManager.unlocks (locks.stage t) = false) :
    ({ m with locks }.grant t lid mode next).Staged := by
  refine h.onLocks (g := next.elim .idle .locked) hc hstep ht rfl
    (fun u hu => ⟨Function.update_of_ne hu .., ?_⟩) (fun lid mode place next' heq => ?_)
    (fun hu => ?_) (fun heq => ?_)
  · simp only [grant]
    split
    · exact Function.update_of_ne hu ..
    · rfl
  · cases next <;> cases heq
  · exact absurd (hself.symm.trans hu) Bool.false_ne_true
  · cases next <;> rcases heq with heq | heq <;> cases heq

/-- Nothing is unlocked by who locks. -/
theorem careful_lock (h : m.MayLock t) : m.locks.Careful priority (.lock t place mode) :=
  ⟨h, LockManager.within_of_lockCall rfl, trivial⟩

theorem Inv.lock (h : m.Inv) (hwork : ∀ w ∈ m.system.work, w.tid ≠ t)
    (hopen : m.stage t ≠ .unlocking ∧ m.stage t ≠ .ended ∧ m.stage t ≠ .ending)
    (hmay : m.MayLock t) (hfree : ∀ place, m.newPlace lid = some place → ∀ u, u ≠ t → lid ∉ m.moved u)
    (hnext : ∀ c ∈ next, mode = .write ∧ locksFirst c = true ∧ object m.system.store c = lid)
    (hs : m.lock priority t lid mode next = some m') : m'.Inv := by
  unfold TransactionManager.lock at hs
  split at hs
  · cases hs
    exact h.fail hwork hopen
  · rename_i place hplace
    rw [Option.bind_eq_bind, Option.bind_eq_some_iff] at hs
    obtain ⟨locks, hstep, hs⟩ := hs
    have hlocked := h.locked.onLocks (careful_lock hmay) hstep fun _ _ => rfl
    have hstored : Stored { m with locks } := h.stored.congr rfl rfl rfl rfl
    cases hmap : m.locks.mapOfLocks place with
    | none =>
      simp only [hmap, if_true, Option.pure_def, Option.some.injEq] at hs
      have hlocks : locks = m.locks.newLock t place mode := by
        simpa [LockManager.step, hmap] using hstep.symm
      have hnew : m.newPlace lid = some place := by simp [newPlace, hplace, hmap]
      have hholds : locks.Holds t place mode := by
        rw [hlocks]
        exact ⟨m.locks.singleLockId, SingleLock.create t mode, Function.update_self ..,
          Function.update_self .., SingleLock.create_hasMode t mode⟩
      rw [← hs]
      refine ⟨hlocked.grant hplace hholds (hfree place hnew),
        hstored.grant hwork (hasId_of_place hplace) hopen hnext, ?_⟩
      refine h.staged.granted (c := .lock t place mode) hmay hstep rfl ?_
      rw [hlocks]
      simp [LockManager.newLock, hmay.2, LockManager.unlocks]
    | some id =>
      simp only [hmap, reduceCtorEq, if_false, Option.pure_def, Option.some.injEq] at hs
      have hlocks : locks = m.locks.goto t (.found id mode) := by
        simpa [LockManager.step, hmap] using hstep.symm
      have hat : LockManager.unlocks (locks.stage t) = false := by
        rw [hlocks]
        simp [LockManager.goto, LockManager.unlocks]
      rw [← hs]
      refine ⟨hlocked.congr rfl rfl rfl rfl, hstored.goto hwork hopen ?_ ?_, ?_⟩
      · intro lid' mode' place' next' heq
        cases heq
        exact hnext
      · rintro c ⟨⟩
      · refine h.staged.onLocks (c := .lock t place mode) hmay hstep rfl rfl
          (fun _ _ => ⟨rfl, rfl⟩) ?_ ?_ ?_
        · intro lid' mode' place' next' heq
          cases heq
          exact ⟨id, hlocks ▸ LockManager.Asks.start h.locked.guarded.sound hmap⟩
        · exact fun hu => absurd (hat.symm.trans hu) Bool.false_ne_true
        · rintro (heq | heq) <;> cases heq

/-- Only who is inside the section is at work. -/
theorem Stored.resting (h : m.Stored) (hs : ∀ again, m.stage t ≠ .inside again) :
    ∀ w ∈ m.system.work, w.tid ≠ t := by
  intro w hw htid
  obtain ⟨u, hu, ⟨again, hinside⟩, -⟩ := h.working hw
  obtain rfl : u = t := Fin.val_injective (hu.symm.trans htid)
  exact hs again hinside

/-- What has been asked for is locked when `wait_for_lock` returns 0. -/
theorem holds_of_returned {locks locks' : LockManager (Fin n) Place} {id : Nat} {p : Place}
    {l : SingleLock (Fin n)} {mode' : AccessMode} (h : locks.Asks t place mode id)
    (hin : locks.stage t = .inLock id) (hl : locks.heap id = some (p, l))
    (hcode : l.stage t = .returned mode' 0) (hstep : locks.step priority (.note t) = some locks') :
    locks'.Holds t place mode := by
  obtain rfl := h.same p l hl
  obtain rfl : mode' = mode := by
    rcases h.place with hfound | ⟨-, hat⟩
    · rw [hin] at hfound
      cases hfound
    · have hmode := hat p l hl
      rwa [hcode] at hmode
  have hhas : l.HasMode t mode' := by
    have htruthful := h.sound.truthful id p l hl t
    rwa [hcode] at htruthful
  rcases LockManager.note_cases hin hl hcode hstep with ⟨-, rfl⟩ | ⟨hne, -⟩
  · exact ⟨id, l, (h.sound.live p id).mpr ⟨l, hl⟩, hl, hhas⟩
  · exact absurd rfl hne

theorem Inv.answer (h : m.Inv) (hc : m.locks.Enabled (.note t))
    (hfree : ∀ g ∈ m.gives (.answer t), getPhysicalID m.system.store g.lid = some g.place ∧
      ∀ u, u ≠ g.t → g.lid ∉ m.moved u)
    (hs : m.answer priority t = some m') : m'.Inv := by
  unfold TransactionManager.answer at hs
  split at hs
  · rename_i lid mode place next id hstage hin
    rw [Option.bind_eq_bind, Option.bind_eq_some_iff] at hs
    obtain ⟨⟨p, l⟩, hl, hs⟩ := hs
    rw [Option.bind_eq_bind, Option.bind_eq_some_iff] at hs
    obtain ⟨locks, hstep, hs⟩ := hs
    have hcareful : m.locks.Careful priority (.note t) :=
      ⟨hc, LockManager.within_of_lockCall rfl, trivial⟩
    have hlocked := h.locked.onLocks hcareful hstep fun _ _ => rfl
    have hstored : Stored { m with locks } := h.stored.congr rfl rfl rfl rfl
    have hwork := h.stored.resting (t := t) (by simp [hstage])
    have hopen : m.stage t ≠ .unlocking ∧ m.stage t ≠ .ended ∧ m.stage t ≠ .ending := by
      simp [hstage]
    have hidle : LockManager.unlocks (locks.stage t) = false := by
      obtain ⟨id', p', l', mode', code, hin', hl', hst⟩ := hc.2
      rcases LockManager.note_cases hin' hl' hst hstep with ⟨-, rfl⟩ | ⟨-, rfl⟩ <;>
        simp [LockManager.goto, LockManager.unlocks]
    obtain ⟨id', hasks⟩ := h.staged.asks hstage
    obtain rfl : id' = id := by
      rcases hasks.place with hfound | ⟨hin', -⟩
      · rw [hin] at hfound
        cases hfound
      · rw [hin] at hin'
        cases hin'
        rfl
    split at hs
    · rename_i mode' hcode
      cases hs
      obtain ⟨hplace, hfree⟩ := hfree ⟨t, lid, place⟩ (by simp [gives, hstage, hin, hl, hcode])
      exact ⟨hlocked.grant hplace (holds_of_returned hasks hin hl hcode hstep) hfree,
        hstored.grant hwork (hasId_of_place hplace) hopen (h.stored.waiting hstage),
        h.staged.granted (c := .note t) hc hstep rfl hidle⟩
    · cases hs
      refine ⟨hlocked.congr rfl rfl rfl rfl, (hstored.goto (g := .failed) hwork hopen
        (fun _ _ _ _ heq => by cases heq) fun _ heq => by cases heq).congr rfl rfl rfl rfl, ?_⟩
      refine h.staged.onLocks (c := .note t) (g := .failed) hc hstep rfl rfl
        (fun _ _ => ⟨rfl, rfl⟩) ?_ ?_ ?_
      · rintro lid' mode' place' next' ⟨⟩
      · exact fun hu => absurd (hidle.symm.trans hu) Bool.false_ne_true
      · rintro (heq | heq) <;> cases heq
  · cases hs

theorem Staged.during {c : ManagerCall (Fin n) Place} (h : m.Staged) (hin : inManager c = true)
    (hc : m.locks.Enabled c) (hstage : m.stage t = .locking lid mode place next) :
    LockManager.During t m.locks c := by
  have hnot (hu : LockManager.unlocks (m.locks.stage t) = true) : False := by
    rw [h.unlocking hu] at hstage
    cases hstage
  refine ⟨hc, fun heq => ?_⟩
  cases c with
  | wait u => exact .inl (congrArg _ heq)
  | inner c => exact .inr ⟨c, rfl⟩
  | unlockNext u id =>
    obtain rfl : u = t := heq
    obtain ⟨rest, hs, -⟩ := hc
    exact (hnot (by simp [hs, LockManager.unlocks])).elim
  | unlocked u =>
    obtain rfl : u = t := heq
    obtain ⟨id, rest, p, l, d, hs, -⟩ := hc
    exact (hnot (by simp [hs, LockManager.unlocks])).elim
  | lock u p mode | note u | unlockAll u | ended u => cases hin

/-- A step in the middle of a call of the lock manager. -/
theorem Inv.manager {c : ManagerCall (Fin n) Place} {locks : LockManager (Fin n) Place}
    (h : m.Inv) (hin : inManager c = true) (hc : m.locks.Careful priority c)
    (hstep : m.locks.step priority c = some locks) : Inv { m with locks } := by
  refine ⟨h.locked.onLocks hc hstep fun t hgranted => ?_, h.stored.congr rfl rfl rfl rfl,
    ⟨fun {t lid mode place next} hstage => ?_, fun {t} hu => ?_, h.staged.cleared⟩⟩
  · by_contra hun
    cases c with
    | unlockNext u id =>
      obtain rfl : u = t := by
        have hself := Bool.eq_true_of_not_eq_false hun
        exact of_decide_eq_true hself
      obtain ⟨rest, hs, -⟩ := hc.1
      have hstage := h.staged.unlocking (t := u) (by simp [hs, LockManager.unlocks])
      exact hgranted (h.staged.cleared (.inl hstage)).1
    | lock u p mode | wait u | inner c | note u | unlockAll u | unlocked u | ended u =>
      exact hun rfl
  · obtain ⟨id, hasks⟩ := h.staged.asks hstage
    exact ⟨id, hasks.step (h.staged.during hin hc.1 hstage) hstep⟩
  · rcases LockManager.step_unlocks hc.1 hstep hu with rfl | ⟨hu, -⟩
    · cases hin
    · exact h.staged.unlocking hu

/-- A step of the store and the log that no call makes. -/
theorem Inv.log {e : System.Event} {system : System} (h : m.Inv) (hcall : ∀ t c, e ≠ .call t c)
    (habort : ∀ t, e ≠ .abort t) (hs : m.system.step e = some system) : Inv { m with system } where
  locked := h.locked.onSystem h.stored hs
  stored := h.stored.onSystem hcall habort hs
  staged := ⟨h.staged.asks, h.staged.unlocking, h.staged.cleared⟩

theorem Inv.enter {c : Operation} (h : m.Inv) (hlegal : m.system.Legal (.call t c))
    (hopen : m.stage t ≠ .unlocking ∧ m.stage t ≠ .ended ∧ m.stage t ≠ .ending)
    (hhas : (∃ name value, c = .createObject name value) ∨
      (object m.system.store c, .write) ∈ m.granted t) (hs : m.enter t c = some m') : m'.Inv := by
  refine ⟨h.locked.enter h.stored hhas hs, h.stored.enter hlegal hopen hhas hs, ?_⟩
  unfold TransactionManager.enter at hs
  rw [Option.bind_eq_bind, Option.bind_eq_some_iff] at hs
  obtain ⟨system, hsystem, hs⟩ := hs
  cases hs
  refine h.staged.keep (t := t) rfl rfl (fun u hu => ⟨rfl, Function.update_of_ne hu ..⟩) hopen.1
    (fun _ _ _ _ heq => by cases heq) ⟨(fun heq => by cases heq), fun heq => by cases heq⟩

/-- A transaction that has nothing to do with the locks goes on. -/
theorem Inv.goto {g : CallStage} (h : m.Inv) (hwork : ∀ w ∈ m.system.work, w.tid ≠ t)
    (hopen : m.stage t ≠ .unlocking ∧ m.stage t ≠ .ended ∧ m.stage t ≠ .ending)
    (hg : g = .idle ∨ g = .ending) : (m.goto t g).Inv where
  locked := h.locked.congr rfl rfl rfl rfl
  stored := by
    refine h.stored.goto hwork hopen ?_ ?_
    · rintro lid mode place next rfl
      rcases hg with hg | hg <;> cases hg
    · rintro c rfl
      rcases hg with hg | hg <;> cases hg
  staged := by
    refine h.staged.keep (t := t) rfl rfl (fun _ _ => ⟨rfl, rfl⟩) hopen.1 ?_ ?_
    · rintro lid mode place next rfl
      rcases hg with hg | hg <;> cases hg
    · constructor <;> rintro rfl <;> rcases hg with hg | hg <;> cases hg

theorem Inv.commit {system : System} (h : m.Inv) (hlegal : m.system.Legal (.commit t))
    (hstage : m.stage t = .idle) (hs : m.system.step (.commit t) = some system) :
    Inv { m.goto t .ending with system } := by
  have hlog := h.log (fun _ _ heq => by cases heq) (fun _ heq => by cases heq) hs
  have hwork : ∀ w ∈ system.work, w.tid ≠ t := by
    cases hs
    exact hlegal.2
  have hend := hlog.goto (g := .ending) hwork (by simp [hstage]) (.inr rfl)
  exact ⟨hend.locked.congr rfl rfl rfl rfl, hend.stored.congr rfl rfl rfl rfl,
    ⟨hend.staged.asks, hend.staged.unlocking, hend.staged.cleared⟩⟩

theorem mem_written : lid ∈ m.written t ↔ m.Owns t lid := by
  simp [written, Owns, or_comm]

/-- Of what it has logged, an aborting transaction has only to undo what is its own. -/
theorem Stored.abort {system : System} (h : m.Stored)
    (hlegal : m.system.Legal (.abort t)) (hstage : m.stage t = .idle ∨ m.stage t = .failed)
    (hs : m.system.step (.abort t) = some system) :
    Stored { m.goto t .ending with
      system, moved := Function.update m.moved t (m.written t) } := by
  cases hs
  have hown {i : Nat} (hi : i ∈ Function.update m.moved t (m.written t) t) : m.Owns t i := by
    rw [Function.update_self] at hi
    exact mem_written.mp hi
  have hself {i : Nat} (hi : m.Owns t i) : i ∈ Function.update m.moved t (m.written t) t := by
    rw [Function.update_self]
    exact mem_written.mpr hi
  have hmoved {u : Fin n} {i : Nat} (hu : u ≠ t) :
      i ∈ Function.update m.moved t (m.written t) u ↔ i ∈ m.moved u := by
    rw [Function.update_of_ne hu]
  have hnot {g : CallStage} (h₁ : g ≠ .idle) (h₂ : g ≠ .failed) : m.stage t ≠ g := by
    rintro rfl
    exact hstage.elim h₁ h₂
  have hwrote {i : Nat} (hw : Wrote m.system.log t i) : m.Owns t i := by
    obtain ⟨v, hv, how⟩ := h.wrote hw
    obtain rfl : t = v := Fin.val_injective hv
    exact (how.resolve_left (hnot nofun nofun)).resolve_left (hnot nofun nofun)
  refine ⟨h.sound, h.small, h.granted, fun {u i} hi => ?_, fun {w} hw => ?_, fun {u i} hw => ?_,
    fun {u rest} hu => ?_, fun {u i mode place next} hu => ?_, fun {u c} hu => ?_⟩
  · rcases eq_or_ne u t with rfl | hne
    · rcases hown hi with hi | hi
      · exact h.granted hi
      · exact h.moved hi
    · exact h.moved ((hmoved hne).mp hi)
  · obtain ⟨u, hu, hinside, hall⟩ := h.working hw
    have hne : u ≠ t := by
      rintro rfl
      exact hlegal.2 w hw hu
    refine ⟨u, hu, ?_, fun c hc => ⟨(hall c hc).1, (hmoved hne).mpr (hall c hc).2⟩⟩
    simpa only [goto_other hne] using hinside
  · obtain ⟨v, rfl, hv⟩ := h.wrote hw
    refine ⟨v, rfl, ?_⟩
    rcases eq_or_ne v t with rfl | hne
    · exact .inr (.inr (.inr (hself (hwrote hw))))
    · simp only [goto_other hne]
      exact hv.imp_right (Or.imp_right (Or.imp_right (hmoved hne).mpr))
  · rcases eq_or_ne u (t : Nat) with rfl | hne
    · have hrest : m.system.log = rest := by
        simpa [System.setStage] using hu
      refine ⟨t, rfl, Function.update_self .., fun r hr htid => hself (hwrote ?_)⟩
      exact ⟨r, hrest ▸ hr, htid, rfl⟩
    · have hold : m.system.stage u = .undoing rest := by
        rw [← hu]
        exact (Function.update_of_ne hne ..).symm
      obtain ⟨v, rfl, hending, hall⟩ := h.undoing hold
      have hv : v ≠ t := fun heq => hne (congrArg Fin.val heq)
      refine ⟨v, rfl, ?_, fun r hr htid => (hmoved hv).mpr (hall r hr htid)⟩
      simpa only [goto_other hv] using hending
  · rcases eq_or_ne u t with rfl | hne
    · simp at hu
    · simp only [goto_other hne] at hu
      exact h.waiting hu
  · rcases eq_or_ne u t with rfl | hne
    · simp at hu
    · simp only [goto_other hne] at hu
      exact h.ready hu

theorem Inv.abort {system : System} (h : m.Inv) (hlegal : m.system.Legal (.abort t))
    (hstage : m.stage t = .idle ∨ m.stage t = .failed)
    (hs : m.system.step (.abort t) = some system) :
    Inv { m.goto t .ending with
      system, moved := Function.update m.moved t (m.written t) } where
  locked := by
    have hmove := (h.locked.onSystem h.stored hs).move (t := t) (S := m.written t)
      Finset.subset_union_left (by
        intro i hi u hu
        rcases mem_written.mp hi with hi | hi
        · exact h.locked.alone hi hu
        · exact h.locked.apart hi hu)
    exact hmove.congr rfl rfl rfl rfl
  stored := h.stored.abort hlegal hstage hs
  staged := h.staged.keep (t := t) rfl rfl (fun u hu => ⟨rfl, Function.update_of_ne hu ..⟩)
    (by rcases hstage with hstage | hstage <;> simp [hstage])
    (fun _ _ _ _ heq => by cases heq) ⟨(fun heq => by cases heq), fun heq => by cases heq⟩

theorem Inv.leave (h : m.Inv) (hwork : m.system.work = none) (hstage : m.stage t = .inside none) :
    ((m.unlockSem t).goto t .idle).Inv := by
  have hidle := h.goto (t := t) (g := .idle) (by simp [hwork]) (by simp [hstage]) (.inl rfl)
  exact ⟨hidle.locked.congr rfl rfl rfl rfl, hidle.stored.congr rfl rfl rfl rfl,
    ⟨hidle.staged.asks, hidle.staged.unlocking, hidle.staged.cleared⟩⟩

/-- Who unlocks gives up what it has. -/
theorem Locked.drop (h : m.Locked) (hlocks : m'.locks = m.locks) (hsystem : m'.system = m.system)
    (hsets : ∀ u, u ≠ t → m'.granted u = m.granted u ∧ m'.moved u = m.moved u)
    (hnone : m'.granted t = ∅ ∧ m'.moved t = ∅) : m'.Locked := by
  have hgranted {u : Fin n} {x : Nat × AccessMode} (hx : x ∈ m'.granted u) :
      u ≠ t ∧ x ∈ m.granted u := by
    rcases eq_or_ne u t with rfl | hne
    · rw [hnone.1] at hx
      exact absurd hx (Finset.notMem_empty _)
    · exact ⟨hne, (hsets u hne).1 ▸ hx⟩
  have hmoved {u : Fin n} {i : Nat} (hi : i ∈ m'.moved u) : u ≠ t ∧ i ∈ m.moved u := by
    rcases eq_or_ne u t with rfl | hne
    · rw [hnone.2] at hi
      exact absurd hi (Finset.notMem_empty _)
    · exact ⟨hne, (hsets u hne).2 ▸ hi⟩
  refine ⟨hlocks ▸ h.guarded, fun {u i mode} hx hi => ?_, fun {v u i} hi hne => ?_⟩
  · obtain ⟨hu, hx⟩ := hgranted hx
    obtain ⟨place, hplace, hholds⟩ := h.covers hx ((hsets u hu).2 ▸ hi)
    exact ⟨place, by rwa [hsystem], by rwa [hlocks]⟩
  · obtain ⟨-, hi⟩ := hmoved hi
    obtain ⟨hnot, hall⟩ := h.apart hi hne
    exact ⟨fun hu => hnot (hmoved hu).2, fun mode hx => hall mode (hgranted hx).2⟩

theorem Stored.drop {g : CallStage} (h : m.Stored) (hg : g = .unlocking ∨ g = .ended)
    (hwork : ∀ w ∈ m.system.work, w.tid ≠ t) (hundo : ∀ rest, m.system.stage t ≠ .undoing rest)
    (hsystem : m'.system = m.system) (hstage : m'.stage = Function.update m.stage t g)
    (hsets : ∀ u, u ≠ t → m'.granted u = m.granted u ∧ m'.moved u = m.moved u)
    (hnone : m'.granted t = ∅ ∧ m'.moved t = ∅) : m'.Stored := by
  have hgranted {u : Fin n} {x : Nat × AccessMode} (hx : x ∈ m'.granted u) : x ∈ m.granted u := by
    rcases eq_or_ne u t with rfl | hne
    · rw [hnone.1] at hx
      exact absurd hx (Finset.notMem_empty _)
    · exact (hsets u hne).1 ▸ hx
  have hmoved {u : Fin n} {i : Nat} (hi : i ∈ m'.moved u) : i ∈ m.moved u := by
    rcases eq_or_ne u t with rfl | hne
    · rw [hnone.2] at hi
      exact absurd hi (Finset.notMem_empty _)
    · exact (hsets u hne).2 ▸ hi
  have hself : m'.stage t = g := by rw [hstage, Function.update_self]
  have hother {u : Fin n} (hu : u ≠ t) : m'.stage u = m.stage u := by
    rw [hstage, Function.update_of_ne hu]
  have hid {i : Nat} (hi : m.HasId i) : m'.HasId i := by
    unfold HasId
    rwa [hsystem]
  refine ⟨hsystem ▸ h.sound, hsystem ▸ h.small, fun hx => hid (h.granted (hgranted hx)),
    fun hi => hid (h.moved (hmoved hi)), fun {w} hw => ?_, fun {u i} hw => ?_, fun {u rest} hu => ?_,
    fun {u i mode place next} hu => ?_, fun {u c} hu => ?_⟩
  · rw [hsystem] at hw
    obtain ⟨u, hu, hinside, hall⟩ := h.working hw
    have hne : u ≠ t := by
      rintro rfl
      exact hwork w hw hu
    rw [(hsets u hne).2.symm] at hall
    exact ⟨u, hu, by rwa [hother hne], hall⟩
  · rw [hsystem] at hw
    obtain ⟨v, rfl, hv⟩ := h.wrote hw
    refine ⟨v, rfl, ?_⟩
    rcases eq_or_ne v t with rfl | hne
    · rw [hself]
      exact hg.imp id .inl
    · rw [hother hne]
      unfold Owns
      rwa [(hsets v hne).1, (hsets v hne).2]
  · rw [hsystem] at hu
    obtain ⟨v, rfl, hending, hall⟩ := h.undoing hu
    have hne : v ≠ t := by
      rintro rfl
      exact hundo rest hu
    rw [(hsets v hne).2.symm] at hall
    exact ⟨v, rfl, by rwa [hother hne], hall⟩
  · have hne : u ≠ t := by
      rintro rfl
      rw [hself] at hu
      rcases hg with rfl | rfl <;> cases hu
    rw [hsystem]
    exact h.waiting (hother hne ▸ hu)
  · have hne : u ≠ t := by
      rintro rfl
      rw [hself] at hu
      rcases hg with rfl | rfl <;> cases hu
    rw [hsystem, (hsets u hne).1]
    exact h.ready (hother hne ▸ hu)

theorem Inv.unlockAll {locks : LockManager (Fin n) Place} (h : m.Inv) (hstage : m.stage t = .ending)
    (hundo : ∀ rest, m.system.stage t ≠ .undoing rest) (hc : m.locks.Enabled (.unlockAll t))
    (hstep : m.locks.step priority (.unlockAll t) = some locks) :
    Inv { m.goto t .unlocking with
      locks
      granted := Function.update m.granted t ∅
      moved := Function.update m.moved t ∅ } := by
  have hsets (u : Fin n) (hu : u ≠ t) : Function.update m.granted t ∅ u = m.granted u ∧
      Function.update m.moved t ∅ u = m.moved u :=
    ⟨Function.update_of_ne hu .., Function.update_of_ne hu ..⟩
  have hnone : Function.update m.granted t ∅ t = ∅ ∧ Function.update m.moved t ∅ t = ∅ :=
    ⟨Function.update_self .., Function.update_self ..⟩
  have hcareful : m.locks.Careful priority (.unlockAll t) :=
      ⟨hc, LockManager.within_of_lockCall rfl, trivial⟩
  have hlocked := h.locked.onLocks hcareful hstep fun _ _ => rfl
  refine ⟨hlocked.drop rfl rfl hsets hnone, ?_, ?_⟩
  · exact h.stored.drop (.inl rfl) (h.stored.resting (by simp [hstage])) hundo rfl rfl hsets hnone
  · exact h.staged.onLocks hc hstep rfl rfl hsets (fun _ _ _ _ heq => by cases heq) (fun _ => rfl)
      fun _ => hnone

theorem Inv.ended {locks : LockManager (Fin n) Place} (h : m.Inv) (hstage : m.stage t = .unlocking)
    (hc : m.locks.Enabled (.ended t)) (hstep : m.locks.step priority (.ended t) = some locks) :
    Inv { m.goto t .ended with locks } := by
  have hnone := h.staged.cleared (.inl hstage)
  have hcareful : m.locks.Careful priority (.ended t) :=
      ⟨hc, LockManager.within_of_lockCall rfl, trivial⟩
  have hlocked := h.locked.onLocks hcareful hstep fun _ _ => rfl
  refine ⟨hlocked.congr rfl rfl rfl rfl, ?_, ?_⟩
  · refine h.stored.drop (.inr rfl) (h.stored.resting (by simp [hstage])) (fun rest hrest => ?_) rfl
      rfl (fun _ _ => ⟨rfl, rfl⟩) hnone
    obtain ⟨u, hu, hending, -⟩ := h.stored.undoing hrest
    obtain rfl : t = u := Fin.val_injective hu
    rw [hstage] at hending
    cases hending
  · refine h.staged.onLocks hc hstep rfl rfl (fun _ _ => ⟨rfl, rfl⟩)
      (fun _ _ _ _ heq => by cases heq) (fun hu => ?_) fun _ => hnone
    cases hstep
    simp [LockManager.goto, LockManager.unlocks, ManagerCall.transaction] at hu

theorem Inv.step {a : Action n} (h : m.Inv) (hlegal : m.Legal a) (hcareful : m.Careful priority a)
    (hs : m.step priority a = some m') : m'.Inv := by
  obtain ⟨hgives, hminds⟩ := hcareful
  cases a with
  | log e =>
    simp only [TransactionManager.step, Option.map_eq_some_iff] at hs
    obtain ⟨system, hsystem, rfl⟩ := hs
    refine h.log ?_ ?_ hsystem
    · rintro t c rfl
      exact hlegal
    · rintro t rfl
      exact hlegal
  | manager c =>
    simp only [TransactionManager.step, Option.map_eq_some_iff] at hs
    obtain ⟨locks, hstep, rfl⟩ := hs
    exact h.manager hlegal.1 ⟨hlegal.2, hminds⟩ hstep
  | lock t lid mode next =>
    obtain ⟨hstage, -, hmay, hnext⟩ := hlegal
    refine h.lock (h.stored.resting (by simp [hstage])) (by simp [hstage]) hmay
      (fun place hplace => (hgives ⟨t, lid, place⟩ ?_).2) hnext hs
    simp [gives, hplace]
  | answer t =>
    exact h.answer hlegal hgives hs
  | createObject t name value =>
    obtain ⟨hstage, -, hcall⟩ := hlegal
    exact h.enter hcall (by simp [hstage]) (.inl ⟨name, value, rfl⟩) hs
  | addRoot t o =>
    obtain ⟨hstage, -, hcall⟩ := hlegal
    exact h.enter hcall (by simp [hstage]) (.inr hminds) hs
  | call t =>
    simp only [TransactionManager.step] at hs
    split at hs
    · rename_i c hstage
      exact h.enter (hlegal.2 c (by simp [hstage, CallStage.ready])) (by simp [hstage]) (.inr (h.stored.ready hstage).2) hs
    · cases hs
  | again t =>
    simp only [TransactionManager.step] at hs
    split at hs
    · rename_i lid hstage
      refine h.lock (by simp [hlegal.1]) (by simp [hstage]) hlegal.2
        (fun place hplace => (hgives ⟨t, lid, place⟩ ?_).2) (fun c hc => by cases hc) hs
      simp [gives, hstage, hplace]
    · cases hs
  | leave t =>
    cases hs
    exact h.leave hlegal.2 hlegal.1
  | commit t =>
    simp only [TransactionManager.step, Option.map_eq_some_iff] at hs
    obtain ⟨system, hsystem, rfl⟩ := hs
    exact h.commit hlegal.2 hlegal.1 hsystem
  | abort t =>
    simp only [TransactionManager.step, Option.map_eq_some_iff] at hs
    obtain ⟨system, hsystem, rfl⟩ := hs
    exact h.abort hlegal.2 hlegal.1 hsystem
  | unlockAll t =>
    simp only [TransactionManager.step, Option.map_eq_some_iff] at hs
    obtain ⟨locks, hstep, rfl⟩ := hs
    refine h.unlockAll hlegal.1 (fun rest hrest => ?_) hlegal.2.2 hstep
    rcases hlegal.2.1 with hstage | hstage | hstage <;> simp [hstage] at hrest
  | ended t =>
    simp only [TransactionManager.step, Option.map_eq_some_iff] at hs
    obtain ⟨locks, hstep, rfl⟩ := hs
    exact h.ended hlegal.1 hlegal.2 hstep

theorem inv_of_reaches {k : Nat}
    (h : Reaches (step priority) (fun m a => m.Legal a ∧ m.Careful priority a) (init k) m) :
    m.Inv := by
  apply h.invariant (inv_init k)
  rintro m a m' hm ⟨hlegal, hcareful⟩ hs
  exact hm.step hlegal hcareful hs

-- ---------------------------------------------------------------------------
-- What a step does to the store and the log
-- ---------------------------------------------------------------------------

/-- The step of the store and the log that an action makes. -/
def event (m : TransactionManager n) : Action n → Option System.Event
  | .log e => some e
  | .commit t => some (.commit t)
  | .abort t => some (.abort t)
  | .createObject t name value => some (.call t (.createObject name value))
  | .addRoot t o => some (.call t (.addRoot o))
  | .call t => (m.stage t).ready.map (.call t)
  | .manager _ | .lock _ _ _ _ | .answer _ | .again _ | .leave _ | .unlockAll _ | .ended _ => none

theorem lock_system (hs : m.lock priority t lid mode next = some m') : m'.system = m.system := by
  unfold TransactionManager.lock at hs
  split at hs
  · cases hs
    rfl
  · rw [Option.bind_eq_bind, Option.bind_eq_some_iff] at hs
    obtain ⟨locks, -, hs⟩ := hs
    cases hs
    split <;> rfl

theorem answer_system (hs : m.answer priority t = some m') : m'.system = m.system := by
  unfold TransactionManager.answer at hs
  split at hs
  · rw [Option.bind_eq_bind, Option.bind_eq_some_iff] at hs
    obtain ⟨⟨p, l⟩, -, hs⟩ := hs
    rw [Option.bind_eq_bind, Option.bind_eq_some_iff] at hs
    obtain ⟨locks, -, hs⟩ := hs
    split at hs <;> cases hs <;> rfl
  · cases hs

theorem enter_system {c : Operation} (hs : m.enter t c = some m') :
    m.system.step (.call t c) = some m'.system := by
  unfold TransactionManager.enter at hs
  rw [Option.bind_eq_bind, Option.bind_eq_some_iff] at hs
  obtain ⟨system, hsystem, hs⟩ := hs
  cases hs
  exact hsystem

theorem step_system {a : Action n} (hs : m.step priority a = some m') :
    (m.event a = none ∧ m'.system = m.system) ∨
      ∃ e, m.event a = some e ∧ m.system.step e = some m'.system := by
  cases a with
  | log e | commit t | abort t =>
    simp only [TransactionManager.step, Option.map_eq_some_iff] at hs
    obtain ⟨system, hsystem, rfl⟩ := hs
    exact .inr ⟨_, rfl, hsystem⟩
  | manager c | unlockAll t | ended t =>
    simp only [TransactionManager.step, Option.map_eq_some_iff] at hs
    obtain ⟨locks, -, rfl⟩ := hs
    exact .inl ⟨rfl, rfl⟩
  | lock t lid mode next => exact .inl ⟨rfl, lock_system hs⟩
  | answer t => exact .inl ⟨rfl, answer_system hs⟩
  | createObject t name value => exact .inr ⟨_, rfl, enter_system hs⟩
  | addRoot t o => exact .inr ⟨_, rfl, enter_system hs⟩
  | call t =>
    simp only [TransactionManager.step] at hs
    split at hs
    · rename_i c hstage
      exact .inr ⟨.call t c, by simp [event, hstage, CallStage.ready], enter_system hs⟩
    · cases hs
  | again t =>
    simp only [TransactionManager.step] at hs
    split at hs
    · exact .inl ⟨rfl, lock_system hs⟩
    · cases hs
  | leave t =>
    cases hs
    exact .inl ⟨rfl, rfl⟩

theorem event_legal {a : Action n} {e : System.Event} (h : m.Legal a) (he : m.event a = some e) :
    m.system.Legal e := by
  cases a with
  | log e' =>
    cases he
    cases e with
    | call u c | commit u | abort u => exact h.elim
    | leave u => exact h.1
    | enter | begin u | work | undo u | rollback u | ckpt | endCkpt => exact h
  | commit t | abort t =>
    cases he
    exact h.2
  | createObject t name value | addRoot t o =>
    cases he
    exact h.2.2
  | call t =>
    obtain ⟨c, hc, rfl⟩ := Option.map_eq_some_iff.mp he
    exact h.2 c hc
  | manager c | lock t lid mode next | answer t | again t | leave t | unlockAll t | ended t => cases he

/-- A call is made by a transaction that has its object. -/
theorem Inv.begins {a : Action n} {u : Nat} {c : Operation} (h : m.Inv) (hlegal : m.Legal a)
    (hcareful : m.Careful priority a) (he : m.event a = some (.call u c)) :
    ∃ t : Fin n, u = t ∧ (t, c) ∈ m.begins a ∧
      ((∃ name value, c = .createObject name value) ∨ (object m.system.store c, .write) ∈ m.granted t) := by
  cases a with
  | log e =>
    cases he
    exact hlegal.elim
  | createObject t name value =>
    cases he
    exact ⟨t, rfl, rfl, .inl ⟨name, value, rfl⟩⟩
  | addRoot t o =>
    cases he
    exact ⟨t, rfl, rfl, .inr hcareful.2⟩
  | call t =>
    obtain ⟨c', hc', heq⟩ := Option.map_eq_some_iff.mp he
    cases heq
    have hstage : m.stage t = .locked c := by
      cases hs : m.stage t <;> simp [hs, CallStage.ready] at hc'
      rw [hc']
    exact ⟨t, rfl, by simp [TransactionManager.begins, hc'], .inr (h.stored.ready hstage).2⟩
  | commit t | abort t => cases he
  | manager c | lock t lid mode next | answer t | again t | leave t | unlockAll t | ended t => cases he

end TransactionManager

end Loxim.TManager
