import Loxim.Lock.LockAll
import Loxim.Lock.LockLife

/-!
# What is locked stays locked

A request that is refused stays counted, so that a lock may outlive its use. But no
lock is deleted that a transaction has or waits for, and what a transaction has
locked it has until it unlocks it, whatever the others do.
-/

namespace Loxim.Lock

open Util

namespace SingleLock

variable {T : Type} [DecidableEq T] [Fintype T] {priority : T → Int} {l l' : SingleLock T} {t u : T}
  {mode : AccessMode}

/-- No more transactions wait than are counted: a refused one is never counted down. -/
def CountsWaiting (l : SingleLock T) : Prop := tally l.stage Stage.blocked ≤ l.waiting

theorem CountsWaiting.move {s : Stage} (h : l.CountsWaiting)
    (hstage : l'.stage = Function.update l.stage t s)
    (hwaiting : l.waiting + s.blocked.toNat ≤ l'.waiting + (l.stage t).blocked.toNat) :
    l'.CountsWaiting := by
  have hcount : tally (Function.update l.stage t s) Stage.blocked + (l.stage t).blocked.toNat =
      tally l.stage Stage.blocked + s.blocked.toNat := tally_update t s
  unfold CountsWaiting at h ⊢
  rw [hstage]
  omega

theorem CountsWaiting.step {c : LockCall T} (h : l.CountsWaiting) (hinv : l.Inv)
    (hc : l.Enabled c) (hstep : l.step priority c = some l') : l'.CountsWaiting := by
  cases c with
  | waitForLock t mode =>
    cases hstep
    refine h.move (t := t) rfl ?_
    rw [blocked_of_free hc]
    simp [Stage.blocked]
  | check t =>
    obtain ⟨mode, r, w, hs⟩ := hc
    simp only [SingleLock.step, hs] at hstep
    cases hstep
    rcases l.check_cases priority t mode r w with ⟨up, hcheck⟩ | ⟨-, hcheck⟩ | ⟨-, hcheck⟩
    · rw [hcheck]
      exact h.move (t := t) rfl (by simp [hs, goto, Stage.blocked])
    · -- a refused one stays counted
      rw [hcheck]
      refine h.move (t := t) rfl ?_
      simp only [hs, goto, Stage.blocked, Bool.toNat_false, Bool.toNat_true]
      omega
    · rw [hcheck]
      exact h.move (t := t) rfl (by simp [hs, SingleLock.granted, Stage.blocked])
  | ask t woken =>
    obtain ⟨mode, upgrade, hs⟩ := hc.1
    simp only [SingleLock.step, hs] at hstep
    obtain ⟨m, -, hstep⟩ := Option.bind_eq_some_iff.mp hstep
    cases hstep
    exact h.move (t := t) rfl (by simp [hs, goto, Stage.blocked])
  | resume t woken =>
    obtain ⟨m, -, hstep⟩ := Option.bind_eq_some_iff.mp hstep
    cases hstep
    exact h
  | finish t =>
    obtain ⟨mode, upgrade, hs⟩ := hc.1
    obtain ⟨-, -, rfl⟩ := (hinv.right t).at hs
    simp only [SingleLock.step, hs, errorCode] at hstep
    cases hstep
    exact h.move (t := t) rfl (by simp [hs, SingleLock.finish, Stage.blocked])
  | unlock t =>
    cases hstep
    refine h.move (t := t) rfl ?_
    rw [blocked_of_free hc.1]
    simp [Stage.blocked]
  | release t woken =>
    obtain ⟨d, hs⟩ := hc.1
    simp only [SingleLock.step, hs] at hstep
    obtain ⟨m, -, hstep⟩ := Option.bind_eq_some_iff.mp hstep
    cases hstep
    exact h.move (t := t) rfl (by simp [hs, goto, Stage.blocked])

/-- The counters forget nobody. -/
structure Minded (l : SingleLock T) : Prop where
  inside : l.CountsInside
  waiting : l.CountsWaiting

theorem minded_create (t : T) (mode : AccessMode) : (create t mode).Minded := by
  refine ⟨countsInside_create t mode, ?_⟩
  have hnone : tally (fun _ : T => Stage.idle) Stage.blocked = 0 := tally_eq_zero.mpr fun _ => rfl
  simp [CountsWaiting, create, hnone]

theorem Minded.step {c : LockCall T} (h : l.Minded) (hinv : l.Inv) (hc : l.Enabled c)
    (hstep : l.step priority c = some l') : l'.Minded :=
  ⟨h.inside.step hinv hc hstep, h.waiting.step hinv hc hstep⟩

omit [DecidableEq T] in
theorem Minded.unused (h : l.Minded) (hinside : l.inside = 0) (hwaiting : l.waiting = 0) :
    ¬l.Used := by
  have hin : l.inside = tally l.locked (fun b => b) := h.inside
  have hwait : (tally l.stage Stage.blocked : Int) ≤ l.waiting := h.waiting
  have hlocked : tally l.locked (fun b => b) = 0 := by omega
  have hblocked : tally l.stage Stage.blocked = 0 := by omega
  rintro ⟨u, hu | hu⟩
  · rw [tally_eq_zero.mp hlocked u] at hu
    cases hu
  · rw [tally_eq_zero.mp hblocked u] at hu
    cases hu

/-- Who is told to delete the lock leaves it unused. -/
theorem Minded.deletes (h : l.Minded) (hinv : l.Inv) (hc : l.Enabled (.unlock t))
    (hstep : l.step priority (.unlock t) = some l') (hd : l'.stage t = .leaving true) :
    l.inside = 1 ∧ l.waiting = 0 ∧ ¬l'.Used := by
  have hminded := h.step hinv hc hstep
  cases hstep
  simp only [Function.update_self, Stage.leaving.injEq, decide_eq_true_eq] at hd
  exact ⟨by omega, hd.2, hminded.unused hd.1 hd.2⟩

omit [DecidableEq T] in
theorem Inv.locked_of_hasMode (h : l.Inv) (hm : l.HasMode u mode) : l.locked u = true := by
  rw [h.locked_iff]
  cases mode with
  | read => exact hm
  | write => exact .inr hm

omit [DecidableEq T] in
/-- Who is in the set is inside the semaphore. -/
theorem Inv.place (h : l.Inv) :
    (u ∈ l.currentRead → l.monitor.pc u = .reader) ∧
      (u ∈ l.currentWrite → l.monitor.pc u = .writer) := by
  have hset (hs : l.Settled u) : (u ∈ l.currentRead → l.monitor.pc u = .reader) ∧
      (u ∈ l.currentWrite → l.monitor.pc u = .writer) := ⟨hs.read.mp, hs.write.mp⟩
  have hun (hs : l.Unnoted u) : (u ∈ l.currentRead → l.monitor.pc u = .reader) ∧
      (u ∈ l.currentWrite → l.monitor.pc u = .writer) :=
    ⟨fun hr => absurd hr hs.read, fun hw => absurd hw hs.write⟩
  cases hs : l.stage u with
  | idle => exact hset ((h.right u).at hs)
  | unlocked d => exact hset ((h.right u).at hs)
  | returned mode code => exact hset ((h.right u).at hs).1
  | entered mode r w => exact hset ((h.right u).at hs).1
  | allowed mode upgrade => exact hun ((h.right u).at hs).1
  | asking mode upgrade => exact hun ((h.right u).at hs).1
  | leaving d => exact hun ((h.right u).at hs).1

/-- A writer is alone. -/
theorem Inv.exclusive (h : l.Inv) (ht : l.HasMode t .write) (hu : l.HasMode u mode) : u = t := by
  have hp : l.monitor.pc t = .writer := h.place.2 ht
  have hin : (l.monitor.pc t).writesInside = true := by
    rw [hp]
    rfl
  have hinside : (l.monitor.pc u).inside = true := by
    have hmem : u ∈ l.currentRead ∨ u ∈ l.currentWrite := by
      cases mode with
      | read => exact hu
      | write => exact .inr hu
    rcases hmem with hr | hw
    · rw [h.place.1 hr]
      rfl
    · rw [h.place.2 hw]
      rfl
  exact h.monitor.writer_alone (.inl hin) hinside

omit [Fintype T] in
/-- The sets lose only who unlocks. -/
theorem HasMode.step {c : LockCall T} (h : l.HasMode t mode) (hc : c ≠ .unlock t)
    (hstep : l.step priority c = some l') : l'.HasMode t mode := by
  have hsame {l₁ : SingleLock T} (hr : l₁.currentRead = l.currentRead)
      (hw : l₁.currentWrite = l.currentWrite) : l₁.HasMode t mode := by
    cases mode <;> simpa [HasMode, hr, hw] using h
  cases c with
  | waitForLock u mode' =>
    cases hstep
    exact hsame rfl rfl
  | check u =>
    simp only [SingleLock.step] at hstep
    split at hstep
    · rename_i mode' r w hs
      cases hstep
      rcases l.check_cases priority u mode' r w with ⟨up, hcheck⟩ | ⟨-, hcheck⟩ | ⟨-, hcheck⟩
      · rw [hcheck]
        exact hsame rfl rfl
      · rw [hcheck]
        exact hsame rfl rfl
      · rw [hcheck]
        exact hsame rfl rfl
    · cases hstep
  | ask u woken =>
    simp only [SingleLock.step] at hstep
    split at hstep
    · obtain ⟨monitor, -, hstep⟩ := Option.bind_eq_some_iff.mp hstep
      cases hstep
      exact hsame rfl rfl
    · cases hstep
  | resume u woken =>
    obtain ⟨monitor, -, hstep⟩ := Option.bind_eq_some_iff.mp hstep
    cases hstep
    exact hsame rfl rfl
  | finish u =>
    simp only [SingleLock.step] at hstep
    split at hstep
    · rename_i mode' up hs
      split at hstep
      · cases hstep
        cases mode <;> cases mode' <;> simp_all [HasMode, SingleLock.finish]
        all_goals tauto
      · cases hstep
        exact hsame rfl rfl
    · cases hstep
  | unlock u =>
    have hne : t ≠ u := by
      rintro rfl
      exact hc rfl
    have hf := step_frame hstep hne
    cases mode with
    | read => exact h.imp hf.read.mpr hf.write.mpr
    | write => exact hf.write.mpr h
  | release u woken =>
    simp only [SingleLock.step] at hstep
    split at hstep
    · obtain ⟨monitor, -, hstep⟩ := Option.bind_eq_some_iff.mp hstep
      cases hstep
      exact hsame rfl rfl
    · cases hstep

end SingleLock

namespace LockManager

variable {T P : Type} [DecidableEq T] [DecidableEq P] [Fintype T] {priority : T → Int}
  {m m' : LockManager T P} {t u : T} {id : Nat} {phid : P} {l l' : SingleLock T} {mode : AccessMode}

/-- No lock is deleted under a transaction. -/
structure Guarded (m : LockManager T P) : Prop where
  wired : m.Wired
  sound : m.Sound
  minded : ∀ id phid l, m.heap id = some (phid, l) → l.Minded
  mutex : ∀ t, unlocks (m.stage t) = true → m.mutex = some t
  unused : ∀ t id rest phid l, m.stage t = .unlockingOne id rest → m.heap id = some (phid, l) →
    l.stage t = .leaving true ∨ l.stage t = .unlocked true →
    ¬l.Used ∧ ∀ u mode, m.stage u ≠ .found id mode

omit [DecidableEq T] [DecidableEq P] in
theorem guarded_init : ({} : LockManager T P).Guarded :=
  ⟨wired_init, sound_init, (fun _ _ _ heq => by cases heq), (fun _ heq => by cases heq),
    fun _ _ _ _ _ heq => by cases heq⟩

omit [DecidableEq T] [DecidableEq P] in
/-- One transaction at a time is in `unlockAll`. -/
theorem Guarded.alone (h : m.Guarded) (ht : unlocks (m.stage t) = true)
    (hu : unlocks (m.stage u) = true) : u = t := by
  have hmutex := h.mutex u hu
  rw [h.mutex t ht] at hmutex
  cases hmutex
  rfl

omit [DecidableEq T] [DecidableEq P] in
theorem Guarded.nobody (h : m.Guarded) (hmutex : m.mutex = none) : unlocks (m.stage t) = false := by
  cases hs : unlocks (m.stage t) with
  | false => rfl
  | true =>
    rw [h.mutex t hs] at hmutex
    cases hmutex

theorem Guarded.minded_step {c : ManagerCall T P} (h : m.Guarded) (hc : m.Enabled c)
    (hstep : m.step priority c = some m') :
    ∀ id phid l, m'.heap id = some (phid, l) → l.Minded := by
  intro id p l' hl'
  rcases step_lock h.wired hc hstep hl' with hl | ⟨l, c', hl, -, hen, hs⟩ | ⟨-, t, mode, rfl, -⟩
  · exact h.minded id p l' hl
  · exact (h.minded id p l hl).step (h.wired.inv id p l hl) hen hs
  · exact SingleLock.minded_create t mode

omit [Fintype T] in
/-- Only `unlockAll` takes the mutex and gives it back. -/
theorem step_mutex {c : ManagerCall T P} (hc : m.Enabled c) (hstep : m.step priority c = some m') :
    m'.mutex = m.mutex ∨ (∃ t, c = .unlockAll t ∧ m'.mutex = some t) ∨ ∃ t, c = .ended t := by
  cases c with
  | lock t phid mode =>
    simp only [step] at hstep
    split at hstep
    · cases hstep
      exact .inl rfl
    · cases hstep
      exact .inl rfl
  | wait t =>
    obtain ⟨id, mode, hs⟩ := hc
    simp only [step, hs] at hstep
    obtain ⟨m₁, hm₁, hstep⟩ := Option.bind_eq_some_iff.mp hstep
    obtain ⟨p, l, l', hl, hl', rfl⟩ := onLock_eq_some hm₁
    cases hstep
    exact .inl rfl
  | inner c =>
    obtain ⟨-, id, p, l, hs, -, -⟩ := hc
    have hlock : m.onLock priority id c = some m' := by
      rcases hs with hs | ⟨rest, hs⟩ <;> simpa [step, hs] using hstep
    obtain ⟨p', l₁, l', hl₁, hl', rfl⟩ := onLock_eq_some hlock
    exact .inl rfl
  | note t =>
    obtain ⟨-, id, p, l, mode, code, hs, hl, hst⟩ := hc
    rcases note_cases hs hl hst hstep with ⟨-, rfl⟩ | ⟨-, rfl⟩ <;> exact .inl rfl
  | unlockAll t =>
    cases hstep
    exact .inr (.inl ⟨t, rfl, rfl⟩)
  | unlockNext t id =>
    obtain ⟨rest, hs, -⟩ := hc
    simp only [step, hs] at hstep
    obtain ⟨m₁, hm₁, hstep⟩ := Option.bind_eq_some_iff.mp hstep
    obtain ⟨p, l, l', hl, hl', rfl⟩ := onLock_eq_some hm₁
    cases hstep
    exact .inl rfl
  | unlocked t =>
    obtain ⟨id, rest, p, l, d, hs, hl, hst⟩ := hc
    rw [unlocked_cases hs hl hst hstep]
    split <;> exact .inl rfl
  | ended t => exact .inr (.inr ⟨t, rfl⟩)

omit [Fintype T] in
/-- A transaction comes into `unlockAll` by calling it. -/
theorem step_unlocks {c : ManagerCall T P} (hc : m.Enabled c)
    (hstep : m.step priority c = some m') (hu : unlocks (m'.stage u) = true) :
    c = .unlockAll u ∨ (unlocks (m.stage u) = true ∧ c ≠ .ended u) := by
  rcases eq_or_ne u c.transaction with rfl | hne
  · cases c with
    | lock t phid mode =>
      simp only [step] at hstep
      split at hstep
      · cases hstep
        simp [ManagerCall.transaction, newLock, hc.2, unlocks] at hu
      · cases hstep
        simp [ManagerCall.transaction, goto, unlocks] at hu
    | wait t =>
      obtain ⟨id, mode, hs⟩ := hc
      simp only [step, hs] at hstep
      obtain ⟨m₁, hm₁, hstep⟩ := Option.bind_eq_some_iff.mp hstep
      cases hstep
      simp [ManagerCall.transaction, goto, unlocks] at hu
    | inner c =>
      obtain ⟨-, id, p, l, hs, -, -⟩ := hc
      have hlock : m.onLock priority id c = some m' := by
        rcases hs with hs | ⟨rest, hs⟩ <;> simpa [step, hs] using hstep
      obtain ⟨p', l₁, l', hl₁, hl', rfl⟩ := onLock_eq_some hlock
      exact .inr ⟨hu, fun heq => by cases heq⟩
    | note t =>
      obtain ⟨-, id, p, l, mode, code, hs, hl, hst⟩ := hc
      rcases note_cases hs hl hst hstep with ⟨-, rfl⟩ | ⟨-, rfl⟩ <;>
        simp [ManagerCall.transaction, goto, unlocks] at hu
    | unlockAll t => exact .inl rfl
    | unlockNext t id =>
      obtain ⟨rest, hs, -⟩ := hc
      exact .inr ⟨by simp [ManagerCall.transaction, hs, unlocks], fun heq => by cases heq⟩
    | unlocked t =>
      obtain ⟨id, rest, p, l, d, hs, -, -⟩ := hc
      exact .inr ⟨by simp [ManagerCall.transaction, hs, unlocks], fun heq => by cases heq⟩
    | ended t =>
      cases hstep
      simp [ManagerCall.transaction, goto, unlocks] at hu
  · rw [stage_others hstep hne] at hu
    refine .inr ⟨hu, ?_⟩
    rintro rfl
    exact hne rfl

theorem Guarded.mutex_step {c : ManagerCall T P} (h : m.Guarded) (hc : m.Enabled c)
    (hstep : m.step priority c = some m') :
    ∀ t, unlocks (m'.stage t) = true → m'.mutex = some t := by
  intro u hu
  rcases step_unlocks hc hstep hu with rfl | ⟨hu, hended⟩
  · cases hstep
    rfl
  · rcases step_mutex hc hstep with hmutex | ⟨t, rfl, -⟩ | ⟨t, rfl⟩
    · rw [hmutex]
      exact h.mutex u hu
    · rw [h.nobody hc.1] at hu
      cases hu
    · have hut : u = t := h.alone (by rw [show m.stage t = _ from hc]; rfl) hu
      exact absurd (by rw [hut]) hended

/-- Nobody comes to a lock that is left for good. -/
theorem Guarded.unused_step {c : ManagerCall T P} (h : m.Guarded) (hc : m.Enabled c)
    (hlook : m.NoLookup c) (hstep : m.step priority c = some m') {rest : Finset Nat}
    (hs : m'.stage t = .unlockingOne id rest) (hl : m'.heap id = some (phid, l'))
    (hst : l'.stage t = .leaving true ∨ l'.stage t = .unlocked true) :
    ¬l'.Used ∧ ∀ u mode, m'.stage u ≠ .found id mode := by
  have hin : unlocks (m'.stage t) = true := by
    rw [hs]
    rfl
  have hwas := step_unlocks hc hstep hin
  have hnobody (hmutex : m.mutex = none) (hne : c ≠ .unlockAll t) : False := by
    have hu := (hwas.resolve_left hne).1
    rw [h.nobody hmutex] at hu
    cases hu
  have halone {u : T} (hu : unlocks (m.stage u) = true) (hne : c ≠ .unlockAll t) : u = t :=
    h.alone (hwas.resolve_left hne).1 hu
  cases c with
  | lock u phid mode => exact (hnobody hc.1 (fun heq => by cases heq)).elim
  | note u => exact (hnobody hc.1 (fun heq => by cases heq)).elim
  | unlockAll u =>
    refine (hnobody hc.1 ?_).elim
    rintro heq
    cases heq
    cases hstep
    simp [goto] at hs
  | ended u =>
    obtain rfl := halone (u := u) (by rw [show m.stage u = _ from hc]; rfl)
      (fun heq => by cases heq)
    exact absurd rfl (hwas.resolve_left (fun heq => by cases heq)).2
  | unlocked u =>
    obtain ⟨id₁, rest₁, p, l, d, hs₁, hl₁, hst₁⟩ := hc
    obtain rfl := halone (u := u) (by rw [hs₁]; rfl) (fun heq => by cases heq)
    rw [unlocked_cases hs₁ hl₁ hst₁ hstep] at hs
    split at hs <;> simp [goto, deleteLock] at hs
  | wait u =>
    obtain ⟨id₁, mode, hs₁⟩ := hc
    simp only [step, hs₁] at hstep
    obtain ⟨m₁, hm₁, hstep⟩ := Option.bind_eq_some_iff.mp hstep
    obtain ⟨p, l₁, l₁', hl₁, hl₁', rfl⟩ := onLock_eq_some hm₁
    cases hstep
    have hne : t ≠ u := by
      rintro rfl
      simp [goto] at hs
    simp only [goto, Function.update_of_ne hne] at hs hl
    have hlook' (l : SingleLock T) (hl : m.heap id = some (phid, l))
        (hst : l.stage t = .leaving true ∨ l.stage t = .unlocked true) :
        ¬l.Used ∧ ∀ v mode', (Function.update m.stage u (.inLock id₁)) v ≠ .found id mode' := by
      obtain ⟨hused, hfound⟩ := h.unused t id rest phid l hs hl hst
      refine ⟨hused, fun v mode' hv => ?_⟩
      rcases eq_or_ne v u with rfl | hvu
      · simp at hv
      · exact hfound v mode' (by simpa [hvu] using hv)
    rcases eq_or_ne id id₁ with rfl | hid
    · -- it has looked the lock up
      simp only [Function.update_self, Option.some.injEq, Prod.mk.injEq] at hl
      obtain ⟨rfl, rfl⟩ := hl
      rw [(SingleLock.step_frame hl₁' hne).stage] at hst
      exact absurd hs₁ ((h.unused t id rest p l₁ hs hl₁ hst).2 u mode)
    · simp only [Function.update_of_ne hid] at hl
      exact hlook' l' hl hst
  | inner c =>
    obtain ⟨hinner, id₁, p, l₁, hs₁, hl₁, hen⟩ := hc
    have hlock : m.onLock priority id₁ c = some m' := by
      rcases hs₁ with hs₁ | ⟨rest₁, hs₁⟩ <;> simpa [step, hs₁] using hstep
    obtain ⟨p', l₀, l₁', hl₀, hl₁', rfl⟩ := onLock_eq_some hlock
    rw [hl₁] at hl₀
    cases hl₀
    have hinv := h.wired.inv id₁ p l₁ hl₁
    have hfit := (h.wired.linked id₁ p l₁ c.thread hl₁).fitting
    rcases eq_or_ne id id₁ with rfl | hid
    · simp only [Function.update_self, Option.some.injEq, Prod.mk.injEq] at hl
      obtain ⟨rfl, rfl⟩ := hl
      rcases hs₁ with hs₁ | ⟨rest₁, hs₁⟩
      · -- who waits is counted
        have hne : t ≠ c.thread := by
          rintro rfl
          rw [hs₁] at hs
          cases hs
        rw [(SingleLock.step_frame hl₁' hne).stage] at hst
        simp only [hs₁, Fitting, if_true] at hfit
        exact absurd ⟨c.thread, .inr (blocked_of_waiting hfit (inner_self hinv hen hinner hl₁').1)⟩
          (h.unused t id rest p l₁ hs hl₁ hst).1
      · obtain rfl := halone (u := c.thread) (by rw [hs₁]; rfl) (fun heq => by cases heq)
        simp only [hs₁, Fitting, if_true] at hfit
        obtain ⟨t, woken, rfl⟩ := release_of_leaves hinv hen hinner hfit
        obtain ⟨d, hd⟩ := hen.1
        obtain ⟨hst', hused⟩ := release_used hd hl₁'
        rw [LockCall.thread, hst'] at hst
        rcases hst with hst | hst
        · cases hst
        · cases hst
          rw [hused]
          exact h.unused t id rest p l₁ hs hl₁ (.inl hd)
    · simp only [Function.update_of_ne hid] at hl
      exact h.unused t id rest phid l' hs hl hst
  | unlockNext u id₁ =>
    obtain ⟨rest₁, hs₁, hmem⟩ := hc
    obtain rfl := halone (u := u) (by rw [hs₁]; rfl) (fun heq => by cases heq)
    simp only [step, hs₁] at hstep
    obtain ⟨m₁, hm₁, hstep⟩ := Option.bind_eq_some_iff.mp hstep
    obtain ⟨p, l₁, l₁', hl₁, hl₁', rfl⟩ := onLock_eq_some hm₁
    cases hstep
    have hid : id₁ = id := by
      simp only [goto, Function.update_self, ManagerStage.unlockingOne.injEq] at hs
      exact hs.1
    subst hid
    simp only [goto, Function.update_self, Option.some.injEq, Prod.mk.injEq] at hl
    obtain ⟨rfl, rfl⟩ := hl
    have hlinked := h.wired.linked id₁ p l₁ u hl₁
    rw [hs₁] at hlinked
    have hen : l₁.Enabled (.unlock u) := ⟨hlinked.fitting, hlinked.locked.mpr (.inl hmem)⟩
    have hd : l₁'.stage u = .leaving true := by
      rcases hst with hst | hst
      · exact hst
      · cases hl₁'
        simp at hst
    obtain ⟨hinside, hwaiting, hused⟩ :=
      (h.minded id₁ p l₁ hl₁).deletes (h.wired.inv id₁ p l₁ hl₁) hen hl₁' hd
    refine ⟨hused, fun v mode hv => ?_⟩
    rcases eq_or_ne v u with rfl | hvu
    · simp [goto] at hv
    · exact hlook p l₁ hl₁ hinside hwaiting v mode (by simpa [goto, hvu] using hv)

theorem Guarded.step {c : ManagerCall T P} (h : m.Guarded) (hc : m.Enabled c)
    (hno : m.Within (SingleLock.NoUpgrade priority) c) (hlook : m.NoLookup c)
    (hstep : m.step priority c = some m') : m'.Guarded :=
  ⟨h.wired.step hc hno hstep, h.sound.step hstep, h.minded_step hc hstep, h.mutex_step hc hstep,
    fun _ _ _ _ _ hs hl hst => h.unused_step hc hlook hstep hs hl hst⟩

-- ---------------------------------------------------------------------------
-- Holding
-- ---------------------------------------------------------------------------

/-- What becomes of a lock: nothing, a step on it, or it is deleted. -/
theorem heap_step {c : ManagerCall T P} (h : m.Guarded) (hc : m.Enabled c)
    (hstep : m.step priority c = some m') (hl : m.heap id = some (phid, l)) :
    m'.heap id = some (phid, l) ∨
    (∃ l' c', m'.heap id = some (phid, l') ∧ m.lockCall c = some (id, c') ∧
      l.step priority c' = some l') ∨
    ∃ t rest, m.stage t = .unlockingOne id rest ∧ l.stage t = .unlocked true := by
  have hon {id₁ : Nat} {c' : LockCall T} {m₁ : LockManager T P}
      (hon : m.onLock priority id₁ c' = some m₁) (hcall : m.lockCall c = some (id₁, c'))
      (hheap : m'.heap = m₁.heap) : m'.heap id = some (phid, l) ∨
      ∃ l' c', m'.heap id = some (phid, l') ∧ m.lockCall c = some (id, c') ∧
        l.step priority c' = some l' := by
    obtain ⟨p, l₁, l₁', hl₁, hl₁', rfl⟩ := onLock_eq_some hon
    rw [hheap]
    rcases eq_or_ne id id₁ with rfl | hne
    · rw [hl] at hl₁
      cases hl₁
      exact .inr ⟨l₁', c', Function.update_self .., hcall, hl₁'⟩
    · exact .inl (by simp only [Function.update_of_ne hne]; exact hl)
  cases c with
  | lock t p mode =>
    simp only [LockManager.step] at hstep
    split at hstep
    · cases hstep
      have hne : id ≠ m.singleLockId := (h.sound.fresh id (by simp [hl])).ne
      exact .inl (by simpa [newLock, hne] using hl)
    · cases hstep
      exact .inl hl
  | wait t =>
    obtain ⟨id₁, mode, hs⟩ := hc
    simp only [LockManager.step, hs] at hstep
    obtain ⟨m₁, hm₁, hstep⟩ := Option.bind_eq_some_iff.mp hstep
    cases hstep
    exact (hon hm₁ (by simp [lockCall, hs]) rfl).imp_right .inl
  | inner c =>
    obtain ⟨-, id₁, p, l₁, hs, -, -⟩ := hc
    have hlock : m.onLock priority id₁ c = some m' := by
      rcases hs with hs | ⟨rest, hs⟩ <;> simpa [LockManager.step, hs] using hstep
    have hcall : m.lockCall (.inner c : ManagerCall T P) = some (id₁, c) := by
      rcases hs with hs | ⟨rest, hs⟩ <;> simp [lockCall, hs]
    exact (hon hlock hcall rfl).imp_right .inl
  | note t =>
    obtain ⟨-, id₁, p, l₁, mode, code, hs, hl₁, hst⟩ := hc
    rcases note_cases hs hl₁ hst hstep with ⟨-, rfl⟩ | ⟨-, rfl⟩ <;> exact .inl hl
  | unlockAll t =>
    cases hstep
    exact .inl hl
  | unlockNext t id₁ =>
    obtain ⟨rest, hs, -⟩ := hc
    simp only [LockManager.step, hs] at hstep
    obtain ⟨m₁, hm₁, hstep⟩ := Option.bind_eq_some_iff.mp hstep
    cases hstep
    exact (hon hm₁ rfl rfl).imp_right .inl
  | unlocked t =>
    obtain ⟨id₁, rest, p, l₁, d, hs, hl₁, hst⟩ := hc
    rw [unlocked_cases hs hl₁ hst hstep]
    cases d with
    | false => exact .inl hl
    | true =>
      rcases eq_or_ne id id₁ with rfl | hne
      · rw [hl] at hl₁
        cases hl₁
        exact .inr (.inr ⟨t, rest, hs, hst⟩)
      · exact .inl (by simpa [goto, deleteLock, hne] using hl)
  | ended t =>
    cases hstep
    exact .inl hl

/-- The transaction unlocks one of its locks. -/
def unlocksOne (t : T) : ManagerCall T P → Bool
  | .unlockNext u _ => u = t
  | .lock _ _ _ | .wait _ | .inner _ | .note _ | .unlockAll _ | .unlocked _ | .ended _ => false

/-- What a transaction has locked it has until it unlocks it. -/
theorem Guarded.holds_step {c : ManagerCall T P} (h : m.Guarded) (hc : m.Enabled c)
    (hstep : m.step priority c = some m') (hh : m.Holds t phid mode)
    (hown : unlocksOne t c = false) : m'.Holds t phid mode := by
  obtain ⟨id, l, hmap, hl, hhas⟩ := hh
  rcases heap_step h hc hstep hl with hl' | ⟨l', c', hl', hcall, hl₁⟩ | ⟨u, rest, hs, hst⟩
  · exact ⟨id, l, ((h.sound.step hstep).live phid id).mpr ⟨l, hl'⟩, hl', hhas⟩
  · refine ⟨id, l', ((h.sound.step hstep).live phid id).mpr ⟨l', hl'⟩, hl', hhas.step ?_ hl₁⟩
    rintro rfl
    cases c with
    | unlockNext u id₁ =>
      cases hcall
      simp [unlocksOne] at hown
    | inner c =>
      obtain ⟨hinner, id₁, p, l₁, hs, -, -⟩ := hc
      have hc' : c = .unlock t := by
        rcases hs with hs | ⟨rest, hs⟩ <;> simp [lockCall, hs] at hcall <;> exact hcall.2
      rw [hc'] at hinner
      cases hinner
    | wait u =>
      obtain ⟨id₁, mode, hs⟩ := hc
      simp [lockCall, hs] at hcall
    | lock u p mode => cases hcall
    | note u => cases hcall
    | unlockAll u => cases hcall
    | unlocked u => cases hcall
    | ended u => cases hcall
  · exact absurd ⟨t, .inl ((h.wired.inv id phid l hl).locked_of_hasMode hhas)⟩
      (h.unused u id rest phid l hs hl (.inr hst)).1

omit [DecidableEq P] in
/-- Who has an object to write has it alone. -/
theorem Guarded.exclusive (h : m.Guarded) (ht : m.Holds t phid .write) (hu : m.Holds u phid mode) :
    u = t := by
  obtain ⟨id, l, hmap, hl, hhas⟩ := ht
  obtain ⟨id', l', hmap', hl', hhas'⟩ := hu
  rw [hmap] at hmap'
  cases hmap'
  rw [hl] at hl'
  cases hl'
  exact (h.wired.inv id phid l hl).exclusive hhas hhas'

omit [DecidableEq T] [DecidableEq P] [Fintype T] in
theorem within_of_lockCall {K : SingleLock T → LockCall T → Prop} {c : ManagerCall T P}
    (h : m.lockCall c = none) : m.Within K c := by
  intro id c' phid l hcall
  rw [h] at hcall
  cases hcall

/-- What the manager does not see to itself: no reader comes past the deadlock check
to write, the counters have room, and nobody has just looked up a lock that is left. -/
def Careful (priority : T → Int) (m : LockManager T P) (c : ManagerCall T P) : Prop :=
  m.Enabled c ∧ m.Within (SingleLock.NoUpgrade priority) c ∧ m.NoLookup c

instance (m : LockManager T P) : DecidablePred (m.Careful priority) := fun c =>
  inferInstanceAs (Decidable (m.Enabled c ∧ m.Within (SingleLock.NoUpgrade priority) c ∧
    m.NoLookup c))

theorem guarded_of_reaches (h : Reaches (step priority) (Careful priority) ({} : LockManager T P) m) :
    m.Guarded := by
  apply h.invariant guarded_init
  intro m c m' hm hc hstep
  exact hm.step hc.1 hc.2.1 hc.2.2 hstep

/-- Whatever requests are refused meanwhile: what a transaction has locked it has
until it unlocks it, and no other has it then if one of them writes. -/
theorem lockManager_keeps (h : Reaches (step priority) (Careful priority) ({} : LockManager T P) m)
    (hrun : Reaches (step priority)
      (fun m c => m.Careful priority c ∧ unlocksOne t c = false) m m')
    (hh : m.Holds t phid mode) :
    m'.Holds t phid mode ∧
      ∀ u mode', mode = .write ∨ mode' = .write → m'.Holds u phid mode' → u = t := by
  have hboth : m'.Guarded ∧ m'.Holds t phid mode := by
    apply hrun.invariant (I := fun m => m.Guarded ∧ m.Holds t phid mode)
      ⟨guarded_of_reaches h, hh⟩
    rintro m c m' ⟨hm, hh⟩ ⟨hc, hown⟩ hstep
    exact ⟨hm.step hc.1 hc.2.1 hc.2.2 hstep, hm.holds_step hc.1 hstep hh hown⟩
  obtain ⟨hguarded, hh'⟩ := hboth
  refine ⟨hh', fun u mode' hmode hu => ?_⟩
  rcases hmode with rfl | rfl
  · exact hguarded.exclusive hh' hu
  · exact (hguarded.exclusive hu hh').symm

instance (l : SingleLock T) (t : T) : DecidablePred (l.HasMode t)
  | .read => inferInstanceAs (Decidable (_ ∨ _))
  | .write => inferInstanceAs (Decidable (t ∈ l.currentWrite))

instance (m : LockManager T P) (t : T) (phid : P) (mode : AccessMode) :
    Decidable (m.Holds t phid mode) :=
  decidable_of_iff (∃ id ∈ m.mapOfLocks phid, ∃ v ∈ m.heap id, v.1 = phid ∧ v.2.HasMode t mode)
    ⟨fun ⟨id, hid, v, hv, hphid, hmode⟩ => ⟨id, v.2, hid, hphid ▸ hv, hmode⟩,
      fun ⟨id, l, hid, hl, hmode⟩ => ⟨id, hid, (phid, l), hl, rfl, hmode⟩⟩

/-- An older transaction waits and a younger one is refused. -/
theorem lockManager_keeps_refused : ∃ m : LockManager (Fin 3) (Fin 1),
    (∃ v ∈ m.heap 0, v.2.waiting = 2) ∧ m.Holds 1 0 .write ∧
    ∀ u mode, AccessMode.write = .write ∨ mode = .write → m.Holds u 0 mode → u = 1 := by
  have hfirst : Reaches (step ![3, 5, 7]) (Careful ![3, 5, 7]) ({} : LockManager (Fin 3) (Fin 1))
      (newLock {} 1 0 .write) :=
    Reaches.refl.step (a := .lock 1 0 .write) (by decide) rfl
  obtain ⟨m, hm, hQ⟩ := Reaches.of_play (step ![3, 5, 7])
    (fun m c => m.Careful ![3, 5, 7] c ∧ unlocksOne 1 c = false)
    (newLock {} 1 0 .write : LockManager (Fin 3) (Fin 1))
    [.lock 0 0 .write, .wait 0, .inner (.check 0), .inner (.ask 0 ⟨0, 0⟩),
      .lock 2 0 .write, .wait 2, .inner (.check 2), .note 2]
    (fun m => ∃ v ∈ m.heap 0, v.2.waiting = 2) (by decide)
  have hfree : (newLock {} 1 0 .write : LockManager (Fin 3) (Fin 1)).Holds 1 0 .write := by decide
  obtain ⟨hh, halone⟩ := lockManager_keeps hfirst hm hfree
  exact ⟨m, of_decide_eq_true hQ, hh, halone⟩

end LockManager

end Loxim.Lock
