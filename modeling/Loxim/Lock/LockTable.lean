import Loxim.Lib.Census
import Loxim.Lock.LockManager

/-!
# The table of locks

The map has exactly the locks that are not deleted, and a lock is not deleted as
long as a transaction has it: `inside` counts those who were told so, whatever
becomes of the requests that wait.
-/

namespace Loxim.Lock

open Util

namespace SingleLock

variable {T : Type} [DecidableEq T] [Fintype T] {priority : T → Int} {l l' : SingleLock T} {t u : T}
  {c : LockCall T}

/-- The lock counts its holders. -/
def CountsInside (l : SingleLock T) : Prop := l.inside = tally l.locked (fun b => b)

omit [DecidableEq T] [Fintype T] in
theorem locked_of_noted (h : l.Settled t) (hr : t ∈ l.currentRead ∨ t ∈ l.currentWrite) :
    l.locked t = true := by
  rw [h.locked]
  rcases hr with hr | hr
  · rw [h.read.mp hr]
    exact nofun
  · rw [h.write.mp hr]
    exact nofun

omit [DecidableEq T] in
/-- The sets hold those who were told that they have the lock. -/
theorem Inv.locked_iff (h : l.Inv) : l.locked t = true ↔ t ∈ l.currentRead ∨ t ∈ l.currentWrite := by
  have hset (hs : l.Settled t) :
      l.locked t = true ↔ t ∈ l.currentRead ∨ t ∈ l.currentWrite := by
    refine ⟨fun hl => ?_, locked_of_noted hs⟩
    exact (hs.place.resolve_left (hs.locked.mp hl)).imp hs.read.mpr hs.write.mpr
  have hun (hs : l.Unnoted t) :
      l.locked t = true ↔ t ∈ l.currentRead ∨ t ∈ l.currentWrite := by
    simp [hs.locked, hs.read, hs.write]
  cases hs : l.stage t with
  | idle => exact hset ((h.right t).at hs)
  | unlocked d => exact hset ((h.right t).at hs)
  | returned mode code => exact hset ((h.right t).at hs).1
  | entered mode r w => exact hset ((h.right t).at hs).1
  | allowed mode upgrade => exact hun ((h.right t).at hs).1
  | asking mode upgrade => exact hun ((h.right t).at hs).1
  | leaving d => exact hun ((h.right t).at hs).1

theorem CountsInside.move {b : Bool} (h : l.CountsInside)
    (hlocked : l'.locked = Function.update l.locked t b)
    (hinside : l'.inside + (l.locked t).toNat = l.inside + b.toNat) : l'.CountsInside := by
  have hcount : tally (Function.update l.locked t b) (fun b => b) + (l.locked t).toNat =
      tally l.locked (fun b => b) + b.toNat := tally_update t b
  unfold CountsInside at h ⊢
  rw [hlocked]
  omega

/-- Only who is told that it has the lock, or gives it back, is counted. -/
theorem CountsInside.step (h : l.CountsInside) (hinv : l.Inv) (hc : l.Enabled c)
    (hstep : l.step priority c = some l') : l'.CountsInside := by
  cases c with
  | waitForLock t mode =>
    cases hstep
    exact h
  | check t =>
    obtain ⟨mode, r, w, hs⟩ := hc
    simp only [SingleLock.step, hs] at hstep
    cases hstep
    rcases l.check_cases priority t mode r w with ⟨up, hcheck⟩ | ⟨-, hcheck⟩ | ⟨hnoted, hcheck⟩
    · rw [hcheck]
      exact h
    · rw [hcheck]
      exact h
    · obtain ⟨hset, hr, hw⟩ := (hinv.right t).at hs
      have hlocked := locked_of_noted hset (hnoted.imp hr.mp hw.mp)
      rw [hcheck]
      exact h.move (t := t) rfl (by simp [hlocked, SingleLock.granted])
  | ask t woken =>
    obtain ⟨mode, upgrade, hs⟩ := hc.1
    simp only [SingleLock.step, hs] at hstep
    obtain ⟨m, -, hstep⟩ := Option.bind_eq_some_iff.mp hstep
    cases hstep
    exact h
  | resume t woken =>
    obtain ⟨m, -, hstep⟩ := Option.bind_eq_some_iff.mp hstep
    cases hstep
    exact h
  | finish t =>
    obtain ⟨mode, upgrade, hs⟩ := hc.1
    obtain ⟨hun, -, rfl⟩ := (hinv.right t).at hs
    simp only [SingleLock.step, hs, errorCode] at hstep
    cases hstep
    exact h.move (t := t) rfl (by simp [hun.locked, SingleLock.finish])
  | unlock t =>
    cases hstep
    exact h.move (t := t) rfl (by simp [hc.2])
  | release t woken =>
    obtain ⟨d, hs⟩ := hc.1
    simp only [SingleLock.step, hs] at hstep
    obtain ⟨m, -, hstep⟩ := Option.bind_eq_some_iff.mp hstep
    cases hstep
    exact h

theorem countsInside_create (t : T) (mode : AccessMode) : (create t mode).CountsInside := by
  have hnone : tally (fun _ : T => false) (fun b => b) = 0 := tally_eq_zero.mpr fun _ => rfl
  have hcount : tally (Function.update (fun _ : T => false) t true) (fun b => b) + false.toNat =
      tally (fun _ : T => false) (fun b => b) + true.toNat := tally_update t true
  have hone : (create t mode).locked = Function.update (fun _ : T => false) t true := by
    funext u
    rcases eq_or_ne u t with rfl | hne
    · simp [create]
    · simp [create, hne]
  unfold CountsInside
  rw [hone]
  simp only [hnone] at hcount
  simp [create] at hcount ⊢
  omega

end SingleLock

namespace LockManager

variable {T P : Type} [DecidableEq T] [DecidableEq P] [Fintype T] {priority : T → Int}
  {m m' : LockManager T P} {t u : T} {id : Nat} {phid : P} {l l' : SingleLock T}

/-- In `unlockAll`. -/
def unlocks : ManagerStage → Bool
  | .unlocking _ | .unlockingOne _ _ => true
  | .idle | .found _ _ | .inLock _ => false

structure Held (m : LockManager T P) : Prop where
  wired : m.Wired
  inside : ∀ id phid l, m.heap id = some (phid, l) → l.CountsInside
  live : ∀ phid id, m.mapOfLocks phid = some id ↔ ∃ l, m.heap id = some (phid, l)
  mutex : ∀ t, unlocks (m.stage t) = true → m.mutex = some t
  owned : ∀ t, ∀ id ∈ owned (m.stage t) (m.transactionLocks t), ∃ v, m.heap id = some v
  unowned : ∀ t id rest phid l, m.stage t = .unlockingOne id rest → m.heap id = some (phid, l) →
    l.stage t = .leaving true ∨ l.stage t = .unlocked true →
    ∀ u, id ∉ LockManager.owned (m.stage u) (m.transactionLocks u)

omit [DecidableEq T] [DecidableEq P] in
theorem held_init : ({} : LockManager T P).Held := by
  refine ⟨wired_init, nofun, fun _ _ => ⟨nofun, nofun⟩, nofun, ?_, nofun⟩
  intro t id hid
  exact absurd hid (Finset.notMem_empty _)

omit [DecidableEq T] [DecidableEq P] in
/-- One transaction at a time is in `unlockAll`. -/
theorem Held.alone (h : m.Held) (ht : unlocks (m.stage t) = true)
    (hu : unlocks (m.stage u) = true) : u = t := by
  have hmutex := h.mutex u hu
  rw [h.mutex t ht] at hmutex
  cases hmutex
  rfl

omit [DecidableEq T] [DecidableEq P] in
theorem Held.nobody (h : m.Held) (hmutex : m.mutex = none) : unlocks (m.stage t) = false := by
  cases hs : unlocks (m.stage t) with
  | false => rfl
  | true =>
    rw [h.mutex t hs] at hmutex
    cases hmutex

/-- The locks are counted, whatever the step is. -/
theorem Held.inside_step {c : ManagerCall T P} (h : m.Held) (hc : m.Enabled c)
    (hstep : m.step priority c = some m') :
    ∀ id phid l, m'.heap id = some (phid, l) → l.CountsInside := by
  intro id p l' hl'
  rcases step_lock h.wired hc hstep hl' with hl | ⟨l, c', hl, -, hen, hs⟩ | ⟨-, t, mode, rfl, -⟩
  · exact h.inside id p l' hl
  · exact (h.inside id p l hl).step (h.wired.inv id p l hl) hen hs
  · exact SingleLock.countsInside_create t mode

end LockManager

end Loxim.Lock
