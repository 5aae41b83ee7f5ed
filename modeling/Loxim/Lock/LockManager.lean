import Loxim.Lock.SingleLock

/-!
# The lock manager

Locks are kept by physical id and made when an object is first locked. The
manager's mutex is held all through `unlockAll`; `lock_primitive` gives it up
while it waits for a lock. A lock that `heap` does not have is not made yet or
is deleted, and a step that needs it fails.
-/

namespace Loxim.Lock

open Util

/-- In `wait_for_lock`, or back from it. -/
def Stage.waiting : Stage → Bool
  | entered _ _ _ | allowed _ _ | asking _ _ | returned _ _ => true
  | idle | leaving _ | unlocked _ => false

/-- In `SingleLock::unlock`, or back from it. -/
def Stage.leaves : Stage → Bool
  | leaving _ | unlocked _ => true
  | idle | entered _ _ _ | allowed _ _ | asking _ _ | returned _ _ => false

def Stage.isReturned : Stage → Bool
  | returned _ _ => true
  | idle | entered _ _ _ | allowed _ _ | asking _ _ | leaving _ | unlocked _ => false

theorem Stage.isReturned_iff {s : Stage} :
    s.isReturned = true ↔ ∃ mode code, s = .returned mode code := by
  cases s <;> simp [Stage.isReturned]

/-- Where a transaction is in `lock_primitive` or `unlockAll`. -/
inductive ManagerStage
  | idle
  | found (id : Nat) (mode : AccessMode)
  | inLock (id : Nat)
  | unlocking (rest : Finset Nat)
  | unlockingOne (id : Nat) (rest : Finset Nat)
  deriving DecidableEq

structure LockManager (T P : Type) where
  heap : Nat → Option (P × SingleLock T) := fun _ => none
  mapOfLocks : P → Option Nat := fun _ => none
  singleLockId : Nat := 0
  transactionLocks : T → Finset Nat := fun _ => ∅
  mutex : Option T := none
  stage : T → ManagerStage := fun _ => .idle

inductive ManagerCall (T P : Type)
  | lock (t : T) (phid : P) (mode : AccessMode)
  | wait (t : T)
  | inner (c : LockCall T)
  | note (t : T)
  | unlockAll (t : T)
  | unlockNext (t : T) (id : Nat)
  | unlocked (t : T)
  | ended (t : T)

namespace LockManager

variable {T P : Type} [DecidableEq T] [DecidableEq P] (priority : T → Int)

def goto (m : LockManager T P) (t : T) (stage : ManagerStage) : LockManager T P :=
  { m with stage := Function.update m.stage t stage }

/-- A step on the lock with that id. -/
def onLock (m : LockManager T P) (id : Nat) (c : LockCall T) : Option (LockManager T P) := do
  let (phid, l) ← m.heap id
  let l ← l.step priority c
  return { m with heap := Function.update m.heap id (some (phid, l)) }

/-- The lock is not in the map: a new one, locked. -/
def newLock (m : LockManager T P) (t : T) (phid : P) (mode : AccessMode) : LockManager T P :=
  { m with
    heap := Function.update m.heap m.singleLockId (some (phid, SingleLock.create t mode))
    mapOfLocks := Function.update m.mapOfLocks phid (some m.singleLockId)
    singleLockId := m.singleLockId + 1
    transactionLocks := Function.update m.transactionLocks t
      (insert m.singleLockId (m.transactionLocks t)) }

def deleteLock (m : LockManager T P) (id : Nat) (phid : P) : LockManager T P :=
  { m with
    heap := Function.update m.heap id none
    mapOfLocks := Function.update m.mapOfLocks phid none }

def step (m : LockManager T P) : ManagerCall T P → Option (LockManager T P)
  | .lock t phid mode =>
    match m.mapOfLocks phid with
    | none => some (m.newLock t phid mode)
    | some id => some (m.goto t (.found id mode))
  | .wait t =>
    match m.stage t with
    | .found id mode => do
      let m ← m.onLock priority id (.waitForLock t mode)
      return m.goto t (.inLock id)
    | _ => none
  | .inner c =>
    match m.stage c.thread with
    | .inLock id | .unlockingOne id _ => m.onLock priority id c
    | _ => none
  | .note t =>
    match m.stage t with
    | .inLock id => do
      let (_, l) ← m.heap id
      match l.stage t with
      | .returned _ 0 =>
        return { m.goto t .idle with
          transactionLocks := Function.update m.transactionLocks t
            (insert id (m.transactionLocks t)) }
      | _ => return m.goto t .idle
    | _ => none
  | .unlockAll t => some { m.goto t (.unlocking (m.transactionLocks t)) with mutex := some t }
  | .unlockNext t id =>
    match m.stage t with
    | .unlocking rest => do
      let m ← m.onLock priority id (.unlock t)
      return m.goto t (.unlockingOne id (rest.erase id))
    | _ => none
  | .unlocked t =>
    match m.stage t with
    | .unlockingOne id rest => do
      let (phid, l) ← m.heap id
      let m' := m.goto t (.unlocking rest)
      return if l.stage t = .unlocked true then m'.deleteLock id phid else m'
    | _ => none
  | .ended t =>
    some { m.goto t .idle with
      transactionLocks := Function.update m.transactionLocks t ∅
      mutex := none }

/-- The steps inside `wait_for_lock` and `SingleLock::unlock`. -/
def isInner : LockCall T → Bool
  | .check _ | .ask _ _ | .resume _ _ | .finish _ | .release _ _ => true
  | .waitForLock _ _ | .unlock _ => false

/-- The mutex is free where a call needs it, and each transaction makes one call at
a time. -/
def Enabled (m : LockManager T P) : ManagerCall T P → Prop
  | .lock t _ _ => m.mutex = none ∧ m.stage t = .idle
  | .wait t => ∃ id mode, m.stage t = .found id mode
  | .inner c => isInner c = true ∧ ∃ id phid l, (m.stage c.thread = .inLock id ∨
    ∃ rest, m.stage c.thread = .unlockingOne id rest) ∧ m.heap id = some (phid, l) ∧ l.Enabled c
  | .note t => m.mutex = none ∧ ∃ id phid l mode code, m.stage t = .inLock id ∧
    m.heap id = some (phid, l) ∧ l.stage t = .returned mode code
  | .unlockAll t => m.mutex = none ∧ m.stage t = .idle
  | .unlockNext t id => ∃ rest, m.stage t = .unlocking rest ∧ id ∈ rest
  | .unlocked t => ∃ id rest phid l d, m.stage t = .unlockingOne id rest ∧
    m.heap id = some (phid, l) ∧ l.stage t = .unlocked d
  | .ended t => m.stage t = .unlocking ∅

/-- The step that a call makes on a lock. -/
def lockCall (m : LockManager T P) : ManagerCall T P → Option (Nat × LockCall T)
  | .wait t =>
    match m.stage t with
    | .found id mode => some (id, .waitForLock t mode)
    | _ => none
  | .inner c =>
    match m.stage c.thread with
    | .inLock id | .unlockingOne id _ => some (id, c)
    | _ => none
  | .unlockNext t id => some (id, .unlock t)
  | .lock _ _ _ | .note _ | .unlockAll _ | .unlocked _ | .ended _ => none

/-- The step on the lock is one of a kind. -/
def Within (K : SingleLock T → LockCall T → Prop) (m : LockManager T P) (c : ManagerCall T P) :
    Prop :=
  ∀ id c' phid l, m.lockCall c = some (id, c') → m.heap id = some (phid, l) → K l c'

-- ---------------------------------------------------------------------------
-- The manager's view of a lock
-- ---------------------------------------------------------------------------

/-- The locks a transaction has, as far as `unlockAll` has not come to them. -/
def owned : ManagerStage → Finset Nat → Finset Nat
  | .unlocking rest, _ | .unlockingOne _ rest, _ => rest
  | .idle, locks | .found _ _, locks | .inLock _, locks => locks

/-- Where a transaction is on the lock, by where it is in the manager. -/
def Fitting (id : Nat) (s : Stage) : ManagerStage → Prop
  | .idle | .found _ _ | .unlocking _ => s.free = true
  | .inLock id' => if id' = id then s.waiting = true else s.free = true
  | .unlockingOne id' _ => if id' = id then s.leaves = true else s.free = true

/-- What the manager and a lock know about a transaction agrees. -/
structure Linked (stage : ManagerStage) (locks : Finset Nat) (id : Nat) (s : Stage)
    (locked : Bool) : Prop where
  fitting : Fitting id s stage
  locked : locked = true ↔ id ∈ owned stage locks ∨
    (stage = .inLock id ∧ ∃ mode, s = .returned mode 0)

variable [Fintype T]

/-- All locks a transaction knows. -/
def known (stage : ManagerStage) (locks : Finset Nat) : Finset Nat :=
  match stage with
  | .idle | .unlocking _ => owned stage locks
  | .found id _ | .inLock id | .unlockingOne id _ => insert id (owned stage locks)

structure Wired (m : LockManager T P) : Prop where
  inv : ∀ id phid l, m.heap id = some (phid, l) → l.Inv
  linked : ∀ id phid l t, m.heap id = some (phid, l) →
    Linked (m.stage t) (m.transactionLocks t) id (l.stage t) (l.locked t)
  fresh : ∀ id, m.heap id ≠ none → id < m.singleLockId
  known : ∀ t, ∀ id ∈ known (m.stage t) (m.transactionLocks t), id < m.singleLockId
  mapped : ∀ phid id, m.mapOfLocks phid = some id → id < m.singleLockId

variable {priority} {m m' : LockManager T P} {t u : T} {id : Nat} {phid : P} {l : SingleLock T}

omit [DecidableEq P] [Fintype T] in
theorem onLock_eq_some {c : LockCall T} (h : m.onLock priority id c = some m') :
    ∃ phid l l', m.heap id = some (phid, l) ∧ l.step priority c = some l' ∧
      m' = { m with heap := Function.update m.heap id (some (phid, l')) } := by
  obtain ⟨⟨phid, l⟩, hl, h⟩ := Option.bind_eq_some_iff.mp h
  obtain ⟨l', hl', h⟩ := Option.bind_eq_some_iff.mp h
  cases h
  exact ⟨phid, l, l', hl, hl', rfl⟩

omit [DecidableEq T] [DecidableEq P] in
theorem wired_init : ({} : LockManager T P).Wired :=
  ⟨nofun, nofun, fun _ h => absurd rfl h, fun _ _ h => absurd h (Finset.notMem_empty _), nofun⟩

omit [Fintype T] in
/-- The way back from `wait_for_lock`. -/
theorem note_cases {mode : AccessMode} {code : Nat} (hs : m.stage t = .inLock id)
    (hl : m.heap id = some (phid, l)) (hst : l.stage t = .returned mode code)
    (hstep : m.step priority (.note t) = some m') :
    (code = 0 ∧ m' = { m.goto t .idle with
      transactionLocks := Function.update m.transactionLocks t
        (insert id (m.transactionLocks t)) }) ∨
    (code ≠ 0 ∧ m' = m.goto t .idle) := by
  simp only [step, hs, hl] at hstep
  cases code with
  | zero => exact .inl ⟨rfl, by simpa [hst] using hstep.symm⟩
  | succ n => exact .inr ⟨Nat.succ_ne_zero n, by simpa [hst] using hstep.symm⟩

omit [Fintype T] in
/-- The way back from `SingleLock::unlock`. -/
theorem unlocked_cases {rest : Finset Nat} {d : Bool} (hs : m.stage t = .unlockingOne id rest)
    (hl : m.heap id = some (phid, l)) (hst : l.stage t = .unlocked d)
    (hstep : m.step priority (.unlocked t) = some m') :
    m' = if d then (m.goto t (.unlocking rest)).deleteLock id phid
      else m.goto t (.unlocking rest) := by
  simp only [step, hs, hl] at hstep
  cases d with
  | false => simpa [hst] using hstep.symm
  | true => simpa [hst] using hstep.symm

/-- What a step inside a lock does to its own transaction. -/
theorem inner_self {c : LockCall T} {l' : SingleLock T} (h : l.Inv) (hc : l.Enabled c)
    (hin : isInner c = true) (hstep : l.step priority c = some l') :
    (∀ mode code, l.stage c.thread ≠ .returned mode code) ∧
    ((l.stage c.thread).waiting = true → (l'.stage c.thread).waiting = true) ∧
    ((l.stage c.thread).leaves = true → (l'.stage c.thread).leaves = true) ∧
    (l'.locked c.thread = true ↔ l.locked c.thread = true ∨
      ∃ mode, l'.stage c.thread = .returned mode 0) := by
  cases c with
  | waitForLock t mode => cases hin
  | unlock t => cases hin
  | check t =>
    obtain ⟨mode, r, w, hs⟩ := hc
    simp only [SingleLock.step, hs] at hstep
    cases hstep
    rcases l.check_cases priority t mode r w with ⟨up, hcheck⟩ | ⟨hcode, hcheck⟩ | ⟨-, hcheck⟩
    · simp [LockCall.thread, hs, hcheck, SingleLock.goto, Stage.waiting, Stage.leaves]
    · simp [LockCall.thread, hs, hcheck, SingleLock.goto, Stage.waiting, Stage.leaves, hcode]
    · simp [LockCall.thread, hs, hcheck, SingleLock.granted, Stage.waiting, Stage.leaves]
  | ask t woken =>
    obtain ⟨mode, upgrade, hs⟩ := hc.1
    simp only [SingleLock.step, hs] at hstep
    obtain ⟨m, -, hstep⟩ := Option.bind_eq_some_iff.mp hstep
    cases hstep
    simp [LockCall.thread, hs, SingleLock.goto, Stage.waiting, Stage.leaves]
  | resume t woken =>
    obtain ⟨m, -, hstep⟩ := Option.bind_eq_some_iff.mp hstep
    cases hstep
    obtain ⟨mode, hs⟩ := (h.right t).asking_of_woken hc.1
    simp [LockCall.thread, hs]
  | finish t =>
    obtain ⟨mode, upgrade, hs⟩ := hc.1
    obtain ⟨-, -, rfl⟩ := (h.right t).at hs
    simp only [SingleLock.step, hs, SingleLock.errorCode] at hstep
    cases hstep
    simp [LockCall.thread, hs, SingleLock.finish, Stage.waiting, Stage.leaves]
  | release t woken =>
    obtain ⟨d, hs⟩ := hc.1
    simp only [SingleLock.step, hs] at hstep
    obtain ⟨m, -, hstep⟩ := Option.bind_eq_some_iff.mp hstep
    cases hstep
    simp [LockCall.thread, hs, SingleLock.goto, Stage.waiting, Stage.leaves]

omit [DecidableEq P] in
/-- A transaction makes a step on one lock. -/
theorem Wired.move {c : LockCall T} {l' : SingleLock T} (h : m.Wired) (s : ManagerStage)
    (hl : m.heap id = some (phid, l)) (hstep : l.step priority c = some l') (hinv : l'.Inv)
    (hheap : m'.heap = Function.update m.heap id (some (phid, l')))
    (hstage : m'.stage = Function.update m.stage c.thread s)
    (hlocks : m'.transactionLocks = m.transactionLocks) (hid : m'.singleLockId = m.singleLockId)
    (hmap : m'.mapOfLocks = m.mapOfLocks)
    (hself : Linked s (m.transactionLocks c.thread) id (l'.stage c.thread) (l'.locked c.thread))
    (hother : ∀ id' p l₁, id' ≠ id → m.heap id' = some (p, l₁) →
      Linked s (m.transactionLocks c.thread) id' (l₁.stage c.thread) (l₁.locked c.thread))
    (hown : ∀ id ∈ LockManager.known s (m.transactionLocks c.thread), id < m.singleLockId) :
    m'.Wired := by
  constructor
  · intro id' p l₁ hl₁
    rw [hheap] at hl₁
    rcases eq_or_ne id' id with rfl | hne
    · rw [Function.update_self] at hl₁
      cases hl₁
      exact hinv
    · rw [Function.update_of_ne hne] at hl₁
      exact h.inv id' p l₁ hl₁
  · intro id' p l₁ u hl₁
    rw [hheap] at hl₁
    rw [hstage, hlocks]
    rcases eq_or_ne u c.thread with rfl | hu
    · rw [Function.update_self]
      rcases eq_or_ne id' id with rfl | hne
      · rw [Function.update_self] at hl₁
        cases hl₁
        exact hself
      · rw [Function.update_of_ne hne] at hl₁
        exact hother id' p l₁ hne hl₁
    · rw [Function.update_of_ne hu]
      rcases eq_or_ne id' id with rfl | hne
      · rw [Function.update_self] at hl₁
        cases hl₁
        have hframe := SingleLock.step_frame hstep hu
        rw [hframe.stage, hframe.locked]
        exact h.linked id' phid l u hl
      · rw [Function.update_of_ne hne] at hl₁
        exact h.linked id' p l₁ u hl₁
  · intro id' hne
    rw [hid]
    rcases eq_or_ne id' id with rfl | hid'
    · exact h.fresh id' (by simp [hl])
    · rw [hheap, Function.update_of_ne hid'] at hne
      exact h.fresh id' hne
  · intro u id' hmem
    rw [hid]
    rw [hstage, hlocks] at hmem
    rcases eq_or_ne u c.thread with rfl | hu
    · rw [Function.update_self] at hmem
      exact hown id' hmem
    · rw [Function.update_of_ne hu] at hmem
      exact h.known u id' hmem
  · rw [hmap, hid]
    exact h.mapped

omit [DecidableEq P] in
/-- A transaction makes a step in the manager only. -/
theorem Wired.stay (h : m.Wired) (t : T) (s : ManagerStage) (locks : Finset Nat)
    (hheap : m'.heap = m.heap) (hstage : m'.stage = Function.update m.stage t s)
    (hlocks : m'.transactionLocks = Function.update m.transactionLocks t locks)
    (hid : m'.singleLockId = m.singleLockId) (hmap : m'.mapOfLocks = m.mapOfLocks)
    (hself : ∀ id p l, m.heap id = some (p, l) → Linked s locks id (l.stage t) (l.locked t))
    (hown : ∀ id ∈ LockManager.known s locks, id < m.singleLockId) : m'.Wired := by
  constructor
  · rw [hheap]
    exact h.inv
  · intro id' p l₁ u hl₁
    rw [hheap] at hl₁
    rw [hstage, hlocks]
    rcases eq_or_ne u t with rfl | hu
    · rw [Function.update_self, Function.update_self]
      exact hself id' p l₁ hl₁
    · rw [Function.update_of_ne hu, Function.update_of_ne hu]
      exact h.linked id' p l₁ u hl₁
  · rw [hheap, hid]
    exact h.fresh
  · intro u id' hmem
    rw [hid]
    rw [hstage, hlocks] at hmem
    rcases eq_or_ne u t with rfl | hu
    · rw [Function.update_self, Function.update_self] at hmem
      exact hown id' hmem
    · rw [Function.update_of_ne hu, Function.update_of_ne hu] at hmem
      exact h.known u id' hmem
  · rw [hmap, hid]
    exact h.mapped

/-- A transaction goes on in the manager and this lock does not notice. -/
theorem Linked.goto {s s' : ManagerStage} {locks : Finset Nat} {st : Stage} {b : Bool}
    (h : Linked s locks id st b) (hfit : Fitting id st s')
    (hown : id ∈ owned s' locks ↔ id ∈ owned s locks) (hs : s ≠ .inLock id)
    (hs' : s' = .inLock id → ∀ mode, st ≠ .returned mode 0) : Linked s' locks id st b := by
  refine ⟨hfit, ?_⟩
  rw [h.locked, hown]
  constructor
  · rintro (hmem | ⟨heq, -⟩)
    · exact .inl hmem
    · exact absurd heq hs
  · rintro (hmem | ⟨heq, mode, hst⟩)
    · exact .inl hmem
    · exact absurd hst (hs' heq mode)

omit [Fintype T] in
theorem update_self_eq {β : Type} (f : T → β) (t : T) : f = Function.update f t (f t) :=
  (Function.update_eq_self ..).symm

/-- A lock that a transaction does not know. -/
theorem linked_unknown {stage : ManagerStage} {locks : Finset Nat} {b : Bool}
    (hid : id ∉ known stage locks) (hb : b = false) : Linked stage locks id .idle b := by
  subst hb
  cases stage with
  | idle => exact ⟨rfl, by simpa [known] using hid⟩
  | unlocking rest => exact ⟨rfl, by simpa [known] using hid⟩
  | found id' mode =>
    simp only [known, Finset.mem_insert, not_or] at hid
    exact ⟨rfl, by simpa using hid.2⟩
  | inLock id' =>
    simp only [known, Finset.mem_insert, not_or] at hid
    refine ⟨?_, by simpa using hid.2⟩
    simp [Fitting, Ne.symm hid.1, Stage.free]
  | unlockingOne id' rest =>
    simp only [known, Finset.mem_insert, not_or] at hid
    refine ⟨?_, by simpa using hid.2⟩
    simp [Fitting, Ne.symm hid.1, Stage.free]

theorem Wired.newLock {mode : AccessMode} (h : m.Wired) (ht : m.stage t = .idle) :
    (m.newLock t phid mode).Wired := by
  have hknown {u : T} : m.singleLockId ∉ LockManager.known (m.stage u) (m.transactionLocks u) :=
    fun hmem => lt_irrefl _ (h.known u _ hmem)
  have hheap {id : Nat} (hne : id ≠ m.singleLockId) :
      (m.newLock t phid mode).heap id = m.heap id := Function.update_of_ne hne ..
  have hnew : (m.newLock t phid mode).heap m.singleLockId =
      some (phid, SingleLock.create t mode) := Function.update_self ..
  constructor
  · intro id p l hl
    rcases eq_or_ne id m.singleLockId with rfl | hne
    · rw [hnew] at hl
      cases hl
      exact SingleLock.inv_create t mode
    · rw [hheap hne] at hl
      exact h.inv id p l hl
  · intro id p l u hl
    rcases eq_or_ne id m.singleLockId with rfl | hne
    · rw [hnew] at hl
      cases hl
      rcases eq_or_ne u t with rfl | hu
      · simp only [LockManager.newLock, Function.update_self, ht]
        exact ⟨rfl, by simp [SingleLock.create, owned]⟩
      · simp only [LockManager.newLock, Function.update_of_ne hu]
        exact linked_unknown hknown (by simp [SingleLock.create, hu])
    · rw [hheap hne] at hl
      rcases eq_or_ne u t with rfl | hu
      · have hlinked := h.linked id p l u hl
        simp only [LockManager.newLock, Function.update_self]
        rw [ht] at hlinked ⊢
        exact ⟨hlinked.fitting, by simp [hlinked.locked, owned, hne]⟩
      · simp only [LockManager.newLock, Function.update_of_ne hu]
        exact h.linked id p l u hl
  · intro id hid
    rcases eq_or_ne id m.singleLockId with rfl | hne
    · exact Nat.lt_succ_self _
    · rw [hheap hne] at hid
      exact Nat.lt_succ_of_lt (h.fresh id hid)
  · intro u id hmem
    rcases eq_or_ne u t with rfl | hu
    · simp only [LockManager.newLock, Function.update_self, ht] at hmem
      rcases Finset.mem_insert.mp hmem with rfl | hmem
      · exact Nat.lt_succ_self _
      · exact Nat.lt_succ_of_lt (h.known u id (by rw [ht]; exact hmem))
    · simp only [LockManager.newLock, Function.update_of_ne hu] at hmem
      exact Nat.lt_succ_of_lt (h.known u id hmem)
  · intro p id hmap
    rcases eq_or_ne p phid with rfl | hne
    · simp only [LockManager.newLock, Function.update_self, Option.some.injEq] at hmap
      exact hmap ▸ Nat.lt_succ_self _
    · simp only [LockManager.newLock, Function.update_of_ne hne] at hmap
      exact Nat.lt_succ_of_lt (h.mapped p id hmap)

omit [DecidableEq T] [Fintype T] in
theorem heap_deleteLock {id' : Nat} {v : P × SingleLock T}
    (hv : (m.deleteLock id phid).heap id' = some v) : m.heap id' = some v := by
  rcases eq_or_ne id' id with rfl | hne
  · simp [deleteLock] at hv
  · simpa [deleteLock, hne] using hv

omit [DecidableEq T] in
/-- What is left after a lock is deleted. -/
theorem Wired.deleteLock (h : m.Wired) : (m.deleteLock id phid).Wired := by
  constructor
  · intro id' p l hl
    exact h.inv id' p l (heap_deleteLock hl)
  · intro id' p l u hl
    exact h.linked id' p l u (heap_deleteLock hl)
  · intro id' hne
    obtain ⟨v, hv⟩ := Option.ne_none_iff_exists'.mp hne
    exact h.fresh id' (by simp [heap_deleteLock hv])
  · exact h.known
  · intro p id' hmap
    rcases eq_or_ne p phid with rfl | hne
    · simp [LockManager.deleteLock] at hmap
    · refine h.mapped p id' ?_
      simpa [LockManager.deleteLock, hne] using hmap

theorem Wired.lock {mode : AccessMode} (h : m.Wired) (ht : m.stage t = .idle)
    (hstep : m.step priority (.lock t phid mode) = some m') : m'.Wired := by
  simp only [step] at hstep
  split at hstep
  · cases hstep
    exact h.newLock ht
  · rename_i id hmap
    cases hstep
    refine h.stay t (.found id mode) (m.transactionLocks t) rfl rfl (update_self_eq _ t) rfl rfl ?_ ?_
    · intro id' p l hl
      have hlinked := h.linked id' p l t hl
      rw [ht] at hlinked
      exact hlinked.goto hlinked.fitting .rfl nofun nofun
    · intro id' hmem
      rcases Finset.mem_insert.mp hmem with rfl | hmem
      · exact h.mapped _ _ hmap
      · exact h.known t id' (by rw [ht]; exact hmem)

theorem Wired.wait (h : m.Wired) (hstep : m.step priority (.wait t) = some m') : m'.Wired := by
  simp only [step] at hstep
  split at hstep
  case h_2 => cases hstep
  rename_i id mode ht
  obtain ⟨m₁, hm₁, hstep⟩ := Option.bind_eq_some_iff.mp hstep
  cases hstep
  obtain ⟨p, l, l', hl, hl', rfl⟩ := onLock_eq_some hm₁
  have hlinked := h.linked id p l t hl
  rw [ht] at hlinked
  refine h.move (.inLock id) hl hl' ?_ rfl rfl rfl rfl rfl ?_ ?_ ?_
  · exact (h.inv id p l hl).step (c := .waitForLock t mode) hlinked.fitting trivial hl'
  · cases hl'
    refine ⟨?_, ?_⟩
    · simp [Fitting, LockCall.thread, Stage.waiting]
    · simpa [LockCall.thread, owned] using hlinked.locked
  · intro id' p' l₁ hne hl₁
    have hlinked := h.linked id' p' l₁ t hl₁
    rw [ht] at hlinked
    refine hlinked.goto ?_ .rfl nofun ?_
    · simp only [Fitting, if_neg hne.symm]
      exact hlinked.fitting
    · intro heq
      cases heq
      exact absurd rfl hne
  · intro id' hmem
    exact h.known t id' (by rw [ht]; exact hmem)

theorem Wired.inner {c : LockCall T} (h : m.Wired) (hc : m.Enabled (.inner c : ManagerCall T P))
    (hno : m.Within (SingleLock.NoUpgrade priority) (.inner c))
    (hstep : m.step priority (.inner c) = some m') : m'.Wired := by
  obtain ⟨hin, id, p, l, hs, hl, hen⟩ := hc
  have hcall : m.lockCall (.inner c : ManagerCall T P) = some (id, c) := by
    rcases hs with hs | ⟨rest, hs⟩ <;> simp [lockCall, hs]
  have hlock : m.onLock priority id c = some m' := by
    rcases hs with hs | ⟨rest, hs⟩ <;> simpa [step, hs] using hstep
  obtain ⟨p', l₁, l', hl₁, hl', rfl⟩ := onLock_eq_some hlock
  rw [hl] at hl₁
  cases hl₁
  have hinv := h.inv id p l hl
  obtain ⟨hret, hwaiting, hleaves, hlocked⟩ := inner_self hinv hen hin hl'
  have hlinked := h.linked id p l c.thread hl
  refine h.move (m.stage c.thread) hl hl' ?_ rfl (update_self_eq _ _) rfl rfl rfl ?_ ?_ ?_
  · exact hinv.step hen (hno id c p l hcall hl) hl'
  · rcases hs with hs | ⟨rest, hs⟩
    · rw [hs] at hlinked ⊢
      have hfit := hlinked.fitting
      simp only [Fitting, if_true] at hfit
      refine ⟨by simpa [Fitting] using hwaiting hfit, ?_⟩
      rw [hlocked, hlinked.locked]
      simp [hret]
    · rw [hs] at hlinked ⊢
      have hfit := hlinked.fitting
      simp only [Fitting, if_true] at hfit
      have hfit' := hleaves hfit
      refine ⟨by simpa [Fitting] using hfit', ?_⟩
      rw [hlocked, hlinked.locked]
      constructor
      · rintro ((hmem | ⟨heq, -⟩) | ⟨mode, hst⟩)
        · exact .inl hmem
        · cases heq
        · rw [hst] at hfit'
          cases hfit'
      · rintro (hmem | ⟨heq, -⟩)
        · exact .inl (.inl hmem)
        · cases heq
  · intro id' p' l₁ hne hl₁
    exact h.linked id' p' l₁ c.thread hl₁
  · exact h.known c.thread

theorem Wired.note (h : m.Wired) (hc : m.Enabled (.note t))
    (hstep : m.step priority (.note t) = some m') : m'.Wired := by
  obtain ⟨-, id, p, l, mode, code, hs, hl, hst⟩ := hc
  have hfree {id' : Nat} {p' : P} {l₁ : SingleLock T} (hl₁ : m.heap id' = some (p', l₁)) :
      (l₁.stage t).free = true := by
    have hfit := (h.linked id' p' l₁ t hl₁).fitting
    rw [hs] at hfit
    rcases eq_or_ne id id' with rfl | hne
    · rw [hl] at hl₁
      cases hl₁
      rw [hst]
      rfl
    · simpa [Fitting, hne] using hfit
  rcases note_cases hs hl hst hstep with ⟨rfl, rfl⟩ | ⟨hcode, rfl⟩
  · refine h.stay t .idle (insert id (m.transactionLocks t)) rfl rfl rfl rfl rfl ?_ ?_
    · intro id' p' l₁ hl₁
      refine ⟨hfree hl₁, ?_⟩
      have hlinked := h.linked id' p' l₁ t hl₁
      rw [hlinked.locked, hs]
      rcases eq_or_ne id' id with rfl | hne
      · rw [hl] at hl₁
        cases hl₁
        simp [owned, hst]
      · simp [owned, hne, Ne.symm hne]
    · intro id' hmem
      rcases Finset.mem_insert.mp hmem with rfl | hmem
      · exact h.fresh _ (by simp [hl])
      · refine h.known t id' ?_
        rw [hs]
        exact Finset.mem_insert_of_mem hmem
  · refine h.stay t .idle (m.transactionLocks t) rfl rfl (update_self_eq _ t) rfl rfl ?_ ?_
    · intro id' p' l₁ hl₁
      refine ⟨hfree hl₁, ?_⟩
      have hlinked := h.linked id' p' l₁ t hl₁
      rw [hlinked.locked, hs]
      rcases eq_or_ne id' id with rfl | hne
      · rw [hl] at hl₁
        cases hl₁
        simp [owned, hst, hcode]
      · simp [owned, Ne.symm hne]
    · intro id' hmem
      refine h.known t id' ?_
      rw [hs]
      exact Finset.mem_insert_of_mem hmem

theorem Wired.unlockAll (h : m.Wired) (ht : m.stage t = .idle)
    (hstep : m.step priority (.unlockAll t) = some m') : m'.Wired := by
  cases hstep
  refine h.stay t (.unlocking (m.transactionLocks t)) (m.transactionLocks t) rfl rfl
    (update_self_eq _ t) rfl rfl ?_ ?_
  · intro id' p l hl
    have hlinked := h.linked id' p l t hl
    rw [ht] at hlinked
    exact hlinked.goto hlinked.fitting .rfl nofun nofun
  · intro id' hmem
    exact h.known t id' (by rw [ht]; exact hmem)

theorem Wired.unlockNext (h : m.Wired) (hc : m.Enabled (.unlockNext t id))
    (hstep : m.step priority (.unlockNext t id) = some m') : m'.Wired := by
  obtain ⟨rest, hs, hmem⟩ := hc
  simp only [step, hs] at hstep
  obtain ⟨m₁, hm₁, hstep⟩ := Option.bind_eq_some_iff.mp hstep
  cases hstep
  obtain ⟨p, l, l', hl, hl', rfl⟩ := onLock_eq_some hm₁
  have hlinked := h.linked id p l t hl
  rw [hs] at hlinked
  refine h.move (.unlockingOne id (rest.erase id)) hl hl' ?_ rfl rfl rfl rfl rfl ?_ ?_ ?_
  · exact (h.inv id p l hl).step (c := .unlock t) ⟨hlinked.fitting, hlinked.locked.mpr (.inl hmem)⟩
      trivial hl'
  · cases hl'
    exact ⟨by simp [Fitting, LockCall.thread, Stage.leaves], by simp [LockCall.thread, owned]⟩
  · intro id' p' l₁ hne hl₁
    have hlinked := h.linked id' p' l₁ t hl₁
    rw [hs] at hlinked
    refine hlinked.goto ?_ ?_ nofun nofun
    · simpa [Fitting, Ne.symm hne] using hlinked.fitting
    · simp [owned, hne]
  · intro id' hmem'
    rcases Finset.mem_insert.mp hmem' with rfl | hmem'
    · exact h.fresh _ (by simp [hl])
    · refine h.known t id' ?_
      rw [hs]
      exact Finset.mem_of_mem_erase hmem'

theorem Wired.unlocked (h : m.Wired) (hc : m.Enabled (.unlocked t))
    (hstep : m.step priority (.unlocked t) = some m') : m'.Wired := by
  obtain ⟨id, rest, p, l, d, hs, hl, hst⟩ := hc
  have hgoto : (m.goto t (.unlocking rest)).Wired := by
    refine h.stay t (.unlocking rest) (m.transactionLocks t) rfl rfl (update_self_eq _ t) rfl rfl
      ?_ ?_
    · intro id' p' l₁ hl₁
      have hlinked := h.linked id' p' l₁ t hl₁
      rw [hs] at hlinked
      refine hlinked.goto ?_ .rfl nofun nofun
      rcases eq_or_ne id id' with rfl | hne
      · rw [hl] at hl₁
        cases hl₁
        rw [hst]
        rfl
      · simpa [Fitting, hne] using hlinked.fitting
    · intro id' hmem
      refine h.known t id' ?_
      rw [hs]
      exact Finset.mem_insert_of_mem hmem
  rw [unlocked_cases hs hl hst hstep]
  cases d with
  | false => exact hgoto
  | true => exact hgoto.deleteLock

theorem Wired.ended (h : m.Wired) (ht : m.stage t = .unlocking ∅)
    (hstep : m.step priority (.ended t) = some m') : m'.Wired := by
  cases hstep
  refine h.stay t .idle ∅ rfl rfl rfl rfl rfl ?_ ?_
  · intro id' p l hl
    have hlinked := h.linked id' p l t hl
    rw [ht] at hlinked
    refine ⟨hlinked.fitting, ?_⟩
    rw [hlinked.locked]
    simp [owned]
  · intro id' hmem
    exact absurd hmem (Finset.notMem_empty _)

theorem Wired.step {c : ManagerCall T P} (h : m.Wired) (hc : m.Enabled c)
    (hno : m.Within (SingleLock.NoUpgrade priority) c) (hstep : m.step priority c = some m') :
    m'.Wired := by
  cases c with
  | lock t phid mode => exact h.lock hc.2 hstep
  | wait t => exact h.wait hstep
  | inner c => exact h.inner hc hno hstep
  | note t => exact h.note hc hstep
  | unlockAll t => exact h.unlockAll hc.2 hstep
  | unlockNext t id => exact h.unlockNext hc hstep
  | unlocked t => exact h.unlocked hc hstep
  | ended t => exact h.ended hc hstep

-- ---------------------------------------------------------------------------
-- Every lock runs by itself
-- ---------------------------------------------------------------------------

/-- Where a lock comes from: it was there, a call made a step on it, or it is new. -/
theorem step_lock {c : ManagerCall T P} {l' : SingleLock T} (h : m.Wired) (hc : m.Enabled c)
    (hstep : m.step priority c = some m') (hl' : m'.heap id = some (phid, l')) :
    m.heap id = some (phid, l') ∨
    (∃ l c', m.heap id = some (phid, l) ∧ m.lockCall c = some (id, c') ∧ l.Enabled c' ∧
      l.step priority c' = some l') ∨
    (m.heap id = none ∧ ∃ t mode, l' = SingleLock.create t mode ∧ c = .lock t phid mode ∧
      m' = m.newLock t phid mode) := by
  have hon {id₁ : Nat} {c' : LockCall T} {m₁ : LockManager T P}
      (hon : m.onLock priority id₁ c' = some m₁) (hcall : m.lockCall c = some (id₁, c'))
      (hen : ∀ p l, m.heap id₁ = some (p, l) → l.Enabled c') (hheap : m'.heap = m₁.heap) :
      m.heap id = some (phid, l') ∨
      (∃ l c', m.heap id = some (phid, l) ∧ m.lockCall c = some (id, c') ∧ l.Enabled c' ∧
        l.step priority c' = some l') := by
    obtain ⟨p, l, l₁, hl, hl₁, rfl⟩ := onLock_eq_some hon
    rw [hheap] at hl'
    rcases eq_or_ne id id₁ with rfl | hne
    · simp only [Function.update_self, Option.some.injEq, Prod.mk.injEq] at hl'
      obtain ⟨rfl, rfl⟩ := hl'
      exact .inr ⟨l, c', hl, hcall, hen _ _ hl, hl₁⟩
    · simp only [Function.update_of_ne hne] at hl'
      exact .inl hl'
  cases c with
  | lock t p mode =>
    simp only [LockManager.step] at hstep
    split at hstep
    · cases hstep
      rcases eq_or_ne id m.singleLockId with rfl | hne
      · simp only [newLock, Function.update_self, Option.some.injEq, Prod.mk.injEq] at hl'
        obtain ⟨rfl, rfl⟩ := hl'
        refine .inr (.inr ⟨?_, t, mode, rfl, rfl, rfl⟩)
        by_contra hne
        exact lt_irrefl _ (h.fresh _ hne)
      · simp only [newLock, Function.update_of_ne hne] at hl'
        exact .inl hl'
    · cases hstep
      exact .inl hl'
  | wait t =>
    obtain ⟨id₁, mode, hs⟩ := hc
    simp only [LockManager.step, hs] at hstep
    obtain ⟨m₁, hm₁, hstep⟩ := Option.bind_eq_some_iff.mp hstep
    cases hstep
    refine (hon hm₁ (by simp [lockCall, hs]) (fun p l hl => ?_) rfl).imp_right .inl
    have hlinked := h.linked id₁ p l t hl
    rw [hs] at hlinked
    exact hlinked.fitting
  | inner c =>
    obtain ⟨-, id₁, p, l, hs, hl, hen⟩ := hc
    have hlock : m.onLock priority id₁ c = some m' := by
      rcases hs with hs | ⟨rest, hs⟩ <;> simpa [LockManager.step, hs] using hstep
    have hcall : m.lockCall (.inner c : ManagerCall T P) = some (id₁, c) := by
      rcases hs with hs | ⟨rest, hs⟩ <;> simp [lockCall, hs]
    refine (hon hlock hcall (fun p' l₁ hl₁ => ?_) rfl).imp_right .inl
    rw [hl] at hl₁
    cases hl₁
    exact hen
  | note t =>
    obtain ⟨-, id₁, p, l, mode, code, hs, hl, hst⟩ := hc
    rcases note_cases hs hl hst hstep with ⟨-, rfl⟩ | ⟨-, rfl⟩
    · exact .inl hl'
    · exact .inl hl'
  | unlockAll t =>
    cases hstep
    exact .inl hl'
  | unlockNext t id₁ =>
    obtain ⟨rest, hs, hmem⟩ := hc
    simp only [LockManager.step, hs] at hstep
    obtain ⟨m₁, hm₁, hstep⟩ := Option.bind_eq_some_iff.mp hstep
    cases hstep
    refine (hon hm₁ rfl (fun p l hl => ?_) rfl).imp_right .inl
    have hlinked := h.linked id₁ p l t hl
    rw [hs] at hlinked
    exact ⟨hlinked.fitting, hlinked.locked.mpr (.inl hmem)⟩
  | unlocked t =>
    obtain ⟨id₁, rest, p, l, d, hs, hl, hst⟩ := hc
    rw [unlocked_cases hs hl hst hstep] at hl'
    cases d with
    | false => exact .inl hl'
    | true =>
      rw [if_pos rfl] at hl'
      have hheap := heap_deleteLock hl'
      exact .inl hheap
  | ended t =>
    cases hstep
    exact .inl hl'

/-- In a run of the manager every lock makes a run of its own. -/
theorem lock_reaches {K : SingleLock T → LockCall T → Prop}
    (hK : ∀ l c, K l c → l.NoUpgrade priority c)
    (h : Reaches (step priority) (fun m c => m.Enabled c ∧ m.Within K c)
      ({} : LockManager T P) m) :
    m.Wired ∧ ∀ id phid l, m.heap id = some (phid, l) → ∃ t mode,
      Reaches (SingleLock.step priority) (fun l c => l.Enabled c ∧ K l c)
        (SingleLock.create t mode) l := by
  induction h with
  | refl => exact ⟨wired_init, nofun⟩
  | @step m c m' _ hok hs ih =>
    obtain ⟨hwired, hlocks⟩ := ih
    have hno : m.Within (SingleLock.NoUpgrade priority) c :=
      fun id c' p l hcall hl => hK l c' (hok.2 id c' p l hcall hl)
    refine ⟨hwired.step hok.1 hno hs, ?_⟩
    intro id p l' hl'
    rcases step_lock hwired hok.1 hs hl' with hl | ⟨l, c', hl, hcall, hen, hstep⟩ |
      ⟨-, t, mode, rfl, -⟩
    · exact hlocks id p l' hl
    · obtain ⟨t, mode, hreach⟩ := hlocks id p l hl
      exact ⟨t, mode, hreach.step ⟨hen, hok.2 id c' p l hcall hl⟩ hstep⟩
    · exact ⟨t, mode, .refl⟩

instance (m : LockManager T P) : DecidablePred m.Enabled
  | .lock t _ _ => inferInstanceAs (Decidable (m.mutex = none ∧ m.stage t = .idle))
  | .wait t =>
    match hs : m.stage t with
    | .found id mode => .isTrue ⟨id, mode, hs⟩
    | .idle | .inLock _ | .unlocking _ | .unlockingOne _ _ => .isFalse (by simp [Enabled, hs])
  | .inner c =>
    match hs : m.stage c.thread with
    | .inLock id | .unlockingOne id _ =>
      decidable_of_iff (isInner c = true ∧ ∃ v ∈ m.heap id, v.2.Enabled c) (by simp [Enabled, hs])
    | .idle | .found _ _ | .unlocking _ => .isFalse (by simp [Enabled, hs])
  | .note t =>
    match hs : m.stage t with
    | .inLock id =>
      decidable_of_iff (m.mutex = none ∧ ∃ v ∈ m.heap id, (v.2.stage t).isReturned = true)
        (by simp [Enabled, hs, Stage.isReturned_iff])
    | .idle | .found _ _ | .unlocking _ | .unlockingOne _ _ => .isFalse (by simp [Enabled, hs])
  | .unlockAll t => inferInstanceAs (Decidable (m.mutex = none ∧ m.stage t = .idle))
  | .unlockNext t id =>
    match hs : m.stage t with
    | .unlocking rest => decidable_of_iff (id ∈ rest) (by simp [Enabled, hs])
    | .idle | .found _ _ | .inLock _ | .unlockingOne _ _ => .isFalse (by simp [Enabled, hs])
  | .unlocked t =>
    match hs : m.stage t with
    | .unlockingOne id rest =>
      decidable_of_iff (∃ v ∈ m.heap id, ∃ d, v.2.stage t = .unlocked d) (by simp [Enabled, hs])
    | .idle | .found _ _ | .inLock _ | .unlocking _ => .isFalse (by simp [Enabled, hs])
  | .ended t => inferInstanceAs (Decidable (m.stage t = .unlocking ∅))

instance (K : SingleLock T → LockCall T → Prop) [∀ l, DecidablePred (K l)] (m : LockManager T P) :
    DecidablePred (m.Within K) := fun c =>
  decidable_of_iff (∀ call ∈ m.lockCall c, ∀ v ∈ m.heap call.1, K v.2 call.2) (by
    constructor
    · intro h id c' phid l hcall hl
      exact h (id, c') hcall (phid, l) hl
    · intro h call hcall v hv
      exact h call.1 call.2 v.1 v.2 hcall hv)

end LockManager

end Loxim.Lock
