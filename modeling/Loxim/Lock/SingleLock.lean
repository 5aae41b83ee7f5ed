import Loxim.Util.RWUJSemaphore

/-!
# The lock of one object

`wait_for_lock` looks up in a mutex section whether the caller already has the
lock, then checks against deadlock, then asks the semaphore, and notes the grant
in a second mutex section. Other transactions run between these sections.
-/

namespace Loxim.Lock

open Util

inductive AccessMode
  | read
  | write
  deriving DecidableEq, Repr

/-- `ErrTManager | EDeadlock`. -/
def eDeadlock : Nat := 0x2800000 ||| 0x2400

/-- Where a transaction is in `wait_for_lock` or `unlock`. -/
inductive Stage
  | idle
  | entered (mode : AccessMode) (isCurrentRead isCurrentWrite : Bool)
  | allowed (mode : AccessMode) (upgrade : Bool)
  | asking (mode : AccessMode) (upgrade : Bool)
  | returned (mode : AccessMode) (errorCode : Nat)
  | leaving (deleteLock : Bool)
  | unlocked (deleteLock : Bool)
  deriving DecidableEq, Repr

/-- No call of the transaction is in progress. -/
def Stage.free : Stage → Bool
  | idle | returned _ _ | unlocked _ => true
  | entered _ _ _ | allowed _ _ | asking _ _ | leaving _ => false

/-- `locked` says who was told that it has the lock, as the lock manager knows;
`queue` who waits for the semaphore, in the order they came. -/
structure SingleLock (T : Type) where
  monitor : RWUJMonitor T
  currentRead : Finset T
  currentWrite : Finset T
  inside : Int
  waiting : Int
  tid : T
  stage : T → Stage
  locked : T → Bool
  queue : List T

/-- One step of a transaction. -/
inductive LockCall (T : Type)
  | waitForLock (t : T) (mode : AccessMode)
  | check (t : T)
  | ask (t : T) (woken : Woken T)
  | resume (t : T) (woken : Woken T)
  | finish (t : T)
  | unlock (t : T)
  | release (t : T) (woken : Woken T)

def LockCall.thread : LockCall T → T
  | .waitForLock t _ | .check t | .ask t _ | .resume t _ | .finish t | .unlock t | .release t _ => t

namespace SingleLock

variable {T : Type} [DecidableEq T] (priority : T → Int)

/-- The lock that a transaction makes for an object nobody has locked. -/
def create (t : T) (mode : AccessMode) : SingleLock T where
  monitor :=
    { sem := { mode := if mode = .read then .read else .write, inside := 1 }
      pc := Function.update (fun _ => .out) t (if mode = .read then .reader else .writer) }
  currentRead := if mode = .read then {t} else ∅
  currentWrite := if mode = .read then ∅ else {t}
  inside := 1
  waiting := 0
  tid := t
  stage := fun _ => .idle
  locked := fun u => u = t
  queue := []

/-- Those of the threads that still wait. -/
def stillWaiting (pc : T → UJPlace) (queue : List T) : List T := queue.filter fun u => (pc u).waits

/-- The younger one dies. -/
def preventDeadlock (l : SingleLock T) (t : T) : Nat :=
  if priority l.tid < priority t then eDeadlock else 0

def goto (l : SingleLock T) (t : T) (stage : Stage) : SingleLock T :=
  { l with stage := Function.update l.stage t stage }

/-- To ask the semaphore, unless `preventDeadlock` forbids it. -/
def allow (l : SingleLock T) (t : T) (mode : AccessMode) (upgrade : Bool) : SingleLock T :=
  if l.preventDeadlock priority t = 0 then l.goto t (.allowed mode upgrade)
  else l.goto t (.returned mode (l.preventDeadlock priority t))

/-- The caller has what it asks for. -/
def granted (l : SingleLock T) (t : T) (mode : AccessMode) : SingleLock T :=
  { l with
    waiting := l.waiting - 1
    stage := Function.update l.stage t (.returned mode 0)
    locked := Function.update l.locked t true }

/-- The way from the first mutex section to the semaphore. -/
def check (l : SingleLock T) (t : T) : AccessMode → Bool → Bool → SingleLock T
  | .read, false, false =>
    if l.currentWrite = ∅ then l.goto t (.allowed .read false) else l.allow priority t .read false
  | .read, _, _ => l.granted t .read
  | .write, false, false => l.allow priority t .write false
  | .write, _, true => l.granted t .write
  | .write, true, false => l.allow priority t .write true

/-- The call of the semaphore. -/
def request (t : T) (woken : Woken T) : AccessMode → Bool → RWUJCall T
  | .read, _ => .lockRead t
  | .write, false => .lockWrite t
  | .write, true => .lockUpgrade t (priority t) woken

/-- The second mutex section. -/
def finish (l : SingleLock T) (t : T) (mode : AccessMode) : SingleLock T :=
  { l with
    waiting := l.waiting - 1
    currentRead := if mode = .read then insert t l.currentRead else l.currentRead
    currentWrite := if mode = .read then l.currentWrite else insert t l.currentWrite
    tid := if priority t < priority l.tid then t else l.tid
    inside := l.inside + 1
    stage := Function.update l.stage t (.returned mode 0)
    locked := Function.update l.locked t true }

/-- `lock_upgrade` says true for an upgrade, and that becomes the error code. -/
def errorCode (upgrade : Bool) (p : UJPlace) : Nat :=
  if upgrade = true ∧ p = .writer then 1 else 0

def step (l : SingleLock T) : LockCall T → Option (SingleLock T)
  | .waitForLock t mode =>
    some { l with
      waiting := l.waiting + 1
      stage := Function.update l.stage t
        (.entered mode (t ∈ l.currentRead) (t ∈ l.currentWrite)) }
  | .check t =>
    match l.stage t with
    | .entered mode isCurrentRead isCurrentWrite =>
      some (l.check priority t mode isCurrentRead isCurrentWrite)
    | _ => none
  | .ask t woken =>
    match l.stage t with
    | .allowed mode upgrade => do
      let monitor ← l.monitor.step (request priority t woken mode upgrade)
      return { l.goto t (.asking mode upgrade) with
        monitor, queue := stillWaiting monitor.pc (l.queue ++ [t]) }
    | _ => none
  | .resume t woken => do
    let monitor ← l.monitor.step (.resume t woken)
    return { l with monitor, queue := stillWaiting monitor.pc l.queue }
  | .finish t =>
    match l.stage t with
    | .asking mode upgrade =>
      if errorCode upgrade (l.monitor.pc t) = 0 then some (l.finish priority t mode)
      else some (l.goto t (.returned mode (errorCode upgrade (l.monitor.pc t))))
    | _ => none
  | .unlock t =>
    some { l with
      inside := l.inside - 1
      currentRead := l.currentRead.erase t
      currentWrite := l.currentWrite.erase t
      stage := Function.update l.stage t (.leaving (l.inside - 1 = 0 ∧ l.waiting = 0))
      locked := Function.update l.locked t false }
  | .release t woken =>
    match l.stage t with
    | .leaving deleteLock => do
      let monitor ← l.monitor.step (.unlock t woken)
      return { l.goto t (.unlocked deleteLock) with
        monitor, queue := stillWaiting monitor.pc l.queue }
    | _ => none

/-- A transaction makes one call at a time and unlocks what it has locked. The
semaphore is left when its call returns. -/
def Enabled (l : SingleLock T) : LockCall T → Prop
  | .waitForLock t _ => (l.stage t).free = true
  | .check t => ∃ mode r w, l.stage t = .entered mode r w
  | .ask t woken => (∃ mode upgrade, l.stage t = .allowed mode upgrade) ∧
    RWUJMonitor.Reached l.monitor.pc woken
  | .resume t woken => (l.monitor.pc t = .wokenReader ∨ l.monitor.pc t = .wokenWriter ∨
    (l.monitor.pc t).wokenUpgrade = true) ∧ RWUJMonitor.Reached l.monitor.pc woken
  | .finish t => (∃ mode upgrade, l.stage t = .asking mode upgrade) ∧
    (l.monitor.pc t = .out ∨ l.monitor.pc t = .reader ∨ l.monitor.pc t = .writer)
  | .unlock t => (l.stage t).free = true ∧ l.locked t = true
  | .release t woken => (∃ deleteLock, l.stage t = .leaving deleteLock) ∧
    RWUJMonitor.Reached l.monitor.pc woken

-- ---------------------------------------------------------------------------
-- The sets against the semaphore
-- ---------------------------------------------------------------------------

/-- What a transaction has of the semaphore, and that the sets say the same. -/
structure Settled (l : SingleLock T) (t : T) : Prop where
  read : t ∈ l.currentRead ↔ l.monitor.pc t = .reader
  write : t ∈ l.currentWrite ↔ l.monitor.pc t = .writer
  place : l.monitor.pc t = .out ∨ l.monitor.pc t = .reader ∨ l.monitor.pc t = .writer
  locked : l.locked t = true ↔ l.monitor.pc t ≠ .out

/-- The sets do not know the transaction. -/
structure Unnoted (l : SingleLock T) (t : T) : Prop where
  read : t ∉ l.currentRead
  write : t ∉ l.currentWrite
  locked : l.locked t = false

def Grants (p : UJPlace) : AccessMode → Prop
  | .read => p = .reader ∨ p = .writer
  | .write => p = .writer

def Asks (p : UJPlace) : AccessMode → Prop
  | .read => p = .waitingReader ∨ p = .wokenReader ∨ p = .reader
  | .write => p = .waitingWriter ∨ p = .wokenWriter ∨ p = .writer

/-- What is right for a transaction at a stage when nobody upgrades. -/
def At (l : SingleLock T) (t : T) : Stage → Prop
  | .idle | .unlocked _ => l.Settled t
  | .returned mode code => l.Settled t ∧ (code = 0 ↔ Grants (l.monitor.pc t) mode)
  | .entered _ r w => l.Settled t ∧ (r = true ↔ t ∈ l.currentRead) ∧
    (w = true ↔ t ∈ l.currentWrite)
  | .allowed _ upgrade => l.Unnoted t ∧ l.monitor.pc t = .out ∧ upgrade = false
  | .asking mode upgrade => l.Unnoted t ∧ Asks (l.monitor.pc t) mode ∧ upgrade = false
  | .leaving _ => l.Unnoted t ∧ (l.monitor.pc t = .reader ∨ l.monitor.pc t = .writer)

def Right (l : SingleLock T) (t : T) : Prop := l.At t (l.stage t)

variable {priority} {l l' : SingleLock T} {t u : T} {woken : Woken T} {mode : AccessMode}

theorem woke_settled {p q : UJPlace} (h : p.Woke q) (hp : p = .out ∨ p = .reader ∨ p = .writer) :
    q = p := by
  cases h with
  | same => rfl
  | reader | writer | upgrader => simp at hp

theorem woke_asks {p q : UJPlace} (h : p.Woke q) (hp : Asks p mode) : Asks q mode := by
  cases mode with
  | read =>
    cases h with
    | same => exact hp
    | reader => exact .inr (.inl rfl)
    | writer | upgrader => simp [Asks] at hp
  | write =>
    cases h with
    | same => exact hp
    | writer => exact .inr (.inl rfl)
    | reader | upgrader => simp [Asks] at hp

/-- A step of another transaction. -/
structure Frame (l l' : SingleLock T) (u : T) : Prop where
  stage : l'.stage u = l.stage u
  read : u ∈ l'.currentRead ↔ u ∈ l.currentRead
  write : u ∈ l'.currentWrite ↔ u ∈ l.currentWrite
  locked : l'.locked u = l.locked u
  woke : (l.monitor.pc u).Woke (l'.monitor.pc u)

omit [DecidableEq T] in
theorem Frame.settled (hf : Frame l l' u) (h : l.Settled u) :
    l'.Settled u ∧ l'.monitor.pc u = l.monitor.pc u := by
  have hpc := woke_settled hf.woke h.place
  refine ⟨⟨?_, ?_, ?_, ?_⟩, hpc⟩
  · rw [hf.read, hpc, h.read]
  · rw [hf.write, hpc, h.write]
  · rw [hpc]
    exact h.place
  · rw [hf.locked, hpc, h.locked]

omit [DecidableEq T] in
theorem Frame.unnoted (hf : Frame l l' u) (h : l.Unnoted u) : l'.Unnoted u :=
  ⟨fun hr => h.read (hf.read.mp hr), fun hw => h.write (hf.write.mp hw), hf.locked.trans h.locked⟩

omit [DecidableEq T] in
theorem Frame.right (hf : Frame l l' u) (h : l.Right u) : l'.Right u := by
  unfold Right at h ⊢
  rw [hf.stage]
  cases hs : l.stage u with
  | idle =>
    rw [hs] at h
    exact (hf.settled h).1
  | unlocked d =>
    rw [hs] at h
    exact (hf.settled h).1
  | returned mode code =>
    rw [hs] at h
    obtain ⟨hset, hpc⟩ := hf.settled h.1
    refine ⟨hset, ?_⟩
    rw [hpc]
    exact h.2
  | entered mode r w =>
    rw [hs] at h
    refine ⟨(hf.settled h.1).1, ?_, ?_⟩
    · rw [hf.read]
      exact h.2.1
    · rw [hf.write]
      exact h.2.2
  | allowed mode upgrade =>
    rw [hs] at h
    exact ⟨hf.unnoted h.1, (woke_settled hf.woke (.inl h.2.1)).trans h.2.1, h.2.2⟩
  | asking mode upgrade =>
    rw [hs] at h
    exact ⟨hf.unnoted h.1, woke_asks hf.woke h.2.1, h.2.2⟩
  | leaving d =>
    rw [hs] at h
    refine ⟨hf.unnoted h.1, ?_⟩
    rw [woke_settled hf.woke (.inr h.2)]
    exact h.2

theorem frame_goto (l : SingleLock T) (hu : u ≠ t) (stage : Stage) : Frame l (l.goto t stage) u :=
  ⟨Function.update_of_ne hu .., .rfl, .rfl, rfl, .same⟩

theorem frame_granted (l : SingleLock T) (hu : u ≠ t) (mode : AccessMode) :
    Frame l (l.granted t mode) u :=
  ⟨Function.update_of_ne hu .., .rfl, .rfl, Function.update_of_ne hu .., .same⟩

/-- The caller may ask, is refused, or has the lock already. -/
theorem check_cases (priority : T → Int) (l : SingleLock T) (t : T) (mode : AccessMode) (r w : Bool) :
    (∃ upgrade, l.check priority t mode r w = l.goto t (.allowed mode upgrade)) ∨
    (l.preventDeadlock priority t ≠ 0 ∧ l.check priority t mode r w =
      l.goto t (.returned mode (l.preventDeadlock priority t))) ∨
    ((r = true ∨ w = true) ∧ l.check priority t mode r w = l.granted t mode) := by
  have hallow (upgrade : Bool) :
      l.allow priority t mode upgrade = l.goto t (.allowed mode upgrade) ∨
      (l.preventDeadlock priority t ≠ 0 ∧ l.allow priority t mode upgrade =
        l.goto t (.returned mode (l.preventDeadlock priority t))) := by
    unfold allow
    split
    · exact .inl rfl
    · exact .inr ⟨‹_›, rfl⟩
  have hwrap (upgrade : Bool) (hc : l.check priority t mode r w = l.allow priority t mode upgrade) :
      (∃ upgrade, l.check priority t mode r w = l.goto t (.allowed mode upgrade)) ∨
      (l.preventDeadlock priority t ≠ 0 ∧ l.check priority t mode r w =
        l.goto t (.returned mode (l.preventDeadlock priority t))) ∨
      ((r = true ∨ w = true) ∧ l.check priority t mode r w = l.granted t mode) := by
    rw [hc]
    rcases hallow upgrade with h | h
    · exact .inl ⟨upgrade, h⟩
    · exact .inr (.inl h)
  cases mode with
  | read =>
    cases r with
    | true => exact .inr (.inr ⟨.inl rfl, rfl⟩)
    | false =>
      cases w with
      | true => exact .inr (.inr ⟨.inr rfl, rfl⟩)
      | false =>
        by_cases hempty : l.currentWrite = ∅
        · exact .inl ⟨false, if_pos hempty⟩
        · exact hwrap false (if_neg hempty)
  | write =>
    cases w with
    | true => cases r <;> exact .inr (.inr ⟨.inr rfl, rfl⟩)
    | false =>
      cases r with
      | false => exact hwrap false rfl
      | true => exact hwrap true rfl

theorem frame_check (l : SingleLock T) (hu : u ≠ t) (mode : AccessMode) (r w : Bool) :
    Frame l (l.check priority t mode r w) u := by
  rcases l.check_cases priority t mode r w with ⟨up, h⟩ | ⟨-, h⟩ | ⟨-, h⟩
  · rw [h]
    exact frame_goto l hu _
  · rw [h]
    exact frame_goto l hu _
  · rw [h]
    exact frame_granted l hu _

theorem check_monitor (l : SingleLock T) (mode : AccessMode) (r w : Bool) :
    (l.check priority t mode r w).monitor = l.monitor := by
  rcases l.check_cases priority t mode r w with ⟨up, h⟩ | ⟨-, h⟩ | ⟨-, h⟩ <;> rw [h] <;> rfl

theorem frame_finish (l : SingleLock T) (hu : u ≠ t) (mode : AccessMode) :
    Frame l (l.finish priority t mode) u := by
  refine ⟨Function.update_of_ne hu .., ?_, ?_, Function.update_of_ne hu .., .same⟩
  · show u ∈ (if _ then _ else _) ↔ _
    split <;> simp [hu]
  · show u ∈ (if _ then _ else _) ↔ _
    split <;> simp [hu]

omit [DecidableEq T] in
theorem request_thread (t : T) (woken : Woken T) (mode : AccessMode) (upgrade : Bool) :
    (request priority t woken mode upgrade).thread = t := by
  unfold request
  split <;> rfl

/-- A step leaves the other transactions alone, but for a wake-up. -/
theorem step_frame {c : LockCall T} (h : l.step priority c = some l') (hu : u ≠ c.thread) :
    Frame l l' u := by
  cases c with
  | waitForLock t mode =>
    cases h
    exact ⟨Function.update_of_ne hu .., .rfl, .rfl, rfl, .same⟩
  | check t =>
    simp only [step] at h
    split at h
    · cases h
      exact frame_check l hu _ _ _
    · cases h
  | ask t woken =>
    simp only [step] at h
    split at h
    · obtain ⟨m, hm, h⟩ := Option.bind_eq_some_iff.mp h
      cases h
      refine ⟨Function.update_of_ne hu .., .rfl, .rfl, rfl, RWUJMonitor.step_others hm ?_⟩
      rwa [request_thread]
    · cases h
  | resume t woken =>
    obtain ⟨m, hm, h⟩ := Option.bind_eq_some_iff.mp h
    cases h
    exact ⟨rfl, .rfl, .rfl, rfl, RWUJMonitor.step_others hm hu⟩
  | finish t =>
    simp only [step] at h
    split at h
    · split at h
      · cases h
        exact frame_finish l hu _
      · cases h
        exact frame_goto l hu _
    · cases h
  | unlock t =>
    cases h
    have hne : u ≠ t := hu
    exact ⟨Function.update_of_ne hu .., by simp [hne], by simp [hne], Function.update_of_ne hu ..,
      .same⟩
  | release t woken =>
    simp only [step] at h
    split at h
    · obtain ⟨m, hm, h⟩ := Option.bind_eq_some_iff.mp h
      cases h
      exact ⟨Function.update_of_ne hu .., .rfl, .rfl, rfl, RWUJMonitor.step_others hm hu⟩
    · cases h

-- ---------------------------------------------------------------------------
-- A transaction's own steps
-- ---------------------------------------------------------------------------

omit [DecidableEq T] in
theorem right_of_stage {s : Stage} (hs : l.stage t = s) (h : l.At t s) : l.Right t := by
  unfold Right
  rw [hs]
  exact h

omit [DecidableEq T] in
theorem Right.at {s : Stage} (h : l.Right t) (hs : l.stage t = s) : l.At t s := by
  unfold Right at h
  rwa [hs] at h

omit [DecidableEq T] in
/-- A transaction without a call in progress is settled. -/
theorem Right.settled (h : l.Right t) (hfree : (l.stage t).free = true) : l.Settled t := by
  cases hs : l.stage t with
  | idle => exact h.at hs
  | unlocked d => exact h.at hs
  | returned mode code => exact (h.at hs).1
  | entered | allowed | asking | leaving => simp [hs, Stage.free] at hfree

omit [DecidableEq T] in
theorem Settled.unnoted (h : l.Settled t) (hr : t ∉ l.currentRead) (hw : t ∉ l.currentWrite) :
    l.monitor.pc t = .out ∧ l.Unnoted t := by
  have hout : l.monitor.pc t = .out := by
    rcases h.place with hp | hp | hp
    · exact hp
    · exact absurd (h.read.mpr hp) hr
    · exact absurd (h.write.mpr hp) hw
  refine ⟨hout, hr, hw, ?_⟩
  by_contra hl
  exact h.locked.mp (by simpa using hl) hout

theorem right_waitForLock (h : l.Right t) (hfree : (l.stage t).free = true)
    (hstep : l.step priority (.waitForLock t mode) = some l') : l'.Right t := by
  have hset := h.settled hfree
  cases hstep
  apply right_of_stage (Function.update_self ..)
  refine ⟨⟨hset.read, hset.write, hset.place, hset.locked⟩, ?_, ?_⟩
  · exact decide_eq_true_iff
  · exact decide_eq_true_iff

/-- The deadlock check, for a transaction that does not have what it asks for. -/
theorem right_refused {code : Nat} (h : l.Settled t) (hcode : code ≠ 0)
    (hg : ¬Grants (l.monitor.pc t) mode) : (l.goto t (.returned mode code)).Right t := by
  apply right_of_stage (Function.update_self ..)
  exact ⟨⟨h.read, h.write, h.place, h.locked⟩, fun h₀ => absurd h₀ hcode, fun h => absurd h hg⟩

theorem right_allowed (h : l.Settled t) (hr : t ∉ l.currentRead) (hw : t ∉ l.currentWrite) :
    (l.goto t (.allowed mode false)).Right t := by
  obtain ⟨hout, hun⟩ := h.unnoted hr hw
  apply right_of_stage (Function.update_self ..)
  exact ⟨⟨hun.read, hun.write, hun.locked⟩, hout, rfl⟩

theorem right_allow (h : l.Settled t) (hr : t ∉ l.currentRead) (hw : t ∉ l.currentWrite) :
    (l.allow priority t mode false).Right t := by
  obtain ⟨hout, -⟩ := h.unnoted hr hw
  unfold allow
  split
  · exact right_allowed h hr hw
  · refine right_refused h ‹_› ?_
    cases mode <;> simp [Grants, hout]

theorem right_granted (h : l.Settled t) (hg : Grants (l.monitor.pc t) mode) :
    (l.granted t mode).Right t := by
  have hin : l.monitor.pc t ≠ .out := by
    cases mode with
    | read =>
      rcases hg with hg | hg <;> simp [hg]
    | write =>
      have hg : l.monitor.pc t = .writer := hg
      simp [hg]
  apply right_of_stage (Function.update_self ..)
  refine ⟨⟨h.read, h.write, h.place, ?_⟩, fun _ => hg, fun _ => rfl⟩
  simp [granted, hin]

theorem right_check (h : l.Right t) (hup : l.stage t = .entered .write true false →
      l.preventDeadlock priority t ≠ 0) (hstep : l.step priority (.check t) = some l') :
    l'.Right t := by
  simp only [step] at hstep
  split at hstep
  case h_2 => cases hstep
  rename_i mode r w hs
  cases hstep
  obtain ⟨hset, hr, hw⟩ := h.at hs
  have hnot : r = false → t ∉ l.currentRead := by
    rintro rfl hmem
    cases hr.mpr hmem
  have hnot' : w = false → t ∉ l.currentWrite := by
    rintro rfl hmem
    cases hw.mpr hmem
  have hread : r = true → l.monitor.pc t = .reader := fun h => hset.read.mp (hr.mp h)
  have hwrite : w = true → l.monitor.pc t = .writer := fun h => hset.write.mp (hw.mp h)
  cases mode with
  | read =>
    cases r with
    | true => exact right_granted hset (.inl (hread rfl))
    | false =>
      cases w with
      | true => exact right_granted hset (.inr (hwrite rfl))
      | false =>
        show (if _ then _ else _ : SingleLock T).Right t
        split
        · exact right_allowed hset (hnot rfl) (hnot' rfl)
        · exact right_allow hset (hnot rfl) (hnot' rfl)
  | write =>
    cases w with
    | true => cases r <;> exact right_granted hset (hwrite rfl)
    | false =>
      cases r with
      | false => exact right_allow hset (hnot rfl) (hnot' rfl)
      | true =>
        have hcode := hup hs
        show (l.allow priority t .write true).Right t
        unfold allow
        rw [if_neg hcode]
        refine right_refused hset hcode ?_
        intro hg
        have hg : l.monitor.pc t = .writer := hg
        rw [hread rfl] at hg
        cases hg

theorem right_ask (h : l.Right t) (hstep : l.step priority (.ask t woken) = some l') :
    l'.Right t := by
  simp only [step] at hstep
  split at hstep
  case h_2 => cases hstep
  rename_i mode upgrade hs
  obtain ⟨m, hm, hstep⟩ := Option.bind_eq_some_iff.mp hstep
  cases hstep
  obtain ⟨hun, -, rfl⟩ := h.at hs
  apply right_of_stage (Function.update_self ..)
  refine ⟨⟨hun.read, hun.write, hun.locked⟩, ?_, rfl⟩
  cases mode with
  | read =>
    rcases RWUJMonitor.step_lockRead_self hm with hp | hp
    · exact .inr (.inr hp)
    · exact .inl hp
  | write =>
    rcases RWUJMonitor.step_lockWrite_self hm with hp | hp
    · exact .inr (.inr hp)
    · exact .inl hp

omit [DecidableEq T] in
/-- Who is woken is in `wait_for_lock`. -/
theorem Right.asking_of_woken (h : l.Right t) (hwoken : l.monitor.pc t = .wokenReader ∨
      l.monitor.pc t = .wokenWriter ∨ (l.monitor.pc t).wokenUpgrade = true) :
    ∃ mode, l.stage t = .asking mode false := by
  have hnot (hp : l.monitor.pc t = .out ∨ l.monitor.pc t = .reader ∨ l.monitor.pc t = .writer) :
      False := by
    rcases hp with hp | hp | hp <;> simp [hp, UJPlace.wokenUpgrade] at hwoken
  cases hs : l.stage t with
  | idle => exact absurd (h.at hs).place hnot
  | unlocked d => exact absurd (h.at hs).place hnot
  | returned mode code => exact absurd (h.at hs).1.place hnot
  | entered mode r w => exact absurd (h.at hs).1.place hnot
  | allowed mode upgrade => exact absurd (.inl (h.at hs).2.1) hnot
  | leaving d => exact absurd (.inr (h.at hs).2) hnot
  | asking mode upgrade =>
    obtain ⟨-, -, rfl⟩ := h.at hs
    exact ⟨mode, rfl⟩

theorem right_resume (h : l.Right t) (hwoken : l.monitor.pc t = .wokenReader ∨
      l.monitor.pc t = .wokenWriter ∨ (l.monitor.pc t).wokenUpgrade = true)
    (hstep : l.step priority (.resume t woken) = some l') : l'.Right t := by
  obtain ⟨m, hm, hstep⟩ := Option.bind_eq_some_iff.mp hstep
  cases hstep
  obtain ⟨hread, hwrite⟩ := RWUJMonitor.step_resume_self hm
  obtain ⟨mode, hs⟩ := h.asking_of_woken hwoken
  obtain ⟨hun, hasks, -⟩ := h.at hs
  refine right_of_stage (l := { l with monitor := m, queue := _ }) hs ?_
  refine ⟨⟨hun.read, hun.write, hun.locked⟩, ?_, rfl⟩
  cases mode with
  | read =>
    rcases hasks with hp | hp | hp
    · simp [hp, UJPlace.wokenUpgrade] at hwoken
    · exact .inr (.inr (hread hp))
    · simp [hp, UJPlace.wokenUpgrade] at hwoken
  | write =>
    rcases hasks with hp | hp | hp
    · simp [hp, UJPlace.wokenUpgrade] at hwoken
    · exact .inr (.inr (hwrite hp))
    · simp [hp, UJPlace.wokenUpgrade] at hwoken

theorem right_finish (h : l.Right t)
    (hplace : l.monitor.pc t = .out ∨ l.monitor.pc t = .reader ∨ l.monitor.pc t = .writer)
    (hstep : l.step priority (.finish t) = some l') : l'.Right t := by
  simp only [step] at hstep
  split at hstep
  case h_2 => cases hstep
  rename_i mode upgrade hs
  obtain ⟨hun, hasks, rfl⟩ := h.at hs
  rw [if_pos (by simp [errorCode])] at hstep
  cases hstep
  apply right_of_stage (Function.update_self ..)
  cases mode with
  | read =>
    have hp : l.monitor.pc t = .reader := by
      rcases hasks with hp | hp | hp
      · simp [hp] at hplace
      · simp [hp] at hplace
      · exact hp
    refine ⟨⟨?_, ?_, .inr (.inl hp), ?_⟩, fun _ => .inl hp, fun _ => rfl⟩
    · simp [finish, hp]
    · simp [finish, hp, hun.write]
    · simp [finish, hp]
  | write =>
    have hp : l.monitor.pc t = .writer := by
      rcases hasks with hp | hp | hp
      · simp [hp] at hplace
      · simp [hp] at hplace
      · exact hp
    refine ⟨⟨?_, ?_, .inr (.inr hp), ?_⟩, fun _ => hp, fun _ => rfl⟩
    · simp [finish, hp, hun.read]
    · simp [finish, hp]
    · simp [finish, hp]

theorem right_unlock (h : l.Right t) (hfree : (l.stage t).free = true) (hlocked : l.locked t = true)
    (hstep : l.step priority (.unlock t) = some l') : l'.Right t := by
  have hset := h.settled hfree
  cases hstep
  apply right_of_stage (Function.update_self ..)
  refine ⟨⟨by simp, by simp, Function.update_self ..⟩, ?_⟩
  rcases hset.place with hp | hp
  · exact absurd hp (hset.locked.mp hlocked)
  · exact hp

theorem right_release (h : l.Right t) (hstep : l.step priority (.release t woken) = some l') :
    l'.Right t := by
  simp only [step] at hstep
  split at hstep
  case h_2 => cases hstep
  rename_i d hs
  obtain ⟨m, hm, hstep⟩ := Option.bind_eq_some_iff.mp hstep
  cases hstep
  obtain ⟨hun, -⟩ := h.at hs
  have hout := RWUJMonitor.step_unlock_self hm
  apply right_of_stage (Function.update_self ..)
  refine ⟨?_, ?_, .inl hout, ?_⟩
  · simp [hout, goto, hun.read]
  · simp [hout, goto, hun.write]
  · simp [hout, goto, hun.locked]

-- ---------------------------------------------------------------------------
-- Runs without upgrades
-- ---------------------------------------------------------------------------

variable [Fintype T]

/-- A reader that asks to write does not come past the deadlock check, and the
counters of the semaphore have room for who asks. -/
def NoUpgrade (priority : T → Int) (l : SingleLock T) : LockCall T → Prop
  | .check t => l.stage t = .entered .write true false → l.preventDeadlock priority t ≠ 0
  | .ask t woken => ∀ mode upgrade, l.stage t = .allowed mode upgrade →
    l.monitor.Room (request priority t woken mode upgrade)
  | _ => True

structure Inv (l : SingleLock T) : Prop where
  monitor : l.monitor.Inv
  right : ∀ t, l.Right t

theorem inv_create (t : T) (mode : AccessMode) : (create t mode).Inv := by
  constructor
  · have hroom : ({} : RWUJMonitor T).Room (.lockRead t) ∧ ({} : RWUJMonitor T).Room (.lockWrite t) := by
      simp only [RWUJMonitor.Room, RWUJMonitor.crowd_out]
      decide
    cases mode with
    | read => exact RWUJMonitor.inv_init.of_step (c := .lockRead t) rfl hroom.1 rfl
    | write => exact RWUJMonitor.inv_init.of_step (c := .lockWrite t) rfl hroom.2 rfl
  · intro u
    apply right_of_stage rfl
    rcases eq_or_ne u t with rfl | hne
    · cases mode <;> refine ⟨?_, ?_, ?_, ?_⟩ <;> simp [create]
    · cases mode <;> refine ⟨?_, ?_, ?_, ?_⟩ <;> simp [create, hne]

theorem Inv.step {c : LockCall T} (h : l.Inv) (hc : l.Enabled c) (hno : l.NoUpgrade priority c)
    (hstep : l.step priority c = some l') : l'.Inv := by
  refine ⟨?_, fun u => ?_⟩
  · cases c with
    | waitForLock t mode =>
      cases hstep
      exact h.monitor
    | check t =>
      simp only [SingleLock.step] at hstep
      split at hstep
      · cases hstep
        rw [check_monitor]
        exact h.monitor
      · cases hstep
    | ask t woken =>
      obtain ⟨mode, upgrade, hs⟩ := hc.1
      obtain ⟨-, hout, rfl⟩ := (h.right t).at hs
      simp only [SingleLock.step, hs] at hstep
      obtain ⟨m, hm, hstep⟩ := Option.bind_eq_some_iff.mp hstep
      cases hstep
      cases mode with
      | read => exact h.monitor.of_step (c := .lockRead t) hout (hno .read false hs) hm
      | write => exact h.monitor.of_step (c := .lockWrite t) hout (hno .write false hs) hm
    | resume t woken =>
      obtain ⟨m, hm, hstep⟩ := Option.bind_eq_some_iff.mp hstep
      cases hstep
      exact h.monitor.of_step (c := .resume t woken) hc trivial hm
    | finish t =>
      simp only [SingleLock.step] at hstep
      split at hstep
      · split at hstep
        · cases hstep
          exact h.monitor
        · cases hstep
          exact h.monitor
      · cases hstep
    | unlock t =>
      cases hstep
      exact h.monitor
    | release t woken =>
      obtain ⟨d, hs⟩ := hc.1
      simp only [SingleLock.step, hs] at hstep
      obtain ⟨m, hm, hstep⟩ := Option.bind_eq_some_iff.mp hstep
      cases hstep
      exact h.monitor.of_step (c := .unlock t woken) ⟨((h.right t).at hs).2, hc.2⟩ trivial hm
  · rcases eq_or_ne u c.thread with rfl | hne
    · cases c with
      | waitForLock t mode => exact right_waitForLock (h.right t) hc hstep
      | check t => exact right_check (h.right t) hno hstep
      | ask t woken => exact right_ask (h.right t) hstep
      | resume t woken => exact right_resume (h.right t) hc.1 hstep
      | finish t => exact right_finish (h.right t) hc.2 hstep
      | unlock t => exact right_unlock (h.right t) hc.1 hc.2 hstep
      | release t woken => exact right_release (h.right t) hstep
    · exact (step_frame hstep hne).right (h.right u)

theorem inv_of_reaches {t₀ : T} {mode₀ : AccessMode}
    (h : Reaches (step priority) (fun l c => l.Enabled c ∧ l.NoUpgrade priority c)
      (create t₀ mode₀) l) : l.Inv := by
  apply h.invariant (inv_create t₀ mode₀)
  intro l c l' hinv hc hstep
  exact hinv.step hc.1 hc.2 hstep

/-- The semaphore gives the transaction such access. -/
def Holds (l : SingleLock T) (t : T) : AccessMode → Prop
  | .read => (l.monitor.pc t).inside = true
  | .write => l.monitor.HoldsWrite t

omit [DecidableEq T] [Fintype T] in
theorem Settled.holds_iff (h : l.Settled t) : l.Holds t mode ↔ Grants (l.monitor.pc t) mode := by
  rcases h.place with hp | hp | hp
  · cases mode <;> simp [Holds, Grants, RWUJMonitor.HoldsWrite, hp, UJPlace.inside,
      UJPlace.holdsRead, UJPlace.readsInside, UJPlace.writesInside, UJPlace.waitsUpgrade,
      UJPlace.wokenUpgrade]
  · cases mode <;> simp [Holds, Grants, RWUJMonitor.HoldsWrite, hp, UJPlace.inside,
      UJPlace.holdsRead, UJPlace.readsInside, UJPlace.writesInside, UJPlace.wokenUpgrade]
  · cases mode <;> simp [Holds, Grants, RWUJMonitor.HoldsWrite, hp, UJPlace.inside,
      UJPlace.writesInside]

/-- As long as no reader comes past the deadlock check to write: `wait_for_lock`
returns 0 exactly if the caller has what it asked for, a writer is alone, and
the sets hold who is inside. -/
theorem singleLock_grants {t₀ : T} {mode₀ : AccessMode}
    (h : Reaches (step priority) (fun l c => l.Enabled c ∧ l.NoUpgrade priority c)
      (create t₀ mode₀) l) :
    (∀ t mode code, l.stage t = .returned mode code →
      (code = 0 → mode = .write → l.monitor.sem.mode = .write ∧
        ∀ u, (l.monitor.pc u).inside = true ↔ u = t) ∧
      (code ≠ 0 → ¬l.Holds t mode)) ∧
    ∀ t, (l.stage t).free = true →
      (t ∈ l.currentRead ↔ l.monitor.pc t = .reader) ∧
      (t ∈ l.currentWrite ↔ l.monitor.pc t = .writer) ∧
      ((l.monitor.pc t).inside = true ↔ t ∈ l.currentRead ∨ t ∈ l.currentWrite) := by
  have hinv := inv_of_reaches h
  refine ⟨fun t mode code hs => ?_, fun t hfree => ?_⟩
  · obtain ⟨hset, hcode⟩ := (hinv.right t).at hs
    constructor
    · rintro h₀ rfl
      have hp : l.monitor.pc t = .writer := hcode.mp h₀
      have hin : (l.monitor.pc t).writesInside = true := by rw [hp]; rfl
      refine ⟨(hinv.monitor.fits.writes (tally_pos.mpr ⟨t, hin⟩)).1, fun u => ⟨?_, ?_⟩⟩
      · exact hinv.monitor.writer_alone (.inl hin)
      · rintro rfl
        rw [hp]
        rfl
    · intro hne hholds
      exact hne (hcode.mpr (hset.holds_iff.mp hholds))
  · have hset := (hinv.right t).settled hfree
    refine ⟨hset.read, hset.write, ?_⟩
    rw [hset.read, hset.write]
    exact @Settled.holds_iff _ _ _ .read hset

instance : Fintype AccessMode := ⟨{.read, .write}, by rintro ⟨⟩ <;> decide⟩

instance (l : SingleLock T) : DecidablePred l.Enabled
  | .waitForLock t _ => inferInstanceAs (Decidable ((l.stage t).free = true))
  | .check t => inferInstanceAs (Decidable (∃ mode r w, l.stage t = .entered mode r w))
  | .ask t woken => inferInstanceAs (Decidable ((∃ mode upgrade,
    l.stage t = .allowed mode upgrade) ∧ RWUJMonitor.Reached l.monitor.pc woken))
  | .resume t woken => inferInstanceAs (Decidable ((l.monitor.pc t = .wokenReader ∨
    l.monitor.pc t = .wokenWriter ∨ (l.monitor.pc t).wokenUpgrade = true) ∧
    RWUJMonitor.Reached l.monitor.pc woken))
  | .finish t => inferInstanceAs (Decidable ((∃ mode upgrade,
    l.stage t = .asking mode upgrade) ∧ (l.monitor.pc t = .out ∨ l.monitor.pc t = .reader ∨
    l.monitor.pc t = .writer)))
  | .unlock t => inferInstanceAs (Decidable ((l.stage t).free = true ∧ l.locked t = true))
  | .release t woken => inferInstanceAs (Decidable ((∃ deleteLock,
    l.stage t = .leaving deleteLock) ∧ RWUJMonitor.Reached l.monitor.pc woken))

instance (l : SingleLock T) : DecidablePred (l.NoUpgrade priority)
  | .check t => inferInstanceAs (Decidable (l.stage t = .entered .write true false →
    l.preventDeadlock priority t ≠ 0))
  | .ask t woken => inferInstanceAs (Decidable (∀ mode upgrade,
    l.stage t = .allowed mode upgrade → l.monitor.Room (request priority t woken mode upgrade)))
  | .waitForLock _ _ | .resume _ _ | .finish _ | .unlock _ | .release _ _ =>
    inferInstanceAs (Decidable True)

/-- A writer waits for a reader and gets the lock from it. -/
theorem singleLock_grants_handover : ∃ l : SingleLock (Fin 2),
    l.stage 1 = .returned .write 0 ∧ l.monitor.sem.mode = .write ∧
      ∀ u, (l.monitor.pc u).inside = true ↔ u = 1 := by
  obtain ⟨l, hl, hs⟩ := Reaches.of_play (step fun t : Fin 2 => 2 - t)
    (fun l c => l.Enabled c ∧ l.NoUpgrade (fun t : Fin 2 => 2 - t) c) (create 0 .read)
    [.waitForLock 1 .write, .check 1, .ask 1 ⟨0, 0⟩, .unlock 0, .release 0 ⟨1, 0⟩,
      .resume 1 ⟨0, 0⟩, .finish 1]
    (fun l => l.stage 1 = .returned .write 0) (by decide)
  have hs := of_decide_eq_true hs
  obtain ⟨hmode, halone⟩ := ((singleLock_grants hl).1 1 .write 0 hs).1 rfl rfl
  exact ⟨l, hs, hmode, halone⟩

/-- Two readers upgrade. The one that has to go is told that it may write, and the
one that may write gets an error. -/
theorem singleLock_swaps : ∃ l : SingleLock (Fin 2),
    Reaches (step fun t : Fin 2 => 2 - t) Enabled (create 0 .read) l ∧
      l.stage 0 = .returned .write 0 ∧ l.monitor.pc 0 = .out ∧ 0 ∈ l.currentWrite ∧
      l.stage 1 = .returned .write 1 ∧ l.Holds 1 .write := by
  obtain ⟨l, hl, hQ⟩ := Reaches.of_play (step fun t : Fin 2 => 2 - t) Enabled (create 0 .read)
    [.waitForLock 0 .write, .check 0,
      .waitForLock 1 .read, .check 1, .ask 1 ⟨0, 0⟩, .finish 1, .waitForLock 1 .write, .check 1,
      .ask 0 ⟨0, 0⟩, .ask 1 ⟨0, 0⟩, .resume 0 ⟨0, 1⟩, .finish 0, .resume 1 ⟨0, 0⟩, .finish 1]
    (fun l => l.stage 0 = .returned .write 0 ∧ l.monitor.pc 0 = .out ∧ 0 ∈ l.currentWrite ∧
      l.stage 1 = .returned .write 1 ∧ l.monitor.pc 1 = .writer) (by decide)
  obtain ⟨h₀, hout, hmem, h₁, hp⟩ := of_decide_eq_true hQ
  exact ⟨l, hl, h₀, hout, hmem, h₁, .inl (by rw [hp]; rfl)⟩

end SingleLock

end Loxim.Lock
