import Loxim.Util.RWSemaphore

/-!
# The semaphore with upgrades

A reader may ask to become the writer. Of the readers that ask, the one with
the smallest priority stays; it becomes the writer when it is alone. The others
are sent out.
-/

namespace Loxim.Util

/-- `NO_UPGRADER`. -/
def noUpgrader : Int := -1

structure RWUJSemaphore extends RWSemaphore where
  upgraderWaiting : Bool := false
  bestUpgrader : Int := noUpgrader
  deriving DecidableEq, Repr

/-- What becomes of the caller of `lock_upgrade`. -/
inductive Upgrade
  | granted
  | waits
  | expelled
  deriving DecidableEq, Repr

namespace RWUJSemaphore

open RWSemaphore (assert)

def lockRead (s : RWUJSemaphore) : Option (RWUJSemaphore × Bool) := do
  assert (s.mode ≠ .none ∨ s.inside = 0)
  if s.mode = .none ∨ (s.mode = .read ∧ s.writersWaiting = 0 ∧ s.upgraderWaiting = false) then
    assert (s.bestUpgrader = noUpgrader)
    assert (s.writersWaiting = 0)
    assert (s.upgraderWaiting = false)
    assert (s.inside = 0 ∨ s.mode = .read)
    assert (s.readersWaiting = 0)
    assert (s.mode = .none ∨ s.mode = .read)
    assert (s.inside < countersMax)
    return ({ s with mode := .read, inside := increment s.inside }, true)
  else
    assert (s.mode = .write ∨ 0 < s.writersWaiting ∨ s.upgraderWaiting = true)
    assert (s.upgraderWaiting = true ∨ s.bestUpgrader = noUpgrader)
    assert (s.readersWaiting < countersMax)
    return ({ s with readersWaiting := increment s.readersWaiting }, false)

def lockWrite (s : RWUJSemaphore) : Option (RWUJSemaphore × Bool) := do
  assert (s.mode ≠ .none ∨ s.inside = 0)
  if s.mode = .none then
    assert (s.inside = 0)
    assert (s.readersWaiting = 0 ∧ s.writersWaiting = 0 ∧ s.upgraderWaiting = false)
    assert (s.bestUpgrader = noUpgrader)
    return ({ s with mode := .write, inside := 1 }, true)
  else return ({ s with writersWaiting := increment s.writersWaiting }, false)

/-- Waits for nobody. -/
def tryLockWrite (s : RWUJSemaphore) : Option (RWUJSemaphore × Bool) := do
  assert (s.mode ≠ .none ∨ s.inside = 0)
  if s.mode = .none then
    assert (s.inside = 0)
    assert (s.readersWaiting = 0 ∧ s.writersWaiting = 0 ∧ s.upgraderWaiting = false)
    assert (s.bestUpgrader = noUpgrader)
    return ({ s with mode := .write, inside := 1 }, true)
  else return (s, false)

def unlock (s : RWUJSemaphore) : Option (RWUJSemaphore × Signal) := do
  assert (0 < s.inside ∧ (s.mode = .read ∨ s.mode = .write))
  if s.inside - 1 = 0 then
    if 0 < s.readersWaiting then
      if s.mode = .read then
        assert (0 < s.writersWaiting ∨ s.upgraderWaiting = true)
        return ({ s with mode := .write, writersWaiting := decrement s.writersWaiting, inside := 1 },
          .oneWriter)
      else
        assert (s.mode = .write)
        return ({ s with mode := .read, inside := s.readersWaiting, readersWaiting := 0 },
          .allReaders)
    else if 0 < s.writersWaiting then
      assert (s.readersWaiting = 0)
      return ({ s with mode := .write, writersWaiting := decrement s.writersWaiting, inside := 1 },
        .oneWriter)
    else
      assert (s.readersWaiting = 0 ∧ s.writersWaiting = 0)
      return ({ s with mode := .none, inside := 0 }, .nobody)
  else if s.inside - 1 = 1 then
    assert (s.mode = .read)
    if s.upgraderWaiting = true then
      assert (s.bestUpgrader ≠ noUpgrader)
      return ({ s with mode := .write, inside := 1 }, .oneUpgrader)
    else return ({ s with inside := 1 }, .nobody)
  else
    assert (s.mode = .read)
    return ({ s with inside := s.inside - 1 }, .nobody)

/-- The signal for an upgrader that has to go is sent before the caller waits. -/
def lockUpgrade (s : RWUJSemaphore) (prio : Int) : Option (RWUJSemaphore × Upgrade × Signal) := do
  assert (s.mode ≠ .none ∨ s.inside = 0)
  if s.mode = .read ∧ s.inside = 1 then
    return ({ s with mode := .write, upgraderWaiting := false, bestUpgrader := noUpgrader },
      .granted, .nobody)
  else if s.upgraderWaiting = true then
    assert (s.bestUpgrader ≠ noUpgrader)
    assert (s.bestUpgrader ≠ prio)
    if prio < s.bestUpgrader then
      return ({ s with bestUpgrader := prio }, .waits, .oneUpgrader)
    else
      let (s, sent) ← s.unlock
      return (s, .expelled, sent)
  else
    assert (s.bestUpgrader = noUpgrader)
    return ({ s with upgraderWaiting := true, bestUpgrader := prio }, .waits, .nobody)

/-- The rest of `lock_upgrade`, when the upgrader wakes up. -/
def wokenUpgrade (s : RWUJSemaphore) (prio : Int) :
    Option (RWUJSemaphore × Upgrade × Signal) := do
  assert (s.upgraderWaiting = true)
  if s.bestUpgrader = prio then
    assert (s.mode = .write)
    assert (s.inside = 1)
    return ({ s with upgraderWaiting := false, bestUpgrader := noUpgrader }, .granted, .nobody)
  else
    assert (s.bestUpgrader ≠ noUpgrader)
    let (s, sent) ← s.unlock
    return (s, .expelled, sent)

/-- A reader need not wait. -/
def AdmitsRead (s : RWUJSemaphore) : Prop :=
  s.mode = .none ∨ (s.mode = .read ∧ s.writersWaiting = 0 ∧ s.upgraderWaiting = false)

instance (s : RWUJSemaphore) : Decidable s.AdmitsRead := inferInstanceAs (Decidable (_ ∨ _))

/-- A writer need not wait. -/
def AdmitsWrite (s : RWUJSemaphore) : Prop := s.mode = .none

instance (s : RWUJSemaphore) : Decidable s.AdmitsWrite := inferInstanceAs (Decidable (_ = _))

end RWUJSemaphore

-- ---------------------------------------------------------------------------
-- Threads
-- ---------------------------------------------------------------------------

/-- Where a thread is. An upgrader keeps its priority while it waits. -/
inductive UJPlace
  | out
  | waitingReader
  | waitingWriter
  | waitingUpgrader (prio : Int)
  | wokenReader
  | wokenWriter
  | wokenUpgrader (prio : Int)
  | reader
  | writer
  deriving DecidableEq, Repr

namespace UJPlace

def waitsRead : UJPlace → Bool
  | waitingReader => true
  | _ => false

def waitsWrite : UJPlace → Bool
  | waitingWriter => true
  | _ => false

def waitsUpgrade : UJPlace → Bool
  | waitingUpgrader _ => true
  | _ => false

def wokenUpgrade : UJPlace → Bool
  | wokenUpgrader _ => true
  | _ => false

def readsInside : UJPlace → Bool
  | wokenReader | reader => true
  | _ => false

def writesInside : UJPlace → Bool
  | wokenWriter | writer => true
  | _ => false

/-- On a condition variable. -/
def waits (p : UJPlace) : Bool := p.waitsRead || p.waitsWrite || p.waitsUpgrade

/-- An upgrader has read access, also while it waits. -/
def holdsRead (p : UJPlace) : Bool := p.readsInside || p.waitsUpgrade || p.wokenUpgrade

def inside (p : UJPlace) : Bool := p.holdsRead || p.writesInside

def wakeReader : UJPlace → UJPlace
  | waitingReader => wokenReader
  | p => p

def wakeWriter : UJPlace → UJPlace
  | waitingWriter => wokenWriter
  | p => p

def wakeUpgrader : UJPlace → UJPlace
  | waitingUpgrader prio => wokenUpgrader prio
  | p => p

end UJPlace

/-- The waiting threads that a signal goes to, if one waits. -/
structure Woken (T : Type) where
  writer : T
  upgrader : T

/-- The semaphore and all threads that use it. -/
structure RWUJMonitor (T : Type) where
  sem : RWUJSemaphore := {}
  pc : T → UJPlace := fun _ => .out

inductive RWUJCall (T : Type)
  | lockRead (t : T)
  | lockWrite (t : T)
  | tryLockWrite (t : T)
  | lockUpgrade (t : T) (prio : Int) (woken : Woken T)
  | resume (t : T) (woken : Woken T)
  | unlock (t : T) (woken : Woken T)

namespace RWUJMonitor

variable {T : Type} [DecidableEq T]

def signal (pc : T → UJPlace) (woken : Woken T) : Signal → T → UJPlace
  | .nobody => pc
  | .oneWriter => Function.update pc woken.writer (pc woken.writer).wakeWriter
  | .oneUpgrader => Function.update pc woken.upgrader (pc woken.upgrader).wakeUpgrader
  | .allReaders => fun t => (pc t).wakeReader

/-- Where the caller of `lock_upgrade` is afterwards. -/
def upgraded (prio : Int) : Upgrade → UJPlace
  | .granted => .writer
  | .waits => .waitingUpgrader prio
  | .expelled => .out

def step (m : RWUJMonitor T) : RWUJCall T → Option (RWUJMonitor T)
  | .lockRead t => do
    let (sem, entered) ← m.sem.lockRead
    return { sem, pc := Function.update m.pc t (if entered then .reader else .waitingReader) }
  | .lockWrite t => do
    let (sem, entered) ← m.sem.lockWrite
    return { sem, pc := Function.update m.pc t (if entered then .writer else .waitingWriter) }
  | .tryLockWrite t => do
    let (sem, entered) ← m.sem.tryLockWrite
    return { sem, pc := Function.update m.pc t (if entered then .writer else .out) }
  | .lockUpgrade t prio woken => do
    let (sem, result, sent) ← m.sem.lockUpgrade prio
    return { sem, pc := Function.update (signal m.pc woken sent) t (upgraded prio result) }
  | .resume t woken =>
    match m.pc t with
    | .wokenReader => do
      m.sem.wokenRead
      return { m with pc := Function.update m.pc t .reader }
    | .wokenUpgrader prio => do
      let (sem, result, sent) ← m.sem.wokenUpgrade prio
      return { sem, pc := Function.update (signal m.pc woken sent) t (upgraded prio result) }
    | _ => do
      m.sem.wokenWrite
      return { m with pc := Function.update m.pc t .writer }
  | .unlock t woken => do
    let (sem, sent) ← m.sem.unlock
    return { sem, pc := Function.update (signal m.pc woken sent) t .out }

/-- A signal reaches somebody who waits for it, if there is one. -/
def Reached (pc : T → UJPlace) (woken : Woken T) : Prop :=
  ((∃ u, (pc u).waitsWrite = true) → (pc woken.writer).waitsWrite = true) ∧
  ((∃ u, (pc u).waitsUpgrade = true) → (pc woken.upgrader).waitsUpgrade = true)

/-- Only a reader upgrades, and no other with its priority waits for that. -/
def Enabled (m : RWUJMonitor T) : RWUJCall T → Prop
  | .lockRead t => m.pc t = .out
  | .lockWrite t => m.pc t = .out
  | .tryLockWrite t => m.pc t = .out
  | .lockUpgrade t prio woken => m.pc t = .reader ∧ (∀ u, m.pc u ≠ .waitingUpgrader prio) ∧
    Reached m.pc woken
  | .resume t woken => (m.pc t = .wokenReader ∨ m.pc t = .wokenWriter ∨
    (m.pc t).wokenUpgrade = true) ∧ Reached m.pc woken
  | .unlock t woken => (m.pc t = .reader ∨ m.pc t = .writer) ∧ Reached m.pc woken

end RWUJMonitor

-- ---------------------------------------------------------------------------
-- Who moves
-- ---------------------------------------------------------------------------

/-- Where a thread is after a step of another one. -/
inductive UJPlace.Woke : UJPlace → UJPlace → Prop
  | same : Woke p p
  | reader : Woke waitingReader wokenReader
  | writer : Woke waitingWriter wokenWriter
  | upgrader : Woke (waitingUpgrader prio) (wokenUpgrader prio)

def RWUJCall.thread : RWUJCall T → T
  | .lockRead t | .lockWrite t | .tryLockWrite t | .lockUpgrade t _ _ | .resume t _ | .unlock t _ => t

namespace RWUJMonitor

variable {T : Type} [DecidableEq T] {m m' : RWUJMonitor T} {t u : T} {pc : T → UJPlace}
  {woken : Woken T} {sent : Signal}

theorem woke_signal (pc : T → UJPlace) (woken : Woken T) (sent : Signal) (u : T) :
    (pc u).Woke (signal pc woken sent u) := by
  cases sent with
  | nobody => exact .same
  | allReaders =>
    show (pc u).Woke (pc u).wakeReader
    cases pc u with
    | waitingReader => exact .reader
    | _ => exact .same
  | oneWriter =>
    simp only [signal]
    rcases eq_or_ne u woken.writer with rfl | hne
    · rw [Function.update_self]
      cases pc woken.writer with
      | waitingWriter => exact .writer
      | _ => exact .same
    · rw [Function.update_of_ne hne]
      exact .same
  | oneUpgrader =>
    simp only [signal]
    rcases eq_or_ne u woken.upgrader with rfl | hne
    · rw [Function.update_self]
      cases pc woken.upgrader with
      | waitingUpgrader => exact .upgrader
      | _ => exact .same
    · rw [Function.update_of_ne hne]
      exact .same

theorem woke_update {b : UJPlace} (hu : u ≠ t) :
    (pc u).Woke (Function.update (signal pc woken sent) t b u) := by
  rw [Function.update_of_ne hu]
  exact woke_signal pc woken sent u

/-- The other threads go on waiting or are woken. -/
theorem step_others {c : RWUJCall T} (h : m.step c = some m') (hu : u ≠ c.thread) :
    (m.pc u).Woke (m'.pc u) := by
  have hstay {b : UJPlace} : (m.pc u).Woke (Function.update m.pc c.thread b u) := by
    rw [Function.update_of_ne hu]
    exact .same
  cases c with
  | lockRead t =>
    obtain ⟨⟨s', entered⟩, -, h⟩ := Option.bind_eq_some_iff.mp h
    cases h
    exact hstay
  | lockWrite t =>
    obtain ⟨⟨s', entered⟩, -, h⟩ := Option.bind_eq_some_iff.mp h
    cases h
    exact hstay
  | tryLockWrite t =>
    obtain ⟨⟨s', entered⟩, -, h⟩ := Option.bind_eq_some_iff.mp h
    cases h
    exact hstay
  | lockUpgrade t prio woken =>
    obtain ⟨⟨s', result, sent⟩, -, h⟩ := Option.bind_eq_some_iff.mp h
    cases h
    exact woke_update hu
  | unlock t woken =>
    obtain ⟨⟨s', sent⟩, -, h⟩ := Option.bind_eq_some_iff.mp h
    cases h
    exact woke_update hu
  | resume t woken =>
    simp only [step] at h
    split at h
    · obtain ⟨_, -, h⟩ := Option.bind_eq_some_iff.mp h
      cases h
      exact hstay
    · obtain ⟨⟨s', result, sent⟩, -, h⟩ := Option.bind_eq_some_iff.mp h
      cases h
      exact woke_update hu
    · obtain ⟨_, -, h⟩ := Option.bind_eq_some_iff.mp h
      cases h
      exact hstay

theorem step_lockRead_pc (h : m.step (.lockRead t) = some m') :
    m'.pc = Function.update m.pc t (if m.sem.AdmitsRead then .reader else .waitingReader) := by
  obtain ⟨⟨s', entered⟩, hlock, h⟩ := Option.bind_eq_some_iff.mp h
  cases h
  simp only [RWUJSemaphore.lockRead, RWSemaphore.assert_bind] at hlock
  by_cases hadmit : m.sem.AdmitsRead
  · rw [if_pos (c := _ ∨ _) hadmit] at hlock
    have hentered : entered = true := by grind
    simp [hentered, hadmit]
  · rw [if_neg (c := _ ∨ _ ∧ _) hadmit] at hlock
    have hentered : entered = false := by grind
    simp [hentered, hadmit]

theorem step_lockWrite_pc (h : m.step (.lockWrite t) = some m') :
    m'.pc = Function.update m.pc t (if m.sem.AdmitsWrite then .writer else .waitingWriter) := by
  obtain ⟨⟨s', entered⟩, hlock, h⟩ := Option.bind_eq_some_iff.mp h
  cases h
  simp only [RWUJSemaphore.lockWrite, RWSemaphore.assert_bind] at hlock
  by_cases hadmit : m.sem.AdmitsWrite
  · rw [if_pos (c := m.sem.mode = .none) hadmit] at hlock
    have hentered : entered = true := by grind
    simp [hentered, hadmit]
  · rw [if_neg (c := m.sem.mode = .none) hadmit] at hlock
    have hentered : entered = false := by grind
    simp [hentered, hadmit]

theorem step_lockRead_self (h : m.step (.lockRead t) = some m') :
    m'.pc t = .reader ∨ m'.pc t = .waitingReader := by
  rw [step_lockRead_pc h, Function.update_self]
  split
  · exact .inl rfl
  · exact .inr rfl

theorem step_lockWrite_self (h : m.step (.lockWrite t) = some m') :
    m'.pc t = .writer ∨ m'.pc t = .waitingWriter := by
  rw [step_lockWrite_pc h, Function.update_self]
  split
  · exact .inl rfl
  · exact .inr rfl

/-- Whom a thread that leaves lets in. -/
theorem step_unlock_pc (h : m.step (.unlock t woken) = some m') :
    ∃ sent, m'.pc = Function.update (signal m.pc woken sent) t .out ∧
      (sent = .oneWriter → m.sem.inside = 1 ∧ ¬(m.sem.mode = .write ∧ 0 < m.sem.readersWaiting)) ∧
      (sent = .allReaders → m.sem.inside = 1 ∧ m.sem.mode = .write ∧ 0 < m.sem.readersWaiting) := by
  obtain ⟨⟨s', sent⟩, hunlock, h⟩ := Option.bind_eq_some_iff.mp h
  cases h
  refine ⟨sent, rfl, ?_⟩
  simp only [RWUJSemaphore.unlock, RWSemaphore.assert_bind] at hunlock
  grind

theorem step_unlock_self (h : m.step (.unlock t woken) = some m') : m'.pc t = .out := by
  obtain ⟨⟨s', sent⟩, -, h⟩ := Option.bind_eq_some_iff.mp h
  cases h
  exact Function.update_self ..

/-- A reader or a writer that was let in goes on. -/
theorem step_resume_pc (h : m.step (.resume t woken) = some m')
    (hpc : m.pc t = .wokenReader ∨ m.pc t = .wokenWriter) :
    m'.pc = Function.update m.pc t (if m.pc t = .wokenReader then .reader else .writer) := by
  rcases hpc with hpc | hpc
  · simp only [step, hpc] at h
    obtain ⟨_, -, h⟩ := Option.bind_eq_some_iff.mp h
    cases h
    simp [hpc]
  · simp only [step, hpc] at h
    obtain ⟨_, -, h⟩ := Option.bind_eq_some_iff.mp h
    cases h
    simp [hpc]

theorem step_resume_self (h : m.step (.resume t woken) = some m') :
    (m.pc t = .wokenReader → m'.pc t = .reader) ∧ (m.pc t = .wokenWriter → m'.pc t = .writer) := by
  constructor
  · intro hpc
    rw [step_resume_pc h (.inl hpc), Function.update_self, if_pos hpc]
  · intro hpc
    rw [step_resume_pc h (.inr hpc), Function.update_self, hpc]
    rfl

end RWUJMonitor

-- ---------------------------------------------------------------------------
-- The phases of the semaphore
-- ---------------------------------------------------------------------------

/-- How many threads wait and are inside, by kind. -/
@[ext]
structure Crowd where
  waitR : Nat := 0
  waitW : Nat := 0
  inR : Nat := 0
  inW : Nat := 0
  waitU : Nat := 0
  wokenU : Nat := 0

namespace Crowd

instance : Add Crowd where
  add c d := ⟨c.waitR + d.waitR, c.waitW + d.waitW, c.inR + d.inR, c.inW + d.inW,
    c.waitU + d.waitU, c.wokenU + d.wokenU⟩

variable (c d : Crowd)

@[simp] theorem waitR_add : (c + d).waitR = c.waitR + d.waitR := rfl
@[simp] theorem waitW_add : (c + d).waitW = c.waitW + d.waitW := rfl
@[simp] theorem inR_add : (c + d).inR = c.inR + d.inR := rfl
@[simp] theorem inW_add : (c + d).inW = c.inW + d.inW := rfl
@[simp] theorem waitU_add : (c + d).waitU = c.waitU + d.waitU := rfl
@[simp] theorem wokenU_add : (c + d).wokenU = c.wokenU + d.wokenU := rfl

theorem add_right_cancel {c d e : Crowd} (h : c + e = d + e) : c = d := by
  simpa [Crowd.ext_iff] using h

/-- How many threads hold the semaphore. -/
def inside : Nat := c.inR + c.inW + c.waitU + c.wokenU

/-- How a crowd changes when a signal arrives. -/
def signal : Signal → Crowd
  | .nobody => c
  | .oneWriter => { c with waitW := c.waitW - 1, inW := c.inW + 1 }
  | .oneUpgrader => { c with waitU := c.waitU - 1, wokenU := c.wokenU + 1 }
  | .allReaders => { c with waitR := 0, inR := c.inR + c.waitR }

end Crowd

def UJPlace.count (p : UJPlace) : Crowd :=
  ⟨p.waitsRead.toNat, p.waitsWrite.toNat, p.readsInside.toNat, p.writesInside.toNat,
    p.waitsUpgrade.toNat, p.wokenUpgrade.toNat⟩

@[simp] theorem UJPlace.count_waitingWriter : waitingWriter.count = { waitW := 1 } := rfl
@[simp] theorem UJPlace.count_wokenWriter : wokenWriter.count = { inW := 1 } := rfl
@[simp] theorem UJPlace.count_waitingUpgrader :
    (waitingUpgrader prio).count = { waitU := 1 } := rfl
@[simp] theorem UJPlace.count_wokenUpgrader : (wokenUpgrader prio).count = { wokenU := 1 } := rfl

namespace RWUJSemaphore

/-- The fields are right for a crowd. While somebody upgrades the others inside
are readers and upgraders on their way out. -/
inductive Fits : RWUJSemaphore → Crowd → Prop
  | free : Fits {} {}
  | reading {n r w : Nat} (hn : 0 < n) (hwait : 0 < r → 0 < w) :
    Fits { mode := .read, inside := n, readersWaiting := r, writersWaiting := w }
      { inR := n, waitR := r, waitW := w }
  | upgrading {n k r w : Nat} {best : Int} (hn : 0 < n + k) (hbest : best ≠ noUpgrader) :
    Fits { mode := .read, inside := n + k + 1, readersWaiting := r, writersWaiting := w,
           upgraderWaiting := true, bestUpgrader := best }
      { inR := n, wokenU := k, waitU := 1, waitR := r, waitW := w }
  | upgraded {r w : Nat} {best : Int} (hbest : best ≠ noUpgrader) :
    Fits { mode := .write, inside := 1, readersWaiting := r, writersWaiting := w,
           upgraderWaiting := true, bestUpgrader := best }
      { wokenU := 1, waitR := r, waitW := w }
  | writing {r w : Nat} :
    Fits { mode := .write, inside := 1, readersWaiting := r, writersWaiting := w }
      { inW := 1, waitR := r, waitW := w }

variable {s : RWUJSemaphore} {c : Crowd}

theorem Fits.none (h : s.Fits c) (hmode : s.mode = .none) : s = {} ∧ c = {} := by
  cases h with
  | free => exact ⟨rfl, rfl⟩
  | reading | upgrading | upgraded | writing => cases hmode

theorem Fits.waitU_le (h : s.Fits c) : c.waitU ≤ 1 := by
  cases h with
  | upgrading => exact le_rfl
  | free | reading | upgraded | writing => exact Nat.zero_le 1

theorem Fits.reads (h : s.Fits c) (hpos : 0 < c.inR) : s.mode = .read ∧ 0 < s.inside := by
  cases h with
  | reading hn => exact ⟨rfl, hn⟩
  | upgrading => exact ⟨rfl, Nat.succ_pos _⟩
  | free | upgraded | writing => cases hpos

theorem Fits.writes (h : s.Fits c) (hpos : 0 < c.inW) : s.mode = .write ∧ s.inside = 1 := by
  cases h with
  | writing => exact ⟨rfl, rfl⟩
  | free | reading | upgrading | upgraded => cases hpos

theorem Fits.read (h : s.Fits c) (hmode : s.mode = .read) :
    s.inside = c.inR + c.waitU + c.wokenU ∧ c.inW = 0 := by
  cases h with
  | reading => exact ⟨rfl, rfl⟩
  | upgrading => exact ⟨by simp only; omega, rfl⟩
  | free | upgraded | writing => cases hmode

theorem Fits.write (h : s.Fits c) (hmode : s.mode = .write) : s.inside = 1 ∧ c.inside = 1 := by
  cases h with
  | upgraded => exact ⟨rfl, rfl⟩
  | writing => exact ⟨rfl, rfl⟩
  | free | reading | upgrading => cases hmode

/-- Who comes in at once finds nobody waiting. -/
theorem Fits.admitsRead (h : s.Fits c) (ha : s.AdmitsRead) :
    c.waitR = 0 ∧ c.waitW = 0 ∧ c.waitU = 0 := by
  unfold AdmitsRead at ha
  cases h with
  | free => exact ⟨rfl, rfl, rfl⟩
  | reading hn hwait =>
    simp only [reduceCtorEq, true_and, and_true, false_or] at ha
    refine ⟨?_, ha, rfl⟩
    simp only
    omega
  | upgrading => simp at ha
  | upgraded | writing => simp at ha

theorem Fits.admitsWrite (h : s.Fits c) (ha : s.AdmitsWrite) :
    c.waitR = 0 ∧ c.waitW = 0 ∧ c.waitU = 0 := by
  obtain ⟨-, rfl⟩ := h.none ha
  exact ⟨rfl, rfl, rfl⟩

/-- Where the best upgrader is. -/
theorem Fits.upgrader (h : s.Fits c) (hwait : s.upgraderWaiting = true) :
    s.mode = .read ∧ c.waitU = 1 ∨ s.mode = .write ∧ c.waitU = 0 ∧ c.wokenU = 1 := by
  cases h with
  | upgrading => exact .inl ⟨rfl, rfl⟩
  | upgraded => exact .inr ⟨rfl, rfl, rfl⟩
  | free | reading | writing => cases hwait

theorem Fits.lockRead (h : s.Fits c) (hw : c.waitR < countersMax) (hi : c.inside < countersMax) :
    ∃ s' entered, s.lockRead = some (s', entered) ∧
      s'.Fits (c + (if entered then UJPlace.reader else .waitingReader).count) ∧
      s'.bestUpgrader = s.bestUpgrader ∧ (s'.mode = s.mode ∨ s.mode = .none) := by
  unfold RWUJSemaphore.lockRead
  cases h with
  | free => exact ⟨_, true, rfl, .reading (Nat.zero_lt_one) (fun h => h), rfl, .inr rfl⟩
  | @reading n r w hn hwait =>
    rcases Nat.eq_zero_or_pos w with rfl | hw₀
    · have hr : r = 0 := by omega
      subst hr
      have hi : n < countersMax := hi
      refine ⟨{ mode := .read, inside := n + 1 }, true, ?_, .reading (Nat.succ_pos n) hwait, rfl,
        .inl rfl⟩
      simp [hi, increment_eq hi]
    · refine ⟨{ mode := .read, inside := n, readersWaiting := r + 1, writersWaiting := w }, false,
        ?_, .reading hn fun _ => hw₀, rfl, .inl rfl⟩
      simp [hw₀, Nat.ne_of_gt hw₀, increment_eq hw, show r < countersMax from hw]
  | @upgrading n k r w best hn hbest =>
    refine ⟨{ mode := .read, inside := n + k + 1, readersWaiting := r + 1, writersWaiting := w,
              upgraderWaiting := true, bestUpgrader := best }, false, ?_,
      .upgrading hn hbest, rfl, .inl rfl⟩
    simp [increment_eq hw, show r < countersMax from hw]
  | @upgraded r w best hbest =>
    refine ⟨{ mode := .write, inside := 1, readersWaiting := r + 1, writersWaiting := w,
              upgraderWaiting := true, bestUpgrader := best }, false, ?_, .upgraded hbest, rfl,
      .inl rfl⟩
    simp [increment_eq hw, show r < countersMax from hw]
  | @writing r w =>
    refine ⟨{ mode := .write, inside := 1, readersWaiting := r + 1, writersWaiting := w }, false,
      ?_, .writing, rfl, .inl rfl⟩
    simp [increment_eq hw, show r < countersMax from hw]

theorem Fits.lockWrite (h : s.Fits c) (hw : c.waitW < countersMax) :
    ∃ s' entered, s.lockWrite = some (s', entered) ∧
      s'.Fits (c + (if entered then UJPlace.writer else .waitingWriter).count) ∧
      s'.bestUpgrader = s.bestUpgrader ∧ (s'.mode = s.mode ∨ s.mode = .none) := by
  unfold RWUJSemaphore.lockWrite
  cases h with
  | free => exact ⟨_, true, rfl, .writing, rfl, .inr rfl⟩
  | @reading n r w hn hwait =>
    refine ⟨{ mode := .read, inside := n, readersWaiting := r, writersWaiting := w + 1 }, false,
      ?_, .reading hn fun _ => Nat.succ_pos w, rfl, .inl rfl⟩
    simp [increment_eq hw]
  | @upgrading n k r w best hn hbest =>
    refine ⟨{ mode := .read, inside := n + k + 1, readersWaiting := r, writersWaiting := w + 1,
              upgraderWaiting := true, bestUpgrader := best }, false, ?_,
      .upgrading hn hbest, rfl, .inl rfl⟩
    simp [increment_eq hw]
  | @upgraded r w best hbest =>
    refine ⟨{ mode := .write, inside := 1, readersWaiting := r, writersWaiting := w + 1,
              upgraderWaiting := true, bestUpgrader := best }, false, ?_, .upgraded hbest, rfl,
      .inl rfl⟩
    simp [increment_eq hw]
  | @writing r w =>
    refine ⟨{ mode := .write, inside := 1, readersWaiting := r, writersWaiting := w + 1 }, false,
      ?_, .writing, rfl, .inl rfl⟩
    simp [increment_eq hw]

theorem Fits.tryLockWrite (h : s.Fits c) :
    ∃ s' entered, s.tryLockWrite = some (s', entered) ∧
      s'.Fits (c + (if entered then UJPlace.writer else .out).count) ∧
      s'.bestUpgrader = s.bestUpgrader ∧ (s'.mode = s.mode ∨ s.mode = .none) := by
  by_cases hmode : s.mode = .none
  · obtain ⟨rfl, rfl⟩ := h.none hmode
    exact ⟨_, true, rfl, .writing, rfl, .inr rfl⟩
  · exact ⟨s, false, by simp [RWUJSemaphore.tryLockWrite, hmode], h, rfl, .inl rfl⟩

/-- A thread has left a crowd `c` behind. -/
structure Leaves (s : RWUJSemaphore) (c : Crowd) (s' : RWUJSemaphore) (sent : Signal) : Prop where
  fits : s'.Fits (c.signal sent)
  writer : sent = .oneWriter → 0 < c.waitW
  upgrader : sent = .oneUpgrader → 0 < c.waitU
  best : s'.bestUpgrader = s.bestUpgrader
  mode : if sent = .oneUpgrader then s'.mode = .write ∧ c.wokenU = 0
    else s'.mode = s.mode ∨ (c.waitU = 0 ∧ c.wokenU = 0)

/-- The last reader, or the writer, leaves and nobody upgrades. -/
theorem leaves_last {mode : LockMode} (hmode : mode = .read ∨ mode = .write)
    (hwait : mode = .read → 0 < r → 0 < w) :
    let s : RWUJSemaphore := { mode, inside := 1, readersWaiting := r, writersWaiting := w }
    ∃ s' sent, s.unlock = some (s', sent) ∧ s.Leaves { waitR := r, waitW := w } s' sent := by
  intro s
  have hwriter (hw : 0 < w) :
      s.Leaves { waitR := r, waitW := w }
        { mode := .write, inside := 1, readersWaiting := r, writersWaiting := decrement w }
        .oneWriter := by
    refine ⟨?_, fun _ => hw, by rintro ⟨⟩, rfl, .inr ⟨rfl, rfl⟩⟩
    rw [decrement_eq hw]
    exact .writing
  rcases Nat.eq_zero_or_pos r with rfl | hr
  · rcases Nat.eq_zero_or_pos w with rfl | hw
    · refine ⟨{}, .nobody, ?_, .free, by rintro ⟨⟩, by rintro ⟨⟩, rfl, .inr ⟨rfl, rfl⟩⟩
      rcases hmode with rfl | rfl <;> rfl
    · refine ⟨_, _, ?_, hwriter hw⟩
      rcases hmode with rfl | rfl <;> simp [s, RWUJSemaphore.unlock, hw]
  · rcases hmode with rfl | rfl
    · have hw := hwait rfl hr
      refine ⟨_, _, ?_, hwriter hw⟩
      simp [s, RWUJSemaphore.unlock, hw, hr]
    · refine ⟨{ mode := .read, inside := r, writersWaiting := w }, .allReaders, ?_, ?_,
        by rintro ⟨⟩, by rintro ⟨⟩, rfl, .inr ⟨rfl, rfl⟩⟩
      · simp [s, RWUJSemaphore.unlock, hr]
      · have hfits : Fits { mode := .read, inside := r, writersWaiting := w }
          { inR := r, waitW := w } := .reading hr (by simp)
        simpa [Crowd.signal] using hfits

/-- Somebody who is not the last leaves while an upgrader waits. -/
theorem leaves_upgrading {best : Int} (hbest : best ≠ noUpgrader) :
    let s : RWUJSemaphore := { mode := .read, inside := n + k + 2, readersWaiting := r,
                               writersWaiting := w, upgraderWaiting := true, bestUpgrader := best }
    ∃ s' sent, s.unlock = some (s', sent) ∧
      s.Leaves { inR := n, wokenU := k, waitU := 1, waitR := r, waitW := w } s' sent := by
  intro s
  rcases Nat.eq_zero_or_pos (n + k) with hnk | hnk
  · obtain ⟨rfl, rfl⟩ : n = 0 ∧ k = 0 := by omega
    refine ⟨{ s with mode := .write, inside := 1 }, .oneUpgrader, ?_, .upgraded hbest, by rintro ⟨⟩,
      fun _ => Nat.zero_lt_one, rfl, rfl, rfl⟩
    simp [s, RWUJSemaphore.unlock, hbest]
  · refine ⟨{ s with inside := n + k + 1 }, .nobody, ?_, .upgrading hnk hbest, by rintro ⟨⟩,
      by rintro ⟨⟩, rfl, .inl rfl⟩
    simp [s, RWUJSemaphore.unlock]
    omega

theorem Fits.unlock_reader (h : s.Fits (c + UJPlace.reader.count)) :
    ∃ s' sent, s.unlock = some (s', sent) ∧ s.Leaves c s' sent := by
  obtain ⟨waitR, waitW, inR, inW, waitU, wokenU⟩ := c
  generalize hd : Crowd.mk waitR waitW inR inW waitU wokenU + UJPlace.reader.count = d at h
  cases h with
  | free => cases hd
  | upgraded => cases hd
  | writing => cases hd
  | reading hn hwait =>
    cases hd
    rcases Nat.eq_zero_or_pos inR with rfl | hin
    · exact leaves_last (.inl rfl) fun _ => hwait
    · refine ⟨{ mode := .read, inside := inR, readersWaiting := waitR, writersWaiting := waitW },
        .nobody, ?_, .reading hin hwait, nofun, nofun, rfl, .inl rfl⟩
      show RWUJSemaphore.unlock
        { mode := .read, inside := inR + 1, readersWaiting := waitR, writersWaiting := waitW } = _
      by_cases hone : inR = 1
      · simp [RWUJSemaphore.unlock, hone]
      · simp [RWUJSemaphore.unlock, hone, Nat.ne_of_gt hin]
  | upgrading hn hbest =>
    cases hd
    have hinside : inR + 1 + wokenU + 1 = inR + wokenU + 2 := by omega
    have hleaves := leaves_upgrading (n := inR) (k := wokenU) (r := waitR) (w := waitW) hbest
    rw [← hinside] at hleaves
    exact hleaves

/-- An upgrader that was not the best leaves. -/
theorem Fits.unlock_upgrader (h : s.Fits (c + (UJPlace.wokenUpgrader prio).count))
    (hmode : s.mode = .read) :
    ∃ s' sent, s.unlock = some (s', sent) ∧ s.Leaves c s' sent := by
  obtain ⟨waitR, waitW, inR, inW, waitU, wokenU⟩ := c
  generalize hd : Crowd.mk waitR waitW inR inW waitU wokenU +
    (UJPlace.wokenUpgrader prio).count = d at h
  cases h with
  | free => cases hd
  | upgraded => cases hmode
  | writing => cases hd
  | reading => cases hd
  | upgrading hn hbest =>
    cases hd
    exact leaves_upgrading (n := inR) (k := wokenU) (r := waitR) (w := waitW) hbest

theorem Fits.unlock_writer (h : s.Fits (c + UJPlace.writer.count)) :
    ∃ s' sent, s.unlock = some (s', sent) ∧ s.Leaves c s' sent := by
  obtain ⟨waitR, waitW, inR, inW, waitU, wokenU⟩ := c
  generalize hd : Crowd.mk waitR waitW inR inW waitU wokenU + UJPlace.writer.count = d at h
  cases h with
  | free => cases hd
  | upgraded => cases hd
  | upgrading => cases hd
  | reading => cases hd
  | writing =>
    cases hd
    exact leaves_last (.inr rfl) nofun

/-- A reader asks for the upgrade: it is alone, it waits (and then an upgrader
that waited is woken to go), or it has to go itself. -/
theorem Fits.lockUpgrade (h : s.Fits (c + UJPlace.reader.count)) (hprio : prio ≠ noUpgrader)
    (hne : 0 < c.waitU → s.bestUpgrader ≠ prio) :
    (∃ s', s.lockUpgrade prio = some (s', .granted, .nobody) ∧ s'.Fits (c + UJPlace.writer.count) ∧
      s'.mode = .write ∧ c.inside = 0) ∨
    (∃ s' sent, s.lockUpgrade prio = some (s', .waits, sent) ∧
      s'.Fits (c.signal sent + (UJPlace.waitingUpgrader prio).count) ∧ s'.mode = .read ∧
      s'.bestUpgrader = prio ∧ s.mode = .read ∧
      (sent = .nobody ∧ c.waitU = 0 ∧ c.wokenU = 0 ∨
        sent = .oneUpgrader ∧ 0 < c.waitU ∧ prio < s.bestUpgrader)) ∨
    (∃ s' sent, s.lockUpgrade prio = some (s', .expelled, sent) ∧ s.Leaves c s' sent ∧
      0 < c.waitU ∧ s.bestUpgrader < prio) := by
  have hunlock := h.unlock_reader
  obtain ⟨waitR, waitW, inR, inW, waitU, wokenU⟩ := c
  generalize hd : Crowd.mk waitR waitW inR inW waitU wokenU + UJPlace.reader.count = d at h
  cases h with
  | free => cases hd
  | upgraded => cases hd
  | writing => cases hd
  | reading hn hwait =>
    cases hd
    rcases Nat.eq_zero_or_pos inR with rfl | hin
    · exact .inl ⟨_, rfl, .writing, rfl, rfl⟩
    · refine .inr (.inl ⟨{ mode := .read, inside := inR + 1, readersWaiting := waitR,
                           writersWaiting := waitW, upgraderWaiting := true, bestUpgrader := prio },
        .nobody, ?_, .upgrading (n := inR) (k := 0) hin hprio, rfl, rfl, rfl,
        .inl ⟨rfl, rfl, rfl⟩⟩)
      show RWUJSemaphore.lockUpgrade
        { mode := .read, inside := inR + 1, readersWaiting := waitR, writersWaiting := waitW }
          prio = _
      simp [RWUJSemaphore.lockUpgrade, Nat.ne_of_gt hin]
  | @upgrading n k r w best hn hbest =>
    cases hd
    have hne : best ≠ prio := hne Nat.zero_lt_one
    let s : RWUJSemaphore :=
      { mode := .read, inside := inR + 1 + wokenU + 1, readersWaiting := waitR,
        writersWaiting := waitW, upgraderWaiting := true, bestUpgrader := best }
    rcases lt_or_ge prio best with hlt | hle
    · refine .inr (.inl ⟨{ s with bestUpgrader := prio }, .oneUpgrader, ?_, ?_, rfl, rfl, rfl,
        .inr ⟨rfl, Nat.zero_lt_one, hlt⟩⟩)
      · show s.lockUpgrade prio = _
        simp [s, RWUJSemaphore.lockUpgrade, hbest, hne, hlt]
      · have hfits : Fits { s with inside := inR + (wokenU + 1) + 1, bestUpgrader := prio }
            { inR := inR, wokenU := wokenU + 1, waitU := 1, waitR := waitR, waitW := waitW } :=
          .upgrading (Nat.succ_pos _) hprio
        have hinside : inR + (wokenU + 1) + 1 = inR + 1 + wokenU + 1 := by omega
        rw [hinside] at hfits
        exact hfits
    · obtain ⟨s', sent, hunlock, hleaves⟩ := hunlock
      replace hunlock : s.unlock = some (s', sent) := hunlock
      refine .inr (.inr ⟨s', sent, ?_, hleaves, Nat.zero_lt_one, lt_of_le_of_ne hle hne⟩)
      show s.lockUpgrade prio = _
      simp only [s] at hunlock
      simp [s, RWUJSemaphore.lockUpgrade, hbest, hne, not_lt.mpr hle, hunlock]

/-- The upgrader that was woken alone inside becomes the writer. -/
theorem Fits.wokenUpgrade_best (h : s.Fits (c + (UJPlace.wokenUpgrader prio).count))
    (hmode : s.mode = .write) (hprio : s.bestUpgrader = prio) :
    ∃ s', s.wokenUpgrade prio = some (s', .granted, .nobody) ∧
      s'.Fits (c + UJPlace.writer.count) ∧ s'.mode = .write ∧ c.inside = 0 := by
  obtain ⟨waitR, waitW, inR, inW, waitU, wokenU⟩ := c
  generalize hd : Crowd.mk waitR waitW inR inW waitU wokenU +
    (UJPlace.wokenUpgrader prio).count = d at h
  cases h with
  | free => cases hd
  | upgrading => cases hmode
  | writing => cases hd
  | reading => cases hd
  | @upgraded r w best hbest =>
    cases hd
    have hprio : best = prio := hprio
    subst hprio
    exact ⟨{ mode := .write, inside := 1, readersWaiting := waitR, writersWaiting := waitW },
      by simp [wokenUpgrade], .writing, rfl, rfl⟩

/-- An upgrader that was woken to go leaves. -/
theorem Fits.wokenUpgrade_worse (h : s.Fits (c + (UJPlace.wokenUpgrader prio).count))
    (hmode : s.mode = .read) (hprio : s.bestUpgrader ≠ prio) :
    ∃ s' sent, s.wokenUpgrade prio = some (s', .expelled, sent) ∧ s.Leaves c s' sent ∧
      0 < c.waitU := by
  obtain ⟨s', sent, hunlock, hleaves⟩ := h.unlock_upgrader hmode
  refine ⟨s', sent, ?_, hleaves, ?_⟩
  · generalize hd : c + (UJPlace.wokenUpgrader prio).count = d at h
    cases h with
    | free => cases hmode
    | upgraded => cases hmode
    | writing => cases hmode
    | reading => exact absurd (congrArg Crowd.wokenU hd) (Nat.succ_ne_zero _)
    | upgrading hn hbest => simp [wokenUpgrade, hunlock, hprio, hbest]
  · generalize hd : c + (UJPlace.wokenUpgrader prio).count = d at h
    cases h with
    | free => cases hmode
    | upgraded => cases hmode
    | writing => cases hmode
    | reading => exact absurd (congrArg Crowd.wokenU hd) (Nat.succ_ne_zero _)
    | upgrading hn hbest =>
      have hone : c.waitU = 1 := congrArg Crowd.waitU hd
      exact hone ▸ Nat.zero_lt_one

end RWUJSemaphore

-- ---------------------------------------------------------------------------
-- Every interleaving
-- ---------------------------------------------------------------------------

namespace RWUJMonitor

variable {T : Type} [Fintype T]

def crowd (pc : T → UJPlace) : Crowd where
  waitR := tally pc UJPlace.waitsRead
  waitW := tally pc UJPlace.waitsWrite
  inR := tally pc UJPlace.readsInside
  inW := tally pc UJPlace.writesInside
  waitU := tally pc UJPlace.waitsUpgrade
  wokenU := tally pc UJPlace.wokenUpgrade

/-- The upgrader that waits is the best one. One that was woken is the best one
too if it was woken to write, else it has to go. -/
structure Ranked (s : RWUJSemaphore) (pc : T → UJPlace) : Prop where
  waiting : ∀ t p, pc t = .waitingUpgrader p → p = s.bestUpgrader
  woken : ∀ t p, pc t = .wokenUpgrader p →
    if s.mode = .write then p = s.bestUpgrader else s.bestUpgrader < p

structure Inv (m : RWUJMonitor T) : Prop where
  fits : m.sem.Fits (crowd m.pc)
  ranked : Ranked m.sem m.pc

theorem crowd_out : crowd (fun _ : T => UJPlace.out) = {} := by
  have hzero (P : UJPlace → Bool) (hP : P .out = false) :
      tally (fun _ : T => UJPlace.out) P = 0 := tally_eq_zero.mpr fun _ => hP
  ext <;> exact hzero _ rfl

theorem inv_init : ({} : RWUJMonitor T).Inv := by
  refine ⟨?_, nofun, nofun⟩
  show RWUJSemaphore.Fits {} (crowd fun _ : T => UJPlace.out)
  rw [crowd_out]
  exact .free

variable [DecidableEq T] {m m' : RWUJMonitor T} {t : T} {pc : T → UJPlace} {woken : Woken T}
  {s s' : RWUJSemaphore} {sent : Signal}

/-- The crowd without one thread. -/
def others (pc : T → UJPlace) (t : T) : Crowd := crowd (Function.update pc t .out)

theorem crowd_update (pc : T → UJPlace) (t : T) (b : UJPlace) :
    crowd (Function.update pc t b) = others pc t + b.count := by
  have htally (P : UJPlace → Bool) (hP : P .out = false) :
      tally (Function.update pc t b) P = tally (Function.update pc t .out) P + (P b).toNat := by
    have hmove : tally (Function.update (Function.update pc t .out) t b) P +
        (P (Function.update pc t .out t)).toNat =
        tally (Function.update pc t .out) P + (P b).toNat := tally_update t b
    rw [Function.update_idem, Function.update_self, hP] at hmove
    exact hmove
  ext <;> exact htally _ rfl

theorem crowd_eq (pc : T → UJPlace) (t : T) : crowd pc = others pc t + (pc t).count := by
  rw [← crowd_update, Function.update_eq_self]

/-- A signal that finds somebody changes the crowd as it should. -/
theorem crowd_signal (hreach : Reached pc woken) (hw : sent = .oneWriter → 0 < (crowd pc).waitW)
    (hu : sent = .oneUpgrader → 0 < (crowd pc).waitU) :
    crowd (signal pc woken sent) = (crowd pc).signal sent := by
  cases sent with
  | nobody => rfl
  | oneWriter =>
    have hwaits := hreach.1 (tally_pos.mp (hw rfl))
    have hpc : pc woken.writer = .waitingWriter := by
      cases h : pc woken.writer <;> simp_all [UJPlace.waitsWrite]
    show crowd (Function.update pc _ _) = _
    rw [crowd_update, crowd_eq pc woken.writer, hpc]
    ext <;> simp [Crowd.signal, UJPlace.wakeWriter]
  | oneUpgrader =>
    have hwaits := hreach.2 (tally_pos.mp (hu rfl))
    obtain ⟨prio, hpc⟩ : ∃ prio, pc woken.upgrader = .waitingUpgrader prio := by
      cases h : pc woken.upgrader <;> simp_all [UJPlace.waitsUpgrade]
    show crowd (Function.update pc _ _) = _
    rw [crowd_update, crowd_eq pc woken.upgrader, hpc]
    ext <;> simp [Crowd.signal, UJPlace.wakeUpgrader]
  | allReaders =>
    have hsame (P : UJPlace → Bool) (hP : ∀ p : UJPlace, P p.wakeReader = P p) :
        tally (fun u => (pc u).wakeReader) P = tally pc P := by
      show tally pc (fun p => P p.wakeReader) = tally pc P
      exact tally_congr fun u => hP (pc u)
    have hread : tally (fun u => (pc u).wakeReader) UJPlace.readsInside =
        tally pc UJPlace.readsInside + tally pc UJPlace.waitsRead := by
      have hor : tally pc (fun p => p.readsInside || p.waitsRead) =
          tally pc UJPlace.readsInside + tally pc UJPlace.waitsRead := by
        apply tally_or
        rintro (_ | _ | _ | _ | _ | _ | _ | _ | _) hp <;> first | rfl | cases hp
      rw [← hor]
      show tally pc (fun p => p.wakeReader.readsInside) = _
      refine tally_congr fun u => ?_
      cases pc u <;> rfl
    ext
    · refine tally_eq_zero.mpr fun u => ?_
      show (pc u).wakeReader.waitsRead = false
      cases pc u <;> rfl
    · exact hsame _ fun p => by cases p <;> rfl
    · exact hread
    · exact hsame _ fun p => by cases p <;> rfl
    · exact hsame _ fun p => by cases p <;> rfl
    · exact hsame _ fun p => by cases p <;> rfl

omit [Fintype T] in
/-- Who is not waiting itself can be left out when a signal looks for somebody. -/
theorem reached_others {P : UJPlace → Bool} {v : T} (hout : P .out = false) (ht : P (pc t) = false)
    (h : (∃ u, P (pc u) = true) → P (pc v) = true)
    (hu : ∃ u, P (Function.update pc t .out u) = true) :
    v ≠ t ∧ P (Function.update pc t .out v) = true := by
  obtain ⟨u, hu⟩ := hu
  have hv : P (pc v) = true := by
    refine h ⟨u, ?_⟩
    rcases eq_or_ne u t with rfl | hne
    · rw [Function.update_self, hout] at hu
      cases hu
    · rwa [Function.update_of_ne hne] at hu
  have hne : v ≠ t := by
    rintro rfl
    rw [ht] at hv
    cases hv
  rw [Function.update_of_ne hne]
  exact ⟨hne, hv⟩

/-- Nobody on a condition variable. -/
def Awake (p : UJPlace) : Prop :=
  p.waitsRead = false ∧ p.waitsWrite = false ∧ p.waitsUpgrade = false

theorem others_signal (ht : Awake (pc t)) (hreach : Reached pc woken)
    (hwriter : sent = .oneWriter → 0 < (others pc t).waitW)
    (hupgrader : sent = .oneUpgrader → 0 < (others pc t).waitU) :
    others (signal pc woken sent) t = (others pc t).signal sent := by
  have hw := reached_others rfl ht.2.1 hreach.1
  have hu := reached_others rfl ht.2.2 hreach.2
  have hswap : Function.update (signal pc woken sent) t .out =
      signal (Function.update pc t .out) woken sent := by
    cases sent with
    | nobody => rfl
    | oneWriter =>
      have hne := (hw (tally_pos.mp (hwriter rfl))).1
      simp only [signal, Function.update_of_ne hne]
      exact Function.update_comm hne _ _ _
    | oneUpgrader =>
      have hne := (hu (tally_pos.mp (hupgrader rfl))).1
      simp only [signal, Function.update_of_ne hne]
      exact Function.update_comm hne _ _ _
    | allReaders =>
      funext u
      rcases eq_or_ne u t with rfl | hne
      · simp [signal, UJPlace.wakeReader]
      · simp [signal, hne]
  unfold others
  rw [hswap]
  exact crowd_signal ⟨fun h => (hw h).2, fun h => (hu h).2⟩ hwriter hupgrader

omit [DecidableEq T] in
theorem ranked_none (hwait : (crowd pc).waitU = 0) (hwoken : (crowd pc).wokenU = 0) :
    Ranked s pc := by
  constructor
  · intro t p hp
    have hno := tally_eq_zero.mp hwait t
    rw [hp] at hno
    cases hno
  · intro t p hp
    have hno := tally_eq_zero.mp hwoken t
    rw [hp] at hno
    cases hno

omit [Fintype T] in
/-- A thread that does not upgrade moves and the others keep their ranks. -/
theorem Ranked.update {b : UJPlace} (h : Ranked s pc) (hwait : b.waitsUpgrade = false)
    (hwoken : b.wokenUpgrade = false) (hbest : s'.bestUpgrader = s.bestUpgrader)
    (hmode : s'.mode = s.mode) : Ranked s' (Function.update pc t b) := by
  constructor
  · intro u p hp
    rcases eq_or_ne u t with rfl | hne
    · rw [Function.update_self] at hp
      rw [hp] at hwait
      cases hwait
    · rw [Function.update_of_ne hne] at hp
      rw [hbest]
      exact h.waiting u p hp
  · intro u p hp
    rcases eq_or_ne u t with rfl | hne
    · rw [Function.update_self] at hp
      rw [hp] at hwoken
      cases hwoken
    · rw [Function.update_of_ne hne] at hp
      rw [hbest, hmode]
      exact h.woken u p hp

theorem others_out (ht : pc t = .out) : others pc t = crowd pc := by
  unfold others
  rw [← ht, Function.update_eq_self]

/-- A thread comes in or begins to wait. -/
theorem Inv.enter {b : UJPlace} (h : m.Inv) (ht : m.pc t = .out) (hwait : b.waitsUpgrade = false)
    (hwoken : b.wokenUpgrade = false) (hfits : s'.Fits (crowd m.pc + b.count))
    (hbest : s'.bestUpgrader = m.sem.bestUpgrader)
    (hmode : s'.mode = m.sem.mode ∨ m.sem.mode = .none) :
    Inv ⟨s', Function.update m.pc t b⟩ := by
  have hcrowd : crowd (Function.update m.pc t b) = crowd m.pc + b.count := by
    rw [crowd_update, others_out ht]
  refine ⟨hcrowd ▸ hfits, ?_⟩
  rcases hmode with hmode | hmode
  · exact h.ranked.update hwait hwoken hbest hmode
  · have hempty := (h.fits.none hmode).2
    apply ranked_none
    · simp [hcrowd, hempty, UJPlace.count, hwait]
    · simp [hcrowd, hempty, UJPlace.count, hwoken]

theorem Inv.lockRead (h : m.Inv) (ht : m.pc t = .out) (hw : (crowd m.pc).waitR < countersMax)
    (hi : (crowd m.pc).inside < countersMax) :
    ∃ m', m.step (.lockRead t) = some m' ∧ m'.Inv := by
  obtain ⟨s', entered, hlock, hfits, hbest, hmode⟩ := h.fits.lockRead hw hi
  refine ⟨_, by simp [step, hlock], h.enter ht ?_ ?_ hfits hbest hmode⟩
  · cases entered <;> rfl
  · cases entered <;> rfl

theorem Inv.lockWrite (h : m.Inv) (ht : m.pc t = .out) (hw : (crowd m.pc).waitW < countersMax) :
    ∃ m', m.step (.lockWrite t) = some m' ∧ m'.Inv := by
  obtain ⟨s', entered, hlock, hfits, hbest, hmode⟩ := h.fits.lockWrite hw
  refine ⟨_, by simp [step, hlock], h.enter ht ?_ ?_ hfits hbest hmode⟩
  · cases entered <;> rfl
  · cases entered <;> rfl

theorem Inv.tryLockWrite (h : m.Inv) (ht : m.pc t = .out) :
    ∃ m', m.step (.tryLockWrite t) = some m' ∧ m'.Inv := by
  obtain ⟨s', entered, hlock, hfits, hbest, hmode⟩ := h.fits.tryLockWrite
  refine ⟨_, by simp [step, hlock], h.enter ht ?_ ?_ hfits hbest hmode⟩
  · cases entered <;> rfl
  · cases entered <;> rfl

omit [Fintype T] in
/-- Other signals leave the upgraders alone. -/
theorem Ranked.signal (h : Ranked s pc) (hsent : sent ≠ .oneUpgrader) :
    Ranked s (signal pc woken sent) := by
  have hsame (u : T) : (RWUJMonitor.signal pc woken sent u).waitsUpgrade = true ∨
      (RWUJMonitor.signal pc woken sent u).wokenUpgrade = true →
      RWUJMonitor.signal pc woken sent u = pc u := by
    cases sent with
    | nobody => exact fun _ => rfl
    | oneUpgrader => exact absurd rfl hsent
    | allReaders =>
      show (pc u).wakeReader.waitsUpgrade = true ∨ (pc u).wakeReader.wokenUpgrade = true →
        (pc u).wakeReader = pc u
      cases pc u <;> simp [UJPlace.wakeReader, UJPlace.waitsUpgrade, UJPlace.wokenUpgrade]
    | oneWriter =>
      simp only [RWUJMonitor.signal]
      rcases eq_or_ne u woken.writer with rfl | hne
      · rw [Function.update_self]
        cases pc woken.writer <;>
          simp [UJPlace.wakeWriter, UJPlace.waitsUpgrade, UJPlace.wokenUpgrade]
      · rw [Function.update_of_ne hne]
        exact fun _ => rfl
  constructor
  · intro u p hp
    exact h.waiting u p ((hsame u (.inl (by rw [hp]; rfl))).symm.trans hp)
  · intro u p hp
    exact h.woken u p ((hsame u (.inr (by rw [hp]; rfl))).symm.trans hp)

omit [Fintype T] in
/-- Who still waits for an upgrade after the signal waited before. -/
theorem waiting_signal {u : T} {p : Int}
    (h : signal pc woken .oneUpgrader u = .waitingUpgrader p) : pc u = .waitingUpgrader p := by
  rcases eq_or_ne u woken.upgrader with rfl | hne
  · simp only [signal, Function.update_self] at h
    cases hpc : pc woken.upgrader <;> simp_all [UJPlace.wakeUpgrader]
  · simpa [signal, hne] using h

omit [Fintype T] in
/-- Who has been woken by the signal or before it. -/
theorem woken_signal {u : T} {p : Int} (h : signal pc woken .oneUpgrader u = .wokenUpgrader p) :
    pc u = .waitingUpgrader p ∨ pc u = .wokenUpgrader p := by
  rcases eq_or_ne u woken.upgrader with rfl | hne
  · simp only [signal, Function.update_self] at h
    cases hpc : pc woken.upgrader <;> simp_all [UJPlace.wakeUpgrader]
  · exact .inr (by simpa [signal, hne] using h)

omit [Fintype T] in
/-- An upgrader that waits still waits, or is woken. -/
theorem upgrader_signal {u : T} {p : Int} (h : pc u = .waitingUpgrader p) :
    signal pc woken sent u = .waitingUpgrader p ∨ signal pc woken sent u = .wokenUpgrader p := by
  cases sent with
  | nobody => exact .inl h
  | allReaders => exact .inl (by simp [signal, h, UJPlace.wakeReader])
  | oneWriter =>
    refine .inl ?_
    rcases eq_or_ne u woken.writer with rfl | hne
    · simp [signal, h, UJPlace.wakeWriter]
    · simp [signal, hne, h]
  | oneUpgrader =>
    rcases eq_or_ne u woken.upgrader with rfl | hne
    · exact .inr (by simp [signal, h, UJPlace.wakeUpgrader])
    · exact .inl (by simp [signal, hne, h])

theorem Ranked.exists_best (h : Ranked s pc) (hpos : 0 < (others pc t).waitU) :
    ∃ u, u ≠ t ∧ pc u = .waitingUpgrader s.bestUpgrader := by
  obtain ⟨u, hu⟩ := tally_pos.mp hpos
  have hne : u ≠ t := by
    rintro rfl
    rw [Function.update_self] at hu
    cases hu
  rw [Function.update_of_ne hne] at hu
  refine ⟨u, hne, ?_⟩
  cases hpc : pc u with
  | waitingUpgrader p => rw [h.waiting u p hpc]
  | _ => simp [hpc, UJPlace.waitsUpgrade] at hu

/-- A thread leaves and the signal it sends arrives. -/
theorem Inv.leave (h : m.Inv) (ht : Awake (m.pc t)) (hreach : Reached m.pc woken)
    (hleaves : m.sem.Leaves (others m.pc t) s' sent) :
    Inv ⟨s', Function.update (signal m.pc woken sent) t .out⟩ := by
  have hcrowd : crowd (Function.update (signal m.pc woken sent) t .out) =
      (others m.pc t).signal sent := others_signal ht hreach hleaves.writer hleaves.upgrader
  refine ⟨hcrowd ▸ hleaves.fits, ?_⟩
  show Ranked s' (Function.update (RWUJMonitor.signal m.pc woken sent) t .out)
  have hmode := hleaves.mode
  by_cases hsent : sent = .oneUpgrader
  · subst hsent
    obtain ⟨hwrite, hnone⟩ := hmode
    have hother (u : T) (hu : u ≠ t) (p : Int) : m.pc u ≠ .wokenUpgrader p := by
      intro hp
      have hno := tally_eq_zero.mp hnone u
      rw [Function.update_of_ne hu, hp] at hno
      cases hno
    constructor
    · intro u p hp
      rcases eq_or_ne u t with rfl | hu
      · simp at hp
      · rw [Function.update_of_ne hu] at hp
        rw [hleaves.best]
        exact h.ranked.waiting u p (waiting_signal hp)
    · intro u p hp
      rcases eq_or_ne u t with rfl | hu
      · simp at hp
      · rw [Function.update_of_ne hu] at hp
        rcases woken_signal hp with hp | hp
        · rw [if_pos hwrite, hleaves.best]
          exact h.ranked.waiting u p hp
        · exact absurd hp (hother u hu p)
  · rw [if_neg hsent] at hmode
    rcases hmode with hmode | ⟨hw₀, hk₀⟩
    · exact (h.ranked.signal hsent).update rfl rfl hleaves.best hmode
    · apply ranked_none
      · rw [hcrowd]
        cases sent <;> first | exact hw₀ | exact absurd rfl hsent
      · rw [hcrowd]
        cases sent <;> first | exact hk₀ | exact absurd rfl hsent

theorem Inv.unlock (h : m.Inv) (ht : m.pc t = .reader ∨ m.pc t = .writer)
    (hreach : Reached m.pc woken) : ∃ m', m.step (.unlock t woken) = some m' ∧ m'.Inv := by
  have hfits := h.fits
  rw [crowd_eq m.pc t] at hfits
  rcases ht with ht | ht
  · rw [ht] at hfits
    obtain ⟨s', sent, hunlock, hleaves⟩ := hfits.unlock_reader
    refine ⟨_, by simp [step, hunlock], h.leave ?_ hreach hleaves⟩
    rw [ht]
    exact ⟨rfl, rfl, rfl⟩
  · rw [ht] at hfits
    obtain ⟨s', sent, hunlock, hleaves⟩ := hfits.unlock_writer
    refine ⟨_, by simp [step, hunlock], h.leave ?_ hreach hleaves⟩
    rw [ht]
    exact ⟨rfl, rfl, rfl⟩

/-- The caller is the writer and nobody else is inside. -/
def Won (m : RWUJMonitor T) (t : T) : Prop :=
  m.pc t = .writer ∧ m.sem.mode = .write ∧ ∀ u, u ≠ t → (m.pc u).inside = false

/-- The caller is out and an upgrader with a smaller priority is inside. -/
def Lost (m : RWUJMonitor T) (t : T) (prio : Int) : Prop :=
  m.pc t = .out ∧ ∃ u best, best < prio ∧
    (m.pc u = .waitingUpgrader best ∨ m.pc u = .wokenUpgrader best)

/-- The caller waits, as the only one with a chance. -/
def Waits (m : RWUJMonitor T) (t : T) (prio : Int) : Prop :=
  m.pc t = .waitingUpgrader prio ∧ ∀ u, (m.pc u).waitsUpgrade = true → u = t

theorem others_inside {u : T} (hne : u ≠ t) (halone : (others pc t).inside = 0) :
    (pc u).inside = false := by
  have hzero (P : UJPlace → Bool) (h : tally (Function.update pc t .out) P = 0) :
      P (pc u) = false := by
    have hno := tally_eq_zero.mp h u
    rwa [Function.update_of_ne hne] at hno
  simp only [Crowd.inside, others, crowd] at halone
  simp [UJPlace.inside, UJPlace.holdsRead, hzero UJPlace.readsInside (by omega), hzero UJPlace.writesInside (by omega),
    hzero UJPlace.waitsUpgrade (by omega), hzero UJPlace.wokenUpgrade (by omega)]

/-- Who has to go leaves the better upgrader behind. -/
theorem Inv.lost {prio : Int} (h : m.Inv) (hpos : 0 < (others m.pc t).waitU)
    (hlt : m.sem.bestUpgrader < prio) :
    Lost ⟨s', Function.update (signal m.pc woken sent) t .out⟩ t prio := by
  obtain ⟨u, hu, hpc⟩ := h.ranked.exists_best hpos
  refine ⟨Function.update_self .., u, m.sem.bestUpgrader, hlt, ?_⟩
  simp only [Function.update_of_ne hu]
  exact upgrader_signal hpc

/-- An upgrader that is alone inside becomes the writer. -/
theorem inv_grant (hfits : s'.Fits (others pc t + UJPlace.writer.count))
    (hmode : s'.mode = .write) (halone : (others pc t).inside = 0) :
    let m' : RWUJMonitor T := ⟨s', Function.update pc t .writer⟩
    m'.Inv ∧ m'.Won t := by
  have hcrowd := crowd_update pc t .writer
  have hout : (others pc t).waitU = 0 ∧ (others pc t).wokenU = 0 := by
    unfold Crowd.inside at halone
    omega
  refine ⟨⟨hcrowd ▸ hfits, ranked_none ?_ ?_⟩, Function.update_self .., hmode, ?_⟩
  · simp only [hcrowd, Crowd.waitU_add, hout.1]
    rfl
  · simp only [hcrowd, Crowd.wokenU_add, hout.2]
    rfl
  · intro u hu
    simp only [Function.update_of_ne hu]
    exact others_inside hu halone

theorem Inv.lockUpgrade {prio : Int} (h : m.Inv) (ht : m.pc t = .reader)
    (hprio : prio ≠ noUpgrader) (hne : ∀ u, m.pc u ≠ .waitingUpgrader prio)
    (hreach : Reached m.pc woken) :
    ∃ m', m.step (.lockUpgrade t prio woken) = some m' ∧ m'.Inv ∧
      (m'.Won t ∨ m'.Lost t prio ∨ m'.Waits t prio) := by
  have hfits := h.fits
  rw [crowd_eq m.pc t, ht] at hfits
  have hawake : Awake (m.pc t) := by
    rw [ht]
    exact ⟨rfl, rfl, rfl⟩
  have hbest (hpos : 0 < (others m.pc t).waitU) : m.sem.bestUpgrader ≠ prio := by
    obtain ⟨u, -, hu⟩ := h.ranked.exists_best hpos
    rintro rfl
    exact hne u hu
  rcases hfits.lockUpgrade hprio hbest with ⟨s', hlock, hfits', hmode', halone⟩ |
    ⟨s', sent, hlock, hfits', hmode', hprio', hmode, hsent⟩ | ⟨s', sent, hlock, hleaves, hpos, hlt⟩
  · obtain ⟨hinv, hwon⟩ := inv_grant hfits' hmode' halone
    exact ⟨_, by simp [step, hlock, signal, upgraded], hinv, .inl hwon⟩
  · let pc' := Function.update (signal m.pc woken sent) t (.waitingUpgrader prio)
    have hcrowd : crowd pc' =
        (others m.pc t).signal sent + (UJPlace.waitingUpgrader prio).count := by
      rw [crowd_update, others_signal hawake hreach]
      · rintro rfl
        rcases hsent with ⟨h, -⟩ | ⟨h, -⟩ <;> cases h
      · rintro rfl
        rcases hsent with ⟨h, -⟩ | ⟨-, hpos, -⟩
        · cases h
        · exact hpos
    have hself : pc' t = .waitingUpgrader prio := Function.update_self ..
    have hone : tally pc' UJPlace.waitsUpgrade = 1 := by
      have hle : (crowd pc').waitU ≤ 1 := hcrowd ▸ hfits'.waitU_le
      have hpos : 0 < tally pc' UJPlace.waitsUpgrade :=
        tally_pos.mpr ⟨t, by rw [hself]; rfl⟩
      exact Nat.le_antisymm hle hpos
    have honly (u : T) (hu : (pc' u).waitsUpgrade = true) : u = t :=
      tally_one_unique hone hu (by rw [hself]; rfl)
    have hranked : Ranked s' pc' := by
      constructor
      · intro u p hp
        obtain rfl := honly u (by rw [hp]; rfl)
        rw [hself] at hp
        cases hp
        exact hprio'.symm
      · intro u p hp
        have hu : u ≠ t := by
          rintro rfl
          rw [hself] at hp
          cases hp
        have hp : signal m.pc woken sent u = .wokenUpgrader p := by
          rwa [show pc' u = _ from Function.update_of_ne hu ..] at hp
        rw [hmode', hprio']
        show prio < p
        rcases hsent with ⟨rfl, -, hnone⟩ | ⟨rfl, -, hlt⟩
        · have hno := tally_eq_zero.mp hnone u
          rw [Function.update_of_ne hu, show m.pc u = _ from hp] at hno
          cases hno
        · rcases woken_signal hp with hp | hp
          · rwa [h.ranked.waiting u p hp]
          · have hworse := h.ranked.woken u p hp
            rw [hmode] at hworse
            exact lt_trans hlt hworse
    exact ⟨⟨s', pc'⟩, by simp [step, hlock, upgraded, pc'], ⟨hcrowd ▸ hfits', hranked⟩,
      .inr (.inr ⟨hself, honly⟩)⟩
  · exact ⟨_, by simp [step, hlock, upgraded], h.leave hawake hreach hleaves,
      .inr (.inl (h.lost hpos hlt))⟩

/-- A thread that was let in goes on. -/
theorem Inv.move {b : UJPlace} (h : m.Inv) (hcount : b.count = (m.pc t).count)
    (hwait : b.waitsUpgrade = false) (hwoken : b.wokenUpgrade = false) :
    Inv ⟨m.sem, Function.update m.pc t b⟩ := by
  refine ⟨?_, h.ranked.update hwait hwoken rfl rfl⟩
  show m.sem.Fits (crowd (Function.update m.pc t b))
  rw [crowd_update, hcount, ← crowd_eq]
  exact h.fits

/-- An upgrader wakes up. -/
theorem Inv.resume_upgrader {prio : Int} (h : m.Inv) (ht : m.pc t = .wokenUpgrader prio)
    (hreach : Reached m.pc woken) :
    ∃ m', m.step (.resume t woken) = some m' ∧ m'.Inv ∧
      if prio = m.sem.bestUpgrader then m'.Won t else m'.Lost t prio := by
  have hfits := h.fits
  rw [crowd_eq m.pc t, ht] at hfits
  have hrank := h.ranked.woken t prio ht
  have hawake : Awake (m.pc t) := by
    rw [ht]
    exact ⟨rfl, rfl, rfl⟩
  by_cases hmode : m.sem.mode = .write
  · rw [if_pos hmode] at hrank
    obtain ⟨s', hwoken, hfits', hmode', halone⟩ := hfits.wokenUpgrade_best hmode hrank.symm
    obtain ⟨hinv, hwon⟩ := inv_grant hfits' hmode' halone
    refine ⟨_, ?_, hinv, ?_⟩
    · simp [step, ht, hwoken, signal, upgraded]
    · rwa [if_pos hrank]
  · rw [if_neg hmode] at hrank
    have hread : m.sem.mode = .read := by
      cases hm : m.sem.mode with
      | read => rfl
      | write => exact absurd hm hmode
      | none =>
        have hempty := (hfits.none hm).2
        exact absurd (congrArg Crowd.wokenU hempty) (Nat.succ_ne_zero _)
    obtain ⟨s', sent, hwoken, hleaves, hpos⟩ := hfits.wokenUpgrade_worse hread (ne_of_lt hrank)
    refine ⟨_, ?_, h.leave hawake hreach hleaves, ?_⟩
    · simp [step, ht, hwoken, upgraded]
    · rw [if_neg (ne_of_gt hrank)]
      exact h.lost hpos hrank

theorem Inv.resume (h : m.Inv) (ht : m.pc t = .wokenReader ∨ m.pc t = .wokenWriter ∨
    (m.pc t).wokenUpgrade = true) (hreach : Reached m.pc woken) :
    ∃ m', m.step (.resume t woken) = some m' ∧ m'.Inv := by
  rcases ht with ht | ht | ht
  · have hpos : 0 < (crowd m.pc).inR := tally_pos.mpr ⟨t, by rw [ht]; rfl⟩
    obtain ⟨hmode, hinside⟩ := h.fits.reads hpos
    refine ⟨_, ?_, h.move (t := t) (b := .reader) (by rw [ht]; rfl) rfl rfl⟩
    simp [step, ht, RWSemaphore.wokenRead, RWSemaphore.assert, hmode, hinside]
  · have hpos : 0 < (crowd m.pc).inW := tally_pos.mpr ⟨t, by rw [ht]; rfl⟩
    obtain ⟨hmode, hinside⟩ := h.fits.writes hpos
    refine ⟨_, ?_, h.move (t := t) (b := .writer) (by rw [ht]; rfl) rfl rfl⟩
    simp [step, ht, RWSemaphore.wokenWrite, RWSemaphore.assert, hmode, hinside]
  · obtain ⟨prio, hprio⟩ : ∃ prio, m.pc t = .wokenUpgrader prio := by
      cases hpc : m.pc t <;> simp_all [UJPlace.wokenUpgrade]
    obtain ⟨m', hm', hinv, -⟩ := h.resume_upgrader hprio hreach
    exact ⟨m', hm', hinv⟩

/-- The counters of the semaphore can take one more of the kind, and a priority
is not the mark for none. -/
def Room (m : RWUJMonitor T) : RWUJCall T → Prop
  | .lockRead _ => (crowd m.pc).waitR < countersMax ∧ (crowd m.pc).inside < countersMax
  | .lockWrite _ => (crowd m.pc).waitW < countersMax
  | .lockUpgrade _ prio _ => prio ≠ noUpgrader
  | .tryLockWrite _ | .resume _ _ | .unlock _ _ => True

theorem Inv.step {c : RWUJCall T} (h : m.Inv) (hc : m.Enabled c) (hroom : m.Room c) :
    ∃ m', m.step c = some m' ∧ m'.Inv := by
  cases c with
  | lockRead t => exact h.lockRead hc hroom.1 hroom.2
  | lockWrite t => exact h.lockWrite hc hroom
  | tryLockWrite t => exact h.tryLockWrite hc
  | lockUpgrade t prio woken =>
    obtain ⟨m', hm', hinv, -⟩ := h.lockUpgrade hc.1 hroom hc.2.1 hc.2.2
    exact ⟨m', hm', hinv⟩
  | resume t woken => exact h.resume hc.1 hc.2
  | unlock t woken => exact h.unlock hc.1 hc.2

theorem Inv.of_step {c : RWUJCall T} (h : m.Inv) (hc : m.Enabled c) (hroom : m.Room c)
    (hstep : m.step c = some m') : m'.Inv := by
  obtain ⟨m₁, hm₁, hinv₁⟩ := h.step hc hroom
  rw [hstep] at hm₁
  cases hm₁
  exact hinv₁

theorem inv_of_reaches (h : Reaches step (fun m c => m.Enabled c ∧ m.Room c) {} m) : m.Inv := by
  apply h.invariant inv_init
  intro m c m' hinv hc hstep
  exact hinv.of_step hc.1 hc.2 hstep

/-- Writers, and the upgrader that was woken to write. -/
def HoldsWrite (m : RWUJMonitor T) (t : T) : Prop :=
  (m.pc t).writesInside = true ∨ (m.pc t).wokenUpgrade = true ∧ m.sem.mode = .write

theorem tally_holdsRead : tally pc UJPlace.holdsRead =
    (crowd pc).inR + (crowd pc).waitU + (crowd pc).wokenU := by
  have h₁ : tally pc UJPlace.holdsRead =
      tally pc (fun p => p.readsInside || p.waitsUpgrade) + tally pc UJPlace.wokenUpgrade := by
    apply tally_or
    rintro (_ | _ | _ | _ | _ | _ | _ | _ | _) hp <;> first | rfl | cases hp
  have h₂ : tally pc (fun p => p.readsInside || p.waitsUpgrade) =
      tally pc UJPlace.readsInside + tally pc UJPlace.waitsUpgrade := by
    apply tally_or
    rintro (_ | _ | _ | _ | _ | _ | _ | _ | _) hp <;> first | rfl | cases hp
  rw [h₁, h₂]
  rfl

theorem tally_inside : tally pc UJPlace.inside = (crowd pc).inside := by
  have h₁ : tally pc UJPlace.inside =
      tally pc UJPlace.holdsRead + tally pc UJPlace.writesInside := by
    apply tally_or
    rintro (_ | _ | _ | _ | _ | _ | _ | _ | _) hp <;> first | rfl | cases hp
  rw [h₁, tally_holdsRead]
  show _ + (crowd pc).inW = (crowd pc).inR + (crowd pc).inW + (crowd pc).waitU + (crowd pc).wokenU
  omega

theorem Inv.writer_alone {u : T} (h : m.Inv) (ht : m.HoldsWrite t) (hu : (m.pc u).inside = true) :
    u = t := by
  have hmode : m.sem.mode = .write := by
    rcases ht with ht | ht
    · exact (h.fits.writes (tally_pos.mpr ⟨t, ht⟩)).1
    · exact ht.2
  have hone : tally m.pc UJPlace.inside = 1 := by
    rw [tally_inside]
    exact (h.fits.write hmode).2
  have hself : (m.pc t).inside = true := by
    rcases ht with ht | ht
    · simp [UJPlace.inside, ht]
    · simp [UJPlace.inside, UJPlace.holdsRead, ht.1]
  exact tally_one_unique hone hu hself

omit [DecidableEq T] in
theorem Inv.free (h : m.Inv) (hmode : m.sem.mode = .none) :
    m.sem.inside = 0 ∧ ∀ t, m.pc t = .out := by
  obtain ⟨hsem, hcrowd⟩ := h.fits.none hmode
  refine ⟨by rw [hsem], fun t => ?_⟩
  have hzero (P : UJPlace → Bool) (hP : tally m.pc P = 0) : P (m.pc t) = false :=
    tally_eq_zero.mp hP t
  have h₁ := hzero _ (congrArg Crowd.waitR hcrowd)
  have h₂ := hzero _ (congrArg Crowd.waitW hcrowd)
  have h₃ := hzero _ (congrArg Crowd.inR hcrowd)
  have h₄ := hzero _ (congrArg Crowd.inW hcrowd)
  have h₅ := hzero _ (congrArg Crowd.waitU hcrowd)
  have h₆ := hzero _ (congrArg Crowd.wokenU hcrowd)
  cases hpc : m.pc t with
  | out => rfl
  | waitingReader => rw [hpc] at h₁; cases h₁
  | waitingWriter => rw [hpc] at h₂; cases h₂
  | wokenReader => rw [hpc] at h₃; cases h₃
  | reader => rw [hpc] at h₃; cases h₃
  | wokenWriter => rw [hpc] at h₄; cases h₄
  | writer => rw [hpc] at h₄; cases h₄
  | waitingUpgrader => rw [hpc] at h₅; cases h₅
  | wokenUpgrader => rw [hpc] at h₆; cases h₆

omit [DecidableEq T] in
/-- While somebody upgrades exactly one upgrader is the best. -/
theorem Inv.best_unique (h : m.Inv) (hwait : m.sem.upgraderWaiting = true) :
    ∃! t, m.pc t = .waitingUpgrader m.sem.bestUpgrader ∨
      m.pc t = .wokenUpgrader m.sem.bestUpgrader := by
  rcases h.fits.upgrader hwait with ⟨hmode, hone⟩ | ⟨hmode, hnone, hone⟩
  · obtain ⟨t, ht⟩ := tally_pos.mp (Nat.lt_of_lt_of_eq Nat.zero_lt_one hone.symm)
    refine ⟨t, .inl ?_, ?_⟩
    · cases hpc : m.pc t with
      | waitingUpgrader p => rw [h.ranked.waiting t p hpc]
      | _ => simp [hpc, UJPlace.waitsUpgrade] at ht
    · rintro u (hu | hu)
      · exact tally_one_unique hone (by rw [hu]; rfl) ht
      · have hrank := h.ranked.woken u _ hu
        rw [hmode] at hrank
        exact absurd hrank (lt_irrefl _)
  · obtain ⟨t, ht⟩ := tally_pos.mp (Nat.lt_of_lt_of_eq Nat.zero_lt_one hone.symm)
    refine ⟨t, .inr ?_, ?_⟩
    · cases hpc : m.pc t with
      | wokenUpgrader p =>
        have hrank := h.ranked.woken t p hpc
        rw [hmode] at hrank
        rw [show p = _ from hrank]
      | _ => simp [hpc, UJPlace.wokenUpgrade] at ht
    · rintro u (hu | hu)
      · have hno := tally_eq_zero.mp hnone u
        rw [hu] at hno
        cases hno
      · exact tally_one_unique hone (by rw [hu]; rfl) ht

instance (pc : T → UJPlace) (woken : Woken T) : Decidable (Reached pc woken) :=
  inferInstanceAs (Decidable (_ ∧ _))

instance (m : RWUJMonitor T) : DecidablePred m.Enabled
  | .lockRead t => inferInstanceAs (Decidable (m.pc t = .out))
  | .lockWrite t => inferInstanceAs (Decidable (m.pc t = .out))
  | .tryLockWrite t => inferInstanceAs (Decidable (m.pc t = .out))
  | .lockUpgrade t prio woken => inferInstanceAs (Decidable (m.pc t = .reader ∧
    (∀ u, m.pc u ≠ .waitingUpgrader prio) ∧ Reached m.pc woken))
  | .resume t woken => inferInstanceAs (Decidable ((m.pc t = .wokenReader ∨
    m.pc t = .wokenWriter ∨ (m.pc t).wokenUpgrade = true) ∧ Reached m.pc woken))
  | .unlock t woken => inferInstanceAs (Decidable ((m.pc t = .reader ∨ m.pc t = .writer) ∧
    Reached m.pc woken))

instance (m : RWUJMonitor T) : DecidablePred m.Room
  | .lockRead _ => inferInstanceAs (Decidable (_ ∧ _))
  | .lockWrite _ => inferInstanceAs (Decidable (_ < _))
  | .lockUpgrade _ _ _ => inferInstanceAs (Decidable (_ ≠ _))
  | .tryLockWrite _ | .resume _ _ | .unlock _ _ => inferInstanceAs (Decidable True)

/-- Readers come in one after another. -/
theorem readers_reach (hk : k ≤ countersMax) :
    Reaches step Enabled ({} : RWUJMonitor (Fin (countersMax + 1)))
      { sem := { inside := k, mode := if k = 0 then .none else .read }
        pc := fun t => if t.val < k then .reader else .out } := by
  induction k with
  | zero => exact .refl
  | succ k ih =>
    refine .step (a := .lockRead ⟨k, by omega⟩) (ih (by omega)) (by simp [Enabled]) ?_
    have hlock : RWUJSemaphore.lockRead { inside := k, mode := if k = 0 then .none else .read } =
        some ({ inside := k + 1, mode := .read }, true) := by
      have hinc := increment_eq (n := k) (by omega)
      unfold RWUJSemaphore.lockRead
      by_cases h₀ : k = 0
      · subst h₀
        rfl
      · simp [h₀, hinc]
        omega
    have hpc : Function.update (fun t : Fin (countersMax + 1) =>
        if t.val < k then UJPlace.reader else .out) ⟨k, by omega⟩ .reader =
        fun t => if t.val < k + 1 then .reader else .out := by
      funext t
      by_cases ht : t = ⟨k, by omega⟩
      · simp [ht]
      · have hne : t.val ≠ k := fun h => ht (Fin.ext h)
        have hlt : t.val < k ↔ t.val < k + 1 := by omega
        simp only [Function.update_of_ne ht, hlt]
    simp [step, hlock, hpc]

end RWUJMonitor

end Loxim.Util
