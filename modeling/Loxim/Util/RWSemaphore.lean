import Mathlib.Algebra.Group.Nat.Defs
import Loxim.Lib.Census
import Loxim.Lib.Run

/-!
# The reader-writer semaphore

A monitor. A thread that has to wait is counted and sleeps on a condition
variable; the thread that leaves last hands the semaphore over and sets the
counters before the others run. `none` stands for an assertion that fails.
-/

namespace Loxim.Util

inductive LockMode
  | none
  | read
  | write
  deriving DecidableEq, Repr

/-- The greatest value of `counters_type`, an `unsigned short`. -/
def countersMax : Nat := 2 ^ 16 - 1

/-- `++` on a `counters_type`. -/
def increment (n : Nat) : Nat := (n + 1) % (countersMax + 1)

/-- `--` on a `counters_type`. -/
def decrement (n : Nat) : Nat := if n = 0 then countersMax else n - 1

structure RWSemaphore where
  writersWaiting : Nat := 0
  readersWaiting : Nat := 0
  inside : Nat := 0
  mode : LockMode := .none
  deriving DecidableEq, Repr

/-- What is sent to the condition variables. -/
inductive Signal
  | nobody
  | oneWriter
  | oneUpgrader
  | allReaders
  deriving DecidableEq, Repr

namespace RWSemaphore

def assert (p : Prop) [Decidable p] : Option Unit := if p then some () else none

/-- The flag says whether the caller is inside or has to wait. -/
def lockRead (s : RWSemaphore) : Option (RWSemaphore × Bool) := do
  assert (s.mode ≠ .none ∨ s.inside = 0)
  if s.mode = .none ∨ (s.mode = .read ∧ s.writersWaiting = 0) then
    assert (s.writersWaiting = 0)
    assert (s.inside = 0 ∨ s.mode = .read)
    assert (s.readersWaiting = 0)
    assert (s.mode = .none ∨ s.mode = .read)
    assert (s.inside < countersMax)
    return ({ s with mode := .read, inside := increment s.inside }, true)
  else
    assert (s.mode = .write ∨ s.writersWaiting ≠ 0)
    assert (s.readersWaiting < countersMax)
    return ({ s with readersWaiting := increment s.readersWaiting }, false)

/-- What a reader checks when it wakes up. -/
def wokenRead (s : RWSemaphore) : Option Unit := do
  assert (0 < s.inside)
  assert (s.mode = .read)

def lockWrite (s : RWSemaphore) : Option (RWSemaphore × Bool) := do
  assert (s.mode ≠ .none ∨ s.inside = 0)
  if s.mode = .none then
    assert (s.inside = 0)
    assert (s.readersWaiting = 0 ∧ s.writersWaiting = 0)
    return ({ s with mode := .write, inside := 1 }, true)
  else return ({ s with writersWaiting := increment s.writersWaiting }, false)

def wokenWrite (s : RWSemaphore) : Option Unit := assert (s.inside = 1 ∧ s.mode = .write)

def unlock (s : RWSemaphore) : Option (RWSemaphore × Signal) := do
  assert (0 < s.inside ∧ (s.mode = .read ∨ s.mode = .write))
  if s.inside - 1 = 0 then
    if 0 < s.readersWaiting then
      if s.mode = .read then
        assert (0 < s.writersWaiting)
        return ({ s with mode := .write, writersWaiting := decrement s.writersWaiting, inside := 1 },
          .oneWriter)
      else
        assert (s.mode = .write)
        return ({ s with mode := .read, inside := s.readersWaiting, readersWaiting := 0 },
          .allReaders)
    else if 0 < s.writersWaiting then
      assert (s.readersWaiting = 0)
      return ({ s with mode := .write, writersWaiting := decrement s.writersWaiting, inside := 1 },
        .oneWriter)
    else
      assert (s.readersWaiting = 0 ∧ s.writersWaiting = 0)
      return ({ s with mode := .none, inside := 0 }, .nobody)
  else
    assert (s.mode = .read)
    return ({ s with inside := s.inside - 1 }, .nobody)

end RWSemaphore

-- ---------------------------------------------------------------------------
-- Threads
-- ---------------------------------------------------------------------------

/-- Where a thread is. One that was signalled has not run yet. -/
inductive Place
  | out
  | waitingReader
  | waitingWriter
  | wokenReader
  | wokenWriter
  | reader
  | writer
  deriving DecidableEq, Repr

namespace Place

def readsInside : Place → Bool
  | wokenReader | reader => true
  | _ => false

def writesInside : Place → Bool
  | wokenWriter | writer => true
  | _ => false

def inside (p : Place) : Bool := p.readsInside || p.writesInside

def wake : Place → Place
  | waitingReader => wokenReader
  | p => p

end Place

/-- The semaphore and all threads that use it. -/
structure RWMonitor (T : Type) where
  sem : RWSemaphore := {}
  pc : T → Place := fun _ => .out

/-- One monitor section. `woken` is the writer a signal goes to, if one waits. -/
inductive RWCall (T : Type)
  | lockRead (t : T)
  | lockWrite (t : T)
  | resume (t : T)
  | unlock (t : T) (woken : T)

namespace RWMonitor

variable {T : Type} [DecidableEq T]

def signal (pc : T → Place) (woken : T) : Signal → T → Place
  | .nobody | .oneUpgrader => pc
  | .oneWriter =>
    if pc woken = .waitingWriter then Function.update pc woken .wokenWriter else pc
  | .allReaders => fun t => (pc t).wake

def step (m : RWMonitor T) : RWCall T → Option (RWMonitor T)
  | .lockRead t => do
    let (sem, entered) ← m.sem.lockRead
    return { sem, pc := Function.update m.pc t (if entered then .reader else .waitingReader) }
  | .lockWrite t => do
    let (sem, entered) ← m.sem.lockWrite
    return { sem, pc := Function.update m.pc t (if entered then .writer else .waitingWriter) }
  | .resume t =>
    if m.pc t = .wokenReader then do
      m.sem.wokenRead
      return { m with pc := Function.update m.pc t .reader }
    else do
      m.sem.wokenWrite
      return { m with pc := Function.update m.pc t .writer }
  | .unlock t woken => do
    let (sem, sent) ← m.sem.unlock
    return { sem, pc := signal (Function.update m.pc t .out) woken sent }

/-- A thread that is out may ask, one that is inside may leave, one that was
signalled may go on. A signal reaches a waiting writer if there is one. -/
def Enabled (m : RWMonitor T) : RWCall T → Prop
  | .lockRead t => m.pc t = .out
  | .lockWrite t => m.pc t = .out
  | .resume t => m.pc t = .wokenReader ∨ m.pc t = .wokenWriter
  | .unlock t woken => (m.pc t = .reader ∨ m.pc t = .writer) ∧
    ((∃ u, m.pc u = .waitingWriter) → m.pc woken = .waitingWriter)

end RWMonitor

-- ---------------------------------------------------------------------------
-- The fields against the crowd
-- ---------------------------------------------------------------------------

theorem increment_eq (h : n < countersMax) : increment n = n + 1 := by
  unfold increment
  exact Nat.mod_eq_of_lt (by omega)

theorem decrement_eq (h : 0 < n) : decrement n = n - 1 := if_neg (Nat.ne_of_gt h)

namespace RWSemaphore

@[simp]
theorem assert_bind (p : Prop) [Decidable p] (f : Unit → Option α) :
    (assert p >>= f) = if p then f () else none := by
  unfold assert
  split <;> rfl

/-- The fields are right for a crowd of so many waiting readers and writers and
readers and writers inside. Readers wait only behind a writer. -/
structure Fits (s : RWSemaphore) (waitR waitW inR inW : Nat) : Prop where
  readers : s.readersWaiting = waitR
  writers : s.writersWaiting = waitW
  mode : match s.mode with
    | .none => s.inside = 0 ∧ waitR = 0 ∧ waitW = 0 ∧ inR = 0 ∧ inW = 0
    | .read => s.inside = inR ∧ 0 < inR ∧ inW = 0 ∧ (0 < waitR → 0 < waitW)
    | .write => s.inside = 1 ∧ inR = 0 ∧ inW = 1

variable {s : RWSemaphore} {waitR waitW inR inW : Nat}

theorem Fits.lockRead (h : s.Fits waitR waitW inR inW) (hw : waitR < countersMax)
    (hi : inR < countersMax) :
    ∃ s' entered, s.lockRead = some (s', entered) ∧
      if entered then s'.Fits waitR waitW (inR + 1) inW else s'.Fits (waitR + 1) waitW inR inW := by
  obtain ⟨rfl, rfl, hm⟩ := h
  unfold RWSemaphore.lockRead
  cases hmode : s.mode with
  | none =>
    simp only [hmode] at hm
    obtain ⟨h₀, h₁, h₂, rfl, rfl⟩ := hm
    refine ⟨{ s with mode := .read, inside := 1 }, true, ?_, h₁ ▸ rfl, h₂ ▸ rfl, ?_⟩
    · simp [h₀, h₁, h₂, increment, countersMax]
    · simp [h₁]
  | read =>
    simp only [hmode] at hm
    obtain ⟨h₀, h₁, h₂, h₃⟩ := hm
    by_cases hw₀ : s.writersWaiting = 0
    · have hr₀ : s.readersWaiting = 0 := by omega
      refine ⟨{ s with inside := inR + 1 }, true, ?_, rfl, rfl, ?_⟩
      · simp [hw₀, hr₀, h₀, hi, increment_eq hi, hmode]
      · simp only [hmode]
        exact ⟨trivial, by omega, h₂, h₃⟩
    · refine ⟨{ s with readersWaiting := s.readersWaiting + 1 }, false, ?_, rfl, rfl, ?_⟩
      · simp [hw₀, hw, increment_eq hw, hmode]
      · simp only [hmode]
        exact ⟨h₀, h₁, h₂, fun _ => Nat.pos_of_ne_zero hw₀⟩
  | write =>
    simp only [hmode] at hm
    refine ⟨{ s with readersWaiting := s.readersWaiting + 1 }, false, ?_, rfl, rfl, ?_⟩
    · simp [hw, increment_eq hw, hmode]
    · simpa only [hmode] using hm

theorem Fits.lockWrite (h : s.Fits waitR waitW inR inW) (hw : waitW < countersMax) :
    ∃ s' entered, s.lockWrite = some (s', entered) ∧
      if entered then s'.Fits waitR waitW inR (inW + 1) else s'.Fits waitR (waitW + 1) inR inW := by
  obtain ⟨rfl, rfl, hm⟩ := h
  unfold RWSemaphore.lockWrite
  cases hmode : s.mode with
  | none =>
    simp only [hmode] at hm
    obtain ⟨h₀, h₁, h₂, rfl, rfl⟩ := hm
    refine ⟨{ s with mode := .write, inside := 1 }, true, ?_, rfl, rfl, rfl, rfl, rfl⟩
    simp [h₀, h₁, h₂]
  | read =>
    simp only [hmode] at hm
    obtain ⟨h₀, h₁, h₂, h₃⟩ := hm
    refine ⟨{ s with writersWaiting := s.writersWaiting + 1 }, false, ?_, rfl, rfl, ?_⟩
    · simp [increment_eq hw, hmode]
    · simp only [hmode]
      exact ⟨h₀, h₁, h₂, fun _ => Nat.succ_pos _⟩
  | write =>
    simp only [hmode] at hm
    refine ⟨{ s with writersWaiting := s.writersWaiting + 1 }, false, ?_, rfl, rfl, ?_⟩
    · simp [increment_eq hw, hmode]
    · simpa only [hmode] using hm

theorem Fits.reading (h : s.Fits waitR waitW inR inW) (hi : 0 < inR) :
    s.mode = .read ∧ s.inside = inR ∧ inW = 0 := by
  have hm := h.mode
  cases hmode : s.mode with
  | none =>
    simp only [hmode] at hm
    omega
  | write =>
    simp only [hmode] at hm
    omega
  | read =>
    simp only [hmode] at hm
    exact ⟨rfl, hm.1, hm.2.2.1⟩

theorem Fits.writing (h : s.Fits waitR waitW inR inW) (hi : 0 < inW) :
    s.mode = .write ∧ s.inside = 1 ∧ inR = 0 ∧ inW = 1 := by
  have hm := h.mode
  cases hmode : s.mode with
  | none =>
    simp only [hmode] at hm
    omega
  | read =>
    simp only [hmode] at hm
    omega
  | write =>
    simp only [hmode] at hm
    exact ⟨rfl, hm⟩

/-- A reader leaves. The last one hands over to a writer if anybody waits. -/
theorem Fits.unlockRead (h : s.Fits waitR waitW inR inW) (hi : 0 < inR) :
    ∃ s', (inR = 1 ∧ 0 < waitW ∧ s.unlock = some (s', .oneWriter) ∧
        s'.Fits waitR (waitW - 1) 0 1 ∧ s'.mode = .write) ∨
      ((1 < inR ∨ waitR = 0 ∧ waitW = 0) ∧ s.unlock = some (s', .nobody) ∧
        s'.Fits waitR waitW (inR - 1) inW) := by
  obtain ⟨hmode, h₀, rfl⟩ := h.reading hi
  obtain ⟨rfl, rfl, hm⟩ := h
  simp only [hmode] at hm
  have h₃ := hm.2.2.2
  unfold RWSemaphore.unlock
  by_cases hlast : inR = 1
  · by_cases hw₀ : s.writersWaiting = 0
    · have hr₀ : s.readersWaiting = 0 := by omega
      refine ⟨{ s with mode := .none, inside := 0 }, .inr ⟨.inr ⟨hr₀, hw₀⟩, ?_, rfl, rfl, ?_⟩⟩
      · simp [hmode, h₀, hlast, hw₀, hr₀]
      · exact ⟨rfl, hr₀, hw₀, by omega, rfl⟩
    · have hw₁ : 0 < s.writersWaiting := Nat.pos_of_ne_zero hw₀
      refine ⟨{ s with mode := .write, writersWaiting := decrement s.writersWaiting, inside := 1 },
        .inl ⟨hlast, hw₁, ?_, ⟨rfl, decrement_eq hw₁, rfl, rfl, rfl⟩, rfl⟩⟩
      rcases Nat.eq_zero_or_pos s.readersWaiting with hr₀ | hr₀
      · simp [hmode, h₀, hlast, hw₁, hr₀]
      · simp [hmode, h₀, hlast, hw₁, hr₀]
  · have hmore : inR - 1 ≠ 0 := by omega
    refine ⟨{ s with inside := inR - 1 }, .inr ⟨.inl (by omega), ?_, rfl, rfl, ?_⟩⟩
    · simp [hmode, h₀, hi, hmore]
    · simp only [hmode]
      exact ⟨trivial, by omega, trivial, h₃⟩

/-- The writer leaves: to all waiting readers, or else to a writer. -/
theorem Fits.unlockWrite (h : s.Fits waitR waitW inR inW) (hi : 0 < inW) :
    ∃ s', (0 < waitR ∧ s.unlock = some (s', .allReaders) ∧ s'.Fits 0 waitW waitR 0 ∧
        s'.mode = .read) ∨
      (waitR = 0 ∧ 0 < waitW ∧ s.unlock = some (s', .oneWriter) ∧ s'.Fits waitR (waitW - 1) 0 1 ∧
        s'.mode = .write) ∨
      (waitR = 0 ∧ waitW = 0 ∧ s.unlock = some (s', .nobody) ∧ s'.Fits waitR waitW 0 0) := by
  obtain ⟨hmode, h₀, rfl, rfl⟩ := h.writing hi
  obtain ⟨rfl, rfl, -⟩ := h
  unfold RWSemaphore.unlock
  by_cases hr₀ : 0 < s.readersWaiting
  · refine ⟨{ s with mode := .read, inside := s.readersWaiting, readersWaiting := 0 },
      .inl ⟨hr₀, ?_, ⟨rfl, rfl, rfl, hr₀, rfl, fun h => absurd h (lt_irrefl 0)⟩, rfl⟩⟩
    simp [hmode, h₀, hr₀]
  · have hr₁ : s.readersWaiting = 0 := by omega
    by_cases hw₀ : 0 < s.writersWaiting
    · refine ⟨{ s with mode := .write, writersWaiting := decrement s.writersWaiting, inside := 1 },
        .inr (.inl ⟨hr₁, hw₀, ?_, ⟨rfl, decrement_eq hw₀, rfl, rfl, rfl⟩, rfl⟩)⟩
      simp [hmode, h₀, hr₁, hw₀]
    · have hw₁ : s.writersWaiting = 0 := by omega
      refine ⟨{ s with mode := .none, inside := 0 },
        .inr (.inr ⟨hr₁, hw₁, ?_, rfl, rfl, rfl, hr₁, hw₁, rfl, rfl⟩)⟩
      simp [hmode, h₀, hr₁, hw₁]

end RWSemaphore

-- ---------------------------------------------------------------------------
-- Every interleaving
-- ---------------------------------------------------------------------------

namespace RWMonitor

variable {T : Type} [Fintype T]

def Inv (m : RWMonitor T) : Prop :=
  m.sem.Fits (tally m.pc (· == .waitingReader)) (tally m.pc (· == .waitingWriter))
    (tally m.pc Place.readsInside) (tally m.pc Place.writesInside)

theorem inv_init : ({} : RWMonitor T).Inv := by
  have hzero (P : Place → Bool) (hP : P .out = false) :
      tally (fun _ : T => Place.out) P = 0 := tally_eq_zero.mpr fun _ => hP
  refine ⟨(hzero _ rfl).symm, (hzero _ rfl).symm, rfl, hzero _ rfl, hzero _ rfl, hzero _ rfl,
    hzero _ rfl⟩

variable [DecidableEq T] {m m' : RWMonitor T} {t woken : T}

/-- One thread goes from its place to another. -/
theorem inv_move {s : RWSemaphore} {pc : T → Place} {waitR waitW inR inW : Nat} (t : T) (b : Place)
    (h : s.Fits waitR waitW inR inW)
    (h₁ : waitR + (pc t == .waitingReader).toNat =
      tally pc (· == .waitingReader) + (b == .waitingReader).toNat)
    (h₂ : waitW + (pc t == .waitingWriter).toNat =
      tally pc (· == .waitingWriter) + (b == .waitingWriter).toNat)
    (h₃ : inR + (pc t).readsInside.toNat = tally pc Place.readsInside + b.readsInside.toNat)
    (h₄ : inW + (pc t).writesInside.toNat = tally pc Place.writesInside + b.writesInside.toNat) :
    Inv ⟨s, Function.update pc t b⟩ := by
  have hmove (P : Place → Bool) : tally (Function.update pc t b) P + (P (pc t)).toNat =
      tally pc P + (P b).toNat := tally_update t b
  have e₁ : tally (Function.update pc t b) (· == .waitingReader) = waitR :=
    Nat.add_right_cancel ((hmove _).trans h₁.symm)
  have e₂ : tally (Function.update pc t b) (· == .waitingWriter) = waitW :=
    Nat.add_right_cancel ((hmove _).trans h₂.symm)
  have e₃ : tally (Function.update pc t b) Place.readsInside = inR :=
    Nat.add_right_cancel ((hmove _).trans h₃.symm)
  have e₄ : tally (Function.update pc t b) Place.writesInside = inW :=
    Nat.add_right_cancel ((hmove _).trans h₄.symm)
  unfold Inv
  rw [e₁, e₂, e₃, e₄]
  exact h

/-- A thread that goes out is no longer counted. -/
theorem tally_leave (pc : T → Place) (P : Place → Bool) (t : T) (hout : P .out = false) :
    tally (Function.update pc t .out) P + (P (pc t)).toNat = tally pc P := by
  have hmove : tally (Function.update pc t .out) P + (P (pc t)).toNat =
      tally pc P + (P .out).toNat := tally_update t Place.out
  rw [hout] at hmove
  exact hmove

/-- Nobody inside waits, so the waiting threads stay as many. -/
theorem tally_waiting (pc : T → Place) {P : Place → Bool} (ht : pc t = .reader ∨ pc t = .writer)
    (hout : P .out = false) (hr : P .reader = false) (hw : P .writer = false) :
    tally (Function.update pc t .out) P = tally pc P := by
  have hleave := tally_leave pc P t hout
  rcases ht with ht | ht
  · rwa [ht, hr] at hleave
  · rwa [ht, hw] at hleave

theorem Inv.lockRead (h : m.Inv) (ht : m.pc t = .out)
    (hw : tally m.pc (· == .waitingReader) < countersMax)
    (hi : tally m.pc Place.readsInside < countersMax) :
    ∃ m', m.step (.lockRead t) = some m' ∧ m'.Inv := by
  obtain ⟨s', entered, hlock, hfits⟩ := RWSemaphore.Fits.lockRead h hw hi
  cases entered with
  | true =>
    refine ⟨⟨s', Function.update m.pc t .reader⟩, by simp [step, hlock], ?_⟩
    apply inv_move t .reader hfits <;> rw [ht] <;> rfl
  | false =>
    refine ⟨⟨s', Function.update m.pc t .waitingReader⟩, by simp [step, hlock], ?_⟩
    apply inv_move t .waitingReader hfits <;> rw [ht] <;> rfl

theorem Inv.lockWrite (h : m.Inv) (ht : m.pc t = .out)
    (hw : tally m.pc (· == .waitingWriter) < countersMax) :
    ∃ m', m.step (.lockWrite t) = some m' ∧ m'.Inv := by
  obtain ⟨s', entered, hlock, hfits⟩ := RWSemaphore.Fits.lockWrite h hw
  cases entered with
  | true =>
    refine ⟨⟨s', Function.update m.pc t .writer⟩, by simp [step, hlock], ?_⟩
    apply inv_move t .writer hfits <;> rw [ht] <;> rfl
  | false =>
    refine ⟨⟨s', Function.update m.pc t .waitingWriter⟩, by simp [step, hlock], ?_⟩
    apply inv_move t .waitingWriter hfits <;> rw [ht] <;> rfl

/-- Who was signalled finds the semaphore as it was left for it. -/
theorem Inv.resume (h : m.Inv) (ht : m.pc t = .wokenReader ∨ m.pc t = .wokenWriter) :
    ∃ m', m.step (.resume t) = some m' ∧ m'.Inv := by
  rcases ht with ht | ht
  · have hpos : 0 < tally m.pc Place.readsInside :=
      tally_pos.mpr ⟨t, by simp [ht, Place.readsInside]⟩
    obtain ⟨hmode, hinside, -⟩ := RWSemaphore.Fits.reading h hpos
    refine ⟨{ m with pc := Function.update m.pc t .reader }, ?_, ?_⟩
    · simp [step, ht, RWSemaphore.wokenRead, RWSemaphore.assert, hmode, hinside, hpos]
    · apply inv_move t .reader h <;> rw [ht] <;> rfl
  · have hpos : 0 < tally m.pc Place.writesInside :=
      tally_pos.mpr ⟨t, by simp [ht, Place.writesInside]⟩
    obtain ⟨hmode, hinside, -⟩ := RWSemaphore.Fits.writing h hpos
    refine ⟨{ m with pc := Function.update m.pc t .writer }, ?_, ?_⟩
    · simp [step, ht, RWSemaphore.wokenWrite, RWSemaphore.assert, hmode, hinside]
    · apply inv_move t .writer h <;> rw [ht] <;> rfl

/-- One waiting writer, or all waiting readers, get the semaphore; the others stay
where they are. -/
inductive HandsOver (m m' : RWMonitor T) (t : T) : Prop
  | writer (u : T) (hu : m.pc u = .waitingWriter) (hmode : m'.sem.mode = .write)
    (hpc : m'.pc = Function.update (Function.update m.pc t .out) u .wokenWriter)
    (hread : (∃ v, m.pc v = .waitingReader) → m.sem.mode = .read)
  | readers (hu : ∃ u, m.pc u = .waitingReader) (hmode : m'.sem.mode = .read)
    (hpc : m'.pc = fun u => (Function.update m.pc t .out u).wake)
    (hwrite : m.sem.mode = .write)

/-- The last thread inside leaves and a waiting writer gets the semaphore. -/
theorem inv_oneWriter {s : RWSemaphore} {pc : T → Place} (ht : pc t = .reader ∨ pc t = .writer)
    (hwoken : pc woken = .waitingWriter) (hr : tally pc Place.readsInside = (pc t).readsInside.toNat)
    (hw : tally pc Place.writesInside = (pc t).writesInside.toNat)
    (h : s.Fits (tally pc (· == .waitingReader)) (tally pc (· == .waitingWriter) - 1) 0 1) :
    Inv ⟨s, Function.update (Function.update pc t .out) woken .wokenWriter⟩ := by
  have hne : woken ≠ t := by
    rintro rfl
    simp [hwoken] at ht
  have hpc : Function.update pc t .out woken = .waitingWriter := by
    rw [Function.update_of_ne hne, hwoken]
  have hpos : 0 < tally pc (· == .waitingWriter) := tally_pos.mpr ⟨woken, by simp [hwoken]⟩
  have hinR := tally_leave pc Place.readsInside t rfl
  have hinW := tally_leave pc Place.writesInside t rfl
  apply inv_move woken .wokenWriter h
  · rw [hpc, tally_waiting pc ht rfl rfl rfl]
    rfl
  · rw [hpc, tally_waiting pc ht rfl rfl rfl]
    exact Nat.sub_add_cancel hpos
  · rw [hpc]
    show 0 + 0 = _ + 0
    omega
  · rw [hpc]
    show 1 + 0 = _ + 1
    omega

/-- A thread leaves and nobody is woken. -/
theorem inv_leave {s : RWSemaphore} {pc : T → Place} (ht : pc t = .reader ∨ pc t = .writer)
    (h : s.Fits (tally pc (· == .waitingReader)) (tally pc (· == .waitingWriter))
      (tally pc Place.readsInside - (pc t).readsInside.toNat)
      (tally pc Place.writesInside - (pc t).writesInside.toNat)) :
    Inv ⟨s, Function.update pc t .out⟩ := by
  unfold Inv
  have hinR := tally_leave pc Place.readsInside t rfl
  have hinW := tally_leave pc Place.writesInside t rfl
  rw [tally_waiting pc ht rfl rfl rfl, tally_waiting pc ht rfl rfl rfl,
    Nat.eq_sub_of_add_eq hinR, Nat.eq_sub_of_add_eq hinW]
  exact h

/-- The writer leaves and all waiting readers get the semaphore. -/
theorem inv_allReaders {s : RWSemaphore} {pc : T → Place} (ht : pc t = .writer)
    (hr : tally pc Place.readsInside = 0) (hw : tally pc Place.writesInside = 1)
    (h : s.Fits 0 (tally pc (· == .waitingWriter)) (tally pc (· == .waitingReader)) 0) :
    Inv ⟨s, fun u => (Function.update pc t .out u).wake⟩ := by
  have hwake (P : Place → Bool) : tally (fun u => (Function.update pc t .out u).wake) P =
      tally (Function.update pc t .out) fun p => P p.wake := rfl
  have hinR := tally_leave pc Place.readsInside t rfl
  have hinW := tally_leave pc Place.writesInside t rfl
  rw [ht] at hinW
  unfold Inv
  simp only [hwake]
  have e₁ : tally (Function.update pc t .out) (fun p => p.wake == .waitingReader) = 0 := by
    refine tally_eq_zero.mpr fun u => ?_
    cases Function.update pc t .out u <;> rfl
  have e₂ : tally (Function.update pc t .out) (fun p => p.wake == .waitingWriter) =
      tally pc (· == .waitingWriter) := by
    rw [← tally_waiting pc (.inr ht) rfl rfl rfl]
    refine tally_congr fun u => ?_
    cases Function.update pc t .out u <;> rfl
  have e₃ : tally (Function.update pc t .out) (fun p => p.wake.readsInside) =
      tally pc (· == .waitingReader) := by
    rw [← tally_waiting pc (.inr ht) rfl rfl rfl]
    refine tally_congr fun u => ?_
    have hnone : (Function.update pc t .out u).readsInside = false :=
      tally_eq_zero.mp (by omega) u
    cases hu : Function.update pc t .out u <;> first | rfl | (rw [hu] at hnone; cases hnone)
  have e₄ : tally (Function.update pc t .out) (fun p => p.wake.writesInside) = 0 := by
    refine tally_eq_zero.mpr fun u => ?_
    have hnone : (Function.update pc t .out u).writesInside = false := by
      refine tally_eq_zero.mp ?_ u
      exact Nat.add_right_cancel (hinW.trans hw)
    cases hu : Function.update pc t .out u <;> first | rfl | (rw [hu] at hnone; cases hnone)
  rw [e₁, e₂, e₃, e₄]
  exact h

/-- The thread that leaves last hands the semaphore over. -/
theorem Inv.unlock (h : m.Inv) (ht : m.pc t = .reader ∨ m.pc t = .writer)
    (hwoken : (∃ u, m.pc u = .waitingWriter) → m.pc woken = .waitingWriter) :
    ∃ m', m.step (.unlock t woken) = some m' ∧ m'.Inv ∧
      (m.sem.inside = 1 → (∃ u, m.pc u = .waitingReader ∨ m.pc u = .waitingWriter) →
        m.HandsOver m' t) := by
  have hout (u : T) (hu : m.pc u = .waitingWriter) :
      Function.update m.pc t .out u = .waitingWriter := by
    have hne : u ≠ t := by
      rintro rfl
      simp [hu] at ht
    rw [Function.update_of_ne hne, hu]
  rcases ht with ht | ht
  · have hpos : 0 < tally m.pc Place.readsInside :=
      tally_pos.mpr ⟨t, by simp [ht, Place.readsInside]⟩
    obtain ⟨hmode, hinside, hnone⟩ := RWSemaphore.Fits.reading h hpos
    obtain ⟨s', ⟨hone, hwait, hunlock, hfits, hmode'⟩ | ⟨hmore, hunlock, hfits⟩⟩ :=
      RWSemaphore.Fits.unlockRead h hpos
    · obtain ⟨u, hu⟩ := tally_pos.mp hwait
      have hw := hwoken ⟨u, by simpa using hu⟩
      refine ⟨⟨s', Function.update (Function.update m.pc t .out) woken .wokenWriter⟩, ?_, ?_, ?_⟩
      · simp [step, hunlock, signal, hout woken hw]
      · refine inv_oneWriter (.inl ht) hw ?_ ?_ hfits
        · rw [hone, ht]
          rfl
        · rw [hnone, ht]
          rfl
      · exact fun _ _ => .writer woken hw hmode' rfl fun _ => hmode
    · refine ⟨⟨s', Function.update m.pc t .out⟩, by simp [step, hunlock, signal], ?_, ?_⟩
      · refine inv_leave (.inl ht) ?_
        rw [ht]
        exact hfits
      · rintro hlast ⟨u, hu⟩
        rcases hmore with hmore | ⟨hr₀, hw₀⟩
        · omega
        · rcases hu with hu | hu
          · have := tally_eq_zero.mp hr₀ u
            simp [hu] at this
          · have := tally_eq_zero.mp hw₀ u
            simp [hu] at this
  · have hpos : 0 < tally m.pc Place.writesInside :=
      tally_pos.mpr ⟨t, by simp [ht, Place.writesInside]⟩
    obtain ⟨hmode, hinside, hnone, hone⟩ := RWSemaphore.Fits.writing h hpos
    obtain ⟨s', ⟨hwait, hunlock, hfits, hmode'⟩ | ⟨hr₀, hwait, hunlock, hfits, hmode'⟩ |
      ⟨hr₀, hw₀, hunlock, hfits⟩⟩ := RWSemaphore.Fits.unlockWrite h hpos
    · obtain ⟨u, hu⟩ := tally_pos.mp hwait
      refine ⟨⟨s', fun u => (Function.update m.pc t .out u).wake⟩, ?_, ?_, ?_⟩
      · simp [step, hunlock, signal]
      · exact inv_allReaders ht hnone hone hfits
      · exact fun _ _ => .readers ⟨u, by simpa using hu⟩ hmode' rfl hmode
    · obtain ⟨u, hu⟩ := tally_pos.mp hwait
      have hw := hwoken ⟨u, by simpa using hu⟩
      refine ⟨⟨s', Function.update (Function.update m.pc t .out) woken .wokenWriter⟩, ?_, ?_, ?_⟩
      · simp [step, hunlock, signal, hout woken hw]
      · refine inv_oneWriter (.inr ht) hw ?_ ?_ hfits
        · rw [hnone, ht]
          rfl
        · rw [hone, ht]
          rfl
      · refine fun _ _ => .writer woken hw hmode' rfl fun ⟨v, hv⟩ => ?_
        have := tally_eq_zero.mp hr₀ v
        simp [hv] at this
    · refine ⟨⟨s', Function.update m.pc t .out⟩, by simp [step, hunlock, signal], ?_, ?_⟩
      · refine inv_leave (.inr ht) ?_
        rw [hnone, hone, ht]
        exact hfits
      · rintro - ⟨u, hu⟩
        rcases hu with hu | hu
        · have := tally_eq_zero.mp hr₀ u
          simp [hu] at this
        · have := tally_eq_zero.mp hw₀ u
          simp [hu] at this

/-- The counters of the semaphore can take one more of the kind. -/
def Room (m : RWMonitor T) : RWCall T → Prop
  | .lockRead _ => tally m.pc (· == .waitingReader) < countersMax ∧
    tally m.pc Place.readsInside < countersMax
  | .lockWrite _ => tally m.pc (· == .waitingWriter) < countersMax
  | .resume _ | .unlock _ _ => True

theorem Inv.step {c : RWCall T} (h : m.Inv) (hc : m.Enabled c) (hroom : m.Room c) :
    ∃ m', m.step c = some m' ∧ m'.Inv := by
  cases c with
  | lockRead t => exact h.lockRead hc hroom.1 hroom.2
  | lockWrite t => exact h.lockWrite hc hroom
  | resume t => exact h.resume hc
  | unlock t woken =>
    obtain ⟨m', hm', hinv, -⟩ := h.unlock hc.1 hc.2
    exact ⟨m', hm', hinv⟩

theorem inv_of_reaches (h : Reaches step (fun m c => m.Enabled c ∧ m.Room c) {} m) : m.Inv := by
  apply h.invariant inv_init
  intro m c m' hinv hc hstep
  obtain ⟨m₁, hm₁, hinv₁⟩ := hinv.step hc.1 hc.2
  rw [hstep] at hm₁
  cases hm₁
  exact hinv₁

theorem Inv.inside_eq (h : m.Inv) : m.sem.inside = tally m.pc Place.inside := by
  have hor : tally m.pc Place.inside =
      tally m.pc Place.readsInside + tally m.pc Place.writesInside := by
    apply tally_or
    rintro (_ | _ | _ | _ | _ | _ | _) hc <;> first | rfl | cases hc
  have hmode := h.mode
  rw [hor]
  cases hm : m.sem.mode with
  | none =>
    simp only [hm] at hmode
    omega
  | read =>
    simp only [hm] at hmode
    omega
  | write =>
    simp only [hm] at hmode
    omega

omit [DecidableEq T] in
theorem Inv.writer_alone {u : T} (h : m.Inv) (ht : (m.pc t).writesInside = true)
    (hu : (m.pc u).inside = true) : u = t := by
  obtain ⟨-, hinside, hnone, hone⟩ := RWSemaphore.Fits.writing h (tally_pos.mpr ⟨t, ht⟩)
  have hread := tally_eq_zero.mp hnone u
  rw [Place.inside, hread, Bool.false_or] at hu
  exact tally_one_unique hone hu ht

/-- Nobody waits for a semaphore that is free. -/
theorem Inv.free (h : m.Inv) (hfree : ∀ t, (m.pc t).inside = false) (t : T) : m.pc t = .out := by
  have hzero : m.sem.inside = 0 := by
    rw [h.inside_eq]
    exact tally_eq_zero.mpr hfree
  have hmode := h.mode
  cases hm : m.sem.mode with
  | read =>
    simp only [hm] at hmode
    omega
  | write =>
    simp only [hm] at hmode
    omega
  | none =>
    simp only [hm] at hmode
    obtain ⟨-, hr, hw, -, -⟩ := hmode
    have hr := tally_eq_zero.mp hr t
    have hw := tally_eq_zero.mp hw t
    have ht := hfree t
    cases hpc : m.pc t <;> simp_all [Place.inside, Place.readsInside, Place.writesInside]

/-- However many threads there are and however they interleave, as long as the
counters have room: no assertion fails, a writer is alone, `inside` is right,
and the thread that leaves last hands over. -/
theorem rwSemaphore_safe (h : Reaches step (fun m c => m.Enabled c ∧ m.Room c) {} m) :
    (∀ c, m.Enabled c → m.Room c → m.step c ≠ none) ∧
    (∀ t u, (m.pc t).writesInside = true → (m.pc u).inside = true → u = t) ∧
    m.sem.inside = tally m.pc Place.inside ∧
    (∀ t woken m', m.Enabled (.unlock t woken) → m.step (.unlock t woken) = some m' →
      m.sem.inside = 1 → (∃ u, m.pc u = .waitingReader ∨ m.pc u = .waitingWriter) →
      m.HandsOver m' t) ∧
    ((∀ t, (m.pc t).inside = false) → ∀ t, m.pc t = .out) := by
  have hinv := inv_of_reaches h
  refine ⟨?_, fun t u => hinv.writer_alone, hinv.inside_eq, ?_, hinv.free⟩
  · intro c hc hroom
    obtain ⟨m', hm', -⟩ := hinv.step hc hroom
    simp [hm']
  · intro t woken m' hc hstep
    obtain ⟨m₁, hm₁, -, hover⟩ := hinv.unlock hc.1 hc.2
    rw [hstep] at hm₁
    cases hm₁
    exact hover

instance (m : RWMonitor T) : DecidablePred m.Enabled
  | .lockRead t => inferInstanceAs (Decidable (m.pc t = .out))
  | .lockWrite t => inferInstanceAs (Decidable (m.pc t = .out))
  | .resume t => inferInstanceAs (Decidable (m.pc t = .wokenReader ∨ m.pc t = .wokenWriter))
  | .unlock t woken => inferInstanceAs (Decidable ((m.pc t = .reader ∨ m.pc t = .writer) ∧
    ((∃ u, m.pc u = .waitingWriter) → m.pc woken = .waitingWriter)))

instance (m : RWMonitor T) : DecidablePred m.Room
  | .lockRead _ => inferInstanceAs (Decidable (_ ∧ _))
  | .lockWrite _ => inferInstanceAs (Decidable (_ < _))
  | .resume _ | .unlock _ _ => inferInstanceAs (Decidable True)

/-- A reader leaves while a writer and another reader wait: the writer is next. -/
theorem rwSemaphore_safe_three : ∃ m : RWMonitor (Fin 3),
    m.pc 0 = .out ∧ m.pc 1 = .wokenWriter ∧ m.pc 2 = .waitingReader ∧
      ∀ c, m.Enabled c → m.Room c → m.step c ≠ none := by
  obtain ⟨m, hm, hpc⟩ := Reaches.of_play step (fun m c => m.Enabled c ∧ m.Room c) {}
    [.lockRead (0 : Fin 3), .lockWrite 1, .lockRead 2, .unlock 0 1]
    (fun m => m.pc 0 = .out ∧ m.pc 1 = .wokenWriter ∧ m.pc 2 = .waitingReader) (by decide)
  have hpc := of_decide_eq_true hpc
  exact ⟨m, hpc.1, hpc.2.1, hpc.2.2, (rwSemaphore_safe hm).1⟩

/-- Readers come in one after another. -/
theorem readers_reach (hk : k ≤ countersMax) :
    Reaches step Enabled ({} : RWMonitor (Fin (countersMax + 1)))
      { sem := { inside := k, mode := if k = 0 then .none else .read }
        pc := fun t => if t.val < k then .reader else .out } := by
  induction k with
  | zero => exact .refl
  | succ k ih =>
    refine .step (a := .lockRead ⟨k, by omega⟩) (ih (by omega)) (by simp [Enabled]) ?_
    have hlock : RWSemaphore.lockRead { inside := k, mode := if k = 0 then .none else .read } =
        some ({ inside := k + 1, mode := .read }, true) := by
      have hinc := increment_eq (n := k) (by omega)
      unfold RWSemaphore.lockRead
      by_cases h₀ : k = 0
      · subst h₀
        rfl
      · simp [h₀, hinc]
        omega
    have hpc : Function.update (fun t : Fin (countersMax + 1) =>
        if t.val < k then Place.reader else .out) ⟨k, by omega⟩ .reader =
        fun t => if t.val < k + 1 then .reader else .out := by
      funext t
      by_cases ht : t = ⟨k, by omega⟩
      · simp [ht]
      · have hne : t.val ≠ k := fun h => ht (Fin.ext h)
        have hlt : t.val < k ↔ t.val < k + 1 := by omega
        simp only [Function.update_of_ne ht, hlt]
    simp [step, hlock, hpc]

/-- One reader more than `inside` can count, and a writer that leaves to a writer. -/
theorem rwSemaphore_unsafe :
    (∃ m : RWMonitor (Fin (countersMax + 1)), Reaches step Enabled {} m ∧
      ∃ c, m.Enabled c ∧ m.step c = none) ∧
    ∃ m m' : RWMonitor (Fin 2), Reaches step Enabled {} m ∧ m.Enabled (.unlock 0 1) ∧
      m.step (.unlock 0 1) = some m' ∧ m.sem.inside = 1 ∧ m.pc 1 = .waitingWriter ∧
      m.sem.mode = .write ∧ m'.sem.mode = .write := by
  constructor
  · refine ⟨_, readers_reach le_rfl, .lockRead (Fin.last _), by simp [Enabled], ?_⟩
    simp [step, RWSemaphore.lockRead, countersMax]
  · obtain ⟨m, hm, hQ⟩ := Reaches.of_play step Enabled {} [.lockWrite (0 : Fin 2), .lockWrite 1]
      (fun m => m.Enabled (.unlock 0 1) ∧ m.sem.inside = 1 ∧ m.pc 1 = .waitingWriter ∧
        m.sem.mode = .write ∧ (m.step (.unlock 0 1)).any (·.sem.mode = .write)) (by decide)
    obtain ⟨hen, hin, hpc, hmode, hstep⟩ := of_decide_eq_true hQ
    obtain ⟨m', hm', hmode'⟩ := (Option.any_eq_true _ _).mp hstep
    exact ⟨m, m', hm, hen, hm', hin, hpc, hmode, of_decide_eq_true hmode'⟩

end RWMonitor

end Loxim.Util
