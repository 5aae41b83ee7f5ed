import Loxim.Util.RWUJSemaphore

/-!
# The locks of `BTree::remove`

A child that has no next sibling is balanced with the previous one. Its lock is tried
without waiting; if that fails the child is let go and both are locked from left to
right. `try_lock_write` says `true` when it has the lock, and `tryGetNode` returns
that as an error.
-/

namespace Loxim.Indexes

open Util

/-- Where the thread is between the try and the work on the two nodes. -/
inductive RemovePlace
  | unlockChild
  | lockBrother
  | waitBrother
  | lockChild
  | waitChild
  /-- Before `balanceForward` or `merge`. -/
  | balance
  | returned
  deriving DecidableEq, Repr

/-- The locks of the previous sibling and of the child. -/
structure Siblings (T : Type) where
  brother : RWUJMonitor T
  child : RWUJMonitor T
  place : RemovePlace

inductive SiblingCall (T : Type)
  /-- Another thread. -/
  | onBrother (c : RWUJCall T)
  | onChild (c : RWUJCall T)
  | unlockChild (woken : Woken T)
  | lockBrother
  | wakeBrother (woken : Woken T)
  /-- With the lock, and what reading the page gives. -/
  | gotBrother (code : Int)
  | lockChild
  | wakeChild (woken : Woken T)
  | gotChild (code : Int)

namespace Siblings

variable {T : Type} [DecidableEq T]

/-- `CachedNode::tryGetNode`; `readCode` is what reading the page gives. -/
def tryGetNode (brother : RWUJMonitor T) (t : T) (readCode : Int) : Option (RWUJMonitor T × Int) := do
  let brother ← brother.step (.tryLockWrite t)
  let err : Int := if brother.pc t = .writer then 1 else 0
  if err ≠ 0 then return (brother, err)
  return (brother, readCode)

/-- `remove` up to the test of what `tryGetNode` returns. -/
def start (t : T) (brother child : RWUJMonitor T) (readCode : Int) : Option (Siblings T) := do
  let (brother, err) ← tryGetNode brother t readCode
  return { brother, child, place := if err ≠ 0 then .unlockChild else .balance }

def step (t : T) (s : Siblings T) : SiblingCall T → Option (Siblings T)
  | .onBrother c => (s.brother.step c).map fun brother => { s with brother }
  | .onChild c => (s.child.step c).map fun child => { s with child }
  | .unlockChild woken =>
    (s.child.step (.unlock t woken)).map fun child => { s with child, place := .lockBrother }
  | .lockBrother =>
    (s.brother.step (.lockWrite t)).map fun brother => { s with brother, place := .waitBrother }
  | .wakeBrother woken => (s.brother.step (.resume t woken)).map fun brother => { s with brother }
  | .gotBrother code => some { s with place := if code ≠ 0 then .returned else .lockChild }
  | .lockChild =>
    (s.child.step (.lockWrite t)).map fun child => { s with child, place := .waitChild }
  | .wakeChild woken => (s.child.step (.resume t woken)).map fun child => { s with child }
  | .gotChild code => some { s with place := if code ≠ 0 then .returned else .balance }

/-- Whoever asks for a lock that it has waits for itself and makes no more steps. -/
def Enabled [Fintype T] (t : T) (s : Siblings T) : SiblingCall T → Prop
  | .onBrother c => c.thread ≠ t ∧ s.brother.Enabled c ∧ s.brother.Room c
  | .onChild c => c.thread ≠ t ∧ s.child.Enabled c ∧ s.child.Room c
  | .unlockChild woken => s.place = .unlockChild ∧ s.child.Enabled (.unlock t woken)
  | .lockBrother => s.place = .lockBrother ∧ s.brother.Enabled (.lockWrite t) ∧
    s.brother.Room (.lockWrite t)
  | .wakeBrother woken => s.place = .waitBrother ∧ s.brother.Enabled (.resume t woken)
  | .gotBrother _ => s.place = .waitBrother ∧ s.brother.pc t = .writer
  | .lockChild => s.place = .lockChild ∧ s.child.Enabled (.lockWrite t) ∧
    s.child.Room (.lockWrite t)
  | .wakeChild woken => s.place = .waitChild ∧ s.child.Enabled (.resume t woken)
  | .gotChild _ => s.place = .waitChild ∧ s.child.pc t = .writer

/-- Both nodes are locked when they are worked on, no lock is asked for that the thread
has, and the left one is not waited for with the right one locked. -/
structure LocksOk (t : T) (s : Siblings T) : Prop where
  balance : s.place = .balance → s.brother.pc t = .writer ∧ s.child.pc t = .writer
  lockBrother : s.place = .lockBrother → s.brother.pc t = .out ∧ s.child.pc t = .out
  waitBrother : s.place = .waitBrother → s.child.pc t = .out
  lockChild : s.place = .lockChild → s.child.pc t = .out

variable {t : T} {brother child m m' : RWUJMonitor T} {s s' : Siblings T} {c : SiblingCall T}
  {readCode : Int}

-- ---------------------------------------------------------------------------
-- Where a thread stays
-- ---------------------------------------------------------------------------

/-- On the way to a write lock that was asked for. -/
def Awaits (p : UJPlace) : Prop := p = .waitingWriter ∨ p = .wokenWriter ∨ p = .writer

theorem woke_out {p q : UJPlace} (h : p.Woke q) (hp : p = .out) : q = .out := by
  cases h with
  | same => exact hp
  | reader | writer | upgrader => cases hp

theorem woke_writer {p q : UJPlace} (h : p.Woke q) (hp : p = .writer) : q = .writer := by
  cases h with
  | same => exact hp
  | reader | writer | upgrader => cases hp

theorem woke_awaits {p q : UJPlace} (h : p.Woke q) (hp : Awaits p) : Awaits q := by
  cases h with
  | same => exact hp
  | writer => exact .inr (.inl rfl)
  | reader | upgrader => rcases hp with hp | hp | hp <;> cases hp

theorem awaits_lockWrite (h : m.step (.lockWrite t) = some m') : Awaits (m'.pc t) := by
  rcases RWUJMonitor.step_lockWrite_self h with hpc | hpc
  · exact .inr (.inr hpc)
  · exact .inl hpc

theorem awaits_resume {woken : Woken T} (h : m.step (.resume t woken) = some m')
    (hm : Awaits (m.pc t)) (henabled : m.Enabled (.resume t woken)) : Awaits (m'.pc t) := by
  have hpc : m.pc t = .wokenWriter := by
    rcases hm with hm | hm | hm
    · rcases henabled.1 with he | he | he <;> simp [hm, UJPlace.wokenUpgrade] at he
    · exact hm
    · rcases henabled.1 with he | he | he <;> simp [hm, UJPlace.wokenUpgrade] at he
  exact .inr (.inr ((RWUJMonitor.step_resume_self h).2 hpc))

theorem step_tryLockWrite_self (h : m.step (.tryLockWrite t) = some m') :
    m'.pc t = if m.sem.mode = .none then .writer else .out := by
  obtain ⟨⟨s', entered⟩, hlock, h⟩ := Option.bind_eq_some_iff.mp h
  cases h
  simp only [RWUJSemaphore.tryLockWrite, RWSemaphore.assert_bind] at hlock
  by_cases hmode : m.sem.mode = .none
  · rw [if_pos (c := m.sem.mode = .none) hmode] at hlock
    have hentered : entered = true := by grind
    simp [hentered, hmode]
  · rw [if_neg (c := m.sem.mode = .none) hmode] at hlock
    have hentered : entered = false := by grind
    simp [hentered, hmode]

-- ---------------------------------------------------------------------------
-- Locking again
-- ---------------------------------------------------------------------------

/-- What the thread has of the two locks when it did not get the first one at once. -/
def Has (t : T) (brother child : RWUJMonitor T) : RemovePlace → Prop
  | .unlockChild => brother.pc t = .out ∧ child.pc t = .writer
  | .lockBrother => brother.pc t = .out ∧ child.pc t = .out
  | .waitBrother => Awaits (brother.pc t) ∧ child.pc t = .out
  | .lockChild => brother.pc t = .writer ∧ child.pc t = .out
  | .waitChild => brother.pc t = .writer ∧ Awaits (child.pc t)
  | .balance => brother.pc t = .writer ∧ child.pc t = .writer
  | .returned => True

def Relocks (t : T) (s : Siblings T) : Prop := Has t s.brother s.child s.place

omit [DecidableEq T] in
theorem Relocks.locksOk (h : s.Relocks t) : s.LocksOk t := by
  unfold Relocks at h
  refine ⟨?_, ?_, ?_, ?_⟩
  · intro hp
    rwa [hp] at h
  · intro hp
    rwa [hp] at h
  · intro hp
    rw [hp] at h
    exact h.2
  · intro hp
    rw [hp] at h
    exact h.2

omit [DecidableEq T] in
/-- Another thread changes nothing of that. -/
theorem Has.others {brother' child' : RWUJMonitor T} {place : RemovePlace}
    (h : Has t brother child place) (hb : (brother.pc t).Woke (brother'.pc t))
    (hc : (child.pc t).Woke (child'.pc t)) : Has t brother' child' place := by
  cases place with
  | unlockChild => exact ⟨woke_out hb h.1, woke_writer hc h.2⟩
  | lockBrother => exact ⟨woke_out hb h.1, woke_out hc h.2⟩
  | waitBrother => exact ⟨woke_awaits hb h.1, woke_out hc h.2⟩
  | lockChild => exact ⟨woke_writer hb h.1, woke_out hc h.2⟩
  | waitChild => exact ⟨woke_writer hb h.1, woke_awaits hc h.2⟩
  | balance => exact ⟨woke_writer hb h.1, woke_writer hc h.2⟩
  | returned => trivial

theorem Relocks.step [Fintype T] (h : s.Relocks t) (hok : s.Enabled t c)
    (hstep : s.step t c = some s') : s'.Relocks t := by
  unfold Relocks at h
  cases c with
  | onBrother c =>
    obtain ⟨b, hb, rfl⟩ := Option.map_eq_some_iff.mp hstep
    exact h.others (RWUJMonitor.step_others hb hok.1.symm) .same
  | onChild c =>
    obtain ⟨b, hb, rfl⟩ := Option.map_eq_some_iff.mp hstep
    exact h.others .same (RWUJMonitor.step_others hb hok.1.symm)
  | unlockChild woken =>
    obtain ⟨b, hb, rfl⟩ := Option.map_eq_some_iff.mp hstep
    rw [hok.1] at h
    exact ⟨h.1, RWUJMonitor.step_unlock_self hb⟩
  | lockBrother =>
    obtain ⟨b, hb, rfl⟩ := Option.map_eq_some_iff.mp hstep
    rw [hok.1] at h
    exact ⟨awaits_lockWrite hb, h.2⟩
  | wakeBrother woken =>
    obtain ⟨b, hb, rfl⟩ := Option.map_eq_some_iff.mp hstep
    simp only [Relocks, hok.1] at h ⊢
    exact ⟨awaits_resume hb h.1 hok.2, h.2⟩
  | gotBrother code =>
    cases hstep
    rw [hok.1] at h
    simp only [Relocks]
    split
    · trivial
    · exact ⟨hok.2, h.2⟩
  | lockChild =>
    obtain ⟨b, hb, rfl⟩ := Option.map_eq_some_iff.mp hstep
    rw [hok.1] at h
    exact ⟨h.1, awaits_lockWrite hb⟩
  | wakeChild woken =>
    obtain ⟨b, hb, rfl⟩ := Option.map_eq_some_iff.mp hstep
    simp only [Relocks, hok.1] at h ⊢
    exact ⟨h.1, awaits_resume hb h.2 hok.2⟩
  | gotChild code =>
    cases hstep
    rw [hok.1] at h
    simp only [Relocks]
    split
    · trivial
    · exact ⟨h.1, hok.2⟩

-- ---------------------------------------------------------------------------
-- The try
-- ---------------------------------------------------------------------------

/-- What `remove` begins with when the try is over. -/
theorem start_eq [Fintype T] (hb : brother.Inv) (hbt : brother.pc t = .out) (child : RWUJMonitor T)
    (readCode : Int) :
    ∃ brother', brother.step (.tryLockWrite t) = some brother' ∧
      start t brother child readCode = some
        { brother := brother'
          child
          place := if brother.sem.mode = .none ∨ readCode ≠ 0 then .unlockChild else .balance } := by
  obtain ⟨brother', hstep, -⟩ := hb.tryLockWrite hbt
  have hself := step_tryLockWrite_self hstep
  refine ⟨brother', hstep, ?_⟩
  simp only [start, tryGetNode, hstep, Option.bind_eq_bind, Option.bind_some]
  by_cases hmode : brother.sem.mode = .none
  · rw [if_pos hmode] at hself
    simp [hself, hmode]
  · rw [if_neg hmode] at hself
    simp [hself, hmode]

omit [DecidableEq T] in
/-- Somebody can always be woken. -/
theorem exists_reached (pc : T → UJPlace) (t : T) : ∃ woken, RWUJMonitor.Reached pc woken := by
  have hpick (P : T → Prop) : ∃ u, (∃ v, P v) → P u := by
    by_cases h : ∃ v, P v
    · obtain ⟨v, hv⟩ := h
      exact ⟨v, fun _ => hv⟩
    · exact ⟨t, fun hv => absurd hv h⟩
  obtain ⟨writer, hwriter⟩ := hpick fun u => (pc u).waitsWrite = true
  obtain ⟨upgrader, hupgrader⟩ := hpick fun u => (pc u).waitsUpgrade = true
  exact ⟨⟨writer, upgrader⟩, hwriter, hupgrader⟩

/-- The thread got the lock at once: it lets the child go and asks for the lock it has. -/
theorem not_locksOk_of_got [Fintype T] {s₀ : Siblings T} (hplace : s₀.place = .unlockChild)
    (hb : s₀.brother.pc t = .writer) (hc : s₀.child.Inv) (hct : s₀.child.pc t = .writer) :
    ¬ ∀ s, Reaches (step t) (Enabled t) s₀ s → s.LocksOk t := by
  intro hall
  obtain ⟨woken, hwoken⟩ := exists_reached s₀.child.pc t
  obtain ⟨child, hchild, -⟩ := hc.unlock (.inr hct) hwoken
  have hstep : s₀.step t (.unlockChild woken) =
      some { s₀ with child, place := .lockBrother } := by
    simp [step, hchild]
  have henabled : s₀.Enabled t (.unlockChild woken) := ⟨hplace, .inr hct, hwoken⟩
  have hok := hall _ (Reaches.refl.step henabled hstep)
  have hout := (hok.lockBrother rfl).1
  rw [hb] at hout
  cases hout

/-- For every state the two locks can be in when the thread comes with the child locked,
the locking is right, whatever the other threads do, if and only if the brother's lock is
not free and its page cannot be read at the try. -/
theorem locksOk_iff [Fintype T]
    (hb : Reaches RWUJMonitor.step (fun m c => m.Enabled c ∧ m.Room c) {} brother)
    (hc : Reaches RWUJMonitor.step (fun m c => m.Enabled c ∧ m.Room c) {} child)
    (hbt : brother.pc t = .out) (hct : child.pc t = .writer) (readCode : Int) :
    ∃ s₀, start t brother child readCode = some s₀ ∧
      ((∀ s, Reaches (step t) (Enabled t) s₀ s → s.LocksOk t) ↔
        brother.sem.mode ≠ .none ∧ readCode ≠ 0) := by
  obtain ⟨brother', hstep, hstart⟩ :=
    start_eq (RWUJMonitor.inv_of_reaches hb) hbt child readCode
  have hself := step_tryLockWrite_self hstep
  refine ⟨_, hstart, ?_, ?_⟩
  · intro hall
    by_contra hno
    by_cases hmode : brother.sem.mode = .none
    · rw [if_pos hmode] at hself
      exact not_locksOk_of_got (if_pos (.inl hmode)) hself (RWUJMonitor.inv_of_reaches hc) hct hall
    · have hcode : readCode = 0 := by
        by_contra hcode
        exact hno ⟨hmode, hcode⟩
      have hplace : ¬ (brother.sem.mode = .none ∨ readCode ≠ 0) := by
        rintro (h | h)
        · exact hmode h
        · exact h hcode
      rw [if_neg hmode] at hself
      have hout := ((hall _ .refl).balance (if_neg hplace)).1
      rw [hself] at hout
      cases hout
  · rintro ⟨hmode, hcode⟩ s hs
    rw [if_neg hmode] at hself
    have hrelocks : Relocks t s := by
      apply hs.invariant
      · rw [Relocks, if_pos (.inr hcode)]
        exact ⟨hself, hct⟩
      · intro s₁ c s₂ h₁ hok hstep
        exact h₁.step hok hstep
    exact hrelocks.locksOk

/-- One of two threads has locked a node, the other is out. -/
def lockedBy (u : Fin 2) : RWUJMonitor (Fin 2) where
  sem := { mode := .write, inside := 1 }
  pc v := if v = u then .writer else .out

theorem reaches_lockedBy (u : Fin 2) :
    Reaches RWUJMonitor.step (fun m c => m.Enabled c ∧ m.Room c) {} (lockedBy u) := by
  have hroom : ({} : RWUJMonitor (Fin 2)).Room (.lockWrite u) := by
    change (RWUJMonitor.crowd fun _ : Fin 2 => UJPlace.out).waitW < countersMax
    rw [RWUJMonitor.crowd_out]
    decide
  have henabled : ({} : RWUJMonitor (Fin 2)).Enabled (.lockWrite u) := rfl
  have hpc : (lockedBy u).pc = Function.update (fun _ => .out) u .writer := by
    funext v
    simp [lockedBy, Function.update_apply]
  have hlocked : lockedBy u = { sem := { mode := .write, inside := 1 }
                                pc := Function.update (fun _ => .out) u .writer } := by
    rw [← hpc]
    rfl
  rw [hlocked]
  exact Reaches.refl.step (a := .lockWrite u) ⟨henabled, hroom⟩ rfl

/-- The brother is locked by another thread and cannot be read. -/
theorem locksOk_unreadable :
    ∃ s₀, start 0 (lockedBy 1) (lockedBy 0) 5 = some s₀ ∧
      ∀ s, Reaches (step 0) (Enabled 0) s₀ s → s.LocksOk 0 := by
  obtain ⟨s₀, hs₀, hiff⟩ :=
    locksOk_iff (t := 0) (reaches_lockedBy 1) (reaches_lockedBy 0) rfl rfl 5
  exact ⟨s₀, hs₀, hiff.mpr ⟨by decide, by decide⟩⟩

/-- Nobody has locked the brother: the thread waits for itself. Another thread has locked
it: the nodes are worked on without its lock. -/
theorem not_locksOk :
    (∃ s₀ : Siblings (Fin 2), start 0 {} (lockedBy 0) 0 = some s₀ ∧
      ¬ ∀ s, Reaches (step 0) (Enabled 0) s₀ s → s.LocksOk 0) ∧
    ∃ s₀ : Siblings (Fin 2), start 0 (lockedBy 1) (lockedBy 0) 0 = some s₀ ∧
      ¬ ∀ s, Reaches (step 0) (Enabled 0) s₀ s → s.LocksOk 0 := by
  have hinv : (lockedBy 0).Inv := RWUJMonitor.inv_of_reaches (reaches_lockedBy 0)
  constructor
  · exact ⟨_, rfl, not_locksOk_of_got (t := 0) rfl rfl hinv rfl⟩
  · refine ⟨_, rfl, ?_⟩
    intro hall
    have hheld := ((hall _ .refl).balance rfl).1
    cases hheld

end Siblings

end Loxim.Indexes
