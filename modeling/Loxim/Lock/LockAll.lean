import Loxim.Lock.LockManager
import Mathlib.Data.Fin.VecNotation

/-!
# Locking a whole set

`lockAll` calls `lock_primitive` for the ids of a set. Its loop never moves on to
the next id, and a lock that is held is granted again: it returns only if the set
is empty or the first id is refused.
-/

namespace Loxim.Lock

open Util

def ManagerCall.transaction {T P : Type} : ManagerCall T P → T
  | .lock t _ _ | .wait t | .note t | .unlockAll t | .unlockNext t _ | .unlocked t | .ended t => t
  | .inner c => c.thread

namespace SingleLock

variable {T : Type} [DecidableEq T] {priority : T → Int} {l l' : SingleLock T} {t u : T}
  {mode : AccessMode} {c : LockCall T}

/-- A transaction has what it gets when it asks in that mode. -/
def HasMode (l : SingleLock T) (t : T) : AccessMode → Prop
  | .read => t ∈ l.currentRead ∨ t ∈ l.currentWrite
  | .write => t ∈ l.currentWrite

/-- What a transaction has found out, and what it was told, is so. -/
def Truthful (l : SingleLock T) (t : T) : Stage → Prop
  | .entered _ r w => (r = true ↔ t ∈ l.currentRead) ∧ (w = true ↔ t ∈ l.currentWrite)
  | .returned mode 0 => l.HasMode t mode
  | _ => True

omit [DecidableEq T] in
theorem truthful_congr {s : Stage} (hr : t ∈ l'.currentRead ↔ t ∈ l.currentRead)
    (hw : t ∈ l'.currentWrite ↔ t ∈ l.currentWrite) (h : l.Truthful t s) : l'.Truthful t s := by
  cases s with
  | entered mode r w => exact ⟨h.1.trans hr.symm, h.2.trans hw.symm⟩
  | returned mode code =>
    cases code with
    | succ n => trivial
    | zero =>
      cases mode with
      | read => exact h.imp hr.mpr hw.mpr
      | write => exact hw.mpr h
  | _ => trivial

omit [DecidableEq T] in
theorem truthful_returned {code : Nat} (h : code ≠ 0) : l.Truthful t (.returned mode code) := by
  cases code with
  | zero => exact absurd rfl h
  | succ n => trivial

/-- The answer to one who has the lock already. -/
theorem check_of_hasMode {r w : Bool} (hr : r = true ↔ t ∈ l.currentRead)
    (hw : w = true ↔ t ∈ l.currentWrite) (h : l.HasMode t mode) :
    l.check priority t mode r w = l.granted t mode := by
  cases mode with
  | read =>
    rcases h with h | h
    · rw [hr.mpr h]
      rfl
    · rw [hw.mpr h]
      cases r <;> rfl
  | write =>
    rw [hw.mpr h]
    cases r <;> rfl

theorem granted_truthful (h : l.HasMode t mode) :
    (l.granted t mode).Truthful t ((l.granted t mode).stage t) := by
  cases mode <;> simpa [granted, Truthful, HasMode] using h

/-- Whoever is granted the lock at once has it. -/
theorem hasMode_of_check {r w : Bool} (hr : r = true ↔ t ∈ l.currentRead)
    (hw : w = true ↔ t ∈ l.currentWrite) :
    (l.check priority t mode r w).Truthful t ((l.check priority t mode r w).stage t) := by
  have hallow (up : Bool) :
      (l.allow priority t mode up).Truthful t ((l.allow priority t mode up).stage t) := by
    unfold allow
    split
    · simp [goto, Truthful]
    · simp only [goto, Function.update_self]
      exact truthful_returned ‹_›
  cases mode with
  | read =>
    cases r with
    | true =>
      have h : l.HasMode t .read := Or.inl (hr.mp rfl)
      exact granted_truthful h
    | false =>
      cases w with
      | true =>
        have h : l.HasMode t .read := Or.inr (hw.mp rfl)
        exact granted_truthful h
      | false =>
        simp only [check]
        split
        · simp [goto, Truthful]
        · exact hallow false
  | write =>
    cases w with
    | true =>
      have h : l.HasMode t .write := hw.mp rfl
      cases r <;> exact granted_truthful h
    | false => cases r <;> exact hallow _

theorem step_truthful (h : ∀ u, l.Truthful u (l.stage u)) (hstep : l.step priority c = some l') :
    ∀ u, l'.Truthful u (l'.stage u) := by
  intro u
  rcases eq_or_ne u c.thread with rfl | hne
  swap
  · have hf := step_frame hstep hne
    rw [hf.stage]
    exact truthful_congr hf.read hf.write (h u)
  have hself := h c.thread
  cases c with
  | waitForLock t mode =>
    cases hstep
    simp [LockCall.thread, Truthful]
  | check t =>
    simp only [step] at hstep
    split at hstep
    · rename_i mode r w hs
      cases hstep
      rw [LockCall.thread, hs] at hself
      exact hasMode_of_check hself.1 hself.2
    · cases hstep
  | ask t woken =>
    simp only [step] at hstep
    split at hstep
    · obtain ⟨m, -, hstep⟩ := Option.bind_eq_some_iff.mp hstep
      cases hstep
      simp [LockCall.thread, goto, Truthful]
    · cases hstep
  | resume t woken =>
    obtain ⟨m, -, hstep⟩ := Option.bind_eq_some_iff.mp hstep
    cases hstep
    exact truthful_congr Iff.rfl Iff.rfl hself
  | finish t =>
    simp only [step] at hstep
    split at hstep
    · rename_i mode upgrade hs
      split at hstep
      · cases hstep
        cases mode <;> simp [LockCall.thread, finish, Truthful, HasMode]
      · cases hstep
        simp only [LockCall.thread, goto, Function.update_self]
        exact truthful_returned ‹_›
    · cases hstep
  | unlock t =>
    cases hstep
    simp [LockCall.thread, Truthful]
  | release t woken =>
    simp only [step] at hstep
    split at hstep
    · obtain ⟨m, -, hstep⟩ := Option.bind_eq_some_iff.mp hstep
      cases hstep
      simp [LockCall.thread, goto, Truthful]
    · cases hstep

theorem create_truthful (t : T) (mode : AccessMode) (u : T) :
    (create t mode).Truthful u ((create t mode).stage u) := by
  simp [create, Truthful]

theorem create_hasMode (t : T) (mode : AccessMode) : (create t mode).HasMode t mode := by
  cases mode <;> simp [create, HasMode]

end SingleLock

namespace LockManager

variable {T P L : Type} [DecidableEq T] [DecidableEq P] {priority : T → Int}
  {m m' m'' : LockManager T P} {t u : T} {id : Nat} {phid : P} {l : SingleLock T}
  {mode : AccessMode} {c : ManagerCall T P}

-- ---------------------------------------------------------------------------
-- What a step does to the locks
-- ---------------------------------------------------------------------------

/-- A step leaves the locks alone, makes a step on one, makes a new one or deletes
one. -/
inductive Effect (priority : T → Int) (m : LockManager T P) (c : ManagerCall T P)
    (m' : LockManager T P) : Prop
  | none (hheap : m'.heap = m.heap) (hmap : m'.mapOfLocks = m.mapOfLocks)
    (hid : m'.singleLockId = m.singleLockId)
  | inside {id : Nat} {phid : P} {l l' : SingleLock T} {c' : LockCall T}
    (hthread : c'.thread = c.transaction) (hl : m.heap id = some (phid, l))
    (hl' : l.step priority c' = some l')
    (hheap : m'.heap = Function.update m.heap id (some (phid, l')))
    (hmap : m'.mapOfLocks = m.mapOfLocks) (hid : m'.singleLockId = m.singleLockId)
  | new {t : T} {phid : P} {mode : AccessMode} (hcall : c = .lock t phid mode)
    (hnone : m.mapOfLocks phid = .none) (hnew : m' = m.newLock t phid mode)
  | delete {id : Nat} {phid : P} {l : SingleLock T} (hl : m.heap id = some (phid, l))
    (hheap : m'.heap = Function.update m.heap id .none)
    (hmap : m'.mapOfLocks = Function.update m.mapOfLocks phid .none)
    (hid : m'.singleLockId = m.singleLockId)

theorem Effect.of_onLock {m₁ : LockManager T P} {c' : LockCall T}
    (hthread : c'.thread = c.transaction) (h : m.onLock priority id c' = some m₁)
    (hheap : m'.heap = m₁.heap) (hmap : m'.mapOfLocks = m₁.mapOfLocks)
    (hid : m'.singleLockId = m₁.singleLockId) : Effect priority m c m' := by
  obtain ⟨phid, l, l', hl, hl', rfl⟩ := onLock_eq_some h
  exact .inside hthread hl hl' hheap hmap hid

theorem effect_of_step (h : m.step priority c = some m') : Effect priority m c m' := by
  cases c with
  | lock t phid mode =>
    simp only [step] at h
    split at h
    · cases h
      exact .new rfl ‹_› rfl
    · cases h
      exact .none rfl rfl rfl
  | wait t =>
    simp only [step] at h
    split at h
    · obtain ⟨m₁, hm₁, h⟩ := Option.bind_eq_some_iff.mp h
      cases h
      exact .of_onLock rfl hm₁ rfl rfl rfl
    · cases h
  | inner c =>
    simp only [step] at h
    split at h
    · exact .of_onLock rfl h rfl rfl rfl
    · exact .of_onLock rfl h rfl rfl rfl
    · cases h
  | note t =>
    simp only [step] at h
    split at h
    · obtain ⟨⟨phid, l⟩, hl, h⟩ := Option.bind_eq_some_iff.mp h
      simp only at h
      split at h <;> cases h <;> exact .none rfl rfl rfl
    · cases h
  | unlockAll t =>
    cases h
    exact .none rfl rfl rfl
  | unlockNext t id =>
    simp only [step] at h
    split at h
    · obtain ⟨m₁, hm₁, h⟩ := Option.bind_eq_some_iff.mp h
      cases h
      exact .of_onLock rfl hm₁ rfl rfl rfl
    · cases h
  | unlocked t =>
    simp only [step] at h
    split at h
    · obtain ⟨⟨phid, l⟩, hl, h⟩ := Option.bind_eq_some_iff.mp h
      cases h
      split
      · exact .delete hl rfl rfl rfl
      · exact .none rfl rfl rfl
    · cases h
  | ended t =>
    cases h
    exact .none rfl rfl rfl

/-- A step changes the place of its own transaction only. -/
theorem stage_others (h : m.step priority c = some m') (hu : u ≠ c.transaction) :
    m'.stage u = m.stage u := by
  cases c with
  | lock t phid mode =>
    simp only [step] at h
    split at h
    · cases h
      rfl
    · cases h
      exact Function.update_of_ne hu ..
  | wait t =>
    simp only [step] at h
    split at h
    · obtain ⟨m₁, hm₁, h⟩ := Option.bind_eq_some_iff.mp h
      obtain ⟨phid, l, l', hl, hl', rfl⟩ := onLock_eq_some hm₁
      cases h
      exact Function.update_of_ne hu ..
    · cases h
  | inner c =>
    simp only [step] at h
    split at h
    · obtain ⟨phid, l, l', hl, hl', rfl⟩ := onLock_eq_some h
      rfl
    · obtain ⟨phid, l, l', hl, hl', rfl⟩ := onLock_eq_some h
      rfl
    · cases h
  | note t =>
    simp only [step] at h
    split at h
    · obtain ⟨⟨phid, l⟩, hl, h⟩ := Option.bind_eq_some_iff.mp h
      simp only at h
      split at h <;> cases h <;> exact Function.update_of_ne hu ..
    · cases h
  | unlockAll t =>
    cases h
    exact Function.update_of_ne hu ..
  | unlockNext t id =>
    simp only [step] at h
    split at h
    · obtain ⟨m₁, hm₁, h⟩ := Option.bind_eq_some_iff.mp h
      obtain ⟨phid, l, l', hl, hl', rfl⟩ := onLock_eq_some hm₁
      cases h
      exact Function.update_of_ne hu ..
    · cases h
  | unlocked t =>
    simp only [step] at h
    split at h
    · obtain ⟨⟨phid, l⟩, hl, h⟩ := Option.bind_eq_some_iff.mp h
      cases h
      split <;> exact Function.update_of_ne hu ..
    · cases h
  | ended t =>
    cases h
    exact Function.update_of_ne hu ..

/-- The map knows the locks there are, and every lock tells the truth. -/
structure Sound (m : LockManager T P) : Prop where
  fresh : ∀ id, m.heap id ≠ none → id < m.singleLockId
  live : ∀ phid id, m.mapOfLocks phid = some id ↔ ∃ l, m.heap id = some (phid, l)
  truthful : ∀ id phid l, m.heap id = some (phid, l) → ∀ u, l.Truthful u (l.stage u)

omit [DecidableEq T] [DecidableEq P] in
theorem sound_init : ({} : LockManager T P).Sound := by
  refine ⟨?_, ?_, ?_⟩
  · intro id h
    exact absurd rfl h
  · intro phid id
    constructor
    · rintro ⟨⟩
    · rintro ⟨l, ⟨⟩⟩
  · rintro id phid l ⟨⟩

theorem Sound.step (h : m.Sound) (hstep : m.step priority c = some m') : m'.Sound := by
  cases effect_of_step hstep with
  | none hheap hmap hid => exact ⟨hheap ▸ hid ▸ h.fresh, hheap ▸ hmap ▸ h.live, hheap ▸ h.truthful⟩
  | @inside id₁ phid₁ l₁ l₁' c' hthread hl hl' hheap hmap hid =>
    have hself : m'.heap id₁ = some (phid₁, l₁') := by rw [hheap, Function.update_self]
    have hother {i : Nat} (hne : i ≠ id₁) : m'.heap i = m.heap i := by
      rw [hheap, Function.update_of_ne hne]
    refine ⟨?_, ?_, ?_⟩
    · intro i hi
      rw [hid]
      rcases eq_or_ne i id₁ with rfl | hne
      · exact h.fresh i (by simp [hl])
      · exact h.fresh i (by rwa [← hother hne])
    · intro p i
      rw [hmap, h.live]
      rcases eq_or_ne i id₁ with rfl | hne
      · simp [hself, hl]
      · rw [hother hne]
    · intro i p l hi
      rcases eq_or_ne i id₁ with rfl | hne
      · rw [hself] at hi
        cases hi
        exact SingleLock.step_truthful (h.truthful i phid₁ l₁ hl) hl'
      · exact h.truthful i p l (by rwa [← hother hne])
  | @new t phid₁ mode hcall hnone hnew =>
    subst hnew
    have hself : (m.newLock t phid₁ mode).heap m.singleLockId =
        some (phid₁, SingleLock.create t mode) := Function.update_self ..
    have hother {i : Nat} (hne : i ≠ m.singleLockId) :
        (m.newLock t phid₁ mode).heap i = m.heap i := Function.update_of_ne hne ..
    have hfree : m.heap m.singleLockId = none := by
      by_contra hne
      exact lt_irrefl _ (h.fresh _ hne)
    refine ⟨?_, ?_, ?_⟩
    · intro i hi
      rcases eq_or_ne i m.singleLockId with rfl | hne
      · exact Nat.lt_succ_self _
      · exact Nat.lt_succ_of_lt (h.fresh i (by rwa [← hother hne]))
    · intro p i
      rcases eq_or_ne p phid₁ with rfl | hp
      · have hmap : (m.newLock t p mode).mapOfLocks p = some m.singleLockId :=
          Function.update_self ..
        rw [hmap]
        rcases eq_or_ne i m.singleLockId with rfl | hne
        · simp [hself]
        · simp only [Option.some.injEq, hne.symm, false_iff, hother hne]
          intro hl
          rw [← h.live, hnone] at hl
          cases hl
      · have hmap : (m.newLock t phid₁ mode).mapOfLocks p = m.mapOfLocks p :=
          Function.update_of_ne hp ..
        rw [hmap, h.live]
        rcases eq_or_ne i m.singleLockId with rfl | hne
        · simp [hself, hfree, Ne.symm hp]
        · rw [hother hne]
    · intro i p l hi
      rcases eq_or_ne i m.singleLockId with rfl | hne
      · rw [hself] at hi
        cases hi
        exact SingleLock.create_truthful t mode
      · exact h.truthful i p l (by rwa [← hother hne])
  | @delete id₁ phid₁ l₁ hl hheap hmap hid =>
    have hother {i : Nat} {p : P} {l : SingleLock T} (hi : m'.heap i = some (p, l)) :
        i ≠ id₁ ∧ m.heap i = some (p, l) := by
      rcases eq_or_ne i id₁ with rfl | hne
      · simp [hheap] at hi
      · exact ⟨hne, by rwa [hheap, Function.update_of_ne hne] at hi⟩
    have hmine : m.mapOfLocks phid₁ = some id₁ := (h.live phid₁ id₁).mpr ⟨l₁, hl⟩
    refine ⟨?_, ?_, ?_⟩
    · intro i hi
      obtain ⟨⟨p, l⟩, hv⟩ := Option.ne_none_iff_exists'.mp hi
      rw [hid]
      exact h.fresh i (by simp [(hother hv).2])
    · intro p i
      constructor
      · intro hi
        rcases eq_or_ne p phid₁ with rfl | hp
        · simp [hmap] at hi
        · rw [hmap, Function.update_of_ne hp] at hi
          obtain ⟨l, hil⟩ := (h.live p i).mp hi
          have hne : i ≠ id₁ := by
            rintro rfl
            rw [hil] at hl
            exact hp (congrArg Prod.fst (Option.some.inj hl))
          exact ⟨l, by rw [hheap, Function.update_of_ne hne, hil]⟩
      · rintro ⟨l, hi⟩
        obtain ⟨hne, hi⟩ := hother hi
        have hold := (h.live p i).mpr ⟨l, hi⟩
        have hp : p ≠ phid₁ := by
          rintro rfl
          rw [hmine] at hold
          exact hne (Option.some.inj hold).symm
        rw [hmap, Function.update_of_ne hp, hold]
    · intro i p l hi
      exact h.truthful i p l (hother hi).2

theorem sound_of_reaches {ok : LockManager T P → ManagerCall T P → Prop}
    (h : Reaches (step priority) ok {} m) : m.Sound :=
  h.invariant sound_init fun _ _ _ hs _ hstep => hs.step hstep

-- ---------------------------------------------------------------------------
-- Inside lock_primitive
-- ---------------------------------------------------------------------------

/-- The mode of the request a transaction is at. -/
def AtMode (mode : AccessMode) : Stage → Prop
  | .entered mode' _ _ | .allowed mode' _ | .asking mode' _ | .returned mode' _ => mode' = mode
  | .idle | .leaving _ | .unlocked _ => False

/-- While a transaction waits, others do what they like. -/
def During (t : T) (m : LockManager T P) (c : ManagerCall T P) : Prop :=
  m.Enabled c ∧ (c.transaction = t → c = .wait t ∨ ∃ c', c = .inner c')

structure Asks (m : LockManager T P) (t : T) (phid : P) (mode : AccessMode) (id : Nat) : Prop where
  sound : m.Sound
  old : id < m.singleLockId
  same : ∀ p l, m.heap id = some (p, l) → p = phid
  place : m.stage t = .found id mode ∨
    (m.stage t = .inLock id ∧ ∀ p l, m.heap id = some (p, l) → AtMode mode (l.stage t))

/-- What a transaction's own step inside a lock does to its place there. -/
theorem atMode_step {c : LockCall T} {l l' : SingleLock T} (h : AtMode mode (l.stage c.thread))
    (hin : isInner c = true) (hstep : l.step priority c = some l') :
    AtMode mode (l'.stage c.thread) := by
  cases c with
  | waitForLock t mode => cases hin
  | unlock t => cases hin
  | check t =>
    simp only [SingleLock.step] at hstep
    split at hstep
    · rename_i mode' r w hs
      cases hstep
      rw [LockCall.thread, hs] at h
      rcases l.check_cases priority t mode' r w with ⟨up, hcheck⟩ | ⟨-, hcheck⟩ | ⟨-, hcheck⟩
      · simpa [hcheck, LockCall.thread, SingleLock.goto, AtMode] using h
      · simpa [hcheck, LockCall.thread, SingleLock.goto, AtMode] using h
      · simpa [hcheck, LockCall.thread, SingleLock.granted, AtMode] using h
    · cases hstep
  | ask t woken =>
    simp only [SingleLock.step] at hstep
    split at hstep
    · rename_i mode' up hs
      obtain ⟨monitor, -, hstep⟩ := Option.bind_eq_some_iff.mp hstep
      cases hstep
      rw [LockCall.thread, hs] at h
      simpa [LockCall.thread, SingleLock.goto, AtMode] using h
    · cases hstep
  | resume t woken =>
    obtain ⟨monitor, -, hstep⟩ := Option.bind_eq_some_iff.mp hstep
    cases hstep
    exact h
  | finish t =>
    simp only [SingleLock.step] at hstep
    split at hstep
    · rename_i mode' up hs
      rw [LockCall.thread, hs] at h
      split at hstep
      · cases hstep
        simpa [LockCall.thread, SingleLock.finish, AtMode] using h
      · cases hstep
        simpa [LockCall.thread, SingleLock.goto, AtMode] using h
    · cases hstep
  | release t woken =>
    simp only [SingleLock.step] at hstep
    split at hstep
    · rename_i d hs
      rw [LockCall.thread, hs] at h
      exact h.elim
    · cases hstep

/-- Locks come and go, but not under an old id. -/
theorem Asks.old_step (h : m.Asks t phid mode id) (hstep : m.step priority c = some m') :
    id < m'.singleLockId ∧ ∀ p l, m'.heap id = some (p, l) → p = phid ∧
      (m.heap id = some (p, l) ∨ ∃ l₀ c', c'.thread = c.transaction ∧
        m.heap id = some (p, l₀) ∧ l₀.step priority c' = some l) := by
  cases effect_of_step hstep with
  | none hheap hmap hid =>
    rw [hid, hheap]
    exact ⟨h.old, fun p l hl => ⟨h.same p l hl, Or.inl hl⟩⟩
  | @inside id₁ phid₁ l₁ l₁' c' hthread hl hl' hheap hmap hid =>
    rw [hid, hheap]
    refine ⟨h.old, ?_⟩
    intro p l hp
    rcases eq_or_ne id id₁ with rfl | hne
    · rw [Function.update_self] at hp
      cases hp
      exact ⟨h.same _ l₁ hl, Or.inr ⟨l₁, c', hthread, hl, hl'⟩⟩
    · rw [Function.update_of_ne hne] at hp
      exact ⟨h.same p l hp, Or.inl hp⟩
  | @new t phid₁ mode hcall hnone hnew =>
    subst hnew
    refine ⟨Nat.lt_succ_of_lt h.old, ?_⟩
    intro p l hp
    have hp' : m.heap id = some (p, l) := by
      simpa [newLock, Function.update_of_ne h.old.ne] using hp
    exact ⟨h.same p l hp', Or.inl hp'⟩
  | @delete id₁ phid₁ l₁ hl hheap hmap hid =>
    rw [hid, hheap]
    refine ⟨h.old, ?_⟩
    intro p l hp
    rcases eq_or_ne id id₁ with rfl | hne
    · simp at hp
    · rw [Function.update_of_ne hne] at hp
      exact ⟨h.same p l hp, Or.inl hp⟩

theorem Asks.step (h : m.Asks t phid mode id) (hc : During t m c)
    (hstep : m.step priority c = some m') : m'.Asks t phid mode id := by
  obtain ⟨hold, hfrom⟩ := h.old_step hstep
  refine ⟨h.sound.step hstep, hold, fun p l hl => (hfrom p l hl).1, ?_⟩
  rcases eq_or_ne t c.transaction with heq | hne
  · rcases hc.2 heq.symm with rfl | ⟨c', rfl⟩
    · simp only [LockManager.step] at hstep
      rcases h.place with hfound | ⟨hin, -⟩
      · rw [hfound] at hstep
        obtain ⟨m₁, hm₁, hstep⟩ := Option.bind_eq_some_iff.mp hstep
        obtain ⟨p₁, l₁, l₁', hl₁, hl₁', rfl⟩ := onLock_eq_some hm₁
        cases hstep
        refine Or.inr ⟨Function.update_self .., ?_⟩
        intro p l hl
        simp only [goto, Function.update_self, Option.some.injEq, Prod.mk.injEq] at hl
        obtain ⟨-, rfl⟩ := hl
        cases hl₁'
        simp [AtMode]
      · simp [hin] at hstep
    · have hthread : t = c'.thread := heq
      rcases h.place with hfound | ⟨hin, hmode⟩
      · simp [LockManager.step, ← hthread, hfound] at hstep
      · simp only [LockManager.step, ← hthread, hin] at hstep
        obtain ⟨p₁, l₁, l₁', hl₁, hl₁', rfl⟩ := onLock_eq_some hstep
        refine Or.inr ⟨hin, ?_⟩
        intro p l hl
        simp only [Function.update_self, Option.some.injEq, Prod.mk.injEq] at hl
        obtain ⟨-, rfl⟩ := hl
        have hat := hmode p₁ l₁ hl₁
        rw [hthread] at hat ⊢
        exact atMode_step hat hc.1.1 hl₁'
  · rw [stage_others hstep hne]
    rcases h.place with hfound | ⟨hin, hmode⟩
    · exact Or.inl hfound
    · refine Or.inr ⟨hin, ?_⟩
      intro p l hl
      obtain ⟨-, hl | ⟨l₀, c', hthread, hl₀, hl₀'⟩⟩ := hfrom p l hl
      · exact hmode p l hl
      · have hf := SingleLock.step_frame hl₀' (u := t) (by rwa [hthread])
        rw [hf.stage]
        exact hmode p l₀ hl₀

-- ---------------------------------------------------------------------------
-- lock_primitive
-- ---------------------------------------------------------------------------

/-- `ENoFile`. -/
def eNoFile : Nat := 0x100

/-- A call of `lock_primitive` with its result and the state it returns in. An
object that has no physical id is not found. -/
inductive Primitive (priority : T → Int) (t : T) (mode : AccessMode) (m : LockManager T P) :
    Option P → Nat → LockManager T P → Prop
  | noFile : Primitive priority t mode m none eNoFile m
  | new {phid : P} (hc : m.Enabled (.lock t phid mode)) (hnone : m.mapOfLocks phid = none) :
    Primitive priority t mode m (some phid) 0 (m.newLock t phid mode)
  | waited {phid p : P} {id code : Nat} {m₁ m₂ : LockManager T P} {l : SingleLock T}
    {mode' : AccessMode} (hc : m.Enabled (.lock t phid mode))
    (hsome : m.mapOfLocks phid = some id)
    (hrun : Reaches (step priority) (During t) (m.goto t (.found id mode)) m₁)
    (hnote : m₁.Enabled (.note t)) (hin : m₁.stage t = .inLock id)
    (hl : m₁.heap id = some (p, l)) (hcode : l.stage t = .returned mode' code)
    (hback : m₁.step priority (.note t) = some m₂) :
    Primitive priority t mode m (some phid) code m₂

/-- The transaction has locked the object. -/
def Holds (m : LockManager T P) (t : T) (phid : P) (mode : AccessMode) : Prop :=
  ∃ id l, m.mapOfLocks phid = some id ∧ m.heap id = some (phid, l) ∧ l.HasMode t mode

/-- Between two calls of `lock_primitive`, with an object locked. -/
structure Ready (m : LockManager T P) (t : T) (phid : P) (mode : AccessMode) : Prop where
  sound : m.Sound
  idle : m.stage t = .idle
  mutex : m.mutex = none
  holds : m.Holds t phid mode

omit [DecidableEq P] in
theorem Asks.start (h : m.Sound) (hsome : m.mapOfLocks phid = some id) :
    (m.goto t (.found id mode)).Asks t phid mode id := by
  obtain ⟨l₀, hl₀⟩ := (h.live phid id).mp hsome
  refine ⟨⟨h.fresh, h.live, h.truthful⟩, h.fresh id (by simp [hl₀]), ?_,
    Or.inl (Function.update_self ..)⟩
  intro p l hl
  change m.heap id = some (p, l) at hl
  rw [hl₀] at hl
  cases hl
  rfl

theorem Primitive.ready (h : Primitive priority t mode m (some phid) 0 m') (hs : m.Sound) :
    m'.Ready t phid mode := by
  cases h with
  | new hc hnone =>
    have hstep : m.step priority (.lock t phid mode) = some (m.newLock t phid mode) := by
      simp [step, hnone]
    exact ⟨hs.step hstep, hc.2, hc.1, m.singleLockId, SingleLock.create t mode,
      Function.update_self .., Function.update_self .., SingleLock.create_hasMode t mode⟩
  | @waited _ p id code m₁ m₂ l mode' hc hsome hrun hnote hin hl hcode hback =>
    have hasks : m₁.Asks t phid mode id := by
      apply hrun.invariant (Asks.start hs hsome)
      intro m₀ c m₀' hm₀ hok hstep
      exact hm₀.step hok hstep
    obtain rfl := hasks.same p l hl
    have hmode : mode' = mode := by
      rcases hasks.place with hfound | ⟨-, hat⟩
      · rw [hin] at hfound
        cases hfound
      · have := hat p l hl
        rwa [hcode] at this
    subst hmode
    have hhas : l.HasMode t mode' := by
      have := hasks.sound.truthful id p l hl t
      rwa [hcode] at this
    have hlive := (hasks.sound.live p id).mpr ⟨l, hl⟩
    have hsound := hasks.sound.step hback
    rcases note_cases hin hl hcode hback with ⟨-, rfl⟩ | ⟨hne, -⟩
    · exact ⟨hsound, Function.update_self .., hnote.1, id, l, hlive, hl, hhas⟩
    · exact absurd rfl hne

variable (priority) in
/-- Whoever has an object locked is granted it again. -/
theorem Ready.again (h : m.Ready t phid mode) :
    ∃ m', Primitive priority t mode m (some phid) 0 m' := by
  obtain ⟨id, l, hmap, hl, hhas⟩ := h.holds
  have hlock : m.Enabled (.lock t phid mode) := ⟨h.mutex, h.idle⟩
  -- it enters `wait_for_lock` and is let through at once
  set l₁ : SingleLock T := { l with
    waiting := l.waiting + 1
    stage := Function.update l.stage t (.entered mode (t ∈ l.currentRead) (t ∈ l.currentWrite)) }
    with hl₁
  set l₂ := l₁.granted t mode with hl₂
  have hstage₁ : l₁.stage t = .entered mode (t ∈ l.currentRead) (t ∈ l.currentWrite) :=
    Function.update_self ..
  have hcheck : l₁.step priority (.check t) = some l₂ := by
    simp only [SingleLock.step, hstage₁]
    rw [SingleLock.check_of_hasMode (by simp [hl₁]) (by simp [hl₁])]
    cases mode <;> exact hhas
  set m₁ := m.goto t (.found id mode) with hm₁
  set m₂ : LockManager T P :=
    ({ m₁ with heap := Function.update m₁.heap id (some (phid, l₁)) } : LockManager T P).goto t
      (.inLock id) with hm₂
  set m₃ : LockManager T P := { m₂ with heap := Function.update m₂.heap id (some (phid, l₂)) }
    with hm₃
  have hheap₂ : m₂.heap id = some (phid, l₁) := Function.update_self ..
  have hin₂ : m₂.stage t = .inLock id := Function.update_self ..
  have hheap₃ : m₃.heap id = some (phid, l₂) := Function.update_self ..
  have hin₃ : m₃.stage t = .inLock id := hin₂
  have hreturned : l₂.stage t = .returned mode 0 := Function.update_self ..
  have hwait : m₁.step priority (.wait t) = some m₂ := by
    have hfound : m₁.stage t = .found id mode := Function.update_self ..
    have hold : m₁.heap id = some (phid, l) := hl
    simp [step, hfound, onLock, hold, SingleLock.step, hl₁, hm₂]
  have hinner : m₂.step priority (.inner (.check t)) = some m₃ := by
    simp [step, LockCall.thread, hin₂, onLock, hheap₂, hcheck, hm₃]
  have hok₁ : During t m₁ (.wait t) :=
    ⟨⟨id, mode, Function.update_self ..⟩, fun _ => Or.inl rfl⟩
  have hok₂ : During t m₂ (.inner (.check t)) :=
    ⟨⟨rfl, id, phid, l₁, Or.inl hin₂, hheap₂, mode, _, _, hstage₁⟩, fun _ => Or.inr ⟨_, rfl⟩⟩
  have hnote : m₃.Enabled (.note t) := ⟨h.mutex, id, phid, l₂, mode, 0, hin₃, hheap₃, hreturned⟩
  have hback : m₃.step priority (.note t) = some { m₃.goto t .idle with
      transactionLocks := Function.update m₃.transactionLocks t
        (insert id (m₃.transactionLocks t)) } := by
    simp [step, hin₃, hheap₃, hreturned]
  exact ⟨_, .waited hlock hmap ((Reaches.refl.step hok₁ hwait).step hok₂ hinner) hnote hin₃ hheap₃
    hreturned hback⟩

-- ---------------------------------------------------------------------------
-- lockAll
-- ---------------------------------------------------------------------------

section

variable (priority : T → Int) (t : T) (mode : AccessMode) (getPhysicalID : L → Option P)

/-- `lockAll` on a set in its order. The iterator stays at the first id. -/
inductive LockAll : List L → LockManager T P → Nat → LockManager T P → Prop
  | finished {m : LockManager T P} : LockAll [] m 0 m
  | refused {lid : L} {rest : List L} {errorCode : Nat} {m m' : LockManager T P}
    (h : Primitive priority t mode m (getPhysicalID lid) errorCode m') (hne : errorCode ≠ 0) :
    LockAll (lid :: rest) m errorCode m'
  | again {lid : L} {rest : List L} {errorCode : Nat} {m m' m'' : LockManager T P}
    (h : Primitive priority t mode m (getPhysicalID lid) 0 m')
    (hrest : LockAll (lid :: rest) m' errorCode m'') : LockAll (lid :: rest) m errorCode m''

/-- One turn of the loop after which it goes on. -/
def Turn (ids : List L) (m m' : LockManager T P) : Prop :=
  ∃ lid ∈ ids.head?, Primitive priority t mode m (getPhysicalID lid) 0 m'

/-- The loop comes to an end; without an error everything is locked, and an error
is that of the first id that could not be locked. -/
structure LocksAll (ids : List L) (m : LockManager T P) : Prop where
  terminates : Acc (fun m' m => Turn priority t mode getPhysicalID ids m m') m
  locked : ∀ m', LockAll priority t mode getPhysicalID ids m 0 m' →
    ∀ lid ∈ ids, ∃ phid, getPhysicalID lid = some phid ∧ m'.Holds t phid mode
  error : ∀ m' errorCode, LockAll priority t mode getPhysicalID ids m errorCode m' →
    errorCode ≠ 0 → ∃ before lid after m₁, ids = before ++ lid :: after ∧
      (∀ lid' ∈ before, ∃ phid, getPhysicalID lid' = some phid ∧ m₁.Holds t phid mode) ∧
      Primitive priority t mode m₁ (getPhysicalID lid) errorCode m'

end

variable {getPhysicalID : L → Option P} {ids : List L}

/-- A loop that is granted its lock goes on for ever. -/
theorem Ready.not_acc {lid : L} {rest : List L} (hphid : getPhysicalID lid = some phid)
    (hacc : Acc (fun m' m => Turn priority t mode getPhysicalID (lid :: rest) m m') m) :
    ¬ m.Ready t phid mode := by
  induction hacc with
  | intro m _ ih =>
    intro hready
    obtain ⟨m', hm'⟩ := hready.again priority
    exact ih m' ⟨lid, rfl, hphid ▸ hm'⟩ (hm'.ready hready.sound)

theorem LocksAll.not_granted {lid : L} {rest : List L} (hs : m.Sound)
    (h : LocksAll priority t mode getPhysicalID (lid :: rest) m) :
    ∀ m', ¬ Primitive priority t mode m (getPhysicalID lid) 0 m' := by
  intro m' hm'
  cases hphid : getPhysicalID lid with
  | none =>
    rw [hphid] at hm'
    cases hm'
  | some phid =>
    have hturn : Turn priority t mode getPhysicalID (lid :: rest) m m' := ⟨lid, rfl, hm'⟩
    rw [hphid] at hm'
    exact Ready.not_acc hphid (h.terminates.inv hturn) (hm'.ready hs)

end LockManager

end Loxim.Lock
