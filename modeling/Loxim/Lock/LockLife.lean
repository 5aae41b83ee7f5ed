import Loxim.Lock.LockTable
import Mathlib.Data.Fin.VecNotation

/-!
# How long a lock lives

A lock counts who holds it and who waits for it, and the transaction that finds
both counters at zero when it leaves deletes it. A request that is refused is
never counted down, and a transaction that has looked up a lock is not counted
until it has entered `wait_for_lock`.
-/

namespace Loxim.Lock

open Util

/-- In `wait_for_lock` and not back yet. -/
def Stage.blocked : Stage → Bool
  | entered _ _ _ | allowed _ _ | asking _ _ => true
  | idle | returned _ _ | leaving _ | unlocked _ => false

namespace SingleLock

variable {T : Type} [DecidableEq T] [Fintype T] {priority : T → Int} {l l' : SingleLock T} {t u : T}
  {c : LockCall T}

/-- No request is refused, no reader asks to write, and the semaphore has room. -/
def NoRefusal (priority : T → Int) (l : SingleLock T) (c : LockCall T) : Prop :=
  l.NoUpgrade priority c ∧
    match c with
    | .check t => ∀ mode r w, l.stage t = .entered mode r w →
      ¬(mode = .write ∧ r = true ∧ w = false) ∧
      (r = false → w = false → mode = .write ∨ l.currentWrite ≠ ∅ →
        l.preventDeadlock priority t = 0)
    | _ => True

/-- Somebody holds the lock or waits for it. -/
def Used (l : SingleLock T) : Prop := ∃ t, l.locked t = true ∨ (l.stage t).blocked = true

structure Counted (l : SingleLock T) : Prop where
  inv : l.Inv
  inside : l.CountsInside
  waiting : l.waiting = tally l.stage Stage.blocked
  granted : ∀ t mode code, l.stage t = .returned mode code → code = 0

/-- The request may ask the semaphore or has what it asks for. -/
theorem check_admitted {mode : AccessMode} {r w : Bool} (hs : l.stage t = .entered mode r w)
    (hno : l.NoRefusal priority (.check t)) :
    (∃ upgrade, l.check priority t mode r w = l.goto t (.allowed mode upgrade)) ∨
    ((r = true ∨ w = true) ∧ l.check priority t mode r w = l.granted t mode) := by
  rcases l.check_cases priority t mode r w with h | ⟨hcode, h⟩ | h
  · exact .inl h
  · obtain ⟨hup, hpass⟩ := hno.2 mode r w hs
    cases r with
    | true =>
      cases mode with
      | read => exact .inr ⟨.inl rfl, rfl⟩
      | write =>
        cases w with
        | true => exact .inr ⟨.inr rfl, rfl⟩
        | false => exact absurd ⟨rfl, rfl, rfl⟩ hup
    | false =>
      cases w with
      | true => cases mode <;> exact .inr ⟨.inr rfl, rfl⟩
      | false =>
        cases mode with
        | write => exact absurd (hpass rfl rfl (.inl rfl)) hcode
        | read =>
          by_cases hempty : l.currentWrite = ∅
          · exact .inl ⟨false, if_pos hempty⟩
          · exact absurd (hpass rfl rfl (.inr hempty)) hcode
  · exact .inr h

theorem blocked_of_free {s : Stage} (h : s.free = true) : s.blocked = false := by
  cases s <;> first | rfl | cases h

/-- A transaction goes to another stage. -/
theorem Counted.move {s : Stage} (h : l.Counted) (hinv : l'.Inv) (hinside : l'.CountsInside)
    (hstage : l'.stage = Function.update l.stage t s)
    (hwaiting : l'.waiting + (l.stage t).blocked.toNat = l.waiting + s.blocked.toNat)
    (hcode : ∀ mode code, s = .returned mode code → code = 0) : l'.Counted := by
  refine ⟨hinv, hinside, ?_, ?_⟩
  · have hcount : tally (Function.update l.stage t s) Stage.blocked + (l.stage t).blocked.toNat =
        tally l.stage Stage.blocked + s.blocked.toNat := tally_update t s
    rw [hstage]
    have := h.waiting
    omega
  · intro u mode code hs
    rw [hstage] at hs
    rcases eq_or_ne u t with rfl | hne
    · rw [Function.update_self] at hs
      exact hcode mode code hs
    · rw [Function.update_of_ne hne] at hs
      exact h.granted u mode code hs

theorem Counted.step (h : l.Counted) (hc : l.Enabled c) (hno : l.NoRefusal priority c)
    (hstep : l.step priority c = some l') : l'.Counted := by
  have hinv := h.inv.step hc hno.1 hstep
  have hinside := h.inside.step h.inv hc hstep
  cases c with
  | waitForLock t mode =>
    cases hstep
    refine h.move (t := t) hinv hinside rfl ?_ (by rintro _ _ ⟨⟩)
    rw [blocked_of_free hc]
    simp [Stage.blocked]
  | check t =>
    obtain ⟨mode, r, w, hs⟩ := hc
    simp only [SingleLock.step, hs] at hstep
    cases hstep
    rcases check_admitted hs hno with ⟨up, hcheck⟩ | ⟨-, hcheck⟩
    · rw [hcheck] at hinv hinside ⊢
      exact h.move (t := t) hinv hinside rfl (by simp [hs, goto, Stage.blocked])
        (by rintro _ _ ⟨⟩)
    · rw [hcheck] at hinv hinside ⊢
      refine h.move (t := t) hinv hinside rfl (by simp [hs, SingleLock.granted, Stage.blocked]) ?_
      intro mode code hs
      cases hs
      rfl
  | ask t woken =>
    obtain ⟨mode, upgrade, hs⟩ := hc.1
    simp only [SingleLock.step, hs] at hstep
    obtain ⟨m, -, hstep⟩ := Option.bind_eq_some_iff.mp hstep
    cases hstep
    exact h.move (t := t) hinv hinside rfl (by simp [hs, goto, Stage.blocked])
        (by rintro _ _ ⟨⟩)
  | resume t woken =>
    obtain ⟨m, -, hstep⟩ := Option.bind_eq_some_iff.mp hstep
    cases hstep
    exact ⟨hinv, hinside, h.waiting, h.granted⟩
  | finish t =>
    obtain ⟨mode, upgrade, hs⟩ := hc.1
    obtain ⟨-, -, rfl⟩ := (h.inv.right t).at hs
    simp only [SingleLock.step, hs, errorCode] at hstep
    cases hstep
    refine h.move (t := t) hinv hinside rfl (by simp [hs, SingleLock.finish, Stage.blocked]) ?_
    intro mode code hs
    cases hs
    rfl
  | unlock t =>
    cases hstep
    refine h.move (t := t) hinv hinside rfl ?_ (by rintro _ _ ⟨⟩)
    rw [blocked_of_free hc.1]
    simp [Stage.blocked]
  | release t woken =>
    obtain ⟨d, hs⟩ := hc.1
    simp only [SingleLock.step, hs] at hstep
    obtain ⟨m, -, hstep⟩ := Option.bind_eq_some_iff.mp hstep
    cases hstep
    exact h.move (t := t) hinv hinside rfl (by simp [hs, goto, Stage.blocked])
        (by rintro _ _ ⟨⟩)

theorem counted_create (t : T) (mode : AccessMode) : (create t mode).Counted := by
  refine ⟨inv_create t mode, countsInside_create t mode, ?_, nofun⟩
  have hnone : tally (fun _ : T => Stage.idle) Stage.blocked = 0 := tally_eq_zero.mpr fun _ => rfl
  simp [create, hnone]

omit [DecidableEq T] in
theorem Counted.used_iff (h : l.Counted) : ¬l.Used ↔ l.inside = 0 ∧ l.waiting = 0 := by
  have hinside : l.inside = _ := h.inside
  rw [hinside, h.waiting, Int.natCast_eq_zero, Int.natCast_eq_zero, tally_eq_zero, tally_eq_zero]
  unfold Used
  simp [forall_and]

/-- The one that leaves sees whether the lock is still used. -/
theorem Counted.deletes (h : l.Counted) (hc : l.Enabled (.unlock t))
    (hstep : l.step priority (.unlock t) = some l') :
    ∃ d, l'.stage t = .leaving d ∧ (d = true ↔ ¬l'.Used) := by
  have h' := h.step hc ⟨trivial, trivial⟩ hstep
  cases hstep
  refine ⟨_, Function.update_self .., ?_⟩
  rw [h'.used_iff]
  simp

/-- A request that is not refused keeps the lock in use, and so does the holder. -/
theorem Used.step (hused : l.Used) (h : l.Counted) (hc : l.Enabled c)
    (hno : l.NoRefusal priority c) (hne : ∀ t, c ≠ .unlock t)
    (hstep : l.step priority c = some l') : l'.Used := by
  obtain ⟨u, hu⟩ := hused
  refine ⟨u, ?_⟩
  rcases eq_or_ne u c.thread with rfl | hother
  case inr =>
    have hframe := step_frame hstep hother
    rw [hframe.locked, hframe.stage]
    exact hu
  cases c with
  | waitForLock t mode =>
    cases hstep
    exact .inr (by simp [LockCall.thread, Stage.blocked])
  | check t =>
    obtain ⟨mode, r, w, hs⟩ := hc
    simp only [SingleLock.step, hs] at hstep
    cases hstep
    rcases check_admitted hs hno with ⟨up, hcheck⟩ | ⟨-, hcheck⟩
    · exact .inr (by simp [LockCall.thread, hcheck, goto, Stage.blocked])
    · exact .inl (by simp [LockCall.thread, hcheck, SingleLock.granted])
  | ask t woken =>
    obtain ⟨mode, upgrade, hs⟩ := hc.1
    simp only [SingleLock.step, hs] at hstep
    obtain ⟨m, -, hstep⟩ := Option.bind_eq_some_iff.mp hstep
    cases hstep
    exact .inr (by simp [LockCall.thread, goto, Stage.blocked])
  | resume t woken =>
    obtain ⟨m, -, hstep⟩ := Option.bind_eq_some_iff.mp hstep
    cases hstep
    exact hu
  | finish t =>
    obtain ⟨mode, upgrade, hs⟩ := hc.1
    obtain ⟨-, -, rfl⟩ := (h.inv.right t).at hs
    simp only [SingleLock.step, hs, errorCode] at hstep
    cases hstep
    exact .inl (by simp [LockCall.thread, SingleLock.finish])
  | unlock t => exact absurd rfl (hne t)
  | release t woken =>
    obtain ⟨d, hs⟩ := hc.1
    obtain ⟨hun, -⟩ := (h.inv.right t).at hs
    rw [LockCall.thread, hun.locked, hs] at hu
    simp [Stage.blocked] at hu

end SingleLock

namespace LockManager

variable {T P : Type} [DecidableEq T] [DecidableEq P] [Fintype T] {priority : T → Int}
  {m m' : LockManager T P} {t u : T} {id : Nat} {phid : P} {l l' : SingleLock T}

/-- Nobody has looked up the lock that this call leaves unused. -/
def NoLookup (m : LockManager T P) : ManagerCall T P → Prop
  | .unlockNext _ id => ∀ phid l, m.heap id = some (phid, l) → l.inside = 1 → l.waiting = 0 →
    ∀ u mode, m.stage u ≠ .found id mode
  | _ => True

/-- What the one that leaves a lock was told about it. -/
structure Told (m : LockManager T P) (id : Nat) (l : SingleLock T) (d : Bool) : Prop where
  used : d = true ↔ ¬l.Used
  lookup : d = true → ∀ u mode, m.stage u ≠ .found id mode

structure Kept (m : LockManager T P) : Prop where
  wired : m.Wired
  counted : ∀ id phid l, m.heap id = some (phid, l) → l.Counted
  live : ∀ phid id, m.mapOfLocks phid = some id ↔ ∃ l, m.heap id = some (phid, l)
  known : ∀ t, ∀ id ∈ known (m.stage t) (m.transactionLocks t), ∃ v, m.heap id = some v
  mutex : ∀ t, unlocks (m.stage t) = true → m.mutex = some t
  used : ∀ id phid l, m.heap id = some (phid, l) →
    l.Used ∨ ∃ t rest, m.stage t = .unlockingOne id rest
  told : ∀ t id rest phid l d, m.stage t = .unlockingOne id rest → m.heap id = some (phid, l) →
    l.stage t = .leaving d ∨ l.stage t = .unlocked d → m.Told id l d

omit [DecidableEq T] [DecidableEq P] in
theorem kept_init : ({} : LockManager T P).Kept := by
  refine ⟨wired_init, nofun, fun _ _ => ⟨nofun, nofun⟩, ?_, nofun, nofun, nofun⟩
  intro t id hid
  exact absurd hid (Finset.notMem_empty _)

omit [DecidableEq T] [DecidableEq P] in
/-- One transaction at a time is in `unlockAll`. -/
theorem Kept.alone (h : m.Kept) (ht : unlocks (m.stage t) = true)
    (hu : unlocks (m.stage u) = true) : u = t := by
  have hmutex := h.mutex u hu
  rw [h.mutex t ht] at hmutex
  cases hmutex
  rfl

omit [DecidableEq T] [DecidableEq P] in
theorem Kept.nobody (h : m.Kept) (hmutex : m.mutex = none) : unlocks (m.stage t) = false := by
  cases hs : unlocks (m.stage t) with
  | false => rfl
  | true =>
    rw [h.mutex t hs] at hmutex
    cases hmutex

omit [DecidableEq P] in
/-- A transaction makes a step on one lock. -/
theorem Kept.move {c : LockCall T} (h : m.Kept) (s : ManagerStage) (hwired : m'.Wired)
    (hl : m.heap id = some (phid, l)) (hcounted : l'.Counted)
    (hheap : m'.heap = Function.update m.heap id (some (phid, l')))
    (hstage : m'.stage = Function.update m.stage c.thread s)
    (hlocks : m'.transactionLocks = m.transactionLocks) (hmap : m'.mapOfLocks = m.mapOfLocks)
    (hmutex : m'.mutex = m.mutex)
    (hknown : LockManager.known s (m.transactionLocks c.thread) ⊆
      LockManager.known (m.stage c.thread) (m.transactionLocks c.thread))
    (hunlocks : unlocks s = true → unlocks (m.stage c.thread) = true)
    (hfound : ∀ id mode, s = .found id mode → m.stage c.thread = .found id mode)
    (hone : ∀ id' rest, id' ≠ id → (s = .unlockingOne id' rest ↔
      m.stage c.thread = .unlockingOne id' rest))
    (hused : l'.Used ∨ ∃ t rest, m'.stage t = .unlockingOne id rest)
    (htold : ∀ t rest d, m'.stage t = .unlockingOne id rest →
      l'.stage t = .leaving d ∨ l'.stage t = .unlocked d → m.Told id l' d) : m'.Kept := by
  have hlive (id' : Nat) (v : P × SingleLock T) (hv : m.heap id' = some v) :
      ∃ l₁, m'.heap id' = some (v.1, l₁) := by
    rw [hheap]
    rcases eq_or_ne id' id with rfl | hne
    · rw [hl] at hv
      cases hv
      exact ⟨l', Function.update_self ..⟩
    · exact ⟨v.2, by rw [Function.update_of_ne hne, hv]⟩
  have hback (id' : Nat) (v : P × SingleLock T) (hv : m'.heap id' = some v) :
      (id' = id ∧ v = (phid, l')) ∨ (id' ≠ id ∧ m.heap id' = some v) := by
    rw [hheap] at hv
    rcases eq_or_ne id' id with rfl | hne
    · rw [Function.update_self] at hv
      cases hv
      exact .inl ⟨rfl, rfl⟩
    · rw [Function.update_of_ne hne] at hv
      exact .inr ⟨hne, hv⟩
  have hfound' (id' : Nat) (u : T) (mode : AccessMode) (hu : m'.stage u = .found id' mode) :
      m.stage u = .found id' mode := by
    rw [hstage] at hu
    rcases eq_or_ne u c.thread with rfl | hne
    · rw [Function.update_self] at hu
      exact hfound id' mode hu
    · rwa [Function.update_of_ne hne] at hu
  have hone' (id' : Nat) (u : T) (rest : Finset Nat) (hne : id' ≠ id) :
      m'.stage u = .unlockingOne id' rest ↔ m.stage u = .unlockingOne id' rest := by
    rw [hstage]
    rcases eq_or_ne u c.thread with rfl | hu
    · rw [Function.update_self]
      exact hone id' rest hne
    · rw [Function.update_of_ne hu]
  refine ⟨hwired, ?_, ?_, ?_, ?_, ?_, ?_⟩
  · intro id' p l₁ hl₁
    rcases hback id' _ hl₁ with ⟨rfl, hv⟩ | ⟨-, hv⟩
    · cases hv
      exact hcounted
    · exact h.counted id' p l₁ hv
  · intro p id'
    rw [hmap, h.live]
    constructor
    · rintro ⟨l₁, hl₁⟩
      exact hlive id' _ hl₁
    · rintro ⟨l₁, hl₁⟩
      rcases hback id' _ hl₁ with ⟨rfl, hv⟩ | ⟨-, hv⟩
      · cases hv
        exact ⟨l, hl⟩
      · exact ⟨l₁, hv⟩
  · intro u id' hmem
    rw [hlocks, hstage] at hmem
    have hold : id' ∈ LockManager.known (m.stage u) (m.transactionLocks u) := by
      rcases eq_or_ne u c.thread with rfl | hne
      · rw [Function.update_self] at hmem
        exact hknown hmem
      · rwa [Function.update_of_ne hne] at hmem
    obtain ⟨v, hv⟩ := h.known u id' hold
    obtain ⟨l₁, hl₁⟩ := hlive id' v hv
    exact ⟨_, hl₁⟩
  · intro u hu
    rw [hmutex]
    apply h.mutex
    rw [hstage] at hu
    rcases eq_or_ne u c.thread with rfl | hne
    · rw [Function.update_self] at hu
      exact hunlocks hu
    · rwa [Function.update_of_ne hne] at hu
  · intro id' p l₁ hl₁
    rcases hback id' _ hl₁ with ⟨rfl, hv⟩ | ⟨hne, hv⟩
    · cases hv
      exact hused
    · refine (h.used id' p l₁ hv).imp_right ?_
      rintro ⟨u, rest, hu⟩
      exact ⟨u, rest, (hone' id' u rest hne).mpr hu⟩
  · intro u id' rest p l₁ d hu hl₁ hs
    have htold' : m.Told id' l₁ d := by
      rcases hback id' _ hl₁ with ⟨rfl, hv⟩ | ⟨hne, hv⟩
      · cases hv
        exact htold u rest d hu hs
      · exact h.told u id' rest p l₁ d ((hone' id' u rest hne).mp hu) hv hs
    exact ⟨htold'.used, fun hd v mode hv => htold'.lookup hd v mode (hfound' id' v mode hv)⟩

omit [DecidableEq T] [DecidableEq P] [Fintype T] in
theorem told_of_used {d : Bool} (hd : d = false) (hused : l.Used) : m.Told id l d :=
  ⟨⟨fun h => absurd h (by simp [hd]), fun h => absurd hused h⟩, fun h => absurd h (by simp [hd])⟩

theorem Kept.wait (h : m.Kept) (hc : m.Enabled (.wait t : ManagerCall T P))
    (hno : m.Within (SingleLock.NoRefusal priority) (.wait t))
    (hstep : m.step priority (.wait t) = some m') : m'.Kept := by
  have hwired := h.wired.wait hstep
  obtain ⟨id, mode, hs⟩ := hc
  simp only [step, hs] at hstep
  obtain ⟨m₁, hm₁, hstep⟩ := Option.bind_eq_some_iff.mp hstep
  cases hstep
  obtain ⟨p, l, l', hl, hl', rfl⟩ := onLock_eq_some hm₁
  have hlinked := h.wired.linked id p l t hl
  rw [hs] at hlinked
  have hcounted := (h.counted id p l hl).step (c := .waitForLock t mode) hlinked.fitting
    (hno id _ p l (by simp [lockCall, hs]) hl) hl'
  have hused : l'.Used := by
    refine ⟨t, .inr ?_⟩
    cases hl'
    simp [Stage.blocked]
  refine h.move (c := .waitForLock t mode) (.inLock id) hwired hl hcounted rfl rfl rfl rfl rfl ?_
    (by rintro ⟨⟩) (by rintro _ _ ⟨⟩) ?_ (.inl hused) ?_
  · rw [LockCall.thread, hs]
    exact Finset.Subset.refl _
  · intro id' rest hne
    rw [LockCall.thread, hs]
    exact ⟨by rintro ⟨⟩, by rintro ⟨⟩⟩
  · intro u rest d hu hst
    refine told_of_used ?_ hused
    have hut : u ≠ t := by
      rintro rfl
      simp [goto] at hu
    replace hu : m.stage u = .unlockingOne id rest := by simpa [goto, hut] using hu
    rw [(SingleLock.step_frame hl' hut).stage] at hst
    have htold := h.told u id rest p l d hu hl hst
    exact Bool.eq_false_iff.mpr fun hd => htold.lookup hd t mode hs

theorem blocked_of_waiting {s : Stage} (h : s.waiting = true)
    (hret : ∀ mode code, s ≠ .returned mode code) : s.blocked = true := by
  cases s with
  | returned mode code => exact absurd rfl (hret mode code)
  | entered | allowed | asking => rfl
  | idle | leaving | unlocked => cases h

omit [DecidableEq T] in
/-- Who leaves a lock can only go on leaving. -/
theorem release_of_leaves {c : LockCall T} (h : l.Inv) (hc : l.Enabled c) (hin : isInner c = true)
    (hleaves : (l.stage c.thread).leaves = true) : ∃ t woken, c = .release t woken := by
  cases c with
  | waitForLock t mode => cases hin
  | unlock t => cases hin
  | release t woken => exact ⟨t, woken, rfl⟩
  | check t =>
    obtain ⟨mode, r, w, hs⟩ := hc
    rw [LockCall.thread, hs] at hleaves
    cases hleaves
  | ask t woken =>
    obtain ⟨mode, upgrade, hs⟩ := hc.1
    rw [LockCall.thread, hs] at hleaves
    cases hleaves
  | resume t woken =>
    obtain ⟨mode, hs⟩ := (h.right t).asking_of_woken hc.1
    rw [LockCall.thread, hs] at hleaves
    cases hleaves
  | finish t =>
    obtain ⟨mode, upgrade, hs⟩ := hc.1
    rw [LockCall.thread, hs] at hleaves
    cases hleaves

omit [Fintype T] in
theorem release_used {woken : Woken T} {d : Bool} (hs : l.stage t = .leaving d)
    (hstep : l.step priority (.release t woken) = some l') :
    l'.stage t = .unlocked d ∧ (l'.Used ↔ l.Used) := by
  simp only [SingleLock.step, hs] at hstep
  obtain ⟨m, -, hstep⟩ := Option.bind_eq_some_iff.mp hstep
  cases hstep
  refine ⟨Function.update_self .., exists_congr fun u => ?_⟩
  rcases eq_or_ne u t with rfl | hne
  · simp [SingleLock.goto, hs, Stage.blocked]
  · simp [SingleLock.goto, hne]

theorem Kept.inner {c : LockCall T} (h : m.Kept) (hc : m.Enabled (.inner c : ManagerCall T P))
    (hno : m.Within (SingleLock.NoRefusal priority) (.inner c))
    (hstep : m.step priority (.inner c) = some m') : m'.Kept := by
  have hwired := h.wired.inner hc (fun id c' p l hcall hl => (hno id c' p l hcall hl).1) hstep
  obtain ⟨hin, id, p, l, hs, hl, hen⟩ := hc
  have hcall : m.lockCall (.inner c : ManagerCall T P) = some (id, c) := by
    rcases hs with hs | ⟨rest, hs⟩ <;> simp [lockCall, hs]
  have hlock : m.onLock priority id c = some m' := by
    rcases hs with hs | ⟨rest, hs⟩ <;> simpa [step, hs] using hstep
  obtain ⟨p', l₁, l', hl₁, hl', rfl⟩ := onLock_eq_some hlock
  rw [hl] at hl₁
  cases hl₁
  have hold := h.counted id p l hl
  have hk := hno id c p l hcall hl
  have hcounted := hold.step hen hk hl'
  have hfit := (h.wired.linked id p l c.thread hl).fitting
  refine h.move (c := c) (m.stage c.thread) hwired hl hcounted rfl
    (Function.update_eq_self c.thread m.stage).symm rfl rfl rfl (Finset.Subset.refl _)
    (fun hs => hs) (fun _ _ hs => hs) (fun _ _ _ => .rfl) ?_ ?_
  · rcases hs with hs | ⟨rest, hs⟩
    · refine .inl (SingleLock.Used.step ⟨c.thread, .inr ?_⟩ hold hen hk ?_ hl')
      · simp only [hs, Fitting, if_true] at hfit
        exact blocked_of_waiting hfit (inner_self hold.inv hen hin hl').1
      · rintro t rfl
        cases hin
    · exact .inr ⟨c.thread, rest, hs⟩
  · intro u rest d hu hst
    rcases hs with hs | ⟨rest', hs⟩
    · -- the transaction is not in `unlockAll`, so it waits and the lock stays in use
      have hut : u ≠ c.thread := by
        rintro rfl
        rw [hs] at hu
        cases hu
      simp only [hs, Fitting, if_true] at hfit
      have hused : l.Used :=
        ⟨c.thread, .inr (blocked_of_waiting hfit (inner_self hold.inv hen hin hl').1)⟩
      have hne : ∀ t, c ≠ .unlock t := by
        rintro t rfl
        cases hin
      rw [(SingleLock.step_frame hl' hut).stage] at hst
      have htold := h.told u id rest p l d hu hl hst
      refine told_of_used ?_ (hused.step hold hen hk hne hl')
      exact Bool.eq_false_iff.mpr fun hd => htold.used.mp hd hused
    · have hut : u = c.thread := by
        refine h.alone (t := c.thread) ?_ ?_
        · rw [hs]
          rfl
        · rw [hu]
          rfl
      subst hut
      simp only [hs, Fitting, if_true] at hfit
      obtain ⟨t, woken, rfl⟩ := release_of_leaves hold.inv hen hin hfit
      obtain ⟨d', hd'⟩ := hen.1
      obtain ⟨hst', hused⟩ := release_used hd' hl'
      rw [LockCall.thread, hst'] at hst
      rcases hst with hst | hst
      · cases hst
      · cases hst
        have htold := h.told t id rest p l d hu hl (.inl hd')
        exact ⟨by rw [hused]; exact htold.used, htold.lookup⟩

theorem Kept.unlockNext (h : m.Kept) (hc : m.Enabled (.unlockNext t id))
    (hlook : m.NoLookup (.unlockNext t id)) (hstep : m.step priority (.unlockNext t id) = some m') :
    m'.Kept := by
  have hwired := h.wired.unlockNext hc hstep
  obtain ⟨rest, hs, hmem⟩ := hc
  simp only [step, hs] at hstep
  obtain ⟨m₁, hm₁, hstep⟩ := Option.bind_eq_some_iff.mp hstep
  cases hstep
  obtain ⟨p, l, l', hl, hl', rfl⟩ := onLock_eq_some hm₁
  have hlinked := h.wired.linked id p l t hl
  rw [hs] at hlinked
  have hen : l.Enabled (.unlock t) := ⟨hlinked.fitting, hlinked.locked.mpr (.inl hmem)⟩
  have hold := h.counted id p l hl
  have hcounted := hold.step hen ⟨trivial, trivial⟩ hl'
  obtain ⟨d, hd, hused⟩ := hold.deletes hen hl'
  refine h.move (c := .unlock t) (.unlockingOne id (rest.erase id)) hwired hl hcounted rfl rfl rfl
    rfl rfl ?_ ?_ (by rintro _ _ ⟨⟩) ?_ (.inr ⟨t, rest.erase id, Function.update_self ..⟩) ?_
  · rw [LockCall.thread, hs]
    refine Finset.insert_subset hmem (Finset.erase_subset id rest)
  · rw [LockCall.thread, hs]
    exact fun _ => rfl
  · intro id' rest' hne
    rw [LockCall.thread, hs]
    constructor
    · rintro heq
      cases heq
      exact absurd rfl hne
    · rintro ⟨⟩
  · intro u rest' d' hu hst
    have hut : u = t := by
      by_contra hne
      simp only [goto, Function.update_of_ne hne] at hu
      refine hne (h.alone (t := t) ?_ ?_)
      · rw [hs]
        rfl
      · rw [hu]
        rfl
    subst hut
    rw [hd] at hst
    rcases hst with hst | hst
    · cases hst
      refine ⟨hused, fun hd => ?_⟩
      obtain ⟨hinside, hwaiting⟩ := hcounted.used_iff.mp (hused.mp hd)
      cases hl'
      refine hlook p l hl ?_ hwaiting
      replace hinside : l.inside - 1 = 0 := hinside
      omega
    · cases hst

omit [DecidableEq P] in
/-- A transaction makes a step in the manager only. -/
theorem Kept.stay (h : m.Kept) (t : T) (s : ManagerStage) (locks : Finset Nat) (hwired : m'.Wired)
    (hheap : m'.heap = m.heap) (hmap : m'.mapOfLocks = m.mapOfLocks)
    (hstage : m'.stage = Function.update m.stage t s)
    (hlocks : m'.transactionLocks = Function.update m.transactionLocks t locks)
    (hknown : ∀ id ∈ LockManager.known s locks, ∃ v, m.heap id = some v)
    (hmutex : ∀ u, unlocks (m'.stage u) = true → m'.mutex = some u)
    (hone : ∀ id rest, s ≠ .unlockingOne id rest)
    (hfound : ∀ id mode, s = .found id mode → ∀ u, unlocks (m.stage u) = false)
    (hused : ∀ id phid l rest, m.heap id = some (phid, l) → m.stage t = .unlockingOne id rest →
      l.Used) : m'.Kept := by
  refine ⟨hwired, ?_, ?_, ?_, hmutex, ?_, ?_⟩
  · rw [hheap]
    exact h.counted
  · rw [hheap, hmap]
    exact h.live
  · intro u id hmem
    rw [hheap]
    rw [hstage, hlocks] at hmem
    rcases eq_or_ne u t with rfl | hne
    · rw [Function.update_self, Function.update_self] at hmem
      exact hknown id hmem
    · rw [Function.update_of_ne hne, Function.update_of_ne hne] at hmem
      exact h.known u id hmem
  · intro id p l hl
    rw [hheap] at hl
    rcases h.used id p l hl with hu | ⟨u, rest, hu⟩
    · exact .inl hu
    · rcases eq_or_ne u t with rfl | hne
      · exact .inl (hused id p l rest hl hu)
      · refine .inr ⟨u, rest, ?_⟩
        rw [hstage, Function.update_of_ne hne, hu]
  · intro u id rest p l d hu hl hst
    rw [hheap] at hl
    rw [hstage] at hu
    rcases eq_or_ne u t with rfl | hne
    · rw [Function.update_self] at hu
      exact absurd hu (hone id rest)
    · rw [Function.update_of_ne hne] at hu
      have htold := h.told u id rest p l d hu hl hst
      refine ⟨htold.used, fun hd v mode hv => ?_⟩
      rw [hstage] at hv
      rcases eq_or_ne v t with rfl | hvt
      · rw [Function.update_self] at hv
        have hno := hfound id mode hv u
        rw [hu] at hno
        cases hno
      · rw [Function.update_of_ne hvt] at hv
        exact htold.lookup hd v mode hv

theorem Kept.newLock {mode : AccessMode} (h : m.Kept) (hwired : (m.newLock t phid mode).Wired)
    (hmap : m.mapOfLocks phid = none) : (m.newLock t phid mode).Kept := by
  have hfresh : m.heap m.singleLockId = none := by
    by_contra hne
    exact lt_irrefl _ (h.wired.fresh _ hne)
  have hlive (id : Nat) (v : P × SingleLock T) (hv : m.heap id = some v) :
      (m.newLock t phid mode).heap id = some v := by
    have hne : id ≠ m.singleLockId := by
      rintro rfl
      rw [hfresh] at hv
      cases hv
    simpa [LockManager.newLock, hne] using hv
  have hback (id : Nat) (v : P × SingleLock T) (hv : (m.newLock t phid mode).heap id = some v) :
      (id = m.singleLockId ∧ v = (phid, SingleLock.create t mode)) ∨ m.heap id = some v := by
    rcases eq_or_ne id m.singleLockId with rfl | hne
    · left
      simpa [LockManager.newLock, eq_comm] using hv
    · right
      simpa [LockManager.newLock, hne] using hv
  refine ⟨hwired, ?_, ?_, ?_, h.mutex, ?_, ?_⟩
  · intro id p l hl
    rcases hback id _ hl with ⟨-, hv⟩ | hv
    · cases hv
      exact SingleLock.counted_create t mode
    · exact h.counted id p l hv
  · intro p id
    rcases eq_or_ne p phid with rfl | hne
    · constructor
      · intro hid
        simp only [LockManager.newLock, Function.update_self, Option.some.injEq] at hid
        subst hid
        exact ⟨_, Function.update_self ..⟩
      · rintro ⟨l, hl⟩
        rcases hback id _ hl with ⟨rfl, -⟩ | hv
        · simp [LockManager.newLock]
        · rw [(h.live p id).mpr ⟨l, hv⟩] at hmap
          cases hmap
    · have hsame : (m.newLock t phid mode).mapOfLocks p = m.mapOfLocks p := by
        simp [LockManager.newLock, hne]
      rw [hsame, h.live]
      constructor
      · rintro ⟨l, hl⟩
        exact ⟨l, hlive id _ hl⟩
      · rintro ⟨l, hl⟩
        rcases hback id _ hl with ⟨-, hv⟩ | hv
        · cases hv
          exact absurd rfl hne
        · exact ⟨l, hv⟩
  · intro u id hmem
    rcases eq_or_ne u t with rfl | hne
    · rcases eq_or_ne id m.singleLockId with rfl | hid
      · exact ⟨_, Function.update_self ..⟩
      · have hold : id ∈ LockManager.known (m.stage u) (m.transactionLocks u) := by
          cases hs : m.stage u <;>
            simpa [LockManager.newLock, LockManager.known, owned, hs, hid] using hmem
        obtain ⟨v, hv⟩ := h.known u id hold
        exact ⟨v, hlive id v hv⟩
    · simp only [LockManager.newLock, Function.update_of_ne hne] at hmem
      obtain ⟨v, hv⟩ := h.known u id hmem
      exact ⟨v, hlive id v hv⟩
  · intro id p l hl
    rcases hback id _ hl with ⟨-, hv⟩ | hv
    · cases hv
      exact .inl ⟨t, .inl (by simp [SingleLock.create])⟩
    · exact h.used id p l hv
  · intro u id rest p l d hu hl hst
    rcases hback id _ hl with ⟨-, hv⟩ | hv
    · cases hv
      rcases hst with hst | hst <;> cases hst
    · have htold := h.told u id rest p l d hu hv hst
      exact ⟨htold.used, htold.lookup⟩

theorem Kept.lock {mode : AccessMode} (h : m.Kept) (hc : m.Enabled (.lock t phid mode))
    (hstep : m.step priority (.lock t phid mode) = some m') : m'.Kept := by
  have hwired := h.wired.lock hc.2 hstep
  simp only [step] at hstep
  split at hstep
  · rename_i hmap
    cases hstep
    exact h.newLock hwired hmap
  · rename_i id hmap
    cases hstep
    refine h.stay t (.found id mode) (m.transactionLocks t) hwired rfl rfl rfl
      (Function.update_eq_self t _).symm ?_ ?_ (by rintro _ _ ⟨⟩) (fun _ _ _ u => h.nobody hc.1) ?_
    · intro id' hmem
      rcases Finset.mem_insert.mp hmem with rfl | hmem
      · obtain ⟨l, hl⟩ := (h.live phid id').mp hmap
        exact ⟨_, hl⟩
      · refine h.known t id' ?_
        rw [hc.2]
        exact hmem
    · intro u hu
      rcases eq_or_ne u t with rfl | hne
      · simp [goto, unlocks] at hu
      · simp only [goto, Function.update_of_ne hne, h.nobody hc.1] at hu
        cases hu
    · intro id' p l rest _ hs
      rw [hc.2] at hs
      cases hs

theorem Kept.note (h : m.Kept) (hc : m.Enabled (.note t))
    (hstep : m.step priority (.note t) = some m') : m'.Kept := by
  have hwired := h.wired.note hc hstep
  obtain ⟨hmutex, id, p, l, mode, code, hs, hl, hst⟩ := hc
  obtain rfl := (h.counted id p l hl).granted t mode code hst
  obtain ⟨-, rfl⟩ | ⟨hne, -⟩ := note_cases hs hl hst hstep
  case inr => exact absurd rfl hne
  refine h.stay t .idle (insert id (m.transactionLocks t)) hwired rfl rfl rfl rfl ?_ ?_ nofun
    nofun ?_
  · intro id' hmem
    refine h.known t id' ?_
    rw [hs]
    exact hmem
  · intro u hu
    rcases eq_or_ne u t with rfl | hne
    · simp [goto, unlocks] at hu
    · simp only [goto, Function.update_of_ne hne, h.nobody hmutex] at hu
      cases hu
  · intro id' p l rest _ hs'
    rw [hs] at hs'
    cases hs'

theorem Kept.unlockAll (h : m.Kept) (hc : m.Enabled (.unlockAll t))
    (hstep : m.step priority (.unlockAll t) = some m') : m'.Kept := by
  have hwired := h.wired.unlockAll hc.2 hstep
  cases hstep
  refine h.stay t (.unlocking (m.transactionLocks t)) (m.transactionLocks t) hwired rfl rfl rfl
    (Function.update_eq_self t _).symm ?_ ?_ nofun nofun ?_
  · intro id' hmem
    refine h.known t id' ?_
    rw [hc.2]
    exact hmem
  · intro u hu
    rcases eq_or_ne u t with rfl | hne
    · rfl
    · simp only [goto, Function.update_of_ne hne, h.nobody hc.1] at hu
      cases hu
  · intro id' p l rest _ hs
    rw [hc.2] at hs
    cases hs

theorem Kept.ended (h : m.Kept) (ht : m.stage t = .unlocking ∅)
    (hstep : m.step priority (.ended t) = some m') : m'.Kept := by
  have hwired := h.wired.ended ht hstep
  cases hstep
  refine h.stay t .idle ∅ hwired rfl rfl rfl rfl ?_ ?_ nofun nofun ?_
  · intro id' hmem
    exact absurd hmem (Finset.notMem_empty _)
  · intro u hu
    rcases eq_or_ne u t with rfl | hne
    · simp [goto, unlocks] at hu
    · simp only [goto, Function.update_of_ne hne] at hu
      refine absurd (h.alone (t := t) ?_ hu) hne
      rw [ht]
      rfl
  · intro id' p l rest _ hs
    rw [ht] at hs
    cases hs

omit [DecidableEq T] [DecidableEq P] in
/-- Nobody knows the lock that nobody uses but the one that deletes it. -/
theorem Kept.unknown {rest : Finset Nat} (h : m.Kept) (hs : m.stage t = .unlockingOne id rest)
    (hl : m.heap id = some (phid, l)) (htold : m.Told id l true) (hne : u ≠ t) :
    id ∉ LockManager.known (m.stage u) (m.transactionLocks u) := by
  have hunused := htold.used.mp rfl
  have hlinked := h.wired.linked id phid l u hl
  have howned : id ∉ owned (m.stage u) (m.transactionLocks u) := fun hmem =>
    hunused ⟨u, .inl (hlinked.locked.mpr (.inl hmem))⟩
  intro hmem
  cases hsu : m.stage u with
  | idle =>
    rw [hsu] at hmem howned
    exact howned hmem
  | unlocking rest =>
    rw [hsu] at hmem howned
    exact howned hmem
  | found id' mode =>
    rw [hsu] at hmem howned
    rcases Finset.mem_insert.mp hmem with rfl | hmem
    · exact htold.lookup rfl u mode hsu
    · exact howned hmem
  | inLock id' =>
    rw [hsu] at hmem howned
    rcases Finset.mem_insert.mp hmem with rfl | hmem
    · rw [hsu] at hlinked
      have hfit := hlinked.fitting
      simp only [Fitting, if_true] at hfit
      by_cases hret : ∃ mode code, l.stage u = .returned mode code
      · obtain ⟨mode, code, hst⟩ := hret
        obtain rfl := (h.counted id phid l hl).granted u mode code hst
        exact hunused ⟨u, .inl (hlinked.locked.mpr (.inr ⟨rfl, mode, hst⟩))⟩
      · refine hunused ⟨u, .inr (blocked_of_waiting hfit fun mode code hst => ?_)⟩
        exact hret ⟨mode, code, hst⟩
    · exact howned hmem
  | unlockingOne id' rest' =>
    refine hne (h.alone (t := t) ?_ ?_)
    · rw [hs]
      rfl
    · rw [hsu]
      rfl

/-- The lock goes and nobody misses it. -/
theorem Kept.deleted {rest : Finset Nat} (h : m.Kept) (hs : m.stage t = .unlockingOne id rest)
    (hl : m.heap id = some (phid, l)) (htold : m.Told id l true)
    (hwired : ((m.goto t (.unlocking rest)).deleteLock id phid).Wired) :
    ((m.goto t (.unlocking rest)).deleteLock id phid).Kept := by
  have hback {id' : Nat} {v : P × SingleLock T}
      (hv : ((m.goto t (.unlocking rest)).deleteLock id phid).heap id' = some v) :
      id' ≠ id ∧ m.heap id' = some v := by
    refine ⟨?_, heap_deleteLock (m := m.goto t (.unlocking rest)) hv⟩
    rintro rfl
    simp [deleteLock] at hv
  have hlive {id' : Nat} (hne : id' ≠ id) :
      ((m.goto t (.unlocking rest)).deleteLock id phid).heap id' = m.heap id' := by
    simp [deleteLock, goto, hne]
  have hunlocks : unlocks (m.stage t) = true := by
    rw [hs]
    rfl
  have hother {u : T} (hne : u ≠ t) :
      ((m.goto t (.unlocking rest)).deleteLock id phid).stage u = m.stage u :=
    Function.update_of_ne hne ..
  refine ⟨hwired, ?_, ?_, ?_, ?_, ?_, ?_⟩
  · intro id' p l₁ hl₁
    exact h.counted id' p l₁ (hback hl₁).2
  · intro p id'
    rcases eq_or_ne p phid with rfl | hne
    · constructor
      · intro hmap
        simp [deleteLock] at hmap
      · rintro ⟨l₁, hl₁⟩
        obtain ⟨hid, hl₁⟩ := hback hl₁
        have hmap := (h.live p id').mpr ⟨l₁, hl₁⟩
        rw [(h.live p id).mpr ⟨l, hl⟩] at hmap
        cases hmap
        exact absurd rfl hid
    · have hsame : ((m.goto t (.unlocking rest)).deleteLock id phid).mapOfLocks p =
          m.mapOfLocks p := by
        simp [deleteLock, goto, hne]
      rw [hsame, h.live]
      refine exists_congr fun l₁ => ⟨fun hl₁ => ?_, fun hl₁ => (hback hl₁).2⟩
      rw [hlive]
      · exact hl₁
      · rintro rfl
        rw [hl] at hl₁
        cases hl₁
        exact hne rfl
  · intro u id' hmem
    have hknown : id' ≠ id ∧ id' ∈ LockManager.known (m.stage u) (m.transactionLocks u) := by
      rcases eq_or_ne u t with rfl | hne
      · have hrest : id' ∈ rest := by
          simpa [deleteLock, goto, LockManager.known, owned] using hmem
        refine ⟨?_, by rw [hs]; exact Finset.mem_insert_of_mem hrest⟩
        rintro rfl
        refine htold.used.mp rfl ⟨u, .inl ?_⟩
        rw [(h.wired.linked id' phid l u hl).locked, hs]
        exact .inl hrest
      · rw [hother hne] at hmem
        refine ⟨?_, hmem⟩
        rintro rfl
        exact h.unknown hs hl htold hne hmem
    obtain ⟨v, hv⟩ := h.known u id' hknown.2
    exact ⟨v, by rw [hlive hknown.1, hv]⟩
  · intro u hu
    rcases eq_or_ne u t with rfl | hne
    · exact h.mutex u hunlocks
    · rw [hother hne] at hu
      exact h.mutex u hu
  · intro id' p l₁ hl₁
    obtain ⟨hid, hl₁⟩ := hback hl₁
    rcases h.used id' p l₁ hl₁ with hused | ⟨u, rest', hu⟩
    · exact .inl hused
    · have hut := h.alone (u := u) hunlocks (by rw [hu]; rfl)
      rw [hut, hs] at hu
      cases hu
      exact absurd rfl hid
  · intro u id' rest' p l₁ d hu _ _
    rcases eq_or_ne u t with rfl | hne
    · simp [deleteLock, goto] at hu
    · rw [hother hne] at hu
      exact absurd (h.alone hunlocks (by rw [hu]; rfl)) hne

theorem Kept.unlocked (h : m.Kept) (hc : m.Enabled (.unlocked t))
    (hstep : m.step priority (.unlocked t) = some m') : m'.Kept := by
  have hwired := h.wired.unlocked hc hstep
  obtain ⟨id, rest, p, l, d, hs, hl, hst⟩ := hc
  have htold := h.told t id rest p l d hs hl (.inr hst)
  rw [unlocked_cases hs hl hst hstep] at hwired ⊢
  cases d with
  | true => exact h.deleted hs hl htold hwired
  | false =>
    refine h.stay t (.unlocking rest) (m.transactionLocks t) hwired rfl rfl rfl
      (Function.update_eq_self t _).symm ?_ ?_ nofun nofun ?_
    · intro id' hmem
      refine h.known t id' ?_
      rw [hs]
      exact Finset.mem_insert_of_mem hmem
    · intro u hu
      refine h.mutex u ?_
      rcases eq_or_ne u t with rfl | hne
      · rw [hs]
        rfl
      · simpa [goto, hne] using hu
    · intro id' p' l₁ rest' hl₁ hs'
      rw [hs] at hs'
      cases hs'
      rw [hl] at hl₁
      cases hl₁
      by_contra hunused
      cases htold.used.mpr hunused

theorem Kept.step {c : ManagerCall T P} (h : m.Kept) (hc : m.Enabled c)
    (hno : m.Within (SingleLock.NoRefusal priority) c) (hlook : m.NoLookup c)
    (hstep : m.step priority c = some m') : m'.Kept := by
  cases c with
  | lock t phid mode => exact h.lock hc hstep
  | wait t => exact h.wait hc hno hstep
  | inner c => exact h.inner hc hno hstep
  | note t => exact h.note hc hstep
  | unlockAll t => exact h.unlockAll hc hstep
  | unlockNext t id => exact h.unlockNext hc hlook hstep
  | unlocked t => exact h.unlocked hc hstep
  | ended t => exact h.ended hc hstep

theorem kept_of_reaches (h : Reaches (step priority) (fun m c => m.Enabled c ∧
      m.Within (SingleLock.NoRefusal priority) c ∧ m.NoLookup c) ({} : LockManager T P) m) :
    m.Kept := by
  apply h.invariant kept_init
  intro m c m' hkept hc hstep
  exact hkept.step hc.1 hc.2.1 hc.2.2 hstep

instance (l : SingleLock T) : DecidablePred (l.NoRefusal priority)
  | .check t => inferInstanceAs (Decidable (l.NoUpgrade priority (.check t) ∧
    ∀ mode r w, l.stage t = .entered mode r w → ¬(mode = .write ∧ r = true ∧ w = false) ∧
      (r = false → w = false → mode = .write ∨ l.currentWrite ≠ ∅ →
        l.preventDeadlock priority t = 0)))
  | .ask t woken => inferInstanceAs (Decidable (l.NoUpgrade priority (.ask t woken) ∧ True))
  | .waitForLock _ _ | .resume _ _ | .finish _ | .unlock _ | .release _ _ =>
    .isTrue ⟨trivial, trivial⟩

instance (m : LockManager T P) : DecidablePred m.NoLookup
  | .unlockNext _ id => decidable_of_iff (∀ v ∈ m.heap id, v.2.inside = 1 → v.2.waiting = 0 →
      ∀ u mode, m.stage u ≠ .found id mode)
    ⟨fun h phid l hl => h (phid, l) hl, fun h v hv => h v.1 v.2 hv⟩
  | .lock _ _ _ | .wait _ | .inner _ | .note _ | .unlockAll _ | .unlocked _ | .ended _ =>
    .isTrue trivial

end LockManager

end Loxim.Lock
