import Loxim.Lock.LockManager
import Mathlib.Data.Fin.VecNotation
import Mathlib.Logic.Relation

/-!
# Who waits for whom

`preventDeadlock` compares with the oldest transaction that ever held the lock.
That is enough against those whose grant is noted, but not against the ones that
wait, nor for a reader that finds no writer noted and is not checked at all.
-/

namespace Loxim.Lock

open Util

namespace SingleLock

variable {T : Type} [DecidableEq T] [Fintype T] {priority : T → Int} {l l' : SingleLock T} {t u v : T}
  {woken : Woken T}

/-- A transaction that waits is waiting for who has an access that conflicts, and for
who was queued before it. -/
def WaitsFor (l : SingleLock T) (t u : T) : Prop :=
  (l.monitor.pc t).waits = true ∧ u ≠ t ∧
    ((if (l.monitor.pc t).waitsRead then l.monitor.HoldsWrite u
      else (l.monitor.pc u).inside = true) ∨ [u, t].Sublist l.queue)

/-- Who asks would wait. -/
def MustWait (l : SingleLock T) : AccessMode → Prop
  | .read => ¬l.monitor.sem.AdmitsRead
  | .write => ¬l.monitor.sem.AdmitsWrite

/-- Who is let in when a transaction leaves. -/
def NextIn (l : SingleLock T) (woken : Woken T) (u : T) : Prop :=
  l.monitor.sem.inside = 1 ∧
    if l.monitor.sem.mode = .write ∧ 0 < l.monitor.sem.readersWaiting then
      (l.monitor.pc u).waitsRead = true
    else u = woken.writer ∧ (l.monitor.pc u).waitsWrite = true

/-- Who begins to wait still passes the deadlock check then, and is older than all who
wait already or are inside and not noted; who leaves lets in those who were
queued first. -/
def InOrder (priority : T → Int) (l : SingleLock T) (c : LockCall T) : Prop :=
  l.NoUpgrade priority c ∧
    match c with
    | .ask t _ => ∀ mode upgrade, l.stage t = .allowed mode upgrade → l.MustWait mode →
      l.preventDeadlock priority t = 0 ∧
      ∀ u, u ≠ t → ((l.monitor.pc u).waits = true ∨ ((l.monitor.pc u).inside = true ∧
        u ∉ l.currentRead ∧ u ∉ l.currentWrite)) → priority t < priority u
    | .release _ woken => ∀ u v, l.NextIn woken u → (l.monitor.pc v).waits = true →
      ¬l.NextIn woken v → [u, v].Sublist l.queue
    | _ => True

structure Orderly (priority : T → Int) (l : SingleLock T) : Prop where
  inv : l.Inv
  oldest : ∀ u, u ∈ l.currentRead ∨ u ∈ l.currentWrite → priority l.tid ≤ priority u
  queue : ∀ u, u ∈ l.queue ↔ (l.monitor.pc u).waits = true
  older : ∀ t u, l.WaitsFor t u → priority t < priority u

omit [DecidableEq T] [Fintype T] in
/-- Without upgrades the places are those of readers and writers. -/
theorem Right.place (h : l.Right t) :
    (l.monitor.pc t).waitsUpgrade = false ∧ (l.monitor.pc t).wokenUpgrade = false := by
  have hsettled (hp : l.monitor.pc t = .out ∨ l.monitor.pc t = .reader ∨ l.monitor.pc t = .writer) :
      (l.monitor.pc t).waitsUpgrade = false ∧ (l.monitor.pc t).wokenUpgrade = false := by
    rcases hp with hp | hp | hp <;> rw [hp] <;> exact ⟨rfl, rfl⟩
  cases hs : l.stage t with
  | idle => exact hsettled (h.at hs).place
  | unlocked d => exact hsettled (h.at hs).place
  | returned mode code => exact hsettled (h.at hs).1.place
  | entered mode r w => exact hsettled (h.at hs).1.place
  | allowed mode upgrade => exact hsettled (.inl (h.at hs).2.1)
  | leaving d => exact hsettled (.inr (h.at hs).2)
  | asking mode upgrade =>
    have hasks := (h.at hs).2.1
    cases mode with
    | read => rcases hasks with hp | hp | hp <;> rw [hp] <;> exact ⟨rfl, rfl⟩
    | write => rcases hasks with hp | hp | hp <;> rw [hp] <;> exact ⟨rfl, rfl⟩

omit [DecidableEq T] in
/-- The steps that leave the semaphore alone. -/
theorem Orderly.of_same (h : Orderly priority l) (hinv : l'.Inv) (hmonitor : l'.monitor = l.monitor)
    (hqueue : l'.queue = l.queue)
    (holdest : ∀ u, u ∈ l'.currentRead ∨ u ∈ l'.currentWrite → priority l'.tid ≤ priority u) :
    Orderly priority l' := by
  refine ⟨hinv, holdest, ?_, ?_⟩
  · rw [hmonitor, hqueue]
    exact h.queue
  · intro t u hw
    refine h.older t u ?_
    unfold WaitsFor at hw
    rw [hmonitor, hqueue] at hw
    exact hw

theorem Orderly.check (h : Orderly priority l) (hinv : l'.Inv)
    (hstep : l.step priority (.check t) = some l') : Orderly priority l' := by
  simp only [step] at hstep
  split at hstep
  case h_2 => cases hstep
  rename_i mode r w hs
  cases hstep
  rcases l.check_cases priority t mode r w with ⟨up, hcheck⟩ | ⟨-, hcheck⟩ | ⟨-, hcheck⟩
  · rw [hcheck] at hinv ⊢
    exact h.of_same hinv rfl rfl h.oldest
  · rw [hcheck] at hinv ⊢
    exact h.of_same hinv rfl rfl h.oldest
  · rw [hcheck] at hinv ⊢
    exact h.of_same hinv rfl rfl h.oldest

theorem Orderly.finish (h : Orderly priority l) (hinv : l'.Inv)
    (hstep : l.step priority (.finish t) = some l') : Orderly priority l' := by
  simp only [step] at hstep
  split at hstep
  case h_2 => cases hstep
  split at hstep
  · cases hstep
    refine h.of_same hinv rfl rfl ?_
    intro u hu
    have hmin : priority (if priority t < priority l.tid then t else l.tid) ≤ priority t ∧
        priority (if priority t < priority l.tid then t else l.tid) ≤ priority l.tid := by
      split <;> omega
    rcases eq_or_ne u t with rfl | hne
    · exact hmin.1
    · refine le_trans hmin.2 (h.oldest u ?_)
      exact hu.imp (frame_finish l hne _).read.mp (frame_finish l hne _).write.mp
  · cases hstep
    exact h.of_same hinv rfl rfl h.oldest

omit [DecidableEq T] [Fintype T] in
theorem mem_stillWaiting {pc : T → UJPlace} {queue : List T} :
    u ∈ stillWaiting pc queue ↔ u ∈ queue ∧ (pc u).waits = true := List.mem_filter

omit [DecidableEq T] [Fintype T] in
theorem sublist_of_stillWaiting {pc : T → UJPlace} {queue : List T}
    (h : [u, t].Sublist (stillWaiting pc queue)) : [u, t].Sublist queue :=
  h.trans List.filter_sublist

omit [DecidableEq T] [Fintype T] in
/-- Who was not put at the end was in the queue, and so was who is before it. -/
theorem sublist_of_append {queue : List T} (h : [u, v].Sublist (queue ++ [t])) (hne : v ≠ t) :
    [u, v].Sublist queue := by
  obtain ⟨a, b, hab, ha, hb⟩ := List.sublist_append_iff.mp h
  rcases List.sublist_singleton.mp hb with rfl | rfl
  · rw [List.append_nil] at hab
    exact hab ▸ ha
  · have hlast := congrArg List.getLast? hab
    simp at hlast
    exact absurd hlast hne

theorem waits_iff {p : UJPlace} :
    p.waits = true ↔ p.waitsRead = true ∨ p.waitsWrite = true ∨ p.waitsUpgrade = true := by
  simp [UJPlace.waits, or_assoc]

/-- A transaction that waits is not inside, but for an upgrader. -/
theorem not_inside_of_waits {p : UJPlace} (h : p.waits = true) (hu : p.waitsUpgrade = false) :
    p.inside = false ∧ p.writesInside = false := by
  cases p <;> simp_all [UJPlace.waits, UJPlace.waitsRead, UJPlace.waitsWrite, UJPlace.waitsUpgrade,
    UJPlace.inside, UJPlace.holdsRead, UJPlace.readsInside, UJPlace.writesInside,
    UJPlace.wokenUpgrade]

/-- Only the caller moves. It waits, or nobody waits at all. -/
theorem ask_pc {m : RWUJMonitor T} {mode : AccessMode} (h : l.Inv)
    (hm : l.monitor.step (request priority t woken mode false) = some m) :
    ∃ b, m.pc = Function.update l.monitor.pc t b ∧ b.waitsUpgrade = false ∧
      ((l.MustWait mode ∧ b.waits = true) ∨
        (b.waits = false ∧ ∀ u, (l.monitor.pc u).waits = false)) := by
  have hnobody (hzero : (RWUJMonitor.crowd l.monitor.pc).waitR = 0 ∧
      (RWUJMonitor.crowd l.monitor.pc).waitW = 0 ∧ (RWUJMonitor.crowd l.monitor.pc).waitU = 0)
      (u : T) : (l.monitor.pc u).waits = false := by
    have h₁ := tally_eq_zero.mp hzero.1 u
    have h₂ := tally_eq_zero.mp hzero.2.1 u
    have h₃ := tally_eq_zero.mp hzero.2.2 u
    simp [UJPlace.waits, h₁, h₂, h₃]
  cases mode with
  | read =>
    refine ⟨_, RWUJMonitor.step_lockRead_pc hm, ?_⟩
    by_cases hadmit : l.monitor.sem.AdmitsRead
    · rw [if_pos hadmit]
      exact ⟨rfl, .inr ⟨rfl, hnobody (h.monitor.fits.admitsRead hadmit)⟩⟩
    · rw [if_neg hadmit]
      exact ⟨rfl, .inl ⟨ hadmit, rfl⟩⟩
  | write =>
    refine ⟨_, RWUJMonitor.step_lockWrite_pc hm, ?_⟩
    by_cases hadmit : l.monitor.sem.AdmitsWrite
    · rw [if_pos hadmit]
      exact ⟨rfl, .inr ⟨rfl, hnobody (h.monitor.fits.admitsWrite hadmit)⟩⟩
    · rw [if_neg hadmit]
      exact ⟨rfl, .inl ⟨ hadmit, rfl⟩⟩

omit [DecidableEq T] [Fintype T] in
theorem holdsWrite_iff {m : RWUJMonitor T} (h : (m.pc u).wokenUpgrade = false) :
    m.HoldsWrite u ↔ (m.pc u).writesInside = true := by
  simp [RWUJMonitor.HoldsWrite, h]

theorem inside_of_writesInside {p : UJPlace} (h : p.writesInside = true) : p.inside = true := by
  simp [UJPlace.inside, h]

/-- One transaction asks the semaphore and is let in or has to wait. -/
theorem Orderly.ask (hdist : Function.Injective priority) (h : Orderly priority l)
    (hc : l.Enabled (.ask t woken)) (hord : l.InOrder priority (.ask t woken)) (hinv : l'.Inv)
    (hstep : l.step priority (.ask t woken) = some l') : Orderly priority l' := by
  obtain ⟨mode, upgrade, hs⟩ := hc.1
  obtain ⟨-, hout, rfl⟩ := (h.inv.right t).at hs
  simp only [step, hs] at hstep
  obtain ⟨m, hm, hstep⟩ := Option.bind_eq_some_iff.mp hstep
  cases hstep
  obtain ⟨b, hpc, hup, hb⟩ := ask_pc h.inv hm
  have hself : m.pc t = b := by rw [hpc, Function.update_self]
  have hothers {u : T} (hu : u ≠ t) : m.pc u = l.monitor.pc u := by
    rw [hpc, Function.update_of_ne hu]
  have hwrites {u : T} (hw : m.HoldsWrite u) : (m.pc u).writesInside = true :=
    (holdsWrite_iff (hinv.right u).place.2).mp hw
  refine ⟨hinv, h.oldest, fun u => ?_, fun v u hw => ?_⟩
  · show u ∈ stillWaiting m.pc (l.queue ++ [t]) ↔ (m.pc u).waits = true
    rw [mem_stillWaiting, List.mem_append, List.mem_singleton]
    refine ⟨fun hu => hu.2, fun hu => ⟨?_, hu⟩⟩
    rcases eq_or_ne u t with rfl | hne
    · exact .inr rfl
    · rw [hothers hne] at hu
      exact .inl ((h.queue u).mpr hu)
  · obtain ⟨hwaits, hne, hfor⟩ := hw
    replace hwaits : (m.pc v).waits = true := hwaits
    replace hfor : (if (m.pc v).waitsRead then m.HoldsWrite u else (m.pc u).inside = true) ∨
      [u, v].Sublist (stillWaiting m.pc (l.queue ++ [t])) := hfor
    rcases hb with ⟨hmust, hbw⟩ | ⟨hbw, hnobody⟩
    case inr =>
      rcases eq_or_ne v t with rfl | hv
      · rw [hself, hbw] at hwaits
        cases hwaits
      · rw [hothers hv, hnobody v] at hwaits
        cases hwaits
    obtain ⟨hcheck, hyoung⟩ := hord.2 mode false hs hmust
    have hin : (if (m.pc v).waitsRead then m.HoldsWrite u else (m.pc u).inside = true) →
        (m.pc u).inside = true := by
      split
      · exact fun hw => inside_of_writesInside (hwrites hw)
      · exact id
    have hut (hi : (m.pc u).inside = true) : u ≠ t := by
      rintro rfl
      rw [hself, (not_inside_of_waits hbw hup).1] at hi
      cases hi
    rcases eq_or_ne v t with rfl | hv
    · rcases hfor with hfor | hfor
      · have hi := hin hfor
        rw [hothers hne] at hi
        by_cases hnoted : u ∈ l.currentRead ∨ u ∈ l.currentWrite
        · have hle : priority v ≤ priority l.tid := by
            unfold preventDeadlock at hcheck
            split at hcheck
            · cases hcheck
            · omega
          refine lt_of_le_of_ne (le_trans hle (h.oldest u hnoted)) fun heq => ?_
          exact hne (hdist heq.symm)
        · exact hyoung u hne (.inr ⟨hi, not_or.mp hnoted⟩)
      · have hmem := (sublist_of_stillWaiting hfor).subset List.mem_cons_self
        rw [List.mem_append, List.mem_singleton] at hmem
        exact hyoung u hne (.inl ((h.queue u).mp (hmem.resolve_right hne)))
    · refine h.older v u ⟨by rwa [hothers hv] at hwaits, hne, ?_⟩
      rcases hfor with hfor | hfor
      · refine .inl ?_
        have hu := hut (hin hfor)
        rw [hothers hv] at hfor
        split
        · rename_i hread
          rw [if_pos hread] at hfor
          have hw := hwrites hfor
          rw [hothers hu] at hw
          exact .inl hw
        · rename_i hread
          rw [if_neg hread, hothers hu] at hfor
          exact hfor
      · exact .inr (sublist_of_append (sublist_of_stillWaiting hfor) hv)

omit [DecidableEq T] in
/-- Nobody begins to wait, and who is let in was queued before who waits on. -/
theorem Orderly.shrink (h : Orderly priority l) (hinv : l'.Inv)
    (hqueue : l'.queue = stillWaiting l'.monitor.pc l.queue)
    (holdest : ∀ u, u ∈ l'.currentRead ∨ u ∈ l'.currentWrite → priority l'.tid ≤ priority u)
    (hwait : ∀ v, (l'.monitor.pc v).waits = true → l'.monitor.pc v = l.monitor.pc v)
    (hhold : ∀ u v, (l'.monitor.pc v).waits = true → u ≠ v → (l'.monitor.pc u).inside = true →
      [u, v].Sublist l.queue ∨ ((l.monitor.pc u).inside = true ∧
        ((l'.monitor.pc u).writesInside = true → (l.monitor.pc u).writesInside = true))) :
    Orderly priority l' := by
  refine ⟨hinv, holdest, fun u => ?_, fun v u hw => ?_⟩
  · rw [hqueue, mem_stillWaiting]
    refine ⟨fun hu => hu.2, fun hu => ⟨(h.queue u).mpr ?_, hu⟩⟩
    rwa [hwait u hu] at hu
  · obtain ⟨hwaits, hne, hfor⟩ := hw
    have hsame := hwait v hwaits
    refine h.older v u ⟨by rwa [hsame] at hwaits, hne, ?_⟩
    rcases hfor with hfor | hfor
    · rw [← hsame]
      split at hfor
      · rename_i hread
        have hw := (holdsWrite_iff (hinv.right u).place.2).mp hfor
        rcases hhold u v hwaits hne (inside_of_writesInside hw) with hq | ⟨-, hw'⟩
        · exact .inr hq
        · rw [if_pos hread]
          exact .inl (.inl (hw' hw))
      · rename_i hread
        rcases hhold u v hwaits hne hfor with hq | ⟨hi, -⟩
        · exact .inr hq
        · rw [if_neg hread]
          exact .inl hi
    · rw [hqueue] at hfor
      exact .inr (sublist_of_stillWaiting hfor)

theorem Orderly.resume (h : Orderly priority l) (hc : l.Enabled (.resume t woken)) (hinv : l'.Inv)
    (hstep : l.step priority (.resume t woken) = some l') : Orderly priority l' := by
  obtain ⟨m, hm, hstep⟩ := Option.bind_eq_some_iff.mp hstep
  cases hstep
  have hwoken : l.monitor.pc t = .wokenReader ∨ l.monitor.pc t = .wokenWriter := by
    rcases hc.1 with hp | hp | hp
    · exact .inl hp
    · exact .inr hp
    · rw [(h.inv.right t).place.2] at hp
      cases hp
  have hpc := RWUJMonitor.step_resume_pc hm hwoken
  have hself : (m.pc t).waits = false ∧ ((l.monitor.pc t).inside = true ∧
      ((m.pc t).writesInside = true → (l.monitor.pc t).writesInside = true)) := by
    rw [hpc, Function.update_self]
    rcases hwoken with hp | hp <;> rw [hp] <;> exact ⟨rfl, rfl, id⟩
  have hothers {u : T} (hu : u ≠ t) : m.pc u = l.monitor.pc u := by
    rw [hpc, Function.update_of_ne hu]
  refine h.shrink hinv rfl h.oldest (fun v hv => ?_) (fun u v _ _ hi => .inr ?_)
  · rcases eq_or_ne v t with rfl | hne
    · exact absurd hv (by simp [hself.1])
    · exact hothers hne
  · rcases eq_or_ne u t with rfl | hne
    · exact hself.2
    · have hsame : m.pc u = l.monitor.pc u := hothers hne
      exact ⟨by rwa [← hsame], by simp [hsame]⟩

omit [Fintype T] in
/-- Who is let in by a signal. -/
theorem nextIn_of_signal {sent : Signal} (hplace : (l.monitor.pc u).waitsUpgrade = false)
    (hone : sent = .oneWriter → l.monitor.sem.inside = 1 ∧
      ¬(l.monitor.sem.mode = .write ∧ 0 < l.monitor.sem.readersWaiting))
    (hall : sent = .allReaders → l.monitor.sem.inside = 1 ∧ l.monitor.sem.mode = .write ∧
      0 < l.monitor.sem.readersWaiting)
    (hnew : RWUJMonitor.signal l.monitor.pc woken sent u ≠ l.monitor.pc u) : l.NextIn woken u := by
  cases sent with
  | nobody => exact absurd rfl hnew
  | allReaders =>
    obtain ⟨hi, hmode⟩ := hall rfl
    refine ⟨hi, ?_⟩
    rw [if_pos hmode]
    replace hnew : (l.monitor.pc u).wakeReader ≠ l.monitor.pc u := hnew
    cases hp : l.monitor.pc u <;> simp_all [UJPlace.wakeReader, UJPlace.waitsRead]
  | oneWriter =>
    obtain ⟨hi, hmode⟩ := hone rfl
    refine ⟨hi, ?_⟩
    rw [if_neg hmode]
    rcases eq_or_ne u woken.writer with rfl | hne
    · simp only [RWUJMonitor.signal, Function.update_self] at hnew
      refine ⟨rfl, ?_⟩
      cases hp : l.monitor.pc woken.writer <;> simp_all [UJPlace.wakeWriter, UJPlace.waitsWrite]
    · simp [RWUJMonitor.signal, hne] at hnew
  | oneUpgrader =>
    rcases eq_or_ne u woken.upgrader with rfl | hne
    · simp only [RWUJMonitor.signal, Function.update_self] at hnew
      cases hp : l.monitor.pc woken.upgrader <;>
        simp_all [UJPlace.wakeUpgrader, UJPlace.waitsUpgrade]
    · simp [RWUJMonitor.signal, hne] at hnew

omit [Fintype T] in
/-- All who are let in by the signal that lets in one of them. -/
theorem woken_of_nextIn {sent : Signal} (hplace : (l.monitor.pc u).waitsUpgrade = false)
    (hone : sent = .oneWriter → ¬(l.monitor.sem.mode = .write ∧ 0 < l.monitor.sem.readersWaiting))
    (hall : sent = .allReaders → l.monitor.sem.mode = .write ∧ 0 < l.monitor.sem.readersWaiting)
    (hnew : RWUJMonitor.signal l.monitor.pc woken sent u ≠ l.monitor.pc u) (hne : u ≠ v)
    (hv : l.NextIn woken v) : (RWUJMonitor.signal l.monitor.pc woken sent v).waits = false := by
  cases sent with
  | nobody => exact absurd rfl hnew
  | allReaders =>
    have hread := hv.2
    rw [if_pos (hall rfl)] at hread
    show (l.monitor.pc v).wakeReader.waits = false
    cases hp : l.monitor.pc v <;> simp_all [UJPlace.wakeReader, UJPlace.waitsRead, UJPlace.waits,
      UJPlace.waitsWrite, UJPlace.waitsUpgrade]
  | oneWriter =>
    have hwriter := hv.2
    rw [if_neg (hone rfl)] at hwriter
    have hu : u ≠ woken.writer := hwriter.1 ▸ hne
    simp [RWUJMonitor.signal, hu] at hnew
  | oneUpgrader =>
    rcases eq_or_ne u woken.upgrader with rfl | hu
    · simp only [RWUJMonitor.signal, Function.update_self] at hnew
      cases hp : l.monitor.pc woken.upgrader <;>
        simp_all [UJPlace.wakeUpgrader, UJPlace.waitsUpgrade]
    · simp [RWUJMonitor.signal, hu] at hnew

theorem eq_of_woke_waits {p q : UJPlace} (h : p.Woke q) (hq : q.waits = true) : q = p := by
  cases h with
  | same => rfl
  | reader | writer | upgrader => cases hq

theorem Orderly.release (h : Orderly priority l) (hord : l.InOrder priority (.release t woken))
    (hinv : l'.Inv) (hstep : l.step priority (.release t woken) = some l') :
    Orderly priority l' := by
  simp only [step] at hstep
  split at hstep
  case h_2 => cases hstep
  rename_i d hs
  obtain ⟨m, hm, hstep⟩ := Option.bind_eq_some_iff.mp hstep
  cases hstep
  obtain ⟨sent, hpc, hone, hall⟩ := RWUJMonitor.step_unlock_pc hm
  have hout : m.pc t = .out := by rw [hpc, Function.update_self]
  have hothers {u : T} (hu : u ≠ t) : m.pc u = RWUJMonitor.signal l.monitor.pc woken sent u := by
    rw [hpc, Function.update_of_ne hu]
  refine h.shrink hinv rfl h.oldest (fun v hv => ?_) (fun u v hv hne hu => ?_)
  · replace hv : (m.pc v).waits = true := hv
    have hvt : v ≠ t := by
      rintro rfl
      rw [hout] at hv
      cases hv
    show m.pc v = l.monitor.pc v
    rw [hothers hvt] at hv ⊢
    exact eq_of_woke_waits (RWUJMonitor.woke_signal ..) hv
  · replace hu : (m.pc u).inside = true := hu
    replace hv : (m.pc v).waits = true := hv
    have hut : u ≠ t := by
      rintro rfl
      rw [hout] at hu
      cases hu
    have hvt : v ≠ t := by
      rintro rfl
      rw [hout] at hv
      cases hv
    rw [hothers hvt] at hv
    have hsame := eq_of_woke_waits (RWUJMonitor.woke_signal ..) hv
    by_cases hnew : RWUJMonitor.signal l.monitor.pc woken sent u = l.monitor.pc u
    · rw [← hothers hut] at hnew
      refine .inr ⟨by rwa [← hnew], ?_⟩
      show (m.pc u).writesInside = true → _
      rw [hnew]
      exact id
    · have hplace := (h.inv.right u).place.1
      have hnext := nextIn_of_signal hplace hone hall hnew
      refine .inl (hord.2 u v hnext (hsame ▸ hv) fun hv' => ?_)
      have hwaits := woken_of_nextIn hplace (fun hs => (hone hs).2) (fun hs => (hall hs).2) hnew
        hne hv'
      rw [hwaits] at hv
      cases hv

theorem orderly_create (t : T) (mode : AccessMode) : Orderly priority (create t mode) := by
  have hout (u : T) : ((create t mode).monitor.pc u).waits = false := by
    rcases eq_or_ne u t with rfl | hne
    · cases mode <;> simp [create, UJPlace.waits, UJPlace.waitsRead, UJPlace.waitsWrite,
        UJPlace.waitsUpgrade]
    · simp [create, hne, UJPlace.waits, UJPlace.waitsRead, UJPlace.waitsWrite,
        UJPlace.waitsUpgrade]
  refine ⟨inv_create t mode, ?_, ?_, ?_⟩
  · intro u hu
    cases mode <;> simp_all [create]
  · intro u
    rw [hout u]
    simp [create]
  · intro v u hw
    rw [WaitsFor, hout v] at hw
    cases hw.1

theorem Orderly.step {c : LockCall T} (hdist : Function.Injective priority)
    (h : Orderly priority l) (hc : l.Enabled c) (hord : l.InOrder priority c)
    (hstep : l.step priority c = some l') : Orderly priority l' := by
  have hinv := h.inv.step hc hord.1 hstep
  cases c with
  | waitForLock t mode =>
    cases hstep
    exact h.of_same hinv rfl rfl h.oldest
  | check t => exact h.check hinv hstep
  | ask t woken => exact h.ask hdist hc hord hinv hstep
  | resume t woken => exact h.resume hc hinv hstep
  | finish t => exact h.finish hinv hstep
  | unlock t =>
    cases hstep
    refine h.of_same hinv rfl rfl fun u hu => h.oldest u ?_
    exact hu.imp Finset.mem_of_mem_erase Finset.mem_of_mem_erase
  | release t woken => exact h.release hord hinv hstep

theorem orderly_of_reaches {t₀ : T} {mode₀ : AccessMode} (hdist : Function.Injective priority)
    (h : Reaches (step priority) (fun l c => l.Enabled c ∧ l.InOrder priority c)
      (create t₀ mode₀) l) : Orderly priority l := by
  apply h.invariant (orderly_create t₀ mode₀)
  intro l c l' hl hc hstep
  exact hl.step hdist hc.1 hc.2 hstep

instance (l : SingleLock T) (t u : T) : Decidable (l.WaitsFor t u) :=
  inferInstanceAs (Decidable ((l.monitor.pc t).waits = true ∧ u ≠ t ∧
    ((if (l.monitor.pc t).waitsRead then (l.monitor.pc u).writesInside = true ∨
        ((l.monitor.pc u).wokenUpgrade = true ∧ l.monitor.sem.mode = .write)
      else (l.monitor.pc u).inside = true) ∨ [u, t].Sublist l.queue)))

instance (l : SingleLock T) : DecidablePred l.MustWait
  | .read => inferInstanceAs (Decidable (¬l.monitor.sem.AdmitsRead))
  | .write => inferInstanceAs (Decidable (¬l.monitor.sem.AdmitsWrite))

instance (l : SingleLock T) (woken : Woken T) : DecidablePred (l.NextIn woken) := fun u =>
  inferInstanceAs (Decidable (l.monitor.sem.inside = 1 ∧
    if l.monitor.sem.mode = .write ∧ 0 < l.monitor.sem.readersWaiting then
      (l.monitor.pc u).waitsRead = true
    else u = woken.writer ∧ (l.monitor.pc u).waitsWrite = true))

instance (l : SingleLock T) : DecidablePred (l.InOrder priority)
  | .ask t woken => inferInstanceAs (Decidable (l.NoUpgrade priority (.ask t woken) ∧
    ∀ mode upgrade, l.stage t = .allowed mode upgrade → l.MustWait mode →
      l.preventDeadlock priority t = 0 ∧
      ∀ u, u ≠ t → ((l.monitor.pc u).waits = true ∨ ((l.monitor.pc u).inside = true ∧
        u ∉ l.currentRead ∧ u ∉ l.currentWrite)) → priority t < priority u))
  | .release t woken => inferInstanceAs (Decidable (l.NoUpgrade priority (.release t woken) ∧
    ∀ u v, l.NextIn woken u → (l.monitor.pc v).waits = true → ¬l.NextIn woken v →
      [u, v].Sublist l.queue))
  | .check t => inferInstanceAs (Decidable (l.NoUpgrade priority (.check t) ∧ True))
  | .waitForLock _ _ | .resume _ _ | .finish _ | .unlock _ => .isTrue ⟨trivial, trivial⟩

end SingleLock

namespace LockManager

variable {T P : Type} [DecidableEq T] [DecidableEq P] [Fintype T] {priority : T → Int}
  {m : LockManager T P}

/-- A transaction waits for another one at some lock. -/
def WaitsFor (m : LockManager T P) (t u : T) : Prop :=
  ∃ id phid l, m.heap id = some (phid, l) ∧ l.WaitsFor t u

end LockManager

end Loxim.Lock
