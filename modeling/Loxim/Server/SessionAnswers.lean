import Loxim.Server.Worker
import Mathlib.Data.List.Nodup

/-!
# What the client gets

The worker writes the answer to a statement, and the thread that reads answers pings, both
through the mutex for sending.
-/

namespace Loxim.Server

/-- The values of one statement. -/
def block (n : Nat) : List Message := [.sendvalues n, .sendvalue n, .finished n]

/-- Values and an error end with one of these. -/
def answers (wire : List Message) (n : Nat) : Nat :=
  wire.count (.finished n) + wire.count (.error n)

def Message.single : Message → Bool
  | .ping | .pong | .bye | .error _ => true
  | _ => false

/-- The values of each statement stand together. -/
inductive Whole : List Message → Prop
  | nil : Whole []
  | single (wire : List Message) (m : Message) (hm : m.single = true) (h : Whole wire) :
    Whole (wire ++ [m])
  | block (wire : List Message) (n : Nat) (h : Whole wire) : Whole (wire ++ block n)

/-- What a client may send after it has logged in. -/
def Kind.permitted : Kind → Bool
  | .ping | .pong | .abort | .statement _ => true
  | _ => false

namespace Session

/-- The worker has done with the package: it has been answered, or aborted. -/
def Done (s : Session) (p : Package) : Prop :=
  answers s.wire p.number = 1 ∨ answers s.wire p.number = 0 ∧ p.number ∈ s.aborted

/-- The client sends no ping, and a statement comes while the worker waits for it. Processing it
does not throw, and the session does not stop while the worker has one still to take. -/
def Calm (s : Session) : Event → Prop
  | .read kind => kind.permitted = true ∧ kind ≠ .ping
  | .submit => ∀ p ∈ s.thread.package, p.kind.regular = true → s.worker = .waiting
  | .stop => s.worker.called = false
  | .worker outcome => s.throws outcome = false
  | _ => True

instance (s : Session) : (e : Event) → Decidable (s.Calm e)
  | .read _ => inferInstanceAs (Decidable (_ ∧ _))
  | .submit => inferInstanceAs (Decidable (∀ p ∈ s.thread.package, _ → _))
  | .stop | .worker _ => inferInstanceAs (Decidable (_ = false))
  | .start | .resume | .leave _ | .cancel | .signal | .join | .keepAlive => isTrue trivial

/-- A ping is answered by a pong and does nothing else. Neither do a pong and a late abort do
anything. A statement that is executed is answered at most once; it is answered, if it was not
aborted before, when it is no longer in the slot, and the worker comes to that. Its values stand
together. -/
structure Answered (s : Session) : Prop where
  ping : ∀ p s', s.thread = .submitting p → p.kind = .ping → s.step .submit = some s' →
    s' = { s with aborting := false, thread := .reading, wire := s.wire ++ [.pong] }
  pongs : s.wire.count .pong + s.thread.package.toList.countP (·.kind = .ping) =
    s.received.countP (·.kind = .ping)
  quiet : ∀ p s', s.thread = .submitting p →
    p.kind = .pong ∨ p.kind = .abort ∧ s.curPackage = none → s.step .submit = some s' →
    s' = { s with aborting := false, thread := .reading }
  accepted : ∀ p ∈ s.received, p.kind = .statement true → p ∈ s.accepted ∨ s.thread = .submitting p
  once : ∀ p ∈ s.accepted, p.kind = .statement true → answers s.wire p.number ≤ 1
  done : ∀ p ∈ s.accepted, p.kind = .statement true → s.curPackage ≠ some p → s.Done p
  comes : ∀ p, s.curPackage = some p → Comes Calm (fun s' => s'.curPackage = none) s
  framed : ∃ wire, Whole wire ∧ (s.wire = wire ∨
    ∃ n k, s.worker = .processing (.responding k) ∧ s.wire = wire ++ (block n).take k)

-- ---------------------------------------------------------------------------
-- What holds in every state
-- ---------------------------------------------------------------------------

/-- The values being written are those of the package in the slot. -/
def Framing (s : Session) : Prop :=
  match s.worker with
  | .processing (.responding k) => ∃ wire p, s.curPackage = some p ∧ Whole wire ∧
    s.wire = wire ++ (block p.number).take k
  | _ => Whole s.wire

/-- The package in the slot is answered with the end of `process_package`. -/
def Open (s : Session) (p : Package) : Prop :=
  match s.worker with
  | .returned | .finishing => s.Done p
  | _ => answers s.wire p.number = 0

structure Talk (s : Session) : Prop where
  inv : Inv s
  permitted : ∀ p ∈ s.received, p.kind.permitted = true ∧ p.kind ≠ .ping
  heard : ∀ p, s.thread = .submitting p → p ∈ s.received
  regular : ∀ p ∈ s.accepted, p ∈ s.received ∧ p.kind.regular = true
  accepted : ∀ p ∈ s.received, p.kind = .statement true → p ∈ s.accepted ∨ s.thread = .submitting p
  whole : s.worker ≠ .threw ∧ s.worker ≠ .failing
  ended : s.worker = .ended → s.curPackage = none
  pongs : Message.pong ∉ s.wire
  framing : s.Framing
  aborting : s.aborting = true → ∀ p, s.curPackage = some p → p.number ∈ s.aborted
  fresh : ∀ n, (∀ p ∈ s.accepted, p.number ≠ n) → answers s.wire n = 0
  done : ∀ p ∈ s.accepted, p.kind = .statement true → s.curPackage ≠ some p → s.Done p
  current : ∀ p, s.curPackage = some p → p.kind = .statement true → s.Open p

theorem talk_init : Talk {} where
  inv := inv_init
  permitted := by rintro p ⟨⟩
  heard := by rintro p ⟨⟩
  regular := by rintro p ⟨⟩
  accepted := by rintro p ⟨⟩
  whole := ⟨by rintro ⟨⟩, by rintro ⟨⟩⟩
  ended := by rintro ⟨⟩
  pongs := by rintro ⟨⟩
  framing := .nil
  aborting := by rintro ⟨⟩
  fresh _ _ := rfl
  done := by rintro p ⟨⟩
  current := by rintro p ⟨⟩

/-- The steps of `process_package` that do not throw. -/
inductive Processes (s : Session) (p : Package) : Stage → Session → Prop
  | skip (hk : p.kind ≠ .statement true) : Processes s p .begun { s with worker := .returned }
  | execute : Processes s p .begun { s with worker := .processing .executing }
  | result : Processes s p .executing { s with worker := .processing .executed }
  | hush (ha : s.aborting = true) : Processes s p .executing { s with worker := .returned }
  | fails : Processes s p .executing { s with worker := .processing .failed }
  | error : Processes s p .failed { s with
      worker := .returned, wire := s.wire ++ [.error p.number] }
  | respond : Processes s p .executed { s with worker := .processing (.responding 0) }
  | sendvalues : Processes s p (.responding 0) { s with
      worker := .processing (.responding 1), wire := s.wire ++ [.sendvalues p.number] }
  | sendvalue : Processes s p (.responding 1) { s with
      worker := .processing (.responding 2), wire := s.wire ++ [.sendvalue p.number] }
  | finished : Processes s p (.responding 2) { s with
      worker := .returned, wire := s.wire ++ [.finished p.number] }

variable {s s' : Session}

theorem processes_of_process {p : Package} {stage : Stage} {o : Outcome}
    (hw : s.worker = .processing stage) (hp : s.curPackage = some p) (hok : s.throws o = false)
    (h : s.process p stage o = some s') : Processes s p stage s' := by
  unfold throws at hok
  rw [hw, hp] at hok
  cases stage with
  | begun =>
    unfold process at h
    cases hk : p.kind with
    | statement execute =>
      rw [hk] at h
      cases execute with
      | false =>
        cases h
        exact .skip (by simp [hk])
      | true =>
        cases h
        exact .execute
    | sendvalues | setopt | execute =>
      rw [hk] at h
      cases h
      exact .skip (by simp [hk])
    | ping | pong | abort | bye | other => simp [hk, Kind.handled] at hok
  | executing =>
    unfold process at h
    cases o with
    | success =>
      cases h
      exact .result
    | error =>
      dsimp only at h
      split at h
      · rename_i ha
        cases h
        exact .hush ha
      · cases h
        exact .fails
    | throws => simp at hok
  | failed =>
    obtain rfl : o = .success := by simpa using hok
    cases h
    exact .error
  | executed =>
    cases h
    exact .respond
  | responding n =>
    obtain rfl : o = .success := by simpa using hok
    rcases n with _ | _ | _ | n
    · cases h
      exact .sendvalues
    · cases h
      exact .sendvalue
    · cases h
      exact .finished
    · cases h

-- ---------------------------------------------------------------------------
-- What is counted on the wire
-- ---------------------------------------------------------------------------

theorem answers_append (wire wire' : List Message) (n : Nat) :
    answers (wire ++ wire') n = answers wire n + answers wire' n := by
  unfold answers
  rw [List.count_append, List.count_append]
  omega

theorem answers_error {n m : Nat} : answers [.error n] m = if n = m then 1 else 0 := by
  unfold answers
  split <;> simp [*]

theorem answers_finished {n m : Nat} : answers [.finished n] m = if n = m then 1 else 0 := by
  unfold answers
  split <;> simp [*]

/-- The package in the slot is a statement, and the worker has not ended. -/
theorem Talk.sound (h : Talk s) {p : Package} (hp : s.curPackage = some p) :
    p.kind.handled = true ∧ s.worker.broken = false := by
  obtain ⟨hheard, hregular⟩ := h.regular p (List.mem_of_getLast? (h.inv.last p hp))
  obtain ⟨hpermitted, hping⟩ := h.permitted p hheard
  constructor
  · cases hk : p.kind with
    | statement => rfl
    | ping => exact absurd hk hping
    | pong | abort | bye => simp [hk, Kind.regular] at hregular
    | sendvalues | execute | setopt | other => simp [hk, Kind.permitted] at hpermitted
  · cases hw : s.worker with
    | threw => exact absurd hw h.whole.1
    | failing => exact absurd hw h.whole.2
    | ended =>
      rw [h.ended hw] at hp
      cases hp
    | off | entering | testing | waiting | signalled | woken | processing | returned | finishing =>
      rfl

theorem Talk.orderly (h : Talk s) {e : Event} (hok : s.Calm e) : s.Orderly e := by
  cases e with
  | submit =>
    intro p hp
    constructor
    · intro hregular _ hentering
      rw [hok p hp hregular] at hentering
      cases hentering
    · exact fun _ q hq => h.sound hq
  | stop => exact hok
  | worker o => exact fun _ => hok
  | start | read | resume | leave | cancel | signal | join | keepAlive => trivial

/-- Two packages that were accepted have different numbers. -/
theorem Inv.number_ne (h : Inv s) {p q : Package} (hp : p ∈ s.accepted) (hq : q ∈ s.accepted)
    (hne : p ≠ q) : p.number ≠ q.number := by
  intro heq
  have hinj := h.numbers.imp fun {p q : Package} (hlt : p.number < q.number) => Nat.ne_of_lt hlt
  exact hne (List.inj_on_of_nodup_map (List.pairwise_map.mpr hinj) hp hq heq)

/-- The worker has moved, and has written at most about the package in the slot. -/
theorem Talk.work (h : Talk s) {w : WorkerState} {wire : List Message} {handed : List Package}
    (hinv : Inv { s with worker := w, wire := wire, handed := handed })
    (hwhole : w ≠ .threw ∧ w ≠ .failing) (hended : w = .ended → s.curPackage = none)
    (hpongs : Message.pong ∉ wire)
    (hframing : Framing { s with worker := w, wire := wire, handed := handed })
    (hwire : ∀ n, (∀ p, s.curPackage = some p → p.number ≠ n) → answers wire n = answers s.wire n)
    (hopen : ∀ p, s.curPackage = some p → p.kind = .statement true →
      Open { s with worker := w, wire := wire, handed := handed } p) :
    Talk { s with worker := w, wire := wire, handed := handed } where
  inv := hinv
  permitted := h.permitted
  heard := h.heard
  regular := h.regular
  accepted := h.accepted
  whole := hwhole
  ended := hended
  pongs := hpongs
  framing := hframing
  aborting := h.aborting
  fresh n hn := by
    show answers wire n = 0
    rw [hwire n fun p hp => hn p (List.mem_of_getLast? (h.inv.last p hp))]
    exact h.fresh n hn
  done p hp hk hne := by
    have hsame : answers wire p.number = answers s.wire p.number := by
      apply hwire
      intro q hq
      apply h.inv.number_ne (List.mem_of_getLast? (h.inv.last q hq)) hp
      rintro rfl
      exact hne hq
    have hdone := h.done p hp hk hne
    unfold Done at hdone ⊢
    dsimp only
    rwa [hsame]
  current := hopen

/-- The slot has been emptied. -/
theorem Talk.finish (h : Talk s) (hw : s.worker = .finishing) {w : WorkerState}
    (hinv : Inv (signalCompletion { s with curPackage := none, worker := w }))
    (hgoes : w = .ended ∨ w = .testing) :
    Talk (signalCompletion { s with curPackage := none, worker := w }) := by
  have hwhole : Whole s.wire := by
    have hframing := h.framing
    unfold Framing at hframing
    rwa [hw] at hframing
  have hdone : ∀ p ∈ s.accepted, p.kind = .statement true → s.Done p := by
    intro p hp hk
    by_cases hcur : s.curPackage = some p
    · have hopen := h.current p hcur hk
      unfold Open at hopen
      rwa [hw] at hopen
    · exact h.done p hp hk hcur
  have hthread (ht : s.thread = .aborting) : ∀ p ∈ s.received, p.kind = .statement true →
      p ∈ s.accepted ∨ ThreadState.completed = .submitting p := by
    intro p hp hk
    rcases h.accepted p hp hk with hin | hsub
    · exact .inl hin
    · rw [ht] at hsub
      cases hsub
  unfold signalCompletion at hinv ⊢
  split
  · rename_i ht
    rw [if_pos ht] at hinv
    refine ⟨hinv, h.permitted, ?_, h.regular, hthread ht, ?_, fun _ => rfl, h.pongs, ?_, ?_, h.fresh,
      fun p hp hk _ => hdone p hp hk, ?_⟩
    · rintro p ⟨⟩
    · rcases hgoes with rfl | rfl <;> simp
    · rcases hgoes with rfl | rfl <;> exact hwhole
    · rintro _ p ⟨⟩
    · rintro p ⟨⟩
  · rename_i ht
    rw [if_neg ht] at hinv
    refine ⟨hinv, h.permitted, h.heard, h.regular, h.accepted, ?_, fun _ => rfl, h.pongs, ?_, ?_,
      h.fresh, fun p hp hk _ => hdone p hp hk, ?_⟩
    · rcases hgoes with rfl | rfl <;> simp
    · rcases hgoes with rfl | rfl <;> exact hwhole
    · rintro _ p ⟨⟩
    · rintro p ⟨⟩

theorem Talk.processes (h : Talk s) {p : Package} {stage : Stage}
    (hw : s.worker = .processing stage) (hp : s.curPackage = some p) (hinv : Inv s')
    (hs : Processes s p stage s') : Talk s' := by
  have hframing := h.framing
  unfold Framing at hframing
  have hcurrent := h.current p hp
  unfold Open at hcurrent
  rw [hw] at hframing hcurrent
  have hsame {P : Package → Prop} (hP : p.kind = .statement true → P p) :
      ∀ q, s.curPackage = some q → q.kind = .statement true → P q := by
    intro q hq
    obtain rfl : p = q := Option.some.inj (hp.symm.trans hq)
    exact hP
  cases hs with
  | skip hk =>
    exact h.work hinv (by simp) (by simp) h.pongs hframing (fun _ _ => rfl)
      (hsame fun hk' => absurd hk' hk)
  | execute | result | fails =>
    exact h.work hinv (by simp) (by simp) h.pongs hframing (fun _ _ => rfl) (hsame hcurrent)
  | hush ha =>
    exact h.work hinv (by simp) (by simp) h.pongs hframing (fun _ _ => rfl)
      (hsame fun hk => .inr ⟨hcurrent hk, h.aborting ha p hp⟩)
  | error =>
    refine h.work hinv (by simp) (by simp) (by simp [h.pongs]) (.single _ _ rfl hframing) ?_
      (hsame fun hk => .inl ?_)
    · intro n hn
      rw [answers_append, answers_error, if_neg (hn p hp), Nat.add_zero]
    · show answers (s.wire ++ [.error p.number]) p.number = 1
      rw [answers_append, hcurrent hk, answers_error, if_pos rfl]
  | respond =>
    have hresponds : Framing { s with worker := .processing (.responding 0) } :=
      ⟨s.wire, p, hp, hframing, (List.append_nil s.wire).symm⟩
    exact h.work hinv (by simp) (by simp) h.pongs hresponds (fun _ _ => rfl) (hsame hcurrent)
  | sendvalues =>
    obtain ⟨wire, q, hq, hwhole, hwire⟩ := hframing
    obtain rfl : p = q := Option.some.inj (hp.symm.trans hq)
    refine h.work hinv (by simp) (by simp) (by simp [h.pongs]) ⟨wire, p, hp, hwhole, ?_⟩ ?_
      (hsame fun hk => ?_)
    · show s.wire ++ [.sendvalues p.number] = _
      rw [hwire, List.append_assoc]
      rfl
    · intro n _
      rw [answers_append]
      rfl
    · show answers (s.wire ++ [.sendvalues p.number]) p.number = 0
      rw [answers_append, hcurrent hk]
      rfl
  | sendvalue =>
    obtain ⟨wire, q, hq, hwhole, hwire⟩ := hframing
    obtain rfl : p = q := Option.some.inj (hp.symm.trans hq)
    refine h.work hinv (by simp) (by simp) (by simp [h.pongs]) ⟨wire, p, hp, hwhole, ?_⟩ ?_
      (hsame fun hk => ?_)
    · show s.wire ++ [.sendvalue p.number] = _
      rw [hwire, List.append_assoc]
      rfl
    · intro n _
      rw [answers_append]
      rfl
    · show answers (s.wire ++ [.sendvalue p.number]) p.number = 0
      rw [answers_append, hcurrent hk]
      rfl
  | finished =>
    obtain ⟨wire, q, hq, hwhole, hwire⟩ := hframing
    obtain rfl : p = q := Option.some.inj (hp.symm.trans hq)
    have hblock : Whole (s.wire ++ [.finished p.number]) := by
      rw [hwire, List.append_assoc]
      exact .block wire p.number hwhole
    refine h.work hinv (by simp) (by simp) (by simp [h.pongs]) hblock ?_ (hsame fun hk => .inl ?_)
    · intro n hn
      rw [answers_append, answers_finished, if_neg (hn p hp), Nat.add_zero]
    · show answers (s.wire ++ [.finished p.number]) p.number = 1
      rw [answers_append, hcurrent hk, answers_finished, if_pos rfl]

theorem Talk.moves (h : Talk s) {o : Outcome} (hok : s.throws o = false) (hm : Moves s o s') :
    Talk s' := by
  have hinv := h.inv.moves (fun _ => hok) hm
  have hslot := h.inv.slot
  have hframing := h.framing
  have hcurrent := h.current
  unfold Slot at hslot
  unfold Framing at hframing
  unfold Open at hcurrent
  cases hm with
  | enter hw | wait hw hd | wake hw | take hw hd | lock hw =>
    rw [hw] at hframing hcurrent
    exact h.work hinv (by simp) (by simp) h.pongs hframing (fun _ _ => rfl) hcurrent
  | quit hw hd =>
    rw [hw] at hslot hframing hcurrent
    exact h.work hinv (by simp) (fun _ => hslot.1) h.pongs hframing (fun _ _ => rfl) hcurrent
  | release hw hd =>
    rw [hw] at hslot hframing hcurrent
    have hthread : s.thread ≠ .aborting := by
      intro hthread
      rw [h.inv.stopping, hthread] at hd
      cases hd
    have hsame : signalCompletion { s with worker := .ended } = { s with worker := .ended } :=
      if_neg hthread
    rw [hsame] at hinv ⊢
    rcases hslot with ⟨-, hnone, -⟩ | ⟨hd', -⟩
    · exact h.work hinv (by simp) (fun _ => hnone) h.pongs hframing (fun _ _ => rfl) hcurrent
    · rw [hd] at hd'
      cases hd'
  | process p stage _ hw hp hstep =>
    exact h.processes hw hp hinv (processes_of_process hw hp hok hstep)
  | quitAfter hw hd => exact h.finish hw hinv (.inl rfl)
  | again hw hd => exact h.finish hw hinv (.inr rfl)
  | fail hw => exact absurd hw h.whole.1
  | close hw => exact absurd hw h.whole.2

/-- The thread of the session has moved, and has written at most a message that answers nothing. -/
theorem Talk.turn (h : Talk s) {t : ThreadState} {aborting shut : Bool} {wire : List Message}
    {aborted : List Nat}
    (hinv : Inv { s with
      thread := t, aborting := aborting, shuttingDown := shut, wire := wire, aborted := aborted })
    (ht : t = s.thread ∨ (∀ p, t ≠ .submitting p) ∧
      ∀ p, s.thread = .submitting p → p.kind = .statement true → p ∈ s.accepted)
    (hwire : wire = s.wire ∨ s.sendMutexFree = true ∧ ∃ m, m.single = true ∧ m ≠ .pong ∧
      (∀ n, m ≠ .error n) ∧ wire = s.wire ++ [m])
    (haborted : s.aborted ⊆ aborted)
    (haborting : aborting = true → ∀ p, s.curPackage = some p → p.number ∈ aborted) :
    Talk { s with
      thread := t, aborting := aborting, shuttingDown := shut, wire := wire, aborted := aborted } := by
  have hanswers (n : Nat) : answers wire n = answers s.wire n := by
    rcases hwire with rfl | ⟨-, m, hm, -, herror, rfl⟩
    · rfl
    · rw [answers_append]
      cases m with
      | error n => exact absurd rfl (herror n)
      | sendvalues | sendvalue | finished => cases hm
      | ping | pong | bye => rfl
  have hdone {p : Package} (hp : s.Done p) : Done { s with
      thread := t, aborting := aborting, shuttingDown := shut, wire := wire,
      aborted := aborted } p := by
    unfold Done at hp ⊢
    dsimp only
    rw [hanswers]
    exact hp.imp_right fun ⟨hzero, hin⟩ => ⟨hzero, haborted hin⟩
  constructor
  · exact hinv
  · exact h.permitted
  · intro p hp
    rcases ht with rfl | ⟨hnew, -⟩
    · exact h.heard p hp
    · exact absurd hp (hnew p)
  · exact h.regular
  · intro p hp hk
    rcases h.accepted p hp hk with hin | hsub
    · exact .inl hin
    · rcases ht with rfl | ⟨-, hold⟩
      · exact .inr hsub
      · exact .inl (hold p hsub hk)
  · exact h.whole
  · exact h.ended
  · rcases hwire with rfl | ⟨-, m, -, hm, -, rfl⟩
    · exact h.pongs
    · intro hin
      rcases List.mem_append.mp hin with hin | hin
      · exact h.pongs hin
      · exact hm (List.mem_singleton.mp hin).symm
  · have hframing := h.framing
    rcases hwire with rfl | ⟨hfree, m, hm, -, -, rfl⟩
    · exact hframing
    · unfold Framing at hframing ⊢
      unfold sendMutexFree at hfree
      dsimp only
      split
      · rename_i k hw
        rw [hw] at hfree
        cases hfree
      · rename_i hw
        split at hframing
        · rename_i k hw'
          exact absurd hw' (hw k)
        · exact .single s.wire m hm hframing
  · exact haborting
  · intro n hn
    rw [← h.fresh n hn]
    exact hanswers n
  · exact fun p hp hk hne => hdone (h.done p hp hk hne)
  · intro p hp hk
    have hopen := h.current p hp hk
    unfold Open at hopen ⊢
    dsimp only
    split
    · rename_i hw
      rw [hw] at hopen
      exact hdone hopen
    · rename_i hw
      rw [hw] at hopen
      exact hdone hopen
    · rename_i hreturned hfinishing
      split at hopen
      · rename_i hw
        exact absurd hw hreturned
      · rename_i hw
        exact absurd hw hfinishing
      · rwa [hanswers]

theorem Talk.submits (h : Talk s) {p : Package} (ht : s.thread = .submitting p)
    (hok : s.Calm .submit) (hs : Submits s p s') (hinv : Inv s') : Talk s' := by
  obtain ⟨hpermitted, hping⟩ := h.permitted p (h.heard p ht)
  have hslot := h.inv.slot
  unfold Slot at hslot
  have hwaits (hk : p.kind.regular = true) : s.worker = .waiting := hok p (by rw [ht]; rfl) hk
  -- pongs and aborts are not statements
  have hquiet (hk : p.kind ≠ .statement true) :
      ∀ q, s.thread = .submitting q → q.kind = .statement true → q ∈ s.accepted := by
    intro q hq hk'
    rw [ht] at hq
    cases hq
    exact absurd hk' hk
  cases hs with
  | ignored hk =>
    have hne : p.kind ≠ .statement true := by
      rcases hk with hk | ⟨-, hk | hk⟩ <;> simp [hk]
    exact h.turn hinv (.inr ⟨by simp, hquiet hne⟩) (.inl rfl) (fun _ hn => hn) (by simp)
  | aborts q hk hq =>
    refine h.turn hinv (.inr ⟨by simp, hquiet (by simp [hk])⟩) (.inl rfl)
      (List.subset_append_left _ _) ?_
    intro _ r hr
    obtain rfl : q = r := Option.some.inj (hq.symm.trans hr)
    exact List.mem_append_right _ List.mem_cons_self
  | refused hk hq =>
    have hregular : p.kind.regular = true := by
      cases hkind : p.kind with
      | pong => exact absurd hkind hk.1
      | abort => exact absurd hkind hk.2
      | bye => simp [hkind, Kind.permitted] at hpermitted
      | ping | sendvalues | statement | execute | setopt | other => rfl
    rw [hwaits hregular] at hslot
    rw [hslot.1] at hq
    cases hq
  | accepts hk hq =>
    have hw := hwaits hk
    have hidle : signalIdle { s with
        aborting := false, thread := .reading, wire := s.ponged p, curPackage := some p,
        accepted := s.accepted ++ [p] } = { s with
        aborting := false, thread := .reading, wire := s.ponged p, curPackage := some p,
        accepted := s.accepted ++ [p], worker := .signalled } := if_pos hw
    have hwire : s.ponged p = s.wire := if_neg hping
    rw [hidle, hwire] at hinv ⊢
    have hframing := h.framing
    unfold Framing at hframing
    rw [hw] at hframing
    have hfresh : ∀ q ∈ s.accepted, q.number ≠ p.number :=
      fun q hq => Nat.ne_of_lt ((h.inv.next p ht).2 q hq)
    constructor
    · exact hinv
    · exact h.permitted
    · rintro q ⟨⟩
    · intro q hq
      rcases List.mem_append.mp hq with hq | hq
      · exact h.regular q hq
      · obtain rfl := List.mem_singleton.mp hq
        exact ⟨h.heard q ht, hk⟩
    · intro q hq hk'
      rcases h.accepted q hq hk' with hin | hsub
      · exact .inl (List.mem_append_left _ hin)
      · rw [ht] at hsub
        cases hsub
        exact .inl (List.mem_append_right _ List.mem_cons_self)
    · simp
    · rintro ⟨⟩
    · exact h.pongs
    · exact hframing
    · rintro ⟨⟩
    · exact fun n hn => h.fresh n fun q hq => hn q (List.mem_append_left _ hq)
    · intro q hin hk' hne
      rcases List.mem_append.mp hin with hin | hin
      · exact h.done q hin hk' (by rw [hq]; simp)
      · exact absurd (congrArg some (List.mem_singleton.mp hin).symm) hne
    · rintro q ⟨⟩ hk'
      exact h.fresh p.number hfresh

theorem Talk.step (h : Talk s) {e : Event} (hok : s.Calm e) (hs : s.step e = some s') :
    Talk s' := by
  have hinv := h.inv.step (h.orderly hok) hs
  have hidle {t : ThreadState} (ht : s.thread = t) (hne : ∀ p, t ≠ .submitting p) :
      ∀ p, s.thread = .submitting p → p.kind = .statement true → p ∈ s.accepted := by
    intro p hp
    rw [ht] at hp
    exact absurd hp (hne p)
  cases e with
  | start =>
    obtain ⟨ht, hs⟩ := Option.ite_none_right_eq_some.mp hs
    cases hs
    have hw := h.inv.starting.mp ht
    have hslot := h.inv.slot
    have hframing := h.framing
    unfold Slot at hslot
    unfold Framing at hframing
    rw [hw] at hslot hframing
    refine ⟨hinv, h.permitted, by simp, h.regular, ?_, by simp, by simp, h.pongs, hframing,
      h.aborting, h.fresh, h.done, ?_⟩
    · intro p hp hk
      exact .inl ((h.accepted p hp hk).resolve_right (by rw [ht]; simp))
    · intro p hp
      have hp : s.curPackage = some p := hp
      rw [hslot.1] at hp
      cases hp
  | read kind =>
    obtain ⟨ht, hs⟩ := Option.ite_none_right_eq_some.mp hs
    cases hs
    refine ⟨hinv, ?_, ?_, ?_, ?_, h.whole, h.ended, h.pongs, h.framing, h.aborting, h.fresh, h.done,
      h.current⟩
    · intro p hp
      rcases List.mem_append.mp hp with hp | hp
      · exact h.permitted p hp
      · exact List.mem_singleton.mp hp ▸ hok
    · rintro p ⟨⟩
      exact List.mem_append_right _ List.mem_cons_self
    · intro p hp
      exact (h.regular p hp).imp_left fun hin => List.mem_append_left _ hin
    · intro p hp hk
      rcases List.mem_append.mp hp with hp | hp
      · exact .inl ((h.accepted p hp hk).resolve_right (by rw [ht]; simp))
      · exact .inr (congrArg _ (List.mem_singleton.mp hp).symm)
  | submit =>
    unfold Session.step at hs
    cases ht : s.thread with
    | submitting p =>
      rw [ht] at hs
      obtain ⟨-, hs⟩ := Option.ite_none_right_eq_some.mp hs
      cases hs
      exact h.submits ht hok (submits_submit s p) hinv
    | starting | reading | aborting | completed | leaving | stopping | cancelled | joining
      | stopped =>
      rw [ht] at hs
      cases hs
  | resume =>
    obtain ⟨⟨ht, -⟩, hs⟩ := Option.ite_none_right_eq_some.mp hs
    cases hs
    have hempty : { s with curPackage := none, thread := .reading } =
        { s with thread := .reading } := by
      rw [← h.inv.completed ht]
    rw [hempty] at hinv ⊢
    exact h.turn hinv (.inr ⟨by simp, hidle ht (by simp)⟩) (.inl rfl) (fun _ hn => hn) h.aborting
  | leave bye =>
    obtain ⟨⟨ht, hfree⟩, hs⟩ := Option.ite_none_right_eq_some.mp hs
    cases hs
    apply h.turn hinv (.inr ⟨by simp, hidle ht (by simp)⟩) _ (fun _ hn => hn) h.aborting
    cases bye with
    | true => exact .inr ⟨hfree, .bye, rfl, by simp, by simp, rfl⟩
    | false => exact .inl rfl
  | stop =>
    obtain ⟨ht, hs⟩ := Option.ite_none_right_eq_some.mp hs
    cases hs
    exact h.turn hinv (.inr ⟨by simp, hidle ht (by simp)⟩) (.inl rfl) (fun _ hn => hn) h.aborting
  | cancel =>
    obtain ⟨⟨ht, -⟩, hs⟩ := Option.ite_none_right_eq_some.mp hs
    cases hs
    exact h.turn hinv (.inr ⟨by simp, hidle ht (by simp)⟩) (.inl rfl) (fun _ hn => hn) h.aborting
  | signal =>
    obtain ⟨⟨ht, -⟩, hs⟩ := Option.ite_none_right_eq_some.mp hs
    cases hs
    have hjoins : Inv { s with thread := .joining } :=
      h.inv.turn (by simp [ht]) (by simp) (by simp) (by rw [ht]; rfl) (by simp) (by simp)
    have hturn : Talk { s with thread := .joining } :=
      h.turn hjoins (.inr ⟨by simp, hidle ht (by simp)⟩) (.inl rfl) (fun _ hn => hn) h.aborting
    unfold signalIdle at hinv ⊢
    by_cases hw : s.worker = .waiting
    · have hcurrent := hturn.current
      have hframing := hturn.framing
      unfold Open at hcurrent
      unfold Framing at hframing
      dsimp only at hcurrent hframing
      rw [hw] at hcurrent hframing
      rw [if_pos hw] at hinv ⊢
      exact hturn.work hinv (by simp) (by simp) h.pongs hframing (fun _ _ => rfl) hcurrent
    · rw [if_neg hw]
      exact hturn
  | join =>
    obtain ⟨⟨ht, -⟩, hs⟩ := Option.ite_none_right_eq_some.mp hs
    cases hs
    exact h.turn hinv (.inr ⟨by simp, hidle ht (by simp)⟩) (.inl rfl) (fun _ hn => hn) h.aborting
  | worker o => exact h.moves hok (moves_of_step hs)
  | keepAlive =>
    obtain ⟨hfree, hs⟩ := Option.ite_none_right_eq_some.mp hs
    cases hs
    exact h.turn hinv (.inl rfl) (.inr ⟨hfree, .ping, rfl, by simp, by simp, rfl⟩) (fun _ hn => hn)
      h.aborting

theorem Talk.comes (h : Talk s) {p : Package} (hp : s.curPackage = some p) :
    Comes Calm (fun s' => s'.curPackage = none) s := by
  induction hn : s.worker.left using Nat.strongRecOn generalizing s with
  | ind n ih =>
    obtain ⟨hhandled, hbroken⟩ := h.sound hp
    obtain ⟨hthrows, s₁, hs₁⟩ := h.inv.goes hp hhandled hbroken
    apply Comes.later s ⟨.success, s₁, hthrows, hs₁⟩
    intro o s' hok hs
    have hm := moves_of_step hs
    rcases h.inv.nearer hp hbroken hok hm with ⟨hdone, -⟩ | ⟨hp', -, -, hless⟩
    · exact .now s' hdone
    · exact ih _ (hn ▸ hless) (h.moves hok hm) hp' rfl

theorem Talk.answered (h : Talk s) : Answered s where
  ping p s' ht hk _ := absurd hk (h.permitted p (h.heard p ht)).2
  pongs := by
    have hnone : s.received.countP (·.kind = .ping) = 0 := by
      apply List.countP_eq_zero.mpr
      intro p hp hk
      exact (h.permitted p hp).2 (of_decide_eq_true hk)
    have hsubmitting : s.thread.package.toList.countP (·.kind = .ping) = 0 := by
      apply List.countP_eq_zero.mpr
      intro p hp hk
      cases ht : s.thread with
      | submitting q =>
        rw [ht] at hp
        obtain rfl := List.mem_singleton.mp hp
        exact (h.permitted p (h.heard p ht)).2 (of_decide_eq_true hk)
      | starting | reading | aborting | completed | leaving | stopping | cancelled | joining
        | stopped =>
        rw [ht] at hp
        cases hp
    rw [hnone, hsubmitting, List.count_eq_zero.mpr h.pongs]
  quiet p s' ht hk hs := by
    unfold Session.step at hs
    rw [ht] at hs
    obtain ⟨-, hs⟩ := Option.ite_none_right_eq_some.mp hs
    cases hs
    have hsubmits := submits_submit s p
    generalize s.submit p = s' at hsubmits
    cases hsubmits with
    | ignored => rfl
    | aborts q habort hq =>
      rcases hk with hk | ⟨-, hnone⟩
      · rw [habort] at hk
        cases hk
      · rw [hq] at hnone
        cases hnone
    | refused hne hq =>
      rcases hk with hk | ⟨hk, -⟩
      · exact absurd hk hne.1
      · exact absurd hk hne.2
    | accepts hregular hq =>
      rcases hk with hk | ⟨hk, -⟩ <;> simp [hk, Kind.regular] at hregular
  accepted := h.accepted
  once p hp hk := by
    by_cases hcur : s.curPackage = some p
    · have hopen := h.current p hcur hk
      unfold Open at hopen
      split at hopen
      · rcases hopen with hone | ⟨hzero, -⟩ <;> omega
      · rcases hopen with hone | ⟨hzero, -⟩ <;> omega
      · omega
    · rcases h.done p hp hk hcur with hone | ⟨hzero, -⟩ <;> omega
  done := h.done
  comes _ hp := h.comes hp
  framed := by
    have hframing := h.framing
    unfold Framing at hframing
    split at hframing
    · rename_i k hw
      obtain ⟨wire, p, -, hwhole, hwire⟩ := hframing
      exact ⟨wire, hwhole, .inr ⟨p.number, k, hw, hwire⟩⟩
    · exact ⟨s.wire, hframing, .inl rfl⟩

/-- In every calm run, in every state. -/
theorem answered_once {s : Session} (h : Reaches step Calm {} s) : Answered s :=
  (h.invariant talk_init fun _ _ _ htalk hok hs => htalk.step hok hs).answered

/-- A statement comes and gets its values; then an abort comes that is late. -/
def answeredRun : List Event :=
  [.start, .worker .success, .worker .success, .read (.statement true), .submit, .worker .success,
    .worker .success, .worker .success, .worker .success, .worker .success, .worker .success,
    .worker .success, .worker .success, .worker .success, .worker .success, .worker .success,
    .read .abort, .submit]

theorem answeredRun_answered : ∃ s : Session, Answered s ∧ s.wire = block 0 := by
  obtain ⟨s, hs, hend⟩ := Reaches.of_play step Calm {} answeredRun (fun s => s.wire = block 0)
    (by decide +kernel)
  exact ⟨s, answered_once hs, of_decide_eq_true hend⟩

/-- (1) A ping is taken for a job, and the worker ends. (2) A client that has its values sends the
next statement, and the session ends. (3) A statement is not answered. -/
theorem not_answered :
    (∃ s : Session, Reaches step (fun _ _ => True) {} s ∧ s.received = [⟨.ping, 0⟩] ∧
      s.handed = [⟨.ping, 0⟩] ∧ s.worker = .ended ∧ s.shuttingDown = false) ∧
    (∃ s : Session, Reaches step (fun _ _ => True) {} s ∧
      s.received = [⟨.statement true, 0⟩, ⟨.statement true, 1⟩] ∧ s.wire = block 0 ∧
      s.thread = .leaving) ∧
    ∃ s : Session, Reaches step (fun _ _ => True) {} s ∧ s.received = [⟨.statement true, 0⟩] ∧
      s.thread = .reading ∧ s.worker = .waiting ∧ s.wire = [] := by
  refine ⟨?_, ?_, ?_⟩
  · obtain ⟨s, hs, hend⟩ := Reaches.of_play step (fun _ _ => True) ({} : Session)
      [.start, .worker .success, .worker .success, .read .ping, .submit, .worker .success,
        .worker .success, .worker .success, .worker .success, .worker .success]
      (fun s => s.received = [⟨.ping, 0⟩] ∧ s.handed = [⟨.ping, 0⟩] ∧ s.worker = .ended ∧
        s.shuttingDown = false) (by decide +kernel)
    exact ⟨s, hs, of_decide_eq_true hend⟩
  · obtain ⟨s, hs, hend⟩ := Reaches.of_play step (fun _ _ => True) ({} : Session)
      [.start, .worker .success, .worker .success, .read (.statement true), .submit,
        .worker .success, .worker .success, .worker .success, .worker .success, .worker .success,
        .worker .success, .worker .success, .worker .success, .read (.statement true), .submit]
      (fun s => s.received = [⟨.statement true, 0⟩, ⟨.statement true, 1⟩] ∧ s.wire = block 0 ∧
        s.thread = .leaving) (by decide +kernel)
    exact ⟨s, hs, of_decide_eq_true hend⟩
  · obtain ⟨s, hs, hend⟩ := Reaches.of_play step (fun _ _ => True) ({} : Session)
      [.start, .read (.statement true), .submit, .worker .success, .worker .success]
      (fun s => s.received = [⟨.statement true, 0⟩] ∧ s.thread = .reading ∧ s.worker = .waiting ∧
        s.wire = []) (by decide +kernel)
    exact ⟨s, hs, of_decide_eq_true hend⟩

end Session

end Loxim.Server
