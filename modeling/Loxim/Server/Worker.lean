import Loxim.Lib.Run

/-!
# The thread that reads and the thread that works

The thread of a session reads the packages of the client and leaves a statement in a slot for
the worker. Two condition variables tell the one that the slot has been filled and the other
that it has been emptied. A wait is not guarded by a test of the slot.
-/

namespace Loxim.Server

/-- What `submit` and `process_package` tell apart. -/
inductive Kind
  | ping
  | pong
  | abort
  | bye
  | sendvalues
  | statement (execute : Bool)
  | execute
  | setopt
  | other
deriving DecidableEq

/-- The packages of a session are numbered as they come. -/
structure Package where
  kind : Kind
  number : Nat
deriving DecidableEq

/-- What is written to the client. An error and a block of values answer the package of their
number. -/
inductive Message
  | ping
  | pong
  | bye
  | error (number : Nat)
  | sendvalues (number : Nat)
  | sendvalue (number : Nat)
  | finished (number : Nat)
deriving DecidableEq

/-- Where `process_package` is. `respond` holds the mutex for sending and writes three
packages. -/
inductive Stage
  | begun
  | executing
  | failed
  | executed
  | responding (written : Nat)
deriving DecidableEq

/-- Where `Worker::start_continue` is. It holds the mutex when it is `testing`, `woken`,
`finishing` or `failing`. -/
inductive WorkerState
  | off
  | entering
  | testing
  | waiting
  | signalled
  | woken
  | processing (stage : Stage)
  | returned
  | finishing
  | threw
  | failing
  | ended
deriving DecidableEq

/-- Where the thread of the session is: in `free_state` until it is `leaving`, then in
`Worker::stop`. It is `aborting` while it waits in `cancel_job_locked`. -/
inductive ThreadState
  | starting
  | reading
  | submitting (package : Package)
  | aborting
  | completed
  | leaving
  | stopping
  | cancelled
  | joining
  | stopped
deriving DecidableEq

/-- The packages that were `received`, those that `submit` put into the slot, those that were
`handed` to `process_package`, and the numbers of those an abort came for are only recorded. -/
structure Session where
  worker : WorkerState := .off
  thread : ThreadState := .starting
  curPackage : Option Package := none
  aborting : Bool := false
  shuttingDown : Bool := false
  wire : List Message := []
  received : List Package := []
  accepted : List Package := []
  handed : List Package := []
  aborted : List Nat := []
deriving DecidableEq

/-- What comes of the statement that is executed, or of a package that is written. -/
inductive Outcome
  | success
  | error
  | throws
deriving DecidableEq

inductive Event
  | start
  | read (kind : Kind)
  | submit
  | resume
  | leave (bye : Bool)
  | stop
  | cancel
  | signal
  | join
  | worker (outcome : Outcome)
  | keepAlive
deriving DecidableEq

namespace Session

def mutexFree (s : Session) : Bool :=
  match s.worker with
  | .testing | .woken | .finishing | .failing => false
  | _ => true

def sendMutexFree (s : Session) : Bool :=
  match s.worker with
  | .processing (.responding _) => false
  | _ => true

/-- `idle_cond.signal()`, which does nothing when nobody waits. -/
def signalIdle (s : Session) : Session :=
  if s.worker = .waiting then { s with worker := .signalled } else s

/-- `completion_cond.signal()` -/
def signalCompletion (s : Session) : Session :=
  if s.thread = .aborting then { s with thread := .completed } else s

/-- A regular package goes into the slot. -/
def accept (s : Session) (p : Package) : Session :=
  signalIdle { s with curPackage := some p, accepted := s.accepted ++ [p] }

def sendPong (s : Session) : Session := { s with wire := s.wire ++ [.pong] }

/-- `Worker::submit`, which holds the mutex. After a pong the tests go on. A package that comes
while another one is worked on is a protocol error, which ends the session. -/
def submit (s : Session) (p : Package) : Session :=
  let s := { s with aborting := false, thread := .reading }
  let s := if p.kind = .ping then s.sendPong else s
  if p.kind = .pong then s
  else if p.kind = .abort then
    match s.curPackage with
    | some q => { s with aborting := true, thread := .aborting, aborted := s.aborted ++ [q.number] }
    | none => s
  else if s.curPackage.isSome then { s with thread := .leaving }
  else if p.kind = .bye then s
  else s.accept p

/-- One step of `process_package`. -/
def process (s : Session) (p : Package) (stage : Stage) (outcome : Outcome) : Option Session :=
  match stage with
  | .begun =>
    match p.kind with
    | .sendvalues | .statement false | .setopt | .execute => some { s with worker := .returned }
    | .statement true => some { s with worker := .processing .executing }
    | _ => some { s with worker := .threw }
  | .executing =>
    match outcome with
    | .success => some { s with worker := .processing .executed }
    | .error =>
      if s.aborting then some { s with worker := .returned }
      else some { s with worker := .processing .failed }
    | .throws => some { s with worker := .threw }
  | .failed =>
    if outcome = .success then
      some { s with worker := .returned, wire := s.wire ++ [.error p.number] }
    else some { s with worker := .threw }
  | .executed => some { s with worker := .processing (.responding 0) }
  | .responding 0 =>
    if outcome = .success then
      some { s with
        worker := .processing (.responding 1), wire := s.wire ++ [.sendvalues p.number] }
    else some { s with worker := .threw }
  | .responding 1 =>
    if outcome = .success then
      some { s with
        worker := .processing (.responding 2), wire := s.wire ++ [.sendvalue p.number] }
    else some { s with worker := .threw }
  | .responding 2 =>
    if outcome = .success then
      some { s with worker := .returned, wire := s.wire ++ [.finished p.number] }
    else some { s with worker := .threw }
  | .responding _ => none

/-- After `process_package`: the slot is emptied, and the tests follow. -/
def finish (s : Session) : Session :=
  let s := signalCompletion { s with curPackage := none }
  if s.shuttingDown then { s with worker := .ended } else { s with worker := .testing }

/-- One step of `Worker::start_continue`. An exception of `process_package` ends it with the slot
still full and without a signal. -/
def workerStep (s : Session) (outcome : Outcome) : Option Session :=
  match s.worker with
  | .off | .waiting | .ended => none
  | .entering => some { s with worker := .testing }
  | .testing =>
    if s.shuttingDown then some { s with worker := .ended } else some { s with worker := .waiting }
  | .signalled => some { s with worker := .woken }
  | .woken =>
    if s.shuttingDown then some (signalCompletion { s with worker := .ended })
    else some { s with worker := .processing .begun, handed := s.handed ++ s.curPackage.toList }
  | .processing stage =>
    match s.curPackage with
    | some p => s.process p stage outcome
    | none => none
  | .returned => some { s with worker := .finishing }
  | .finishing => some s.finish
  | .threw => some { s with worker := .failing }
  | .failing => some { s with worker := .ended }

def step (s : Session) : Event → Option Session
  | .start =>
    if s.thread = .starting then some { s with worker := .entering, thread := .reading } else none
  | .read kind =>
    let p : Package := ⟨kind, s.received.length⟩
    if s.thread = .reading then
      some { s with thread := .submitting p, received := s.received ++ [p] }
    else none
  | .submit =>
    match s.thread with
    | .submitting p =>
      if s.mutexFree ∧ (p.kind = .ping → s.sendMutexFree) then some (s.submit p) else none
    | _ => none
  | .resume =>
    if s.thread = .completed ∧ s.mutexFree then
      some { s with curPackage := none, thread := .reading }
    else none
  | .leave bye =>
    if s.thread = .reading ∧ s.sendMutexFree then
      some { s with thread := .leaving, wire := if bye then s.wire ++ [.bye] else s.wire }
    else none
  | .stop =>
    if s.thread = .leaving then some { s with shuttingDown := true, thread := .stopping } else none
  | .cancel =>
    if s.thread = .stopping ∧ s.mutexFree then some { s with thread := .cancelled } else none
  | .signal =>
    if s.thread = .cancelled ∧ s.mutexFree then some (signalIdle { s with thread := .joining })
    else none
  | .join =>
    if s.thread = .joining ∧ s.worker = .ended then some { s with thread := .stopped } else none
  | .worker outcome => s.workerStep outcome
  | .keepAlive => if s.sendMutexFree then some { s with wire := s.wire ++ [.ping] } else none

-- ---------------------------------------------------------------------------
-- The order of the steps
-- ---------------------------------------------------------------------------

end Session

/-- What `process_package` does not throw at. -/
def Kind.handled : Kind → Bool
  | .sendvalues | .statement _ | .setopt | .execute => true
  | _ => false

/-- What `submit` puts into the slot. -/
def Kind.regular : Kind → Bool
  | .pong | .abort | .bye => false
  | _ => true

/-- How far it is at most to the end of `process_package`. -/
def Stage.left : Stage → Nat
  | .begun => 6
  | .executing => 5
  | .failed => 1
  | .executed => 4
  | .responding written => 3 - written

def WorkerState.left : WorkerState → Nat
  | .signalled => 11
  | .woken => 10
  | .processing stage => stage.left + 2
  | .returned => 2
  | _ => 1

/-- The worker ends, or has ended, because of an exception. -/
def WorkerState.broken : WorkerState → Bool
  | .threw | .failing | .ended => true
  | _ => false

/-- In `Worker::stop`, with `shutting_down` set. -/
def ThreadState.inStop : ThreadState → Bool
  | .stopping | .cancelled | .joining | .stopped => true
  | _ => false

/-- The package that `submit` is called with. -/
def ThreadState.package : ThreadState → Option Package
  | .submitting p => some p
  | _ => none

/-- The worker has been told of a package and has not taken it. -/
def WorkerState.called : WorkerState → Bool
  | .signalled | .woken => true
  | _ => false

namespace Session

/-- `process_package` throws in its next step. -/
def throws (s : Session) (outcome : Outcome) : Bool :=
  match s.worker with
  | .processing .begun => s.curPackage.any fun p => !p.kind.handled
  | .processing .executing => outcome = .throws
  | .processing .failed | .processing (.responding _) => outcome ≠ .success
  | _ => false

/-- A package comes after the worker has begun to wait. An abort does not come after, or wait
for, a package at which `process_package` throws. The session does not stop while the worker has
a package still to take. -/
def Orderly (s : Session) : Event → Prop
  | .submit => ∀ p ∈ s.thread.package,
    (p.kind.regular = true → s.curPackage = none → s.worker ≠ .entering) ∧
      (p.kind = .abort → ∀ q ∈ s.curPackage, q.kind.handled = true ∧ s.worker.broken = false)
  | .stop => s.worker.called = false
  | .worker outcome => s.thread = .aborting → s.throws outcome = false
  | _ => True

/-- The worker comes to `P`, whatever of what is `ok` it finds on its way, when it goes on by
itself. -/
inductive Comes (ok : Session → Event → Prop) (P : Session → Prop) : Session → Prop
  | now (s : Session) (h : P s) : Comes ok P s
  | later (s : Session) (hsome : ∃ o s', ok s (.worker o) ∧ s.workerStep o = some s')
    (h : ∀ o s', ok s (.worker o) → s.workerStep o = some s' → Comes ok P s') : Comes ok P s

/-- No package is handed over twice, and one that has not been handed over is what the worker
takes next. The worker does not wait while there is one; an abort waits for a signal that comes;
the worker has ended when `stop` returns. -/
structure HandedOver (s : Session) : Prop where
  once : s.handed.Nodup
  all : s.accepted = s.handed ∨
    (∃ p, s.accepted = s.handed ++ [p]) ∧ Comes Orderly (fun s' => s'.handed = s.accepted) s
  idle : s.worker = .waiting → s.shuttingDown = false → s.curPackage = none
  abort : s.thread = .aborting → Comes Orderly (fun s' => s'.thread = .completed) s
  stopped : s.thread = .stopped → s.worker = .ended

-- ---------------------------------------------------------------------------
-- What holds in every state
-- ---------------------------------------------------------------------------

/-- What is in the slot, by where the worker is. -/
def Slot (s : Session) : Prop :=
  match s.worker with
  | .off | .entering | .testing | .waiting => s.curPackage = none ∧ s.accepted = s.handed
  | .signalled | .woken =>
    (s.shuttingDown = true ∧ s.curPackage = none ∧ s.accepted = s.handed) ∨
      (s.shuttingDown = false ∧ ∃ p, s.curPackage = some p ∧ s.accepted = s.handed ++ [p])
  | .processing stage => 0 < stage.left ∧ s.curPackage.isSome ∧ s.accepted = s.handed
  | .returned | .finishing | .threw | .failing => s.curPackage.isSome ∧ s.accepted = s.handed
  | .ended => (s.shuttingDown = false → s.curPackage.isSome) ∧ s.accepted = s.handed

structure Inv (s : Session) : Prop where
  slot : s.Slot
  abort : s.thread = .aborting →
    (∃ q, s.curPackage = some q ∧ q.kind.handled = true) ∧ s.worker.broken = false
  completed : s.thread = .completed → s.curPackage = none
  stopping : s.shuttingDown = s.thread.inStop
  stopped : s.thread = .stopped → s.worker = .ended
  starting : s.thread = .starting ↔ s.worker = .off
  last : ∀ p, s.curPackage = some p → s.accepted.getLast? = some p
  numbers : s.accepted.Pairwise fun p q => p.number < q.number
  bound : ∀ p ∈ s.accepted, p.number < s.received.length
  next : ∀ p, s.thread = .submitting p → p.number < s.received.length ∧
    ∀ q ∈ s.accepted, q.number < p.number

theorem inv_init : Inv {} where
  slot := ⟨rfl, rfl⟩
  abort := by rintro ⟨⟩
  completed := by rintro ⟨⟩
  stopping := rfl
  stopped := by rintro ⟨⟩
  starting := ⟨fun _ => rfl, fun _ => rfl⟩
  last := by rintro p ⟨⟩
  numbers := .nil
  bound := by rintro p ⟨⟩
  next := by rintro p ⟨⟩

variable {s s' : Session}

/-- A step of `process_package` moves the worker and writes. -/
theorem process_cases {p : Package} {stage : Stage} {o : Outcome} (hw : s.worker = .processing stage)
    (hp : s.curPackage = some p) (h : s.process p stage o = some s') :
    ∃ w wire, s' = { s with worker := w, wire := wire } ∧
      (w = .returned ∨ (∃ stage', w = .processing stage' ∧ 0 < stage'.left ∧ stage'.left < stage.left) ∨
        w = .threw ∧ s.throws o = true) := by
  have hwrite {w : WorkerState} {wire : List Message}
      (hgoes : w = .returned ∨ ∃ stage', w = .processing stage' ∧ 0 < stage'.left ∧
        stage'.left < stage.left)
      (hthrows : o ≠ .success → s.throws o = true)
      (h : (if o = .success then some { s with worker := w, wire := wire }
        else some { s with worker := .threw }) = some s') :
      ∃ w wire, s' = { s with worker := w, wire := wire } ∧
        (w = .returned ∨ (∃ stage', w = .processing stage' ∧ 0 < stage'.left ∧ stage'.left < stage.left) ∨
          w = .threw ∧ s.throws o = true) := by
    split at h
    · cases h
      exact ⟨w, wire, rfl, hgoes.imp_right .inl⟩
    · rename_i hfails
      cases h
      exact ⟨_, _, rfl, .inr (.inr ⟨rfl, hthrows hfails⟩)⟩
  have hstage (n : Nat) (hn : stage = .responding n ∨ stage = .failed) (hfails : o ≠ .success) :
      s.throws o = true := by
    unfold throws
    rw [hw]
    rcases hn with rfl | rfl
    · simpa using hfails
    · simpa using hfails
  cases stage with
  | begun =>
    unfold process at h
    have hkind : p.kind.handled = false → s.throws o = true := by
      intro hk
      unfold throws
      rw [hw, hp]
      simp [hk]
    cases hk : p.kind with
    | statement execute =>
      rw [hk] at h
      cases execute with
      | false =>
        cases h
        exact ⟨_, _, rfl, .inl rfl⟩
      | true =>
        cases h
        exact ⟨_, _, rfl, .inr (.inl ⟨_, rfl, by decide, by decide⟩)⟩
    | sendvalues | setopt | execute =>
      rw [hk] at h
      cases h
      exact ⟨_, _, rfl, .inl rfl⟩
    | ping | pong | abort | bye | other =>
      rw [hk] at h hkind
      cases h
      exact ⟨_, _, rfl, .inr (.inr ⟨rfl, hkind rfl⟩)⟩
  | executing =>
    unfold process at h
    cases o with
    | success =>
      cases h
      exact ⟨_, _, rfl, .inr (.inl ⟨_, rfl, by decide, by decide⟩)⟩
    | error =>
      dsimp only at h
      split at h
      · cases h
        exact ⟨_, _, rfl, .inl rfl⟩
      · cases h
        exact ⟨_, _, rfl, .inr (.inl ⟨_, rfl, by decide, by decide⟩)⟩
    | throws =>
      cases h
      refine ⟨_, _, rfl, .inr (.inr ⟨rfl, ?_⟩)⟩
      unfold throws
      rw [hw]
      rfl
  | failed => exact hwrite (.inl rfl) (hstage 0 (.inr rfl)) h
  | executed =>
    cases h
    exact ⟨_, _, rfl, .inr (.inl ⟨_, rfl, by decide, by decide⟩)⟩
  | responding n =>
    rcases n with _ | _ | _ | n
    · exact hwrite (.inr ⟨_, rfl, by decide, by decide⟩) (hstage 0 (.inl rfl)) h
    · exact hwrite (.inr ⟨_, rfl, by decide, by decide⟩) (hstage 1 (.inl rfl)) h
    · exact hwrite (.inl rfl) (hstage 2 (.inl rfl)) h
    · cases h

/-- The steps of the worker. -/
inductive Moves (s : Session) (o : Outcome) : Session → Prop
  | enter (hw : s.worker = .entering) : Moves s o { s with worker := .testing }
  | quit (hw : s.worker = .testing) (hd : s.shuttingDown = true) :
    Moves s o { s with worker := .ended }
  | wait (hw : s.worker = .testing) (hd : s.shuttingDown = false) :
    Moves s o { s with worker := .waiting }
  | wake (hw : s.worker = .signalled) : Moves s o { s with worker := .woken }
  | release (hw : s.worker = .woken) (hd : s.shuttingDown = true) :
    Moves s o (signalCompletion { s with worker := .ended })
  | take (hw : s.worker = .woken) (hd : s.shuttingDown = false) :
    Moves s o { s with
      worker := .processing .begun, handed := s.handed ++ s.curPackage.toList }
  | process (p : Package) (stage : Stage) (s' : Session) (hw : s.worker = .processing stage)
    (hp : s.curPackage = some p) (h : s.process p stage o = some s') : Moves s o s'
  | lock (hw : s.worker = .returned) : Moves s o { s with worker := .finishing }
  | quitAfter (hw : s.worker = .finishing) (hd : s.shuttingDown = true) :
    Moves s o (signalCompletion { s with curPackage := none, worker := .ended })
  | again (hw : s.worker = .finishing) (hd : s.shuttingDown = false) :
    Moves s o (signalCompletion { s with curPackage := none, worker := .testing })
  | fail (hw : s.worker = .threw) : Moves s o { s with worker := .failing }
  | close (hw : s.worker = .failing) : Moves s o { s with worker := .ended }

theorem moves_of_step {o : Outcome} (h : s.workerStep o = some s') : Moves s o s' := by
  unfold workerStep at h
  cases hw : s.worker with
  | off | waiting | ended =>
    rw [hw] at h
    cases h
  | entering =>
    rw [hw] at h
    cases h
    exact .enter hw
  | testing =>
    rw [hw] at h
    dsimp only at h
    split at h
    · rename_i hd
      cases h
      exact .quit hw hd
    · rename_i hd
      cases h
      exact .wait hw (Bool.eq_false_iff.mpr hd)
  | signalled =>
    rw [hw] at h
    cases h
    exact .wake hw
  | woken =>
    rw [hw] at h
    dsimp only at h
    split at h
    · rename_i hd
      cases h
      exact .release hw hd
    · rename_i hd
      cases h
      exact .take hw (Bool.eq_false_iff.mpr hd)
  | processing stage =>
    rw [hw] at h
    cases hp : s.curPackage with
    | none =>
      rw [hp] at h
      cases h
    | some p =>
      rw [hp] at h
      exact .process p stage s' hw hp h
  | returned =>
    rw [hw] at h
    cases h
    exact .lock hw
  | finishing =>
    rw [hw] at h
    cases h
    cases hd : s.shuttingDown with
    | true =>
      have hfinish : s.finish = signalCompletion { s with curPackage := none, worker := .ended } := by
        unfold finish signalCompletion
        split <;> simp [hd]
      exact hfinish ▸ .quitAfter hw hd
    | false =>
      have hfinish : s.finish = signalCompletion { s with curPackage := none, worker := .testing } := by
        unfold finish signalCompletion
        split <;> simp [hd]
      exact hfinish ▸ .again hw hd
  | threw =>
    rw [hw] at h
    cases h
    exact .fail hw
  | failing =>
    rw [hw] at h
    cases h
    exact .close hw

/-- Only the worker has moved, and what it wrote or took. -/
theorem Inv.move (h : Inv s) {w : WorkerState} {wire : List Message} {handed : List Package}
    (hslot : Slot { s with worker := w, wire := wire, handed := handed })
    (habort : s.thread = .aborting → w.broken = false) (hoff : s.worker ≠ .off ∧ w ≠ .off)
    (hended : s.worker ≠ .ended) : Inv { s with worker := w, wire := wire, handed := handed } where
  slot := hslot
  abort hthread := ⟨(h.abort hthread).1, habort hthread⟩
  completed := h.completed
  stopping := h.stopping
  stopped hthread := absurd (h.stopped hthread) hended
  starting := by
    constructor
    · intro hthread
      exact absurd (h.starting.mp hthread) hoff.1
    · intro hw
      exact absurd hw hoff.2
  last := h.last
  numbers := h.numbers
  bound := h.bound
  next := h.next

/-- The slot has been emptied, and the abort that waits for it is told. -/
theorem Inv.finish (h : Inv s) (hw : s.worker = .finishing) {w : WorkerState}
    (hslot : Slot { s with curPackage := none, worker := w }) (hoff : w ≠ .off) :
    Inv (signalCompletion { s with curPackage := none, worker := w }) := by
  unfold signalCompletion
  have hstart : s.thread ≠ .starting := by
    intro hthread
    rw [h.starting.mp hthread] at hw
    cases hw
  split
  · rename_i hthread
    have hthread : s.thread = .aborting := hthread
    constructor
    · exact hslot
    · rintro ⟨⟩
    · exact fun _ => rfl
    · show s.shuttingDown = ThreadState.inStop .completed
      rw [h.stopping, hthread]
      rfl
    · rintro ⟨⟩
    · constructor
      · rintro ⟨⟩
      · exact fun hw' => absurd hw' hoff
    · rintro p ⟨⟩
    · exact h.numbers
    · exact h.bound
    · rintro p ⟨⟩
  · rename_i hthread
    have hthread : s.thread ≠ .aborting := hthread
    constructor
    · exact hslot
    · exact fun hab => absurd hab hthread
    · exact fun _ => rfl
    · exact h.stopping
    · intro hstop
      rw [h.stopped hstop] at hw
      cases hw
    · constructor
      · exact fun hs => absurd hs hstart
      · exact fun hw' => absurd hw' hoff
    · rintro p ⟨⟩
    · exact h.numbers
    · exact h.bound
    · exact h.next

theorem Inv.moves (h : Inv s) {o : Outcome} (hok : s.Orderly (.worker o)) (hm : Moves s o s') :
    Inv s' := by
  have hslot := h.slot
  unfold Slot at hslot
  cases hm with
  | enter hw =>
    rw [hw] at hslot
    exact h.move hslot (fun _ => rfl) (by simp [hw]) (by simp [hw])
  | quit hw hd =>
    rw [hw] at hslot
    have hthread : s.thread ≠ .aborting := by
      intro hthread
      rw [h.stopping, hthread] at hd
      cases hd
    have hslot' : Slot { s with worker := .ended } := ⟨fun hd' => absurd (hd.symm.trans hd') (by decide), hslot.2⟩
    exact h.move hslot' (fun hab => absurd hab hthread) (by simp [hw]) (by simp [hw])
  | wait hw hd =>
    rw [hw] at hslot
    exact h.move hslot (fun _ => rfl) (by simp [hw]) (by simp [hw])
  | wake hw =>
    rw [hw] at hslot
    exact h.move hslot (fun _ => rfl) (by simp [hw]) (by simp [hw])
  | release hw hd =>
    rw [hw] at hslot
    have hthread : s.thread ≠ .aborting := by
      intro hthread
      rw [h.stopping, hthread] at hd
      cases hd
    have hsame : signalCompletion { s with worker := .ended } = { s with worker := .ended } :=
      if_neg hthread
    rw [hsame]
    rcases hslot with ⟨-, -, hall⟩ | ⟨hd', -⟩
    · have hslot' : Slot { s with worker := .ended } :=
        ⟨fun hd' => absurd (hd.symm.trans hd') (by decide), hall⟩
      exact h.move hslot' (fun hab => absurd hab hthread) (by simp [hw]) (by simp [hw])
    · rw [hd] at hd'
      cases hd'
  | take hw hd =>
    rw [hw] at hslot
    rcases hslot with ⟨hd', -⟩ | ⟨-, p, hp, hall⟩
    · rw [hd] at hd'
      cases hd'
    · have hslot' : Slot { s with
          worker := .processing .begun, handed := s.handed ++ s.curPackage.toList } := by
        refine ⟨by decide, by rw [hp]; rfl, ?_⟩
        show s.accepted = s.handed ++ s.curPackage.toList
        rw [hall, hp]
        rfl
      exact h.move hslot' (fun _ => rfl) (by simp [hw]) (by simp [hw])
  | process p stage _ hw hp hstep =>
    rw [hw] at hslot
    obtain ⟨w, wire, rfl, hgoes⟩ := process_cases hw hp hstep
    have hslot' : Slot { s with worker := w, wire := wire } := by
      rcases hgoes with rfl | ⟨stage', rfl, hpos, -⟩ | ⟨rfl, -⟩
      · exact hslot.2
      · exact ⟨hpos, hslot.2⟩
      · exact hslot.2
    apply h.move hslot'
    · intro hab
      rcases hgoes with rfl | ⟨stage', rfl, -⟩ | ⟨rfl, hthrows⟩
      · rfl
      · rfl
      · rw [hok hab] at hthrows
        cases hthrows
    · rcases hgoes with rfl | ⟨stage', rfl, -⟩ | ⟨rfl, -⟩ <;> simp [hw]
    · simp [hw]
  | lock hw =>
    rw [hw] at hslot
    exact h.move hslot (fun _ => rfl) (by simp [hw]) (by simp [hw])
  | quitAfter hw hd =>
    rw [hw] at hslot
    exact h.finish hw ⟨fun hd' => absurd (hd.symm.trans hd') (by decide), hslot.2⟩ (by simp)
  | again hw hd =>
    rw [hw] at hslot
    exact h.finish hw ⟨rfl, hslot.2⟩ (by simp)
  | fail hw =>
    rw [hw] at hslot
    have hthread : s.thread ≠ .aborting := by
      intro hab
      have hbroken := (h.abort hab).2
      rw [hw] at hbroken
      cases hbroken
    exact h.move hslot (fun hab => absurd hab hthread) (by simp [hw]) (by simp [hw])
  | close hw =>
    rw [hw] at hslot
    have hthread : s.thread ≠ .aborting := by
      intro hab
      have hbroken := (h.abort hab).2
      rw [hw] at hbroken
      cases hbroken
    exact h.move ⟨fun _ => hslot.1, hslot.2⟩ (fun hab => absurd hab hthread) (by simp [hw])
      (by simp [hw])

/-- What is on the wire after the first test of `submit`. -/
def ponged (s : Session) (p : Package) : List Message :=
  if p.kind = .ping then s.wire ++ [.pong] else s.wire

/-- The ways through `submit`. -/
inductive Submits (s : Session) (p : Package) : Session → Prop
  | ignored (h : p.kind = .pong ∨ s.curPackage = none ∧ (p.kind = .abort ∨ p.kind = .bye)) :
    Submits s p { s with aborting := false, thread := .reading }
  | aborts (q : Package) (hk : p.kind = .abort) (hq : s.curPackage = some q) :
    Submits s p { s with
      aborting := true, thread := .aborting, aborted := s.aborted ++ [q.number] }
  | refused (hk : p.kind ≠ .pong ∧ p.kind ≠ .abort) (hq : s.curPackage.isSome) :
    Submits s p { s with aborting := false, thread := .leaving, wire := s.ponged p }
  | accepts (hk : p.kind.regular = true) (hq : s.curPackage = none) :
    Submits s p (signalIdle { s with
      aborting := false, thread := .reading, wire := s.ponged p, curPackage := some p,
      accepted := s.accepted ++ [p] })

theorem submits_submit (s : Session) (p : Package) : Submits s p (s.submit p) := by
  have hping : (if p.kind = .ping then sendPong { s with aborting := false, thread := .reading }
      else { s with aborting := false, thread := .reading }) =
      { s with aborting := false, thread := .reading, wire := s.ponged p } := by
    unfold ponged sendPong
    split <;> rfl
  unfold submit
  dsimp only
  rw [hping]
  by_cases hpong : p.kind = .pong
  · rw [if_pos hpong]
    have hwire : s.ponged p = s.wire := by simp [ponged, hpong]
    exact hwire.symm ▸ .ignored (.inl hpong)
  · rw [if_neg hpong]
    by_cases habort : p.kind = .abort
    · rw [if_pos habort]
      have hwire : s.ponged p = s.wire := by simp [ponged, habort]
      rw [hwire]
      obtain ⟨_, _, slot, _, _, _, _, _, _, _⟩ := s
      cases slot with
      | none => exact .ignored (.inr ⟨rfl, .inl habort⟩)
      | some q => exact .aborts q habort rfl
    · rw [if_neg habort]
      by_cases hslot : s.curPackage.isSome
      · rw [if_pos hslot]
        exact .refused ⟨hpong, habort⟩ hslot
      · have hq : s.curPackage = none := by simpa using hslot
        rw [if_neg hslot]
        by_cases hbye : p.kind = .bye
        · have hwire : s.ponged p = s.wire := by simp [ponged, hbye]
          rw [hwire, if_pos hbye]
          exact .ignored (.inr ⟨hq, .inr hbye⟩)
        · have hregular : p.kind.regular = true := by
            cases hk : p.kind with
            | pong => exact absurd hk hpong
            | abort => exact absurd hk habort
            | bye => exact absurd hk hbye
            | ping | sendvalues | statement | execute | setopt | other => rfl
          rw [if_neg hbye]
          exact .accepts hregular hq

/-- The thread of the session has moved, and nothing the worker looks at. -/
theorem Inv.turn (h : Inv s) {t : ThreadState} {aborting : Bool} {wire : List Message}
    {aborted : List Nat} (hstart : s.thread ≠ .starting ∧ t ≠ .starting)
    (habort : t = .aborting →
      (∃ q, s.curPackage = some q ∧ q.kind.handled = true) ∧ s.worker.broken = false)
    (hcompleted : t ≠ .completed)
    (hstopping : t.inStop = s.thread.inStop)
    (hstopped : t = .stopped → s.worker = .ended) (hnext : ∀ p, t ≠ .submitting p) :
    Inv { s with thread := t, aborting := aborting, wire := wire, aborted := aborted } where
  slot := h.slot
  abort := habort
  completed ht := absurd ht hcompleted
  stopping := h.stopping.trans hstopping.symm
  stopped := hstopped
  starting := by
    constructor
    · exact fun ht => absurd ht hstart.2
    · exact fun hw => absurd (h.starting.mpr hw) hstart.1
  last := h.last
  numbers := h.numbers
  bound := h.bound
  next p ht := absurd ht (hnext p)

theorem Inv.submits (h : Inv s) {p : Package} (ht : s.thread = .submitting p)
    (hmutex : s.mutexFree = true) (hok : s.Orderly .submit) (hs : Submits s p s') : Inv s' := by
  obtain ⟨hwaits, habort⟩ := hok p (by rw [ht]; rfl)
  have hopen : s.shuttingDown = false := by rw [h.stopping, ht]; rfl
  cases hs with
  | ignored hk => exact h.turn (by simp [ht]) (by simp) (by simp) (by rw [ht]; rfl) (by simp) (by simp)
  | refused hk hq => exact h.turn (by simp [ht]) (by simp) (by simp) (by rw [ht]; rfl) (by simp) (by simp)
  | aborts q hk hq =>
    obtain ⟨hhandled, hbroken⟩ := habort hk q hq
    exact h.turn (by simp [ht]) (fun _ => ⟨⟨q, hq, hhandled⟩, hbroken⟩) (by simp)
      (by rw [ht]; rfl) (by simp) (by simp)
  | accepts hk hq =>
    have hslot := h.slot
    unfold Slot at hslot
    -- with the slot empty and the mutex free the worker waits
    have hw : s.worker = .waiting := by
      cases hw : s.worker with
      | waiting => rfl
      | off =>
        rw [h.starting.mpr hw] at ht
        cases ht
      | entering => exact absurd hw (hwaits hk hq)
      | testing | woken | finishing | failing => simp [mutexFree, hw] at hmutex
      | signalled =>
        rw [hw] at hslot
        rcases hslot with ⟨hd, -⟩ | ⟨-, q, hq', -⟩
        · rw [hopen] at hd
          cases hd
        · rw [hq] at hq'
          cases hq'
      | processing | returned | threw =>
        rw [hw] at hslot
        simp [hq] at hslot
      | ended =>
        rw [hw] at hslot
        have hsome := hslot.1 hopen
        simp [hq] at hsome
    rw [hw] at hslot
    obtain ⟨hnumber, hnext⟩ := h.next p ht
    have hidle : signalIdle { s with
        aborting := false, thread := .reading, wire := s.ponged p, curPackage := some p,
        accepted := s.accepted ++ [p] } = { s with
        aborting := false, thread := .reading, wire := s.ponged p, curPackage := some p,
        accepted := s.accepted ++ [p], worker := .signalled } := if_pos hw
    rw [hidle]
    constructor
    · exact .inr ⟨hopen, p, rfl, congrArg (· ++ [p]) hslot.2⟩
    · rintro ⟨⟩
    · rintro ⟨⟩
    · exact hopen
    · rintro ⟨⟩
    · constructor
      · rintro ⟨⟩
      · rintro ⟨⟩
    · rintro q ⟨⟩
      exact List.getLast?_concat
    · apply List.pairwise_append.mpr
      refine ⟨h.numbers, List.pairwise_singleton _ p, ?_⟩
      intro q hq r hr
      obtain rfl := List.mem_singleton.mp hr
      exact hnext q hq
    · intro q hq
      rcases List.mem_append.mp hq with hq | hq
      · exact h.bound q hq
      · exact List.mem_singleton.mp hq ▸ hnumber
    · rintro q ⟨⟩

theorem Inv.step (h : Inv s) {e : Event} (hok : s.Orderly e) (hs : s.step e = some s') :
    Inv s' := by
  cases e with
  | start =>
    obtain ⟨ht, hs⟩ := Option.ite_none_right_eq_some.mp hs
    cases hs
    have hw := h.starting.mp ht
    have hstop := h.stopping
    have hslot := h.slot
    unfold Slot at hslot
    rw [hw] at hslot
    constructor
    · exact hslot
    · rintro ⟨⟩
    · rintro ⟨⟩
    · rw [ht] at hstop
      exact hstop
    · rintro ⟨⟩
    · constructor
      · rintro ⟨⟩
      · rintro ⟨⟩
    · exact h.last
    · exact h.numbers
    · exact h.bound
    · rintro p ⟨⟩
  | read kind =>
    obtain ⟨ht, hs⟩ := Option.ite_none_right_eq_some.mp hs
    cases hs
    have hstop := h.stopping
    rw [ht] at hstop
    constructor
    · exact h.slot
    · rintro ⟨⟩
    · rintro ⟨⟩
    · exact hstop
    · rintro ⟨⟩
    · constructor
      · rintro ⟨⟩
      · intro hw
        rw [h.starting.mpr hw] at ht
        cases ht
    · exact h.last
    · exact h.numbers
    · intro p hp
      rw [List.length_append]
      exact Nat.lt_add_right 1 (h.bound p hp)
    · rintro p ⟨⟩
      rw [List.length_append]
      exact ⟨Nat.lt_succ_self _, fun q hq => h.bound q hq⟩
  | submit =>
    unfold Session.step at hs
    cases ht : s.thread with
    | submitting p =>
      rw [ht] at hs
      obtain ⟨⟨hmutex, -⟩, hs⟩ := Option.ite_none_right_eq_some.mp hs
      cases hs
      exact h.submits ht hmutex hok (submits_submit s p)
    | starting | reading | aborting | completed | leaving | stopping | cancelled | joining
      | stopped =>
      rw [ht] at hs
      cases hs
  | resume =>
    obtain ⟨⟨ht, -⟩, hs⟩ := Option.ite_none_right_eq_some.mp hs
    cases hs
    have hempty : { s with curPackage := none, thread := .reading } =
        { s with thread := .reading } := by
      rw [← h.completed ht]
    rw [hempty]
    exact h.turn (by simp [ht]) (by simp) (by simp) (by rw [ht]; rfl) (by simp) (by simp)
  | leave bye =>
    obtain ⟨⟨ht, -⟩, hs⟩ := Option.ite_none_right_eq_some.mp hs
    cases hs
    exact h.turn (by simp [ht]) (by simp) (by simp) (by rw [ht]; rfl) (by simp) (by simp)
  | stop =>
    obtain ⟨ht, hs⟩ := Option.ite_none_right_eq_some.mp hs
    cases hs
    have hslot := h.slot
    unfold Slot at hslot
    constructor
    · unfold Slot
      cases hw : s.worker with
      | signalled | woken => simp [Orderly, hw, WorkerState.called] at hok
      | ended =>
        rw [hw] at hslot
        exact ⟨fun hd => absurd hd (by simp), hslot.2⟩
      | off | entering | testing | waiting | processing | returned | finishing | threw | failing =>
        rw [hw] at hslot
        exact hslot
    · rintro ⟨⟩
    · rintro ⟨⟩
    · rfl
    · rintro ⟨⟩
    · constructor
      · rintro ⟨⟩
      · intro hw
        rw [h.starting.mpr hw] at ht
        cases ht
    · exact h.last
    · exact h.numbers
    · exact h.bound
    · rintro p ⟨⟩
  | cancel =>
    obtain ⟨⟨ht, -⟩, hs⟩ := Option.ite_none_right_eq_some.mp hs
    cases hs
    exact h.turn (by simp [ht]) (by simp) (by simp) (by rw [ht]; rfl) (by simp) (by simp)
  | signal =>
    obtain ⟨⟨ht, -⟩, hs⟩ := Option.ite_none_right_eq_some.mp hs
    cases hs
    have hturn : Inv { s with thread := .joining } :=
      h.turn (by simp [ht]) (by simp) (by simp) (by rw [ht]; rfl) (by simp) (by simp)
    have hd : s.shuttingDown = true := by rw [h.stopping, ht]; rfl
    unfold signalIdle
    split
    · rename_i hw
      have hw : s.worker = .waiting := hw
      have hslot := h.slot
      unfold Slot at hslot
      rw [hw] at hslot
      have hcalled : Slot { s with thread := .joining, worker := .signalled } :=
        .inl ⟨hd, hslot⟩
      exact hturn.move hcalled (fun _ => rfl) (by simp [hw]) (by simp [hw])
    · exact hturn
  | join =>
    obtain ⟨⟨ht, hw⟩, hs⟩ := Option.ite_none_right_eq_some.mp hs
    cases hs
    exact h.turn (by simp [ht]) (by simp) (by simp) (by rw [ht]; rfl) (fun _ => hw) (by simp)
  | worker o => exact h.moves hok (moves_of_step hs)
  | keepAlive =>
    obtain ⟨-, hs⟩ := Option.ite_none_right_eq_some.mp hs
    cases hs
    exact ⟨h.slot, h.abort, h.completed, h.stopping, h.stopped, h.starting, h.last, h.numbers,
      h.bound, h.next⟩

-- ---------------------------------------------------------------------------
-- The worker goes on by itself
-- ---------------------------------------------------------------------------

/-- With a package in the slot each step of the worker brings it nearer to the signal. -/
theorem Inv.nearer (h : Inv s) {p : Package} (hp : s.curPackage = some p)
    (hbroken : s.worker.broken = false) {o : Outcome} (hok : s.throws o = false)
    (hm : Moves s o s') :
    s'.curPackage = none ∧ (s.thread = .aborting → s'.thread = .completed) ∨
      s'.curPackage = some p ∧ s'.thread = s.thread ∧ s'.worker.broken = false ∧
        s'.worker.left < s.worker.left := by
  have hslot := h.slot
  unfold Slot at hslot
  have hfull {P : Prop} (hnone : s.curPackage = none) : P := by
    rw [hp] at hnone
    cases hnone
  have hlock : WorkerState.woken.left < WorkerState.signalled.left ∧
      (WorkerState.processing .begun).left < WorkerState.woken.left ∧
      WorkerState.finishing.left < WorkerState.returned.left := by
    decide
  have hsignal (w : WorkerState) :
      (signalCompletion { s with curPackage := none, worker := w }).curPackage = none ∧
        (s.thread = .aborting →
          (signalCompletion { s with curPackage := none, worker := w }).thread = .completed) := by
    unfold signalCompletion
    split
    · exact ⟨rfl, fun _ => rfl⟩
    · rename_i hthread
      exact ⟨rfl, fun ht => absurd ht hthread⟩
  cases hm with
  | enter hw | quit hw hd | wait hw hd =>
    rw [hw] at hslot
    exact hfull hslot.1
  | wake hw => exact .inr ⟨hp, rfl, rfl, hw.symm ▸ hlock.1⟩
  | release hw hd =>
    rw [hw] at hslot
    rcases hslot with ⟨-, hnone, -⟩ | ⟨hd', -⟩
    · exact hfull hnone
    · rw [hd] at hd'
      cases hd'
  | take hw hd => exact .inr ⟨hp, rfl, rfl, hw.symm ▸ hlock.2.1⟩
  | process q stage _ hw hq hstep =>
    rw [hw] at hslot ⊢
    obtain ⟨w, wire, rfl, rfl | ⟨stage', rfl, hpos, hless⟩ | ⟨rfl, hthrows⟩⟩ := process_cases hw hq hstep
    · exact .inr ⟨hp, rfl, rfl, Nat.lt_add_of_pos_left hslot.1⟩
    · exact .inr ⟨hp, rfl, rfl, Nat.add_lt_add_right hless 2⟩
    · rw [hok] at hthrows
      cases hthrows
  | lock hw => exact .inr ⟨hp, rfl, rfl, hw.symm ▸ hlock.2.2⟩
  | quitAfter hw hd => exact .inl (hsignal .ended)
  | again hw hd => exact .inl (hsignal .testing)
  | fail hw | close hw =>
    rw [hw] at hbroken
    cases hbroken

/-- With a package in the slot that is processed the worker can go on. -/
theorem Inv.goes (h : Inv s) {p : Package} (hp : s.curPackage = some p)
    (hhandled : p.kind.handled = true) (hbroken : s.worker.broken = false) :
    s.throws .success = false ∧ ∃ s', s.workerStep .success = some s' := by
  have hslot := h.slot
  unfold Slot at hslot
  unfold throws workerStep
  cases hw : s.worker with
  | off | entering | testing | waiting =>
    rw [hw, hp] at hslot
    cases hslot.1
  | signalled | returned | finishing => exact ⟨rfl, _, rfl⟩
  | woken =>
    dsimp only
    split
    · exact ⟨rfl, _, rfl⟩
    · exact ⟨rfl, _, rfl⟩
  | threw | failing | ended =>
    rw [hw] at hbroken
    cases hbroken
  | processing stage =>
    rw [hw] at hslot
    rw [hp]
    cases stage with
    | begun =>
      refine ⟨by simp [hhandled], ?_⟩
      show ∃ s', s.process p .begun .success = some s'
      unfold process
      cases hk : p.kind with
      | statement execute =>
        cases execute with
        | false => exact ⟨_, rfl⟩
        | true => exact ⟨_, rfl⟩
      | sendvalues | setopt | execute => exact ⟨_, rfl⟩
      | ping | pong | abort | bye | other =>
        rw [hk] at hhandled
        cases hhandled
    | executing | failed | executed => exact ⟨rfl, _, rfl⟩
    | responding n =>
      have hn := hslot.1
      rcases n with _ | _ | _ | n
      · exact ⟨rfl, _, rfl⟩
      · exact ⟨rfl, _, rfl⟩
      · exact ⟨rfl, _, rfl⟩
      · simp [Stage.left] at hn

theorem Inv.comes_completed (h : Inv s) (ht : s.thread = .aborting) :
    Comes Orderly (fun s' => s'.thread = .completed) s := by
  induction hn : s.worker.left using Nat.strongRecOn generalizing s with
  | ind n ih =>
    obtain ⟨⟨p, hp, hhandled⟩, hbroken⟩ := h.abort ht
    obtain ⟨hthrows, s₁, hs₁⟩ := h.goes hp hhandled hbroken
    apply Comes.later s ⟨.success, s₁, fun _ => hthrows, hs₁⟩
    intro o s' hok hs
    have hm := moves_of_step hs
    rcases h.nearer hp hbroken (hok ht) hm with ⟨-, hdone⟩ | ⟨-, ht', -, hless⟩
    · exact .now s' (hdone ht)
    · exact ih _ (hn ▸ hless) (h.moves hok hm) (ht'.trans ht) rfl

/-- What the worker has been told of it takes next. -/
theorem comes_handed {p : Package} (hw : s.worker.called = true) (hd : s.shuttingDown = false)
    (hp : s.curPackage = some p) (hall : s.accepted = s.handed ++ [p]) :
    Comes Orderly (fun s' => s'.handed = s.accepted) s := by
  have hwoken {s : Session} (hw : s.worker = .woken) (hd : s.shuttingDown = false)
      (hp : s.curPackage = some p) (hall : s.accepted = s.handed ++ [p]) :
      Comes Orderly (fun s' => s'.handed = s.accepted) s := by
    have hstep (o : Outcome) : s.workerStep o = some { s with
        worker := .processing .begun, handed := s.handed ++ s.curPackage.toList } := by
      unfold workerStep
      rw [hw]
      dsimp only
      rw [if_neg (by simp [hd])]
    apply Comes.later
    · refine ⟨.success, _, fun _ => ?_, hstep .success⟩
      unfold throws
      rw [hw]
    · intro o s' _ hs
      rw [hstep] at hs
      cases hs
      apply Comes.now
      rw [hall, hp]
      rfl
  cases hw' : s.worker with
  | woken => exact hwoken hw' hd hp hall
  | signalled =>
    have hstep (o : Outcome) : s.workerStep o = some { s with worker := .woken } := by
      unfold workerStep
      rw [hw']
    apply Comes.later
    · refine ⟨.success, _, fun _ => ?_, hstep .success⟩
      unfold throws
      rw [hw']
    · intro o s' _ hs
      rw [hstep] at hs
      cases hs
      exact hwoken (s := { s with worker := .woken }) rfl hd hp hall
  | off | entering | testing | waiting | processing | returned | finishing | threw | failing
    | ended =>
    rw [hw'] at hw
    cases hw

theorem Inv.pending (h : Inv s) : s.accepted = s.handed ∨ s.worker.called = true ∧
    s.shuttingDown = false ∧ ∃ p, s.curPackage = some p ∧ s.accepted = s.handed ++ [p] := by
  have hslot := h.slot
  unfold Slot at hslot
  cases hw : s.worker with
  | off | entering | testing | waiting | returned | finishing | threw | failing | ended =>
    rw [hw] at hslot
    exact .inl hslot.2
  | processing stage =>
    rw [hw] at hslot
    exact .inl hslot.2.2
  | signalled | woken =>
    rw [hw] at hslot
    rcases hslot with ⟨-, -, hall⟩ | ⟨hd, hp⟩
    · exact .inl hall
    · exact .inr ⟨rfl, hd, hp⟩

theorem Inv.handedOver (h : Inv s) : HandedOver s where
  once := by
    have hnodup : s.accepted.Nodup := h.numbers.imp fun hlt => by
      rintro rfl
      exact Nat.lt_irrefl _ hlt
    rcases h.pending with hall | ⟨-, -, p, -, hall⟩
    · exact hall ▸ hnodup
    · rw [hall] at hnodup
      exact (List.nodup_append.mp hnodup).1
  all := by
    rcases h.pending with hall | ⟨hw, hd, p, hp, hall⟩
    · exact .inl hall
    · exact .inr ⟨⟨p, hall⟩, comes_handed hw hd hp hall⟩
  idle hw _ := by
    have hslot := h.slot
    unfold Slot at hslot
    rw [hw] at hslot
    exact hslot.1
  abort := h.comes_completed
  stopped := h.stopped

/-- In every run in that order, in every state. -/
theorem handed_over {s : Session} (h : Reaches step Orderly {} s) : HandedOver s :=
  (h.invariant inv_init fun _ _ _ hinv hok hs => hinv.step hok hs).handedOver

instance (s : Session) : (e : Event) → Decidable (s.Orderly e)
  | .submit => inferInstanceAs (Decidable (∀ p ∈ s.thread.package, _ ∧ _))
  | .stop => inferInstanceAs (Decidable (_ = false))
  | .worker _ => inferInstanceAs (Decidable (_ → _))
  | .start | .read _ | .resume | .leave _ | .cancel | .signal | .join | .keepAlive => isTrue trivial

/-- A statement comes, is processed and aborted; then the session stops. -/
def abortedRun : List Event :=
  [.start, .worker .success, .worker .success, .read (.statement true), .submit, .read .abort,
    .submit, .worker .success, .worker .success, .worker .success, .worker .error,
    .worker .success, .worker .success, .worker .success, .resume, .leave true, .stop, .cancel,
    .signal, .worker .success, .worker .success, .join]

theorem abortedRun_handed_over : ∃ s : Session, HandedOver s ∧ s.thread = .stopped ∧
    s.handed = [⟨.statement true, 0⟩] := by
  obtain ⟨s, hs, hend⟩ := Reaches.of_play step Orderly {} abortedRun
    (fun s => s.thread = .stopped ∧ s.handed = [⟨.statement true, 0⟩]) (by decide +kernel)
  exact ⟨s, handed_over hs, of_decide_eq_true hend⟩

/-- (1) A statement that comes before the worker waits for the first time is left in the slot.
(2) An abort waits for a worker that has ended. (3) A statement is dropped by the end of the
session. -/
theorem not_handed_over :
    (∃ s : Session, Reaches step (fun _ _ => True) {} s ∧
      s.worker = .waiting ∧ s.shuttingDown = false ∧ s.curPackage = some ⟨.statement true, 0⟩) ∧
    (∃ s : Session, Reaches step (fun _ _ => True) {} s ∧
      s.thread = .aborting ∧ s.worker = .ended) ∧
    ∃ s : Session, Reaches step (fun _ _ => True) {} s ∧
      s.thread = .stopped ∧ s.accepted = [⟨.statement true, 0⟩] ∧ s.handed = [] := by
  refine ⟨?_, ?_, ?_⟩
  · obtain ⟨s, hs, hend⟩ := Reaches.of_play step (fun _ _ => True) ({} : Session)
      [.start, .read (.statement true), .submit, .worker .success, .worker .success]
      (fun s => s.worker = .waiting ∧ s.shuttingDown = false ∧
        s.curPackage = some ⟨.statement true, 0⟩) (by decide +kernel)
    exact ⟨s, hs, of_decide_eq_true hend⟩
  · obtain ⟨s, hs, hend⟩ := Reaches.of_play step (fun _ _ => True) ({} : Session)
      [.start, .worker .success, .worker .success, .read (.statement true), .submit,
        .worker .success, .worker .success, .worker .success, .worker .throws, .read .abort,
        .submit, .worker .success, .worker .success]
      (fun s => s.thread = .aborting ∧ s.worker = .ended) (by decide +kernel)
    exact ⟨s, hs, of_decide_eq_true hend⟩
  · obtain ⟨s, hs, hend⟩ := Reaches.of_play step (fun _ _ => True) ({} : Session)
      [.start, .worker .success, .worker .success, .read (.statement true), .submit,
        .leave true, .stop, .cancel, .signal, .worker .success, .worker .success, .join]
      (fun s => s.thread = .stopped ∧ s.accepted = [⟨.statement true, 0⟩] ∧ s.handed = [])
      (by decide +kernel)
    exact ⟨s, hs, of_decide_eq_true hend⟩

end Session

end Loxim.Server
