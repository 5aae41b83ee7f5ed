import Loxim.Lib.Bytes
import Loxim.Lib.Run

/-!
# The queue of the log

Records are pushed to a queue, and one thread takes them from it and writes them. The
counter has the records of the queue and the one that is written now; a call that
flushes waits until it is zero.
-/

namespace Loxim.Log

open Bytes

/-- Where `LogThread::main` is. When a record could not be written, the counter is set to
zero outside of the mutex and the thread ends. -/
inductive WriterState (R : Type)
  | popping
  | writing (record : R)
  | written
  | failed
  | stopped
  deriving DecidableEq

inductive FlushCall
  | flush
  | pushAndFlush
  | commitTransaction
  deriving DecidableEq

/-- `commitTransaction` does not look at what `push_and_flush` returns. -/
def FlushCall.result (fsync : Nat) : FlushCall → Nat
  | .flush | .pushAndFlush => fsync
  | .commitTransaction => 0

/-- `calls` are the threads that wait in `flush`. `pushed` has all records in order; a
call has the number of those pushed before it, and `acked` is the greatest such number of
the calls that have returned 0. -/
structure LogThread (T R : Type) where
  queue : List R := []
  counter : Int := 0
  file : List R := []
  writer : WriterState R := .popping
  calls : T → Option (FlushCall × Nat) := fun _ => none
  pushed : List R := []
  acked : Nat := 0

namespace LogThread

variable {T R : Type}

/-- `writeLogRecord` succeeds or not, and `fsync` returns an error or 0. -/
inductive Event (T R : Type)
  | push (record : R)
  | flush (t : T) (fsync : Nat)
  | pushAndFlush (t : T) (record : R) (fsync : Nat)
  | commitTransaction (t : T) (record : R) (fsync : Nat)
  | wake (t : T) (fsync : Nat)
  | pop
  | writeLogRecord (success : Bool)
  | count
  | stop

def push (s : LogThread T R) (record : R) : LogThread T R where
  queue := s.queue ++ [record]
  counter := Scalar.int.wrap (s.counter + 1)
  file := s.file
  writer := s.writer
  calls := s.calls
  pushed := s.pushed ++ [record]
  acked := s.acked

section

variable [DecidableEq T]

/-- The loop of `flush` tests the counter and waits, or the call returns. -/
def test (s : LogThread T R) (t : T) (call : FlushCall) (before fsync : Nat) : LogThread T R :=
  if 0 < s.counter then { s with calls := Function.update s.calls t (some (call, before)) }
  else { s with
    calls := Function.update s.calls t none
    acked := if call.result fsync = 0 then max s.acked before else s.acked }

def flush (s : LogThread T R) (t : T) (call : FlushCall) (fsync : Nat) : LogThread T R :=
  s.test t call s.pushed.length fsync

end

/-- The record in hand has been written, or not. -/
def writeLogRecord (s : LogThread T R) (success : Bool) : Option (LogThread T R) :=
  match s.writer with
  | .writing record =>
    if success then some { s with file := s.file ++ [record], writer := .written }
    else some { s with writer := .failed }
  | .popping | .written | .failed | .stopped => none

/-- Waits while the counter is zero. The queue has no front when it is empty. -/
def pop (s : LogThread T R) : Option (LogThread T R) :=
  match s.writer, s.queue with
  | .popping, record :: queue =>
    if s.counter = 0 then none else some { s with queue, writer := .writing record }
  | _, _ => none

def count (s : LogThread T R) : Option (LogThread T R) :=
  match s.writer with
  | .written =>
    some { s with counter := if s.counter - 1 ≤ 0 then 0 else s.counter - 1, writer := .popping }
  | .popping | .writing _ | .failed | .stopped => none

def stop (s : LogThread T R) : Option (LogThread T R) :=
  match s.writer with
  | .failed => some { s with counter := 0, writer := .stopped }
  | .popping | .writing _ | .written | .stopped => none

def step [DecidableEq T] (s : LogThread T R) : Event T R → Option (LogThread T R)
  | .push record => some (s.push record)
  | .flush t fsync => some (s.flush t .flush fsync)
  | .pushAndFlush t record fsync => some ((s.push record).flush t .pushAndFlush fsync)
  | .commitTransaction t record fsync => some ((s.push record).flush t .commitTransaction fsync)
  | .wake t fsync => (s.calls t).map fun (call, before) => s.test t call before fsync
  | .pop => s.pop
  | .writeLogRecord success => s.writeLogRecord success
  | .count => s.count
  | .stop => s.stop

/-- A thread that waits makes no other call. -/
def Legal (s : LogThread T R) : Event T R → Prop
  | .flush t _ | .pushAndFlush t _ _ | .commitTransaction t _ _ => s.calls t = none
  | .push _ | .wake _ _ | .pop | .writeLogRecord _ | .count | .stop => True

/-- Records can be written, and the counter can count them. -/
def Sound (s : LogThread T R) : Event T R → Prop
  | .push _ | .pushAndFlush _ _ _ | .commitTransaction _ _ _ => s.counter < 2 ^ 31 - 1
  | .writeLogRecord success => success = true
  | .flush _ _ | .wake _ _ | .pop | .count | .stop => True

-- ---------------------------------------------------------------------------
-- The order of the file
-- ---------------------------------------------------------------------------

variable {s s' : LogThread T R} {ev : Event T R} {t : T} {record : R} {call : FlushCall}
  {before fsync : Nat}

/-- The records that are not yet in the file. -/
def pending (s : LogThread T R) : List R :=
  match s.writer with
  | .writing record => record :: s.queue
  | .popping | .written | .failed | .stopped => s.queue

/-- What has been pushed is in the file or comes after it. -/
structure Ordered (s : LogThread T R) : Prop where
  file : s.file <+: s.pushed
  pending : s.writer ≠ .failed → s.writer ≠ .stopped → s.pushed = s.file ++ s.pending

theorem pending_push (s : LogThread T R) (record : R) :
    (s.push record).pending = s.pending ++ [record] := by
  unfold pending push
  cases s.writer <;> rfl

theorem Ordered.push (h : s.Ordered) (record : R) : (s.push record).Ordered where
  file := h.file.trans (List.prefix_append _ _)
  pending hfailed hstopped := by
    rw [pending_push, ← List.append_assoc]
    exact congrArg (· ++ [record]) (h.pending hfailed hstopped)

variable [DecidableEq T]

theorem test_file : (s.test t call before fsync).file = s.file := by
  unfold test
  split <;> rfl

theorem test_pushed : (s.test t call before fsync).pushed = s.pushed := by
  unfold test
  split <;> rfl

theorem test_writer : (s.test t call before fsync).writer = s.writer := by
  unfold test
  split <;> rfl

theorem test_queue : (s.test t call before fsync).queue = s.queue := by
  unfold test
  split <;> rfl

theorem test_counter : (s.test t call before fsync).counter = s.counter := by
  unfold test
  split <;> rfl

theorem test_pending : (s.test t call before fsync).pending = s.pending := by
  simp only [pending, test_writer, test_queue]

theorem Ordered.test (h : s.Ordered) : (s.test t call before fsync).Ordered := by
  refine ⟨?_, fun hfailed hstopped => ?_⟩
  · rw [test_file, test_pushed]
    exact h.file
  · rw [test_writer] at hfailed hstopped
    rw [test_file, test_pushed, test_pending]
    exact h.pending hfailed hstopped

omit [DecidableEq T] in
theorem pop_eq_some (h : s.pop = some s') : s.writer = .popping ∧ s.counter ≠ 0 ∧
    ∃ record queue, s.queue = record :: queue ∧
      s' = { s with queue, writer := .writing record } := by
  unfold pop at h
  split at h
  · rename_i record queue hw hq
    split at h
    · cases h
    · rename_i hcounter
      exact ⟨hw, hcounter, record, queue, hq, (Option.some.inj h).symm⟩
  · cases h

omit [DecidableEq T] in
theorem writeLogRecord_eq_some {success : Bool} (h : s.writeLogRecord success = some s') :
    ∃ record, s.writer = .writing record ∧
      s' = if success then { s with file := s.file ++ [record], writer := .written }
        else { s with writer := .failed } := by
  unfold writeLogRecord at h
  cases hw : s.writer with
  | writing record =>
    cases success with
    | true => exact ⟨record, rfl, by simpa [hw] using h.symm⟩
    | false => exact ⟨record, rfl, by simpa [hw] using h.symm⟩
  | popping | written | failed | stopped => simp [hw] at h

omit [DecidableEq T] in
theorem count_eq_some (h : s.count = some s') : s.writer = .written ∧
    s' = { s with
      counter := if s.counter - 1 ≤ 0 then 0 else s.counter - 1, writer := .popping } := by
  unfold count at h
  cases hw : s.writer with
  | written => exact ⟨rfl, by simpa [hw] using h.symm⟩
  | popping | writing _ | failed | stopped => simp [hw] at h

omit [DecidableEq T] in
theorem stop_eq_some (h : s.stop = some s') : s.writer = .failed ∧
    s' = { s with counter := 0, writer := .stopped } := by
  unfold stop at h
  cases hw : s.writer with
  | failed => exact ⟨rfl, by simpa [hw] using h.symm⟩
  | popping | writing _ | written | stopped => simp [hw] at h

omit [DecidableEq T] in
theorem Ordered.pop (h : s.Ordered) (hs : s.pop = some s') : s'.Ordered := by
  obtain ⟨hw, -, record, queue, hq, rfl⟩ := pop_eq_some hs
  refine ⟨h.file, fun _ _ => ?_⟩
  have hall := h.pending (by simp [hw]) (by simp [hw])
  simpa [LogThread.pending, hw, hq] using hall

omit [DecidableEq T] in
theorem Ordered.writeLogRecord {success : Bool} (h : s.Ordered)
    (hs : s.writeLogRecord success = some s') : s'.Ordered := by
  obtain ⟨record, hw, rfl⟩ := writeLogRecord_eq_some hs
  have hall := h.pending (by simp [hw]) (by simp [hw])
  simp only [LogThread.pending, hw] at hall
  cases success with
  | true =>
    have hsplit : s.pushed = (s.file ++ [record]) ++ s.queue := by simpa using hall
    exact ⟨⟨s.queue, hsplit.symm⟩, fun _ _ => hsplit⟩
  | false => exact ⟨h.file, fun hfailed => absurd rfl hfailed⟩

omit [DecidableEq T] in
theorem Ordered.count (h : s.Ordered) (hs : s.count = some s') : s'.Ordered := by
  obtain ⟨hw, rfl⟩ := count_eq_some hs
  refine ⟨h.file, fun _ _ => ?_⟩
  have hall := h.pending (by simp [hw]) (by simp [hw])
  simpa [LogThread.pending, hw] using hall

omit [DecidableEq T] in
theorem Ordered.stop (h : s.Ordered) (hs : s.stop = some s') : s'.Ordered := by
  obtain ⟨-, rfl⟩ := stop_eq_some hs
  exact ⟨h.file, fun _ hstopped => absurd rfl hstopped⟩

theorem Ordered.step (h : s.Ordered) (hs : s.step ev = some s') : s'.Ordered := by
  cases ev with
  | push record =>
    cases hs
    exact h.push record
  | flush t fsync =>
    cases hs
    exact h.test
  | pushAndFlush t record fsync | commitTransaction t record fsync =>
    cases hs
    exact (h.push record).test
  | wake t fsync =>
    obtain ⟨⟨call, before⟩, -, rfl⟩ := Option.map_eq_some_iff.mp hs
    exact h.test
  | pop => exact h.pop hs
  | writeLogRecord success => exact h.writeLogRecord hs
  | count => exact h.count hs
  | stop => exact h.stop hs

-- ---------------------------------------------------------------------------
-- What the counter says
-- ---------------------------------------------------------------------------

/-- A record is counted until after it was written. -/
def uncounted (s : LogThread T R) : Nat :=
  match s.writer with
  | .written => 1
  | .popping | .writing _ | .failed | .stopped => 0

structure Counted (s : LogThread T R) : Prop where
  ordered : s.Ordered
  failed : s.writer ≠ .failed
  stopped : s.writer ≠ .stopped
  counter : s.counter = (s.pending.length + s.uncounted : Nat)
  calls {t : T} {call : FlushCall} {before : Nat} :
    s.calls t = some (call, before) → before ≤ s.pushed.length
  acked : s.acked ≤ s.file.length

omit [DecidableEq T] in
theorem Counted.pushed (h : s.Counted) : s.pushed = s.file ++ s.pending :=
  h.ordered.pending h.failed h.stopped

omit [DecidableEq T] in
theorem Counted.push (h : s.Counted) (hsmall : s.counter < 2 ^ 31 - 1) (record : R) :
    (s.push record).Counted where
  ordered := h.ordered.push record
  failed := h.failed
  stopped := h.stopped
  counter := by
    have hpos := h.counter
    have hwrap : Scalar.int.wrap (s.counter + 1) = s.counter + 1 :=
      Scalar.wrap_of_holds ⟨by omega, by omega⟩
    have hrest : (s.push record).uncounted = s.uncounted := rfl
    show Scalar.int.wrap (s.counter + 1) = _
    rw [hwrap, pending_push, List.length_append, List.length_singleton, hrest]
    omega
  calls hcall := Nat.le_trans (h.calls hcall) (by simp [LogThread.push])
  acked := h.acked

/-- A call returns when everything is in the file. -/
theorem Counted.test (h : s.Counted) (hbefore : before ≤ s.pushed.length) :
    (s.test t call before fsync).Counted where
  ordered := h.ordered.test
  failed := by
    rw [test_writer]
    exact h.failed
  stopped := by
    rw [test_writer]
    exact h.stopped
  counter := by
    have hrest : (s.test t call before fsync).uncounted = s.uncounted := by
      simp only [uncounted, test_writer]
    rw [test_counter, test_pending, hrest]
    exact h.counter
  calls {t' call' before'} hcall := by
    have hkept (x : Option (FlushCall × Nat)) (hx : ∀ y, x = some y → y.2 ≤ s.pushed.length)
        (hcall : Function.update s.calls t x t' = some (call', before')) :
        before' ≤ s.pushed.length := by
      rcases eq_or_ne t' t with rfl | hne
      · rw [Function.update_self] at hcall
        exact hx _ hcall
      · rw [Function.update_of_ne hne] at hcall
        exact h.calls hcall
    rw [test_pushed]
    unfold LogThread.test at hcall
    split at hcall
    · refine hkept _ (fun y hy => ?_) hcall
      cases hy
      exact hbefore
    · exact hkept _ (fun y hy => by cases hy) hcall
  acked := by
    rw [test_file]
    unfold LogThread.test
    split
    · exact h.acked
    · rename_i hzero
      have hcounter := h.counter
      have hnone : s.pending.length = 0 := by omega
      have hlength : s.pushed.length = s.file.length := by
        rw [h.pushed, List.length_append, hnone, Nat.add_zero]
      have hacked := h.acked
      show (if call.result fsync = 0 then max s.acked before else s.acked) ≤ s.file.length
      split
      · exact Nat.max_le.mpr ⟨hacked, hlength ▸ hbefore⟩
      · exact hacked

theorem Counted.step (h : s.Counted) (hok : s.Sound ev) (hs : s.step ev = some s') :
    s'.Counted := by
  cases ev with
  | push record =>
    cases hs
    exact h.push hok record
  | flush t fsync =>
    cases hs
    exact h.test (Nat.le_refl _)
  | pushAndFlush t record fsync | commitTransaction t record fsync =>
    cases hs
    exact (h.push hok record).test (Nat.le_refl _)
  | wake t fsync =>
    obtain ⟨⟨call, before⟩, hcall, rfl⟩ := Option.map_eq_some_iff.mp hs
    exact h.test (h.calls hcall)
  | pop =>
    have hordered := h.ordered.pop hs
    obtain ⟨hw, -, record, queue, hq, rfl⟩ := pop_eq_some hs
    have hcounter := h.counter
    refine ⟨hordered, nofun, nofun, ?_, h.calls, h.acked⟩
    simpa [pending, uncounted, hw, hq] using hcounter
  | writeLogRecord success =>
    cases success with
    | false => cases hok
    | true =>
      have hordered := h.ordered.writeLogRecord hs
      obtain ⟨record, hw, rfl⟩ := writeLogRecord_eq_some hs
      have hcounter := h.counter
      have hacked := h.acked
      refine ⟨hordered, nofun, nofun, ?_, h.calls, ?_⟩
      · simpa [pending, uncounted, hw] using hcounter
      · show s.acked ≤ (s.file ++ [record]).length
        rw [List.length_append]
        omega
  | count =>
    have hordered := h.ordered.count hs
    obtain ⟨hw, rfl⟩ := count_eq_some hs
    have hcounter := h.counter
    simp only [pending, uncounted, hw] at hcounter
    refine ⟨hordered, nofun, nofun, ?_, h.calls, h.acked⟩
    simp only [pending, uncounted]
    split
    · omega
    · omega
  | stop =>
    obtain ⟨hw, -⟩ := stop_eq_some hs
    exact absurd hw h.failed

/-- Records are written in the order in which they were pushed, each at most once. As
long as none of them fails to be written and the counter can count them, a call that
returns 0 leaves all records pushed before it in the file. -/
theorem flush_written :
    (∀ s : LogThread T R, Reaches step Legal {} s → s.file <+: s.pushed) ∧
    ∀ s : LogThread T R, Reaches step (fun s ev => s.Legal ev ∧ s.Sound ev) {} s →
      s.pushed.take s.acked <+: s.file := by
  have hstart : ({} : LogThread T R).Ordered := ⟨List.prefix_refl [], fun _ _ => rfl⟩
  refine ⟨fun s h => ?_, fun s h => ?_⟩
  · have hordered := h.invariant (I := Ordered) hstart fun s ev s' hs _ hstep => hs.step hstep
    exact hordered.file
  · have hcounted := h.invariant (I := Counted) ⟨hstart, nofun, nofun, rfl, nofun, Nat.le_refl 0⟩
      fun s ev s' hs hok hstep => hs.step hok.2 hstep
    rw [hcounted.pushed, List.take_append_of_le_length hcounted.acked]
    exact List.take_prefix _ _

instance (s : LogThread T R) : DecidablePred s.Legal
  | .flush t _ | .pushAndFlush t _ _ | .commitTransaction t _ _ =>
    decidable_of_iff (s.calls t).isNone Option.isNone_iff_eq_none
  | .push _ | .wake _ _ | .pop | .writeLogRecord _ | .count | .stop => .isTrue trivial

instance (s : LogThread T R) : DecidablePred s.Sound
  | .push _ | .pushAndFlush _ _ _ | .commitTransaction _ _ _ =>
    inferInstanceAs (Decidable (s.counter < 2 ^ 31 - 1))
  | .writeLogRecord success => inferInstanceAs (Decidable (success = true))
  | .flush _ _ | .wake _ _ | .pop | .count | .stop => .isTrue trivial

/-- One thread pushes a record while another one commits. -/
theorem flush_written_commit : ∃ s : LogThread Bool Nat, s.acked = 2 ∧ s.pushed = [1, 2] ∧
    [1, 2] <+: s.file := by
  obtain ⟨s, hs, hQ⟩ := Reaches.of_play (step (T := Bool) (R := Nat))
    (fun s ev => s.Legal ev ∧ s.Sound ev) {}
    [.push 1, .pop, .commitTransaction true 2 0, .writeLogRecord true, .count, .wake true 0, .pop,
      .writeLogRecord true, .count, .wake true 0]
    (fun s => s.acked = 2 ∧ s.pushed = [1, 2]) (by decide)
  obtain ⟨hacked, hpushed⟩ := of_decide_eq_true hQ
  have hfile := flush_written.2 s hs
  rw [hacked, hpushed] at hfile
  exact ⟨s, hacked, hpushed, hfile⟩

/-- The record of one thread cannot be written, and the flush of another one returns 0. -/
theorem flush_unwritten : ∃ s : LogThread Bool Nat, Reaches step Legal {} s ∧
    ¬ s.pushed.take s.acked <+: s.file := by
  obtain ⟨s, hs, hQ⟩ := Reaches.of_play (step (T := Bool) (R := Nat)) Legal {}
    [.push 1, .pop, .writeLogRecord false, .stop, .flush true 0]
    (fun s => s.acked = 1 ∧ s.pushed = [1] ∧ s.file = []) (by decide)
  obtain ⟨hacked, hpushed, hfile⟩ := of_decide_eq_true hQ
  refine ⟨s, hs, ?_⟩
  rw [hacked, hpushed, hfile]
  decide

end LogThread

end Loxim.Log
