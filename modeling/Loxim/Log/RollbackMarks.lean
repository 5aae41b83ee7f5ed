import Mathlib.Data.Finset.Sort
import Loxim.Log.Recover

/-!
# The Rollback records of recovery

At its end recovery writes a Rollback record for each transaction that is left in
`tidsToRollback`. It gets there only when the undo phase has emptied that set; the ids
collected in `rollbackedTids` are read by nobody.
-/

namespace Loxim.Log

open Store

-- ---------------------------------------------------------------------------
-- The phases with the set they hand on
-- ---------------------------------------------------------------------------

/-- `CRRollback` with the set and the log it leaves. -/
def crRollbackLeft (tids : Finset Nat) (s : DBStoreManager) :
    List LogRecord → Option (DBStoreManager × Finset Nat × List LogRecord × Int)
  | [] => some (s, tids, [], if tids = ∅ then 0 else eInval)
  | r :: rest =>
    if tids = ∅ then some (s, tids, r :: rest, 0)
    else do
      let s ← r.rollBackStore tids s
      crRollbackLeft (r.rollBackTids tids) s rest

/-- `CRSaveRollback`: what is pushed, in this order. -/
def crSaveRollback (tids : Finset Nat) : List LogRecord := (tids.sort (· ≤ ·)).map .rollback

theorem crSaveRollback_empty : crSaveRollback ∅ = [] := by
  simp [crSaveRollback]

structure Recovery where
  store : DBStoreManager
  err : Int
  /-- The log from its end as far as it was read. -/
  scanned : List LogRecord := []
  /-- Whose writes were undone. -/
  undone : Finset Nat := ∅
  /-- The records pushed at the end. -/
  pushed : List LogRecord := []

/-- The phases after `CRStart`. -/
def recoverPhases (log : List LogRecord) (s : DBStoreManager) : Option Recovery := do
  let (c, rest) := CrashRecovery.crNoteAndRollback {} log
  let (s, tids, before, err) ← crRollbackLeft c.tidsToRollback s rest
  let scanned := log.take (log.length - before.length)
  if err ≠ 0 then return { store := s, err, scanned, undone := c.tidsToRollback }
  let (s, err) ← crCommit c.tidsToCommit s (log.take (log.length - rest.length)).reverse
  if err ≠ 0 then return { store := s, err, scanned, undone := c.tidsToRollback }
  return { store := s, err := 0, scanned, undone := c.tidsToRollback, pushed := crSaveRollback tids }

/-- `CrashRecovery::Recover` with all that it does. -/
def recoverLog (log : List LogRecord) (s : DBStoreManager) : Option Recovery :=
  match log with
  | [] => some { store := s, err := eInval }
  | .shutdown :: _ => some { store := s, err := 0, scanned := [.shutdown] }
  | _ => recoverPhases log s

variable {tids tids' : Finset Nat} {s s' : DBStoreManager} {L log before : List LogRecord}
  {err : Int} {r : Recovery}

theorem crRollback_eq : crRollback tids s L = (crRollbackLeft tids s L).map fun x => (x.1, x.2.2.2) := by
  induction L generalizing tids s with
  | nil => rfl
  | cons x L ih =>
    simp only [crRollback, crRollbackLeft]
    split
    · rfl
    · cases x.rollBackStore tids s with
      | none => rfl
      | some s₁ => exact ih

/-- The undo phase ends well only with an empty set. -/
theorem crRollbackLeft_empty (h : crRollbackLeft tids s L = some (s', tids', before, 0)) :
    tids' = ∅ := by
  induction L generalizing tids s with
  | nil =>
    simp only [crRollbackLeft, Option.some.injEq, Prod.mk.injEq] at h
    obtain ⟨-, rfl, -, herr⟩ := h
    by_contra hne
    simp [hne, eInval] at herr
  | cons x L ih =>
    simp only [crRollbackLeft] at h
    split at h
    · cases h
      assumption
    · obtain ⟨s₁, -, h⟩ := Option.bind_eq_some_iff.mp h
      exact ih h

theorem recoverLog_cases (log : List LogRecord) (s : DBStoreManager) :
    (log = [] ∧ recoverLog log s = some { store := s, err := eInval }) ∨
    (log.head? = some .shutdown ∧
      recoverLog log s = some { store := s, err := 0, scanned := [.shutdown] }) ∨
    (log ≠ [] ∧ log.head? ≠ some .shutdown ∧ recoverLog log s = recoverPhases log s) := by
  cases log with
  | nil => exact .inl ⟨rfl, rfl⟩
  | cons x L =>
    cases x with
    | shutdown => exact .inr (.inl ⟨rfl, rfl⟩)
    | _ => exact .inr (.inr ⟨by simp, by simp, rfl⟩)

/-- The store and the code are those of `recover`. -/
theorem recover_eq_recoverLog :
    recover log s = (recoverLog log s).map fun r => (r.store, r.err) := by
  rcases recoverLog_cases log s with ⟨rfl, h⟩ | ⟨hhead, h⟩ | ⟨hne, hrunning, h⟩
  · rw [h]
    rfl
  · obtain ⟨L, rfl⟩ := List.head?_eq_some_iff.mp hhead
    rw [h]
    rfl
  · rw [h, recover_eq hne hrunning, recoverPhases, crRollback_eq]
    simp only [Option.bind_eq_bind, Option.map_bind, Option.bind_map]
    congr 1
    funext x
    simp only [Function.comp_apply]
    split
    · rfl
    · cases crCommit (CrashRecovery.crNoteAndRollback {} log).1.tidsToCommit x.1
        (log.take (log.length - (CrashRecovery.crNoteAndRollback {} log).2.length)).reverse with
      | none => rfl
      | some y =>
        simp only [Option.bind_some]
        split
        · rfl
        · rename_i hy
          exact congrArg some (Prod.ext rfl (not_not.mp hy))

theorem pushed_eq_nil (h : recoverLog log s = some r) : r.pushed = [] := by
  rcases recoverLog_cases log s with ⟨-, heq⟩ | ⟨-, heq⟩ | ⟨-, -, heq⟩
  · rw [heq] at h
    cases h
    rfl
  · rw [heq] at h
    cases h
    rfl
  · rw [heq] at h
    obtain ⟨⟨s₁, tids, before, err⟩, hundo, h⟩ := Option.bind_eq_some_iff.mp h
    simp only at h
    split at h
    · cases h
      rfl
    · rename_i herr
      obtain ⟨⟨s₂, err₂⟩, -, h⟩ := Option.bind_eq_some_iff.mp h
      simp only at h
      split at h
      · cases h
        rfl
      · cases h
        obtain rfl : err = 0 := not_not.mp herr
        rw [crRollbackLeft_empty hundo, crSaveRollback_empty]

-- ---------------------------------------------------------------------------
-- What recovery should leave
-- ---------------------------------------------------------------------------

/-- A transaction with a Begin or Ckpt entry and no end. -/
structure Unended (L : List LogRecord) (t : Nat) : Prop where
  started : .begin t ∈ L ∨ ∃ tids, .ckpt tids ∈ L ∧ t ∈ tids
  commit : .commit t ∉ L
  rollback : .rollback t ∉ L

/-- The Rollback records are those of the transactions without an end, and recovery from
the same store with these records in the log makes the same store of it, with nothing
new to push or to undo. -/
structure LeavesMark (log : List LogRecord) (s : DBStoreManager) (r : Recovery) : Prop where
  marks : ∀ x, x ∈ r.pushed ↔ ∃ t, x = .rollback t ∧ Unended r.scanned t
  again : ∃ r', recoverLog (r.pushed.reverse ++ log) s = some r' ∧ r'.err = 0 ∧
    (∀ lid, content r'.store lid = content r.store lid) ∧ r'.pushed = [] ∧ r'.undone ⊆ r.undone

theorem LeavesMark.not_unended (h : LeavesMark log s r) (hpushed : r.pushed = []) (t : Nat) :
    ¬ Unended r.scanned t := by
  intro ht
  have := (h.marks (.rollback t)).mpr ⟨t, rfl, ht⟩
  rw [hpushed] at this
  cases this

/-- Recovery that ends well leaves its mark if and only if it has read of no transaction
without an end. -/
theorem leavesMark_iff (h : recoverLog log s = some r) (herr : r.err = 0) :
    LeavesMark log s r ↔ ∀ t, ¬ Unended r.scanned t := by
  have hpushed := pushed_eq_nil h
  constructor
  · intro hm
    exact hm.not_unended hpushed
  · intro hno
    refine ⟨?_, r, ?_, herr, fun lid => rfl, hpushed, Finset.Subset.refl _⟩
    · intro x
      rw [hpushed]
      refine iff_of_false List.not_mem_nil ?_
      rintro ⟨t, -, ht⟩
      exact hno t ht
    · rw [hpushed]
      exact h

/-- A transaction that has committed. -/
theorem leavesMark_committed :
    ∃ r, recoverLog [.commit 1, .begin 1] {} = some r ∧
      LeavesMark [.commit 1, .begin 1] {} r := by
  have hrun : recoverLog [.commit 1, .begin 1] {} =
      some { store := {}, err := 0, scanned := [.commit 1, .begin 1] } := by
    simp [recoverLog, recoverPhases, CrashRecovery.crNoteAndRollback, CrashRecovery.note,
      LogRecord.modifySetsBackDir, LogRecord.rollBackTids, LogRecord.ckptEnd, LogRecord.ckptStart,
      LogRecord.ckptReached, crRollbackLeft, crCommit, LogRecord.commitStore, LogRecord.commitTids,
      crSaveRollback_empty]
  refine ⟨_, hrun, (leavesMark_iff hrun rfl).mpr ?_⟩
  intro t ht
  obtain ⟨hstarted, hcommit, -⟩ := ht
  simp only [List.mem_cons, LogRecord.commit.injEq, reduceCtorEq, List.not_mem_nil, or_self,
    or_false] at hcommit
  rcases hstarted with hbegin | ⟨tids, hckpt, -⟩
  · simp at hbegin
    exact hcommit hbegin
  · simp at hckpt

/-- A transaction that was active at the last checkpoint: it is rolled back, and no
record says so. -/
theorem not_leavesMark :
    ∃ r, recoverLog [.endCkpt, .ckpt [1], .begin 1] {} = some r ∧ r.err = 0 ∧ r.undone = {1} ∧
      ¬ LeavesMark [.endCkpt, .ckpt [1], .begin 1] {} r := by
  refine ⟨{ store := {}, err := 0, scanned := [.endCkpt, .ckpt [1], .begin 1], undone := {1} },
    ?_, rfl, rfl, ?_⟩
  · simp [recoverLog, recoverPhases, CrashRecovery.crNoteAndRollback, CrashRecovery.note,
      LogRecord.modifySetsBackDir, LogRecord.rollBackTids, LogRecord.ckptEnd, LogRecord.ckptStart,
      LogRecord.ckptReached, LogRecord.rollBackStore, crRollbackLeft, crCommit,
      crSaveRollback_empty]
  · intro h
    exact h.not_unended rfl 1 ⟨.inl (by simp), by simp, by simp⟩

end Loxim.Log
