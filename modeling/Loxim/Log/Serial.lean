import Loxim.Log.RunHistory

/-!
# The serial order of a run

What the committed transactions left is what they leave when each of them runs by
itself, in the order of their Commit records.
-/

namespace Loxim.Log

open Store

variable {L : List LogRecord} {x : LogRecord} {t lid : Nat} {s s' : System} {e : System.Event}

/-- The committed transactions, the first one first. -/
def commits (log : List LogRecord) : List Nat :=
  log.reverse.filterMap fun
    | .commit t => some t
    | _ => none

/-- The writes of the committed transactions, one transaction after another. -/
def serial (log : List LogRecord) : List WriteRecord :=
  (commits log).flatMap fun t => writes (· == t) log.reverse

theorem mem_commits : t ∈ commits L ↔ .commit t ∈ L := by
  unfold commits
  rw [List.mem_filterMap]
  constructor
  · rintro ⟨x, hx, ht⟩
    cases x with
    | commit u =>
      cases ht
      exact List.mem_reverse.mp hx
    | _ => cases ht
  · exact fun h => ⟨.commit t, List.mem_reverse.mpr h, rfl⟩

theorem writes_snoc (hx : ∀ r, x ≠ .write r) :
    writes (· == t) (x :: L).reverse = writes (· == t) L.reverse := by
  have hnone : writes (· == t) [x] = [] := by
    cases x with
    | write r => exact absurd rfl (hx r)
    | _ => rfl
  rw [List.reverse_cons, writes, List.filterMap_append]
  exact (congrArg _ hnone).trans (List.append_nil _)

/-- A record that is no write and no Commit. -/
theorem serial_cons (hw : ∀ r, x ≠ .write r) (hc : ∀ t, x ≠ .commit t) :
    serial (x :: L) = serial L := by
  have hcommits : commits (x :: L) = commits L := by
    unfold commits
    rw [List.reverse_cons, List.filterMap_append]
    cases x with
    | commit u => exact absurd rfl (hc u)
    | _ => exact List.append_nil _
  unfold serial
  rw [hcommits]
  exact List.flatMap_congr fun t _ => writes_snoc hw

/-- The write of an unfinished transaction. -/
theorem serial_write {r : WriteRecord} (h : .commit r.tid ∉ L) :
    serial (.write r :: L) = serial L := by
  have hcommits : commits (.write r :: L) = commits L := by
    unfold commits
    rw [List.reverse_cons, List.filterMap_append]
    exact List.append_nil _
  unfold serial
  rw [hcommits]
  refine List.flatMap_congr fun t ht => ?_
  have hne : r.tid ≠ t := by
    rintro rfl
    exact h (mem_commits.mp ht)
  rw [List.reverse_cons, writes, List.filterMap_append]
  simp [writes, hne]

/-- Who commits comes after those that have. -/
theorem serial_commit : serial (.commit t :: L) = serial L ++ writes (· == t) L.reverse := by
  have hcommits : commits (.commit t :: L) = commits L ++ [t] := by
    unfold commits
    rw [List.reverse_cons, List.filterMap_append]
    rfl
  unfold serial
  rw [hcommits, List.flatMap_append, List.flatMap_singleton]
  have hsame (u : Nat) : writes (· == u) (LogRecord.commit t :: L).reverse =
      writes (· == u) L.reverse := writes_snoc fun _ heq => by cases heq
  simp only [hsame]

theorem execute_serial_commit : execute (serial (.commit t :: L)) lid =
    (newest (· == t) L lid).getD (execute (serial L) lid) := by
  rw [serial_commit, execute, List.foldl_append]
  exact foldl_writes _

namespace System

/-- What the committed transactions left changes when one commits. -/
theorem commits_of_step (h : s.Inv) (hlegal : s.Legal e) (hs : s.step e = some s') :
    (base s'.log = base s.log ∧ serial s'.log = serial s.log) ∨
      ∃ t, e = .commit t ∧ s'.log = .commit t :: s.log ∧ Unfinished s.log t := by
  have hmark {x : LogRecord} (hlog : s'.log = x :: s.log) (hw : ∀ r, x ≠ .write r)
      (hc : ∀ t, x ≠ .commit t) : base s'.log = base s.log ∧ serial s'.log = serial s.log := by
    rw [hlog]
    exact ⟨base_cons hw hc, serial_cons hw hc⟩
  cases e with
  | work =>
    left
    obtain ⟨⟨t, changes, logged⟩, hwork, hs⟩ := Option.bind_eq_some_iff.mp hs
    cases changes with
    | nil => cases hs
    | cons c rest =>
      cases logged with
      | false =>
        cases hs
        have hp := h.planned hwork
        have hun : Unfinished s.log c.r.tid := by
          have hplaced := h.placed t
          rw [show s.stage t = .running from hp.running] at hplaced
          rw [hp.mine List.mem_cons_self]
          exact hplaced
        exact ⟨base_write hun, serial_write hun.2.1⟩
      | true =>
        obtain ⟨d, -, hs⟩ := Option.bind_eq_some_iff.mp hs
        cases hs
        exact ⟨rfl, rfl⟩
  | commit t =>
    cases hs
    have hplaced := h.placed t
    rw [hlegal.1] at hplaced
    exact .inr ⟨t, rfl, rfl, hplaced⟩
  | undo t =>
    cases ht : s.stage t with
    | undoing rest =>
      simp only [System.step, ht] at hs
      rw [undo_log hs]
      exact .inl ⟨rfl, rfl⟩
    | unborn | entered | running | committed | undone | failed | rolledBack =>
      simp [System.step, ht] at hs
  | endCkpt =>
    obtain ⟨d, -, rfl⟩ := Option.map_eq_some_iff.mp hs
    exact .inl (hmark rfl (fun _ heq => by cases heq) (fun _ heq => by cases heq))
  | enter | call t c | abort t | leave t =>
    cases hs
    exact .inl ⟨rfl, rfl⟩
  | begin t | rollback t | ckpt =>
    cases hs
    exact .inl (hmark rfl (fun _ heq => by cases heq) (fun _ heq => by cases heq))

theorem serial_step (h : s.Inv) (hlegal : s.Legal e) (hserial : base s.log = execute (serial s.log))
    (hs : s.step e = some s') : base s'.log = execute (serial s'.log) := by
  rcases commits_of_step h hlegal hs with ⟨hbase, hsame⟩ | ⟨t, -, hlog, hun⟩
  · rw [hbase, hsame]
    exact hserial
  · funext lid
    rw [hlog, base_commit h.history hun, execute_serial_commit, hserial]

end System

end Loxim.Log
