import Loxim.Log.History

/-!
# What recovery makes of a store and its log

The log splits at the last checkpoint that ended. What is noted behind it is who
committed there; who is unfinished at the checkpoint and did not commit later is
undone, and then the writes behind the checkpoint are repeated.
-/

namespace Loxim.Log

open Store

variable {s : DBStoreManager} {c : CrashRecovery} {A B L log : List LogRecord} {x : LogRecord}
  {t lid : Nat} {tids : Finset Nat} {m : Nat → Option Content}

/-- The log before the last checkpoint that ended, or before the last one. -/
def cut (ended : Bool) : List LogRecord → List LogRecord
  | [] => []
  | .endCkpt :: rest => cut true rest
  | .ckpt _ :: rest => if ended then rest else cut ended rest
  | .begin _ :: rest | .write _ :: rest | .commit _ :: rest | .rollback _ :: rest
  | .shutdown :: rest => cut ended rest

-- ---------------------------------------------------------------------------
-- Noting
-- ---------------------------------------------------------------------------

/-- After the records `A`, with `B` still to be read: who committed is known, and
who is to be rolled back is unfinished in `B`. -/
structure Noted (c : CrashRecovery) (A B : List LogRecord) : Prop where
  commits : ∀ t, t ∈ c.tidsToCommit ↔ .commit t ∈ A
  rollbacks : ∀ t ∈ c.tidsToRollback, Unfinished B t ∧ .commit t ∉ A

/-- An end that was logged later. -/
theorem Ordered.not_ended (h : Ordered (A ++ B)) (hc : .commit t ∈ A) :
    .commit t ∉ B ∧ .rollback t ∉ B := by
  obtain ⟨A₁, A₂, rfl⟩ := List.append_of_mem hc
  have hsuffix : .commit t :: (A₂ ++ B) <:+ A₁ ++ .commit t :: A₂ ++ B := by
    rw [List.append_assoc, List.cons_append]
    exact List.suffix_append _ _
  obtain ⟨-, hcommit, hrollback⟩ := h.commit hsuffix
  exact ⟨fun hm => hcommit (List.mem_append_right _ hm),
    fun hm => hrollback (List.mem_append_right _ hm)⟩

theorem Noted.step (hn : Noted c A (x :: B)) (h : Ordered (A ++ x :: B)) :
    Noted (c.note x) (A ++ [x]) B := by
  have hB : Ordered (x :: B) := h.suffix (List.suffix_append _ _)
  have hcommits := hn.commits
  have hrollbacks := hn.rollbacks
  cases x with
  | begin t =>
    have hset : ((c.note (.begin t)).tidsToRollback) = c.tidsToRollback.erase t ∧
        (c.note (.begin t)).tidsToCommit = c.tidsToCommit := by
      unfold CrashRecovery.note
      simp only [LogRecord.modifySetsBackDir, LogRecord.rollBackTids, LogRecord.ckptEnd,
        LogRecord.ckptStart]
      split <;> simp
    refine ⟨fun u => ?_, fun u hu => ?_⟩
    · simp [hset.2, hcommits]
    · rw [hset.1, Finset.mem_erase] at hu
      obtain ⟨⟨hb, hc, hr⟩, hA⟩ := hrollbacks u hu.2
      simp only [List.mem_cons, LogRecord.begin.injEq, hu.1, reduceCtorEq, false_or] at hb hc hr
      exact ⟨⟨hb, hc, hr⟩, by simpa using hA⟩
  | write r =>
    have hun := hB.write (List.suffix_refl _)
    have hrest (u : Nat) : Unfinished (.write r :: B) u ↔ Unfinished B u :=
      unfinished_cons nofun nofun nofun
    refine ⟨fun u => ?_, fun u hu => ?_⟩
    · unfold CrashRecovery.note
      simp only [LogRecord.modifySetsBackDir, LogRecord.ckptEnd, LogRecord.ckptStart]
      split <;> simp [hcommits]
    · simp only [CrashRecovery.note, LogRecord.modifySetsBackDir, LogRecord.rollBackTids,
        LogRecord.ckptEnd, LogRecord.ckptStart] at hu
      split at hu
      · obtain ⟨hu', hA⟩ := hrollbacks u hu
        exact ⟨(hrest u).mp hu', by simpa using hA⟩
      · rename_i hnot
        rcases Finset.mem_insert.mp hu with rfl | hu
        · exact ⟨hun, by simpa [hcommits] using hnot⟩
        · obtain ⟨hu', hA⟩ := hrollbacks u hu
          exact ⟨(hrest u).mp hu', by simpa using hA⟩
  | commit t =>
    refine ⟨fun u => ?_, fun u hu => ?_⟩
    · simp [CrashRecovery.note, LogRecord.modifySetsBackDir, LogRecord.ckptEnd,
        LogRecord.ckptStart, hcommits, or_comm]
    · obtain ⟨hu', hA⟩ := hrollbacks u hu
      obtain ⟨hu', hne⟩ := (unfinished_end (.inl rfl)).mp hu'
      exact ⟨hu', by simp [hA, hne]⟩
  | rollback t =>
    have hun := hB.rollback (List.suffix_refl _)
    have hcommit : .commit t ∉ A := fun hA => (h.not_ended hA).2 (by simp)
    refine ⟨fun u => ?_, fun u hu => ?_⟩
    · simp [CrashRecovery.note, LogRecord.modifySetsBackDir, LogRecord.ckptEnd,
        LogRecord.ckptStart, hcommits]
    · rcases Finset.mem_insert.mp hu with rfl | hu
      · exact ⟨hun, by simpa using hcommit⟩
      · obtain ⟨hu', hA⟩ := hrollbacks u hu
        exact ⟨((unfinished_end (.inr rfl)).mp hu').1, by simpa using hA⟩
  | ckpt l =>
    have hrest (u : Nat) : Unfinished (.ckpt l :: B) u ↔ Unfinished B u :=
      unfinished_cons nofun nofun nofun
    refine ⟨fun u => ?_, fun u hu => ?_⟩
    · simp [CrashRecovery.note, LogRecord.modifySetsBackDir, LogRecord.ckptEnd,
        LogRecord.ckptStart, hcommits]
    · rcases Finset.mem_union.mp hu with hu | hu
      · obtain ⟨hu', hA⟩ := hrollbacks u hu
        exact ⟨(hrest u).mp hu', by simpa using hA⟩
      · obtain ⟨hl, hnot⟩ := Finset.mem_filter.mp hu
        exact ⟨(hB.ckpt (List.suffix_refl _)).mp (List.mem_toFinset.mp hl),
          by simpa using (hcommits u).not.mp hnot⟩
  | endCkpt =>
    have hrest (u : Nat) : Unfinished (.endCkpt :: B) u ↔ Unfinished B u :=
      unfinished_cons nofun nofun nofun
    refine ⟨fun u => ?_, fun u hu => ?_⟩
    · simp [CrashRecovery.note, LogRecord.modifySetsBackDir, LogRecord.ckptEnd,
        LogRecord.ckptStart, hcommits]
    · obtain ⟨hu', hA⟩ := hrollbacks u hu
      exact ⟨(hrest u).mp hu', by simpa using hA⟩
  | shutdown => exact absurd (by simp) hB.shutdown

theorem note_afterCkptEnd : (c.note x).afterCkptEnd = (c.afterCkptEnd || decide (x = .endCkpt)) := by
  cases x with
  | endCkpt => simp [CrashRecovery.note, LogRecord.ckptEnd, LogRecord.ckptStart]
  | begin t =>
    simp only [CrashRecovery.note, LogRecord.modifySetsBackDir, LogRecord.ckptEnd,
      LogRecord.ckptStart]
    split <;> simp
  | write r =>
    simp only [CrashRecovery.note, LogRecord.modifySetsBackDir, LogRecord.ckptEnd,
      LogRecord.ckptStart]
    split <;> simp
  | commit t => simp [CrashRecovery.note, LogRecord.modifySetsBackDir, LogRecord.ckptEnd,
      LogRecord.ckptStart]
  | rollback t => simp [CrashRecovery.note, LogRecord.modifySetsBackDir, LogRecord.ckptEnd,
      LogRecord.ckptStart]
  | ckpt l => simp [CrashRecovery.note, LogRecord.modifySetsBackDir, LogRecord.ckptEnd,
      LogRecord.ckptStart]
  | shutdown => simp [CrashRecovery.note, LogRecord.modifySetsBackDir, LogRecord.ckptEnd,
      LogRecord.ckptStart]

theorem cut_note (h : x.ckptReached (c.note x) = false) :
    cut c.afterCkptEnd (x :: B) = cut (c.note x).afterCkptEnd B := by
  rw [note_afterCkptEnd]
  cases x with
  | ckpt l =>
    have hended : c.afterCkptEnd = false := by
      simpa [LogRecord.ckptReached, note_afterCkptEnd] using h
    simp [cut, hended]
  | _ => simp [cut]

/-- The first scan stops at the checkpoint, and knows by then who commits behind it
and who is unfinished at it. -/
theorem crNote_spec (h : Ordered (A ++ B)) (hn : Noted c A B) :
    ∃ A', B = A' ++ cut c.afterCkptEnd B ∧
      (c.crNoteAndRollback B).2 = cut c.afterCkptEnd B ∧
      (∀ t, t ∈ (c.crNoteAndRollback B).1.tidsToCommit ↔ .commit t ∈ A ++ A') ∧
      ∀ t, t ∈ (c.crNoteAndRollback B).1.tidsToRollback ↔
        Unfinished (cut c.afterCkptEnd B) t ∧ .commit t ∉ A ++ A' := by
  induction B generalizing c A with
  | nil =>
    refine ⟨[], rfl, rfl, fun t => ?_, fun t => ⟨fun ht => ?_, fun ht => ?_⟩⟩
    · simpa [CrashRecovery.crNoteAndRollback] using hn.commits t
    · simpa [cut] using hn.rollbacks t ht
    · cases ht.1.1
  | cons x B ih =>
    have hstep := hn.step h
    have h' : Ordered (A ++ [x] ++ B) := by simpa using h
    cases hx : x.ckptReached (c.note x) with
    | false =>
      obtain ⟨A', hB, hrest, hcommits, hrollbacks⟩ := ih h' hstep
      simp only [CrashRecovery.crNoteAndRollback, hx, cut_note hx]
      refine ⟨x :: A', by rw [List.cons_append, ← hB], hrest, fun t => ?_, fun t => ?_⟩
      · simpa using hcommits t
      · simpa using hrollbacks t
    | true =>
      cases x with
      | ckpt l =>
        have hended : c.afterCkptEnd = true := by
          simpa [LogRecord.ckptReached, note_afterCkptEnd] using hx
        have hcut : cut c.afterCkptEnd (.ckpt l :: B) = B := by simp [cut, hended]
        have hB : Ordered (.ckpt l :: B) := h.suffix (List.suffix_append _ _)
        simp only [CrashRecovery.crNoteAndRollback, hx, if_true, hcut]
        refine ⟨[.ckpt l], rfl, trivial, hstep.commits, fun t => ⟨hstep.rollbacks t, fun ht => ?_⟩⟩
        refine Finset.mem_union_right _ (Finset.mem_filter.mpr ⟨?_, ?_⟩)
        · exact List.mem_toFinset.mpr ((hB.ckpt (List.suffix_refl _)).mpr ht.1)
        · have hnot : .commit t ∉ A := fun hA => ht.2 (List.mem_append_left _ hA)
          exact (hn.commits t).not.mpr hnot
      | _ => simp [LogRecord.ckptReached] at hx

-- ---------------------------------------------------------------------------
-- Undoing
-- ---------------------------------------------------------------------------

/-- What an object gets back: the first old value, of each transaction after its
Begin. -/
def undone (tids : Finset Nat) : List LogRecord → Nat → Option (Option Content)
  | [], _ => none
  | .begin t :: rest, lid => undone (tids.erase t) rest lid
  | .write r :: rest, lid =>
    (undone tids rest lid).or (if r.tid ∈ tids ∧ r.lid = lid then some r.old else none)
  | .commit _ :: rest, lid | .rollback _ :: rest, lid | .ckpt _ :: rest, lid
  | .endCkpt :: rest, lid | .shutdown :: rest, lid => undone tids rest lid

theorem undone_empty : undone ∅ L lid = none := by
  induction L with
  | nil => rfl
  | cons x L ih => cases x <;> simp [undone, ih]

theorem crRollback_spec (hw : ∀ r, .write r ∈ L → r.Whole) (hs : s.Sound)
    (hb : ∀ t ∈ tids, .begin t ∈ L) :
    ∃ s', crRollback tids s L = some (s', 0) ∧ s'.Sound ∧
      ∀ lid, content s' lid = (undone tids L lid).getD (content s lid) := by
  induction L generalizing tids s with
  | nil =>
    have hempty : tids = ∅ := Finset.eq_empty_of_forall_notMem fun t ht => nomatch hb t ht
    exact ⟨s, by simp [crRollback, hempty], hs, fun lid => rfl⟩
  | cons x L ih =>
    by_cases hempty : tids = ∅
    · exact ⟨s, by simp [crRollback, hempty], hs, fun lid => by rw [hempty, undone_empty]; rfl⟩
    have hwL (r : WriteRecord) (hr : .write r ∈ L) : r.Whole := hw r (List.mem_cons_of_mem _ hr)
    have hrest (hx : ∀ t, x ≠ .begin t) (t : Nat) (ht : t ∈ tids) : .begin t ∈ L :=
      (List.mem_cons.mp (hb t ht)).resolve_left (hx t).symm
    cases x with
    | begin u =>
      have hL : ∀ t ∈ tids.erase u, .begin t ∈ L := by
        intro t ht
        obtain ⟨hne, ht⟩ := Finset.mem_erase.mp ht
        exact (List.mem_cons.mp (hb t ht)).resolve_left fun heq => hne (LogRecord.begin.inj heq)
      obtain ⟨s', hs', hsound, hc⟩ := ih hwL hs hL
      exact ⟨s', by simpa [crRollback, hempty, LogRecord.rollBackStore, LogRecord.rollBackTids]
        using hs', hsound, hc⟩
    | write r =>
      by_cases hr : r.tid ∈ tids
      · obtain ⟨s₁, e, hs₁, hsound₁, hc₁, -⟩ := rollBack_content hs (hw r (by simp))
        obtain ⟨s', hs', hsound, hc⟩ := ih hwL hsound₁ (hrest (by simp))
        refine ⟨s', ?_, hsound, fun lid => ?_⟩
        · simpa [crRollback, hempty, LogRecord.rollBackStore, LogRecord.rollBackTids, hr, hs₁]
            using hs'
        · rw [hc, hc₁, undone]
          cases hu : undone tids L lid with
          | some v => simp
          | none =>
            rcases eq_or_ne lid r.lid with rfl | hne
            · simp [hr]
            · simp [Function.update_of_ne hne, hne.symm]
      · obtain ⟨s', hs', hsound, hc⟩ := ih hwL hs (hrest (by simp))
        refine ⟨s', ?_, hsound, fun lid => ?_⟩
        · simpa [crRollback, hempty, LogRecord.rollBackStore, LogRecord.rollBackTids, hr] using hs'
        · simpa [undone, hr] using hc lid
    | _ =>
      obtain ⟨s', hs', hsound, hc⟩ := ih hwL hs (hrest (by simp))
      exact ⟨s', by simpa [crRollback, hempty, LogRecord.rollBackStore, LogRecord.rollBackTids]
        using hs', hsound, hc⟩

/-- The first old value is what was there before the transaction. -/
theorem undone_eq (lid : Nat) (h : Ordered L) (hm : ∀ t ∈ tids, Chained t m L) :
    ((∃ t ∈ tids, Wrote L t lid) → undone tids L lid = some (m lid)) ∧
      ((∀ t ∈ tids, ¬ Wrote L t lid) → undone tids L lid = none) := by
  induction L generalizing tids with
  | nil =>
    refine ⟨?_, fun _ => rfl⟩
    rintro ⟨t, -, r, hr, -⟩
    cases hr
  | cons x L ih =>
    have hL := h.suffix (List.suffix_cons x L)
    have hmL (t : Nat) (ht : t ∈ tids) : Chained t m L := (hm t ht).suffix (List.suffix_cons x L)
    rcases x.write_or with ⟨r, rfl⟩ | hx
    · obtain ⟨ihsome, ihnone⟩ := ih hL hmL
      by_cases hold : ∃ t ∈ tids, Wrote L t lid
      · refine ⟨fun _ => by rw [undone, ihsome hold, Option.some_or], fun hno => ?_⟩
        obtain ⟨t, ht, hwt⟩ := hold
        exact absurd (wrote_write.mpr (.inr hwt)) (hno t ht)
      · have hnone : ∀ t ∈ tids, ¬ Wrote L t lid := fun t ht hwt => hold ⟨t, ht, hwt⟩
        rw [undone, ihnone hnone, Option.none_or]
        refine ⟨fun ⟨t, ht, hwt⟩ => ?_, fun hno => ?_⟩
        · obtain ⟨rfl, rfl⟩ := (wrote_write.mp hwt).resolve_right (hnone t ht)
          rw [if_pos ⟨ht, rfl⟩, hm r.tid ht r L (List.suffix_refl _) rfl,
            newest_eq_none (hnone r.tid ht), Option.getD_none]
        · exact if_neg fun ⟨ht, hl⟩ => hno r.tid ht (wrote_write.mpr (.inl ⟨rfl, hl⟩))
    · simp only [wrote_cons hx]
      cases x with
      | begin u =>
        obtain ⟨ihsome, ihnone⟩ := ih hL fun t ht => hmL t (Finset.mem_of_mem_erase ht)
        have hself : ¬ Wrote L u lid := hL.not_wrote (h.begin (List.suffix_refl _))
        refine ⟨fun ⟨t, ht, hwt⟩ => ?_, fun hno => ?_⟩
        · have hne : t ≠ u := fun heq => hself (heq ▸ hwt)
          exact ihsome ⟨t, Finset.mem_erase.mpr ⟨hne, ht⟩, hwt⟩
        · exact ihnone fun t ht => hno t (Finset.mem_of_mem_erase ht)
      | write r => exact absurd rfl (hx r)
      | _ => exact ih hL hmL

-- ---------------------------------------------------------------------------
-- Repeating
-- ---------------------------------------------------------------------------

/-- A record and a later one: no transaction writes after its Commit. -/
def Before (x y : LogRecord) : Prop := ∀ r, y = .write r → x ≠ .commit r.tid

theorem Ordered.before (h : Ordered L) : L.reverse.Pairwise Before := by
  rw [List.pairwise_reverse]
  induction L with
  | nil => exact .nil
  | cons x L ih =>
    refine .cons (fun y hy r hr => ?_) (ih (h.suffix (List.suffix_cons x L)))
    subst hr
    rintro rfl
    exact (h.write (List.suffix_refl _)).2.1 hy

theorem writes_congr {P Q : Nat → Bool} (h : ∀ r, .write r ∈ L → P r.tid = Q r.tid) :
    writes P L = writes Q L := by
  refine List.filterMap_congr fun x hx => ?_
  cases x with
  | write r => simp only [h r hx]
  | _ => rfl

theorem writes_cons (P : Nat → Bool) (hx : ∀ r, x ≠ .write r) :
    writes P (x :: L) = writes P L := by
  cases x with
  | write r => exact absurd rfl (hx r)
  | _ => rfl

theorem crCommit_spec (h : L.Pairwise Before) (hw : ∀ r, .write r ∈ L → r.Whole) (hs : s.Sound)
    (hc : ∀ t ∈ tids, .commit t ∈ L) :
    ∃ s', crCommit tids s L = some (s', 0) ∧ s'.Sound ∧
      content s' = (writes (fun t => t ∈ tids) L).foldl WriteRecord.apply (content s) := by
  induction L generalizing tids s with
  | nil =>
    have hempty : tids = ∅ := Finset.eq_empty_of_forall_notMem fun t ht => List.not_mem_nil (hc t ht)
    exact ⟨s, by simp [crCommit, hempty], hs, rfl⟩
  | cons x L ih =>
    by_cases hempty : tids = ∅
    · have hnone : writes (fun t => t ∈ tids) (x :: L) = [] := by
        refine List.filterMap_eq_nil_iff.mpr fun y _ => ?_
        cases y <;> simp [hempty]
      exact ⟨s, by simp [crCommit, hempty], hs, by rw [hnone]; rfl⟩
    obtain ⟨hx, hL⟩ := List.pairwise_cons.mp h
    have hwL (r : WriteRecord) (hr : .write r ∈ L) : r.Whole := hw r (List.mem_cons_of_mem _ hr)
    have hrest (hx : ∀ t, x ≠ .commit t) (t : Nat) (ht : t ∈ tids) : .commit t ∈ L :=
      (List.mem_cons.mp (hc t ht)).resolve_left (hx t).symm
    have hskip (hx : ∀ r, x ≠ .write r) :
        writes (fun t => t ∈ tids) (x :: L) = writes (fun t => t ∈ tids) L := writes_cons _ hx
    cases x with
    | commit u =>
      have hcL : ∀ t ∈ tids.erase u, .commit t ∈ L := by
        intro t ht
        obtain ⟨hne, ht⟩ := Finset.mem_erase.mp ht
        exact (List.mem_cons.mp (hc t ht)).resolve_left fun heq => hne (LogRecord.commit.inj heq)
      obtain ⟨s', hs', hsound, hc'⟩ := ih hL hwL hs hcL
      refine ⟨s', ?_, hsound, ?_⟩
      · simpa [crCommit, hempty, LogRecord.commitStore, LogRecord.commitTids] using hs'
      · rw [hc', hskip (by simp)]
        congr 1
        refine writes_congr fun r hr => ?_
        have hne : r.tid ≠ u := fun heq => hx _ hr r rfl (by rw [heq])
        simp [hne]
    | write r =>
      by_cases hr : r.tid ∈ tids
      · obtain ⟨s₁, e, hs₁, hsound₁, hc₁⟩ := commit_content hs (hw r (by simp))
        obtain ⟨s', hs', hsound, hc'⟩ := ih hL hwL hsound₁ (hrest (by simp))
        refine ⟨s', ?_, hsound, ?_⟩
        · simpa [crCommit, hempty, LogRecord.commitStore, LogRecord.commitTids, hr, hs₁] using hs'
        · have hone : writes (fun t => t ∈ tids) (.write r :: L) =
              r :: writes (fun t => t ∈ tids) L := by simp [writes, hr]
          rw [hc', hc₁, hone, List.foldl_cons, WriteRecord.apply]
      · obtain ⟨s', hs', hsound, hc'⟩ := ih hL hwL hs (hrest (by simp))
        refine ⟨s', ?_, hsound, ?_⟩
        · simpa [crCommit, hempty, LogRecord.commitStore, LogRecord.commitTids, hr] using hs'
        · rw [hc']
          simp [writes, hr]
    | _ =>
      obtain ⟨s', hs', hsound, hc'⟩ := ih hL hwL hs (hrest (by simp))
      refine ⟨s', ?_, hsound, by rw [hc', hskip (by simp)]⟩
      simpa [crCommit, hempty, LogRecord.commitStore, LogRecord.commitTids] using hs'

-- ---------------------------------------------------------------------------
-- Recovery
-- ---------------------------------------------------------------------------

/-- A store that goes with a log: an object that no unfinished transaction has
written is at its base, and one written by a transaction of `R` is as that
transaction left it. The others may be half undone. -/
structure Consistent (s : DBStoreManager) (log : List LogRecord) (R : Nat → Prop) : Prop where
  sound : s.Sound
  free {lid : Nat} : (∀ t, Unfinished log t → ¬ Wrote log t lid) → content s lid = base log lid
  owned {t lid : Nat} : R t → Unfinished log t → Wrote log t lid →
    content s lid = (newest (· == t) log lid).getD none

variable {R : Nat → Prop}

/-- Where a transaction writes, its Commit is still to come. -/
theorem Ordered.committed_after (h : Ordered (A ++ B)) {r : WriteRecord} (hr : .write r ∈ A) :
    committed (A ++ B) r.tid = committed A r.tid := by
  obtain ⟨A₁, A₂, rfl⟩ := List.append_of_mem hr
  have hsuffix : .write r :: (A₂ ++ B) <:+ A₁ ++ .write r :: A₂ ++ B := by
    rw [List.append_assoc, List.cons_append]
    exact List.suffix_append _ _
  obtain ⟨-, hcommit, -⟩ := h.write hsuffix
  have hB : .commit r.tid ∉ B := fun hm => hcommit (List.mem_append_right _ hm)
  simp [committed, hB]

/-- Who commits later is unfinished until then. -/
theorem Ordered.unfinished_before (h : Ordered (A ++ B)) {r : WriteRecord} (hr : .write r ∈ B)
    (hc : .commit r.tid ∈ A) : Unfinished B r.tid := by
  have hB : Ordered B := h.suffix (List.suffix_append _ _)
  exact ⟨hB.begin_of_write hr, h.not_ended hc⟩

/-- The last write before the checkpoint, among those that count at the end. -/
theorem newest_at_ckpt (h : History (A ++ B))
    (hfree : ∀ t, .commit t ∈ A → Unfinished B t → ¬ Wrote B t lid) :
    newest (committed (A ++ B)) B lid = newest (committed B) B lid := by
  refine newest_congr fun r hr hlid => ?_
  have hA : .commit r.tid ∉ A := fun hA =>
    hfree r.tid hA (h.ordered.unfinished_before hr hA) ⟨r, hr, rfl, hlid⟩
  simp [committed, hA]

theorem newest_at_ckpt_of_wrote (h : History (A ++ B)) (hB : History B) (hA : .commit t ∈ A)
    (ht : Unfinished B t) (hw : Wrote B t lid) :
    newest (committed (A ++ B)) B lid = newest (· == t) B lid := by
  rw [← hB.last ht hw]
  refine newest_congr fun r hr hlid => ?_
  rw [Bool.eq_iff_iff]
  simp only [committed, List.mem_append, decide_eq_true_eq, Bool.or_eq_true, beq_iff_eq]
  constructor
  · rintro (hc | hc)
    · exact .inr (hB.exclusive (h.ordered.unfinished_before hr hc) ht ⟨r, hr, rfl, hlid⟩ hw)
    · exact .inl hc
  · rintro (hc | rfl)
    · exact .inr hc
    · exact .inl hA

/-- What is undone is at its base afterwards, and the rest as the checkpoint has it. -/
theorem content_undone (hB : History B) (hs : Consistent s B R)
    (hT : ∀ t, t ∈ tids ↔ Unfinished B t ∧ .commit t ∉ A) (h : History (A ++ B))
    (hR : ∀ t, .commit t ∈ A → Unfinished B t → R t) :
    (undone tids B lid).getD (content s lid) = (newest (committed (A ++ B)) B lid).getD none := by
  have hchained (t : Nat) (ht : t ∈ tids) : Chained t (base B) B := hB.chained ((hT t).mp ht).1
  obtain ⟨hsome, hnone⟩ := undone_eq lid hB.ordered hchained
  by_cases hone : ∃ t, Unfinished B t ∧ Wrote B t lid
  · obtain ⟨t, ht, hw⟩ := hone
    by_cases hA : .commit t ∈ A
    · have hother : ∀ u ∈ tids, ¬ Wrote B u lid := by
        intro u hu hwu
        obtain ⟨hun, hnot⟩ := (hT u).mp hu
        exact hnot (hB.exclusive hun ht hwu hw ▸ hA)
      rw [hnone hother, Option.getD_none, hs.owned (hR t hA ht) ht hw,
        newest_at_ckpt_of_wrote h hB hA ht hw]
    · have hother : ∀ u, .commit u ∈ A → Unfinished B u → ¬ Wrote B u lid := by
        intro u hu hun hwu
        exact hA (hB.exclusive hun ht hwu hw ▸ hu)
      rw [hsome ⟨t, (hT t).mpr ⟨ht, hA⟩, hw⟩, Option.getD_some, newest_at_ckpt h hother, base]
  · have hfree : ∀ t, Unfinished B t → ¬ Wrote B t lid := fun t ht hw => hone ⟨t, ht, hw⟩
    rw [hnone fun t ht => hfree t ((hT t).mp ht).1, Option.getD_none, hs.free hfree,
      newest_at_ckpt h fun t _ => hfree t, base]

theorem recover_eq (hne : log ≠ []) (hrunning : log.head? ≠ some .shutdown) :
    recover log s = (do
      let (s, err) ← crRollback (CrashRecovery.crNoteAndRollback {} log).1.tidsToRollback s
        (CrashRecovery.crNoteAndRollback {} log).2
      if err ≠ 0 then return (s, err)
      crCommit (CrashRecovery.crNoteAndRollback {} log).1.tidsToCommit s
        (log.take (log.length -
          (CrashRecovery.crNoteAndRollback {} log).2.length)).reverse) := by
  cases log with
  | nil => exact absurd rfl hne
  | cons x L =>
    cases x with
    | shutdown => exact absurd rfl hrunning
    | _ => rfl

theorem recover_spec (h : History log) (hB : History (cut false log))
    (hs : Consistent s (cut false log) R)
    (hR : ∀ t, .commit t ∈ log → Unfinished (cut false log) t → R t) (hne : log ≠ []) :
    ∃ s', recover log s = some (s', 0) ∧
      ∀ lid, content s' lid = execute (writes (committed log) log.reverse) lid := by
  have hnoted : Noted {} [] log := ⟨by simp, by simp⟩
  obtain ⟨A, hlog, hrest, hcommits, hrollbacks⟩ := crNote_spec (A := []) h.ordered hnoted
  simp only [List.nil_append] at hcommits hrollbacks
  generalize hBeq : cut false log = B at *
  have hA : log.take (log.length - B.length) = A := by
    conv_lhs => rw [hlog]
    rw [List.length_append, Nat.add_sub_cancel, List.take_left]
  have hAB : History (A ++ B) := hlog ▸ h
  have hRA (t : Nat) (hc : .commit t ∈ A) : Unfinished B t → R t :=
    hR t (hlog ▸ List.mem_append_left _ hc)
  obtain ⟨s₁, hs₁, hsound₁, hc₁⟩ := crRollback_spec (fun r hr => hB.whole hr) hs.sound
    fun t ht => ((hrollbacks t).mp ht).1.1
  obtain ⟨s₂, hs₂, -, hc₂⟩ := crCommit_spec (L := A.reverse) (hAB.ordered.before.sublist (by simp))
    (fun r hr => hAB.whole (List.mem_append_left _ (List.mem_reverse.mp hr))) hsound₁
    fun t ht => List.mem_reverse.mpr ((hcommits t).mp ht)
  refine ⟨s₂, ?_, fun lid => ?_⟩
  · have hrunning : log.head? ≠ some .shutdown := fun hhead =>
      h.ordered.shutdown (List.mem_of_head? hhead)
    rw [recover_eq hne hrunning, hrest, hA, hs₁]
    exact hs₂
  · have hcA : (fun t => decide (t ∈ (CrashRecovery.crNoteAndRollback {} log).1.tidsToCommit)) =
        committed A := by
      funext t
      rw [Bool.eq_iff_iff]
      simp [committed, hcommits]
    rw [hc₂, hcA, foldl_writes, execute, foldl_writes, hc₁,
      content_undone hB hs hrollbacks hAB hRA]
    conv_rhs => rw [hlog, newest_append]
    rw [newest_congr (P := committed (A ++ B)) (L := A) (Q := committed A)
      fun r hr _ => hAB.ordered.committed_after hr]
    cases newest (committed A) A lid <;> rfl

end Loxim.Log
