import Mathlib.Data.List.Infix
import Loxim.Log.Rollback
import Loxim.Log.CrashRecovery

/-!
# What a log says about the objects

`newest` is the last write of an object by some of the transactions, and `base`
what the committed ones left. In a log of transactions that lock what they write,
an unfinished transaction is the only one on its objects, and the first old value
it has logged is the base (`History`).
-/

namespace Loxim.Log

open Store

/-- Name and value of an object. -/
abbrev Content := List (BitVec 8) × DataValue

def content (s : DBStoreManager) (lid : Nat) : Option Content :=
  (s.object lid).map fun o => (o.name, o.value)

namespace WriteRecord

def old (r : WriteRecord) : Option Content := r.oldVal.map fun v => (r.name, v)

def new (r : WriteRecord) : Option Content := r.newVal.map fun v => (r.name, v)

/-- The object was created or deleted, and can be stored. -/
structure Whole (r : WriteRecord) : Prop where
  one : r.oldVal.isNone = !r.newVal.isNone
  positive : 0 < r.lid
  max : r.lid ≤ maxLogicalID
  fits : r.oldVal = some v ∨ r.newVal = some v →
    Fits { lid := r.lid, isRoot := false, name := r.name, value := v }

end WriteRecord

variable {s s' : DBStoreManager} {r : WriteRecord} {log L B : List LogRecord} {t u lid : Nat}
  {P Q : Nat → Bool}

-- ---------------------------------------------------------------------------
-- Redoing and undoing one record
-- ---------------------------------------------------------------------------

theorem content_update {o : Option Object} (h : s'.object = Function.update s.object lid o) :
    content s' = Function.update (content s) lid (o.map fun o => (o.name, o.value)) := by
  funext i
  unfold content
  rcases eq_or_ne i lid with rfl | hne
  · rw [h, Function.update_self, Function.update_self]
  · rw [h, Function.update_of_ne hne, Function.update_of_ne hne]

theorem deleteObject_missing (h : s.Sound) (ho : s.object lid = none) :
    ∃ e, s.deleteObject lid = .error e := by
  cases hs : s.deleteObject lid with
  | error e => exact ⟨e, rfl⟩
  | ok s' =>
    by_cases hlid : 0 < lid ∧ lid ≤ s.lastAssigned
    · rw [h.deleteObject_gone ho hlid.1 hlid.2] at hs
      cases hs
    · simp only [DBStoreManager.deleteObject, DBStoreManager.getPhysicalID] at hs
      split at hs
      · cases hs
      · rw [if_pos (by omega)] at hs
        cases hs

/-- Whether the object is there or not, afterwards it is not. -/
theorem deleteFromStore_content (h : s.Sound) (r : WriteRecord) :
    (r.deleteFromStore s).1.Sound ∧
      content (r.deleteFromStore s).1 = Function.update (content s) r.lid none ∧
      (r.deleteFromStore s).1.lastAssigned = s.lastAssigned ∧
      (content s r.lid ≠ none → (r.deleteFromStore s).2 = 0) := by
  cases ho : s.object r.lid with
  | none =>
    obtain ⟨e, he⟩ := deleteObject_missing h ho
    have hnone : content s r.lid = none := by rw [content, ho, Option.map_none]
    rw [WriteRecord.deleteFromStore, he]
    exact ⟨h, by rw [← hnone, Function.update_eq_self], rfl, fun hne => absurd hnone hne⟩
  | some o =>
    obtain ⟨s', hs', hsound, hobject, -, hlast⟩ := h.deleteObject ho
    rw [WriteRecord.deleteFromStore, hs']
    exact ⟨hsound, content_update hobject, hlast, fun _ => rfl⟩

theorem addToStore_content (h : s.Sound) (hr : r.Whole)
    (hv : r.oldVal = some v ∨ r.newVal = some v) :
    ∃ s', r.addToStore s v = some (s', 0) ∧ s'.Sound ∧
      content s' = Function.update (content s) r.lid (some (r.name, v)) ∧
      s.lastAssigned ≤ s'.lastAssigned := by
  obtain ⟨s', hs', hsound, hobject, -, -, -, hlast⟩ := h.createObject
    (o := { lid := r.lid, isRoot := false, name := r.name, value := v }) hr.positive hr.max
    (hr.fits hv)
  refine ⟨s', ?_, hsound, content_update hobject, hlast ▸ le_max_left _ _⟩
  simp only [WriteRecord.addToStore]
  rw [hs']
  rfl

theorem commit_content (h : s.Sound) (hr : r.Whole) :
    ∃ s' e, r.commit s = some (s', e) ∧ s'.Sound ∧
      content s' = Function.update (content s) r.lid r.new := by
  have hone := hr.one
  cases hold : r.oldVal with
  | none =>
    cases hnew : r.newVal with
    | none => simp [hold, hnew] at hone
    | some v =>
      obtain ⟨s', hs', hsound, hc, -⟩ := addToStore_content h hr (.inr hnew)
      exact ⟨s', 0, by simp [WriteRecord.commit, hold, hnew, hs'], hsound,
        by rw [hc, WriteRecord.new, hnew, Option.map_some]⟩
  | some w =>
    cases hnew : r.newVal with
    | some v => simp [hold, hnew] at hone
    | none =>
      obtain ⟨hsound, hc, -⟩ := deleteFromStore_content h r
      exact ⟨_, _, by simp only [WriteRecord.commit, hold, hnew]; rfl, hsound,
        by rw [hc, WriteRecord.new, hnew, Option.map_none]⟩

/-- An undo that finds what the record wrote has no error. -/
theorem rollBack_content (h : s.Sound) (hr : r.Whole) :
    ∃ s' e, r.rollBack s = some (s', e) ∧ s'.Sound ∧
      content s' = Function.update (content s) r.lid r.old ∧ s.lastAssigned ≤ s'.lastAssigned ∧
      (content s r.lid = r.new → e = 0) := by
  have hone := hr.one
  cases hold : r.oldVal with
  | none =>
    cases hnew : r.newVal with
    | none => simp [hold, hnew] at hone
    | some v =>
      obtain ⟨hsound, hc, hlast, hcode⟩ := deleteFromStore_content h r
      refine ⟨_, _, by simp only [WriteRecord.rollBack, hold, hnew], hsound,
        by rw [hc, WriteRecord.old, hold, Option.map_none], hlast.ge, fun heq => hcode ?_⟩
      rw [heq, WriteRecord.new, hnew, Option.map_some]
      exact Option.some_ne_none _
  | some w =>
    cases hnew : r.newVal with
    | some v => simp [hold, hnew] at hone
    | none =>
      obtain ⟨s', hs', hsound, hc, hlast⟩ := addToStore_content h hr (.inl hold)
      exact ⟨s', 0, by simp [WriteRecord.rollBack, hold, hnew, hs'], hsound,
        by rw [hc, WriteRecord.old, hold, Option.map_some], hlast, fun _ => rfl⟩

-- ---------------------------------------------------------------------------
-- Executing writes
-- ---------------------------------------------------------------------------

def WriteRecord.apply (m : Nat → Option Content) (r : WriteRecord) : Nat → Option Content :=
  Function.update m r.lid r.new

/-- What writes make of nothing, one after another. -/
def execute (l : List WriteRecord) : Nat → Option Content := l.foldl WriteRecord.apply fun _ => none

/-- The writes of some transactions. -/
def writes (P : Nat → Bool) (l : List LogRecord) : List WriteRecord :=
  l.filterMap fun
    | .write r => if P r.tid then some r else none
    | _ => none

def committed (log : List LogRecord) (t : Nat) : Bool := .commit t ∈ log

/-- What the last write of an object by some transactions made of it. -/
def newest (P : Nat → Bool) : List LogRecord → Nat → Option (Option Content)
  | [], _ => none
  | .write r :: rest, lid => if P r.tid ∧ r.lid = lid then some r.new else newest P rest lid
  | .begin _ :: rest, lid | .commit _ :: rest, lid | .rollback _ :: rest, lid
  | .ckpt _ :: rest, lid | .endCkpt :: rest, lid | .shutdown :: rest, lid => newest P rest lid

/-- What the committed transactions left. -/
def base (log : List LogRecord) (lid : Nat) : Option Content :=
  (newest (committed log) log lid).getD none

theorem LogRecord.write_or (x : LogRecord) : (∃ r, x = .write r) ∨ ∀ r, x ≠ .write r := by
  cases x with
  | write r => exact .inl ⟨r, rfl⟩
  | _ => exact .inr fun _ => nofun

theorem newest_cons {x : LogRecord} (hx : ∀ r, x ≠ .write r) : newest P (x :: L) = newest P L := by
  funext lid
  cases x with
  | write r => exact absurd rfl (hx r)
  | _ => rfl

theorem foldl_writes (m : Nat → Option Content) :
    (writes P L.reverse).foldl WriteRecord.apply m lid = (newest P L lid).getD (m lid) := by
  induction L with
  | nil => rfl
  | cons x L ih =>
    have hsplit : writes P (x :: L).reverse = writes P L.reverse ++ writes P [x] := by
      simp [writes, List.filterMap_append]
    rw [hsplit, List.foldl_append]
    rcases x.write_or with ⟨r, rfl⟩ | hx
    · by_cases hP : P r.tid
      · have hone : writes P [.write r] = [r] := by simp [writes, hP]
        rw [hone, List.foldl_cons, List.foldl_nil, WriteRecord.apply]
        rcases eq_or_ne lid r.lid with rfl | hne
        · simp [newest, hP]
        · rw [Function.update_of_ne hne, ih]
          simp [newest, hP, hne.symm]
      · have hnone : writes P [.write r] = [] := by simp [writes, hP]
        rw [hnone, List.foldl_nil, ih]
        simp [newest, hP]
    · have hnone : writes P [x] = [] := by
        cases x with
        | write r => exact absurd rfl (hx r)
        | _ => rfl
      rw [hnone, List.foldl_nil, ih, newest_cons hx]

theorem newest_append : newest P (L ++ B) lid = (newest P L lid).or (newest P B lid) := by
  induction L with
  | nil => simp [newest]
  | cons x L ih =>
    rcases x.write_or with ⟨r, rfl⟩ | hx
    · by_cases hr : P r.tid ∧ r.lid = lid
      · simp [newest, hr]
      · simp [newest, hr, ih]
    · rw [List.cons_append, newest_cons hx, newest_cons hx, ih]

theorem newest_congr (h : ∀ r, .write r ∈ L → r.lid = lid → P r.tid = Q r.tid) :
    newest P L lid = newest Q L lid := by
  induction L with
  | nil => rfl
  | cons x L ih =>
    have ih' := ih fun r hr => h r (List.mem_cons_of_mem _ hr)
    rcases x.write_or with ⟨r, rfl⟩ | hx
    · by_cases hr : r.lid = lid
      · simp [newest, hr, h r (by simp) hr, ih']
      · simp [newest, hr, ih']
    · rw [newest_cons hx, newest_cons hx, ih']

/-- The transaction has written the object. -/
def Wrote (log : List LogRecord) (t lid : Nat) : Prop := ∃ r, .write r ∈ log ∧ r.tid = t ∧ r.lid = lid

theorem newest_isSome (h : Wrote L t lid) : ∃ v, newest (· == t) L lid = some v := by
  obtain ⟨r, hr, rfl, rfl⟩ := h
  induction L with
  | nil => cases hr
  | cons x L ih =>
    rcases List.mem_cons.mp hr with rfl | hr
    · exact ⟨r.new, by simp [newest]⟩
    · obtain ⟨v, hv⟩ := ih hr
      rcases x.write_or with ⟨r', rfl⟩ | hx
      · by_cases h' : r'.tid = r.tid ∧ r'.lid = r.lid
        · exact ⟨r'.new, by simp [newest, h']⟩
        · exact ⟨v, by simpa [newest, h'] using hv⟩
      · exact ⟨v, by rw [newest_cons hx, hv]⟩

theorem newest_eq_none (h : ¬ Wrote L t lid) : newest (· == t) L lid = none := by
  have hcongr : newest (· == t) L lid = newest (fun _ => false) L lid := by
    refine newest_congr fun r hr hlid => ?_
    rw [beq_eq_false_iff_ne]
    exact fun ht => h ⟨r, hr, ht, hlid⟩
  rw [hcongr]
  clear hcongr h
  induction L with
  | nil => rfl
  | cons x L ih =>
    rcases x.write_or with ⟨r, rfl⟩ | hx
    · simpa [newest] using ih
    · rw [newest_cons hx, ih]

-- ---------------------------------------------------------------------------
-- Logs of transactions
-- ---------------------------------------------------------------------------

/-- The transaction has begun and not ended. -/
def Unfinished (log : List LogRecord) (t : Nat) : Prop :=
  .begin t ∈ log ∧ .commit t ∉ log ∧ .rollback t ∉ log

instance : Decidable (Unfinished log t) := inferInstanceAs (Decidable (_ ∧ _ ∧ _))

/-- A transaction writes and ends between its Begin and its end, and a checkpoint
has the unfinished ones. -/
structure Ordered (log : List LogRecord) : Prop where
  begin {t : Nat} {B : List LogRecord} : .begin t :: B <:+ log → .begin t ∉ B
  write {r : WriteRecord} {B : List LogRecord} : .write r :: B <:+ log → Unfinished B r.tid
  commit {t : Nat} {B : List LogRecord} : .commit t :: B <:+ log → Unfinished B t
  rollback {t : Nat} {B : List LogRecord} : .rollback t :: B <:+ log → Unfinished B t
  ckpt {tids : List Nat} {B : List LogRecord} {t : Nat} :
    .ckpt tids :: B <:+ log → (t ∈ tids ↔ Unfinished B t)
  shutdown : .shutdown ∉ log

theorem Ordered.suffix (h : Ordered L) (hs : B <:+ L) : Ordered B where
  begin hb := h.begin (hb.trans hs)
  write hb := h.write (hb.trans hs)
  commit hb := h.commit (hb.trans hs)
  rollback hb := h.rollback (hb.trans hs)
  ckpt hb := h.ckpt (hb.trans hs)
  shutdown hm := h.shutdown (hs.subset hm)

theorem exists_suffix {x : LogRecord} (h : x ∈ L) : ∃ B, x :: B <:+ L := by
  obtain ⟨A, B, rfl⟩ := List.append_of_mem h
  exact ⟨B, List.suffix_append A _⟩

theorem Ordered.begin_of_write (h : Ordered L) (hr : .write r ∈ L) : .begin r.tid ∈ L := by
  obtain ⟨B, hB⟩ := exists_suffix hr
  exact hB.subset (List.mem_cons_of_mem _ (h.write hB).1)

theorem Ordered.begin_of_commit (h : Ordered L) (hr : .commit t ∈ L) : .begin t ∈ L := by
  obtain ⟨B, hB⟩ := exists_suffix hr
  exact hB.subset (List.mem_cons_of_mem _ (h.commit hB).1)

theorem Ordered.begin_of_rollback (h : Ordered L) (hr : .rollback t ∈ L) : .begin t ∈ L := by
  obtain ⟨B, hB⟩ := exists_suffix hr
  exact hB.subset (List.mem_cons_of_mem _ (h.rollback hB).1)

theorem Ordered.not_wrote (h : Ordered L) (ht : .begin t ∉ L) : ¬ Wrote L t lid := by
  rintro ⟨r, hr, rfl, -⟩
  exact ht (h.begin_of_write hr)

/-- One more record, with what it asks of the log. -/
theorem Ordered.cons {x : LogRecord} (h : Ordered L)
    (hb : ∀ t, x = .begin t → .begin t ∉ L)
    (hw : ∀ r, x = .write r → Unfinished L r.tid)
    (hc : ∀ t, x = .commit t ∨ x = .rollback t → Unfinished L t)
    (hk : ∀ tids, x = .ckpt tids → ∀ t, t ∈ tids ↔ Unfinished L t)
    (hs : x ≠ .shutdown) : Ordered (x :: L) := by
  refine ⟨fun hB => ?_, fun hB => ?_, fun hB => ?_, fun hB => ?_, fun hB => ?_, ?_⟩
  · rcases List.suffix_cons_iff.mp hB with heq | hB
    · cases heq
      exact hb _ rfl
    · exact h.begin hB
  · rcases List.suffix_cons_iff.mp hB with heq | hB
    · cases heq
      exact hw _ rfl
    · exact h.write hB
  · rcases List.suffix_cons_iff.mp hB with heq | hB
    · cases heq
      exact hc _ (.inl rfl)
    · exact h.commit hB
  · rcases List.suffix_cons_iff.mp hB with heq | hB
    · cases heq
      exact hc _ (.inr rfl)
    · exact h.rollback hB
  · rcases List.suffix_cons_iff.mp hB with heq | hB
    · cases heq
      exact hk _ rfl _
    · exact h.ckpt hB
  · intro hm
    rcases List.mem_cons.mp hm with heq | hm
    · exact hs heq.symm
    · exact h.shutdown hm

/-- The old values that a transaction has logged follow from what it wrote before,
and from the base. -/
def Chained (t : Nat) (m : Nat → Option Content) (log : List LogRecord) : Prop :=
  ∀ r B, .write r :: B <:+ log → r.tid = t → r.old = (newest (· == t) B r.lid).getD (m r.lid)

structure History (log : List LogRecord) : Prop where
  ordered : Ordered log
  whole {r : WriteRecord} : .write r ∈ log → r.Whole
  exclusive {t u lid : Nat} :
    Unfinished log t → Unfinished log u → Wrote log t lid → Wrote log u lid → t = u
  chained {t : Nat} : Unfinished log t → Chained t (base log) log
  /-- Nobody has written the object since. -/
  last {t lid : Nat} : Unfinished log t → Wrote log t lid →
    newest (fun u => committed log u || u == t) log lid = newest (· == t) log lid

-- ---------------------------------------------------------------------------
-- One more record
-- ---------------------------------------------------------------------------

variable {x : LogRecord} {m m' : Nat → Option Content}

theorem wrote_cons (hx : ∀ r, x ≠ .write r) : Wrote (x :: L) t lid ↔ Wrote L t lid := by
  unfold Wrote
  refine exists_congr fun r => and_congr_left fun _ => ?_
  rw [List.mem_cons, or_iff_right (hx r).symm]

theorem wrote_write : Wrote (.write r :: L) t lid ↔ (r.tid = t ∧ r.lid = lid) ∨ Wrote L t lid := by
  constructor
  · rintro ⟨r', hr', ht, hl⟩
    rcases List.mem_cons.mp hr' with heq | hr'
    · cases heq
      exact .inl ⟨ht, hl⟩
    · exact .inr ⟨r', hr', ht, hl⟩
  · rintro (⟨ht, hl⟩ | ⟨r', hr', ht, hl⟩)
    · exact ⟨r, by simp, ht, hl⟩
    · exact ⟨r', List.mem_cons_of_mem _ hr', ht, hl⟩

theorem unfinished_cons (hb : ∀ t, x ≠ .begin t) (hc : ∀ t, x ≠ .commit t)
    (hr : ∀ t, x ≠ .rollback t) : Unfinished (x :: L) t ↔ Unfinished L t := by
  simp only [Unfinished, List.mem_cons, (hb t).symm, (hc t).symm, (hr t).symm, false_or]

theorem unfinished_end (h : x = .commit t ∨ x = .rollback t) :
    Unfinished (x :: L) u ↔ Unfinished L u ∧ u ≠ t := by
  rcases h with rfl | rfl
  · simp only [Unfinished, List.mem_cons, reduceCtorEq, LogRecord.commit.injEq, false_or]
    tauto
  · simp only [Unfinished, List.mem_cons, reduceCtorEq, LogRecord.rollback.injEq, false_or]
    tauto

theorem committed_cons (hc : ∀ t, x ≠ .commit t) : committed (x :: L) = committed L := by
  funext t
  simp [committed, (hc t).symm]

theorem committed_commit : committed (.commit t :: L) u = (committed L u || u == t) := by
  rw [Bool.eq_iff_iff]
  simp [committed, or_comm]

theorem not_committed (h : Unfinished L t) : committed L t = false := by
  simpa [committed] using h.2.1

theorem base_cons (hx : ∀ r, x ≠ .write r) (hc : ∀ t, x ≠ .commit t) : base (x :: L) = base L := by
  funext lid
  rw [base, newest_cons hx, committed_cons hc, base]

/-- A transaction that has not committed does not change the base. -/
theorem base_write (h : Unfinished L r.tid) : base (.write r :: L) = base L := by
  funext lid
  have hnot := not_committed h
  rw [base, committed_cons (x := .write r) (fun _ => nofun), base]
  simp [newest, hnot]

theorem Chained.cons (h : Chained t m L) (hx : ∀ r, x ≠ .write r) : Chained t m (x :: L) := by
  intro r B hB ht
  rcases List.suffix_cons_iff.mp hB with heq | hB
  · cases heq
    exact absurd rfl (hx r)
  · exact h r B hB ht

theorem Chained.congr (h : Chained t m L) (hm : ∀ lid, Wrote L t lid → m' lid = m lid) :
    Chained t m' L := by
  intro r B hB ht
  rw [h r B hB ht, hm r.lid ⟨r, hB.subset (by simp), ht, rfl⟩]

theorem Chained.suffix (h : Chained t m L) (hB : B <:+ L) : Chained t m B :=
  fun r A hA => h r A (hA.trans hB)

theorem history_nil : History [] := by
  refine ⟨⟨?_, ?_, ?_, ?_, ?_, ?_⟩, ?_, ?_, ?_, ?_⟩
  all_goals simp [Unfinished]

/-- A Begin record, of a transaction that is not in the log yet. -/
theorem History.begin (h : History L) (ht : .begin t ∉ L) : History (.begin t :: L) := by
  have hx (r : WriteRecord) : LogRecord.begin t ≠ .write r := nofun
  have hc (u : Nat) : LogRecord.begin t ≠ .commit u := nofun
  have hun (u : Nat) (hu : Unfinished (.begin t :: L) u) : u = t ∨ Unfinished L u := by
    refine or_iff_not_imp_left.mpr fun hne => ?_
    simpa [Unfinished, hne] using hu
  have hself (lid : Nat) : ¬ Wrote L t lid := h.ordered.not_wrote ht
  refine ⟨h.ordered.cons (fun u hu => ?_) (fun _ => nofun) nofun nofun nofun, fun hr => ?_,
    fun hu hv hwu hwv => ?_, fun hu => ?_, fun hu hw => ?_⟩
  · cases hu
    exact ht
  · exact h.whole ((List.mem_cons.mp hr).resolve_left nofun)
  · rw [wrote_cons hx] at hwu hwv
    rcases hun _ hu with rfl | hu
    · exact absurd hwu (hself _)
    · rcases hun _ hv with rfl | hv
      · exact absurd hwv (hself _)
      · exact h.exclusive hu hv hwu hwv
  · rw [base_cons hx hc]
    refine Chained.cons ?_ hx
    rcases hun _ hu with rfl | hu
    · intro r B hB hr
      exact absurd ⟨r, hB.subset (by simp), hr, rfl⟩ (hself r.lid)
    · exact h.chained hu
  · rw [wrote_cons hx] at hw
    rw [newest_cons hx, newest_cons hx, committed_cons hc]
    rcases hun _ hu with rfl | hu
    · exact absurd hw (hself _)
    · exact h.last hu hw

/-- A write of an object that no other unfinished transaction has written. -/
theorem History.write (h : History L) (hr : Unfinished L r.tid) (hw : r.Whole)
    (hex : ∀ u, Unfinished L u → Wrote L u r.lid → u = r.tid)
    (hold : r.old = (newest (· == r.tid) L r.lid).getD (base L r.lid)) :
    History (.write r :: L) := by
  have hun (u : Nat) : Unfinished (.write r :: L) u ↔ Unfinished L u :=
    unfinished_cons nofun nofun nofun
  have honly (u lid : Nat) (hu : Unfinished L u) (hwu : Wrote (.write r :: L) u lid) :
      lid = r.lid ∧ u = r.tid ∨ lid ≠ r.lid ∧ Wrote L u lid := by
    rcases eq_or_ne lid r.lid with rfl | hne
    · rcases wrote_write.mp hwu with ⟨ht, -⟩ | hwu
      · exact .inl ⟨rfl, ht.symm⟩
      · exact .inl ⟨rfl, hex u hu hwu⟩
    · exact .inr ⟨hne, (wrote_write.mp hwu).resolve_left fun hl => hne hl.2.symm⟩
  refine ⟨h.ordered.cons nofun (fun r' hr' => ?_) nofun nofun nofun, fun hr' => ?_,
    fun hu hv hwu hwv => ?_, fun hu => ?_, fun hu hwu => ?_⟩
  · cases hr'
    exact hr
  · rcases List.mem_cons.mp hr' with heq | hr'
    · cases heq
      exact hw
    · exact h.whole hr'
  · rw [hun] at hu hv
    rcases honly _ _ hu hwu with ⟨rfl, rfl⟩ | ⟨hne, hwu⟩
    · exact ((honly _ _ hv hwv).resolve_right fun hx => hx.1 rfl).2.symm
    · exact h.exclusive hu hv hwu ((honly _ _ hv hwv).resolve_left fun hx => hne hx.1).2
  · rw [hun] at hu
    rw [base_write hr]
    intro r' B hB ht
    rcases List.suffix_cons_iff.mp hB with heq | hB
    · cases heq
      subst ht
      exact hold
    · exact h.chained hu r' B hB ht
  · rw [hun] at hu
    rw [committed_cons (x := .write r) (fun _ => nofun)]
    rcases honly _ _ hu hwu with ⟨rfl, rfl⟩ | ⟨hne, hwu⟩
    · simp [newest]
    · simpa [newest, hne.symm] using h.last hu hwu

/-- The objects of a transaction that commits get a new base. -/
theorem base_commit (h : History L) (ht : Unfinished L t) :
    base (.commit t :: L) lid = (newest (· == t) L lid).getD (base L lid) := by
  rw [base, newest_cons (x := .commit t) (fun _ => nofun)]
  by_cases hw : Wrote L t lid
  · obtain ⟨v, hv⟩ := newest_isSome hw
    have hlast := h.last ht hw
    rw [hv] at hlast ⊢
    rw [newest_congr (Q := fun u => committed L u || u == t) fun r _ _ => committed_commit, hlast]
    rfl
  · rw [newest_eq_none hw, Option.getD_none, base]
    congr 1
    refine newest_congr fun r hr hlid => ?_
    have hne : r.tid ≠ t := fun heq => hw ⟨r, hr, heq, hlid⟩
    rw [committed_commit]
    simp [hne]

theorem History.commit (h : History L) (ht : Unfinished L t) : History (.commit t :: L) := by
  have hx (r : WriteRecord) : LogRecord.commit t ≠ .write r := nofun
  have hun (u : Nat) : Unfinished (.commit t :: L) u ↔ Unfinished L u ∧ u ≠ t :=
    unfinished_end (.inl rfl)
  have hother (u lid : Nat) (hu : Unfinished L u ∧ u ≠ t) (hw : Wrote L u lid) : ¬ Wrote L t lid :=
    fun hwt => hu.2 (h.exclusive hu.1 ht hw hwt)
  refine ⟨h.ordered.cons nofun (fun _ => nofun) (fun u hu => ?_) nofun nofun, fun hr => ?_,
    fun hu hv hwu hwv => ?_, fun hu => ?_, fun hu hwu => ?_⟩
  · rcases hu with hu | hu
    · cases hu
      exact ht
    · cases hu
  · exact h.whole ((List.mem_cons.mp hr).resolve_left nofun)
  · rw [hun] at hu hv
    rw [wrote_cons hx] at hwu hwv
    exact h.exclusive hu.1 hv.1 hwu hwv
  · rw [hun] at hu
    refine ((h.chained hu.1).congr fun lid hw => ?_).cons hx
    rw [base_commit h ht, newest_eq_none (hother _ _ hu hw), Option.getD_none]
  · rw [hun] at hu
    rw [wrote_cons hx] at hwu
    rw [newest_cons hx, newest_cons hx, ← h.last hu.1 hwu]
    refine newest_congr fun r hr hlid => ?_
    have hne : r.tid ≠ t := fun heq => hother _ _ hu hwu ⟨r, hr, heq, hlid⟩
    simp only [committed_commit, beq_eq_false_iff_ne.mpr hne, Bool.or_false]

theorem History.rollback (h : History L) (ht : Unfinished L t) : History (.rollback t :: L) := by
  have hx (r : WriteRecord) : LogRecord.rollback t ≠ .write r := nofun
  have hc (u : Nat) : LogRecord.rollback t ≠ .commit u := nofun
  have hun (u : Nat) : Unfinished (.rollback t :: L) u ↔ Unfinished L u ∧ u ≠ t :=
    unfinished_end (.inr rfl)
  refine ⟨h.ordered.cons nofun (fun _ => nofun) (fun u hu => ?_) nofun nofun, fun hr => ?_,
    fun hu hv hwu hwv => ?_, fun hu => ?_, fun hu hwu => ?_⟩
  · rcases hu with hu | hu
    · cases hu
    · cases hu
      exact ht
  · exact h.whole ((List.mem_cons.mp hr).resolve_left nofun)
  · rw [hun] at hu hv
    rw [wrote_cons hx] at hwu hwv
    exact h.exclusive hu.1 hv.1 hwu hwv
  · rw [hun] at hu
    rw [base_cons hx hc]
    exact (h.chained hu.1).cons hx
  · rw [hun] at hu
    rw [wrote_cons hx] at hwu
    rw [newest_cons hx, newest_cons hx, committed_cons hc]
    exact h.last hu.1 hwu

/-- A record of the checkpoint. -/
theorem History.mark (h : History L) (hx : x = .endCkpt ∨ ∃ tids, x = .ckpt tids ∧
    ∀ t, t ∈ tids ↔ Unfinished L t) : History (x :: L) := by
  have hw (r : WriteRecord) : x ≠ .write r := by
    rcases hx with rfl | ⟨tids, rfl, -⟩ <;> exact nofun
  have hb (t : Nat) : x ≠ .begin t := by
    rcases hx with rfl | ⟨tids, rfl, -⟩ <;> exact nofun
  have hc (t : Nat) : x ≠ .commit t := by
    rcases hx with rfl | ⟨tids, rfl, -⟩ <;> exact nofun
  have hr (t : Nat) : x ≠ .rollback t := by
    rcases hx with rfl | ⟨tids, rfl, -⟩ <;> exact nofun
  refine ⟨h.ordered.cons (fun t ht => absurd ht (hb t)) (fun r hr => absurd hr (hw r))
      (fun t ht => absurd ht (not_or.mpr ⟨hc t, hr t⟩)) (fun tids ht => ?_) ?_, fun hr' => ?_,
    fun hu hv hwu hwv => ?_, fun hu => ?_, fun hu hwu => ?_⟩
  · rcases hx with rfl | ⟨tids', rfl, hk⟩
    · cases ht
    · cases ht
      exact hk
  · rcases hx with rfl | ⟨tids, rfl, -⟩ <;> exact nofun
  · exact h.whole ((List.mem_cons.mp hr').resolve_left (hw _).symm)
  · rw [unfinished_cons hb hc hr] at hu hv
    rw [wrote_cons hw] at hwu hwv
    exact h.exclusive hu hv hwu hwv
  · rw [unfinished_cons hb hc hr] at hu
    rw [base_cons hw hc]
    exact (h.chained hu).cons hw
  · rw [unfinished_cons hb hc hr] at hu
    rw [wrote_cons hw] at hwu
    rw [newest_cons hw, newest_cons hw, committed_cons hc]
    exact h.last hu hwu

end Loxim.Log
