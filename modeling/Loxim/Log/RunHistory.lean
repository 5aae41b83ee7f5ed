import Loxim.Log.LogRun

/-!
# A run leaves a history that can be recovered

An object that no unfinished transaction has written is at its base, and one that
such a transaction has written is as its last write says that is not undone yet
(`Seen`). A change counts as made from its record on.
-/

namespace Loxim.Log

open Store

variable {L : List LogRecord} {x : LogRecord} {t u lid : Nat} {r : WriteRecord} {g : Stage}
  {v : Nat → Option Content} {n n' : Nat → List LogRecord} {s s' : System} {R R' : Nat → Prop}

/-- The transaction is unfinished and has written the object. -/
def Holds (log : List LogRecord) (t lid : Nat) : Prop := Unfinished log t ∧ Wrote log t lid

structure Seen (log : List LogRecord) (v : Nat → Option Content) (unread : Nat → List LogRecord) :
    Prop where
  free {lid : Nat} : (∀ t, ¬ Holds log t lid) → v lid = base log lid
  held {t lid : Nat} : Holds log t lid →
    v lid = (newest (· == t) (unread t) lid).getD (base log lid)

theorem Seen.congr (h : Seen L v n)
    (hn : ∀ t lid, Unfinished L t → newest (· == t) (n' t) lid = newest (· == t) (n t) lid) :
    Seen L v n' := by
  refine ⟨h.free, fun {t lid} ht => ?_⟩
  rw [hn t lid ht.1]
  exact h.held ht

/-- A record that is no write and no end. -/
theorem Seen.mark (h : Seen L v n) (hL : Ordered (x :: L)) (hw : ∀ r, x ≠ .write r)
    (hc : ∀ t, x ≠ .commit t) (hr : ∀ t, x ≠ .rollback t) : Seen (x :: L) v n := by
  have hholds (t lid : Nat) : Holds (x :: L) t lid ↔ Holds L t lid := by
    unfold Holds
    rw [wrote_cons hw]
    refine and_congr_left fun hwrote => ?_
    obtain ⟨r, hr', rfl, -⟩ := hwrote
    have hbegin := (hL.suffix (List.suffix_cons x L)).begin_of_write hr'
    simp [Unfinished, (hc r.tid).symm, (hr r.tid).symm, hbegin]
  refine ⟨fun hfree => ?_, fun ht => ?_⟩
  · rw [base_cons hw hc]
    exact h.free fun t => (hholds t _).not.mp (hfree t)
  · rw [base_cons hw hc]
    exact h.held ((hholds _ _).mp ht)

theorem holds_end (hx : x = .commit t ∨ x = .rollback t) :
    Holds (x :: L) u lid ↔ Holds L u lid ∧ u ≠ t := by
  have hw (r : WriteRecord) : x ≠ .write r := by
    rcases hx with rfl | rfl <;> exact nofun
  unfold Holds
  rw [unfinished_end hx, wrote_cons hw]
  tauto

/-- Who has written an object and not undone it commits. -/
theorem Seen.commit (h : Seen L v n) (hL : History L) (ht : Unfinished L t) (hn : n t = L) :
    Seen (.commit t :: L) v n := by
  refine ⟨fun {lid} hfree => ?_, fun {u lid} hu => ?_⟩
  · rw [base_commit hL ht]
    by_cases hw : Wrote L t lid
    · rw [h.held ⟨ht, hw⟩, hn]
    · rw [newest_eq_none hw, Option.getD_none]
      refine h.free fun u hu => ?_
      rcases eq_or_ne u t with rfl | hne
      · exact hw hu.2
      · exact hfree u ((holds_end (.inl rfl)).mpr ⟨hu, hne⟩)
  · obtain ⟨hu, hne⟩ := (holds_end (.inl rfl)).mp hu
    have hw : ¬ Wrote L t lid := fun hw => hne (hL.exclusive hu.1 ht hu.2 hw)
    rw [base_commit hL ht, newest_eq_none hw, Option.getD_none]
    exact h.held hu

theorem Seen.rollback (h : Seen L v n) (hn : n t = []) : Seen (.rollback t :: L) v n := by
  have hbase : base (.rollback t :: L) = base L := base_cons (fun _ => nofun) (fun _ => nofun)
  refine ⟨fun {lid} hfree => ?_, fun hu => ?_⟩
  · rw [hbase]
    by_cases hw : Holds L t lid
    · rw [h.held hw, hn]
      rfl
    · refine h.free fun u hu => ?_
      rcases eq_or_ne u t with rfl | hne
      · exact hw hu
      · exact hfree u ((holds_end (.inr rfl)).mpr ⟨hu, hne⟩)
  · rw [hbase]
    exact h.held ((holds_end (.inr rfl)).mp hu).1

theorem holds_write (ht : Unfinished L r.tid) :
    Holds (.write r :: L) u lid ↔ (r.tid = u ∧ r.lid = lid) ∨ Holds L u lid := by
  have hun : Unfinished (.write r :: L) u ↔ Unfinished L u := unfinished_cons nofun nofun nofun
  unfold Holds
  rw [hun, wrote_write]
  constructor
  · rintro ⟨hu, hw | hw⟩
    · exact .inl hw
    · exact .inr ⟨hu, hw⟩
  · rintro (⟨rfl, hlid⟩ | ⟨hu, hw⟩)
    · exact ⟨ht, .inl ⟨rfl, hlid⟩⟩
    · exact ⟨hu, .inr hw⟩

/-- The record of a change is pushed by the only transaction on the object. -/
theorem Seen.write (h : Seen L v n) (ht : Unfinished L r.tid) (hn : n r.tid = L)
    (ha : System.Alone L r.tid r.lid) :
    Seen (.write r :: L) (Function.update v r.lid r.new)
      (Function.update n r.tid (.write r :: L)) := by
  refine ⟨fun {lid} hfree => ?_, fun {u lid} hu => ?_⟩
  · have hne : lid ≠ r.lid := by
      rintro rfl
      exact hfree r.tid ((holds_write ht).mpr (.inl ⟨rfl, rfl⟩))
    rw [base_write ht, Function.update_of_ne hne]
    exact h.free fun u hu => hfree u ((holds_write ht).mpr (.inr hu))
  · rw [base_write ht]
    rcases eq_or_ne lid r.lid with rfl | hne
    · have hself : u = r.tid := by
        rcases (holds_write ht).mp hu with ⟨heq, -⟩ | hu
        · exact heq.symm
        · exact ha u hu.1 hu.2
      rw [hself, Function.update_self, Function.update_self]
      simp [newest]
    · have hold : Holds L u lid := ((holds_write ht).mp hu).resolve_left fun hx => hne hx.2.symm
      rw [Function.update_of_ne hne, h.held hold]
      rcases eq_or_ne u r.tid with rfl | hu
      · rw [Function.update_self, hn]
        simp [newest, hne.symm]
      · rw [Function.update_of_ne hu]

/-- A write is undone by the transaction that made it. -/
theorem Seen.undo {rest : List LogRecord} (h : Seen L v n) (hL : History L)
    (ht : Unfinished L r.tid) (hn : n r.tid = .write r :: rest) (hrest : .write r :: rest <:+ L) :
    Seen L (Function.update v r.lid r.old) (Function.update n r.tid rest) := by
  have hself : Holds L r.tid r.lid := ⟨ht, r, hrest.subset (by simp), rfl, rfl⟩
  refine ⟨fun {lid} hfree => ?_, fun {u lid} hu => ?_⟩
  · have hne : lid ≠ r.lid := by
      rintro rfl
      exact hfree r.tid hself
    rw [Function.update_of_ne hne]
    exact h.free hfree
  · rcases eq_or_ne lid r.lid with rfl | hne
    · have hu : u = r.tid := hL.exclusive hu.1 ht hu.2 hself.2
      rw [hu, Function.update_self, Function.update_self]
      exact hL.chained ht r rest hrest rfl
    · rw [Function.update_of_ne hne, h.held hu]
      rcases eq_or_ne u r.tid with rfl | hu
      · rw [Function.update_self, hn]
        simp [newest, hne.symm]
      · rw [Function.update_of_ne hu]

-- ---------------------------------------------------------------------------
-- The invariant
-- ---------------------------------------------------------------------------

namespace Stage

def aborted : Stage → Bool
  | .undoing _ | .undone | .failed | .rolledBack => true
  | .unborn | .entered | .running | .committed => false

/-- Before its end, and from the active list on. -/
def present : Stage → Bool
  | .entered | .running | .undoing _ | .undone | .failed => true
  | .unborn | .committed | .rolledBack => false

/-- What a rollback has not read yet. -/
def unread (log : List LogRecord) : Stage → List LogRecord
  | .undoing rest => rest
  | .undone => []
  | .unborn | .entered | .running | .committed | .failed | .rolledBack => log

/-- The log has what the transaction has logged. -/
def Placed (log : List LogRecord) (t : Nat) : Stage → Prop
  | .unborn | .entered => .begin t ∉ log
  | .running | .undone => Unfinished log t
  | .undoing rest => Unfinished log t ∧ rest <:+ log ∧ .begin t ∈ rest
  | .failed => False
  | .committed => .commit t ∈ log
  | .rolledBack => .rollback t ∈ log ∧ .commit t ∉ log

theorem Placed.cons (h : Placed L t g) (hb : x ≠ .begin t) (hc : x ≠ .commit t)
    (hr : x ≠ .rollback t) : Placed (x :: L) t g := by
  cases g with
  | undoing rest =>
    obtain ⟨hun, hrest, hbegin⟩ := h
    exact ⟨by simpa [Unfinished, hb.symm, hc.symm, hr.symm] using hun,
      hrest.trans (List.suffix_cons x L), hbegin⟩
  | failed => exact h
  | _ => simpa [Placed, Unfinished, hb.symm, hc.symm, hr.symm] using h

theorem Placed.unfinished (h : Placed L t g) (hu : Unfinished L t) :
    g = .running ∨ g = .undone ∨ ∃ rest, g = .undoing rest := by
  cases g with
  | running => exact .inl rfl
  | undone => exact .inr (.inl rfl)
  | undoing rest => exact .inr (.inr ⟨rest, rfl⟩)
  | unborn => exact absurd hu.1 h
  | entered => exact absurd hu.1 h
  | failed => exact h.elim
  | committed => exact absurd h hu.2.1
  | rolledBack => exact absurd h.1 hu.2.2

theorem Placed.not_committed (h : Placed L t g) (hg : g.aborted = true) : .commit t ∉ L := by
  cases g with
  | undoing rest => exact h.1.2.1
  | undone => exact h.2.1
  | failed => exact h.elim
  | rolledBack => exact h.2
  | _ => cases hg

end Stage

/-- A store from which the log behind a checkpoint can be recovered. -/
structure Recoverable (s : DBStoreManager) (log : List LogRecord) (R : Nat → Prop) : Prop where
  history : History log
  consistent : Consistent s log R

theorem Recoverable.mono {s : DBStoreManager} (h : Recoverable s L R) (hR : ∀ t, R' t → R t) :
    Recoverable s L R' :=
  ⟨h.history, h.consistent.sound, h.consistent.free, fun ht => h.consistent.owned (hR _ ht)⟩

namespace System

/-- What the log says is stored. -/
def view (s : System) : Nat → Option Content :=
  match s.work with
  | some ⟨_, c :: _, true⟩ => Function.update (content s.store) c.r.lid c.r.new
  | _ => content s.store

theorem view_of_not_logged (h : ∀ w ∈ s.work, w.logged = false) : s.view = content s.store := by
  unfold view
  split
  · rename_i hw
    exact absurd (h _ hw) (by simp)
  · rfl

/-- The changes that are left are the transaction's own, on an object that it has
for itself, and each starts from what is there then. -/
structure Planned (s : System) (w : Work) : Prop where
  running : s.stage w.tid = .running
  mine {c : Change} : c ∈ w.changes → c.r.tid = w.tid
  whole {c : Change} : c ∈ w.changes → c.r.Whole
  assigned {c : Change} : c ∈ w.changes → c.r.lid ≤ s.store.lastAssigned
  alone {c : Change} : c ∈ w.changes → Alone s.log w.tid c.r.lid
  first : w.logged = false → ∀ c ∈ w.changes.head?, c.r.old = content s.store c.r.lid
  follow : w.changes.IsChain fun c c' => c'.r.lid = c.r.lid ∧ c'.r.old = c.r.new

structure Inv (s : System) : Prop where
  history : History s.log
  sound : s.store.Sound
  assigned {r : WriteRecord} : .write r ∈ s.log → r.lid ≤ s.store.lastAssigned
  placed (t : Nat) : (s.stage t).Placed s.log t
  fresh {t : Nat} : s.transactionId ≤ t → s.stage t = .unborn
  active {t : Nat} : (s.stage t).present = true → t ∈ s.active
  seen : Seen s.log s.view fun t => (s.stage t).unread s.log
  planned {w : Work} : w ∈ s.work → s.Planned w
  saved : Recoverable s.saved (cut false s.log) fun t => (s.stage t).aborted = false
  ckpt {d : DBStoreManager} : d ∈ s.ckpt →
    Recoverable d (cut true s.log) fun t => (s.stage t).aborted = false

theorem inv_init (n : Nat) : Inv { transactionId := n } := by
  have hbase : base [] = fun _ => none := rfl
  have hcontent : content {} = fun _ => none := by
    funext lid
    simp [content, DBStoreManager.object]
  refine ⟨history_nil, DBStoreManager.sound_init, by rintro _ ⟨⟩, fun t => ?_, fun _ => rfl,
    by rintro _ ⟨⟩, ?_, by rintro _ ⟨⟩, ⟨history_nil, DBStoreManager.sound_init, fun _ => ?_, ?_⟩,
    by rintro _ ⟨⟩⟩
  · exact List.not_mem_nil
  · refine ⟨fun _ => ?_, fun ht => ?_⟩
    · rw [view_of_not_logged (by simp), hcontent, hbase]
    · cases ht.1.1
  · rw [hcontent]
    rfl
  · intro t lid _ ht
    cases ht.1

-- ---------------------------------------------------------------------------
-- Records of a transaction and of a checkpoint
-- ---------------------------------------------------------------------------

theorem newest_unread {P : Nat → Bool} (hx : ∀ r, x ≠ .write r) :
    newest P (g.unread (x :: L)) lid = newest P (g.unread L) lid := by
  cases g with
  | undoing rest => rfl
  | undone => rfl
  | _ => exact congrFun (newest_cons hx) lid

theorem Inv.lt_of_ne (h : s.Inv) (ht : s.stage t ≠ .unborn) : t < s.transactionId := by
  by_contra hle
  exact ht (h.fresh (not_lt.mp hle))

/-- Who is at work is running. -/
theorem Inv.not_at_work (h : s.Inv) (ht : s.stage t ≠ .running) : ∀ w ∈ s.work, w.tid ≠ t := by
  rintro w hw rfl
  exact ht (h.planned hw).running

theorem Planned.congr {w : Work} (h : s.Planned w) (hstage : s'.stage w.tid = s.stage w.tid)
    (hlast : s.store.lastAssigned ≤ s'.store.lastAssigned)
    (hcontent : ∀ c ∈ w.changes, content s'.store c.r.lid = content s.store c.r.lid)
    (hholds : ∀ u lid, Holds s'.log u lid → Holds s.log u lid) : s'.Planned w where
  running := by rw [hstage, h.running]
  mine := h.mine
  whole := h.whole
  assigned hc := (h.assigned hc).trans hlast
  alone hc u hu hw := h.alone hc u (hholds u _ ⟨hu, hw⟩).1 (hholds u _ ⟨hu, hw⟩).2
  first hl c hc := by rw [hcontent c (List.mem_of_mem_head? hc), h.first hl c hc]
  follow := h.follow

/-- Begin and the ends: one transaction pushes a record and goes on. -/
theorem Inv.record (h : s.Inv) (hx : x = .begin t ∨ x = .commit t ∨ x = .rollback t)
    (hH : History (x :: s.log)) (hborn : s.stage t ≠ .unborn) (hg : g.Placed (x :: s.log) t)
    (hw : ∀ w ∈ s.work, w.tid ≠ t) (haborted : (s.stage t).aborted = true → g.aborted = true)
    (hpresent : g.present = true → t ∈ s.active)
    (hseen : Seen (x :: s.log) s.view fun u => (s.stage u).unread s.log)
    (hunread : Unfinished (x :: s.log) t → ∀ lid,
      newest (· == t) (g.unread (x :: s.log)) lid = newest (· == t) ((s.stage t).unread s.log) lid)
    (hholds : ∀ u lid, Holds (x :: s.log) u lid → Holds s.log u lid) :
    ((s.push x).setStage t g).Inv := by
  have hnotwrite (r : WriteRecord) : x ≠ .write r := by
    rcases hx with rfl | rfl | rfl <;> exact nofun
  have hcut (b : Bool) : cut b (x :: s.log) = cut b s.log := by
    rcases hx with rfl | rfl | rfl <;> rfl
  have hother (u : Nat) (hu : u ≠ t) : x ≠ .begin u ∧ x ≠ .commit u ∧ x ≠ .rollback u := by
    rcases hx with rfl | rfl | rfl <;> simp [hu.symm]
  have hstage (u : Nat) (hu : u ≠ t) : ((s.push x).setStage t g).stage u = s.stage u :=
    Function.update_of_ne hu ..
  have hself : ((s.push x).setStage t g).stage t = g := Function.update_self ..
  have hR (u : Nat) (hu : (((s.push x).setStage t g).stage u).aborted = false) :
      (s.stage u).aborted = false := by
    rcases eq_or_ne u t with rfl | hne
    · rw [hself] at hu
      cases ha : (s.stage u).aborted with
      | false => rfl
      | true => rw [haborted ha] at hu; cases hu
    · rwa [hstage u hne] at hu
  refine ⟨hH, h.sound, fun hr => ?_, fun u => ?_, fun {u} hu => ?_, fun {u} hu => ?_, ?_,
    fun {w} hwork => ?_, ?_, fun hd => ?_⟩
  · exact h.assigned ((List.mem_cons.mp hr).resolve_left (hnotwrite _).symm)
  · rcases eq_or_ne u t with rfl | hne
    · rw [hself]
      exact hg
    · rw [hstage u hne]
      exact (h.placed u).cons (hother u hne).1 (hother u hne).2.1 (hother u hne).2.2
  · have hne : u ≠ t := by
      rintro rfl
      exact hborn (h.fresh hu)
    rw [hstage u hne]
    exact h.fresh hu
  · rcases eq_or_ne u t with rfl | hne
    · rw [hself] at hu
      exact hpresent hu
    · rw [hstage u hne] at hu
      exact h.active hu
  · refine hseen.congr fun u lid hu => ?_
    rcases eq_or_ne u t with rfl | hne
    · rw [hself]
      exact hunread hu lid
    · rw [hstage u hne]
      exact newest_unread hnotwrite
  · exact (h.planned hwork).congr (hstage _ (hw w hwork)) (Nat.le_refl _) (fun _ _ => rfl) hholds
  · have hsaved := h.saved.mono hR
    rwa [← hcut] at hsaved
  · have hckpt := (h.ckpt hd).mono hR
    rwa [← hcut] at hckpt

theorem Inv.begin (h : s.Inv) (ht : s.stage t = .entered) :
    ((s.push (.begin t)).setStage t .running).Inv := by
  have hbegin : .begin t ∉ s.log := by simpa [ht, Stage.Placed] using h.placed t
  have hH := h.history.begin hbegin
  have hcommit : .commit t ∉ s.log := fun hc => hbegin (h.history.ordered.begin_of_commit hc)
  have hrollback : .rollback t ∉ s.log := fun hr => hbegin (h.history.ordered.begin_of_rollback hr)
  have hnot (r : WriteRecord) : LogRecord.begin t ≠ .write r := nofun
  refine h.record (.inl rfl) hH (by simp [ht]) ?_ (h.not_at_work (by simp [ht])) (by simp [ht, Stage.aborted])
    (fun _ => h.active (by simp [ht, Stage.present])) (h.seen.mark hH.ordered (fun _ => nofun)
      nofun nofun) (fun _ lid => ?_) fun u lid hu => ?_
  · exact ⟨List.mem_cons_self, by simpa using hcommit, by simpa using hrollback⟩
  · rw [ht]
    exact congrFun (newest_cons hnot) lid
  · obtain ⟨hun, hw⟩ := hu
    rw [wrote_cons hnot] at hw
    have hne : u ≠ t := by
      rintro rfl
      exact h.history.ordered.not_wrote hbegin hw
    exact ⟨by simpa [Unfinished, hne] using hun, hw⟩

theorem Inv.commit (h : s.Inv) (ht : s.stage t = .running) (hw : ∀ w ∈ s.work, w.tid ≠ t) :
    ((s.push (.commit t)).setStage t .committed).Inv := by
  have hun : Unfinished s.log t := by simpa [ht, Stage.Placed] using h.placed t
  refine h.record (.inr (.inl rfl)) (h.history.commit hun) (by simp [ht]) List.mem_cons_self hw
    (by simp [ht, Stage.aborted]) nofun (h.seen.commit h.history hun (by rw [ht]; rfl))
    (fun hun' => absurd List.mem_cons_self hun'.2.1) fun u lid hu => ?_
  exact ((holds_end (.inl rfl)).mp hu).1

theorem Inv.rollback (h : s.Inv) (ht : s.stage t = .undone) :
    ((s.push (.rollback t)).setStage t .rolledBack).Inv := by
  have hun : Unfinished s.log t := by simpa [ht, Stage.Placed] using h.placed t
  refine h.record (.inr (.inr rfl)) (h.history.rollback hun) (by simp [ht])
    ⟨List.mem_cons_self, by simpa using hun.2.1⟩ (h.not_at_work (by simp [ht])) (fun _ => rfl)
    nofun (h.seen.rollback (by rw [ht]; rfl)) (fun hun' => absurd List.mem_cons_self hun'.2.2)
    fun u lid hu => ?_
  exact ((holds_end (.inr rfl)).mp hu).1

/-- A record of the checkpoint leaves the transactions as they are. -/
theorem Inv.mark {d : Option DBStoreManager} {saved : DBStoreManager} (h : s.Inv)
    (hx : x = .endCkpt ∨ ∃ tids, x = .ckpt tids ∧ ∀ t, t ∈ tids ↔ Unfinished s.log t)
    (hsaved : Recoverable saved (cut false (x :: s.log)) fun t => (s.stage t).aborted = false)
    (hckpt : ∀ c ∈ d, Recoverable c (cut true (x :: s.log)) fun t => (s.stage t).aborted = false) :
    Inv { s.push x with ckpt := d, saved } := by
  have hH := h.history.mark hx
  have hw (r : WriteRecord) : x ≠ .write r := by
    rcases hx with rfl | ⟨tids, rfl, -⟩ <;> exact nofun
  have hb (t : Nat) : x ≠ .begin t := by
    rcases hx with rfl | ⟨tids, rfl, -⟩ <;> exact nofun
  have hc (t : Nat) : x ≠ .commit t := by
    rcases hx with rfl | ⟨tids, rfl, -⟩ <;> exact nofun
  have hr (t : Nat) : x ≠ .rollback t := by
    rcases hx with rfl | ⟨tids, rfl, -⟩ <;> exact nofun
  refine ⟨hH, h.sound, fun hm => ?_, fun t => (h.placed t).cons (hb t) (hc t) (hr t), h.fresh,
    h.active, ?_, fun hwork => ?_, hsaved, fun hd => hckpt _ hd⟩
  · exact h.assigned ((List.mem_cons.mp hm).resolve_left (hw _).symm)
  · exact (h.seen.mark hH.ordered hw hc hr).congr fun t lid _ => newest_unread hw
  · refine (h.planned hwork).congr rfl (Nat.le_refl _) (fun _ _ => rfl) fun u lid hu => ?_
    exact ⟨(unfinished_cons hb hc hr).mp hu.1, (wrote_cons hw).mp hu.2⟩

theorem Inv.unfinished_active (h : s.Inv) (ht : Unfinished s.log t) : t ∈ s.active := by
  refine h.active ?_
  obtain hg | hg | ⟨rest, hg⟩ := (h.placed t).unfinished ht
  all_goals simp [hg, Stage.present]

/-- At a checkpoint the store has what the log says. -/
theorem Inv.recoverable (h : s.Inv) (hw : ∀ w ∈ s.work, w.logged = false) :
    Recoverable s.store s.log fun t => (s.stage t).aborted = false := by
  have hview := view_of_not_logged hw
  refine ⟨h.history, h.sound, fun {lid} hfree => ?_, fun {t lid} ht hun hwrote => ?_⟩
  · rw [← hview]
    exact h.seen.free fun t ht => hfree t ht.1 ht.2
  · obtain ⟨v, hv⟩ := newest_isSome hwrote
    have hheld := h.seen.held ⟨hun, hwrote⟩
    obtain hg | hg | ⟨rest, hg⟩ := (h.placed t).unfinished hun
    · rw [hg, hview] at hheld
      rw [hheld]
      simp only [Stage.unread, hv, Option.getD_some]
    · simp [hg, Stage.aborted] at ht
    · simp [hg, Stage.aborted] at ht

theorem Inv.checkpoint (h : s.Inv) (hactive : ∀ t ∈ s.active, Unfinished s.log t)
    (hw : ∀ w ∈ s.work, w.logged = false) :
    Inv { s.push (.ckpt s.active) with ckpt := some s.store } := by
  refine h.mark (.inr ⟨s.active, rfl, fun t => ⟨hactive t, h.unfinished_active⟩⟩) h.saved ?_
  intro c hc
  cases hc
  exact h.recoverable hw

theorem Inv.endCheckpoint {d : DBStoreManager} (h : s.Inv) (hd : s.ckpt = some d) :
    Inv { s.push .endCkpt with ckpt := none, saved := d } :=
  h.mark (.inl rfl) (h.ckpt hd) nofun

theorem Inv.enter (h : s.Inv) : Inv { s.setStage s.transactionId .entered with
    active := s.active ++ [s.transactionId], transactionId := s.transactionId + 1 } := by
  have hunborn := h.fresh (Nat.le_refl _)
  have hbegin : .begin s.transactionId ∉ s.log := by
    simpa [hunborn, Stage.Placed] using h.placed s.transactionId
  have hstage (u : Nat) (hu : u ≠ s.transactionId) :
      (s.setStage s.transactionId .entered).stage u = s.stage u := Function.update_of_ne hu ..
  have hself : (s.setStage s.transactionId .entered).stage s.transactionId = .entered :=
    Function.update_self ..
  have hR (u : Nat) (hu : ((s.setStage s.transactionId .entered).stage u).aborted = false) :
      (s.stage u).aborted = false := by
    rcases eq_or_ne u s.transactionId with rfl | hne
    · rw [hunborn]
      rfl
    · rwa [hstage u hne] at hu
  refine ⟨h.history, h.sound, h.assigned, fun u => ?_, fun {u} hu => ?_, fun {u} hu => ?_, ?_,
    fun {w} hw => ?_, h.saved.mono hR, fun hd => (h.ckpt hd).mono hR⟩
  · rcases eq_or_ne u s.transactionId with rfl | hne
    · simp only [hself]
      exact hbegin
    · simp only [hstage u hne]
      exact h.placed u
  · have hlt : s.transactionId < u := hu
    simp only [hstage u hlt.ne']
    exact h.fresh hlt.le
  · rcases eq_or_ne u s.transactionId with rfl | hne
    · exact List.mem_append_right _ (List.mem_singleton_self _)
    · simp only [hstage u hne] at hu
      exact List.mem_append_left _ (h.active hu)
  · refine h.seen.congr fun u lid hu => ?_
    have hne : u ≠ s.transactionId := by
      rintro rfl
      exact hbegin hu.1
    simp only [hstage u hne]
    rfl
  · have hne : w.tid ≠ s.transactionId := h.not_at_work (by simp [hunborn]) w hw
    exact (h.planned hw).congr (hstage _ hne) (Nat.le_refl _) (fun _ _ => rfl) fun _ _ hu => hu

theorem Inv.leave (h : s.Inv) (ht : s.stage t = .committed ∨ s.stage t = .rolledBack ∨
    s.stage t = .failed) : Inv { s with active := s.active.erase t } := by
  refine ⟨h.history, h.sound, h.assigned, h.placed, h.fresh, fun {u} hu => ?_, h.seen,
    fun hw => ?_, h.saved, h.ckpt⟩
  · have hne : u ≠ t := by
      rintro rfl
      rcases ht with ht | ht | ht
      · simp [ht, Stage.present] at hu
      · simp [ht, Stage.present] at hu
      · have hplaced := h.placed u
        rw [ht] at hplaced
        exact hplaced
    exact (List.mem_erase_of_ne hne).mpr (h.active hu)
  · exact (h.planned hw).congr rfl (Nat.le_refl _) (fun _ _ => rfl) fun _ _ hu => hu

-- ---------------------------------------------------------------------------
-- Rollback
-- ---------------------------------------------------------------------------

theorem view_update (h : ∀ w ∈ s.work, ∀ c ∈ w.changes, c.r.lid ≠ lid)
    {d : DBStoreManager} {o : Option Content}
    (hd : content d = Function.update (content s.store) lid o) :
    view { s with store := d } = Function.update s.view lid o := by
  have hsame : view { s with store := d } = match s.work with
    | some ⟨_, c :: _, true⟩ => Function.update (content d) c.r.lid c.r.new
    | _ => content d := rfl
  rw [hsame, view]
  split
  · rename_i c l hw
    have hne := h _ hw c List.mem_cons_self
    rw [hd, Function.update_comm hne.symm]
  · exact hd

/-- One transaction goes on with its rollback. -/
theorem Inv.restage {d : DBStoreManager} (h : s.Inv) (hs : d.Sound)
    (hlast : s.store.lastAssigned ≤ d.lastAssigned) (hborn : s.stage t ≠ .unborn)
    (hpresent : t ∈ s.active) (hg : g.Placed s.log t) (haborted : g.aborted = true)
    (hw : ∀ w ∈ s.work, w.tid ≠ t)
    (hcontent : ∀ w ∈ s.work, ∀ c ∈ w.changes, content d c.r.lid = content s.store c.r.lid)
    (hseen : Seen s.log (view { s with store := d })
      (Function.update (fun u => (s.stage u).unread s.log) t (g.unread s.log))) :
    Inv { s.setStage t g with store := d } := by
  have hstage (u : Nat) (hu : u ≠ t) : (s.setStage t g).stage u = s.stage u :=
    Function.update_of_ne hu ..
  have hself : (s.setStage t g).stage t = g := Function.update_self ..
  have hR (u : Nat) (hu : ((s.setStage t g).stage u).aborted = false) :
      (s.stage u).aborted = false := by
    rcases eq_or_ne u t with rfl | hne
    · rw [hself, haborted] at hu
      cases hu
    · rwa [hstage u hne] at hu
  refine ⟨h.history, hs, fun hr => (h.assigned hr).trans hlast, fun u => ?_, fun {u} hu => ?_,
    fun {u} hu => ?_, ?_, fun {w} hwork => ?_, h.saved.mono hR, fun hd => (h.ckpt hd).mono hR⟩
  · rcases eq_or_ne u t with rfl | hne
    · simp only [hself]
      exact hg
    · simp only [hstage u hne]
      exact h.placed u
  · have hne : u ≠ t := by
      rintro rfl
      exact hborn (h.fresh hu)
    simp only [hstage u hne]
    exact h.fresh hu
  · rcases eq_or_ne u t with rfl | hne
    · exact hpresent
    · simp only [hstage u hne] at hu
      exact h.active hu
  · refine hseen.congr fun u lid _ => ?_
    rcases eq_or_ne u t with rfl | hne
    · rw [Function.update_self]
      simp only [hself]
      rfl
    · rw [Function.update_of_ne hne]
      simp only [hstage u hne]
      rfl
  · exact (h.planned hwork).congr (hstage _ (hw w hwork)) hlast (hcontent w hwork) fun _ _ hu => hu

theorem Inv.abort (h : s.Inv) (ht : s.stage t = .running) (hw : ∀ w ∈ s.work, w.tid ≠ t) :
    (s.setStage t (.undoing s.log)).Inv := by
  have hun : Unfinished s.log t := by simpa [ht, Stage.Placed] using h.placed t
  refine h.restage h.sound (Nat.le_refl _) (by simp [ht]) (h.unfinished_active hun)
    ⟨hun, List.suffix_refl _, hun.1⟩ rfl hw (fun _ _ _ _ => rfl) (h.seen.congr fun u lid _ => ?_)
  rcases eq_or_ne u t with rfl | hne
  · rw [Function.update_self, ht]
    rfl
  · rw [Function.update_of_ne hne]

/-- A record that the rollback passes over. -/
theorem Inv.skip {rest : List LogRecord} (h : s.Inv) (ht : s.stage t = .undoing (x :: rest))
    (hx : ∀ r, x = .write r → r.tid ≠ t) (hb : x ≠ .begin t) :
    (s.setStage t (.undoing rest)).Inv := by
  have hplaced := h.placed t
  rw [ht] at hplaced
  obtain ⟨hun, hrest, hbegin⟩ := hplaced
  refine h.restage h.sound (Nat.le_refl _) (by simp [ht]) (h.unfinished_active hun)
    ⟨hun, (List.suffix_cons x rest).trans hrest, (List.mem_cons.mp hbegin).resolve_left hb.symm⟩
    rfl (h.not_at_work (by simp [ht])) (fun _ _ _ _ => rfl) (h.seen.congr fun u lid _ => ?_)
  rcases eq_or_ne u t with rfl | hne
  · rw [Function.update_self, ht]
    rcases x.write_or with ⟨r, rfl⟩ | hnot
    · simp [Stage.unread, newest, hx r rfl]
    · exact congrFun (newest_cons hnot).symm lid
  · rw [Function.update_of_ne hne]

theorem Inv.undone {rest : List LogRecord} (h : s.Inv)
    (ht : s.stage t = .undoing (.begin t :: rest)) : (s.setStage t .undone).Inv := by
  have hplaced := h.placed t
  rw [ht] at hplaced
  obtain ⟨hun, hrest, -⟩ := hplaced
  have hbelow : .begin t ∉ rest := h.history.ordered.begin hrest
  have hrest' := h.history.ordered.suffix ((List.suffix_cons _ _).trans hrest)
  refine h.restage h.sound (Nat.le_refl _) (by simp [ht]) (h.unfinished_active hun) hun
    rfl (h.not_at_work (by simp [ht])) (fun _ _ _ _ => rfl) (h.seen.congr fun u lid _ => ?_)
  rcases eq_or_ne u t with rfl | hne
  · rw [Function.update_self, ht]
    exact (newest_eq_none (hrest'.not_wrote hbelow)).symm
  · rw [Function.update_of_ne hne]

/-- A write of the transaction is undone, and that cannot fail. -/
theorem Inv.undoWrite {rest : List LogRecord} (h : s.Inv)
    (ht : s.stage r.tid = .undoing (.write r :: rest)) :
    ∃ d, r.rollBack s.store = some (d, 0) ∧
      Inv { s.setStage r.tid (.undoing rest) with store := d } := by
  have hplaced := h.placed r.tid
  rw [ht] at hplaced
  obtain ⟨hun, hrest, hbegin⟩ := hplaced
  have hmem : .write r ∈ s.log := hrest.subset List.mem_cons_self
  have hwrote : Wrote s.log r.tid r.lid := ⟨r, hmem, rfl, rfl⟩
  have hnot := h.not_at_work (t := r.tid) (by simp [ht])
  have hapart : ∀ w ∈ s.work, ∀ c ∈ w.changes, c.r.lid ≠ r.lid := by
    intro w hw c hc heq
    exact hnot w hw ((h.planned hw).alone hc r.tid hun (heq ▸ hwrote)).symm
  have hstored : content s.store r.lid = r.new := by
    have hview : view s = Function.update s.view r.lid (content s.store r.lid) :=
      view_update hapart (Function.update_eq_self ..).symm
    have hheld := h.seen.held ⟨hun, hwrote⟩
    rw [hview, Function.update_self, ht] at hheld
    simpa [Stage.unread, newest] using hheld
  obtain ⟨d, e, hd, hsound, hcontent, hlast, hcode⟩ := rollBack_content h.sound (h.history.whole hmem)
  rw [hcode hstored] at hd
  refine ⟨d, hd, h.restage hsound hlast (by simp [ht]) (h.unfinished_active hun)
    ⟨hun, (List.suffix_cons _ _).trans hrest, (List.mem_cons.mp hbegin).resolve_left (by simp)⟩ rfl hnot
    (fun w hw c hc => ?_) ?_⟩
  · rw [hcontent, Function.update_of_ne (hapart w hw c hc)]
  · rw [view_update hapart hcontent]
    exact h.seen.undo h.history hun (by rw [ht]; rfl) hrest

theorem Inv.undo {rest : List LogRecord} (h : s.Inv) (ht : s.stage t = .undoing rest)
    (hs : s.undo t rest = some s') : s'.Inv := by
  have hplaced := h.placed t
  rw [ht] at hplaced
  cases rest with
  | nil => cases hplaced.2.2
  | cons x rest =>
    cases x with
    | begin u =>
      rcases eq_or_ne u t with rfl | hne
      · simp only [System.undo, if_true, Option.some.injEq] at hs
        exact hs ▸ h.undone ht
      · simp only [System.undo, if_neg hne, Option.some.injEq] at hs
        exact hs ▸ h.skip ht (fun _ => nofun) (by simp [hne])
    | write r =>
      rcases eq_or_ne r.tid t with rfl | hne
      · obtain ⟨d, hd, hinv⟩ := h.undoWrite ht
        simp only [System.undo, if_true, hd] at hs
        cases hs
        exact hinv
      · simp only [System.undo, if_neg hne, Option.some.injEq] at hs
        refine hs ▸ h.skip ht (fun r' hr' => ?_) nofun
        cases hr'
        exact hne
    | _ =>
      simp only [System.undo, Option.some.injEq] at hs
      exact hs ▸ h.skip ht (fun _ => nofun) nofun

-- ---------------------------------------------------------------------------
-- Calls in the write section
-- ---------------------------------------------------------------------------

theorem Work.not_logged {l : List Change} : ∀ w ∈ Work.of t l, w.logged = false := by
  intro w hw
  cases l with
  | nil => cases hw
  | cons c l =>
    cases hw
    rfl

/-- A call has no effect before its first record but that a new object has an id. -/
theorem Inv.plan {d : DBStoreManager} {l : List Change} (h : s.Inv) (hwork : s.work = none)
    (hs : d.Sound) (hcontent : content d = content s.store)
    (hlast : s.store.lastAssigned ≤ d.lastAssigned)
    (hp : ∀ w ∈ Work.of t l, Planned { s with store := d, work := Work.of t l } w) :
    Inv { s with store := d, work := Work.of t l } := by
  refine ⟨h.history, hs, fun hr => (h.assigned hr).trans hlast, h.placed, h.fresh, h.active, ?_,
    fun hw => hp _ hw, h.saved, h.ckpt⟩
  have hbefore : s.view = content s.store := view_of_not_logged (by simp [hwork])
  have hafter : view { s with store := d, work := Work.of t l } = content d :=
    view_of_not_logged Work.not_logged
  rw [hafter, hcontent, ← hbefore]
  exact h.seen

theorem whole_deleted {d : Session} {o : Object} (h : d.Pointer o) :
    WriteRecord.Whole ⟨t, o.lid, o.name, some o.value, none⟩ := by
  refine ⟨rfl, h.positive, h.max, fun {v} hv => ?_⟩
  rcases hv with hv | hv
  · cases hv
    exact h.fits.congr rfl rfl
  · cases hv

theorem whole_created {o : Object} (hpos : 0 < o.lid) (hmax : o.lid ≤ maxLogicalID) (hfits : Fits o) :
    WriteRecord.Whole ⟨t, o.lid, o.name, none, some o.value⟩ := by
  refine ⟨rfl, hpos, hmax, fun {v} hv => ?_⟩
  rcases hv with hv | hv
  · cases hv
  · cases hv
    exact hfits.congr rfl rfl

theorem Inv.createObject {name : List (BitVec 8)} {value : DataValue} (h : s.Inv)
    (hrun : s.stage t = .running) (hwork : s.work = none) (hmax : s.store.lastAssigned < maxLogicalID)
    (hfits : Fits { lid := s.store.lastAssigned + 1, isRoot := false, name, value }) :
    Inv { s with
      store := s.store.createLogicalID
      work := Work.of t [{ r := ⟨t, s.store.lastAssigned + 1, name, none, some value⟩ }] } := by
  obtain ⟨hsound, -, hobject⟩ := h.sound.createLogicalID
  have hcontent : content s.store.createLogicalID = content s.store := by
    unfold content
    rw [hobject]
  have hlast : s.store.createLogicalID.lastAssigned = s.store.lastAssigned + 1 := rfl
  have hnone : content s.store (s.store.lastAssigned + 1) = none := by
    have hmap := h.sound.unassigned (s.store.lastAssigned + 1) (.inr (Nat.lt_succ_self _))
    simp [content, DBStoreManager.object, hmap]
  refine h.plan hwork hsound hcontent (by omega) fun w hw => ?_
  cases hw
  refine ⟨hrun, fun {c} hc => ?_, fun {c} hc => ?_, fun {c} hc => ?_, fun {c} hc u _ hwrote => ?_,
    fun _ c hc => ?_, .singleton _⟩
  · rw [List.mem_singleton.mp hc]
  · rw [List.mem_singleton.mp hc]
    exact whole_created (o := { lid := s.store.lastAssigned + 1, isRoot := false, name, value })
      (Nat.succ_pos _) hmax hfits
  · rw [List.mem_singleton.mp hc]
    exact Nat.le_refl _
  · -- nobody has written an object with a new id
    obtain ⟨r, hr, -, hlid⟩ := hwrote
    have hle := h.assigned hr
    rw [List.mem_singleton.mp hc] at hlid
    exact absurd hle (by rw [hlid]; exact Nat.not_succ_le_self _)
  · cases hc
    exact (hcontent ▸ hnone).symm

/-- A call on an object: it is deleted, and may be created again. -/
theorem Inv.onObject {o : Object} {l : List Change} (h : s.Inv) (hrun : s.stage t = .running)
    (hwork : s.work = none) (ho : Session.Pointer { store := s.store, log := s.log } o)
    (hown : s.Owned t o)
    (hl : l = [] ∨ ∃ dv b, Fits { o with value := dv } ∧
      l = [{ r := ⟨t, o.lid, o.name, none, some dv⟩, isRoot := b }]) :
    Inv { s with
      work := Work.of t ({ r := ⟨t, o.lid, o.name, some o.value, none⟩ } :: l) } := by
  refine h.plan hwork h.sound rfl (Nat.le_refl _) fun w hw => ?_
  cases hw
  have hall (c : Change) (hc : c ∈ ({ r := ⟨t, o.lid, o.name, some o.value, none⟩ } : Change) :: l) :
      c.r.tid = t ∧ c.r.lid = o.lid ∧ c.r.Whole := by
    rcases List.mem_cons.mp hc with rfl | hc
    · exact ⟨rfl, rfl, whole_deleted ho⟩
    · rcases hl with rfl | ⟨dv, b, hfits, rfl⟩
      · cases hc
      · rw [List.mem_singleton.mp hc]
        exact ⟨rfl, rfl, whole_created (o := { o with value := dv }) ho.positive ho.max hfits⟩
  refine ⟨hrun, fun hc => (hall _ hc).1, fun hc => (hall _ hc).2.2, fun {c} hc => ?_,
    fun {c} hc => ?_, fun _ c hc => ?_, ?_⟩
  · rw [(hall c hc).2.1]
    exact ho.assigned
  · rw [(hall c hc).2.1]
    exact hown.alone
  · cases hc
    exact hown.stored.symm
  · rcases hl with rfl | ⟨dv, b, -, rfl⟩
    · exact .singleton _
    · exact .cons_cons ⟨rfl, rfl⟩ (.singleton _)

theorem Inv.call {c : Operation} (h : s.Inv) (hlegal : s.Legal (.call t c))
    (hown : s.Exclusive (.call t c)) (hs : s.step (.call t c) = some s') : s'.Inv := by
  obtain ⟨hrun, hwork, hallowed⟩ := hlegal
  cases hs
  cases c with
  | createObject name value => exact h.createObject hrun hwork hallowed.1 hallowed.2
  | modifyObject o dv => exact h.onObject hrun hwork hallowed.1 hown (.inr ⟨dv, _, hallowed.2, rfl⟩)
  | deleteObject o => exact h.onObject hrun hwork hallowed hown (.inl rfl)
  | addRoot o => exact h.onObject hrun hwork hallowed hown (.inr ⟨o.value, _, hallowed.fits, rfl⟩)
  | removeRoot o =>
    exact h.onObject hrun hwork hallowed hown (.inr ⟨o.value, _, hallowed.fits, rfl⟩)
  | getObject lid =>
    exact h.plan (l := []) hwork h.sound rfl (Nat.le_refl _) nofun

theorem change_content {c : Change} {d : DBStoreManager} (h : d.Sound) (hc : c.r.Whole) :
    ∃ d', c.make d = some d' ∧ d'.Sound ∧
      content d' = Function.update (content d) c.r.lid c.r.new ∧ d.lastAssigned ≤ d'.lastAssigned := by
  cases hnew : c.r.newVal with
  | none =>
    obtain ⟨hsound, hcontent, hlast, -⟩ := deleteFromStore_content h c.r
    refine ⟨_, by simp only [Change.make, hnew], hsound, ?_, hlast.ge⟩
    rw [hcontent, WriteRecord.new, hnew, Option.map_none]
  | some v =>
    have hfits : Fits { lid := c.r.lid, isRoot := c.isRoot, name := c.r.name, value := v } :=
      (hc.fits (.inr hnew)).congr rfl rfl
    obtain ⟨d', hd', hsound, hobject, -, -, -, hlast⟩ := h.createObject hc.positive hc.max hfits
    refine ⟨d', ?_, hsound, ?_, hlast ▸ le_max_left _ _⟩
    · simp only [Change.make, hnew]
      rw [hd']
      rfl
    · rw [content_update hobject, WriteRecord.new, hnew, Option.map_some, Option.map_some]

/-- The old value in a record is what the log says is there. -/
theorem Inv.old_eq (h : s.Inv) (hrun : s.stage t = .running) (ha : Alone s.log t lid) :
    s.view lid = (newest (· == t) s.log lid).getD (base s.log lid) := by
  have hun : Unfinished s.log t := by simpa [hrun, Stage.Placed] using h.placed t
  by_cases hw : Wrote s.log t lid
  · rw [h.seen.held ⟨hun, hw⟩, hrun]
    rfl
  · rw [newest_eq_none hw, Option.getD_none]
    exact h.seen.free fun u hu => hw (ha u hu.1 hu.2 ▸ hu.2)

/-- The record of a change is pushed. -/
theorem Inv.log {c : Change} {rest : List Change} {t : Nat} (h : s.Inv)
    (hwork : s.work = some ⟨t, c :: rest, false⟩) :
    Inv { s.push (.write c.r) with work := some ⟨t, c :: rest, true⟩ } := by
  have hp := h.planned hwork
  have hrun : s.stage t = .running := hp.running
  have hun : Unfinished s.log t := by simpa [hrun, Stage.Placed] using h.placed t
  have htid : c.r.tid = t := hp.mine List.mem_cons_self
  have ha : Alone s.log t c.r.lid := hp.alone List.mem_cons_self
  have hview : s.view = content s.store := by
    refine view_of_not_logged fun w hw => ?_
    rw [hwork] at hw
    cases hw
    rfl
  have hold : c.r.old = (newest (· == c.r.tid) s.log c.r.lid).getD (base s.log c.r.lid) := by
    rw [htid, ← h.old_eq hrun ha, hview]
    exact hp.first rfl c rfl
  have hholds {u lid : Nat} : Holds (.write c.r :: s.log) u lid ↔
      (c.r.tid = u ∧ c.r.lid = lid) ∨ Holds s.log u lid := holds_write (htid ▸ hun)
  refine ⟨?_, h.sound, fun {r} hr => ?_, fun u => (h.placed u).cons (by simp) (by simp) (by simp), h.fresh,
    h.active, ?_, fun {w} hw => ?_, h.saved, h.ckpt⟩
  · refine h.history.write (htid ▸ hun) (hp.whole List.mem_cons_self) (fun u hu hw => ?_) hold
    rw [htid]
    exact ha u hu hw
  · rcases List.mem_cons.mp hr with heq | hr
    · cases heq
      exact hp.assigned List.mem_cons_self
    · exact h.assigned hr
  · have hseen := h.seen.write (r := c.r) (htid ▸ hun) (by rw [htid, hrun]; rfl) (htid ▸ ha)
    rw [hview] at hseen
    refine hseen.congr fun u lid _ => ?_
    rcases eq_or_ne u c.r.tid with rfl | hne
    · rw [Function.update_self, htid]
      simp only [hrun, Stage.unread, System.push]
    · rw [Function.update_of_ne hne]
      -- the new record is not the other transaction's
      have hskip (g : Stage) : newest (· == u) (g.unread (.write c.r :: s.log)) lid =
          newest (· == u) (g.unread s.log) lid := by
        cases g <;> simp [Stage.unread, newest, hne.symm]
      exact hskip (s.stage u)
  · cases hw
    refine ⟨hrun, hp.mine, hp.whole, hp.assigned, fun {c'} hc' u hu hwrote => ?_, by rintro ⟨⟩,
      hp.follow⟩
    rcases hholds.mp ⟨hu, hwrote⟩ with ⟨heq, -⟩ | hu
    · rw [← heq, htid]
    · exact hp.alone hc' u hu.1 hu.2

/-- The change follows its record. -/
theorem Inv.change {c : Change} {rest : List Change} {t : Nat} (h : s.Inv)
    (hwork : s.work = some ⟨t, c :: rest, true⟩) :
    ∃ d, c.make s.store = some d ∧ Inv { s with store := d, work := Work.of t rest } := by
  have hp := h.planned hwork
  obtain ⟨d, hd, hsound, hcontent, hlast⟩ := change_content h.sound (hp.whole List.mem_cons_self)
  have hview : s.view = content d := by
    rw [hcontent, view, hwork]
  refine ⟨d, hd, h.history, hsound, fun hr => (h.assigned hr).trans hlast, h.placed, h.fresh,
    h.active, ?_, fun {w} hw => ?_, h.saved, h.ckpt⟩
  · have hafter : view { s with store := d, work := Work.of t rest } = content d :=
      view_of_not_logged Work.not_logged
    rw [hafter, ← hview]
    exact h.seen
  · cases rest with
    | nil => cases hw
    | cons c' rest =>
      cases hw
      obtain ⟨⟨hlid, hold⟩, hfollow⟩ := List.isChain_cons_cons.mp hp.follow
      refine ⟨hp.running, fun hc => hp.mine (List.mem_cons_of_mem _ hc),
        fun hc => hp.whole (List.mem_cons_of_mem _ hc),
        fun hc => (hp.assigned (List.mem_cons_of_mem _ hc)).trans hlast,
        fun hc => hp.alone (List.mem_cons_of_mem _ hc), fun _ c'' hc => ?_, hfollow⟩
      cases hc
      rw [hold, hcontent, hlid, Function.update_self]

theorem Inv.doWork {w : Work} (h : s.Inv) (hwork : s.work = some w)
    (hs : s.doWork w = some s') : s'.Inv := by
  obtain ⟨t, changes, logged⟩ := w
  cases changes with
  | nil => cases hs
  | cons c rest =>
    cases logged with
    | false =>
      cases hs
      exact h.log hwork
    | true =>
      obtain ⟨d, hd, hinv⟩ := h.change hwork
      simp only [System.doWork, if_true, hd] at hs
      cases hs
      exact hinv

theorem Inv.step {e : Event} (h : s.Inv) (hlegal : s.Legal e) (hexclusive : s.Exclusive e)
    (hsettled : s.Settled e) (hs : s.step e = some s') : s'.Inv := by
  cases e with
  | enter =>
    cases hs
    exact h.enter
  | begin t =>
    cases hs
    exact h.begin hlegal
  | call t c => exact h.call hlegal hexclusive hs
  | work =>
    obtain ⟨w, hwork, hs⟩ := Option.bind_eq_some_iff.mp hs
    exact h.doWork hwork hs
  | commit t =>
    cases hs
    exact h.commit hlegal.1 hlegal.2
  | abort t =>
    cases hs
    exact h.abort hlegal.1 hlegal.2
  | undo t =>
    cases ht : s.stage t with
    | undoing rest =>
      simp only [System.step, ht] at hs
      exact h.undo ht hs
    | _ => simp [System.step, ht] at hs
  | rollback t =>
    cases hs
    exact h.rollback hlegal
  | leave t =>
    cases hs
    exact h.leave hlegal
  | ckpt =>
    cases hs
    exact h.checkpoint hsettled.1 hsettled.2
  | endCkpt =>
    obtain ⟨d, hd, rfl⟩ := Option.map_eq_some_iff.mp hs
    exact h.endCheckpoint hd

-- ---------------------------------------------------------------------------
-- Recovery after a run
-- ---------------------------------------------------------------------------

theorem Inv.recover (h : s.Inv) (hne : s.log ≠ []) :
    ∃ d, recover s.log s.saved = some (d, 0) ∧
      ∀ lid, content d lid = execute (writes (committed s.log) s.log.reverse) lid := by
  refine recover_spec h.history h.saved.history h.saved.consistent (fun t hc _ => ?_) hne
  cases ha : (s.stage t).aborted with
  | false => rfl
  | true => exact absurd hc ((h.placed t).not_committed ha)

theorem undo_log {rest : List LogRecord} (hs : s.undo t rest = some s') : s'.log = s.log := by
  cases rest with
  | nil =>
    cases hs
    rfl
  | cons x rest =>
    cases x with
    | write r =>
      simp only [System.undo] at hs
      split at hs
      · obtain ⟨⟨d, err⟩, -, hs⟩ := Option.bind_eq_some_iff.mp hs
        cases hs
        rfl
      · cases hs
        rfl
    | _ =>
      cases hs
      rfl

theorem step_log {e : Event} (hs : s.step e = some s') : s'.log = s.log ∨ ∃ x, s'.log = x :: s.log := by
  cases e with
  | work =>
    obtain ⟨w, -, hs⟩ := Option.bind_eq_some_iff.mp hs
    obtain ⟨t, changes, logged⟩ := w
    cases changes with
    | nil => cases hs
    | cons c rest =>
      cases logged with
      | false =>
        cases hs
        exact .inr ⟨_, rfl⟩
      | true =>
        obtain ⟨d, -, hs⟩ := Option.bind_eq_some_iff.mp hs
        cases hs
        exact .inl rfl
  | undo t =>
    cases ht : s.stage t with
    | undoing rest =>
      simp only [System.step, ht] at hs
      exact .inl (undo_log hs)
    | _ => simp [System.step, ht] at hs
  | endCkpt =>
    obtain ⟨d, -, rfl⟩ := Option.map_eq_some_iff.mp hs
    exact .inr ⟨_, rfl⟩
  | enter | call t c | abort t | leave t =>
    cases hs
    exact .inl rfl
  | begin t | commit t | rollback t | ckpt =>
    cases hs
    exact .inr ⟨_, rfl⟩

/-- A log that is cut after a record is the log of an earlier state of the run. -/
theorem log_cut {ok : System → Event → Prop} {start : System}
    (h : Reaches System.step ok start s) (hL : L <:+ s.log) (hstart : start.log = []) :
    ∃ s', Reaches System.step ok start s' ∧ Reaches System.step ok s' s ∧ s'.log = L := by
  induction h with
  | refl =>
    rw [hstart, List.suffix_nil] at hL
    exact ⟨start, .refl, .refl, hL ▸ hstart⟩
  | step hrun hok hs ih =>
    rcases step_log hs with hsame | ⟨x, hx⟩
    · obtain ⟨s', hbefore, hafter, hlog⟩ := ih (hsame ▸ hL)
      exact ⟨s', hbefore, hafter.step hok hs, hlog⟩
    · rcases List.suffix_cons_iff.mp (hx ▸ hL) with rfl | hL
      · exact ⟨_, hrun.step hok hs, .refl, hx⟩
      · obtain ⟨s', hbefore, hafter, hlog⟩ := ih hL
        exact ⟨s', hbefore, hafter.step hok hs, hlog⟩

/-- After every run in which a checkpoint lists unfinished transactions only and
meets no change that is logged and not made, and calls have their objects for
themselves, recovery leaves what the committed transactions wrote; and so at every
record the log may be cut after. -/
theorem recover_run {n : Nat}
    (h : Reaches System.step (fun s e => s.Legal e ∧ s.Exclusive e ∧ s.Settled e) { transactionId := n } s) :
    (s.log ≠ [] → ∃ d, Log.recover s.log s.saved = some (d, 0) ∧
      ∀ lid, content d lid = execute (writes (committed s.log) s.log.reverse) lid) ∧
    ∀ L, L <:+ s.log → ∃ s',
      Reaches System.step (fun s e => s.Legal e ∧ s.Exclusive e ∧ s.Settled e) { transactionId := n } s' ∧
      Reaches System.step (fun s e => s.Legal e ∧ s.Exclusive e ∧ s.Settled e) s' s ∧ s'.log = L := by
  refine ⟨Inv.recover (h.invariant (inv_init n) ?_), fun L hL => log_cut h hL rfl⟩
  intro s e s' hinv hok hs
  exact hinv.step hok.1 hok.2.1 hok.2.2 hs

instance (log : List LogRecord) (t lid : Nat) : Decidable (Alone log t lid) :=
  decidable_of_iff (∀ r ∈ writes (fun _ => true) log, Unfinished log r.tid → r.lid = lid → r.tid = t)
    ⟨fun h u hu ⟨r, hr, ht, hlid⟩ => ht ▸ h r
      (List.mem_filterMap.mpr ⟨.write r, hr, by simp⟩) (ht ▸ hu) hlid, fun h r hr hu hlid => by
      obtain ⟨x, hx, hr⟩ := List.mem_filterMap.mp hr
      cases x with
      | write r' =>
        simp only [if_true, Option.some.injEq] at hr
        exact h r.tid hu ⟨r, hr ▸ hx, rfl, hlid⟩
      | _ => cases hr⟩

instance (s : System) (t : Nat) (o : Object) : Decidable (s.Owned t o) :=
  decidable_of_iff (Alone s.log t o.lid ∧ content s.store o.lid = some (o.name, o.value))
    ⟨fun h => ⟨h.1, h.2⟩, fun h => ⟨h.alone, h.stored⟩⟩

instance (s : System) : DecidablePred s.Legal
  | .enter | .work | .undo _ | .endCkpt => .isTrue trivial
  | .begin t => inferInstanceAs (Decidable (s.stage t = .entered))
  | .call t c => decidable_of_iff (s.stage t = .running ∧ s.work.isNone = true ∧
      Session.Allowed { store := s.store, log := s.log } c) (by simp [Legal])
  | .commit t | .abort t =>
    inferInstanceAs (Decidable (s.stage t = .running ∧ ∀ w ∈ s.work, w.tid ≠ t))
  | .rollback t => inferInstanceAs (Decidable (s.stage t = .undone))
  | .leave t => inferInstanceAs (Decidable (_ ∨ _ ∨ s.stage t = .failed))
  | .ckpt => decidable_of_iff (s.ckpt.isNone = true) (by simp [Legal])

instance (s : System) : DecidablePred s.Exclusive
  | .call t c =>
    match c with
    | .modifyObject o _ | .deleteObject o | .addRoot o | .removeRoot o =>
      inferInstanceAs (Decidable (s.Owned t o))
    | .createObject _ _ | .getObject _ => .isTrue trivial
  | .enter | .begin _ | .work | .commit _ | .abort _ | .undo _ | .rollback _ | .leave _ | .ckpt
  | .endCkpt => .isTrue trivial

instance (s : System) : DecidablePred s.Settled
  | .ckpt => inferInstanceAs (Decidable ((∀ t ∈ s.active, Unfinished s.log t) ∧
      ∀ w ∈ s.work, w.logged = false))
  | .enter | .begin _ | .call _ _ | .work | .commit _ | .abort _ | .undo _ | .rollback _
  | .leave _ | .endCkpt => .isTrue trivial

/-- One transaction commits behind a checkpoint and another is half rolled back. -/
theorem recover_run_two : ∃ (s : System) (d : DBStoreManager), s.log.length = 11 ∧
    Log.recover s.log s.saved = some (d, 0) ∧
    ∀ lid, content d lid = execute (writes (committed s.log) s.log.reverse) lid := by
  obtain ⟨s, hs, hQ⟩ := Reaches.of_play System.step (fun s e => s.Legal e ∧ s.Exclusive e ∧ s.Settled e)
    { transactionId := 1 }
    [.enter, .begin 1, .call 1 (.createObject [] { content := .integer 7 }), .work, .work,
      .enter, .begin 2, .call 2 (.createObject [] { content := .integer 8 }), .work, .work,
      .ckpt, .call 1 (.modifyObject ⟨1, false, [], { content := .integer 7 }⟩
        { content := .integer 9 }), .work, .work, .work, .work, .endCkpt, .commit 1, .leave 1,
      .call 2 (.addRoot ⟨2, false, [], { content := .integer 8 }⟩), .work, .work, .work,
      .work, .abort 2, .undo 2]
    (fun s => s.log.length = 11 ∧ s.log ≠ []) (by decide +kernel)
  obtain ⟨hlength, hne⟩ := of_decide_eq_true hQ
  obtain ⟨d, hd, hcontent⟩ := (recover_run hs).1 hne
  exact ⟨s, d, hlength, hd, hcontent⟩

/-- A checkpoint lists a transaction that has not logged its Begin yet, one that has
logged its Commit already, or comes between a record and its change. -/
theorem recover_fails :
    (∃ s, Reaches System.step (fun s e => s.Legal e ∧ s.Exclusive e) { transactionId := 1 } s ∧
      s.log = [.endCkpt, .begin 1, .ckpt [1]] ∧
      (Log.recover s.log s.saved).map Prod.snd = some eInval) ∧
    (∃ s, Reaches System.step (fun s e => s.Legal e ∧ s.Exclusive e) { transactionId := 1 } s ∧
      s.log = [.endCkpt, .ckpt [1], .commit 1,
        .write ⟨1, 1, [], none, some { content := .integer 7 }⟩, .begin 1] ∧
      (Log.recover s.log s.saved).map (fun d => (content d.1 1, d.2)) = some (none, 0) ∧
      execute (writes (committed s.log) s.log.reverse) 1 = some ([], { content := .integer 7 })) ∧
    ∃ s, Reaches System.step (fun s e => s.Legal e ∧ s.Exclusive e) { transactionId := 1 } s ∧
      s.log = [.commit 1, .endCkpt, .ckpt [1],
        .write ⟨1, 1, [], none, some { content := .integer 7 }⟩, .begin 1] ∧
      (Log.recover s.log s.saved).map (fun d => (content d.1 1, d.2)) = some (none, 0) ∧
      execute (writes (committed s.log) s.log.reverse) 1 = some ([], { content := .integer 7 }) := by
  refine ⟨?_, ?_, ?_⟩
  · obtain ⟨s, hs, hQ⟩ := Reaches.of_play System.step (fun s e => s.Legal e ∧ s.Exclusive e)
      { transactionId := 1 } [.enter, .ckpt, .begin 1, .endCkpt]
      (fun s => s.log = [.endCkpt, .begin 1, .ckpt [1]] ∧
        (Log.recover s.log s.saved).map Prod.snd = some eInval) (by decide +kernel)
    exact ⟨s, hs, of_decide_eq_true hQ⟩
  · obtain ⟨s, hs, hQ⟩ := Reaches.of_play System.step (fun s e => s.Legal e ∧ s.Exclusive e)
      { transactionId := 1 }
      [.enter, .begin 1, .call 1 (.createObject [] { content := .integer 7 }), .work, .work,
        .commit 1, .ckpt, .endCkpt]
      (fun s => s.log = [.endCkpt, .ckpt [1], .commit 1,
          .write ⟨1, 1, [], none, some { content := .integer 7 }⟩, .begin 1] ∧
        (Log.recover s.log s.saved).map (fun d => (content d.1 1, d.2)) = some (none, 0) ∧
        execute (writes (committed s.log) s.log.reverse) 1 = some ([], { content := .integer 7 }))
      (by decide +kernel)
    exact ⟨s, hs, of_decide_eq_true hQ⟩
  · obtain ⟨s, hs, hQ⟩ := Reaches.of_play System.step (fun s e => s.Legal e ∧ s.Exclusive e)
      { transactionId := 1 }
      [.enter, .begin 1, .call 1 (.createObject [] { content := .integer 7 }), .work, .ckpt, .work,
        .endCkpt, .commit 1]
      (fun s => s.log = [.commit 1, .endCkpt, .ckpt [1],
          .write ⟨1, 1, [], none, some { content := .integer 7 }⟩, .begin 1] ∧
        (Log.recover s.log s.saved).map (fun d => (content d.1 1, d.2)) = some (none, 0) ∧
        execute (writes (committed s.log) s.log.reverse) 1 = some ([], { content := .integer 7 }))
      (by decide +kernel)
    exact ⟨s, hs, of_decide_eq_true hQ⟩

end System

end Loxim.Log
