import Loxim.TransactionManager.Transaction

/-!
# Runs under locks

As long as whoever is given an object finds it where it was asked for, a transaction
that has an object covers it: it has locked the place where the object is, or it has
moved the object itself and nobody else has it.
-/

namespace Loxim.TManager

open Store Log Lock

namespace TransactionManager

variable {n : Nat} {priority : Fin n → Int} {m m' : TransactionManager n} {t u : Fin n} {lid : Nat}
  {mode : AccessMode} {place : Place} {next : Option Operation}

@[simp] theorem goto_self {g : CallStage} : (m.goto t g).stage t = g := Function.update_self ..

theorem goto_other {g : CallStage} (hu : u ≠ t) : (m.goto t g).stage u = m.stage u :=
  Function.update_of_ne hu ..

/-- The transaction has locked the place where the object is. -/
def Covers (m : TransactionManager n) (t : Fin n) (lid : Nat) (mode : AccessMode) : Prop :=
  ∃ place, getPhysicalID m.system.store lid = some place ∧ m.locks.Holds t place mode

structure Locked (m : TransactionManager n) : Prop where
  guarded : m.locks.Guarded
  covers {t : Fin n} {lid : Nat} {mode : AccessMode} :
    (lid, mode) ∈ m.granted t → lid ∉ m.moved t → m.Covers t lid mode
  apart {t u : Fin n} {lid : Nat} :
    lid ∈ m.moved t → u ≠ t → lid ∉ m.moved u ∧ ∀ mode, (lid, mode) ∉ m.granted u

/-- Who may write an object has it alone. -/
theorem Locked.alone (h : m.Locked) (ht : (lid, .write) ∈ m.granted t) (hu : u ≠ t) :
    lid ∉ m.moved u ∧ ∀ mode, (lid, mode) ∉ m.granted u := by
  have hmoved : lid ∉ m.moved u := fun hmoved => (h.apart hmoved hu.symm).2 .write ht
  refine ⟨hmoved, fun mode hgranted => ?_⟩
  by_cases hown : lid ∈ m.moved t
  · exact (h.apart hown hu).2 mode hgranted
  · obtain ⟨place, hplace, hholds⟩ := h.covers ht hown
    obtain ⟨place', hplace', hholds'⟩ := h.covers hgranted hmoved
    rw [hplace] at hplace'
    cases hplace'
    exact hu (h.guarded.exclusive hholds hholds')

/-- The object is the transaction's to write. -/
def Owns (m : TransactionManager n) (t : Fin n) (lid : Nat) : Prop :=
  (lid, .write) ∈ m.granted t ∨ lid ∈ m.moved t

theorem Locked.owner (h : m.Locked) (ht : m.Owns t lid) (hu : u ≠ t) :
    ¬m.Owns u lid ∧ ∀ mode, (lid, mode) ∉ m.granted u := by
  have hboth : lid ∉ m.moved u ∧ ∀ mode, (lid, mode) ∉ m.granted u := by
    rcases ht with ht | ht
    · exact h.alone ht hu
    · exact h.apart ht hu
  exact ⟨fun how => how.elim (hboth.2 .write) hboth.1, hboth.2⟩

-- ---------------------------------------------------------------------------
-- Steps of the lock manager
-- ---------------------------------------------------------------------------

theorem Locked.onLocks {c : ManagerCall (Fin n) Place} {locks : LockManager (Fin n) Place}
    (h : m.Locked) (hc : m.locks.Careful priority c) (hstep : m.locks.step priority c = some locks)
    (hown : ∀ t, m.granted t ≠ ∅ → LockManager.unlocksOne t c = false) :
    Locked { m with locks } := by
  refine ⟨h.guarded.step hc.1 hc.2.1 hc.2.2 hstep, fun {t lid mode} hgranted hmoved => ?_, h.apart⟩
  obtain ⟨place, hplace, hholds⟩ := h.covers hgranted hmoved
  exact ⟨place, hplace, h.guarded.holds_step hc.1 hstep hholds
    (hown t (Finset.ne_empty_of_mem hgranted))⟩

theorem holds_of_write {locks : LockManager (Fin n) Place} (h : locks.Holds t place .write) :
    locks.Holds t place mode := by
  obtain ⟨id, l, hmap, hl, hhas⟩ := h
  refine ⟨id, l, hmap, hl, ?_⟩
  cases mode with
  | read => exact .inr hhas
  | write => exact hhas

theorem granted_grant {v : Fin n} {x : Nat × AccessMode} :
    x ∈ (m.grant t lid mode next).granted v ↔ (v = t ∧ x = (lid, mode)) ∨ x ∈ m.granted v := by
  rcases eq_or_ne v t with rfl | hne
  · simp [grant]
  · simp [grant, hne]

theorem moved_grant {v : Fin n} {x : Nat} :
    x ∈ (m.grant t lid mode next).moved v ↔ x ∈ m.moved v ∧ ¬(v = t ∧ x = lid ∧ mode = .write) := by
  rcases eq_or_ne v t with rfl | hne
  · cases mode <;> simp [grant, and_comm]
  · cases mode <;> simp [grant, hne]

/-- An object is given to a transaction at the place where it is. -/
theorem Locked.grant (h : m.Locked) (hplace : getPhysicalID m.system.store lid = some place)
    (hholds : m.locks.Holds t place mode) (hfree : ∀ u, u ≠ t → lid ∉ m.moved u) :
    (m.grant t lid mode next).Locked := by
  refine ⟨h.guarded, fun {v i mode'} hgranted hmoved => ?_, fun {v u i} hmoved hne => ?_⟩
  · rw [moved_grant] at hmoved
    rcases granted_grant.mp hgranted with ⟨rfl, heq⟩ | hgranted
    · cases heq
      exact ⟨place, hplace, hholds⟩
    · by_cases hold : i ∈ m.moved v
      · -- it has locked again what it had moved
        obtain ⟨rfl, rfl, rfl⟩ : v = t ∧ i = lid ∧ mode = .write := by
          by_contra hnot
          exact hmoved ⟨hold, hnot⟩
        exact ⟨place, hplace, holds_of_write hholds⟩
      · exact h.covers hgranted hold
  · have hold := (moved_grant.mp hmoved).1
    obtain ⟨hnot, hgranted⟩ := h.apart hold hne
    refine ⟨fun hu => hnot (moved_grant.mp hu).1, fun mode' hu => ?_⟩
    rcases granted_grant.mp hu with ⟨rfl, heq⟩ | hu
    · cases heq
      exact hfree v (Ne.symm hne) hold
    · exact hgranted mode' hu

-- ---------------------------------------------------------------------------
-- The store and the log
-- ---------------------------------------------------------------------------

/-- What is known of an object of a transaction: it has an id. -/
def HasId (m : TransactionManager n) (lid : Nat) : Prop :=
  0 < lid ∧ lid ≤ m.system.store.lastAssigned

/-- The transactions own what they have written, as long as they have not unlocked. -/
structure Stored (m : TransactionManager n) : Prop where
  sound : m.system.store.Sound
  small : m.system.store.lastAssigned ≤ maxLogicalID
  granted {t : Fin n} {lid : Nat} {mode : AccessMode} : (lid, mode) ∈ m.granted t → m.HasId lid
  moved {t : Fin n} {lid : Nat} : lid ∈ m.moved t → m.HasId lid
  working {w : Work} : w ∈ m.system.work → ∃ t : Fin n, w.tid = t ∧
    (∃ again, m.stage t = .inside again) ∧ ∀ c ∈ w.changes, c.r.tid = w.tid ∧ c.r.lid ∈ m.moved t
  wrote {u lid : Nat} : Wrote m.system.log u lid → ∃ t : Fin n, u = t ∧
    (m.stage t = .unlocking ∨ m.stage t = .ended ∨ m.Owns t lid)
  undoing {u : Nat} {rest : List LogRecord} : m.system.stage u = .undoing rest →
    ∃ t : Fin n, u = t ∧ m.stage t = .ending ∧ ∀ r, .write r ∈ rest → r.tid = u → r.lid ∈ m.moved t
  waiting {t : Fin n} {lid : Nat} {mode : AccessMode} {place : Place} {next : Option Operation} :
    m.stage t = .locking lid mode place next →
      ∀ c ∈ next, mode = .write ∧ locksFirst c = true ∧ object m.system.store c = lid
  ready {t : Fin n} {c : Operation} : m.stage t = .locked c →
    locksFirst c = true ∧ (object m.system.store c, .write) ∈ m.granted t

theorem stored_init (k : Nat) : (init k : TransactionManager n).Stored where
  sound := DBStoreManager.sound_init
  small := Nat.zero_le _
  granted := nofun
  moved := nofun
  working := nofun
  wrote := by
    rintro u lid ⟨r, hr, -⟩
    cases hr
  undoing := nofun
  waiting := nofun
  ready := nofun

/-- The object that a step moves has been moved by the transaction at work. -/
theorem Stored.touched {e : System.Event} (h : m.Stored) (htouches : m.system.touches e = some lid) :
    ∃ t : Fin n, lid ∈ m.moved t ∧
      ((e = .work ∧ ∃ w ∈ m.system.work, w.tid = t) ∨ e = .undo t) := by
  cases e with
  | work =>
    simp only [System.touches] at htouches
    split at htouches
    · rename_i w c rest hwork
      cases htouches
      obtain ⟨t, ht, -, hall⟩ := h.working hwork
      exact ⟨t, (hall c List.mem_cons_self).2, .inl ⟨rfl, _, hwork, ht⟩⟩
    · cases htouches
  | undo u =>
    simp only [System.touches] at htouches
    split at htouches
    · rename_i r rest hstage
      split at htouches
      · rename_i htid
        cases htouches
        obtain ⟨t, rfl, -, hall⟩ := h.undoing hstage
        exact ⟨t, hall r List.mem_cons_self htid, .inr rfl⟩
      · cases htouches
    · cases htouches
  | enter | begin u | call u c | commit u | abort u | rollback u | leave u | ckpt | endCkpt =>
    cases htouches

theorem Stored.addressed (h : m.Stored) : m.system.Addressed := by
  intro e lid htouches
  obtain ⟨t, hmoved, -⟩ := h.touched htouches
  obtain ⟨hpos, hle⟩ := h.moved hmoved
  exact ⟨hpos, hle.trans h.small, hle⟩

theorem object_congr {c : Operation} (hc : locksFirst c = true) (s s' : DBStoreManager) :
    object s c = object s' c := by
  cases c with
  | createObject name value => cases hc
  | _ => rfl

/-- A step of the store and the log that begins no call and no rollback. -/
theorem Stored.onSystem {e : System.Event} {system : System} (h : m.Stored)
    (hcall : ∀ t c, e ≠ .call t c) (habort : ∀ t, e ≠ .abort t)
    (hs : m.system.step e = some system) : Stored { m with system } := by
  have hlast := System.step_lastAssigned_eq h.sound h.addressed hcall hs
  have hid (lid : Nat) (hlid : m.HasId lid) : HasId { m with system } lid :=
    ⟨hlid.1, hlast ▸ hlid.2⟩
  refine ⟨System.step_sound h.sound hs, hlast ▸ h.small, fun hg => hid _ (h.granted hg),
    fun hmoved => hid _ (h.moved hmoved), fun {w} hw => ?_, fun {u lid} hw => ?_,
    fun {u rest} hu => ?_, fun hstage c hc => ?_, fun {t c} hstage => ?_⟩
  · obtain ⟨w₀, hw₀, htid, hsub⟩ := System.step_work hcall hs hw
    obtain ⟨t, ht, hinside, hall⟩ := h.working hw₀
    exact ⟨t, htid.trans ht, hinside, fun c hc => htid ▸ hall c (hsub hc)⟩
  · rcases System.step_wrote hs hw with hw | ⟨w, hwork, c, hc, rfl, rfl⟩
    · exact h.wrote hw
    · obtain ⟨t, ht, -, hall⟩ := h.working hwork
      exact ⟨t, (hall c hc).1.trans ht, .inr (.inr (.inr (hall c hc).2))⟩
  · rcases System.step_undoing hs hu with ⟨rest₀, hu₀, hsub⟩ | ⟨heq, -⟩
    · obtain ⟨t, ht, hending, hall⟩ := h.undoing hu₀
      exact ⟨t, ht, hending, fun r hr => hall r (hsub hr)⟩
    · exact absurd heq (habort u)
  · obtain ⟨hmode, hfirst, hobject⟩ := h.waiting hstage c hc
    exact ⟨hmode, hfirst, (object_congr hfirst ..).trans hobject⟩
  · obtain ⟨hfirst, hgranted⟩ := h.ready hstage
    exact ⟨hfirst, object_congr hfirst m.system.store system.store ▸ hgranted⟩

/-- A transaction that is not at work comes to another place. -/
theorem Stored.goto {g : CallStage} (h : m.Stored) (hwork : ∀ w ∈ m.system.work, w.tid ≠ t)
    (hopen : m.stage t ≠ .unlocking ∧ m.stage t ≠ .ended ∧ m.stage t ≠ .ending)
    (hwait : ∀ lid mode place next, g = .locking lid mode place next →
      ∀ c ∈ next, mode = .write ∧ locksFirst c = true ∧ object m.system.store c = lid)
    (hready : ∀ c, g ≠ .locked c) : (m.goto t g).Stored := by
  have hother {u : Fin n} (hu : u ≠ t) : (m.goto t g).stage u = m.stage u := goto_other hu
  have hself : (m.goto t g).stage t = g := goto_self
  refine ⟨h.sound, h.small, h.granted, h.moved, fun {w} hw => ?_, fun {u lid} hw => ?_,
    fun {u rest} hu => ?_, fun {u lid mode place next} hstage => ?_, fun {u c} hstage => ?_⟩
  · obtain ⟨u, hu, hinside, hall⟩ := h.working hw
    have hne : u ≠ t := by
      rintro rfl
      exact hwork w hw hu
    exact ⟨u, hu, by rwa [hother hne], hall⟩
  · obtain ⟨v, rfl, hv⟩ := h.wrote hw
    refine ⟨v, rfl, ?_⟩
    rcases eq_or_ne v t with rfl | hne
    · exact .inr (.inr (hv.resolve_left hopen.1 |>.resolve_left hopen.2.1))
    · rwa [hother hne]
  · obtain ⟨v, rfl, hending, hall⟩ := h.undoing hu
    have hne : v ≠ t := by
      rintro rfl
      exact hopen.2.2 hending
    exact ⟨v, rfl, by rwa [hother hne], hall⟩
  · rcases eq_or_ne u t with rfl | hne
    · exact hwait lid mode place next (hself ▸ hstage)
    · exact h.waiting (hother hne ▸ hstage)
  · rcases eq_or_ne u t with rfl | hne
    · exact absurd (hself ▸ hstage) (hready c)
    · exact h.ready (hother hne ▸ hstage)

theorem Stored.owns_grant {i : Nat} {v : Fin n} (h : m.Owns v i) :
    (m.grant t lid mode next).Owns v i := by
  rcases h with h | h
  · exact .inl (granted_grant.mpr (.inr h))
  · by_cases hnew : v = t ∧ i = lid ∧ mode = .write
    · obtain ⟨rfl, rfl, rfl⟩ := hnew
      exact .inl (granted_grant.mpr (.inl ⟨rfl, rfl⟩))
    · exact .inr (moved_grant.mpr ⟨h, hnew⟩)

theorem Stored.grant (h : m.Stored) (hwork : ∀ w ∈ m.system.work, w.tid ≠ t) (hid : m.HasId lid)
    (hopen : m.stage t ≠ .unlocking ∧ m.stage t ≠ .ended ∧ m.stage t ≠ .ending)
    (hnext : ∀ c ∈ next, mode = .write ∧ locksFirst c = true ∧ object m.system.store c = lid) :
    (m.grant t lid mode next).Stored := by
  have hother {u : Fin n} (hu : u ≠ t) : (m.grant t lid mode next).stage u = m.stage u :=
    Function.update_of_ne hu ..
  have hself : (m.grant t lid mode next).stage t = next.elim .idle .locked :=
    Function.update_self ..
  have hkeep {v : Fin n} {i : Nat} (hv : v ≠ t) (hi : i ∈ m.moved v) :
      i ∈ (m.grant t lid mode next).moved v := moved_grant.mpr ⟨hi, fun hnew => hv hnew.1⟩
  refine ⟨h.sound, h.small, fun {u i mode'} hg => ?_, fun hmoved => h.moved (moved_grant.mp hmoved).1,
    fun {w} hw => ?_, fun {u i} hw => ?_, fun {u rest} hu => ?_,
    fun {u i mode' place next'} hstage => ?_, fun {u c} hstage => ?_⟩
  · rcases granted_grant.mp hg with ⟨-, heq⟩ | hg
    · cases heq
      exact hid
    · exact h.granted hg
  · obtain ⟨u, hu, hinside, hall⟩ := h.working hw
    have hne : u ≠ t := by
      rintro rfl
      exact hwork w hw hu
    exact ⟨u, hu, by rwa [hother hne], fun c hc => ⟨(hall c hc).1, hkeep hne (hall c hc).2⟩⟩
  · obtain ⟨v, rfl, hv⟩ := h.wrote hw
    refine ⟨v, rfl, ?_⟩
    rcases eq_or_ne v t with rfl | hne
    · exact .inr (.inr (owns_grant (hv.resolve_left hopen.1 |>.resolve_left hopen.2.1)))
    · rw [hother hne]
      exact hv.imp_right (Or.imp_right owns_grant)
  · obtain ⟨v, rfl, hending, hall⟩ := h.undoing hu
    have hne : v ≠ t := by
      rintro rfl
      exact hopen.2.2 hending
    exact ⟨v, rfl, by rwa [hother hne], fun r hr htid => hkeep hne (hall r hr htid)⟩
  · rcases eq_or_ne u t with rfl | hne
    · rw [hself] at hstage
      cases next <;> cases hstage
    · exact h.waiting (hother hne ▸ hstage)
  · rcases eq_or_ne u t with rfl | hne
    · rw [hself] at hstage
      cases next with
      | none => cases hstage
      | some c' =>
        cases hstage
        obtain ⟨rfl, hfirst, rfl⟩ := hnext c rfl
        exact ⟨hfirst, granted_grant.mpr (.inl ⟨rfl, rfl⟩)⟩
    · obtain ⟨hfirst, hgranted⟩ := h.ready (hother hne ▸ hstage)
      exact ⟨hfirst, granted_grant.mpr (.inr hgranted)⟩

/-- The changes of a call are its own and on its object. -/
theorem changes_mem {c : Operation} {s : DBStoreManager} {k tid : Nat} {x : Change}
    (hk : ∀ name value, c = .createObject name value → k = s.lastAssigned + 1)
    (hx : x ∈ c.changes tid k) : x.r.tid = tid ∧ x.r.lid = object s c := by
  cases c with
  | createObject name value =>
    cases List.mem_singleton.mp hx
    exact ⟨rfl, hk name value rfl⟩
  | modifyObject o dv | addRoot o | removeRoot o =>
    rcases List.mem_cons.mp hx with rfl | hx
    · exact ⟨rfl, rfl⟩
    · cases List.mem_singleton.mp hx
      exact ⟨rfl, rfl⟩
  | deleteObject o =>
    cases List.mem_singleton.mp hx
    exact ⟨rfl, rfl⟩
  | getObject lid => cases hx

/-- What a call has to do is its own. -/
theorem work_of_call {c : Operation} {s : DBStoreManager} {tid : Nat} {w : Work}
    (hw : w ∈ Work.of tid (c.changes tid (c.assign s).lastAssigned)) :
    w.tid = tid ∧ ∀ x ∈ w.changes, x.r.tid = tid ∧ x.r.lid = object s c := by
  have hmem {x : Change} (hx : x ∈ c.changes tid (c.assign s).lastAssigned) :
      x.r.tid = tid ∧ x.r.lid = object s c := by
    refine changes_mem ?_ hx
    rintro name value rfl
    rfl
  cases hl : c.changes tid (c.assign s).lastAssigned with
  | nil => simp [hl, Work.of] at hw
  | cons x rest =>
    simp only [hl, Work.of, Option.mem_def, Option.some.injEq] at hw
    rw [← hw]
    exact ⟨rfl, fun x hx => hmem (hl ▸ hx)⟩

theorem assign_last {c : Operation} {s : DBStoreManager} :
    s.lastAssigned ≤ (c.assign s).lastAssigned ∧
      ((c.assign s).lastAssigned = s.lastAssigned ∨
        (c.assign s).lastAssigned = s.lastAssigned + 1 ∧ object s c = s.lastAssigned + 1) := by
  cases c with
  | createObject name value => exact ⟨Nat.le_succ _, .inr ⟨rfl, rfl⟩⟩
  | _ => exact ⟨Nat.le_refl _, .inl rfl⟩

theorem getPhysicalID_congr {s s' : DBStoreManager} {i : Nat} (h : Stays s s' i) :
    getPhysicalID s' i = getPhysicalID s i := by
  unfold getPhysicalID
  rw [h.place]

/-- Nothing that is given to a transaction is moved by another. -/
theorem Locked.onSystem {e : System.Event} {system : System} (h : m.Locked) (hstored : m.Stored)
    (hs : m.system.step e = some system) : Locked { m with system } := by
  refine ⟨h.guarded, fun {t lid mode} hgranted hmoved => ?_, h.apart⟩
  obtain ⟨place, hplace, hholds⟩ := h.covers hgranted hmoved
  have htouches : m.system.touches e ≠ some lid := by
    intro htouches
    obtain ⟨u, hu, -⟩ := hstored.touched htouches
    rcases eq_or_ne u t with rfl | hne
    · exact hmoved hu
    · exact (h.apart hu hne.symm).2 mode hgranted
  have hstays := System.step_stays hstored.sound hstored.addressed hs htouches
    (hstored.granted hgranted).2
  exact ⟨place, (getPhysicalID_congr hstays).trans hplace, hholds⟩

/-- A transaction is going to move objects that nobody else has. -/
theorem Locked.move {S : Finset Nat} (h : m.Locked) (hsub : m.moved t ⊆ S)
    (hfree : ∀ i ∈ S, ∀ u, u ≠ t → i ∉ m.moved u ∧ ∀ mode, (i, mode) ∉ m.granted u) :
    Locked { m with moved := Function.update m.moved t S } := by
  have hother {u : Fin n} (hu : u ≠ t) : Function.update m.moved t S u = m.moved u :=
    Function.update_of_ne hu ..
  have hself : Function.update m.moved t S t = S := Function.update_self ..
  refine ⟨h.guarded, fun {v lid mode} hgranted hmoved => ?_, fun {v u lid} hmoved hne => ?_⟩
  · refine h.covers hgranted fun hold => hmoved ?_
    simp only
    rcases eq_or_ne v t with rfl | hne
    · rw [hself]
      exact hsub hold
    · rw [hother hne]
      exact hold
  · simp only at hmoved ⊢
    rcases eq_or_ne v t with rfl | hv
    · rw [hself] at hmoved
      rw [hother hne]
      exact hfree lid hmoved u hne
    · rw [hother hv] at hmoved
      refine ⟨?_, (h.apart hmoved hne).2⟩
      rcases eq_or_ne u t with rfl | hu
      · rw [hself]
        exact fun hin => (hfree lid hin v hv).1 hmoved
      · rw [hother hu]
        exact (h.apart hmoved hne).1

/-- The object of a call is its transaction's alone. -/
theorem Locked.object_free {c : Operation} (h : m.Locked) (hstored : m.Stored)
    (hhas : (∃ name value, c = .createObject name value) ∨
      (object m.system.store c, .write) ∈ m.granted t) (hu : u ≠ t) :
    object m.system.store c ∉ m.moved u ∧ ∀ mode, (object m.system.store c, mode) ∉ m.granted u := by
  rcases hhas with ⟨name, value, rfl⟩ | hgranted
  · exact ⟨fun hmoved => Nat.not_succ_le_self _ (hstored.moved hmoved).2,
      fun mode hgranted => Nat.not_succ_le_self _ (hstored.granted hgranted).2⟩
  · exact h.alone hgranted hu

theorem Locked.enter {c : Operation} (h : m.Locked) (hstored : m.Stored)
    (hhas : (∃ name value, c = .createObject name value) ∨
      (object m.system.store c, .write) ∈ m.granted t) (hs : m.enter t c = some m') : m'.Locked := by
  unfold TransactionManager.enter at hs
  rw [Option.bind_eq_bind, Option.bind_eq_some_iff] at hs
  obtain ⟨system, hsystem, hs⟩ := hs
  cases hs
  have hmove := (h.onSystem hstored hsystem).move (t := t)
    (S := insert (object m.system.store c) (m.moved t)) (Finset.subset_insert _ _) (by
      intro i hi u hu
      rcases Finset.mem_insert.mp hi with rfl | hi
      · exact h.object_free hstored hhas hu
      · exact h.apart hi hu)
  exact ⟨hmove.guarded, hmove.covers, hmove.apart⟩

theorem Stored.enter {c : Operation} (h : m.Stored) (hlegal : m.system.Legal (.call t c))
    (hopen : m.stage t ≠ .unlocking ∧ m.stage t ≠ .ended ∧ m.stage t ≠ .ending)
    (hhas : (∃ name value, c = .createObject name value) ∨
      (object m.system.store c, .write) ∈ m.granted t) (hs : m.enter t c = some m') : m'.Stored := by
  unfold TransactionManager.enter at hs
  rw [Option.bind_eq_bind, Option.bind_eq_some_iff] at hs
  obtain ⟨system, hsystem, hs⟩ := hs
  cases hs
  obtain ⟨hrun, hwork, hallowed⟩ := hlegal
  have hsound := System.step_sound h.sound hsystem
  cases hsystem
  set lid := object m.system.store c with hlid
  obtain ⟨hle, hlast⟩ := @assign_last c m.system.store
  have hgrow {i : Nat} (hi : m.HasId i) : 0 < i ∧ i ≤ (c.assign m.system.store).lastAssigned :=
    ⟨hi.1, hi.2.trans hle⟩
  have hmoved {u : Fin n} {i : Nat} (hi : i ∈ m.moved u) :
      i ∈ Function.update m.moved t (insert lid (m.moved t)) u := by
    rcases eq_or_ne u t with rfl | hne
    · rw [Function.update_self]
      exact Finset.mem_insert_of_mem hi
    · rwa [Function.update_of_ne hne]
  refine ⟨hsound, ?_, fun hg => hgrow (h.granted hg), fun {u i} hi => ?_, fun {w} hw => ?_,
    fun {u i} hw => ?_, fun {u rest} hu => ?_, fun {u i mode place next} hstage => ?_,
    fun {u c'} hstage => ?_⟩
  · cases c with
    | createObject name value => exact hallowed.1
    | _ => exact h.small
  · rcases eq_or_ne u t with rfl | hne
    · simp only [Function.update_self] at hi
      rcases Finset.mem_insert.mp hi with rfl | hi
      · rcases hhas with ⟨name, value, rfl⟩ | hgranted
        · exact ⟨Nat.succ_pos _, Nat.le_refl _⟩
        · exact hgrow (h.granted hgranted)
      · exact hgrow (h.moved hi)
    · simp only [Function.update_of_ne hne] at hi
      exact hgrow (h.moved hi)
  · obtain ⟨htid, hchanges⟩ := work_of_call hw
    refine ⟨t, htid, ⟨_, Function.update_self ..⟩, fun x hx => ?_⟩
    obtain ⟨hxtid, hxlid⟩ := hchanges x hx
    refine ⟨hxtid.trans htid.symm, ?_⟩
    simp only [Function.update_self, hxlid]
    exact Finset.mem_insert_self _ _
  · obtain ⟨v, rfl, hv⟩ := h.wrote hw
    refine ⟨v, rfl, ?_⟩
    have howns (how : m.Owns v i) : (i, AccessMode.write) ∈ m.granted v ∨
        i ∈ Function.update m.moved t (insert lid (m.moved t)) v := how.imp_right hmoved
    rcases eq_or_ne v t with rfl | hne
    · exact .inr (.inr (howns (hv.resolve_left hopen.1 |>.resolve_left hopen.2.1)))
    · simp only [goto_other hne]
      exact hv.imp_right (Or.imp_right howns)
  · obtain ⟨v, rfl, hending, hall⟩ := h.undoing hu
    have hne : v ≠ t := by
      rintro rfl
      exact hopen.2.2 hending
    exact ⟨v, rfl, by simpa only [goto_other hne] using hending,
      fun r hr htid => hmoved (hall r hr htid)⟩
  · rcases eq_or_ne u t with rfl | hne
    · simp at hstage
    · simp only [goto_other hne] at hstage
      intro c' hc'
      obtain ⟨hmode, hfirst, hobject⟩ := h.waiting hstage c' hc'
      exact ⟨hmode, hfirst, (object_congr hfirst ..).trans hobject⟩
  · rcases eq_or_ne u t with rfl | hne
    · simp at hstage
    · simp only [goto_other hne] at hstage
      obtain ⟨hfirst, hgranted⟩ := h.ready hstage
      exact ⟨hfirst, object_congr hfirst m.system.store _ ▸ hgranted⟩

end TransactionManager

end Loxim.TManager
