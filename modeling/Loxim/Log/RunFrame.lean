import Loxim.Log.RunHistory

/-!
# What a step leaves as it is

A step of a run moves at most one object: a change that is made or undone moves the
object of its record, and a new object gets the next id. Every other object stays
where and what it is.
-/

namespace Loxim.Log

open Store

variable {d d' : DBStoreManager} {r : WriteRecord} {c : Change} {lid i : Nat} {s s' : System}
  {e : System.Event} {t : Nat}

/-- The object is where and what it was. -/
structure Stays (d d' : DBStoreManager) (i : Nat) : Prop where
  place : d'.getPhysicalID i = d.getPhysicalID i
  object : d'.object i = d.object i

theorem Stays.refl : Stays d d i := ⟨rfl, rfl⟩

theorem stays_of_map (hmap : d'.map i = d.map i) (hobject : d'.object i = d.object i)
    (hlast : d'.lastAssigned = d.lastAssigned) : Stays d d' i := by
  refine ⟨?_, hobject⟩
  unfold DBStoreManager.getPhysicalID
  rw [hmap, hlast]

/-- Only the deleted object is affected, if it was there. -/
theorem deleteFromStore_stays (h : d.Sound) (hi : i ≠ r.lid) :
    Stays d (r.deleteFromStore d).1 i ∧ (r.deleteFromStore d).1.lastAssigned = d.lastAssigned := by
  cases ho : d.object r.lid with
  | none =>
    obtain ⟨e, he⟩ := deleteObject_missing h ho
    rw [WriteRecord.deleteFromStore, he]
    exact ⟨.refl, rfl⟩
  | some o =>
    obtain ⟨s', hs', -, hobject, hmap, hlast⟩ := h.deleteObject ho
    rw [WriteRecord.deleteFromStore, hs']
    refine ⟨stays_of_map ?_ ?_ hlast, hlast⟩
    · simp only [hmap, Function.update_of_ne hi]
    · simp only [hobject, Function.update_of_ne hi]

/-- Only the created object is affected. -/
theorem createObject_stays {name : List (BitVec 8)} {v : DataValue} {isRoot : Bool} {o : Object}
    (h : d.Sound) (hpos : 0 < lid) (hmax : lid ≤ maxLogicalID) (hassigned : lid ≤ d.lastAssigned)
    (hs : d.createObject name v (some lid) isRoot = some (d', o)) (hi : i ≠ lid) :
    Stays d d' i ∧ d'.lastAssigned = d.lastAssigned := by
  have hsize : ({ lid, isRoot, name, value := v } : Object).size + 4 ≤ maxFreeSpace := by
    simp only [DBStoreManager.createObject] at hs
    obtain ⟨⟨s₁, id⟩, hins, -⟩ := Option.bind_eq_some_iff.mp hs
    exact h.fits_of_insertObject hins
  obtain ⟨s', hs', -, hobject, hmap, -, -, hlast⟩ :=
    h.createObject (o := { lid, isRoot, name, value := v }) hpos hmax hsize
  simp only at hs'
  rw [hs] at hs'
  cases hs'
  have hlast' : d'.lastAssigned = d.lastAssigned := by
    rw [hlast]
    exact max_eq_left hassigned
  refine ⟨stays_of_map (hmap i hi) ?_ hlast', hlast'⟩
  simp only [hobject, Function.update_of_ne hi]

/-- A record of an object that has an id. -/
structure Assigned (d : DBStoreManager) (lid : Nat) : Prop where
  positive : 0 < lid
  max : lid ≤ maxLogicalID
  assigned : lid ≤ d.lastAssigned

theorem make_stays (h : d.Sound) (hlid : Assigned d c.r.lid) (hs : c.make d = some d')
    (hi : i ≠ c.r.lid) : Stays d d' i ∧ d'.lastAssigned = d.lastAssigned := by
  unfold Change.make at hs
  split at hs
  · obtain ⟨⟨d₁, o⟩, hs₁, rfl⟩ := Option.map_eq_some_iff.mp hs
    exact createObject_stays h hlid.positive hlid.max hlid.assigned hs₁ hi
  · cases hs
    exact deleteFromStore_stays h hi

theorem rollBack_stays {code : Int} (h : d.Sound) (hlid : Assigned d r.lid)
    (hs : r.rollBack d = some (d', code)) (hi : i ≠ r.lid) :
    Stays d d' i ∧ d'.lastAssigned = d.lastAssigned := by
  have hadd {d₁ : DBStoreManager} {name : List (BitVec 8)} {v : DataValue} (h₁ : d₁.Sound)
      (hlast : d₁.lastAssigned = d.lastAssigned)
      (hs : ((d₁.createObject name v (some r.lid) false).bind fun x => some (x.1, (0 : Int))) =
        some (d', code)) : Stays d₁ d' i ∧ d'.lastAssigned = d₁.lastAssigned := by
    obtain ⟨⟨d₂, o⟩, hs₂, hs⟩ := Option.bind_eq_some_iff.mp hs
    cases hs
    exact createObject_stays h₁ hlid.positive hlid.max (hlast ▸ hlid.assigned) hs₂ hi
  unfold WriteRecord.rollBack at hs
  split at hs
  · cases hs
    exact ⟨.refl, rfl⟩
  · rw [show d' = (r.deleteFromStore d).1 from (congrArg Prod.fst (Option.some.inj hs)).symm]
    exact deleteFromStore_stays h hi
  · exact hadd h rfl hs
  · unfold WriteRecord.changeValue at hs
    split at hs
    · obtain ⟨hstays, hlast⟩ := deleteFromStore_stays (r := r) h hi
      obtain ⟨hstays', hlast'⟩ := hadd (deleteFromStore_content h r).1 hlast hs
      exact ⟨⟨hstays'.place.trans hstays.place, hstays'.object.trans hstays.object⟩,
        hlast'.trans hlast⟩
    · cases hs
    · exact hadd h rfl hs

theorem rollBack_sound {code : Int} (h : d.Sound) (hs : r.rollBack d = some (d', code)) :
    d'.Sound := by
  have hadd {d₁ : DBStoreManager} {name : List (BitVec 8)} {v : DataValue} (h₁ : d₁.Sound)
      (hs : ((d₁.createObject name v (some r.lid) false).bind fun x => some (x.1, (0 : Int))) =
        some (d', code)) : d'.Sound := by
    obtain ⟨⟨d₂, o⟩, hs₂, hs⟩ := Option.bind_eq_some_iff.mp hs
    cases hs
    exact h₁.of_createObject hs₂
  unfold WriteRecord.rollBack at hs
  split at hs
  · cases hs
    exact h
  · rw [show d' = (r.deleteFromStore d).1 from (congrArg Prod.fst (Option.some.inj hs)).symm]
    exact (deleteFromStore_content h r).1
  · exact hadd h hs
  · unfold WriteRecord.changeValue at hs
    split at hs
    · exact hadd (deleteFromStore_content h r).1 hs
    · cases hs
    · exact hadd h hs

theorem make_sound (h : d.Sound) (hs : c.make d = some d') : d'.Sound := by
  unfold Change.make at hs
  split at hs
  · obtain ⟨⟨d₁, o⟩, hs₁, rfl⟩ := Option.map_eq_some_iff.mp hs
    exact h.of_createObject hs₁
  · cases hs
    exact (deleteFromStore_content h c.r).1

-- ---------------------------------------------------------------------------
-- Steps of a run
-- ---------------------------------------------------------------------------

namespace System

/-- The object that a step moves. -/
def touches (s : System) : Event → Option Nat
  | .work =>
    match s.work with
    | some ⟨_, c :: _, true⟩ => some c.r.lid
    | _ => none
  | .undo t =>
    match s.stage t with
    | .undoing (.write r :: _) => if r.tid = t then some r.lid else none
    | _ => none
  | .enter | .begin _ | .call _ _ | .commit _ | .abort _ | .rollback _ | .leave _ | .ckpt
  | .endCkpt => none

/-- A step that changes the store makes a change, undoes one or gives an id. -/
inductive Moves (s : System) (e : Event) (d : DBStoreManager) : Prop
  | none (hsame : d = s.store) (htouches : s.touches e = Option.none)
  | id (hnew : d = s.store.createLogicalID) (htouches : s.touches e = Option.none)
    (hcall : ∃ t name value, e = .call t (.createObject name value))
  | make {c : Change} (htouches : s.touches e = some c.r.lid)
    (hwork : ∃ w ∈ s.work, w.changes.head? = some c) (hmake : c.make s.store = some d)
  | undo {r : WriteRecord} {code : Int} (htouches : s.touches e = some r.lid)
    (hundo : ∃ rest, s.stage r.tid = .undoing (.write r :: rest))
    (hback : r.rollBack s.store = some (d, code))

theorem moves_of_step (hs : s.step e = some s') : s.Moves e s'.store := by
  cases e with
  | enter | begin t | commit t | abort t | rollback t | leave t | ckpt =>
    cases hs
    exact .none rfl rfl
  | call t c =>
    cases hs
    cases c with
    | createObject name value => exact .id rfl rfl ⟨t, name, value, rfl⟩
    | modifyObject o dv | deleteObject o | addRoot o | removeRoot o | getObject lid =>
      exact .none rfl rfl
  | work =>
    obtain ⟨⟨t, changes, logged⟩, hwork, hs⟩ := Option.bind_eq_some_iff.mp hs
    cases changes with
    | nil => cases hs
    | cons c rest =>
      cases logged with
      | false =>
        cases hs
        exact .none rfl (by simp [touches, hwork])
      | true =>
        obtain ⟨d, hd, hs⟩ := Option.bind_eq_some_iff.mp hs
        cases hs
        exact .make (c := c) (by simp [touches, hwork]) ⟨_, hwork, rfl⟩ hd
  | undo t =>
    cases ht : s.stage t with
    | undoing rest =>
      simp only [System.step, ht] at hs
      cases rest with
      | nil =>
        cases hs
        exact .none rfl (by simp [touches, ht])
      | cons x rest =>
        cases x with
        | write r =>
          simp only [System.undo] at hs
          split at hs
          · rename_i htid
            obtain ⟨⟨d, code⟩, hd, hs⟩ := Option.bind_eq_some_iff.mp hs
            cases hs
            exact .undo (r := r) (by simp [touches, ht, htid]) ⟨rest, by rw [htid, ht]⟩ hd
          · rename_i htid
            cases hs
            exact .none rfl (by simp [touches, ht, htid])
        | begin u | commit u | rollback u | ckpt tids | endCkpt | shutdown =>
          cases hs
          exact .none rfl (by simp [touches, ht])
    | unborn | entered | running | committed | undone | failed | rolledBack =>
      simp [System.step, ht] at hs
  | endCkpt =>
    obtain ⟨d, -, rfl⟩ := Option.map_eq_some_iff.mp hs
    exact .none rfl rfl

/-- Changes that are to be made or undone have objects with ids. -/
def Addressed (s : System) : Prop := ∀ e lid, s.touches e = some lid → Assigned s.store lid

theorem step_sound (h : s.store.Sound) (hs : s.step e = some s') : s'.store.Sound := by
  cases moves_of_step hs with
  | none hsame => exact hsame ▸ h
  | id hnew => exact hnew ▸ h.createLogicalID.1
  | make _ _ hmake => exact make_sound h hmake
  | undo _ _ hback => exact rollBack_sound h hback

/-- What a step does not move stays, but for the id that is given next. -/
theorem step_stays (h : s.store.Sound) (haddressed : s.Addressed) (hs : s.step e = some s')
    (hi : s.touches e ≠ some i) (hlast : i ≤ s.store.lastAssigned) : Stays s.store s'.store i := by
  cases moves_of_step hs with
  | none hsame => exact hsame ▸ .refl
  | id hnew =>
    obtain ⟨-, hmap, hobject⟩ := h.createLogicalID
    rw [hnew]
    refine ⟨?_, congrFun hobject i⟩
    unfold DBStoreManager.getPhysicalID
    rw [hmap]
    have hnot : ¬s.store.createLogicalID.lastAssigned < i := by
      simp only [DBStoreManager.createLogicalID]
      omega
    simp [hnot, not_lt.mpr hlast]
  | make htouches _ hmake =>
    exact (make_stays h (haddressed e _ htouches) hmake fun heq =>
      hi (htouches.trans (congrArg some heq.symm))).1
  | undo htouches _ hback =>
    exact (rollBack_stays h (haddressed e _ htouches) hback fun heq =>
      hi (htouches.trans (congrArg some heq.symm))).1

theorem step_lastAssigned (h : s.store.Sound) (haddressed : s.Addressed) (hs : s.step e = some s') :
    s.store.lastAssigned ≤ s'.store.lastAssigned := by
  cases moves_of_step hs with
  | none hsame => rw [hsame]
  | id hnew =>
    rw [hnew]
    exact Nat.le_succ _
  | @make c htouches _ hmake =>
    exact (make_stays (i := c.r.lid + 1) h (haddressed e _ htouches) hmake (by omega)).2.ge
  | @undo r code htouches _ hback =>
    exact (rollBack_stays (i := r.lid + 1) h (haddressed e _ htouches) hback (by omega)).2.ge

/-- Only a call begins work; a step goes on with it. -/
theorem step_work (he : ∀ t c, e ≠ .call t c) (hs : s.step e = some s') {w' : Work}
    (hw' : w' ∈ s'.work) : ∃ w ∈ s.work, w'.tid = w.tid ∧ w'.changes ⊆ w.changes := by
  cases e with
  | call t c => exact absurd rfl (he t c)
  | work =>
    obtain ⟨⟨t, changes, logged⟩, hwork, hs⟩ := Option.bind_eq_some_iff.mp hs
    refine ⟨_, hwork, ?_⟩
    cases changes with
    | nil => cases hs
    | cons c rest =>
      cases logged with
      | false =>
        cases hs
        cases hw'
        exact ⟨rfl, List.Subset.refl _⟩
      | true =>
        obtain ⟨d, -, hs⟩ := Option.bind_eq_some_iff.mp hs
        cases hs
        cases rest with
        | nil => cases hw'
        | cons c' rest =>
          cases hw'
          exact ⟨rfl, List.subset_cons_self _ _⟩
  | undo t =>
    have hsame : s'.work = s.work := by
      cases ht : s.stage t with
      | undoing rest =>
        simp only [System.step, ht] at hs
        cases rest with
        | nil =>
          cases hs
          rfl
        | cons x rest =>
          cases x with
          | write r =>
            simp only [System.undo] at hs
            split at hs
            · obtain ⟨x, -, hs⟩ := Option.bind_eq_some_iff.mp hs
              cases hs
              rfl
            · cases hs
              rfl
          | begin u | commit u | rollback u | ckpt tids | endCkpt | shutdown =>
            cases hs
            rfl
      | unborn | entered | running | committed | undone | failed | rolledBack =>
        simp [System.step, ht] at hs
    exact ⟨w', hsame ▸ hw', rfl, List.Subset.refl _⟩
  | endCkpt =>
    obtain ⟨d, -, rfl⟩ := Option.map_eq_some_iff.mp hs
    exact ⟨w', hw', rfl, List.Subset.refl _⟩
  | enter | begin t | commit t | abort t | rollback t | leave t | ckpt =>
    cases hs
    exact ⟨w', hw', rfl, List.Subset.refl _⟩

/-- What is logged as written is a change in the work. -/
theorem step_wrote (hs : s.step e = some s') {u : Nat} (hw : Wrote s'.log u lid) :
    Wrote s.log u lid ∨ ∃ w ∈ s.work, ∃ c ∈ w.changes, c.r.tid = u ∧ c.r.lid = lid := by
  have hskip {x : LogRecord} (hlog : s'.log = x :: s.log) (hx : ∀ r, x ≠ .write r) :
      Wrote s.log u lid := (wrote_cons hx).mp (hlog ▸ hw)
  cases e with
  | work =>
    obtain ⟨⟨t, changes, logged⟩, hwork, hs⟩ := Option.bind_eq_some_iff.mp hs
    cases changes with
    | nil => cases hs
    | cons c rest =>
      cases logged with
      | false =>
        cases hs
        rcases wrote_write.mp hw with ⟨htid, hlid⟩ | hw
        · exact .inr ⟨_, hwork, c, List.mem_cons_self, htid, hlid⟩
        · exact .inl hw
      | true =>
        obtain ⟨d, -, hs⟩ := Option.bind_eq_some_iff.mp hs
        cases hs
        exact .inl hw
  | undo t =>
    cases ht : s.stage t with
    | undoing rest =>
      simp only [System.step, ht] at hs
      exact .inl (undo_log hs ▸ hw)
    | unborn | entered | running | committed | undone | failed | rolledBack =>
      simp [System.step, ht] at hs
  | endCkpt =>
    obtain ⟨d, -, rfl⟩ := Option.map_eq_some_iff.mp hs
    exact .inl (hskip rfl fun _ heq => by cases heq)
  | enter | call t c | abort t | leave t =>
    cases hs
    exact .inl hw
  | begin t | commit t | rollback t | ckpt =>
    cases hs
    exact .inl (hskip rfl fun _ heq => by cases heq)

/-- A rollback starts with the log and goes on with what is left of it. -/
theorem step_undoing (hs : s.step e = some s') {u : Nat} {rest' : List LogRecord}
    (hu : s'.stage u = .undoing rest') :
    (∃ rest, s.stage u = .undoing rest ∧ rest' ⊆ rest) ∨ (e = .abort u ∧ rest' = s.log) := by
  have hset {t : Nat} {g : Stage} (hstage : s'.stage = Function.update s.stage t g)
      (hg : ∀ rest, g ≠ .undoing rest) : s.stage u = .undoing rest' := by
    rw [hstage] at hu
    rcases eq_or_ne u t with rfl | hne
    · rw [Function.update_self] at hu
      exact absurd hu (hg rest')
    · rwa [Function.update_of_ne hne] at hu
  cases e with
  | undo t =>
    left
    cases ht : s.stage t with
    | undoing rest =>
      simp only [System.step, ht] at hs
      have hkeep {x : LogRecord} {rest₁ : List LogRecord} {g : Stage}
          (hg : ∀ rest, g = .undoing rest → rest = rest₁) (ht : s.stage t = .undoing (x :: rest₁))
          (hstage : s'.stage = Function.update s.stage t g) :
          ∃ rest, s.stage u = .undoing rest ∧ rest' ⊆ rest := by
        rw [hstage] at hu
        rcases eq_or_ne u t with rfl | hne
        · rw [Function.update_self] at hu
          exact ⟨_, ht, hg rest' hu ▸ List.subset_cons_self _ _⟩
        · rw [Function.update_of_ne hne] at hu
          exact ⟨rest', hu, List.Subset.refl _⟩
      cases rest with
      | nil =>
        cases hs
        exact ⟨rest', hset rfl (fun _ heq => by cases heq), List.Subset.refl _⟩
      | cons x rest =>
        cases x with
        | begin u' =>
          cases hs
          refine hkeep (fun rest₂ h₂ => ?_) ht rfl
          split at h₂
          · cases h₂
          · cases h₂
            rfl
        | write r =>
          simp only [System.undo] at hs
          split at hs
          · obtain ⟨⟨d, code⟩, -, hs⟩ := Option.bind_eq_some_iff.mp hs
            cases hs
            refine hkeep (fun rest₂ h₂ => ?_) ht rfl
            split at h₂
            · cases h₂
            · cases h₂
              rfl
          · cases hs
            exact hkeep (fun rest₂ h₂ => by cases h₂; rfl) ht rfl
        | commit u' | rollback u' | ckpt tids | endCkpt | shutdown =>
          cases hs
          exact hkeep (fun rest₂ h₂ => by cases h₂; rfl) ht rfl
    | unborn | entered | running | committed | undone | failed | rolledBack =>
      simp [System.step, ht] at hs
  | abort t =>
    cases hs
    rcases eq_or_ne u t with rfl | hne
    · simp only [setStage, Function.update_self, Stage.undoing.injEq] at hu
      exact .inr ⟨rfl, hu.symm⟩
    · simp only [setStage, Function.update_of_ne hne] at hu
      exact .inl ⟨rest', hu, List.Subset.refl _⟩
  | work =>
    obtain ⟨⟨t, changes, logged⟩, hwork, hs⟩ := Option.bind_eq_some_iff.mp hs
    have hsame : s'.stage = s.stage := by
      cases changes with
      | nil => cases hs
      | cons c rest =>
        cases logged with
        | false =>
          cases hs
          rfl
        | true =>
          obtain ⟨d, -, hs⟩ := Option.bind_eq_some_iff.mp hs
          cases hs
          rfl
    exact .inl ⟨rest', hsame ▸ hu, List.Subset.refl _⟩
  | endCkpt =>
    obtain ⟨d, -, rfl⟩ := Option.map_eq_some_iff.mp hs
    exact .inl ⟨rest', hu, List.Subset.refl _⟩
  | call t c | leave t | ckpt =>
    cases hs
    exact .inl ⟨rest', hu, List.Subset.refl _⟩
  | enter | begin t | commit t | rollback t =>
    cases hs
    exact .inl ⟨rest', hset rfl (fun _ heq => by cases heq), List.Subset.refl _⟩

/-- Only a call gives ids. -/
theorem step_lastAssigned_eq (h : s.store.Sound) (haddressed : s.Addressed)
    (he : ∀ t c, e ≠ .call t c) (hs : s.step e = some s') :
    s'.store.lastAssigned = s.store.lastAssigned := by
  cases moves_of_step hs with
  | none hsame => rw [hsame]
  | id _ _ hcall =>
    obtain ⟨t, name, value, heq⟩ := hcall
    exact absurd heq (he _ _)
  | @make c htouches _ hmake =>
    exact (make_stays (i := c.r.lid + 1) h (haddressed e _ htouches) hmake (by omega)).2
  | @undo r code htouches _ hback =>
    exact (rollBack_stays (i := r.lid + 1) h (haddressed e _ htouches) hback (by omega)).2

end System

end Loxim.Log
