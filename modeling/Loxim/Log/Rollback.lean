import Loxim.Lib.Run
import Loxim.Log.LogRecord

/-!
# Rolling back a transaction

The log is read backward from its end to the transaction's Begin record, and every
write of the transaction is undone. What an object is afterwards is decided by the
oldest of its records: an object that the transaction created is deleted, and any
other gets the name and the value that this record has.
-/

namespace Loxim.Log

open Store

variable {tid : Nat} {log : List LogRecord} {s s' : DBStoreManager} {r : WriteRecord} {lid : Nat}

/-- The transaction's last record of an object says that it created it. -/
def lastCreated (tid : Nat) : List LogRecord → Nat → Bool
  | [], _ => false
  | .begin t :: rest, lid => if t = tid then false else lastCreated tid rest lid
  | .write r :: rest, lid =>
    if r.tid = tid ∧ r.lid = lid then r.oldVal.isNone else lastCreated tid rest lid
  | .commit _ :: rest, lid | .rollback _ :: rest, lid | .ckpt _ :: rest, lid
  | .endCkpt :: rest, lid | .shutdown :: rest, lid => lastCreated tid rest lid

/-- The object as the record has it: the root flag is not in the record. -/
def WriteRecord.before (r : WriteRecord) : Option Object :=
  r.oldVal.map fun old => { lid := r.lid, isRoot := false, name := r.name, value := old }

/-- What the transaction's oldest record of an object says that it was, if there is one. -/
def firstBefore (tid : Nat) : List LogRecord → Nat → Option (Option Object)
  | [], _ => none
  | .begin t :: rest, lid => if t = tid then none else firstBefore tid rest lid
  | .write r :: rest, lid =>
    (firstBefore tid rest lid).or (if r.tid = tid ∧ r.lid = lid then some r.before else none)
  | .commit _ :: rest, lid | .rollback _ :: rest, lid | .ckpt _ :: rest, lid
  | .endCkpt :: rest, lid | .shutdown :: rest, lid => firstBefore tid rest lid

/-- An object that fits on a page. -/
def Fits (o : Object) : Prop := o.size + 4 ≤ maxFreeSpace

/-- The root flag takes no room. -/
theorem Fits.congr {o o' : Object} (h : Fits o) (hname : o'.name = o.name)
    (hvalue : o'.value = o.value) : Fits o' := by
  unfold Fits Object.size at h ⊢
  rw [hname, hvalue]
  exact h

/-- The object was created or deleted, its id is in the map, and its old value fits. -/
structure WriteRecord.Valid (r : WriteRecord) : Prop where
  one : r.oldVal.isNone = !r.newVal.isNone
  positive : 0 < r.lid
  max : r.lid ≤ maxLogicalID
  fits : ∀ o, r.before = some o → Fits o

/-- The transaction's records since its Begin: valid, and an object is only created
when it is not there. -/
def Undoable (tid : Nat) : List LogRecord → Prop
  | [] => False
  | .begin t :: rest => t = tid ∨ Undoable tid rest
  | .write r :: rest => (r.tid = tid → r.Valid ∧
      (r.oldVal = none → lastCreated tid rest r.lid = false)) ∧ Undoable tid rest
  | .commit _ :: rest | .rollback _ :: rest | .ckpt _ :: rest | .endCkpt :: rest
  | .shutdown :: rest => Undoable tid rest

/-- A created object that is there is deleted. -/
theorem rollBack_created (h : s.Sound) (hr : r.Valid) (hold : r.oldVal = none)
    (ho : (s.object r.lid).isSome = true) :
    ∃ s', r.rollBack s = some (s', 0) ∧ s'.Sound ∧
      s'.object = Function.update s.object r.lid none ∧ s'.lastAssigned = s.lastAssigned := by
  obtain ⟨o, ho⟩ := Option.isSome_iff_exists.mp ho
  obtain ⟨s', hs', hsound, hobject, -, hlast⟩ := h.deleteObject ho
  refine ⟨s', ?_, hsound, hobject, hlast⟩
  obtain ⟨new, hnew⟩ : ∃ new, r.newVal = some new := by
    have hone := hr.one
    rw [hold] at hone
    cases hn : r.newVal with
    | none => simp [hn] at hone
    | some new => exact ⟨new, rfl⟩
  simp [WriteRecord.rollBack, hold, hnew, WriteRecord.deleteFromStore, hs']

/-- A deleted object is created again. -/
theorem rollBack_deleted {o : Object} (h : s.Sound) (hr : r.Valid) (hold : r.before = some o) :
    ∃ s', r.rollBack s = some (s', 0) ∧ s'.Sound ∧
      s'.object = Function.update s.object r.lid (some o) := by
  obtain ⟨old, hval, rfl⟩ := Option.map_eq_some_iff.mp hold
  have hnew : r.newVal = none := by
    have hone := hr.one
    rw [hval] at hone
    cases hn : r.newVal with
    | none => rfl
    | some new => simp [hn] at hone
  obtain ⟨s', hs', hsound, hobject, -⟩ := h.createObject hr.positive hr.max (hr.fits _ hold)
  refine ⟨s', ?_, hsound, hobject⟩
  simp only [WriteRecord.rollBack, hval, hnew, WriteRecord.addToStore]
  rw [hs']
  rfl

/-- What a rollback does, by induction over the log from its end: every object the
transaction has a record of becomes what its oldest record says. -/
theorem rollbackTransaction_spec (hlog : Undoable tid log) (h : s.Sound)
    (hhere : ∀ lid, lastCreated tid log lid = true → (s.object lid).isSome = true) :
    ∃ s', rollbackTransaction tid log s = some (s', 0) ∧ s'.Sound ∧
      ∀ lid, s'.object lid = (firstBefore tid log lid).getD (s.object lid) := by
  induction log generalizing s with
  | nil => cases hlog
  | cons record rest ih =>
    cases record with
    | begin t =>
      by_cases ht : t = tid
      · exact ⟨s, by simp [rollbackTransaction, ht], h, fun lid => by simp [firstBefore, ht]⟩
      · simp only [lastCreated, if_neg ht] at hhere
        simpa [rollbackTransaction, firstBefore, ht] using ih (hlog.resolve_left ht) h hhere
    | commit t => exact ih hlog h hhere
    | rollback t => exact ih hlog h hhere
    | ckpt tids => exact ih hlog h hhere
    | endCkpt => exact ih hlog h hhere
    | shutdown => exact ih hlog h hhere
    | write r =>
      obtain ⟨hr, hrest⟩ := hlog
      by_cases ht : r.tid = tid
      case neg =>
        simp only [lastCreated, ht, false_and, if_false] at hhere
        simpa [rollbackTransaction, firstBefore, ht] using ih hrest h hhere
      obtain ⟨hvalid, hnew⟩ := hr ht
      have hother {lid : Nat} (hne : r.lid ≠ lid) (hl : lastCreated tid rest lid = true) :
          (s.object lid).isSome = true := by
        refine hhere lid ?_
        simpa [lastCreated, ht, hne] using hl
      -- the object's older records are undone after this one
      have hstep : ∃ s₁, r.rollBack s = some (s₁, 0) ∧ s₁.Sound ∧
          s₁.object = Function.update s.object r.lid r.before ∧
          (lastCreated tid rest r.lid = true → (s₁.object r.lid).isSome = true) := by
        cases hold : r.before with
        | none =>
          have hval : r.oldVal = none := Option.map_eq_none_iff.mp hold
          have hhere' : (s.object r.lid).isSome = true := by
            refine hhere r.lid ?_
            simp [lastCreated, ht, hval]
          obtain ⟨s₁, hs₁, hsound, hobject, -⟩ := rollBack_created h hvalid hval hhere'
          refine ⟨s₁, hs₁, hsound, hobject, fun hl => ?_⟩
          rw [hnew hval] at hl
          cases hl
        | some o =>
          obtain ⟨s₁, hs₁, hsound, hobject⟩ := rollBack_deleted h hvalid hold
          refine ⟨s₁, hs₁, hsound, hobject, fun _ => ?_⟩
          rw [hobject, Function.update_self]
          rfl
      obtain ⟨s₁, hs₁, hsound₁, hobject₁, hself⟩ := hstep
      obtain ⟨s', hs', hsound', hobject'⟩ := ih hrest hsound₁ (fun lid hl => by
        rcases eq_or_ne r.lid lid with rfl | hne
        · exact hself hl
        · rw [hobject₁, Function.update_of_ne hne.symm]
          exact hother hne hl)
      refine ⟨s', ?_, hsound', fun lid => ?_⟩
      · simp only [rollbackTransaction, ht, if_true, hs₁]
        exact hs'
      · rw [hobject' lid, hobject₁]
        rcases eq_or_ne r.lid lid with rfl | hne
        · cases hf : firstBefore tid rest r.lid with
          | none => simp [firstBefore, ht, hf]
          | some b => simp [firstBefore, hf]
        · simp [firstBefore, ht, hne, hne.symm]

-- ---------------------------------------------------------------------------
-- The operations of transactions
-- ---------------------------------------------------------------------------

/-- The operations a transaction does on the store, with the pointers it has got. -/
inductive Operation
  | createObject (name : List (BitVec 8)) (value : DataValue)
  | modifyObject (o : Object) (dv : DataValue)
  | deleteObject (o : Object)
  | addRoot (o : Object)
  | removeRoot (o : Object)
  | getObject (lid : Nat)

/-- An operation of a transaction, another record in the log, or another
transaction's rollback that undoes a write. -/
inductive Event
  | operation (t : Nat) (c : Operation)
  | record (r : LogRecord)
  | undo (r : WriteRecord)

/-- A store and its log, the last record first. `handed` has what the transaction
was given when it first touched an object, and `others` what others touched. -/
structure Session where
  store : DBStoreManager
  log : List LogRecord
  handed : Nat → Option (Option Object) := fun _ => none
  others : Finset Nat := ∅

/-- The record of an object that is created. -/
def created (t : Nat) (o : Object) : LogRecord := .write ⟨t, o.lid, o.name, none, some o.value⟩

/-- The record of an object that is deleted. -/
def deleted (t : Nat) (o : Object) : LogRecord := .write ⟨t, o.lid, o.name, some o.value, none⟩

/-- What is logged of an object that is handed to the store: all but its root flag. -/
def asHanded (o : Object) : Object := { o with isRoot := false }

namespace Session

/-- Who touches an object. -/
def touch (d : Session) (tid t lid : Nat) (before : Option Object) : Session :=
  if t = tid then { d with handed := Function.update d.handed lid ((d.handed lid).or (some before)) }
  else { d with others := insert lid d.others }

/-- The object is deleted and created again. -/
def modify (d : Session) (tid t : Nat) (o : Object) (dv : DataValue) : Option Session := do
  let (store, new) ← d.store.modifyObject o dv
  return { d.touch tid t o.lid (some (asHanded o)) with
    store, log := created t new :: deleted t o :: d.log }

def operation (d : Session) (tid t : Nat) : Operation → Option Session
  | .createObject name value => do
    let (store, o) ← d.store.createObject name value none false
    return { d.touch tid t o.lid none with store, log := created t o :: d.log }
  | .modifyObject o dv => d.modify tid t o dv
  | .deleteObject o =>
    let store := match d.store.deleteObject o.lid with
      | .ok store => store
      | .error _ => d.store
    some { d.touch tid t o.lid (some (asHanded o)) with store, log := deleted t o :: d.log }
  | .addRoot o => d.modify tid t { o with isRoot := true } o.value
  | .removeRoot o => d.modify tid t { o with isRoot := false } o.value
  | .getObject _ => some d

def step (tid : Nat) (d : Session) : Event → Option Session
  | .operation t c => d.operation tid t c
  | .record r => some { d with log := r :: d.log }
  | .undo r => do
    let (store, _) ← r.rollBack d.store
    return { d.touch tid r.tid r.lid none with store }

/-- The object that an operation touches. -/
def target (d : Session) : Operation → Option Nat
  | .createObject _ _ => some (d.store.lastAssigned + 1)
  | .modifyObject o _ | .deleteObject o | .addRoot o | .removeRoot o => some o.lid
  | .getObject _ => none

/-- A pointer to an object whose id is in the map, with a value that fits. -/
structure Pointer (d : Session) (o : Object) : Prop where
  positive : 0 < o.lid
  assigned : o.lid ≤ d.store.lastAssigned
  max : o.lid ≤ maxLogicalID
  fits : Fits o

/-- New values fit on a page and new ids in the map. -/
def Allowed (d : Session) : Operation → Prop
  | .createObject name value => d.store.lastAssigned < maxLogicalID ∧
    Fits { lid := d.store.lastAssigned + 1, isRoot := false, name, value }
  | .modifyObject o dv => d.Pointer o ∧ Fits { o with value := dv }
  | .deleteObject o | .addRoot o | .removeRoot o => d.Pointer o
  | .getObject _ => True

/-- The transaction and the others touch different objects. -/
def Apart (tid : Nat) (d : Session) (t : Nat) (lid : Nat) : Prop :=
  if t = tid then lid ∉ d.others else d.handed lid = none

def Legal (tid : Nat) (d : Session) : Event → Prop
  | .operation t c => d.Allowed c ∧ ∀ lid ∈ d.target c, d.Apart tid t lid
  | .record r => r ≠ .begin tid ∧ ∀ w, r ≠ .write w
  | .undo r => r.tid ≠ tid ∧ r.Valid ∧ r.lid ≤ d.store.lastAssigned ∧ d.Apart tid r.tid r.lid

-- ---------------------------------------------------------------------------
-- What the log knows about the transaction
-- ---------------------------------------------------------------------------

variable {d d' : Session} {s₀ : DBStoreManager} {t : Nat} {o : Object}

/-- The log can be undone, and that gives back what the transaction was handed. -/
structure Tracked (tid : Nat) (s₀ : DBStoreManager) (d : Session) : Prop where
  sound : d.store.Sound
  undoable : Undoable tid d.log
  here : ∀ lid, lastCreated tid d.log lid = true → (d.store.object lid).isSome = true
  handed : ∀ lid, firstBefore tid d.log lid = d.handed lid
  apart : ∀ lid, d.handed lid ≠ none → lid ∉ d.others
  assigned : ∀ lid, d.handed lid ≠ none → lid ≤ d.store.lastAssigned
  rest : ∀ lid, d.handed lid = none → lid ∉ d.others → d.store.object lid = s₀.object lid

theorem lastCreated_eq_false (h : firstBefore tid log lid = none) :
    lastCreated tid log lid = false := by
  induction log with
  | nil => rfl
  | cons record rest ih =>
    cases record with
    | begin t =>
      by_cases ht : t = tid
      · simp [lastCreated, ht]
      · simp only [firstBefore, if_neg ht] at h
        simpa [lastCreated, ht] using ih h
    | write r =>
      simp only [firstBefore, Option.or_eq_none_iff] at h
      by_cases hr : r.tid = tid ∧ r.lid = lid
      · simp [hr] at h
      · simpa [lastCreated, hr] using ih h.1
    | commit t => exact ih h
    | rollback t => exact ih h
    | ckpt tids => exact ih h
    | endCkpt => exact ih h
    | shutdown => exact ih h

/-- A record of another transaction says nothing. -/
def Foreign (tid : Nat) (r : LogRecord) : Prop := r ≠ .begin tid ∧ ∀ w, r = .write w → w.tid ≠ tid

theorem Foreign.cons {r : LogRecord} (h : Foreign tid r) (log : List LogRecord) :
    (Undoable tid (r :: log) ↔ Undoable tid log) ∧
      lastCreated tid (r :: log) = lastCreated tid log ∧
      firstBefore tid (r :: log) = firstBefore tid log := by
  cases r with
  | begin t =>
    have ht : t ≠ tid := fun ht => h.1 (by rw [ht])
    refine ⟨by simp [Undoable, ht], ?_, ?_⟩ <;> funext lid
    · simp [lastCreated, ht]
    · simp [firstBefore, ht]
  | write w =>
    have hw := h.2 w rfl
    refine ⟨by simp [Undoable, hw], ?_, ?_⟩ <;> funext lid
    · simp [lastCreated, hw]
    · simp [firstBefore, hw]
  | commit t => exact ⟨.rfl, rfl, rfl⟩
  | rollback t => exact ⟨.rfl, rfl, rfl⟩
  | ckpt tids => exact ⟨.rfl, rfl, rfl⟩
  | endCkpt => exact ⟨.rfl, rfl, rfl⟩
  | shutdown => exact ⟨.rfl, rfl, rfl⟩

theorem Tracked.record {r : LogRecord} (h : d.Tracked tid s₀) (hr : Foreign tid r) :
    Tracked tid s₀ { d with log := r :: d.log } := by
  obtain ⟨hundo, hlast, hfirst⟩ := hr.cons d.log
  refine ⟨h.sound, hundo.mpr h.undoable, ?_, ?_, h.apart, h.assigned, h.rest⟩
  · rw [hlast]
    exact h.here
  · rw [hfirst]
    exact h.handed

theorem Foreign.append {records : List LogRecord} (h : ∀ r ∈ records, Foreign tid r)
    (log : List LogRecord) : (Undoable tid (records ++ log) ↔ Undoable tid log) ∧
      lastCreated tid (records ++ log) = lastCreated tid log ∧
      firstBefore tid (records ++ log) = firstBefore tid log := by
  induction records with
  | nil => exact ⟨.rfl, rfl, rfl⟩
  | cons r rest ih =>
    obtain ⟨hundo, hlast, hfirst⟩ := ih fun r' hr' => h r' (List.mem_cons_of_mem _ hr')
    obtain ⟨hundo', hlast', hfirst'⟩ := (h r List.mem_cons_self).cons (rest ++ log)
    exact ⟨hundo'.trans hundo, hlast'.trans hlast, hfirst'.trans hfirst⟩

/-- Another transaction changes an object of its own. -/
theorem Tracked.other {l : List LogRecord} (h : d.Tracked tid s₀) (ht : t ≠ tid)
    (hlid : d.handed lid = none) (hrecords : ∀ r ∈ l, Foreign tid r) (hsound : s'.Sound)
    (hobject : ∀ i, i ≠ lid → s'.object i = d.store.object i)
    (hlast : d.store.lastAssigned ≤ s'.lastAssigned) (before : Option Object) :
    Tracked tid s₀
      { d.touch tid t lid before with store := s', log := l ++ d.log } := by
  obtain ⟨hundo, hcreated, hfirst⟩ := Foreign.append hrecords d.log
  simp only [touch, if_neg ht]
  refine ⟨hsound, hundo.mpr h.undoable, fun i hi => ?_, fun i => ?_, fun i hi => ?_,
    fun i hi => ?_, fun i hi hi' => ?_⟩
  · rw [hcreated] at hi
    have hne : i ≠ lid := by
      rintro rfl
      have hnone := h.handed i
      rw [hlid] at hnone
      rw [lastCreated_eq_false hnone] at hi
      cases hi
    rw [hobject i hne]
    exact h.here i hi
  · rw [hfirst]
    exact h.handed i
  · have hne : i ≠ lid := by
      rintro rfl
      exact hi hlid
    simpa [hne] using h.apart i hi
  · exact Nat.le_trans (h.assigned i hi) hlast
  · obtain ⟨hne, hmem⟩ := not_or.mp (mt Finset.mem_insert.mpr hi')
    rw [hobject i hne]
    exact h.rest i hi hmem

/-- The transaction touches an object and logs it. -/
theorem Tracked.own {r : WriteRecord} (h : d.Tracked tid s₀) (hr : r.tid = tid) (hvalid : r.Valid)
    (hnew : r.oldVal = none → lastCreated tid d.log r.lid = false) (hother : r.lid ∉ d.others)
    (hsound : s'.Sound) (hobject : ∀ i, i ≠ r.lid → s'.object i = d.store.object i)
    (hself : r.oldVal = none → (s'.object r.lid).isSome = true)
    (hassigned : r.lid ≤ s'.lastAssigned) (hlast : d.store.lastAssigned ≤ s'.lastAssigned) :
    Tracked tid s₀ { d.touch tid tid r.lid r.before with store := s', log := .write r :: d.log } := by
  simp only [touch, if_true]
  refine ⟨hsound, ⟨fun _ => ⟨hvalid, hnew⟩, h.undoable⟩, fun i hi => ?_, fun i => ?_,
    fun i hi => ?_, fun i hi => ?_, fun i hi hi' => ?_⟩
  · rcases eq_or_ne r.lid i with rfl | hne
    · simp only [lastCreated, hr, and_self, if_true, Option.isNone_iff_eq_none] at hi
      exact hself hi
    · simp only [lastCreated, hne, and_false, if_false] at hi
      rw [hobject i hne.symm]
      exact h.here i hi
  · rcases eq_or_ne r.lid i with rfl | hne
    · simp [firstBefore, hr, h.handed]
    · simp [firstBefore, hne, hne.symm, h.handed]
  · rcases eq_or_ne i r.lid with rfl | hne
    · exact hother
    · simp only [Function.update_of_ne hne] at hi
      exact h.apart i hi
  · rcases eq_or_ne i r.lid with rfl | hne
    · exact hassigned
    · simp only [Function.update_of_ne hne] at hi
      exact Nat.le_trans (h.assigned i hi) hlast
  · rcases eq_or_ne i r.lid with rfl | hne
    · simp at hi
    · simp only [Function.update_of_ne hne] at hi
      rw [hobject i hne]
      exact h.rest i hi hi'

theorem Pointer.withRoot (h : d.Pointer o) (isRoot : Bool) : d.Pointer { o with isRoot } :=
  ⟨h.positive, h.assigned, h.max, h.fits.congr rfl rfl⟩

theorem foreign_write (hr : r.tid = t) (ht : t ≠ tid) : Foreign tid (.write r) := by
  refine ⟨nofun, fun w hw => ?_⟩
  cases hw
  rwa [hr]

theorem foreign_one {r : LogRecord} (h : Foreign tid r) : ∀ r' ∈ [r], Foreign tid r' := by
  intro r' hr'
  rw [List.mem_singleton.mp hr']
  exact h

theorem valid_deleted (h : d.Pointer o) : WriteRecord.Valid ⟨t, o.lid, o.name, some o.value, none⟩ := by
  refine ⟨rfl, h.positive, h.max, ?_⟩
  rintro o' ho'
  cases ho'
  exact h.fits.congr rfl rfl

theorem valid_created (hpos : 0 < o.lid) (hmax : o.lid ≤ maxLogicalID) :
    WriteRecord.Valid ⟨t, o.lid, o.name, none, some o.value⟩ := ⟨rfl, hpos, hmax, nofun⟩

theorem Tracked.createObject {name : List (BitVec 8)} {value : DataValue} (h : d.Tracked tid s₀)
    (hc : d.Legal tid (.operation t (.createObject name value)))
    (hstep : d.operation tid t (.createObject name value) = some d') : d'.Tracked tid s₀ := by
  obtain ⟨⟨hmax, hfits⟩, hapart⟩ := hc
  replace hapart := hapart (d.store.lastAssigned + 1) rfl
  replace hmax : d.store.lastAssigned + 1 ≤ maxLogicalID := hmax
  obtain ⟨hsound, hmap, hobject⟩ := h.sound.createLogicalID
  set o : Object := { lid := d.store.lastAssigned + 1, isRoot := false, name, value } with ho
  obtain ⟨s', hs', hsound', hobject', -, -, -, hlast'⟩ := hsound.createObject (o := o)
    (Nat.succ_pos _) hmax hfits
  rw [hobject] at hobject'
  have hcreate : d.store.createObject name value none false = some (s', o) := by
    rw [DBStoreManager.createObject_new]
    exact hs'
  have hlast : d.store.lastAssigned ≤ s'.lastAssigned ∧ o.lid ≤ s'.lastAssigned := by
    rw [hlast']
    exact ⟨Nat.le_trans (Nat.le_succ _) (le_max_left _ _), le_max_right _ _⟩
  have hothers (i : Nat) (hi : i ≠ o.lid) : s'.object i = d.store.object i := by
    rw [hobject', Function.update_of_ne hi]
  simp only [operation, hcreate] at hstep
  cases hstep
  by_cases ht : t = tid
  · subst ht
    have hhanded : d.handed o.lid = none := by
      by_contra hne
      exact absurd (h.assigned o.lid hne) (Nat.not_succ_le_self _)
    refine h.own (r := ⟨t, o.lid, o.name, none, some o.value⟩) rfl
      (valid_created (o := o) (Nat.succ_pos _) hmax) (fun _ => ?_) ?_ hsound' hothers (fun _ => ?_) hlast.2
      hlast.1
    · exact lastCreated_eq_false ((h.handed o.lid).trans hhanded)
    · simpa [Apart] using hapart
    · rw [hobject', Function.update_self]
      rfl
  · have hhanded : d.handed o.lid = none := by simpa [Apart, ht] using hapart
    exact h.other (l := [created t o]) ht hhanded (foreign_one (foreign_write rfl ht)) hsound'
      hothers hlast.1 none

theorem touch_touch (d : Session) (tid lid : Nat) (b b' : Option Object) :
    (d.touch tid tid lid b).touch tid tid lid b' = d.touch tid tid lid b := by
  simp only [touch, if_true, Function.update_self, Function.update_idem]
  cases d.handed lid <;> rfl

theorem Tracked.modify {dv : DataValue} (h : d.Tracked tid s₀) (ho : d.Pointer o)
    (hfits : Fits { o with value := dv }) (hapart : d.Apart tid t o.lid)
    (hstep : d.modify tid t o dv = some d') : d'.Tracked tid s₀ := by
  obtain ⟨s', hs', hsound, hobject, -, -, hlast⟩ := h.sound.modifyObject ho.positive ho.assigned
    ho.max hfits
  have hothers (i : Nat) (hi : i ≠ o.lid) : s'.object i = d.store.object i := by
    rw [hobject, Function.update_of_ne hi]
  simp only [Session.modify, hs'] at hstep
  cases hstep
  by_cases ht : t = tid
  · subst ht
    have hother : o.lid ∉ d.others := by simpa [Apart] using hapart
    -- first as if the object were deleted only, then as if it were new
    have hdeleted := h.own (r := ⟨t, o.lid, o.name, some o.value, none⟩) rfl (valid_deleted ho)
      nofun hother hsound hothers nofun (by rw [hlast]; exact ho.assigned) hlast.ge
    have hcreated := @Tracked.own _ s' _ _ ⟨t, o.lid, o.name, none, some dv⟩ hdeleted rfl
      ⟨rfl, ho.positive, ho.max, nofun⟩ (fun _ => by simp [lastCreated]) ?_ hsound (fun _ _ => rfl)
      (fun _ => ?_) (by rw [hlast]; exact ho.assigned) (Nat.le_refl _)
    · have htouch := touch_touch d t o.lid (some (asHanded o)) none
      simp only [touch, if_true] at htouch hcreated ⊢
      rw [Session.mk.injEq] at htouch
      have hh := htouch.2.2.1
      simp only [WriteRecord.before, Option.map_none, Option.map_some] at hcreated
      simp only [asHanded] at hh
      rw [hh] at hcreated
      exact hcreated
    · simpa [touch] using hother
    · rw [hobject, Function.update_self]
      rfl
  · have hhanded : d.handed o.lid = none := by simpa [Apart, ht] using hapart
    refine h.other (l := [created t { o with value := dv }, deleted t o]) ht hhanded ?_ hsound
      hothers hlast.ge (some (asHanded o))
    intro r hr
    rcases List.mem_cons.mp hr with rfl | hr
    · exact foreign_write rfl ht
    · exact foreign_one (foreign_write rfl ht) r hr

theorem Tracked.deleteObject (h : d.Tracked tid s₀) (ho : d.Pointer o)
    (hapart : d.Apart tid t o.lid)
    (hstep : d.operation tid t (.deleteObject o) = some d') : d'.Tracked tid s₀ := by
  simp only [operation] at hstep
  -- the object is gone afterwards, whether it was there or not
  have hstore : ∃ s', (match d.store.deleteObject o.lid with
      | .ok store => store
      | .error _ => d.store) = s' ∧ s'.Sound ∧
      (∀ i, i ≠ o.lid → s'.object i = d.store.object i) ∧
      s'.lastAssigned = d.store.lastAssigned := by
    cases hobj : d.store.object o.lid with
    | none =>
      rw [h.sound.deleteObject_gone hobj ho.positive ho.assigned]
      exact ⟨d.store, rfl, h.sound, fun _ _ => rfl, rfl⟩
    | some o' =>
      obtain ⟨s', hs', hsound, hobject, -, hlast⟩ := h.sound.deleteObject hobj
      rw [hs']
      refine ⟨s', rfl, hsound, fun i hi => ?_, hlast⟩
      rw [hobject, Function.update_of_ne hi]
  obtain ⟨s', hs', hsound, hothers, hlast⟩ := hstore
  rw [hs'] at hstep
  cases hstep
  by_cases ht : t = tid
  · subst ht
    refine h.own (r := ⟨t, o.lid, o.name, some o.value, none⟩) rfl (valid_deleted ho) nofun ?_
      hsound hothers nofun (by rw [hlast]; exact ho.assigned) hlast.ge
    simpa [Apart] using hapart
  · have hhanded : d.handed o.lid = none := by simpa [Apart, ht] using hapart
    exact h.other (l := [deleted t o]) ht hhanded (foreign_one (foreign_write rfl ht)) hsound
      hothers hlast.ge (some (asHanded o))

/-- Undoing a valid record changes its object only. -/
theorem rollBack_frame (h : s.Sound) (hr : r.Valid) (hassigned : r.lid ≤ s.lastAssigned) :
    ∃ s' code, r.rollBack s = some (s', code) ∧ s'.Sound ∧
      (∀ i, i ≠ r.lid → s'.object i = s.object i) ∧ s.lastAssigned ≤ s'.lastAssigned := by
  cases hold : r.before with
  | some o =>
    obtain ⟨old, hval, rfl⟩ := Option.map_eq_some_iff.mp hold
    obtain ⟨s', hs', hsound, hobject, -, -, -, hlast⟩ := h.createObject hr.positive hr.max
      (hr.fits _ hold)
    refine ⟨s', 0, ?_, hsound, fun i hi => by rw [hobject, Function.update_of_ne hi], ?_⟩
    · have hnew : r.newVal = none := by simpa [hval] using hr.one
      simp only [WriteRecord.rollBack, hval, hnew, WriteRecord.addToStore]
      rw [hs']
      rfl
    · rw [hlast]
      exact le_max_left _ _
  | none =>
    have hval : r.oldVal = none := Option.map_eq_none_iff.mp hold
    cases hobj : s.object r.lid with
    | some o =>
      obtain ⟨s', hs', hsound, hobject, hlast⟩ := rollBack_created h hr hval (by rw [hobj]; rfl)
      exact ⟨s', 0, hs', hsound, fun i hi => by rw [hobject, Function.update_of_ne hi], hlast.ge⟩
    | none =>
      obtain ⟨new, hnew⟩ : ∃ new, r.newVal = some new := by
        have hone := hr.one
        rw [hval] at hone
        cases hn : r.newVal with
        | none => simp [hn] at hone
        | some new => exact ⟨new, rfl⟩
      refine ⟨s, 3, ?_, h, fun _ _ => rfl, Nat.le_refl _⟩
      simp [WriteRecord.rollBack, hval, hnew, WriteRecord.deleteFromStore,
        h.deleteObject_gone hobj hr.positive hassigned]

theorem Tracked.step {e : Event} (h : d.Tracked tid s₀) (hc : d.Legal tid e)
    (hstep : d.step tid e = some d') : d'.Tracked tid s₀ := by
  cases e with
  | operation t c =>
    cases c with
    | createObject name value => exact h.createObject hc hstep
    | modifyObject o dv => exact h.modify hc.1.1 hc.1.2 (hc.2 o.lid rfl) hstep
    | deleteObject o => exact h.deleteObject hc.1 (hc.2 o.lid rfl) hstep
    | addRoot o =>
      have hp : d.Pointer o := hc.1
      exact h.modify (hp.withRoot true) (hp.fits.congr rfl rfl) (hc.2 o.lid rfl) hstep
    | removeRoot o =>
      have hp : d.Pointer o := hc.1
      exact h.modify (hp.withRoot false) (hp.fits.congr rfl rfl) (hc.2 o.lid rfl) hstep
    | getObject lid =>
      cases hstep
      exact h
  | record r =>
    cases hstep
    exact h.record ⟨hc.1, fun w hw => absurd hw (hc.2 w)⟩
  | undo r =>
    obtain ⟨ht, hvalid, hassigned, hapart⟩ := hc
    obtain ⟨s', code, hs', hsound, hothers, hlast⟩ := rollBack_frame h.sound hvalid hassigned
    simp only [Session.step, hs'] at hstep
    cases hstep
    have hhanded : d.handed r.lid = none := by simpa [Apart, ht] using hapart
    have hother := h.other (l := []) ht hhanded (by simp) hsound hothers hlast none
    simp only [touch, if_neg ht] at hother ⊢
    exact hother

theorem tracked_begin (h : s₀.Sound) (tid : Nat) (log : List LogRecord) :
    Tracked tid s₀ { store := s₀, log := .begin tid :: log } := by
  refine ⟨h, .inl rfl, fun lid hl => ?_, fun lid => ?_, fun lid hl => absurd rfl hl,
    fun lid hl => absurd rfl hl, fun _ _ _ => rfl⟩
  · simp [lastCreated] at hl
  · simp [firstBefore]

theorem tracked_of_reaches (hstore : s₀.Reachable)
    (h : Reaches (step tid) (Legal tid) { store := s₀, log := .begin tid :: log } d) :
    d.Tracked tid s₀ := by
  apply h.invariant (tracked_begin hstore.sound tid log)
  intro d e d' hd hc hstep
  exact hd.step hc hstep

/-- A rollback gives back the store as it was before the transaction, but for the
objects of others, exactly if every object was, when the transaction first touched
it, what its pointer said and no root, or was new. -/
theorem rollbackTransaction_restores (hstore : s₀.Reachable)
    (h : Reaches (step tid) (Legal tid) { store := s₀, log := .begin tid :: log } d) :
    (∃ s', rollbackTransaction tid d.log d.store = some (s', 0) ∧
      ∀ lid, lid ∉ d.others → s'.object lid = s₀.object lid) ↔
    ∀ lid before, d.handed lid = some before → s₀.object lid = before := by
  have htracked := tracked_of_reaches hstore h
  obtain ⟨s', hs', -, hobject⟩ := rollbackTransaction_spec htracked.undoable htracked.sound
    htracked.here
  constructor
  · rintro ⟨s₁, hs₁, hrestored⟩ lid before hhanded
    rw [hs'] at hs₁
    cases hs₁
    rw [← hrestored lid (htracked.apart lid (by simp [hhanded])), hobject lid,
      htracked.handed lid, hhanded]
    rfl
  · intro hbefore
    refine ⟨s', hs', fun lid hlid => ?_⟩
    rw [hobject lid, htracked.handed lid]
    cases hhanded : d.handed lid with
    | none => exact htracked.rest lid hhanded hlid
    | some before => exact (hbefore lid before hhanded).symm

instance (d : Session) (o : Object) : Decidable (d.Pointer o) :=
  decidable_of_iff (0 < o.lid ∧ o.lid ≤ d.store.lastAssigned ∧ o.lid ≤ maxLogicalID ∧
    o.size + 4 ≤ maxFreeSpace)
    ⟨fun h => ⟨h.1, h.2.1, h.2.2.1, h.2.2.2⟩, fun h => ⟨h.positive, h.assigned, h.max, h.fits⟩⟩

instance (o : Object) : Decidable (Fits o) := inferInstanceAs (Decidable (_ ≤ _))

instance (r : WriteRecord) : Decidable r.Valid :=
  decidable_of_iff (r.oldVal.isNone = !r.newVal.isNone ∧ 0 < r.lid ∧ r.lid ≤ maxLogicalID ∧
    ∀ o ∈ r.before, Fits o)
    ⟨fun h => ⟨h.1, h.2.1, h.2.2.1, h.2.2.2⟩, fun h => ⟨h.one, h.positive, h.max, h.fits⟩⟩

instance (d : Session) : DecidablePred d.Allowed
  | .createObject _ _ => inferInstanceAs (Decidable (_ ∧ Fits _))
  | .modifyObject o _ => inferInstanceAs (Decidable (d.Pointer o ∧ Fits _))
  | .deleteObject o | .addRoot o | .removeRoot o => inferInstanceAs (Decidable (d.Pointer o))
  | .getObject _ => .isTrue trivial

instance (d : Session) (tid t lid : Nat) : Decidable (d.Apart tid t lid) :=
  inferInstanceAs (Decidable (if t = tid then lid ∉ d.others else d.handed lid = none))

theorem legal_begin {t : Nat} : d.Legal tid (.record (.begin t)) ↔ t ≠ tid := by
  simp [Legal]

theorem legal_record {r : LogRecord} (hbegin : r ≠ .begin tid) (hwrite : ∀ w, r ≠ .write w) :
    d.Legal tid (.record r) :=
  ⟨hbegin, hwrite⟩

instance (d : Session) (tid : Nat) : DecidablePred (d.Legal tid)
  | .operation t c =>
    (inferInstance : Decidable (d.Allowed c ∧ ∀ lid ∈ d.target c, d.Apart tid t lid))
  | .record r =>
    match r with
    | .write w => .isFalse fun h => h.2 w rfl
    | .begin t => decidable_of_iff (t ≠ tid) legal_begin.symm
    | .commit _ | .rollback _ | .ckpt _ | .endCkpt | .shutdown =>
      .isTrue (legal_record LogRecord.noConfusion fun _ => LogRecord.noConfusion)
  | .undo r => (inferInstance : Decidable (r.tid ≠ tid ∧ r.Valid ∧
    r.lid ≤ d.store.lastAssigned ∧ d.Apart tid r.tid r.lid))

/-- A store with one object. -/
def single (value : DataValue) (isRoot : Bool) : DBStoreManager :=
  ((({} : DBStoreManager).createObject [] value none isRoot).map Prod.fst).getD {}

/-- A store with a child and its parent. -/
def family : DBStoreManager :=
  (((single { content := .integer 7 } false).createObject [] { content := .vector [1] } none
    false).map Prod.fst).getD {}

theorem reachable_createObject {value : DataValue} {isRoot : Bool} (h : s.Reachable)
    (hsome : (s.createObject [] value none isRoot).isSome = true) :
    DBStoreManager.Reachable (((s.createObject [] value none isRoot).map Prod.fst).getD {}) := by
  obtain ⟨⟨s', o⟩, hs'⟩ := Option.isSome_iff_exists.mp hsome
  rw [hs']
  exact .create h hs'

/-- An object is changed twice and one is created, while another transaction works. -/
theorem rollbackTransaction_restores_twice : ∃ (d : Session) (s' : DBStoreManager),
    rollbackTransaction 1 d.log d.store = some (s', 0) ∧ d.log.length = 7 ∧
    ∀ lid, lid ∉ d.others → s'.object lid = (single { content := .integer 7 } false).object lid := by
  have hstore : (single { content := .integer 7 } false).Reachable :=
    reachable_createObject .init (by decide +kernel)
  obtain ⟨d, hd, hQ⟩ := Reaches.of_play (step 1) (Legal 1)
    { store := single { content := .integer 7 } false, log := [.begin 1] }
    [.operation 1 (.modifyObject ⟨1, false, [], { content := .integer 7 }⟩ { content := .integer 8 }),
      .operation 2 (.createObject [] { content := .integer 1 }),
      .operation 1 (.createObject [] { content := .vector [1] }),
      .operation 1 (.modifyObject ⟨1, false, [], { content := .integer 8 }⟩ { content := .integer 9 })]
    (fun d => d.log.length = 7 ∧ d.store.lastAssigned = 3 ∧ (List.range 4).all fun lid =>
      (d.handed lid).all fun before => (single { content := .integer 7 } false).object lid = before)
    (by decide +kernel)
  obtain ⟨hlog, hlast, hhanded⟩ := of_decide_eq_true hQ
  obtain ⟨s', hs', hrestored⟩ := (rollbackTransaction_restores hstore hd).mpr (by
    intro lid before hbefore
    have hle := (tracked_of_reaches hstore hd).assigned lid (by simp [hbefore])
    rw [List.all_eq_true] at hhanded
    simpa [hbefore] using hhanded lid (by simp; omega))
  exact ⟨d, s', hs', hlog, hrestored⟩

/-- The root flag is not in the log; and a child that was deleted before the parent
was read is not in the parent's record. -/
theorem rollbackTransaction_forgets :
    (∃ (o : Object) (d : Session) (s' : DBStoreManager),
      (single { content := .integer 7 } true).getObject 1 = .ok (some o) ∧
      Reaches (step 1) (Legal 1)
        { store := single { content := .integer 7 } true, log := [.begin 1] } d ∧
      rollbackTransaction 1 d.log d.store = some (s', 0) ∧ d.others = ∅ ∧
      o.isRoot = true ∧ (s'.object 1).map Object.isRoot = some false) ∧
    ∃ (d : Session) (s' : DBStoreManager),
      Reaches (step 1) (Legal 1) { store := family, log := [.begin 1] } d ∧
      rollbackTransaction 1 d.log d.store = some (s', 0) ∧ d.others = ∅ ∧
      (family.object 2).map Object.value = some { content := .vector [1] } ∧
      (s'.object 2).map Object.value = some { content := .vector [] } := by
  constructor
  · obtain ⟨d, hd, hQ⟩ := Reaches.of_play (step 1) (Legal 1)
      { store := single { content := .integer 7 } true, log := [.begin 1] }
      [.operation 1 (.getObject 1), .operation 1 (.modifyObject
        ⟨1, true, [], { content := .integer 7 }⟩ { content := .integer 8 })]
      (fun d => d.others = ∅ ∧ (rollbackTransaction 1 d.log d.store).map
        (fun r => (r.2, (r.1.object 1).map Object.isRoot)) = some (0, some false))
      (by decide +kernel)
    obtain ⟨hothers, hrolled⟩ := of_decide_eq_true hQ
    obtain ⟨⟨s', code⟩, hs', heq⟩ := Option.map_eq_some_iff.mp hrolled
    obtain ⟨rfl, hroot⟩ := Prod.mk.inj heq
    exact ⟨⟨1, true, [], { content := .integer 7 }⟩, d, s', rfl, hd, hs', hothers, rfl, hroot⟩
  · obtain ⟨d, hd, hQ⟩ := Reaches.of_play (step 1) (Legal 1) { store := family, log := [.begin 1] }
      [.operation 1 (.deleteObject ⟨1, false, [], { content := .integer 7 }⟩),
        .operation 1 (.getObject 2), .operation 1 (.modifyObject
          ⟨2, false, [], { content := .vector [] }⟩ { content := .integer 8 })]
      (fun d => d.others = ∅ ∧ (rollbackTransaction 1 d.log d.store).map
        (fun r => (r.2, (r.1.object 2).map Object.value)) =
          some (0, some { content := .vector [] }))
      (by decide +kernel)
    obtain ⟨hothers, hrolled⟩ := of_decide_eq_true hQ
    obtain ⟨⟨s', code⟩, hs', heq⟩ := Option.map_eq_some_iff.mp hrolled
    obtain ⟨rfl, hvalue⟩ := Prod.mk.inj heq
    exact ⟨d, s', hd, hs', hothers, by decide +kernel, hvalue⟩

end Session

end Loxim.Log
