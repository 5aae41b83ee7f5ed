import Mathlib.Data.Fintype.Defs
import Mathlib.Data.List.Induction
import Loxim.Lib.Bytes
import Loxim.Lib.Run

/-!
# Numbers of records and of transactions

Every record that is made takes the next number of `idSeq`, also one that is made to be
read from the file. Transactions count on their own, from `idSeq` as it is when the
server starts. A record gets its number when it is made and its place in the log
when it is pushed.
-/

namespace Loxim.Log

open Bytes

/-- A record, with the transactions it names. -/
structure NumberedRecord where
  id : Nat
  tids : List Int
  deriving DecidableEq

/-- A record is younger than the transactions it names. -/
structure NumberedRecord.Young (r : NumberedRecord) : Prop where
  tids : ∀ tid ∈ r.tids, tid < r.id
  small : r.id < 2 ^ 31 - 1

/-- A transaction has taken its number, or its Begin record has been made. -/
inductive TransactionStage
  | none
  | entered (tid : Int)
  | running (tid : Int)
  deriving DecidableEq

/-- `hand` has the records that threads have made and not pushed yet. -/
structure IdSequence (T : Type) where
  idSeq : Nat
  transactionId : Int
  log : List NumberedRecord := []
  stage : T → TransactionStage := fun _ => .none
  hand : T → Option NumberedRecord := fun _ => Option.none

namespace IdSequence

variable {T : Type}

/-- After `LogRecord::initialize`, which makes ten prototypes and reads the last record,
and `TransactionManager::loadConfig`. -/
def loadConfig (log : List NumberedRecord) : IdSequence T :=
  let idSeq := match log.getLast? with
    | Option.none => 10
    | some r => (r.id + 1) % 2 ^ 32
  { idSeq, transactionId := Scalar.int.wrap idSeq, log }

/-- `enter` is the part of `createTransaction` under the mutex. `ckpt` has ids that the
list of transactions had before; recovery signs a rollback for a transaction of the log;
`mark` is a record that names none. `read` makes a record that is not pushed. The server
stops or crashes and keeps the first records of its log. -/
inductive Event (T : Type)
  | enter (t : T)
  | begin (t : T)
  | write (t : T)
  | leave (t : T)
  | ckpt (t : T) (tids : List Int)
  | printRollbackSign (t : T) (tid : Int)
  | mark (t : T)
  | push (t : T)
  | read
  | restart (kept : Nat)

def next (s : IdSequence T) : Nat := (s.idSeq + 1) % 2 ^ 32

section

variable [DecidableEq T]

/-- The constructor of `LogRecord`. -/
def make (s : IdSequence T) (t : T) (tids : List Int) : IdSequence T :=
  { s with idSeq := s.next, hand := Function.update s.hand t (some { id := s.next, tids }) }

def setStage (s : IdSequence T) (t : T) (g : TransactionStage) : IdSequence T :=
  { s with stage := Function.update s.stage t g }

def begin (s : IdSequence T) (t : T) : Option (IdSequence T) :=
  match s.stage t with
  | .entered tid => some ((s.make t [tid]).setStage t (.running tid))
  | .none | .running _ => Option.none

def write (s : IdSequence T) (t : T) : Option (IdSequence T) :=
  match s.stage t with
  | .running tid => some (s.make t [tid])
  | .none | .entered _ => Option.none

/-- The transaction has ended. -/
def leave (s : IdSequence T) (t : T) : Option (IdSequence T) :=
  match s.stage t with
  | .running _ => some (s.setStage t .none)
  | .none | .entered _ => Option.none

def push (s : IdSequence T) (t : T) : Option (IdSequence T) :=
  match s.hand t with
  | some r => some { s with log := s.log ++ [r], hand := Function.update s.hand t Option.none }
  | Option.none => Option.none

def step (s : IdSequence T) : Event T → Option (IdSequence T)
  | .enter t => some { s.setStage t (.entered s.transactionId) with
    transactionId := Scalar.int.wrap (s.transactionId + 1) }
  | .begin t => s.begin t
  | .write t => s.write t
  | .leave t => s.leave t
  | .ckpt t tids => some (s.make t tids)
  | .printRollbackSign t tid => some (s.make t [tid])
  | .mark t => some (s.make t [])
  | .push t => s.push t
  | .read => some { s with idSeq := s.next }
  | .restart kept => some (loadConfig (s.log.take kept))

end

/-- The transactions that the log names. -/
def Named (s : IdSequence T) (tid : Int) : Prop := ∃ r ∈ s.log, tid ∈ r.tids

/-- A thread has one record in hand at most, and makes one transaction at a time. -/
def Legal (s : IdSequence T) : Event T → Prop
  | .enter t => s.stage t = .none ∧ s.hand t = Option.none
  | .begin t | .write t | .mark t | .leave t => s.hand t = Option.none
  | .ckpt t tids => s.hand t = Option.none ∧ ∀ tid ∈ tids, tid < s.transactionId
  | .printRollbackSign t tid => s.hand t = Option.none ∧ s.Named tid
  | .push _ | .read | .restart _ => True

/-- Nobody is between taking a number and using it when another one is taken, and the
numbers stay within an `int`. -/
def Orderly (s : IdSequence T) : Event T → Prop
  | .enter _ => (∀ t tid, s.stage t ≠ .entered tid) ∧ s.transactionId < 2 ^ 31 - 1
  | .begin _ | .write _ | .ckpt _ _ | .printRollbackSign _ _ | .mark _ =>
    (∀ t, s.hand t = Option.none) ∧ s.idSeq < 2 ^ 31 - 2
  | .read => s.idSeq < 2 ^ 31 - 2
  | .leave _ | .push _ | .restart _ => True

-- ---------------------------------------------------------------------------
-- The bound between the two counters
-- ---------------------------------------------------------------------------

variable {s s' : IdSequence T} {ev : Event T} {t : T} {tids : List Int}

/-- The transactions are behind the records by at most the one that has entered. -/
structure Bounded (s : IdSequence T) : Prop where
  increasing : s.log.Pairwise (fun r r' => r.id < r'.id)
  logged {r : NumberedRecord} : r ∈ s.log → r.id ≤ s.idSeq ∧ r.Young
  last {t : T} {r r' : NumberedRecord} : s.hand t = some r → r' ∈ s.log → r'.id < r.id
  hand {t : T} {r : NumberedRecord} : s.hand t = some r → r.id ≤ s.idSeq ∧ r.Young
  single {t t' : T} {r r' : NumberedRecord} : s.hand t = some r → s.hand t' = some r' → t = t'
  unique {t t' : T} {tid tid' : Int} : s.stage t = .entered tid → s.stage t' = .entered tid' → t = t'
  small : s.idSeq < 2 ^ 31
  ahead : 0 ≤ s.transactionId ∧ s.transactionId ≤ s.idSeq + 1
  level : (∀ t tid, s.stage t ≠ .entered tid) → s.transactionId ≤ s.idSeq
  entered {t : T} {tid : Int} : s.stage t = .entered tid → tid < s.transactionId
  running {t : T} {tid : Int} : s.stage t = .running tid → tid < s.transactionId

theorem next_eq (h : s.idSeq < 2 ^ 31 - 2) : s.next = s.idSeq + 1 := by
  unfold next
  apply Nat.mod_eq_of_lt
  omega

theorem Bounded.read (h : s.Bounded) (hsmall : s.idSeq < 2 ^ 31 - 2) :
    Bounded { s with idSeq := s.next } := by
  have hnext := next_eq hsmall
  have hle : s.idSeq ≤ s.next := hnext ▸ Nat.le_succ s.idSeq
  have hahead := h.ahead
  refine ⟨h.increasing, fun hr => ⟨Nat.le_trans (h.logged hr).1 hle, (h.logged hr).2⟩, h.last,
    fun hr => ⟨Nat.le_trans (h.hand hr).1 hle, (h.hand hr).2⟩, h.single, h.unique, ?_,
    ⟨hahead.1, ?_⟩, fun hnone => ?_, h.entered, h.running⟩
  · show s.next < 2 ^ 31
    omega
  · show s.transactionId ≤ s.next + 1
    omega
  · have hlevel := h.level hnone
    show s.transactionId ≤ s.next
    omega

/-- The last record of a log is the youngest, and the counters start after it. -/
theorem loadConfig_bounded {log : List NumberedRecord}
    (hincreasing : log.Pairwise fun r r' => r.id < r'.id) (hyoung : ∀ r ∈ log, r.Young) :
    (loadConfig log : IdSequence T).Bounded ∧
      ∀ r ∈ log, ∀ tid ∈ r.tids, tid < (loadConfig log : IdSequence T).transactionId := by
  -- what matters about the number the counters start with
  suffices hstart : ∃ n : Nat, (loadConfig log : IdSequence T) =
      { idSeq := n, transactionId := n, log } ∧ n < 2 ^ 31 ∧ ∀ r ∈ log, r.id < n by
    obtain ⟨n, heq, hsmall, hless⟩ := hstart
    rw [heq]
    refine ⟨⟨hincreasing, fun hr => ⟨Nat.le_of_lt (hless _ hr), hyoung _ hr⟩, nofun, nofun, nofun,
      nofun, hsmall, ⟨?_, ?_⟩, fun _ => Int.le_refl _, nofun, nofun⟩, fun r hr tid htid => ?_⟩
    · show (0 : Int) ≤ n
      omega
    · show (n : Int) ≤ n + 1
      omega
    · have hlt := (hyoung r hr).tids tid htid
      have hless := hless r hr
      show tid < (n : Int)
      omega
  have hwrap (n : Nat) (hn : n < 2 ^ 31) : Scalar.int.wrap n = n :=
    Scalar.wrap_of_holds ⟨by omega, by omega⟩
  induction log using List.reverseRecOn with
  | nil => exact ⟨10, rfl, by decide, nofun⟩
  | append_singleton log last _ =>
    have hlast := (hyoung last (by simp)).small
    have hmod : (last.id + 1) % 2 ^ 32 = last.id + 1 := Nat.mod_eq_of_lt (by omega)
    refine ⟨last.id + 1, ?_, by omega, fun r hr => ?_⟩
    · simp only [loadConfig, List.getLast?_append, List.getLast?_singleton, Option.some_or, hmod,
        hwrap (last.id + 1) (by omega)]
    · rw [List.pairwise_append] at hincreasing
      rcases List.mem_append.mp hr with hold | hnew
      · have hlt := hincreasing.2.2 r hold last (List.mem_singleton_self last)
        omega
      · cases List.mem_singleton.mp hnew
        exact Nat.lt_succ_self last.id

variable [DecidableEq T]

/-- When nobody has a record in hand, the next one is younger than all of the log. -/
theorem Bounded.make (h : s.Bounded) (hfree : ∀ t, s.hand t = Option.none)
    (hsmall : s.idSeq < 2 ^ 31 - 2) (htids : ∀ tid ∈ tids, tid ≤ s.idSeq) (t : T) :
    (s.make t tids).Bounded := by
  have hread := h.read hsmall
  have hself {t' : T} {r : NumberedRecord} (hr : (s.make t tids).hand t' = some r) :
      t' = t ∧ r = { id := s.next, tids } := by
    rcases eq_or_ne t' t with rfl | hne
    · have hr' : Function.update s.hand t' (some { id := s.next, tids }) t' = some r := hr
      rw [Function.update_self] at hr'
      exact ⟨rfl, (Option.some.inj hr').symm⟩
    · have hr' : Function.update s.hand t (some { id := s.next, tids }) t' = some r := hr
      rw [Function.update_of_ne hne, hfree] at hr'
      cases hr'
  refine ⟨h.increasing, hread.logged, fun {t' r r'} hr hr' => ?_, fun {t' r} hr => ?_,
    fun {t₁ t₂ r₁ r₂} h₁ h₂ => ?_, h.unique, hread.small, hread.ahead, hread.level, h.entered,
    h.running⟩
  · obtain ⟨-, rfl⟩ := hself hr
    have hold := (h.logged hr').1
    show r'.id < s.next
    rw [next_eq hsmall]
    omega
  · obtain ⟨-, rfl⟩ := hself hr
    have hnext := next_eq hsmall
    refine ⟨Nat.le_refl s.next, fun tid htid => ?_, ?_⟩
    · have hle := htids tid htid
      show tid < (s.next : Int)
      omega
    · show s.next < 2 ^ 31 - 1
      omega
  · rw [(hself h₁).1, (hself h₂).1]

theorem Bounded.setStage {g : TransactionStage} (h : s.Bounded) (hentered : ∀ tid, g ≠ .entered tid)
    (hrunning : ∀ tid, g = .running tid → tid < s.transactionId)
    (hlevel : (∀ t' tid, (s.setStage t g).stage t' ≠ .entered tid) → s.transactionId ≤ s.idSeq) :
    (s.setStage t g).Bounded := by
  have hother {t' : T} {tid : Int} (hstage : (s.setStage t g).stage t' = .entered tid) :
      s.stage t' = .entered tid := by
    have hstage' : Function.update s.stage t g t' = .entered tid := hstage
    rcases eq_or_ne t' t with rfl | hne
    · rw [Function.update_self] at hstage'
      exact absurd hstage' (hentered tid)
    · rwa [Function.update_of_ne hne] at hstage'
  refine ⟨h.increasing, h.logged, h.last, h.hand, h.single,
    fun h₁ h₂ => h.unique (hother h₁) (hother h₂), h.small, h.ahead, hlevel,
    fun hstage => h.entered (hother hstage), fun {t' tid} hstage => ?_⟩
  have hstage' : Function.update s.stage t g t' = .running tid := hstage
  rcases eq_or_ne t' t with rfl | hne
  · rw [Function.update_self] at hstage'
    exact hrunning tid hstage'
  · rw [Function.update_of_ne hne] at hstage'
    exact h.running hstage'

theorem Bounded.enter (h : s.Bounded) (hnone : ∀ t tid, s.stage t ≠ .entered tid)
    (hsmall : s.transactionId < 2 ^ 31 - 1) (t : T) :
    Bounded { s.setStage t (.entered s.transactionId) with
      transactionId := Scalar.int.wrap (s.transactionId + 1) } := by
  have hahead := h.ahead
  have hwrap : Scalar.int.wrap (s.transactionId + 1) = s.transactionId + 1 :=
    Scalar.wrap_of_holds ⟨by omega, by omega⟩
  rw [hwrap]
  have hself {t' : T} {tid : Int}
      (hstage : Function.update s.stage t (.entered s.transactionId) t' = .entered tid) :
      t' = t ∧ tid = s.transactionId := by
    rcases eq_or_ne t' t with rfl | hne
    · rw [Function.update_self] at hstage
      exact ⟨rfl, (TransactionStage.entered.inj hstage).symm⟩
    · rw [Function.update_of_ne hne] at hstage
      exact absurd hstage (hnone t' tid)
  have hlevel := h.level hnone
  refine ⟨h.increasing, h.logged, h.last, h.hand, h.single,
    fun h₁ h₂ => (hself h₁).1.trans (hself h₂).1.symm, h.small, ⟨?_, ?_⟩, fun hno => ?_,
    fun hstage => ?_, fun {t' tid} hstage => ?_⟩
  · show 0 ≤ s.transactionId + 1
    omega
  · show s.transactionId + 1 ≤ s.idSeq + 1
    omega
  · exact absurd (Function.update_self t _ s.stage) (hno t s.transactionId)
  · rw [(hself hstage).2]
    show s.transactionId < s.transactionId + 1
    omega
  · have hstage' : Function.update s.stage t (.entered s.transactionId) t' = .running tid := hstage
    rcases eq_or_ne t' t with rfl | hne
    · rw [Function.update_self] at hstage'
      cases hstage'
    · rw [Function.update_of_ne hne] at hstage'
      have hold := h.running hstage'
      show tid < s.transactionId + 1
      omega

theorem Bounded.push (h : s.Bounded) (hs : s.push t = some s') : s'.Bounded := by
  unfold IdSequence.push at hs
  cases hhand : s.hand t with
  | none => simp [hhand] at hs
  | some r =>
    simp only [hhand, Option.some.injEq] at hs
    subst hs
    -- the others have nothing in hand
    have hfree (t' : T) : Function.update s.hand t Option.none t' = Option.none := by
      rcases eq_or_ne t' t with rfl | hne
      · exact Function.update_self ..
      · rw [Function.update_of_ne hne]
        cases hother : s.hand t' with
        | none => rfl
        | some r' => exact absurd (h.single hother hhand) hne
    refine ⟨?_, fun {r'} hr' => ?_, fun hr' => ?_, fun hr' => ?_, fun hr' => ?_, h.unique, h.small,
      h.ahead, h.level, h.entered, h.running⟩
    · rw [List.pairwise_append]
      refine ⟨h.increasing, List.pairwise_singleton _ r, fun r' hr' r'' hr'' => ?_⟩
      cases List.mem_singleton.mp hr''
      exact h.last hhand hr'
    · rcases List.mem_append.mp hr' with hold | hnew
      · exact h.logged hold
      · cases List.mem_singleton.mp hnew
        exact h.hand hhand
    · exact absurd hr' (by simp [hfree])
    · exact absurd hr' (by simp [hfree])
    · exact absurd hr' (by simp [hfree])

theorem Bounded.begin (h : s.Bounded) (hfree : ∀ t, s.hand t = Option.none)
    (hsmall : s.idSeq < 2 ^ 31 - 2) (hs : s.begin t = some s') : s'.Bounded := by
  unfold IdSequence.begin at hs
  cases hstage : s.stage t with
  | none | running tid => simp [hstage] at hs
  | entered tid =>
    simp only [hstage, Option.some.injEq] at hs
    subst hs
    have hold := h.entered hstage
    have hahead := h.ahead
    have hnext := next_eq hsmall
    have hids : ∀ i ∈ [tid], i ≤ s.idSeq := by
      simp
      omega
    have hmake := h.make hfree hsmall hids t
    refine hmake.setStage nofun (fun tid' htid' => ?_) fun _ => ?_
    · cases htid'
      exact hold
    · show s.transactionId ≤ (s.next : Int)
      omega

theorem Bounded.write (h : s.Bounded) (hfree : ∀ t, s.hand t = Option.none)
    (hsmall : s.idSeq < 2 ^ 31 - 2) (hs : s.write t = some s') : s'.Bounded := by
  unfold IdSequence.write at hs
  cases hstage : s.stage t with
  | none | entered tid => simp [hstage] at hs
  | running tid =>
    simp only [hstage, Option.some.injEq] at hs
    subst hs
    have hold := h.running hstage
    have hahead := h.ahead
    exact h.make hfree hsmall (by simp; omega) t

theorem Bounded.leave (h : s.Bounded) (hs : s.leave t = some s') : s'.Bounded := by
  unfold IdSequence.leave at hs
  cases hstage : s.stage t with
  | none | entered tid => simp [hstage] at hs
  | running tid =>
    simp only [hstage, Option.some.injEq] at hs
    subst hs
    refine h.setStage nofun nofun fun hnone => h.level fun t' tid' hentered => ?_
    -- a transaction that runs is not one that has entered
    have hne : t' ≠ t := by
      rintro rfl
      rw [hstage] at hentered
      cases hentered
    apply hnone t' tid'
    show Function.update s.stage t .none t' = _
    rw [Function.update_of_ne hne, hentered]

theorem Bounded.step (h : s.Bounded) (hlegal : s.Legal ev) (hok : s.Orderly ev)
    (hs : s.step ev = some s') : s'.Bounded := by
  have hahead := h.ahead
  cases ev with
  | enter t =>
    cases hs
    exact h.enter hok.1 hok.2 t
  | begin t => exact h.begin hok.1 hok.2 hs
  | write t => exact h.write hok.1 hok.2 hs
  | leave t => exact h.leave hs
  | ckpt t tids =>
    cases hs
    refine h.make hok.1 hok.2 (fun tid htid => ?_) t
    have hold := hlegal.2 tid htid
    omega
  | printRollbackSign t tid =>
    cases hs
    obtain ⟨r, hr, htid⟩ := hlegal.2
    have hlogged := h.logged hr
    have hold := hlogged.2.tids tid htid
    have hid := hlogged.1
    exact h.make hok.1 hok.2 (by simp; omega) t
  | mark t =>
    cases hs
    have hids : ∀ i ∈ ([] : List Int), i ≤ s.idSeq := nofun
    exact h.make hok.1 hok.2 hids t
  | push t => exact h.push hs
  | read =>
    cases hs
    exact h.read hok
  | restart kept =>
    cases hs
    exact (loadConfig_bounded (h.increasing.sublist (List.take_sublist kept s.log))
      fun r hr => (h.logged (List.mem_of_mem_take hr)).2).1

instance (s : IdSequence T) : DecidablePred s.Legal
  | .enter t => inferInstanceAs (Decidable (s.stage t = .none ∧ s.hand t = Option.none))
  | .begin t | .write t | .mark t | .leave t => inferInstanceAs (Decidable (s.hand t = Option.none))
  | .ckpt t tids =>
    inferInstanceAs (Decidable (s.hand t = Option.none ∧ ∀ tid ∈ tids, tid < s.transactionId))
  | .printRollbackSign t tid =>
    inferInstanceAs (Decidable (s.hand t = Option.none ∧ ∃ r ∈ s.log, tid ∈ r.tids))
  | .push _ | .read | .restart _ => .isTrue trivial

instance (g : TransactionStage) : Decidable (∀ tid, g ≠ .entered tid) :=
  match g with
  | .entered tid => .isFalse fun h => h tid rfl
  | .none | .running _ => .isTrue nofun

instance [Fintype T] (s : IdSequence T) : DecidablePred s.Orderly
  | .enter _ => inferInstanceAs
    (Decidable ((∀ t tid, s.stage t ≠ .entered tid) ∧ s.transactionId < 2 ^ 31 - 1))
  | .begin _ | .write _ | .ckpt _ _ | .printRollbackSign _ _ | .mark _ => inferInstanceAs
    (Decidable ((∀ t, s.hand t = Option.none) ∧ s.idSeq < 2 ^ 31 - 2))
  | .read => inferInstanceAs (Decidable (s.idSeq < 2 ^ 31 - 2))
  | .leave _ | .push _ | .restart _ => .isTrue trivial

end IdSequence

end Loxim.Log
