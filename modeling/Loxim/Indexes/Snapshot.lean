import Loxim.Indexes.Cleaner
import Loxim.Indexes.TransactionList
import Loxim.Lib.Run

/-!
# What a transaction sees

Runs of the resolver are compared with their history: who began, ended and
wrote when. A reader is to see exactly the transactions committed before it
began, and nothing beyond the horizon may still matter to an active one.
-/

namespace Loxim.Indexes

-- ---------------------------------------------------------------------------
-- Histories
-- ---------------------------------------------------------------------------

inductive Call
  | begin (id : Tid) (timestamp : Ts)
  | entryAdded (id : Tid) (index : Lid)
  | commit (id : Tid) (timestamp : Ts)
  | abort (id : Tid)
  deriving DecidableEq, Repr

/-- The transaction a call ends. -/
def Call.ends? : Call → Option Tid
  | .commit id _ => some id
  | .abort id => some id
  | _ => none

/-- The calls made so far, the last one first. -/
abbrev History := List Call

namespace History

def Began (h : History) (t : Tid) (b : Ts) : Prop := Call.begin t b ∈ h

def Committed (h : History) (t : Tid) (c : Ts) : Prop := Call.commit t c ∈ h

def Aborted (h : History) (t : Tid) : Prop := Call.abort t ∈ h

def Ended (h : History) (t : Tid) : Prop := (∃ c, h.Committed t c) ∨ h.Aborted t

def Active (h : History) (t : Tid) (b : Ts) : Prop := h.Began t b ∧ ¬ h.Ended t

def HasEntries (h : History) (t : Tid) (i : Lid) : Prop := Call.entryAdded t i ∈ h

/-- `t` had ended when `u` began. -/
def EndedBefore : History → Tid → Tid → Prop
  | [], _, _ => False
  | c :: h, t, u => (∃ b, c = .begin u b) ∧ Ended h t ∨ EndedBefore h t u

/-- Ids and times grow: a transaction begins after everything that was committed. -/
def Allows (h : History) : Call → Prop
  | .begin id b => 0 < id ∧ (∀ t b', h.Began t b' → t < id) ∧ ∀ t c, h.Committed t c → c < b
  | .entryAdded id _ => ∃ b, h.Active id b
  | .commit id c => (∃ b, h.Active id b) ∧ ∀ t c', h.Committed t c' → c' < c
  | .abort id => ∃ b, h.Active id b

/-- `P` held of every call when it was made. -/
def Along (P : History → Call → Prop) : History → Prop
  | [] => True
  | c :: h => Along P h ∧ P h c

def Legal (h : History) : Prop := h.Along Allows

variable {h : History} {t u : Tid} {b c : Ts}

theorem Ended.cons (he : Ended h t) : Ended (a :: h) t :=
  he.imp (fun ⟨c, hc⟩ => ⟨c, List.mem_cons_of_mem _ hc⟩) (List.mem_cons_of_mem _)

theorem ended_cons : Ended (a :: h) t ↔ (∃ c, a = .commit t c) ∨ a = .abort t ∨ Ended h t := by
  simp only [Ended, Committed, Aborted, List.mem_cons]
  constructor
  · rintro (⟨c, hc | hc⟩ | hc | hc)
    · exact .inl ⟨c, hc.symm⟩
    · exact .inr (.inr (.inl ⟨c, hc⟩))
    · exact .inr (.inl hc.symm)
    · exact .inr (.inr (.inr hc))
  · rintro (⟨c, rfl⟩ | rfl | ⟨c, hc⟩ | hc)
    · exact .inl ⟨c, .inl rfl⟩
    · exact .inr (.inl rfl)
    · exact .inl ⟨c, .inr hc⟩
    · exact .inr (.inr hc)

theorem EndedBefore.ended (he : EndedBefore h t u) : Ended h t := by
  induction h with
  | nil => exact he.elim
  | cons a h ih => exact he.elim (fun ha => ha.2.cons) fun hb => (ih hb).cons

theorem Legal.began_pos (hl : Legal h) (hb : Began h t b) : 0 < t := by
  induction h with
  | nil => cases hb
  | cons a h ih =>
    rcases List.mem_cons.mp hb with rfl | hb
    · exact hl.2.1
    · exact ih hl.1 hb

theorem Legal.began_of_ended (hl : Legal h) (he : Ended h t) : ∃ b, Began h t b := by
  induction h with
  | nil => exact he.elim (fun ⟨_, hc⟩ => nomatch hc) nofun
  | cons a h ih =>
    have hcons : (∃ b, Began h t b) → ∃ b, Began (a :: h) t b :=
      fun ⟨b, hb⟩ => ⟨b, List.mem_cons_of_mem _ hb⟩
    rcases ended_cons.mp he with ⟨c, rfl⟩ | rfl | he
    · exact hcons (hl.2.1.imp fun _ hb => hb.1)
    · exact hcons (hl.2.imp fun _ hb => hb.1)
    · exact hcons (ih hl.1 he)

theorem Legal.began_of_entries (hl : Legal h) (he : HasEntries h t i) : ∃ b, Began h t b := by
  induction h with
  | nil => cases he
  | cons a h ih =>
    have hcons : (∃ b, Began h t b) → ∃ b, Began (a :: h) t b :=
      fun ⟨b, hb⟩ => ⟨b, List.mem_cons_of_mem _ hb⟩
    rcases List.mem_cons.mp he with rfl | he
    · exact hcons (hl.2.imp fun _ hb => hb.1)
    · exact hcons (ih hl.1 he)

theorem Legal.began_unique (hl : Legal h) (hb : Began h t b) (hb' : Began h t b') : b = b' := by
  induction h with
  | nil => cases hb
  | cons a h ih =>
    rcases List.mem_cons.mp hb with rfl | hold <;> rcases List.mem_cons.mp hb' with heq | hold'
    · exact (Call.begin.inj heq).2.symm
    · exact absurd (hl.2.2.1 t b' hold') (lt_irrefl t)
    · subst heq
      exact absurd (hl.2.2.1 t b hold) (lt_irrefl t)
    · exact ih hl.1 hold hold'

theorem Legal.committed_unique (hl : Legal h) (hc : Committed h t c) (hc' : Committed h t c') :
    c = c' := by
  induction h with
  | nil => cases hc
  | cons a h ih =>
    rcases List.mem_cons.mp hc with rfl | hold <;> rcases List.mem_cons.mp hc' with heq | hold'
    · exact (Call.commit.inj heq).2.symm
    · obtain ⟨b, -, hne⟩ := hl.2.1
      exact absurd (.inl ⟨c', hold'⟩) hne
    · subst heq
      obtain ⟨b, -, hne⟩ := hl.2.1
      exact absurd (.inl ⟨c, hold⟩) hne
    · exact ih hl.1 hold hold'

theorem Legal.not_aborted (hl : Legal h) (hc : Committed h t c) : ¬ Aborted h t := by
  intro ha
  induction h with
  | nil => cases hc
  | cons a h ih =>
    rcases List.mem_cons.mp hc with rfl | hold <;> rcases List.mem_cons.mp ha with heq | hold'
    · cases heq
    · obtain ⟨b, -, hne⟩ := hl.2.1
      exact hne (.inr hold')
    · subst heq
      obtain ⟨b, -, hne⟩ := hl.2
      exact hne (.inl ⟨c, hold⟩)
    · exact ih hl.1 hold hold'

/-- What ended before `u` began ended before everything younger. -/
theorem EndedBefore.younger (hl : Legal h) (he : EndedBefore h t u) (hu : u ≤ w)
    (hw : Began h w b) : EndedBefore h t w := by
  induction h with
  | nil => cases hw
  | cons a h ih =>
    rcases List.mem_cons.mp hw with rfl | hold
    · rcases he with ⟨-, he⟩ | he
      · exact .inl ⟨⟨b, rfl⟩, he⟩
      · exact .inl ⟨⟨b, rfl⟩, he.ended⟩
    · rcases he with ⟨⟨b', rfl⟩, -⟩ | he
      · exact absurd (hl.2.2.1 w b hold) (not_lt.mpr hu)
      · exact .inr (ih hl.1 he hold)

theorem Committed.lt_of_endedBefore (hl : Legal h) (hc : Committed h t c)
    (he : EndedBefore h t u) (hb : Began h u b) : c < b := by
  induction h with
  | nil => cases hb
  | cons a h ih =>
    have hold (hend : Ended h t) : Committed h t c := by
      rcases List.mem_cons.mp hc with rfl | hc
      · exact absurd hend hl.2.1.choose_spec.2
      · exact hc
    rcases List.mem_cons.mp hb with rfl | hbegan
    · rcases he with ⟨-, he⟩ | he
      · exact hl.2.2.2 t c (hold he)
      · exact hl.2.2.2 t c (hold he.ended)
    · rcases he with ⟨⟨b', rfl⟩, -⟩ | he
      · exact absurd (hl.2.2.1 u b hbegan) (lt_irrefl u)
      · exact ih hl.1 (hold he.ended) he hbegan

end History

-- ---------------------------------------------------------------------------
-- Runs
-- ---------------------------------------------------------------------------

def VisibilityResolver.call (v : VisibilityResolver) : Call → Option VisibilityResolver
  | .begin id _ => some (v.begin id)
  | .entryAdded id index => v.entryAdded id index
  | .commit id timestamp => v.commit id timestamp
  | .abort id => v.abort id

/-- The resolver beside the calls that led to it. -/
structure Run where
  resolver : VisibilityResolver := {}
  history : History := []

namespace Run

open History VisibilityResolver

def step (s : Run) (a : Call) : Option Run :=
  (s.resolver.call a).map fun v => ⟨v, a :: s.history⟩

structure Inv (s : Run) : Prop where
  legal : s.history.Legal
  listed : ∃ top, Listed s.resolver top ∧ (top = 0 ∨ ∃ b, s.history.Began top b)
  active_iff : ∀ t, (∃ tr, (t, tr) ∈ s.resolver.active) ↔ ∃ b, s.history.Active t b
  counter : ∀ t tr i, (t, tr) ∈ s.resolver.active →
    (i ∈ tr.entryCounter ↔ s.history.HasEntries t i)
  tail_counter : s.resolver.tail.entryCounter = ∅
  rolledBack : ∀ t i, (rolledCount s.resolver.rolledBack i t).isSome ↔
    s.history.Aborted t ∧ s.history.HasEntries t i
  commit_sound : ∀ t c, s.resolver.commitTs[t]? = some c → s.history.Committed t c
  commit_kept : ∀ t c i, s.history.Committed t c → s.history.HasEntries t i →
    s.resolver.commitTs[t]? = some c ∨
      (s.resolver.commitTs[t]? = none ∧ ∀ u b, s.history.Active u b → c < b)
  node_ended : ∀ n tr done t, (n, tr) ∈ s.resolver.active → tr.finishedBefore = some done →
    t ∈ done → s.history.Ended t
  node_stamp : ∀ n tr done t c u b, (n, tr) ∈ s.resolver.active → tr.finishedBefore = some done →
    t ∈ done → s.history.Committed t c → s.history.Began u b → n ≤ u → c < b
  tail_ended : ∀ done t, s.resolver.tail.finishedBefore = some done → t ∈ done → s.history.Ended t

theorem inv_init : Inv {} := by
  refine ⟨trivial, ⟨0, listed_init, .inl rfl⟩, ?_, ?_, rfl, ?_, ?_, ?_, ?_, ?_, ?_⟩
  all_goals simp +contextual [Active, Began, Aborted, Committed, rolledCount]

section

variable {v v' : VisibilityResolver} {h : History} {id : Tid} {b c : Ts}

theorem inv_begin (hi : Inv ⟨v, h⟩) (ha : h.Allows (.begin id b)) :
    Inv ⟨v.begin id, .begin id b :: h⟩ := by
  obtain ⟨hpos, hids, hstamps⟩ := ha
  have hnew : ∀ b', ¬ h.Began id b' := fun b' hb => lt_irrefl id (hids id b' hb)
  have hended (t : Tid) : Ended (.begin id b :: h) t ↔ Ended h t := by
    simp [ended_cons]
  have hbegan (t : Tid) (b' : Ts) : Began (.begin id b :: h) t b' ↔ (t = id ∧ b' = b) ∨ Began h t b' := by
    simp [Began]
  have hmem (n : Tid) (tr : TransactionImpact) : (n, tr) ∈ (v.begin id).active ↔
      (n, tr) ∈ v.active ∨ n = id ∧ tr = v.tail := by
    simp [VisibilityResolver.begin]
  obtain ⟨top, htop, hlast⟩ := hi.listed
  have hlt : top < id := by
    rcases hlast with rfl | ⟨b', hb'⟩
    · exact hpos
    · exact hids top b' hb'
  refine ⟨⟨hi.legal, hpos, hids, hstamps⟩, ⟨id, htop.begin hlt, .inr ⟨b, by simp [Began]⟩⟩,
    ?_, ?_, rfl, ?_, ?_, ?_, ?_, ?_, ?_⟩
  · intro t
    simp only [hmem, exists_or, Active, hbegan, hended, or_and_right]
    refine Iff.or (hi.active_iff t) ?_ |>.trans or_comm
    constructor
    · rintro ⟨tr, rfl, -⟩
      exact ⟨b, ⟨rfl, rfl⟩, fun he => (hi.legal.began_of_ended he).elim hnew⟩
    · rintro ⟨b', ⟨rfl, -⟩, -⟩
      exact ⟨v.tail, rfl, rfl⟩
  · intro t tr i hp
    simp only [HasEntries, List.mem_cons, reduceCtorEq, false_or]
    rcases (hmem t tr).mp hp with hp | ⟨rfl, rfl⟩
    · exact hi.counter t tr i hp
    · refine iff_of_false ?_ fun he => (hi.legal.began_of_entries he).elim hnew
      rw [hi.tail_counter]
      simp
  · intro t i
    simpa [Aborted, HasEntries, VisibilityResolver.begin] using hi.rolledBack t i
  · intro t c hc
    exact List.mem_cons_of_mem _ (hi.commit_sound t c hc)
  · intro t c i hc he
    simp only [Committed, HasEntries, List.mem_cons, reduceCtorEq, false_or] at hc he
    refine (hi.commit_kept t c i hc he).imp_right (And.imp_right fun hold u b' hu => ?_)
    rcases (hbegan u b').mp hu.1 with ⟨-, rfl⟩ | hb'
    · exact hstamps t c hc
    · exact hold u b' ⟨hb', fun he => hu.2 he.cons⟩
  · intro n tr done t hp hd ht
    rw [hended]
    rcases (hmem n tr).mp hp with hp | ⟨rfl, rfl⟩
    · exact hi.node_ended n tr done t hp hd ht
    · exact hi.tail_ended done t hd ht
  · intro n tr done t c u b' hp hd ht hc hu hle
    simp only [Committed, List.mem_cons, reduceCtorEq, false_or] at hc
    rcases (hbegan u b').mp hu with ⟨-, rfl⟩ | hold
    · exact hstamps t c hc
    · rcases (hmem n tr).mp hp with hp | ⟨rfl, rfl⟩
      · exact hi.node_stamp n tr done t c u b' hp hd ht hc hold hle
      · exact absurd (hids u b' hold) (not_lt.mpr hle)
  · rintro done t ⟨⟩ ht
    cases ht

theorem inv_entryAdded {i : Lid} (hi : Inv ⟨v, h⟩) (ha : h.Allows (.entryAdded id i))
    (hs : v.entryAdded id i = some v') : Inv ⟨v', .entryAdded id i :: h⟩ := by
  obtain ⟨tr₀, -, rfl⟩ := entryAdded_eq_some hs
  have hended (t : Tid) : Ended (.entryAdded id i :: h) t ↔ Ended h t := by
    simp [ended_cons]
  have hmem (n : Tid) (tr : TransactionImpact)
      (hp : (n, tr) ∈ (v.modify id (·.entryAdded i)).active) : ∃ tr', (n, tr') ∈ v.active ∧
        tr'.finishedBefore = tr.finishedBefore ∧
        ∀ j, j ∈ tr.entryCounter ↔ (n = id ∧ j = i) ∨ j ∈ tr'.entryCounter := by
    simp only [VisibilityResolver.modify, List.mem_map] at hp
    obtain ⟨q, hq, heq⟩ := hp
    split at heq
    · cases heq
      refine ⟨q.2, hq, rfl, fun j => ?_⟩
      simp only [TransactionImpact.entryAdded, Std.ExtTreeMap.mem_insert, compare_eq_iff_eq]
      exact or_congr_left ⟨fun heq => ⟨‹_›, heq.symm⟩, fun heq => heq.2.symm⟩
    · subst heq
      exact ⟨tr, hq, rfl, fun j => by simp [*]⟩
  obtain ⟨top, htop, hlast⟩ := hi.listed
  refine ⟨⟨hi.legal, ha⟩, ⟨top, htop.entryAdded hs, hlast.imp_right fun hb =>
    hb.imp fun _ => List.mem_cons_of_mem _⟩, ?_, ?_, hi.tail_counter, ?_, ?_, ?_, ?_, ?_, ?_⟩
  · intro t
    have hact : (∃ tr, (t, tr) ∈ (v.modify id (·.entryAdded i)).active) ↔
        ∃ tr, (t, tr) ∈ v.active := by
      have hids := congrArg (t ∈ ·) (modify_ids v id (·.entryAdded i))
      simpa using hids
    rw [hact, hi.active_iff t]
    simp [Active, Began, hended]
  · intro t tr j hp
    obtain ⟨tr', hp', -, hcount⟩ := hmem t tr hp
    rw [hcount, hi.counter t tr' j hp']
    simp [HasEntries]
  · intro t j
    refine (hi.rolledBack t j).trans ?_
    simp only [Aborted, HasEntries, List.mem_cons, reduceCtorEq, false_or, Call.entryAdded.injEq]
    refine and_congr_right fun hab => (or_iff_right ?_).symm
    rintro ⟨rfl, -⟩
    exact ha.choose_spec.2 (.inr hab)
  · intro t c hc
    exact List.mem_cons_of_mem _ (hi.commit_sound t c hc)
  · intro t c j hc he
    simp only [Committed, HasEntries, List.mem_cons, reduceCtorEq, false_or,
      Call.entryAdded.injEq] at hc he
    have he' : h.HasEntries t j := by
      refine he.resolve_left ?_
      rintro ⟨rfl, -⟩
      exact ha.choose_spec.2 (.inl ⟨c, hc⟩)
    refine (hi.commit_kept t c j hc he').imp_right (And.imp_right fun hold u b' hu => ?_)
    exact hold u b' ⟨by simpa [Began] using hu.1, fun hend => hu.2 hend.cons⟩
  · intro n tr done t hp hd ht
    obtain ⟨tr', hp', hdone, -⟩ := hmem n tr hp
    exact (hi.node_ended n tr' done t hp' (hdone.trans hd) ht).cons
  · intro n tr done t c u b' hp hd ht hc hu hle
    obtain ⟨tr', hp', hdone, -⟩ := hmem n tr hp
    refine hi.node_stamp n tr' done t c u b' hp' (hdone.trans hd) ht ?_ ?_ hle
    · simpa [Committed] using hc
    · simpa [Began] using hu
  · exact fun done t hd ht => (hi.tail_ended done t hd ht).cons

/-- What the end of `id` does to everything but the rolled back counts. `ct` is
what the commit times are just before the list is left. -/
theorem inv_end {tr : TransactionImpact} {tail : TransactionImpact} {a : Call}
    {ct : Std.ExtTreeMap Tid Ts} (rb : RolledBack) (hi : Inv ⟨v, h⟩) (ha : h.Allows a)
    (hact : ∃ b, h.Active id b) (hcall : a = .commit id c ∨ a = .abort id)
    (hfind : v.find id = some tr) (htail : v.tail.addFinished id = some tail)
    (hf : { v with tail := tail, commitTs := ct }.finish id = some v')
    (hsound : ∀ t c, ct[t]? = some c → Committed (a :: h) t c)
    (hkept : ∀ t c i, Committed (a :: h) t c → h.HasEntries t i →
      ct[t]? = some c ∨ (ct[t]? = none ∧ ∀ u b, h.Active u b → c < b))
    (hrb : ∀ t i, (rolledCount rb i t).isSome ↔ Aborted (a :: h) t ∧ h.HasEntries t i) :
    Inv ⟨{ v' with rolledBack := rb }, a :: h⟩ := by
  obtain ⟨top, htop, hlast⟩ := hi.listed
  obtain ⟨hprep, hle⟩ := htop.prepare hfind htail ct
  obtain ⟨done₀, hdone₀, hfb, -, htc⟩ := TransactionImpact.addFinished_eq_some htail
  have hbegan (t : Tid) (b : Ts) : Began (a :: h) t b ↔ Began h t b := by
    rcases hcall with rfl | rfl <;> simp [Began]
  have hentries (t : Tid) (i : Lid) : HasEntries (a :: h) t i ↔ HasEntries h t i := by
    rcases hcall with rfl | rfl <;> simp [HasEntries]
  have hended (t : Tid) : Ended (a :: h) t ↔ t = id ∨ Ended h t := by
    rcases hcall with rfl | rfl <;> simp [ended_cons, eq_comm]
  have hactive (t : Tid) (b : Ts) : Active (a :: h) t b ↔ Active h t b ∧ t ≠ id := by
    rw [Active, Active, hbegan, hended, not_or, and_assoc, and_comm (a := t ≠ id)]
  have hcommitted (t : Tid) (c' : Ts) (hend : Ended h t) (hc : Committed (a :: h) t c') :
      Committed h t c' := by
    refine (List.mem_cons.mp hc).resolve_left fun heq => ?_
    have hid : t = id := by
      rcases hcall with rfl | rfl <;> simp_all
    exact hact.choose_spec.2 (hid ▸ hend)
  obtain ⟨-, htail', hdone'⟩ := finish_rest hf
  refine ⟨⟨hi.legal, ha⟩, ⟨top, { hprep.finish hle hf with }, hlast.imp_right fun hb =>
    hb.imp fun _ => List.mem_cons_of_mem _⟩, ?_, ?_, ?_, ?_, ?_, ?_, ?_, ?_, ?_⟩
  · intro t
    simp only [hactive, exists_and_right, ← hi.active_iff t]
    constructor
    · rintro ⟨tr', hp⟩
      obtain ⟨hne, tr₀, hp₀, -⟩ := hprep.finish_mem hf hp
      exact ⟨⟨tr₀, hp₀⟩, hne⟩
    · rintro ⟨⟨tr', hp⟩, hne⟩
      exact mem_finish hf hp hne
  · intro t tr' i hp
    obtain ⟨-, tr₀, hp₀, hcount, -⟩ := hprep.finish_mem hf hp
    rw [hcount, hi.counter t tr₀ i hp₀, hentries]
  · exact htail'.trans (htc.trans hi.tail_counter)
  · intro t i
    rw [hrb, hentries]
  · intro t c' hc
    rcases hprep.finish_commitTs hf t with heq | ⟨hnone, -⟩
    · exact hsound t c' (heq ▸ hc)
    · rw [hnone] at hc
      cases hc
  · intro t c' i hc he
    rw [hentries] at he
    have hlater (hold : ∀ u b, h.Active u b → c' < b) (u : Tid) (b : Ts)
        (hu : Active (a :: h) u b) : c' < b := hold u b ((hactive u b).mp hu).1
    rcases hprep.finish_commitTs hf t with heq | ⟨hnone, -, hnode⟩
    · rw [heq]
      exact (hkept t c' i hc he).imp_right (And.imp_right hlater)
    · refine .inr ⟨hnone, fun u b hu => ?_⟩
      obtain ⟨hu', hne⟩ := (hactive u b).mp hu
      obtain ⟨tru, hpu⟩ := (hi.active_iff u).mpr ⟨b, hu'⟩
      obtain ⟨tru', hpu'⟩ := mem_finish hf hpu hne
      obtain ⟨n, next, done, hn, hd, ht, hle⟩ := hnode u tru' hpu'
      exact hi.node_stamp n next done t c' u b hn hd ht
        (hcommitted t c' (hi.node_ended n next done t hn hd ht) hc) hu'.1 hle
  · intro n tr' done t hp hd ht
    obtain ⟨-, tr₀, hp₀, -, hdone⟩ := hprep.finish_mem hf hp
    exact (hi.node_ended n tr₀ done t hp₀ (hdone done hd) ht).cons
  · intro n tr' done t c' u b hp hd ht hc hu hle
    obtain ⟨-, tr₀, hp₀, -, hdone⟩ := hprep.finish_mem hf hp
    exact hi.node_stamp n tr₀ done t c' u b hp₀ (hdone done hd) ht
      (hcommitted t c' (hi.node_ended n tr₀ done t hp₀ (hdone done hd) ht) hc)
      ((hbegan u b).mp hu) hle
  · intro done t hd ht
    have hd' := hdone' done hd
    rw [hfb, Option.some.injEq] at hd'
    subst hd'
    rw [hended]
    exact (List.mem_insert_iff.mp ht).imp_right fun ht => hi.tail_ended done₀ t hdone₀ ht

theorem inv_commit (hi : Inv ⟨v, h⟩) (ha : h.Allows (.commit id c))
    (hs : v.commit id c = some v') : Inv ⟨v', .commit id c :: h⟩ := by
  obtain ⟨tr, tail, hfind, htail, hf⟩ := commit_eq_some hs
  have hact := ha.1
  have hnone : v.commitTs[id]? = none := by
    rw [Option.eq_none_iff_forall_ne_some]
    intro c' hc'
    exact hact.choose_spec.2 (.inl ⟨c', hi.commit_sound id c' hc'⟩)
  have hother (t : Tid) (ht : t ≠ id) : (v.stampedBy tr id c)[t]? = v.commitTs[t]? := by
    unfold stampedBy
    split
    · rfl
    · rw [Std.ExtTreeMap.getElem?_insertIfNew, if_neg (by simp [Ne.symm ht])]
  have hself : (v.stampedBy tr id c)[id]? = if tr.entryCounter.isEmpty then none else some c := by
    unfold stampedBy
    split
    · exact hnone
    · have hmem : id ∉ v.commitTs := by
        rw [Std.ExtTreeMap.mem_iff_isSome_getElem?, hnone]
        simp
      rw [Std.ExtTreeMap.getElem?_insertIfNew, if_pos (by simp [hmem])]
  have hcounter (i : Lid) (he : h.HasEntries id i) : tr.entryCounter.isEmpty = false := by
    have hi' := (hi.counter id tr i (mem_of_find hfind)).mpr he
    rw [Std.ExtTreeMap.isEmpty_eq_false_iff, Std.ExtTreeMap.eq_empty_iff_forall_not_mem]
    exact fun hnot => hnot i hi'
  refine inv_end v'.rolledBack hi ha hact (.inl rfl) hfind htail hf ?_ ?_ ?_
  · intro t c' hc'
    by_cases ht : t = id
    · subst ht
      rw [hself] at hc'
      split at hc'
      · cases hc'
      · cases hc'
        exact List.mem_cons_self
    · exact List.mem_cons_of_mem _ (hi.commit_sound t c' (hother t ht ▸ hc'))
  · intro t c' i hc' he
    by_cases ht : t = id
    · subst ht
      have heq : c' = c := by
        rcases List.mem_cons.mp hc' with heq | hold
        · exact (Call.commit.inj heq).2
        · exact absurd (.inl ⟨c', hold⟩) hact.choose_spec.2
      rw [hself, hcounter i he, heq]
      exact .inl rfl
    · rw [hother t ht]
      refine hi.commit_kept t c' i ?_ he
      simpa [Committed, ht] using hc'
  · intro t i
    rw [(finish_rest hf).1]
    simpa [Aborted] using hi.rolledBack t i

theorem inv_abort (hi : Inv ⟨v, h⟩) (ha : h.Allows (.abort id))
    (hs : v.abort id = some v') : Inv ⟨v', .abort id :: h⟩ := by
  obtain ⟨tr, tail, w, hfind, htail, hf, rfl⟩ := abort_eq_some hs
  have hcommitted (t : Tid) (c : Ts) : Committed (.abort id :: h) t c ↔ Committed h t c := by
    simp [Committed]
  refine inv_end (c := 0) _ hi ha ha (.inr rfl) hfind htail hf ?_ ?_ ?_
  · intro t c hc
    exact (hcommitted t c).mpr (hi.commit_sound t c hc)
  · intro t c i hc he
    exact hi.commit_kept t c i ((hcommitted t c).mp hc) he
  · intro t i
    have hold := hi.rolledBack t i
    have hcount := hi.counter id tr i (mem_of_find hfind)
    rw [Std.ExtTreeMap.mem_iff_isSome_getElem?] at hcount
    rw [rolledCount_abort, (finish_rest hf).1]
    by_cases ht : t = id
    · subst ht
      rw [if_pos rfl, Option.isSome_or, Bool.or_eq_true, hold, hcount]
      simp [Aborted]
    · rw [if_neg ht, hold]
      simp [Aborted, ht]

theorem inv_step {s s' : Run} {a : Call} (hi : Inv s) (ha : s.history.Allows a)
    (hs : s.step a = some s') : Inv s' := by
  obtain ⟨v', hv, rfl⟩ := Option.map_eq_some_iff.mp hs
  cases a with
  | begin id b =>
    cases hv
    exact inv_begin hi ha
  | entryAdded id i => exact inv_entryAdded hi ha hv
  | commit id c => exact inv_commit hi ha hv
  | abort id => exact inv_abort hi ha hv

/-- No call of a legal run meets a transaction that is not active or a set that
is forgotten. -/
theorem step_isSome {s : Run} {a : Call} (hi : Inv s) (ha : s.history.Allows a) :
    (s.step a).isSome := by
  obtain ⟨top, htop, -⟩ := hi.listed
  have hmem (id : Tid) (hact : ∃ b, s.history.Active id b) : ∃ tr, (id, tr) ∈ s.resolver.active :=
    (hi.active_iff id).mpr hact
  rw [step, Option.isSome_map]
  cases a with
  | begin id b => rfl
  | entryAdded id i =>
    obtain ⟨tr, hp⟩ := hmem id ha
    obtain ⟨tr', hfind⟩ := Option.isSome_iff_exists.mp (find_isSome hp)
    simp [VisibilityResolver.call, VisibilityResolver.entryAdded, hfind]
  | commit id c =>
    obtain ⟨tr, hp⟩ := hmem id ha.1
    exact htop.commit_isSome hp c
  | abort id =>
    obtain ⟨tr, hp⟩ := hmem id ha
    exact htop.abort_isSome hp

-- ---------------------------------------------------------------------------
-- Snapshots
-- ---------------------------------------------------------------------------

/-- When the oldest transaction ends, the horizon of the next one covers every
commit time that is already forgotten. -/
def KeepsForgotten (s : Run) (a : Call) : Prop :=
  ∀ id tr n next others, a.ends? = some id → s.resolver.active = (id, tr) :: (n, next) :: others →
    ∀ t c i, s.history.Committed t c → s.history.HasEntries t i →
      s.resolver.commitTs[t]? = none → t ≤ next.horizon

/-- The horizon stands for every forgotten commit time. -/
def Covered (s : Run) : Prop :=
  ∀ t c i, s.history.Committed t c → s.history.HasEntries t i →
    s.resolver.commitTs[t]? = none → t ≤ s.resolver.horizon

theorem covered_end {tr tail : TransactionImpact} {a : Call} {ct : Std.ExtTreeMap Tid Ts}
    (hi : Inv ⟨v, h⟩) (hcov : Covered ⟨v, h⟩) (hkeep : KeepsForgotten ⟨v, h⟩ a)
    (hends : a.ends? = some id) (hfind : v.find id = some tr)
    (htail : v.tail.addFinished id = some tail)
    (hf : { v with tail := tail, commitTs := ct }.finish id = some v')
    (hct : ∀ t c i, Committed (a :: h) t c → h.HasEntries t i → ct[t]? = none →
      Committed h t c ∧ v.commitTs[t]? = none) {t : Tid} {c : Ts} {i : Lid}
    (hc : Committed (a :: h) t c) (he : h.HasEntries t i) (hnone : v'.commitTs[t]? = none) :
    t ≤ v'.horizon := by
  obtain ⟨top, htop, -⟩ := hi.listed
  obtain ⟨hprep, hle⟩ := htop.prepare hfind htail ct
  rcases hprep.finish_commitTs hf t with heq | ⟨-, hhor, -⟩
  · obtain ⟨hc', hnone'⟩ := hct t c i hc he (heq ▸ hnone)
    have hold := hcov t c i hc' he hnone'
    rcases finish_cases hf with ⟨first, tr₁, rest, hact, hne, rfl⟩ | ⟨tr₁, done, hact, hdone, rfl⟩ |
      ⟨tr₁, n, next, others, done, hact, hdone, rfl⟩
    · exact hold
    · have hlt := htop.horizon_lt (id, tr) (mem_of_find hfind)
      exact le_trans hold (le_trans hlt.le hle)
    · exact hkeep id tr₁ n next others hends hact t c i hc' he hnone'
  · exact hhor

theorem covered_step {s s' : Run} {a : Call} (hi : Inv s) (hcov : Covered s)
    (ha : s.history.Allows a) (hkeep : s.KeepsForgotten a) (hs : s.step a = some s') :
    Covered s' := by
  obtain ⟨v', hv, rfl⟩ := Option.map_eq_some_iff.mp hs
  cases a with
  | begin id b =>
    cases hv
    intro t c i hc he hnone
    exact hcov t c i (by simpa [Committed] using hc) (by simpa [HasEntries] using he) hnone
  | entryAdded id i =>
    obtain ⟨tr, -, rfl⟩ := entryAdded_eq_some hv
    intro t c j hc he hnone
    have hc' : s.history.Committed t c := by simpa [Committed] using hc
    refine hcov t c j hc' ?_ hnone
    refine (List.mem_cons.mp he).resolve_left fun heq => ?_
    cases heq
    exact ha.choose_spec.2 (.inl ⟨c, hc'⟩)
  | commit id c₀ =>
    obtain ⟨tr, tail, hfind, htail, hf⟩ := commit_eq_some hv
    intro t c i hc he hnone
    refine covered_end hi hcov hkeep rfl hfind htail hf ?_ hc (by simpa [HasEntries] using he) hnone
    intro u d j hd hj hnot
    have hne : u ≠ id := by
      rintro rfl
      have hmem := (hi.counter u tr j (mem_of_find hfind)).mpr hj
      have hempty : tr.entryCounter.isEmpty = false := by
        rw [Std.ExtTreeMap.isEmpty_eq_false_iff, Std.ExtTreeMap.eq_empty_iff_forall_not_mem]
        exact fun hall => hall j hmem
      rw [stampedBy, hempty] at hnot
      simp at hnot
    refine ⟨by simpa [Committed, hne] using hd, ?_⟩
    rw [stampedBy] at hnot
    split at hnot
    · exact hnot
    · rwa [Std.ExtTreeMap.getElem?_insertIfNew, if_neg (by simp [Ne.symm hne])] at hnot
  | abort id =>
    obtain ⟨tr, tail, w, hfind, htail, hf, rfl⟩ := abort_eq_some hv
    intro t c i hc he hnone
    refine covered_end hi hcov hkeep rfl hfind htail hf ?_ hc (by simpa [HasEntries] using he) hnone
    exact fun t c i hc _ hnone => ⟨by simpa [Committed] using hc, hnone⟩

-- ---------------------------------------------------------------------------
-- Given histories
-- ---------------------------------------------------------------------------

def replay : History → Option Run
  | [] => some {}
  | a :: h => (replay h).bind (step · a)

theorem replay_history (hr : replay h = some s) : s.history = h := by
  induction h generalizing s with
  | nil =>
    cases hr
    rfl
  | cons a h ih =>
    obtain ⟨r, hr', hs⟩ := Option.bind_eq_some_iff.mp hr
    obtain ⟨v, -, rfl⟩ := Option.map_eq_some_iff.mp hs
    exact congrArg (a :: ·) (ih hr')

theorem reaches_replay {P : History → Call → Prop} {ok : Run → Call → Prop} (h : History)
    (hok : ∀ s a, Reaches step ok {} s → P s.history a → ok s a) (hP : h.Along P)
    (hr : replay h = some s) : Reaches step ok {} s := by
  induction h generalizing s with
  | nil =>
    cases hr
    exact .refl
  | cons a h ih =>
    obtain ⟨r, hr', hs⟩ := Option.bind_eq_some_iff.mp hr
    have hreach := ih hP.1 hr'
    exact .step hreach (hok r a hreach (by rw [replay_history hr']; exact hP.2)) hs

-- ---------------------------------------------------------------------------
-- What a reader sees
-- ---------------------------------------------------------------------------

/-- Where every forgotten commit time stays covered, a reader sees exactly what
was committed before it began. -/
theorem isVisible_iff {s : Run}
    (h : Reaches step (fun s a => s.history.Allows a ∧ s.KeepsForgotten a) {} s) :
    (∀ a, s.history.Allows a → (s.step a).isSome) ∧
      ∀ t b f i, s.history.Active t b → f ≠ t → s.history.HasEntries f i →
        (s.resolver.isVisible f b i = true ↔ ∃ c, s.history.Committed f c ∧ c < b) := by
  obtain ⟨hi, hcov⟩ : Inv s ∧ Covered s := by
    refine h.invariant (I := fun s => Inv s ∧ Covered s) ⟨inv_init, ?_⟩ fun s a s' hi hok hs =>
      ⟨inv_step hi.1 hok.1 hs, covered_step hi.1 hi.2 hok.1 hok.2 hs⟩
    intro t c i hc
    cases hc
  refine ⟨fun a ha => step_isSome hi ha, fun t b f i hact _ he => ?_⟩
  obtain ⟨top, htop, -⟩ := hi.listed
  obtain ⟨bf, hbf⟩ := hi.legal.began_of_entries he
  have hpos := hi.legal.began_pos hbf
  have hne₂ : f ≠ Tid.rolledBack := (lt_trans (by decide) hpos).ne'
  have hne₃ : f ≠ Tid.beyondHorizon := (lt_trans (by decide) hpos).ne'
  have hrolled := (isRolledBack_iff hne₂).trans (hi.rolledBack f i)
  rw [isVisible, if_neg hne₃]
  split
  · rename_i hrb
    refine iff_of_false (by simp) ?_
    rintro ⟨c, hc, -⟩
    exact hi.legal.not_aborted hc (hrolled.mp hrb).1
  · rename_i hrb
    cases hct : s.resolver.commitTs[f]? with
    | some c =>
      have hc := hi.commit_sound f c hct
      simp only [decide_eq_true_eq]
      refine ⟨fun hlt => ⟨c, hc, hlt⟩, ?_⟩
      rintro ⟨c', hc', hlt⟩
      rwa [hi.legal.committed_unique hc hc']
    | none =>
      simp only [isBeyondHorizon, decide_eq_true_eq]
      constructor
      · intro hle
        have hend : s.history.Ended f := by
          by_contra hend
          obtain ⟨tr, hp⟩ := (hi.active_iff f).mpr ⟨bf, hbf, hend⟩
          exact absurd hle (not_le.mpr (htop.horizon_lt _ hp))
        obtain ⟨c, hc⟩ := hend.resolve_right fun hab => hrb (hrolled.mpr ⟨hab, he⟩)
        rcases hi.commit_kept f c i hc he with hsome | ⟨-, hlt⟩
        · rw [hct] at hsome
          cases hsome
        · exact ⟨c, hc, hlt t b hact⟩
      · rintro ⟨c, hc, -⟩
        exact hcov f c i hc he hct

/-- Transaction 2 begins while 1 is active; 1 commits after it. -/
def overlapping : History := [.commit 1 3, .begin 2 2, .entryAdded 1 7, .begin 1 1]

theorem isVisible_iff_overlapping : ∃ s, replay overlapping = some s ∧
    (s.resolver.isVisible 1 2 7 = true ↔ ∃ c, s.history.Committed 1 c ∧ c < 2) := by
  have hsome : (replay overlapping).isSome := by decide +kernel
  obtain ⟨s, hs⟩ := Option.isSome_iff_exists.mp hsome
  have hreach : Reaches step (fun s a => s.history.Allows a ∧ s.KeepsForgotten a) {} s :=
    reaches_replay (P := fun h a => h.Allows a ∧ ∀ t c, ¬ h.Committed t c) overlapping
      (fun s a _ hP => ⟨hP.1, fun _ _ _ _ _ _ _ t c _ hc => absurd hc (hP.2 t c)⟩)
      (by simp [overlapping, Along, Allows, Active, Began, Ended, Committed, Aborted]) hs
  refine ⟨s, hs, (isVisible_iff hreach).2 2 2 1 7 ?_ (by decide) ?_⟩
  all_goals rw [replay_history hs]
  all_goals simp [overlapping, Active, Began, Ended, Committed, Aborted, HasEntries]

/-- Transaction 1 is committed and forgotten; the end of 2 then takes the
horizon back to that of 3, which nobody ended before. -/
def horizonFallsBack : History :=
  [.commit 2 5, .begin 3 4, .begin 2 3, .commit 1 2, .entryAdded 1 7, .begin 1 1]

theorem committed_not_visible : ∃ s, Reaches step (fun s a => s.history.Allows a) {} s ∧
    s.history.Active 3 4 ∧ s.history.HasEntries 1 7 ∧ s.history.Committed 1 2 ∧
    s.resolver.isVisible 1 4 7 = false := by
  have hvis : (replay horizonFallsBack).map (fun s => s.resolver.isVisible 1 4 7) = some false := by
    decide +kernel
  obtain ⟨s, hs, hfalse⟩ := Option.map_eq_some_iff.mp hvis
  refine ⟨s, reaches_replay (P := Allows) horizonFallsBack (fun _ _ _ hP => hP) ?_ hs, ?_, ?_, ?_,
    hfalse⟩
  · simp [horizonFallsBack, Along, Allows, Active, Began, Ended, Committed, Aborted, or_imp,
      forall_and]
  all_goals rw [replay_history hs]
  all_goals simp [horizonFallsBack, Active, Began, Ended, Committed, Aborted, HasEntries]

-- ---------------------------------------------------------------------------
-- The horizon
-- ---------------------------------------------------------------------------

/-- When the oldest transaction ends, whoever was still running when the next
one began lies above the horizon of that one. -/
def KeepsOrder (s : Run) (a : Call) : Prop :=
  ∀ id tr n next others, a.ends? = some id → s.resolver.active = (id, tr) :: (n, next) :: others →
    ∀ t b, s.history.Began t b → ¬ s.history.EndedBefore t n → next.horizon < t

/-- Nothing up to the horizon concerns an active transaction. -/
def Sound (s : Run) : Prop :=
  ∀ t b, s.history.Began t b → t ≤ s.resolver.horizon →
    s.history.Ended t ∧ ∀ u b', s.history.Active u b' → s.history.EndedBefore t u

theorem sound_end {tail : TransactionImpact} {a : Call} {ct : Std.ExtTreeMap Tid Ts}
    (hi : Inv ⟨v, h⟩) (hso : Sound ⟨v, h⟩) (hkeep : KeepsOrder ⟨v, h⟩ a)
    (hends : a.ends? = some id)
    (hf : { v with tail := tail, commitTs := ct }.finish id = some v') {t : Tid} {b : Ts}
    (hb : h.Began t b) (hle : t ≤ v'.horizon) :
    Ended (a :: h) t ∧ ∀ u b', h.Active u b' → u ≠ id → h.EndedBefore t u := by
  obtain ⟨top, htop, -⟩ := hi.listed
  have hid : Ended (a :: h) id := by
    cases a with
    | commit id' c =>
      cases hends
      exact .inl ⟨c, List.mem_cons_self⟩
    | abort id' =>
      cases hends
      exact .inr List.mem_cons_self
    | begin id' b => cases hends
    | entryAdded id' i => cases hends
  rcases finish_cases hf with ⟨first, tr₁, rest, hact, hne, rfl⟩ | ⟨tr₁, done, hact, hdone, rfl⟩ |
    ⟨tr₁, n, next, others, done, hact, hdone, rfl⟩
  · obtain ⟨hend, hall⟩ := hso t b hb hle
    exact ⟨hend.cons, fun u b' hu _ => hall u b' hu⟩
  · have honly (u : Tid) (b' : Ts) (hu : h.Active u b') : u = id := by
      obtain ⟨tru, hp⟩ := (hi.active_iff u).mpr ⟨b', hu⟩
      rw [hact, List.mem_singleton] at hp
      exact (Prod.mk.inj hp).1
    refine ⟨?_, fun u b' hu hne => absurd (honly u b' hu) hne⟩
    by_cases hend : h.Ended t
    · exact hend.cons
    · exact honly t b ⟨hb, hend⟩ ▸ hid
  · have hbefore : h.EndedBefore t n := by
      by_contra hnot
      exact absurd hle (not_le.mpr (hkeep id tr₁ n next others hends hact t b hb hnot))
    refine ⟨hbefore.ended.cons, fun u b' hu hne => hbefore.younger hi.legal ?_ hu.1⟩
    obtain ⟨tru, hp⟩ := (hi.active_iff u).mpr ⟨b', hu⟩
    have hs := htop.sorted
    rw [hact, List.map_cons, List.map_cons, List.pairwise_cons, List.pairwise_cons] at hs
    rw [hact, List.mem_cons, List.mem_cons] at hp
    rcases hp with heq | heq | hp
    · exact absurd (Prod.mk.inj heq).1 hne
    · exact (Prod.mk.inj heq).1 ▸ le_rfl
    · exact (hs.2.1 u (List.mem_map_of_mem hp)).le

theorem sound_step {s s' : Run} {a : Call} (hi : Inv s) (hso : Sound s)
    (ha : s.history.Allows a) (hkeep : s.KeepsOrder a) (hs : s.step a = some s') : Sound s' := by
  obtain ⟨v', hv, rfl⟩ := Option.map_eq_some_iff.mp hs
  cases a with
  | begin id b₀ =>
    cases hv
    intro t b hb hle
    rcases List.mem_cons.mp hb with heq | hb
    · cases heq
      obtain ⟨top, htop, hlast⟩ := hi.listed
      have hlt : top < id := hlast.elim (fun h0 => h0 ▸ ha.1) fun ⟨b', hb'⟩ => ha.2.1 top b' hb'
      exact absurd (le_trans hle htop.horizon_le) (not_le.mpr hlt)
    · obtain ⟨hend, hall⟩ := hso t b hb hle
      refine ⟨hend.cons, fun u b' hu => ?_⟩
      rcases List.mem_cons.mp hu.1 with heq | hub
      · cases heq
        exact .inl ⟨⟨b₀, rfl⟩, hend⟩
      · exact .inr (hall u b' ⟨hub, fun he => hu.2 he.cons⟩)
  | entryAdded id i =>
    obtain ⟨tr, -, rfl⟩ := entryAdded_eq_some hv
    intro t b hb hle
    obtain ⟨hend, hall⟩ := hso t b (by simpa [Began] using hb) hle
    exact ⟨hend.cons, fun u b' hu =>
      .inr (hall u b' ⟨by simpa [Began] using hu.1, fun he => hu.2 he.cons⟩)⟩
  | commit id c =>
    obtain ⟨tr, tail, -, -, hf⟩ := commit_eq_some hv
    intro t b hb hle
    obtain ⟨hend, hall⟩ := sound_end hi hso hkeep rfl hf (by simpa [Began] using hb) hle
    refine ⟨hend, fun u b' hu => .inr (hall u b' ⟨by simpa [Began] using hu.1,
      fun he => hu.2 he.cons⟩ ?_)⟩
    rintro rfl
    exact hu.2 (.inl ⟨c, List.mem_cons_self⟩)
  | abort id =>
    obtain ⟨tr, tail, w, -, -, hf, rfl⟩ := abort_eq_some hv
    intro t b hb hle
    obtain ⟨hend, hall⟩ := sound_end hi hso hkeep rfl hf (by simpa [Began] using hb) hle
    refine ⟨hend, fun u b' hu => .inr (hall u b' ⟨by simpa [Began] using hu.1,
      fun he => hu.2 he.cons⟩ ?_)⟩
    rintro rfl
    exact hu.2 (.inr List.mem_cons_self)

/-- Transaction 2 begins after 1 has committed. -/
def serial : History := [.begin 2 3, .commit 1 2, .entryAdded 1 7, .begin 1 1]

theorem keepsOrder_of_alone {s : Run} {a : Call} (hi : Inv s)
    (halone : ∀ t u b b', s.history.Active t b → s.history.Active u b' → t = u) :
    s.KeepsOrder a := by
  intro id tr n next others _ hact
  obtain ⟨top, htop, -⟩ := hi.listed
  have hs := htop.sorted
  rw [hact, List.map_cons, List.map_cons, List.pairwise_cons] at hs
  obtain ⟨b, hb⟩ := (hi.active_iff id).mp ⟨tr, by simp [hact]⟩
  obtain ⟨b', hb'⟩ := (hi.active_iff n).mp ⟨next, by simp [hact]⟩
  exact absurd (halone id n b b' hb hb') (hs.1 n (by simp)).ne

/-- Transaction 1 outlives the begin of 3, but 2, which is younger, ended before
that; the end of 1 moves the horizon over 1. -/
def overtaken : History := [.commit 1 5, .begin 3 4, .commit 2 3, .begin 2 2, .begin 1 1]

end

end Run

end Loxim.Indexes
