import Mathlib.Data.List.Basic
import Mathlib.Logic.Relation
import Loxim.Indexes.Cleaner

/-!
# The entry sieve

A query feeds the entries it meets to a sieve, which keeps what its transaction
may see, takes entries of one object that follow each other together, and
answers with the objects whose latest entry is an addition.
-/

namespace Loxim.Indexes

structure TransactionID where
  id : Tid
  timeStamp : Ts
  deriving DecidableEq, Repr

/-- The members a constructor leaves unset hold what was in the memory. -/
structure EntrySieve where
  result : List Lid := []
  started : Bool := false
  currentLid : Lid
  latestTimestamp : Ts
  removed : Bool
  deriving DecidableEq, Repr

namespace EntrySieve

def isEntryVisible (v : VisibilityResolver) (index : Lid) (tid : TransactionID) (e : RootEntry) :
    Bool :=
  if e.modyfierTransactionId = Tid.rolledBack then false
  else if e.modyfierTransactionId = tid.id then true
  else if ¬ e.addTime ≤ tid.timeStamp then false
  -- `!entry->delTime == STORE_IXR_NULLVALUE` compares a truth value with -1
  else if (if e.delTime = 0 then 1 else 0) = nullValue then false
  else if e.modyfierTransactionId = nullValue then true
  else v.isVisible e.modyfierTransactionId tid.timeStamp index

def stateReset (s : EntrySieve) (lid : Lid) : EntrySieve :=
  { s with currentLid := lid, latestTimestamp := 0 }

def pushLatest (s : EntrySieve) : EntrySieve :=
  if s.removed then s else { s with result := s.result ++ [s.currentLid] }

def noteAdd (s : EntrySieve) (addTime : Ts) : EntrySieve :=
  if s.latestTimestamp < addTime then { s with latestTimestamp := addTime, removed := false } else s

def noteDel (s : EntrySieve) (delTime : Ts) : EntrySieve :=
  if s.latestTimestamp < delTime then { s with latestTimestamp := delTime, removed := true } else s

def start (s : EntrySieve) (lid : Lid) : EntrySieve :=
  if s.started then s else { s with started := true }.stateReset lid

def enter (s : EntrySieve) (lid : Lid) : EntrySieve :=
  if s.currentLid ≠ lid then s.pushLatest.stateReset lid else s

/-- What `add` does with a visible entry. -/
def put (s : EntrySieve) (lid : Lid) (addTime delTime : Ts) : EntrySieve :=
  (((s.start lid).enter lid).noteAdd addTime).noteDel delTime

def add (v : VisibilityResolver) (index : Lid) (tid : TransactionID) (s : EntrySieve)
    (e : RootEntry) : EntrySieve :=
  if isEntryVisible v index tid e then s.put e.logicalID e.addTime e.delTime else s

def getResult (s : EntrySieve) : List Lid :=
  if s.started then s.pushLatest.result else s.result

/-- The answer of a new sieve to the entries of a query. -/
def sieve {K : Type} (v : VisibilityResolver) (index : Lid) (tid : TransactionID) (s : EntrySieve)
    (items : List (Item K)) : List Lid :=
  ((items.map Item.entry).foldl (add v index tid) s).getResult

end EntrySieve

-- ---------------------------------------------------------------------------
-- What one transaction sees
-- ---------------------------------------------------------------------------

/-- A visible entry without the transaction that wrote it. -/
structure Sighting (K : Type) where
  key : K
  lid : Lid
  addTime : Ts
  delTime : Ts
  deriving DecidableEq, Repr

def Item.sighting {K : Type} (e : Item K) : Sighting K :=
  ⟨e.key, e.entry.logicalID, e.entry.addTime, e.entry.delTime⟩

namespace Sighting

variable {K : Type}

def isAdd (r : Sighting K) : Bool := 0 < r.addTime

def stamp (r : Sighting K) : Ts := if r.isAdd then r.addTime else r.delTime

/-- An addition or a deletion, never both. -/
def Proper (r : Sighting K) : Prop :=
  (0 < r.addTime ∧ r.delTime = nullValue) ∨ (r.addTime = nullValue ∧ 0 < r.delTime)

theorem Proper.stamp_pos {r : Sighting K} (h : r.Proper) : 0 < r.stamp := by
  rcases h with ⟨ha, hd⟩ | ⟨ha, hd⟩
  · simp [stamp, isAdd, ha]
  · simpa [stamp, isAdd, ha, nullValue] using hd

variable [DecidableEq K]

/-- The rows of one object under one key, newest first. -/
def group (k : K) (x : Lid) (rows : List (Sighting K)) : List (Sighting K) :=
  rows.filter fun r => r.key = k ∧ r.lid = x

/-- From the oldest on: added, deleted, added again and so on. -/
def Alternates : List (Sighting K) → Prop
  | [] => True
  | [a] => a.isAdd = true
  | a :: b :: l => a.isAdd = !b.isAdd ∧ Alternates (b :: l)

/-- The newest row of the object under the key is an addition. -/
def LiveAt (rows : List (Sighting K)) (k : K) (x : Lid) : Prop :=
  ∃ a, (group k x rows).head? = some a ∧ a.isAdd = true

def Live (rows : List (Sighting K)) (x : Lid) : Prop := ∃ k, LiveAt rows k x

/-- The rows are a history of every object: newest first under each key, and
alive under one key at most. -/
structure Coherent (rows : List (Sighting K)) : Prop where
  proper : ∀ r ∈ rows, r.Proper
  grouped : ∀ a b c, [a, b, c].Sublist rows → a.key = c.key → a.lid = c.lid →
    b.key = a.key ∧ b.lid = a.lid
  newer : rows.Pairwise fun a b => a.key = b.key → a.lid = b.lid → b.stamp < a.stamp
  alternates : ∀ k x, Alternates (group k x rows)
  alive : ∀ k x a, (group k x rows).head? = some a → a.isAdd = true →
    ∀ b ∈ rows, b.lid = x → b.key ≠ k → b.stamp < a.stamp

theorem group_append (p q : List (Sighting K)) :
    group k x (p ++ q) = group k x p ++ group k x q := List.filter_append ..

theorem group_cons {r : Sighting K} (hkey : r.key = k) (hlid : r.lid = x) (q : List (Sighting K)) :
    group k x (r :: q) = r :: group k x q := by
  simp [group, hkey, hlid]

theorem group_snoc (done : List (Sighting K)) (r : Sighting K) :
    group k x (done ++ [r]) = group k x done ++ if r.key = k ∧ r.lid = x then [r] else [] := by
  simp [group, List.filter_append, List.filter_singleton]

theorem head?_group_snoc {done : List (Sighting K)} (h : (group k x done).head? = some a) (r : Sighting K) :
    (group k x (done ++ [r])).head? = some a := by
  rw [group_snoc, List.head?_append, h]
  rfl

theorem head?_group_append {done : List (Sighting K)} (h : (group k x done).head? = some a)
    (todo : List (Sighting K)) : (group k x (done ++ todo)).head? = some a := by
  rw [group_append, List.head?_append, h]
  rfl

theorem mem_group {rows : List (Sighting K)} : a ∈ group k x rows ↔ a ∈ rows ∧ a.key = k ∧ a.lid = x := by
  simp [group]

theorem live_snoc {done : List (Sighting K)} {r : Sighting K} :
    Live (done ++ [r]) x ↔
      Live done x ∨ (group r.key r.lid done = [] ∧ r.isAdd = true ∧ x = r.lid) := by
  constructor
  · rintro ⟨k, a, hhead, ha⟩
    rw [group_snoc, List.head?_append, Option.or_eq_some_iff] at hhead
    rcases hhead with hhead | ⟨hnil, hhead⟩
    · exact .inl ⟨k, a, hhead, ha⟩
    · split at hhead
      · rename_i hr
        cases hhead
        obtain ⟨rfl, rfl⟩ := hr
        exact .inr ⟨List.head?_eq_none_iff.mp hnil, ha, rfl⟩
      · cases hhead
  · rintro (⟨k, a, hhead, ha⟩ | ⟨hnil, ha, rfl⟩)
    · exact ⟨k, a, head?_group_snoc hhead r, ha⟩
    · exact ⟨r.key, r, by simp [group_snoc, hnil], ha⟩

/-- A group that has begun goes on directly behind its last row. -/
theorem Coherent.last_same {p todo : List (Sighting K)} {l r : Sighting K}
    (h : Coherent (p ++ l :: r :: todo)) (hg : group r.key r.lid (p ++ [l]) ≠ []) :
    l.key = r.key ∧ l.lid = r.lid := by
  obtain ⟨a, ha⟩ := List.exists_mem_of_ne_nil _ hg
  obtain ⟨hmem, hkey, hlid⟩ := mem_group.mp ha
  rcases List.mem_append.mp hmem with hp | hl
  · have hsub : [a, l, r].Sublist (p ++ l :: r :: todo) := by
      have ha' : [a].Sublist p := List.singleton_sublist.mpr hp
      have hlr : [l, r].Sublist (l :: r :: todo) :=
        List.Sublist.append (List.Sublist.refl [l, r]) (List.nil_sublist todo)
      exact List.Sublist.append ha' hlr
    obtain ⟨hk, hx⟩ := h.grouped a l r hsub hkey hlid
    exact ⟨hk.trans hkey, hx.trans hlid⟩
  · obtain rfl := List.mem_singleton.mp hl
    exact ⟨hkey, hlid⟩

end Sighting

-- ---------------------------------------------------------------------------
-- The answer
-- ---------------------------------------------------------------------------

namespace EntrySieve

variable {K : Type} {s : EntrySieve} {r : Sighting K}

def putSighting (s : EntrySieve) (r : Sighting K) : EntrySieve := s.put r.lid r.addTime r.delTime

/-- The answer to the rows a transaction sees. -/
def answer (s : EntrySieve) (rows : List (Sighting K)) : List Lid :=
  (rows.foldl putSighting s).getResult

def Fresh (s : EntrySieve) : Prop := s.result = [] ∧ s.started = false

theorem note_row (hr : r.Proper) (hs : 0 ≤ s.latestTimestamp) :
    (s.noteAdd r.addTime).noteDel r.delTime =
      if s.latestTimestamp < r.stamp then
        { s with latestTimestamp := r.stamp, removed := !r.isAdd } else s := by
  rcases hr with ⟨ha, hd⟩ | ⟨ha, hd⟩
  · have hnull (l : Ts) (hl : 0 ≤ l) : ¬ l < r.delTime := by
      rw [hd]
      exact not_lt.mpr (le_trans (by decide) hl)
    have hadd : r.isAdd = true := by simpa [Sighting.isAdd] using ha
    simp only [noteAdd, Sighting.stamp, hadd, if_true, Bool.not_true]
    split
    · exact if_neg (hnull _ ha.le)
    · exact if_neg (hnull _ hs)
  · have hdel : r.isAdd = false := by simp [Sighting.isAdd, ha, nullValue]
    have hnull : ¬ s.latestTimestamp < r.addTime := by
      rw [ha]
      exact not_lt.mpr (le_trans (by decide) hs)
    simp only [noteAdd, if_neg hnull, noteDel, Sighting.stamp, hdel, Bool.not_false]
    rfl

theorem putSighting_fresh (hs : s.Fresh) (hr : r.Proper) :
    s.putSighting r = ⟨[], true, r.lid, r.stamp, !r.isAdd⟩ := by
  obtain ⟨hres, hst⟩ := hs
  have hpos := hr.stamp_pos
  unfold putSighting put
  rw [note_row hr (by simp [start, enter, hst, stateReset])]
  simp [start, enter, hst, stateReset, hpos, hres]

theorem putSighting_other (hs : s.started = true) (hne : s.currentLid ≠ r.lid) (hr : r.Proper) :
    s.putSighting r = ⟨s.pushLatest.result, true, r.lid, r.stamp, !r.isAdd⟩ := by
  have hpos := hr.stamp_pos
  have hstart : s.pushLatest.started = true := by
    unfold pushLatest
    split
    · exact hs
    · exact hs
  unfold putSighting put
  rw [note_row hr (by simp [start, enter, hs, hne, stateReset])]
  simp [start, enter, hs, hne, stateReset, hpos, hstart]

theorem putSighting_same (hs : s.started = true) (heq : s.currentLid = r.lid) (hr : r.Proper)
    (hl : 0 ≤ s.latestTimestamp) :
    s.putSighting r = if s.latestTimestamp < r.stamp then
      { s with latestTimestamp := r.stamp, removed := !r.isAdd } else s := by
  have hsame : (s.start r.lid).enter r.lid = s := by
    simp [start, enter, hs, heq]
  unfold putSighting put
  rw [hsame, note_row hr hl]

section

variable [DecidableEq K]

/-- The state behind `done`, whose last row is `l`. Some row of the object `l`
belongs to gave the latest time; it is the newest under its key. -/
structure Read (done : List (Sighting K)) (l : Sighting K) (s : EntrySieve) : Prop where
  started : s.started = true
  lid : s.currentLid = l.lid
  le : l.stamp ≤ s.latestTimestamp
  winner : ∃ w ∈ done, w.lid = l.lid ∧ w.stamp = s.latestTimestamp ∧ s.removed = !w.isAdd ∧
    (Sighting.group w.key w.lid done).head? = some w
  live : ∀ x, (x ∈ s.result ∨ s.removed = false ∧ x = s.currentLid) ↔ Sighting.Live done x

theorem Read.first (hs : s.Fresh) (hr : r.Proper) : Read [r] r (s.putSighting r) := by
  rw [putSighting_fresh hs hr]
  refine ⟨rfl, rfl, le_rfl, ⟨r, by simp, rfl, rfl, rfl, by simp [Sighting.group]⟩, fun x => ?_⟩
  have hlive : Sighting.Live ([] ++ [r]) x ↔ _ := Sighting.live_snoc
  rw [List.nil_append] at hlive
  rw [hlive]
  simp [Sighting.Live, Sighting.LiveAt, Sighting.group]

theorem Read.latest_nonneg {done : List (Sighting K)} {l : Sighting K} (h : Read done l s)
    (hl : l.Proper) : 0 ≤ s.latestTimestamp :=
  le_trans hl.stamp_pos.le h.le

/-- The row goes on with the group of the last one: it is older. -/
theorem Read.older {p todo : List (Sighting K)} {l : Sighting K} (h : Read (p ++ [l]) l s)
    (hc : Sighting.Coherent (p ++ l :: r :: todo)) (hg : Sighting.group r.key r.lid (p ++ [l]) ≠ []) :
    Read (p ++ [l] ++ [r]) r (s.putSighting r) := by
  obtain ⟨hkey, hlid⟩ := hc.last_same hg
  have hlt : r.stamp < l.stamp := by
    have hpair := hc.newer.sublist (List.sublist_append_right p (l :: r :: todo))
    exact List.rel_of_pairwise_cons hpair (by simp) hkey hlid
  have hle : r.stamp ≤ s.latestTimestamp := le_trans hlt.le h.le
  obtain ⟨w, hw, hwl, hws, hwr, hhead⟩ := h.winner
  rw [putSighting_same h.started (h.lid.trans hlid) (hc.proper r (by simp))
    (h.latest_nonneg (hc.proper l (by simp))), if_neg (not_lt.mpr hle)]
  refine ⟨h.started, h.lid.trans hlid, hle, ⟨w, List.mem_append_left _ hw, hwl.trans hlid, hws, hwr,
    Sighting.head?_group_snoc hhead r⟩, fun x => ?_⟩
  have hlive : Sighting.Live (p ++ [l] ++ [r]) x ↔ _ := Sighting.live_snoc
  rw [h.live x, hlive]
  refine (or_iff_left ?_).symm
  exact fun hnew => hg hnew.1

/-- The first row of a group. Where the object stays the same, it is the newest
of all if it is an addition, and newer than no living one if it is not. -/
theorem Read.newGroup {p todo : List (Sighting K)} {l : Sighting K} (h : Read (p ++ [l]) l s)
    (hc : Sighting.Coherent (p ++ l :: r :: todo)) (hg : Sighting.group r.key r.lid (p ++ [l]) = []) :
    Read (p ++ [l] ++ [r]) r (s.putSighting r) := by
  have hr := hc.proper r (by simp)
  have hself : (Sighting.group r.key r.lid (p ++ [l] ++ [r])).head? = some r := by
    rw [Sighting.group_snoc, hg]
    simp
  have hrows : p ++ l :: r :: todo = p ++ [l] ++ [r] ++ todo := by simp
  have hwinner : ∃ w ∈ p ++ [l] ++ [r], w.lid = r.lid ∧ w.stamp = r.stamp ∧ (!r.isAdd) = !w.isAdd ∧
      (Sighting.group w.key w.lid (p ++ [l] ++ [r])).head? = some w :=
    ⟨r, by simp, rfl, rfl, rfl, hself⟩
  by_cases hcur : s.currentLid = r.lid
  · obtain ⟨w, hw, hwl, hws, hwr, hhead⟩ := h.winner
    have hwlid : w.lid = r.lid := hwl.trans (h.lid.symm.trans hcur)
    have hwkey : w.key ≠ r.key := fun hk =>
      List.not_mem_nil (hg ▸ Sighting.mem_group.mpr ⟨hw, hk, hwlid⟩)
    rw [putSighting_same h.started hcur hr (h.latest_nonneg (hc.proper l (by simp)))]
    cases hadd : r.isAdd with
    | true =>
      have hnewest : w.stamp < r.stamp := by
        refine hc.alive r.key r.lid r ?_ hadd w ?_ hwlid hwkey
        · rw [hrows]
          exact Sighting.head?_group_append hself todo
        · rw [hrows]
          exact List.mem_append_left _ (List.mem_append_left _ hw)
      rw [if_pos (hws ▸ hnewest)]
      refine ⟨h.started, hcur, le_rfl, by simpa [hadd] using hwinner, fun x => ?_⟩
      rw [Sighting.live_snoc, ← h.live x]
      by_cases hx : x = r.lid
      · simp [hx, hcur, hg, hadd]
      · simp [hx, hcur]
    | false =>
      have hlive (x : Lid) : Sighting.Live (p ++ [l] ++ [r]) x ↔ Sighting.Live (p ++ [l]) x := by
        rw [Sighting.live_snoc]
        simp [hadd]
      split
      · rename_i hlt
        have hremoved : s.removed = true := by
          cases hwa : w.isAdd with
          | false => simp [hwr, hwa]
          | true =>
            have hold : r.stamp < w.stamp := by
              refine hc.alive w.key w.lid w ?_ hwa r (by simp) hwlid.symm (Ne.symm hwkey)
              rw [hrows, List.append_assoc]
              exact Sighting.head?_group_append hhead _
            exact absurd (hws ▸ hold) (lt_asymm hlt)
        refine ⟨h.started, hcur, le_rfl, by simpa [hadd] using hwinner, fun x => ?_⟩
        rw [hlive, ← h.live x]
        simp [hremoved]
      · rename_i hle
        refine ⟨h.started, hcur, not_lt.mp hle, ⟨w, List.mem_append_left _ hw, hwlid, hws, hwr,
          Sighting.head?_group_snoc hhead r⟩, fun x => ?_⟩
        rw [hlive, h.live x]
  · rw [putSighting_other h.started hcur hr]
    refine ⟨rfl, rfl, le_rfl, hwinner, fun x => ?_⟩
    rw [Sighting.live_snoc, ← h.live x]
    have hpush : x ∈ s.pushLatest.result ↔ x ∈ s.result ∨ s.removed = false ∧ x = s.currentLid := by
      unfold pushLatest
      cases s.removed with
      | true => simp
      | false => simp
    rw [hpush]
    simp [hg]

theorem Read.all {done todo : List (Sighting K)} {l : Sighting K} (h : Read (done ++ [l]) l s)
    (hc : Sighting.Coherent (done ++ l :: todo)) :
    ∃ l', Read (done ++ l :: todo) l' (todo.foldl putSighting s) := by
  induction todo generalizing done l s with
  | nil => exact ⟨l, h⟩
  | cons r todo ih =>
    have hnext : Read (done ++ [l] ++ [r]) r (s.putSighting r) := by
      by_cases hg : Sighting.group r.key r.lid (done ++ [l]) = []
      · exact h.newGroup hc hg
      · exact h.older hc hg
    have hrows : done ++ l :: r :: todo = done ++ [l] ++ r :: todo := by simp
    rw [hrows] at hc ⊢
    exact ih hnext hc

/-- A coherent sequence of rows is answered with the living objects. -/
theorem mem_answer {rows : List (Sighting K)} (hs : s.Fresh) (hc : Sighting.Coherent rows) (x : Lid) :
    x ∈ s.answer rows ↔ Sighting.Live rows x := by
  cases rows with
  | nil => simp [answer, getResult, hs.1, hs.2, Sighting.Live, Sighting.LiveAt, Sighting.group]
  | cons r rows =>
    have hfirst : Read ([] ++ [r]) r (s.putSighting r) := Read.first hs (hc.proper r (by simp))
    obtain ⟨l, h⟩ := hfirst.all hc
    rw [answer, List.foldl_cons, getResult, if_pos h.started, ← List.nil_append (r :: rows),
      ← h.live x]
    unfold pushLatest
    cases (rows.foldl putSighting (s.putSighting r)).removed with
    | true => simp
    | false => simp

end

end EntrySieve

-- ---------------------------------------------------------------------------
-- Taking out pairs
-- ---------------------------------------------------------------------------

namespace Sighting

variable {K : Type} {rows rows' : List (Sighting K)}

/-- Two rows of one group that follow each other are taken out: a deletion with
what it deletes, some pair below a newer row, or a pair of an object that has no
other key. -/
inductive Thins : List (Sighting K) → List (Sighting K) → Prop
  | pair {a b : Sighting K} {p q : List (Sighting K)} (hkey : a.key = b.key) (hlid : a.lid = b.lid)
    (htop : a.isAdd = false ∨ (∃ c ∈ p, c.key = a.key ∧ c.lid = a.lid) ∨
      ∀ c ∈ p ++ a :: b :: q, c.lid = a.lid → c.key = a.key) :
    Thins (p ++ a :: b :: q) (p ++ q)

theorem Alternates.tail {l : List (Sighting K)} (h : Alternates (a :: l)) : Alternates l := by
  cases l with
  | nil => trivial
  | cons b l => exact h.2

theorem Alternates.thin {g₁ g₂ : List (Sighting K)} (h : Alternates (g₁ ++ a :: b :: g₂)) :
    Alternates (g₁ ++ g₂) := by
  induction g₁ with
  | nil => exact h.tail.tail
  | cons c g₁ ih =>
    cases g₁ with
    | nil =>
      obtain ⟨hca, hab, hg⟩ := h
      have hcb : c.isAdd = b.isAdd := by rw [hca, hab, Bool.not_not]
      cases g₂ with
      | nil => exact hcb.trans hg
      | cons d g₂ => exact ⟨hcb.trans hg.1, hg.2⟩
    | cons d g₁ => exact ⟨h.1, ih h.2⟩

/-- Without the first two rows the newest row is of the same kind. -/
theorem Alternates.head_thin {g : List (Sighting K)} (h : Alternates (a :: b :: g)) :
    (∃ w, g.head? = some w ∧ w.isAdd = true) ↔ a.isAdd = true := by
  obtain ⟨hab, hg⟩ := h
  cases g with
  | nil =>
    have hb : b.isAdd = true := hg
    simp [hab, hb]
  | cons d g => simp [hab, hg.1]

theorem Thins.sublist (h : Thins rows rows') : rows'.Sublist rows := by
  obtain ⟨-, -, -⟩ := h
  exact List.Sublist.append (.refl _) ((List.sublist_cons_self _ _).trans (List.sublist_cons_self _ _))

variable [DecidableEq K]

theorem group_pair {a b : Sighting K} (hkey : a.key = b.key) (hlid : a.lid = b.lid)
    (p q : List (Sighting K)) :
    group k x (p ++ a :: b :: q) =
      group k x p ++ (if a.key = k ∧ a.lid = x then [a, b] else []) ++ group k x q := by
  simp only [group, List.filter_append, List.filter_cons, ← hkey, ← hlid, decide_eq_true_eq]
  split
  · simp
  · simp

theorem Thins.liveAt (h : Thins rows rows') (hc : Coherent rows) (k : K) (x : Lid) :
    LiveAt rows k x ↔ LiveAt rows' k x := by
  obtain @⟨a, b, p, q, hkey, hlid, -⟩ := h
  have halt := hc.alternates k x
  unfold LiveAt
  rw [group_pair hkey hlid] at halt ⊢
  rw [group_append]
  by_cases hax : a.key = k ∧ a.lid = x
  · rw [if_pos hax] at halt ⊢
    cases hg : group k x p with
    | nil =>
      rw [hg] at halt
      simp only [List.nil_append, List.cons_append] at halt ⊢
      rw [halt.head_thin]
      simp
    | cons c g => simp
  · rw [if_neg hax, List.append_nil]

theorem Thins.coherent (h : Thins rows rows') (hc : Coherent rows) : Coherent rows' := by
  have hsub := h.sublist
  obtain @⟨a, b, p, q, hkey, hlid, htop⟩ := h
  refine ⟨fun r hr => hc.proper r (hsub.subset hr), fun a b c hs => hc.grouped a b c (hs.trans hsub),
    hc.newer.sublist hsub, fun k x => ?_, fun k x w hw hadd r hr hrx hrk => ?_⟩
  · have halt := hc.alternates k x
    rw [group_pair hkey hlid] at halt
    rw [group_append]
    split at halt
    · simp only [List.append_assoc, List.cons_append, List.nil_append] at halt
      exact halt.thin
    · simpa using halt
  · refine hc.alive k x w ?_ hadd r (hsub.subset hr) hrx hrk
    have halt := hc.alternates k x
    rw [group_append] at hw
    rw [group_pair hkey hlid] at halt ⊢
    by_cases hax : a.key = k ∧ a.lid = x
    · rw [if_pos hax] at halt ⊢
      cases hg : group k x p with
      | nil =>
        -- the deletion on top went, so what is left has a deletion on top too
        rw [hg] at halt hw
        simp only [List.nil_append, List.cons_append] at halt hw
        have hadd' := halt.head_thin.mp ⟨w, hw, hadd⟩
        rcases htop with hdel | ⟨c, hcp, hck, hcx⟩ | hone
        · rw [hdel] at hadd'
          cases hadd'
        · have hmem : c ∈ group k x p := mem_group.mpr ⟨hcp, hck.trans hax.1, hcx.trans hax.2⟩
          rw [hg] at hmem
          cases hmem
        · exact absurd ((hone r (hsub.subset hr) (hrx.trans hax.2.symm)).trans hax.1) hrk
      | cons c g =>
        rw [hg] at hw
        simpa using hw
    · rw [if_neg hax, List.append_nil]
      exact hw

theorem Coherent.thins (hc : Coherent rows) (h : Relation.ReflTransGen Thins rows rows') :
    Coherent rows' ∧ ∀ k x, LiveAt rows k x ↔ LiveAt rows' k x := by
  induction h with
  | refl => exact ⟨hc, fun _ _ => Iff.rfl⟩
  | tail _ hs ih => exact ⟨hs.coherent ih.1, fun k x => (ih.2 k x).trans (hs.liveAt ih.1 k x)⟩

-- ---------------------------------------------------------------------------
-- The rows of a key interval
-- ---------------------------------------------------------------------------

theorem group_filter (P : K → Bool) (rows : List (Sighting K)) :
    group k x (rows.filter fun r => P r.key) = if P k then group k x rows else [] := by
  unfold group
  rw [List.filter_filter]
  split
  · rename_i hk
    refine List.filter_congr fun r _ => ?_
    by_cases hr : r.key = k ∧ r.lid = x
    · simp [hr, hk]
    · simp [hr]
  · rename_i hk
    rw [List.filter_eq_nil_iff]
    intro r _ hr
    simp only [Bool.and_eq_true, decide_eq_true_eq] at hr
    exact hk (hr.1.1 ▸ hr.2)

theorem Coherent.filter (hc : Coherent rows) (P : K → Bool) :
    Coherent (rows.filter fun r => P r.key) := by
  have hsub : (rows.filter fun r => P r.key).Sublist rows := List.filter_sublist
  refine ⟨fun r hr => hc.proper r (hsub.subset hr), fun a b c hs => hc.grouped a b c (hs.trans hsub),
    hc.newer.sublist hsub, fun k x => ?_, fun k x w hw hadd r hr => ?_⟩
  · rw [group_filter]
    split
    · exact hc.alternates k x
    · trivial
  · rw [group_filter] at hw
    split at hw
    · exact hc.alive k x w hw hadd r (hsub.subset hr)
    · cases hw

theorem liveAt_filter (P : K → Bool) :
    LiveAt (rows.filter fun r => P r.key) k x ↔ P k = true ∧ LiveAt rows k x := by
  unfold LiveAt
  rw [group_filter]
  cases P k with
  | true => simp
  | false => simp

/-- No query tells the rows from what is left of them. -/
theorem Coherent.answer_thins {s : EntrySieve} (hc : Coherent rows) (hs : s.Fresh)
    (h : Relation.ReflTransGen Thins rows rows') (P : K → Bool) (x : Lid) :
    x ∈ s.answer (rows'.filter fun r => P r.key) ↔ x ∈ s.answer (rows.filter fun r => P r.key) := by
  obtain ⟨hc', hlive⟩ := hc.thins h
  rw [EntrySieve.mem_answer hs (hc'.filter P), EntrySieve.mem_answer hs (hc.filter P)]
  exact exists_congr fun k => by rw [liveAt_filter, liveAt_filter, hlive]

end Sighting

end Loxim.Indexes
