import Mathlib.Logic.Relation
import Loxim.Indexes.Cleaner
import Loxim.Indexes.TransactionList

/-!
# What one cleaning does

A cleaning is a sequence of moves: it takes out an entry that was rolled back,
marks an entry beyond the horizon, or takes out two entries of one object that
follow each other. It does nothing else only if the leaf is `Safe`: the walk
keeps a position and two flags for an object, and neither follows the key, the
entries it jumps over or the pairs it has already taken out.
-/

namespace Loxim.Indexes.Cleaner

variable {K : Type}

-- ---------------------------------------------------------------------------
-- Moves
-- ---------------------------------------------------------------------------

/-- An entry of object `x` beyond the horizon. -/
def mine (v : VisibilityResolver) (index : Lid) (x : Lid) (e : Item K) : Bool :=
  e.entry.logicalID = x ∧ fate v index e.entry.modyfierTransactionId = .beyond

/-- One change of a leaf. `v` is the resolver the cleaning began with, `R` what
holds of the keys of two entries of an object that are taken out. -/
inductive Move (R : Lid → K → K → Prop) (v : VisibilityResolver) (index : Lid) :
    VisibilityResolver × List (Item K) → VisibilityResolver × List (Item K) → Prop
  | remove {w w' : VisibilityResolver} {e : Item K} {p q : List (Item K)}
    (hfate : fate v index e.entry.modyfierTransactionId = .remove)
    (hdrop : w.entryDropped e.entry.modyfierTransactionId index .rolledBack = some w') :
    Move R v index (w, p ++ e :: q) (w', p ++ q)
  | stamp {w : VisibilityResolver} {e : Item K} {p q : List (Item K)}
    (hfate : fate v index e.entry.modyfierTransactionId = .beyond) :
    Move R v index (w, p ++ e :: q) (w, p ++ Cleaner.stamp e :: q)
  | pair {w : VisibilityResolver} {a b : Item K} {p q : List (Item K)}
    (ha : mine v index x a = true) (hb : mine v index x b = true) (hkeys : R x a.key b.key) :
    Move R v index (w, p ++ a :: b :: q) (w, p ++ q)

abbrev Moves (R : Lid → K → K → Prop) (v : VisibilityResolver) (index : Lid) :=
  Relation.ReflTransGen (Move R v index)

-- ---------------------------------------------------------------------------
-- The resolver during a cleaning
-- ---------------------------------------------------------------------------

/-- Transaction ids are positive and so are the counts. -/
structure Sane (v : VisibilityResolver) : Prop where
  horizon : 0 ≤ v.horizon
  rolled : ∀ i t n, VisibilityResolver.rolledCount v.rolledBack i t = some n → 0 < t ∧ 0 < n

def countOf (t : Tid) (l : List (Item K)) : Nat :=
  l.countP fun e => e.entry.modyfierTransactionId = t

/-- The resolver `w` differs from `v` only in the counts of the index, and they
still cover the entries of the leaf. -/
structure Agrees (v : VisibilityResolver) (index : Lid) (w : VisibilityResolver)
    (l : List (Item K)) : Prop where
  sane : Sane w
  horizon : w.horizon = v.horizon
  commitTs : w.commitTs = v.commitTs
  active : w.active = v.active
  tail : w.tail = v.tail
  others : ∀ i t, i ≠ index → VisibilityResolver.rolledCount w.rolledBack i t =
    VisibilityResolver.rolledCount v.rolledBack i t
  rolled : ∀ t, (VisibilityResolver.rolledCount w.rolledBack index t).isSome →
    (VisibilityResolver.rolledCount v.rolledBack index t).isSome
  covers : ∀ t, (VisibilityResolver.rolledCount v.rolledBack index t).isSome →
    countOf t l ≤ (VisibilityResolver.rolledCount w.rolledBack index t).getD 0

open VisibilityResolver

section

variable {v w w' : VisibilityResolver} {index : Lid} {l l' : List (Item K)} {e : Item K}

theorem Agrees.isRolledBack (h : Agrees v index w l) (he : e ∈ l) :
    w.isRolledBack e.entry.modyfierTransactionId index =
      v.isRolledBack e.entry.modyfierTransactionId index := by
  generalize ht : e.entry.modyfierTransactionId = t
  by_cases hr : t = Tid.rolledBack
  · simp [VisibilityResolver.isRolledBack, hr]
  · rw [Bool.eq_iff_iff, isRolledBack_iff hr, isRolledBack_iff hr]
    refine ⟨h.rolled t, fun hs => ?_⟩
    have hpos : 0 < countOf t l := List.countP_pos_iff.mpr ⟨e, he, by simpa using ht⟩
    have hle := h.covers t hs
    cases hw : rolledCount w.rolledBack index t with
    | none =>
      rw [hw] at hle
      exact absurd hle (not_le.mpr hpos)
    | some n => rfl

theorem Agrees.fate (h : Agrees v index w l) (he : e ∈ l) :
    fate w index e.entry.modyfierTransactionId = fate v index e.entry.modyfierTransactionId := by
  unfold Cleaner.fate
  rw [h.isRolledBack he, isBeyondHorizon, isBeyondHorizon, h.horizon]

theorem Agrees.mono (h : Agrees v index w l) (hc : ∀ t, (rolledCount v.rolledBack index t).isSome →
    countOf t l' ≤ countOf t l) : Agrees v index w l' :=
  { h with covers := fun t ht => le_trans (hc t ht) (h.covers t ht) }

theorem fate_rolledBack : fate v index Tid.rolledBack = .remove := by
  simp [Cleaner.fate, VisibilityResolver.isRolledBack]

theorem fate_beyondHorizon (hv : Sane v) : fate v index Tid.beyondHorizon = .beyond := by
  have hnot : v.isRolledBack Tid.beyondHorizon index = false := by
    rw [Bool.eq_false_iff, ne_eq, isRolledBack_iff (by decide), Option.isSome_iff_exists]
    rintro ⟨n, hn⟩
    exact absurd (hv.rolled index _ n hn).1 (by decide)
  have hle : v.isBeyondHorizon Tid.beyondHorizon = true :=
    decide_eq_true (le_trans (by decide : Tid.beyondHorizon ≤ 0) hv.horizon)
  simp [Cleaner.fate, hnot, hle]

/-- An entry that was rolled back can be taken out, and the counts go on
covering what is left. -/
theorem Agrees.entryDropped {p q : List (Item K)} (h : Agrees v index w (p ++ e :: q))
    (hfate : Cleaner.fate v index e.entry.modyfierTransactionId = .remove) :
    ∃ w', w.entryDropped e.entry.modyfierTransactionId index .rolledBack = some w' ∧
      Agrees v index w' (p ++ q) := by
  have hcount (t : Tid) : countOf t (p ++ e :: q) =
      countOf t (p ++ q) + if e.entry.modyfierTransactionId = t then 1 else 0 := by
    simp only [countOf, List.countP_append, List.countP_cons, decide_eq_true_eq]
    omega
  generalize ht : e.entry.modyfierTransactionId = t at hfate
  by_cases hr : t = Tid.rolledBack
  · subst hr
    refine ⟨w, by simp [VisibilityResolver.entryDropped], h.mono fun t _ => ?_⟩
    rw [hcount]
    exact Nat.le_add_right _ _
  · have hrolled : v.isRolledBack t index = true := by
      unfold Cleaner.fate at hfate
      split at hfate
      · assumption
      · split at hfate <;> cases hfate
    rw [← ht, ← h.isRolledBack (by simp), ht, isRolledBack_iff hr] at hrolled
    obtain ⟨n, hn⟩ := Option.isSome_iff_exists.mp hrolled
    obtain ⟨rb, hdrop, hrb⟩ := entryDropped_rolledBack hr hn
    have hn0 := (h.sane.rolled index t n hn).2
    refine ⟨_, hdrop, { h with sane := ⟨h.sane.horizon, ?_⟩, others := ?_, rolled := ?_, covers := ?_ }⟩
    · intro i u m hm
      dsimp only at hm
      rw [hrb] at hm
      split at hm
      · rename_i hiu
        obtain ⟨rfl, rfl⟩ := hiu
        unfold lowered at hm
        split at hm
        · cases hm
        · cases hm
          exact ⟨(h.sane.rolled _ _ _ hn).1, by omega⟩
      · exact h.sane.rolled i u m hm
    · intro i u hi
      dsimp only
      rw [hrb, if_neg fun hiu => hi hiu.1]
      exact h.others i u hi
    · intro u hu
      dsimp only at hu
      rw [hrb] at hu
      split at hu
      · rename_i hiu
        exact h.rolled u (by rw [hiu.2, hn]; rfl)
      · exact h.rolled u hu
    · intro u hu
      dsimp only
      have hle := h.covers u hu
      rw [hcount, ht] at hle
      rw [hrb]
      by_cases hut : u = t
      · subst hut
        rw [hn, Option.getD_some, if_pos rfl] at hle
        rw [if_pos ⟨rfl, rfl⟩]
        unfold lowered
        split
        · simp only [Option.getD_none]
          omega
        · simp only [Option.getD_some]
          omega
      · rw [if_neg fun hiu => hut hiu.2]
        exact le_trans (Nat.le_add_right _ _) hle

end

-- ---------------------------------------------------------------------------
-- Safe leaves
-- ---------------------------------------------------------------------------

inductive Part
  | mine
  | rolled
  | other
  deriving DecidableEq, Repr

def partOf (v : VisibilityResolver) (index : Lid) (x : Lid) (e : Item K) : Part :=
  if mine v index x e then .mine
  else if fate v index e.entry.modyfierTransactionId = .remove then .rolled
  else .other

def parts (v : VisibilityResolver) (index : Lid) (x : Lid) (l : List (Item K)) : List Part :=
  l.map (partOf v index x)

/-- No other object has an entry beyond the horizon here. -/
def Clear (v : VisibilityResolver) (index : Lid) (x : Lid) (l : List (Item K)) : Prop :=
  ∀ e ∈ l, fate v index e.entry.modyfierTransactionId = .beyond → e.entry.logicalID = x

/-- The object of the first entry beyond the horizon. -/
def next (v : VisibilityResolver) (index : Lid) (l : List (Item K)) : Option Lid :=
  (l.find? fun e => fate v index e.entry.modyfierTransactionId = .beyond).map
    fun e => e.entry.logicalID

def HasAdd (v : VisibilityResolver) (index : Lid) (x : Lid) (l : List (Item K)) : Prop :=
  ∃ e ∈ l, mine v index x e = true ∧ e.entry.addTime ≠ nullValue

def HasDel (v : VisibilityResolver) (index : Lid) (x : Lid) (l : List (Item K)) : Prop :=
  ∃ e ∈ l, mine v index x e = true ∧ e.entry.addTime = nullValue ∧ e.entry.delTime ≠ nullValue

/-- An addition and a deletion of the object are both beyond the horizon. -/
def Closed (v : VisibilityResolver) (index : Lid) (x : Lid) (l : List (Item K)) : Prop :=
  HasAdd v index x l ∧ HasDel v index x l

/-- A stretch of the leaf that ends in `m`, where the walk may take out two
entries of the object: only these can be met, and the walk lands on an entry
again. It jumps over the next two entries, which must not make it believe that
the object goes on. -/
structure Tidy (R : Lid → K → K → Prop) (cmp : Comparator K) (v : VisibilityResolver) (index : Lid)
    (x : Lid) (stretch : List (Item K)) (m : Item K) (behind : List (Item K)) : Prop where
  packed : ¬ [Part.mine, .other, .mine].Sublist (parts v index x (stretch ++ [m]))
  keys : ∀ a ∈ stretch ++ [m], ∀ b ∈ stretch ++ [m], mine v index x a = true →
    mine v index x b = true → R x a.key b.key ∧ cmp.leafEntrySize a.key = cmp.leafEntrySize b.key
  lands : ∀ r, behind.head? = some r → cmp.leafEntrySize r.key = cmp.leafEntrySize m.key
  jump : next v index (behind.drop 2) = some x → ∀ r ∈ behind.take 2, mine v index x r = true

/-- A leaf on which the walk takes out the right entries. -/
structure Safe (R : Lid → K → K → Prop) (cmp : Comparator K) (v : VisibilityResolver) (index : Lid)
    (l : List (Item K)) : Prop where
  sane : Sane v
  covers : ∀ t n, rolledCount v.rolledBack index t = some n → countOf t l ≤ n
  stamped : ∀ e ∈ l, e.entry.addTime ≠ nullValue ∨ e.entry.delTime ≠ nullValue
  tidy : ∀ x front stretch m behind, l = front ++ stretch ++ m :: behind →
    Clear v index x stretch → mine v index x m = true → Closed v index x (stretch ++ [m]) →
    Tidy R cmp v index x stretch m behind
  lead : ∀ e stretch m behind, l = stretch ++ m :: behind → l.head? = some e →
    Clear v index e.entry.logicalID stretch → mine v index e.entry.logicalID m = true →
    Closed v index e.entry.logicalID (stretch ++ [m]) →
    ¬ [Part.other, .mine].Sublist (parts v index e.entry.logicalID (stretch ++ [m]))

section

variable {cmp : Comparator K} {v w : VisibilityResolver} {index x : Lid}
  {l p q : List (Item K)} {e a b m : Item K}

theorem mine_iff : mine v index x e = true ↔
    e.entry.logicalID = x ∧ fate v index e.entry.modyfierTransactionId = .beyond := by
  simp [mine]

theorem partOf_mine : partOf v index x e = .mine ↔ mine v index x e = true := by
  unfold partOf
  split
  · simp [*]
  · split <;> simp [*]

theorem mine_stamp (hv : Sane v)
    (he : fate v index e.entry.modyfierTransactionId = .beyond) :
    mine v index x (stamp e) = mine v index x e := by
  rw [Bool.eq_iff_iff, mine_iff, mine_iff]
  simp [Cleaner.stamp, fate_beyondHorizon hv, he]

theorem Agrees.stamp (hv : Sane v) (h : Agrees v index w (p ++ e :: q)) :
    Agrees v index w (p ++ Cleaner.stamp e :: q) := by
  refine h.mono fun t ht => ?_
  have hne : Tid.beyondHorizon ≠ t := by
    rintro rfl
    obtain ⟨n, hn⟩ := Option.isSome_iff_exists.mp ht
    exact absurd (hv.rolled index _ n hn).1 (by decide)
  simp only [countOf, List.countP_append, List.countP_cons, Cleaner.stamp, hne, decide_false]
  simp

theorem Clear.next_eq (h : Clear v index x p) (hm : mine v index x m = true) :
    next v index (p ++ m :: q) = some x := by
  obtain ⟨hlid, hfate⟩ := mine_iff.mp hm
  induction p with
  | nil => simp [next, hfate, hlid]
  | cons e p ih =>
    by_cases he : fate v index e.entry.modyfierTransactionId = .beyond
    · simp [next, he, h e List.mem_cons_self he]
    · have hp : Clear v index x p := fun d hd => h d (List.mem_cons_of_mem e hd)
      simpa [next, he] using ih hp

theorem HasAdd.append_left (h : HasAdd v index x p) (q : List (Item K)) :
    HasAdd v index x (p ++ q) := by
  obtain ⟨e, he, h⟩ := h
  exact ⟨e, List.mem_append_left q he, h⟩

theorem HasDel.append_left (h : HasDel v index x p) (q : List (Item K)) :
    HasDel v index x (p ++ q) := by
  obtain ⟨e, he, h⟩ := h
  exact ⟨e, List.mem_append_left q he, h⟩

end

-- ---------------------------------------------------------------------------
-- The walk
-- ---------------------------------------------------------------------------

/-- Further on in the stretch the walk will have met an addition and a deletion
of the object. -/
def Closing (v : VisibilityResolver) (index : Lid) (x : Lid) (stretch rest : List (Item K)) : Prop :=
  ∃ p m q, rest = p ++ m :: q ∧ Clear v index x p ∧ mine v index x m = true ∧
    Closed v index x (stretch ++ p ++ [m])

/-- Only entries of the object stand behind `firstToRemove`. -/
structure Ready (v : VisibilityResolver) (index : Lid) (stretch : List (Item K)) (s : Sweep K) :
    Prop where
  clear : Clear v index s.lid stretch
  run : ∀ d ∈ s.before.drop s.first, mine v index s.lid d = true ∧
    ∃ d' ∈ stretch, mine v index s.lid d' = true ∧ d'.key = d.key
  inside : (s.add || s.del) = true → s.first < s.before.length
  outside : (s.add || s.del) = false → s.before = []

/-- The walk over `L` has come to `s`. It entered its object behind `front`. -/
structure Going (v : VisibilityResolver) (index : Lid) (L front stretch : List (Item K))
    (s : Sweep K) : Prop where
  here : L = front ++ stretch ++ s.rest
  agrees : Agrees v index s.resolver (s.before ++ s.rest)
  bound : s.first ≤ s.before.length
  add : s.add = true → HasAdd v index s.lid stretch
  del : s.del = true → HasDel v index s.lid stretch
  start : (s.add || s.del) = false → front = [] ∧ ∃ e, L.head? = some e ∧ e.entry.logicalID = s.lid
  ready : Closing v index s.lid stretch s.rest → Ready v index stretch s

section

variable {R : Lid → K → K → Prop} {cmp : Comparator K} {v : VisibilityResolver} {index : Lid}
  {L rest front stretch : List (Item K)} {s s' : Sweep K} {e : Item K}

theorem Closing.back {x : Lid} {p : List (Item K)} (h : Closing v index x (stretch ++ p) rest)
    (hp : Clear v index x p) : Closing v index x stretch (p ++ rest) := by
  obtain ⟨u, m, q, rfl, hu, hm, hclosed⟩ := h
  refine ⟨p ++ u, m, q, by simp, ?_, hm, by simpa using hclosed⟩
  intro d hd
  exact (List.mem_append.mp hd).elim (hp d) (hu d)

theorem clear_singleton {x : Lid}
    (h : fate v index e.entry.modyfierTransactionId = .beyond → e.entry.logicalID = x) :
    Clear v index x [e] := by
  intro d hd
  obtain rfl := List.mem_singleton.mp hd
  exact h

theorem Clear.snoc {x : Lid} (h : Clear v index x stretch) (he : Clear v index x rest) :
    Clear v index x (stretch ++ rest) :=
  fun d hd => (List.mem_append.mp hd).elim (h d) (he d)

theorem Safe.agrees (h : Safe R cmp v index L) : Agrees v index v L := by
  refine ⟨h.sane, rfl, rfl, rfl, rfl, fun _ _ _ => rfl, fun _ ht => ht, fun t ht => ?_⟩
  obtain ⟨n, hn⟩ := Option.isSome_iff_exists.mp ht
  rw [hn]
  exact h.covers t n hn

theorem Safe.going (h : Safe R cmp v index (e :: rest)) :
    Going v index (e :: rest) [] []
      { resolver := v, rest := e :: rest, lid := e.entry.logicalID } :=
  ⟨rfl, h.agrees, le_rfl, nofun, nofun, fun _ => ⟨rfl, e, rfl, rfl⟩,
    fun _ => ⟨nofun, nofun, nofun, fun _ => rfl⟩⟩

theorem Going.remove (h : Going v index L front stretch s) (hrest : s.rest = e :: rest)
    (hfate : fate v index e.entry.modyfierTransactionId = .remove) :
    ∃ w, s.resolver.entryDropped e.entry.modyfierTransactionId index .rolledBack = some w ∧
      Going v index L front (stretch ++ [e]) { s with resolver := w, rest := rest } := by
  have hag := h.agrees
  rw [hrest] at hag
  obtain ⟨w, hw, hag'⟩ := hag.entryDropped hfate
  have hclear (x : Lid) : Clear v index x [e] := by
    apply clear_singleton
    rw [hfate]
    nofun
  refine ⟨w, hw, ?_, hag', h.bound, fun ha => (h.add ha).append_left _,
    fun hd => (h.del hd).append_left _, h.start, fun hclosing => ?_⟩
  · rw [h.here, hrest]
    simp
  · have hback := hclosing.back (hclear s.lid)
    obtain ⟨hc, hrun, hinside, houtside⟩ := h.ready (by rwa [hrest])
    refine ⟨hc.snoc (hclear s.lid), fun d hd => ?_, hinside, houtside⟩
    obtain ⟨hm, d', hd', hk⟩ := hrun d hd
    exact ⟨hm, d', List.mem_append_left _ hd', hk⟩

/-- Something that is neither rolled back nor beyond the horizon cannot stand
where two entries will be taken out. -/
theorem Going.keep (hsafe : Safe R cmp v index L) (h : Going v index L front stretch s)
    (hrest : s.rest = e :: rest)
    (hfate : fate v index e.entry.modyfierTransactionId = .keep) :
    Going v index L front (stretch ++ [e]) { s with before := s.before ++ [e], rest := rest } := by
  have hpart : partOf v index s.lid e = .other := by
    simp [partOf, mine, hfate]
  have hlist : s.before ++ [e] ++ rest = s.before ++ s.rest := by simp [hrest]
  have hclear : Clear v index s.lid [e] := by
    apply clear_singleton
    rw [hfate]
    nofun
  have hno : ¬ Closing v index s.lid (stretch ++ [e]) rest := by
    intro hclosing
    have hready := h.ready (by
      rw [hrest]
      exact hclosing.back hclear)
    obtain ⟨p, m, q, hp, hpc, hm, hclosed⟩ := hclosing
    have hwhole : Clear v index s.lid (stretch ++ [e] ++ p) := (hready.clear.snoc hclear).snoc hpc
    have hL : L = front ++ (stretch ++ [e] ++ p) ++ m :: q := by
      rw [h.here, hrest, hp]
      simp
    have hem : [Part.other, .mine].Sublist (parts v index s.lid ([e] ++ p ++ [m])) := by
      simp only [parts, List.map_append, List.map_cons, List.map_nil, hpart, partOf_mine.mpr hm]
      exact (List.sublist_append_left [Part.other] _).append (.refl [Part.mine])
    cases hflags : s.add || s.del with
    | false =>
      obtain ⟨rfl, e₀, hhead, hlid⟩ := h.start hflags
      rw [← hlid] at hwhole hm hclosed hem
      refine hsafe.lead e₀ _ m q hL hhead hwhole hm hclosed (hem.trans ?_)
      simp [parts]
    | true =>
      obtain ⟨d, hd, hdm⟩ : ∃ d ∈ stretch, mine v index s.lid d = true := by
        rcases Bool.or_eq_true_iff.mp hflags with ha | hd
        · obtain ⟨d, hd, hdm, -⟩ := h.add ha
          exact ⟨d, hd, hdm⟩
        · obtain ⟨d, hd, hdm, -⟩ := h.del hd
          exact ⟨d, hd, hdm⟩
      refine (hsafe.tidy _ _ _ m q hL hwhole hm hclosed).packed ?_
      have hone : [Part.mine].Sublist (parts v index s.lid stretch) := by
        rw [List.singleton_sublist, ← partOf_mine.mpr hdm]
        exact List.mem_map_of_mem hd
      have hparts : parts v index s.lid (stretch ++ [e] ++ p ++ [m]) =
          parts v index s.lid stretch ++ parts v index s.lid ([e] ++ p ++ [m]) := by
        simp [parts]
      rw [hparts]
      exact hone.append hem
  refine ⟨?_, ?_, ?_, fun ha => (h.add ha).append_left _, fun hd => (h.del hd).append_left _, h.start,
    fun hclosing => absurd hclosing hno⟩
  · rw [h.here, hrest]
    simp
  · dsimp only
    rw [hlist]
    exact h.agrees
  · exact le_trans h.bound (by simp)

/-- The walk has looked at the next entry, which is beyond the horizon. -/
structure Noted (v : VisibilityResolver) (index : Lid) (L front stretch : List (Item K))
    (s : Sweep K) (e : Item K) (rest : List (Item K)) : Prop where
  here : L = front ++ stretch ++ e :: rest
  isMine : mine v index s.lid e = true
  agrees : Agrees v index s.resolver (s.before ++ e :: rest)
  bound : s.first ≤ s.before.length
  add : s.add = true → HasAdd v index s.lid (stretch ++ [e])
  del : s.del = true → HasDel v index s.lid (stretch ++ [e])
  flags : (s.add || s.del) = true
  clear : Closing v index s.lid stretch (e :: rest) → Clear v index s.lid stretch
  run : Closing v index s.lid stretch (e :: rest) → ∀ d ∈ s.before.drop s.first,
    mine v index s.lid d = true ∧ ∃ d' ∈ stretch, mine v index s.lid d' = true ∧ d'.key = d.key
  inside : s.add = true → s.del = true → s.first < s.before.length

theorem Sweep.note_eq (s : Sweep K) (e : RootEntry) :
    s.note e = { s with
      add := s.add || e.addTime != nullValue
      del := s.del || (e.addTime == nullValue && e.delTime != nullValue) } := by
  unfold Sweep.note
  by_cases ha : e.addTime = nullValue
  · by_cases hd : e.delTime = nullValue
    · simp [ha, hd]
    · simp [ha, hd]
  · simp [ha]

theorem closing_here {x : Lid} (hm : mine v index x e = true)
    (h : Closed v index x (stretch ++ [e])) : Closing v index x stretch (e :: rest) :=
  ⟨[], e, rest, rfl, nofun, hm, by simpa using h⟩

theorem Going.noted (h : Going v index L front stretch s) (hrest : s.rest = e :: rest)
    (hfate : fate v index e.entry.modyfierTransactionId = .beyond)
    (hstamped : e.entry.addTime ≠ nullValue ∨ e.entry.delTime ≠ nullValue) :
    ∃ front stretch,
      Noted v index L front stretch ((s.enter e.entry.logicalID).note e.entry) e rest := by
  have hmine : mine v index e.entry.logicalID e = true := mine_iff.mpr ⟨rfl, hfate⟩
  have hhere := h.here
  have hag := h.agrees
  have hready := h.ready
  rw [hrest] at hhere hag hready
  have hadd (l : List (Item K)) (ha : (e.entry.addTime != nullValue) = true) :
      HasAdd v index e.entry.logicalID (l ++ [e]) :=
    ⟨e, by simp, hmine, by simpa using ha⟩
  have hdel (l : List (Item K))
      (hd : (e.entry.addTime == nullValue && e.entry.delTime != nullValue) = true) :
      HasDel v index e.entry.logicalID (l ++ [e]) :=
    ⟨e, by simp, hmine, by simpa using hd⟩
  have hflag : (e.entry.addTime != nullValue || e.entry.addTime == nullValue &&
      e.entry.delTime != nullValue) = true := by
    rcases hstamped with ha | hd
    · simp [ha]
    · by_cases ha : e.entry.addTime = nullValue
      · simp [ha, hd]
      · simp [ha]
  have hone : (e.entry.addTime != nullValue) = true →
      ¬ (e.entry.addTime == nullValue && e.entry.delTime != nullValue) = true := by
    intro ha hd
    simp_all
  rw [Sweep.note_eq]
  generalize (e.entry.addTime != nullValue) = isAdd at *
  generalize (e.entry.addTime == nullValue && e.entry.delTime != nullValue) = isDel at *
  by_cases hlid : e.entry.logicalID = s.lid
  · have henter : s.enter e.entry.logicalID = s := by simp [Sweep.enter, hlid]
    rw [henter]
    rw [hlid] at hadd hdel hmine
    have hadd' (ha : (s.add || isAdd) = true) : HasAdd v index s.lid (stretch ++ [e]) :=
      (Bool.or_eq_true_iff.mp ha).elim (fun ha => (h.add ha).append_left _) (hadd stretch)
    have hdel' (hd : (s.del || isDel) = true) : HasDel v index s.lid (stretch ++ [e]) :=
      (Bool.or_eq_true_iff.mp hd).elim (fun hd => (h.del hd).append_left _) (hdel stretch)
    refine ⟨front, stretch, hhere, hmine, hag, h.bound, hadd', hdel', ?_,
      fun hc => (hready hc).clear, fun hc => (hready hc).run, fun ha hd => ?_⟩
    · dsimp only
      rcases Bool.or_eq_true_iff.mp hflag with ha | hd
      · rw [ha, Bool.or_true, Bool.true_or]
      · rw [hd, Bool.or_true, Bool.or_true]
    · -- one of the two flags was set before this entry
      refine (hready (closing_here hmine ⟨hadd' ha, hdel' hd⟩)).inside ?_
      by_contra hnone
      simp only [Bool.or_eq_true_iff, not_or, Bool.not_eq_true] at hnone
      dsimp only at ha hd
      rw [hnone.1, Bool.false_or] at ha
      rw [hnone.2, Bool.false_or] at hd
      exact hone ha hd
  · have henter : s.enter e.entry.logicalID = { s with
        lid := e.entry.logicalID, first := s.before.length, add := false, del := false } := by
      simp [Sweep.enter, hlid]
    rw [henter]
    refine ⟨front ++ stretch, [], by simpa using hhere, hmine, hag, le_rfl, ?_, ?_, ?_,
      fun _ => nofun, ?_, ?_⟩
    · simpa using hadd []
    · simpa using hdel []
    · simpa using hflag
    · simp
    · intro ha hd
      simp only [Bool.false_or] at ha hd
      exact absurd hd (hone ha)

theorem Noted.keep (hv : Sane v) (h : Noted v index L front stretch s e rest) :
    Going v index L front (stretch ++ [e])
      { s with before := s.before ++ [stamp e], rest := rest } := by
  have hfate := (mine_iff.mp h.isMine).2
  have hclear : Clear v index s.lid [e] := clear_singleton fun _ => (mine_iff.mp h.isMine).1
  have hlist : s.before ++ [stamp e] ++ rest = s.before ++ stamp e :: rest := by simp
  refine ⟨?_, ?_, le_trans h.bound (by simp), h.add, h.del, fun hflags => ?_, fun hclosing => ?_⟩
  · rw [h.here]
    simp
  · dsimp only
    rw [hlist]
    exact h.agrees.stamp hv
  · exact absurd h.flags (by simpa using hflags)
  · have hback := hclosing.back hclear
    refine ⟨(h.clear hback).snoc hclear, fun d hd => ?_, fun _ => ?_, fun hflags => ?_⟩
    · dsimp only at hd
      rw [List.drop_append_of_le_length h.bound, List.mem_append, List.mem_singleton] at hd
      rcases hd with hd | rfl
      · obtain ⟨hm, d', hd', hk⟩ := h.run hback d hd
        exact ⟨hm, d', List.mem_append_left _ hd', hk⟩
      · exact ⟨(mine_stamp hv hfate).trans h.isMine, e, by simp, h.isMine, rfl⟩
    · simpa using Nat.lt_succ_of_le h.bound
    · exact absurd h.flags (by simpa using hflags)

-- ---------------------------------------------------------------------------
-- Taking out two entries
-- ---------------------------------------------------------------------------

theorem bytes_append (p q : List (Item K)) : bytes cmp (p ++ q) = bytes cmp p + bytes cmp q := by
  simp [bytes]

theorem bytes_uniform {l : List (Item K)} {c : Nat}
    (h : ∀ e ∈ l, cmp.leafEntrySize e.key = c) : bytes cmp l = l.length * c := by
  induction l with
  | nil => simp [bytes]
  | cons e l ih =>
    have hl := ih fun d hd => h d (List.mem_cons_of_mem e hd)
    have he := h e List.mem_cons_self
    simp only [bytes, List.map_cons, List.sum_cons, List.length_cons] at hl ⊢
    rw [hl, he, Nat.succ_mul, Nat.add_comm]

theorem leafEntrySize_pos (cmp : Comparator K) (k : K) : 0 < cmp.leafEntrySize k :=
  Nat.lt_of_lt_of_le (by decide : 0 < rootEntrySize) (Nat.le_add_right _ _)

/-- Seeking passes whole entries. -/
theorem seek_append (p q : List (Item K)) (n : Nat) :
    seek cmp (bytes cmp p + n) (p ++ q) =
      (seek cmp n q).map fun r => (p ++ r.1, r.2) := by
  induction p with
  | nil => simp [bytes]
  | cons e p ih =>
    have hpos := leafEntrySize_pos cmp e.key
    have hbytes : bytes cmp (e :: p) = cmp.leafEntrySize e.key + bytes cmp p := by simp [bytes]
    obtain ⟨m, hm⟩ : ∃ m, bytes cmp (e :: p) + n = m + 1 :=
      Nat.exists_eq_succ_of_ne_zero (by omega)
    have hsub : m + 1 - cmp.leafEntrySize e.key = bytes cmp p + n := by omega
    have hle : cmp.leafEntrySize e.key ≤ m + 1 := by omega
    rw [hm, List.cons_append, seek, if_pos hle, hsub, ih, Option.map_map]
    rfl

theorem seek_one {l : List (Item K)} {c : Nat} (hc : 0 < c)
    (h : ∀ r, l.head? = some r → cmp.leafEntrySize r.key = c) :
    seek cmp c l = some (l.take 1, l.drop 1) := by
  obtain ⟨n, rfl⟩ := Nat.exists_eq_succ_of_ne_zero hc.ne'
  cases l with
  | nil => rfl
  | cons r l =>
    have hr := h r rfl
    simp [seek, hr]

/-- What stands around the two entries: `a` and `b` go. -/
theorem Noted.around (hv : Sane v) (h : Noted v index L front stretch s e rest)
    (ha : s.add = true) (hd : s.del = true) :
    ∃ pre a b tl, s.before ++ [stamp e] = pre ++ a :: b :: tl ∧ pre.length = s.first ∧
      ∀ d ∈ a :: b :: tl, mine v index s.lid d = true ∧
        ∃ d' ∈ stretch ++ [e], mine v index s.lid d' = true ∧ d'.key = d.key := by
  have hclosing : Closing v index s.lid stretch (e :: rest) :=
    closing_here h.isMine ⟨h.add ha, h.del hd⟩
  have hlt := h.inside ha hd
  have hrun := h.run hclosing
  rw [List.drop_eq_getElem_cons hlt] at hrun
  obtain ⟨b, tl, hb⟩ : ∃ b tl, s.before.drop (s.first + 1) ++ [stamp e] = b :: tl :=
    List.exists_cons_of_ne_nil (by simp)
  refine ⟨s.before.take s.first, s.before[s.first], b, tl, ?_, by simp [h.bound], ?_⟩
  · rw [← hb, ← List.cons_append, ← List.drop_eq_getElem_cons hlt, ← List.append_assoc,
      List.take_append_drop]
  · have hold (d : Item K) (hd : d ∈ s.before[s.first] :: s.before.drop (s.first + 1)) :
        mine v index s.lid d = true ∧
          ∃ d' ∈ stretch ++ [e], mine v index s.lid d' = true ∧ d'.key = d.key := by
      obtain ⟨hm, d', hd', hk⟩ := hrun d hd
      exact ⟨hm, d', List.mem_append_left _ hd', hk⟩
    intro d hd
    rw [List.mem_cons, ← hb, List.mem_append, List.mem_singleton] at hd
    rcases hd with rfl | hd | rfl
    · exact hold _ List.mem_cons_self
    · exact hold d (List.mem_cons_of_mem _ hd)
    · exact ⟨(mine_stamp hv (mine_iff.mp h.isMine).2).trans h.isMine, e, by simp, h.isMine, rfl⟩

/-- The walk goes on behind the next two entries. -/
theorem removePair_eq {pre tl : List (Item K)} {a b : Item K} {c : Nat} (hc : 0 < c)
    (hlist : s.before ++ [e] = pre ++ a :: b :: tl) (hpre : pre.length = s.first)
    (hsize : ∀ d ∈ a :: b :: tl, cmp.leafEntrySize d.key = c) (he : cmp.leafEntrySize e.key = c)
    (hlands : ∀ r, rest.head? = some r → cmp.leafEntrySize r.key = c) :
    s.removePair cmp e rest =
      some { s with before := pre ++ tl ++ rest.take 2, rest := rest.drop 2 } := by
  have herase : ((s.before ++ e :: rest).eraseIdx s.first).eraseIdx s.first =
      pre ++ tl ++ rest := by
    rw [← List.singleton_append, ← List.append_assoc, hlist, List.append_assoc, ← hpre,
      List.eraseIdx_append_of_length_le le_rfl, Nat.sub_self, List.cons_append,
      List.eraseIdx_cons_zero, List.eraseIdx_append_of_length_le le_rfl, Nat.sub_self,
      List.cons_append, List.eraseIdx_cons_zero, List.append_assoc]
  have hbytes : bytes cmp s.before = bytes cmp (pre ++ tl) + c := by
    have hwhole := congrArg (bytes cmp) hlist
    have htl := bytes_uniform fun d hd => hsize d (List.mem_cons_of_mem a (List.mem_cons_of_mem b hd))
    rw [bytes_append, bytes_append, bytes_uniform hsize] at hwhole
    have hlast : bytes cmp [e] = c := by simp [bytes, he]
    simp only [List.length_cons, hlast, Nat.add_mul] at hwhole
    rw [bytes_append, htl]
    omega
  have htwo : rest.take 1 ++ (rest.drop 1).take 1 = rest.take 2 := List.take_add.symm
  unfold Sweep.removePair
  simp only [herase, hbytes, seek_append, seek_one hc hlands, Option.map_some, Option.bind_eq_bind,
    Option.bind_some, Option.pure_def]
  rw [List.append_assoc _ (rest.take 1), htwo, List.drop_drop]

theorem Noted.removePair (hsafe : Safe R cmp v index L)
    (h : Noted v index L front stretch s e rest) (ha : s.add = true) (hd : s.del = true) :
    ∃ s' stretch', s.removePair cmp (stamp e) rest = some s' ∧ Going v index L front stretch' s' ∧
      Move R v index (s.resolver, s.before ++ stamp e :: rest)
        (s'.resolver, s'.before ++ s'.rest) := by
  have hv := hsafe.sane
  have hclosed : Closed v index s.lid (stretch ++ [e]) := ⟨h.add ha, h.del hd⟩
  have hclear := h.clear (closing_here h.isMine hclosed)
  have htidy := hsafe.tidy s.lid front stretch e rest h.here hclear h.isMine hclosed
  obtain ⟨pre, a, b, tl, hlist, hpre, hmine⟩ := h.around hv ha hd
  obtain ⟨hma, a', ha', hma', hka⟩ := hmine a (by simp)
  obtain ⟨hmb, b', hb', hmb', hkb⟩ := hmine b (by simp)
  have hsize (d : Item K) (hd : d ∈ a :: b :: tl) :
      cmp.leafEntrySize d.key = cmp.leafEntrySize e.key := by
    obtain ⟨-, d', hd', hmd', hk⟩ := hmine d hd
    rw [← hk]
    exact (htidy.keys d' hd' e (by simp) hmd' h.isMine).2
  have hkeys : R s.lid a.key b.key := hka ▸ hkb ▸ (htidy.keys a' ha' b' hb' hma' hmb').1
  have hnow : s.before ++ stamp e :: rest = pre ++ a :: b :: (tl ++ rest) := by
    rw [← List.singleton_append, ← List.append_assoc, hlist]
    simp
  have hafter : pre ++ tl ++ rest.take 2 ++ rest.drop 2 = pre ++ (tl ++ rest) := by
    rw [List.append_assoc, List.take_append_drop, List.append_assoc]
  have hsub : (pre ++ (tl ++ rest)).Sublist (s.before ++ stamp e :: rest) := by
    rw [hnow]
    exact List.Sublist.append (.refl pre)
      ((List.sublist_cons_self b _).trans (List.sublist_cons_self a _))
  refine ⟨_, stretch ++ [e] ++ rest.take 2,
    removePair_eq (leafEntrySize_pos cmp e.key) hlist hpre hsize rfl htidy.lands, ?_, ?_⟩
  · refine ⟨?_, ?_, ?_, fun ha => (h.add ha).append_left _, fun hd => (h.del hd).append_left _,
      fun hflags => absurd h.flags (by simpa using hflags), fun hclosing => ?_⟩
    · rw [h.here]
      simp
    · dsimp only
      rw [hafter]
      exact (h.agrees.stamp hv).mono fun t _ => hsub.countP_le
    · simp only [← hpre, List.length_append]
      omega
    · obtain ⟨p, m, q, hp, hpc, hm, -⟩ := hclosing
      dsimp only at hp hpc hm
      have hskipped : ∀ r ∈ rest.take 2, mine v index s.lid r = true :=
        htidy.jump (hp ▸ hpc.next_eq hm)
      refine ⟨?_, fun d hd => ?_, fun _ => ?_, fun hflags => absurd h.flags (by simpa using hflags)⟩
      · refine (hclear.snoc (clear_singleton fun _ => (mine_iff.mp h.isMine).1)).snoc ?_
        exact fun r hr _ => (mine_iff.mp (hskipped r hr)).1
      · dsimp only at hd ⊢
        rw [List.append_assoc, ← hpre, List.drop_left, List.mem_append] at hd
        rcases hd with hd | hd
        · obtain ⟨hmd, d', hd', hk⟩ :=
            hmine d (List.mem_cons_of_mem a (List.mem_cons_of_mem b hd))
          exact ⟨hmd, d', List.mem_append_left _ hd', hk⟩
        · exact ⟨hskipped d hd, d, List.mem_append_right _ hd, hskipped d hd, rfl⟩
      · have hlen := congrArg List.length hp
        simp only [List.length_drop, List.length_append, List.length_cons] at hlen
        simp only [← hpre, List.length_append, List.length_take]
        omega
  · dsimp only
    rw [hnow, hafter]
    exact .pair hma hmb hkeys

-- ---------------------------------------------------------------------------
-- The whole cleaning
-- ---------------------------------------------------------------------------

theorem Going.step (hsafe : Safe R cmp v index L) (h : Going v index L front stretch s)
    (hrest : s.rest = e :: rest) :
    ∃ s' front' stretch', s.step cmp index e rest = some s' ∧ Going v index L front' stretch' s' ∧
      Moves R v index (s.resolver, s.before ++ s.rest) (s'.resolver, s'.before ++ s'.rest) := by
  have hsame := h.agrees.fate (show e ∈ s.before ++ s.rest by simp [hrest])
  unfold Sweep.step
  rw [hsame]
  cases hfate : fate v index e.entry.modyfierTransactionId with
  | remove =>
    obtain ⟨w, hw, hgoing⟩ := h.remove hrest hfate
    refine ⟨_, _, _, ?_, hgoing, ?_⟩
    · simp only [hw, Option.bind_eq_bind, Option.bind_some, Option.pure_def]
    · rw [hrest]
      exact .single (.remove hfate hw)
  | keep =>
    refine ⟨_, _, _, rfl, h.keep hsafe hrest hfate, ?_⟩
    simp only [hrest, List.append_assoc, List.cons_append, List.nil_append]
    exact .refl
  | beyond =>
    have hmem : e ∈ L := by simp [h.here, hrest]
    obtain ⟨front', stretch', hnoted⟩ := h.noted hrest hfate (hsafe.stamped e hmem)
    have hstamp : Move R v index (s.resolver, s.before ++ s.rest)
        (s.resolver, s.before ++ stamp e :: rest) := by
      rw [hrest]
      exact .stamp hfate
    have hbefore : ((s.enter e.entry.logicalID).note e.entry).before = s.before := by
      rw [Sweep.note_eq]
      unfold Sweep.enter
      split <;> rfl
    have hresolver : ((s.enter e.entry.logicalID).note e.entry).resolver = s.resolver := by
      rw [Sweep.note_eq]
      unfold Sweep.enter
      split <;> rfl
    dsimp only
    generalize (s.enter e.entry.logicalID).note e.entry = n at hnoted hbefore hresolver ⊢
    rw [← hbefore, ← hresolver] at hstamp ⊢
    split
    · rename_i hboth
      obtain ⟨ha, hd⟩ := Bool.and_eq_true_iff.mp hboth
      obtain ⟨s', stretch'', hs', hgoing, hmove⟩ := hnoted.removePair hsafe ha hd
      exact ⟨s', _, _, hs', hgoing, .tail (.single hstamp) hmove⟩
    · refine ⟨_, _, _, rfl, hnoted.keep hsafe.sane, ?_⟩
      simp only [List.append_assoc, List.cons_append, List.nil_append]
      exact .single hstamp

theorem Going.steps (hsafe : Safe R cmp v index L) (fuel : Nat)
    (h : Going v index L front stretch s) :
    ∃ s' front' stretch', s.run cmp index fuel = some s' ∧ Going v index L front' stretch' s' ∧
      Moves R v index (s.resolver, s.before ++ s.rest) (s'.resolver, s'.before ++ s'.rest) := by
  induction fuel generalizing s front stretch with
  | zero => exact ⟨s, front, stretch, rfl, h, .refl⟩
  | succ fuel ih =>
    unfold Sweep.run
    split
    · exact ⟨s, front, stretch, rfl, h, .refl⟩
    · rename_i e rest hrest
      obtain ⟨s₁, _, _, hstep, hgoing, hmoves⟩ := h.step hsafe hrest
      obtain ⟨s₂, _, _, hrun, hgoing', hmoves'⟩ := ih hgoing
      refine ⟨s₂, _, _, ?_, hgoing', hmoves.trans hmoves'⟩
      simp only [hstep, Option.bind_eq_bind, Option.bind_some, hrun]

/-- A safe leaf is cleaned by moves alone. -/
theorem Safe.clean (h : Safe R cmp v index L) :
    ∃ w l, clean cmp index v L = some (w, l) ∧ Agrees v index w l ∧
      Moves R v index (v, L) (w, l) := by
  cases L with
  | nil => exact ⟨v, [], rfl, h.agrees, .refl⟩
  | cons e rest =>
    obtain ⟨s, _, _, hrun, hgoing, hmoves⟩ := h.going.steps h (bytes cmp (e :: rest))
    refine ⟨s.resolver, s.before ++ s.rest, ?_, hgoing.agrees, hmoves⟩
    simp only [Cleaner.clean, hrun, Option.bind_eq_bind, Option.bind_some, Option.pure_def]

end

end Loxim.Indexes.Cleaner
