import Mathlib.Data.List.TakeWhile
import Loxim.Indexes.Cleaner
import Loxim.Indexes.KeyOrder

/-!
# Travelling along the leaves

A traveller goes from entry to entry and from leaf to leaf, and hands what it
passes to the sieve when it is told to grab. Leaves are always there to be read
here, and a traveller is only ever placed on an entry.
-/

namespace Loxim.Indexes

/-- The entries from `entry` to the end of its leaf, and the leaves behind. -/
structure Position (K : Type) where
  entry : List (Item K)
  nextLeaf : List (List (Item K))

/-- `position` is `cleaf` and `entry` together. The constructor leaves
`destinationExceeded` as it finds it. -/
structure LeafTraveller (K : Type) where
  position : Option (Position K) := none
  destinationComp : Option K := none
  grab : Bool := false
  endReached : Bool := false
  destinationExceeded : Bool
  /-- The entries given to `EntrySieve::add`. -/
  added : List (Item K) := []

variable {K : Type}

/-- What is passed until the condition holds, and where that is. -/
def walk (condition : Item K → Bool) :
    List (Item K) → List (List (Item K)) → List (Item K) × Option (Position K)
  | entry, leaves =>
    let passed := entry.takeWhile (! condition ·)
    match entry.dropWhile (! condition ·), leaves with
    | e :: rest, leaves => (passed, some ⟨e :: rest, leaves⟩)
    | [], [] => (passed, none)
    | [], leaf :: leaves =>
      let (more, stop) := walk condition leaf leaves
      (passed ++ more, stop)

namespace LeafTraveller

def setGrab (t : LeafTraveller K) (grab : Bool) : LeafTraveller K := { t with grab }

def setPosition (t : LeafTraveller K) (p : Position K) : LeafTraveller K :=
  { t with position := some p }

def setDestination (t : LeafTraveller K) (destination : K) : LeafTraveller K :=
  { t with destinationComp := some destination }

def travelTo (t : LeafTraveller K) (condition : Item K → Bool) : LeafTraveller K :=
  if t.endReached then t
  else
    match t.position with
    | none => t
    | some p =>
      let (passed, stop) := walk condition p.entry p.nextLeaf
      { t with
        position := stop
        endReached := stop.isNone
        added := if t.grab then t.added ++ passed else t.added }

def travelToEnd (t : LeafTraveller K) : LeafTraveller K := t.travelTo fun _ => false

section

variable [LinearOrder K] (cmp : OrderedComparator K)

/-- The key is that of the entry it stands on, or `junk`: behind the last entry
there is no key, though the source reads one. -/
def travelToGreater (junk : K) (t : LeafTraveller K) : LeafTraveller K :=
  let key := match t.position with
    | some ⟨e :: _, _⟩ => e.key
    | _ => junk
  t.travelTo fun e => cmp.lessThan key e.key

def travelToDestination (t : LeafTraveller K) : LeafTraveller K :=
  match t.destinationComp with
  | none => t
  | some destination =>
    let t := t.travelTo fun e => cmp.lessOrEqual destination e.key
    match t.position with
    | some ⟨e :: _, _⟩ => { t with destinationExceeded := cmp.lessThan destination e.key }
    | _ => t

end

-- ---------------------------------------------------------------------------
-- The entries ahead
-- ---------------------------------------------------------------------------

def ahead (t : LeafTraveller K) : List (Item K) :=
  match t.position with
  | some p => p.entry ++ p.nextLeaf.flatten
  | none => []

/-- It stands on an entry, or it has come to the end. -/
def Stands (t : LeafTraveller K) : Prop :=
  match t.position with
  | some p => p.entry ≠ [] ∧ t.endReached = false
  | none => t.endReached = true

/-- What a walk leaves behind and what is still ahead of it. -/
structure Walked (condition : Item K → Bool) (l passed : List (Item K)) (stop : Option (Position K)) :
    Prop where
  passed_eq : passed = l.takeWhile (! condition ·)
  stops : ∀ p, stop = some p →
    p.entry ≠ [] ∧ p.entry ++ p.nextLeaf.flatten = l.dropWhile (! condition ·)
  ends : stop = none → l.dropWhile (! condition ·) = []

theorem walk_walked (condition : Item K → Bool) (entry : List (Item K))
    (leaves : List (List (Item K))) :
    Walked condition (entry ++ leaves.flatten) (walk condition entry leaves).1
      (walk condition entry leaves).2 := by
  induction leaves generalizing entry with
  | nil =>
    unfold walk
    cases hd : entry.dropWhile (! condition ·) with
    | nil => exact ⟨by simp, by simp, by simp [hd]⟩
    | cons e rest =>
      refine ⟨by simp, ?_, by simp⟩
      rintro p ⟨⟩
      simp [hd]
  | cons leaf leaves ih =>
    unfold walk
    cases hd : entry.dropWhile (! condition ·) with
    | nil =>
      have hall : ∀ e ∈ entry, (! condition e) = true := List.dropWhile_eq_nil_iff.mp hd
      have hleaf := ih leaf
      constructor
      · rw [List.takeWhile_append_of_pos hall, List.takeWhile_eq_self_iff.mpr hall]
        exact congrArg (entry ++ ·) hleaf.passed_eq
      · rw [List.dropWhile_append_of_pos hall]
        exact hleaf.stops
      · rw [List.dropWhile_append_of_pos hall]
        exact hleaf.ends
    | cons e rest =>
      have hlen := congrArg List.length
        (List.takeWhile_append_dropWhile (p := (! condition ·)) (l := entry))
      have hshort : (entry.takeWhile (! condition ·)).length ≠ entry.length := by
        rw [hd, List.length_append, List.length_cons] at hlen
        omega
      refine ⟨?_, ?_, by simp⟩
      · simp [List.takeWhile_append, hshort]
      · rintro p ⟨⟩
        simp [List.dropWhile_append, hd]

variable {t : LeafTraveller K}

theorem Stands.ahead_nil (h : t.Stands) : t.ahead = [] ↔ t.position = none := by
  simp only [Stands, ahead] at h ⊢
  split at h
  · rename_i p hp
    simp [hp, h.1]
  · rename_i hp
    simp [hp]

structure Travelled (condition : Item K → Bool) (t t' : LeafTraveller K) : Prop where
  stands : t'.Stands
  ahead : t'.ahead = t.ahead.dropWhile (! condition ·)
  added : t'.added = t.added ++ if t.grab then t.ahead.takeWhile (! condition ·) else []
  grab : t'.grab = t.grab
  destination : t'.destinationComp = t.destinationComp

theorem Stands.travelTo (h : t.Stands) (condition : Item K → Bool) :
    Travelled condition t (t.travelTo condition) := by
  cases hp : t.position with
  | none =>
    have hend : t.endReached = true := by simpa [Stands, hp] using h
    have hnil : t.ahead = [] := h.ahead_nil.mpr hp
    constructor <;> simp [LeafTraveller.travelTo, hend, h, hnil]
  | some p =>
    have hgo : t.endReached = false := by
      simp only [Stands, hp] at h
      exact h.2
    have hahead : t.ahead = p.entry ++ p.nextLeaf.flatten := by simp [LeafTraveller.ahead, hp]
    have hw := walk_walked condition p.entry p.nextLeaf
    rw [← hahead] at hw
    have heq : t.travelTo condition = { t with
        position := (walk condition p.entry p.nextLeaf).2
        endReached := (walk condition p.entry p.nextLeaf).2.isNone
        added := if t.grab then t.added ++ (walk condition p.entry p.nextLeaf).1 else t.added } := by
      simp [LeafTraveller.travelTo, hgo, hp]
    rw [heq]
    cases hs : (walk condition p.entry p.nextLeaf).2 with
    | none =>
      refine ⟨rfl, (hw.ends hs).symm, ?_, rfl, rfl⟩
      rw [← hw.passed_eq]
      simp only
      split <;> simp
    | some q =>
      refine ⟨⟨(hw.stops q hs).1, rfl⟩, (hw.stops q hs).2, ?_, rfl, rfl⟩
      rw [← hw.passed_eq]
      simp only
      split <;> simp

theorem Stands.travelToEnd (h : t.Stands) :
    t.travelToEnd.added = t.added ++ if t.grab then t.ahead else [] := by
  have := (h.travelTo fun _ => false).added
  rw [List.takeWhile_eq_self_iff.mpr (by simp)] at this
  exact this

theorem Stands.grabToEnd (h : t.Stands) :
    (t.setGrab true).travelToEnd.added = t.added ++ t.ahead :=
  Stands.travelToEnd (t := t.setGrab true) h

/-- A traveller that has not come to the end, put on the entry found. -/
theorem stands_setPosition (e : Item K) (rest : List (Item K))
    (next : List (List (Item K))) (h : t.endReached = false) :
    (t.setPosition ⟨e :: rest, next⟩).Stands ∧
      (t.setPosition ⟨e :: rest, next⟩).ahead = e :: (rest ++ next.flatten) :=
  ⟨⟨by simp, h⟩, rfl⟩

section

variable [LinearOrder K] (cmp : OrderedComparator K)

theorem Stands.travelToGreater (h : t.Stands) (junk : K) :
    ∃ key, (∀ e rest, t.ahead = e :: rest → key = e.key) ∧
      Travelled (fun e => cmp.lessThan key e.key) t (t.travelToGreater cmp junk) := by
  refine ⟨_, ?_, h.travelTo _⟩
  intro e rest he
  cases hp : t.position with
  | none => simp [h.ahead_nil.mpr hp] at he
  | some p =>
    obtain ⟨entry, nextLeaf⟩ := p
    cases entry with
    | nil => simp [Stands, hp] at h
    | cons a entry =>
      simp only [LeafTraveller.ahead, hp, List.cons_append, List.cons.injEq] at he
      exact congrArg Item.key he.1

theorem Stands.travelToGreater_from (h : t.Stands) (junk : K) {e : Item K} {rest : List (Item K)}
    (he : t.ahead = e :: rest) :
    Travelled (fun a => cmp.lessThan e.key a.key) t (t.travelToGreater cmp junk) := by
  obtain ⟨key, hkey, hw⟩ := h.travelToGreater cmp junk
  rw [hkey e rest he] at hw
  exact hw

theorem Stands.travelToDestination (h : t.Stands) {destination : K}
    (hd : t.destinationComp = some destination) :
    Travelled (fun e => cmp.lessOrEqual destination e.key) t (t.travelToDestination cmp) ∧
      ∀ e rest, (t.travelToDestination cmp).ahead = e :: rest →
        (t.travelToDestination cmp).destinationExceeded = cmp.lessThan destination e.key := by
  have hw := h.travelTo fun e => cmp.lessOrEqual destination e.key
  simp only [LeafTraveller.travelToDestination, hd]
  split
  · rename_i e entry nextLeaf hp
    refine ⟨⟨hw.stands, hw.ahead, hw.added, hw.grab, hw.destination⟩, ?_⟩
    intro a rest ha
    simp only [LeafTraveller.ahead, hp, List.cons_append, List.cons.injEq] at ha
    rw [ha.1]
  · rename_i hp
    refine ⟨hw, ?_⟩
    intro a rest ha
    cases hq : (t.travelTo fun e => cmp.lessOrEqual destination e.key).position with
    | none => simp [hw.stands.ahead_nil.mpr hq] at ha
    | some q =>
      obtain ⟨entry, nextLeaf⟩ := q
      cases entry with
      | nil => simpa [Stands, hq] using hw.stands
      | cons b entry => exact absurd hq (hp b entry nextLeaf)

end

end LeafTraveller

end Loxim.Indexes
