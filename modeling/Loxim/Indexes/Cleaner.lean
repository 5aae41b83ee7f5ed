import Loxim.Indexes.Comparator
import Loxim.Indexes.VisibilityResolver

/-!
# The cleaner

`clean` walks once over a leaf. It takes out the entries of rolled back
transactions, marks those beyond the horizon, and takes out two entries where
it has met an addition and a deletion of one object. The walk goes by byte
addresses: when two entries are taken out behind its back, it goes on at the
old address.
-/

namespace Loxim.Indexes

structure Item (K : Type) where
  key : K
  entry : RootEntry
  deriving DecidableEq, Repr

namespace Cleaner

variable {K : Type}

/-- Whether the new entry cancels the one in the tree. `none` where the
assertion fails. -/
def putEqualLid (inTree toPut : RootEntry) : Option Bool :=
  if inTree.modyfierTransactionId = toPut.modyfierTransactionId then
    if ¬ (0 < inTree.addTime ∧ 0 < toPut.addTime) ∧ ¬ (0 < inTree.delTime ∧ 0 < toPut.delTime) then
      some true
    else none
  else some false

inductive Fate
  | remove
  | beyond
  | keep
  deriving DecidableEq, Repr

def fate (v : VisibilityResolver) (index : Lid) (tid : Tid) : Fate :=
  if v.isRolledBack tid index then .remove
  else if v.isBeyondHorizon tid then .beyond
  else .keep

/-- The walk has passed `before` and stands at `rest`. `first` is the number of
entries before `firstToRemove`. -/
structure Sweep (K : Type) where
  resolver : VisibilityResolver
  before : List (Item K) := []
  rest : List (Item K)
  lid : Lid
  first : Nat := 0
  add : Bool := false
  del : Bool := false

def stamp (e : Item K) : Item K :=
  { e with entry.modyfierTransactionId := Tid.beyondHorizon }

def bytes (cmp : Comparator K) (l : List (Item K)) : Nat :=
  (l.map fun e => cmp.leafEntrySize e.key).sum

/-- Splits a leaf at an address. `none` where no entry starts there. -/
def seek (cmp : Comparator K) : Nat → List (Item K) → Option (List (Item K) × List (Item K))
  | 0, l => some ([], l)
  | _ + 1, [] => some ([], [])
  | n + 1, e :: l =>
    if cmp.leafEntrySize e.key ≤ n + 1 then
      (seek cmp (n + 1 - cmp.leafEntrySize e.key) l).map fun p => (e :: p.1, p.2)
    else none

namespace Sweep

/-- Starts over at an entry of another object. -/
def enter (s : Sweep K) (lid : Lid) : Sweep K :=
  if lid ≠ s.lid then { s with lid := lid, first := s.before.length, add := false, del := false }
  else s

def note (s : Sweep K) (e : RootEntry) : Sweep K :=
  if e.addTime ≠ nullValue then { s with add := true }
  else if e.delTime ≠ nullValue then { s with del := true }
  else s

/-- Takes out two entries at `firstToRemove` and steps to the entry behind the
one that now stands at the address of `e`. -/
def removePair (cmp : Comparator K) (s : Sweep K) (e : Item K) (rest : List (Item K)) :
    Option (Sweep K) := do
  let left := ((s.before ++ e :: rest).eraseIdx s.first).eraseIdx s.first
  let (before, rest) ← seek cmp (bytes cmp s.before) left
  return { s with before := before ++ rest.take 1, rest := rest.drop 1 }

def step (cmp : Comparator K) (index : Lid) (s : Sweep K) (e : Item K) (rest : List (Item K)) :
    Option (Sweep K) :=
  match fate s.resolver index e.entry.modyfierTransactionId with
  | .remove => do
    let resolver ← s.resolver.entryDropped e.entry.modyfierTransactionId index .rolledBack
    return { s with resolver, rest }
  | .beyond =>
    let s := (s.enter e.entry.logicalID).note e.entry
    if s.add && s.del then s.removePair cmp (stamp e) rest
    else some { s with before := s.before ++ [stamp e], rest := rest }
  | .keep => some { s with before := s.before ++ [e], rest := rest }

def run (cmp : Comparator K) (index : Lid) : Nat → Sweep K → Option (Sweep K)
  | 0, s => some s
  | fuel + 1, s =>
    match s.rest with
    | [] => some s
    | e :: rest => do
      let s ← s.step cmp index e rest
      run cmp index fuel s

end Sweep

/-- The walk moves on by at least one byte each time, so it ends within the
bytes of the leaf. -/
def clean (cmp : Comparator K) (index : Lid) (v : VisibilityResolver) (items : List (Item K)) :
    Option (VisibilityResolver × List (Item K)) :=
  match items with
  | [] => some (v, [])
  | e :: _ => do
    let s ← Sweep.run cmp index (bytes cmp items)
      { resolver := v, rest := items, lid := e.entry.logicalID }
    return (s.resolver, s.before ++ s.rest)

end Cleaner

end Loxim.Indexes
