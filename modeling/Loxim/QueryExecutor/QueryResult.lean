import Mathlib.Data.Rat.Lemmas
import Mathlib.Data.Prod.Lex
import Loxim.Lib.Sorting

/-!
# Results of queries and their order

Results of different types are compared by their types, numbers by their values, and
bags, sequences and structs element by element after they have been sorted. Sorting
compares the elements in the same way, so the depth of the results bounds the calls.
-/

namespace Loxim.QueryExecutor

/-- The bytes of a string. -/
abbrev Text := List (Fin 256)

/-- A binder has its item. Of a virtual object there is its name, the definitions of its
views and its seeds. -/
inductive QueryResult
  | reference (value : UInt32)
  | virtual (voName : Text) (viewDefs : List UInt32) (seeds : List QueryResult)
  | string (value : Text)
  | int (value : Int)
  | double (value : ℚ)
  | bool (value : Bool)
  | binder (name : Text) (item : QueryResult)
  | struct (str : List QueryResult)
  | bag (bag : List QueryResult)
  | sequence (seq : List QueryResult)
  | nothing

namespace QueryResult

/-- `QueryResultType`. -/
def type : QueryResult → Nat
  | .reference _ => 1
  | .virtual .. => 2
  | .string _ => 3
  | .int _ => 4
  | .double _ => 5
  | .bool _ => 6
  | .binder .. => 7
  | .struct _ => 8
  | .bag _ => 9
  | .sequence _ => 10
  | .nothing => 11

mutual

def depth : QueryResult → Nat
  | .binder _ item => item.depth + 1
  | .struct l | .bag l | .sequence l => depths l + 1
  | .reference _ | .virtual .. | .string _ | .int _ | .double _ | .bool _ | .nothing => 1

def depths : List QueryResult → Nat
  | [] => 0
  | r :: l => max r.depth (depths l)

end

section

-- `toString(0, true)`
variable (text : QueryResult → Text)

/-- Containers have the same size and are equal element by element when sorted. -/
def equalElements (eq lt : QueryResult → QueryResult → Bool) (l l' : List QueryResult) : Bool :=
  if l'.length ≠ l.length then false else equalLoop eq (sort lt l) (sort lt l')

def lessElements (lt gt : QueryResult → QueryResult → Bool) (l l' : List QueryResult) : Bool :=
  if l'.length ≠ l.length then decide (l.length < l'.length)
  else lessLoop lt gt (sort lt l) (sort lt l')

mutual

/-- `equal` of results down to a depth. -/
def equalAt : Nat → QueryResult → QueryResult → Bool
  | 0, _, _ => true
  | n + 1, a, b =>
    match a, b with
    | .sequence l, .sequence l' | .bag l, .bag l' | .struct l, .struct l' =>
      equalElements (equalAt n) (lessThanAt n) l l'
    | .binder name item, .binder name' item' =>
      if name ≠ name' then false else equalAt n item item'
    | .string v, .string v' => decide (v = v')
    | .int v, .int v' => decide (v = v')
    | .int v, .double v' => decide ((v : ℚ) = v')
    | .double v, .int v' => decide (v = (v' : ℚ))
    | .double v, .double v' => decide (v = v')
    | .bool v, .bool v' => decide (v = v')
    | .reference v, .reference v' => decide (v.toNat = v'.toNat)
    | .nothing, .nothing => true
    | .virtual n d s, .virtual n' d' s' => decide (text (.virtual n d s) = text (.virtual n' d' s'))
    | _, _ => false

/-- `less_than` of results down to a depth. -/
def lessThanAt : Nat → QueryResult → QueryResult → Bool
  | 0, _, _ => false
  | n + 1, a, b =>
    match a, b with
    | .sequence l, .sequence l' | .bag l, .bag l' | .struct l, .struct l' =>
      lessElements (lessThanAt n) (fun x y => !(equalAt n x y || lessThanAt n x y)) l l'
    | .binder name item, .binder name' item' =>
      if name ≠ name' then decide (name < name') else lessThanAt n item item'
    | .string v, .string v' => decide (v < v')
    | .int v, .int v' => decide (v < v')
    | .int v, .double v' => decide ((v : ℚ) < v')
    | .double v, .int v' => decide (v < (v' : ℚ))
    | .double v, .double v' => decide (v < v')
    | .bool v, .bool v' => decide (v < v')
    | .reference v, .reference v' => decide (v.toNat < v'.toNat)
    | .nothing, .nothing => false
    | .virtual n d s, .virtual n' d' s' => decide (text (.virtual n d s) < text (.virtual n' d' s'))
    | a, b => decide (a.type < b.type)

end

def equal (a b : QueryResult) : Bool := equalAt text (max a.depth b.depth) a b

def lessThan (a b : QueryResult) : Bool := lessThanAt text (max a.depth b.depth) a b

def notEqual (a b : QueryResult) : Bool := !equal text a b

def greaterThan (a b : QueryResult) : Bool := !(equal text a b || lessThan text a b)

def greaterEq (a b : QueryResult) : Bool := !lessThan text a b

def lessEq (a b : QueryResult) : Bool := equal text a b || lessThan text a b

end

-- ---------------------------------------------------------------------------
-- The order of orderBy
-- ---------------------------------------------------------------------------

def isNothing : QueryResult → Bool
  | .sequence [] | .bag [] | .struct [] => true
  | .sequence [r] | .bag [r] | .struct [r] => r.isNothing
  | .sequence (_ :: _ :: _) | .bag (_ :: _ :: _) | .struct (_ :: _ :: _) => false
  | .nothing => true
  | .reference _ | .virtual .. | .string _ | .int _ | .double _ | .bool _ | .binder .. => false

/-- A new struct to which a result has been added. -/
def addResult : QueryResult → List QueryResult
  | .struct l => l.filter fun r => !r.isNothing
  | r => if r.isNothing then [] else [r]

/-- The rows of a bag that is ordered are structs of an element and what it is ordered by. -/
def sortingStrictLess (text : QueryResult → Text) (row row' : List QueryResult) : Bool :=
  match row[1]?, row'[1]? with
  | some left, some right =>
    let leftOrderSeq := left.addResult
    let rightOrderSeq := right.addResult
    if leftOrderSeq.length < rightOrderSeq.length then true
    else if rightOrderSeq.length < leftOrderSeq.length then false
    else lessLoop (lessThan text) (greaterThan text) leftOrderSeq rightOrderSeq
  | _, _ => false

end QueryResult

end Loxim.QueryExecutor
