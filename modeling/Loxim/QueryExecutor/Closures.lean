import Loxim.Lib.Exploring
import Loxim.QueryExecutor.BagOperators

/-!
# Recursive operators

`closeBy` and `leavesBy` evaluate the right argument in the scope of every element of the left one,
and then in the scope of what they got. The unique variants leave out what they have met before.
-/

namespace Loxim.QueryExecutor.QueryResult

open Exploring

inductive ClosureOp
  | closeBy
  | closeUniqueBy
  | leavesBy
  | leavesUniqueBy
deriving DecidableEq

/-- The bags of the loop. `pushed` are the results in whose scopes the right argument has been
evaluated. -/
structure Closure where
  partialResult : List QueryResult
  visitedResult : List QueryResult
  finalResult : List QueryResult
  pushed : List QueryResult

/-- A collection, or a new bag with the result. -/
def collected : QueryResult → QueryResult
  | .sequence l => .sequence l
  | .bag l => .bag l
  | r => .bag (bagAdd [] r).content

/-- What is in the bags before the loop. -/
def Closure.start (op : ClosureOp) (lTmpResult : QueryResult) : Closure :=
  let lResult := lTmpResult.collected
  let added := bagAdd [] lResult
  match op with
  | .closeBy | .closeUniqueBy => ⟨added.content, [], (bagAdd [] added.added).content, []⟩
  | .leavesBy => ⟨added.content, [], [], []⟩
  | .leavesUniqueBy => ⟨added.content, (bagAdd [] added.added).content, [], []⟩

section

variable (text : QueryResult → Text) (op : ClosureOp) (rArg : QueryResult → Except Nat QueryResult)

def isIncluded (elem : QueryResult) (set : List QueryResult) : Bool := set.any (equal text elem)

/-- One element of the new result. It is added to one bag after the other. -/
def Closure.receive (s : Closure) (current : QueryResult) : Closure :=
  let added := bagAdd s.partialResult current
  match op with
  | .closeBy =>
    { s with
      partialResult := added.content
      finalResult := (bagAdd s.finalResult added.added).content }
  | .closeUniqueBy =>
    if isIncluded text current s.finalResult then s
    else
      { s with
        partialResult := added.content
        finalResult := (bagAdd s.finalResult added.added).content }
  | .leavesBy => { s with partialResult := added.content }
  | .leavesUniqueBy =>
    if isIncluded text current s.visitedResult then s
    else
      { s with
        partialResult := added.content
        visitedResult := (bagAdd s.visitedResult added.added).content }

/-- The body of the loop, after `currentResult` has been taken from the front. -/
def Closure.turn (s : Closure) (currentResult : QueryResult) : Except Nat Closure := do
  let newResult ← rArg currentResult
  let s := { s with pushed := s.pushed ++ [currentResult] }
  if (op = .leavesBy ∨ op = .leavesUniqueBy) ∧ newResult.isNothing then
    return { s with finalResult := (bagAdd s.finalResult currentResult).content }
  else return (newResult.collected.contents?.getD []).foldl (receive text op) s

/-- The loop, when it ends within `n` turns. -/
def Closure.run : Nat → Closure → Option (Except Nat Closure)
  | 0, s => if s.partialResult = [] then some (.ok s) else none
  | n + 1, s =>
    match s.partialResult with
    | [] => some (.ok s)
    | currentResult :: partialResult =>
      match turn text op rArg { s with partialResult := partialResult } currentResult with
      | .error error => some (.error error)
      | .ok s => run n s

end

-- ---------------------------------------------------------------------------
-- What the operators are for
-- ---------------------------------------------------------------------------

/-- Neither a bag or a sequence nor nothing. -/
structure Single (r : QueryResult) : Prop where
  contents : r.contents? = none
  present : r.isNothing = false

/-- What the right argument yields in the scope of a value. -/
def yields (step : QueryResult → QueryResult) (v : QueryResult) : List QueryResult := (step v).raw

def leaf (step : QueryResult → QueryResult) (v : QueryResult) : Bool := (yields step v).isEmpty

/-- The values that can be reached and are not equal to an element of `left`, each once. -/
structure Others (text : QueryResult → Text) (step : QueryResult → QueryResult)
    (left others : List QueryResult) : Prop where
  reachable : ∀ v ∈ others, Reachable (yields step) left v
  once : others.Pairwise fun v w => equal text v w = false
  new : ∀ v ∈ others, ∀ w ∈ left, equal text v w = false

variable {text : QueryResult → Text} {op : ClosureOp} {rArg : QueryResult → Except Nat QueryResult}
  {step : QueryResult → QueryResult} {c r v : QueryResult}
  {l bag queue seen expanded left : List QueryResult}

theorem equality (text : QueryResult → Text) : Equality (equal text) where
  refl := (ordered text).refl
  symm := (ordered text).symm
  trans := (ordered text).trans

theorem contents_collected (r : QueryResult) : r.collected.contents?.getD [] = r.raw := by
  cases r with
  | sequence l | bag l => rfl
  | _ => rfl

theorem bagAdd_single (h : Single r) (bag : List QueryResult) : bagAdd bag r = ⟨bag ++ [r], r⟩ := by
  have hunites : Unites bagAdd bag r := bagAdd_unites_iff.mpr fun l hl => by
    rw [h.contents] at hl
    contradiction
  rw [hunites, pieces_of_none h.contents h.present]

/-- Only an empty result is nothing. -/
theorem isNothing_iff_raw (h : ∀ v ∈ r.raw, Single v) : r.isNothing = true ↔ r.raw = [] := by
  constructor
  · intro hnothing
    have hpieces := pieces_of_isNothing hnothing
    rw [← filter_raw, List.filter_eq_nil_iff] at hpieces
    rw [List.eq_nil_iff_forall_not_mem]
    intro v hv
    exact hpieces v hv (by rw [(h v hv).present]; rfl)
  · exact isNothing_of_raw

-- ---------------------------------------------------------------------------
-- The loop as an exploration
-- ---------------------------------------------------------------------------

def ClosureOp.unique : ClosureOp → Bool
  | .closeBy | .leavesBy => false
  | .closeUniqueBy | .leavesUniqueBy => true

/-- What the elements that are yielded add to what is seen. -/
def added (text : QueryResult → Text) (op : ClosureOp) (seen l : List QueryResult) :
    List QueryResult :=
  if op.unique then unseen (equal text) seen l else l

/-- The bags when `seen` is everything that has come, `queue` what is still to be taken up, and
`leaves` what has yielded nothing. -/
def Closure.of (op : ClosureOp) (queue seen leaves pushed : List QueryResult) : Closure :=
  match op with
  | .closeBy | .closeUniqueBy => ⟨queue, [], seen, pushed⟩
  | .leavesBy => ⟨queue, [], leaves, pushed⟩
  | .leavesUniqueBy => ⟨queue, seen, leaves, pushed⟩

theorem start_eq (op : ClosureOp) (r : QueryResult) :
    Closure.start op r = .of op r.raw r.raw [] [] := by
  have hadd : bagAdd [] r.collected = ⟨r.raw, r.collected⟩ := by
    cases r with
    | sequence l | bag l => rfl
    | _ => rfl
  cases op <;> simp only [Closure.start, Closure.of, hadd]

theorem added_cons (text : QueryResult → Text) (op : ClosureOp) (seen l : List QueryResult)
    (c : QueryResult) : added text op seen (c :: l) =
      if op.unique ∧ isIncluded text c seen then added text op seen l
      else c :: added text op (seen ++ [c]) l := by
  rw [added, added, added, isIncluded]
  cases op.unique with
  | false => rfl
  | true =>
    rw [if_pos rfl, unseen]
    simp

theorem mem_of_mem_added (h : v ∈ added text op seen l) : v ∈ l := by
  rw [added] at h
  split at h
  · exact mem_of_mem_unseen h
  · exact h

theorem receive_eq (hc : Single c) (leaves pushed : List QueryResult) :
    Closure.receive text op (.of op queue seen leaves pushed) c =
      if op.unique ∧ isIncluded text c seen then .of op queue seen leaves pushed
      else .of op (queue ++ [c]) (seen ++ [c]) leaves pushed := by
  cases op with
  | closeBy | leavesBy => simp [Closure.receive, Closure.of, bagAdd_single hc, ClosureOp.unique]
  | closeUniqueBy | leavesUniqueBy =>
    simp only [Closure.receive, Closure.of, bagAdd_single hc, ClosureOp.unique, true_and]

theorem foldl_receive (hl : ∀ v ∈ l, Single v) (leaves pushed : List QueryResult) :
    l.foldl (Closure.receive text op) (.of op queue seen leaves pushed) =
      .of op (queue ++ added text op seen l) (seen ++ added text op seen l) leaves pushed := by
  induction l generalizing queue seen with
  | nil => simp [added, unseen]
  | cons c l ih =>
    obtain ⟨hc, hrest⟩ := List.forall_mem_cons.mp hl
    rw [List.foldl_cons, receive_eq hc, added_cons]
    split
    · exact ih hrest
    · rw [ih hrest, List.append_assoc, List.append_assoc]
      rfl

/-- What yields nothing is kept by the operators on leaves. -/
theorem turn_eq {a : QueryResult} (harg : rArg a = .ok (step a))
    (hyields : ∀ v ∈ yields step a, Single v) (ha : Single a) (leaves pushed : List QueryResult) :
    Closure.turn text op rArg (.of op queue seen leaves pushed) a =
      .ok (.of op (queue ++ added text op seen (yields step a))
        (seen ++ added text op seen (yields step a))
        (leaves ++ [a].filter (leaf step)) (pushed ++ [a])) := by
  have hpushed : { Closure.of op queue seen leaves pushed with
      pushed := (Closure.of op queue seen leaves pushed).pushed ++ [a] } =
        .of op queue seen leaves (pushed ++ [a]) := by
    cases op <;> rfl
  rw [Closure.turn, harg]
  simp only [bind, Except.bind, pure, Except.pure, hpushed, contents_collected]
  by_cases hnothing : (step a).isNothing = true
  · have hraw : (step a).raw = [] := (isNothing_iff_raw hyields).mp hnothing
    have hleaf : leaf step a = true := by rw [leaf, yields, hraw]; rfl
    have hadded : added text op seen (yields step a) = [] := by
      rw [yields, hraw]
      cases op <;> rfl
    rw [hadded, hraw, List.append_nil, List.append_nil, List.filter_cons_of_pos hleaf,
      List.filter_nil]
    cases op with
    | closeBy | closeUniqueBy => rw [if_neg (by simp)]; rfl
    | leavesBy | leavesUniqueBy =>
      rw [if_pos ⟨by simp, hnothing⟩]
      simp only [Closure.of, bagAdd_single ha]
  · have hleaf : ¬leaf step a = true := by
      rw [leaf, List.isEmpty_iff]
      exact fun hraw => hnothing ((isNothing_iff_raw hyields).mpr hraw)
    rw [if_neg fun h => hnothing h.2, List.filter_cons_of_neg hleaf, List.filter_nil,
      List.append_nil]
    exact congrArg Except.ok (foldl_receive hyields leaves (pushed ++ [a]))

theorem run_eq (harg : ∀ v, Reachable (yields step) left v → rArg v = .ok (step v))
    (hsingle : ∀ v, Reachable (yields step) left v → Single v) {n : Nat}
    (hqueue : ∀ v ∈ queue, Reachable (yields step) left v) :
    Closure.run text op rArg n
        (.of op queue (expanded ++ queue) (expanded.filter (leaf step)) expanded) =
      (walk (fun seen a => added text op seen (yields step a)) n queue (expanded ++ queue)).map
        fun rest => .ok (.of op [] (expanded ++ rest) ((expanded ++ rest).filter (leaf step))
          (expanded ++ rest)) := by
  have hpartial (queue seen leaves pushed : List QueryResult) :
      (Closure.of op queue seen leaves pushed).partialResult = queue := by
    cases op <;> rfl
  induction n generalizing expanded queue with
  | zero =>
    rw [Closure.run, hpartial]
    cases queue with
    | nil => simp [walk]
    | cons a queue => rfl
  | succ n ih =>
    cases queue with
    | nil => simp [Closure.run, hpartial, walk]
    | cons a queue =>
      have ha := hqueue a List.mem_cons_self
      have hyields (v : QueryResult) (hv : v ∈ yields step a) : Reachable (yields step) left v :=
        .next ha hv
      have htaken : { Closure.of op (a :: queue) (expanded ++ a :: queue)
          (expanded.filter (leaf step)) expanded with partialResult := queue } =
            .of op queue (expanded ++ a :: queue) (expanded.filter (leaf step)) expanded := by
        cases op <;> rfl
      have hturn := @turn_eq text op rArg step queue (expanded ++ a :: queue) a (harg a ha)
        (fun v hv => hsingle v (hyields v hv)) (hsingle a ha) (expanded.filter (leaf step))
        expanded
      have hnext := @ih (queue ++ added text op (expanded ++ a :: queue) (yields step a))
        (expanded ++ [a]) (by
          intro v hv
          rcases List.mem_append.mp hv with hv | hv
          · exact hqueue v (List.mem_cons_of_mem a hv)
          · exact hyields v (mem_of_mem_added hv))
      have hseen : expanded ++ [a] ++
          (queue ++ added text op (expanded ++ a :: queue) (yields step a)) =
            (expanded ++ a :: queue) ++ added text op (expanded ++ a :: queue) (yields step a) := by
        simp
      rw [hseen, List.filter_append] at hnext
      simp only [Closure.run, hpartial, htaken, hturn, hnext, walk, Option.map_map]
      simp [Function.comp_def]

-- ---------------------------------------------------------------------------
-- The operators compute what can be reached
-- ---------------------------------------------------------------------------

theorem leaf_congr (hcongr : Congruent (equal text) (yields step) left) {a b : QueryResult}
    (ha : Reachable (yields step) left a) (hb : Reachable (yields step) left b)
    (hab : equal text a b = true) : leaf step a = leaf step b := by
  have hone {a b : QueryResult} (ha : Reachable (yields step) left a)
      (hb : Reachable (yields step) left b) (hab : equal text a b = true)
      (hleaf : leaf step b = true) : leaf step a = true := by
    rw [leaf, List.isEmpty_iff] at hleaf ⊢
    rw [List.eq_nil_iff_forall_not_mem]
    intro c hc
    obtain ⟨d, hd, -⟩ := hcongr a b ha hb hab c hc
    rw [hleaf] at hd
    exact List.not_mem_nil hd
  rw [Bool.eq_iff_iff]
  exact ⟨hone hb ha ((ordered text).symm hab), hone ha hb hab⟩

def oneTwo : QueryResult → QueryResult
  | .int 1 => .bag [.int 2]
  | .int 2 => .bag [.int 1]
  | _ => .bag []

theorem reachable_oneTwo {v : QueryResult} (h : Reachable (yields oneTwo) [.int 1] v) :
    v ∈ [QueryResult.int 1, .int 2] := by
  refine h.mem (by simp) ?_
  simp [oneTwo, yields, raw, contents?]

/-- The result of `closeUniqueBy` has every value that can be reached. -/
def ReturnsReachable (text : QueryResult → Text) (step : QueryResult → QueryResult)
    (lArg : QueryResult) : Prop :=
  ∀ n s, (Closure.start .closeUniqueBy lArg).run text .closeUniqueBy (fun v => .ok (step v)) n =
    some (.ok s) →
      ∀ v, Reachable (yields step) lArg.raw v → ∃ w ∈ s.finalResult, equal text v w = true

theorem letter_lt : 120 < 256 := by decide

def named (r : QueryResult) : QueryResult := .binder [⟨120, letter_lt⟩] r

/-- From 1 it goes on to two equal values, only the second of which yields 7. -/
def sensitive : QueryResult → QueryResult
  | .binder _ (.int 1) =>
    .bag [named (.sequence [.int 1, .int 2]), named (.sequence [.int 2, .int 1])]
  | .binder _ (.sequence [.int 2, .int 1]) => .bag [named (.int 7)]
  | _ => .bag []

/-- It yields a bag as an element, and nothing. -/
def nested : QueryResult → QueryResult
  | .int 1 => .bag [.bag [.int 5], .nothing]
  | _ => .bag []

theorem covers_sensitive : Covers (equal fun _ => []) (yields sensitive) [named (.int 1)]
    [named (.int 1), named (.sequence [.int 1, .int 2]), named (.sequence [.int 2, .int 1]),
      named (.int 7)] := by
  intro v hv
  refine ⟨v, hv.mem (by simp) ?_, (ordered _).refl v⟩
  simp [sensitive, yields, raw, contents?, named]

theorem covers_nested : Covers (equal fun _ => []) (yields nested) [.int 1, .int 2]
    [.int 1, .int 2, .bag [.int 5], .nothing] := by
  intro v hv
  refine ⟨v, hv.mem (by simp) ?_, (ordered _).refl v⟩
  simp [nested, yields, raw, contents?]

end Loxim.QueryExecutor.QueryResult
