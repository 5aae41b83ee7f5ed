import Mathlib.Data.List.Basic
import Mathlib.Logic.Function.Basic

/-!
# Virtual objects that are sent to the client

The client gets a reference in place of a virtual object, with an id out of a range of its own.
Which objects are one is told by the text that is printed of them.
-/

namespace Loxim.QueryExecutor.SentVirtuals

/-- A virtual object has the definition of its view and those of the views around it. -/
inductive Result (ρ : Type)
  | reference (value : UInt32) (refed : Bool)
  | virtual (voName : String) (viewDef : UInt32) (viewDefs : List UInt32) (seeds : List (Result ρ))
    (viewParent : Option UInt32)
  | string (value : String)
  | int (value : BitVec 32)
  | double (value : ρ)
  | bool (value : Bool)
  | binder (name : String) (item : Result ρ)
  | struct (str : List (Result ρ))
  | bag (bag : List (Result ρ))
  | sequence (seq : List (Result ρ))
  | nothing

namespace Result

variable {ρ : Type}

def isNothing : Result ρ → Bool
  | .sequence [] | .bag [] | .struct [] => true
  | .sequence [r] | .bag [r] | .struct [r] => r.isNothing
  | .sequence (_ :: _ :: _) | .bag (_ :: _ :: _) | .struct (_ :: _ :: _) => false
  | .nothing => true
  | .reference .. | .virtual .. | .string _ | .int _ | .double _ | .bool _ | .binder .. => false

def present (l : List (Result ρ)) : List (Result ρ) := l.filter fun r => !r.isNothing

/-- The receivers of `addResult` afterwards. -/
def structAdd (str : List (Result ρ)) : Result ρ → List (Result ρ)
  | .struct l => str ++ present l
  | r => str ++ present [r]

def sequenceAdd (seq : List (Result ρ)) : Result ρ → List (Result ρ)
  | .sequence l | .bag l => seq ++ present l
  | r => seq ++ present [r]

def bagAdd (bag : List (Result ρ)) : Result ρ → List (Result ρ)
  | .sequence l | .bag l => if bag.length = 0 then l else bag ++ present l
  | r => bag ++ present [r]

-- ---------------------------------------------------------------------------
-- The text
-- ---------------------------------------------------------------------------

def getPrefixForLevel (level : Nat) (name : String) : String :=
  if 0 < level then
    String.join (List.replicate level " |") ++ name ++ "\n" ++
      String.join (List.replicate (level - 1) " |") ++ " +-"
  else ""

section

variable (digits : ρ → String)

mutual

/-- `digits` prints a real number. Of the views there is only the first. -/
def toString : Result ρ → Nat → Bool → String → String
  | .reference value refed, level, _, n =>
    getPrefixForLevel level n ++ "[Ref] refed=" ++ (if refed then "true" else "false") ++
      ", value=" ++ value.toNat.repr ++ "\n"
  | .virtual voName viewDef _ seeds _, level, recursive, n =>
    getPrefixForLevel level n ++ "[Virtual] name=" ++ voName ++ " definition lid=" ++
      viewDef.toNat.repr ++ "\n" ++ seedsToString seeds level recursive n
  | .string value, level, _, n => getPrefixForLevel level n ++ "[String] value='" ++ value ++ "'\n"
  | .int value, level, _, n =>
    getPrefixForLevel level n ++ "[Int] value=" ++ value.toInt.repr ++ "\n"
  | .double value, level, _, n =>
    getPrefixForLevel level n ++ "[Double] value=" ++ digits value ++ "\n"
  | .bool value, level, _, n =>
    getPrefixForLevel level n ++ "[Bool] value=" ++ (if value then "true" else "false") ++ "\n"
  | .binder name item, level, recursive, n =>
    getPrefixForLevel level n ++ "[Binder] name='" ++ name ++ "'\n" ++
      if recursive then item.toString (level + 1) true "item" else ""
  | .struct l, level, recursive, n =>
    getPrefixForLevel level n ++ "[Struct]\n" ++
      if recursive then partsToString l (level + 1) "struct_elem" else ""
  | .bag l, level, recursive, n =>
    getPrefixForLevel level n ++ "[Bag] size=" ++ l.length.repr ++ "\n" ++
      if recursive then partsToString l (level + 1) "bag_elem" else ""
  | .sequence l, level, recursive, n =>
    getPrefixForLevel level n ++ "[Sequence]\n" ++
      if recursive then partsToString l (level + 1) "seq_elem" else ""
  | .nothing, level, _, n => getPrefixForLevel level n ++ "[Nothing]\n"

def partsToString : List (Result ρ) → Nat → String → String
  | [], _, _ => ""
  | r :: l, level, name => r.toString level true name ++ partsToString l level name

def seedsToString : List (Result ρ) → Nat → Bool → String → String
  | [], _, _, _ => ""
  | r :: l, level, recursive, n =>
    getPrefixForLevel (level + 1) n ++ "  [seed] " ++ r.toString level recursive n ++ "\n" ++
      seedsToString l level recursive n

end

/-- What tells objects apart. -/
def text (r : Result ρ) : String := r.toString digits 0 true ""

end

end Result

-- ---------------------------------------------------------------------------
-- The two directions
-- ---------------------------------------------------------------------------

/-- `QE_VIRTUALS_TO_SEND_MIN_ID`. -/
def minId : Nat := 0xFE000000

/-- `QE_VIRTUALS_TO_SEND_MAX_COUNT`. -/
def maxCount : Nat := 0x01000000

/-- An error code, or the exception of a vector that is read beyond its end. -/
inductive Fault
  | unexpectedErr
  | otherResExp
  | outOfRange
deriving DecidableEq

structure Sent (ρ : Type) where
  fakeLidMap : String → Option UInt32 := fun _ => none
  sentVirtuals : List (Result ρ) := []

section

variable {ρ : Type}

mutual

/-- A result is gone through, its parts are put together again by `addResult`, and `leaf` says what
becomes of what has no parts. -/
def rebuild (leaf : Result ρ → Sent ρ → Except Fault (Result ρ) × Sent ρ) :
    Result ρ → Sent ρ → Except Fault (Result ρ) × Sent ρ
  | .sequence l, st =>
    match rebuildAll leaf Result.sequenceAdd l [] st with
    | (.error fault, st) => (.error fault, st)
    | (.ok res, st) => (.ok (.sequence res), st)
  | .bag l, st =>
    match rebuildAll leaf Result.bagAdd l [] st with
    | (.error fault, st) => (.error fault, st)
    | (.ok res, st) => (.ok (.bag res), st)
  | .struct l, st =>
    match rebuildAll leaf Result.structAdd l [] st with
    | (.error fault, st) => (.error fault, st)
    | (.ok res, st) => (.ok (.struct res), st)
  | .binder name item, st =>
    match rebuild leaf item st with
    | (.error fault, st) => (.error fault, st)
    | (.ok res, st) => (.ok (.binder name res), st)
  | .reference value refed, st => leaf (.reference value refed) st
  | .virtual voName viewDef viewDefs seeds viewParent, st =>
    leaf (.virtual voName viewDef viewDefs seeds viewParent) st
  | .string value, st => leaf (.string value) st
  | .int value, st => leaf (.int value) st
  | .double value, st => leaf (.double value) st
  | .bool value, st => leaf (.bool value) st
  | .nothing, st => leaf .nothing st

def rebuildAll (leaf : Result ρ → Sent ρ → Except Fault (Result ρ) × Sent ρ)
    (add : List (Result ρ) → Result ρ → List (Result ρ)) :
    List (Result ρ) → List (Result ρ) → Sent ρ → Except Fault (List (Result ρ)) × Sent ρ
  | [], res, st => (.ok res, st)
  | item :: l, res, st =>
    match rebuild leaf item st with
    | (.error fault, st) => (.error fault, st)
    | (.ok r, st) => rebuildAll leaf add l (add res r) st

end

variable (digits : ρ → String)

/-- A virtual object is sent. -/
def send (v : Result ρ) (st : Sent ρ) : Except Fault (Result ρ) × Sent ρ :=
  match st.fakeLidMap (v.text digits) with
  | some lid => (.ok (.reference lid false), st)
  | none =>
    if maxCount ≤ st.sentVirtuals.length then (.error .unexpectedErr, st)
    else
      let lid := UInt32.ofNat (minId + st.sentVirtuals.length)
      (.ok (.reference lid false),
        { fakeLidMap := Function.update st.fakeLidMap (v.text digits) (some lid)
          sentVirtuals := st.sentVirtuals ++ [v] })

def sendLeaf : Result ρ → Sent ρ → Except Fault (Result ρ) × Sent ρ
  | .virtual voName viewDef viewDefs seeds viewParent, st =>
    send digits (.virtual voName viewDef viewDefs seeds viewParent) st
  | r, st => (.ok r, st)

def deVirtualize : Result ρ → Sent ρ → Except Fault (Result ρ) × Sent ρ :=
  rebuild (sendLeaf digits)

/-- The id is one for a virtual object. -/
def Reserved (lid : UInt32) : Prop := minId ≤ lid.toNat ∧ lid.toNat < minId + maxCount

instance (lid : UInt32) : Decidable (Reserved lid) := inferInstanceAs (Decidable (_ ∧ _))

def backLeaf : Result ρ → Sent ρ → Except Fault (Result ρ) × Sent ρ
  | .reference lid refed, st =>
    if Reserved lid then
      match st.sentVirtuals[lid.toNat - minId]? with
      | none => (.error .outOfRange, st)
      | some v => (.ok v, st)
    else (.ok (.reference lid refed), st)
  | .virtual .., st => (.error .otherResExp, st)
  | r, st => (.ok r, st)

def reVirtualize : Result ρ → Sent ρ → Except Fault (Result ρ) × Sent ρ := rebuild backLeaf

end

-- ---------------------------------------------------------------------------
-- Results part by part
-- ---------------------------------------------------------------------------

namespace Result

variable {ρ : Type}

def isLeaf : Result ρ → Bool
  | .sequence _ | .bag _ | .struct _ | .binder .. => false
  | .reference .. | .virtual .. | .string _ | .int _ | .double _ | .bool _ | .nothing => true

def isVirtual : Result ρ → Bool
  | .virtual .. => true
  | .reference .. | .string _ | .int _ | .double _ | .bool _ | .binder .. | .struct _ | .bag _
  | .sequence _ | .nothing => false

def isCollection : Result ρ → Bool
  | .sequence _ | .bag _ => true
  | .reference .. | .virtual .. | .string _ | .int _ | .double _ | .bool _ | .binder .. | .struct _
  | .nothing => false

def isStruct : Result ρ → Bool
  | .struct _ => true
  | .reference .. | .virtual .. | .string _ | .int _ | .double _ | .bool _ | .binder .. | .bag _
  | .sequence _ | .nothing => false

mutual

/-- As queries build them: no part of a collection is a collection or nothing, and no part of a
struct is a struct or nothing. -/
def Built : Result ρ → Prop
  | .sequence l => AllBuilt isCollection l
  | .bag l => AllBuilt isCollection l
  | .struct l => AllBuilt isStruct l
  | .binder _ item => item.Built
  | .reference .. | .virtual .. | .string _ | .int _ | .double _ | .bool _ | .nothing => True

def AllBuilt (merged : Result ρ → Bool) : List (Result ρ) → Prop
  | [] => True
  | r :: l => (r.Built ∧ r.isNothing = false ∧ merged r = false) ∧ AllBuilt merged l

end

mutual

/-- The parts that have no parts, from the left to the right. -/
def leaves : Result ρ → List (Result ρ)
  | .sequence l => allLeaves l
  | .bag l => allLeaves l
  | .struct l => allLeaves l
  | .binder _ item => item.leaves
  | .reference value refed => [.reference value refed]
  | .virtual voName viewDef viewDefs seeds viewParent =>
    [.virtual voName viewDef viewDefs seeds viewParent]
  | .string value => [.string value]
  | .int value => [.int value]
  | .double value => [.double value]
  | .bool value => [.bool value]
  | .nothing => [.nothing]

def allLeaves : List (Result ρ) → List (Result ρ)
  | [] => []
  | r :: l => r.leaves ++ allLeaves l

end

def virtuals (r : Result ρ) : List (Result ρ) := r.leaves.filter isVirtual

end Result

open Result

section

variable {ρ : Type}

mutual

/-- Two results that differ in what has no parts only, and there as `P` says. -/
inductive Pieces (P : Result ρ → Result ρ → Prop) : Result ρ → Result ρ → Prop
  | sequence {l l' : List (Result ρ)} (h : AllPieces P l l') : Pieces P (.sequence l) (.sequence l')
  | bag {l l' : List (Result ρ)} (h : AllPieces P l l') : Pieces P (.bag l) (.bag l')
  | struct {l l' : List (Result ρ)} (h : AllPieces P l l') : Pieces P (.struct l) (.struct l')
  | binder {name : String} {r r' : Result ρ} (h : Pieces P r r') :
    Pieces P (.binder name r) (.binder name r')
  | leaf {r r' : Result ρ} (hr : r.isLeaf = true) (hr' : r'.isLeaf = true)
    (hnothing : r'.isNothing = r.isNothing) (h : P r r') : Pieces P r r'

inductive AllPieces (P : Result ρ → Result ρ → Prop) : List (Result ρ) → List (Result ρ) → Prop
  | nil : AllPieces P [] []
  | cons {r r' : Result ρ} {l l' : List (Result ρ)} (h : Pieces P r r') (hl : AllPieces P l l') :
    AllPieces P (r :: l) (r' :: l')

end

variable {leaf : Result ρ → Sent ρ → Except Fault (Result ρ) × Sent ρ}
  {add : List (Result ρ) → Result ρ → List (Result ρ)} {st st' : Sent ρ} {r r' : Result ρ}
  {l l' : List (Result ρ)} {P : Result ρ → Result ρ → Prop} {merged : Result ρ → Bool}

-- ---------------------------------------------------------------------------
-- What going through a result keeps
-- ---------------------------------------------------------------------------

/-- What `leaf` does to the state for every part in turn. -/
structure Frame (leaf : Result ρ → Sent ρ → Except Fault (Result ρ) × Sent ρ)
    (R : Sent ρ → Sent ρ → Prop) : Prop where
  refl (st : Sent ρ) : R st st
  trans {st st' st'' : Sent ρ} : R st st' → R st' st'' → R st st''
  step (r : Result ρ) (st : Sent ρ) : R st (leaf r st).2

mutual

theorem rebuild_frame {R : Sent ρ → Sent ρ → Prop} (h : Frame leaf R) :
    ∀ (r : Result ρ) (st : Sent ρ), R st (rebuild leaf r st).2
  | .sequence l, st => by
    have hall := rebuildAll_frame h sequenceAdd l [] st
    rw [rebuild]
    generalize rebuildAll leaf sequenceAdd l [] st = res at hall ⊢
    obtain ⟨_ | _, _⟩ := res <;> exact hall
  | .bag l, st => by
    have hall := rebuildAll_frame h bagAdd l [] st
    rw [rebuild]
    generalize rebuildAll leaf bagAdd l [] st = res at hall ⊢
    obtain ⟨_ | _, _⟩ := res <;> exact hall
  | .struct l, st => by
    have hall := rebuildAll_frame h structAdd l [] st
    rw [rebuild]
    generalize rebuildAll leaf structAdd l [] st = res at hall ⊢
    obtain ⟨_ | _, _⟩ := res <;> exact hall
  | .binder name item, st => by
    have hitem := rebuild_frame h item st
    rw [rebuild]
    generalize rebuild leaf item st = res at hitem ⊢
    obtain ⟨_ | _, _⟩ := res <;> exact hitem
  | .reference value refed, st => h.step _ st
  | .virtual .., st => h.step _ st
  | .string value, st => h.step _ st
  | .int value, st => h.step _ st
  | .double value, st => h.step _ st
  | .bool value, st => h.step _ st
  | .nothing, st => h.step _ st

theorem rebuildAll_frame {R : Sent ρ → Sent ρ → Prop} (h : Frame leaf R)
    (add : List (Result ρ) → Result ρ → List (Result ρ)) :
    ∀ (l res : List (Result ρ)) (st : Sent ρ), R st (rebuildAll leaf add l res st).2
  | [], _, st => h.refl st
  | item :: l, res, st => by
    have hitem := rebuild_frame h item st
    rw [rebuildAll]
    generalize rebuild leaf item st = result at hitem ⊢
    obtain ⟨error | r, st₁⟩ := result
    · exact hitem
    · exact h.trans hitem (rebuildAll_frame h add l (add res r) st₁)

end

-- ---------------------------------------------------------------------------
-- Results that keep their shape
-- ---------------------------------------------------------------------------

mutual

theorem Pieces.mono {Q : Result ρ → Result ρ → Prop} (hPQ : ∀ r r', P r r' → Q r r') :
    ∀ {r r' : Result ρ}, Pieces P r r' → Pieces Q r r'
  | _, _, .sequence h => .sequence (AllPieces.mono hPQ h)
  | _, _, .bag h => .bag (AllPieces.mono hPQ h)
  | _, _, .struct h => .struct (AllPieces.mono hPQ h)
  | _, _, .binder h => .binder (Pieces.mono hPQ h)
  | _, _, .leaf hr hr' hnothing h => .leaf hr hr' hnothing (hPQ _ _ h)

theorem AllPieces.mono {Q : Result ρ → Result ρ → Prop} (hPQ : ∀ r r', P r r' → Q r r') :
    ∀ {l l' : List (Result ρ)}, AllPieces P l l' → AllPieces Q l l'
  | _, _, .nil => .nil
  | _, _, .cons h hl => .cons (Pieces.mono hPQ h) (AllPieces.mono hPQ hl)

end

theorem Pieces.isNothing_eq : ∀ {r r' : Result ρ}, Pieces P r r' → r'.isNothing = r.isNothing
  | _, _, .sequence .nil => rfl
  | _, _, .sequence (.cons h .nil) => by
    have hpart := Pieces.isNothing_eq h
    exact hpart
  | _, _, .sequence (.cons _ (.cons _ _)) => rfl
  | _, _, .bag .nil => rfl
  | _, _, .bag (.cons h .nil) => by
    have hpart := Pieces.isNothing_eq h
    exact hpart
  | _, _, .bag (.cons _ (.cons _ _)) => rfl
  | _, _, .struct .nil => rfl
  | _, _, .struct (.cons h .nil) => by
    have hpart := Pieces.isNothing_eq h
    exact hpart
  | _, _, .struct (.cons _ (.cons _ _)) => rfl
  | _, _, .binder _ => rfl
  | _, _, .leaf _ _ hnothing _ => hnothing

theorem Pieces.isCollection_eq (h : Pieces P r r') : r'.isCollection = r.isCollection := by
  cases h with
  | leaf hr hr' _ _ =>
    cases r <;> cases hr <;> cases r' <;> cases hr' <;> rfl
  | _ => rfl

theorem Pieces.isStruct_eq (h : Pieces P r r') : r'.isStruct = r.isStruct := by
  cases h with
  | leaf hr hr' _ _ =>
    cases r <;> cases hr <;> cases r' <;> cases hr' <;> rfl
  | _ => rfl

/-- A receiver of parts: what is not merged goes to the end. -/
structure Receives (add : List (Result ρ) → Result ρ → List (Result ρ))
    (merged : Result ρ → Bool) : Prop where
  add_eq {res : List (Result ρ)} {r : Result ρ} : r.isNothing = false → merged r = false →
    add res r = res ++ [r]
  kind {P : Result ρ → Result ρ → Prop} {r r' : Result ρ} : Pieces P r r' → merged r' = merged r

theorem receives_sequence : Receives (ρ := ρ) sequenceAdd isCollection where
  add_eq {res r} hnothing hmerged := by
    cases r with
    | sequence _ | bag _ => contradiction
    | _ => simp [sequenceAdd, present, hnothing]
  kind := Pieces.isCollection_eq

theorem receives_bag : Receives (ρ := ρ) bagAdd isCollection where
  add_eq {res r} hnothing hmerged := by
    cases r with
    | sequence _ | bag _ => contradiction
    | _ => simp [bagAdd, present, hnothing]
  kind := Pieces.isCollection_eq

theorem receives_struct : Receives (ρ := ρ) structAdd isStruct where
  add_eq {res r} hnothing hmerged := by
    cases r with
    | struct _ => contradiction
    | _ => simp [structAdd, present, hnothing]
  kind := Pieces.isStruct_eq

/-- What `leaf` makes of a part while `I` holds, which stays true afterwards. -/
structure Leafwise (leaf : Result ρ → Sent ρ → Except Fault (Result ρ) × Sent ρ)
    (I : Sent ρ → Prop) (R : Sent ρ → Sent ρ → Prop)
    (P : Sent ρ → Result ρ → Result ρ → Prop) : Prop extends Frame leaf R where
  keeps {st st' : Sent ρ} : R st st' → I st → I st'
  mono {st st' : Sent ρ} {r r' : Result ρ} : R st st' → P st r r' → P st' r r'
  leaf_ok {st st' : Sent ρ} {r r' : Result ρ} : r.isLeaf = true → I st →
    leaf r st = (.ok r', st') → r'.isLeaf = true ∧ r'.isNothing = r.isNothing ∧ P st' r r'

mutual

theorem rebuild_pieces {I : Sent ρ → Prop} {R : Sent ρ → Sent ρ → Prop}
    {P : Sent ρ → Result ρ → Result ρ → Prop} (hl : Leafwise leaf I R P) :
    ∀ {r : Result ρ} {st : Sent ρ} {r' : Result ρ} {st' : Sent ρ}, r.Built → I st →
      rebuild leaf r st = (.ok r', st') → Pieces (P st') r r'
  | .sequence l, st, r', st', hbuilt, hI, h => by
    rw [rebuild] at h
    cases hall : rebuildAll leaf sequenceAdd l [] st with
    | mk res st₁ =>
      rw [hall] at h
      cases res with
      | error fault => cases h
      | ok l' =>
        cases h
        obtain ⟨l₁, rfl, hpieces⟩ := rebuildAll_pieces hl receives_sequence hbuilt hI hall
        exact .sequence hpieces
  | .bag l, st, r', st', hbuilt, hI, h => by
    rw [rebuild] at h
    cases hall : rebuildAll leaf bagAdd l [] st with
    | mk res st₁ =>
      rw [hall] at h
      cases res with
      | error fault => cases h
      | ok l' =>
        cases h
        obtain ⟨l₁, rfl, hpieces⟩ := rebuildAll_pieces hl receives_bag hbuilt hI hall
        exact .bag hpieces
  | .struct l, st, r', st', hbuilt, hI, h => by
    rw [rebuild] at h
    cases hall : rebuildAll leaf structAdd l [] st with
    | mk res st₁ =>
      rw [hall] at h
      cases res with
      | error fault => cases h
      | ok l' =>
        cases h
        obtain ⟨l₁, rfl, hpieces⟩ := rebuildAll_pieces hl receives_struct hbuilt hI hall
        exact .struct hpieces
  | .binder name item, st, r', st', hbuilt, hI, h => by
    rw [rebuild] at h
    cases hitem : rebuild leaf item st with
    | mk res st₁ =>
      rw [hitem] at h
      cases res with
      | error fault => cases h
      | ok item' =>
        cases h
        exact .binder (rebuild_pieces hl hbuilt hI hitem)
  | .reference value refed, st, r', st', _, hI, h => by
    obtain ⟨hr', hnothing, hP⟩ := hl.leaf_ok rfl hI h
    exact .leaf rfl hr' hnothing hP
  | .virtual .., st, r', st', _, hI, h => by
    obtain ⟨hr', hnothing, hP⟩ := hl.leaf_ok rfl hI h
    exact .leaf rfl hr' hnothing hP
  | .string value, st, r', st', _, hI, h => by
    obtain ⟨hr', hnothing, hP⟩ := hl.leaf_ok rfl hI h
    exact .leaf rfl hr' hnothing hP
  | .int value, st, r', st', _, hI, h => by
    obtain ⟨hr', hnothing, hP⟩ := hl.leaf_ok rfl hI h
    exact .leaf rfl hr' hnothing hP
  | .double value, st, r', st', _, hI, h => by
    obtain ⟨hr', hnothing, hP⟩ := hl.leaf_ok rfl hI h
    exact .leaf rfl hr' hnothing hP
  | .bool value, st, r', st', _, hI, h => by
    obtain ⟨hr', hnothing, hP⟩ := hl.leaf_ok rfl hI h
    exact .leaf rfl hr' hnothing hP
  | .nothing, st, r', st', _, hI, h => by
    obtain ⟨hr', hnothing, hP⟩ := hl.leaf_ok rfl hI h
    exact .leaf rfl hr' hnothing hP

theorem rebuildAll_pieces {I : Sent ρ → Prop} {R : Sent ρ → Sent ρ → Prop}
    {P : Sent ρ → Result ρ → Result ρ → Prop} (hl : Leafwise leaf I R P)
    {add : List (Result ρ) → Result ρ → List (Result ρ)} {merged : Result ρ → Bool}
    (hadd : Receives add merged) : ∀ {l res : List (Result ρ)} {st : Sent ρ}
      {l' : List (Result ρ)} {st' : Sent ρ}, AllBuilt merged l → I st →
      rebuildAll leaf add l res st = (.ok l', st') → ∃ l₁, l' = res ++ l₁ ∧ AllPieces (P st') l l₁
  | [], res, st, l', st', _, _, h => by
    rw [rebuildAll] at h
    cases h
    exact ⟨[], (List.append_nil _).symm, .nil⟩
  | item :: l, res, st, l', st', hbuilt, hI, h => by
    obtain ⟨⟨hitem, hnothing, hmerged⟩, hrest⟩ := hbuilt
    rw [rebuildAll] at h
    cases hone : rebuild leaf item st with
    | mk result st₁ =>
      rw [hone] at h
      cases result with
      | error fault => cases h
      | ok r =>
        have hpiece := rebuild_pieces hl hitem hI hone
        have hstep := rebuild_frame hl.toFrame item st
        have hframe := rebuildAll_frame hl.toFrame add l (add res r) st₁
        rw [hone] at hstep
        simp only at h
        obtain ⟨l₁, rfl, hpieces⟩ := rebuildAll_pieces hl hadd hrest (hl.keeps hstep hI) h
        rw [h] at hframe
        rw [hadd.add_eq (hpiece.isNothing_eq.trans hnothing) ((hadd.kind hpiece).trans hmerged)]
        refine ⟨r :: l₁, by rw [List.append_assoc, List.singleton_append], .cons ?_ hpieces⟩
        exact hpiece.mono fun _ _ => hl.mono hframe

end

/-- If `leaf` gives the parts of a result that is built, going through gives the result. -/
structure Gives (leaf : Result ρ → Sent ρ → Except Fault (Result ρ) × Sent ρ) (st : Sent ρ)
    (y x : Result ρ) : Prop where
  ok : leaf y st = (.ok x, st)

mutual

theorem rebuild_of_pieces : ∀ {y x : Result ρ}, Pieces (Gives leaf st) y x → x.Built →
    rebuild leaf y st = (.ok x, st)
  | _, _, .sequence h, hbuilt => by
    rw [rebuild, rebuildAll_of_pieces receives_sequence h hbuilt, List.nil_append]
  | _, _, .bag h, hbuilt => by
    rw [rebuild, rebuildAll_of_pieces receives_bag h hbuilt, List.nil_append]
  | _, _, .struct h, hbuilt => by
    rw [rebuild, rebuildAll_of_pieces receives_struct h hbuilt, List.nil_append]
  | _, _, .binder h, hbuilt => by
    rw [rebuild, rebuild_of_pieces h hbuilt]
  | y, _, .leaf hy _ _ h, _ => by
    cases y with
    | sequence _ | bag _ | struct _ | binder _ _ => contradiction
    | _ =>
      rw [rebuild]
      exact h.ok

theorem rebuildAll_of_pieces {add : List (Result ρ) → Result ρ → List (Result ρ)}
    {merged : Result ρ → Bool} (hadd : Receives add merged) :
    ∀ {l l' res : List (Result ρ)}, AllPieces (Gives leaf st) l l' → AllBuilt merged l' →
      rebuildAll leaf add l res st = (.ok (res ++ l'), st)
  | _, _, res, .nil, _ => by rw [rebuildAll, List.append_nil]
  | _, _, res, .cons h hl, hbuilt => by
    obtain ⟨⟨hitem, hnothing, hmerged⟩, hrest⟩ := hbuilt
    rw [rebuildAll, rebuild_of_pieces h hitem]
    simp only
    rw [hadd.add_eq hnothing hmerged, rebuildAll_of_pieces hadd hl hrest, List.append_assoc,
      List.singleton_append]

end

mutual

theorem Pieces.self : ∀ {r : Result ρ}, (∀ x ∈ r.leaves, P x x) → Pieces P r r
  | .sequence _, h => .sequence (AllPieces.self h)
  | .bag _, h => .bag (AllPieces.self h)
  | .struct _, h => .struct (AllPieces.self h)
  | .binder _ _, h => .binder (Pieces.self h)
  | .reference .., h => .leaf rfl rfl rfl (h _ (List.mem_singleton_self _))
  | .virtual .., h => .leaf rfl rfl rfl (h _ (List.mem_singleton_self _))
  | .string _, h => .leaf rfl rfl rfl (h _ (List.mem_singleton_self _))
  | .int _, h => .leaf rfl rfl rfl (h _ (List.mem_singleton_self _))
  | .double _, h => .leaf rfl rfl rfl (h _ (List.mem_singleton_self _))
  | .bool _, h => .leaf rfl rfl rfl (h _ (List.mem_singleton_self _))
  | .nothing, h => .leaf rfl rfl rfl (h _ (List.mem_singleton_self _))

theorem AllPieces.self : ∀ {l : List (Result ρ)}, (∀ x ∈ allLeaves l, P x x) → AllPieces P l l
  | [], _ => .nil
  | _ :: _, h =>
    .cons (Pieces.self fun x hx => h x (List.mem_append_left _ hx))
      (AllPieces.self fun x hx => h x (List.mem_append_right _ hx))

end

theorem leaves_of_isLeaf (h : r.isLeaf = true) : r.leaves = [r] := by
  cases r with
  | sequence _ | bag _ | struct _ | binder _ _ => contradiction
  | _ => rfl

mutual

/-- Two results the other way round. -/
theorem Pieces.back_iff {Q : Result ρ → Result ρ → Prop} {S : Result ρ → Prop}
    (hback : ∀ {x x'}, P x x' → (Q x' x ↔ S x)) :
    ∀ {r r' : Result ρ}, Pieces P r r' → (Pieces Q r' r ↔ ∀ x ∈ r.leaves, S x)
  | _, _, .sequence h => by
    refine Iff.trans ⟨?_, .sequence⟩ (AllPieces.back_iff hback h)
    rintro (h | _)
    · exact h
    · contradiction
  | _, _, .bag h => by
    refine Iff.trans ⟨?_, .bag⟩ (AllPieces.back_iff hback h)
    rintro (_ | h | _)
    · exact h
    · contradiction
  | _, _, .struct h => by
    refine Iff.trans ⟨?_, .struct⟩ (AllPieces.back_iff hback h)
    rintro (_ | _ | h | _)
    · exact h
    · contradiction
  | _, _, .binder h => by
    refine Iff.trans ⟨?_, .binder⟩ (Pieces.back_iff hback h)
    rintro (_ | _ | _ | h | _)
    · exact h
    · contradiction
  | r, r', .leaf hr hr' hnothing h => by
    rw [leaves_of_isLeaf hr]
    simp only [List.mem_singleton, forall_eq]
    rw [← hback h]
    constructor
    · intro hpieces
      cases hpieces with
      | leaf _ _ _ hQ => exact hQ
      | _ => contradiction
    · exact .leaf hr' hr hnothing.symm

theorem AllPieces.back_iff {Q : Result ρ → Result ρ → Prop} {S : Result ρ → Prop}
    (hback : ∀ {x x'}, P x x' → (Q x' x ↔ S x)) :
    ∀ {l l' : List (Result ρ)}, AllPieces P l l' → (AllPieces Q l' l ↔ ∀ x ∈ allLeaves l, S x)
  | _, _, .nil => ⟨fun _ x hx => absurd hx List.not_mem_nil, fun _ => .nil⟩
  | _, _, .cons h hl => by
    have hfirst := Pieces.back_iff hback h
    have hrest := AllPieces.back_iff hback hl
    rw [allLeaves]
    simp only [List.mem_append, or_imp, forall_and]
    rw [← hfirst, ← hrest]
    constructor
    · rintro (_ | ⟨h, hl⟩)
      exact ⟨h, hl⟩
    · rintro ⟨h, hl⟩
      exact .cons h hl

end

mutual

theorem Pieces.built : ∀ {r r' : Result ρ}, Pieces P r r' → r.Built → r'.Built
  | _, _, .sequence h, hbuilt => AllPieces.built receives_sequence h hbuilt
  | _, _, .bag h, hbuilt => AllPieces.built receives_bag h hbuilt
  | _, _, .struct h, hbuilt => AllPieces.built receives_struct h hbuilt
  | _, _, .binder h, hbuilt => by
    have hpart := Pieces.built h
    exact hpart hbuilt
  | _, r', .leaf _ hr' _ _, _ => by
    cases r' with
    | sequence _ | bag _ | struct _ | binder _ _ => contradiction
    | _ => trivial

theorem AllPieces.built {add : List (Result ρ) → Result ρ → List (Result ρ)}
    {merged : Result ρ → Bool} (hadd : Receives add merged) :
    ∀ {l l' : List (Result ρ)}, AllPieces P l l' → AllBuilt merged l → AllBuilt merged l'
  | _, _, .nil, _ => trivial
  | _, _, .cons h hl, ⟨⟨hbuilt, hnothing, hmerged⟩, hrest⟩ =>
    ⟨⟨Pieces.built h hbuilt, h.isNothing_eq.trans hnothing, (hadd.kind h).trans hmerged⟩,
      AllPieces.built hadd hl hrest⟩

end

end

-- ---------------------------------------------------------------------------
-- What has been sent
-- ---------------------------------------------------------------------------

section

variable {ρ : Type} {digits : ρ → String} {st st' st'' : Sent ρ} {r r' v w : Result ρ}

/-- Nothing is forgotten. -/
structure Extends (st st' : Sent ρ) : Prop where
  ids : ∀ t lid, st.fakeLidMap t = some lid → st'.fakeLidMap t = some lid
  sent : st.sentVirtuals <+: st'.sentVirtuals

theorem Extends.refl (st : Sent ρ) : Extends st st := ⟨fun _ _ h => h, List.prefix_refl _⟩

theorem Extends.trans (h : Extends st st') (h' : Extends st' st'') : Extends st st'' :=
  ⟨fun t lid hlid => h'.ids t lid (h.ids t lid hlid), h.sent.trans h'.sent⟩

/-- The id of the object with this place among those that were sent. -/
def idAt (i : Nat) : UInt32 := UInt32.ofNat (minId + i)

/-- A text has an id just when an object with this text has been sent, and the ids follow the order
in which they were sent. -/
structure Books (digits : ρ → String) (st : Sent ρ) : Prop where
  few : st.sentVirtuals.length ≤ maxCount
  known : ∀ t lid, st.fakeLidMap t = some lid ↔
    ∃ i v, st.sentVirtuals[i]? = some v ∧ v.text digits = t ∧ lid = idAt i
  once : ∀ (i j : Nat) (v w : Result ρ), st.sentVirtuals[i]? = some v →
    st.sentVirtuals[j]? = some w → v.text digits = w.text digits → i = j
  virtual : ∀ v ∈ st.sentVirtuals, v.isVirtual = true

theorem toNat_idAt {i : Nat} (hi : i < maxCount) : (idAt i).toNat = minId + i := by
  unfold idAt
  rw [UInt32.toNat_ofNat']
  apply Nat.mod_eq_of_lt
  unfold minId maxCount at *
  omega

theorem reserved_idAt {i : Nat} (hi : i < maxCount) : Reserved (idAt i) := by
  unfold Reserved
  rw [toNat_idAt hi]
  exact ⟨Nat.le_add_right _ _, Nat.add_lt_add_left hi _⟩

theorem Books.lt (h : Books digits st) {i : Nat} (hv : st.sentVirtuals[i]? = some v) :
    i < maxCount := by
  obtain ⟨hi, -⟩ := List.getElem?_eq_some_iff.mp hv
  exact Nat.lt_of_lt_of_le hi h.few

theorem books_init : Books digits {} where
  few := Nat.zero_le _
  known t lid := by
    constructor
    · intro h
      contradiction
    · rintro ⟨i, v, hv, -⟩
      cases hv
  once i j v w hv := by cases hv
  virtual v hv := absurd hv List.not_mem_nil

/-- An object that is sent has got the id that is answered. -/
theorem send_ok {lid : UInt32} {refed : Bool}
    (h : send digits v st = (.ok (.reference lid refed), st')) :
    refed = false ∧ st'.fakeLidMap (v.text digits) = some lid := by
  rw [send] at h
  cases hknown : st.fakeLidMap (v.text digits) with
  | some lid' =>
    rw [hknown] at h
    cases h
    exact ⟨rfl, hknown⟩
  | none =>
    rw [hknown] at h
    simp only at h
    split at h
    · cases h
    · cases h
      exact ⟨rfl, Function.update_self ..⟩

theorem send_reference (h : send digits v st = (.ok r, st')) :
    ∃ lid, r = .reference lid false := by
  rw [send] at h
  split at h
  · cases h
    exact ⟨_, rfl⟩
  · split at h
    · cases h
    · cases h
      exact ⟨_, rfl⟩

theorem send_extends (digits : ρ → String) (v : Result ρ) (st : Sent ρ) :
    Extends st (send digits v st).2 := by
  rw [send]
  cases hknown : st.fakeLidMap (v.text digits) with
  | some lid => exact .refl st
  | none =>
    simp only
    split
    · exact .refl st
    · refine ⟨fun t lid hlid => ?_, List.prefix_append _ _⟩
      have hne : t ≠ v.text digits := by
        rintro rfl
        rw [hknown] at hlid
        contradiction
      simp only
      rw [Function.update_of_ne hne, hlid]

/-- Another object that is sent. -/
theorem Books.add (hv : v.isVirtual = true) (h : Books digits st)
    (hknown : st.fakeLidMap (v.text digits) = none)
    (hroom : ¬maxCount ≤ st.sentVirtuals.length) :
    Books digits
      { fakeLidMap := Function.update st.fakeLidMap (v.text digits)
          (some (idAt st.sentVirtuals.length))
        sentVirtuals := st.sentVirtuals ++ [v] } := by
  have hnew : ∀ (i : Nat) (w : Result ρ), st.sentVirtuals[i]? = some w →
      w.text digits ≠ v.text digits := by
    intro i w hw htext
    have hsome := (h.known _ _).mpr ⟨i, w, hw, htext, rfl⟩
    rw [hknown] at hsome
    contradiction
  have hget : ∀ (i : Nat) (w : Result ρ), (st.sentVirtuals ++ [v])[i]? = some w ↔
      st.sentVirtuals[i]? = some w ∨ i = st.sentVirtuals.length ∧ v = w := by
    intro i w
    rcases Nat.lt_trichotomy i st.sentVirtuals.length with hlt | heq | hgt
    · rw [List.getElem?_append_left hlt]
      exact ⟨.inl, fun hor => hor.resolve_right fun h => Nat.ne_of_lt hlt h.1⟩
    · subst heq
      rw [List.getElem?_append_right (Nat.le_refl _), Nat.sub_self,
        List.getElem?_eq_none (Nat.le_refl _)]
      simp
    · rw [List.getElem?_eq_none (by rw [List.length_append]; exact hgt),
        List.getElem?_eq_none (Nat.le_of_lt hgt)]
      simp [Nat.ne_of_gt hgt]
  refine ⟨?_, ?_, ?_, ?_⟩
  · rw [List.length_append]
    exact Nat.lt_of_not_le hroom
  · intro t lid
    dsimp only
    by_cases ht : t = v.text digits
    · subst ht
      rw [Function.update_self]
      constructor
      · intro heq
        cases heq
        exact ⟨_, v, (hget _ _).mpr (.inr ⟨rfl, rfl⟩), rfl, rfl⟩
      · rintro ⟨i, w, hw, htext, rfl⟩
        rcases (hget i w).mp hw with hold | ⟨rfl, rfl⟩
        · exact absurd htext (hnew i w hold)
        · rfl
    · rw [Function.update_of_ne ht, h.known]
      constructor
      · rintro ⟨i, w, hw, htext, hlid⟩
        exact ⟨i, w, (hget i w).mpr (.inl hw), htext, hlid⟩
      · rintro ⟨i, w, hw, htext, hlid⟩
        rcases (hget i w).mp hw with hold | ⟨-, rfl⟩
        · exact ⟨i, w, hold, htext, hlid⟩
        · exact absurd htext.symm ht
  · intro i j w w' hw hw' htext
    rcases (hget i w).mp hw with hold | ⟨rfl, rfl⟩
    · rcases (hget j w').mp hw' with hold' | ⟨-, rfl⟩
      · exact h.once i j w w' hold hold' htext
      · exact absurd htext (hnew i w hold)
    · rcases (hget j w').mp hw' with hold' | ⟨rfl, -⟩
      · exact absurd htext.symm (hnew j w' hold')
      · rfl
  · intro w hw
    rcases List.mem_append.mp hw with hw | hw
    · exact h.virtual w hw
    · rw [List.mem_singleton.mp hw]
      exact hv

theorem send_books (hv : v.isVirtual = true) (h : Books digits st) :
    Books digits (send digits v st).2 := by
  rw [send]
  cases hknown : st.fakeLidMap (v.text digits) with
  | some lid => exact h
  | none =>
    simp only
    split
    · exact h
    · exact h.add hv hknown ‹_›

-- ---------------------------------------------------------------------------
-- One object after another
-- ---------------------------------------------------------------------------

/-- More virtual objects have been sent. -/
inductive Later (digits : ρ → String) (st : Sent ρ) : Sent ρ → Prop
  | refl : Later digits st st
  | send {st' : Sent ρ} (h : Later digits st st') {v : Result ρ} (hv : v.isVirtual = true) :
    Later digits st (send digits v st').2

theorem Later.trans (h : Later digits st st') (h' : Later digits st' st'') :
    Later digits st st'' := by
  induction h' with
  | refl => exact h
  | send _ hv ih => exact ih.send hv

theorem Later.extends (h : Later digits st st') : Extends st st' := by
  induction h with
  | refl => exact .refl st
  | send _ _ ih => exact ih.trans (send_extends _ _ _)

theorem Later.books (h : Later digits st st') (hst : Books digits st) : Books digits st' := by
  induction h with
  | refl => exact hst
  | send _ hv ih => exact send_books hv ih

theorem frame_send : Frame (sendLeaf digits) (Later digits) where
  refl _ := .refl
  trans := Later.trans
  step r st := by
    cases r with
    | virtual => exact .send .refl rfl
    | _ => exact .refl

/-- Sending a result sends the virtual objects in it. -/
theorem later_deVirtualize (digits : ρ → String) (r : Result ρ) (st : Sent ρ) :
    Later digits st (deVirtualize digits r st).2 := rebuild_frame frame_send r st

/-- A virtual object got the id of its text, and other parts stay as they are. -/
def Answered (digits : ρ → String) (st : Sent ρ) (x x' : Result ρ) : Prop :=
  (x.isVirtual = true →
    ∃ lid, x' = .reference lid false ∧ st.fakeLidMap (x.text digits) = some lid) ∧
    (x.isVirtual = false → x' = x)

theorem leafwise_send :
    Leafwise (sendLeaf digits) (fun _ => True) (Later digits) (Answered digits) where
  toFrame := frame_send
  keeps _ _ := trivial
  mono h := by
    rintro ⟨hvirtual, hother⟩
    refine ⟨fun hv => ?_, hother⟩
    obtain ⟨lid, hr, hlid⟩ := hvirtual hv
    exact ⟨lid, hr, h.extends.ids _ _ hlid⟩
  leaf_ok {st st' r r'} hleaf _ h := by
    cases r with
    | sequence _ | bag _ | struct _ | binder _ _ => contradiction
    | virtual =>
      obtain ⟨lid, rfl⟩ := send_reference h
      exact ⟨rfl, rfl, fun _ => ⟨lid, rfl, (send_ok h).2⟩, fun hv => by contradiction⟩
    | _ =>
      cases h
      exact ⟨rfl, rfl, fun hv => by contradiction, fun _ => rfl⟩

theorem leafwise_back :
    Leafwise (ρ := ρ) backLeaf (fun st => ∀ v ∈ st.sentVirtuals, v.isVirtual = true)
      (fun st st' => st' = st) (fun st y x => Gives backLeaf st y x) where
  refl _ := rfl
  trans h h' := h'.trans h
  step r st := by
    cases r with
    | reference lid refed =>
      rw [backLeaf]
      split
      · split <;> rfl
      · rfl
    | _ => rfl
  keeps := by
    rintro st _ rfl h
    exact h
  mono := by
    rintro st _ r r' rfl h
    exact h
  leaf_ok {st st' r r'} hleaf hI h := by
    cases r with
    | sequence _ | bag _ | struct _ | binder _ _ => contradiction
    | virtual => cases h
    | reference lid refed =>
      have hgives := h
      rw [backLeaf] at h
      split at h
      · split at h
        · cases h
        · rename_i v hv
          cases h
          have hvirtual := hI _ (List.mem_of_getElem? hv)
          cases r' with
          | virtual => exact ⟨rfl, rfl, ⟨hgives⟩⟩
          | _ => contradiction
      · cases h
        exact ⟨rfl, rfl, ⟨hgives⟩⟩
    | _ =>
      cases h
      exact ⟨rfl, rfl, ⟨rfl⟩⟩

/-- No other object with the text of this one has been sent, and no real id is taken for one of the
ids of virtual objects. -/
def Returned (digits : ρ → String) (st : Sent ρ) (x : Result ρ) : Prop :=
  (x.isVirtual = true → ∀ w ∈ st.sentVirtuals, w.text digits = x.text digits → w = x) ∧
    ∀ lid refed, x = .reference lid refed → ¬Reserved lid

theorem backLeaf_idAt (h : Books digits st) {i : Nat} (hv : st.sentVirtuals[i]? = some v)
    (refed : Bool) : backLeaf (.reference (idAt i) refed) st = (.ok v, st) := by
  have hi := h.lt hv
  rw [backLeaf, if_pos (reserved_idAt hi), toNat_idAt hi, Nat.add_sub_cancel_left, hv]

theorem gives_iff {x x' : Result ρ} (h : Answered digits st x x') (hlater : Extends st st')
    (hbooks : Books digits st') :
    Gives backLeaf st' x' x ↔ Returned digits st' x := by
  cases hvirtual : x.isVirtual with
  | true =>
    obtain ⟨lid, rfl, hlid⟩ := h.1 hvirtual
    obtain ⟨i, w, hw, htext, rfl⟩ := (hbooks.known _ _).mp (hlater.ids _ _ hlid)
    have hback := backLeaf_idAt hbooks hw false
    constructor
    · rintro ⟨hgives⟩
      rw [hback] at hgives
      cases hgives
      refine ⟨fun _ w' hw' htext' => ?_, ?_⟩
      · obtain ⟨j, hj⟩ := List.mem_iff_getElem?.mp hw'
        have hij := hbooks.once j i w' _ hj hw htext'
        rw [hij, hw] at hj
        cases hj
        rfl
      · rintro lid refed rfl
        contradiction
    · rintro ⟨hsame, -⟩
      rw [← hsame hvirtual w (List.mem_of_getElem? hw) htext]
      exact ⟨hback⟩
  | false =>
    have heq := h.2 hvirtual
    subst heq
    cases x' with
    | virtual => contradiction
    | reference lid refed =>
      constructor
      · rintro ⟨hgives⟩
        refine ⟨fun hv => by contradiction, ?_⟩
        rintro lid' refed' heq hreserved
        cases heq
        rw [backLeaf, if_pos hreserved] at hgives
        cases hv : st'.sentVirtuals[lid.toNat - minId]? with
        | none =>
          rw [hv] at hgives
          cases hgives
        | some v =>
          rw [hv] at hgives
          cases hgives
          have hvirt := hbooks.virtual _ (List.mem_of_getElem? hv)
          contradiction
      · rintro ⟨-, hreserved⟩
        refine ⟨?_⟩
        rw [backLeaf, if_neg (hreserved lid refed rfl)]
    | _ =>
      refine ⟨fun _ => ⟨fun hv => by contradiction, ?_⟩, fun _ => ⟨rfl⟩⟩
      rintro lid refed heq
      cases heq

theorem ids_iff (h : Books digits st) {a b : UInt32} {refed refed' : Bool} {st₁ st₂ st₃ : Sent ρ}
    (hv : v.isVirtual = true) (hw : w.isVirtual = true)
    (ha : send digits v st = (.ok (.reference a refed), st₁)) (hlater : Later digits st₁ st₂)
    (hb : send digits w st₂ = (.ok (.reference b refed'), st₃)) :
    a = b ↔ v.text digits = w.text digits := by
  have hbooks₁ : Books digits st₁ := by
    have hsend := send_books hv h
    rwa [ha] at hsend
  have hbooks₃ : Books digits st₃ := by
    have hsend := send_books hw (hlater.books hbooks₁)
    rwa [hb] at hsend
  have hextends : Extends st₂ st₃ := by
    have hsend := send_extends digits w st₂
    rwa [hb] at hsend
  have hida := hextends.ids _ _ (hlater.extends.ids _ _ (send_ok ha).2)
  have hidb := (send_ok hb).2
  constructor
  · rintro rfl
    obtain ⟨i, v', hv', htext, hi⟩ := (hbooks₃.known _ _).mp hida
    obtain ⟨j, w', hw', htext', hj⟩ := (hbooks₃.known _ _).mp hidb
    have hij : i = j := by
      have hnat := congrArg UInt32.toNat (hi.symm.trans hj)
      rw [toNat_idAt (hbooks₃.lt hv'), toNat_idAt (hbooks₃.lt hw')] at hnat
      exact Nat.add_left_cancel hnat
    rw [hij, hw'] at hv'
    cases hv'
    exact htext.symm.trans htext'
  · intro htext
    rw [htext, hidb] at hida
    cases hida
    rfl

/-- Sending a result and bringing it back gives the same result just when all its parts are
returned. -/
theorem roundTrip_iff (h : Books digits st) (hbuilt : r.Built)
    (hsent : deVirtualize digits r st = (.ok r', st')) (hlater : Later digits st' st'') :
    (reVirtualize r' st'').1 = .ok r ↔ ∀ x ∈ r.leaves, Returned digits st'' x := by
  have hbooks' : Books digits st' := by
    have hall := (later_deVirtualize digits r st).books h
    rwa [hsent] at hall
  have hbooks := hlater.books hbooks'
  have hpieces := rebuild_pieces leafwise_send hbuilt trivial hsent
  have hback := hpieces.back_iff (S := Returned digits st'') fun hx =>
    gives_iff hx hlater.extends hbooks
  rw [← hback]
  constructor
  · intro hgives
    cases hrun : reVirtualize r' st'' with
    | mk result st₃ =>
      rw [hrun] at hgives
      cases hgives
      have hframe := rebuild_frame leafwise_back.toFrame r' st''
      rw [reVirtualize] at hrun
      rw [hrun] at hframe
      cases hframe
      exact rebuild_pieces leafwise_back (hpieces.built hbuilt) hbooks.virtual hrun
  · intro hpieces'
    rw [reVirtualize, rebuild_of_pieces hpieces' hbuilt]

/-- A part that neither direction touches. -/
def Untouched (x : Result ρ) : Prop :=
  x.isVirtual = false ∧ ∀ lid refed, x = .reference lid refed → ¬Reserved lid

theorem untouched_stays (st : Sent ρ) (hbuilt : r.Built) (h : ∀ x ∈ r.leaves, Untouched x) :
    deVirtualize digits r st = (.ok r, st) ∧ reVirtualize r st = (.ok r, st) := by
  constructor
  · refine rebuild_of_pieces (Pieces.self fun x hx => ⟨?_⟩) hbuilt
    have hvirtual := (h x hx).1
    cases x with
    | virtual => contradiction
    | _ => rfl
  · refine rebuild_of_pieces (Pieces.self fun x hx => ⟨?_⟩) hbuilt
    obtain ⟨hvirtual, hreserved⟩ := h x hx
    cases x with
    | virtual => contradiction
    | reference lid refed => rw [backLeaf, if_neg (hreserved lid refed rfl)]
    | _ => rfl

theorem backLeaf_unissued (h : Books digits st) {lid : UInt32} {refed : Bool}
    (hreserved : Reserved lid) (hnew : ∀ t, st.fakeLidMap t ≠ some lid) :
    reVirtualize (.reference lid refed) st = (.error .outOfRange, st) := by
  have hnone : st.sentVirtuals[lid.toNat - minId]? = none := by
    cases hv : st.sentVirtuals[lid.toNat - minId]? with
    | none => rfl
    | some v =>
      refine absurd ((h.known _ _).mpr ⟨_, v, hv, rfl, ?_⟩) (hnew (v.text digits))
      apply UInt32.toNat_inj.mp
      rw [toNat_idAt (h.lt hv)]
      have hle := hreserved.1
      omega
  rw [reVirtualize, rebuild, backLeaf, if_pos hreserved, hnone]

end

-- ---------------------------------------------------------------------------
-- The handles
-- ---------------------------------------------------------------------------

/-- Ids tell virtual objects apart as far as their texts do; a result comes back as it was unless
another object with the text of one in it has been sent, or a real id lies in the range; what has
neither stays as it is; and an id that was never given out ends in an exception. -/
theorem handles_iff {ρ : Type} {digits : ρ → String} {st : Sent ρ} (h : Later digits {} st) :
    (∀ v w a b refed refed' st₁ st₂ st₃, v.isVirtual = true → w.isVirtual = true →
      send digits v st = (.ok (.reference a refed), st₁) → Later digits st₁ st₂ →
      send digits w st₂ = (.ok (.reference b refed'), st₃) →
      ((a = b ↔ v = w) ↔ (v.text digits = w.text digits → v = w))) ∧
    (∀ r r' st₁ st₂, r.Built → deVirtualize digits r st = (.ok r', st₁) → Later digits st₁ st₂ →
      ((reVirtualize r' st₂).1 = .ok r ↔ ∀ x ∈ r.leaves, Returned digits st₂ x)) ∧
    (∀ r, r.Built → (∀ x ∈ r.leaves, Untouched x) →
      deVirtualize digits r st = (.ok r, st) ∧ reVirtualize r st = (.ok r, st)) ∧
    (∀ lid refed, Reserved lid → (∀ t, st.fakeLidMap t ≠ some lid) →
      reVirtualize (.reference lid refed) st = (.error .outOfRange, st)) := by
  have hbooks : Books digits st := h.books books_init
  refine ⟨?_, ?_, fun r => untouched_stays st, fun lid refed => backLeaf_unissued hbooks⟩
  · intro v w a b refed refed' st₁ st₂ st₃ hv hw ha hlater hb
    rw [ids_iff hbooks hv hw ha hlater hb]
    constructor
    · exact Iff.mp
    · intro himp
      refine ⟨himp, ?_⟩
      rintro rfl
      rfl
  · intro r r' st₁ st₂ hbuilt hsent hlater
    exact roundTrip_iff hbooks hbuilt hsent hlater

def digitless : Unit → String := fun _ => ""

/-- A virtual object without seeds, on its own or inside another one. -/
def employee (viewParent : Option UInt32) : Result Unit := .virtual "emp" 5 [] [] viewParent

theorem handles_employee :
    reVirtualize (.struct [.int 7, .bool true]) (send digitless (employee none) {}).2 =
      (.ok (.struct [.int 7, .bool true]), (send digitless (employee none) {}).2) := by
  have hlater : Later digitless {} (send digitless (employee none) {}).2 := .send .refl rfl
  refine ((handles_iff hlater).2.2.1 _ ?_ ?_).2
  · exact ⟨⟨trivial, rfl, rfl⟩, ⟨trivial, rfl, rfl⟩, trivial⟩
  · rintro x (_ | ⟨_, _ | ⟨_, hx⟩⟩)
    · exact ⟨rfl, by rintro _ _ ⟨⟩⟩
    · exact ⟨rfl, by rintro _ _ ⟨⟩⟩
    · contradiction

/-- Objects with other parents get one id, and an id that is unknown ends in an exception. -/
theorem not_faithful_handles :
    employee none ≠ employee (some 1) ∧
    (∃ lid st₁ st₂, send digitless (employee none) {} = (.ok (.reference lid false), st₁) ∧
      send digitless (employee (some 1)) st₁ = (.ok (.reference lid false), st₂)) ∧
    reVirtualize (.reference 0xFE000000 false) ({} : Sent Unit) = (.error .outOfRange, {}) := by
  refine ⟨fun h => ?_, ⟨idAt 0, (send digitless (employee none) {}).2,
    (send digitless (employee none) {}).2, rfl, ?_⟩, rfl⟩
  · injection h with _ _ _ _ hparent
    contradiction
  · have htext : (employee (some 1)).text digitless = (employee none).text digitless := rfl
    have hsend : send digitless (employee none) {} =
        (.ok (.reference (idAt 0) false), (send digitless (employee none) {}).2) := rfl
    rw [send, htext, (send_ok hsend).2]

end Loxim.QueryExecutor.SentVirtuals
