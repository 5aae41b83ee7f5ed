import Mathlib.Algebra.GroupWithZero.Nat
import Mathlib.Data.List.Basic
import Mathlib.Data.List.Induction
import Loxim.Lib.Run

/-!
# Files of named items

Roots, classes, interfaces and schemas are kept as entries with the transaction
that is changing them and the times of their addition and removal. An item is
removed through the first entry of its id.
-/

namespace Loxim.Store

structure TransactionID where
  id : Nat
  timeStamp : Nat
  deriving DecidableEq

/-- `ix_entry`, with its names without the bytes that end them; `STORE_IX_NULLVALUE`
is `none`. -/
structure IxEntry where
  lid : Nat
  curTran : Option Nat
  addT : Nat
  delT : Option Nat
  names : List (List (BitVec 8))
  deriving DecidableEq

def IxEntry.size (e : IxEntry) : Nat := 20 + (e.names.map fun n => n.length + 1).sum

inductive ItemKind
  | roots
  | classes
  | interfaces
  | schemas

/-- The longest names: of a class also its invariant, of an interface also the
object and the binding. -/
def ItemKind.maxLens : ItemKind → List Nat
  | .roots => [100]
  | .classes => [1000, 100]
  | .interfaces => [1000, 1000, 1000]
  | .schemas => [1000]

/-- Names that `createEntry` takes. -/
def ItemKind.Accepts (k : ItemKind) (names : List (List (BitVec 8))) : Prop :=
  List.Forall₂ (fun n max => n.length ≤ max) names k.maxLens

instance (k : ItemKind) (names : List (List (BitVec 8))) : Decidable (k.Accepts names) :=
  inferInstanceAs (Decidable (List.Forall₂ ..))

def createEntry (t : TransactionID) (lid : Nat) (names : List (List (BitVec 8))) : IxEntry :=
  { lid, curTran := some t.id, addT := t.timeStamp, delT := none, names }

/-- What is left of a page for entries. -/
def pageRoom : Nat := 0x4000 - 20

def usedRoom (page : List IxEntry) : Nat := (page.map IxEntry.size).sum

/-- The pages that have been written to, from the first one on. -/
structure NamedItems where
  pages : List (List IxEntry) := [[]]

namespace NamedItems

/-- All entries in the order in which they are looked at. -/
def entries (f : NamedItems) : List IxEntry := f.pages.flatten

/-- The first page with room. -/
def insert (e : IxEntry) : List (List IxEntry) → List (List IxEntry)
  | [] => [[e]]
  | page :: rest =>
    if usedRoom page + e.size ≤ pageRoom then (page ++ [e]) :: rest else page :: insert e rest

def addItem (k : ItemKind) (f : NamedItems) (t : TransactionID) (lid : Nat)
    (names : List (List (BitVec 8))) : NamedItems × Int :=
  if k.Accepts names then ({ pages := insert (createEntry t lid names) f.pages }, 0) else (f, 1)

/-- The first entry with the id: one that nobody is changing gets a removal, and any
other one goes. -/
def removeFirst (t : TransactionID) (lid : Nat) : List IxEntry → Option (List IxEntry)
  | [] => none
  | e :: rest =>
    if e.lid = lid then
      match e.curTran with
      | none => some ({ e with curTran := some t.id, delT := some t.timeStamp } :: rest)
      | some _ => some rest
    else (removeFirst t lid rest).map (e :: ·)

def removeIn (t : TransactionID) (lid : Nat) : List (List IxEntry) → List (List IxEntry)
  | [] => []
  | page :: rest =>
    match removeFirst t lid page with
    | some page => page :: rest
    | none => page :: removeIn t lid rest

def removeItem (f : NamedItems) (t : TransactionID) (lid : Nat) : NamedItems :=
  { pages := removeIn t lid f.pages }

inductive Mode
  | commit
  | abort

/-- What the end of a transaction makes of an entry; `now` is the logical timer. -/
def modifyEntry (tid now : Nat) (mode : Mode) (e : IxEntry) : Option IxEntry :=
  if e.curTran = some tid then
    match e.delT, mode with
    | some _, .commit => some { e with delT := some now, curTran := none }
    | none, .commit => some { e with addT := now, curTran := none }
    | some _, .abort => some { e with delT := none, curTran := none }
    | none, .abort => none
  else some e

def modifyTransaction (f : NamedItems) (tid now : Nat) (mode : Mode) : NamedItems :=
  { pages := f.pages.map (List.filterMap (modifyEntry tid now mode)) }

def commitTransaction (f : NamedItems) (tid now : Nat) : NamedItems :=
  f.modifyTransaction tid now .commit

def abortTransaction (f : NamedItems) (tid now : Nat) : NamedItems :=
  f.modifyTransaction tid now .abort

def shown (t : TransactionID) (e : IxEntry) : Bool :=
  e.addT ≤ t.timeStamp && e.delT.isNone && (e.curTran.isNone || e.curTran == some t.id)

def getItemsByAnything (f : NamedItems) (t : TransactionID) (findTest : IxEntry → Bool) : List Nat :=
  (f.entries.filter fun e => findTest e && shown t e).map IxEntry.lid

def findByName (name : List (BitVec 8)) (e : IxEntry) : Bool :=
  name.isEmpty || e.names.head? == some name

/-- An empty name is any name. -/
def getItems (f : NamedItems) (t : TransactionID) (name : List (BitVec 8) := []) : List Nat :=
  f.getItemsByAnything t (findByName name)

-- ---------------------------------------------------------------------------
-- Entries
-- ---------------------------------------------------------------------------

variable {f g : NamedItems} {t r : TransactionID} {k : ItemKind} {e : IxEntry} {lid now tid : Nat}
  {names : List (List (BitVec 8))} {l : List IxEntry} {pages : List (List IxEntry)} {mode : Mode}

theorem mem_getItems : lid ∈ f.getItems r ↔ ∃ e ∈ f.entries, e.lid = lid ∧ shown r e = true := by
  simp only [getItems, getItemsByAnything, findByName, List.isEmpty_nil, Bool.true_or,
    Bool.true_and, List.mem_map, List.mem_filter]
  constructor
  · rintro ⟨e, ⟨he, hs⟩, hl⟩
    exact ⟨e, he, hl, hs⟩
  · rintro ⟨e, he, hl, hs⟩
    exact ⟨e, ⟨he, hs⟩, hl⟩

/-- An entry is added somewhere. -/
theorem insert_flatten (e : IxEntry) (pages : List (List IxEntry)) :
    ∃ A B, pages.flatten = A ++ B ∧ (insert e pages).flatten = A ++ e :: B := by
  induction pages with
  | nil => exact ⟨[], [], rfl, rfl⟩
  | cons page rest ih =>
    unfold insert
    split
    · exact ⟨page, rest.flatten, by simp, by simp⟩
    · obtain ⟨A, B, hrest, hinsert⟩ := ih
      exact ⟨page ++ A, B, by simp [hrest], by simp [hinsert]⟩

/-- The first entry with the id, and what is put in its place. -/
theorem removeFirst_eq (t : TransactionID) (lid : Nat) (l : List IxEntry) :
    (removeFirst t lid l = none ∧ ∀ e ∈ l, e.lid ≠ lid) ∨
    ∃ A e B, l = A ++ e :: B ∧ (∀ e' ∈ A, e'.lid ≠ lid) ∧ e.lid = lid ∧
      removeFirst t lid l = some (A ++ (if e.curTran = none then
        [{ e with curTran := some t.id, delT := some t.timeStamp }] else []) ++ B) := by
  induction l with
  | nil => exact .inl ⟨rfl, nofun⟩
  | cons x l ih =>
    by_cases hx : x.lid = lid
    · refine .inr ⟨[], x, l, rfl, nofun, hx, ?_⟩
      cases hcur : x.curTran with
      | none => simp [removeFirst, hx, hcur]
      | some u => simp [removeFirst, hx, hcur]
    · rcases ih with ⟨hnone, hall⟩ | ⟨A, e, B, hl, hA, he, hsome⟩
      · refine .inl ⟨by simp [removeFirst, hx, hnone], fun e he => ?_⟩
        rcases List.mem_cons.mp he with rfl | he
        · exact hx
        · exact hall e he
      · refine .inr ⟨x :: A, e, B, by rw [hl, List.cons_append], fun e' he' => ?_, he, ?_⟩
        · rcases List.mem_cons.mp he' with rfl | he'
          · exact hx
          · exact hA e' he'
        · simp [removeFirst, hx, hsome]

/-- It does not matter how the entries lie on pages. -/
theorem removeIn_flatten (t : TransactionID) (lid : Nat) (pages : List (List IxEntry)) :
    (removeIn t lid pages).flatten = (removeFirst t lid pages.flatten).getD pages.flatten := by
  induction pages with
  | nil => rfl
  | cons page rest ih =>
    have happend (l l' : List IxEntry) : removeFirst t lid (l ++ l') =
        match removeFirst t lid l with
        | some l => some (l ++ l')
        | none => (removeFirst t lid l').map (l ++ ·) := by
      induction l with
      | nil =>
        cases h : removeFirst t lid l' <;> simp [removeFirst, h]
      | cons x l ihl =>
        by_cases hx : x.lid = lid
        · cases hcur : x.curTran <;> simp [removeFirst, hx, hcur]
        · simp only [List.cons_append, removeFirst, if_neg hx, ihl]
          cases h : removeFirst t lid l with
          | some l => simp
          | none => cases h' : removeFirst t lid l' <;> simp
    rw [removeIn, List.flatten_cons, happend]
    cases h : removeFirst t lid page with
    | some page' => simp
    | none =>
      simp only [List.flatten_cons, ih]
      cases h' : removeFirst t lid rest.flatten <;> simp

theorem entries_addItem (f : NamedItems) (t : TransactionID) (lid : Nat) (h : k.Accepts names) :
    ∃ A B, f.entries = A ++ B ∧
      (f.addItem k t lid names).1.entries = A ++ createEntry t lid names :: B := by
  rw [addItem, if_pos h]
  exact insert_flatten _ _

theorem entries_modifyTransaction :
    (f.modifyTransaction tid now mode).entries = f.entries.filterMap (modifyEntry tid now mode) := by
  unfold modifyTransaction entries
  induction f.pages with
  | nil => rfl
  | cons page rest ih =>
    rw [List.map_cons, List.flatten_cons, List.flatten_cons, List.filterMap_append, ih]

-- ---------------------------------------------------------------------------
-- The calls of one transaction
-- ---------------------------------------------------------------------------

inductive Call
  | addItem (lid : Nat) (names : List (List (BitVec 8)))
  | removeItem (lid : Nat)

def call (k : ItemKind) (t : TransactionID) (f : NamedItems) : Call → NamedItems
  | .addItem lid names => (f.addItem k t lid names).1
  | .removeItem lid => f.removeItem t lid

/-- Added, and not removed; uncommitted changes are the transaction's own. -/
def Standing (tid : Nat) (e : IxEntry) : Prop :=
  e.delT = none ∧ (e.curTran = none ∨ e.curTran = some tid)

def Gone (tid : Nat) (e : IxEntry) : Prop :=
  e.delT ≠ none ∧ (e.curTran = none ∨ e.curTran = some tid)

/-- The first entry of the id is the one that is not removed. -/
def Removable (tid lid : Nat) (l : List IxEntry) : Prop :=
  match l.filter fun e => e.lid = lid with
  | [] => True
  | e :: rest => Standing tid e ∧ ∀ e' ∈ rest, Gone tid e'

def Met (t : TransactionID) (f : NamedItems) : Call → Prop
  | .addItem _ _ => True
  | .removeItem lid => Removable t.id lid f.entries

/-- An entry that is standing goes or gets a removal, and no other entry of the id is
standing. -/
theorem entries_removeItem (h : Removable t.id lid f.entries) :
    ((f.removeItem t lid).entries = f.entries ∧ ∀ e ∈ f.entries, e.lid ≠ lid) ∨
    ∃ A e B, f.entries = A ++ e :: B ∧ e.lid = lid ∧ Standing t.id e ∧
      (∀ e' ∈ A ++ B, e'.lid = lid → Gone t.id e') ∧
      (f.removeItem t lid).entries = A ++ (if e.curTran = none then
        [{ e with curTran := some t.id, delT := some t.timeStamp }] else []) ++ B := by
  have hentries : (f.removeItem t lid).entries =
      (removeFirst t lid f.entries).getD f.entries := removeIn_flatten ..
  rcases removeFirst_eq t lid f.entries with ⟨hnone, hall⟩ | ⟨A, e, B, hl, hA, he, hsome⟩
  · exact .inl ⟨by rw [hentries, hnone, Option.getD_none], hall⟩
  · have hfilter : f.entries.filter (fun e => e.lid = lid) =
        e :: B.filter fun e => e.lid = lid := by
      have hempty : A.filter (fun e => e.lid = lid) = [] := by
        simpa [List.filter_eq_nil_iff] using hA
      rw [hl, List.filter_append, hempty, List.nil_append, List.filter_cons_of_pos (by simpa)]
    rw [Removable, hfilter] at h
    refine .inr ⟨A, e, B, hl, he, h.1, fun e' he' hlid => ?_, by rw [hentries, hsome]; rfl⟩
    rcases List.mem_append.mp he' with he' | he'
    · exact absurd hlid (hA e' he')
    · exact h.2 e' (List.mem_filter.mpr ⟨he', by simpa using hlid⟩)

def calls (k : ItemKind) (t : TransactionID) (f : NamedItems) (l : List Call) : NamedItems :=
  l.foldl (call k t) f

/-- Every call is made when it may be. -/
def AllMet (k : ItemKind) (t : TransactionID) : NamedItems → List Call → Prop
  | _, [] => True
  | f, c :: l => Met t f c ∧ AllMet k t (call k t f c) l

/-- Whether the last call that did something for the id added it. -/
def lastAdded (k : ItemKind) (lid : Nat) (l : List Call) : Option Bool :=
  l.foldl (fun b c => match c with
    | .addItem lid' names => if lid' = lid ∧ k.Accepts names then some true else b
    | .removeItem lid' => if lid' = lid then some false else b) none

/-- What a later reader sees of an entry once the transaction has committed. -/
def WillShow (t r : TransactionID) (e : IxEntry) : Prop :=
  e.delT = none ∧ (e.curTran = some t.id ∨
    e.addT ≤ r.timeStamp ∧ (e.curTran = none ∨ e.curTran = some r.id))

/-- What an abort leaves is not changed by a call. -/
theorem abort_call {c : Call} (h : Met t f c) :
    ((call k t f c).entries).filterMap (modifyEntry t.id now .abort) =
      f.entries.filterMap (modifyEntry t.id now .abort) := by
  cases c with
  | addItem lid names =>
    by_cases hk : k.Accepts names
    · obtain ⟨A, B, hf, hadd⟩ := entries_addItem f t lid hk
      have hgone : modifyEntry t.id now .abort (createEntry t lid names) = none := by
        simp [modifyEntry, createEntry]
      rw [call, hadd, hf, List.filterMap_append, List.filterMap_append, List.filterMap_cons_none hgone]
    · rw [call, addItem, if_neg hk]
  | removeItem lid =>
    rcases entries_removeItem h with ⟨hsame, -⟩ | ⟨A, e, B, hf, -, ⟨hdel, hcur⟩, -, hremove⟩
    · rw [call, hsame]
    · have hone : ([e].filterMap (modifyEntry t.id now .abort)) =
          (if e.curTran = none then [{ e with curTran := some t.id, delT := some t.timeStamp }]
            else []).filterMap (modifyEntry t.id now .abort) := by
        rcases hcur with hcur | hcur
        · have hback : ({ e with delT := none, curTran := none } : IxEntry) = e := by
            obtain ⟨_, _, _, _, _⟩ := e
            simp_all
          simp [modifyEntry, hcur, hback]
        · simp [modifyEntry, hcur, hdel]
      rw [call, hremove, hf, List.filterMap_append, List.filterMap_append, List.append_cons,
        List.filterMap_append, List.filterMap_append, hone]

theorem abort_calls {l : List Call} (h : AllMet k t f l) :
    ((calls k t f l).entries).filterMap (modifyEntry t.id now .abort) =
      f.entries.filterMap (modifyEntry t.id now .abort) := by
  induction l generalizing f with
  | nil => rfl
  | cons c l ih =>
    rw [calls, List.foldl_cons, ← calls, ih h.2, abort_call h.1]

theorem mem_getItems_commit (hnow : now ≤ r.timeStamp) :
    lid ∈ (f.commitTransaction t.id now).getItems r ↔
      ∃ e ∈ f.entries, e.lid = lid ∧ WillShow t r e := by
  have hshown (e e' : IxEntry) (he : modifyEntry t.id now .commit e = some e') :
      e'.lid = e.lid ∧ (shown r e' = true ↔ WillShow t r e) := by
    unfold modifyEntry at he
    split at he
    · rename_i hcur
      cases hdel : e.delT with
      | none =>
        simp only [hdel, Option.some.injEq] at he
        subst he
        simp [shown, WillShow, hdel, hcur, hnow]
      | some d =>
        simp only [hdel, Option.some.injEq] at he
        subst he
        simp [shown, WillShow, hdel]
    · rename_i hcur
      simp only [Option.some.injEq] at he
      subst he
      simp [shown, WillShow, hcur]
      tauto
  rw [mem_getItems, commitTransaction, entries_modifyTransaction]
  constructor
  · rintro ⟨e', he', hlid, hs⟩
    obtain ⟨e, he, hmodify⟩ := List.mem_filterMap.mp he'
    obtain ⟨hl, hiff⟩ := hshown e e' hmodify
    exact ⟨e, he, hl ▸ hlid, hiff.mp hs⟩
  · rintro ⟨e, he, hlid, hs⟩
    obtain ⟨e', hmodify⟩ : ∃ e', modifyEntry t.id now .commit e = some e' := by
      unfold modifyEntry
      split
      · cases e.delT <;> exact ⟨_, rfl⟩
      · exact ⟨e, rfl⟩
    obtain ⟨hl, hiff⟩ := hshown e e' hmodify
    exact ⟨e', List.mem_filterMap.mpr ⟨e, he, hmodify⟩, hl.trans hlid, hiff.mpr hs⟩

theorem willShow_addItem (hk : k.Accepts names) {lid' : Nat} :
    (∃ e ∈ (call k t f (.addItem lid' names)).entries, e.lid = lid ∧ WillShow t r e) ↔
      lid' = lid ∨ ∃ e ∈ f.entries, e.lid = lid ∧ WillShow t r e := by
  obtain ⟨A, B, hf, hadd⟩ := entries_addItem f t lid' hk
  rw [call, hadd, hf]
  constructor
  · rintro ⟨e, he, hlid, hs⟩
    rcases List.mem_append.mp he with he | he
    · exact .inr ⟨e, List.mem_append_left _ he, hlid, hs⟩
    · rcases List.mem_cons.mp he with rfl | he
      · exact .inl hlid
      · exact .inr ⟨e, List.mem_append_right _ he, hlid, hs⟩
  · rintro (rfl | ⟨e, he, hlid, hs⟩)
    · exact ⟨createEntry t lid' names, by simp, rfl, rfl, .inl rfl⟩
    · refine ⟨e, ?_, hlid, hs⟩
      rcases List.mem_append.mp he with he | he
      · exact List.mem_append_left _ he
      · exact List.mem_append_right _ (List.mem_cons_of_mem _ he)

theorem willShow_removeItem {lid' : Nat} (h : Removable t.id lid' f.entries) :
    (∃ e ∈ (call k t f (.removeItem lid')).entries, e.lid = lid ∧ WillShow t r e) ↔
      lid' ≠ lid ∧ ∃ e ∈ f.entries, e.lid = lid ∧ WillShow t r e := by
  rw [call]
  rcases entries_removeItem h with ⟨hsame, hall⟩ | ⟨A, e, B, hf, he, -, hgone, hremove⟩
  · rw [hsame]
    constructor
    · rintro ⟨e, he, hlid, hs⟩
      exact ⟨fun heq => hall e he (hlid.trans heq.symm), e, he, hlid, hs⟩
    · exact fun h => h.2
  · rw [hremove, hf]
    -- what stands in the place of the entry is not shown
    have hnew (e' : IxEntry) (he' : e' ∈ (if e.curTran = none then
        [{ e with curTran := some t.id, delT := some t.timeStamp }] else [])) :
        e'.lid = lid' ∧ e'.delT ≠ none := by
      split at he'
      · rw [List.mem_singleton.mp he']
        exact ⟨he, by simp⟩
      · cases he'
    constructor
    · rintro ⟨e', he', hlid, hs⟩
      rw [List.append_assoc, List.mem_append, List.mem_append] at he'
      have hmem : e' ∈ A ++ B := by
        rcases he' with he' | he' | he'
        · exact List.mem_append_left _ he'
        · exact absurd hs.1 (hnew e' he').2
        · exact List.mem_append_right _ he'
      refine ⟨fun heq => (hgone e' hmem (hlid.trans heq.symm)).1 hs.1, e', ?_, hlid, hs⟩
      rcases List.mem_append.mp hmem with he' | he'
      · exact List.mem_append_left _ he'
      · exact List.mem_append_right _ (List.mem_cons_of_mem _ he')
    · rintro ⟨hne, e', he', hlid, hs⟩
      refine ⟨e', ?_, hlid, hs⟩
      rw [List.append_assoc, List.mem_append, List.mem_append]
      rcases List.mem_append.mp he' with he' | he'
      · exact .inl he'
      · rcases List.mem_cons.mp he' with rfl | he'
        · exact absurd (he.symm.trans hlid) hne
        · exact .inr (.inr he')

theorem calls_concat {l : List Call} {c : Call} :
    calls k t f (l ++ [c]) = call k t (calls k t f l) c := by
  rw [calls, List.foldl_append]
  rfl

theorem lastAdded_concat {l : List Call} {c : Call} : lastAdded k lid (l ++ [c]) = match c with
    | .addItem lid' names => if lid' = lid ∧ k.Accepts names then some true else lastAdded k lid l
    | .removeItem lid' => if lid' = lid then some false else lastAdded k lid l := by
  rw [lastAdded, List.foldl_append]
  rfl

theorem AllMet.concat {l : List Call} {c : Call} (h : AllMet k t f (l ++ [c])) :
    AllMet k t f l ∧ Met t (calls k t f l) c := by
  induction l generalizing f with
  | nil => exact ⟨trivial, h.1⟩
  | cons d l ih =>
    obtain ⟨hl, hc⟩ := ih h.2
    exact ⟨⟨h.1, hl⟩, hc⟩

/-- The last call for an id decides. -/
theorem willShow_calls {l : List Call} (h : AllMet k t f l) :
    (∃ e ∈ (calls k t f l).entries, e.lid = lid ∧ WillShow t r e) ↔
      match lastAdded k lid l with
      | some b => b = true
      | none => ∃ e ∈ f.entries, e.lid = lid ∧ WillShow t r e := by
  induction l using List.reverseRecOn with
  | nil => rfl
  | append_singleton l c ih =>
    obtain ⟨hl, hc⟩ := h.concat
    rw [calls_concat, lastAdded_concat]
    cases c with
    | addItem lid' names =>
      by_cases hk : k.Accepts names
      · rw [willShow_addItem hk, ih hl]
        by_cases hlid : lid' = lid
        · simp [hlid, hk]
        · simp [hlid]
      · rw [call, addItem, if_neg hk, ih hl]
        simp [hk]
    | removeItem lid' =>
      rw [willShow_removeItem hc, ih hl]
      by_cases hlid : lid' = lid
      · simp [hlid]
      · simp [hlid]

-- ---------------------------------------------------------------------------
-- Calls of many transactions
-- ---------------------------------------------------------------------------

inductive Event
  | call (t : TransactionID) (c : Call)
  | commit (tid now : Nat)
  | abort (tid now : Nat)

def step (k : ItemKind) (f : NamedItems) : Event → Option NamedItems
  | .call t c => some (f.call k t c)
  | .commit tid now => some (f.commitTransaction tid now)
  | .abort tid now => some (f.abortTransaction tid now)

/-- Items are removed when they may be. -/
def Ready (f : NamedItems) : Event → Prop
  | .call t c => Met t f c
  | .commit _ _ | .abort _ _ => True

def Adds (lid : Nat) : Event → Prop
  | .call _ (.addItem lid' _) => lid' = lid
  | .call _ (.removeItem _) | .commit _ _ | .abort _ _ => False

/-- All that the file has of the id is removed, and that is committed. -/
def Buried (lid : Nat) (f : NamedItems) : Prop :=
  ∀ e ∈ f.entries, e.lid = lid → e.delT ≠ none ∧ e.curTran = none

theorem modifyEntry_lid {e' : IxEntry} (h : modifyEntry tid now mode e = some e') :
    e'.lid = e.lid := by
  unfold modifyEntry at h
  split at h
  · cases hdel : e.delT <;> cases mode <;> simp only [hdel, Option.some.injEq, reduceCtorEq] at h <;>
      rw [← h]
  · rw [← Option.some.inj h]

theorem Buried.step {ev : Event} (h : Buried lid f) (hready : f.Ready ev) (hadds : ¬ Adds lid ev)
    (hs : f.step k ev = some g) : Buried lid g := by
  have hend (tid now : Nat) (mode : Mode) : Buried lid (f.modifyTransaction tid now mode) := by
    intro e' he' hlid
    rw [entries_modifyTransaction] at he'
    obtain ⟨e, he, hmodify⟩ := List.mem_filterMap.mp he'
    have hburied := h e he ((modifyEntry_lid hmodify).symm.trans hlid)
    simp only [modifyEntry, hburied.2, reduceCtorEq, if_false, Option.some.injEq] at hmodify
    subst hmodify
    exact hburied
  cases ev with
  | commit tid now =>
    cases hs
    exact hend tid now .commit
  | abort tid now =>
    cases hs
    exact hend tid now .abort
  | call t c =>
    cases hs
    cases c with
    | addItem lid' names =>
      by_cases hk : k.Accepts names
      · obtain ⟨A, B, hf, hadd⟩ := entries_addItem f t lid' hk
        intro e he hlid
        rw [call, hadd] at he
        rcases List.mem_append.mp he with he | he
        · exact h e (hf ▸ List.mem_append_left _ he) hlid
        · rcases List.mem_cons.mp he with rfl | he
          · exact absurd hlid hadds
          · exact h e (hf ▸ List.mem_append_right _ he) hlid
      · rw [call, addItem, if_neg hk]
        exact h
    | removeItem lid' =>
      rcases entries_removeItem hready with ⟨hsame, -⟩ | ⟨A, e, B, hf, he, hstanding, -, hremove⟩
      · intro e he hlid
        rw [call, hsame] at he
        exact h e he hlid
      · have hne : lid' ≠ lid := by
          rintro rfl
          exact (h e (by simp [hf]) he).1 hstanding.1
        intro e' he' hlid
        rw [call, hremove, List.append_assoc, List.mem_append, List.mem_append] at he'
        rcases he' with he' | he' | he'
        · exact h e' (hf ▸ List.mem_append_left _ he') hlid
        · split at he'
          · rw [List.mem_singleton.mp he'] at hlid
            exact absurd (he.symm.trans hlid) hne
          · cases he'
        · exact h e' (hf ▸ List.mem_append_right _ (List.mem_cons_of_mem _ he')) hlid

theorem Buried.not_mem (h : Buried lid f) (r : TransactionID) : lid ∉ f.getItems r := by
  rw [mem_getItems]
  rintro ⟨e, he, hlid, hs⟩
  have hdel := (h e he hlid).1
  simp [shown, hdel] at hs

/-- No entry of the id is standing after it was removed. -/
theorem gone_calls {l : List Call} (h : AllMet k t f l) (hlast : lastAdded k lid l = some false) :
    ∀ e ∈ (calls k t f l).entries, e.lid = lid → Gone t.id e := by
  induction l using List.reverseRecOn with
  | nil => cases hlast
  | append_singleton l c ih =>
    obtain ⟨hl, hc⟩ := h.concat
    rw [lastAdded_concat] at hlast
    rw [calls_concat]
    intro e he hlid
    cases c with
    | addItem lid' names =>
      simp only at hlast
      split at hlast
      · cases hlast
      · rename_i hnot
        by_cases hk : k.Accepts names
        · obtain ⟨A, B, hf, hadd⟩ := entries_addItem (calls k t f l) t lid' hk
          rw [call, hadd] at he
          rcases List.mem_append.mp he with he | he
          · exact ih hl hlast e (hf ▸ List.mem_append_left _ he) hlid
          · rcases List.mem_cons.mp he with rfl | he
            · exact absurd ⟨hlid, hk⟩ hnot
            · exact ih hl hlast e (hf ▸ List.mem_append_right _ he) hlid
        · rw [call, addItem, if_neg hk] at he
          exact ih hl hlast e he hlid
    | removeItem lid' =>
      rcases entries_removeItem hc with ⟨hsame, hall⟩ | ⟨A, e₀, B, hf, he₀, -, hgone, hremove⟩
      · rw [call, hsame] at he
        simp only at hlast
        split at hlast
        · rename_i heq
          exact absurd (hlid.trans heq.symm) (hall e he)
        · exact ih hl hlast e he hlid
      · rw [call, hremove, List.append_assoc, List.mem_append, List.mem_append] at he
        have hkept (hmem : e ∈ A ++ B) : Gone t.id e := by
          by_cases heq : lid' = lid
          · exact hgone e hmem (hlid.trans heq.symm)
          · simp only [if_neg heq] at hlast
            refine ih hl hlast e ?_ hlid
            rw [hf]
            rcases List.mem_append.mp hmem with he | he
            · exact List.mem_append_left _ he
            · exact List.mem_append_right _ (List.mem_cons_of_mem _ he)
        rcases he with he | he | he
        · exact hkept (List.mem_append_left _ he)
        · split at he
          · rw [List.mem_singleton.mp he]
            exact ⟨by simp, .inr rfl⟩
          · cases he
        · exact hkept (List.mem_append_right _ he)

-- ---------------------------------------------------------------------------
-- A transaction as a whole
-- ---------------------------------------------------------------------------

/-- After the end of a transaction nothing is left of it. -/
theorem curTran_modifyTransaction (h : e ∈ (f.modifyTransaction tid now mode).entries) :
    e.curTran ≠ some tid := by
  rw [entries_modifyTransaction] at h
  obtain ⟨e₀, -, hmodify⟩ := List.mem_filterMap.mp h
  unfold modifyEntry at hmodify
  split at hmodify
  · cases hdel : e₀.delT <;> cases mode <;>
      simp only [hdel, Option.some.injEq, reduceCtorEq] at hmodify <;> rw [← hmodify] <;> exact nofun
  · rename_i hcur
    rw [← Option.some.inj hmodify]
    exact hcur

theorem buried_commit (h : ∀ e ∈ f.entries, e.lid = lid → Gone tid e) :
    Buried lid (f.commitTransaction tid now) := by
  intro e he hlid
  have hcur := curTran_modifyTransaction he
  rw [commitTransaction, entries_modifyTransaction] at he
  obtain ⟨e₀, he₀, hmodify⟩ := List.mem_filterMap.mp he
  obtain ⟨hdel, hown⟩ := h e₀ he₀ ((modifyEntry_lid hmodify).symm.trans hlid)
  obtain ⟨d, hd⟩ := Option.ne_none_iff_exists'.mp hdel
  unfold modifyEntry at hmodify
  split at hmodify
  · simp only [hd, Option.some.injEq] at hmodify
    rw [← hmodify]
    exact ⟨nofun, rfl⟩
  · rename_i hne
    rw [← Option.some.inj hmodify]
    exact ⟨hdel, hown.resolve_right hne⟩

instance (tid : Nat) (e : IxEntry) : Decidable (Standing tid e) := inferInstanceAs (Decidable (_ ∧ _))

instance (tid : Nat) (e : IxEntry) : Decidable (Gone tid e) := inferInstanceAs (Decidable (_ ∧ _))

instance (tid lid : Nat) (l : List IxEntry) : Decidable (Removable tid lid l) :=
  match h : l.filter fun e => e.lid = lid with
  | [] => .isTrue (by simp [Removable, h])
  | e :: rest =>
    decidable_of_iff (Standing tid e ∧ ∀ e' ∈ rest, Gone tid e') (by simp [Removable, h])

instance (t : TransactionID) (f : NamedItems) : DecidablePred (Met t f)
  | .addItem _ _ => .isTrue trivial
  | .removeItem lid => inferInstanceAs (Decidable (Removable t.id lid f.entries))

/-- A file with the committed item 5. -/
def oneItem : NamedItems := (({} : NamedItems).addItem .schemas ⟨1, 10⟩ 5 [[]]).1.commitTransaction 1 20

end NamedItems

end Loxim.Store
