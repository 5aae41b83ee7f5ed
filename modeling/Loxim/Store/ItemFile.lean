import Mathlib.Data.Nat.Basic
import Loxim.Store.ItemPage

/-!
# The pages of a file of named items

The loops of the file go from page to page up to one that was never written to, which they
know by its timestamp. The pages are worked on in the buffer, which knows them by the lower
16 bits of their numbers, and timestamps are values of a timer of 32 bits.
-/

namespace Loxim.Store

open Bytes ItemEntry ItemPage

/-- The pages of the file as they are in the buffer. -/
abbrev ItemFile := Nat → Memory

namespace ItemFile

def page (f : ItemFile) (i : Nat) : Memory := f (i % 65536)

def setPage (f : ItemFile) (i : Nat) (m : Memory) : ItemFile := Function.update f (i % 65536) m

/-- Behind the pages that are written the buffer initializes a page when it is asked for
it. -/
def initializeFile (k : ItemKind) : ItemFile := fun a =>
  if a = 0 then initializePage k 65536
  else if a = 1 then setTimestamp (initializePage k 1) 0
  else initializePage k a

/-- The names with the bytes that end them. -/
def nameBytes (names : List (List (BitVec 8))) : List UInt8 :=
  (names.map fun n => n.map UInt8.ofBitVec ++ [0]).flatten

def createEntry (t : TransactionID) (logicalID : Int) (names : List (List (BitVec 8))) :
    List UInt8 :=
  Scalar.int.toBytes (20 + (nameBytes names).length) ++ Scalar.int.toBytes logicalID ++
    Scalar.int.toBytes t.id ++ Scalar.int.toBytes t.timeStamp ++ Scalar.int.toBytes nullValue ++
    nameBytes names

/-- The numbers of pages are of type `int`. -/
def maxPage : Nat := 0x7FFFFFFF

def addLoop (entryBuf : List UInt8) (now : UInt32) : Nat → Nat → ItemFile → Option ItemFile
  | 0, _, _ => none
  | n + 1, i, f =>
    if entryBuf.length ≤ free (f.page i) then
      some (f.setPage i (pushEntry (f.page i) entryBuf now.toNat))
    else addLoop entryBuf now n (i + 1) f

/-- What a loop leaves, and the entries that it came by. -/
structure Walk where
  file : ItemFile
  visited : List (List UInt8) := []

/-- The loop over the pages, which ends behind a page with `last`. -/
def pagesLoop (scan : Scan → Option Scan) (last : Scan → Bool) : Nat → Nat → Walk → Option Walk
  | 0, _, _ => none
  | n + 1, i, w =>
    let m := w.file.page i
    if timestamp m = nullValue then some w
    else if ItemPage.entries m = 0 then pagesLoop scan last n (i + 1) w
    else do
      let s ← scan { page := m, visited := w.visited }
      let w := { file := w.file.setPage i s.page, visited := s.visited : Walk }
      if last s then return w
      pagesLoop scan last n (i + 1) w

def addItem (k : ItemKind) (f : ItemFile) (t : TransactionID) (logicalID : Int)
    (names : List (List (BitVec 8))) (now : UInt32) : Option (ItemFile × Int) :=
  if k.Accepts names then
    (addLoop (createEntry t logicalID names) now maxPage 1 f).map fun f => (f, 0)
  else some (f, 1)

def removeItem (f : ItemFile) (t : TransactionID) (logicalID : Int) (now : UInt32) : Option Walk :=
  pagesLoop (removeScan t logicalID now.toNat pageSize headerSize) Scan.changed maxPage 1
    { file := f }

def modifyTransaction (f : ItemFile) (tid : Nat) (mode : NamedItems.Mode) (now : Nat → UInt32) :
    Option Walk :=
  pagesLoop (modifyScan tid mode (fun j => (now j).toNat) pageSize headerSize) (fun _ => false)
    maxPage 1 { file := f }

def getItems (f : ItemFile) : Option Walk :=
  pagesLoop (itemsScan pageSize headerSize) (fun _ => false) maxPage 1 { file := f }

inductive Call
  | addItem (t : TransactionID) (logicalID : Int) (names : List (List (BitVec 8))) (now : UInt32)
  | removeItem (t : TransactionID) (logicalID : Int) (now : UInt32)
  | commitTransaction (tid : Nat) (now : Nat → UInt32)
  | abortTransaction (tid : Nat) (now : Nat → UInt32)
  | getItems

def call (k : ItemKind) (f : ItemFile) : Call → Option Walk
  | .addItem t logicalID names now =>
    (f.addItem k t logicalID names now).map fun r => { file := r.1 }
  | .removeItem t logicalID now => f.removeItem t logicalID now
  | .commitTransaction tid now => f.modifyTransaction tid .commit now
  | .abortTransaction tid now => f.modifyTransaction tid .abort now
  | .getItems => f.getItems

def step (k : ItemKind) (f : ItemFile) (c : Call) : Option ItemFile := (f.call k c).map Walk.file

-- ---------------------------------------------------------------------------
-- What the pages hold
-- ---------------------------------------------------------------------------

/-- The pages of the file have the entries, and those behind the last of them were never
written to. -/
structure Holds (f : ItemFile) (pages : List (List ItemEntry)) : Prop where
  length : pages.length ≤ 65535
  formed : ∀ i < 65536, Formed (f.page (i + 1)) (pages.getD i [])
  unused : ∀ i < 65536, timestamp (f.page (i + 1)) = nullValue ↔ pages.length ≤ i

variable {k : ItemKind} {f : ItemFile} {pages pre rest : List (List ItemEntry)}
  {es es' : List ItemEntry} {e : ItemEntry} {m : Memory} {i n : Nat} {v : List (List UInt8)}

theorem page_setPage_self (i : Nat) : (f.setPage i m).page i = m := Function.update_self ..

theorem page_setPage_of_ne {i j : Nat} (hi : i < 65536) (hj : j < 65536) (h : j ≠ i) :
    (f.setPage (i + 1) m).page (j + 1) = f.page (j + 1) :=
  Function.update_of_ne (by omega) ..

theorem readInt_blank (p : Nat) : blank.readInt p = 0 := by
  rw [Memory.readInt, Memory.readBytes]
  simp only [blank, List.map_const', List.length_range]
  decide

theorem formed_initializePage (k : ItemKind) (i : Nat) : Formed (initializePage k i) [] := by
  have hkind : ∀ n : Nat, (encode 2 n).length = 2 := fun n => length_encode
  have hid : (Scalar.uint.toBytes i).length = 4 := Scalar.length_toBytes
  refine ⟨?_, by decide, ?_, packed_nil⟩
  · rw [initializePage, setFree, ItemPage.free, Memory.readInt_writeInt (by decide)]
    rfl
  · rw [initializePage, setFree, setTimestamp, ItemPage.entries,
      Memory.readInt_writeInt_of_disjoint (by omega),
      Memory.readInt_writeBytes_of_disjoint (by omega),
      Memory.readInt_writeInt_of_disjoint (by omega),
      Memory.readInt_writeBytes_of_disjoint (by rw [hkind]; omega),
      Memory.readInt_writeBytes_of_disjoint (by rw [hkind]; omega), readInt_blank]
    rfl

theorem timestamp_initializePage (k : ItemKind) (i : Nat) :
    timestamp (initializePage k i) = nullValue := by
  have hid : (Scalar.uint.toBytes i).length = 4 := Scalar.length_toBytes
  rw [initializePage, setFree, timestamp, Memory.readInt_writeInt_of_disjoint (by omega),
    Memory.readInt_writeBytes_of_disjoint (by omega), setTimestamp,
    Memory.readInt_writeInt (by decide)]

/-- The page that the buffer has at first for a number up to 65536. -/
theorem page_initializeFile (hi : 0 < i) (hle : i < 65536) :
    (initializeFile k).page (i + 1) = initializePage k (i + 1) := by
  rw [page, initializeFile]
  split
  · rw [show i + 1 = 65536 by omega]
  · rw [if_neg (by omega), Nat.mod_eq_of_lt (by omega)]

theorem holds_initializeFile (k : ItemKind) : Holds (initializeFile k) [[]] := by
  refine ⟨by decide, fun i hi => ?_, fun i hi => ?_⟩
  · cases i with
    | zero => exact (formed_initializePage k 1).setTimestamp
    | succ i =>
      rw [page_initializeFile (by omega) hi]
      exact formed_initializePage k _
  · cases i with
    | zero =>
      refine ⟨fun hnull => ?_, fun hle => absurd hle (by decide)⟩
      have htime : timestamp ((initializeFile k).page (0 + 1)) = Scalar.int.wrap 0 :=
        timestamp_setTimestamp _ _
      rw [htime] at hnull
      exact absurd hnull (by decide)
    | succ i =>
      rw [page_initializeFile (by omega) hi]
      exact ⟨fun _ => Nat.succ_pos i, fun _ => timestamp_initializePage k _⟩

theorem Holds.middle (h : Holds f (pre ++ es :: rest)) :
    Formed (f.page (pre.length + 1)) es ∧ timestamp (f.page (pre.length + 1)) ≠ nullValue := by
  have hlen := h.length
  rw [List.length_append, List.length_cons] at hlen
  have hget : (pre ++ es :: rest).getD pre.length [] = es := by
    simp [List.getD_eq_getElem?_getD]
  have hformed := h.formed pre.length (by omega)
  rw [hget] at hformed
  refine ⟨hformed, fun hnull => ?_⟩
  have hle := (h.unused pre.length (by omega)).mp hnull
  rw [List.length_append, List.length_cons] at hle
  omega

/-- One of the pages gets other entries. -/
theorem Holds.replace (h : Holds f (pre ++ es :: rest)) (hm : Formed m es')
    (htime : timestamp m ≠ nullValue) :
    Holds (f.setPage (pre.length + 1) m) (pre ++ es' :: rest) := by
  have hlen : (pre ++ es' :: rest).length = (pre ++ es :: rest).length := by simp
  have hlt : pre.length < (pre ++ es :: rest).length := by simp
  have hmax := h.length
  refine ⟨hlen ▸ h.length, fun i hi => ?_, fun i hi => ?_⟩
  · by_cases heq : i = pre.length
    · subst heq
      rw [page_setPage_self]
      simpa using hm
    · rw [page_setPage_of_ne (by omega) hi heq]
      have hold := h.formed i hi
      have hget : (pre ++ es' :: rest).getD i [] = (pre ++ es :: rest).getD i [] := by
        simp only [List.getD_eq_getElem?_getD, List.getElem?_append, List.getElem?_cons]
        split
        · rfl
        · rw [if_neg (by omega), if_neg (by omega)]
      rwa [hget]
  · rw [hlen]
    by_cases heq : i = pre.length
    · subst heq
      rw [page_setPage_self]
      exact ⟨fun hnull => absurd hnull htime, fun hle => absurd hle (Nat.not_le.mpr hlt)⟩
    · rw [page_setPage_of_ne (by omega) hi heq]
      exact h.unused i hi

/-- The first of the other pages is written to. -/
theorem Holds.extend (h : Holds f pages) (hlen : pages.length < 65535) (hm : Formed m es)
    (htime : timestamp m ≠ nullValue) :
    Holds (f.setPage (pages.length + 1) m) (pages ++ [es]) := by
  have hlen' : (pages ++ [es]).length = pages.length + 1 := by simp
  refine ⟨by omega, fun i hi => ?_, fun i hi => ?_⟩
  · by_cases heq : i = pages.length
    · subst heq
      rw [page_setPage_self]
      simpa using hm
    · rw [page_setPage_of_ne (by omega) hi heq]
      have hold := h.formed i hi
      have hget : (pages ++ [es]).getD i [] = pages.getD i [] := by
        simp only [List.getD_eq_getElem?_getD, List.getElem?_append, List.getElem?_singleton]
        split
        · rfl
        · rw [if_neg (by omega), List.getElem?_eq_none (by omega)]
      rwa [hget]
  · rw [hlen']
    by_cases heq : i = pages.length
    · subst heq
      rw [page_setPage_self]
      exact ⟨fun hnull => absurd hnull htime, fun hle => absurd hle (by omega)⟩
    · rw [page_setPage_of_ne (by omega) hi heq, h.unused i hi]
      omega

-- ---------------------------------------------------------------------------
-- The loops
-- ---------------------------------------------------------------------------

/-- The entries up to the first at which a scan ends. -/
def upTo (stop : ItemEntry → Bool) : List ItemEntry → List ItemEntry
  | [] => []
  | e :: r => if stop e then [e] else e :: upTo stop r

variable {stop : ItemEntry → Bool} {l r : List ItemEntry}

theorem upTo_false : upTo (fun _ => false) l = l := by
  induction l with
  | nil => rfl
  | cons e l ih => rw [upTo, if_neg Bool.false_ne_true, ih]

theorem upTo_append :
    upTo stop (l ++ r) = upTo stop l ++ (if l.any stop then [] else upTo stop r) := by
  induction l with
  | nil => rfl
  | cons e l ih =>
    rw [List.cons_append, upTo, upTo, List.any_cons, ih]
    cases stop e with
    | true => rfl
    | false => rfl

/-- What the loops need of the scan of a page: it comes by the entries up to the one at
which it ends, and leaves a page of entries with a timestamp. -/
def Scans (scan : Scan → Option Scan) (last : Scan → Bool) (stop : ItemEntry → Bool) : Prop :=
  ∀ m es v, Formed m es → timestamp m ≠ nullValue →
    ∃ s es', scan { page := m, visited := v } = some s ∧ Formed s.page es' ∧
      timestamp s.page ≠ nullValue ∧ s.visited = v ++ (upTo stop es).map bytes ∧
      last s = es.any stop

theorem pagesLoop_spec {scan : Scan → Option Scan} {last : Scan → Bool}
    (hscan : Scans scan last stop) (h : Holds f (pre ++ rest)) (hn : rest.length < n) :
    ∃ w rest', pagesLoop scan last n (pre.length + 1) { file := f, visited := v } = some w ∧
      Holds w.file (pre ++ rest') ∧ w.visited = v ++ (upTo stop rest.flatten).map bytes := by
  induction rest generalizing pre f v n with
  | nil =>
    obtain ⟨n, rfl⟩ := Nat.exists_eq_succ_of_ne_zero (Nat.ne_of_gt hn)
    have hlen := h.length
    rw [List.append_nil] at h hlen
    refine ⟨{ file := f, visited := v }, [], ?_, by rwa [List.append_nil], by simp [upTo]⟩
    rw [pagesLoop, if_pos ((h.unused pre.length (by omega)).mpr (Nat.le_refl _))]
  | cons es rest ih =>
    obtain ⟨n, rfl⟩ := Nat.exists_eq_succ_of_ne_zero (Nat.ne_of_gt (Nat.zero_lt_of_lt hn))
    have hlt := Nat.lt_of_succ_lt_succ hn
    have hlen := h.length
    rw [List.length_append, List.length_cons] at hlen
    obtain ⟨hformed, htime⟩ := h.middle
    have hnext (es' rest) : pre ++ es' :: rest = pre ++ [es'] ++ rest := by simp
    have hcount (es' : List ItemEntry) : (pre ++ [es']).length = pre.length + 1 := by simp
    rw [pagesLoop, if_neg htime]
    split
    · -- a page without entries
      rename_i hzero
      obtain rfl : es = [] := by
        have hentries := hformed.entries
        rw [hzero] at hentries
        exact List.length_eq_zero_iff.mp (by omega)
      rw [hnext] at h
      obtain ⟨w, rest', hw, hholds, hvisited⟩ := @ih f (pre ++ [[]]) n v h hlt
      rw [hcount] at hw
      refine ⟨w, [] :: rest', hw, ?_, by simpa using hvisited⟩
      rwa [hnext]
    · obtain ⟨s, es', hs, hpage, hstime, hsvisited, hlast⟩ := hscan _ es v hformed htime
      have hreplaced := h.replace hpage hstime
      rw [hs, Option.bind_eq_bind, Option.bind_some, hlast]
      rw [List.flatten_cons, upTo_append]
      split
      · refine ⟨_, es' :: rest, rfl, hreplaced, ?_⟩
        rw [hsvisited, List.append_nil]
      · rw [hnext] at hreplaced
        obtain ⟨w, rest', hw, hholds, hvisited⟩ := @ih _ (pre ++ [es']) n s.visited hreplaced hlt
        rw [hcount] at hw
        refine ⟨w, es' :: rest', hw, by rwa [hnext], ?_⟩
        rw [hvisited, hsvisited, List.map_append, List.append_assoc]

theorem length_lt_pageSize (h : Formed m es) : es.length < pageSize := by
  have hfits := h.fits
  have hle := length_le_total es
  have hheader : headerSize = 20 := rfl
  omega

/-- The timer is at its highest value, which as an `int` is the mark of an unused page. -/
theorem wrap_ne_nullValue {now : UInt32} (h : now ≠ 0xFFFFFFFF) :
    Scalar.int.wrap now.toNat ≠ nullValue := by
  have hlt := now.toNat_lt
  have hne : now.toNat ≠ 4294967295 := fun heq => h (UInt32.toNat_inj.mp heq)
  simp only [Scalar.wrap, nullValue]
  omega

variable {t : TransactionID} {logicalID : Int} {tid : Nat} {mode : NamedItems.Mode} {now : UInt32}
  {times : Nat → UInt32}

theorem upTo_of_found {r₁ r₂ : List ItemEntry} (h : ∀ x ∈ r₁, ¬ stop x = true)
    (he : stop e = true) :
    upTo stop (r₁ ++ e :: r₂) = r₁ ++ [e] := by
  induction r₁ with
  | nil => rw [List.nil_append, upTo, if_pos he, List.nil_append]
  | cons x r₁ ih =>
    rw [List.forall_mem_cons] at h
    rw [List.cons_append, upTo, if_neg h.1, ih h.2, List.cons_append]

theorem upTo_of_not_found (h : ∀ x ∈ l, ¬ stop x = true) : upTo stop l = l := by
  induction l with
  | nil => rfl
  | cons x l ih =>
    rw [List.forall_mem_cons] at h
    rw [upTo, if_neg h.1, ih h.2]

theorem scans_remove (hnow : now ≠ 0xFFFFFFFF) :
    Scans (removeScan t logicalID now.toNat pageSize headerSize) Scan.changed
      (fun e => decide (e.lid = logicalID)) := by
  intro m es v hformed htime
  obtain ⟨r₁, e, r₂, rfl, he, hr₁, m', hm', hformed', htime'⟩ | ⟨hall, hm'⟩ :=
    @removeScan_spec [] es now.toNat t logicalID pageSize { page := m, visited := v } hformed
      (length_lt_pageSize hformed)
  · refine ⟨_, _, hm', hformed', ?_, ?_, ?_⟩
    · rw [htime']
      exact wrap_ne_nullValue hnow
    · rw [upTo_of_found (by simpa using hr₁) (by simpa using he)]
    · simp [he]
  · refine ⟨{ page := m, visited := v ++ es.map bytes }, es, hm', hformed, htime, ?_, ?_⟩
    · rw [upTo_of_not_found (by simpa using hall)]
    · simpa using hall

theorem scans_modify (hnow : ∀ j, times j ≠ 0xFFFFFFFF) :
    Scans (modifyScan tid mode (fun j => (times j).toNat) pageSize headerSize) (fun _ => false)
      (fun _ => false) := by
  intro m es v hformed htime
  obtain ⟨s, hs, hvisited, hpage, hstime⟩ :=
    @modifyScan_spec [] es pageSize tid { page := m, visited := v } mode
      (fun j => (times j).toNat) hformed (length_lt_pageSize hformed)
  refine ⟨s, _, hs, hpage, ?_, ?_, by simp⟩
  · obtain heq | ⟨j, heq⟩ := hstime
    · rwa [heq]
    · rw [heq]
      exact wrap_ne_nullValue (hnow j)
  · rw [hvisited, upTo_false]

theorem scans_items : Scans (itemsScan pageSize headerSize) (fun _ => false) (fun _ => false) := by
  intro m es v hformed htime
  have hs := @itemsScan_spec [] es pageSize { page := m, visited := v } hformed
    (length_lt_pageSize hformed)
  exact ⟨_, es, hs, hformed, htime, by rw [upTo_false], by simp⟩

-- ---------------------------------------------------------------------------
-- New entries
-- ---------------------------------------------------------------------------

variable {names : List (List (BitVec 8))} {buf : List UInt8}

theorem length_nameBytes {maxs : List Nat}
    (h : List.Forall₂ (fun n max => List.length n ≤ max) names maxs) :
    (nameBytes names).length ≤ (maxs.map (· + 1)).sum := by
  induction h with
  | nil => exact Nat.le_refl _
  | cons hn _ ih =>
    simp only [nameBytes, List.map_cons, List.flatten_cons, List.length_append, List.length_map,
      List.length_singleton, List.sum_cons] at ih ⊢
    omega

theorem length_nameBytes_le (h : k.Accepts names) : (nameBytes names).length ≤ 3003 := by
  refine (length_nameBytes h).trans ?_
  cases k <;> decide

theorem length_createEntry :
    (createEntry t logicalID names).length = 20 + (nameBytes names).length := by
  simp [createEntry, Scalar.size]
  omega

/-- A new entry begins with its size. -/
theorem exists_createEntry (t : TransactionID) (logicalID : Int) (h : k.Accepts names) :
    ∃ e : ItemEntry, e.bytes = createEntry t logicalID names := by
  have hlen := length_nameBytes_le h
  have htake : (createEntry t logicalID names).take 4 =
      Scalar.int.toBytes (20 + (nameBytes names).length) := by
    simp only [createEntry, List.append_assoc]
    exact List.take_left' Scalar.length_toBytes
  refine ⟨⟨createEntry t logicalID names, ?_, ?_⟩, rfl⟩
  · rw [length_createEntry]
    omega
  · rw [htake, Scalar.ofBytes_toBytes, length_createEntry]
    exact Scalar.wrap_of_holds ⟨by omega, by omega⟩

/-- There is room on a page that has a number of 16 bits. -/
def HasRoom (f : ItemFile) (size : Nat) : Prop :=
  ∃ i < 65535, (size : Int) ≤ free (f.page (i + 1))

theorem addLoop_spec (h : Holds f (pre ++ rest)) (hn : rest.length < n)
    (hroom : f.HasRoom e.bytes.length) (hfits : e.bytes.length ≤ 3023) (hnow : now ≠ 0xFFFFFFFF)
    (hpre : ∀ i < pre.length, ¬ (e.bytes.length : Int) ≤ free (f.page (i + 1))) :
    ∃ f' rest', addLoop e.bytes now n (pre.length + 1) f = some f' ∧ Holds f' (pre ++ rest') := by
  have hstamp (m) : timestamp (pushEntry m e.bytes now.toNat) ≠ nullValue := by
    rw [pushEntry, timestamp_setTimestamp]
    exact wrap_ne_nullValue hnow
  induction rest generalizing pre n with
  | nil =>
    obtain ⟨n, rfl⟩ := Nat.exists_eq_succ_of_ne_zero (Nat.ne_of_gt hn)
    rw [List.append_nil] at h
    -- one of the pages behind has room, so there is one with a number of 16 bits
    have hlt : pre.length < 65535 := by
      obtain ⟨i, hi, hfree⟩ := hroom
      by_contra hle
      exact hpre i (by omega) hfree
    have hempty := h.formed pre.length (by omega)
    rw [List.getD_eq_getElem?_getD, List.getElem?_eq_none (Nat.le_refl _)] at hempty
    have hfree : (e.bytes.length : Int) ≤ free (f.page (pre.length + 1)) := by
      rw [hempty.free]
      simp only [pageSize, headerSize, total]
      simp
      omega
    refine ⟨_, [[e]], by rw [addLoop, if_pos hfree], ?_⟩
    exact h.extend hlt (hempty.push hfree) (hstamp _)
  | cons es rest ih =>
    obtain ⟨n, rfl⟩ := Nat.exists_eq_succ_of_ne_zero (Nat.ne_of_gt (Nat.zero_lt_of_lt hn))
    obtain ⟨hformed, -⟩ := h.middle
    rw [addLoop]
    split
    · rename_i hfree
      exact ⟨_, (es ++ [e]) :: rest, rfl, h.replace (hformed.push hfree) (hstamp _)⟩
    · rename_i hfull
      have hcount : (pre ++ [es]).length = pre.length + 1 := by simp
      have hpre' : ∀ i < (pre ++ [es]).length, ¬ (e.bytes.length : Int) ≤ free (f.page (i + 1)) := by
        intro i hi
        rw [hcount] at hi
        obtain hlt | rfl := Nat.lt_or_eq_of_le (Nat.le_of_lt_succ hi)
        · exact hpre i hlt
        · exact hfull
      have hsplit : pre ++ es :: rest = pre ++ [es] ++ rest := by simp
      obtain ⟨f', rest', hf', hholds⟩ :=
        @ih (pre ++ [es]) n (hsplit ▸ h) (Nat.lt_of_succ_lt_succ hn) hpre'
      rw [hcount] at hf'
      refine ⟨f', es :: rest', hf', ?_⟩
      rwa [List.append_assoc] at hholds

-- ---------------------------------------------------------------------------
-- Runs
-- ---------------------------------------------------------------------------

/-- The timer does not give the mark of an unused page, and a new entry has room on a page
with a number of 16 bits. -/
def Ready (k : ItemKind) (f : ItemFile) : Call → Prop
  | .addItem t logicalID names now =>
    now ≠ 0xFFFFFFFF ∧ (k.Accepts names → f.HasRoom (createEntry t logicalID names).length)
  | .removeItem _ _ now => now ≠ 0xFFFFFFFF
  | .commitTransaction _ now => ∀ j, now j ≠ 0xFFFFFFFF
  | .abortTransaction _ now => ∀ j, now j ≠ 0xFFFFFFFF
  | .getItems => True

/-- The entries that a call is to come by. -/
def Call.path : Call → List ItemEntry → List ItemEntry
  | .addItem _ _ _ _, _ => []
  | .removeItem _ logicalID _, es => upTo (fun e => decide (e.lid = logicalID)) es
  | .commitTransaction _ _, es => es
  | .abortTransaction _ _, es => es
  | .getItems, es => es

/-- The pages are well formed, and every call returns and comes by each entry once. -/
def Orderly (k : ItemKind) (f : ItemFile) : Prop :=
  ∃ pages, Holds f pages ∧ ∀ c, Ready k f c →
    ∃ w, f.call k c = some w ∧ w.visited = (c.path pages.flatten).map bytes

theorem Holds.lt_maxPage (h : Holds f pages) : pages.length < maxPage := by
  have hlen := h.length
  have hmax : maxPage = 2147483647 := rfl
  omega

theorem Holds.call {c : Call} (h : Holds f pages) (hready : Ready k f c) :
    ∃ w pages', f.call k c = some w ∧ Holds w.file pages' ∧
      w.visited = (c.path pages.flatten).map bytes := by
  have hfirst : Holds f ([] ++ pages) := h
  cases c with
  | addItem t logicalID names now =>
    obtain ⟨hnow, hroom⟩ := hready
    by_cases haccepts : k.Accepts names
    · obtain ⟨e, he⟩ := exists_createEntry t logicalID haccepts
      have hsize : e.bytes.length ≤ 3023 := by
        have hle := length_nameBytes_le haccepts
        rw [he, length_createEntry]
        omega
      have hroom' := hroom haccepts
      rw [← he] at hroom'
      obtain ⟨f', pages', hf', hholds⟩ :=
        @addLoop_spec f [] pages e maxPage now h h.lt_maxPage hroom' hsize hnow
          (fun i hi => absurd hi (Nat.not_lt_zero i))
      refine ⟨{ file := f' }, pages', ?_, hholds, rfl⟩
      rw [he] at hf'
      rw [ItemFile.call, addItem, if_pos haccepts]
      exact congrArg (Option.map _) (congrArg (Option.map _) hf')
    · refine ⟨{ file := f }, pages, ?_, h, rfl⟩
      rw [ItemFile.call, addItem, if_neg haccepts, Option.map_some]
  | removeItem t logicalID now =>
    exact pagesLoop_spec (scans_remove hready) hfirst h.lt_maxPage
  | commitTransaction tid now =>
    obtain ⟨w, pages', hw, hholds, hvisited⟩ :=
      pagesLoop_spec (scans_modify hready) hfirst h.lt_maxPage
    exact ⟨w, pages', hw, hholds, hvisited.trans (by rw [upTo_false]; rfl)⟩
  | abortTransaction tid now =>
    obtain ⟨w, pages', hw, hholds, hvisited⟩ :=
      pagesLoop_spec (scans_modify hready) hfirst h.lt_maxPage
    exact ⟨w, pages', hw, hholds, hvisited.trans (by rw [upTo_false]; rfl)⟩
  | getItems =>
    obtain ⟨w, pages', hw, hholds, hvisited⟩ :=
      pagesLoop_spec scans_items hfirst h.lt_maxPage
    exact ⟨w, pages', hw, hholds, hvisited.trans (by rw [upTo_false]; rfl)⟩

theorem exists_holds (h : Reaches (step k) (Ready k) (initializeFile k) f) :
    ∃ pages, Holds f pages := by
  refine h.invariant (I := fun f => ∃ pages, Holds f pages) ⟨_, holds_initializeFile k⟩ ?_
  rintro f c f' ⟨pages, hholds⟩ hready hstep
  obtain ⟨w, pages', hw, hholds', -⟩ := hholds.call hready
  rw [step, hw, Option.map_some] at hstep
  cases hstep
  exact ⟨pages', hholds'⟩

/-- Every run stays orderly. -/
theorem orderly_of_ready (h : Reaches (step k) (Ready k) (initializeFile k) f) : Orderly k f := by
  obtain ⟨pages, hholds⟩ := exists_holds h
  refine ⟨pages, hholds, fun c hready => ?_⟩
  obtain ⟨w, -, hw, -, hvisited⟩ := hholds.call hready
  exact ⟨w, hw, hvisited⟩

/-- Into a new file. -/
theorem addItem_initializeFile (t : TransactionID) (logicalID : Int) (now : UInt32)
    (h : k.Accepts names) : ∃ e f, e.bytes = createEntry t logicalID names ∧
      step k (initializeFile k) (.addItem t logicalID names now) = some f ∧
      Formed (f.page 1) [e] ∧ timestamp (f.page 1) = Scalar.int.wrap now.toNat := by
  obtain ⟨e, he⟩ := exists_createEntry t logicalID h
  have hlen := length_nameBytes_le h
  have hnew : Formed ((initializeFile k).page 1) [] := (holds_initializeFile k).formed 0 (by decide)
  have hfree : (e.bytes.length : Int) ≤ free ((initializeFile k).page 1) := by
    rw [hnew.free, he, length_createEntry]
    simp only [pageSize, headerSize, total]
    simp
    omega
  have hadd : addLoop e.bytes now maxPage 1 (initializeFile k) = some ((initializeFile k).setPage 1
      (pushEntry ((initializeFile k).page 1) e.bytes now.toNat)) := by
    rw [show maxPage = 2147483646 + 1 from rfl, addLoop, if_pos hfree]
  refine ⟨e, (initializeFile k).setPage 1
    (pushEntry ((initializeFile k).page 1) e.bytes now.toNat), he, ?_, ?_, ?_⟩
  · rw [step, ItemFile.call, addItem, if_pos h, ← he, hadd]
    rfl
  · rw [page_setPage_self]
    exact hnew.push hfree
  · rw [page_setPage_self]
    exact timestamp_setTimestamp _ _

theorem hasRoom_initializeFile {size : Nat} (h : size ≤ 16364) :
    (initializeFile k).HasRoom size := by
  refine ⟨0, by decide, ?_⟩
  rw [((holds_initializeFile k).formed 0 (by decide)).free]
  simp only [pageSize, headerSize, total]
  simp
  omega

theorem orderly_of_ready_added : ∃ f,
    Reaches (step .roots) (Ready .roots) (initializeFile .roots) f ∧
    step .roots (initializeFile .roots) (.addItem ⟨1, 1⟩ 5 [[97#8]] 1) = some f ∧
    Orderly .roots f := by
  have haccepts : ItemKind.roots.Accepts [[97#8]] := by decide
  obtain ⟨e, f, -, hstep, -, -⟩ := addItem_initializeFile ⟨1, 1⟩ 5 1 haccepts
  have hlen := length_nameBytes_le haccepts
  have hready : Ready .roots (initializeFile .roots) (.addItem ⟨1, 1⟩ 5 [[97#8]] 1) := by
    refine ⟨by decide, fun _ => hasRoom_initializeFile ?_⟩
    rw [length_createEntry]
    omega
  have hreach := Reaches.refl.step hready hstep
  exact ⟨f, hreach, hstep, orderly_of_ready hreach⟩

/-- The root that is added while the timer has its highest value marks its page as unused:
the page has an entry, and no scan comes by it. -/
theorem not_orderly_at_highest_time : ∃ f e,
    Reaches (step .roots) (fun _ _ => True) (initializeFile .roots) f ∧
      Formed (f.page 1) [e] ∧ f.getItems = some { file := f } ∧ ¬ Orderly .roots f := by
  have haccepts : ItemKind.roots.Accepts [[97#8]] := by decide
  obtain ⟨e, f, -, hstep, hformed, htime⟩ := addItem_initializeFile ⟨1, 1⟩ 5 0xFFFFFFFF haccepts
  have hnull : timestamp (f.page 1) = nullValue := htime.trans (by decide)
  refine ⟨f, e, Reaches.refl.step trivial hstep, hformed, ?_, ?_⟩
  · rw [getItems, show maxPage = 2147483646 + 1 from rfl, pagesLoop, if_pos hnull]
  · rintro ⟨pages, hholds, -⟩
    have hlen := (hholds.unused 0 (by decide)).mp hnull
    obtain rfl : pages = [] := List.length_eq_zero_iff.mp (by omega)
    have hempty : Formed (f.page 1) [] := hholds.formed 0 (by decide)
    have hcount := hformed.entries.symm.trans hempty.entries
    simp at hcount

end ItemFile

end Loxim.Store
