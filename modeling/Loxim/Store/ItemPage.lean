import Loxim.Lib.Packed
import Loxim.Store.NamedItems
import Loxim.Store.SlottedPage

/-!
# The bytes of a page of named items

Behind the header of a page with the room that is free and the number of the entries, the
entries stand one after another. Each of them begins with its size, by which the scans
go on to the next.
-/

namespace Loxim.Store

open Bytes

/-- `STORE_IX_NULLVALUE`. -/
def nullValue : Int := -1

/-- `STORE_FILE_`. -/
def ItemKind.file : ItemKind → Nat
  | .roots => 0xFF20
  | .classes => 0xFF40
  | .interfaces => 0xFF50
  | .schemas => 0xFF60

/-- `STORE_PAGE_PAGE`. -/
def ItemKind.pageType : ItemKind → Nat
  | .roots => 0x2002
  | .classes => 0x4002
  | .interfaces => 0x5002
  | .schemas => 0x6002

namespace ItemPage

/-- `sizeof(ixr_page)`. -/
def headerSize : Nat := 20

def timestamp (m : Memory) : Int := m.readInt 8

def free (m : Memory) : Int := m.readInt 12

def entries (m : Memory) : Int := m.readInt 16

def setTimestamp (m : Memory) (v : Int) : Memory := m.writeInt 8 v

def setFree (m : Memory) (v : Int) : Memory := m.writeInt 12 v

def setEntries (m : Memory) (v : Int) : Memory := m.writeInt 16 v

/-- The fields of the `ix_entry` at an offset. -/
def size (m : Memory) (offset : Int) : Int := m.readInt offset.toNat

def lid (m : Memory) (offset : Int) : Int := m.readInt (offset.toNat + 4)

def curTran (m : Memory) (offset : Int) : Int := m.readInt (offset.toNat + 8)

def delT (m : Memory) (offset : Int) : Int := m.readInt (offset.toNat + 16)

def setCurTran (m : Memory) (offset : Int) (v : Int) : Memory := m.writeInt (offset.toNat + 8) v

def setAddT (m : Memory) (offset : Int) (v : Int) : Memory := m.writeInt (offset.toNat + 12) v

def setDelT (m : Memory) (offset : Int) (v : Int) : Memory := m.writeInt (offset.toNat + 16) v

/-- A page that `memset` has filled. -/
def blank : Memory := fun _ => 0

def initializePage (k : ItemKind) (pageID : Nat) : Memory :=
  let m := blank.writeBytes 4 (encode 2 k.file)
  let m := m.writeBytes 6 (encode 2 k.pageType)
  let m := setTimestamp m nullValue
  let m := m.writeBytes 0 (Scalar.uint.toBytes pageID)
  setFree m (pageSize - headerSize)

/-- The bytes of an entry are put behind the last. -/
def pushEntry (m : Memory) (entryBuf : List UInt8) (now : Int) : Memory :=
  let m := m.writeBytes (pageSize - free m).toNat entryBuf
  let m := setFree m (free m - entryBuf.length)
  let m := setEntries m (entries m + 1)
  setTimestamp m now

/-- The entries behind one are moved down over it. -/
def removeEntry (m : Memory) (offset entrySize : Int) : Memory :=
  let m := m.move (offset + entrySize).toNat offset.toNat
    (pageSize - (offset + entrySize + free m)).toNat
  let m := setFree m (free m + entrySize)
  let m := setEntries m (entries m - 1)
  m.clear (pageSize - free m).toNat (free m).toNat

-- ---------------------------------------------------------------------------
-- The scans of a page
-- ---------------------------------------------------------------------------

/-- What a scan leaves, whether it has changed the page, and the entries that it came by. -/
structure Scan where
  page : Memory
  changed : Bool := false
  visited : List (List UInt8) := []

/-- The bytes of the entry at an offset. -/
def entryAt (m : Memory) (offset : Int) : List UInt8 :=
  m.readBytes offset.toNat (size m offset).toNat

/-- The scan of `removeItem`, which ends at the first entry of the id; `none` if it does not
end after so many steps. -/
def removeScan (t : TransactionID) (logicalID now : Int) : Nat → Int → Scan → Option Scan
  | 0, _, _ => none
  | n + 1, offset, s =>
    let m := s.page
    if offset < pageSize - free m then
      let visited := s.visited ++ [entryAt m offset]
      if lid m offset = logicalID then
        let m := if curTran m offset = nullValue then
            setDelT (setCurTran m offset t.id) offset t.timeStamp
          else removeEntry m offset (size m offset)
        some { page := setTimestamp m now, changed := true, visited }
      else removeScan t logicalID now n (offset + size m offset) { s with visited }
    else some s

/-- What `modifyTransaction` makes of an entry of the transaction, and how far the scan goes
on. -/
def modifyAt (mode : NamedItems.Mode) (now : Int) (m : Memory) (offset : Int) : Memory × Int :=
  if delT m offset = nullValue then
    match mode with
    | .commit => (setCurTran (setAddT m offset now) offset nullValue, size m offset)
    | .abort => (removeEntry m offset (size m offset), 0)
  else
    match mode with
    | .commit => (setCurTran (setDelT m offset now) offset nullValue, size m offset)
    | .abort => (setCurTran (setDelT m offset nullValue) offset nullValue, size m offset)

/-- The scan of `modifyTransaction`; `now` has the values of the timer. -/
def modifyScan (tid : Nat) (mode : NamedItems.Mode) (now : Nat → Int) :
    Nat → Int → Scan → Option Scan
  | 0, _, _ => none
  | n + 1, offset, s =>
    let m := s.page
    if offset < pageSize - free m then
      let visited := s.visited ++ [entryAt m offset]
      if curTran m offset = tid then
        let r := modifyAt mode (now (2 * s.visited.length)) m offset
        let page := setTimestamp r.1 (now (2 * s.visited.length + 1))
        modifyScan tid mode now n (offset + r.2) { page, changed := true, visited }
      else modifyScan tid mode now n (offset + size m offset) { s with visited }
    else some s

/-- The scan of `getItemsByAnything`. -/
def itemsScan : Nat → Int → Scan → Option Scan
  | 0, _, _ => none
  | n + 1, offset, s =>
    if offset < pageSize - free s.page then
      itemsScan n (offset + size s.page offset)
        { s with visited := s.visited ++ [entryAt s.page offset] }
    else some s

-- ---------------------------------------------------------------------------
-- Entries
-- ---------------------------------------------------------------------------

end ItemPage

/-- The bytes of an `ix_entry`, which begin with their number. -/
structure ItemEntry where
  bytes : List UInt8
  header : 20 ≤ bytes.length
  size : Scalar.int.ofBytes (bytes.take 4) = bytes.length

namespace ItemEntry

/-- The integer at a place in the entry. -/
def field (e : ItemEntry) (k : Nat) : Int := Scalar.int.ofBytes ((e.bytes.drop k).take 4)

variable {k : Nat}

theorem length_setBytes (e : ItemEntry) (v : Int) (h : k + 4 ≤ 20) :
    (patch e.bytes k (Scalar.int.toBytes v)).length = e.bytes.length := by
  have hlen := e.header
  exact length_patch (by simp [Scalar.size]; omega)

theorem header_setBytes (e : ItemEntry) (v : Int) (h : k + 4 ≤ 20) :
    20 ≤ (patch e.bytes k (Scalar.int.toBytes v)).length := by
  rw [length_setBytes e v h]
  exact e.header

theorem size_setBytes (e : ItemEntry) (v : Int) (h : 4 ≤ k ∧ k + 4 ≤ 20) :
    Scalar.int.ofBytes ((patch e.bytes k (Scalar.int.toBytes v)).take 4) =
      (patch e.bytes k (Scalar.int.toBytes v)).length := by
  have hlen := e.header
  rw [take_patch h.1 (by omega), length_setBytes e v h.2, e.size]

def setField (e : ItemEntry) (k : Nat) (v : Int) (h : 4 ≤ k ∧ k + 4 ≤ 20) : ItemEntry where
  bytes := patch e.bytes k (Scalar.int.toBytes v)
  header := header_setBytes e v h.2
  size := size_setBytes e v h

theorem inHeader_curTran : 4 ≤ 8 ∧ 8 + 4 ≤ 20 := by decide

theorem inHeader_addT : 4 ≤ 12 ∧ 12 + 4 ≤ 20 := by decide

theorem inHeader_delT : 4 ≤ 16 ∧ 16 + 4 ≤ 20 := by decide

def lid (e : ItemEntry) : Int := e.field 4

def curTran (e : ItemEntry) : Int := e.field 8

def delT (e : ItemEntry) : Int := e.field 16

def setCurTran (e : ItemEntry) (v : Int) : ItemEntry := e.setField 8 v inHeader_curTran

def setAddT (e : ItemEntry) (v : Int) : ItemEntry := e.setField 12 v inHeader_addT

def setDelT (e : ItemEntry) (v : Int) : ItemEntry := e.setField 16 v inHeader_delT

/-- What `removeItem` leaves of the first entry of its id. -/
def removed (e : ItemEntry) (t : TransactionID) : List ItemEntry :=
  if e.curTran = nullValue then [(e.setCurTran t.id).setDelT t.timeStamp] else []

/-- What `modifyTransaction` leaves of an entry of the transaction. -/
def modified (e : ItemEntry) (mode : NamedItems.Mode) (now : Int) : List ItemEntry :=
  if e.delT = nullValue then
    match mode with
    | .commit => [(e.setAddT now).setCurTran nullValue]
    | .abort => []
  else
    match mode with
    | .commit => [(e.setDelT now).setCurTran nullValue]
    | .abort => [(e.setDelT nullValue).setCurTran nullValue]

/-- The entries of a page from the `j`-th that the scan comes by. -/
def modifyEntries (tid : Nat) (mode : NamedItems.Mode) (now : Nat → Int) :
    Nat → List ItemEntry → List ItemEntry
  | _, [] => []
  | j, e :: r =>
    (if e.curTran = tid then e.modified mode (now (2 * j)) else [e]) ++
      modifyEntries tid mode now (j + 1) r

/-- The bytes that entries take. -/
def total (es : List ItemEntry) : Nat := (es.map bytes).flatten.length

variable {l r es : List ItemEntry} {e : ItemEntry} {v : Int}

theorem total_append : total (l ++ r) = total l + total r := by
  simp [total]

theorem total_cons : total (e :: r) = e.bytes.length + total r := by
  simp [total]

theorem total_singleton : total [e] = e.bytes.length := by
  simp [total]

theorem length_setField (h : 4 ≤ k ∧ k + 4 ≤ 20) :
    (e.setField k v h).bytes.length = e.bytes.length := length_setBytes e v h.2

@[simp] theorem length_setCurTran : (e.setCurTran v).bytes.length = e.bytes.length :=
  length_setField _

@[simp] theorem length_setAddT : (e.setAddT v).bytes.length = e.bytes.length := length_setField _

@[simp] theorem length_setDelT : (e.setDelT v).bytes.length = e.bytes.length := length_setField _

end ItemEntry

namespace ItemPage

open ItemEntry

/-- The page has the entries. -/
structure Formed (m : Memory) (es : List ItemEntry) : Prop where
  free : free m = pageSize - (headerSize + total es)
  fits : headerSize + total es ≤ pageSize
  entries : entries m = es.length
  packed : Packed m headerSize (es.map bytes)

variable {m m' : Memory} {l r es : List ItemEntry} {e : ItemEntry} {k : Nat} {v now : Int}

theorem Formed.frame (h : Formed m es)
    (hheader : ∀ x, 12 ≤ x → x < headerSize + total es → m' x = m x) : Formed m' es := by
  have hfree : ItemPage.free m' = ItemPage.free m :=
    Memory.readInt_congr fun i hi => hheader _ (by omega) (by simp only [headerSize]; omega)
  have hentries : ItemPage.entries m' = ItemPage.entries m :=
    Memory.readInt_congr fun i hi => hheader _ (by omega) (by simp only [headerSize]; omega)
  refine ⟨hfree.trans h.free, h.fits, hentries.trans h.entries, h.packed.frame fun x hx hlt => ?_⟩
  exact hheader x (by simp only [headerSize] at hx; omega) hlt

theorem Formed.setTimestamp (h : Formed m es) : Formed (setTimestamp m now) es :=
  h.frame fun x hx _ => Memory.writeInt_of_out (by omega)

/-- The place of an entry behind others. -/
def place (l : List ItemEntry) : Int := (headerSize + total l : Nat)

theorem Formed.readField (h : Formed m (l ++ e :: r)) (hk : k + 4 ≤ 20) :
    m.readInt ((place l).toNat + k) = e.field k := by
  have hpacked := h.packed
  rw [List.map_append, List.map_cons] at hpacked
  have hlen := e.header
  rw [Memory.readInt, place, Int.toNat_natCast, ItemEntry.field,
    ← hpacked.readPart (by omega : k + 4 ≤ e.bytes.length), total]

theorem Formed.size_eq (h : Formed m (l ++ e :: r)) : size m (place l) = e.bytes.length := by
  have hread := h.readField (k := 0) (by decide)
  rw [ItemEntry.field, List.drop_zero, e.size] at hread
  exact hread

theorem Formed.entryAt_eq (h : Formed m (l ++ e :: r)) : entryAt m (place l) = e.bytes := by
  have hpacked := h.packed
  rw [List.map_append, List.map_cons] at hpacked
  rw [entryAt, h.size_eq, Int.toNat_natCast, place, Int.toNat_natCast]
  exact hpacked.read

theorem place_append : place (l ++ [e]) = place l + e.bytes.length := by
  rw [place, total_append, total_singleton, place]
  omega

/-- The scan is not at the end of the page before an entry. -/
theorem Formed.place_lt (h : Formed m (l ++ e :: r)) : place l < pageSize - ItemPage.free m := by
  have hlen := e.header
  rw [h.free, total_append, total_cons, place]
  omega

theorem Formed.place_end (h : Formed m es) : ¬ place es < pageSize - ItemPage.free m := by
  rw [h.free, place]
  omega

theorem Formed.writeField (h : Formed m (l ++ e :: r)) (hk : 4 ≤ k ∧ k + 4 ≤ 20) :
    Formed (m.writeInt ((place l).toNat + k) v) (l ++ e.setField k v hk :: r) := by
  have hlen := e.header
  have htotal : total (l ++ e.setField k v hk :: r) = total (l ++ e :: r) := by
    rw [total_append, total_append, total_cons, total_cons, length_setField]
  have hplace : (place l).toNat = headerSize + total l := rfl
  have hpacked := h.packed
  rw [List.map_append, List.map_cons] at hpacked
  have hheader : ∀ x < headerSize, m.writeInt ((place l).toNat + k) v x = m x := fun x hx =>
    Memory.writeInt_of_out (.inl (by omega))
  refine ⟨?_, htotal ▸ h.fits, ?_, ?_⟩
  · rw [htotal, ← h.free]
    exact Memory.readInt_congr fun i hi => hheader _ (by simp only [headerSize]; omega)
  · rw [List.length_append, List.length_cons, ← List.length_cons (a := e), ← List.length_append,
      ← h.entries]
    exact Memory.readInt_congr fun i hi => hheader _ (by simp only [headerSize]; omega)
  · rw [List.map_append, List.map_cons]
    exact hpacked.patch (by simp [Scalar.size]; omega)

theorem Formed.setCurTran (h : Formed m (l ++ e :: r)) :
    Formed (ItemPage.setCurTran m (place l) v) (l ++ e.setCurTran v :: r) :=
  h.writeField (k := 8) (by decide)

theorem Formed.setAddT (h : Formed m (l ++ e :: r)) :
    Formed (ItemPage.setAddT m (place l) v) (l ++ e.setAddT v :: r) :=
  h.writeField (k := 12) (by decide)

theorem Formed.setDelT (h : Formed m (l ++ e :: r)) :
    Formed (ItemPage.setDelT m (place l) v) (l ++ e.setDelT v :: r) :=
  h.writeField (k := 16) (by decide)

theorem Formed.lid_eq (h : Formed m (l ++ e :: r)) : ItemPage.lid m (place l) = e.lid :=
  h.readField (k := 4) (by decide)

theorem Formed.curTran_eq (h : Formed m (l ++ e :: r)) :
    ItemPage.curTran m (place l) = e.curTran :=
  h.readField (k := 8) (by decide)

theorem Formed.delT_eq (h : Formed m (l ++ e :: r)) : ItemPage.delT m (place l) = e.delT :=
  h.readField (k := 16) (by decide)

theorem length_le_total (es : List ItemEntry) : 20 * es.length ≤ total es := by
  induction es with
  | nil => exact Nat.zero_le _
  | cons e es ih =>
    have hlen := e.header
    rw [List.length_cons, total_cons]
    omega

/-- The header is written last. -/
theorem Formed.of_header {m : Memory} {f n : Int} (hfits : headerSize + total es ≤ pageSize)
    (hf : f = pageSize - (headerSize + total es)) (hn : n = es.length)
    (h : Packed m headerSize (es.map bytes)) : Formed (setEntries (setFree m f) n) es := by
  have hlen := length_le_total es
  have hsize : pageSize = 16384 := rfl
  have hheader : headerSize = 20 := rfl
  refine ⟨?_, hfits, ?_, h.frame fun x hx _ => ?_⟩
  · rw [ItemPage.free, setEntries, Memory.readInt_writeInt_of_disjoint (by omega), setFree,
      Memory.readInt_writeInt (by simp only [Scalar.Holds]; omega), hf]
  · rw [ItemPage.entries, setEntries,
      Memory.readInt_writeInt (by simp only [Scalar.Holds]; omega), hn]
  · rw [setEntries, Memory.writeInt_of_out (by omega), setFree, Memory.writeInt_of_out (by omega)]

theorem Formed.push (h : Formed m es) (hroom : (e.bytes.length : Int) ≤ ItemPage.free m) :
    Formed (pushEntry m e.bytes now) (es ++ [e]) := by
  have hsize : pageSize = 16384 := rfl
  have hheader : headerSize = 20 := rfl
  have hfree := h.free
  have hfits := h.fits
  have hplace : (pageSize - ItemPage.free m).toNat = headerSize + total es := by omega
  have hpacked : Packed (m.writeBytes (headerSize + total es) e.bytes) headerSize
      ((es ++ [e]).map bytes) := by
    rw [List.map_append, List.map_singleton]
    exact h.packed.push
  have hf : ItemPage.free (m.writeBytes (headerSize + total es) e.bytes) = ItemPage.free m :=
    Memory.readInt_writeBytes_of_disjoint (by omega)
  have hn (v : Int) : ItemPage.entries (setFree (m.writeBytes (headerSize + total es) e.bytes) v) =
      ItemPage.entries m := by
    rw [ItemPage.entries, setFree, Memory.readInt_writeInt_of_disjoint (by omega),
      Memory.readInt_writeBytes_of_disjoint (by omega), ItemPage.entries]
  have htotal : total (es ++ [e]) = total es + e.bytes.length := by
    rw [total_append, total_singleton]
  simp only [pushEntry, hplace, hf, hn]
  refine (Formed.of_header ?_ ?_ ?_ hpacked).setTimestamp
  · omega
  · omega
  · rw [h.entries, List.length_append, List.length_singleton]
    omega

theorem Formed.remove (h : Formed m (l ++ e :: r)) :
    Formed (removeEntry m (place l) e.bytes.length) (l ++ r) := by
  have hsize : pageSize = 16384 := rfl
  have hheader : headerSize = 20 := rfl
  have hfree := h.free
  have hfits := h.fits
  have hpacked := h.packed
  rw [List.map_append, List.map_cons] at hpacked
  rw [total_append, total_cons] at hfree hfits
  have hsrc : (place l + e.bytes.length).toNat = headerSize + total l + e.bytes.length := by
    rw [place]
    omega
  have hdst : (place l).toNat = headerSize + total l := rfl
  have hcount : (pageSize - (place l + e.bytes.length + ItemPage.free m)).toNat = total r := by
    rw [place]
    omega
  have hmoved : Packed (m.move (headerSize + total l + e.bytes.length) (headerSize + total l)
      (total r)) headerSize ((l ++ r).map bytes) := by
    rw [List.map_append]
    exact hpacked.remove
  have hf : ItemPage.free (m.move (headerSize + total l + e.bytes.length) (headerSize + total l)
      (total r)) = ItemPage.free m :=
    Memory.readInt_congr fun i hi => Memory.move_of_out (by omega)
  have hn (v : Int) : ItemPage.entries (setFree (m.move (headerSize + total l + e.bytes.length)
      (headerSize + total l) (total r)) v) = ItemPage.entries m := by
    rw [ItemPage.entries, setFree, Memory.readInt_writeInt_of_disjoint (by omega)]
    exact Memory.readInt_congr fun i hi => Memory.move_of_out (by omega)
  simp only [removeEntry, hsrc, hdst, hcount, hf, hn]
  have htotal : total (l ++ r) = total l + total r := total_append
  have hcount' : ItemPage.entries m - 1 = (l ++ r).length := by
    rw [h.entries, List.length_append, List.length_append, List.length_cons]
    omega
  have hformed := Formed.of_header (by omega)
    (by omega : ItemPage.free m + e.bytes.length = pageSize - (headerSize + total (l ++ r)))
    hcount' hmoved
  refine hformed.frame fun x hx hlt => Memory.clear_of_out (.inl ?_)
  rw [hformed.free]
  omega

-- ---------------------------------------------------------------------------
-- What the scans do
-- ---------------------------------------------------------------------------

theorem timestamp_setTimestamp (m : Memory) (v : Int) :
    timestamp (setTimestamp m v) = Scalar.int.wrap v := by
  have hlen : (Scalar.int.toBytes v).length = 4 := Scalar.length_toBytes
  have hread : (m.writeInt 8 v).readBytes 8 4 = Scalar.int.toBytes v := by
    rw [Memory.writeInt, ← hlen, Memory.readBytes_writeBytes_self]
  rw [timestamp, setTimestamp, Memory.readInt, hread, Scalar.ofBytes_toBytes]

variable {t : TransactionID} {logicalID : Int} {n tid : Nat} {s : Scan} {mode : NamedItems.Mode}
  {times : Nat → Int}

theorem removeScan_spec (h : Formed s.page (l ++ r)) (hn : r.length < n) :
    (∃ r₁ e r₂, r = r₁ ++ e :: r₂ ∧ e.lid = logicalID ∧ (∀ x ∈ r₁, x.lid ≠ logicalID) ∧
      ∃ m, removeScan t logicalID now n (place l) s =
          some ⟨m, true, s.visited ++ (r₁ ++ [e]).map bytes⟩ ∧
        Formed m (l ++ r₁ ++ e.removed t ++ r₂) ∧ timestamp m = Scalar.int.wrap now) ∨
    (∀ x ∈ r, x.lid ≠ logicalID) ∧ removeScan t logicalID now n (place l) s =
      some { s with visited := s.visited ++ r.map bytes } := by
  induction r generalizing l s n with
  | nil =>
    obtain ⟨n, rfl⟩ := Nat.exists_eq_succ_of_ne_zero (Nat.ne_of_gt hn)
    rw [List.append_nil] at h
    refine .inr ⟨fun x hx => absurd hx List.not_mem_nil, ?_⟩
    rw [removeScan, if_neg h.place_end, List.map_nil, List.append_nil]
  | cons e r ih =>
    obtain ⟨n, rfl⟩ := Nat.exists_eq_succ_of_ne_zero (Nat.ne_of_gt (Nat.zero_lt_of_lt hn))
    rw [removeScan, if_pos h.place_lt]
    simp only [h.entryAt_eq, h.lid_eq, h.curTran_eq, h.size_eq]
    split
    · rename_i heq
      refine .inl ⟨[], e, r, rfl, heq, fun x hx => absurd hx List.not_mem_nil, _, rfl, ?_,
        timestamp_setTimestamp _ _⟩
      rw [ItemEntry.removed, List.append_nil]
      split
      · rw [List.append_assoc]
        exact h.setCurTran.setDelT.setTimestamp
      · rw [List.append_nil]
        exact h.remove.setTimestamp
    · rename_i hne
      have hrest : Formed s.page (l ++ [e] ++ r) := by
        rw [List.append_assoc]
        exact h
      have hstep := @ih (l ++ [e]) n { s with visited := s.visited ++ [e.bytes] } hrest
        (Nat.lt_of_succ_lt_succ hn)
      rw [place_append] at hstep
      obtain ⟨r₁, e', r₂, rfl, he', hr₁, m, hm, hformed, htime⟩ | ⟨hall, hm⟩ := hstep
      · refine .inl ⟨e :: r₁, e', r₂, rfl, he', ?_, m, ?_, ?_, htime⟩
        · intro x hx
          obtain rfl | hx := List.mem_cons.mp hx
          · exact hne
          · exact hr₁ x hx
        · rw [hm]
          simp
        · simpa using hformed
      · refine .inr ⟨?_, ?_⟩
        · intro x hx
          obtain rfl | hx := List.mem_cons.mp hx
          · exact hne
          · exact hall x hx
        · rw [hm]
          simp

theorem modifyAt_spec (mode : NamedItems.Mode) (h : Formed m (l ++ e :: r)) :
    Formed (modifyAt mode now m (place l)).1 (l ++ (e.modified mode now ++ r)) ∧
      place l + (modifyAt mode now m (place l)).2 = place (l ++ e.modified mode now) := by
  rw [modifyAt.eq_def, ItemEntry.modified.eq_def, h.delT_eq, h.size_eq]
  split
  · cases mode with
    | commit =>
      refine ⟨h.setAddT.setCurTran, ?_⟩
      rw [place_append, length_setCurTran, length_setAddT]
    | abort =>
      refine ⟨h.remove, ?_⟩
      rw [List.append_nil, Int.add_zero]
  · cases mode with
    | commit =>
      refine ⟨h.setDelT.setCurTran, ?_⟩
      rw [place_append, length_setCurTran, length_setDelT]
    | abort =>
      refine ⟨h.setDelT.setCurTran, ?_⟩
      rw [place_append, length_setCurTran, length_setDelT]

theorem modifyScan_spec (h : Formed s.page (l ++ r)) (hn : r.length < n) :
    ∃ s', modifyScan tid mode times n (place l) s = some s' ∧
      s'.visited = s.visited ++ r.map bytes ∧
      Formed s'.page (l ++ modifyEntries tid mode times s.visited.length r) ∧
      (s'.page = s.page ∨ ∃ j, timestamp s'.page = Scalar.int.wrap (times j)) := by
  induction r generalizing l s n with
  | nil =>
    obtain ⟨n, rfl⟩ := Nat.exists_eq_succ_of_ne_zero (Nat.ne_of_gt hn)
    rw [List.append_nil] at h
    refine ⟨s, ?_, by simp, ?_, .inl rfl⟩
    · rw [modifyScan, if_neg h.place_end]
    · rw [modifyEntries, List.append_nil]
      exact h
  | cons e r ih =>
    obtain ⟨n, rfl⟩ := Nat.exists_eq_succ_of_ne_zero (Nat.ne_of_gt (Nat.zero_lt_of_lt hn))
    have hlt := Nat.lt_of_succ_lt_succ hn
    rw [modifyScan, if_pos h.place_lt, modifyEntries]
    simp only [h.entryAt_eq, h.curTran_eq, h.size_eq]
    split
    · -- the scan goes on behind what it leaves of the entry
      obtain ⟨hformed, hplace⟩ := modifyAt_spec mode h
      rw [hplace]
      rw [← List.append_assoc] at hformed
      obtain ⟨s', hs', hvisited, hpage, htime⟩ :=
        @ih (l ++ e.modified mode (times (2 * s.visited.length))) n
          { page := setTimestamp (modifyAt mode (times (2 * s.visited.length)) s.page (place l)).1
              (times (2 * s.visited.length + 1))
            changed := true
            visited := s.visited ++ [e.bytes] } hformed.setTimestamp hlt
      refine ⟨s', hs', ?_, ?_, ?_⟩
      · rw [hvisited]
        simp
      · simpa using hpage
      · obtain htime | htime := htime
        · exact .inr ⟨_, by rw [htime, timestamp_setTimestamp]⟩
        · exact .inr htime
    · have hrest : Formed s.page (l ++ [e] ++ r) := by
        rw [List.append_assoc]
        exact h
      obtain ⟨s', hs', hvisited, hpage, htime⟩ :=
        @ih (l ++ [e]) n { s with visited := s.visited ++ [e.bytes] } hrest hlt
      rw [place_append] at hs'
      refine ⟨s', hs', ?_, ?_, htime⟩
      · rw [hvisited]
        simp
      · simpa using hpage

theorem itemsScan_spec (h : Formed s.page (l ++ r)) (hn : r.length < n) :
    itemsScan n (place l) s = some { s with visited := s.visited ++ r.map bytes } := by
  induction r generalizing l s n with
  | nil =>
    obtain ⟨n, rfl⟩ := Nat.exists_eq_succ_of_ne_zero (Nat.ne_of_gt hn)
    rw [List.append_nil] at h
    rw [itemsScan, if_neg h.place_end, List.map_nil, List.append_nil]
  | cons e r ih =>
    obtain ⟨n, rfl⟩ := Nat.exists_eq_succ_of_ne_zero (Nat.ne_of_gt (Nat.zero_lt_of_lt hn))
    have hrest : Formed s.page (l ++ [e] ++ r) := by
      rw [List.append_assoc]
      exact h
    have hstep := @ih (l ++ [e]) n { s with visited := s.visited ++ [e.bytes] } hrest
      (Nat.lt_of_succ_lt_succ hn)
    rw [place_append] at hstep
    rw [itemsScan, if_pos h.place_lt, h.entryAt_eq, h.size_eq, hstep]
    simp

end ItemPage

end Loxim.Store
