import Mathlib.Data.Finset.Card
import Mathlib.Data.Finset.Lattice.Fold
import Mathlib.Algebra.BigOperators.Ring.Finset
import Loxim.Lib.Run

/-!
# The page buffer

A page that has been asked for once stays in the buffer. It is pinned while
someone works on it, and the page writer writes the dirty pages that nobody has
pinned. The contents of pages are of any type.
-/

namespace Loxim.Store

/-- `buffer_addr_t`: the number of the page is cut to 16 bits. -/
def bufferAddr (fileID pageID : Nat) : Nat × Nat := (fileID, pageID % 65536)

/-- `lock` is an `unsigned char`. -/
structure BufferPage (α : Type) where
  haspage : Bool := true
  dirty : Bool
  lock : Nat := 0
  page : α

/-- `file` has the pages as they are in the files, of which `pageCount` says how long
they are. -/
structure Buffer (α : Type) where
  bufferHash : Finset (Nat × Nat) := ∅
  entry : Nat × Nat → BufferPage α
  dirtyPages : Int := 0
  file : Nat × Nat → α
  pageCount : Nat → Nat

namespace Buffer

variable {α : Type}

def hasPage (b : Buffer α) (a : Nat × Nat) : Bool := a ∈ b.bufferHash && (b.entry a).haspage

def setEntry (b : Buffer α) (a : Nat × Nat) (e : BufferPage α) : Buffer α :=
  { b with entry := Function.update b.entry a e }

/-- `insert` of a map: an address that is there keeps its page. -/
def insertPage (b : Buffer α) (a : Nat × Nat) (e : BufferPage α) : Buffer α :=
  if a ∈ b.bufferHash then b
  else { b.setEntry a e with bufferHash := insert a b.bufferHash }

/-- A page behind the end of the file comes into being. -/
def createPage (initializePage : Nat × Nat → α) (fileID : Nat) (b : Buffer α) (i : Nat) : Buffer α :=
  if b.hasPage (bufferAddr fileID i) then b
  else { b.insertPage (bufferAddr fileID i) { dirty := true, page := initializePage (fileID, i) } with
    dirtyPages := b.dirtyPages + 1 }

def getPagePointer (initializePage : Nat × Nat → α) (b : Buffer α) (fileID pageID : Nat) :
    Buffer α :=
  if b.hasPage (bufferAddr fileID pageID) then b
  else if pageID < b.pageCount fileID then
    b.insertPage (bufferAddr fileID pageID) { dirty := false, page := b.file (fileID, pageID) }
  else (List.range' (b.pageCount fileID) (pageID + 1 - b.pageCount fileID)).foldl
    (createPage initializePage fileID) b

def acquirePage (b : Buffer α) (fileID pageID : Nat) : Buffer α × Int :=
  let a := bufferAddr fileID pageID
  if b.hasPage a then
    (b.setEntry a { b.entry a with lock := ((b.entry a).lock + 1) % 256 }, 0)
  else if a ∈ b.bufferHash then
    (b.setEntry a { dirty := false, lock := 1, page := b.file (fileID, pageID) }, 0)
  else (b, -1)

def releasePage (b : Buffer α) (fileID pageID : Nat) : Buffer α × Int :=
  let a := bufferAddr fileID pageID
  if b.hasPage a then
    ({ b.setEntry a { b.entry a with lock := ((b.entry a).lock + 255) % 256, dirty := true } with
      dirtyPages := if (b.entry a).dirty then b.dirtyPages else b.dirtyPages + 1 }, 0)
  else (b, -1)

/-- The page is written under the cut number, and stays pinned. -/
def writePage (b : Buffer α) (a : Nat × Nat) : Buffer α :=
  { b.setEntry a { b.entry a with dirty := false } with
    file := Function.update b.file a (b.entry a).page
    pageCount := Function.update b.pageCount a.1 (max (b.pageCount a.1) (a.2 + 1))
    dirtyPages := b.dirtyPages - 1 }

def releasePageSync (b : Buffer α) (fileID pageID : Nat) : Buffer α × Int :=
  let a := bufferAddr fileID pageID
  if b.hasPage a then (b.writePage a, 0) else (b, -1)

/-- What the page writer writes. -/
def writable (b : Buffer α) (a : Nat × Nat) : Bool :=
  (b.entry a).haspage && (b.entry a).lock == 0 && (b.entry a).dirty

def writeDirty (b : Buffer α) (a : Nat × Nat) : Buffer α :=
  if b.writable a then b.writePage a else b

/-- The pages of the loop of `dbWriterWrite`, in some order. -/
def dbWriterWrite (b : Buffer α) (order : List (Nat × Nat)) : Buffer α := order.foldl writeDirty b

/-- Work on a page that is pinned. -/
def modify (b : Buffer α) (fileID pageID : Nat) (page : α) : Buffer α :=
  let a := bufferAddr fileID pageID
  b.setEntry a { b.entry a with page }

@[simp] theorem setEntry_self (b : Buffer α) (a : Nat × Nat) (e : BufferPage α) :
    (b.setEntry a e).entry a = e := Function.update_self ..

theorem setEntry_of_ne {a x : Nat × Nat} (b : Buffer α) (e : BufferPage α) (h : x ≠ a) :
    (b.setEntry a e).entry x = b.entry x := Function.update_of_ne h ..

/-- Pages come into the buffer, unpinned, from their files or behind the end of them. -/
structure Grows (initializePage : Nat × Nat → α) (b b' : Buffer α) : Prop where
  kept {a : Nat × Nat} : a ∈ b.bufferHash → a ∈ b'.bufferHash ∧ b'.entry a = b.entry a
  file : b'.file = b.file
  new {a : Nat × Nat} : a ∈ b'.bufferHash → a ∉ b.bufferHash →
    a.2 < 65536 ∧ (b'.entry a).haspage = true ∧ (b'.entry a).lock = 0 ∧
      ((∃ x, (b'.entry a).page = initializePage x) ∨
        ∃ x, a = bufferAddr x.1 x.2 ∧ (b'.entry a).page = b.file x)

variable {initializePage : Nat × Nat → α} {b b' b'' : Buffer α}

theorem Grows.refl (b : Buffer α) : Grows initializePage b b :=
  ⟨fun ha => ⟨ha, rfl⟩, rfl, fun ha hnot => absurd ha hnot⟩

theorem Grows.trans (h : Grows initializePage b b') (h' : Grows initializePage b' b'') :
    Grows initializePage b b'' := by
  refine ⟨fun ha => ?_, h'.file.trans h.file, fun {a} ha hnot => ?_⟩
  · obtain ⟨ha', he⟩ := h.kept ha
    obtain ⟨ha'', he'⟩ := h'.kept ha'
    exact ⟨ha'', he'.trans he⟩
  · by_cases hmid : a ∈ b'.bufferHash
    · rw [(h'.kept hmid).2]
      exact h.new hmid hnot
    · rw [← h.file]
      exact h'.new ha hmid

theorem bufferAddr_lt (f p : Nat) : (bufferAddr f p).2 < 65536 := Nat.mod_lt p (by omega)

theorem grows_insertPage {a : Nat × Nat} {e : BufferPage α} {d : Int} (haddr : a.2 < 65536)
    (he : e.haspage = true) (hlock : e.lock = 0) (hpage : (∃ x, e.page = initializePage x) ∨
      ∃ x, a = bufferAddr x.1 x.2 ∧ e.page = b.file x) :
    Grows initializePage b { b.insertPage a e with dirtyPages := d } := by
  by_cases ha : a ∈ b.bufferHash
  · have hsame : b.insertPage a e = b := if_pos ha
    rw [hsame]
    exact ⟨fun hx => ⟨hx, rfl⟩, rfl, fun hx hnot => absurd hx hnot⟩
  · have hins : b.insertPage a e =
        { b.setEntry a e with bufferHash := insert a b.bufferHash } := if_neg ha
    rw [hins]
    refine ⟨fun {x} hx => ⟨Finset.mem_insert_of_mem hx, ?_⟩, rfl, fun {x} hx hnot => ?_⟩
    · exact b.setEntry_of_ne e (ne_of_mem_of_not_mem hx ha)
    · obtain rfl := (Finset.mem_insert.mp hx).resolve_right hnot
      show x.2 < 65536 ∧ ((b.setEntry x e).entry x).haspage = true ∧
        ((b.setEntry x e).entry x).lock = 0 ∧ _
      rw [setEntry_self]
      exact ⟨haddr, he, hlock, hpage⟩

theorem grows_getPagePointer (b : Buffer α) (f p : Nat) :
    Grows initializePage b (b.getPagePointer initializePage f p) := by
  have hcreate (b : Buffer α) (i : Nat) :
      Grows initializePage b (b.createPage initializePage f i) := by
    unfold createPage
    split
    · exact .refl b
    · exact grows_insertPage (bufferAddr_lt f i) rfl rfl (.inl ⟨_, rfl⟩)
  have hcreates (l : List Nat) (b : Buffer α) :
      Grows initializePage b (l.foldl (createPage initializePage f) b) := by
    induction l generalizing b with
    | nil => exact .refl b
    | cons i l ih => exact (hcreate b i).trans (ih _)
  unfold getPagePointer
  split
  · exact .refl b
  · split
    · exact grows_insertPage (d := (b.insertPage _ _).dirtyPages) (bufferAddr_lt f p) rfl rfl
        (.inr ⟨(f, p), rfl, rfl⟩)
    · exact hcreates _ b

end Buffer

/-- `holders` counts the acquires of a page that have not been released. -/
structure BufferRun (α : Type) where
  buffer : Buffer α
  holders : Nat × Nat → Nat := fun _ => 0

namespace BufferRun

variable {α : Type}

inductive Event (α : Type)
  | getPagePointer (fileID pageID : Nat)
  | acquirePage (fileID pageID : Nat)
  | modify (fileID pageID : Nat) (page : α)
  | releasePage (fileID pageID : Nat)
  | releasePageSync (fileID pageID : Nat)
  | dbWriterWrite (order : List (Nat × Nat))

def step (initializePage : Nat × Nat → α) (s : BufferRun α) : Event α → Option (BufferRun α)
  | .getPagePointer f p => some { s with buffer := s.buffer.getPagePointer initializePage f p }
  | .acquirePage f p => some {
      buffer := (s.buffer.acquirePage f p).1
      holders := Function.update s.holders (bufferAddr f p) (s.holders (bufferAddr f p) + 1) }
  | .modify f p page => some { s with buffer := s.buffer.modify f p page }
  | .releasePage f p => some {
      buffer := (s.buffer.releasePage f p).1
      holders := Function.update s.holders (bufferAddr f p) (s.holders (bufferAddr f p) - 1) }
  | .releasePageSync f p => some {
      buffer := (s.buffer.releasePageSync f p).1
      holders := Function.update s.holders (bufferAddr f p) (s.holders (bufferAddr f p) - 1) }
  | .dbWriterWrite order => some { s with buffer := s.buffer.dbWriterWrite order }

/-- A page is acquired through its pointer, and changed and released by who has
acquired it. The writer goes through the buffer. -/
def Legal (s : BufferRun α) : Event α → Prop
  | .getPagePointer _ _ => True
  | .acquirePage f p => bufferAddr f p ∈ s.buffer.bufferHash
  | .modify f p _ | .releasePage f p | .releasePageSync f p => 0 < s.holders (bufferAddr f p)
  | .dbWriterWrite order => order.Nodup ∧ ∀ a, a ∈ order ↔ a ∈ s.buffer.bufferHash

/-- Pages have numbers of 16 bits, no page has 256 users, and none is released with
`releasePageSync`. -/
def Met (s : BufferRun α) : Event α → Prop
  | .getPagePointer _ p | .modify _ p _ | .releasePage _ p => p < 65536
  | .acquirePage f p => p < 65536 ∧ s.holders (bufferAddr f p) < 255
  | .releasePageSync _ _ => False
  | .dbWriterWrite _ => True

-- ---------------------------------------------------------------------------
-- The books of the buffer
-- ---------------------------------------------------------------------------

def dirtyCount (b : Buffer α) : Nat := (b.bufferHash.filter fun a => (b.entry a).dirty).card

structure Books (s : BufferRun α) : Prop where
  present {a : Nat × Nat} : a ∈ s.buffer.bufferHash → (s.buffer.entry a).haspage = true
  dirty : s.buffer.dirtyPages = dirtyCount s.buffer
  pins {a : Nat × Nat} : a ∈ s.buffer.bufferHash → (s.buffer.entry a).lock = s.holders a
  few (a : Nat × Nat) : s.holders a ≤ 255
  absent {a : Nat × Nat} : a ∉ s.buffer.bufferHash → s.holders a = 0
  clean {a : Nat × Nat} : a ∈ s.buffer.bufferHash → (s.buffer.entry a).dirty = false →
    (s.buffer.entry a).lock = 0 → (s.buffer.entry a).page = s.buffer.file a

variable {b : Buffer α} {s s' : BufferRun α} {a : Nat × Nat} {e : BufferPage α} {f p i : Nat}
  {initializePage : Nat × Nat → α}

theorem dirtyCount_setEntry (h : a ∈ b.bufferHash) :
    dirtyCount (b.setEntry a e) + (b.entry a).dirty.toNat = dirtyCount b + e.dirty.toNat := by
  have hsplit (c : Buffer α) (hc : a ∈ c.bufferHash) : dirtyCount c = (c.entry a).dirty.toNat +
      ∑ x ∈ c.bufferHash.erase a, (c.entry x).dirty.toNat := by
    have hbool (x : Nat × Nat) : (if (c.entry x).dirty = true then 1 else 0) =
        (c.entry x).dirty.toNat := by
      cases (c.entry x).dirty <;> rfl
    rw [dirtyCount, Finset.card_filter, Finset.sum_congr rfl fun x _ => hbool x,
      Finset.add_sum_erase _ (fun x => (c.entry x).dirty.toNat) hc]
  have hrest : ∑ x ∈ b.bufferHash.erase a, ((b.setEntry a e).entry x).dirty.toNat =
      ∑ x ∈ b.bufferHash.erase a, (b.entry x).dirty.toNat := by
    refine Finset.sum_congr rfl fun x hx => ?_
    rw [b.setEntry_of_ne e (Finset.ne_of_mem_erase hx)]
  have hafter := hsplit (b.setEntry a e) h
  rw [b.setEntry_self a e] at hafter
  have hhash : (b.setEntry a e).bufferHash = b.bufferHash := rfl
  rw [hhash, hrest] at hafter
  rw [hafter, hsplit b h]
  omega

theorem dirtyCount_insertPage (h : a ∉ b.bufferHash) :
    dirtyCount (b.insertPage a e) = dirtyCount b + e.dirty.toNat := by
  have hold : b.bufferHash.filter (fun x => (Function.update b.entry a e x).dirty) =
      b.bufferHash.filter fun x => (b.entry x).dirty := by
    refine Finset.filter_congr fun x hx => ?_
    rw [Function.update_of_ne (ne_of_mem_of_not_mem hx h)]
  rw [Buffer.insertPage, if_neg h]
  show (Finset.filter (fun x => (Function.update b.entry a e x).dirty)
    (insert a b.bufferHash)).card = _
  cases hd : e.dirty with
  | false =>
    rw [Finset.filter_insert, if_neg (by simp [hd]), hold]
    rfl
  | true =>
    rw [Finset.filter_insert, if_pos (by simp [hd]), hold,
      Finset.card_insert_of_notMem fun hm => h (Finset.mem_filter.mp hm).1]
    rfl

/-- A page that nobody has asked for comes into the buffer. -/
theorem Books.insertPage (h : s.Books) (ha : a ∉ s.buffer.bufferHash) (he : e.haspage = true)
    (hlock : e.lock = 0) (hclean : e.dirty = false → e.page = s.buffer.file a) :
    Books { s with buffer := { s.buffer.insertPage a e with
      dirtyPages := s.buffer.dirtyPages + e.dirty.toNat } } := by
  have hins : s.buffer.insertPage a e =
      { s.buffer.setEntry a e with bufferHash := insert a s.buffer.bufferHash } := if_neg ha
  have hself : (s.buffer.insertPage a e).entry a = e := by
    rw [hins]
    exact Function.update_self ..
  have hother (x : Nat × Nat) (hx : x ≠ a) : (s.buffer.insertPage a e).entry x = s.buffer.entry x := by
    rw [hins]
    exact Function.update_of_ne hx ..
  have hhash : (s.buffer.insertPage a e).bufferHash = insert a s.buffer.bufferHash := by rw [hins]
  have hfile : (s.buffer.insertPage a e).file = s.buffer.file := by
    rw [hins]
    rfl
  refine ⟨fun {x} hx => ?_, ?_, fun {x} hx => ?_, h.few, fun {x} hx => ?_, fun {x} hx hd hl => ?_⟩
  · simp only [hhash, Finset.mem_insert] at hx
    rcases eq_or_ne x a with rfl | hne
    · simp only [hself, he]
    · simp only [hother x hne]
      exact h.present (hx.resolve_left hne)
  · have hcount := dirtyCount_insertPage (e := e) ha
    have hdirty := h.dirty
    show s.buffer.dirtyPages + _ = ((dirtyCount (s.buffer.insertPage a e) : Nat) : Int)
    rw [hcount]
    push_cast
    omega
  · simp only [hhash, Finset.mem_insert] at hx
    rcases eq_or_ne x a with rfl | hne
    · simp only [hself, hlock]
      exact (h.absent ha).symm
    · simp only [hother x hne]
      exact h.pins (hx.resolve_left hne)
  · simp only [hhash, Finset.mem_insert, not_or] at hx
    exact h.absent hx.2
  · simp only [hhash, Finset.mem_insert] at hx
    rcases eq_or_ne x a with rfl | hne
    · simp only [hself, hfile] at hd ⊢
      exact hclean hd
    · simp only [hother x hne, hfile] at hd hl ⊢
      exact h.clean (hx.resolve_left hne) hd hl

/-- The page at one address is changed, with what is counted of it. -/
theorem Books.setEntry {file : Nat × Nat → α} {pageCount : Nat → Nat} {holders : Nat × Nat → Nat}
    {n : Int} (h : s.Books) (ha : a ∈ s.buffer.bufferHash) (he : e.haspage = true)
    (hn : n + (s.buffer.entry a).dirty.toNat = s.buffer.dirtyPages + e.dirty.toNat)
    (hlock : e.lock = holders a) (hfew : holders a ≤ 255)
    (hholders : ∀ x, x ≠ a → holders x = s.holders x)
    (hfile : ∀ x, x ≠ a → file x = s.buffer.file x)
    (hclean : e.dirty = false → e.lock = 0 → e.page = file a) :
    Books { buffer := { s.buffer.setEntry a e with dirtyPages := n, file, pageCount }, holders } := by
  have hself := s.buffer.setEntry_self a e
  have hother (x : Nat × Nat) (hx : x ≠ a) := s.buffer.setEntry_of_ne e hx
  refine ⟨fun {x} hx => ?_, ?_, fun {x} hx => ?_, fun x => ?_, fun {x} hx => ?_,
    fun {x} hx hd hl => ?_⟩
  · rcases eq_or_ne x a with rfl | hne
    · simp only [hself, he]
    · simp only [hother x hne]
      exact h.present hx
  · have hcount := dirtyCount_setEntry (e := e) ha
    have hdirty := h.dirty
    show n = ((dirtyCount (s.buffer.setEntry a e) : Nat) : Int)
    omega
  · rcases eq_or_ne x a with rfl | hne
    · simp only [hself, hlock]
    · simp only [hother x hne, hholders x hne]
      exact h.pins hx
  · rcases eq_or_ne x a with rfl | hne
    · exact hfew
    · simp only [hholders x hne]
      exact h.few x
  · have hne : x ≠ a := fun heq => hx (heq ▸ ha)
    simp only [hholders x hne]
    exact h.absent hx
  · rcases eq_or_ne x a with rfl | hne
    · simp only [hself] at hd hl ⊢
      exact hclean hd hl
    · simp only [hother x hne, hfile x hne] at hd hl ⊢
      exact h.clean hx hd hl

theorem Books.hasPage (h : s.Books) : s.buffer.hasPage a = decide (a ∈ s.buffer.bufferHash) := by
  by_cases ha : a ∈ s.buffer.bufferHash
  · simp [Buffer.hasPage, ha, h.present ha]
  · simp [Buffer.hasPage, ha]

theorem Books.createPage (h : s.Books) (f i : Nat) :
    Books { s with buffer := s.buffer.createPage initializePage f i } := by
  unfold Buffer.createPage
  rw [h.hasPage]
  by_cases ha : bufferAddr f i ∈ s.buffer.bufferHash
  · rw [if_pos (by simpa using ha)]
    exact h
  · rw [if_neg (by simpa using ha)]
    exact h.insertPage (e := { dirty := true, page := initializePage (f, i) }) ha rfl rfl nofun

theorem Books.createPages {l : List Nat} (h : s.Books) (f : Nat) :
    Books { s with buffer := l.foldl (Buffer.createPage initializePage f) s.buffer } := by
  induction l generalizing s with
  | nil => exact h
  | cons i l ih => exact ih (h.createPage f i)

theorem Books.getPagePointer (h : s.Books) (hp : p < 65536) :
    Books { s with buffer := s.buffer.getPagePointer initializePage f p } := by
  unfold Buffer.getPagePointer
  rw [h.hasPage]
  by_cases ha : bufferAddr f p ∈ s.buffer.bufferHash
  · rw [if_pos (by simpa using ha)]
    exact h
  · rw [if_neg (by simpa using ha)]
    split
    · have haddr : bufferAddr f p = (f, p) := by rw [bufferAddr, Nat.mod_eq_of_lt hp]
      have hins := h.insertPage (e := { dirty := false, page := s.buffer.file (f, p) }) ha rfl rfl
        fun _ => by rw [haddr]
      have hsame : (s.buffer.insertPage (bufferAddr f p)
          { dirty := false, page := s.buffer.file (f, p) }).dirtyPages = s.buffer.dirtyPages := by
        rw [Buffer.insertPage, if_neg ha]
        rfl
      simpa [← hsame] using hins
    · exact h.createPages f

theorem Books.acquirePage (h : s.Books) (ha : bufferAddr f p ∈ s.buffer.bufferHash)
    (hfew : s.holders (bufferAddr f p) < 255) : Books {
      buffer := (s.buffer.acquirePage f p).1
      holders := Function.update s.holders (bufferAddr f p) (s.holders (bufferAddr f p) + 1) } := by
  have hpins := h.pins ha
  simp only [Buffer.acquirePage, h.hasPage, ha, decide_true, if_true]
  refine h.setEntry ha (h.present ha) rfl ?_ ?_ (fun x hx => Function.update_of_ne hx ..)
    (fun _ _ => rfl) fun _ hl => ?_
  · rw [Function.update_self]
    show ((s.buffer.entry _).lock + 1) % 256 = _
    rw [hpins, Nat.mod_eq_of_lt (by omega)]
  · rw [Function.update_self]
    omega
  · -- the page is pinned now
    have hl' : ((s.buffer.entry (bufferAddr f p)).lock + 1) % 256 = 0 := hl
    rw [hpins, Nat.mod_eq_of_lt (by omega)] at hl'
    omega

theorem Books.modify {page : α} (h : s.Books) (hheld : 0 < s.holders (bufferAddr f p)) :
    Books { s with buffer := s.buffer.modify f p page } := by
  have ha : bufferAddr f p ∈ s.buffer.bufferHash := by
    by_contra hnot
    exact absurd (h.absent hnot) hheld.ne'
  refine h.setEntry ha (h.present ha) rfl (h.pins ha) (h.few _) (fun _ _ => rfl) (fun _ _ => rfl)
    fun _ hl => ?_
  have hl' : (s.buffer.entry (bufferAddr f p)).lock = 0 := hl
  rw [h.pins ha] at hl'
  omega

theorem Books.releasePage (h : s.Books) (hheld : 0 < s.holders (bufferAddr f p)) : Books {
      buffer := (s.buffer.releasePage f p).1
      holders := Function.update s.holders (bufferAddr f p) (s.holders (bufferAddr f p) - 1) } := by
  have ha : bufferAddr f p ∈ s.buffer.bufferHash := by
    by_contra hnot
    exact absurd (h.absent hnot) hheld.ne'
  have hfew := h.few (bufferAddr f p)
  simp only [Buffer.releasePage, h.hasPage, ha, decide_true, if_true]
  refine h.setEntry ha (h.present ha) ?_ ?_ ?_ (fun x hx => Function.update_of_ne hx ..)
    (fun _ _ => rfl) nofun
  · cases (s.buffer.entry (bufferAddr f p)).dirty <;> simp
  · rw [Function.update_self]
    show ((s.buffer.entry _).lock + 255) % 256 = _
    rw [h.pins ha]
    omega
  · rw [Function.update_self]
    omega

/-- The writer writes pages that are not pinned. -/
theorem Books.writeDirty (h : s.Books) (ha : a ∈ s.buffer.bufferHash) :
    Books { s with buffer := s.buffer.writeDirty a } := by
  unfold Buffer.writeDirty
  split
  · rename_i hw
    have hdirty : (s.buffer.entry a).dirty = true := by
      simp only [Buffer.writable, Bool.and_eq_true] at hw
      exact hw.2
    refine h.setEntry ha (h.present ha) ?_ (h.pins ha) (h.few a) (fun _ _ => rfl)
      (fun x hx => Function.update_of_ne hx ..) fun _ _ => ?_
    · rw [hdirty]
      simp
    · exact (Function.update_self a _ s.buffer.file).symm
  · exact h

theorem writeDirty_bufferHash (b : Buffer α) (a : Nat × Nat) :
    (b.writeDirty a).bufferHash = b.bufferHash := by
  unfold Buffer.writeDirty
  split <;> rfl

theorem Books.dbWriterWrite {order : List (Nat × Nat)} (h : s.Books)
    (horder : ∀ a ∈ order, a ∈ s.buffer.bufferHash) :
    Books { s with buffer := s.buffer.dbWriterWrite order } := by
  induction order generalizing s with
  | nil => exact h
  | cons a l ih =>
    refine ih (h.writeDirty (horder a List.mem_cons_self)) fun x hx => ?_
    rw [writeDirty_bufferHash]
    exact horder x (List.mem_cons_of_mem _ hx)

/-- A buffer into which nothing has been read yet. -/
def empty (entry : Nat × Nat → BufferPage α) (file : Nat × Nat → α) (pageCount : Nat → Nat) :
    BufferRun α := { buffer := { entry, file, pageCount } }

theorem books_empty (entry : Nat × Nat → BufferPage α) (file : Nat × Nat → α)
    (pageCount : Nat → Nat) : (empty entry file pageCount).Books := by
  refine ⟨nofun, rfl, nofun, fun _ => Nat.zero_le _, fun _ => rfl, nofun⟩

/-- If no page is released with `releasePageSync`, none has 256 users and page
numbers have 16 bits, the number of dirty pages is right, pages are pinned as often
as they are acquired, and what is neither dirty nor pinned is in its file. -/
theorem buffer_books {entry : Nat × Nat → BufferPage α} {file : Nat × Nat → α}
    {pageCount : Nat → Nat}
    (h : Reaches (step initializePage) (fun s ev => s.Legal ev ∧ s.Met ev)
      (empty entry file pageCount) s) :
    s.buffer.dirtyPages = ((s.buffer.bufferHash.filter fun a => (s.buffer.entry a).dirty).card : Int) ∧
    (∀ a ∈ s.buffer.bufferHash, (s.buffer.entry a).lock = s.holders a) ∧
    ∀ a ∈ s.buffer.bufferHash, (s.buffer.entry a).dirty = false → (s.buffer.entry a).lock = 0 →
      (s.buffer.entry a).page = s.buffer.file a := by
  have hbooks : s.Books := by
    refine h.invariant (books_empty entry file pageCount) fun s ev s' hs hok hstep => ?_
    obtain ⟨hlegal, hmet⟩ := hok
    cases ev with
    | getPagePointer f p =>
      cases hstep
      exact hs.getPagePointer hmet
    | acquirePage f p =>
      cases hstep
      exact hs.acquirePage hlegal hmet.2
    | modify f p page =>
      cases hstep
      exact hs.modify hlegal
    | releasePage f p =>
      cases hstep
      exact hs.releasePage hlegal
    | releasePageSync f p => exact hmet.elim
    | dbWriterWrite order =>
      cases hstep
      exact hs.dbWriterWrite fun a ha => (hlegal.2 a).mp ha
  exact ⟨hbooks.dirty, fun a ha => hbooks.pins ha, fun a ha => hbooks.clean ha⟩

instance (s : BufferRun α) : DecidablePred s.Legal
  | .getPagePointer _ _ => .isTrue trivial
  | .acquirePage f p => inferInstanceAs (Decidable (bufferAddr f p ∈ s.buffer.bufferHash))
  | .modify f p _ | .releasePage f p | .releasePageSync f p =>
    inferInstanceAs (Decidable (0 < s.holders (bufferAddr f p)))
  | .dbWriterWrite order => decidable_of_iff (order.Nodup ∧ order.toFinset = s.buffer.bufferHash)
    (by simp [Legal, Finset.ext_iff])

instance (s : BufferRun α) : DecidablePred s.Met
  | .getPagePointer _ p | .modify _ p _ | .releasePage _ p => inferInstanceAs (Decidable (p < 65536))
  | .acquirePage f p =>
    inferInstanceAs (Decidable (p < 65536 ∧ s.holders (bufferAddr f p) < 255))
  | .releasePageSync _ _ => .isFalse id
  | .dbWriterWrite _ => .isTrue trivial

/-- Page 0 is read, changed and written, and page 1 comes into being. -/
theorem buffer_books_two : ∃ s : BufferRun Nat, s.buffer.bufferHash = {(1, 0), (1, 1)} ∧
    s.buffer.dirtyPages = ((s.buffer.bufferHash.filter fun a => (s.buffer.entry a).dirty).card : Int) ∧
    (s.buffer.entry (1, 0)).page = s.buffer.file (1, 0) := by
  obtain ⟨s, hs, hQ⟩ := Reaches.of_play (step fun _ => 0) (fun s ev => s.Legal ev ∧ s.Met ev)
    (empty (fun _ => { dirty := false, page := 0 }) (fun _ => 7) fun _ => 1)
    [.getPagePointer 1 0, .acquirePage 1 0, .acquirePage 1 0, .modify 1 0 8, .releasePage 1 0,
      .releasePage 1 0, .dbWriterWrite [(1, 0)], .getPagePointer 1 1]
    (fun s => s.buffer.bufferHash = {(1, 0), (1, 1)} ∧ (s.buffer.entry (1, 0)).dirty = false ∧
      (s.buffer.entry (1, 0)).lock = 0) (by decide)
  obtain ⟨hhash, hdirty, hlock⟩ := of_decide_eq_true hQ
  obtain ⟨hcount, -, hclean⟩ := buffer_books hs
  exact ⟨s, hhash, hcount, hclean (1, 0) (by rw [hhash]; decide) hdirty hlock⟩

/-- A page that is only read is released with `releasePageSync`: it stays pinned, and
there are fewer than no dirty pages. -/
theorem releasePageSync_drifts : ∃ s : BufferRun Nat,
    Reaches (step fun _ => 0) Legal
      (empty (fun _ => { dirty := false, page := 0 }) (fun _ => 7) fun _ => 1) s ∧
    s.holders (1, 0) = 0 ∧ (s.buffer.entry (1, 0)).lock = 1 ∧ s.buffer.dirtyPages = -1 := by
  obtain ⟨s, hs, hQ⟩ := Reaches.of_play (step fun _ => 0) Legal
    (empty (fun _ => { dirty := false, page := 0 }) (fun _ => 7) fun _ => 1)
    [.getPagePointer 1 0, .acquirePage 1 0, .releasePageSync 1 0]
    (fun s => s.holders (1, 0) = 0 ∧ (s.buffer.entry (1, 0)).lock = 1 ∧ s.buffer.dirtyPages = -1)
    (by decide)
  exact ⟨s, hs, of_decide_eq_true hQ⟩

end BufferRun

end Loxim.Store
