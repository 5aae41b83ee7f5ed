import Loxim.Protocol.DataStream
import Mathlib.Algebra.GroupWithZero.Nat

/-!
# Transfers over a descriptor

The loops that ask the system again until `len` bytes have been read or written. One moves on in
its buffer by an `int`, the other does not move on.
-/

namespace Loxim.Protocol.FileDataStream

inductive StreamError
  | operationCancelled
  | readError (errno : Nat)
  | writeError (errno : Nat)
deriving DecidableEq

def eintr : Nat := 4

def eio : Nat := 5

def enodata : Nat := 61

/-- The system moves no more at a time, so that the answer is an `int`. -/
def maxTransfer : Nat := 0x7ffff000

/-- What one turn of a loop meets: the flag before `pselect`, the answers of `pselect` and of the
transfer, which are a number or `errno`, and the flag when these are looked at. -/
structure Turn where
  cancel : Bool
  selected : Except Nat Nat
  cancelSelected : Bool
  moved : Except Nat Nat
  cancelMoved : Bool

def answered (error : Nat → StreamError) (cancel : Bool) :
    Except Nat Nat → Except StreamError Nat
  | .error errno => .error (if errno = eintr ∧ cancel then .operationCancelled else error errno)
  | .ok res => .ok res

/-- The body of both loops up to the answer of the transfer, of which at most `most` bytes are
possible. -/
def Turn.transfer (turn : Turn) (error : Nat → StreamError) (most : Nat) :
    Except StreamError Nat := do
  if turn.cancel then .error .operationCancelled
  let res ← answered error turn.cancelSelected turn.selected
  if res ≠ 1 then .error (error eio)
  let ready ← answered error turn.cancelMoved turn.moved
  if min (min ready most) maxTransfer = 0 then .error (error enodata)
  return min (min ready most) maxTransfer

/-- A call that is `waiting` has had no answer to its next `pselect`. -/
inductive Outcome (α : Type)
  | waiting
  | thrown (error : StreamError)
  | returned (result : α)
deriving DecidableEq

def Outcome.map {α β : Type} (f : α → β) : Outcome α → Outcome β
  | .waiting => .waiting
  | .thrown error => .thrown error
  | .returned result => .returned (f result)

/-- What is stored at the front of `buf`. -/
def store (piece buf : List UInt8) : List UInt8 := piece ++ buf.drop piece.length

/-- The buffer and what is left of the stream. -/
def read : List Turn → List UInt8 → List UInt8 → Nat → Outcome (List UInt8 × List UInt8)
  | [], stream, buf, len => if len = 0 then .returned (buf, stream) else .waiting
  | turn :: turns, stream, buf, len =>
    if len = 0 then .returned (buf, stream)
    else
      match turn.transfer .readError (min len stream.length) with
      | .error error => .thrown error
      -- `buf` stays where it is
      | .ok res => read turns (stream.drop res) (store (stream.take res) buf) (len - res)

def window (buf : Int → UInt8) (offset : Int) (len : Nat) : List UInt8 :=
  (List.range len).map fun i : Nat => buf (offset + i)

/-- The bytes handed over. The memory is seen from the start of the buffer. -/
def write : List Turn → (Int → UInt8) → Int → Nat → Outcome (List UInt8)
  | [], _, _, len => if len = 0 then .returned [] else .waiting
  | turn :: turns, buf, offset, len =>
    if len = 0 then .returned []
    else
      match turn.transfer .writeError len with
      | .error error => .thrown error
      | .ok res =>
        (write turns buf (Int.bmod (offset + res) (2 ^ 32)) (len - res)).map
          (window buf offset res ++ ·)

/-- A `ByteBuffer` as the constructor leaves it: the size is an `int`, the memory is not. -/
structure Block where
  size : Int
  buffer : List UInt8
deriving DecidableEq

/-- `junk` is what the new memory holds. -/
def readNBytes (turns : List Turn) (stream junk : List UInt8) (n : Nat) (limit : UInt64) :
    Outcome (Block × List UInt8 × UInt64) :=
  (read turns stream junk n).map fun result =>
    (⟨Int.bmod n (2 ^ 32), result.1⟩, result.2, limit - UInt64.ofNat n)

-- ---------------------------------------------------------------------------
-- How the system splits a transfer
-- ---------------------------------------------------------------------------

/-- The sizes of the pieces in which `len` bytes are moved, when `available` are there. -/
inductive Splits (error : Nat → StreamError) : List Turn → Nat → Nat → List Nat → Prop
  | done (turns : List Turn) (available : Nat) : Splits error turns available 0 []
  | piece {turn : Turn} {turns : List Turn} {available len res : Nat} {sizes : List Nat}
    (hlen : len ≠ 0) (hres : turn.transfer error (min len available) = .ok res)
    (hrest : Splits error turns (available - res) (len - res) sizes) :
    Splits error (turn :: turns) available len (res :: sizes)

/-- Where the pieces begin. -/
def starts : Nat → List Nat → List Nat
  | _, [] => []
  | start, size :: sizes => start :: starts (start + size) sizes

theorem Turn.transfer_pos {turn : Turn} {error : Nat → StreamError} {most res : Nat}
    (h : turn.transfer error most = .ok res) : 0 < res ∧ res ≤ most := by
  unfold Turn.transfer at h
  simp only [bind, Except.bind, pure, Except.pure] at h
  repeat' split at h
  all_goals first
    | contradiction
    | (injection h; omega)

section

variable {error : Nat → StreamError} {turns : List Turn} {available len : Nat} {sizes : List Nat}

theorem Splits.sum_eq (h : Splits error turns available len sizes) : sizes.sum = len := by
  induction h with
  | done => rfl
  | piece hlen hres hrest ih =>
    have hle := (Turn.transfer_pos hres).2
    rw [List.sum_cons, ih]
    omega

theorem Splits.pos (h : Splits error turns available len sizes) : ∀ size ∈ sizes, 0 < size := by
  induction h with
  | done => simp
  | piece hlen hres hrest ih =>
    rintro size (_ | ⟨_, hmem⟩)
    · exact (Turn.transfer_pos hres).1
    · exact ih size hmem

theorem Splits.le_available (h : Splits error turns available len sizes) : len ≤ available := by
  induction h with
  | done => exact Nat.zero_le _
  | piece hlen hres hrest ih =>
    have hpos := Turn.transfer_pos hres
    omega

end

-- ---------------------------------------------------------------------------
-- What a whole run of the loops leaves
-- ---------------------------------------------------------------------------

/-- The buffer after pieces of these sizes. -/
def stored : List Nat → List UInt8 → List UInt8 → List UInt8
  | [], _, buf => buf
  | size :: sizes, stream, buf => stored sizes (stream.drop size) (store (stream.take size) buf)

/-- What is handed over in pieces of these sizes. -/
def handed : List Nat → (Int → UInt8) → Int → List UInt8
  | [], _, _ => []
  | size :: sizes, buf, offset =>
    window buf offset size ++ handed sizes buf (Int.bmod (offset + size) (2 ^ 32))

theorem read_of_splits {turns : List Turn} {stream : List UInt8} {len : Nat} {sizes : List Nat}
    (h : Splits .readError turns stream.length len sizes) (buf : List UInt8) :
    read turns stream buf len = .returned (stored sizes stream buf, stream.drop len) := by
  generalize hn : stream.length = available at h
  induction h generalizing stream buf with
  | done turns =>
    cases turns
    · rfl
    · rfl
  | @piece turn turns available len res sizes hlen hres hrest ih =>
    subst hn
    have hpos := Turn.transfer_pos hres
    have hrec := ih (store (stream.take res) buf) List.length_drop
    have hdrop : (stream.drop res).drop (len - res) = stream.drop len := by
      rw [List.drop_drop, Nat.add_sub_cancel' (by omega)]
    simp only [read, if_neg hlen, hres, hrec, hdrop, stored]

theorem splits_of_read {turns : List Turn} {stream buf : List UInt8} {len : Nat}
    {result : List UInt8 × List UInt8} (h : read turns stream buf len = .returned result) :
    ∃ sizes, Splits .readError turns stream.length len sizes := by
  induction turns generalizing stream buf len with
  | nil =>
    unfold read at h
    split at h
    · rename_i hlen
      subst hlen
      exact ⟨[], .done _ _⟩
    · contradiction
  | cons turn turns ih =>
    unfold read at h
    split at h
    · rename_i hlen
      subst hlen
      exact ⟨[], .done _ _⟩
    · rename_i hlen
      split at h
      · contradiction
      · rename_i res hres
        obtain ⟨sizes, hsizes⟩ := ih h
        rw [List.length_drop] at hsizes
        exact ⟨res :: sizes, .piece hlen hres hsizes⟩

/-- Each turn moves a byte or ends the call. -/
theorem read_waiting {turns : List Turn} {stream buf : List UInt8} {len : Nat}
    (h : read turns stream buf len = .waiting) : turns.length < len := by
  induction turns generalizing stream buf len with
  | nil =>
    unfold read at h
    split at h
    · contradiction
    · exact Nat.pos_of_ne_zero (by assumption)
  | cons turn turns ih =>
    unfold read at h
    split at h
    · contradiction
    · split at h
      · contradiction
      · rename_i res hres
        have hpos := Turn.transfer_pos hres
        have hrest := ih h
        rw [List.length_cons]
        omega

theorem write_of_splits {turns : List Turn} {len available : Nat} {sizes : List Nat}
    (h : Splits .writeError turns available len sizes) (hlen : available = len)
    (buf : Int → UInt8) (offset : Int) :
    write turns buf offset len = .returned (handed sizes buf offset) := by
  induction h generalizing offset with
  | done turns =>
    cases turns
    · rfl
    · rfl
  | @piece turn turns available len res sizes hne hres hrest ih =>
    subst hlen
    have hrec := ih rfl (Int.bmod (offset + res) (2 ^ 32))
    rw [Nat.min_self] at hres
    simp only [write, if_neg hne, hres, hrec, Outcome.map, handed]

theorem splits_of_write {turns : List Turn} {buf : Int → UInt8} {offset : Int} {len : Nat}
    {result : List UInt8} (h : write turns buf offset len = .returned result) :
    ∃ sizes, Splits .writeError turns len len sizes := by
  induction turns generalizing offset len result with
  | nil =>
    unfold write at h
    split at h
    · rename_i hlen
      subst hlen
      exact ⟨[], .done _ _⟩
    · contradiction
  | cons turn turns ih =>
    unfold write at h
    split at h
    · rename_i hlen
      subst hlen
      exact ⟨[], .done _ _⟩
    · rename_i hlen
      split at h
      · contradiction
      · rename_i res hres
        cases hrec : write turns buf (Int.bmod (offset + res) (2 ^ 32)) (len - res) with
        | waiting => rw [hrec] at h; contradiction
        | thrown error => rw [hrec] at h; contradiction
        | returned rest =>
          obtain ⟨sizes, hsizes⟩ := ih hrec
          rw [← Nat.min_self len] at hres
          exact ⟨res :: sizes, .piece hlen hres hsizes⟩

theorem write_waiting {turns : List Turn} {buf : Int → UInt8} {offset : Int} {len : Nat}
    (h : write turns buf offset len = .waiting) : turns.length < len := by
  induction turns generalizing offset len with
  | nil =>
    unfold write at h
    split at h
    · contradiction
    · exact Nat.pos_of_ne_zero (by assumption)
  | cons turn turns ih =>
    unfold write at h
    split at h
    · contradiction
    · split at h
      · contradiction
      · rename_i res hres
        have hpos := Turn.transfer_pos hres
        cases hrec : write turns buf (Int.bmod (offset + res) (2 ^ 32)) (len - res) with
        | waiting =>
          have hrest := ih hrec
          rw [List.length_cons]
          omega
        | thrown error => rw [hrec] at h; contradiction
        | returned rest => rw [hrec] at h; contradiction

-- ---------------------------------------------------------------------------
-- The pieces beside the whole
-- ---------------------------------------------------------------------------

theorem store_getElem? {piece buf : List UInt8} {i : Nat} (h : piece.length ≤ i) :
    (store piece buf)[i]? = buf[i]? := by
  rw [store, List.getElem?_append_right h, List.getElem?_drop, Nat.add_sub_cancel' h]

/-- A place behind the end of every piece keeps what it held. -/
theorem stored_getElem? {sizes : List Nat} {stream buf : List UInt8} {i : Nat}
    (h : ∀ size ∈ sizes, size ≤ i) : (stored sizes stream buf)[i]? = buf[i]? := by
  induction sizes generalizing stream buf with
  | nil => rfl
  | cons size sizes ih =>
    obtain ⟨hsize, hrest⟩ := List.forall_mem_cons.mp h
    have hpiece : (stream.take size).length ≤ i :=
      (List.length_take_le size stream).trans hsize
    rw [stored, ih hrest, store_getElem? hpiece]

/-- The last byte that was asked for stands behind the end of every piece when there are two. -/
theorem le_pred_of_two {sizes : List Nat} {len : Nat} (hsum : sizes.sum = len)
    (hpos : ∀ size ∈ sizes, 0 < size) (htwo : 1 < sizes.length) :
    0 < len ∧ ∀ size ∈ sizes, size ≤ len - 1 := by
  match sizes, htwo with
  | first :: second :: rest, _ =>
    have hfirst := hpos first List.mem_cons_self
    have hsecond := hpos second (List.mem_cons_of_mem _ List.mem_cons_self)
    simp only [List.sum_cons] at hsum
    refine ⟨by omega, ?_⟩
    rintro size hmem
    rcases List.mem_cons.mp hmem with rfl | hmem
    · omega
    · rcases List.mem_cons.mp hmem with rfl | hmem
      · omega
      · obtain ⟨before, after, rfl⟩ := List.append_of_mem hmem
        simp only [List.sum_append, List.sum_cons] at hsum
        omega

theorem length_window (buf : Int → UInt8) (offset : Int) (len : Nat) :
    (window buf offset len).length = len := by
  simp [window]

theorem window_getElem? (buf : Int → UInt8) (offset : Int) {len i : Nat} (h : i < len) :
    (window buf offset len)[i]? = some (buf (offset + i)) := by
  simp [window, h]

theorem window_append (buf : Int → UInt8) (offset : Int) (m n : Nat) :
    window buf offset m ++ window buf (offset + m) n = window buf offset (m + n) := by
  simp [window, List.range_add, Function.comp_def, Int.add_assoc]

theorem bmod_start (start size : Nat) :
    Int.bmod (Int.bmod start (2 ^ 32) + size) (2 ^ 32) =
      Int.bmod (start + size : Nat) (2 ^ 32) := by
  simp

/-- What stands where the `int` points is handed over at each start. -/
theorem handed_getElem? {sizes : List Nat} {start o : Nat} (buf : Int → UInt8)
    (hpos : ∀ size ∈ sizes, 0 < size) (ho : o ∈ starts start sizes) :
    start ≤ o ∧
      (handed sizes buf (Int.bmod start (2 ^ 32)))[o - start]? =
        some (buf (Int.bmod o (2 ^ 32))) := by
  induction sizes generalizing start with
  | nil => contradiction
  | cons size sizes ih =>
    obtain ⟨hsize, hrest⟩ := List.forall_mem_cons.mp hpos
    rw [handed, bmod_start]
    rcases List.mem_cons.mp ho with rfl | ho
    · refine ⟨Nat.le_refl _, ?_⟩
      rw [Nat.sub_self, List.getElem?_append_left (by rwa [length_window]),
        window_getElem? _ _ hsize]
      simp
    · obtain ⟨hle, hget⟩ := ih hrest ho
      refine ⟨by omega, ?_⟩
      rw [List.getElem?_append_right (by rw [length_window]; omega), length_window,
        Nat.sub_sub, hget]

theorem handed_eq_window {sizes : List Nat} {start : Nat} (buf : Int → UInt8)
    (h : ∀ o ∈ starts start sizes, o < 2 ^ 31) :
    handed sizes buf (Int.bmod start (2 ^ 32)) = window buf start sizes.sum := by
  induction sizes generalizing start with
  | nil => rfl
  | cons size sizes ih =>
    obtain ⟨hstart, hrest⟩ := List.forall_mem_cons.mp h
    have hbmod : Int.bmod start (2 ^ 32) = start := by
      apply Int.bmod_eq_of_le <;> omega
    rw [handed, bmod_start, ih hrest, hbmod, List.sum_cons, Int.natCast_add, window_append]

-- ---------------------------------------------------------------------------
-- Transfers that do not depend on how they are split
-- ---------------------------------------------------------------------------

/-- Whatever the buffer held: `read` throws, or it takes the next `len` bytes from the stream into
the front of the buffer. It goes on only until it has had an answer for each byte. -/
def ReadExact (turns : List Turn) (stream : List UInt8) (len : Nat) : Prop :=
  ∀ buf : List UInt8, len ≤ buf.length →
    match read turns stream buf len with
    | .waiting => turns.length < len
    | .thrown _ => True
    | .returned result => result = (stream.take len ++ buf.drop len, stream.drop len)

/-- The same of `read_n_bytes`, whatever the new memory holds. -/
def BytesExact (turns : List Turn) (stream : List UInt8) (n : Nat) : Prop :=
  ∀ (junk : List UInt8) (limit : UInt64), junk.length = n →
    match readNBytes turns stream junk n limit with
    | .waiting => turns.length < n
    | .thrown _ => True
    | .returned result => result.1.buffer = stream.take n ∧ result.2.1 = stream.drop n

/-- Whatever the memory holds: `write` throws, or it hands over the `len` bytes of the buffer. -/
def WriteExact (turns : List Turn) (len : Nat) : Prop :=
  ∀ buf : Int → UInt8,
    match write turns buf 0 len with
    | .waiting => turns.length < len
    | .thrown _ => True
    | .returned sent => sent = window buf 0 len

/-- When the bytes all come, they come in one piece. -/
def InOnePiece (turns : List Turn) (stream : List UInt8) (len : Nat) : Prop :=
  ∀ sizes, Splits .readError turns stream.length len sizes → sizes.length ≤ 1

/-- When the bytes all go, each piece begins where an `int` can point. -/
def StartsInReach (turns : List Turn) (len : Nat) : Prop :=
  ∀ sizes, Splits .writeError turns len len sizes → ∀ start ∈ starts 0 sizes, start < 2 ^ 31

/-- Bytes in one piece are stored as they are. -/
theorem stored_one {turns : List Turn} {stream buf : List UInt8} {len : Nat} {sizes : List Nat}
    (h : Splits .readError turns stream.length len sizes) (hone : sizes.length ≤ 1) :
    stored sizes stream buf = stream.take len ++ buf.drop len := by
  have hsum := h.sum_eq
  have hle := h.le_available
  match sizes, hone with
  | [], _ =>
    subst hsum
    rfl
  | [size], _ =>
    have hsize : size = len := by simpa using hsum
    rw [stored, stored, store, hsize, List.length_take, Nat.min_eq_left hle]

/-- A byte that the last place of the request does not hold after `stream` has been read. -/
def other (stream : List UInt8) (len : Nat) : UInt8 := stream.getD (len - 1) 0 + 1

theorem stored_two {turns : List Turn} {stream : List UInt8} {len : Nat} {sizes : List Nat}
    (h : Splits .readError turns stream.length len sizes) (htwo : 1 < sizes.length)
    (tail : List UInt8) :
    stored sizes stream (List.replicate len (other stream len)) ≠ stream.take len ++ tail := by
  obtain ⟨hlen, hle⟩ := le_pred_of_two h.sum_eq h.pos htwo
  have hlast : len - 1 < stream.length := by
    have := h.le_available
    omega
  intro heq
  have hget := congrArg (·[len - 1]?) heq
  simp only [stored_getElem? hle] at hget
  rw [List.getElem?_append_left (by rw [List.length_take]; omega),
    List.getElem?_take_of_lt (by omega), List.getElem?_eq_getElem hlast,
    List.getElem?_replicate_of_lt (by omega), Option.some.injEq, other,
    List.getD_eq_getElem?_getD, List.getElem?_eq_getElem hlast, Option.getD_some] at hget
  have hnat := congrArg UInt8.toNat hget
  rw [UInt8.toNat_add] at hnat
  have hone : (1 : UInt8).toNat = 1 := rfl
  have hbyte := stream[len - 1].toNat_lt
  omega

theorem readExact_iff (turns : List Turn) (stream : List UInt8) (len : Nat) :
    ReadExact turns stream len ↔ InOnePiece turns stream len := by
  constructor
  · intro hexact sizes hsplits
    apply Nat.le_of_not_lt
    intro htwo
    have h := hexact (List.replicate len (other stream len)) (by simp)
    rw [read_of_splits hsplits] at h
    exact stored_two hsplits htwo _ (congrArg Prod.fst h)
  · intro hone buf hbuf
    cases hread : read turns stream buf len with
    | waiting => exact read_waiting hread
    | thrown error => trivial
    | returned result =>
      obtain ⟨sizes, hsplits⟩ := splits_of_read hread
      have hdone := read_of_splits hsplits buf
      rw [stored_one hsplits (hone sizes hsplits), hread] at hdone
      exact Outcome.returned.inj hdone

theorem bytesExact_iff (turns : List Turn) (stream : List UInt8) (n : Nat) :
    BytesExact turns stream n ↔ InOnePiece turns stream n := by
  constructor
  · intro hexact sizes hsplits
    apply Nat.le_of_not_lt
    intro htwo
    have h := hexact (List.replicate n (other stream n)) 0 (by simp)
    rw [readNBytes, read_of_splits hsplits] at h
    apply stored_two hsplits htwo []
    rw [List.append_nil]
    exact h.1
  · intro hone junk limit hjunk
    have h := (readExact_iff turns stream n).mpr hone junk hjunk.ge
    rw [readNBytes]
    cases hread : read turns stream junk n with
    | waiting => exact read_waiting hread
    | thrown error => trivial
    | returned result =>
      rw [hread] at h
      simp [Outcome.map, h, ← hjunk]

theorem writeExact_iff (turns : List Turn) (len : Nat) :
    WriteExact turns len ↔ StartsInReach turns len := by
  constructor
  · intro hexact sizes hsplits start hstart
    apply Nat.lt_of_not_le
    intro hfar
    have h := hexact fun i => if i = start then 1 else 0
    rw [write_of_splits hsplits rfl] at h
    obtain ⟨-, hget⟩ := handed_getElem? (fun i => if i = (start : Int) then 1 else 0)
      hsplits.pos hstart
    have hzero : Int.bmod (0 : Nat) (2 ^ 32) = 0 := rfl
    have hne : Int.bmod start (2 ^ 32) ≠ start := by
      have hlt := @Int.bmod_lt start (2 ^ 32) (by decide)
      omega
    rw [hzero, h, Nat.sub_zero, if_neg hne] at hget
    by_cases hlt : start < len
    · rw [window_getElem? _ _ hlt, Int.zero_add, if_pos rfl] at hget
      exact absurd hget (by decide)
    · rw [List.getElem?_eq_none (by rw [length_window]; omega)] at hget
      contradiction
  · intro hreach buf
    cases hwrite : write turns buf 0 len with
    | waiting => exact write_waiting hwrite
    | thrown error => trivial
    | returned sent =>
      obtain ⟨sizes, hsplits⟩ := splits_of_write hwrite
      have hdone := write_of_splits hsplits rfl buf 0
      have hall := handed_eq_window buf (hreach sizes hsplits)
      rw [hsplits.sum_eq] at hall
      rw [hwrite] at hdone
      exact (Outcome.returned.inj hdone).trans hall

/-- Each of the three is exact when the system's pieces are what it takes them to be, and only
then. -/
theorem transfers_exact_iff (turns : List Turn) (stream : List UInt8) (len : Nat) :
    (ReadExact turns stream len ↔ InOnePiece turns stream len) ∧
    (BytesExact turns stream len ↔ InOnePiece turns stream len) ∧
    (WriteExact turns len ↔ StartsInReach turns len) :=
  ⟨readExact_iff turns stream len, bytesExact_iff turns stream len, writeExact_iff turns len⟩

/-- Nothing but `ready` bytes happens. -/
def Turn.ready (ready : Nat) : Turn := ⟨false, .ok 1, false, .ok ready, false⟩

/-- The second byte takes the place of the first one. -/
theorem second_piece_overwrites :
    read [.ready 1, .ready 1] [1, 2] [0, 0] 2 = .returned ([2, 0], []) ∧
    ¬ReadExact [.ready 1, .ready 1] [1, 2] 2 := by
  have hread : read [.ready 1, .ready 1] [1, 2] [0, 0] 2 = .returned ([2, 0], []) := by decide
  refine ⟨hread, ?_⟩
  intro hexact
  have h := hexact [0, 0] (by decide)
  rw [hread] at h
  exact absurd h (by decide)

-- ---------------------------------------------------------------------------
-- Octets
-- ---------------------------------------------------------------------------

theorem stored_pieces (ps : List (List Octet)) (rest : List UInt8) (buf : List UInt8) :
    stored (ps.map List.length) (ps.flatten.map Octet.value ++ rest) buf =
      ps.foldl (fun buf piece => piece.map Octet.value ++ buf.drop piece.length) buf := by
  induction ps generalizing buf with
  | nil => rfl
  | cons p ps ih =>
    have hlen : (p.map Octet.value).length = p.length := List.length_map _
    rw [List.map_cons, stored, List.flatten_cons, List.map_append, List.append_assoc,
      List.take_left' hlen, List.drop_left' hlen, ih, List.foldl_cons, store, hlen]

/-- The buffer that the readers of numbers and texts go on with is the one the loop leaves. -/
theorem read_received {turns : List Turn} {os : List Octet} {rest : List UInt8}
    (h : Splits .readError turns (os.length + rest.length) os.length
      ((pieces os).map List.length)) :
    read turns (os.map Octet.value ++ rest) (os.map Octet.stale) os.length =
      .returned (received os, rest) := by
  have hlen : (os.map Octet.value ++ rest).length = os.length + rest.length := by simp
  have hflat : (pieces os).flatten = os := List.flatten_splitBy ..
  have hstored := stored_pieces (pieces os) rest (os.map Octet.stale)
  rw [hflat] at hstored
  rw [read_of_splits (hlen ▸ h), hstored, received, List.drop_left' (List.length_map _)]

end Loxim.Protocol.FileDataStream
