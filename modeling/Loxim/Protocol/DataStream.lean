import Loxim.Lib.Limited
import Loxim.Protocol.Package
import Mathlib.Data.List.SplitBy

/-!
# Reading from a stream

The system may give the bytes of one `read` in several pieces. The loop that asks for them does
not move on in its buffer, so that each piece takes the place of the one before it.
-/

namespace Loxim.Protocol

open Limited

/-- A byte as it comes in. It is `late` when it was not there yet at the time the byte before it
was read. The place it is meant for held `stale`. -/
structure Octet where
  value : UInt8
  late : Bool
  stale : UInt8
deriving DecidableEq

inductive Error
  | protocolLogic
  | readError
  | packageTooBig
deriving DecidableEq

abbrev Reader (α : Type) := Limited Octet Error α

/-- What one `::read` after another gives. -/
def pieces (os : List Octet) : List (List Octet) := os.splitBy fun _ o => !o.late

/-- The buffer after the loop of `FileDataStream::read`. -/
def received (os : List Octet) : List UInt8 :=
  (pieces os).foldl (fun buf piece => piece.map Octet.value ++ buf.drop piece.length)
    (os.map Octet.stale)

def readNumber (size : Nat) : Reader (BitVec (8 * size)) := do
  let os ← take .protocolLogic .readError size
  return BitVec.ofNat _ (readNetwork (received os))

def readUint8 : Reader (BitVec (8 * 1)) := readNumber 1

def readInt8 : Reader (BitVec (8 * 1)) := readNumber 1

def readUint16 : Reader (BitVec (8 * 2)) := readNumber 2

def readInt16 : Reader (BitVec (8 * 2)) := readNumber 2

/-- The only one that counts the bytes before it reads them. -/
def readUint32 : Reader (BitVec (8 * 4)) := do
  let os ← takeEarly .protocolLogic .readError 4
  return BitVec.ofNat _ (readNetwork (received os))

def readInt32 : Reader (BitVec (8 * 4)) := readNumber 4

def readUint64 : Reader (BitVec (8 * 8)) := readNumber 8

def readInt64 : Reader (BitVec (8 * 8)) := readNumber 8

def readDouble : Reader (BitVec (8 * 8)) := readUint64

def readVaruint : Reader VarUint := do
  let fb ← readUint8
  if fb.toNat < 250 then return some (UInt64.ofNat fb.toNat)
  else if fb.toNat = 250 then return none
  else if fb.toNat = 251 then do
    let n ← readUint16
    return some (UInt64.ofNat n.toNat)
  else if fb.toNat = 252 then do
    let n ← readUint32
    return some (UInt64.ofNat n.toNat)
  else if fb.toNat = 253 then do
    let n ← readUint64
    return some (UInt64.ofNat n.toNat)
  else fail .protocolLogic

def readBool : Reader Bool := do
  let b ← readUint8
  return b.toNat ≠ 0

/-- The size of the buffer is an `int`. -/
def readNBytes (n : Nat) : Reader ByteBuffer := do
  let os ← read .readError n
  subtract n
  if h : (received os).length < 2 ^ 31 then return ⟨received os, h⟩
  else fail .protocolLogic

def readBytes : Reader ByteBuffer := do
  let len ← readVaruint
  match len with
  | none => return ByteBuffer.empty
  | some len => do
    check .protocolLogic len.toNat
    readNBytes len.toNat

def readString : Reader ByteBuffer := readBytes

-- ---------------------------------------------------------------------------
-- What stands for a value
-- ---------------------------------------------------------------------------

def NumberText (size : Nat) (w : List Octet) (n : BitVec (8 * size)) : Prop :=
  w.length = size ∧ n = BitVec.ofNat _ (readNetwork (received w))

/-- The bytes that follow the first one of a variable-length integer. -/
def widths : List (Nat × Nat) := [(251, 2), (252, 4), (253, 8)]

inductive VaruintText : List Octet → VarUint → Prop
  | small (o : Octet) (h : o.value.toNat < 250) :
    VaruintText [o] (some (UInt64.ofNat o.value.toNat))
  | null (o : Octet) (h : o.value.toNat = 250) : VaruintText [o] none
  | wide (o : Octet) (w : List Octet) (h : (o.value.toNat, w.length) ∈ widths) :
    VaruintText (o :: w) (some (UInt64.ofNat (readNetwork (received w))))

inductive BytesText : List Octet → ByteBuffer → Prop
  | null (w : List Octet) (h : VaruintText w none) : BytesText w ByteBuffer.empty
  | bytes (w w' : List Octet) (n : UInt64) (b : ByteBuffer) (h : VaruintText w (some n))
    (hlen : w'.length = n.toNat) (hdata : b.data = received w') : BytesText (w ++ w') b

-- ---------------------------------------------------------------------------
-- What the loop leaves in the buffer
-- ---------------------------------------------------------------------------

/-- Each piece fits the buffer. -/
theorem length_received (os : List Octet) : (received os).length = os.length := by
  have hfill : ∀ ps : List (List Octet), (∀ p ∈ ps, p.length ≤ os.length) →
      ∀ buf : List UInt8, buf.length = os.length →
        (ps.foldl (fun buf piece => piece.map Octet.value ++ buf.drop piece.length) buf).length =
          os.length := by
    intro ps hps
    induction ps with
    | nil => intro buf hbuf; exact hbuf
    | cons p ps ih =>
      intro buf hbuf
      apply ih fun q hq => hps q (List.mem_cons_of_mem p hq)
      have hp := hps p List.mem_cons_self
      rw [List.length_append, List.length_map, List.length_drop, hbuf]
      omega
  apply hfill (pieces os)
  · intro p hp
    calc p.length ≤ (pieces os).flatten.length := (List.sublist_flatten_of_mem hp).length_le
      _ = os.length := by rw [pieces, List.flatten_splitBy]
  · exact List.length_map _

theorem received_singleton (o : Octet) : received [o] = [o.value] := rfl

/-- What comes in one piece is read as it is. -/
theorem received_of_punctual {os : List Octet} (h : ∀ o ∈ os.tail, o.late = false) :
    received os = os.map Octet.value := by
  cases os with
  | nil => rfl
  | cons o os =>
    have hchain : (o :: os).IsChain fun _ o => (!o.late) = true := by
      induction os generalizing o with
      | nil => exact .singleton o
      | cons o' os ih =>
        refine .cons_cons ?_ (ih o' fun x hx => h x (List.mem_cons_of_mem o' hx))
        simpa using h o' List.mem_cons_self
    have hone : pieces (o :: os) = [o :: os] :=
      List.splitBy_of_isChain (List.cons_ne_nil o os) hchain
    rw [received, hone]
    simp

-- ---------------------------------------------------------------------------
-- The readers follow their texts
-- ---------------------------------------------------------------------------

theorem recognizes_number {r : Reader (List Octet)} {size : Nat}
    (h : Recognizes r (Format.leaf fun w a => w.length = size ∧ a = w)) :
    Recognizes (do
      let os ← r
      return BitVec.ofNat (8 * size) (readNetwork (received os)))
      (Format.leaf (NumberText size)) := by
  apply (h.leaf_bind fun os => leaf_pure _).leaf_congr
  intro w n
  constructor
  · rintro ⟨v, a, v', ⟨hlen, rfl⟩, ⟨rfl, rfl⟩, rfl⟩
    rw [List.append_nil]
    exact ⟨hlen, rfl⟩
  · rintro ⟨hlen, rfl⟩
    exact ⟨w, w, [], ⟨hlen, rfl⟩, ⟨rfl, rfl⟩, (List.append_nil w).symm⟩

theorem recognizes_readNumber (size : Nat) :
    Recognizes (readNumber size) (Format.leaf (NumberText size)) :=
  recognizes_number (recognizes_take _ _ size)

theorem recognizes_readUint32 : Recognizes readUint32 (Format.leaf (NumberText 4)) :=
  recognizes_number (recognizes_takeEarly _ _ 4)

theorem numberText_one {w : List Octet} {n : BitVec (8 * 1)} :
    NumberText 1 w n ↔ ∃ o, w = [o] ∧ n.toNat = o.value.toNat := by
  have hone (o : Octet) :
      (BitVec.ofNat (8 * 1) (readNetwork (received [o]))).toNat = o.value.toNat := by
    have hlt := o.value.toNat_lt
    rw [received_singleton, BitVec.toNat_ofNat]
    simp [readNetwork, Bytes.decode]
  constructor
  · rintro ⟨hlen, rfl⟩
    obtain ⟨o, rfl⟩ := List.length_eq_one_iff.mp hlen
    exact ⟨o, rfl, hone o⟩
  · rintro ⟨o, rfl, hn⟩
    exact ⟨rfl, BitVec.eq_of_toNat_eq (hn.trans (hone o).symm)⟩

theorem NumberText.toNat_eq {size : Nat} {w : List Octet} {n : BitVec (8 * size)}
    (h : NumberText size w n) : n.toNat = readNetwork (received w) := by
  obtain ⟨hlen, rfl⟩ := h
  have hlt := readNetwork_lt (received w)
  rw [length_received, hlen, ← Nat.pow_mul 2 8 size] at hlt
  rw [BitVec.toNat_ofNat, Nat.mod_eq_of_lt hlt]

/-- The number after the first byte. -/
theorem recognizes_wide {size : Nat} {r : Reader (BitVec (8 * size))}
    (h : Recognizes r (Format.leaf (NumberText size))) :
    Recognizes (do
      let n ← r
      return (some (UInt64.ofNat n.toNat) : VarUint))
      (Format.leaf fun w v => w.length = size ∧ v = some (UInt64.ofNat (readNetwork (received w)))) := by
  apply (h.leaf_bind fun n => leaf_pure _).leaf_congr
  intro w v
  constructor
  · rintro ⟨u, n, v', hn, ⟨rfl, rfl⟩, rfl⟩
    rw [List.append_nil, hn.toNat_eq]
    exact ⟨hn.1, rfl⟩
  · rintro ⟨hlen, rfl⟩
    have hn : NumberText size w (BitVec.ofNat _ (readNetwork (received w))) := ⟨hlen, rfl⟩
    refine ⟨w, _, [], hn, ⟨rfl, ?_⟩, (List.append_nil w).symm⟩
    rw [hn.toNat_eq]

/-- What follows the first byte of a variable-length integer. -/
def VaruintRest (fb : Nat) (w : List Octet) (v : VarUint) : Prop :=
  (fb < 250 ∧ w = [] ∧ v = some (UInt64.ofNat fb)) ∨ (fb = 250 ∧ w = [] ∧ v = none) ∨
    ((fb, w.length) ∈ widths ∧ v = some (UInt64.ofNat (readNetwork (received w))))

theorem varuintText_cons {o : Octet} {w : List Octet} {v : VarUint} :
    VaruintText (o :: w) v ↔ VaruintRest o.value.toNat w v := by
  constructor
  · rintro (⟨_, h⟩ | ⟨_, h⟩ | ⟨_, _, h⟩)
    · exact .inl ⟨h, rfl, rfl⟩
    · exact .inr (.inl ⟨h, rfl, rfl⟩)
    · exact .inr (.inr ⟨h, rfl⟩)
  · rintro (⟨h, rfl, rfl⟩ | ⟨h, rfl, rfl⟩ | ⟨h, rfl⟩)
    · exact .small o h
    · exact .null o h
    · exact .wide o w h

theorem recognizes_readVaruint : Recognizes readVaruint (Format.leaf VaruintText) := by
  have hrest : Recognizes readVaruint (Format.leaf fun w v => ∃ u n u', NumberText 1 u n ∧
      VaruintRest n.toNat u' v ∧ w = u ++ u') := by
    apply (recognizes_readNumber 1).leaf_bind
    intro fb
    -- one branch for each meaning of the first byte
    split_ifs with hsmall hnull h1 h2 h3
    · apply (leaf_pure _).leaf_congr
      intro w v
      have hnot : fb.toNat ≠ 250 ∧ fb.toNat ≠ 251 ∧ fb.toNat ≠ 252 ∧ fb.toNat ≠ 253 := by omega
      simp [VaruintRest, widths, hsmall, hnot]
    · apply (leaf_pure _).leaf_congr
      intro w v
      simp [VaruintRest, widths, hnull]
    · apply (recognizes_wide (recognizes_readNumber 2)).leaf_congr
      intro w v
      simp [VaruintRest, widths, h1]
    · apply (recognizes_wide recognizes_readUint32).leaf_congr
      intro w v
      simp [VaruintRest, widths, h2]
    · apply (recognizes_wide (recognizes_readNumber 8)).leaf_congr
      intro w v
      simp [VaruintRest, widths, h3]
    · apply (leaf_fail _).leaf_congr
      intro w v
      simp [VaruintRest, widths, hsmall, hnull, h1, h2, h3]
  apply hrest.leaf_congr
  intro w v
  constructor
  · rintro ⟨u, n, u', hn, hv, rfl⟩
    obtain ⟨o, rfl, hval⟩ := numberText_one.mp hn
    exact varuintText_cons.mpr (hval ▸ hv)
  · intro hv
    obtain ⟨o, u', rfl⟩ : ∃ o u', w = o :: u' := by
      cases hv with
      | small o _ | null o _ => exact ⟨o, [], rfl⟩
      | wide o w _ => exact ⟨o, w, rfl⟩
    have hn : NumberText 1 [o] (BitVec.ofNat _ o.value.toNat) := by
      apply numberText_one.mpr
      have hlt := o.value.toNat_lt
      exact ⟨o, rfl, by rw [BitVec.toNat_ofNat, Nat.mod_eq_of_lt hlt]⟩
    refine ⟨[o], _, u', hn, ?_, rfl⟩
    obtain ⟨o', ho', hval⟩ := numberText_one.mp hn
    cases ho'
    exact hval.symm ▸ varuintText_cons.mp hv

theorem recognizes_readBool : Recognizes readBool
    (Format.leaf fun w b => ∃ o, w = [o] ∧ b = decide (o.value ≠ 0)) := by
  apply ((recognizes_readNumber 1).leaf_bind fun n => leaf_pure _).leaf_congr
  intro w b
  constructor
  · rintro ⟨u, n, u', hn, ⟨rfl, rfl⟩, rfl⟩
    obtain ⟨o, rfl, hval⟩ := numberText_one.mp hn
    refine ⟨o, rfl, ?_⟩
    rw [hval]
    simp [← UInt8.toNat_inj]
  · rintro ⟨o, rfl, rfl⟩
    have hlt := o.value.toNat_lt
    have hval : (BitVec.ofNat (8 * 1) o.value.toNat).toNat = o.value.toNat := by
      rw [BitVec.toNat_ofNat, Nat.mod_eq_of_lt hlt]
    refine ⟨[o], BitVec.ofNat _ o.value.toNat, [], numberText_one.mpr ⟨o, rfl, hval⟩,
      ⟨rfl, ?_⟩, rfl⟩
    rw [hval]
    simp [← UInt8.toNat_inj]

/-- The check of the length and the bytes after it. -/
theorem recognizes_checked (n : Nat) :
    Recognizes (do
      check .protocolLogic n
      readNBytes n) (Format.leaf fun w b => w.length = n ∧ b.data = received w) := by
  have hbuffer (os : List Octet) : Recognizes
      (if h : (received os).length < 2 ^ 31 then pure ⟨received os, h⟩
        else fail .protocolLogic : Reader ByteBuffer)
      (Format.leaf fun w b => w = [] ∧ b.data = received os) := by
    split
    · apply (leaf_pure _).leaf_congr
      intro w b
      cases b
      simp
    · rename_i hlong
      apply (leaf_fail _).leaf_congr
      intro w b
      constructor
      · rintro ⟨⟩
      · rintro ⟨-, hdata⟩
        exact hlong (hdata ▸ b.small)
  have hsame : (do
      check .protocolLogic n
      readNBytes n) = (do
      let os ← take .protocolLogic .readError n
      if h : (received os).length < 2 ^ 31 then return ⟨received os, h⟩
      else fail .protocolLogic : Reader ByteBuffer) := by
    simp only [take, readNBytes, bind_assoc, pure_bind]
  rw [hsame]
  apply ((recognizes_take _ _ n).leaf_bind hbuffer).leaf_congr
  intro w b
  constructor
  · rintro ⟨v, os, v', ⟨hlen, rfl⟩, ⟨rfl, hdata⟩, rfl⟩
    rw [List.append_nil]
    exact ⟨hlen, hdata⟩
  · rintro ⟨hlen, hdata⟩
    exact ⟨w, w, [], ⟨hlen, rfl⟩, ⟨rfl, hdata⟩, (List.append_nil w).symm⟩

def BytesRest (len : VarUint) (w : List Octet) (b : ByteBuffer) : Prop :=
  match len with
  | none => w = [] ∧ b = ByteBuffer.empty
  | some n => w.length = n.toNat ∧ b.data = received w

theorem recognizes_readBytes : Recognizes readBytes (Format.leaf BytesText) := by
  have hrest : Recognizes readBytes (Format.leaf fun w b => ∃ u len u', VaruintText u len ∧
      BytesRest len u' b ∧ w = u ++ u') := by
    apply recognizes_readVaruint.leaf_bind
    intro v
    cases v with
    | none => exact leaf_pure _
    | some n => exact recognizes_checked n.toNat
  apply hrest.leaf_congr
  intro w b
  constructor
  · rintro ⟨u, v, u', hv, hb, rfl⟩
    cases v with
    | none =>
      obtain ⟨rfl, rfl⟩ := hb
      rw [List.append_nil]
      exact .null u hv
    | some n => exact .bytes u u' n b hv hb.1 hb.2
  · rintro (⟨u, hv⟩ | ⟨u, u', n, b, hv, hlen, hdata⟩)
    · exact ⟨w, none, [], hv, ⟨rfl, rfl⟩, (List.append_nil w).symm⟩
    · exact ⟨u, some n, u', hv, ⟨hlen, hdata⟩, rfl⟩

end Loxim.Protocol
