import Loxim.Lib.Bytes

/-!
# Reading a stream of bytes

`Reads d bs a` says that `d` takes exactly `bs` from the front of a stream, whatever
comes after, and finds `a` in it. Readers of parts make readers of the whole.
-/

namespace Loxim

open Bytes

abbrev Decoder (ε α : Type) := StateT (List UInt8) (Except ε) α

namespace Decoder

variable {ε α β : Type}

def fail (e : ε) : Decoder ε α := fun _ => .error e

def take (eof : ε) (n : Nat) : Decoder ε (List UInt8) := fun bs =>
  if n ≤ bs.length then .ok (bs.take n, bs.drop n) else .error eof

def scalar (eof : ε) (t : Scalar) : Decoder ε Int := do
  let bs ← take eof t.size
  return t.ofBytes bs

def replicate (d : Decoder ε α) : Nat → Decoder ε (List α)
  | 0 => pure []
  | n + 1 => do
    let a ← d
    let l ← replicate d n
    return a :: l

def Reads (d : Decoder ε α) (bs : List UInt8) (a : α) : Prop :=
  ∀ rest, d (bs ++ rest) = .ok (a, rest)

variable {d : Decoder ε α} {f : α → Decoder ε β} {bs bs' : List UInt8} {a : α} {b : β} {eof : ε}
  {t : Scalar} {v : Int}

theorem Reads.pure (a : α) : Reads (Pure.pure a : Decoder ε α) [] a := fun _ => rfl

theorem bind_apply (d : Decoder ε α) (f : α → Decoder ε β) (bs : List UInt8) :
    (d >>= f) bs = (d bs).bind fun p => f p.1 p.2 := rfl

theorem Reads.bind (h : Reads d bs a) (h' : Reads (f a) bs' b) : Reads (d >>= f) (bs ++ bs') b := by
  intro rest
  rw [bind_apply, List.append_assoc, h]
  exact h' rest

theorem bind_error {e : ε} {bs : List UInt8} (h : d bs = .error e) : (d >>= f) bs = .error e := by
  rw [bind_apply, h]
  rfl

theorem Reads.bind_error {e : ε} {rest : List UInt8} (h : Reads d bs a)
    (h' : f a rest = .error e) : (d >>= f) (bs ++ rest) = .error e := by
  rw [bind_apply, h]
  exact h'

/-- The last step of a reader puts its result together. -/
theorem Reads.bind_pure {g : α → β} (h : Reads d bs a) :
    Reads (d >>= fun a => Pure.pure (g a)) bs (g a) := by
  have hlast := h.bind (f := fun a => (Pure.pure (g a) : Decoder ε β)) (Reads.pure (g a))
  rwa [List.append_nil] at hlast

theorem reads_take (eof : ε) (bs : List UInt8) : Reads (take eof bs.length) bs bs := by
  intro rest
  rw [take, if_pos (by simp), List.take_left, List.drop_left]

theorem reads_scalar (eof : ε) (h : t.Holds v) : Reads (scalar eof t) (t.toBytes v) v := by
  have hlen : (t.toBytes v).length = t.size := Scalar.length_toBytes
  have hread := reads_take eof (t.toBytes v)
  rw [hlen] at hread
  have hvalue : t.ofBytes (t.toBytes v) = v := by
    rw [Scalar.ofBytes_toBytes, Scalar.wrap_of_holds h]
  have hlast := hread.bind_pure (g := t.ofBytes)
  rwa [hvalue] at hlast

theorem Reads.replicate {e : β → List UInt8} {g : β → α} {l : List β}
    (h : ∀ b ∈ l, Reads d (e b) (g b)) : Reads (replicate d l.length) (l.flatMap e) (l.map g) := by
  induction l with
  | nil => exact Reads.pure []
  | cons b l ih =>
    have hrest := ih fun c hc => h c (List.mem_cons_of_mem b hc)
    exact (h b List.mem_cons_self).bind (hrest.bind_pure (g := fun l => g b :: l))

end Decoder

end Loxim
