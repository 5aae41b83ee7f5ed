import Loxim.Protocol.Schema
import Loxim.Lib.Bytes
import Mathlib.Data.List.Induction
import Mathlib.Tactic.SplitIfs

/-!
# Packages as bytes

A package writes its fields one after another, each as its type has it, with a call of the stream
or two for each. How many bytes that takes is worked out apart from writing them, and goes into
the header.
-/

namespace Loxim.Protocol

open Bytes

/-- A number of 64 bits, or null. -/
abbrev VarUint := Option UInt64

/-- The size is an `int`. -/
structure ByteBuffer where
  data : List UInt8
  small : data.length < 2 ^ 31
deriving DecidableEq

/-- A package, or the value of a field. A number is kept with its width in bytes, a `double` as
its bits. A collection knows whether its packages are taken to be of one type. -/
inductive Item
  | fixed (size : Nat) (value : BitVec (8 * size))
  | varuint (value : VarUint)
  | bool (value : Bool)
  | bytes (value : ByteBuffer)
  | generated (type : UInt8) (fields : List Item)
  | collection (type : UInt8) (sameType : Bool) (packages : List Item)

/-- Most significant byte first. -/
def networkBytes (size : Nat) (n : Nat) : List UInt8 := (encode size n).reverse

def readNetwork (bs : List UInt8) : Nat := decode bs.reverse

namespace VarUint

def getSize (n : VarUint) : Nat :=
  match n with
  | none => 1
  | some v =>
    if v.toNat < 250 then 1
    else if v.toNat < 0xFFFF then 3
    else if v.toNat < 0xFFFFFFFF then 5
    else 9

/-- What each call of the stream writes. -/
def write (n : VarUint) : List (List UInt8) :=
  match n with
  | none => [[250]]
  | some v =>
    if v.toNat < 250 then [[UInt8.ofNat v.toNat]]
    else if v.toNat ≤ 0xFFFF then [[251], networkBytes 2 v.toNat]
    else if v.toNat ≤ 0xFFFFFFFF then [[252], networkBytes 4 v.toNat]
    else [[253], networkBytes 8 v.toNat]

/-- As `write` has it but not `getSize`. -/
def AtBound (n : VarUint) : Prop := n = some 0xFFFF ∨ n = some 0xFFFFFFFF

instance (n : VarUint) : Decidable n.AtBound := inferInstanceAs (Decidable (_ ∨ _))

/-- A size, as the stream writes it. -/
def ofSize (n : Nat) : VarUint := some (UInt64.ofNat n)

def ofType (type : UInt8) : VarUint := some (UInt64.ofNat type.toNat)

end VarUint

namespace ByteBuffer

def empty : ByteBuffer := ⟨[], Nat.two_pow_pos 31⟩

def getSize (b : ByteBuffer) : Nat := b.data.length

def getSerSize (b : ByteBuffer) : Nat := (VarUint.ofSize b.getSize).getSize + b.getSize

def write (b : ByteBuffer) : List (List UInt8) := (VarUint.ofSize b.getSize).write ++ [b.data]

end ByteBuffer

namespace Item

/-- What stands before a nested package, and before a package of a mixed collection. -/
def typeHolder : Item → Option VarUint
  | .generated type _ | .collection type _ _ => some (VarUint.ofType type)
  | _ => none

def type : Item → UInt8
  | .generated type _ | .collection type _ _ => type
  | _ => 0

/-- The type the packages of a collection have in common, as it is written. -/
def globalType (sameType : Bool) (packages : List Item) : VarUint :=
  match packages with
  | p :: _ => if sameType then VarUint.ofType p.type else none
  | [] => none

mutual

/-- `serialize` without the header. -/
def body : Item → List (List UInt8)
  | .fixed size value => [networkBytes size value.toNat]
  | .varuint value => value.write
  | .bool value => [[if value then 1 else 0]]
  | .bytes value => value.write
  | .generated _ fields => bodies true fields
  | .collection _ sameType packages =>
    (VarUint.ofSize packages.length).write ++ (globalType sameType packages).write ++
      bodies (!sameType) packages

/-- One after another, with their types if asked for. -/
def bodies (typed : Bool) : List Item → List (List UInt8)
  | [] => []
  | p :: l => (if typed then (p.typeHolder.map VarUint.write).getD [] else []) ++ p.body ++
    bodies typed l

end

mutual

def getSerSize : Item → Nat
  | .fixed size _ => size
  | .varuint value => value.getSize
  | .bool _ => 1
  | .bytes value => value.getSerSize
  | .generated _ fields => getSerSizes true fields
  | .collection _ sameType packages =>
    (VarUint.ofSize packages.length).getSize + (globalType sameType packages).getSize +
      getSerSizes (!sameType) packages

def getSerSizes (typed : Bool) : List Item → Nat
  | [] => 0
  | p :: l => (if typed then (p.typeHolder.map VarUint.getSize).getD 0 else 0) + p.getSerSize +
    getSerSizes typed l

end

/-- `serialize` with the header. -/
def serialize (p : Item) : List (List UInt8) :=
  [p.type] :: networkBytes 4 p.getSerSize :: p.body

/-- What holds of the values of the fields and then of the package holds of every package. -/
@[elab_as_elim, induction_eliminator]
theorem induct {P : Item → Prop} (fixed : ∀ size value, P (.fixed size value))
    (varuint : ∀ value, P (.varuint value)) (bool : ∀ value, P (.bool value))
    (bytes : ∀ value, P (.bytes value))
    (generated : ∀ type fields, (∀ p ∈ fields, P p) → P (.generated type fields))
    (collection : ∀ type sameType packages, (∀ p ∈ packages, P p) →
      P (.collection type sameType packages)) : ∀ p, P p
  | .fixed size value => fixed size value
  | .varuint value => varuint value
  | .bool value => bool value
  | .bytes value => bytes value
  | .generated type fields => generated type fields fun p _ =>
    induct fixed varuint bool bytes generated collection p
  | .collection type sameType packages => collection type sameType packages fun p _ =>
    induct fixed varuint bool bytes generated collection p

-- ---------------------------------------------------------------------------
-- Where the two sizes differ
-- ---------------------------------------------------------------------------

mutual

/-- Some variable-length integer of the package is at a bound of its encoding: a field, the
length of a string or of a collection. -/
def HasBound : Item → Prop
  | .fixed _ _ | .bool _ => False
  | .varuint value => value.AtBound
  | .bytes value => (VarUint.ofSize value.getSize).AtBound
  | .generated _ fields => AnyBound fields
  | .collection _ _ packages => (VarUint.ofSize packages.length).AtBound ∨ AnyBound packages

def AnyBound : List Item → Prop
  | [] => False
  | p :: l => p.HasBound ∨ AnyBound l

end

end Item

@[simp] theorem length_networkBytes : (networkBytes size n).length = size := by
  rw [networkBytes, List.length_reverse, length_encode]

theorem readNetwork_networkBytes (h : n < 256 ^ size) : readNetwork (networkBytes size n) = n := by
  rw [readNetwork, networkBytes, List.reverse_reverse, decode_encode, Nat.mod_eq_of_lt h]

theorem readNetwork_lt (bs : List UInt8) : readNetwork bs < 256 ^ bs.length := by
  have hlt := decode_lt bs.reverse
  rwa [List.length_reverse] at hlt

theorem networkBytes_readNetwork (bs : List UInt8) :
    networkBytes bs.length (readNetwork bs) = bs := by
  rw [networkBytes, readNetwork, ← List.length_reverse, encode_decode, List.reverse_reverse]

namespace VarUint

theorem getSize_spec (n : VarUint) : n.write.flatten.length ≤ n.getSize ∧
    (n.getSize = n.write.flatten.length ↔ ¬ n.AtBound) := by
  cases n with
  | none => simp [write, getSize, AtBound]
  | some v =>
    have hat : AtBound (some v) ↔ v.toNat = 0xFFFF ∨ v.toNat = 0xFFFFFFFF := by
      simp [AtBound, ← UInt64.toNat_inj]
    rw [hat]
    simp only [write, getSize]
    -- the bounds of the two functions, in turn
    split_ifs
    all_goals
      simp only [List.flatten_cons, List.flatten_nil, List.length_append, List.length_cons,
        List.length_nil, length_networkBytes]
      refine ⟨by omega, ?_⟩
      constructor
      · intro hsize
        omega
      · intro hval
        first | trivial | omega

theorem not_atBound_ofType (type : UInt8) : ¬ (ofType type).AtBound := by
  have hlt := type.toNat_lt
  have hval : (UInt64.ofNat type.toNat).toNat = type.toNat :=
    UInt64.toNat_ofNat_of_lt' (Nat.lt_trans hlt (by decide))
  simp only [AtBound, ofType, Option.some.injEq, ← UInt64.toNat_inj, hval]
  simp
  omega

theorem getSize_ofType (type : UInt8) : (ofType type).getSize = (ofType type).write.flatten.length :=
  (getSize_spec _).2.mpr (not_atBound_ofType type)

end VarUint

namespace Item

theorem getSize_globalType (sameType : Bool) (packages : List Item) :
    (globalType sameType packages).getSize = (globalType sameType packages).write.flatten.length := by
  cases packages with
  | nil => rfl
  | cons p l =>
    cases sameType with
    | true => exact VarUint.getSize_ofType p.type
    | false => rfl

/-- The sizes of a list, from those of its packages. -/
theorem getSerSizes_spec (typed : Bool) {l : List Item}
    (h : ∀ p ∈ l, p.body.flatten.length ≤ p.getSerSize ∧
      (p.getSerSize = p.body.flatten.length ↔ ¬ p.HasBound)) :
    (bodies typed l).flatten.length ≤ getSerSizes typed l ∧
      (getSerSizes typed l = (bodies typed l).flatten.length ↔ ¬ AnyBound l) := by
  induction l with
  | nil => simp [bodies, getSerSizes, AnyBound]
  | cons p l ih =>
    obtain ⟨hle, hiff⟩ := h p List.mem_cons_self
    obtain ⟨hle', hiff'⟩ := ih fun q hq => h q (List.mem_cons_of_mem p hq)
    have hholder : (p.typeHolder.map VarUint.getSize).getD 0 =
        ((p.typeHolder.map VarUint.write).getD []).flatten.length := by
      cases p with
      | generated type fields => exact VarUint.getSize_ofType type
      | collection type sameType packages => exact VarUint.getSize_ofType type
      | fixed | varuint | bool | bytes => rfl
    have htype : (if typed then (p.typeHolder.map VarUint.getSize).getD 0 else 0) =
        (if typed then (p.typeHolder.map VarUint.write).getD [] else []).flatten.length := by
      cases typed with
      | true => exact hholder
      | false => rfl
    simp only [bodies, getSerSizes, AnyBound, List.flatten_append, List.length_append, not_or, ← hiff,
      ← hiff', htype]
    omega

theorem getSerSize_spec (p : Item) : p.body.flatten.length ≤ p.getSerSize ∧
    (p.getSerSize = p.body.flatten.length ↔ ¬ p.HasBound) := by
  induction p with
  | fixed size value => simp [body, getSerSize, HasBound]
  | varuint value => simpa only [body, getSerSize, HasBound] using value.getSize_spec
  | bool value => simp [body, getSerSize, HasBound]
  | bytes value =>
    obtain ⟨hle, hiff⟩ := (VarUint.ofSize value.getSize).getSize_spec
    have hlen : value.write.flatten.length = (VarUint.ofSize value.getSize).write.flatten.length + value.getSize := by
      rw [ByteBuffer.write, List.flatten_append, List.length_append, List.flatten_singleton]
      rfl
    simp only [body, getSerSize, HasBound, ByteBuffer.getSerSize, hlen, ← hiff]
    omega
  | generated type fields ih =>
    simpa only [body, getSerSize, HasBound] using getSerSizes_spec true ih
  | collection type sameType packages ih =>
    obtain ⟨hle, hiff⟩ := (VarUint.ofSize packages.length).getSize_spec
    obtain ⟨hle', hiff'⟩ := getSerSizes_spec (!sameType) ih
    simp only [body, getSerSize, HasBound, List.flatten_append, List.length_append,
      getSize_globalType, not_or,
      ← hiff, ← hiff']
    omega

/-- The announced size is that of the body, unless a variable-length integer is at a bound of
its encoding. It fits the header when it fits a limit that is an `int`. -/
theorem announced_size (p : Item) :
    (p.getSerSize = p.body.flatten.length ↔ ¬ p.HasBound) ∧
      (∀ v : VarUint, v.getSize = v.write.flatten.length ↔ ¬ v.AtBound) ∧
      ∀ limit < 2 ^ 31, p.getSerSize + 5 ≤ limit →
        readNetwork (networkBytes 4 p.getSerSize) = p.getSerSize := by
  refine ⟨p.getSerSize_spec.2, fun v => v.getSize_spec.2, fun limit hlimit hfits => ?_⟩
  apply readNetwork_networkBytes
  omega

theorem announced_size_ping : readNetwork (networkBytes 4 (generated 128 []).getSerSize) = 0 :=
  (announced_size (.generated 128 [])).2.2 5 (by decide) (by decide)

theorem announced_of_length {b : ByteBuffer} (hb : b.data.length = 65535) :
    (Item.generated 64 [.fixed 8 1, .bytes b]).getSerSize =
      (Item.generated 64 [.fixed 8 1, .bytes b]).body.flatten.length + 2 := by
  simp only [getSerSize, getSerSizes, body, bodies, typeHolder, ByteBuffer.getSerSize,
    ByteBuffer.write, ByteBuffer.getSize, hb, List.flatten_append, List.length_append,
    List.flatten_cons, List.flatten_nil, List.length_nil, length_networkBytes]
  decide

/-- A statement of 65535 bytes. -/
def longStatement : Item :=
  .generated 64 [.fixed 8 1, .bytes ⟨List.replicate 65535 32, by rw [List.length_replicate]; decide⟩]

/-- The size of the statement is announced as 2 more than it is. -/
theorem announced_size_differs : longStatement.getSerSize = longStatement.body.flatten.length + 2 :=
  announced_of_length List.length_replicate

end Item

end Loxim.Protocol
