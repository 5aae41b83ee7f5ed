import Loxim.Protocol.DataStream

/-!
# Reading packages

The factory of a group reads a package of an id. A data package is nested in another one with
its id before it, or without it in a collection that tells the type of its packages once. The
size in the header is what the package may take.
-/

namespace Loxim.Protocol

open Limited

/-- The limit comes from the configuration as an `int`. -/
structure PackageCodec where
  limit : Nat
  small : limit < 2 ^ 31

def readStream : StreamType → Reader Item
  | .uint8 => do return .fixed 1 (← readUint8)
  | .int8 => do return .fixed 1 (← readInt8)
  | .uint16 => do return .fixed 2 (← readUint16)
  | .int16 => do return .fixed 2 (← readInt16)
  | .uint32 => do return .fixed 4 (← readUint32)
  | .int32 => do return .fixed 4 (← readInt32)
  | .uint64 => do return .fixed 8 (← readUint64)
  | .int64 => do return .fixed 8 (← readInt64)
  | .double => do return .fixed 8 (← readDouble)
  | .varuint => do return .varuint (← readVaruint)
  | .bool => do return .bool (← readBool)
  | .string => do return .bytes (← readString)

section
variable (deserialize : UInt8 → Reader Item)

/-- The id of the package is one byte here. -/
def deserializeUnknown : Reader Item := do
  let id ← readUint8
  deserialize (UInt8.ofNat id.toNat)

/-- The initializers of the constructor of a package. -/
def readParts : List Part → Reader (List Item)
  | [] => return []
  | .stream t :: parts => do
    let field ← readStream t
    let fields ← readParts parts
    return field :: fields
  | .packageMap :: parts => do
    let field ← deserializeUnknown deserialize
    let fields ← readParts parts
    return field :: fields

/-- One turn of the loop of `CollectionPackage`. -/
def readElement (globalType : VarUint) : Reader Item :=
  match globalType with
  | none => deserializeUnknown deserialize
  | some t => if t.toNat > 255 then fail .protocolLogic else deserialize (UInt8.ofNat t.toNat)

def collectionPackage (id : UInt8) : Reader Item := do
  let count ← readVaruint
  match count with
  | none => fail .protocolLogic
  | some count => do
    let globalType ← readVaruint
    let packages ← Limited.replicate (build (readElement deserialize globalType)) count.toNat
    return .collection id globalType.isSome packages

/-- `deserialize` of the factory of a group; `deserialize` reads a data package. -/
def factory (group : List (UInt8 × Shape)) (id : UInt8) : Reader Item :=
  match shapeOf group id with
  | none => fail .protocolLogic
  | some (.generated parts) => do
    let fields ← readParts deserialize parts
    return .generated id fields
  | some .collection => collectionPackage deserialize id

end

/-- The number bounds how deep packages are nested. -/
def dataPackageFactory : Nat → UInt8 → Reader Item
  | 0 => fun _ => fail .protocolLogic
  | depth + 1 => factory (dataPackageFactory depth) dataShapes

def packageFactory (depth : Nat) : UInt8 → Reader Item :=
  factory (dataPackageFactory depth) shapes

/-- From here on as many bytes may be taken. -/
def allow (n : Nat) : Reader Unit := fun i => (.ok (), { i with length := n })

/-- No package is nested deeper than its size. -/
def PackageCodec.readPackage (c : PackageCodec) : Reader Item := do
  allow c.limit
  let type ← readUint8
  let size ← readUint32
  check .packageTooBig size.toNat
  allow size.toNat
  packageFactory size.toNat (UInt8.ofNat type.toNat)

-- ---------------------------------------------------------------------------
-- The texts of packages
-- ---------------------------------------------------------------------------

inductive StreamText : StreamType → List Octet → Item → Prop
  | fixed (t : StreamType) (size : Nat) (w : List Octet) (n : BitVec (8 * size))
    (ht : t.size = some size) (h : NumberText size w n) : StreamText t w (.fixed size n)
  | varuint (w : List Octet) (v : VarUint) (h : VaruintText w v) : StreamText .varuint w (.varuint v)
  | bool (o : Octet) : StreamText .bool [o] (.bool (decide (o.value ≠ 0)))
  | string (w : List Octet) (b : ByteBuffer) (h : BytesText w b) : StreamText .string w (.bytes b)

section
variable (nested : UInt8 → Format Octet Item)

def unknownFormat : Format Octet Item :=
  (Format.leaf (NumberText 1)).bind fun id => nested (UInt8.ofNat id.toNat)

def partsFormat : List Part → Format Octet (List Item)
  | [] => Format.pure []
  | .stream t :: parts =>
    (Format.leaf (StreamText t)).bind fun field =>
      (partsFormat parts).bind fun fields => Format.pure (field :: fields)
  | .packageMap :: parts =>
    (unknownFormat nested).bind fun field =>
      (partsFormat parts).bind fun fields => Format.pure (field :: fields)

def elementFormat (globalType : VarUint) : Format Octet Item :=
  match globalType with
  | none => unknownFormat nested
  | some t => if t.toNat > 255 then Format.fail else nested (UInt8.ofNat t.toNat)

def packagesFormat (id : UInt8) (count : VarUint) : Format Octet Item :=
  match count with
  | none => Format.fail
  | some count =>
    (Format.leaf VaruintText).bind fun globalType =>
      ((elementFormat nested globalType).build.replicate count.toNat).bind fun packages =>
        Format.pure (.collection id globalType.isSome packages)

def collectionFormat (id : UInt8) : Format Octet Item :=
  (Format.leaf VaruintText).bind (packagesFormat nested id)

def factoryFormat (group : List (UInt8 × Shape)) (id : UInt8) : Format Octet Item :=
  match shapeOf group id with
  | none => Format.fail
  | some (.generated parts) =>
    (partsFormat nested parts).bind fun fields => Format.pure (.generated id fields)
  | some .collection => collectionFormat nested id

end

def dataFormat : Nat → UInt8 → Format Octet Item
  | 0 => fun _ => Format.fail
  | depth + 1 => factoryFormat (dataFormat depth) dataShapes

def packageFormat (depth : Nat) : UInt8 → Format Octet Item :=
  factoryFormat (dataFormat depth) shapes

-- ---------------------------------------------------------------------------
-- The readers follow the texts
-- ---------------------------------------------------------------------------

theorem recognizes_fixed {t : StreamType} {size : Nat} {r : Reader (BitVec (8 * size))}
    (ht : t.size = some size) (h : Recognizes r (Format.leaf (NumberText size))) :
    Recognizes (do
      let n ← r
      return Item.fixed size n) (Format.leaf (StreamText t)) := by
  apply (h.leaf_bind fun n => leaf_pure _).leaf_congr
  intro w p
  constructor
  · rintro ⟨u, n, u', hn, ⟨rfl, rfl⟩, rfl⟩
    rw [List.append_nil]
    exact .fixed t size u n ht hn
  · rintro (⟨_, _, _, n, ht', hn⟩ | _ | _ | _)
    · cases ht.symm.trans ht'
      exact ⟨w, n, [], hn, ⟨rfl, rfl⟩, (List.append_nil w).symm⟩
    all_goals cases ht

theorem recognizes_readStream (t : StreamType) :
    Recognizes (readStream t) (Format.leaf (StreamText t)) := by
  cases t with
  | uint8 | int8 => exact recognizes_fixed rfl (recognizes_readNumber 1)
  | uint16 | int16 => exact recognizes_fixed rfl (recognizes_readNumber 2)
  | uint32 => exact recognizes_fixed rfl recognizes_readUint32
  | int32 => exact recognizes_fixed rfl (recognizes_readNumber 4)
  | uint64 | int64 | double => exact recognizes_fixed rfl (recognizes_readNumber 8)
  | varuint =>
    apply (recognizes_readVaruint.leaf_bind fun v => leaf_pure _).leaf_congr
    intro w p
    constructor
    · rintro ⟨u, v, u', hv, ⟨rfl, rfl⟩, rfl⟩
      rw [List.append_nil]
      exact .varuint u v hv
    · rintro (⟨_, _, _, _, ht, _⟩ | ⟨_, v, hv⟩)
      · cases ht
      · exact ⟨w, v, [], hv, ⟨rfl, rfl⟩, (List.append_nil w).symm⟩
  | bool =>
    apply (recognizes_readBool.leaf_bind fun v => leaf_pure _).leaf_congr
    intro w p
    constructor
    · rintro ⟨u, _, u', ⟨o, rfl, rfl⟩, ⟨rfl, rfl⟩, rfl⟩
      exact .bool o
    · rintro (⟨_, _, _, _, ht, _⟩ | _ | ⟨o⟩)
      · cases ht
      · exact ⟨[o], _, [], ⟨o, rfl, rfl⟩, ⟨rfl, rfl⟩, rfl⟩
  | string =>
    apply (recognizes_readBytes.leaf_bind fun v => leaf_pure _).leaf_congr
    intro w p
    constructor
    · rintro ⟨u, b, u', hb, ⟨rfl, rfl⟩, rfl⟩
      rw [List.append_nil]
      exact .string u b hb
    · rintro (⟨_, _, _, _, ht, _⟩ | _ | _ | ⟨_, b, hb⟩)
      · cases ht
      · exact ⟨w, b, [], hb, ⟨rfl, rfl⟩, (List.append_nil w).symm⟩

section
variable {deserialize : UInt8 → Reader Item} {nested : UInt8 → Format Octet Item}
  (h : ∀ id, Recognizes (deserialize id) (nested id))

include h

theorem recognizes_deserializeUnknown :
    Recognizes (deserializeUnknown deserialize) (unknownFormat nested) :=
  (recognizes_readNumber 1).bind fun id => h (UInt8.ofNat id.toNat)

theorem recognizes_readParts (parts : List Part) :
    Recognizes (readParts deserialize parts) (partsFormat nested parts) := by
  induction parts with
  | nil => exact recognizes_pure []
  | cons part parts ih =>
    cases part with
    | stream t =>
      apply (recognizes_readStream t).bind
      intro field
      exact ih.bind fun fields => recognizes_pure _
    | packageMap =>
      apply (recognizes_deserializeUnknown h).bind
      intro field
      exact ih.bind fun fields => recognizes_pure _

theorem recognizes_readElement (globalType : VarUint) :
    Recognizes (readElement deserialize globalType) (elementFormat nested globalType) := by
  cases globalType with
  | none => exact recognizes_deserializeUnknown h
  | some t =>
    unfold readElement elementFormat
    dsimp only
    split
    · exact recognizes_fail _
    · exact h _

theorem recognizes_collectionPackage (id : UInt8) :
    Recognizes (collectionPackage deserialize id) (collectionFormat nested id) := by
  apply recognizes_readVaruint.bind
  intro count
  cases count with
  | none => exact recognizes_fail _
  | some count =>
    apply recognizes_readVaruint.bind
    intro globalType
    apply ((recognizes_readElement h globalType).build.replicate count.toNat).bind
    intro packages
    exact recognizes_pure _

theorem recognizes_factory (group : List (UInt8 × Shape)) (id : UInt8) :
    Recognizes (factory deserialize group id) (factoryFormat nested group id) := by
  unfold factory factoryFormat
  cases shapeOf group id with
  | none => exact recognizes_fail _
  | some shape =>
    cases shape with
    | generated parts =>
      apply (recognizes_readParts h parts).bind
      intro fields
      exact recognizes_pure _
    | collection => exact recognizes_collectionPackage h id

end

theorem recognizes_dataPackageFactory (depth : Nat) (id : UInt8) :
    Recognizes (dataPackageFactory depth id) (dataFormat depth id) := by
  induction depth generalizing id with
  | zero => exact recognizes_fail _
  | succ depth ih => exact recognizes_factory ih dataShapes id

theorem recognizes_packageFactory (depth : Nat) (id : UInt8) :
    Recognizes (packageFactory depth id) (packageFormat depth id) :=
  recognizes_factory (recognizes_dataPackageFactory depth) shapes id

-- ---------------------------------------------------------------------------
-- The bound on the nesting is never reached
-- ---------------------------------------------------------------------------

/-- Something has been read. -/
theorem varuint_left {n : Nat} {i i' : Input Octet} {v : VarUint}
    (h : readVaruint i = (.ok v, i')) (hi : i.length < n + 1) : i'.length < n := by
  obtain ⟨w, b, ⟨-, hv⟩, -, hlen, -⟩ := recognizes_readVaruint.ok h
  have hpos : 0 < w.length := by
    cases hv with
    | small | null | wide => exact Nat.succ_pos _
  omega

theorem uint8_left {n : Nat} {i i' : Input Octet} {v : BitVec (8 * 1)}
    (h : readUint8 i = (.ok v, i')) (hi : i.length < n + 1) : i'.length < n := by
  obtain ⟨w, b, ⟨-, hone, -⟩, -, hlen, -⟩ := (recognizes_readNumber 1).ok h
  omega

section
variable {deserialize deserialize' : UInt8 → Reader Item} {n : Nat}
  {nested : UInt8 → Format Octet Item} (hr : ∀ id, Recognizes (deserialize id) (nested id))
  (h : ∀ id, Agree n (deserialize id) (deserialize' id))

include h

theorem agree_deserializeUnknown :
    Agree (n + 1) (deserializeUnknown deserialize) (deserializeUnknown deserialize') :=
  (Agree.refl _ _).bind uint8_left fun id => h (UInt8.ofNat id.toNat)

theorem agree_readElement (globalType : VarUint) :
    Agree n (readElement deserialize globalType) (readElement deserialize' globalType) := by
  cases globalType with
  | none => exact (agree_deserializeUnknown h).mono (Nat.le_succ n)
  | some t =>
    unfold readElement
    dsimp only
    split
    · exact Agree.refl _ _
    · exact h _

include hr

theorem agree_readParts (parts : List Part) :
    Agree (n + 1) (readParts deserialize parts) (readParts deserialize' parts) := by
  induction parts with
  | nil => exact Agree.refl _ _
  | cons part parts ih =>
    cases part with
    | stream t =>
      apply (Agree.refl _ _).bind (recognizes_readStream t).left_lt
      intro field
      exact ih.bind (recognizes_readParts hr parts).left_lt fun fields => Agree.refl _ _
    | packageMap =>
      apply (agree_deserializeUnknown h).bind (recognizes_deserializeUnknown hr).left_lt
      intro field
      exact ih.bind (recognizes_readParts hr parts).left_lt fun fields => Agree.refl _ _

theorem agree_collectionPackage (id : UInt8) :
    Agree (n + 1) (collectionPackage deserialize id) (collectionPackage deserialize' id) := by
  apply (Agree.refl _ _).bind varuint_left
  intro count
  cases count with
  | none => exact Agree.refl _ _
  | some count =>
    apply (Agree.refl _ _).bind recognizes_readVaruint.left_lt
    intro globalType
    have helement := recognizes_readElement hr globalType
    have hpackages := (agree_readElement h globalType).build.replicate helement.build count.toNat
    apply hpackages.bind (helement.build.replicate count.toNat).left_lt
    intro packages
    exact Agree.refl _ _

theorem agree_factory (group : List (UInt8 × Shape)) (id : UInt8) :
    Agree (n + 1) (factory deserialize group id) (factory deserialize' group id) := by
  unfold factory
  cases shapeOf group id with
  | none => exact Agree.refl _ _
  | some shape =>
    cases shape with
    | generated parts =>
      exact (agree_readParts hr h parts).bind (recognizes_readParts hr parts).left_lt
        fun fields => Agree.refl _ _
    | collection => exact agree_collectionPackage hr h id

end

theorem agree_dataPackageFactory {n m : Nat} (hle : n ≤ m) (id : UInt8) :
    Agree n (dataPackageFactory n id) (dataPackageFactory m id) := by
  induction n generalizing m id with
  | zero => exact fun i hi => absurd hi (Nat.not_lt_zero _)
  | succ n ih =>
    obtain ⟨m, rfl⟩ := Nat.exists_eq_add_of_le' (Nat.lt_of_lt_of_le n.succ_pos hle)
    exact agree_factory (recognizes_dataPackageFactory n) (ih (Nat.le_of_succ_le_succ hle))
      dataShapes id

/-- More than the size is of no use. -/
theorem agree_packageFactory {n m : Nat} (hle : n ≤ m) (id : UInt8) :
    Agree (n + 1) (packageFactory n id) (packageFactory m id) :=
  agree_factory (recognizes_dataPackageFactory n) (agree_dataPackageFactory hle) shapes id

end Loxim.Protocol
