import Mathlib.Data.List.Basic

/-!
# The packages of the protocol

The packages are described in one file, from which their classes are generated. The generator
drops the field that names the type of a nested package, puts the fields of a package in the
place of a field that refers to it, and writes an enumeration as its own type.
-/

namespace Loxim.Protocol

inductive FieldType
  | uint8
  | sint8
  | uint16
  | sint16
  | uint32
  | sint32
  | uint64
  | sint64
  | varuint
  | bool
  | double
  | sstring
  | string
  /-- Also `enum-map`. -/
  | enum (objectRef : String)
  | package (objectRefId : String)
  | packageMap (objectRefId : String)
deriving DecidableEq

structure Field where
  name : String
  type : FieldType
deriving DecidableEq

structure Packet where
  name : String
  id : Option UInt8 := none
  extendsPacket : Option String := none
  fields : List Field := []

def enums : List (String × FieldType) :=
  [("features", .uint64), ("auth_methods", .uint64), ("collations", .uint64), ("modes", .uint64),
    ("statement_flags", .uint64), ("errors", .uint32), ("bye_reasons", .uint32),
    ("send_value_flags", .uint8), ("abort_reason_codes", .uint32)]

/-- The packet group `data`. -/
def dataPackets : List Packet :=
  [{ name := "uint8", id := some 1, fields := [⟨"value", .uint8⟩] },
    { name := "sint8", id := some 2, fields := [⟨"value", .sint8⟩] },
    { name := "uint16", id := some 3, fields := [⟨"value", .uint16⟩] },
    { name := "sint16", id := some 4, fields := [⟨"value", .sint16⟩] },
    { name := "uint32", id := some 5, fields := [⟨"value", .uint32⟩] },
    { name := "sint32", id := some 6, fields := [⟨"value", .sint32⟩] },
    { name := "uint64", id := some 7, fields := [⟨"value", .uint64⟩] },
    { name := "sint64", id := some 8, fields := [⟨"value", .sint64⟩] },
    { name := "bool", id := some 9, fields := [⟨"value", .bool⟩] },
    { name := "date", id := some 10,
      fields := [⟨"year", .sint16⟩, ⟨"month", .uint8⟩, ⟨"day", .uint8⟩] },
    { name := "time", id := some 11,
      fields := [⟨"hour", .uint8⟩, ⟨"minutes", .uint8⟩, ⟨"sec", .uint8⟩, ⟨"milis", .sint16⟩] },
    { name := "datetime", id := some 12,
      fields := [⟨"date", .package "date"⟩, ⟨"time", .package "time"⟩] },
    { name := "timetz", id := some 13, fields := [⟨"time", .package "time"⟩, ⟨"tz", .sint8⟩] },
    { name := "datetimetz", id := some 14,
      fields := [⟨"date", .package "date"⟩, ⟨"time", .package "time"⟩, ⟨"tz", .sint8⟩] },
    { name := "bob", id := some 15, fields := [⟨"value", .string⟩] },
    { name := "varchar", id := some 16, fields := [⟨"value", .string⟩] },
    { name := "double", id := some 17, fields := [⟨"value", .double⟩] },
    { name := "void", id := some 128 },
    { name := "link", id := some 129, fields := [⟨"value_id", .varuint⟩] },
    { name := "binding", id := some 130,
      fields := [⟨"binding_name", .sstring⟩, ⟨"type", .varuint⟩, ⟨"value", .packageMap "type"⟩] },
    { name := "collection" },
    { name := "struct", id := some 131, extendsPacket := some "collection" },
    { name := "bag", id := some 132, extendsPacket := some "collection" },
    { name := "sequence", id := some 133, extendsPacket := some "collection" },
    { name := "ref", id := some 134, fields := [⟨"value_id", .uint64⟩] },
    { name := "external_ref", id := some 135,
      fields := [⟨"value_id", .uint64⟩, ⟨"stamp", .uint64⟩] }]

/-- The packet group without a name, whose packages are sent on their own. -/
def packets : List Packet :=
  [{ name := "w_c_hello", id := some 10,
      fields := [⟨"pid", .sint64⟩, ⟨"client_name", .sstring⟩, ⟨"client_version", .sstring⟩,
        ⟨"hostname", .sstring⟩, ⟨"language", .sstring⟩, ⟨"collation", .enum "collations"⟩,
        ⟨"timezone", .sint8⟩] },
    { name := "w_s_hello", id := some 11,
      fields := [⟨"protocol_major", .uint8⟩, ⟨"protocol_minor", .uint8⟩, ⟨"system_major", .uint8⟩,
        ⟨"system_minor", .uint8⟩, ⟨"max_package_size", .uint32⟩, ⟨"features", .enum "features"⟩,
        ⟨"auth_methods", .enum "auth_methods"⟩, ⟨"salt", .sstring⟩] },
    { name := "w_c_mode", id := some 12, fields := [⟨"new_mode", .enum "modes"⟩] },
    { name := "w_c_login", id := some 13, fields := [⟨"auth_method", .enum "auth_methods"⟩] },
    { name := "w_s_authorized", id := some 14 },
    { name := "w_c_password", id := some 15,
      fields := [⟨"login", .sstring⟩, ⟨"password", .sstring⟩] },
    { name := "q_c_statement", id := some 64,
      fields := [⟨"flags", .enum "statement_flags"⟩, ⟨"statement", .string⟩] },
    { name := "q_s_stmtparsed", id := some 65,
      fields := [⟨"statement_id", .uint64⟩, ⟨"params_cnt", .uint32⟩] },
    { name := "q_c_execute", id := some 66,
      fields := [⟨"statement_id", .uint64⟩, ⟨"flags", .enum "statement_flags"⟩] },
    { name := "q_s_executing", id := some 67 },
    { name := "q_s_execution_finished", id := some 68,
      fields := [⟨"mod_atom_pointer_cnt", .varuint⟩, ⟨"del_cnt", .varuint⟩,
        ⟨"new_roots_cnt", .varuint⟩, ⟨"inserts_cnt", .varuint⟩] },
    { name := "a_sc_ping", id := some 128 },
    { name := "a_sc_pong", id := some 129 },
    { name := "a_sc_ok", id := some 1 },
    { name := "a_sc_error", id := some 2,
      fields := [⟨"error_code", .enum "errors"⟩, ⟨"error_object_id", .varuint⟩,
        ⟨"description", .sstring⟩, ⟨"line", .uint32⟩, ⟨"col", .uint32⟩] },
    { name := "a_sc_bye", id := some 3,
      fields := [⟨"reason_code", .enum "bye_reasons"⟩, ⟨"reason_description", .string⟩] },
    { name := "a_sc_setopt", id := some 4, fields := [⟨"key", .sstring⟩, ⟨"value", .string⟩] },
    { name := "v_sc_sendvalues", id := some 32,
      fields := [⟨"root_value_id", .varuint⟩, ⟨"o_bundles_count", .varuint⟩,
        ⟨"o_bid_count", .varuint⟩, ⟨"p_vid_count", .varuint⟩] },
    { name := "v_sc_sendvalue", id := some 33,
      fields := [⟨"value_id", .varuint⟩, ⟨"flags", .enum "send_value_flags"⟩,
        ⟨"value_type", .varuint⟩, ⟨"data", .packageMap "value_type"⟩] },
    { name := "v_sc_finished", id := some 34 },
    { name := "v_sc_abort", id := some 35,
      fields := [⟨"reason_code", .enum "abort_reason_codes"⟩, ⟨"reason_string", .string⟩] }]

-- ---------------------------------------------------------------------------
-- The generator
-- ---------------------------------------------------------------------------

def FieldType.isPackageMap : FieldType → Bool
  | .packageMap _ => true
  | _ => false

/-- The name of the field that has to hold the type of this one. -/
def FieldType.typeHolder : FieldType → Option String
  | .packageMap name => some name
  | _ => none

/-- The fields without those that hold the type of the next one. -/
def dropTypeHolders : List Field → Option (List Field)
  | [] => some []
  | [f] => some [f]
  | f :: f' :: fs =>
    if f'.type.isPackageMap then
      if f'.type.typeHolder = some f.name ∧ f.type = .varuint then dropTypeHolders (f' :: fs)
      else none
    else (dropTypeHolders (f' :: fs)).map (f :: ·)

/-- The constructor of `Package` in the generator. -/
def Packet.readFields (p : Packet) : Option (List Field) :=
  if (p.fields.head?.map fun f => f.type.isPackageMap) = some true then none
  else dropTypeHolders p.fields

/-- A packet without an id and fields is written by hand. -/
def Packet.isGenerated (p : Packet) : Bool := p.id.isSome || !p.fields.isEmpty

/-- The fields with those of other packets in their place. The argument bounds the nesting. -/
def flatten (group : List Packet) : Nat → List Field → Option (List Field)
  | 0, _ => none
  | n + 1, fields => do
    let parts ← fields.mapM fun f =>
      match f.type with
      | .package name => do
        let p ← group.find? fun p => p.name = name
        let fields ← p.readFields
        flatten group n fields
      | _ => some [f]
    return parts.flatten

/-- What a function of the stream reads or writes. -/
inductive StreamType
  | uint8
  | int8
  | uint16
  | int16
  | uint32
  | int32
  | uint64
  | int64
  | double
  | varuint
  | bool
  | string
deriving DecidableEq

/-- In bytes, of what has a fixed size. -/
def StreamType.size : StreamType → Option Nat
  | .uint8 | .int8 => some 1
  | .uint16 | .int16 => some 2
  | .uint32 | .int32 => some 4
  | .uint64 | .int64 | .double => some 8
  | .varuint | .bool | .string => none

/-- What a field is read as; a nested package comes after its type. -/
inductive Part
  | stream (t : StreamType)
  | packageMap
deriving DecidableEq

def FieldType.streamType : FieldType → Option StreamType
  | .uint8 => some .uint8
  | .sint8 => some .int8
  | .uint16 => some .uint16
  | .sint16 => some .int16
  | .uint32 => some .uint32
  | .sint32 => some .int32
  | .uint64 => some .uint64
  | .sint64 => some .int64
  | .varuint => some .varuint
  | .bool => some .bool
  | .double => some .double
  | .sstring | .string => some .string
  | .enum _ | .package _ | .packageMap _ => none

def Field.part (f : Field) : Option Part :=
  match f.type with
  | .packageMap _ => some .packageMap
  | .enum name => do
    let (_, asType) ← enums.find? fun e => e.1 = name
    let t ← asType.streamType
    return .stream t
  | type => type.streamType.map .stream

/-- The class of a package: generated from its fields, or derived from `CollectionPackage`. -/
inductive Shape
  | generated (parts : List Part)
  | collection
deriving DecidableEq

def Packet.shape (p : Packet) : Option Shape :=
  if p.extendsPacket = some "collection" then some .collection
  else do
    let fields ← p.readFields
    let fields ← flatten dataPackets dataPackets.length fields
    let parts ← fields.mapM Field.part
    return .generated parts

/-- The cases of a factory. -/
def generateFactory (group : List Packet) : Option (List (UInt8 × Shape)) :=
  (group.filter Packet.isGenerated).mapM fun p => do
    let id ← p.id
    let shape ← p.shape
    return (id, shape)

def dataShapes : List (UInt8 × Shape) := (generateFactory dataPackets).getD []

def shapes : List (UInt8 × Shape) := (generateFactory packets).getD []

theorem factories_generated :
    (generateFactory dataPackets).isSome = true ∧ (generateFactory packets).isSome = true := by
  decide +kernel

/-- The factory of a group finds the class of an id. -/
def shapeOf (group : List (UInt8 × Shape)) (id : UInt8) : Option Shape :=
  (group.find? fun c => c.1 = id).map Prod.snd

/-- An id takes one byte as a variable-length integer. -/
theorem dataShapes_small : ∀ c ∈ dataShapes, c.1.toNat < 250 := by
  decide +kernel

theorem shapeOf_small {id : UInt8} {shape : Shape} (h : shapeOf dataShapes id = some shape) :
    id.toNat < 250 := by
  obtain ⟨c, hc, rfl⟩ := Option.map_eq_some_iff.mp h
  have hid : c.1 = id := by simpa using List.find?_some hc
  exact hid ▸ dataShapes_small c (List.mem_of_find?_eq_some hc)

end Loxim.Protocol
