import Loxim.Store.DBDataValue

/-!
# Objects are read as they were written

The format of an object is the concatenation of its parts. Writing appends exactly
that, as long as the sizes are small enough, and reading takes exactly that.
-/

namespace Loxim.Store

open Bytes Decoder

variable {order : Finset UInt32 → List UInt32}

-- ---------------------------------------------------------------------------
-- The format
-- ---------------------------------------------------------------------------

def lidBytes (lid : UInt32) : List UInt8 := Scalar.uint.toBytes lid.toNat

def stringBytes (str : List UInt8) : List UInt8 := Scalar.int.toBytes str.length ++ str

section

variable (order : Finset UInt32 → List UInt32)

def setBytes : Option (Finset UInt32) → List UInt8
  | none => Scalar.uint.toBytes 0
  | some lids => Scalar.uint.toBytes lids.card ++ (order lids).flatMap lidBytes

def DBSubtype.bytes : DBSubtype → List UInt8
  | .classType subclasses => setBytes order subclasses
  | .none | .link | .procedure | .view | .interface | .storeSchema => []

def DBValue.bytes : DBValue → List UInt8
  | .integer v => Scalar.int.toBytes v.toInt
  | .double v => Scalar.ulong.toBytes v.toNat
  | .string str => stringBytes str
  | .pointer lid => lidBytes lid
  | .vector lids => Scalar.int.toBytes lids.length ++ lids.flatMap lidBytes

def DBDataValue.bytes (v : DBDataValue) : List UInt8 :=
  Scalar.int.toBytes v.value.type ++ (Scalar.int.toBytes v.subtype.toInt ++
    (setBytes order v.classMarks ++ (v.subtype.bytes order ++ v.value.bytes)))

def DBObjectPointer.bytes (o : DBObjectPointer) : List UInt8 :=
  lidBytes o.lid ++ (Scalar.int.toBytes (if o.isRoot then 1 else 0) ++
    (Scalar.int.toBytes 0x78563412 ++ (stringBytes o.name ++ o.value.bytes order)))

end

theorem length_lids (lids : List UInt32) : (lids.flatMap lidBytes).length = 4 * lids.length := by
  induction lids with
  | nil => rfl
  | cons lid lids ih =>
    have hone : (lidBytes lid).length = 4 := Scalar.length_toBytes
    rw [List.flatMap_cons, List.length_append, List.length_cons]
    omega

-- ---------------------------------------------------------------------------
-- Writing
-- ---------------------------------------------------------------------------

/-- While there is less than 1 GiB, `f` appends `z`. -/
def Appends (f : Serialized → Option Serialized) (z : List UInt8) : Prop :=
  ∀ s : Serialized, s.bytes.length + z.length < 2 ^ 30 → ∃ s', f s = some s' ∧ s'.bytes = s.bytes ++ z

variable {f g : Serialized → Option Serialized} {z z' : List UInt8}

theorem Appends.bind (hf : Appends f z) (hg : Appends g z') :
    Appends (fun s => f s >>= g) (z ++ z') := by
  intro s hs
  rw [List.length_append] at hs
  obtain ⟨s₁, hs₁, hbytes₁⟩ := hf s (by omega)
  obtain ⟨s₂, hs₂, hbytes₂⟩ := hg s₁ (by rw [hbytes₁, List.length_append]; omega)
  refine ⟨s₂, ?_, ?_⟩
  · show f s >>= g = some s₂
    rw [hs₁]
    exact hs₂
  · rw [hbytes₂, hbytes₁, List.append_assoc]

theorem appends_nil : Appends some [] := fun s _ => ⟨s, rfl, by simp⟩

theorem appends_append (z : List UInt8) : Appends (Serialized.append · z) z := by
  intro s hs
  simp only [Serialized.append]
  split
  · rename_i hz
    exact ⟨s, rfl, by rw [List.length_eq_zero_iff.mp hz, List.append_nil]⟩
  · split
    · rw [if_pos (by omega)]
      exact ⟨_, rfl, rfl⟩
    · exact ⟨_, rfl, rfl⟩

theorem appends_lids (lids : List UInt32) :
    Appends (Serialized.appendLids · lids) (lids.flatMap lidBytes) := by
  induction lids with
  | nil => exact appends_nil
  | cons lid lids ih => exact (appends_append _).bind ih

theorem appends_string {str : List UInt8} (h : str.length < 2 ^ 31) :
    Appends (Serialized.appendString · str) (stringBytes str) := by
  have hlen : Scalar.int.wrap str.length = str.length :=
    Scalar.wrap_of_holds ⟨by omega, by omega⟩
  intro s hs
  simp only [Serialized.appendString, hlen, Int.toNat_natCast, List.take_length]
  rw [if_neg (by omega)]
  exact appends_append (stringBytes str) s hs

theorem appends_set (order : Finset UInt32 → List UInt32) (lids : Option (Finset UInt32)) :
    Appends (Serialized.appendSet order · lids) (setBytes order lids) := by
  cases lids with
  | none => exact appends_append _
  | some lids => exact (appends_append _).bind (appends_lids _)

theorem appends_subclasses (order : Finset UInt32 → List UInt32) (t : DBSubtype) :
    Appends (Serialized.appendSubclasses order · t) (t.bytes order) := by
  cases t with
  | classType subclasses => exact appends_set order subclasses
  | none | link | procedure | view | interface | storeSchema => exact appends_nil

theorem appends_value (v : DBValue) (h : v.bytes.length < 2 ^ 31) :
    Appends (Serialized.appendValue · v) v.bytes := by
  cases v with
  | integer v | double v | pointer v => exact appends_append _
  | string str =>
    have hstr : (Scalar.int.toBytes str.length ++ str).length < 2 ^ 31 := h
    rw [List.length_append] at hstr
    simp only [Serialized.appendValue, DBValue.bytes]
    exact appends_string (by omega)
  | vector lids =>
    have hlids : (Scalar.int.toBytes lids.length ++ lids.flatMap lidBytes).length < 2 ^ 31 := h
    have hflat := length_lids lids
    rw [List.length_append] at hlids
    have hlen : Scalar.int.wrap lids.length = lids.length :=
      Scalar.wrap_of_holds ⟨by omega, by omega⟩
    intro s hs
    simp only [Serialized.appendValue, hlen]
    exact (appends_append _).bind (appends_lids lids) s hs

theorem DBDataValue.serialize_bytes (order : Finset UInt32 → List UInt32) (v : DBDataValue)
    (h : (v.bytes order).length < 2 ^ 30) :
    ∃ s, v.serialize order = some s ∧ s.bytes = v.bytes order := by
  have hvalue : v.value.bytes.length < 2 ^ 31 := by
    simp only [bytes, List.length_append] at h
    omega
  have happends : Appends _ (v.bytes order) :=
    (appends_append (Scalar.int.toBytes v.value.type)).bind
      ((appends_append (Scalar.int.toBytes v.subtype.toInt)).bind
        ((appends_set order v.classMarks).bind
          ((appends_subclasses order v.subtype).bind (appends_value v.value hvalue))))
  have hempty : ({} : Serialized).bytes.length + (v.bytes order).length < 2 ^ 30 := by
    simpa using h
  obtain ⟨s, hs, hbytes⟩ := happends {} hempty
  refine ⟨s, ?_, hbytes.trans (List.nil_append _)⟩
  rw [← hs]
  rfl

theorem DBObjectPointer.serialize_bytes (order : Finset UInt32 → List UInt32) (o : DBObjectPointer)
    (h : (o.bytes order).length < 2 ^ 30) :
    ∃ s, o.serialize order = some s ∧ s.bytes = o.bytes order := by
  have hlen := h
  simp only [bytes, stringBytes, List.length_append] at hlen
  obtain ⟨value, hvalue, hbytes⟩ := o.value.serialize_bytes order (by omega)
  have hname : o.name.length < 2 ^ 31 := by omega
  have happends := (appends_append (lidBytes o.lid)).bind
    ((appends_append (Scalar.int.toBytes (if o.isRoot then 1 else 0))).bind
      ((appends_append (Scalar.int.toBytes 0x78563412)).bind
        ((appends_string hname).bind (appends_append value.bytes))))
  have hparts : lidBytes o.lid ++ (Scalar.int.toBytes (if o.isRoot then 1 else 0) ++
      (Scalar.int.toBytes 0x78563412 ++ (stringBytes o.name ++ value.bytes))) = o.bytes order := by
    rw [hbytes, bytes]
  rw [hparts] at happends
  have hempty : ({} : Serialized).bytes.length + (o.bytes order).length < 2 ^ 30 := by
    simpa using h
  obtain ⟨s, hs, hsbytes⟩ := happends {} hempty
  refine ⟨s, ?_, hsbytes.trans (List.nil_append _)⟩
  rw [← hs, serialize, hvalue]
  rfl

-- ---------------------------------------------------------------------------
-- Reading
-- ---------------------------------------------------------------------------

theorem reads_lid (lid : UInt32) : Reads DBLogicalID.deserialize (lidBytes lid) lid := by
  have hlt := lid.toNat_lt
  have hread := reads_scalar LoadError.outside (t := .uint) (v := lid.toNat) ⟨by omega, by omega⟩
  have hvalue : UInt32.ofNat (lid.toNat : Int).toNat = lid := by simp
  have hlast := hread.bind_pure (g := fun v => UInt32.ofNat v.toNat)
  rwa [hvalue] at hlast

/-- Iteration finds every element of a set once. -/
def Iterates (order : Finset UInt32 → List UInt32) : Prop :=
  ∀ s, (order s).Nodup ∧ (order s).toFinset = s

theorem reads_set (horder : Iterates order) {lids : Option (Finset UInt32)}
    (h : (setBytes order lids).length < 2 ^ 31) :
    Reads DBDataValue.deserializeSetOfLids (setBytes order lids) (lids.getD ∅) := by
  cases lids with
  | none =>
    have hread := reads_scalar LoadError.outside (t := .uint) (v := 0) ⟨by omega, by omega⟩
    exact hread.bind ((Reads.pure []).bind_pure (g := List.toFinset))
  | some lids =>
    obtain ⟨hnodup, hset⟩ := horder lids
    have hcard : (order lids).length = lids.card := by
      rw [← List.toFinset_card_of_nodup hnodup, hset]
    have hsmall : lids.card < 2 ^ 32 := by
      have hlids := length_lids (order lids)
      simp only [setBytes, List.length_append] at h
      omega
    have hread := reads_scalar LoadError.outside (t := .uint) (v := lids.card) ⟨by omega, by omega⟩
    have hlids := Reads.replicate (l := order lids) fun lid _ => reads_lid lid
    have hall := hlids.bind_pure (g := List.toFinset)
    rw [hcard, List.map_id', hset] at hall
    exact hread.bind hall

/-- A null pointer is read as an empty set. -/
def DBSubtype.loaded : DBSubtype → DBSubtype
  | .classType subclasses => .classType (some (subclasses.getD ∅))
  | .none => .none
  | .link => .link
  | .procedure => .procedure
  | .view => .view
  | .interface => .interface
  | .storeSchema => .storeSchema

theorem reads_subtype (horder : Iterates order) {t : DBSubtype}
    (h : (t.bytes order).length < 2 ^ 31) :
    Reads (DBDataValue.subtypeOf t.toInt) (t.bytes order) t.loaded := by
  cases t with
  | classType subclasses =>
    exact (reads_set horder h).bind_pure (g := fun s => DBSubtype.classType (some s))
  | none | link | procedure | view | interface | storeSchema => exact Reads.pure _

/-- Without a map all members are kept. -/
def keptMembers (autoRemove : Option LidMap) (lids : List UInt32) : List UInt32 :=
  match autoRemove with
  | none => lids
  | some map => lids.filter fun lid => !map.isRIP lid

/-- The ids that the map has. -/
def Assigned (autoRemove : Option LidMap) (lid : UInt32) : Prop :=
  ∀ map, autoRemove = some map → lid ≠ 0 ∧ lid ≤ map.lastAssigned

theorem reads_member {autoRemove : Option LidMap} {lid : UInt32} (h : Assigned autoRemove lid) :
    Reads (DBDataValue.deserializeMember autoRemove) (lidBytes lid) (keptMembers autoRemove [lid]) := by
  have hkeep : Reads (DBDataValue.keepMember autoRemove lid) [] (keptMembers autoRemove [lid]) := by
    cases autoRemove with
    | none => exact Reads.pure _
    | some map =>
      obtain ⟨hzero, hlast⟩ := h map rfl
      have hid : map.getPhysicalID lid = some (map.isRIP lid) := by
        rw [LidMap.getPhysicalID, if_neg hzero, if_neg (UInt32.not_lt.mpr hlast)]
      simp only [DBDataValue.keepMember, hid]
      cases hrip : map.isRIP lid with
      | true =>
        simp only [keptMembers, List.filter_cons, hrip]
        exact Reads.pure _
      | false =>
        simp only [keptMembers, List.filter_cons, hrip]
        exact Reads.pure _
  have hread := (reads_lid lid).bind hkeep
  rwa [List.append_nil] at hread

theorem keptMembers_flatten (autoRemove : Option LidMap) (lids : List UInt32) :
    (lids.map fun lid => keptMembers autoRemove [lid]).flatten = keptMembers autoRemove lids := by
  induction lids with
  | nil => cases autoRemove <;> rfl
  | cons lid lids ih =>
    rw [List.map_cons, List.flatten_cons, ih]
    cases autoRemove with
    | none => rfl
    | some map => exact (List.filter_append (p := fun lid => !map.isRIP lid) [lid] lids).symm

def DBValue.loaded (autoRemove : Option LidMap) : DBValue → DBValue
  | .integer v => .integer v
  | .double bits => .double bits
  | .string bytes => .string bytes
  | .pointer lid => .pointer lid
  | .vector lids => .vector (keptMembers autoRemove lids)

def DBValue.members : DBValue → List UInt32
  | .vector lids => lids
  | .integer _ | .double _ | .string _ | .pointer _ => []

theorem reads_value {autoRemove : Option LidMap} {v : DBValue} (h : v.bytes.length < 2 ^ 31)
    (hmembers : ∀ lid ∈ v.members, Assigned autoRemove lid) :
    Reads (DBDataValue.deserializeValue autoRemove v.type) v.bytes (v.loaded autoRemove) := by
  cases v with
  | integer v =>
    have hread := reads_scalar LoadError.outside (t := .int) (v := v.toInt)
      ⟨BitVec.le_toInt v, BitVec.toInt_lt⟩
    have hlast := hread.bind_pure (g := fun v => DBValue.integer (BitVec.ofInt 32 v))
    rw [BitVec.ofInt_toInt] at hlast
    exact hlast
  | double bits =>
    have hlt := bits.isLt
    have hread := reads_scalar LoadError.outside (t := .ulong) (v := bits.toNat)
      ⟨by omega, by omega⟩
    have hlast := hread.bind_pure (g := fun v => DBValue.double (BitVec.ofInt 64 v))
    rw [BitVec.ofInt_natCast, BitVec.ofNat_toNat, BitVec.setWidth_eq] at hlast
    exact hlast
  | string str =>
    simp only [DBValue.bytes, stringBytes, List.length_append] at h
    have hread := reads_scalar LoadError.outside (t := .int) (v := str.length)
      ⟨by omega, by omega⟩
    have hbytes := (reads_take LoadError.outside str).bind_pure (g := DBValue.string)
    exact hread.bind hbytes
  | pointer lid => exact (reads_lid lid).bind_pure (g := DBValue.pointer)
  | vector lids =>
    have hflat := length_lids lids
    simp only [DBValue.bytes, List.length_append] at h
    have hread := reads_scalar LoadError.outside (t := .int) (v := lids.length)
      ⟨by omega, by omega⟩
    have hlids := Reads.replicate (l := lids) fun lid hlid => reads_member (hmembers lid hlid)
    have hall := hlids.bind_pure (g := fun kept => DBValue.vector kept.flatten)
    rw [keptMembers_flatten] at hall
    exact hread.bind hall

/-- What comes back of a value. -/
def DBDataValue.loaded (autoRemove : Option LidMap) (v : DBDataValue) : DBDataValue where
  subtype := v.subtype.loaded
  classMarks := some (v.classMarks.getD ∅)
  value := v.value.loaded autoRemove

theorem reads_dataValue (horder : Iterates order) {autoRemove : Option LidMap} {v : DBDataValue}
    (h : (v.bytes order).length < 2 ^ 31)
    (hmembers : ∀ lid ∈ v.value.members, Assigned autoRemove lid) :
    Reads (DBDataValue.deserialize autoRemove) (v.bytes order) (v.loaded autoRemove) := by
  simp only [DBDataValue.bytes, List.length_append] at h
  have htype := reads_scalar LoadError.outside (t := .int) (v := v.value.type)
    (by cases v.value <;> simp [Scalar.Holds, DBValue.type])
  have hsubtype := reads_scalar LoadError.outside (t := .int) (v := v.subtype.toInt)
    (by cases v.subtype <;> simp [Scalar.Holds, DBSubtype.toInt])
  have hmarks : Reads _ (setBytes order v.classMarks) _ := reads_set horder (by omega)
  have hparts := reads_subtype horder (t := v.subtype) (by omega)
  have hvalue := reads_value (v := v.value) (by omega) hmembers
  exact htype.bind (hsubtype.bind (hmarks.bind (hparts.bind hvalue.bind_pure)))

theorem reads_object (horder : Iterates order) {map : LidMap} {o : DBObjectPointer}
    (h : (o.bytes order).length < 2 ^ 31)
    (hmembers : ∀ lid ∈ o.value.value.members, Assigned (some map) lid) :
    Reads (DBObjectPointer.deserializeParts map) (o.bytes order)
      { o with value := o.value.loaded (some map) } := by
  simp only [DBObjectPointer.bytes, stringBytes, List.length_append] at h
  have hroot := reads_scalar LoadError.outside (t := .int) (v := if o.isRoot then 1 else 0)
    (by cases o.isRoot <;> decide)
  have hrandom := reads_scalar LoadError.outside (t := .int) (v := 0x78563412) (by decide)
  have hlen := reads_scalar LoadError.outside (t := .int) (v := o.name.length)
    ⟨by omega, by omega⟩
  have hname : Reads (if (o.name.length : Int) < 0 then fail LoadError.outside
      else take LoadError.outside (o.name.length : Int).toNat) o.name o.name := by
    rw [if_neg (by omega), Int.toNat_natCast]
    exact reads_take LoadError.outside o.name
  have hflag : decide ((if o.isRoot then (1 : Int) else 0) = 1) = o.isRoot := by
    cases o.isRoot <;> rfl
  have hvalue := reads_dataValue horder (v := o.value) (by omega) hmembers
  have hread : Reads (DBObjectPointer.deserializeParts map) (o.bytes order)
      (DBObjectPointer.mk o.lid (decide ((if o.isRoot then (1 : Int) else 0) = 1)) o.name
        (o.value.loaded (some map))) :=
    (reads_lid o.lid).bind (hroot.bind (hrandom.bind (hlen.bind (hname.bind hvalue.bind_pure))))
  rw [hflag] at hread
  exact hread

/-- Up to 1 GiB, an object of whose vector all members have been assigned is read from a
page as it was written, but for the members that have been deleted and for null
pointers, which become empty sets. A value is read alone with all its members. -/
theorem object_roundTrip (horder : Iterates order) (map : LidMap) (rest : List UInt8) :
    (∀ o : DBObjectPointer, (o.bytes order).length < 2 ^ 30 →
      (∀ lid ∈ o.value.value.members, lid ≠ 0 ∧ lid ≤ map.lastAssigned) →
      ∃ s, o.serialize order = some s ∧
        DBObjectPointer.deserialize map s.bytes.length (s.bytes ++ rest) =
          .ok ({ o with value := o.value.loaded (some map) }, s.bytes.length)) ∧
    ∀ v : DBDataValue, (v.bytes order).length < 2 ^ 30 →
      ∃ s, v.serialize order = some s ∧
        DBDataValue.deserialize none (s.bytes ++ rest) = .ok (v.loaded none, rest) := by
  refine ⟨fun o hsize hmembers => ?_, fun v hsize => ?_⟩
  · obtain ⟨s, hs, hbytes⟩ := o.serialize_bytes order hsize
    have hassigned : ∀ lid ∈ o.value.value.members, Assigned (some map) lid := by
      intro lid hlid map' heq
      cases heq
      exact hmembers lid hlid
    have hread := reads_object horder (by omega) hassigned rest
    have hused : (s.bytes ++ rest).length - rest.length = s.bytes.length := by simp
    refine ⟨s, hs, ?_⟩
    rw [← hbytes] at hread
    rw [DBObjectPointer.deserialize, hread]
    simp only [hused]
    rw [if_neg (lt_irrefl _)]
  · obtain ⟨s, hs, hbytes⟩ := v.serialize_bytes order hsize
    refine ⟨s, hs, ?_⟩
    rw [hbytes]
    exact reads_dataValue horder (by omega) (fun lid _ map heq => by cases heq) rest

theorem iterates_toList : Iterates Finset.toList :=
  fun s => ⟨s.nodup_toList, s.toList_toFinset⟩

/-- A vector of three, one of which has been deleted. -/
def threeMembers : DBObjectPointer where
  lid := 7
  isRoot := true
  name := [104, 105]
  value := { value := .vector [3, 4, 5] }

theorem object_roundTrip_vector : ∃ s, threeMembers.serialize Finset.toList = some s ∧
    DBObjectPointer.deserialize { lastAssigned := 9, isRIP := fun lid => lid == 4 } s.bytes.length
      (s.bytes ++ []) = .ok ({ threeMembers with value := {
        classMarks := some ∅, value := .vector [3, 5] } }, s.bytes.length) := by
  have hmembers : List.Forall (fun lid : UInt32 => lid ≠ 0 ∧ lid ≤ 9)
      threeMembers.value.value.members := by
    decide +kernel
  exact (object_roundTrip iterates_toList { lastAssigned := 9, isRIP := fun lid => lid == 4 } []).1
    threeMembers (by decide +kernel) (List.forall_iff_forall_mem.mp hmembers)

/-- The third member has not been assigned, and the process ends. -/
theorem deserialize_exits : ∃ s, threeMembers.serialize Finset.toList = some s ∧
    DBObjectPointer.deserialize { lastAssigned := 4, isRIP := fun _ => false } s.bytes.length
      s.bytes = .error .exit := by
  obtain ⟨s, hs, hbytes⟩ := threeMembers.serialize_bytes Finset.toList (by decide +kernel)
  refine ⟨s, hs, ?_⟩
  rw [hbytes]
  decide +kernel

end Loxim.Store
