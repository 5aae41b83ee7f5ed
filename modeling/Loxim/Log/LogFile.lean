import Loxim.Log.LogIO

/-!
# The log is read as it was written

The format of a record is the concatenation of its parts, between its type and its
length. A log is read forward from its start and backward from its end, and every
call stops where a record begins.
-/

namespace Loxim.Log

open Bytes Decoder Store LogIO

variable {order : Finset UInt32 → List UInt32}

-- ---------------------------------------------------------------------------
-- The format
-- ---------------------------------------------------------------------------

section

variable (order : Finset UInt32 → List UInt32)

/-- Nothing is there in place of a null pointer. -/
def valueBytes : Option DBDataValue → List UInt8
  | none => []
  | some v => v.bytes order

def logicalIDBytes : Option UInt32 → List UInt8
  | none => []
  | some lid => lidBytes lid

def RecordBody.bytes : RecordBody → List UInt8
  | .begin tid | .commit tid | .rollback tid => writeTransactionID tid
  | .ckpt tids => writeTransactionIDVector tids
  | .endCkpt | .shutdown | .redoLogs => []
  | .addRoot tid lid | .removeRoot tid lid =>
    writeTransactionID tid ++ stringBytes (logicalIDBytes lid)
  | .write tid lid name oldVal newVal newLID =>
    writeTransactionID tid ++ (stringBytes (logicalIDBytes lid) ++ (stringBytes name ++
      (stringBytes (valueBytes order oldVal) ++ (stringBytes (valueBytes order newVal) ++
        writeInt (if newLID then 1 else 0)))))

def FileRecord.bytes (r : FileRecord) : List UInt8 :=
  writeInt r.body.type ++ (writeInt r.id.toInt ++
    (r.body.bytes order ++ writeInt (8 + (r.body.bytes order).length + 4 : Nat)))

/-- The values of a record. -/
def RecordBody.values : RecordBody → List DBDataValue
  | .write _ _ _ oldVal newVal _ => oldVal.toList ++ newVal.toList
  | .begin _ | .commit _ | .rollback _ | .ckpt _ | .endCkpt | .shutdown | .addRoot .. | .removeRoot ..
  | .redoLogs => []

/-- The buffers of the values and the length of the record are counted in an `int`. -/
structure FileRecord.Fits (r : FileRecord) : Prop where
  values : ∀ v ∈ r.body.values, (v.bytes order).length < 2 ^ 30
  length : (r.bytes order).length < 2 ^ 31

end

theorem length_writeInt (v : Int) : (writeInt v).length = 4 := Scalar.length_toBytes

theorem FileRecord.length_bytes (r : FileRecord) :
    (r.bytes order).length = 8 + (r.body.bytes order).length + 4 := by
  simp only [bytes, List.length_append, length_writeInt]
  omega

theorem FileRecord.Fits.body {r : FileRecord} (h : r.Fits order) :
    (r.body.bytes order).length + 12 < 2 ^ 31 := by
  have hlen := h.length
  rw [r.length_bytes] at hlen
  omega

-- ---------------------------------------------------------------------------
-- Writing
-- ---------------------------------------------------------------------------

theorem writeString_eq {s : List UInt8} (h : s.length < 2 ^ 31) :
    writeString s = stringBytes s := by
  have hlen : s.length % 2 ^ 32 = s.length := Nat.mod_eq_of_lt (by omega)
  rw [writeString, hlen, List.take_length]
  rfl

theorem writeLogicalID_eq (lid : Option UInt32) :
    writeLogicalID lid = stringBytes (logicalIDBytes lid) := by
  cases lid with
  | none => rfl
  | some lid =>
    apply writeString_eq
    show (Scalar.uint.toBytes lid.toNat).length < 2 ^ 31
    rw [Scalar.length_toBytes]
    decide

theorem valueString_eq {v : Option DBDataValue} (h : ∀ w ∈ v.toList, (w.bytes order).length < 2 ^ 30) :
    valueString order v = some (valueBytes order v) := by
  cases v with
  | none => rfl
  | some v =>
    obtain ⟨s, hs, hbytes⟩ := v.serialize_bytes order (h v List.mem_cons_self)
    simp only [valueString, hs, Option.map_some, hbytes, valueBytes]

theorem RecordBody.writeBody_eq {b : RecordBody}
    (hvalues : ∀ v ∈ b.values, (v.bytes order).length < 2 ^ 30)
    (h : (b.bytes order).length < 2 ^ 31) : b.writeBody order = some (b.bytes order) := by
  cases b with
  | begin tid | commit tid | rollback tid | ckpt tids | endCkpt | shutdown | redoLogs => rfl
  | addRoot tid lid | removeRoot tid lid => simp only [writeBody, bytes, writeLogicalID_eq]
  | write tid lid name oldVal newVal newLID =>
    simp only [values, List.mem_append] at hvalues
    have hold := valueString_eq fun v hv => hvalues v (Or.inl hv)
    have hnew := valueString_eq fun v hv => hvalues v (Or.inr hv)
    simp only [bytes, stringBytes, List.length_append] at h
    have hname := writeString_eq (s := name) (by omega)
    have holdS := writeString_eq (s := valueBytes order oldVal) (by omega)
    have hnewS := writeString_eq (s := valueBytes order newVal) (by omega)
    simp only [writeBody, hold, hnew, Option.bind_eq_bind, Option.bind_some, hname, holdS, hnewS,
      writeLogicalID_eq, bytes]
    rfl

theorem FileRecord.Fits.writeLogRecord {r : FileRecord} (h : r.Fits order) :
    writeLogRecord order r = some (r.bytes order) := by
  have hbody := h.body
  have hwrite := RecordBody.writeBody_eq h.values (by omega)
  simp only [Log.writeLogRecord, hwrite, bytes]
  rfl

-- ---------------------------------------------------------------------------
-- Reading
-- ---------------------------------------------------------------------------

theorem reads_int {v : Int} (h : Scalar.int.Holds v) : Reads LogIO.readInt (writeInt v) v :=
  reads_scalar LogError.unexpectedEof h

theorem reads_string {s : List UInt8} (h : s.length < 2 ^ 31) :
    Reads readString (stringBytes s) s := by
  have hlen := reads_int (v := s.length) ⟨by omega, by omega⟩
  have hbytes : Reads (if (s.length : Int) < 0 then fail LogError.badAlloc
      else take LogError.unexpectedEof (s.length : Int).toNat) s s := by
    rw [if_neg (by omega), Int.toNat_natCast]
    exact reads_take LogError.unexpectedEof s
  exact hlen.bind hbytes

theorem reads_transactionID (tid : BitVec 32) :
    Reads readTransactionID (writeTransactionID tid) tid := by
  have hread := reads_int (v := tid.toInt) ⟨BitVec.le_toInt tid, BitVec.toInt_lt⟩
  have hlast := hread.bind_pure (g := BitVec.ofInt 32)
  rwa [BitVec.ofInt_toInt] at hlast

theorem reads_transactionIDVector {tids : List (BitVec 32)}
    (h : (writeTransactionIDVector tids).length < 2 ^ 31) :
    Reads readTransactionIDVector (writeTransactionIDVector tids) tids := by
  have hflat : tids.length ≤ (tids.flatMap writeTransactionID).length := by
    clear h
    induction tids with
    | nil => exact le_rfl
    | cons tid tids ih =>
      have hone : (writeTransactionID tid).length = 4 := length_writeInt tid.toInt
      rw [List.flatMap_cons, List.length_append, List.length_cons]
      omega
  rw [writeTransactionIDVector, List.length_append] at h
  have hlen := reads_int (v := tids.length) ⟨by omega, by omega⟩
  have hall := Reads.replicate (l := tids) fun tid _ => reads_transactionID tid
  rw [List.map_id'] at hall
  have htids : Reads (if (tids.length : Int) < 0 then fail LogError.badAlloc
      else replicate readTransactionID (tids.length : Int).toNat)
      (tids.flatMap writeTransactionID) tids := by
    rw [if_neg (by omega), Int.toNat_natCast]
    exact hall
  exact hlen.bind htids

theorem reads_logicalID (lid : Option UInt32) :
    Reads readLogicalID (stringBytes (logicalIDBytes lid)) lid := by
  have hlen : (logicalIDBytes lid).length < 2 ^ 31 := by
    cases lid with
    | none => decide
    | some lid =>
      show (Scalar.uint.toBytes lid.toNat).length < 2 ^ 31
      rw [Scalar.length_toBytes]
      decide
  have hlast : Reads (if (logicalIDBytes lid).isEmpty then (pure none : Decoder LogError _)
      else logicalIDFromByteArray (logicalIDBytes lid)) [] lid := by
    cases lid with
    | none => exact Reads.pure none
    | some lid =>
      have hread := reads_lid lid []
      rw [List.append_nil] at hread
      intro rest
      show logicalIDFromByteArray (lidBytes lid) rest = _
      simp only [logicalIDFromByteArray, hread]
      rfl
  have hread : Reads readLogicalID (stringBytes (logicalIDBytes lid) ++ []) lid :=
    (reads_string hlen).bind hlast
  rwa [List.append_nil] at hread

theorem DBDataValue.bytes_isEmpty (v : DBDataValue) : (v.bytes order).isEmpty = false := by
  rw [List.isEmpty_eq_false_iff_exists_mem, ← List.length_pos_iff_exists_mem]
  simp only [DBDataValue.bytes, List.length_append, Scalar.length_toBytes]
  have hsize : 0 < Scalar.int.size := by decide
  omega

theorem reads_logValue (horder : Iterates order) {v : Option DBDataValue}
    (h : (valueBytes order v).length < 2 ^ 31) :
    Reads readDataValue (stringBytes (valueBytes order v)) (v.map (DBDataValue.loaded none)) := by
  have hlast : Reads (if (valueBytes order v).isEmpty then (pure none : Decoder LogError _)
      else dataValueFromByteArray (valueBytes order v)) [] (v.map (DBDataValue.loaded none)) := by
    cases v with
    | none => exact Reads.pure none
    | some v =>
      have hread := @reads_dataValue order horder none v h (fun lid _ map heq => by cases heq) []
      rw [List.append_nil] at hread
      have hempty := @DBDataValue.bytes_isEmpty order v
      simp only [valueBytes, hempty]
      intro rest
      show dataValueFromByteArray (v.bytes order) rest = _
      simp only [dataValueFromByteArray, hread]
      rfl
  have hread : Reads readDataValue (stringBytes (valueBytes order v) ++ [])
      (v.map (DBDataValue.loaded none)) := (reads_string h).bind hlast
  rwa [List.append_nil] at hread

/-- What comes back of a record: null pointers in its values become empty sets. -/
def RecordBody.loaded : RecordBody → RecordBody
  | .write tid lid name oldVal newVal newLID =>
    .write tid lid name (oldVal.map (DBDataValue.loaded none)) (newVal.map (DBDataValue.loaded none))
      newLID
  | .begin tid => .begin tid
  | .commit tid => .commit tid
  | .rollback tid => .rollback tid
  | .ckpt tids => .ckpt tids
  | .endCkpt => .endCkpt
  | .shutdown => .shutdown
  | .addRoot tid lid => .addRoot tid lid
  | .removeRoot tid lid => .removeRoot tid lid
  | .redoLogs => .redoLogs

def FileRecord.loaded (r : FileRecord) : FileRecord := { r with body := r.body.loaded }

theorem reads_write (horder : Iterates order) (tid : BitVec 32) (lid : Option UInt32)
    (name : List UInt8) (oldVal newVal : Option DBDataValue) (newLID : Bool)
    (h : ((RecordBody.write tid lid name oldVal newVal newLID).bytes order).length < 2 ^ 31) :
    Reads readWrite ((RecordBody.write tid lid name oldVal newVal newLID).bytes order)
      (RecordBody.write tid lid name oldVal newVal newLID).loaded := by
  simp only [RecordBody.bytes, stringBytes, List.length_append] at h
  have hname := reads_string (s := name) (by omega)
  have hold := reads_logValue horder (v := oldVal) (by omega)
  have hnew := reads_logValue horder (v := newVal) (by omega)
  have hflag := reads_int (v := if newLID then 1 else 0) (by cases newLID <;> decide)
  have hpositive : decide ((0 : Int) < if newLID then 1 else 0) = newLID := by
    cases newLID <;> rfl
  have hread : Reads readWrite ((RecordBody.write tid lid name oldVal newVal newLID).bytes order)
      (.write tid lid name (oldVal.map (DBDataValue.loaded none))
        (newVal.map (DBDataValue.loaded none)) (decide ((0 : Int) < if newLID then 1 else 0))) :=
    (reads_transactionID tid).bind ((reads_logicalID lid).bind (hname.bind (hold.bind
      (hnew.bind hflag.bind_pure))))
  rw [hpositive] at hread
  exact hread

theorem reads_root {make : BitVec 32 → Option UInt32 → RecordBody} (tid : BitVec 32)
    (lid : Option UInt32) : Reads (readRoot make)
      (writeTransactionID tid ++ stringBytes (logicalIDBytes lid)) (make tid lid) :=
  (reads_transactionID tid).bind (reads_logicalID lid).bind_pure

theorem reads_body (horder : Iterates order) {b : RecordBody} (h : (b.bytes order).length < 2 ^ 31) :
    Reads (readBody b.type) (b.bytes order) b.loaded := by
  cases b with
  | begin tid | commit tid | rollback tid => exact (reads_transactionID tid).bind_pure
  | ckpt tids => exact (reads_transactionIDVector h).bind_pure
  | endCkpt | shutdown | redoLogs => exact Reads.pure _
  | addRoot tid lid | removeRoot tid lid => exact reads_root tid lid
  | write tid lid name oldVal newVal newLID =>
    exact reads_write horder tid lid name oldVal newVal newLID h

theorem reads_record (horder : Iterates order) {r : FileRecord} (h : r.Fits order) :
    Reads readRecord (r.bytes order) (r.loaded, (r.bytes order).length) := by
  have hlen := h.body
  have htype := reads_int (v := r.body.type) (by cases r.body <;> simp [Scalar.Holds, RecordBody.type])
  have hid := reads_int (v := r.id.toInt) ⟨BitVec.le_toInt r.id, BitVec.toInt_lt⟩
  have hbody := reads_body horder (b := r.body) (by omega)
  have hlength := reads_int (v := (8 + (r.body.bytes order).length + 4 : Nat)) ⟨by omega, by omega⟩
  have hread : Reads readRecord (r.bytes order)
      ({ id := BitVec.ofInt 32 r.id.toInt, body := r.body.loaded },
        ((8 + (r.body.bytes order).length + 4 : Nat) : Int)) :=
    htype.bind (hid.bind (hbody.bind hlength.bind_pure))
  rw [BitVec.ofInt_toInt, ← r.length_bytes] at hread
  exact hread

-- ---------------------------------------------------------------------------
-- The file
-- ---------------------------------------------------------------------------

/-- The records up to `n` are read one after another, with the position after them. -/
def readForward (file : List UInt8) (pos : Nat) : Nat → Except LogError (List FileRecord × Nat)
  | 0 => .ok ([], pos)
  | n + 1 => do
    let (r, pos) ← readLogRecordForward file pos
    let (rs, pos) ← readForward file pos n
    return (r :: rs, pos)

def readBackward (file : List UInt8) (pos : Nat) : Nat → Except LogError (List FileRecord × Nat)
  | 0 => .ok ([], pos)
  | n + 1 => do
    let (r, pos) ← readLogRecordBackward file pos
    let (rs, pos) ← readBackward file pos n
    return (r :: rs, pos)

section

variable (order : Finset UInt32 → List UInt32)

/-- The records are written one after another at the end of the file. -/
def writeLog (rs : List FileRecord) : Option (List UInt8) := do
  let parts ← rs.mapM (writeLogRecord order)
  return parts.flatten

/-- Where the record number `n` begins. -/
def boundary (rs : List FileRecord) (n : Nat) : Nat :=
  ((rs.take n).flatMap (FileRecord.bytes order)).length

end

variable {rs : List FileRecord} {r : FileRecord} {before after : List UInt8}

theorem writeLog_eq (h : ∀ r ∈ rs, r.Fits order) :
    writeLog order rs = some (rs.flatMap (FileRecord.bytes order)) := by
  have hparts : rs.mapM (writeLogRecord order) = some (rs.map (FileRecord.bytes order)) := by
    induction rs with
    | nil => rfl
    | cons r rs ih =>
      have hone := (h r List.mem_cons_self).writeLogRecord
      have hrest := ih fun r' hr' => h r' (List.mem_cons_of_mem r hr')
      rw [List.mapM_cons, hone, hrest]
      rfl
  rw [writeLog, hparts]
  rfl

theorem readLogRecordForward_eq (horder : Iterates order) (h : r.Fits order) :
    readLogRecordForward (before ++ (r.bytes order ++ after)) before.length =
      .ok (r.loaded, before.length + (r.bytes order).length) := by
  have hread := reads_record horder h after
  have hend : (before ++ (r.bytes order ++ after)).length - after.length =
      before.length + (r.bytes order).length := by
    simp only [List.length_append]
    omega
  rw [readLogRecordForward, List.drop_left, hread]
  simp only [hend]
  rw [if_pos (by omega)]

theorem readLogRecordBackward_eq (horder : Iterates order) (h : r.Fits order) :
    readLogRecordBackward (before ++ (r.bytes order ++ after))
      (before.length + (r.bytes order).length) = .ok (r.loaded, before.length) := by
  have hlen := @FileRecord.length_bytes order r
  have hsmall := h.length
  -- the length is the last part of the record
  have hsplit : before ++ (r.bytes order ++ after) = (before ++ (writeInt r.body.type ++
      (writeInt r.id.toInt ++ r.body.bytes order))) ++
        (writeInt (8 + (r.body.bytes order).length + 4 : Nat) ++ after) := by
    simp only [FileRecord.bytes, List.append_assoc]
  have hpos : lseek (before.length + (r.bytes order).length : Nat) (-4) =
      .ok (before ++ (writeInt r.body.type ++ (writeInt r.id.toInt ++ r.body.bytes order))).length := by
    rw [lseek, if_neg (by omega)]
    simp only [List.length_append, length_writeInt]
    congr 1
    omega
  have hint : LogIO.readInt ((before ++ (r.bytes order ++ after)).drop
      (before ++ (writeInt r.body.type ++ (writeInt r.id.toInt ++ r.body.bytes order))).length) =
      .ok (((r.bytes order).length : Int), after) := by
    have hread := reads_int (v := (8 + (r.body.bytes order).length + 4 : Nat))
      ⟨by omega, by omega⟩ after
    rw [hsplit, List.drop_left, hread, hlen]
  have hstart : lseek ((before ++ (r.bytes order ++ after)).length - after.length : Nat)
      (-(r.bytes order).length) = .ok before.length := by
    have hend : (before ++ (r.bytes order ++ after)).length - after.length =
        before.length + (r.bytes order).length := by
      simp only [List.length_append]
      omega
    rw [hend, lseek, if_neg (by omega)]
    congr 1
    omega
  have hback : lseek (before.length + (r.bytes order).length : Nat) (-(r.bytes order).length) =
      .ok before.length := by
    rw [lseek, if_neg (by omega)]
    congr 1
    omega
  have hforward := @readLogRecordForward_eq order r before after horder h
  simp only [readLogRecordBackward, hpos, hint, hstart, hforward, bind, Except.bind, hback, pure,
    Except.pure]

theorem readForward_eq (horder : Iterates order) (h : ∀ r ∈ rs, r.Fits order) {n : Nat}
    (hn : n ≤ rs.length) :
    readForward (before ++ (rs.flatMap (FileRecord.bytes order) ++ after)) before.length n =
      .ok ((rs.take n).map FileRecord.loaded, before.length + boundary order rs n) := by
  induction rs generalizing n before with
  | nil =>
    cases Nat.le_zero.mp hn
    rfl
  | cons r rs ih =>
    cases n with
    | zero => rfl
    | succ n =>
      have hone := @readLogRecordForward_eq order r before
        (rs.flatMap (FileRecord.bytes order) ++ after) horder (h r List.mem_cons_self)
      have hrest := @ih (before ++ r.bytes order)
        (fun r' hr' => h r' (List.mem_cons_of_mem r hr')) n (Nat.le_of_succ_le_succ hn)
      have hend : before.length + boundary order (r :: rs) (n + 1) =
          before.length + (r.bytes order).length + boundary order rs n := by
        simp only [boundary, List.take_succ_cons, List.flatMap_cons, List.length_append]
        omega
      simp only [List.length_append, List.append_assoc] at hrest
      simp only [readForward, List.flatMap_cons, List.append_assoc, hone, bind, Except.bind, hrest,
        hend]
      rfl

theorem readBackward_eq (horder : Iterates order) (h : ∀ r ∈ rs, r.Fits order) {n : Nat}
    (hn : n ≤ rs.length) :
    readBackward (rs.flatMap (FileRecord.bytes order) ++ after)
      (rs.flatMap (FileRecord.bytes order)).length n =
      .ok ((rs.map FileRecord.loaded).reverse.take n, boundary order rs (rs.length - n)) := by
  induction rs using List.reverseRecOn generalizing n after with
  | nil =>
    cases Nat.le_zero.mp hn
    rfl
  | append_singleton rs r ih =>
    cases n with
    | zero =>
      have hall : boundary order (rs ++ [r]) (rs ++ [r]).length =
          ((rs ++ [r]).flatMap (FileRecord.bytes order)).length := by
        rw [boundary, List.take_length]
      rw [Nat.sub_zero, hall]
      rfl
    | succ n =>
      have hone := @readLogRecordBackward_eq order r (rs.flatMap (FileRecord.bytes order))
        after horder (h r (by simp))
      have hrest := @ih (r.bytes order ++ after)
        (fun r' hr' => h r' (List.mem_append_left [r] hr')) n (by simpa using hn)
      have hstart : boundary order (rs ++ [r]) ((rs ++ [r]).length - (n + 1)) =
          boundary order rs (rs.length - n) := by
        rw [List.length_append, List.length_singleton, Nat.add_sub_add_right, boundary,
          List.take_append_of_le_length (Nat.sub_le _ _), boundary]
      simp only [readBackward, List.flatMap_append, List.flatMap_singleton, List.append_assoc,
        List.length_append, hone, bind, Except.bind, hrest]
      simp only [List.map_append, List.map_singleton, List.reverse_append, List.reverse_singleton,
        List.singleton_append, List.take_succ_cons]
      rw [List.length_append] at hstart
      rw [hstart]
      rfl

/-- Records whose values have less than 1 GiB and that have less than 2 GiB themselves
are read forward from the start of the log and backward from its end as they were
written, but for null pointers in the values, which become empty sets. Every call
stops where a record begins. -/
theorem log_roundTrip (horder : Iterates order) (rs : List FileRecord)
    (h : ∀ r ∈ rs, r.Fits order) :
    ∃ file, writeLog order rs = some file ∧ ∀ n ≤ rs.length,
      (writeLog order (rs.take n) = some (file.take (boundary order rs n)) ∧
        readForward file 0 n = .ok ((rs.take n).map FileRecord.loaded, boundary order rs n) ∧
        readBackward file file.length n =
          .ok ((rs.map FileRecord.loaded).reverse.take n, boundary order rs (rs.length - n))) := by
  refine ⟨_, writeLog_eq h, fun n hn => ⟨?_, ?_, ?_⟩⟩
  · have hfirst := @writeLog_eq order (rs.take n) fun r hr => h r (List.mem_of_mem_take hr)
    have hsplit : rs.flatMap (FileRecord.bytes order) =
        (rs.take n).flatMap (FileRecord.bytes order) ++ (rs.drop n).flatMap (FileRecord.bytes order) := by
      rw [← List.flatMap_append, List.take_append_drop]
    rw [hfirst, hsplit, boundary, List.take_left]
  · have hread := @readForward_eq order rs [] [] horder h n hn
    simpa using hread
  · have hread := @readBackward_eq order rs [] horder h n hn
    simpa using hread

/-- An object is written and the transaction commits. -/
def oneWrite : List FileRecord :=
  [{ id := 4, body := .begin 3 },
    { id := 5, body := .write 3 (some 7) [104, 105] none (some { value := .string [33] }) true },
    { id := 6, body := .commit 3 }]

theorem oneWrite_fits : ∀ r ∈ oneWrite, r.Fits Finset.toList := by
  intro r hr
  simp only [oneWrite, List.mem_cons, List.not_mem_nil, or_false] at hr
  obtain rfl | rfl | rfl := hr
  · exact ⟨by decide +kernel, by decide +kernel⟩
  · exact ⟨by decide +kernel, by decide +kernel⟩
  · exact ⟨by decide +kernel, by decide +kernel⟩

theorem log_roundTrip_oneWrite : ∃ file, writeLog Finset.toList oneWrite = some file ∧ ∀ n ≤ 3,
    (writeLog Finset.toList (oneWrite.take n) =
        some (file.take (boundary Finset.toList oneWrite n)) ∧
      readForward file 0 n =
        .ok ((oneWrite.take n).map FileRecord.loaded, boundary Finset.toList oneWrite n) ∧
      readBackward file file.length n = .ok ((oneWrite.map FileRecord.loaded).reverse.take n,
        boundary Finset.toList oneWrite (3 - n))) :=
  log_roundTrip iterates_toList oneWrite oneWrite_fits

/-- An object with a name is deleted. -/
def nameRecord (name : List UInt8) : FileRecord where
  id := 4
  body := .write 3 none name none none false

/-- The length of a name of 2 GiB is read as a negative `int`. -/
theorem readString_negative {name rest : List UInt8} (h : name.length = 2 ^ 31) :
    readString (writeString name ++ rest) = .error .badAlloc := by
  have hlen : writeInt (name.length % 2 ^ 32 : Nat) = writeInt (-2 ^ 31) := by
    rw [h]
    decide
  rw [writeString, hlen, List.append_assoc]
  exact (reads_int (by decide)).bind_error rfl

theorem nameRecord_write (name : List UInt8) : ∃ rest, writeLogRecord order (nameRecord name) =
    some (writeInt 6 ++ (writeInt (4 : BitVec 32).toInt ++ (writeTransactionID 3 ++
      (writeLogicalID none ++ (writeString name ++ rest))))) := by
  have hbody : (nameRecord name).body.writeBody order = some (writeTransactionID 3 ++
      (writeLogicalID none ++ (writeString name ++
        (writeString [] ++ (writeString [] ++ writeInt 0))))) := rfl
  rw [writeLogRecord, hbody]
  simp only [Option.bind_eq_bind, Option.bind_some, List.append_assoc]
  exact ⟨_, rfl⟩

theorem nameRecord_fails {name : List UInt8} (h : name.length = 2 ^ 31) :
    ∃ file, writeLogRecord order (nameRecord name) = some file ∧
      readLogRecordForward file 0 = .error .badAlloc := by
  obtain ⟨rest, hwrite⟩ := @nameRecord_write order name
  have hbody : readWrite (writeTransactionID 3 ++ (writeLogicalID none ++
      (writeString name ++ rest))) = .error LogError.badAlloc :=
    (reads_transactionID 3).bind_error
      ((reads_logicalID none).bind_error (bind_error (readString_negative h)))
  have hread : readRecord (writeInt 6 ++ (writeInt (4 : BitVec 32).toInt ++ (writeTransactionID 3 ++
      (writeLogicalID none ++ (writeString name ++ rest))))) = .error LogError.badAlloc :=
    (reads_int (by decide)).bind_error ((reads_int (by decide)).bind_error (bind_error hbody))
  refine ⟨_, hwrite, ?_⟩
  rw [readLogRecordForward, List.drop_zero, hread]

/-- The null pointer of the value written becomes an empty set, and a record with a name
of 2 GiB cannot be read at all. -/
theorem log_changes : (∃ file, writeLog Finset.toList oneWrite = some file ∧
      readForward file 0 3 ≠ .ok (oneWrite, file.length)) ∧
    ∃ file, writeLogRecord Finset.toList (nameRecord (List.replicate (2 ^ 31) 0)) = some file ∧
      readLogRecordForward file 0 = .error .badAlloc := by
  refine ⟨⟨_, writeLog_eq oneWrite_fits, fun heq => ?_⟩, nameRecord_fails List.length_replicate⟩
  have hread := @readForward_eq _ _ [] [] iterates_toList oneWrite_fits 3
    (by decide)
  rw [List.nil_append, List.append_nil, List.length_nil, heq] at hread
  have hchanged : oneWrite ≠ (oneWrite.take 3).map FileRecord.loaded := by decide
  exact hchanged (congrArg Prod.fst (Except.ok.inj hread))

end Loxim.Log
