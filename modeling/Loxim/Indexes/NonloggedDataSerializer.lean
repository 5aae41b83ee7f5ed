import Mathlib.Data.Int.Interval
import Mathlib.Data.Finset.Card
import Loxim.Lib.Bytes
import Loxim.Indexes.Basic

/-!
# Index metadata across a clean restart

`serialize` and `deserialize` are templates instantiated by the static type of
each expression, so every call below names that type. The two sides agree on
all of them but two: the size of an inner `rolledBack` map and the entry counts
are written as `unsigned long` and read as `unsigned int`.

A stream that ends early leaves the buffer of `deserializeValue` as `malloc`
gave it; `junk` stands for its contents. The errors of such reads are assigned
and never looked at, so reading goes on.
-/

namespace Loxim.Indexes

open Bytes (Scalar)

/-- What is stored of an index handler and of its tree. -/
structure IndexData where
  lid : Lid
  rootAddr : NodeAddress
  rootLevel : Int
  firstNode : NodeAddress
  lastNode : NodeAddress
  deriving DecidableEq, Repr

/-- Every field has a value of its type. -/
def IndexData.Stored (d : IndexData) : Prop :=
  Scalar.uint.Holds d.lid ∧ Scalar.uint.Holds d.rootAddr ∧ Scalar.int.Holds d.rootLevel ∧
    Scalar.uint.Holds d.firstNode ∧ Scalar.uint.Holds d.lastNode

structure Metadata where
  nextFreeNodeAddr : NodeAddress
  droppedNode : NodeAddress
  droppedLastNode : NodeAddress
  /-- The handlers in the order of `indexNames`. -/
  indexes : List IndexData
  rolledBack : RolledBack
  deriving DecidableEq

namespace NonloggedDataSerializer

inductive Error
  | badFile
  | metaIncorrect
  deriving DecidableEq, Repr

abbrev Stream := List UInt8

-- ---------------------------------------------------------------------------
-- Writing
-- ---------------------------------------------------------------------------

def serializeValue (type : Scalar) (value : Int) : Stream := type.toBytes value

def serializeIndex (d : IndexData) : Stream :=
  serializeValue .uint d.lid ++ serializeValue .uint d.rootAddr ++
    serializeValue .int d.rootLevel ++ serializeValue .uint d.firstNode ++
    serializeValue .uint d.lastNode

def serializeCount (entry : Tid × Nat) : Stream :=
  serializeValue .int entry.1 ++ serializeValue .ulong entry.2

def serializeRolledBack (entry : Lid × RolledBackIndex) : Stream :=
  serializeValue .uint entry.1 ++ serializeValue .ulong entry.2.size ++
    entry.2.toList.flatMap serializeCount

def serialize (s : Metadata) : Stream :=
  serializeValue .uint s.nextFreeNodeAddr ++ serializeValue .uint s.droppedNode ++
    serializeValue .uint s.droppedLastNode ++ s.indexes.flatMap serializeIndex ++
    serializeValue .uint s.rolledBack.size ++ s.rolledBack.toList.flatMap serializeRolledBack

-- ---------------------------------------------------------------------------
-- Reading
-- ---------------------------------------------------------------------------

section
variable (junk : Scalar → Stream → Int)

def deserializeValue (type : Scalar) (bytes : Stream) : Int × Stream :=
  if type.size ≤ bytes.length then (type.ofBytes (bytes.take type.size), bytes.drop type.size)
  else (type.wrap (junk type bytes), [])

/-- The key of a handler in `indexLid`, whose keys are `int`. -/
def indexKey (d : IndexData) : Int := Scalar.int.wrap d.lid

def deserializeIndexes : Nat → List IndexData → Stream → Option (List IndexData × Stream)
  | 0, handlers, bytes => some (handlers, bytes)
  | n + 1, handlers, bytes =>
    let (id, bytes) := deserializeValue junk .int bytes
    if handlers.any (indexKey · == id) then
      -- `rootAddr` and `firstNode` go through an `int` and back
      let (rootAddr, bytes) := deserializeValue junk .int bytes
      let (rootLevel, bytes) := deserializeValue junk .int bytes
      let (firstNode, bytes) := deserializeValue junk .int bytes
      let (lastNode, bytes) := deserializeValue junk .uint bytes
      let update (d : IndexData) : IndexData :=
        if indexKey d = id then
          { d with rootAddr := (Scalar.uint.wrap rootAddr).toNat, rootLevel := rootLevel,
                   firstNode := (Scalar.uint.wrap firstNode).toNat, lastNode := lastNode.toNat }
        else d
      deserializeIndexes n (handlers.map update) bytes
    else none

def deserializeCounts : Nat → RolledBackIndex → Stream → RolledBackIndex × Stream
  | 0, tmpMap, bytes => (tmpMap, bytes)
  | n + 1, tmpMap, bytes =>
    let (tid, bytes) := deserializeValue junk .int bytes
    let (count, bytes) := deserializeValue junk .uint bytes
    deserializeCounts n (tmpMap.insert tid count.toNat) bytes

def deserializeRolledBack : Nat → RolledBack → Stream → RolledBack
  | 0, rolledBack, _ => rolledBack
  | n + 1, rolledBack, bytes =>
    let (lid, bytes) := deserializeValue junk .uint bytes
    let (innerSize, bytes) := deserializeValue junk .uint bytes
    let (tmpMap, bytes) := deserializeCounts junk innerSize.toNat ∅ bytes
    deserializeRolledBack n (rolledBack.insert lid.toNat tmpMap) bytes

/-- `loaded` is the index list read from the store; the resolver is new, so
its `rolledBack` starts empty. -/
def deserialize (loaded : List IndexData) (bytes : Stream) : Except Error Metadata :=
  if bytes.length = 0 then .error .badFile
  else
    let (nextFreeNodeAddr, bytes) := deserializeValue junk .uint bytes
    let (droppedNode, bytes) := deserializeValue junk .uint bytes
    let (droppedLastNode, bytes) := deserializeValue junk .uint bytes
    match deserializeIndexes junk loaded.length loaded bytes with
    | none => .error .metaIncorrect
    | some (indexes, bytes) =>
      let (size, bytes) := deserializeValue junk .uint bytes
      .ok { nextFreeNodeAddr := nextFreeNodeAddr.toNat, droppedNode := droppedNode.toNat,
            droppedLastNode := droppedLastNode.toNat, indexes := indexes,
            rolledBack := deserializeRolledBack junk size.toNat ∅ bytes }

end

/-- A handler as `loadIndexList` leaves it; `rootAddr` is not initialised. -/
def loadIndex (rootAddr : Lid → NodeAddress) (d : IndexData) : IndexData :=
  { lid := d.lid, rootAddr := rootAddr d.lid, rootLevel := 0, firstNode := newNode,
    lastNode := newNode }

-- ---------------------------------------------------------------------------
-- Reading back one value
-- ---------------------------------------------------------------------------

theorem deserializeValue_append (junk : Scalar → Stream → Int) (hs : value.length = type.size) :
    deserializeValue junk type (value ++ rest) = (type.ofBytes value, rest) := by
  simp [deserializeValue, ← hs]

theorem deserializeValue_serializeValue (junk : Scalar → Stream → Int) (h : type.Holds value) :
    deserializeValue junk type (serializeValue type value ++ rest) = (value, rest) := by
  rw [deserializeValue_append junk (by simp [serializeValue]), serializeValue, Scalar.ofBytes_toBytes,
    Scalar.wrap_of_holds h]

/-- An address is written as `unsigned int`; read as `int` it is the same four
bytes with their other meaning. -/
theorem deserializeValue_address (junk : Scalar → Stream → Int) :
    deserializeValue junk .int (serializeValue .uint value ++ rest) =
      (Scalar.int.wrap value, rest) := by
  have hb : serializeValue .uint value = Scalar.int.toBytes value := rfl
  rw [hb, deserializeValue_append junk (by simp), Scalar.ofBytes_toBytes]

theorem wrap_uint_int (h : Scalar.uint.Holds value) :
    Scalar.uint.wrap (Scalar.int.wrap value) = value := by
  simp only [Scalar.Holds] at h
  simp only [Scalar.wrap]
  omega

theorem indexKey_inj (ha : Scalar.uint.Holds a.lid) (hb : Scalar.uint.Holds b.lid) :
    indexKey a = indexKey b ↔ a.lid = b.lid := by
  constructor
  · intro h
    have hw : Scalar.uint.wrap (indexKey a) = Scalar.uint.wrap (indexKey b) := by rw [h]
    simpa [indexKey, wrap_uint_int ha, wrap_uint_int hb] using hw
  · intro h
    rw [indexKey, indexKey, h]

-- ---------------------------------------------------------------------------
-- The state at shutdown
-- ---------------------------------------------------------------------------

/-- The metadata of a running index manager: every field has a value of its
type, index ids differ, and an index is in `rolledBack` only with some rolled
back transaction (`entryDropped` erases what becomes empty). Transaction ids
come from the log sequence and are positive. -/
structure State extends Metadata where
  nextFree_holds : Scalar.uint.Holds nextFreeNodeAddr
  dropped_holds : Scalar.uint.Holds droppedNode
  droppedLast_holds : Scalar.uint.Holds droppedLastNode
  indexes_stored : ∀ d ∈ indexes, IndexData.Stored d
  lids_nodup : (indexes.map IndexData.lid).Nodup
  rolledBack_lid : ∀ p ∈ rolledBack.toList, Scalar.uint.Holds p.1
  rolledBack_ne : ∀ p ∈ rolledBack.toList, p.2 ≠ ∅
  rolledBack_tid : ∀ p ∈ rolledBack.toList, ∀ q ∈ p.2.toList, 0 < q.1 ∧ Scalar.int.Holds q.1

def State.loaded (s : State) (rootAddr : Lid → NodeAddress) : List IndexData :=
  s.indexes.map (loadIndex rootAddr)

-- ---------------------------------------------------------------------------
-- The handlers
-- ---------------------------------------------------------------------------

section
variable {junk : Scalar → Stream → Int}

/-- One round of the loop sets the handler whose id was read, which is the
first one not yet set. -/
theorem deserializeIndexes_step {done todo : List IndexData} {d : IndexData}
    (hd : d.Stored) (hdone : ∀ e ∈ done, indexKey e ≠ indexKey d)
    (htodo : ∀ e ∈ todo, indexKey e ≠ indexKey d) (rootAddr : Lid → NodeAddress) :
    deserializeIndexes junk (n + 1) (done ++ loadIndex rootAddr d :: todo)
        (serializeIndex d ++ bytes) =
      deserializeIndexes junk n (done ++ d :: todo) bytes := by
  obtain ⟨-, hr, hv, hf, hl⟩ := hd
  have hid : deserializeValue junk .int (serializeIndex d ++ bytes) =
      (indexKey d, serializeValue .uint d.rootAddr ++ (serializeValue .int d.rootLevel ++
        (serializeValue .uint d.firstNode ++ (serializeValue .uint d.lastNode ++ bytes)))) := by
    simp only [serializeIndex, List.append_assoc, deserializeValue_address, indexKey]
  have hany : (done ++ loadIndex rootAddr d :: todo).any (indexKey · == indexKey d) = true := by
    simp [loadIndex, indexKey]
  rw [deserializeIndexes, hid]
  dsimp only
  rw [if_pos hany, deserializeValue_address]
  dsimp only
  rw [deserializeValue_serializeValue junk hv]
  dsimp only
  rw [deserializeValue_address]
  dsimp only
  rw [deserializeValue_serializeValue junk hl]
  dsimp only
  rw [wrap_uint_int hr, wrap_uint_int hf]
  congr 1
  have hkeep (l : List IndexData) (f : IndexData → IndexData)
      (hl : ∀ e ∈ l, indexKey e ≠ indexKey d) :
      l.map (fun e => if indexKey e = indexKey d then f e else e) = l := by
    conv_rhs => rw [← List.map_id l]
    refine List.map_congr_left fun e he => ?_
    rw [if_neg (hl e he), id]
  rw [List.map_append, List.map_cons, hkeep done _ hdone, hkeep todo _ htodo]
  simp [loadIndex, indexKey]

/-- The whole loop sets every handler to what was written of it. -/
theorem deserializeIndexes_run (junk : Scalar → Stream → Int) (bytes : Stream)
    (done : List IndexData) {todo : List IndexData} (hstored : ∀ d ∈ todo, d.Stored)
    (hkeys : ((done ++ todo).map indexKey).Nodup) (rootAddr : Lid → NodeAddress) :
    deserializeIndexes junk todo.length (done ++ todo.map (loadIndex rootAddr))
        (todo.flatMap serializeIndex ++ bytes) = some (done ++ todo, bytes) := by
  induction todo generalizing done with
  | nil => simp [deserializeIndexes]
  | cons d todo ih =>
    simp only [List.map_append, List.map_cons, List.nodup_append, List.nodup_cons] at hkeys
    obtain ⟨hdone, ⟨hd, htodo⟩, hdisj⟩ := hkeys
    rw [List.length_cons, List.map_cons, List.flatMap_cons, List.append_assoc,
      deserializeIndexes_step (hstored d (by simp))]
    · have hih := ih (done ++ [d]) (fun e he => hstored e (by simp [he])) ?_
      · simpa using hih
      · simp only [List.append_assoc, List.singleton_append, List.map_append, List.map_cons,
          List.nodup_append, List.nodup_cons]
        exact ⟨hdone, ⟨hd, htodo⟩, hdisj⟩
    · intro e he
      exact hdisj _ (List.mem_map_of_mem he) _ (by simp)
    · intro e he heq
      obtain ⟨e', he', rfl⟩ := List.mem_map.mp he
      have heq' : indexKey e' = indexKey d := heq
      exact hd (heq' ▸ List.mem_map_of_mem he')

theorem State.indexKeys_nodup (s : State) : (s.indexes.map indexKey).Nodup := by
  refine List.Nodup.map_on ?_ (List.Nodup.of_map _ s.lids_nodup)
  intro d hd e he h
  exact List.inj_on_of_nodup_map s.lids_nodup hd he
    ((indexKey_inj (s.indexes_stored d hd).1 (s.indexes_stored e he).1).mp h)

/-- Everything before the inner `rolledBack` maps is restored. -/
theorem deserialize_serialize (s : State) (rootAddr : Lid → NodeAddress) :
    deserialize junk (s.loaded rootAddr) (serialize s.toMetadata) =
      .ok { s.toMetadata with
            rolledBack := deserializeRolledBack junk (s.rolledBack.size % 2 ^ 32) ∅
              (s.rolledBack.toList.flatMap serializeRolledBack) } := by
  have hlen : (serialize s.toMetadata).length ≠ 0 := by
    simp [serialize, serializeValue, Scalar.size]
  have hrun := deserializeIndexes_run junk
    (serializeValue .uint s.rolledBack.size ++ s.rolledBack.toList.flatMap serializeRolledBack) []
    s.indexes_stored s.indexKeys_nodup rootAddr
  have hsize : deserializeValue junk .uint (serializeValue .uint s.rolledBack.size ++
      s.rolledBack.toList.flatMap serializeRolledBack) =
      (((s.rolledBack.size % 2 ^ 32 : Nat) : Int),
        s.rolledBack.toList.flatMap serializeRolledBack) := by
    rw [deserializeValue_append junk (by simp [serializeValue]), serializeValue,
      Scalar.ofBytes_toBytes]
    rfl
  rw [deserialize, if_neg hlen]
  simp only [serialize, List.append_assoc]
  rw [deserializeValue_serializeValue junk s.nextFree_holds]
  dsimp only
  rw [deserializeValue_serializeValue junk s.dropped_holds]
  dsimp only
  rw [deserializeValue_serializeValue junk s.droppedLast_holds]
  dsimp only
  simp only [List.nil_append] at hrun
  rw [State.loaded, List.length_map, hrun]
  dsimp only
  rw [hsize, Int.toNat_natCast]
  simp only [Int.toNat_natCast]

-- ---------------------------------------------------------------------------
-- The rolled back transactions
-- ---------------------------------------------------------------------------

theorem size_deserializeRolledBack (junk : Scalar → Stream → Int) (n : Nat) (acc : RolledBack)
    (bytes : Stream) :
    (deserializeRolledBack junk n acc bytes).size ≤ acc.size + n := by
  induction n generalizing acc bytes with
  | zero => simp [deserializeRolledBack]
  | succ n ih =>
    rw [deserializeRolledBack]
    dsimp only
    refine Nat.le_trans (ih _ _) ?_
    rw [Nat.add_comm n, ← Nat.add_assoc]
    exact Nat.add_le_add_right Std.ExtTreeMap.size_insert_le n

/-- A map read early is kept, or a later one takes its place and the result
has fewer maps than were read. -/
theorem getElem?_deserializeRolledBack (junk : Scalar → Stream → Int) (n : Nat) (bytes : Stream)
    {lid : Lid} (h : acc[lid]? = some v) :
    (deserializeRolledBack junk n acc bytes)[lid]? = some v ∨
      (deserializeRolledBack junk n acc bytes).size < acc.size + n := by
  induction n generalizing acc bytes with
  | zero => exact .inl h
  | succ n ih =>
    rw [deserializeRolledBack]
    dsimp only
    by_cases hk : (deserializeValue junk .uint bytes).1.toNat = lid
    · right
      refine Nat.lt_of_le_of_lt (size_deserializeRolledBack _ _ _ _) ?_
      rw [hk, Std.ExtTreeMap.size_insert, if_pos (by simp [Std.ExtTreeMap.mem_iff_isSome_getElem?, h])]
      omega
    · refine Or.imp_right (fun hlt => Nat.lt_of_lt_of_le hlt ?_) (ih _ ?_)
      · rw [Nat.add_comm n, ← Nat.add_assoc]
        exact Nat.add_le_add_right Std.ExtTreeMap.size_insert_le n
      · rw [Std.ExtTreeMap.getElem?_insert, if_neg (by simpa using hk), h]

/-- No key is lost while the counts are read. -/
theorem mem_deserializeCounts (h : tid ∈ acc) : tid ∈ (deserializeCounts junk n acc bytes).1 := by
  induction n generalizing acc bytes with
  | zero => exact h
  | succ n ih =>
    rw [deserializeCounts]
    exact ih (Std.ExtTreeMap.mem_insert.mpr (.inr h))

/-- The first count read starts four bytes early, in the zero half of the size
of its map, so it is filed under transaction 0. -/
theorem zero_mem_deserializeCounts :
    (0 : Tid) ∈ (deserializeCounts junk (n + 1) acc (serializeValue .uint 0 ++ bytes)).1 := by
  have hz : deserializeValue junk .int (serializeValue .uint 0 ++ bytes) = (0, bytes) := by
    rw [deserializeValue_address]
    rfl
  rw [deserializeCounts, hz]
  exact mem_deserializeCounts (Std.ExtTreeMap.mem_insert.mpr (.inl Std.ReflCmp.compare_self))

/-- Distinct positive `int`s, so their number is an `unsigned int`. -/
theorem size_lt_of_tids {m : RolledBackIndex}
    (h : ∀ q ∈ m.toList, 0 < q.1 ∧ Scalar.int.Holds q.1) : m.size < 2 ^ 32 := by
  have hsub : m.keys.toFinset ⊆ Finset.Ico (0 : Int) (2 ^ 31) := by
    intro tid htid
    rw [List.mem_toFinset, ← Std.ExtTreeMap.map_fst_toList_eq_keys, List.mem_map] at htid
    obtain ⟨q, hq, rfl⟩ := htid
    obtain ⟨hpos, -, hlt⟩ := h q hq
    exact Finset.mem_Ico.mpr ⟨Int.le_of_lt hpos, hlt⟩
  have hcard := Finset.card_le_card hsub
  rw [List.toFinset_card_of_nodup Std.ExtTreeMap.nodup_keys, Std.ExtTreeMap.length_keys,
    Int.card_Ico] at hcard
  omega

/-- Once some transaction of some index is rolled back the maps read differ
from the maps written. -/
theorem deserializeRolledBack_ne (junk : Scalar → Stream → Int) (s : State) (hne : s.rolledBack ≠ ∅) :
    deserializeRolledBack junk (s.rolledBack.size % 2 ^ 32) ∅
      (s.rolledBack.toList.flatMap serializeRolledBack) ≠ s.rolledBack := by
  intro heq
  have hlen := Std.ExtTreeMap.length_toList (t := s.rolledBack)
  have hle := size_deserializeRolledBack junk (s.rolledBack.size % 2 ^ 32) ∅
    (s.rolledBack.toList.flatMap serializeRolledBack)
  rw [heq, Std.ExtTreeMap.size_empty] at hle
  have hlt : s.rolledBack.size % 2 ^ 32 = s.rolledBack.size := by
    have := Nat.mod_le s.rolledBack.size (2 ^ 32)
    omega
  rw [hlt] at heq
  cases hl : s.rolledBack.toList with
  | nil =>
    rw [hl, List.length_nil] at hlen
    exact hne (Std.ExtTreeMap.eq_empty_iff_size_eq_zero.mpr hlen.symm)
  | cons p tail =>
    obtain ⟨lid, m⟩ := p
    have hp : (lid, m) ∈ s.rolledBack.toList := by simp [hl]
    have hsmall : m.size < 2 ^ 32 := size_lt_of_tids (s.rolledBack_tid _ hp)
    obtain ⟨k, hk⟩ : ∃ k, m.size = k + 1 := by
      have := s.rolledBack_ne _ hp
      rw [ne_eq, Std.ExtTreeMap.eq_empty_iff_size_eq_zero] at this
      exact Nat.exists_eq_succ_of_ne_zero this
    rw [hl, List.length_cons] at hlen
    have hbytes : serializeRolledBack (lid, m) ++ tail.flatMap serializeRolledBack =
        serializeValue .uint lid ++ (serializeValue .uint m.size ++ (serializeValue .uint 0 ++
          (m.toList.flatMap serializeCount ++ tail.flatMap serializeRolledBack))) := by
      simp only [serializeRolledBack, serializeValue, List.append_assoc]
      rw [Scalar.toBytes_ulong (by omega) (by omega), List.append_assoc]
    have hcount : Scalar.uint.Holds m.size := by
      simp only [Scalar.Holds]
      omega
    rw [← hlen, hl, List.flatMap_cons, hbytes, deserializeRolledBack,
      deserializeValue_serializeValue junk (s.rolledBack_lid _ hp)] at heq
    dsimp only at heq
    rw [deserializeValue_serializeValue junk hcount] at heq
    dsimp only at heq
    simp only [Int.toNat_natCast, hk] at heq
    generalize hc : deserializeCounts junk (k + 1) ∅ _ = counts at heq
    have hsome := getElem?_deserializeRolledBack junk tail.length counts.2
      (Std.ExtTreeMap.getElem?_insert_self (t := ∅) (k := lid) (v := counts.1))
    rw [heq, Std.ExtTreeMap.mem_toList_iff_getElem?_eq_some.mp hp] at hsome
    rcases hsome with hsome | hsome
    · have hzero : (0 : Tid) ∈ m := by
        rw [Option.some.inj hsome, ← hc]
        exact zero_mem_deserializeCounts
      have hmem := Std.ExtTreeMap.getElem?_eq_some_getElem hzero
      exact Int.lt_irrefl 0
        (s.rolledBack_tid _ hp _ (Std.ExtTreeMap.mem_toList_iff_getElem?_eq_some.mpr hmem)).1
    · have hone := Nat.lt_of_lt_of_le hsome
        (Nat.add_le_add_right Std.ExtTreeMap.size_insert_le tail.length)
      rw [Std.ExtTreeMap.size_empty] at hone
      omega

/-- A restart brings back the metadata exactly when no rolled back transaction
has entries left in any index. -/
theorem deserialize_serialize_iff (junk : Scalar → Stream → Int) (rootAddr : Lid → NodeAddress)
    (s : State) :
    deserialize junk (s.loaded rootAddr) (serialize s.toMetadata) = .ok s.toMetadata ↔
      s.rolledBack = ∅ := by
  rw [deserialize_serialize]
  constructor
  · intro h
    by_contra hne
    refine deserializeRolledBack_ne junk s hne ?_
    exact congrArg Metadata.rolledBack (Except.ok.inj h)
  · intro h
    have hsize : s.rolledBack.size % 2 ^ 32 = 0 := by simp [h]
    rw [hsize, deserializeRolledBack, ← h]

theorem newNode_holds : Scalar.uint.Holds newNode := by
  decide

/-- One transaction with one entry left. -/
def oneLeft : RolledBack :=
  (∅ : RolledBack).insert 7 ((∅ : RolledBackIndex).insert 16 1)

theorem oneLeft_lid : ∀ p ∈ oneLeft.toList, Scalar.uint.Holds p.1 := by
  decide +kernel

theorem oneLeft_ne : ∀ p ∈ oneLeft.toList, p.2 ≠ ∅ := by
  decide +kernel

theorem oneLeft_tid : ∀ p ∈ oneLeft.toList, ∀ q ∈ p.2.toList, 0 < q.1 ∧ Scalar.int.Holds q.1 := by
  decide +kernel

/-- One index, one rolled back transaction with one entry left. -/
def oneRolledBack : State where
  nextFreeNodeAddr := 8192
  droppedNode := newNode
  droppedLastNode := newNode
  indexes := [{ lid := 7, rootAddr := 0, rootLevel := 0, firstNode := 0, lastNode := 0 }]
  rolledBack := (∅ : RolledBack).insert 7 ((∅ : RolledBackIndex).insert 16 1)
  nextFree_holds := by decide
  dropped_holds := newNode_holds
  droppedLast_holds := newNode_holds
  indexes_stored := by simp [IndexData.Stored, Scalar.Holds]
  lids_nodup := by decide
  rolledBack_lid := oneLeft_lid
  rolledBack_ne := oneLeft_ne
  rolledBack_tid := oneLeft_tid

/-- The map comes back with transaction 0 in the place of transaction 16, so
the entry of 16 is taken for a committed one. -/
theorem oneRolledBack_lost :
    deserialize (fun _ _ => 0) (oneRolledBack.loaded fun _ => 0)
        (serialize oneRolledBack.toMetadata) =
      .ok { oneRolledBack.toMetadata with
            rolledBack := (∅ : RolledBack).insert 7 ((∅ : RolledBackIndex).insert 0 16) } ∧
    deserialize (fun _ _ => 0) (oneRolledBack.loaded fun _ => 0)
        (serialize oneRolledBack.toMetadata) ≠ .ok oneRolledBack.toMetadata := by
  decide +kernel

end

end NonloggedDataSerializer

end Loxim.Indexes
