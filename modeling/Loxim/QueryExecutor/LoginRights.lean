import Loxim.QueryExecutor.AccessMap
import Loxim.QueryExecutor.InterfaceBinding
import Loxim.QueryExecutor.QueryResult
import Mathlib.Data.Nat.Bitwise

/-!
# The rights of a user who logs in

The privilege of the user names a schema, and the access points of the schema name interfaces
or the objects of interfaces. What the privilege says is put into the map of rights first, and
is cleared when the map is filled from the schema.
-/

namespace Loxim.QueryExecutor

/-- `STATE`. -/
inductive Validity
  | valid
  | invalidOther
  | invalidNoBind
  | invalidBadBind
  | errorNameNotUnique
  | errorTM
  | errorNoName
  | errorNotInterface
deriving DecidableEq

def Validity.isInvalid (s : Validity) : Bool := s ≠ .valid

/-- The access points of a schema, with the rights to them. -/
structure OuterSchema where
  name : String := "no_name"
  namesInSchema : OrderedMap String Nat := ∅

structure OuterSchemas where
  outerSchemas : OrderedMap String OuterSchema := ∅
  schemasValidity : OrderedMap String Validity := ∅

namespace OuterSchemas

variable (os : OuterSchemas)

def hasSchemaName (s : String) : Bool := (os.outerSchemas.lookup s).isSome

def getSchema (name : String) : OuterSchema := (os.outerSchemas.lookup name).getD {}

def getValidity (schemaName : String) : Validity :=
  (os.schemasValidity.lookup schemaName).getD .invalidOther

def isValid (schemaName : String) : Bool := !(os.getValidity schemaName).isInvalid

end OuterSchemas

namespace InterfaceMaps

variable (im : InterfaceMaps)

def getObjectNameForInterface (i : String) : Option String :=
  if i.isEmpty then none else (im.nameToSchema.lookup i).map Schema.associatedObjectName

end InterfaceMaps

inductive LoginError
  | otherResExp
  | noSchemaFound
  | userHasInvalidSchema
  /-- An item that is neither a string nor a number is read as one. -/
  | badCast
deriving DecidableEq

/-- The bytes of a result as a name. -/
def Text.name (t : Text) : String := String.ofList (t.map fun b => Char.ofNat b)

/-- What the loop over the binders of a privilege has read. -/
structure Privilege where
  privName : String := ""
  objectName : String := ""
  canGive : Bool := false

namespace Privilege

def readBinder (p : Privilege) (name : String) (item : QueryResult) : Except LoginError Privilege :=
  if name = "priv_name" then
    match item with
    | .string s => .ok { p with privName := Text.name s }
    | _ => .error .badCast
  else if name = "object_name" then
    match item with
    | .string s => .ok { p with objectName := Text.name s }
    | _ => .error .badCast
  else if name = "grant_option" then
    match item with
    | .int v => .ok { p with canGive := v = 1 }
    | _ => .error .badCast
  else .ok p

def read (p : Privilege) : List QueryResult → Except LoginError Privilege
  | [] => .ok p
  | innerResult :: rest =>
    match innerResult with
    | .binder name item => do
      let p ← p.readBinder (Text.name name) item
      p.read rest
    | _ => .error .otherResExp

end Privilege

namespace AccessMap

def getCrudFromName (name : String) : Nat :=
  if name = "Create" then Crud.create
  else if name = "Read" then Crud.read
  else if name = "Update" then Crud.update
  else if name = "Delete" then Crud.delete
  else Crud.noAccess

section

variable (im : InterfaceMaps) (os : OuterSchemas) (m : AccessMap)

def canGiveAccess (objectName : String) : Bool :=
  if m.isDba then true
  else
    match m.accessMap.lookup objectName with
    | some (_, canGive) => canGive
    | none =>
      match m.baseMap.lookup objectName with
      | some (_, canGive) => canGive
      | none => false

def reset : AccessMap :=
  { m with accessMap := ∅, sectionToNamesMap := ∅, keepSection := false }

/-- One access point, which is the name of an interface or of an object. -/
def addAccessPoint (name : String) (crud : Nat) : AccessMap :=
  if im.hasInterface name then
    match im.getObjectNameForInterface name with
    | some objectName =>
      let m := if objectName ≠ "" then m.addAccess objectName crud false true else m
      m.addAccess name Crud.read false true
    | none => m
  else if im.hasObjectName name then
    match im.getInterfaceNameForObject name with
    | some interfaceName =>
      (m.addAccess name crud false true).addAccess interfaceName Crud.read false true
    | none => m
  else m

def resetForSchema (schemaName : String) : AccessMap :=
  let m := { m.reset with baseMap := ∅ }
  let ap := (os.getSchema schemaName).namesInSchema
  let m := { m with baseMap := m.baseMap.insert schemaName (Crud.read, false) }
  (elements ap.keys).foldl (fun m name => m.addAccessPoint im name ((ap.lookup name).getD 0)) m

/-- The user is known, and the privileges are not. -/
def validated : AccessMap := { m.reset with isDba := false, userValidation := true }

/-- `execute_locally` runs the query for the privileges of the user. -/
def resetForUser (execute_locally : AccessMap → AccessMap × QueryResult) (username : String) :
    AccessMap × Option LoginError :=
  if username = "root" then ({ m.reset with isDba := true }, none)
  else
    let (m, res) := execute_locally m.validated
    match res with
    | .struct str =>
      match Privilege.read {} str with
      | .error e => ({ m with userValidation := false }, some e)
      | .ok p =>
        let crud := getCrudFromName p.privName
        let m := m.addAccess p.objectName crud p.canGive true
        if ¬ os.hasSchemaName p.objectName then
          ({ m with userValidation := false }, some .noSchemaFound)
        else if ¬ os.isValid p.objectName then
          ({ m with userValidation := false }, some .userHasInvalidSchema)
        else ({ m.resetForSchema im os p.objectName with userValidation := false }, none)
    | _ => ({ m with userValidation := false }, some .otherResExp)

end

-- ---------------------------------------------------------------------------
-- What is granted
-- ---------------------------------------------------------------------------

/-- The rights that are given by some of the lists of rights. -/
def united (cruds : List Nat) : Nat :=
  (if cruds.any canCreate then Crud.create else 0) + (if cruds.any canRead then Crud.read else 0) +
    (if cruds.any canUpdate then Crud.update else 0) +
    (if cruds.any canDelete then Crud.delete else 0)

/-- The rights of a name that is given rights several times. -/
def joined (cruds : List Nat) : Nat :=
  if Crud.procedureOnly ∈ cruds then Crud.procedureOnly else united cruds

/-- The rights of a name that is given these. -/
def merged : List Nat → Option Nat
  | [] => none
  | [crud] => some crud
  | crud :: cruds => some (joined (crud :: cruds))

section

variable (im : InterfaceMaps)

/-- The rights to its object and to its interface that an access point gives. -/
def pointGrants (name : String) (crud : Nat) : List (String × Nat) :=
  if name.isEmpty then []
  else
    match im.nameToSchema.lookup name with
    | some s =>
      (if s.associatedObjectName = "" then [] else [(s.associatedObjectName, crud)]) ++
        [(name, Crud.read)]
    | none =>
      match im.objNameToName.lookup name with
      | some interfaceName => [(name, crud), (interfaceName, Crud.read)]
      | none => []

def schemaGrants (ap : OrderedMap String Nat) : List (String × Nat) :=
  (elements ap.keys).flatMap fun name => pointGrants im name ((ap.lookup name).getD 0)

end

/-- The rights that a name is given. -/
def givenTo (name : String) (grants : List (String × Nat)) : List Nat :=
  (grants.filter fun grant => grant.1 = name).map Prod.snd

variable {im : InterfaceMaps} {os : OuterSchemas} {m : AccessMap} {crud crud' x : Nat}
  {cruds cruds' : List Nat} {name : String} {grants : List (String × Nat)}

theorem can_united :
    (canCreate (united cruds) = cruds.any canCreate ∧ canRead (united cruds) = cruds.any canRead) ∧
      canUpdate (united cruds) = cruds.any canUpdate ∧
      canDelete (united cruds) = cruds.any canDelete := by
  unfold united
  cases cruds.any canCreate <;> cases cruds.any canRead <;> cases cruds.any canUpdate <;>
    cases cruds.any canDelete <;> decide

theorem united_ne : Crud.procedureOnly ≠ united cruds := by
  unfold united
  split <;> split <;> split <;> split <;> decide

theorem united_congr (hcreate : cruds.any canCreate = cruds'.any canCreate)
    (hread : cruds.any canRead = cruds'.any canRead)
    (hupdate : cruds.any canUpdate = cruds'.any canUpdate)
    (hdelete : cruds.any canDelete = cruds'.any canDelete) : united cruds = united cruds' := by
  rw [united, united, hcreate, hread, hupdate, hdelete]

theorem joined_perm (h : cruds.Perm cruds') : joined cruds = joined cruds' := by
  simp only [joined, united, h.mem_iff, h.any_eq]

theorem merged_perm (h : cruds.Perm cruds') : merged cruds = merged cruds' := by
  match cruds, cruds', h with
  | [], l, h => rw [List.nil_perm.mp h]
  | [a], l, h => rw [List.singleton_perm.mp h]
  | l, [], h => rw [List.perm_nil.mp h]
  | l, [a], h => rw [List.perm_singleton.mp h]
  | a :: b :: l, a' :: b' :: l', h => exact congrArg some (joined_perm h)

theorem mergeCruds_eq : mergeCruds crud x = joined [crud, x] := by
  simp [mergeCruds, joined, united, eq_comm (a := Crud.procedureOnly)]

theorem joined_cons : joined (crud :: cruds) = joined [crud, joined cruds] := by
  by_cases hmem : Crud.procedureOnly ∈ cruds
  · simp [joined, hmem]
  · have hjoined : joined cruds = united cruds := if_neg hmem
    obtain ⟨⟨hcreate, hread⟩, hupdate, hdelete⟩ := @can_united cruds
    have hunited : united (crud :: cruds) = united [crud, united cruds] :=
      united_congr (by simp [hcreate]) (by simp [hread]) (by simp [hupdate]) (by simp [hdelete])
    rw [hjoined, joined, joined, hunited]
    simp [hmem, united_ne]

theorem merged_cons (h : merged cruds = some x) :
    merged (crud :: cruds) = some (mergeCruds crud x) := by
  match cruds with
  | [] => cases h
  | [a] =>
    cases h
    rw [mergeCruds_eq]
    rfl
  | a :: b :: l =>
    cases h
    rw [mergeCruds_eq, ← joined_cons]
    rfl

-- ---------------------------------------------------------------------------
-- What the schema leaves in the map
-- ---------------------------------------------------------------------------

/-- The map has the rights of these, and nothing may be given on. -/
structure Given (m : AccessMap) (grants : List (String × Nat)) : Prop where
  isDba : m.isDba = false
  accessMap : m.accessMap = ∅
  rights : ∀ name, (m.baseMap.lookup name).map Prod.fst = merged (givenTo name grants)
  canGive : ∀ name access, m.baseMap.lookup name = some access → access.2 = false

theorem givenTo_append (grants grants' : List (String × Nat)) :
    givenTo name (grants ++ grants') = givenTo name grants ++ givenTo name grants' := by
  rw [givenTo, List.filter_append, List.map_append]
  rfl

theorem givenTo_self : givenTo name [(name, crud)] = [crud] := by simp [givenTo]

theorem givenTo_of_ne {n : String} (h : n ≠ name) : givenTo n [(name, crud)] = [] := by
  simp [givenTo, h.symm]

theorem Given.addAccess (h : m.Given grants) (name : String) (crud : Nat) :
    (m.addAccess name crud false true).Given (grants ++ [(name, crud)]) := by
  have hlookup (n : String) : (m.addAccess name crud false true).baseMap.lookup n =
      if n = name then some (addedTo crud false (m.baseMap.lookup n)) else m.baseMap.lookup n :=
    OrderedMap.lookup_alter _ _ _ _
  refine ⟨h.isDba, h.accessMap, fun n => ?_, fun n access hn => ?_⟩
  · rw [hlookup, givenTo_append]
    split
    · rename_i heq
      cases heq
      have hperm : (givenTo name grants ++ [crud]).Perm (crud :: givenTo name grants) :=
        List.perm_append_singleton _ _
      rw [givenTo_self, merged_perm hperm]
      cases hold : m.baseMap.lookup name with
      | none =>
        have hnone := h.rights name
        rw [hold] at hnone
        match hl : givenTo name grants with
        | [] => rfl
        | [a] => rw [hl] at hnone; cases hnone
        | a :: b :: l => rw [hl] at hnone; cases hnone
      | some access =>
        have hsome := h.rights name
        rw [hold] at hsome
        rw [merged_cons hsome.symm]
        rfl
    · rename_i hne
      rw [givenTo_of_ne hne, List.append_nil, h.rights]
  · rw [hlookup] at hn
    split at hn
    · cases hn
      cases m.baseMap.lookup n with
      | none => rfl
      | some access => rfl
    · exact h.canGive n access hn

theorem Given.addAccessPoint (h : m.Given grants) (name : String) (crud : Nat) :
    (m.addAccessPoint im name crud).Given (grants ++ pointGrants im name crud) := by
  unfold AccessMap.addAccessPoint pointGrants InterfaceMaps.hasInterface
    InterfaceMaps.hasObjectName InterfaceMaps.getObjectNameForInterface
    InterfaceMaps.getInterfaceNameForObject
  by_cases hempty : name.isEmpty = true
  · simp only [hempty, if_true, List.append_nil]
    split
    · exact h
    · split
      · exact h
      · exact h
  · simp only [hempty, Bool.false_eq_true, if_false]
    cases hschema : im.nameToSchema.lookup name with
    | some s =>
      simp only [Option.isSome_some, if_true, Option.map_some]
      by_cases hobject : s.associatedObjectName = ""
      · rw [if_neg (not_not.mpr hobject), if_pos hobject]
        exact h.addAccess name Crud.read
      · rw [if_pos hobject, if_neg hobject, ← List.append_assoc]
        exact (h.addAccess _ crud).addAccess name Crud.read
    | none =>
      simp only [Option.isSome_none, Bool.false_eq_true, if_false]
      cases hobject : im.objNameToName.lookup name with
      | some interfaceName =>
        have hgiven := (h.addAccess name crud).addAccess interfaceName Crud.read
        rw [List.append_assoc] at hgiven
        exact hgiven
      | none =>
        rw [List.append_nil]
        exact h

theorem Given.foldl (h : m.Given grants) (ap : OrderedMap String Nat) (l : List String) :
    (l.foldl (fun m name => m.addAccessPoint im name ((ap.lookup name).getD 0)) m).Given
      (grants ++ l.flatMap fun name => pointGrants im name ((ap.lookup name).getD 0)) := by
  induction l generalizing m grants with
  | nil =>
    rw [List.flatMap_nil, List.append_nil]
    exact h
  | cons name l ih =>
    rw [List.foldl_cons, List.flatMap_cons, ← List.append_assoc]
    exact ih (h.addAccessPoint name _)

theorem given_resetForSchema (h : m.isDba = false) (schemaName : String) :
    (m.resetForSchema im os schemaName).Given
      ((schemaName, Crud.read) :: schemaGrants im (os.getSchema schemaName).namesInSchema) := by
  let cleared : AccessMap :=
    { m.reset with baseMap := Finmap.insert schemaName (Crud.read, false) ∅ }
  have hread : cleared.Given [(schemaName, Crud.read)] := by
    refine ⟨h, rfl, fun name => ?_, ?_⟩
    · simp only [cleared, OrderedMap.lookup_insert_eq, Finmap.lookup_empty]
      split
      · rename_i heq
        rw [heq, givenTo_self]
        rfl
      · rename_i hne
        rw [givenTo_of_ne hne]
        rfl
    · intro name access hlookup
      simp only [cleared, OrderedMap.lookup_insert_eq, Finmap.lookup_empty] at hlookup
      split at hlookup
      · cases hlookup
        rfl
      · cases hlookup
  exact hread.foldl (os.getSchema schemaName).namesInSchema _

-- ---------------------------------------------------------------------------
-- When the privilege makes no difference
-- ---------------------------------------------------------------------------

/-- All rights of a privilege are among these, and the right to read is. -/
def Covers (x crud : Nat) : Prop :=
  x = Crud.procedureOnly ∨ canRead x = true ∧ x &&& crud = crud

theorem getCrudFromName_mem (name : String) : getCrudFromName name ∈
    [Crud.create, Crud.read, Crud.update, Crud.delete, Crud.noAccess] := by
  unfold getCrudFromName
  split
  · simp
  · split
    · simp
    · split
      · simp
      · split <;> simp

theorem getCrudFromName_read_iff : getCrudFromName name = Crud.read ↔ name = "Read" := by
  unfold getCrudFromName
  split
  · rename_i h
    rw [h]
    decide
  · split
    · rename_i h
      simp [h]
    · rename_i h
      simp only [h, iff_false]
      split
      · decide
      · split <;> decide

theorem and_flag (x i : Nat) : x &&& 2 ^ i = 2 ^ i ↔ x &&& 2 ^ i ≠ 0 := by
  rw [Nat.and_two_pow]
  cases x.testBit i with
  | true => simp
  | false => simp [(Nat.two_pow_pos i).ne]

theorem and_eq_self (x : Nat) :
    (x &&& Crud.create = Crud.create ↔ canCreate x = true) ∧
      (x &&& Crud.update = Crud.update ↔ canUpdate x = true) ∧
        (x &&& Crud.delete = Crud.delete ↔ canDelete x = true) := by
  simp only [canCreate, canUpdate, canDelete, decide_eq_true_iff]
  exact ⟨and_flag x 0, and_flag x 2, and_flag x 3⟩

theorem or_left_inj : ∀ a b c : Bool, (a || c) = (b || c) ↔ (c = false → a = b) := by decide

theorem bits_inj : ∀ c r u d c' r' u' d' : Bool,
    (if c then Crud.create else 0) + (if r then Crud.read else 0) +
        (if u then Crud.update else 0) + (if d then Crud.delete else 0) =
      (if c' then Crud.create else 0) + (if r' then Crud.read else 0) +
        (if u' then Crud.update else 0) + (if d' then Crud.delete else 0) ↔
    (c = c' ∧ r = r') ∧ u = u' ∧ d = d' := by
  decide

theorem mergeCruds_inj (ha : crud ≠ Crud.procedureOnly) (hb : crud' ≠ Crud.procedureOnly)
    (hx : x ≠ Crud.procedureOnly) :
    mergeCruds crud x = mergeCruds crud' x ↔
      ((canCreate x = false → canCreate crud = canCreate crud') ∧
        (canRead x = false → canRead crud = canRead crud')) ∧
      (canUpdate x = false → canUpdate crud = canUpdate crud') ∧
        (canDelete x = false → canDelete crud = canDelete crud') := by
  rw [mergeCruds, mergeCruds, if_neg (not_or.mpr ⟨ha, hx⟩), if_neg (not_or.mpr ⟨hb, hx⟩), bits_inj,
    or_left_inj, or_left_inj, or_left_inj, or_left_inj]

theorem mergeCruds_read_iff (hcrud : crud ∈
    [Crud.create, Crud.read, Crud.update, Crud.delete, Crud.noAccess]) :
    mergeCruds crud x = mergeCruds Crud.read x ↔ crud = Crud.read ∨ Covers x crud := by
  obtain ⟨hcreate, hupdate, hdelete⟩ := and_eq_self x
  have hnone : x &&& Crud.noAccess = Crud.noAccess ↔ true = true := by simp [Crud.noAccess]
  by_cases hx : x = Crud.procedureOnly
  · rw [hx]
    simp [mergeCruds, Covers]
  · simp only [List.mem_cons, List.not_mem_nil, or_false] at hcrud
    obtain rfl | rfl | rfl | rfl | rfl := hcrud
    · rw [mergeCruds_inj (by decide) (by decide) hx, Covers, or_iff_right hx, hcreate]
      generalize canCreate x = c, canRead x = r, canUpdate x = u, canDelete x = d
      revert c r u d
      decide
    · simp
    · rw [mergeCruds_inj (by decide) (by decide) hx, Covers, or_iff_right hx, hupdate]
      generalize canCreate x = c, canRead x = r, canUpdate x = u, canDelete x = d
      revert c r u d
      decide
    · rw [mergeCruds_inj (by decide) (by decide) hx, Covers, or_iff_right hx, hdelete]
      generalize canCreate x = c, canRead x = r, canUpdate x = u, canDelete x = d
      revert c r u d
      decide
    · rw [mergeCruds_inj (by decide) (by decide) hx, Covers, or_iff_right hx, hnone]
      generalize canCreate x = c, canRead x = r, canUpdate x = u, canDelete x = d
      revert c r u d
      decide

theorem merged_read_iff (hcrud : crud ∈
    [Crud.create, Crud.read, Crud.update, Crud.delete, Crud.noAccess]) :
    merged (crud :: cruds) = merged (Crud.read :: cruds) ↔
      crud = Crud.read ∨ ∃ x, merged cruds = some x ∧ Covers x crud := by
  cases hx : merged cruds with
  | none =>
    match cruds with
    | [] => simp [merged]
    | [a] => cases hx
    | a :: b :: l => cases hx
  | some x =>
    rw [merged_cons hx, merged_cons hx, Option.some.injEq, mergeCruds_read_iff hcrud]
    simp

end AccessMap

-- ---------------------------------------------------------------------------
-- What the query has found
-- ---------------------------------------------------------------------------

namespace Privilege

variable {α : Type} {p p₀ : Privilege} {fields : List QueryResult}

def itemOf (key : String) : QueryResult → Option QueryResult
  | .binder name item => if Text.name name = key then some item else none
  | _ => none

/-- The item of the last binder of a name. -/
def lastItem (key : String) : List QueryResult → Option QueryResult
  | [] => none
  | r :: rest => (lastItem key rest).or (itemOf key r)

theorem read_lastItem (key : String) (f : Privilege → α) (value : QueryResult → α)
    (hother : ∀ p name item p', name ≠ key → readBinder p name item = .ok p' → f p' = f p)
    (hkey : ∀ p item p', readBinder p key item = .ok p' → f p' = value item)
    (h : p₀.read fields = .ok p) : f p = ((lastItem key fields).map value).getD (f p₀) := by
  induction fields generalizing p₀ with
  | nil =>
    cases h
    rfl
  | cons r fields ih =>
    cases r with
    | binder name item =>
      rw [read] at h
      cases hread : p₀.readBinder (Text.name name) item with
      | error e =>
        rw [hread] at h
        cases h
      | ok p₁ =>
        rw [hread] at h
        rw [ih h, lastItem]
        cases lastItem key fields with
        | some item' => rfl
        | none =>
          by_cases hname : Text.name name = key
          · rw [hname] at hread
            simp [itemOf, hname, hkey _ _ _ hread]
          · simp [itemOf, hname, hother _ _ _ _ hname hread]
    | _ => cases h

/-- The row of a privilege that is stored. -/
structure IsRow (fields : List QueryResult) (priv schema : Text) (grantOption : Int) : Prop where
  privName : lastItem "priv_name" fields = some (.string priv)
  objectName : lastItem "object_name" fields = some (.string schema)
  grantOption : lastItem "grant_option" fields = some (.int grantOption)

variable {priv schema : Text} {grantOption : Int}

/-- The item of a binder whose value is the text of a string. -/
def stringOf : QueryResult → String
  | .string s => Text.name s
  | _ => ""

def isOne : QueryResult → Bool
  | .int v => v = 1
  | _ => false

theorem readBinder_ok {name : String} {item : QueryResult}
    (h : p₀.readBinder name item = .ok p) : p =
      { privName := if name = "priv_name" then stringOf item else p₀.privName
        objectName := if name = "object_name" then stringOf item else p₀.objectName
        canGive := if name = "grant_option" then isOne item else p₀.canGive } := by
  unfold readBinder at h
  split at h
  · split at h
    · cases h
      simp [*, stringOf]
    · cases h
  · split at h
    · split at h
      · cases h
        simp [*, stringOf]
      · cases h
    · split at h
      · split at h
        · cases h
          simp [*, isOne]
        · cases h
      · cases h
        simp [*]

theorem read_row (hrow : IsRow fields priv schema grantOption) (h : read {} fields = .ok p) :
    p = { privName := Text.name priv, objectName := Text.name schema,
          canGive := grantOption = 1 } := by
  have hpriv := read_lastItem "priv_name" privName stringOf
    (fun p name item p' hne hr => by rw [readBinder_ok hr, if_neg hne])
    (fun p item p' hr => by rw [readBinder_ok hr, if_pos rfl]) h
  have hobject := read_lastItem "object_name" objectName stringOf
    (fun p name item p' hne hr => by rw [readBinder_ok hr, if_neg hne])
    (fun p item p' hr => by rw [readBinder_ok hr, if_pos rfl]) h
  have hgrant := read_lastItem "grant_option" canGive isOne
    (fun p name item p' hne hr => by rw [readBinder_ok hr, if_neg hne])
    (fun p item p' hr => by rw [readBinder_ok hr, if_pos rfl]) h
  rw [hrow.privName] at hpriv
  rw [hrow.objectName] at hobject
  rw [hrow.grantOption] at hgrant
  obtain ⟨privName, objectName, canGive⟩ := p
  simp only at hpriv hobject hgrant
  rw [hpriv, hobject, hgrant]
  rfl

end Privilege

namespace AccessMap

variable {im : InterfaceMaps} {os : OuterSchemas} {m m' : AccessMap} {username : String}
  {execute_locally : AccessMap → AccessMap × QueryResult}

/-- The map has the rights that the privilege and the schema give and no others, and the schema
may be given on if the privilege says so. -/
structure MatchesGrant (im : InterfaceMaps) (os : OuterSchemas) (m : AccessMap)
    (priv schema : String) (grantOption : Int) : Prop where
  rights : ∀ name, (m.baseMap.lookup name).map Prod.fst = merged (givenTo name
    ((schema, getCrudFromName priv) :: schemaGrants im (os.getSchema schema).namesInSchema))
  canGive : m.canGiveAccess schema = true ↔ grantOption = 1

/-- Of a call that returns 0. -/
theorem given_resetForUser {fields : List QueryResult}
    (hdba : (execute_locally m.validated).1.isDba = m.validated.isDba) (huser : username ≠ "root")
    (hres : (execute_locally m.validated).2 = .struct fields)
    (h : m.resetForUser im os execute_locally username = (m', none)) :
    ∃ p, Privilege.read {} fields = .ok p ∧
      m'.Given ((p.objectName, Crud.read) ::
        schemaGrants im (os.getSchema p.objectName).namesInSchema) := by
  unfold resetForUser at h
  rw [if_neg huser] at h
  simp only [hres] at h
  split at h
  · cases h
  · rename_i p hread
    refine ⟨p, hread, ?_⟩
    split at h
    · cases h
    · split at h
      · cases h
      · cases h
        have hgiven : ((execute_locally m.validated).1.addAccess p.objectName
            (getCrudFromName p.privName) p.canGive true).isDba = false := hdba
        obtain ⟨hdba', hempty, hrights, hgive⟩ :=
          @given_resetForSchema im os _ hgiven p.objectName
        exact ⟨hdba', hempty, hrights, hgive⟩

theorem canGiveAccess_of_given (h : m.Given grants) (name : String) :
    m.canGiveAccess name = false := by
  unfold canGiveAccess
  rw [h.isDba, h.accessMap, Finmap.lookup_empty]
  simp only [Bool.false_eq_true, if_false]
  split
  · rename_i hlookup
    exact h.canGive _ _ hlookup
  · rfl

theorem matchesGrant_iff {fields : List QueryResult} {priv schema : Text} {grantOption : Int}
    (hdba : (execute_locally m.validated).1.isDba = m.validated.isDba) (huser : username ≠ "root")
    (hres : (execute_locally m.validated).2 = .struct fields)
    (hrow : Privilege.IsRow fields priv schema grantOption)
    (h : m.resetForUser im os execute_locally username = (m', none)) :
    MatchesGrant im os m' (Text.name priv) (Text.name schema) grantOption ↔
      grantOption ≠ 1 ∧ (Text.name priv = "Read" ∨ ∃ x,
        merged (givenTo (Text.name schema)
          (schemaGrants im (os.getSchema (Text.name schema)).namesInSchema)) = some x ∧
        Covers x (getCrudFromName (Text.name priv))) := by
  obtain ⟨p, hread, hgiven⟩ := given_resetForUser hdba huser hres h
  rw [Privilege.read_row hrow hread] at hgiven
  let grants := schemaGrants im (os.getSchema (Text.name schema)).namesInSchema
  have hself (crud : Nat) : givenTo (Text.name schema) ((Text.name schema, crud) :: grants) =
      crud :: givenTo (Text.name schema) grants := by
    simp [givenTo]
  have hother (crud : Nat) (name : String) (hne : name ≠ Text.name schema) :
      givenTo name ((Text.name schema, crud) :: grants) = givenTo name grants := by
    simp [givenTo, hne.symm]
  have hrights : (∀ name, (m'.baseMap.lookup name).map Prod.fst = merged (givenTo name
      ((Text.name schema, getCrudFromName (Text.name priv)) :: grants))) ↔
      merged (getCrudFromName (Text.name priv) :: givenTo (Text.name schema) grants) =
        merged (Crud.read :: givenTo (Text.name schema) grants) := by
    constructor
    · intro hall
      have heq := (hall (Text.name schema)).symm.trans (hgiven.rights _)
      rw [hself] at heq
      exact heq.trans (congrArg merged (hself _))
    · intro heq name
      refine (hgiven.rights name).trans ?_
      by_cases hname : name = Text.name schema
      · rw [hname, hself, ← heq, ← hself]
      · rw [hother _ _ hname]
        exact congrArg merged (hother _ _ hname).symm
  have hcan := canGiveAccess_of_given hgiven (Text.name schema)
  rw [← getCrudFromName_read_iff, ← merged_read_iff (getCrudFromName_mem _), ← hrights]
  constructor
  · rintro ⟨hmap, hgive⟩
    refine ⟨fun hone => ?_, hmap⟩
    rw [hgive.mpr hone] at hcan
    cases hcan
  · rintro ⟨hone, hmap⟩
    refine ⟨hmap, iff_of_false ?_ hone⟩
    rw [hcan]
    exact Bool.false_ne_true

def text (s : String) : Text := s.toList.map fun c => Fin.ofNat 256 c.toNat

/-- The privilege to read a schema, as it is found in the store. -/
def readRow (schema : String) (grantOption : Int) : List QueryResult :=
  [.binder (text "priv_name") (.string (text "Read")),
    .binder (text "object_name") (.string (text schema)),
    .binder (text "grant_option") (.int grantOption)]

/-- A schema with an interface whose objects may be read and created. -/
def staff : OuterSchemas where
  outerSchemas := Finmap.singleton "staff"
    { name := "staff", namesInSchema := Finmap.singleton "IPerson" (Crud.create + Crud.read) }
  schemasValidity := Finmap.singleton "staff" .valid

def persons : InterfaceMaps where
  nameToSchema := Finmap.singleton "IPerson" { name := "IPerson", associatedObjectName := "person" }
  objNameToName := Finmap.singleton "person" "IPerson"

theorem isRow_readRow (grantOption : Int) :
    Privilege.IsRow (readRow "staff" grantOption) (text "Read") (text "staff") grantOption :=
  ⟨rfl, rfl, rfl⟩

theorem resetForUser_readRow (grantOption : Int) :
    ∃ m', resetForUser persons staff {} (fun m => (m, .struct (readRow "staff" grantOption)))
      "clerk" = (m', none) := by
  refine ⟨_, rfl⟩

theorem matchesGrant_readRow :
    ∃ m', resetForUser persons staff {} (fun m => (m, .struct (readRow "staff" 0))) "clerk" =
      (m', none) ∧ MatchesGrant persons staff m' (Text.name (text "Read"))
        (Text.name (text "staff")) 0 := by
  obtain ⟨m', h⟩ := resetForUser_readRow 0
  have hread : Text.name (text "Read") = "Read" := rfl
  exact ⟨m', h, (matchesGrant_iff rfl (by decide) rfl (isRow_readRow 0) h).mpr
    ⟨by decide, .inl hread⟩⟩

/-- A schema that was granted with the right to grant it cannot be granted. -/
theorem canGiveAccess_lost :
    ∃ m', resetForUser persons staff {} (fun m => (m, .struct (readRow "staff" 1))) "clerk" =
      (m', none) ∧ Privilege.IsRow (readRow "staff" 1) (text "Read") (text "staff") 1 ∧
        m'.canGiveAccess (Text.name (text "staff")) = false := by
  obtain ⟨m', h⟩ := resetForUser_readRow 1
  obtain ⟨p, -, hgiven⟩ := given_resetForUser rfl (by decide) rfl h
  exact ⟨m', h, isRow_readRow 1, canGiveAccess_of_given hgiven _⟩

end AccessMap

end Loxim.QueryExecutor
