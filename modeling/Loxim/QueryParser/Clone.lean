import Loxim.QueryParser.StaticEval

/-!
# Copies of a query

Every class of nodes has a `clone` of its own, which lists the fields by hand. What the methods
do with a node is here one row for each class: which node is made, which of the attributes that
every node has are copied, and which nodes it points to. Of pointers that a constructor leaves
as they are in memory it is noted that they were not set.
-/

namespace Loxim.QueryParser.Cloning

abbrev Addr := Nat

-- ---------------------------------------------------------------------------
-- Nodes
-- ---------------------------------------------------------------------------

inductive TransactionOp
  | begin | end | abort
deriving DecidableEq

inductive DmlInst
  | reload | tcoff | tcon
deriving DecidableEq

inductive CondOp
  | ifElsee | iff | whilee
deriving DecidableEq

inductive CreateType
  | create | update | createOrUpdate
deriving DecidableEq

/-- With `atomType` or `typeName`, whichever is not empty. -/
inductive SignatureKind
  | atomic (atomType : String)
  | ref (typeName : String)
  | defType (typeName : String)
  | complex
deriving DecidableEq

inductive Privilige
  | read | modify | create | delete
deriving DecidableEq

/-- The fields of an `InterfaceNode`. -/
structure Interface where
  interfaceName : String
  objectName : String
  attributes : List String
  methods : List (String × List String)
  supers : List String
deriving DecidableEq

/-- The fields of a `SchemaNode`. -/
structure Schema where
  name : String
  isFullyDefined : Bool
  accessPoints : List (String × Int)
  interfaces : List (String × Interface × Int)
deriving DecidableEq

/-- The class of a node, with the fields of the class that do not point to nodes. A `double` is
given by its bits. -/
inductive NodeClass
  | nameNode (name : String)
  | paramNode (name : String)
  | intNode (value : Int)
  | refidNode (value : Int)
  | stringNode (value : String)
  | doubleNode (value : BitVec 64)
  | nameAsNode (name : String) (group : Bool)
  | unOpNode (op : UnOp)
  | coerceNode (cType : Int)
  | algOpNode (op : Optimizer.AlgOp)
  | nonAlgOpNode (op : Optimizer.NonAlgOp)
  | transactNode (op : TransactionOp)
  | dmlNode (inst : DmlInst)
  | createNode (name : String) (classMember : Bool)
  | linkNode (nodeName ip : String) (port : Int)
  /-- Both fields are not set by the constructor. -/
  | remoteNode (lid : Option Addr) (deref : Option Bool)
  | condNode (op : CondOp)
  | fixPointNode (names : List String) (partsNumb : Nat)
  | returnNode
  | virtualizeAsNode (name : String)
  | throwExceptionNode
  | procedureNode (name : String) (params : List String) (paramsNumb : Nat)
  | registerProcNode
  | registerViewNode
  | registerClassNode (createType : CreateType)
  | callProcNode (name : String) (partsNumb : Nat)
  | vectorNode
  | viewNode (name : String)
  | classNode (createType : CreateType) (name invariant : String)
  | classCastNode
  | instanceOfNode
  | excludesNode
  | includesNode
  | signatureNode (sigKind : SignatureKind)
  | objectDeclareNode (name card : String)
  | structureTypeNode
  | typeDefNode (name : String) (isDistinct : Bool)
  | simpleCastNode
  | validationNode (login passwd : String)
  | priviligeListNode (priv : Privilige)
  | nameListNode (name : String)
  | grantPrivNode (user : String) (withGrantOption : Bool)
  | revokePrivNode (user : String)
  | createUserNode (user passwd : String)
  | removeUserNode (user : String)
  | interfaceAttribute (name : String)
  | interfaceAttributes (fields : List String)
  | interfaceMethodParams (fields : List String)
  | interfaceMethod (name : String) (params : List String)
  | interfaceMethods (methods : List (String × List String))
  | interfaceNode (interface : Interface)
  | interfacesWithCrud (interfaces : List (String × Interface × Int))
  | registerInterfaceNode (interface : Interface) (createType : CreateType)
  | interfaceBind (interfaceName implementationName : String)
  | crud (crud : Int) (default : Bool)
  | schemaAPs (accessPoints : List (String × Int))
  | schemaBinds (binds : List (String × String))
  | schemaNode (schema : Schema)
  | registerSchemaNode (schema : Schema) (createType : CreateType)
  | schemaExpImpNode (isExport : Bool) (schemaName : String)
  | indexSelectNode (name : String) (constraints : Addr)
deriving DecidableEq

/-- A field that points to a node, or to several. -/
inductive Field
  | arg | larg | rarg | condition | query | subQuery | queries | code | virtualObjects
  | procedures | subviews | objects | «extends» | fields | staticFields | staticProcedures
  | sig | signature | subDeclarations | privList | nameList
deriving DecidableEq

/-- What `copyAttrsOf` copies. -/
structure Attrs where
  oid : Nat
  coerceFlag : Bool := false
  coerceActions : List Int := []
  coerceSig : Option Addr := none
deriving DecidableEq

mutual

/-- A node in memory. -/
inductive Node
  | mk (addr : Addr) (attrs : Attrs) (cls : NodeClass) (children : Children)
  /-- What a pointer points to that was not set. -/
  | unset

/-- The nodes that the fields point to. Where a field is missing, its pointer is null. -/
inductive Children
  | nil
  | cons (field : Field) (node : Node) (rest : Children)

end

namespace Children

def length : Children → Nat
  | nil => 0
  | cons _ _ rest => rest.length + 1

def has (f : Field) : Children → Bool
  | nil => false
  | cons g _ rest => g = f || rest.has f

def append : Children → Children → Children
  | nil, others => others
  | cons f n rest, others => cons f n (rest.append others)

def without (f : Field) : Children → Children
  | nil => nil
  | cons g n rest => if g = f then rest.without f else cons g n (rest.without f)

end Children

-- ---------------------------------------------------------------------------
-- The methods
-- ---------------------------------------------------------------------------

/-- Which attributes the copy has. -/
inductive Copied
  /-- A copy constructor. -/
  | all
  /-- `copyAttrsOf`. -/
  | attrs
  /-- `setOid`. -/
  | oid
  | none
deriving DecidableEq

/-- What the copy points to. -/
inductive Pointers
  /-- Copies of the first nodes. -/
  | first (n : Nat)
  /-- The same nodes. -/
  | same (children : Children)

structure Copy where
  cls : NodeClass
  copied : Copied
  pointers : Pointers

namespace Copy

def leaf (copied : Copied) (cls : NodeClass) : Copy := ⟨cls, copied, .first 0⟩

def deep (children : Children) (copied : Copied) (cls : NodeClass) : Copy :=
  ⟨cls, copied, .first children.length⟩

end Copy

/-- The `clone` of each class. -/
def copyOf (children : Children) : NodeClass → Copy
  | .nameNode name => .leaf .attrs (.nameNode name)
  | .paramNode name => .leaf .attrs (.paramNode name)
  | .intNode value => .leaf .attrs (.intNode value)
  | .refidNode value => .leaf .attrs (.refidNode value)
  | .stringNode value => .leaf .attrs (.stringNode value)
  | .doubleNode value => .leaf .attrs (.doubleNode value)
  | .nameAsNode name group => .deep children .attrs (.nameAsNode name group)
  | .unOpNode op => .deep children .attrs (.unOpNode op)
  | .coerceNode cType => .deep children .attrs (.coerceNode cType)
  | .algOpNode op => .deep children .attrs (.algOpNode op)
  | .nonAlgOpNode op => .deep children .attrs (.nonAlgOpNode op)
  | .transactNode op => .leaf .attrs (.transactNode op)
  | .dmlNode inst => .leaf .oid (.dmlNode inst)
  -- of the constructors that of a name and an argument is used
  | .createNode name _ => .deep children .attrs (.createNode name false)
  | .linkNode nodeName ip port => .leaf .none (.linkNode nodeName ip port)
  | .remoteNode _ _ => .leaf .none (.remoteNode none none)
  | .condNode op => .deep children .attrs (.condNode op)
  | .fixPointNode names partsNumb =>
    ⟨.fixPointNode (names.take partsNumb) partsNumb, .attrs, .first partsNumb⟩
  | .returnNode => .deep children .none .returnNode
  | .virtualizeAsNode name =>
    if children.has .query then .deep children .none (.virtualizeAsNode name)
    else ⟨.virtualizeAsNode "", .none, .same (.cons .query .unset (.cons .subQuery .unset .nil))⟩
  | .throwExceptionNode => .deep children .none .throwExceptionNode
  | .procedureNode name params paramsNumb =>
    ⟨.procedureNode name params paramsNumb, .none, .same children⟩
  | .registerProcNode => .deep children .none .registerProcNode
  | .registerViewNode => .deep children .none .registerViewNode
  | .registerClassNode createType => .deep children .none (.registerClassNode createType)
  | .callProcNode name partsNumb =>
    ⟨.callProcNode name partsNumb, .none, .first partsNumb⟩
  | .vectorNode => .deep children .none .vectorNode
  | .viewNode name =>
    ⟨.viewNode name, .none,
      .same ((children.without .virtualObjects).append (.cons .virtualObjects .unset .nil))⟩
  | .classNode createType name invariant =>
    .deep children .none (.classNode createType name invariant)
  | .classCastNode => .deep children .none .classCastNode
  | .instanceOfNode => .deep children .none .instanceOfNode
  | .excludesNode => .deep children .none .excludesNode
  | .includesNode => .deep children .none .excludesNode
  | .signatureNode sigKind =>
    if children.has .arg then .deep children .attrs (.signatureNode .complex)
    else .leaf .attrs (.signatureNode sigKind)
  | .objectDeclareNode name card => .deep children .attrs (.objectDeclareNode name card)
  | .structureTypeNode => .deep children .attrs .structureTypeNode
  | .typeDefNode name isDistinct => .deep children .attrs (.typeDefNode name isDistinct)
  | .simpleCastNode => .deep children .attrs .simpleCastNode
  | .validationNode login passwd => .leaf .none (.validationNode login passwd)
  | .priviligeListNode priv => .deep children .none (.priviligeListNode priv)
  | .nameListNode name => .deep children .none (.nameListNode name)
  | .grantPrivNode user withGrantOption =>
    .deep children .none (.grantPrivNode user withGrantOption)
  | .revokePrivNode user => .deep children .none (.revokePrivNode user)
  | .createUserNode user passwd => .leaf .none (.createUserNode user passwd)
  | .removeUserNode user => .leaf .none (.removeUserNode user)
  | .interfaceAttribute name => .leaf .none (.interfaceAttribute name)
  | .interfaceAttributes fields => .leaf .all (.interfaceAttributes fields)
  | .interfaceMethodParams fields => .leaf .all (.interfaceMethodParams fields)
  | .interfaceMethod name params => .leaf .all (.interfaceMethod name params)
  | .interfaceMethods methods => .leaf .all (.interfaceMethods methods)
  | .interfaceNode interface => .leaf .all (.interfaceNode interface)
  | .interfacesWithCrud interfaces => .leaf .all (.interfacesWithCrud interfaces)
  | .registerInterfaceNode interface createType =>
    .leaf .all (.registerInterfaceNode interface createType)
  | .interfaceBind interfaceName implementationName =>
    .leaf .all (.interfaceBind interfaceName implementationName)
  | .crud crud default => .leaf .all (.crud crud default)
  | .schemaAPs accessPoints => .leaf .all (.schemaAPs accessPoints)
  | .schemaBinds binds => .leaf .all (.schemaBinds binds)
  | .schemaNode schema => .leaf .all (.schemaNode schema)
  | .registerSchemaNode schema createType => .leaf .all (.registerSchemaNode schema createType)
  | .schemaExpImpNode isExport schemaName => .leaf .all (.schemaExpImpNode isExport schemaName)
  | .indexSelectNode _ constraints => .leaf .none (.indexSelectNode "" constraints)

/-- The next free address and the number that the next node gets. -/
structure Heap where
  addr : Addr
  uv : Nat

/-- The attributes of a copy; `fresh` is the number the constructor gave it. -/
def Attrs.copy (a : Attrs) (fresh : Nat) : Copied → Attrs
  | .all => a
  | .attrs => a
  | .oid => { oid := a.oid }
  | .none => { oid := fresh }

/-- A node has an `id` and an `oid`; a copy constructor gives no numbers. -/
def Heap.alloc (h : Heap) (copied : Copied) : Heap :=
  ⟨h.addr + 1, if copied = .all then h.uv else h.uv + 2⟩

mutual

def Node.clone : Node → Heap → Node × Heap
  | .unset, h => (.unset, h)
  | .mk _ attrs cls children, h =>
    let copy := copyOf children cls
    let (children', h) := match copy.pointers with
      | .first n => children.clone n h
      | .same children => (children, h)
    (.mk h.addr (attrs.copy (h.uv + 1) copy.copied) copy.cls children', h.alloc copy.copied)

def Children.clone : Children → Nat → Heap → Children × Heap
  | .nil, _, h => (.nil, h)
  | .cons _ _ _, 0, h => (.nil, h)
  | .cons f node rest, n + 1, h =>
    let (node', h) := node.clone h
    let (rest', h) := rest.clone n h
    (.cons f node' rest', h)

end

-- ---------------------------------------------------------------------------
-- Trees as they are built
-- ---------------------------------------------------------------------------

/-- The fields of the class that point to nodes. -/
def NodeClass.fields : NodeClass → List Field
  | .nameAsNode .. | .unOpNode _ | .coerceNode _ | .createNode .. | .signatureNode .complex => [.arg]
  | .algOpNode _ | .nonAlgOpNode _ | .classCastNode | .instanceOfNode | .excludesNode
  | .includesNode => [.larg, .rarg]
  | .condNode _ => [.condition, .larg, .rarg]
  | .fixPointNode .. | .callProcNode .. | .vectorNode => [.queries]
  | .returnNode | .throwExceptionNode | .registerProcNode | .registerViewNode
  | .registerClassNode _ => [.query]
  | .virtualizeAsNode _ => [.query, .subQuery]
  | .procedureNode .. => [.code]
  | .viewNode _ => [.virtualObjects, .procedures, .subviews, .objects]
  | .classNode .. => [.extends, .fields, .staticFields, .procedures, .staticProcedures]
  | .objectDeclareNode .. | .typeDefNode .. => [.signature]
  | .structureTypeNode => [.subDeclarations]
  | .simpleCastNode => [.arg, .sig]
  | .priviligeListNode _ => [.privList]
  | .nameListNode _ => [.nameList]
  | .grantPrivNode .. | .revokePrivNode _ => [.privList, .nameList]
  | _ => []

/-- Those of them that are never null. -/
def NodeClass.required : NodeClass → List Field
  | .createNode .. | .fixPointNode .. | .callProcNode .. | .vectorNode | .returnNode
  | .virtualizeAsNode _ | .classNode .. | .objectDeclareNode .. | .typeDefNode ..
  | .structureTypeNode | .priviligeListNode _ | .nameListNode _ => []
  | .condNode _ => [.condition, .larg]
  | .viewNode _ => [.virtualObjects]
  | cls => cls.fields

/-- Where the parts are counted. -/
def NodeClass.counts (children : Children) : NodeClass → Prop
  | .fixPointNode names partsNumb =>
    names.length = partsNumb ∧ partsNumb = children.length
  | .callProcNode _ partsNumb => partsNumb = children.length
  | _ => True

def Children.names : Children → List Field
  | .nil => []
  | .cons f _ rest => f :: rest.names

mutual

/-- Each node has the fields of its class, and all pointers were set. -/
def Node.WellFormed : Node → Prop
  | .unset => False
  | .mk _ _ cls children =>
    ((∀ f ∈ children.names, f ∈ cls.fields) ∧ (∀ f ∈ cls.required, f ∈ children.names) ∧
      cls.counts children) ∧ children.WellFormed

def Children.WellFormed : Children → Prop
  | .nil => True
  | .cons _ node rest => node.WellFormed ∧ rest.WellFormed

end

-- ---------------------------------------------------------------------------
-- What a copy is to be
-- ---------------------------------------------------------------------------

/-- The nodes whose numbers the optimiser looks for: a name, and what a name is bound in. -/
def NodeClass.compared : NodeClass → Bool
  | .nameNode _ => true
  | .nameAsNode .. => true
  | _ => false

def Attrs.SameCoercion (a b : Attrs) : Prop :=
  a.coerceFlag = b.coerceFlag ∧ a.coerceActions = b.coerceActions ∧ a.coerceSig = b.coerceSig

mutual

/-- Nodes of one class with equal fields, that point to such nodes. -/
def Node.Same : Node → Node → Prop
  | .mk _ a cls children, .mk _ a' cls' children' =>
    (cls = cls' ∧ a.SameCoercion a' ∧ (cls.compared → a.oid = a'.oid)) ∧ children.Same children'
  | _, _ => False

def Children.Same : Children → Children → Prop
  | .nil, .nil => True
  | .cons f node rest, .cons f' node' rest' => f = f' ∧ node.Same node' ∧ rest.Same rest'
  | _, _ => False

end

mutual

/-- The destructor of each class deletes all nodes that the fields point to. -/
def Node.addrs : Node → List Addr
  | .unset => []
  | .mk addr _ _ children => addr :: children.addrs

def Children.addrs : Children → List Addr
  | .nil => []
  | .cons _ node rest => node.addrs ++ rest.addrs

end

/-- The copy says the same as the tree, and no node is deleted with both of them. -/
structure Faithful (t t' : Node) : Prop where
  same : t.Same t'
  separate : t.addrs.Disjoint t'.addrs

/-- The node has no attributes of a coercion. -/
def Attrs.Uncoerced (a : Attrs) : Prop :=
  a.coerceFlag = false ∧ a.coerceActions = [] ∧ a.coerceSig = none

/-- The nodes that `clone` copies as they are. -/
def NodeClass.Copyable (a : Attrs) (children : Children) : NodeClass → Prop
  | .includesNode => False
  | .viewNode _ => False
  | .procedureNode .. => False
  | .createNode _ classMember => classMember = false
  | .virtualizeAsNode _ => children.has .query ∧ a.Uncoerced
  | .remoteNode lid deref => (lid = none ∧ deref = none) ∧ a.Uncoerced
  | .indexSelectNode name _ => name = "" ∧ a.Uncoerced
  | .dmlNode _ | .linkNode .. | .returnNode | .throwExceptionNode | .registerProcNode
  | .registerViewNode | .registerClassNode _ | .callProcNode .. | .vectorNode | .classNode ..
  | .classCastNode | .instanceOfNode | .excludesNode | .validationNode .. | .priviligeListNode _
  | .nameListNode _ | .grantPrivNode .. | .revokePrivNode _ | .createUserNode ..
  | .removeUserNode _ | .interfaceAttribute _ => a.Uncoerced
  | _ => True

mutual

def Node.Copyable : Node → Prop
  | .unset => False
  | .mk _ a cls children => cls.Copyable a children ∧ children.Copyable

def Children.Copyable : Children → Prop
  | .nil => True
  | .cons _ node rest => node.Copyable ∧ rest.Copyable

end

-- ---------------------------------------------------------------------------
-- The rows
-- ---------------------------------------------------------------------------

def Children.nodes : Children → List Node
  | .nil => []
  | .cons _ node rest => node :: rest.nodes

theorem Children.length_of_names {children : Children} (h : children.names = []) :
    children.length = 0 := by
  cases children with
  | nil => rfl
  | cons f node rest => cases h

theorem Children.has_iff {f : Field} : (children : Children) →
    (children.has f = true ↔ f ∈ children.names)
  | nil => by simp [has, names]
  | cons g _ rest => by
    simp only [has, names, Bool.or_eq_true, decide_eq_true_eq, List.mem_cons, has_iff rest]
    rw [eq_comm]

theorem Attrs.sameCoercion_copy {a : Attrs} {fresh : Nat} {copied : Copied} :
    a.SameCoercion (a.copy fresh copied) ↔ (copied = .all ∨ copied = .attrs) ∨ a.Uncoerced := by
  cases copied <;> simp [SameCoercion, copy, Uncoerced]

theorem Attrs.oid_copy {a : Attrs} {fresh : Nat} {copied : Copied} (h : copied = .attrs) :
    a.oid = (a.copy fresh copied).oid := by
  rw [h]
  rfl

/-- Of a leaf nothing is left out. -/
theorem no_children {cls : NodeClass} {children : Children}
    (hf : ∀ f ∈ children.names, f ∈ cls.fields) (h : cls.fields = []) : children.length = 0 := by
  refine Children.length_of_names (List.eq_nil_iff_forall_not_mem.mpr ?_)
  intro f hm
  have := hf f hm
  rw [h] at this
  cases this

/-- The row of a node that is copied as it is. -/
structure Copies (children : Children) (a : Attrs) (cls : NodeClass) (copy : Copy) : Prop where
  sameClass : copy.cls = cls
  attrs : (copy.copied = .all ∨ copy.copied = .attrs) ∨ a.Uncoerced
  compared : cls.compared → copy.copied = .attrs
  pointers : ∃ n, children.length ≤ n ∧ copy.pointers = .first n

theorem copies_of_copyable {a : Attrs} {cls : NodeClass} {children : Children}
    (hf : ∀ f ∈ children.names, f ∈ cls.fields) (hr : ∀ f ∈ cls.required, f ∈ children.names)
    (hn : cls.counts children) (h : cls.Copyable a children) :
    Copies children a cls (copyOf children cls) := by
  have hleaf (hc : cls.fields = []) : children.length ≤ 0 := Nat.le_of_eq (no_children hf hc)
  cases cls with
  | nameNode | paramNode | intNode | refidNode | stringNode | doubleNode | transactNode =>
    exact ⟨rfl, .inl (.inr rfl), fun _ => rfl, _, hleaf rfl, rfl⟩
  | nameAsNode | unOpNode | coerceNode | algOpNode | nonAlgOpNode | condNode | objectDeclareNode
  | structureTypeNode | typeDefNode | simpleCastNode =>
    exact ⟨rfl, .inl (.inr rfl), fun _ => rfl, _, Nat.le_refl _, rfl⟩
  | returnNode | throwExceptionNode | registerProcNode | registerViewNode | registerClassNode
  | vectorNode | classNode | classCastNode | instanceOfNode | excludesNode | priviligeListNode
  | nameListNode | grantPrivNode | revokePrivNode =>
    exact ⟨rfl, .inr h, Bool.noConfusion, _, Nat.le_refl _, rfl⟩
  | dmlNode | linkNode | validationNode | createUserNode | removeUserNode | interfaceAttribute =>
    exact ⟨rfl, .inr h, Bool.noConfusion, _, hleaf rfl, rfl⟩
  | interfaceAttributes | interfaceMethodParams | interfaceMethod | interfaceMethods
  | interfaceNode | interfacesWithCrud | registerInterfaceNode | interfaceBind | crud | schemaAPs
  | schemaBinds | schemaNode | registerSchemaNode | schemaExpImpNode =>
    exact ⟨rfl, .inl (.inl rfl), Bool.noConfusion, _, hleaf rfl, rfl⟩
  | includesNode | viewNode | procedureNode => exact h.elim
  | createNode name classMember =>
    cases h
    exact ⟨rfl, .inl (.inr rfl), fun _ => rfl, _, Nat.le_refl _, rfl⟩
  | remoteNode lid deref =>
    obtain ⟨⟨rfl, rfl⟩, ha⟩ := h
    exact ⟨rfl, .inr ha, Bool.noConfusion, _, hleaf rfl, rfl⟩
  | indexSelectNode name constraints =>
    obtain ⟨rfl, ha⟩ := h
    exact ⟨rfl, .inr ha, Bool.noConfusion, _, hleaf rfl, rfl⟩
  | callProcNode name partsNumb =>
    exact ⟨rfl, .inr h, Bool.noConfusion, _, Nat.le_of_eq hn.symm, rfl⟩
  | fixPointNode names partsNumb =>
    have htake : names.take partsNumb = names := List.take_of_length_le (Nat.le_of_eq hn.1)
    simp only [copyOf, htake]
    exact ⟨rfl, .inl (.inr rfl), fun _ => rfl, _, Nat.le_of_eq hn.2.symm, rfl⟩
  | virtualizeAsNode name =>
    simp only [copyOf, if_pos h.1]
    exact ⟨rfl, .inr h.2, Bool.noConfusion, _, Nat.le_refl _, rfl⟩
  | signatureNode sigKind =>
    cases sigKind with
    | complex =>
      have harg := (Children.has_iff children).mpr (hr .arg List.mem_cons_self)
      simp only [copyOf, if_pos harg]
      exact ⟨rfl, .inl (.inr rfl), fun _ => rfl, _, Nat.le_refl _, rfl⟩
    | atomic | ref | defType =>
      have harg : ¬ children.has .arg = true :=
        fun h => List.not_mem_nil (hf _ ((Children.has_iff children).mp h))
      simp only [copyOf, if_neg harg]
      exact ⟨rfl, .inl (.inr rfl), fun _ => rfl, _, hleaf rfl, rfl⟩

/-- Where the row copies the node as it is, the node is one of those that are copied so. -/
theorem copyable_of_copies {a : Attrs} {cls : NodeClass} {children : Children} {n : Nat}
    (hc : (copyOf children cls).cls = cls)
    (ha : ((copyOf children cls).copied = .all ∨ (copyOf children cls).copied = .attrs) ∨
      a.Uncoerced)
    (hp : (copyOf children cls).pointers = .first n) : cls.Copyable a children := by
  have fresh {copied : Copied} (hcopied : copied = .none ∨ copied = .oid)
      (ha : (copied = .all ∨ copied = .attrs) ∨ a.Uncoerced) : a.Uncoerced := by
    refine ha.resolve_left ?_
    rcases hcopied with rfl | rfl <;> simp
  cases cls with
  | includesNode => cases hc
  | viewNode | procedureNode => cases hp
  | createNode name classMember => exact (NodeClass.createNode.inj hc).2.symm
  | remoteNode lid deref =>
    obtain ⟨hlid, hderef⟩ := NodeClass.remoteNode.inj hc
    exact ⟨⟨hlid.symm, hderef.symm⟩, fresh (.inl rfl) ha⟩
  | indexSelectNode name constraints =>
    exact ⟨(NodeClass.indexSelectNode.inj hc).1.symm, fresh (.inl rfl) ha⟩
  | virtualizeAsNode name =>
    simp only [copyOf] at hp ha
    split at hp
    · rename_i hq
      rw [if_pos hq] at ha
      exact ⟨hq, fresh (.inl rfl) ha⟩
    · cases hp
  | dmlNode => exact fresh (.inr rfl) ha
  | returnNode | throwExceptionNode | registerProcNode | registerViewNode | registerClassNode
  | vectorNode | classNode | classCastNode | instanceOfNode | excludesNode | priviligeListNode
  | nameListNode | grantPrivNode | revokePrivNode | linkNode | validationNode | createUserNode
  | removeUserNode | interfaceAttribute | callProcNode => exact fresh (.inl rfl) ha
  | _ => trivial

-- ---------------------------------------------------------------------------
-- Trees that are copied
-- ---------------------------------------------------------------------------

mutual

theorem Node.addr_le_clone (t : Node) (h : Heap) : h.addr ≤ (t.clone h).2.addr := by
  cases t with
  | unset => exact Nat.le_refl _
  | mk addr a cls children =>
    simp only [Node.clone]
    split
    · exact (Children.addr_le_clone children _ h).trans (Nat.le_succ _)
    · exact Nat.le_succ _

theorem Children.addr_le_clone (children : Children) (n : Nat) (h : Heap) :
    h.addr ≤ (children.clone n h).2.addr := by
  cases children with
  | nil => exact Nat.le_refl _
  | cons f node rest =>
    cases n with
    | zero => exact Nat.le_refl _
    | succ n =>
      exact (Node.addr_le_clone node h).trans (Children.addr_le_clone rest n _)

end

mutual

/-- The copy of a tree of such nodes is like the tree, and all its nodes are new. -/
theorem Node.clone_of_copyable (t : Node) (hw : t.WellFormed) (hc : t.Copyable) (h : Heap) :
    t.Same (t.clone h).1 ∧ ∀ a ∈ (t.clone h).1.addrs, h.addr ≤ a := by
  cases t with
  | unset => exact hc.elim
  | mk addr a cls children =>
    obtain ⟨⟨hf, hr, hn⟩, hwc⟩ := hw
    have hcopies := copies_of_copyable hf hr hn hc.1
    obtain ⟨n, hle, hp⟩ := hcopies.pointers
    have hch := Children.clone_of_copyable children hwc hc.2 n hle h
    simp only [Node.clone, hp, Node.addrs]
    refine ⟨⟨⟨hcopies.sameClass.symm, Attrs.sameCoercion_copy.mpr hcopies.attrs, ?_⟩, hch.1⟩, ?_⟩
    · exact fun hcmp => Attrs.oid_copy (hcopies.compared hcmp)
    · intro b hb
      cases hb with
      | head => exact Children.addr_le_clone children n h
      | tail _ hb => exact hch.2 b hb

theorem Children.clone_of_copyable (children : Children) (hw : children.WellFormed)
    (hc : children.Copyable) (n : Nat) (hn : children.length ≤ n) (h : Heap) :
    children.Same (children.clone n h).1 ∧ ∀ a ∈ (children.clone n h).1.addrs, h.addr ≤ a := by
  cases children with
  | nil => exact ⟨trivial, fun _ ha => absurd ha List.not_mem_nil⟩
  | cons f node rest =>
    cases n with
    | zero => exact absurd hn (Nat.not_succ_le_zero _)
    | succ n =>
      have hnode := Node.clone_of_copyable node hw.1 hc.1 h
      have hrest := Children.clone_of_copyable rest hw.2 hc.2 n (Nat.le_of_succ_le_succ hn)
        (node.clone h).2
      refine ⟨⟨rfl, hnode.1, hrest.1⟩, ?_⟩
      intro a ha
      cases List.mem_append.mp ha with
      | inl ha => exact hnode.2 a ha
      | inr ha => exact (Node.addr_le_clone node h).trans (hrest.2 a ha)

end

-- ---------------------------------------------------------------------------
-- Trees that are not
-- ---------------------------------------------------------------------------

theorem Node.not_same_unset (t : Node) : ¬ t.Same .unset := by
  cases t <;> exact id

theorem Children.not_same_unset : (children children' : Children) →
    .unset ∈ children'.nodes → ¬ children.Same children'
  | .cons _ node rest, .cons _ node' rest', hm, hs => by
    cases hm with
    | head => exact node.not_same_unset hs.2.1
    | tail _ hm => exact not_same_unset rest rest' hm hs.2.2
  | .nil, .cons .., _, hs => hs
  | .nil, .nil, hm, _ => List.not_mem_nil hm
  | .cons .., .nil, hm, _ => List.not_mem_nil hm

theorem Children.nodes_append : (children others : Children) →
    (children.append others).nodes = children.nodes ++ others.nodes
  | .nil, _ => rfl
  | .cons _ node rest, others => congrArg (node :: ·) (nodes_append rest others)

theorem Children.addrs_ne_nil {children : Children} {f : Field} (hw : children.WellFormed)
    (h : f ∈ children.names) : children.addrs ≠ [] := by
  cases children with
  | nil => cases h
  | cons g node rest =>
    cases node with
    | unset => exact hw.1.elim
    | mk => exact List.cons_ne_nil _ _

/-- Where a row does not copy the nodes below, the copy is not faithful. -/
theorem not_same_pointers {a : Attrs} {cls : NodeClass} {children children' : Children}
    (hw : (Node.mk 0 a cls children).WellFormed)
    (hp : (copyOf children cls).pointers = .same children') (hs : children.Same children') :
    ¬ children.addrs.Disjoint children'.addrs := by
  cases cls with
  | viewNode name =>
    cases hp
    refine absurd hs (Children.not_same_unset _ _ ?_)
    rw [Children.nodes_append]
    exact List.mem_append_right _ List.mem_cons_self
  | virtualizeAsNode name =>
    simp only [copyOf] at hp
    split at hp
    · cases hp
    · cases hp
      exact absurd hs (Children.not_same_unset _ _ List.mem_cons_self)
  | procedureNode name params paramsNumb =>
    cases hp
    obtain ⟨⟨-, hr, -⟩, hwc⟩ := hw
    have hne := Children.addrs_ne_nil hwc (hr .code List.mem_cons_self)
    obtain ⟨b, l, hb⟩ := List.exists_cons_of_ne_nil hne
    intro hd
    have hm : b ∈ children.addrs := hb ▸ List.mem_cons_self
    exact hd hm hm
  | signatureNode sigKind =>
    simp only [copyOf] at hp
    split at hp <;> cases hp
  | _ => cases hp

mutual

theorem Node.copyable_of_faithful (t : Node) (hw : t.WellFormed) (h : Heap)
    (hs : t.Same (t.clone h).1) (hd : t.addrs.Disjoint (t.clone h).1.addrs) : t.Copyable := by
  cases t with
  | unset => exact hw.elim
  | mk addr a cls children =>
    simp only [Node.clone] at hs hd
    cases hp : (copyOf children cls).pointers with
    | first n =>
      rw [hp] at hs hd
      obtain ⟨⟨hcls, hco, -⟩, hsc⟩ := hs
      refine ⟨copyable_of_copies hcls.symm (Attrs.sameCoercion_copy.mp hco) hp, ?_⟩
      refine Children.copyable_of_faithful children hw.2 n h hsc ?_
      exact fun b hb hb' => hd (List.mem_cons_of_mem _ hb) (List.mem_cons_of_mem _ hb')
    | same children' =>
      rw [hp] at hs hd
      refine absurd ?_ (not_same_pointers (a := a) hw hp hs.2)
      exact fun b hb hb' => hd (List.mem_cons_of_mem _ hb) (List.mem_cons_of_mem _ hb')

theorem Children.copyable_of_faithful (children : Children) (hw : children.WellFormed) (n : Nat)
    (h : Heap) (hs : children.Same (children.clone n h).1)
    (hd : children.addrs.Disjoint (children.clone n h).1.addrs) : children.Copyable := by
  cases children with
  | nil => trivial
  | cons f node rest =>
    cases n with
    | zero => exact hs.elim
    | succ n =>
      constructor
      · refine Node.copyable_of_faithful node hw.1 h hs.2.1 ?_
        exact fun b hb hb' => hd (List.mem_append_left _ hb) (List.mem_append_left _ hb')
      · refine Children.copyable_of_faithful rest hw.2 n _ hs.2.2 ?_
        exact fun b hb hb' => hd (List.mem_append_right _ hb) (List.mem_append_right _ hb')

end

-- ---------------------------------------------------------------------------
-- Copies of a query
-- ---------------------------------------------------------------------------

/-- `create 5 as n`. -/
def createQuery : Node :=
  .mk 2 { oid := 5 } (.createNode "" false)
    (.cons .arg
      (.mk 1 { oid := 3 } (.nameAsNode "n" false)
        (.cons .arg (.mk 0 { oid := 1 } (.intNode 5) .nil) .nil)) .nil)

/-- `c includes x`. -/
def includesQuery : Node :=
  .mk 2 { oid := 5 } .includesNode
    (.cons .larg (.mk 0 { oid := 1 } (.nameNode "c") .nil)
      (.cons .rarg (.mk 1 { oid := 3 } (.nameNode "x") .nil) .nil))

end Loxim.QueryParser.Cloning
