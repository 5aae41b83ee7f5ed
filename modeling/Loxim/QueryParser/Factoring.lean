import Loxim.QueryParser.NameScopes

/-!
# The factoring of subqueries ends

Each factoring adds a dot, an auxiliary name and its use, and so makes the tree larger. What
decreases is the number of subqueries that stand where an operator looks for one, not counted those
under a dot that was added: its argument uses the auxiliary name, and when it is moved the name
is not bound any more.
-/

namespace Loxim.QueryParser.Optimizer

-- ---------------------------------------------------------------------------
-- One factoring
-- ---------------------------------------------------------------------------

/-- The subqueries that are looked at when one is to be moved out of an operator. -/
inductive Picked : Tree → Found → Prop
  | here {o op larg rarg} : Picked (.nonAlgOp o op larg rarg) ⟨.nonAlgOp o op larg rarg, id⟩
  | algLeft {o op larg rarg i} (h : Picked larg i) :
      Picked (.algOp o op larg rarg) (i.under (.algOp o op · rarg))
  | algRight {o op larg rarg i} (h : Picked rarg i) :
      Picked (.algOp o op larg rarg) (i.under (.algOp o op larg ·))
  | unOp {o op arg i} (h : Picked arg i) : Picked (.unOp o op arg) (i.under (.unOp o op ·))

/-- A tree and what one factoring makes of it. -/
inductive Moved (uv : Oid) (newName : String) : Tree → Factored → Prop
  | here {o op larg rarg i} (h : Picked rarg i) :
      Moved uv newName (.nonAlgOp o op larg rarg)
        ⟨o, i.tree.oid, factorSubQuery uv newName (.nonAlgOp o op larg ·) i⟩
  | as {o arg n g d} (h : Moved uv newName arg d) :
      Moved uv newName (.as o arg n g) (d.under (.as o · n g))
  | unOp {o op arg d} (h : Moved uv newName arg d) :
      Moved uv newName (.unOp o op arg) (d.under (.unOp o op ·))
  | coerce {o c arg d} (h : Moved uv newName arg d) :
      Moved uv newName (.coerce o c arg) (d.under (.coerce o c ·))
  | castTo {o arg d} (h : Moved uv newName arg d) :
      Moved uv newName (.castTo o arg) (d.under (.castTo o ·))
  | algLeft {o op larg rarg d} (h : Moved uv newName larg d) :
      Moved uv newName (.algOp o op larg rarg) (d.under (.algOp o op · rarg))
  | algRight {o op larg rarg d} (h : Moved uv newName rarg d) :
      Moved uv newName (.algOp o op larg rarg) (d.under (.algOp o op larg ·))
  | nonAlgLeft {o op larg rarg d} (h : Moved uv newName larg d) :
      Moved uv newName (.nonAlgOp o op larg rarg) (d.under (.nonAlgOp o op · rarg))
  | nonAlgRight {o op larg rarg d} (h : Moved uv newName rarg d) :
      Moved uv newName (.nonAlgOp o op larg rarg) (d.under (.nonAlgOp o op larg ·))

theorem doGetIndep_picked {nodes : Nodes} {min max : Nat} {t : Tree} {depth : Nat} {i : Found}
    (h : (doGetIndep nodes min max t depth).1 = some i) : Picked t i := by
  induction t generalizing depth i with
  | nonAlgOp o op larg rarg =>
    simp only [doGetIndep] at h
    split at h
    · cases h
      exact .here
    · cases h
  | algOp o op larg rarg ihl ihr =>
    simp only [doGetIndep] at h
    split at h
    · obtain ⟨i', h', rfl⟩ := Option.map_eq_some_iff.mp h
      exact .algRight (ihr h')
    · rename_i lind hl hr
      cases h
      exact .algLeft (ihl hl)
    · rename_i lind rind hl hr
      split at h
      · cases h
        exact .algLeft (ihl hl)
      · cases h
        exact .algRight (ihr hr)
  | unOp o op arg ih =>
    simp only [doGetIndep] at h
    obtain ⟨i', h', rfl⟩ := Option.map_eq_some_iff.mp h
    exact .unOp (ih h')
  | _ => cases h

theorem optimizeTree_moved {nodes : Nodes} {uv : Oid} {newName : String} {t : Tree}
    {d : Factored} (h : optimizeTree nodes uv newName t = some d) : Moved uv newName t d := by
  induction t generalizing d with
  | «as» o arg n g ih =>
    obtain ⟨d', h', rfl⟩ := Option.map_eq_some_iff.mp h
    exact .as (ih h')
  | unOp o op arg ih =>
    obtain ⟨d', h', rfl⟩ := Option.map_eq_some_iff.mp h
    exact .unOp (ih h')
  | coerce o c arg ih =>
    obtain ⟨d', h', rfl⟩ := Option.map_eq_some_iff.mp h
    exact .coerce (ih h')
  | castTo o arg ih =>
    obtain ⟨d', h', rfl⟩ := Option.map_eq_some_iff.mp h
    exact .castTo (ih h')
  | algOp o op larg rarg ihl ihr =>
    simp only [optimizeTree] at h
    split at h
    · rename_i d' hl
      cases h
      exact .algLeft (ihl hl)
    · obtain ⟨d', h', rfl⟩ := Option.map_eq_some_iff.mp h
      exact .algRight (ihr h')
  | nonAlgOp o op larg rarg ihl ihr =>
    simp only [optimizeTree] at h
    split at h
    · rename_i hInd hi
      cases h
      exact .here (doGetIndep_picked hi)
    · split at h
      · rename_i d' hl
        cases h
        exact .nonAlgLeft (ihl hl)
      · obtain ⟨d', h', rfl⟩ := Option.map_eq_some_iff.mp h
        exact .nonAlgRight (ihr h')
  | _ => cases h

-- ---------------------------------------------------------------------------
-- Sums over the nodes
-- ---------------------------------------------------------------------------

/-- What a node does with a name. -/
inductive Kind
  | uses (name : String)
  | gives (name : String)
  | plain

def Kind.useOf (x : String) : Kind → Nat
  | uses n => if n = x then 1 else 0
  | gives _ => 0
  | plain => 0

def Kind.giftOf (x : String) : Kind → Nat
  | uses _ => 0
  | gives n => if n = x then 1 else 0
  | plain => 0

namespace Tree

/-- The sum of the weights of all nodes. -/
def total (w : Oid → Kind → Nat) : Tree → Nat
  | .name o n => w o (.uses n)
  | .value o _ => w o .plain
  | .as o arg n _ => arg.total w + w o (.gives n)
  | .unOp o _ arg => arg.total w + w o .plain
  | .coerce o _ arg => arg.total w + w o .plain
  | .castTo o arg => arg.total w + w o .plain
  | .algOp o _ larg rarg => larg.total w + rarg.total w + w o .plain
  | .nonAlgOp o _ larg rarg => larg.total w + rarg.total w + w o .plain
  | .other o => w o .plain

/-- How many nodes have the number. -/
def occurrences (o : Oid) : Tree → Nat := total fun p _ => if p = o then 1 else 0

def size : Tree → Nat := total fun _ _ => 1

/-- How many nodes use the name. -/
def uses (x : String) : Tree → Nat := total fun _ k => k.useOf x

@[simp] theorem uses_name (x : String) (o n) :
    (Tree.name o n).uses x = if n = x then 1 else 0 := rfl

@[simp] theorem uses_as (x : String) (o arg n g) : (Tree.as o arg n g).uses x = arg.uses x := rfl

@[simp] theorem uses_algOp (x : String) (o op larg rarg) :
    (Tree.algOp o op larg rarg).uses x = larg.uses x + rarg.uses x := rfl

@[simp] theorem uses_nonAlgOp (x : String) (o op larg rarg) :
    (Tree.nonAlgOp o op larg rarg).uses x = larg.uses x + rarg.uses x := rfl

theorem asCount_eq (x : String) (t : Tree) :
    t.asCount x = t.total fun _ k => k.giftOf x := by
  induction t with
  | name => rfl
  | value => rfl
  | «as» o arg n g ih => simp only [asCount, total, ih, Kind.giftOf]
  | unOp o op arg ih => simp only [asCount, total, ih, Kind.giftOf, Nat.add_zero]
  | coerce o c arg ih => simp only [asCount, total, ih, Kind.giftOf, Nat.add_zero]
  | castTo o arg ih => simp only [asCount, total, ih, Kind.giftOf, Nat.add_zero]
  | algOp o op larg rarg ihl ihr =>
    simp only [asCount, total, ihl, ihr, Kind.giftOf, Nat.add_zero]
  | nonAlgOp o op larg rarg ihl ihr =>
    simp only [asCount, total, ihl, ihr, Kind.giftOf, Nat.add_zero]
  | other => rfl

end Tree

theorem Picked.total {t : Tree} {i : Found} (h : Picked t i) (w) (s : Tree) :
    (i.plug s).total w + i.tree.total w = t.total w + s.total w := by
  induction h with
  | here => exact Nat.add_comm _ _
  | algLeft h ih =>
    simp only [Found.under, Tree.total]
    omega
  | algRight h ih =>
    simp only [Found.under, Tree.total]
    omega
  | unOp h ih =>
    simp only [Found.under, Tree.total]
    omega

theorem Picked.uses {t : Tree} {i : Found} (h : Picked t i) (x : String) (s : Tree) :
    (i.plug s).uses x + i.tree.uses x = t.uses x + s.uses x := h.total _ s

/-- Three nodes are new, and no other is lost. -/
theorem Moved.total {uv : Oid} {newName : String} {t : Tree} {d : Factored}
    (h : Moved uv newName t d) (w) :
    d.tree.total w =
      t.total w + w uv (.uses newName) + w (uv + 1) (.gives newName) + w (uv + 2) .plain := by
  induction h with
  | here hp =>
    have hs := hp.total w (.name uv newName)
    simp only [factorSubQuery, Tree.total] at hs ⊢
    omega
  | _ =>
    simp only [Factored.under, Tree.total]
    omega

theorem Moved.asCount {uv : Oid} {newName : String} {t : Tree} {d : Factored}
    (h : Moved uv newName t d) (x : String) :
    d.tree.asCount x = t.asCount x + if newName = x then 1 else 0 := by
  rw [Tree.asCount_eq, Tree.asCount_eq, h.total]
  rfl

theorem Moved.uses {uv : Oid} {newName : String} {t : Tree} {d : Factored}
    (h : Moved uv newName t d) (x : String) :
    d.tree.uses x = t.uses x + if newName = x then 1 else 0 := by
  unfold Tree.uses
  rw [h.total]
  rfl

theorem Moved.occurrences {uv : Oid} {newName : String} {t : Tree} {d : Factored}
    (h : Moved uv newName t d) (o : Oid) :
    d.tree.occurrences o =
      t.occurrences o + (if uv = o then 1 else 0) + (if uv + 1 = o then 1 else 0) +
        if uv + 2 = o then 1 else 0 := by
  unfold Tree.occurrences
  rw [h.total]

theorem Moved.size {uv : Oid} {newName : String} {t : Tree} {d : Factored}
    (h : Moved uv newName t d) : d.tree.size = t.size + 3 := h.total _

-- ---------------------------------------------------------------------------
-- Where an operator looks for a subquery
-- ---------------------------------------------------------------------------

namespace Tree

def isNonAlg : Tree → Bool
  | .nonAlgOp .. => true
  | _ => false

/-- The non-algebraic operators that are reached through algebraic and unary ones. -/
def heads : Tree → List Oid
  | .nonAlgOp o _ _ _ => [o]
  | .algOp _ _ larg rarg => larg.heads ++ rarg.heads
  | .unOp _ _ arg => arg.heads
  | _ => []

/-- The name an operator binds for its right argument. -/
def auxName : Tree → Option String
  | .as _ _ n _ => some n
  | _ => none

/-- The left argument of an operator gives one of the names. -/
def Guarded (G : Finset String) (larg : Tree) : Prop := ∃ x ∈ G, larg.auxName = some x

instance (G : Finset String) (larg : Tree) : Decidable (Guarded G larg) :=
  inferInstanceAs (Decidable (∃ x ∈ G, larg.auxName = some x))

/-- How many subqueries stand where an operator looks for one, but for the guarded operators. -/
def candidates (G : Finset String) : Tree → Nat
  | .as _ arg _ _ => arg.candidates G
  | .unOp _ _ arg => arg.candidates G
  | .coerce _ _ arg => arg.candidates G
  | .castTo _ arg => arg.candidates G
  | .algOp _ _ larg rarg => larg.candidates G + rarg.candidates G
  | .nonAlgOp _ _ larg rarg =>
    (if Guarded G larg then 0 else rarg.heads.length) + larg.candidates G + rarg.candidates G
  | _ => 0

/-- The right argument of a guarded operator is one that uses the name. -/
def GuardsUse (G : Finset String) : Tree → Prop
  | .as _ arg _ _ => arg.GuardsUse G
  | .unOp _ _ arg => arg.GuardsUse G
  | .coerce _ _ arg => arg.GuardsUse G
  | .castTo _ arg => arg.GuardsUse G
  | .algOp _ _ larg rarg => larg.GuardsUse G ∧ rarg.GuardsUse G
  | .nonAlgOp _ _ larg rarg =>
    (∀ x ∈ G, larg.auxName = some x → rarg.isNonAlg ∧ rarg.uses x ≠ 0) ∧
      larg.GuardsUse G ∧ rarg.GuardsUse G
  | _ => True

/-- How often the second operator stands where the first one looks for it. -/
def pairCount (c : Oid × Oid) : Tree → Nat
  | .as _ arg _ _ => arg.pairCount c
  | .unOp _ _ arg => arg.pairCount c
  | .coerce _ _ arg => arg.pairCount c
  | .castTo _ arg => arg.pairCount c
  | .algOp _ _ larg rarg => larg.pairCount c + rarg.pairCount c
  | .nonAlgOp o _ larg rarg =>
    (if o = c.1 then rarg.heads.count c.2 else 0) + larg.pairCount c + rarg.pairCount c
  | _ => 0

end Tree

section
variable {t : Tree} {i : Found}

theorem Picked.isNonAlg (h : Picked t i) : i.tree.isNonAlg := by
  induction h with
  | here => rfl
  | algLeft h ih => exact ih
  | algRight h ih => exact ih
  | unOp h ih => exact ih

/-- One head is gone. -/
theorem Picked.heads (h : Picked t i) (o : Oid) (n : String) :
    t.heads.Perm (i.tree.oid :: (i.plug (.name o n)).heads) := by
  induction h with
  | here => exact .refl _
  | algLeft h ih => exact ih.append_right _
  | @algRight _ _ larg rarg i h ih =>
    refine (ih.append_left larg.heads).trans ?_
    exact List.perm_middle
  | unOp h ih => exact ih

theorem Picked.candidates (h : Picked t i) (G : Finset String) (s : Tree) :
    (i.plug s).candidates G + i.tree.candidates G = t.candidates G + s.candidates G := by
  induction h with
  | here => exact Nat.add_comm _ _
  | algLeft h ih =>
    simp only [Found.under, Tree.candidates]
    omega
  | algRight h ih =>
    simp only [Found.under, Tree.candidates]
    omega
  | unOp h ih => exact ih

theorem Picked.pairCount (h : Picked t i) (c : Oid × Oid) (s : Tree) :
    (i.plug s).pairCount c + i.tree.pairCount c = t.pairCount c + s.pairCount c := by
  induction h with
  | here => exact Nat.add_comm _ _
  | algLeft h ih =>
    simp only [Found.under, Tree.pairCount]
    omega
  | algRight h ih =>
    simp only [Found.under, Tree.pairCount]
    omega
  | unOp h ih => exact ih

theorem Picked.guardsUse (h : Picked t i) {G : Finset String} (ht : t.GuardsUse G) {s : Tree}
    (hs : s.GuardsUse G) : (i.plug s).GuardsUse G ∧ i.tree.GuardsUse G := by
  induction h with
  | here => exact ⟨hs, ht⟩
  | algLeft h ih => exact ⟨⟨(ih ht.1).1, ht.2⟩, (ih ht.1).2⟩
  | algRight h ih => exact ⟨⟨ht.1, (ih ht.2).1⟩, (ih ht.2).2⟩
  | unOp h ih => exact ih ht

/-- An operator looks at a non-algebraic one as a whole. -/
theorem Picked.eq_self (h : Picked t i) (ht : t.isNonAlg) : i = ⟨t, id⟩ := by
  cases h with
  | here => rfl
  | _ => cases ht

end

-- ---------------------------------------------------------------------------
-- What a factoring leaves
-- ---------------------------------------------------------------------------

theorem Tree.unbound_of_uses {x : String} {t : Tree} (hu : t.uses x ≠ 0)
    (ha : t.asCount x = 0) : t.Unbound x := by
  induction t with
  | name o n =>
    show n = x
    simpa using hu
  | value => exact absurd rfl hu
  | «as» o arg n g ih =>
    simp only [asCount] at ha
    exact ih hu (by omega)
  | unOp o op arg ih => exact ih hu ha
  | coerce o c arg ih => exact ih hu ha
  | castTo o arg ih => exact ih hu ha
  | algOp o op larg rarg ihl ihr =>
    simp only [asCount, Nat.add_eq_zero_iff] at ha
    by_cases hl : larg.uses x = 0
    · refine .inr ⟨ha.1, ihr ?_ ha.2⟩
      simpa [hl] using hu
    · exact .inl (ihl hl ha.1)
  | nonAlgOp o op larg rarg ihl ihr =>
    simp only [asCount, Nat.add_eq_zero_iff] at ha
    by_cases hl : larg.uses x = 0
    · refine .inr ⟨ha.1, ihr ?_ ha.2⟩
      simpa [hl] using hu
    · exact .inl (ihl hl ha.1)
  | other => exact absurd rfl hu

section
variable {uv : Oid} {newName : String} {t : Tree} {d : Factored}

theorem Moved.auxName (h : Moved uv newName t d) : d.tree.auxName = t.auxName := by
  cases h <;> rfl

theorem Moved.isNonAlg (h : Moved uv newName t d) : d.tree.isNonAlg = t.isNonAlg := by
  cases h <;> rfl

theorem Moved.heads_length (h : Moved uv newName t d) :
    d.tree.heads.length = t.heads.length := by
  induction h with
  | here => rfl
  | unOp h ih => exact ih
  | algLeft h ih => simpa [Factored.under, Tree.heads] using ih
  | algRight h ih => simpa [Factored.under, Tree.heads] using ih
  | _ => rfl

/-- An operator that is not guarded loses a candidate. The dot that is put above it is guarded, if
its name is one of `G`. -/
theorem Picked.guards {G : Finset String} {o : Oid} {op : NonAlgOp} {larg rarg : Tree} {i : Found}
    (h : Picked rarg i) (hg : (Tree.nonAlgOp o op larg rarg).GuardsUse G)
    (hl : ¬ larg.Guarded G) :
    (factorSubQuery uv newName (.nonAlgOp o op larg ·) i).GuardsUse G ∧
      (factorSubQuery uv newName (.nonAlgOp o op larg ·) i).candidates G + 1 ≤
        (Tree.nonAlgOp o op larg rarg).candidates G + if newName ∈ G then 0 else 1 := by
  obtain ⟨-, hgl, hgr⟩ := hg
  obtain ⟨hplug, htree⟩ := h.guardsUse hgr (s := .name uv newName) trivial
  constructor
  · refine ⟨?_, htree, ?_, hgl, hplug⟩
    · intro x hx hn
      cases hn
      refine ⟨rfl, ?_⟩
      have hu := h.uses newName (.name uv newName)
      have hle := h.uses newName (.other 0)
      have h0 : (Tree.other 0).uses newName = 0 := rfl
      simp only [Tree.uses_name, Tree.uses_nonAlgOp, ↓reduceIte] at hu ⊢
      omega
    · intro x hx hn
      exact absurd ⟨x, hx, hn⟩ hl
  · have hc := h.candidates G (.name uv newName)
    have hh := (h.heads uv newName).length_eq
    have htop : Tree.Guarded G (.as (uv + 1) i.tree newName true) ↔ newName ∈ G := by
      simp [Tree.Guarded, Tree.auxName]
    simp only [factorSubQuery, Tree.candidates, Tree.heads, htop, if_neg hl, List.length_cons,
      List.length_nil, Nat.add_zero] at hc hh ⊢
    split <;> omega

/-- A guarded operator loses its argument, and with it the use of its name. -/
theorem Picked.unbound {G : Finset String} {o : Oid} {op : NonAlgOp} {larg rarg : Tree}
    {i : Found} (h : Picked rarg i) (hg : (Tree.nonAlgOp o op larg rarg).GuardsUse G)
    (hl : larg.Guarded G)
    (once : ∀ x ∈ G,
      (factorSubQuery uv newName (.nonAlgOp o op larg ·) i).asCount x ≤ 1) :
    ∃ x ∈ G, (factorSubQuery uv newName (.nonAlgOp o op larg ·) i).Unbound x ∧
      (factorSubQuery uv newName (.nonAlgOp o op larg ·) i).asCount x ≠ 0 := by
  obtain ⟨x, hx, hn⟩ := hl
  obtain ⟨hr, hu⟩ := hg.1 x hx hn
  obtain rfl := h.eq_self hr
  have hlarg : larg.asCount x ≠ 0 := by
    cases larg with
    | «as» o arg n g =>
      cases hn
      simp [Tree.asCount]
    | _ => cases hn
  have h1 := once x hx
  simp only [factorSubQuery, Tree.asCount] at h1
  have hrarg : rarg.Unbound x := Tree.unbound_of_uses hu (by omega)
  refine ⟨x, hx, .inl hrarg, ?_⟩
  simp only [factorSubQuery, Tree.asCount]
  omega

/-- Either the guards are kept and one candidate less is left, or a name is used before it is
given. -/
theorem Moved.guards {G : Finset String} (h : Moved uv newName t d) (hg : t.GuardsUse G)
    (once : ∀ x ∈ G, d.tree.asCount x ≤ 1) :
    (d.tree.GuardsUse G ∧
        d.tree.candidates G + 1 ≤ t.candidates G + if newName ∈ G then 0 else 1) ∨
      ∃ x ∈ G, d.tree.Unbound x ∧ d.tree.asCount x ≠ 0 := by
  induction h with
  | @here o op larg rarg i h =>
    by_cases hl : larg.Guarded G
    · exact .inr (h.unbound hg hl once)
    · exact .inl (h.guards hg hl)
  | @as o arg n g d h ih =>
    have once' : ∀ x ∈ G, d.tree.asCount x ≤ 1 := by
      intro x hx
      have := once x hx
      simp only [Factored.under, Tree.asCount] at this
      omega
    cases ih hg once' with
    | inl good => exact .inl good
    | inr bad =>
      obtain ⟨x, hx, hu, ha⟩ := bad
      refine .inr ⟨x, hx, hu, ?_⟩
      simp only [Factored.under, Tree.asCount]
      omega
  | unOp h ih => exact ih hg once
  | coerce h ih => exact ih hg once
  | castTo h ih => exact ih hg once
  | @algLeft o op larg rarg d h ih =>
    have once' : ∀ x ∈ G, d.tree.asCount x ≤ 1 := by
      intro x hx
      have := once x hx
      simp only [Factored.under, Tree.asCount] at this
      omega
    cases ih hg.1 once' with
    | inl good =>
      refine .inl ⟨⟨good.1, hg.2⟩, ?_⟩
      have := good.2
      simp only [Factored.under, Tree.candidates]
      omega
    | inr bad =>
      obtain ⟨x, hx, hu, ha⟩ := bad
      refine .inr ⟨x, hx, .inl hu, ?_⟩
      simp only [Factored.under, Tree.asCount]
      omega
  | @algRight o op larg rarg d h ih =>
    have once' : ∀ x ∈ G, d.tree.asCount x ≤ 1 := by
      intro x hx
      have := once x hx
      simp only [Factored.under, Tree.asCount] at this
      omega
    cases ih hg.2 once' with
    | inl good =>
      refine .inl ⟨⟨hg.1, good.1⟩, ?_⟩
      have := good.2
      simp only [Factored.under, Tree.candidates]
      omega
    | inr bad =>
      obtain ⟨x, hx, hu, ha⟩ := bad
      have h1 := once x hx
      simp only [Factored.under, Tree.asCount] at h1
      refine .inr ⟨x, hx, .inr ⟨by omega, hu⟩, ?_⟩
      simp only [Factored.under, Tree.asCount]
      omega
  | @nonAlgLeft o op larg rarg d h ih =>
    have once' : ∀ x ∈ G, d.tree.asCount x ≤ 1 := by
      intro x hx
      have := once x hx
      simp only [Factored.under, Tree.asCount] at this
      omega
    cases ih hg.2.1 once' with
    | inl good =>
      have hgu : Tree.Guarded G d.tree ↔ Tree.Guarded G larg := by
        unfold Tree.Guarded
        rw [h.auxName]
      refine .inl ⟨⟨by simpa [h.auxName] using hg.1, good.1, hg.2.2⟩, ?_⟩
      have := good.2
      simp only [Factored.under, Tree.candidates, hgu]
      omega
    | inr bad =>
      obtain ⟨x, hx, hu, ha⟩ := bad
      refine .inr ⟨x, hx, .inl hu, ?_⟩
      simp only [Factored.under, Tree.asCount]
      omega
  | @nonAlgRight o op larg rarg d h ih =>
    have once' : ∀ x ∈ G, d.tree.asCount x ≤ 1 := by
      intro x hx
      have := once x hx
      simp only [Factored.under, Tree.asCount] at this
      omega
    cases ih hg.2.2 once' with
    | inl good =>
      refine .inl ⟨⟨?_, hg.2.1, good.1⟩, ?_⟩
      · intro x hx hn
        obtain ⟨hr, hu⟩ := hg.1 x hx hn
        refine ⟨by rw [h.isNonAlg, hr], ?_⟩
        have := h.uses x
        omega
      · have := good.2
        simp only [Factored.under, Tree.candidates, h.heads_length]
        omega
    | inr bad =>
      obtain ⟨x, hx, hu, ha⟩ := bad
      have h1 := once x hx
      simp only [Factored.under, Tree.asCount] at h1
      refine .inr ⟨x, hx, .inr ⟨by omega, hu⟩, ?_⟩
      simp only [Factored.under, Tree.asCount]
      omega

end

-- ---------------------------------------------------------------------------
-- Which subquery was moved out of which operator
-- ---------------------------------------------------------------------------

namespace Tree

@[simp] theorem occurrences_as (p : Oid) (o arg n g) :
    (Tree.as o arg n g).occurrences p = arg.occurrences p + if o = p then 1 else 0 := rfl

@[simp] theorem occurrences_unOp (p : Oid) (o op arg) :
    (Tree.unOp o op arg).occurrences p = arg.occurrences p + if o = p then 1 else 0 := rfl

@[simp] theorem occurrences_coerce (p : Oid) (o c arg) :
    (Tree.coerce o c arg).occurrences p = arg.occurrences p + if o = p then 1 else 0 := rfl

@[simp] theorem occurrences_castTo (p : Oid) (o arg) :
    (Tree.castTo o arg).occurrences p = arg.occurrences p + if o = p then 1 else 0 := rfl

@[simp] theorem occurrences_algOp (p : Oid) (o op larg rarg) :
    (Tree.algOp o op larg rarg).occurrences p =
      larg.occurrences p + rarg.occurrences p + if o = p then 1 else 0 := rfl

@[simp] theorem occurrences_nonAlgOp (p : Oid) (o op larg rarg) :
    (Tree.nonAlgOp o op larg rarg).occurrences p =
      larg.occurrences p + rarg.occurrences p + if o = p then 1 else 0 := rfl

/-- An operator stands in one place. -/
theorem pairCount_add_heads_le (c : Oid × Oid) (t : Tree) :
    t.pairCount c + t.heads.count c.2 ≤ t.occurrences c.2 := by
  induction t with
  | name => exact Nat.zero_le _
  | value => exact Nat.zero_le _
  | «as» o arg n g ih =>
    simp only [pairCount, heads, List.count_nil, occurrences_as]
    omega
  | unOp o op arg ih =>
    simp only [pairCount, heads, occurrences_unOp]
    omega
  | coerce o ct arg ih =>
    simp only [pairCount, heads, List.count_nil, occurrences_coerce]
    omega
  | castTo o arg ih =>
    simp only [pairCount, heads, List.count_nil, occurrences_castTo]
    omega
  | algOp o op larg rarg ihl ihr =>
    simp only [pairCount, heads, List.count_append, occurrences_algOp]
    omega
  | nonAlgOp o op larg rarg ihl ihr =>
    simp only [pairCount, heads, List.count_singleton, beq_iff_eq, occurrences_nonAlgOp]
    split <;> omega
  | other => exact Nat.zero_le _

/-- The operator that looks for a subquery is a node of the tree. -/
theorem occurrences_of_pairCount {c : Oid × Oid} {t : Tree} (h : t.pairCount c ≠ 0) :
    t.occurrences c.1 ≠ 0 := by
  induction t with
  | name => exact absurd rfl h
  | value => exact absurd rfl h
  | «as» o arg n g ih =>
    have := ih h
    simp only [occurrences_as]
    omega
  | unOp o op arg ih =>
    have := ih h
    simp only [occurrences_unOp]
    omega
  | coerce o ct arg ih =>
    have := ih h
    simp only [occurrences_coerce]
    omega
  | castTo o arg ih =>
    have := ih h
    simp only [occurrences_castTo]
    omega
  | algOp o op larg rarg ihl ihr =>
    simp only [pairCount] at h
    simp only [occurrences_algOp]
    by_cases hl : larg.pairCount c = 0
    · have := ihr (by omega)
      omega
    · have := ihl hl
      omega
  | nonAlgOp o op larg rarg ihl ihr =>
    simp only [pairCount] at h
    simp only [occurrences_nonAlgOp]
    by_cases ho : o = c.1
    · rw [if_pos ho]
      omega
    · rw [if_neg ho] at h
      by_cases hl : larg.pairCount c = 0
      · have := ihr (by omega)
        omega
      · have := ihl hl
        omega
  | other => exact absurd rfl h

end Tree

/-- The subquery of the pair is moved out of the operator of the pair. -/
def Factored.moves (d : Factored) (c : Oid × Oid) : Nat :=
  if d.operator = c.1 ∧ d.subquery = c.2 then 1 else 0

@[simp] theorem Factored.under_moves (d : Factored) (f) (c) : (d.under f).moves c = d.moves c := rfl

@[simp] theorem Factored.under_tree (d : Factored) (f) : (d.under f).tree = f d.tree := rfl

section
variable {uv : Oid} {newName : String} {t : Tree} {d : Factored}

/-- The heads that were there before are no more often there. -/
theorem Moved.heads_count (h : Moved uv newName t d) {p : Oid} (hp : p < uv) :
    d.tree.heads.count p ≤ t.heads.count p := by
  induction h with
  | here =>
    have : ¬ uv + 2 = p := Nat.ne_of_gt (Nat.lt_add_right 2 hp)
    simp [factorSubQuery, Tree.heads, List.count_singleton, this]
  | unOp h ih => exact ih
  | algLeft h ih =>
    simp only [Factored.under, Tree.heads, List.count_append]
    omega
  | algRight h ih =>
    simp only [Factored.under, Tree.heads, List.count_append]
    omega
  | «as» => exact Nat.zero_le _
  | coerce => exact Nat.zero_le _
  | castTo => exact Nat.zero_le _
  | nonAlgLeft => exact Nat.le_refl _
  | nonAlgRight => exact Nat.le_refl _

/-- The subquery does not stand any more where it was taken from, and no other one has come. -/
theorem Moved.pairCount (h : Moved uv newName t d) {c : Oid × Oid} (h2 : c.2 < uv)
    (h1 : c.1 < uv) : d.tree.pairCount c + d.moves c ≤ t.pairCount c := by
  induction h with
  | @here o op larg rarg i h =>
    have hc := h.pairCount c (.name uv newName)
    have h0 : (Tree.name uv newName).pairCount c = 0 := rfl
    have hh := (h.heads uv newName).count_eq c.2
    have htop : ¬ uv + 2 = c.1 := Nat.ne_of_gt (Nat.lt_add_right 2 h1)
    simp only [factorSubQuery, Tree.pairCount, if_neg htop, Factored.moves]
    rw [List.count_cons] at hh
    by_cases ho : o = c.1
    · by_cases hs : i.tree.oid = c.2
      · simp only [ho, hs, beq_self_eq_true, ↓reduceIte, and_self] at hh ⊢
        omega
      · simp only [ho, hs, beq_iff_eq, ↓reduceIte, and_false] at hh ⊢
        omega
    · simp only [ho, ↓reduceIte, false_and]
      omega
  | algLeft h ih =>
    simp only [Tree.pairCount, Factored.under_moves, Factored.under_tree]
    omega
  | algRight h ih =>
    simp only [Tree.pairCount, Factored.under_moves, Factored.under_tree]
    omega
  | nonAlgLeft h ih =>
    simp only [Tree.pairCount, Factored.under_moves, Factored.under_tree]
    omega
  | nonAlgRight h ih =>
    have := h.heads_count h2
    simp only [Tree.pairCount, Factored.under_moves, Factored.under_tree]
    split <;> omega
  | _ h ih => exact ih

/-- The subquery stood where it was taken from. -/
theorem Moved.pair_pos (h : Moved uv newName t d) :
    t.pairCount (d.operator, d.subquery) ≠ 0 := by
  induction h with
  | @here o op larg rarg i h =>
    have hh := (h.heads uv newName).count_eq i.tree.oid
    simp only [List.count_cons_self] at hh
    simp only [Tree.pairCount, ↓reduceIte]
    omega
  | algLeft h ih =>
    simp only [Factored.under, Tree.pairCount] at ih ⊢
    omega
  | algRight h ih =>
    simp only [Factored.under, Tree.pairCount] at ih ⊢
    omega
  | nonAlgLeft h ih =>
    simp only [Factored.under, Tree.pairCount] at ih ⊢
    omega
  | nonAlgRight h ih =>
    simp only [Factored.under, Tree.pairCount] at ih ⊢
    omega
  | _ h ih => exact ih

end

end Loxim.QueryParser.Optimizer
