import Mathlib.Algebra.BigOperators.Group.List.Basic
import Mathlib.Algebra.Order.Group.Multiset
import Mathlib.Data.Multiset.AddSub
import Mathlib.Logic.Relation
import Loxim.Indexes.BTree

/-!
# The leaves of a B-tree

What `addEntry` does to a tree is told by its leaves from left to right and by the
addresses of its inner nodes: a leaf is cleaned, cut in two, joined or balanced with
the next one, and at last one leaf takes the entry. Nothing else happens to what is
stored.
-/

namespace Loxim.Indexes

variable {K C : Type}

def Inner.children (node : Inner K C) : List C := node.firstChild :: node.entries.map (·.child)

namespace BTree

/-- The leaves under a node, from left to right. -/
def leaves : (n : Nat) → Node K n → List (Leaf K)
  | 0, leaf => [leaf]
  | n + 1, node => (Inner.children node).flatMap (leaves n)

/-- The addresses of the inner nodes. -/
def innerIDs : (n : Nat) → Node K n → Multiset NodeAddress
  | 0, _ => 0
  | n + 1, node => Inner.id node ::ₘ ((Inner.children node).map (innerIDs n)).sum

def Place.children (p : Place K C) : List C :=
  p.passed.map Prod.fst ++ p.child :: p.rest.map (·.child)

/-- What the nodes of one level hold. -/
def leavesOf (n : Nat) (nodes : List (Node K n)) : List (Leaf K) := nodes.flatMap (leaves n)

def innerOf (n : Nat) (nodes : List (Node K n)) : Multiset NodeAddress := (nodes.map (innerIDs n)).sum

section

variable {n : Nat}

@[simp] theorem leavesOf_append (a b : List (Node K n)) :
    leavesOf n (a ++ b) = leavesOf n a ++ leavesOf n b := List.flatMap_append

@[simp] theorem leavesOf_cons (a : Node K n) (b : List (Node K n)) :
    leavesOf n (a :: b) = leaves n a ++ leavesOf n b := rfl

@[simp] theorem leavesOf_nil : leavesOf n ([] : List (Node K n)) = [] := rfl

@[simp] theorem innerOf_append (a b : List (Node K n)) :
    innerOf n (a ++ b) = innerOf n a + innerOf n b := by
  simp [innerOf]

@[simp] theorem innerOf_cons (a : Node K n) (b : List (Node K n)) :
    innerOf n (a :: b) = innerIDs n a + innerOf n b := by
  simp [innerOf]

@[simp] theorem innerOf_nil : innerOf n ([] : List (Node K n)) = 0 := rfl

@[simp] theorem leaves_zero (leaf : Leaf K) : leaves 0 leaf = [leaf] := rfl

@[simp] theorem innerIDs_zero (leaf : Leaf K) : innerIDs 0 leaf = 0 := rfl

/-- A node seen from the level below. -/
theorem leavesOf_one (node : Inner K (Node K n)) :
    leavesOf (n + 1) [node] = leavesOf n node.children := List.append_nil _

theorem innerOf_one (node : Inner K (Node K n)) :
    innerOf (n + 1) [node] = node.id ::ₘ innerOf n node.children := add_zero _

theorem leavesOf_two (a b : Inner K (Node K n)) :
    leavesOf (n + 1) [a, b] = leavesOf n (a.children ++ b.children) := by
  rw [leavesOf_append, ← leavesOf_one, ← leavesOf_one, ← leavesOf_append]
  rfl

theorem innerOf_two (a b : Inner K (Node K n)) :
    innerOf (n + 1) [a, b] = b.id ::ₘ a.id ::ₘ innerOf n (a.children ++ b.children) := by
  have hsum : innerOf (n + 1) [a, b] = innerOf (n + 1) [a] + innerOf (n + 1) [b] :=
    innerOf_append (n := n + 1) [a] [b]
  rw [hsum, innerOf_one, innerOf_one, innerOf_append, Multiset.add_cons, Multiset.cons_add]

end

-- ---------------------------------------------------------------------------
-- Changes
-- ---------------------------------------------------------------------------

/-- A tree seen from its leaves, with what else `addEntry` changes. -/
structure Flat (K : Type) where
  leaves : List (Leaf K)
  inner : Multiset NodeAddress
  resolver : VisibilityResolver
  pages : Pages

/-- A change that no entry is added in. -/
inductive Change (cmp : Comparator K) (index : Lid) : Flat K → Flat K → Prop
  | clean {A B : List (Leaf K)} {leaf : Leaf K} {items : List (Item K)} {I : Multiset NodeAddress}
      {v v' : VisibilityResolver} {P : Pages}
      (h : Cleaner.clean cmp index v leaf.items = some (v', items)) :
      Change cmp index ⟨A ++ leaf :: B, I, v, P⟩ ⟨A ++ { leaf with items } :: B, I, v', P⟩
  | split {A B : List (Leaf K)} {leaf : Leaf K} {left right : List (Item K)}
      {I : Multiset NodeAddress} {v : VisibilityResolver} {P P' : Pages} {new : NodeAddress}
      (h : P.getNode = some (new, P')) (hcut : leaf.items = left ++ right) :
      Change cmp index ⟨A ++ leaf :: B, I, v, P⟩
        ⟨A ++ { leaf with items := left, nextLeaf := new } ::
          { id := new, nextLeaf := leaf.nextLeaf, items := right } :: B, I, v, P'⟩
  | merge {A B : List (Leaf K)} {dest source : Leaf K} {I : Multiset NodeAddress}
      {v : VisibilityResolver} {P : Pages} :
      Change cmp index ⟨A ++ dest :: source :: B, I, v, P⟩
        ⟨A ++ { dest with nextLeaf := source.nextLeaf, items := dest.items ++ source.items } :: B, I,
          v, P.dropNode source.id⟩
  | balance {A B : List (Leaf K)} {dest source : Leaf K} {left right : List (Item K)}
      {I : Multiset NodeAddress} {v : VisibilityResolver} {P : Pages}
      (h : left ++ right = dest.items ++ source.items) :
      Change cmp index ⟨A ++ dest :: source :: B, I, v, P⟩
        ⟨A ++ { dest with items := left } :: { source with items := right } :: B, I, v, P⟩
  | getInner {A : List (Leaf K)} {I : Multiset NodeAddress} {v : VisibilityResolver} {P P' : Pages}
      {new : NodeAddress} (h : P.getNode = some (new, P')) :
      Change cmp index ⟨A, I, v, P⟩ ⟨A, new ::ₘ I, v, P'⟩
  | dropInner {A : List (Leaf K)} {I : Multiset NodeAddress} {v : VisibilityResolver} {P : Pages}
      {id : NodeAddress} :
      Change cmp index ⟨A, id ::ₘ I, v, P⟩ ⟨A, I, v, P.dropNode id⟩

/-- One leaf takes the entry. -/
inductive Puts (cmp : Comparator K) (index : Lid) (x : Item K) : Flat K → Flat K → Prop
  | put {A B : List (Leaf K)} {leaf : Leaf K} {items : List (Item K)} {I : Multiset NodeAddress}
      {v v' : VisibilityResolver} {P : Pages} (h : put cmp index x v leaf.items = some (v', items)) :
      Puts cmp index x ⟨A ++ leaf :: B, I, v, P⟩ ⟨A ++ { leaf with items } :: B, I, v', P⟩

/-- Several changes. -/
abbrev Changes (cmp : Comparator K) (index : Lid) : Flat K → Flat K → Prop :=
  Relation.ReflTransGen (Change cmp index)

/-- A part of a tree between its neighbours. -/
def Flat.within (A B : List (Leaf K)) (J : Multiset NodeAddress) (f : Flat K) : Flat K :=
  { f with leaves := A ++ f.leaves ++ B, inner := J + f.inner }

section

variable {cmp : Comparator K} {index : Lid} {x : Item K} {f g : Flat K}

theorem Change.within (A B : List (Leaf K)) (J : Multiset NodeAddress) (h : Change cmp index f g) :
    Change cmp index (f.within A B J) (g.within A B J) := by
  cases h with
  | @clean A' B' leaf items I v v' P h =>
    simpa [Flat.within] using Change.clean (A := A ++ A') (B := B' ++ B) (I := J + I) h
  | @split A' B' leaf left right I v P P' new h hcut =>
    simpa [Flat.within] using
      Change.split (A := A ++ A') (B := B' ++ B) (I := J + I) (v := v) h hcut
  | @merge A' B' dest source I v P =>
    simpa [Flat.within] using
      @Change.merge K cmp index (A ++ A') (B' ++ B) dest source (J + I) v P
  | @balance A' B' dest source left right I v P h =>
    simpa [Flat.within] using
      Change.balance (A := A ++ A') (B := B' ++ B) (I := J + I) (v := v) (P := P) h
  | @getInner A' I v P P' new h =>
    simpa [Flat.within, Multiset.add_cons] using
      Change.getInner (A := A ++ A' ++ B) (I := J + I) (v := v) h
  | @dropInner A' I v P id =>
    simpa [Flat.within, Multiset.add_cons] using
      @Change.dropInner K cmp index (A ++ A' ++ B) (J + I) v P id

theorem Changes.within (A B : List (Leaf K)) (J : Multiset NodeAddress) (h : Changes cmp index f g) :
    Changes cmp index (f.within A B J) (g.within A B J) :=
  h.lift (Flat.within A B J) fun _ _ hc => hc.within A B J

theorem Puts.within (A B : List (Leaf K)) (J : Multiset NodeAddress) (h : Puts cmp index x f g) :
    Puts cmp index x (f.within A B J) (g.within A B J) := by
  cases h with
  | @put A' B' leaf items I v v' P h =>
    simpa [Flat.within] using Puts.put (A := A ++ A') (B := B' ++ B) (I := J + I) (P := P) h

end

/-- Nodes of one level, next to each other. -/
def flat (n : Nat) (nodes : List (Node K n)) (w : Work K) : Flat K :=
  ⟨leavesOf n nodes, innerOf n nodes, w.resolver, w.pages⟩

section

variable {cmp : Comparator K} {index : Lid} {x : Item K} {n : Nat} {w w' : Work K}

theorem flat_append (a mid b : List (Node K n)) (w : Work K) :
    flat n (a ++ mid ++ b) w =
      (flat n mid w).within (leavesOf n a) (leavesOf n b) (innerOf n a + innerOf n b) := by
  simp only [flat, Flat.within, leavesOf_append, innerOf_append, Flat.mk.injEq, true_and, and_true]
  exact add_right_comm ..

theorem Changes.nodes {mid mid' : List (Node K n)} (a b : List (Node K n))
    (h : Changes cmp index (flat n mid w) (flat n mid' w')) :
    Changes cmp index (flat n (a ++ mid ++ b) w) (flat n (a ++ mid' ++ b) w') := by
  rw [flat_append, flat_append]
  exact h.within ..

theorem flat_succ (node : Inner K (Node K n)) (w : Work K) :
    flat (n + 1) [node] w = (flat n node.children w).within [] [] {node.id} := by
  simp only [flat, Flat.within, Flat.mk.injEq, and_true]
  exact ⟨by rw [leavesOf_one]; simp, by rw [innerOf_one, Multiset.singleton_add]⟩

-- ---------------------------------------------------------------------------
-- Nodes are cut and joined
-- ---------------------------------------------------------------------------

theorem cut_append {α : Type} (size : α → Nat) (offset : Nat) (l : List α) :
    (cut size offset l).1 ++ (cut size offset l).2 = l := by
  induction l generalizing offset with
  | nil => rfl
  | cons e l ih =>
    unfold cut
    split
    · exact congrArg (e :: ·) (ih _)
    · rfl

theorem balanceBorder_append {α : Type} (leaf : Bool) (times : Int) (size : α → Nat)
    (parent source dest diff : Int) (l : List α) :
    (balanceBorder leaf times size parent source dest diff l).1 ++
      (balanceBorder leaf times size parent source dest diff l).2 = l := by
  induction l generalizing parent source dest diff with
  | nil => rfl
  | cons e l ih =>
    cases l with
    | nil => rfl
    | cons e' l =>
      unfold balanceBorder
      simp only
      generalize (if leaf = true then _ else _ : Int) = newDiff
      split
      · rfl
      · exact congrArg (e :: ·) (ih ..)

theorem getBalanceBorder_append {α : Type} {leaf front : Bool} {size : α → Nat} {l left right : List α}
    {dest parent : Nat} (h : getBalanceBorder leaf size l dest front parent = (left, right)) :
    left ++ right = l := by
  unfold getBalanceBorder at h
  generalize (if front = true then (1 : Int) else -1) = times at h
  simp only at h
  generalize (if front = true then _ else _ : Int) = fromSize at h
  generalize (if front = true then _ else _ : Int) = toSize at h
  have happ := balanceBorder_append leaf times size parent fromSize toSize
    (fromSize - toSize).natAbs l
  rwa [h] at happ

theorem splitInner_children {node left right : Inner K C} {s : Separator K} {new : NodeAddress}
    (h : splitInner cmp node new = some (left, s, right)) :
    node.children = left.children ++ right.children ∧ left.id = node.id ∧ right.id = new := by
  obtain ⟨prev, hprev, h⟩ := Option.bind_eq_some_iff.mp h
  cases h
  have happ := cut_append (fun e : NodeEntry K C => cmp.innerEntrySize e.separator.key)
    nodeHeaderSize node.entries
  generalize cut (fun e : NodeEntry K C => cmp.innerEntrySize e.separator.key) nodeHeaderSize
    node.entries = halves at happ hprev
  have hlast := List.dropLast_append_getLast? prev hprev
  refine ⟨?_, rfl, rfl⟩
  unfold Inner.children
  rw [← happ, ← hlast]
  simp

theorem mergeInner_children {dest source node : Inner K C} {s : Separator K}
    (h : mergeInner cmp dest s source = some node) :
    node.children = dest.children ++ source.children ∧ node.id = dest.id := by
  unfold mergeInner at h
  split at h
  · cases h
    exact ⟨by simp [Inner.children], rfl⟩
  · cases h

theorem balanceBackInner_children {dest source dest' source' : Inner K C} {s : Separator K} {key : K}
    (h : balanceBackInner cmp dest s source = some (dest', key, source')) :
    dest'.children ++ source'.children = dest.children ++ source.children ∧ dest'.id = dest.id ∧
      source'.id = source.id := by
  unfold balanceBackInner at h
  generalize hborder : getBalanceBorder _ _ _ _ _ _ = border at h
  obtain ⟨moved, kept⟩ := border
  have happ := getBalanceBorder_append hborder
  obtain ⟨last, hlast, h⟩ := Option.bind_eq_some_iff.mp h
  have hmoved := List.dropLast_append_getLast? last hlast
  simp only at h
  split at h
  · cases h
    refine ⟨?_, rfl, rfl⟩
    unfold Inner.children
    rw [← happ, ← hmoved]
    simp
  · cases h

theorem balanceForwardInner_children {source dest source' dest' : Inner K C} {s : Separator K}
    {key : K} {junk : Lid}
    (h : balanceForwardInner cmp junk source s dest = some (source', key, dest')) :
    source'.children ++ dest'.children = source.children ++ dest.children ∧ source'.id = source.id ∧
      dest'.id = dest.id := by
  unfold balanceForwardInner at h
  generalize hborder : getBalanceBorder _ _ _ _ _ _ = border at h
  obtain ⟨kept, rest⟩ := border
  have happ := getBalanceBorder_append hborder
  obtain ⟨-, -, h⟩ := Option.bind_eq_some_iff.mp h
  obtain ⟨last, hlast, h⟩ := Option.bind_eq_some_iff.mp h
  simp only at h
  split at h
  · cases h
    cases rest with
    | nil => cases hlast
    | cons e rest =>
      cases hlast
      refine ⟨?_, rfl, rfl⟩
      unfold Inner.children
      rw [← happ]
      simp
  · cases h

-- ---------------------------------------------------------------------------
-- The changes of each operation
-- ---------------------------------------------------------------------------

/-- Two nodes that have the children of one. -/
theorem flat_cut {node left right : Inner K (Node K n)}
    (h : node.children = left.children ++ right.children) (hleft : left.id = node.id) (w : Work K) :
    flat (n + 1) [left, right] w =
      ⟨leavesOf (n + 1) [node], right.id ::ₘ innerOf (n + 1) [node], w.resolver, w.pages⟩ := by
  simp only [flat, Flat.mk.injEq, and_true]
  rw [leavesOf_two, innerOf_two, leavesOf_one, innerOf_one, ← h, hleft]
  exact ⟨rfl, rfl⟩

theorem flat_pair {dest source dest' source' : Inner K (Node K n)}
    (h : dest'.children ++ source'.children = dest.children ++ source.children)
    (hdest : dest'.id = dest.id) (hsource : source'.id = source.id) (w : Work K) :
    flat (n + 1) [dest', source'] w = flat (n + 1) [dest, source] w := by
  simp only [flat, Flat.mk.injEq, and_true]
  rw [leavesOf_two, innerOf_two, leavesOf_two, innerOf_two, h, hdest, hsource]
  exact ⟨rfl, rfl⟩

theorem clean_changes {node node' : Node K n} (h : clean cmp index n node w = some (node', w')) :
    Changes cmp index (flat n [node] w) (flat n [node'] w') := by
  cases n with
  | zero =>
    obtain ⟨⟨v, items⟩, hclean, h⟩ := Option.bind_eq_some_iff.mp h
    cases h
    exact .single (Change.clean (A := []) (B := []) hclean)
  | succ n =>
    cases h
    exact .refl

theorem canTakeExtraKey_changes {node node' : Node K n} {c : NodeCapacityType}
    (h : canTakeExtraKey cmp index n node w = some (c, node', w')) :
    Changes cmp index (flat n [node] w) (flat n [node'] w') := by
  unfold canTakeExtraKey at h
  split at h
  · cases h
    exact .refl
  · obtain ⟨⟨node₁, w₁⟩, hclean, h⟩ := Option.bind_eq_some_iff.mp h
    simp only at h
    split at h
    · cases h
      exact clean_changes hclean
    · cases h
      exact clean_changes hclean

theorem splitChild_changes {node left right : Node K n} {s : Separator K} {new : NodeAddress}
    {pages : Pages} (hpage : w.pages.getNode = some (new, pages))
    (h : splitChild cmp n node new = some (left, s, right)) :
    Changes cmp index (flat n [node] w) (flat n [left, right] { w with pages }) := by
  cases n with
  | zero =>
    obtain ⟨prev, -, h⟩ := Option.bind_eq_some_iff.mp h
    cases h
    exact .single (Change.split (A := []) (B := []) hpage (cut_append ..).symm)
  | succ n =>
    obtain ⟨hkids, hleft, hright⟩ := splitInner_children h
    refine (congrArg (Changes cmp index (flat (n + 1) [node] w)) (flat_cut hkids hleft _)).mpr ?_
    rw [hright]
    exact .single (Change.getInner hpage)

theorem merge_changes {dest source node : Node K n} {s : Separator K}
    (h : merge cmp n dest s source = some node) :
    Changes cmp index (flat n [dest, source] w)
      (flat n [node] { w with pages := w.pages.dropNode (nodeID n source) }) := by
  cases n with
  | zero =>
    replace h : mergeLeaf cmp dest source = some node := h
    unfold mergeLeaf at h
    split at h
    · cases h
      exact .single (Change.merge (A := []) (B := []))
    · cases h
  | succ n =>
    obtain ⟨hkids, hid⟩ := mergeInner_children h
    refine (congrArg (Changes cmp index · _) (flat_cut hkids hid.symm w)).mpr ?_
    exact .single Change.dropInner

theorem balanceBack_changes {dest source dest' source' : Node K n} {s : Separator K} {key : K}
    (h : balanceBack cmp n dest s source = some (dest', key, source')) :
    Changes cmp index (flat n [dest, source] w) (flat n [dest', source'] w) := by
  cases n with
  | zero =>
    replace h : balanceBackLeaf cmp dest s source = some (dest', key, source') := h
    unfold balanceBackLeaf at h
    generalize hborder : getBalanceBorder _ _ _ _ _ _ = border at h
    obtain ⟨moved, kept⟩ := border
    have happ := getBalanceBorder_append hborder
    obtain ⟨last, -, h⟩ := Option.bind_eq_some_iff.mp h
    simp only at h
    split at h
    · cases h
      exact .single (Change.balance (A := []) (B := []) (by rw [← happ, List.append_assoc]))
    · cases h
  | succ n =>
    obtain ⟨hkids, hdest, hsource⟩ := balanceBackInner_children h
    exact (congrArg (Changes cmp index _) (flat_pair hkids hdest hsource w)).mpr .refl

theorem balanceForward_changes {source dest source' dest' : Node K n} {s : Separator K} {key : K}
    {junk : Lid} (h : balanceForward cmp junk n source s dest = some (source', key, dest')) :
    Changes cmp index (flat n [source, dest] w) (flat n [source', dest'] w) := by
  cases n with
  | zero =>
    replace h : balanceForwardLeaf cmp source s dest = some (source', key, dest') := h
    unfold balanceForwardLeaf at h
    generalize hborder : getBalanceBorder _ _ _ _ _ _ = border at h
    obtain ⟨kept, moved⟩ := border
    have happ := getBalanceBorder_append hborder
    obtain ⟨last, -, h⟩ := Option.bind_eq_some_iff.mp h
    simp only at h
    split at h
    · cases h
      exact .single (Change.balance (A := []) (B := []) (by rw [← happ, List.append_assoc]))
    · cases h
  | succ n =>
    obtain ⟨hkids, hsource, hdest⟩ := balanceForwardInner_children h
    exact (congrArg (Changes cmp index _) (flat_pair hkids hsource hdest w)).mpr .refl

-- ---------------------------------------------------------------------------
-- A place in a node
-- ---------------------------------------------------------------------------

theorem close_children (passed : List (C × Separator K)) (child : C) (rest : List (NodeEntry K C)) :
    (close passed child rest).1 :: (close passed child rest).2.map (·.child) =
      passed.map Prod.fst ++ child :: rest.map (·.child) := by
  induction passed with
  | nil => rfl
  | cons a passed ih =>
    obtain ⟨first, s⟩ := a
    simp only [close, List.map_cons, List.cons_append, ← ih]

theorem Place.node_children (p : Place K C) (id : NodeAddress) :
    (p.node id).children = p.children := close_children p.passed p.child p.rest

theorem Place.node_id (p : Place K C) (id : NodeAddress) : (p.node id).id = id := rfl

theorem descend_children (child : C) (entries : List (NodeEntry K C)) :
    (descend cmp x child entries).children = child :: entries.map (·.child) := by
  induction entries generalizing child with
  | nil => rfl
  | cons e entries ih =>
    unfold descend
    split
    · simp only [Place.children, List.map_cons, List.cons_append]
      exact congrArg (child :: ·) (ih e.child)
    · rfl

theorem remove_changes {junk : Lid} {p p' : Place K (Node K n)}
    (h : remove cmp junk n p w = some (p', w')) :
    Changes cmp index (flat n p.children w) (flat n p'.children w') := by
  unfold remove at h
  split at h
  · -- the right neighbour
    rename_i next rest hrest
    have hp : p.children = p.passed.map Prod.fst ++ [p.child, next.child] ++ rest.map (·.child) := by
      simp [Place.children, hrest]
    rw [hp]
    simp only at h
    split at h
    · obtain ⟨⟨child, key, brother⟩, hbalance, h⟩ := Option.bind_eq_some_iff.mp h
      simp only at h
      split at h
      · cases h
        have hp' : ∀ s, Place.children { p with child, rest := ⟨brother, s⟩ :: rest } =
            p.passed.map Prod.fst ++ [child, brother] ++ rest.map (·.child) := by
          simp [Place.children]
        rw [hp']
        exact (balanceBack_changes (w := w) hbalance).nodes _ _
      · cases h
    · obtain ⟨child, hmerge, h⟩ := Option.bind_eq_some_iff.mp h
      cases h
      have hp' : Place.children { p with child, rest } =
          p.passed.map Prod.fst ++ [child] ++ rest.map (·.child) := by
        simp [Place.children]
      rw [hp']
      exact (merge_changes hmerge).nodes _ _
  · -- the left neighbour
    rename_i hrest
    split at h
    case h_2 => cases h
    rename_i brother s prev passed hpassed
    have hpassed' : p.passed = (prev :: passed).reverse ++ [(brother, s)] := by
      rw [← List.reverse_inj, hpassed]
      simp
    have hp : p.children = (prev :: passed).reverse.map Prod.fst ++ [brother, p.child] ++ [] := by
      simp [Place.children, hrest, hpassed']
    rw [hp]
    split at h
    · obtain ⟨⟨brother', key, child⟩, hbalance, h⟩ := Option.bind_eq_some_iff.mp h
      simp only at h
      split at h
      · cases h
        have hp' : ∀ s, Place.children
            { p with child, passed := (prev :: passed).reverse ++ [(brother', s)] } =
            (prev :: passed).reverse.map Prod.fst ++ [brother', child] ++ [] := by
          simp [Place.children, hrest]
        rw [hp']
        exact (balanceForward_changes (w := w) hbalance).nodes _ _
      · cases h
    · obtain ⟨child, hmerge, h⟩ := Option.bind_eq_some_iff.mp h
      cases h
      have hp' : Place.children { p with child, passed := (prev :: passed).reverse } =
          (prev :: passed).reverse.map Prod.fst ++ [child] ++ [] := by
        simp [Place.children, hrest]
      rw [hp']
      exact (merge_changes hmerge).nodes _ _

theorem split_changes {p p' : Place K (Node K n)} (h : split cmp x n p w = some (p', w')) :
    Changes cmp index (flat n p.children w) (flat n p'.children w') := by
  obtain ⟨⟨new, pages⟩, hpage, h⟩ := Option.bind_eq_some_iff.mp h
  obtain ⟨⟨left, s, right⟩, hsplit, h⟩ := Option.bind_eq_some_iff.mp h
  have hchild : Changes cmp index _ _ := splitChild_changes hpage hsplit
  have hchanges := hchild.nodes (p.passed.map Prod.fst) (p.rest.map (·.child))
  have hp : p.children = p.passed.map Prod.fst ++ [p.child] ++ p.rest.map (·.child) := by
    simp [Place.children]
  have hp' : p'.children = p.passed.map Prod.fst ++ [left, right] ++ p.rest.map (·.child) ∧
      w' = { w with pages } := by
    simp only at h
    split at h
    · cases h
      simp [Place.children]
    · cases h
      simp [Place.children]
  rw [hp, hp'.1, hp'.2]
  exact hchanges

theorem testSize_changes {junk : Lid} {p p' : Place K (Node K n)}
    (h : testSize cmp index junk x n p w = some (p', w')) :
    Changes cmp index (flat n p.children w) (flat n p'.children w') := by
  have hchild {q : Place K (Node K n)} {c : NodeCapacityType} {child : Node K n} {w₁ w₂ : Work K}
      (hc : canTakeExtraKey cmp index n q.child w₁ = some (c, child, w₂)) :
      Changes cmp index (flat n q.children w₁) (flat n (Place.children { q with child }) w₂) := by
    have hq (child : Node K n) : Place.children { q with child } =
        q.passed.map Prod.fst ++ [child] ++ q.rest.map (·.child) := by
      simp [Place.children]
    rw [show q.children = _ from hq q.child, hq]
    exact (canTakeExtraKey_changes hc).nodes _ _
  obtain ⟨⟨c, child, w₁⟩, hc, h⟩ := Option.bind_eq_some_iff.mp h
  refine (hchild hc).trans ?_
  cases c with
  | splitNeeded => exact split_changes h
  | properSize =>
    cases h
    exact .refl
  | deleteNeeded =>
    obtain ⟨⟨p₂, w₂⟩, hremove, h⟩ := Option.bind_eq_some_iff.mp h
    refine (remove_changes hremove).trans ?_
    simp only at h
    split at h
    · cases h
      exact .refl
    · obtain ⟨⟨c', child', w₃⟩, hc', h⟩ := Option.bind_eq_some_iff.mp h
      simp only at h
      split at h
      · cases h
        exact hchild hc'
      · cases h

-- ---------------------------------------------------------------------------
-- A whole call
-- ---------------------------------------------------------------------------

/-- Changes, and then one leaf takes the entry. -/
def Adds (cmp : Comparator K) (index : Lid) (x : Item K) (f g : Flat K) : Prop :=
  ∃ mid, Changes cmp index f mid ∧ Puts cmp index x mid g

theorem Adds.within {f g : Flat K} (A B : List (Leaf K)) (J : Multiset NodeAddress)
    (h : Adds cmp index x f g) : Adds cmp index x (f.within A B J) (g.within A B J) := by
  obtain ⟨mid, hc, hp⟩ := h
  exact ⟨_, hc.within A B J, hp.within A B J⟩

theorem Adds.after {f g k : Flat K} (hc : Changes cmp index f g) (h : Adds cmp index x g k) :
    Adds cmp index x f k := by
  obtain ⟨mid, hc', hp⟩ := h
  exact ⟨mid, hc.trans hc', hp⟩

theorem Adds.nodes {mid mid' : List (Node K n)} (a b : List (Node K n))
    (h : Adds cmp index x (flat n mid w) (flat n mid' w')) :
    Adds cmp index x (flat n (a ++ mid ++ b) w) (flat n (a ++ mid' ++ b) w') := by
  rw [flat_append, flat_append]
  exact h.within ..

/-- By induction on the height: the way down is changes only, and the leaf at its end
takes the entry. -/
theorem addTo_adds {junk : Lid} {node node' : Node K n}
    (h : addTo cmp index junk x n node w = some (node', w')) :
    Adds cmp index x (flat n [node] w) (flat n [node'] w') := by
  induction n generalizing w w' with
  | zero =>
    unfold addTo at h
    split at h
    case isFalse => cases h
    obtain ⟨⟨leaf, w₁⟩, hclean, h⟩ := Option.bind_eq_some_iff.mp h
    obtain ⟨⟨v, items⟩, hput, h⟩ := Option.bind_eq_some_iff.mp h
    cases h
    exact ⟨_, clean_changes hclean, Puts.put (A := []) (B := []) hput⟩
  | succ n ih =>
    unfold addTo at h
    simp only at h
    split at h
    case isFalse => cases h
    obtain ⟨⟨p, w₁⟩, htest, h⟩ := Option.bind_eq_some_iff.mp h
    obtain ⟨⟨child, w₂⟩, hadd, h⟩ := Option.bind_eq_some_iff.mp h
    cases h
    have hdown := testSize_changes htest
    rw [descend_children] at hdown
    have hp (child : Node K n) : Place.children { p with child } =
        p.passed.map Prod.fst ++ [child] ++ p.rest.map (·.child) := by
      simp [Place.children]
    have hkids : Adds cmp index x (flat n (Inner.children node) w)
        (flat n (Place.children { p with child }) w₂) := by
      refine .after hdown ?_
      rw [show p.children = _ from hp p.child, hp]
      exact (ih hadd).nodes _ _
    have hnode := hkids.within [] [] {Inner.id node}
    rw [← flat_succ node w, ← Place.node_children _ (Inner.id node)] at hnode
    rw [← Place.node_id { p with child } (Inner.id node)] at hnode
    exact (congrArg (Adds cmp index x _) (flat_succ _ w₂)).mpr hnode

theorem growRoot_adds {junk : Lid} {root : Node K n} {t : BTree K}
    (h : growRoot cmp index junk x n root w = some (t, w')) :
    Adds cmp index x (flat n [root] w) (flat t.height [t.root] w') := by
  obtain ⟨⟨id, pages⟩, hpage, h⟩ := Option.bind_eq_some_iff.mp h
  obtain ⟨⟨p, w₁⟩, hsplit, h⟩ := Option.bind_eq_some_iff.mp h
  obtain ⟨⟨root', w₂⟩, hadd, h⟩ := Option.bind_eq_some_iff.mp h
  cases h
  have hnew : Changes cmp index (flat n [root] w)
      ((flat n [root] { w with pages }).within [] [] {id}) := by
    have h : Change cmp index _ _ := Change.getInner (A := leavesOf n [root])
      (I := innerOf n [root]) (v := w.resolver) hpage
    simpa [flat, Flat.within, Multiset.singleton_add] using Relation.ReflTransGen.single h
  have hroot : Changes cmp index _ _ := split_changes hsplit
  have hcut := hroot.within [] [] {id}
  refine .after (hnew.trans hcut) ?_
  rw [← Place.node_children p id, ← Place.node_id p id]
  exact (congrArg (Adds cmp index x · _) (flat_succ (p.node id) w₁)).mp (addTo_adds hadd)

theorem addBelow_adds {junk : Lid} {root : Node K n} {t : BTree K}
    (h : addBelow cmp index junk x n root w = some (t, w')) :
    Adds cmp index x (flat n [root] w) (flat t.height [t.root] w') := by
  obtain ⟨⟨root', w₁⟩, hadd, h⟩ := Option.bind_eq_some_iff.mp h
  cases h
  exact addTo_adds hadd

/-- The root has one child left. -/
theorem dropRoot_changes {node : Inner K (Node K n)} (hempty : node.entries.isEmpty = true) :
    Changes cmp index (flat (n + 1) [node] w)
      (flat n [node.firstChild] { w with pages := w.pages.dropNode node.id }) := by
  have hkids : node.children = [node.firstChild] := by
    simp [Inner.children, List.isEmpty_iff.mp hempty]
  have hflat : flat (n + 1) [node] w =
      ⟨leavesOf n [node.firstChild], node.id ::ₘ innerOf n [node.firstChild], w.resolver, w.pages⟩ := by
    rw [← hkids, ← leavesOf_one, ← innerOf_one]
    rfl
  rw [hflat]
  exact .single Change.dropInner

theorem addRoot_adds {junk : Lid} {root : Node K n} {t : BTree K}
    (h : addRoot cmp index junk x n root w = some (t, w')) :
    Adds cmp index x (flat n [root] w) (flat t.height [t.root] w') := by
  induction n generalizing w with
  | zero =>
    obtain ⟨⟨c, root₁, w₁⟩, hc, h⟩ := Option.bind_eq_some_iff.mp h
    refine .after (canTakeExtraKey_changes hc) ?_
    cases c with
    | splitNeeded => exact growRoot_adds h
    | deleteNeeded | properSize => exact addBelow_adds h
  | succ n ih =>
    obtain ⟨⟨c, root₁, w₁⟩, hc, h⟩ := Option.bind_eq_some_iff.mp h
    refine .after (canTakeExtraKey_changes hc) ?_
    cases c with
    | splitNeeded => exact growRoot_adds h
    | properSize => exact addBelow_adds h
    | deleteNeeded =>
      simp only at h
      split at h
      · exact .after (dropRoot_changes ‹_›) (ih h)
      · exact addBelow_adds h

end

end BTree

end Loxim.Indexes
