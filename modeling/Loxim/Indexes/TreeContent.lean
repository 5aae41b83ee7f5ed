import Mathlib.Data.List.TakeWhile
import Loxim.Indexes.KeyOrder
import Loxim.Indexes.TreeLeaves
import Loxim.Lib.Run

/-!
# What a B-tree holds

One call of `addEntry` cleans some leaves and puts one entry in, or takes one out that
the same transaction put in before; nothing else is lost, doubled or changed. Over
whole runs the leaves stay linked in their order and no page is used twice.
-/

namespace Loxim.Indexes

variable {K : Type}

-- ---------------------------------------------------------------------------
-- Entries
-- ---------------------------------------------------------------------------

namespace BTree

/-- The entries of some leaves, from left to right. -/
def entriesOf (l : List (Leaf K)) : List (Item K) := l.flatMap (·.items)

def entries (t : BTree K) : List (Item K) := entriesOf (leaves t.height t.root)

/-- One leaf among others is cleaned. -/
inductive Cleans (cmp : Comparator K) (index : Lid) :
    List (Item K) × VisibilityResolver → List (Item K) × VisibilityResolver → Prop
  | clean {A B items items' : List (Item K)} {v v' : VisibilityResolver}
      (h : Cleaner.clean cmp index v items = some (v', items')) :
      Cleans cmp index (A ++ items ++ B, v) (A ++ items' ++ B, v')

section

variable {cmp : Comparator K} {index : Lid} {x : Item K} {f g : Flat K} {v v' : VisibilityResolver}
  {items items' : List (Item K)}

@[simp] theorem entriesOf_append (A B : List (Leaf K)) :
    entriesOf (A ++ B) = entriesOf A ++ entriesOf B := List.flatMap_append

@[simp] theorem entriesOf_cons (a : Leaf K) (B : List (Leaf K)) :
    entriesOf (a :: B) = a.items ++ entriesOf B := rfl

theorem Change.cleans (h : Change cmp index f g) :
    Relation.ReflTransGen (Cleans cmp index) (entriesOf f.leaves, f.resolver)
      (entriesOf g.leaves, g.resolver) := by
  cases h with
  | @clean A B leaf items I v v' P h =>
    have hclean := Cleans.clean (A := entriesOf A) (B := entriesOf B) h
    simpa using Relation.ReflTransGen.single hclean
  | split h hcut =>
    simp only [entriesOf_append, entriesOf_cons, hcut, List.append_assoc]
    exact .refl
  | merge =>
    simp only [entriesOf_append, entriesOf_cons, List.append_assoc]
    exact .refl
  | balance h =>
    simp only [entriesOf_append, entriesOf_cons, ← List.append_assoc, h]
    simp only [List.append_assoc]
    exact .refl
  | getInner h => exact .refl
  | dropInner => exact .refl

theorem Changes.cleans (h : Changes cmp index f g) :
    Relation.ReflTransGen (Cleans cmp index) (entriesOf f.leaves, f.resolver)
      (entriesOf g.leaves, g.resolver) := by
  induction h with
  | refl => exact .refl
  | tail _ hc ih => exact ih.trans hc.cleans

/-- The entry is put before the first one that is not smaller, or that one is equal
and of the same transaction and is taken out. -/
inductive PutIn (cmp : Comparator K) (index : Lid) (x : Item K) :
    List (Item K) × VisibilityResolver → List (Item K) × VisibilityResolver → Prop
  | added {before rest : List (Item K)} {v v' : VisibilityResolver}
      (hbefore : ∀ e ∈ before, greaterThan cmp x e.separator = true)
      (hrest : ∀ e ∈ rest.head?, greaterThan cmp x e.separator = false)
      (hadded : v.entryAdded x.entry.modyfierTransactionId index = some v') :
      PutIn cmp index x (before ++ rest, v) (before ++ x :: rest, v')
  | cancelled {before behind : List (Item K)} {e : Item K} {v v' : VisibilityResolver}
      (hbefore : ∀ e ∈ before, greaterThan cmp x e.separator = true)
      (hequal : cmp.compare x.key x.entry.logicalID e.key e.entry.logicalID = 0)
      (hsame : e.entry.modyfierTransactionId = x.entry.modyfierTransactionId)
      (hdropped : v.entryDropped e.entry.modyfierTransactionId index .active = some v') :
      PutIn cmp index x (before ++ e :: behind, v) (before ++ behind, v')

theorem putEqualLid_same {a b : RootEntry} (h : Cleaner.putEqualLid a b = some true) :
    a.modyfierTransactionId = b.modyfierTransactionId := by
  unfold Cleaner.putEqualLid at h
  split at h
  · assumption
  · cases h

theorem put_cases (h : put cmp index x v items = some (v', items')) :
    PutIn cmp index x (items, v) (items', v') := by
  unfold put at h
  have hsplit := List.takeWhile_append_dropWhile (p := fun e => greaterThan cmp x e.separator)
    (l := items)
  have hbefore : ∀ e ∈ items.takeWhile (fun e => greaterThan cmp x e.separator),
      greaterThan cmp x e.separator = true := fun e he =>
    List.mem_takeWhile_imp (p := fun e : Item K => greaterThan cmp x e.separator) he
  have hhead : ∀ e ∈ (items.dropWhile fun e => greaterThan cmp x e.separator).head?,
      greaterThan cmp x e.separator = false := by
    intro e he
    have := List.head?_dropWhile_not (fun e => greaterThan cmp x e.separator) items
    rw [Option.mem_def.mp he] at this
    simpa using this
  generalize items.takeWhile (fun e => greaterThan cmp x e.separator) = before at h hsplit hbefore
  generalize items.dropWhile (fun e => greaterThan cmp x e.separator) = rest at h hsplit hhead
  subst hsplit
  have hadd (hadded : (v.entryAdded x.entry.modyfierTransactionId index).bind
      (fun v => some (v, before ++ x :: rest)) = some (v', items')) :
      PutIn cmp index x (before ++ rest, v) (items', v') := by
    obtain ⟨v₁, hv, hadded⟩ := Option.bind_eq_some_iff.mp hadded
    cases hadded
    exact .added hbefore hhead hv
  simp only at h
  cases rest with
  | nil => exact hadd h
  | cons e behind =>
    simp only at h
    split at h
    · rename_i hequal
      obtain ⟨cancel, hcancel, h⟩ := Option.bind_eq_some_iff.mp h
      cases cancel with
      | true =>
        obtain ⟨v₁, hv, h⟩ := Option.bind_eq_some_iff.mp h
        cases h
        exact .cancelled hbefore hequal (putEqualLid_same hcancel) hv
      | false => exact hadd h
    · exact hadd h

/-- A call that comes to its end cleans leaves and then puts the entry in, or takes out
the one that it takes back. No cut, join, balance or change of the root shows. -/
theorem addEntry_entries {junk : Lid} {t t' : BTree K} {w w' : Work K}
    (h : addEntry cmp index junk x t w = some (t', w')) :
    ∃ A B items items' v, Relation.ReflTransGen (Cleans cmp index) (t.entries, w.resolver)
        (A ++ items ++ B, v) ∧
      PutIn cmp index x (items, v) (items', w'.resolver) ∧ t'.entries = A ++ items' ++ B := by
  obtain ⟨mid, hchanges, hput⟩ := addRoot_adds h
  have hclean := hchanges.cleans
  generalize hg : flat t'.height [t'.root] w' = g at hput
  have hleaves : g.leaves = leaves t'.height t'.root := by
    rw [← hg]
    exact List.append_nil _
  have hresolver : g.resolver = w'.resolver := by
    rw [← hg]
    rfl
  have hstart : (flat t.height [t.root] w).leaves = leaves t.height t.root := List.append_nil _
  rw [hstart] at hclean
  cases hput with
  | @put A B leaf items I v v' P hput =>
    refine ⟨entriesOf A, entriesOf B, leaf.items, items, v, ?_, ?_, ?_⟩
    · simpa [entries, flat] using hclean
    · rw [← hresolver]
      exact put_cases hput
    · rw [entries, ← hleaves]
      simp

/-- An empty index of numbers. -/
def emptyTree : BTree IntKey := ⟨0, ({ id := 0, nextLeaf := newNode, items := [] } : Leaf IntKey)⟩

/-- Transaction 5 is active. -/
def emptyWork : Work IntKey :=
  { resolver := { active := [(5, {})] }, pages := { nextFreeNodeAddr := nodeSize } }

theorem addEntry_entries_empty : ∃ t' w',
    addEntry IntComparator.ordered.toComparator 1 0 ⟨.wrap 3, ⟨5, 7, -1, 4⟩⟩ emptyTree emptyWork =
      some (t', w') ∧
    ∃ A B items items' v, Relation.ReflTransGen (Cleans IntComparator.ordered.toComparator 1)
        (emptyTree.entries, emptyWork.resolver) (A ++ items ++ B, v) ∧
      PutIn IntComparator.ordered.toComparator 1 ⟨.wrap 3, ⟨5, 7, -1, 4⟩⟩ (items, v)
        (items', w'.resolver) ∧ t'.entries = A ++ items' ++ B := by
  have hsome : (addEntry IntComparator.ordered.toComparator 1 0 ⟨.wrap 3, ⟨5, 7, -1, 4⟩⟩ emptyTree
      emptyWork).isSome = true := by decide +kernel
  obtain ⟨⟨t', w'⟩, h⟩ := Option.isSome_iff_exists.mp hsome
  exact ⟨t', w', h, addEntry_entries h⟩

-- ---------------------------------------------------------------------------
-- Addresses
-- ---------------------------------------------------------------------------

/-- The address of the first leaf, or where the leaves go on. -/
def startOf (after : NodeAddress) : List (Leaf K) → NodeAddress
  | [] => after
  | leaf :: _ => leaf.id

/-- Every leaf has the address of the next one. -/
def Linked (after : NodeAddress) : List (Leaf K) → Prop
  | [] => True
  | leaf :: l => leaf.nextLeaf = startOf after l ∧ Linked after l

theorem linked_append {after : NodeAddress} (A B : List (Leaf K)) :
    Linked after (A ++ B) ↔ Linked (startOf after B) A ∧ Linked after B := by
  induction A with
  | nil => simp [Linked]
  | cons a A ih =>
    have hstart : startOf after (A ++ B) = startOf (startOf after B) A := by
      cases A <;> rfl
    simp only [List.cons_append, Linked, ih, hstart, and_assoc]

/-- The pages of the nodes and the dropped ones. -/
def Flat.addresses (f : Flat K) : Multiset NodeAddress :=
  (f.leaves.map (·.id) : Multiset NodeAddress) + f.inner + (f.pages.dropped : Multiset NodeAddress)

/-- No page is used twice, none is used and free, and the leaves are linked. -/
structure Flat.Sound (f : Flat K) : Prop where
  linked : Linked newNode f.leaves
  distinct : f.addresses.Nodup
  assigned : ∀ a ∈ f.addresses, a < f.pages.nextFreeNodeAddr ∧ a < maxNodeAddr

theorem getNode_cases {P P' : Pages} {new : NodeAddress} (h : P.getNode = some (new, P')) :
    (P.dropped = new :: P'.dropped ∧ P'.nextFreeNodeAddr = P.nextFreeNodeAddr) ∨
    (P'.dropped = P.dropped ∧ new = P.nextFreeNodeAddr ∧ new < maxNodeAddr ∧
      P'.nextFreeNodeAddr = P.nextFreeNodeAddr + nodeSize) := by
  unfold Pages.getNode at h
  split at h
  · rename_i id dropped hdropped
    cases h
    exact .inl ⟨hdropped, rfl⟩
  · split at h
    · cases h
    · rename_i hlt
      cases h
      exact .inr ⟨rfl, rfl, Nat.lt_of_not_le hlt, rfl⟩

/-- A page that is taken was free. -/
theorem Flat.Sound.of_getNode {P' : Pages} {new : NodeAddress} (h : f.Sound)
    (hpage : f.pages.getNode = some (new, P')) (hpages : g.pages = P')
    (hlinked : Linked newNode g.leaves)
    (haddresses : (g.leaves.map (·.id) : Multiset NodeAddress) + g.inner =
      new ::ₘ ((f.leaves.map (·.id) : Multiset NodeAddress) + f.inner)) : g.Sound := by
  have hg : g.addresses = new ::ₘ ((f.leaves.map (·.id) : Multiset NodeAddress) + f.inner) +
      (P'.dropped : Multiset NodeAddress) := by
    rw [Flat.addresses, haddresses, hpages]
  rcases getNode_cases hpage with ⟨hdropped, hnext⟩ | ⟨hdropped, hnew, hmax, hnext⟩
  · have hsame : g.addresses = f.addresses := by
      rw [hg, Flat.addresses, hdropped, ← Multiset.cons_coe, Multiset.add_cons, Multiset.cons_add]
    refine ⟨hlinked, hsame ▸ h.distinct, ?_⟩
    rw [hsame, hpages, hnext]
    exact h.assigned
  · have hmore : g.addresses = new ::ₘ f.addresses := by
      rw [hg, Flat.addresses, hdropped, Multiset.cons_add]
    refine ⟨hlinked, ?_, ?_⟩
    · rw [hmore, Multiset.nodup_cons]
      refine ⟨fun hmem => ?_, h.distinct⟩
      have hlt := (h.assigned new hmem).1
      exact Nat.lt_irrefl _ (hnew ▸ hlt)
    · intro a ha
      rw [hmore, Multiset.mem_cons] at ha
      rw [hpages, hnext]
      rcases ha with rfl | ha
      · rw [hnew] at hmax ⊢
        exact ⟨Nat.lt_add_of_pos_right (by decide), hmax⟩
      · have hold := h.assigned a ha
        exact ⟨Nat.lt_add_right _ hold.1, hold.2⟩

/-- The addresses stay what they are, up to the order. -/
theorem Flat.Sound.congr (h : f.Sound) (hlinked : Linked newNode g.leaves)
    (haddresses : g.addresses = f.addresses)
    (hnext : g.pages.nextFreeNodeAddr = f.pages.nextFreeNodeAddr) : g.Sound := by
  refine ⟨hlinked, haddresses ▸ h.distinct, ?_⟩
  rw [haddresses, hnext]
  exact h.assigned

theorem Flat.Sound.change (h : f.Sound) (hc : Change cmp index f g) : g.Sound := by
  have hlinked := h.linked
  cases hc with
  | @clean A B leaf items I v v' P hclean =>
    refine h.congr ?_ ?_ rfl
    · rw [linked_append] at hlinked ⊢
      exact hlinked
    · simp [Flat.addresses]
  | @split A B leaf left right I v P P' new hpage hcut =>
    refine h.of_getNode hpage rfl ?_ ?_
    · rw [linked_append] at hlinked ⊢
      exact ⟨hlinked.1, rfl, hlinked.2.1, hlinked.2.2⟩
    · simp only [List.map_append, List.map_cons, ← Multiset.coe_add, ← Multiset.cons_coe,
        Multiset.add_cons, Multiset.cons_add, Multiset.cons_swap]
  | @merge A B dest source I v P =>
    refine h.congr ?_ ?_ rfl
    · rw [linked_append] at hlinked ⊢
      exact ⟨hlinked.1, hlinked.2.2.1, hlinked.2.2.2⟩
    · simp only [Flat.addresses, Pages.dropNode, List.map_append, List.map_cons,
        ← Multiset.coe_add, ← Multiset.cons_coe, Multiset.add_cons, Multiset.cons_add,
        Multiset.cons_swap]
  | @balance A B dest source left right I v P hcut =>
    refine h.congr ?_ ?_ rfl
    · rw [linked_append] at hlinked ⊢
      exact hlinked
    · simp [Flat.addresses]
  | @getInner A I v P P' new hpage =>
    refine h.of_getNode hpage rfl hlinked ?_
    simp only [Multiset.add_cons]
  | @dropInner A I v P id =>
    refine h.congr hlinked ?_ rfl
    simp only [Flat.addresses, Pages.dropNode, ← Multiset.cons_coe, Multiset.add_cons,
      Multiset.cons_add]

theorem Flat.Sound.changes (h : f.Sound) (hc : Changes cmp index f g) : g.Sound := by
  induction hc with
  | refl => exact h
  | tail _ hc ih => exact ih.change hc

theorem Flat.Sound.puts (h : f.Sound) (hp : Puts cmp index x f g) : g.Sound := by
  have hlinked := h.linked
  cases hp with
  | @put A B leaf items I v v' P hput =>
    refine h.congr ?_ ?_ rfl
    · rw [linked_append] at hlinked ⊢
      exact hlinked
    · simp [Flat.addresses]

-- ---------------------------------------------------------------------------
-- Runs
-- ---------------------------------------------------------------------------

/-- The walk along `nextLeaf`. -/
def follow (l : List (Leaf K)) : Nat → NodeAddress → List (Leaf K)
  | 0, _ => []
  | fuel + 1, a =>
    match l.find? fun leaf : Leaf K => leaf.id = a with
    | none => []
    | some leaf => leaf :: follow l fuel leaf.nextLeaf

/-- From any leaf the walk meets the leaves behind it, one after the other, and ends. -/
theorem follow_linked {after : NodeAddress} {A B : List (Leaf K)} {fuel : Nat}
    (hlinked : Linked after (A ++ B)) (hdistinct : ((A ++ B).map (·.id)).Nodup)
    (hafter : after ∉ (A ++ B).map (·.id)) (hfuel : B.length ≤ fuel) :
    follow (A ++ B) fuel (startOf after B) = B := by
  induction B generalizing A fuel with
  | nil =>
    cases fuel with
    | zero => rfl
    | succ fuel =>
      have hnone : (A ++ []).find? (fun leaf : Leaf K => decide (leaf.id = after)) = none := by
        rw [List.find?_eq_none]
        intro leaf hleaf heq
        exact hafter (List.mem_map.mpr ⟨leaf, hleaf, of_decide_eq_true heq⟩)
      rw [startOf, follow, hnone]
  | cons leaf B ih =>
    cases fuel with
    | zero => cases hfuel
    | succ fuel =>
      have hbefore : A.find? (fun a : Leaf K => decide (a.id = leaf.id)) = none := by
        rw [List.find?_eq_none]
        intro a ha heq
        rw [List.map_append, List.nodup_append] at hdistinct
        exact hdistinct.2.2 _ (List.mem_map_of_mem ha) leaf.id (by simp) (of_decide_eq_true heq)
      have hsome :
          (A ++ leaf :: B).find? (fun a : Leaf K => decide (a.id = leaf.id)) = some leaf := by
        rw [List.find?_append, hbefore]
        simp
      have hnext : leaf.nextLeaf = startOf after B := ((linked_append A _).mp hlinked).2.1
      have hlist : A ++ leaf :: B = (A ++ [leaf]) ++ B := by simp
      rw [startOf, follow, hsome]
      simp only
      rw [hnext, hlist, ih (hlist ▸ hlinked) (hlist ▸ hdistinct) (hlist ▸ hafter)
        (Nat.le_of_succ_le_succ hfuel)]

/-- An index with all that its calls change. -/
structure IndexTree (K : Type) where
  tree : BTree K
  work : Work K

/-- A call of `addEntry`, or transactions begin and end. -/
inductive Call (K : Type)
  | addEntry (junk : Lid) (x : Item K)
  | resolve (v : VisibilityResolver)

def IndexTree.step (cmp : Comparator K) (index : Lid) (s : IndexTree K) :
    Call K → Option (IndexTree K)
  | .addEntry junk x => do
    let (tree, work) ← BTree.addEntry cmp index junk x s.tree s.work
    return ⟨tree, work⟩
  | .resolve v => some { s with work := { s.work with resolver := v } }

/-- An index as `createRoot` makes it. -/
def IndexTree.Fresh (s : IndexTree K) : Prop :=
  ∃ v t pages, createRoot {} = some (t, pages) ∧ s = ⟨t, { resolver := v, pages }⟩

def IndexTree.flat (s : IndexTree K) : Flat K := BTree.flat s.tree.height [s.tree.root] s.work

theorem IndexTree.flat_leaves (s : IndexTree K) : s.flat.leaves = leaves s.tree.height s.tree.root :=
  List.append_nil _

theorem IndexTree.Fresh.sound {s : IndexTree K} (h : s.Fresh) : s.flat.Sound := by
  obtain ⟨v, t, pages, hroot, rfl⟩ := h
  cases hroot
  refine ⟨⟨rfl, trivial⟩, Multiset.nodup_singleton (0 : NodeAddress), ?_⟩
  intro a ha
  obtain rfl : a = 0 := Multiset.mem_singleton.mp ha
  exact ⟨(by decide : (0 : Nat) < 0 + nodeSize), by decide⟩

theorem IndexTree.sound_of_reaches {s₀ s : IndexTree K} {ok : IndexTree K → Call K → Prop}
    (h : Reaches (IndexTree.step cmp index) ok s₀ s) (hfresh : s₀.Fresh) : s.flat.Sound := by
  refine h.invariant (I := fun s => s.flat.Sound) hfresh.sound ?_
  intro s c s' hs _ hstep
  cases c with
  | addEntry junk x =>
    obtain ⟨⟨tree, work⟩, hadd, hstep⟩ := Option.bind_eq_some_iff.mp hstep
    cases hstep
    obtain ⟨mid, hchanges, hput⟩ := addRoot_adds hadd
    exact (hs.changes hchanges).puts hput
  | resolve v =>
    cases hstep
    exact ⟨hs.linked, hs.distinct, hs.assigned⟩

/-- The walk goes through the leaves as they are. -/
theorem Flat.Sound.follow (h : f.Sound) {A B : List (Leaf K)} (hleaves : f.leaves = A ++ B)
    {fuel : Nat} (hfuel : B.length ≤ fuel) : follow (A ++ B) fuel (startOf newNode B) = B := by
  have hdistinct := h.distinct
  have hlinked := h.linked
  have hids : (f.leaves.map (·.id)).Nodup := by
    have hle : (f.leaves.map (·.id) : Multiset NodeAddress) ≤ f.addresses :=
      le_trans (Multiset.le_add_right _ _) (Multiset.le_add_right _ _)
    exact Multiset.coe_nodup.mp (Multiset.nodup_of_le hle hdistinct)
  have hafter : newNode ∉ f.leaves.map (·.id) := by
    intro hmem
    have hassigned := h.assigned newNode (by
      simp only [Flat.addresses, Multiset.mem_add, Multiset.mem_coe]
      exact .inl (.inl hmem))
    exact absurd hassigned.2 (by decide)
  rw [hleaves] at hlinked hids hafter
  exact follow_linked hlinked hids hafter hfuel

/-- In every run the walk along `nextLeaf` from the first leaf meets the leaves of the
tree in their order and ends behind the last one; and no page belongs to two nodes or
to a node and to the dropped pages. -/
theorem leaves_followed {s₀ s : IndexTree K}
    (h : Reaches (IndexTree.step cmp index) (fun _ _ => True) s₀ s) (hfresh : s₀.Fresh) :
    let l := leaves s.tree.height s.tree.root
    (∀ fuel, l.length ≤ fuel → follow l fuel (startOf newNode l) = l) ∧
      ((l.map (·.id) : Multiset NodeAddress) + innerIDs s.tree.height s.tree.root +
        (s.work.pages.dropped : Multiset NodeAddress)).Nodup := by
  have hsound := IndexTree.sound_of_reaches h hfresh
  have hinner : innerIDs s.tree.height s.tree.root = s.flat.inner := (add_zero _).symm
  simp only
  rw [hinner, ← s.flat_leaves]
  exact ⟨fun fuel hfuel => hsound.follow (A := []) rfl hfuel, hsound.distinct⟩

theorem leaves_followed_two : ∃ s : IndexTree IntKey, s.tree.entries.map (·.key) = [.wrap 1, .wrap 3] ∧
    let l := leaves s.tree.height s.tree.root
    (∀ fuel, l.length ≤ fuel → BTree.follow l fuel (startOf newNode l) = l) ∧
      ((l.map (·.id) : Multiset NodeAddress) + innerIDs s.tree.height s.tree.root +
        (s.work.pages.dropped : Multiset NodeAddress)).Nodup := by
  obtain ⟨s, hs, htwo⟩ := Reaches.of_play (IndexTree.step IntComparator.ordered.toComparator 1)
    (fun _ _ => True) ⟨emptyTree, emptyWork⟩
    [.addEntry 0 ⟨.wrap 3, ⟨5, 7, -1, 4⟩⟩, .addEntry 0 ⟨.wrap 1, ⟨5, 7, -1, 4⟩⟩]
    (fun s => s.tree.entries.map (·.key) = [.wrap 1, .wrap 3]) (by decide +kernel)
  exact ⟨s, of_decide_eq_true htwo, leaves_followed hs ⟨_, _, _, rfl, rfl⟩⟩

end

end BTree

end Loxim.Indexes
