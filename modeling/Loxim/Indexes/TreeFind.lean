import Loxim.Indexes.TreeOrder

/-!
# Searching a B-tree

`find` goes down beside the separators that are smaller than what is searched for, and
stops at the first entry of the leaf that is not. It does not look into the next leaf:
where the leaf has no such entry it finds nothing, though the leaves behind may hold
what is searched for. A scan is right just when its start is found.
-/

namespace Loxim.Indexes

variable {K C : Type}

namespace BTree

/-- Whether what is searched for is greater than a key. With a `MinComparator` it never
is. -/
def isAfter (cmp : Comparator K) (bound : Option K) (k : K) : Bool :=
  bound.any fun v => 0 < cmp.keyCompare v k

/-- The child before the first separator that is not smaller. -/
def childFor (cmp : Comparator K) (bound : Option K) : C → List (NodeEntry K C) → C
  | child, [] => child
  | child, entry :: entries =>
    if isAfter cmp bound entry.separator.key then childFor cmp bound entry.child entries else child

/-- `nodeResult`, and the entries from `entryResult` to the end of the leaf. -/
def find (cmp : Comparator K) (bound : Option K) : (n : Nat) → Node K n → Option (Leaf K × List (Item K))
  | 0, leaf =>
    let leaf : Leaf K := leaf
    match leaf.items.dropWhile fun e => isAfter cmp bound e.key with
    | [] => none
    | e :: rest => some (leaf, e :: rest)
  | n + 1, node =>
    let node : Inner K (Node K n) := node
    find cmp bound n (childFor cmp bound node.firstChild node.entries)

/-- Where a traveller is put. It comes to the leaves behind by their addresses. -/
def position (cmp : Comparator K) (t : BTree K) : Find K := fun bound =>
  (find cmp bound t.height t.root).map fun (leaf, entry) =>
    let all := leaves t.height t.root
    ⟨entry, (follow all all.length leaf.nextLeaf).map (·.items)⟩

/-- The keys of the leaves alone. -/
theorem leafKeys_sublist : (n : Nat) → (node : Node K n) →
    ((leaves n node).flatMap leafKeys).Sublist (keys n node)
  | 0, leaf => by
    change (leafKeys leaf ++ []).Sublist (leafKeys leaf)
    rw [List.append_nil]
  | n + 1, node => by
    have hentries (entries : List (NodeEntry K (Node K n))) :
        ((leavesOf n (entries.map (·.child))).flatMap leafKeys).Sublist
          (entryKeys (keys n) entries) := by
      induction entries with
      | nil => exact List.Sublist.refl _
      | cons e entries ih =>
        rw [List.map_cons, leavesOf_cons, List.flatMap_append, entryKeys_cons]
        exact ((leafKeys_sublist n e.child).append ih).cons _
    have hnode : leaves (n + 1) node = leaves n (Inner.firstChild node) ++
        leavesOf n ((Inner.entries node).map (·.child)) := rfl
    rw [hnode, List.flatMap_append]
    exact (leafKeys_sublist n _).append (hentries _)

theorem leafKeys_passed {n : Nat} (passed : List (Node K n × Separator K)) :
    (leavesOf n (passed.map Prod.fst)).flatMap leafKeys ⊆ passedKeys (keys n) passed := by
  induction passed with
  | nil => exact List.Subset.refl _
  | cons c passed ih =>
    obtain ⟨first, s⟩ := c
    rw [List.map_cons, leavesOf_cons, List.flatMap_append, passedKeys_cons]
    refine List.append_subset.mpr ⟨fun k hk => ?_, fun k hk => ?_⟩
    · exact List.mem_append_left _ ((leafKeys_sublist n first).subset hk)
    · exact List.mem_append_right _ (List.mem_cons_of_mem _ (ih hk))

theorem leafKeys_entries {n : Nat} (entries : List (NodeEntry K (Node K n))) :
    (leavesOf n (entries.map (·.child))).flatMap leafKeys ⊆ entryKeys (keys n) entries := by
  induction entries with
  | nil => exact List.Subset.refl _
  | cons e entries ih =>
    rw [List.map_cons, leavesOf_cons, List.flatMap_append, entryKeys_cons]
    refine List.append_subset.mpr ⟨fun k hk => ?_, fun k hk => ?_⟩
    · exact List.mem_cons_of_mem _
        (List.mem_append_left _ ((leafKeys_sublist n e.child).subset hk))
    · exact List.mem_cons_of_mem _ (List.mem_append_right _ (ih hk))

theorem dropWhile_eq_of_forall {α : Type} {p q : α → Bool} {l : List α} (h : ∀ a ∈ l, p a = q a) :
    l.dropWhile p = l.dropWhile q := by
  induction l with
  | nil => rfl
  | cons a l ih =>
    rw [List.dropWhile_cons, List.dropWhile_cons, h a List.mem_cons_self,
      ih fun b hb => h b (List.mem_cons_of_mem _ hb)]

theorem firstAt_append {condition : Item K → Bool} {A B : List (List (Item K))}
    (hA : ∀ e ∈ A.flatten, condition e = false) : firstAt condition (A ++ B) = firstAt condition B := by
  induction A with
  | nil => rfl
  | cons leaf A ih =>
    have hleaf : leaf.dropWhile (! condition ·) = [] := by
      rw [List.dropWhile_eq_nil_iff]
      intro e he
      rw [hA e (by simp [he])]
      rfl
    rw [List.cons_append, firstAt, hleaf]
    exact ih fun e he => hA e (by rw [List.flatten_cons]; exact List.mem_append_right _ he)

theorem entriesOf_eq (l : List (Leaf K)) : entriesOf l = (l.map (·.items)).flatten := by
  rw [entriesOf, List.flatMap_def]

-- ---------------------------------------------------------------------------
-- The way down
-- ---------------------------------------------------------------------------

section

variable [LinearOrder K] {cmp : Comparator K} {D : K → Prop} {bound : Option K}

theorem isAfter_iff (hcmp : ∀ a b, D a → D b → cmp.Tells a b) (hbound : ∀ v ∈ bound, D v) {k : K}
    (hk : D k) : isAfter cmp bound k = !bound.all (· ≤ k) := by
  cases bound with
  | none => rfl
  | some v =>
    rw [isAfter, Option.any_some, Option.all_some, Bool.eq_iff_iff, decide_eq_true_iff]
    rw [(hcmp v k (hbound v rfl) hk).2]
    simp

theorem isAfter_mono (hcmp : ∀ a b, D a → D b → cmp.Tells a b) (hbound : ∀ v ∈ bound, D v) {j k : K}
    (hj : D j) (hk : D k) (hle : j ≤ k) (h : isAfter cmp bound k = true) :
    isAfter cmp bound j = true := by
  rw [isAfter_iff hcmp hbound hk] at h
  rw [isAfter_iff hcmp hbound hj]
  cases bound with
  | none => exact h
  | some v =>
    simp only [Option.all_some, Bool.not_eq_true', decide_eq_false_iff_not, not_le] at h ⊢
    exact hle.trans_lt h

/-- All keys on the left of the child are smaller, all on its right are not. -/
theorem childFor_place {f : C → List K} (hcmp : ∀ a b, D a → D b → cmp.Tells a b)
    (hbound : ∀ v ∈ bound, D v) (child : C) (entries : List (NodeEntry K C))
    (hD : ∀ k ∈ f child ++ entryKeys f entries, D k)
    (horder : (f child ++ entryKeys f entries).Pairwise (· ≤ ·)) :
    ∃ passed rest, close passed (childFor cmp bound child entries) rest = (child, entries) ∧
      (∀ k ∈ passedKeys f passed, isAfter cmp bound k = true) ∧
      ∀ k ∈ entryKeys f rest, isAfter cmp bound k = false := by
  induction entries generalizing child with
  | nil => exact ⟨[], [], rfl, by simp, by simp⟩
  | cons e entries ih =>
    rw [entryKeys_cons, List.pairwise_append, List.pairwise_cons] at horder
    obtain ⟨-, ⟨hbehind, hrest⟩, hchild⟩ := horder
    have hsep : D e.separator.key := hD _ (by simp)
    unfold childFor
    split
    · rename_i hafter
      obtain ⟨passed, rest, hclose, hpassed, hother⟩ := ih e.child
        (fun k hk => hD k (List.mem_append_right _ (List.mem_cons_of_mem _ hk))) hrest
      refine ⟨(child, e.separator) :: passed, rest, ?_, fun k hk => ?_, hother⟩
      · simp only [close, hclose]
      · simp only [passedKeys_cons, List.mem_append, List.mem_cons] at hk
        rcases hk with hk | rfl | hk
        · exact isAfter_mono hcmp hbound (hD k (List.mem_append_left _ hk)) hsep
            (hchild k hk _ List.mem_cons_self) hafter
        · exact hafter
        · exact hpassed k hk
    · rename_i hnot
      refine ⟨[], e :: entries, rfl, by simp, fun k hk => ?_⟩
      refine Bool.eq_false_iff.mpr fun hafter => hnot ?_
      rcases List.mem_cons.mp hk with rfl | hk'
      · exact hafter
      · exact isAfter_mono hcmp hbound hsep (hD k (List.mem_append_right _ hk)) (hbehind k hk') hafter

/-- By induction on the height: the search comes to one leaf, all before it is smaller and
all behind it is not. -/
theorem find_leaf (hcmp : ∀ a b, D a → D b → cmp.Tells a b) (hbound : ∀ v ∈ bound, D v) {n : Nat}
    {node : Node K n} (hD : ∀ k ∈ keys n node, D k) (horder : (keys n node).Pairwise (· ≤ ·)) :
    ∃ A leaf B, leaves n node = A ++ leaf :: B ∧
      (∀ k ∈ A.flatMap leafKeys, isAfter cmp bound k = true) ∧
      (∀ k ∈ B.flatMap leafKeys, isAfter cmp bound k = false) ∧
      find cmp bound n node = find cmp bound 0 leaf := by
  induction n with
  | zero => exact ⟨[], node, [], rfl, by simp, by simp, rfl⟩
  | succ n ih =>
    obtain ⟨passed, rest, hclose, hpassed, hrest⟩ := childFor_place hcmp hbound (f := keys n)
      (Inner.firstChild node) (Inner.entries node) hD horder
    generalize hc : childFor cmp bound (Inner.firstChild node) (Inner.entries node) = child at hclose
    have hkeys : keys (n + 1) node =
        passedKeys (keys n) passed ++ keys n child ++ entryKeys (keys n) rest := by
      have hkeys := close_keys (f := keys n) passed child rest
      rw [hclose] at hkeys
      exact hkeys
    have hkids := close_children passed child rest
    rw [hclose] at hkids
    rw [hkeys] at hD horder
    have hchild := (List.pairwise_append.mp (List.pairwise_append.mp horder).1).2.1
    obtain ⟨A, leaf, B, hleaves, hA, hB, hfind⟩ := ih (fun k hk => hD k (by simp [hk])) hchild
    have hsplit : leaves (n + 1) node = leavesOf n (passed.map Prod.fst) ++ leaves n child ++
        leavesOf n (rest.map (·.child)) := by
      change leavesOf n (Inner.firstChild node :: (Inner.entries node).map (·.child)) = _
      rw [hkids, leavesOf_append, leavesOf_cons, List.append_assoc]
    refine ⟨leavesOf n (passed.map Prod.fst) ++ A, leaf, B ++ leavesOf n (rest.map (·.child)), ?_,
      fun k hk => ?_, fun k hk => ?_, ?_⟩
    · rw [hsplit, hleaves]
      simp
    · rw [List.flatMap_append, List.mem_append] at hk
      exact hk.elim (fun hk => hpassed k (leafKeys_passed passed hk)) (hA k)
    · rw [List.flatMap_append, List.mem_append] at hk
      exact hk.elim (hB k) fun hk => hrest k (leafKeys_entries rest hk)
    · rw [← hfind, ← hc]
      rfl

-- ---------------------------------------------------------------------------
-- What is found
-- ---------------------------------------------------------------------------

theorem IndexTree.InOrder.entries_kind {s : IndexTree K} (h : s.InOrder D) :
    ∀ e ∈ s.tree.entries, D e.key := by
  intro e he
  refine h.kind _ ((leafKeys_sublist s.tree.height s.tree.root).subset ?_)
  obtain ⟨leaf, hleaf, he⟩ := List.mem_flatMap.mp he
  exact List.mem_flatMap.mpr ⟨leaf, hleaf, List.mem_map_of_mem he⟩

theorem IndexTree.InOrder.entries_ordered {s : IndexTree K} (h : s.InOrder D) :
    Ordered s.tree.entries := by
  have hsublist := leafKeys_sublist s.tree.height s.tree.root
  have hkeys : (leaves s.tree.height s.tree.root).flatMap leafKeys = s.tree.entries.map (·.key) := by
    rw [entries, entriesOf, List.map_flatMap]
    rfl
  rw [hkeys] at hsublist
  exact List.pairwise_map.mp (h.order.sublist hsublist)

/-- In every run a search comes to one leaf, with all smaller entries before it and none
behind it. It finds the first entry of the index that is not smaller, if the leaf has
one; otherwise it finds nothing, whatever the leaves behind hold. -/
theorem position_eq (hcmp : ∀ a b, D a → D b → cmp.Tells a b) (hbound : ∀ v ∈ bound, D v)
    {index : Lid} {s₀ s : IndexTree K}
    (h : Reaches (IndexTree.step cmp index) (fun _ c => c.Within D) s₀ s) (hfresh : s₀.Fresh) :
    ∃ A leaf B, leaves s.tree.height s.tree.root = A ++ leaf :: B ∧
      (∀ e ∈ entriesOf A, atLeast bound e = false) ∧ (∀ e ∈ entriesOf B, atLeast bound e = true) ∧
      position cmp s.tree bound =
        if leaf.items.any (atLeast bound) then
          lowerBound ((leaves s.tree.height s.tree.root).map (·.items)) bound
        else none := by
  have hkeys := keys_inOrder hcmp h hfresh
  have hsound := IndexTree.sound_of_reaches h hfresh
  obtain ⟨A, leaf, B, hleaves, hA, hB, hfind⟩ := find_leaf hcmp hbound hkeys.kind hkeys.order
  have hall : ∀ e ∈ s.tree.entries, isAfter cmp bound e.key = !atLeast bound e :=
    fun e he => isAfter_iff hcmp hbound (hkeys.entries_kind e he)
  have hin : ∀ e, (e ∈ entriesOf A ∨ e ∈ leaf.items ∨ e ∈ entriesOf B) → e ∈ s.tree.entries := by
    intro e he
    rw [entries, hleaves, entriesOf_append, entriesOf_cons]
    simpa using he
  have hbefore : ∀ e ∈ entriesOf A, atLeast bound e = false := by
    intro e he
    obtain ⟨l, hl, he'⟩ := List.mem_flatMap.mp he
    have hafter := hA e.key (List.mem_flatMap.mpr ⟨l, hl, List.mem_map_of_mem he'⟩)
    simpa [hall e (hin e (.inl he))] using hafter
  have hbehind : ∀ e ∈ entriesOf B, atLeast bound e = true := by
    intro e he
    obtain ⟨l, hl, he'⟩ := List.mem_flatMap.mp he
    have hafter := hB e.key (List.mem_flatMap.mpr ⟨l, hl, List.mem_map_of_mem he'⟩)
    simpa [hall e (hin e (.inr (.inr he)))] using hafter
  refine ⟨A, leaf, B, hleaves, hbefore, hbehind, ?_⟩
  have hdrop : leaf.items.dropWhile (fun e => isAfter cmp bound e.key) =
      leaf.items.dropWhile (! atLeast bound ·) :=
    dropWhile_eq_of_forall fun e he => hall e (hin e (.inr (.inl he)))
  have hchain : (leaves s.tree.height s.tree.root).map (·.items) =
      A.map (·.items) ++ leaf.items :: B.map (·.items) := by
    rw [hleaves, List.map_append, List.map_cons]
  have hnext : leaf.nextLeaf = startOf newNode B := by
    have hlinked := hsound.linked
    rw [s.flat_leaves, hleaves] at hlinked
    exact ((linked_append A _).mp hlinked).2.1
  have hfollow : follow (A ++ leaf :: B) (A ++ leaf :: B).length leaf.nextLeaf = B := by
    have hsplit : A ++ leaf :: B = (A ++ [leaf]) ++ B := by simp
    rw [hnext, hsplit]
    refine hsound.follow (s.flat_leaves.trans (hleaves.trans hsplit)) ?_
    rw [← hsplit, List.length_append, List.length_cons]
    exact (Nat.le_succ _).trans (Nat.le_add_left ..)
  rw [lowerBound, hchain, firstAt_append (by rwa [← entriesOf_eq]), firstAt]
  simp only [position, hleaves, hfind, find, hdrop]
  cases hrest : leaf.items.dropWhile (! atLeast bound ·) with
  | nil =>
    have hany : leaf.items.any (atLeast bound) = false := by
      rw [List.any_eq_false]
      intro e he
      simpa using List.dropWhile_eq_nil_iff.mp hrest e he
    rw [hany]
    rfl
  | cons e rest =>
    have hany : leaf.items.any (atLeast bound) = true := by
      by_contra hnot
      have hnil : leaf.items.dropWhile (! atLeast bound ·) = [] := by
        rw [List.dropWhile_eq_nil_iff]
        intro e he
        simpa using List.any_eq_false.mp (Bool.eq_false_iff.mpr hnot) e he
      rw [hnil] at hrest
      cases hrest
    rw [hany, if_pos rfl]
    simp only [Option.map_some, hfollow]

theorem position_eq_two : ∃ s : IndexTree IntKey, s.tree.entries.map (·.key) = [.wrap 1, .wrap 3] ∧
    ∃ A leaf B, leaves s.tree.height s.tree.root = A ++ leaf :: B ∧
      (∀ e ∈ entriesOf A, atLeast (some (.wrap 2)) e = false) ∧
      (∀ e ∈ entriesOf B, atLeast (some (.wrap 2)) e = true) ∧
      position IntComparator.ordered.toComparator s.tree (some (.wrap 2)) =
        if leaf.items.any (atLeast (some (.wrap 2))) then
          lowerBound ((leaves s.tree.height s.tree.root).map (·.items)) (some (.wrap 2))
        else none := by
  obtain ⟨s, hs, htwo⟩ := reaches_two
  refine ⟨s, htwo, position_eq digits_told ?_ hs ⟨_, _, _, rfl, rfl⟩⟩
  rintro _ ⟨⟩
  exact (by decide : (0 : Int) ≤ 2 ∧ (2 : Int) < 10)

-- ---------------------------------------------------------------------------
-- Scans
-- ---------------------------------------------------------------------------

/-- What a scan looks up in the tree. -/
def start : RangeConstraints K → Option K
  | .exact c => some c.value
  | .leftBounded c => some c.value
  | .rightBounded _ => none
  | .twoSide c => some c.leftValue

/-- The tree is asked only once. -/
theorem search_start (cmp : OrderedComparator K) (tree : Find K) (junk : K) (exceeded : Bool)
    (c : RangeConstraints K) :
    c.search cmp tree junk exceeded = c.search cmp (fun _ => tree (start c)) junk exceeded := by
  cases c with
  | exact | leftBounded | rightBounded | twoSide => rfl

theorem search_none (cmp : OrderedComparator K) (junk : K) (exceeded : Bool) (c : RangeConstraints K) :
    c.search cmp (fun _ => none) junk exceeded = [] := by
  cases c with
  | exact | leftBounded | rightBounded | twoSide => rfl

/-- A scan that starts where it should, with a comparator that tells the order. -/
theorem search_lowerBound {cmp : OrderedComparator K} {chain : List (List (Item K))}
    (hord : Ordered chain.flatten) {c : RangeConstraints K} (hjudged : c.judged cmp chain.flatten = true)
    (junk : K) (exceeded : Bool) :
    c.search cmp (lowerBound chain) junk exceeded = chain.flatten.filter (c.contains ·.key) := by
  cases c with
  | exact c => exact (c.added_iff hord rfl rfl).mpr hjudged
  | leftBounded c => exact (c.added_iff hord rfl rfl).mpr hjudged
  | rightBounded c => exact (c.added_iff hord rfl rfl).mpr hjudged
  | twoSide c => exact (c.added_iff hord rfl rfl).mpr hjudged

/-- In every run a scan hands over the entries of the index that lie in the interval, all
of them and in their order, if its start is found; if not, it hands over nothing. -/
theorem search_eq {cmp : OrderedComparator K} (hcmp : ∀ a b, D a → D b → cmp.Tells a b)
    {index : Lid} {s₀ s : IndexTree K}
    (h : Reaches (IndexTree.step cmp.toComparator index) (fun _ c => c.Within D) s₀ s)
    (hfresh : s₀.Fresh) (c : RangeConstraints K) (hc : ∀ v ∈ c.bounds, D v) (junk : K)
    (exceeded : Bool) :
    c.search cmp (position cmp.toComparator s.tree) junk exceeded =
      if (position cmp.toComparator s.tree (start c)).isSome then
        s.tree.entries.filter (c.contains ·.key)
      else [] := by
  have hkeys := keys_inOrder hcmp h hfresh
  have hbound : ∀ v ∈ start c, D v := by
    intro v hv
    refine hc v ?_
    cases c <;> simp_all [start, RangeConstraints.bounds]
  obtain ⟨A, leaf, B, hleaves, -, -, hposition⟩ := position_eq hcmp hbound h hfresh
  have hchain : ((leaves s.tree.height s.tree.root).map (·.items)).flatten = s.tree.entries :=
    (entriesOf_eq _).symm
  rw [search_start]
  cases hfound : position cmp.toComparator s.tree (start c) with
  | none => exact search_none cmp junk exceeded c
  | some p =>
    have hlower : lowerBound ((leaves s.tree.height s.tree.root).map (·.items)) (start c) = some p := by
      rw [hfound] at hposition
      split at hposition
      · exact hposition.symm
      · cases hposition
    have hjudged : c.judged cmp s.tree.entries = true :=
      RangeConstraints.judged_of_tells fun v hv => ⟨hcmp v v (hc v hv) (hc v hv),
        fun e he => hcmp v e.key (hc v hv) (hkeys.entries_kind e he)⟩
    have hord := hkeys.entries_ordered
    rw [← hchain] at hjudged hord ⊢
    rw [Option.isSome_some, if_pos rfl, ← hlower, ← search_start, search_lowerBound hord hjudged]

theorem search_eq_two : ∃ s : IndexTree IntKey, s.tree.entries.map (·.key) = [.wrap 1, .wrap 3] ∧
    (RangeConstraints.leftBounded ⟨true, .wrap 2⟩).search IntComparator.ordered
        (position IntComparator.ordered.toComparator s.tree) (.wrap 0) false =
      if (position IntComparator.ordered.toComparator s.tree (some (.wrap 2))).isSome then
        s.tree.entries.filter ((RangeConstraints.leftBounded ⟨true, .wrap 2⟩).contains ·.key)
      else [] := by
  obtain ⟨s, hs, htwo⟩ := reaches_two
  refine ⟨s, htwo, search_eq digits_told hs ⟨_, _, _, rfl, rfl⟩ _ ?_ _ _⟩
  intro v hv
  rw [List.mem_singleton.mp hv]
  exact (by decide : (0 : Int) ≤ 2 ∧ (2 : Int) < 10)

end

end BTree

end Loxim.Indexes
