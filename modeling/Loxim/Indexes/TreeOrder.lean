import Loxim.Indexes.RangeScan
import Loxim.Indexes.TreeContent
import Loxim.Lib.Drawn

/-!
# The order of the keys in a B-tree

Read from left to right, with the separators between the children, the keys of a tree
are in order: every operation moves them about without a change of their order, and
the way down of a new entry has smaller keys on its left and greater ones on its right.
Logical ids play no part in it, so it does not matter that balancing leaves old ones in
the separators.
-/

namespace Loxim.Indexes

variable {K C : Type}

-- ---------------------------------------------------------------------------
-- Cleaning
-- ---------------------------------------------------------------------------

namespace Cleaner

variable {cmp : Comparator K} {index : Lid}

theorem seek_parts {n : Nat} {l p q : List (Item K)} (h : seek cmp n l = some (p, q)) : p ++ q = l := by
  fun_induction seek cmp n l generalizing p q with
  | case1 l => cases h; rfl
  | case2 n => cases h; rfl
  | case3 n e l hle ih =>
    obtain ⟨⟨p', q'⟩, hseek, heq⟩ := Option.map_eq_some_iff.mp h
    cases heq
    exact congrArg (e :: ·) (ih hseek)
  | case4 n e l hle => cases h

/-- A step takes entries out; it brings none in and keeps their order. -/
theorem Sweep.step_keys {s s' : Sweep K} {e : Item K} {rest : List (Item K)}
    (h : s.step cmp index e rest = some s') :
    ((s'.before ++ s'.rest).map (·.key)).Sublist ((s.before ++ e :: rest).map (·.key)) := by
  unfold Sweep.step at h
  split at h
  · obtain ⟨v, -, h⟩ := Option.bind_eq_some_iff.mp h
    cases h
    exact ((List.sublist_cons_self e rest).append_left s.before).map _
  · have hbefore : ((s.enter e.entry.logicalID).note e.entry).before = s.before := by
      unfold Sweep.note Sweep.enter
      repeat' split
      all_goals rfl
    generalize (s.enter e.entry.logicalID).note e.entry = s₁ at h hbefore
    have hkeys : (s.before ++ e :: rest).map (·.key) =
        (s₁.before ++ stamp e :: rest).map (·.key) := by
      rw [hbefore, List.map_append, List.map_append]
      rfl
    rw [hkeys]
    simp only at h
    split at h
    · obtain ⟨⟨before, left⟩, hseek, h⟩ := Option.bind_eq_some_iff.mp h
      cases h
      have hparts : before ++ left.take 1 ++ left.drop 1 =
          ((s₁.before ++ stamp e :: rest).eraseIdx s₁.first).eraseIdx s₁.first := by
        rw [List.append_assoc, List.take_append_drop, seek_parts hseek]
      simp only [hparts]
      exact ((List.eraseIdx_sublist ..).trans (List.eraseIdx_sublist ..)).map _
    · cases h
      simp only [List.append_assoc, List.singleton_append]
      exact List.Sublist.refl _
  · cases h
    simp only [List.append_assoc, List.singleton_append]
    exact List.Sublist.refl _

theorem Sweep.run_keys {fuel : Nat} {s s' : Sweep K} (h : Sweep.run cmp index fuel s = some s') :
    ((s'.before ++ s'.rest).map (·.key)).Sublist ((s.before ++ s.rest).map (·.key)) := by
  induction fuel generalizing s with
  | zero =>
    cases h
    exact List.Sublist.refl _
  | succ fuel ih =>
    unfold Sweep.run at h
    cases hrest : s.rest with
    | nil =>
      rw [hrest] at h
      cases h
      rw [hrest]
    | cons e rest =>
      rw [hrest] at h
      obtain ⟨s₁, hstep, h⟩ := Option.bind_eq_some_iff.mp h
      exact (ih h).trans (Sweep.step_keys hstep)

theorem clean_keys {v v' : VisibilityResolver} {items items' : List (Item K)}
    (h : clean cmp index v items = some (v', items')) :
    (items'.map (·.key)).Sublist (items.map (·.key)) := by
  unfold clean at h
  split at h
  · cases h
    exact List.Sublist.refl _
  · obtain ⟨s, hrun, h⟩ := Option.bind_eq_some_iff.mp h
    cases h
    exact Sweep.run_keys hrun

end Cleaner

namespace BTree

-- ---------------------------------------------------------------------------
-- Keys
-- ---------------------------------------------------------------------------

section

variable (f : C → List K)

def passedKeys (passed : List (C × Separator K)) : List K :=
  passed.flatMap fun c => f c.1 ++ [c.2.key]

def entryKeys (entries : List (NodeEntry K C)) : List K :=
  entries.flatMap fun e => e.separator.key :: f e.child

def innerKeys (node : Inner K C) : List K := f node.firstChild ++ entryKeys f node.entries

def Place.keys (p : Place K C) : List K := passedKeys f p.passed ++ f p.child ++ entryKeys f p.rest

end

def leafKeys (leaf : Leaf K) : List K := leaf.items.map (·.key)

/-- The keys under a node from left to right, those of the separators among them. -/
def keys : (n : Nat) → Node K n → List K
  | 0, leaf => leafKeys leaf
  | n + 1, node => innerKeys (keys n) node

section

variable {f : C → List K}

@[simp] theorem passedKeys_append (a b : List (C × Separator K)) :
    passedKeys f (a ++ b) = passedKeys f a ++ passedKeys f b := List.flatMap_append

@[simp] theorem passedKeys_nil : passedKeys f ([] : List (C × Separator K)) = [] := rfl

@[simp] theorem passedKeys_cons (c : C) (s : Separator K) (l : List (C × Separator K)) :
    passedKeys f ((c, s) :: l) = f c ++ s.key :: passedKeys f l := by
  simp [passedKeys]

@[simp] theorem entryKeys_append (a b : List (NodeEntry K C)) :
    entryKeys f (a ++ b) = entryKeys f a ++ entryKeys f b := List.flatMap_append

@[simp] theorem entryKeys_nil : entryKeys f ([] : List (NodeEntry K C)) = [] := rfl

@[simp] theorem entryKeys_cons (e : NodeEntry K C) (l : List (NodeEntry K C)) :
    entryKeys f (e :: l) = e.separator.key :: (f e.child ++ entryKeys f l) := rfl

/-- The entry that is taken from the end of a list. -/
theorem entryKeys_getLast {l : List (NodeEntry K C)} {last : NodeEntry K C}
    (h : l.getLast? = some last) :
    entryKeys f l = entryKeys f l.dropLast ++ last.separator.key :: f last.child := by
  conv_lhs => rw [← List.dropLast_append_getLast? last h]
  simp

theorem close_keys (passed : List (C × Separator K)) (child : C) (rest : List (NodeEntry K C)) :
    f (close passed child rest).1 ++ entryKeys f (close passed child rest).2 =
      passedKeys f passed ++ f child ++ entryKeys f rest := by
  induction passed with
  | nil => rfl
  | cons a passed ih =>
    obtain ⟨first, s⟩ := a
    simp only [close, entryKeys_cons, passedKeys_cons, List.append_assoc, List.cons_append] at ih ⊢
    rw [ih]

theorem Place.node_keys (p : Place K C) (id : NodeAddress) : innerKeys f (p.node id) = p.keys f :=
  close_keys p.passed p.child p.rest

end

-- ---------------------------------------------------------------------------
-- Inner nodes
-- ---------------------------------------------------------------------------

section

variable {cmp : Comparator K} {f : C → List K} {s : Separator K}

theorem splitInner_keys {node left right : Inner K C} {new : NodeAddress}
    (h : splitInner cmp node new = some (left, s, right)) :
    innerKeys f node = innerKeys f left ++ s.key :: innerKeys f right := by
  obtain ⟨prev, hprev, h⟩ := Option.bind_eq_some_iff.mp h
  cases h
  have happ := cut_append (fun e : NodeEntry K C => cmp.innerEntrySize e.separator.key)
    nodeHeaderSize node.entries
  generalize cut (fun e : NodeEntry K C => cmp.innerEntrySize e.separator.key) nodeHeaderSize
    node.entries = halves at happ hprev
  unfold innerKeys
  rw [← happ, entryKeys_append, entryKeys_getLast hprev]
  simp

theorem mergeInner_keys {dest source node : Inner K C} (h : mergeInner cmp dest s source = some node) :
    innerKeys f dest ++ s.key :: innerKeys f source = innerKeys f node := by
  unfold mergeInner at h
  split at h
  · cases h
    simp [innerKeys]
  · cases h

theorem balanceBackInner_keys {dest source dest' source' : Inner K C} {key : K}
    (h : balanceBackInner cmp dest s source = some (dest', key, source')) :
    innerKeys f dest ++ s.key :: innerKeys f source =
      innerKeys f dest' ++ key :: innerKeys f source' ∧
      key :: innerKeys f source' ⊆ innerKeys f source := by
  unfold balanceBackInner at h
  generalize hborder : getBalanceBorder _ _ _ _ _ _ = border at h
  obtain ⟨moved, kept⟩ := border
  have happ := getBalanceBorder_append hborder
  obtain ⟨last, hlast, h⟩ := Option.bind_eq_some_iff.mp h
  simp only at h
  split at h
  · cases h
    have hsource : innerKeys f source = f source.firstChild ++ entryKeys f moved.dropLast ++
        (last.separator.key :: (f last.child ++ entryKeys f kept)) := by
      unfold innerKeys
      rw [← happ, entryKeys_append, entryKeys_getLast hlast]
      simp
    rw [hsource]
    refine ⟨by simp [innerKeys], ?_⟩
    exact (List.sublist_append_right ..).subset
  · cases h

theorem balanceForwardInner_keys {source dest source' dest' : Inner K C} {key : K} {junk : Lid}
    (h : balanceForwardInner cmp junk source s dest = some (source', key, dest')) :
    innerKeys f source ++ s.key :: innerKeys f dest =
      innerKeys f source' ++ key :: innerKeys f dest' ∧
      innerKeys f source' ++ [key] ⊆ innerKeys f source := by
  unfold balanceForwardInner at h
  generalize hborder : getBalanceBorder _ _ _ _ _ _ = border at h
  obtain ⟨kept, rest⟩ := border
  have happ := getBalanceBorder_append hborder
  obtain ⟨-, -, h⟩ := Option.bind_eq_some_iff.mp h
  obtain ⟨last, hlast, h⟩ := Option.bind_eq_some_iff.mp h
  simp only at h
  split at h
  case isFalse => cases h
  cases h
  cases rest with
  | nil => cases hlast
  | cons e rest =>
    cases hlast
    have hsource : innerKeys f source = innerKeys f { source with entries := kept } ++
        [last.separator.key] ++ (f last.child ++ entryKeys f rest) := by
      unfold innerKeys
      rw [← happ]
      simp
    rw [hsource]
    refine ⟨by simp [innerKeys], ?_⟩
    exact (List.sublist_append_left ..).subset

theorem descend_keys {x : Item K} (child : C) (entries : List (NodeEntry K C)) :
    (descend cmp x child entries).keys f = f child ++ entryKeys f entries := by
  induction entries generalizing child with
  | nil => simp [descend, Place.keys]
  | cons e entries ih =>
    unfold descend
    split
    · simp only [Place.keys, passedKeys_cons, entryKeys_cons, List.append_assoc,
        List.cons_append] at ih ⊢
      rw [ih]
    · simp [Place.keys]

end

-- ---------------------------------------------------------------------------
-- Nodes of any height
-- ---------------------------------------------------------------------------

section

variable [LinearOrder K] {cmp : Comparator K} {index : Lid} {n : Nat} {w w' : Work K}
  {s : Separator K} {key : K}

theorem clean_drawn {node node' : Node K n} (h : clean cmp index n node w = some (node', w')) :
    Drawn (keys n node) (keys n node') := by
  cases n with
  | zero =>
    obtain ⟨⟨v, items⟩, hclean, h⟩ := Option.bind_eq_some_iff.mp h
    cases h
    exact .of_sublist (Cleaner.clean_keys hclean)
  | succ n =>
    cases h
    exact .refl _

theorem canTakeExtraKey_drawn {node node' : Node K n} {c : NodeCapacityType}
    (h : canTakeExtraKey cmp index n node w = some (c, node', w')) :
    Drawn (keys n node) (keys n node') := by
  unfold canTakeExtraKey at h
  split at h
  · cases h
    exact .refl _
  · obtain ⟨⟨node₁, w₁⟩, hclean, h⟩ := Option.bind_eq_some_iff.mp h
    simp only at h
    split at h
    · cases h
      exact clean_drawn hclean
    · cases h
      exact clean_drawn hclean

/-- The last key of some entries stands behind them once more. -/
theorem leafKeys_twice {left : List (Item K)} {last : Item K} (h : left.getLast? = some last)
    (right : List (Item K)) :
    Drawn ((left ++ right).map (·.key)) (left.map (·.key) ++ last.key :: right.map (·.key)) := by
  have hleft := List.dropLast_append_getLast? last h
  have htwice := (Drawn.twice last.key).within (left.dropLast.map (·.key)) (right.map (·.key))
  rw [← hleft]
  simpa using htwice

theorem splitChild_drawn {node left right : Node K n} {new : NodeAddress}
    (h : splitChild cmp n node new = some (left, s, right)) :
    Drawn (keys n node) (keys n left ++ s.key :: keys n right) := by
  cases n with
  | zero =>
    obtain ⟨prev, hprev, h⟩ := Option.bind_eq_some_iff.mp h
    cases h
    have happ := cut_append (fun e : Item K => cmp.leafEntrySize e.key) nodeHeaderSize
      (Leaf.items node)
    have htwice := leafKeys_twice hprev (cut (fun e : Item K => cmp.leafEntrySize e.key)
      nodeHeaderSize (Leaf.items node)).2
    rwa [happ] at htwice
  | succ n => exact .of_eq (splitInner_keys h)

theorem merge_drawn {dest source node : Node K n} (h : merge cmp n dest s source = some node) :
    Drawn (keys n dest ++ s.key :: keys n source) (keys n node) := by
  cases n with
  | zero =>
    replace h : mergeLeaf cmp dest source = some node := h
    unfold mergeLeaf at h
    split at h
    · cases h
      refine .of_sublist ?_
      change (List.map _ (_ ++ _)).Sublist _
      rw [List.map_append]
      exact (List.sublist_cons_self ..).append_left _
    · cases h
  | succ n => exact .of_eq (mergeInner_keys h)

theorem balanceBack_drawn {dest source dest' source' : Node K n}
    (h : balanceBack cmp n dest s source = some (dest', key, source')) :
    Drawn (keys n dest ++ s.key :: keys n source) (keys n dest' ++ key :: keys n source') ∧
      key :: keys n source' ⊆ keys n source := by
  cases n with
  | zero =>
    replace h : balanceBackLeaf cmp dest s source = some (dest', key, source') := h
    unfold balanceBackLeaf at h
    generalize hborder : getBalanceBorder _ _ _ _ _ _ = border at h
    obtain ⟨moved, kept⟩ := border
    have happ := getBalanceBorder_append hborder
    obtain ⟨last, hlast, h⟩ := Option.bind_eq_some_iff.mp h
    simp only at h
    split at h
    case isFalse => cases h
    cases h
    have hlast' := List.mem_of_getLast? hlast
    refine ⟨?_, ?_⟩
    · -- the old separator goes, the last key that is moved becomes the new one
      have htwice := (leafKeys_twice hlast kept).within (leafKeys dest) []
      have hdrop : Drawn (leafKeys dest ++ s.key :: leafKeys source)
          (leafKeys dest ++ leafKeys source) := .of_sublist ((List.sublist_cons_self ..).append_left _)
      rw [happ] at htwice
      refine hdrop.trans ?_
      simpa [keys, leafKeys] using htwice
    · change last.key :: kept.map (·.key) ⊆ leafKeys source
      unfold leafKeys
      rw [← happ, List.cons_subset]
      exact ⟨List.mem_map_of_mem (List.mem_append_left _ hlast'),
        List.map_subset _ (List.subset_append_right ..)⟩
  | succ n =>
    obtain ⟨heq, hsubset⟩ := balanceBackInner_keys h
    exact ⟨.of_eq heq, hsubset⟩

theorem balanceForward_drawn {source dest source' dest' : Node K n} {junk : Lid}
    (h : balanceForward cmp junk n source s dest = some (source', key, dest')) :
    Drawn (keys n source ++ s.key :: keys n dest) (keys n source' ++ key :: keys n dest') ∧
      keys n source' ++ [key] ⊆ keys n source := by
  cases n with
  | zero =>
    replace h : balanceForwardLeaf cmp source s dest = some (source', key, dest') := h
    unfold balanceForwardLeaf at h
    generalize hborder : getBalanceBorder _ _ _ _ _ _ = border at h
    obtain ⟨kept, moved⟩ := border
    have happ := getBalanceBorder_append hborder
    obtain ⟨last, hlast, h⟩ := Option.bind_eq_some_iff.mp h
    simp only at h
    split at h
    case isFalse => cases h
    cases h
    have hlast' := List.mem_of_getLast? hlast
    refine ⟨?_, ?_⟩
    · have htwice := (leafKeys_twice hlast moved).within [] (leafKeys dest)
      have hdrop : Drawn (leafKeys source ++ s.key :: leafKeys dest)
          (leafKeys source ++ leafKeys dest) := .of_sublist ((List.sublist_cons_self ..).append_left _)
      rw [happ] at htwice
      refine hdrop.trans ?_
      simpa [keys, leafKeys] using htwice
    · change kept.map (·.key) ++ [last.key] ⊆ leafKeys source
      unfold leafKeys
      rw [← happ, List.append_subset]
      refine ⟨List.map_subset _ (List.subset_append_left ..), ?_⟩
      exact List.cons_subset.mpr
        ⟨List.mem_map_of_mem (List.mem_append_left _ hlast'), List.nil_subset _⟩
  | succ n =>
    obtain ⟨heq, hsubset⟩ := balanceForwardInner_keys h
    exact ⟨.of_eq heq, hsubset⟩

end

-- ---------------------------------------------------------------------------
-- The way down
-- ---------------------------------------------------------------------------

section

variable [LinearOrder K] {cmp : Comparator K} {index : Lid} {x : Item K} {D : K → Prop}

theorem key_le_of_greaterThan {s : Separator K} (hcmp : cmp.Tells x.key s.key)
    (h : greaterThan cmp x s = true) : s.key ≤ x.key := by
  refine not_lt.mp fun hlt => ?_
  have hneg := hcmp.1.mpr hlt
  have hpos : 0 < cmp.compare x.key x.entry.logicalID s.key s.logicalID := of_decide_eq_true h
  rw [Comparator.compare, if_neg hneg.ne] at hpos
  exact absurd hpos hneg.not_gt

theorem le_key_of_not_greaterThan {s : Separator K} (hcmp : cmp.Tells x.key s.key)
    (h : greaterThan cmp x s = false) : x.key ≤ s.key := by
  refine not_lt.mp fun hlt => ?_
  have hpos := hcmp.2.mpr hlt
  refine absurd ?_ (of_decide_eq_false h)
  rw [Comparator.compare, if_neg hpos.ne']
  exact hpos

/-- The keys passed are not greater than the new one, those behind are not smaller. -/
structure Placed (f : C → List K) (x : Item K) (p : Place K C) : Prop where
  passed : ∀ k ∈ passedKeys f p.passed, k ≤ x.key
  rest : ∀ k ∈ entryKeys f p.rest, x.key ≤ k

section

variable {f : C → List K}

/-- By induction on the entries: the separator that is passed bounds all before it, the
one that is not bounds all behind it. -/
theorem descend_placed (hcmp : ∀ a b, D a → D b → cmp.Tells a b) (hx : D x.key) (child : C)
    (entries : List (NodeEntry K C)) (hD : ∀ k ∈ entryKeys f entries, D k)
    (horder : (f child ++ entryKeys f entries).Pairwise (· ≤ ·)) :
    Placed f x (descend cmp x child entries) := by
  induction entries generalizing child with
  | nil => exact ⟨by simp [descend], by simp [descend]⟩
  | cons e entries ih =>
    have hsep := hcmp x.key e.separator.key hx (hD _ (by simp))
    rw [entryKeys_cons, List.pairwise_append, List.pairwise_cons] at horder
    obtain ⟨-, ⟨hbehind, hrest⟩, hchild⟩ := horder
    unfold descend
    split
    · rename_i hgreater
      have hle := key_le_of_greaterThan hsep hgreater
      have h := ih e.child (fun k hk => hD k (by simp [hk])) hrest
      refine ⟨fun k hk => ?_, h.rest⟩
      simp only [passedKeys_cons, List.mem_append, List.mem_cons] at hk
      rcases hk with hk | rfl | hk
      · exact (hchild k hk _ List.mem_cons_self).trans hle
      · exact hle
      · exact h.passed k hk
    · rename_i hnot
      have hle := le_key_of_not_greaterThan hsep (by simpa using hnot)
      refine ⟨by simp, fun k hk => ?_⟩
      simp only [entryKeys_cons, List.mem_cons] at hk
      rcases hk with rfl | hk
      · exact hle
      · exact hle.trans (hbehind k hk)

end

variable {n : Nat} {w w' : Work K} {p p' : Place K (Node K n)}

theorem Placed.of_subset (h : Placed (keys n) x p)
    (hpassed : passedKeys (keys n) p'.passed ⊆ passedKeys (keys n) p.passed)
    (hrest : entryKeys (keys n) p'.rest ⊆ entryKeys (keys n) p.rest) : Placed (keys n) x p' :=
  ⟨fun k hk => h.passed k (hpassed hk), fun k hk => h.rest k (hrest hk)⟩

theorem remove_drawn {junk : Lid} (h : remove cmp junk n p w = some (p', w')) :
    Drawn (p.keys (keys n)) (p'.keys (keys n)) ∧
      passedKeys (keys n) p'.passed ⊆ passedKeys (keys n) p.passed ∧
      entryKeys (keys n) p'.rest ⊆ entryKeys (keys n) p.rest := by
  unfold remove at h
  split at h
  · -- the right neighbour
    rename_i next rest hrest
    have hp : p.keys (keys n) = passedKeys (keys n) p.passed ++
        (keys n p.child ++ next.separator.key :: keys n next.child) ++ entryKeys (keys n) rest := by
      simp [Place.keys, hrest]
    rw [hp, hrest]
    simp only at h
    split at h
    · obtain ⟨⟨child, key, brother⟩, hbalance, h⟩ := Option.bind_eq_some_iff.mp h
      simp only at h
      split at h
      case isFalse => cases h
      cases h
      obtain ⟨hdrawn, hsubset⟩ := balanceBack_drawn hbalance
      have hp' : Place.keys (keys n)
          { p with child, rest := ⟨brother, { next.separator with key }⟩ :: rest } =
          passedKeys (keys n) p.passed ++ (keys n child ++ key :: keys n brother) ++
            entryKeys (keys n) rest := by
        simp [Place.keys]
      rw [hp']
      refine ⟨hdrawn.within _ _, List.Subset.refl _, fun k hk => ?_⟩
      simp only [entryKeys_cons, List.mem_cons, List.mem_append] at hk ⊢
      have hmem : k = key ∨ k ∈ keys n brother → k ∈ keys n next.child :=
        fun hk => hsubset (List.mem_cons.mpr hk)
      rcases hk with hk | hk | hk
      · exact .inr (.inl (hmem (.inl hk)))
      · exact .inr (.inl (hmem (.inr hk)))
      · exact .inr (.inr hk)
    · obtain ⟨child, hmerge, h⟩ := Option.bind_eq_some_iff.mp h
      cases h
      refine ⟨(merge_drawn hmerge).within _ _, List.Subset.refl _, fun k hk => ?_⟩
      simp only [entryKeys_cons, List.mem_cons, List.mem_append]
      exact .inr (.inr hk)
  · -- the left neighbour
    rename_i hrest
    split at h
    case h_2 => cases h
    rename_i brother s prev passed hpassed
    have hpassed' : p.passed = (prev :: passed).reverse ++ [(brother, s)] := by
      rw [← List.reverse_inj, hpassed]
      simp
    have hkeys : passedKeys (keys n) p.passed = passedKeys (keys n) (prev :: passed).reverse ++
        (keys n brother ++ [s.key]) := by
      rw [hpassed', passedKeys_append, passedKeys_cons, passedKeys_nil]
    have hp : p.keys (keys n) = passedKeys (keys n) (prev :: passed).reverse ++
        (keys n brother ++ s.key :: keys n p.child) ++ [] := by
      simp only [Place.keys, hrest, hkeys, entryKeys_nil, List.append_assoc, List.singleton_append]
    rw [hp, hkeys]
    generalize (prev :: passed).reverse = before at h
    split at h
    · obtain ⟨⟨brother', key, child⟩, hbalance, h⟩ := Option.bind_eq_some_iff.mp h
      simp only at h
      split at h
      case isFalse => cases h
      cases h
      obtain ⟨hdrawn, hsubset⟩ := balanceForward_drawn hbalance
      have hp' : Place.keys (keys n)
          { p with child, passed := before ++ [(brother', { s with key })] } =
          passedKeys (keys n) before ++ (keys n brother' ++ key :: keys n child) ++ [] := by
        simp [Place.keys, hrest]
      rw [hp']
      refine ⟨hdrawn.within _ _, fun k hk => ?_, List.Subset.refl _⟩
      simp only [passedKeys_append, passedKeys_cons, passedKeys_nil, List.mem_append] at hk
      rw [List.mem_append, List.mem_append]
      exact hk.imp_right fun hk => .inl (hsubset (List.mem_append.mpr hk))
    · obtain ⟨child, hmerge, h⟩ := Option.bind_eq_some_iff.mp h
      cases h
      have hp' : Place.keys (keys n) { p with child, passed := before } =
          passedKeys (keys n) before ++ keys n child ++ [] := by
        simp [Place.keys, hrest]
      rw [hp']
      exact ⟨(merge_drawn hmerge).within _ _, List.subset_append_left .., List.Subset.refl _⟩

/-- The new separator is not smaller than the left half and not greater than the right
one, and the way goes on where the new key belongs. -/
theorem split_placed (hcmp : ∀ a b, D a → D b → cmp.Tells a b) (hx : D x.key)
    (hD : ∀ k ∈ p.keys (keys n), D k) (horder : (p.keys (keys n)).Pairwise (· ≤ ·))
    (h : split cmp x n p w = some (p', w')) (hplaced : Placed (keys n) x p) :
    Drawn (p.keys (keys n)) (p'.keys (keys n)) ∧ Placed (keys n) x p' := by
  obtain ⟨⟨new, pages⟩, -, h⟩ := Option.bind_eq_some_iff.mp h
  obtain ⟨⟨left, s, right⟩, hsplit, h⟩ := Option.bind_eq_some_iff.mp h
  have hdrawn := (splitChild_drawn hsplit).within (passedKeys (keys n) p.passed)
    (entryKeys (keys n) p.rest)
  have hcut := hdrawn.order horder
  have hsep := hcmp x.key s.key hx (hD s.key (hdrawn.subset (by simp)))
  rw [List.append_assoc, List.pairwise_append, List.append_assoc, List.pairwise_append,
    List.cons_append, List.pairwise_cons] at hcut
  obtain ⟨-, ⟨-, ⟨hright, -⟩, hleft⟩, -⟩ := hcut
  simp only at h
  split at h
  · rename_i hgreater
    cases h
    have hle := key_le_of_greaterThan hsep hgreater
    refine ⟨by simpa [Place.keys] using hdrawn, fun k hk => ?_, hplaced.rest⟩
    simp only [passedKeys_append, passedKeys_cons, passedKeys_nil, List.mem_append,
      List.mem_singleton] at hk
    rcases hk with hk | hk | rfl
    · exact hplaced.passed k hk
    · exact (hleft k hk _ List.mem_cons_self).trans hle
    · exact hle
  · rename_i hnot
    cases h
    have hle := le_key_of_not_greaterThan hsep (by simpa using hnot)
    refine ⟨by simpa [Place.keys] using hdrawn, hplaced.passed, fun k hk => ?_⟩
    simp only [entryKeys_cons, List.mem_cons, List.mem_append] at hk
    rcases hk with rfl | hk | hk
    · exact hle
    · exact hle.trans (hright k (List.mem_append_left _ hk))
    · exact hplaced.rest k hk

theorem testSize_placed (hcmp : ∀ a b, D a → D b → cmp.Tells a b) (hx : D x.key) {junk : Lid}
    (hD : ∀ k ∈ p.keys (keys n), D k) (horder : (p.keys (keys n)).Pairwise (· ≤ ·))
    (h : testSize cmp index junk x n p w = some (p', w')) (hplaced : Placed (keys n) x p) :
    Drawn (p.keys (keys n)) (p'.keys (keys n)) ∧ Placed (keys n) x p' := by
  have hchild {q : Place K (Node K n)} {c : NodeCapacityType} {child : Node K n} {w₁ w₂ : Work K}
      (hc : canTakeExtraKey cmp index n q.child w₁ = some (c, child, w₂)) :
      Drawn (q.keys (keys n)) (Place.keys (keys n) { q with child }) :=
    (canTakeExtraKey_drawn hc).within _ _
  obtain ⟨⟨c, child, w₁⟩, hc, h⟩ := Option.bind_eq_some_iff.mp h
  have hfirst := hchild hc
  have hplaced₁ : Placed (keys n) x { p with child } := ⟨hplaced.passed, hplaced.rest⟩
  cases c with
  | splitNeeded =>
    obtain ⟨hdrawn, hplaced'⟩ := split_placed hcmp hx (fun k hk => hD k (hfirst.subset hk))
      (hfirst.order horder) h hplaced₁
    exact ⟨hfirst.trans hdrawn, hplaced'⟩
  | properSize =>
    cases h
    exact ⟨hfirst, hplaced₁⟩
  | deleteNeeded =>
    obtain ⟨⟨p₂, w₂⟩, hremove, h⟩ := Option.bind_eq_some_iff.mp h
    obtain ⟨hdrawn, hpassed, hrest⟩ := remove_drawn hremove
    have hplaced₂ := hplaced₁.of_subset hpassed hrest
    simp only at h
    split at h
    · cases h
      exact ⟨hfirst.trans hdrawn, hplaced₂⟩
    · obtain ⟨⟨c', child', w₃⟩, hc', h⟩ := Option.bind_eq_some_iff.mp h
      simp only at h
      split at h
      · cases h
        exact ⟨(hfirst.trans hdrawn).trans (hchild hc'), hplaced₂.passed, hplaced₂.rest⟩
      · cases h

-- ---------------------------------------------------------------------------
-- Adding
-- ---------------------------------------------------------------------------

theorem put_taken (hcmp : ∀ a b, D a → D b → cmp.Tells a b) (hx : D x.key)
    {items items' : List (Item K)} {v v' : VisibilityResolver}
    (hD : ∀ k ∈ items.map (·.key), D k) (h : put cmp index x v items = some (v', items')) :
    Taken x.key (items.map (·.key)) (items'.map (·.key)) := by
  have htells : ∀ e ∈ items, cmp.Tells x.key e.separator.key :=
    fun e he => hcmp _ _ hx (hD _ (List.mem_map_of_mem he))
  cases put_cases h with
  | @cancelled before behind e _ _ hbefore hequal hsame hdropped =>
    have hless := ((List.sublist_cons_self e behind).append_left before).map (·.key)
    exact ⟨fun k hk => List.mem_cons_of_mem _ (hless.subset hk), fun ho => ho.sublist hless⟩
  | @added before rest _ _ hbefore hrest hadded =>
    refine ⟨fun k hk => ?_, fun horder => ?_⟩
    · simp only [List.map_append, List.map_cons, List.mem_append, List.mem_cons] at hk ⊢
      exact or_left_comm.mp hk
    · rw [List.map_append, List.pairwise_append] at horder
      obtain ⟨hb, hr, hbr⟩ := horder
      rw [List.map_append, List.map_cons, List.pairwise_append, List.pairwise_cons]
      have hlow : ∀ k ∈ before.map (·.key), k ≤ x.key := by
        intro k hk
        obtain ⟨e, he, rfl⟩ := List.mem_map.mp hk
        exact key_le_of_greaterThan (htells e (List.mem_append_left _ he)) (hbefore e he)
      have hhigh : ∀ k ∈ rest.map (·.key), x.key ≤ k := by
        cases rest with
        | nil => simp
        | cons e rest =>
          have hle := le_key_of_not_greaterThan (htells e (by simp)) (hrest e rfl)
          rw [List.map_cons, List.pairwise_cons] at hr
          rw [List.map_cons, List.forall_mem_cons]
          exact ⟨hle, fun k hk => hle.trans (hr.1 k hk)⟩
      refine ⟨hb, ⟨hhigh, hr⟩, fun a ha b hmem => ?_⟩
      rcases List.mem_cons.mp hmem with rfl | hmem
      · exact hlow a ha
      · exact hbr a ha b hmem

/-- By induction on the height. -/
theorem addTo_taken (hcmp : ∀ a b, D a → D b → cmp.Tells a b) (hx : D x.key) {junk : Lid}
    {node node' : Node K n} (hD : ∀ k ∈ keys n node, D k)
    (horder : (keys n node).Pairwise (· ≤ ·))
    (h : addTo cmp index junk x n node w = some (node', w')) :
    Taken x.key (keys n node) (keys n node') := by
  induction n generalizing w w' with
  | zero =>
    unfold addTo at h
    split at h
    case isFalse => cases h
    obtain ⟨⟨leaf, w₁⟩, hclean, h⟩ := Option.bind_eq_some_iff.mp h
    obtain ⟨⟨v, items⟩, hput, h⟩ := Option.bind_eq_some_iff.mp h
    cases h
    have hdrawn := clean_drawn hclean
    exact .of_drawn hdrawn (put_taken hcmp hx (fun k hk => hD k (hdrawn.subset hk)) hput)
  | succ n ih =>
    unfold addTo at h
    simp only at h
    split at h
    case isFalse => cases h
    obtain ⟨⟨p, w₁⟩, htest, h⟩ := Option.bind_eq_some_iff.mp h
    obtain ⟨⟨child, w₂⟩, hadd, h⟩ := Option.bind_eq_some_iff.mp h
    cases h
    have hstart : (descend cmp x (Inner.firstChild node) (Inner.entries node)).keys (keys n) =
        keys (n + 1) node := descend_keys _ _
    have hplaced := descend_placed (f := keys n) hcmp hx (Inner.firstChild node)
      (Inner.entries node) (fun k hk => hD k (List.mem_append_right _ hk)) horder
    obtain ⟨hdrawn, hplaced'⟩ := testSize_placed hcmp hx (hstart ▸ hD) (hstart ▸ horder) htest hplaced
    rw [hstart] at hdrawn
    have horder' := hdrawn.order horder
    have hmem : ∀ k ∈ keys n p.child, k ∈ p.keys (keys n) := fun k hk =>
      List.mem_append_left _ (List.mem_append_right _ hk)
    have hchild : (keys n p.child).Pairwise (· ≤ ·) :=
      (List.pairwise_append.mp (List.pairwise_append.mp horder').1).2.1
    have htaken := ih (fun k hk => hD k (hdrawn.subset (hmem k hk))) hchild hadd
    have hkeys : keys (n + 1) (Place.node { p with child } (Inner.id node)) =
        Place.keys (keys n) { p with child } := Place.node_keys _ _
    exact hkeys ▸ .of_drawn hdrawn (htaken.within _ _ hplaced'.passed hplaced'.rest)

theorem growRoot_taken (hcmp : ∀ a b, D a → D b → cmp.Tells a b) (hx : D x.key) {junk : Lid}
    {root : Node K n} {t : BTree K} (hD : ∀ k ∈ keys n root, D k)
    (horder : (keys n root).Pairwise (· ≤ ·))
    (h : growRoot cmp index junk x n root w = some (t, w')) :
    Taken x.key (keys n root) (keys t.height t.root) := by
  obtain ⟨⟨id, pages⟩, -, h⟩ := Option.bind_eq_some_iff.mp h
  obtain ⟨⟨p, w₁⟩, hsplit, h⟩ := Option.bind_eq_some_iff.mp h
  obtain ⟨⟨root', w₂⟩, hadd, h⟩ := Option.bind_eq_some_iff.mp h
  cases h
  have hwhole : Place.keys (keys n) (⟨[], root, []⟩ : Place K (Node K n)) = keys n root := by
    simp [Place.keys]
  have hplaced : Placed (keys n) x (⟨[], root, []⟩ : Place K (Node K n)) := ⟨by simp, by simp⟩
  obtain ⟨hdrawn, -⟩ := split_placed hcmp hx (hwhole.symm ▸ hD) (hwhole.symm ▸ horder) hsplit hplaced
  rw [hwhole] at hdrawn
  have hnode : keys (n + 1) (p.node id) = p.keys (keys n) := Place.node_keys p id
  refine .of_drawn (hdrawn.trans (.of_eq hnode.symm)) (addTo_taken hcmp hx ?_ ?_ hadd)
  · exact hnode.symm ▸ fun k hk => hD k (hdrawn.subset hk)
  · exact hnode.symm ▸ hdrawn.order horder

theorem addBelow_taken (hcmp : ∀ a b, D a → D b → cmp.Tells a b) (hx : D x.key) {junk : Lid}
    {root : Node K n} {t : BTree K} (hD : ∀ k ∈ keys n root, D k)
    (horder : (keys n root).Pairwise (· ≤ ·))
    (h : addBelow cmp index junk x n root w = some (t, w')) :
    Taken x.key (keys n root) (keys t.height t.root) := by
  obtain ⟨⟨root', w₁⟩, hadd, h⟩ := Option.bind_eq_some_iff.mp h
  cases h
  exact addTo_taken hcmp hx hD horder hadd

theorem addRoot_taken (hcmp : ∀ a b, D a → D b → cmp.Tells a b) (hx : D x.key) {junk : Lid}
    {root : Node K n} {t : BTree K} (hD : ∀ k ∈ keys n root, D k)
    (horder : (keys n root).Pairwise (· ≤ ·))
    (h : addRoot cmp index junk x n root w = some (t, w')) :
    Taken x.key (keys n root) (keys t.height t.root) := by
  induction n generalizing w with
  | zero =>
    obtain ⟨⟨c, root₁, w₁⟩, hc, h⟩ := Option.bind_eq_some_iff.mp h
    have hdrawn := canTakeExtraKey_drawn hc
    have hD₁ : ∀ k ∈ keys 0 root₁, D k := fun k hk => hD k (hdrawn.subset hk)
    refine .of_drawn hdrawn ?_
    cases c with
    | splitNeeded => exact growRoot_taken hcmp hx hD₁ (hdrawn.order horder) h
    | deleteNeeded | properSize => exact addBelow_taken hcmp hx hD₁ (hdrawn.order horder) h
  | succ n ih =>
    obtain ⟨⟨c, root₁, w₁⟩, hc, h⟩ := Option.bind_eq_some_iff.mp h
    have hdrawn := canTakeExtraKey_drawn hc
    have hD₁ : ∀ k ∈ keys (n + 1) root₁, D k := fun k hk => hD k (hdrawn.subset hk)
    have horder₁ := hdrawn.order horder
    refine .of_drawn hdrawn ?_
    cases c with
    | splitNeeded => exact growRoot_taken hcmp hx hD₁ horder₁ h
    | properSize => exact addBelow_taken hcmp hx hD₁ horder₁ h
    | deleteNeeded =>
      simp only at h
      split at h
      · rename_i hempty
        have hkeys : keys (n + 1) root₁ = keys n (Inner.firstChild root₁) := by
          change keys n (Inner.firstChild root₁) ++ entryKeys (keys n) (Inner.entries root₁) = _
          rw [List.isEmpty_iff.mp hempty, entryKeys_nil, List.append_nil]
        exact hkeys ▸ ih (hkeys ▸ hD₁) (hkeys ▸ horder₁) h
      · exact addBelow_taken hcmp hx hD₁ horder₁ h

-- ---------------------------------------------------------------------------
-- Runs
-- ---------------------------------------------------------------------------

/-- Only keys of `D` are added. -/
def Call.Within (D : K → Prop) : Call K → Prop
  | .addEntry _ x => D x.key
  | .resolve _ => True

/-- The keys of the tree, separators and all, are of `D` and in order. -/
structure IndexTree.InOrder (D : K → Prop) (s : IndexTree K) : Prop where
  kind : ∀ k ∈ keys s.tree.height s.tree.root, D k
  order : (keys s.tree.height s.tree.root).Pairwise (· ≤ ·)

/-- In every run from an empty index the keys of the tree are in order: each separator
bounds all that stands on its left and on its right. -/
theorem keys_inOrder (hcmp : ∀ a b, D a → D b → cmp.Tells a b) {s₀ s : IndexTree K}
    (h : Reaches (IndexTree.step cmp index) (fun _ c => c.Within D) s₀ s) (hfresh : s₀.Fresh) :
    s.InOrder D := by
  refine h.invariant (I := IndexTree.InOrder D) ?_ ?_
  · obtain ⟨v, t, pages, hroot, rfl⟩ := hfresh
    cases hroot
    exact ⟨List.forall_mem_nil _, .nil⟩
  · intro s c s' hs hx hstep
    cases c with
    | addEntry junk x =>
      obtain ⟨⟨tree, work⟩, hadd, hstep⟩ := Option.bind_eq_some_iff.mp hstep
      cases hstep
      have htaken := addRoot_taken hcmp hx hs.kind hs.order hadd
      refine ⟨fun k hk => ?_, htaken.order hs.order⟩
      rcases List.mem_cons.mp (htaken.subset hk) with rfl | hk
      · exact hx
      · exact hs.kind k hk
    | resolve v =>
      cases hstep
      exact ⟨hs.kind, hs.order⟩

/-- Numbers of one digit. -/
def Digit (k : IntKey) : Prop := 0 ≤ k.1 ∧ k.1 < 10

theorem digits_told : ∀ a b, Digit a → Digit b → IntComparator.ordered.toComparator.Tells a b := by
  rintro a b ⟨ha, ha'⟩ ⟨hb, hb'⟩
  exact IntComparator.tells ⟨by omega, by omega⟩

instance (c : Call IntKey) : Decidable (c.Within Digit) :=
  match c with
  | .addEntry _ x => inferInstanceAs (Decidable (0 ≤ x.key.1 ∧ x.key.1 < 10))
  | .resolve _ => inferInstanceAs (Decidable True)

theorem reaches_two : ∃ s : IndexTree IntKey,
    Reaches (IndexTree.step IntComparator.ordered.toComparator 1) (fun _ c => c.Within Digit)
      ⟨emptyTree, emptyWork⟩ s ∧ s.tree.entries.map (·.key) = [.wrap 1, .wrap 3] := by
  obtain ⟨s, hs, htwo⟩ := Reaches.of_play (IndexTree.step IntComparator.ordered.toComparator 1)
    (fun _ c => c.Within Digit) ⟨emptyTree, emptyWork⟩
    [.addEntry 0 ⟨.wrap 3, ⟨5, 7, -1, 4⟩⟩, .addEntry 0 ⟨.wrap 1, ⟨5, 7, -1, 4⟩⟩]
    (fun s => s.tree.entries.map (·.key) = [.wrap 1, .wrap 3]) (by decide +kernel)
  exact ⟨s, hs, of_decide_eq_true htwo⟩

theorem keys_inOrder_two : ∃ s : IndexTree IntKey,
    s.tree.entries.map (·.key) = [.wrap 1, .wrap 3] ∧ s.InOrder Digit := by
  obtain ⟨s, hs, htwo⟩ := reaches_two
  exact ⟨s, htwo, keys_inOrder digits_told hs ⟨_, _, _, rfl, rfl⟩⟩

end

end BTree

end Loxim.Indexes
