import Mathlib.Data.Set.Card
import Loxim.Indexes.NodeLists
import Loxim.Indexes.NodeCache

/-!
# The books of the node cache

`Books` ties the two counts and the two maps of free pages to the cache itself.
Taking a page, letting it go and flushing keep them.
-/

namespace Loxim.Indexes.NodeCache

variable {c c' : NodeCache} {e : Chance} {free : List NodeAddress} {own : Lid → List NodeAddress}

-- ---------------------------------------------------------------------------
-- The two maps
-- ---------------------------------------------------------------------------

/-- A handler with free pages is registered once, by its lowest page. -/
def Registered (c : NodeCache) : Prop :=
  ∀ i p, (p, i) ∈ c.freeHandlers ↔ ∃ d, firstKey (c.freeNodes i) = some d ∧ p = c.rootLevel i - d

theorem Registered.none (h : c.Registered) (hd : firstKey (c.freeNodes i) = none) (p : Int) :
    (p, i) ∉ c.freeHandlers := by
  rw [h i p, hd]
  simp

theorem Registered.some (h : c.Registered) (hd : firstKey (c.freeNodes i) = some d) (p : Int) :
    (p, i) ∈ c.freeHandlers ↔ p = c.rootLevel i - d := by
  rw [h i p, hd]
  simp

/-- Only the registration of handler `i` changes. -/
theorem Registered.change (h : c.Registered)
    (hF : ∀ j, j ≠ i → c'.freeNodes j = c.freeNodes j)
    (hL : ∀ j, j ≠ i → c'.rootLevel j = c.rootLevel j)
    (hH : ∀ j, j ≠ i → ∀ p, (p, j) ∈ c'.freeHandlers ↔ (p, j) ∈ c.freeHandlers)
    (hi : ∀ p, (p, i) ∈ c'.freeHandlers ↔
      ∃ d, firstKey (c'.freeNodes i) = .some d ∧ p = c'.rootLevel i - d) :
    c'.Registered := by
  intro j p
  by_cases hj : j = i
  · subst hj
    exact hi p
  · rw [hH j hj, hF j hj, hL j hj]
    exact h j p

theorem removeHandler_eq (hm : (p, i) ∈ c.freeHandlers) :
    c.removeHandler i p = some { c with freeHandlers := c.freeHandlers.erase (p, i) } := by
  have hmem : (p, i) ∈ c.freeHandlers.filter (·.1 = p) := by simp [hm]
  unfold removeHandler
  dsimp only
  rw [if_neg (Finset.ne_empty_of_mem hmem)]
  split
  · rename_i hcard
    obtain ⟨x, hx⟩ := Finset.card_eq_one.mp hcard
    rw [hx, Finset.mem_singleton] at hmem
    rw [hx, ← hmem, Finset.sdiff_singleton_eq_erase]
  · rfl

theorem changePriority_eq (hm : (p, i) ∈ c.freeHandlers) :
    c.changePriority i p q =
      some { c with freeHandlers := insert (q, i) (c.freeHandlers.erase (p, i)) } := by
  simp [changePriority, removeHandler_eq hm, addHandler]

theorem setFree_ok (h : c.Registered) :
    ∃ H, c.setFree i a = some { c.update a (fun n => { n with freeIn := some i }) with
        freeNodes := Function.update c.freeNodes i (insert (c.depth a, a) (c.freeNodes i))
        freeHandlers := H } ∧
      Registered { c.update a (fun n => { n with freeIn := some i }) with
        freeNodes := Function.update c.freeNodes i (insert (c.depth a, a) (c.freeNodes i))
        freeHandlers := H } := by
  cases hd : firstKey (c.freeNodes i) with
  | none =>
    refine ⟨insert (c.rootLevel i - c.depth a, i) c.freeHandlers, by simp [setFree, hd, addHandler, update],
      h.change (i := i) ?_ (fun _ _ => rfl) ?_ ?_⟩
    · intro j hj
      simp [hj]
    · intro j hj p
      simp [hj]
    · intro p
      simp [h.none hd p, firstKey_insert_empty hd, update]
  | some d =>
    have hm := h.some hd
    by_cases hlt : c.depth a < d
    · refine ⟨insert (c.rootLevel i - c.depth a, i) (c.freeHandlers.erase (c.rootLevel i - d, i)),
        by simp [setFree, hd, hlt, changePriority_eq ((hm _).mpr rfl), update],
        h.change (i := i) ?_ (fun _ _ => rfl) ?_ ?_⟩
      · intro j hj
        simp [hj]
      · intro j hj p
        simp [hj]
      · intro p
        simp [hm p, firstKey_insert hd, min_eq_right hlt.le, update]
    · refine ⟨c.freeHandlers, by simp [setFree, hd, hlt, update], h.change (i := i) ?_
        (fun _ _ => rfl) (fun _ _ _ => Iff.rfl) ?_⟩
      · intro j hj
        simp [hj]
      · intro p
        simp [hm p, firstKey_insert hd, min_eq_left (not_lt.mp hlt), update]

theorem setNotFree_ok (h : c.Registered) (hm : (c.depth a, a) ∈ c.freeNodes i) :
    ∃ H, c.setNotFree i a = some { c.update a (fun n => { n with freeIn := none }) with
        freeNodes := Function.update c.freeNodes i ((c.freeNodes i).erase (c.depth a, a))
        freeHandlers := H } ∧
      Registered { c.update a (fun n => { n with freeIn := none }) with
        freeNodes := Function.update c.freeNodes i ((c.freeNodes i).erase (c.depth a, a))
        freeHandlers := H } := by
  cases hd : firstKey ((c.freeNodes i).erase (c.depth a, a)) with
  | none =>
    -- the page was the only one of its handler
    have hfirst : firstKey (c.freeNodes i) = .some (c.depth a) := by
      have hins := firstKey_insert_empty (q := c.depth a) (a := a) hd
      rwa [Finset.insert_erase hm] at hins
    have hmem := h.some hfirst
    refine ⟨c.freeHandlers.erase (c.rootLevel i - c.depth a, i), ?_, h.change (i := i) ?_
      (fun _ _ => rfl) ?_ ?_⟩
    · simp only [setNotFree, if_pos hm, Function.update_self, hd]
      rw [removeHandler_eq]
      · rfl
      · exact (hmem _).mpr rfl
    · intro j hj
      simp [hj]
    · intro j hj p
      simp [hj]
    · intro p
      simp [hmem p, hd]
  | some d =>
    have hmem := h.some (firstKey_of_erase hm hd)
    by_cases hlt : d > c.depth a
    · rw [min_eq_right hlt.le] at hmem
      refine ⟨insert (c.rootLevel i - d, i) (c.freeHandlers.erase (c.rootLevel i - c.depth a, i)), ?_,
        h.change (i := i) ?_ (fun _ _ => rfl) ?_ ?_⟩
      · simp only [setNotFree, if_pos hm, Function.update_self, hd, if_pos hlt]
        rw [changePriority_eq]
        · rfl
        · exact (hmem _).mpr rfl
      · intro j hj
        simp [hj]
      · intro j hj p
        simp [hj]
      · intro p
        simp [hmem p, hd, update]
    · rw [min_eq_left (not_lt.mp hlt)] at hmem
      refine ⟨c.freeHandlers, ?_, h.change (i := i) ?_ (fun _ _ => rfl) (fun _ _ _ => Iff.rfl) ?_⟩
      · simp only [setNotFree, if_pos hm, Function.update_self, hd, if_neg hlt]
        rfl
      · intro j hj
        simp [hj]
      · intro p
        simp [hmem p, hd, update]

theorem rootChange_ok (h : c.Registered) (hne : c.rootLevel i ≠ q) :
    ∃ H, c.rootChange i q = some { c with
        rootLevel := Function.update c.rootLevel i q
        freeHandlers := H } ∧
      Registered { c with rootLevel := Function.update c.rootLevel i q, freeHandlers := H } := by
  cases hd : firstKey (c.freeNodes i) with
  | none =>
    refine ⟨c.freeHandlers, by simp [rootChange, hne, hd], h.change (i := i) (fun _ _ => rfl) ?_
      (fun _ _ _ => Iff.rfl) ?_⟩
    · intro j hj
      simp [hj]
    · intro p
      simp [h.none hd p, hd]
  | some d =>
    have hmem := h.some hd
    refine ⟨insert (q - d, i) (c.freeHandlers.erase (c.rootLevel i - d, i)),
      by simp [rootChange, hne, hd, changePriority_eq ((hmem _).mpr rfl)],
      h.change (i := i) (fun _ _ => rfl) ?_ ?_ ?_⟩
    · intro j hj
      simp [hj]
    · intro j hj p
      simp [hj]
    · intro p
      simp [hmem p, hd]

-- ---------------------------------------------------------------------------
-- The counts
-- ---------------------------------------------------------------------------

def cachedNodes (c : NodeCache) : Set NodeAddress := {a | (c.file.cache a).isSome}

def usedNodes (c : NodeCache) : Set NodeAddress := {a | c.file.users a ≠ 0}

structure Counted (c : NodeCache) : Prop where
  finite : c.cachedNodes.Finite
  cached : c.cachedCount = c.cachedNodes.ncard
  used : c.usedCount = c.usedNodes.ncard

theorem usedNodes_subset : c.usedNodes ⊆ c.cachedNodes := by
  intro a ha
  cases hc : c.file.cache a with
  | none => simp [usedNodes, IndexFile.users, hc] at ha
  | some n => simp [cachedNodes, hc]

theorem mem_cachedNodes_update (hc : c'.file.cache = Function.update c.file.cache a o) :
    b ∈ c'.cachedNodes ↔ if b = a then o.isSome = true else b ∈ c.cachedNodes := by
  by_cases hb : b = a
  · subst hb
    simp [cachedNodes, hc]
  · simp [cachedNodes, hc, hb]

theorem mem_usedNodes_update (hc : c'.file.cache = Function.update c.file.cache a o) :
    b ∈ c'.usedNodes ↔ if b = a then o.elim 0 CachedNode.users ≠ 0 else b ∈ c.usedNodes := by
  by_cases hb : b = a
  · subst hb
    simp [usedNodes, IndexFile.users, hc]
  · simp [usedNodes, IndexFile.users, hc, hb]

/-- A page comes into the cache and is used. -/
theorem Counted.add (h : c.Counted) (ha : c.file.cache a = none)
    (hc : c'.file.cache = Function.update c.file.cache a (some n)) (hu : n.users ≠ 0)
    (hcached : c'.cachedCount = c.cachedCount + 1) (hused : c'.usedCount = c.usedCount + 1) :
    c'.Counted := by
  have hcs : c'.cachedNodes = insert a c.cachedNodes := by
    ext b
    rw [mem_cachedNodes_update hc, Set.mem_insert_iff]
    split <;> simp_all
  have hus : c'.usedNodes = insert a c.usedNodes := by
    ext b
    rw [mem_usedNodes_update hc, Set.mem_insert_iff]
    split <;> simp_all
  have hna : a ∉ c.cachedNodes := by simp [cachedNodes, ha]
  refine ⟨hcs ▸ h.finite.insert a, ?_, ?_⟩
  · rw [hcached, h.cached, hcs, Set.ncard_insert_of_notMem hna h.finite]
  · rw [hused, h.used, hus, Set.ncard_insert_of_notMem (fun hm => hna (usedNodes_subset hm))
      (h.finite.subset usedNodes_subset)]

/-- An unused page leaves the cache. -/
theorem Counted.evict (h : c.Counted) (ha : c.file.cache a = some n) (hu : n.users = 0)
    (hc : c'.file.cache = Function.update c.file.cache a none)
    (hcached : c'.cachedCount = c.cachedCount - 1) (hused : c'.usedCount = c.usedCount) :
    c'.Counted := by
  have hcs : c'.cachedNodes = c.cachedNodes \ {a} := by
    ext b
    rw [mem_cachedNodes_update hc, Set.mem_sdiff, Set.mem_singleton_iff]
    split <;> simp_all
  have hus : c'.usedNodes = c.usedNodes := by
    ext b
    rw [mem_usedNodes_update hc]
    split
    · rename_i hb
      simp [hb, usedNodes, IndexFile.users, ha, hu]
    · rfl
  have hm : a ∈ c.cachedNodes := by simp [cachedNodes, ha]
  refine ⟨hcs ▸ h.finite.sdiff, ?_, ?_⟩
  · rw [hcached, h.cached, hcs, Set.ncard_sdiff_singleton_of_mem hm]
  · rw [hused, h.used, hus]

theorem Counted.put_cached (ha : c.file.cache a = some n)
    (hc : c'.file.cache = Function.update c.file.cache a (some n')) :
    c'.cachedNodes = c.cachedNodes := by
  ext b
  rw [mem_cachedNodes_update hc]
  split
  · rename_i hb
    simp [hb, cachedNodes, ha]
  · rfl

/-- A page in the cache is as much in use as before. -/
theorem Counted.same (h : c.Counted) (ha : c.file.cache a = some n)
    (hc : c'.file.cache = Function.update c.file.cache a (some n'))
    (hu : n'.users = 0 ↔ n.users = 0)
    (hcached : c'.cachedCount = c.cachedCount) (hused : c'.usedCount = c.usedCount) :
    c'.Counted := by
  have hcs := Counted.put_cached ha hc
  have hus : c'.usedNodes = c.usedNodes := by
    ext b
    rw [mem_usedNodes_update hc]
    split
    · rename_i hb
      simp [hb, usedNodes, IndexFile.users, ha, hu]
    · rfl
  exact ⟨hcs ▸ h.finite, by rw [hcached, h.cached, hcs], by rw [hused, h.used, hus]⟩

theorem Counted.taken (h : c.Counted) (ha : c.file.cache a = some n)
    (hc : c'.file.cache = Function.update c.file.cache a (some n'))
    (hu : n.users = 0) (hu' : n'.users ≠ 0)
    (hcached : c'.cachedCount = c.cachedCount) (hused : c'.usedCount = c.usedCount + 1) :
    c'.Counted := by
  have hcs := Counted.put_cached ha hc
  have hus : c'.usedNodes = insert a c.usedNodes := by
    ext b
    rw [mem_usedNodes_update hc, Set.mem_insert_iff]
    split <;> simp_all
  have hna : a ∉ c.usedNodes := by simp [usedNodes, IndexFile.users, ha, hu]
  refine ⟨hcs ▸ h.finite, by rw [hcached, h.cached, hcs], ?_⟩
  rw [hused, h.used, hus, Set.ncard_insert_of_notMem hna (h.finite.subset usedNodes_subset)]

theorem Counted.released (h : c.Counted) (ha : c.file.cache a = some n)
    (hc : c'.file.cache = Function.update c.file.cache a (some n'))
    (hu : n.users ≠ 0) (hu' : n'.users = 0)
    (hcached : c'.cachedCount = c.cachedCount) (hused : c'.usedCount = c.usedCount - 1) :
    c'.Counted := by
  have hcs := Counted.put_cached ha hc
  have hus : c'.usedNodes = c.usedNodes \ {a} := by
    ext b
    rw [mem_usedNodes_update hc, Set.mem_sdiff, Set.mem_singleton_iff]
    split <;> simp_all
  have hm : a ∈ c.usedNodes := by simp [usedNodes, IndexFile.users, ha, hu]
  refine ⟨hcs ▸ h.finite, by rw [hcached, h.cached, hcs], ?_⟩
  rw [hused, h.used, hus, Set.ncard_sdiff_singleton_of_mem hm]

-- ---------------------------------------------------------------------------
-- The cache
-- ---------------------------------------------------------------------------

/-- The free pages of a handler, by depth. -/
def Grouped (c : NodeCache) : Prop :=
  ∀ i d a, (d, a) ∈ c.freeNodes i ↔ d = c.depth a ∧ ∃ n, c.file.cache a = some n ∧ n.freeIn = some i

structure Books (c : NodeCache) (free : List NodeAddress) (own : Lid → List NodeAddress) :
    Prop where
  ok : c.file.CacheOk free own
  grouped : c.Grouped
  registered : c.Registered
  counted : c.Counted
  loaded : a ∈ c.file.droppedCachedNodes → c.file.cache a = some n → n.node.isSome

/-- Pages keep the handler they are free in. -/
theorem Grouped.put (h : c.Grouped) (hc : c'.file.cache = Function.update c.file.cache a (some n))
    (hf : n.freeIn = none) (ha : ∀ m, c.file.cache a = some m → m.freeIn = none)
    (hd : ∀ b, b ≠ a → c'.depth b = c.depth b) (hn : c'.freeNodes = c.freeNodes) : c'.Grouped := by
  intro i d b
  rw [hn, h i d b, hc]
  by_cases hb : b = a
  · subst hb
    constructor
    · rintro ⟨-, m, hm, hfm⟩
      rw [ha m hm] at hfm
      cases hfm
    · rintro ⟨-, m, hm, hfm⟩
      rw [Function.update_self, Option.some.injEq] at hm
      rw [← hm, hf] at hfm
      cases hfm
  · rw [Function.update_of_ne hb, hd b hb]

theorem Grouped.of_free (h : c.Grouped) (hc : c.file.cache a = some n) (hf : n.freeIn = some i) :
    (c.depth a, a) ∈ c.freeNodes i :=
  (h i _ a).mpr ⟨rfl, n, hc, hf⟩

/-- A page leaves its `freeNodes`, and maybe the cache. -/
theorem Grouped.erase (h : c.Grouped) (hm : (c.depth a, a) ∈ c.freeNodes i)
    (hc : c'.file.cache = Function.update c.file.cache a o)
    (ho : ∀ n, o = some n → n.freeIn = none) (hd : c'.depth = c.depth)
    (hn : c'.freeNodes =
      Function.update c.freeNodes i ((c.freeNodes i).erase (c.depth a, a))) : c'.Grouped := by
  obtain ⟨-, m, hma, hmi⟩ := (h i _ a).mp hm
  intro j d b
  have hfree : (d, b) ∈ c'.freeNodes j ↔ (d, b) ∈ c.freeNodes j ∧ b ≠ a := by
    by_cases hj : j = i
    · subst hj
      rw [hn, Function.update_self, Finset.mem_erase, ne_eq, Prod.mk.injEq, not_and, and_comm]
      refine and_congr_right fun hmem => ?_
      constructor
      · rintro hne rfl
        exact hne ((h _ _ _).mp hmem).1 rfl
      · intro hne _
        exact hne
    · rw [hn, Function.update_of_ne hj]
      refine ⟨fun hmem => ⟨hmem, ?_⟩, And.left⟩
      rintro rfl
      obtain ⟨-, m', hm', hmj⟩ := (h j d b).mp hmem
      rw [hma] at hm'
      cases hm'
      rw [hmi] at hmj
      exact hj (Option.some.inj hmj).symm
  rw [hfree, h j d b, hc, hd]
  by_cases hb : b = a
  · subst hb
    rw [Function.update_self]
    constructor
    · rintro ⟨-, hne⟩
      exact absurd rfl hne
    · rintro ⟨-, n, hn', hf⟩
      rw [ho n hn'] at hf
      cases hf
  · simp [hb]

theorem Grouped.insert (h : c.Grouped) (ha : c.file.cache a = some m) (hm : m.freeIn = none)
    (hc : c'.file.cache = Function.update c.file.cache a (some n)) (hf : n.freeIn = some i)
    (hd : c'.depth = c.depth)
    (hn : c'.freeNodes =
      Function.update c.freeNodes i (insert (c.depth a, a) (c.freeNodes i))) : c'.Grouped := by
  intro j d b
  have hfree : (d, b) ∈ c'.freeNodes j ↔ (d, b) ∈ c.freeNodes j ∨ j = i ∧ (d, b) = (c.depth a, a) := by
    by_cases hj : j = i
    · subst hj
      rw [hn, Function.update_self, Finset.mem_insert, or_comm]
      simp
    · rw [hn, Function.update_of_ne hj]
      simp [hj]
  rw [hfree, h j d b, hc, hd]
  by_cases hb : b = a
  · subst hb
    rw [Function.update_self]
    constructor
    · rintro (⟨-, m', hm', hmj⟩ | ⟨rfl, heq⟩)
      · rw [ha] at hm'
        cases hm'
        rw [hm] at hmj
        cases hmj
      · exact ⟨(Prod.mk.inj heq).1, n, rfl, hf⟩
    · rintro ⟨hdb, n', hn', hfj⟩
      cases hn'
      rw [hf] at hfj
      exact .inr ⟨(Option.some.inj hfj).symm, by rw [hdb]⟩
  · simp [hb]

/-- If not all pages are in use, one of them is dropped or free. -/
theorem Books.exists_free (h : c.Books free own) (hlt : c.usedCount < c.cachedCount) :
    c.file.droppedCachedNodes ≠ [] ∨ c.freeHandlers.Nonempty := by
  rw [h.counted.used, h.counted.cached] at hlt
  obtain ⟨a, ha, hna⟩ := Set.exists_mem_notMem_of_ncard_lt_ncard hlt
    (h.counted.finite.subset usedNodes_subset)
  obtain ⟨n, hn⟩ := Option.isSome_iff_exists.mp ha
  have hu : n.users = 0 := by simpa [usedNodes, IndexFile.users, hn] using hna
  rcases h.ok.cached_mem hn with hf | ⟨i, hi⟩
  · exact .inl (List.ne_nil_of_mem (h.ok.free_cached hn hf))
  · have hmem := h.grouped.of_free hn (h.ok.own_unused hn hi hu)
    cases hd : firstKey (c.freeNodes i) with
    | none => simp [firstKey_eq_none.mp hd] at hmem
    | some d => exact .inr ⟨_, (h.registered i _).mpr ⟨d, hd, rfl⟩⟩

theorem getDropped2flush_ok (h : c.Books free own)
    (hd : c.file.droppedCachedNodes.getLast? = some a) :
    ∃ n, c.file.cache a = some n ∧ n.users = 0 ∧ n.freeIn = none ∧
      c.choose2flush e = some (a, { c with
        file := { c.file with
          droppedCachedNodes := c.file.droppedCachedNodes.dropLast }.write a id }) := by
  have hmem := List.mem_of_getLast? hd
  obtain ⟨n, hn, hu, hf⟩ := h.ok.dropped_cached hmem
  refine ⟨n, hn, hu, hf, ?_⟩
  simp only [choose2flush, hd, getDropped2flush, hn]
  rw [if_pos ⟨hu, h.loaded hmem hn⟩]

theorem localChoose2flush_ok (h : c.Books free own)
    (hd : c.file.droppedCachedNodes.getLast? = none) (hlt : c.usedCount < c.cachedCount) :
    ∃ i a n H, c.file.cache a = some n ∧ n.users = 0 ∧ n.freeIn = some i ∧
      c.choose2flush e = some (a, { c.update a (fun n => { n with freeIn := none }) with
        freeNodes := Function.update c.freeNodes i ((c.freeNodes i).erase (c.depth a, a))
        freeHandlers := H }) ∧
      Registered { c.update a (fun n => { n with freeIn := none }) with
        freeNodes := Function.update c.freeNodes i ((c.freeNodes i).erase (c.depth a, a))
        freeHandlers := H } := by
  have hne := (h.exists_free hlt).resolve_left (not_not.mpr (List.getLast?_eq_none_iff.mp hd))
  obtain ⟨p, hp, j, hj⟩ := lastKey_isSome hne
  have hi := e.handler_mem ⟨j, mem_under.mpr hj⟩
  rw [mem_under] at hi
  obtain ⟨d, hfirst, -⟩ := (h.registered _ _).mp hi
  obtain ⟨⟨b, hb⟩, -⟩ := firstKey_eq_some.mp hfirst
  have ha := e.node_mem ⟨b, mem_under.mpr hb⟩
  rw [mem_under] at ha
  generalize hnode : e.node (under (c.freeNodes (e.handler (under c.freeHandlers p))) d) = a at ha
  obtain ⟨rfl, n, hn, hf⟩ := (h.grouped _ _ _).mp ha
  obtain ⟨H, hset, hreg⟩ := setNotFree_ok h.registered ha
  refine ⟨_, _, n, H, hn, (h.ok.freeIn_own hn hf).2, hf, ?_, hreg⟩
  simp only [choose2flush, hd, hp, localChoose2flush, hfirst, hnode, hset]
  rfl

/-- A full cache with an unused page always has a page to flush. -/
theorem choose2flush_ok (h : c.Books free own) (hlt : c.usedCount < c.cachedCount) :
    ∃ a c₁, c.choose2flush e = some (a, c₁) ∧ (c.file.cache a).isSome ∧ c.file.users a = 0 := by
  cases hd : c.file.droppedCachedNodes.getLast? with
  | some a =>
    obtain ⟨n, hn, hu, -, hchoose⟩ := getDropped2flush_ok (e := e) h hd
    exact ⟨a, _, hchoose, by simp [hn], by simp [IndexFile.users, hn, hu]⟩
  | none =>
    obtain ⟨i, a, n, H, hn, hu, -, hchoose, -⟩ := localChoose2flush_ok (e := e) h hd hlt
    exact ⟨a, _, hchoose, by simp [hn], by simp [IndexFile.users, hn, hu]⟩

theorem update_removeAndFlush (hn : c.file.cache a = some n) :
    (c.update a fun n => { n with freeIn := none }).file.removeAndFlush a =
      c.file.removeAndFlush a := by
  simp [update, IndexFile.putCached, IndexFile.removeAndFlush, hn, IndexFile.links]

/-- Flushing is a flush of the file, with the page the maps choose. -/
theorem flushIfNecessary_ok (h : c.Books free own) (hl : IndexFile.Lists free own) :
    ∃ c' v, c.flushIfNecessary e = some c' ∧ c'.file = c.file.flushIfNecessary v ∧
      c'.Books free own ∧ c'.depth = c.depth ∧ c'.rootLevel = c.rootLevel := by
  unfold flushIfNecessary
  split
  · rename_i hfull
    cases hd : c.file.droppedCachedNodes.getLast? with
    | some a =>
      obtain ⟨n, hn, hu, hf, hchoose⟩ := getDropped2flush_ok (e := e) h hd
      have hfile : (IndexFile.write { c.file with
            droppedCachedNodes := c.file.droppedCachedNodes.dropLast } a id).removeAndFlush a =
          c.file.flushIfNecessary fun _ => some a := by
        simp only [IndexFile.flushIfNecessary, hd]
      have hcache : (c.file.flushIfNecessary fun _ => some a).cache =
          Function.update c.file.cache a none := by
        rw [← hfile]
        simp [IndexFile.removeAndFlush, IndexFile.write, IndexFile.putCached]
      refine ⟨{ c with
          file := c.file.flushIfNecessary fun _ => some a
          cachedCount := c.cachedCount - 1 }, fun _ => some a, ?_, rfl,
        ⟨?_, ?_, h.registered, ?_, ?_⟩, rfl, rfl⟩
      · rw [← hfile]
        simp [hchoose, removeAndFlush, IndexFile.write, IndexFile.putCached, hn, hu]
      · exact (IndexFile.flushIfNecessary_ok (fun _ => some a) h.ok hl).2
      · intro i d b
        dsimp only
        rw [hcache, h.grouped i d b]
        by_cases hb : b = a
        · subst hb
          simp [hn, hf]
        · simp [hb]
      · exact h.counted.evict hn hu hcache rfl rfl
      · intro b m hb hm
        dsimp only at hb hm
        rw [hcache] at hm
        by_cases hba : b = a
        · subst hba
          simp at hm
        · rw [Function.update_of_ne hba] at hm
          rw [← hfile] at hb
          exact h.loaded (List.mem_of_mem_dropLast hb) hm
    | none =>
      obtain ⟨i, a, n, H, hn, hu, hf, hchoose, hreg⟩ := localChoose2flush_ok (e := e) h hd hfull.2
      have hfile : (c.update a fun n => { n with freeIn := none }).file.removeAndFlush a =
          c.file.flushIfNecessary fun _ => some a := by
        simp [update_removeAndFlush hn, IndexFile.flushIfNecessary, hd, hn, hf]
      have hcache : (c.file.flushIfNecessary fun _ => some a).cache =
          Function.update c.file.cache a none := by
        rw [← hfile]
        simp [IndexFile.removeAndFlush, update, IndexFile.putCached]
      refine ⟨{ c with
          file := c.file.flushIfNecessary fun _ => some a
          cachedCount := c.cachedCount - 1
          freeNodes := Function.update c.freeNodes i ((c.freeNodes i).erase (c.depth a, a))
          freeHandlers := H }, fun _ => some a, ?_, rfl, ⟨?_, ?_, hreg, ?_, ?_⟩, rfl, rfl⟩
      · rw [← hfile]
        simp [hchoose, removeAndFlush, update, IndexFile.putCached, hn, hu]
      · exact (IndexFile.flushIfNecessary_ok (fun _ => some a) h.ok hl).2
      · exact h.grouped.erase (h.grouped.of_free hn hf) hcache (by simp) rfl rfl
      · exact h.counted.evict hn hu hcache rfl rfl
      · intro b m hb
        dsimp only at hb
        rw [← hfile] at hb
        have hb' : b ∈ c.file.droppedCachedNodes := hb
        rw [List.getLast?_eq_none_iff.mp hd] at hb'
        cases hb'
  · exact ⟨c, fun _ => none, rfl, rfl, h, rfl, rfl⟩

/-- The entry of a page that is not dropped is replaced. -/
theorem Books.loaded_put (h : c.Books free own)
    (hd : c'.file.droppedCachedNodes = c.file.droppedCachedNodes)
    (hc : c'.file.cache = Function.update c.file.cache a o)
    (ha : a ∉ c.file.droppedCachedNodes) (hb : b ∈ c'.file.droppedCachedNodes)
    (hm : c'.file.cache b = some n) : n.node.isSome := by
  rw [hd] at hb
  have hba : b ≠ a := by
    rintro rfl
    exact ha hb
  rw [hc, Function.update_of_ne hba] at hm
  exact h.loaded hb hm

theorem Books.not_dropped (h : c.Books free own) (hl : IndexFile.Lists free own) (ha : a ∈ own i) :
    a ∉ c.file.droppedCachedNodes :=
  fun hd => hl.free_own (h.ok.dropped_prefix.subset hd) ha

theorem Books.not_free (h : c.Books free own) (hn : c.file.cache a = some n) (hu : n.users ≠ 0) :
    n.freeIn = none := by
  rw [Option.eq_none_iff_forall_ne_some]
  intro j hj
  exact hu (h.ok.freeIn_own hn hj).2

/-- Adding a page that is not in the cache. -/
theorem Books.addToCacheMap (h : c.Books free own) (hl : IndexFile.Lists free own) (ha : a ∈ own i)
    (hn : c.file.cache a = none) (hu : n.users ≠ 0) (hf : n.freeIn = none)
    (hclean : ∀ l, n.dirty = false → n.node = some l → c.file.disk a = l) :
    (c.addToCacheMap e a n).Books free own where
  ok := h.ok.putCached hl ha hclean (by rw [hf, if_neg hu])
  grouped := by
    refine h.grouped.put (n := n) rfl hf ?_ ?_ rfl
    · intro m hm
      rw [hn] at hm
      cases hm
    · intro b hb
      simp [NodeCache.addToCacheMap, hb]
  registered := h.registered
  counted := h.counted.add hn rfl hu rfl rfl
  loaded := h.loaded_put rfl rfl (h.not_dropped hl ha)

/-- Taking a page is what it is for the file, with some choice of the page that
makes room. -/
theorem getCachedNode_ok (h : c.Books free own) (hl : IndexFile.Lists free own) (ha : a ∈ own i) :
    ∃ c' v, c.getCachedNode e i a = some c' ∧ c'.file = c.file.getCachedNode v i a ∧
      c'.Books free own := by
  cases hn : c.file.cache a with
  | some n =>
    have hfile (v : IndexFile → Option NodeAddress) : c.file.getCachedNode v i a =
        c.file.putCached a (some { n with
          users := n.users + 1
          freeIn := if n.users = 0 ∧ n.freeIn = some i then none else n.freeIn }) := by
      simp [IndexFile.getCachedNode, hn]
    have hok := (IndexFile.getCachedNode_ok (v := fun _ => none) h.ok hl ha).2.1
    have hnd := h.not_dropped hl ha
    by_cases hu : n.users = 0
    · have hf := h.ok.own_unused hn ha hu
      have hm := h.grouped.of_free hn hf
      obtain ⟨H, hset, hreg⟩ := setNotFree_ok (c := { c with usedCount := c.usedCount + 1 })
        h.registered hm
      rw [hfile, if_pos ⟨hu, hf⟩] at hok
      refine ⟨{ c with
          file := c.file.putCached a (some { n with users := n.users + 1, freeIn := none })
          usedCount := c.usedCount + 1
          freeNodes := Function.update c.freeNodes i ((c.freeNodes i).erase (c.depth a, a))
          freeHandlers := H }, fun _ => none, ?_, ?_, ⟨hok, ?_, hreg, ?_, ?_⟩⟩
      · simp [getCachedNode, hn, hu, hset, update, IndexFile.putCached]
      · rw [hfile, if_pos ⟨hu, hf⟩]
      · refine h.grouped.erase hm rfl ?_ rfl rfl
        intro m hm'
        cases hm'
        rfl
      · exact h.counted.taken hn rfl hu (Nat.succ_ne_zero _) rfl rfl
      · exact h.loaded_put rfl rfl hnd
    · have hf := h.not_free hn hu
      rw [hfile, if_neg fun hc => hu hc.1] at hok
      refine ⟨{ c with file := c.file.putCached a (some { n with users := n.users + 1 }) },
        fun _ => none, ?_, ?_, ⟨hok, ?_, h.registered, ?_, ?_⟩⟩
      · simp [getCachedNode, hn, hu, update]
      · rw [hfile, if_neg fun hc => hu hc.1]
      · refine h.grouped.put rfl hf ?_ (fun _ _ => rfl) rfl
        intro m hm
        rw [hn] at hm
        cases hm
        exact hf
      · exact h.counted.same hn rfl (by simp [hu]) rfl rfl
      · exact h.loaded_put rfl rfl hnd
  | none =>
    obtain ⟨c₁, v, hflush, hfile, hb, -⟩ := flushIfNecessary_ok (e := e) h hl
    have hn₁ : c₁.file.cache a = none := by
      rw [hfile]
      rcases IndexFile.flushIfNecessary_cache (b := a) v h.ok with heq | hnone
      · rw [heq, hn]
      · exact hnone.1
    refine ⟨c₁.addToCacheMap e a { node := none, dirty := false, users := 1, freeIn := none }, v,
      ?_, ?_, hb.addToCacheMap hl ha hn₁ (by simp) rfl (by simp)⟩
    · simp [getCachedNode, hn, hflush]
    · simp [IndexFile.getCachedNode, hn, addToCacheMap, hfile]

theorem freeNode_ok (h : c.Books free own) (hl : IndexFile.Lists free own) (ha : a ∈ own i)
    (hu : c.file.users a ≠ 0) :
    ∃ c' v, c.freeNode e i a true = some c' ∧ c'.file = c.file.freeNode v i a true ∧
      c'.Books free own := by
  cases hn : c.file.cache a with
  | none => simp [IndexFile.users, hn] at hu
  | some n =>
    rw [IndexFile.users, hn, Option.elim_some] at hu
    have hf := h.not_free hn hu
    have hnd := h.not_dropped hl ha
    by_cases hone : n.users = 1
    · let c₀ : NodeCache := { c.update a (fun n => { n with users := n.users - 1 }) with
        usedCount := c.usedCount - 1 }
      obtain ⟨H, hset, hreg⟩ := setFree_ok (c := c₀) (i := i) (a := a) h.registered
      let c₁ : NodeCache := { c with
        file := c.file.putCached a (some { n with users := 0, freeIn := some i })
        usedCount := c.usedCount - 1
        freeNodes := Function.update c.freeNodes i (insert (c.depth a, a) (c.freeNodes i))
        freeHandlers := H }
      have hset' : c₀.setFree i a = some c₁ := by
        rw [hset]
        simp [c₀, c₁, update, IndexFile.putCached, hn, hone]
      have hb : c₁.Books free own := by
        refine ⟨h.ok.putCached hl ha (fun l hd hl => h.ok.clean hn hd hl) rfl, ?_, hreg, ?_, ?_⟩
        · exact h.grouped.insert hn hf rfl rfl rfl rfl
        · exact h.counted.released hn rfl hu rfl rfl rfl
        · exact h.loaded_put rfl rfl hnd
      have hfree : c.freeNode e i a true =
          if c₁.usedCount < maxCachedNodes then some c₁ else c₁.flushIfNecessary e := by
        simp only [freeNode, hn, hone, if_neg Nat.one_ne_zero, if_true]
        change (c₀.setFree i a >>= _) = _
        rw [hset']
        rfl
      have hfile (v : IndexFile → Option NodeAddress) :
          c.file.freeNode v i a true = c₁.file.flushIfNecessary v := by
        simp [IndexFile.freeNode, hn, hone, c₁]
      rw [hfree]
      by_cases hroom : c₁.usedCount < maxCachedNodes
      · rw [if_pos hroom]
        exact ⟨c₁, fun _ => none, rfl, by rw [hfile, IndexFile.flushIfNecessary], hb⟩
      · rw [if_neg hroom]
        obtain ⟨c', v, hflush, hfile', hb', -⟩ := flushIfNecessary_ok (e := e) hb hl
        exact ⟨c', v, hflush, by rw [hfile, hfile'], hb'⟩
    · refine ⟨{ c with file := c.file.putCached a (some { n with users := n.users - 1 }) },
        fun _ => none, ?_, ?_, ⟨?_, ?_, h.registered, ?_, ?_⟩⟩
      · simp [freeNode, hn, hu, hone, update]
      · simp [IndexFile.freeNode, hn, hone]
      · refine h.ok.putCached hl ha (fun l hd hl => h.ok.clean hn hd hl) ?_
        dsimp only
        rw [hf, if_neg (by omega)]
      · refine h.grouped.put rfl hf ?_ (fun _ _ => rfl) rfl
        intro m hm
        rw [hn] at hm
        cases hm
        exact hf
      · exact h.counted.same hn rfl (by dsimp only; omega) rfl rfl
      · exact h.loaded_put rfl rfl hnd

theorem write_cache : (c.write a f).file.cache b = (c.file.cache b).map fun n =>
    if b = a then { n with node := some (f (c.file.links a)), dirty := true } else n := by
  by_cases hb : b = a
  · subst hb
    simp [write, IndexFile.write, IndexFile.putCached]
  · simp [write, IndexFile.write, IndexFile.putCached, hb]

theorem write_users : (c.write a f).file.users b = c.file.users b := by
  rw [IndexFile.users, write_cache, IndexFile.users]
  cases c.file.cache b with
  | none => rfl
  | some n =>
    simp only [Option.map_some, Option.elim_some]
    split <;> rfl

theorem Books.write (h : c.Books free own) : (c.write a f).Books free own := by
  have hcached : (c.write a f).cachedNodes = c.cachedNodes := by
    ext b
    simp only [cachedNodes, Set.mem_ofPred_eq, write_cache, Option.isSome_map]
  have hused : (c.write a f).usedNodes = c.usedNodes := by
    ext b
    simp only [usedNodes, Set.mem_ofPred_eq, write_users]
  refine ⟨h.ok.write, ?_, h.registered, ⟨hcached ▸ h.counted.finite, ?_, ?_⟩, ?_⟩
  · intro i d b
    rw [write_cache]
    refine (h.grouped i d b).trans (and_congr_right fun _ => ?_)
    cases c.file.cache b with
    | none => simp
    | some n =>
      simp only [Option.some.injEq, exists_eq_left', Option.map_some]
      split <;> rfl
  · rw [hcached]
    exact h.counted.cached
  · rw [hused]
    exact h.counted.used
  · intro b n hb hn
    rw [write_cache] at hn
    obtain ⟨m, hm, rfl⟩ := Option.map_eq_some_iff.mp hn
    split
    · rfl
    · exact h.loaded hb hm

theorem visit_ok (h : c.Books free own) (hl : IndexFile.Lists free own) (ha : a ∈ own i) :
    ∃ c', c.visit e i a f = some c' ∧ c'.Books free own ∧ IndexFile.Wrote c.file c'.file a f ∧
      ∀ b, b ≠ a → c.file.users b ≠ 0 → c'.file.users b = c.file.users b := by
  obtain ⟨c₁, v, hget, hfile, hb₁⟩ := getCachedNode_ok (e := e) h hl ha
  obtain ⟨hsame, -, hu⟩ := IndexFile.getCachedNode_ok (v := v) h.ok hl ha
  rw [← hfile] at hsame hu
  have hb₂ : (c₁.write a f).Books free own := hb₁.write
  have hu₂ : (c₁.write a f).file.users a ≠ 0 := by
    rw [write_users, hu]
    exact Nat.succ_ne_zero _
  obtain ⟨c', w, hfree, hfile', hb'⟩ := freeNode_ok (e := e) hb₂ hl ha hu₂
  obtain ⟨hsame', -⟩ := IndexFile.freeNode_ok (v := w) hb₂.ok hl ha hu₂
  rw [← hfile'] at hsame'
  have hsome : (c₁.file.cache a).isSome := by
    rw [write_users] at hu₂
    exact usedNodes_subset (c := c₁) hu₂
  have hw := IndexFile.write_links (f := f) hsome
  refine ⟨c', by simp [visit, hget, hfree], hb', ⟨?_, ?_, ?_, ?_, ?_⟩, ?_⟩
  · rw [hsame'.links, ← hsame.links]
    exact hw
  · exact hsame'.droppedNode.trans hsame.droppedNode
  · exact hsame'.droppedLastNode.trans hsame.droppedLastNode
  · exact hsame'.nextFreeNodeAddr.trans hsame.nextFreeNodeAddr
  · exact hsame'.handlers.trans hsame.handlers
  · intro b hba hub
    have hget' : c₁.file.users b = c.file.users b := by
      rw [hfile]
      exact IndexFile.getCachedNode_users h.ok hba hub
    have hwrite : (c₁.write a f).file.users b = c.file.users b := by rw [write_users, hget']
    rw [hfile', IndexFile.freeNode_users hb₂.ok hl ha hba (hwrite ▸ hub), hwrite]

end Loxim.Indexes.NodeCache
