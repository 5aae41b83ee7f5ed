import Mathlib.Data.List.Nodup
import Loxim.Indexes.IndexHandler

/-!
# Every page is on one list

`Layout` places every allocated page on the free list or on the list of one
index; `CacheOk` ties the cache to those lists. Moving pages in and out of the
cache changes no list (`SameLists`), so each call is described by the links it
writes.
-/

namespace Loxim.Indexes.IndexFile

-- ---------------------------------------------------------------------------
-- The invariant
-- ---------------------------------------------------------------------------

/-- No page is listed twice. -/
structure Lists (free : List NodeAddress) (own : Lid → List NodeAddress) : Prop where
  free_nodup : free.Nodup
  own_nodup : (own i).Nodup
  free_own : a ∈ free → a ∉ own i
  own_own : a ∈ own i → a ∈ own j → i = j

/-- `l` is the doubly linked list of an index. -/
structure IndexLinked (next prev : NodeAddress → NodeAddress) (h : IndexList)
    (l : List NodeAddress) : Prop where
  next : Linked newNode next l newNode
  prev : Linked newNode prev l.reverse newNode
  first : h.firstNode = l.headD newNode
  last : h.lastNode = l.reverse.headD newNode

structure Layout (s : IndexFile) (free : List NodeAddress) (own : Lid → List NodeAddress) :
    Prop where
  lists : Lists free own
  free_linked : Linked newNode s.next free newNode
  dropped : s.droppedNode = free.headD newNode
  droppedLast : s.droppedLastNode = free.reverse.headD newNode
  index : s.handlers i = some h → IndexLinked s.next s.prev h (own i)
  dead : s.handlers i = none → own i = []
  aligned : nodeSize ∣ s.nextFreeNodeAddr
  pages : (a < s.nextFreeNodeAddr ∧ nodeSize ∣ a) ↔ a ∈ free ∨ ∃ i, a ∈ own i

structure CacheOk (s : IndexFile) (free : List NodeAddress) (own : Lid → List NodeAddress) :
    Prop where
  clean : s.cache a = some c → c.dirty = false → c.node = some l → s.disk a = l
  dropped_prefix : s.droppedCachedNodes <+: free
  dropped_cached : a ∈ s.droppedCachedNodes →
    ∃ c, s.cache a = some c ∧ c.users = 0 ∧ c.freeIn = none
  free_cached : s.cache a = some c → a ∈ free → a ∈ s.droppedCachedNodes
  freeIn_own : s.cache a = some c → c.freeIn = some i → a ∈ own i ∧ c.users = 0
  own_unused : s.cache a = some c → a ∈ own i → c.users = 0 → c.freeIn = some i
  cached_mem : s.cache a = some c → a ∈ free ∨ ∃ i, a ∈ own i

-- ---------------------------------------------------------------------------
-- Cache traffic
-- ---------------------------------------------------------------------------

/-- Everything but the cache and the file is the same, and so are the links as
they are read through the cache. -/
structure SameLists (s s' : IndexFile) : Prop where
  links : s'.links = s.links
  droppedNode : s'.droppedNode = s.droppedNode
  droppedLastNode : s'.droppedLastNode = s.droppedLastNode
  nextFreeNodeAddr : s'.nextFreeNodeAddr = s.nextFreeNodeAddr
  handlers : s'.handlers = s.handlers

theorem SameLists.refl : SameLists s s := ⟨rfl, rfl, rfl, rfl, rfl⟩

theorem SameLists.trans (h : SameLists s s') (h' : SameLists s' s'') : SameLists s s'' :=
  ⟨h'.links.trans h.links, h'.droppedNode.trans h.droppedNode,
    h'.droppedLastNode.trans h.droppedLastNode, h'.nextFreeNodeAddr.trans h.nextFreeNodeAddr,
    h'.handlers.trans h.handlers⟩

theorem SameLists.next (h : SameLists s s') : s'.next = s.next := by
  funext a
  rw [IndexFile.next, IndexFile.next, h.links]

theorem SameLists.prev (h : SameLists s s') : s'.prev = s.prev := by
  funext a
  rw [IndexFile.prev, IndexFile.prev, h.links]

theorem SameLists.layout (h : SameLists s s') (hl : Layout s free own) : Layout s' free own where
  lists := hl.lists
  free_linked := h.next ▸ hl.free_linked
  dropped := h.droppedNode ▸ hl.dropped
  droppedLast := h.droppedLastNode ▸ hl.droppedLast
  index := fun hi => h.next ▸ h.prev ▸ hl.index (h.handlers ▸ hi)
  dead := fun hi => hl.dead (h.handlers ▸ hi)
  aligned := h.nextFreeNodeAddr ▸ hl.aligned
  pages := h.nextFreeNodeAddr ▸ hl.pages

section
variable {s s₁ : IndexFile} {free : List NodeAddress} {own : Lid → List NodeAddress}

theorem links_of_cached (h : s.cache a = some c) : s.links a = c.node.getD (s.disk a) := by
  rw [links, h]

/-- What is flushed can be read back. -/
theorem sameLists_removeAndFlush
    (hclean : ∀ c l, s.cache a = some c → c.dirty = false → c.node = some l → s.disk a = l) :
    SameLists s (s.removeAndFlush a) := by
  refine ⟨?_, rfl, rfl, rfl, rfl⟩
  funext b
  by_cases hb : b = a
  · subst hb
    cases hc : s.cache b with
    | none => simp [removeAndFlush, links, hc]
    | some c =>
      cases hd : c.dirty with
      | true => simp [removeAndFlush, links, hc, hd]
      | false =>
        cases hn : c.node with
        | none => simp [removeAndFlush, links, hc, hd, hn]
        | some l => simp [removeAndFlush, links, hc, hd, hn, hclean c l hc hd hn]
  · have hdisk : (s.removeAndFlush a).disk b = s.disk b := by
      simp only [removeAndFlush]
      split <;> simp [hb]
    have hcache : (s.removeAndFlush a).cache b = s.cache b := by simp [removeAndFlush, hb]
    rw [links, links, hdisk, hcache]

theorem write_links (h : (s.cache a).isSome) :
    (s.write a f).links = Function.update s.links a (f (s.links a)) := by
  obtain ⟨c, hc⟩ := Option.isSome_iff_exists.mp h
  funext b
  by_cases hb : b = a
  · subst hb
    simp [write, putCached, hc, links]
  · simp [write, putCached, links, hb]

theorem CacheOk.write (h : CacheOk s free own) : CacheOk (s.write a f) free own := by
  have hcache (b : NodeAddress) (c : CachedNode) (hc : (s.write a f).cache b = some c) :
      ∃ c₀, s.cache b = some c₀ ∧ c.users = c₀.users ∧ c.freeIn = c₀.freeIn ∧
        (c = c₀ ∨ c.dirty = true) := by
    by_cases hb : b = a
    · subst hb
      simp only [IndexFile.write, putCached, Function.update_self, Option.map_eq_some_iff] at hc
      obtain ⟨c₀, hc₀, rfl⟩ := hc
      exact ⟨c₀, hc₀, rfl, rfl, .inr rfl⟩
    · simp only [IndexFile.write, putCached, Function.update_of_ne hb] at hc
      exact ⟨c, hc, rfl, rfl, .inl rfl⟩
  refine ⟨?_, h.dropped_prefix, ?_, ?_, ?_, ?_, ?_⟩
  · intro b c l hc hd hn
    obtain ⟨c₀, hc₀, -, -, rfl | hdirty⟩ := hcache b c hc
    · exact h.clean hc₀ hd hn
    · rw [hdirty] at hd
      cases hd
  · intro b hb
    obtain ⟨c, hc, hu, hf⟩ := h.dropped_cached hb
    by_cases hba : b = a
    · subst hba
      exact ⟨{ c with node := some (f (s.links b)), dirty := true },
        by simp [IndexFile.write, putCached, hc], hu, hf⟩
    · exact ⟨c, by simp [IndexFile.write, putCached, hba, hc], hu, hf⟩
  · intro b c hc hb
    obtain ⟨c₀, hc₀, -⟩ := hcache b c hc
    exact h.free_cached hc₀ hb
  · intro b c i hc hf
    obtain ⟨c₀, hc₀, hu, hf₀, -⟩ := hcache b c hc
    rw [hu]
    exact h.freeIn_own hc₀ (hf₀ ▸ hf)
  · intro b c i hc hb hu
    obtain ⟨c₀, hc₀, hu₀, hf₀, -⟩ := hcache b c hc
    rw [hf₀]
    exact h.own_unused hc₀ hb (hu₀ ▸ hu)
  · intro b c hc
    obtain ⟨c₀, hc₀, -⟩ := hcache b c hc
    exact h.cached_mem hc₀

/-- A page leaves the cache, and with it the cached part of the free list. -/
theorem CacheOk.evict (h : CacheOk s free own) (hcs : s₁.cache = s.cache) (hdk : s₁.disk = s.disk)
    (hpre : s₁.droppedCachedNodes <+: free)
    (hds : ∀ b, b ∈ s₁.droppedCachedNodes ↔ b ∈ s.droppedCachedNodes ∧ b ≠ a) :
    CacheOk (s₁.removeAndFlush a) free own := by
  have hcache (b : NodeAddress) (c : CachedNode) (hc : (s₁.removeAndFlush a).cache b = some c) :
      b ≠ a ∧ s.cache b = some c := by
    by_cases hb : b = a
    · subst hb
      simp [removeAndFlush] at hc
    · simp only [removeAndFlush, Function.update_of_ne hb, hcs] at hc
      exact ⟨hb, hc⟩
  refine ⟨?_, hpre, ?_, ?_, ?_, ?_, ?_⟩
  · intro b c l hc hd hn
    obtain ⟨hba, hc₀⟩ := hcache b c hc
    have hdisk : (s₁.removeAndFlush a).disk b = s.disk b := by
      simp only [removeAndFlush]
      split <;> simp [hba, hdk]
    rw [hdisk]
    exact h.clean hc₀ hd hn
  · intro b hb
    obtain ⟨hb, hba⟩ := (hds b).mp hb
    simpa [removeAndFlush, hba, hcs] using h.dropped_cached hb
  · intro b c hc hb
    obtain ⟨hba, hc₀⟩ := hcache b c hc
    exact (hds b).mpr ⟨h.free_cached hc₀ hb, hba⟩
  · intro b c i hc hf
    exact h.freeIn_own (hcache b c hc).2 hf
  · intro b c i hc
    exact h.own_unused (hcache b c hc).2
  · intro b c hc
    exact h.cached_mem (hcache b c hc).2

theorem flushIfNecessary_ok (v : IndexFile → Option NodeAddress) (h : CacheOk s free own)
    (hl : Lists free own) :
    SameLists s (s.flushIfNecessary v) ∧ CacheOk (s.flushIfNecessary v) free own := by
  unfold flushIfNecessary
  split
  · exact ⟨.refl, h⟩
  · rename_i w _
    split
    · rename_i d hd
      -- the last cached dropped page; the pages before it stay
      have hsnoc := List.dropLast_append_getLast? d hd
      have hnd : s.droppedCachedNodes.Nodup := hl.free_nodup.sublist h.dropped_prefix.sublist
      have hds (b : NodeAddress) : b ∈ s.droppedCachedNodes.dropLast ↔
          b ∈ s.droppedCachedNodes ∧ b ≠ d := by
        rw [← hsnoc, List.nodup_append] at hnd
        conv_rhs => rw [← hsnoc, List.mem_append, List.mem_singleton]
        constructor
        · intro hb
          exact ⟨.inl hb, hnd.2.2 b hb d (by simp)⟩
        · rintro ⟨hb | hb, hne⟩
          · exact hb
          · exact absurd hb hne
      obtain ⟨c, hc, -⟩ := h.dropped_cached (List.mem_of_getLast? hd)
      have hpre := (List.dropLast_prefix _).trans h.dropped_prefix
      have hw := h.write (a := d) (f := id)
      let s₁ := IndexFile.write { s with droppedCachedNodes := s.droppedCachedNodes.dropLast } d id
      have hlinks : s₁.links = s.links := by
        rw [write_links (by simp [hc]), id, Function.update_eq_self]
        rfl
      have hflush : SameLists s₁ (s₁.removeAndFlush d) :=
        sameLists_removeAndFlush fun c l => hw.clean
      exact ⟨SameLists.trans ⟨hlinks, rfl, rfl, rfl, rfl⟩ hflush,
        hw.evict rfl rfl hpre hds⟩
    · split
      · rename_i hnil hv
        have hv' : s.droppedCachedNodes = [] := List.getLast?_eq_none_iff.mp hnil
        exact ⟨sameLists_removeAndFlush fun c l => h.clean,
          h.evict rfl rfl h.dropped_prefix (by simp [hv'])⟩
      · exact ⟨.refl, h⟩

/-- Only an unused page leaves the cache. -/
theorem flushIfNecessary_cache (v : IndexFile → Option NodeAddress) (h : CacheOk s free own) :
    (s.flushIfNecessary v).cache b = s.cache b ∨
      (s.flushIfNecessary v).cache b = none ∧ s.users b = 0 := by
  unfold flushIfNecessary
  split
  · exact .inl rfl
  · rename_i w _
    split
    · rename_i d hd
      by_cases hb : b = d
      · subst hb
        obtain ⟨c, hc, hu, -⟩ := h.dropped_cached (List.mem_of_getLast? hd)
        exact .inr ⟨by simp [removeAndFlush], by simp [users, hc, hu]⟩
      · exact .inl (by simp [removeAndFlush, write, putCached, hb])
    · split
      · rename_i hv
        by_cases hb : b = w
        · subst hb
          obtain ⟨c, hc, hf⟩ := (Option.any_eq_true _ _).mp hv
          obtain ⟨j, hj⟩ := Option.isSome_iff_exists.mp hf
          exact .inr ⟨by simp [removeAndFlush], by simp [users, hc, (h.freeIn_own hc hj).2]⟩
        · exact .inl (by simp [removeAndFlush, hb])
      · exact .inl rfl

/-- The new entry of a page of index `i` is in use, or in its `freeNodes`. -/
theorem CacheOk.putCached (h : CacheOk s free own) (hl : Lists free own) (ha : a ∈ own i)
    (hclean : ∀ l, c.dirty = false → c.node = some l → s.disk a = l)
    (hfree : c.freeIn = if c.users = 0 then some i else none) :
    CacheOk (s.putCached a (some c)) free own := by
  have hnot : a ∉ free := fun hf => hl.free_own hf ha
  have hcache (b : NodeAddress) (c' : CachedNode)
      (hc : (s.putCached a (some c)).cache b = some c') :
      b = a ∧ c' = c ∨ b ≠ a ∧ s.cache b = some c' := by
    by_cases hb : b = a
    · subst hb
      simp only [IndexFile.putCached, Function.update_self, Option.some.injEq] at hc
      exact .inl ⟨rfl, hc.symm⟩
    · simp only [IndexFile.putCached, Function.update_of_ne hb] at hc
      exact .inr ⟨hb, hc⟩
  refine ⟨?_, h.dropped_prefix, ?_, ?_, ?_, ?_, ?_⟩
  · intro b c' l hc hd hn
    obtain ⟨rfl, rfl⟩ | ⟨-, hc⟩ := hcache b c' hc
    · exact hclean l hd hn
    · exact h.clean hc hd hn
  · intro b hb
    have hba : b ≠ a := by
      rintro rfl
      exact hnot (h.dropped_prefix.subset hb)
    simpa [IndexFile.putCached, hba] using h.dropped_cached hb
  · intro b c' hc hb
    obtain ⟨rfl, -⟩ | ⟨-, hc⟩ := hcache b c' hc
    · exact absurd hb hnot
    · exact h.free_cached hc hb
  · intro b c' j hc hf
    obtain ⟨rfl, rfl⟩ | ⟨-, hc⟩ := hcache b c' hc
    · rw [hfree] at hf
      split at hf
      · cases hf
        exact ⟨ha, ‹_›⟩
      · cases hf
    · exact h.freeIn_own hc hf
  · intro b c' j hc hb hu
    obtain ⟨rfl, rfl⟩ | ⟨-, hc⟩ := hcache b c' hc
    · rw [hfree, if_pos hu, hl.own_own ha hb]
    · exact h.own_unused hc hb hu
  · intro b c' hc
    obtain ⟨rfl, -⟩ | ⟨-, hc⟩ := hcache b c' hc
    · exact .inr ⟨i, ha⟩
    · exact h.cached_mem hc

theorem sameLists_putCached (h : c.node.getD (s.disk a) = s.links a) :
    SameLists s (s.putCached a (some c)) := by
  refine ⟨?_, rfl, rfl, rfl, rfl⟩
  funext b
  by_cases hb : b = a
  · subst hb
    simp [putCached, links] at h ⊢
    exact h
  · simp [putCached, links, hb]

variable {v : IndexFile → Option NodeAddress}

theorem getCachedNode_ok (h : CacheOk s free own) (hl : Lists free own) (ha : a ∈ own i) :
    SameLists s (s.getCachedNode v i a) ∧ CacheOk (s.getCachedNode v i a) free own ∧
      (s.getCachedNode v i a).users a = s.users a + 1 := by
  unfold getCachedNode users
  split
  · rename_i c hc
    rw [hc]
    refine ⟨sameLists_putCached (by simp [links, hc]), h.putCached hl ha ?_ ?_, by simp [putCached]⟩
    · intro l hd hn
      exact h.clean hc hd hn
    · -- a page in a `freeNodes` is unused and on the list of that handler
      cases hf : c.freeIn with
      | none => simp
      | some j =>
        obtain ⟨hj, hu⟩ := h.freeIn_own hc hf
        simp [hu, hl.own_own hj ha]
  · rename_i hc
    obtain ⟨hsame, hok⟩ := flushIfNecessary_ok v h hl
    have hflush : (s.flushIfNecessary v).cache a = none := by
      rcases flushIfNecessary_cache (b := a) v h with heq | hn
      · rw [heq, hc]
      · exact hn.1
    refine ⟨hsame.trans (sameLists_putCached (by simp [links, hflush])),
      hok.putCached hl ha (by simp) (by simp), by simp [putCached, hc]⟩

theorem freeNode_ok (h : CacheOk s free own) (hl : Lists free own) (ha : a ∈ own i)
    (hu : s.users a ≠ 0) :
    SameLists s (s.freeNode v i a true) ∧ CacheOk (s.freeNode v i a true) free own := by
  unfold freeNode
  unfold users at hu
  split
  · rename_i hc
    simp [hc] at hu
  · rename_i c hc
    rw [hc, Option.elim_some] at hu
    have hnf : c.freeIn = none := by
      rw [Option.eq_none_iff_forall_ne_some]
      intro j hj
      exact hu (h.freeIn_own hc hj).2
    split
    · dsimp only
      rw [if_pos rfl, if_pos rfl]
      have hok := h.putCached (c := { c with users := 0, freeIn := some i }) hl ha
        (fun l hd hn => h.clean hc hd hn) (by simp)
      have hflush := flushIfNecessary_ok v hok hl
      exact ⟨(sameLists_putCached (by simp [links, hc])).trans hflush.1, hflush.2⟩
    · rename_i hu1
      refine ⟨sameLists_putCached (by simp [links, hc]), h.putCached hl ha ?_ ?_⟩
      · intro l hd hn
        exact h.clean hc hd hn
      · dsimp only
        rw [hnf, if_neg (by omega)]

theorem flushIfNecessary_users (h : CacheOk s free own) (hb : s.users b ≠ 0) :
    (s.flushIfNecessary v).users b = s.users b := by
  rcases flushIfNecessary_cache (b := b) v h with heq | hn
  · rw [users, users, heq]
  · exact absurd hn.2 hb

theorem getCachedNode_users (h : CacheOk s free own) (hba : b ≠ a) (hb : s.users b ≠ 0) :
    (s.getCachedNode v i a).users b = s.users b := by
  unfold getCachedNode
  split
  · simp [users, putCached, hba]
  · rw [← flushIfNecessary_users (v := v) h hb]
    simp [users, putCached, hba]

theorem freeNode_users (h : CacheOk s free own) (hl : Lists free own) (ha : a ∈ own i)
    (hba : b ≠ a) (hb : s.users b ≠ 0) :
    (s.freeNode v i a true).users b = s.users b := by
  unfold freeNode
  split
  · rfl
  · rename_i c hc
    split
    · dsimp only
      rw [if_pos rfl, if_pos rfl]
      have hok := h.putCached (c := { c with users := 0, freeIn := some i }) hl ha
        (fun l hd hn => h.clean hc hd hn) (by simp)
      have hput : (s.putCached a (some { c with users := 0, freeIn := some i })).users b =
          s.users b := by
        simp [users, putCached, hba]
      rw [flushIfNecessary_users hok (hput ▸ hb), hput]
    · simp [users, putCached, hba]

/-- `s'` is `s` with the links of one page rewritten. -/
structure Wrote (s s' : IndexFile) (a : NodeAddress) (f : Links → Links) : Prop where
  links : s'.links = Function.update s.links a (f (s.links a))
  droppedNode : s'.droppedNode = s.droppedNode
  droppedLastNode : s'.droppedLastNode = s.droppedLastNode
  nextFreeNodeAddr : s'.nextFreeNodeAddr = s.nextFreeNodeAddr
  handlers : s'.handlers = s.handlers

theorem visit_ok (h : CacheOk s free own) (hl : Lists free own) (ha : a ∈ own i) :
    Wrote s (s.visit v i a f) a f ∧ CacheOk (s.visit v i a f) free own := by
  obtain ⟨hsame, hok, hu⟩ := getCachedNode_ok (v := v) h hl ha
  have hsome : ((s.getCachedNode v i a).cache a).isSome := by
    by_contra hn
    rw [Bool.not_eq_true, Option.isSome_eq_false_iff, Option.isNone_iff_eq_none] at hn
    simp [users, hn] at hu
  have hu' : ((s.getCachedNode v i a).write a f).users a ≠ 0 := by
    obtain ⟨c, hc⟩ := Option.isSome_iff_exists.mp hsome
    rw [users, hc, Option.elim_some] at hu
    simp [users, write, putCached, hc, hu]
  obtain ⟨hfree, hok'⟩ := freeNode_ok (v := v) (hok.write (a := a) (f := f)) hl ha hu'
  have hw := write_links (f := f) hsome
  refine ⟨⟨?_, ?_, ?_, ?_, ?_⟩, hok'⟩
  · rw [visit, hfree.links, hw, hsame.links]
  · exact hfree.droppedNode.trans hsame.droppedNode
  · exact hfree.droppedLastNode.trans hsame.droppedLastNode
  · exact hfree.nextFreeNodeAddr.trans hsame.nextFreeNodeAddr
  · exact hfree.handlers.trans hsame.handlers

theorem visit_users (h : CacheOk s free own) (hl : Lists free own) (ha : a ∈ own i) (hba : b ≠ a)
    (hb : s.users b ≠ 0) : (s.visit v i a f).users b = s.users b := by
  have hok := (getCachedNode_ok (v := v) h hl ha).2.1
  have hget := getCachedNode_users (v := v) (i := i) h hba hb
  have hwrite : ((s.getCachedNode v i a).write a f).users b =
      (s.getCachedNode v i a).users b := by
    simp [users, write, putCached, hba]
  rw [visit, freeNode_users hok.write hl ha hba (hwrite ▸ hget ▸ hb), hwrite, hget]

-- ---------------------------------------------------------------------------
-- Taking a page off the list of its index
-- ---------------------------------------------------------------------------

theorem Lists.not_newNode (hl : Layout s free own) (ha : a ∈ free ∨ ∃ i, a ∈ own i) :
    a ≠ newNode := by
  rintro rfl
  obtain ⟨-, hdvd⟩ := hl.pages.mpr ha
  revert hdvd
  decide

/-- The free list and the allocator are the same. -/
structure SameFree (s s' : IndexFile) : Prop where
  droppedNode : s'.droppedNode = s.droppedNode
  droppedLastNode : s'.droppedLastNode = s.droppedLastNode
  nextFreeNodeAddr : s'.nextFreeNodeAddr = s.nextFreeNodeAddr

theorem SameFree.trans (h : SameFree s s') (h' : SameFree s' s'') : SameFree s s'' :=
  ⟨h'.droppedNode.trans h.droppedNode, h'.droppedLastNode.trans h.droppedLastNode,
    h'.nextFreeNodeAddr.trans h.nextFreeNodeAddr⟩

theorem Wrote.sameFree (h : Wrote s s' a f) : SameFree s s' :=
  ⟨h.droppedNode, h.droppedLastNode, h.nextFreeNodeAddr⟩

theorem CacheOk.setList (h : CacheOk s free own) : CacheOk (s.setList i g) free own :=
  ⟨h.clean, h.dropped_prefix, h.dropped_cached, h.free_cached, h.freeIn_own, h.own_unused,
    h.cached_mem⟩

/-- The last cell of `l`, or the head of the list if there is none, is made to
point to `n`. -/
theorem linkNext_ok {l : List NodeAddress} (h : CacheOk s free own) (hl : Lists free own)
    (hsub : ∀ x ∈ l, x ∈ own i ∧ x ≠ newNode) (hh : s.handlers i = some hd) :
    ∃ s', (if l.reverse.headD newNode ≠ newNode then
          s.visit v i (l.reverse.headD newNode) fun m => { m with nextNode := n }
        else s.setList i fun l => { l with firstNode := n }) = s' ∧
      CacheOk s' free own ∧ SameFree s s' ∧ s'.prev = s.prev ∧
      (∀ x, s'.next x = if l.getLast? = some x then n else s.next x) ∧
      s'.handlers = Function.update s.handlers i
        (some { hd with firstNode := if l = [] then n else hd.firstNode }) ∧
      ∀ b ∉ l, s.users b ≠ 0 → s'.users b = s.users b := by
  refine ⟨_, rfl, ?_⟩
  rcases l.eq_nil_or_concat with rfl | ⟨l', p, rfl⟩
  · simp only [List.reverse_nil, List.headD_nil, ne_eq, not_true, if_false]
    refine ⟨h.setList, ⟨rfl, rfl, rfl⟩, rfl, fun x => by simp; rfl, by simp [setList, hh], ?_⟩
    intro b _ _
    rfl
  · rw [List.concat_eq_append] at hsub ⊢
    obtain ⟨hp, hne⟩ := hsub p (by simp)
    have hhead : (l' ++ [p]).reverse.headD newNode = p := by simp
    rw [hhead, if_pos hne]
    obtain ⟨hw, hok⟩ := visit_ok (v := v) (f := fun m => { m with nextNode := n }) h hl hp
    refine ⟨hok, hw.sameFree, ?_, ?_, ?_, ?_⟩
    · funext x
      by_cases hx : x = p
      · simp [prev, hw.links, hx]
      · simp [prev, hw.links, hx]
    · intro x
      by_cases hx : p = x
      · subst hx
        simp [next, hw.links]
      · simp [next, hw.links, hx, Ne.symm hx]
    · simp [hw.handlers, ← hh]
    · intro b hb hu
      exact visit_users h hl hp (by rintro rfl; simp at hb) hu

/-- The mirror image: the first cell of `r` points back to `p`. -/
theorem linkPrev_ok {r : List NodeAddress} (h : CacheOk s free own) (hl : Lists free own)
    (hsub : ∀ x ∈ r, x ∈ own i ∧ x ≠ newNode) (hh : s.handlers i = some hd) :
    ∃ s', (if r.headD newNode ≠ newNode then
          s.visit v i (r.headD newNode) fun m => { m with prevNode := p }
        else s.setList i fun l => { l with lastNode := p }) = s' ∧
      CacheOk s' free own ∧ SameFree s s' ∧ s'.next = s.next ∧
      (∀ x, s'.prev x = if r.head? = some x then p else s.prev x) ∧
      s'.handlers = Function.update s.handlers i
        (some { hd with lastNode := if r = [] then p else hd.lastNode }) ∧
      ∀ b ∉ r, s.users b ≠ 0 → s'.users b = s.users b := by
  refine ⟨_, rfl, ?_⟩
  cases r with
  | nil =>
    simp only [List.headD_nil, ne_eq, not_true, if_false]
    refine ⟨h.setList, ⟨rfl, rfl, rfl⟩, rfl, fun x => by simp; rfl, by simp [setList, hh], ?_⟩
    intro b _ _
    rfl
  | cons q r =>
    obtain ⟨hq, hne⟩ := hsub q (by simp)
    rw [List.headD_cons, if_pos hne]
    obtain ⟨hw, hok⟩ := visit_ok (v := v) (f := fun m => { m with prevNode := p }) h hl hq
    refine ⟨hok, hw.sameFree, ?_, ?_, ?_, ?_⟩
    · funext x
      by_cases hx : x = q
      · simp [next, hw.links, hx]
      · simp [next, hw.links, hx]
    · intro x
      by_cases hx : q = x
      · subst hx
        simp [prev, hw.links]
      · simp [prev, hw.links, hx, Ne.symm hx]
    · simp [hw.handlers, ← hh]
    · intro b hb hu
      exact visit_users h hl hq (by rintro rfl; simp at hb) hu

/-- Taking `a` out of the list of its index. -/
theorem removeFromList_ok {l r : List NodeAddress} (h : CacheOk s free own)
    (hl : Layout s free own) (hown : own i = l ++ a :: r) (hh : s.handlers i = some hd)
    (hu : s.users a ≠ 0) :
    ∃ s' hd', s.removeFromList v i a = s' ∧ CacheOk s' free own ∧ SameFree s s' ∧
      s'.handlers = Function.update s.handlers i (some hd') ∧
      IndexLinked s'.next s'.prev hd' (l ++ r) ∧
      (∀ x, x ∉ l ++ r → s'.next x = s.next x ∧ s'.prev x = s.prev x) ∧
      s'.users a = s.users a := by
  have hlist := hl.index hh
  rw [hown] at hlist
  have hnd : (l ++ a :: r).Nodup := hown ▸ hl.lists.own_nodup
  have hnext : s.next a = r.headD newNode := hlist.next.next_eq
  have hrev : (l ++ a :: r).reverse = r.reverse ++ a :: l.reverse := by simp
  have hprev : s.prev a = l.reverse.headD newNode := (hrev ▸ hlist.prev).next_eq
  have hmem (x : NodeAddress) (hx : x ∈ l ++ r) : x ∈ own i ∧ x ≠ newNode := by
    have hx' : x ∈ own i := by
      rw [hown]
      simp only [List.mem_append, List.mem_cons] at hx ⊢
      tauto
    exact ⟨hx', Lists.not_newNode hl (.inr ⟨i, hx'⟩)⟩
  obtain ⟨s₁, hs₁, hok₁, hfree₁, hprev₁, hnext₁, hh₁, hu₁⟩ :=
    linkNext_ok (v := v) (l := l) (n := r.headD newNode) h hl.lists
      (fun x hx => hmem x (by simp [hx])) hh
  obtain ⟨s₂, hs₂, hok₂, hfree₂, hnext₂, hprev₂, hh₂, hu₂⟩ :=
    linkPrev_ok (v := v) (r := r) (p := l.reverse.headD newNode) hok₁
      hl.lists
      (fun x hx => hmem x (by simp [hx])) (hh₁ ▸ Function.update_self ..)
  have hremove : s.removeFromList v i a = s₂ := by
    rw [removeFromList, hprev, hnext, hs₁, hs₂]
  rw [hh₁, Function.update_idem] at hh₂
  refine ⟨s₂, _, hremove, hok₂, hfree₁.trans hfree₂, hh₂, ?_, ?_, ?_⟩
  · obtain ⟨hlnext, -, -, hrnext⟩ := Linked.append.mp hlist.next
    obtain ⟨hrprev, -, -, hlprev⟩ := Linked.append.mp (hrev ▸ hlist.prev)
    rw [List.nodup_append] at hnd
    obtain ⟨hndl, hndr, hdisj⟩ := hnd
    have hndr' := (List.nodup_cons.mp hndr).2
    refine ⟨Linked.append.mpr ⟨?_, ?_⟩, ?_, ?_, ?_⟩
    · refine hlnext.retarget hndl ?_ ?_
      · intro x _ hx
        rw [hnext₂, hnext₁, if_neg hx]
      · intro x hx
        rw [hnext₂, hnext₁, if_pos hx]
    · refine hrnext.congr fun x hx => ?_
      rw [hnext₂, hnext₁, if_neg]
      intro hlast
      exact hdisj x (List.mem_of_getLast? hlast) x (by simp [hx]) rfl
    · rw [List.reverse_append]
      refine Linked.append.mpr ⟨?_, ?_⟩
      · refine hrprev.retarget (List.nodup_reverse.mpr hndr') ?_ ?_
        · intro x _ hx
          rw [List.getLast?_reverse] at hx
          rw [hprev₂, hprev₁, if_neg hx]
        · intro x hx
          rw [List.getLast?_reverse] at hx
          rw [hprev₂, if_pos hx]
      · refine hlprev.congr fun x hx => ?_
        rw [hprev₂, hprev₁, if_neg]
        intro hhead
        exact hdisj x (List.mem_reverse.mp hx) x (by simp [List.mem_of_head? hhead]) rfl
    · cases l with
      | nil => simp
      | cons b l => simpa using hlist.first
    · rcases r.eq_nil_or_concat with rfl | ⟨r', q, rfl⟩
      · simp
      · simpa using hlist.last
  · intro x hx
    rw [List.mem_append, not_or] at hx
    rw [hnext₂, hnext₁, hprev₂, hprev₁, if_neg, if_neg]
    · exact ⟨rfl, rfl⟩
    · exact fun hhead => hx.2 (List.mem_of_head? hhead)
    · exact fun hlast => hx.1 (List.mem_of_getLast? hlast)
  · rw [List.nodup_append] at hnd
    have hal : a ∉ l := fun hal => hnd.2.2 a hal a (by simp) rfl
    have har : a ∉ r := (List.nodup_cons.mp hnd.2.1).1
    have hua := hu₁ a hal hu
    rw [hu₂ a har (hua ▸ hu), hua]

theorem IndexLinked.congr {nx nx' px px' : NodeAddress → NodeAddress}
    (h : IndexLinked nx px hd l) (hn : ∀ x ∈ l, nx' x = nx x) (hp : ∀ x ∈ l, px' x = px x) :
    IndexLinked nx' px' hd l :=
  ⟨h.next.congr hn, h.prev.congr fun x hx => hp x (List.mem_reverse.mp hx), h.first, h.last⟩

/-- The lists of the indexes after the page `a` of one of them is gone. -/
theorem Lists.mem_drop {l r : List NodeAddress} (h : Lists free own) (hown : own i = l ++ a :: r) :
    x ∈ Function.update own i (l ++ r) j ↔ x ∈ own j ∧ x ≠ a := by
  have ha : a ∈ own i := by simp [hown]
  by_cases hj : j = i
  · subst hj
    have hnd : (l ++ a :: r).Nodup := hown ▸ h.own_nodup
    rw [List.nodup_middle, List.nodup_cons] at hnd
    rw [Function.update_self, hown, List.mem_append, List.mem_append, List.mem_cons]
    constructor
    · intro hx
      exact ⟨by tauto, fun hxa => hnd.1 (hxa ▸ List.mem_append.mpr hx)⟩
    · tauto
  · rw [Function.update_of_ne hj]
    refine ⟨fun hx => ⟨hx, ?_⟩, And.left⟩
    rintro rfl
    exact hj (h.own_own hx ha)

/-- A page moves from the list of an index to the front of the free list. -/
theorem Lists.drop {l r : List NodeAddress} (h : Lists free own) (hown : own i = l ++ a :: r) :
    Lists (a :: free) (Function.update own i (l ++ r)) := by
  have ha : a ∈ own i := by simp [hown]
  refine ⟨List.nodup_cons.mpr ⟨fun hf => h.free_own hf ha, h.free_nodup⟩, ?_, ?_, ?_⟩
  · intro j
    by_cases hj : j = i
    · subst hj
      have hnd : (l ++ a :: r).Nodup := hown ▸ h.own_nodup
      rw [List.nodup_middle, List.nodup_cons] at hnd
      rw [Function.update_self]
      exact hnd.2
    · rw [Function.update_of_ne hj]
      exact h.own_nodup
  · intro x j hx hxj
    obtain ⟨hxj, hxa⟩ := (h.mem_drop hown).mp hxj
    exact h.free_own ((List.mem_cons.mp hx).resolve_left hxa) hxj
  · intro j x k hxj hxk
    exact h.own_own ((h.mem_drop hown).mp hxj).1 ((h.mem_drop hown).mp hxk).1

theorem Lists.listed_drop {l r : List NodeAddress} (h : Lists free own)
    (hown : own i = l ++ a :: r) :
    (x ∈ a :: free ∨ ∃ j, x ∈ Function.update own i (l ++ r) j) ↔ x ∈ free ∨ ∃ j, x ∈ own j := by
  have ha : a ∈ own i := by simp [hown]
  simp only [h.mem_drop hown, List.mem_cons]
  constructor
  · rintro ((rfl | hx) | ⟨j, hx, -⟩)
    · exact .inr ⟨i, ha⟩
    · exact .inl hx
    · exact .inr ⟨j, hx⟩
  · rintro (hx | ⟨j, hx⟩)
    · exact .inl (.inr hx)
    · by_cases hxa : x = a
      · exact .inl (.inl hxa)
      · exact .inr ⟨j, hx, hxa⟩

theorem CacheOk.drop {l r : List NodeAddress} (h : CacheOk s free own) (hl : Lists free own)
    (hown : own i = l ++ a :: r) (hcs : s₁.cache = Function.update s.cache a (some c))
    (hdk : s₁.disk = s.disk) (hdc : s₁.droppedCachedNodes = a :: s.droppedCachedNodes)
    (hu : c.users = 0) (hf : c.freeIn = none) (hd : c.dirty = true) :
    CacheOk s₁ (a :: free) (Function.update own i (l ++ r)) := by
  have ha : a ∈ own i := by simp [hown]
  have hcache (b : NodeAddress) (c' : CachedNode) (hc : s₁.cache b = some c') :
      b = a ∧ c' = c ∨ b ≠ a ∧ s.cache b = some c' := by
    rw [hcs] at hc
    by_cases hb : b = a
    · subst hb
      rw [Function.update_self] at hc
      exact .inl ⟨rfl, (Option.some.inj hc).symm⟩
    · rw [Function.update_of_ne hb] at hc
      exact .inr ⟨hb, hc⟩
  refine ⟨?_, ?_, ?_, ?_, ?_, ?_, ?_⟩
  · intro b c' l hc hd' hn
    obtain ⟨rfl, rfl⟩ | ⟨-, hc⟩ := hcache b c' hc
    · rw [hd] at hd'
      cases hd'
    · rw [hdk]
      exact h.clean hc hd' hn
  · rw [hdc]
    exact (List.prefix_cons_inj a).mpr h.dropped_prefix
  · intro b hb
    rw [hdc] at hb
    by_cases hba : b = a
    · subst hba
      exact ⟨c, by rw [hcs, Function.update_self], hu, hf⟩
    · rw [hcs, Function.update_of_ne hba]
      exact h.dropped_cached ((List.mem_cons.mp hb).resolve_left hba)
  · intro b c' hc hb
    rw [hdc]
    obtain ⟨rfl, -⟩ | ⟨hba, hc⟩ := hcache b c' hc
    · simp
    · exact List.mem_cons_of_mem _ (h.free_cached hc ((List.mem_cons.mp hb).resolve_left hba))
  · intro b c' j hc hfj
    obtain ⟨rfl, rfl⟩ | ⟨hba, hc⟩ := hcache b c' hc
    · rw [hf] at hfj
      cases hfj
    · obtain ⟨hb, hu'⟩ := h.freeIn_own hc hfj
      exact ⟨(hl.mem_drop hown).mpr ⟨hb, hba⟩, hu'⟩
  · intro b c' j hc hb hu'
    obtain ⟨hb, hba⟩ := (hl.mem_drop hown).mp hb
    exact h.own_unused ((hcache b c' hc).resolve_left fun heq => hba heq.1).2 hb hu'
  · intro b c' hc
    rw [hl.listed_drop hown]
    obtain ⟨rfl, -⟩ | ⟨-, hc⟩ := hcache b c' hc
    · exact .inr ⟨i, ha⟩
    · exact h.cached_mem hc

theorem reverse_headD_eq_newNode (h : ∀ x ∈ l, x ≠ newNode) :
    l.reverse.headD newNode = newNode ↔ l = [] := by
  rcases l.eq_nil_or_concat with rfl | ⟨l', x, rfl⟩
  · simp
  · simpa using h x (by simp)

theorem dropNode_ok {l r : List NodeAddress} (h : CacheOk s free own) (hl : Layout s free own)
    (hown : own i = l ++ a :: r) (hh : s.handlers i = some hd) (hu : s.users a = 1) :
    CacheOk (s.dropNode v i a) (a :: free) (Function.update own i (l ++ r)) ∧
      Layout (s.dropNode v i a) (a :: free) (Function.update own i (l ++ r)) := by
  obtain ⟨s₁, hd', hs₁, hok₁, hfree₁, hh₁, hlist₁, hlinks₁, hu₁⟩ :=
    removeFromList_ok (v := v) h hl hown hh (by omega)
  have ha : a ∈ own i := by simp [hown]
  rw [hu, users] at hu₁
  obtain ⟨c, hc⟩ : ∃ c, s₁.cache a = some c := by
    cases hc : s₁.cache a with
    | none => simp [hc] at hu₁
    | some c => exact ⟨c, rfl⟩
  rw [hc, Option.elim_some] at hu₁
  have hfi : c.freeIn = none := by
    rw [Option.eq_none_iff_forall_ne_some]
    intro j hj
    have := (hok₁.freeIn_own hc hj).2
    omega
  have hdrop : s.dropNode v i a =
      { s₁ with
        cache := Function.update s₁.cache a (some
          { node := some { s₁.links a with nextNode := s₁.droppedNode }, dirty := true,
            users := 0, freeIn := none })
        droppedNode := a
        droppedCachedNodes := a :: s₁.droppedCachedNodes
        droppedLastNode := if s₁.droppedLastNode = newNode then a else s₁.droppedLastNode } := by
    rw [dropNode, hs₁]
    simp [write, freeNode, putCached, hc, hu₁, hfi, links]
  have hlinks (x : NodeAddress) : (s.dropNode v i a).links x =
      if x = a then { s₁.links a with nextNode := s₁.droppedNode } else s₁.links x := by
    rw [hdrop]
    by_cases hx : x = a
    · subst hx
      simp [links]
    · simp [links, hx]
  have hnext (x : NodeAddress) (hx : x ≠ a) : (s.dropNode v i a).next x = s₁.next x := by
    rw [next, hlinks, if_neg hx, next]
  have hprev (x : NodeAddress) (hx : x ≠ a) : (s.dropNode v i a).prev x = s₁.prev x := by
    rw [prev, hlinks, if_neg hx, prev]
  have hlists := hl.lists.drop hown
  have hfar (x : NodeAddress) (hx : x ∉ own i) :
      (s.dropNode v i a).next x = s.next x ∧ (s.dropNode v i a).prev x = s.prev x := by
    have hxa : x ≠ a := fun hxa => hx (hxa ▸ ha)
    rw [hnext x hxa, hprev x hxa]
    refine hlinks₁ x fun hmem => hx ?_
    rw [hown, List.mem_append, List.mem_cons]
    rw [List.mem_append] at hmem
    tauto
  have hne (x : NodeAddress) (hx : x ∈ free) : x ≠ newNode := Lists.not_newNode hl (.inl hx)
  have hfresh : (s.dropNode v i a).nextFreeNodeAddr = s.nextFreeNodeAddr := by
    rw [hdrop]
    exact hfree₁.nextFreeNodeAddr
  refine ⟨?_, ⟨hlists, ?_, ?_, ?_, ?_, ?_, hfresh ▸ hl.aligned, ?_⟩⟩
  · rw [hdrop]
    exact hok₁.drop hl.lists hown rfl rfl rfl rfl rfl rfl
  · refine ⟨Lists.not_newNode hl (.inr ⟨i, ha⟩), ?_, ?_⟩
    · rw [next, hlinks, if_pos rfl, hfree₁.droppedNode]
      exact hl.dropped
    · exact hl.free_linked.congr fun x hx => (hfar x (hl.lists.free_own hx)).1
  · rw [hdrop]
    rfl
  · have hlast := reverse_headD_eq_newNode hne
    rw [hdrop]
    dsimp only
    rw [hfree₁.droppedLastNode, hl.droppedLast]
    by_cases hnil : free = []
    · simp [hnil]
    · rw [if_neg (hlast.not.mpr hnil)]
      obtain ⟨f', x, rfl⟩ := (List.eq_nil_or_concat free).resolve_left hnil
      simp
  · intro j hj hhj
    have hhandlers : (s.dropNode v i a).handlers = Function.update s.handlers i (some hd') := by
      rw [hdrop, ← hh₁]
    rw [hhandlers] at hhj
    by_cases hij : j = i
    · subst hij
      rw [Function.update_self] at hhj ⊢
      cases hhj
      have hna (x : NodeAddress) (hx : x ∈ l ++ r) : x ≠ a :=
        ((hl.lists.mem_drop hown (j := j)).mp (by rwa [Function.update_self])).2
      exact hlist₁.congr (fun x hx => hnext x (hna x hx)) fun x hx => hprev x (hna x hx)
    · rw [Function.update_of_ne hij] at hhj ⊢
      have hni (x : NodeAddress) (hx : x ∈ own j) : x ∉ own i :=
        fun hxi => hij (hl.lists.own_own hx hxi)
      exact (hl.index hhj).congr (fun x hx => (hfar x (hni x hx)).1) fun x hx => (hfar x (hni x hx)).2
  · intro j hhj
    have hhandlers : (s.dropNode v i a).handlers = Function.update s.handlers i (some hd') := by
      rw [hdrop, ← hh₁]
    rw [hhandlers] at hhj
    by_cases hij : j = i
    · subst hij
      simp at hhj
    · rw [Function.update_of_ne hij] at hhj ⊢
      exact hl.dead hhj
  · intro x
    rw [hl.lists.listed_drop hown, ← hl.pages, hfresh]

-- ---------------------------------------------------------------------------
-- Giving a page to an index
-- ---------------------------------------------------------------------------

theorem Lists.mem_take : x ∈ Function.update own i (a :: own i) j ↔ x ∈ own j ∨ j = i ∧ x = a := by
  by_cases hj : j = i
  · subst hj
    simp [or_comm]
  · simp [hj]

/-- A page that is on no list goes to an index. -/
theorem Lists.take (h : Lists free own) (haf : a ∉ free) (hao : ∀ j, a ∉ own j) :
    Lists free (Function.update own i (a :: own i)) := by
  refine ⟨h.free_nodup, ?_, ?_, ?_⟩
  · intro j
    by_cases hj : j = i
    · subst hj
      simp [h.own_nodup, hao]
    · simp [hj, h.own_nodup]
  · intro x j hx hxj
    rcases mem_take.mp hxj with hxj | ⟨-, rfl⟩
    · exact h.free_own hx hxj
    · exact haf hx
  · intro j x k hxj hxk
    rcases mem_take.mp hxj with hj | ⟨hj, hxa⟩ <;> rcases mem_take.mp hxk with hk | ⟨hk, hxa'⟩
    · exact h.own_own hj hk
    · exact absurd (hxa' ▸ hj) (hao _)
    · exact absurd (hxa ▸ hk) (hao _)
    · rw [hj, hk]

/-- Without its cache entry the first dropped page is on no list. -/
theorem CacheOk.forget (h : CacheOk s (a :: free) own) (hl : Lists (a :: free) own) :
    CacheOk { s with cache := Function.update s.cache a none
                     droppedCachedNodes := s.droppedCachedNodes.tail } free own := by
  have haf : a ∉ free := (List.nodup_cons.mp hl.free_nodup).1
  have hcache (b : NodeAddress) (c : CachedNode)
      (hc : Function.update s.cache a none b = some c) : b ≠ a ∧ s.cache b = some c := by
    by_cases hb : b = a
    · subst hb
      simp at hc
    · rw [Function.update_of_ne hb] at hc
      exact ⟨hb, hc⟩
  -- the cached part is empty or starts with the same page
  have hdropped : s.droppedCachedNodes = [] ∨
      s.droppedCachedNodes = a :: s.droppedCachedNodes.tail ∧
        s.droppedCachedNodes.tail <+: free := by
    cases hd : s.droppedCachedNodes with
    | nil => exact .inl rfl
    | cons b ds =>
      have hp := h.dropped_prefix
      rw [hd, List.cons_prefix_cons] at hp
      exact .inr ⟨by rw [hp.1, List.tail_cons], hp.2⟩
  refine ⟨?_, ?_, ?_, ?_, ?_, ?_, ?_⟩
  · intro b c l hc
    exact h.clean (hcache b c hc).2
  · rcases hdropped with hd | hd
    · simp [hd]
    · exact hd.2
  · intro b hb
    have hbf : b ∈ free := by
      rcases hdropped with hd | hd
      · simp [hd] at hb
      · exact hd.2.subset hb
    have hba : b ≠ a := fun hba => haf (hba ▸ hbf)
    simpa [hba] using h.dropped_cached (List.mem_of_mem_tail hb)
  · intro b c hc hb
    obtain ⟨hba, hc⟩ := hcache b c hc
    have hm := h.free_cached hc (List.mem_cons_of_mem _ hb)
    rcases hdropped with hd | hd
    · simp [hd] at hm
    · rw [hd.1, List.mem_cons] at hm
      exact hm.resolve_left hba
  · intro b c j hc
    exact h.freeIn_own (hcache b c hc).2
  · intro b c j hc
    exact h.own_unused (hcache b c hc).2
  · intro b c hc
    obtain ⟨hba, hc⟩ := hcache b c hc
    exact (h.cached_mem hc).imp_left fun hm => (List.mem_cons.mp hm).resolve_left hba

theorem CacheOk.take (h : CacheOk s free own) (ha : s.cache a = none) :
    CacheOk s free (Function.update own i (a :: own i)) := by
  have hne (b : NodeAddress) (c : CachedNode) (hc : s.cache b = some c) : b ≠ a := by
    rintro rfl
    rw [ha] at hc
    cases hc
  refine ⟨h.clean, h.dropped_prefix, h.dropped_cached, h.free_cached, ?_, ?_, ?_⟩
  · intro b c j hc hf
    obtain ⟨hb, hu⟩ := h.freeIn_own hc hf
    exact ⟨Lists.mem_take.mpr (.inl hb), hu⟩
  · intro b c j hc hb
    exact h.own_unused hc ((Lists.mem_take.mp hb).resolve_right fun hx => hne b c hc hx.2)
  · intro b c hc
    exact (h.cached_mem hc).imp_right fun ⟨j, hj⟩ => ⟨j, Lists.mem_take.mpr (.inl hj)⟩

/-- The page `a`, in use by the caller, becomes the first of its index. -/
theorem addToList_ok {l : List NodeAddress} (h : CacheOk s free own) (hl : Lists free own)
    (hown : own i = a :: l) (hne : ∀ x ∈ own i, x ≠ newNode) (hh : s.handlers i = some hd)
    (hlist : IndexLinked s.next s.prev hd l) (hu : s.users a ≠ 0) :
    ∃ s' hd', s.addToList v i hd a = s' ∧ CacheOk s' free own ∧ SameFree s s' ∧
      s'.handlers = Function.update s.handlers i (some hd') ∧
      IndexLinked s'.next s'.prev hd' (a :: l) ∧
      ∀ x, x ∉ own i → s'.next x = s.next x ∧ s'.prev x = s.prev x := by
  have hnd : (a :: l).Nodup := hown ▸ hl.own_nodup
  obtain ⟨hal, hndl⟩ := List.nodup_cons.mp hnd
  obtain ⟨s₁, hs₁, hok₁, hfree₁, hnext₁, hprev₁, hh₁, hu₁⟩ :=
    linkPrev_ok (v := v) (r := l) (p := a) h hl
      (fun x hx => ⟨by simp [hown, hx], hne x (by simp [hown, hx])⟩) hh
  have hc₁ : (s₁.cache a).isSome := by
    have := hu₁ a hal hu
    by_contra hn
    rw [Bool.not_eq_true, Option.isSome_eq_false_iff, Option.isNone_iff_eq_none] at hn
    rw [users, hn] at this
    exact hu this.symm
  have hw := write_links (f := fun _ => { prevNode := newNode, nextNode := hd.firstNode }) hc₁
  have hadd : s.addToList v i hd a =
      (s₁.write a fun _ => { prevNode := newNode, nextNode := hd.firstNode }).setList i
        fun l => { l with firstNode := a } := by
    rw [addToList, ← hs₁, hlist.first]
  have hlinks (x : NodeAddress) : (s.addToList v i hd a).links x =
      if x = a then { prevNode := newNode, nextNode := hd.firstNode } else s₁.links x := by
    have heq : (s.addToList v i hd a).links x =
        (s₁.write a fun _ => { prevNode := newNode, nextNode := hd.firstNode }).links x := by
      rw [hadd]
      rfl
    rw [heq, hw]
    by_cases hx : x = a
    · subst hx
      simp
    · simp [hx]
  have hnext (x : NodeAddress) (hx : x ≠ a) : (s.addToList v i hd a).next x = s.next x := by
    rw [next, hlinks, if_neg hx, ← hnext₁, next]
  have hprev (x : NodeAddress) (hx : x ≠ a) : (s.addToList v i hd a).prev x =
      if l.head? = some x then a else s.prev x := by
    rw [prev, hlinks, if_neg hx, ← hprev₁, prev]
  have hhandlers : (s.addToList v i hd a).handlers = Function.update s.handlers i
      (some { firstNode := a, lastNode := if l = [] then a else hd.lastNode }) := by
    rw [hadd]
    simp only [setList, write, putCached, hh₁, Function.update_self, Option.map_some,
      Function.update_idem]
  have hfree : SameFree s (s.addToList v i hd a) := by
    rw [hadd]
    exact ⟨hfree₁.droppedNode, hfree₁.droppedLastNode, hfree₁.nextFreeNodeAddr⟩
  refine ⟨_, _, rfl, hadd ▸ hok₁.write.setList, hfree, hhandlers, ?_, ?_⟩
  · refine ⟨⟨hne a (by simp [hown]), ?_, ?_⟩, ?_, rfl, ?_⟩
    · rw [next, hlinks, if_pos rfl]
      exact hlist.first
    · exact hlist.next.congr fun x hx => hnext x fun hxa => hal (hxa ▸ hx)
    · rw [List.reverse_cons]
      refine Linked.append.mpr ⟨?_, hne a (by simp [hown]), ?_, trivial⟩
      · refine hlist.prev.retarget (List.nodup_reverse.mpr hndl) ?_ ?_
        · intro x hx hlast
          rw [List.getLast?_reverse] at hlast
          rw [hprev x fun hxa => hal (hxa ▸ List.mem_reverse.mp hx), if_neg hlast]
        · intro x hlast
          rw [List.getLast?_reverse] at hlast
          rw [hprev x fun hxa => hal (hxa ▸ List.mem_of_head? hlast), if_pos hlast]
          rfl
      · rw [prev, hlinks, if_pos rfl]
        rfl
    · rcases l.eq_nil_or_concat with rfl | ⟨l', q, rfl⟩
      · simp
      · simpa using hlist.last
  · intro x hx
    have hxa : x ≠ a := fun hxa => hx (by simp [hown, hxa])
    rw [hnext x hxa, hprev x hxa, if_neg]
    · exact ⟨rfl, rfl⟩
    · exact fun hhead => hx (by simp [hown, List.mem_of_head? hhead])

/-- Everything is in place but the links of the page `a` just taken. -/
structure Taken (t : IndexFile) (free : List NodeAddress) (own : Lid → List NodeAddress) (i : Lid)
    (a : NodeAddress) : Prop where
  lists : Lists free (Function.update own i (a :: own i))
  free_linked : Linked newNode t.next free newNode
  dropped : t.droppedNode = free.headD newNode
  droppedLast : t.droppedLastNode = free.reverse.headD newNode
  index : t.handlers j = some h → IndexLinked t.next t.prev h (own j)
  dead : t.handlers j = none → own j = []
  aligned : nodeSize ∣ t.nextFreeNodeAddr
  pages : (x < t.nextFreeNodeAddr ∧ nodeSize ∣ x) ↔
    x ∈ free ∨ ∃ j, x ∈ Function.update own i (a :: own i) j

theorem Taken.not_newNode {t : IndexFile} (h : Taken t free own i a)
    (hx : x ∈ free ∨ ∃ j, x ∈ Function.update own i (a :: own i) j) : x ≠ newNode := by
  rintro rfl
  obtain ⟨-, hdvd⟩ := h.pages.mpr hx
  revert hdvd
  decide

theorem addToList_layout {t : IndexFile} (h : Taken t free own i a)
    (hok : CacheOk t free (Function.update own i (a :: own i)))
    (hh : t.handlers i = some hd) (hu : t.users a ≠ 0) :
    CacheOk (t.addToList v i hd a) free (Function.update own i (a :: own i)) ∧
      Layout (t.addToList v i hd a) free (Function.update own i (a :: own i)) := by
  have hlists := h.lists
  obtain ⟨s', hd', rfl, hok', hfree, hh', hlist, hfar⟩ :=
    addToList_ok (v := v) hok hlists (Function.update_self ..)
      (fun x hx => h.not_newNode (.inr ⟨i, hx⟩)) hh (h.index hh) hu
  refine ⟨hok', hlists, ?_, ?_, ?_, ?_, ?_, ?_, ?_⟩
  · exact h.free_linked.congr fun x hx => (hfar x (hlists.free_own hx)).1
  · rw [hfree.droppedNode, h.dropped]
  · rw [hfree.droppedLastNode, h.droppedLast]
  · intro j hdj hj
    rw [hh'] at hj
    by_cases hij : j = i
    · subst hij
      rw [Function.update_self] at hj ⊢
      cases hj
      exact hlist
    · have hni (x : NodeAddress) (hx : x ∈ own j) : x ∉ Function.update own i (a :: own i) i := by
        intro hxi
        refine hij (hlists.own_own (a := x) ?_ hxi)
        rwa [Function.update_of_ne hij]
      rw [Function.update_of_ne hij] at hj ⊢
      exact (h.index hj).congr (fun x hx => (hfar x (hni x hx)).1)
        fun x hx => (hfar x (hni x hx)).2
  · intro j hj
    rw [hh'] at hj
    by_cases hij : j = i
    · subst hij
      simp at hj
    · rw [Function.update_of_ne hij] at hj ⊢
      exact h.dead hj
  · rw [hfree.nextFreeNodeAddr]
    exact h.aligned
  · intro x
    rw [hfree.nextFreeNodeAddr]
    exact h.pages

/-- The first dropped page is brought into the cache for its new owner. -/
theorem recycle_ok (h : CacheOk s (a :: free) own) (hl : Lists (a :: free) own) :
    ∃ t, s.popDroppedCached.getCachedNode v i a = t ∧ SameLists s t ∧
       CacheOk t free (Function.update own i (a :: own i)) ∧ t.users a ≠ 0 := by
  have haf : a ∉ free := (List.nodup_cons.mp hl.free_nodup).1
  have hao (j : Lid) : a ∉ own j := hl.free_own (by simp)
  have hl' : Lists free own := ⟨(List.nodup_cons.mp hl.free_nodup).2, hl.own_nodup,
    fun hx => hl.free_own (List.mem_cons_of_mem _ hx), hl.own_own⟩
  have hforget := (h.forget hl).take (i := i) (Function.update_self ..)
  have hl'' := hl'.take (i := i) haf hao
  have ha : a ∈ Function.update own i (a :: own i) i := by simp
  have hsame₀ : SameLists s s.popDroppedCached := ⟨rfl, rfl, rfl, rfl, rfl⟩
  have hcache₀ : s.popDroppedCached.cache a = s.cache a := rfl
  refine ⟨_, rfl, ?_⟩
  unfold getCachedNode
  cases hc : s.cache a with
  | some c =>
    obtain ⟨c', hc', hu, hf⟩ := h.dropped_cached (h.free_cached hc (by simp))
    rw [hc] at hc'
    cases hc'
    rw [hcache₀, hc]
    have hput := hforget.putCached (c := { c with users := 1, freeIn := none }) hl'' ha
      (fun l hd hn => h.clean hc hd hn) (by simp)
    simp only [putCached, Function.update_idem] at hput
    simp only [hu, hf, reduceCtorEq, and_false, if_false, Nat.zero_add]
    refine ⟨hsame₀.trans (sameLists_putCached ?_), hput, by simp [users, putCached]⟩
    simp [links, hcache₀, hc]
  | none =>
    rw [hcache₀, hc]
    have hupd : Function.update s.cache a none = s.cache := by
      rw [← hc, Function.update_eq_self]
    rw [hupd] at hforget
    obtain ⟨hsame, hok⟩ := flushIfNecessary_ok (s := s.popDroppedCached) v hforget hl''
    have hflush := (flushIfNecessary_cache (s := s.popDroppedCached) (b := a) v hforget).elim
      (fun heq => heq.trans (hcache₀.trans hc)) And.left
    refine ⟨hsame₀.trans (hsame.trans (sameLists_putCached ?_)),
      hok.putCached hl'' ha (by simp) (by simp), by simp [users, putCached]⟩
    simp [links, hflush]

/-- The first dropped page is off the free list. -/
theorem Layout.recycle (hl : Layout s (a :: free) own) (hsame : SameLists s s₁) :
    Taken (s₁.unlinkDropped a) free own i a := by
  obtain ⟨haf, hnd⟩ := List.nodup_cons.mp hl.lists.free_nodup
  have hao (j : Lid) : a ∉ own j := hl.lists.free_own (by simp)
  have hl' : Lists free own :=
    ⟨hnd, hl.lists.own_nodup, fun hx => hl.lists.free_own (List.mem_cons_of_mem _ hx),
      hl.lists.own_own⟩
  obtain ⟨-, hnext, hfl⟩ := hl.free_linked
  have hnext' : (s₁.unlinkDropped a).next = s.next := hsame.next
  have hprev' : (s₁.unlinkDropped a).prev = s.prev := hsame.prev
  have hhandlers : (s₁.unlinkDropped a).handlers = s.handlers := hsame.handlers
  have hfresh : (s₁.unlinkDropped a).nextFreeNodeAddr = s.nextFreeNodeAddr :=
    hsame.nextFreeNodeAddr
  refine ⟨hl'.take haf hao, ?_, ?_, ?_, ?_, ?_, ?_, ?_⟩
  · rw [hnext']
    exact hfl
  · rw [← hnext, ← hsame.next]
    rfl
  · have hlast := hl.droppedLast
    rw [← hsame.droppedLastNode, List.reverse_cons] at hlast
    simp only [unlinkDropped, hlast]
    rcases free.eq_nil_or_concat with rfl | ⟨f', x, rfl⟩
    · simp
    · have hx : a ≠ x := by
        rintro rfl
        simp at haf
      simp [hx]
  · intro j hdj hj
    rw [hnext', hprev']
    exact hl.index (hhandlers ▸ hj)
  · intro j hj
    exact hl.dead (hhandlers ▸ hj)
  · rw [hfresh]
    exact hl.aligned
  · intro x
    rw [hfresh, hl.pages, List.mem_cons]
    simp only [Lists.mem_take, exists_or, exists_eq_left]
    rw [or_assoc, or_left_comm, or_comm (a := x = a)]

theorem recycleNode_ok (h : CacheOk s free own) (hl : Layout s free own)
    (hd₀ : s.droppedNode ≠ newNode) (hh : s.handlers i = some hd)
    (hget : s.recycleNode v i hd = some (a, s')) :
    (∀ j, a ∉ own j) ∧ ∃ free', CacheOk s' free' (Function.update own i (a :: own i)) ∧
      Layout s' free' (Function.update own i (a :: own i)) := by
  cases free with
  | nil => exact absurd hl.dropped hd₀
  | cons b free =>
    have hb : b = s.droppedNode := hl.dropped.symm
    subst hb
    obtain ⟨t, ht, hsame, hok, hu⟩ := recycle_ok (v := v) (i := i) h hl.lists
    rw [recycleNode, ht] at hget
    split at hget
    · cases hget
      have hhandlers : (t.unlinkDropped s.droppedNode).handlers = s.handlers := hsame.handlers
      refine ⟨fun j => hl.lists.free_own (by simp), free,
        addToList_layout (hl.recycle hsame) ?_ (hhandlers ▸ hh) hu⟩
      exact ⟨hok.clean, hok.dropped_prefix, hok.dropped_cached, hok.free_cached, hok.freeIn_own,
        hok.own_unused, hok.cached_mem⟩
    · cases hget

theorem lt_add_nodeSize {n x : Nat} (h : nodeSize ∣ n) :
    (x < n + nodeSize ∧ nodeSize ∣ x) ↔ (x < n ∧ nodeSize ∣ x) ∨ x = n := by
  simp only [nodeSize] at h ⊢
  omega

/-- The page at the end of the file is on no list. -/
theorem Layout.not_listed (hl : Layout s free own) :
    s.nextFreeNodeAddr ∉ free ∧ ∀ j, s.nextFreeNodeAddr ∉ own j := by
  rw [← not_exists, ← not_or, ← hl.pages]
  exact fun hlt => Nat.lt_irrefl _ hlt.1

theorem Layout.allocate (hl : Layout s free own) (hsame : SameLists s.reserveNode s₁) :
    Taken s₁ free own i s.nextFreeNodeAddr := by
  obtain ⟨haf, hao⟩ := hl.not_listed
  refine ⟨hl.lists.take haf hao, ?_, ?_, ?_, ?_, ?_, ?_, ?_⟩
  · rw [hsame.next]
    exact hl.free_linked
  · rw [hsame.droppedNode]
    exact hl.dropped
  · rw [hsame.droppedLastNode]
    exact hl.droppedLast
  · intro j hdj hj
    rw [hsame.next, hsame.prev]
    rw [hsame.handlers] at hj
    exact hl.index hj
  · intro j hj
    rw [hsame.handlers] at hj
    exact hl.dead hj
  · rw [hsame.nextFreeNodeAddr]
    exact (Nat.dvd_add_right hl.aligned).mpr (Nat.dvd_refl _)
  · intro x
    have hpages := hl.pages (a := x)
    have hx := lt_add_nodeSize (x := x) hl.aligned
    rw [hsame.nextFreeNodeAddr]
    simp only [reserveNode, hx, hpages, Lists.mem_take, exists_or, exists_eq_left]
    rw [or_assoc, or_comm (b := x = s.nextFreeNodeAddr)]

theorem CacheOk.reserve (h : CacheOk s free own) : CacheOk s.reserveNode free own :=
  ⟨h.clean, h.dropped_prefix, h.dropped_cached, h.free_cached, h.freeIn_own, h.own_unused,
    h.cached_mem⟩

theorem CacheOk.not_cached (h : CacheOk s free own) (hl : Layout s free own) :
    s.cache s.nextFreeNodeAddr = none := by
  obtain ⟨haf, hao⟩ := hl.not_listed
  rw [Option.eq_none_iff_forall_ne_some]
  intro c hc
  exact (h.cached_mem hc).elim haf fun ⟨j, hj⟩ => hao j hj

theorem CacheOk.allocate (h : CacheOk s free own)
    (hl : Lists free (Function.update own i (a :: own i))) (ha : s.cache a = none) :
    CacheOk (s.putCached a (some { node := some l, dirty := true, users := 1, freeIn := none })) free
      (Function.update own i (a :: own i)) :=
  (h.take ha).putCached (i := i) hl (by simp) (by simp) (by simp)

theorem allocateNode_ok (h : CacheOk s free own) (hl : Layout s free own)
    (hh : s.handlers i = some hd) (hget : s.allocateNode v i hd = (a, s')) :
    (∀ j, a ∉ own j) ∧ ∃ free', CacheOk s' free' (Function.update own i (a :: own i)) ∧
      Layout s' free' (Function.update own i (a :: own i)) := by
  obtain ⟨rfl, rfl⟩ := Prod.mk.inj hget
  obtain ⟨haf, hao⟩ := hl.not_listed
  have hnone := h.not_cached hl
  obtain ⟨hsame, hok⟩ := flushIfNecessary_ok v h.reserve hl.lists
  have hflush : (s.reserveNode.flushIfNecessary v).cache s.nextFreeNodeAddr = none :=
    (flushIfNecessary_cache (b := s.nextFreeNodeAddr) v h.reserve).elim
      (fun heq => heq.trans hnone) And.left
  have hlinks : (s.reserveNode.flushIfNecessary v).links s.nextFreeNodeAddr =
      s.disk s.nextFreeNodeAddr := by
    rw [hsame.links]
    simp [links, reserveNode, hnone]
  have hput : SameLists (s.reserveNode.flushIfNecessary v)
      ((s.reserveNode.flushIfNecessary v).putCached s.nextFreeNodeAddr
        (some { node := some (s.disk s.nextFreeNodeAddr), dirty := true, users := 1,
                freeIn := none })) :=
    sameLists_putCached hlinks.symm
  have hall := hsame.trans hput
  refine ⟨hao, free, addToList_layout (hl.allocate hall)
    (hok.allocate (hl.lists.take haf hao) hflush) ?_ ?_⟩
  · rw [hall.handlers]
    exact hh
  · simp [users, putCached]

theorem getNewNode_ok (h : CacheOk s free own) (hl : Layout s free own)
    (hget : s.getNewNode v i = some (a, s')) :
    (∀ j, a ∉ own j) ∧ ∃ free', CacheOk s' free' (Function.update own i (a :: own i)) ∧
      Layout s' free' (Function.update own i (a :: own i)) := by
  unfold getNewNode at hget
  cases hh : s.handlers i with
  | none => simp [hh] at hget
  | some hd =>
    simp only [hh, Option.bind_eq_bind, Option.bind_some] at hget
    split at hget
    · exact recycleNode_ok h hl ‹_› hh hget
    · split at hget
      · cases hget
      · exact allocateNode_ok h hl hh (Option.some.inj hget)

-- ---------------------------------------------------------------------------
-- Dropping an index
-- ---------------------------------------------------------------------------

theorem flushFree_ok (h : CacheOk s free own) (i : Lid) :
    SameLists s (s.flushFree i) ∧ CacheOk (s.flushFree i) free own ∧
      ∀ b c, (s.flushFree i).cache b = some c → s.cache b = some c ∧ c.freeIn ≠ some i := by
  have hcache (b : NodeAddress) (c : CachedNode) (hc : (s.flushFree i).cache b = some c) :
      s.cache b = some c ∧ c.freeIn ≠ some i := by
    simp only [flushFree] at hc
    split at hc
    · cases hc
    · rename_i hout
      refine ⟨hc, fun hf => hout ?_⟩
      simp [hc, hf]
  have hdisk (b : NodeAddress) (c : CachedNode) (hc : (s.flushFree i).cache b = some c) :
      (s.flushFree i).disk b = s.disk b := by
    obtain ⟨hc₀, hf⟩ := hcache b c hc
    simp [flushFree, hc₀, hf]
  refine ⟨⟨?_, rfl, rfl, rfl, rfl⟩, ⟨?_, h.dropped_prefix, ?_, ?_, ?_, ?_, ?_⟩, hcache⟩
  · funext b
    cases hc : s.cache b with
    | none => simp [links, flushFree, hc]
    | some c =>
      by_cases hf : c.freeIn = some i
      · cases hd : c.dirty with
        | true => simp [links, flushFree, hc, hf, hd]
        | false =>
          cases hn : c.node with
          | none => simp [links, flushFree, hc, hf, hd, hn]
          | some l => simp [links, flushFree, hc, hf, hd, hn, h.clean hc hd hn]
      · simp [links, flushFree, hc, hf]
  · intro b c l hc hd hn
    rw [hdisk b c hc]
    exact h.clean (hcache b c hc).1 hd hn
  · intro b hb
    obtain ⟨c, hc, hu, hf⟩ := h.dropped_cached hb
    exact ⟨c, by simp [flushFree, hc, hf], hu, hf⟩
  · intro b c hc
    exact h.free_cached (hcache b c hc).1
  · intro b c j hc
    exact h.freeIn_own (hcache b c hc).1
  · intro b c j hc
    exact h.own_unused (hcache b c hc).1
  · intro b c hc
    exact h.cached_mem (hcache b c hc).1

/-- The pages of an index go to the end of the free list. -/
theorem Lists.append (h : Lists free own) :
    Lists (free ++ own i) (Function.update own i []) := by
  have hmem (x : NodeAddress) (j : Lid) (hx : x ∈ Function.update own i [] j) :
      j ≠ i ∧ x ∈ own j := by
    by_cases hj : j = i
    · subst hj
      simp at hx
    · rw [Function.update_of_ne hj] at hx
      exact ⟨hj, hx⟩
  refine ⟨?_, ?_, ?_, ?_⟩
  · rw [List.nodup_append]
    refine ⟨h.free_nodup, h.own_nodup, ?_⟩
    rintro x hx y hy rfl
    exact h.free_own hx hy
  · intro j
    by_cases hj : j = i
    · subst hj
      simp
    · rw [Function.update_of_ne hj]
      exact h.own_nodup
  · intro x j hx hxj
    obtain ⟨hj, hxj⟩ := hmem x j hxj
    rcases List.mem_append.mp hx with hx | hx
    · exact h.free_own hx hxj
    · exact hj (h.own_own hxj hx)
  · intro j x k hxj hxk
    exact h.own_own (hmem x j hxj).2 (hmem x k hxk).2

/-- An index none of whose pages is cached any more is forgotten. -/
theorem CacheOk.append (h : CacheOk s free own) (hnone : ∀ a ∈ own i, s.cache a = none)
    (hfree : ∀ b c, s.cache b = some c → c.freeIn ≠ some i) (hcs : s₁.cache = s.cache)
    (hdk : ∀ b c, s.cache b = some c → s₁.disk b = s.disk b)
    (hdc : s₁.droppedCachedNodes = s.droppedCachedNodes) :
    CacheOk s₁ (free ++ own i) (Function.update own i []) := by
  have hown (b : NodeAddress) (c : CachedNode) (hc : s.cache b = some c) : b ∉ own i := by
    intro hb
    rw [hnone b hb] at hc
    cases hc
  refine ⟨?_, ?_, ?_, ?_, ?_, ?_, ?_⟩
  · intro b c l hc hd hn
    rw [hcs] at hc
    rw [hdk b c hc]
    exact h.clean hc hd hn
  · rw [hdc]
    exact h.dropped_prefix.trans (List.prefix_append _ _)
  · intro b hb
    rw [hcs]
    exact h.dropped_cached (hdc ▸ hb)
  · intro b c hc hb
    rw [hcs] at hc
    rw [hdc]
    exact h.free_cached hc ((List.mem_append.mp hb).resolve_right (hown b c hc))
  · intro b c j hc hf
    rw [hcs] at hc
    have hj : j ≠ i := by
      rintro rfl
      exact hfree b c hc hf
    rw [Function.update_of_ne hj]
    exact h.freeIn_own hc hf
  · intro b c j hc hb hu
    rw [hcs] at hc
    by_cases hj : j = i
    · subst hj
      simp at hb
    · rw [Function.update_of_ne hj] at hb
      exact h.own_unused hc hb hu
  · intro b c hc
    rw [hcs] at hc
    rcases h.cached_mem hc with hb | ⟨j, hb⟩
    · exact .inl (List.mem_append_left _ hb)
    · have hj : j ≠ i := by
        rintro rfl
        exact hown b c hc hb
      exact .inr ⟨j, by rwa [Function.update_of_ne hj]⟩

theorem Lists.listed_append :
    (x ∈ free ++ own i ∨ ∃ j, x ∈ Function.update own i [] j) ↔ x ∈ free ∨ ∃ j, x ∈ own j := by
  constructor
  · rintro (hx | ⟨j, hx⟩)
    · exact (List.mem_append.mp hx).imp_right fun hx => ⟨i, hx⟩
    · by_cases hj : j = i
      · subst hj
        simp at hx
      · rw [Function.update_of_ne hj] at hx
        exact .inr ⟨j, hx⟩
  · rintro (hx | ⟨j, hx⟩)
    · exact .inl (List.mem_append_left _ hx)
    · by_cases hj : j = i
      · subst hj
        exact .inl (List.mem_append_right _ hx)
      · exact .inr ⟨j, by rwa [Function.update_of_ne hj]⟩

/-- The list of the index hangs on the end of the free list. -/
theorem Layout.append (hl : Layout s free own) (hh : s.handlers i = some hd)
    (hcond : own i ≠ [] ∨ free = [])
    (hnext : ∀ x, s₁.next x = if free.getLast? = some x then hd.firstNode else s.next x)
    (hprev : s₁.prev = s.prev)
    (hd₁ : s₁.droppedNode = if free = [] then hd.firstNode else s.droppedNode)
    (hd₂ : s₁.droppedLastNode = hd.lastNode)
    (hnf : s₁.nextFreeNodeAddr = s.nextFreeNodeAddr)
    (hhs : s₁.handlers = Function.update s.handlers i none) :
    Layout s₁ (free ++ own i) (Function.update own i []) := by
  have hlist := hl.index hh
  have hfar (j : Lid) (x : NodeAddress) (hx : x ∈ own j) : s₁.next x = s.next x := by
    rw [hnext, if_neg]
    intro hlast
    exact hl.lists.free_own (List.mem_of_getLast? hlast) hx
  refine ⟨hl.lists.append, ?_, ?_, ?_, ?_, ?_, ?_, ?_⟩
  · refine Linked.append.mpr ⟨hl.free_linked.retarget hl.lists.free_nodup ?_ ?_, ?_⟩
    · intro x _ hx
      rw [hnext, if_neg hx]
    · intro x hx
      rw [hnext, if_pos hx]
      exact hlist.first
    · exact hlist.next.congr (hfar i)
  · rw [hd₁]
    cases free with
    | nil => simpa using hlist.first
    | cons b free => simpa using hl.dropped
  · rw [hd₂, hlist.last]
    rcases hcond with hne | rfl
    · obtain ⟨l, x, hx⟩ := (List.eq_nil_or_concat (own i)).resolve_left hne
      simp [hx]
    · simp
  · intro j hdj hj
    rw [hhs] at hj
    by_cases hij : j = i
    · subst hij
      simp at hj
    · rw [Function.update_of_ne hij] at hj ⊢
      exact (hl.index hj).congr (hfar j) fun x _ => by rw [hprev]
  · intro j hj
    rw [hhs] at hj
    by_cases hij : j = i
    · subst hij
      simp
    · rw [Function.update_of_ne hij] at hj ⊢
      exact hl.dead hj
  · rw [hnf]
    exact hl.aligned
  · intro x
    rw [hnf, Lists.listed_append]
    exact hl.pages

theorem appendDropped_ok (h : CacheOk s free own) (hl : Layout s free own)
    (hs : s.appendDropped first = some s') :
    CacheOk s' free own ∧ (∀ b, s.cache b = none → s'.cache b = none) ∧
      (∀ b c, s'.cache b = some c → ∃ c₀, s.cache b = some c₀ ∧ c.freeIn = c₀.freeIn) ∧
      (∀ x, s'.next x = if free.getLast? = some x then first else s.next x) ∧ s'.prev = s.prev ∧
      s'.droppedNode = (if free = [] then first else s.droppedNode) ∧
      s'.nextFreeNodeAddr = s.nextFreeNodeAddr ∧ s'.handlers = s.handlers := by
  have hne (x : NodeAddress) (hx : x ∈ free) : x ≠ newNode := Lists.not_newNode hl (.inl hx)
  unfold appendDropped at hs
  rcases free.eq_nil_or_concat with rfl | ⟨f', last, rfl⟩
  · have hd₀ : s.droppedNode = newNode := hl.dropped
    rw [if_neg (not_not.mpr hd₀)] at hs
    cases hs
    refine ⟨⟨h.clean, h.dropped_prefix, h.dropped_cached, h.free_cached, h.freeIn_own,
      h.own_unused, h.cached_mem⟩, fun b hb => hb, fun b c hc => ⟨c, hc, rfl⟩, ?_, rfl, rfl, rfl,
      rfl⟩
    intro x
    rw [if_neg (by simp)]
    rfl
  · rw [List.concat_eq_append] at *
    have hlast : last = s.droppedLastNode := by simpa using hl.droppedLast.symm
    subst hlast
    have hd₀ : s.droppedNode ≠ newNode := by
      rw [hl.dropped]
      cases f' with
      | nil => exact hne _ (by simp)
      | cons b f' => exact hne b (by simp)
    rw [if_pos hd₀] at hs
    dsimp only at hs
    have hnext (hlinks : s'.links =
        Function.update s.links s.droppedLastNode
          { s.links s.droppedLastNode with nextNode := first }) (x : NodeAddress) :
        s'.next x = if (f' ++ [s.droppedLastNode]).getLast? = some x then first else s.next x := by
      rw [next, hlinks, List.getLast?_concat]
      by_cases hx : s.droppedLastNode = x
      · subst hx
        simp
      · simp [hx, Ne.symm hx, next]
    have hprev (hlinks : s'.links =
        Function.update s.links s.droppedLastNode
          { s.links s.droppedLastNode with nextNode := first }) :
        s'.prev = s.prev := by
      funext x
      rw [prev, hlinks]
      by_cases hx : x = s.droppedLastNode
      · subst hx
        simp [prev]
      · simp [hx, prev]
    split at hs
    · rename_i c hc
      split at hs
      · cases hs
        have hlinks := write_links (f := fun n => { n with nextNode := first }) (s := s) (a := s.droppedLastNode)
          (by simp [hc])
        refine ⟨h.write, ?_, ?_, hnext hlinks, hprev hlinks, by simp [write, putCached], rfl, rfl⟩
        · intro b hb
          by_cases hbl : b = s.droppedLastNode
          · subst hbl
            rw [hc] at hb
            cases hb
          · simpa [write, putCached, hbl] using hb
        · intro b c' hc'
          by_cases hbl : b = s.droppedLastNode
          · subst hbl
            simp only [write, putCached, Function.update_self, Option.map_eq_some_iff] at hc'
            obtain ⟨c₀, hc₀, rfl⟩ := hc'
            exact ⟨c₀, hc₀, rfl⟩
          · simp only [write, putCached, Function.update_of_ne hbl] at hc'
            exact ⟨c', hc', rfl⟩
      · cases hs
    · rename_i hc
      split at hs
      · cases hs
      · cases hs
        have hlinks : IndexFile.links { s with
              disk := Function.update s.disk s.droppedLastNode
                { s.disk s.droppedLastNode with nextNode := first } } =
            Function.update s.links s.droppedLastNode
              { s.links s.droppedLastNode with nextNode := first } := by
          funext x
          by_cases hx : x = s.droppedLastNode
          · subst hx
            simp [links, hc]
          · simp [links, hx]
        refine ⟨⟨?_, h.dropped_prefix, h.dropped_cached, h.free_cached, h.freeIn_own,
          h.own_unused, h.cached_mem⟩, fun b hb => hb, fun b c hc => ⟨c, hc, rfl⟩, hnext hlinks,
          hprev hlinks, by simp, rfl, rfl⟩
        intro b c l hc' hd hn
        have hbl : b ≠ s.droppedLastNode := by
          rintro rfl
          rw [hc] at hc'
          cases hc'
        simpa [hbl] using h.clean hc' hd hn

theorem drop_ok (h : CacheOk s free own) (hl : Layout s free own) (hh : s.handlers i = some hd)
    (hunused : ∀ a ∈ own i, s.users a = 0) (hcond : own i ≠ [] ∨ free = [])
    (hdrop : s.drop i = some s') :
    CacheOk s' (free ++ own i) (Function.update own i []) ∧
      Layout s' (free ++ own i) (Function.update own i []) := by
  obtain ⟨hsame, hok, hcache⟩ := flushFree_ok h i
  have hl₀ := hsame.layout hl
  have hnone : ∀ a ∈ own i, (s.flushFree i).cache a = none := by
    intro a ha
    rw [Option.eq_none_iff_forall_ne_some]
    intro c hc
    obtain ⟨hc₀, hf⟩ := hcache a c hc
    have hu := hunused a ha
    rw [users, hc₀, Option.elim_some] at hu
    exact hf (h.own_unused hc₀ ha hu)
  simp only [drop, hh, Option.bind_eq_bind, Option.bind_some, Option.bind_eq_some_iff,
    Option.some.injEq] at hdrop
  obtain ⟨t, ht, rfl⟩ := hdrop
  obtain ⟨hok₁, hcache₁, hfree₁, hnext₁, hprev₁, hd₁, hnf₁, hh₁⟩ := appendDropped_ok hok hl₀ ht
  refine ⟨hok₁.append (fun a ha => hcache₁ a (hnone a ha)) ?_ rfl (fun _ _ _ => rfl) rfl, ?_⟩
  · intro b c hc
    obtain ⟨c₀, hc₀, hf⟩ := hfree₁ b c hc
    rw [hf]
    exact (hcache b c₀ hc₀).2
  · refine hl₀.append hh hcond hnext₁ hprev₁ hd₁ rfl hnf₁ ?_
    rw [hh₁]

-- ---------------------------------------------------------------------------
-- Runs
-- ---------------------------------------------------------------------------

/-- Every page below `nextFreeNodeAddr` is on one list, and the cached dropped
pages are the first ones of the free list. -/
def Partition (s : IndexFile) : Prop :=
  ∃ free own, Layout s free own ∧ s.droppedCachedNodes <+: free ∧
    (s.droppedNode = newNode ↔ s.droppedLastNode = newNode)

/-- An index is dropped while it has a page, or nothing was dropped before. -/
def DropsPages (s : IndexFile) : Call → Prop
  | .drop i => ∀ h, s.handlers i = some h → h.firstNode ≠ newNode ∨ s.droppedNode = newNode
  | _ => True

def Inv (s : IndexFile) : Prop := ∃ free own, CacheOk s free own ∧ Layout s free own

theorem Layout.mem_of_onList (hl : Layout s free own) (h : s.OnList i a) :
    a ∈ own i ∧ ∃ hd, s.handlers i = some hd := by
  obtain ⟨hd, l, hh, hlinked, hfirst, ha⟩ := h
  have hlist := hl.index hh
  rw [hlinked.unique hlist.next (hfirst.symm.trans hlist.first)] at ha
  exact ⟨ha, hd, hh⟩

theorem Layout.partition (hl : Layout s free own) (h : CacheOk s free own) : s.Partition := by
  refine ⟨free, own, hl, h.dropped_prefix, ?_⟩
  have hne (x : NodeAddress) (hx : x ∈ free) : x ≠ newNode := Lists.not_newNode hl (.inl hx)
  rw [hl.droppedLast, reverse_headD_eq_newNode hne, hl.dropped]
  cases free with
  | nil => simp
  | cons b free => simpa using hne b (by simp)

theorem create_ok (h : CacheOk s free own) (hl : Layout s free own) (hi : s.handlers i = none) :
    Inv { s with handlers := Function.update s.handlers i (some ⟨newNode, newNode⟩) } := by
  refine ⟨free, own, ⟨h.clean, h.dropped_prefix, h.dropped_cached, h.free_cached, h.freeIn_own,
    h.own_unused, h.cached_mem⟩, ⟨hl.lists, hl.free_linked, hl.dropped, hl.droppedLast, ?_, ?_,
    hl.aligned, hl.pages⟩⟩
  · intro j hd hj
    dsimp only at hj
    by_cases hij : j = i
    · subst hij
      rw [Function.update_self] at hj
      cases hj
      rw [hl.dead hi]
      exact ⟨trivial, trivial, rfl, rfl⟩
    · rw [Function.update_of_ne hij] at hj
      exact hl.index hj
  · intro j hj
    dsimp only at hj
    by_cases hij : j = i
    · subst hij
      simp at hj
    · rw [Function.update_of_ne hij] at hj
      exact hl.dead hj

theorem inv_init (disk : NodeAddress → Links) : Inv (init disk) := by
  refine ⟨[], fun _ => [], ⟨?_, ?_, ?_, ?_, ?_, ?_, ?_⟩, ⟨⟨?_, ?_, ?_, ?_⟩, trivial, rfl, rfl, ?_,
    ?_, ?_, ?_⟩⟩
  all_goals simp [init]

/-- One call keeps the pages on their lists. -/
theorem inv_step (h : Inv s) (hok : s.Allowed c) (hdrop : s.DropsPages c)
    (hs : s.step v c = some s') : Inv s' := by
  obtain ⟨free, own, hc, hl⟩ := h
  cases c with
  | create i =>
    cases hs
    exact create_ok hc hl hok
  | getNewNode i =>
    obtain ⟨⟨a, t⟩, hget, rfl⟩ := Option.map_eq_some_iff.mp hs
    obtain ⟨-, free', hc', hl'⟩ := getNewNode_ok hc hl hget
    exact ⟨free', _, hc', hl'⟩
  | getNode i id =>
    cases hs
    have ha := (hl.mem_of_onList hok).1
    obtain ⟨hsame, hc', -⟩ := getCachedNode_ok (v := v) hc hl.lists ha
    exact ⟨free, own, hc', hsame.layout hl⟩
  | freeNode i id =>
    cases hs
    have ha := (hl.mem_of_onList hok.1).1
    obtain ⟨hsame, hc'⟩ := freeNode_ok (v := v) hc hl.lists ha hok.2
    exact ⟨free, own, hc', hsame.layout hl⟩
  | dropNode i id =>
    cases hs
    obtain ⟨ha, hd, hh⟩ := hl.mem_of_onList hok.1
    obtain ⟨l, r, hown⟩ := List.append_of_mem ha
    obtain ⟨hc', hl'⟩ := dropNode_ok (v := v) hc hl hown hh hok.2
    exact ⟨_, _, hc', hl'⟩
  | drop i =>
    obtain ⟨hd, hh⟩ := Option.isSome_iff_exists.mp hok.1
    have hlist := hl.index hh
    have hunused : ∀ a ∈ own i, s.users a = 0 := by
      intro a ha
      exact hok.2 a ⟨hd, own i, hh, hlist.next, hlist.first, ha⟩
    have hcond : own i ≠ [] ∨ free = [] := by
      refine (hdrop hd hh).imp ?_ ?_
      · intro hne hnil
        rw [hlist.first, hnil] at hne
        exact hne rfl
      · intro hd₀
        rw [hl.dropped] at hd₀
        cases free with
        | nil => rfl
        | cons b free => exact absurd hd₀ (Lists.not_newNode hl (.inl (by simp)))
    obtain ⟨hc', hl'⟩ := drop_ok hc hl hh hunused hcond hs
    exact ⟨_, _, hc', hl'⟩

end

/-- In a run that drops no empty index beside a non-empty free list, every page
is on one list, and no page in use is given out again. -/
theorem pages_partitioned (victim : IndexFile → Option NodeAddress) (disk : NodeAddress → Links)
    {s : IndexFile}
    (h : Reaches (step victim) (fun s c => s.Allowed c ∧ s.DropsPages c) (init disk) s) :
    s.Partition ∧ ∀ i a s', s.getNewNode victim i = some (a, s') → ∀ j, ¬ s.OnList j a := by
  obtain ⟨free, own, hc, hl⟩ : Inv s :=
    h.invariant (inv_init disk) fun s c s' hi hok hs => inv_step hi hok.1 hok.2 hs
  refine ⟨hl.partition hc, fun i a s' hget j hj => ?_⟩
  exact (getNewNode_ok hc hl hget).1 j (hl.mem_of_onList hj).1

/-- The state after calls on an empty file, none of which meets a full cache. -/
def after (calls : List Call) : Option IndexFile :=
  calls.foldlM (step fun _ => none) (init fun _ => ⟨newNode, newNode⟩)

/-- Index 1 has taken one page. -/
def onePage : IndexFile := (after [.create 1, .getNewNode 1]).getD (init fun _ => ⟨newNode, newNode⟩)

theorem reaches_onePage :
    Reaches (step fun _ => none) (fun s c => s.Allowed c ∧ s.DropsPages c)
      (init fun _ => ⟨newNode, newNode⟩) onePage := by
  have hsome : (after [.create 1, .getNewNode 1]).isSome := by decide +kernel
  obtain ⟨s, hs⟩ := Option.isSome_iff_exists.mp hsome
  have hone : onePage = s := by rw [onePage, hs, Option.getD_some]
  rw [hone]
  exact .step (a := Call.getNewNode 1)
    (.step (a := Call.create 1) .refl ⟨rfl, trivial⟩ rfl) ⟨rfl, trivial⟩ hs

theorem pages_partitioned_onePage : onePage.nextFreeNodeAddr = nodeSize ∧ onePage.Partition :=
  ⟨by decide +kernel, (pages_partitioned _ _ reaches_onePage).1⟩

/-- Index 1 drops its only page and is then dropped itself. The free list has a
first page and no last one. -/
theorem drop_empty_index :
    ∃ s, Reaches (step fun _ => none) Allowed (init fun _ => ⟨newNode, newNode⟩) s ∧
      s.droppedNode = 0 ∧ s.droppedLastNode = newNode ∧ ¬ s.Partition := by
  have hlist : onePage.handlers 1 = some ⟨0, 0⟩ ∧ onePage.next 0 = newNode ∧ onePage.users 0 = 1 := by
    decide +kernel
  have hon : onePage.OnList 1 0 :=
    ⟨_, [0], hlist.1, ⟨by decide, hlist.2.1, trivial⟩, rfl, by simp⟩
  have hdropped : (onePage.dropNode (fun _ => none) 1 0).handlers 1 = some ⟨newNode, newNode⟩ := by
    decide +kernel
  have hempty (id : NodeAddress) : ¬ (onePage.dropNode (fun _ => none) 1 0).OnList 1 id := by
    rintro ⟨h, l, hh, hl, hfirst, hid⟩
    rw [hdropped] at hh
    cases hh
    cases l with
    | nil => cases hid
    | cons a l => exact hl.1 hfirst.symm
  have hends : ((onePage.dropNode (fun _ => none) 1 0).drop 1).map
      (fun s => (s.droppedNode, s.droppedLastNode)) = some (0, newNode) := by
    decide +kernel
  obtain ⟨s, hs, hse⟩ := Option.map_eq_some_iff.mp hends
  obtain ⟨hd₁, hd₂⟩ := Prod.mk.inj hse
  have hrun : Reaches (step fun _ => none) Allowed (init fun _ => ⟨newNode, newNode⟩)
      (onePage.dropNode (fun _ => none) 1 0) :=
    .step (a := Call.dropNode 1 0) (reaches_onePage.mono fun _ _ hok => hok.1) ⟨hon, hlist.2.2⟩ rfl
  refine ⟨s, .step (a := Call.drop 1) hrun ⟨by rw [hdropped]; rfl, fun id hid => absurd hid (hempty id)⟩
    hs, hd₁, hd₂, ?_⟩
  rintro ⟨-, -, -, -, hiff⟩
  have hzero := hiff.mpr hd₂
  rw [hd₁] at hzero
  exact absurd hzero (by decide)

end Loxim.Indexes.IndexFile
