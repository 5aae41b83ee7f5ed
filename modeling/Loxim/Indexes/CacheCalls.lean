import Loxim.Indexes.CacheBooks

/-!
# Calls on the node cache

A call does to the lists what it does in `IndexFile`, whichever pages leave the
cache on the way, and keeps the books.
-/

namespace Loxim.Indexes.NodeCache

variable {c c' : NodeCache} {e : Chance} {free : List NodeAddress} {own : Lid → List NodeAddress}

-- ---------------------------------------------------------------------------
-- The lists change as those of the file
-- ---------------------------------------------------------------------------

section
variable {t : IndexFile} {v : IndexFile → Option NodeAddress}

theorem sameLists_wrote {s s' t t' : IndexFile} (hst : IndexFile.SameLists s t)
    (hs : IndexFile.Wrote s s' a f) (ht : IndexFile.Wrote t t' a f) :
    IndexFile.SameLists s' t' where
  links := by rw [ht.links, hs.links, hst.links]
  droppedNode := by rw [ht.droppedNode, hs.droppedNode, hst.droppedNode]
  droppedLastNode := by rw [ht.droppedLastNode, hs.droppedLastNode, hst.droppedLastNode]
  nextFreeNodeAddr := by rw [ht.nextFreeNodeAddr, hs.nextFreeNodeAddr, hst.nextFreeNodeAddr]
  handlers := by rw [ht.handlers, hs.handlers, hst.handlers]

theorem sameLists_setList {s t : IndexFile} (hst : IndexFile.SameLists s t) :
    IndexFile.SameLists (s.setList i g) (t.setList i g) where
  links := hst.links
  droppedNode := hst.droppedNode
  droppedLastNode := hst.droppedLastNode
  nextFreeNodeAddr := hst.nextFreeNodeAddr
  handlers := by simp only [IndexFile.setList, hst.handlers]

theorem sameLists_write {s t : IndexFile} (hst : IndexFile.SameLists s t) (hs : (s.cache a).isSome)
    (ht : (t.cache a).isSome) : IndexFile.SameLists (s.write a f) (t.write a f) :=
  sameLists_wrote hst ⟨IndexFile.write_links hs, rfl, rfl, rfl, rfl⟩
    ⟨IndexFile.write_links ht, rfl, rfl, rfl, rfl⟩

theorem isSome_of_users {s : IndexFile} (h : s.users a ≠ 0) : (s.cache a).isSome := by
  cases hc : s.cache a with
  | none => simp [IndexFile.users, hc] at h
  | some n => rfl

theorem Books.setList (h : c.Books free own) : (c.setList i g).Books free own :=
  ⟨h.ok.setList, h.grouped, h.registered, ⟨h.counted.finite, h.counted.cached, h.counted.used⟩,
    h.loaded⟩

/-- A neighbour in the list, or the end of the list where there is none, is
changed in the cache and in a file with the same lists. -/
theorem link_ok (h : c.Books free own) (hl : IndexFile.Lists free own)
    (hx : x ≠ newNode → x ∈ own i) (hst : IndexFile.SameLists t c.file)
    (ht : t.CacheOk free own) :
    ∃ c', (if x ≠ newNode then c.visit e i x f else some (c.setList i g)) = some c' ∧
      c'.Books free own ∧
      IndexFile.SameLists (if x ≠ newNode then t.visit v i x f else t.setList i g) c'.file ∧
      IndexFile.CacheOk (if x ≠ newNode then t.visit v i x f else t.setList i g) free own ∧
      (∀ b, b ≠ x → c.file.users b ≠ 0 → c'.file.users b = c.file.users b) ∧
      ∀ b, b ≠ x → t.users b ≠ 0 →
        IndexFile.users (if x ≠ newNode then t.visit v i x f else t.setList i g) b = t.users b := by
  by_cases hne : x ≠ newNode
  · obtain ⟨c', hvisit, hb, hw, hu⟩ := visit_ok (e := e) (f := f) h hl (hx hne)
    obtain ⟨hw', hok⟩ := IndexFile.visit_ok (v := v) (f := f) ht hl (hx hne)
    simp only [if_pos hne]
    exact ⟨c', hvisit, hb, sameLists_wrote hst hw' hw, hok, hu,
      fun b hb hub => IndexFile.visit_users ht hl (hx hne) hb hub⟩
  · simp only [if_neg hne]
    exact ⟨_, rfl, h.setList, sameLists_setList hst, ht.setList, fun _ _ _ => rfl,
      fun _ _ _ => rfl⟩

theorem removeFromList_eq : c.removeFromList e i a =
    (if c.file.prev a ≠ newNode then
        c.visit e i (c.file.prev a) fun n => { n with nextNode := c.file.next a }
      else some (c.setList i fun l => { l with firstNode := c.file.next a })).bind fun c₁ =>
    if c.file.next a ≠ newNode then
      c₁.visit e i (c.file.next a) fun n => { n with prevNode := c.file.prev a }
    else some (c₁.setList i fun l => { l with lastNode := c.file.prev a }) := by
  unfold removeFromList
  dsimp only
  split <;> rfl

theorem addToList_eq : c.addToList e i hd a =
    (if hd.firstNode ≠ newNode then
        c.visit e i hd.firstNode fun n => { n with prevNode := a }
      else some (c.setList i fun l => { l with lastNode := a })).bind fun c₁ =>
    some ((c₁.write a fun _ => { prevNode := newNode, nextNode := hd.firstNode }).setList i
      fun l => { l with firstNode := a }) := by
  unfold addToList
  dsimp only
  split <;> rfl

theorem removeFromList_ok {l r : List NodeAddress} (h : c.Books free own)
    (hl : c.file.Layout free own) (hown : own i = l ++ a :: r) (hh : c.file.handlers i = some hd)
    (hu : c.file.users a ≠ 0) :
    ∃ c', c.removeFromList e i a = some c' ∧ c'.Books free own ∧
      IndexFile.SameLists (c.file.removeFromList v i a) c'.file ∧
      c'.file.users a = c.file.users a := by
  have hlist := hl.index hh
  rw [hown] at hlist
  have hnd : (l ++ a :: r).Nodup := hown ▸ hl.lists.own_nodup
  rw [List.nodup_append, List.nodup_cons] at hnd
  have hnext : c.file.next a = r.headD newNode := hlist.next.next_eq
  have hrev : (l ++ a :: r).reverse = r.reverse ++ a :: l.reverse := by simp
  have hprev : c.file.prev a = l.reverse.headD newNode := (hrev ▸ hlist.prev).next_eq
  have hnextMem (hne : c.file.next a ≠ newNode) : c.file.next a ∈ r := by
    rw [hnext] at hne ⊢
    cases r with
    | nil => exact absurd rfl hne
    | cons b r => simp
  have hprevMem (hne : c.file.prev a ≠ newNode) : c.file.prev a ∈ l := by
    rw [hprev] at hne ⊢
    rcases l.eq_nil_or_concat with rfl | ⟨l', b, rfl⟩
    · exact absurd rfl hne
    · simp
  have hane := IndexFile.Lists.not_newNode hl (.inr ⟨i, hown ▸ (by simp : a ∈ l ++ a :: r)⟩)
  obtain ⟨c₁, hc₁, hb₁, hsame₁, hok₁, hu₁, -⟩ := link_ok (e := e) (v := v) (x := c.file.prev a)
    (f := fun n => { n with nextNode := c.file.next a })
    (g := fun l => { l with firstNode := c.file.next a }) h hl.lists
    (fun hne => by rw [hown]; simp [hprevMem hne]) .refl h.ok
  obtain ⟨c₂, hc₂, hb₂, hsame₂, -, hu₂, -⟩ := link_ok (e := e) (v := v) (x := c.file.next a)
    (f := fun n => { n with prevNode := c.file.prev a })
    (g := fun l => { l with lastNode := c.file.prev a }) hb₁ hl.lists
    (fun hne => by rw [hown]; simp [hnextMem hne]) hsame₁ hok₁
  refine ⟨c₂, ?_, hb₂, hsame₂, ?_⟩
  · rw [removeFromList_eq, hc₁, Option.bind_some, hc₂]
  · have hap : a ≠ c.file.prev a := by
      intro heq
      have hne : c.file.prev a ≠ newNode := heq ▸ hane
      exact hnd.2.2 _ (hprevMem hne) a (by simp) heq.symm
    have han : a ≠ c.file.next a := by
      intro heq
      have hne : c.file.next a ≠ newNode := heq ▸ hane
      exact hnd.2.1.1 (heq ▸ hnextMem hne)
    have hua := hu₁ a hap hu
    rw [hu₂ a han (hua ▸ hu), hua]

theorem links_put {s s' : IndexFile} (hc : s'.cache = Function.update s.cache a (some n))
    (hd : s'.disk = s.disk) (hn : n.node = some l) :
    s'.links = Function.update s.links a l := by
  funext b
  by_cases hb : b = a
  · subst hb
    simp [IndexFile.links, hc, hn]
  · simp [IndexFile.links, hc, hd, hb]

theorem dropNode_ok {l r : List NodeAddress} (h : c.Books free own) (hl : c.file.Layout free own)
    (hown : own i = l ++ a :: r) (hh : c.file.handlers i = some hd) (hu : c.file.users a = 1) :
    ∃ c', c.dropNode e i a = some c' ∧ c'.Books (a :: free) (Function.update own i (l ++ r)) ∧
      c'.file.Layout (a :: free) (Function.update own i (l ++ r)) := by
  obtain ⟨c₁, hc₁, hb₁, hsame₁, hu₁⟩ := removeFromList_ok (e := e) (v := fun _ => none) h hl hown hh
    (by omega)
  have hlayout := (IndexFile.dropNode_ok (v := fun _ => none) h.ok hl hown hh hu).2
  obtain ⟨t₁, -, ht₁, htok, -, -, -, -, htu⟩ :=
    IndexFile.removeFromList_ok (v := fun _ => none) h.ok hl hown hh (by omega)
  rw [hu, IndexFile.users] at hu₁ htu
  cases hn : c₁.file.cache a with
  | none => simp [hn] at hu₁
  | some n =>
    cases hm : t₁.cache a with
    | none => simp [hm] at htu
    | some m =>
      rw [hn, Option.elim_some] at hu₁
      rw [hm, Option.elim_some] at htu
      have hf := hb₁.not_free hn (by omega)
      let c₂ : NodeCache := { c₁ with
        usedCount := c₁.usedCount - 1
        file := { c₁.file with
          cache := Function.update c₁.file.cache a (some
            { n with
              node := some { c₁.file.links a with nextNode := c₁.file.droppedNode }
              dirty := true
              users := 0 })
          droppedNode := a
          droppedCachedNodes := a :: c₁.file.droppedCachedNodes
          droppedLastNode :=
            if c₁.file.droppedLastNode = newNode then a else c₁.file.droppedLastNode } }
      have hdrop : c.dropNode e i a = some c₂ := by
        rw [dropNode, if_neg (by omega), hc₁]
        simp [write, IndexFile.write, freeNode, update, IndexFile.putCached, hn, hu₁, c₂,
          IndexFile.links]
      rw [ht₁] at hsame₁
      have htdrop : c.file.dropNode (fun _ => none) i a =
          { t₁ with
            cache := Function.update t₁.cache a (some { m with
              node := some { t₁.links a with nextNode := t₁.droppedNode }
              dirty := true
              users := 0 })
            droppedNode := a
            droppedCachedNodes := a :: t₁.droppedCachedNodes
            droppedLastNode := if t₁.droppedLastNode = newNode then a else t₁.droppedLastNode } := by
        rw [IndexFile.dropNode, ht₁]
        simp [IndexFile.write, IndexFile.freeNode, IndexFile.putCached, hm, htu, IndexFile.links]
      have htlinks : (c.file.dropNode (fun _ => none) i a).links =
          Function.update t₁.links a { t₁.links a with nextNode := t₁.droppedNode } := by
        rw [htdrop]
        exact links_put rfl rfl rfl
      have hlinks : c₂.file.links =
          Function.update c₁.file.links a
            { c₁.file.links a with nextNode := c₁.file.droppedNode } :=
        links_put rfl rfl rfl
      have hsame₂ : IndexFile.SameLists (c.file.dropNode (fun _ => none) i a) c₂.file := by
        refine ⟨?_, ?_, ?_, ?_, ?_⟩
        · rw [hlinks, htlinks, hsame₁.links, hsame₁.droppedNode]
        · rw [htdrop]
        · rw [htdrop]
          simp only [c₂, hsame₁.droppedLastNode]
        · rw [htdrop]
          exact hsame₁.nextFreeNodeAddr
        · rw [htdrop]
          exact hsame₁.handlers
      refine ⟨c₂, hdrop, ⟨?_, ?_, hb₁.registered, ?_, ?_⟩, hsame₂.layout hlayout⟩
      · exact hb₁.ok.drop hl.lists hown rfl rfl rfl rfl hf rfl
      · refine hb₁.grouped.put (n := { n with
          node := some { c₁.file.links a with nextNode := c₁.file.droppedNode }
          dirty := true
          users := 0 }) rfl hf ?_ (fun _ _ => rfl) rfl
        intro n' hn'
        rw [hn] at hn'
        cases hn'
        exact hf
      · exact hb₁.counted.released hn rfl (by omega) rfl rfl rfl
      · intro b n' hb hn'
        by_cases hba : b = a
        · subst hba
          simp only [c₂, Function.update_self, Option.some.injEq] at hn'
          rw [← hn']
          rfl
        · simp only [c₂, Function.update_of_ne hba] at hn'
          exact hb₁.loaded ((List.mem_cons.mp hb).resolve_left hba) hn'

theorem addToList_ok (hb : c.Books free (Function.update own i (a :: own i)))
    (ht : c.file.Taken free own i a) (hh : c.file.handlers i = some hd)
    (hu : c.file.users a ≠ 0) :
    ∃ c', c.addToList e i hd a = some c' ∧
      c'.Books free (Function.update own i (a :: own i)) ∧
      c'.file.Layout free (Function.update own i (a :: own i)) := by
  have hlayout := (IndexFile.addToList_layout (v := fun _ => none) ht hb.ok hh hu).2
  have hfirst : hd.firstNode = (own i).headD newNode := (ht.index hh).first
  have hmem (hne : hd.firstNode ≠ newNode) : hd.firstNode ∈ own i := by
    rw [hfirst] at hne ⊢
    cases hown : own i with
    | nil =>
      rw [hown] at hne
      exact absurd rfl hne
    | cons b l => simp
  have hnd : (Function.update own i (a :: own i) i).Nodup := ht.lists.own_nodup
  rw [Function.update_self, List.nodup_cons] at hnd
  have hane : a ≠ hd.firstNode := by
    rintro rfl
    have hne := ht.not_newNode (x := hd.firstNode) (.inr ⟨i, by simp⟩)
    exact hnd.1 (hmem hne)
  obtain ⟨c₁, hc₁, hb₁, hsame₁, -, hu₁, htu₁⟩ := link_ok (e := e) (v := fun _ => none)
    (x := hd.firstNode) (i := i)
    (f := fun n => { n with prevNode := a }) (g := fun l => { l with lastNode := a }) hb ht.lists
    (fun hne => by simp [hmem hne]) .refl hb.ok
  have hsome := isSome_of_users (hu₁ a hane hu ▸ hu)
  have htsome := isSome_of_users (htu₁ a hane hu ▸ hu)
  refine ⟨_, by rw [addToList_eq, hc₁, Option.bind_some], hb₁.write.setList, ?_⟩
  refine (sameLists_setList ?_).layout hlayout
  exact sameLists_write hsame₁ htsome hsome

/-- The first dropped page is taken for its new owner. -/
theorem recycle_ok (h : c.Books (a :: free) own) (hl : IndexFile.Lists (a :: free) own) :
    ∃ c₁, getCachedNode e { c with file := c.file.popDroppedCached } i a = some c₁ ∧
      c₁.Books free (Function.update own i (a :: own i)) ∧ IndexFile.SameLists c.file c₁.file ∧
      c₁.file.users a ≠ 0 := by
  have haf : a ∉ free := (List.nodup_cons.mp hl.free_nodup).1
  have hl' : IndexFile.Lists free own := ⟨(List.nodup_cons.mp hl.free_nodup).2, hl.own_nodup,
    fun hx => hl.free_own (List.mem_cons_of_mem _ hx), hl.own_own⟩
  have hl'' := hl'.take (i := i) haf fun j => hl.free_own (by simp)
  cases hn : c.file.cache a with
  | some n =>
    obtain ⟨n', hn', hu, hf⟩ := h.ok.dropped_cached (h.ok.free_cached hn (by simp))
    rw [hn] at hn'
    cases hn'
    have hnot : (c.depth a, a) ∉ c.freeNodes i := by
      intro hm
      obtain ⟨-, n', hn', hfi⟩ := (h.grouped i _ a).mp hm
      rw [hn] at hn'
      cases hn'
      rw [hf] at hfi
      cases hfi
    obtain ⟨t, ht, hsame, hok, hut⟩ := IndexFile.recycle_ok (v := fun _ => none) (i := i) h.ok hl
    have hfile : c.file.popDroppedCached.putCached a (some { n with users := n.users + 1 }) = t := by
      rw [← ht]
      simp [IndexFile.getCachedNode, IndexFile.popDroppedCached, hn, hf]
    refine ⟨{ c with file := t, usedCount := c.usedCount + 1 }, ?_, ⟨hok, ?_, h.registered, ?_, ?_⟩,
      hsame, hut⟩
    · rw [← hfile]
      simp [getCachedNode, IndexFile.popDroppedCached, hn, hu, setNotFree, hnot, update]
    · refine h.grouped.put (a := a) (n := { n with users := n.users + 1 }) ?_ hf ?_
        (fun _ _ => rfl) rfl
      · rw [← hfile]
        rfl
      · intro m hm
        rw [hn] at hm
        cases hm
        exact hf
    · have hput : t.cache = Function.update c.file.cache a (some { n with users := n.users + 1 }) := by
        rw [← hfile]
        rfl
      exact h.counted.taken hn hput hu (Nat.succ_ne_zero _) rfl rfl
    · intro b m hb hm
      dsimp only at hb hm
      rw [← hfile] at hm
      have hba : b ≠ a := fun hba => haf (hba ▸ hok.dropped_prefix.subset hb)
      rw [← hfile] at hb
      refine h.loaded (List.mem_of_mem_tail hb) (n := m) ?_
      simpa [IndexFile.putCached, IndexFile.popDroppedCached, hba] using hm
  | none =>
    have hupd : Function.update c.file.cache a none = c.file.cache := by
      rw [← hn, Function.update_eq_self]
    have hforget := (h.ok.forget hl).take (i := i) (Function.update_self ..)
    rw [hupd] at hforget
    have hb₀ : Books { c with file := c.file.popDroppedCached } free
        (Function.update own i (a :: own i)) :=
      ⟨hforget, h.grouped, h.registered,
        ⟨h.counted.finite, h.counted.cached, h.counted.used⟩,
        fun hb hm => h.loaded (List.mem_of_mem_tail hb) hm⟩
    obtain ⟨c₁, v, hget, hfile, hb₁⟩ := getCachedNode_ok (e := e) (i := i) (a := a) hb₀ hl''
      (by simp)
    obtain ⟨t, ht, hsame, -, hut⟩ := IndexFile.recycle_ok (v := v) (i := i) h.ok hl
    have heq : c₁.file = t := hfile.trans ht
    exact ⟨c₁, hget, hb₁, heq ▸ hsame, heq ▸ hut⟩

theorem headD_newNode (h : ∀ x ∈ l, x ≠ newNode) : l.headD newNode = newNode ↔ l = [] := by
  cases l with
  | nil => simp
  | cons a l => simpa using h a (by simp)

theorem recycleNode_ok (h : c.Books free own) (hl : c.file.Layout free own)
    (hd₀ : c.file.droppedNode ≠ newNode) (hh : c.file.handlers i = some hd) :
    ∃ c' free' own', c.recycleNode e i hd = some c' ∧ c'.Books free' own' ∧
      c'.file.Layout free' own' := by
  cases free with
  | nil => exact absurd hl.dropped hd₀
  | cons a free =>
    have ha : c.file.droppedNode = a := hl.dropped
    obtain ⟨c₁, hget, hb₁, hsame, hu⟩ := recycle_ok (e := e) (i := i) h hl.lists
    have htaken := hl.recycle (i := i) hsame
    have hb₂ : Books { c₁ with file := c₁.file.unlinkDropped a } free
        (Function.update own i (a :: own i)) :=
      ⟨⟨hb₁.ok.clean, hb₁.ok.dropped_prefix, hb₁.ok.dropped_cached, hb₁.ok.free_cached,
          hb₁.ok.freeIn_own, hb₁.ok.own_unused, hb₁.ok.cached_mem⟩, hb₁.grouped, hb₁.registered,
        ⟨hb₁.counted.finite, hb₁.counted.cached, hb₁.counted.used⟩, hb₁.loaded⟩
    obtain ⟨c', hadd, hb', hl'⟩ := addToList_ok (e := e) hb₂ htaken (hsame.handlers ▸ hh) hu
    refine ⟨c', free, _, ?_, hb', hl'⟩
    -- the two ends of the free list agree on whether it is empty
    have hne (x : NodeAddress) (hx : x ∈ free) : x ≠ newNode := htaken.not_newNode (.inl hx)
    have hends : (c₁.file.unlinkDropped a).droppedNode = newNode ↔
        (c₁.file.unlinkDropped a).droppedLastNode = newNode := by
      rw [htaken.dropped, htaken.droppedLast, IndexFile.reverse_headD_eq_newNode hne,
        headD_newNode hne]
    have hassert : ((c₁.file.unlinkDropped a).droppedNode ≠ newNode ∧
          (c₁.file.unlinkDropped a).droppedLastNode ≠ newNode) ∨
        (c₁.file.unlinkDropped a).droppedNode = (c₁.file.unlinkDropped a).droppedLastNode := by
      by_cases hz : (c₁.file.unlinkDropped a).droppedNode = newNode
      · exact .inr (hz.trans (hends.mp hz).symm)
      · exact .inl ⟨hz, fun hz' => hz (hends.mpr hz')⟩
    rw [recycleNode, ha]
    simp only [hget, Option.bind_eq_bind, Option.bind_some]
    rw [if_pos hassert, hadd]

theorem allocateNode_ok (h : c.Books free own) (hl : c.file.Layout free own)
    (hh : c.file.handlers i = some hd) :
    ∃ c' free' own', c.allocateNode e i hd = some c' ∧ c'.Books free' own' ∧
      c'.file.Layout free' own' := by
  obtain ⟨haf, hao⟩ := hl.not_listed
  have hnone := h.ok.not_cached hl
  have hb₀ : Books { c with file := c.file.reserveNode } free own :=
    ⟨h.ok.reserve, h.grouped, h.registered,
      ⟨h.counted.finite, h.counted.cached, h.counted.used⟩, h.loaded⟩
  obtain ⟨c₁, v, hflush, hfile, hb₁, -⟩ := flushIfNecessary_ok (e := e) hb₀ hl.lists
  have hsame := (IndexFile.flushIfNecessary_ok v h.ok.reserve hl.lists).1
  have hn₁ : c₁.file.cache c.file.nextFreeNodeAddr = none := by
    rw [hfile]
    exact (IndexFile.flushIfNecessary_cache (b := c.file.nextFreeNodeAddr) v h.ok.reserve).elim
      (fun heq => heq.trans hnone) And.left
  rw [← hfile] at hsame
  have hlists := hl.lists.take (i := i) haf hao
  have hb₁' : c₁.Books free (Function.update own i (c.file.nextFreeNodeAddr :: own i)) :=
    ⟨hb₁.ok.take hn₁, hb₁.grouped, hb₁.registered, hb₁.counted, hb₁.loaded⟩
  let n : CachedNode :=
    { node := some (c.file.disk c.file.nextFreeNodeAddr), dirty := true, users := 1, freeIn := none }
  have hb₂ : (c₁.addToCacheMap e c.file.nextFreeNodeAddr n).Books free
      (Function.update own i (c.file.nextFreeNodeAddr :: own i)) :=
    hb₁'.addToCacheMap (i := i) hlists (by simp) hn₁ (by simp [n]) rfl (by simp [n])
  have hlinks : c₁.file.links c.file.nextFreeNodeAddr = c.file.disk c.file.nextFreeNodeAddr := by
    rw [hsame.links]
    simp [IndexFile.links, IndexFile.reserveNode, hnone]
  have hall : IndexFile.SameLists c.file.reserveNode
      (c₁.addToCacheMap e c.file.nextFreeNodeAddr n).file :=
    hsame.trans (IndexFile.sameLists_putCached hlinks.symm)
  obtain ⟨c', hadd, hb', hl'⟩ := addToList_ok (e := e) hb₂ (hl.allocate hall)
    (hall.handlers ▸ hh) (by simp [addToCacheMap, IndexFile.users, IndexFile.putCached, n])
  refine ⟨c', free, _, ?_, hb', hl'⟩
  simp only [allocateNode, hflush, Option.bind_eq_bind, Option.bind_some]
  exact hadd

theorem load_ok (h : c.Books free own) (hl : c.file.Layout free own) (hu : c.file.users a ≠ 0) :
    ∃ c', c.load a p = some c' ∧ c'.Books free own ∧ c'.file.Layout free own := by
  obtain ⟨n, hn⟩ := Option.isSome_iff_exists.mp (isSome_of_users hu)
  rw [IndexFile.users, hn, Option.elim_some] at hu
  obtain ⟨i, ha⟩ : ∃ i, a ∈ own i := by
    refine (h.ok.cached_mem hn).resolve_left fun hf => hu ?_
    obtain ⟨n', hn', hu', -⟩ := h.ok.dropped_cached (h.ok.free_cached hn hf)
    rw [hn] at hn'
    cases hn'
    exact hu'
  have hf := h.not_free hn hu
  have hlinks : c.file.links a = n.node.getD (c.file.disk a) := IndexFile.links_of_cached hn
  refine ⟨{ c with
      file := c.file.putCached a (some { n with node := some (c.file.links a) })
      depth := Function.update c.depth a p }, ?_, ⟨?_, ?_, h.registered, ?_, ?_⟩, ?_⟩
  · simp [load, IndexFile.users, hn, hu, update]
  · refine h.ok.putCached hl.lists ha ?_ (by dsimp only; rw [hf, if_neg hu])
    intro l hd hl'
    dsimp only at hd hl'
    cases hnode : n.node with
    | none => simpa [hlinks, hnode] using hl'
    | some l₀ =>
      rw [hlinks, hnode, Option.getD_some, Option.some.injEq] at hl'
      rw [← hl']
      exact h.ok.clean hn hd hnode
  · refine h.grouped.put (n := { n with node := some (c.file.links a) }) rfl hf ?_ ?_ rfl
    · intro m hm
      rw [hn] at hm
      cases hm
      exact hf
    · intro b hb
      simp [hb]
  · exact h.counted.same hn rfl Iff.rfl rfl rfl
  · exact h.loaded_put rfl rfl (h.not_dropped hl.lists ha)
  · exact (IndexFile.sameLists_putCached rfl).layout hl

end

-- ---------------------------------------------------------------------------
-- Runs
-- ---------------------------------------------------------------------------

/-- The counts are right, the maps hold the unused pages that are not dropped,
and a cache that is not all in use has a page to flush. -/
structure Bookkept (c : NodeCache) : Prop where
  finite : c.cachedNodes.Finite
  cachedCount : c.cachedCount = c.cachedNodes.ncard
  usedCount : c.usedCount = c.usedNodes.ncard
  freeNodes : (d, a) ∈ c.freeNodes i ↔
    c.file.OnList i a ∧ a ∈ c.cachedNodes ∧ a ∉ c.usedNodes ∧ d = c.depth a
  freeHandlers : (p, i) ∈ c.freeHandlers ↔
    ∃ d, firstKey (c.freeNodes i) = some d ∧ p = c.rootLevel i - d
  victim (e : Chance) : c.usedCount < c.cachedCount →
    ∃ a c', c.choose2flush e = some (a, c') ∧ a ∈ c.cachedNodes ∧ a ∉ c.usedNodes

theorem Books.bookkept (h : c.Books free own) (hl : c.file.Layout free own) : c.Bookkept := by
  refine ⟨h.counted.finite, h.counted.cached, h.counted.used, ?_, h.registered _ _, ?_⟩
  · intro i d a
    rw [h.grouped i d a]
    constructor
    · rintro ⟨hd, n, hn, hf⟩
      obtain ⟨ha, hu⟩ := h.ok.freeIn_own hn hf
      refine ⟨?_, by simp [cachedNodes, hn], by simp [usedNodes, IndexFile.users, hn, hu], hd⟩
      cases hh : c.file.handlers i with
      | none =>
        rw [hl.dead hh] at ha
        cases ha
      | some hd => exact ⟨hd, own i, hh, (hl.index hh).next, (hl.index hh).first, ha⟩
    · rintro ⟨hon, hc, hu, hd⟩
      obtain ⟨n, hn⟩ := Option.isSome_iff_exists.mp hc
      have hu' : n.users = 0 := by simpa [usedNodes, IndexFile.users, hn] using hu
      exact ⟨hd, n, hn, h.ok.own_unused hn (hl.mem_of_onList hon).1 hu'⟩
  · intro e hlt
    obtain ⟨a, c', hchoose, ha, hu⟩ := choose2flush_ok (e := e) h hlt
    exact ⟨a, c', hchoose, ha, by simp [usedNodes, hu]⟩

def Inv (c : NodeCache) : Prop := ∃ free own, c.Books free own ∧ c.file.Layout free own

theorem inv_init (disk : NodeAddress → Links) : (init disk).Inv := by
  obtain ⟨free, own, hok, hl⟩ := IndexFile.inv_init disk
  refine ⟨free, own, ⟨hok, ?_, ?_, ⟨?_, ?_, ?_⟩, ?_⟩, hl⟩
  · intro i d a
    simp [init, IndexFile.init]
  · intro i p
    simp [init, firstKey]
  · simp [cachedNodes, init, IndexFile.init]
  · simp [cachedNodes, init, IndexFile.init]
  · simp [usedNodes, IndexFile.users, init, IndexFile.init]
  · intro a n ha
    simp [init, IndexFile.init] at ha

theorem create_ok (h : c.Books free own) (hl : c.file.Layout free own)
    (hi : c.file.handlers i = none) :
    ∃ c', c.step (e, .create i) = some c' ∧ c'.Inv := by
  obtain ⟨free', own', hok, hl'⟩ := IndexFile.create_ok h.ok hl hi
  have hempty : c.freeNodes i = ∅ := by
    rw [Finset.eq_empty_iff_forall_notMem]
    rintro ⟨d, a⟩ hm
    obtain ⟨-, n, hn, hf⟩ := (h.grouped i d a).mp hm
    have ha := (h.ok.freeIn_own hn hf).1
    rw [hl.dead hi] at ha
    cases ha
  refine ⟨_, rfl, free', own', ⟨hok, ?_, ?_, ⟨h.counted.finite, h.counted.cached, h.counted.used⟩,
    h.loaded⟩, hl'⟩
  · intro j d a
    dsimp only
    rw [← hempty, Function.update_eq_self]
    exact h.grouped j d a
  · refine h.registered.change (i := i) ?_ ?_ (fun _ _ _ => Iff.rfl) ?_
    · intro j hj
      simp [hj]
    · intro j hj
      simp [hj]
    · intro p
      have hnone : firstKey (c.freeNodes i) = none := firstKey_eq_none.mpr hempty
      simp [h.registered.none hnone p, firstKey]

/-- A call on listed pages fails no assertion and keeps the books. -/
theorem step_ok (h : c.Inv) (hr : c.Ready k) (hk : c.Listed k) : ∃ c', c.step k = some c' ∧ c'.Inv := by
  obtain ⟨free, own, hb, hl⟩ := h
  obtain ⟨e, k⟩ := k
  cases k with
  | create i => exact create_ok hb hl hr
  | getNewNode i first =>
    obtain ⟨hd, hh⟩ := Option.isSome_iff_exists.mp hr.1
    simp only [step, getNewNode, hh, Option.bind_eq_bind, Option.bind_some]
    split
    · obtain ⟨c', free', own', hc', hb', hl'⟩ := recycleNode_ok (e := e) hb hl ‹_› hh
      exact ⟨c', hc', free', own', hb', hl'⟩
    · split
      · exact ⟨c, rfl, free, own, hb, hl⟩
      · obtain ⟨c', free', own', hc', hb', hl'⟩ := allocateNode_ok (e := e) hb hl hh
        exact ⟨c', hc', free', own', hb', hl'⟩
  | getNode i a first =>
    have ha := (hl.mem_of_onList hk).1
    obtain ⟨c', v, hc', hfile, hb'⟩ := getCachedNode_ok (e := e) hb hl.lists ha
    have hsame := (IndexFile.getCachedNode_ok (v := v) hb.ok hl.lists ha).1
    exact ⟨c', hc', free, own, hb', (hfile ▸ hsame).layout hl⟩
  | load a p =>
    obtain ⟨c', hc', hb', hl'⟩ := load_ok (p := p) hb hl hr
    exact ⟨c', hc', free, own, hb', hl'⟩
  | freeNode i a =>
    have ha := (hl.mem_of_onList hk).1
    obtain ⟨c', v, hc', hfile, hb'⟩ := freeNode_ok (e := e) hb hl.lists ha hr.2
    have hsame := (IndexFile.freeNode_ok (v := v) hb.ok hl.lists ha hr.2).1
    exact ⟨c', hc', free, own, hb', (hfile ▸ hsame).layout hl⟩
  | dropNode i a =>
    obtain ⟨ha, hd, hh⟩ := hl.mem_of_onList hk.1
    obtain ⟨l, r, hown⟩ := List.append_of_mem ha
    obtain ⟨c', hc', hb', hl'⟩ := dropNode_ok (e := e) hb hl hown hh hk.2
    exact ⟨c', hc', _, _, hb', hl'⟩
  | rootChange i q =>
    obtain ⟨H, hc', hreg⟩ := rootChange_ok hb.registered hr.2
    exact ⟨_, hc', free, own, ⟨hb.ok, hb.grouped, hreg,
      ⟨hb.counted.finite, hb.counted.cached, hb.counted.used⟩, hb.loaded⟩, hl⟩
  | flushIfNecessary =>
    obtain ⟨c', v, hc', hfile, hb', -⟩ := flushIfNecessary_ok (e := e) hb hl.lists
    have hsame := (IndexFile.flushIfNecessary_ok v hb.ok hl.lists).1
    exact ⟨c', hc', free, own, hb', (hfile ▸ hsame).layout hl⟩

/-- In a run whose calls name pages that are still listed, the books of the
cache are right in every state, and no call fails an assertion. -/
theorem cache_bookkept (disk : NodeAddress → Links) {c : NodeCache}
    (h : Reaches step (fun c k => c.Ready k ∧ c.Listed k) (init disk) c) :
    c.Bookkept ∧ ∀ k, c.Ready k → c.Listed k → (c.step k).isSome := by
  have hinv : c.Inv := by
    refine h.invariant (inv_init disk) ?_
    intro c k c' hi hok hs
    obtain ⟨c₁, hc₁, hi₁⟩ := step_ok hi hok.1 hok.2
    rw [hs] at hc₁
    cases hc₁
    exact hi₁
  refine ⟨?_, ?_⟩
  · obtain ⟨free, own, hb, hl⟩ := hinv
    exact hb.bookkept hl
  · intro k hr hk
    obtain ⟨c', hc', -⟩ := step_ok hinv hr hk
    rw [hc']
    rfl

/-- Pointers in the order of the addresses, memory that is zero. -/
def zeroed : Chance where
  handler s := if h : s.Nonempty then s.min' h else 0
  handler_mem h := by
    rw [dif_pos h]
    exact Finset.min'_mem _ h
  node s := if h : s.Nonempty then s.min' h else 0
  node_mem h := by
    rw [dif_pos h]
    exact Finset.min'_mem _ h
  depth := 0

instance (c : NodeCache) : (k : Chance × Call) → Decidable (c.Ready k)
  | (_, .create i) => inferInstanceAs (Decidable (c.file.handlers i = none))
  | (_, .getNewNode i first) =>
    inferInstanceAs (Decidable ((c.file.handlers i).isSome ∧ (first = true → _ ∨ _)))
  | (_, .getNode i _ first) =>
    inferInstanceAs (Decidable ((c.file.handlers i).isSome ∧ (first = true → _ ∨ _)))
  | (_, .load a _) => inferInstanceAs (Decidable (c.file.users a ≠ 0))
  | (_, .freeNode i _) => inferInstanceAs (Decidable ((c.file.handlers i).isSome ∧ _ ≠ 0))
  | (_, .dropNode i _) => inferInstanceAs (Decidable ((c.file.handlers i).isSome ∧ _ ≠ 0))
  | (_, .rootChange i q) =>
    inferInstanceAs (Decidable ((c.file.handlers i).isSome ∧ c.rootLevel i ≠ q))
  | (_, .flushIfNecessary) => inferInstanceAs (Decidable True)

def emptyCache : NodeCache := init fun _ => ⟨newNode, newNode⟩

/-- Index 1 has taken a page. -/
def oneTaken : NodeCache :=
  (emptyCache.step (zeroed, .create 1) >>= (·.step (zeroed, .getNewNode 1 true))).getD emptyCache

/-- And has let it go. -/
def oneFree : NodeCache := (oneTaken.step (zeroed, .freeNode 1 0)).getD oneTaken

theorem oneTaken_onList : oneTaken.file.OnList 1 0 := by
  have hlist : oneTaken.file.handlers 1 = some ⟨0, 0⟩ ∧ oneTaken.file.next 0 = newNode := by
    decide +kernel
  exact ⟨_, [0], hlist.1, ⟨by decide, hlist.2, trivial⟩, rfl, by simp⟩

theorem reaches_oneFree :
    Reaches step (fun c k => c.Ready k ∧ c.Listed k) emptyCache oneFree := by
  have hsome : (emptyCache.step (zeroed, .create 1) >>=
      (·.step (zeroed, .getNewNode 1 true))).isSome := by decide +kernel
  obtain ⟨c, hc⟩ := Option.isSome_iff_exists.mp hsome
  have hone : oneTaken = c := by rw [oneTaken, hc, Option.getD_some]
  have hfree : (oneTaken.step (zeroed, .freeNode 1 0)).isSome := by decide +kernel
  obtain ⟨c', hc'⟩ := Option.isSome_iff_exists.mp hfree
  have htwo : oneFree = c' := by rw [oneFree, hc', Option.getD_some]
  rw [htwo]
  refine .step (a := (zeroed, Call.freeNode 1 0)) (.step (a := (zeroed, Call.getNewNode 1 true))
    (.step (a := (zeroed, Call.create 1)) .refl ⟨rfl, trivial⟩ rfl) ⟨by decide +kernel, trivial⟩
    (hone ▸ hc)) ⟨by decide +kernel, oneTaken_onList⟩ hc'

theorem cache_bookkept_oneFree : oneFree.freeHandlers = {(0, 1)} ∧ oneFree.Bookkept :=
  ⟨by decide +kernel, (cache_bookkept _ reaches_oneFree).1⟩

/-- A search has left the parent page 8192 and not yet taken the child 0 when
the child is dropped. The dropped page is then among the free ones. -/
theorem search_takes_dropped :
    ∃ c, Reaches step Ready emptyCache c ∧ 0 ∈ c.file.droppedCachedNodes ∧
      (0, 0) ∈ c.freeNodes 1 ∧ ¬ c.Bookkept := by
  obtain ⟨c, hc, hq⟩ := Reaches.of_play step Ready emptyCache
    [(zeroed, .create 1), (zeroed, .getNewNode 1 true), (zeroed, .getNewNode 1 false),
      (zeroed, .load 8192 1), (zeroed, .freeNode 1 0), (zeroed, .freeNode 1 8192),
      (zeroed, .getNode 1 8192 true), (zeroed, .freeNode 1 8192),
      (zeroed, .getNode 1 0 false), (zeroed, .dropNode 1 0),
      (zeroed, .getNode 1 0 false), (zeroed, .load 0 0), (zeroed, .freeNode 1 0)]
    (fun c => decide (0 ∈ c.file.droppedCachedNodes ∧ (0, 0) ∈ c.freeNodes 1 ∧
      c.file.handlers 1 = some ⟨8192, 8192⟩ ∧ c.file.next 8192 = newNode))
    (by decide +kernel)
  obtain ⟨hd, hf, hh, hnext⟩ := of_decide_eq_true hq
  refine ⟨c, hc, hd, hf, fun hbook => ?_⟩
  -- page 8192 is the whole list
  obtain ⟨h, l, hh', hl, hfirst, hmem⟩ := (hbook.freeNodes.mp hf).1
  rw [hh] at hh'
  cases hh'
  have hone : Linked newNode c.file.next [8192] newNode := ⟨by decide, hnext, trivial⟩
  rw [hl.unique hone (by rw [← hfirst]; rfl)] at hmem
  simp at hmem

end Loxim.Indexes.NodeCache
