import Loxim.Indexes.VisibilityResolver

/-!
# The list of active transactions

What every sequence of calls keeps of the resolver's list: the ids ascend, the
horizons of the nodes and of the resolver lie below the ids they belong to, and
every node but the oldest still knows who ended before it began.
-/

namespace Loxim.Indexes

variable {v v' : VisibilityResolver} {tr tail : TransactionImpact} {id t : Tid}

-- ---------------------------------------------------------------------------
-- What a call does
-- ---------------------------------------------------------------------------

theorem TransactionImpact.addFinished_eq_some (h : tr.addFinished id = some tail) :
    ∃ done, tr.finishedBefore = some done ∧ tail.finishedBefore = some (done.insert id) ∧
      tail.horizon = max tr.horizon id ∧ tail.entryCounter = tr.entryCounter := by
  simp only [addFinished, Option.pure_def, Option.bind_eq_bind, Option.bind_eq_some_iff,
    Option.some.injEq] at h
  obtain ⟨done, hdone, rfl⟩ := h
  exact ⟨done, hdone, rfl, (max_def_lt _ _).symm, rfl⟩

namespace VisibilityResolver

theorem mem_of_find (h : v.find id = some tr) : (id, tr) ∈ v.active := by
  unfold find at h
  generalize v.active = l at h
  induction l with
  | nil => simp at h
  | cons p l ih =>
    obtain ⟨n, tn⟩ := p
    simp only [List.lookup_cons] at h
    split at h
    · rename_i heq
      cases h
      simp [eq_of_beq heq]
    · exact List.mem_cons_of_mem _ (ih h)

theorem find_isSome (h : (id, tr) ∈ v.active) : (v.find id).isSome := by
  unfold find
  generalize v.active = l at h
  induction l with
  | nil => simp at h
  | cons p l ih =>
    obtain ⟨n, tn⟩ := p
    simp only [List.lookup_cons]
    split
    · rfl
    · rename_i hne
      rcases List.mem_cons.mp h with heq | h
      · simp [(Prod.mk.inj heq).1] at hne
      · exact ih h

theorem prepare2finish_eq_some (h : v.prepare2finish id = some (tr, v')) :
    ∃ tail, v.find id = some tr ∧ v.tail.addFinished id = some tail ∧
      v' = { v with tail := tail } := by
  simp only [prepare2finish, Option.pure_def, Option.bind_eq_bind, Option.bind_eq_some_iff,
    Option.some.injEq, Prod.mk.injEq] at h
  obtain ⟨t, ht, tail, htail, rfl, rfl⟩ := h
  exact ⟨tail, ht, htail, rfl⟩

theorem moveHorizon_eq_some (h : v.moveHorizon tr = some v') :
    ∃ done, tr.finishedBefore = some done ∧
      v' = { v with horizon := tr.horizon, commitTs := forgetCommitTs v.commitTs done } := by
  simp only [moveHorizon, Option.pure_def, Option.bind_eq_bind, Option.bind_eq_some_iff,
    Option.some.injEq] at h
  obtain ⟨done, hdone, rfl⟩ := h
  exact ⟨done, hdone, rfl⟩

/-- A younger transaction, the only one, or the oldest of several has ended. -/
theorem finish_cases (h : v.finish id = some v') :
    (∃ first tr rest, v.active = (first, tr) :: rest ∧ first ≠ id ∧
      v' = { v with active := v.active.eraseP (·.1 = id) }) ∨
    (∃ tr done, v.active = [(id, tr)] ∧ v.tail.finishedBefore = some done ∧
      v' = { v with
        active := []
        tail := v.tail.forgetFinishedBefore
        horizon := v.tail.horizon
        commitTs := forgetCommitTs v.commitTs done }) ∨
    (∃ tr n next others done, v.active = (id, tr) :: (n, next) :: others ∧
      next.finishedBefore = some done ∧
      v' = { v with
        active := (n, next.forgetFinishedBefore) :: others
        horizon := next.horizon
        commitTs := forgetCommitTs v.commitTs done }) := by
  unfold finish at h
  split at h
  · cases h
  · rename_i first tr rest hact
    split at h
    · rename_i hne
      exact .inl ⟨first, tr, rest, hact, hne, (Option.some.inj h).symm⟩
    · rename_i heq
      obtain rfl : first = id := by simpa using heq
      split at h
      · simp only [Option.pure_def, Option.bind_eq_bind, Option.bind_eq_some_iff,
          Option.some.injEq] at h
        obtain ⟨w, hw, rfl⟩ := h
        obtain ⟨done, hdone, rfl⟩ := moveHorizon_eq_some hw
        exact .inr (.inl ⟨tr, done, hact, hdone, rfl⟩)
      · rename_i n next others
        simp only [Option.pure_def, Option.bind_eq_bind, Option.bind_eq_some_iff,
          Option.some.injEq] at h
        obtain ⟨w, hw, rfl⟩ := h
        obtain ⟨done, hdone, rfl⟩ := moveHorizon_eq_some hw
        exact .inr (.inr ⟨tr, n, next, others, done, hact, hdone, rfl⟩)

theorem getElem?_forgetCommitTs {m : Std.ExtTreeMap Tid Ts} {done : List Tid} :
    (forgetCommitTs m done)[t]? = if t ∈ done then none else m[t]? := by
  unfold forgetCommitTs
  induction done generalizing m with
  | nil => simp
  | cons d done ih =>
    rw [List.foldl_cons, ih, Std.ExtTreeMap.getElem?_erase]
    simp only [List.mem_cons]
    by_cases hd : t = d
    · simp [hd]
    · simp [hd, Ne.symm hd]

/-- The commit times once `id` has been committed at `timestamp`. -/
def stampedBy (v : VisibilityResolver) (tr : TransactionImpact) (id : Tid) (timestamp : Ts) :
    Std.ExtTreeMap Tid Ts :=
  if tr.entryCounter.isEmpty then v.commitTs else v.commitTs.insertIfNew id timestamp

theorem commit_eq_some (h : v.commit id c = some v') :
    ∃ tr tail, v.find id = some tr ∧ v.tail.addFinished id = some tail ∧
      { v with tail := tail, commitTs := v.stampedBy tr id c }.finish id = some v' := by
  simp only [commit, Option.bind_eq_bind, Option.bind_eq_some_iff] at h
  obtain ⟨⟨tr, w⟩, hw, h⟩ := h
  obtain ⟨tail, hfind, htail, rfl⟩ := prepare2finish_eq_some hw
  refine ⟨tr, tail, hfind, htail, ?_⟩
  rw [← h, stampedBy]
  split <;> rfl

theorem abort_eq_some (h : v.abort id = some v') :
    ∃ tr tail w, v.find id = some tr ∧ v.tail.addFinished id = some tail ∧
      { v with tail := tail }.finish id = some w ∧
      v' = { w with rolledBack := tr.entryCounter.toList.foldl (addRolledBack id) w.rolledBack } := by
  simp only [abort, Option.pure_def, Option.bind_eq_bind, Option.bind_eq_some_iff,
    Option.some.injEq] at h
  obtain ⟨⟨tr, u⟩, hu, w, hw, rfl⟩ := h
  obtain ⟨tail, hfind, htail, rfl⟩ := prepare2finish_eq_some hu
  exact ⟨tr, tail, w, hfind, htail, hw, rfl⟩

theorem entryAdded_eq_some (h : v.entryAdded t i = some v') :
    ∃ tr, v.find t = some tr ∧ v' = v.modify t (·.entryAdded i) := by
  simp only [entryAdded, Option.pure_def, Option.bind_eq_bind, Option.bind_eq_some_iff,
    Option.some.injEq] at h
  obtain ⟨tr, htr, rfl⟩ := h
  exact ⟨tr, htr, rfl⟩

-- ---------------------------------------------------------------------------
-- The rolled back entries
-- ---------------------------------------------------------------------------

/-- How many entries of the rolled back transaction `t` are left in index `i`. -/
def rolledCount (rb : RolledBack) (i : Lid) (t : Tid) : Option Nat := rb[i]?.bind (·[t]?)

theorem isRolledBack_iff (ht : t ≠ Tid.rolledBack) :
    v.isRolledBack t i = true ↔ (rolledCount v.rolledBack i t).isSome := by
  unfold isRolledBack rolledCount
  rw [if_neg ht]
  cases v.rolledBack[i]? with
  | none => simp
  | some counts => simp

theorem rolledCount_addRolledBack (rb : RolledBack) (p : Lid × Nat) :
    rolledCount (addRolledBack id rb p) i t =
      if p.1 = i ∧ t = id then some ((rolledCount rb i t).getD p.2) else rolledCount rb i t := by
  unfold rolledCount addRolledBack
  rw [Std.ExtTreeMap.getElem?_insert]
  by_cases hi : p.1 = i
  · subst hi
    rw [if_pos (by simp), Option.bind_some, Std.ExtTreeMap.getElem?_insertIfNew,
      Std.ExtTreeMap.getD_eq_getD_getElem?]
    by_cases ht : t = id
    · subst ht
      cases hc : rb[p.1]? with
      | none => simp
      | some counts =>
        have hmem : t ∈ counts ↔ counts[t]?.isSome := Std.ExtTreeMap.mem_iff_isSome_getElem?
        cases hn : counts[t]? with
        | none => simp [show t ∉ counts by simp only [hmem, hn]; simp]
        | some n => simp [show t ∈ counts by simp only [hmem, hn]; rfl]
    · cases hc : rb[p.1]? with
      | none => simp [ht, Ne.symm ht]
      | some counts => simp [ht, Ne.symm ht]
  · rw [if_neg (by simpa using hi), if_neg (by simp [hi])]

theorem rolledCount_foldl (rb : RolledBack) (l : List (Lid × Nat)) :
    rolledCount (l.foldl (addRolledBack id) rb) i t =
      if t = id then (rolledCount rb i t).or ((l.find? (compare ·.1 i == .eq)).map Prod.snd)
      else rolledCount rb i t := by
  induction l generalizing rb with
  | nil => simp
  | cons p l ih =>
    rw [List.foldl_cons, ih, rolledCount_addRolledBack]
    by_cases ht : t = id
    · subst ht
      by_cases hi : p.1 = i
      · cases hn : rolledCount rb i t with
        | none => simp [hi]
        | some n => simp [hi]
      · simp [hi]
    · simp [ht]

theorem find?_toList_map (m : Impact) (i : Lid) :
    (m.toList.find? (compare ·.1 i == .eq)).map Prod.snd = m[i]? := by
  cases hi : m[i]? with
  | none =>
    rw [Std.ExtTreeMap.find?_toList_eq_none_iff_not_mem.mpr]
    · rfl
    · rw [Std.ExtTreeMap.mem_iff_isSome_getElem?, hi]
      simp
  | some n =>
    have hmem : i ∈ m := Std.ExtTreeMap.mem_iff_isSome_getElem?.mpr (by simp only [hi]; rfl)
    have hkey : m.getKey? i = some i := Std.ExtTreeMap.getKey?_eq_some hmem
    rw [Std.ExtTreeMap.find?_toList_eq_some_iff_getKey?_eq_some_and_getElem?_eq_some.mpr ⟨hkey, hi⟩]
    rfl

/-- An abort turns the counters of the transaction into its rolled back counts. -/
theorem rolledCount_abort (tr : TransactionImpact) (rb : RolledBack) :
    rolledCount (tr.entryCounter.toList.foldl (addRolledBack id) rb) i t =
      if t = id then (rolledCount rb i t).or tr.entryCounter[i]? else rolledCount rb i t := by
  rw [rolledCount_foldl, find?_toList_map]

theorem rolledCount_insert (rb : RolledBack) (i j : Lid) (counts : RolledBackIndex) (t : Tid) :
    rolledCount (rb.insert j counts) i t = if i = j then counts[t]? else rolledCount rb i t := by
  unfold rolledCount
  rw [Std.ExtTreeMap.getElem?_insert]
  by_cases hij : i = j
  · simp [hij]
  · simp [hij, Ne.symm hij]

theorem rolledCount_erase (rb : RolledBack) (i j : Lid) (t : Tid) :
    rolledCount (rb.erase j) i t = if i = j then none else rolledCount rb i t := by
  unfold rolledCount
  rw [Std.ExtTreeMap.getElem?_erase]
  by_cases hij : i = j
  · simp [hij]
  · simp [hij, Ne.symm hij]

/-- The count after one entry less. -/
def lowered (n : Nat) : Option Nat := if n = 1 then none else some (n - 1)

theorem entryDropped_rolledBack (ht : t ≠ Tid.rolledBack)
    (hn : rolledCount v.rolledBack i t = some n) :
    ∃ rb, v.entryDropped t i .rolledBack = some { v with rolledBack := rb } ∧
      ∀ j u, rolledCount rb j u = if j = i ∧ u = t then lowered n else rolledCount v.rolledBack j u := by
  obtain ⟨counts, hc, hn⟩ := Option.bind_eq_some_iff.mp hn
  have hold (u : Tid) : rolledCount v.rolledBack i u = counts[u]? := by
    rw [rolledCount, hc, Option.bind_some]
  simp only [entryDropped, if_neg ht, hc, hn, Option.bind_eq_bind, Option.bind_some]
  by_cases h1 : n = 1
  · have hcount (u : Tid) : (counts.erase t)[u]? = if u = t then none else counts[u]? := by
      rw [Std.ExtTreeMap.getElem?_erase]
      by_cases hu : u = t
      · simp [hu]
      · simp [hu, Ne.symm hu]
    rw [if_pos h1]
    refine ⟨_, rfl, fun j u => ?_⟩
    split
    · rename_i hempty
      rw [rolledCount_erase]
      by_cases hj : j = i
      · subst hj
        have hnone : (counts.erase t)[u]? = none := by
          rw [Std.ExtTreeMap.isEmpty_iff.mp hempty]
          exact Std.ExtTreeMap.getElem?_empty
        rw [hcount] at hnone
        by_cases hu : u = t
        · simp [hu, lowered, h1]
        · rw [if_neg hu] at hnone
          simp [hu, hold, hnone]
      · simp [hj]
    · rw [rolledCount_insert]
      by_cases hj : j = i
      · subst hj
        by_cases hu : u = t
        · simp [hu, lowered, h1]
        · simp [hu, hcount, hold]
      · simp [hj]
  · have hcount (u : Tid) : (counts.insert t (n - 1))[u]? =
        if u = t then some (n - 1) else counts[u]? := by
      rw [Std.ExtTreeMap.getElem?_insert]
      by_cases hu : u = t
      · simp [hu]
      · simp [hu, Ne.symm hu]
    rw [if_neg h1]
    refine ⟨_, rfl, fun j u => ?_⟩
    rw [rolledCount_insert]
    by_cases hj : j = i
    · subst hj
      by_cases hu : u = t
      · simp [hu, lowered, h1]
      · simp [hu, hcount, hold]
    · simp [hj]

-- ---------------------------------------------------------------------------
-- The list along a run
-- ---------------------------------------------------------------------------

/-- `top` is the transaction that began last, or zero. -/
structure Listed (v : VisibilityResolver) (top : Tid) : Prop where
  top_nonneg : 0 ≤ top
  sorted : (v.active.map Prod.fst).Pairwise (· < ·)
  node_le : ∀ p ∈ v.active, p.1 ≤ top
  node_horizon : ∀ p ∈ v.active, p.2.horizon < p.1
  node_done : ∀ p ∈ v.active, ∀ done, p.2.finishedBefore = some done →
    ∀ t ∈ done, t ≤ p.2.horizon
  node_kept : ∀ p ∈ v.active.tail, p.2.finishedBefore ≠ none
  tail_le : v.tail.horizon ≤ top
  tail_done : ∀ done, v.tail.finishedBefore = some done → ∀ t ∈ done, t ≤ v.tail.horizon
  tail_kept : v.active ≠ [] → v.tail.finishedBefore ≠ none
  top_ended : top = 0 ∨ (∃ p ∈ v.active, p.1 = top) ∨ v.tail.horizon = top
  horizon_le : v.horizon ≤ top
  horizon_lt : ∀ p ∈ v.active, v.horizon < p.1
  horizon_idle : v.active = [] → v.horizon = v.tail.horizon

theorem listed_init : Listed {} 0 := by
  constructor <;> simp

theorem Listed.begin (h : Listed v top) (hid : top < id) : Listed (v.begin id) id := by
  have hpos : 0 ≤ id := le_trans h.top_nonneg hid.le
  constructor
  · exact hpos
  · simp only [VisibilityResolver.begin, List.map_append, List.pairwise_append]
    refine ⟨h.sorted, by simp, ?_⟩
    rintro a ha b hb
    obtain ⟨p, hp, rfl⟩ := List.mem_map.mp ha
    obtain rfl : b = id := by simpa using hb
    exact lt_of_le_of_lt (h.node_le p hp) hid
  · intro p hp
    rcases List.mem_append.mp hp with hp | hp
    · exact (lt_of_le_of_lt (h.node_le p hp) hid).le
    · obtain rfl := List.mem_singleton.mp hp
      exact le_rfl
  · intro p hp
    rcases List.mem_append.mp hp with hp | hp
    · exact h.node_horizon p hp
    · obtain rfl := List.mem_singleton.mp hp
      exact lt_of_le_of_lt h.tail_le hid
  · intro p hp
    rcases List.mem_append.mp hp with hp | hp
    · exact h.node_done p hp
    · obtain rfl := List.mem_singleton.mp hp
      exact h.tail_done
  · intro p hp
    cases hact : v.active with
    | nil => simp [VisibilityResolver.begin, hact] at hp
    | cons q rest =>
      simp only [VisibilityResolver.begin, hact, List.cons_append, List.tail_cons] at hp
      rcases List.mem_append.mp hp with hp | hp
      · exact h.node_kept p (by simpa [hact] using hp)
      · obtain rfl := List.mem_singleton.mp hp
        exact h.tail_kept (by simp [hact])
  · exact hpos
  · intro done hdone t ht
    cases hdone
    cases ht
  · simp [VisibilityResolver.begin]
  · exact .inr (.inl ⟨(id, v.tail), by simp [VisibilityResolver.begin], rfl⟩)
  · exact (lt_of_le_of_lt h.horizon_le hid).le
  · intro p hp
    rcases List.mem_append.mp hp with hp | hp
    · exact h.horizon_lt p hp
    · obtain rfl := List.mem_singleton.mp hp
      exact lt_of_le_of_lt h.horizon_le hid
  · simp [VisibilityResolver.begin]

theorem Listed.prepare (h : Listed v top) (hfind : v.find id = some tr)
    (htail : v.tail.addFinished id = some tail) (commitTs : Std.ExtTreeMap Tid Ts) :
    Listed { v with tail := tail, commitTs := commitTs } top ∧ id ≤ tail.horizon := by
  obtain ⟨done, hdone, hfb, hhor, -⟩ := TransactionImpact.addFinished_eq_some htail
  have hmem := mem_of_find hfind
  have hle : tail.horizon ≤ top := hhor ▸ max_le h.tail_le (h.node_le _ hmem)
  refine ⟨{ h with tail_le := hle, tail_done := ?_, tail_kept := ?_, top_ended := ?_,
                   horizon_idle := ?_ }, hhor ▸ le_max_right _ _⟩
  · intro done' hdone' t ht
    rw [hfb] at hdone'
    cases hdone'
    rw [hhor]
    rcases List.mem_insert_iff.mp ht with rfl | ht
    · exact le_max_right _ _
    · exact le_max_of_le_left (h.tail_done done hdone t ht)
  · simp [hfb]
  · refine h.top_ended.imp_right (Or.imp_right fun htop => ?_)
    exact le_antisymm hle (hhor ▸ htop ▸ le_max_left _ _)
  · intro hnil
    rw [hnil] at hmem
    cases hmem

theorem Listed.finish (h : Listed v top) (hle : id ≤ v.tail.horizon)
    (hf : v.finish id = some v') : Listed v' top := by
  rcases finish_cases hf with ⟨first, tr, rest, hact, hne, rfl⟩ | ⟨tr, done, hact, hdone, rfl⟩ |
    ⟨tr, n, next, others, done, hact, hdone, rfl⟩
  · have hsub : (v.active.eraseP (·.1 = id)).Sublist v.active := List.eraseP_sublist
    have htl : (v.active.eraseP (·.1 = id)) = (first, tr) :: rest.eraseP (·.1 = id) := by
      simp [hact, hne]
    refine { h with sorted := h.sorted.sublist (hsub.map _), node_le := ?_, node_horizon := ?_,
                    node_done := ?_, node_kept := ?_, tail_kept := ?_, top_ended := ?_,
                    horizon_lt := ?_, horizon_idle := ?_ }
    · exact fun p hp => h.node_le p (hsub.subset hp)
    · exact fun p hp => h.node_horizon p (hsub.subset hp)
    · exact fun p hp => h.node_done p (hsub.subset hp)
    · intro p hp
      rw [htl] at hp
      refine h.node_kept p ?_
      rw [hact]
      exact List.eraseP_sublist.subset hp
    · exact fun _ => h.tail_kept (by simp [hact])
    · rcases h.top_ended with htop | ⟨p, hp, htop⟩ | htop
      · exact .inl htop
      · by_cases hpid : p.1 = id
        · exact .inr (.inr (le_antisymm h.tail_le (htop ▸ hpid ▸ hle)))
        · exact .inr (.inl ⟨p, (List.mem_eraseP_of_neg (by simpa using hpid)).mpr hp, htop⟩)
      · exact .inr (.inr htop)
    · exact fun p hp => h.horizon_lt p (hsub.subset hp)
    · simp [htl]
  · refine { h with sorted := .nil, node_le := ?_, node_horizon := ?_, node_done := ?_,
                    node_kept := ?_, tail_done := ?_, tail_kept := ?_, top_ended := ?_,
                    horizon_le := h.tail_le, horizon_lt := ?_, horizon_idle := fun _ => rfl }
    any_goals simp [TransactionImpact.forgetFinishedBefore]
    rcases h.top_ended with htop | ⟨p, hp, htop⟩ | htop
    · exact .inl htop
    · rw [hact, List.mem_singleton] at hp
      subst hp
      exact .inr (le_antisymm h.tail_le (htop ▸ hle))
    · exact .inr htop
  · have hold (p) (hp : p ∈ (n, next.forgetFinishedBefore) :: others) :
        ∃ q ∈ v.active, id < q.1 ∧ p.1 = q.1 ∧ p.2.horizon = q.2.horizon ∧
          (p.2.finishedBefore = none ∨ p = q) := by
      have hlt := h.sorted
      rw [hact, List.map_cons, List.pairwise_cons] at hlt
      rcases List.mem_cons.mp hp with rfl | hp
      · exact ⟨(n, next), by simp [hact], hlt.1 n (by simp), rfl, rfl, .inl rfl⟩
      · exact ⟨p, by simp [hact, hp], hlt.1 p.1 (by simp [List.mem_map_of_mem hp]), rfl, rfl, .inr rfl⟩
    have hn : (n, next) ∈ v.active := by simp [hact]
    have hsorted := h.sorted
    rw [hact, List.map_cons, List.map_cons, List.pairwise_cons, List.pairwise_cons] at hsorted
    refine { h with sorted := ?_, node_le := ?_, node_horizon := ?_, node_done := ?_,
                    node_kept := ?_, tail_kept := ?_, top_ended := ?_, horizon_le := ?_,
                    horizon_lt := ?_, horizon_idle := ?_ }
    · exact List.pairwise_cons.mpr hsorted.2
    · intro p hp
      obtain ⟨q, hq, -, hid, -, -⟩ := hold p hp
      exact hid ▸ h.node_le q hq
    · intro p hp
      obtain ⟨q, hq, -, hid, hhor, -⟩ := hold p hp
      exact hid ▸ hhor ▸ h.node_horizon q hq
    · intro p hp
      obtain ⟨q, hq, -, -, -, hnone | rfl⟩ := hold p hp
      · simp [hnone]
      · exact h.node_done p hq
    · intro p hp
      exact h.node_kept p (by simp only [hact]; exact List.mem_cons_of_mem _ hp)
    · exact fun _ => h.tail_kept (by simp [hact])
    · rcases h.top_ended with htop | ⟨p, hp, htop⟩ | htop
      · exact .inl htop
      · rw [hact, List.mem_cons, List.mem_cons] at hp
        rcases hp with rfl | rfl | hp
        · exact .inr (.inr (le_antisymm h.tail_le (htop ▸ hle)))
        · exact .inr (.inl ⟨_, List.mem_cons_self, htop⟩)
        · exact .inr (.inl ⟨p, List.mem_cons_of_mem _ hp, htop⟩)
      · exact .inr (.inr htop)
    · exact (lt_of_lt_of_le (h.node_horizon _ hn) (h.node_le _ hn)).le
    · intro p hp
      rcases List.mem_cons.mp hp with rfl | hp
      · exact h.node_horizon (n, next) hn
      · exact lt_trans (h.node_horizon _ hn) (hsorted.2.1 p.1 (List.mem_map_of_mem hp))
    · simp

theorem Listed.ne_of_mem (h : Listed v top) (hact : v.active = (id, tr) :: rest)
    (hp : p ∈ rest) : p.1 ≠ id := by
  have hs := h.sorted
  rw [hact, List.map_cons, List.pairwise_cons] at hs
  exact ne_of_gt (hs.1 p.1 (List.mem_map_of_mem hp))

theorem mem_eraseP_ne {l : List (Tid × TransactionImpact)} (hs : (l.map Prod.fst).Pairwise (· < ·))
    (hp : p ∈ l.eraseP (·.1 = id)) : p.1 ≠ id := by
  induction l with
  | nil => simp at hp
  | cons q l ih =>
    rw [List.map_cons, List.pairwise_cons] at hs
    by_cases hq : q.1 = id
    · rw [List.eraseP_cons_of_pos (by simpa using hq)] at hp
      exact fun heq => absurd (hs.1 p.1 (List.mem_map_of_mem hp)) (by simp [heq, hq])
    · rw [List.eraseP_cons_of_neg (by simpa using hq)] at hp
      rcases List.mem_cons.mp hp with rfl | hp
      · exact hq
      · exact ih hs.2 hp

/-- The transactions left on the list keep their counters; at most the set of
the new oldest one is forgotten. -/
theorem Listed.finish_mem (h : Listed v top) (hf : v.finish id = some v')
    (hp : (t, tr) ∈ v'.active) : t ≠ id ∧ ∃ tr₀, (t, tr₀) ∈ v.active ∧
      tr.entryCounter = tr₀.entryCounter ∧
      ∀ done, tr.finishedBefore = some done → tr₀.finishedBefore = some done := by
  rcases finish_cases hf with ⟨first, tr₁, rest, hact, hne, rfl⟩ | ⟨tr₁, done, hact, hdone, rfl⟩ |
    ⟨tr₁, n, next, others, done, hact, hdone, rfl⟩
  · exact ⟨mem_eraseP_ne h.sorted hp, tr, List.eraseP_sublist.subset hp, rfl, fun _ hd => hd⟩
  · cases hp
  · rcases List.mem_cons.mp hp with heq | hp
    · cases heq
      exact ⟨h.ne_of_mem (p := (t, next)) hact (by simp), next, by simp [hact], rfl, nofun⟩
    · exact ⟨h.ne_of_mem hact (List.mem_cons_of_mem _ hp), tr, by simp [hact, hp], rfl, fun _ hd => hd⟩

theorem mem_finish (hf : v.finish id = some v') (hp : (t, tr) ∈ v.active) (hne : t ≠ id) :
    ∃ tr', (t, tr') ∈ v'.active := by
  rcases finish_cases hf with ⟨first, tr₁, rest, hact, hne₁, rfl⟩ | ⟨tr₁, done, hact, hdone, rfl⟩ |
    ⟨tr₁, n, next, others, done, hact, hdone, rfl⟩
  · exact ⟨tr, (List.mem_eraseP_of_neg (by simpa using hne)).mpr hp⟩
  · rw [hact, List.mem_singleton] at hp
    exact absurd (Prod.mk.inj hp).1 hne
  · rw [hact, List.mem_cons, List.mem_cons] at hp
    rcases hp with heq | heq | hp
    · exact absurd (Prod.mk.inj heq).1 hne
    · cases heq
      exact ⟨_, List.mem_cons_self⟩
    · exact ⟨tr, List.mem_cons_of_mem _ hp⟩

/-- A commit time is forgotten only when its transaction ended before the new
oldest active transaction began, and then the horizon covers it. -/
theorem Listed.finish_commitTs (h : Listed v top) (hf : v.finish id = some v') (t : Tid) :
    v'.commitTs[t]? = v.commitTs[t]? ∨
    (v'.commitTs[t]? = none ∧ t ≤ v'.horizon ∧ ∀ T tr, (T, tr) ∈ v'.active →
      ∃ n next done, (n, next) ∈ v.active ∧ next.finishedBefore = some done ∧ t ∈ done ∧ n ≤ T) := by
  rcases finish_cases hf with ⟨first, tr₁, rest, hact, hne, rfl⟩ | ⟨tr₁, done, hact, hdone, rfl⟩ |
    ⟨tr₁, n, next, others, done, hact, hdone, rfl⟩
  · exact .inl rfl
  · dsimp only
    rw [getElem?_forgetCommitTs]
    split
    · rename_i ht
      exact .inr ⟨rfl, h.tail_done done hdone t ht, nofun⟩
    · exact .inl rfl
  · dsimp only
    rw [getElem?_forgetCommitTs]
    split
    · rename_i ht
      have hn : (n, next) ∈ v.active := by simp [hact]
      refine .inr ⟨rfl, h.node_done _ hn done hdone t ht, fun T tr hT => ?_⟩
      refine ⟨n, next, done, hn, hdone, ht, ?_⟩
      have hs := h.sorted
      rw [hact, List.map_cons, List.map_cons, List.pairwise_cons, List.pairwise_cons] at hs
      rcases List.mem_cons.mp hT with heq | hT
      · exact (Prod.mk.inj heq).1 ▸ le_rfl
      · exact (hs.2.1 T (List.mem_map_of_mem hT)).le
    · exact .inl rfl

theorem finish_rest (hf : v.finish id = some v') :
    v'.rolledBack = v.rolledBack ∧ v'.tail.entryCounter = v.tail.entryCounter ∧
      ∀ done, v'.tail.finishedBefore = some done → v.tail.finishedBefore = some done := by
  rcases finish_cases hf with ⟨first, tr₁, rest, hact, hne, rfl⟩ | ⟨tr₁, done, hact, hdone, rfl⟩ |
    ⟨tr₁, n, next, others, done, hact, hdone, rfl⟩
  · exact ⟨rfl, rfl, fun _ hd => hd⟩
  · exact ⟨rfl, rfl, nofun⟩
  · exact ⟨rfl, rfl, fun _ hd => hd⟩

theorem Listed.commit (h : Listed v top) (hc : v.commit id c = some v') : Listed v' top := by
  obtain ⟨tr, tail, hfind, htail, hf⟩ := commit_eq_some hc
  obtain ⟨hp, hle⟩ := h.prepare hfind htail (v.stampedBy tr id c)
  exact hp.finish hle hf

theorem Listed.abort (h : Listed v top) (ha : v.abort id = some v') : Listed v' top := by
  obtain ⟨tr, tail, w, hfind, htail, hf, rfl⟩ := abort_eq_some ha
  obtain ⟨hp, hle⟩ := h.prepare hfind htail v.commitTs
  exact { hp.finish hle hf with }

/-- No active transaction's end meets a forgotten set. -/
theorem Listed.finish_isSome (h : Listed v top) (id : Tid) (hact : v.active ≠ []) :
    (v.finish id).isSome := by
  unfold VisibilityResolver.finish
  split
  · rename_i hnil
    exact absurd hnil hact
  · rename_i first tr rest hcons
    split
    · rfl
    · split
      · obtain ⟨done, hdone⟩ := Option.ne_none_iff_exists'.mp (h.tail_kept hact)
        simp [moveHorizon, hdone]
      · rename_i n next others
        have hkept : next.finishedBefore ≠ none := h.node_kept (n, next) (by simp [hcons])
        obtain ⟨done, hdone⟩ := Option.ne_none_iff_exists'.mp hkept
        simp [moveHorizon, hdone]

theorem Listed.prepare2finish_isSome (h : Listed v top) (hp : (id, tr) ∈ v.active) :
    ∃ tr tail, v.find id = some tr ∧ v.tail.addFinished id = some tail ∧
      v.prepare2finish id = some (tr, { v with tail := tail }) := by
  have hne : v.active ≠ [] := List.ne_nil_of_mem hp
  obtain ⟨tr', hfind⟩ := Option.isSome_iff_exists.mp (find_isSome hp)
  obtain ⟨done, hdone⟩ := Option.ne_none_iff_exists'.mp (h.tail_kept hne)
  refine ⟨tr', _, hfind, by simp only [TransactionImpact.addFinished, hdone]; rfl, ?_⟩
  simp only [VisibilityResolver.prepare2finish, hfind, TransactionImpact.addFinished, hdone]
  rfl

theorem Listed.commit_isSome (h : Listed v top) (hp : (id, tr) ∈ v.active) (c : Ts) :
    (v.commit id c).isSome := by
  obtain ⟨tr, tail, hfind, htail, hprep⟩ := h.prepare2finish_isSome hp
  have hl := (h.prepare hfind htail (v.stampedBy tr id c)).1
  have hf := hl.finish_isSome id (List.ne_nil_of_mem hp)
  simp only [VisibilityResolver.commit, hprep, Option.bind_eq_bind, Option.bind_some]
  rw [stampedBy] at hf
  split at hf <;> rename_i he
  · rwa [if_pos he]
  · rwa [if_neg he]

theorem Listed.abort_isSome (h : Listed v top) (hp : (id, tr) ∈ v.active) :
    (v.abort id).isSome := by
  obtain ⟨tr, tail, hfind, htail, hprep⟩ := h.prepare2finish_isSome hp
  have hl := (h.prepare hfind htail v.commitTs).1
  obtain ⟨w, hw⟩ := Option.isSome_iff_exists.mp (hl.finish_isSome id (List.ne_nil_of_mem hp))
  simp [VisibilityResolver.abort, hprep, hw]

theorem modify_ids (v : VisibilityResolver) (id : Tid) (f : TransactionImpact → TransactionImpact) :
    (v.modify id f).active.map Prod.fst = v.active.map Prod.fst := by
  simp only [VisibilityResolver.modify, List.map_map]
  refine List.map_congr_left fun p _ => ?_
  simp only [Function.comp_apply]
  split <;> rfl

/-- A change of the entry counters only. -/
theorem Listed.modify (h : Listed v top) {f : TransactionImpact → TransactionImpact}
    (hhor : ∀ tr, (f tr).horizon = tr.horizon)
    (hdone : ∀ tr, (f tr).finishedBefore = tr.finishedBefore) : Listed (v.modify id f) top := by
  have hmem (l : List (Tid × TransactionImpact)) (p)
      (hp : p ∈ l.map fun p => if p.1 = id then (p.1, f p.2) else p) :
      ∃ q ∈ l, p.1 = q.1 ∧ p.2.horizon = q.2.horizon ∧ p.2.finishedBefore = q.2.finishedBefore := by
    obtain ⟨q, hq, rfl⟩ := List.mem_map.mp hp
    refine ⟨q, hq, ?_⟩
    split
    · exact ⟨rfl, hhor _, hdone _⟩
    · exact ⟨rfl, rfl, rfl⟩
  have hfst := modify_ids v id f
  refine { h with sorted := hfst ▸ h.sorted, node_le := ?_, node_horizon := ?_, node_done := ?_,
                  node_kept := ?_, tail_kept := ?_, top_ended := ?_, horizon_lt := ?_,
                  horizon_idle := ?_ }
  · intro p hp
    obtain ⟨q, hq, hid, -⟩ := hmem _ p hp
    exact hid ▸ h.node_le q hq
  · intro p hp
    obtain ⟨q, hq, hid, hh, -⟩ := hmem _ p hp
    exact hid ▸ hh ▸ h.node_horizon q hq
  · intro p hp
    obtain ⟨q, hq, -, hh, hd⟩ := hmem _ p hp
    exact hd ▸ hh ▸ h.node_done q hq
  · intro p hp
    rw [VisibilityResolver.modify, ← List.map_tail] at hp
    obtain ⟨q, hq, -, -, hd⟩ := hmem _ p hp
    exact hd ▸ h.node_kept q hq
  · exact fun hne => h.tail_kept (by simpa [VisibilityResolver.modify] using hne)
  · refine h.top_ended.imp_right (Or.imp_left fun ⟨p, hp, htop⟩ => ?_)
    have hin : p.1 ∈ (v.modify id f).active.map Prod.fst := hfst ▸ List.mem_map_of_mem hp
    obtain ⟨q, hq, hqp⟩ := List.mem_map.mp hin
    exact ⟨q, hq, hqp.trans htop⟩
  · intro p hp
    obtain ⟨q, hq, hid, -⟩ := hmem _ p hp
    exact hid ▸ h.horizon_lt q hq
  · exact fun hnil => h.horizon_idle (by simpa [VisibilityResolver.modify] using hnil)

theorem Listed.entryAdded (h : Listed v top) (ha : v.entryAdded t i = some v') : Listed v' top := by
  obtain ⟨tr, -, rfl⟩ := entryAdded_eq_some ha
  exact h.modify (fun _ => rfl) fun _ => rfl

end VisibilityResolver

end Loxim.Indexes
