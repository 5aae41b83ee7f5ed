import Loxim.Indexes.CleanerMoves
import Loxim.Indexes.EntrySieve
import Loxim.Indexes.Snapshot

/-!
# What a query sees of a cleaning

The moves of a cleaning are followed in the eyes of one transaction: an entry
that was rolled back was not there, a mark changes nothing, and a pair thins out
the history of an object.
-/

namespace Loxim.Indexes.Cleaner

variable {K : Type}

-- ---------------------------------------------------------------------------
-- The eyes of a transaction
-- ---------------------------------------------------------------------------

def sees (v : VisibilityResolver) (index : Lid) (tid : TransactionID) (e : Item K) : Bool :=
  EntrySieve.isEntryVisible v index tid e.entry

def sightings (v : VisibilityResolver) (index : Lid) (tid : TransactionID) (l : List (Item K)) :
    List (Sighting K) :=
  (l.filter (sees v index tid)).map Item.sighting

section

variable {v w : VisibilityResolver} {index : Lid} {tid : TransactionID} {l p q : List (Item K)}
  {e : Item K}

theorem sieve_eq_answer (s : EntrySieve) :
    EntrySieve.sieve v index tid s l = s.answer (sightings v index tid l) := by
  have hfold (s : EntrySieve) : (l.map Item.entry).foldl (EntrySieve.add v index tid) s =
      (sightings v index tid l).foldl EntrySieve.putSighting s := by
    induction l generalizing s with
    | nil => rfl
    | cons e l ih =>
      rw [List.map_cons, List.foldl_cons, ih]
      unfold EntrySieve.add sightings
      split
      · rename_i he
        rw [List.filter_cons_of_pos (show sees v index tid e = true from he)]
        rfl
      · rename_i he
        rw [List.filter_cons_of_neg (show ¬ sees v index tid e = true from he)]
  rw [EntrySieve.sieve, hfold, EntrySieve.answer]

theorem sightings_filter (P : K → Bool) :
    sightings v index tid (l.filter fun e => P e.key) =
      (sightings v index tid l).filter fun r => P r.key := by
  simp only [sightings, List.filter_filter, List.filter_map, Function.comp_def, Item.sighting]
  congr 1
  exact List.filter_congr fun e _ => Bool.and_comm _ _

theorem sightings_append :
    sightings v index tid (p ++ q) = sightings v index tid p ++ sightings v index tid q := by
  simp [sightings]

theorem sightings_cons_of_sees (h : sees v index tid e = true) :
    sightings v index tid (e :: q) = e.sighting :: sightings v index tid q := by
  simp [sightings, h]

theorem sightings_cons_of_not (h : sees v index tid e = false) :
    sightings v index tid (e :: q) = sightings v index tid q := by
  simp [sightings, h]

theorem mem_sightings {r : Sighting K} :
    r ∈ sightings v index tid l ↔ ∃ e ∈ l, sees v index tid e = true ∧ e.sighting = r := by
  simp [sightings, and_assoc]

theorem Agrees.sees (h : Agrees v index w l) (he : e ∈ l) :
    sees w index tid e = sees v index tid e := by
  unfold Cleaner.sees EntrySieve.isEntryVisible VisibilityResolver.isVisible
  rw [h.isRolledBack he, h.commitTs, VisibilityResolver.isBeyondHorizon,
    VisibilityResolver.isBeyondHorizon, h.horizon]

theorem Agrees.sightings (h : Agrees v index w l) (hp : p.Sublist l) :
    sightings w index tid p = sightings v index tid p := by
  unfold Cleaner.sightings
  rw [List.filter_congr fun e he => h.sees (hp.subset he)]

/-- Nobody but the transaction itself sees what was rolled back. -/
theorem sees_of_remove (hv : Sane v) (hT : v.isRolledBack tid.id index = false)
    (he : fate v index e.entry.modyfierTransactionId = .remove) : sees v index tid e = false := by
  have hrolled : v.isRolledBack e.entry.modyfierTransactionId index = true := by
    unfold fate at he
    split at he
    · assumption
    · split at he <;> cases he
  have hown : e.entry.modyfierTransactionId ≠ tid.id := by
    intro h
    rw [h, hT] at hrolled
    cases hrolled
  unfold sees EntrySieve.isEntryVisible VisibilityResolver.isVisible
  by_cases hr : e.entry.modyfierTransactionId = Tid.rolledBack
  · rw [if_pos hr]
  · rw [VisibilityResolver.isRolledBack_iff hr, Option.isSome_iff_exists] at hrolled
    obtain ⟨n, hn⟩ := hrolled
    have hpos := (hv.rolled index _ n hn).1
    have hnull : e.entry.modyfierTransactionId ≠ nullValue := by
      intro h
      rw [h] at hpos
      exact absurd hpos (by decide)
    have hbeyond : e.entry.modyfierTransactionId ≠ Tid.beyondHorizon := by
      intro h
      rw [h] at hpos
      exact absurd hpos (by decide)
    have hroll : v.isRolledBack e.entry.modyfierTransactionId index = true := by
      rw [VisibilityResolver.isRolledBack_iff hr, hn]
      rfl
    simp [hr, hown, hnull, hbeyond, hroll]

theorem sees_stamp (h : e.entry.addTime ≤ tid.timeStamp) : sees v index tid (stamp e) = true := by
  unfold sees EntrySieve.isEntryVisible VisibilityResolver.isVisible stamp
  have hroll : Tid.beyondHorizon ≠ Tid.rolledBack := by decide
  have hdel : ¬ ((if e.entry.delTime = 0 then 1 else 0 : Int) = nullValue) := by
    split <;> decide
  simp [hroll, h, hdel]

end

-- ---------------------------------------------------------------------------
-- The moves in its eyes
-- ---------------------------------------------------------------------------

/-- The transaction may see everything beyond the horizon. -/
def Entitled (v : VisibilityResolver) (index : Lid) (tid : TransactionID) (l : List (Item K)) :
    Prop :=
  ∀ e ∈ l, fate v index e.entry.modyfierTransactionId = .beyond →
    sees v index tid e = true ∧ e.entry.addTime ≤ tid.timeStamp

/-- Beyond the horizon, an addition is not the newest entry of `x` under `k`. -/
def Topped (v : VisibilityResolver) (index : Lid) (l : List (Item K)) (x : Lid) (k : K) : Prop :=
  ∀ p e q, l = p ++ e :: q → mine v index x e = true → e.key = k → 0 < e.entry.addTime →
    ∃ c ∈ p, mine v index x c = true ∧ c.key = k

/-- Object `x` has no other key than `k`. -/
def Sole (v : VisibilityResolver) (index : Lid) (l : List (Item K)) (x : Lid) (k : K) : Prop :=
  ∀ e ∈ l, e.entry.logicalID = x → fate v index e.entry.modyfierTransactionId ≠ .remove → e.key = k

/-- The two entries belong to one key. What is taken out leaves no older addition
under it to compete with the other keys of the object. -/
def Paired (v : VisibilityResolver) (index : Lid) (l : List (Item K)) (x : Lid) (k k' : K) : Prop :=
  k = k' ∧ (Topped v index l x k ∨ Sole v index l x k)

/-- The cleaning of `L`, as the transaction sees it. -/
structure Watched (v : VisibilityResolver) (index : Lid) (tid : TransactionID) (L : List (Item K))
    (w : VisibilityResolver) (l : List (Item K)) : Prop where
  agrees : Agrees v index w l
  entitled : Entitled v index tid l
  thins : Relation.ReflTransGen Sighting.Thins (sightings v index tid L) (sightings v index tid l)
  topped : ∀ x k, Topped v index L x k → ∀ p e q, l = p ++ e :: q → mine v index x e = true →
    e.key = k → 0 < e.entry.addTime → ∃ c ∈ p, sees v index tid c = true ∧ c.key = k ∧
      c.entry.logicalID = x
  sole : ∀ x k, Sole v index L x k → Sole v index l x k
  kept : l.filter (fun e => fate v index e.entry.modyfierTransactionId = .keep) =
    L.filter fun e => fate v index e.entry.modyfierTransactionId = .keep

section

variable {v w w' : VisibilityResolver} {index x : Lid} {tid : TransactionID}
  {L l l' p q : List (Item K)} {e a b : Item K}

theorem Watched.init (ha : Agrees v index v L) (hent : Entitled v index tid L) :
    Watched v index tid L v L := by
  refine ⟨ha, hent, .refl, fun x k htop p e q hL hm hk hadd => ?_, fun _ _ h => h, rfl⟩
  obtain ⟨c, hc, hmc, hkc⟩ := htop p e q hL hm hk hadd
  obtain ⟨hlid, hfate⟩ := mine_iff.mp hmc
  refine ⟨c, hc, (hent c ?_ hfate).1, hkc, hlid⟩
  rw [hL]
  exact List.mem_append_left _ hc

theorem filter_middle {α : Type} {P : α → Bool} {a : α} {p q : List α} (h : P a = false) :
    (p ++ a :: q).filter P = (p ++ q).filter P := by
  simp [h]

/-- Where an entry stands once another one before or behind it is gone. -/
theorem split_without {α : Type} {p q p₁ q₁ : List α} {e : α} (h : p ++ q = p₁ ++ e :: q₁) :
    (∃ r, p₁ = p ++ r ∧ q = r ++ e :: q₁) ∨ ∃ r, p = p₁ ++ e :: r ∧ q₁ = r ++ q := by
  rcases List.append_eq_append_iff.mp h with ⟨r, hr, hq⟩ | ⟨r, hr, hq⟩
  · exact .inl ⟨r, hr, hq⟩
  · cases r with
    | nil =>
      rw [List.append_nil] at hr
      exact .inl ⟨[], by simp [hr], by simpa using hq.symm⟩
    | cons d r =>
      rw [List.cons_append, List.cons.injEq] at hq
      obtain ⟨rfl, hq⟩ := hq
      exact .inr ⟨r, hr, hq⟩

theorem Watched.remove (hT : v.isRolledBack tid.id index = false) (hv : Sane v)
    (h : Watched v index tid L w (p ++ e :: q))
    (hfate : fate v index e.entry.modyfierTransactionId = .remove)
    (hdrop : w.entryDropped e.entry.modyfierTransactionId index .rolledBack = some w') :
    Watched v index tid L w' (p ++ q) := by
  have hnot := sees_of_remove hv hT hfate
  have hsub : (p ++ q).Sublist (p ++ e :: q) :=
    List.Sublist.append (.refl p) (List.sublist_cons_self e q)
  refine ⟨?_, fun d hd => h.entitled d (hsub.subset hd), ?_, ?_,
    fun x k hsole d hd => h.sole x k hsole d (hsub.subset hd), ?_⟩
  · obtain ⟨w'', hdrop', hag⟩ := h.agrees.entryDropped hfate
    rw [hdrop] at hdrop'
    cases hdrop'
    exact hag
  · have hthins := h.thins
    rwa [sightings_append, sightings_cons_of_not hnot, ← sightings_append] at hthins
  · intro x k htop p₁ d q₁ hpq hm hk hadd
    rcases split_without hpq with ⟨r, rfl, rfl⟩ | ⟨r, rfl, rfl⟩
    · obtain ⟨c, hc, hcs, hck⟩ := h.topped x k htop (p ++ e :: r) d q₁ (by simp) hm hk hadd
      refine ⟨c, ?_, hcs, hck⟩
      rcases List.mem_append.mp hc with hc | hc
      · exact List.mem_append_left r hc
      · rcases List.mem_cons.mp hc with rfl | hc
        · rw [hnot] at hcs
          cases hcs
        · exact List.mem_append_right p hc
    · exact h.topped x k htop p₁ d (r ++ e :: q) (by simp) hm hk hadd
  · have hkept := h.kept
    rwa [filter_middle (by simp [hfate])] at hkept

theorem Watched.stamp (hv : Sane v) (h : Watched v index tid L w (p ++ e :: q))
    (hfate : fate v index e.entry.modyfierTransactionId = .beyond) :
    Watched v index tid L w (p ++ Cleaner.stamp e :: q) := by
  obtain ⟨hsees, htime⟩ := h.entitled e (by simp) hfate
  have hstamp : sees v index tid (Cleaner.stamp e) = true := sees_stamp htime
  have hfate' : fate v index (Cleaner.stamp e).entry.modyfierTransactionId = .beyond :=
    fate_beyondHorizon hv
  have hmem (d : Item K) (hd : d ∈ p ++ Cleaner.stamp e :: q) :
      d = Cleaner.stamp e ∨ d ∈ p ++ e :: q := by
    simp only [List.mem_append, List.mem_cons] at hd ⊢
    tauto
  refine ⟨h.agrees.stamp hv, fun d hd hf => ?_, ?_, ?_, fun x k hsole d hd hx hf => ?_, ?_⟩
  · rcases hmem d hd with rfl | hd
    · exact ⟨hstamp, htime⟩
    · exact h.entitled d hd hf
  · have hthins := h.thins
    rw [sightings_append, sightings_cons_of_sees hsees] at hthins
    rwa [sightings_append, sightings_cons_of_sees hstamp]
  · intro x k htop p₁ d q₁ hpq hm hk hadd
    rcases split_without hpq with ⟨r, rfl, hr⟩ | ⟨r, rfl, rfl⟩
    · cases r with
      | nil =>
        simp only [List.nil_append, List.cons.injEq] at hr
        obtain ⟨rfl, rfl⟩ := hr
        rw [mine_stamp hv hfate] at hm
        simpa using h.topped x k htop p e q rfl hm hk hadd
      | cons s r =>
        simp only [List.cons_append, List.cons.injEq] at hr
        obtain ⟨rfl, rfl⟩ := hr
        obtain ⟨c, hc, hcs, hck⟩ := h.topped x k htop (p ++ e :: r) d q₁ (by simp) hm hk hadd
        rcases List.mem_append.mp hc with hc | hc
        · exact ⟨c, List.mem_append_left _ hc, hcs, hck⟩
        · rcases List.mem_cons.mp hc with rfl | hc
          · exact ⟨Cleaner.stamp c, by simp, hstamp, hck⟩
          · exact ⟨c, by simp [hc], hcs, hck⟩
    · exact h.topped x k htop p₁ d (r ++ e :: q) (by simp) hm hk hadd
  · rcases hmem d hd with rfl | hd
    · exact h.sole x k hsole e (by simp) hx (by simp [hfate])
    · exact h.sole x k hsole d hd hx hf
  · have hkept := h.kept
    rw [filter_middle (by simp [hfate])] at hkept
    rwa [filter_middle (by simp [hfate'])]

theorem isAdd_sighting : e.sighting.isAdd = true ↔ 0 < e.entry.addTime := decide_eq_true_iff

variable [DecidableEq K]

theorem group_sightings_eq_nil {k : K}
    (h : ¬ ∃ c ∈ l, sees v index tid c = true ∧ c.key = k ∧ c.entry.logicalID = x) :
    Sighting.group k x (sightings v index tid l) = [] := by
  rw [List.eq_nil_iff_forall_not_mem]
  intro r hr
  obtain ⟨hmem, hkey, hlid⟩ := Sighting.mem_group.mp hr
  obtain ⟨c, hc, hsees, rfl⟩ := mem_sightings.mp hmem
  exact h ⟨c, hc, hsees, hkey, hlid⟩

theorem Watched.pair (hT : v.isRolledBack tid.id index = false) (hv : Sane v)
    (hc : Sighting.Coherent (sightings v index tid L))
    (h : Watched v index tid L w (p ++ a :: b :: q)) (ha : mine v index x a = true)
    (hb : mine v index x b = true) (hkeys : Paired v index L x a.key b.key) :
    Watched v index tid L w (p ++ q) := by
  obtain ⟨hkey, hside⟩ := hkeys
  obtain ⟨halid, hafate⟩ := mine_iff.mp ha
  obtain ⟨hblid, hbfate⟩ := mine_iff.mp hb
  have hsa := (h.entitled a (by simp) hafate).1
  have hsb := (h.entitled b (by simp) hbfate).1
  have hrows : sightings v index tid (p ++ a :: b :: q) =
      sightings v index tid p ++ a.sighting :: b.sighting :: sightings v index tid q := by
    rw [sightings_append, sightings_cons_of_sees hsa, sightings_cons_of_sees hsb]
  have hsub : (p ++ q).Sublist (p ++ a :: b :: q) :=
    List.Sublist.append (.refl p) ((List.sublist_cons_self b q).trans (List.sublist_cons_self a _))
  refine ⟨h.agrees.mono fun t _ => hsub.countP_le, fun d hd => h.entitled d (hsub.subset hd), ?_, ?_,
    fun x k hsole d hd => h.sole x k hsole d (hsub.subset hd), ?_⟩
  · refine h.thins.tail ?_
    rw [hrows, sightings_append]
    refine .pair hkey (halid.trans hblid.symm) ?_
    by_cases hadd : a.sighting.isAdd = true
    · right
      rcases hside with htop | hsole
      · obtain ⟨c, hcp, hcs, hck, hcx⟩ := h.topped x a.key htop p a (b :: q) rfl ha rfl
          (isAdd_sighting.mp hadd)
        exact .inl ⟨c.sighting, mem_sightings.mpr ⟨c, hcp, hcs, rfl⟩, hck, hcx.trans halid.symm⟩
      · right
        intro r hr hrx
        rw [← hrows] at hr
        obtain ⟨c, hc, hcs, rfl⟩ := mem_sightings.mp hr
        refine h.sole x a.key hsole c hc (hrx.trans halid) fun hf => ?_
        rw [sees_of_remove hv hT hf] at hcs
        cases hcs
    · exact .inl (by simpa using hadd)
  · intro y k htop p₁ d q₁ hpq hm hk hadd
    rcases split_without hpq with ⟨r, rfl, rfl⟩ | ⟨r, rfl, rfl⟩
    · by_contra hnone
      obtain ⟨c, hcp, hcs, hck, hcx⟩ := h.topped y k htop (p ++ a :: b :: r) d q₁ (by simp) hm hk hadd
      -- only the two that went, so they alternate with `d`, and `a` has a newer one too
      have hab : a.key = k ∧ a.entry.logicalID = y := by
        simp only [List.mem_append, List.mem_cons] at hcp
        rcases hcp with hcp | rfl | rfl | hcp
        · exact absurd ⟨c, List.mem_append_left r hcp, hcs, hck, hcx⟩ hnone
        · exact ⟨hck, hcx⟩
        · exact ⟨hkey.trans hck, halid.trans (hblid.symm.trans hcx)⟩
        · exact absurd ⟨c, List.mem_append_right p hcp, hcs, hck, hcx⟩ hnone
      obtain ⟨rfl, rfl⟩ := hab
      have hp : Sighting.group a.key a.entry.logicalID (sightings v index tid p) = [] :=
        group_sightings_eq_nil fun ⟨c, hc, hrest⟩ => hnone ⟨c, List.mem_append_left r hc, hrest⟩
      have hr : Sighting.group a.key a.entry.logicalID (sightings v index tid r) = [] :=
        group_sightings_eq_nil fun ⟨c, hc, hrest⟩ => hnone ⟨c, List.mem_append_right p hc, hrest⟩
      obtain ⟨hdlid, hdfate⟩ := mine_iff.mp hm
      have hsd := (h.entitled d (by simp) hdfate).1
      have halt := (hc.thins h.thins).1.alternates a.key a.entry.logicalID
      rw [hrows, sightings_append, sightings_cons_of_sees hsd, Sighting.group_append, hp,
        Sighting.group_cons (show a.sighting.key = a.key from rfl)
          (show a.sighting.lid = a.entry.logicalID from rfl),
        Sighting.group_cons (show b.sighting.key = a.key from hkey.symm)
          (show b.sighting.lid = a.entry.logicalID from hblid.trans halid.symm),
        Sighting.group_append, hr, Sighting.group_cons (show d.sighting.key = a.key from hk)
          (show d.sighting.lid = a.entry.logicalID from hdlid)] at halt
      obtain ⟨hab, hbd, -⟩ := halt
      rw [isAdd_sighting.mpr hadd] at hbd
      rw [hbd] at hab
      obtain ⟨c, hc, hrest⟩ := h.topped _ _ htop p a _ rfl (halid ▸ ha) rfl (isAdd_sighting.mp hab)
      exact hnone ⟨c, List.mem_append_left r hc, hrest⟩
    · exact h.topped y k htop p₁ d (r ++ a :: b :: q) (by simp) hm hk hadd
  · have hkept := h.kept
    rwa [filter_middle (by simp [hafate]), filter_middle (by simp [hbfate])] at hkept

theorem Watched.moves (hT : v.isRolledBack tid.id index = false) (hv : Sane v)
    (hc : Sighting.Coherent (sightings v index tid L)) (h : Watched v index tid L w l)
    (hm : Moves (Paired v index L) v index (w, l) (w', l')) : Watched v index tid L w' l' := by
  generalize hst : (w', l') = st at hm
  induction hm generalizing w' l' with
  | refl =>
    cases hst
    exact h
  | tail _ hmove ih =>
    subst hst
    cases hmove with
    | remove hfate hdrop => exact (ih rfl).remove hT hv hfate hdrop
    | stamp hfate => exact (ih rfl).stamp hv hfate
    | pair ha hb hkeys => exact (ih rfl).pair hT hv hc ha hb hkeys

-- ---------------------------------------------------------------------------
-- Queries before and after
-- ---------------------------------------------------------------------------

/-- A safe leaf answers every query of an entitled transaction as before. -/
theorem clean_answers {cmp : Comparator K} (hsafe : Safe (Paired v index L) cmp v index L)
    (hT : v.isRolledBack tid.id index = false) (hent : Entitled v index tid L)
    (hc : Sighting.Coherent (sightings v index tid L)) :
    ∃ w l, clean cmp index v L = some (w, l) ∧
      (∀ (P : K → Bool) (s : EntrySieve), s.Fresh → ∀ x,
        x ∈ EntrySieve.sieve w index tid s (l.filter fun e => P e.key) ↔
          x ∈ EntrySieve.sieve v index tid s (L.filter fun e => P e.key)) ∧
      (l.filter fun e => fate v index e.entry.modyfierTransactionId = .keep) =
        (L.filter fun e => fate v index e.entry.modyfierTransactionId = .keep) ∧
      Moves (Paired v index L) v index (v, L) (w, l) := by
  obtain ⟨w, l, hclean, hag, hmoves⟩ := hsafe.clean
  have hwatched := (Watched.init hsafe.agrees hent).moves hT hsafe.sane hc hmoves
  refine ⟨w, l, hclean, fun P s hs x => ?_, hwatched.kept, hmoves⟩
  rw [sieve_eq_answer, sieve_eq_answer, hag.sightings List.filter_sublist, sightings_filter,
    sightings_filter]
  exact hc.answer_thins hs hwatched.thins P x

end

-- Transaction 2 deletes object 5, which 1 added under key 1; object 6 stays.
def deletion : Item Int := ⟨1, ⟨2, nullValue, 20, 5⟩⟩
def addition : Item Int := ⟨1, ⟨1, 10, nullValue, 5⟩⟩
def bystander : Item Int := ⟨2, ⟨1, 11, nullValue, 6⟩⟩

def deletedLeaf : List (Item Int) := [deletion, addition, bystander]

def deletedResolver : VisibilityResolver := { active := [(4, {})], horizon := 2 }

/-- Only where both entries of object 5 have been met. -/
theorem closed_deletedLeaf {front stretch behind : List (Item Int)} {m : Item Int}
    (hL : deletedLeaf = front ++ stretch ++ m :: behind)
    (hm : mine deletedResolver 7 x m = true) (hc : Closed deletedResolver 7 x (stretch ++ [m])) :
    x = 5 ∧ front = [] ∧ stretch = [deletion] ∧ m = addition ∧ behind = [bystander] := by
  obtain ⟨⟨e, he, -, hadd⟩, d, hd, hdm, hdadd, -⟩ := hc
  have hx : x = 5 := by
    have hdel : ∀ c ∈ deletedLeaf, c.entry.addTime = nullValue → c.entry.logicalID = 5 := by decide
    have hmem : d ∈ deletedLeaf := by
      rw [hL]
      simp only [List.mem_append, List.mem_cons, List.not_mem_nil, or_false] at hd ⊢
      tauto
    exact (mine_iff.mp hdm).1.symm.trans (hdel d hmem hdadd)
  subst hx
  rcases front with _ | ⟨f, front⟩
  · rcases stretch with _ | ⟨s₁, stretch⟩
    · simp only [deletedLeaf, List.nil_append, List.cons.injEq] at hL
      obtain ⟨rfl, rfl⟩ := hL
      obtain rfl := List.mem_singleton.mp he
      exact absurd rfl hadd
    · rcases stretch with _ | ⟨s₂, stretch⟩
      · simp only [deletedLeaf, List.nil_append, List.cons_append, List.cons.injEq] at hL
        obtain ⟨rfl, rfl, rfl⟩ := hL
        exact ⟨rfl, rfl, rfl, rfl, rfl⟩
      · simp only [deletedLeaf, List.nil_append, List.cons_append, List.cons.injEq] at hL
        obtain ⟨rfl, rfl, hL⟩ := hL
        obtain ⟨hnil, rfl, rfl⟩ : stretch = [] ∧ bystander = m ∧ behind = [] := by
          cases stretch with
          | nil => simpa using hL
          | cons s stretch => simp at hL
        exact absurd (mine_iff.mp hm).1 (by decide)
  · have hmem : d ∈ [addition, bystander] := by
      simp only [deletedLeaf, List.cons_append, List.cons.injEq] at hL
      rw [hL.2]
      simp only [List.mem_append, List.mem_cons, List.not_mem_nil, or_false] at hd ⊢
      tauto
    have hno : ∀ c ∈ [addition, bystander], c.entry.addTime ≠ nullValue := by decide
    exact absurd hdadd (hno d hmem)

theorem safe_deletedLeaf :
    Safe (Paired deletedResolver 7 deletedLeaf) IntComparator deletedResolver 7 deletedLeaf := by
  refine ⟨⟨by decide, fun i t n hn => ?_⟩, fun t n hn => ?_, by decide, ?_, ?_⟩
  · simp [deletedResolver, VisibilityResolver.rolledCount] at hn
  · simp [deletedResolver, VisibilityResolver.rolledCount] at hn
  · intro x front stretch m behind hL _ hm hc
    obtain ⟨rfl, rfl, rfl, rfl, rfl⟩ := closed_deletedLeaf hL hm hc
    have htop : Topped deletedResolver 7 deletedLeaf 5 1 := by
      intro p e q hL _ _ hadd
      rcases p with _ | ⟨d, p⟩
      · simp only [deletedLeaf, List.nil_append, List.cons.injEq] at hL
        obtain ⟨rfl, rfl⟩ := hL
        exact absurd hadd (by decide)
      · simp only [deletedLeaf, List.cons_append, List.cons.injEq] at hL
        obtain ⟨rfl, -⟩ := hL
        exact ⟨deletion, List.mem_cons_self, by decide +kernel, rfl⟩
    refine ⟨by decide +kernel, ?_, ?_, ?_⟩
    · have hkeys : ∀ a ∈ [deletion] ++ [addition], a.key = 1 := by decide
      intro a ha b hb _ _
      rw [hkeys a ha, hkeys b hb]
      exact ⟨⟨rfl, .inl htop⟩, rfl⟩
    · intro r hr
      rfl
    · intro h
      cases h
  · intro e stretch m behind hL he _ hm hc
    obtain ⟨hx, -, rfl, rfl, -⟩ := closed_deletedLeaf (show deletedLeaf = [] ++ stretch ++ m :: behind from hL) hm hc
    rw [hx]
    decide +kernel

theorem coherent_deletedLeaf :
    Sighting.Coherent (sightings deletedResolver 7 ⟨4, 30⟩ deletedLeaf) := by
  have hrows : sightings deletedResolver 7 ⟨4, 30⟩ deletedLeaf =
      [deletion.sighting, addition.sighting, bystander.sighting] := by
    decide +kernel
  have hone : ∀ r ∈ [deletion.sighting, addition.sighting, bystander.sighting],
      ∀ r' ∈ [deletion.sighting, addition.sighting, bystander.sighting],
      r.lid = r'.lid → r.key = r'.key := by
    decide
  rw [hrows]
  refine ⟨by unfold Sighting.Proper; decide, fun a b c hsub hkey _ => ?_, by decide, fun k x => ?_,
    fun k x a hhead _ b hb hlid hkey => ?_⟩
  · obtain ⟨rfl, rfl, rfl⟩ : a = deletion.sighting ∧ b = addition.sighting ∧
        c = bystander.sighting := by
      simpa using hsub.eq_of_length rfl
    exact absurd hkey (by decide)
  · by_cases h₁ : deletion.sighting.key = k ∧ deletion.sighting.lid = x
    · obtain ⟨rfl, rfl⟩ := h₁
      exact ⟨rfl, rfl⟩
    · have h₂ : ¬ (addition.sighting.key = k ∧ addition.sighting.lid = x) := h₁
      simp only [Sighting.group, List.filter_cons, h₁, h₂, decide_false, Bool.false_eq_true, if_false]
      split
      · rfl
      · trivial
  · obtain ⟨ha, rfl, rfl⟩ := Sighting.mem_group.mp (List.mem_of_mem_head? hhead)
    exact absurd (hone b hb a ha hlid) hkey

theorem clean_answers_deleted :
    ∃ w l, clean IntComparator 7 deletedResolver deletedLeaf = some (w, l) ∧
      ∀ x, x ∈ EntrySieve.sieve w 7 ⟨4, 30⟩ ⟨[], false, 0, 0, false⟩ l ↔
        x ∈ EntrySieve.sieve deletedResolver 7 ⟨4, 30⟩ ⟨[], false, 0, 0, false⟩ deletedLeaf := by
  have hent : Entitled deletedResolver 7 ⟨4, 30⟩ deletedLeaf := by
    unfold Entitled
    decide +kernel
  obtain ⟨w, l, hclean, hsame, -⟩ :=
    clean_answers safe_deletedLeaf (by decide +kernel) hent coherent_deletedLeaf
  refine ⟨w, l, hclean, fun x => ?_⟩
  simpa using hsame (fun _ => true) ⟨[], false, 0, 0, false⟩ ⟨rfl, rfl⟩ x

-- Transaction 2 moves object 5 from key 2 to key 1, next to each other in the leaf.
def movedLeaf : List (Item Int) :=
  [⟨1, ⟨2, 21, nullValue, 5⟩⟩, ⟨2, ⟨2, nullValue, 20, 5⟩⟩, ⟨2, ⟨1, 10, nullValue, 5⟩⟩]

def movedHistory : History :=
  [.begin 4 30, .commit 2 25, .entryAdded 2 7, .entryAdded 2 7, .begin 2 20, .commit 1 12,
    .entryAdded 1 7, .begin 1 5]

/-- The addition under one key goes with the deletion under the other: the object
is lost under key 1 and comes back under key 2. -/
theorem clean_loses_moved : ∃ s, Run.replay movedHistory = some s ∧ s.history.Active 4 30 ∧
    movedLeaf.Pairwise (fun a b => IntComparator.compare a.key a.entry.logicalID b.key
      b.entry.logicalID ≤ 0) ∧
    ∃ w l, clean IntComparator 7 s.resolver movedLeaf = some (w, l) ∧
      5 ∈ EntrySieve.sieve s.resolver 7 ⟨4, 30⟩ ⟨[], false, 0, 0, false⟩
        (movedLeaf.filter fun e => e.key = 1) ∧
      5 ∉ EntrySieve.sieve w 7 ⟨4, 30⟩ ⟨[], false, 0, 0, false⟩ (l.filter fun e => e.key = 1) ∧
      5 ∉ EntrySieve.sieve s.resolver 7 ⟨4, 30⟩ ⟨[], false, 0, 0, false⟩
        (movedLeaf.filter fun e => e.key = 2) ∧
      5 ∈ EntrySieve.sieve w 7 ⟨4, 30⟩ ⟨[], false, 0, 0, false⟩ (l.filter fun e => e.key = 2) := by
  have hrun : (do
      let s ← Run.replay movedHistory
      let (w, l) ← clean IntComparator 7 s.resolver movedLeaf
      let ask (v : VisibilityResolver) (items : List (Item Int)) (k : Int) :=
        EntrySieve.sieve v 7 ⟨4, 30⟩ ⟨[], false, 0, 0, false⟩ (items.filter fun e => e.key = k)
      return (ask s.resolver movedLeaf 1, ask w l 1, ask s.resolver movedLeaf 2, ask w l 2)) =
      some ([5], [], [], [5]) := by
    decide +kernel
  simp only [Option.bind_eq_bind, Option.bind_eq_some_iff, Option.pure_def, Option.some.injEq,
    Prod.mk.injEq] at hrun
  obtain ⟨s, hs, ⟨w, l⟩, hclean, h₁, h₂, h₃, h₄⟩ := hrun
  refine ⟨s, hs, ?_, by decide, w, l, hclean, by simp [h₁], by simp [h₂], by simp [h₃], by simp [h₄]⟩
  rw [Run.replay_history hs]
  simp [movedHistory, History.Active, History.Began, History.Ended, History.Committed,
    History.Aborted]

end Loxim.Indexes.Cleaner
