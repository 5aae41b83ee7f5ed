import Loxim.QueryParser.Signature
import Mathlib.Order.Lattice.Nat

/-!
# The comparison of types ends, and finds equal types equal

Every reference that is followed adds a pair to the record, and there are finitely many pairs
of references in a data scheme. Two references match when what they stand for is the same
field by field, up to references that match.
-/

namespace Loxim.QueryParser

namespace Signature

-- ---------------------------------------------------------------------------
-- Depths and references
-- ---------------------------------------------------------------------------

mutual

def depth : Signature → Nat
  | atom .. | ref .. | void _ | emptyBinder .. => 1
  | binder _ _ v => v.depth + 1
  | coll _ _ l => depths l + 1

def depths : List Signature → Nat
  | [] => 0
  | s :: l => max s.depth (depths l)

end

mutual

/-- The references in a signature. -/
def refs : Signature → Finset Int
  | atom .. | void _ | emptyBinder .. => ∅
  | ref _ refNo => {refNo}
  | binder _ _ v => v.refs
  | coll _ _ l => refsOf l

def refsOf : List Signature → Finset Int
  | [] => ∅
  | s :: l => s.refs ∪ refsOf l

end

variable {s t m : Signature} {l l' : List Signature} {a : SigAttrs} {name : String}

theorem depth_le_depths (h : s ∈ l) : s.depth ≤ depths l := by
  induction l with
  | nil => cases h
  | cons first l ih =>
    rw [depths]
    cases h with
    | head => exact Nat.le_max_left ..
    | tail _ h => exact (ih h).trans (Nat.le_max_right ..)

theorem refs_subset_refsOf (h : s ∈ l) : s.refs ⊆ refsOf l := by
  induction l with
  | nil => cases h
  | cons first l ih =>
    rw [refsOf]
    cases h with
    | head => exact Finset.subset_union_left
    | tail _ h => exact (ih h).trans Finset.subset_union_right

theorem depth_getValue (h : s.getValue = some t) : t.depth + 1 = s.depth := by
  cases s with
  | binder a name v =>
    cases h
    rw [depth]
  | _ => cases h

theorem refs_getValue (h : s.getValue = some t) : t.refs = s.refs := by
  cases s with
  | binder a name v =>
    cases h
    rw [refs]
  | _ => cases h

end Signature

namespace DataScheme

open Signature

variable (S : DataScheme)

/-- The value that a reference is followed to. -/
def valueOf (refNo : Int) : Option Signature :=
  (S.namedSignatureOfRef refNo).bind getValue

/-- No value that a reference is followed to is deeper. -/
def depthBound : Nat := S.objects.keys.sup fun k => ((S.valueOf k).map depth).getD 0

/-- The references in values that references are followed to. -/
def allRefs : Finset Int := S.objects.keys.biUnion fun k => ((S.valueOf k).map refs).getD ∅

variable {S} {refNo : Int} {v : Signature}

theorem mem_keys_of_valueOf (h : S.valueOf refNo = some v) : refNo ∈ S.objects.keys := by
  obtain ⟨sig, hsig, -⟩ := Option.bind_eq_some_iff.mp h
  obtain ⟨d, hd, -⟩ := Option.map_eq_some_iff.mp hsig
  rw [Finmap.mem_keys]
  exact Finmap.mem_of_lookup_eq_some hd

theorem depth_le_depthBound (h : S.valueOf refNo = some v) : v.depth ≤ S.depthBound := by
  have hle := Finset.le_sup (f := fun k => ((S.valueOf k).map depth).getD 0) (mem_keys_of_valueOf h)
  rw [h] at hle
  exact hle

theorem refs_subset_allRefs (h : S.valueOf refNo = some v) : v.refs ⊆ S.allRefs := by
  have hsub := Finset.subset_biUnion_of_mem (fun k => ((S.valueOf k).map refs).getD ∅)
    (mem_keys_of_valueOf h)
  rw [h] at hsub
  exact hsub

end DataScheme

namespace Signature

variable {S : DataScheme} {needTName : Bool} {U : Finset Int} {n : Nat} {this m : Signature}
  {flatSig : Option Signature} {vPairs vPairs' : Visited} {myList list : List Signature}
  {compare : Signature → Option Signature → Visited → Option (SigResult × Visited)}

-- ---------------------------------------------------------------------------
-- The comparison ends
-- ---------------------------------------------------------------------------

/-- The pairs that can still be recorded. -/
def unvisited (U : Finset Int) (vPairs : Visited) : Nat :=
  ((U ×ˢ U).filter fun key => key ∉ vPairs).card

theorem unvisited_anti (h : vPairs ⊆ vPairs') : unvisited U vPairs' ≤ unvisited U vPairs := by
  apply Finset.card_le_card
  intro key hkey
  rw [Finset.mem_filter] at hkey ⊢
  exact ⟨hkey.1, fun hmem => hkey.2 (h hmem)⟩

theorem unvisited_append {key : Int × Int} (hkey : key ∈ U ×ˢ U) (hnew : key ∉ vPairs) :
    unvisited U (vPairs ++ [key]) < unvisited U vPairs := by
  apply Finset.card_lt_card
  refine Finset.ssubset_iff_of_subset ?_ |>.mpr ⟨key, ?_, ?_⟩
  · intro other hother
    rw [Finset.mem_filter] at hother ⊢
    exact ⟨hother.1, fun hmem => hother.2 (List.mem_append_left _ hmem)⟩
  · exact Finset.mem_filter.mpr ⟨hkey, hnew⟩
  · intro hmem
    exact (Finset.mem_filter.mp hmem).2 (List.mem_append_right _ (List.mem_singleton_self key))

theorem findMatch_ok {sName : String} (h : findMatch sName myList = .ok m) :
    m ∈ myList ∧ m.getName = some sName := by
  induction myList with
  | nil => cases h
  | cons first myList ih =>
    rw [findMatch] at h
    split at h
    · cases h
    · rename_i name hname
      split at h
      · rename_i heq
        cases h
        exact ⟨List.mem_cons_self, hname.trans (congrArg some heq)⟩
      · obtain ⟨hmem, hm⟩ := ih h
        exact ⟨List.mem_cons_of_mem _ hmem, hm⟩

/-- The loop over the fields ends if the comparisons of the fields do. -/
theorem compareElts_ends (hcompare : ∀ m ∈ myList, ∀ s ∈ list, ∀ vPairs', vPairs ⊆ vPairs' →
      ∃ r vPairs'', compare m (some s) vPairs' = some (r, vPairs'') ∧ vPairs' ⊆ vPairs'')
    (subMap : OrderedMap String (Int × Int)) (result : SigResult) {vPairs' : Visited}
    (hle : vPairs ⊆ vPairs') :
    ∃ x vPairs'', compareElts compare myList list subMap result vPairs' = some (x, vPairs'') ∧
      vPairs' ⊆ vPairs'' := by
  induction list generalizing subMap result vPairs' with
  | nil => exact ⟨_, _, rfl, List.Subset.refl _⟩
  | cons sptr list ih =>
    rw [compareElts]
    split
    · exact ⟨_, _, rfl, List.Subset.refl _⟩
    · split
      · exact ⟨_, _, rfl, List.Subset.refl _⟩
      · rename_i hmatch
        obtain ⟨r, vPairs'', hrun, hle'⟩ :=
          hcompare _ (findMatch_ok hmatch).1 sptr List.mem_cons_self vPairs' hle
        rw [hrun]
        dsimp only
        split
        · exact ⟨_, _, rfl, hle'⟩
        · have hrest := ih (fun m hm s hs => hcompare m hm s (List.mem_cons_of_mem _ hs))
          obtain ⟨x, vPairs₃, hx, hle₃⟩ := hrest _ _ (List.Subset.trans hle hle')
          exact ⟨x, vPairs₃, hx, List.Subset.trans hle' hle₃⟩

theorem compareSigCrt_ends (hcompare : ∀ m ∈ myList, ∀ s ∈ list, ∀ vPairs', vPairs ⊆ vPairs' →
      ∃ r vPairs'', compare m (some s) vPairs' = some (r, vPairs'') ∧ vPairs' ⊆ vPairs'') :
    ∃ r vPairs', compareSigCrt compare myList list vPairs = some (r, vPairs') ∧
      vPairs ⊆ vPairs' := by
  obtain ⟨x, vPairs', hx, hle⟩ := compareElts_ends hcompare ∅ .ok (List.Subset.refl _)
  rw [compareSigCrt, hx]
  cases x with
  | inl result => exact ⟨_, _, rfl, hle⟩
  | inr result => exact ⟨_, _, rfl, hle⟩

theorem compareRec_ends (hU : S.allRefs ⊆ U) (hthis : this.refs ⊆ U)
    (hflat : ∀ f, flatSig = some f → f.refs ⊆ U)
    (hn : unvisited U vPairs * (S.depthBound + 1) + this.depth < n) :
    ∃ r vPairs', compareRecNamedSigCrt S needTName n this flatSig vPairs = some (r, vPairs') ∧
      vPairs ⊆ vPairs' := by
  induction n generalizing this flatSig vPairs with
  | zero => cases hn
  | succ n ih =>
    have hstop (r : SigResult) : ∃ r' vPairs', some (r, vPairs) = some (r', vPairs') ∧
        vPairs ⊆ vPairs' := ⟨r, vPairs, rfl, List.Subset.refl _⟩
    unfold compareRecNamedSigCrt
    split
    · exact hstop _
    · split
      · rename_i a name value f _
        split
        · exact hstop _
        · refine ih hthis (fun v hv => ?_) ?_
          · rw [refs_getValue hv]
            exact hflat f rfl
          · rw [depth] at hn
            omega
      · split
        · exact hstop _
        · exact hstop _
      · rename_i a myRef a' sigRef _
        split
        · exact hstop _
        · split
          · exact hstop _
          · split
            · exact hstop _
            · rename_i hnew
              dsimp only
              have hkey : (myRef, sigRef) ∈ U ×ˢ U := by
                refine Finset.mem_product.mpr ⟨hthis ?_, hflat _ rfl ?_⟩
                · rw [refs]
                  exact Finset.mem_singleton_self _
                · rw [refs]
                  exact Finset.mem_singleton_self _
              have hless := unvisited_append hkey hnew
              have hgrow : vPairs ⊆ vPairs ++ [(myRef, sigRef)] := List.subset_append_left _ _
              split
              · rename_i myVal sigVal hmy hsig
                split
                · rename_i value hvalue
                  have hmyValue : S.valueOf myRef = some value := by
                    rw [DataScheme.valueOf, hmy, Option.bind_some, hvalue]
                  have hvalueU := (DataScheme.refs_subset_allRefs hmyValue).trans hU
                  have hflatU (f : Signature) (hf : sigVal.getValue = some f) : f.refs ⊆ U := by
                    have hsigValue : S.valueOf sigRef = some f := by
                      rw [DataScheme.valueOf, hsig, Option.bind_some, hf]
                    exact (DataScheme.refs_subset_allRefs hsigValue).trans hU
                  -- one pair less makes up for any depth
                  have hdepth := DataScheme.depth_le_depthBound hmyValue
                  have hmul := Nat.mul_le_mul_right (S.depthBound + 1) hless
                  rw [Nat.succ_mul] at hmul
                  obtain ⟨r, vPairs', hrun, hle⟩ :=
                    @ih _ _ (vPairs ++ [(myRef, sigRef)]) hvalueU hflatU (by omega)
                  exact ⟨r, vPairs', hrun, List.Subset.trans hgrow hle⟩
                · exact ⟨_, _, rfl, hgrow⟩
              · exact ⟨_, _, rfl, hgrow⟩
      · rename_i a c myList a' c' list _
        refine compareSigCrt_ends fun m hm s hs vPairs' hle => ?_
        refine ih ?_ ?_ ?_
        · exact (refs_subset_refsOf hm).trans hthis
        · rintro f ⟨rfl⟩
          exact (refs_subset_refsOf hs).trans (hflat _ rfl)
        · have hdepth := depth_le_depths hm
          have hless := unvisited_anti (U := U) hle
          rw [depth] at hn
          have hmul := Nat.mul_le_mul_right (S.depthBound + 1) hless
          omega
      · exact hstop _

theorem compareNamed_ends (hU : S.allRefs ⊆ U) (hthis : this.refs ⊆ U)
    (hflat : ∀ f, flatSig = some f → f.refs ⊆ U)
    (hn : (U ×ˢ U).card * (S.depthBound + 1) + 1 + this.depth < n) :
    ∃ r, compareNamedSigCrt S needTName n this flatSig = some r := by
  induction n generalizing this flatSig with
  | zero => cases hn
  | succ n ih =>
    unfold compareNamedSigCrt
    split
    · exact ⟨_, rfl⟩
    · split
      · rename_i a name value f _
        split
        · exact ⟨_, rfl⟩
        · refine ih hthis (fun v hv => ?_) ?_
          · rw [refs_getValue hv]
            exact hflat f rfl
          · rw [depth] at hn
            omega
      · split
        · exact ⟨_, rfl⟩
        · exact ⟨_, rfl⟩
      · rename_i a myRef a' sigRef _
        split
        · exact ⟨_, rfl⟩
        · have hcard : unvisited U [] ≤ (U ×ˢ U).card := Finset.card_filter_le ..
          have hmul := Nat.mul_le_mul_right (S.depthBound + 1) hcard
          obtain ⟨r, vPairs', hrun, -⟩ := @compareRec_ends S needTName U n _ _ [] hU hthis hflat
            (by rw [depth] at hn ⊢; omega)
          exact ⟨r, by rw [hrun]; rfl⟩
      · rename_i a c myList a' c' list _
        obtain ⟨r, vPairs', hrun, -⟩ := @compareSigCrt_ends [] myList list
          (fun m s vPairs => (compareNamedSigCrt S needTName n m s).map (·, vPairs))
          fun m hm s hs vPairs' _ => by
            have hdepth := depth_le_depths hm
            have hsU : s.refs ⊆ U := (refs_subset_refsOf hs).trans (hflat _ rfl)
            obtain ⟨r, hr⟩ := @ih m (some s) ((refs_subset_refsOf hm).trans hthis)
              (fun f hf => Option.some.inj hf ▸ hsU) (by rw [depth] at hn; omega)
            exact ⟨r, vPairs', by rw [hr]; rfl, List.Subset.refl _⟩
        exact ⟨r, by rw [hrun]; rfl⟩
      · exact ⟨_, rfl⟩

-- ---------------------------------------------------------------------------
-- Equal types
-- ---------------------------------------------------------------------------

/-- The lower bound is not above the upper one. -/
def Card.Ordered (c : Card) : Prop := c.upper = '*' ∨ digit c.lower ≤ digit c.upper

/-- The fields of structures have names, each another one, and ordered cardinalities. -/
inductive Formed : Signature → Prop
  | atom {a t} : Formed (atom a t)
  | ref {a r} : Formed (ref a r)
  | void {a} : Formed (void a)
  | binder {a name v} (hv : Formed v) : Formed (binder a name v)
  | emptyBinder {a name} : Formed (emptyBinder a name)
  | coll {a c l} (hformed : ∀ m ∈ l, Formed m)
      (hfields : ∀ m ∈ l, m.getName.isSome ∧ Card.Ordered m.attrs.card)
      (hnames : (l.map getName).Nodup) : Formed (coll a c l)

variable {R : Int → Int → Prop}

def SameTName (needTName : Bool) (a a' : SigAttrs) : Prop :=
  needTName = true → a.distinctTypeName = a'.distinctTypeName

/-- Field by field the same, up to references that `R` relates. -/
inductive Matches (R : Int → Int → Prop) (needTName : Bool) : Signature → Signature → Prop
  | atom {a a' t} (ha : SameTName needTName a a') : Matches R needTName (atom a t) (atom a' t)
  | ref {a a' r r'} (ha : SameTName needTName a a') (hr : r = r' ∨ R r r') :
      Matches R needTName (ref a r) (ref a' r')
  | void {a a'} : Matches R needTName (void a) (void a')
  | binder {a a' name v v'} (ha : SameTName needTName a a') (hv : Matches R needTName v v') :
      Matches R needTName (binder a name v) (binder a' name v')
  | emptyBinder {a a' name} (ha : SameTName needTName a a') :
      Matches R needTName (emptyBinder a name) (emptyBinder a' name)
  | coll {a a' c l l'} (ha : SameTName needTName a a') (partner : Signature → Signature)
      (hpartner : ∀ s ∈ l', partner s ∈ l ∧ (partner s).attrs.card = s.attrs.card)
      (hfields : ∀ s ∈ l', Matches R needTName (partner s) s)
      (hall : ∀ m ∈ l, ∃ s ∈ l', s.getName = m.getName ∧ m.attrs.card = s.attrs.card) :
      Matches R needTName (coll a c l) (coll a' c l')

/-- Related references stand for values that are the same field by field, up to references that
are related. -/
def Unfolds (S : DataScheme) (needTName : Bool) (R : Int → Int → Prop) : Prop :=
  ∀ d e, R d e → (S.isTypeDefId d = true ∨ S.isTypeDefId e = true) ∧
    ∃ v w, S.valueOf d = some v ∧ S.valueOf e = some w ∧ Matches R needTName v w ∧
      Formed v ∧ Formed w

theorem Matches.getName {s : Signature} (h : Matches R needTName m s) :
    s.getName = m.getName := by
  cases h <;> rfl

theorem Matches.type {s : Signature} (h : Matches R needTName m s) : m.type = s.type := by
  cases h with
  | @coll _ _ c _ _ _ _ _ _ _ => cases c <;> rfl
  | _ => rfl

theorem Matches.tName {s : Signature} (h : Matches R needTName m s) :
    m.type = 10 ∨ SameTName needTName m.attrs s.attrs := by
  cases h with
  | void => exact .inl rfl
  | atom ha | ref ha _ | binder ha _ | emptyBinder ha | coll ha _ _ _ _ => exact .inr ha

theorem mismatch_of_matches {s : Signature} (h : Matches R needTName m s) :
    mismatch needTName m (some s) = none := by
  rw [mismatch, if_neg (not_not.mpr h.type), if_neg]
  rintro ⟨htype, hneed, hne⟩
  obtain hvoid | hsame := h.tName
  · exact htype hvoid
  · exact hne (hsame hneed)

theorem findMatch_of_nodup {sName : String} (hm : m ∈ myList) (hname : m.getName = some sName)
    (hnames : (myList.map getName).Nodup) (hsome : ∀ m ∈ myList, m.getName.isSome) :
    findMatch sName myList = .ok m := by
  induction myList with
  | nil => cases hm
  | cons first myList ih =>
    obtain ⟨hfirst, hrest⟩ := List.forall_mem_cons.mp hsome
    rw [List.map_cons, List.nodup_cons] at hnames
    obtain ⟨name, hfirstName⟩ := Option.isSome_iff_exists.mp hfirst
    rw [findMatch, hfirstName]
    dsimp only
    cases hm with
    | head =>
      rw [hname, Option.some.injEq] at hfirstName
      rw [if_pos hfirstName.symm]
    | tail _ hm =>
      have hne : name ≠ sName := by
        rintro rfl
        apply hnames.1
        rw [hfirstName, ← hname]
        exact List.mem_map_of_mem hm
      rw [if_neg hne]
      exact ih hm hnames.2 hrest

/-- A loop in which every field matches notes each of them once. -/
theorem compareElts_ok (hmatch : ∀ s ∈ list, ∃ sName m, s.getName = some sName ∧
      findMatch sName myList = .ok m ∧
      ∀ vPairs r vPairs', compare m (some s) vPairs = some (r, vPairs') → r = .ok)
    (hnames : (list.map getName).Nodup) {subMap : OrderedMap String (Int × Int)}
    (hnew : ∀ s ∈ list, ∀ sName, s.getName = some sName → subMap.lookup sName = none)
    {x : OrderedMap String (Int × Int) × SigResult ⊕ SigResult}
    (h : compareElts compare myList list subMap .ok vPairs = some (x, vPairs')) :
    ∃ subMap', x = .inl (subMap', .ok) ∧
      (∀ s ∈ list, ∀ sName, s.getName = some sName →
        subMap'.lookup sName = some (cardToMapPair s.attrs.card)) ∧
      ∀ sName, (∀ s ∈ list, s.getName ≠ some sName) →
        subMap'.lookup sName = subMap.lookup sName := by
  induction list generalizing subMap vPairs with
  | nil =>
    cases h
    exact ⟨subMap, rfl, fun _ hs => absurd hs List.not_mem_nil, fun _ _ => rfl⟩
  | cons sptr list ih =>
    obtain ⟨⟨sName, m, hname, hfind, hok⟩, hrest⟩ := List.forall_mem_cons.mp hmatch
    rw [List.map_cons, List.nodup_cons] at hnames
    rw [compareElts, hname] at h
    simp only [hfind] at h
    split at h
    · cases h
    · rename_i r vPairs₁ hrun
      rw [hok _ _ _ hrun] at h
      simp only [ne_eq, not_true_eq_false, false_and, if_false] at h
      have hadd (name : String) :
          (addToSubMap subMap sName (cardToMapPair sptr.attrs.card)).lookup name =
            if name = sName then some (cardToMapPair sptr.attrs.card) else subMap.lookup name := by
        rw [addToSubMap, OrderedMap.lookup_alter]
        split
        · rename_i heq
          rw [heq, hnew sptr List.mem_cons_self sName hname]
        · rfl
      have hother (s : Signature) (hs : s ∈ list) : s.getName ≠ some sName := by
        intro heq
        apply hnames.1
        rw [hname, ← heq]
        exact List.mem_map_of_mem hs
      have hstill : ∀ s ∈ list, ∀ name, s.getName = some name →
          (addToSubMap subMap sName (cardToMapPair sptr.attrs.card)).lookup name = none := by
        intro s hs name hsName
        rw [hadd, if_neg]
        · exact hnew s (List.mem_cons_of_mem _ hs) name hsName
        · rintro rfl
          exact hother s hs hsName
      obtain ⟨subMap', rfl, hfields, hothers⟩ := ih hrest hnames.2 hstill h
      refine ⟨subMap', rfl, List.forall_mem_cons.mpr ⟨fun name hsptr => ?_, hfields⟩, ?_⟩
      · cases hname.symm.trans hsptr
        rw [hothers sName hother, hadd, if_pos rfl]
      · intro name hnone
        obtain ⟨hfirst, hlist⟩ := List.forall_mem_cons.mp hnone
        rw [hothers name hlist, hadd, if_neg]
        rintro rfl
        exact hfirst hname

/-- Fields that are there once each do not overflow and are not missed. -/
theorem checkCards_ok {subMap : OrderedMap String (Int × Int)} {result : SigResult}
    (hfields : ∀ m ∈ myList, Card.Ordered m.attrs.card ∧ ∃ name, m.getName = some name ∧
      subMap.lookup name = some (cardToMapPair m.attrs.card)) :
    checkCards myList subMap result = result := by
  induction myList generalizing subMap with
  | nil => rfl
  | cons ptr myList ih =>
    obtain ⟨⟨hcard, name, hname, hlookup⟩, hrest⟩ := List.forall_mem_cons.mp hfields
    have hlower : ¬ (cardToMapPair ptr.attrs.card).1 < digit ptr.attrs.card.lower := lt_irrefl _
    have hover : ¬ (ptr.attrs.card.upper ≠ '*' ∧
        digit ptr.attrs.card.upper < (cardToMapPair ptr.attrs.card).1) := by
      rintro ⟨hstar, hlt⟩
      obtain heq | hle := hcard
      · exact hstar heq
      · exact absurd hlt (not_lt.mpr hle)
    have hupper : ¬ (ptr.attrs.card.upper ≠ '*' ∧
        digit ptr.attrs.card.upper < (cardToMapPair ptr.attrs.card).2) := by
      rintro ⟨hstar, hlt⟩
      rw [cardToMapPair, if_neg hstar] at hlt
      exact lt_irrefl _ hlt
    have hsame (key : String) : (subMap.insert name (cardToMapPair ptr.attrs.card)).lookup key =
        subMap.lookup key := by
      rw [OrderedMap.lookup_insert_eq]
      split
      · rename_i heq
        rw [heq, hlookup]
      · rfl
    rw [checkCards, hname]
    simp only [hlookup, reduceCtorEq, false_and, if_false, Option.getD_some, hover, hlower, hupper,
      or_self]
    exact ih fun m hm => by
      obtain ⟨hm', key, hkey, hval⟩ := hrest m hm
      exact ⟨hm', key, hkey, (hsame key).trans hval⟩

/-- Of fields that match each other and are formed. -/
theorem compareSigCrt_ok {partner : Signature → Signature} {a : SigAttrs} {c : CollType}
    (hmy : Formed (coll a c myList)) {a' : SigAttrs} (hlist : Formed (coll a' c list))
    (hpartner : ∀ s ∈ list, partner s ∈ myList ∧ (partner s).attrs.card = s.attrs.card ∧
      s.getName = (partner s).getName)
    (hall : ∀ m ∈ myList, ∃ s ∈ list, s.getName = m.getName ∧ m.attrs.card = s.attrs.card)
    (hok : ∀ s ∈ list, ∀ vPairs r vPairs',
      compare (partner s) (some s) vPairs = some (r, vPairs') → r = .ok)
    {r : SigResult} (h : compareSigCrt compare myList list vPairs = some (r, vPairs')) :
    r = .ok := by
  obtain - | - | - | - | - | ⟨-, hmyFields, hmyNames⟩ := hmy
  obtain - | - | - | - | - | ⟨-, hfields, hnames⟩ := hlist
  have hmatch : ∀ s ∈ list, ∃ sName m, s.getName = some sName ∧
      findMatch sName myList = .ok m ∧
      ∀ vPairs r vPairs', compare m (some s) vPairs = some (r, vPairs') → r = .ok := by
    intro s hs
    obtain ⟨hmem, -, hname⟩ := hpartner s hs
    obtain ⟨sName, hsName⟩ := Option.isSome_iff_exists.mp (hfields s hs).1
    refine ⟨sName, partner s, hsName, ?_, hok s hs⟩
    exact findMatch_of_nodup hmem (hname ▸ hsName) hmyNames fun m hm => (hmyFields m hm).1
  rw [compareSigCrt] at h
  split at h
  · cases h
  · rename_i hrun
    obtain ⟨subMap', heq, -⟩ := compareElts_ok hmatch hnames (fun _ _ _ _ => rfl) hrun
    cases heq
  · rename_i hrun
    obtain ⟨subMap', heq, hnoted, -⟩ := compareElts_ok hmatch hnames (fun _ _ _ _ => rfl) hrun
    cases heq
    cases h
    refine checkCards_ok fun m hm => ⟨(hmyFields m hm).2, ?_⟩
    obtain ⟨s, hs, hname, hcard⟩ := hall m hm
    obtain ⟨sName, hsName⟩ := Option.isSome_iff_exists.mp (hfields s hs).1
    exact ⟨sName, hname ▸ hsName, hcard ▸ hnoted s hs sName hsName⟩

theorem Formed.fields {a : SigAttrs} {c : CollType} (h : Formed (Signature.coll a c myList)) :
    ∀ m ∈ myList, Formed m := by
  cases h with
  | coll hformed => exact hformed

theorem compareRec_ok {s : Signature} (hR : Unfolds S needTName R)
    (hmatches : Matches R needTName this s) (hthis : Formed this) (hs : Formed s) {r : SigResult}
    (h : compareRecNamedSigCrt S needTName n this (some s) vPairs = some (r, vPairs')) :
    r = .ok := by
  induction n generalizing this s vPairs r vPairs' with
  | zero => cases h
  | succ n ih =>
    unfold compareRecNamedSigCrt at h
    rw [mismatch_of_matches hmatches] at h
    dsimp only at h
    cases hmatches with
    | atom | void =>
      cases h
      rfl
    | @binder a a' name v v' ha hv =>
      obtain - | - | - | hv₁ := hthis
      obtain - | - | - | hv₂ := hs
      have hname : ¬ (Signature.binder a' name v').getName ≠ some name := not_not.mpr rfl
      dsimp only at h
      rw [if_neg hname] at h
      exact ih hv hv₁ hv₂ h
    | @emptyBinder a a' name ha =>
      simp only [getName, getValue, ne_eq, not_true_eq_false, Option.isSome_none,
        Bool.false_eq_true, or_self, if_false] at h
      cases h
      rfl
    | @ref a a' d e ha hr =>
      dsimp only at h
      by_cases hde : d = e
      · rw [if_pos hde] at h
        cases h
        rfl
      · obtain ⟨htypedef, v, w, hv, hw, hvw, hformed, hformed'⟩ := hR d e (hr.resolve_left hde)
        obtain ⟨dv, hdv, hdval⟩ := Option.bind_eq_some_iff.mp hv
        obtain ⟨ew, hew, heval⟩ := Option.bind_eq_some_iff.mp hw
        rw [if_neg hde, if_neg (not_and_or.mpr (by simpa using htypedef))] at h
        split at h
        · cases h
          rfl
        · simp only [hdv, hew, hdval, heval] at h
          exact ih hvw hformed hformed' h
    | @coll a a' c l l' ha partner hpartner hfields hall =>
      have hnamed (s : Signature) (hsl : s ∈ l') : partner s ∈ l ∧
          (partner s).attrs.card = s.attrs.card ∧ s.getName = (partner s).getName :=
        ⟨(hpartner s hsl).1, (hpartner s hsl).2, (hfields s hsl).getName⟩
      refine compareSigCrt_ok hthis hs hnamed hall (fun s hsl vPairs r vPairs' hrun => ?_) h
      exact ih (hfields s hsl) (hthis.fields _ (hpartner s hsl).1) (hs.fields _ hsl) hrun

theorem compareNamed_ok {s : Signature} (hR : Unfolds S needTName R)
    (hmatches : Matches R needTName this s) (hthis : Formed this) (hs : Formed s) {r : SigResult}
    (h : compareNamedSigCrt S needTName n this (some s) = some r) : r = .ok := by
  induction n generalizing this s r with
  | zero => cases h
  | succ n ih =>
    unfold compareNamedSigCrt at h
    rw [mismatch_of_matches hmatches] at h
    dsimp only at h
    cases hmatches with
    | atom | void =>
      cases h
      rfl
    | @binder a a' name v v' ha hv =>
      obtain - | - | - | hv₁ := hthis
      obtain - | - | - | hv₂ := hs
      have hname : ¬ (Signature.binder a' name v').getName ≠ some name := not_not.mpr rfl
      dsimp only at h
      rw [if_neg hname] at h
      exact ih hv hv₁ hv₂ h
    | @emptyBinder a a' name ha =>
      simp only [getName, getValue, ne_eq, not_true_eq_false, Option.isSome_none,
        Bool.false_eq_true, or_self, if_false] at h
      cases h
      rfl
    | @ref a a' d e ha hr =>
      dsimp only at h
      split at h
      · cases h
        rfl
      · obtain ⟨⟨result, vPairs'⟩, hrun, rfl⟩ := Option.map_eq_some_iff.mp h
        exact compareRec_ok hR (.ref ha hr) hthis hs hrun
    | @coll a a' c l l' ha partner hpartner hfields hall =>
      obtain ⟨⟨result, vPairs'⟩, hrun, rfl⟩ := Option.map_eq_some_iff.mp h
      have hnamed (s : Signature) (hsl : s ∈ l') : partner s ∈ l ∧
          (partner s).attrs.card = s.attrs.card ∧ s.getName = (partner s).getName :=
        ⟨(hpartner s hsl).1, (hpartner s hsl).2, (hfields s hsl).getName⟩
      refine compareSigCrt_ok hthis hs hnamed hall (fun s hsl vPairs r vPairs' hrun => ?_) hrun
      obtain ⟨result, hresult, heq⟩ := Option.map_eq_some_iff.mp hrun
      cases heq
      exact ih (hfields s hsl) (hthis.fields _ (hpartner s hsl).1) (hs.fields _ hsl) hresult

-- ---------------------------------------------------------------------------
-- A signature and its copy
-- ---------------------------------------------------------------------------

mutual

/-- Every binder has a value. -/
def valued : Signature → Bool
  | atom .. | ref .. | void _ => true
  | binder _ _ v => v.valued
  | emptyBinder .. => false
  | coll _ _ l => allValued l

def allValued : List Signature → Bool
  | [] => true
  | s :: l => s.valued && allValued l

end

variable {s t junk : Signature}

theorem matches_self (R : Int → Int → Prop) (needTName : Bool) (s : Signature) :
    Matches R needTName s s := by
  induction hd : s.depth using Nat.strong_induction_on generalizing s with
  | _ d ih =>
    cases s with
    | atom a t => exact .atom fun _ => rfl
    | ref a r => exact .ref (fun _ => rfl) (.inl rfl)
    | void a => exact .void
    | emptyBinder a name => exact .emptyBinder fun _ => rfl
    | binder a name v =>
      rw [depth] at hd
      exact .binder (fun _ => rfl) (ih _ (by omega) v rfl)
    | coll a c l =>
      rw [depth] at hd
      refine .coll (fun _ => rfl) id (fun m hm => ⟨hm, rfl⟩) (fun m hm => ?_)
        fun m hm => ⟨m, hm, rfl, rfl⟩
      have hdepth := depth_le_depths hm
      exact ih _ (by omega) m rfl

theorem mem_cloneAll : t ∈ cloneAll junk list ↔ ∃ s ∈ list, clone junk s = t := by
  induction list with
  | nil => simp [cloneAll]
  | cons first list ih => simp [cloneAll, ih, eq_comm]

theorem cloneAll_eq : cloneAll junk list = list.map (clone junk) := by
  induction list with
  | nil => rfl
  | cons first list ih => rw [cloneAll, ih, List.map_cons]

theorem attrs_clone : (clone junk s).attrs = s.attrs.copied := by
  cases s <;> rw [clone] <;> rfl

theorem getName_clone : (clone junk s).getName = s.getName := by
  cases s <;> rw [clone] <;> rfl

theorem valued_of_mem (h : allValued list = true) (hs : s ∈ list) : s.valued = true := by
  induction list with
  | nil => cases hs
  | cons first list ih =>
    rw [allValued, Bool.and_eq_true] at h
    cases hs with
    | head => exact h.1
    | tail _ hs => exact ih h.2 hs

theorem clone_spec (R : Int → Int → Prop) (needTName : Bool) (junk s : Signature)
    (hvalued : s.valued = true) (h : Formed s) :
    Matches R needTName s (clone junk s) ∧ Formed (clone junk s) := by
  induction hd : s.depth using Nat.strong_induction_on generalizing s with
  | _ d ih =>
    cases h with
    | atom =>
      rw [clone]
      exact ⟨.atom fun _ => rfl, .atom⟩
    | ref =>
      rw [clone]
      exact ⟨.ref (fun _ => rfl) (.inl rfl), .ref⟩
    | void =>
      rw [clone]
      exact ⟨.void, .void⟩
    | emptyBinder =>
      rw [valued] at hvalued
      cases hvalued
    | binder hv =>
      rw [depth] at hd
      rw [valued] at hvalued
      obtain ⟨hmatches, hformed⟩ := ih _ (by omega) _ hvalued hv rfl
      rw [clone]
      exact ⟨.binder (fun _ => rfl) hmatches, .binder hformed⟩
    | @coll a c l hformed hfields hnames =>
      rw [depth] at hd
      rw [valued] at hvalued
      have hclone (m : Signature) (hm : m ∈ l) :
          Matches R needTName m (clone junk m) ∧ Formed (clone junk m) := by
        have hdepth := depth_le_depths hm
        exact ih _ (by omega) m (valued_of_mem hvalued hm) (hformed m hm) rfl
      have hcard (m : Signature) : (clone junk m).attrs.card = m.attrs.card := by
        rw [attrs_clone]
        rfl
      have hsource : ∀ t ∈ cloneAll junk l, ∃ m ∈ l, clone junk m = t :=
        fun t ht => mem_cloneAll.mp ht
      have : Nonempty Signature := ⟨junk⟩
      choose! partner hpartner using hsource
      have hnames' : (cloneAll junk l).map getName = l.map getName := by
        rw [cloneAll_eq, List.map_map]
        exact List.map_congr_left fun m _ => getName_clone
      rw [clone]
      refine ⟨.coll (fun _ => rfl) partner (fun t ht => ⟨(hpartner t ht).1, ?_⟩) (fun t ht => ?_)
        (fun m hm => ?_), .coll (fun t ht => ?_) (fun t ht => ?_) (hnames' ▸ hnames)⟩
      · rw [← hcard, (hpartner t ht).2]
      · have hmatches := (hclone _ (hpartner t ht).1).1
        rw [(hpartner t ht).2] at hmatches
        exact hmatches
      · exact ⟨clone junk m, mem_cloneAll.mpr ⟨m, hm, rfl⟩, getName_clone, (hcard m).symm⟩
      · obtain ⟨m, hm, rfl⟩ := mem_cloneAll.mp ht
        exact (hclone m hm).2
      · obtain ⟨m, hm, rfl⟩ := mem_cloneAll.mp ht
        rw [getName_clone, hcard]
        exact hfields m hm

-- ---------------------------------------------------------------------------
-- Both comparisons
-- ---------------------------------------------------------------------------

/-- Run long enough, it ends. -/
def Ends {α : Type} (f : Nat → Option α) : Prop := ∃ N, ∀ n ≥ N, (f n).isSome

/-- Run long enough, it ends with a result. -/
def Gives {α : Type} (f : Nat → Option α) (r : α) : Prop := ∃ N, ∀ n ≥ N, f n = some r

theorem Ends.gives {α : Type} {f : Nat → Option α} {r : α} (h : Ends f)
    (hr : ∀ n r', f n = some r' → r' = r) : Gives f r := by
  obtain ⟨N, hN⟩ := h
  refine ⟨N, fun n hn => ?_⟩
  obtain ⟨r', hr'⟩ := Option.isSome_iff_exists.mp (hN n hn)
  rw [hr', hr n r' hr']

/-- The references of two signatures and of the data scheme. -/
def refsOfBoth (S : DataScheme) (this : Signature) (flatSig : Option Signature) : Finset Int :=
  S.allRefs ∪ (this.refs ∪ (flatSig.map refs).getD ∅)

theorem refs_flatSig_subset (S : DataScheme) (this : Signature) {flatSig : Option Signature} :
    ∀ f, flatSig = some f → f.refs ⊆ refsOfBoth S this flatSig := by
  rintro f rfl
  exact Finset.subset_union_right.trans Finset.subset_union_right

theorem ends_compareNamed (S : DataScheme) (needTName : Bool) (this : Signature)
    (flatSig : Option Signature) :
    Ends fun n => compareNamedSigCrt S needTName n this flatSig := by
  let U := refsOfBoth S this flatSig
  refine ⟨(U ×ˢ U).card * (S.depthBound + 1) + 1 + this.depth + 1, fun n hn => ?_⟩
  have hthis : this.refs ⊆ U := Finset.subset_union_left.trans Finset.subset_union_right
  obtain ⟨r, hr⟩ := @compareNamed_ends S needTName U n this flatSig Finset.subset_union_left hthis
    (refs_flatSig_subset S this) hn
  exact Option.isSome_iff_exists.mpr ⟨r, hr⟩

theorem ends_compareRec (S : DataScheme) (needTName : Bool) (this : Signature)
    (flatSig : Option Signature) (vPairs : Visited) :
    Ends fun n => (compareRecNamedSigCrt S needTName n this flatSig vPairs).map Prod.fst := by
  let U := refsOfBoth S this flatSig
  refine ⟨unvisited U vPairs * (S.depthBound + 1) + this.depth + 1, fun n hn => ?_⟩
  have hthis : this.refs ⊆ U := Finset.subset_union_left.trans Finset.subset_union_right
  obtain ⟨r, vPairs', hr, -⟩ := @compareRec_ends S needTName U n this flatSig vPairs
    Finset.subset_union_left hthis (refs_flatSig_subset S this) hn
  exact Option.isSome_iff_exists.mpr ⟨r, congrArg (Option.map Prod.fst) hr⟩

/-- Two signatures compare equal by both comparisons, whatever has been recorded before. -/
def CompareEqual (S : DataScheme) (needTName : Bool) (this flatSig : Signature) : Prop :=
  Gives (fun n => compareNamedSigCrt S needTName n this (some flatSig)) .ok ∧
    ∀ vPairs, Gives (fun n =>
      (compareRecNamedSigCrt S needTName n this (some flatSig) vPairs).map Prod.fst) .ok

theorem compareEqual_of_matches {s : Signature} (hR : Unfolds S needTName R)
    (hmatches : Matches R needTName this s) (hthis : Formed this) (hs : Formed s) :
    CompareEqual S needTName this s := by
  refine ⟨(ends_compareNamed S needTName this (some s)).gives fun n r h => ?_, fun vPairs =>
    (ends_compareRec S needTName this (some s) vPairs).gives fun n r h => ?_⟩
  · exact compareNamed_ok hR hmatches hthis hs h
  · obtain ⟨⟨result, vPairs'⟩, hrun, rfl⟩ := Option.map_eq_some_iff.mp h
    exact compareRec_ok hR hmatches hthis hs hrun

theorem unfolds_nothing (S : DataScheme) (needTName : Bool) :
    Unfolds S needTName fun _ _ => False := fun _ _ h => h.elim

/-- What two references stand for is the same field by field, all the way down. -/
def EqualUnfoldings (S : DataScheme) (needTName : Bool) (d e : Int) : Prop :=
  ∃ R, Unfolds S needTName R ∧ R d e

theorem comparison_correct (S : DataScheme) (needTName : Bool) :
    (∀ this flatSig, Ends (fun n => compareNamedSigCrt S needTName n this flatSig) ∧
      ∀ vPairs, Ends fun n =>
        (compareRecNamedSigCrt S needTName n this flatSig vPairs).map Prod.fst) ∧
    (∀ s, Formed s → CompareEqual S needTName s s ∧
      (s.valued = true → ∀ junk, CompareEqual S needTName s (clone junk s))) ∧
    ∀ d e, EqualUnfoldings S needTName d e → ∀ a a', SameTName needTName a a' →
      CompareEqual S needTName (ref a d) (ref a' e) := by
  refine ⟨fun this flatSig => ⟨ends_compareNamed S needTName this flatSig,
    ends_compareRec S needTName this flatSig⟩, fun s hs => ⟨?_, fun hvalued junk => ?_⟩, ?_⟩
  · exact compareEqual_of_matches (unfolds_nothing S needTName) (matches_self _ _ s) hs hs
  · obtain ⟨hmatches, hformed⟩ := clone_spec (fun _ _ => False) needTName junk s hvalued hs
    exact compareEqual_of_matches (unfolds_nothing S needTName) hmatches hs hformed
  · rintro d e ⟨R, hR, hde⟩ a a' ha
    exact compareEqual_of_matches hR (.ref ha (.inr hde)) .ref .ref

/-- A node that refers to the next one, of a type that is given. -/
def node (myId next : Int) : DataObjectDef :=
  .complex { myId, name := "Node", isTypedef := true }
    [.link { myId := 10 * myId, name := "next" } next]

/-- Two definitions that refer to each other, and one that refers to itself. -/
def circles : DataScheme where
  objects := ((Finmap.singleton 1 (node 1 2)).insert 2 (node 2 1)).insert 3 (node 3 3)

def nodeValue (next : Int) : Signature := coll {} .struct [binder {} "next" (ref {} next)]

theorem valueOf_circles : circles.valueOf 1 = some (nodeValue 2) ∧
    circles.valueOf 2 = some (nodeValue 1) ∧ circles.valueOf 3 = some (nodeValue 3) :=
  ⟨rfl, rfl, rfl⟩

theorem formed_nodeValue (next : Int) : Formed (nodeValue next) := by
  refine .coll (fun m hm => ?_) (fun m hm => ?_) (List.nodup_singleton _)
  · rw [List.mem_singleton.mp hm]
    exact .binder .ref
  · rw [List.mem_singleton.mp hm]
    exact ⟨rfl, .inr (le_refl _)⟩

theorem matches_nodeValue {next next' : Int} (h : R next next') :
    Matches R needTName (nodeValue next) (nodeValue next') := by
  refine .coll (fun _ => rfl) (fun _ => binder {} "next" (ref {} next)) (fun s hs => ?_)
    (fun s hs => ?_) fun m hm => ⟨_, List.mem_singleton_self _, ?_⟩
  · rw [List.mem_singleton.mp hs]
    exact ⟨List.mem_singleton_self _, rfl⟩
  · rw [List.mem_singleton.mp hs]
    exact .binder (fun _ => rfl) (.ref (fun _ => rfl) (.inr h))
  · rw [List.mem_singleton.mp hm]
    exact ⟨rfl, rfl⟩

theorem equalUnfoldings_circles : EqualUnfoldings circles true 1 3 := by
  obtain ⟨hone, htwo, hthree⟩ := valueOf_circles
  refine ⟨fun d e => (d = 1 ∨ d = 2) ∧ e = 3, ?_, .inl rfl, rfl⟩
  rintro d e ⟨rfl | rfl, rfl⟩
  · exact ⟨.inl rfl, _, _, hone, hthree, matches_nodeValue ⟨.inr rfl, rfl⟩, formed_nodeValue 2,
      formed_nodeValue 3⟩
  · exact ⟨.inl rfl, _, _, htwo, hthree, matches_nodeValue ⟨.inl rfl, rfl⟩, formed_nodeValue 1,
      formed_nodeValue 3⟩

theorem comparison_correct_circles : CompareEqual circles true (ref {} 1) (ref {} 3) :=
  (comparison_correct circles true).2.2 1 3 equalUnfoldings_circles {} {} fun _ => rfl

/-- A field that is there at least once and at most never. -/
def contradiction : Signature :=
  binder { card := { lower := '1', upper := '0' } } "a" (atom {} "int")

/-- A structure whose fields have different names does not match itself. -/
theorem contradiction_differs :
    ([contradiction].map getName).Nodup ∧
      ¬ CompareEqual {} false (coll {} .struct [contradiction])
        (coll {} .struct [contradiction]) := by
  refine ⟨List.nodup_singleton _, ?_⟩
  rintro ⟨⟨N, hN⟩, -⟩
  have hoverflow : compareNamedSigCrt {} false (N + 3) (coll {} .struct [contradiction])
      (some (coll {} .struct [contradiction])) = some .cdOverflow := rfl
  have hok := hN (N + 3) (Nat.le_add_right N 3)
  cases hoverflow.symm.trans hok

end Signature

end Loxim.QueryParser
