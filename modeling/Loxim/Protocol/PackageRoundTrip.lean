import Loxim.Protocol.Framing

/-!
# Packages are read as they were written

A package that was written is read back when each read finds in its buffer what one call of the
stream has written. The format of a package and its calls go through the same parts in the same
order, so that this is shown part by part.
-/

namespace Loxim.Protocol

open Limited

-- ---------------------------------------------------------------------------
-- The packages of the protocol
-- ---------------------------------------------------------------------------

namespace Item

def HasStreamType (t : StreamType) : Item → Prop
  | .fixed size _ => t.size = some size
  | .varuint _ => t = .varuint
  | .bool _ => t = .bool
  | .bytes _ => t = .string
  | _ => False

mutual

/-- A package of the group: its fields are those of its class. The packages of a collection are
of one type if it takes them to be, and fewer than a `size_t` can count. -/
def Typed (group : List (UInt8 × Shape)) : Item → Prop
  | .generated type fields =>
    ∃ parts, shapeOf group type = some (.generated parts) ∧ FieldsTyped parts fields
  | .collection type sameType packages =>
    shapeOf group type = some .collection ∧ packages.length < 2 ^ 64 ∧
      (sameType = true → ∀ p ∈ packages, ∀ q ∈ packages, p.type = q.type) ∧
      PackagesTyped packages
  | _ => False

def FieldsTyped (parts : List Part) : List Item → Prop
  | [] => parts = []
  | f :: fs =>
    match parts with
    | [] => False
    | .stream t :: parts => f.HasStreamType t ∧ FieldsTyped parts fs
    | .packageMap :: parts => Typed dataShapes f ∧ FieldsTyped parts fs

def PackagesTyped : List Item → Prop
  | [] => True
  | p :: l => Typed dataShapes p ∧ PackagesTyped l

end

mutual

/-- A package as it is read back. An empty collection does not tell the type of its packages. -/
def asRead : Item → Item
  | .generated type fields => .generated type (asReadAll fields)
  | .collection type sameType packages =>
    .collection type (sameType && !packages.isEmpty) (asReadAll packages)
  | p => p

def asReadAll : List Item → List Item
  | [] => []
  | p :: l => asRead p :: asReadAll l

end

/-- `CollectionPackage::push_back`, which compares the pointers of the last two packages. -/
def pushBack : Item → Item → Item
  | .collection type sameType packages, p =>
    .collection type (sameType && packages.isEmpty) (packages ++ [p])
  | c, _ => c

theorem asReadAll_eq (l : List Item) : asReadAll l = l.map asRead := by
  induction l with
  | nil => rfl
  | cons p l ih => rw [asReadAll, List.map_cons, ih]

theorem packagesTyped_iff {l : List Item} : PackagesTyped l ↔ ∀ p ∈ l, p.Typed dataShapes := by
  induction l with
  | nil => simp [PackagesTyped]
  | cons p l ih => simp [PackagesTyped, ih]

/-- A collection that grows stays one of the protocol. -/
theorem Typed.pushBack {c p : Item} (hc : c.Typed dataShapes) (hp : p.Typed dataShapes)
    (hroom : ∀ type sameType packages, c = .collection type sameType packages →
      packages.length + 1 < 2 ^ 64) : (c.pushBack p).Typed dataShapes := by
  cases c with
  | collection type sameType packages =>
    obtain ⟨hshape, -, hsame, hpackages⟩ := hc
    refine ⟨hshape, ?_, ?_, ?_⟩
    · rw [List.length_append]
      exact hroom type sameType packages rfl
    · intro hflag
      have hempty : packages = [] := by
        rw [Bool.and_eq_true] at hflag
        exact List.isEmpty_iff.mp hflag.2
      subst hempty
      intro q hq q' hq'
      rw [List.nil_append, List.mem_singleton] at hq hq'
      rw [hq, hq']
    · rw [packagesTyped_iff] at hpackages ⊢
      intro q hq
      rcases List.mem_append.mp hq with hq | hq
      · exact hpackages q hq
      · exact List.mem_singleton.mp hq ▸ hp
  | generated | fixed | varuint | bool | bytes => exact hc

end Item

-- ---------------------------------------------------------------------------
-- What was written comes in
-- ---------------------------------------------------------------------------

/-- One read after another finds in its buffer what one call after another has written. -/
inductive Delivers : List (List UInt8) → List Octet → Prop
  | nil : Delivers [] []
  | cons (ws : List (List UInt8)) (o os : List Octet) (h : Delivers ws os) :
    Delivers (received o :: ws) (o ++ os)

theorem Delivers.length_eq {ws : List (List UInt8)} {os : List Octet} (h : Delivers ws os) :
    os.length = ws.flatten.length := by
  induction h with
  | nil => rfl
  | cons ws o os _ ih =>
    rw [List.flatten_cons, List.length_append, List.length_append, length_received, ih]

theorem delivers_append {ws ws' : List (List UInt8)} {os : List Octet} :
    Delivers (ws ++ ws') os ↔ ∃ o o', os = o ++ o' ∧ Delivers ws o ∧ Delivers ws' o' := by
  induction ws generalizing os with
  | nil =>
    constructor
    · intro h
      exact ⟨[], os, rfl, .nil, h⟩
    · rintro ⟨_, o', rfl, ⟨⟩, h⟩
      exact h
  | cons w ws ih =>
    constructor
    · rintro (_ | ⟨_, o, os, h⟩)
      obtain ⟨u, u', rfl, hu, hu'⟩ := ih.mp h
      exact ⟨o ++ u, u', (List.append_assoc ..).symm, .cons ws o u hu, hu'⟩
    · rintro ⟨_, o', rfl, _ | ⟨_, o, u, hu⟩, h⟩
      rw [List.append_assoc]
      exact .cons _ o _ (ih.mpr ⟨u, o', rfl, hu, h⟩)

theorem delivers_singleton {w : List UInt8} {os : List Octet} :
    Delivers [w] os ↔ received os = w := by
  constructor
  · rintro (_ | ⟨_, o, _, ⟨⟩⟩)
    rw [List.append_nil]
  · rintro rfl
    have h := Delivers.cons [] os [] .nil
    rwa [List.append_nil] at h

/-- So it is when no call is given to the reader in pieces. -/
theorem delivers_of_punctual {ws : List (List UInt8)} {oss : List (List Octet)}
    (h : List.Forall₂ (fun w o => o.map Octet.value = w ∧ ∀ x ∈ o.tail, x.late = false) ws oss) :
    Delivers ws oss.flatten := by
  induction h with
  | nil => exact .nil
  | @cons w o ws oss hfirst _ ih =>
    obtain ⟨rfl, hpunctual⟩ := hfirst
    rw [List.flatten_cons, ← received_of_punctual hpunctual]
    exact .cons ws o _ ih

/-- When the bytes written come in, the format stands for `a` through those texts, and no others,
that deliver what was written. -/
def Transfers {α : Type} (n : Nat) (F : Format Octet α) (a : α) (ws : List (List UInt8)) : Prop :=
  ∀ w t, w.length < n → ws.flatten <+: (w ++ t).map Octet.value →
    ((∃ b, F w b (some a)) ↔ Delivers ws w)

section
variable {α β : Type} {n m : Nat} {F : Format Octet α} {G : α → Format Octet β} {a : α} {b : β}
  {ws ws' : List (List UInt8)}

theorem Transfers.mono (h : Transfers n F a ws) (hle : m ≤ n) : Transfers m F a ws :=
  fun w t hw => h w t (Nat.lt_of_lt_of_le hw hle)

theorem transfers_pure (n : Nat) (a : α) : Transfers n (Format.pure a) a [] := by
  intro w t _ _
  constructor
  · rintro ⟨_, rfl, -⟩
    exact .nil
  · rintro ⟨⟩
    exact ⟨0, rfl, rfl, rfl⟩

theorem transfers_leaf {P : List Octet → α → Prop}
    (h : ∀ w t, ws.flatten <+: (w ++ t).map Octet.value → (P w a ↔ Delivers ws w)) :
    Transfers n (Format.leaf P) a ws := by
  intro w t _ hpre
  rw [← h w t hpre]
  exact ⟨fun ⟨_, _, hP⟩ => hP, fun hP => ⟨0, rfl, hP⟩⟩

theorem Transfers.build (h : Transfers n F a ws) : Transfers n F.build a ws := by
  intro w t hw hpre
  rw [← h w t hw hpre]
  constructor
  · rintro ⟨_, c, -, hF⟩
    exact ⟨c, hF⟩
  · rintro ⟨c, hF⟩
    exact ⟨c + 1, c, rfl, hF⟩

/-- One part after the other, when the whole tells what the first part stands for. -/
theorem Transfers.bind (hF : Transfers n F a ws) (hG : Transfers m (G a) b ws')
    (hle : n ≤ ws.flatten.length + m) (hfirst : ∀ x w c, G x w c (some b) → x = a) :
    Transfers n (F.bind G) b (ws ++ ws') := by
  intro w t hw hpre
  rw [List.flatten_append] at hpre
  -- the second part, once the first has been delivered
  have hsecond {v v' : List Octet} (hsplit : w = v ++ v') (hv : Delivers ws v) :
      (∃ c, G a v' c (some b)) ↔ Delivers ws' v' := by
    subst hsplit
    have hlen := hv.length_eq
    rw [List.length_append] at hw
    apply hG v' t (by omega)
    obtain ⟨z, hz⟩ := hpre
    rw [List.append_assoc, List.append_assoc, List.map_append] at hz
    obtain ⟨-, hrest⟩ := List.append_inj hz (by rw [List.length_map, hlen])
    exact ⟨z, hrest⟩
  have hthe {v v' : List Octet} (hsplit : w = v ++ v') :
      (∃ c, F v c (some a)) ↔ Delivers ws v := by
    subst hsplit
    rw [List.length_append] at hw
    apply hF v (v' ++ t) (by omega)
    rw [← List.append_assoc]
    exact (List.prefix_append _ _).trans hpre
  rw [delivers_append]
  constructor
  · rintro ⟨_, ⟨⟨⟩, -⟩ | ⟨v, c, x, v', c', hFv, hGv, hsplit, -⟩⟩
    obtain rfl := hfirst x v' c' hGv
    have hv := (hthe hsplit).mp ⟨c, hFv⟩
    exact ⟨v, v', hsplit, hv, (hsecond hsplit hv).mp ⟨c', hGv⟩⟩
  · rintro ⟨v, v', hsplit, hv, hv'⟩
    obtain ⟨c, hFv⟩ := (hthe hsplit).mpr hv
    obtain ⟨c', hGv⟩ := (hsecond hsplit hv).mpr hv'
    exact ⟨c + c', .inr ⟨v, c, a, v', c', hFv, hGv, hsplit, rfl⟩⟩

theorem Transfers.map (h : Transfers n F a ws) {g : α → β} (hg : ∀ x, g x = g a → x = a) :
    Transfers n (F.bind fun x => Format.pure (g x)) (g a) ws := by
  have hbind : Transfers n (F.bind fun x => Format.pure (g x)) (g a) (ws ++ []) := by
    apply h.bind (transfers_pure n (g a)) (Nat.le_add_left _ _)
    rintro x w c ⟨-, -, hx⟩
    exact hg x (Option.some.inj hx).symm
  rwa [List.append_nil] at hbind

theorem Transfers.cons {K : Format Octet (List α)} {l : List α} (h : Transfers n F a ws)
    (hl : Transfers n K l ws') :
    Transfers n (F.bind fun x => K.bind fun l => Format.pure (x :: l)) (a :: l) (ws ++ ws') := by
  apply h.bind (hl.map fun x hx => List.tail_eq_of_cons_eq hx) (Nat.le_add_left _ _)
  rintro x w c (⟨⟨⟩, -⟩ | ⟨_, _, _, _, _, -, ⟨-, -, hx⟩, -⟩)
  exact (List.head_eq_of_cons_eq (Option.some.inj hx)).symm

end

-- ---------------------------------------------------------------------------
-- Values
-- ---------------------------------------------------------------------------

theorem received_eq_singleton {w : List Octet} {x : UInt8} :
    received w = [x] ↔ ∃ o, w = [o] ∧ o.value = x := by
  constructor
  · intro h
    have hlen : w.length = 1 := by rw [← length_received, h]; rfl
    obtain ⟨o, rfl⟩ := List.length_eq_one_iff.mp hlen
    rw [received_singleton, List.cons.injEq] at h
    exact ⟨o, rfl, h.1⟩
  · rintro ⟨o, rfl, rfl⟩
    exact received_singleton o

theorem numberText_iff {size : Nat} {w : List Octet} {n : BitVec (8 * size)} :
    NumberText size w n ↔ Delivers [networkBytes size n.toNat] w := by
  rw [delivers_singleton]
  constructor
  · intro h
    rw [h.toNat_eq, ← h.1, ← length_received w, networkBytes_readNetwork]
  · intro h
    have hlen : w.length = size := by rw [← length_received, h, length_networkBytes]
    have hlt : n.toNat < 256 ^ size := by
      rw [← Nat.pow_mul 2 8 size]
      exact n.isLt
    refine ⟨hlen, BitVec.eq_of_toNat_eq ?_⟩
    rw [h, readNetwork_networkBytes hlt, BitVec.toNat_ofNat, Nat.mod_eq_of_lt n.isLt]

theorem VarUint.write_cases (v : VarUint) : (v = none ∧ v.write = [[250]]) ∨
    (∃ x : UInt8, x.toNat < 250 ∧ v = some (UInt64.ofNat x.toNat) ∧ v.write = [[x]]) ∨
    ∃ (code : UInt8) (size : Nat) (n : UInt64), v = some n ∧ (code.toNat, size) ∈ widths ∧
      v.write = [[code], networkBytes size n.toNat] ∧ n.toNat < 256 ^ size := by
  cases v with
  | none => exact .inl ⟨rfl, rfl⟩
  | some n =>
    right
    unfold VarUint.write
    dsimp only
    split_ifs with hsmall h2 h4
    · have hx : (UInt8.ofNat n.toNat).toNat = n.toNat :=
        UInt8.toNat_ofNat_of_lt' (Nat.lt_trans hsmall (by decide))
      refine .inl ⟨UInt8.ofNat n.toNat, by omega, ?_, rfl⟩
      rw [hx, UInt64.ofNat_toNat]
    · exact .inr ⟨251, 2, n, rfl, by decide, rfl, by omega⟩
    · exact .inr ⟨252, 4, n, rfl, by decide, rfl, by omega⟩
    · exact .inr ⟨253, 8, n, rfl, by decide, rfl, n.toNat_lt⟩

/-- The first byte tells how many follow. -/
theorem widths_functional {code size size' : Nat} (h : (code, size) ∈ widths)
    (h' : (code, size') ∈ widths) : size = size' := by
  simp only [widths, List.mem_cons, Prod.mk.injEq, List.not_mem_nil, or_false] at h h'
  omega

/-- Once the first byte is the one written, the rest follows. -/
theorem varuintRest_iff {v : VarUint} {code : UInt8} {ws : List (List UInt8)}
    (hwrite : v.write = [code] :: ws) {w : List Octet} :
    VaruintRest code.toNat w v ↔ Delivers ws w := by
  have hnil : Delivers [] w ↔ w = [] := by
    constructor
    · rintro ⟨⟩
      rfl
    · rintro rfl
      exact .nil
  rcases v.write_cases with ⟨rfl, h⟩ | ⟨x, hx, rfl, h⟩ | ⟨code', size, n, rfl, hcode, h, hn⟩
  · cases hwrite.symm.trans h
    rw [hnil]
    simp [VaruintRest]
  · cases hwrite.symm.trans h
    rw [hnil]
    constructor
    · rintro (⟨-, hw, -⟩ | ⟨hbad, -, -⟩ | ⟨hbad, -⟩)
      · exact hw
      · omega
      · simp only [widths, List.mem_cons, Prod.mk.injEq, List.not_mem_nil, or_false] at hbad
        omega
    · rintro rfl
      exact .inl ⟨hx, rfl, rfl⟩
  · cases hwrite.symm.trans h
    rw [delivers_singleton]
    constructor
    · rintro (⟨hbad, -, -⟩ | ⟨-, -, hbad⟩ | ⟨hsize, hval⟩)
      · simp only [widths, List.mem_cons, Prod.mk.injEq, List.not_mem_nil, or_false] at hcode
        omega
      · cases hbad
      · have hlen := widths_functional hsize hcode
        have hlt : readNetwork (received w) < 2 ^ 64 := by
          have hlt := readNetwork_lt (received w)
          rw [length_received, hlen] at hlt
          simp only [widths, List.mem_cons, Prod.mk.injEq, List.not_mem_nil, or_false] at hcode
          rcases hcode with ⟨-, rfl⟩ | ⟨-, rfl⟩ | ⟨-, rfl⟩
          · omega
          · omega
          · exact hlt
        have hn : n.toNat = readNetwork (received w) := by
          rw [Option.some.inj hval, UInt64.toNat_ofNat_of_lt' hlt]
        rw [hn, ← hlen, ← length_received w, networkBytes_readNetwork]
    · intro hw
      have hlen : w.length = size := by rw [← length_received, hw, length_networkBytes]
      refine .inr (.inr ⟨hlen ▸ hcode, ?_⟩)
      rw [hw, readNetwork_networkBytes hn, UInt64.ofNat_toNat]

theorem VarUint.write_cons (v : VarUint) : ∃ code ws, v.write = [code] :: ws := by
  rcases v.write_cases with ⟨-, h⟩ | ⟨x, -, -, h⟩ | ⟨code, size, n, -, -, h, -⟩
  · exact ⟨_, _, h⟩
  · exact ⟨_, _, h⟩
  · exact ⟨_, _, h⟩

theorem delivers_cons_singleton {code : UInt8} {ws : List (List UInt8)} {os : List Octet} :
    Delivers ([code] :: ws) os ↔ ∃ o w, os = o :: w ∧ o.value = code ∧ Delivers ws w := by
  have happend := @delivers_append [[code]] ws os
  rw [List.singleton_append] at happend
  rw [happend]
  constructor
  · rintro ⟨u, w, rfl, hu, hw⟩
    obtain ⟨o, rfl, ho⟩ := received_eq_singleton.mp (delivers_singleton.mp hu)
    exact ⟨o, w, rfl, ho, hw⟩
  · rintro ⟨o, w, rfl, ho, hw⟩
    exact ⟨[o], w, rfl, delivers_singleton.mpr (received_eq_singleton.mpr ⟨o, rfl, ho⟩), hw⟩

theorem varuintText_iff {v : VarUint} {w t : List Octet}
    (hpre : v.write.flatten <+: (w ++ t).map Octet.value) :
    VaruintText w v ↔ Delivers v.write w := by
  obtain ⟨code, ws, hwrite⟩ := v.write_cons
  rw [hwrite, delivers_cons_singleton]
  constructor
  · intro hv
    obtain ⟨o, u, rfl⟩ : ∃ o u, w = o :: u := by
      cases hv with
      | small o _ | null o _ => exact ⟨o, [], rfl⟩
      | wide o u _ => exact ⟨o, u, rfl⟩
    have ho : o.value = code := by
      rw [hwrite, List.flatten_cons, List.singleton_append, List.cons_append, List.map_cons,
        List.cons_prefix_cons] at hpre
      exact hpre.1.symm
    exact ⟨o, u, rfl, ho, (varuintRest_iff hwrite).mp (ho ▸ varuintText_cons.mp hv)⟩
  · rintro ⟨o, u, rfl, rfl, hu⟩
    exact varuintText_cons.mpr ((varuintRest_iff hwrite).mpr hu)

theorem bytesText_iff {b : ByteBuffer} {w t : List Octet}
    (hpre : b.write.flatten <+: (w ++ t).map Octet.value) :
    BytesText w b ↔ Delivers b.write w := by
  have hsize : (UInt64.ofNat b.getSize).toNat = b.data.length :=
    UInt64.toNat_ofNat_of_lt' (Nat.lt_trans b.small (by decide))
  unfold ByteBuffer.write at hpre ⊢
  rw [List.flatten_append] at hpre
  rw [delivers_append]
  constructor
  · rintro (⟨w, hv⟩ | ⟨u, u', n, b, hv, hlen, hdata⟩)
    · -- a null length is not what is written for an empty buffer
      rcases hv with _ | ⟨o, hnull⟩ | _
      have hempty : (VarUint.ofSize ByteBuffer.empty.getSize).write = [[0]] := by decide
      rw [hempty, List.flatten_singleton, List.singleton_append, List.cons_append, List.map_cons,
        List.cons_prefix_cons] at hpre
      rw [← hpre.1] at hnull
      cases hnull
    · have hn : n = UInt64.ofNat b.getSize := by
        rw [← UInt64.toNat_inj, hsize, hdata, length_received, hlen]
      subst hn
      rw [List.append_assoc] at hpre
      have hu := (varuintText_iff ((List.prefix_append _ _).trans hpre)).mp hv
      exact ⟨u, u', rfl, hu, delivers_singleton.mpr hdata.symm⟩
  · rintro ⟨u, u', rfl, hu, hu'⟩
    have hdata := delivers_singleton.mp hu'
    have hlen : u'.length = (UInt64.ofNat b.getSize).toNat := by
      rw [hsize, ← hdata, length_received]
    rw [List.append_assoc] at hpre
    have hv := (varuintText_iff ((List.prefix_append _ _).trans hpre)).mpr hu
    exact .bytes u u' _ b hv hlen hdata.symm

theorem transfers_stream {n : Nat} {t : StreamType} {p : Item} (h : p.HasStreamType t) :
    Transfers n (Format.leaf (StreamText t)) p p.body ∧ p.asRead = p := by
  cases p with
  | fixed size value =>
    refine ⟨transfers_leaf fun w s _ => ?_, rfl⟩
    rw [Item.body, ← numberText_iff]
    constructor
    · rintro (⟨_, _, _, _, _, hn⟩ | _ | _ | _)
      exact hn
    · exact .fixed t size w value h
  | varuint v =>
    obtain rfl : t = .varuint := h
    refine ⟨transfers_leaf fun w s hpre => ?_, rfl⟩
    rw [Item.body] at hpre ⊢
    rw [← varuintText_iff hpre]
    constructor
    · rintro (_ | ⟨_, _, hv⟩)
      exact hv
    · exact .varuint w v
  | bool v =>
    obtain rfl : t = .bool := h
    refine ⟨transfers_leaf fun w s hpre => ?_, rfl⟩
    rw [Item.body, List.flatten_singleton] at hpre
    rw [Item.body, delivers_singleton, received_eq_singleton]
    constructor
    · rintro (_ | _ | ⟨o⟩)
      rw [List.cons_append, List.map_cons, List.cons_prefix_cons] at hpre
      exact ⟨o, rfl, hpre.1.symm⟩
    · rintro ⟨o, rfl, ho⟩
      have hv : v = decide (o.value ≠ 0) := by
        rw [ho]
        cases v <;> rfl
      exact hv ▸ .bool o
  | bytes b =>
    obtain rfl : t = .string := h
    refine ⟨transfers_leaf fun w s hpre => ?_, rfl⟩
    rw [Item.body] at hpre ⊢
    rw [← bytesText_iff hpre]
    constructor
    · rintro (_ | _ | _ | ⟨_, _, hb⟩)
      exact hb
    · exact .string w b
  | generated | collection => cases h

-- ---------------------------------------------------------------------------
-- Packages
-- ---------------------------------------------------------------------------

theorem Item.type_asRead (p : Item) : p.asRead.type = p.type := by
  cases p with
  | fixed | varuint | bool | bytes | generated | collection => rfl

theorem replicate_length {α : Type} {F : Format Octet α} {n : Nat} {w : List Octet} {b : Nat}
    {l : List α} (h : F.replicate n w b (some l)) : l.length = n := by
  induction n generalizing w b l with
  | zero =>
    obtain ⟨-, -, hl⟩ := h
    cases hl
    rfl
  | succ n ih =>
    rcases h with ⟨⟨⟩, -⟩ | ⟨_, _, x, _, _, -, hrest, -⟩
    rcases hrest with ⟨⟨⟩, -⟩ | ⟨_, _, l', _, _, hl', ⟨-, -, hl⟩, -⟩
    cases hl
    rw [List.length_cons, ih hl']

/-- What is read has the type it is read as. -/
theorem type_of_format {nested : UInt8 → Format Octet Item} {group : List (UInt8 × Shape)}
    {id : UInt8} {w : List Octet} {b : Nat} {p : Item}
    (h : factoryFormat nested group id w b (some p)) : p.type = id := by
  unfold factoryFormat at h
  cases hshape : shapeOf group id with
  | none =>
    rw [hshape] at h
    obtain ⟨-, -, ⟨⟩⟩ := h
  | some shape =>
    rw [hshape] at h
    cases shape with
    | generated parts =>
      rcases h with ⟨⟨⟩, -⟩ | ⟨_, _, _, _, _, -, ⟨-, -, hp⟩, -⟩
      cases hp
      rfl
    | collection =>
      rcases h with ⟨⟨⟩, -⟩ | ⟨_, _, count, _, _, -, h, -⟩
      cases count with
      | none => obtain ⟨-, -, ⟨⟩⟩ := h
      | some count =>
        rcases h with ⟨⟨⟩, -⟩ | ⟨_, _, _, _, _, -, h, -⟩
        rcases h with ⟨⟨⟩, -⟩ | ⟨_, _, _, _, _, -, ⟨-, -, hp⟩, -⟩
        cases hp
        rfl

theorem type_of_dataFormat {depth : Nat} {id : UInt8} {w : List Octet} {b : Nat} {p : Item}
    (h : dataFormat depth id w b (some p)) : p.type = id := by
  cases depth with
  | zero => obtain ⟨-, -, ⟨⟩⟩ := h
  | succ depth => exact type_of_format h

/-- Whatever is nested in it, a package of a group transfers. -/
def TransfersIn (p : Item) : Prop :=
  ∀ group depth, p.Typed group →
    Transfers (depth + 1) (factoryFormat (dataFormat depth) group p.type) p.asRead p.body

theorem TransfersIn.data {p : Item} (h : TransfersIn p) (hp : p.Typed dataShapes) (depth : Nat) :
    Transfers depth (dataFormat depth p.type) p.asRead p.body := by
  cases depth with
  | zero => exact fun w t hw => absurd hw (Nat.not_lt_zero _)
  | succ depth => exact h dataShapes depth hp

theorem typed_shape {group : List (UInt8 × Shape)} {p : Item} (h : p.Typed group) :
    (∃ shape, shapeOf group p.type = some shape) ∧
      p.typeHolder = some (VarUint.ofType p.type) := by
  cases p with
  | generated type fields =>
    obtain ⟨parts, hshape, -⟩ := h
    exact ⟨⟨_, hshape⟩, rfl⟩
  | collection type sameType packages => exact ⟨⟨_, h.1⟩, rfl⟩
  | fixed | varuint | bool | bytes => cases h

/-- With its type before it, which the writer takes for a variable-length integer and the reader
for one byte. -/
theorem TransfersIn.unknown {p : Item} (h : TransfersIn p) (hp : p.Typed dataShapes)
    (depth : Nat) : Transfers (depth + 1) (unknownFormat (dataFormat depth)) p.asRead
      ((VarUint.ofType p.type).write ++ p.body) := by
  obtain ⟨⟨shape, hshape⟩, -⟩ := typed_shape hp
  have hsmall := shapeOf_small hshape
  have hlt : p.type.toNat < 2 ^ (8 * 1) := p.type.toNat_lt
  have hval : (UInt64.ofNat p.type.toNat).toNat = p.type.toNat :=
    UInt64.toNat_ofNat_of_lt' (Nat.lt_trans hlt (by decide))
  have hwrite : (VarUint.ofType p.type).write = [[p.type]] := by
    unfold VarUint.ofType VarUint.write
    dsimp only
    rw [hval, if_pos hsmall, UInt8.ofNat_toNat]
  have hbyte : networkBytes 1 (BitVec.ofNat (8 * 1) p.type.toNat).toNat = [p.type] := by
    rw [BitVec.toNat_ofNat, Nat.mod_eq_of_lt hlt]
    simp [networkBytes, Bytes.encode]
  have hid : Transfers (depth + 1) (Format.leaf (NumberText 1)) (BitVec.ofNat _ p.type.toNat)
      (VarUint.ofType p.type).write := by
    apply transfers_leaf
    intro w t _
    rw [numberText_iff, hbyte, hwrite]
  have hback : UInt8.ofNat (BitVec.ofNat (8 * 1) p.type.toNat).toNat = p.type := by
    rw [BitVec.toNat_ofNat, Nat.mod_eq_of_lt hlt, UInt8.ofNat_toNat]
  apply hid.bind (m := depth)
  · rw [hback]
    exact h.data hp depth
  · rw [hwrite]
    exact Nat.le_of_eq (Nat.add_comm depth 1)
  · intro x w c hx
    have hx := type_of_dataFormat hx
    rw [Item.type_asRead] at hx
    have hxlt : x.toNat < 2 ^ 8 := x.isLt
    apply BitVec.eq_of_toNat_eq
    rw [hx, BitVec.toNat_ofNat, UInt8.toNat_ofNat_of_lt' hxlt, Nat.mod_eq_of_lt hxlt]

theorem transfers_parts {fields : List Item} (h : ∀ p ∈ fields, TransfersIn p) {parts : List Part}
    (htyped : Item.FieldsTyped parts fields) (depth : Nat) :
    Transfers (depth + 1) (partsFormat (dataFormat depth) parts) (fields.map Item.asRead)
      (Item.bodies true fields) := by
  induction fields generalizing parts with
  | nil =>
    obtain rfl : parts = [] := htyped
    exact transfers_pure _ []
  | cons p fields ih =>
    have ih {parts : List Part} := @ih (fun q hq => h q (List.mem_cons_of_mem p hq)) parts
    cases parts with
    | nil => cases htyped
    | cons part parts =>
      cases part with
      | stream t =>
        obtain ⟨htype, hrest⟩ := htyped
        obtain ⟨hp, hread⟩ := @transfers_stream (depth + 1) t p htype
        have hbodies : Item.bodies true (p :: fields) = p.body ++ Item.bodies true fields := by
          cases p with
          | fixed | varuint | bool | bytes => rfl
          | generated | collection => cases htype
        rw [hbodies, List.map_cons, hread]
        exact hp.cons (ih hrest)
      | packageMap =>
        obtain ⟨hdata, hrest⟩ := htyped
        have hbodies : Item.bodies true (p :: fields) =
            ((VarUint.ofType p.type).write ++ p.body) ++ Item.bodies true fields := by
          rw [Item.bodies, (typed_shape hdata).2]
          rfl
        rw [hbodies, List.map_cons]
        exact ((h p List.mem_cons_self).unknown hdata depth).cons (ih hrest)

/-- One turn of the loop for each package. -/
theorem transfers_elements {l : List Item} (h : ∀ p ∈ l, TransfersIn p)
    (htyped : ∀ p ∈ l, p.Typed dataShapes) {sameType : Bool} {globalType : VarUint}
    (hnone : sameType = false → globalType = none)
    (hsome : sameType = true → ∀ p ∈ l, globalType = VarUint.ofType p.type) (depth : Nat) :
    Transfers depth ((elementFormat (dataFormat depth) globalType).build.replicate l.length)
      (l.map Item.asRead) (Item.bodies (!sameType) l) := by
  induction l with
  | nil => exact transfers_pure _ []
  | cons p l ih =>
    have hp := h p List.mem_cons_self
    have hptyped := htyped p List.mem_cons_self
    have hrest := ih (fun q hq => h q (List.mem_cons_of_mem p hq))
      (fun q hq => htyped q (List.mem_cons_of_mem p hq))
      (fun hflag q hq => hsome hflag q (List.mem_cons_of_mem p hq))
    suffices helement : Transfers depth (elementFormat (dataFormat depth) globalType) p.asRead
        ((if !sameType then (p.typeHolder.map VarUint.write).getD [] else []) ++ p.body) from
      helement.build.cons hrest
    cases sameType with
    | false =>
      rw [hnone rfl, (typed_shape hptyped).2]
      exact (hp.unknown hptyped depth).mono (Nat.le_succ depth)
    | true =>
      have hlt : p.type.toNat < 2 ^ 8 := p.type.toNat_lt
      have hval : (UInt64.ofNat p.type.toNat).toNat = p.type.toNat :=
        UInt64.toNat_ofNat_of_lt' (Nat.lt_trans hlt (by decide))
      rw [hsome rfl p List.mem_cons_self]
      unfold elementFormat VarUint.ofType
      dsimp only
      rw [hval, if_neg (by omega), UInt8.ofNat_toNat]
      exact hp.data hptyped depth

theorem transfers_varuint (n : Nat) (v : VarUint) :
    Transfers n (Format.leaf VaruintText) v v.write :=
  transfers_leaf fun _ _ hpre => varuintText_iff hpre

theorem VarUint.write_pos (v : VarUint) : 0 < v.write.flatten.length := by
  obtain ⟨code, ws, h⟩ := v.write_cons
  rw [h, List.flatten_cons, List.length_append]
  exact Nat.lt_of_lt_of_le Nat.one_pos (Nat.le_add_right _ _)

/-- What a collection is read as tells the type that was read for its packages. -/
theorem globalType_of_format {depth : Nat} {sameType : Bool} {packages : List Item} {x : VarUint}
    {count : Nat} {id : UInt8} {w : List Octet} {c : Nat}
    (h : (((elementFormat (dataFormat depth) x).build.replicate count).bind fun l =>
        Format.pure (Item.collection id x.isSome l)) w c
      (some (.collection id (sameType && !packages.isEmpty) (packages.map Item.asRead)))) :
    x = Item.globalType sameType packages := by
  rcases h with ⟨⟨⟩, -⟩ | ⟨v, b, l, _, _, hl, ⟨-, -, hp⟩, -⟩
  obtain ⟨-, hflag, rfl⟩ := Item.collection.inj (Option.some.inj hp)
  cases x with
  | none =>
    cases packages with
    | nil => rfl
    | cons p packages =>
      obtain rfl : sameType = false := by simpa using hflag
      rfl
  | some t =>
    cases packages with
    | nil => simp at hflag
    | cons p packages =>
      obtain rfl : sameType = true := by simpa using hflag
      cases count with
      | zero => obtain ⟨-, -, ⟨⟩⟩ := hl
      | succ count =>
        -- the first package has been read as of type `t`
        rcases hl with ⟨⟨⟩, -⟩ | ⟨_, _, q, _, _, hq, hrest, -⟩
        rcases hrest with ⟨⟨⟩, -⟩ | ⟨_, _, _, _, _, -, ⟨-, -, hcons⟩, -⟩
        obtain ⟨rfl, -⟩ := List.cons.inj (Option.some.inj hcons)
        obtain ⟨_, -, hq⟩ := hq
        unfold elementFormat at hq
        dsimp only at hq
        split at hq
        · obtain ⟨-, -, ⟨⟩⟩ := hq
        · rename_i hbound
          have htype := type_of_dataFormat hq
          rw [Item.type_asRead] at htype
          have hlt : t.toNat < 2 ^ 8 := by omega
          have hval : (UInt8.ofNat t.toNat).toNat = t.toNat := UInt8.toNat_ofNat_of_lt' hlt
          show some t = some (UInt64.ofNat p.type.toNat)
          rw [htype, hval, UInt64.ofNat_toNat]

theorem transfers_collection {packages : List Item} (h : ∀ p ∈ packages, TransfersIn p)
    (htyped : ∀ p ∈ packages, p.Typed dataShapes) (hlen : packages.length < 2 ^ 64)
    {sameType : Bool} (hsame : sameType = true → ∀ p ∈ packages, ∀ q ∈ packages, p.type = q.type)
    (id : UInt8) (depth : Nat) :
    Transfers (depth + 1) (collectionFormat (dataFormat depth) id)
      (Item.collection id sameType packages).asRead
      (Item.collection id sameType packages).body := by
  have hcount : (UInt64.ofNat packages.length).toNat = packages.length :=
    UInt64.toNat_ofNat_of_lt' hlen
  have helements : Transfers depth ((elementFormat (dataFormat depth)
      (Item.globalType sameType packages)).build.replicate packages.length)
      (packages.map Item.asRead) (Item.bodies (!sameType) packages) := by
    cases packages with
    | nil => exact transfers_pure _ []
    | cons p packages =>
      apply transfers_elements h htyped
      · rintro rfl
        rfl
      · intro hflag q hq
        rw [hsame hflag q hq p List.mem_cons_self, hflag]
        rfl
  have hflag : (Item.globalType sameType packages).isSome = (sameType && !packages.isEmpty) := by
    cases packages with
    | nil => simp [Item.globalType]
    | cons p packages => cases sameType <;> rfl
  rw [Item.asRead, Item.asReadAll_eq, Item.body, List.append_assoc]
  apply (transfers_varuint _ (VarUint.ofSize packages.length)).bind (m := depth)
  · -- after the number of packages
    unfold packagesFormat VarUint.ofSize
    dsimp only
    rw [hcount]
    apply (transfers_varuint _ (Item.globalType sameType packages)).bind (m := depth)
    · rw [hflag]
      apply helements.map (g := fun l => Item.collection id (sameType && !packages.isEmpty) l)
      intro l hl
      exact (Item.collection.inj hl).2.2
    · exact Nat.le_add_left _ _
    · intro x w c hx
      exact globalType_of_format hx
  · have hpos := (VarUint.ofSize packages.length).write_pos
    omega
  · intro x w c hx
    cases x with
    | none => obtain ⟨-, -, ⟨⟩⟩ := hx
    | some x =>
      rcases hx with ⟨⟨⟩, -⟩ | ⟨_, _, _, _, _, -, hx, -⟩
      rcases hx with ⟨⟨⟩, -⟩ | ⟨_, _, l, _, _, hl, ⟨-, -, hp⟩, -⟩
      obtain ⟨-, -, rfl⟩ := Item.collection.inj (Option.some.inj hp)
      have hx := replicate_length hl
      rw [List.length_map] at hx
      rw [VarUint.ofSize, hx, UInt64.ofNat_toNat]

theorem transfersIn (p : Item) : TransfersIn p := by
  induction p with
  | generated type fields ih =>
    rintro group depth ⟨parts, hshape, htyped⟩
    have hparts := transfers_parts ih htyped depth
    rw [Item.asRead, Item.asReadAll_eq, Item.body]
    have hformat : factoryFormat (dataFormat depth) group type =
        (partsFormat (dataFormat depth) parts).bind fun fields =>
          Format.pure (.generated type fields) := by
      unfold factoryFormat
      rw [hshape]
    rw [Item.type, hformat]
    apply hparts.map
    intro l hl
    exact (Item.generated.inj hl).2
  | collection type sameType packages ih =>
    rintro group depth ⟨hshape, hlen, hsame, htyped⟩
    have hformat : factoryFormat (dataFormat depth) group type =
        collectionFormat (dataFormat depth) type := by
      unfold factoryFormat
      rw [hshape]
    rw [Item.type, hformat]
    exact transfers_collection ih (Item.packagesTyped_iff.mp htyped) hlen hsame type depth
  | fixed | varuint | bool | bytes =>
    rintro group depth ⟨⟩

-- ---------------------------------------------------------------------------
-- A stream of packages
-- ---------------------------------------------------------------------------

/-- A package of the protocol that fits the limit, and the bytes it is written as, as they come
in. -/
def Sent (c : PackageCodec) (s : Item × List Octet) : Prop :=
  s.1.Typed shapes ∧ s.1.getSerSize + 5 ≤ c.limit ∧ s.2.map Octet.value = s.1.serialize.flatten

/-- Each package is read back from its own bytes. -/
def ReadsBack (c : PackageCodec) : List (Item × List Octet) → Input Octet → Prop
  | [], _ => True
  | s :: l, i => ∃ i', c.readPackage i = (.ok s.1.asRead, i') ∧ i.text = s.2 ++ i'.text ∧
    ReadsBack c l i'

/-- Each read of the body finds in its buffer what was written. The size it finds in the header
is at least that of the body and within the limit. -/
def Undisturbed (c : PackageCodec) (s : Item × List Octet) : Prop :=
  s.1.body.flatten.length ≤ announced s.2 ∧ announced s.2 + 5 ≤ c.limit ∧
    Delivers s.1.body (s.2.drop 5)

/-- The bytes of the header and then those of the body. -/
theorem Sent.split {c : PackageCodec} {s : Item × List Octet} (h : Sent c s) :
    ∃ o u, s.2 = o :: u ++ s.2.drop 5 ∧ u.length = 4 ∧ o.value = s.1.type ∧
      (s.2.drop 5).map Octet.value = s.1.body.flatten := by
  obtain ⟨-, -, hbytes⟩ := h
  have hlen := congrArg List.length hbytes
  rw [Item.serialize, List.flatten_cons, List.flatten_cons, List.length_map, List.length_append,
    List.length_append, length_networkBytes, List.length_singleton] at hlen
  obtain ⟨p, os⟩ := s
  cases os with
  | nil => simp only [List.length_nil] at hlen; omega
  | cons o os =>
    have hdrop := congrArg (List.drop 5) hbytes
    have hfive : (5 : Nat) = ([p.type] ++ networkBytes 4 p.getSerSize).length := by
      rw [List.length_append, length_networkBytes, List.length_singleton]
    rw [Item.serialize, List.flatten_cons, List.flatten_cons, ← List.append_assoc, ← List.map_drop,
      hfive, List.drop_left, ← hfive] at hdrop
    rw [Item.serialize, List.flatten_cons, List.singleton_append, List.map_cons,
      List.cons.injEq] at hbytes
    refine ⟨o, os.take 4, ?_, ?_, hbytes.1, hdrop⟩
    · show o :: os = o :: os.take 4 ++ os.drop 4
      rw [List.cons_append, List.take_append_drop]
    · simp only [List.length_cons] at hlen
      exact List.length_take_of_le (by omega)

theorem package_reads_back {c : PackageCodec} {s : Item × List Octet} (hs : Sent c s)
    {i : Input Octet} {rest : List Octet} (hi : i.text = s.2 ++ rest) :
    (∃ i', c.readPackage i = (.ok s.1.asRead, i') ∧ i'.text = rest) ↔ Undisturbed c s := by
  obtain ⟨o, u, hsplit, hu, ho, hbody⟩ := hs.split
  obtain ⟨htyped, hfits, -⟩ := hs
  have hlen : (o :: u).length = 5 := by rw [List.length_cons, hu]
  have htext : i.text = o :: u ++ (s.2.drop 5 ++ rest) := by
    rw [hi, ← List.append_assoc, ← hsplit]
  have hannounced : announced i.text = announced s.2 := by
    rw [htext, hsplit]
    unfold announced
    rw [List.cons_append, List.cons_append, List.drop_one, List.drop_one, List.tail_cons,
      List.tail_cons, ← hu, List.take_left, List.take_left]
  have htype : announcedType i.text = s.1.type := by
    rw [htext]
    have hone := o.value.toNat_lt
    show UInt8.ofNat (readNetwork [o.value]) = s.1.type
    rw [← ho]
    simp [readNetwork, Bytes.decode]
  have hdrop : i.text.drop 5 = s.2.drop 5 ++ rest := by rw [htext, ← hlen, List.drop_left]
  have hrun := @readPackage_of_header c i (by rw [htext, List.length_append]; omega) (by omega)
  rw [hannounced, htype, hdrop] at hrun
  have hr := recognizes_packageFactory (announced s.2) s.1.type
  have htransfers := transfersIn s.1 shapes (announced s.2) htyped
  have hwritten : s.1.body.flatten <+: (s.2.drop 5 ++ rest).map Octet.value := by
    rw [List.map_append, hbody]
    exact List.prefix_append _ _
  have hsize : (s.2.drop 5).length = s.1.body.flatten.length := by rw [← hbody, List.length_map]
  constructor
  · rintro ⟨i', hread, hrest⟩
    rw [hread] at hrun
    split at hrun
    · cases hrun
    · obtain ⟨w, b, hF, hw, hlength, -⟩ := hr.ok hrun.symm
      obtain rfl : s.2.drop 5 = w := by
        rw [hrest] at hw
        exact List.append_cancel_right hw
      have hlength : announced s.2 = (s.2.drop 5).length + i'.length := hlength
      have hbound : (s.2.drop 5).length < announced s.2 + 1 := by omega
      exact ⟨by omega, by omega, (htransfers _ rest hbound hwritten).mp ⟨b, hF⟩⟩
  · rintro ⟨hroom, hlimit, hdelivers⟩
    have hbound : (s.2.drop 5).length < announced s.2 + 1 := by omega
    obtain ⟨b, hF⟩ := (htransfers _ rest hbound hwritten).mpr hdelivers
    have hcomplete := hr.complete hF rest (announced s.2) i.wrapped i.built (by omega)
    rw [if_neg (by omega), hcomplete] at hrun
    exact ⟨_, hrun, rfl⟩

/-- So it is when no read is given less than it asks for. -/
theorem undisturbed_of_punctual {c : PackageCodec} {s : Item × List Octet} (hs : Sent c s)
    (oss : List (List Octet)) (hos : s.2 = oss.flatten)
    (h : List.Forall₂ (fun w o => o.map Octet.value = w ∧ ∀ x ∈ o.tail, x.late = false)
      s.1.serialize oss) : Undisturbed c s := by
  obtain ⟨-, hfits, -⟩ := hs
  obtain ⟨p, os⟩ := s
  obtain rfl : os = oss.flatten := hos
  obtain ⟨ot, _, ⟨htype, -⟩, h, rfl⟩ := List.forall₂_cons_left_iff.mp h
  obtain ⟨on, oss, ⟨hsize, hpunctual⟩, hbody, rfl⟩ := List.forall₂_cons_left_iff.mp h
  have hone : ot.length = 1 := by rw [← List.length_map Octet.value, htype]; rfl
  have hfour : on.length = 4 := by rw [← List.length_map Octet.value, hsize, length_networkBytes]
  have hfive : (ot ++ on).length = 5 := by rw [List.length_append, hone, hfour]
  have hannounced : announced ((ot :: on :: oss).flatten) = p.getSerSize := by
    have hlimit := c.small
    have hlt : p.getSerSize < 256 ^ 4 := by
      have hfits : p.getSerSize + 5 ≤ c.limit := hfits
      omega
    unfold announced
    rw [List.flatten_cons, ← hone, List.drop_left, List.flatten_cons, ← hfour, List.take_left,
      received_of_punctual hpunctual, hsize, readNetwork_networkBytes hlt]
  refine ⟨?_, ?_, ?_⟩
  · exact hannounced.symm ▸ p.getSerSize_spec.1
  · exact hannounced.symm ▸ hfits
  · show Delivers p.body ((ot :: on :: oss).flatten.drop 5)
    rw [List.flatten_cons, List.flatten_cons, ← List.append_assoc, ← hfive, List.drop_left]
    exact delivers_of_punctual hbody

/-- Any sequence of packages is read back, one after another, when none of them is disturbed on
the way, and only then. -/
theorem packages_read_back (c : PackageCodec) (l : List (Item × List Octet))
    (hl : ∀ s ∈ l, Sent c s) (i : Input Octet) (rest : List Octet)
    (hi : i.text = (l.map Prod.snd).flatten ++ rest) :
    ReadsBack c l i ↔ ∀ s ∈ l, Undisturbed c s := by
  induction l generalizing i with
  | nil => simp [ReadsBack]
  | cons s l ih =>
    rw [List.map_cons, List.flatten_cons, List.append_assoc] at hi
    have hfirst := package_reads_back (hl s List.mem_cons_self) hi
    have hrest := ih fun q hq => hl q (List.mem_cons_of_mem s hq)
    rw [List.forall_mem_cons, ← hfirst]
    constructor
    · rintro ⟨i', hread, htext, hback⟩
      have htext : i'.text = (l.map Prod.snd).flatten ++ rest :=
        List.append_cancel_left (htext.symm.trans hi)
      exact ⟨⟨i', hread, htext⟩, (hrest i' htext).mp hback⟩
    · rintro ⟨⟨i', hread, htext⟩, hundisturbed⟩
      exact ⟨i', hread, htext ▸ hi, (hrest i' htext).mpr hundisturbed⟩

/-- A value that holds a bag of a number and nothing. -/
def mixedBag : Item :=
  .generated 33 [.varuint (some 300), .fixed 1 0,
    .collection 132 false [.generated 1 [.fixed 1 5], .generated 128 []]]

theorem mixedBag_sent : Sent codec (mixedBag, mixedBag.serialize.flatten.map punctual) := by
  have hshapes : shapeOf shapes 33 =
      some (.generated [.stream .varuint, .stream .uint8, .packageMap]) ∧
      shapeOf dataShapes 132 = some .collection ∧
      shapeOf dataShapes 1 = some (.generated [.stream .uint8]) ∧
      shapeOf dataShapes 128 = some (.generated []) := by
    decide +kernel
  obtain ⟨hvalue, hbag, hnumber, hvoid⟩ := hshapes
  refine ⟨⟨_, hvalue, rfl, rfl, ⟨hbag, by decide, ?_, ⟨_, hnumber, rfl, rfl⟩, ⟨_, hvoid, rfl⟩, trivial⟩,
    rfl⟩, by decide, ?_⟩
  · rintro ⟨⟩
  · rw [List.map_map]
    exact List.map_id _

theorem mixedBag_reads_back : ReadsBack codec
    [(mixedBag, mixedBag.serialize.flatten.map punctual)]
    (start (mixedBag.serialize.flatten.map punctual)) := by
  have hall : ∀ s ∈ [(mixedBag, mixedBag.serialize.flatten.map punctual)], Sent codec s :=
    List.forall_mem_singleton.mpr mixedBag_sent
  apply (packages_read_back codec _ hall _ [] rfl).mpr
  intro s hs
  obtain rfl := List.mem_singleton.mp hs
  apply undisturbed_of_punctual mixedBag_sent (mixedBag.serialize.map (List.map punctual))
  · exact List.map_flatten
  · apply List.forall₂_map_right_iff.mpr
    apply List.forall₂_same.mpr
    intro w _
    constructor
    · rw [List.map_map]
      exact List.map_id _
    · intro x hx
      obtain ⟨y, -, rfl⟩ := List.mem_map.mp (List.mem_of_mem_tail hx)
      rfl

/-- The parsed statement number 1, whose number comes in two pieces. -/
def splitStatement : Item × List Octet :=
  (.generated 65 [.fixed 8 1, .fixed 4 2],
    [⟨65, false, 0⟩, ⟨0, false, 0⟩, ⟨0, false, 0⟩, ⟨0, false, 0⟩, ⟨12, false, 0⟩, ⟨0, false, 0⟩,
      ⟨0, false, 0⟩, ⟨0, false, 0⟩, ⟨0, false, 0⟩, ⟨0, true, 0⟩, ⟨0, false, 0⟩, ⟨0, false, 0⟩,
      ⟨1, false, 0⟩, ⟨0, false, 0⟩, ⟨0, false, 0⟩, ⟨0, false, 0⟩, ⟨2, false, 0⟩])

/-- Its last four bytes take the place of the first four. -/
theorem splitStatement_garbled : Sent codec splitStatement ∧
    ¬ ReadsBack codec [splitStatement] (start splitStatement.2) := by
  have hshape : shapeOf shapes 65 = some (.generated [.stream .uint64, .stream .uint32]) := by
    decide +kernel
  constructor
  · exact ⟨⟨_, hshape, rfl, rfl, rfl⟩, by decide, by decide⟩
  · rintro ⟨i', hread, -⟩
    have hbody : (codec.readPackage (start splitStatement.2)).1.toOption.map Item.body =
        some splitStatement.1.asRead.body := by
      rw [hread]
      rfl
    revert hbody
    decide +kernel

end Loxim.Protocol
