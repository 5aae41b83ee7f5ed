import Loxim.Protocol.PackageCodec

/-!
# What a client can make the server read

The counter keeps a package from taking more than its announced size. Nothing makes it take all
of it, and the packages of a collection need not take anything.
-/

namespace Loxim.Protocol

open Limited

def HeaderText (w : List Octet) (header : BitVec (8 * 1) × BitVec (8 * 4)) : Prop :=
  ∃ u u', NumberText 1 u header.1 ∧ NumberText 4 u' header.2 ∧ w = u ++ u'

def readHeader : Reader (BitVec (8 * 1) × BitVec (8 * 4)) := do
  let type ← readUint8
  let size ← readUint32
  return (type, size)

def PackageCodec.readBody (header : BitVec (8 * 1) × BitVec (8 * 4)) : Reader Item := do
  check .packageTooBig header.2.toNat
  allow header.2.toNat
  packageFactory header.2.toNat (UInt8.ofNat header.1.toNat)

theorem readPackage_eq (c : PackageCodec) (i : Input Octet) :
    c.readPackage i = (readHeader >>= PackageCodec.readBody) { i with length := c.limit } := by
  have hassoc : c.readPackage = (do
      allow c.limit
      readHeader >>= PackageCodec.readBody) := by
    simp only [PackageCodec.readPackage, readHeader, bind_assoc, pure_bind, PackageCodec.readBody]
  rw [hassoc]
  exact bind_ok (r := allow c.limit) rfl

theorem recognizes_readHeader : Recognizes readHeader (Format.leaf HeaderText) := by
  apply ((recognizes_readNumber 1).leaf_bind fun type =>
    recognizes_readUint32.leaf_bind fun size => leaf_pure (type, size)).leaf_congr
  intro w header
  constructor
  · rintro ⟨u, type, v, htype, ⟨u', size, v', hsize, ⟨rfl, rfl⟩, rfl⟩, rfl⟩
    rw [List.append_nil]
    exact ⟨u, u', htype, hsize, rfl⟩
  · rintro ⟨u, u', htype, hsize, rfl⟩
    exact ⟨u, _, u', htype, ⟨u', _, [], hsize, ⟨rfl, rfl⟩, (List.append_nil u').symm⟩, rfl⟩

/-- The type in the header. -/
def announcedType (os : List Octet) : UInt8 := UInt8.ofNat (readNetwork (received (os.take 1)))

/-- The size in the header. -/
def announced (os : List Octet) : Nat := readNetwork (received ((os.drop 1).take 4))

def start (os : List Octet) : Input Octet := ⟨os, 0, false, 0⟩

/-- A package that is returned has taken the header and the announced size. Not more is taken
in any case, the counter stays above zero, and not more packages are built in collections than
the size tells, which is within the limit. -/
structure Framed (c : PackageCodec) (os : List Octet) : Prop where
  taken : ∃ v, os = v ++ (c.readPackage (start os)).2.text ∧ v.length ≤ 5 + announced os ∧
    ∀ p, (c.readPackage (start os)).1 = .ok p → v.length = 5 + announced os
  counter : (c.readPackage (start os)).2.wrapped = false
  built : (c.readPackage (start os)).2.built ≤ announced os
  limited : announced os ≤ c.limit ∨
    (∃ e, (c.readPackage (start os)).1 = .error e) ∧ (c.readPackage (start os)).2.built = 0

/-- Within the announced size, a package of the type takes all of it, and neither it nor the
beginning of one has more packages in collections than the size tells. -/
def Fills (os : List Octet) : Prop :=
  ∀ w b o, packageFormat (announced os) (announcedType os) w b o → w <+: os.drop 5 →
    w.length ≤ announced os → b ≤ announced os ∧ (o ≠ none → w.length = announced os)

/-- The header is cut off, or more than the limit. -/
theorem framed_of_no_header {c : PackageCodec} {os : List Octet}
    (h : ¬ (5 ≤ os.length ∧ 5 ≤ c.limit)) : Framed c os := by
  have hrun := readPackage_eq c (start os)
  have hsteady := recognizes_readHeader.steady { start os with length := c.limit }
  rcases hheader : readHeader { start os with length := c.limit } with ⟨e | header, i⟩
  · obtain ⟨w, b, v, ⟨rfl, -⟩, htext, -, hlen, hbuilt⟩ := recognizes_readHeader.error hheader
    rw [bind_error hheader] at hrun
    rw [hheader] at hsteady
    have hall : os.length = v.length + i.text.length := by
      rw [← List.length_append]
      exact congrArg List.length htext
    have hlimit : v.length ≤ c.limit := hlen
    have hzero : i.built = 0 := hbuilt
    constructor
    · rw [hrun]
      refine ⟨v, htext, by omega, ?_⟩
      rintro p ⟨⟩
    · rw [hrun]
      exact hsteady
    · rw [hrun]
      exact hzero ▸ Nat.zero_le _
    · rw [hrun]
      exact .inr ⟨⟨e, rfl⟩, hzero⟩
  · -- five bytes have been taken after all
    obtain ⟨w, b, ⟨-, u, u', htype, hsize, rfl⟩, htext, hlen, -⟩ :=
      recognizes_readHeader.ok hheader
    have hall : os.length = (u ++ u').length + i.text.length := by
      rw [← List.length_append]
      exact congrArg List.length htext
    have hlimit : c.limit = (u ++ u').length + i.length := hlen
    rw [List.length_append, htype.1, hsize.1] at hall hlimit
    omega

/-- The run after the header. -/
theorem readPackage_of_header {c : PackageCodec} {i : Input Octet} (h : 5 ≤ i.text.length)
    (hlimit : 5 ≤ c.limit) : c.readPackage i =
      if c.limit - 5 < announced i.text then
        (.error .packageTooBig, ⟨i.text.drop 5, c.limit - 5, i.wrapped, i.built⟩)
      else packageFactory (announced i.text) (announcedType i.text)
        ⟨i.text.drop 5, announced i.text, i.wrapped, i.built⟩ := by
  obtain ⟨text, length, wrapped, built⟩ := i
  obtain ⟨type, htype⟩ : ∃ n, NumberText 1 (text.take 1) n :=
    ⟨_, List.length_take_of_le (Nat.le_trans (by decide) h), rfl⟩
  obtain ⟨size, hsize⟩ : ∃ n, NumberText 4 ((text.drop 1).take 4) n := by
    refine ⟨_, ?_, rfl⟩
    rw [List.length_take, List.length_drop]
    exact Nat.min_eq_left (Nat.le_sub_of_add_le h)
  have htext : HeaderText (text.take 5) (type, size) := ⟨text.take 1, (text.drop 1).take 4, htype,
    hsize, List.take_add (i := 1) (j := 4)⟩
  have hlen : (text.take 5).length = 5 := List.length_take_of_le h
  have hheader := recognizes_readHeader.complete ⟨rfl, htext⟩ (text.drop 5) c.limit wrapped built
    (hlen.symm ▸ hlimit)
  rw [List.take_append_drop, hlen] at hheader
  rw [readPackage_eq, bind_ok hheader]
  unfold PackageCodec.readBody
  have hannounced : size.toNat = announced text := hsize.toNat_eq
  rw [hannounced, htype.toNat_eq]
  by_cases hbig : c.limit - 5 < announced text
  · rw [if_pos hbig]
    exact bind_error (if_pos hbig)
  · rw [if_neg hbig]
    exact (bind_ok (if_neg hbig)).trans (bind_ok rfl)

/-- Reading is framed and bounded for the bytes that fill their size, and for no others. -/
theorem framed_iff (c : PackageCodec) (os : List Octet) : Framed c os ↔
    (5 ≤ os.length → announced os + 5 ≤ c.limit → Fills os) := by
  by_cases h : 5 ≤ os.length ∧ 5 ≤ c.limit
  · obtain ⟨hheader, hlimit⟩ := h
    have hrun : c.readPackage (start os) =
        if c.limit - 5 < announced os then
          (.error .packageTooBig, ⟨os.drop 5, c.limit - 5, false, 0⟩)
        else packageFactory (announced os) (announcedType os)
          ⟨os.drop 5, announced os, false, 0⟩ :=
      readPackage_of_header hheader hlimit
    have hlen : (os.take 5).length = 5 := List.length_take_of_le hheader
    by_cases hbig : c.limit - 5 < announced os
    · rw [if_pos hbig] at hrun
      constructor
      · intro _ _ hfits
        omega
      · intro _
        constructor
        · rw [hrun]
          refine ⟨os.take 5, (List.take_append_drop 5 os).symm, by omega, ?_⟩
          rintro p ⟨⟩
        · rw [hrun]
        · rw [hrun]
          exact Nat.zero_le _
        · rw [hrun]
          exact .inr ⟨⟨_, rfl⟩, rfl⟩
    · rw [if_neg hbig] at hrun
      have hr := recognizes_packageFactory (announced os) (announcedType os)
      constructor
      · -- a text of the format is what the run reads
        intro hframed _ _ w b o hF hpre hw
        obtain ⟨rest, hrest⟩ := hpre
        cases o with
        | none =>
          have hbegun := hr.begun hF rest (announced os) false 0 hw
          rw [hrest, ← hrun, Nat.zero_add] at hbegun
          exact ⟨Nat.le_trans hbegun hframed.built, fun hnone => absurd rfl hnone⟩
        | some p =>
          have hcomplete := hr.complete hF rest (announced os) false 0 hw
          rw [hrest, ← hrun] at hcomplete
          obtain ⟨v, hv, -, hall⟩ := hframed.taken
          have hbuilt := hframed.built
          have hall := hall p (by rw [hcomplete])
          rw [hcomplete] at hbuilt hv
          rw [Nat.zero_add] at hbuilt
          refine ⟨hbuilt, fun _ => ?_⟩
          have hos : os.length = v.length + rest.length := by
            rw [← List.length_append]
            exact congrArg List.length hv
          have hbody : (os.drop 5).length = w.length + rest.length := by
            rw [← List.length_append, hrest]
          rw [List.length_drop] at hbody
          omega
      · intro hfills
        have hfills := hfills hheader (by omega)
        have hsteady := hr.steady ⟨os.drop 5, announced os, false, 0⟩
        rcases hbody : packageFactory (announced os) (announcedType os)
          ⟨os.drop 5, announced os, false, 0⟩ with ⟨e | p, i⟩
        · obtain ⟨w, b, v, hF, htext, hpre, hv, hbuilt⟩ := hr.error hbody
          rw [hbody] at hrun hsteady
          have hw : w.length ≤ announced os := Nat.le_trans hpre.length_le hv
          obtain ⟨hb, -⟩ := hfills w b none hF (hpre.trans ⟨i.text, htext.symm⟩) hw
          have hzero : i.built = 0 + b := hbuilt
          constructor
          · rw [hrun]
            refine ⟨os.take 5 ++ v, ?_, ?_, ?_⟩
            · rw [List.append_assoc, ← htext, List.take_append_drop]
            · have hv : v.length ≤ announced os := hv
              rw [List.length_append]
              omega
            · rintro p ⟨⟩
          · rw [hrun]
            exact hsteady
          · rw [hrun]
            show i.built ≤ announced os
            omega
          · exact .inl (by omega)
        · obtain ⟨w, b, hF, htext, hlength, hbuilt⟩ := hr.ok hbody
          rw [hbody] at hrun hsteady
          have hsize : announced os = w.length + i.length := hlength
          have hzero : i.built = 0 + b := hbuilt
          obtain ⟨hb, hwhole⟩ := hfills w b (some p) hF ⟨i.text, htext.symm⟩ (by omega)
          have hwhole := hwhole (Option.some_ne_none p)
          constructor
          · rw [hrun]
            refine ⟨os.take 5 ++ w, ?_, ?_, ?_⟩
            · rw [List.append_assoc, ← htext, List.take_append_drop]
            · rw [List.length_append]
              omega
            · intro _ _
              rw [List.length_append]
              omega
          · rw [hrun]
            exact hsteady
          · rw [hrun]
            show i.built ≤ announced os
            omega
          · exact .inl (by omega)
  · constructor
    · intro _ hheader hfits
      exact absurd ⟨hheader, by omega⟩ h
    · exact fun _ => framed_of_no_header h

/-- A limit of a thousand bytes. -/
def codec : PackageCodec := ⟨1000, by decide⟩

def punctual (b : UInt8) : Octet := ⟨b, false, 0⟩

/-- A `ping` with three bytes in it. -/
def fullPing : List Octet := [128, 0, 0, 0, 3, 1, 2, 3].map punctual

/-- A `sendvalue` with a structure of 200 values without content. -/
def voids : List Octet := [33, 0, 0, 0, 5, 1, 0, 131, 200, 128].map punctual

/-- The bytes of the `ping` are left for the next package, and more is built from the `sendvalue`
than its five bytes. -/
theorem not_framed : ¬ Framed codec fullPing ∧ ¬ Framed codec voids := by
  constructor
  · intro h
    obtain ⟨v, hv, -, hall⟩ := h.taken
    have hleft : (codec.readPackage (start fullPing)).2.text = [1, 2, 3].map punctual := by
      decide +kernel
    have hok : (codec.readPackage (start fullPing)).1.toOption.isSome = true := by
      decide +kernel
    cases hresult : (codec.readPackage (start fullPing)).1 with
    | error e =>
      rw [hresult] at hok
      cases hok
    | ok p =>
      have hlen := congrArg List.length hv
      rw [hleft, List.length_append, hall p hresult] at hlen
      revert hlen
      decide +kernel
  · intro h
    have hbuilt := h.built
    revert hbuilt
    decide +kernel

end Loxim.Protocol
