import Loxim.Lib.Memory

/-!
# Records one after another

Records of different lengths that stand one after another in memory. Each of them can be
read, changed in its place, added behind the last and taken out by moving the rest down.
-/

namespace Loxim

/-- The bytes from `k` on are replaced. -/
def patch (e : List UInt8) (k : Nat) (bs : List UInt8) : List UInt8 :=
  e.take k ++ bs ++ e.drop (k + bs.length)

/-- The records stand one after another from `p` on. -/
def Packed (m : Memory) (p : Nat) (es : List (List UInt8)) : Prop :=
  m.readBytes p es.flatten.length = es.flatten

variable {m m' : Memory} {p q n k : Nat} {e e' bs : List UInt8} {l r : List (List UInt8)}

theorem length_patch (h : k + bs.length ≤ e.length) : (patch e k bs).length = e.length := by
  simp only [patch, List.length_append, List.length_take, List.length_drop]
  omega

/-- A part of the bytes before the place. -/
theorem take_patch (h : n ≤ k) (hk : k ≤ e.length) : (patch e k bs).take n = e.take n := by
  rw [patch, List.append_assoc, List.take_append_of_le_length (by simp; omega), List.take_take,
    Nat.min_eq_left h]

theorem packed_nil : Packed m p [] := by simp [Packed, Memory.readBytes]

theorem packed_append :
    Packed m p (l ++ r) ↔ Packed m p l ∧ Packed m (p + l.flatten.length) r := by
  rw [Packed, Packed, Packed, List.flatten_append, List.length_append, Memory.readBytes_add]
  constructor
  · intro h
    exact List.append_inj h Memory.length_readBytes
  · rintro ⟨hl, hr⟩
    rw [hl, hr]

theorem packed_singleton : Packed m p [e] ↔ m.readBytes p e.length = e := by
  rw [Packed, List.flatten_cons, List.flatten_nil, List.append_nil]

/-- One record, with those before and behind it. -/
theorem packed_middle : Packed m p (l ++ e :: r) ↔ Packed m p l ∧
    m.readBytes (p + l.flatten.length) e.length = e ∧
    Packed m (p + l.flatten.length + e.length) r := by
  rw [packed_append, ← List.singleton_append, packed_append, packed_singleton, List.flatten_cons,
    List.flatten_nil, List.append_nil]

/-- What is written elsewhere does not matter. -/
theorem Packed.congr (h : Packed m p l)
    (heq : ∀ i < l.flatten.length, m' (q + i) = m (p + i)) : Packed m' q l := by
  rw [Packed, ← h]
  simp only [Memory.length_readBytes]
  exact Memory.readBytes_congr heq

theorem Packed.frame (h : Packed m p l)
    (heq : ∀ x, p ≤ x → x < p + l.flatten.length → m' x = m x) : Packed m' p l :=
  h.congr fun i hi => heq (p + i) (Nat.le_add_right p i) (Nat.add_lt_add_left hi p)

/-- The bytes of a record in three parts. -/
theorem readBytes_parts (h : m.readBytes q e.length = e) (hk : k + n ≤ e.length) :
    e.take k = m.readBytes q k ∧ (e.drop k).take n = m.readBytes (q + k) n ∧
      e.drop (k + n) = m.readBytes (q + k + n) (e.length - (k + n)) := by
  have hsplit : m.readBytes q k ++ (m.readBytes (q + k) n ++
      m.readBytes (q + k + n) (e.length - (k + n))) = e := by
    rw [← Memory.readBytes_add, ← Memory.readBytes_add, ← Nat.add_assoc, Nat.add_sub_cancel' hk, h]
  have hrest : e.drop k = m.readBytes (q + k) n ++ m.readBytes (q + k + n) (e.length - (k + n)) := by
    conv_lhs => rw [← hsplit]
    rw [List.drop_left' Memory.length_readBytes]
  refine ⟨?_, ?_, ?_⟩
  · conv_lhs => rw [← hsplit]
    rw [List.take_left' Memory.length_readBytes]
  · rw [hrest, List.take_left' Memory.length_readBytes]
  · rw [← List.drop_drop, hrest, List.drop_left' Memory.length_readBytes]

theorem Packed.read (h : Packed m p (l ++ e :: r)) :
    m.readBytes (p + l.flatten.length) e.length = e :=
  (packed_middle.mp h).2.1

/-- A part of a record. -/
theorem Packed.readPart (h : Packed m p (l ++ e :: r)) (hk : k + n ≤ e.length) :
    m.readBytes (p + l.flatten.length + k) n = (e.drop k).take n :=
  (readBytes_parts h.read hk).2.1.symm

theorem Packed.push (h : Packed m p l) :
    Packed (m.writeBytes (p + l.flatten.length) e) p (l ++ [e]) := by
  refine packed_append.mpr ⟨h.frame fun x _ hx => Memory.writeBytes_of_out (by omega), ?_⟩
  exact packed_singleton.mpr Memory.readBytes_writeBytes_self

/-- The records behind one are moved down over it. -/
theorem Packed.remove (h : Packed m p (l ++ e :: r)) :
    Packed (m.move (p + l.flatten.length + e.length) (p + l.flatten.length) r.flatten.length) p
      (l ++ r) := by
  obtain ⟨hl, -, hr⟩ := packed_middle.mp h
  refine packed_append.mpr ⟨hl.frame fun x _ hx => Memory.move_of_out (by omega), ?_⟩
  exact hr.congr fun i hi => Memory.move_add hi

theorem writeBytes_patch (h : m.readBytes q e.length = e) (hk : k + bs.length ≤ e.length) :
    (m.writeBytes (q + k) bs).readBytes q e.length = patch e k bs := by
  obtain ⟨htake, -, hdrop⟩ := readBytes_parts h hk
  have hbefore : (m.writeBytes (q + k) bs).readBytes q k = m.readBytes q k :=
    Memory.readBytes_writeBytes_of_disjoint (.inl (Nat.le_refl _))
  have hbehind : (m.writeBytes (q + k) bs).readBytes (q + k + bs.length)
      (e.length - (k + bs.length)) = m.readBytes (q + k + bs.length) (e.length - (k + bs.length)) :=
    Memory.readBytes_writeBytes_of_disjoint (.inr (Nat.le_refl _))
  have hlen : e.length = k + (bs.length + (e.length - (k + bs.length))) := by omega
  rw [patch, htake, hdrop, ← hbefore, ← hbehind]
  conv_lhs => rw [hlen]
  rw [Memory.readBytes_add, Memory.readBytes_add, Memory.readBytes_writeBytes_self,
    List.append_assoc]

/-- Some bytes of a record are written over. -/
theorem Packed.patch (h : Packed m p (l ++ e :: r)) (hk : k + bs.length ≤ e.length) :
    Packed (m.writeBytes (p + l.flatten.length + k) bs) p (l ++ Loxim.patch e k bs :: r) := by
  obtain ⟨hl, he, hr⟩ := packed_middle.mp h
  refine packed_middle.mpr ⟨hl.frame fun x _ hx => ?_, ?_, ?_⟩
  · exact Memory.writeBytes_of_out (by omega)
  · rw [length_patch hk]
    exact writeBytes_patch he hk
  · rw [length_patch hk]
    exact hr.frame fun x hx _ => Memory.writeBytes_of_out (by omega)

end Loxim
