import Mathlib.Data.List.Basic
import Mathlib.Order.Defs.LinearOrder

/-!
# Lists that stay in order

A part of a list may be replaced by one that has nothing new and is in order if the
old one was; the whole list stays in order, whatever it is.
-/

namespace Loxim

variable {α : Type}

/-- `l'` has only what `l` has, and is in order when `l` is. -/
structure Drawn [LE α] (l l' : List α) : Prop where
  subset : l' ⊆ l
  order : l.Pairwise (· ≤ ·) → l'.Pairwise (· ≤ ·)

/-- `l'` may also have `x`. -/
structure Taken [LE α] (x : α) (l l' : List α) : Prop where
  subset : l' ⊆ x :: l
  order : l.Pairwise (· ≤ ·) → l'.Pairwise (· ≤ ·)

namespace Drawn

theorem refl [LE α] (l : List α) : Drawn l l := ⟨List.Subset.refl l, id⟩

theorem of_eq [LE α] {l l' : List α} (h : l = l') : Drawn l l' := h ▸ refl l

theorem trans [LE α] {k l m : List α} (h : Drawn k l) (h' : Drawn l m) : Drawn k m :=
  ⟨fun _ ha => h.subset (h'.subset ha), fun hk => h'.order (h.order hk)⟩

theorem of_sublist [LE α] {l l' : List α} (h : l'.Sublist l) : Drawn l l' :=
  ⟨h.subset, List.Pairwise.sublist h⟩

theorem within [LE α] {l l' : List α} (p s : List α) (h : Drawn l l') :
    Drawn (p ++ l ++ s) (p ++ l' ++ s) := by
  refine ⟨?_, fun horder => ?_⟩
  · intro a ha
    simp only [List.mem_append] at ha ⊢
    exact ha.imp_left fun ha => ha.imp_right fun ha => h.subset ha
  · simp only [List.pairwise_append, List.mem_append] at horder ⊢
    obtain ⟨⟨hp, hl, hpl⟩, hs, hls⟩ := horder
    refine ⟨⟨hp, h.order hl, fun a ha b hb => hpl a ha b (h.subset hb)⟩, hs, ?_⟩
    rintro a (ha | ha) b hb
    · exact hls a (.inl ha) b hb
    · exact hls a (.inr (h.subset ha)) b hb

/-- An element may stand twice. -/
theorem twice [Preorder α] (a : α) : Drawn [a] [a, a] := by
  refine ⟨?_, fun _ => ?_⟩
  · intro b hb
    simpa using hb
  · simp

end Drawn

theorem Taken.of_drawn [LE α] {x : α} {k l m : List α} (h : Drawn k l) (h' : Taken x l m) :
    Taken x k m := by
  refine ⟨fun a ha => ?_, fun hk => h'.order (h.order hk)⟩
  rcases List.mem_cons.mp (h'.subset ha) with rfl | ha
  · exact List.mem_cons_self
  · exact List.mem_cons_of_mem _ (h.subset ha)

/-- Between smaller and greater elements. -/
theorem Taken.within [LE α] {x : α} {l l' : List α} (p s : List α) (hp : ∀ a ∈ p, a ≤ x)
    (hs : ∀ a ∈ s, x ≤ a) (h : Taken x l l') : Taken x (p ++ l ++ s) (p ++ l' ++ s) := by
  refine ⟨?_, fun horder => ?_⟩
  · intro a ha
    simp only [List.mem_append, List.mem_cons] at ha ⊢
    rcases ha with (ha | ha) | ha
    · exact .inr (.inl (.inl ha))
    · exact (List.mem_cons.mp (h.subset ha)).imp_right fun ha => .inl (.inr ha)
    · exact .inr (.inr ha)
  · simp only [List.pairwise_append, List.mem_append] at horder ⊢
    obtain ⟨⟨hp', hl, hpl⟩, hs', hls⟩ := horder
    refine ⟨⟨hp', h.order hl, fun a ha b hb => ?_⟩, hs', ?_⟩
    · rcases List.mem_cons.mp (h.subset hb) with rfl | hb
      · exact hp a ha
      · exact hpl a ha b hb
    · rintro a (ha | ha) b hb
      · exact hls a (.inl ha) b hb
      · rcases List.mem_cons.mp (h.subset ha) with rfl | ha
        · exact hs b hb
        · exact hls a (.inr ha) b hb

end Loxim
