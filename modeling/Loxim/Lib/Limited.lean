import Mathlib.Algebra.Group.Nat.Defs
import Mathlib.Data.List.Basic
import Mathlib.Tactic.Common

/-!
# Reading under a limit

A reader takes bytes from a stream and may not take more than it was allowed: a counter says how
much is left, and goes round when too much is subtracted. The reader counts what it has built,
also when it fails in the end. A format says which texts stand for a value, and how far a text
can be read that goes wrong later.
-/

namespace Loxim

/-- `length` is what may still be taken, a number of 64 bits; `wrapped` tells whether it has gone
below 0. -/
structure Input (σ : Type) where
  text : List σ
  length : Nat
  wrapped : Bool
  built : Nat

abbrev Limited (σ ε α : Type) := ExceptT ε (StateM (Input σ)) α

/-- `F w b (some a)`: the text `w` stands for `a`, and `b` things are built on the way.
`F w b none`: `w` is the beginning of a text, with `b` things built by then. -/
abbrev Format (σ α : Type) := List σ → Nat → Option α → Prop

namespace Limited

variable {σ ε α β : Type}

def fail (e : ε) : Limited σ ε α := fun i => (.error e, i)

def check (short : ε) (n : Nat) : Limited σ ε Unit := fun i =>
  if i.length < n then (.error short, i) else (.ok (), i)

/-- What is left goes away when the stream ends before. -/
def read (eof : ε) (n : Nat) : Limited σ ε (List σ) := fun i =>
  if i.text.length < n then (.error eof, { i with text := [] })
  else (.ok (i.text.take n), { i with text := i.text.drop n })

def subtract (n : Nat) : Limited σ ε Unit := fun i =>
  if i.length < n then (.ok (), { i with length := 2 ^ 64 + i.length - n, wrapped := true })
  else (.ok (), { i with length := i.length - n })

/-- `short` if so much may not be taken, `eof` if the stream ends before. -/
def take (short eof : ε) (n : Nat) : Limited σ ε (List σ) := do
  check short n
  let bs ← read eof n
  subtract n
  return bs

/-- As `take`, but it subtracts first. -/
def takeEarly (short eof : ε) (n : Nat) : Limited σ ε (List σ) := do
  check short n
  subtract n
  read eof n

/-- What `r` reads counts as built. -/
def build (r : Limited σ ε α) : Limited σ ε α := do
  let a ← r
  modify fun i => { i with built := i.built + 1 }
  return a

def replicate (r : Limited σ ε α) : Nat → Limited σ ε (List α)
  | 0 => pure []
  | n + 1 => do
    let a ← r
    let l ← replicate r n
    return a :: l

variable {r : Limited σ ε α} {f : α → Limited σ ε β} {i i' : Input σ} {a : α} {e : ε}

theorem bind_apply (r : Limited σ ε α) (f : α → Limited σ ε β) (i : Input σ) :
    (r >>= f) i = match r i with
      | (.ok a, i') => f a i'
      | (.error e, i') => (.error e, i') := by
  have hbind : (r >>= f) i = ExceptT.bindCont f (r i).1 (r i).2 := rfl
  rw [hbind]
  rcases r i with ⟨_ | _, _⟩ <;> rfl

theorem bind_ok (h : r i = (.ok a, i')) : (r >>= f) i = f a i' := by
  rw [bind_apply, h]

theorem bind_error (h : r i = (.error e, i')) : (r >>= f) i = (.error e, i') := by
  rw [bind_apply, h]

theorem build_apply (r : Limited σ ε α) (i : Input σ) : build r i = match r i with
    | (.ok a, i') => (.ok a, { i' with built := i'.built + 1 })
    | (.error e, i') => (.error e, i') := by
  rw [build, bind_apply]
  rcases r i with ⟨_ | _, _⟩ <;> rfl

theorem take_apply (short eof : ε) (n : Nat) (i : Input σ) : take short eof n i =
    if i.length < n then (.error short, i)
    else if i.text.length < n then (.error eof, { i with text := [] })
    else (.ok (i.text.take n), { i with text := i.text.drop n, length := i.length - n }) := by
  unfold take
  by_cases hshort : i.length < n
  · have hcheck : check short n i = (.error short, i) := if_pos hshort
    rw [bind_error hcheck, if_pos hshort]
  · have hcheck : check short n i = (.ok (), i) := if_neg hshort
    rw [bind_ok hcheck, if_neg hshort]
    by_cases heof : i.text.length < n
    · have hread : read eof n i = (.error eof, { i with text := [] }) := if_pos heof
      rw [bind_error hread, if_pos heof]
    · have hread : read eof n i = (.ok (i.text.take n), { i with text := i.text.drop n }) :=
        if_neg heof
      rw [bind_ok hread, if_neg heof, bind_ok (if_neg hshort)]
      rfl

theorem takeEarly_apply (short eof : ε) (n : Nat) (i : Input σ) : takeEarly short eof n i =
    if i.length < n then (.error short, i)
    else if i.text.length < n then (.error eof, { i with text := [], length := i.length - n })
    else (.ok (i.text.take n), { i with text := i.text.drop n, length := i.length - n }) := by
  unfold takeEarly
  by_cases hshort : i.length < n
  · have hcheck : check short n i = (.error short, i) := if_pos hshort
    rw [bind_error hcheck, if_pos hshort]
  · have hcheck : check short n i = (.ok (), i) := if_neg hshort
    rw [bind_ok hcheck, if_neg hshort, bind_ok (if_neg hshort)]
    rfl

end Limited

namespace Format

variable {σ α β : Type}

def pure (a : α) : Format σ α := fun w b o => w = [] ∧ b = 0 ∧ o = some a

/-- Nothing can be read. -/
def fail : Format σ α := fun w b o => w = [] ∧ b = 0 ∧ o = none

/-- A text that is read in one piece, and builds nothing. -/
def leaf (P : List σ → α → Prop) : Format σ α := fun w b o =>
  b = 0 ∧ match o with
    | none => w = []
    | some a => P w a

/-- A text goes wrong in its first part or after it. -/
def bind (F : Format σ α) (G : α → Format σ β) : Format σ β := fun w b o =>
  (o = none ∧ F w b none) ∨
    ∃ v c a v' c', F v c (some a) ∧ G a v' c' o ∧ w = v ++ v' ∧ b = c + c'

def build (F : Format σ α) : Format σ α := fun w b o =>
  match o with
  | none => F w b none
  | some a => ∃ c, b = c + 1 ∧ F w c (some a)

def replicate (F : Format σ α) : Nat → Format σ (List α)
  | 0 => pure []
  | n + 1 => F.bind fun a => (replicate F n).bind fun l => pure (a :: l)

end Format

namespace Limited

variable {σ ε α β : Type}

/-- What was taken is `v`; of it `w` follows the format. The counter never goes round. -/
structure Recognizes (r : Limited σ ε α) (F : Format σ α) : Prop where
  ok : ∀ {i a i'}, r i = (.ok a, i') → ∃ w b, F w b (some a) ∧ i.text = w ++ i'.text ∧
    i.length = w.length + i'.length ∧ i'.built = i.built + b
  error : ∀ {i e i'}, r i = (.error e, i') → ∃ w b v, F w b none ∧ i.text = v ++ i'.text ∧
    w <+: v ∧ v.length ≤ i.length ∧ i'.built = i.built + b
  complete : ∀ {w b a}, F w b (some a) → ∀ rest length wrapped built, w.length ≤ length →
    r ⟨w ++ rest, length, wrapped, built⟩ =
      (.ok a, ⟨rest, length - w.length, wrapped, built + b⟩)
  begun : ∀ {w b}, F w b none → ∀ rest length wrapped built, w.length ≤ length →
    built + b ≤ (r ⟨w ++ rest, length, wrapped, built⟩).2.built
  steady : ∀ i, (r i).2.wrapped = i.wrapped

variable {r : Limited σ ε α} {F : Format σ α} {f : α → Limited σ ε β} {G : α → Format σ β}

theorem recognizes_pure (a : α) : Recognizes (pure a : Limited σ ε α) (Format.pure a) where
  ok := by
    rintro i x i' ⟨⟩
    exact ⟨[], 0, ⟨rfl, rfl, rfl⟩, rfl, (Nat.zero_add _).symm, rfl⟩
  error := by
    rintro i x i' ⟨⟩
  complete := by
    rintro w b x ⟨rfl, rfl, ⟨⟩⟩ rest length wrapped built _
    rfl
  begun := by
    rintro w b ⟨rfl, rfl, ⟨⟩⟩
  steady _ := rfl

theorem recognizes_fail (e : ε) : Recognizes (fail e : Limited σ ε α) Format.fail where
  ok := by
    rintro i x i' ⟨⟩
  error := by
    rintro i x i' ⟨⟩
    exact ⟨[], 0, [], ⟨rfl, rfl, rfl⟩, rfl, List.nil_prefix, Nat.zero_le _, rfl⟩
  complete := by
    rintro w b x ⟨rfl, rfl, ⟨⟩⟩
  begun := by
    rintro w b ⟨rfl, rfl, -⟩ rest length wrapped built _
    exact Nat.le_refl built
  steady _ := rfl

/-- A reader that takes `n` bytes, however it deals with the counter when the stream ends. -/
theorem recognizes_of_apply {r : Limited σ ε (List σ)} {short eof : ε} {n : Nat} {left : Nat → Nat}
    (hr : ∀ i, r i = if i.length < n then (.error short, i)
      else if i.text.length < n then (.error eof, { i with text := [], length := left i.length })
      else (.ok (i.text.take n), { i with text := i.text.drop n, length := i.length - n })) :
    Recognizes r (Format.leaf fun w a => w.length = n ∧ a = w) where
  ok := by
    intro i a i' h
    rw [hr] at h
    split at h
    · cases h
    · rename_i hshort
      split at h
      · cases h
      · rename_i heof
        cases h
        have hlen : (i.text.take n).length = n := List.length_take_of_le (Nat.le_of_not_lt heof)
        refine ⟨i.text.take n, 0, ⟨rfl, hlen, rfl⟩, (List.take_append_drop n _).symm, ?_, rfl⟩
        rw [hlen]
        exact (Nat.add_sub_of_le (Nat.le_of_not_lt hshort)).symm
  error := by
    intro i e i' h
    rw [hr] at h
    split at h
    · cases h
      exact ⟨[], 0, [], ⟨rfl, rfl⟩, rfl, List.nil_prefix, Nat.zero_le _, rfl⟩
    · rename_i hshort
      split at h
      · rename_i heof
        cases h
        exact ⟨[], 0, i.text, ⟨rfl, rfl⟩, (List.append_nil _).symm, List.nil_prefix,
          Nat.le_of_lt (Nat.lt_of_lt_of_le heof (Nat.le_of_not_lt hshort)), rfl⟩
      · cases h
  complete := by
    rintro w b a ⟨rfl, rfl, rfl⟩ rest length wrapped built hlen
    have hlong : ¬ (a ++ rest).length < a.length := by simp
    rw [hr, if_neg (Nat.not_lt.mpr hlen), if_neg hlong, List.take_left, List.drop_left]
    rfl
  begun := by
    rintro w b ⟨rfl, rfl⟩ rest length wrapped built _
    rw [hr]
    split
    · exact Nat.le_refl built
    · split <;> exact Nat.le_refl built
  steady := by
    intro i
    rw [hr]
    split
    · rfl
    · split <;> rfl

theorem recognizes_take (short eof : ε) (n : Nat) :
    Recognizes (take short eof n : Limited σ ε (List σ))
      (Format.leaf fun w a => w.length = n ∧ a = w) := by
  exact @recognizes_of_apply σ ε _ short eof n id (take_apply short eof n)

theorem recognizes_takeEarly (short eof : ε) (n : Nat) :
    Recognizes (takeEarly short eof n : Limited σ ε (List σ))
      (Format.leaf fun w a => w.length = n ∧ a = w) := by
  exact @recognizes_of_apply σ ε _ short eof n (fun length => length - n) (takeEarly_apply short eof n)

/-- What has been built is not forgotten. -/
theorem Recognizes.built_le (h : Recognizes r F) (i : Input σ) : i.built ≤ (r i).2.built := by
  rcases hr : r i with ⟨e | a, i'⟩
  · obtain ⟨_, b, _, -, -, -, -, hb⟩ := h.error hr
    exact hb ▸ Nat.le_add_right _ _
  · obtain ⟨_, b, -, -, -, hb⟩ := h.ok hr
    exact hb ▸ Nat.le_add_right _ _

theorem Recognizes.bind (h : Recognizes r F) (hf : ∀ a, Recognizes (f a) (G a)) :
    Recognizes (r >>= f) (F.bind G) where
  ok := by
    intro i a i' hrun
    rw [bind_apply] at hrun
    rcases hr : r i with ⟨e | x, j⟩
    · rw [hr] at hrun
      cases hrun
    · rw [hr] at hrun
      obtain ⟨w, b, hF, hbytes, hlen, hbuilt⟩ := h.ok hr
      obtain ⟨w', b', hG, hbytes', hlen', hbuilt'⟩ := (hf x).ok hrun
      refine ⟨w ++ w', b + b', .inr ⟨w, b, x, w', b', hF, hG, rfl, rfl⟩, ?_, ?_, ?_⟩
      · rw [hbytes, hbytes', List.append_assoc]
      · rw [hlen, hlen', List.length_append, Nat.add_assoc]
      · rw [hbuilt', hbuilt, Nat.add_assoc]
  error := by
    intro i e i' hrun
    rw [bind_apply] at hrun
    rcases hr : r i with ⟨e | x, j⟩
    · rw [hr] at hrun
      cases hrun
      obtain ⟨w, b, v, hF, hrest⟩ := h.error hr
      exact ⟨w, b, v, .inl ⟨rfl, hF⟩, hrest⟩
    · rw [hr] at hrun
      obtain ⟨w, b, hF, hbytes, hlen, hbuilt⟩ := h.ok hr
      obtain ⟨w', b', v, hG, hbytes', hpre, hshort, hbuilt'⟩ := (hf x).error hrun
      refine ⟨w ++ w', b + b', w ++ v, .inr ⟨w, b, x, w', b', hF, hG, rfl, rfl⟩, ?_,
        (List.prefix_append_right_inj w).mpr hpre, ?_, ?_⟩
      · rw [hbytes, hbytes', List.append_assoc]
      · rw [hlen, List.length_append]
        exact Nat.add_le_add_left hshort _
      · rw [hbuilt', hbuilt, Nat.add_assoc]
  complete := by
    rintro w b a (⟨⟨⟩, -⟩ | ⟨v, c, x, v', c', hF, hG, rfl, rfl⟩) rest length wrapped built hlen
    rw [List.length_append] at hlen
    rw [List.append_assoc, bind_ok (h.complete hF (v' ++ rest) length wrapped built (by omega)),
      (hf x).complete hG rest _ _ _ (by omega), List.length_append, Nat.add_assoc, Nat.sub_sub]
  begun := by
    rintro w b (⟨-, hF⟩ | ⟨v, c, x, v', c', hF, hG, rfl, rfl⟩) rest length wrapped built hlen
    · have hfirst := h.begun hF rest length wrapped built hlen
      rw [bind_apply]
      rcases hr : r ⟨w ++ rest, length, wrapped, built⟩ with ⟨e | x, j⟩
      · rwa [hr] at hfirst
      · rw [hr] at hfirst
        exact Nat.le_trans hfirst ((hf x).built_le j)
    · rw [List.length_append] at hlen
      rw [List.append_assoc, bind_ok (h.complete hF (v' ++ rest) length wrapped built (by omega)),
        ← Nat.add_assoc]
      exact (hf x).begun hG rest _ _ _ (by omega)
  steady := by
    intro i
    have hfirst := h.steady i
    rw [bind_apply]
    rcases hr : r i with ⟨e | x, j⟩
    · rwa [hr] at hfirst
    · rw [hr] at hfirst
      exact ((hf x).steady j).trans hfirst

theorem Recognizes.build (h : Recognizes r F) : Recognizes (Limited.build r) F.build where
  ok := by
    intro i a i' hrun
    rw [build_apply] at hrun
    rcases hr : r i with ⟨e | x, j⟩
    · rw [hr] at hrun
      cases hrun
    · rw [hr] at hrun
      cases hrun
      obtain ⟨w, b, hF, hbytes, hlen, hbuilt⟩ := h.ok hr
      refine ⟨w, b + 1, ⟨b, rfl, hF⟩, hbytes, hlen, ?_⟩
      show j.built + 1 = _
      rw [hbuilt, Nat.add_assoc]
  error := by
    intro i e i' hrun
    rw [build_apply] at hrun
    rcases hr : r i with ⟨e | x, j⟩
    · rw [hr] at hrun
      cases hrun
      exact h.error hr
    · rw [hr] at hrun
      cases hrun
  complete := by
    rintro w b a ⟨c, rfl, hF⟩ rest length wrapped built hlen
    rw [build_apply, h.complete hF rest length wrapped built hlen]
    rfl
  begun := by
    intro w b hF rest length wrapped built hlen
    have hfirst := h.begun hF rest length wrapped built hlen
    rw [build_apply]
    rcases hr : r ⟨w ++ rest, length, wrapped, built⟩ with ⟨e | x, j⟩
    · rwa [hr] at hfirst
    · rw [hr] at hfirst
      exact Nat.le_trans hfirst (Nat.le_succ _)
  steady := by
    intro i
    have hfirst := h.steady i
    rw [build_apply]
    rcases hr : r i with ⟨e | x, j⟩
    · rwa [hr] at hfirst
    · rwa [hr] at hfirst

theorem Recognizes.replicate (h : Recognizes r F) (n : Nat) :
    Recognizes (Limited.replicate r n) (F.replicate n) := by
  induction n with
  | zero => exact recognizes_pure []
  | succ n ih => exact h.bind fun a => ih.bind fun l => recognizes_pure (a :: l)

-- ---------------------------------------------------------------------------
-- Readers that build nothing
-- ---------------------------------------------------------------------------

variable {P Q : List σ → α → Prop} {R : α → List σ → β → Prop}

theorem Recognizes.leaf_congr (h : Recognizes r (Format.leaf P)) (hPQ : ∀ w a, P w a ↔ Q w a) :
    Recognizes r (Format.leaf Q) := by
  have hsame : P = Q := by
    funext w a
    exact propext (hPQ w a)
  exact hsame ▸ h

theorem leaf_pure (a : α) :
    Recognizes (pure a : Limited σ ε α) (Format.leaf fun w x => w = [] ∧ x = a) where
  ok := by
    rintro i x i' ⟨⟩
    exact ⟨[], 0, ⟨rfl, rfl, rfl⟩, rfl, (Nat.zero_add _).symm, rfl⟩
  error := by
    rintro i x i' ⟨⟩
  complete := by
    rintro w b x ⟨rfl, rfl, rfl⟩ rest length wrapped built _
    rfl
  begun := by
    rintro w b ⟨rfl, rfl⟩ rest length wrapped built _
    exact Nat.le_refl built
  steady _ := rfl

theorem leaf_fail (e : ε) :
    Recognizes (fail e : Limited σ ε α) (Format.leaf fun _ _ => False) where
  ok := by
    rintro i x i' ⟨⟩
  error := by
    rintro i x i' ⟨⟩
    exact ⟨[], 0, [], ⟨rfl, rfl⟩, rfl, List.nil_prefix, Nat.zero_le _, rfl⟩
  complete := by
    rintro w b x ⟨_, ⟨⟩⟩
  begun := by
    rintro w b ⟨rfl, rfl⟩ rest length wrapped built _
    exact Nat.le_refl built
  steady _ := rfl

/-- Two pieces, one after the other, are one. -/
theorem Recognizes.leaf_bind (h : Recognizes r (Format.leaf P))
    (hf : ∀ a, Recognizes (f a) (Format.leaf (R a))) :
    Recognizes (r >>= f)
      (Format.leaf fun w x => ∃ v a v', P v a ∧ R a v' x ∧ w = v ++ v') where
  ok := by
    intro i x i' hrun
    obtain ⟨w, b, hF, hrest⟩ := (h.bind hf).ok hrun
    rcases hF with ⟨⟨⟩, -⟩ | ⟨v, c, a, v', c', ⟨rfl, hP⟩, ⟨rfl, hR⟩, rfl, rfl⟩
    exact ⟨v ++ v', 0, ⟨rfl, v, a, v', hP, hR, rfl⟩, hrest⟩
  error := by
    intro i e i' hrun
    obtain ⟨w, b, v, hF, htext, -, hlen, hbuilt⟩ := (h.bind hf).error hrun
    have hb : b = 0 := by
      rcases hF with ⟨-, rfl, -⟩ | ⟨u, c, a, u', c', ⟨rfl, -⟩, ⟨rfl, -⟩, -, rfl⟩
      · rfl
      · rfl
    subst hb
    exact ⟨[], 0, v, ⟨rfl, rfl⟩, htext, List.nil_prefix, hlen, hbuilt⟩
  complete := by
    rintro w b x ⟨rfl, v, a, v', hP, hR, rfl⟩
    exact (h.bind hf).complete (.inr ⟨v, 0, a, v', 0, ⟨rfl, hP⟩, ⟨rfl, hR⟩, rfl, rfl⟩)
  begun := by
    rintro w b ⟨rfl, rfl⟩ rest length wrapped built _
    exact (h.bind hf).built_le ⟨[] ++ rest, length, wrapped, built⟩
  steady := (h.bind hf).steady

-- ---------------------------------------------------------------------------
-- Readers that are the same while little may be taken
-- ---------------------------------------------------------------------------

def Agree (n : Nat) (r r' : Limited σ ε α) : Prop := ∀ i, i.length < n → r i = r' i

variable {r' : Limited σ ε α} {f' : α → Limited σ ε β} {n m : Nat}

theorem Agree.refl (n : Nat) (r : Limited σ ε α) : Agree n r r := fun _ _ => rfl

theorem Agree.mono (h : Agree n r r') (hle : m ≤ n) : Agree m r r' :=
  fun i hi => h i (Nat.lt_of_lt_of_le hi hle)

/-- `m` bounds what the first reader leaves. -/
theorem Agree.bind (h : Agree n r r')
    (hleft : ∀ {i a i'}, r i = (.ok a, i') → i.length < n → i'.length < m)
    (hf : ∀ a, Agree m (f a) (f' a)) : Agree n (r >>= f) (r' >>= f') := by
  intro i hi
  rw [bind_apply, bind_apply, ← h i hi]
  rcases hr : r i with ⟨e | x, j⟩
  · rfl
  · exact hf x j (hleft hr hi)

theorem Recognizes.left_lt (h : Recognizes r F) {i i' : Input σ} {a : α}
    (hrun : r i = (.ok a, i')) (hi : i.length < n) : i'.length < n := by
  obtain ⟨w, b, -, -, hlen, -⟩ := h.ok hrun
  omega

theorem Agree.build (h : Agree n r r') : Agree n (build r) (build r') := by
  intro i hi
  rw [build_apply, build_apply, h i hi]

theorem Agree.replicate (h : Agree n r r') (hF : Recognizes r F) (k : Nat) :
    Agree n (replicate r k) (replicate r' k) := by
  induction k with
  | zero => exact Agree.refl n _
  | succ k ih =>
    apply h.bind hF.left_lt
    intro a
    apply ih.bind (hF.replicate k).left_lt
    intro l
    exact Agree.refl n _

end Limited

end Loxim
