import Loxim.Store.PageWriter

/-!
# What a checkpoint writes

Recovery starts at the last Ckpt record that has its EndCkpt record. The changes
with older records have to be in the files by then.
-/

namespace Loxim.Store

namespace BufferRun

variable {s : BufferRun (List Nat)} {a : Nat × Nat} {n f p : Nat}

/-- Files lag behind the buffer. A change that is not in its file is on a page that is
dirty or in use. -/
structure Lagging (s : BufferRun (List Nat)) : Prop where
  addr {a : Nat × Nat} : a ∈ s.buffer.bufferHash → a.2 < 65536
  present {a : Nat × Nat} : a ∈ s.buffer.bufferHash → (s.buffer.entry a).haspage = true
  absent {a : Nat × Nat} : a ∉ s.buffer.bufferHash → s.holders a = 0 ∧ s.buffer.file a = []
  kept {a : Nat × Nat} {n : Nat} : a ∈ s.buffer.bufferHash → n ∈ s.buffer.file a →
    n ∈ (s.buffer.entry a).page
  dirty {a : Nat × Nat} {n : Nat} : a ∈ s.buffer.bufferHash → n ∈ (s.buffer.entry a).page →
    n ∈ s.buffer.file a ∨ (s.buffer.entry a).dirty = true ∨ 0 < s.holders a

theorem Lagging.mem_of_held (h : s.Lagging) (hheld : 0 < s.holders a) :
    a ∈ s.buffer.bufferHash := by
  by_contra hnot
  exact absurd (h.absent hnot).1 hheld.ne'

theorem Lagging.hasPage (h : s.Lagging) (ha : a ∈ s.buffer.bufferHash) :
    s.buffer.hasPage a = true := by
  simp [Buffer.hasPage, ha, h.present ha]

theorem Lagging.setEntry {e : BufferPage (List Nat)} {dirtyPages : Int}
    {file : Nat × Nat → List Nat} {pageCount : Nat → Nat} {holders : Nat × Nat → Nat}
    (h : s.Lagging) (ha : a ∈ s.buffer.bufferHash) (he : e.haspage = true)
    (hholders : ∀ x, x ≠ a → holders x = s.holders x)
    (hfile : ∀ x, x ≠ a → file x = s.buffer.file x)
    (hkept : ∀ n ∈ file a, n ∈ e.page)
    (hdirty : ∀ n ∈ e.page, n ∈ file a ∨ e.dirty = true ∨ 0 < holders a) :
    Lagging { buffer := { s.buffer.setEntry a e with dirtyPages, file, pageCount }, holders } := by
  have hself := s.buffer.setEntry_self a e
  have hother (x : Nat × Nat) (hx : x ≠ a) := s.buffer.setEntry_of_ne e hx
  refine ⟨h.addr, fun {x} hx => ?_, fun {x} hx => ?_, fun {x n} hx hn => ?_,
    fun {x n} hx hn => ?_⟩
  · rcases eq_or_ne x a with rfl | hne
    · simp only [hself, he]
    · simp only [hother x hne]
      exact h.present hx
  · have hne : x ≠ a := fun heq => hx (heq ▸ ha)
    simp only [hholders x hne, hfile x hne]
    exact h.absent hx
  · rcases eq_or_ne x a with rfl | hne
    · simp only [hself]
      exact hkept n hn
    · simp only [hother x hne, hfile x hne] at hn ⊢
      exact h.kept hx hn
  · rcases eq_or_ne x a with rfl | hne
    · simp only [hself] at hn ⊢
      exact hdirty n hn
    · simp only [hother x hne, hfile x hne, hholders x hne] at hn ⊢
      exact h.dirty hx hn

theorem Lagging.getPagePointer (h : s.Lagging) :
    Lagging { s with buffer := s.buffer.getPagePointer (fun _ => []) f p } := by
  have hgrows : Buffer.Grows (fun _ => []) s.buffer _ := Buffer.grows_getPagePointer s.buffer f p
  have hnew {x : Nat × Nat} (hx : x ∈ (s.buffer.getPagePointer (fun _ => []) f p).bufferHash)
      (hold : x ∉ s.buffer.bufferHash) :
      ((s.buffer.getPagePointer (fun _ => []) f p).entry x).page = [] := by
    obtain ⟨y, hy⟩ | ⟨y, rfl, hy⟩ := (hgrows.new hx hold).2.2.2
    · exact hy
    · -- what has been written is in the buffer, at its own address
      rw [hy]
      refine (h.absent fun hmem => hold ?_).2
      rw [bufferAddr, Nat.mod_eq_of_lt (h.addr hmem)]
      exact hmem
  refine ⟨fun {x} hx => ?_, fun {x} hx => ?_, fun {x} hx => ?_, fun {x n} hx hn => ?_,
    fun {x n} hx hn => ?_⟩
  · by_cases hold : x ∈ s.buffer.bufferHash
    · exact h.addr hold
    · exact (hgrows.new hx hold).1
  · by_cases hold : x ∈ s.buffer.bufferHash
    · simp only [(hgrows.kept hold).2]
      exact h.present hold
    · exact (hgrows.new hx hold).2.1
  · simp only [hgrows.file]
    exact h.absent fun hold => hx (hgrows.kept hold).1
  · simp only [hgrows.file] at hn
    by_cases hold : x ∈ s.buffer.bufferHash
    · simp only [(hgrows.kept hold).2]
      exact h.kept hold hn
    · rw [(h.absent hold).2] at hn
      exact absurd hn List.not_mem_nil
  · by_cases hold : x ∈ s.buffer.bufferHash
    · simp only [(hgrows.kept hold).2, hgrows.file] at hn ⊢
      exact h.dirty hold hn
    · rw [hnew hx hold] at hn
      exact absurd hn List.not_mem_nil

theorem Lagging.acquirePage (h : s.Lagging) (ha : bufferAddr f p ∈ s.buffer.bufferHash) :
    Lagging {
      buffer := (s.buffer.acquirePage f p).1
      holders := Function.update s.holders (bufferAddr f p) (s.holders (bufferAddr f p) + 1) } := by
  simp only [Buffer.acquirePage, h.hasPage ha, if_true]
  refine h.setEntry ha (h.present ha) (fun x hx => Function.update_of_ne hx ..) (fun _ _ => rfl)
    (fun n => h.kept ha) fun n _ => .inr (.inr ?_)
  rw [Function.update_self]
  omega

theorem Lagging.modify (h : s.Lagging) (hheld : 0 < s.holders (bufferAddr f p)) :
    Lagging { s with
      buffer := s.buffer.modify f p (n :: (s.buffer.entry (bufferAddr f p)).page) } := by
  have ha := h.mem_of_held hheld
  exact h.setEntry ha (h.present ha) (fun _ _ => rfl) (fun _ _ => rfl)
    (fun m hm => List.mem_cons_of_mem n (h.kept ha hm)) fun _ _ => .inr (.inr hheld)

theorem Lagging.releasePage (h : s.Lagging) (hheld : 0 < s.holders (bufferAddr f p)) :
    Lagging {
      buffer := (s.buffer.releasePage f p).1
      holders := Function.update s.holders (bufferAddr f p) (s.holders (bufferAddr f p) - 1) } := by
  have ha := h.mem_of_held hheld
  simp only [Buffer.releasePage, h.hasPage ha, if_true]
  exact h.setEntry ha (h.present ha) (fun x hx => Function.update_of_ne hx ..) (fun _ _ => rfl)
    (fun n => h.kept ha) fun _ _ => .inr (.inl rfl)

/-- A page that is written has all its changes in the file. -/
theorem Lagging.writePage {holders : Nat × Nat → Nat} (h : s.Lagging)
    (ha : a ∈ s.buffer.bufferHash) (hholders : ∀ x, x ≠ a → holders x = s.holders x) :
    Lagging { buffer := s.buffer.writePage a, holders } := by
  refine h.setEntry ha (h.present ha) hholders (fun x hx => Function.update_of_ne hx ..)
    (fun n hn => ?_) fun n hn => .inl ?_
  · rwa [Function.update_self] at hn
  · rwa [Function.update_self]

theorem Lagging.releasePageSync (h : s.Lagging) (hheld : 0 < s.holders (bufferAddr f p)) :
    Lagging {
      buffer := (s.buffer.releasePageSync f p).1
      holders := Function.update s.holders (bufferAddr f p) (s.holders (bufferAddr f p) - 1) } := by
  have ha := h.mem_of_held hheld
  simp only [Buffer.releasePageSync, h.hasPage ha, if_true]
  exact h.writePage ha fun x hx => Function.update_of_ne hx ..

theorem Lagging.writeDirty (h : s.Lagging) (ha : a ∈ s.buffer.bufferHash) :
    Lagging { s with buffer := s.buffer.writeDirty a } := by
  unfold Buffer.writeDirty
  split
  · exact h.writePage ha fun _ _ => rfl
  · exact h

theorem Lagging.mem_writePage (h : s.Lagging) {x : Nat × Nat} (ha : a ∈ s.buffer.bufferHash)
    (hn : n ∈ s.buffer.file x) : n ∈ (s.buffer.writePage a).file x := by
  show n ∈ Function.update s.buffer.file a _ x
  rcases eq_or_ne x a with rfl | hne
  · rw [Function.update_self]
    exact h.kept ha hn
  · rwa [Function.update_of_ne hne]

end BufferRun

namespace PageWriter

variable {s s' s'' : PageWriter} {ev : Event} {a : Nat × Nat} {n f p ckpt : Nat}
  {todo : List (Nat × Nat)}

/-- Page numbers have 16 bits. When a checkpoint starts, the logged changes have been
made, and a page with a change that is not in its file is neither in use nor left
pinned. -/
def Calm (s : PageWriter) : Event → Prop
  | .log _ p => p < 65536
  | .start => ∀ x ∈ s.logged, x.2 ∈ s.run.buffer.bufferHash ∧ x.1 ∈ s.image x.2 ∧
    (x.1 ∈ s.run.buffer.file x.2 ∨
      s.run.holders x.2 = 0 ∧ (s.run.buffer.entry x.2).lock = 0)
  | .getPagePointer _ _ | .acquirePage _ _ | .change _ _ _ | .releasePage _ _
  | .releasePageSync _ _ | .logWrite | .flush | .flushed _ | .write | .finish => True

/-- The changes with records before `ckpt` are in the files, or on pages in `todo`
that the writer is going to write. -/
structure Due (s : PageWriter) (ckpt : Nat) (todo : Nat × Nat → Prop) : Prop where
  old : ckpt < s.nextId
  due {n : Nat} {a : Nat × Nat} : (n, a) ∈ s.logged → n < ckpt → n ∈ s.run.buffer.file a ∨
    todo a ∧ n ∈ s.image a ∧ s.run.buffer.writable a = true

theorem Due.mono {P Q : Nat × Nat → Prop} (h : s.Due ckpt P) (hid : s.nextId ≤ s'.nextId)
    (hlogged : ∀ n a, (n, a) ∈ s'.logged → (n, a) ∈ s.logged ∨ ckpt ≤ n)
    (hfile : ∀ n a, n ∈ s.run.buffer.file a → n ∈ s'.run.buffer.file a)
    (hdue : ∀ n a, P a → n ∈ s.image a → s.run.buffer.writable a = true →
      n ∈ s'.run.buffer.file a ∨ Q a ∧ n ∈ s'.image a ∧ s'.run.buffer.writable a = true) :
    s'.Due ckpt Q := by
  refine ⟨h.old.trans_le hid, fun {n a} hn hlt => ?_⟩
  have hold := (hlogged n a hn).resolve_right (by omega)
  rcases h.due hold hlt with hf | ⟨hP, hi, hw⟩
  · exact .inl (hfile n a hf)
  · exact hdue n a hP hi hw

structure Sweep (s : PageWriter) : Prop where
  lagging : s.run.Lagging
  ids {n : Nat} {a : Nat × Nat} : (n, a) ∈ s.logged → n < s.nextId
  todo {ckpt : Nat} {todo : List (Nat × Nat)} {a : Nat × Nat} :
    s.writer = .writing ckpt todo → a ∈ todo → a ∈ s.run.buffer.bufferHash
  flushing {ckpt : Nat} : s.writer = .flushing ckpt → s.Due ckpt (· ∈ s.run.buffer.bufferHash)
  writing {ckpt : Nat} {todo : List (Nat × Nat)} :
    s.writer = .writing ckpt todo → s.Due ckpt (· ∈ todo)

/-- The buffer is used while the writer is idle. -/
theorem Sweep.onBuffer {run : BufferRun (List Nat)} (h : s.Sweep) (hidle : s.writer = .idle)
    (hrun : run.Lagging) : Sweep { s with run } :=
  ⟨hrun, h.ids, fun hw => absurd (hidle.symm.trans hw) nofun,
    fun hw => absurd (hidle.symm.trans hw) nofun, fun hw => absurd (hidle.symm.trans hw) nofun⟩

/-- Changes do not make a page less writable. -/
theorem Due.change {P : Nat × Nat → Prop} (h : s.Due ckpt P) : Due { s with run := { s.run with
      buffer := s.run.buffer.modify f p (n :: s.image (bufferAddr f p)) } } ckpt P := by
  refine h.mono le_rfl (fun _ _ => .inl) (fun _ _ => id) fun m x hx hm hw => .inr ⟨hx, ?_, ?_⟩
  · rcases eq_or_ne x (bufferAddr f p) with rfl | hne
    · simp only [image, Buffer.modify, Buffer.setEntry_self]
      exact List.mem_cons_of_mem n hm
    · simp only [image, Buffer.modify, s.run.buffer.setEntry_of_ne _ hne]
      exact hm
  · rcases eq_or_ne x (bufferAddr f p) with rfl | hne
    · simpa only [Buffer.writable, Buffer.modify, Buffer.setEntry_self] using hw
    · simpa only [Buffer.writable, Buffer.modify, s.run.buffer.setEntry_of_ne _ hne] using hw

theorem Sweep.change (h : s.Sweep) (hheld : 0 < s.run.holders (bufferAddr f p)) :
    Sweep { s with run := { s.run with
      buffer := s.run.buffer.modify f p (n :: s.image (bufferAddr f p)) } } :=
  ⟨h.lagging.modify hheld, h.ids, h.todo, fun hw => (h.flushing hw).change,
    fun hw => (h.writing hw).change⟩

/-- The next page is written, or need not be. -/
theorem Sweep.writeDirty (h : s.Sweep) (hw : s.writer = .writing ckpt (a :: todo)) :
    Sweep { s with
      run := { s.run with buffer := s.run.buffer.writeDirty a }, writer := .writing ckpt todo } := by
  have ha := h.todo hw List.mem_cons_self
  refine ⟨h.lagging.writeDirty ha, h.ids, fun hw' hx => ?_, nofun, fun hw' => ?_⟩
  · cases hw'
    rw [BufferRun.writeDirty_bufferHash]
    exact h.todo hw (List.mem_cons_of_mem a hx)
  · cases hw'
    refine (h.writing hw).mono le_rfl (fun _ _ => .inl) (fun m x hm => ?_) fun m x hx hm hxw => ?_
    · show m ∈ (s.run.buffer.writeDirty a).file x
      unfold Buffer.writeDirty
      split
      · exact h.lagging.mem_writePage ha hm
      · exact hm
    · rcases eq_or_ne x a with rfl | hne
      · refine .inl ?_
        show m ∈ (s.run.buffer.writeDirty x).file x
        rw [Buffer.writeDirty, if_pos hxw]
        show m ∈ Function.update s.run.buffer.file x _ x
        rwa [Function.update_self]
      · refine .inr ⟨(List.mem_cons.mp hx).resolve_left hne, ?_⟩
        have hsame : (s.run.buffer.writeDirty a).entry x = s.run.buffer.entry x := by
          unfold Buffer.writeDirty
          split
          · exact s.run.buffer.setEntry_of_ne _ hne
          · rfl
        simp only [image, Buffer.writable, hsame]
        exact ⟨hm, hxw⟩

/-- The log moves on. -/
theorem Sweep.log {queue written durable : List Nat} (h : s.Sweep) :
    Sweep { s with queue, written, durable } :=
  ⟨h.lagging, h.ids, h.todo, fun hw => (h.flushing hw).mono le_rfl (fun _ _ => .inl)
    (fun _ _ => id) fun _ _ hx hm hw => .inr ⟨hx, hm, hw⟩, fun hw => (h.writing hw).mono le_rfl
    (fun _ _ => .inl) (fun _ _ => id) fun _ _ hx hm hw => .inr ⟨hx, hm, hw⟩⟩

theorem Due.log {P : Nat × Nat → Prop} (h : s.Due ckpt P) :
    Due { s.push with logged := (s.nextId, a) :: s.logged } ckpt P := by
  refine h.mono (Nat.le_succ _) (fun m b hm => ?_) (fun _ _ => id)
    fun _ _ hx hm hw => .inr ⟨hx, hm, hw⟩
  rcases List.mem_cons.mp hm with heq | hm
  · cases heq
    exact .inr h.old.le
  · exact .inl hm

theorem Sweep.logChange (h : s.Sweep) :
    Sweep { s.push with logged := (s.nextId, a) :: s.logged } := by
  refine ⟨h.lagging, fun {n x} hn => ?_, h.todo, fun hw => (h.flushing hw).log,
    fun hw => (h.writing hw).log⟩
  rcases List.mem_cons.mp hn with heq | hn
  · cases heq
    exact Nat.lt_succ_self _
  · exact (h.ids hn).trans (Nat.lt_succ_self _)

theorem Sweep.start (h : s.Sweep) (hcalm : s.Calm .start) :
    Sweep { s.push with writer := .flushing s.nextId } := by
  refine ⟨h.lagging, fun hn => (h.ids hn).trans (Nat.lt_succ_self _), nofun, fun hw => ?_, nofun⟩
  cases hw
  refine ⟨Nat.lt_succ_self _, fun {n a} hn _ => ?_⟩
  obtain ⟨ha, hi, hplace⟩ := hcalm (n, a) hn
  by_cases hf : n ∈ s.run.buffer.file a
  · exact .inl hf
  · obtain ⟨hheld, hlock⟩ := hplace.resolve_left hf
    have hdirty := ((h.lagging.dirty ha hi).resolve_left hf).resolve_right hheld.not_gt
    refine .inr ⟨ha, hi, ?_⟩
    show s.run.buffer.writable a = true
    simp only [Buffer.writable, h.lagging.present ha, hlock, hdirty, beq_self_eq_true, Bool.and_self]

theorem Sweep.step (h : s.Sweep) (hlegal : s.Legal ev) (hcalm : s.Calm ev)
    (hstep : s.step ev = some s') : s'.Sweep := by
  cases ev with
  | log f p =>
    cases hstep
    exact h.logChange
  | getPagePointer f p =>
    cases hstep
    exact h.onBuffer hlegal.1 h.lagging.getPagePointer
  | acquirePage f p =>
    cases hstep
    exact h.onBuffer hlegal.1 (h.lagging.acquirePage hlegal.2)
  | change n f p =>
    cases hstep
    exact h.change hlegal.2
  | releasePage f p =>
    cases hstep
    exact h.onBuffer hlegal.1 (h.lagging.releasePage hlegal.2)
  | releasePageSync f p =>
    cases hstep
    exact h.onBuffer hlegal.1 (h.lagging.releasePageSync hlegal.2)
  | logWrite =>
    simp only [PageWriter.step] at hstep
    split at hstep
    · cases hstep
    · cases hstep
      exact h.log
  | flush =>
    simp only [PageWriter.step] at hstep
    split at hstep
    · cases hstep
      exact h.log
    · cases hstep
  | start =>
    cases hstep
    exact h.start hcalm
  | flushed order =>
    simp only [PageWriter.step] at hstep
    split at hstep
    · rename_i hw
      split at hstep
      · cases hstep
        refine ⟨h.lagging, h.ids, fun hw' ha => ?_, (fun hw' => by cases hw'), fun hw' => ?_⟩
        · cases hw'
          exact (hlegal.2 _).mp ha
        · cases hw'
          exact (h.flushing hw).mono le_rfl (fun _ _ => .inl) (fun _ _ => id)
            fun m x hx hm hxw => .inr ⟨(hlegal.2 x).mpr hx, hm, hxw⟩
      · cases hstep
    all_goals cases hstep
  | write =>
    simp only [PageWriter.step] at hstep
    split at hstep
    · rename_i hw
      cases hstep
      exact h.writeDirty hw
    all_goals cases hstep
  | finish =>
    simp only [PageWriter.step] at hstep
    split at hstep
    · cases hstep
      exact ⟨h.lagging, fun hn => (h.ids hn).trans (Nat.lt_succ_self _), (fun hw => by cases hw),
        (fun hw => by cases hw), fun hw => by cases hw⟩
    all_goals cases hstep

/-- What is in a file stays there. -/
theorem Sweep.file_mono (h : s.Sweep) (hlegal : s.Legal ev) (hstep : s.step ev = some s')
    (hn : n ∈ s.run.buffer.file a) : n ∈ s'.run.buffer.file a := by
  cases ev with
  | log f p | start | change m f p =>
    cases hstep
    exact hn
  | getPagePointer f p =>
    cases hstep
    have hgrows : Buffer.Grows (fun _ => []) s.run.buffer _ :=
      Buffer.grows_getPagePointer s.run.buffer f p
    simp only [hgrows.file]
    exact hn
  | acquirePage f p =>
    cases hstep
    simp only [Buffer.acquirePage, h.lagging.hasPage hlegal.2, if_true]
    exact hn
  | releasePage f p =>
    cases hstep
    simp only [Buffer.releasePage, h.lagging.hasPage (h.lagging.mem_of_held hlegal.2), if_true]
    exact hn
  | releasePageSync f p =>
    cases hstep
    have ha := h.lagging.mem_of_held hlegal.2
    simp only [Buffer.releasePageSync, h.lagging.hasPage ha, if_true]
    exact h.lagging.mem_writePage ha hn
  | logWrite | flush | flushed order | finish =>
    simp only [PageWriter.step] at hstep
    repeat' split at hstep
    all_goals cases hstep
    all_goals exact hn
  | write =>
    simp only [PageWriter.step] at hstep
    split at hstep
    · rename_i hw
      cases hstep
      show n ∈ (s.run.buffer.writeDirty _).file a
      unfold Buffer.writeDirty
      split
      · exact h.lagging.mem_writePage (h.todo hw List.mem_cons_self) hn
      · exact hn
    all_goals cases hstep

theorem sweep_init (entry : Nat × Nat → BufferPage (List Nat)) (pageCount : Nat → Nat) :
    (init entry pageCount).Sweep :=
  ⟨⟨nofun, nofun, fun _ => ⟨rfl, rfl⟩, nofun, nofun⟩, nofun, nofun, nofun, nofun⟩

/-- Records get numbers in their order. -/
theorem logged_of_step (hstep : s.step ev = some s') : s.nextId ≤ s'.nextId ∧
    ∀ n a, (n, a) ∈ s'.logged → (n, a) ∈ s.logged ∨ s.nextId ≤ n := by
  cases ev with
  | log f p =>
    cases hstep
    refine ⟨Nat.le_succ _, fun n a hn => ?_⟩
    rcases List.mem_cons.mp hn with heq | hn
    · cases heq
      exact .inr le_rfl
    · exact .inl hn
  | getPagePointer f p | acquirePage f p | change n f p | releasePage f p | releasePageSync f p
  | start =>
    cases hstep
    exact ⟨by simp [push], fun _ _ => .inl⟩
  | logWrite | flush | flushed order | write | finish =>
    simp only [PageWriter.step] at hstep
    repeat' split at hstep
    all_goals cases hstep
    all_goals exact ⟨by simp [push], fun _ _ => .inl⟩

/-- If every checkpoint starts when the logged changes have been made and are in their
files or on pages that nobody has pinned, and page numbers have 16 bits, then from its
end on the changes with records before its Ckpt record are in the files. -/
theorem checkpoint_complete {entry : Nat × Nat → BufferPage (List Nat)} {pageCount : Nat → Nat}
    (h : Reaches step (fun s ev => s.Legal ev ∧ s.Calm ev) (init entry pageCount) s)
    (hw : s.writer = .writing ckpt [])
    (hlater : Reaches step (fun s ev => s.Legal ev ∧ s.Calm ev) s s') :
    ∀ n a, (n, a) ∈ s'.logged → n < ckpt → n ∈ s'.run.buffer.file a := by
  have hsweep : s.Sweep := h.invariant (sweep_init entry pageCount) fun s ev s' hs hok hstep =>
    hs.step hok.1 hok.2 hstep
  have hdue := hsweep.writing hw
  have hdone : s'.Sweep ∧ ckpt < s'.nextId ∧
      ∀ n a, (n, a) ∈ s'.logged → n < ckpt → n ∈ s'.run.buffer.file a := by
    refine hlater.invariant (I := fun s' => s'.Sweep ∧ ckpt < s'.nextId ∧
        ∀ n a, (n, a) ∈ s'.logged → n < ckpt → n ∈ s'.run.buffer.file a)
      ⟨hsweep, hdue.old, fun n a hn hlt => ?_⟩ fun s ev s' ⟨hs, hold, hfiles⟩ hok hstep => ?_
    · refine (hdue.due hn hlt).resolve_right fun hrest => ?_
      exact List.not_mem_nil hrest.1
    · obtain ⟨hid, hlogged⟩ := logged_of_step hstep
      refine ⟨hs.step hok.1 hok.2 hstep, hold.trans_le hid, fun n a hn hlt => ?_⟩
      have hn' := (hlogged n a hn).resolve_right (by omega)
      exact hs.file_mono hok.1 hstep (hfiles n a hn' hlt)
  exact hdone.2.2

instance (s : PageWriter) : DecidablePred s.Calm
  | .log _ p => inferInstanceAs (Decidable (p < 65536))
  | .start => inferInstanceAs (Decidable (∀ x ∈ s.logged, x.2 ∈ s.run.buffer.bufferHash ∧
    x.1 ∈ s.image x.2 ∧ (x.1 ∈ s.run.buffer.file x.2 ∨
      s.run.holders x.2 = 0 ∧ (s.run.buffer.entry x.2).lock = 0)))
  | .getPagePointer _ _ | .acquirePage _ _ | .change _ _ _ | .releasePage _ _
  | .releasePageSync _ _ | .logWrite | .flush | .flushed _ | .write | .finish => .isTrue trivial

/-- One page is released before the checkpoint, and another written at once. -/
theorem checkpoint_complete_two : ∃ s : PageWriter, s.writer = .writing 2 [] ∧
    (0, (1, 0)) ∈ s.logged ∧ 0 ∈ s.run.buffer.file (1, 0) ∧
    (1, (1, 1)) ∈ s.logged ∧ 1 ∈ s.run.buffer.file (1, 1) := by
  obtain ⟨s, hs, hQ⟩ := Reaches.of_play step (fun s ev => s.Legal ev ∧ s.Calm ev) fresh
    [.log 1 0, .getPagePointer 1 0, .acquirePage 1 0, .change 0 1 0, .releasePage 1 0,
      .log 1 1, .getPagePointer 1 1, .acquirePage 1 1, .change 1 1 1, .releasePageSync 1 1, .start,
      .logWrite, .logWrite, .logWrite, .flushed [(1, 0), (1, 1)], .write, .write]
    (fun s => s.writer = .writing 2 [] ∧ (0, (1, 0)) ∈ s.logged ∧ (1, (1, 1)) ∈ s.logged)
    (by decide +kernel)
  obtain ⟨hw, h₀, h₁⟩ := of_decide_eq_true hQ
  have hfiles := checkpoint_complete hs hw .refl
  exact ⟨s, hw, h₀, hfiles 0 _ h₀ (by omega), h₁, hfiles 1 _ h₁ (by omega)⟩

/-- A transaction changes a page and releases it, and another one reads the page during
the checkpoint. The change is not written. -/
theorem checkpoint_skips_page : ∃ s : PageWriter, Reaches step Legal fresh s ∧
    s.writer = .writing 1 [] ∧ (0, (1, 0)) ∈ s.logged ∧ 0 ∉ s.run.buffer.file (1, 0) := by
  obtain ⟨s, hs, hQ⟩ := Reaches.of_play step Legal fresh
    [.log 1 0, .getPagePointer 1 0, .acquirePage 1 0, .change 0 1 0, .releasePage 1 0,
      .acquirePage 1 0, .start, .logWrite, .logWrite, .flushed [(1, 0)], .write]
    (fun s => s.writer = .writing 1 [] ∧ (0, (1, 0)) ∈ s.logged ∧ 0 ∉ s.run.buffer.file (1, 0))
    (by decide +kernel)
  exact ⟨s, hs, of_decide_eq_true hQ⟩

end PageWriter

end Loxim.Store
