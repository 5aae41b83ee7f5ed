import Loxim.Store.Buffer

/-!
# The page writer and the log

A change of a page is logged, and then made by someone who has the page pinned. The
page writer takes the mutex of the buffer, pushes a Ckpt record, waits until the log
is flushed, writes the dirty pages that nobody has pinned and pushes an EndCkpt
record. A page is here the list of the changes it contains, by their records.
-/

namespace Loxim.Store

/-- Where `dbWriterWrite` is; outside it the mutex of the buffer is free. -/
inductive Writer
  | idle
  | flushing (ckpt : Nat)
  | writing (ckpt : Nat) (todo : List (Nat × Nat))
  deriving DecidableEq

/-- `queue` is what the log thread has to write, `written` what it has written, and
`durable` what has been synced. `logged` has the changes with their pages. -/
structure PageWriter where
  run : BufferRun (List Nat)
  nextId : Nat := 0
  queue : List Nat := []
  written : List Nat := []
  durable : List Nat := []
  logged : List (Nat × (Nat × Nat)) := []
  writer : Writer := .idle

namespace PageWriter

inductive Event
  | log (fileID pageID : Nat)
  | getPagePointer (fileID pageID : Nat)
  | acquirePage (fileID pageID : Nat)
  | change (n fileID pageID : Nat)
  | releasePage (fileID pageID : Nat)
  | releasePageSync (fileID pageID : Nat)
  | logWrite
  | flush
  | start
  | flushed (order : List (Nat × Nat))
  | write
  | finish

def push (s : PageWriter) : PageWriter :=
  { s with nextId := s.nextId + 1, queue := s.queue ++ [s.nextId] }

def image (s : PageWriter) (a : Nat × Nat) : List Nat := (s.run.buffer.entry a).page

/-- A page that comes into being has no changes. -/
def onBuffer (s : PageWriter) (ev : BufferRun.Event (List Nat)) : Option PageWriter :=
  (s.run.step (fun _ => []) ev).map fun run => { s with run }

def step (s : PageWriter) : Event → Option PageWriter
  | .log f p => some { s.push with logged := (s.nextId, bufferAddr f p) :: s.logged }
  | .getPagePointer f p => s.onBuffer (.getPagePointer f p)
  | .acquirePage f p => s.onBuffer (.acquirePage f p)
  | .change n f p => s.onBuffer (.modify f p (n :: s.image (bufferAddr f p)))
  | .releasePage f p => s.onBuffer (.releasePage f p)
  | .releasePageSync f p => s.onBuffer (.releasePageSync f p)
  | .logWrite =>
    match s.queue with
    | [] => none
    | n :: queue => some { s with queue, written := n :: s.written }
  | .flush => if s.queue = [] then some { s with durable := s.written } else none
  | .start => some { s.push with writer := .flushing s.nextId }
  | .flushed order =>
    match s.writer with
    | .flushing ckpt =>
      if s.queue = [] then some { s with durable := s.written, writer := .writing ckpt order }
      else none
    | .idle | .writing _ _ => none
  | .write =>
    match s.writer with
    | .writing ckpt (a :: todo) => some { s with
      run := { s.run with buffer := s.run.buffer.writeDirty a }, writer := .writing ckpt todo }
    | .idle | .flushing _ | .writing _ [] => none
  | .finish =>
    match s.writer with
    | .writing _ [] => some { s.push with writer := .idle }
    | .idle | .flushing _ | .writing _ (_ :: _) => none

/-- The buffer is used under its mutex. A change has its record, and is made on a
page that is pinned, without the mutex. -/
def Legal (s : PageWriter) : Event → Prop
  | .log _ _ | .logWrite | .flush | .write | .finish => True
  | .getPagePointer f p => s.writer = .idle ∧ s.run.Legal (.getPagePointer f p)
  | .acquirePage f p => s.writer = .idle ∧ s.run.Legal (.acquirePage f p)
  | .releasePage f p => s.writer = .idle ∧ s.run.Legal (.releasePage f p)
  | .releasePageSync f p => s.writer = .idle ∧ s.run.Legal (.releasePageSync f p)
  | .change n f p => (n, bufferAddr f p) ∈ s.logged ∧ 0 < s.run.holders (bufferAddr f p)
  | .start => s.writer = .idle
  | .flushed order => order.Nodup ∧ ∀ a, a ∈ order ↔ a ∈ s.run.buffer.bufferHash

variable {s s' : PageWriter} {ev : Event} {a : Nat × Nat} {n f p ckpt : Nat}
  {todo : List (Nat × Nat)}

/-- A buffer without changes. -/
def init (entry : Nat × Nat → BufferPage (List Nat)) (pageCount : Nat → Nat) : PageWriter where
  run := .empty entry (fun _ => []) pageCount

-- ---------------------------------------------------------------------------
-- What is logged before it is written
-- ---------------------------------------------------------------------------

/-- Pages are released with `releasePage`, and a page that is changed has fewer than
256 users. -/
def Met (s : PageWriter) : Event → Prop
  | .releasePageSync _ _ => False
  | .change _ f p => s.run.holders (bufferAddr f p) < 256
  | .log _ _ | .getPagePointer _ _ | .acquirePage _ _ | .releasePage _ _ | .logWrite | .flush
  | .start | .flushed _ | .write | .finish => True

def Pushed (s : PageWriter) (n : Nat) : Prop := n ∈ s.queue ∨ n ∈ s.written

/-- Changes are logged before they are made, and once the log is flushed those on
pages that nobody has pinned are durable. -/
structure Ahead (s : PageWriter) : Prop where
  present {a : Nat × Nat} : a ∈ s.run.buffer.bufferHash → (s.run.buffer.entry a).haspage = true
  pins {a : Nat × Nat} : a ∈ s.run.buffer.bufferHash →
    (s.run.buffer.entry a).lock = s.run.holders a % 256
  absent {a : Nat × Nat} : a ∉ s.run.buffer.bufferHash → s.run.holders a = 0
  todo {ckpt : Nat} {todo : List (Nat × Nat)} {a : Nat × Nat} :
    s.writer = .writing ckpt todo → a ∈ todo → a ∈ s.run.buffer.bufferHash
  logged {n : Nat} {a : Nat × Nat} : (n, a) ∈ s.logged → s.Pushed n
  made {n : Nat} {a : Nat × Nat} : a ∈ s.run.buffer.bufferHash → n ∈ s.image a → s.Pushed n
  files {n : Nat} {a : Nat × Nat} : n ∈ s.run.buffer.file a → s.Pushed n
  durable {ckpt : Nat} {todo : List (Nat × Nat)} {a : Nat × Nat} {n : Nat} :
    s.writer = .writing ckpt todo → a ∈ s.run.buffer.bufferHash → (s.run.buffer.entry a).lock = 0 →
    n ∈ s.image a → n ∈ s.durable

theorem Ahead.mem_of_held (h : s.Ahead) (hheld : 0 < s.run.holders a) :
    a ∈ s.run.buffer.bufferHash := by
  by_contra hnot
  exact absurd (h.absent hnot) hheld.ne'

theorem Ahead.hasPage (h : s.Ahead) (ha : a ∈ s.run.buffer.bufferHash) :
    s.run.buffer.hasPage a = true := by
  simp [Buffer.hasPage, ha, h.present ha]

/-- A page is changed, or the file it is in. -/
theorem Ahead.setEntry {e : BufferPage (List Nat)} {dirtyPages : Int}
    {file : Nat × Nat → List Nat} {pageCount : Nat → Nat} {holders : Nat × Nat → Nat}
    (h : s.Ahead) (ha : a ∈ s.run.buffer.bufferHash) (he : e.haspage = true)
    (hlock : e.lock = holders a % 256) (hholders : ∀ x, x ≠ a → holders x = s.run.holders x)
    (hpage : ∀ n ∈ e.page, s.Pushed n) (hfile : ∀ x, ∀ n ∈ file x, s.Pushed n)
    (hdurable : ∀ ckpt todo, s.writer = .writing ckpt todo → e.lock = 0 →
      ∀ n ∈ e.page, n ∈ s.durable) :
    Ahead { s with run := {
      buffer := { s.run.buffer.setEntry a e with dirtyPages, file, pageCount }, holders } } := by
  have hself := s.run.buffer.setEntry_self a e
  have hother (x : Nat × Nat) (hx : x ≠ a) := s.run.buffer.setEntry_of_ne e hx
  refine ⟨fun {x} hx => ?_, fun {x} hx => ?_, fun {x} hx => ?_, h.todo, h.logged,
    fun {n x} hx hn => ?_, fun {n x} => hfile x n, fun {ckpt todo x n} hw hx hl hn => ?_⟩
  · rcases eq_or_ne x a with rfl | hne
    · simp only [hself, he]
    · simp only [hother x hne]
      exact h.present hx
  · rcases eq_or_ne x a with rfl | hne
    · simp only [hself, hlock]
    · simp only [hother x hne, hholders x hne]
      exact h.pins hx
  · have hne : x ≠ a := fun heq => hx (heq ▸ ha)
    simp only [hholders x hne]
    exact h.absent hx
  · rcases eq_or_ne x a with rfl | hne
    · simp only [image, hself] at hn
      exact hpage n hn
    · simp only [image, hother x hne] at hn
      exact h.made hx hn
  · rcases eq_or_ne x a with rfl | hne
    · simp only [image, hself] at hl hn
      exact hdurable ckpt todo hw hl n hn
    · simp only [image, hother x hne] at hl hn
      exact h.durable hw hx hl hn

theorem Ahead.getPagePointer (h : s.Ahead) (hidle : s.writer = .idle) :
    Ahead { s with run := { s.run with
      buffer := s.run.buffer.getPagePointer (fun _ => []) f p } } := by
  have hgrows : Buffer.Grows (fun _ => []) s.run.buffer _ :=
    Buffer.grows_getPagePointer s.run.buffer f p
  have hnew {x : Nat × Nat} (hx : x ∉ s.run.buffer.bufferHash) := h.absent hx
  refine ⟨fun {x} hx => ?_, fun {x} hx => ?_, fun {x} hx => ?_, fun hw => ?_, h.logged,
    fun {n x} hx hn => ?_, fun {n x} hn => ?_, fun hw => ?_⟩
  · by_cases hold : x ∈ s.run.buffer.bufferHash
    · simp only [(hgrows.kept hold).2]
      exact h.present hold
    · exact (hgrows.new hx hold).2.1
  · by_cases hold : x ∈ s.run.buffer.bufferHash
    · simp only [(hgrows.kept hold).2]
      exact h.pins hold
    · simp only [(hgrows.new hx hold).2.2.1, hnew hold, Nat.zero_mod]
  · exact h.absent fun hold => hx (hgrows.kept hold).1
  · cases hidle.symm.trans hw
  · by_cases hold : x ∈ s.run.buffer.bufferHash
    · simp only [image, (hgrows.kept hold).2] at hn
      exact h.made hold hn
    · -- a page that comes in has the changes of its file, or none
      obtain ⟨y, hy⟩ | ⟨y, -, hy⟩ := (hgrows.new hx hold).2.2.2
      · simp [image, hy] at hn
      · simp only [image, hy] at hn
        exact h.files hn
  · simp only [hgrows.file] at hn
    exact h.files hn
  · cases hidle.symm.trans hw

theorem Ahead.acquirePage (h : s.Ahead) (hidle : s.writer = .idle)
    (ha : bufferAddr f p ∈ s.run.buffer.bufferHash) : Ahead { s with run := {
      buffer := (s.run.buffer.acquirePage f p).1
      holders := Function.update s.run.holders (bufferAddr f p)
        (s.run.holders (bufferAddr f p) + 1) } } := by
  simp only [Buffer.acquirePage, h.hasPage ha, if_true]
  refine h.setEntry ha (h.present ha) ?_ (fun x hx => Function.update_of_ne hx ..)
    (fun n => h.made ha) (fun x n => h.files) fun _ _ hw => ?_
  · rw [Function.update_self, h.pins ha, Nat.mod_add_mod]
  · cases hidle.symm.trans hw

theorem Ahead.releasePage (h : s.Ahead) (hidle : s.writer = .idle)
    (hheld : 0 < s.run.holders (bufferAddr f p)) : Ahead { s with run := {
      buffer := (s.run.buffer.releasePage f p).1
      holders := Function.update s.run.holders (bufferAddr f p)
        (s.run.holders (bufferAddr f p) - 1) } } := by
  have ha := h.mem_of_held hheld
  simp only [Buffer.releasePage, h.hasPage ha, if_true]
  refine h.setEntry ha (h.present ha) ?_ (fun x hx => Function.update_of_ne hx ..)
    (fun n => h.made ha) (fun x n => h.files) fun _ _ hw => ?_
  · rw [Function.update_self, h.pins ha]
    show (_ % 256 + 255) % 256 = _
    omega
  · cases hidle.symm.trans hw

/-- While the pages are written those are changed that are pinned. -/
theorem Ahead.change (h : s.Ahead) (hlog : (n, bufferAddr f p) ∈ s.logged)
    (hheld : 0 < s.run.holders (bufferAddr f p)) (hfew : s.run.holders (bufferAddr f p) < 256) :
    Ahead { s with run := { s.run with
      buffer := s.run.buffer.modify f p (n :: s.image (bufferAddr f p)) } } := by
  have ha := h.mem_of_held hheld
  refine h.setEntry ha (h.present ha) (h.pins ha) (fun _ _ => rfl) (fun m hm => ?_)
    (fun x n => h.files) fun _ _ _ hl => ?_
  · rcases List.mem_cons.mp hm with rfl | hm
    · exact h.logged hlog
    · exact h.made ha hm
  · have hl' : (s.run.buffer.entry (bufferAddr f p)).lock = 0 := hl
    rw [h.pins ha, Nat.mod_eq_of_lt hfew] at hl'
    omega

theorem Ahead.writeDirty (h : s.Ahead) (hw : s.writer = .writing ckpt (a :: todo)) :
    Ahead { s with
      run := { s.run with buffer := s.run.buffer.writeDirty a }, writer := .writing ckpt todo } := by
  have ha := h.todo hw List.mem_cons_self
  have hrest (hs : Ahead { s with run := { s.run with buffer := s.run.buffer.writeDirty a } }) :
      Ahead { s with
        run := { s.run with buffer := s.run.buffer.writeDirty a }, writer := .writing ckpt todo } := by
    refine ⟨hs.present, hs.pins, hs.absent, fun hw' hx => ?_, hs.logged, hs.made, hs.files,
      fun _ => hs.durable hw⟩
    cases hw'
    exact hs.todo hw (List.mem_cons_of_mem a hx)
  apply hrest
  unfold Buffer.writeDirty
  split
  · refine h.setEntry ha (h.present ha) (h.pins ha) (fun _ _ => rfl) (fun n => h.made ha)
      (fun x n hn => ?_) fun _ _ _ hl n hn => ?_
    · rcases eq_or_ne x a with rfl | hne
      · rw [Function.update_self] at hn
        exact h.made ha hn
      · rw [Function.update_of_ne hne] at hn
        exact h.files hn
    · exact h.durable hw ha hl hn
  · exact h

theorem Pushed.push (h : s.Pushed n) : s.push.Pushed n := by
  refine h.imp (fun hq => ?_) id
  exact List.mem_append_left _ hq

/-- A record is pushed, and the writer does not write. -/
theorem Ahead.push {logged : List (Nat × (Nat × Nat))} {writer : Writer} (h : s.Ahead)
    (hlogged : ∀ n a, (n, a) ∈ logged → (n, a) ∈ s.logged ∨ n = s.nextId)
    (hwriter : writer = s.writer ∨ ∀ ckpt todo, writer ≠ .writing ckpt todo) :
    Ahead { s.push with logged, writer } := by
  refine ⟨h.present, h.pins, h.absent, fun hw => ?_, fun {n a} hn => ?_, fun ha hn => ?_,
    fun hn => ?_, fun hw => ?_⟩
  · rcases hwriter with rfl | hnot
    · exact h.todo hw
    · exact absurd hw (hnot _ _)
  · rcases hlogged n a hn with hold | rfl
    · exact (h.logged hold).push
    · exact .inl (List.mem_append_right _ List.mem_cons_self)
  · exact (h.made ha hn).push
  · exact (h.files hn).push
  · rcases hwriter with rfl | hnot
    · exact h.durable hw
    · exact absurd hw (hnot _ _)

theorem Ahead.logWrite {queue : List Nat} (h : s.Ahead) (hq : s.queue = n :: queue) :
    Ahead { s with queue, written := n :: s.written } := by
  have hmoved {m : Nat} (hm : s.Pushed m) :
      Pushed { s with queue, written := n :: s.written } m := by
    rcases hm with hm | hm
    · rw [hq] at hm
      rcases List.mem_cons.mp hm with rfl | hm
      · exact .inr List.mem_cons_self
      · exact .inl hm
    · exact .inr (List.mem_cons_of_mem n hm)
  exact ⟨h.present, h.pins, h.absent, h.todo, fun hn => hmoved (h.logged hn),
    fun ha hn => hmoved (h.made ha hn), fun hn => hmoved (h.files hn), h.durable⟩

/-- When the queue is empty all that is logged is durable. -/
theorem Ahead.flush {writer : Writer} (h : s.Ahead) (hq : s.queue = [])
    (hwriter : ∀ ckpt todo, writer = .writing ckpt todo →
      ∀ a ∈ todo, a ∈ s.run.buffer.bufferHash) :
    Ahead { s with durable := s.written, writer } := by
  have hwritten {m : Nat} (hm : s.Pushed m) : m ∈ s.written := by
    refine hm.resolve_left ?_
    rw [hq]
    exact List.not_mem_nil
  exact ⟨h.present, h.pins, h.absent, fun hw ha => hwriter _ _ hw _ ha, h.logged, h.made, h.files,
    fun _ ha _ hn => hwritten (h.made ha hn)⟩

theorem Ahead.step (h : s.Ahead) (hlegal : s.Legal ev) (hmet : s.Met ev)
    (hstep : s.step ev = some s') : s'.Ahead := by
  cases ev with
  | log f p =>
    cases hstep
    refine h.push (fun m b hm => ?_) (.inl rfl)
    rcases List.mem_cons.mp hm with heq | hm
    · cases heq
      exact .inr rfl
    · exact .inl hm
  | getPagePointer f p =>
    cases hstep
    exact h.getPagePointer hlegal.1
  | acquirePage f p =>
    cases hstep
    exact h.acquirePage hlegal.1 hlegal.2
  | change n f p =>
    cases hstep
    exact h.change hlegal.1 hlegal.2 hmet
  | releasePage f p =>
    cases hstep
    exact h.releasePage hlegal.1 hlegal.2
  | releasePageSync f p => exact hmet.elim
  | logWrite =>
    simp only [PageWriter.step] at hstep
    split at hstep
    · cases hstep
    · rename_i hq
      cases hstep
      exact h.logWrite hq
  | flush =>
    simp only [PageWriter.step] at hstep
    split at hstep
    · rename_i hq
      cases hstep
      exact h.flush hq fun _ _ hw _ => h.todo hw
    · cases hstep
  | start =>
    cases hstep
    exact h.push (fun _ _ => .inl) (.inr nofun)
  | flushed order =>
    simp only [PageWriter.step] at hstep
    split at hstep
    · split at hstep
      · rename_i hq
        cases hstep
        refine h.flush hq fun _ _ hw a ha => (hlegal.2 a).mp ?_
        cases hw
        exact ha
      · cases hstep
    all_goals cases hstep
  | write =>
    simp only [PageWriter.step] at hstep
    split at hstep
    · rename_i hw
      cases hstep
      exact h.writeDirty hw
    all_goals cases hstep
  | finish =>
    simp only [PageWriter.step] at hstep
    split at hstep
    · cases hstep
      exact h.push (fun _ _ => .inl) (.inr nofun)
    all_goals cases hstep

theorem ahead_init (entry : Nat × Nat → BufferPage (List Nat)) (pageCount : Nat → Nat) :
    (init entry pageCount).Ahead :=
  ⟨nofun, nofun, fun _ => rfl, nofun, nofun, nofun, nofun, nofun⟩

instance (s : PageWriter) : DecidablePred s.Legal
  | .log _ _ | .logWrite | .flush | .write | .finish => .isTrue trivial
  | .getPagePointer f p =>
    inferInstanceAs (Decidable (s.writer = .idle ∧ s.run.Legal (.getPagePointer f p)))
  | .acquirePage f p =>
    inferInstanceAs (Decidable (s.writer = .idle ∧ s.run.Legal (.acquirePage f p)))
  | .releasePage f p =>
    inferInstanceAs (Decidable (s.writer = .idle ∧ s.run.Legal (.releasePage f p)))
  | .releasePageSync f p =>
    inferInstanceAs (Decidable (s.writer = .idle ∧ s.run.Legal (.releasePageSync f p)))
  | .change n f p => inferInstanceAs
    (Decidable ((n, bufferAddr f p) ∈ s.logged ∧ 0 < s.run.holders (bufferAddr f p)))
  | .start => inferInstanceAs (Decidable (s.writer = .idle))
  | .flushed order =>
    decidable_of_iff (order.Nodup ∧ order.toFinset = s.run.buffer.bufferHash)
      (by simp [Legal, Finset.ext_iff])

instance (s : PageWriter) : DecidablePred s.Met
  | .releasePageSync _ _ => .isFalse id
  | .change _ f p => inferInstanceAs (Decidable (s.run.holders (bufferAddr f p) < 256))
  | .log _ _ | .getPagePointer _ _ | .acquirePage _ _ | .releasePage _ _ | .logWrite | .flush
  | .start | .flushed _ | .write | .finish => .isTrue trivial

/-- A buffer over empty files. -/
def fresh : PageWriter := init (fun _ => { dirty := false, page := [] }) fun _ => 0

/-- The call is not `releasePageSync`. -/
def Event.asynchronous : Event → Bool
  | .releasePageSync _ _ => false
  | .log _ _ | .getPagePointer _ _ | .acquirePage _ _ | .change _ _ _ | .releasePage _ _ | .logWrite
  | .flush | .start | .flushed _ | .write | .finish => true

end PageWriter

end Loxim.Store
