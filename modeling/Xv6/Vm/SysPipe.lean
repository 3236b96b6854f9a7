import Xv6.Vm.Translate
/-!
# Making a pipe — `sys_pipe` of `kernel/sysfile.c`

Two files, a page and two descriptors are taken one after the other, and
then the descriptors are copied to user memory. Any of it can fail, and
what has been taken until then is given back: the page goes when the
second of its two ends is closed.
-/

namespace Xv6

open Common Function List

namespace Vm

variable {k : Symbols} {o o' : ℕ → Owner} {s s' : State} {P : Owner → Prop} {p f0 f1 pi : ℕ}

/-- **What a function does, the file table apart.** -/
abbrev DoesFile (k : Symbols) (P : Owner → Prop) (o o' : ℕ → Owner) (s s' : State) : Prop :=
  Does k P o o' { s with file := s'.file } s'

theorem Does.doesFile (h : Does k P o o' s s') : DoesFile k P o o' s s' :=
  ⟨h.heap, h.frame, h.proc, rfl, h.files⟩

theorem DoesFile.trans {o'' : ℕ → Owner} {s'' : State} (h : DoesFile k P o o' s s')
    (h' : DoesFile k P o' o'' s' s'') : DoesFile k P o o'' s s'' :=
  ⟨h'.heap, h.frame.trans h'.frame, h'.proc.trans h.proc, rfl, h'.files.trans h.files⟩

/-! ## Files -/

/-- A file that is not in use has no type. -/
def Blank (s : State) : Prop := ∀ i, (s.file i).ref = 0 → (s.file i).type = .none

/-- **One file has been set**, and that is all. -/
structure SetFile (s s' : State) (i : ℕ) (f : File) : Prop where
  file : s'.file = update s.file i f
  rest : s' = { s with file := s'.file }

theorem SetFile.does {i : ℕ} {f : File} (h : SetFile s s' i f) (hh : Heap k o s) :
    DoesFile k P o o s s' := by
  rw [h.rest]
  exact .refl (hh.congr rfl fun _ _ => rfl)

/-- **`filealloc`** takes a file that is not in use. -/
theorem filealloc_returns : Returns filealloc s fun res s' =>
    match res with
    | none => s' = s
    | some i => (s.file i).ref = 0 ∧ SetFile s s' i { s.file i with ref := 1 } := by
  simp only [filealloc, Returns.gets_bind_iff]
  cases hfind : (List.range NFILE).find? fun i => (s.file i).ref = 0 with
  | none => exact .pure rfl
  | some i =>
    have href : (s.file i).ref = 0 := by simpa using find?_some hfind
    simp only [setFile, Returns.modify_bind_iff]
    exact .pure ⟨href, rfl, rfl⟩

/-- The last reference to a file is given up. -/
theorem fileclose_last {i : ℕ} (href : (s.file i).ref = 1) :
    fileclose k i s = (if (s.file i).type = .pipe then
        pipeclose k (s.file i).pipe (s.file i).writable
      else if (s.file i).type = .inode ∨ (s.file i).type = .device then
        onFiles do
          Files.beginOp
          (s.file i).ip.forM Files.iput
          Files.endOp
      else pure ())
        { s with file := update s.file i { s.file i with ref := 0, type := .none } } := by
  have hone : ¬ (s.file i).ref < 1 := by omega
  have hlast : ¬ 0 < (s.file i).ref - 1 := by omega
  simp only [fileclose, Prog.gets_bind, if_neg hone, if_neg hlast, setFile, Prog.modify_bind]

/-- A file that has just been allocated is closed again. -/
theorem fileclose_taken {i : ℕ} {file : ℕ → File} {f : File}
    (hset : s.file = update file i { f with ref := 1 }) (hf : file i = f) (href : f.ref = 0)
    (htype : f.type = .none) : Returns (fileclose k i) s fun _ s' => s' = { s with file } := by
  have hi : s.file i = { f with ref := 1 } := by rw [hset, update_self]
  have hback : update s.file i { s.file i with ref := 0, type := .none } = file := by
    rw [hi, hset, update_idem, ← href, ← htype, ← hf]
    exact update_eq_self ..
  refine ⟨(), _, ?_, rfl⟩
  rw [fileclose_last (by rw [hi]), hback, hi, htype]
  rfl

/-! ## The pipe -/

/-- **An empty pipe**, open at both ends. -/
structure NewPipe (mem : ℕ → Page) (pi : ℕ) : Prop where
  opened : ∀ writable, opened mem pi writable = 1
  nread : (mem pi).readLE 536 4 = 0
  nwrite : (mem pi).readLE 540 4 = 0

theorem newPipe_stores {mem : ℕ → Page} (page : Page) (h : mem pi =
    (((page.writeLE (openOff false) 4 1).writeLE (openOff true) 4 1).writeLE 540 4 0).writeLE 536 4 0) :
    NewPipe mem pi := by
  have hoff : openOff false = 544 ∧ openOff true = 548 := ⟨rfl, rfl⟩
  rw [hoff.1, hoff.2] at h
  refine ⟨fun writable => ?_, ?_, ?_⟩
  · cases writable with
    | false =>
      rw [opened, h, hoff.1, Bytes.readLE_writeLE_of_disjoint (by decide),
        Bytes.readLE_writeLE_of_disjoint (by decide), Bytes.readLE_writeLE_of_disjoint (by decide),
        Bytes.readLE_writeLE (by decide)]
      rfl
    | true =>
      rw [opened, h, hoff.2, Bytes.readLE_writeLE_of_disjoint (by decide),
        Bytes.readLE_writeLE_of_disjoint (by decide), Bytes.readLE_writeLE (by decide)]
      rfl
  · rw [h, Bytes.readLE_writeLE (by decide), Nat.zero_mod]
  · rw [h, Bytes.readLE_writeLE_of_disjoint (by decide), Bytes.readLE_writeLE (by decide),
      Nat.zero_mod]

/-- A file for an end of a pipe. -/
def pipeEnd (f : File) (pi : ℕ) (writable : Bool) : File :=
  { f with ref := 1, type := .pipe, readable := !writable, writable, pipe := pi }

/-- **A pipe has been made**: a page that was free, and a file for each of
its ends. -/
structure Piped (k : Symbols) (o : ℕ → Owner) (s s' : State) (f0 f1 pi : ℕ) : Prop where
  ne : f0 ≠ f1
  free0 : (s.file f0).ref = 0
  free1 : (s.file f1).ref = 0
  file : s'.file = update (update s.file f0 (pipeEnd (s.file f0) pi false)) f1
    (pipeEnd (s.file f1) pi true)
  fresh : o pi = .free
  heap : Heap k (update o pi .pipe) s'
  files : s'.files = s.files
  page : NewPipe s'.mem pi

/-- **`pipealloc`** makes a pipe, or leaves no trace. -/
theorem pipealloc_returns (hh : Heap k o s) (hblank : Blank s) :
    Returns (pipealloc k) s fun res s' =>
      match res with
      | none => ∀ P, Does k P o o s s'
      | some (f0, f1) => ∃ pi, Piped k o s s' f0 f1 pi ∧ s'.proc = s.proc ∧
          ∀ b, b ≠ pi → s'.mem b = s.mem b := by
  rw [pipealloc]
  refine .bind (filealloc_returns.mono ?_)
  rintro (_ | f0) s₁ hs₁
  · obtain rfl : s₁ = s := hs₁
    exact .pure fun _ => .refl hh
  obtain ⟨h0, hset₁⟩ := hs₁
  have hdo₁ : ∀ P, DoesFile k P o o s s₁ := fun _ => hset₁.does hh
  have hf₁ : s₁.file f0 = { s.file f0 with ref := 1 } := by rw [hset₁.file, update_self]
  refine .bind (filealloc_returns.mono ?_)
  rintro (_ | f1) s₂ hs₂
  · obtain rfl : s₂ = s₁ := hs₂
    refine .bind ((fileclose_taken hset₁.file rfl h0 (hblank f0 h0)).mono ?_)
    rintro _ s₃ rfl
    rw [hset₁.rest]
    exact .pure fun P => .refl hh
  obtain ⟨h1, hset₂⟩ := hs₂
  have hne : f0 ≠ f1 := by
    rintro rfl
    rw [hf₁] at h1
    cases h1
  have hf1 : s₁.file f1 = s.file f1 := by rw [hset₁.file, update_of_ne hne.symm]
  rw [hf1] at h1
  have hf₂ : s₂.file = update (update s.file f1 { s.file f1 with ref := 1 }) f0
      { s.file f0 with ref := 1 } := by
    rw [hset₂.file, hf1, hset₁.file, update_comm hne]
  have hdo₂ : ∀ P, DoesFile k P o o s s₂ := fun P => (hdo₁ P).trans (hset₂.does (hdo₁ P).heap)
  refine .bind ((kalloc_returns (P := fun _ _ => True) (hdo₂ fun _ => True).heap (fun _ => .pipe)
    (fun _ => ⟨Owner.noConfusion, Owner.noConfusion⟩) (fun _ => trivial) fun _ => trivial).mono ?_)
  rintro pi s₃ (⟨rfl, hdo₃, hmem⟩ | ⟨hpos, hfree, hdo₃, hmem⟩)
  · have hf₃ := (hdo₃ fun _ => True).file.trans hf₂
    rw [if_pos rfl]
    refine .bind ((fileclose_taken hf₃ (update_of_ne hne ..) h0 (hblank f0 h0)).mono ?_)
    rintro _ s₄ rfl
    refine .bind ((fileclose_taken rfl rfl h1 (hblank f1 h1)).mono ?_)
    rintro _ s₅ rfl
    refine .pure fun P => ?_
    have hdo := (hdo₂ P).trans (hdo₃ P).doesFile
    exact ⟨⟨hdo.heap.managed, hdo.heap.chain⟩, hdo.frame, hdo.proc, rfl, hdo.files⟩
  · rw [if_neg hpos]
    simp only [store, setFile, Returns.modify_bind_iff]
    refine .pure ⟨pi, ⟨hne, h0, h1, ?_, hfree, ?_, ?_, ?_⟩, ?_, fun b hb => ?_⟩
    · simp only
      rw [hdo₃.file, hf₂]
      funext i
      by_cases hi1 : i = f1
      · subst hi1
        simp only [update_self, update_of_ne hne.symm, pipeEnd, Bool.not_true]
      · by_cases hi0 : i = f0
        · subst hi0
          simp only [update_self, update_of_ne hne, pipeEnd, Bool.not_false]
        · simp only [update_of_ne hi0, update_of_ne hi1]
    · refine hdo₃.heap.congr rfl fun b hb => ?_
      have hbp : b ≠ pi := by
        rintro rfl
        rw [update_self] at hb
        cases hb
      simp only [update_of_ne hbp]
    · exact hdo₃.files.trans (hdo₂ fun _ => True).files
    · refine newPipe_stores (s₃.mem pi) ?_
      simp only [update_self]
    · exact hdo₃.proc.trans (hdo₂ fun _ => True).proc
    · simp only [update_of_ne hb]
      rw [hmem b hb, hset₂.rest, hset₁.rest]

theorem opened_store {mem : ℕ → Page} {page : Page} {writable w : Bool}
    (h : mem pi = page.writeLE (openOff writable) 4 0) :
    opened mem pi w = if w = writable then 0 else page.readLE (openOff w) 4 := by
  split
  · rename_i hw
    rw [opened, h, hw, Bytes.readLE_writeLE (by cases writable <;> decide), Nat.zero_mod]
  · rename_i hw
    have hapart : openOff w + 4 ≤ openOff writable ∨ openOff writable + 4 ≤ openOff w := by
      revert hw
      cases writable <;> cases w <;> decide
    rw [opened, h, Bytes.readLE_writeLE_of_disjoint hapart]

/-- **`pipeclose`** frees the page if the other end is closed. -/
theorem pipeclose_returns {writable : Bool} (hh : Heap k o s) (hpi : o pi = .pipe) :
    Returns (pipeclose k pi writable) s fun _ s' =>
      (s'.proc = s.proc ∧ s'.files = s.files ∧ s'.file = s.file) ∧
      if opened s.mem pi (!writable) = 0 then Heap k (update o pi .free) s'
      else Heap k o s' ∧ opened s'.mem pi writable = 0 := by
  have hused : Owner.pipe.Used := ⟨Owner.noConfusion, Owner.noConfusion⟩
  simp only [pipeclose, store, Returns.modify_bind_iff]
  generalize hs₁ : State.mk _ _ _ _ _ _ _ = s₁
  rw [Returns.gets_bind_iff]
  have hmem : s₁.mem = update s.mem pi ((s.mem pi).writeLE (openOff writable) 4 0) := by rw [← hs₁]
  have hdo : Does k (fun _ => True) o o s s₁ := by
    refine .write hh trivial (by rw [hpi]; exact hused) (by rw [← hs₁]) (fun c hc => ?_) (by rw [← hs₁])
      (by rw [← hs₁]) (by rw [← hs₁])
    rw [hmem, update_of_ne hc]
  have hopen : ∀ w, opened s₁.mem pi w = if w = writable then 0 else opened s.mem pi w := by
    intro w
    exact opened_store (by rw [hmem, update_self])
  have hclosed : (opened s₁.mem pi false = 0 ∧ opened s₁.mem pi true = 0) ↔
      opened s.mem pi (!writable) = 0 := by
    rw [hopen, hopen]
    cases writable <;> simp
  simp only [hclosed, decide_eq_true_eq]
  split
  · refine (kfree_returns (P := fun _ => True) hdo.heap hpi hused trivial trivial).mono ?_
    rintro _ s₂ ⟨hdo₂, -⟩
    have hdo := hdo.trans hdo₂
    exact ⟨⟨hdo.proc, hdo.files, hdo.file⟩, hdo.heap⟩
  · exact .pure ⟨⟨hdo.proc, hdo.files, hdo.file⟩, hdo.heap, by rw [hopen, if_pos rfl]⟩

/-! ## Descriptors -/

/-- The state with another descriptor table for a process. -/
def withFds (s : State) (p : ℕ) (ofile : ℕ → Option ℕ) : State :=
  { s with proc := update s.proc p { s.proc p with ofile } }

theorem withFds_withFds (s : State) (p : ℕ) (g h : ℕ → Option ℕ) :
    withFds (withFds s p g) p h = withFds s p h := by
  simp only [withFds, update_self, update_idem]

theorem withFds_self (s : State) (p : ℕ) : withFds s p (s.proc p).ofile = s := by
  rw [withFds, update_eq_self]

theorem ofile_withFds (s : State) (p : ℕ) (g : ℕ → Option ℕ) :
    ((withFds s p g).proc p).ofile = g := by
  simp only [withFds, update_self]

/-- The descriptor table is put back. -/
theorem withFds_back {t : State} {g h : ℕ → Option ℕ} (ht : t.proc = (withFds s p g).proc)
    (hback : h = (s.proc p).ofile) : (withFds t p h).proc = s.proc := by
  rw [hback]
  simp only [withFds] at ht ⊢
  rw [ht, update_self, update_idem]
  exact update_eq_self ..

theorem setOfile_run (p fd : ℕ) (f : Option ℕ) (s : State) :
    setOfile p fd f s = .ok ((), withFds s p (update (s.proc p).ofile fd f)) := rfl

/-- **`fdalloc`** takes a descriptor that is not in use. -/
theorem fdalloc_returns (p f : ℕ) : Returns (fdalloc p f) s fun res s' =>
    match res with
    | none => s' = s
    | some fd => fd < NOFILE ∧ (s.proc p).ofile fd = none ∧
        s' = withFds s p (update (s.proc p).ofile fd (some f)) := by
  simp only [fdalloc, Returns.gets_bind_iff]
  cases hfind : (List.range NOFILE).find? fun fd => (s.proc p).ofile fd = none with
  | none => exact .pure rfl
  | some fd =>
    have hfd : (s.proc p).ofile fd = none := by simpa using find?_some hfind
    simp only [setOfile, setProc, Returns.modify_bind_iff]
    exact .pure ⟨mem_range.1 (mem_of_find?_eq_some hfind), hfd, rfl⟩

/-- The descriptors of a list are given up. -/
theorem clearFds_returns (p : ℕ) (fds : List ℕ) :
    Returns (fds.forM fun fd => setOfile p fd none : Kern State PUnit) s fun _ s' =>
      s' = withFds s p (fds.foldl (fun g fd => update g fd none) (s.proc p).ofile) := by
  induction fds generalizing s with
  | nil => exact .pure (withFds_self s p).symm
  | cons fd fds ih =>
    refine .bind ⟨_, _, setOfile_run .., ih.mono ?_⟩
    rintro _ s' rfl
    rw [ofile_withFds, withFds_withFds, foldl_cons]

/-! ## `sys_pipe` -/

/-- **Nothing is left of a call**: descriptors, references and types of
files, and free pages are as they were. -/
structure NoTrace (s s' : State) : Prop where
  proc : s'.proc = s.proc
  ref : ∀ i, (s'.file i).ref = (s.file i).ref
  type : ∀ i, (s'.file i).type = (s.file i).type
  free : SameFree s s'
  files : s'.files = s.files

/-- **One end of a pipe is closed**, and the page is freed if the other is
closed. -/
theorem fileclose_end {i : ℕ} {f : File} {writable : Bool} (hh : Heap k o s)
    (hf : s.file i = pipeEnd f pi writable) (hpi : o pi = .pipe) :
    Returns (fileclose k i) s fun _ s' =>
      (s'.proc = s.proc ∧ s'.files = s.files ∧
        s'.file = update s.file i { pipeEnd f pi writable with ref := 0, type := .none }) ∧
      if opened s.mem pi (!writable) = 0 then Heap k (update o pi .free) s'
      else Heap k o s' ∧ opened s'.mem pi writable = 0 := by
  have hrun : fileclose k i s = pipeclose k pi writable { s with
      file := update s.file i { pipeEnd f pi writable with ref := 0, type := .none } } := by
    have htype : (pipeEnd f pi writable).type = .pipe := rfl
    rw [fileclose_last (by rw [hf]; rfl), hf, if_pos htype]
    rfl
  generalize update s.file i _ = file at hrun ⊢
  have hheap : Heap k o { s with file } := hh.congr rfl fun _ _ => rfl
  exact (pipeclose_returns hheap hpi).run_eq hrun

/-- Writing to pages in use that are not the pipe's leaves it alone. -/
theorem Piped.congr {t t' : State} (h : Piped k o s t f0 f1 pi) (hfile : t'.file = t.file)
    (hlist : t'.freelist = t.freelist) (hfiles : t'.files = t.files)
    (hmem : ∀ b, o b = .free → t'.mem b = t.mem b) : Piped k o s t' f0 f1 pi := by
  have hpi := hmem pi h.fresh
  refine ⟨h.ne, h.free0, h.free1, hfile.trans h.file, h.fresh, h.heap.congr hlist fun b hb => ?_,
    hfiles.trans h.files, ⟨fun w => ?_, ?_, ?_⟩⟩
  · by_cases hbp : b = pi
    · rw [hbp, hpi]
    · rw [update_of_ne hbp] at hb
      exact hmem b hb
  · rw [opened, hpi]
    exact h.page.opened w
  · rw [hpi]
    exact h.page.nread
  · rw [hpi]
    exact h.page.nwrite

/-- **The pipe is given up again**, with the descriptors that were taken for
it. -/
theorem Piped.fails {t t' : State} {fds : List ℕ} {g : ℕ → Option ℕ}
    (h : Piped k o s t f0 f1 pi) (hblank : Blank s) (hh : Heap k o s) (hproc : t.proc = s.proc)
    (ht' : t' = { withFds t p g with mem := t'.mem })
    (hkept : ∀ b, o b = .free → t'.mem b = t.mem b)
    (hback : fds.foldl (fun g fd => update g fd none) g = (t.proc p).ofile) :
    Returns (pipeFails k p f0 f1 fds) t' fun ret s' => ret = -1 ∧ NoTrace s s' := by
  have h : Piped k o s t' f0 f1 pi :=
    h.congr (by rw [ht']; rfl) (by rw [ht']; rfl) (by rw [ht']; rfl) hkept
  have hproc' : t'.proc = (withFds t p g).proc := by rw [ht']
  rw [pipeFails]
  refine .bind ((clearFds_returns p fds).mono ?_)
  rintro _ t₁ ht₁
  rw [hproc', ofile_withFds, hback] at ht₁
  have hproc₁ : t₁.proc = s.proc := by
    rw [ht₁, ← hproc]
    exact withFds_back hproc' rfl
  have hfile : t₁.file = t'.file := by rw [ht₁]; rfl
  have hfiles : t₁.files = t'.files := by rw [ht₁]; rfl
  have hheap : Heap k (update o pi .pipe) t₁ := by
    rw [ht₁]
    exact h.heap.congr rfl fun _ _ => rfl
  have hopen : ∀ w, opened t₁.mem pi w = 1 := by
    rw [ht₁]
    exact h.page.opened
  have hf0 : t₁.file f0 = pipeEnd (s.file f0) pi false := by
    rw [hfile, h.file, update_of_ne h.ne, update_self]
  refine .bind ((fileclose_end hheap hf0 (update_self ..)).mono ?_)
  rintro _ t₂ ⟨⟨hproc₂, hfiles₂, hfile₂⟩, ht₂⟩
  rw [hopen, if_neg one_ne_zero] at ht₂
  have hf1 : t₂.file f1 = pipeEnd (s.file f1) pi true := by
    rw [hfile₂, update_of_ne h.ne.symm, hfile, h.file, update_self]
  refine .bind ((fileclose_end ht₂.1 hf1 (update_self ..)).mono ?_)
  rintro _ t₃ ⟨⟨hproc₃, hfiles₃, hfile₃⟩, ht₃⟩
  rw [Bool.not_true, if_pos ht₂.2, update_idem, ← h.fresh, update_eq_self] at ht₃
  have hback : ∀ i, (t₃.file i).ref = (s.file i).ref ∧ (t₃.file i).type = (s.file i).type := by
    intro i
    rw [hfile₃, hfile₂, hfile, h.file]
    by_cases hi1 : i = f1
    · rw [hi1, update_self]
      exact ⟨h.free1.symm, (hblank f1 h.free1).symm⟩
    rw [update_of_ne hi1]
    by_cases hi0 : i = f0
    · rw [hi0, update_self]
      exact ⟨h.free0.symm, (hblank f0 h.free0).symm⟩
    · rw [update_of_ne hi0, update_of_ne hi1, update_of_ne hi0]
      exact ⟨rfl, rfl⟩
  refine .pure ⟨rfl, by rw [hproc₃, hproc₂, hproc₁], fun i => (hback i).1, fun i => (hback i).2,
    hh.sameFree ht₃, ?_⟩
  rw [hfiles₃, hfiles₂, hfiles, h.files]

/-- A page is taken from the free list. -/
theorem Heap.taken {w : Owner} (h : Heap k o s) (h' : Heap k (update o pi w) s') (hpi : o pi = .free)
    (hw : w ≠ .free) : ∃ l l', Threaded (next s.mem) s.freelist l ∧
      Threaded (next s'.mem) s'.freelist l' ∧ pi ∈ l ∧ ∀ b, b ∈ l' ↔ b ∈ l ∧ b ≠ pi := by
  obtain ⟨l, hl, -, hmem⟩ := h.chain
  obtain ⟨l', hl', -, hmem'⟩ := h'.chain
  refine ⟨l, l', hl, hl', (hmem pi).2 hpi, fun b => ?_⟩
  rw [hmem', hmem]
  by_cases hb : b = pi
  · simp [hb, hw]
  · simp [hb]

/-- **A pipe for a process**: two new descriptors, for a read end and a
write end of a page that was free, and their numbers in user memory. -/
structure PipeFor (s s' : State) (p fdarray fd0 fd1 rf wf pi : ℕ) : Prop where
  ne : fd0 ≠ fd1
  lt : fd0 < NOFILE ∧ fd1 < NOFILE
  new : (s.proc p).ofile fd0 = none ∧ (s.proc p).ofile fd1 = none
  proc : s'.proc = update s.proc p { s.proc p with
    ofile := update (update (s.proc p).ofile fd0 (some rf)) fd1 (some wf) }
  files_ne : rf ≠ wf
  files_new : (s.file rf).ref = 0 ∧ (s.file wf).ref = 0
  file : s'.file = update (update s.file rf (pipeEnd (s.file rf) pi false)) wf
    (pipeEnd (s.file wf) pi true)
  fresh : ∃ l l', Threaded (next s.mem) s.freelist l ∧ Threaded (next s'.mem) s'.freelist l' ∧
    pi ∈ l ∧ ∀ b, b ∈ l' ↔ b ∈ l ∧ b ≠ pi
  page : NewPipe s'.mem pi
  stored : ∀ i, i < 8 → userByte s'.mem (s.proc p).pagetable (fdarray + i) =
    (bytesLE 4 fd0 ++ bytesLE 4 fd1)[i]?

/-- Where no page mapped for the user is free, no free page is written. -/
theorem Stored.free_kept {r va n : ℕ} {src : List UInt8} {b : ℕ} (h : Stored s s' r va src n)
    (hused : ∀ i, UserPte (pteAt s.mem r i) → o (pte2pa (pteAt s.mem r i)) ≠ .free)
    (hb : o b = .free) : s'.mem b = s.mem b := by
  refine h.pages b fun i hi heq => ?_
  have huser := translate_isSome.1 (h.good i hi)
  exact hused _ huser.2 (by rw [heq, hb])

/-- **The numbers of the descriptors are copied out**, or all is given
up. -/
theorem Piped.copyFds {t t₂ : State} {g : ℕ → Option ℕ} {r fd0 fd1 : ℕ} (fdarray : ℕ)
    (h : Piped k o s t f0 f1 pi) (hblank : Blank s) (hh : Heap k o s) (hproc : t.proc = s.proc)
    (hsep : Separate o t.mem r)
    (hused : ∀ i, UserPte (pteAt t.mem r i) → o (pte2pa (pteAt t.mem r i)) ≠ .free)
    (ht₂ : t₂ = withFds t p g)
    (hback : [fd0, fd1].foldl (fun g fd => update g fd none) g = (t.proc p).ofile) :
    Returns (do
      if !(← copyout r fdarray (bytesLE 4 fd0)) then
        pipeFails k p f0 f1 [fd0, fd1]
      else if !(← copyout r ((fdarray + 4) % 2 ^ 64) (bytesLE 4 fd1)) then
        pipeFails k p f0 f1 [fd0, fd1]
      else
        return 0) t₂ fun ret s' => (ret = -1 ∧ NoTrace s s') ∨
          (ret = 0 ∧ Stored t₂ s' r fdarray (bytesLE 4 fd0 ++ bytesLE 4 fd1) 8) := by
  have hlen : ∀ v, (bytesLE 4 v).length = 4 := fun v => by
    rw [bytesLE, length_map, length_range]
  have hmem₂ : t₂.mem = t.mem := by rw [ht₂]; rfl
  rw [← hmem₂] at hsep hused
  have hfails : ∀ {t'}, t' = { t₂ with mem := t'.mem } → (∀ b, o b = .free → t'.mem b = t₂.mem b) →
      Returns (pipeFails k p f0 f1 [fd0, fd1]) t' fun ret s' => ret = -1 ∧ NoTrace s s' := by
    intro t' ht' hkept
    rw [ht₂] at ht'
    rw [hmem₂] at hkept
    exact h.fails hblank hh hproc ht' hkept hback
  refine .bind ((copyout_stored hsep fdarray _).mono ?_)
  rintro ok t₃ ⟨n, rfl, hst₃⟩
  have hkept₃ : ∀ b, o b = .free → t₃.mem b = t₂.mem b := fun b hb => hst₃.free_kept hused hb
  split
  · exact (hfails hst₃.rest hkept₃).mono fun _ _ => .inl
  rename_i hn
  obtain rfl : n = 4 := by simpa [hlen] using hn
  have hlow : fdarray + 3 < MAXVA := (translate_isSome.1 (hst₃.good 3 (by decide))).1
  have hnext : (fdarray + 4) % 2 ^ 64 = fdarray + 4 := by
    simp only [MAXVA] at hlow
    omega
  obtain ⟨hsep₃, hpte₃⟩ := hst₃.separate hsep
  rw [hnext]
  refine .bind ((copyout_stored hsep₃ (fdarray + 4) _).mono ?_)
  rintro ok t₄ ⟨n, rfl, hst₄⟩
  split
  · refine (hfails ?_ fun b hb => ?_).mono fun _ _ => .inl
    · rw [hst₄.rest, hst₃.rest]
    · rw [hst₄.free_kept (by rwa [hpte₃]) hb, hkept₃ b hb]
  rename_i hn
  obtain rfl : n = 4 := by simpa [hlen] using hn
  have hfirst : Stored t₂ t₃ r fdarray ((bytesLE 4 fd0 ++ bytesLE 4 fd1).take 4) 4 := by
    rwa [take_left' (hlen fd0)]
  have hsecond : Stored t₃ t₄ r (fdarray + 4) ((bytesLE 4 fd0 ++ bytesLE 4 fd1).drop 4) 4 := by
    rwa [drop_left' (hlen fd0)]
  have hboth := hfirst.append hsep hsecond (by rw [length_append, hlen, hlen]; decide)
  exact .pure (.inr ⟨rfl, hboth⟩)

/-- **`sys_pipe`** makes a pipe, or leaves no trace. -/
theorem sysPipe_clean (hh : Heap k o s) (hblank : Blank s) (p fdarray : ℕ)
    (hsep : Separate o s.mem (s.proc p).pagetable)
    (hused : ∀ i, UserPte (pteAt s.mem (s.proc p).pagetable i) →
      o (pte2pa (pteAt s.mem (s.proc p).pagetable i)) ≠ .free) :
    Returns (sysPipe k p fdarray) s fun ret s' =>
      (ret = -1 ∧ NoTrace s s') ∨
      (ret = 0 ∧ ∃ fd0 fd1 rf wf pi, PipeFor s s' p fdarray fd0 fd1 rf wf pi) := by
  rw [sysPipe]
  refine .bind ((pipealloc_returns hh hblank).mono ?_)
  rintro (_ | ⟨rf, wf⟩) t ht
  · have hdo := ht fun _ => True
    exact .pure (.inl ⟨rfl, hdo.proc, fun i => by rw [hdo.file], fun i => by rw [hdo.file],
      hh.sameFree hdo.heap, hdo.files⟩)
  obtain ⟨pi, hpiped, hproc, hmem⟩ := ht
  obtain ⟨hsep, hpte⟩ := hsep.congr fun b d j hb => hmem b fun hbp => by
    rw [hbp, hpiped.fresh] at hb
    cases hb
  rw [← hpte] at hused
  refine .bind ((fdalloc_returns p rf).mono ?_)
  rintro (_ | fd0) t₁ ht₁
  · obtain rfl : t₁ = t := ht₁
    exact (hpiped.fails hblank hh hproc (withFds_self ..).symm (fun _ _ => rfl) rfl).mono
      fun _ _ => .inl
  obtain ⟨hlt0, hfd0, ht₁⟩ := ht₁
  refine .bind ((fdalloc_returns p wf).mono ?_)
  rintro (_ | fd1) t₂ ht₂
  · obtain rfl : t₂ = t₁ := ht₂
    have hback : [fd0].foldl (fun g fd => update g fd none) (update (t.proc p).ofile fd0 (some rf)) =
        (t.proc p).ofile := by
      rw [foldl_cons, foldl_nil, update_idem, ← hfd0]
      exact update_eq_self ..
    exact (hpiped.fails hblank hh hproc (by rw [ht₁]) (fun b _ => by rw [ht₁]; rfl) hback).mono
      fun _ _ => .inl
  obtain ⟨hlt1, hfd1, ht₂⟩ := ht₂
  rw [ht₁, ofile_withFds] at hfd1 ht₂
  rw [withFds_withFds] at ht₂
  have hne : fd0 ≠ fd1 := by
    rintro rfl
    rw [update_self] at hfd1
    cases hfd1
  rw [update_of_ne hne.symm] at hfd1
  have hr : (t₂.proc p).pagetable = (s.proc p).pagetable := by
    rw [ht₂, ← hproc]
    simp only [withFds, update_self]
  rw [Returns.gets_bind_iff, hr]
  refine (hpiped.copyFds fdarray hblank hh hproc hsep hused ht₂ ?_).mono ?_
  · funext fd
    simp only [foldl_cons, foldl_nil, update_apply]
    split_ifs with h1 h0
    · rw [h1, hfd1]
    · rw [h0, hfd0]
    · rfl
  rintro ret s' (hfail | ⟨rfl, hst⟩)
  · exact .inl hfail
  have hmem₂ : t₂.mem = t.mem := by rw [ht₂]; rfl
  have hmade : Piped k o s s' rf wf pi := by
    refine hpiped.congr (by rw [hst.rest, ht₂]; rfl) (by rw [hst.rest, ht₂]; rfl)
      (by rw [hst.rest, ht₂]; rfl) fun b hb => ?_
    rw [← hmem₂]
    exact hst.free_kept (by rwa [hmem₂]) hb
  rw [hproc] at hfd0 hfd1
  refine .inr ⟨rfl, fd0, fd1, rf, wf, pi, hne, ⟨hlt0, hlt1⟩, ⟨hfd0, hfd1⟩, ?_, hmade.ne,
    ⟨hmade.free0, hmade.free1⟩, hmade.file, hh.taken hmade.heap hmade.fresh Owner.noConfusion,
    hmade.page, fun i hi => ?_⟩
  · rw [hst.rest, ht₂, ← hproc]
    rfl
  · refine hst.userByte_eq (by rwa [hmem₂]) i hi

theorem sysPipe_clean_small : Returns (sysPipe smallKernel initproc 4092)
    { smallMachine with file := fun _ => {} } fun ret s' =>
      (ret = -1 ∧ NoTrace { smallMachine with file := fun _ => {} } s') ∨
      (ret = 0 ∧ ∃ fd0 fd1 rf wf pi,
        PipeFor { smallMachine with file := fun _ => {} } s' initproc 4092 fd0 fd1 rf wf pi) := by
  obtain ⟨o, h⟩ := smallMachine_ready
  obtain ⟨ptes, f, hspace, -⟩ := h.space
  have hheap : Heap smallKernel o { smallMachine with file := fun _ => {} } :=
    h.heap.congr rfl fun _ _ => rfl
  refine sysPipe_clean hheap (fun _ _ => rfl) initproc 4092
    (hspace.separate h.heap (above_kernelMap ..)) fun i hi => ?_
  have hown := hspace.own_of_userPte (above_kernelMap ..) hi
  rw [hown]
  exact Owner.noConfusion

end Vm

end Xv6
