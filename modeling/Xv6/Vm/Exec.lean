import Xv6.Vm.Paths
import Xv6.Vm.Stack
/-!
# Replacing a program — `exec` of `kernel/exec.c`

`exec` builds the new address space beside the old one. Until it is
complete nothing of the process is touched, and every way out frees what
has been built: a failing `exec` has only used free pages, and they are
free again. On the way to the file it holds a transaction, a reference and
a lock, and it has given them back before it builds the stack.
-/

namespace Xv6

open Common Function Files

namespace Vm

variable {k : Symbols} {o o' o'' : ℕ → Owner} {s s' s'' : State} {P : Owner → Prop}
  {ptes ptes₀ : List ℕ} {f f₀ g : ℕ → UInt8} {strs : List (List UInt8)} {argv : List ℕ}
  {file path : List UInt8} {r p n sz tf : ℕ}

/-- **A process that can make a call**: its page table maps the pages of its
memory and its trapframe, it has a current directory, and no inode is
locked. Files are as large as the file system allows. -/
structure Ready (k : Symbols) (o : ℕ → Owner) (s : State) (p : ℕ) : Prop where
  heap : Heap k o s
  rooted : Rooted o
  trapframe : o (s.proc p).trapframe = .trapframe p
  space : ∃ ptes f, Space o s.mem (s.proc p).pagetable ptes f (kernelMap k (s.proc p).trapframe) ∧
    ptes.length = pages (s.proc p).sz
  cwd : (s.proc p).cwd ≠ none
  unlocked : ∀ ip, (s.files.inode ip).locked = false
  size : ∀ i, (s.files.node i).data.length ≤ MAXFILE * BSIZE

/-- The free pages, and the pages of arguments. -/
def Owner.forArgs (w : Owner) : Prop := w = .free ∨ w = .arg

theorem not_forArgs {w : Owner} (h1 : w ≠ .arg) (h2 : w ≠ .free) : ¬ Owner.forArgs w := by
  rintro (h | h)
  · exact h2 h
  · exact h1 h

/-- What is done elsewhere leaves a process ready. -/
theorem Ready.frame (h : Ready k o s p) (hdo : Does k P o o' s s') (ht : ∀ r d i, ¬ P (.table r d i))
    (hu : ∀ r i, ¬ P (.user r i)) (htf : ∀ q, ¬ P (.trapframe q)) : Ready k o' s' p := by
  obtain ⟨ptes, f, hspace, hlen⟩ := h.space
  have hproc : s'.proc p = s.proc p := congrFun hdo.proc p
  refine ⟨hdo.heap, ⟨fun b r d i hb => ?_, fun b r i hb => ?_⟩, ?_, ⟨ptes, f, ?_, ?_⟩, ?_, ?_, ?_⟩
  · rw [hdo.own_iff (ht r d i)] at hb
    rw [hdo.own_iff (ht r 0 0)]
    exact h.rooted.table b r d i hb
  · rw [hdo.own_iff (hu r i)] at hb
    rw [hdo.own_iff (ht r 0 0)]
    exact h.rooted.user b r i hb
  · rw [hproc, hdo.own_iff (htf p)]
    exact h.trapframe
  · rw [hproc]
    exact hspace.frame hdo.frame (ht _) (hu _)
  · rw [hproc]
    exact hlen
  · rw [hproc]
    exact h.cwd
  · rw [hdo.files]
    exact h.unlocked
  · rw [hdo.files]
    exact h.size

/-! ## Memory and files -/

theorem onFiles_hoare {α : Type} {c : Kern Files α} {Q : α → Files → Prop} {E : Panic → Prop}
    (h : Hoare (· = s.files) c Q E) :
    Hoare (· = s) (onFiles c) (fun a s' => s' = { s with files := s'.files } ∧ Q a s'.files) E :=
  h.map (g := fun f => { s with files := f }) rfl fun _ _ hq => ⟨rfl, hq⟩

theorem onFiles_beginOp : onFiles beginOp = Prog.modify fun s =>
    { s with files := { s.files with outstanding := s.files.outstanding + 1 } } := rfl

theorem onFiles_endOp : onFiles endOp = Prog.modify fun s =>
    { s with files := { s.files with outstanding := s.files.outstanding - 1 } } := rfl

/-- **What a function does, the file system apart.** -/
abbrev DoesMem (k : Symbols) (P : Owner → Prop) (o o' : ℕ → Owner) (s s' : State) : Prop :=
  Does k P o o' { s with files := s'.files } s'

theorem Does.mem (h : Does k P o o' s s') : DoesMem k P o o' s s' :=
  ⟨h.heap, h.frame, h.proc, h.file, rfl⟩

theorem DoesMem.trans (h : DoesMem k P o o' s s') (h' : DoesMem k P o' o'' s' s'') :
    DoesMem k P o o'' s s'' :=
  ⟨h'.heap, h.frame.trans h'.frame, h'.proc.trans h.proc, h'.file.trans h.file, rfl⟩

theorem DoesMem.mono {Q : Owner → Prop} (h : DoesMem k P o o' s s') (hPQ : ∀ w, P w → Q w) :
    DoesMem k Q o o' s s' :=
  Does.mono h hPQ

theorem DoesMem.files (h : Heap k o s) (hs : s' = { s with files := s'.files }) :
    DoesMem k P o o s s' := by
  rw [hs]
  exact ⟨⟨h.managed, h.chain⟩, .refl .., rfl, rfl, rfl⟩

/-! ## Up to the image -/

/-- **The program in a file**, as `exec` loads it below `top`. -/
def Loaded (file : List UInt8) (top : ℕ) (g : ℕ → UInt8) : Prop :=
  64 ≤ file.length ∧
    Loads file top (field (slice file 0 64) 56 2) (field (slice file 0 64) 32 8 % 2 ^ 32) (fun _ => 0) g

theorem Loaded.mono {file : List UInt8} {top top' : ℕ} {g : ℕ → UInt8} (h : Loaded file top g)
    (hle : top ≤ top') : Loaded file top' g :=
  ⟨h.1, h.2.mono hle⟩

/-- **`exec` up to where it is done with the file** has a page table with
the program in it, or has given all pages back. -/
theorem execFile_returns (hh : Heap k o s) (hroot : Rooted o) (htf : (s.proc p).trapframe < 2 ^ 56)
    (hlen : file.length < 2 ^ 31) :
    Returns (execFile k p file) s fun res s' =>
      match res with
      | none => Does k (· = .free) o o s s'
      | some (r, sz) => Unused o r ∧ ∃ o' ptes g, Does k (Owner.inSpace r 0) o o' s s' ∧
          Image o' s'.mem r ptes g (kernelMap k (s.proc p).trapframe) sz ∧ Loaded file sz g := by
  rw [execFile]
  by_cases hread : (Files.readi file 0 64).length = 64
  swap
  · simp only [ne_eq, hread, not_false_eq_true, ↓reduceIte]
    exact .pure (.refl hh)
  have hin := Files.le_of_length_readi (by decide) hread
  simp only [ne_eq, hread, not_true_eq_false, ↓reduceIte]
  rw [Files.readi_eq_slice hlen (by decide) hin]
  by_cases hmagic : field (slice file 0 64) 0 4 = ELF_MAGIC
  swap
  · rw [if_pos hmagic]
    exact .pure (.refl hh)
  rw [if_neg (not_not.2 hmagic)]
  refine .bind ((procPagetable_returns (f := fun _ => 0) hh hroot htf).mono ?_)
  rintro r s₁ (⟨rfl, hdo⟩ | ⟨hr, hunused, o₁, hdo₁, hspace⟩)
  · exact .pure hdo
  rw [if_neg hr]
  have himg : Image o₁ s₁.mem r [] (fun _ => 0) (kernelMap k (s.proc p).trapframe) 0 :=
    ⟨hspace, rfl, fun w hw => absurd hw List.not_mem_nil, fun _ _ => rfl⟩
  refine .bind ((execLoad_returns himg hdo₁.heap (above_kernelMap ..) hlen).mono ?_)
  rintro ⟨loaded, sz⟩ s₂ ⟨o₂, ptes, g, hdo₂, himg₂, hloads⟩
  have hdo := hdo₁.trans hdo₂
  cases loaded with
  | true => exact .pure ⟨hunused, o₂, ptes, g, hdo, himg₂, by simpa using hin, (hloads rfl).2⟩
  | false =>
    refine .bind ((procFreepagetable_returns himg₂.space himg₂.length hdo₂.heap).mono ?_)
    rintro - s' hdo'
    have hall := hdo.trans hdo'
    rw [released_frame hdo.frame] at hall
    exact .pure (hall.undone hunused)

/-- **The file that `exec` reads**: `namei` finds its inode, and `ilock`
loads it. -/
def fileAt (cwd : Option (Fin NINODE)) (path : List UInt8) (fs : Files) : Option (List UInt8) :=
  let find : Kern Files (Option (List UInt8)) := do
    beginOp
    match ← namei cwd path with
    | none => return none
    | some ip =>
      ilock ip
      some <$> Prog.gets fun fs => (fs.nodeOf ip).data
  match find fs with
  | .ok (data, _) => data
  | .error _ => none

theorem fileAt_eq {cwd : Option (Fin NINODE)} {fs fs₁ fs₂ : Files} {ip : Fin NINODE}
    (hfind : namei cwd path { fs with outstanding := fs.outstanding + 1 } = .ok (some ip, fs₁))
    (hlock : ilock ip fs₁ = .ok ((), fs₂)) : fileAt cwd path fs = some (fs₂.nodeOf ip).data := by
  have hbegin : beginOp fs = .ok ((), { fs with outstanding := fs.outstanding + 1 }) := rfl
  simp only [fileAt, Prog.bind_run, hbegin, Except.bind, hfind, hlock]
  rfl

theorem Took.endOp {fs gs : Files} (h : Took { fs with outstanding := fs.outstanding + 1 } [] none gs) :
    Took fs [] none { gs with outstanding := gs.outstanding - 1 } := by
  refine ⟨?_, h.ref, h.locked, h.size⟩
  have := h.outstanding
  simp only at this ⊢
  omega

/-- **A program has been built**: the address space `r`, of `n` pages, holds
what is in the file, and two more pages. -/
structure Built (k : Symbols) (o : ℕ → Owner) (s : State) (p : ℕ) (path : List UInt8)
    (o' : ℕ → Owner) (s' : State) (r sz : ℕ) (ptes : List ℕ) (f : ℕ → UInt8) (n : ℕ)
    (file : List UInt8) : Prop where
  unused : Unused o r
  does : DoesMem k (Owner.inSpace r 0) o o' s s'
  image : Image o' s'.mem r ptes f (kernelMap k (s.proc p).trapframe) sz
  two : 2 ≤ n
  size : sz = n * PGSIZE
  source : fileAt (s.proc p).cwd path s.files = some file
  length : file.length < 2 ^ 31
  loaded : Loaded file (sz - 2 * PGSIZE) f

/-- **`exec` up to the stack** has an address space with the program and two
more pages in it, or has given all pages back. It holds nothing of the file
system any more. -/
theorem execImage_hoare (path : List UInt8) (h : Ready k o s p) :
    Hoare (· = s) (execImage k p path) (fun res s' => Took s.files [] none s'.files ∧
      match res with
      | none => DoesMem k (· = .free) o o s s'
      | some (_, r, sz) => ∃ o' ptes f n file, Built k o s p path o' s' r sz ptes f n file)
      PathPanic := by
  have htf : (s.proc p).trapframe < 2 ^ 56 :=
    h.heap.lt (by rw [h.trapframe]; exact Owner.noConfusion)
  generalize hfs : { s.files with outstanding := s.files.outstanding + 1 } = fs
  have hstart : Took fs [] none fs := .refl fun ip => by rw [← hfs]; exact h.unlocked ip
  have hend : ∀ {gs : Files}, Took fs [] none gs →
      Took s.files [] none { gs with outstanding := gs.outstanding - 1 } := by
    rw [← hfs]
    exact Took.endOp
  rw [execImage, onFiles_beginOp]
  refine .modify_bind (.gets_bind ?_)
  rw [hfs]
  refine (onFiles_hoare ((namei_hoare path h.cwd).known hstart).run).seq ?_
  rintro res s₁ ⟨hs₁, hfind, htook⟩
  have hmem₁ : DoesMem k (· = .free) o o s s₁ := .files h.heap (by rw [hs₁])
  cases res with
  | none =>
    simp only [onFiles_endOp]
    refine .modify_bind (.pure ?_)
    rintro _ rfl
    exact ⟨hend htook, hmem₁.trans (.files hmem₁.heap rfl)⟩
  | some ip =>
    refine (onFiles_hoare ((ilock_hoare (List.mem_singleton_self ip)).known htook).run).seq ?_
    rintro ⟨⟩ s₂ ⟨hs₂, hlock, htook₂⟩
    have hmem₂ := hmem₁.trans (.files hmem₁.heap hs₂)
    have hfile : fileAt (s.proc p).cwd path s.files = some (s₂.files.nodeOf ip).data :=
      fileAt_eq (by rw [hfs]; exact hfind) hlock
    have hlen : (s₂.files.nodeOf ip).data.length < 2 ^ 31 := by
      have h1 := htook₂.size (s₂.files.inode ip).inum
      have h2 := h.size (s₂.files.inode ip).inum
      rw [← hfs] at h1
      exact (h1.trans h2).trans_lt (by decide)
    refine .gets_bind ?_
    refine ((execFile_returns hmem₂.heap h.rooted (by rw [hmem₂.proc]; exact htf) hlen).hoare _).seq ?_
    rintro image s₃ himage
    -- whatever has come of it, the file is given back
    have hgive : s₃.files = s₂.files → Hoare (· = s₃) (onFiles do iunlockput ip; endOp)
        (fun _ s' => s' = { s₃ with files := s'.files } ∧ Took s.files [] none s'.files)
        PathPanic := by
      intro hsame
      have htook₃ : Took fs [ip] (some ip) s₃.files := by
        rw [hsame]
        exact htook₂
      exact onFiles_hoare (((iunlockput_hoare ip).known htook₃).bind fun _ =>
        .modify fun gs hgs => hend hgs)
    cases image with
    | none =>
      have hdo : Does k (· = .free) o o s₂ s₃ := himage
      refine (hgive hdo.files).seq ?_
      rintro - s₄ ⟨hs₄, htook₄⟩
      refine .pure ?_
      rintro _ rfl
      exact ⟨htook₄, (hmem₂.trans hdo.mem).trans (.files hdo.heap hs₄)⟩
    | some image =>
      obtain ⟨r, sz⟩ := image
      obtain ⟨hunused, o₃, ptes, g, hdo, himg, hloaded⟩ := himage
      refine (hgive hdo.files).seq ?_
      rintro - s₄ ⟨hs₄, htook₄⟩
      have hfree : ∀ w, w = Owner.free → Owner.inSpace r 0 w := by
        rintro _ rfl
        trivial
      have hmem₄ := ((hmem₂.mono hfree).trans hdo.mem).trans (.files hdo.heap hs₄)
      have himg₄ : Image o₃ s₄.mem r ptes g (kernelMap k (s.proc p).trapframe) sz := by
        rw [hs₄, ← hmem₂.proc]
        exact himg
      obtain ⟨hround, himg₄⟩ := himg₄.roundUp hmem₄.heap
      -- the two pages for the stack
      refine ((himg₄.uvmalloc_returns hmem₄.heap (above_kernelMap ..)).hoare _).seq ?_
      rintro sz1 s₅ ⟨o₅, ptes₅, hdo₅, himg₅, hmax⟩
      have hmem₅ := hmem₄.trans hdo₅.mem
      have htook₅ : Took s.files [] none s₅.files := by
        rw [hdo₅.files]
        exact htook₄
      by_cases h0 : sz1 = 0
      · rw [if_pos h0] at himg₅ ⊢
        refine ((procFreepagetable_returns himg₅.space himg₅.length hdo₅.heap).hoare _).seq ?_
        rintro - s₆ hdo₆
        refine .pure ?_
        rintro _ rfl
        have hall := hmem₅.trans hdo₆.mem
        rw [released_frame hmem₅.frame] at hall
        refine ⟨?_, Does.undone hall hunused⟩
        rw [hdo₆.files]
        exact htook₅
      · rw [if_neg h0] at himg₅ ⊢
        refine .pure ?_
        rintro _ rfl
        have hsize : sz1 = (pages sz + 2) * PGSIZE := by
          rw [hmax h0, hround, Nat.add_mul]
          omega
        have hlow : sz ≤ sz1 - 2 * PGSIZE := by
          have := le_pages sz
          rw [hsize, Nat.add_mul]
          omega
        exact ⟨htook₅, o₅, ptes₅, g, pages sz + 2, _, hunused, hmem₅, himg₅, by omega, hsize, hfile,
          hlen, hloaded.mono hlow⟩

/-! ## From the guard page on -/

/-- The pages that a process hands over when it takes on the address space
`r` in place of `r'`. -/
def Owner.handed (r r' p : ℕ) (w : Owner) : Prop :=
  Owner.inSpace r 0 w ∨ Owner.inSpace r' 0 w ∨ w = .trapframe p

/-- **The process has taken on the address space** `r`, of `sz` bytes, and
its old one is gone. -/
structure Committed (k : Symbols) (o o' : ℕ → Owner) (s s' : State) (p r sz : ℕ)
    (path : List UInt8) : Prop where
  heap : Heap k o' s'
  frame : Frame (Owner.handed r (s.proc p).pagetable p) o o' s.mem s'.mem
  trapframe : ∀ b, o' b = .trapframe p ↔ o b = .trapframe p
  old : Unused o' (s.proc p).pagetable
  proc : s'.proc = update s.proc p
    { s.proc p with name := (lastElem path).take 15, pagetable := r, sz }
  file : s'.file = s.file
  files : s'.files = s.files

/-- The memory of the new program, with strings and pointers on its stack. -/
def stacked (sz : ℕ) (strs : List (List UInt8)) (f : ℕ → UInt8) : ℕ → UInt8 :=
  overlay (pushed sz strs 0 f) (sz - stackRoom strs) (pointers sz strs)

theorem unused_released (o : ℕ → Owner) (r : ℕ) : Unused (released o r) r := by
  have hnot : ∀ b, Owner.inSpace r 0 (released o r b) → released o r b = .free := by
    intro b hb
    by_cases h : Owner.inSpace r 0 (o b)
    · exact freed_of h
    · rw [released, freed_of_not h] at hb
      exact absurd hb h
  constructor
  · intro b d i hb
    have := hnot b (by rw [hb]; rfl)
    rw [hb] at this
    cases this
  · intro b i hb
    have := hnot b (by rw [hb]; exact ⟨rfl, Nat.zero_le _⟩)
    rw [hb] at this
    cases this

/-- **`exec` from the guard page on**: the process has taken on the new
address space, or the arguments do not fit and it is freed. -/
theorem execCommit_returns {entry : ℕ} (himg : Image o s.mem r ptes f (kernelMap k tf) sz)
    (hh : Heap k o s) (hn : 2 ≤ n) (hsz : sz = n * PGSIZE) (hargs : Args o s.mem argv strs)
    (htf : (s.proc p).trapframe = tf) (hown : o tf = .trapframe p)
    (hold : Space o s.mem (s.proc p).pagetable ptes₀ f₀ (kernelMap k tf))
    (hlen₀ : ptes₀.length = pages (s.proc p).sz) (hne : r ≠ (s.proc p).pagetable) :
    Returns (execCommit k p path entry r sz argv) s fun ret s' =>
      if Fits strs then
        ret = strs.length ∧ ∃ o' w, ptes[n - 2]? = some w ∧ Committed k o o' s s' p r sz path ∧
          Space o' s'.mem r (ptes.set (n - 2) (guarded w)) (stacked sz strs f) (kernelMap k tf) ∧
          (s'.mem tf).readLE a1Off 8 = sz - stackRoom strs ∧
          (s'.mem tf).readLE spOff 8 = sz - stackRoom strs
      else ret = -1 ∧ Does k (Owner.inSpace r 0) o (released o r) s s' := by
  rw [execCommit]
  refine .bind ((execStack_returns himg hh (above_kernelMap ..) hn hsz hargs).mono ?_)
  rintro res s₁ ⟨g, w, hdo₁, hw, hspace, -, hres⟩
  have hdo₁ := hdo₁.mono (Owner.inSpace_mono (Nat.zero_le _))
  by_cases hfits : Fits strs
  swap
  · rw [if_neg hfits] at hres
    subst hres
    have hlen : (ptes.set (n - 2) (guarded w)).length = pages sz := by
      rw [List.length_set, himg.length]
    refine .bind ((procFreepagetable_returns hspace hlen hdo₁.heap).mono ?_)
    rintro - s' hdo
    refine .pure ?_
    rw [if_neg hfits]
    exact ⟨rfl, hdo₁.trans hdo⟩
  · rw [if_pos hfits] at hres
    obtain ⟨rfl, hg⟩ := hres
    simp only [hfits, ↓reduceIte, store, setProc, Returns.gets_bind_iff, Returns.modify_bind_iff,
      hdo₁.proc, htf, update_self, update_idem]
    generalize hpage : Bytes.writeLE (Bytes.writeLE (Bytes.writeLE (s₁.mem tf) a1Off 8 _) epcOff 8 _)
      spOff 8 _ = page
    generalize hs₂ : State.mk _ _ _ _ _ _ _ = s₂
    -- only the trapframe was written
    have hmem₂ : s₂.mem = update s₁.mem tf page := by rw [← hs₂]
    have hframe₂ : Frame (· = .trapframe p) o o s₁.mem s₂.mem :=
      .write hown fun b hb => by rw [hmem₂, update_of_ne hb]
    have hheap₂ : Heap k o s₂ := by
      refine hdo₁.heap.congr (by rw [← hs₂]) fun b hb => hframe₂.mem b ?_
      rw [hb]
      exact Owner.noConfusion
    have hold₂ := (hold.frame hdo₁.frame (fun _ _ h => hne h.symm) fun _ h => hne h.1.symm).frame
      hframe₂ (fun _ _ => Owner.noConfusion) fun _ => Owner.noConfusion
    have hspace₂ := hspace.frame hframe₂ (fun _ _ => Owner.noConfusion) fun _ => Owner.noConfusion
    refine .bind ((procFreepagetable_returns hold₂ hlen₀ hheap₂).mono ?_)
    rintro - s' hdo
    have hspace' := hspace₂.frame hdo.frame (fun _ _ h => hne h) fun _ h => hne h.1
    have htfkeep : s'.mem tf = page := by
      rw [hdo.frame.mem_of_own (w := .trapframe p) id hown, hmem₂, update_self]
    have hlt : sz - stackRoom strs < 256 ^ 8 := by
      have := himg.space.le hh
      have hlen := himg.length
      rw [hsz, pages_mul] at hlen
      simp only [npages, PHYSTOP, KERNBASE, PGSIZE] at this hsz
      omega
    have hframe : Frame (Owner.handed r (s.proc p).pagetable p) o (released o (s.proc p).pagetable)
        s.mem s'.mem :=
      ((hdo₁.frame.mono fun _ h => .inl h).trans (hframe₂.mono fun _ h => .inr (.inr h))).trans
        (hdo.frame.mono fun _ h => .inr (.inl h))
    refine .pure ⟨rfl, _, w, hw, ⟨hdo.heap, hframe, fun b => ?_, unused_released .., ?_, ?_, ?_⟩, ?_,
      ?_, ?_⟩
    · exact hdo.own_iff id
    · rw [hdo.proc, ← hs₂, ← htf]
    · rw [hdo.file, ← hs₂]
      exact hdo₁.file
    · rw [hdo.files, ← hs₂]
      exact hdo₁.files
    · rw [stacked, ← hg]
      exact hspace'
    · rw [htfkeep, ← hpage, Bytes.readLE_writeLE_of_disjoint (by decide),
        Bytes.readLE_writeLE_of_disjoint (by decide), Bytes.readLE_writeLE (by decide),
        Nat.mod_eq_of_lt hlt]
    · rw [htfkeep, ← hpage, Bytes.readLE_writeLE (by decide), Nat.mod_eq_of_lt hlt]

/-! ## The whole of it -/

/-- What was done before, the file system apart, goes with it. -/
theorem Committed.after (h : Committed k o' o'' s' s'' p r sz path)
    (hb : DoesMem k (Owner.inSpace r 0) o o' s s') :
    Committed k o o'' { s with files := s''.files } s'' p r sz path := by
  have hpt : s'.proc p = s.proc p := congrFun hb.proc p
  have hframe := h.frame
  rw [hpt] at hframe
  have hold := h.old
  rw [hpt] at hold
  refine ⟨h.heap, (hb.frame.mono fun _ h => .inl h).trans hframe, fun b => ?_, hold, ?_,
    h.file.trans hb.file, rfl⟩
  · rw [h.trapframe, Does.own_iff hb id]
  · rw [h.proc, hb.proc]

/-- `exec` from the guard page on, when it has built a program. -/
theorem execCommit_of_built {entry : ℕ} (h : Ready k o s p)
    (hb : Built k o s p path o' s' r sz ptes f n file) (hargs : Args o' s'.mem argv strs) :
    Returns (execCommit k p path entry r sz argv) s' fun ret s'' =>
      if Fits strs then
        ret = strs.length ∧ ∃ o'' w, ptes[n - 2]? = some w ∧ Committed k o' o'' s' s'' p r sz path ∧
          Space o'' s''.mem r (ptes.set (n - 2) (guarded w)) (stacked sz strs f)
            (kernelMap k (s.proc p).trapframe) ∧
          (s''.mem (s.proc p).trapframe).readLE a1Off 8 = sz - stackRoom strs ∧
          (s''.mem (s.proc p).trapframe).readLE spOff 8 = sz - stackRoom strs
      else ret = -1 ∧ Does k (Owner.inSpace r 0) o' (released o' r) s' s'' := by
  obtain ⟨ptes₀, f₀, hold, hlen₀⟩ := h.space
  have hpt : s'.proc p = s.proc p := congrFun hb.does.proc p
  have hne : r ≠ (s.proc p).pagetable := by
    rintro rfl
    exact hb.unused.table _ 0 0 hold.table.own_root
  have hold' := hold.frame hb.does.frame (fun _ _ h => hne h.symm) fun _ h => hne h.1.symm
  have hown : o' (s.proc p).trapframe = .trapframe p := (Does.own_iff hb.does id).2 h.trapframe
  rw [← hpt] at hold' hlen₀ hne
  exact execCommit_returns hb.image hb.does.heap hb.two hb.size hargs (by rw [hpt]) hown
    (by rw [hpt] at hold' ⊢; exact hold') hlen₀ hne

/-- **`exec`** ends in one of three ways: there is no image of the program,
the arguments do not fit, or the process has taken it on. -/
theorem exec_hoare (path : List UInt8) (h : Ready k o s p) (hargs : Args o s.mem argv strs) :
    Hoare (· = s) (exec k p path argv) (fun ret s' => Took s.files [] none s'.files ∧
      match execImage k p path s with
      | .error _ => False
      | .ok (none, _) => ret = -1 ∧ DoesMem k (· = .free) o o s s'
      | .ok (some (_, r, sz), s₁) => ∃ o₁ ptes f n file,
          Built k o s p path o₁ s₁ r sz ptes f n file ∧ Args o₁ s₁.mem argv strs ∧
          if Fits strs then
            ret = strs.length ∧ ∃ o' w, ptes[n - 2]? = some w ∧
              Committed k o o' { s with files := s'.files } s' p r sz path ∧
              Space o' s'.mem r (ptes.set (n - 2) (guarded w)) (stacked sz strs f)
                (kernelMap k (s.proc p).trapframe) ∧
              (s'.mem (s.proc p).trapframe).readLE a1Off 8 = sz - stackRoom strs ∧
              (s'.mem (s.proc p).trapframe).readLE spOff 8 = sz - stackRoom strs
          else ret = -1 ∧ DoesMem k (· = .free) o o s s') PathPanic := by
  rw [exec]
  refine (execImage_hoare path h).run.seq ?_
  rintro res s₁ ⟨hrun, htook, hres⟩
  rw [hrun]
  cases res with
  | none =>
    refine .pure ?_
    rintro _ rfl
    exact ⟨htook, rfl, hres⟩
  | some image =>
    obtain ⟨entry, r, sz⟩ := image
    obtain ⟨o₁, ptes, f, n, file, hb⟩ := hres
    have hargs₁ := hargs.frame hb.does.frame id
    refine ((execCommit_of_built h hb hargs₁).hoare _).conseq (fun _ h => h) ?_
    intro ret s' hpost
    by_cases hfits : Fits strs
    · rw [if_pos hfits] at hpost
      obtain ⟨hret, o', w, hw, hc, hspace, ha1, hsp⟩ := hpost
      refine ⟨by rw [hc.files]; exact htook, o₁, ptes, f, n, file, hb, hargs₁, ?_⟩
      rw [if_pos hfits]
      exact ⟨hret, o', w, hw, hc.after hb.does, hspace, ha1, hsp⟩
    · rw [if_neg hfits] at hpost
      obtain ⟨hret, hdo⟩ := hpost
      refine ⟨by rw [hdo.files]; exact htook, o₁, ptes, f, n, file, hb, hargs₁, ?_⟩
      rw [if_neg hfits]
      have hall := hb.does.trans hdo.mem
      rw [released_frame hb.does.frame] at hall
      exact ⟨hret, Does.undone hall hb.unused⟩

end Vm

end Xv6
