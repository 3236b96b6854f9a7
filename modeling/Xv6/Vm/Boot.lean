import Xv6.Vm.Exec
import Xv6.Vm.Grow
/-!
# From boot to the first process — `allocproc` and `userinit` of `kernel/proc.c`

`kinit` puts every page on the free list, and `allocproc` takes from it a
trapframe and a page table for a new process. After boot the first process
is ready to make calls.
-/

namespace Xv6

open Common Function Files

namespace Vm

variable {k : Symbols} {o o' : ℕ → Owner} {s s' : State} {P : Owner → Prop} {f : ℕ → UInt8}
  {mem mem' : ℕ → Page} {r p : ℕ}

/-- **What a function does, the process table apart.** -/
abbrev DoesProc (k : Symbols) (P : Owner → Prop) (o o' : ℕ → Owner) (s s' : State) : Prop :=
  Does k P o o' { s with proc := s'.proc } s'

/-- Only memory and the file tables matter. -/
theorem Does.withProc {t t' : State} (h : Does k P o o' s s') (hm : t.mem = s.mem)
    (hf : t.file = s.file) (hfs : t.files = s.files) (hm' : t'.mem = s'.mem)
    (hl' : t'.freelist = s'.freelist) (hf' : t'.file = s'.file) (hfs' : t'.files = s'.files) :
    DoesProc k P o o' t t' := by
  refine ⟨⟨h.heap.managed, ?_⟩, ?_, rfl, ?_, ?_⟩
  · rw [hm', hl']
    exact h.heap.chain
  · rw [hm']
    simp only [hm]
    exact h.frame
  · rw [hf', h.file, hf]
  · rw [hfs', h.files, hfs]

theorem DoesProc.trans {o'' : ℕ → Owner} {s'' : State} (h : DoesProc k P o o' s s')
    (h' : DoesProc k P o' o'' s' s'') : DoesProc k P o o'' s s'' :=
  ⟨h'.heap, h.frame.trans h'.frame, rfl, h'.file.trans h.file, h'.files.trans h.files⟩

theorem DoesProc.mono {Q : Owner → Prop} (h : DoesProc k P o o' s s') (hPQ : ∀ w, P w → Q w) :
    DoesProc k Q o o' s s' :=
  Does.mono h hPQ

/-! ## `allocproc` -/

/-- The pages of a process: its trapframe and its address space. -/
def Owner.forProc (r p : ℕ) (w : Owner) : Prop := Owner.inSpace r 0 w ∨ w = .trapframe p

/-- **A process has been allocated**: it has a trapframe and an address
space with no memory in it. -/
structure Allocated (k : Symbols) (o o' : ℕ → Owner) (s s' : State) (p tf r : ℕ) : Prop where
  slot : (s.proc p).state = .unused
  first : ∀ q, q < p → (s.proc q).state ≠ .unused
  proc : s'.proc = update s.proc p { s.proc p with pid := s.nextpid, trapframe := tf, pagetable := r }
  does : DoesProc k (Owner.forProc r p) o o' s s'
  unused : Unused o r
  trapframe : ∀ b, o' b = .trapframe p ↔ b = tf
  space : Space o' s'.mem r [] (fun _ => 0) (kernelMap k tf)

/-- A page taken for something else than an address space. -/
theorem Rooted.take {b : ℕ} {w : Owner} (h : Rooted o) (hb : o b = .free)
    (ht : ∀ r d i, w ≠ .table r d i) (hu : ∀ r i, w ≠ .user r i) : Rooted (update o b w) := by
  have hkeep : ∀ {c r}, o c = .table r 0 0 → update o b w c = .table r 0 0 := by
    intro c r hc
    rw [update_of_ne, hc]
    rintro rfl
    rw [hb] at hc
    cases hc
  constructor
  · intro c r d i hc
    by_cases hcb : c = b
    · rw [hcb, update_self] at hc
      exact absurd hc (ht r d i)
    · rw [update_of_ne hcb] at hc
      exact hkeep (h.table c r d i hc)
  · intro c r i hc
    by_cases hcb : c = b
    · rw [hcb, update_self] at hc
      exact absurd hc (hu r i)
    · rw [update_of_ne hcb] at hc
      exact hkeep (h.user c r i hc)

/-- **`allocproc`** allocates the process it returns. -/
theorem allocproc_hoare (hh : Heap k o s) (hroot : Rooted o)
    (hfree : ∀ p b, (s.proc p).state = .unused → o b ≠ .trapframe p) :
    Hoare (· = s) (allocproc k)
      (fun res s' => ∀ p, res = some p → ∃ o' tf r, Allocated k o o' s s' p tf r) fun _ => True := by
  rw [allocproc]
  refine .gets_bind ?_
  cases hslot : (List.range NPROC).find? fun p => (s.proc p).state = .unused with
  | none => exact .pure (by simp)
  | some p =>
    have hp : (s.proc p).state = .unused := by simpa using List.find?_some hslot
    have hfirst : ∀ q, q < p → (s.proc q).state ≠ .unused := fun q hq => by
      simpa using (List.find?_range_eq_some.1 hslot).2.2 q hq
    have hnone : ∀ b, o b ≠ .trapframe p := fun b => hfree p b hp
    refine .gets_bind (.modify_bind ?_)
    have hh₀ : Heap k o { s with nextpid := s.nextpid + 1 } := ⟨hh.managed, hh.chain⟩
    refine ((kalloc_returns (P := fun _ w => w = .free ∨ w = .trapframe p) hh₀
      (fun _ => .trapframe p) (fun _ => ⟨Owner.noConfusion, Owner.noConfusion⟩) (fun _ => .inl rfl)
      fun _ => .inr rfl).hoare _).seq ?_
    intro tf s₁ hres
    refine .modify_bind ?_
    rcases hres with ⟨rfl, -, -⟩ | ⟨h0, htf, hdo, -⟩
    · exact .pure (by simp)
    rw [if_neg h0]
    have hown : ∀ b, update o tf (.trapframe p) b = .trapframe p ↔ b = tf := by
      intro b
      by_cases hb : b = tf
      · simp [hb]
      · rw [update_of_ne hb]
        exact ⟨fun h => absurd h (hnone b), fun h => absurd h hb⟩
    generalize hs₂ : State.mk s₁.mem _ _ _ _ _ _ = s₂
    have hdo₂ : DoesProc k (fun w => w = .free ∨ w = .trapframe p) o (update o tf (.trapframe p)) s s₂ := by
      rw [← hs₂]
      exact hdo.withProc rfl rfl rfl rfl rfl rfl rfl
    have hproc₂ : s₂.proc = update s.proc p { s.proc p with pid := s.nextpid, trapframe := tf } := by
      rw [← hs₂, hdo.proc]
    have htf₂ : (s₂.proc p).trapframe = tf := by rw [hproc₂, update_self]
    have hlt : tf < 2 ^ 56 := hh.lt (by rw [htf]; exact Owner.noConfusion)
    have hroot₂ : Rooted (update o tf (.trapframe p)) :=
      hroot.take htf (fun _ _ _ => Owner.noConfusion) fun _ _ => Owner.noConfusion
    refine ((procPagetable_returns (f := fun _ => 0) hdo₂.heap hroot₂ (by rwa [htf₂])).hoare _).seq ?_
    intro r s₃ hres
    refine .modify_bind ?_
    rcases hres with ⟨rfl, -⟩ | ⟨hr, hun, o₃, hdo₃, hspace⟩
    · exact Hoare.any.seq fun _ _ _ => .pure (by simp)
    rw [if_neg hr]
    refine .pure ?_
    rintro s₄ rfl _ ⟨⟩
    refine ⟨o₃, tf, r, hp, hfirst, ?_, ?_, ?_, fun b => ?_, ?_⟩
    · rw [hdo₃.proc, hproc₂, update_self, update_idem]
    · have hwide : ∀ w, w = .free ∨ w = .trapframe p → Owner.forProc r p w := by
        rintro w (rfl | rfl)
        · exact .inl trivial
        · exact .inr rfl
      exact (hdo₂.mono hwide).trans
        ((hdo₃.mono fun w hw => .inl hw).withProc rfl rfl rfl rfl rfl rfl rfl)
    · refine ⟨fun b d i hb => hun.table b d i ?_, fun b i hb => hun.user b i ?_⟩
      all_goals
        rw [update_of_ne, hb]
        rintro rfl
        rw [htf] at hb
        cases hb
    · rw [hdo₃.own_iff id, hown]
    · rw [htf₂] at hspace
      exact hspace

/-! ## Boot -/

/-- The owners that pages have before there is a process. -/
def Owner.early (w : Owner) : Prop := w = .free ∨ w = .boot

/-- The owners before `kinit`. -/
def rawOwner (k : Symbols) (b : ℕ) : Owner := if Managed k b then .boot else .outside

theorem heap_reset (mem : ℕ → Page) (node : ℕ → Node) : Heap k (rawOwner k) (reset mem node) := by
  refine ⟨fun b => ?_, [], rfl, List.nodup_nil, fun b => ?_⟩
  · rw [rawOwner]
    split <;> simp_all
  · rw [rawOwner]
    split <;> simp

theorem managed_freerange {i : ℕ} (hi : i < nfree k) : Managed k (pgRoundUp k.kend + i * PGSIZE) := by
  have := k.ram
  simp only [nfree, Managed, pgRoundUp, pgRoundDown, PHYSTOP, KERNBASE, PGSIZE] at *
  omega

/-- **`kinit`** frees pages only. -/
theorem kinit_returns (mem : ℕ → Page) (node : ℕ → Node) :
    Returns (kinit k) (reset mem node) fun _ s' =>
      ∃ o, Does k Owner.early (rawOwner k) o (reset mem node) s' := by
  refine (Returns.forM_range (I := fun i s => ∃ o, Does k Owner.early (rawOwner k) o (reset mem node) s ∧
    ∀ j, i ≤ j → j < nfree k → o (pgRoundUp k.kend + j * PGSIZE) = .boot) ?_ ?_).mono ?_
  · rintro i s hi ⟨o, hdo, hboot⟩
    refine (kfree_returns (P := Owner.early) hdo.heap (hboot i le_rfl hi)
      ⟨Owner.noConfusion, Owner.noConfusion⟩ (.inr rfl) (.inl rfl)).mono ?_
    rintro - s' ⟨hdo', -⟩
    refine ⟨_, hdo.trans hdo', fun j h1 h2 => ?_⟩
    rw [update_of_ne, hboot j (by omega) h2]
    simp only [PGSIZE]
    omega
  · exact ⟨_, .refl (heap_reset mem node), fun j _ hj => if_pos (managed_freerange hj)⟩
  · rintro - s' ⟨o, hdo, -⟩
    exact ⟨o, hdo⟩

/-- There are no address spaces yet. -/
theorem early_cases (h : Frame Owner.early (rawOwner k) o mem mem') (b : ℕ) :
    o b = .free ∨ o b = .boot ∨ o b = .outside := by
  by_cases hb : Managed k b
  · have hraw : rawOwner k b = .boot := if_pos hb
    rcases h.region b (by rw [hraw]; exact .inr rfl) with hb | hb
    · exact .inl hb
    · exact .inr (.inl hb)
  · have hraw : rawOwner k b = .outside := if_neg hb
    refine .inr (.inr ?_)
    rw [h.own b, hraw]
    rw [hraw]
    rintro (h | h) <;> cases h

/-- Address spaces keep their roots when only one of them changes. -/
theorem Rooted.frame (h : Rooted o) (hf : Frame P o o' mem mem') (hr : o' r = .table r 0 0)
    (ht : ∀ r' d i, P (.table r' d i) → r' = r) (hu : ∀ r' i, P (.user r' i) → r' = r) : Rooted o' := by
  have hroot : ∀ {r'}, r' ≠ r → o r' = .table r' 0 0 → o' r' = .table r' 0 0 := fun hne h' =>
    (hf.own_iff fun hp => hne (ht _ _ _ hp)).2 h'
  constructor
  · intro b r' d i hb
    by_cases hne : r' = r
    · rw [hne]
      exact hr
    · exact hroot hne (h.table b r' d i ((hf.own_iff fun hp => hne (ht _ _ _ hp)).1 hb))
  · intro b r' i hb
    by_cases hne : r' = r
    · rw [hne]
      exact hr
    · exact hroot hne (h.user b r' i ((hf.own_iff fun hp => hne (hu _ _ hp)).1 hb))

/-- **`uvminit`** gives the space its first page, if it can be mapped. -/
theorem uvminit_hoare {X : ℕ → ℕ} {src : List UInt8} (h : Space o s.mem r [] (fun _ => 0) X)
    (hh : Heap k o s) (hX : Above X) :
    Hoare (· = s) (uvminit r src) (fun _ s' => ∃ o' ptes f hand,
      Does k (Owner.inSpace r 0) o o' s s' ∧ Holding o' s'.mem r ptes f X hand ∧
        (ptes = [] ∨ ptes.length = 1 ∧ hand = none)) fun _ => True := by
  rw [uvminit]
  refine .ite (fun _ => .stop_bind fun _ _ => trivial) fun hsrc => ?_
  refine ((h.kalloc_returns hh).hoare _).seq ?_
  rintro page s₁ ⟨o₁, hdo₁, ⟨rfl, -⟩ | ⟨h0, -, h₁⟩⟩
  · exact .stop_bind fun _ _ => trivial
  rw [if_neg h0]
  refine ((h₁.write_returns hdo₁.heap fun _ _ => 0).hoare _).seq ?_
  rintro - s₂ ⟨hdo₂, h₂, hpage⟩
  refine ((h₂.mappages_returns hdo₂.heap (hX.free (Nat.zero_le _)) (by decide) (by decide) ?_).hoare
    _).seq ?_
  · intro j hj
    rw [hpage]
    simp [Bytes.get]
  rintro mapped s₃ ⟨o₃, hdo₃, h₃⟩
  have hdo := (hdo₁.toDoes.trans hdo₂).trans hdo₃.toDoes
  cases mapped with
  | false =>
    refine ((h₃.write_returns hdo₃.heap fun q =>
      q.splice 0 src.length fun i => src.getD i 0).hoare _).conseq (fun _ h => h) ?_
    rintro - s₄ ⟨hdo₄, h₄, -⟩
    exact ⟨o₃, [], _, some page, hdo.trans hdo₄, h₄, .inl rfl⟩
  | true =>
    rw [if_pos rfl] at h₃
    have hpa : pte2pa (pa2pte page ||| (PTE_W ||| PTE_R ||| PTE_X ||| PTE_U ||| PTE_V)) = page :=
      pte2pa_or (hdo₁.heap.aligned (by rw [h₁.own_hand]; exact Owner.noConfusion)) (by decide)
    have hfit : 0 + src.length ≤ PGSIZE := by omega
    have hwrite := h₃.memwrite_returns (i := 0) hdo₃.heap rfl hfit
    rw [hpa] at hwrite
    refine (hwrite.hoare _).conseq (fun _ h => h) ?_
    rintro - s₄ ⟨hdo₄, h₄⟩
    exact ⟨o₃, _, _, none, hdo.trans hdo₄, h₄, .inr ⟨rfl, rfl⟩⟩

/-- The root directory is found. -/
theorem namei_root_hoare {fs : Files} : Hoare (Took fs [] none) (namei none [slash])
    (fun r gs => r ≠ none ∧ Took fs r.toList none gs) PathPanic := by
  have hend : ∀ (ip : Fin NINODE) (name : ℕ → UInt8),
      namexLoop false 2 ip [slash] name = pure (some (ip, name)) := fun _ _ => rfl
  refine .bind (R := fun r gs => r ≠ none ∧ Took fs (r.map (·.1)).toList none gs) ?_ ?_
  · refine .ite (fun _ => ?_) fun hne => absurd rfl hne
    refine (iget_hoare ROOTINO).bind fun ip => ?_
    rw [List.length_singleton, hend]
    exact .pure fun gs hgs => ⟨Option.some_ne_none _, hgs⟩
  · intro r
    refine .pure ?_
    rintro gs ⟨hr, hgs⟩
    refine ⟨?_, hgs⟩
    cases r with
    | none => exact absurd rfl hr
    | some x => exact Option.some_ne_none _

/-- **The first process is ready** when `userinit` has made it, if its page
is mapped. -/
theorem userinit_hoare (hh : Heap k o s) (hown : ∀ b, o b = .free ∨ o b = .boot ∨ o b = .outside)
    (hproc : s.proc = fun _ => {}) (hlocked : ∀ ip, (s.files.inode ip).locked = false)
    (hsize : ∀ i, (s.files.node i).data.length ≤ MAXFILE * BSIZE) :
    Hoare (· = s) (userinit k) (fun _ s' =>
      ((userMem (s'.proc initproc).pagetable s').byteAt 0).isSome → ∃ o', Ready k o' s' initproc)
      fun _ => True := by
  have hroot : Rooted o := by
    refine ⟨fun b r d i hb => ?_, fun b r i hb => ?_⟩ <;>
      rcases hown b with h | h | h <;> rw [h] at hb <;> cases hb
  have hnone : ∀ p b, (s.proc p).state = .unused → o b ≠ .trapframe p := by
    intro p b _ hb
    rcases hown b with h | h | h <;> rw [h] at hb <;> cases hb
  rw [userinit]
  refine (allocproc_hoare hh hroot hnone).seq ?_
  rintro (_ | p) s₁ hres
  · exact .stop fun _ _ => trivial
  obtain ⟨o₁, tf, r, ha⟩ := hres p rfl
  obtain rfl : p = initproc := by
    by_contra hne
    exact ha.first 0 (Nat.pos_of_ne_zero hne) (by rw [hproc])
  have hq : s₁.proc initproc = { pid := s.nextpid, trapframe := tf, pagetable := r } := by
    rw [ha.proc, update_self, hproc]
  refine .gets_bind ?_
  rw [hq]
  refine (uvminit_hoare ha.space ha.does.heap (above_kernelMap ..)).seq ?_
  rintro - s₂ ⟨o₂, ptes, f, hand, hdo₂, hhold, hmapped⟩
  refine .modify_bind (.modify_bind (.modify_bind ?_))
  generalize hs₃ : State.mk _ _ _ _ _ _ _ = s₃
  have hq₃ : s₃.proc initproc = { pid := s.nextpid, trapframe := tf, pagetable := r, sz := PGSIZE } := by
    rw [← hs₃]
    simp only [update_self, hdo₂.proc, hq]
  have hfiles₃ : s₃.files = s.files := by
    rw [← hs₃]
    exact hdo₂.files.trans ha.does.files
  have hownt : o₂ tf = .trapframe initproc := (hdo₂.own_iff id).2 ((ha.trapframe tf).2 rfl)
  -- the registers are set in the trapframe
  have hframe₃ : Frame (· = .trapframe initproc) o₂ o₂ s₂.mem s₃.mem := by
    refine .write hownt fun b hb => ?_
    rw [← hs₃]
    simp only [update_of_ne hb]
  have hheap₃ : Heap k o₂ s₃ := by
    refine hdo₂.heap.congr (by rw [← hs₃]) fun b hb => hframe₃.mem b ?_
    rw [hb]
    exact Owner.noConfusion
  have hhold₃ := hhold.frame hframe₃ (fun _ _ => Owner.noConfusion) fun _ => Owner.noConfusion
  have hwide : ∀ w, Owner.inSpace r 0 w → Owner.forProc r initproc w := fun _ => .inl
  have hrooted : Rooted o₂ := by
    refine hroot.frame (r := r) (ha.does.frame.trans (hdo₂.frame.mono hwide)) hhold.table.own_root ?_ ?_
    · rintro r' d i (h | h)
      · exact h
      · cases h
    · rintro r' i (h | h)
      · exact h.1
      · cases h
  have htook : Took s₃.files [] none s₃.files := .refl (by rw [hfiles₃]; exact hlocked)
  refine (onFiles_hoare ((namei_root_hoare.known htook).weaken fun _ _ => trivial)).seq ?_
  rintro cwd s₄ ⟨hs₄, hcwd, htook₄⟩
  refine .modify ?_
  rintro s₄ rfl hpage
  have hq₄ : s₄.proc initproc = s₃.proc initproc := by rw [hs₄]
  simp only [update_self, hq₄, hq₃] at hpage ⊢
  generalize hs₅ : State.mk s₄.mem _ _ _ _ _ _ = s₅ at hpage ⊢
  have hq₅ : s₅.proc initproc =
      { s₃.proc initproc with name := initcodeName, cwd, state := .used } := by
    rw [← hs₅]
    simp only [update_self, hq₃]
  have hmem₅ : s₅.mem = s₃.mem := by rw [← hs₅, hs₄]
  have hfiles₅ : s₅.files = s₄.files := by rw [← hs₅]
  have hheap₅ : Heap k o₂ s₅ := by
    rw [← hs₅, hs₄]
    exact ⟨hheap₃.managed, hheap₃.chain⟩
  have hhold₅ : Holding o₂ s₅.mem r ptes f (kernelMap k tf) hand := by
    rw [hmem₅]
    exact hhold₃
  rcases hmapped with rfl | ⟨hlen, rfl⟩
  · rw [hhold₅.byteAt_eq hheap₅ (above_kernelMap ..), if_neg (by simp [ForUser])] at hpage
    cases hpage
  refine ⟨o₂, hheap₅, hrooted, ?_, ⟨ptes, f, ?_, ?_⟩, ?_, fun ip => ?_, fun i => ?_⟩
  · rw [hq₅, hq₃]
    exact hownt
  · rw [hq₅, hq₃]
    exact hhold₅
  · rw [hq₅, hq₃, hlen]
    exact (pages_mul 1).symm
  · rw [hq₅]
    exact hcwd
  · rw [hfiles₅, htook₄.locked]
    rfl
  · rw [hfiles₅]
    refine (htook₄.size i).trans ?_
    rw [hfiles₃]
    exact hsize i

/-- **After boot the first process is ready**, if its page is mapped. -/
theorem boot_hoare {nboot : ℕ} {mem : ℕ → Page} {node : ℕ → Node}
    (hsize : ∀ i, (node i).data.length ≤ MAXFILE * BSIZE) :
    Hoare (· = reset mem node) (boot k nboot) (fun _ s =>
      ((userMem (s.proc initproc).pagetable s).byteAt 0).isSome → ∃ o, Ready k o s initproc)
      fun _ => True := by
  rw [boot]
  refine ((kinit_returns mem node).hoare _).seq ?_
  intro _ s₁ h₁
  refine ((Hoare.forM_range (I := fun _ s => ∃ o, Does k Owner.early (rawOwner k) o (reset mem node) s)
    fun i _ => ?_).known h₁).seq ?_
  · refine .pointwise fun s hs => ?_
    obtain ⟨o, hdo⟩ := hs
    refine ((kalloc_returns (P := fun _ => Owner.early) hdo.heap (fun _ => .boot)
      (fun _ => ⟨Owner.noConfusion, Owner.noConfusion⟩) (fun _ => .inl rfl) fun _ => .inr rfl).hoare
        _).seq ?_
    rintro page s' (⟨rfl, -, -⟩ | ⟨h0, -, hdo', -⟩)
    · exact .stop fun _ _ => trivial
    · rw [if_neg h0]
      refine .pure ?_
      rintro _ rfl
      exact ⟨_, hdo.trans hdo'⟩
  · rintro - s₂ ⟨o₂, hdo₂⟩
    refine userinit_hoare hdo₂.heap (early_cases hdo₂.frame) hdo₂.proc ?_ ?_
    · rw [hdo₂.files]
      exact fun _ => rfl
    · rw [hdo₂.files]
      exact hsize

/-! ## A small machine -/

/-- A program of 120 bytes whose program header, the last 56 of them, is
said to be at `off`: it loads its first 64 bytes at address 0. -/
def smallElf (off : ℕ) : List UInt8 :=
  bytesLE 4 ELF_MAGIC ++ List.replicate 28 0 ++ bytesLE 8 off ++ List.replicate 16 0 ++ bytesLE 2 1 ++
    List.replicate 6 0 ++ bytesLE 8 ELF_PROG_LOAD ++ List.replicate 24 0 ++ bytesLE 8 64 ++ bytesLE 8 64 ++
      List.replicate 8 0

/-- A disk whose root directory names two programs, `a` and `b`. -/
def smallDisk (i : ℕ) : Node :=
  if i = ROOTINO then
    ⟨T_DIR, 1, bytesLE 2 2 ++ [97] ++ List.replicate 13 0 ++ bytesLE 2 3 ++ [98] ++ List.replicate 13 0⟩
  else if i = 2 then ⟨T_FILE, 1, smallElf 64⟩
  else if i = 3 then ⟨T_FILE, 1, smallElf (2 ^ 32 + 64)⟩
  else ⟨0, 0, []⟩

/-- A kernel with 20 pages of memory. -/
abbrev smallKernel : Symbols := smallSymbols 20 (by decide)

/-- The machine after boot. -/
@[irreducible] def smallMachine : State :=
  match boot smallKernel 0 (reset (fun _ _ => 0) smallDisk) with
  | .ok (_, s) => s
  | .error _ => reset (fun _ _ => 0) smallDisk

theorem smallMachine_boot :
    boot smallKernel 0 (reset (fun _ _ => 0) smallDisk) = .ok ((), smallMachine) := by
  have hok : (boot smallKernel 0 (reset (fun _ _ => 0) smallDisk)).isOk = true := by decide +kernel
  rw [smallMachine]
  cases hrun : boot smallKernel 0 (reset (fun _ _ => 0) smallDisk) with
  | ok r => rfl
  | error e =>
    rw [hrun] at hok
    cases hok

theorem smallMachine_ready : ∃ o, Ready smallKernel o smallMachine initproc := by
  refine (boot_hoare fun i => ?_).ok rfl smallMachine_boot (by decide +kernel)
  rw [smallDisk]
  split
  · decide
  · split
    · decide
    · split <;> decide

end Vm

end Xv6
