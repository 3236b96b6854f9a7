import Xv6.Umalloc.Heap
import Xv6.Vm.Boot
/-!
# `malloc` and the kernel's `sbrk`

The argument of `sbrk` is an `int`, and `morecore` passes it a number of
bytes that need not fit: from 2³¹ bytes on, the kernel adds less memory
than `morecore` records, or takes some away. Below, a request is honoured,
or the heap is left alone.
-/

namespace Xv6

open Common

namespace Umalloc

namespace Sys

/-! ## `user/umalloc.c` over `kernel/sysproc.c` -/

variable (k : Symbols) (i : ℕ)

/-- `sbrk(n)` of process `i`. -/
def sbrk (h : Heap) (n : ℕ) : Kern Vm.State (Option ℕ × Heap) := do
  let addr ← Vm.sysSbrk k i (Int32.ofNat n)
  if addr = -1 then
    return (none, h)
  let brk ← Prog.gets fun s => (s.proc i).sz
  let start := (addr % 2 ^ 64).toNat
  return (some start, { h with brk, answers := [], regions := h.regions ++ [(start, brk - start)] })

/-! ## What is promised -/

/-- The break has not moved, or by the units `morecore` records. -/
def Moved (h h' : Heap) : Prop :=
  (h'.brk = h.brk ∧ h'.regions = h.regions) ∨
    ∃ nu, h'.brk = h.brk + nu * unit ∧ h'.regions = h.regions ++ [(h.brk, nu * unit)]

/-- **A request has been honoured**: there is a block of that size below
the break, apart from the others; or the heap is as it was. -/
structure Honoured (base : ℕ) (h : Heap) (live : List (ℕ × ℕ)) (nbytes : ℕ) (r : ℕ) (h' : Heap) :
    Prop where
  fails : r = 0 → h' = h.start base
  order : Inv base (State.allocated ⟨h, live⟩ nbytes (r, h'))
  room : r ≠ 0 → nbytes + unit ≤ unit * (h'.hdr (r - unit)).size ∧ h'.fin (r - unit) ≤ h'.brk
  apart : r ≠ 0 → ∀ b ∈ live.map Prod.fst, ∀ a, h'.In (r - unit) a → ¬ h'.In b a
  moved : Moved h h'

variable {k i} {base : ℕ} {h h' : Heap} {live : List (ℕ × ℕ)} {l l' : List ℕ} {s : Vm.State}
  {n nbytes prevp : ℕ}

/-- **`sbrk`** returns -1, or moves the break as `growproc` moves it. -/
theorem sbrk_returns (hi : Vm.InOrder k s i) (hbrk : h.brk = (s.proc i).sz) :
    Returns (sbrk k i h n) s fun x s' => Vm.InOrder k s' i ∧ x.2.brk = (s'.proc i).sz ∧
      (x = (none, h) ∨ ((s'.proc i).sz : ℤ) = Vm.resized h.brk (Int32.ofNat n) ∧
        x = (some h.brk, { h with
          answers := []
          brk := (s'.proc i).sz
          regions := h.regions ++ [(h.brk, (s'.proc i).sz - h.brk)] })) := by
  have hsz := hi.sz_le
  rw [sbrk, Vm.sysSbrk]
  simp only [bind_assoc, Returns.gets_bind_iff]
  refine .bind ((Vm.growproc_returns hi).mono ?_)
  rintro ok s' ⟨hi', hres⟩
  cases ok with
  | false =>
    rw [if_neg Bool.false_ne_true] at hres
    exact .pure ⟨hi', by rw [hbrk, hres.2.1], .inl rfl⟩
  | true =>
    rw [if_pos rfl, ← hbrk] at hres
    have hmod : ((s.proc i).sz : ℤ).bmod (2 ^ 32) = (s.proc i).sz := by
      rw [Int.bmod_eq_of_le] <;> omega
    have hstart : (((s.proc i).sz : ℤ) % 2 ^ 64).toNat = h.brk := by omega
    simp only [Bool.not_true, Bool.false_eq_true, ↓reduceIte, pure_bind, hmod]
    rw [if_neg (by omega), Returns.gets_bind_iff, hstart]
    exact .pure ⟨hi', rfl, .inr ⟨hres, rfl⟩⟩

/-- Below 2³¹ the break moves by what is asked for. -/
theorem resized_ofNat {sz sz' : ℕ} (hn : n < 2 ^ 31)
    (hsz : (sz' : ℤ) = Vm.resized sz (Int32.ofNat n)) : sz' = sz + n := by
  have hint : (Int32.ofNat n).toInt = n := Int32.toInt_ofNat_of_lt hn
  rw [Vm.resized, hint, if_pos (by omega)] at hsz
  omega

/-- **`morecore`** leaves the heap alone and returns 0, or adds a block
that is large enough. -/
theorem morecore_returns (ht : Tiled base h live l) (hi : Vm.InOrder k s i)
    (hbrk : h.brk = (s.proc i).sz) (hn : 0 < n) (hlt : n < 2 ^ 27) :
    ∃ m r h' s', (∀ f, m ≤ f → morecore (sbrk k i) h f n s = .ok (some (r, h'), s')) ∧
      Vm.InOrder k s' i ∧ h'.brk = (s'.proc i).sz ∧ ((r = 0 ∧ h' = h) ∨
        (r ≠ 0 ∧ r = h'.freep ∧ Moved h h' ∧
          ∃ l', Tiled base h' live l' ∧ ∃ q ∈ base :: l', n ≤ (h'.hdr q).size)) := by
  have hsz := hi.sz_le
  generalize hnu : (if n < 4096 then 4096 else n) = nu
  have hnu' : 0 < nu ∧ nu < 2 ^ 27 ∧ n ≤ nu := by
    subst hnu
    split <;> omega
  have hbytes : nu * unit < 2 ^ 31 := by
    simp only [unit]
    omega
  obtain ⟨y, s', hrun, hi', hbrk', hy⟩ := sbrk_returns (n := nu * unit) hi hbrk
  rcases hy with rfl | ⟨hmove, rfl⟩
  · refine ⟨0, 0, h, s', fun f _ => ?_, hi', hbrk', .inl ⟨rfl, rfl⟩⟩
    simp only [morecore, hnu, Prog.bind_run, hrun]
    rfl
  have hmove := resized_ofNat hbytes hmove
  rw [hmove, Nat.add_sub_cancel_left] at hrun
  obtain ⟨⟨m, hm⟩, hgrow⟩ := ht.sound.grow le_rfl hnu'.1 (by omega)
    { h with answers := [], brk := h.brk + nu * unit, regions := h.regions ++ [(h.brk, nu * unit)] }
    ⟨rfl, rfl⟩ rfl rfl
  obtain ⟨h', hfree⟩ := Option.isSome_iff_exists.1 (hm m le_rfl)
  obtain ⟨hb, hr⟩ := Heap.free_brk hfree
  obtain ⟨h0, l', hg⟩ := hgrow m h' hfree
  refine ⟨m, h'.freep, h', s', fun f hf => ?_, hi', hb.trans hmove.symm, .inr ⟨h0, rfl, .inr ⟨nu, hb, hr⟩,
    l', ht.grown hg, (hg.mono hnu'.2.2).room⟩⟩
  simp only [morecore, hnu, Prog.bind_run, hrun, Except.bind, free_mono hfree hf]
  rfl

theorem Honoured.of_start (ht : Tiled base (h.start base) live l)
    (hb : (h.start base).brk = h.brk ∧ (h.start base).regions = h.regions) :
    Honoured base h live nbytes 0 (h.start base) := by
  refine ⟨fun _ => rfl, ?_, fun h0 => absurd rfl h0, fun h0 => absurd rfl h0, .inl hb⟩
  rw [State.allocated, if_pos rfl]
  exact .of_tiled ht

theorem Honoured.of_tiled {b : ℕ} (ht : Tiled base h' ((b, nbytes) :: live) l') (hm : Moved h h') :
    Honoured base h live nbytes (b + unit) h' := by
  have hmem : b ∈ ((b, nbytes) :: live).map Prod.fst := List.mem_cons_self
  have hne : b + unit ≠ 0 := Nat.succ_ne_zero _
  refine ⟨fun h0 => absurd h0 hne, ?_, fun _ => ?_, fun _ c hc => ?_, hm⟩
  · rw [State.allocated, if_neg hne, Nat.add_sub_cancel]
    exact .of_tiled ht
  · rw [Nat.add_sub_cancel]
    exact ⟨ht.room _ List.mem_cons_self, ht.fin_le_brk hmem⟩
  · rw [Nat.add_sub_cancel]
    refine ht.apart b hmem c (List.mem_cons_of_mem _ hc) ?_
    rintro rfl
    exact (List.nodup_cons.1 ht.nodup).1 hc

/-- `malloc` finds `n` units at `p` or, further on, at `freep`. -/
def Fits (n : ℕ) (h : Heap) (p : ℕ) : Prop := n ≤ (h.hdr p).size ∨ n ≤ (h.hdr h.freep).size

/-- **What `morecore` records is found**, be it there or not. -/
theorem free_fits {f nu brk : ℕ} {answers regions} (hs : Sound base h l) (hle : h.brk ≤ 2 ^ 27)
    (hlt : nu ≤ 2 ^ 29)
    (hfree : ({ h with answers, brk, regions }.setSize h.brk nu).free f (h.brk + unit) = some h') :
    h'.freep ≠ 0 ∧ Fits nu h' (h'.next h'.freep) := by
  have hout : h.brk ∉ base :: l := fun hm => by
    rcases List.mem_cons.1 hm with heq | hm
    · have := hs.low
      simp only [unit] at this
      omega
    · exact Nat.lt_irrefl _ (hs.below _ ⟨_, hm, Heap.in_self (hs.list.pos _ hm)⟩)
  generalize hset : Heap.setSize _ h.brk nu = h₀ at hfree
  have hsame : ∀ b ∈ base :: l, h₀.hdr b = h.hdr b := fun b hb =>
    hset ▸ Heap.setSize_hdr_of_ne (ne_of_mem_of_not_mem hb hout)
  have hsize : (h₀.hdr h.brk).size = nu := by
    rw [← hset, Heap.setSize_hdr]
    exact Nat.mod_eq_of_lt (by omega)
  have hsmall : ∀ b ∈ base :: l, (h₀.hdr b).size ≤ 2 ^ 27 := fun b hb => by
    rw [hsame b hb]
    rcases List.mem_cons.1 hb with rfl | hb
    · rw [hs.list.empty]
      exact Nat.zero_le _
    · have := hs.fin_le_brk hb
      simp only [Heap.fin, unit] at this
      omega
  have hl : FreeList base h₀ l := hs.list.congr hsame
  rw [Heap.free, Nat.add_sub_cancel] at hfree
  obtain ⟨p, hp, rfl⟩ := Option.map_eq_some_iff.1 hfree
  have hpl := hl.search_mem (by rw [← hset]; exact hs.rover) hp
  have hpb : p ≠ h.brk := ne_of_mem_of_not_mem hpl hout
  have hp := hsmall p hpl
  have hq : (h₀.hdr (h₀.hdr p).ptr).size ≤ 2 ^ 27 := hsmall _ (hl.circle.next_mem hpl)
  have hupper : nu ≤ ((h₀.joinUpper h.brk p).hdr h.brk).size ∧
      ((h₀.joinUpper h.brk p).hdr h.brk).size ≤ nu + 2 ^ 27 ∧
      (h₀.joinUpper h.brk p).hdr p = h₀.hdr p := by
    rw [Heap.joinUpper]
    split
    · rw [Heap.setPtr_hdr_of_ne hpb, Heap.setSize_hdr_of_ne hpb, Heap.setPtr_size,
        Heap.setSize_hdr, hsize]
      refine ⟨?_, ?_, rfl⟩ <;> simp only <;> omega
    · rw [Heap.setPtr_hdr_of_ne hpb, Heap.setPtr_size, hsize]
      exact ⟨le_rfl, Nat.le_add_right .., rfl⟩
  generalize h₀.joinUpper h.brk p = h₁ at *
  obtain ⟨h1, h2, h3⟩ := hupper
  refine ⟨?_, ?_⟩
  · have := hs.pos
    rcases List.mem_cons.1 hpl with rfl | hpl
    · exact this.ne'
    · exact (this.trans (hs.list.base_lt hpl)).ne'
  · show nu ≤ ((h₁.joinLower h.brk p).hdr ((h₁.joinLower h.brk p).hdr p).ptr).size ∨
      nu ≤ ((h₁.joinLower h.brk p).hdr p).size
    rw [Heap.joinLower]
    split
    · right
      rw [Heap.setPtr_size, Heap.setSize_hdr, h3]
      simp only
      omega
    · left
      rwa [Heap.setPtr_hdr, Heap.setPtr_hdr_of_ne hpb.symm]

/-- **Whatever is asked for**, the break of the heap is that of the process,
and if the result is 0, the heap is as it was. -/
theorem mallocLoop_large {f p r : ℕ} {s' : Vm.State} (hi : Vm.InOrder k s i)
    (hbrk : h.brk = (s.proc i).sz) (hn : n ≤ 2 ^ 29) (hs : ¬ Fits n h p → Sound base h l)
    (hrun : mallocLoop (sbrk k i) n f prevp p h s = .ok (some (r, h'), s')) :
    (Vm.InOrder k s' i ∧ h'.brk = (s'.proc i).sz) ∧ (Fits n h p → r ≠ 0) ∧ (r = 0 → h' = h) := by
  induction f generalizing prevp p h s with
  | zero => cases hrun
  | succ f ih =>
    rw [mallocLoop] at hrun
    split_ifs at hrun with hle hp
    · obtain ⟨htake, rfl⟩ := Prod.mk.inj (Except.ok.inj hrun)
      have htake : h.take n prevp p = (r, h') := Option.some.inj htake
      have hr : r ≠ 0 ∧ h'.brk = h.brk := by
        rw [Heap.take] at htake
        split at htake <;> cases htake <;> exact ⟨Nat.succ_ne_zero _, rfl⟩
      exact ⟨⟨hi, hr.2.trans hbrk⟩, fun _ => hr.1, fun h0 => absurd h0 hr.1⟩
    · have hno : ¬ Fits n h p := by
        rw [Fits, ← hp, or_self]
        exact hle
      obtain ⟨x, s₁, hmore, hrest⟩ := Prog.bind_ok hrun
      obtain ⟨y, s₂, hsbrk, hret⟩ := Prog.bind_ok hmore
      obtain ⟨y', s₂', hsbrk', hi₂, hbrk₂, hy⟩ := sbrk_returns (k := k) hi hbrk
      cases hsbrk.symm.trans hsbrk'
      rcases hy with rfl | ⟨-, rfl⟩
      · cases hret
        cases hrest
        exact ⟨⟨hi₂, hbrk₂⟩, fun hfit => absurd hfit hno, fun _ => rfl⟩
      obtain ⟨rfl, rfl⟩ := Prod.mk.inj (Except.ok.inj hret)
      cases hfree : Heap.free _ f (h.brk + unit) with
      | none =>
        rw [hfree] at hrest
        cases hrest
      | some h₁ =>
        rw [hfree] at hrest
        -- the block that was recorded is found before `morecore` is called again
        obtain ⟨h0, hfit⟩ := free_fits (hs hno) (hbrk ▸ hi.sz_le) (by split <;> omega) hfree
        have hfit : Fits n h₁ (h₁.next h₁.freep) := by
          refine hfit.imp ?_ ?_ <;> refine Nat.le_trans ?_ <;> split <;> omega
        simp only [Option.map_some, if_neg h0] at hrest
        obtain ⟨h1, h2, -⟩ := ih hi₂ ((Heap.free_brk hfree).1.trans hbrk₂) (absurd hfit) hrest
        exact ⟨h1, fun hfit => absurd hfit hno, fun h0 => absurd h0 (h2 hfit)⟩
    · have hnext : Fits n h p → Fits n h (h.hdr p).ptr := fun hfit => .inr (hfit.resolve_left hle)
      obtain ⟨h1, h2, h3⟩ := ih hi hbrk (fun hno => hs fun hfit => hno (hnext hfit)) hrun
      exact ⟨h1, fun hfit => h2 (hnext hfit), h3⟩

/-- No block of 2³¹ bytes is below the break. -/
theorem Honoured.lt {r : ℕ} (hh : Honoured base h live nbytes r h') (hr : r ≠ 0)
    (hbrk : h'.brk ≤ 2 ^ 27) : nbytes < 2 ^ 27 := by
  obtain ⟨hroom, hfin⟩ := hh.room hr
  simp only [Heap.fin, unit] at hroom hfin
  omega

/-- **`malloc` honours every request below 2³¹ bytes**, its rounding
included; a larger one exactly if it returns 0. -/
theorem malloc_honours (hv : Inv base ⟨h, live⟩) (hi : Vm.InOrder k s i)
    (hbrk : h.brk = (s.proc i).sz) :
    (nbytes ≤ 2 ^ 31 - 32 →
      ∃ m, ∀ f, m ≤ f → Returns (malloc (sbrk k i) base h f nbytes) s fun x s' =>
        ∃ r h', x = some (r, h') ∧ Vm.InOrder k s' i ∧ h'.brk = (s'.proc i).sz ∧
          Honoured base h live nbytes r h') ∧
    (2 ^ 31 - 32 < nbytes → nbytes < 2 ^ 32 → ∀ f r h' s',
      malloc (sbrk k i) base h f nbytes s = .ok (some (r, h'), s') →
        (Honoured base h live nbytes r h' ↔ r = 0)) := by
  have hstart : (h.start base).brk = h.brk ∧ (h.start base).regions = h.regions := by
    rw [Heap.start]
    split <;> exact ⟨rfl, rfl⟩
  obtain ⟨l, ht⟩ := hv.2
  refine ⟨fun hn => ?_, fun hn hlt f r h' s' hrun => ?_⟩
  swap
  · have hunits : Heap.units nbytes ≤ 2 ^ 29 := by
      simp only [Heap.units, unit]
      omega
    obtain ⟨⟨hi', hbrk'⟩, -, hzero⟩ :=
      mallocLoop_large hi (hstart.1.trans hbrk) hunits (fun _ => ht.sound) hrun
    refine ⟨fun hh => ?_, fun h0 => ?_⟩
    · by_contra h0
      have := hh.lt h0 (hbrk' ▸ hi'.sz_le)
      omega
    · obtain rfl := hzero h0
      subst h0
      exact .of_start ht hstart
  obtain ⟨hroom, hpos⟩ := units_room (show nbytes < 2 ^ 32 by omega)
  have hlt : Heap.units nbytes < 2 ^ 27 := by
    simp only [Heap.units, unit]
    omega
  generalize hh₀ : h.start base = h₀ at *
  simp only [malloc, hh₀]
  by_cases hex : ∃ q ∈ base :: l, Heap.units nbytes ≤ (h₀.hdr q).size
  · obtain ⟨m, hm⟩ := mallocLoop_fit (sbrk k i) ht hpos hroom hex
    refine ⟨m, fun f hf => ?_⟩
    obtain ⟨b, h', l', hrun, ht', hb, hr⟩ := hm f hf
    refine ⟨_, s, congrFun hrun s, _, h', rfl, hi, ?_, ?_⟩
    · rw [hb, hstart.1, hbrk]
    · exact .of_tiled ht' (.inl ⟨hb.trans hstart.1, hr.trans hstart.2⟩)
  · obtain ⟨j, hj, hsmall, hfirst⟩ := ht.sound.exists_round hex
    obtain ⟨m, r, h₁, s₁, hmore, hi₁, hbrk₁, hres⟩ :=
      morecore_returns ht hi (hstart.1.trans hbrk) hpos hlt
    -- once round the list, and then `morecore`
    have hround : ∀ f, m ≤ f →
        mallocLoop (sbrk k i) (Heap.units nbytes) (f + 1 + j) h₀.freep (h₀.next h₀.freep) h₀ s =
          (if r = 0 then pure (some (0, h₁))
            else mallocLoop (sbrk k i) (Heap.units nbytes) f r (h₁.next r) h₁) s₁ := by
      intro f hf
      rw [mallocLoop_walk hfirst, hj, mallocLoop, if_neg hsmall, if_pos rfl, Prog.bind_run, hmore f hf]
      rfl
    rcases hres with ⟨rfl, rfl⟩ | ⟨h0, rfl, hmoved, l₁, ht₁, hex₁⟩
    · refine ⟨m + 1 + j, fun f hf => ?_⟩
      obtain ⟨f, rfl⟩ : ∃ a, f = a + 1 + j := ⟨f - (1 + j), by omega⟩
      exact ⟨_, s₁, hround f (by omega), 0, h₁, rfl, hi₁, hbrk₁, hh₀ ▸ .of_start (hh₀ ▸ ht) (hh₀ ▸ hstart)⟩
    · obtain ⟨m₁, hm₁⟩ := mallocLoop_fit (sbrk k i) ht₁ hpos hroom hex₁
      refine ⟨m + m₁ + 1 + j, fun f hf => ?_⟩
      obtain ⟨f, rfl⟩ : ∃ a, f = a + 1 + j := ⟨f - (1 + j), by omega⟩
      obtain ⟨b, h', l', hrun, ht', hb, hr⟩ := hm₁ f (by omega)
      refine ⟨_, s₁, (hround f (by omega)).trans ?_, _, h', rfl, hi₁, hb.trans hbrk₁, .of_tiled ht' ?_⟩
      · rw [if_neg h0, hrun]
        rfl
      · rw [Moved, hb, hr, ← hstart.1, ← hstart.2]
        exact hmoved

/-- The heap of the first process before its first call. -/
def firstHeap : Heap := ⟨fun _ => ⟨0, 0⟩, 0, 4096, [], []⟩

theorem malloc_honours_hundred : ∃ m, ∀ f, m ≤ f →
    Returns (malloc (sbrk Vm.smallKernel Vm.initproc) 256 firstHeap f 100) Vm.smallMachine fun x s' =>
      ∃ r h', x = some (r, h') ∧ Vm.InOrder Vm.smallKernel s' Vm.initproc ∧
        h'.brk = (s'.proc Vm.initproc).sz ∧ Honoured 256 firstHeap [] 100 r h' := by
  have hinit : Init 256 ⟨firstHeap, []⟩ := ⟨rfl, rfl, rfl, by decide, by decide, by decide⟩
  obtain ⟨o, hready⟩ := Vm.smallMachine_ready
  obtain ⟨ptes, f, hspace, hlen⟩ := hready.space
  exact (malloc_honours hinit.inv ⟨o, ptes, f, _, hready.heap, hspace, Vm.above_kernelMap .., hlen⟩
    (by decide +kernel)).1 (by decide)

/-- **A request for 2³² - 1 bytes adds 16**, which are recorded as 2²⁸ + 1
units. -/
theorem malloc_narrows :
    Returns (malloc (sbrk Vm.smallKernel Vm.initproc) 256 firstHeap 4 (2 ^ 32 - 1)) Vm.smallMachine
      fun x s => (x.map fun y => (y.1, (y.2.hdr (y.1 - unit)).size), (s.proc Vm.initproc).sz) =
        (some (4112, 2 ^ 28 + 1), 4112) :=
  .of_run (by decide +kernel)

end Sys

end Umalloc

end Xv6
