import Xv6.Umalloc.FreeList
/-!
# `malloc`

A block is taken from the list whole, or from the end of a larger one. The
loop of `malloc` goes round the list once: it ends at a block that is large
enough if there is one, and at `freep` if there is none. In that case
`morecore` adds one, and the loop ends at it the second time round.
-/

namespace Xv6

open List

namespace Umalloc

variable {base : ℕ} {h h' : Heap} {l l₁ l₂ : List ℕ} {a b bp p q n k prevp : ℕ}

/-! ## Taking a block -/

/-- **A block of `n` units leaves the list**: the block `b` and the list
have the bytes the list had. -/
structure Taken (base : ℕ) (h : Heap) (l : List ℕ) (n b : ℕ) (h' : Heap) (l' : List ℕ) : Prop where
  list : FreeList base h' l'
  rover : h'.freep ∈ base :: l'
  size : (h'.hdr b).size = n
  mem : h.Covers l b
  covers : ∀ a, h.Covers l a ↔ h'.Covers l' a ∨ h'.In b a
  apart : ∀ a, h'.In b a → ¬ h'.Covers l' a
  hdr : ∀ c, c ∉ base :: l → c ≠ b → h'.hdr c = h.hdr c
  brk : h'.brk = h.brk
  regions : h'.regions = h.regions

namespace FreeList

/-- Two blocks of the list are apart. -/
theorem fin_lt (hl : FreeList base h l) (heq : base :: l = l₁ ++ p :: l₂) :
    (∀ c ∈ l₁, h.fin c < p) ∧ ∀ c ∈ l₂, h.fin p < c := by
  have hapart := hl.apart
  rw [heq] at hapart
  exact ⟨fun c hc => (pairwise_append.1 hapart).2.2 c hc p mem_cons_self, (hl.tail heq).2⟩

section

variable (hl : FreeList base h l) (hprev : prevp ∈ base :: l)
include hl hprev

/-- **A block is taken whole.** -/
theorem take_whole (hnext : h.next prevp = p)
    (hp : p ∈ l) :
    ∃ l', Taken base h l (h.hdr p).size p
      { h.setPtr prevp (h.hdr p).ptr with freep := prevp } l' := by
  obtain ⟨l₁, l₂, heq⟩ := append_of_mem hprev
  have hhead := hl.next_eq heq
  cases l₂ with
  | nil =>
    have hpb : base < p := hl.base_lt hp
    rw [hnext, headD_nil] at hhead
    omega
  | cons q t =>
    obtain rfl : p = q := by rw [← hnext, hhead, headD_cons]
    have heq' : base :: l = (l₁ ++ [prevp]) ++ p :: t := by rw [heq, append_assoc]; rfl
    obtain ⟨hbelow, habove⟩ := hl.fin_lt heq'
    obtain ⟨hl₁, hfar⟩ := hl.fin_lt heq
    have hprevp : h.fin prevp < p := hfar p mem_cons_self
    generalize hh' : ({ h.setPtr prevp (h.hdr p).ptr with freep := prevp } : Heap) = h'
    have hhdr : ∀ c, c ≠ prevp → h'.hdr c = h.hdr c := by
      rintro c hc
      rw [← hh']
      exact Heap.setPtr_hdr_of_ne hc
    have hsize : ∀ c, (h'.hdr c).size = (h.hdr c).size := by
      intro c
      rw [← hh']
      exact Heap.setPtr_size c
    have hfin : ∀ c, h'.fin c = h.fin c := fun c => by rw [Heap.fin, hsize, Heap.fin]
    have hnext' : h'.next prevp = h.next p := by
      have hself : h'.hdr prevp = { h.hdr prevp with ptr := (h.hdr p).ptr } := by
        rw [← hh']
        exact Heap.setPtr_hdr
      rw [Heap.next, hself, Heap.next]
    have hsame : ∀ c ∈ t, h'.hdr c = h.hdr c := fun c hc => hhdr c fun heq => by
      have := hfar c (mem_cons_of_mem _ hc)
      simp only [Heap.fin] at this
      omega
    obtain ⟨l', hl', hfl, hcov⟩ := hl.replace heq
      (fun c hc => hhdr c fun heq => by
        have := hl₁ c hc
        simp only [Heap.fin] at this
        omega)
      (hnext' ▸ (hl.tail heq').1.congr hsame)
      (fun c hc => (hfin prevp).symm ▸ hfar c (mem_cons_of_mem _ hc))
      (by rw [hsize, hl.size_eq_zero hprev])
    refine ⟨l', hfl, ?_, hsize p, ⟨p, hp, Heap.in_self (hl.pos p hp)⟩, fun a => ?_, fun a ha hc => ?_,
      fun c hc _ => hhdr c fun heq => hc (heq ▸ hprev), ?_, ?_⟩
    · rw [← hh', hl']
      simp
    · have hin : ∀ c, h'.In c a ↔ h.In c a := fun c => by rw [Heap.In, hfin, Heap.In]
      rw [← hl.covers_base, heq, hcov, Heap.covers_append, Heap.covers_cons, Heap.covers_cons,
        Heap.covers_congr hsame, hin, hin]
      simp only [or_assoc, or_comm, or_left_comm]
    · -- the blocks below end before this one, and those above begin behind it
      rw [Heap.In, hfin] at ha
      rcases (hcov a).1 hc with ⟨c, hc, hca⟩ | hca | ⟨c, hc, hca⟩
      · have := hbelow c (mem_append_left _ hc)
        simp only [Heap.In] at hca
        omega
      · rw [Heap.In, hfin] at hca
        omega
      · have := habove c hc
        simp only [Heap.In] at hca
        omega
    · rw [← hh']
      rfl
    · rw [← hh']
      rfl

/-- **A block is taken from the end of a larger one.** -/
theorem take_end (hp : p ∈ l) (hn : 0 < n)
    (hlt : n < (h.hdr p).size) (hsz : (h.hdr p).size < 2 ^ 32) :
    Taken base h l n (p + unit * ((h.hdr p).size - n))
      { (h.setSize p ((h.hdr p).size - n)).setSize (p + unit * ((h.hdr p).size - n)) n with
        freep := prevp } l := by
  obtain ⟨l₁, l₂, heq⟩ := append_of_mem (mem_cons_of_mem base hp)
  obtain ⟨hbelow, habove⟩ := hl.fin_lt heq
  generalize hb : p + unit * ((h.hdr p).size - n) = b
  generalize hh' :
    ({ (h.setSize p ((h.hdr p).size - n)).setSize b n with freep := prevp } : Heap) = h'
  have hpb : p < b := by
    simp only [unit] at hb
    omega
  have hfinb : b + unit * n = h.fin p := by
    simp only [Heap.fin, unit] at hb ⊢
    omega
  have hbp : b < h.fin p := by
    simp only [unit] at hfinb
    omega
  have hhdr : ∀ c, c ≠ p → c ≠ b → h'.hdr c = h.hdr c := by
    intro c hc hcb
    rw [← hh']
    exact (Heap.setSize_hdr_of_ne hcb).trans (Heap.setSize_hdr_of_ne hc)
  have hp' : h'.hdr p = ⟨h.next p, (h.hdr p).size - n⟩ := by
    rw [← hh']
    refine (Heap.setSize_hdr_of_ne hpb.ne).trans ?_
    rw [Heap.setSize_hdr, Nat.mod_eq_of_lt (by omega)]
    rfl
  have hb' : (h'.hdr b).size = n := by
    rw [← hh']
    exact (congrArg Header.size Heap.setSize_hdr).trans (Nat.mod_eq_of_lt (by omega))
  have hfinp : h'.fin p = b := by rw [Heap.fin, hp', hb]
  have hfinb' : h'.fin b = h.fin p := by rw [Heap.fin, hb', hfinb]
  -- the new header is inside the block, so no other block begins there
  have hl₁ : ∀ c ∈ l₁, h'.hdr c = h.hdr c := by
    intro c hc
    have := hbelow c hc
    simp only [Heap.fin] at this
    exact hhdr c (by omega) (by omega)
  have hl₂ : ∀ c ∈ l₂, h'.hdr c = h.hdr c := by
    intro c hc
    have := habove c hc
    exact hhdr c (by omega) (by omega)
  have hnext : h'.next p = h.next p := by rw [Heap.next, hp']
  obtain ⟨l', hl', hfl, hcov⟩ := hl.replace heq hl₁ (hnext ▸ (hl.tail heq).1.congr hl₂)
    (fun c hc => hfinp ▸ hbp.trans (habove c hc)) (by
      rw [hp']
      exact iff_of_false (by simp only; omega) (hl.base_lt hp).ne')
  obtain rfl : l' = l := (List.cons.inj (hl'.trans heq.symm)).2
  refine ⟨hfl, ?_, hb', ⟨p, hp, hpb.le, hbp⟩, fun a => ?_, fun a ha hc => ?_, fun c hc hcb => ?_, ?_, ?_⟩
  · rw [← hh']
    exact hprev
  · have hin : h.In p a ↔ h'.In p a ∨ h'.In b a := by
      simp only [Heap.In, hfinp, hfinb']
      omega
    rw [hcov, ← hl.covers_base, heq, Heap.covers_append, Heap.covers_cons, Heap.covers_congr hl₂, hin]
    simp only [or_assoc, or_comm]
  · rw [Heap.In, hfinb'] at ha
    rcases (hcov a).1 hc with ⟨c, hc, hca⟩ | hca | ⟨c, hc, hca⟩
    · have := hbelow c hc
      simp only [Heap.In] at hca
      omega
    · rw [Heap.In, hfinp] at hca
      omega
    · have := habove c hc
      simp only [Heap.In] at hca
      omega
  · refine hhdr c (fun heq => hc ?_) hcb
    rw [heq]
    exact mem_cons_of_mem _ hp
  · rw [← hh']
    rfl
  · rw [← hh']
    rfl

/-- **What `malloc` does at a block that is large enough.** -/
theorem take (hnext : h.next prevp = p)
    (hn : 0 < n) (hle : n ≤ (h.hdr p).size) (hsz : (h.hdr p).size < 2 ^ 32) :
    ∃ b l', (h.take n prevp p).1 = b + unit ∧ Taken base h l n b (h.take n prevp p).2 l' := by
  have hp : p ∈ l := by
    have hp' : p ∈ base :: l := hnext ▸ hl.circle.next_mem hprev
    refine (mem_cons.1 hp').resolve_left ?_
    rintro rfl
    rw [hl.empty] at hle
    omega
  by_cases heq : (h.hdr p).size = n
  · obtain ⟨l', hl'⟩ := hl.take_whole hprev hnext hp
    refine ⟨p, l', ?_, ?_⟩
    · rw [Heap.take, if_pos heq]
    · rw [Heap.take, if_pos heq]
      rwa [heq] at hl'
  · have hfin : (h.setSize p ((h.hdr p).size - n)).fin p = p + unit * ((h.hdr p).size - n) := by
      rw [Heap.fin, Heap.setSize_hdr, Nat.mod_eq_of_lt (by omega)]
    refine ⟨p + unit * ((h.hdr p).size - n), l, ?_, ?_⟩
    · simp only [Heap.take, if_neg heq, hfin]
    · simp only [Heap.take, if_neg heq, hfin]
      exact hl.take_end hprev hp hn (by omega) hsz

end

end FreeList

/-! ## `morecore` -/

theorem Heap.join_brk (h : Heap) (bp p : ℕ) : ((h.joinUpper bp p).joinLower bp p).brk = h.brk ∧
    ((h.joinUpper bp p).joinLower bp p).regions = h.regions := by
  simp only [Heap.joinUpper, Heap.joinLower]
  split <;> split <;> exact ⟨rfl, rfl⟩

theorem Heap.free_brk (hf : h.free n a = some h') : h'.brk = h.brk ∧ h'.regions = h.regions := by
  obtain ⟨p, -, rfl⟩ := Option.map_eq_some_iff.1 hf
  exact Heap.join_brk h _ p

/-- **The heap between calls**: the free list, `freep` on it, and all in
the memory of the process. -/
structure Sound (base : ℕ) (h : Heap) (l : List ℕ) : Prop where
  list : FreeList base h l
  rover : h.freep ∈ base :: l
  below : ∀ a, h.Covers l a → a < h.brk
  pos : 0 < base
  low : base + unit ≤ h.brk
  lt : h.brk < 2 ^ 32

namespace Sound

theorem fin_le_brk (hs : Sound base h l) (hb : b ∈ l) : h.fin b ≤ h.brk := by
  have hpos := hs.list.pos b hb
  have := hs.below (h.fin b - 1) ⟨b, hb, by
    simp only [Heap.In, Heap.fin, unit]
    omega⟩
  simp only [Heap.fin, unit] at *
  omega

theorem size_lt (hs : Sound base h l) (hb : b ∈ base :: l) : (h.hdr b).size < 2 ^ 32 := by
  rcases mem_cons.1 hb with rfl | hb
  · rw [hs.list.empty]
    exact Nat.two_pow_pos 32
  · have := hs.fin_le_brk hb
    have := hs.lt
    simp only [Heap.fin, unit] at *
    omega

/-- **`free` of a block outside the list.** -/
theorem free (hs : Sound base h l) (hbase : base < bp) (hpos : 0 < (h.hdr bp).size)
    (hno : ∀ a, h.In bp a → ¬ h.Covers l a) (hfin : h.fin bp ≤ h.brk) :
    (∃ k, ∀ f, k ≤ f → (h.free f (bp + unit)).isSome) ∧
      ∀ f h', h.free f (bp + unit) = some h' → ∃ l', Sound base h' l' ∧
        (∀ a, h'.Covers l' a ↔ h.Covers l a ∨ h.In bp a) ∧
        (∀ c, c ∉ base :: l → c ≠ bp → h'.hdr c = h.hdr c) ∧ h'.brk = h.brk ∧
        h'.regions = h.regions := by
  have hbl : bp ∉ l := fun hbl => hno bp (Heap.in_self hpos) ⟨bp, hbl, Heap.in_self hpos⟩
  refine ⟨⟨l.length + 1, fun f hf => ?_⟩, fun f h' hf => ?_⟩
  · rw [Heap.free, Option.isSome_map, Nat.add_sub_cancel]
    exact hs.list.search_isSome hs.rover hbase hbl hf
  · rw [Heap.free, Nat.add_sub_cancel] at hf
    obtain ⟨p, hp, rfl⟩ := Option.map_eq_some_iff.1 hf
    have hlt : ∀ b ∈ bp :: l, h.fin b < 2 ^ 32 := by
      intro b hb
      rcases mem_cons.1 hb with rfl | hb
      · exact hfin.trans_lt hs.lt
      · exact (hs.fin_le_brk hb).trans_lt hs.lt
    have hbrk := Heap.join_brk h bp p
    obtain ⟨l', hl', hpl', hcov, hhdr⟩ := hs.list.join (hs.list.search_mem hs.rover hp)
      (search_between hp) hbase hpos hno hlt
    generalize (h.joinUpper bp p).joinLower bp p = h₁ at *
    have hl₁ : FreeList base { h₁ with freep := p } l' := hl'.congr fun _ _ => rfl
    refine ⟨l', ⟨hl₁, hpl', fun a ha => ?_, hs.pos, ?_, ?_⟩, hcov, hhdr, hbrk.1, hbrk.2⟩
    · show a < h₁.brk
      rw [hbrk.1]
      rcases (hcov a).1 ha with ha | ha
      · exact hs.below a ha
      · exact ha.2.trans_le hfin
    · show base + unit ≤ h₁.brk
      rw [hbrk.1]
      exact hs.low
    · show h₁.brk < 2 ^ 32
      rw [hbrk.1]
      exact hs.lt

end Sound

/-- **The heap has grown** by a region above all memory there was, with
room for `n` units. -/
structure Grown (base : ℕ) (h : Heap) (l : List ℕ) (n : ℕ) (h' : Heap) (l' : List ℕ) : Prop where
  sound : Sound base h' l'
  room : ∃ q ∈ base :: l', n ≤ (h'.hdr q).size
  hdr : ∀ c, c ∉ base :: l → c < h.brk → h'.hdr c = h.hdr c
  region : ∃ start len, h'.regions = h.regions ++ [(start, len)] ∧ h.brk ≤ start ∧
    start + len = h'.brk ∧ ∀ a, h'.Covers l' a ↔ h.Covers l a ∨ (start ≤ a ∧ a < start + len)

/-- Bytes in a row are in one block, as blocks do not touch. -/
theorem FreeList.exists_block (hl : FreeList base h l) (start : ℕ) (hn : 0 < n)
    (hcov : ∀ a, start ≤ a → a < start + unit * n → h.Covers l a) :
    ∃ q ∈ l, n ≤ (h.hdr q).size := by
  obtain ⟨q, hq, hin⟩ := hcov start le_rfl (by simp only [unit]; omega)
  refine ⟨q, hq, ?_⟩
  by_contra hlt
  -- the byte past the end of the block is in no block
  have hend : h.fin q < start + unit * n := by
    simp only [Heap.In, Heap.fin, unit] at hin ⊢
    omega
  obtain ⟨c, hc, hcin⟩ := hcov (h.fin q) (by simp only [Heap.In] at hin; omega) hend
  have hpair := (pairwise_cons.1 hl.apart).2
  have hno : ∀ {x y}, h.fin x < y → y ≤ h.fin y := fun _ => Nat.le_add_right ..
  obtain ⟨l₁, l₂, rfl⟩ := append_of_mem hq
  obtain ⟨-, h2, h3⟩ := pairwise_append.1 hpair
  simp only [Heap.In] at hcin
  rcases mem_append.1 hc with hc | hc
  · have := h3 c hc q mem_cons_self
    have := hno this
    omega
  · rcases mem_cons.1 hc with rfl | hc
    · omega
    · have := (pairwise_cons.1 h2).1 c hc
      omega

theorem Grown.mono {nu : ℕ} (hg : Grown base h l nu h' l') (hn : n ≤ nu) : Grown base h l n h' l' :=
  ⟨hg.sound, hg.room.imp fun _ hq => ⟨hq.1, hn.trans hq.2⟩, hg.hdr, hg.region⟩

/-- **A new region**, made a block and freed. -/
theorem Sound.grow {start nu : ℕ} (hs : Sound base h l) (hstart : h.brk ≤ start) (hnu : 0 < nu)
    (hfit : start + nu * unit < 2 ^ 32) (h₁ : Heap) (hsame : h₁.hdr = h.hdr ∧ h₁.freep = h.freep)
    (hbrk₁ : h₁.brk = start + nu * unit) (hreg₁ : h₁.regions = h.regions ++ [(start, nu * unit)]) :
    (∃ k, ∀ f, k ≤ f → ((h₁.setSize start nu).free f (start + unit)).isSome) ∧
      ∀ f h', (h₁.setSize start nu).free f (start + unit) = some h' →
        h'.freep ≠ 0 ∧ ∃ l', Grown base h l nu h' l' := by
  -- the new block, before it is freed
  have hself : ((h₁.setSize start nu).hdr start).size = nu := by
    rw [Heap.setSize_hdr]
    refine Nat.mod_eq_of_lt ?_
    simp only [unit] at hfit
    omega
  have hfin : (h₁.setSize start nu).fin start = start + nu * unit := by
    rw [Heap.fin, hself, Nat.mul_comm]
  have hlow := hs.low
  have hbl : ∀ c ∈ base :: l, c ≠ start := by
    intro c hc
    rcases mem_cons.1 hc with rfl | hc
    · simp only [unit] at hlow
      omega
    · have hpos := hs.list.pos c hc
      have := hs.fin_le_brk hc
      simp only [Heap.fin, unit] at this
      omega
  have hhdr₁ : ∀ c, c ≠ start → (h₁.setSize start nu).hdr c = h.hdr c := by
    intro c hc
    rw [Heap.setSize_hdr_of_ne hc, hsame.1]
  have hcov₁ : ∀ a, (h₁.setSize start nu).Covers l a ↔ h.Covers l a := fun a =>
    Heap.covers_congr fun c hc => hhdr₁ c (hbl c (mem_cons_of_mem _ hc))
  have hbrk₂ : (h₁.setSize start nu).brk = start + nu * unit := hbrk₁
  have hs₁ : Sound base (h₁.setSize start nu) l := by
    refine ⟨hs.list.congr fun c hc => hhdr₁ c (hbl c hc), ?_, fun a ha => ?_, hs.pos, ?_, ?_⟩
    · have hrover := hs.rover
      rwa [← hsame.2] at hrover
    · have := hs.below a ((hcov₁ a).1 ha)
      omega
    · omega
    · rwa [hbrk₂]
  have hbase : base < start := by
    simp only [unit] at hlow
    omega
  have hno : ∀ a, (h₁.setSize start nu).In start a → ¬ (h₁.setSize start nu).Covers l a := by
    intro a ha hc
    have := hs.below a ((hcov₁ a).1 hc)
    have := ha.1
    omega
  obtain ⟨hk, hpost⟩ := hs₁.free hbase (by rw [hself]; exact hnu) hno (by rw [hfin, hbrk₂])
  refine ⟨hk, fun f h' hf => ?_⟩
  obtain ⟨l', hs', hcov, hhdr, hbrk, hreg⟩ := hpost f h' hf
  have hcov' : ∀ a, h'.Covers l' a ↔ h.Covers l a ∨ (start ≤ a ∧ a < start + nu * unit) := by
    intro a
    rw [hcov, hcov₁, Heap.In, hfin]
  refine ⟨?_, l', hs', ?_, fun c hc hcb => ?_, start, nu * unit, hreg.trans hreg₁, hstart,
    (hbrk.trans hbrk₁).symm, hcov'⟩
  · have hpos := hs'.pos
    rcases mem_cons.1 hs'.rover with h0 | h0
    · omega
    · have := hs'.list.base_lt h0
      omega
  · obtain ⟨q, hq, hle⟩ := hs'.list.exists_block start hnu fun a h1 h2 =>
      (hcov' a).2 (.inr ⟨h1, by rwa [Nat.mul_comm]⟩)
    exact ⟨q, mem_cons_of_mem _ hq, hle⟩
  · rw [hhdr c hc (by omega), hhdr₁ c (by omega)]

theorem morecore_run (h : Heap) (k n : ℕ) : (morecore Heap.sbrk h k n).run =
    match h.sbrk ((if n < 4096 then 4096 else n) * unit) with
    | (none, h) => some (0, h)
    | (some p, h) => ((h.setSize p (if n < 4096 then 4096 else n)).free k (p + unit)).map
        fun h => (h.freep, h) := by
  simp only [morecore, Id.run, bind, pure]
  generalize h.sbrk _ = x
  rcases x with ⟨_ | _, _⟩ <;> rfl

theorem morecore_mono {k k' : ℕ} {x : ℕ × Heap} (hk : (morecore Heap.sbrk h k n).run = some x)
    (hle : k ≤ k') : (morecore Heap.sbrk h k' n).run = some x := by
  rw [morecore_run] at hk ⊢
  split at hk
  · exact hk
  · obtain ⟨h', hfree, rfl⟩ := Option.map_eq_some_iff.1 hk
    exact Option.map_eq_some_iff.2 ⟨h', free_mono hfree hle, rfl⟩

/-- **`morecore`** returns 0 and has only asked `sbrk`, or the heap has
grown. -/
theorem morecore_spec (hs : Sound base h l) (hn : 0 < n) :
    (∃ k, ∀ f, k ≤ f → (morecore Heap.sbrk h f n).run.isSome) ∧
      ∀ f p h', (morecore Heap.sbrk h f n).run = some (p, h') →
        (p = 0 ∧ h' = { h with answers := h.answers.tail }) ∨
        (p ≠ 0 ∧ p = h'.freep ∧ ∃ l', Grown base h l n h' l') := by
  simp only [morecore_run]
  generalize hnu : (if n < 4096 then 4096 else n) = nu
  have hnu' : n ≤ nu ∧ 0 < nu := by
    subst hnu
    split <;> omega
  split
  · rename_i h₁ hsb
    have hh₁ : h₁ = { h with answers := h.answers.tail } := by
      simp only [Heap.sbrk] at hsb
      split at hsb
      · cases hsb; rfl
      · split at hsb <;> cases hsb
        rfl
    refine ⟨⟨0, fun f _ => rfl⟩, fun f p h' hf => .inl ?_⟩
    cases hf
    exact ⟨rfl, hh₁⟩
  · rename_i start h₁ hsb
    obtain ⟨hstart, hfit, hh₁⟩ : h.brk ≤ start ∧ start + nu * unit < 2 ^ 32 ∧ h₁ = { h with
        answers := h.answers.tail
        brk := start + nu * unit
        regions := h.regions ++ [(start, nu * unit)] } := by
      simp only [Heap.sbrk] at hsb
      split at hsb
      · cases hsb
      · split at hsb <;> cases hsb
        exact ⟨Nat.le_add_right .., ‹_›, rfl⟩
    obtain ⟨⟨k, hk⟩, hpost⟩ := hs.grow hstart hnu'.2 hfit h₁
      (by rw [hh₁]; exact ⟨rfl, rfl⟩) (by rw [hh₁]) (by rw [hh₁])
    refine ⟨⟨k, fun f hf => ?_⟩, fun f p h' hf => .inr ?_⟩
    · rw [Option.isSome_map]
      exact hk f hf
    · obtain ⟨h'', hfree, heq⟩ := Option.map_eq_some_iff.1 hf
      cases heq
      obtain ⟨h0, l', hg⟩ := hpost f _ hfree
      exact ⟨h0, rfl, l', hg.mono hnu'.1⟩

end Umalloc

end Xv6
