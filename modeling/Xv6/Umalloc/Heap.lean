import Xv6.Umalloc.Alloc
/-!
# The heap over a whole run

The blocks the program has and the blocks of the free list share the
memory that `sbrk` has returned: every byte of it is in exactly one of
them. `malloc` moves a block out of the list, or adds a region to it first;
`free` moves one back. Both return: their loops go round the list.
-/

namespace Xv6

open Common Function List

namespace Umalloc

variable {base : ℕ} {h h' : Heap} {live : List (ℕ × ℕ)} {l l' : List ℕ} {a b bp p n nbytes : ℕ}

/-- **What holds between calls**, once the list is there. The blocks of the
list are in a circle in address order, with room between any two
(`Sound.list`); the program's blocks are as large as it asked for; and
every byte of the regions is in exactly one block. -/
structure Tiled (base : ℕ) (h : Heap) (live : List (ℕ × ℕ)) (l : List ℕ) : Prop where
  sound : Sound base h l
  nodup : (live.map Prod.fst).Nodup
  room : ∀ b ∈ live, b.2 + unit ≤ unit * (h.hdr b.1).size
  apart : ∀ b ∈ live.map Prod.fst, ∀ c ∈ live.map Prod.fst, b ≠ c → ∀ a, h.In b a → ¬ h.In c a
  free : ∀ b ∈ live.map Prod.fst, ∀ a, h.In b a → ¬ h.Covers l a
  all : ∀ a, (∃ r ∈ h.regions, r.1 ≤ a ∧ a < r.1 + r.2) ↔
    h.Covers l a ∨ h.Covers (live.map Prod.fst) a
  top : ∀ r ∈ h.regions, base + unit ≤ r.1 ∧ r.1 + r.2 ≤ h.brk

namespace Tiled

section

variable (ht : Tiled base h live l)
include ht

section

variable (hb : b ∈ live.map Prod.fst)
include hb

theorem pos : 0 < (h.hdr b).size := by
  obtain ⟨c, hc, rfl⟩ := mem_map.1 hb
  have := ht.room c hc
  simp only [unit] at this
  omega

/-- A block of the program is in the memory above `base`. -/
theorem bounds (ha : h.In b a) : base + unit ≤ a ∧ a < h.brk := by
  obtain ⟨r, hr, h1, h2⟩ := (ht.all a).2 (.inr ⟨b, hb, ha⟩)
  have := ht.top r hr
  omega

theorem not_mem : b ∉ base :: l := by
  have hself := Heap.in_self (ht.pos hb)
  intro hbl
  rcases mem_cons.1 hbl with rfl | hbl
  · have := (ht.bounds hb hself).1
    simp only [unit] at this
    omega
  · exact ht.free b hb b hself ⟨b, hbl, hself⟩

theorem fin_le_brk : h.fin b ≤ h.brk := by
  have hpos := ht.pos hb
  have := (ht.bounds hb (a := h.fin b - 1) (by
    simp only [Heap.In, Heap.fin, unit]
    omega)).2
  simp only [Heap.fin, unit] at *
  omega

end

/-- The blocks of the program keep their headers in a change that leaves
the memory outside the list alone. -/
theorem covers_live (hhdr : ∀ c, c ∉ base :: l → c < h.brk → h'.hdr c = h.hdr c) :
    ∀ b ∈ live.map Prod.fst, h'.hdr b = h.hdr b := fun b hb =>
  hhdr b (ht.not_mem hb) (ht.bounds hb (Heap.in_self (ht.pos hb))).2

/-- **The heap grows.** -/
theorem grown (hg : Grown base h l n h' l') : Tiled base h' live l' := by
  obtain ⟨start, len, hreg, hstart, hend, hcov⟩ := hg.region
  have hlive := ht.covers_live hg.hdr
  have hin : ∀ b ∈ live.map Prod.fst, ∀ a, h'.In b a ↔ h.In b a := fun b hb a =>
    Heap.in_congr (hlive b hb)
  refine ⟨hg.sound, ht.nodup, fun b hb => ?_, fun b hb c hc hne a ha hca => ?_,
    fun b hb a ha hc => ?_, fun a => ?_, fun r hr => ?_⟩
  · rw [hlive b.1 (mem_map_of_mem hb)]
    exact ht.room b hb
  · exact ht.apart b hb c hc hne a ((hin b hb a).1 ha) ((hin c hc a).1 hca)
  · have ha := (hin b hb a).1 ha
    rcases (hcov a).1 hc with hc | hc
    · exact ht.free b hb a ha hc
    · have := (ht.bounds hb ha).2
      omega
  · rw [hcov, Heap.covers_congr hlive, hreg, or_right_comm, ← ht.all]
    simp only [mem_append, mem_singleton, or_and_right, exists_or, exists_eq_left]
  · rw [hreg] at hr
    rcases mem_append.1 hr with hr | hr
    · have := ht.top r hr
      omega
    · rw [mem_singleton] at hr
      subst hr
      have := ht.sound.low
      omega

/-- **A block is handed out.** -/
theorem taken (hk : Taken base h l n b h' l')
    (hn : nbytes + unit ≤ unit * n) : Tiled base h' ((b, nbytes) :: live) l' := by
  have hb : b ∉ live.map Prod.fst := fun hb =>
    ht.free b hb b (Heap.in_self (ht.pos hb)) hk.mem
  have hlive : ∀ c ∈ live.map Prod.fst, h'.hdr c = h.hdr c := fun c hc =>
    hk.hdr c (ht.not_mem hc) fun heq => hb (heq ▸ hc)
  have hin : ∀ c ∈ live.map Prod.fst, ∀ a, h'.In c a ↔ h.In c a := fun c hc a =>
    Heap.in_congr (hlive c hc)
  -- the new block is apart from the old ones
  have hnew : ∀ c ∈ live.map Prod.fst, ∀ a, h'.In b a → ¬ h'.In c a := fun c hc a hba hca =>
    ht.free c hc a ((hin c hc a).1 hca) ((hk.covers a).2 (.inr hba))
  refine ⟨⟨hk.list, hk.rover, fun a ha => ?_, ht.sound.pos, ?_, ?_⟩, ?_, ?_, ?_, ?_,
    fun a => ?_, ?_⟩
  · rw [hk.brk]
    exact ht.sound.below a ((hk.covers a).2 (.inl ha))
  · rw [hk.brk]
    exact ht.sound.low
  · rw [hk.brk]
    exact ht.sound.lt
  · rw [map_cons]
    exact nodup_cons.2 ⟨hb, ht.nodup⟩
  · intro c hc
    rcases mem_cons.1 hc with rfl | hc
    · rw [hk.size]
      exact hn
    · rw [hlive c.1 (mem_map_of_mem hc)]
      exact ht.room c hc
  · intro c hc d hd hne a hca hda
    rw [map_cons, mem_cons] at hc hd
    rcases hc with rfl | hc
    · exact hnew d (hd.resolve_left fun h => hne h.symm) a hca hda
    · rcases hd with rfl | hd
      · exact hnew c hc a hda hca
      · exact ht.apart c hc d hd hne a ((hin c hc a).1 hca) ((hin d hd a).1 hda)
  · intro c hc a hca hl
    rcases mem_cons.1 hc with rfl | hc
    · exact hk.apart a hca hl
    · exact ht.free c hc a ((hin c hc a).1 hca) ((hk.covers a).2 (.inl hl))
  · rw [map_cons, Heap.covers_cons, hk.regions, ht.all, hk.covers, Heap.covers_congr hlive,
      or_assoc]
  · rw [hk.regions, hk.brk]
    exact ht.top

/-- **A block is freed.** -/
theorem freed (hb : bp ∈ live.map Prod.fst) (hs : Sound base h' l')
    (hcov : ∀ a, h'.Covers l' a ↔ h.Covers l a ∨ h.In bp a)
    (hhdr : ∀ c, c ∉ base :: l → c ≠ bp → h'.hdr c = h.hdr c) (hbrk : h'.brk = h.brk)
    (hreg : h'.regions = h.regions) :
    Tiled base h' (live.filter fun b => b.1 ≠ bp) l' := by
  have hmem : ∀ c, c ∈ (live.filter fun b => b.1 ≠ bp).map Prod.fst ↔
      c ∈ live.map Prod.fst ∧ c ≠ bp := by
    intro c
    simp only [mem_map, mem_filter, decide_eq_true_eq]
    constructor
    · rintro ⟨x, ⟨hx, hne⟩, rfl⟩
      exact ⟨⟨x, hx, rfl⟩, hne⟩
    · rintro ⟨⟨x, hx, rfl⟩, hne⟩
      exact ⟨x, ⟨hx, hne⟩, rfl⟩
  have hlive : ∀ c ∈ live.map Prod.fst, c ≠ bp → h'.hdr c = h.hdr c := fun c hc hne =>
    hhdr c (ht.not_mem hc) hne
  have hin : ∀ c ∈ live.map Prod.fst, c ≠ bp → ∀ a, h'.In c a ↔ h.In c a := fun c hc hne a =>
    Heap.in_congr (hlive c hc hne)
  refine ⟨hs, ?_, ?_, ?_, ?_, fun a => ?_, ?_⟩
  · exact ht.nodup.sublist (filter_sublist.map Prod.fst)
  · intro c hc
    obtain ⟨hc, hne⟩ := mem_filter.1 hc
    rw [hlive c.1 (mem_map_of_mem hc) (by simpa using hne)]
    exact ht.room c hc
  · intro c hc d hd hne a hca hda
    obtain ⟨hc, hcb⟩ := (hmem c).1 hc
    obtain ⟨hd, hdb⟩ := (hmem d).1 hd
    exact ht.apart c hc d hd hne a ((hin c hc hcb a).1 hca) ((hin d hd hdb a).1 hda)
  · intro c hc a hca hl
    obtain ⟨hc, hcb⟩ := (hmem c).1 hc
    have hca := (hin c hc hcb a).1 hca
    rcases (hcov a).1 hl with hl | hl
    · exact ht.free c hc a hca hl
    · exact ht.apart c hc bp hb hcb a hca hl
  · rw [hreg, ht.all, hcov, or_assoc]
    refine or_congr_right ⟨?_, ?_⟩
    · rintro ⟨c, hc, hca⟩
      by_cases hcb : c = bp
      · exact .inl (hcb ▸ hca)
      · exact .inr ⟨c, (hmem c).2 ⟨hc, hcb⟩, (hin c hc hcb a).2 hca⟩
    · rintro (hba | ⟨c, hc, hca⟩)
      · exact ⟨bp, hb, hba⟩
      · obtain ⟨hc, hcb⟩ := (hmem c).1 hc
        exact ⟨c, hc, (hin c hc hcb a).1 hca⟩
  · rw [hreg, hbrk]
    exact ht.top

/-- Only the headers of the blocks matter. -/
theorem congr (hhdr : ∀ b, b ∈ base :: l ∨ b ∈ live.map Prod.fst → h'.hdr b = h.hdr b)
    (hfreep : h'.freep = h.freep) (hbrk : h'.brk = h.brk) (hreg : h'.regions = h.regions) :
    Tiled base h' live l := by
  have hlive : ∀ b ∈ live.map Prod.fst, h'.hdr b = h.hdr b := fun b hb => hhdr b (.inr hb)
  have hlist : ∀ b ∈ l, h'.hdr b = h.hdr b := fun b hb => hhdr b (.inl (mem_cons_of_mem _ hb))
  refine ⟨⟨ht.sound.list.congr fun b hb => hhdr b (.inl hb), hfreep ▸ ht.sound.rover,
    fun a ha => ?_, ht.sound.pos, hbrk ▸ ht.sound.low, hbrk ▸ ht.sound.lt⟩, ht.nodup, ?_, ?_, ?_,
    fun a => ?_, ?_⟩
  · rw [hbrk]
    exact ht.sound.below a ((Heap.covers_congr hlist).1 ha)
  · intro b hb
    rw [hlive b.1 (mem_map_of_mem hb)]
    exact ht.room b hb
  · intro b hb c hc hne a ha hca
    exact ht.apart b hb c hc hne a ((Heap.in_congr (hlive b hb)).1 ha)
      ((Heap.in_congr (hlive c hc)).1 hca)
  · intro b hb a ha hc
    exact ht.free b hb a ((Heap.in_congr (hlive b hb)).1 ha) ((Heap.covers_congr hlist).1 hc)
  · rw [hreg, ht.all, Heap.covers_congr hlist, Heap.covers_congr hlive]
  · rw [hreg, hbrk]
    exact ht.top

/-- The program writes to a block it has. -/
theorem write (hb : b ∈ live.map Prod.fst) (hlt : b < a)
    (hfin : a < h.fin b) (v : Header) : Tiled base { h with hdr := update h.hdr a v } live l := by
  refine ht.congr (fun c hc => update_of_ne ?_ ..) rfl rfl rfl
  -- no block begins inside another
  rintro rfl
  have hin : h.In b c := ⟨hlt.le, hfin⟩
  rcases hc with hc | hc
  · rcases mem_cons.1 hc with rfl | hc
    · have := (ht.bounds hb hin).1
      simp only [unit] at this
      omega
    · exact ht.free b hb c hin ⟨c, hc, Heap.in_self (ht.sound.list.pos c hc)⟩
  · exact ht.apart b hb c hc hlt.ne c hin (Heap.in_self (ht.pos hc))

end

end Tiled

/-! ## The loop of `malloc` -/

theorem units_room (hn : nbytes < 2 ^ 32) : nbytes + unit ≤ unit * Heap.units nbytes ∧
    0 < Heap.units nbytes := by
  simp only [Heap.units, unit]
  omega

theorem mallocLoop_run (h : Heap) (n f prevp p : ℕ) :
    (mallocLoop Heap.sbrk n (f + 1) prevp p h).run =
      if n ≤ (h.hdr p).size then some (h.take n prevp p)
      else if p = h.freep then
        match (morecore Heap.sbrk h f n).run with
        | none => none
        | some (p, h) =>
          if p = 0 then some (0, h) else (mallocLoop Heap.sbrk n f p (h.hdr p).ptr h).run
      else (mallocLoop Heap.sbrk n f p (h.hdr p).ptr h).run := by
  rw [mallocLoop]
  split_ifs
  · rfl
  · simp only [Id.run, bind, pure]
    generalize morecore Heap.sbrk h f n = x
    rcases x with _ | ⟨_ | _, _⟩ <;> rfl
  · rfl

/-- **What a call of `malloc` that returns has done**: it has only asked
`sbrk`, or a block has been handed out. -/
theorem mallocLoop_tiled {f r prevp : ℕ} (hn : 0 < n)
    (hroom : nbytes + unit ≤ unit * n) (ht : Tiled base h live l) (hprev : prevp ∈ base :: l)
    (hnext : h.next prevp = p) (hf : (mallocLoop Heap.sbrk n f prevp p h).run = some (r, h')) :
    (r = 0 ∧ ∃ l', Tiled base h' live l') ∨
      ∃ b l', r = b + unit ∧ Tiled base h' ((b, nbytes) :: live) l' := by
  induction f generalizing h l prevp p with
  | zero => cases hf
  | succ f ih =>
    rw [mallocLoop_run] at hf
    split at hf
    · rename_i hle
      have hp : p ∈ base :: l := hnext ▸ ht.sound.list.circle.next_mem hprev
      obtain ⟨b, l', hb, hk⟩ := ht.sound.list.take hprev hnext hn hle (ht.sound.size_lt hp)
      obtain ⟨hr, rfl⟩ := Prod.mk.inj (Option.some.inj hf)
      exact .inr ⟨b, l', hr.symm.trans hb, ht.taken hk hroom⟩
    · split at hf
      · cases hm : (morecore Heap.sbrk h f n).run with
        | none =>
          rw [hm] at hf
          cases hf
        | some x =>
          rw [hm] at hf
          rcases (morecore_spec ht.sound hn).2 f x.1 x.2 hm with ⟨h0, heq⟩ | ⟨h0, hp, l₁, hg⟩
          · simp only [h0, ↓reduceIte] at hf
            obtain ⟨hr, rfl⟩ := Prod.mk.inj (Option.some.inj hf)
            refine .inl ⟨hr.symm, l, ?_⟩
            rw [heq]
            exact ht.congr (fun _ _ => rfl) rfl rfl rfl
          · simp only [if_neg h0] at hf
            exact ih (ht.grown hg) (hp ▸ hg.sound.rover) rfl hf
      · exact ih ht (hnext ▸ ht.sound.list.circle.next_mem hprev) rfl hf

section

variable {m : Type → Type} [Monad m] {sbrk : Heap → ℕ → m (Option ℕ × Heap)}

/-- The loop passes by blocks that are too small, up to `freep`. -/
theorem mallocLoop_walk {k prevp : ℕ}
    (hno : ∀ j, j < k → ¬ n ≤ (h.hdr (h.next^[j] (h.next prevp))).size ∧
      h.next^[j] (h.next prevp) ≠ h.freep) (f : ℕ) :
    mallocLoop sbrk n (f + k) prevp (h.next prevp) h =
      mallocLoop sbrk n f (h.next^[k] prevp) (h.next^[k] (h.next prevp)) h := by
  induction k generalizing prevp with
  | zero => rfl
  | succ k ih =>
    have h0 : ¬ n ≤ (h.hdr (h.next prevp)).size ∧ h.next prevp ≠ h.freep := hno 0 (Nat.succ_pos k)
    rw [← Nat.add_assoc, mallocLoop, if_neg h0.1, if_neg h0.2]
    exact ih fun j hj => hno (j + 1) (Nat.succ_lt_succ hj)

/-- The first block on the way from `freep` that is large enough comes
before `freep`. -/
theorem Sound.exists_fit (hs : Sound base h l) (hex : ∃ q ∈ base :: l, n ≤ (h.hdr q).size) :
    ∃ k, n ≤ (h.hdr (h.next^[k] (h.next h.freep))).size ∧
      ∀ m, m < k → ¬ n ≤ (h.hdr (h.next^[m] (h.next h.freep))).size ∧
        h.next^[m] (h.next h.freep) ≠ h.freep := by
  obtain ⟨q, hq, hle⟩ := hex
  obtain ⟨k, -, hk, hfirst⟩ := hs.list.circle.exists_first (fun x => n ≤ (h.hdr x).size)
    (hs.list.circle.next_mem hs.rover) hq hle
  refine ⟨k, hk, fun m hm => ⟨hfirst m hm, fun heq => ?_⟩⟩
  refine hfirst (k - (m + 1)) (by omega) ?_
  have hadd : k = k - (m + 1) + 1 + m := by omega
  rw [hadd, Function.iterate_add_apply, heq, Function.iterate_succ_apply] at hk
  exact hk

/-- Without one, the way leads back to `freep`. -/
theorem Sound.exists_round (hs : Sound base h l) (hex : ¬ ∃ q ∈ base :: l, n ≤ (h.hdr q).size) :
    ∃ k, h.next^[k] (h.next h.freep) = h.freep ∧ ¬ n ≤ (h.hdr h.freep).size ∧
      ∀ m, m < k → ¬ n ≤ (h.hdr (h.next^[m] (h.next h.freep))).size ∧
        h.next^[m] (h.next h.freep) ≠ h.freep := by
  obtain ⟨k, -, hk, hfirst⟩ := hs.list.circle.exists_first (· = h.freep)
    (hs.list.circle.next_mem hs.rover) hs.rover rfl
  refine ⟨k, hk, fun hle => hex ⟨_, hs.rover, hle⟩, fun m hm => ⟨fun hle => hex ⟨_, ?_, hle⟩, hfirst m hm⟩⟩
  exact hs.list.circle.iterate_mem (hs.list.circle.next_mem hs.rover) m

variable (sbrk) in
/-- **With a block that is large enough, `malloc` does not ask for more.** -/
theorem mallocLoop_fit (ht : Tiled base h live l) (hn : 0 < n) (hroom : nbytes + unit ≤ unit * n)
    (hex : ∃ q ∈ base :: l, n ≤ (h.hdr q).size) :
    ∃ k, ∀ f, k ≤ f → ∃ b h' l', mallocLoop sbrk n f h.freep (h.next h.freep) h =
      pure (some (b + unit, h')) ∧ Tiled base h' ((b, nbytes) :: live) l' ∧ h'.brk = h.brk ∧
        h'.regions = h.regions := by
  have hcircle := ht.sound.list.circle
  obtain ⟨k, hk, hfirst⟩ := ht.sound.exists_fit hex
  refine ⟨k + 1, fun f hf => ?_⟩
  obtain ⟨f, rfl⟩ : ∃ j, f = j + 1 + k := ⟨f - (k + 1), by omega⟩
  have hprev := hcircle.iterate_mem ht.sound.rover k
  have hnext : h.next (h.next^[k] h.freep) = h.next^[k] (h.next h.freep) :=
    (Function.iterate_succ_apply' h.next k h.freep).symm
  obtain ⟨b, l', hb, htake⟩ := ht.sound.list.take hprev hnext hn hk
    (ht.sound.size_lt (hnext ▸ hcircle.next_mem hprev))
  refine ⟨b, _, l', ?_, ht.taken htake hroom, htake.brk, htake.regions⟩
  rw [mallocLoop_walk hfirst, mallocLoop, if_pos hk, ← hb]

end

/-- **The loop of `malloc` ends.** -/
theorem mallocLoop_isSome (ht : Tiled base h live l) (hn : 0 < n)
    (hroom : nbytes + unit ≤ unit * n) :
    ∃ k, ∀ f, k ≤ f → (mallocLoop Heap.sbrk n f h.freep (h.next h.freep) h).run.isSome := by
  have hfit : ∀ {h l}, Tiled base h live l → (∃ q ∈ base :: l, n ≤ (h.hdr q).size) →
      ∃ k, ∀ f, k ≤ f → (mallocLoop Heap.sbrk n f h.freep (h.next h.freep) h).run.isSome := by
    intro h l ht hex
    obtain ⟨k, hk⟩ := mallocLoop_fit Heap.sbrk ht hn hroom hex
    refine ⟨k, fun f hf => ?_⟩
    obtain ⟨b, h', l', hrun, -⟩ := hk f hf
    rw [hrun]
    rfl
  by_cases hex : ∃ q ∈ base :: l, n ≤ (h.hdr q).size
  · exact hfit ht hex
  -- once round the list, and then `morecore`
  obtain ⟨k, hk, hsmall, hfirst⟩ := ht.sound.exists_round hex
  obtain ⟨⟨k₁, hk₁⟩, hmore⟩ := morecore_spec ht.sound hn
  obtain ⟨x, hx⟩ := Option.isSome_iff_exists.1 (hk₁ k₁ le_rfl)
  -- from `freep` the loop goes on with what `morecore` returns
  have hround : ∀ f, k₁ ≤ f → (mallocLoop Heap.sbrk n (f + 1 + k) h.freep (h.next h.freep) h).run =
      if x.1 = 0 then some (0, x.2) else (mallocLoop Heap.sbrk n f x.1 (x.2.next x.1) x.2).run := by
    intro f hf
    rw [mallocLoop_walk hfirst, hk, mallocLoop_run, if_neg hsmall, if_pos rfl, morecore_mono hx hf]
    rfl
  rcases hmore k₁ x.1 x.2 hx with ⟨h0, -⟩ | ⟨h0, hp, l₁, hg⟩
  · refine ⟨k₁ + 1 + k, fun f hf => ?_⟩
    obtain ⟨f, rfl⟩ : ∃ m, f = m + 1 + k := ⟨f - (1 + k), by omega⟩
    rw [hround f (by omega), if_pos h0]
    rfl
  · obtain ⟨k₂, hk₂⟩ := hfit (ht.grown hg) hg.room
    refine ⟨k₁ + k₂ + 1 + k, fun f hf => ?_⟩
    obtain ⟨f, rfl⟩ : ∃ m, f = m + 1 + k := ⟨f - (1 + k), by omega⟩
    rw [hround f (by omega), if_neg h0, hp]
    exact hk₂ f (by omega)

/-! ## Runs -/

/-- Before the first `malloc` there is nothing; from then on the memory is
shared out. -/
def Inv (base : ℕ) (s : State) : Prop :=
  (s.heap.freep = 0 → s.live = [] ∧ s.heap.regions = []) ∧
    ∃ l, Tiled base (s.heap.start base) s.live l

theorem start_of_ne (h0 : h.freep ≠ 0) : h.start base = h := if_neg h0

theorem Tiled.freep_ne (ht : Tiled base h live l) : h.freep ≠ 0 := by
  have := ht.sound.pos
  rcases mem_cons.1 ht.sound.rover with h0 | h0
  · omega
  · have := ht.sound.list.base_lt h0
    omega

/-- The list of `base` alone. -/
theorem Init.inv {s : State} (hs : Init base s) : Inv base s := by
  have hstart : s.heap.start base =
      { (s.heap.setPtr base base).setSize base 0 with freep := base } := if_pos hs.freep
  have hhdr : (s.heap.start base).hdr base = ⟨base, 0⟩ := by
    rw [hstart]
    exact Heap.setSize_hdr.trans (by rw [Heap.setPtr_hdr]; rfl)
  have hfreep : (s.heap.start base).freep = base := by rw [hstart]
  have hbrk : (s.heap.start base).brk = s.heap.brk := by rw [hstart]; rfl
  have hreg : (s.heap.start base).regions = [] := by
    rw [hstart]
    exact hs.regions
  refine ⟨fun _ => ⟨hs.live, hs.regions⟩, [], ⟨⟨⟨rfl, ?_⟩, pairwise_singleton .., ?_, ?_⟩, ?_,
    ?_, hs.pos, ?_, ?_⟩, ?_, ?_, ?_, ?_, ?_, ?_⟩
  · exact congrArg Header.ptr hhdr
  · rw [hhdr]
  · intro b hb
    cases hb
  · rw [hfreep]
    exact mem_cons_self
  · intro a ha
    exact absurd ha Heap.covers_nil
  · rw [hbrk]
    exact hs.brk
  · rw [hbrk]
    exact hs.lt
  · rw [hs.live]
    exact nodup_nil
  iterate 3
    · intro b hb
      rw [hs.live] at hb
      cases hb
  · intro a
    rw [hreg, hs.live]
    constructor
    · rintro ⟨r, hr, -⟩
      cases hr
    · exact fun ha => ha.elim (absurd · Heap.covers_nil) (absurd · Heap.covers_nil)
  · intro r hr
    rw [hreg] at hr
    cases hr

namespace Inv

variable {s : State}

theorem freep_ne (hi : Inv base s) (hb : b ∈ s.live.map Prod.fst) : s.heap.freep ≠ 0 := by
  intro h0
  rw [(hi.1 h0).1] at hb
  cases hb

theorem tiled (hi : Inv base s) (h0 : s.heap.freep ≠ 0) : ∃ l, Tiled base s.heap s.live l := by
  have := hi.2
  rwa [start_of_ne h0] at this

theorem of_tiled (ht : Tiled base h live l) : Inv base ⟨h, live⟩ :=
  ⟨fun h0 => absurd h0 ht.freep_ne, l, by rwa [start_of_ne ht.freep_ne]⟩

/-- The answers of `sbrk` to come do not matter. -/
theorem answers (hi : Inv base s) (as : List (Option ℕ)) :
    ∃ l, Tiled base ({ s.heap with answers := as }.start base) s.live l := by
  obtain ⟨-, l, ht⟩ := hi
  have hstart : ({ s.heap with answers := as } : Heap).start base =
      { s.heap.start base with answers := as } := by
    simp only [Heap.start]
    split <;> rfl
  exact ⟨l, hstart ▸ ht.congr (fun _ _ => rfl) rfl rfl rfl⟩

theorem free (hi : Inv base s) (hb : bp ∈ s.live.map Prod.fst) :
    (∃ k, ∀ f, k ≤ f → (s.heap.free f (bp + unit)).isSome) ∧
      ∀ f h', s.heap.free f (bp + unit) = some h' → Inv base (s.freed (bp + unit) h') := by
  obtain ⟨l, ht⟩ := hi.tiled (hi.freep_ne hb)
  have hself := Heap.in_self (ht.pos hb)
  have hbase := (ht.bounds hb hself).1
  obtain ⟨hk, hpost⟩ := ht.sound.free (by simp only [unit] at hbase; omega) (ht.pos hb)
    (ht.free bp hb) (ht.fin_le_brk hb)
  refine ⟨hk, fun f h' hf => ?_⟩
  obtain ⟨l', hs', hcov, hhdr, hbrk, hreg⟩ := hpost f h' hf
  rw [State.freed, Nat.add_sub_cancel]
  exact of_tiled (ht.freed hb hs' hcov hhdr hbrk hreg)

theorem malloc (hi : Inv base s) (hn : nbytes < 2 ^ 32) (as : List (Option ℕ)) :
    (∃ k, ∀ f, k ≤ f → ({ s.heap with answers := as }.malloc base f nbytes).isSome) ∧
      ∀ f x, { s.heap with answers := as }.malloc base f nbytes = some x →
        Inv base (s.allocated nbytes x) := by
  obtain ⟨l, ht⟩ := hi.answers as
  obtain ⟨hroom, hpos⟩ := units_room hn
  refine ⟨mallocLoop_isSome ht hpos hroom, fun f x hf => ?_⟩
  rcases mallocLoop_tiled hpos hroom ht ht.sound.rover rfl hf with
    ⟨h0, l', ht'⟩ | ⟨b, l', hb, ht'⟩
  · rw [State.allocated, if_pos h0]
    exact of_tiled ht'
  · rw [State.allocated, if_neg (by simp only [hb, unit]; omega), hb, Nat.add_sub_cancel]
    exact of_tiled ht'

/-- **A step keeps the heap in order.** -/
theorem step (hi : Inv base s) {act : Act} (hen : act.Enabled base s) :
    Inv base (act.next base s) := by
  cases act with
  | malloc nbytes as f =>
    obtain ⟨hn, hsome⟩ := hen
    obtain ⟨x, hx⟩ := Option.isSome_iff_exists.1 hsome
    rw [Act.next, hx]
    exact (hi.malloc hn as).2 f x hx
  | free ap f =>
    obtain ⟨hap, hmem, hsome⟩ := hen
    obtain ⟨h', hx⟩ := Option.isSome_iff_exists.1 hsome
    obtain ⟨bp, rfl⟩ : ∃ bp, ap = bp + unit := ⟨ap - unit, by omega⟩
    rw [Nat.add_sub_cancel] at hmem
    rw [Act.next, hx]
    exact (hi.free hmem).2 f h' hx
  | write b a v =>
    obtain ⟨hb, hlt, hfin⟩ := hen
    obtain ⟨l, ht⟩ := hi.tiled (hi.freep_ne hb)
    exact of_tiled (ht.write hb hlt hfin v)

end Inv

/-- **The user heap allocator.** In every state of a program that frees
only pointers it has, each once: the free list is a circle in address
order whose blocks do not touch, the program's blocks are as large as it
asked for and overlap neither each other nor the free ones, and together
they are all the memory `sbrk` returned; and `malloc` and `free` return. -/
theorem heap_discipline {s : State} (hr : (system base).Reachable s) :
    ((s.heap.freep = 0 ∧ s.live = [] ∧ s.heap.regions = []) ∨ ∃ l, Tiled base s.heap s.live l) ∧
      (∀ nbytes as, nbytes < 2 ^ 32 →
        ∃ k, ∀ f, k ≤ f → ({ s.heap with answers := as }.malloc base f nbytes).isSome) ∧
      ∀ bp ∈ s.live.map Prod.fst, ∃ k, ∀ f, k ≤ f → (s.heap.free f (bp + unit)).isSome := by
  have hi : Inv base s :=
    hr.invariant (fun _ => Init.inv) fun _ _ _ _ hi hstep => hstep.2 ▸ hi.step hstep.1
  refine ⟨?_, fun nbytes as hn => (hi.malloc hn as).1, fun bp hb => (hi.free hb).1⟩
  by_cases h0 : s.heap.freep = 0
  · exact .inl ⟨h0, hi.1 h0⟩
  · exact .inr (hi.tiled h0)

/-- Three blocks from one region and the middle one freed; then a region
that does not touch the first, and a block that takes all of it. -/
theorem heap_discipline_four : ∃ s l, (system 4096).Reachable s ∧
    s.live = [(73808, 100000), (73232, 8), (73680, 24)] ∧
    s.heap.regions = [(8192, 65536), (73808, 100016)] ∧ Tiled 4096 s.heap s.live l := by
  have hinit : Init 4096 ⟨⟨fun _ => ⟨0, 0⟩, 0, 8192, [], []⟩, []⟩ :=
    ⟨rfl, rfl, rfl, by decide, by decide, by decide⟩
  obtain ⟨s, hs, hlive, hreg⟩ : ∃ s, (system 4096).Reachable s ∧
      s.live = [(73808, 100000), (73232, 8), (73680, 24)] ∧
      s.heap.regions = [(8192, 65536), (73808, 100016)] :=
    System.exists_of_follow hinit [.malloc 24 [some 0] 9, .malloc 400 [] 9, .malloc 8 [] 9,
      .free 73280 9, .malloc 100000 [none] 9, .malloc 100000 [some 80] 9] (by decide +kernel)
  rcases (heap_discipline hs).1 with ⟨-, hnil, -⟩ | ⟨l, ht⟩
  · rw [hlive] at hnil
    cases hnil
  · exact ⟨s, l, hs, hlive, hreg, ht⟩

end Umalloc

end Xv6
