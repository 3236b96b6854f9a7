import Xv6.Common.Circle
import Xv6.Umalloc.Model
import Mathlib.Order.Basic
/-!
# The free list

The blocks of the free list are in address order, with room between any
two of them, and the last leads back to `base`. The loop of `free` ends at
the block the freed one belongs behind; joining it to its neighbours adds
its bytes to the list and no others.
-/

namespace Xv6

open Common Function List

namespace Umalloc

variable {base : ℕ} {h h' : Heap} {l l₁ l₂ : List ℕ} {a b bp p q n : ℕ}

namespace Heap

/-- `p->s.ptr` -/
def next (h : Heap) (p : ℕ) : ℕ := (h.hdr p).ptr

/-- The byte at `a` is in the block at `b`. -/
def In (h : Heap) (b a : ℕ) : Prop := b ≤ a ∧ a < h.fin b

/-- The byte at `a` is in one of the blocks. -/
def Covers (h : Heap) (l : List ℕ) (a : ℕ) : Prop := ∃ b ∈ l, h.In b a

theorem covers_nil : ¬ h.Covers [] a := by
  rintro ⟨b, hb, -⟩
  cases hb

theorem covers_cons : h.Covers (b :: l) a ↔ h.In b a ∨ h.Covers l a := by
  simp only [Covers, mem_cons, exists_eq_or_imp]

theorem covers_append : h.Covers (l₁ ++ l₂) a ↔ h.Covers l₁ a ∨ h.Covers l₂ a := by
  simp only [Covers, mem_append, or_and_right, exists_or]

theorem fin_congr (hb : h'.hdr b = h.hdr b) : h'.fin b = h.fin b := by rw [fin, fin, hb]

theorem in_congr (hb : h'.hdr b = h.hdr b) : h'.In b a ↔ h.In b a := by rw [In, In, fin_congr hb]

theorem covers_congr (hl : ∀ b ∈ l, h'.hdr b = h.hdr b) : h'.Covers l a ↔ h.Covers l a :=
  exists_congr fun b => and_congr_right fun hb => in_congr (hl b hb)

/-- A block that is not empty has its own address in it. -/
theorem in_self (hb : 0 < (h.hdr b).size) : h.In b b := by
  refine ⟨le_rfl, ?_⟩
  simp only [fin, unit]
  omega

/-- Blocks without a common byte do not overlap. -/
theorem fin_le (hlt : b < q) (hno : ¬ h.In b q) : h.fin b ≤ q := by
  by_contra hle
  exact hno ⟨hlt.le, by omega⟩

theorem setPtr_hdr_of_ne (hb : b ≠ p) : (h.setPtr p q).hdr b = h.hdr b := update_of_ne hb ..

theorem setSize_hdr_of_ne (hb : b ≠ p) : (h.setSize p n).hdr b = h.hdr b := update_of_ne hb ..

@[simp] theorem setPtr_hdr : (h.setPtr p q).hdr p = { h.hdr p with ptr := q } := update_self ..

@[simp] theorem setSize_hdr : (h.setSize p n).hdr p = { h.hdr p with size := n % 2 ^ 32 } :=
  update_self ..

theorem setPtr_size (b : ℕ) : ((h.setPtr p q).hdr b).size = (h.hdr b).size := by
  by_cases hb : b = p
  · rw [hb, setPtr_hdr]
  · rw [setPtr_hdr_of_ne hb]

theorem setPtr_fin (b : ℕ) : (h.setPtr p q).fin b = h.fin b := by rw [fin, setPtr_size, fin]

end Heap

/-- **The free list**: the blocks of the list, after `base`. -/
structure FreeList (base : ℕ) (h : Heap) (l : List ℕ) : Prop where
  path : Path h.next base (base :: l) base
  apart : (base :: l).Pairwise fun a b => h.fin a < b
  empty : (h.hdr base).size = 0
  pos : ∀ b ∈ l, 0 < (h.hdr b).size

namespace FreeList

theorem circle (hl : FreeList base h l) : Circle h.next (base :: l) := ⟨base, hl.path⟩

theorem base_lt (hl : FreeList base h l) (hb : b ∈ l) : base < b := by
  have := (pairwise_cons.1 hl.apart).1 b hb
  simp only [Heap.fin] at this
  omega

/-- The list is that of another heap with the same headers. -/
theorem congr (hl : FreeList base h l) (hh : ∀ b ∈ base :: l, h'.hdr b = h.hdr b) :
    FreeList base h' l := by
  refine ⟨hl.path.congr fun b hb => ?_, hl.apart.imp_of_mem fun ha _ hab => ?_, ?_, fun b hb => ?_⟩
  · rw [Heap.next, Heap.next, hh b hb]
  · rwa [Heap.fin_congr (hh _ ha)]
  · rw [hh base mem_cons_self]
    exact hl.empty
  · rw [hh b (mem_cons_of_mem _ hb)]
    exact hl.pos b hb

end FreeList

/-! ## The loop of `free` -/

theorem search_eq (hs : h.Between bp (h.next^[n] p))
    (hn : ∀ m, m < n → ¬ h.Between bp (h.next^[m] p)) {k : ℕ} (hk : n < k) :
    h.search bp k p = some (h.next^[n] p) := by
  induction n generalizing p k with
  | zero =>
    obtain ⟨k, rfl⟩ : ∃ m, k = m + 1 := ⟨k - 1, by omega⟩
    rw [Heap.search]
    exact if_pos hs
  | succ n ih =>
    obtain ⟨k, rfl⟩ : ∃ m, k = m + 1 := ⟨k - 1, by omega⟩
    have h0 : ¬ h.Between bp p := hn 0 (Nat.succ_pos n)
    rw [Heap.search, if_neg h0]
    exact ih hs (fun m hm => hn (m + 1) (Nat.succ_lt_succ hm)) (by omega)

theorem search_between {k : ℕ} (hk : h.search bp k p = some q) : h.Between bp q := by
  induction k generalizing p with
  | zero => cases hk
  | succ k ih =>
    rw [Heap.search] at hk
    split at hk
    · rename_i hb
      cases hk
      exact hb
    · exact ih hk

/-- A larger bound changes nothing. -/
theorem search_mono {k k' : ℕ} (hk : h.search bp k p = some q) (hle : k ≤ k') :
    h.search bp k' p = some q := by
  induction k generalizing p k' with
  | zero => cases hk
  | succ k ih =>
    obtain ⟨k', rfl⟩ : ∃ m, k' = m + 1 := ⟨k' - 1, by omega⟩
    rw [Heap.search] at hk ⊢
    split at hk
    · rename_i hb
      rw [if_pos hb]
      exact hk
    · rename_i hb
      rw [if_neg hb]
      exact ih hk (by omega)

theorem free_mono {k k' ap : ℕ} (hk : h.free k ap = some h') (hle : k ≤ k') :
    h.free k' ap = some h' := by
  obtain ⟨p, hp, rfl⟩ := Option.map_eq_some_iff.1 hk
  exact Option.map_eq_some_iff.2 ⟨p, search_mono hp hle, rfl⟩

/-- The block the freed one belongs behind. -/
theorem exists_split (hl : l.Pairwise (· < ·)) (hb : bp ∉ l) (ha : a < bp) (hal : ∀ b ∈ l, a < b) :
    ∃ l₁ p l₂, a :: l = l₁ ++ p :: l₂ ∧ p < bp ∧ ∀ q ∈ l₂, bp < q := by
  induction l generalizing a with
  | nil => exact ⟨[], a, [], rfl, ha, fun q hq => by cases hq⟩
  | cons b l ih =>
    obtain ⟨hbl, hl⟩ := pairwise_cons.1 hl
    by_cases hlt : b < bp
    · obtain ⟨l₁, p, l₂, heq, hp, hq⟩ :=
        ih hl (fun h => hb (mem_cons_of_mem _ h)) hlt hbl
      exact ⟨a :: l₁, p, l₂, by rw [heq, cons_append], hp, hq⟩
    have hne : bp ≠ b := fun h => hb (h ▸ mem_cons_self)
    refine ⟨[], a, b :: l, rfl, ha, fun q hq => ?_⟩
    rcases mem_cons.1 hq with rfl | hq
    · omega
    · have := hbl q hq
      omega

namespace FreeList

section

variable (hl : FreeList base h l)
include hl

theorem sorted : (base :: l).Pairwise (· < ·) :=
  hl.apart.imp fun {a b} hab => by
    simp only [Heap.fin] at hab
    omega

/-- The list from a block on: it leads to the next, or back to `base`. -/
theorem next_eq (heq : base :: l = l₁ ++ p :: l₂) : h.next p = l₂.headD base := by
  have hp := hl.path
  rw [heq] at hp
  have := (Path.append_cons.1 hp).2
  cases l₂ with
  | nil => exact this
  | cons q l₂ => exact this.1

/-- **Where the loop ends**: between two blocks, or behind the last. -/
theorem between_iff (hbp : base < bp) (heq : base :: l = l₁ ++ p :: l₂) :
    h.Between bp p ↔ p < bp ∧ ∀ q ∈ l₂, bp < q := by
  have hs := hl.sorted
  have hnext := hl.next_eq heq
  rw [heq] at hs
  obtain ⟨-, hs, -⟩ := pairwise_append.1 hs
  obtain ⟨hp, hs⟩ := pairwise_cons.1 hs
  have hbase : base ≤ p := by
    have hmem : p ∈ base :: l := by
      rw [heq]
      simp
    rcases mem_cons.1 hmem with rfl | hmem
    · exact le_rfl
    · exact (hl.base_lt hmem).le
  cases l₂ with
  | nil =>
    simp only [Heap.Between, Heap.next, headD_nil, not_mem_nil, false_implies,
      implies_true, and_true] at hnext ⊢
    rw [hnext]
    omega
  | cons q l₂ =>
    have hpq : p < q := hp q mem_cons_self
    simp only [Heap.Between, Heap.next, headD_cons] at hnext ⊢
    rw [hnext]
    constructor
    · intro hb
      refine ⟨by omega, fun c hc => ?_⟩
      rcases mem_cons.1 hc with rfl | hc
      · omega
      · have := (pairwise_cons.1 hs).1 c hc
        omega
    · rintro ⟨h1, h2⟩
      exact .inl ⟨h1, h2 q mem_cons_self⟩

/-- **The loop of `free` ends.** -/
theorem search_isSome (hp : p ∈ base :: l) (hbp : base < bp)
    (hb : bp ∉ l) {k : ℕ} (hk : l.length < k) : (h.search bp k p).isSome := by
  have hs := pairwise_cons.1 hl.sorted
  obtain ⟨l₁, q, l₂, heq, hq, hl₂⟩ := exists_split hs.2 hb hbp fun b hb => hl.base_lt hb
  have hq' : q ∈ base :: l := by
    rw [heq]
    simp
  obtain ⟨n, hn, h1, h2⟩ := hl.circle.exists_first (h.Between bp) hp hq'
    ((hl.between_iff hbp heq).2 ⟨hq, hl₂⟩)
  rw [search_eq h1 h2 (by rw [length_cons] at hn; omega)]
  rfl

theorem search_mem (hp : p ∈ base :: l) {k : ℕ}
    (hk : h.search bp k p = some q) : q ∈ base :: l := by
  induction k generalizing p with
  | zero => cases hk
  | succ k ih =>
    rw [Heap.search] at hk
    split at hk
    · cases hk
      exact hp
    · exact ih (hl.circle.next_mem hp) hk

/-! ## Changing the list behind a block -/

/-- `base` holds no bytes. -/
theorem covers_base : h.Covers (base :: l) a ↔ h.Covers l a := by
  have hb : ¬ h.In base a := by
    simp only [Heap.In, Heap.fin, hl.empty, unit]
    omega
  rw [Heap.covers_cons, or_iff_right hb]

/-- `base` is the block that holds no bytes. -/
theorem size_eq_zero (hp : p ∈ base :: l) : (h.hdr p).size = 0 ↔ p = base := by
  rcases mem_cons.1 hp with rfl | hp
  · exact iff_of_true hl.empty rfl
  · exact iff_of_false (hl.pos p hp).ne' (hl.base_lt hp).ne'

end

end FreeList

/-- **The blocks of the list from `q` on.** -/
structure Tail (base : ℕ) (h : Heap) (q : ℕ) (t : List ℕ) : Prop where
  path : Path h.next q t base
  apart : t.Pairwise fun a b => h.fin a < b
  pos : ∀ b ∈ t, 0 < (h.hdr b).size

namespace Tail

theorem congr (ht : Tail base h q l) (hh : ∀ b ∈ l, h'.hdr b = h.hdr b) : Tail base h' q l := by
  refine ⟨ht.path.congr fun b hb => ?_, ht.apart.imp_of_mem fun ha _ hab => ?_, fun b hb => ?_⟩
  · rw [Heap.next, Heap.next, hh b hb]
  · rwa [Heap.fin_congr (hh _ ha)]
  · rw [hh b hb]
    exact ht.pos b hb

theorem cons (ht : Tail base h (h.next b) l) (hlt : ∀ c ∈ l, h.fin b < c)
    (hpos : 0 < (h.hdr b).size) : Tail base h b (b :: l) :=
  ⟨⟨rfl, ht.path⟩, pairwise_cons.2 ⟨hlt, ht.apart⟩, forall_mem_cons.2 ⟨hpos, ht.pos⟩⟩

theorem of_cons (ht : Tail base h q (b :: l)) : Tail base h (h.next b) l ∧ ∀ c ∈ l, h.fin b < c := by
  obtain ⟨hlt, hapart⟩ := pairwise_cons.1 ht.apart
  exact ⟨⟨ht.path.2, hapart, fun c hc => ht.pos c (mem_cons_of_mem _ hc)⟩, hlt⟩

end Tail

namespace FreeList

/-- The list behind a block. -/
theorem tail (hl : FreeList base h l) (heq : base :: l = l₁ ++ p :: l₂) :
    Tail base h (h.next p) l₂ ∧ ∀ c ∈ l₂, h.fin p < c := by
  have hpath := hl.path
  have hapart := hl.apart
  have hsorted := hl.sorted
  rw [heq] at hpath hapart hsorted
  obtain ⟨hlt, hapart⟩ := pairwise_cons.1 (pairwise_append.1 hapart).2.1
  refine ⟨⟨(Path.append_cons.1 hpath).2, hapart, fun c hc => hl.pos c ?_⟩, hlt⟩
  have hmem : ∀ c ∈ l₁ ++ p :: l₂, c = base ∨ c ∈ l := fun c hc => mem_cons.1 (heq ▸ hc)
  refine (hmem c (by simp [hc])).resolve_left ?_
  have := (pairwise_cons.1 (pairwise_append.1 hsorted).2.1).1 c hc
  rcases hmem p (by simp) with rfl | hp
  · omega
  · have := hl.base_lt hp
    omega

/-- **The list behind the block `p` is replaced.** -/
theorem replace (hl : FreeList base h l) (heq : base :: l = l₁ ++ p :: l₂) {t : List ℕ}
    (hhdr : ∀ c ∈ l₁, h'.hdr c = h.hdr c) (ht : Tail base h' (h'.next p) t)
    (hlt : ∀ c ∈ t, h'.fin p < c) (hp : (h'.hdr p).size = 0 ↔ p = base) :
    ∃ l', base :: l' = l₁ ++ p :: t ∧ FreeList base h' l' ∧
      ∀ a, h'.Covers l' a ↔ h.Covers l₁ a ∨ h'.In p a ∨ h'.Covers t a := by
  have hfl : ∃ l', base :: l' = l₁ ++ p :: t ∧ FreeList base h' l' := by
    cases l₁ with
    | nil =>
      obtain ⟨rfl, rfl⟩ := List.cons.inj heq
      exact ⟨t, rfl, ⟨rfl, ht.path⟩, pairwise_cons.2 ⟨hlt, ht.apart⟩, hp.2 rfl, ht.pos⟩
    | cons c k =>
      obtain ⟨rfl, hlk⟩ := List.cons.inj heq
      have hne : p ≠ base := (hl.base_lt (by rw [hlk]; simp)).ne'
      have hpt := ht.cons hlt (Nat.pos_of_ne_zero fun h0 => hne (hp.1 h0))
      have hpath := hl.path
      have hapart := hl.apart
      rw [heq] at hpath hapart
      obtain ⟨hk, -, hkp⟩ := pairwise_append.1 hapart
      refine ⟨k ++ p :: t, rfl, ?_, ?_, ?_, fun b hb => ?_⟩
      · rw [← cons_append, Path.append_cons]
        refine ⟨(Path.append_cons.1 hpath).1.congr fun b hb => ?_, ht.path⟩
        rw [Heap.next, Heap.next, hhdr b hb]
      · rw [← cons_append, pairwise_append]
        refine ⟨hk.imp_of_mem fun ha _ hab => ?_, hpt.apart, fun a ha b hb => ?_⟩
        · rwa [Heap.fin_congr (hhdr _ ha)]
        · rw [Heap.fin_congr (hhdr a ha)]
          have hap := hkp a ha p mem_cons_self
          rcases mem_cons.1 hb with rfl | hb
          · exact hap
          · have hpb := hlt b hb
            simp only [Heap.fin] at hap hpb ⊢
            omega
      · rw [hhdr base mem_cons_self]
        exact hl.empty
      · rcases mem_append.1 hb with hb | hb
        · rw [hhdr b (mem_cons_of_mem _ hb)]
          refine hl.pos b ?_
          rw [hlk]
          exact mem_append_left _ hb
        · exact hpt.pos b hb
  obtain ⟨l', hl', hfl⟩ := hfl
  refine ⟨l', hl', hfl, fun a => ?_⟩
  rw [← hfl.covers_base, hl', Heap.covers_append, Heap.covers_cons, Heap.covers_congr hhdr]

end FreeList

/-! ## Joining a block to its neighbours -/

/-- The block `b` has taken in the block behind it. -/
structure Absorbs (h h' : Heap) (b : ℕ) : Prop where
  other : ∀ c, c ≠ b → h'.hdr c = h.hdr c
  next : h'.next b = h.next (h.fin b)
  size : (h'.hdr b).size = (h.hdr b).size + (h.hdr (h.fin b)).size
  fin : h'.fin b = h.fin (h.fin b)
  in_iff : ∀ a, h'.In b a ↔ h.In b a ∨ h.In (h.fin b) a

theorem absorb (hlt : h.fin (h.fin b) < 2 ^ 32) :
    Absorbs h ((h.setSize b ((h.hdr b).size + (h.hdr (h.fin b)).size)).setPtr b
      (h.hdr (h.fin b)).ptr) b := by
  generalize hj : Heap.setPtr _ _ _ = h'
  have hself : h'.hdr b = ⟨h.next (h.fin b), (h.hdr b).size + (h.hdr (h.fin b)).size⟩ := by
    rw [← hj, Heap.setPtr_hdr, Heap.setSize_hdr, Nat.mod_eq_of_lt]
    · rfl
    · simp only [Heap.fin, unit] at hlt ⊢
      omega
  have hfin : h'.fin b = h.fin (h.fin b) := by
    simp only [Heap.fin, hself, unit]
    omega
  refine ⟨fun c hc => ?_, by rw [Heap.next, hself], by rw [hself], hfin, fun a => ?_⟩
  · rw [← hj, Heap.setPtr_hdr_of_ne hc, Heap.setSize_hdr_of_ne hc]
  · have h1 : b ≤ h.fin b := Nat.le_add_right ..
    have h2 : h.fin b ≤ h.fin (h.fin b) := Nat.le_add_right ..
    rw [Heap.In, hfin, Heap.In, Heap.In]
    omega

/-- **The upper neighbour is taken in**, if it touches the block. -/
theorem joinUpper_spec (ht : Tail base h (h.next p) l₂) (hge : ∀ q ∈ l₂, h.fin bp ≤ q)
    (hbase : base < bp) (hpos : 0 < (h.hdr bp).size) (hlt : ∀ b ∈ bp :: l₂, h.fin b < 2 ^ 32) :
    ∃ t, Tail base (h.joinUpper bp p) bp (bp :: t) ∧ (h.joinUpper bp p).fin bp < 2 ^ 32 ∧
      (∀ c, c ≠ bp → (h.joinUpper bp p).hdr c = h.hdr c) ∧
      ∀ a, (h.joinUpper bp p).Covers (bp :: t) a ↔ h.Covers (bp :: l₂) a := by
  have hfin : bp < h.fin bp := by
    simp only [Heap.fin, unit]
    omega
  have hne : ∀ c ∈ l₂, c ≠ bp := fun c hc => (hfin.trans_le (hge c hc)).ne'
  by_cases htouch : h.fin bp = (h.hdr p).ptr
  · have hnext : h.next p = h.fin bp := htouch.symm
    cases l₂ with
    | nil =>
      have : h.next p = base := ht.path
      omega
    | cons q t =>
      obtain rfl : q = h.fin bp := ht.path.1.symm.trans hnext
      obtain ⟨ht, hq⟩ := ht.of_cons
      have hab : Absorbs h (h.joinUpper bp p) bp := by
        simpa only [Heap.joinUpper, ← htouch, ↓reduceIte] using absorb (hlt (h.fin bp) (by simp))
      generalize h.joinUpper bp p = h' at *
      have hsame : ∀ c ∈ t, h'.hdr c = h.hdr c := fun c hc =>
        hab.other c (hne c (mem_cons_of_mem _ hc))
      refine ⟨t, .cons (hab.next ▸ ht.congr hsame) (hab.fin ▸ hq) ?_, ?_, hab.other, fun a => ?_⟩
      · rw [hab.size]
        exact Nat.lt_of_lt_of_le hpos (Nat.le_add_right ..)
      · rw [hab.fin]
        exact hlt _ (by simp)
      · rw [Heap.covers_cons, Heap.covers_cons, Heap.covers_cons, Heap.covers_congr hsame,
          hab.in_iff, or_assoc]
  · have hj : h.joinUpper bp p = h.setPtr bp (h.next p) := if_neg htouch
    have hhdr : ∀ c, c ≠ bp → (h.joinUpper bp p).hdr c = h.hdr c := by
      intro c hc
      rw [hj, Heap.setPtr_hdr_of_ne hc]
    have hfin' : ∀ c, (h.joinUpper bp p).fin c = h.fin c := fun c => by rw [hj, Heap.setPtr_fin]
    have hself : (h.joinUpper bp p).hdr bp = { h.hdr bp with ptr := h.next p } := by
      rw [hj, Heap.setPtr_hdr]
    generalize h.joinUpper bp p = h' at *
    have hnext : h'.next bp = h.next p := by rw [Heap.next, hself]
    refine ⟨l₂, .cons (hnext ▸ ht.congr fun c hc => hhdr c (hne c hc)) (fun c hc => ?_) ?_, ?_, hhdr,
      fun a => ?_⟩
    · rw [hfin']
      cases l₂ with
      | nil => cases hc
      | cons q l₂ =>
        -- the next block does not touch the block, and the others are behind it
        have hq := hge q mem_cons_self
        have hne : h.fin bp ≠ q := by
          rintro rfl
          exact htouch ht.path.1.symm
        rcases mem_cons.1 hc with rfl | hc
        · omega
        · have := ht.of_cons.2 c hc
          simp only [Heap.fin] at *
          omega
    · rw [hself]
      exact hpos
    · rw [hfin']
      exact hlt bp mem_cons_self
    · simp only [Heap.Covers, Heap.In, hfin']

namespace FreeList

/-- **The block is put behind `p`**, or taken in by it if they touch. -/
theorem joinLower (hl : FreeList base h l) (heq : base :: l = l₁ ++ p :: l₂) {t : List ℕ}
    (hb : Tail base h bp (bp :: t)) (hlt : h.fin bp < 2 ^ 32) (hpbp : p < bp) (hfp : h.fin p ≤ bp) :
    ∃ l', FreeList base (h.joinLower bp p) l' ∧ p ∈ base :: l' ∧
      (∀ a, (h.joinLower bp p).Covers l' a ↔ h.Covers l₁ a ∨ h.In p a ∨ h.Covers (bp :: t) a) ∧
      ∀ c, c ≠ p → (h.joinLower bp p).hdr c = h.hdr c := by
  have hsorted := hl.sorted
  rw [heq] at hsorted
  have hl₁ : ∀ c ∈ l₁, c ≠ p := fun c hc =>
    ((pairwise_append.1 hsorted).2.2 c hc p mem_cons_self).ne
  obtain ⟨ht, hbpt⟩ := hb.of_cons
  have htp : ∀ c ∈ t, bp < c ∧ c ≠ p := by
    intro c hc
    have := hbpt c hc
    simp only [Heap.fin] at this
    omega
  have hp : p ∈ base :: l := by
    rw [heq]
    simp
  by_cases htouch : h.fin p = bp
  · subst htouch
    have hab : Absorbs h (h.joinLower (h.fin p) p) p := by
      simpa only [Heap.joinLower, ↓reduceIte] using absorb hlt
    generalize h.joinLower (h.fin p) p = h' at *
    have hsame : ∀ c ∈ t, h'.hdr c = h.hdr c := fun c hc => hab.other c (htp c hc).2
    have hsize : (h'.hdr p).size = 0 ↔ p = base := by
      have hpos := hb.pos _ mem_cons_self
      rw [hab.size, ← hl.size_eq_zero hp]
      simp only [Heap.fin, unit] at hpbp
      omega
    obtain ⟨l', hl', hfl, hcov⟩ := hl.replace heq (fun c hc => hab.other c (hl₁ c hc))
      (hab.next ▸ ht.congr hsame) (hab.fin ▸ hbpt) hsize
    refine ⟨l', hfl, by rw [hl']; simp, fun a => ?_, hab.other⟩
    rw [hcov, Heap.covers_cons, Heap.covers_congr hsame, hab.in_iff, or_assoc]
  · have hj : h.joinLower bp p = h.setPtr p bp := if_neg htouch
    have hhdr : ∀ c, c ≠ p → (h.joinLower bp p).hdr c = h.hdr c := by
      intro c hc
      rw [hj, Heap.setPtr_hdr_of_ne hc]
    have hnext : (h.joinLower bp p).next p = bp := by rw [hj, Heap.next, Heap.setPtr_hdr]
    have hsize : ((h.joinLower bp p).hdr p).size = (h.hdr p).size := by rw [hj, Heap.setPtr_size]
    have hfin : ∀ c, (h.joinLower bp p).fin c = h.fin c := fun c => by rw [hj, Heap.setPtr_fin]
    generalize h.joinLower bp p = h' at *
    have hsame : ∀ c ∈ bp :: t, h'.hdr c = h.hdr c :=
      forall_mem_cons.2 ⟨hhdr bp hpbp.ne', fun c hc => hhdr c (htp c hc).2⟩
    have hfar : ∀ c ∈ bp :: t, h'.fin p < c := by
      rw [hfin]
      refine forall_mem_cons.2 ⟨by omega, fun c hc => ?_⟩
      have := (htp c hc).1
      omega
    obtain ⟨l', hl', hfl, hcov⟩ := hl.replace heq (fun c hc => hhdr c (hl₁ c hc))
      (hnext ▸ hb.congr hsame) hfar (by rw [hsize, hl.size_eq_zero hp])
    refine ⟨l', hfl, by rw [hl']; simp, fun a => ?_, hhdr⟩
    rw [hcov, Heap.In, hfin, ← Heap.In, Heap.covers_congr hsame]

/-- **`free` puts a block in its place.** The list has the bytes of the
block too, and no others. -/
theorem join (hl : FreeList base h l) (hp : p ∈ base :: l) (hb : h.Between bp p)
    (hbase : base < bp) (hpos : 0 < (h.hdr bp).size) (hno : ∀ a, h.In bp a → ¬ h.Covers l a)
    (hlt : ∀ b ∈ bp :: l, h.fin b < 2 ^ 32) :
    ∃ l', FreeList base ((h.joinUpper bp p).joinLower bp p) l' ∧ p ∈ base :: l' ∧
      (∀ a, ((h.joinUpper bp p).joinLower bp p).Covers l' a ↔ h.Covers l a ∨ h.In bp a) ∧
      ∀ c, c ∉ base :: l → c ≠ bp → ((h.joinUpper bp p).joinLower bp p).hdr c = h.hdr c := by
  obtain ⟨l₁, l₂, heq⟩ := append_of_mem hp
  obtain ⟨hpbp, hbl₂⟩ := (hl.between_iff hbase heq).1 hb
  have hmem : ∀ c ∈ p :: l₂, c = base ∨ c ∈ l := fun c hc =>
    mem_cons.1 (heq ▸ mem_append_right _ hc)
  have hl₂ : ∀ c ∈ l₂, c ∈ l := fun c hc =>
    (hmem c (mem_cons_of_mem _ hc)).resolve_left fun hc' => by
      have := hbl₂ c hc
      omega
  have hbl : bp ∉ base :: l := by
    intro hbl
    rcases mem_cons.1 hbl with rfl | hbl
    · omega
    · exact hno bp (Heap.in_self hpos) ⟨bp, hbl, Heap.in_self hpos⟩
  -- neither neighbour overlaps the block
  have hge : ∀ q ∈ l₂, h.fin bp ≤ q := fun q hq =>
    Heap.fin_le (hbl₂ q hq) fun hin => hno q hin ⟨q, hl₂ q hq, Heap.in_self (hl.pos q (hl₂ q hq))⟩
  have hfp : h.fin p ≤ bp := by
    rcases hmem p mem_cons_self with rfl | hpl
    · simp only [Heap.fin, hl.empty]
      omega
    · exact Heap.fin_le hpbp fun hin => hno bp (Heap.in_self hpos) ⟨p, hpl, hin⟩
  obtain ⟨t, hbehind, hend, hhdr, hcov⟩ := joinUpper_spec (hl.tail heq).1 hge hbase hpos
    (forall_mem_cons.2 ⟨hlt bp mem_cons_self, fun b hb =>
      hlt b (mem_cons_of_mem _ (hl₂ b hb))⟩)
  have hsame : ∀ c ∈ base :: l, (h.joinUpper bp p).hdr c = h.hdr c := fun c hc =>
    hhdr c fun heq => hbl (heq ▸ hc)
  obtain ⟨l', hl', hpl', hcov', hhdr'⟩ := (hl.congr hsame).joinLower heq hbehind hend hpbp
    (by rwa [Heap.fin_congr (hsame p hp)])
  refine ⟨l', hl', hpl', fun a => ?_, fun c hc hcb => ?_⟩
  · have hl₁ : ∀ c ∈ l₁, (h.joinUpper bp p).hdr c = h.hdr c := fun c hc =>
      hsame c (heq ▸ mem_append_left _ hc)
    rw [hcov', hcov, ← hl.covers_base, heq, Heap.covers_append, Heap.covers_cons, Heap.covers_cons,
      Heap.in_congr (hsame p hp), Heap.covers_congr hl₁]
    simp only [or_assoc, or_comm, or_left_comm]
  · rw [hhdr' c fun heq => hc (heq ▸ hp), hhdr c hcb]

end FreeList

end Umalloc

end Xv6
