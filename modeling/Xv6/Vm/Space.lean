import Xv6.Vm.Table
import Mathlib.Data.Finset.Card
/-!
# Address spaces

`Space` is a page table that maps pages of user memory from address zero
on, each to a page of its own, with what they hold, and above them what it
is told. There are fewer pages than there is room below the trapframe, so
`uvmalloc` and `uvmcopy` never come to a page that is mapped. Each function
of `vm.c` leads from such a space to such a space, on every way out.
-/

namespace Xv6

open Common Function List

namespace Vm

variable {k : Symbols} {o o' : ℕ → Owner} {s s' : State} {P : Owner → Prop} {mem mem' : ℕ → Page}
  {X : ℕ → ℕ} {ptes : List ℕ} {f g : ℕ → UInt8} {hand hand' : Option ℕ} {r n m w b page : ℕ}

/-- The number of pages of physical memory. -/
def npages : ℕ := (PHYSTOP - KERNBASE) / PGSIZE

/-- The number of pages that `sz` bytes take. -/
def pages (sz : ℕ) : ℕ := (sz + PGSIZE - 1) / PGSIZE

theorem pages_mul (n : ℕ) : pages (n * PGSIZE) = n := by
  simp only [pages, PGSIZE]
  omega

theorem pages_mono (h : m ≤ n) : pages m ≤ pages n := by
  simp only [pages, PGSIZE]
  omega

theorem pgRoundUp_eq {sz : ℕ} (h : pages sz ≤ npages) : pgRoundUp sz = pages sz * PGSIZE := by
  simp only [pgRoundUp, pgRoundDown, pages, npages, PGSIZE, PHYSTOP, KERNBASE] at *
  omega

/-- **The user memory of an address space**: page number `i` is mapped by
the entry `ptes[i]`, the byte at `x` is `f x`, and above the pages there
are the entries `X`. One page more may be in hand: it is to be mapped
next. -/
structure Holding (o : ℕ → Owner) (mem : ℕ → Page) (r : ℕ) (ptes : List ℕ) (f : ℕ → UInt8)
    (X : ℕ → ℕ) (hand : Option ℕ) : Prop where
  table : Table o mem r
  user : ∀ b i, o b = .user r i ↔
    (∃ w, ptes[i]? = some w ∧ b = pte2pa w) ∨ (i = ptes.length ∧ hand = some b)
  leaf : ∀ i w, ptes[i]? = some w → pteAt mem r i = w ∧ Leaf w
  byte : ∀ i w, ptes[i]? = some w → ∀ j, j < PGSIZE →
    (mem (pte2pa w)).get j = f (i * PGSIZE + j)
  rest : ∀ i, ptes.length ≤ i → pteAt mem r i = X i

/-- An address space with no page in hand. -/
abbrev Space (o : ℕ → Owner) (mem : ℕ → Page) (r : ℕ) (ptes : List ℕ) (f : ℕ → UInt8)
    (X : ℕ → ℕ) : Prop :=
  Holding o mem r ptes f X none

/-- What is mapped above the user memory is above all of it that there can
be, and not for the user. -/
structure Above (X : ℕ → ℕ) : Prop where
  low : ∀ i, i ≤ npages → X i = 0
  kernel : ∀ i, X i &&& PTE_U = 0

theorem Above.free {X : ℕ → ℕ} {i : ℕ} (h : Above X) (hi : i ≤ npages) : X i &&& PTE_V = 0 := by
  rw [h.low i hi, Nat.zero_and]

theorem above_zero : Above fun _ => 0 := ⟨fun _ _ => rfl, fun _ => Nat.zero_and _⟩

/-- Different pages of an address space are different pages. -/
theorem Heap.user_le (h : Heap k o s) {f : ℕ → ℕ} (hf : ∀ i, i < n → o (f i) = .user r i) :
    n ≤ npages := by
  have hmanaged : ∀ i, i < n → Managed k (f i) := fun i hi =>
    (h.managed _).1 (by rw [hf i hi]; exact Owner.noConfusion)
  have hk := k.base
  have ht := k.text
  have hcard : (Finset.range n).card ≤ (Finset.range npages).card := by
    refine Finset.card_le_card_of_injOn (fun i => (f i - KERNBASE) / PGSIZE) ?_ ?_
    · intro i hi
      obtain ⟨h1, h2, h3⟩ := hmanaged i (Finset.mem_range.1 hi)
      simp only [Finset.coe_range, Set.mem_Iio, npages, PGSIZE, PHYSTOP, KERNBASE] at *
      omega
    · intro i hi j hj hij
      have hi := Finset.mem_range.1 hi
      have hj := Finset.mem_range.1 hj
      obtain ⟨h1, h2, h3⟩ := hmanaged i hi
      obtain ⟨h1', h2', h3'⟩ := hmanaged j hj
      have hfij : f i = f j := by
        simp only [PGSIZE, PHYSTOP, KERNBASE] at *
        omega
      have := hf i hi
      rw [hfij, hf j hj] at this
      injection this with _ hji
      exact hji.symm
  simpa using hcard

namespace Holding

variable (h : Holding o mem r ptes f X hand)
include h

/-- Who owns the page an entry maps. -/
theorem own {i : ℕ} (hw : ptes[i]? = some w) : o (pte2pa w) = .user r i :=
  (h.user _ i).2 (.inl ⟨w, hw, rfl⟩)

theorem pteAt_lt {i : ℕ} (hi : i < ptes.length) : pteAt mem r i = ptes[i] :=
  (h.leaf i _ (getElem?_eq_getElem hi)).1

/-- Only the bytes that are there matter. -/
theorem congr (hg : ∀ x, x < ptes.length * PGSIZE → g x = f x) : Holding o mem r ptes g X hand := by
  refine ⟨h.table, h.user, h.leaf, fun i w hw j hj => ?_, h.rest⟩
  have hi : i < ptes.length := (List.getElem?_eq_some_iff.1 hw).1
  rw [h.byte i w hw j hj, hg]
  simp only [PGSIZE] at hj ⊢
  omega

/-- **The frame rule for address spaces.** -/
theorem frame (hf : Frame P o o' mem mem') (ht : ∀ d i, ¬ P (.table r d i))
    (hu : ∀ i, ¬ P (.user r i)) : Holding o' mem' r ptes f X hand := by
  have hpte := h.table.pteAt_frame hf ht
  refine ⟨h.table.frame hf ht, fun b i => ?_, fun i w hw => ?_, fun i w hw j hj => ?_,
    fun i hi => ?_⟩
  · rw [hf.own_iff (hu i), h.user]
  · rw [hpte]
    exact h.leaf i w hw
  · rw [hf.mem_of_own (hu i) (h.own hw)]
    exact h.byte i w hw j hj
  · rw [hpte]
    exact h.rest i hi

/-- **The pages mapped stay as they are**, whatever happens above them. -/
theorem above {X' : ℕ → ℕ} (hf : Frame (Owner.inSpace r ptes.length) o o' mem mem')
    (ht : Table o' mem' r) (hpte : ∀ i, i < ptes.length → pteAt mem' r i = pteAt mem r i)
    (hrest : ∀ i, ptes.length ≤ i → pteAt mem' r i = X' i)
    (hhand : ∀ b i, ptes.length ≤ i → (o' b = .user r i ↔ i = ptes.length ∧ hand' = some b)) :
    Holding o' mem' r ptes f X' hand' := by
  have hout : ∀ i w, ptes[i]? = some w → ¬ Owner.inSpace r ptes.length (.user r i) := by
    intro i w hw hin
    have := (List.getElem?_eq_some_iff.1 hw).1
    have : ptes.length ≤ i := hin.2
    omega
  refine ⟨ht, fun b i => ?_, fun i w hw => ?_, fun i w hw j hj => ?_, fun i hi => ?_⟩
  · by_cases hi : i < ptes.length
    · have hne : ¬ i = ptes.length := by omega
      rw [hf.own_iff (hout i _ (getElem?_eq_getElem hi)), h.user]
      simp only [hne, false_and, or_false]
    · have hnone : ptes[i]? = none := getElem?_eq_none (by omega)
      rw [hhand b i (by omega), hnone]
      simp only [reduceCtorEq, false_and, exists_false, false_or]
  · rw [hpte i (List.getElem?_eq_some_iff.1 hw).1]
    exact h.leaf i w hw
  · rw [hf.mem_of_own (hout i w hw) (h.own hw)]
    exact h.byte i w hw j hj
  · exact hrest i hi

/-- The table grows, or a page is taken in hand or given back. -/
theorem change (hf : Frame (Owner.inSpace r ptes.length) o o' mem mem') (ht : Table o' mem' r)
    (hpte : pteAt mem' r = pteAt mem r)
    (hhand : ∀ b i, ptes.length ≤ i → (o' b = .user r i ↔ i = ptes.length ∧ hand' = some b)) :
    Holding o' mem' r ptes f X hand' :=
  h.above hf ht (fun i _ => by rw [hpte]) (fun i hi => by rw [hpte]; exact h.rest i hi) hhand

end Holding

namespace Holding

theorem le (h : Holding o s.mem r ptes f X hand) (hh : Heap k o s) : ptes.length ≤ npages := by
  refine hh.user_le (r := r) (f := fun i => pte2pa (pteAt s.mem r i)) fun i hi => ?_
  rw [h.pteAt_lt hi]
  exact h.own (getElem?_eq_getElem hi)

theorem own_hand (h : Holding o mem r ptes f X (some page)) : o page = .user r ptes.length :=
  (h.user page _).2 (.inr ⟨rfl, rfl⟩)

/-- The page in hand is none of the pages mapped. -/
theorem hand_iff (h : Holding o mem r ptes f X hand) {i : ℕ} (hi : ptes.length ≤ i) :
    o b = .user r i ↔ i = ptes.length ∧ hand = some b := by
  have hnone : ptes[i]? = none := getElem?_eq_none hi
  rw [h.user, hnone]
  simp only [reduceCtorEq, false_and, exists_false, false_or]

end Holding

/-! ## `uvmdealloc` -/

theorem freed_eq_user {a c i : ℕ} : freed (Owner.inRange r a c) o b = .user r i ↔
    o b = .user r i ∧ ¬ (a ≤ i ∧ i < c) := by
  by_cases h : Owner.inRange r a c (o b)
  · rw [freed_of h]
    refine ⟨Owner.noConfusion, fun ⟨heq, hne⟩ => ?_⟩
    rw [heq] at h
    exact absurd h.2 hne
  · rw [freed_of_not h]
    exact ⟨fun heq => ⟨heq, fun hi => h (by rw [heq]; exact ⟨rfl, hi⟩)⟩, And.left⟩

/-- **The pages from `m` on are unmapped and freed.** -/
theorem Holding.unmap_returns (h : Space o s.mem r ptes f X) (hh : Heap k o s) (hX : Above X)
    (hm : m ≤ ptes.length) :
    Returns (uvmunmap k r (m * PGSIZE) (ptes.length - m) true) s fun _ s' =>
      ∃ o', Does k (Owner.inSpace r m) o o' s s' ∧ Space o' s'.mem r (ptes.take m) f X := by
  have hle := h.le hh
  have hmn : m + (ptes.length - m) = ptes.length := by omega
  refine (uvmunmap_returns hh h.table ?_ ?_ ?_).mono ?_
  · simp only [hmn, npages, PHYSTOP, KERNBASE, MAXVA, PGSIZE] at hle ⊢
    omega
  · intro i _ hi
    rw [h.pteAt_lt (by omega)]
    exact (h.leaf i _ (getElem?_eq_getElem (by omega))).2
  · intro _ i _ hi b
    rw [h.user, h.pteAt_lt (by omega), getElem?_eq_getElem (by omega)]
    simp
  · rintro - s' ⟨o', rfl, hdo, ht, hpte⟩
    rw [if_pos rfl, hmn] at hdo ht
    have hpte : ∀ i, pteAt s'.mem r i = if m ≤ i ∧ i < ptes.length then 0 else pteAt s.mem r i :=
      fun i => by rw [hpte, hmn]
    have hlow : ∀ {i w}, (ptes.take m)[i]? = some w → i < m ∧ ptes[i]? = some w := by
      intro i w hw
      rw [getElem?_take] at hw
      split at hw
      · exact ⟨‹_›, hw⟩
      · cases hw
    have hlen : (ptes.take m).length = m := by rw [length_take]; omega
    refine ⟨_, hdo, ht, fun b i => ?_, fun i w hw => ?_, fun i w hw j hj => ?_, fun i hi => ?_⟩
    · rw [freed_eq_user, h.user, getElem?_take]
      by_cases him : i < m
      · have hne : ¬ (m ≤ i ∧ i < ptes.length) := by omega
        simp [him, hne]
      · rw [if_neg him]
        simp only [reduceCtorEq, and_false, false_and, exists_false, or_false, iff_false]
        rintro ⟨⟨w, hw, -⟩, hne⟩
        exact hne ⟨by omega, (List.getElem?_eq_some_iff.1 hw).1⟩
    · obtain ⟨him, hw⟩ := hlow hw
      rw [hpte, if_neg (by omega)]
      exact h.leaf i w hw
    · obtain ⟨him, hw⟩ := hlow hw
      have hout : ¬ Owner.inSpace r m (.user r i) := fun hin => absurd hin.2 (by omega)
      rw [hdo.frame.mem_of_own hout (h.own hw)]
      exact h.byte i w hw j hj
    · rw [hlen] at hi
      rw [hpte]
      by_cases hin : m ≤ i ∧ i < ptes.length
      · rw [if_pos hin, hX.low i (by omega)]
      · rw [if_neg hin]
        exact h.rest i (by omega)

/-- **`uvmdealloc`** brings the space to the smaller of the two sizes. -/
theorem uvmdealloc_returns {oldsz newsz : ℕ} (h : Space o s.mem r ptes f X)
    (hlen : ptes.length = pages oldsz) (hh : Heap k o s) (hX : Above X) :
    Returns (uvmdealloc k r oldsz newsz) s fun sz s' =>
      sz = min oldsz newsz ∧ ∃ o', Does k (Owner.inSpace r (pages sz)) o o' s s' ∧
        Space o' s'.mem r (ptes.take (pages sz)) f X := by
  have hle := h.le hh
  have hall : ptes.take (pages oldsz) = ptes := by rw [← hlen, take_length]
  rw [uvmdealloc]
  by_cases hsz : oldsz ≤ newsz
  · rw [if_pos hsz]
    exact .pure ⟨by omega, o, .refl hh, hall.symm ▸ h⟩
  rw [if_neg hsz]
  have hmono : pages newsz ≤ pages oldsz := pages_mono (by omega)
  rw [hlen] at hle
  rw [pgRoundUp_eq hle, pgRoundUp_eq (hmono.trans hle)]
  by_cases hlt : pages newsz * PGSIZE < pages oldsz * PGSIZE
  · have hcount : (pages oldsz * PGSIZE - pages newsz * PGSIZE) / PGSIZE =
        ptes.length - pages newsz := by
      simp only [hlen, PGSIZE]
      omega
    simp only [if_pos hlt, hcount]
    refine .bind ((h.unmap_returns hh hX (by omega)).mono ?_)
    rintro - s' ⟨o', hdo, h'⟩
    exact .pure ⟨by omega, o', hdo, h'⟩
  · simp only [if_neg hlt]
    have heq : pages newsz = pages oldsz := by
      simp only [PGSIZE] at hlt
      omega
    rw [← heq] at hall
    exact .pure ⟨by omega, o, .refl hh, hall.symm ▸ h⟩

/-! ## A page more -/

/-- **A page is taken for the next page of the space.** -/
theorem Holding.kalloc_returns (h : Space o s.mem r ptes f X) (hh : Heap k o s) :
    Returns kalloc s fun page s' =>
      ∃ o', Takes k (Owner.inSpace r ptes.length) o o' s s' ∧
        (page = 0 ∧ Space o' s'.mem r ptes f X ∨
          page ≠ 0 ∧ o page = .free ∧ Holding o' s'.mem r ptes f X (some page)) := by
  refine (Vm.kalloc_returns (P := fun _ => Owner.inSpace r ptes.length) hh
    (fun _ => .user r ptes.length) (fun _ => Owner.used_user ..) (fun _ => trivial)
    fun _ => ⟨rfl, le_rfl⟩).mono ?_
  rintro page s' (⟨rfl, hdo, hmem⟩ | ⟨h0, hfree, hdo, hmem⟩)
  · exact ⟨o, (hdo _).takes, .inl ⟨rfl, hmem ▸ h⟩⟩
  · have hm : ∀ b d i, o b = .table r d i → s'.mem b = s.mem b := by
      intro b d i hb
      refine hmem b ?_
      rintro rfl
      rw [hfree] at hb
      cases hb
    refine ⟨_, hdo.takes_update Owner.noConfusion, .inr ⟨h0, hfree, h.change hdo.frame ?_ ?_ fun b i hi => ?_⟩⟩
    · refine h.table.congr hm fun b d i => ?_
      by_cases hb : b = page
      · rw [hb, update_self, hfree]
        exact ⟨Owner.noConfusion, Owner.noConfusion⟩
      · rw [update_of_ne hb]
    · exact funext (h.table.tword_congr hm le_rfl)
    · by_cases hb : b = page
      · subst hb
        rw [update_self]
        constructor
        · intro heq
          injection heq with _ hi
          exact ⟨hi.symm, rfl⟩
        · rintro ⟨rfl, -⟩
          rfl
      · rw [update_of_ne hb, h.hand_iff hi]
        simp [Ne.symm hb]

/-- The page in hand is written. -/
theorem Holding.write_returns (h : Holding o s.mem r ptes f X (some page)) (hh : Heap k o s)
    (c : Page → Page) :
    Returns (Prog.modify fun s => { s with mem := update s.mem page (c (s.mem page)) } :
        Kern State Unit) s fun _ s' =>
      Does k (Owner.inSpace r ptes.length) o o s s' ∧
        Holding o s'.mem r ptes f X (some page) ∧ s'.mem page = c (s.mem page) := by
  refine (modify_page (P := Owner.inSpace r ptes.length) hh h.own_hand (Owner.used_user ..)
    ⟨rfl, le_rfl⟩ c).mono ?_
  rintro - s' ⟨hdo, hmem⟩
  have hm : ∀ b d i, o b = .table r d i → s'.mem b = s.mem b := by
    intro b d i hb
    rw [hmem, update_of_ne]
    rintro rfl
    rw [h.own_hand] at hb
    cases hb
  exact ⟨hdo, h.change hdo.frame (h.table.congr hm fun _ _ _ => Iff.rfl)
    (funext (h.table.tword_congr hm le_rfl)) fun b i hi => h.hand_iff hi, by rw [hmem, update_self]⟩

/-- **The page in hand is given back.** -/
theorem Holding.kfree_returns (h : Holding o s.mem r ptes f X (some page)) (hh : Heap k o s) :
    Returns (kfree k page) s fun _ s' =>
      ∃ o', Does k (Owner.inSpace r ptes.length) o o' s s' ∧ Space o' s'.mem r ptes f X := by
  refine (Vm.kfree_returns (P := Owner.inSpace r ptes.length) hh h.own_hand (Owner.used_user ..)
    ⟨rfl, le_rfl⟩ trivial).mono ?_
  rintro - s' ⟨hdo, hmem⟩
  have hm : ∀ b d i, o b = .table r d i → s'.mem b = s.mem b := by
    intro b d i hb
    refine hmem b ?_
    rintro rfl
    rw [h.own_hand] at hb
    cases hb
  refine ⟨_, hdo, h.change hdo.frame (h.table.congr hm fun b d i => ?_)
    (funext (h.table.tword_congr hm le_rfl)) fun b i hi => ?_⟩
  · by_cases hb : b = page
    · rw [hb, update_self, h.own_hand]
      exact ⟨Owner.noConfusion, Owner.noConfusion⟩
    · rw [update_of_ne hb]
  · by_cases hb : b = page
    · rw [hb, update_self]
      simp
    · rw [update_of_ne hb, h.hand_iff hi]
      simp [Ne.symm hb]

/-- **The page is mapped.** -/
theorem Holding.mapped (h : Holding o mem r ptes f X (some page))
    (hf : Frame (Owner.inTable r) o o' mem mem') (ht : Table o' mem' r)
    (hpte : pteAt mem' r = update (pteAt mem r) ptes.length w) (hw : Leaf w)
    (hpage : pte2pa w = page)
    (hg : ∀ j, j < PGSIZE → (mem page).get j = f (ptes.length * PGSIZE + j)) :
    Space o' mem' r (ptes ++ [w]) f X := by
  have hout : ∀ i, ¬ Owner.inTable r (.user r i) := fun _ => id
  have hsplit : ∀ {i v}, (ptes ++ [w])[i]? = some v →
      ptes[i]? = some v ∧ i ≠ ptes.length ∨ i = ptes.length ∧ v = w := by
    intro i v hv
    rcases Nat.lt_trichotomy i ptes.length with hi | rfl | hi
    · rw [getElem?_append_left hi] at hv
      exact .inl ⟨hv, by omega⟩
    · rw [getElem?_concat_length] at hv
      cases hv
      exact .inr ⟨rfl, rfl⟩
    · rw [getElem?_eq_none (by simp; omega)] at hv
      cases hv
  refine ⟨ht, fun b i => ?_, fun i v hv => ?_, fun i v hv j hj => ?_, fun i hi => ?_⟩
  · rw [hf.own_iff (hout i), h.user]
    constructor
    · rintro (⟨v, hv, rfl⟩ | ⟨rfl, hb⟩)
      · refine .inl ⟨v, ?_, rfl⟩
        rw [getElem?_append_left (List.getElem?_eq_some_iff.1 hv).1, hv]
      · refine .inl ⟨w, getElem?_concat_length, ?_⟩
        rw [hpage]
        exact (Option.some.inj hb).symm
    · rintro (⟨v, hv, rfl⟩ | ⟨-, hb⟩)
      · rcases hsplit hv with ⟨hv, -⟩ | ⟨rfl, rfl⟩
        · exact .inl ⟨v, hv, rfl⟩
        · exact .inr ⟨rfl, by rw [hpage]⟩
      · cases hb
  · rw [hpte]
    rcases hsplit hv with ⟨hv, hne⟩ | ⟨rfl, rfl⟩
    · rw [update_of_ne hne]
      exact h.leaf i v hv
    · rw [update_self]
      exact ⟨rfl, hw⟩
  · rcases hsplit hv with ⟨hv, hne⟩ | ⟨rfl, rfl⟩
    · rw [hf.mem_of_own (hout i) (h.own hv)]
      exact h.byte i v hv j hj
    · rw [hpage, hf.mem_of_own (hout _) h.own_hand]
      exact hg j hj
  · rw [length_append, length_singleton] at hi
    rw [hpte, update_of_ne (by omega)]
    exact h.rest i (by omega)

/-- **`mappages` of the page in hand**: it is mapped, or still in hand. -/
theorem Holding.mappages_returns {perm : ℕ} (h : Holding o s.mem r ptes f X (some page))
    (hh : Heap k o s) (hX : X ptes.length &&& PTE_V = 0) (hperm : perm < 1024)
    (hleaf : perm ||| PTE_V ≠ PTE_V)
    (hg : ∀ j, j < PGSIZE → (s.mem page).get j = f (ptes.length * PGSIZE + j)) :
    Returns (mappages r (ptes.length * PGSIZE) PGSIZE page perm) s fun mapped s' =>
      ∃ o', Takes k (Owner.inSpace r ptes.length) o o' s s' ∧
        if mapped then Space o' s'.mem r (ptes ++ [pa2pte page ||| (perm ||| PTE_V)]) f X
        else Holding o' s'.mem r ptes f X (some page) := by
  have hle := h.le hh
  have hout : o page ≠ .outside := by
    rw [h.own_hand]
    exact Owner.noConfusion
  have hf : perm ||| PTE_V < 1024 := Nat.or_lt_two_pow (n := 10) hperm (by decide)
  have hdiv : ptes.length * PGSIZE / PGSIZE = ptes.length := by
    simp only [PGSIZE]
    omega
  refine (Vm.mappages_returns hh h.table (Nat.mul_mod_left ..) ?_ ?_ ?_).mono ?_
  · simp only [npages, PHYSTOP, KERNBASE, MAXVA, PGSIZE] at hle ⊢
    omega
  · rw [hdiv, h.rest _ le_rfl, hX]
  · rw [Nat.or_assoc]
    exact pa2pte_or_lt (hh.lt hout) hf
  · rintro mapped s' ⟨o', hdo, ht, hpte⟩
    refine ⟨o', hdo.mono Owner.inSpace_of_inTable, ?_⟩
    rw [hdiv] at hpte
    cases mapped with
    | false =>
      refine h.change (hdo.frame.mono Owner.inSpace_of_inTable) ht hpte fun b i hi => ?_
      exact (hdo.own_iff id).trans (h.hand_iff hi)
    | true =>
      rw [if_pos rfl, Nat.or_assoc] at hpte
      refine h.mapped hdo.frame ht hpte ⟨?_, ?_⟩ (pte2pa_or (hh.aligned hout) hf) hg
      · rw [← and_pteFlags rfl, pteFlags_or hf, Nat.and_or_distrib_right]
        exact fun h0 => absurd (Nat.or_eq_zero_iff.1 h0).2 (by decide)
      · rwa [pteFlags_or hf]

/-! ## `uvmalloc` -/

/-- The flags of the pages that `uvmalloc` maps. -/
def userFlags : ℕ := PTE_W ||| PTE_X ||| PTE_R ||| PTE_U ||| PTE_V

theorem uvmallocLoop_returns {newsz t : ℕ} (h : Space o s.mem r ptes f X) (hh : Heap k o s)
    (hX : Above X) (hm : m ≤ ptes.length) (hzero : ∀ x, ptes.length * PGSIZE ≤ x → f x = 0) :
    Returns (uvmallocLoop k r (m * PGSIZE) newsz t (ptes.length * PGSIZE)) s fun sz s' =>
      ∃ o', Does k (Owner.inSpace r m) o o' s s' ∧
        (sz = 0 ∧ Space o' s'.mem r (ptes.take m) f X ∨
          sz = newsz ∧ ∃ new : List ℕ, new.length = t ∧ (∀ w ∈ new, pteFlags w = userFlags) ∧
            Space o' s'.mem r (ptes ++ new) f X) := by
  -- both failures give back what was taken
  have hback : ∀ {o₁ s₁} {ptes : List ℕ}, Space o₁ s₁.mem r ptes f X → Heap k o₁ s₁ →
      m ≤ ptes.length →
      Returns (do let _ ← uvmdealloc k r (ptes.length * PGSIZE) (m * PGSIZE); return 0) s₁
        fun sz s' => ∃ o', Does k (Owner.inSpace r m) o₁ o' s₁ s' ∧ sz = 0 ∧
          Space o' s'.mem r (ptes.take m) f X := by
    intro o₁ s₁ ptes h₁ hh₁ hmn
    refine .bind ((uvmdealloc_returns h₁ (pages_mul _).symm hh₁ hX).mono ?_)
    rintro sz s' ⟨rfl, o', hdo, h'⟩
    rw [Nat.min_eq_right (Nat.mul_le_mul_right _ hmn), pages_mul] at h' hdo
    exact .pure ⟨o', hdo, rfl, h'⟩
  induction t generalizing ptes o s with
  | zero => exact .pure ⟨o, .refl hh, .inr ⟨rfl, [], rfl, by simp, by simpa using h⟩⟩
  | succ t ih =>
    have hgrow : ∀ w, Owner.inSpace r ptes.length w → Owner.inSpace r m w := Owner.inSpace_mono hm
    rw [uvmallocLoop]
    refine .bind ((h.kalloc_returns hh).mono ?_)
    rintro page s₁ ⟨o₁, hdo₁, ⟨rfl, h₁⟩ | ⟨h0, -, h₁⟩⟩
    · rw [if_pos rfl]
      refine (hback h₁ hdo₁.heap hm).mono ?_
      rintro sz s' ⟨o', hdo, hsz⟩
      exact ⟨o', (hdo₁.toDoes.mono hgrow).trans hdo, .inl hsz⟩
    · rw [if_neg h0]
      refine .bind ((h₁.write_returns hdo₁.heap fun _ _ => 0).mono ?_)
      rintro - s₂ ⟨hdo₂, h₂, hpage⟩
      refine .bind ((h₂.mappages_returns hdo₂.heap (hX.free (h₂.le hdo₂.heap)) (by decide) (by decide)
        ?_).mono ?_)
      · intro j hj
        rw [hpage, hzero _ (by omega)]
        simp [Bytes.get]
      rintro mapped s₃ ⟨o₃, hdo₃, h₃⟩
      have hdo := ((hdo₁.toDoes.trans hdo₂).trans hdo₃.toDoes).mono hgrow
      cases mapped with
      | false =>
        refine .bind ((h₃.kfree_returns hdo₃.heap).mono ?_)
        rintro - s₄ ⟨o₄, hdo₄, h₄⟩
        refine (hback h₄ hdo₄.heap hm).mono ?_
        rintro sz s' ⟨o', hdo', hsz⟩
        exact ⟨o', (hdo.trans (hdo₄.mono hgrow)).trans hdo', .inl hsz⟩
      | true =>
        rw [if_pos rfl] at h₃
        generalize hw : pa2pte page ||| (PTE_W ||| PTE_X ||| PTE_R ||| PTE_U ||| PTE_V) = w at h₃
        have hlen : (ptes ++ [w]).length = ptes.length + 1 := by simp
        have hnext : ptes.length * PGSIZE + PGSIZE = (ptes ++ [w]).length * PGSIZE := by
          simp only [hlen, PGSIZE]
          omega
        rw [hnext]
        refine (ih h₃ hdo₃.heap (by omega) fun x hx =>
          hzero x ((Nat.mul_le_mul_right _ (by omega)).trans hx)).mono ?_
        rintro sz s' ⟨o', hdo', hsz⟩
        refine ⟨o', hdo.trans hdo', ?_⟩
        rcases hsz with ⟨rfl, h'⟩ | ⟨rfl, new, rfl, hnew, h'⟩
        · rw [take_append_of_le_length hm] at h'
          exact .inl ⟨rfl, h'⟩
        · refine .inr ⟨rfl, w :: new, rfl, ?_, by simpa using h'⟩
          rintro v (_ | ⟨_, hv⟩)
          · rw [← hw]
            exact pteFlags_or (by decide)
          · exact hnew v hv

/-- Memory as it is below `n`, and zero from there on. -/
def zeroFrom (n : ℕ) (f : ℕ → UInt8) (x : ℕ) : UInt8 := if x < n then f x else 0

/-- **`uvmalloc`** grows the space to `newsz`, leaves it as it is when
that is no growth, or returns 0 and leaves it as it is. The pages that are
new hold zeroes. -/
theorem uvmalloc_returns {oldsz newsz : ℕ} (h : Space o s.mem r ptes f X)
    (hlen : ptes.length = pages oldsz) (hh : Heap k o s) (hX : Above X) :
    Returns (uvmalloc k r oldsz newsz) s fun sz s' =>
      ∃ o', Does k (Owner.inSpace r ptes.length) o o' s s' ∧
        if sz = 0 then Space o' s'.mem r ptes f X
        else sz = max oldsz newsz ∧ ∃ new : List ℕ, (ptes ++ new).length = pages sz ∧
          (∀ w ∈ new, pteFlags w = userFlags) ∧
          Space o' s'.mem r (ptes ++ new) (zeroFrom (ptes.length * PGSIZE) f) X := by
  have h0 : Space o s.mem r ptes (zeroFrom (ptes.length * PGSIZE) f) X :=
    h.congr fun x hx => if_pos hx
  rw [uvmalloc]
  by_cases hsz : newsz < oldsz
  · rw [if_pos hsz]
    refine .pure ⟨o, .refl hh, ?_⟩
    rw [if_neg (by omega)]
    exact ⟨by omega, [], by simpa using hlen, by simp, by simpa using h0⟩
  · rw [if_neg hsz, pgRoundUp_eq (hlen ▸ h.le hh), ← hlen]
    refine (uvmallocLoop_returns h0 hh hX le_rfl fun x hx => if_neg (by omega)).mono ?_
    rintro sz s' ⟨o', hdo, hsz'⟩
    have hback : ∀ {o mem ptes' g}, Space o mem r ptes' (zeroFrom (ptes.length * PGSIZE) f) g →
        ptes' = ptes → Space o mem r ptes f g := by
      rintro o mem _ g h' rfl
      exact h'.congr fun x hx => (if_pos hx).symm
    refine ⟨o', hdo, ?_⟩
    rcases hsz' with ⟨rfl, h'⟩ | ⟨rfl, new, hnew, hflags, h'⟩
    · rw [if_pos rfl]
      exact hback h' (by rw [take_length])
    have hcount : (ptes ++ new).length = pages sz := by
      rw [length_append, hnew, hlen]
      simp only [pages, PGSIZE] at hsz ⊢
      omega
    split
    · rename_i hz
      subst hz
      refine hback h' ?_
      have : (ptes ++ new).length = 0 := by rw [hcount]; rfl
      rw [length_append] at this
      rw [eq_nil_of_length_eq_zero (by omega : new.length = 0), append_nil]
    · exact ⟨by omega, new, hcount, hflags, h'⟩

end Vm

end Xv6
