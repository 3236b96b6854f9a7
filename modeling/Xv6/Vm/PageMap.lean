import Xv6.Vm.Boot
/-!
# Page tables as maps — `walk`, `mappages` and `uvmunmap` of `kernel/vm.c`

A page table is a tree of pages, and what it stands for is a partial map
from page addresses to physical pages and flags. `walk` finds the slot in
which the binding of a page is kept, `mappages` adds bindings, whatever
pages it adds to the tree on the way, and `uvmunmap` takes them out
(`table_refines`).
-/

namespace Xv6

open Common Function

namespace Vm

variable {k : Symbols} {o : ℕ → Owner} {s : State} {mem : ℕ → Page} {r va : ℕ}

/-! ## The map -/

/-- A partial map from page addresses to physical pages and flags. -/
abbrev PageMap : Type := ℕ → Option (ℕ × ℕ)

namespace PageMap

/-- Two maps agree on the page addresses below `MAXVA`. -/
def Agree (m m' : PageMap) : Prop := ∀ a, a % PGSIZE = 0 → a < MAXVA → m a = m' a

/-- The page at `a` has a byte of the range. -/
def Overlaps (a va size : ℕ) : Prop := a < va + size ∧ va < a + PGSIZE

instance (a va size : ℕ) : Decidable (Overlaps a va size) := inferInstanceAs (Decidable (_ ∧ _))

/-- Bind the pages that overlap a range, one after the other, to pages from
`pa` on. -/
def bind (m : PageMap) (va size pa flags : ℕ) : PageMap := fun a =>
  if Overlaps a va size then some (pa + (a - pgRoundDown va), flags) else m a

/-- Bind one page. -/
def set (m : PageMap) (va : ℕ) (v : Option (ℕ × ℕ)) : PageMap := fun a =>
  if a / PGSIZE = va / PGSIZE then v else m a

/-- Take out the bindings of `n` pages. -/
def unbind (m : PageMap) (va n : ℕ) : PageMap := fun a =>
  if va ≤ a ∧ a < va + n * PGSIZE then none else m a

end PageMap

/-- The binding that an entry stands for. -/
def binding (w : ℕ) : Option (ℕ × ℕ) := if w &&& PTE_V ≠ 0 then some (pte2pa w, pteFlags w) else none

/-- **The map that a page table stands for.** -/
def pageMap (mem : ℕ → Page) (r : ℕ) : PageMap := fun a => binding (pteAt mem r (a / PGSIZE))

theorem binding_eq_none {w : ℕ} : binding w = none ↔ w &&& PTE_V = 0 := by
  rw [binding]
  split <;> simp_all

/-- What is stored is what is found. -/
theorem binding_or {pa f : ℕ} (hpa : pa % PGSIZE = 0) (hf : f < 1024) (hv : f &&& PTE_V ≠ 0) :
    binding (pa2pte pa ||| f) = some (pa, f) := by
  rw [binding, if_pos, pte2pa_or hpa hf, pteFlags_or hf]
  rwa [← and_pteFlags rfl, pteFlags_or hf]

theorem or_valid (perm : ℕ) : (perm ||| PTE_V) &&& PTE_V ≠ 0 := by
  rw [Nat.and_or_distrib_right]
  exact fun h0 => absurd (Nat.or_eq_zero_iff.1 h0).2 (by decide)

/-! ## Refinement -/

/-- **The slot of a page**: what is read there is the binding of the page,
and what is written there changes this binding and no other. -/
structure IsSlot (mem : ℕ → Page) (r va page i : ℕ) : Prop where
  reads : binding (entry mem page i) = pageMap mem r va
  writes : ∀ w, w < 2 ^ 64 →
    (pageMap (update mem page ((mem page).writeLE (8 * i) 8 w)) r).Agree
      ((pageMap mem r).set va (binding w))

/-- **The operations on a page table do to its map what they are for.** -/
structure RefinesMap (k : Symbols) (o : ℕ → Owner) (s : State) (r : ℕ) : Prop where
  /-- `walk` changes nothing and finds the slot; without one there is no
  binding. -/
  walk : ∀ va, va < MAXVA → Returns (walk r va false) s fun slot s' => s' = s ∧
    match slot with
    | none => pageMap s.mem r va = none
    | some (page, i) => IsSlot s.mem r va page i
  /-- Distinct pages have distinct slots. -/
  apart : ∀ va va' x, va < MAXVA → va' < MAXVA →
    Vm.walk r va false s = .ok (some x, s) → Vm.walk r va' false s = .ok (some x, s) →
    va / PGSIZE = va' / PGSIZE
  /-- `mappages` adds bindings, and the table stays one. -/
  map : ∀ va size pa perm, 0 < size → va + size ≤ MAXVA → pa % PGSIZE = 0 →
    pa + (pgRoundDown (va + size - 1) - pgRoundDown va) < 2 ^ 64 → perm < 1024 →
    (∀ a, a % PGSIZE = 0 → PageMap.Overlaps a va size → pageMap s.mem r a = none) →
    Returns (mappages r va size pa perm) s fun ok s' =>
      (∃ o', Heap k o' s' ∧ Table o' s'.mem r) ∧
        (ok → (pageMap s'.mem r).Agree ((pageMap s.mem r).bind va size pa (perm ||| PTE_V)))
  /-- `uvmunmap` takes out bindings of leaves, and the table stays one. The
  pages it frees have to be pages of their own. -/
  unmap : ∀ va n doFree, va % PGSIZE = 0 → va + n * PGSIZE ≤ MAXVA →
    (∀ i, i < n → Leaf (pteAt s.mem r (va / PGSIZE + i))) →
    (doFree = true → ∀ i, i < n → ∀ b, o b = .user r (va / PGSIZE + i) ↔
      b = pte2pa (pteAt s.mem r (va / PGSIZE + i))) →
    Returns (uvmunmap k r va n doFree) s fun _ s' =>
      (∃ o', Heap k o' s' ∧ Table o' s'.mem r) ∧
        (pageMap s'.mem r).Agree ((pageMap s.mem r).unbind va n)
  /-- An entry gives back the address and the flags. -/
  recover : ∀ pa f, pa % PGSIZE = 0 → pa < 2 ^ 56 → f < 1024 →
    pa2pte pa ||| f < 2 ^ 64 ∧ pte2pa (pa2pte pa ||| f) = pa ∧ pteFlags (pa2pte pa ||| f) = f

theorem Table.isSlot (h : Table o mem r) (hn : tnode mem r 2 (va / PGSIZE / 512) ≠ 0) :
    IsSlot mem r va (tnode mem r 2 (va / PGSIZE / 512)) (va / PGSIZE % 512) := by
  constructor
  · rw [pageMap, pteAt, tword_of_ne hn]
  · intro w hw a _ _
    obtain ⟨-, hpte⟩ := h.set hn hw rfl
    rw [pageMap, hpte, PageMap.set, update_apply]
    split <;> rfl

theorem Table.slots_apart {va' : ℕ} {x : ℕ × ℕ} (h : Table o mem r) (h1 : look mem r va = some x)
    (h2 : look mem r va' = some x) : va / PGSIZE = va' / PGSIZE := by
  obtain ⟨hx, hn⟩ := look_eq_some h1
  obtain ⟨hx', hn'⟩ := look_eq_some h2
  obtain ⟨hnode, hidx⟩ := Prod.mk.inj (hx.symm.trans hx')
  obtain ⟨-, hdiv⟩ := h.apart 2 2 _ _ le_rfl le_rfl hn hnode
  omega

theorem pageMap_mappages (hh : Heap k o s) (h : Table o s.mem r) {size pa perm : ℕ} (hsize : 0 < size)
    (hmax : va + size ≤ MAXVA) (hpa : pa % PGSIZE = 0)
    (hlast : pa + (pgRoundDown (va + size - 1) - pgRoundDown va) < 2 ^ 64) (hperm : perm < 1024)
    (hfree : ∀ a, a % PGSIZE = 0 → PageMap.Overlaps a va size → pageMap s.mem r a = none) :
    Returns (mappages r va size pa perm) s fun ok s' =>
      (∃ o', Heap k o' s' ∧ Table o' s'.mem r) ∧
        (ok → (pageMap s'.mem r).Agree ((pageMap s.mem r).bind va size pa (perm ||| PTE_V))) := by
  have hf : perm ||| PTE_V < 1024 := Nat.or_lt_two_pow (n := 10) hperm (by decide)
  have hfirst : pgRoundDown va = va / PGSIZE * PGSIZE := by
    simp only [pgRoundDown, PGSIZE]
    omega
  generalize hn : (pgRoundDown (va + size - 1) - pgRoundDown va) / PGSIZE + 1 = n
  have hnum : n = (va + size - 1) / PGSIZE - va / PGSIZE + 1 := by
    rw [← hn]
    simp only [pgRoundDown, PGSIZE]
    omega
  have hpages : ∀ a, a % PGSIZE = 0 →
      (PageMap.Overlaps a va size ↔ va / PGSIZE ≤ a / PGSIZE ∧ a / PGSIZE < va / PGSIZE + n) := by
    intro a ha
    simp only [PageMap.Overlaps, PGSIZE] at *
    omega
  simp only [mappages, hn]
  rw [hfirst]
  refine (mappagesLoop_returns hh h (by omega) ?_ (fun j h1 h2 => ?_) fun j hj => ?_).mono ?_
  · simp only [PGSIZE, MAXVA] at hmax hnum ⊢
    omega
  · have hdiv : j * PGSIZE / PGSIZE = j := Nat.mul_div_cancel _ (by decide)
    have hmod : j * PGSIZE % PGSIZE = 0 := Nat.mul_mod_left ..
    have := hfree (j * PGSIZE) hmod ((hpages _ hmod).2 (by rw [hdiv]; exact ⟨h1, h2⟩))
    rwa [pageMap, hdiv, binding_eq_none] at this
  · rw [Nat.or_assoc, pa2pte_or hf]
    simp only [pgRoundDown, PGSIZE] at *
    omega
  rintro ok s' ⟨o', m, hdo, ht, hm, hok, hpte⟩
  refine ⟨⟨o', hdo.heap, ht⟩, fun h1 a ha hlt => ?_⟩
  obtain rfl := hok.1 h1
  simp only [pageMap, hpte, PageMap.bind, hpages a ha]
  by_cases hin : va / PGSIZE ≤ a / PGSIZE ∧ a / PGSIZE < va / PGSIZE + m
  · have haddr : pa + (a / PGSIZE - va / PGSIZE) * PGSIZE = pa + (a - pgRoundDown va) := by
      simp only [pgRoundDown, PGSIZE] at *
      omega
    have hmod : (pa + (a - pgRoundDown va)) % PGSIZE = 0 := by
      rw [← haddr, Nat.add_mul_mod_self_right, hpa]
    rw [if_pos hin, if_pos hin, Nat.or_assoc, haddr, binding_or hmod hf (or_valid perm)]
  · rw [if_neg hin, if_neg hin]

theorem pageMap_uvmunmap (hh : Heap k o s) (h : Table o s.mem r) {n : ℕ} {doFree : Bool}
    (hal : va % PGSIZE = 0) (hmax : va + n * PGSIZE ≤ MAXVA)
    (hleaf : ∀ i, i < n → Leaf (pteAt s.mem r (va / PGSIZE + i)))
    (hown : doFree = true → ∀ i, i < n → ∀ b, o b = .user r (va / PGSIZE + i) ↔
      b = pte2pa (pteAt s.mem r (va / PGSIZE + i))) :
    Returns (uvmunmap k r va n doFree) s fun _ s' =>
      (∃ o', Heap k o' s' ∧ Table o' s'.mem r) ∧
        (pageMap s'.mem r).Agree ((pageMap s.mem r).unbind va n) := by
  have hva : va / PGSIZE * PGSIZE = va := by
    simp only [PGSIZE] at *
    omega
  have hshift : ∀ j, va / PGSIZE ≤ j → j < va / PGSIZE + n →
      j - va / PGSIZE < n ∧ va / PGSIZE + (j - va / PGSIZE) = j := by omega
  have hsame : uvmunmap k r va n doFree = uvmunmap k r (va / PGSIZE * PGSIZE) n doFree := by rw [hva]
  rw [hsame]
  refine (uvmunmap_returns hh h ?_ (fun j h1 h2 => ?_) fun hf j h1 h2 => ?_).mono ?_
  · simp only [PGSIZE, MAXVA] at *
    omega
  · obtain ⟨h3, h4⟩ := hshift j h1 h2
    rw [← h4]
    exact hleaf _ h3
  · obtain ⟨h3, h4⟩ := hshift j h1 h2
    rw [← h4]
    exact hown hf _ h3
  · rintro - s' ⟨o', -, hdo, ht, hpte⟩
    refine ⟨⟨o', hdo.heap, ht⟩, fun a ha hlt => ?_⟩
    have hin : va ≤ a ∧ a < va + n * PGSIZE ↔
        va / PGSIZE ≤ a / PGSIZE ∧ a / PGSIZE < va / PGSIZE + n := by
      simp only [PGSIZE] at *
      omega
    simp only [pageMap, hpte, PageMap.unbind, hin]
    split
    · rfl
    · rfl

/-- **Page tables refine maps.** -/
theorem table_refines (hh : Heap k o s) (h : Table o s.mem r) : RefinesMap k o s r := by
  refine ⟨fun va hva => ?_, fun va va' x hva hva' h1 h2 => ?_, fun va size pa perm => ?_,
    fun va n doFree hal hmax hleaf hown => ?_, fun pa f hpa hlt hf => ?_⟩
  · refine ⟨_, _, walk_read h hva, rfl, ?_⟩
    cases hlook : look s.mem r va with
    | none =>
      have hn : tnode s.mem r 2 (va / PGSIZE / 512) = 0 := by
        by_contra hn
        rw [look, if_neg hn] at hlook
        cases hlook
      rw [pageMap, pteAt, tword_of_eq hn]
      rfl
    | some x =>
      obtain ⟨rfl, hn⟩ := look_eq_some hlook
      exact h.isSlot hn
  · rw [walk_read h hva] at h1
    rw [walk_read h hva'] at h2
    exact h.slots_apart (Prod.mk.inj (Except.ok.inj h1)).1 (Prod.mk.inj (Except.ok.inj h2)).1
  · exact pageMap_mappages hh h
  · exact pageMap_uvmunmap hh h hal hmax hleaf hown
  · exact ⟨pa2pte_or_lt hlt hf, pte2pa_or hpa hf, pteFlags_or hf⟩

theorem table_refines_small : ∃ o, Heap smallKernel o smallMachine ∧
    Table o smallMachine.mem (smallMachine.proc initproc).pagetable ∧
    RefinesMap smallKernel o smallMachine (smallMachine.proc initproc).pagetable := by
  obtain ⟨o, h⟩ := smallMachine_ready
  obtain ⟨ptes, f, hspace, -⟩ := h.space
  exact ⟨o, h.heap, hspace.table, table_refines h.heap hspace.table⟩

end Vm

end Xv6
