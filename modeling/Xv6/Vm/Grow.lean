import Xv6.Vm.Make
import Xv6.Vm.User
/-!
# Growing and shrinking a process — `growproc` of `kernel/proc.c`

`growproc` computes the new size in 32 bits. A process is never larger
than physical memory, so adding to the size does not wrap; taking away
more than there is does, and `uvmdealloc`, asked for a larger size than
the old one, does nothing.
-/

namespace Xv6

open Common Function List

namespace Vm

variable {k : Symbols} {o o' : ℕ → Owner} {s s' : State} {mem : ℕ → Page} {X : ℕ → ℕ}
  {ptes : List ℕ} {f : ℕ → UInt8} {r p : ℕ}

/-- **A process in order**: its page table maps the pages of its memory,
each to a page of its own, and above them nothing for the user. -/
def InOrder (k : Symbols) (s : State) (p : ℕ) : Prop :=
  ∃ o ptes f X, Heap k o s ∧ Space o s.mem (s.proc p).pagetable ptes f X ∧ Above X ∧
    ptes.length = pages (s.proc p).sz

/-- Two states in which a page table maps the same pages, and these hold
the same. -/
structure SameMemory (r : ℕ) (s s' : State) : Prop where
  ptes : pteAt s'.mem r = pteAt s.mem r
  bytes : ∀ va, (userMem r s').byteAt va = (userMem r s).byteAt va

theorem Holding.pteAt_eq {hand : Option ℕ} (h : Holding o mem r ptes f X hand) (i : ℕ) :
    pteAt mem r i = ptes[i]?.getD (X i) := by
  by_cases hi : i < ptes.length
  · rw [h.pteAt_lt hi, getElem?_eq_getElem hi, Option.getD_some]
  · rw [h.rest i (by omega), getElem?_eq_none (by omega), Option.getD_none]

theorem Holding.sameMemory (h : Space o s.mem r ptes f X) (h' : Space o' s'.mem r ptes f X)
    (hh : Heap k o s) (hh' : Heap k o' s') (hX : Above X) : SameMemory r s s' := by
  refine ⟨funext fun i => ?_, fun va => ?_⟩
  · rw [h.pteAt_eq, h'.pteAt_eq]
  · rw [h.byteAt_eq hh hX, h'.byteAt_eq hh' hX]

/-- A process is not larger than physical memory. -/
theorem InOrder.sz_le (h : InOrder k s p) : (s.proc p).sz ≤ 2 ^ 27 := by
  obtain ⟨o, ptes, f, X, hh, hspace, -, hlen⟩ := h
  have hle := hspace.le hh
  rw [hlen] at hle
  simp only [pages, npages, PHYSTOP, KERNBASE, PGSIZE] at hle
  omega

/-- The size `growproc` leaves where it succeeds: asked to take away more
than there is, it takes nothing. -/
def resized (sz : ℕ) (n : Int32) : ℤ := if 0 ≤ (sz : ℤ) + n.toInt then sz + n.toInt else sz

/-- The process stays in order, and its size changes to `resized`, or not
at all. -/
theorem growproc_returns {n : Int32} (h : InOrder k s p) :
    Returns (growproc k p n) s fun ok s' => InOrder k s' p ∧
      if ok then ((s'.proc p).sz : ℤ) = resized (s.proc p).sz n
      else 0 < n.toInt ∧ s'.proc = s.proc ∧ SameMemory (s.proc p).pagetable s s' := by
  have hsz := h.sz_le
  obtain ⟨o, ptes, f, X, hh, hspace, hX, hlen⟩ := h
  have hlt := Int32.toInt_lt n
  have hge := Int32.le_toInt n
  have hsmall : (s.proc p).sz % 2 ^ 32 = (s.proc p).sz := by omega
  simp only [growproc, Returns.gets_bind_iff, hsmall]
  generalize hq : s.proc p = q at *
  generalize hnew : ((q.sz + n.toInt : ℤ) % 2 ^ 32).toNat = newsz
  have hset : ∀ {s₁ : State} {o₁ : ℕ → Owner} {ptes₁ : List ℕ} {f₁ : ℕ → UInt8} {sz : ℕ},
      Heap k o₁ s₁ → s₁.proc = s.proc → Space o₁ s₁.mem q.pagetable ptes₁ f₁ X →
      ptes₁.length = pages sz → (sz : ℤ) = resized q.sz n →
      Returns (do setProc p fun q => { q with sz }; return true) s₁ fun ok s' => InOrder k s' p ∧
        if ok then ((s'.proc p).sz : ℤ) = resized q.sz n
        else 0 < n.toInt ∧ s'.proc = s.proc ∧ SameMemory q.pagetable s s' := by
    intro s₁ o₁ ptes₁ f₁ sz hh₁ hproc hspace₁ hlen₁ hsz
    refine .bind (.modify (.pure ⟨⟨o₁, ptes₁, f₁, X, ⟨hh₁.managed, hh₁.chain⟩, ?_, hX, ?_⟩, ?_⟩))
    · simp only [update_self, hproc, hq]
      exact hspace₁
    · simp only [update_self]
      exact hlen₁
    · simp only [↓reduceIte, update_self]
      exact hsz
  by_cases hpos : 0 < n.toInt
  · rw [if_pos hpos]
    refine .bind ((uvmalloc_returns hspace hlen hh hX).mono ?_)
    rintro sz s₁ ⟨o₁, hdo, hres⟩
    by_cases h0 : sz = 0
    · subst h0
      rw [if_pos rfl] at hres
      simp only [Nat.zero_mod, ↓reduceIte]
      refine .pure ⟨⟨o₁, ptes, f, X, hdo.heap, ?_, hX, ?_⟩, ?_⟩
      · rw [hdo.proc, hq]
        exact hres
      · rw [hdo.proc, hq]
        exact hlen
      · rw [if_neg Bool.false_ne_true]
        exact ⟨hpos, hdo.proc, hspace.sameMemory hres hh hdo.heap hX⟩
    · rw [if_neg h0] at hres
      obtain ⟨hmax, new, hlen₁, -, hspace₁⟩ := hres
      have hfit : sz % 2 ^ 32 = sz := by omega
      simp only [hfit, h0, ↓reduceIte]
      refine hset hdo.heap hdo.proc hspace₁ hlen₁ ?_
      rw [resized, if_pos (by omega)]
      omega
  · rw [if_neg hpos]
    by_cases hneg : n.toInt < 0
    · rw [if_pos hneg]
      refine .bind ((uvmdealloc_returns hspace hlen hh hX).mono ?_)
      rintro sz s₁ ⟨hmin, o₁, hdo, hspace₁⟩
      have hfit : sz % 2 ^ 32 = sz := by omega
      have hle : pages sz ≤ ptes.length := by
        rw [hlen]
        exact pages_mono (by omega)
      rw [hfit]
      refine hset hdo.heap hdo.proc hspace₁ (length_take_of_le hle) ?_
      -- below 0 the new size has wrapped, and is above the old one
      rw [resized]
      split <;> omega
    · rw [if_neg hneg]
      refine hset hh rfl hspace hlen ?_
      rw [resized, if_pos (by omega)]
      omega

/-- **`growproc`** changes the size by exactly `n`, or it fails and changes
nothing, exactly where it is not asked to take away more than there is. -/
theorem growproc_exact (n : Int32) (h : InOrder k s p) :
    Returns (growproc k p n) s fun ok s' =>
      (if ok then ((s'.proc p).sz : ℤ) = (s.proc p).sz + n.toInt
        else s'.proc = s.proc ∧ SameMemory (s.proc p).pagetable s s') ↔
      0 ≤ ((s.proc p).sz : ℤ) + n.toInt := by
  refine (growproc_returns h).mono ?_
  rintro ok s' ⟨-, hres⟩
  cases ok with
  | false =>
    rw [if_neg Bool.false_ne_true] at hres ⊢
    exact iff_of_true hres.2 (by omega)
  | true =>
    rw [if_pos rfl, resized] at hres
    rw [if_pos rfl, hres]
    split <;> omega

/-! ## Undoing `uvmalloc` -/

theorem Holding.lt_of_user {b i : ℕ} (h : Space o mem r ptes f X) (hb : o b = .user r i) :
    i < ptes.length := by
  rcases (h.user b i).1 hb with ⟨w, hw, -⟩ | ⟨-, hnone⟩
  · exact (List.getElem?_eq_some_iff.1 hw).1
  · cases hnone

/-- Pages that were neither free nor of the page table keep what they hold. -/
theorem Holding.mem_of_does {b : ℕ} (h : Space o s.mem r ptes f X)
    (hdo : Does k (Owner.inSpace r ptes.length) o o' s s') (hb : o b ≠ .free)
    (ht : ∀ d i, o b ≠ .table r d i) : s'.mem b = s.mem b := by
  refine hdo.frame.mem b fun hin => ?_
  cases hob : o b with
  | free => exact hb hob
  | table r' d i =>
    rw [hob] at hin
    have hr : r' = r := hin
    exact ht d i (hr ▸ hob)
  | user r' i =>
    rw [hob] at hin
    obtain ⟨rfl, hi⟩ := hin
    exact absurd (h.lt_of_user hob) (by omega)
  | _ => rw [hob] at hin; exact hin

/-- What was free is free again or a page of the table, if there are no
more user pages than before. -/
theorem Holding.free_of_does {b : ℕ} (h' : Space o' s'.mem r ptes f X)
    (hdo : Does k (Owner.inSpace r ptes.length) o o' s s') (hb : o b = .free) :
    o' b = .free ∨ ∃ d i, o' b = .table r d i := by
  have hin := hdo.frame.region b (by rw [hb]; trivial)
  cases hob : o' b with
  | free => exact .inl rfl
  | table r' d i =>
    rw [hob] at hin
    have hr : r' = r := hin
    exact .inr ⟨d, i, by rw [hr]⟩
  | user r' i =>
    rw [hob] at hin
    obtain ⟨rfl, hi⟩ := hin
    exact absurd (h'.lt_of_user hob) (by omega)
  | _ => rw [hob] at hin; exact hin.elim

/-- **The pages from one size to another are added**: zeroed and for the
user; the others are mapped as before. -/
def Added (r oldsz newsz : ℕ) (s s' : State) : Prop :=
  ∀ i, if pages oldsz ≤ i ∧ i < pages newsz then
      pteFlags (pteAt s'.mem r i) = userFlags ∧
        ∀ j, j < PGSIZE → (s'.mem (pte2pa (pteAt s'.mem r i))).get j = 0
    else pteAt s'.mem r i = pteAt s.mem r i

theorem Holding.added {oldsz newsz : ℕ} {new : List ℕ} (h : Space o s.mem r ptes f X)
    (hlen : ptes.length = pages oldsz) (hnew : (ptes ++ new).length = pages newsz)
    (hflags : ∀ w ∈ new, pteFlags w = userFlags)
    (h' : Space o' s'.mem r (ptes ++ new) (zeroFrom (ptes.length * PGSIZE) f) X) :
    Added r oldsz newsz s s' := by
  intro i
  rw [h'.pteAt_eq, h.pteAt_eq, ← hlen, ← hnew]
  split
  · rename_i hi
    have hw := getElem?_eq_getElem hi.2
    rw [hw, Option.getD_some]
    refine ⟨hflags _ ?_, fun j hj => ?_⟩
    · rw [getElem_append_right hi.1]
      exact getElem_mem _
    · rw [h'.byte i _ hw j hj]
      refine if_neg ?_
      have := Nat.mul_le_mul_right PGSIZE hi.1
      omega
  · by_cases hlt : i < ptes.length
    · rw [getElem?_append_left hlt]
    · rw [getElem?_eq_none (by omega), getElem?_eq_none (by omega)]

/-- **A failed `uvmalloc` is undone**, and a successful one can be. -/
theorem uvmalloc_adds_or_restores {oldsz newsz : ℕ} (hh : Heap k o s)
    (h : Space o s.mem r ptes f X) (hX : Above X) (hlen : ptes.length = pages oldsz) :
    Returns (uvmalloc k r oldsz newsz) s fun sz s' =>
      (sz = 0 ∨ sz = max oldsz newsz) ∧
      (∀ b, o b ≠ .free → (∀ d i, o b ≠ .table r d i) → s'.mem b = s.mem b) ∧
      (sz = newsz → oldsz ≤ newsz → Added r oldsz newsz s s' ∧
        Returns (uvmdealloc k r newsz oldsz) s' fun _ s'' => pteAt s''.mem r = pteAt s.mem r) ∧
      (sz = 0 → oldsz < newsz → pteAt s'.mem r = pteAt s.mem r ∧
        ∃ o', Heap k o' s' ∧ Table o' s'.mem r ∧
          ∀ b, o b = .free → o' b = .free ∨ ∃ d i, o' b = .table r d i) := by
  refine (uvmalloc_returns h hlen hh hX).mono ?_
  rintro sz s' ⟨o', hdo, hres⟩
  have hback : ∀ new : List ℕ, (ptes ++ new).length = pages newsz → oldsz ≤ newsz →
      Space o' s'.mem r (ptes ++ new) (zeroFrom (ptes.length * PGSIZE) f) X →
      Returns (uvmdealloc k r newsz oldsz) s' fun _ s'' => pteAt s''.mem r = pteAt s.mem r := by
    intro new hnew hsz h'
    refine (uvmdealloc_returns h' hnew hdo.heap hX).mono ?_
    rintro - s'' ⟨rfl, o'', -, h''⟩
    rw [Nat.min_eq_right hsz, ← hlen, take_left] at h''
    funext i
    rw [h''.pteAt_eq, h.pteAt_eq]
  by_cases h0 : sz = 0
  · rw [if_pos h0] at hres
    refine ⟨.inl h0, fun b => h.mem_of_does hdo, fun hsz hle => ?_, fun _ _ => ⟨?_, o', hdo.heap,
      hres.table, fun b => hres.free_of_does hdo⟩⟩
    · -- no size at all
      have hnew : (ptes ++ []).length = pages newsz := by
        rw [append_nil, hlen, ← hsz, h0, show oldsz = 0 by omega]
      have h' : Space o' s'.mem r (ptes ++ []) (zeroFrom (ptes.length * PGSIZE) f) X := by
        rw [append_nil]
        exact hres.congr fun x hx => if_pos hx
      exact ⟨h.added hlen hnew (by simp) h', hback [] hnew hle h'⟩
    · funext i
      rw [hres.pteAt_eq, h.pteAt_eq]
  · rw [if_neg h0] at hres
    obtain ⟨hsz, new, hnew, hflags, h'⟩ := hres
    exact ⟨.inr hsz, fun b => h.mem_of_does hdo, fun he hle =>
      ⟨h.added hlen (he ▸ hnew) hflags h', hback new (he ▸ hnew) hle h'⟩, fun hz => absurd hz h0⟩

/-! ## A machine with few pages -/

/-- A kernel that leaves `n` pages of memory. -/
def smallSymbols (n : ℕ) (h : n ≤ 100) : Symbols where
  kend := PHYSTOP - n * PGSIZE
  trampoline := KERNBASE
  base := le_rfl
  aligned := by decide
  text := by
    simp only [PHYSTOP, KERNBASE, PGSIZE]
    omega
  ram := Nat.sub_le ..

/-- Two pages: an empty page table, and a free page. -/
def twoPages : State where
  mem _ _ := 0
  freelist := PHYSTOP - PGSIZE
  proc _ := { state := .used, pagetable := PHYSTOP - 2 * PGSIZE }
  file _ := {}
  files := { node := fun _ => ⟨T_DIR, 1, []⟩, inode := fun _ => {}, outstanding := 0 }
  nextpid := 2
  deny := []

theorem twoPages_inOrder : InOrder (smallSymbols 2 (by decide)) twoPages 0 := by
  have hpages : ∀ b, Managed (smallSymbols 2 (by decide)) b ↔
      b = PHYSTOP - 2 * PGSIZE ∨ b = PHYSTOP - PGSIZE := by
    intro b
    simp only [Managed, smallSymbols, PHYSTOP, KERNBASE, PGSIZE]
    omega
  let o : ℕ → Owner := fun b =>
    if b = PHYSTOP - 2 * PGSIZE then .table b 0 0 else if b = PHYSTOP - PGSIZE then .free else .outside
  have ho : ∀ b d i, o b = .table (PHYSTOP - 2 * PGSIZE) d i ↔
      d = 0 ∧ i = 0 ∧ b = PHYSTOP - 2 * PGSIZE := by
    intro b d i
    simp only [o]
    split
    · rename_i hb
      rw [hb]
      simp [eq_comm]
    · rename_i hb
      split <;> simp [hb]
  have hzero : twoPages.mem (PHYSTOP - 2 * PGSIZE) = fun _ => 0 := rfl
  obtain ⟨ht, hpte⟩ := Table.empty (by decide) hzero ho
  refine ⟨o, [], fun _ => 0, fun _ => 0, ⟨fun b => ?_, [PHYSTOP - PGSIZE], ⟨rfl, by decide, ?_⟩,
    nodup_singleton _, fun b => ?_⟩, ⟨ht, fun b i => ?_, by simp, by simp,
      fun i _ => congrFun hpte i⟩, above_zero, rfl⟩
  · rw [hpages]
    simp only [o]
    split
    · simp_all
    · split <;> simp_all
  · exact Bytes.readLE_zero 0 8
  · simp only [o, mem_singleton]
    split
    · rename_i hb
      rw [hb]
      exact ⟨fun h => absurd h (by decide), Owner.noConfusion⟩
    · split <;> simp_all
  · simp only [o]
    split
    · simp
    · split <;> simp

theorem growproc_exact_no_memory : InOrder (smallSymbols 2 (by decide)) twoPages 0 ∧
    Returns (growproc (smallSymbols 2 (by decide)) 0 4096) twoPages fun ok s' =>
      if ok then ((s'.proc 0).sz : ℤ) = 0 + 4096
      else s'.proc = twoPages.proc ∧ SameMemory (PHYSTOP - 2 * PGSIZE) twoPages s' :=
  ⟨twoPages_inOrder, (growproc_exact 4096 twoPages_inOrder).mono fun _ _ hres => hres.2 (by decide)⟩

theorem uvmalloc_adds_or_restores_two : ∃ o, Heap (smallSymbols 2 (by decide)) o twoPages ∧
    Returns (uvmalloc (smallSymbols 2 (by decide)) (PHYSTOP - 2 * PGSIZE) 0 4096) twoPages fun sz s' =>
      (sz = 4096 → Added (PHYSTOP - 2 * PGSIZE) 0 4096 twoPages s') ∧
      (sz = 0 → pteAt s'.mem (PHYSTOP - 2 * PGSIZE) = pteAt twoPages.mem (PHYSTOP - 2 * PGSIZE)) := by
  obtain ⟨o, ptes, f, X, hh, h, hX, hlen⟩ := twoPages_inOrder
  refine ⟨o, hh, (uvmalloc_adds_or_restores hh h hX hlen).mono ?_⟩
  rintro sz s' ⟨-, -, hadd, hfail⟩
  exact ⟨fun he => (hadd he (by decide)).1, fun he => (hfail he (by decide)).1⟩

/-- **The first process is told that it has shrunk by two pages**, when it
has one: the size has wrapped, and nothing was done. -/
theorem growproc_wraps :
    Returns (do
        boot (smallSymbols 12 (by decide)) 0
        let old ← Prog.gets fun s => (s.proc initproc).sz
        let ok ← growproc (smallSymbols 12 (by decide)) initproc (-8192)
        return (ok, old))
      (reset (fun _ _ => 0) fun _ => ⟨T_DIR, 1, []⟩) fun r s =>
        (r, (s.proc initproc).sz) = ((true, 4096), 4096) :=
  .of_run (by decide +kernel)

end Vm

end Xv6
