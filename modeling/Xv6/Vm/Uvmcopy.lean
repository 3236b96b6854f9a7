import Xv6.Vm.Boot
/-!
# Copying an address space — `uvmcopy` of `kernel/vm.c`

`uvmcopy` gives a child a copy of each page of its parent, one after the
other. When memory runs out, for a page or for the child's page table, it
unmaps and frees the pages copied so far: their number is the loop
variable. The parent is only read.
-/

namespace Xv6

open Common List

namespace Vm

variable {k : Symbols} {o o' : ℕ → Owner} {s s' : State} {mem mem' : ℕ → Page} {X W : ℕ → ℕ}
  {ptes : List ℕ} {f : ℕ → UInt8} {old new n t w : ℕ}

/-- **The memory to be copied**: page number `i` of the table `old` is
mapped by `W i`, and the byte at `x` is `f x`. The pages are neither free
nor pages of the child. -/
structure Source (o : ℕ → Owner) (mem : ℕ → Page) (old new n : ℕ) (W : ℕ → ℕ) (f : ℕ → UInt8) :
    Prop where
  table : Table o mem old
  leaf : ∀ i, i < n → pteAt mem old i = W i ∧ Leaf (W i)
  byte : ∀ i, i < n → ∀ j, j < PGSIZE → (mem (pte2pa (W i))).get j = f (i * PGSIZE + j)
  apart : ∀ i, i < n → ¬ Owner.inSpace new 0 (o (pte2pa (W i)))

/-- What is done in the child's address space leaves it alone. -/
theorem Source.frame (h : Source o mem old new n W f) (hf : Frame (Owner.inSpace new 0) o o' mem mem')
    (hne : old ≠ new) : Source o' mem' old new n W f := by
  have hout : ∀ d i, ¬ Owner.inSpace new 0 (.table old d i) := fun _ _ => hne
  refine ⟨h.table.frame hf hout, fun i hi => ?_, fun i hi j hj => ?_, fun i hi => ?_⟩
  · rw [h.table.pteAt_frame hf hout]
    exact h.leaf i hi
  · rw [hf.mem _ (h.apart i hi)]
    exact h.byte i hi j hj
  · rw [hf.own _ (h.apart i hi)]
    exact h.apart i hi

/-- The flags of a valid entry have `PTE_V` in them. -/
theorem pteFlags_or_valid (h : Leaf w) : pteFlags w ||| PTE_V = pteFlags w := by
  have hbit : pteFlags w &&& PTE_V ≠ 0 := by
    rw [and_pteFlags rfl]
    exact h.1
  refine Nat.eq_of_testBit_eq fun i => ?_
  rw [Nat.testBit_or]
  cases i with
  | zero =>
    have hone : (pteFlags w).testBit 0 = true := by
      rw [Nat.testBit_zero]
      rw [show PTE_V = 1 from rfl, Nat.and_one_is_mod] at hbit
      simpa using hbit
    rw [hone, Bool.true_or]
  | succ i =>
    have hzero : PTE_V.testBit (i + 1) = false := by
      rw [show PTE_V = 1 from rfl, Nat.testBit_succ]
      exact Nat.zero_testBit i
    rw [hzero, Bool.or_false]

/-- **What is left when the copy is given up**: no page of the child, and
nothing of it but pages of its table. -/
structure GivenUp (k : Symbols) (o o' : ℕ → Owner) (s s' : State) (new n : ℕ) : Prop where
  does : Does k (Owner.inSpace new 0) o o' s s'
  table : Table o' s'.mem new
  empty : ∀ i, i < n → pteAt s'.mem new i &&& PTE_V = 0
  user : ∀ b i, o' b ≠ .user new i

/-- **The pages copied so far are given up.** -/
theorem Holding.giveUp_returns (h : Space o s.mem new ptes f X) (hh : Heap k o s)
    (hX : ∀ i, i < n → X i &&& PTE_V = 0) :
    Returns (do uvmunmap k new 0 (ptes.length * PGSIZE / PGSIZE) true; return false) s
      fun ok s' => ok = false ∧ ∃ o', GivenUp k o o' s s' new n := by
  have hle := h.le hh
  have hleaf : ∀ i, 0 ≤ i → i < 0 + ptes.length → Leaf (pteAt s.mem new i) := by
    intro i _ hi
    obtain ⟨hpte, hl⟩ := h.leaf i _ (getElem?_eq_getElem (by omega : i < ptes.length))
    rwa [hpte]
  have hown : ∀ i, 0 ≤ i → i < 0 + ptes.length → ∀ b, o b = .user new i ↔
      b = pte2pa (pteAt s.mem new i) := by
    intro i _ hi b
    have hw := getElem?_eq_getElem (by omega : i < ptes.length)
    rw [h.user, hw, (h.leaf i _ hw).1]
    simp
  rw [Nat.mul_div_cancel _ (by decide : 0 < PGSIZE)]
  have hmax : 0 + ptes.length ≤ MAXVA / PGSIZE := by
    simp only [npages, PHYSTOP, KERNBASE, MAXVA, PGSIZE] at hle ⊢
    omega
  have hsame : uvmunmap k new 0 ptes.length true = uvmunmap k new (0 * PGSIZE) ptes.length true := by
    rw [Nat.zero_mul]
  rw [hsame]
  refine .bind ((uvmunmap_returns hh h.table hmax hleaf fun _ => hown).mono ?_)
  rintro - s' ⟨o', ho', hdo, ht, hpte⟩
  rw [if_pos rfl] at ho'
  refine .pure ⟨rfl, o', hdo, ht, fun i hi => ?_, fun b i hb => ?_⟩
  · rw [hpte]
    simp only
    split
    · rfl
    · rw [h.rest i (by omega)]
      exact hX i hi
  · rw [ho', freed_eq_user, h.user] at hb
    obtain ⟨⟨w, hw, -⟩ | ⟨-, hnone⟩, hout⟩ := hb
    · have := (List.getElem?_eq_some_iff.1 hw).1
      omega
    · cases hnone

/-- **What the loop of `uvmcopy` comes to**: the pages that were left are
copied, to pages that were free; or all is given up. -/
def CopyOutcome (k : Symbols) (o : ℕ → Owner) (s : State) (new n : ℕ) (W X : ℕ → ℕ) (f : ℕ → UInt8)
    (ptes : List ℕ) (ok : Bool) (s' : State) : Prop :=
  if ok then ∃ o' l, Takes k (Owner.inSpace new 0) o o' s s' ∧ Space o' s'.mem new (ptes ++ l) f X ∧
    ptes.length + l.length = n ∧ (∀ i w, l[i]? = some w → pteFlags w = pteFlags (W (ptes.length + i))) ∧
    ∀ w ∈ l, o (pte2pa w) = .free
  else ∃ o', GivenUp k o o' s s' new n

/-- **The loop of `uvmcopy`** copies the pages that are left, or gives up. -/
theorem uvmcopyLoop_returns (hsrc : Source o s.mem old new n W f) (hne : old ≠ new)
    (h : Space o s.mem new ptes f X) (hh : Heap k o s) (hn : n ≤ MAXVA / PGSIZE)
    (ht : ptes.length + t = n) (hX : ∀ i, i < n → X i &&& PTE_V = 0) :
    Returns (uvmcopyLoop k old new t (ptes.length * PGSIZE)) s (CopyOutcome k o s new n W X f ptes) := by
  induction t generalizing ptes o s with
  | zero =>
    refine .pure ⟨o, [], (Does.refl hh).takes, by rwa [append_nil], ht, fun i w hw => ?_,
      fun w hw => absurd hw not_mem_nil⟩
    cases hw
  | succ t ih =>
    have hlt : ptes.length < n := by omega
    obtain ⟨hpte, hleaf⟩ := hsrc.leaf _ hlt
    have hperm : pteFlags (W ptes.length) < 1024 := by
      rw [pteFlags_eq]
      exact Nat.mod_lt _ (by decide)
    have hdiv : ptes.length * PGSIZE / PGSIZE = ptes.length := Nat.mul_div_cancel _ (by decide)
    have hva : ptes.length * PGSIZE < MAXVA := by
      simp only [MAXVA, PGSIZE] at hn ⊢
      omega
    have hvalid : pteAt s.mem old (ptes.length * PGSIZE / PGSIZE) &&& PTE_V ≠ 0 := by
      rw [hdiv, hpte]
      exact hleaf.1
    have hlook := look_of_valid hvalid
    obtain ⟨-, hnode⟩ := look_eq_some hlook
    have hentry : entry s.mem (tnode s.mem old 2 (ptes.length * PGSIZE / PGSIZE / 512))
        (ptes.length * PGSIZE / PGSIZE % 512) = W ptes.length := by
      rw [← hpte, hdiv, pteAt, tword_of_ne (by rwa [hdiv] at hnode)]
    have hmono : ∀ w, Owner.inSpace new ptes.length w → Owner.inSpace new 0 w :=
      Owner.inSpace_mono (Nat.zero_le _)
    -- both failures give up what was copied
    have hgive : ∀ {o₁ s₁}, Does k (Owner.inSpace new 0) o o₁ s s₁ →
        Space o₁ s₁.mem new ptes f X →
        Returns (do uvmunmap k new 0 (ptes.length * PGSIZE / PGSIZE) true; return false) s₁
          (CopyOutcome k o s new n W X f ptes) := by
      intro o₁ s₁ hdo h₁
      refine (h₁.giveUp_returns hdo.heap hX).mono ?_
      rintro _ s' ⟨rfl, o', hg⟩
      exact ⟨o', hdo.trans hg.does, hg.table, hg.empty, hg.user⟩
    rw [uvmcopyLoop]
    refine .bind ⟨_, _, walk_read hsrc.table hva, ?_⟩
    simp only [hlook, getPte, Returns.gets_bind_iff, hentry, hleaf.1, ↓reduceIte]
    refine .bind ((h.kalloc_returns hh).mono ?_)
    rintro page s₁ ⟨o₁, hdo₁, ⟨rfl, h₁⟩ | ⟨h0, hfree, h₁⟩⟩
    · rw [if_pos rfl]
      exact hgive (hdo₁.toDoes.mono hmono) h₁
    rw [if_neg h0, Returns.gets_bind_iff]
    have hsrc₁ := hsrc.frame (hdo₁.frame.mono hmono) hne
    refine .bind ((h₁.write_returns hdo₁.heap fun _ => s₁.mem (pte2pa (W ptes.length))).mono ?_)
    rintro - s₂ ⟨hdo₂, h₂, hpage⟩
    refine .bind ((h₂.mappages_returns hdo₂.heap (hX _ hlt) hperm ?_ ?_).mono ?_)
    · rw [pteFlags_or_valid hleaf]
      exact hleaf.2
    · intro j hj
      rw [hpage]
      exact hsrc₁.byte _ hlt j hj
    rintro mapped s₃ ⟨o₃, hdo₃, h₃⟩
    have hdo := ((hdo₁.trans hdo₂.takes).trans hdo₃).mono hmono
    cases mapped with
    | false =>
      refine .bind ((h₃.kfree_returns hdo₃.heap).mono ?_)
      rintro - s₄ ⟨o₄, hdo₄, h₄⟩
      exact hgive (hdo.toDoes.trans (hdo₄.mono hmono)) h₄
    | true =>
      have hpa : pte2pa (pa2pte page ||| pteFlags (W ptes.length)) = page :=
        pte2pa_or (hh.aligned (by rw [hfree]; exact Owner.noConfusion)) hperm
      have hfl : pteFlags (pa2pte page ||| pteFlags (W ptes.length)) = pteFlags (W ptes.length) :=
        pteFlags_or hperm
      rw [if_pos rfl, pteFlags_or_valid hleaf] at h₃
      generalize pa2pte page ||| pteFlags (W ptes.length) = w at h₃ hpa hfl
      have hlen : (ptes ++ [w]).length = ptes.length + 1 := by simp
      have hnext : ptes.length * PGSIZE + PGSIZE = (ptes ++ [w]).length * PGSIZE := by
        rw [hlen, Nat.succ_mul]
      rw [hnext]
      refine (ih (hsrc.frame hdo.frame hne) h₃ hdo₃.heap (by omega)).mono ?_
      intro ok s' hpost
      cases ok with
      | true =>
        obtain ⟨o', l, hdo', h', hlen', hflags, hall⟩ := hpost
        rw [append_assoc] at h'
        refine ⟨o', w :: l, hdo.trans hdo', h', by simp only [length_cons]; omega,
          fun i v hv => ?_, fun v hv => ?_⟩
        · cases i with
          | zero =>
            cases hv
            exact hfl
          | succ i =>
            rw [hflags i v hv, hlen, Nat.add_assoc, Nat.add_comm 1 i]
        · rcases mem_cons.1 hv with rfl | hv
          · rw [hpa]
            exact hfree
          · exact hdo.free _ (hall v hv)
      | false =>
        obtain ⟨o', hg⟩ := hpost
        exact ⟨o', hdo.toDoes.trans hg.does, hg.table, hg.empty, hg.user⟩

/-- **What a copy is**: for each page of the parent the child maps a page of
its own that was free, with the same flags and the same contents, and
nothing else is new in its table. -/
structure Copied (o : ℕ → Owner) (s s' : State) (old new n : ℕ) : Prop where
  valid : ∀ i, i < n → pteAt s'.mem new i &&& PTE_V ≠ 0
  fresh : ∀ i, i < n → o (pte2pa (pteAt s'.mem new i)) = .free
  apart : ∀ i j, i < n → j < n →
    pte2pa (pteAt s'.mem new i) = pte2pa (pteAt s'.mem new j) → i = j
  flags : ∀ i, i < n → pteFlags (pteAt s'.mem new i) = pteFlags (pteAt s.mem old i)
  contents : ∀ i, i < n → s'.mem (pte2pa (pteAt s'.mem new i)) = s.mem (pte2pa (pteAt s.mem old i))
  rest : ∀ i, n ≤ i → pteAt s'.mem new i = pteAt s.mem new i

/-- **No page is left of the child**: below its size nothing is mapped, and
every page that was free is free again or a page of its table. -/
structure NotCopied (s s' : State) (new n : ℕ) : Prop where
  empty : ∀ i, i < n → pteAt s'.mem new i &&& PTE_V = 0
  free : ∃ l l', Threaded (next s.mem) s.freelist l ∧ Threaded (next s'.mem) s'.freelist l' ∧
    ∀ b, b ∈ l → b ∈ l' ∨ ∃ d i, d ≤ 2 ∧ tnode s'.mem new d i = b

theorem GivenUp.notCopied (h : GivenUp k o o' s s' new n) (hh : Heap k o s) :
    NotCopied s s' new n := by
  obtain ⟨l, hl, -, hmem⟩ := hh.chain
  obtain ⟨l', hl', -, hmem'⟩ := h.does.heap.chain
  refine ⟨h.empty, l, l', hl, hl', fun b hb => ?_⟩
  have hregion := h.does.frame.region b (by rw [(hmem b).1 hb]; trivial)
  cases hown : o' b with
  | free => exact .inl ((hmem' b).2 hown)
  | table r d i =>
    rw [hown] at hregion
    obtain rfl : r = new := hregion
    obtain ⟨hd, hnode, -⟩ := (h.table.pages d i b).1 hown
    exact .inr ⟨d, i, hd, hnode⟩
  | user r i =>
    rw [hown] at hregion
    obtain ⟨rfl, -⟩ := hregion
    exact absurd hown (h.user b i)
  | _ =>
    rw [hown] at hregion
    exact hregion.elim

/-- **`uvmcopy` copies memory exactly**, or leaves no page of it in the
child; either way the parent is as it was. -/
theorem uvmcopy_exact {sz : ℕ} (hh : Heap k o s) (hold : Table o s.mem old) (hnew : Table o s.mem new)
    (hne : old ≠ new) (hsz : pages sz * PGSIZE ≤ MAXVA)
    (hmapped : ∀ i, i < pages sz → Leaf (pteAt s.mem old i))
    (hpages : ∀ i, i < pages sz → ¬ Owner.inSpace new 0 (o (pte2pa (pteAt s.mem old i))))
    (hempty : ∀ i, i < pages sz → pteAt s.mem new i &&& PTE_V = 0)
    (huser : ∀ b i, o b ≠ .user new i) :
    Returns (uvmcopy k old new sz) s fun ok s' =>
      pteAt s'.mem old = pteAt s.mem old ∧
      (∀ i, i < pages sz → s'.mem (pte2pa (pteAt s.mem old i)) = s.mem (pte2pa (pteAt s.mem old i))) ∧
      if ok then Copied o s s' old new (pages sz) else NotCopied s s' new (pages sz) := by
  generalize hf : (fun x => (s.mem (pte2pa (pteAt s.mem old (x / PGSIZE)))).get (x % PGSIZE)) = f
  have hbyte : ∀ i j, j < PGSIZE → (s.mem (pte2pa (pteAt s.mem old i))).get j = f (i * PGSIZE + j) := by
    intro i j hj
    have hdiv : (i * PGSIZE + j) / PGSIZE = i := by
      simp only [PGSIZE] at hj ⊢
      omega
    have hmod : (i * PGSIZE + j) % PGSIZE = j := by
      simp only [PGSIZE] at hj ⊢
      omega
    rw [← hf]
    simp only [hdiv, hmod]
  have hsrc : Source o s.mem old new (pages sz) (pteAt s.mem old) f :=
    ⟨hold, fun i hi => ⟨rfl, hmapped i hi⟩, fun i _ j hj => hbyte i j hj, hpages⟩
  have hchild : Space o s.mem new [] f (pteAt s.mem new) :=
    ⟨hnew, fun b i => by simp [huser b i], by simp, by simp, fun _ _ => rfl⟩
  have hmax : pages sz ≤ MAXVA / PGSIZE := by
    simp only [MAXVA, PGSIZE] at hsz ⊢
    omega
  have hout : ∀ d i, ¬ Owner.inSpace new 0 (.table old d i) := fun _ _ => hne
  refine (uvmcopyLoop_returns hsrc hne hchild hh hmax (Nat.zero_add _) hempty).mono ?_
  intro ok s' hpost
  cases ok with
  | false =>
    obtain ⟨o', hg⟩ := hpost
    exact ⟨hold.pteAt_frame hg.does.frame hout, fun i hi => hg.does.frame.mem _ (hpages i hi),
      hg.notCopied hh⟩
  | true =>
    obtain ⟨o', l, hdo, h', hlen, hflags, hfree⟩ := hpost
    rw [nil_append] at h'
    rw [length_nil, Nat.zero_add] at hlen
    have hentry : ∀ i, i < pages sz → ∃ w, l[i]? = some w ∧ pteAt s'.mem new i = w := by
      intro i hi
      have hw := getElem?_eq_getElem (by omega : i < l.length)
      exact ⟨_, hw, (h'.leaf i _ hw).1⟩
    refine ⟨hold.pteAt_frame hdo.frame hout, fun i hi => hdo.frame.mem _ (hpages i hi), ?_⟩
    refine ⟨fun i hi => ?_, fun i hi => ?_, fun i j hi hj heq => ?_, fun i hi => ?_, fun i hi => ?_,
      fun i hi => h'.rest i (by omega)⟩
    · obtain ⟨w, hw, hpte⟩ := hentry i hi
      rw [hpte]
      exact (h'.leaf i w hw).2.1
    · obtain ⟨w, hw, hpte⟩ := hentry i hi
      rw [hpte]
      exact hfree w (mem_of_getElem? hw)
    · obtain ⟨v, hv, hpv⟩ := hentry i hi
      obtain ⟨w, hw, hpw⟩ := hentry j hj
      have hown := h'.own hv
      rw [hpv, hpw] at heq
      rw [heq, h'.own hw] at hown
      injection hown with _ hij
      exact hij.symm
    · obtain ⟨w, hw, hpte⟩ := hentry i hi
      have := hflags i w hw
      rwa [hpte, ← Nat.zero_add i]
    · obtain ⟨w, hw, hpte⟩ := hentry i hi
      rw [hpte]
      refine Bytes.ext_get fun j hj => ?_
      rw [h'.byte i w hw j hj, hbyte i j hj]

/-- The first process is copied to an empty address space. -/
theorem uvmcopy_exact_small : ∃ o s old new sz, Heap smallKernel o s ∧ Table o s.mem old ∧
    Table o s.mem new ∧ old ≠ new ∧ pages sz = 1 ∧ Leaf (pteAt s.mem old 0) ∧
    Returns (uvmcopy smallKernel old new sz) s fun ok s' =>
      pteAt s'.mem old = pteAt s.mem old ∧
      (∀ i, i < pages sz → s'.mem (pte2pa (pteAt s.mem old i)) = s.mem (pte2pa (pteAt s.mem old i))) ∧
      if ok then Copied o s s' old new (pages sz) else NotCopied s s' new (pages sz) := by
  obtain ⟨o, h⟩ := smallMachine_ready
  obtain ⟨ptes, f, hspace, hlen⟩ := h.space
  have hone : pages (smallMachine.proc initproc).sz = 1 := by decide +kernel
  obtain ⟨new, s₁, hrun, hnew⟩ : Returns uvmcreate smallMachine fun r _ => decide (r = 0) = false :=
    .of_run (by decide +kernel)
  obtain ⟨rfl, -⟩ | ⟨-, hun, o₁, hdo, hchild⟩ := (uvmcreate_returns (f := f) h.heap h.rooted).ok hrun
  · cases hnew
  have hne : (smallMachine.proc initproc).pagetable ≠ new := by
    rintro rfl
    exact hun.table _ 0 0 hspace.table.own_root
  have hold := hspace.frame hdo.frame (fun _ _ h => hne h) fun _ h => hne h.1
  have hleaf : ∀ i, i < pages (smallMachine.proc initproc).sz →
      ∃ w, ptes[i]? = some w ∧ pteAt s₁.mem (smallMachine.proc initproc).pagetable i = w ∧ Leaf w := by
    intro i hi
    have hw := getElem?_eq_getElem (by omega : i < ptes.length)
    exact ⟨_, hw, hold.leaf i _ hw⟩
  have hmapped : ∀ i, i < pages (smallMachine.proc initproc).sz →
      Leaf (pteAt s₁.mem (smallMachine.proc initproc).pagetable i) := by
    intro i hi
    obtain ⟨w, -, hpte, hl⟩ := hleaf i hi
    rwa [hpte]
  refine ⟨o₁, s₁, _, new, _, hdo.heap, hold.table, hchild.table, hne, hone, hmapped 0 (by omega),
    uvmcopy_exact hdo.heap hold.table hchild.table hne ?_ hmapped (fun i hi => ?_) (fun i _ => ?_)
      fun b i hb => ?_⟩
  · rw [hone]
    decide
  · obtain ⟨w, hw, hpte, -⟩ := hleaf i hi
    rw [hpte, hold.own hw]
    exact fun h => hne h.1
  · rw [hchild.rest i (Nat.zero_le _), Nat.zero_and]
  · rw [hchild.user] at hb
    simp at hb

end Vm

end Xv6
