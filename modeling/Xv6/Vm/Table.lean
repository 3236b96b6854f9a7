import Xv6.Vm.Heap
/-!
# Walking, mapping and unmapping

`Table` says that the pages of a page table are those its entries lead to,
each at one place. `walk` adds pages and changes no entry for a page of
memory; `mappages` sets one such entry, and `uvmunmap` clears them.
-/

namespace Xv6

open Common Function

namespace Vm

variable {k : Symbols} {o o' : ℕ → Owner} {s s' : State} {P : Owner → Prop} {mem mem' : ℕ → Page}
  {r d i n w va b : ℕ}

/-- **The pages of a page table** are those its entries lead to, and the
entries that lead to them have no other flag than `PTE_V`. -/
structure Table (o : ℕ → Owner) (mem : ℕ → Page) (r : ℕ) : Prop where
  root : r ≠ 0
  pages : ∀ d i b, o b = .table r d i ↔ d ≤ 2 ∧ tnode mem r d i = b ∧ b ≠ 0
  links : ∀ d i, d < 2 → tword mem r d i &&& PTE_V ≠ 0 →
    pteFlags (tword mem r d i) = PTE_V ∧ pte2pa (tword mem r d i) ≠ 0

namespace Table

section

variable (h : Table o mem r)
include h

theorem own (hd : d ≤ 2) (hn : tnode mem r d i ≠ 0) :
    o (tnode mem r d i) = .table r d i := (h.pages d i _).2 ⟨hd, rfl, hn⟩

theorem own_root : o r = .table r 0 0 :=
  (h.pages 0 0 r).2 ⟨Nat.zero_le 2, rfl, h.root⟩

theorem apart : Radix.Apart 512 child (entry mem) r 2 := by
  intro d d' i i' hd hd' hn heq
  have h1 := h.own hd hn
  have h2 : o (tnode mem r d' i') = .table r d' i' := h.own hd' (by rwa [tnode, ← heq])
  rw [tnode, heq] at h1
  rw [tnode, h1] at h2
  injection h2 with _ h3 h4
  exact ⟨h3, h4⟩

theorem child_ne (hd : d < 2) (hv : tword mem r d i &&& PTE_V ≠ 0) : tnode mem r (d + 1) i ≠ 0 := by
  rw [tnode_succ, child_of_valid hv]
  exact (h.links d i hd hv).2

section

variable (hm : ∀ b d i, o b = .table r d i → mem' b = mem b)
include hm

/-- Who leaves the pages of a table alone leaves the table alone. -/
theorem tword_congr (hd : d ≤ 2) (i : ℕ) : tword mem' r d i = tword mem r d i :=
  Radix.word_congr (fun _ _ hd hn => entry_congr (hm _ _ _ (h.own hd hn))) hd i

theorem tnode_congr (hd : d ≤ 2) (i : ℕ) : tnode mem' r d i = tnode mem r d i :=
  Radix.node_congr (fun _ _ hd hn => entry_congr (hm _ _ _ (h.own hd.le hn))) hd i

theorem congr (ho : ∀ b d i, o' b = .table r d i ↔ o b = .table r d i) : Table o' mem' r := by
  refine ⟨h.root, fun d i b => ?_, fun d i hd => ?_⟩
  · rw [ho, h.pages]
    refine and_congr_right fun hd => ?_
    rw [h.tnode_congr hm hd]
  · rw [h.tword_congr hm (by omega)]
    exact h.links d i hd

end

/-- **The frame rule for page tables.** -/
theorem frame (hf : Frame P o o' mem mem') (hP : ∀ d i, ¬ P (.table r d i)) : Table o' mem' r :=
  h.congr (fun _ d i hb => hf.mem_of_own (hP d i) hb) fun _ d i => hf.own_iff (hP d i)

theorem pteAt_frame (hf : Frame P o o' mem mem')
    (hP : ∀ d i, ¬ P (.table r d i)) : pteAt mem' r = pteAt mem r :=
  funext fun i => h.tword_congr (fun _ d i hb => hf.mem_of_own (hP d i) hb) le_rfl i

end

/-- One entry of one page is written. -/
theorem entry_of_ne {p a j : ℕ} (hpage : mem' p = (mem p).writeLE (8 * i) 8 w)
    (hmem : a ≠ p → mem' a = mem a) (h : a ≠ p ∨ j ≠ i) : entry mem' a j = entry mem a j := by
  by_cases ha : a = p
  · subst ha
    exact entry_written_of_ne hpage (h.resolve_left fun h => h rfl)
  · exact entry_congr (hmem ha) j

/-- **The entry for a page of memory is written.** -/
theorem set (h : Table o mem r) (hn : tnode mem r 2 (i / 512) ≠ 0) (hw : w < 2 ^ 64)
    (hm : mem' = update mem (tnode mem r 2 (i / 512))
      ((mem (tnode mem r 2 (i / 512))).writeLE (8 * (i % 512)) 8 w)) :
    Table o mem' r ∧ pteAt mem' r = update (pteAt mem r) i w := by
  have hpage : mem' (tnode mem r 2 (i / 512)) =
      (mem (tnode mem r 2 (i / 512))).writeLE (8 * (i % 512)) 8 w := by rw [hm, update_self]
  have hE : ∀ a j, a ≠ tnode mem r 2 (i / 512) ∨ j ≠ i % 512 → entry mem' a j = entry mem a j :=
    fun a j haj => entry_of_ne hpage (fun ha => by rw [hm, update_of_ne ha]) haj
  have hnode : ∀ d i, d ≤ 2 → tnode mem' r d i = tnode mem r d i := fun d i hd =>
    Radix.node_set h.apart le_rfl hE hd i
  have hword : ∀ d i, d < 2 → tword mem' r d i = tword mem r d i := fun d i hd =>
    Radix.word_set_above h.apart le_rfl hE hd i
  refine ⟨⟨h.root, fun d i b => ?_, fun d i hd => ?_⟩, funext fun i' => ?_⟩
  · rw [h.pages]
    refine and_congr_right fun hd => ?_
    rw [hnode d i hd]
  · rw [hword d i hd]
    exact h.links d i hd
  · rw [update_apply]
    exact Radix.word_set h.apart le_rfl hn (entry_written hpage (Nat.mod_lt _ (by decide)) hw) hE i'

/-- **A page is hung in.** -/
theorem link (h : Table o mem r) (hd : d < 2) (hp : tnode mem r d (i / 512) ≠ 0)
    (hv : tword mem r d i &&& PTE_V = 0) (hn : o n = .free) (hn0 : n ≠ 0) (hal : n % PGSIZE = 0)
    (hlt : n < 2 ^ 56) (hzero : mem' n = fun _ => 0)
    (hpage : mem' (tnode mem r d (i / 512)) =
      (mem (tnode mem r d (i / 512))).writeLE (8 * (i % 512)) 8 (pa2pte n ||| PTE_V))
    (hmem : ∀ b, b ≠ n → b ≠ tnode mem r d (i / 512) → mem' b = mem b) :
    Table (update o n (.table r (d + 1) i)) mem' r ∧ pteAt mem' r = pteAt mem r ∧
      tnode mem' r (d + 1) i = n := by
  have hne : ∀ d i, d ≤ 2 → tnode mem r d i ≠ n := by
    rintro d i hd rfl
    rw [h.own hd hn0] at hn
    cases hn
  have hv' : (pa2pte n ||| PTE_V) &&& PTE_V ≠ 0 := by
    rw [← and_pteFlags rfl, pteFlags_or (by decide)]
    decide
  have hw : entry mem' (tnode mem r d (i / 512)) (i % 512) = pa2pte n ||| PTE_V :=
    entry_written hpage (Nat.mod_lt _ (by decide)) (pa2pte_or_lt hlt (by decide))
  have hchild : child (pa2pte n ||| PTE_V) = n := by
    rw [child_of_valid hv', pte2pa_or hal (by decide)]
  have hlink : Radix.Link 512 child (entry mem) (entry mem') r 2 d i (pa2pte n ||| PTE_V) n :=
    ⟨child_zero, h.apart, hd.le, hp, child_of_invalid hv, hw, hchild, hn0, entry_zero hzero, hne,
      fun a j han haj => entry_of_ne hpage (hmem a han) haj⟩
  have hnode := fun d' (hd' : d' ≤ 2) => hlink.node_eq hd'
  have hword := fun d' (hd' : d' ≤ 2) => hlink.word_eq hd'
  refine ⟨⟨h.root, fun d' i' b => ?_, fun d' i' hd' => ?_⟩, funext fun i' => ?_, ?_⟩
  · by_cases hbn : b = n
    · subst hbn
      rw [update_self]
      constructor
      · intro heq
        injection heq with _ h1 h2
        subst h1 h2
        exact ⟨hd, by rw [tnode, hnode _ hd, if_pos ⟨rfl, rfl⟩], hn0⟩
      · rintro ⟨hd', heq, -⟩
        rw [tnode, hnode d' hd'] at heq
        by_cases hat : d' = d + 1 ∧ i' = i
        · rw [hat.1, hat.2]
        · rw [if_neg hat] at heq
          exact absurd heq (hne d' i' hd')
    · rw [update_of_ne hbn, h.pages]
      refine and_congr_right fun hd' => ?_
      rw [tnode, tnode, hnode d' hd']
      by_cases hat : d' = d + 1 ∧ i' = i
      · rw [if_pos hat, hat.1, hat.2]
        have hnone : tnode mem r (d + 1) i = 0 := by rw [tnode_succ, child_of_invalid hv]
        rw [show Radix.node 512 child (entry mem) r (d + 1) i = 0 from hnone]
        constructor
        · rintro ⟨rfl, h0⟩
          exact absurd rfl h0
        · rintro ⟨rfl, -⟩
          exact absurd rfl hbn
      · rw [if_neg hat]
  · rw [tword, hword d' (by omega)]
    by_cases hat : d' = d ∧ i' = i
    · rw [if_pos hat, pteFlags_or (by decide), pte2pa_or hal (by decide)]
      exact fun _ => ⟨rfl, hn0⟩
    · rw [if_neg hat]
      exact h.links d' i' hd'
  · rw [pteAt, tword, hword 2 le_rfl, if_neg (by omega)]
    rfl
  · rw [tnode, hnode _ hd, if_pos ⟨rfl, rfl⟩]

end Table

/-! ## `walk` -/

/-- The entry that `walk` looks at. -/
theorem entry_px {va level : ℕ} (hn : tnode s.mem r d (vidx (level + 1) va) ≠ 0) :
    entry s.mem (tnode s.mem r d (vidx (level + 1) va)) (px level va) =
      tword s.mem r d (vidx level va) := by
  rw [vidx_succ level] at hn ⊢
  rw [tword_of_ne hn, px_eq]

theorem tnode_root (mem : ℕ → Page) (r : ℕ) (hva : va < MAXVA) : tnode mem r 0 (vidx 3 va) = r := by
  rw [vidx_three (hva.trans (by decide))]
  rfl

theorem walkFrom_read (h : Table o s.mem r) (va level : ℕ) (hd : d + level = 2)
    (hn : tnode s.mem r d (vidx (level + 1) va) ≠ 0) :
    walkFrom va false level (tnode s.mem r d (vidx (level + 1) va)) s = .ok (look s.mem r va, s) := by
  induction level generalizing d with
  | zero =>
    obtain rfl : d = 2 := by omega
    rw [vidx_succ, vidx_zero] at hn ⊢
    rw [walkFrom, look, if_neg hn, px_eq, vidx_zero]
    rfl
  | succ level ih =>
    simp only [walkFrom, getPte, Prog.gets_bind, entry_px hn]
    by_cases hv : tword s.mem r d (vidx (level + 1) va) &&& PTE_V = 0
    · have hnone : tnode s.mem r (d + 1) (vidx (level + 1) va) = 0 := by
        rw [tnode_succ, child_of_invalid hv]
      rw [if_neg (not_not.2 hv), look, if_pos (tnode_eq_zero (by omega) hnone)]
      rfl
    · rw [if_pos hv, ← child_of_valid hv, ← tnode_succ]
      exact ih (by omega) (h.child_ne (by omega) hv)

/-- **`walk` without allocating** only looks. -/
theorem walk_read (h : Table o s.mem r) (hva : va < MAXVA) :
    walk r va false s = .ok (look s.mem r va, s) := by
  have hroot := tnode_root s.mem r hva
  have hread := walkFrom_read h va 2 (d := 0) rfl (by rw [hroot]; exact h.root)
  rw [hroot] at hread
  rw [walk, if_neg (by omega)]
  exact hread

/-- **`walk` with allocating**: pages may be added to the table, and no
entry for a page of memory changes. -/
theorem walkFrom_alloc (hh : Heap k o s) (h : Table o s.mem r) (va level : ℕ) (hd : d + level = 2)
    (hn : tnode s.mem r d (vidx (level + 1) va) ≠ 0) :
    Returns (walkFrom va true level (tnode s.mem r d (vidx (level + 1) va))) s fun ptr s' =>
      ∃ o', Takes k (Owner.inTable r) o o' s s' ∧ Table o' s'.mem r ∧
        pteAt s'.mem r = pteAt s.mem r ∧ (ptr = none ∨ ptr = look s'.mem r va) := by
  induction level generalizing d o s with
  | zero =>
    refine ⟨_, s, walkFrom_read h va 0 hd hn, o, (Does.refl hh).takes, h, rfl, .inr rfl⟩
  | succ level ih =>
    simp only [walkFrom, getPte, Returns.gets_bind_iff, entry_px hn]
    by_cases hv : tword s.mem r d (vidx (level + 1) va) &&& PTE_V = 0
    · simp only [hv, ne_eq, not_true_eq_false, ↓reduceIte]
      refine .bind ((kalloc_returns (P := fun _ => Owner.inTable r) hh
        (fun _ => .table r (d + 1) (vidx (level + 1) va)) (fun _ => Owner.used_table ..)
        (fun _ => trivial) fun _ => rfl).mono ?_)
      rintro page s₁ (⟨rfl, hdo, hmem⟩ | ⟨hp0, hfree, hdo, hmem⟩)
      · rw [if_pos rfl]
        exact .pure ⟨o, (hdo _).takes, hmem ▸ h, by rw [hmem], .inl rfl⟩
      have hout : o page ≠ .outside := by
        rw [hfree]
        exact Owner.noConfusion
      rw [if_neg hp0]
      rw [vidx_succ (level + 1)] at hn ⊢
      generalize hp : tnode s.mem r d (vidx (level + 1) va / 512) = p at *
      have hpar : o p = .table r d (vidx (level + 1) va / 512) := hp ▸ h.own (by omega) (hp ▸ hn)
      have hpp : p ≠ page := by
        rintro rfl
        rw [hfree] at hpar
        cases hpar
      -- the page is cleared and hung in
      have hdo := hdo.takes_update Owner.noConfusion
      generalize ho₁ : update o page (.table r (d + 1) (vidx (level + 1) va)) = o₁ at hdo
      have hpage₁ : o₁ page = .table r (d + 1) (vidx (level + 1) va) := by rw [← ho₁, update_self]
      have hp₁ : o₁ p = .table r d (vidx (level + 1) va / 512) := by
        rw [← ho₁, update_of_ne hpp, hpar]
      refine .bind ((modify_page (P := Owner.inTable r) hdo.heap hpage₁ (Owner.used_table ..) rfl
        fun _ _ => 0).mono ?_)
      rintro - s₂ ⟨hdo₂, hmem₂⟩
      refine .bind ((modify_page (P := Owner.inTable r) hdo₂.heap hp₁ (Owner.used_table ..) rfl
        fun q => q.writeLE (8 * px (level + 1) va) 8 (pa2pte page ||| PTE_V)).mono ?_)
      rintro - s₃ ⟨hdo₃, hmem₃⟩
      have hzero : s₃.mem page = fun _ => 0 := by
        rw [hmem₃, update_of_ne hpp.symm, hmem₂, update_self]
      have hlink : s₃.mem (tnode s.mem r d (vidx (level + 1) va / 512)) =
          (s.mem (tnode s.mem r d (vidx (level + 1) va / 512))).writeLE
            (8 * (vidx (level + 1) va % 512)) 8 (pa2pte page ||| PTE_V) := by
        rw [hp, hmem₃, update_self, hmem₂, update_of_ne hpp, hmem p hpp, px_eq]
      obtain ⟨ht, hpte, hnode⟩ := h.link (by omega) (by rw [hp]; exact hn) hv hfree hp0
        (hh.aligned hout) (hh.lt hout) hzero hlink fun b hb hb' => by
          rw [hp] at hb'
          rw [hmem₃, update_of_ne hb', hmem₂, update_of_ne hb, hmem b hb]
      rw [ho₁] at ht
      have hrest := ih hdo₃.heap ht (d := d + 1) (by omega) (by rw [hnode]; exact hp0)
      rw [hnode] at hrest
      refine hrest.mono ?_
      rintro ptr s' ⟨o', hdo', ht', hpte', hptr⟩
      exact ⟨o', ((hdo.trans hdo₂.takes).trans hdo₃.takes).trans hdo', ht', hpte'.trans hpte, hptr⟩
    · rw [if_pos hv, ← child_of_valid hv, ← tnode_succ]
      exact ih hh h (by omega) (h.child_ne (by omega) hv)

theorem walk_alloc (hh : Heap k o s) (h : Table o s.mem r) (hva : va < MAXVA) :
    Returns (walk r va true) s fun ptr s' =>
      ∃ o', Takes k (Owner.inTable r) o o' s s' ∧ Table o' s'.mem r ∧
        pteAt s'.mem r = pteAt s.mem r ∧ (ptr = none ∨ ptr = look s'.mem r va) := by
  have hroot := tnode_root s.mem r hva
  have hwalk := walkFrom_alloc hh h va 2 (d := 0) rfl
    (by rw [hroot]; exact h.root)
  rw [hroot] at hwalk
  rw [walk, if_neg (by omega)]
  exact hwalk

theorem look_eq_some {x : ℕ × ℕ} (h : look mem r va = some x) :
    x = (tnode mem r 2 (va / PGSIZE / 512), va / PGSIZE % 512) ∧
      tnode mem r 2 (va / PGSIZE / 512) ≠ 0 := by
  rw [look] at h
  split at h
  · cases h
  · rename_i hn
    cases h
    exact ⟨rfl, hn⟩

/-- A valid entry is somewhere. -/
theorem look_of_valid (h : pteAt mem r (va / PGSIZE) &&& PTE_V ≠ 0) :
    look mem r va = some (tnode mem r 2 (va / PGSIZE / 512), va / PGSIZE % 512) := by
  rw [look, if_neg]
  intro hn
  rw [pteAt, tword_of_eq hn] at h
  exact h rfl

/-! ## `walkaddr` -/

/-- The entry maps a page for the user. -/
def UserPte (w : ℕ) : Prop := w &&& PTE_V ≠ 0 ∧ w &&& PTE_U ≠ 0

instance (w : ℕ) : Decidable (UserPte w) := inferInstanceAs (Decidable (_ ∧ _))

/-- What `walkaddr` finds. -/
def userPa (mem : ℕ → Page) (r va : ℕ) : ℕ :=
  if va < MAXVA ∧ UserPte (pteAt mem r (va / PGSIZE)) then pte2pa (pteAt mem r (va / PGSIZE)) else 0

/-- **`walkaddr`** only looks. -/
theorem walkaddr_eq (h : Table o s.mem r) (va : ℕ) : walkaddr r va s = .ok (userPa s.mem r va, s) := by
  rw [walkaddr, userPa]
  by_cases hva : MAXVA ≤ va
  · rw [if_pos hva, if_neg (by omega)]
    rfl
  rw [if_neg hva, Prog.bind_run, walk_read h (by omega)]
  simp only [Except.bind]
  by_cases hn : tnode s.mem r 2 (va / PGSIZE / 512) = 0
  · have hnot : ¬ UserPte (pteAt s.mem r (va / PGSIZE)) := by
      rw [pteAt, tword_of_eq hn]
      decide
    rw [look, if_pos hn, if_neg fun hc => hnot hc.2]
    rfl
  · have hentry : entry s.mem (tnode s.mem r 2 (va / PGSIZE / 512)) (va / PGSIZE % 512) =
        pteAt s.mem r (va / PGSIZE) := by
      rw [pteAt, tword_of_ne hn]
    simp only [look, if_neg hn, getPte, Prog.gets_bind, hentry]
    by_cases hv : pteAt s.mem r (va / PGSIZE) &&& PTE_V = 0
    · rw [if_pos hv, if_neg fun hc => hc.2.1 hv]
      rfl
    rw [if_neg hv]
    by_cases hu : pteAt s.mem r (va / PGSIZE) &&& PTE_U = 0
    · rw [if_pos hu, if_neg fun hc => hc.2.2 hu]
      rfl
    rw [if_neg hu, if_pos ⟨by omega, hv, hu⟩]
    rfl

/-! ## `mappages` -/

/-- The entry of `va` is set, if there is memory for the page table. -/
theorem mapPage_returns {pa perm : ℕ} {c : Kern State Bool} {Q : Bool → State → Prop}
    (hh : Heap k o s) (h : Table o s.mem r) (hva : va < MAXVA)
    (hv : pteAt s.mem r (va / PGSIZE) &&& PTE_V = 0) (hw : pa2pte pa ||| perm ||| PTE_V < 2 ^ 64)
    (hnone : ∀ o₁ s₁, Takes k (Owner.inTable r) o o₁ s s₁ → Table o₁ s₁.mem r →
      pteAt s₁.mem r = pteAt s.mem r → Q false s₁)
    (hsome : ∀ o₁ s₁, Takes k (Owner.inTable r) o o₁ s s₁ → Table o₁ s₁.mem r →
      pteAt s₁.mem r = update (pteAt s.mem r) (va / PGSIZE) (pa2pte pa ||| perm ||| PTE_V) →
      Returns c s₁ Q) :
    Returns (do
      match ← walk r va true with
      | none => return false
      | some (page, i) =>
        let pte ← getPte page i
        if pte &&& PTE_V ≠ 0 then Prog.stop .remap
        setPte page i (pa2pte pa ||| perm ||| PTE_V)
        c) s Q := by
  refine .bind ((walk_alloc hh h hva).mono ?_)
  rintro ptr s₁ ⟨o₁, hdo, ht, hpte, hptr⟩
  cases hx : ptr with
  | none => exact .pure (hnone o₁ s₁ hdo ht hpte)
  | some x =>
    obtain ⟨rfl, hn⟩ := look_eq_some ((hptr.resolve_left (by simp [hx])).symm.trans hx)
    have hentry : entry s₁.mem (tnode s₁.mem r 2 (va / PGSIZE / 512)) (va / PGSIZE % 512) =
        pteAt s.mem r (va / PGSIZE) := by
      rw [← hpte, pteAt, tword_of_ne hn]
    simp only [getPte, Returns.gets_bind_iff, hentry, hv, ne_eq, not_true_eq_false, ↓reduceIte]
    refine .bind ((modify_page (P := Owner.inTable r) hdo.heap (ht.own le_rfl hn)
      (Owner.used_table ..) rfl fun q => q.writeLE (8 * (va / PGSIZE % 512)) 8
        (pa2pte pa ||| perm ||| PTE_V)).mono ?_)
    rintro - s₂ ⟨hdo₂, hmem₂⟩
    obtain ⟨ht₂, hpte₂⟩ := ht.set hn hw hmem₂
    exact hsome o₁ s₂ (hdo.trans hdo₂.takes) ht₂ (by rw [hpte₂, hpte])

/-- **The loop of `mappages`** sets the entries of a number of pages, of all
if it returns 0. -/
theorem mappagesLoop_returns {i n pa perm : ℕ} (hh : Heap k o s) (h : Table o s.mem r) (hn : 0 < n)
    (hmax : i + n ≤ MAXVA / PGSIZE)
    (hv : ∀ j, i ≤ j → j < i + n → pteAt s.mem r j &&& PTE_V = 0)
    (hw : ∀ j, j < n → pa2pte (pa + j * PGSIZE) ||| perm ||| PTE_V < 2 ^ 64) :
    Returns (mappagesLoop r perm n (i * PGSIZE) pa) s fun ok s' =>
      ∃ o' m, Takes k (Owner.inTable r) o o' s s' ∧ Table o' s'.mem r ∧ m ≤ n ∧ (ok ↔ m = n) ∧
        pteAt s'.mem r = fun j => if i ≤ j ∧ j < i + m then
          pa2pte (pa + (j - i) * PGSIZE) ||| perm ||| PTE_V else pteAt s.mem r j := by
  induction n generalizing i pa o s with
  | zero => omega
  | succ n ih =>
    have hdiv : i * PGSIZE / PGSIZE = i := Nat.mul_div_cancel _ (by decide)
    have hva : i * PGSIZE < MAXVA := by
      simp only [PGSIZE, MAXVA] at hmax ⊢
      omega
    have hnext : i * PGSIZE + PGSIZE = (i + 1) * PGSIZE := (Nat.succ_mul i PGSIZE).symm
    rw [mappagesLoop]
    refine mapPage_returns hh h hva (by rw [hdiv]; exact hv i le_rfl (by omega))
      (by simpa using hw 0 (by omega)) (fun o₁ s₁ hdo ht hpte => ?_) fun o₁ s₁ hdo ht hpte => ?_
    · refine ⟨o₁, 0, hdo, ht, Nat.zero_le _, by simp, ?_⟩
      rw [hpte]
      funext j
      rw [if_neg (by omega)]
    rw [hdiv] at hpte
    by_cases h0 : n = 0
    · subst h0
      rw [if_pos rfl]
      refine .pure ⟨o₁, 1, hdo, ht, le_rfl, by simp, ?_⟩
      rw [hpte]
      funext j
      by_cases hj : j = i
      · rw [hj, update_self, if_pos (by omega), Nat.sub_self, Nat.zero_mul, Nat.add_zero]
      · rw [update_of_ne hj, if_neg (by omega)]
    · rw [if_neg h0, hnext]
      refine (ih hdo.heap ht (by omega) (by omega) (fun j h1 h2 => ?_) fun j hj => ?_).mono ?_
      · rw [hpte, update_of_ne (by omega)]
        exact hv j (by omega) (by omega)
      · have := hw (j + 1) (by omega)
        rwa [Nat.succ_mul, ← Nat.add_assoc, Nat.add_right_comm] at this
      rintro ok s' ⟨o', m, hdo', ht', hm, hok, hpte'⟩
      refine ⟨o', m + 1, hdo.trans hdo', ht', by omega, by rw [hok]; omega, ?_⟩
      rw [hpte', hpte]
      funext j
      by_cases hj : j = i
      · rw [hj, if_neg (by omega), if_pos (by omega), update_self, Nat.sub_self, Nat.zero_mul,
          Nat.add_zero]
      by_cases hin : i ≤ j ∧ j < i + (m + 1)
      · have hshift : pa + PGSIZE + (j - (i + 1)) * PGSIZE = pa + (j - i) * PGSIZE := by
          rw [show j - i = j - (i + 1) + 1 by omega, Nat.succ_mul]
          omega
        rw [if_pos (by omega), if_pos hin, hshift]
      · rw [if_neg (by omega), if_neg hin, update_of_ne hj]

/-- **`mappages` of one page** sets its entry, or finds no memory for the
page table. -/
theorem mappages_returns {pa perm : ℕ} (hh : Heap k o s) (h : Table o s.mem r)
    (hal : va % PGSIZE = 0) (hva : va < MAXVA) (hv : pteAt s.mem r (va / PGSIZE) &&& PTE_V = 0)
    (hw : pa2pte pa ||| perm ||| PTE_V < 2 ^ 64) :
    Returns (mappages r va PGSIZE pa perm) s fun ok s' =>
      ∃ o', Takes k (Owner.inTable r) o o' s s' ∧ Table o' s'.mem r ∧
        pteAt s'.mem r = if ok then
          update (pteAt s.mem r) (va / PGSIZE) (pa2pte pa ||| perm ||| PTE_V) else pteAt s.mem r := by
  have hfirst : pgRoundDown va = va := by
    rw [pgRoundDown, hal, Nat.sub_zero]
  have hlast : pgRoundDown (va + PGSIZE - 1) = va := by
    simp only [pgRoundDown, PGSIZE] at *
    omega
  simp only [mappages, hfirst, hlast, Nat.sub_self, Nat.zero_div, mappagesLoop]
  refine mapPage_returns hh h hva hv hw (fun o₁ s₁ hdo ht hpte => ?_) fun o₁ s₁ hdo ht hpte => ?_
  · exact ⟨o₁, hdo, ht, hpte⟩
  · exact .pure ⟨o₁, hdo, ht, by rw [hpte, if_pos rfl]⟩

/-! ## `uvmunmap` -/

/-- An entry that maps a page of memory. -/
def Leaf (w : ℕ) : Prop := w &&& PTE_V ≠ 0 ∧ pteFlags w ≠ PTE_V

/-- The pages numbered `a` to `c - 1` of a space. -/
def Owner.inRange (r a c : ℕ) : Owner → Prop
  | .user r' i => r' = r ∧ a ≤ i ∧ i < c
  | _ => False

/-- One page more. -/
theorem freed_succ {a c : ℕ} (hac : a ≤ c) (hb : ∀ b', o b' = .user r c ↔ b' = b) :
    update (freed (Owner.inRange r a c) o) b .free = freed (Owner.inRange r a (c + 1)) o := by
  refine update_freed fun b' => ?_
  rw [← hb]
  cases o b' with
  | user r' i =>
    simp only [Owner.inRange, Owner.user.injEq]
    omega
  | _ => simp [Owner.inRange]

theorem unmapPage_returns {doFree : Bool} (hh : Heap k o s) (h : Table o s.mem r) (hva : va < MAXVA)
    (hleaf : Leaf (pteAt s.mem r (va / PGSIZE)))
    (hown : doFree = true → o (pte2pa (pteAt s.mem r (va / PGSIZE))) = .user r (va / PGSIZE)) :
    Returns (unmapPage k r va doFree) s fun _ s' =>
      ∃ o', o' = (if doFree then update o (pte2pa (pteAt s.mem r (va / PGSIZE))) .free else o) ∧
        Does k (Owner.inSpace r (va / PGSIZE)) o o' s s' ∧ Table o' s'.mem r ∧
        pteAt s'.mem r = update (pteAt s.mem r) (va / PGSIZE) 0 := by
  obtain ⟨hv, hfl⟩ := hleaf
  have hlook := look_of_valid hv
  obtain ⟨-, hn⟩ := look_eq_some hlook
  have hentry : entry s.mem (tnode s.mem r 2 (va / PGSIZE / 512)) (va / PGSIZE % 512) =
      pteAt s.mem r (va / PGSIZE) := by
    rw [pteAt, tword_of_ne hn]
  refine .bind ⟨_, _, walk_read h hva, ?_⟩
  simp only [hlook, getPte, Returns.gets_bind_iff, hentry, hv, hfl, ↓reduceIte]
  have hset : ∀ {o₁ s₁}, Heap k o₁ s₁ → Table o₁ s₁.mem r → pteAt s₁.mem r = pteAt s.mem r →
      tnode s₁.mem r 2 (va / PGSIZE / 512) = tnode s.mem r 2 (va / PGSIZE / 512) →
      Returns (setPte (tnode s.mem r 2 (va / PGSIZE / 512)) (va / PGSIZE % 512) 0) s₁ fun _ s' =>
        Does k (Owner.inSpace r (va / PGSIZE)) o₁ o₁ s₁ s' ∧ Table o₁ s'.mem r ∧
          pteAt s'.mem r = update (pteAt s.mem r) (va / PGSIZE) 0 := by
    intro o₁ s₁ hh₁ ht₁ hpte₁ hn₁
    rw [← hn₁] at hn ⊢
    refine (modify_page (P := Owner.inSpace r (va / PGSIZE)) hh₁ (ht₁.own le_rfl hn) (Owner.used_table ..) rfl
      fun q => q.writeLE (8 * (va / PGSIZE % 512)) 8 0).mono ?_
    rintro - s' ⟨hdo, hmem⟩
    obtain ⟨ht, hpte⟩ := ht₁.set hn (Nat.two_pow_pos 64) hmem
    exact ⟨hdo, ht, by rw [hpte, hpte₁]⟩
  cases doFree with
  | false =>
    refine (hset hh h rfl rfl).mono ?_
    rintro - s' ⟨hdo, ht, hpte⟩
    exact ⟨o, rfl, hdo, ht, hpte⟩
  | true =>
    have hb := hown rfl
    refine .bind ((kfree_returns (P := Owner.inSpace r (va / PGSIZE)) hh hb (Owner.used_user ..)
      ⟨rfl, le_rfl⟩ trivial).mono ?_)
    rintro - s₁ ⟨hdo₁, hmem₁⟩
    have hne : ∀ c d i, o c = .table r d i → c ≠ pte2pa (pteAt s.mem r (va / PGSIZE)) := by
      rintro c d i hc rfl
      rw [hb] at hc
      cases hc
    have hm : ∀ c d i, o c = .table r d i → s₁.mem c = s.mem c := fun c d i hc =>
      hmem₁ c (hne c d i hc)
    have ht₁ : Table (update o (pte2pa (pteAt s.mem r (va / PGSIZE))) .free) s₁.mem r := h.congr hm (by
      intro c d i
      by_cases hc : c = pte2pa (pteAt s.mem r (va / PGSIZE))
      · rw [hc, update_self, hb]
        exact ⟨Owner.noConfusion, Owner.noConfusion⟩
      · rw [update_of_ne hc])
    refine (hset hdo₁.heap ht₁ (funext (h.tword_congr hm le_rfl)) (h.tnode_congr hm le_rfl _)).mono ?_
    rintro - s' ⟨hdo, ht, hpte⟩
    exact ⟨_, rfl, hdo₁.trans hdo, ht, hpte⟩

/-- **`uvmunmap`** clears the entries, and frees the pages if it is told
to. -/
theorem uvmunmap_returns {a c : ℕ} {doFree : Bool} (hh : Heap k o s) (h : Table o s.mem r)
    (hc : a + c ≤ MAXVA / PGSIZE) (hleaf : ∀ i, a ≤ i → i < a + c → Leaf (pteAt s.mem r i))
    (hown : doFree = true → ∀ i, a ≤ i → i < a + c → ∀ b,
      o b = .user r i ↔ b = pte2pa (pteAt s.mem r i)) :
    Returns (uvmunmap k r (a * PGSIZE) c doFree) s fun _ s' =>
      ∃ o', o' = (if doFree then freed (Owner.inRange r a (a + c)) o else o) ∧
        Does k (Owner.inSpace r a) o o' s s' ∧ Table o' s'.mem r ∧
        pteAt s'.mem r = fun i => if a ≤ i ∧ i < a + c then 0 else pteAt s.mem r i := by
  simp only [uvmunmap, Nat.mul_mod_left, ne_eq, not_true_eq_false, ↓reduceIte]
  refine Returns.forM_range (I := fun j s' =>
    ∃ o', o' = (if doFree then freed (Owner.inRange r a (a + j)) o else o) ∧
      Does k (Owner.inSpace r a) o o' s s' ∧ Table o' s'.mem r ∧
      pteAt s'.mem r = fun i => if a ≤ i ∧ i < a + j then 0 else pteAt s.mem r i) ?_ ?_
  · rintro j s₁ hj ⟨o₁, ho₁, hdo, ht, hpte⟩
    have hdiv : (a * PGSIZE + j * PGSIZE) / PGSIZE = a + j := by
      simp only [PGSIZE]
      omega
    have hva : a * PGSIZE + j * PGSIZE < MAXVA := by
      simp only [PGSIZE, MAXVA] at hc ⊢
      omega
    have hat : pteAt s₁.mem r (a + j) = pteAt s.mem r (a + j) := by
      rw [hpte]
      exact if_neg (by omega)
    refine (unmapPage_returns hdo.heap ht hva (by
      rw [hdiv, hat]
      exact hleaf _ (by omega) (by omega)) ?_).mono ?_
    · intro hfree
      rw [hdiv, hat, ho₁, hfree, if_pos rfl]
      have hb := (hown hfree (a + j) (by omega) (by omega) _).2 rfl
      rw [freed_of_not, hb]
      rw [hb]
      exact fun hin => absurd hin.2.2 (by omega)
    · rintro - s' ⟨o', ho', hdo', ht', hpte'⟩
      rw [hdiv, hat] at ho'
      rw [hdiv] at hpte'
      refine ⟨o', ?_, hdo.trans (hdo'.mono (Owner.inSpace_mono (by rw [hdiv]; omega))), ht', ?_⟩
      · rw [ho', ho₁]
        cases doFree with
        | false => rfl
        | true =>
          exact freed_succ (by omega) (hown rfl (a + j) (by omega) (by omega))
      · rw [hpte', hpte]
        funext i
        by_cases hi : i = a + j
        · rw [hi, update_self, if_pos (by omega)]
        · rw [update_of_ne hi]
          by_cases hlt : a ≤ i ∧ i < a + j
          · rw [if_pos hlt, if_pos (by omega)]
          · rw [if_neg hlt, if_neg (by omega)]
  · refine ⟨o, ?_, .refl hh, h, ?_⟩
    · rw [freed_eq_self, ite_self]
      intro b hb
      cases hob : o b with
      | user r' i =>
        rw [hob] at hb
        obtain ⟨-, h1, h2⟩ := hb
        omega
      | free => rfl
      | _ =>
        rw [hob] at hb
        exact hb.elim
    · funext i
      rw [if_neg (by omega)]

end Vm

end Xv6
