import Xv6.Vm.Calls
import Xv6.Vm.Space
/-!
# Making and freeing address spaces

`proc_pagetable` makes an address space with no user memory, and
`proc_freepagetable` frees all pages of one. `freewalk` goes down the tree
of page table pages and frees each after what is below it; while it runs,
the pages not yet freed are as they were.
-/

namespace Xv6

open Common Function

namespace Vm

variable {k : Symbols} {o o' : ℕ → Owner} {s s' : State} {mem mem' m₀ : ℕ → Page} {X : ℕ → ℕ}
  {ptes : List ℕ} {f : ℕ → UInt8} {r d e i j n b : ℕ}

/-! ## Parts of a tree -/

/-- The place of depth `d` with index `i` is under one of those of depth
`e` with indices `a` to `c - 1`. -/
def Below (e a c d i : ℕ) : Prop := e ≤ d ∧ a ≤ i / 512 ^ (d - e) ∧ i / 512 ^ (d - e) < c

instance (e a c d i : ℕ) : Decidable (Below e a c d i) := inferInstanceAs (Decidable (_ ∧ _))

theorem below_self : Below d i (i + 1) d i := by
  simp [Below]

/-- Under a place are the place itself and what is under its entries. -/
theorem below_iff : Below e i (i + 1) d j ↔
    d = e ∧ j = i ∨ Below (e + 1) (512 * i) (512 * i + 512) d j := by
  unfold Below
  constructor
  · rintro ⟨hle, h1, h2⟩
    rcases Nat.eq_or_lt_of_le hle with rfl | hlt
    · simp only [Nat.sub_self, Nat.pow_zero, Nat.div_one] at h1 h2
      exact .inl ⟨rfl, by omega⟩
    have hpow : 512 ^ (d - e) = 512 ^ (d - (e + 1)) * 512 := by
      rw [← Nat.pow_succ]
      congr 1
      omega
    rw [hpow, ← Nat.div_div_eq_div_mul] at h1 h2
    exact .inr ⟨hlt, by omega, by omega⟩
  · rintro (⟨rfl, rfl⟩ | ⟨hlt, h1, h2⟩)
    · exact below_self
    · have hpow : 512 ^ (d - e) = 512 ^ (d - (e + 1)) * 512 := by
        rw [← Nat.pow_succ]
        congr 1
        omega
      rw [hpow, ← Nat.div_div_eq_div_mul]
      exact ⟨by omega, by omega, by omega⟩

/-- Under a place there is a page only if there is one in it. -/
theorem tnode_ne_of_below (h : tnode mem r d j ≠ 0) (hb : Below e i (i + 1) d j) :
    tnode mem r e i ≠ 0 := by
  obtain ⟨hle, h1, h2⟩ := hb
  have hi : j / 512 ^ (d - e) = i := by omega
  rw [← hi]
  refine Radix.node_ne_above (e := d - e) ?_
  rwa [show e + (d - e) = d by omega]

namespace Owner

/-- The free pages, and the pages of a page table in a part of it. -/
def inTree (r e a c : ℕ) : Owner → Prop
  | .free => True
  | .table r' d i => r' = r ∧ Below e a c d i
  | _ => False

end Owner

theorem inTree_split {a c c' : ℕ} (h1 : a ≤ c) (h2 : c ≤ c') (w : Owner) :
    Owner.inTree r e a c' w ↔ Owner.inTree r e a c w ∨ Owner.inTree r e c c' w := by
  cases w with
  | table r' d i =>
    simp only [Owner.inTree, Below]
    omega
  | _ => simp [Owner.inTree]

theorem freed_inTree_self {a c : ℕ} (h : ∀ b d i, o b = .table r d i → ¬ Below e a c d i) :
    freed (Owner.inTree r e a c) o = o := by
  refine freed_eq_self fun b hb => ?_
  cases hob : o b with
  | free => rfl
  | table r' d i =>
    rw [hob] at hb
    obtain ⟨rfl, hb⟩ := hb
    exact absurd hb (h b d i hob)
  | _ =>
    rw [hob] at hb
    exact hb.elim

/-! ## `freewalk` -/

/-- **The part of a tree that is to be freed**, as it was at the start. -/
structure Doomed (o : ℕ → Owner) (mem m₀ : ℕ → Page) (r e a c : ℕ) : Prop where
  pages : ∀ d i b, Below e a c d i → (o b = .table r d i ↔ d ≤ 2 ∧ tnode m₀ r d i = b ∧ b ≠ 0)
  same : ∀ d i b, Below e a c d i → o b = .table r d i → mem b = m₀ b

theorem Doomed.part {e' a a' c c' : ℕ} (h : Doomed o mem m₀ r e a c)
    (hsub : ∀ d i, Below e' a' c' d i → Below e a c d i) : Doomed o mem m₀ r e' a' c' :=
  ⟨fun d i b hb => h.pages d i b (hsub d i hb), fun d i b hb => h.same d i b (hsub d i hb)⟩

/-- What is done elsewhere leaves it alone. -/
theorem Doomed.frame {P : Owner → Prop} {a c : ℕ} (h : Doomed o mem m₀ r e a c)
    (hf : Frame P o o' mem mem') (hP : ∀ d i, Below e a c d i → ¬ P (.table r d i)) :
    Doomed o' mem' m₀ r e a c := by
  refine ⟨fun d i b hb => ?_, fun d i b hb hob => ?_⟩
  · rw [hf.own_iff (hP d i hb), h.pages d i b hb]
  · rw [hf.own_iff (hP d i hb)] at hob
    rw [hf.mem_of_own (hP d i hb) hob, h.same d i b hb hob]

/-- **`freewalk`** frees all pages under a place of a page table that maps
nothing. -/
theorem freewalk_returns {levels : ℕ} (hd : d + levels = 3) (hd2 : d ≤ 2) (hh : Heap k o s)
    (h : Doomed o s.mem m₀ r d i (i + 1)) (hn : tnode m₀ r d i ≠ 0)
    (hlinks : ∀ d i, d < 2 → tword m₀ r d i &&& PTE_V ≠ 0 →
      pteFlags (tword m₀ r d i) = PTE_V ∧ pte2pa (tword m₀ r d i) ≠ 0)
    (hnone : ∀ i, pteAt m₀ r i &&& PTE_V = 0) :
    Returns (freewalk k levels (tnode m₀ r d i)) s fun _ s' =>
      Does k (Owner.inTree r d i (i + 1)) o (freed (Owner.inTree r d i (i + 1)) o) s s' := by
  induction levels generalizing d i o s with
  | zero => omega
  | succ levels ih =>
    have hpage : o (tnode m₀ r d i) = .table r d i := (h.pages d i _ below_self).2 ⟨hd2, rfl, hn⟩
    have hsub : ∀ {e j a c}, Below (d + 1) a c e j → 512 * i ≤ a → c ≤ 512 * i + 512 →
        Below d i (i + 1) e j := fun hb h1 h2 =>
      below_iff.2 (.inr ⟨hb.1, h1.trans hb.2.1, hb.2.2.trans_le h2⟩)
    have hword : ∀ j, j < 512 → entry m₀ (tnode m₀ r d i) j = tword m₀ r d (512 * i + j) := by
      intro j hj
      have hdiv : (512 * i + j) / 512 = i := by omega
      have hmod : (512 * i + j) % 512 = j := by omega
      rw [tword_of_ne (by rwa [hdiv]), hdiv, hmod]
    -- the page itself is freed last
    have hlast : ∀ {o₁ a c}, o₁ (tnode m₀ r d i) = .table r d i →
        freed (Owner.inTree r (d + 1) a c) o₁ (tnode m₀ r d i) = .table r d i := by
      intro o₁ a c ho₁
      rw [freed_of_not, ho₁]
      rw [ho₁]
      exact fun hin => absurd hin.2.1 (by omega)
    rw [freewalk]
    refine .bind ((Returns.forM_range (I := fun j s' => ∃ o', o' = freed (Owner.inTree r (d + 1)
      (512 * i) (512 * i + j)) o ∧ Does k (Owner.inTree r d i (i + 1)) o o' s s' ∧
      (∀ c, j ≤ c → entry s'.mem (tnode m₀ r d i) c = entry m₀ (tnode m₀ r d i) c) ∧
      Doomed o' s'.mem m₀ r (d + 1) (512 * i + j) (512 * i + 512)) ?_ ?_).mono ?_)
    · rintro j s₁ hj ⟨o₁, ho₁, hdo₁, hent, hdoom⟩
      have hpage₁ : o₁ (tnode m₀ r d i) = .table r d i := ho₁ ▸ hlast hpage
      have hnext : freed (Owner.inTree r (d + 1) (512 * i + j) (512 * i + j + 1)) o₁ =
          freed (Owner.inTree r (d + 1) (512 * i) (512 * i + (j + 1))) o := by
        rw [ho₁]
        exact freed_freed fun b => inTree_split (by omega) (by omega) _
      simp only [getPte, Returns.gets_bind_iff, hent j le_rfl, hword j hj]
      by_cases hv : tword m₀ r d (512 * i + j) &&& PTE_V = 0
      · -- nothing hangs from this entry
        have hnode : tnode m₀ r (d + 1) (512 * i + j) = 0 := by rw [tnode_succ, child_of_invalid hv]
        have hsame : freed (Owner.inTree r (d + 1) (512 * i + j) (512 * i + j + 1)) o₁ = o₁ := by
          refine freed_inTree_self fun b d' i' hb hbelow => ?_
          have hrange : Below (d + 1) (512 * i + j) (512 * i + 512) d' i' :=
            ⟨hbelow.1, hbelow.2.1, hbelow.2.2.trans_le (by omega)⟩
          obtain ⟨-, rfl, h0⟩ := (hdoom.pages d' i' b hrange).1 hb
          exact tnode_ne_of_below h0 hbelow hnode
        rw [hsame] at hnext
        simp only [hv, ne_eq, not_true_eq_false, false_and, ↓reduceIte]
        exact .pure ⟨o₁, hnext, hdo₁, fun c hc => hent c (by omega), hdoom.part fun d' i' hb =>
          ⟨hb.1, by have := hb.2.1; omega, hb.2.2⟩⟩
      · have hd1 : d < 2 := by
          by_contra hge
          obtain rfl : d = 2 := by omega
          exact hv (hnone _)
        obtain ⟨hfl, hpa⟩ := hlinks d _ hd1 hv
        have hrwx : tword m₀ r d (512 * i + j) &&& (PTE_R ||| PTE_W ||| PTE_X) = 0 := by
          rw [← and_pteFlags rfl, hfl]
          rfl
        have hchild : pte2pa (tword m₀ r d (512 * i + j)) = tnode m₀ r (d + 1) (512 * i + j) := by
          rw [tnode_succ, child_of_valid hv]
        simp only [hv, hrwx, ne_eq, not_false_eq_true, and_self, ↓reduceIte]
        rw [hchild] at hpa ⊢
        refine .bind ((ih (by omega) (by omega) hdo₁.heap (hdoom.part fun d' i' hb =>
          ⟨hb.1, hb.2.1, hb.2.2.trans_le (by omega)⟩) hpa).mono ?_)
        rintro - s₂ hdo₂
        have hout : ¬ Owner.inTree r (d + 1) (512 * i + j) (512 * i + j + 1) (.table r d i) :=
          fun hin => absurd hin.2.1 (by omega)
        have hwide : ∀ w, Owner.inTree r (d + 1) (512 * i + j) (512 * i + j + 1) w →
            Owner.inTree r d i (i + 1) w := by
          intro w hw
          cases w with
          | table r' d' i' => exact ⟨hw.1, hsub hw.2 (by omega) (by omega)⟩
          | _ => exact hw
        refine (modify_page (P := Owner.inTree r d i (i + 1)) hdo₂.heap (hlast hpage₁)
          (Owner.used_table ..) ⟨rfl, below_self⟩ fun q => q.writeLE (8 * j) 8 0).mono ?_
        rintro - s₃ ⟨hdo₃, hmem₃⟩
        refine ⟨_, hnext, (hdo₁.trans (hdo₂.mono hwide)).trans hdo₃, fun c hc => ?_, ?_⟩
        · rw [entry_written_of_ne (i := j) (w := 0) (by rw [hmem₃, update_self]) (by omega),
            entry_congr (hdo₂.frame.mem_of_own hout hpage₁), hent c (by omega)]
        · have hrest : Doomed o₁ s₁.mem m₀ r (d + 1) (512 * i + (j + 1)) (512 * i + 512) :=
            hdoom.part fun d' i' hb => ⟨hb.1, by have := hb.2.1; omega, hb.2.2⟩
          have hrest₂ := hrest.frame hdo₂.frame fun d' i' hb hin => by
            have := hb.2.1
            have := hin.2.2.2
            omega
          refine ⟨hrest₂.pages, fun d' i' b hb hob => ?_⟩
          rw [hmem₃, update_of_ne, hrest₂.same d' i' b hb hob]
          rintro rfl
          rw [hlast hpage₁] at hob
          cases hob
          exact absurd hb.1 (by omega)
    · refine ⟨o, (freed_inTree_self fun b d' i' _ hb => ?_).symm, .refl hh, fun c _ => ?_, h.part fun d' i' hb => ?_⟩
      · have := hb.2.1
        have := hb.2.2
        omega
      · exact entry_congr (h.same d i _ below_self hpage) c
      · exact hsub hb (by omega) (by omega)
    · rintro - s₁ ⟨o₁, ho₁, hdo₁, -, -⟩
      refine (kfree_returns (P := Owner.inTree r d i (i + 1)) hdo₁.heap (ho₁ ▸ hlast hpage)
        (Owner.used_table ..) ⟨rfl, below_self⟩ trivial).mono ?_
      rintro - s' ⟨hdo, -⟩
      have heq : update o₁ (tnode m₀ r d i) .free = freed (Owner.inTree r d i (i + 1)) o := by
        have hnode : ∀ b, b = tnode m₀ r d i ↔ o b = .table r d i := fun b => by
          rw [h.pages d i b below_self]
          exact ⟨fun heq => ⟨hd2, heq.symm, heq ▸ hn⟩, fun heq => heq.2.1.symm⟩
        rw [ho₁]
        refine update_freed fun b => ?_
        rw [hnode]
        cases o b with
        | table r' d' i' =>
          simp only [Owner.inTree, below_iff (e := d), Owner.table.injEq]
          tauto
        | _ => simp [Owner.inTree]
      exact heq ▸ hdo₁.trans hdo

/-! ## Freeing an address space -/

/-- The owners after all pages of an address space are freed. -/
noncomputable abbrev released (o : ℕ → Owner) (r : ℕ) : ℕ → Owner := freed (Owner.inSpace r 0) o

/-- Nobody owns a page as one of the address space `r`. -/
structure Unused (o : ℕ → Owner) (r : ℕ) : Prop where
  table : ∀ b d i, o b ≠ .table r d i
  user : ∀ b i, o b ≠ .user r i

/-- What was done to an address space does not matter once it is freed. -/
theorem released_frame (hf : Frame (Owner.inSpace r 0) o o' mem mem') :
    released o' r = released o r := by
  funext b
  by_cases hb : Owner.inSpace r 0 (o b)
  · rw [released, released, freed_of hb, freed_of (hf.region b hb)]
  · rw [released, released, freed_of_not hb, freed_of_not (by rwa [hf.own b hb]), hf.own b hb]

theorem Unused.inSpace_iff (h : Unused o r) : Owner.inSpace r n (o b) ↔ o b = .free := by
  have htable := h.table b
  have huser := h.user b
  cases ho : o b with
  | table r' d i =>
    refine ⟨fun hin => ?_, Owner.noConfusion⟩
    exact absurd (ho.trans (by rw [show r' = r from hin])) (htable d i)
  | user r' i =>
    refine ⟨fun hin => ?_, Owner.noConfusion⟩
    exact absurd (ho.trans (by rw [hin.1])) (huser i)
  | free => exact ⟨fun _ => rfl, fun _ => trivial⟩
  | _ => exact ⟨False.elim, Owner.noConfusion⟩

theorem Unused.released (h : Unused o r) : released o r = o :=
  freed_eq_self fun _ => h.inSpace_iff.1

/-- **Made and freed again**: only free pages have been touched. -/
theorem Does.undone (h : Does k (Owner.inSpace r 0) o (released o r) s s') (hr : Unused o r) :
    Does k (· = .free) o o s s' := by
  rw [hr.released] at h
  exact h.narrow (fun b hb => hr.inSpace_iff.1 hb) fun b hb => hb

/-- **`uvmfree`** frees the user memory and the page table. -/
theorem uvmfree_returns {sz : ℕ} (h : Space o s.mem r ptes f fun _ => 0)
    (hlen : ptes.length = pages sz) (hh : Heap k o s) :
    Returns (uvmfree k r sz) s fun _ s' =>
      Does k (Owner.inSpace r 0) o (released o r) s s' := by
  have hwalk : ∀ {o₁ s₁}, Space o₁ s₁.mem r [] f (fun _ => 0) → Heap k o₁ s₁ →
      Returns (freewalk k 3 r) s₁ fun _ s' =>
        Does k (Owner.inSpace r 0) o₁ (released o₁ r) s₁ s' := by
    intro o₁ s₁ h₁ hh₁
    have hnone : ∀ i, pteAt s₁.mem r i &&& PTE_V = 0 := fun i => by
      rw [h₁.rest i (Nat.zero_le i)]
      rfl
    have hdoom : Doomed o₁ s₁.mem s₁.mem r 0 0 1 :=
      ⟨fun d i b _ => h₁.table.pages d i b, fun _ _ _ _ _ => rfl⟩
    refine (freewalk_returns (d := 0) rfl (Nat.zero_le 2) hh₁ hdoom h₁.table.root
      h₁.table.links hnone).mono ?_
    intro _ s' hdo
    -- every page of the table is under its root
    have hbelow : ∀ b d i, o₁ b = .table r d i → Below 0 0 1 d i := by
      intro b d i hb
      obtain ⟨-, rfl, h0⟩ := (h₁.table.pages d i b).1 hb
      have hroot := Radix.node_ne_above (d := 0) (e := d) (by rwa [Nat.zero_add])
      refine ⟨Nat.zero_le d, Nat.zero_le _, ?_⟩
      by_contra hne
      rw [Nat.sub_zero] at hne
      have hzero : tnode s₁.mem r 0 (i / 512 ^ d) = 0 := tnode_zero_of_ne (by omega)
      exact hroot hzero
    have heq : freed (Owner.inTree r 0 0 1) o₁ = released o₁ r := by
      refine freed_congr fun b => ?_
      cases hb : o₁ b with
      | table r' d i =>
        refine ⟨And.left, fun hr => ⟨hr, ?_⟩⟩
        subst hr
        exact hbelow b d i hb
      | user r' i =>
        refine ⟨False.elim, ?_⟩
        rintro ⟨rfl, -⟩
        have := (h₁.user b i).1 hb
        simp at this
      | _ => exact Iff.rfl
    rw [heq] at hdo
    refine hdo.mono fun w hw => ?_
    cases w with
    | table r' d i => exact hw.1
    | user r' i => exact hw.elim
    | _ => exact hw
  rw [uvmfree]
  by_cases hsz : 0 < sz
  · have hcount : pgRoundUp sz / PGSIZE = ptes.length - 0 := by
      rw [pgRoundUp_eq (hlen ▸ h.le hh), Nat.sub_zero, hlen]
      exact Nat.mul_div_cancel _ (by decide)
    have hzero : (0 : ℕ) = 0 * PGSIZE := rfl
    simp only [hsz, ↓reduceIte, hcount]
    rw [hzero]
    refine .bind ((h.unmap_returns hh above_zero (Nat.zero_le _)).mono ?_)
    rintro - s₁ ⟨o₁, hdo, h₁⟩
    refine (hwalk h₁ hdo.heap).mono ?_
    intro _ s' hdo'
    exact released_frame hdo.frame ▸ hdo.trans hdo'
  · have hnil : ptes = [] := List.eq_nil_of_length_eq_zero (by
      rw [hlen]
      simp only [pages, PGSIZE]
      omega)
    subst hnil
    simp only [hsz, ↓reduceIte]
    exact hwalk h hh

/-! ## An empty address space -/

/-- **A page of zeroes is an empty page table.** -/
theorem Table.empty (hr : r ≠ 0) (hmem : mem r = fun _ => 0)
    (ho : ∀ b d i, o b = .table r d i ↔ d = 0 ∧ i = 0 ∧ b = r) :
    Table o mem r ∧ pteAt mem r = fun _ => 0 := by
  have hnode : ∀ d i, tnode mem r (d + 1) i = 0 ∧ tword mem r d i = 0 := by
    intro d
    induction d with
    | zero =>
      intro i
      have hword : tword mem r 0 i = 0 := by
        by_cases hi : tnode mem r 0 (i / 512) = 0
        · exact tword_of_eq hi
        · have hroot : tnode mem r 0 (i / 512) = r := by
            by_contra hne
            exact hi (tnode_zero_of_ne fun h0 => hne (by rw [h0]; rfl))
          rw [tword_of_ne hi, hroot, entry_zero hmem]
      exact ⟨by rw [tnode_succ, hword, child_zero], hword⟩
    | succ d ih =>
      intro i
      have hword : tword mem r (d + 1) i = 0 := tword_of_eq (ih _).1
      exact ⟨by rw [tnode_succ, hword, child_zero], hword⟩
  refine ⟨⟨hr, fun d i b => ?_, fun d i _ hv => ?_⟩, funext fun i => (hnode 2 i).2⟩
  · rw [ho]
    constructor
    · rintro ⟨rfl, rfl, rfl⟩
      exact ⟨Nat.zero_le 2, rfl, hr⟩
    · rintro ⟨-, hb, h0⟩
      cases d with
      | zero =>
        by_cases hi : i = 0
        · subst hi
          exact ⟨rfl, rfl, hb.symm⟩
        · rw [tnode_zero_of_ne hi] at hb
          exact absurd hb.symm h0
      | succ d =>
        rw [(hnode d i).1] at hb
        exact absurd hb.symm h0
  · rw [(hnode d i).2] at hv
    exact absurd rfl hv

/-- Every address space in use has its root. -/
structure Rooted (o : ℕ → Owner) : Prop where
  table : ∀ b r d i, o b = .table r d i → o r = .table r 0 0
  user : ∀ b r i, o b = .user r i → o r = .table r 0 0

theorem Rooted.unused (h : Rooted o) (hr : o r = .free) : Unused o r := by
  constructor
  · intro b d i hb
    rw [h.table b r d i hb] at hr
    cases hr
  · intro b i hb
    rw [h.user b r i hb] at hr
    cases hr

/-- **`uvmcreate`** makes an empty address space. -/
theorem uvmcreate_returns (hh : Heap k o s) (hroot : Rooted o) :
    Returns uvmcreate s fun r s' =>
      r = 0 ∧ Does k (· = .free) o o s s' ∨
      r ≠ 0 ∧ Unused o r ∧ ∃ o', Does k (Owner.inSpace r 0) o o' s s' ∧
        Space o' s'.mem r [] f fun _ => 0 := by
  rw [uvmcreate]
  refine .bind ((kalloc_returns (P := fun r => Owner.inSpace r 0) hh (fun r => .table r 0 0)
    (fun _ => Owner.used_table ..) (fun _ => trivial) fun _ => rfl).mono ?_)
  rintro r s₁ (⟨rfl, hdo, -⟩ | ⟨h0, hfree, hdo, -⟩)
  · rw [if_pos rfl]
    exact .pure (.inl ⟨rfl, hdo _⟩)
  rw [if_neg h0]
  have hun := hroot.unused hfree
  refine .bind ((modify_page (P := Owner.inSpace r 0) hdo.heap (update_self ..)
    (Owner.used_table ..) rfl fun _ _ => 0).mono ?_)
  rintro - s₂ ⟨hdo₂, hmem₂⟩
  have hpages : ∀ b d i, update o r (.table r 0 0) b = .table r d i ↔ d = 0 ∧ i = 0 ∧ b = r := by
    intro b d i
    by_cases hb : b = r
    · subst hb
      rw [update_self]
      constructor
      · intro heq
        cases heq
        exact ⟨rfl, rfl, rfl⟩
      · rintro ⟨rfl, rfl, -⟩
        rfl
    · rw [update_of_ne hb]
      exact ⟨fun heq => absurd heq (hun.table b d i), fun hc => absurd hc.2.2 hb⟩
  have hzero : s₂.mem r = fun _ => 0 := by rw [hmem₂, update_self]
  obtain ⟨ht, hpte⟩ := Table.empty h0 hzero hpages
  refine .pure (.inr ⟨h0, hun, _, hdo.trans hdo₂, ht, fun b i => ?_, by simp, by simp,
    fun i _ => by rw [hpte]⟩)
  constructor
  · intro heq
    by_cases hb : b = r
    · rw [hb, update_self] at heq
      cases heq
    · rw [update_of_ne hb] at heq
      exact absurd heq (hun.user b i)
  · simp

/-! ## The pages above user memory -/

/-- **A page is mapped above the user memory.** -/
theorem Holding.map_above {a pa perm : ℕ} (h : Space o s.mem r ptes f X) (hh : Heap k o s)
    (hlen : ptes.length ≤ a) (ha : a < MAXVA / PGSIZE) (hXa : X a = 0) (hpa : pa < 2 ^ 56)
    (hperm : perm < 1024) :
    Returns (mappages r (a * PGSIZE) PGSIZE pa perm) s fun mapped s' =>
      ∃ o', Does k (Owner.inSpace r ptes.length) o o' s s' ∧
        Space o' s'.mem r ptes f
          (if mapped then update X a (pa2pte pa ||| (perm ||| PTE_V)) else X) := by
  have hf : perm ||| PTE_V < 1024 := Nat.or_lt_two_pow (n := 10) hperm (by decide)
  have hdiv : a * PGSIZE / PGSIZE = a := Nat.mul_div_cancel _ (by decide)
  refine (Vm.mappages_returns hh h.table (Nat.mul_mod_left ..) ?_ ?_ ?_).mono ?_
  · simp only [MAXVA, PGSIZE] at ha ⊢
    omega
  · rw [hdiv, h.rest a hlen, hXa]
    rfl
  · rw [Nat.or_assoc]
    exact pa2pte_or_lt hpa hf
  · rintro mapped s' ⟨o', hdo, ht, hpte⟩
    have hdo' := hdo.toDoes.mono (Owner.inSpace_of_inTable (m := ptes.length))
    refine ⟨o', hdo', h.above hdo'.frame ht (fun i hi => ?_) (fun i hi => ?_) fun b i hi => ?_⟩
    · rw [hpte, hdiv]
      cases mapped with
      | false => rfl
      | true => exact update_of_ne (by omega) ..
    · rw [hpte, hdiv, Nat.or_assoc]
      cases mapped with
      | false => exact h.rest i hi
      | true =>
        simp only [↓reduceIte, update_apply]
        split
        · rfl
        · exact h.rest i hi
    · exact (hdo.own_iff id).trans (h.hand_iff hi)

/-- **A page mapped above the user memory is unmapped**, and kept. -/
theorem Holding.unmap_above {a : ℕ} (h : Space o s.mem r ptes f X) (hh : Heap k o s)
    (hlen : ptes.length ≤ a) (ha : a < MAXVA / PGSIZE) (hXa : Leaf (X a)) :
    Returns (uvmunmap k r (a * PGSIZE) 1 false) s fun _ s' =>
      Does k (Owner.inSpace r ptes.length) o o s s' ∧
        Space o s'.mem r ptes f (update X a 0) := by
  refine (uvmunmap_returns hh h.table (by omega) (fun i h1 h2 => ?_)
    fun hfree => absurd hfree Bool.false_ne_true).mono ?_
  · obtain rfl : i = a := by omega
    rw [h.rest i hlen]
    exact hXa
  · rintro - s' ⟨o', rfl, hdo, ht, hpte⟩
    have hdo := hdo.mono (Owner.inSpace_mono hlen)
    refine ⟨hdo, h.above hdo.frame ht (fun i hi => ?_) (fun i hi => ?_) fun b i hi => h.hand_iff hi⟩
    · rw [hpte]
      exact if_neg (by omega)
    · rw [hpte, update_apply]
      by_cases hia : i = a
      · rw [if_pos hia]
        exact if_pos (by omega)
      · rw [if_neg hia, ← h.rest i hi]
        exact if_neg (by omega)

/-- What `proc_pagetable` maps: the trampoline and the trapframe. -/
def kernelMap (k : Symbols) (tf i : ℕ) : ℕ :=
  if i = TRAPFRAME / PGSIZE then pa2pte tf ||| (PTE_R ||| PTE_W ||| PTE_V)
  else if i = TRAMPOLINE / PGSIZE then pa2pte k.trampoline ||| (PTE_R ||| PTE_X ||| PTE_V)
  else 0

theorem kernelMap_eq (k : Symbols) (tf : ℕ) : kernelMap k tf =
    update (update (fun _ => 0) (TRAMPOLINE / PGSIZE)
      (pa2pte k.trampoline ||| (PTE_R ||| PTE_X ||| PTE_V))) (TRAPFRAME / PGSIZE)
        (pa2pte tf ||| (PTE_R ||| PTE_W ||| PTE_V)) := by
  funext i
  simp only [kernelMap, update_apply]

theorem above_kernelMap (k : Symbols) (tf : ℕ) : Above (kernelMap k tf) := by
  constructor
  · intro i hi
    simp only [npages, PHYSTOP, KERNBASE, PGSIZE] at hi
    rw [kernelMap, if_neg, if_neg]
    · simp only [TRAMPOLINE, MAXVA, PGSIZE]
      omega
    · simp only [TRAPFRAME, TRAMPOLINE, MAXVA, PGSIZE]
      omega
  · intro i
    rw [kernelMap]
    split
    · rw [← and_pteFlags rfl, pteFlags_or (by decide)]
      rfl
    · split
      · rw [← and_pteFlags rfl, pteFlags_or (by decide)]
        rfl
      · exact Nat.zero_and _

theorem leaf_or {pa f : ℕ} (hf : f < 1024) (hv : f &&& PTE_V ≠ 0) (hne : f ≠ PTE_V) :
    Leaf (pa2pte pa ||| f) := by
  refine ⟨?_, by rwa [pteFlags_or hf]⟩
  rwa [← and_pteFlags rfl, pteFlags_or hf]

/-- **`proc_freepagetable`** frees the whole address space. -/
theorem procFreepagetable_returns {sz tf : ℕ} (h : Space o s.mem r ptes f (kernelMap k tf))
    (hlen : ptes.length = pages sz) (hh : Heap k o s) :
    Returns (procFreepagetable k r sz) s fun _ s' =>
      Does k (Owner.inSpace r 0) o (released o r) s s' := by
  have hle := h.le hh
  have hwide : ∀ w, Owner.inSpace r ptes.length w → Owner.inSpace r 0 w :=
    Owner.inSpace_mono (Nat.zero_le _)
  have hhigh : ptes.length ≤ TRAMPOLINE / PGSIZE ∧ ptes.length ≤ TRAPFRAME / PGSIZE := by
    simp only [npages, PHYSTOP, KERNBASE, TRAPFRAME, TRAMPOLINE, MAXVA, PGSIZE] at hle ⊢
    omega
  rw [procFreepagetable]
  refine .bind ((h.unmap_above (a := TRAMPOLINE / PGSIZE) hh hhigh.1 (by decide) ?_).mono ?_)
  · rw [kernelMap, if_neg (by decide), if_pos rfl]
    exact leaf_or (by decide) (by decide) (by decide)
  rintro - s₁ ⟨hdo₁, h₁⟩
  refine .bind ((h₁.unmap_above (a := TRAPFRAME / PGSIZE) hdo₁.heap hhigh.2 (by decide) ?_).mono ?_)
  · rw [update_of_ne (by decide), kernelMap, if_pos rfl]
    exact leaf_or (by decide) (by decide) (by decide)
  rintro - s₂ ⟨hdo₂, h₂⟩
  have hzero : update (update (kernelMap k tf) (TRAMPOLINE / PGSIZE) 0) (TRAPFRAME / PGSIZE) 0 =
      fun _ => 0 := by
    funext i
    simp only [update_apply, kernelMap]
    split
    · rfl
    · split <;> rfl
  rw [hzero] at h₂
  refine (uvmfree_returns h₂ hlen hdo₂.heap).mono ?_
  intro _ s' hdo
  exact ((hdo₁.trans hdo₂).mono hwide).trans hdo

/-- **`proc_pagetable`** makes an address space with no user memory, or
leaves no trace. -/
theorem procPagetable_returns {p : ℕ} (hh : Heap k o s) (hroot : Rooted o)
    (htf : (s.proc p).trapframe < 2 ^ 56) :
    Returns (procPagetable k p) s fun r s' =>
      r = 0 ∧ Does k (· = .free) o o s s' ∨
      r ≠ 0 ∧ Unused o r ∧ ∃ o', Does k (Owner.inSpace r 0) o o' s s' ∧
        Space o' s'.mem r [] f (kernelMap k (s.proc p).trapframe) := by
  have htramp : k.trampoline < 2 ^ 56 := by
    have := k.text
    have := k.ram
    simp only [PHYSTOP, KERNBASE, PGSIZE] at *
    omega
  rw [procPagetable]
  refine .bind ((uvmcreate_returns (f := f) hh hroot).mono ?_)
  rintro r s₁ (⟨rfl, hdo⟩ | ⟨h0, hun, o₁, hdo₁, h₁⟩)
  · rw [if_pos rfl]
    exact .pure (.inl ⟨rfl, hdo⟩)
  rw [if_neg h0]
  -- a page table that is given up is freed
  have hgive : ∀ {o₂ s₂}, Does k (Owner.inSpace r 0) o o₂ s s₂ →
      Space o₂ s₂.mem r [] f (fun _ => 0) →
      Returns (do uvmfree k r 0; return 0) s₂ fun r' s' =>
        r' = 0 ∧ Does k (· = .free) o o s s' ∨
        r' ≠ 0 ∧ Unused o r' ∧ ∃ o', Does k (Owner.inSpace r' 0) o o' s s' ∧
          Space o' s'.mem r' [] f (kernelMap k (s.proc p).trapframe) := by
    intro o₂ s₂ hdo h₂
    refine .bind ((uvmfree_returns h₂ rfl hdo.heap).mono ?_)
    intro _ s' hdo'
    rw [released_frame hdo.frame] at hdo'
    exact .pure (.inl ⟨rfl, (hdo.trans hdo').undone hun⟩)
  refine .bind ((h₁.map_above (a := TRAMPOLINE / PGSIZE) hdo₁.heap
    (Nat.zero_le _) (by decide) rfl htramp (by decide)).mono ?_)
  rintro mapped s₂ ⟨o₂, hdo₂, h₂⟩
  have hdo₂ := hdo₁.trans hdo₂
  cases mapped with
  | false => exact hgive hdo₂ h₂
  | true =>
    rw [if_pos rfl] at h₂
    simp only [Bool.not_true, Bool.false_eq_true, ↓reduceIte, Returns.gets_bind_iff, hdo₂.proc]
    refine .bind ((h₂.map_above (a := TRAPFRAME / PGSIZE) hdo₂.heap
      (Nat.zero_le _) (by decide) (update_of_ne (by decide) ..) htf (by decide)).mono ?_)
    rintro mapped s₃ ⟨o₃, hdo₃, h₃⟩
    have hdo₃ := hdo₂.trans hdo₃
    cases mapped with
    | false =>
      refine .bind ((h₃.unmap_above (a := TRAMPOLINE / PGSIZE) hdo₃.heap (Nat.zero_le _)
        (by decide) ?_).mono ?_)
      · rw [if_neg Bool.false_ne_true, update_self]
        exact leaf_or (by decide) (by decide) (by decide)
      rintro - s₄ ⟨hdo₄, h₄⟩
      rw [if_neg Bool.false_ne_true, update_idem, update_eq_self] at h₄
      exact hgive (hdo₃.trans hdo₄) h₄
    | true =>
      rw [if_pos rfl] at h₃
      refine .pure (.inr ⟨h0, hun, o₃, hdo₃, ?_⟩)
      rw [kernelMap_eq]
      exact h₃

end Vm

end Xv6
