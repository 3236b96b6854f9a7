import Xv6.Common.Own
import Xv6.Vm.Pte
/-!
# Who owns a page

Every page that `kalloc` deals in has an owner: the free list, a place in
a page table, a page of an address space, and so on. `Heap` says that the
free list holds the free pages. What a function does is stated with the
region it works in (`Does`): pages of other owners it leaves alone.
-/

namespace Xv6

open Common Function

namespace Vm

/-- Who has a page. Page tables and address spaces are named by the root
page of the table. -/
inductive Owner
  /-- Not a page of `kalloc`. -/
  | outside
  | free
  /-- Taken at boot, and kept. -/
  | boot
  /-- Page table page of the table `r`, at depth `d` with index `i`. -/
  | table (r d i : ℕ)
  /-- Page number `i` of the user memory of the table `r`. -/
  | user (r i : ℕ)
  /-- The trapframe of a process. -/
  | trapframe (p : ℕ)
  | pipe
  /-- Holds an argument of `exec`. -/
  | arg
  deriving DecidableEq

namespace Owner

/-- The free pages and the pages of a page table. -/
def inTable (r : ℕ) : Owner → Prop
  | .free => True
  | .table r' _ _ => r' = r
  | _ => False

/-- The free pages, the pages of a page table and its user pages from the
one numbered `m` on. -/
def inSpace (r m : ℕ) : Owner → Prop
  | .free => True
  | .table r' _ _ => r' = r
  | .user r' i => r' = r ∧ m ≤ i
  | _ => False

theorem inSpace_of_inTable {r m : ℕ} (w : Owner) (h : inTable r w) : inSpace r m w := by
  cases w <;> first | exact h | exact h.elim

theorem inSpace_mono {r m n : ℕ} (hmn : m ≤ n) (w : Owner) (h : inSpace r n w) : inSpace r m w := by
  cases w with
  | user r' i => exact ⟨h.1, hmn.trans h.2⟩
  | _ => exact h

/-- A page in use. -/
def Used (w : Owner) : Prop := w ≠ .free ∧ w ≠ .outside

theorem used_table (r d i : ℕ) : (table r d i).Used := ⟨Owner.noConfusion, Owner.noConfusion⟩

theorem used_user (r i : ℕ) : (user r i).Used := ⟨Owner.noConfusion, Owner.noConfusion⟩

end Owner

variable {k : Symbols} {o o' : ℕ → Owner} {s s' s'' : State} {P Q : Owner → Prop} {w : Owner}
  {r b : ℕ}

/-- **The free list holds the free pages**, and every page that `kfree`
takes has an owner. -/
structure Heap (k : Symbols) (o : ℕ → Owner) (s : State) : Prop where
  managed : ∀ b, o b ≠ .outside ↔ Managed k b
  chain : ∃ l, Threaded (next s.mem) s.freelist l ∧ l.Nodup ∧ ∀ b, b ∈ l ↔ o b = .free

namespace Heap

theorem pos (h : Heap k o s) (hb : o b ≠ .outside) : b ≠ 0 := by
  have hm := ((h.managed b).1 hb).2.1
  have := k.base
  have := k.text
  simp only [KERNBASE, PGSIZE] at *
  omega

theorem lt (h : Heap k o s) (hb : o b ≠ .outside) : b < 2 ^ 56 := by
  have hm := ((h.managed b).1 hb).2.2
  simp only [PHYSTOP, KERNBASE] at hm
  omega

theorem aligned (h : Heap k o s) (hb : o b ≠ .outside) : b % PGSIZE = 0 :=
  ((h.managed b).1 hb).1

/-- Writing to pages in use leaves it alone. -/
theorem congr (h : Heap k o s) (hf : s'.freelist = s.freelist)
    (hm : ∀ b, o b = .free → s'.mem b = s.mem b) : Heap k o s' := by
  obtain ⟨l, ht, hn, hl⟩ := h.chain
  refine ⟨h.managed, l, ?_, hn, hl⟩
  rw [hf]
  refine ht.congr fun b hb => ?_
  rw [next, next, hm b ((hl b).1 hb)]

end Heap

/-- The free lists hold the same pages. -/
def SameFree (s s' : State) : Prop :=
  ∃ l l', Threaded (next s.mem) s.freelist l ∧ Threaded (next s'.mem) s'.freelist l' ∧
    l.Nodup ∧ l'.Nodup ∧ ∀ b, b ∈ l' ↔ b ∈ l

theorem Heap.sameFree (h : Heap k o s) (h' : Heap k o s') : SameFree s s' := by
  obtain ⟨l, hl, hn, hmem⟩ := h.chain
  obtain ⟨l', hl', hn', hmem'⟩ := h'.chain
  exact ⟨l, l', hl, hl', hn, hn', fun b => (hmem' b).trans (hmem b).symm⟩

/-! ## Pages that are freed -/

open Classical in
/-- The owners after the pages with an owner in `P` are freed. -/
noncomputable def freed (P : Owner → Prop) (o : ℕ → Owner) (b : ℕ) : Owner :=
  if P (o b) then .free else o b

theorem freed_of (h : P (o b)) : freed P o b = .free := if_pos h

theorem freed_of_not (h : ¬ P (o b)) : freed P o b = o b := if_neg h

theorem freed_congr (h : ∀ b, P (o b) ↔ Q (o b)) : freed P o = freed Q o := by
  funext b
  classical exact if_congr (h b) rfl rfl

/-- Nothing is freed. -/
theorem freed_eq_self (h : ∀ b, P (o b) → o b = .free) : freed P o = o := by
  funext b
  by_cases hb : P (o b)
  · rw [freed_of hb, h b hb]
  · exact freed_of_not hb

/-- Part by part. -/
theorem freed_freed {R : Owner → Prop} (h : ∀ b, R (o b) ↔ P (o b) ∨ Q (o b)) :
    freed Q (freed P o) = freed R o := by
  funext b
  by_cases hb : P (o b)
  · rw [freed_of ((h b).2 (.inl hb)), freed, freed_of hb, ite_self]
  · rw [freed, freed_of_not hb]
    classical exact if_congr ((h b).trans (or_iff_right hb)).symm rfl rfl

theorem update_freed {n : ℕ} (h : ∀ b, Q (o b) ↔ b = n ∨ P (o b)) :
    update (freed P o) n .free = freed Q o := by
  funext b
  by_cases hb : b = n
  · rw [freed_of ((h b).2 (.inl hb)), hb, update_self]
  · rw [update_of_ne hb]
    classical exact if_congr ((h b).trans (or_iff_right hb)).symm rfl rfl

/-! ## What a function does -/

/-- **What a function does**: it touches pages of its region only, and
leaves the process table, the file table and the file system alone. -/
structure Does (k : Symbols) (P : Owner → Prop) (o o' : ℕ → Owner) (s s' : State) : Prop where
  heap : Heap k o' s'
  frame : Frame P o o' s.mem s'.mem
  proc : s'.proc = s.proc
  file : s'.file = s.file
  files : s'.files = s.files

namespace Does

theorem refl (h : Heap k o s) : Does k P o o s s := ⟨h, .refl .., rfl, rfl, rfl⟩

theorem trans {o'' : ℕ → Owner} (h : Does k P o o' s s') (h' : Does k P o' o'' s' s'') :
    Does k P o o'' s s'' :=
  ⟨h'.heap, h.frame.trans h'.frame, h'.proc.trans h.proc, h'.file.trans h.file,
    h'.files.trans h.files⟩

theorem mono (h : Does k P o o' s s') (hPQ : ∀ w, P w → Q w) : Does k Q o o' s s' :=
  ⟨h.heap, h.frame.mono hPQ, h.proc, h.file, h.files⟩

/-- A region is as good as another that has the same pages in it. -/
theorem narrow (h : Does k P o o' s s') (hPQ : ∀ b, P (o b) → Q (o b))
    (hQ : ∀ b, Q (o b) → Q (o' b)) : Does k Q o o' s s' :=
  ⟨h.heap, ⟨fun b hb => h.frame.mem b fun hp => hb (hPQ b hp),
    fun b hb => h.frame.own b fun hp => hb (hPQ b hp), hQ⟩, h.proc, h.file, h.files⟩

/-- A page of the region in use is written. -/
theorem write (h : Heap k o s) (hb : P (o b)) (hw : (o b).Used) (hf : s'.freelist = s.freelist)
    (hm : ∀ c, c ≠ b → s'.mem c = s.mem c) (hp : s'.proc = s.proc) (hi : s'.file = s.file)
    (hfs : s'.files = s.files) : Does k P o o s s' := by
  refine ⟨h.congr hf fun c hc => hm c ?_, .write hb hm, hp, hi, hfs⟩
  rintro rfl
  exact hw.1 hc

end Does

/-- Pages of an owner outside the region do not change hands. -/
theorem Does.own_iff (h : Does k P o o' s s') (hw : ¬ P w) : o' b = w ↔ o b = w :=
  h.frame.own_iff hw

/-- A page of the region in use is changed. -/
theorem modify_page (h : Heap k o s) (hb : o b = w) (hw : w.Used) (hP : P w) (f : Page → Page) :
    Returns (Prog.modify fun s => { s with mem := update s.mem b (f (s.mem b)) } : Kern State Unit) s
      fun _ s' => Does k P o o s s' ∧ s'.mem = update s.mem b (f (s.mem b)) := by
  subst hb
  exact .modify ⟨.write h hP hw rfl (fun _ hc => update_of_ne hc ..) rfl rfl rfl, rfl⟩

/-- **What a function does that gives no page back.** -/
structure Takes (k : Symbols) (P : Owner → Prop) (o o' : ℕ → Owner) (s s' : State) : Prop
    extends Does k P o o' s s' where
  free : ∀ b, o' b = .free → o b = .free

namespace Takes

theorem trans {o'' : ℕ → Owner} (h : Takes k P o o' s s') (h' : Takes k P o' o'' s' s'') :
    Takes k P o o'' s s'' :=
  ⟨h.toDoes.trans h'.toDoes, fun b hb => h.free b (h'.free b hb)⟩

theorem mono (h : Takes k P o o' s s') (hPQ : ∀ w, P w → Q w) : Takes k Q o o' s s' :=
  ⟨h.toDoes.mono hPQ, h.free⟩

end Takes

/-- Who leaves all owners as they are gives nothing back. -/
theorem Does.takes (h : Does k P o o s s') : Takes k P o o s s' := ⟨h, fun _ hb => hb⟩

theorem Does.takes_update (h : Does k P o (update o b w) s s') (hw : w ≠ .free) :
    Takes k P o (update o b w) s s' := by
  refine ⟨h, fun c hc => ?_⟩
  by_cases hcb : c = b
  · rw [hcb, update_self] at hc
    exact absurd hc hw
  · rwa [update_of_ne hcb] at hc

/-! ## `kalloc` and `kfree` -/

theorem kalloc_none (h : s.deny.headD false = true ∨ s.freelist = 0) :
    kalloc s = .ok (0, { s with deny := s.deny.tail }) := by
  simp only [kalloc, Prog.gets_bind, Prog.modify_bind]
  split
  · rfl
  · rename_i hd
    have h0 := h.resolve_left hd
    simp only [Prog.gets_bind, h0, ne_eq, not_true_eq_false, ↓reduceIte]
    rfl

theorem kalloc_some (hd : ¬ s.deny.headD false = true) (h0 : s.freelist ≠ 0) :
    kalloc s = .ok (s.freelist, { s with
      mem := update s.mem s.freelist fun _ => 5
      freelist := next s.mem s.freelist
      deny := s.deny.tail }) := by
  simp only [kalloc, Prog.gets_bind, Prog.modify_bind, hd, h0, ne_eq, not_false_eq_true,
    Bool.false_eq_true, ↓reduceIte]
  rfl

/-- **`kalloc`** returns 0 and does nothing, or takes a free page, for an
owner that may depend on the page, as may the region. -/
theorem kalloc_returns {P : ℕ → Owner → Prop} (h : Heap k o s) (own : ℕ → Owner)
    (hown : ∀ r, (own r).Used) (hfree : ∀ r, P r .free) (hP : ∀ r, P r (own r)) :
    Returns kalloc s fun r s' =>
      (r = 0 ∧ (∀ P, Does k P o o s s') ∧ s'.mem = s.mem) ∨
      (r ≠ 0 ∧ o r = .free ∧ Does k (P r) o (update o r (own r)) s s' ∧
        ∀ b, b ≠ r → s'.mem b = s.mem b) := by
  by_cases h0 : s.deny.headD false = true ∨ s.freelist = 0
  · exact ⟨_, _, kalloc_none h0, .inl ⟨rfl,
      fun P => ⟨⟨h.managed, h.chain⟩, .refl .., rfl, rfl, rfl⟩, rfl⟩⟩
  obtain ⟨hd, h0⟩ := not_or.1 h0
  refine ⟨_, _, kalloc_some hd h0, ?_⟩
  obtain ⟨l, ht, hn, hl⟩ := h.chain
  obtain ⟨l, rfl⟩ := ht.ne_nil h0
  obtain ⟨-, -, ht⟩ := ht
  generalize s.freelist = r at *
  obtain ⟨hrl, hn⟩ := List.nodup_cons.1 hn
  have hfr : o r = .free := (hl r).1 (List.mem_cons_self ..)
  have hmem : ∀ b, b ≠ r → update s.mem r (fun _ => (5 : UInt8)) b = s.mem b := fun b hb =>
    update_of_ne hb ..
  refine .inr ⟨h0, hfr, ⟨⟨?_, l, ?_, hn, ?_⟩,
    .update_own (by rw [hfr]; exact hfree r) (hP r) hmem, rfl, rfl, rfl⟩, hmem⟩
  · intro b
    by_cases hb : b = r
    · subst hb
      rw [update_self, ← h.managed b, hfr]
      exact ⟨fun _ => Owner.noConfusion, fun _ => (hown b).2⟩
    · rw [update_of_ne hb]
      exact h.managed b
  · refine ht.congr fun b hb => ?_
    have hbr : b ≠ r := by
      rintro rfl
      exact hrl hb
    simp only [next, hmem b hbr]
  · intro b
    by_cases hb : b = r
    · subst hb
      rw [update_self]
      exact ⟨fun hb => absurd hb hrl, fun hb => absurd hb (hown b).1⟩
    · rw [update_of_ne hb, ← hl b, List.mem_cons]
      exact ⟨.inr, fun hb' => hb'.resolve_left hb⟩

theorem kfree_run (hb : Managed k b) (s : State) :
    kfree k b s = .ok ((), { s with
      mem := update s.mem b (Bytes.writeLE (fun _ => 1) 0 8 s.freelist)
      freelist := b }) := by
  simp only [kfree, hb, not_true_eq_false, ↓reduceIte, memset, setPage, store]
  simp only [Prog.bind_run, Prog.modify_run, Prog.gets_run, Except.bind, update_self,
    update_idem]

/-- **`kfree`** of a page in use. -/
theorem kfree_returns (h : Heap k o s) (hb : o b = w) (hw : w.Used) (hP : P w) (hfree : P .free) :
    Returns (kfree k b) s fun _ s' =>
      Does k P o (update o b .free) s s' ∧ ∀ c, c ≠ b → s'.mem c = s.mem c := by
  subst hb
  obtain ⟨l, ht, hn, hl⟩ := h.chain
  have hbl : b ∉ l := fun hbl => hw.1 ((hl b).1 hbl)
  have hlt : s.freelist < 2 ^ 64 := by
    cases l with
    | nil =>
      rw [show s.freelist = 0 from ht]
      exact Nat.two_pow_pos 64
    | cons c l =>
      have hc : o c ≠ .outside := by
        rw [(hl c).1 (List.mem_cons_self ..)]
        exact Owner.noConfusion
      rw [ht.1]
      exact (h.lt hc).trans (by decide)
  have hm : Managed k b := (h.managed b).1 hw.2
  refine ⟨_, _, kfree_run hm s, ?_⟩
  have hmem : ∀ c, c ≠ b → update s.mem b (Bytes.writeLE (fun _ => 1) 0 8 s.freelist) c = s.mem c :=
    fun c hc => update_of_ne hc ..
  refine ⟨⟨⟨?_, b :: l, ⟨rfl, h.pos hw.2, ?_⟩, List.nodup_cons.2 ⟨hbl, hn⟩, ?_⟩,
    .update_own hP hfree hmem, rfl, rfl, rfl⟩, hmem⟩
  · intro c
    by_cases hc : c = b
    · subst hc
      rw [update_self]
      exact ⟨fun _ => hm, fun _ => Owner.noConfusion⟩
    · rw [update_of_ne hc]
      exact h.managed c
  · have hnext : next (update s.mem b (Bytes.writeLE (fun _ => 1) 0 8 s.freelist)) b = s.freelist := by
      rw [next, update_self, Bytes.readLE_writeLE (by simp only [PGSIZE]; omega)]
      exact Nat.mod_eq_of_lt hlt
    rw [hnext]
    refine ht.congr fun c hc => ?_
    have hcb : c ≠ b := by
      rintro rfl
      exact hbl hc
    simp only [next, hmem c hcb]
  · intro c
    by_cases hc : c = b
    · subst hc
      simp
    · rw [update_of_ne hc, ← hl c, List.mem_cons]
      exact ⟨fun h => h.resolve_left hc, .inr⟩

end Vm

end Xv6
