import Xv6.Vm.Copyinstr
import Xv6.Vm.Program
/-!
# The system call — `sys_exec` of `kernel/sysfile.c`

`sys_exec` takes a page for each argument, calls `exec`, and gives the
pages back. Whatever the file, the path, the pointers and the memory that
is left, it ends, and a panic on the way is one of `fs.c`; when it returns
-1, it leaves nothing behind (`sysExec_fails_clean`).
-/

namespace Xv6

open Common Function Files List

namespace Vm

variable {k : Symbols} {o o' : ℕ → Owner} {s₀ s s₁ s' : State} {P : Owner → Prop} {argv : List ℕ}
  {r p uargv n i : ℕ}

/-! ## The pages of the arguments -/

/-- The owners after pages are taken for arguments. -/
def lent (o : ℕ → Owner) (argv : List ℕ) (b : ℕ) : Owner := if b ∈ argv then .arg else o b

/-- **Free pages have been taken for arguments**, and nothing else has been
touched. -/
structure Lent (k : Symbols) (o : ℕ → Owner) (s₀ s : State) (argv : List ℕ) : Prop where
  does : Does k Owner.forArgs o (lent o argv) s₀ s
  nodup : argv.Nodup
  free : ∀ a ∈ argv, o a = .free
  mem : ∀ b, o b ≠ .free → s.mem b = s₀.mem b

theorem lent_nil (o : ℕ → Owner) : lent o [] = o := by
  funext b
  rw [lent, if_neg not_mem_nil]

theorem lent_append (o : ℕ → Owner) (argv : List ℕ) (a : ℕ) :
    lent o (argv ++ [a]) = update (lent o argv) a .arg := by
  funext b
  rw [update_apply]
  simp only [lent, mem_append, mem_singleton]
  by_cases hb : b = a
  · simp [hb]
  · simp [hb]

/-- The string ends where there is a NUL. -/
theorem length_cstring_le {page : Page} {j : ℕ} (h : page.get j = 0) :
    (cstring page).length ≤ j := by
  rw [cstring, takeWhile_eq_take_findIdx_not, length_take]
  refine (Nat.min_le_left ..).trans ?_
  by_contra hlt
  have := not_of_lt_findIdx (Nat.lt_of_not_le hlt)
  simp [h] at this

/-- A string that `copyinstr` has copied ends in the page. -/
theorem length_cstring_copyinstr {um : UserMem} {page : Page} {va : ℕ} (hva : va < 2 ^ 64)
    (h : (um.copyinstr page 0 va PGSIZE).1 = true) :
    (cstring (um.copyinstr page 0 va PGSIZE).2).length < PGSIZE := by
  rw [UserMem.copyinstr_eq hva] at h ⊢
  obtain ⟨j, hj⟩ := Option.isSome_iff_exists.1 h
  obtain ⟨hlt, h0, -⟩ := UserMem.strEnd_eq_some.1 hj
  refine (length_cstring_le ?_).trans_lt hlt
  have hw : um.written va PGSIZE = j + 1 := by rw [UserMem.written, hj]
  rw [Bytes.get_splice, hw, if_pos ⟨Nat.zero_le j, by omega, hlt⟩, Nat.sub_zero, h0]
  rfl

theorem fetchaddr_lt {addr uarg : ℕ} (h : fetchaddr p addr s = some uarg) : uarg < 2 ^ 64 := by
  simp only [fetchaddr, Option.ite_none_left_eq_some, Option.ite_none_right_eq_some,
    Option.some.injEq] at h
  obtain ⟨-, -, rfl⟩ := h
  exact Bytes.readLE_lt _ 0 8

/-- **The loop of `sys_exec`** takes a page for each argument. -/
theorem fetchArgs_returns (h : Lent k o s₀ s argv)
    (htext : ∀ a ∈ argv, (cstring (s.mem a)).length < PGSIZE) :
    Returns (fetchArgs p uargv n i argv) s fun res s' => Lent k o s₀ s' res.2 ∧
      (res.1 = true → ∀ a ∈ res.2, (cstring (s'.mem a)).length < PGSIZE) := by
  induction n generalizing s i argv with
  | zero => exact .pure ⟨h, fun hf => absurd hf Bool.false_ne_true⟩
  | succ n ih =>
    rw [fetchArgs]
    simp only [Returns.gets_bind_iff]
    cases huarg : fetchaddr p ((uargv + 8 * i) % 2 ^ 64) s with
    | none => exact .pure ⟨h, fun hf => absurd hf Bool.false_ne_true⟩
    | some uarg =>
      by_cases h0 : uarg = 0
      · simp only [h0, ↓reduceIte]
        exact .pure ⟨h, fun _ => htext⟩
      simp only [h0, ↓reduceIte]
      refine .bind ((kalloc_returns (P := fun _ => Owner.forArgs) h.does.heap (fun _ => .arg)
        (fun _ => ⟨Owner.noConfusion, Owner.noConfusion⟩) (fun _ => .inl rfl) fun _ => .inr rfl).mono ?_)
      rintro page s₁ (⟨rfl, hdo, hmem⟩ | ⟨hp0, hfree, hdo, hmem⟩)
      · rw [if_pos rfl]
        refine .pure ⟨⟨h.does.trans (hdo _), h.nodup, h.free, fun b hb => ?_⟩,
          fun hf => absurd hf Bool.false_ne_true⟩
        rw [hmem, h.mem b hb]
      rw [if_neg hp0]
      have hnew : page ∉ argv := by
        intro hin
        rw [lent, if_pos hin] at hfree
        cases hfree
      have hofree : o page = .free := by rwa [lent, if_neg hnew] at hfree
      rw [← lent_append] at hdo
      have hown : lent o (argv ++ [page]) page = .arg := by
        rw [lent_append, update_self]
      simp only [Returns.gets_bind_iff]
      -- the string goes to the page
      refine .bind ((modify_page (P := Owner.forArgs) hdo.heap hown
        ⟨Owner.noConfusion, Owner.noConfusion⟩ (.inr rfl)
        fun _ => (fetchstr p uarg (s₁.mem page) PGSIZE s₁).2).mono ?_)
      rintro - s₂ ⟨hdo₂, hmem₂⟩
      have hlent : Lent k o s₀ s₂ (argv ++ [page]) := by
        refine ⟨(h.does.trans hdo).trans hdo₂, ?_, fun a ha => ?_, fun b hb => ?_⟩
        · exact nodup_append.2 ⟨h.nodup, nodup_singleton _, fun a ha b hb heq => by
            rw [mem_singleton] at hb
            exact hnew (hb ▸ heq ▸ ha)⟩
        · rcases mem_append.1 ha with ha | ha
          · exact h.free a ha
          · rw [mem_singleton.1 ha, hofree]
        · have hne : b ≠ page := by
            rintro rfl
            exact hb hofree
          rw [hmem₂, update_of_ne hne, hmem b hne, h.mem b hb]
      cases hok : (fetchstr p uarg (s₁.mem page) PGSIZE s₁).1 with
      | false => exact .pure ⟨hlent, fun hf => absurd hf Bool.false_ne_true⟩
      | true =>
        refine ih hlent fun a ha => ?_
        rw [hmem₂]
        by_cases hap : a = page
        · rw [hap, update_self]
          exact length_cstring_copyinstr (fetchaddr_lt huarg) hok
        · have ha : a ∈ argv := by simpa [hap] using ha
          rw [update_of_ne hap, hmem a hap]
          exact htext a ha

/-- **The pages are given back.** -/
theorem freeArgs_returns (hh : Heap k o s) (hnodup : argv.Nodup) (hown : ∀ a ∈ argv, o a = .arg) :
    Returns (argv.forM fun arg => kfree k arg) s fun _ s' =>
      Does k Owner.forArgs o (fun b => if b ∈ argv then .free else o b) s s' ∧
        ∀ b, b ∉ argv → s'.mem b = s.mem b := by
  induction argv generalizing o s with
  | nil =>
    refine .pure ⟨?_, fun _ _ => rfl⟩
    simp only [not_mem_nil, ↓reduceIte]
    exact .refl hh
  | cons a argv ih =>
    obtain ⟨ha, hnodup⟩ := nodup_cons.1 hnodup
    rw [forM_eq_forM, forM_cons]
    refine .bind ((kfree_returns (P := Owner.forArgs) hh (hown a (mem_cons_self ..))
      ⟨Owner.noConfusion, Owner.noConfusion⟩ (.inr rfl) (.inl rfl)).mono ?_)
    rintro - s₁ ⟨hdo₁, hmem₁⟩
    refine (ih hdo₁.heap hnodup fun b hb => ?_).mono ?_
    · have hne : b ≠ a := by
        rintro rfl
        exact ha hb
      rw [update_of_ne hne]
      exact hown b (mem_cons_of_mem _ hb)
    · rintro - s' ⟨hdo, hmem⟩
      refine ⟨?_, fun b hb => ?_⟩
      · have howner : (fun b => if b ∈ argv then .free else update o a .free b) =
            fun b => if b ∈ a :: argv then .free else o b := by
          funext b
          by_cases hb : b = a
          · simp [hb]
          · simp [hb]
        rw [howner] at hdo
        exact hdo₁.trans hdo
      · rw [mem_cons, not_or] at hb
        rw [hmem b hb.2, hmem₁ b hb.1]

section

variable (h : Lent k o s₀ s argv)
include h

theorem Lent.own_iff {w : Owner} {b : ℕ} (h1 : w ≠ .arg) (h2 : w ≠ .free) :
    lent o argv b = w ↔ o b = w :=
  h.does.own_iff (not_forArgs h1 h2)

/-- **Pages lent for arguments make no difference** to what was done in the
meantime, once they are given back. -/
theorem Lent.frame {o₂ : ℕ → Owner} {mem₂ mem₃ : ℕ → Page}
    (hfree : P .free) (hf : Frame P (lent o argv) o₂ s.mem mem₂)
    (hback : ∀ b, b ∉ argv → mem₃ b = mem₂ b) :
    Frame P o (fun b => if b ∈ argv then .free else o₂ b) s₀.mem mem₃ := by
  have hout : ∀ b, ¬ P (o b) → b ∉ argv ∧ o b ≠ .free := by
    intro b hb
    have hne : o b ≠ .free := by
      intro h0
      rw [h0] at hb
      exact hb hfree
    exact ⟨fun hin => hne (h.free b hin), hne⟩
  refine ⟨fun b hb => ?_, fun b hb => ?_, fun b hb => ?_⟩
  · obtain ⟨hin, hne⟩ := hout b hb
    rw [hback b hin, hf.mem b (by rwa [lent, if_neg hin]), h.mem b hne]
  · obtain ⟨hin, -⟩ := hout b hb
    rw [if_neg hin, hf.own b (by rwa [lent, if_neg hin]), lent, if_neg hin]
  · by_cases hin : b ∈ argv
    · rw [if_pos hin]
      exact hfree
    · rw [if_neg hin]
      exact hf.region b (by rwa [lent, if_neg hin])

/-- **Nothing is left of the pages lent** when all else has been undone. -/
theorem Lent.undone {s₂ s₃ : State} (hmem : DoesMem k (· = .free) (lent o argv) (lent o argv) s s₂)
    (hdo : Does k Owner.forArgs (lent o argv) (fun b => if b ∈ argv then .free else lent o argv b) s₂ s₃)
    (hback : ∀ b, b ∉ argv → s₃.mem b = s₂.mem b) : DoesMem k (· = .free) o o s₀ s₃ := by
  have hown : (fun b => if b ∈ argv then .free else lent o argv b) = o := by
    funext b
    by_cases hb : b ∈ argv
    · rw [if_pos hb, h.free b hb]
    · rw [if_neg hb, lent, if_neg hb]
  have hheap := hdo.heap
  have hframe := h.frame (P := (· = .free)) rfl hmem.frame hback
  rw [hown] at hheap hframe
  exact ⟨hheap, hframe, (hdo.proc.trans hmem.proc).trans h.does.proc,
    (hdo.file.trans hmem.file).trans h.does.file, rfl⟩

/-- **A process that has taken on a new address space** has done so when the
pages lent are given back, too. -/
theorem Lent.committed {o₂ o₃ : ℕ → Owner} {s₂ s₃ : State} {sz : ℕ} {name : List UInt8}
    (hc : Committed k (lent o argv) o₂ { s with files := s₂.files } s₂ p r sz name)
    (ho₃ : o₃ = fun b => if b ∈ argv then .free else o₂ b)
    (hdo : Does k Owner.forArgs o₂ o₃ s₂ s₃) (hback : ∀ b, b ∉ argv → s₃.mem b = s₂.mem b) :
    Committed k o o₃ { s₀ with files := s₃.files } s₃ p r sz name := by
  have hproc : s.proc = s₀.proc := h.does.proc
  have hframe := h.frame (.inl trivial) hc.frame hback
  have hold := hc.old
  have hown : ∀ {b w}, w ≠ .arg → w ≠ .free → (o₃ b = w ↔ o₂ b = w) := fun h1 h2 =>
    hdo.own_iff (not_forArgs h1 h2)
  rw [← ho₃] at hframe
  simp only [hproc] at hframe hold
  refine ⟨hdo.heap, hframe, fun b => ?_, ⟨fun b d i hb => ?_, fun b i hb => ?_⟩, ?_, ?_, rfl⟩
  · rw [hown Owner.noConfusion Owner.noConfusion, hc.trapframe,
      h.own_iff Owner.noConfusion Owner.noConfusion]
  · exact hold.table b d i ((hown Owner.noConfusion Owner.noConfusion).1 hb)
  · exact hold.user b i ((hown Owner.noConfusion Owner.noConfusion).1 hb)
  · rw [hdo.proc, hc.proc, hproc]
  · rw [hdo.file, hc.file]
    exact h.does.file

end

/-! ## The call -/

/-- **What `sys_exec` comes to**: it has failed and only used free pages, or
the process has taken on a new address space. -/
def Outcome (k : Symbols) (o : ℕ → Owner) (s : State) (p : ℕ) (ret : ℤ) (s' : State) : Prop :=
  Took s.files [] none s'.files ∧
    (ret = -1 ∧ DoesMem k (· = .free) o o s s' ∨
      0 ≤ ret ∧ ∃ o' r sz name ptes f, Unused o r ∧
        Committed k o o' { s with files := s'.files } s' p r sz name ∧
        Space o' s'.mem r ptes f (kernelMap k (s.proc p).trapframe) ∧ ptes.length = pages sz)

/-- The end of `sys_exec` when it fails. -/
theorem freeArgs_fails {s₂ : State} (hlent : Lent k o s s₁ argv) (htook : Took s.files [] none s₂.files)
    (hmem : DoesMem k (· = .free) (lent o argv) (lent o argv) s₁ s₂) :
    Hoare (· = s₂) (do argv.forM fun arg => kfree k arg; return (-1)) (Outcome k o s p) PathPanic := by
  refine ((freeArgs_returns hmem.heap hlent.nodup fun a ha => if_pos ha).hoare _).seq ?_
  rintro - s₃ ⟨hdo, hback⟩
  refine .pure ?_
  rintro _ rfl
  exact ⟨by rw [hdo.files]; exact htook, .inl ⟨rfl, hlent.undone hmem hdo hback⟩⟩

/-- `sys_exec` from the call of `exec` on. -/
theorem execArgs_outcome {name : List UInt8} (h : Ready k o s p) (hlent : Lent k o s s₁ argv)
    (htext : ∀ a ∈ argv, (cstring (s₁.mem a)).length < PGSIZE) :
    Hoare (· = s₁) (do let ret ← exec k p name argv; argv.forM fun arg => kfree k arg; return ret)
      (Outcome k o s p) PathPanic := by
  have hready : Ready k (lent o argv) s₁ p := h.frame hlent.does
    (fun _ _ _ => not_forArgs Owner.noConfusion Owner.noConfusion)
    (fun _ _ => not_forArgs Owner.noConfusion Owner.noConfusion)
    fun _ => not_forArgs Owner.noConfusion Owner.noConfusion
  have hargs : Args (lent o argv) s₁.mem argv (argv.map fun a => cstring (s₁.mem a)) := by
    refine ⟨fun a ha => if_pos ha, rfl, fun str hstr => ?_⟩
    obtain ⟨a, ha, rfl⟩ := mem_map.1 hstr
    exact htext a ha
  refine (exec_hoare name hready hargs).seq ?_
  rintro ret s₂ ⟨htook, hpost⟩
  rw [hlent.does.files] at htook
  rcases hrun : execImage k p name s₁ with e | ⟨_ | ⟨entry, r, sz⟩, s₁'⟩ <;> rw [hrun] at hpost
  · exact hpost.elim
  · rw [hpost.1]
    exact freeArgs_fails hlent htook hpost.2
  obtain ⟨o₁, ptes, f, n, file, hb, -, hpost⟩ := hpost
  split at hpost
  swap
  · rw [hpost.1]
    exact freeArgs_fails hlent htook hpost.2
  obtain ⟨hret, o₂, w, hw, hc, hspace, -, -⟩ := hpost
  have hnot : ¬ Owner.handed r (s₁.proc p).pagetable p .arg := by
    rintro (h | h | h)
    · exact h
    · exact h
    · cases h
  have hown : ∀ a ∈ argv, o₂ a = .arg := fun a ha => (hc.frame.own_iff hnot).2 (if_pos ha)
  refine ((freeArgs_returns hc.heap hlent.nodup hown).hoare _).seq ?_
  rintro - s₃ ⟨hdo, hback⟩
  refine .pure ?_
  rintro s₃ rfl
  have hspace₃ := hspace.frame hdo.frame (fun _ _ => not_forArgs Owner.noConfusion Owner.noConfusion)
    fun _ => not_forArgs Owner.noConfusion Owner.noConfusion
  rw [hlent.does.proc] at hspace₃
  refine ⟨by rw [hdo.files]; exact htook, .inr ⟨by rw [hret]; exact Int.natCast_nonneg _, _, r, sz, _,
    _, _, ⟨fun b d i hbt => ?_, fun b i hbu => ?_⟩, hlent.committed hc rfl hdo hback, hspace₃, ?_⟩⟩
  · exact hb.unused.table b d i ((hlent.own_iff Owner.noConfusion Owner.noConfusion).2 hbt)
  · exact hb.unused.user b i ((hlent.own_iff Owner.noConfusion Owner.noConfusion).2 hbu)
  · rw [length_set, hb.image.length]

/-- **`sys_exec`** fails with nothing but free pages used, or succeeds. -/
theorem sysExec_hoare (path uargv : ℕ) (h : Ready k o s p) :
    Hoare (· = s) (sysExec k p path uargv) (Outcome k o s p) PathPanic := by
  rw [sysExec]
  refine .gets_bind ?_
  cases (fetchstr p path (fun _ => 0) MAXPATH s).1 with
  | false =>
    refine .pure ?_
    rintro _ rfl
    exact ⟨.refl h.unlocked, .inl ⟨rfl, .refl h.heap⟩⟩
  | true =>
    have hstart : Lent k o s s [] := by
      refine ⟨?_, nodup_nil, fun a ha => absurd ha not_mem_nil, fun _ _ => rfl⟩
      rw [lent_nil]
      exact .refl h.heap
    refine ((fetchArgs_returns hstart fun a ha => absurd ha not_mem_nil).hoare _).seq ?_
    rintro ⟨fetched, argv⟩ s₁ ⟨hlent, htext⟩
    cases fetched with
    | false =>
      refine freeArgs_fails hlent ?_ (.refl hlent.does.heap)
      rw [hlent.does.files]
      exact .refl h.unlocked
    | true => exact execArgs_outcome h hlent (htext rfl)

/-! ## Nothing is left behind -/

/-- **Nothing has happened to a process**: neither to its page table, size,
name, descriptors and current directory, nor to its memory and registers;
the free pages are the same ones, and no reference, lock or transaction is
left. -/
structure Untouched (s s' : State) (p : ℕ) : Prop where
  proc : s'.proc = s.proc
  file : s'.file = s.file
  memory : SameMemory (s.proc p).pagetable s s'
  trapframe : s'.mem (s.proc p).trapframe = s.mem (s.proc p).trapframe
  free : SameFree s s'
  refs : ∀ ip, (s'.files.inode ip).ref = (s.files.inode ip).ref
  locks : ∀ ip, (s'.files.inode ip).locked = (s.files.inode ip).locked
  outstanding : s'.files.outstanding = s.files.outstanding

/-- **A failing `sys_exec` changes nothing**, and no panic of the memory
management is reached. -/
theorem sysExec_fails_clean (path uargv : ℕ) (h : Ready k o s p) :
    Hoare (· = s) (sysExec k p path uargv) (fun ret s' => ret = -1 → Untouched s s' p) PathPanic := by
  refine (sysExec_hoare path uargv h).conseq (fun _ h => h) ?_
  rintro ret s' ⟨htook, ⟨-, hdo⟩ | ⟨hret, -⟩⟩ hfail
  swap
  · omega
  obtain ⟨ptes, f, hspace, -⟩ := h.space
  have hspace' : Space o s'.mem (s.proc p).pagetable ptes f (kernelMap k (s.proc p).trapframe) :=
    hspace.frame hdo.frame (fun _ _ => Owner.noConfusion) fun _ => Owner.noConfusion
  refine ⟨hdo.proc, hdo.file, hspace.sameMemory hspace' h.heap hdo.heap (above_kernelMap ..), ?_,
    h.heap.sameFree hdo.heap, htook.ref, fun ip => ?_, htook.outstanding⟩
  · refine hdo.frame.mem _ ?_
    rw [h.trapframe]
    exact Owner.noConfusion
  · rw [htook.locked, h.unlocked]
    rfl

theorem sysExec_fails_clean_small : (∃ o, Ready smallKernel o smallMachine initproc) ∧
    Hoare (· = smallMachine) (sysExec smallKernel initproc 0 0)
      (fun ret s' => ret = -1 → Untouched smallMachine s' initproc) PathPanic := by
  obtain ⟨o, h⟩ := smallMachine_ready
  exact ⟨⟨o, h⟩, sysExec_fails_clean 0 0 h⟩

end Vm

end Xv6
