import Xv6.Vm.Boot
/-!
# What a new program finds in its memory

When `exec` succeeds, the memory of the process holds the segments that
the program headers of the file declare, over zeroes and in the order of
the headers; and on top of it, in one page above a page that the user
cannot touch, the arguments. The offsets in the headers are 64 bits wide
and `exec` cuts them to 32; what it loads is what the file declares as
long as nothing is lost that way.
-/

namespace Xv6

open Common Function Files List

namespace Vm

variable {k : Symbols} {o : ℕ → Owner} {s s' : State} {X : ℕ → ℕ} {ptes : List ℕ} {f g : ℕ → UInt8}
  {strs : List (List UInt8)} {argv : List ℕ} {file : List UInt8} {r p n sz va : ℕ}

/-! ## The arguments -/

/-- A byte of an address space, whether for the user or not. -/
def rawByte (r : ℕ) (s : State) (va : ℕ) : UInt8 :=
  Bytes.get (s.mem (pte2pa (pteAt s.mem r (va / PGSIZE)))) (va % PGSIZE)

theorem Holding.rawByte_eq (h : Space o s.mem r ptes f X) (hva : va < ptes.length * PGSIZE) :
    rawByte r s va = f va := by
  have hi : va / PGSIZE < ptes.length := Nat.div_lt_of_lt_mul (by rwa [Nat.mul_comm])
  have hw := getElem?_eq_getElem hi
  rw [rawByte, h.pteAt_lt hi, h.byte _ _ hw _ (Nat.mod_lt _ (by decide)), Nat.div_add_mod']

/-- **The strings and the pointers to them are in memory**: the pointers at
`sp`, with a zero after the last. -/
structure ArgStack (um : UserMem) (sp : ℕ) (strs : List (List UInt8)) (addrs : List ℕ) : Prop where
  strings : ∀ (i : ℕ) (str : List UInt8) (a : ℕ), strs[i]? = some str → addrs[i]? = some a →
    ∀ j, j ≤ str.length → um.byteAt (a + j) = some ((str ++ [0]).getD j 0)
  pointers : ∀ (i a : ℕ), (addrs ++ [0])[i]? = some a →
    ∀ j, j < 8 → um.byteAt (sp + 8 * i + j) = some (UInt8.ofNat (a / 256 ^ j))

/-- **A program is ready to start** with its arguments: they are laid out in
the topmost page, `sp` and `a1` point to the pointers, and the page below is
mapped and not for the user. -/
structure Started (s : State) (p r sz sp : ℕ) (strs : List (List UInt8)) (addrs : List ℕ) :
    Prop where
  pagetable : (s.proc p).pagetable = r
  size : (s.proc p).sz = sz
  layout : Layout (sz - PGSIZE) sz sp strs addrs
  args : ArgStack (userMem r s) sp strs addrs
  a1 : (s.mem (s.proc p).trapframe).readLE a1Off 8 = sp
  stack : (s.mem (s.proc p).trapframe).readLE spOff 8 = sp
  guard : pteAt s.mem r (sz / PGSIZE - 2) &&& PTE_V ≠ 0 ∧
    pteAt s.mem r (sz / PGSIZE - 2) &&& PTE_U = 0

/-- The bytes of an array of numbers. -/
theorem getElem?_flatMap_bytesLE {l : List ℕ} {i j a : ℕ} (ha : l[i]? = some a) (hj : j < 8) :
    (l.flatMap (bytesLE 8))[8 * i + j]? = some (UInt8.ofNat (a / 256 ^ j)) := by
  induction l generalizing i with
  | nil => cases ha
  | cons b l ih =>
    have hlen : (bytesLE 8 b).length = 8 := by simp [bytesLE]
    rw [flatMap_cons]
    cases i with
    | zero =>
      cases ha
      rw [getElem?_append_left (by omega)]
      simp [bytesLE, hj]
    | succ i =>
      rw [getElem?_append_right (by omega), hlen, show 8 * (i + 1) + j - 8 = 8 * i + j by omega]
      exact ih ha

/-- **The arguments are on the stack.** -/
theorem argStack_stacked {um : UserMem} (hfits : Fits strs) (htop : sz % 16 = 0) (hle : PGSIZE ≤ sz)
    (hum : ∀ x, sz - PGSIZE ≤ x → x < sz → um.byteAt x = some (stacked sz strs f x)) :
    ArgStack um (sz - stackRoom strs) strs (stringAddrs sz strs 0) := by
  have hroom := hfits.2
  have hl : Layout (sz - PGSIZE) sz (sz - stackRoom strs) strs (stringAddrs sz strs 0) :=
    layout_stringAddrs htop (by omega)
  have harray := hl.array
  have hbase := hl.base_le
  constructor
  · intro i str a hstr ha j hj
    have := hl.place i str a hstr ha
    rw [hum _ (by omega) (by omega), stacked,
      overlay_of_ge (by rw [length_pointers]; omega), pushed_at (by rw [stackRoom] at hroom; omega)
        hstr ha hj]
  · intro i a ha j hj
    have hi : i < strs.length + 1 := by
      have := (List.getElem?_eq_some_iff.1 ha).1
      simpa using this
    have hlen : 8 * i + j < (pointers sz strs).length := by
      rw [length_pointers]
      omega
    rw [hum _ (by omega) (by omega), stacked, Nat.add_assoc, overlay_at hlen]
    have := getElem?_flatMap_bytesLE ha hj
    rw [← pointers, getElem?_eq_getElem hlen] at this
    exact this

/-- **What `exec` makes of the arguments**: it fails without an image, and
otherwise if and only if they cannot be laid out in the stack page; either
way nothing below that page is written, and the stack pointer does not
wrap. If they can, the program is ready to start with them. -/
def StackBuilt (k : Symbols) (p : ℕ) (path : List UInt8) (argv : List ℕ) (strs : List (List UInt8))
    (s : State) (ret : ℤ) (s' : State) : Prop :=
  match execImage k p path s with
  | .error _ => False
  | .ok (none, _) => ret = -1
  | .ok (some (_, r, sz), s₁) =>
    (Returns (execStack r sz argv) s₁ fun _ s₂ =>
      ∀ va, va < sz - PGSIZE → rawByte r s₂ va = rawByte r s₁ va) ∧
    (∀ i, i ≤ strs.length → sz - PGSIZE ≤ spBefore sz strs i →
      pushSize strs i ≤ spBefore sz strs i) ∧
    ((∃ sp addrs, Layout (sz - PGSIZE) sz sp strs addrs) →
      ret = strs.length ∧ ∃ sp addrs, Started s' p r sz sp strs addrs ∧
        sp = pushSp (spBefore sz strs strs.length) (pushSize strs strs.length) ∧
        ∀ i a, addrs[i]? = some a → a = spBefore sz strs (i + 1)) ∧
    (¬ (∃ sp addrs, Layout (sz - PGSIZE) sz sp strs addrs) → ret = -1)

/-- **`exec` builds the argument stack.** -/
theorem exec_argument_stack (path : List UInt8) (h : Ready k o s p) (hargs : Args o s.mem argv strs)
    (hcount : argv.length < MAXARG) :
    Hoare (· = s) (exec k p path argv) (StackBuilt k p path argv strs s) PathPanic := by
  have hstrs : strs.length < MAXARG := by rwa [hargs.text, length_map]
  refine (exec_hoare path h hargs).conseq (fun _ h => h) ?_
  rintro ret s' ⟨-, hpost⟩
  rw [StackBuilt]
  rcases hrun : execImage k p path s with e | ⟨_ | ⟨entry, r, sz⟩, s₁⟩ <;> rw [hrun] at hpost
  · exact hpost
  · exact hpost.1
  obtain ⟨o₁, ptes, f, n, file, hb, hargs₁, hpost⟩ := hpost
  have hbig : 2 * PGSIZE ≤ sz := by
    rw [hb.size]
    exact Nat.mul_le_mul_right _ hb.two
  have htop : sz % 16 = 0 := by
    have := hb.size
    simp only [PGSIZE] at this
    omega
  have hlen : ptes.length = n := by rw [hb.image.length, hb.size, pages_mul]
  have hfit : (∃ sp addrs, Layout (sz - PGSIZE) sz sp strs addrs) ↔ Fits strs := by
    rw [layout_iff htop (by omega), Fits]
    exact ⟨fun h => ⟨hstrs.le, h⟩, fun h => h.2⟩
  refine ⟨?_, fun i _ => pushSize_le_spBefore hbig hargs.length hstrs, ?_, ?_⟩
  · refine (execStack_returns hb.image hb.does.heap (above_kernelMap ..) hb.two hb.size hargs₁).mono ?_
    rintro - s₂ ⟨g, w, -, -, hspace, hlow, -⟩ va hva
    have hin : va < ptes.length * PGSIZE := by
      rw [hlen, ← hb.size]
      omega
    rw [hspace.rawByte_eq (by rwa [length_set]), hlow va hva, hb.image.space.rawByte_eq hin]
  · intro hcan
    have hfits := hfit.1 hcan
    rw [if_pos hfits] at hpost
    obtain ⟨hret, o', w, hw, hc, hspace, ha1, hsp⟩ := hpost
    have hroom := hfits.2
    have hle := hb.image.space.le hb.does.heap
    have hlt : sz < 2 ^ 64 := by
      have := hb.size
      simp only [npages, PHYSTOP, KERNBASE, PGSIZE] at hle this
      omega
    have hpt : s'.proc p = { s.proc p with name := (lastElem path).take 15, pagetable := r, sz } := by
      rw [hc.proc, update_self]
    have hum : ∀ x, sz - PGSIZE ≤ x → x < sz → (userMem r s').byteAt x = some (stacked sz strs f x) := by
      intro x h1 h2
      have hdiv : x / PGSIZE = n - 1 := by
        have := hb.size
        simp only [PGSIZE] at this h1 h2 ⊢
        omega
      have huser : ForUser (ptes.set (n - 2) (guarded w)) x := by
        have htwo := hb.two
        rw [ForUser, hdiv, getElem?_set_ne (by omega), ← hdiv]
        exact hb.image.forUser (by rw [hlen, ← hb.size]; exact h2)
      rw [hspace.byteAt_eq hc.heap (above_kernelMap ..), Nat.mod_eq_of_lt (by omega), if_pos huser]
    have hpage : sz / PGSIZE - 2 = n - 2 := by
      rw [hb.size, Nat.mul_div_cancel _ (by decide)]
    obtain ⟨hpte, hleaf⟩ := hspace.leaf (n - 2) (guarded w) (getElem?_set_self (by
      rw [hlen]
      have := hb.two
      omega))
    have hsum : stackRoom strs = stringRoom strs + room (8 * (strs.length + 1)) := rfl
    have hmod := stringRoom_mod strs
    have hend : spBefore sz strs strs.length = sz - stringRoom strs := by
      have hroom : 0 + stringRoom strs ≤ sz := by omega
      have := spBefore_length htop (Nat.zero_mod 16) hlt hroom
      rwa [Nat.sub_zero, Nat.zero_add] at this
    refine ⟨hret, sz - stackRoom strs, stringAddrs sz strs 0, ⟨?_, ?_, layout_stringAddrs htop ?_,
      argStack_stacked hfits htop (by omega) hum, ?_, ?_, ?_, ?_⟩, ?_, ?_⟩
    · rw [hpt]
    · rw [hpt]
    · omega
    · rw [hpt]
      exact ha1
    · rw [hpt]
      exact hsp
    · rw [hpage, hpte]
      exact hleaf.1
    · rw [hpage, hpte]
      exact guarded_and_user w
    · have hlast : pushSize strs strs.length = 8 * (strs.length + 1) := by
        rw [pushSize, getElem?_eq_none le_rfl]
        exact Nat.mul_comm ..
      have := le_room (8 * (strs.length + 1))
      rw [hend, hlast, pushSp_eq (by omega) (by omega) (by omega), hsum]
      omega
    · intro i a ha
      exact stringAddrs_eq_spBefore htop (Nat.zero_mod 16) hlt (by omega) ha
  · intro hnot
    rw [hfit] at hnot
    rw [if_neg hnot] at hpost
    exact hpost.1

/-- A page for an argument, taken from the free list and filled. -/
def argPage (page : Page) : Kern State ℕ := do
  let a ← kalloc
  Prog.modify fun s => { s with mem := update s.mem a page }
  return a

/-- A process is ready to call `exec` with one argument more. -/
theorem argPage_returns {page : Page} (h : Ready k o s p) (hargs : Args o s.mem argv strs)
    (hlen : (cstring page).length < PGSIZE) :
    Returns (argPage page) s fun a s' => a ≠ 0 → ∃ o', Ready k o' s' p ∧
      Args o' s'.mem (a :: argv) (cstring page :: strs) := by
  refine .bind ((kalloc_returns (P := fun _ => Owner.forArgs) h.heap (fun _ => .arg)
    (fun _ => ⟨Owner.noConfusion, Owner.noConfusion⟩) (fun _ => .inl rfl) fun _ => .inr rfl).mono ?_)
  rintro a s₁ (⟨rfl, -, -⟩ | ⟨-, hfree, hdo, hmem⟩)
  · exact .bind (.modify (.pure fun h0 => absurd rfl h0))
  refine .bind ((modify_page (P := Owner.forArgs) hdo.heap (update_self ..)
    ⟨Owner.noConfusion, Owner.noConfusion⟩ (.inr rfl) fun _ => page).mono ?_)
  rintro - s₂ ⟨hdo₂, hmem₂⟩
  refine .pure fun _ => ⟨_, h.frame (hdo.trans hdo₂)
    (fun _ _ _ => not_forArgs Owner.noConfusion Owner.noConfusion)
    (fun _ _ => not_forArgs Owner.noConfusion Owner.noConfusion)
    fun _ => not_forArgs Owner.noConfusion Owner.noConfusion, fun b hb => ?_, ?_, ?_⟩
  · rcases mem_cons.1 hb with rfl | hb
    · exact update_self ..
    · rw [update_apply, hargs.own b hb, ite_self]
  · rw [hargs.text, map_cons, hmem₂, update_self]
    refine congrArg _ (map_congr_left fun b hb => ?_)
    have hne : b ≠ a := by
      rintro rfl
      rw [hargs.own b hb] at hfree
      cases hfree
    rw [update_of_ne hne, hmem b hne]
  · exact forall_mem_cons.2 ⟨hlen, hargs.length⟩

/-- The program `a` with the arguments `a` and `bc`. -/
theorem exec_argument_stack_two : ∃ o s argv, Ready smallKernel o s initproc ∧
    Args o s.mem argv [[97], [98, 99]] ∧
    Hoare (· = s) (exec smallKernel initproc [97] argv)
      (StackBuilt smallKernel initproc [97] argv [[97], [98, 99]] s) PathPanic := by
  let page (str : List UInt8) : Page := fun i => str.getD i 0
  have hpage : ∀ str ∈ [[97], [98, 99]], cstring (page str) = str := by decide +kernel
  obtain ⟨o, h⟩ := smallMachine_ready
  obtain ⟨x, s₂, hrun, h0⟩ : Returns (do
      let b ← argPage (page [98, 99])
      let a ← argPage (page [97])
      return (a, b)) smallMachine fun x _ => decide (x.1 ≠ 0 ∧ x.2 ≠ 0) = true :=
    .of_run (by decide +kernel)
  obtain ⟨b, s₁, hb, hrest⟩ := Prog.bind_ok hrun
  obtain ⟨a, s₂', ha, hret⟩ := Prog.bind_ok hrest
  cases hret
  obtain ⟨ha0, hb0⟩ := of_decide_eq_true h0
  have hshort : ∀ str ∈ [[97], [98, 99]], (cstring (page str)).length < PGSIZE := by
    intro str hstr
    rw [hpage str hstr]
    revert str
    decide
  obtain ⟨b', s₁', hb', hpost⟩ := argPage_returns h args_nil (hshort [98, 99] (by decide))
  cases hb.symm.trans hb'
  obtain ⟨o₁, h₁, hargs₁⟩ := hpost hb0
  obtain ⟨a', s₂', ha', hpost⟩ := argPage_returns h₁ hargs₁ (hshort [97] (by decide))
  cases ha.symm.trans ha'
  obtain ⟨o₂, h₂, hargs₂⟩ := hpost ha0
  rw [hpage _ (by decide), hpage _ (by decide)] at hargs₂
  exact ⟨o₂, _, _, h₂, hargs₂, exec_argument_stack [97] h₂ hargs₂ (show 2 < MAXARG by decide)⟩

/-! ## The image -/

/-- The offset of the program headers in the file. -/
def phoff (file : List UInt8) : ℕ := field (slice file 0 64) 32 8

/-- The number of program headers. -/
def phnum (file : List UInt8) : ℕ := field (slice file 0 64) 56 2

/-- Program header `i`. -/
def phdr (file : List UInt8) (i : ℕ) : List UInt8 := slice file (phoff file + 56 * i) 56

/-- The header is one of a segment to load. -/
def Loadable (ph : List UInt8) : Prop := field ph 0 4 = ELF_PROG_LOAD

instance (ph : List UInt8) : Decidable (Loadable ph) := inferInstanceAs (Decidable (_ = _))

/-- Memory with the segment of a header in it. -/
def segment (file : List UInt8) (f : ℕ → UInt8) (i : ℕ) : ℕ → UInt8 :=
  if Loadable (phdr file i) then
    overlay f (field (phdr file i) 16 8)
      (slice file (field (phdr file i) 8 8) (field (phdr file i) 32 8))
  else f

/-- **The declared image**: zeroes, and over them the segments in the order
of their headers. -/
def declared (file : List UInt8) : ℕ → UInt8 :=
  (List.range (phnum file)).foldl (segment file) fun _ => 0

/-- **What a file declares is there**: the headers and the bytes of the
segments are in the file, and the segments go to memory below `top`. -/
structure Inside (file : List UInt8) (top : ℕ) : Prop where
  headers : ∀ i, i < phnum file → ∀ j, j < 56 → phoff file + 56 * i + j < file.length
  bytes : ∀ i, i < phnum file → Loadable (phdr file i) →
    ∀ j, j < field (phdr file i) 32 8 → field (phdr file i) 8 8 + j < file.length
  memory : ∀ i, i < phnum file → Loadable (phdr file i) →
    field (phdr file i) 16 8 + field (phdr file i) 32 8 ≤ top

/-- **The offsets that are used fit in 32 bits.** -/
structure Narrow (file : List UInt8) : Prop where
  headers : 0 < phnum file → phoff file < 2 ^ 32
  bytes : ∀ i, i < phnum file → Loadable (phdr file i) → 0 < field (phdr file i) 32 8 →
    field (phdr file i) 8 8 < 2 ^ 32

/-- **The loop over the headers loads what they declare**, as long as no
offset is cut. -/
theorem Loads.declared {top m : ℕ} (hlen : file.length < 2 ^ 31)
    (hbytes : ∀ i, m ≤ i → i < m + n → Loadable (phdr file i) → 0 < field (phdr file i) 32 8 →
      field (phdr file i) 8 8 < 2 ^ 32)
    (h : Loads file top n (phoff file + 56 * m) f g) :
    (∀ i, m ≤ i → i < m + n → phoff file + 56 * i + 56 ≤ file.length ∧
      (Loadable (phdr file i) →
        (0 < field (phdr file i) 32 8 →
          field (phdr file i) 8 8 + field (phdr file i) 32 8 ≤ file.length) ∧
        field (phdr file i) 16 8 + field (phdr file i) 32 8 ≤ top)) ∧
      g = (List.range' m n).foldl (segment file) f := by
  induction n generalizing m f with
  | zero => exact ⟨fun i h1 h2 => by omega, h⟩
  | succ n ih =>
    obtain ⟨hin, h⟩ := h
    have hnext : (phoff file + 56 * m + 56) % 2 ^ 32 = phoff file + 56 * (m + 1) := by omega
    have hph : slice file (phoff file + 56 * m) 56 = phdr file m := rfl
    simp only [hnext, hph] at h
    have hrest : ∀ i, m + 1 ≤ i → i < m + 1 + n → Loadable (phdr file i) →
        0 < field (phdr file i) 32 8 → field (phdr file i) 8 8 < 2 ^ 32 := fun i h1 h2 =>
      hbytes i (by omega) (by omega)
    rw [range'_succ, foldl_cons]
    by_cases hload : Loadable (phdr file m)
    · have htype : field (phdr file m) 0 4 = ELF_PROG_LOAD := hload
      rw [if_neg (not_not.2 htype)] at h
      obtain ⟨hend, hmem, h⟩ := h
      have hoff : 0 < field (phdr file m) 32 8 → field (phdr file m) 8 8 % 2 ^ 32 =
          field (phdr file m) 8 8 := fun hpos =>
        Nat.mod_eq_of_lt (hbytes m le_rfl (by omega) hload hpos)
      have hslice : slice file (field (phdr file m) 8 8 % 2 ^ 32) (field (phdr file m) 32 8) =
          slice file (field (phdr file m) 8 8) (field (phdr file m) 32 8) := by
        rcases Nat.eq_zero_or_pos (field (phdr file m) 32 8) with h0 | hpos
        · rw [h0, slice_zero, slice_zero]
        · rw [hoff hpos]
      rw [hslice] at h
      obtain ⟨hall, hg⟩ := ih hrest h
      refine ⟨fun i h1 h2 => ?_, by rw [hg, segment, if_pos hload]⟩
      rcases Nat.eq_or_lt_of_le h1 with rfl | hlt
      · exact ⟨hin, fun _ => ⟨fun hpos => by rw [← hoff hpos]; exact hend hpos, hmem⟩⟩
      · exact hall i hlt (by omega)
    · have htype : field (phdr file m) 0 4 ≠ ELF_PROG_LOAD := hload
      rw [if_pos htype] at h
      obtain ⟨hall, hg⟩ := ih hrest h
      refine ⟨fun i h1 h2 => ?_, by rw [hg, segment, if_neg hload]⟩
      rcases Nat.eq_or_lt_of_le h1 with rfl | hlt
      · exact ⟨hin, fun hl => absurd hl hload⟩
      · exact hall i hlt (by omega)

/-- What is in a file is at an offset of less than 32 bits. -/
theorem Inside.narrow {top : ℕ} (h : Inside file top) (hlen : file.length < 2 ^ 31) : Narrow file := by
  refine ⟨fun hpos => ?_, fun i hi hload hpos => ?_⟩
  · have := h.headers 0 hpos 0 (by decide)
    omega
  · have := h.bytes i hi hload 0 hpos
    omega

theorem Loaded.declared {top : ℕ} (h : Loaded file top f) (hlen : file.length < 2 ^ 31)
    (hn : Narrow file) : Inside file top ∧ f = declared file := by
  obtain ⟨-, h⟩ := h
  rcases Nat.eq_zero_or_pos (phnum file) with h0 | hpos
  · rw [← phnum, h0] at h
    refine ⟨⟨fun i hi => by omega, fun i hi => by omega, fun i hi => by omega⟩, ?_⟩
    rw [Vm.declared, h0]
    exact h
  · rw [← phnum, ← phoff, Nat.mod_eq_of_lt (hn.headers hpos)] at h
    obtain ⟨hall, hg⟩ := Loads.declared (m := 0) hlen (fun i _ hi => hn.bytes i (by omega)) h
    refine ⟨⟨fun i hi j hj => ?_, fun i hi hload j hj => ?_, fun i hi hload => ?_⟩, ?_⟩
    · have := (hall i (Nat.zero_le _) (by omega)).1
      omega
    · have := ((hall i (Nat.zero_le _) (by omega)).2 hload).1 (by omega)
      omega
    · exact ((hall i (Nat.zero_le _) (by omega)).2 hload).2
    · rw [Vm.declared, range_eq_range']
      exact hg

/-- **`exec` has loaded what the file declares**: all of it is in the file
and goes to memory, and the memory below the guard page is the declared
image. -/
def ImageLoaded (s : State) (p : ℕ) (file : List UInt8) : Prop :=
  Inside file ((s.proc p).sz - 2 * PGSIZE) ∧ ∀ va, va < (s.proc p).sz - 2 * PGSIZE →
    (userMem (s.proc p).pagetable s).byteAt va = some (declared file va)

/-- **`exec` loads the declared image**, when it succeeds, exactly if no
offset is cut. -/
theorem exec_loads_image (path : List UInt8) (h : Ready k o s p)
    (hargs : Args o s.mem argv strs) :
    Hoare (· = s) (exec k p path argv) (fun ret s' => ret ≠ -1 →
      ∃ file, fileAt (s.proc p).cwd path s.files = some file ∧
        (ImageLoaded s' p file ↔ Narrow file)) PathPanic := by
  refine (exec_hoare path h hargs).conseq (fun _ h => h) ?_
  rintro ret s' ⟨-, hpost⟩ hret
  rcases hrun : execImage k p path s with e | ⟨_ | ⟨entry, r, sz⟩, s₁⟩ <;> rw [hrun] at hpost
  · exact hpost.elim
  · exact absurd hpost.1 hret
  obtain ⟨o₁, ptes, f, n, file, hb, -, hpost⟩ := hpost
  by_cases hfits : Fits strs
  swap
  · rw [if_neg hfits] at hpost
    exact absurd hpost.1 hret
  rw [if_pos hfits] at hpost
  obtain ⟨-, o', w, hw, hc, hspace, -, -⟩ := hpost
  have hpt : s'.proc p = { s.proc p with name := (lastElem path).take 15, pagetable := r, sz } := by
    rw [hc.proc, update_self]
  refine ⟨file, hb.source, fun hload => hload.1.narrow hb.length, fun hnarrow => ?_⟩
  obtain ⟨hinside, hf⟩ := hb.loaded.declared hb.length hnarrow
  rw [ImageLoaded, hpt]
  refine ⟨hinside, fun va hva => ?_⟩
  have hlen : ptes.length = n := by rw [hb.image.length, hb.size, pages_mul]
  have hle := hb.image.space.le hb.does.heap
  have hroom := hfits.2
  have hsize := hb.size
  have hva : va < sz - 2 * PGSIZE := hva
  have hlt : va < 2 ^ 64 := by
    simp only [npages, PHYSTOP, KERNBASE, PGSIZE] at hle hsize hva
    omega
  have hdiv : va / PGSIZE < n - 2 := by
    simp only [PGSIZE] at hsize hva ⊢
    omega
  have huser : ForUser (ptes.set (n - 2) (guarded w)) va := by
    rw [ForUser, getElem?_set_ne (by omega)]
    exact hb.image.forUser (by rw [hlen, ← hsize]; omega)
  have hbelow : stacked sz strs f va = f va := by
    have hsum : stackRoom strs = stringRoom strs + room (8 * (strs.length + 1)) := rfl
    rw [stacked, overlay_of_lt (by omega), pushed_of_lt (by omega)]
  rw [hspace.byteAt_eq hc.heap (above_kernelMap ..), Nat.mod_eq_of_lt hlt, if_pos huser, hbelow, hf]

/-- The program `a` declares what is there. -/
theorem narrow_smallElf : Narrow (smallElf 64) := by
  have hnum : phnum (smallElf 64) = 1 := by decide
  refine ⟨fun _ => by decide, fun i hi _ _ => ?_⟩
  obtain rfl : i = 0 := by omega
  decide

theorem exec_loads_image_small : ∃ o, Ready smallKernel o smallMachine initproc ∧
    Args o smallMachine.mem [] [] ∧
    Hoare (· = smallMachine) (exec smallKernel initproc [97] []) (fun ret s' => ret ≠ -1 →
      ImageLoaded s' initproc (smallElf 64)) PathPanic := by
  obtain ⟨o, h⟩ := smallMachine_ready
  have hfile : fileAt (smallMachine.proc initproc).cwd [97] smallMachine.files = some (smallElf 64) := by
    decide +kernel
  refine ⟨o, h, args_nil, (exec_loads_image [97] h args_nil).conseq (fun _ h => h) ?_⟩
  intro ret s' hpost hret
  obtain ⟨file, hf, himage⟩ := hpost hret
  cases hfile.symm.trans hf
  exact himage.2 narrow_smallElf

/-- **`exec` runs a program whose program header is not in the file**: the
program `b` says that it is at 2³² + 64, and `exec` reads it at 64. -/
theorem exec_cuts_header_offset :
    fileAt (smallMachine.proc initproc).cwd [98] smallMachine.files = some (smallElf (2 ^ 32 + 64)) ∧
      ¬ (∀ i, i < phnum (smallElf (2 ^ 32 + 64)) → ∀ j, j < 56 →
        phoff (smallElf (2 ^ 32 + 64)) + 56 * i + j < (smallElf (2 ^ 32 + 64)).length) ∧
      Returns (exec smallKernel initproc [98] []) smallMachine fun ret _ => ret = 0 := by
  refine ⟨by decide +kernel, fun h => absurd (h 0 (by decide) 0 (by decide)) (by decide), ?_⟩
  obtain ⟨o, h⟩ := smallMachine_ready
  obtain ⟨image, s₁, hrun, hsome⟩ : Returns (execImage smallKernel initproc [98]) smallMachine
      fun res _ => res.isSome = true := .of_run (by decide +kernel)
  obtain ⟨⟨entry, r, sz⟩, rfl⟩ := Option.isSome_iff_exists.1 hsome
  obtain ⟨-, o₁, ptes, f, n, file, hb⟩ := (execImage_hoare [98] h).ok rfl hrun
  refine .bind ⟨_, _, hrun, ?_⟩
  refine ((execCommit_of_built h hb args_nil).mono ?_)
  intro ret s' hpost
  rw [if_pos (by decide)] at hpost
  exact hpost.1

end Vm

end Xv6
