import Xv6.Vm.Make
import Xv6.Vm.User
/-!
# Loading a program — `loadseg` and the loop of `exec`

While `exec` loads a program, the address space it builds is an `Image`:
pages of user memory from zero on, all of them the user's, holding zeroes
where nothing was written. Each loadable program header makes it larger if
need be and writes bytes of the file to it, page by page. `Loads` says
what that comes to, with the offsets cut to 32 bits as the source cuts
them.
-/

namespace Xv6

open Common List

variable {data : List UInt8} {off n : ℕ}

/-- `n` bytes of a file, from `off` on. -/
def slice (data : List UInt8) (off n : ℕ) : List UInt8 := (data.drop off).take n

@[simp] theorem slice_zero : slice data off 0 = [] := by
  rw [slice, take_zero]

theorem slice_append (m : ℕ) : slice data off m ++ slice data (off + m) n = slice data off (m + n) := by
  rw [slice, slice, slice, take_add, drop_drop]

namespace Files

theorem readi_eq_slice (hlen : data.length < 2 ^ 31) (hn : n < 2 ^ 31) (h : off + n ≤ data.length) :
    readi data off n = slice data off n := by
  rw [readi, if_neg (by omega), slice]

theorem length_readi_le : (readi data off n).length ≤ n := by
  rw [readi]
  split
  · exact Nat.zero_le n
  · rw [length_take]
    exact Nat.min_le_left ..

/-- All that was asked for is there. -/
theorem le_of_length_readi (hn : 0 < n) (h : (readi data off n).length = n) :
    off + n ≤ data.length := by
  rw [readi] at h
  split at h
  · rw [length_nil] at h
    omega
  · rw [length_take, length_drop] at h
    omega

end Files

namespace Vm

theorem field_lt (l : List UInt8) (off w : ℕ) : field l off w < 256 ^ w := by
  rw [field]
  have key : ∀ (l : List UInt8) (w : ℕ), l.length ≤ w →
      l.foldr (fun b v => b.toNat + 256 * v) 0 < 256 ^ w := by
    intro l
    induction l with
    | nil => exact fun w _ => Nat.pow_pos (by decide)
    | cons b l ih =>
      intro w hw
      obtain ⟨w, rfl⟩ : ∃ v, w = v + 1 := ⟨w - 1, by simp at hw; omega⟩
      have hb := b.toNat_lt
      have := ih w (by simpa using hw)
      rw [Nat.pow_succ, foldr_cons]
      omega
  exact key _ w (by rw [length_take]; exact Nat.min_le_left ..)

variable {k : Symbols} {o : ℕ → Owner} {s s' : State} {mem : ℕ → Page} {X : ℕ → ℕ}
  {ptes : List ℕ} {f g : ℕ → UInt8} {file : List UInt8} {r va sz i : ℕ}

/-- **A program being loaded**: all its pages are the user's, and hold
zeroes where nothing was written. -/
structure Image (o : ℕ → Owner) (mem : ℕ → Page) (r : ℕ) (ptes : List ℕ) (f : ℕ → UInt8)
    (X : ℕ → ℕ) (sz : ℕ) : Prop where
  space : Space o mem r ptes f X
  length : ptes.length = pages sz
  flags : ∀ w ∈ ptes, pteFlags w = userFlags
  zero : ∀ x, ptes.length * PGSIZE ≤ x → f x = 0

theorem zeroFrom_eq (h : ∀ x, n ≤ x → f x = 0) : zeroFrom n f = f := by
  funext x
  rw [zeroFrom]
  split
  · rfl
  · exact (h x (by omega)).symm

theorem le_pages (sz : ℕ) : sz ≤ pages sz * PGSIZE := by
  simp only [pages, PGSIZE]
  omega

namespace Image

theorem forUser (h : Image o mem r ptes f X sz) (hva : va < ptes.length * PGSIZE) :
    ForUser ptes va := by
  have hi : va / PGSIZE < ptes.length := by
    simp only [PGSIZE] at hva ⊢
    omega
  refine ⟨ptes[va / PGSIZE], getElem?_eq_getElem hi, ?_⟩
  rw [← and_pteFlags rfl, h.flags _ (getElem_mem hi)]
  decide

/-- **`uvmalloc`** makes it larger, or leaves it as it is. -/
theorem uvmalloc_returns {newsz : ℕ} (h : Image o s.mem r ptes f X sz) (hh : Heap k o s)
    (hX : Above X) :
    Returns (uvmalloc k r sz newsz) s fun sz1 s' => ∃ o' ptes',
      Does k (Owner.inSpace r 0) o o' s s' ∧
        Image o' s'.mem r ptes' f X (if sz1 = 0 then sz else sz1) ∧
        (sz1 ≠ 0 → sz1 = max sz newsz) := by
  refine (Vm.uvmalloc_returns h.space h.length hh hX).mono ?_
  rintro sz1 s' ⟨o', hdo, hres⟩
  have hdo := hdo.mono (Owner.inSpace_mono (Nat.zero_le _))
  by_cases h0 : sz1 = 0
  · rw [if_pos h0] at hres
    exact ⟨o', ptes, hdo, ⟨hres, by rw [if_pos h0]; exact h.length, h.flags, h.zero⟩,
      fun hne => absurd h0 hne⟩
  rw [if_neg h0] at hres
  obtain ⟨hmax, new, hlen, hnew, hspace⟩ := hres
  rw [zeroFrom_eq h.zero] at hspace
  refine ⟨o', ptes ++ new, hdo, ⟨hspace, by rw [if_neg h0]; exact hlen, fun w hw => ?_,
    fun x hx => h.zero x ?_⟩, fun _ => hmax⟩
  · exact (mem_append.1 hw).elim (h.flags w) (hnew w)
  · refine (Nat.mul_le_mul_right _ ?_).trans hx
    rw [length_append]
    exact Nat.le_add_right ..

/-- The size may be rounded up. -/
theorem roundUp (h : Image o s.mem r ptes f X sz) (hh : Heap k o s) :
    pgRoundUp sz = pages sz * PGSIZE ∧ Image o s.mem r ptes f X (pgRoundUp sz) := by
  have hround := pgRoundUp_eq (h.length ▸ h.space.le hh)
  refine ⟨hround, h.space, ?_, h.flags, h.zero⟩
  rw [hround, pages_mul, h.length]

/-- Bytes are written inside it. -/
theorem overlay {a : ℕ} {l : List UInt8} (h : Image o mem r ptes f X sz)
    {mem' : ℕ → Page} (hs : Space o mem' r ptes (Common.overlay f a l) X)
    (hin : a + l.length ≤ ptes.length * PGSIZE) :
    Image o mem' r ptes (Common.overlay f a l) X sz :=
  ⟨hs, h.length, h.flags, fun x hx => by rw [overlay_of_ge (hin.trans hx), h.zero x hx]⟩

end Image

/-! ## `loadseg` -/

theorem loadsegLoop_returns {offset m : ℕ} (h : Image o s.mem r ptes f X n) (hh : Heap k o s)
    (hX : Above X) (hlen : file.length < 2 ^ 31) (hva : va % PGSIZE = 0) (hi : i % PGSIZE = 0)
    (hfit : va + sz ≤ ptes.length * PGSIZE) (hoff : offset + i < 2 ^ 32) (hm : m = pages (sz - i)) :
    Returns (loadsegLoop r va file offset sz m i) s fun ok s' =>
      Does k (Owner.inSpace r 0) o o s s' ∧ ∃ l, l.length ≤ sz - i ∧
        Space o s'.mem r ptes (overlay f (va + i) l) X ∧
        (ok = true → (i < sz → offset + sz ≤ file.length) ∧ l = slice file (offset + i) (sz - i)) := by
  induction m generalizing i f s with
  | zero =>
    have hdone : sz - i = 0 := by
      simp only [pages, PGSIZE] at hm
      omega
    refine .pure ⟨.refl hh, [], Nat.zero_le _, by rw [overlay_nil]; exact h.space, fun _ => ?_⟩
    rw [hdone, slice_zero]
    exact ⟨fun hlt => by omega, rfl⟩
  | succ m ih =>
    have hlt : i < sz := by
      simp only [pages, PGSIZE] at hm
      omega
    have hpage : va + i < ptes.length * PGSIZE := by omega
    obtain ⟨w, hw, haddr, h0⟩ := h.space.userAddr_pos hh (h.forUser hpage)
    have halign : (va + i) / PGSIZE * PGSIZE = va + i := by
      simp only [PGSIZE] at hva hi ⊢
      omega
    have hn31 : min (sz - i) PGSIZE < 2 ^ 31 := by
      simp only [PGSIZE]
      omega
    have hpos : 0 < min (sz - i) PGSIZE := by
      simp only [PGSIZE]
      omega
    rw [loadsegLoop]
    refine .bind ⟨_, _, h.space.walkaddr_eq hh hX _, ?_⟩
    simp only [haddr, if_neg h0, Nat.mod_eq_of_lt hoff]
    generalize hb : Files.readi file (offset + i) (min (sz - i) PGSIZE) = bytes
    have hble : bytes.length ≤ min (sz - i) PGSIZE := hb ▸ Files.length_readi_le
    refine .bind ((h.space.memwrite_returns hh hw (by omega)).mono ?_)
    rintro - s₁ ⟨hdo₁, h₁⟩
    have hdo₁ := hdo₁.mono (Owner.inSpace_mono (Nat.zero_le _))
    rw [Nat.add_zero, halign] at h₁
    by_cases hshort : bytes.length ≠ min (sz - i) PGSIZE
    · rw [if_pos hshort]
      exact .pure ⟨hdo₁, bytes, by omega, h₁, fun hf => absurd hf Bool.false_ne_true⟩
    rw [if_neg hshort]
    have hfull : bytes.length = min (sz - i) PGSIZE := not_not.1 hshort
    have hin := Files.le_of_length_readi hpos (hb ▸ hfull)
    have hbytes : bytes = slice file (offset + i) (min (sz - i) PGSIZE) := by
      rw [← hb, Files.readi_eq_slice hlen hn31 hin]
    have hnext : m = pages (sz - (i + PGSIZE)) := by
      simp only [pages, PGSIZE] at hm ⊢
      omega
    refine (ih (h.overlay h₁ (by omega)) hdo₁.heap (by
      simp only [PGSIZE] at hi ⊢
      omega) (by
      simp only [PGSIZE]
      omega) hnext).mono ?_
    rintro ok s' ⟨hdo, l, hl, h', hok⟩
    refine ⟨hdo₁.trans hdo, bytes ++ l, ?_, ?_, fun htrue => ?_⟩
    · rw [length_append, hfull]
      simp only [PGSIZE] at hl ⊢
      omega
    · -- what follows a page that is not full is empty
      by_cases hmore : i + PGSIZE ≤ sz
      · have hplace : va + (i + PGSIZE) = va + i + bytes.length := by omega
        rwa [hplace, overlay_overlay] at h'
      · have hnil : l = [] := eq_nil_of_length_eq_zero (by omega)
        rw [hnil, append_nil]
        rwa [hnil, overlay_nil] at h'
    · obtain ⟨hend, hslice⟩ := hok htrue
      rw [hslice]
      by_cases hmore : i + PGSIZE < sz
      · refine ⟨fun _ => hend hmore, ?_⟩
        have hmin : min (sz - i) PGSIZE = PGSIZE := by omega
        have hsum : PGSIZE + (sz - (i + PGSIZE)) = sz - i := by omega
        rw [hbytes, hmin, ← Nat.add_assoc, slice_append, hsum]
      · have hmin : min (sz - i) PGSIZE = sz - i := by omega
        have hzero : sz - (i + PGSIZE) = 0 := by omega
        rw [hmin] at hin hbytes
        refine ⟨fun _ => by omega, ?_⟩
        rw [hzero, slice_zero, append_nil, hbytes]

/-- **`loadseg`** writes the bytes of the segment, or stops at the end of
the file. -/
theorem loadseg_returns {offset : ℕ} (h : Image o s.mem r ptes f X n) (hh : Heap k o s)
    (hX : Above X) (hlen : file.length < 2 ^ 31) (hva : va % PGSIZE = 0)
    (hfit : va + sz ≤ ptes.length * PGSIZE) (hoff : offset < 2 ^ 32) :
    Returns (loadseg r va file offset sz) s fun ok s' =>
      Does k (Owner.inSpace r 0) o o s s' ∧ ∃ l, Image o s'.mem r ptes (overlay f va l) X n ∧
        (ok = true → (0 < sz → offset + sz ≤ file.length) ∧ l = slice file offset sz) := by
  simp only [loadseg, hva, ne_eq, not_true_eq_false, ↓reduceIte]
  refine (loadsegLoop_returns (i := 0) h hh hX hlen hva rfl hfit hoff rfl).mono ?_
  rintro ok s' ⟨hdo, l, hl, h', hok⟩
  simp only [Nat.add_zero, Nat.sub_zero] at h' hok hl
  exact ⟨hdo, l, h.overlay h' (by omega), hok⟩

/-! ## The program headers -/

/-- **What the loop over the program headers does** to user memory, if it
comes to its end: `n` headers from `off` on, with all segments below
`top`. -/
def Loads (file : List UInt8) (top : ℕ) : ℕ → ℕ → (ℕ → UInt8) → (ℕ → UInt8) → Prop
  | 0, _, f, g => g = f
  | n + 1, off, f, g =>
    off + 56 ≤ file.length ∧
      let ph := slice file off 56
      if field ph 0 4 ≠ ELF_PROG_LOAD then Loads file top n ((off + 56) % 2 ^ 32) f g
      else
        (0 < field ph 32 8 → field ph 8 8 % 2 ^ 32 + field ph 32 8 ≤ file.length) ∧
          field ph 16 8 + field ph 32 8 ≤ top ∧
          Loads file top n ((off + 56) % 2 ^ 32)
            (overlay f (field ph 16 8) (slice file (field ph 8 8 % 2 ^ 32) (field ph 32 8))) g

theorem Loads.mono {top top' : ℕ} (hle : top ≤ top')
    (h : Loads file top n off f g) : Loads file top' n off f g := by
  induction n generalizing off f with
  | zero => exact h
  | succ n ih =>
    obtain ⟨hin, h⟩ := h
    refine ⟨hin, ?_⟩
    simp only at h ⊢
    split at h <;> rename_i hload
    · rw [if_pos hload]
      exact ih h
    · rw [if_neg hload]
      exact ⟨h.1, h.2.1.trans hle, ih h.2.2⟩

/-- **The loop over the program headers** loads the program, or stops with
as much of an image as there is. -/
theorem execLoad_returns (h : Image o s.mem r ptes f X sz) (hh : Heap k o s) (hX : Above X)
    (hlen : file.length < 2 ^ 31) :
    Returns (execLoad k r file n off sz) s fun res s' => ∃ o' ptes' g,
      Does k (Owner.inSpace r 0) o o' s s' ∧ Image o' s'.mem r ptes' g X res.2 ∧
        (res.1 = true → sz ≤ res.2 ∧ Loads file res.2 n off f g) := by
  induction n generalizing o s ptes f sz off with
  | zero => exact .pure ⟨o, ptes, f, .refl hh, h, fun _ => ⟨le_rfl, rfl⟩⟩
  | succ n ih =>
    have hstop : ∀ {o' : ℕ → Owner} {s' : State} {ptes' : List ℕ} {g sz'},
        Does k (Owner.inSpace r 0) o o' s s' → Image o' s'.mem r ptes' g X sz' →
        Returns (return (false, sz') : Kern State (Bool × ℕ)) s' fun res s' => ∃ o' ptes' g,
          Does k (Owner.inSpace r 0) o o' s s' ∧ Image o' s'.mem r ptes' g X res.2 ∧
            (res.1 = true → sz ≤ res.2 ∧ Loads file res.2 (n + 1) off f g) := fun hdo himg =>
      .pure ⟨_, _, _, hdo, himg, fun hf => absurd hf Bool.false_ne_true⟩
    rw [execLoad]
    by_cases hread : (Files.readi file off 56).length = 56
    swap
    · simp only [ne_eq, hread, not_false_eq_true, ↓reduceIte]
      exact hstop (.refl hh) h
    have hin := Files.le_of_length_readi (by decide) hread
    have hph := Files.readi_eq_slice hlen (by decide) hin
    simp only [ne_eq, hread, not_true_eq_false, ↓reduceIte]
    rw [hph]
    generalize hslice : slice file off 56 = ph
    by_cases htype : field ph 0 4 = ELF_PROG_LOAD
    swap
    · simp only [htype, not_false_eq_true, ↓reduceIte]
      refine (ih h hh).mono ?_
      rintro res s' ⟨o', ptes', g, hdo, himg, hok⟩
      refine ⟨o', ptes', g, hdo, himg, fun htrue => ⟨(hok htrue).1, hin, ?_⟩⟩
      simp only [hslice, ne_eq, htype, not_false_eq_true, ↓reduceIte]
      exact (hok htrue).2
    have hv := field_lt ph 16 8
    have hms := field_lt ph 40 8
    simp only [htype, not_true_eq_false, ↓reduceIte]
    by_cases hmem : field ph 40 8 < field ph 32 8
    · rw [if_pos hmem]
      exact hstop (.refl hh) h
    rw [if_neg hmem]
    by_cases hwrap : (field ph 16 8 + field ph 40 8) % 2 ^ 64 < field ph 16 8
    · rw [if_pos hwrap]
      exact hstop (.refl hh) h
    rw [if_neg hwrap]
    have hsum : (field ph 16 8 + field ph 40 8) % 2 ^ 64 = field ph 16 8 + field ph 40 8 := by
      omega
    rw [hsum]
    refine .bind ((h.uvmalloc_returns hh hX).mono ?_)
    rintro sz1 s₁ ⟨o₁, ptes₁, hdo₁, himg₁, hmax⟩
    by_cases h0 : sz1 = 0
    · rw [if_pos h0] at himg₁
      rw [if_pos h0]
      exact hstop hdo₁ himg₁
    rw [if_neg h0] at himg₁ ⊢
    by_cases halign : field ph 16 8 % PGSIZE = 0
    swap
    · rw [if_pos halign]
      exact hstop hdo₁ himg₁
    rw [if_neg (not_not.2 halign)]
    -- the segment lies in memory that is there, and so its size is not cut
    have hle := himg₁.space.le hdo₁.heap
    have hbound : sz1 ≤ ptes₁.length * PGSIZE := himg₁.length ▸ le_pages sz1
    have hsz1 := hmax h0
    have hcut : field ph 32 8 % 2 ^ 32 = field ph 32 8 := by
      simp only [npages, PHYSTOP, KERNBASE, PGSIZE] at hle hbound
      omega
    rw [hcut]
    refine .bind ((loadseg_returns himg₁ hdo₁.heap hX hlen halign (by omega)
      (Nat.mod_lt _ (by decide))).mono ?_)
    rintro ok s₂ ⟨hdo₂, l, himg₂, hok₂⟩
    have hdo := hdo₁.trans hdo₂
    cases ok with
    | false => exact hstop hdo himg₂
    | true =>
      obtain ⟨hend, rfl⟩ := hok₂ rfl
      refine (ih himg₂ hdo₂.heap).mono ?_
      rintro res s' ⟨o', ptes', g, hdo', himg, hok⟩
      refine ⟨o', ptes', g, hdo.trans hdo', himg, fun htrue => ?_⟩
      obtain ⟨hgrow, hloads⟩ := hok htrue
      refine ⟨by omega, hin, ?_⟩
      simp only [hslice, ne_eq, htype, not_true_eq_false, ↓reduceIte]
      exact ⟨hend, by omega, hloads⟩

end Vm

end Xv6
