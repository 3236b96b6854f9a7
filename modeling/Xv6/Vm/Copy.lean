import Xv6.Common.Bytes
import Xv6.Param
/-!
# Copying from and to user memory — `copyin`, `copyout`, `copyinstr` of `kernel/vm.c`

All go page by page and ask `walkaddr` for each. What they do is a
function of the pages `walkaddr` finds, so a user address space is here
the partial map from page addresses to page contents. The copy stops at
the first page that is not there, with everything before it copied.
-/

namespace Xv6

open Common Function

def pgRoundDown (a : ℕ) : ℕ := a - a % PGSIZE

/-- A user address space as `walkaddr` shows it: the contents of the page
at a page address, if it is mapped for the user. -/
abbrev UserMem : Type := ℕ → Option (Bytes PGSIZE)

namespace UserMem

variable {n : ℕ} (um : UserMem)

/-- The byte at a user address. Addresses are 64 bits wide. -/
def byteAt (va : ℕ) : Option UInt8 :=
  (um (pgRoundDown (va % 2 ^ 64))).map fun page => page.get (va % PGSIZE)

/-- How many of the `len` bytes from `va` on are there before the first
that is not. -/
def readable : ℕ → ℕ → ℕ
  | _, 0 => 0
  | va, len + 1 => if (um.byteAt va).isSome then readable (va + 1) len + 1 else 0

/-- The loop of `copyin`, with as many iterations as it could need. -/
def copyinLoop : ℕ → Bytes n → ℕ → ℕ → ℕ → Bool × Bytes n
  | 0, dst, _, _, len => (len = 0, dst)
  | fuel + 1, dst, off, srcva, len =>
    if len = 0 then (true, dst)
    else
      let va0 := pgRoundDown srcva
      match um va0 with
      | none => (false, dst)
      | some page =>
        let m := min (PGSIZE - (srcva - va0)) len
        copyinLoop fuel (dst.splice off m fun i => page.get (srcva - va0 + i)) (off + m)
          ((va0 + PGSIZE) % 2 ^ 64) (len - m)

/-- `copyin(pagetable, dst + off, srcva, len)`: whether it returns 0, and
the buffer after it. -/
def copyin (dst : Bytes n) (off srcva len : ℕ) : Bool × Bytes n :=
  um.copyinLoop len dst off srcva len

/-- The loop of `copyout`, likewise. -/
def copyoutLoop : ℕ → UserMem → ℕ → (ℕ → UInt8) → ℕ → Bool × UserMem
  | 0, um, _, _, len => (len = 0, um)
  | fuel + 1, um, dstva, src, len =>
    if len = 0 then (true, um)
    else
      let va0 := pgRoundDown dstva
      match um va0 with
      | none => (false, um)
      | some page =>
        let m := min (PGSIZE - (dstva - va0)) len
        copyoutLoop fuel (update um va0 (some (page.splice (dstva - va0) m src)))
          ((va0 + PGSIZE) % 2 ^ 64) (fun i => src (m + i)) (len - m)

/-- `copyout(pagetable, dstva, src, len)`: whether it returns 0, and the
address space after it. -/
def copyout (dstva : ℕ) (src : ℕ → UInt8) (len : ℕ) : Bool × UserMem :=
  copyoutLoop len um dstva src len

/-- The inner loop of `copyinstr` over `m` bytes of a page, from `p` on:
whether it has come to a NUL, and the buffer. -/
def copyinstrPage (page : Bytes PGSIZE) : ℕ → ℕ → Bytes n → ℕ → Bool × Bytes n
  | 0, _, dst, _ => (false, dst)
  | m + 1, p, dst, off =>
    if page.get p = 0 then (true, dst.splice off 1 fun _ => 0)
    else copyinstrPage page m (p + 1) (dst.splice off 1 fun _ => page.get p) (off + 1)

/-- The outer loop of `copyinstr`, with as many iterations as it could
need. -/
def copyinstrLoop : ℕ → Bytes n → ℕ → ℕ → ℕ → Bool × Bytes n
  | 0, dst, _, _, _ => (false, dst)
  | fuel + 1, dst, off, srcva, max =>
    if max = 0 then (false, dst)
    else
      let va0 := pgRoundDown srcva
      match um va0 with
      | none => (false, dst)
      | some page =>
        let m := min (PGSIZE - (srcva - va0)) max
        let r := copyinstrPage page m (srcva - va0) dst off
        if r.1 then (true, r.2)
        else copyinstrLoop fuel r.2 (off + m) ((va0 + PGSIZE) % 2 ^ 64) (max - m)

/-- `copyinstr(pagetable, dst + off, srcva, max)`: whether it returns 0, and
the buffer after it. -/
def copyinstr (dst : Bytes n) (off srcva max : ℕ) : Bool × Bytes n :=
  um.copyinstrLoop max dst off srcva max

variable {um} {va len : ℕ}

theorem byteAt_congr {va' : ℕ} (h : va % 2 ^ 64 = va' % 2 ^ 64) : um.byteAt va = um.byteAt va' := by
  have hpage : va % PGSIZE = va' % PGSIZE := by
    have h1 : va % 2 ^ 64 % 4096 = va % 4096 := Nat.mod_mod_of_dvd _ (by decide)
    have h2 : va' % 2 ^ 64 % 4096 = va' % 4096 := Nat.mod_mod_of_dvd _ (by decide)
    simp only [PGSIZE]
    omega
  rw [byteAt, byteAt, h, hpage]

theorem readable_congr {va' : ℕ} (h : va % 2 ^ 64 = va' % 2 ^ 64) :
    um.readable va len = um.readable va' len := by
  induction len generalizing va va' with
  | zero => rfl
  | succ len ih =>
    rw [readable, readable, byteAt_congr h, ih (by omega : (va + 1) % 2 ^ 64 = (va' + 1) % 2 ^ 64)]

theorem readable_le : um.readable va len ≤ len := by
  induction len generalizing va with
  | zero => exact le_rfl
  | succ len ih =>
    rw [readable]
    have := @ih (va + 1)
    split <;> omega

theorem byteAt_of_lt_readable {i : ℕ} (h : i < um.readable va len) : (um.byteAt (va + i)).isSome := by
  induction len generalizing va i with
  | zero => exact absurd h (Nat.not_lt_zero i)
  | succ len ih =>
    rw [readable] at h
    split at h
    · rename_i h0
      cases i with
      | zero => exact h0
      | succ i =>
        have : (um.byteAt (va + 1 + i)).isSome := ih (by omega)
        rwa [Nat.add_assoc, Nat.add_comm 1] at this
    · exact absurd h (Nat.not_lt_zero i)

/-- The first byte not copied is not there. -/
theorem byteAt_readable (h : um.readable va len < len) :
    um.byteAt (va + um.readable va len) = none := by
  induction len generalizing va with
  | zero => exact absurd h (Nat.not_lt_zero _)
  | succ len ih =>
    rw [readable] at h ⊢
    split at h
    · rename_i h0
      rw [if_pos h0, ← Nat.add_assoc, Nat.add_right_comm]
      exact ih (by omega)
    · rename_i h0
      rw [if_neg h0]
      simpa using h0

/-- Past `m` bytes that are there, the count goes on. -/
theorem readable_add {m : ℕ} (hm : m ≤ len) (h : ∀ i, i < m → (um.byteAt (va + i)).isSome) :
    um.readable va len = m + um.readable (va + m) (len - m) := by
  induction m generalizing va len with
  | zero => simp
  | succ m ih =>
    obtain ⟨len, rfl⟩ : ∃ k, len = k + 1 := ⟨len - 1, by omega⟩
    have h0 : (um.byteAt va).isSome := h 0 (Nat.succ_pos m)
    have hrest : um.readable (va + 1) len = m + um.readable (va + 1 + m) (len - m) :=
      ih (by omega) fun i hi => by
        have := h (i + 1) (by omega)
        rwa [Nat.add_assoc, Nat.add_comm 1]
    rw [readable, if_pos h0, hrest, Nat.add_sub_add_right, Nat.add_assoc va 1, Nat.add_comm 1 m]
    omega

/-- A range of which every byte is there. -/
theorem readable_eq (h : ∀ i, i < len → (um.byteAt (va + i)).isSome) : um.readable va len = len := by
  have hsplit := readable_add (Nat.le_refl len) h
  rwa [Nat.sub_self, show um.readable (va + len) 0 = 0 from rfl, Nat.add_zero] at hsplit

/-- A shorter range is readable as far as the longer one. -/
theorem readable_min {m : ℕ} (hm : m ≤ len) : um.readable va m = min m (um.readable va len) := by
  induction m generalizing va len with
  | zero => simp [readable]
  | succ m ih =>
    obtain ⟨len, rfl⟩ : ∃ k, len = k + 1 := ⟨len - 1, by omega⟩
    have : um.readable (va + 1) m = min m (um.readable (va + 1) len) := ih (by omega)
    rw [readable, readable]
    split
    · omega
    · simp

/-- The bytes of one page. -/
theorem byteAt_page {srcva : ℕ} (hva : srcva < 2 ^ 64) {i : ℕ} (hi : i < PGSIZE - srcva % PGSIZE) :
    um.byteAt (srcva + i) =
      (um (pgRoundDown srcva)).map fun page => page.get (srcva - pgRoundDown srcva + i) := by
  simp only [PGSIZE, pgRoundDown, byteAt] at *
  have h1 : (srcva + i) % 2 ^ 64 = srcva + i := Nat.mod_eq_of_lt (by omega)
  have h2 : (srcva + i) % 4096 = srcva % 4096 + i := by omega
  rw [h1, h2, show srcva + i - (srcva % 4096 + i) = srcva - srcva % 4096 by omega,
    show srcva - (srcva - srcva % 4096) + i = srcva % 4096 + i by omega]

theorem byteAt_eq_none (hva : va < 2 ^ 64) (hpage : um (pgRoundDown va) = none) :
    um.byteAt va = none := by
  have hmod : va % PGSIZE < PGSIZE := Nat.mod_lt _ (by decide)
  rw [← Nat.add_zero va, byteAt_page hva (by omega), hpage]
  rfl

/-- **What one turn of a copying loop takes**: `m` bytes of one page. The
next page starts where they end, modulo the address width. -/
structure Chunk (um : UserMem) (va len : ℕ) (page : Bytes PGSIZE) (m : ℕ) : Prop where
  pos : 0 < m
  le : m ≤ len
  inPage : m ≤ PGSIZE - va % PGSIZE
  byte : ∀ i, i < m → um.byteAt (va + i) = some (page.get (va - pgRoundDown va + i))
  next : m = len ∨ (pgRoundDown va + PGSIZE) % 2 ^ 64 = (va + m) % 2 ^ 64
  split : um.readable va len =
    m + um.readable ((pgRoundDown va + PGSIZE) % 2 ^ 64) (len - m)

theorem chunk {page : Bytes PGSIZE} {m : ℕ} (hva : va < 2 ^ 64) (hlen : len ≠ 0)
    (hpage : um (pgRoundDown va) = some page)
    (hm : min (PGSIZE - (va - pgRoundDown va)) len = m) : Chunk um va len page m := by
  have hmod : va % PGSIZE < PGSIZE := Nat.mod_lt _ (by decide)
  have hround : va - pgRoundDown va = va % PGSIZE := by
    simp only [pgRoundDown, PGSIZE]
    omega
  have hbyte : ∀ i, i < m → um.byteAt (va + i) = some (page.get (va - pgRoundDown va + i)) := by
    intro i hi
    rw [byteAt_page hva (by omega), hpage]
    rfl
  have hnext : m = len ∨ (pgRoundDown va + PGSIZE) % 2 ^ 64 = (va + m) % 2 ^ 64 := by
    by_cases hml : m = len
    · exact .inl hml
    · right
      congr 1
      simp only [pgRoundDown, PGSIZE] at *
      omega
  refine ⟨by omega, by omega, by omega, hbyte, hnext, ?_⟩
  rw [readable_add (by omega : m ≤ len) fun i hi => by rw [hbyte i hi]; rfl]
  rcases hnext with hml | hnext
  · simp only [hml, Nat.sub_self, readable]
  · exact congrArg (m + ·) (readable_congr (by rw [Nat.mod_mod, hnext]))

theorem copyinLoop_eq {fuel : ℕ} {dst : Bytes n} {off srcva : ℕ} (hfuel : len ≤ fuel)
    (hva : srcva < 2 ^ 64) :
    um.copyinLoop fuel dst off srcva len = (decide (um.readable srcva len = len),
      dst.splice off (um.readable srcva len) fun i => (um.byteAt (srcva + i)).getD 0) := by
  induction fuel generalizing dst off srcva len with
  | zero =>
    have hlen : len = 0 := by omega
    subst hlen
    simp [copyinLoop, readable]
  | succ fuel ih =>
    rw [copyinLoop]
    by_cases hlen : len = 0
    · subst hlen
      simp [readable]
    rw [if_neg hlen]
    cases hpage : um (pgRoundDown srcva) with
    | none =>
      obtain ⟨k, rfl⟩ : ∃ k, len = k + 1 := ⟨len - 1, by omega⟩
      simp [readable, byteAt_eq_none hva hpage, hpage]
    | some page =>
      simp only [hpage]
      generalize hm : min (PGSIZE - (srcva - pgRoundDown srcva)) len = m
      have hk := chunk hva hlen hpage hm
      have hpos := hk.pos
      have hle := hk.le
      rw [ih (by omega) (Nat.mod_lt _ (by decide)), hk.split]
      refine Prod.ext (by simp only [decide_eq_decide]; omega) ?_
      dsimp only
      refine Bytes.splice_splice dst off m _ _ _ _ (fun i hi => ?_) fun i hi => ?_
      · rw [hk.byte i hi]
        rfl
      rcases hk.next with hml | hnext
      · rw [hml, Nat.sub_self] at hi
        exact absurd hi (Nat.not_lt_zero i)
      · exact congrArg (Option.getD · 0) (byteAt_congr (by omega))

/-- **What `copyin` does**: it copies the bytes up to the first that is
not there, and returns 0 if that is all of them. -/
theorem copyin_eq {dst : Bytes n} {off srcva : ℕ} (hva : srcva < 2 ^ 64) :
    um.copyin dst off srcva len = (decide (um.readable srcva len = len),
      dst.splice off (um.readable srcva len) fun i => (um.byteAt (srcva + i)).getD 0) :=
  copyinLoop_eq le_rfl hva

/-- How far an address is from another, going up. -/
def dist (va a : ℕ) : ℕ := (a + 2 ^ 64 - va) % 2 ^ 64

/-- A page written in part. -/
theorem byteAt_update {dstva m a : ℕ} {page : Bytes PGSIZE} {src : ℕ → UInt8}
    (hva : dstva < 2 ^ 64) (ha : a < 2 ^ 64) (hpage : um (pgRoundDown dstva) = some page)
    (hm : m ≤ PGSIZE - dstva % PGSIZE) :
    byteAt (update um (pgRoundDown dstva)
        (some (page.splice (dstva - pgRoundDown dstva) m src))) a =
      if dist dstva a < m then some (src (dist dstva a)) else um.byteAt a := by
  have hround : dstva - pgRoundDown dstva = dstva % PGSIZE := by
    simp only [pgRoundDown, PGSIZE]
    omega
  unfold byteAt
  rw [Nat.mod_eq_of_lt ha, hround]
  by_cases hp : pgRoundDown a = pgRoundDown dstva
  · -- inside the page, distances are differences
    have hdist : dist dstva a < m ↔ dstva % PGSIZE ≤ a % PGSIZE ∧ a % PGSIZE < dstva % PGSIZE + m := by
      simp only [dist, pgRoundDown, PGSIZE] at *
      omega
    rw [hp, update_self, hpage]
    simp only [Option.map_some, Bytes.get_splice]
    by_cases hin : dist dstva a < m
    · have hd : a % PGSIZE - dstva % PGSIZE = dist dstva a := by
        simp only [dist, pgRoundDown, PGSIZE] at *
        omega
      have hlt : a % PGSIZE < PGSIZE := Nat.mod_lt _ (by decide)
      rw [if_pos hin, if_pos ⟨(hdist.1 hin).1, (hdist.1 hin).2, hlt⟩, hd]
    · rw [if_neg hin, if_neg fun hc => hin (hdist.2 ⟨hc.1, hc.2.1⟩)]
  · rw [update_of_ne hp, if_neg]
    simp only [dist, pgRoundDown, PGSIZE] at *
    omega

/-- Writing to a page leaves what is there. -/
theorem readable_update {va₀ : ℕ} {page page' : Bytes PGSIZE} (hpage : um va₀ = some page) :
    readable (update um va₀ (some page')) va len = um.readable va len := by
  induction len generalizing va with
  | zero => rfl
  | succ len ih =>
    have hsome : (byteAt (update um va₀ (some page')) va).isSome = (um.byteAt va).isSome := by
      unfold byteAt
      by_cases hp : pgRoundDown (va % 2 ^ 64) = va₀
      · rw [hp, update_self, hpage]
        rfl
      · rw [update_of_ne hp]
    rw [readable, readable, hsome, ih]

theorem copyoutLoop_eq {fuel dstva : ℕ} {src : ℕ → UInt8} (hfuel : len ≤ fuel)
    (hva : dstva < 2 ^ 64) (hlen : len ≤ 2 ^ 64) :
    (copyoutLoop fuel um dstva src len).1 = decide (um.readable dstva len = len) ∧
      ∀ a, a < 2 ^ 64 → (copyoutLoop fuel um dstva src len).2.byteAt a =
        if dist dstva a < um.readable dstva len then some (src (dist dstva a))
        else um.byteAt a := by
  induction fuel generalizing um dstva src len with
  | zero =>
    have hlen : len = 0 := by omega
    subst hlen
    simp [copyoutLoop, readable]
  | succ fuel ih =>
    rw [copyoutLoop]
    by_cases h0 : len = 0
    · subst h0
      simp [readable]
    rw [if_neg h0]
    cases hpage : um (pgRoundDown dstva) with
    | none =>
      obtain ⟨k, rfl⟩ : ∃ k, len = k + 1 := ⟨len - 1, by omega⟩
      simp [readable, byteAt_eq_none hva hpage, hpage]
    | some page =>
      simp only [hpage]
      generalize hm : min (PGSIZE - (dstva - pgRoundDown dstva)) len = m
      obtain ⟨hpos, hml, hin, -, hnext, hsplit⟩ := chunk hva h0 hpage hm
      set va' := (pgRoundDown dstva + PGSIZE) % 2 ^ 64
      have hle : um.readable va' (len - m) ≤ len - m := readable_le
      obtain ⟨ih1, ih2⟩ := @ih (update um (pgRoundDown dstva)
        (some (page.splice (dstva - pgRoundDown dstva) m src))) (len - m)
        va' (fun i => src (m + i)) (by omega) (Nat.mod_lt _ (by decide)) (by omega)
      rw [readable_update hpage] at ih1 ih2
      refine ⟨?_, fun a ha => ?_⟩
      · rw [ih1, hsplit]
        simp only [decide_eq_decide]
        omega
      rw [ih2 a ha, byteAt_update hva ha hpage hin, hsplit]
      -- past the first chunk, the distance is the chunk and the distance from the next page
      have hnear : dist dstva a < m → ¬ dist va' a < um.readable va' (len - m) := by
        rcases hnext with hml | hnext
        · omega
        · simp only [dist] at *
          omega
      have hfar : ¬ dist dstva a < m → m < len → m + dist va' a = dist dstva a := by
        rcases hnext with hml | hnext
        · omega
        · simp only [dist] at *
          omega
      by_cases h1 : dist dstva a < m
      · rw [if_neg (hnear h1), if_pos h1, if_pos (by omega)]
      · rw [if_neg h1]
        by_cases h2 : m < len
        · rw [← hfar h1 h2]
          simp only [Nat.add_lt_add_iff_left]
        · rw [if_neg (by omega), if_neg (by omega)]

/-- **What `copyout` does**: it copies up to the first address that is not
there, and returns 0 if that is everything. -/
theorem copyout_eq {dstva : ℕ} {src : ℕ → UInt8} (hva : dstva < 2 ^ 64) (hlen : len ≤ 2 ^ 64) :
    (um.copyout dstva src len).1 = decide (um.readable dstva len = len) ∧
      ∀ a, a < 2 ^ 64 → (um.copyout dstva src len).2.byteAt a =
        if dist dstva a < um.readable dstva len then some (src (dist dstva a))
        else um.byteAt a :=
  copyoutLoop_eq le_rfl hva hlen

end UserMem

end Xv6
