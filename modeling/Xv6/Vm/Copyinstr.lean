import Xv6.Vm.Copy
/-!
# Copying a string from user memory — `copyinstr` of `kernel/vm.c`

Two nested loops share the room that is left in the buffer. Taken
together they go byte by byte (`copyinstrLoop_eq`), and so they copy the
string if there is one, with its NUL, and otherwise the bytes up to the
first that is not there.
-/

namespace Xv6

open Common

namespace UserMem

variable {n : ℕ} {um : UserMem} {va max off : ℕ} {dst : Bytes n}

/-- How long the string at `va` is, if it has a NUL among its first `max`
bytes. -/
def strEnd (um : UserMem) : ℕ → ℕ → Option ℕ
  | _, 0 => none
  | va, max + 1 =>
    match um.byteAt va with
    | none => none
    | some c => if c = 0 then some 0 else (strEnd um (va + 1) max).map (· + 1)

/-- How many bytes of the buffer are written: the string with its NUL, or
what is there. -/
def written (um : UserMem) (va max : ℕ) : ℕ :=
  match um.strEnd va max with
  | some k => k + 1
  | none => um.readable va max

/-- **The end of the string** is the first NUL. -/
theorem strEnd_eq_some {k : ℕ} : um.strEnd va max = some k ↔
    k < max ∧ um.byteAt (va + k) = some 0 ∧ ∀ i, i < k → ∃ c, um.byteAt (va + i) = some c ∧ c ≠ 0 := by
  induction max generalizing va k with
  | zero => simp [strEnd]
  | succ max ih =>
    rw [strEnd]
    cases hbyte : um.byteAt va with
    | none =>
      constructor
      · intro h
        cases h
      · rintro ⟨-, hk, hall⟩
        cases k with
        | zero =>
          rw [Nat.add_zero, hbyte] at hk
          cases hk
        | succ k =>
          obtain ⟨c, hc, -⟩ := hall 0 (Nat.succ_pos k)
          rw [Nat.add_zero, hbyte] at hc
          cases hc
    | some c =>
      by_cases hc : c = 0
      · subst hc
        simp only [↓reduceIte]
        constructor
        · intro h
          cases h
          exact ⟨Nat.succ_pos max, hbyte, fun i hi => absurd hi (Nat.not_lt_zero i)⟩
        · rintro ⟨-, -, hall⟩
          cases k with
          | zero => rfl
          | succ k =>
            obtain ⟨d, hd, hd0⟩ := hall 0 (Nat.succ_pos k)
            rw [Nat.add_zero, hbyte] at hd
            cases hd
            exact absurd rfl hd0
      · simp only [hc, ↓reduceIte, Option.map_eq_some_iff, ih]
        have hshift : ∀ i, va + 1 + i = va + (i + 1) := fun i => by omega
        constructor
        · rintro ⟨j, ⟨hj, h0, hall⟩, rfl⟩
          refine ⟨by omega, by rw [← hshift, h0], fun i hi => ?_⟩
          cases i with
          | zero => exact ⟨c, hbyte, hc⟩
          | succ i =>
            rw [← hshift]
            exact hall i (by omega)
        · rintro ⟨hk, h0, hall⟩
          cases k with
          | zero =>
            rw [Nat.add_zero, hbyte] at h0
            exact absurd (Option.some.inj h0) hc
          | succ k =>
            refine ⟨k, ⟨by omega, by rw [hshift, h0], fun i hi => ?_⟩, rfl⟩
            rw [hshift]
            exact hall (i + 1) (by omega)

/-- `copyinstr` byte by byte. -/
def copyinstrBytes (um : UserMem) : ℕ → Bytes n → ℕ → ℕ → Bool × Bytes n
  | 0, dst, _, _ => (false, dst)
  | max + 1, dst, off, srcva =>
    match um.byteAt srcva with
    | none => (false, dst)
    | some c =>
      if c = 0 then (true, dst.splice off 1 fun _ => c)
      else copyinstrBytes um max (dst.splice off 1 fun _ => c) (off + 1) (srcva + 1)

theorem copyinstrBytes_eq :
    um.copyinstrBytes max dst off va = ((um.strEnd va max).isSome,
      dst.splice off (um.written va max) fun i => (um.byteAt (va + i)).getD 0) := by
  induction max generalizing dst off va with
  | zero => simp [copyinstrBytes, strEnd, written, readable]
  | succ max ih =>
    rw [copyinstrBytes, written, strEnd]
    cases hbyte : um.byteAt va with
    | none => simp [readable, hbyte]
    | some c =>
      by_cases hc : c = 0
      · simp only [hc, ↓reduceIte, Option.isSome_some, Nat.zero_add]
        refine congrArg (Prod.mk _) (Bytes.splice_congr _ fun i hi => ?_)
        obtain rfl : i = 0 := by omega
        rw [Nat.add_zero, hbyte, hc]
        rfl
      · have hlen : (match (um.strEnd (va + 1) max).map (· + 1) with
            | some k => k + 1
            | none => um.readable va (max + 1)) = 1 + um.written (va + 1) max := by
          rw [written, readable, hbyte]
          cases um.strEnd (va + 1) max <;> simp [Nat.add_comm]
        simp only [hc, ↓reduceIte, hlen, Option.isSome_map]
        rw [ih]
        refine congrArg (Prod.mk _)
          (Bytes.splice_splice dst off 1 _ _ _ _ (fun i hi => ?_) fun i _ => ?_)
        · obtain rfl : i = 0 := by omega
          rw [Nat.add_zero, hbyte]
          rfl
        · rw [Nat.add_assoc]

theorem copyinstrBytes_congr {va' : ℕ} (h : va % 2 ^ 64 = va' % 2 ^ 64) :
    um.copyinstrBytes max dst off va = um.copyinstrBytes max dst off va' := by
  induction max generalizing dst off va va' with
  | zero => rfl
  | succ max ih =>
    rw [copyinstrBytes, copyinstrBytes, byteAt_congr h]
    cases um.byteAt va' with
    | none => rfl
    | some c =>
      simp only
      rw [ih (by omega : (va + 1) % 2 ^ 64 = (va' + 1) % 2 ^ 64)]

/-- **The inner loop** takes the bytes of the page that are asked for, and
leaves the others. -/
theorem copyinstrPage_eq {page : Bytes PGSIZE} {m p : ℕ}
    (hbyte : ∀ i, i < m → um.byteAt (va + i) = some (page.get (p + i))) :
    um.copyinstrBytes (m + max) dst off va =
      if (copyinstrPage page m p dst off).1 then (true, (copyinstrPage page m p dst off).2)
      else um.copyinstrBytes max (copyinstrPage page m p dst off).2 (off + m) (va + m) := by
  induction m generalizing dst off va p with
  | zero => simp [copyinstrPage]
  | succ m ih =>
    have h0 : um.byteAt va = some (page.get p) := hbyte 0 (Nat.succ_pos m)
    rw [show m + 1 + max = m + max + 1 by omega, copyinstrBytes, h0, copyinstrPage]
    by_cases hc : page.get p = 0
    · simp only [hc, ↓reduceIte]
    · simp only [hc, ↓reduceIte]
      rw [ih (p := p + 1) fun i hi => ?_]
      · rw [Nat.add_assoc off, Nat.add_comm 1 m, Nat.add_assoc va, Nat.add_comm 1 m]
      · have := hbyte (i + 1) (by omega)
        rwa [Nat.add_assoc, Nat.add_comm 1 i, Nat.add_assoc p, Nat.add_comm 1 i]

/-- **Both loops together** go byte by byte. -/
theorem copyinstrLoop_eq {fuel : ℕ} (hfuel : max ≤ fuel) (hva : va < 2 ^ 64) :
    um.copyinstrLoop fuel dst off va max = um.copyinstrBytes max dst off va := by
  induction fuel generalizing dst off va max with
  | zero =>
    obtain rfl : max = 0 := by omega
    rfl
  | succ fuel ih =>
    rw [copyinstrLoop]
    by_cases hmax : max = 0
    · subst hmax
      rfl
    rw [if_neg hmax]
    cases hpage : um (pgRoundDown va) with
    | none =>
      obtain ⟨k, rfl⟩ : ∃ k, max = k + 1 := ⟨max - 1, by omega⟩
      simp [copyinstrBytes, byteAt_eq_none hva hpage, hpage]
    | some page =>
      simp only [hpage]
      generalize hm : min (PGSIZE - (va - pgRoundDown va)) max = m
      have hk := chunk hva hmax hpage hm
      have hpos := hk.pos
      have hsplit : max = m + (max - m) := (Nat.add_sub_of_le hk.le).symm
      rw [ih (by omega) (Nat.mod_lt _ (by decide))]
      conv_rhs => rw [hsplit, copyinstrPage_eq hk.byte]
      refine if_congr Iff.rfl rfl ?_
      rcases hk.next with hml | hnext
      · simp only [hml, Nat.sub_self, copyinstrBytes]
      · exact copyinstrBytes_congr (by rw [Nat.mod_mod, hnext])

/-- **What `copyinstr` does**: it returns 0 if there is a string, and writes
the bytes up to its end, or up to the first that is not there. -/
theorem copyinstr_eq (hva : va < 2 ^ 64) :
    um.copyinstr dst off va max = ((um.strEnd va max).isSome,
      dst.splice off (um.written va max) fun i => (um.byteAt (va + i)).getD 0) := by
  rw [copyinstr, copyinstrLoop_eq le_rfl hva, copyinstrBytes_eq]

theorem written_le : um.written va max ≤ max := by
  rw [written]
  cases h : um.strEnd va max with
  | none => exact readable_le
  | some k => exact (strEnd_eq_some.1 h).1

end UserMem

end Xv6
