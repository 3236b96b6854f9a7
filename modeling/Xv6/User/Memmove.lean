import Mathlib.Algebra.Group.Nat.Defs
import Mathlib.Logic.Function.Basic
/-!
# `memmove` — `kernel/string.c`, `user/ulib.c`

The two functions choose the direction of the copy by tests of their own.
A direction is right where no byte is overwritten before it is read; both
tests choose a right one.
-/

namespace Xv6

open Function

namespace Memmove

/-- Memory, a byte at each address. -/
abbrev Mem : Type := BitVec 64 → UInt8

/-- `while(n-- > 0) *d++ = *s++;` -/
def copyUp (m : Mem) (d s : BitVec 64) : ℕ → Mem
  | 0 => m
  | n + 1 => copyUp (update m d (m s)) (d + 1) (s + 1) n

/-- `while(n-- > 0) *--d = *--s;` -/
def copyDown (m : Mem) (d s : BitVec 64) : ℕ → Mem
  | 0 => m
  | n + 1 => copyDown (update m (d - 1) (m (s - 1))) (d - 1) (s - 1) n

/-- `memmove` of the kernel, which returns `dst`: the memory after it. -/
def Kernel.memmove (m : Mem) (dst src : BitVec 64) (n : BitVec 32) : Mem :=
  if src < dst ∧ src + n.setWidth 64 > dst then
    copyDown m (dst + n.setWidth 64) (src + n.setWidth 64) n.toNat
  else copyUp m dst src n.toNat

/-- `memmove` of the user library, where `n` is signed. -/
def User.memmove (m : Mem) (vdst vsrc : BitVec 64) (n : BitVec 32) : Mem :=
  if vsrc > vdst then copyUp m vdst vsrc n.toInt.toNat
  else copyDown m (vdst + n.signExtend 64) (vsrc + n.signExtend 64) n.toInt.toNat

/-- **The bytes have moved**: `dst` has what `src` had, and every other byte
is what it was. -/
structure Moved (m : Mem) (dst src : BitVec 64) (n : ℕ) (m' : Mem) : Prop where
  moved : ∀ i < n, m' (dst + BitVec.ofNat 64 i) = m (src + BitVec.ofNat 64 i)
  frame : ∀ a, (∀ i < n, a ≠ dst + BitVec.ofNat 64 i) → m' a = m a

variable {m m' m₁ : Mem} {dst src : BitVec 64} {n : ℕ}

theorem Moved.unique (h : Moved m dst src n m') (h₁ : Moved m dst src n m₁) : m' = m₁ := by
  funext a
  by_cases ha : ∃ i < n, a = dst + BitVec.ofNat 64 i
  · obtain ⟨i, hi, rfl⟩ := ha
    rw [h.moved i hi, h₁.moved i hi]
  · have ha : ∀ i < n, a ≠ dst + BitVec.ofNat 64 i := fun i hi he => ha ⟨i, hi, he⟩
    rw [h.frame a ha, h₁.frame a ha]

/-- Upwards, a byte is read before it is overwritten, unless the destination
begins inside the source. -/
theorem moved_copyUp (hs : src.toNat + n ≤ 2 ^ 64) (hd : dst.toNat + n ≤ 2 ^ 64)
    (h : src.toNat < dst.toNat → src.toNat + n ≤ dst.toNat) :
    Moved m dst src n (copyUp m dst src n) := by
  induction n generalizing m dst src with
  | zero => exact ⟨fun i hi => by omega, fun _ _ => rfl⟩
  | succ n ih =>
    obtain ⟨hmoved, hframe⟩ := @ih (update m dst (m src)) (dst + 1) (src + 1) (by bv_omega)
      (by bv_omega) (by bv_omega)
    have hsucc : ∀ (a : BitVec 64) i, a + BitVec.ofNat 64 (i + 1) = a + 1 + BitVec.ofNat 64 i := by
      intro a i
      bv_omega
    refine ⟨fun i hi => ?_, fun a ha => ?_⟩
    · cases i with
      | zero =>
        rw [copyUp, BitVec.add_zero, BitVec.add_zero, hframe dst fun i hi => by bv_omega,
          update_self]
      | succ i =>
        have hne : src + BitVec.ofNat 64 (i + 1) ≠ dst := by bv_omega
        rw [copyUp, hsucc dst, hmoved i (by omega), ← hsucc, update_of_ne hne]
    · have hne : a ≠ dst := by
        have := ha 0 (by omega)
        rwa [BitVec.add_zero] at this
      rw [copyUp, hframe a fun i hi => hsucc dst i ▸ ha (i + 1) (by omega), update_of_ne hne]

/-- Downwards, unless the source begins inside the destination. -/
theorem moved_copyDown (hs : src.toNat + n ≤ 2 ^ 64) (hd : dst.toNat + n ≤ 2 ^ 64)
    (h : dst.toNat < src.toNat → dst.toNat + n ≤ src.toNat) : Moved m dst src n
      (copyDown m (dst + BitVec.ofNat 64 n) (src + BitVec.ofNat 64 n) n) := by
  induction n generalizing m with
  | zero => exact ⟨fun i hi => by omega, fun _ _ => rfl⟩
  | succ n ih =>
    have hpred : ∀ a : BitVec 64, a + BitVec.ofNat 64 (n + 1) - 1 = a + BitVec.ofNat 64 n := by
      intro a
      bv_omega
    rw [copyDown, hpred, hpred]
    obtain ⟨hmoved, hframe⟩ := ih (m := update m (dst + BitVec.ofNat 64 n)
      (m (src + BitVec.ofNat 64 n))) (by omega) (by omega) (by omega)
    refine ⟨fun i hi => ?_, fun a ha => ?_⟩
    · by_cases hin : i = n
      · rw [hin, hframe _ fun j hj => by bv_omega, update_self]
      · have hne : src + BitVec.ofNat 64 i ≠ dst + BitVec.ofNat 64 n := by bv_omega
        rw [hmoved i (by omega), update_of_ne hne]
    · rw [hframe a fun i hi => ha i (by omega), update_of_ne (ha n (by omega))]

theorem moved_kernel {n : BitVec 32} (hs : src.toNat + n.toNat ≤ 2 ^ 64)
    (hd : dst.toNat + n.toNat ≤ 2 ^ 64) :
    Moved m dst src n.toNat (Kernel.memmove m dst src n) := by
  have hn : n.setWidth 64 = BitVec.ofNat 64 n.toNat := by bv_omega
  rw [Kernel.memmove, hn]
  split
  · exact moved_copyDown hs hd (by bv_omega)
  · exact moved_copyUp hs hd (by bv_omega)

theorem moved_user {n : BitVec 32} (hn : 0 ≤ n.toInt) (hs : src.toNat + n.toNat ≤ 2 ^ 64)
    (hd : dst.toNat + n.toNat ≤ 2 ^ 64) :
    Moved m dst src n.toNat (User.memmove m dst src n) := by
  have hmsb : n.msb = false := by rw [BitVec.msb_eq_toInt, decide_eq_false_iff_not]; omega
  have hwide : n.signExtend 64 = BitVec.ofNat 64 n.toNat := by
    rw [BitVec.signExtend_eq_setWidth_of_msb_false hmsb]
    bv_omega
  rw [User.memmove, hwide, BitVec.toInt_eq_toNat_of_msb hmsb, Int.toNat_natCast]
  split
  · exact moved_copyUp hs hd (by bv_omega)
  · exact moved_copyDown hs hd (by bv_omega)

/-- **Both move the bytes, however the ranges overlap**, and so they agree. -/
theorem memmove_moved (m : Mem) (dst src : BitVec 64) (n : BitVec 32)
    (hs : src.toNat + n.toNat ≤ 2 ^ 64) (hd : dst.toNat + n.toNat ≤ 2 ^ 64) :
    Moved m dst src n.toNat (Kernel.memmove m dst src n) ∧
    (0 ≤ n.toInt → Moved m dst src n.toNat (User.memmove m dst src n) ∧
      User.memmove m dst src n = Kernel.memmove m dst src n) :=
  ⟨moved_kernel hs hd, fun hn => ⟨moved_user hn hs hd,
    (moved_user hn hs hd).unique (moved_kernel hs hd)⟩⟩

/-- Two bytes moved up by one. -/
theorem memmove_moved_up : (1 : BitVec 64).toNat + (2 : BitVec 32).toNat ≤ 2 ^ 64 ∧
    Moved (fun a => a.toNat.toUInt8) 1 0 2
      (Kernel.memmove (fun a => a.toNat.toUInt8) 1 0 2) :=
  ⟨by decide, (memmove_moved _ 1 0 2 (by decide) (by decide)).1⟩

end Memmove

end Xv6
