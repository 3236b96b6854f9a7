import Xv6.Common.Bytes
import Mathlib.Data.Nat.Bitwise
/-!
# Byte regions as bitmaps

Bit `i` of a region is bit `i % 8` of its byte `i / 8`, tested, set and
cleared with a mask as C code does. The two laws say what a test finds
after a change.
-/

namespace Common

namespace Bytes

variable {n : ℕ}

/-- `1 << (i % 8)`. -/
def mask (i : ℕ) : UInt8 := UInt8.ofNat (2 ^ (i % 8))

def testBit (b : Bytes n) (i : ℕ) : Bool := b.get (i / 8) &&& mask i ≠ 0

def setBit (b : Bytes n) (i : ℕ) : Bytes n := b.splice (i / 8) 1 fun _ => b.get (i / 8) ||| mask i

def clearBit (b : Bytes n) (i : ℕ) : Bytes n :=
  b.splice (i / 8) 1 fun _ => b.get (i / 8) &&& ~~~mask i

theorem toNat_mask (i : ℕ) : (mask i).toNat = 2 ^ (i % 8) := by
  have hlt : 2 ^ (i % 8) < 2 ^ 8 := Nat.pow_lt_pow_right (by decide) (Nat.mod_lt _ (by decide))
  exact UInt8.toNat_ofNat'.trans (Nat.mod_eq_of_lt hlt)

/-- The masked byte is zero exactly if the bit is. -/
theorem and_mask_ne_zero (x : UInt8) (i : ℕ) : x &&& mask i ≠ 0 ↔ x.toNat.testBit (i % 8) := by
  rw [Ne, ← UInt8.toNat_inj, UInt8.toNat_and, toNat_mask, Nat.and_two_pow]
  cases x.toNat.testBit (i % 8) <;> simp

theorem testBit_iff {b : Bytes n} {i : ℕ} :
    b.testBit i = true ↔ (b.get (i / 8)).toNat.testBit (i % 8) := by
  rw [testBit, decide_eq_true_iff, and_mask_ne_zero]

/-- What a test finds when the byte of bit `i` has been replaced. -/
theorem testBit_splice {b : Bytes n} {i j : ℕ} {f : ℕ → UInt8} (hi : i < 8 * n) :
    (b.splice (i / 8) 1 f).testBit j = true ↔
      ((if j / 8 = i / 8 then f 0 else b.get (j / 8)).toNat.testBit (j % 8) = true) := by
  rw [testBit_iff, get_splice]
  by_cases h : j / 8 = i / 8
  · rw [if_pos ⟨by omega, by omega, by omega⟩, if_pos h, h, Nat.sub_self]
  · rw [if_neg (by omega), if_neg h]

/-- **Setting a bit sets that bit.** -/
theorem testBit_setBit {b : Bytes n} {i j : ℕ} (hi : i < 8 * n) :
    (b.setBit i).testBit j = true ↔ j = i ∨ b.testBit j = true := by
  rw [setBit, testBit_splice hi, testBit_iff]
  by_cases h : j / 8 = i / 8
  · have hij : j % 8 = i % 8 ↔ j = i := by omega
    rw [if_pos h, UInt8.toNat_or, toNat_mask, Nat.testBit_or, Nat.testBit_two_pow, Bool.or_eq_true,
      decide_eq_true_iff, h, ← hij]
    tauto
  · have hij : j ≠ i := by
      rintro rfl
      exact h rfl
    simp [h, hij]

/-- **Clearing a bit clears that bit.** -/
theorem testBit_clearBit {b : Bytes n} {i j : ℕ} (hi : i < 8 * n) :
    (b.clearBit i).testBit j = true ↔ j ≠ i ∧ b.testBit j = true := by
  rw [clearBit, testBit_splice hi, testBit_iff]
  by_cases h : j / 8 = i / 8
  · have hij : j % 8 = i % 8 ↔ j = i := by omega
    have hbit : j % 8 < 8 := Nat.mod_lt _ (by decide)
    have hnot : (~~~mask i).toNat.testBit (j % 8) = !decide (i % 8 = j % 8) := by
      rw [← UInt8.toNat_toBitVec, UInt8.toBitVec_not, BitVec.testBit_toNat, BitVec.getLsbD_not,
        ← BitVec.testBit_toNat, UInt8.toNat_toBitVec, toNat_mask, Nat.testBit_two_pow]
      simp [hbit]
    rw [if_pos h, UInt8.toNat_and, Nat.testBit_and, hnot, Bool.and_eq_true, h]
    simp only [Bool.not_eq_true', decide_eq_false_iff_not]
    rw [eq_comm (a := i % 8), hij, and_comm]
  · have hij : j ≠ i := by
      rintro rfl
      exact h rfl
    simp [h, hij]

end Bytes

end Common
