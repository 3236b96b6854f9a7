import Mathlib.Algebra.BigOperators.Group.Finset.Basic
import Mathlib.Order.Interval.Finset.Nat
/-!
# Packing

Blocks that lie apart inside a range take no more room than the range has.
-/

namespace Common

open Finset

/-- **Blocks that lie apart in a range are no longer than the range.** -/
theorem sum_length_le {ι : Type*} {s : Finset ι} {a len : ι → ℕ} {lo hi : ℕ}
    (hin : ∀ i ∈ s, lo ≤ a i ∧ a i + len i ≤ hi)
    (hapart : ∀ i ∈ s, ∀ j ∈ s, i ≠ j → a i + len i ≤ a j ∨ a j + len j ≤ a i) :
    ∑ i ∈ s, len i ≤ hi - lo := by
  classical
  have hcard : (s.biUnion fun i => Ico (a i) (a i + len i)).card = ∑ i ∈ s, len i := by
    rw [card_biUnion]
    · exact sum_congr rfl fun i _ => by rw [Nat.card_Ico, Nat.add_sub_cancel_left]
    · intro i hi j hj hij
      rw [Function.onFun, disjoint_left]
      intro x hx hx'
      rw [mem_Ico] at hx hx'
      have := hapart i hi j hj hij
      omega
  have hsub : (s.biUnion fun i => Ico (a i) (a i + len i)) ⊆ Ico lo hi := by
    intro x hx
    obtain ⟨i, hi, hx⟩ := mem_biUnion.1 hx
    have := hin i hi
    rw [mem_Ico] at hx ⊢
    omega
  rw [← hcard, ← Nat.card_Ico]
  exact card_le_card hsub

end Common
