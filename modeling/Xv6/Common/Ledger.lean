import Mathlib.Data.Finset.Card
/-!
# A ledger of blocks

Places hold block numbers, zero for none, and an allocator marks the
blocks in use. `Ledger` says that the two agree: no block is held twice,
what is held lies in `[lo, hi)`, and the marked blocks are those held and
those below `lo`. Allocating into an empty place and freeing what a place
holds keep it.
-/

namespace Common

open Function

variable {ι : Type*} {S : ι → ℕ} {used used' : ℕ → Prop} {lo hi b : ℕ} {x y : ι}

/-- **The blocks marked are the blocks held, each held once.** -/
structure Ledger (S : ι → ℕ) (used : ℕ → Prop) (lo hi : ℕ) : Prop where
  pos : 0 < lo
  inj : ∀ x y, S x ≠ 0 → S x = S y → x = y
  range : ∀ x, S x ≠ 0 → lo ≤ S x ∧ S x < hi
  used_iff : ∀ b, b < hi → (used b ↔ b < lo ∨ ∃ x, S x = b)

namespace Ledger

section

variable (h : Ledger S used lo hi)
include h

theorem used_of_held (hx : S x ≠ 0) : used (S x) :=
  (h.used_iff _ (h.range x hx).2).2 (.inr ⟨x, rfl⟩)

theorem le_of_free (hb : b < hi) (hfree : ¬ used b) : lo ≤ b := by
  by_contra hlt
  exact hfree ((h.used_iff b hb).2 (.inl (by omega)))

/-- A free block is in no place. -/
theorem ne_of_free (hb : b < hi) (hfree : ¬ used b) : S x ≠ b := by
  rintro rfl
  exact hfree ((h.used_iff _ hb).2 (.inr ⟨x, rfl⟩))

theorem congr (hused : ∀ b, b < hi → (used' b ↔ used b)) : Ledger S used' lo hi :=
  ⟨h.pos, h.inj, h.range, fun b hb => (hused b hb).trans (h.used_iff b hb)⟩

/-- **As long as places that need a block go without, there are free
blocks**, if there were enough for all of them: what was free and is marked
now is held by one of the others. -/
theorem exists_free {S' : ι → ℕ} [DecidableEq ι]
    (h' : Ledger S' used' lo hi) (hkeep : ∀ x, S x ≠ 0 → S' x = S x) (need : Finset ι)
    (hneed : ∀ x, S x = 0 → S' x ≠ 0 → x ∈ need) (free : Finset ℕ)
    (hfree : ∀ b ∈ free, b < hi ∧ ¬ used b) (hcard : need.card ≤ free.card) (hx : x ∈ need)
    (hx' : S' x = 0) : ∃ b, b < hi ∧ ¬ used' b := by
  by_contra hfull
  have hall : ∀ b, b < hi → used' b := fun b hb => by
    by_contra hc
    exact hfull ⟨b, hb, hc⟩
  have hsub : free ⊆ (need.erase x).image S' := by
    intro b hb
    obtain ⟨hlt, hnot⟩ := hfree b hb
    have hlo := h.le_of_free hlt hnot
    have hpos := h.pos
    obtain hlow | ⟨y, rfl⟩ := (h'.used_iff b hlt).1 (hall b hlt)
    · omega
    have hy : S y = 0 := by
      by_contra hne
      rw [hkeep y hne] at hnot
      exact hnot (h.used_of_held hne)
    refine Finset.mem_image.2 ⟨y, Finset.mem_erase.2 ⟨?_, hneed y hy (by omega)⟩, rfl⟩
    rintro rfl
    omega
  have h1 := Finset.card_le_card hsub
  have h2 : ((need.erase x).image S').card ≤ (need.erase x).card := Finset.card_image_le
  have h3 := Finset.card_erase_lt_of_mem hx
  omega

end

variable [DecidableEq ι]

/-- **Allocation**: a free block into an empty place. -/
theorem alloc (h : Ledger S used lo hi) (hx : S x = 0) (hb : b < hi) (hfree : ¬ used b)
    (hused : ∀ c, c < hi → (used' c ↔ c = b ∨ used c)) :
    Ledger (update S x b) used' lo hi := by
  have hlo := h.le_of_free hb hfree
  have hpos := h.pos
  refine ⟨hpos, fun y z hy hyz => ?_, fun y hy => ?_, fun c hc => ?_⟩
  · by_cases hyx : y = x <;> by_cases hzx : z = x
    · rw [hyx, hzx]
    · rw [hyx, update_self, update_of_ne hzx] at hyz
      exact absurd hyz.symm (h.ne_of_free hb hfree)
    · rw [hzx, update_self, update_of_ne hyx] at hyz
      exact absurd hyz (h.ne_of_free hb hfree)
    · rw [update_of_ne hyx] at hy hyz
      rw [update_of_ne hzx] at hyz
      exact h.inj y z hy hyz
  · by_cases hyx : y = x
    · rw [hyx, update_self]
      exact ⟨hlo, hb⟩
    · rw [update_of_ne hyx] at hy ⊢
      exact h.range y hy
  · rw [hused c hc, h.used_iff c hc]
    constructor
    · rintro (rfl | hlt | ⟨y, rfl⟩)
      · exact .inr ⟨x, update_self ..⟩
      · exact .inl hlt
      · by_cases hyx : y = x
        · left
          rw [hyx, hx]
          exact hpos
        · exact .inr ⟨y, update_of_ne hyx ..⟩
    · rintro (hlt | ⟨y, rfl⟩)
      · exact .inr (.inl hlt)
      · by_cases hyx : y = x
        · rw [hyx, update_self]
          exact .inl rfl
        · rw [update_of_ne hyx]
          exact .inr (.inr ⟨y, rfl⟩)

/-- **Freeing** what a place holds. -/
theorem free (h : Ledger S used lo hi) (hx : S x ≠ 0)
    (hused : ∀ c, c < hi → (used' c ↔ c ≠ S x ∧ used c)) :
    Ledger (update S x 0) used' lo hi := by
  have hpos := h.pos
  have hne : ∀ {y}, update S x 0 y ≠ 0 → y ≠ x := by
    rintro y hy rfl
    exact hy (update_self ..)
  refine ⟨hpos, fun y z hy hyz => ?_, fun y hy => ?_, fun c hc => ?_⟩
  · have hyx := hne hy
    have hzx := hne (hyz ▸ hy)
    rw [update_of_ne hyx] at hy hyz
    rw [update_of_ne hzx] at hyz
    exact h.inj y z hy hyz
  · have hyx := hne hy
    rw [update_of_ne hyx] at hy ⊢
    exact h.range y hy
  · rw [hused c hc, h.used_iff c hc]
    constructor
    · rintro ⟨hcx, hlt | ⟨y, rfl⟩⟩
      · exact .inl hlt
      · have hyx : y ≠ x := by
          rintro rfl
          exact hcx rfl
        exact .inr ⟨y, update_of_ne hyx ..⟩
    · rintro (hlt | ⟨y, hy⟩)
      · refine ⟨fun hcx => ?_, .inl hlt⟩
        have := (h.range x hx).1
        omega
      · by_cases hyx : y = x
        · rw [hyx, update_self] at hy
          have := (h.range x hx).1
          exact ⟨by omega, .inl (by omega)⟩
        · rw [update_of_ne hyx] at hy
          refine ⟨fun hcx => hyx (h.inj x y hx ?_).symm, .inr ⟨y, hy⟩⟩
          rw [hy, hcx]

end Ledger

end Common
