import Mathlib.Data.List.Nodup
import Mathlib.Logic.Function.Iterate
/-!
# Memory with owners

Every block of a memory has an owner. A program with the region `P` may
write, and hand round, the blocks whose owners satisfy `P`; every other
block keeps its contents and its owner (`Frame`). Frames compose, and a
frame of a smaller region is one of a larger. A free list threaded through
the blocks it holds is `Threaded`.
-/

namespace Common

open Function

variable {ω β : Type*}

/-- **Only blocks of the region are touched**, and they stay in it. -/
structure Frame (P : ω → Prop) (o o' : ℕ → ω) (m m' : ℕ → β) : Prop where
  mem : ∀ b, ¬ P (o b) → m' b = m b
  own : ∀ b, ¬ P (o b) → o' b = o b
  region : ∀ b, P (o b) → P (o' b)

namespace Frame

variable {P Q : ω → Prop} {o o' o'' : ℕ → ω} {m m' m'' : ℕ → β} {b : ℕ} {w : ω}

theorem refl (P : ω → Prop) (o : ℕ → ω) (m : ℕ → β) : Frame P o o m m :=
  ⟨fun _ _ => rfl, fun _ _ => rfl, fun _ h => h⟩

theorem trans (h : Frame P o o' m m') (h' : Frame P o' o'' m' m'') : Frame P o o'' m m'' := by
  have hout : ∀ b, ¬ P (o b) → ¬ P (o' b) := fun b hb => by rwa [h.own b hb]
  refine ⟨fun b hb => ?_, fun b hb => ?_, fun b hb => h'.region b (h.region b hb)⟩
  · rw [h'.mem b (hout b hb), h.mem b hb]
  · rw [h'.own b (hout b hb), h.own b hb]

theorem mono (h : Frame P o o' m m') (hPQ : ∀ w, P w → Q w) : Frame Q o o' m m' := by
  have hout : ∀ b, ¬ Q (o b) → ¬ P (o b) := fun b hb hp => hb (hPQ _ hp)
  refine ⟨fun b hb => h.mem b (hout b hb), fun b hb => h.own b (hout b hb), fun b hb => ?_⟩
  by_cases hp : P (o b)
  · exact hPQ _ (h.region b hp)
  · rwa [h.own b hp]

/-- The blocks of an owner outside the region stay the same ones. -/
theorem own_iff (h : Frame P o o' m m') (hw : ¬ P w) : o' b = w ↔ o b = w := by
  constructor
  · rintro rfl
    by_cases hp : P (o b)
    · exact absurd (h.region b hp) hw
    · exact (h.own b hp).symm
  · rintro rfl
    exact h.own b hw

theorem mem_of_own (h : Frame P o o' m m') (hw : ¬ P w) (hb : o b = w) : m' b = m b :=
  h.mem b (by rwa [hb])

/-- A block of the region changes hands, inside the region. -/
theorem update_own (hb : P (o b)) (hw : P w) (hm : ∀ c, c ≠ b → m' c = m c) :
    Frame P o (update o b w) m m' := by
  have hne : ∀ c, ¬ P (o c) → c ≠ b := by
    rintro c hc rfl
    exact hc hb
  refine ⟨fun c hc => hm c (hne c hc), fun c hc => update_of_ne (hne c hc) .., ?_⟩
  intro c hc
  by_cases hcb : c = b
  · rwa [hcb, update_self]
  · rwa [update_of_ne hcb]

/-- A block of the region is written. -/
theorem write (hb : P (o b)) (hm : ∀ c, c ≠ b → m' c = m c) : Frame P o o m m' := by
  refine ⟨fun c hc => hm c ?_, fun _ _ => rfl, fun _ h => h⟩
  rintro rfl
  exact hc hb

end Frame

/-- The list starting at `h`, each block naming the next, zero at the end. -/
def Threaded (next : ℕ → ℕ) : ℕ → List ℕ → Prop
  | h, [] => h = 0
  | h, b :: l => h = b ∧ b ≠ 0 ∧ Threaded next (next b) l

namespace Threaded

variable {next next' : ℕ → ℕ} {h b : ℕ} {l : List ℕ}

/-- Only the blocks on the list matter. -/
theorem congr (ht : Threaded next h l) (hn : ∀ b, b ∈ l → next' b = next b) :
    Threaded next' h l := by
  induction l generalizing h with
  | nil => exact ht
  | cons c l ih =>
    obtain ⟨rfl, h0, ht⟩ := ht
    refine ⟨rfl, h0, ?_⟩
    rw [hn h (List.mem_cons_self ..)]
    exact ih ht fun b hb => hn b (List.mem_cons_of_mem _ hb)

theorem ne_nil (ht : Threaded next h l) (h0 : h ≠ 0) : ∃ l', l = h :: l' := by
  cases l with
  | nil => exact absurd ht h0
  | cons b l => exact ⟨l, by rw [ht.1]⟩

end Threaded

end Common
