import Mathlib.Data.List.Basic
/-!
# Writing a list into a memory

`overlay f a l` is the memory `f` with the list `l` from address `a` on.
Lists written side by side are one list, and of two that meet the later
one counts.
-/

namespace Common

variable {β : Type*} {f : ℕ → β} {a i x : ℕ} {l l' : List β}

/-- The memory `f` with `l` written from `a` on. -/
def overlay (f : ℕ → β) (a : ℕ) (l : List β) (x : ℕ) : β :=
  if a ≤ x then l[x - a]?.getD (f x) else f x

@[simp] theorem overlay_nil : overlay f a [] = f := by
  funext x
  simp [overlay]

theorem overlay_of_lt (h : x < a) : overlay f a l x = f x := if_neg (by omega)

theorem overlay_of_ge (h : a + l.length ≤ x) : overlay f a l x = f x := by
  rw [overlay, if_pos (by omega), List.getElem?_eq_none (by omega), Option.getD_none]

theorem overlay_at (h : i < l.length) : overlay f a l (a + i) = l[i] := by
  rw [overlay, if_pos (by omega), Nat.add_sub_cancel_left, List.getElem?_eq_getElem h,
    Option.getD_some]

/-- **Side by side.** -/
theorem overlay_overlay : overlay (overlay f a l) (a + l.length) l' = overlay f a (l ++ l') := by
  funext x
  by_cases h1 : x < a
  · rw [overlay_of_lt (by omega), overlay_of_lt h1, overlay_of_lt h1]
  by_cases h2 : x < a + l.length
  · rw [overlay_of_lt h2, overlay, overlay, if_pos (by omega), if_pos (by omega),
      List.getElem?_append_left (by omega)]
  · rw [overlay, if_pos (by omega), overlay_of_ge (by omega), overlay, if_pos (by omega),
      List.getElem?_append_right (by omega), Nat.sub_sub]

end Common
