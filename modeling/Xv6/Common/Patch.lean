import Mathlib.Data.Nat.Notation
/-!
# Patching a list

`patch l off new` is `l` with `new` in place of what it has from `off` on,
longer if `new` reaches past its end. Patches side by side are one patch.
-/

namespace Common

open List

variable {α : Type} {l new : List α} {off : ℕ}

/-- The list with `new` at `off`. -/
def patch (l : List α) (off : ℕ) (new : List α) : List α :=
  l.take off ++ new ++ l.drop (off + new.length)

/-- **What a patched list holds where.** -/
theorem getElem?_patch (h : off ≤ l.length) (i : ℕ) :
    (patch l off new)[i]? = if off ≤ i ∧ i < off + new.length then new[i - off]? else l[i]? := by
  have htake : (l.take off).length = off := by
    rw [length_take]
    omega
  have hboth : (l.take off ++ new).length = off + new.length := by
    rw [length_append, htake]
  unfold patch
  by_cases h1 : i < off
  · rw [if_neg (by omega), getElem?_append_left (by omega),
      getElem?_append_left (by omega), getElem?_take_of_lt h1]
  by_cases h2 : i < off + new.length
  · rw [if_pos (by omega), getElem?_append_left (by omega),
      getElem?_append_right (by omega), htake]
  · rw [if_neg (by omega), getElem?_append_right (by omega), hboth, getElem?_drop]
    congr 1
    omega

/-- A patch is known by what it holds where. -/
theorem eq_patch {l' : List α} (h : off ≤ l.length)
    (hget : ∀ i, l'[i]? = if off ≤ i ∧ i < off + new.length then new[i - off]? else l[i]?) :
    l' = patch l off new := by
  refine ext_getElem? fun i => ?_
  rw [hget, getElem?_patch h]

/-- A patch of a tabulated list. -/
theorem map_range_patch {f g : ℕ → α} {m n : ℕ} (h : off ≤ m) :
    (List.range (max m (off + n))).map (fun p => if off ≤ p ∧ p < off + n then g (p - off) else f p) =
      patch ((List.range m).map f) off ((List.range n).map g) := by
  refine eq_patch (by simpa using h) fun i => ?_
  simp only [getElem?_map, length_map, length_range]
  by_cases h1 : off ≤ i ∧ i < off + n
  · rw [if_pos h1, getElem?_range (by omega), getElem?_range (by omega)]
    simp [h1]
  rw [if_neg h1]
  by_cases h2 : i < m
  · rw [getElem?_range (by omega), getElem?_range h2]
    simp [h1]
  · rw [getElem?_eq_none (by simp; omega), getElem?_eq_none (by simp; omega)]
    rfl

end Common
