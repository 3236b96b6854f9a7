import Mathlib.Data.Nat.Notation
import Mathlib.Logic.Function.Basic
/-!
# Sequences of writes

A store indexed by `ι` and the effect of a list of writes on it, first to
last. Interrupting the sequence after `k` writes leaves the effect of its
first `k`, so what holds of a sequence cut anywhere is read off `take`.
-/

namespace Common

open Function

variable {ι α : Type} [DecidableEq ι]

/-- The store after the writes, first to last. -/
def applyWrites (ws : List (ι × α)) (d : ι → α) : ι → α :=
  ws.foldl (fun d w => Function.update d w.1 w.2) d

@[simp] theorem applyWrites_nil (d : ι → α) : applyWrites [] d = d := rfl

@[simp] theorem applyWrites_cons (w : ι × α) (ws : List (ι × α)) (d : ι → α) :
    applyWrites (w :: ws) d = applyWrites ws (update d w.1 w.2) := rfl

@[simp] theorem applyWrites_append (ws ws' : List (ι × α)) (d : ι → α) :
    applyWrites (ws ++ ws') d = applyWrites ws' (applyWrites ws d) :=
  List.foldl_append

/-- A place no write names keeps its value. -/
theorem applyWrites_of_forall_ne {ws : List (ι × α)} {d : ι → α} {x : ι}
    (h : ∀ w ∈ ws, w.1 ≠ x) : applyWrites ws d x = d x := by
  induction ws generalizing d with
  | nil => rfl
  | cons w ws ih =>
    rw [applyWrites_cons, ih fun w' hw' => h w' (List.mem_cons_of_mem _ hw'),
      update_of_ne (h w List.mem_cons_self).symm]

/-- **A place all writes to which agree holds what they wrote.** -/
theorem applyWrites_of_mem {ws : List (ι × α)} {d : ι → α} {x : ι} {a : α}
    (hmem : ∃ w ∈ ws, w.1 = x) (hall : ∀ w ∈ ws, w.1 = x → w.2 = a) :
    applyWrites ws d x = a := by
  induction ws generalizing d with
  | nil => simp at hmem
  | cons w ws ih =>
    rw [applyWrites_cons]
    by_cases hlater : ∃ w' ∈ ws, w'.1 = x
    · exact ih hlater fun w' hw' => hall w' (List.mem_cons_of_mem _ hw')
    -- the head is the only write there is to `x`
    have hne : ∀ w' ∈ ws, w'.1 ≠ x := fun w' hw' h => hlater ⟨w', hw', h⟩
    obtain ⟨w', hw', hx⟩ := hmem
    rcases List.mem_cons.1 hw' with rfl | hw'
    · rw [applyWrites_of_forall_ne hne, ← hx, update_self]
      exact hall w' List.mem_cons_self hx
    · exact absurd hx (hne w' hw')

end Common
