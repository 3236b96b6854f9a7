import Mathlib.Algebra.Group.Nat.Defs
import Mathlib.Logic.Function.Basic
/-!
# A radix tree in memory

A node is an array of `N` words at an address, and a word may lead to
another node: `child w` is its address, zero for none. `E a j` is word `j`
of the node at `a`. The node at depth `d` with index `i` holds the words
of depth `d` with indices `i * N` to `i * N + N - 1`. A tree whose nodes
are apart can be written one word at a time: the word written changes, and
no other (`word_set`); hanging an empty node in adds that node and no
other (`Link`).
-/

namespace Common

namespace Radix

variable {N : ℕ} {child : ℕ → ℕ} {E E' : ℕ → ℕ → ℕ} {r : ℕ}

/-- The address of a node, zero where there is none. -/
def node (N : ℕ) (child : ℕ → ℕ) (E : ℕ → ℕ → ℕ) (r : ℕ) : ℕ → ℕ → ℕ
  | 0, i => if i = 0 then r else 0
  | d + 1, i =>
    if node N child E r d (i / N) = 0 then 0 else child (E (node N child E r d (i / N)) (i % N))

/-- The word with index `i` at depth `d`, zero where there is no node. -/
def word (N : ℕ) (child : ℕ → ℕ) (E : ℕ → ℕ → ℕ) (r d i : ℕ) : ℕ :=
  if node N child E r d (i / N) = 0 then 0 else E (node N child E r d (i / N)) (i % N)

theorem node_succ (h0 : child 0 = 0) (d i : ℕ) :
    node N child E r (d + 1) i = child (word N child E r d i) := by
  rw [node, word]
  split
  · exact h0.symm
  · rfl

theorem word_of_ne {d i : ℕ} (h : node N child E r d (i / N) ≠ 0) :
    word N child E r d i = E (node N child E r d (i / N)) (i % N) := if_neg h

theorem word_of_eq {d i : ℕ} (h : node N child E r d (i / N) = 0) : word N child E r d i = 0 :=
  if_pos h

/-- A node hangs from a node. -/
theorem node_ne_of_succ {d i : ℕ} (h : node N child E r (d + 1) i ≠ 0) :
    node N child E r d (i / N) ≠ 0 := by
  intro h0
  rw [node, if_pos h0] at h
  exact h rfl

/-- A node hangs, by however many links, from the node above it. -/
theorem node_ne_above {d e i : ℕ} (h : node N child E r (d + e) i ≠ 0) :
    node N child E r d (i / N ^ e) ≠ 0 := by
  induction e generalizing i with
  | zero => simpa using h
  | succ e ih =>
    have := ih (node_ne_of_succ h)
    rwa [Nat.div_div_eq_div_mul, ← Nat.pow_succ'] at this

/-- **The tree is in its nodes**: who leaves them alone leaves it alone. -/
theorem node_congr {D : ℕ} (hE : ∀ d i, d < D → node N child E r d i ≠ 0 → ∀ j,
    E' (node N child E r d i) j = E (node N child E r d i) j) {d : ℕ} (hd : d ≤ D) (i : ℕ) :
    node N child E' r d i = node N child E r d i := by
  induction d generalizing i with
  | zero => rfl
  | succ d ih =>
    rw [node, node, ih (by omega)]
    by_cases h : node N child E r d (i / N) = 0
    · rw [if_pos h, if_pos h]
    · rw [if_neg h, if_neg h, hE d _ (by omega) h]

theorem word_congr {D : ℕ} (hE : ∀ d i, d ≤ D → node N child E r d i ≠ 0 → ∀ j,
    E' (node N child E r d i) j = E (node N child E r d i) j) {d : ℕ} (hd : d ≤ D) (i : ℕ) :
    word N child E' r d i = word N child E r d i := by
  have hn : node N child E' r d (i / N) = node N child E r d (i / N) :=
    node_congr (fun d' i' hd' => hE d' i' (Nat.le_of_lt hd')) hd _
  rw [word, word, hn]
  by_cases h : node N child E r d (i / N) = 0
  · rw [if_pos h, if_pos h]
  · rw [if_neg h, if_neg h, hE d _ hd h]

/-- No two nodes down to depth `D` are at one address. -/
def Apart (N : ℕ) (child : ℕ → ℕ) (E : ℕ → ℕ → ℕ) (r D : ℕ) : Prop :=
  ∀ d d' i i', d ≤ D → d' ≤ D → node N child E r d i ≠ 0 →
    node N child E r d i = node N child E r d' i' → d = d' ∧ i = i'

section Write

variable {D d d' i i' n w : ℕ}

section

variable (ha : Apart N child E r D) (hd : d ≤ D)
include ha hd

/-- Different words are in different nodes or at different indices. -/
theorem Apart.ne_or_ne (hd' : d' ≤ D)
    (hz : node N child E r d' (i' / N) ≠ 0) (hne : ¬ (d' = d ∧ i' = i)) :
    node N child E r d' (i' / N) ≠ node N child E r d (i / N) ∨ i' % N ≠ i % N := by
  by_cases hq : node N child E r d' (i' / N) = node N child E r d (i / N)
  · right
    intro hmod
    obtain ⟨he, hdiv⟩ := ha d' d _ _ hd' hd hz hq
    have h1 := Nat.div_add_mod i N
    have h2 := Nat.div_add_mod i' N
    rw [hdiv, hmod] at h2
    exact hne ⟨he, by omega⟩
  · exact .inl hq

/-- Writing a word of depth `d` leaves the nodes down to it alone. -/
theorem node_set (hE : ∀ a j, a ≠ node N child E r d (i / N) ∨ j ≠ i % N → E' a j = E a j)
    (hd' : d' ≤ d) (i' : ℕ) : node N child E' r d' i' = node N child E r d' i' := by
  refine node_congr (D := d) (fun e x he hne j => hE _ _ (.inl fun heq => ?_)) hd' i'
  have := (ha e d x (i / N) (by omega) hd hne heq).1
  omega

/-- The words of the depths above stay as they are. -/
theorem word_set_above (hE : ∀ a j, a ≠ node N child E r d (i / N) ∨ j ≠ i % N → E' a j = E a j)
    (hd' : d' < d) (i' : ℕ) : word N child E' r d' i' = word N child E r d' i' := by
  refine word_congr (D := d') (fun e x he hne j => hE _ _ (.inl fun heq => ?_)) (Nat.le_refl _) i'
  have := (ha e d x (i / N) (by omega) hd hne heq).1
  omega

/-- **A word is written, and no other of its depth.** -/
theorem word_set (hp : node N child E r d (i / N) ≠ 0)
    (hw : E' (node N child E r d (i / N)) (i % N) = w)
    (hE : ∀ a j, a ≠ node N child E r d (i / N) ∨ j ≠ i % N → E' a j = E a j) (i' : ℕ) :
    word N child E' r d i' = if i' = i then w else word N child E r d i' := by
  rw [word, node_set ha hd hE (Nat.le_refl _)]
  by_cases hi : i' = i
  · rw [if_pos hi, hi, if_neg hp, hw]
  · rw [if_neg hi, word]
    by_cases hz : node N child E r d (i' / N) = 0
    · rw [if_pos hz, if_pos hz]
    · rw [if_neg hz, if_neg hz]
      exact hE _ _ (ha.ne_or_ne hd hd hz fun h => hi h.2)

end

/-- **An empty node is hung in**: the word `i` of depth `d`, which led
nowhere, is `w` now and leads to `n`. -/
structure Link (N : ℕ) (child : ℕ → ℕ) (E E' : ℕ → ℕ → ℕ) (r D d i w n : ℕ) : Prop where
  zero : child 0 = 0
  apart : Apart N child E r D
  le : d ≤ D
  parent : node N child E r d (i / N) ≠ 0
  none : child (word N child E r d i) = 0
  written : E' (node N child E r d (i / N)) (i % N) = w
  leads : child w = n
  ne : n ≠ 0
  empty : ∀ j, E' n j = 0
  fresh : ∀ d i, d ≤ D → node N child E r d i ≠ n
  frame : ∀ a j, a ≠ n → a ≠ node N child E r d (i / N) ∨ j ≠ i % N → E' a j = E a j

namespace Link

variable (h : Link N child E E' r D d i w n)

include h

/-- Where the tree has this node more, of the words only the one that leads
to it changes. -/
theorem word_of_node (hd' : d' ≤ D) (hnode : ∀ i', node N child E' r d' i' =
      if d' = d + 1 ∧ i' = i then n else node N child E r d' i') (i' : ℕ) :
    word N child E' r d' i' = if d' = d ∧ i' = i then w else word N child E r d' i' := by
  rw [word, hnode]
  by_cases hup : d' = d + 1 ∧ i' / N = i
  · -- below the new node there is nothing, and there was nothing
    have hbelow : node N child E r d' (i' / N) = 0 := by
      rw [hup.1, hup.2, node_succ h.zero, h.none]
    rw [if_pos hup, if_neg h.ne, h.empty, if_neg (by omega), word_of_eq hbelow]
  · rw [if_neg hup]
    by_cases hz : node N child E r d' (i' / N) = 0
    · rw [if_pos hz, if_neg, word_of_eq hz]
      rintro ⟨rfl, rfl⟩
      exact h.parent hz
    · rw [if_neg hz]
      by_cases hat : d' = d ∧ i' = i
      · rw [if_pos hat, hat.1, hat.2, h.written]
      · rw [if_neg hat, word_of_ne hz,
          h.frame _ _ (h.fresh d' _ hd') (h.apart.ne_or_ne h.le hd' hz hat)]

/-- The tree has this node more. -/
theorem node_eq (hd' : d' ≤ D) (i' : ℕ) : node N child E' r d' i' =
    if d' = d + 1 ∧ i' = i then n else node N child E r d' i' := by
  induction d' generalizing i' with
  | zero =>
    rw [if_neg (by omega)]
    rfl
  | succ e ih =>
    rw [node_succ h.zero, h.word_of_node (by omega) (ih (by omega)), node_succ h.zero]
    simp only [Nat.add_right_cancel_iff]
    split
    · exact h.leads
    · rfl

theorem word_eq (hd' : d' ≤ D) (i' : ℕ) : word N child E' r d' i' =
    if d' = d ∧ i' = i then w else word N child E r d' i' :=
  h.word_of_node hd' (h.node_eq hd') i'

end Link

end Write

end Radix

end Common
