import Mathlib.Data.Nat.Find
import Mathlib.Logic.Function.Iterate
/-!
# Lists linked in a circle

A field `next` links the nodes of a list, the last one back to the first.
Where the list is cut open does not matter (`Circle.rotate`), and who
follows `next` from any node comes to every node (`Circle.iterate`). A
search along `next` ends at the first node it may stop at, if there is one
(`Circle.exists_first`).
-/

namespace Common

open List

/-- From `a` through the nodes of the list to `e`, each naming the next. -/
def Path (next : ℕ → ℕ) : ℕ → List ℕ → ℕ → Prop
  | a, [], e => a = e
  | a, b :: l, e => a = b ∧ Path next (next b) l e

namespace Path

variable {next next' : ℕ → ℕ} {a b e : ℕ} {l l₁ l₂ : List ℕ}

theorem append : Path next a (l₁ ++ l₂) e ↔ ∃ m, Path next a l₁ m ∧ Path next m l₂ e := by
  induction l₁ generalizing a with
  | nil => simp [Path]
  | cons b l₁ ih =>
    rw [cons_append, Path, ih]
    constructor
    · rintro ⟨h, m, h1, h2⟩
      exact ⟨m, ⟨h, h1⟩, h2⟩
    · rintro ⟨m, ⟨h, h1⟩, h2⟩
      exact ⟨h, m, h1, h2⟩

/-- A path through `b` comes to `b` and goes on from there. -/
theorem append_cons :
    Path next a (l₁ ++ b :: l₂) e ↔ Path next a l₁ b ∧ Path next (next b) l₂ e := by
  rw [append]
  constructor
  · rintro ⟨m, h1, rfl, h2⟩
    exact ⟨h1, h2⟩
  · rintro ⟨h1, h2⟩
    exact ⟨b, h1, rfl, h2⟩

/-- Only the nodes on the path matter. -/
theorem congr (h : Path next a l e) (hn : ∀ b, b ∈ l → next' b = next b) : Path next' a l e := by
  induction l generalizing a with
  | nil => exact h
  | cons b l ih =>
    refine ⟨h.1, ?_⟩
    rw [hn b mem_cons_self]
    exact ih h.2 fun c hc => hn c (mem_cons_of_mem _ hc)

theorem iterate (h : Path next a (l₁ ++ b :: l₂) e) : next^[l₁.length] a = b := by
  induction l₁ generalizing a with
  | nil => exact h.1
  | cons c l₁ ih =>
    rw [length_cons, Function.iterate_succ_apply, h.1]
    exact ih h.2

end Path

/-- The nodes of the list in a circle. -/
def Circle (next : ℕ → ℕ) (l : List ℕ) : Prop := ∃ a, Path next a l a

namespace Circle

variable {next : ℕ → ℕ} {p q : ℕ} {l l₁ l₂ : List ℕ}

/-- **A circle may be cut open anywhere.** -/
theorem rotate (h : Circle next (l₁ ++ l₂)) : Circle next (l₂ ++ l₁) := by
  obtain ⟨a, h⟩ := h
  obtain ⟨m, h1, h2⟩ := Path.append.1 h
  exact ⟨m, Path.append.2 ⟨a, h2, h1⟩⟩

theorem next_mem (h : Circle next l) (hp : p ∈ l) : next p ∈ l := by
  obtain ⟨l₁, l₂, rfl⟩ := append_of_mem hp
  obtain ⟨a, ha⟩ := h.rotate
  rw [cons_append] at ha
  obtain ⟨rfl, ha⟩ := ha
  cases hl : l₂ ++ l₁ with
  | nil =>
    rw [hl] at ha
    rw [show next a = a from ha]
    exact hp
  | cons c l =>
    rw [hl] at ha
    have hc : c ∈ l₂ ++ l₁ := by
      rw [hl]
      exact mem_cons_self
    rw [ha.1]
    rcases mem_append.1 hc with hc | hc
    · exact mem_append_right _ (mem_cons_of_mem _ hc)
    · exact mem_append_left _ hc

/-- **Who follows the circle comes to every node.** -/
theorem iterate (h : Circle next l) (hp : p ∈ l) (hq : q ∈ l) :
    ∃ n, n < l.length ∧ next^[n] p = q := by
  obtain ⟨l₁, l₂, rfl⟩ := append_of_mem hp
  obtain ⟨a, ha⟩ := h.rotate
  have hq' : q ∈ p :: l₂ ++ l₁ := (perm_append_comm.mem_iff).1 hq
  obtain ⟨k₁, k₂, hk⟩ := append_of_mem hq'
  have hlen := congrArg List.length hk
  obtain rfl : a = p := ha.1
  rw [hk] at ha
  refine ⟨k₁.length, ?_, ha.iterate⟩
  simp only [length_append, length_cons] at hlen ⊢
  omega

theorem iterate_mem (h : Circle next l) (hp : p ∈ l) (n : ℕ) : next^[n] p ∈ l := by
  induction n with
  | zero => exact hp
  | succ n ih =>
    rw [Function.iterate_succ_apply']
    exact h.next_mem ih

/-- **A search along the circle ends** where it may, at the first such node. -/
theorem exists_first (h : Circle next l) (stop : ℕ → Prop) (hp : p ∈ l) (hq : q ∈ l)
    (hs : stop q) :
    ∃ n, n < l.length ∧ stop (next^[n] p) ∧ ∀ m, m < n → ¬ stop (next^[m] p) := by
  classical
  obtain ⟨k, hk, rfl⟩ := h.iterate hp hq
  have hex : ∃ n, stop (next^[n] p) := ⟨k, hs⟩
  exact ⟨Nat.find hex, Nat.lt_of_le_of_lt (Nat.find_min' hex hs) hk, Nat.find_spec hex,
    fun m hm => Nat.find_min hex hm⟩

end Circle

end Common
