import Mathlib.Data.List.Nodup
import Mathlib.Logic.Relation
/-!
# Locks and who holds them

Every agent holds a list of locks, the last taken first, and every lock
records its holder. `Owns` says that the two agree; taking a free lock and
leaving some of one's own keep it. Agents that wait for each other in a
circle are ruled out by an order on the locks: who waits for a lock holds
only smaller ones (`not_waits_self`).
-/

namespace Common

open List

variable {α ι : Type} {lock : ι → Option α} {held held' : α → List ι} {a b : α} {i j : ι}
  {l before is after : List ι}

/-- Who leaves the locks `is` holds what is left of `before`. -/
structure Leaves (before is after : List ι) : Prop where
  subset : is ⊆ before
  sublist : after.Sublist before
  mem_iff : ∀ i, i ∈ after ↔ i ∈ before ∧ i ∉ is

namespace Leaves

theorem refl : Leaves l [] l where
  subset := by simp
  sublist := .refl l
  mem_iff := by simp

/-- Leaving the lock taken last. -/
theorem head (h : (i :: l).Nodup) : Leaves (i :: l) [i] l where
  subset := by simp
  sublist := sublist_cons_self i l
  mem_iff j := by
    have hi : i ∉ l := (nodup_cons.1 h).1
    constructor
    · intro hj
      refine ⟨mem_cons_of_mem i hj, fun hji => hi ?_⟩
      rwa [← mem_singleton.1 hji]
    · rintro ⟨hj, hne⟩
      exact (mem_cons.1 hj).resolve_left (by simpa using hne)

/-- Leaving the first of two. -/
theorem last (h : [i, j].Nodup) : Leaves [i, j] [j] [i] where
  subset := by simp
  sublist := by simp
  mem_iff k := by
    have hij : i ≠ j := by simpa using h
    simp only [mem_cons, not_mem_nil, or_false]
    constructor
    · rintro rfl
      exact ⟨.inl rfl, hij⟩
    · rintro ⟨hk, hne⟩
      exact hk.resolve_right hne

theorem one : Leaves [i] [i] [] := .head (nodup_singleton i)

end Leaves

/-- **A lock records its holder**, and nobody holds one twice. -/
structure Owns (lock : ι → Option α) (held : α → List ι) : Prop where
  iff : ∀ a i, lock i = some a ↔ i ∈ held a
  nodup : ∀ a, (held a).Nodup

/-- Nobody else holds what one holds. -/
theorem Owns.eq_of_mem (h : Owns lock held) (ha : i ∈ held a) (hb : i ∈ held b) : a = b := by
  have hl := (h.iff a i).2 ha
  rw [(h.iff b i).2 hb] at hl
  exact (Option.some.inj hl).symm

/-- Nothing is taken or left. -/
theorem Owns.keep (h : Owns lock held) (hself : held' a = held a)
    (hother : ∀ b, b ≠ a → held' b = held b) : Owns lock held' := by
  have heq : held' = held := by
    funext b
    by_cases hb : b = a
    · rw [hb, hself]
    · exact hother b hb
  rw [heq]
  exact h

variable [DecidableEq ι]

/-- Some locks are left. -/
def unlocked (lock : ι → Option α) (is : List ι) : ι → Option α :=
  fun i => if i ∈ is then none else lock i

namespace Owns

/-- **Taking** a free lock. -/
theorem take (h : Owns lock held) (hfree : lock i = none) (hself : held' a = i :: held a)
    (hother : ∀ b, b ≠ a → held' b = held b) : Owns (Function.update lock i (some a)) held' where
  iff b j := by
    have hnot : ∀ b, i ∉ held b := fun b hb => by
      rw [(h.iff b i).2 hb] at hfree
      cases hfree
    by_cases hb : b = a
    · subst hb
      rw [hself, mem_cons]
      by_cases hj : j = i
      · simp [hj]
      · simp [hj, h.iff]
    · rw [hother b hb, ← h.iff]
      by_cases hj : j = i
      · subst hj
        simp [hfree, Ne.symm hb]
      · simp [hj]
  nodup b := by
    by_cases hb : b = a
    · subst hb
      rw [hself, nodup_cons]
      refine ⟨fun hi => ?_, h.nodup b⟩
      rw [(h.iff b i).2 hi] at hfree
      cases hfree
    · rw [hother b hb]
      exact h.nodup b

/-- **Leaving** some of one's own. -/
theorem leave (h : Owns lock held) (hself : Leaves (held a) is (held' a))
    (hother : ∀ b, b ≠ a → held' b = held b) : Owns (unlocked lock is) held' where
  iff b j := by
    by_cases hb : b = a
    · subst hb
      rw [hself.mem_iff, ← h.iff, unlocked]
      by_cases hj : j ∈ is <;> simp [hj]
    · rw [hother b hb, ← h.iff, unlocked]
      by_cases hj : j ∈ is
      · have hlock : lock j = some a := (h.iff a j).2 (hself.subset hj)
        simp [hj, hlock, Ne.symm hb]
      · simp [hj]
  nodup b := by
    by_cases hb : b = a
    · subst hb
      exact (h.nodup b).sublist hself.sublist
    · rw [hother b hb]
      exact h.nodup b

end Owns

/-! ## Waiting in a circle -/

/-- The agent `a` wants a lock that `b` holds. -/
def Waits (lock : ι → Option α) (wants : α → Option ι) (a b : α) : Prop :=
  ∃ i, wants a = some i ∧ lock i = some b

omit [DecidableEq ι] in
/-- **No circle.** Where who wants a lock holds only locks of smaller rank,
the ranks of the locks wanted grow along a chain of waiting agents. -/
theorem not_waits_self {wants : α → Option ι} {rank : ι → ℕ}
    (h : ∀ a i j, wants a = some j → lock i = some a → rank i < rank j) (a : α) :
    ¬ Relation.TransGen (Waits lock wants) a a := by
  have hchain : ∀ b, Relation.TransGen (Waits lock wants) a b →
      (∃ i, wants a = some i) ∧
        ∀ i j, wants a = some i → wants b = some j → rank i < rank j := by
    intro b hb
    induction hb with
    | single hab =>
      obtain ⟨i, hi, hl⟩ := hab
      refine ⟨⟨i, hi⟩, fun i' j hi' hj => ?_⟩
      cases hi.symm.trans hi'
      exact h _ i j hj hl
    | tail _ hbc ih =>
      obtain ⟨k, hk, hl⟩ := hbc
      exact ⟨ih.1, fun i j hi hj => Nat.lt_trans (ih.2 i k hi hk) (h _ k j hj hl)⟩
  intro hcycle
  obtain ⟨⟨i, hi⟩, hlt⟩ := hchain a hcycle
  exact Nat.lt_irrefl _ (hlt i i hi hi)

end Common
