import Xv6.Log.Model
import Mathlib.Data.Finset.Card
/-!
# Who is in an operation, and who commits

`begin_op` and `end_op` share three facts through `log.outstanding` and
`log.committing`, whatever else the processes do: how many operations are
in progress, that a commit waits for them, and that there is one commit at
a time. They are stated here for any account of which processes are inside
an operation and which inside `commit`.
-/

namespace Xv6

open Function

/-- One value of a function changes, to one with the same property. -/
theorem update_iff {α β : Type} [DecidableEq α] {P : β → Prop} {f : α → β} {a : α} {x : β}
    (h : P x ↔ P (f a)) (b : α) : P (update f a x b) ↔ P (f b) := by
  by_cases hb : b = a
  · rw [hb, update_self, h]
  · rw [update_of_ne hb]

namespace Log

variable {P α : Type} {log log' : Log} {B C : α → Prop} {f f' : P → α} {p q : P} {x : α}

/-- **Control**, for processes that `f` tells where they are, `B` inside an
operation and `C` inside `commit`. `outstanding` counts the processes
inside an operation; a committer has set `committing`, is alone, and finds
no operation in progress. -/
structure Control (log : Log) (B C : α → Prop) (f : P → α) : Prop where
  count : ∃ A : Finset P, (∀ p, p ∈ A ↔ B (f p)) ∧ log.outstanding = A.card
  quiet : log.committing = true → log.outstanding = 0
  flag : ∀ p, C (f p) → log.committing = true
  unique : ∀ p q, C (f p) → C (f q) → p = q

namespace Control

theorem start (hout : log.outstanding = 0) (hcom : log.committing = false) (hb : ∀ p, ¬ B (f p))
    (hc : ∀ p, ¬ C (f p)) : log.Control B C f where
  count := ⟨∅, by simp [hb], by simp [hout]⟩
  quiet := by simp [hcom]
  flag p hp := absurd hp (hc p)
  unique p _ hp := absurd hp (hc p)

/-- A process inside an operation rules out a commit. -/
theorem not_committing (h : log.Control B C f) (hp : B (f p)) : log.committing = false := by
  by_contra hc
  obtain ⟨A, hA, hcard⟩ := h.count
  have hpos : 0 < A.card := Finset.card_pos.2 ⟨p, (hA p).2 hp⟩
  have := h.quiet (by simpa using hc)
  omega

/-- So no process is inside an operation while another commits. -/
theorem not_busy (h : log.Control B C f) (hp : C (f p)) : ¬ B (f q) := by
  intro hq
  have := h.flag p hp
  rw [h.not_committing hq] at this
  cases this

/-- With no operation but one in progress, nobody else is in one. -/
theorem eq_of_busy (h : log.Control B C f) (h1 : log.outstanding = 1) (hp : B (f p))
    (hq : B (f q)) : q = p := by
  obtain ⟨A, hA, hcard⟩ := h.count
  have hone : A.card ≤ 1 := by omega
  exact Finset.card_le_one.1 hone q ((hA q).2 hq) p ((hA p).2 hp)

variable [DecidableEq P]

/-- A process moving within an operation, or within `commit`, or outside
both. -/
theorem move (h : log.Control B C f) (hout : log'.outstanding = log.outstanding)
    (hcom : log'.committing = log.committing) (hb : B x ↔ B (f p)) (hc : C x ↔ C (f p)) :
    log'.Control B C (update f p x) where
  count := by
    obtain ⟨A, hA, hcard⟩ := h.count
    exact ⟨A, fun q => by rw [hA, update_iff hb], by rw [hout, hcard]⟩
  quiet := by rw [hout, hcom]; exact h.quiet
  flag q hq := by rw [hcom]; exact h.flag q ((update_iff hc q).1 hq)
  unique a b ha hb := h.unique a b ((update_iff hc a).1 ha) ((update_iff hc b).1 hb)

/-- `begin_op` admits a process while nobody commits. -/
theorem beginOp (h : log.Control B C f) (hp : ¬ B (f p)) (hlog : log.beginOp = some log')
    (hb : B x) (hc : ¬ C x) : log'.Control B C (update f p x) := by
  obtain ⟨hnot, -, rfl⟩ := beginOp_eq_some.1 hlog
  have hnone : ∀ q, ¬ C (update f p x q) := by
    intro q hq
    by_cases hqp : q = p
    · rw [hqp, update_self] at hq
      exact hc hq
    · rw [update_of_ne hqp] at hq
      rw [h.flag q hq] at hnot
      cases hnot
  obtain ⟨A, hA, hcard⟩ := h.count
  have hpA : p ∉ A := by rwa [hA]
  refine ⟨⟨insert p A, fun q => ?_, ?_⟩, by simp [hnot], fun q hq => absurd hq (hnone q),
    fun a _ ha => absurd ha (hnone a)⟩
  · rw [Finset.mem_insert, hA]
    by_cases hqp : q = p
    · subst hqp; simp [hb]
    · simp [hqp]
  · rw [Finset.card_insert_of_notMem hpA, hcard]
    push_cast
    rfl

/-- The last operation to end becomes the committer. -/
theorem endOp (h : log.Control B C f) (hp : B (f p))
    (hout : log'.outstanding = log.outstanding - 1)
    (hflag : log'.committing = decide (log.outstanding = 1)) (hb : ¬ B x)
    (hc : C x → log.outstanding = 1) : log'.Control B C (update f p x) := by
  have hnot := h.not_committing hp
  have hcm : ∀ q, C (update f p x q) → q = p ∧ log.outstanding = 1 := by
    intro q hq
    by_cases hqp : q = p
    · rw [hqp, update_self] at hq
      exact ⟨hqp, hc hq⟩
    · rw [update_of_ne hqp] at hq
      rw [h.flag q hq] at hnot
      cases hnot
  obtain ⟨A, hA, hcard⟩ := h.count
  have hpA : p ∈ A := (hA p).2 hp
  refine ⟨⟨A.erase p, fun q => ?_, ?_⟩, ?_, ?_, ?_⟩
  · rw [Finset.mem_erase, hA]
    by_cases hqp : q = p
    · subst hqp; simp [hb]
    · simp [hqp]
  · rw [hout, Finset.card_erase_of_mem hpA, hcard]
    have : 0 < A.card := Finset.card_pos.2 ⟨p, hpA⟩
    omega
  · rw [hflag, hout]
    intro h1
    have := of_decide_eq_true h1
    omega
  · intro q hq
    rw [hflag]
    exact decide_eq_true (hcm q hq).2
  · intro a b ha hb
    rw [(hcm a ha).1, (hcm b hb).1]

/-- The committer clears the flag and is outside again. -/
theorem finish (h : log.Control B C f) (hp : C (f p)) (hout : log'.outstanding = log.outstanding)
    (hflag : log'.committing = false) (hb : B x ↔ B (f p)) (hc : ¬ C x) :
    log'.Control B C (update f p x) := by
  have hnone : ∀ q, ¬ C (update f p x q) := by
    intro q hq
    by_cases hqp : q = p
    · rw [hqp, update_self] at hq
      exact hc hq
    · rw [update_of_ne hqp] at hq
      exact hqp (h.unique q p hq hp)
  obtain ⟨A, hA, hcard⟩ := h.count
  exact ⟨⟨A, fun q => by rw [hA, update_iff hb], by rw [hout, hcard]⟩, by simp [hflag],
    fun q hq => absurd hq (hnone q), fun a _ ha => absurd ha (hnone a)⟩

end Control

end Log

end Xv6
