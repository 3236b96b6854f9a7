import Mathlib.Data.Nat.Notation
/-!
# Labelled transition systems and their invariants

A system has initial states and steps labelled by who does what. What
holds initially and is kept by every step holds in every reachable state
(`Reachable.invariant`). A run whose every step meets a condition is a
run of the system restricted to it (`System.restrict`). Where a guard and
a function give the steps, a run can be computed (`System.follow`).
-/

namespace Common

/-- Initial states and labelled steps. -/
structure System (σ α : Type) where
  init : σ → Prop
  step : σ → α → σ → Prop

namespace System

variable {σ α : Type} {S : System σ α}

/-- The states some run reaches. -/
inductive Reachable (S : System σ α) : σ → Prop
  | init {s : σ} : S.init s → Reachable S s
  | step {s s' : σ} {a : α} : Reachable S s → S.step s a s' → Reachable S s'

/-- **The invariant rule.** -/
theorem Reachable.invariant {I : σ → Prop} (hinit : ∀ s, S.init s → I s)
    (hstep : ∀ s a s', S.Reachable s → I s → S.step s a s' → I s') {s : σ}
    (h : S.Reachable s) : I s := by
  induction h with
  | init h0 => exact hinit _ h0
  | step hr hs ih => exact hstep _ _ _ hr ih hs

/-- The system that only takes steps the condition allows. -/
def restrict (S : System σ α) (C : σ → α → Prop) : System σ α where
  init := S.init
  step s a s' := C s a ∧ S.step s a s'

/-- A run of the restricted system is a run of the system. -/
theorem Reachable.of_restrict {C : σ → α → Prop} {s : σ} (h : (S.restrict C).Reachable s) :
    S.Reachable s := by
  induction h with
  | init h0 => exact .init h0
  | step _ hs ih => exact .step ih hs.2

/-- The system whose steps a guard allows and a function computes. -/
def guarded (init : σ → Prop) (guard : σ → α → Prop) (next : σ → α → σ) : System σ α where
  init := init
  step s a s' := guard s a ∧ s' = next s a

/-- Restricting a guarded system strengthens its guard. -/
theorem guarded_restrict (init : σ → Prop) (guard C : σ → α → Prop) (next : σ → α → σ) :
    (guarded init guard next).restrict C = guarded init (fun s a => C s a ∧ guard s a) next := by
  simp only [guarded, restrict, and_assoc]

/-- The state a list of steps leads to, if the guard allows each. -/
def follow (guard : σ → α → Prop) (next : σ → α → σ) [∀ s a, Decidable (guard s a)] (s : σ) :
    List α → Option σ
  | [] => some s
  | a :: as => if guard s a then follow guard next (next s a) as else none

/-- A run that can be computed is a run. -/
theorem Reachable.of_follow {init : σ → Prop} {guard : σ → α → Prop} {next : σ → α → σ}
    [∀ s a, Decidable (guard s a)] {s s' : σ} {as : List α}
    (h : (guarded init guard next).Reachable s) (hf : follow guard next s as = some s') :
    (guarded init guard next).Reachable s' := by
  induction as generalizing s with
  | nil => cases hf; exact h
  | cons a as ih =>
    rw [follow] at hf
    split at hf
    · rename_i hg
      exact ih (h.step ⟨hg, rfl⟩) hf
    · cases hf

/-- What a computed run shows of its last state holds of a reachable one. -/
theorem exists_of_follow {init : σ → Prop} {guard : σ → α → Prop} {next : σ → α → σ}
    [∀ s a, Decidable (guard s a)] {P : σ → Prop} [DecidablePred P] {s : σ} (h0 : init s)
    (as : List α) (h : (follow guard next s as).any fun s => decide (P s)) :
    ∃ s', (guarded init guard next).Reachable s' ∧ P s' := by
  obtain ⟨s', hs, hp⟩ := (Option.any_eq_true _ _).1 h
  exact ⟨s', Reachable.of_follow (.init h0) hs, of_decide_eq_true hp⟩

/-- The same for a run whose steps all meet a condition. -/
theorem exists_of_follow_restrict {init : σ → Prop} {guard C : σ → α → Prop} {next : σ → α → σ}
    [∀ s a, Decidable (C s a ∧ guard s a)] {P : σ → Prop} [DecidablePred P] {s : σ} (h0 : init s)
    (as : List α) (h : (follow (fun s a => C s a ∧ guard s a) next s as).any fun s => decide (P s)) :
    ∃ s', ((guarded init guard next).restrict C).Reachable s' ∧ P s' := by
  rw [guarded_restrict]
  exact exists_of_follow h0 as h

end System

end Common
