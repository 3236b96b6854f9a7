import Mathlib.Data.Nat.Notation
/-!
# Stateful programs that may stop, and their triples

A program passes a state along and may stop with a reason `ε`, in which
case nothing after it runs. `Hoare P c Q E` reads: from a state where `P`
holds, `c` returns with `Q`, or stops for a reason `E` allows. The rules
follow the shape of a program: one for each way of building one, and for
a counting loop the invariant rule `Hoare.forM_range`. `Returns c s Q` is
about one state: from `s`, `c` returns, and does so with `Q`.
-/

namespace Common

open List

variable {ε σ α β : Type}

/-- A program over the state `σ` that may stop with an `ε`. -/
abbrev Prog (ε σ α : Type) : Type := StateT σ (Except ε) α

namespace Prog

/-- Stop here. -/
def stop (e : ε) : Prog ε σ α := fun _ => .error e

/-- Read part of the state. -/
def gets (f : σ → α) : Prog ε σ α := fun s => .ok (f s, s)

/-- Change the state. -/
def modify (f : σ → σ) : Prog ε σ Unit := fun s => .ok ((), f s)

theorem bind_run (c : Prog ε σ β) (f : β → Prog ε σ α) (s : σ) :
    (c >>= f) s = (c s).bind fun p => f p.1 p.2 := rfl

/-- If a sequence returns, both its parts do. -/
theorem bind_ok {c : Prog ε σ β} {f : β → Prog ε σ α} {s : σ} {r : α × σ}
    (h : (c >>= f) s = .ok r) : ∃ b t, c s = .ok (b, t) ∧ f b t = .ok r := by
  rw [bind_run] at h
  cases hc : c s with
  | ok p => exact ⟨p.1, p.2, rfl, by rwa [hc] at h⟩
  | error e =>
    rw [hc] at h
    cases h

/-- If a sequence stops, one of its parts does. -/
theorem bind_error {c : Prog ε σ β} {f : β → Prog ε σ α} {s : σ} {e : ε}
    (h : (c >>= f) s = .error e) : c s = .error e ∨ ∃ b t, c s = .ok (b, t) ∧ f b t = .error e := by
  rw [bind_run] at h
  cases hc : c s with
  | ok p => exact .inr ⟨p.1, p.2, rfl, by rwa [hc] at h⟩
  | error e =>
    rw [hc] at h
    cases h
    exact .inl rfl

/-- Two runs that agree go on in the same way. -/
theorem bind_congr {c c' : Prog ε σ β} {s t : σ} (h : c s = c' t) (f : β → Prog ε σ α) :
    (c >>= f) s = (c' >>= f) t := by
  rw [bind_run, h, bind_run]

theorem stop_run (e : ε) (s : σ) : (stop e : Prog ε σ α) s = .error e := rfl

theorem gets_run (f : σ → α) (s : σ) : (gets f : Prog ε σ α) s = .ok (f s, s) := rfl

theorem gets_bind (f : σ → β) (k : β → Prog ε σ α) (s : σ) : (gets f >>= k) s = k (f s) s := rfl

theorem modify_bind (f : σ → σ) (k : Unit → Prog ε σ α) (s : σ) :
    (modify f >>= k) s = k () (f s) := rfl

theorem modify_run (f : σ → σ) (s : σ) : (modify f : Prog ε σ Unit) s = .ok ((), f s) := rfl

end Prog

/-- From a state satisfying `P`, the program returns with `Q` or stops
with `E`. -/
structure Hoare (P : σ → Prop) (c : Prog ε σ α) (Q : α → σ → Prop) (E : ε → Prop) : Prop where
  ok : ∀ {s a s'}, P s → c s = .ok (a, s') → Q a s'
  error : ∀ {s e}, P s → c s = .error e → E e

namespace Hoare

variable {P P' : σ → Prop} {Q Q' : α → σ → Prop} {E : ε → Prop}

/-- The precondition may be strengthened and the postcondition
weakened. -/
theorem conseq {c : Prog ε σ α} (h : Hoare P c Q E) (hP : ∀ s, P' s → P s)
    (hQ : ∀ a s, Q a s → Q' a s) : Hoare P' c Q' E :=
  ⟨fun hs hc => hQ _ _ (h.ok (hP _ hs) hc), fun hs hc => h.error (hP _ hs) hc⟩

theorem pure {a : α} (h : ∀ s, P s → Q a s) : Hoare P (Pure.pure a : Prog ε σ α) Q E := by
  refine ⟨fun hs hc => ?_, fun _ hc => ?_⟩
  · cases hc
    exact h _ hs
  · cases hc

/-- One program after another. -/
theorem bind {c : Prog ε σ β} {f : β → Prog ε σ α} {R : β → σ → Prop}
    (hc : Hoare P c R E) (hf : ∀ b, Hoare (R b) (f b) Q E) : Hoare P (c >>= f) Q E := by
  constructor
  · intro s a s' hs hcf
    obtain ⟨b, t, hcs, hft⟩ := Prog.bind_ok hcf
    exact (hf b).ok (hc.ok hs hcs) hft
  · intro s e hs hcf
    rcases Prog.bind_error hcf with hcs | ⟨b, t, hcs, hft⟩
    · exact hc.error hs hcs
    · exact (hf b).error (hc.ok hs hcs) hft

/-- A program that runs another on a part of the state. -/
theorem map {τ : Type} {c : Prog ε τ α} {c' : Prog ε σ α} {R : α → τ → Prop} {t : τ} {s : σ}
    {g : τ → σ} (h : Hoare (· = t) c R E) (hrun : c' s = (c t).map fun r => (r.1, g r.2))
    (hQ : ∀ a t', R a t' → Q a (g t')) : Hoare (· = s) c' Q E := by
  constructor
  · rintro _ a s' rfl hc
    rw [hrun] at hc
    cases hct : c t with
    | ok r =>
      rw [hct] at hc
      cases hc
      exact hQ _ _ (h.ok rfl hct)
    | error e =>
      rw [hct] at hc
      cases hc
  · rintro _ e rfl hc
    rw [hrun] at hc
    cases hct : c t with
    | ok r =>
      rw [hct] at hc
      cases hc
    | error e' =>
      rw [hct] at hc
      cases hc
      exact h.error rfl hct

theorem any {c : Prog ε σ α} : Hoare P c (fun _ _ => True) fun _ => True :=
  ⟨fun _ _ => trivial, fun _ _ => trivial⟩

/-- It is enough to look at one state at a time. -/
theorem pointwise {c : Prog ε σ α} (h : ∀ s, P s → Hoare (· = s) c Q E) : Hoare P c Q E :=
  ⟨fun hs hc => (h _ hs).ok rfl hc, fun hs hc => (h _ hs).error rfl hc⟩

/-- From a known state. -/
theorem known {c : Prog ε σ α} {s : σ} (h : Hoare P c Q E) (hs : P s) : Hoare (· = s) c Q E := by
  refine h.conseq ?_ fun _ _ hq => hq
  rintro _ rfl
  exact hs

/-- A run that amounts to another program's from another state. -/
theorem run_eq {c c' : Prog ε σ α} {s t : σ} (h : Hoare (· = t) c' Q E) (hrun : c s = c' t) :
    Hoare (· = s) c Q E := by
  constructor
  · rintro _ a s' rfl hc
    exact h.ok rfl (hrun ▸ hc)
  · rintro _ e rfl hc
    exact h.error rfl (hrun ▸ hc)

/-- A run that stops. -/
theorem of_error {c : Prog ε σ α} {s : σ} {e : ε} (hrun : c s = .error e) (he : E e) :
    Hoare (· = s) c Q E := by
  constructor
  · rintro _ a s' rfl hc
    rw [hrun] at hc
    cases hc
  · rintro _ e' rfl hc
    rw [hrun] at hc
    cases hc
    exact he

/-- One program after another, from a known state. -/
theorem seq {c : Prog ε σ β} {f : β → Prog ε σ α} {R : β → σ → Prop} {s : σ}
    (hc : Hoare (· = s) c R E) (hf : ∀ b s', R b s' → Hoare (· = s') (f b) Q E) :
    Hoare (· = s) (c >>= f) Q E :=
  hc.bind fun b => pointwise (hf b)

/-- The run itself may be kept. -/
theorem run {c : Prog ε σ α} {s : σ} (h : Hoare (· = s) c Q E) :
    Hoare (· = s) c (fun a s' => c s = .ok (a, s') ∧ Q a s') E := by
  refine ⟨?_, h.error⟩
  rintro _ a s' rfl hc
  exact ⟨hc, h.ok rfl hc⟩

/-- More reasons to stop may be allowed. -/
theorem weaken {c : Prog ε σ α} {E' : ε → Prop} (h : Hoare P c Q E) (hE : ∀ e, E e → E' e) :
    Hoare P c Q E' :=
  ⟨h.ok, fun hs hc => hE _ (h.error hs hc)⟩

theorem stop {e : ε} (h : ∀ s, P s → E e) : Hoare P (Prog.stop e : Prog ε σ α) Q E := by
  refine ⟨fun _ hc => ?_, fun hs hc => ?_⟩
  · cases hc
  · cases hc
    exact h _ hs

theorem stop_bind {e : ε} {f : β → Prog ε σ α} (h : ∀ s, P s → E e) :
    Hoare P (Prog.stop e >>= f) Q E :=
  (stop (Q := fun _ _ => False) h).bind fun _ => ⟨False.elim, False.elim⟩

/-- Reading part of a known state. -/
theorem gets_bind {s : σ} {f : σ → β} {k : β → Prog ε σ α} (h : Hoare (· = s) (k (f s)) Q E) :
    Hoare (· = s) (Prog.gets f >>= k) Q E := by
  constructor
  · rintro _ a s' rfl hc
    exact h.ok rfl hc
  · rintro _ e rfl hc
    exact h.error rfl hc

/-- Changing a known state. -/
theorem modify_bind {s : σ} {f : σ → σ} {k : Unit → Prog ε σ α} (h : Hoare (· = f s) (k ()) Q E) :
    Hoare (· = s) (Prog.modify f >>= k) Q E := by
  constructor
  · rintro _ a s' rfl hc
    exact h.ok rfl hc
  · rintro _ e rfl hc
    exact h.error rfl hc

theorem modify {f : σ → σ} {Q : Unit → σ → Prop} (h : ∀ s, P s → Q () (f s)) :
    Hoare P (Prog.modify f : Prog ε σ Unit) Q E := by
  refine ⟨fun hs hc => ?_, fun _ hc => ?_⟩
  · cases hc
    exact h _ hs
  · cases hc

theorem ite {p : Prop} [Decidable p] {c c' : Prog ε σ α} (h : p → Hoare P c Q E)
    (h' : ¬ p → Hoare P c' Q E) : Hoare P (if p then c else c') Q E := by
  split
  · exact h ‹_›
  · exact h' ‹_›

/-- **The invariant rule for a counting loop.** What each iteration takes
from `I k` to `I (k + 1)`, the loop takes from `I 0` to `I n`. -/
theorem forM_range {I : ℕ → σ → Prop} {f : ℕ → Prog ε σ PUnit} {n : ℕ}
    (h : ∀ k, k < n → Hoare (I k) (f k) (fun _ s => I (k + 1) s) E) :
    Hoare (I 0) ((List.range n).forM f) (fun _ s => I n s) E := by
  have key : ∀ m k, k + m = n →
      Hoare (I k) ((List.range' k m).forM f) (fun _ s => I n s) E := by
    intro m
    induction m with
    | zero =>
      intro k hk
      have hk' : k = n := by omega
      subst hk'
      exact pure fun s hs => hs
    | succ m ih =>
      intro k hk
      simp only [range'_succ, forM_eq_forM, forM_cons]
      refine bind (h k (by omega)) fun _ => ?_
      have := ih (k + 1) (by omega)
      simpa only [forM_eq_forM] using this
  have := key n 0 (by omega)
  rwa [← range_eq_range'] at this

end Hoare

/-- From `s` the program returns, with `Q`. -/
def Returns (c : Prog ε σ α) (s : σ) (Q : α → σ → Prop) : Prop :=
  ∃ a s', c s = .ok (a, s') ∧ Q a s'

/-- A program with no reason to stop returns. -/
theorem Hoare.returns {P : σ → Prop} {c : Prog ε σ α} {Q : α → σ → Prop} {E : ε → Prop} {s : σ}
    (h : Hoare P c Q E) (hs : P s) (hE : ∀ e, ¬ E e) : Returns c s Q := by
  cases hc : c s with
  | ok r => exact ⟨r.1, r.2, hc, h.ok hs hc⟩
  | error e => exact absurd (h.error hs hc) (hE e)

namespace Returns

variable {c : Prog ε σ α} {s : σ} {Q Q' : α → σ → Prop}

theorem mono (h : Returns c s Q) (hQ : ∀ a s', Q a s' → Q' a s') : Returns c s Q' := by
  obtain ⟨a, s', hc, hq⟩ := h
  exact ⟨a, s', hc, hQ a s' hq⟩

/-- A program that returns does not stop. -/
theorem hoare (h : Returns c s Q) (E : ε → Prop) : Hoare (· = s) c Q E := by
  obtain ⟨a, s', hc, hq⟩ := h
  refine ⟨?_, ?_⟩
  · rintro _ a' s'' rfl hc'
    rw [hc] at hc'
    cases hc'
    exact hq
  · rintro _ e rfl hc'
    rw [hc] at hc'
    cases hc'

theorem ok (h : Returns c s Q) {a : α} {s' : σ} (hc : c s = .ok (a, s')) : Q a s' := by
  obtain ⟨a', s'', hc', hq⟩ := h
  rw [hc] at hc'
  cases hc'
  exact hq

/-- A run that can be carried out. -/
theorem of_run {f : α → σ → β} {b : β} (h : (c s).toOption.map (fun r => f r.1 r.2) = some b) :
    Returns c s fun a s' => f a s' = b := by
  cases hc : c s with
  | ok r =>
    rw [hc] at h
    exact ⟨r.1, r.2, hc, Option.some.inj h⟩
  | error e =>
    rw [hc] at h
    cases h

theorem pure {a : α} (h : Q a s) : Returns (Pure.pure a : Prog ε σ α) s Q := ⟨a, s, rfl, h⟩

/-- One program after another. -/
theorem bind {c : Prog ε σ β} {f : β → Prog ε σ α}
    (h : Returns c s fun b s' => Returns (f b) s' Q) : Returns (c >>= f) s Q := by
  obtain ⟨b, s', hc, a, s'', hf, hq⟩ := h
  refine ⟨a, s'', ?_, hq⟩
  rw [Prog.bind_run, hc]
  exact hf

/-- A program that comes to the same as another from another state. -/
theorem run_eq {c' : Prog ε σ α} {t : σ} (h : Returns c' t Q) (hrun : c s = c' t) :
    Returns c s Q := by
  obtain ⟨a, s', hc, hq⟩ := h
  exact ⟨a, s', hrun.trans hc, hq⟩

@[simp] theorem gets_bind_iff {f : σ → β} {k : β → Prog ε σ α} :
    Returns (Prog.gets f >>= k) s Q ↔ Returns (k (f s)) s Q := Iff.rfl

@[simp] theorem modify_bind_iff {f : σ → σ} {k : Unit → Prog ε σ α} :
    Returns (Prog.modify f >>= k) s Q ↔ Returns (k ()) (f s) Q := Iff.rfl

theorem modify {f : σ → σ} {Q : Unit → σ → Prop} (h : Q () (f s)) :
    Returns (Prog.modify f : Prog ε σ Unit) s Q := ⟨(), f s, rfl, h⟩

/-- **The invariant rule for a counting loop that returns.** -/
theorem forM_range {I : ℕ → σ → Prop} {f : ℕ → Prog ε σ PUnit} {n : ℕ}
    (h : ∀ k s, k < n → I k s → Returns (f k) s fun _ s' => I (k + 1) s') (h0 : I 0 s) :
    Returns ((List.range n).forM f) s fun _ s' => I n s' := by
  have key : ∀ m k s, k + m = n → I k s →
      Returns ((List.range' k m).forM f) s fun _ s' => I n s' := by
    intro m
    induction m with
    | zero =>
      intro k s hk hs
      have hk' : k = n := by omega
      subst hk'
      exact pure hs
    | succ m ih =>
      intro k s hk hs
      simp only [range'_succ, forM_eq_forM, forM_cons]
      refine bind ((h k s (by omega) hs).mono fun _ s' hs' => ?_)
      have := ih (k + 1) s' (by omega) hs'
      simpa only [forM_eq_forM] using this
  have := key n 0 s (by omega) h0
  rwa [← range_eq_range'] at this

end Returns

end Common
