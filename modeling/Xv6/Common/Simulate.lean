import Xv6.Common.Prog
/-!
# Programs that do the same

`Simulates c s c' t Q E`: run from `s` and from `t`, the two programs both
return, with results and states that `Q` relates, or both stop for the same
reason, one that `E` allows. A step of the one is matched with a step of
the other, and what is known of the one may be added.
-/

namespace Common

variable {ε σ τ α β γ δ : Type}

/-- Both programs return, with `Q`, or stop for the same reason, with
`E`. -/
def Simulates (c : Prog ε σ α) (s : σ) (c' : Prog ε τ β) (t : τ) (Q : α → σ → β → τ → Prop)
    (E : ε → Prop) : Prop :=
  (∃ a s' b t', c s = .ok (a, s') ∧ c' t = .ok (b, t') ∧ Q a s' b t') ∨
    ∃ e, c s = .error e ∧ c' t = .error e ∧ E e

namespace Simulates

variable {c : Prog ε σ α} {c' : Prog ε τ β} {s : σ} {t : τ} {Q Q' : α → σ → β → τ → Prop}
  {E E' : ε → Prop}

theorem mono (h : Simulates c s c' t Q E) (hQ : ∀ a s' b t', Q a s' b t' → Q' a s' b t') :
    Simulates c s c' t Q' E := by
  rcases h with ⟨a, s', b, t', hc, hc', hq⟩ | h
  · exact .inl ⟨a, s', b, t', hc, hc', hQ a s' b t' hq⟩
  · exact .inr h

theorem of_ok {a : α} {s' : σ} {b : β} {t' : τ} (hc : c s = .ok (a, s')) (hc' : c' t = .ok (b, t'))
    (hq : Q a s' b t') : Simulates c s c' t Q E := .inl ⟨a, s', b, t', hc, hc', hq⟩

theorem of_error {e : ε} (hc : c s = .error e) (hc' : c' t = .error e) (he : E e) :
    Simulates c s c' t Q E := .inr ⟨e, hc, hc', he⟩

/-- Runs that amount to those of other programs from other states. -/
theorem run_eq {d : Prog ε σ α} {d' : Prog ε τ β} {s₀ : σ} {t₀ : τ} (h : Simulates d s₀ d' t₀ Q E)
    (hc : c s = d s₀) (hc' : c' t = d' t₀) : Simulates c s c' t Q E := by
  unfold Simulates
  rw [hc, hc']
  exact h

/-- One step of each, and what follows. -/
theorem bind {f : α → Prog ε σ γ} {f' : β → Prog ε τ δ} {R : γ → σ → δ → τ → Prop}
    (h : Simulates c s c' t (fun a s' b t' => Simulates (f a) s' (f' b) t' R E) E) :
    Simulates (c >>= f) s (c' >>= f') t R E := by
  rcases h with ⟨a, s', b, t', hc, hc', h⟩ | ⟨e, hc, hc', he⟩
  · refine h.run_eq ?_ ?_
    · rw [Prog.bind_run, hc]
      rfl
    · rw [Prog.bind_run, hc']
      rfl
  · refine of_error (e := e) ?_ ?_ he
    · rw [Prog.bind_run, hc]
      rfl
    · rw [Prog.bind_run, hc']
      rfl

/-- The same step of both. -/
theorem bind_same {c : Prog ε σ α} {f : α → Prog ε σ γ} {f' : α → Prog ε σ δ}
    {R : γ → σ → δ → σ → Prop} (h : ∀ a s', Simulates (f a) s' (f' a) s' R fun _ => True) :
    Simulates (c >>= f) s (c >>= f') s R fun _ => True := by
  refine bind ?_
  cases hrun : c s with
  | ok r => exact of_ok hrun hrun (h r.1 r.2)
  | error e => exact of_error hrun hrun trivial

/-- What is known of the second program. -/
theorem hoare {R : β → τ → Prop} (h : Simulates c s c' t Q E) (hc : Hoare (· = t) c' R E') :
    Simulates c s c' t (fun a s' b t' => R b t' ∧ Q a s' b t') E' := by
  rcases h with ⟨a, s', b, t', hrun, hrun', hq⟩ | ⟨e, hrun, hrun', -⟩
  · exact of_ok hrun hrun' ⟨hc.ok rfl hrun', hq⟩
  · exact of_error hrun hrun' (hc.error rfl hrun')

/-- What it says of the first program. -/
theorem left (h : Simulates c s c' t Q E) :
    Hoare (· = s) c (fun a s' => ∃ b t', Q a s' b t') E := by
  rcases h with ⟨a, s', b, t', hrun, -, hq⟩ | ⟨e, hrun, -, he⟩
  · exact Returns.hoare ⟨a, s', hrun, b, t', hq⟩ E
  · exact .of_error hrun he

end Simulates

end Common
