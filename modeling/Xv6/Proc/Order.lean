import Xv6.Proc.Sleep
/-!
# Sleepers and the lock they left

What code that sleeps under a lock of its own needs of `sleep`: a process is
SLEEPING only in the calls of `sched` that end a `sleep` (`Dozes`); and
whoever holds the lock a sleeper has left took it later than that
(`Ordered`).
-/

namespace Xv6

open Function

variable {s s' : ProcSys} {c p q i k l : ℕ} {x : Choice} {m : Move} {a : ProcAct} {o : Owner}

/-- The lock that `sleep` has left and not yet taken again. -/
def Pc.released : Pc → Option ℕ
  | .sleepMark _ l | .asleep l | .sleepLock l => some l
  | _ => none

theorem Pc.got_released {pc : Pc} (h : pc.wants p = some i) :
    pc.got.released = none ∧ pc.released = none := by
  cases pc <;> simp_all [Pc.wants, Pc.got, Pc.released]

namespace ProcSys

/-! ## Where a process sleeps -/

/-- Whoever is SLEEPING is in a call of `sched`. -/
def Dozes (s : ProcSys) (p : ℕ) (pc : Pc) : Prop :=
  (s.proc p).state = .sleeping → (∃ l, pc = .asleep l) ∨ ∃ addr, pc = .waiting addr

theorem Dozes.moves (hctl : s.Control) (hc : s.sched c = .out p) (hm : s.Moves c p x m)
    (h : s.Dozes p (s.pc p)) : (s.commit c p m).Dozes p m.pc := by
  intro hsl
  have hsave : s.sw p ≠ .save → s.sw p ≠ .load → m.sw = .save := by
    intro h1 h2
    have hrun := Control.state_running (n := s.nextpid) hm.edit_from (hctl.running c p hc h1 h2)
    refine (hrun.resolve_left fun hr => ?_).2
    have hsl : (m.edit.apply s.nextpid p s.proc p).state = .sleeping := hsl
    rw [hsl] at hr
    cases hr
  cases hm.acts with
  | exec hsw _ _ _ hg =>
    have hsave := hsave (by simp [hsw]) (by simp [hsw])
    cases hg with
    | exited => simp [ProcSys.commit, Edit.apply] at hsl
    | waitSleeps _ _ => exact .inr ⟨_, rfl⟩
    | sleepMarks => exact .inl ⟨_, rfl⟩
    | _ => cases hsave
  | timer hpre => cases hsave (by simp [hpre.2.1]) (by simp [hpre.2.1])
  | yield _ => simp [ProcSys.commit, Edit.apply] at hsl
  | save _ | load _ | off _ => exact h hsl
  | awakes hsw _ | rescans hsw _ | revives hsw _ | resumes hsw _ _ _ =>
    cases hsave (by simp [hsw]) (by simp [hsw])

theorem Dozes.step (hctl : s.Control) (hs : s.Step a s') (h : ∀ q, s.Dozes q (s.pc q)) (q : ℕ) :
    s'.Dozes q (s'.pc q) := by
  refine hs.place (P := Dozes) hctl ?_ ?_ ?_ ?_ ?_ h q
  · intro s₁ s₂ hp _ q pc h
    unfold Dozes
    rw [hp]
    exact h
  · intro q i pc hw h hsl
    obtain ⟨l, rfl⟩ | ⟨addr, rfl⟩ := h hsl <;> cases hw
  · rintro c p m q he rfl hsl
    simp [ProcSys.commit, he, Edit.apply, Proc.fork] at hsl
  · intro q hq _ h hsl
    exact h (hs.undisturbed hq hsl).1
  · rintro c p x m - hc hm rfl h
    exact h.moves hctl hc hm

/-! ## Who left the lock first -/

/-- **A sleeper left its lock before whoever holds it took it.** -/
structure Ordered (s : ProcSys) : Prop where
  past : ∀ p, s.slept p < s.clock
  order : ∀ p l o, (s.pc p).released = some l → s.xlock l = some o → s.slept p < s.took o l

theorem Ordered.boot : Ordered .boot :=
  ⟨fun p => by simp [ProcSys.boot], fun p l o h => by cases h⟩

/-- A lock left in a step is left at its time. -/
theorem Step.slept (hs : s.Step a s') (p : ℕ) : s'.slept p = s.slept p ∨ s'.slept p = s.clock := by
  cases hs with
  | @commit c q x m _ _ _ =>
    by_cases hpq : p = q
    · subst hpq
      cases he : m.ext with
      | drop l => exact .inr (by simp [ProcSys.commit, he])
      | _ => exact .inl (by simp [ProcSys.commit, he])
    · exact .inl (slept_of_ne hpq)
  | _ => exact .inl rfl

/-- Whoever holds a lock that has been free or held later than `t₀` took it
later than that. -/
theorem Step.took_gt {t₀ : ℕ} (hs : s.Step a s') (ht : t₀ < s.clock)
    (hold : ∀ o, s.xlock l = some o → t₀ < s.took o l) (ho : s'.xlock l = some o) :
    t₀ < s'.took o l := by
  obtain ⟨e, b, -, -, hx, htook⟩ := hs.ext
  rw [hx] at ho
  rw [htook]
  cases e with
  | nothing => exact hold o ho
  | take l' =>
    by_cases hl : l = l'
    · subst hl
      rw [Ext.apply, update_self, Option.some.injEq] at ho
      subst ho
      simpa [Ext.took] using ht
    · rw [Ext.apply, update_of_ne hl] at ho
      by_cases hob : o = b
      · subst hob
        simpa [Ext.took, hl] using hold o ho
      · simpa [Ext.took, hob] using hold o ho
  | drop l' =>
    by_cases hl : l = l'
    · simp [Ext.apply, hl] at ho
    · rw [Ext.apply, update_of_ne hl] at ho
      exact hold o ho

/-- **A sleeper before a step** had left its lock as well, or has just left
it free. -/
theorem released_before (hs : s.Step a s') (hctl : s.Control)
    (h : (s'.pc q).released = some l) :
    (s.pc q).released = some l ∧ s'.slept q = s.slept q ∨ s'.xlock l = none := by
  cases hs.turn hctl q with
  | rests _ hr | stays _ _ _ hr => exact .inl ⟨hr.pc ▸ h, hr.slept⟩
  | got _ _ _ hw hpc _ =>
    rw [hpc, (Pc.got_released hw).1] at h
    cases h
  | born _ _ hpc =>
    rw [hpc] at h
    cases h
  | @moves c x m hc hm hpc =>
    rw [hpc] at h
    have hext : m.ext = .drop l ∨ (s.pc q).released = some l ∧ m.ext = .nothing := by
      cases hm.acts with
      | exec _ hpcq _ _ hg =>
        cases hg with
        | sleepDrops => cases h; exact .inl rfl
        | sleepMarks => exact .inr ⟨by rw [hpcq]; exact h, rfl⟩
        | _ => cases h
      | awakes _ hpcq => exact .inr ⟨by rw [hpcq]; exact h, rfl⟩
      | rescans _ _ | revives _ _ => cases h
      | _ => exact .inr ⟨h, rfl⟩
    rcases hext with he | ⟨hrel, he⟩
    · exact .inr (by simp [ProcSys.commit, he, Ext.apply])
    · exact .inl ⟨hrel, by simp [ProcSys.commit, he]⟩

theorem Ordered.step (h : s.Ordered) (hctl : s.Control) (hs : s.Step a s') : s'.Ordered where
  past p := by
    have := h.past p
    rw [hs.clock]
    rcases hs.slept p with ht | ht <;> omega
  order p l o hp ho := by
    rcases released_before hs hctl hp with ⟨hp', hslept⟩ | hnone
    · rw [hslept]
      exact hs.took_gt (h.past p) (fun o => h.order p l o hp') ho
    · rw [hnone] at ho
      cases ho

end ProcSys

theorem dozes_of_reachable (h : procSystem.Reachable s) (q : ℕ) : s.Dozes q (s.pc q) := by
  revert q
  refine h.invariant (I := fun s => ∀ q, s.Dozes q (s.pc q)) ?_ fun s a s' hr hI hs => ?_
  · rintro _ rfl q hsl
    by_cases hq : q = initproc
    · subst hq
      simp [ProcSys.boot] at hsl
    · simp [ProcSys.boot, hq, Proc.zero] at hsl
  · exact ProcSys.Dozes.step (control_of_reachable hr) (ProcSys.step_of_run hs) hI

theorem ordered_of_reachable (h : procSystem.Reachable s) : s.Ordered := by
  refine h.invariant (I := ProcSys.Ordered) ?_ fun s a s' hr hI hs => ?_
  · rintro _ rfl
    exact ProcSys.Ordered.boot
  · exact hI.step (control_of_reachable hr) (ProcSys.step_of_run hs)

end Xv6
