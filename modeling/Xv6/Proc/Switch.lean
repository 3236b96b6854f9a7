import Xv6.Proc.Control
/-!
# Switching

A process marks itself RUNNABLE, SLEEPING or ZOMBIE while it is still on its
own kernel stack. Its lock, which it keeps until the scheduler is back, is
what keeps every other CPU from loading its context and its parent from
freeing it.
-/

namespace Xv6

variable {s : ProcSys} {c p i : ℕ} {x : Choice} {m : Move}

/-- The slot on which `freeproc` is called. -/
def Edit.frees : Edit → Option ℕ
  | .reap _ i | .fork i .noPagetable | .fork i .noCopy => some i
  | _ => none

namespace ProcSys

/-- What the process that CPU `c` runs does to the table in its next step. -/
def edit (s : ProcSys) (c : ℕ) (x : Choice) : Edit :=
  match s.sched c with
  | .out p =>
    if s.preempted p x then .nothing
    else
      match s.wants p with
      | some _ => .nothing
      | none => (s.move c p x).edit
  | _ => .nothing

/-- CPU `c` executes on the kernel stack of process `p`. -/
def OnStack (s : ProcSys) (c p : ℕ) : Prop := s.sched c = .out p

/-- `freeproc` is called with the slot's lock, on a slot that is free or a
zombie. -/
theorem frees_spec (hf : m.edit.From s p m) (hi : m.edit.frees = some i) :
    s.sw p = .exec ∧ i ∈ (s.pc p).held p ∧
      ((s.proc i).state = .unused ∨ (s.proc i).state = .zombie) := by
  cases he : m.edit with
  | reap addr j =>
    rw [he] at hf hi
    cases hi
    obtain ⟨hsw, -, hpc, hz, -⟩ := hf
    exact ⟨hsw, by simp [hpc, Pc.held], .inr hz⟩
  | fork j o =>
    rw [he] at hf hi
    obtain ⟨hsw, -, hpc, -, hun⟩ := hf
    have hij : j = i := by cases o <;> simp_all [Edit.frees]
    subst hij
    exact ⟨hsw, by simp [hpc, Pc.held], .inl hun⟩
  | _ => simp [he, Edit.frees] at hi

theorem Control.not_onStack_of_off (h : s.Control) (hp : s.sw p = .off) (c : ℕ) :
    ¬ s.OnStack c p := fun hc => h.out c p hc hp

/-- **`freeproc` finds nobody on the stack.** -/
theorem Control.not_onStack_of_frees (h : s.Control) (hc : s.sched c = .out p)
    (hm : s.Moves c p x m) (hi : m.edit.frees = some i) (c' : ℕ) : ¬ s.OnStack c' i := by
  obtain ⟨hsw, hheld, hstate⟩ := frees_spec hm.edit_from hi
  have hnot : (s.proc i).state ≠ .running := by rcases hstate with hs | hs <;> simp [hs]
  have hne : i ≠ p := by
    rintro rfl
    exact hnot (h.running c i hc (by simp [hsw]) (by simp [hsw]))
  exact h.not_onStack_of_off
    (h.off_of_held hc (by simpa [held, hsw, Sw.held] using hheld) hne hnot) c'

theorem exists_moves_of_frees (hi : (s.edit c x).frees = some i) (hen : (ProcAct.run c x).Enabled s) :
    ∃ p m, s.sched c = .out p ∧ s.Moves c p x m ∧ m.edit.frees = some i := by
  obtain ⟨-, hen⟩ := hen
  unfold edit at hi
  cases hc : s.sched c with
  | out p =>
    rw [hc] at hi hen
    dsimp only at hi hen
    split at hi
    · cases hi
    · rename_i hpre
      have hen := hen.resolve_left hpre
      cases hw : s.wants p with
      | some j => rw [hw] at hi; cases hi
      | none =>
        rw [hw] at hi hen
        exact ⟨p, _, rfl, .code hpre hw hen.2, hi⟩
  | _ => rw [hc] at hi; cases hi

end ProcSys

/-- **One CPU for a process, and a saved context to go on from.** At most one
CPU has `c->proc = p`. A CPU about to load the context of `p` finds the
thread switched out, its context saved where it left off, and no CPU on its
kernel stack. Nor is any there when `freeproc` runs. -/
theorem one_cpu_and_saved_context (h : procSystem.Reachable s) :
    (∀ c c' p, s.cproc c = some p → s.cproc c' = some p → c = c') ∧
    (∀ c p, s.sched c = .load p →
      s.sw p = .off ∧ s.context p = s.pc p ∧ ∀ c', ¬ s.OnStack c' p) ∧
    ∀ c x i, (ProcAct.run c x).Enabled s → (s.edit c x).frees = some i →
      ∀ c', ¬ s.OnStack c' i := by
  have hctl := control_of_reachable h
  refine ⟨fun c c' p hc hc' => ?_, fun c p hc => ?_, fun c x i hen hi => ?_⟩
  · rw [hctl.cproc] at hc hc'
    exact hctl.one c c' p hc hc'
  · have hoff : s.sw p = .off := hctl.off_of_runs (by rw [hc]; rfl) (by simp [hc])
    exact ⟨hoff, hctl.saved p (.inl hoff), hctl.not_onStack_of_off hoff⟩
  · obtain ⟨p, m, hc, hm, hf⟩ := ProcSys.exists_moves_of_frees hi hen
    exact hctl.not_onStack_of_frees hc hm hf

/-- Process 0 yields on CPU 0, and CPU 1 is about to load its context. -/
theorem one_cpu_and_saved_context_yield : ∃ s, procSystem.Reachable s ∧
    s.sched 1 = .load 0 ∧ s.sw 0 = .off ∧ s.context 0 = s.pc 0 ∧ ∀ c', ¬ s.OnStack c' 0 := by
  obtain ⟨s, hs, h1⟩ := exists_of_procFollow (P := fun s => s.sched 1 = .load 0)
    (starts 0 0 ++ [.run 0 { timer := true }] ++ steps 0 4 ++ schedules 0 1 ++ schedules 1 3)
    (by decide +kernel)
  exact ⟨s, hs, h1, (one_cpu_and_saved_context hs).2.1 1 0 h1⟩

end Xv6
