import Xv6.Proc.Step
/-!
# Who holds which process's lock, and which CPU runs which process

A lock belongs to the CPU that took it, and passes through `swtch` with the
CPU: the scheduler takes the lock of a process and the process leaves it, or
the other way round. So a thread's place in the code says which locks its
CPU holds (`Control.owns`), and a process that is not RUNNING is either
switched out or still has its own lock.
-/

namespace Xv6

open Common Function

variable {s s' : ProcSys} {c c' p q i k : ℕ} {x : Choice} {m : Move} {a b : Agent}

namespace SchedPc

/-- The process a CPU is switching to or from, or running. -/
def runs : SchedPc → Option ℕ
  | .save i | .load i | .out i | .back i => some i
  | .scan _ | .got _ => none

end SchedPc

namespace ProcSys

/-- The locks of processes that a CPU or a handler holds. -/
def heldBy (s : ProcSys) : Agent → List ℕ
  | .cpu c =>
    match s.sched c with
    | .scan _ => []
    | .got i | .save i | .load i | .back i => [i]
    | .out p => s.held p
  | .intr k =>
    match s.intr k with
    | .visiting _ i => [i]
    | _ => []

/-- **Control.** Locks are held where the code says; a CPU has at most one
process and a process at most one CPU; a thread is on a CPU unless it is
switched out, with its context saved; and a process on a CPU is RUNNING
unless it is in `sched`. -/
structure Control (s : ProcSys) : Prop where
  owns : Owns s.lock s.heldBy
  cproc : ∀ c, s.cproc c = (s.sched c).runs
  one : ∀ c c' p, (s.sched c).runs = some p → (s.sched c').runs = some p → c = c'
  off : ∀ p, s.sw p = .off ∨ ∃ c, s.sched c = .out p
  out : ∀ c p, s.sched c = .out p → s.sw p ≠ .off
  entering : ∀ c p, s.sched c = .save p ∨ s.sched c = .load p → (s.proc p).state = .running
  running : ∀ c p, s.sched c = .out p → s.sw p ≠ .save → s.sw p ≠ .load →
    (s.proc p).state = .running
  parked : ∀ p, s.sw p ≠ .exec → (s.pc p).held p = []
  saved : ∀ p, s.sw p = .off ∨ s.sw p = .load → s.context p = s.pc p

namespace Control

theorem boot : Control .boot where
  owns := ⟨fun a i => by cases a <;> simp [ProcSys.boot, heldBy],
    fun a => by cases a <;> simp [ProcSys.boot, heldBy]⟩
  cproc _ := rfl
  one _ _ _ h := by cases h
  off _ := .inl rfl
  out _ _ h := by cases h
  entering _ _ h := by cases h <;> rename_i h <;> cases h
  running _ _ h := by cases h
  parked _ _ := rfl
  saved _ _ := rfl

section

variable (h : s.Control)
include h

/-- What a process's thread holds, its CPU holds. -/
theorem lock_of_held (hc : s.sched c = .out p) (hi : i ∈ s.held p) : s.lock i = some (.cpu c) :=
  (h.owns.iff _ _).2 (by simpa [heldBy, hc] using hi)

theorem nodup_held (hc : s.sched c = .out p) : (s.held p).Nodup := by
  simpa [heldBy, hc] using h.owns.nodup (.cpu c)

/-- A CPU that does not run the process it deals with finds it switched
out. -/
theorem off_of_runs (hc : (s.sched c).runs = some p) (hne : s.sched c ≠ .out p) :
    s.sw p = .off := by
  refine (h.off p).resolve_right ?_
  rintro ⟨c', hc'⟩
  have heq : c = c' := h.one c c' p hc (by rw [hc']; rfl)
  subst heq
  exact hne hc'

/-- **A process that is not RUNNING is switched out, or has its own lock on
the CPU it runs on.** -/
theorem off_of_not_running (hp : (s.proc p).state ≠ .running)
    (hl : ∀ c, s.sched c = .out p → s.lock p ≠ some (.cpu c)) : s.sw p = .off := by
  refine (h.off p).resolve_right ?_
  rintro ⟨c, hc⟩
  by_cases hsave : s.sw p = .save
  · exact hl c hc (h.lock_of_held hc (by simp [held, hsave, Sw.held]))
  · by_cases hload : s.sw p = .load
    · exact hl c hc (h.lock_of_held hc (by simp [held, hload, Sw.held]))
    · exact hp (h.running c p hc hsave hload)

/-- So whoever holds the lock of another process that is not RUNNING finds
it switched out. -/
theorem off_of_held (hc : s.sched c = .out p) (hi : i ∈ s.held p) (hne : i ≠ p)
    (hs : (s.proc i).state ≠ .running) : s.sw i = .off := by
  refine h.off_of_not_running hs fun c' hc' hl => hne ?_
  rw [h.lock_of_held hc hi] at hl
  cases hl
  rw [hc] at hc'
  cases hc'
  rfl

end

/-! ### What each step does to it -/

theorem relock (h : s.Control) : s.relock.Control :=
  ⟨h.owns, h.cproc, h.one, h.off, h.out, h.entering, h.running, h.parked, h.saved⟩

/-- A step of CPU `c` into, in or out of the thread of process `p`, as far as
the threads are concerned: another thread is as before, or is that of a new
process; the CPU is then in the process or back in the scheduler. -/
structure ThreadStep (s s' : ProcSys) (c p : ℕ) : Prop where
  cproc : s'.cproc = s.cproc
  intr : s'.intr = s.intr
  sched : s'.sched = update s.sched c (.out p) ∧ s'.sw p ≠ .off ∨
    s'.sched = update s.sched c (.back p) ∧ s'.sw p = .off
  other : ∀ q, q ≠ p →
    s'.pc q = s.pc q ∧ s'.sw q = s.sw q ∧ s'.context q = s.context q ∨
      s.sw q = .off ∧ s'.sw q = .off ∧ s'.pc q = .user ∧ s'.context q = .user
  state : ∀ q, (s.proc q).state = .running →
    (s'.proc q).state = .running ∨ q = p ∧ s'.sw p = .save
  running : s'.sw p ≠ .save → s'.sw p ≠ .load → s'.sw p ≠ .off → (s.proc p).state = .running
  parked : s'.sw p ≠ .exec → (s'.pc p).held p = []
  saved : s'.sw p = .off ∨ s'.sw p = .load → s'.context p = s'.pc p

namespace ThreadStep

theorem sched_of_ne (t : ThreadStep s s' c p) (hne : c' ≠ c) : s'.sched c' = s.sched c' := by
  rcases t.sched with ⟨heq, -⟩ | ⟨heq, -⟩ <;> rw [heq, update_of_ne hne]

theorem runs (t : ThreadStep s s' c p) (hc : (s.sched c).runs = some p) (c' : ℕ) :
    (s'.sched c').runs = (s.sched c').runs := by
  by_cases hne : c' = c
  · subst hne
    rw [hc]
    rcases t.sched with ⟨heq, -⟩ | ⟨heq, -⟩ <;> rw [heq, update_self] <;> rfl
  · rw [t.sched_of_ne hne]

section

variable (t : ThreadStep s s' c p) (h : s.Control) (hc : (s.sched c).runs = some p)
include t h hc

/-- No other CPU runs `p`, before or after. -/
theorem ne_of_out (hne : c' ≠ c) (hq : s'.sched c' = .out q) : q ≠ p := by
  rintro rfl
  rw [t.sched_of_ne hne] at hq
  exact hne (h.one c' c q (by rw [hq]; rfl) hc)

/-- What another thread on a CPU is and holds does not change. -/
theorem same_of_out (hne : c' ≠ c) (hq : s'.sched c' = .out q) :
    s'.pc q = s.pc q ∧ s'.sw q = s.sw q ∧ s'.context q = s.context q := by
  refine (t.other q (t.ne_of_out h hc hne hq)).resolve_right fun hborn => ?_
  rw [t.sched_of_ne hne] at hq
  exact h.out c' q hq hborn.1

theorem heldBy_of_ne (hb : b ≠ .cpu c) : s'.heldBy b = s.heldBy b := by
  cases b with
  | intr k => simp only [heldBy, t.intr]
  | cpu c' =>
    have hne : c' ≠ c := fun e => hb (by rw [e])
    have hs := t.sched_of_ne hne
    cases hq : s'.sched c' with
    | out q =>
      obtain ⟨hpc, hsw, -⟩ := t.same_of_out h hc hne hq
      rw [hq] at hs
      simp only [heldBy, hq, ← hs, held, hpc, hsw]
    | _ =>
      rw [hq] at hs
      simp only [heldBy, hq, ← hs]

end

theorem heldBy_self (t : ThreadStep s s' c p) :
    s'.heldBy (.cpu c) = if s'.sw p = .off then [p] else s'.held p := by
  rcases t.sched with ⟨heq, hsw⟩ | ⟨heq, hsw⟩ <;>
    simp only [heldBy, heq, update_self, hsw, if_false, if_true]

end ThreadStep

/-- **Control is kept by a thread's step** whose locks are accounted for. -/
theorem thread (h : s.Control) (hc : (s.sched c).runs = some p) (t : ThreadStep s s' c p)
    (howns : Owns s'.lock s'.heldBy) : s'.Control where
  owns := howns
  cproc c' := by rw [t.cproc, t.runs hc, h.cproc]
  one c₁ c₂ q h₁ h₂ := h.one c₁ c₂ q (by rwa [← t.runs hc]) (by rwa [← t.runs hc])
  off q := by
    by_cases hqp : q = p
    · subst hqp
      rcases t.sched with ⟨heq, -⟩ | ⟨-, hsw⟩
      · exact .inr ⟨c, by rw [heq, update_self]⟩
      · exact .inl hsw
    · rcases t.other q hqp with ⟨-, hsw, -⟩ | ⟨-, hsw, -⟩
      · rw [hsw]
        refine (h.off q).imp_right (Exists.imp fun c' hc' => ?_)
        have hne : c' ≠ c := by
          rintro rfl
          rw [hc'] at hc
          cases hc
          exact hqp rfl
        rwa [t.sched_of_ne hne]
      · exact .inl hsw
  out c' q hq := by
    by_cases hne : c' = c
    · subst hne
      rcases t.sched with ⟨heq, hsw⟩ | ⟨heq, -⟩ <;> rw [heq, update_self] at hq <;> cases hq
      exact hsw
    · rw [(t.same_of_out h hc hne hq).2.1]
      rw [t.sched_of_ne hne] at hq
      exact h.out c' q hq
  entering c' q hq := by
    have hne : c' ≠ c := by
      rintro rfl
      rcases t.sched with ⟨heq, -⟩ | ⟨heq, -⟩ <;> rw [heq, update_self] at hq <;>
        rcases hq with hq | hq <;> cases hq
    rw [t.sched_of_ne hne] at hq
    refine (t.state q (h.entering c' q hq)).resolve_right ?_
    rintro ⟨rfl, -⟩
    refine hne (h.one c' c q ?_ hc)
    rcases hq with hq | hq <;> rw [hq] <;> rfl
  running c' q hq hsave hload := by
    by_cases hne : c' = c
    · subst hne
      rcases t.sched with ⟨heq, hsw⟩ | ⟨heq, -⟩ <;> rw [heq, update_self] at hq <;> cases hq
      exact (t.state p (t.running hsave hload hsw)).resolve_right fun hs => hsave hs.2
    · have hqp := t.ne_of_out h hc hne hq
      obtain ⟨-, hsw, -⟩ := t.same_of_out h hc hne hq
      rw [hsw] at hsave hload
      rw [t.sched_of_ne hne] at hq
      exact (t.state q (h.running c' q hq hsave hload)).resolve_right fun hs => hqp hs.1
  parked q hq := by
    by_cases hqp : q = p
    · subst hqp
      exact t.parked hq
    · rcases t.other q hqp with ⟨hpc, hsw, -⟩ | ⟨-, -, hpc, -⟩
      · rw [hpc]
        exact h.parked q (by rwa [← hsw])
      · rw [hpc]
        rfl
  saved q hq := by
    by_cases hqp : q = p
    · subst hqp
      exact t.saved hq
    · rcases t.other q hqp with ⟨hpc, hsw, hctx⟩ | ⟨-, -, hpc, hctx⟩
      · rw [hpc, hctx]
        exact h.saved q (by rwa [← hsw])
      · rw [hpc, hctx]

/-- `acquire` by a process. -/
theorem acquire (h : s.Control) (hc : s.sched c = .out p) (hw : s.wants p = some i)
    (hl : s.lock i = none) : ((s.lockBy (.cpu c) i).threadGot p).Control := by
  have hsw : s.sw p = .exec ∨ s.sw p = .yieldSelf := by
    unfold wants at hw
    cases hsw : s.sw p <;> simp_all [Sw.wants]
  have hruns : (s.sched c).runs = some p := by rw [hc]; rfl
  have hsw' : ((s.lockBy (.cpu c) i).threadGot p).sw p = if s.sw p = .exec then .exec else .yieldAt :=
    update_self _ _ _
  have hheld : ((s.lockBy (.cpu c) i).threadGot p).held p = i :: s.held p := by
    unfold wants at hw
    rcases hsw with hsw | hsw
    · rw [hsw] at hw
      simp only [held, threadGot, lockBy, update_self, hsw, if_true, Sw.held]
      exact held_got hw
    · rw [hsw] at hw
      cases hw
      simp [held, threadGot, lockBy, hsw, Sw.held]
  have t : ThreadStep s ((s.lockBy (.cpu c) i).threadGot p) c p := by
    refine ⟨rfl, rfl, .inl ⟨by rw [← hc, update_eq_self]; rfl, ?_⟩, fun q hq => .inl ⟨?_, ?_, rfl⟩,
      fun q hq => .inl hq, fun _ _ _ => h.running c p hc ?_ ?_, ?_, ?_⟩
    · rw [hsw']
      split <;> simp
    · simp [threadGot, lockBy, hq]
    · simp [threadGot, lockBy, hq]
    · rcases hsw with hsw | hsw <;> simp [hsw]
    · rcases hsw with hsw | hsw <;> simp [hsw]
    · rw [hsw']
      rcases hsw with hsw | hsw
      · simp [hsw]
      · simpa [threadGot, lockBy, hsw] using h.parked p (by simp [hsw])
    · rw [hsw']
      split <;> simp
  refine h.thread hruns t (h.owns.take hl ?_ fun b hb => t.heldBy_of_ne h hruns hb)
  rw [t.heldBy_self, hheld, hsw', if_neg (by split <;> simp)]
  simp [heldBy, hc]

/-- A slot given to a new process is switched out. -/
theorem off_of_born (h : s.Control) (hc : s.sched c = .out p) (hm : m.edit.From s p m)
    (hi : m.edit.born = some i) : i ≠ p ∧ s.sw i = .off := by
  rw [Edit.eq_fork_of_born hi] at hm
  obtain ⟨hsw, -, hpc, -, hun⟩ := hm
  have hrun := h.running c p hc (by simp [hsw]) (by simp [hsw])
  have hne : i ≠ p := by
    rintro rfl
    rw [hun] at hrun
    cases hrun
  exact ⟨hne, h.off_of_held hc (by simp [held, hsw, Sw.held, hpc, Pc.held]) hne (by simp [hun])⟩

/-- Only the process itself, on its way to `sched`, ends its RUNNING. -/
theorem state_running {n : ℤ} (hm : m.edit.From s p m) (hq : (s.proc q).state = .running) :
    (m.edit.apply n p s.proc q).state = .running ∨ q = p ∧ m.sw = .save := by
  -- a slot that is given another state was not RUNNING
  have hset : ∀ {i v}, (q = i → v.state = .running) → (update s.proc i v q).state = .running := by
    intro i v hv
    by_cases hqi : q = i
    · rw [← hqi, update_self]
      exact hv hqi
    · rwa [update_of_ne hqi]
  have hne : ∀ {i}, (s.proc i).state ≠ .running → q ≠ i := by
    rintro i hi rfl
    exact hi hq
  cases he : m.edit with
  | nothing => exact .inl hq
  | own | close | unchan | reparent => exact .inl (hset fun h => h ▸ hq)
  | wakeup ch i => exact .inl (hset fun h => by rw [← h]; simp [Proc.wakeup, hq])
  | kill i => exact .inl (hset fun h => by rw [← h]; simp [Proc.kill, hq])
  | fork i o =>
    rw [he] at hm
    exact .inl (hset fun h => absurd h (hne (by simp [hm.2.2.2.2])))
  | reap addr i =>
    rw [he] at hm
    exact .inl (hset fun h => absurd h (hne (by simp [hm.2.2.2.1])))
  | exit op st =>
    rw [he] at hm
    by_cases hqp : q = p
    · exact .inr ⟨hqp, hm.2.1⟩
    · left
      by_cases hqo : q = op
      · subst hqo
        simp [Edit.apply, hqp, Proc.wakeup, hq]
      · simpa [Edit.apply, hqp, hqo] using hq
  | yield | sleep ch =>
    rw [he] at hm
    by_cases hqp : q = p
    · exact .inr ⟨hqp, hm.2.1⟩
    · left
      simpa [Edit.apply, hqp] using hq

/-- The threads after a move. -/
theorem commit_threadStep (h : s.Control) (hc : s.sched c = .out p) (hm : s.Moves c p x m) :
    ThreadStep s (s.commit c p m) c p := by
  have hflow := hm.flow (h.out c p hc)
  have hfrom := hm.edit_from
  have hsw : (s.commit c p m).sw p = m.sw := update_self _ _ _
  have hpc : (s.commit c p m).pc p = m.pc := update_self _ _ _
  have hborn : ∀ i, m.edit.born = some i → i ≠ p ∧ s.sw i = .off := fun i hi =>
    h.off_of_born hc hfrom hi
  refine ⟨rfl, rfl, ?_, fun q hq => ?_, fun q hq => ?_, ?_, ?_, ?_⟩
  · rw [hsw]
    by_cases hoff : m.sw = .off
    · exact .inr ⟨by simp [commit, hoff], hoff⟩
    · exact .inl ⟨by rw [← hc, update_eq_self]; simp [commit, hoff], hoff⟩
  · by_cases hqb : m.edit.born = some q
    · refine .inr ⟨(hborn q hqb).2, ?_, ?_, ?_⟩
      · simp [commit, hq, hqb]
      · simp [commit, hq, hqb]
      · have hload : m.sw ≠ .load := by
          intro hload
          cases hflow <;> simp_all [Edit.born]
        simp [commit, hload, hqb]
    · refine .inl ⟨?_, ?_, ?_⟩
      · simp [commit, hq, updateAt_of_ne _ _ hqb]
      · simp [commit, hq, updateAt_of_ne _ _ hqb]
      · simp only [commit]
        split
        · rw [update_of_ne hq]
        · rw [updateAt_of_ne _ _ hqb]
  · rw [hsw]
    exact state_running hfrom hq
  · rw [hsw]
    intro hsave hload hoff
    have hbefore : s.sw p ≠ .save ∧ s.sw p ≠ .load := by cases hflow <;> simp_all
    exact h.running c p hc hbefore.1 hbefore.2
  · rw [hsw, hpc]
    intro hne
    have hpark := h.parked p
    cases hflow with
    | exec _ he | resume _ _ he => exact absurd he hne
    | sched _ _ hh => exact hh
    | timer _ hh heq => rw [heq]; exact hh
    | yield hs heq | save hs heq | load hs heq => rw [heq]; exact hpark (by simp [hs])
    | stuck _ _ hd _ => rw [hd]; rfl
  · rw [hsw, hpc]
    intro hor
    cases hflow with
    | save hs heq => subst heq; simp [commit]
    | load hs heq => subst heq; simp [commit, Edit.born, h.saved p (.inr hs)]
    | _ => simp_all

/-- The code up to the next lock, or half a switch. -/
theorem commit (h : s.Control) (hc : s.sched c = .out p) (hm : s.Moves c p x m) :
    (s.commit c p m).Control := by
  have t := h.commit_threadStep hc hm
  have hruns : (s.sched c).runs = some p := by rw [hc]; rfl
  refine h.thread hruns t (h.owns.leave (a := .cpu c) ?_ fun b hb => t.heldBy_of_ne h hruns hb)
  have hsw : (s.commit c p m).sw p = m.sw := update_self _ _ _
  have hpc : (s.commit c p m).pc p = m.pc := update_self _ _ _
  have hbefore : s.heldBy (.cpu c) = s.held p := by simp only [heldBy, hc]
  rw [t.heldBy_self, hbefore, hsw]
  split
  · -- the lock passes to the scheduler of the CPU
    rename_i hoff
    cases hm.flow (h.out c p hc) with
    | load hs heq =>
      subst heq
      simp only [held, hs, Sw.held]
      exact .refl
    | _ => simp_all
  · rename_i hoff
    have hafter : (s.commit c p m).held p = m.sw.held p m.pc := by rw [held, hsw, hpc]
    rw [hafter]
    exact hm.leaves (h.nodup_held hc) (h.out c p hc) (h.parked p) hoff

/-- A CPU whose scheduler holds the lock of a RUNNABLE process is the only one
to deal with that process. -/
theorem runs_ne_of_got (h : s.Control) (hc : s.sched c = .got i)
    (hs : (s.proc i).state ≠ .running) (hne : c' ≠ c) : (s.sched c').runs ≠ some i := by
  intro hr
  have hmem : i ∈ s.heldBy (.cpu c) := by simp [heldBy, hc]
  have hfalse : i ∉ s.heldBy (.cpu c') := fun hmem' => hne (by
    cases h.owns.eq_of_mem hmem' hmem
    rfl)
  cases hc' : s.sched c' with
  | scan _ | got _ => rw [hc'] at hr; cases hr
  | save j | load j | back j =>
    rw [hc'] at hr
    cases hr
    exact hfalse (by simp [heldBy, hc'])
  | out j =>
    rw [hc'] at hr
    cases hr
    have hoff := h.off_of_not_running hs fun c₂ hc₂ hl => hfalse (by
      rw [(h.owns.iff _ _).2 hmem] at hl
      cases hl
      rw [hc] at hc₂
      cases hc₂)
    exact h.out c' i hc' hoff

/-- A step of the scheduler of CPU `c` that leaves the threads alone. -/
structure SchedStep (s s' : ProcSys) (c : ℕ) (pc : SchedPc) : Prop where
  sched : s'.sched = update s.sched c pc
  cproc : s'.cproc c = pc.runs ∧ ∀ c', c' ≠ c → s'.cproc c' = s.cproc c'
  thread : s'.pc = s.pc ∧ s'.sw = s.sw ∧ s'.context = s.context
  intr : s'.intr = s.intr
  before : ∀ q, s.sched c ≠ .out q
  after : ∀ q, pc ≠ .out q
  one : ∀ q, pc.runs = some q → ∀ c', c' ≠ c → (s.sched c').runs ≠ some q
  state : ∀ q, (s.proc q).state = .running → (s'.proc q).state = .running
  entering : ∀ q, pc = .save q ∨ pc = .load q → (s'.proc q).state = .running

namespace SchedStep

variable {pc : SchedPc}

section

variable (t : SchedStep s s' c pc)
include t

theorem sched_of_ne (hne : c' ≠ c) : s'.sched c' = s.sched c' := by
  rw [t.sched, update_of_ne hne]

theorem sched_self : s'.sched c = pc := by
  rw [t.sched, update_self]

theorem out_iff : s'.sched c' = .out q ↔ s.sched c' = .out q := by
  by_cases hne : c' = c
  · subst hne
    rw [t.sched_self]
    exact ⟨fun h => absurd h (t.after q), fun h => absurd h (t.before q)⟩
  · rw [t.sched_of_ne hne]

theorem heldBy_of_ne (hb : b ≠ .cpu c) : s'.heldBy b = s.heldBy b := by
  cases b with
  | intr k => simp only [heldBy, t.intr]
  | cpu c' =>
    have hne : c' ≠ c := fun e => hb (by rw [e])
    simp only [heldBy, t.sched_of_ne hne, held, t.thread.1, t.thread.2.1]

end

end SchedStep

section

variable (h : s.Control)
include h

/-- **Control is kept by a scheduler's step** whose locks are accounted
for. -/
theorem schedule {pc : SchedPc} (t : SchedStep s s' c pc)
    (howns : Owns s'.lock s'.heldBy) : s'.Control where
  owns := howns
  cproc c' := by
    by_cases hne : c' = c
    · subst hne
      rw [t.cproc.1, t.sched_self]
    · rw [t.cproc.2 c' hne, t.sched_of_ne hne, h.cproc]
  one c₁ c₂ q h₁ h₂ := by
    by_cases hc₁ : c₁ = c <;> by_cases hc₂ : c₂ = c
    · rw [hc₁, hc₂]
    · rw [hc₁, t.sched_self] at h₁
      rw [t.sched_of_ne hc₂] at h₂
      exact absurd h₂ (t.one q h₁ c₂ hc₂)
    · rw [hc₂, t.sched_self] at h₂
      rw [t.sched_of_ne hc₁] at h₁
      exact absurd h₁ (t.one q h₂ c₁ hc₁)
    · rw [t.sched_of_ne hc₁] at h₁
      rw [t.sched_of_ne hc₂] at h₂
      exact h.one c₁ c₂ q h₁ h₂
  off q := by
    rw [t.thread.2.1]
    exact (h.off q).imp_right (Exists.imp fun _ => t.out_iff.2)
  out c' q hq := by
    rw [t.thread.2.1]
    exact h.out c' q (t.out_iff.1 hq)
  entering c' q hq := by
    by_cases hne : c' = c
    · subst hne
      rw [t.sched_self] at hq
      exact t.entering q hq
    · rw [t.sched_of_ne hne] at hq
      exact t.state q (h.entering c' q hq)
  running c' q hq hsave hload := by
    rw [t.thread.2.1] at hsave hload
    exact t.state q (h.running c' q (t.out_iff.1 hq) hsave hload)
  parked q hq := by
    rw [t.thread.2.1] at hq
    rw [t.thread.1]
    exact h.parked q hq
  saved q hq := by
    rw [t.thread.2.1] at hq
    rw [t.thread.1, t.thread.2.2]
    exact h.saved q hq

/-- The scheduler goes on with the lock it has, or without one. -/
theorem schedule_keep {pc : SchedPc} (t : SchedStep s s' c pc)
    (hlock : s'.lock = s.lock) (hheld : s'.heldBy (.cpu c) = s.heldBy (.cpu c)) : s'.Control :=
  h.schedule t (hlock ▸ h.owns.keep hheld fun _ => t.heldBy_of_ne)

theorem scan (hc : s.sched c = .scan i) (hl : s.lock i = none) :
    ((s.lockBy (.cpu c) i).schedAt c (.got i)).Control := by
  have t : SchedStep s ((s.lockBy (.cpu c) i).schedAt c (.got i)) c (.got i) :=
    ⟨rfl, ⟨(h.cproc c).trans (by rw [hc]; rfl), fun _ _ => rfl⟩, ⟨rfl, rfl, rfl⟩,
      rfl, by simp [hc], by simp, by simp [SchedPc.runs], fun q hq => hq, by simp⟩
  refine h.schedule t (h.owns.take hl ?_ fun b hb => t.heldBy_of_ne hb)
  simp [heldBy, schedAt, hc]

theorem wrap (hc : s.sched c = .scan i) : (s.schedAt c (.scan 0)).Control := by
  have t : SchedStep s (s.schedAt c (.scan 0)) c (.scan 0) :=
    ⟨rfl, ⟨(h.cproc c).trans (by rw [hc]; rfl), fun _ _ => rfl⟩, ⟨rfl, rfl, rfl⟩,
      rfl, by simp [hc], by simp, by simp [SchedPc.runs], fun q hq => hq, by simp⟩
  exact h.schedule_keep t rfl (by simp [heldBy, schedAt, hc])

theorem pick (hc : s.sched c = .got i) (hs : (s.proc i).state = .runnable) :
    ((s.pick c i).schedAt c (.save i)).Control := by
  have t : SchedStep s ((s.pick c i).schedAt c (.save i)) c (.save i) := by
    refine ⟨rfl, ⟨update_self _ _ _, fun c' hne => update_of_ne hne _ _⟩, ⟨rfl, rfl, rfl⟩, rfl,
      by simp [hc], by simp, fun q hq c' hne => ?_, fun q hq => ?_, fun q hq => ?_⟩
    · cases hq
      exact h.runs_ne_of_got hc (by simp [hs]) hne
    · by_cases hqi : q = i
      · subst hqi
        simp [schedAt, ProcSys.pick]
      · simpa [schedAt, ProcSys.pick, hqi] using hq
    · rcases hq with hq | hq <;> cases hq
      simp [schedAt, ProcSys.pick]
  exact h.schedule_keep t rfl (by simp [heldBy, schedAt, hc])

theorem save (hc : s.sched c = .save i) : (s.schedAt c (.load i)).Control := by
  have t : SchedStep s (s.schedAt c (.load i)) c (.load i) := by
    refine ⟨rfl, ⟨(h.cproc c).trans (by rw [hc]; rfl), fun _ _ => rfl⟩,
      ⟨rfl, rfl, rfl⟩, rfl, by simp [hc], by simp, fun q hq c' hne hr => ?_, fun q hq => hq,
      fun q hq => ?_⟩
    · cases hq
      exact hne (h.one c' c i hr (by rw [hc]; rfl))
    · rcases hq with hq | hq <;> cases hq
      exact h.entering c i (.inl hc)
  exact h.schedule_keep t rfl (by simp [heldBy, schedAt, hc])

theorem skip (hc : s.sched c = .got i) :
    ((s.leave (.cpu c) i).schedAt c (.scan (i + 1))).Control := by
  have t : SchedStep s ((s.leave (.cpu c) i).schedAt c (.scan (i + 1))) c (.scan (i + 1)) :=
    ⟨rfl, ⟨(h.cproc c).trans (by rw [hc]; rfl), fun _ _ => rfl⟩, ⟨rfl, rfl, rfl⟩,
      rfl, by simp [hc], by simp, by simp [SchedPc.runs], fun q hq => hq, by simp⟩
  refine h.schedule t (h.owns.leave (a := .cpu c) ?_ fun b hb => t.heldBy_of_ne hb)
  simpa [heldBy, schedAt, hc] using Leaves.one

theorem back (hc : s.sched c = .back i) :
    (({ s with cproc := update s.cproc c none }.leave (.cpu c) i).schedAt c
      (.scan (i + 1))).Control := by
  have t : SchedStep s (({ s with cproc := update s.cproc c none }.leave (.cpu c) i).schedAt c
      (.scan (i + 1))) c (.scan (i + 1)) :=
    ⟨rfl, ⟨update_self _ _ _, fun c' hne => update_of_ne hne _ _⟩, ⟨rfl, rfl, rfl⟩,
      rfl, by simp [hc], by simp, by simp [SchedPc.runs], fun q hq => hq, by simp⟩
  refine h.schedule t (h.owns.leave (a := .cpu c) ?_ fun b hb => t.heldBy_of_ne hb)
  simpa [heldBy, schedAt, hc] using Leaves.one

/-- The scheduler loads a context that has been saved. -/
theorem load (hc : s.sched c = .load i) : ((s.loadContext i).schedAt c (.out i)).Control := by
  have hruns : (s.sched c).runs = some i := by rw [hc]; rfl
  have hoff : s.sw i = .off := h.off_of_runs hruns (by simp [hc])
  have hctx : s.context i = s.pc i := h.saved i (.inl hoff)
  have hpc : ((s.loadContext i).schedAt c (.out i)).pc = s.pc := by
    simp [schedAt, loadContext, hctx]
  have hsw : ((s.loadContext i).schedAt c (.out i)).sw i = .resumed := update_self _ _ _
  have t : ThreadStep s ((s.loadContext i).schedAt c (.out i)) c i := by
    refine ⟨rfl, rfl, .inl ⟨rfl, by simp [hsw]⟩, fun q hq => .inl ⟨by rw [hpc], ?_, rfl⟩,
      fun q hq => .inl hq, fun _ _ _ => h.entering c i (.inr hc), fun _ => ?_, fun _ => ?_⟩
    · simp [schedAt, loadContext, hq]
    · rw [hpc]
      exact h.parked i (by simp [hoff])
    · rw [hpc]
      exact hctx
  refine h.thread hruns t (h.owns.keep (a := .cpu c) ?_ fun b hb => t.heldBy_of_ne h hruns hb)
  rw [t.heldBy_self, hsw]
  simp [heldBy, hc, held, hsw, Sw.held]

/-- A handler's step changes no thread, no CPU, and no RUNNING process. -/
theorem interrupt {pc : IntrPc} (hintr : s'.intr = update s.intr k pc)
    (hsame : s'.sched = s.sched ∧ s'.cproc = s.cproc ∧ s'.pc = s.pc ∧ s'.sw = s.sw ∧
      s'.context = s.context)
    (hstate : ∀ q, (s.proc q).state = .running → (s'.proc q).state = .running)
    (howns : (∀ b, b ≠ .intr k → s'.heldBy b = s.heldBy b) → Owns s'.lock s'.heldBy) :
    s'.Control := by
  obtain ⟨hsched, hcproc, hpc, hsw, hctx⟩ := hsame
  refine ⟨howns fun b hb => ?_, ?_, ?_, ?_, ?_, ?_, ?_, ?_, ?_⟩
  · cases b with
    | cpu c => simp only [heldBy, hsched, held, hpc, hsw]
    | intr k' =>
      have hne : k' ≠ k := fun e => hb (by rw [e])
      simp only [heldBy, hintr, update_of_ne hne]
  · rw [hsched, hcproc]
    exact h.cproc
  · rw [hsched]
    exact h.one
  · rw [hsched, hsw]
    exact h.off
  · rw [hsched, hsw]
    exact h.out
  · rw [hsched]
    exact fun c q hq => hstate q (h.entering c q hq)
  · rw [hsched, hsw]
    exact fun c q hq hsave hload => hstate q (h.running c q hq hsave hload)
  · rw [hpc, hsw]
    exact h.parked
  · rw [hpc, hsw, hctx]
    exact h.saved

end

theorem wakeup_running {ch : Chan} (t : ℕ → Proc) (hq : (t q).state = .running) :
    (update t i ((t i).wakeup ch) q).state = .running := by
  by_cases hqi : q = i
  · subst hqi
    simp [Proc.wakeup, hq]
  · simpa [hqi] using hq

end Control

/-- **Every step keeps control.** -/
theorem Step.control {a : ProcAct} (h : s.Control) (hs : s.Step a s') : s'.Control := by
  cases hs with
  | relock _ => exact h.relock
  | acquire hc hw hl => exact h.acquire hc hw hl
  | commit hc hm _ => exact h.commit hc hm
  | scan hc _ hl => exact h.scan hc hl
  | wrap hc => exact h.wrap hc
  | pick hc hr => exact h.pick hc hr
  | skip hc => exact h.skip hc
  | save hc => exact h.save hc
  | load hc => exact h.load hc
  | back hc => exact h.back hc
  | @intrCall k call pc hk _ hpc =>
    refine h.interrupt rfl ⟨rfl, rfl, rfl, rfl, rfl⟩ (fun q hq => hq) fun hother => ?_
    refine h.owns.keep ?_ hother
    rcases hpc with rfl | ⟨ch, rfl⟩ <;> simp [heldBy, intrAt, hk]
  | @visit k i ch call hk _ hl =>
    refine h.interrupt rfl ⟨rfl, rfl, rfl, rfl, rfl⟩ (fun q hq => hq) fun hother => ?_
    exact h.owns.take hl (by simp [heldBy, intrAt, hk]) hother
  | @visited k i ch call hk _ =>
    refine h.interrupt rfl ⟨rfl, rfl, rfl, rfl, rfl⟩ (fun q hq => hq) fun hother => ?_
    exact h.owns.keep (by simp [heldBy, intrAt, hk]) hother
  | @visiting k i ch call hk =>
    refine h.interrupt rfl ⟨rfl, rfl, rfl, rfl, rfl⟩
      (fun q hq => Control.wakeup_running s.proc hq) fun hother => ?_
    exact h.owns.leave (a := .intr k) (by simpa [heldBy, intrAt, hk] using Leaves.one) hother

end ProcSys

/-- **Control holds in every reachable state.** -/
theorem control_of_reachable (h : procSystem.Reachable s) : s.Control :=
  h.invariant (fun _ h0 => h0 ▸ ProcSys.Control.boot)
    fun _ _ _ _ hI hs => (ProcSys.step_of_run hs).control hI

end Xv6
