import Xv6.Pipe.Model
import Xv6.Proc.Order
/-!
# Inside the code of a pipe

What a step of the system of a pipe can be (`PipeSys.Step`), and what holds
at each place of the code (`PipeSys.Piped`): where in `proc.c` the thread of
a process can be, that it holds `pi->lock` between `acquire` and `release`
except while it sleeps, and what it has found in the pipe since it took the
lock, which nobody else can have changed.
-/

namespace Xv6

open Function

variable {s s' : PipeSys} {t : ProcSys} {pi : Pipe} {killed : Bool} {c p q i : ℕ}
  {x : PipeChoice} {m : PipeMove} {a : PipeAct} {ch : Chan}

/-! ## What a step can be -/

/-- **The ways through the code of the pipe**, with what a process finds on
each. -/
inductive PipeGoes (pi : Pipe) (killed : Bool) (x : PipeChoice) : PipePc → PipeMove → Prop
  | idle {r : ℤ} : PipeGoes pi killed x (.done r) { pc := .done r, pipe := pi }
  | writeLocks {n : ℤ} :
      PipeGoes pi killed x (.writeLock n)
        { pc := .writeFor n 0, pipe := pi, call := some (.take piLock) }
  | writeNext {n : ℤ} {i : ℕ} :
      PipeGoes pi killed x (.writeFor n i) { pc := .writeFull n i, pipe := pi }
  | writeDone {n : ℤ} {i : ℕ} :
      PipeGoes pi killed x (.writeFor n i) { pc := .writeEnd i, pipe := pi }
  /-- The early return. -/
  | writeFails {pc : PipePc} {n : ℤ} {i : ℕ} : pc = .writeFull n i ∨ pc = .writeSlept n i →
      pi.full → pi.readopen = false ∨ killed = true →
      PipeGoes pi killed x pc { pc := .unlock (-1), pipe := pi }
  | writeFull {pc : PipePc} {n : ℤ} {i : ℕ} : pc = .writeFull n i ∨ pc = .writeSlept n i →
      pi.full → pi.readopen = true → PipeGoes pi killed x pc { pc := .writeWake n i, pipe := pi }
  | writeRoom {pc : PipePc} {n : ℤ} {i : ℕ} : pc = .writeFull n i ∨ pc = .writeSlept n i →
      ¬ pi.full → PipeGoes pi killed x pc { pc := .writeCopy n i, pipe := pi }
  | writeWakes {n : ℤ} {i : ℕ} :
      PipeGoes pi killed x (.writeWake n i)
        { pc := .writeSleep n i, pipe := pi, call := some (.wakeup .nread) }
  | writeSleeps {n : ℤ} {i : ℕ} :
      PipeGoes pi killed x (.writeSleep n i)
        { pc := .writeSlept n i, pipe := pi, call := some (.sleep .nwrite piLock) }
  | writeFaults {n : ℤ} {i : ℕ} : x.copyin = none →
      PipeGoes pi killed x (.writeCopy n i) { pc := .writeEnd i, pipe := pi }
  | writeCopies {n : ℤ} {i : ℕ} {ch : UInt8} : x.copyin = some ch →
      PipeGoes pi killed x (.writeCopy n i) { pc := .writeStore n i ch, pipe := pi }
  | writeStores {n : ℤ} {i : ℕ} {ch : UInt8} :
      PipeGoes pi killed x (.writeStore n i ch)
        { pc := .writeFor n (i + 1), pipe := pi.put ch, accept := some ch }
  | writeEnds {i : ℕ} :
      PipeGoes pi killed x (.writeEnd i)
        { pc := .unlock i, pipe := pi, call := some (.wakeup .nread) }
  | readLocks {n : ℤ} :
      PipeGoes pi killed x (.readLock n)
        { pc := .readEmpty n, pipe := pi, call := some (.take piLock) }
  | readFails {pc : PipePc} {n : ℤ} : pc = .readEmpty n ∨ pc = .readSlept n → pi.empty →
      pi.writeopen = true → PipeGoes pi killed x pc { pc := .unlock (-1), pipe := pi }
  | readEmpty {pc : PipePc} {n : ℤ} : pc = .readEmpty n ∨ pc = .readSlept n → pi.empty →
      pi.writeopen = true → PipeGoes pi killed x pc { pc := .readSleep n, pipe := pi }
  | readStarts {pc : PipePc} {n : ℤ} : pc = .readEmpty n ∨ pc = .readSlept n →
      PipeGoes pi killed x pc { pc := .readFor n 0, pipe := pi }
  | readSleeps {n : ℤ} :
      PipeGoes pi killed x (.readSleep n)
        { pc := .readSlept n, pipe := pi, call := some (.sleep .nread piLock) }
  | readTakes {n : ℤ} {i : ℕ} : ¬ pi.empty →
      PipeGoes pi killed x (.readFor n i)
        { pc := .readCopy n i pi.next, pipe := pi.take, remove := some pi.next }
  | readDone {n : ℤ} {i : ℕ} :
      PipeGoes pi killed x (.readFor n i) { pc := .readEnd i, pipe := pi }
  | readCopies {n : ℤ} {i : ℕ} {ch : UInt8} : x.copyout = true →
      PipeGoes pi killed x (.readCopy n i ch)
        { pc := .readFor n (i + 1), pipe := pi, deliver := some ch }
  | readFaults {n : ℤ} {i : ℕ} {ch : UInt8} : x.copyout = false →
      PipeGoes pi killed x (.readCopy n i ch) { pc := .readEnd i, pipe := pi }
  | readEnds {i : ℕ} :
      PipeGoes pi killed x (.readEnd i)
        { pc := .unlock i, pipe := pi, call := some (.wakeup .nwrite) }
  | unlocks {r : ℤ} :
      PipeGoes pi killed x (.unlock r)
        { pc := .done r, pipe := pi, call := some (.drop piLock) }
  | closeLocks {w : Bool} :
      PipeGoes pi killed x (.closeLock w)
        { pc := .closeMark w, pipe := pi, call := some (.take piLock) }
  | closeMarks {w : Bool} :
      PipeGoes pi killed x (.closeMark w) { pc := .closeWake w, pipe := pi.close w }
  | closeWakes {w : Bool} :
      PipeGoes pi killed x (.closeWake w)
        { pc := .closeTest, pipe := pi, call := some (.wakeup (.closed w)) }
  | closeUnlocks {pc : PipePc} : pc = .closeFree ∨ pc = .done 0 →
      PipeGoes pi killed x .closeTest { pc, pipe := pi, call := some (.drop piLock) }
  | closeFrees : PipeGoes pi killed x .closeFree { pc := .done 0, pipe := pi, free := true }

/-- **The code goes one of them.** -/
theorem pipeMove_goes (pc : PipePc) : PipeGoes pi killed x pc (pipeMove pi killed x pc) := by
  cases pc with
  | done r => exact .idle
  | writeLock n => exact .writeLocks
  | writeFor n i =>
    simp only [pipeMove]
    split
    · exact .writeNext
    · exact .writeDone
  | writeFull n i | writeSlept n i =>
    simp only [pipeMove]
    split_ifs with hfull hfail
    · exact .writeFails (n := n) (i := i) (by simp) hfull hfail
    · rw [not_or, Bool.not_eq_false] at hfail
      exact .writeFull (by simp) hfull hfail.1
    · exact .writeRoom (by simp) hfull
  | writeWake n i => exact .writeWakes
  | writeSleep n i => exact .writeSleeps
  | writeCopy n i =>
    simp only [pipeMove]
    split
    · exact .writeFaults (by assumption)
    · exact .writeCopies (by assumption)
  | writeStore n i ch => exact .writeStores
  | writeEnd i => exact .writeEnds
  | readLock n => exact .readLocks
  | readEmpty n | readSlept n =>
    simp only [pipeMove]
    split_ifs with hempty
    · exact .readFails (n := n) (by simp) hempty.1 hempty.2
    · exact .readEmpty (by simp) hempty.1 hempty.2
    · exact .readStarts (by simp)
  | readSleep n => exact .readSleeps
  | readFor n i =>
    simp only [pipeMove]
    split_ifs with htake
    · exact .readTakes htake.2
    · exact .readDone
  | readCopy n i ch =>
    simp only [pipeMove]
    split_ifs with hx
    · exact .readCopies hx
    · exact .readFaults (by simpa using hx)
  | readEnd i => exact .readEnds
  | unlock r => exact .unlocks
  | closeLock w => exact .closeLocks
  | closeMark w => exact .closeMarks
  | closeWake w => exact .closeWakes
  | closeTest =>
    simp only [pipeMove]
    split
    · exact .closeUnlocks (.inl rfl)
    · exact .closeUnlocks (.inr rfl)
  | closeFree => exact .closeFrees

/-- What a call does to the processes. -/
inductive ProcSys.Called (t : ProcSys) (c p : ℕ) : Option Call → ProcSys → Prop
  | none : Called t c p none t
  | some {call : Call} : t.ExtFree (.proc p) (ProcSys.callMove p call).ext →
      Called t c p (some call) (t.commit c p (ProcSys.callMove p call))

namespace PipeSys

/-- **The steps.** -/
inductive Step (s : PipeSys) : PipeAct → PipeSys → Prop
  | proc {a : ProcAct} {t : ProcSys} : s.sys.Step a t → s.Outside a →
      Step s (.proc a) { s with sys := t }
  | enter {c p : ℕ} {op : PipeOp} : s.sys.sched c = .out p → s.sys.AtUser p →
      (s.pc p).inside = false → Step s (.enter c op) { s with pc := update s.pc p op.pc }
  | pipe {c p : ℕ} {x : PipeChoice} {m : PipeMove} {t : ProcSys} : s.sys.sched c = .out p →
      s.sys.AtUser p → (s.pc p).inside = true →
      PipeGoes s.pipe (s.sys.proc p).killed x (s.pc p) m → s.sys.Called c p m.call t →
      Step s (.pipe c x)
        { sys := t
          pipe := m.pipe
          pc := update s.pc p m.pc
          accepted := s.accepted ++ m.accept.toList
          removed := s.removed ++ m.remove.toList
          delivered := s.delivered ++ m.deliver.toList
          freed := s.freed || m.free }

/-- A call of a process that is in the kernel outside `proc.c`. -/
theorem run_call {call : Call} (hc : t.sched c = .out p) (hu : t.AtUser p)
    (hen : (ProcAct.run c { call }).Enabled t) :
    (ProcAct.run c { call }).next t = t.commit c p (ProcSys.callMove p call) ∧
      t.ExtFree (.proc p) (ProcSys.callMove p call).ext := by
  have hpre : ¬ t.preempted p { call } := fun h => by cases h.1
  have hw : t.wants p = none := by simp [ProcSys.wants, hu.1, hu.2, Sw.wants, Pc.wants]
  have hmove : t.move c p { call } = ProcSys.callMove p call := by
    simp [ProcSys.move, hu.1, hu.2, ProcSys.execMove]
  obtain ⟨-, hen⟩ := hen
  rw [hc] at hen
  have hen := hen.resolve_left hpre
  rw [hw] at hen
  rw [← hmove]
  exact ⟨by simp [ProcAct.next, hc, ProcSys.run, hpre, hw], hen.1⟩

theorem step_of_run (h : pipeSystem.step s a s') :
    s.Step a s' ∧ (s'.sys = s.sys ∨ ∃ b, procSystem.step s.sys b s'.sys) := by
  obtain ⟨hen, hs'⟩ := h
  change s' = a.next s at hs'
  subst hs'
  cases a with
  | proc a => exact ⟨.proc (ProcSys.step_of_run ⟨hen.1, rfl⟩) hen.2, .inr ⟨a, hen.1, rfl⟩⟩
  | enter c op =>
    simp only [PipeAct.Enabled] at hen
    cases hc : s.sys.sched c with
    | out p =>
      rw [hc] at hen
      have hnext : (PipeAct.enter c op).next s = { s with pc := update s.pc p op.pc } := by
        simp only [PipeAct.next, hc]
      rw [hnext]
      exact ⟨.enter hc hen.2.1 hen.2.2.1, .inl rfl⟩
    | _ => rw [hc] at hen; exact hen.elim
  | pipe c x =>
    simp only [PipeAct.Enabled] at hen
    cases hc : s.sys.sched c with
    | out p =>
      rw [hc] at hen
      obtain ⟨hu, hin, -, hcall⟩ := hen
      have hnext : (PipeAct.pipe c x).next s = s.run c p x := by simp only [PipeAct.next, hc]
      rw [hnext]
      have hgoes : PipeGoes s.pipe (s.sys.proc p).killed x (s.pc p) (s.move p x) := pipeMove_goes _
      cases hm : (s.move p x).call with
      | none =>
        refine ⟨?_, .inl (by simp [run, hm])⟩
        have := Step.pipe (t := s.sys) hc hu hin hgoes (by rw [hm]; exact .none)
        simpa only [run, hm] using this
      | some call =>
        rw [hm] at hcall
        obtain ⟨hcommit, hext⟩ := run_call hc hu hcall
        refine ⟨?_, .inr ⟨.run c { call }, hcall, by simp [run, hm]⟩⟩
        have := Step.pipe hc hu hin hgoes (by rw [hm]; exact .some hext)
        simpa only [run, hm, hcommit] using this
    | _ => rw [hc] at hen; exact hen.elim

/-- The processes of a pipe are processes. -/
theorem sys_of_reachable (h : pipeSystem.Reachable s) : procSystem.Reachable s.sys := by
  refine h.invariant (I := fun s => procSystem.Reachable s.sys) (fun s (h0 : s.Start) => h0.sys) ?_
  intro s a s' _ hI hs
  rcases (step_of_run hs).2 with heq | ⟨b, hb⟩
  · rw [heq]
    exact hI
  · exact hI.step hb

end PipeSys

/-! ## What holds where -/

/-- Between `acquire` and `release` of `pi->lock`. -/
def PipePc.locked : PipePc → Bool
  | .done _ | .writeLock _ | .readLock _ | .closeLock _ | .closeFree => false
  | _ => true

/-- The places of `sleep(ch, &pi->lock)`, and its end. -/
def Pc.InSleep (ch : Chan) : Pc → Prop
  | .user => True
  | .sleepSelf ch' l | .sleepAt ch' l | .sleepMark ch' l => ch' = ch ∧ l = piLock
  | .asleep l | .sleepLock l => l = piLock
  | _ => False

/-- Where in `proc.c` the thread of a process can be, by its place in the
code of the pipe. -/
def PipePc.Sits : PipePc → Pc → Prop
  | .done _, pc => pc.sleeping ≠ some piLock
  | .writeSlept _ _, pc => pc.InSleep .nwrite
  | .readSlept _, pc => pc.InSleep .nread
  | .writeSleep _ _, pc | .unlock _, pc | .closeTest, pc => pc = .user ∨ pc.waking ≠ none
  | _, pc => pc = .user

/-- What a process that sleeps on a channel waits for has not come. -/
def Pipe.Waits (pi : Pipe) (ch : Chan) : Prop :=
  (ch = .nread → pi.empty ∧ pi.writeopen = true) ∧ (ch = .nwrite → pi.full ∧ pi.readopen = true)

/-- What a process has found in the pipe since it took `pi->lock`. -/
def PipePc.Knows (pi : Pipe) : PipePc → Prop
  | .writeWake _ _ | .writeSleep _ _ => pi.Waits .nwrite
  | .writeCopy _ _ | .writeStore _ _ _ => ¬ pi.full
  | .readSleep _ => pi.Waits .nread
  | _ => True

/-- The same in `sleep`, where it still holds the lock. -/
def Pc.Asks (pi : Pipe) : Pc → Prop
  | .sleepSelf ch l | .sleepAt ch l => l = piLock → pi.Waits ch
  | _ => True

theorem Pc.got_sleeping {pc : Pc} (h : pc.wants p = some i) : pc.got.sleeping = pc.sleeping := by
  cases pc <;> simp_all [Pc.wants, Pc.got, Pc.sleeping]

theorem Pc.InSleep.got {pc : Pc} (hw : pc.wants p = some i) (h : pc.InSleep ch) :
    pc.got.InSleep ch := by
  cases pc <;> simp_all [Pc.wants, Pc.got, Pc.InSleep]

namespace PipePc

theorem sits_user (pp : PipePc) : pp.Sits .user := by
  cases pp <;> simp [Sits, Pc.InSleep, Pc.sleeping]

/-- The thread has taken the lock of a process. -/
theorem Sits.got {pp : PipePc} {pc : Pc} (hw : pc.wants p = some i) (h : pp.Sits pc) :
    pp.Sits pc.got := by
  have hne : pc ≠ .user := by
    rintro rfl
    cases hw
  cases pp with
  | done r =>
    show pc.got.sleeping ≠ some piLock
    rw [Pc.got_sleeping hw]
    exact h
  | writeSlept n i | readSlept n => exact Pc.InSleep.got hw h
  | writeSleep n i | unlock r | closeTest =>
    refine .inr ?_
    rw [ProcSys.got_waking hw]
    exact h.resolve_left hne
  | _ => exact absurd h hne

/-- **A thread outside the code of the pipe, or in a call of it.** -/
theorem Sits.moves {pp : PipePc} {x : Choice} {m : Move} (hm : t.Moves c p x m)
    (hout : t.AtUser p → ¬ t.preempted p x → pp.inside = false ∧ x.call.lock ≠ some piLock)
    (h : pp.Sits (t.pc p)) : pp.Sits m.pc := by
  cases hm.acts with
  | @exec pc _ hsw hpc hw hcall hg =>
    rw [hpc] at h
    by_cases hu : pc = .user
    · subst hu
      obtain ⟨hin, hlock⟩ := hout ⟨hsw, hpc⟩ (hcall rfl).1
      cases pp with
      | done r =>
        cases hg with
        | sleeps hx =>
          rw [hx] at hlock
          exact hlock
        | _ => simp [Sits, Pc.sleeping]
      | _ => cases hin
    · cases pp with
      | done r =>
        cases hg with
        | sleepDrops | sleepMarks => exact h
        | sleeps _ => exact absurd rfl hu
        | _ => simp [Sits, Pc.sleeping]
      | writeSlept n i | readSlept n =>
        cases hg with
        | sleepDrops => exact h
        | sleepMarks => exact h.2
        | sleepTakes | stands _ => trivial
        | _ => first | exact absurd rfl hu | exact h.elim
      | writeSleep n i | unlock r | closeTest =>
        have h := h.resolve_left hu
        cases hg with
        | woke => exact .inr (by simp [Pc.waking])
        | _ => first | exact .inl rfl | exact absurd rfl h
      | _ => exact absurd h hu
  | awakes _ hpc =>
    rw [hpc] at h
    cases pp with
    | writeSleep n i | unlock r | closeTest => simp [Sits, Pc.waking] at h
    | done r | writeSlept n i | readSlept n => exact h
    | _ => cases h
  | rescans _ hpc | revives _ hpc =>
    rw [hpc] at h
    cases pp with
    | done r => simp [Sits, Pc.sleeping]
    | writeSlept n i | readSlept n => exact h.elim
    | _ => simp [Sits, Pc.waking] at h
  | _ => exact h

end PipePc

theorem Pc.Asks.got {pc : Pc} (hw : pc.wants p = some i) (h : pc.Asks pi) : pc.got.Asks pi := by
  cases pc with
  | sleepSelf ch l => exact h
  | visit v j | exitInit _ | exitSelf _ | exitParent _ _ | exitBoth _ _ | reparentKid _ _ _
  | waitSelf _ | waitKid _ _ => trivial
  | _ => cases hw

theorem Pc.Asks.moves {x : Choice} {m : Move} (hm : t.Moves c p x m)
    (hout : t.AtUser p → ¬ t.preempted p x → x.call.lock ≠ some piLock)
    (h : (t.pc p).Asks pi) : m.pc.Asks pi := by
  cases hm.acts with
  | exec hsw hpc _ hcall hg =>
    cases hg with
    | sleeps hx =>
      have hlock := hout ⟨hsw, hpc⟩ (hcall rfl).1
      rw [hx] at hlock
      exact fun hl => absurd (by rw [hl]; rfl) hlock
    | _ => trivial
  | awakes _ _ | rescans _ _ | revives _ _ => trivial
  | _ => exact h

namespace PipeSys

/-- Process `p` holds `pi->lock`, by its place in the code. -/
def Holds (s : PipeSys) (p : ℕ) : Prop :=
  (s.pc p).locked = true ∧ (s.sys.pc p).released = none

/-- **What holds at each place.** -/
structure Piped (s : PipeSys) : Prop where
  live : ∀ p, (s.pc p).inside = true → (s.sys.proc p).state ≠ .unused
  sits : ∀ p, (s.pc p).Sits (s.sys.pc p)
  holds : ∀ p, s.Holds p → s.sys.xlock piLock = some (.proc p)
  knows : ∀ p, (s.pc p).Knows s.pipe
  asks : ∀ p, (s.sys.pc p).Asks s.pipe

namespace Piped

theorem start (h : s.Start) : s.Piped := by
  have hdone : ∀ p, ∃ r, s.pc p = .done r := fun p => by
    have := h.pc p
    cases hp : s.pc p with
    | done r => exact ⟨r, rfl⟩
    | _ => rw [hp] at this; cases this
  have hsleep : ∀ p, (s.sys.pc p).sleeping ≠ some piLock := fun p hp => by
    have hno := h.awake p
    cases hpc : s.sys.pc p with
    | sleepSelf ch l => rw [hpc] at hp; cases hp; exact (hno ch).1 hpc
    | sleepAt ch l => rw [hpc] at hp; cases hp; exact (hno ch).2.1 hpc
    | sleepMark ch l => rw [hpc] at hp; cases hp; exact (hno ch).2.2.1 hpc
    | asleep l => rw [hpc] at hp; cases hp; exact (hno .nread).2.2.2.1 hpc
    | sleepLock l => rw [hpc] at hp; cases hp; exact (hno .nread).2.2.2.2 hpc
    | _ => rw [hpc] at hp; cases hp
  refine ⟨fun p hp => ?_, fun p => ?_, fun p hp => ?_, fun p => ?_, fun p => ?_⟩
  · rw [h.pc p] at hp
    cases hp
  · obtain ⟨r, hr⟩ := hdone p
    rw [hr]
    exact hsleep p
  · obtain ⟨r, hr⟩ := hdone p
    rw [Holds, hr] at hp
    cases hp.1
  · obtain ⟨r, hr⟩ := hdone p
    rw [hr]
    trivial
  · have := hsleep p
    cases hpc : s.sys.pc p with
    | sleepSelf ch l | sleepAt ch l =>
      rw [hpc] at this
      exact fun hl => absurd (by rw [hl]; rfl) this
    | _ => trivial

/-- Only one process is between `acquire` and `release`. -/
theorem eq_of_holds (h : s.Piped) (hp : s.Holds p) (hq : s.Holds q) : p = q := by
  have := (h.holds p hp).symm.trans (h.holds q hq)
  rwa [Option.some.injEq, Owner.proc.injEq] at this

/-! ### Around the pipe -/

theorem outside_run {x : Choice} (hc : s.sys.sched c = .out p) (h : s.Outside (.run c x)) :
    s.sys.AtUser p → ¬ s.sys.preempted p x →
      (s.pc p).inside = false ∧ x.call.lock ≠ some piLock := by
  simpa only [Outside, hc] using h

theorem ne_dead {pp : PipePc} {pc : Pc} (hin : pp.inside = true) (h : pp.Sits pc) : pc ≠ .dead := by
  rintro rfl
  cases pp <;> simp_all [PipePc.inside, PipePc.Sits, Pc.InSleep, Pc.waking]

/-- A process in the code of the pipe is not reaped. -/
theorem not_zombie (h : s.Piped) (hr : procSystem.Reachable s.sys) (hp : (s.pc p).inside = true) :
    (s.sys.proc p).state ≠ .zombie :=
  fun hz => ne_dead hp (h.sits p) ((vigil_of_reachable hr p).1 hz)

theorem inside_of_locked {pp : PipePc} (h : pp.locked = true) : pp.inside = true := by
  cases pp <;> first | rfl | cases h

/-- **The lock**, after a move of a thread outside the code of the pipe or in
a call of it. -/
theorem holds_commit {x : Choice} {m : Move} (h : s.Piped) (hwak : s.sys.Waking)
    (hc : s.sys.sched c = .out p) (hm : s.sys.Moves c p x m) (hout : s.Outside (.run c x))
    (hlocked : (s.pc p).locked = true) (hrel : m.pc.released = none) :
    (s.sys.commit c p m).xlock piLock = some (.proc p) := by
  have hin := inside_of_locked hlocked
  have hx : (s.sys.commit c p m).xlock = m.ext.apply s.sys.xlock (.proc p) := rfl
  have hsits := h.sits p
  -- where it held the lock before, and the move leaves the locks alone
  have hsame : (s.sys.pc p).released = none → m.ext = .nothing →
      (s.sys.commit c p m).xlock piLock = some (.proc p) := fun hr he => by
    rw [hx, he]
    exact h.holds p ⟨hlocked, hr⟩
  cases hm.acts with
  | exec hsw hpc hw hcall hg =>
    rw [hpc] at hsits hsame
    cases hg with
    | sleepDrops | sleepMarks => cases hrel
    | @sleepTakes l =>
      have hl : l = piLock := by
        cases hpp : s.pc p <;> rw [hpp] at hsits hin <;>
          simp_all [PipePc.Sits, Pc.InSleep, Pc.waking, PipePc.inside]
      rw [hx, hl, Ext.apply, update_self]
    | stands hst =>
      obtain ⟨l, rfl⟩ | ⟨addr, rfl⟩ | rfl := Pc.parked_of_stands hst hw
      · exact absurd hsw (hwak.parked p l hpc)
      · exact hsame rfl rfl
      · exact hsame rfl rfl
    | takes _ | drops _ =>
      have := (outside_run hc hout ⟨hsw, hpc⟩ (hcall rfl).1).1
      rw [hin] at this
      cases this
    | _ => exact hsame rfl rfl
  | awakes _ _ => cases hrel
  | rescans _ hpc | revives _ hpc => exact hsame (by rw [hpc]; rfl) rfl
  | _ => exact hsame hrel rfl

/-- **A step outside the code of the pipe.** -/
theorem proc {a : ProcAct} (h : s.Piped) (hr : procSystem.Reachable s.sys) (hs : s.sys.Step a t)
    (hout : s.Outside a) : Piped { s with sys := t } := by
  have hctl := control_of_reachable hr
  have ht := tree_of_reachable hr
  refine ⟨fun p hp => ?_, fun p => ?_, fun p hp => ?_, h.knows, fun p => ?_⟩
  · exact ((hs.change hctl).parent hctl ht (h.live p hp) (h.not_zombie hr hp)).1
  · refine hs.place (P := fun _ q pc => (s.pc q).Sits pc) hctl ?_ ?_ ?_ ?_ ?_ h.sits p
    · exact fun _ _ _ _ _ _ h => h
    · exact fun q i pc hw h => h.got hw
    · exact fun _ _ _ q _ _ => (s.pc q).sits_user
    · exact fun _ _ _ h => h
    · rintro c p x m rfl hc hm _ h
      exact h.moves hm (outside_run hc hout)
  · obtain ⟨hlocked, hrel⟩ := hp
    cases hs.turn hctl p with
    | rests hq hr => exact hs.xlock_of_ne hq (h.holds p ⟨hlocked, hr.pc ▸ hrel⟩)
    | stays _ _ hx hr => exact hx ▸ h.holds p ⟨hlocked, hr.pc ▸ hrel⟩
    | got _ _ hx hw _ _ => exact hx ▸ h.holds p ⟨hlocked, (Pc.got_released hw).2⟩
    | moves hc hm hpc =>
      exact h.holds_commit (waking_of_reachable hr) hc hm hout hlocked (hpc ▸ hrel)
    | born hm he _ =>
      have hf := hm.edit_from
      rw [he] at hf
      exact absurd hf.2.2.2.2 (h.live p (inside_of_locked hlocked))
  · refine hs.place (P := fun _ _ pc => pc.Asks s.pipe) hctl ?_ ?_ ?_ ?_ ?_ h.asks p
    · exact fun _ _ _ _ _ _ h => h
    · exact fun q i pc hw h => h.got hw
    · exact fun _ _ _ _ _ _ => trivial
    · exact fun _ _ _ h => h
    · rintro c p x m rfl hc hm _ h
      exact h.moves hm fun hu hpre => (outside_run hc hout hu hpre).2

/-! ### In the code of the pipe -/

/-- What a process knows of the pipe it knows with the lock. -/
theorem holds_of_knows (h : s.Piped) :
    (s.Holds q ∨ ∀ pi', (s.pc q).Knows pi') ∧ (s.Holds q ∨ ∀ pi', (s.sys.pc q).Asks pi') := by
  have hsits := h.sits q
  refine ⟨?_, ?_⟩
  · cases hpp : s.pc q with
    | writeWake n i | writeCopy n i | writeStore n i ch | readSleep n =>
      rw [hpp] at hsits
      exact .inl ⟨by rw [hpp]; rfl, by rw [hsits]; rfl⟩
    | writeSleep n i =>
      rw [hpp] at hsits
      refine .inl ⟨by rw [hpp]; rfl, ?_⟩
      rcases hsits with hu | hw
      · rw [hu]
        rfl
      · cases hpc : s.sys.pc q <;> simp_all [Pc.waking, Pc.released]
    | _ => exact .inr fun _ => trivial
  · cases hpc : s.sys.pc q with
    | sleepSelf ch l | sleepAt ch l =>
      by_cases hl : l = piLock
      · left
        rw [hpc, hl] at hsits
        refine ⟨?_, by rw [hpc]; rfl⟩
        cases hpp : s.pc q <;> rw [hpp] at hsits <;>
          simp_all [PipePc.Sits, Pc.InSleep, Pc.waking, Pc.sleeping, PipePc.locked]
      · exact .inr fun _ hl' => absurd hl' hl
    | _ => exact .inr fun _ => trivial

/-- **The rule for a step of the code**: one process moves, and changes the
pipe only with the lock. -/
theorem of_move {pp : PipePc} {pi' : Pipe} {acc rem del : List UInt8} {fr : Bool} (h : s.Piped)
    (hlive : (s.sys.proc p).state ≠ .unused) (hproc : t.proc = s.sys.proc)
    (hpc : ∀ q, q ≠ p → t.pc q = s.sys.pc q) (hsits : pp.Sits (t.pc p))
    (hself : pp.locked = true → (t.pc p).released = none → t.xlock piLock = some (.proc p))
    (hother : ∀ q, q ≠ p → s.Holds q → t.xlock piLock = some (.proc q))
    (hknows : pp.Knows pi') (hasks : (t.pc p).Asks pi') (hpi : pi' = s.pipe ∨ s.Holds p) :
    Piped ⟨t, pi', update s.pc p pp, acc, rem, del, fr⟩ := by
  refine ⟨fun q hq => ?_, fun q => ?_, fun q hq => ?_, fun q => ?_, fun q => ?_⟩
  · show (t.proc q).state ≠ .unused
    rw [hproc]
    by_cases hqp : q = p
    · rwa [hqp]
    · exact h.live q (by simpa [hqp] using hq)
  · show (update s.pc p pp q).Sits (t.pc q)
    by_cases hqp : q = p
    · subst hqp
      rwa [update_self]
    · rw [update_of_ne hqp, hpc q hqp]
      exact h.sits q
  · by_cases hqp : q = p
    · subst hqp
      simp only [Holds, update_self] at hq
      exact hself hq.1 hq.2
    · refine hother q hqp ?_
      simpa [Holds, hqp, hpc q hqp] using hq
  · show (update s.pc p pp q).Knows pi'
    by_cases hqp : q = p
    · subst hqp
      rwa [update_self]
    · rw [update_of_ne hqp]
      rcases hpi with rfl | hp
      · exact h.knows q
      · exact h.holds_of_knows.1.resolve_left (fun hq => hqp (h.eq_of_holds hq hp)) pi'
  · show (t.pc q).Asks pi'
    by_cases hqp : q = p
    · subst hqp
      exact hasks
    · rw [hpc q hqp]
      rcases hpi with rfl | hp
      · exact h.asks q
      · exact h.holds_of_knows.2.resolve_left (fun hq => hqp (h.eq_of_holds hq hp)) pi'

theorem enter {op : PipeOp} (h : s.Piped) (hr : procSystem.Reachable s.sys)
    (hc : s.sys.sched c = .out p) (hu : s.sys.AtUser p) :
    Piped { s with pc := update s.pc p op.pc } := by
  have hrun := (control_of_reachable hr).running c p hc (by simp [hu.1]) (by simp [hu.1])
  refine h.of_move (by simp [hrun]) rfl (fun _ _ => rfl) ?_ (fun hl _ => ?_)
    (fun q _ hq => h.holds q hq) ?_ (h.asks p) (.inl rfl)
  · rw [hu.2]
    exact op.pc.sits_user
  · cases op <;> cases hl
  · cases op <;> trivial

/-- A move that edits nothing. -/
theorem commit_frame {m : Move} (he : m.edit = .nothing) :
    (t.commit c p m).proc = t.proc ∧ (∀ q, q ≠ p → (t.commit c p m).pc q = t.pc q) ∧
      (t.commit c p m).pc p = m.pc := by
  refine ⟨by simp [ProcSys.commit, he, Edit.apply], fun q hq => ?_, update_self _ _ _⟩
  simp [ProcSys.commit, he, Edit.born, hq]

section Moves

variable {pp : PipePc} {pi' : Pipe} {acc rem del : List UInt8} {fr : Bool}

theorem holds_user (hu : s.sys.AtUser p) (hl : (s.pc p).locked = true) : s.Holds p :=
  ⟨hl, by rw [hu.2]; rfl⟩

/-- A step without a call. -/
theorem quiet (h : s.Piped) (hu : s.sys.AtUser p) (hin : (s.pc p).inside = true)
    (hl : pp.locked = (s.pc p).locked) (hk : pp.Knows pi')
    (hpi : pi' = s.pipe ∨ (s.pc p).locked = true) :
    Piped ⟨s.sys, pi', update s.pc p pp, acc, rem, del, fr⟩ := by
  refine h.of_move (h.live p hin) rfl (fun _ _ => rfl) ?_ (fun hl' _ => ?_) (fun q _ hq => h.holds q hq) hk ?_
    (hpi.imp_right (holds_user hu))
  · rw [hu.2]
    exact pp.sits_user
  · exact h.holds p (holds_user hu (by rw [← hl, hl']))
  · rw [hu.2]
    trivial

/-- `acquire(&pi->lock)` -/
theorem locks (h : s.Piped) (hin : (s.pc p).inside = true)
    (hcall : s.sys.Called c p (some (.take piLock)) t) (hk : pp.Knows s.pipe) :
    Piped ⟨t, s.pipe, update s.pc p pp, acc, rem, del, fr⟩ := by
  cases hcall with
  | some hfree =>
    obtain ⟨hproc, hpc, hself⟩ := commit_frame (t := s.sys) (c := c) (p := p)
      (m := ProcSys.callMove p (.take piLock)) rfl
    refine h.of_move (h.live p hin) hproc hpc ?_ (fun _ _ => ?_) (fun q _ hq => ?_) hk ?_ (.inl rfl)
    · rw [hself]
      exact pp.sits_user
    · simp [ProcSys.commit, ProcSys.callMove, Ext.apply]
    · have hfree : s.sys.xlock piLock = none := hfree
      rw [h.holds q hq] at hfree
      cases hfree
    · rw [hself]
      trivial

/-- `release(&pi->lock)` -/
theorem unlocks (h : s.Piped) (hin : (s.pc p).inside = true)
    (hcall : s.sys.Called c p (some (.drop piLock)) t) (hl : pp.locked = false) (hk : pp.Knows s.pipe) :
    Piped ⟨t, s.pipe, update s.pc p pp, acc, rem, del, fr⟩ := by
  cases hcall with
  | some hfree =>
    obtain ⟨hproc, hpc, hself⟩ := commit_frame (t := s.sys) (c := c) (p := p)
      (m := ProcSys.callMove p (.drop piLock)) rfl
    refine h.of_move (h.live p hin) hproc hpc ?_ (fun hl' _ => ?_) (fun q hqp hq => ?_) hk ?_ (.inl rfl)
    · rw [hself]
      exact pp.sits_user
    · rw [hl] at hl'
      cases hl'
    · have hfree : s.sys.xlock piLock = some (.proc p) := hfree
      rw [h.holds q hq] at hfree
      cases hfree
      exact absurd rfl hqp
    · rw [hself]
      trivial

/-- `wakeup` or `sleep`, with the lock. -/
theorem calls {call : Call} (h : s.Piped) (hu : s.sys.AtUser p) (hin : (s.pc p).inside = true)
    (hcall : s.sys.Called c p (some call) t) (hl : (s.pc p).locked = true)
    (he : (ProcSys.callMove p call).edit = .nothing) (hx : (ProcSys.callMove p call).ext = .nothing)
    (hsits : pp.Sits (ProcSys.callMove p call).pc) (hk : pp.Knows s.pipe)
    (hasks : (ProcSys.callMove p call).pc.Asks s.pipe) :
    Piped ⟨t, s.pipe, update s.pc p pp, acc, rem, del, fr⟩ := by
  cases hcall with
  | some _ =>
    obtain ⟨hproc, hpc, hself⟩ := commit_frame (t := s.sys) (c := c) he
    have hxl : (s.sys.commit c p (ProcSys.callMove p call)).xlock = s.sys.xlock := by
      simp [ProcSys.commit, hx, Ext.apply]
    refine h.of_move (h.live p hin) hproc hpc (by rwa [hself]) (fun _ _ => ?_) (fun q _ hq => ?_) hk
      (by rwa [hself]) (.inl rfl)
    · rw [hxl]
      exact h.holds p (holds_user hu hl)
    · rw [hxl]
      exact h.holds q hq

/-- **A step of the code of the pipe.** -/
theorem pipe (h : s.Piped) (hu : s.sys.AtUser p) (hin : (s.pc p).inside = true)
    (hpp : s.pc p = pp) (hg : PipeGoes s.pipe killed x pp m) (hcall : s.sys.Called c p m.call t) :
    Piped ⟨t, m.pipe, update s.pc p m.pc, acc, rem, del, fr⟩ := by
  have hk := h.knows p
  have hquiet : m.call = none → m.pc.locked = pp.locked → m.pc.Knows m.pipe →
      (m.pipe = s.pipe ∨ pp.locked = true) →
      Piped ⟨t, m.pipe, update s.pc p m.pc, acc, rem, del, fr⟩ := by
    intro hno hl hk hpi
    rw [hno] at hcall
    cases hcall with
    | none => exact h.quiet hu hin (by rw [hl, hpp]) hk (by rwa [hpp])
  rw [hpp] at hk
  cases hg with
  | idle | writeNext | writeDone | writeFaults _ | readDone | readCopies _ | readFaults _
  | closeFrees => exact hquiet rfl rfl trivial (.inl rfl)
  | writeFails hor _ _ | readFails hor _ _ | readStarts hor =>
    obtain rfl | rfl := hor <;> exact hquiet rfl rfl trivial (.inl rfl)
  | writeFull hor hfull hopen =>
    have hw : s.pipe.Waits .nwrite := ⟨by simp [Chan.nread, Chan.nwrite], fun _ => ⟨hfull, hopen⟩⟩
    obtain rfl | rfl := hor <;> exact hquiet rfl rfl hw (.inl rfl)
  | writeRoom hor hfull => obtain rfl | rfl := hor <;> exact hquiet rfl rfl hfull (.inl rfl)
  | writeCopies _ => exact hquiet rfl rfl hk (.inl rfl)
  | writeStores | readTakes _ | closeMarks => exact hquiet rfl rfl trivial (.inr rfl)
  | readEmpty hor hempty hopen =>
    have hw : s.pipe.Waits .nread := ⟨fun _ => ⟨hempty, hopen⟩, by simp [Chan.nread, Chan.nwrite]⟩
    obtain rfl | rfl := hor <;> exact hquiet rfl rfl hw (.inl rfl)
  | writeLocks | readLocks | closeLocks => exact h.locks hin hcall trivial
  | unlocks => exact h.unlocks hin hcall rfl trivial
  | closeUnlocks hor => obtain rfl | rfl := hor <;> exact h.unlocks hin hcall rfl trivial
  | writeWakes =>
    exact h.calls hu hin hcall (by rw [hpp]; rfl) rfl rfl (.inr (by simp [ProcSys.callMove, Pc.waking]))
      hk trivial
  | writeEnds | readEnds | closeWakes =>
    exact h.calls hu hin hcall (by rw [hpp]; rfl) rfl rfl (.inr (by simp [ProcSys.callMove, Pc.waking]))
      trivial trivial
  | writeSleeps | readSleeps =>
    exact h.calls hu hin hcall (by rw [hpp]; rfl) rfl rfl ⟨rfl, rfl⟩ trivial fun _ => hk

end Moves

/-- **Every step keeps it.** -/
theorem step (h : s.Piped) (hr : procSystem.Reachable s.sys) (hs : s.Step a s') : s'.Piped := by
  cases hs with
  | proc hs hout => exact h.proc hr hs hout
  | enter hc hu _ => exact h.enter hr hc hu
  | pipe hc hu hin hg hcall => exact h.pipe hu hin rfl hg hcall

end Piped

theorem piped_of_reachable (h : pipeSystem.Reachable s) : s.Piped := by
  refine h.invariant (I := Piped) (fun s (h0 : s.Start) => .start h0) fun s a s' hr hI hs => ?_
  exact hI.step (sys_of_reachable hr) (step_of_run hs).1

/-! ## Runs by computation -/

/-- A pipe made as the machine has booted. -/
def boot : PipeSys where
  sys := .boot
  pipe := ⟨fun _ => 0, 0, 0, true, true⟩
  pc _ := .done 0
  accepted := []
  removed := []
  delivered := []
  freed := false

theorem boot_start : boot.Start where
  sys := .init rfl
  lock := rfl
  awake p ch := by simp [boot, ProcSys.boot]
  pipe := ⟨rfl, rfl, rfl, rfl⟩
  pc _ := rfl
  accepted := rfl
  removed := rfl
  delivered := rfl

/-- The process on CPU `c` makes `n` steps in the code of the pipe. -/
def pipes (c n : ℕ) : List PipeAct := List.replicate n (.pipe c {})

end PipeSys

end Xv6
