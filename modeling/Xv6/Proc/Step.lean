import Xv6.Proc.Model
/-!
# The steps of processes and CPUs

What a step can be, with everything it has found (`ProcSys.Step`); the ways
a thread can go through the code (`ProcSys.Goes`); where in the code each
edit of the table is made (`Edit.From`); which locks a thread leaves in a
move (`Moves.leaves`); and how a thread goes out to the scheduler and comes
back (`ProcSys.Flow`).
-/

namespace Xv6

open Common Function

variable {s s' : ProcSys} {c p q i k : ℕ} {x : Choice} {m : Move} {a : Agent}

@[simp] theorem updateAt_none {α : Type} (f : ℕ → α) (v : α) : updateAt f none v = f := rfl

@[simp] theorem updateAt_some {α : Type} (f : ℕ → α) (i : ℕ) (v : α) :
    updateAt f (some i) v = update f i v := rfl

theorem updateAt_of_ne {α : Type} (f : ℕ → α) {o : Option ℕ} (v : α) (h : o ≠ some q) :
    updateAt f o v q = f q := by
  cases o with
  | none => rfl
  | some i =>
    have hne : q ≠ i := fun e => h (by rw [e])
    exact update_of_ne hne _ _

theorem Edit.eq_fork_of_born {e : Edit} (h : e.born = some i) : e = .fork i .ok := by
  cases e with
  | fork j o => cases o <;> simp_all [Edit.born]
  | _ => simp [Edit.born] at h

/-- Of the process a CPU runs, if it runs one. -/
instance (pc : SchedPc) (Q : ℕ → Prop) [DecidablePred Q] : Decidable (∀ p, pc = .out p → Q p) :=
  match pc with
  | .out p => decidable_of_iff (Q p) (by simp)
  | .scan _ | .got _ | .save _ | .load _ | .back _ => .isTrue (by simp)

namespace ProcSys

/-! ## What a step can be -/

/-- The moves the thread of process `p` can make on CPU `c`: a timer
interrupt, or the code it is in. -/
inductive Moves (s : ProcSys) (c p : ℕ) (x : Choice) : Move → Prop
  | timer : s.preempted p x → Moves s c p x { pc := s.pc p, sw := .yieldSelf }
  | code : ¬ s.preempted p x → s.wants p = none →
      (s.sw p = .exec ∧ s.pc p = .user → s.CallOk (.proc p) x.call) →
      Moves s c p x (s.move c p x)

/-- **The steps.** -/
inductive Step (s : ProcSys) : ProcAct → ProcSys → Prop
  /-- The kernel panics in `acquire`; a process that does was about to take a
  lock. -/
  | relock {a : ProcAct} : (∀ c x p, a = .run c x → s.sched c = .out p → s.wants p ≠ none) →
      Step s a s.relock
  | acquire {c p i : ℕ} {x : Choice} : s.sched c = .out p → s.wants p = some i →
      s.lock i = none → Step s (.run c x) ((s.lockBy (.cpu c) i).threadGot p)
  | commit {c p : ℕ} {x : Choice} {m : Move} : s.sched c = .out p → s.Moves c p x m →
      s.ExtFree (.proc p) m.ext → Step s (.run c x) (s.commit c p m)
  | scan {c i : ℕ} : s.sched c = .scan i → i < NPROC → s.lock i = none →
      Step s (.schedule c) ((s.lockBy (.cpu c) i).schedAt c (.got i))
  | wrap {c i : ℕ} : s.sched c = .scan i → Step s (.schedule c) (s.schedAt c (.scan 0))
  | pick {c i : ℕ} : s.sched c = .got i → (s.proc i).state = .runnable →
      Step s (.schedule c) ((s.pick c i).schedAt c (.save i))
  | skip {c i : ℕ} : s.sched c = .got i →
      Step s (.schedule c) ((s.leave (.cpu c) i).schedAt c (.scan (i + 1)))
  | save {c i : ℕ} : s.sched c = .save i → Step s (.schedule c) (s.schedAt c (.load i))
  | load {c i : ℕ} : s.sched c = .load i →
      Step s (.schedule c) ((s.loadContext i).schedAt c (.out i))
  | back {c i : ℕ} : s.sched c = .back i →
      Step s (.schedule c)
        (({ s with cproc := update s.cproc c none }.leave (.cpu c) i).schedAt c (.scan (i + 1)))
  | intrCall {k : ℕ} {call : Call} {pc : IntrPc} : s.intr k = .idle →
      s.ExtFree (.intr k) (intrExt call) → (pc = .idle ∨ ∃ ch, pc = .visit ch 0) →
      Step s (.interrupt k call) ((s.intrCall k call).intrAt k pc)
  | visit {k i : ℕ} {ch : Chan} {call : Call} : s.intr k = .visit ch i → i < NPROC →
      s.lock i = none →
      Step s (.interrupt k call) ((s.lockBy (.intr k) i).intrAt k (.visiting ch i))
  | visited {k i : ℕ} {ch : Chan} {call : Call} : s.intr k = .visit ch i → ¬ i < NPROC →
      Step s (.interrupt k call) (s.intrAt k .idle)
  | visiting {k i : ℕ} {ch : Chan} {call : Call} : s.intr k = .visiting ch i →
      Step s (.interrupt k call)
        (((s.wakeupAt ch i).leave (.intr k) i).intrAt k (.visit ch (i + 1)))

theorem lock_eq_none (h : s.Free a i) (hne : ¬ s.holding a i) : s.lock i = none :=
  h.resolve_right fun hl => hne (by simp [holding, hl])

theorem run_step (hc : s.sched c = .out p) (h : s.RunEnabled c p x) :
    s.Step (.run c x) (s.run c p x) := by
  unfold run
  split
  · rename_i hpre
    exact .commit hc (.timer hpre) trivial
  · rename_i hpre
    have h := h.resolve_left hpre
    cases hw : s.wants p with
    | none =>
      rw [hw] at h
      exact .commit hc (.code hpre hw h.2) h.1
    | some i =>
      rw [hw] at h
      dsimp only
      split
      · refine .relock fun c' x' p' ha hc' => ?_
        cases ha
        rw [hc] at hc'
        cases hc'
        simp [hw]
      · rename_i hne
        exact .acquire hc hw (lock_eq_none h hne)

theorem schedule_step (h : s.ScheduleEnabled c (s.sched c)) :
    s.Step (.schedule c) (s.schedule c) := by
  unfold schedule
  cases hc : s.sched c with
  | scan i =>
    rw [hc] at h
    dsimp only
    split
    · rename_i hi
      split
      · exact .relock nofun
      · rename_i hne
        exact .scan hc hi (lock_eq_none (h hi) hne)
    · exact .wrap hc
  | got i =>
    dsimp only
    split
    · rename_i hr
      exact .pick hc hr
    · exact .skip hc
  | save i => exact .save hc
  | load i => exact .load hc
  | out p => rw [hc] at h; exact h.elim
  | back i => exact .back hc

theorem interrupt_step {call : Call} (h : s.InterruptEnabled k call (s.intr k)) :
    s.Step (.interrupt k call) (s.interrupt k call) := by
  unfold interrupt
  cases hk : s.intr k with
  | idle =>
    rw [hk] at h
    refine .intrCall hk h ?_
    cases call <;> simp
  | visit ch i =>
    rw [hk] at h
    dsimp only
    split
    · rename_i hi
      split
      · exact .relock nofun
      · rename_i hne
        exact .visit hk hi (lock_eq_none (h hi) hne)
    · rename_i hi
      exact .visited hk hi
  | visiting ch i => exact .visiting hk

/-- **What a step can be**, with everything it has found. -/
theorem step_of_run {a : ProcAct} (h : procSystem.step s a s') : s.Step a s' := by
  obtain ⟨hen, rfl⟩ := h
  cases a with
  | run c x =>
    obtain ⟨-, hen⟩ := hen
    simp only [ProcAct.next]
    split at hen
    · rename_i p hc
      exact run_step hc hen
    · exact hen.elim
  | schedule c => exact schedule_step hen.2
  | interrupt k call => exact interrupt_step hen.2

end ProcSys

/-! ## The ways through the code -/

/-- Where the code is about to take a process's lock, whatever its slot, or
has left the CPU. -/
def Pc.stands : Pc → Bool
  | .exitInit _ | .exitSelf _ | .exitParent _ _ | .exitBoth _ _ | .reparentKid _ _ _ | .waitSelf _
  | .waitKid _ _ | .sleepSelf _ _ | .asleep _ | .waiting _ | .dead => true
  | _ => false

/-- A thread that stands and takes no lock has left the CPU. -/
theorem Pc.parked_of_stands {pc : Pc} (h : pc.stands = true) (hw : pc.wants p = none) :
    (∃ l, pc = .asleep l) ∨ (∃ addr, pc = .waiting addr) ∨ pc = .dead := by
  cases pc <;> simp_all [Pc.stands, Pc.wants]

namespace ProcSys

/-- **The ways through the code** that the thread of process `p` runs, with
what it finds on each. -/
inductive Goes (s : ProcSys) (c p : ℕ) (x : Choice) : Pc → Move → Prop
  | initExits {st : ℤ} : x.call = .exit st → p = initproc →
      Goes s c p x .user { pc := .user, panic := some .initExiting }
  | exits {st : ℤ} : x.call = .exit st → p ≠ initproc →
      Goes s c p x .user { edit := .close, pc := .exitInit st }
  | forks : x.call = .fork → Goes s c p x .user { pc := .visit .allocproc 0 }
  | waits {addr : ℕ} : x.call = .wait addr → Goes s c p x .user { pc := .waitSelf addr }
  | kills {pid : ℤ} : x.call = .kill pid → Goes s c p x .user { pc := .visit (.kill pid) 0 }
  | wakes {ch : Chan} : x.call = .wakeup ch → Goes s c p x .user { pc := .visit (.wakeup ch) 0 }
  | sleeps {ch : Chan} {l : ℕ} : x.call = .sleep ch l →
      Goes s c p x .user { pc := .sleepSelf ch l }
  | takes {l : ℕ} : x.call = .take l → Goes s c p x .user { ext := .take l, pc := .user }
  | drops {l : ℕ} : x.call = .drop l → Goes s c p x .user { ext := .drop l, pc := .user }
  | owns {ofile : Fin NOFILE → Bool} {sz : ℕ} {fault : Bool} : x.call = .own ofile sz fault →
      Goes s c p x .user { edit := .own ofile sz fault, pc := .user }
  /-- The loops over the table. -/
  | loopEnds {v : Visit} {i : ℕ} : Goes s c p x (.visit v i) { pc := .user }
  | woke {ch : Chan} {i : ℕ} :
      Goes s c p x (.visiting (.wakeup ch) i)
        { edit := .wakeup ch i, unlock := [i], pc := .visit (.wakeup ch) (i + 1) }
  | killed {pid : ℤ} {i : ℕ} : (s.proc i).pid = pid →
      Goes s c p x (.visiting (.kill pid) i) { edit := .kill i, unlock := [i], pc := .user }
  | killNext {pid : ℤ} {i : ℕ} : (s.proc i).pid ≠ pid →
      Goes s c p x (.visiting (.kill pid) i) { unlock := [i], pc := .visit (.kill pid) (i + 1) }
  | forked {i : ℕ} : (s.proc i).state = .unused →
      Goes s c p x (.visiting .allocproc i)
        { edit := .fork i x.alloc, unlock := [i], pc := .user }
  | forkNext {i : ℕ} : (s.proc i).state ≠ .unused →
      Goes s c p x (.visiting .allocproc i) { unlock := [i], pc := .visit .allocproc (i + 1) }
  /-- `exit` -/
  | wokeInit {st : ℤ} :
      Goes s c p x (.exitInitAt st)
        { edit := .wakeup (.proc initproc) initproc, unlock := [initproc], pc := .exitSelf st,
          panic := s.wakeup1Check c initproc }
  | readParent {st : ℤ} {op : ℕ} : (s.proc p).parent = some op →
      Goes s c p x (.exitSelfAt st) { unlock := [p], pc := .exitParent st op }
  | noParent {st : ℤ} : (s.proc p).parent = none →
      Goes s c p x (.exitSelfAt st) { pc := .exitSelfAt st, panic := some .noParent }
  | reparentKid {st : ℤ} {op i : ℕ} : i < NPROC → (s.proc i).parent = some p →
      Goes s c p x (.reparent st op i) { pc := .reparentKid st op i }
  | reparentNext {st : ℤ} {op i : ℕ} : i < NPROC → (s.proc i).parent ≠ some p →
      Goes s c p x (.reparent st op i) { pc := .reparent st op (i + 1) }
  | reparentEnds {st : ℤ} {op i : ℕ} : ¬ i < NPROC →
      Goes s c p x (.reparent st op i) { pc := .exitEnd st op }
  | reparented {st : ℤ} {op i : ℕ} :
      Goes s c p x (.reparentAt st op i)
        { edit := .reparent i, unlock := [i], pc := .reparent st op (i + 1) }
  | exited {st : ℤ} {op : ℕ} :
      Goes s c p x (.exitEnd st op)
        { edit := .exit op st, unlock := [op], pc := .dead, sw := .save,
          panic := s.wakeup1Check c op }
  /-- `wait` -/
  | waitKid {addr i : ℕ} {havekids : Bool} : i < NPROC → (s.proc i).parent = some p →
      Goes s c p x (.waitScan addr i havekids) { pc := .waitKid addr i }
  | waitNext {addr i : ℕ} {havekids : Bool} : i < NPROC → (s.proc i).parent ≠ some p →
      Goes s c p x (.waitScan addr i havekids) { pc := .waitScan addr (i + 1) havekids }
  | waitFails {addr i : ℕ} {havekids : Bool} : ¬ i < NPROC →
      havekids = false ∨ (s.proc p).killed = true →
      Goes s c p x (.waitScan addr i havekids) { pc := .waitRet (-1) }
  | waitSleeps {addr i : ℕ} : ¬ i < NPROC → (s.proc p).killed = false →
      Goes s c p x (.waitScan addr i true)
        { edit := .sleep (.proc p), pc := .waiting addr, sw := .save }
  | waitFaults {addr i : ℕ} : (s.proc i).state = .zombie → addr ≠ 0 → x.copyout = false →
      Goes s c p x (.waitAt addr i) { unlock := [i], pc := .waitRet (-1) }
  | waitReaps {addr i : ℕ} : (s.proc i).state = .zombie → addr = 0 ∨ x.copyout = true →
      Goes s c p x (.waitAt addr i)
        { edit := .reap addr i, unlock := [i], pc := .waitRet (s.proc i).pid }
  | waitAlive {addr i : ℕ} : (s.proc i).state ≠ .zombie →
      Goes s c p x (.waitAt addr i) { unlock := [i], pc := .waitScan addr (i + 1) true }
  | waitReturns {r : ℤ} : Goes s c p x (.waitRet r) { unlock := [p], pc := .user }
  /-- `sleep` -/
  | sleepDrops {ch : Chan} {l : ℕ} :
      Goes s c p x (.sleepAt ch l) { ext := .drop l, pc := .sleepMark ch l }
  | sleepMarks {ch : Chan} {l : ℕ} :
      Goes s c p x (.sleepMark ch l) { edit := .sleep ch, pc := .asleep l, sw := .save }
  | sleepTakes {l : ℕ} : Goes s c p x (.sleepLock l) { ext := .take l, pc := .user }
  /-- Where it takes a lock, or is on no CPU. -/
  | stands {pc : Pc} : pc.stands = true → Goes s c p x pc { pc := .user }

/-- **The code goes one of them.** -/
theorem execMove_goes (pc : Pc) : s.Goes c p x pc (s.execMove c p x pc) := by
  cases pc with
  | user =>
    show s.Goes c p x .user (callMove p x.call)
    cases hcall : x.call with
    | fork => exact .forks hcall
    | exit st =>
      simp only [callMove]
      split
      · exact .initExits hcall (by assumption)
      · exact .exits hcall (by assumption)
    | wait addr => exact .waits hcall
    | kill pid => exact .kills hcall
    | wakeup ch => exact .wakes hcall
    | sleep ch l => exact .sleeps hcall
    | take l => exact .takes hcall
    | drop l => exact .drops hcall
    | own ofile sz fault => exact .owns hcall
  | visit v i => exact .loopEnds
  | visiting v i =>
    show s.Goes c p x (.visiting v i) (s.visitMove x i v)
    cases v with
    | wakeup ch => exact .woke
    | kill pid =>
      simp only [visitMove]
      split
      · exact .killed (by assumption)
      · exact .killNext (by assumption)
    | allocproc =>
      simp only [visitMove]
      split
      · exact .forked (by assumption)
      · exact .forkNext (by assumption)
  | exitInitAt st => exact .wokeInit
  | exitSelfAt st =>
    simp only [execMove]
    split
    · exact .readParent (by assumption)
    · exact .noParent (by assumption)
  | reparent st op i =>
    simp only [execMove]
    split_ifs with hi hpar
    · exact .reparentKid hi hpar
    · exact .reparentNext hi hpar
    · exact .reparentEnds hi
  | reparentAt st op i => exact .reparented
  | exitEnd st op => exact .exited
  | waitScan addr i havekids =>
    simp only [execMove]
    split_ifs with hi hpar hend
    · exact .waitKid hi hpar
    · exact .waitNext hi hpar
    · exact .waitFails hi (by simpa using hend)
    · simp only [Bool.or_eq_true, Bool.not_eq_true', not_or, Bool.not_eq_false,
        Bool.not_eq_true] at hend
      rw [hend.1]
      exact .waitSleeps hi hend.2
  | waitAt addr i =>
    simp only [execMove]
    split_ifs with hz hx
    · exact .waitFaults hz hx.1 (by simpa using hx.2)
    · exact .waitReaps hz (by simpa [imp_iff_not_or] using hx)
    · exact .waitAlive hz
  | waitRet r => exact .waitReturns
  | sleepAt ch l => exact .sleepDrops
  | sleepMark ch l => exact .sleepMarks
  | sleepLock l => exact .sleepTakes
  | _ => exact .stands rfl

/-- **The moves of a thread**: it is interrupted, runs the code it is in, or
is on the way out to the scheduler and back. -/
inductive Acts (s : ProcSys) (c p : ℕ) (x : Choice) : Move → Prop
  | timer : s.preempted p x → Acts s c p x { pc := s.pc p, sw := .yieldSelf }
  | exec {pc : Pc} {m : Move} : s.sw p = .exec → s.pc p = pc → pc.wants p = none →
      (pc = .user → ¬ s.preempted p x ∧ s.CallOk (.proc p) x.call) → s.Goes c p x pc m →
      Acts s c p x m
  | yield : s.sw p = .yieldAt → Acts s c p x { edit := .yield, pc := s.pc p, sw := .save }
  | save : s.sw p = .save → Acts s c p x { pc := s.pc p, sw := .load }
  | load : s.sw p = .load → Acts s c p x { pc := s.pc p, sw := .off }
  | off : s.sw p = .off → Acts s c p x { pc := s.pc p, sw := .off }
  /-- The end of `sleep`, of the `sleep` in `wait`, and of `exit`, which is
  not reached; and of `yield` and `forkret`. -/
  | awakes {l : ℕ} : s.sw p = .resumed → s.pc p = .asleep l →
      Acts s c p x { edit := .unchan, unlock := [p], pc := .sleepLock l }
  | rescans {addr : ℕ} : s.sw p = .resumed → s.pc p = .waiting addr →
      Acts s c p x { edit := .unchan, pc := .waitScan addr 0 false }
  | revives : s.sw p = .resumed → s.pc p = .dead →
      Acts s c p x { pc := .dead, sw := .resumed, panic := some .zombieExit }
  | resumes : s.sw p = .resumed → (∀ l, s.pc p ≠ .asleep l) → (∀ addr, s.pc p ≠ .waiting addr) →
      s.pc p ≠ .dead → Acts s c p x { unlock := [p], pc := s.pc p }

theorem Moves.acts (hm : s.Moves c p x m) : s.Acts c p x m := by
  cases hm with
  | timer hpre => exact .timer hpre
  | code hpre hw hcall =>
    unfold wants at hw
    unfold move
    cases hsw : s.sw p with
    | exec =>
      rw [hsw] at hw
      exact .exec hsw rfl hw (fun hpc => ⟨hpre, hcall ⟨hsw, hpc⟩⟩) (execMove_goes _)
    | yieldSelf => rw [hsw] at hw; cases hw
    | yieldAt => exact .yield hsw
    | save => exact .save hsw
    | load => exact .load hsw
    | off => exact .off hsw
    | resumed =>
      cases hpc : s.pc p with
      | asleep l => exact .awakes hsw hpc
      | waiting addr => exact .rescans hsw hpc
      | dead => exact .revives hsw hpc
      | _ =>
        have := Acts.resumes (x := x) (c := c) hsw (by simp [hpc]) (by simp [hpc]) (by simp [hpc])
        rwa [hpc] at this

end ProcSys

/-! ## Where an edit comes from -/

/-- Where in the code of process `p` each edit is made, with what the code
has found there. -/
def Edit.From (s : ProcSys) (p : ℕ) (m : Move) : Edit → Prop
  | .nothing => True
  | .own _ _ _ => s.sw p = .exec ∧ s.pc p = .user ∧ m.pc = .user ∧ m.sw = .exec
  | .close =>
    s.sw p = .exec ∧ s.pc p = .user ∧ p ≠ initproc ∧ (∃ st, m.pc = .exitInit st) ∧ m.sw = .exec
  | .wakeup ch i =>
    s.sw p = .exec ∧ m.sw = .exec ∧ i ∈ (s.pc p).held p ∧
      (s.pc p = .visiting (.wakeup ch) i ∧ m.pc = .visit (.wakeup ch) (i + 1) ∨
        ∃ st, s.pc p = .exitInitAt st ∧ i = initproc ∧ ch = .proc initproc ∧ m.pc = .exitSelf st)
  | .kill i =>
    s.sw p = .exec ∧ m.sw = .exec ∧ m.pc = .user ∧
      ∃ pid, s.pc p = .visiting (.kill pid) i ∧ (s.proc i).pid = pid
  | .fork i _ =>
    s.sw p = .exec ∧ m.sw = .exec ∧ s.pc p = .visiting .allocproc i ∧ m.pc = .user ∧
      (s.proc i).state = .unused
  | .reparent i =>
    s.sw p = .exec ∧ m.sw = .exec ∧
      ∃ st op, s.pc p = .reparentAt st op i ∧ m.pc = .reparent st op (i + 1)
  | .exit op st => s.sw p = .exec ∧ m.sw = .save ∧ s.pc p = .exitEnd st op ∧ m.pc = .dead
  | .reap addr i =>
    s.sw p = .exec ∧ m.sw = .exec ∧ s.pc p = .waitAt addr i ∧ (s.proc i).state = .zombie ∧
      m.pc = .waitRet (s.proc i).pid
  | .yield => s.sw p = .yieldAt ∧ m.sw = .save ∧ m.pc = s.pc p
  | .sleep ch =>
    s.sw p = .exec ∧ m.sw = .save ∧
      ((∃ l, s.pc p = .sleepMark ch l ∧ m.pc = .asleep l) ∨
        ∃ addr i, s.pc p = .waitScan addr i true ∧ NPROC ≤ i ∧ (s.proc p).killed = false ∧
          ch = .proc p ∧ m.pc = .waiting addr)
  | .unchan =>
    s.sw p = .resumed ∧ m.sw = .exec ∧
      ((∃ l, s.pc p = .asleep l ∧ m.pc = .sleepLock l) ∨
        ∃ addr, s.pc p = .waiting addr ∧ m.pc = .waitScan addr 0 false)

namespace ProcSys

theorem Goes.edit_from {pc : Pc} (hg : s.Goes c p x pc m) (hsw : s.sw p = .exec)
    (hpc : s.pc p = pc) : m.edit.From s p m := by
  cases hg with
  | exits _ hp => exact ⟨hsw, hpc, hp, ⟨_, rfl⟩, rfl⟩
  | owns _ => exact ⟨hsw, hpc, rfl, rfl⟩
  | woke => exact ⟨hsw, rfl, by simp [hpc, Pc.held], .inl ⟨hpc, rfl⟩⟩
  | killed hpid => exact ⟨hsw, rfl, rfl, _, hpc, hpid⟩
  | forked hun => exact ⟨hsw, rfl, hpc, rfl, hun⟩
  | wokeInit => exact ⟨hsw, rfl, by simp [hpc, Pc.held], .inr ⟨_, hpc, rfl, rfl, rfl⟩⟩
  | reparented => exact ⟨hsw, rfl, _, _, hpc, rfl⟩
  | exited => exact ⟨hsw, rfl, hpc, rfl⟩
  | waitSleeps hi hk => exact ⟨hsw, rfl, .inr ⟨_, _, hpc, by omega, hk, rfl, rfl⟩⟩
  | waitReaps hz _ => exact ⟨hsw, rfl, hpc, hz, rfl⟩
  | sleepMarks => exact ⟨hsw, rfl, .inl ⟨_, hpc, rfl⟩⟩
  | _ => trivial

/-- **Every edit is made where the code makes it.** -/
theorem Moves.edit_from (h : s.Moves c p x m) : m.edit.From s p m := by
  cases h.acts with
  | exec hsw hpc _ _ hg => exact hg.edit_from hsw hpc
  | yield hsw => exact ⟨hsw, rfl, rfl⟩
  | awakes hsw hpc => exact ⟨hsw, rfl, .inl ⟨_, hpc, rfl⟩⟩
  | rescans hsw hpc => exact ⟨hsw, rfl, .inr ⟨_, hpc, rfl⟩⟩
  | _ => trivial

theorem Moves.edit_at {e : Edit} (h : s.Moves c p x m) (he : m.edit = e) : e.From s p m :=
  he ▸ h.edit_from

/-- `fork` allocates as it is told. -/
theorem Moves.fork_alloc {o : Alloc} (hm : s.Moves c p x m) (he : m.edit = .fork i o) :
    o = x.alloc := by
  cases hm.acts with
  | exec _ _ _ _ hg =>
    cases hg with
    | forked _ => cases he; rfl
    | _ => cases he
  | _ => cases he

/-! ## Which locks a thread holds -/

/-- A thread that takes the lock it wants holds that one too. -/
theorem held_got {pc : Pc} (h : pc.wants p = some i) : pc.got.held p = i :: pc.held p := by
  cases pc with
  | visit v j =>
    simp only [Pc.wants, Option.ite_none_right_eq_some, Option.some.injEq] at h
    rw [← h.2]
    rfl
  | exitInit _ | exitSelf _ | exitParent _ _ | exitBoth _ _ | reparentKid _ _ _ | waitSelf _
  | waitKid _ _ | sleepSelf _ _ =>
    cases h
    rfl
  | _ => cases h

theorem Goes.leaves {pc : Pc} (hg : s.Goes c p x pc m) (hw : pc.wants p = none)
    (hnd : (pc.held p).Nodup) : Leaves (pc.held p) m.unlock (m.sw.held p m.pc) := by
  cases hg with
  | woke | killed _ | killNext _ | forked _ | forkNext _ | readParent _ | waitReturns => exact .one
  | wokeInit | reparented | waitFaults _ _ _ | waitReaps _ _ | waitAlive _ => exact .head hnd
  | exited => exact .last hnd
  | stands hs =>
    obtain ⟨l, rfl⟩ | ⟨addr, rfl⟩ | rfl := Pc.parked_of_stands hs hw <;> exact .refl
  | _ => exact .refl

theorem Moves.leaves (h : s.Moves c p x m) (hnd : (s.held p).Nodup) (hoff : s.sw p ≠ .off)
    (hparked : s.sw p ≠ .exec → (s.pc p).held p = []) (hm : m.sw ≠ .off) :
    Leaves (s.held p) m.unlock (m.sw.held p m.pc) := by
  unfold ProcSys.held at hnd ⊢
  cases h.acts with
  | timer hpre =>
    obtain ⟨-, hsw, hheld, -⟩ := hpre
    simp only [hsw, Sw.held, hheld]
    exact .refl
  | exec hsw hpc hw _ hg =>
    rw [hsw, hpc] at hnd ⊢
    exact hg.leaves hw hnd
  | yield hsw | save hsw | rescans hsw _ | revives hsw _ => rw [hsw]; exact .refl
  | load _ => exact absurd rfl hm
  | off hsw => exact absurd hsw hoff
  | awakes hsw _ => rw [hsw]; exact .one
  | resumes hsw _ _ _ =>
    rw [hsw]
    simp only [Sw.held, hparked (by simp [hsw])]
    exact .one

/-! ## The way out to the scheduler and back -/

/-- How a move takes the thread of process `p` on that way. -/
inductive Flow (s : ProcSys) (p : ℕ) (m : Move) : Prop
  | exec : s.sw p = .exec → m.sw = .exec → Flow s p m
  | sched : s.sw p = .exec → m.sw = .save → m.pc.held p = [] → Flow s p m
  | timer : s.sw p = .exec → (s.pc p).held p = [] → m = { pc := s.pc p, sw := .yieldSelf } →
      Flow s p m
  | yield : s.sw p = .yieldAt → m = { edit := .yield, pc := s.pc p, sw := .save } → Flow s p m
  | save : s.sw p = .save → m = { pc := s.pc p, sw := .load } → Flow s p m
  | load : s.sw p = .load → m = { pc := s.pc p, sw := .off } → Flow s p m
  | resume : s.sw p = .resumed → m = resumeMove p (s.pc p) → m.sw = .exec → Flow s p m
  | stuck : s.sw p = .resumed → m.sw = .resumed → m.pc = .dead → m.edit = .nothing → Flow s p m

theorem Moves.flow (h : s.Moves c p x m) (hoff : s.sw p ≠ .off) : Flow s p m := by
  cases h.acts with
  | timer hpre => exact .timer hpre.2.1 hpre.2.2.1 rfl
  | exec hsw _ _ _ hg =>
    cases hg with
    | exited | waitSleeps _ _ | sleepMarks => exact .sched hsw rfl rfl
    | _ => exact .exec hsw rfl
  | yield hsw => exact .yield hsw rfl
  | save hsw => exact .save hsw rfl
  | load hsw => exact .load hsw rfl
  | off hsw => exact absurd hsw hoff
  | awakes hsw hpc | rescans hsw hpc => exact .resume hsw (by rw [hpc]; rfl) rfl
  | revives hsw _ => exact .stuck hsw rfl rfl rfl
  | resumes hsw ha hw hd =>
    refine .resume hsw ?_ rfl
    cases hpc : s.pc p with
    | asleep l => exact absurd hpc (ha l)
    | waiting addr => exact absurd hpc (hw addr)
    | dead => exact absurd hpc hd
    | _ => rfl

end ProcSys

/-! ## Runs by computation -/

/-- The state after a list of steps from the start. -/
def procFollow (acts : List ProcAct) : Option ProcSys :=
  System.follow (fun s a => a.Enabled s) (fun s a => a.next s) .boot acts

/-- What can be computed of a run holds in a reachable state. -/
theorem exists_of_procFollow {P : ProcSys → Prop} [DecidablePred P] (acts : List ProcAct)
    (h : (procFollow acts).any fun s => decide (P s)) : ∃ s, procSystem.Reachable s ∧ P s :=
  System.exists_of_follow rfl acts h

/-- The scheduler of CPU `c` makes `n` steps. -/
def schedules (c n : ℕ) : List ProcAct := List.replicate n (.schedule c)

/-- The process on CPU `c` makes a call. -/
def calls (c : ℕ) (call : Call) : List ProcAct := [.run c { call }]

/-- The process on CPU `c` makes `n` steps. -/
def steps (c n : ℕ) : List ProcAct := List.replicate n (.run c {})

/-- CPU `c` finds the process in slot `i` and runs it. -/
def starts (c i : ℕ) : List ProcAct := schedules c (2 * i + 4) ++ steps c 1

end Xv6
