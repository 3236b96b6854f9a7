import Xv6.Basic
import Xv6.Common.Locks
import Xv6.Common.System
/-!
# Processes, CPUs and their locks — `kernel/proc.c`, `kernel/swtch.S`

The process table as the kernel threads of the processes, the scheduler of
each CPU and the interrupt handlers use it. A step is one `acquire` of a
process's lock, or the code up to the next `acquire`, `release` or unlocked
read of another slot's parent, or one half of `swtch`: saving the old
context, or loading the new one. A CPU runs its scheduler, or the process
the scheduler has switched to; a timer interrupt makes the process `yield`
wherever it holds no lock.

Locks other than those of the processes are numbered, and a process takes
and leaves them as it likes; so does an interrupt handler, which here is a
thread of its own. There are as many CPUs, handlers and such locks as there
are numbers.
-/

namespace Xv6

open Common Function

/-- `enum procstate` -/
inductive ProcState
  | unused
  | sleeping
  | runnable
  | running
  | zombie
  deriving DecidableEq, Repr

/-- What a process sleeps on: the address of a process, as in `wait`, or
another one. -/
inductive Chan
  | proc (i : ℕ)
  | addr (a : ℕ)
  deriving DecidableEq, Repr

/-- `struct proc`, without its lock and its context. Of the trapframe, the
page table, the open files and the current directory it matters here
whether they are there. -/
structure Proc where
  state : ProcState
  parent : Option ℕ
  chan : Option Chan
  killed : Bool
  xstate : ℤ
  pid : ℤ
  sz : ℕ
  pagetable : Bool
  trapframe : Bool
  ofile : Fin NOFILE → Bool
  cwd : Bool

namespace Proc

/-- A slot of the table in zeroed memory. -/
def zero : Proc where
  state := .unused
  parent := none
  chan := none
  killed := false
  xstate := 0
  pid := 0
  sz := 0
  pagetable := false
  trapframe := false
  ofile _ := false
  cwd := false

def freeproc (p : Proc) : Proc :=
  { p with
    trapframe := false
    pagetable := false
    sz := 0
    pid := 0
    parent := none
    chan := none
    killed := false
    xstate := 0
    state := .unused }

/-- The body of the loop of `wakeup`; that of `wakeup1` for the process's
own address. -/
def wakeup (p : Proc) (ch : Chan) : Proc :=
  if p.state = .sleeping ∧ p.chan = some ch then { p with state := .runnable } else p

/-- What `kill` does to the process it finds. -/
def kill (p : Proc) : Proc :=
  if p.state = .sleeping then { p with killed := true, state := .runnable }
  else { p with killed := true }

end Proc

/-- A number as an `int`. -/
def int32 (z : ℤ) : ℤ := (z + 2 ^ 31) % 2 ^ 32 - 2 ^ 31

/-- `initproc`: `userinit` finds the first slot. -/
abbrev initproc : ℕ := 0

/-- How far `fork` gets once `allocproc` has found a slot. -/
inductive Alloc
  /-- `kalloc` fails for the trapframe. -/
  | noTrapframe
  /-- `proc_pagetable` fails. -/
  | noPagetable
  /-- `uvmcopy` fails. -/
  | noCopy
  | ok
  deriving DecidableEq, Repr

/-- The slot `np` after `allocproc` and `fork`, called by the process `p`
in slot `parent`. -/
def Proc.fork (np p : Proc) (parent : ℕ) (pid : ℤ) : Alloc → Proc
  | .noTrapframe => { np with pid, trapframe := false }
  | .noPagetable => { np with pid, trapframe := true, pagetable := false }.freeproc
  | .noCopy => { np with pid, trapframe := true, pagetable := true }.freeproc
  | .ok =>
    { np with
      pid
      trapframe := true
      pagetable := true
      sz := p.sz
      parent := some parent
      ofile := fun fd => p.ofile fd || np.ofile fd
      cwd := p.cwd
      state := .runnable }

/-! ## Where a thread is -/

/-- A loop over the table that takes one lock at a time. -/
inductive Visit
  | wakeup (ch : Chan)
  | kill (pid : ℤ)
  | allocproc
  deriving DecidableEq, Repr

/-- Where the kernel thread of a process is. -/
inductive Pc
  /-- In user space, or in the kernel outside the functions below. -/
  | user
  /-- About to take the lock of slot `i`, and with it. -/
  | visit (v : Visit) (i : ℕ)
  | visiting (v : Visit) (i : ℕ)
  /-- `exit`: about to take the lock of `initproc`, and with it. -/
  | exitInit (status : ℤ)
  | exitInitAt (status : ℤ)
  /-- About to take its own lock to read its parent, and with it. -/
  | exitSelf (status : ℤ)
  | exitSelfAt (status : ℤ)
  /-- About to take the lock of `original_parent`. -/
  | exitParent (status : ℤ) (op : ℕ)
  /-- With it, about to take its own. -/
  | exitBoth (status : ℤ) (op : ℕ)
  /-- With both, in `reparent`: about to read the parent of slot `i`, about
  to take the lock of slot `i`, and with it. -/
  | reparent (status : ℤ) (op i : ℕ)
  | reparentKid (status : ℤ) (op i : ℕ)
  | reparentAt (status : ℤ) (op i : ℕ)
  /-- Past `reparent`. -/
  | exitEnd (status : ℤ) (op : ℕ)
  /-- In the call of `sched` that ends `exit`. -/
  | dead
  /-- `wait`: about to take its own lock. -/
  | waitSelf (addr : ℕ)
  /-- With it: about to read the parent of slot `i`, about to take the lock
  of slot `i`, and with it. -/
  | waitScan (addr i : ℕ) (havekids : Bool)
  | waitKid (addr i : ℕ)
  | waitAt (addr i : ℕ)
  /-- About to leave its own lock and return `r`. -/
  | waitRet (r : ℤ)
  /-- In the call of `sleep` of `wait`. -/
  | waiting (addr : ℕ)
  /-- `sleep`: about to take its own lock, with it, and with `lk` left. -/
  | sleepSelf (ch : Chan) (l : ℕ)
  | sleepAt (ch : Chan) (l : ℕ)
  | sleepMark (ch : Chan) (l : ℕ)
  /-- In the call of `sched` of `sleep`, and about to take `lk` again. -/
  | asleep (l : ℕ)
  | sleepLock (l : ℕ)
  deriving DecidableEq, Repr

namespace Pc

/-- The slot whose lock the code takes next. -/
def wants (p : ℕ) : Pc → Option ℕ
  | visit _ i => if i < NPROC then some i else none
  | exitInit _ => some initproc
  | exitSelf _ | exitBoth _ _ | waitSelf _ | sleepSelf _ _ => some p
  | exitParent _ op => some op
  | reparentKid _ _ i | waitKid _ i => some i
  | _ => none

/-- Where the code is once it has that lock. -/
def got : Pc → Pc
  | visit v i => visiting v i
  | exitInit st => exitInitAt st
  | exitSelf st => exitSelfAt st
  | exitParent st op => exitBoth st op
  | exitBoth st op => reparent st op 0
  | reparentKid st op i => reparentAt st op i
  | waitSelf addr => waitScan addr 0 false
  | waitKid addr i => waitAt addr i
  | sleepSelf ch l => sleepAt ch l
  | pc => pc

/-- The slots whose locks the code holds there, the last taken first. -/
def held (p : ℕ) : Pc → List ℕ
  | visiting _ i => [i]
  | exitInitAt _ => [initproc]
  | exitSelfAt _ | waitScan .. | waitKid .. | waitRet _ | sleepAt .. | sleepMark .. => [p]
  | exitBoth _ op => [op]
  | reparent _ op _ | reparentKid _ op _ | exitEnd _ op => [p, op]
  | reparentAt _ op i => [i, p, op]
  | waitAt _ i => [i, p]
  | _ => []

end Pc

/-- Whether the thread of a process runs the code it is in, or where it is
on the way out to the scheduler and back. -/
inductive Sw
  | exec
  /-- `yield`: about to take its own lock, and with it. -/
  | yieldSelf
  | yieldAt
  /-- In `swtch`, about to save its context, and about to load that of the
  scheduler. -/
  | save
  | load
  /-- Switched out. -/
  | off
  /-- Just switched in, with its own lock. -/
  | resumed
  deriving DecidableEq, Repr

/-- Where the scheduler of a CPU is. -/
inductive SchedPc
  /-- About to take the lock of slot `i`, and with it. -/
  | scan (i : ℕ)
  | got (i : ℕ)
  /-- In `swtch`, about to save its context, and about to load that of
  process `i`. -/
  | save (i : ℕ)
  | load (i : ℕ)
  /-- The CPU runs process `i`. -/
  | out (i : ℕ)
  /-- Back from it. -/
  | back (i : ℕ)
  deriving DecidableEq, Repr

/-- Where an interrupt handler is. -/
inductive IntrPc
  | idle
  /-- `wakeup`: about to take the lock of slot `i`, and with it. -/
  | visit (ch : Chan) (i : ℕ)
  | visiting (ch : Chan) (i : ℕ)
  deriving DecidableEq, Repr

/-- Who holds the lock of a process: `lk->cpu`, or a handler. -/
inductive Agent
  | cpu (c : ℕ)
  | intr (k : ℕ)
  deriving DecidableEq, Repr

/-- Who holds another lock. -/
inductive Owner
  | proc (p : ℕ)
  | intr (k : ℕ)
  deriving DecidableEq, Repr

/-- A process that became a zombie: when it was born, its pid, and the
status it passed to `exit`. -/
structure Exit where
  birth : ℕ
  pid : ℤ
  status : ℤ
  deriving DecidableEq, Repr

/-- A `wait` that found a zombie and freed it: when that one was born, the
pid returned, and the status if it was stored at a user address. -/
structure Reap where
  birth : ℕ
  pid : ℤ
  status : Option ℤ
  deriving DecidableEq, Repr

/-- The process table and the threads. The last fields are history, which no
step reads: the number of steps so far, when each slot was last given to a
process, the exits and the reaps so far, when each process last left one of
the other locks, and when each thread last took each of them. -/
structure ProcSys where
  proc : ℕ → Proc
  lock : ℕ → Option Agent
  pc : ℕ → Pc
  sw : ℕ → Sw
  /-- `p->context`: where the thread goes on. -/
  context : ℕ → Pc
  sched : ℕ → SchedPc
  cproc : ℕ → Option ℕ
  intr : ℕ → IntrPc
  nextpid : ℤ
  xlock : ℕ → Option Owner
  /-- How many of the other locks the thread of a process holds. -/
  noff : ℕ → ℕ
  panic : Option Panic
  clock : ℕ
  birth : ℕ → ℕ
  exits : List Exit
  reaps : List Reap
  slept : ℕ → ℕ
  took : Owner → ℕ → ℕ

/-! ## What the code does -/

/-- What a step does to the table. -/
inductive Edit
  | nothing
  /-- The process changes what is private to it; `fault` is `p->killed = 1`
  in `usertrap`. -/
  | own (ofile : Fin NOFILE → Bool) (sz : ℕ) (fault : Bool)
  /-- `exit` closes the files and the current directory. -/
  | close
  | wakeup (ch : Chan) (i : ℕ)
  | kill (i : ℕ)
  | fork (i : ℕ) (o : Alloc)
  | reparent (i : ℕ)
  /-- `exit` wakes `original_parent` and makes the process a zombie. -/
  | exit (op : ℕ) (status : ℤ)
  /-- `wait` frees the zombie in slot `i`. -/
  | reap (addr i : ℕ)
  | yield
  | sleep (ch : Chan)
  /-- `sleep` tidies up. -/
  | unchan

/-- The table after the edit, made by the thread of process `p`. -/
def Edit.apply (nextpid : ℤ) (p : ℕ) (t : ℕ → Proc) : Edit → ℕ → Proc
  | .nothing => t
  | .own ofile sz fault => update t p { t p with ofile, sz, killed := (t p).killed || fault }
  | .close => update t p { t p with ofile := fun _ => false, cwd := false }
  | .wakeup ch i => update t i ((t i).wakeup ch)
  | .kill i => update t i (t i).kill
  | .fork i o => update t i ((t i).fork (t p) p nextpid o)
  | .reparent i => update t i { t i with parent := some initproc }
  | .exit op status =>
    let t := update t op ((t op).wakeup (.proc op))
    update t p { t p with xstate := status, state := .zombie }
  | .reap _ i => update t i (t i).freeproc
  | .yield => update t p { t p with state := .runnable }
  | .sleep ch => update t p { t p with chan := some ch, state := .sleeping }
  | .unchan => update t p { t p with chan := none }

/-- What a step does to the other locks. -/
inductive Ext
  | nothing
  | take (l : ℕ)
  | drop (l : ℕ)
  deriving DecidableEq, Repr

/-- One step of a thread that is not about to take a process's lock. -/
structure Move where
  edit : Edit := .nothing
  unlock : List ℕ := []
  ext : Ext := .nothing
  pc : Pc
  sw : Sw := .exec
  panic : Option Panic := none

/-- What the code outside this model asks for. -/
inductive Call
  | fork
  | exit (status : ℤ)
  | wait (addr : ℕ)
  | kill (pid : ℤ)
  | wakeup (ch : Chan)
  | sleep (ch : Chan) (l : ℕ)
  | take (l : ℕ)
  | drop (l : ℕ)
  | own (ofile : Fin NOFILE → Bool) (sz : ℕ) (fault : Bool)

/-- What a step does not find in the table: the call a process makes, how
its allocations and its `copyout` end, and whether the timer interrupts
it. -/
structure Choice where
  call : Call := .own (fun _ => false) 0 false
  alloc : Alloc := .ok
  copyout : Bool := true
  timer : Bool := false

/-- The lock a thread of process `p` takes next. -/
def Sw.wants (p : ℕ) (pc : Pc) : Sw → Option ℕ
  | .exec => pc.wants p
  | .yieldSelf => some p
  | _ => none

/-- The locks it holds. -/
def Sw.held (p : ℕ) (pc : Pc) : Sw → List ℕ
  | .exec => pc.held p
  | .yieldAt | .save | .load | .resumed => [p]
  | .yieldSelf | .off => []

namespace ProcSys

/-- The lock the thread of process `p` takes next. -/
def wants (s : ProcSys) (p : ℕ) : Option ℕ := (s.sw p).wants p (s.pc p)

/-- The locks it holds. -/
def held (s : ProcSys) (p : ℕ) : List ℕ := (s.sw p).held p (s.pc p)

def holding (s : ProcSys) (a : Agent) (i : ℕ) : Bool := s.lock i = some a

/-- `wakeup1` panics without the lock. -/
def wakeup1Check (s : ProcSys) (c i : ℕ) : Option Panic :=
  if s.holding (.cpu c) i then none else some .wakeup1

/-- A process in the kernel makes a call. -/
def callMove (p : ℕ) : Call → Move
  | .fork => { pc := .visit .allocproc 0 }
  | .exit status =>
    if p = initproc then { pc := .user, panic := some .initExiting }
    else { edit := .close, pc := .exitInit status }
  | .wait addr => { pc := .waitSelf addr }
  | .kill pid => { pc := .visit (.kill pid) 0 }
  | .wakeup ch => { pc := .visit (.wakeup ch) 0 }
  | .sleep ch l => { pc := .sleepSelf ch l }
  | .take l => { ext := .take l, pc := .user }
  | .drop l => { ext := .drop l, pc := .user }
  | .own ofile sz fault => { edit := .own ofile sz fault, pc := .user }

/-- The body of a loop over the table, with the lock of slot `i`. -/
def visitMove (s : ProcSys) (x : Choice) (i : ℕ) : Visit → Move
  | .wakeup ch => { edit := .wakeup ch i, unlock := [i], pc := .visit (.wakeup ch) (i + 1) }
  | .kill pid =>
    if (s.proc i).pid = pid then { edit := .kill i, unlock := [i], pc := .user }
    else { unlock := [i], pc := .visit (.kill pid) (i + 1) }
  | .allocproc =>
    if (s.proc i).state = .unused then { edit := .fork i x.alloc, unlock := [i], pc := .user }
    else { unlock := [i], pc := .visit .allocproc (i + 1) }

/-- The thread of process `p`, on CPU `c`, runs the code it is in. -/
def execMove (s : ProcSys) (c p : ℕ) (x : Choice) : Pc → Move
  | .user => callMove p x.call
  | .visiting v i => s.visitMove x i v
  | .exitInitAt status =>
    { edit := .wakeup (.proc initproc) initproc, unlock := [initproc], pc := .exitSelf status,
      panic := s.wakeup1Check c initproc }
  | .exitSelfAt status =>
    match (s.proc p).parent with
    | some op => { unlock := [p], pc := .exitParent status op }
    | none => { pc := .exitSelfAt status, panic := some .noParent }
  | .reparent status op i =>
    if i < NPROC then
      if (s.proc i).parent = some p then { pc := .reparentKid status op i }
      else { pc := .reparent status op (i + 1) }
    else { pc := .exitEnd status op }
  | .reparentAt status op i =>
    { edit := .reparent i, unlock := [i], pc := .reparent status op (i + 1) }
  | .exitEnd status op =>
    { edit := .exit op status, unlock := [op], pc := .dead, sw := .save,
      panic := s.wakeup1Check c op }
  | .waitScan addr i havekids =>
    if i < NPROC then
      if (s.proc i).parent = some p then { pc := .waitKid addr i }
      else { pc := .waitScan addr (i + 1) havekids }
    else if !havekids || (s.proc p).killed then { pc := .waitRet (-1) }
    else { edit := .sleep (.proc p), pc := .waiting addr, sw := .save }
  | .waitAt addr i =>
    if (s.proc i).state = .zombie then
      if addr ≠ 0 ∧ !x.copyout then { unlock := [i], pc := .waitRet (-1) }
      else { edit := .reap addr i, unlock := [i], pc := .waitRet (s.proc i).pid }
    else { unlock := [i], pc := .waitScan addr (i + 1) true }
  | .waitRet _ => { unlock := [p], pc := .user }
  | .sleepAt ch l => { ext := .drop l, pc := .sleepMark ch l }
  | .sleepMark ch l => { edit := .sleep ch, pc := .asleep l, sw := .save }
  | .sleepLock l => { ext := .take l, pc := .user }
  -- a loop over the table ends; elsewhere the code is about to take a lock
  | _ => { pc := .user }

/-- The thread of process `p` goes on from where it left the CPU: at the end
of `sleep`, of `yield`, or in `forkret`. -/
def resumeMove (p : ℕ) : Pc → Move
  | .asleep l => { edit := .unchan, unlock := [p], pc := .sleepLock l }
  | .waiting addr => { edit := .unchan, pc := .waitScan addr 0 false }
  | .dead => { pc := .dead, sw := .resumed, panic := some .zombieExit }
  | pc => { unlock := [p], pc }

/-- One step of the thread of process `p`, on CPU `c`, where it is not about
to take a process's lock. -/
def move (s : ProcSys) (c p : ℕ) (x : Choice) : Move :=
  match s.sw p with
  | .exec => s.execMove c p x (s.pc p)
  | .yieldAt => { edit := .yield, pc := s.pc p, sw := .save }
  | .save => { pc := s.pc p, sw := .load }
  | .load => { pc := s.pc p, sw := .off }
  | .resumed => resumeMove p (s.pc p)
  -- not reached: the thread takes its lock, or is on no CPU
  | .yieldSelf | .off => { pc := s.pc p, sw := s.sw p }

/-- The checks of `release`, and of `sched` where the step calls it. -/
def checks (s : ProcSys) (c p : ℕ) (m : Move) : Option Panic :=
  if m.panic.isSome then m.panic
  else if ¬ m.unlock.all (s.holding (.cpu c)) then some .release
  else if m.sw = .save ∧ ¬ s.holding (.cpu c) p then some .schedLock
  else if m.sw = .save ∧ s.noff p ≠ 0 then some .schedLocks
  else none

end ProcSys

/-- The slot an edit gives to a new process. -/
def Edit.born : Edit → Option ℕ
  | .fork i .ok => some i
  | _ => none

/-- A function changed at an argument, if there is one. -/
def updateAt {α : Type} (f : ℕ → α) (o : Option ℕ) (a : α) : ℕ → α :=
  match o with
  | some i => update f i a
  | none => f

/-- Who holds the other locks after a step of `o`. -/
def Ext.apply (xlock : ℕ → Option Owner) (o : Owner) : Ext → ℕ → Option Owner
  | .nothing => xlock
  | .take l => update xlock l (some o)
  | .drop l => update xlock l none

/-- `noff` after it. -/
def Ext.noff (n : ℕ) : Ext → ℕ
  | .nothing => n
  | .take _ => n + 1
  | .drop _ => n - 1

/-- When `o` last took each lock, at time `t`. -/
def Ext.took (took : Owner → ℕ → ℕ) (o : Owner) (t : ℕ) : Ext → Owner → ℕ → ℕ
  | .take l => update took o (update (took o) l t)
  | _ => took

namespace ProcSys

/-- The step's move is made. -/
def commit (s : ProcSys) (c p : ℕ) (m : Move) : ProcSys where
  proc := m.edit.apply s.nextpid p s.proc
  lock := unlocked s.lock m.unlock
  pc := update (updateAt s.pc m.edit.born .user) p m.pc
  sw := update (updateAt s.sw m.edit.born .off) p m.sw
  context :=
    if m.sw = .load then update s.context p (s.pc p) else updateAt s.context m.edit.born .user
  sched := if m.sw = .off then update s.sched c (.back p) else s.sched
  cproc := s.cproc
  intr := s.intr
  nextpid :=
    match m.edit with
    | .fork _ _ => int32 (s.nextpid + 1)
    | _ => s.nextpid
  xlock := m.ext.apply s.xlock (.proc p)
  noff := update s.noff p (m.ext.noff (s.noff p))
  panic := s.checks c p m
  clock := s.clock + 1
  birth := updateAt s.birth m.edit.born s.clock
  exits :=
    match m.edit with
    | .exit _ status => ⟨s.birth p, (s.proc p).pid, status⟩ :: s.exits
    | _ => s.exits
  reaps :=
    match m.edit with
    | .reap addr i =>
      ⟨s.birth i, (s.proc i).pid, if addr = 0 then none else some (s.proc i).xstate⟩ :: s.reaps
    | _ => s.reaps
  slept :=
    match m.ext with
    | .drop _ => update s.slept p s.clock
    | _ => s.slept
  took := m.ext.took s.took (.proc p) s.clock

/-- `acquire` by a thread that does not hold the lock. -/
def lockBy (s : ProcSys) (a : Agent) (i : ℕ) : ProcSys :=
  { s with lock := update s.lock i (some a) }

/-- `acquire` by a thread that does. -/
def relock (s : ProcSys) : ProcSys :=
  { s with panic := some .acquire, clock := s.clock + 1 }

/-- `release` -/
def leave (s : ProcSys) (a : Agent) (i : ℕ) : ProcSys :=
  { s with
    lock := unlocked s.lock [i]
    panic := if s.holding a i then none else some .release }

/-- The thread of process `p` has the lock it wanted. -/
def threadGot (s : ProcSys) (p : ℕ) : ProcSys :=
  { s with
    pc := update s.pc p (if s.sw p = .exec then (s.pc p).got else s.pc p)
    sw := update s.sw p (if s.sw p = .exec then .exec else .yieldAt)
    clock := s.clock + 1 }

/-- A timer interrupt finds the thread of process `p` with interrupts on. -/
def preempted (s : ProcSys) (p : ℕ) (x : Choice) : Prop :=
  x.timer ∧ s.sw p = .exec ∧ (s.pc p).held p = [] ∧ s.noff p = 0

instance (s : ProcSys) (p : ℕ) (x : Choice) : Decidable (s.preempted p x) :=
  inferInstanceAs (Decidable (_ ∧ _))

/-- The thread of process `p` makes a step on CPU `c`. -/
def run (s : ProcSys) (c p : ℕ) (x : Choice) : ProcSys :=
  if s.preempted p x then s.commit c p { pc := s.pc p, sw := .yieldSelf }
  else
    match s.wants p with
    | some i => if s.holding (.cpu c) i then s.relock else (s.lockBy (.cpu c) i).threadGot p
    | none => s.commit c p (s.move c p x)

/-- The scheduler of CPU `c` goes on. -/
def schedAt (s : ProcSys) (c : ℕ) (pc : SchedPc) : ProcSys :=
  { s with sched := update s.sched c pc, clock := s.clock + 1 }

/-- It has chosen the process in slot `i`. -/
def pick (s : ProcSys) (c i : ℕ) : ProcSys :=
  { s with
    proc := update s.proc i { s.proc i with state := .running }
    cproc := update s.cproc c (some i) }

/-- It loads the context of process `i`. -/
def loadContext (s : ProcSys) (i : ℕ) : ProcSys :=
  { s with pc := update s.pc i (s.context i), sw := update s.sw i .resumed }

/-- `scheduler` makes a step on CPU `c`. -/
def schedule (s : ProcSys) (c : ℕ) : ProcSys :=
  match s.sched c with
  | .scan i =>
    if i < NPROC then
      if s.holding (.cpu c) i then s.relock else (s.lockBy (.cpu c) i).schedAt c (.got i)
    else s.schedAt c (.scan 0)
  | .got i =>
    if (s.proc i).state = .runnable then (s.pick c i).schedAt c (.save i)
    else (s.leave (.cpu c) i).schedAt c (.scan (i + 1))
  | .save i => s.schedAt c (.load i)
  | .load i => (s.loadContext i).schedAt c (.out i)
  | .out _ => s
  | .back i =>
    ({ s with cproc := update s.cproc c none }.leave (.cpu c) i).schedAt c (.scan (i + 1))

/-- Interrupt handler `k` goes on. -/
def intrAt (s : ProcSys) (k : ℕ) (pc : IntrPc) : ProcSys :=
  { s with intr := update s.intr k pc, clock := s.clock + 1 }

/-- What it does to the other locks. -/
def intrExt : Call → Ext
  | .take l => .take l
  | .drop l => .drop l
  | _ => .nothing

/-- Interrupt handler `k` takes or leaves one of them, or calls `wakeup`. -/
def intrCall (s : ProcSys) (k : ℕ) (call : Call) : ProcSys :=
  { s with
    xlock := (intrExt call).apply s.xlock (.intr k)
    took := (intrExt call).took s.took (.intr k) s.clock }

/-- The body of the loop of `wakeup`, called by a handler. -/
def wakeupAt (s : ProcSys) (ch : Chan) (i : ℕ) : ProcSys :=
  { s with proc := update s.proc i ((s.proc i).wakeup ch) }

/-- Interrupt handler `k` makes a step. -/
def interrupt (s : ProcSys) (k : ℕ) (call : Call) : ProcSys :=
  match s.intr k with
  | .idle => (s.intrCall k call).intrAt k (match call with | .wakeup ch => .visit ch 0 | _ => .idle)
  | .visit ch i =>
    if i < NPROC then
      if s.holding (.intr k) i then s.relock
      else (s.lockBy (.intr k) i).intrAt k (.visiting ch i)
    else s.intrAt k .idle
  | .visiting ch i => ((s.wakeupAt ch i).leave (.intr k) i).intrAt k (.visit ch (i + 1))

end ProcSys

/-! ## The system -/

/-- Who makes a step. -/
inductive ProcAct
  /-- The process that CPU `c` runs. -/
  | run (c : ℕ) (x : Choice)
  /-- The scheduler of CPU `c`. -/
  | schedule (c : ℕ)
  /-- Interrupt handler `k`. -/
  | interrupt (k : ℕ) (call : Call)

namespace ProcSys

/-- A lock somebody else holds makes `acquire` spin. -/
def Free (s : ProcSys) (a : Agent) (i : ℕ) : Prop := s.lock i = none ∨ s.lock i = some a

instance (s : ProcSys) (a : Agent) (i : ℕ) : Decidable (s.Free a i) :=
  inferInstanceAs (Decidable (_ ∨ _))

/-- The same for the other locks. Only who holds one leaves it. -/
def ExtFree (s : ProcSys) (o : Owner) : Ext → Prop
  | .nothing => True
  | .take l => s.xlock l = none
  | .drop l => s.xlock l = some o

instance (s : ProcSys) (o : Owner) : (e : Ext) → Decidable (s.ExtFree o e)
  | .nothing => .isTrue trivial
  | .take l => inferInstanceAs (Decidable (s.xlock l = none))
  | .drop l => inferInstanceAs (Decidable (s.xlock l = some o))

/-- `sleep` is called with `lk` held. -/
def CallOk (s : ProcSys) (o : Owner) : Call → Prop
  | .sleep _ l => s.xlock l = some o
  | _ => True

instance (s : ProcSys) (o : Owner) (call : Call) : Decidable (s.CallOk o call) :=
  match call with
  | .sleep _ l => inferInstanceAs (Decidable (s.xlock l = some o))
  | .fork | .exit _ | .wait _ | .kill _ | .wakeup _ | .take _ | .drop _ | .own _ _ _ =>
    .isTrue trivial

/-- The thread of process `p` can make a step on CPU `c`. -/
def RunEnabled (s : ProcSys) (c p : ℕ) (x : Choice) : Prop :=
  s.preempted p x ∨
    match s.wants p with
    | some i => s.Free (.cpu c) i
    | none =>
      s.ExtFree (.proc p) (s.move c p x).ext ∧
        (s.sw p = .exec ∧ s.pc p = .user → s.CallOk (.proc p) x.call)

instance (s : ProcSys) (c p : ℕ) (x : Choice) : Decidable (s.RunEnabled c p x) :=
  have : Decidable (match s.wants p with
    | some i => s.Free (.cpu c) i
    | none =>
      s.ExtFree (.proc p) (s.move c p x).ext ∧
        (s.sw p = .exec ∧ s.pc p = .user → s.CallOk (.proc p) x.call)) :=
    match s.wants p with
    | some i => inferInstanceAs (Decidable (s.Free (.cpu c) i))
    | none => inferInstanceAs (Decidable (_ ∧ _))
  inferInstanceAs (Decidable (_ ∨ _))

/-- The scheduler of CPU `c` can make a step. -/
def ScheduleEnabled (s : ProcSys) (c : ℕ) : SchedPc → Prop
  | .scan i => i < NPROC → s.Free (.cpu c) i
  | .out _ => False
  | _ => True

instance (s : ProcSys) (c : ℕ) : (pc : SchedPc) → Decidable (s.ScheduleEnabled c pc)
  | .scan i => inferInstanceAs (Decidable (i < NPROC → s.Free (.cpu c) i))
  | .out _ => .isFalse id
  | .got _ | .save _ | .load _ | .back _ => .isTrue trivial

/-- Interrupt handler `k` can make a step. -/
def InterruptEnabled (s : ProcSys) (k : ℕ) (call : Call) : IntrPc → Prop
  | .idle => s.ExtFree (.intr k) (intrExt call)
  | .visit _ i => i < NPROC → s.Free (.intr k) i
  | .visiting _ _ => True

instance (s : ProcSys) (k : ℕ) (call : Call) :
    (pc : IntrPc) → Decidable (s.InterruptEnabled k call pc)
  | .idle => inferInstanceAs (Decidable (s.ExtFree (.intr k) (intrExt call)))
  | .visit _ i => inferInstanceAs (Decidable (i < NPROC → s.Free (.intr k) i))
  | .visiting _ _ => .isTrue trivial

end ProcSys

/-- A step is possible. Nothing goes on after a panic. -/
def ProcAct.Enabled (s : ProcSys) : ProcAct → Prop
  | .run c x =>
    s.panic = none ∧
      match s.sched c with
      | .out p => s.RunEnabled c p x
      | _ => False
  | .schedule c => s.panic = none ∧ s.ScheduleEnabled c (s.sched c)
  | .interrupt k call => s.panic = none ∧ s.InterruptEnabled k call (s.intr k)

instance (s : ProcSys) : (a : ProcAct) → Decidable (a.Enabled s)
  | .run c x =>
    have : Decidable (match s.sched c with
      | .out p => s.RunEnabled c p x
      | _ => False) :=
      match s.sched c with
      | .out p => inferInstanceAs (Decidable (s.RunEnabled c p x))
      | .scan _ | .got _ | .save _ | .load _ | .back _ => .isFalse id
    inferInstanceAs (Decidable (_ ∧ _))
  | .schedule c => inferInstanceAs (Decidable (_ ∧ s.ScheduleEnabled c (s.sched c)))
  | .interrupt k call => inferInstanceAs (Decidable (_ ∧ s.InterruptEnabled k call (s.intr k)))

/-- The state after a step. -/
def ProcAct.next (s : ProcSys) : ProcAct → ProcSys
  | .run c x =>
    match s.sched c with
    | .out p => s.run c p x
    | _ => s
  | .schedule c => s.schedule c
  | .interrupt k call => s.interrupt k call

/-- The state after `userinit`, with every scheduler about to start. -/
def ProcSys.boot : ProcSys where
  proc :=
    update (fun _ => .zero) initproc
      { Proc.zero with
        state := .runnable, pid := 1, sz := PGSIZE, pagetable := true, trapframe := true, cwd := true }
  lock _ := none
  pc _ := .user
  sw _ := .off
  context _ := .user
  sched _ := .scan 0
  cproc _ := none
  intr _ := .idle
  nextpid := 2
  xlock _ := none
  noff _ := 0
  panic := none
  clock := 1
  birth _ := 0
  exits := []
  reaps := []
  slept _ := 0
  took _ _ := 0

/-- Any number of CPUs, processes and interrupt handlers. -/
def procSystem : System ProcSys ProcAct :=
  System.guarded (· = .boot) (fun s a => a.Enabled s) (fun s a => a.next s)

end Xv6
