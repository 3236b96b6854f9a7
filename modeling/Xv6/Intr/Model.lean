import Xv6.Basic
import Xv6.Common.System
/-!
# Interrupts and threads — `kernel/spinlock.c`, `scheduler` and `sched`

Each CPU runs its scheduler thread or the kernel thread of a process. A
step is a step of the thread on a CPU: `push_off` and `pop_off`, the swap
in `acquire` and the one in `release`, turning interrupts on or off outside
of them, an interrupt and the return from it, and the two switches. An
interrupt can come whenever interrupts are on, so also in `push_off`
between the look at the state and `intr_off`; the handler may give up the
CPU, and the thread go on, there, on another one.
-/

namespace Xv6

open Common Function

namespace Intr

/-- Spinlocks: `p->lock` of each process, and the others. -/
inductive Lk
  | proc (p : ℕ)
  | other (n : ℕ)
  deriving DecidableEq, Repr

/-- A kernel thread. -/
inductive Who
  | scheduler (c : ℕ)
  | process (p : ℕ)
  deriving DecidableEq, Repr

/-- What a thread will come back to. -/
inductive Frame
  /-- The code an interrupt has stopped. -/
  | trap
  /-- `push_off`, after `int old = intr_get()`. -/
  | pend (old : Bool)
  deriving DecidableEq, Repr

/-- The fields of `struct cpu`, and whether interrupts are on. -/
structure Cpu where
  noff : ℕ
  intena : Bool
  intr : Bool
  /-- `none` when the scheduler runs. -/
  proc : Option ℕ
  deriving DecidableEq, Repr

/-- What `push_off` does to the CPU, from `intr_off` on. -/
def Cpu.pushOff (k : Cpu) (old : Bool) : Cpu :=
  { k with intr := false, intena := if k.noff = 0 then old else k.intena, noff := k.noff + 1 }

/-- What `pop_off` does to the CPU. -/
def Cpu.popOff (k : Cpu) : Cpu :=
  { k with noff := k.noff - 1, intr := k.intr || (decide (k.noff - 1 = 0) && k.intena) }

/-- What a thread has to undo: its frames, the locks it holds, and the
calls of `push_off` not yet undone, those of `acquire` before it has the
lock and of `release` after it has given it up among them. -/
structure Thread where
  stack : List Frame := []
  held : List Lk := []
  offs : ℕ := 0
  /-- Whether interrupts were on when it last went from depth 0 to 1. -/
  entry : Option Bool := none
  /-- It has not come back to depth 0 yet: a new process has the lock the
  scheduler took. -/
  fresh : Bool := true
  deriving DecidableEq, Repr

namespace Thread

/-- The nesting depth of a thread. -/
def depth (t : Thread) : ℕ := t.held.length + t.offs

/-- In the middle of `push_off`. -/
def busy (t : Thread) : Bool :=
  match t.stack with
  | .pend _ :: _ => true
  | _ => false

/-- `old`, in the middle of `push_off`. -/
def old (t : Thread) : Bool :=
  match t.stack with
  | .pend old :: _ => old
  | _ => false

/-- A call of `push_off` more to undo. -/
def pushOff (t : Thread) (k : Cpu) : Thread :=
  { t with
    stack := t.stack.tail
    offs := t.offs + 1
    entry := if k.noff = 0 then some k.intr else t.entry }

/-- A call of `push_off` is undone. -/
def popOff (t : Thread) (k : Cpu) : Thread :=
  { t with offs := t.offs - 1, fresh := t.fresh && decide (k.noff - 1 ≠ 0) }

/-- `acquire` has the lock. -/
def take (t : Thread) (lk : Lk) : Thread := { t with held := lk :: t.held, offs := t.offs - 1 }

/-- `release` has given up the lock. -/
def drop (t : Thread) (lk : Lk) : Thread := { t with held := t.held.erase lk, offs := t.offs + 1 }

end Thread

/-- The saved context of a process: `forkret` for a new one, otherwise the
inside of `sched`, with its variable `intena`. -/
inductive Ctx
  | waiting (intena : Option Bool)
  | running (c : ℕ)
  deriving DecidableEq, Repr

/-- The process is not running. -/
def Ctx.saved : Ctx → Bool
  | .waiting _ => true
  | .running _ => false

/-- The CPUs, the threads, the locks and the contexts of the processes. -/
structure State where
  cpu : ℕ → Cpu
  thread : Who → Thread
  /-- `lk->cpu` of a lock that is held. -/
  lock : Lk → Option ℕ
  ctx : ℕ → Ctx

namespace State

variable (s : State) (c : ℕ)

/-- The thread a CPU runs. -/
def cur : Who :=
  match (s.cpu c).proc with
  | none => .scheduler c
  | some p => .process p

/-- The state of the thread a CPU runs. -/
def here : Thread := s.thread (s.cur c)

/-- The thread on a CPU goes on. -/
def put (k : Cpu) (t : Thread) : State :=
  { s with cpu := update s.cpu c k, thread := update s.thread (s.cur c) t }

/-- `push_off` from `intr_off` on. -/
def pushOff : State :=
  s.put c ((s.cpu c).pushOff (s.here c).old) ((s.here c).pushOff (s.cpu c))

def popOff : Except Panic State :=
  if (s.cpu c).intr then .error .popOffInterruptible
  else if (s.cpu c).noff < 1 then .error .popOff
  else .ok (s.put c (s.cpu c).popOff ((s.here c).popOff (s.cpu c)))

/-- `acquire` after `push_off`, when the lock is free. -/
def take (lk : Lk) : Except Panic State :=
  if s.lock lk = some c then .error .acquire
  else .ok { s.put c (s.cpu c) ((s.here c).take lk) with lock := update s.lock lk (some c) }

/-- `release` before `pop_off`. -/
def drop (lk : Lk) : Except Panic State :=
  if s.lock lk ≠ some c then .error .release
  else .ok { s.put c (s.cpu c) ((s.here c).drop lk) with lock := update s.lock lk none }

/-- `sched`, up to the switch to the scheduler. -/
def sched (p : ℕ) : Except Panic State :=
  let k := s.cpu c
  if s.lock (.proc p) ≠ some c then .error .schedLock
  else if k.noff ≠ 1 then .error .schedLocks
  else if k.intr then .error .schedInterruptible
  else .ok { s with
    cpu := update s.cpu c { k with proc := none }
    ctx := update s.ctx p (.waiting (some k.intena)) }

/-- The switch from the scheduler to a process: in `sched` it writes back
its `intena`. -/
def resume (p : ℕ) : State :=
  let k := s.cpu c
  let intena := match s.ctx p with
    | .waiting (some b) => b
    | _ => k.intena
  { s with
    cpu := update s.cpu c { k with proc := some p, intena }
    ctx := update s.ctx p (.running c) }

end State

/-- A step of the thread that runs on a CPU. -/
inductive Act
  /-- The first line of `push_off`. -/
  | intrGet (c : ℕ)
  | pushOff (c : ℕ)
  | popOff (c : ℕ)
  | take (c : ℕ) (lk : Lk)
  | drop (c : ℕ) (lk : Lk)
  /-- `intr_on` or `intr_off`. -/
  | intr (c : ℕ) (b : Bool)
  /-- An interrupt comes; it turns interrupts off. -/
  | trap (c : ℕ)
  /-- The return from an interrupt turns them on. -/
  | sret (c : ℕ)
  | sched (c p : ℕ)
  | resume (c p : ℕ)
  deriving DecidableEq, Repr

/-- **What the code does where**: calls are matched, in any order; a
handler returns, and interrupts are turned on and off by hand, at depth 0;
the scheduler switches to a process with its lock alone. -/
def Act.Matched (s : State) : Act → Prop
  | .intrGet c => (s.here c).busy = false
  | .pushOff c => (s.here c).busy = true
  | .popOff c => (s.here c).busy = false ∧ 0 < (s.here c).offs
  | .take c lk => (s.here c).busy = false ∧ 0 < (s.here c).offs ∧
      (s.lock lk = none ∨ s.lock lk = some c)
  | .drop c lk => (s.here c).busy = false ∧ lk ∈ (s.here c).held
  | .intr c _ => (s.here c).busy = false ∧ (s.here c).depth = 0
  | .trap c => (s.cpu c).intr = true
  | .sret c => (s.here c).stack.head? = some .trap ∧ (s.here c).depth = 0
  | .sched c p => (s.cpu c).proc = some p ∧ (s.here c).busy = false
  | .resume c p => (s.cpu c).proc = none ∧ (s.here c).stack = [] ∧
      (s.here c).held = [.proc p] ∧ (s.here c).offs = 0 ∧ (s.ctx p).saved = true

instance (s : State) (a : Act) : Decidable (a.Matched s) :=
  match a with
  | .intrGet _ | .pushOff _ | .trap _ => inferInstanceAs (Decidable (_ = _))
  | .popOff _ | .take .. | .drop .. | .intr .. | .sret _ | .sched .. | .resume .. =>
    inferInstanceAs (Decidable (_ ∧ _))

/-- What a step leads to. -/
def Act.run (s : State) : Act → Except Panic State
  | .intrGet c =>
    .ok (s.put c (s.cpu c) { s.here c with stack := .pend (s.cpu c).intr :: (s.here c).stack })
  | .pushOff c => .ok (s.pushOff c)
  | .popOff c => s.popOff c
  | .take c lk => s.take c lk
  | .drop c lk => s.drop c lk
  | .intr c b => .ok (s.put c { s.cpu c with intr := b } (s.here c))
  | .trap c => .ok (s.put c { s.cpu c with intr := false }
      { s.here c with stack := .trap :: (s.here c).stack })
  | .sret c => .ok (s.put c { s.cpu c with intr := true }
      { s.here c with stack := (s.here c).stack.tail })
  | .sched c p => s.sched c p
  | .resume c p => .ok (s.resume c p)

/-- The step is matched, and the kernel does not panic. -/
def Act.Enabled (s : State) (a : Act) : Prop := a.Matched s ∧ (a.run s).isOk = true

instance (s : State) (a : Act) : Decidable (a.Enabled s) := inferInstanceAs (Decidable (_ ∧ _))

/-- The state after a step. -/
def Act.next (s : State) (a : Act) : State :=
  match a.run s with
  | .ok s' => s'
  | .error _ => s

/-- At first every CPU runs its scheduler, at depth 0; a new process comes
to life with its lock held. -/
structure Init (s : State) : Prop where
  cpu : ∀ c, (s.cpu c).noff = 0 ∧ (s.cpu c).proc = none
  scheduler : ∀ c, s.thread (.scheduler c) = {}
  process : ∀ p, s.thread (.process p) = { held := [.proc p] }
  lock : ∀ lk, s.lock lk = none
  ctx : ∀ p, s.ctx p = .waiting none

/-- Any number of CPUs and processes, in any order. -/
def system : System State Act := System.guarded Init Act.Enabled Act.next

end Intr

end Xv6
