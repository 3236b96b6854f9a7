import Xv6.Proc.Model
/-!
# Pipes — `kernel/pipe.c`

One pipe, from `pipealloc` on, and any number of processes in `pipewrite`,
`piperead` and `pipeclose`. The code of the pipe runs in the kernel threads
of the processes of `Xv6.Proc.Model` and calls that model's `acquire`,
`release`, `sleep` and `wakeup`; between two such calls it makes a step for
each test and each access to the pipe. Everything else the processes, the
schedulers and the interrupt handlers do goes on around it, `kill` among it,
as long as it keeps off `pi->lock`.

What `copyin` finds at `addr + i`, and whether `copyout` can store there, is
left open.
-/

namespace Xv6

open Common Function

/-- Bytes a pipe holds. -/
abbrev PIPESIZE : ℕ := 512

/-- `struct pipe`, without its lock. -/
structure Pipe where
  data : ℕ → UInt8
  nread : ℕ
  nwrite : ℕ
  readopen : Bool
  writeopen : Bool

namespace Pipe

/-- `pi->nwrite == pi->nread + PIPESIZE` -/
def full (pi : Pipe) : Prop := pi.nwrite = (pi.nread + PIPESIZE) % 2 ^ 32

/-- `pi->nread == pi->nwrite` -/
def empty (pi : Pipe) : Prop := pi.nread = pi.nwrite

instance (pi : Pipe) : Decidable pi.full := inferInstanceAs (Decidable (_ = _))

instance (pi : Pipe) : Decidable pi.empty := inferInstanceAs (Decidable (_ = _))

/-- `pi->data[pi->nwrite++ % PIPESIZE] = ch` -/
def put (pi : Pipe) (ch : UInt8) : Pipe :=
  { pi with
    data := update pi.data (pi.nwrite % PIPESIZE) ch
    nwrite := (pi.nwrite + 1) % 2 ^ 32 }

/-- `pi->data[pi->nread % PIPESIZE]` -/
def next (pi : Pipe) : UInt8 := pi.data (pi.nread % PIPESIZE)

/-- `pi->nread++` -/
def take (pi : Pipe) : Pipe := { pi with nread := (pi.nread + 1) % 2 ^ 32 }

/-- The write end or the read end is closed. -/
def close (pi : Pipe) (writable : Bool) : Pipe :=
  if writable then { pi with writeopen := false } else { pi with readopen := false }

/-- A pipe as `pipealloc` makes it. -/
structure Fresh (pi : Pipe) : Prop where
  nread : pi.nread = 0
  nwrite : pi.nwrite = 0
  readopen : pi.readopen = true
  writeopen : pi.writeopen = true

end Pipe

/-- `&pi->lock`, among the locks that are not of a process. -/
abbrev piLock : ℕ := 0

/-- `&pi->nread`, what readers sleep on. -/
def Chan.nread : Chan := .addr 0

/-- `&pi->nwrite`, what writers sleep on. -/
def Chan.nwrite : Chan := .addr 1

/-- What `pipeclose` of an end wakes. -/
def Chan.closed (writable : Bool) : Chan := if writable then .nread else .nwrite

/-- Where a process is in the code of the pipe. -/
inductive PipePc
  /-- Elsewhere; its last call returned `r`. -/
  | done (r : ℤ)
  /-- `pipewrite`: about to take `pi->lock`; at the test of `i < n`; at the
  test of the pipe being full, for the first time and after `sleep`. -/
  | writeLock (n : ℤ)
  | writeFor (n : ℤ) (i : ℕ)
  | writeFull (n : ℤ) (i : ℕ)
  | writeSlept (n : ℤ) (i : ℕ)
  /-- About to call `wakeup` and `sleep` for a full pipe. -/
  | writeWake (n : ℤ) (i : ℕ)
  | writeSleep (n : ℤ) (i : ℕ)
  /-- About to copy the byte in, and to store it. -/
  | writeCopy (n : ℤ) (i : ℕ)
  | writeStore (n : ℤ) (i : ℕ) (ch : UInt8)
  /-- About to call the last `wakeup`. -/
  | writeEnd (i : ℕ)
  /-- `piperead`: about to take `pi->lock`; at the test of the pipe being
  empty, for the first time and after `sleep`; about to call `sleep`. -/
  | readLock (n : ℤ)
  | readEmpty (n : ℤ)
  | readSlept (n : ℤ)
  | readSleep (n : ℤ)
  /-- At the tests of the second loop, and about to copy the byte out. -/
  | readFor (n : ℤ) (i : ℕ)
  | readCopy (n : ℤ) (i : ℕ) (ch : UInt8)
  /-- About to call `wakeup`. -/
  | readEnd (i : ℕ)
  /-- Both: about to leave `pi->lock` and return `r`. -/
  | unlock (r : ℤ)
  /-- `pipeclose`: about to take `pi->lock`, to close the end, to call
  `wakeup`, to test whether both ends are closed and leave `pi->lock`, and
  to free the pipe. -/
  | closeLock (writable : Bool)
  | closeMark (writable : Bool)
  | closeWake (writable : Bool)
  | closeTest
  | closeFree
  deriving DecidableEq

/-- Whether a process is in the code of the pipe. -/
def PipePc.inside : PipePc → Bool
  | .done _ => false
  | _ => true

/-- What a step of that code does not find in the pipe: the byte at
`addr + i`, if it is mapped, and whether the address to store it at is. -/
structure PipeChoice where
  copyin : Option UInt8 := some 0
  copyout : Bool := true

/-- One step of the code of the pipe, or the call it makes. -/
structure PipeMove where
  pc : PipePc
  pipe : Pipe
  call : Option Call := none
  /-- The byte stored, taken out, and copied out. -/
  accept : Option UInt8 := none
  remove : Option UInt8 := none
  deliver : Option UInt8 := none
  /-- `kfree` -/
  free : Bool := false

/-- **`pipewrite`, `piperead` and `pipeclose`**, for a process that is killed
or not. -/
def pipeMove (pi : Pipe) (killed : Bool) (x : PipeChoice) : PipePc → PipeMove
  | .done r => { pc := .done r, pipe := pi }
  | .writeLock n => { pc := .writeFor n 0, pipe := pi, call := some (.take piLock) }
  | .writeFor n i => { pc := if (i : ℤ) < n then .writeFull n i else .writeEnd i, pipe := pi }
  | .writeFull n i | .writeSlept n i =>
    if pi.full then
      if pi.readopen = false ∨ killed then { pc := .unlock (-1), pipe := pi }
      else { pc := .writeWake n i, pipe := pi }
    else { pc := .writeCopy n i, pipe := pi }
  | .writeWake n i => { pc := .writeSleep n i, pipe := pi, call := some (.wakeup .nread) }
  | .writeSleep n i => { pc := .writeSlept n i, pipe := pi, call := some (.sleep .nwrite piLock) }
  | .writeCopy n i =>
    match x.copyin with
    | none => { pc := .writeEnd i, pipe := pi }
    | some ch => { pc := .writeStore n i ch, pipe := pi }
  | .writeStore n i ch => { pc := .writeFor n (i + 1), pipe := pi.put ch, accept := some ch }
  | .writeEnd i => { pc := .unlock i, pipe := pi, call := some (.wakeup .nread) }
  | .readLock n => { pc := .readEmpty n, pipe := pi, call := some (.take piLock) }
  | .readEmpty n | .readSlept n =>
    if pi.empty ∧ pi.writeopen then
      if killed then { pc := .unlock (-1), pipe := pi } else { pc := .readSleep n, pipe := pi }
    else { pc := .readFor n 0, pipe := pi }
  | .readSleep n => { pc := .readSlept n, pipe := pi, call := some (.sleep .nread piLock) }
  | .readFor n i =>
    if (i : ℤ) < n ∧ ¬ pi.empty then
      { pc := .readCopy n i pi.next, pipe := pi.take, remove := some pi.next }
    else { pc := .readEnd i, pipe := pi }
  | .readCopy n i ch =>
    if x.copyout then { pc := .readFor n (i + 1), pipe := pi, deliver := some ch }
    else { pc := .readEnd i, pipe := pi }
  | .readEnd i => { pc := .unlock i, pipe := pi, call := some (.wakeup .nwrite) }
  | .unlock r => { pc := .done r, pipe := pi, call := some (.drop piLock) }
  | .closeLock w => { pc := .closeMark w, pipe := pi, call := some (.take piLock) }
  | .closeMark w => { pc := .closeWake w, pipe := pi.close w }
  | .closeWake w => { pc := .closeTest, pipe := pi, call := some (.wakeup (.closed w)) }
  | .closeTest =>
    { pc := if pi.readopen = false ∧ pi.writeopen = false then .closeFree else .done 0, pipe := pi,
      call := some (.drop piLock) }
  | .closeFree => { pc := .done 0, pipe := pi, free := true }

/-- A call of the pipe's code. -/
inductive PipeOp
  | pipewrite (n : ℤ)
  | piperead (n : ℤ)
  | pipeclose (writable : Bool)

/-- Where it starts. -/
def PipeOp.pc : PipeOp → PipePc
  | .pipewrite n => .writeLock n
  | .piperead n => .readLock n
  | .pipeclose w => .closeLock w

/-- The processes and the pipe. The last fields are history: the bytes put
into the pipe, taken out of it, and copied out to readers, and whether the
pipe has been freed. -/
structure PipeSys where
  sys : ProcSys
  pipe : Pipe
  pc : ℕ → PipePc
  accepted : List UInt8
  removed : List UInt8
  delivered : List UInt8
  freed : Bool

/-- The lock that a call takes or leaves. -/
def Call.lock : Call → Option ℕ
  | .take l | .drop l | .sleep _ l => some l
  | _ => none

/-- The thread of process `p` is in the kernel, outside `proc.c`. -/
def ProcSys.AtUser (s : ProcSys) (p : ℕ) : Prop := s.sw p = .exec ∧ s.pc p = .user

instance (s : ProcSys) (p : ℕ) : Decidable (s.AtUser p) := inferInstanceAs (Decidable (_ ∧ _))

namespace PipeSys

/-- The next step of process `p` in the code of the pipe. -/
def move (s : PipeSys) (p : ℕ) (x : PipeChoice) : PipeMove :=
  pipeMove s.pipe (s.sys.proc p).killed x (s.pc p)

/-- Process `p`, on CPU `c`, makes it. -/
def run (s : PipeSys) (c p : ℕ) (x : PipeChoice) : PipeSys where
  sys :=
    match (s.move p x).call with
    | some call => (ProcAct.run c { call }).next s.sys
    | none => s.sys
  pipe := (s.move p x).pipe
  pc := update s.pc p (s.move p x).pc
  accepted := s.accepted ++ (s.move p x).accept.toList
  removed := s.removed ++ (s.move p x).remove.toList
  delivered := s.delivered ++ (s.move p x).deliver.toList
  freed := s.freed || (s.move p x).free

/-- What goes on around the pipe: no process in its code makes a call of its
own, and nobody else uses `pi->lock`. -/
def Outside (s : PipeSys) : ProcAct → Prop
  | .run c x =>
    match s.sys.sched c with
    | .out p =>
      s.sys.AtUser p → ¬ s.sys.preempted p x →
        (s.pc p).inside = false ∧ x.call.lock ≠ some piLock
    | _ => True
  | .schedule _ => True
  | .interrupt _ call => call.lock ≠ some piLock

instance (s : PipeSys) : (a : ProcAct) → Decidable (s.Outside a)
  | .run c x =>
    have : Decidable (match s.sys.sched c with
      | .out p =>
        s.sys.AtUser p → ¬ s.sys.preempted p x →
          (s.pc p).inside = false ∧ x.call.lock ≠ some piLock
      | _ => True) :=
      match s.sys.sched c with
      | .out _ => inferInstanceAs (Decidable (_ → _ → _))
      | .scan _ | .got _ | .save _ | .load _ | .back _ => .isTrue trivial
    this
  | .schedule _ => .isTrue trivial
  | .interrupt _ call =>
    if h : call.lock = some piLock then .isFalse fun hn => hn h else .isTrue h

/-- The call that a step makes, if it makes one, can be made. -/
def CallEnabled (s : PipeSys) (c : ℕ) : Option Call → Prop
  | some call => (ProcAct.run c { call }).Enabled s.sys
  | none => s.sys.panic = none

instance (s : PipeSys) (c : ℕ) : (o : Option Call) → Decidable (s.CallEnabled c o)
  | some call => inferInstanceAs (Decidable ((ProcAct.run c { call }).Enabled s.sys))
  | none => inferInstanceAs (Decidable (s.sys.panic = none))

end PipeSys

/-- Who makes a step. -/
inductive PipeAct
  /-- The processes, schedulers and handlers, outside the pipe's code. -/
  | proc (a : ProcAct)
  /-- The process on CPU `c` calls a function of the pipe. -/
  | enter (c : ℕ) (op : PipeOp)
  /-- It makes a step there. -/
  | pipe (c : ℕ) (x : PipeChoice)

/-- A step is possible. Nobody uses the pipe once it has been freed. -/
def PipeAct.Enabled (s : PipeSys) : PipeAct → Prop
  | .proc a => a.Enabled s.sys ∧ s.Outside a
  | .enter c _ =>
    match s.sys.sched c with
    | .out p => s.sys.panic = none ∧ s.sys.AtUser p ∧ (s.pc p).inside = false ∧ s.freed = false
    | _ => False
  | .pipe c x =>
    match s.sys.sched c with
    | .out p =>
      s.sys.AtUser p ∧ (s.pc p).inside = true ∧ s.freed = false ∧
        s.CallEnabled c (s.move p x).call
    | _ => False

instance (s : PipeSys) : (a : PipeAct) → Decidable (a.Enabled s)
  | .proc a => inferInstanceAs (Decidable (a.Enabled s.sys ∧ s.Outside a))
  | .enter c _ =>
    have : Decidable (match s.sys.sched c with
      | .out p => s.sys.panic = none ∧ s.sys.AtUser p ∧ (s.pc p).inside = false ∧ s.freed = false
      | _ => False) :=
      match s.sys.sched c with
      | .out _ => inferInstanceAs (Decidable (_ ∧ _))
      | .scan _ | .got _ | .save _ | .load _ | .back _ => .isFalse id
    this
  | .pipe c x =>
    have : Decidable (match s.sys.sched c with
      | .out p =>
        s.sys.AtUser p ∧ (s.pc p).inside = true ∧ s.freed = false ∧
          s.CallEnabled c (s.move p x).call
      | _ => False) :=
      match s.sys.sched c with
      | .out _ => inferInstanceAs (Decidable (_ ∧ _))
      | .scan _ | .got _ | .save _ | .load _ | .back _ => .isFalse id
    this

/-- The state after a step. -/
def PipeAct.next (s : PipeSys) : PipeAct → PipeSys
  | .proc a => { s with sys := a.next s.sys }
  | .enter c op =>
    match s.sys.sched c with
    | .out p => { s with pc := update s.pc p op.pc }
    | _ => s
  | .pipe c x =>
    match s.sys.sched c with
    | .out p => s.run c p x
    | _ => s

/-- A pipe has just been made, while the processes were anywhere. -/
structure PipeSys.Start (s : PipeSys) : Prop where
  sys : procSystem.Reachable s.sys
  lock : s.sys.xlock piLock = none
  awake : ∀ p ch, s.sys.pc p ≠ .sleepSelf ch piLock ∧ s.sys.pc p ≠ .sleepAt ch piLock ∧
    s.sys.pc p ≠ .sleepMark ch piLock ∧ s.sys.pc p ≠ .asleep piLock ∧
    s.sys.pc p ≠ .sleepLock piLock
  pipe : s.pipe.Fresh
  pc : ∀ p, (s.pc p).inside = false
  accepted : s.accepted = []
  removed : s.removed = []
  delivered : s.delivered = []

/-- Any number of readers and writers, and everything around them. -/
def pipeSystem : System PipeSys PipeAct :=
  System.guarded PipeSys.Start (fun s a => a.Enabled s) (fun s a => a.next s)

end Xv6
