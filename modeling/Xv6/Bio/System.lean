import Xv6.Bio.Model
import Xv6.Common.System
import Xv6.Log.Control
import Xv6.Log.Crash
/-!
# Processes sharing the buffers and the log

The buffer cache and the log as concurrent processes use them. A step is
one section under `bcache.lock` or `log.lock`, one taking or leaving of a
buffer's sleep lock, one transfer between a buffer and the disk, or one
change of a buffer by the process that holds it. `bread` is three steps —
the search of `bget`, `acquiresleep`, and the read — and `brelse` two.

There is one disk, and `log.dev` is its device number; the driver looks at
the block number alone. A process changes only buffers it holds, inside an
operation and outside the log area, and logs what it has changed before it
releases the buffer or ends the operation.
-/

namespace Xv6

open Common Function

/-- Where a process is inside `bread` or `brelse`. -/
inductive Io
  /-- In neither. -/
  | none
  /-- In `bget`, waiting for the sleep lock. -/
  | locking (i : Fin NBUF)
  /-- In `bread`, with the lock, about to see whether to read. -/
  | filling (i : Fin NBUF)
  /-- In `brelse`, without the lock. -/
  | unref (i : Fin NBUF)
  deriving DecidableEq

/-- Where `commit` is, with the buffers it has in hand: at the call of
`bread`, `bwrite` or `brelse` or at the statement it names. -/
inductive CommitAt
  | logTo (tail : ℕ)
  | logFrom (tail : ℕ) (tbuf : Fin NBUF)
  | logCopy (tail : ℕ) (tbuf fbuf : Fin NBUF)
  | logPut (tail : ℕ) (tbuf fbuf : Fin NBUF)
  | logDropFrom (tail : ℕ) (tbuf fbuf : Fin NBUF)
  | logDropTo (tail : ℕ) (tbuf : Fin NBUF)
  /-- `write_head`, the first or the second that erases. -/
  | head (erase : Bool)
  | headStore (erase : Bool) (buf : Fin NBUF)
  | headPut (erase : Bool) (buf : Fin NBUF)
  | headDrop (erase : Bool) (buf : Fin NBUF)
  | instLog (tail : ℕ)
  | instDst (tail : ℕ) (lbuf : Fin NBUF)
  | instCopy (tail : ℕ) (lbuf dbuf : Fin NBUF)
  | instPut (tail : ℕ) (lbuf dbuf : Fin NBUF)
  | instUnpin (tail : ℕ) (lbuf dbuf : Fin NBUF)
  | instDropLog (tail : ℕ) (lbuf dbuf : Fin NBUF)
  | instDropDst (tail : ℕ) (dbuf : Fin NBUF)
  | clear
  | finish
  deriving DecidableEq

namespace CommitAt

/-- The block `bread` is called for, if it is. -/
def wants (log : Log) : CommitAt → Option ℕ
  | logTo tail | instLog tail => if tail < log.lh.n then some (log.start + tail + 1) else none
  | logFrom tail _ | instDst tail _ => some (log.lh.block tail)
  | head _ => some log.start
  | _ => none

/-- Where `bread` returns to. -/
def got (i : Fin NBUF) : CommitAt → CommitAt
  | logTo tail => logFrom tail i
  | logFrom tail tbuf => logCopy tail tbuf i
  | head erase => headStore erase i
  | instLog tail => instDst tail i
  | instDst tail lbuf => instCopy tail lbuf i
  | c => c

/-- The buffer `brelse` is called for, if it is. -/
def drops : CommitAt → Option (Fin NBUF)
  | logDropFrom _ _ fbuf => some fbuf
  | logDropTo _ tbuf => some tbuf
  | headDrop _ buf => some buf
  | instDropLog _ lbuf _ => some lbuf
  | instDropDst _ dbuf => some dbuf
  | _ => none

/-- Where `brelse` returns to. -/
def dropped : CommitAt → CommitAt
  | logDropFrom tail tbuf _ => logDropTo tail tbuf
  | logDropTo tail _ => logTo (tail + 1)
  | headDrop erase _ => if erase then finish else instLog 0
  | instDropLog tail _ dbuf => instDropDst tail dbuf
  | instDropDst tail _ => instLog (tail + 1)
  | c => c

end CommitAt

/-- What a process is about. -/
inductive Job
  | idle
  | inOp
  /-- In `log_write`, past its checks. -/
  | logging (i : Fin NBUF)
  | commit (c : CommitAt)
  deriving DecidableEq

namespace Job

/-- Inside an operation. -/
def Busy : Job → Prop
  | inOp | logging _ => True
  | _ => False

/-- Inside `commit`. -/
def Committing : Job → Prop
  | commit _ => True
  | _ => False

/-- Free to call `bread` and `brelse` as it likes. -/
def Client (j : Job) : Prop := j = idle ∨ j = inOp

/-- Where a call of `bread` that returns buffer `i` leaves the process. -/
def got (i : Fin NBUF) : Job → Job
  | commit c => commit (c.got i)
  | j => j

/-- Where a call of `brelse` leaves it. -/
def dropped : Job → Job
  | commit c => commit c.dropped
  | j => j

/-- Where a step of `commit` itself leaves it. -/
def after : CommitAt → Job
  | .logTo _ => commit (.head false)
  | .logCopy tail tbuf fbuf => commit (.logPut tail tbuf fbuf)
  | .logPut tail tbuf fbuf => commit (.logDropFrom tail tbuf fbuf)
  | .headStore erase buf => commit (.headPut erase buf)
  | .headPut erase buf => commit (.headDrop erase buf)
  | .instLog _ => commit .clear
  | .instCopy tail lbuf dbuf => commit (.instPut tail lbuf dbuf)
  | .instPut tail lbuf dbuf => commit (.instUnpin tail lbuf dbuf)
  | .instUnpin tail lbuf dbuf => commit (.instDropLog tail lbuf dbuf)
  | .clear => commit (.head true)
  | .finish => idle
  | c => commit c

@[simp] theorem busy_idle : ¬ idle.Busy := id
@[simp] theorem busy_inOp : inOp.Busy := trivial
@[simp] theorem busy_logging {i : Fin NBUF} : (logging i).Busy := trivial
@[simp] theorem busy_commit {c : CommitAt} : ¬ (commit c).Busy := id
@[simp] theorem committing_idle : ¬ idle.Committing := id
@[simp] theorem committing_inOp : ¬ inOp.Committing := id
@[simp] theorem committing_logging {i : Fin NBUF} : ¬ (logging i).Committing := id
@[simp] theorem committing_commit {c : CommitAt} : (commit c).Committing := trivial

@[simp] theorem busy_got {i : Fin NBUF} {j : Job} : (j.got i).Busy ↔ j.Busy := by
  cases j <;> exact Iff.rfl

@[simp] theorem committing_got {i : Fin NBUF} {j : Job} : (j.got i).Committing ↔ j.Committing := by
  cases j <;> exact Iff.rfl

@[simp] theorem busy_dropped {j : Job} : j.dropped.Busy ↔ j.Busy := by cases j <;> exact Iff.rfl

@[simp] theorem committing_dropped {j : Job} : j.dropped.Committing ↔ j.Committing := by
  cases j <;> exact Iff.rfl

@[simp] theorem busy_after {c : CommitAt} : ¬ (after c).Busy := by cases c <;> exact id

theorem committing_iff {j : Job} : j.Committing ↔ ∃ c, j = commit c := by
  cases j <;> simp [Committing]

end Job

/-- The buffers, the log, the disk and the processes. The last three
fields are history, which no step reads: what was last logged of each
block (at first, what the disk holds), the blocks logged and not yet
written home, and the blocks pinned. -/
structure BufSys where
  log : Log
  cache : Bcache
  disk : Disk
  io : Pid → Io
  job : Pid → Job
  /-- Changed and not yet logged. -/
  dirty : Finset (Fin NBUF)
  panic : Option Panic
  stored : ℕ → Block
  pending : Finset ℕ
  pins : Finset ℕ

/-- What a process does next. -/
inductive BufAct
  | bget (p : Pid) (blockno : ℕ)
  | acquiresleep (p : Pid) (i : Fin NBUF)
  | fill (p : Pid) (i : Fin NBUF)
  | releasesleep (p : Pid) (i : Fin NBUF)
  | unref (p : Pid) (i : Fin NBUF)
  | beginOp (p : Pid)
  | modify (p : Pid) (i : Fin NBUF) (d : Block)
  | logCheck (p : Pid) (i : Fin NBUF)
  | logWrite (p : Pid) (i : Fin NBUF)
  | endOp (p : Pid)
  | commit (p : Pid) (c : CommitAt)

namespace BufSys

def setIo (s : BufSys) (p : Pid) (x : Io) : BufSys := { s with io := update s.io p x }

def setJob (s : BufSys) (p : Pid) (j : Job) : BufSys := { s with job := update s.job p j }

/-- Whether the process can take the step now. -/
def Enabled (s : BufSys) : BufAct → Prop
  | .bget p b => s.io p = .none ∧
      ((s.job p).Client ∨ ∃ c, s.job p = .commit c ∧ c.wants s.log = some b)
  | .acquiresleep p i => s.io p = .locking i ∧ (s.cache.buf i).lock = none
  | .fill p i => s.io p = .filling i
  | .releasesleep p i => s.io p = .none ∧
      ((s.job p).Client ∧ (s.cache.buf i).lock = some p ∧ i ∉ s.dirty ∨
        ∃ c, s.job p = .commit c ∧ c.drops = some i)
  | .unref p i => s.io p = .unref i
  | .beginOp p => s.io p = .none ∧ s.job p = .idle ∧ s.log.beginOp.isSome
  | .modify p i _ | .logCheck p i => s.io p = .none ∧ s.job p = .inOp ∧
      (s.cache.buf i).lock = some p ∧ ¬ s.log.InArea (s.cache.buf i).blockno
  | .logWrite p i => s.io p = .none ∧ s.job p = .logging i
  | .endOp p => s.io p = .none ∧ s.job p = .inOp ∧
      ∀ i ∈ s.dirty, (s.cache.buf i).lock ≠ some p
  | .commit p c => s.io p = .none ∧ s.job p = .commit c ∧ c.wants s.log = none ∧ c.drops = none

instance (j : Job) : Decidable j.Client := inferInstanceAs (Decidable (_ ∨ _))

instance (j : Job) (Q : CommitAt → Prop) [DecidablePred Q] :
    Decidable (∃ c, j = .commit c ∧ Q c) :=
  match j with
  | .commit c => decidable_of_iff (Q c) (by simp)
  | .idle | .inOp | .logging _ => isFalse (by simp)

instance (s : BufSys) : (a : BufAct) → Decidable (s.Enabled a)
  | .bget _ _ | .releasesleep _ _ =>
    inferInstanceAs (Decidable (_ ∧ (_ ∨ ∃ c, _ = Job.commit c ∧ _)))
  | .acquiresleep _ _ | .logWrite _ _ => inferInstanceAs (Decidable (_ ∧ _))
  | .fill p i => inferInstanceAs (Decidable (s.io p = .filling i))
  | .unref p i => inferInstanceAs (Decidable (s.io p = .unref i))
  | .beginOp _ | .endOp _ => inferInstanceAs (Decidable (_ ∧ _ ∧ _))
  | .modify _ _ _ | .logCheck _ _ | .commit _ _ => inferInstanceAs (Decidable (_ ∧ _ ∧ _ ∧ _))

/-- `bwrite` of buffer `i` by `p`. -/
def bwrite (s : BufSys) (p : Pid) (i : Fin NBUF) : BufSys :=
  if (s.cache.buf i).lock = some p then
    { s with disk := update s.disk (s.cache.buf i).blockno (s.cache.buf i).data }
  else { s with panic := some .bwrite }

/-- What `commit` does at a point where it calls neither `bread` nor
`brelse`, and what `end_op` does after it. -/
def commitEffect (s : BufSys) (p : Pid) : CommitAt → BufSys
  | .logCopy _ tbuf fbuf => { s with cache := s.cache.setData tbuf (s.cache.buf fbuf).data }
  | .logPut _ tbuf _ => s.bwrite p tbuf
  | .headStore _ buf =>
    { s with cache := s.cache.setData buf (s.log.lh.store (s.cache.buf buf).data) }
  | .headPut _ buf => s.bwrite p buf
  | .instCopy _ lbuf dbuf => { s with cache := s.cache.setData dbuf (s.cache.buf lbuf).data }
  | .instPut tail _ dbuf =>
    { s.bwrite p dbuf with pending := s.pending.erase (s.log.lh.block tail) }
  | .instUnpin tail _ dbuf =>
    { s with cache := s.cache.bunpin dbuf, pins := s.pins.erase (s.log.lh.block tail) }
  | .clear => { s with log := s.log.clear }
  | .finish => { s with log := s.log.endCommit }
  | _ => s

/-- The state after the step. -/
def next (s : BufSys) : BufAct → BufSys
  | .bget p b => match s.cache.bget s.log.dev b with
    | .ok (i, c) => { s with cache := c }.setIo p (.locking i)
    | .error e => { s with panic := some e }
  | .acquiresleep p i => { s with cache := s.cache.acquiresleep i p }.setIo p (.filling i)
  | .fill p i =>
    ({ s with cache := s.cache.fill i s.disk }.setIo p .none).setJob p ((s.job p).got i)
  | .releasesleep p i =>
    if (s.cache.buf i).lock = some p then
      ({ s with cache := s.cache.releasesleep i }.setIo p (.unref i)).setJob p (s.job p).dropped
    else { s with panic := some .brelse }
  | .unref p i => { s with cache := s.cache.unref i }.setIo p .none
  | .beginOp p => match s.log.beginOp with
    | some log => { s with log }.setJob p .inOp
    | none => s
  | .modify _ i d => { s with cache := s.cache.setData i d, dirty := insert i s.dirty }
  | .logCheck p i => match s.log.logWriteCheck with
    | .ok () => s.setJob p (.logging i)
    | .error e => { s with panic := some e }
  | .logWrite p i => match s.log.logWrite (s.cache.buf i).blockno with
    | .ok (pin, log) =>
      { s with
        log
        cache := if pin then s.cache.bpin i else s.cache
        dirty := s.dirty.erase i
        stored := update s.stored (s.cache.buf i).blockno (s.cache.buf i).data
        pending := insert (s.cache.buf i).blockno s.pending
        pins := insert (s.cache.buf i).blockno s.pins }.setJob p .inOp
    | .error e => { s with panic := some e }
  | .endOp p => match s.log.endOp with
    | .ok (true, log) =>
      { s with log }.setJob p (.commit (if log.lh.n > 0 then .logTo 0 else .finish))
    | .ok (false, log) => { s with log }.setJob p .idle
    | .error e => { s with panic := some e }
  | .commit p c => (s.commitEffect p c).setJob p (Job.after c)

/-- Nobody uses the cache, what it holds is on the disk, and the log is
empty: the machine has come up and recovered, or found nothing to
recover. -/
structure Start (s : BufSys) : Prop where
  dev : s.log.dev ≠ 0
  size : LOGSIZE ≤ s.log.size
  outstanding : s.log.outstanding = 0
  committing : s.log.committing = false
  n : s.log.lh.n = 0
  linked : s.cache.Linked
  unique : ∀ i j, (s.cache.buf i).dev ≠ 0 → (s.cache.buf i).dev = (s.cache.buf j).dev →
    (s.cache.buf i).blockno = (s.cache.buf j).blockno → i = j
  refcnt : ∀ i, (s.cache.buf i).refcnt = 0
  lock : ∀ i, (s.cache.buf i).lock = none
  clean : ∀ i, (s.cache.buf i).valid → (s.cache.buf i).dev = s.log.dev →
    (s.cache.buf i).data = s.disk (s.cache.buf i).blockno
  io : ∀ p, s.io p = .none
  job : ∀ p, s.job p = .idle
  dirty : s.dirty = ∅
  panic : s.panic = none
  stored : s.stored = s.disk
  pending : s.pending = ∅
  pins : s.pins = ∅

/-- A machine just booted on a file system `mkfs` has made. -/
def fresh (d : Disk) : BufSys where
  log := .mkfs
  cache := .binit
  disk := d
  io _ := .none
  job _ := .idle
  dirty := ∅
  panic := none
  stored := d
  pending := ∅
  pins := ∅

theorem fresh_start (d : Disk) : (fresh d).Start where
  dev := Nat.one_ne_zero
  size := le_rfl
  outstanding := rfl
  committing := rfl
  n := rfl
  linked := Bcache.binit_linked
  unique _ _ hi := absurd rfl hi
  refcnt _ := rfl
  lock _ := rfl
  clean _ hv := Bool.noConfusion hv
  io _ := rfl
  job _ := rfl
  dirty := rfl
  panic := rfl
  stored := rfl
  pending := rfl
  pins := rfl

/-- The buffers, the log and the processes, stopping at the first
panic. -/
def system : System BufSys BufAct :=
  .guarded Start (fun s a => s.panic = none ∧ s.Enabled a) next

end BufSys

end Xv6
