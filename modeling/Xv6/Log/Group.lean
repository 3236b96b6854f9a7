import Xv6.Common.System
import Xv6.Log.Control
import Xv6.Log.Crash
/-!
# Group commit — the log among concurrent operations

Any number of processes call `begin_op`, `log_write` and `end_op`, in any
order; the last operation to end commits for all of them. A step is one
section under `log.lock`, one change to a locked buffer, or one disk write
of `commit`, which runs outside the lock. As in the crash model `view b`
is what `bread` of block `b` gives, and a buffer is locked from `bread` to
`brelse`.

A process changes only buffers it has locked, inside an operation. Beyond
that its conduct is free: it may release a buffer it has changed, or end
the operation, without a `log_write`, as `writei` does when the copy into
the buffer fails half way.
-/

namespace Xv6

open Common Function

/-- Where `commit` is: each point is before the disk write or the update
it names. -/
inductive CommitPc
  | writeLog (tail : ℕ)
  | writeHead
  | install (tail : ℕ)
  | clear
  | erase
  | finish
  deriving DecidableEq

/-- Where a process is. -/
inductive OpPc
  /-- Outside any operation. -/
  | idle
  /-- Between `begin_op` and `end_op`. -/
  | inOp
  /-- In `log_write`, past its checks and before its section. -/
  | logging (b : ℕ)
  /-- In `end_op`, committing. -/
  | commit (c : CommitPc)
  deriving DecidableEq

/-- One `log_write`: the operation making it, the block, and the contents
logged. -/
structure Logged where
  op : ℕ
  block : ℕ
  data : Block

/-- What a commit put on disk, with what led up to it: the disk at its
first `write_head`, the `log_write`s and the ends of operations since the
commit before, and the buffers as the last of these operations left
them. -/
structure CommitRecord where
  disk : Disk
  writes : List Logged
  ended : List ℕ
  left : ℕ → Block

/-- The log, the blocks, and the processes `P`. The last seven fields are
history, which no step reads: the buffers changed and not yet logged, the
operation each process is in, the next operation's number, what has been
logged and which operations have ended since the last commit (newest
first), the buffers when an operation last ended with no other in
progress, and the commits so far. -/
structure LogSys (P : Type) where
  log : Log
  view : ℕ → Block
  disk : Disk
  holder : ℕ → Option P
  pc : P → OpPc
  panic : Option Panic
  dirty : Finset ℕ
  opOf : P → ℕ
  nextOp : ℕ
  writes : List Logged
  ended : List ℕ
  left : ℕ → Block
  commits : List CommitRecord

/-- What a process does next. -/
inductive LogAct (P : Type)
  | beginOp (p : P)
  | lock (p : P) (b : ℕ)
  | modify (p : P) (b : ℕ) (d : Block)
  | logCheck (p : P) (b : ℕ)
  | logWrite (p : P) (b : ℕ)
  | unlock (p : P) (b : ℕ)
  | endOp (p : P)
  | commit (p : P)

/-- The log on disk: the blocks its header names, each with the contents
of its slot. -/
def Disk.logged (d : Disk) (start : ℕ) : List (ℕ × Block) :=
  (List.range (LogHeader.diskN (d start))).map fun i =>
    (LogHeader.diskBlock (d start) i, d (start + i + 1))

/-- The last `log_write` of a block. -/
def latest (ws : List Logged) (b : ℕ) : Option Logged := ws.find? fun w => w.block = b

namespace LogSys

variable {P : Type} [DecidableEq P]

def setPc (s : LogSys P) (p : P) (c : OpPc) : LogSys P := { s with pc := update s.pc p c }

/-- One `bwrite` of the buffer of block `b` with contents `c`. -/
def put (s : LogSys P) (b : ℕ) (c : Block) : LogSys P :=
  { s with view := update s.view b c, disk := update s.disk b c }

/-- The buffers the next step of `commit` is to lock are free. -/
def BufsFree (s : LogSys P) : CommitPc → Prop
  | .writeLog tail | .install tail => tail < s.log.lh.n →
      s.holder (s.log.start + tail + 1) = none ∧ s.holder (s.log.lh.block tail) = none
  | .writeHead | .erase => s.holder s.log.start = none
  | .clear | .finish => True

/-- Whether a process can take the step now. A process that cannot is
asleep or has other things to do. -/
def Enabled (s : LogSys P) : LogAct P → Prop
  | .beginOp p => s.pc p = .idle ∧ s.log.beginOp.isSome
  | .lock p b => (s.pc p = .idle ∨ s.pc p = .inOp) ∧ s.holder b = none
  | .modify p b _ => s.pc p = .inOp ∧ s.holder b = some p ∧ ¬ s.log.InArea b
  | .logCheck p b => s.pc p = .inOp ∧ s.holder b = some p ∧ ¬ s.log.InArea b ∧ b < 2 ^ 32
  | .logWrite p b => s.pc p = .logging b
  | .unlock p b => (s.pc p = .idle ∨ s.pc p = .inOp) ∧ s.holder b = some p
  | .endOp p => s.pc p = .inOp
  | .commit p => ∃ c, s.pc p = .commit c ∧ s.BufsFree c

/-- One disk write or update of `commit`, and the end of `end_op` after
it. -/
def commitStep (s : LogSys P) (p : P) : CommitPc → LogSys P
  | .writeLog tail =>
    if tail < s.log.lh.n then
      (s.put (s.log.start + tail + 1) (s.view (s.log.lh.block tail))).setPc p
        (.commit (.writeLog (tail + 1)))
    else s.setPc p (.commit .writeHead)
  | .writeHead =>
    let s' := s.put s.log.start (s.log.lh.store (s.view s.log.start))
    { s'.setPc p (.commit (.install 0)) with
      commits := ⟨s'.disk, s.writes, s.ended, s.left⟩ :: s.commits }
  | .install tail =>
    if tail < s.log.lh.n then
      (s.put (s.log.lh.block tail) (s.view (s.log.start + tail + 1))).setPc p
        (.commit (.install (tail + 1)))
    else s.setPc p (.commit .clear)
  | .clear => { s.setPc p (.commit .erase) with log := s.log.clear }
  | .erase =>
    (s.put s.log.start (s.log.lh.store (s.view s.log.start))).setPc p (.commit .finish)
  | .finish =>
    { s.setPc p .idle with log := s.log.endCommit, writes := [], ended := [] }

/-- The state after the step. -/
def next (s : LogSys P) : LogAct P → LogSys P
  | .beginOp p => match s.log.beginOp with
    | some log => { s.setPc p .inOp with
        log, opOf := update s.opOf p s.nextOp, nextOp := s.nextOp + 1 }
    | none => s
  | .lock p b => { s with holder := update s.holder b (some p) }
  | .modify _ b d => { s with view := update s.view b d, dirty := insert b s.dirty }
  | .logCheck p b => match s.log.logWriteCheck with
    | .ok () => s.setPc p (.logging b)
    | .error e => { s with panic := some e }
  | .logWrite p b => match s.log.logWrite b with
    | .ok (_, log) => { s.setPc p .inOp with
        log, dirty := s.dirty.erase b, writes := ⟨s.opOf p, b, s.view b⟩ :: s.writes }
    | .error e => { s with panic := some e }
  | .unlock _ b => { s with holder := update s.holder b none }
  | .endOp p => match s.log.endOp with
    | .ok (true, log) => { s.setPc p (.commit (if log.lh.n > 0 then .writeLog 0 else .finish)) with
        log, ended := s.opOf p :: s.ended, left := s.view }
    | .ok (false, log) => { s.setPc p .idle with log, ended := s.opOf p :: s.ended }
    | .error e => { s with panic := some e }
  | .commit p => match s.pc p with
    | .commit c => s.commitStep p c
    | _ => s

/-- No operation has begun and nothing is logged, on any disk with a log
area as `mkfs` lays it out. -/
structure Start (s : LogSys P) : Prop where
  size : LOGSIZE ≤ s.log.size
  outstanding : s.log.outstanding = 0
  committing : s.log.committing = false
  n : s.log.lh.n = 0
  holder : ∀ b, s.holder b = none
  dirty : s.dirty = ∅
  pc : ∀ p, s.pc p = .idle
  panic : s.panic = none
  writes : s.writes = []
  ended : s.ended = []
  commits : s.commits = []

/-- A fresh file system, with all its blocks zero. -/
def fresh (P : Type) : LogSys P where
  log := .mkfs
  view _ _ := 0
  disk _ _ := 0
  holder _ := none
  pc _ := .idle
  panic := none
  dirty := ∅
  opOf _ := 0
  nextOp := 0
  writes := []
  ended := []
  left _ _ := 0
  commits := []

/-- The log and the processes, stopping at the first panic. -/
def system (P : Type) [DecidableEq P] : System (LogSys P) (LogAct P) :=
  .guarded Start (fun s a => s.panic = none ∧ s.Enabled a) next

instance (s : LogSys P) : (c : CommitPc) → Decidable (s.BufsFree c)
  | .writeLog tail | .install tail => inferInstanceAs (Decidable (tail < s.log.lh.n →
      s.holder (s.log.start + tail + 1) = none ∧ s.holder (s.log.lh.block tail) = none))
  | .writeHead | .erase => inferInstanceAs (Decidable (s.holder s.log.start = none))
  | .clear | .finish => isTrue trivial

instance (s : LogSys P) : (a : LogAct P) → Decidable (s.Enabled a)
  | .beginOp p => inferInstanceAs (Decidable (s.pc p = .idle ∧ s.log.beginOp.isSome))
  | .lock p b => inferInstanceAs (Decidable ((s.pc p = .idle ∨ s.pc p = .inOp) ∧ s.holder b = none))
  | .modify p b _ => inferInstanceAs
      (Decidable (s.pc p = .inOp ∧ s.holder b = some p ∧ ¬ s.log.InArea b))
  | .logCheck p b => inferInstanceAs
      (Decidable (s.pc p = .inOp ∧ s.holder b = some p ∧ ¬ s.log.InArea b ∧ b < 2 ^ 32))
  | .logWrite p b => inferInstanceAs (Decidable (s.pc p = .logging b))
  | .unlock p b => inferInstanceAs
      (Decidable ((s.pc p = .idle ∨ s.pc p = .inOp) ∧ s.holder b = some p))
  | .endOp p => inferInstanceAs (Decidable (s.pc p = .inOp))
  | .commit p => match h : s.pc p with
    | .commit c => decidable_of_iff (s.BufsFree c) (by simp [Enabled, h])
    | .idle | .inOp | .logging _ => isFalse (by simp [Enabled, h])

end LogSys

/-! ## Who may be where -/

/-- Inside an operation. -/
def OpPc.Busy : OpPc → Prop
  | .inOp | .logging _ => True
  | _ => False

/-- Inside `commit`. -/
def OpPc.Committing : OpPc → Prop
  | .commit _ => True
  | _ => False

namespace OpPc

@[simp] theorem busy_idle : ¬ idle.Busy := id
@[simp] theorem busy_inOp : inOp.Busy := trivial
@[simp] theorem busy_logging {b : ℕ} : (logging b).Busy := trivial
@[simp] theorem busy_commit {c : CommitPc} : ¬ (commit c).Busy := id
@[simp] theorem committing_idle : ¬ idle.Committing := id
@[simp] theorem committing_inOp : ¬ inOp.Committing := id
@[simp] theorem committing_logging {b : ℕ} : ¬ (logging b).Committing := id
@[simp] theorem committing_commit {c : CommitPc} : (commit c).Committing := trivial

end OpPc

namespace LogSys

variable {P : Type} {s s' : LogSys P} {p q : P}

theorem fresh_start : (fresh P).Start :=
  ⟨le_refl LOGSIZE, rfl, rfl, rfl, fun _ => rfl, rfl, fun _ => rfl, rfl, rfl, rfl, rfl⟩

/-- Control of the processes, and that `end_op` does not find a commit
running. -/
structure Ctl (s : LogSys P) : Prop extends
    s.log.Control OpPc.Busy OpPc.Committing s.pc where
  noPanic : s.panic ≠ some .logCommitting

namespace Ctl

theorem start (h : s.Start) : s.Ctl where
  toControl := .start h.outstanding h.committing (by simp [h.pc]) (by simp [h.pc])
  noPanic := by simp [h.panic]

theorem not_committing (h : s.Ctl) (hp : (s.pc p).Busy) : s.log.committing = false :=
  h.toControl.not_committing hp

theorem not_busy (h : s.Ctl) (hp : (s.pc p).Committing) : ¬ (s.pc q).Busy :=
  h.toControl.not_busy hp

variable [DecidableEq P]

/-- **Control is kept by every step.** -/
theorem next (h : s.Ctl) {a : LogAct P} (ha : s.Enabled a) : (s.next a).Ctl := by
  cases a with
  | beginOp p =>
    obtain ⟨hp, hsome⟩ := ha
    obtain ⟨log, hlog⟩ := Option.isSome_iff_exists.1 hsome
    simp only [LogSys.next, hlog]
    exact ⟨h.toControl.beginOp (by simp [hp]) hlog OpPc.busy_inOp OpPc.committing_inOp, h.noPanic⟩
  | lock | modify | unlock => exact ⟨h.toControl, h.noPanic⟩
  | logCheck p b =>
    have hp : s.pc p = .inOp := ha.1
    simp only [LogSys.next]
    split
    · exact ⟨h.toControl.move rfl rfl (by simp [hp]) (by simp [hp]), h.noPanic⟩
    · rename_i e he
      refine ⟨h.toControl, ?_⟩
      simp only [Log.logWriteCheck] at he
      split at he
      · cases he; simp
      · split at he <;> cases he
        simp
  | logWrite p b =>
    have hp : s.pc p = .logging b := ha
    simp only [LogSys.next]
    split
    · rename_i pin log hlog
      have hsame := Log.logWrite_frame hlog
      exact ⟨h.toControl.move (by rw [hsame]) (by rw [hsame]) (by simp [hp]) (by simp [hp]),
        h.noPanic⟩
    · rename_i e he
      refine ⟨h.toControl, ?_⟩
      simp only [Log.logWrite] at he
      split at he
      · cases he; simp
      · split at he <;> cases he
  | endOp p =>
    have hp : (s.pc p).Busy := by rw [show s.pc p = .inOp from ha]; exact OpPc.busy_inOp
    simp only [LogSys.next, Log.endOp_of_not_committing (h.not_committing hp)]
    by_cases h1 : s.log.outstanding = 1
    · simp only [h1, decide_true]
      exact ⟨h.toControl.endOp hp (by simp [h1]) (by simp [h1]) OpPc.busy_commit fun _ => h1,
        h.noPanic⟩
    · simp only [h1, decide_false]
      exact ⟨h.toControl.endOp hp rfl (by simp [h1]) OpPc.busy_idle fun hc =>
        absurd hc OpPc.committing_idle, h.noPanic⟩
  | commit p =>
    obtain ⟨c, hp, -⟩ := ha
    have hmove : ∀ c', s.log.Control OpPc.Busy OpPc.Committing (update s.pc p (.commit c')) :=
      fun c' => h.toControl.move rfl rfl (by simp [hp]) (by simp [hp])
    simp only [LogSys.next, hp]
    cases c with
    | writeLog | install => simp only [commitStep]; split <;> exact ⟨hmove _, h.noPanic⟩
    | writeHead | erase => exact ⟨hmove _, h.noPanic⟩
    | clear => exact ⟨h.toControl.move rfl rfl (by simp [hp]) (by simp [hp]), h.noPanic⟩
    | finish =>
      exact ⟨h.toControl.finish (by simp [hp]) rfl rfl (by simp [hp])
        OpPc.committing_idle, h.noPanic⟩

theorem reachable (h : (system P).Reachable s) : s.Ctl :=
  h.invariant (fun _ => Ctl.start) fun s a s' _ hi hs => by
    obtain ⟨⟨-, ha⟩, rfl⟩ := hs
    exact hi.next ha

end Ctl

end LogSys

end Xv6
