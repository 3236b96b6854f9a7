import Xv6.Basic
import Mathlib.Data.List.Nodup
/-!
# The redo log — `kernel/log.c`

The in-memory log, the on-disk header block, and the functions of
`log.c`. What runs outside `log.lock` — `write_log`, `write_head`,
`install_trans`, `read_head`, and `commit` and `recover_from_log` over
them — is written over the operations of the buffer cache it calls, so
that one text serves an idealised cache and the buffers of `bio.c`. What
runs under `log.lock` is one section each: the checks and updates of
`begin_op`, `end_op` and `log_write`.
-/

namespace Xv6

open Common List

/-- `struct logheader`: the number of logged blocks and their home block
numbers. -/
structure LogHeader where
  n : ℕ
  block : ℕ → ℕ

/-- `struct log`, without its spin lock. -/
structure Log where
  start : ℕ
  size : ℕ
  /-- How many FS system calls are executing. -/
  outstanding : ℤ
  /-- In `commit()`, please wait. -/
  committing : Bool
  dev : ℕ
  lh : LogHeader

namespace LogHeader

/-- The logged block numbers, in slot order. -/
def blocks (lh : LogHeader) : List ℕ := (List.range lh.n).map lh.block

/-- `hb->n` as the `int` it is. A negative count runs no iteration of any
loop over the header, which is what zero does. -/
def diskN (b : Block) : ℕ :=
  if b.readLE 0 4 < 2 ^ 31 then b.readLE 0 4 else 0

/-- `hb->block[i]`. -/
def diskBlock (b : Block) (i : ℕ) : ℕ := b.readLE (4 + 4 * i) 4

/-- The copy loop of `read_head`: the entries past `n` keep what the
in-memory header had there. -/
def load (lh : LogHeader) (b : Block) : LogHeader where
  n := diskN b
  block i := if i < diskN b then diskBlock b i else lh.block i

/-- The copy loop of `write_head`: the bytes past the `n` entries keep
what the buffer had there. -/
def store (lh : LogHeader) (b : Block) : Block :=
  (List.range lh.n).foldl (fun b i => b.writeLE (4 + 4 * i) 4 (lh.block i)) (b.writeLE 0 4 lh.n)

/-! A header written to a block reads back from it: the count and the
entries below it. -/

theorem mem_blocks {lh : LogHeader} {b : ℕ} : b ∈ lh.blocks ↔ ∃ i, i < lh.n ∧ lh.block i = b := by
  simp [blocks]

theorem store_eq (lh : LogHeader) (b : Block) :
    lh.store b = (b.writeLE 0 4 lh.n).writeWords 4 lh.block lh.n := rfl

/-- The count written is what the field has, -/
theorem readLE_store {lh : LogHeader} (hn : lh.n ≤ LOGSIZE) (b : Block) :
    (lh.store b).readLE 0 4 = lh.n := by
  rw [store_eq, Bytes.readLE_writeWords_of_disjoint (by omega),
    Bytes.readLE_writeLE (by simp only [BSIZE]; omega)]
  simp only [LOGSIZE, MAXOPBLOCKS] at hn
  omega

/-- and the count read. -/
theorem diskN_store {lh : LogHeader} (hn : lh.n ≤ LOGSIZE) (b : Block) :
    diskN (lh.store b) = lh.n := by
  rw [diskN, readLE_store hn]
  simp only [LOGSIZE, MAXOPBLOCKS] at hn
  rw [if_pos (by omega)]

/-- The entries written are the entries read. -/
theorem diskBlock_store {lh : LogHeader} (hn : lh.n ≤ LOGSIZE) (b : Block) {i : ℕ}
    (hi : i < lh.n) (hlt : lh.block i < 2 ^ 32) : diskBlock (lh.store b) i = lh.block i := by
  rw [diskBlock, store_eq,
    Bytes.readLE_writeWords (by simp only [LOGSIZE, MAXOPBLOCKS, BSIZE] at *; omega) hi]
  omega

end LogHeader

/-- What `log.c` calls of the buffer cache, for a type `β` of buffers:
`bread`, the buffer's data read and replaced, `bwrite`, `brelse` and
`bunpin`. -/
structure BufOps (σ β : Type) where
  bread : ℕ → ℕ → Kern σ β
  data : β → Kern σ Block
  setData : β → Block → Kern σ Unit
  bwrite : β → Kern σ Unit
  brelse : β → Kern σ Unit
  bunpin : β → Kern σ Unit

namespace Log

/-- The log of a file system `mkfs` has made, with nothing logged: its
area starts after the boot block and the superblock. -/
def mkfs : Log where
  start := 2
  size := LOGSIZE
  outstanding := 0
  committing := false
  dev := ROOTDEV
  lh := { n := 0, block := fun _ => 0 }

variable {σ β : Type} (io : BufOps σ β)

/-- The body of `install_trans`'s loop. -/
def installBlock (log : Log) (tail : ℕ) : Kern σ Unit := do
  let lbuf ← io.bread log.dev (log.start + tail + 1)
  let dbuf ← io.bread log.dev (log.lh.block tail)
  io.setData dbuf (← io.data lbuf)
  io.bwrite dbuf
  io.bunpin dbuf
  io.brelse lbuf
  io.brelse dbuf

/-- Copy committed blocks from log to their home location. -/
def installTrans (log : Log) : Kern σ Unit :=
  (List.range log.lh.n).forM (installBlock io log)

/-- Read the log header from disk into the in-memory log header. -/
def readHead (log : Log) : Kern σ Log := do
  let buf ← io.bread log.dev log.start
  let hb ← io.data buf
  io.brelse buf
  return { log with lh := log.lh.load hb }

/-- Write in-memory log header to disk. This is the true point at which
the current transaction commits. -/
def writeHead (log : Log) : Kern σ Unit := do
  let buf ← io.bread log.dev log.start
  io.setData buf (log.lh.store (← io.data buf))
  io.bwrite buf
  io.brelse buf

/-- `log.lh.n = 0`. -/
def clear (log : Log) : Log := { log with lh := { log.lh with n := 0 } }

def recoverFromLog (log : Log) : Kern σ Log := do
  let log ← readHead io log
  installTrans io log
  writeHead io log.clear
  return log.clear

/-- The body of `write_log`'s loop. -/
def writeLogBlock (log : Log) (tail : ℕ) : Kern σ Unit := do
  let tbuf ← io.bread log.dev (log.start + tail + 1)
  let fbuf ← io.bread log.dev (log.lh.block tail)
  io.setData tbuf (← io.data fbuf)
  io.bwrite tbuf
  io.brelse fbuf
  io.brelse tbuf

/-- Copy modified blocks from cache to log. -/
def writeLog (log : Log) : Kern σ Unit :=
  (List.range log.lh.n).forM (writeLogBlock io log)

def commit (log : Log) : Kern σ Log := do
  if log.lh.n > 0 then
    writeLog io log
    writeHead io log
    installTrans io log
    writeHead io log.clear
    return log.clear
  else
    return log

/-! ## The sections under `log.lock` -/

/-- The body of `begin_op`'s loop. `none` is the caller going to sleep on
the log, to look again when woken. -/
def beginOp (log : Log) : Option Log :=
  if log.committing then none
  else if (log.lh.n : ℤ) + (log.outstanding + 1) * MAXOPBLOCKS > LOGSIZE then none
  else some { log with outstanding := log.outstanding + 1 }

/-- **Admission.** `begin_op` returns only when no commit is running and
the operation's share of the log is free. -/
theorem beginOp_eq_some {log log' : Log} : log.beginOp = some log' ↔
    log.committing = false ∧ (log.lh.n : ℤ) + (log.outstanding + 1) * MAXOPBLOCKS ≤ LOGSIZE ∧
      log' = { log with outstanding := log.outstanding + 1 } := by
  unfold beginOp
  cases hc : log.committing
  · simp [eq_comm]
  · simp

/-- The first section of `end_op`; the flag is `do_commit`. -/
def endOp (log : Log) : Except Panic (Bool × Log) :=
  let log := { log with outstanding := log.outstanding - 1 }
  if log.committing then .error .logCommitting
  else if log.outstanding = 0 then .ok (true, { log with committing := true })
  else .ok (false, log)

/-- Where no commit is running, `end_op` takes the operation off the count,
and is to commit exactly when none is left. -/
theorem endOp_of_not_committing {log : Log} (h : log.committing = false) :
    log.endOp = .ok (decide (log.outstanding = 1),
      { log with outstanding := log.outstanding - 1,
                 committing := decide (log.outstanding = 1) }) := by
  unfold endOp
  by_cases h1 : log.outstanding = 1
  · simp [h, h1]
  · simp [h, h1, show ¬ log.outstanding - 1 = 0 by omega]

/-- The last section of `end_op`, after `commit` has returned. -/
def endCommit (log : Log) : Log := { log with committing := false }

/-- The checks `log_write` makes before it takes the lock. -/
def logWriteCheck (log : Log) : Except Panic Unit :=
  if LOGSIZE ≤ log.lh.n ∨ (log.size : ℤ) - 1 ≤ log.lh.n then .error .tooBigTransaction
  else if log.outstanding < 1 then .error .logWriteOutsideTrans
  else .ok ()

/-- The slot `log_write`'s search loop stops at: the first one holding the
block, or `n`. -/
def logSlot (log : Log) (blockno : ℕ) : ℕ :=
  ((List.range log.lh.n).find? fun i => log.lh.block i = blockno).getD log.lh.n

/-- The section of `log_write` under the lock; the flag says whether the
buffer was pinned. -/
def logWrite (log : Log) (blockno : ℕ) : Except Panic (Bool × Log) :=
  let i := log.logSlot blockno
  let block := fun j => if j = i then blockno else log.lh.block j
  if LOGSIZE ≤ i then .error .logBlockOverflow
  else if i = log.lh.n then .ok (true, { log with lh := { n := log.lh.n + 1, block } })
  else .ok (false, { log with lh := { log.lh with block } })

/-- `log_write` changes the header alone. -/
theorem logWrite_frame {log log' : Log} {b : ℕ} {pin : Bool}
    (h : log.logWrite b = .ok (pin, log')) : log' = { log with lh := log'.lh } := by
  simp only [logWrite] at h
  split at h
  · cases h
  · split at h <;> cases h <;> rfl

/-! `log_write` under the lock either finds the block logged and changes
nothing, or appends it. -/

theorem logSlot_of_mem {log : Log} {b : ℕ} (h : b ∈ log.lh.blocks) :
    log.logSlot b < log.lh.n ∧ log.lh.block (log.logSlot b) = b := by
  obtain ⟨i, hi, hb⟩ := LogHeader.mem_blocks.1 h
  cases hf : (List.range log.lh.n).find? fun i => log.lh.block i = b with
  | none =>
    have := find?_eq_none.1 hf i (mem_range.2 hi)
    simp [hb] at this
  | some j =>
    have hj := mem_of_find?_eq_some hf
    have hjb := find?_some hf
    simp only [logSlot, hf, Option.getD_some]
    exact ⟨mem_range.1 hj, by simpa using hjb⟩

theorem logSlot_of_not_mem {log : Log} {b : ℕ} (h : b ∉ log.lh.blocks) :
    log.logSlot b = log.lh.n := by
  have hf : (List.range log.lh.n).find? (fun i => log.lh.block i = b) = none := by
    rw [find?_eq_none]
    intro i hi hb
    exact h (LogHeader.mem_blocks.2 ⟨i, mem_range.1 hi, by simpa using hb⟩)
  rw [logSlot, hf, Option.getD_none]

/-- **Log absorption**: a block already logged is not logged again. -/
theorem logWrite_of_mem {log : Log} {b : ℕ} (h : b ∈ log.lh.blocks) (hn : log.lh.n ≤ LOGSIZE) :
    log.logWrite b = .ok (false, log) := by
  obtain ⟨hlt, hb⟩ := logSlot_of_mem h
  have hblock : (fun j => if j = log.logSlot b then b else log.lh.block j) = log.lh.block := by
    funext j
    split
    · rename_i hj; rw [hj, hb]
    · rfl
  simp only [logWrite, hblock]
  rw [if_neg (by omega), if_neg (by omega)]

/-- The log with one more block in it. -/
def append (log : Log) (b : ℕ) : Log :=
  { log with lh := { n := log.lh.n + 1,
                     block := fun j => if j = log.lh.n then b else log.lh.block j } }

/-- A block not yet logged takes the next slot. -/
theorem logWrite_of_not_mem {log : Log} {b : ℕ} (h : b ∉ log.lh.blocks) :
    log.logWrite b =
      if LOGSIZE ≤ log.lh.n then .error .logBlockOverflow else .ok (true, log.append b) := by
  simp only [logWrite, logSlot_of_not_mem h, append]
  rfl

@[simp] theorem blocks_append (log : Log) (b : ℕ) :
    (log.append b).lh.blocks = log.lh.blocks ++ [b] := by
  simp only [append, LogHeader.blocks, range_succ, map_append, map_cons, map_nil,
    if_true]
  congr 1
  refine map_congr_left fun i hi => ?_
  rw [if_neg (by have := mem_range.1 hi; omega)]

/-- **What `log_write` does to the header**: the block is in it, once, and
was pinned if it was not there before. -/
theorem logWrite_blocks {log log' : Log} {b : ℕ} {pin : Bool} (hnd : log.lh.blocks.Nodup)
    (hn : log.lh.n ≤ LOGSIZE) (h : log.logWrite b = .ok (pin, log')) :
    log'.lh.blocks.Nodup ∧ log'.lh.n ≤ LOGSIZE ∧
      (∀ b', b' ∈ log'.lh.blocks ↔ b' = b ∨ b' ∈ log.lh.blocks) ∧
      (pin = true ↔ b ∉ log.lh.blocks) := by
  by_cases hb : b ∈ log.lh.blocks
  · rw [logWrite_of_mem hb hn] at h
    cases h
    refine ⟨hnd, hn, fun b' => ⟨.inr, ?_⟩, by simp [hb]⟩
    rintro (rfl | hb')
    · exact hb
    · exact hb'
  · rw [logWrite_of_not_mem hb] at h
    split at h <;> cases h
    refine ⟨?_, by simp only [append]; omega, fun b' => ?_, by simp [hb]⟩
    · rw [blocks_append]
      refine nodup_append.2 ⟨hnd, nodup_singleton _, ?_⟩
      rintro x hx y hy rfl
      exact hb (mem_singleton.1 hy ▸ hx)
    · rw [blocks_append, mem_append, mem_singleton, or_comm]

end Log

end Xv6
