import Xv6.Common.Bytes
import Xv6.Common.Prog
import Xv6.Param
/-!
# Blocks, disks and panics

What every layer of the kernel model shares: the disk as numbered blocks
of `BSIZE` bytes, and the reasons for which the kernel stops.
-/

namespace Xv6

open Common

/-- The contents of one disk block. -/
abbrev Block : Type := Bytes BSIZE

/-- The disk: block numbers to contents. The driver addresses it by block
number alone, whatever the device. -/
abbrev Disk : Type := ℕ → Block

/-- The calls of `panic` the model can reach, one constructor for each
message. What the source leaves undefined, or sleeps in for ever, ends a
run as a panic does and is counted here too. -/
inductive Panic
  | bgetNoBuffers
  | bwrite
  | brelse
  /-- No message: the caller sleeps on a buffer lock it holds itself. -/
  | selfDeadlock
  | logCommitting
  /-- `too big a transaction` -/
  | tooBigTransaction
  /-- `log_write outside of trans` -/
  | logWriteOutsideTrans
  /-- No message: `log.lh.block` is indexed past its end. -/
  | logBlockOverflow
  | ballocOutOfBlocks
  | freeingFreeBlock
  | iallocNoInodes
  | igetNoInodes
  | ilock
  | ilockNoType
  | iunlock
  | bmapOutOfRange
  | dirlookupNotDir
  | dirlookupRead
  | dirlinkRead
  | dirlink
  | isdiremptyReadi
  /-- `unlink: nlink < 1` -/
  | unlinkNlink
  | unlinkWritei
  | createDots
  | createDirlink
  | acquire
  | release
  | initExiting
  | zombieExit
  | wakeup1
  /-- `sched p->lock` -/
  | schedLock
  | schedLocks
  | schedInterruptible
  | popOffInterruptible
  | popOff
  /-- No message: `exit` takes the lock of a parent that is 0. -/
  | noParent
  | kfree
  | walk
  | remap
  | uvmunmapNotAligned
  | uvmunmapWalk
  | uvmunmapNotMapped
  /-- `uvmunmap: not a leaf` -/
  | uvmunmapNotLeaf
  /-- `inituvm: more than a page` -/
  | inituvm
  | freewalkLeaf
  /-- `uvmcopy: pte should exist` -/
  | uvmcopyPte
  /-- `uvmcopy: page not present` -/
  | uvmcopyPage
  | uvmclear
  /-- `loadseg: va must be page aligned` -/
  | loadsegAligned
  /-- `loadseg: address should exist` -/
  | loadsegAddress
  | filedup
  | fileclose
  | fileread
  | filewrite
  | shortFilewrite
  | virtioDiskIntr1
  | virtioDiskIntr2
  | virtioDiskIntrStatus
  /-- No message: a null pointer is followed. -/
  | nullPointer
  /-- No message: the function does not return. -/
  | noReturn
  deriving DecidableEq, Repr

/-- A kernel function over the state `σ`. -/
abbrev Kern (σ α : Type) : Type := Prog Panic σ α

end Xv6
