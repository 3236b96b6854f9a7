import Xv6.Basic
import Xv6.Common.Bits
import Xv6.Vm.Copy
/-!
# Blocks, inodes and directories — `kernel/fs.c`

The functions of `fs.c` from `bzero` to `dirlink`, as one process runs them
inside a transaction. They see the disk through `bread`, `log_write` and
`brelse`; the cache and the log below are a block store, so a buffer is
here the block it holds, with what was last logged of each block kept next
to what the buffers show. What a buffer held when it was read, and what it
held when it was released, are recorded.
-/

namespace Xv6

open Common Function

/-- `struct superblock`, where the kernel reads it. -/
structure Superblock where
  /-- Size of the file system image in blocks. -/
  size : ℕ
  /-- Number of data blocks; the rest, in front of them, are metadata. -/
  nblocks : ℕ
  ninodes : ℕ
  inodestart : ℕ
  bmapstart : ℕ

namespace Superblock

/-- `IBLOCK(i, sb)` -/
def iblock (sb : Superblock) (inum : ℕ) : ℕ := inum / IPB + sb.inodestart

/-- `BBLOCK(b, sb)` -/
def bblock (sb : Superblock) (b : ℕ) : ℕ := b / BPB + sb.bmapstart

/-- The number of metadata blocks. -/
def nmeta (sb : Superblock) : ℕ := sb.size - sb.nblocks

end Superblock

/-- `struct dinode`. The `short` fields are their 16 bits. -/
structure Dinode where
  type : ℕ
  major : ℕ
  minor : ℕ
  nlink : ℕ
  size : ℕ
  addrs : ℕ → ℕ

namespace Dinode

/-- Where the inode lies in its block. -/
def off (inum : ℕ) : ℕ := inum % IPB * 64

/-- The inode at offset `off` of a block. -/
def load (blk : Block) (off : ℕ) : Dinode where
  type := blk.readLE off 2
  major := blk.readLE (off + 2) 2
  minor := blk.readLE (off + 4) 2
  nlink := blk.readLE (off + 6) 2
  size := blk.readLE (off + 8) 4
  addrs i := blk.readLE (off + 12 + 4 * i) 4

/-- The block with the inode at offset `off` set. -/
def store (d : Dinode) (blk : Block) (off : ℕ) : Block :=
  let blk := blk.writeLE off 2 d.type
  let blk := blk.writeLE (off + 2) 2 d.major
  let blk := blk.writeLE (off + 4) 2 d.minor
  let blk := blk.writeLE (off + 6) 2 d.nlink
  let blk := blk.writeLE (off + 8) 4 d.size
  blk.writeWords (off + 12) d.addrs (NDIRECT + 1)

/-- `memset(dip, 0, sizeof(*dip))` and the type. -/
def fresh (type : ℕ) : Dinode where
  type := type
  major := 0
  minor := 0
  nlink := 0
  size := 0
  addrs _ := 0

end Dinode

/-- `struct inode`, without its lock. -/
structure Inode extends Dinode where
  inum : ℕ
  ref : ℕ
  valid : Bool

/-- `struct dirent` -/
structure Dirent where
  inum : ℕ
  name : ℕ → UInt8

namespace Dirent

def ofBytes (l : List UInt8) : Dirent where
  inum := (l.getD 0 0).toNat + 256 * (l.getD 1 0).toNat
  name i := l.getD (2 + i) 0

def toByte (de : Dirent) (k : ℕ) : UInt8 :=
  if k < 2 then UInt8.ofNat (de.inum / 256 ^ k) else de.name (k - 2)

end Dirent

/-- `strncmp` of `kernel/string.c`. -/
def strncmp (p q : ℕ → UInt8) : ℕ → ℤ
  | 0 => 0
  | n + 1 => if p 0 ≠ 0 ∧ p 0 = q 0 then strncmp (fun i => p (i + 1)) (fun i => q (i + 1)) n
      else (p 0).toNat - (q 0).toNat

/-- `strncpy` of `kernel/string.c`: what it puts at place `i`. -/
def strncpy (t : ℕ → UInt8) (i : ℕ) : UInt8 :=
  if (List.range i).any fun j => t j = 0 then 0 else t i

def namecmp (s t : ℕ → UInt8) : ℤ := strncmp s t DIRSIZ

/-- A buffer in use: what `bread` found in it, and whether it has been
logged since its last change. -/
structure Held where
  orig : Block
  logged : Bool

/-- A buffer as `brelse` got it. -/
structure Release where
  b : ℕ
  orig : Block
  data : Block
  logged : Bool

/-- It holds what was read, or its last change was logged. -/
def Release.Ok (r : Release) : Prop := r.data = r.orig ∨ r.logged = true

/-- The block store, and the inode cache. -/
structure Fs where
  /-- What a buffer of the block holds, or would if it were read. -/
  data : ℕ → Block
  /-- What was last logged of the block, or the disk holds. -/
  logged : ℕ → Block
  held : ℕ → Option Held
  released : List Release
  inode : Fin NINODE → Inode

/-- Where `writei` copies from: kernel memory, or a user address. -/
inductive Source
  | kernel (f : ℕ → UInt8)
  | user (um : UserMem) (va : ℕ)

/-- `either_copyin(dst + off, user_src, src + tot, len)` -/
def Source.copyin (src : Source) (dst : Block) (off tot len : ℕ) : Bool × Block :=
  match src with
  | kernel f => (true, dst.splice off len fun i => f (tot + i))
  | user um va => um.copyin dst off ((va + tot) % 2 ^ 64) len

/-- Where `readi` copies to: kernel memory, or a user address. -/
inductive Dest
  | kernel (mem : ℕ → UInt8)
  | user (um : UserMem) (va : ℕ)

/-- `either_copyout(user_dst, dst + tot, src, len)` -/
def Dest.copyout (dst : Dest) (tot : ℕ) (src : ℕ → UInt8) (len : ℕ) : Bool × Dest :=
  match dst with
  | kernel mem =>
    (true, kernel fun i => if tot ≤ i ∧ i < tot + len then src (i - tot) else mem i)
  | user um va =>
    let (ok, um) := um.copyout ((va + tot) % 2 ^ 64) src len
    (ok, user um va)

namespace Fs

/-! ## Buffers -/

def bread (b : ℕ) : Kern Fs Unit := fun s =>
  match s.held b with
  | some _ => .error .selfDeadlock
  | none => .ok ((), { s with held := update s.held b (some ⟨s.data b, false⟩) })

def getData (b : ℕ) : Kern Fs Block := Prog.gets fun s => s.data b

/-- Changing the data of a buffer in use. -/
def setData (b : ℕ) (blk : Block) : Kern Fs Unit := Prog.modify fun s =>
  { s with
    data := update s.data b blk
    held := update s.held b ((s.held b).map fun h => { h with logged := false }) }

def logWrite (b : ℕ) : Kern Fs Unit := Prog.modify fun s =>
  { s with
    logged := update s.logged b (s.data b)
    held := update s.held b ((s.held b).map fun h => { h with logged := true }) }

def brelse (b : ℕ) : Kern Fs Unit := fun s =>
  match s.held b with
  | none => .error .brelse
  | some h => .ok ((), { s with
      held := update s.held b none
      released := ⟨b, h.orig, s.data b, h.logged⟩ :: s.released })

variable (sb : Superblock)

/-! ## Blocks -/

def bzero (b : ℕ) : Kern Fs Unit := do
  bread b
  setData b fun _ => 0
  logWrite b
  brelse b

/-- The inner loop of `balloc`: the first clear bit of a bitmap block, the
block's first bit standing for block `b`. -/
@[irreducible]
def clearBit (blk : Block) (b : ℕ) : Option ℕ :=
  (List.range BPB).find? fun bi => decide (b + bi < sb.size) && !blk.testBit bi

/-- The outer loop of `balloc`, with `k` bitmap blocks to go. -/
def ballocFrom : ℕ → ℕ → Kern Fs ℕ
  | 0, _ => Prog.stop .ballocOutOfBlocks
  | k + 1, b => do
    bread (sb.bblock b)
    let blk ← getData (sb.bblock b)
    match clearBit sb blk b with
    | some bi =>
      setData (sb.bblock b) (blk.setBit bi)
      logWrite (sb.bblock b)
      brelse (sb.bblock b)
      bzero (b + bi)
      return b + bi
    | none =>
      brelse (sb.bblock b)
      ballocFrom k (b + BPB)

def balloc : Kern Fs ℕ := ballocFrom sb ((sb.size + BPB - 1) / BPB) 0

def bfree (b : ℕ) : Kern Fs Unit := do
  bread (sb.bblock b)
  let blk ← getData (sb.bblock b)
  if blk.testBit (b % BPB) then
    setData (sb.bblock b) (blk.clearBit (b % BPB))
    logWrite (sb.bblock b)
    brelse (sb.bblock b)
  else Prog.stop .freeingFreeBlock

/-! ## Inodes -/

def getInode (ip : Fin NINODE) : Kern Fs Inode := Prog.gets fun s => s.inode ip

def setInode (ip : Fin NINODE) (f : Inode → Inode) : Kern Fs Unit := Prog.modify fun s =>
  { s with inode := update s.inode ip (f (s.inode ip)) }

/-- A cache entry of the inode that is in use. -/
def cachedInode (s : Fs) (inum : ℕ) : Option (Fin NINODE) :=
  (List.finRange NINODE).find? fun ip => decide (0 < (s.inode ip).ref) && (s.inode ip).inum == inum

def emptyInode (s : Fs) : Option (Fin NINODE) :=
  (List.finRange NINODE).find? fun ip => (s.inode ip).ref == 0

def iget (inum : ℕ) : Kern Fs (Fin NINODE) := do
  match ← Prog.gets fun s => s.cachedInode inum with
  | some ip =>
    setInode ip fun i => { i with ref := i.ref + 1 }
    return ip
  | none =>
    match ← Prog.gets emptyInode with
    | none => Prog.stop .igetNoInodes
    | some ip =>
      setInode ip fun i => { i with inum, ref := 1, valid := false }
      return ip

def idup (ip : Fin NINODE) : Kern Fs Unit := setInode ip fun i => { i with ref := i.ref + 1 }

/-- The loop of `ialloc`, with `k` inodes to go. -/
def iallocFrom (type : ℕ) : ℕ → ℕ → Kern Fs (Fin NINODE)
  | 0, _ => Prog.stop .iallocNoInodes
  | k + 1, inum => do
    bread (sb.iblock inum)
    let blk ← getData (sb.iblock inum)
    if (Dinode.load blk (Dinode.off inum)).type = 0 then
      setData (sb.iblock inum) ((Dinode.fresh type).store blk (Dinode.off inum))
      logWrite (sb.iblock inum)
      brelse (sb.iblock inum)
      iget inum
    else
      brelse (sb.iblock inum)
      iallocFrom type k (inum + 1)

def ialloc (type : ℕ) : Kern Fs (Fin NINODE) := iallocFrom sb type (sb.ninodes - 1) 1

def iupdate (ip : Fin NINODE) : Kern Fs Unit := do
  let i ← getInode ip
  bread (sb.iblock i.inum)
  let blk ← getData (sb.iblock i.inum)
  setData (sb.iblock i.inum) (i.toDinode.store blk (Dinode.off i.inum))
  logWrite (sb.iblock i.inum)
  brelse (sb.iblock i.inum)

def ilock (ip : Fin NINODE) : Kern Fs Unit := do
  let i ← getInode ip
  if i.ref < 1 then Prog.stop .ilock
  else if i.valid then return ()
  else
    bread (sb.iblock i.inum)
    let blk ← getData (sb.iblock i.inum)
    let d := Dinode.load blk (Dinode.off i.inum)
    setInode ip fun i => { i with toDinode := d }
    brelse (sb.iblock i.inum)
    setInode ip fun i => { i with valid := true }
    if d.type = 0 then Prog.stop .ilockNoType else return ()

/-- `ip->addrs[i] = addr` -/
def setAddr (ip : Fin NINODE) (i addr : ℕ) : Kern Fs Unit :=
  setInode ip fun n => { n with addrs := update n.addrs i addr }

/-- `((uint*)bp->data)[j]` -/
def word (blk : Block) (j : ℕ) : ℕ := blk.readLE (4 * j) 4

/-- `ip->addrs[i]`, allocating a block if there is none. -/
def addrAlloc (ip : Fin NINODE) (i : ℕ) : Kern Fs ℕ := do
  let n ← getInode ip
  if n.addrs i = 0 then
    let addr ← balloc sb
    setAddr ip i addr
    return addr
  else return n.addrs i

/-- Entry `k` of the indirect block, allocating a block if there is
none. -/
def entryAlloc (ind k : ℕ) : Kern Fs ℕ := do
  bread ind
  let blk ← getData ind
  if word blk k = 0 then
    let addr ← balloc sb
    let blk ← getData ind
    setData ind (blk.writeLE (4 * k) 4 addr)
    logWrite ind
    brelse ind
    return addr
  else
    brelse ind
    return word blk k

def bmap (ip : Fin NINODE) (bn : ℕ) : Kern Fs ℕ := do
  if bn < NDIRECT then addrAlloc sb ip bn
  else if bn - NDIRECT < NINDIRECT then
    let ind ← addrAlloc sb ip NDIRECT
    entryAlloc sb ind (bn - NDIRECT)
  else Prog.stop .bmapOutOfRange

/-- The body of `itrunc`'s loop over the direct blocks. -/
def truncDirect (ip : Fin NINODE) (i : ℕ) : Kern Fs Unit := do
  let n ← getInode ip
  if n.addrs i ≠ 0 then
    bfree sb (n.addrs i)
    setAddr ip i 0

/-- The body of its loop over the entries of the indirect block. -/
def truncEntry (ind j : ℕ) : Kern Fs Unit := do
  let blk ← getData ind
  if word blk j ≠ 0 then bfree sb (word blk j)

/-- The second half of `itrunc`, up to the size. -/
def truncIndirect (ip : Fin NINODE) : Kern Fs Unit := do
  let n ← getInode ip
  if n.addrs NDIRECT ≠ 0 then
    bread (n.addrs NDIRECT)
    (List.range NINDIRECT).forM (truncEntry sb (n.addrs NDIRECT))
    brelse (n.addrs NDIRECT)
    bfree sb (n.addrs NDIRECT)
    setAddr ip NDIRECT 0

def itrunc (ip : Fin NINODE) : Kern Fs Unit := do
  (List.range NDIRECT).forM (truncDirect sb ip)
  truncIndirect sb ip
  setInode ip fun i => { i with size := 0 }
  iupdate sb ip

def iput (ip : Fin NINODE) : Kern Fs Unit := do
  let i ← getInode ip
  if i.ref = 1 ∧ i.valid ∧ i.nlink = 0 then
    itrunc sb ip
    setInode ip fun i => { i with type := 0 }
    iupdate sb ip
    setInode ip fun i => { i with valid := false }
  setInode ip fun i => { i with ref := i.ref - 1 }

/-! ## Inode content -/

/-- The loop of `readi` into kernel memory: the bytes read. -/
def readiLoop (ip : Fin NINODE) (n : ℕ) : ℕ → ℕ → ℕ → Kern Fs (List UInt8)
  | 0, _, _ => return []
  | fuel + 1, tot, off =>
    if tot < n then do
      let b ← bmap sb ip (off / BSIZE)
      bread b
      let blk ← getData b
      let m := min (n - tot) (BSIZE - off % BSIZE)
      brelse b
      let rest ← readiLoop ip n fuel (tot + m) (off + m)
      return (List.range m).map (fun i => blk.get (off % BSIZE + i)) ++ rest
    else return []

def readi (ip : Fin NINODE) (off n : ℕ) : Kern Fs (List UInt8) := do
  let i ← getInode ip
  if i.size < off ∨ (off + n) % 2 ^ 32 < off then return []
  else
    let n := if i.size < (off + n) % 2 ^ 32 then i.size - off else n
    readiLoop sb ip n n 0 off

/-- The loop of `readi` with the memory it copies to: `tot` at its end, and
the memory after it. -/
def readiToLoop (ip : Fin NINODE) (n : ℕ) : ℕ → Dest → ℕ → ℕ → Kern Fs (ℕ × Dest)
  | 0, dst, tot, _ => return (tot, dst)
  | fuel + 1, dst, tot, off =>
    if tot < n then do
      let b ← bmap sb ip (off / BSIZE)
      bread b
      let blk ← getData b
      let m := min (n - tot) (BSIZE - off % BSIZE)
      let (ok, dst) := dst.copyout tot (fun i => blk.get (off % BSIZE + i)) m
      brelse b
      if ok then readiToLoop ip n fuel dst (tot + m) (off + m)
      else return (tot, dst)
    else return (tot, dst)

/-- `readi` with the memory it copies to. -/
def readiTo (ip : Fin NINODE) (dst : Dest) (off n : ℕ) : Kern Fs (ℕ × Dest) := do
  let i ← getInode ip
  if i.size < off ∨ (off + n) % 2 ^ 32 < off then return (0, dst)
  else
    let n := if i.size < (off + n) % 2 ^ 32 then i.size - off else n
    readiToLoop sb ip n n dst 0 off

/-- The loop of `writei`: the offset it ends at. A copy that fails part
way has changed the buffer all the same. -/
def writeiLoop (ip : Fin NINODE) (src : Source) (n : ℕ) : ℕ → ℕ → ℕ → Kern Fs ℕ
  | 0, _, off => return off
  | fuel + 1, tot, off =>
    if tot < n then do
      let b ← bmap sb ip (off / BSIZE)
      bread b
      let blk ← getData b
      let m := min (n - tot) (BSIZE - off % BSIZE)
      let (ok, blk) := src.copyin blk (off % BSIZE) tot m
      setData b blk
      if ok then
        logWrite b
        brelse b
        writeiLoop ip src n fuel (tot + m) (off + m)
      else
        brelse b
        return off
    else return off

def writei (ip : Fin NINODE) (src : Source) (off n : ℕ) : Kern Fs ℤ := do
  let i ← getInode ip
  if i.size < off ∨ (off + n) % 2 ^ 32 < off then return -1
  else if MAXFILE * BSIZE < (off + n) % 2 ^ 32 then return -1
  else
    let off ← writeiLoop sb ip src n n 0 off
    if 0 < n then
      setInode ip fun i => if i.size < off then { i with size := off } else i
      iupdate sb ip
    return n

/-! ## Directories -/

/-- The loop of `dirlookup`. -/
def dirlookupFrom (dp : Fin NINODE) (name : ℕ → UInt8) :
    ℕ → ℕ → Kern Fs (Option (Fin NINODE × ℕ))
  | 0, _ => return none
  | fuel + 1, off => do
    let d ← getInode dp
    if off < d.size then
      let l ← readi sb dp off 16
      if l.length ≠ 16 then Prog.stop .dirlookupRead
      else
        let de := Dirent.ofBytes l
        if de.inum ≠ 0 ∧ namecmp name de.name = 0 then
          let ip ← iget de.inum
          return some (ip, off)
        else dirlookupFrom dp name fuel (off + 16)
    else return none

/-- `dirlookup`: the inode, and the offset of the entry. -/
def dirlookup (dp : Fin NINODE) (name : ℕ → UInt8) : Kern Fs (Option (Fin NINODE × ℕ)) := do
  let d ← getInode dp
  if d.type ≠ T_DIR then Prog.stop .dirlookupNotDir
  else dirlookupFrom sb dp name (d.size / 16 + 1) 0

/-- The loop of `dirlink`: the offset of the first empty entry, or of the
end. -/
def emptyFrom (dp : Fin NINODE) : ℕ → ℕ → Kern Fs ℕ
  | 0, off => return off
  | fuel + 1, off => do
    let d ← getInode dp
    if off < d.size then
      let l ← readi sb dp off 16
      if l.length ≠ 16 then Prog.stop .dirlinkRead
      else if (Dirent.ofBytes l).inum = 0 then return off
      else emptyFrom dp fuel (off + 16)
    else return off

def dirlink (dp : Fin NINODE) (name : ℕ → UInt8) (inum : ℕ) : Kern Fs ℤ := do
  match ← dirlookup sb dp name with
  | some (ip, _) =>
    iput sb ip
    return -1
  | none =>
    let d ← getInode dp
    let off ← emptyFrom sb dp (d.size / 16 + 1) 0
    let de : Dirent := { inum, name := strncpy name }
    let r ← writei sb dp (.kernel de.toByte) off 16
    if r ≠ 16 then Prog.stop .dirlink else return 0

end Fs

end Xv6
