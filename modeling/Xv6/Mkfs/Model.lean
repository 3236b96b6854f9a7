import Xv6.Fs.Own
/-!
# The image builder — `mkfs/mkfs.c`

`mkfs` writes an image from scratch: zeroes, the superblock, a root
directory, and one file for each of its arguments, whose contents it
appends as the host's `read` delivers them. Blocks and inodes are handed
out in order, and the free map is written last. It runs on the host, where
an assertion that fails or an error of the operating system ends it.
-/

namespace Xv6

open Common

/-- A C string: its bytes, then NULs. -/
def cstr (l : List UInt8) (i : ℕ) : UInt8 := l.getD i 0

/-- The bytes of a directory entry. -/
def Dirent.toBytes (de : Dirent) : List UInt8 := (List.range 16).map de.toByte

/-- The superblock in its block, as `readsb` reads it. -/
def Superblock.load (blk : Block) : Superblock where
  size := blk.readLE 4 4
  nblocks := blk.readLE 8 4
  ninodes := blk.readLE 12 4
  inodestart := blk.readLE 24 4
  bmapstart := blk.readLE 28 4

namespace Mkfs

/-! ## Layout -/

abbrev NINODES : ℕ := 200

abbrev nbitmap : ℕ := FSSIZE / (BSIZE * 8) + 1

abbrev ninodeblocks : ℕ := NINODES / IPB + 1

abbrev nlog : ℕ := LOGSIZE

/-- Number of meta blocks (boot, sb, nlog, inode, bitmap). -/
abbrev nmeta : ℕ := 2 + nlog + ninodeblocks + nbitmap

/-- Number of data blocks. -/
abbrev nblocks : ℕ := FSSIZE - nmeta

/-- What `main` puts into `sb`, where the kernel reads it. -/
def sb : Superblock where
  size := FSSIZE
  nblocks := nblocks
  ninodes := NINODES
  inodestart := 2 + nlog
  bmapstart := 2 + nlog + ninodeblocks

/-- The superblock's block. -/
def sbBlock : Block :=
  let blk : Block := fun _ => 0
  let blk := blk.writeLE 0 4 FSMAGIC
  let blk := blk.writeLE 4 4 sb.size
  let blk := blk.writeLE 8 4 sb.nblocks
  let blk := blk.writeLE 12 4 sb.ninodes
  let blk := blk.writeLE 16 4 nlog
  let blk := blk.writeLE 20 4 2
  let blk := blk.writeLE 24 4 sb.inodestart
  blk.writeLE 28 4 sb.bmapstart

/-! ## The image file -/

/-- Why `mkfs` ends early. -/
inductive Fault
  /-- An `assert` fails. -/
  | assertion
  /-- `perror` and `exit(1)` -/
  | perror
  deriving DecidableEq, Repr

structure State where
  /-- The sectors of the image file. -/
  img : Disk
  /-- How many sectors the file has. -/
  sectors : ℕ
  freeinode : ℕ
  freeblock : ℕ

/-- `mkfs` as it starts, with an empty image file. -/
def State.init : State where
  img _ _ := 0
  sectors := 0
  freeinode := 1
  freeblock := 0

abbrev Run (α : Type) : Type := Prog Fault State α

/-- The sector at offset `sec * BSIZE`, a `uint`. -/
def sector (sec : ℕ) : ℕ := sec * BSIZE % 2 ^ 32 / BSIZE

/-- Reading past the end of the file is an error. -/
def rsect (sec : ℕ) : Run Block := fun s =>
  if sector sec < s.sectors then .ok (s.img (sector sec), s) else .error .perror

def wsect (sec : ℕ) (buf : Block) : Run Unit := Prog.modify fun s =>
  { s with
    img := Function.update s.img (sector sec) buf
    sectors := max s.sectors (sector sec + 1) }

/-! ## Inodes -/

def winode (inum : ℕ) (ip : Dinode) : Run Unit := do
  let buf ← rsect (sb.iblock inum)
  wsect (sb.iblock inum) (ip.store buf (Dinode.off inum))

def rinode (inum : ℕ) : Run Dinode := do
  let buf ← rsect (sb.iblock inum)
  return .load buf (Dinode.off inum)

def ialloc (type : ℕ) : Run ℕ := do
  let inum ← Prog.gets State.freeinode
  Prog.modify fun s => { s with freeinode := s.freeinode + 1 }
  winode inum { Dinode.fresh type with nlink := 1 }
  return inum

/-- `freeblock++` -/
def nextBlock : Run ℕ := do
  let b ← Prog.gets State.freeblock
  Prog.modify fun s => { s with freeblock := s.freeblock + 1 }
  return b

/-- `din.addrs[i]`, handed a block if it has none. -/
def nextAddr (din : Dinode) (i : ℕ) : Run Dinode := do
  if din.addrs i = 0 then
    let b ← nextBlock
    return { din with addrs := Function.update din.addrs i b }
  else return din

/-- Entry `k` of the indirect block, handed a block if it has none. -/
def nextEntry (ind k : ℕ) : Run ℕ := do
  let indirect ← rsect ind
  if Fs.word indirect k = 0 then
    let b ← nextBlock
    wsect ind (indirect.writeLE (4 * k) 4 b)
    return b
  else return Fs.word indirect k

/-- The first half of the loop of `iappend`: the inode and `x`, the block
of file block `fbn`. -/
def blockFor (din : Dinode) (fbn : ℕ) : Run (Dinode × ℕ) := do
  if fbn < NDIRECT then
    let din ← nextAddr din fbn
    return (din, din.addrs fbn)
  else
    let din ← nextAddr din NDIRECT
    let x ← nextEntry (din.addrs NDIRECT) (fbn - NDIRECT)
    return (din, x)

/-- The loop of `iappend`, with `p` to go: the inode and the offset it
ends with. -/
def iappendLoop : ℕ → Dinode → ℕ → List UInt8 → Run (Dinode × ℕ)
  | 0, din, off, _ => return (din, off)
  | fuel + 1, din, off, p =>
    if p.length = 0 then return (din, off)
    else
      let fbn := off / BSIZE
      if MAXFILE ≤ fbn then Prog.stop .assertion
      else do
        let (din, x) ← blockFor din fbn
        let n1 := min p.length ((fbn + 1) * BSIZE - off)
        let buf ← rsect x
        wsect x (buf.splice (off - fbn * BSIZE) n1 fun i => p.getD i 0)
        iappendLoop fuel din (off + n1) (p.drop n1)

def iappend (inum : ℕ) (p : List UInt8) : Run Unit := do
  let din ← rinode inum
  let (din, off) ← iappendLoop p.length din din.size p
  winode inum { din with size := off }

/-- `balloc`: the bits of the blocks below `used` set. -/
def balloc (used : ℕ) : Run Unit :=
  if BSIZE * 8 ≤ used then Prog.stop .assertion
  else wsect sb.bmapstart ((List.range used).foldl Bytes.setBit fun _ => 0)

/-! ## `main` -/

/-- An input file: its argument, whether it can be opened, and what each
`read` of it returns. -/
structure Input where
  name : List UInt8
  opens : Bool
  reads : List (List UInt8)
  name_ne : 0 ∉ name
  reads_ok : ∀ l ∈ reads, l ≠ [] ∧ l.length ≤ BSIZE

namespace Input

/-- `user/` -/
def userDir : List UInt8 := [0x75, 0x73, 0x65, 0x72, 0x2f]

/-- The argument with `user/` taken off, as the assertion sees it. -/
def base (f : Input) : List UInt8 :=
  if strncmp (cstr f.name) (cstr userDir) 5 = 0 then f.name.drop 5 else f.name

/-- The name in the image: without a leading `_`. -/
def shortname (f : Input) : List UInt8 :=
  if f.base.getD 0 0 = 0x5f then f.base.drop 1 else f.base

/-- The contents of the file. -/
def content (f : Input) : List UInt8 := f.reads.flatten

end Input

/-- The entry for a name. -/
def dirent (inum : ℕ) (name : List UInt8) : Dirent where
  inum := inum
  name := strncpy (cstr name)

/-- `.` -/
def dot : List UInt8 := [0x2e]

/-- `..` -/
def dotdot : List UInt8 := [0x2e, 0x2e]

/-- The body of the loop over the arguments. -/
def addFile (rootino : ℕ) (f : Input) : Run Unit :=
  if 0x2f ∈ f.base then Prog.stop .assertion
  else if ¬ f.opens then Prog.stop .perror
  else do
    let inum ← ialloc T_FILE
    iappend rootino (dirent inum f.shortname).toBytes
    f.reads.forM (iappend inum)

def main (files : List Input) : Run Unit := do
  Prog.modify fun s => { s with freeblock := nmeta }
  (List.range FSSIZE).forM fun i => wsect i fun _ => 0
  wsect 1 sbBlock
  let rootino ← ialloc T_DIR
  if rootino ≠ ROOTINO then Prog.stop .assertion
  else
    iappend rootino (dirent rootino dot).toBytes
    iappend rootino (dirent rootino dotdot).toBytes
    files.forM (addFile rootino)
    -- fix size of root inode dir
    let din ← rinode rootino
    winode rootino { din with size := (din.size / BSIZE + 1) * BSIZE }
    let used ← Prog.gets State.freeblock
    balloc used

end Mkfs

end Xv6
