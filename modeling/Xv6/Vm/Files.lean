import Xv6.Common.Text
import Xv6.Fs.Model
/-!
# Files and paths, above the blocks — `kernel/fs.c`

What the system calls on memory use of the file system: the inodes, each
with the bytes of its file, the inode cache with its references and locks,
and the number of transactions open. The cache is written through, so an
entry shows the inode on disk once it is loaded. One process runs at a
time: who sleeps on a lock that is taken sleeps for ever.
-/

namespace Xv6

open Common Function

/-- An inode, with the bytes of its file. -/
structure Node where
  type : ℕ
  nlink : ℕ
  data : List UInt8

/-- An entry of the inode cache. -/
structure Cached where
  inum : ℕ := 0
  ref : ℕ := 0
  valid : Bool := false
  locked : Bool := false
  deriving DecidableEq, Repr

/-- The inodes, the inode cache, and `log.outstanding`. -/
structure Files where
  node : ℕ → Node
  inode : Fin NINODE → Cached
  outstanding : ℕ

namespace Files

/-- `readi` into kernel memory: the bytes of the file it delivers. -/
def readi (data : List UInt8) (off n : ℕ) : List UInt8 :=
  if data.length < off ∨ (off + n) % 2 ^ 32 < off then [] else (data.drop off).take n

/-- `skipelem`: the path after the element, and the buffer. It ends the
name with a NUL only if there is room for one. -/
def skipelem (path : List UInt8) (name : ℕ → UInt8) : Option (List UInt8 × (ℕ → UInt8)) :=
  let s := path.dropWhile (· = slash)
  if s.isEmpty then none
  else
    let elem := s.takeWhile (· ≠ slash)
    let path := s.dropWhile (· ≠ slash)
    let len := elem.length
    let name :=
      if DIRSIZ ≤ len then fun i => if i < DIRSIZ then elem.getD i 0 else name i
      else fun i => if i < len then elem.getD i 0 else if i = len then 0 else name i
    some (path.dropWhile (· = slash), name)

/-- The inode that a cache entry stands for. -/
def nodeOf (s : Files) (ip : Fin NINODE) : Node := s.node (s.inode ip).inum

def setInode (ip : Fin NINODE) (f : Cached → Cached) : Kern Files Unit :=
  Prog.modify fun s => { s with inode := update s.inode ip (f (s.inode ip)) }

/-! ## `kernel/log.c` -/

def beginOp : Kern Files Unit := Prog.modify fun s => { s with outstanding := s.outstanding + 1 }

def endOp : Kern Files Unit := Prog.modify fun s => { s with outstanding := s.outstanding - 1 }

/-! ## Inodes -/

/-- A cache entry of the inode that is in use. -/
def cachedInode (s : Files) (inum : ℕ) : Option (Fin NINODE) :=
  (List.finRange NINODE).find? fun ip => decide (0 < (s.inode ip).ref) && (s.inode ip).inum == inum

def emptyInode (s : Files) : Option (Fin NINODE) :=
  (List.finRange NINODE).find? fun ip => (s.inode ip).ref == 0

def iget (inum : ℕ) : Kern Files (Fin NINODE) := do
  match ← Prog.gets fun s => s.cachedInode inum with
  | some ip =>
    setInode ip fun i => { i with ref := i.ref + 1 }
    return ip
  | none =>
    match ← Prog.gets emptyInode with
    | none => Prog.stop .igetNoInodes
    | some ip =>
      setInode ip fun i => { i with inum, ref := 1, valid := false }
      return ip

def idup (ip : Fin NINODE) : Kern Files Unit := setInode ip fun i => { i with ref := i.ref + 1 }

def ilock (ip : Fin NINODE) : Kern Files Unit := do
  let i ← Prog.gets fun s => s.inode ip
  if i.ref < 1 then Prog.stop .ilock
  if i.locked then Prog.stop .selfDeadlock
  setInode ip fun i => { i with locked := true }
  if !i.valid then
    setInode ip fun i => { i with valid := true }
    let type ← Prog.gets fun s => (s.nodeOf ip).type
    if type = 0 then Prog.stop .ilockNoType

def iunlock (ip : Fin NINODE) : Kern Files Unit := do
  let i ← Prog.gets fun s => s.inode ip
  if i.locked = false ∨ i.ref < 1 then Prog.stop .iunlock
  setInode ip fun i => { i with locked := false }

/-- `iput`. The last reference to an inode without links frees it. -/
def iput (ip : Fin NINODE) : Kern Files Unit := do
  let i ← Prog.gets fun s => s.inode ip
  let nlink ← Prog.gets fun s => (s.nodeOf ip).nlink
  if i.ref = 1 ∧ i.valid ∧ nlink = 0 then
    if i.locked then Prog.stop .selfDeadlock
    Prog.modify fun s => { s with node := update s.node i.inum { type := 0, nlink, data := [] } }
    setInode ip fun i => { i with valid := false }
  setInode ip fun i => { i with ref := i.ref - 1 }

def iunlockput (ip : Fin NINODE) : Kern Files Unit := do
  iunlock ip
  iput ip

/-! ## Directories and paths -/

/-- The loop of `dirlookup` over the bytes of a directory, with as many
iterations as it could need: the inode number in the entry found. -/
def lookupFrom (data : List UInt8) (name : ℕ → UInt8) : ℕ → ℕ → Kern Files (Option ℕ)
  | 0, _ => return none
  | fuel + 1, off => do
    if off < data.length then
      let l := readi data off 16
      if l.length ≠ 16 then Prog.stop .dirlookupRead
      let de := Dirent.ofBytes l
      if de.inum ≠ 0 ∧ namecmp name de.name = 0 then
        return some de.inum
      lookupFrom data name fuel (off + 16)
    else
      return none

def dirlookup (dp : Fin NINODE) (name : ℕ → UInt8) : Kern Files (Option (Fin NINODE)) := do
  let d ← Prog.gets fun s => s.nodeOf dp
  if d.type ≠ T_DIR then Prog.stop .dirlookupNotDir
  match ← lookupFrom d.data name (d.data.length / 16 + 1) 0 with
  | none => return none
  | some inum => some <$> iget inum

/-- The loop of `namex`, with as many iterations as it could need: the
inode, and the buffer. -/
def namexLoop (nameiparent : Bool) :
    ℕ → Fin NINODE → List UInt8 → (ℕ → UInt8) → Kern Files (Option (Fin NINODE × (ℕ → UInt8)))
  | 0, _, _, _ => Prog.stop .noReturn
  | fuel + 1, ip, path, name => do
    match skipelem path name with
    | none =>
      if nameiparent then
        iput ip
        return none
      return some (ip, name)
    | some (path, name) =>
      ilock ip
      let type ← Prog.gets fun s => (s.nodeOf ip).type
      if type ≠ T_DIR then
        iunlockput ip
        return none
      if nameiparent ∧ path.isEmpty then
        -- stop one level early
        iunlock ip
        return some (ip, name)
      match ← dirlookup ip name with
      | none =>
        iunlockput ip
        return none
      | some next =>
        iunlockput ip
        namexLoop nameiparent fuel next path name

/-- `namex` for a process whose current directory is `cwd`. -/
def namex (cwd : Option (Fin NINODE)) (path : List UInt8) (nameiparent : Bool) :
    Kern Files (Option (Fin NINODE × (ℕ → UInt8))) := do
  if path.head? = some slash then
    let ip ← iget ROOTINO
    namexLoop nameiparent (path.length + 1) ip path fun _ => 0
  else
    match cwd with
    | none => Prog.stop .nullPointer
    | some ip =>
      idup ip
      namexLoop nameiparent (path.length + 1) ip path fun _ => 0

def namei (cwd : Option (Fin NINODE)) (path : List UInt8) : Kern Files (Option (Fin NINODE)) := do
  return (← namex cwd path false).map (·.1)

end Files

end Xv6
