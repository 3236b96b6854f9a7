import Xv6.Fs.File
import Xv6.Vm.Files
/-!
# Paths — `namex` of `kernel/fs.c`

The path walk, over the blocks and inodes of `Xv6.Fs` and the locks of the
cached inodes. One call runs at a time, so who sleeps on an inode lock that
is taken sleeps for ever. The name buffer of `namei` is not initialised;
what it holds at first is a parameter.
-/

namespace Xv6

open Common Function

namespace Sysfile

/-- A process. One that does not exist has no current directory. -/
structure Task where
  cwd : Option (Fin NINODE) := none

/-- The file system, the locks of its cached inodes, and the processes. -/
structure State where
  fs : Fs
  locked : Fin NINODE → Bool
  proc : ℕ → Task

/-- A function of the layer below. -/
def onFs {α : Type} (c : Kern Fs α) : Kern State α := fun s =>
  (c s.fs).map fun r => (r.1, { s with fs := r.2 })

/-! ## Inodes -/

variable (sb : Superblock)

def setLocked (ip : Fin NINODE) (l : Bool) : Kern State Unit :=
  Prog.modify fun s => { s with locked := update s.locked ip l }

/-- `acquiresleep(&ip->lock)` -/
def acquiresleep (ip : Fin NINODE) : Kern State Unit := do
  if ← Prog.gets fun s => s.locked ip then Prog.stop .selfDeadlock
  setLocked ip true

def ilock (ip : Fin NINODE) : Kern State Unit := do
  let i ← onFs (Fs.getInode ip)
  if i.ref < 1 then Prog.stop .ilock
  acquiresleep ip
  onFs (Fs.ilock sb ip)

def iunlock (ip : Fin NINODE) : Kern State Unit := do
  let i ← onFs (Fs.getInode ip)
  let l ← Prog.gets fun s => s.locked ip
  if l = false ∨ i.ref < 1 then Prog.stop .iunlock
  setLocked ip false

/-- `iput`. The lock is taken while the inode is freed. -/
def iput (ip : Fin NINODE) : Kern State Unit := do
  let i ← onFs (Fs.getInode ip)
  if i.ref = 1 ∧ i.valid ∧ i.nlink = 0 then
    acquiresleep ip
    onFs (Fs.iput sb ip)
    setLocked ip false
  else
    onFs (Fs.iput sb ip)

def iunlockput (ip : Fin NINODE) : Kern State Unit := do
  iunlock ip
  iput sb ip

/-! ## Paths -/

/-- The loop of `namex`, with as many iterations as it could need: the
inode, and the buffer. -/
def namexLoop (nameiparent : Bool) :
    ℕ → Fin NINODE → List UInt8 → (ℕ → UInt8) → Kern State (Option (Fin NINODE × (ℕ → UInt8)))
  | 0, _, _, _ => Prog.stop .noReturn
  | fuel + 1, ip, path, name => do
    match Files.skipelem path name with
    | none =>
      if nameiparent then
        iput sb ip
        return none
      return some (ip, name)
    | some (path, name) =>
      ilock sb ip
      let i ← onFs (Fs.getInode ip)
      if i.type ≠ T_DIR then
        iunlockput sb ip
        return none
      if nameiparent ∧ path.isEmpty then
        -- stop one level early
        iunlock ip
        return some (ip, name)
      match ← onFs (Fs.dirlookup sb ip name) with
      | none =>
        iunlockput sb ip
        return none
      | some (next, _) =>
        iunlockput sb ip
        namexLoop nameiparent fuel next path name

/-- Where a path starts. -/
def start (p : ℕ) (path : List UInt8) : Kern State (Fin NINODE) := do
  if path.head? = some slash then
    onFs (Fs.iget ROOTINO)
  else
    match ← Prog.gets fun s => (s.proc p).cwd with
    | none => Prog.stop .nullPointer
    | some ip =>
      onFs (Fs.idup ip)
      return ip

/-- `namex`, called by process `p`. -/
def namex (p : ℕ) (path : List UInt8) (nameiparent : Bool) (name : ℕ → UInt8) :
    Kern State (Option (Fin NINODE × (ℕ → UInt8))) := do
  let ip ← start p path
  namexLoop sb nameiparent (path.length + 1) ip path name

/-- `namei`, with what its buffer holds at first. -/
def namei (p : ℕ) (path : List UInt8) (name : ℕ → UInt8) : Kern State (Option (Fin NINODE)) := do
  return (← namex sb p path false name).map (·.1)

def nameiparent (p : ℕ) (path : List UInt8) (name : ℕ → UInt8) :
    Kern State (Option (Fin NINODE × (ℕ → UInt8))) := namex sb p path true name

/-! ## Boot -/

/-- The cache entry that is filled first. -/
def first : Fin NINODE := ⟨0, by decide⟩

/-- The state in which `userinit` leaves an image: the first process is in
the root directory. -/
def boot (d : Disk) : State where
  fs := { Fs.mount d with
    inode := update (Fs.mount d).inode first
      { (Fs.mount d).inode first with inum := ROOTINO, ref := 1 } }
  locked _ := false
  proc := update (fun _ => {}) 0 { cwd := some first }

end Sysfile

end Xv6
