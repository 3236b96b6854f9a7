import Xv6.Common.System
import Xv6.Vm.Model
/-!
# System calls on memory — `kernel/proc.c`, `kernel/exec.c`, `kernel/pipe.c`

Calls that take pages and give them back: `exec`, `sbrk` and `pipe`, each
run to its end, and what boot does for the first process. Of `ftable` and
of the pipes there is what decides when the page of a pipe is freed.
-/

namespace Xv6

open Common Function

namespace Vm

/-- The process `userinit` makes. -/
def initproc : ℕ := 0

/-- A number as `n` bytes, the least significant first. -/
def bytesLE (n v : ℕ) : List UInt8 := (List.range n).map fun i => UInt8.ofNat (v / 256 ^ i)

/-- Change the fields of a process. -/
def setProc (p : ℕ) (f : Proc → Proc) : Kern State Unit :=
  Prog.modify fun s => { s with proc := update s.proc p (f (s.proc p)) }

/-- `p->ofile[fd] = f` -/
def setOfile (p fd : ℕ) (f : Option ℕ) : Kern State Unit :=
  setProc p fun q => { q with ofile := update q.ofile fd f }

/-- Change the fields of a file. -/
def setFile (i : ℕ) (f : File → File) : Kern State Unit :=
  Prog.modify fun s => { s with file := update s.file i (f (s.file i)) }

variable (k : Symbols)

/-! ## Pipes and files -/

/-- Where `readopen` and `writeopen` are in `struct pipe`: the lock takes
24 bytes, the data 512, and `nread` and `nwrite` four each. -/
def openOff (writable : Bool) : ℕ := if writable then 548 else 544

/-- `pi->writeopen` or `pi->readopen` -/
def opened (mem : ℕ → Page) (pi : ℕ) (writable : Bool) : ℕ := (mem pi).readLE (openOff writable) 4

def pipeclose (pi : ℕ) (writable : Bool) : Kern State Unit := do
  store pi (openOff writable) 4 0
  let closed ← Prog.gets fun s => decide (opened s.mem pi false = 0 ∧ opened s.mem pi true = 0)
  if closed then kfree k pi

def filealloc : Kern State (Option ℕ) := do
  let free ← Prog.gets fun s => (List.range NFILE).find? fun i => (s.file i).ref = 0
  match free with
  | none => return none
  | some i =>
    setFile i fun f => { f with ref := 1 }
    return some i

def fileclose (i : ℕ) : Kern State Unit := do
  let f ← Prog.gets fun s => s.file i
  if f.ref < 1 then Prog.stop .fileclose
  if 0 < f.ref - 1 then
    setFile i fun f => { f with ref := f.ref - 1 }
  else
    setFile i fun f => { f with ref := 0, type := .none }
    if f.type = .pipe then
      pipeclose k f.pipe f.writable
    else if f.type = .inode ∨ f.type = .device then
      onFiles do
        Files.beginOp
        f.ip.forM Files.iput
        Files.endOp

def pipealloc : Kern State (Option (ℕ × ℕ)) := do
  match ← filealloc with
  | none => return none
  | some f0 =>
    match ← filealloc with
    | none =>
      fileclose k f0
      return none
    | some f1 =>
      let pi ← kalloc
      if pi = 0 then
        fileclose k f0
        fileclose k f1
        return none
      store pi (openOff false) 4 1
      store pi (openOff true) 4 1
      store pi 540 4 0
      store pi 536 4 0
      setFile f0 fun f => { f with type := .pipe, readable := true, writable := false, pipe := pi }
      setFile f1 fun f => { f with type := .pipe, readable := false, writable := true, pipe := pi }
      return some (f0, f1)

def fdalloc (p f : ℕ) : Kern State (Option ℕ) := do
  let free ← Prog.gets fun s => (List.range NOFILE).find? fun fd => (s.proc p).ofile fd = none
  match free with
  | none => return none
  | some fd =>
    setOfile p fd (some f)
    return some fd

/-- The ways out of `sys_pipe` that return -1. -/
def pipeFails (p rf wf : ℕ) (fds : List ℕ) : Kern State ℤ := do
  fds.forM fun fd => setOfile p fd none
  fileclose k rf
  fileclose k wf
  return -1

def sysPipe (p fdarray : ℕ) : Kern State ℤ := do
  match ← pipealloc k with
  | none => return -1
  | some (rf, wf) =>
    match ← fdalloc p rf with
    | none => pipeFails k p rf wf []
    | some fd0 =>
      match ← fdalloc p wf with
      | none => pipeFails k p rf wf [fd0]
      | some fd1 =>
        let pagetable ← Prog.gets fun s => (s.proc p).pagetable
        if !(← copyout pagetable fdarray (bytesLE 4 fd0)) then
          pipeFails k p rf wf [fd0, fd1]
        else if !(← copyout pagetable ((fdarray + 4) % 2 ^ 64) (bytesLE 4 fd1)) then
          pipeFails k p rf wf [fd0, fd1]
        else
          return 0

/-! ## `kernel/proc.c` -/

def procPagetable (p : ℕ) : Kern State ℕ := do
  let pagetable ← uvmcreate
  if pagetable = 0 then
    return 0
  if !(← mappages pagetable TRAMPOLINE PGSIZE k.trampoline (PTE_R ||| PTE_X)) then
    uvmfree k pagetable 0
    return 0
  let trapframe ← Prog.gets fun s => (s.proc p).trapframe
  if !(← mappages pagetable TRAPFRAME PGSIZE trapframe (PTE_R ||| PTE_W)) then
    uvmunmap k pagetable TRAMPOLINE 1 false
    uvmfree k pagetable 0
    return 0
  return pagetable

def procFreepagetable (pagetable sz : ℕ) : Kern State Unit := do
  uvmunmap k pagetable TRAMPOLINE 1 false
  uvmunmap k pagetable TRAPFRAME 1 false
  uvmfree k pagetable sz

def freeproc (p : ℕ) : Kern State Unit := do
  let q ← Prog.gets fun s => s.proc p
  if q.trapframe ≠ 0 then kfree k q.trapframe
  setProc p fun q => { q with trapframe := 0 }
  if q.pagetable ≠ 0 then procFreepagetable k q.pagetable q.sz
  setProc p fun q =>
    { q with
      pagetable := 0, sz := 0, pid := 0, parent := none, name := [], xstate := 0, state := .unused }

def allocproc : Kern State (Option ℕ) := do
  let slot ← Prog.gets fun s => (List.range NPROC).find? fun p => (s.proc p).state = .unused
  match slot with
  | none => return none
  | some p =>
    let pid ← Prog.gets (·.nextpid)
    Prog.modify fun s => { s with nextpid := s.nextpid + 1 }
    let trapframe ← kalloc
    setProc p fun q => { q with pid, trapframe }
    if trapframe = 0 then
      return none
    let pagetable ← procPagetable k p
    setProc p fun q => { q with pagetable }
    if pagetable = 0 then
      freeproc k p
      return none
    return some p

def initcode : List UInt8 :=
  [0x17, 0x05, 0x00, 0x00, 0x13, 0x05, 0x45, 0x02, 0x97, 0x05, 0x00, 0x00, 0x93, 0x85, 0x35, 0x02,
   0x93, 0x08, 0x70, 0x00, 0x73, 0x00, 0x00, 0x00, 0x93, 0x08, 0x20, 0x00, 0x73, 0x00, 0x00, 0x00,
   0xef, 0xf0, 0x9f, 0xff, 0x2f, 0x69, 0x6e, 0x69, 0x74, 0x00, 0x00, 0x24, 0x00, 0x00, 0x00, 0x00,
   0x00, 0x00, 0x00, 0x00]

/-- The name `initcode`. -/
def initcodeName : List UInt8 := [105, 110, 105, 116, 99, 111, 100, 101]

/-- Where fields are in `struct trapframe`. -/
def epcOff : ℕ := 24

@[inherit_doc epcOff] def spOff : ℕ := 48

@[inherit_doc epcOff] def a1Off : ℕ := 120

def userinit : Kern State Unit := do
  match ← allocproc k with
  | none => Prog.stop .nullPointer
  | some p =>
    let q ← Prog.gets fun s => s.proc p
    uvminit q.pagetable initcode
    setProc p fun q => { q with sz := PGSIZE }
    store q.trapframe epcOff 8 0
    store q.trapframe spOff 8 PGSIZE
    let cwd ← onFiles (Files.namei none [slash])
    setProc p fun q => { q with name := initcodeName, cwd, state := .used }

/-- `growproc`: whether it returns 0. The size is computed in 32 bits. -/
def growproc (p : ℕ) (n : Int32) : Kern State Bool := do
  let q ← Prog.gets fun s => s.proc p
  let sz := q.sz % 2 ^ 32
  let newsz := ((sz + n.toInt) % 2 ^ 32).toNat
  if 0 < n.toInt then
    let sz ← uvmalloc k q.pagetable sz newsz
    if sz % 2 ^ 32 = 0 then
      return false
    setProc p fun q => { q with sz := sz % 2 ^ 32 }
    return true
  else if n.toInt < 0 then
    let sz ← uvmdealloc k q.pagetable sz newsz
    setProc p fun q => { q with sz := sz % 2 ^ 32 }
    return true
  else
    setProc p fun q => { q with sz }
    return true

def sysSbrk (p : ℕ) (n : Int32) : Kern State ℤ := do
  let addr ← Prog.gets fun s => (s.proc p).sz
  if !(← growproc k p n) then
    return -1
  return (addr : ℤ).bmod (2 ^ 32)

/-! ## `kernel/exec.c` -/

/-- The field of `w` bytes at `off` of a structure read from a file. -/
def field (l : List UInt8) (off w : ℕ) : ℕ :=
  ((l.drop off).take w).foldr (fun b v => b.toNat + 256 * v) 0

/-- The loop of `loadseg`; the count is of the pages from `i` on. -/
def loadsegLoop (pagetable va : ℕ) (ip : List UInt8) (offset sz : ℕ) : ℕ → ℕ → Kern State Bool
  | 0, _ => return true
  | m + 1, i => do
    let pa ← walkaddr pagetable (va + i)
    if pa = 0 then Prog.stop .loadsegAddress
    let n := min (sz - i) PGSIZE
    let bytes := Files.readi ip ((offset + i) % 2 ^ 32) n
    memwrite pa 0 bytes
    if bytes.length ≠ n then
      return false
    loadsegLoop pagetable va ip offset sz m (i + PGSIZE)

/-- `loadseg`: whether it returns 0. -/
def loadseg (pagetable va : ℕ) (ip : List UInt8) (offset sz : ℕ) : Kern State Bool := do
  if va % PGSIZE ≠ 0 then Prog.stop .loadsegAligned
  loadsegLoop pagetable va ip offset sz ((sz + PGSIZE - 1) / PGSIZE) 0

/-- The loop of `exec` over the program headers: whether all is loaded,
and `sz`. -/
def execLoad (pagetable : ℕ) (ip : List UInt8) : ℕ → ℕ → ℕ → Kern State (Bool × ℕ)
  | 0, _, sz => return (true, sz)
  | n + 1, off, sz => do
    let ph := Files.readi ip off 56
    if ph.length ≠ 56 then
      return (false, sz)
    if field ph 0 4 ≠ ELF_PROG_LOAD then
      execLoad pagetable ip n ((off + 56) % 2 ^ 32) sz
    else
      let vaddr := field ph 16 8
      let filesz := field ph 32 8
      let memsz := field ph 40 8
      if memsz < filesz then
        return (false, sz)
      if (vaddr + memsz) % 2 ^ 64 < vaddr then
        return (false, sz)
      let sz1 ← uvmalloc k pagetable sz ((vaddr + memsz) % 2 ^ 64)
      if sz1 = 0 then
        return (false, sz)
      if vaddr % PGSIZE ≠ 0 then
        return (false, sz1)
      if !(← loadseg pagetable vaddr ip (field ph 8 8 % 2 ^ 32) (filesz % 2 ^ 32)) then
        return (false, sz1)
      execLoad pagetable ip n ((off + 56) % 2 ^ 32) sz1

/-- The string at the start of a page. -/
def cstring (page : Page) : List UInt8 :=
  ((List.range PGSIZE).map page.get).takeWhile (· ≠ 0)

/-- `sp -= n`, in 64 bits, and then down to a multiple of 16: riscv sp must
be 16-byte aligned. -/
def pushSp (sp n : ℕ) : ℕ :=
  let sp := (sp + 2 ^ 64 - n) % 2 ^ 64
  sp - sp % 16

/-- The loop of `exec` that pushes the argument strings: `sp` and the
`ustack` so far, if there is room. -/
def execArgs (pagetable stackbase : ℕ) :
    List ℕ → ℕ → List ℕ → Kern State (Option (ℕ × List ℕ))
  | [], sp, ustack => return some (sp, ustack)
  | arg :: argv, sp, ustack => do
    if MAXARG ≤ ustack.length then
      return none
    let str ← Prog.gets fun s => cstring (s.mem arg)
    let sp := pushSp sp (str.length + 1)
    if sp < stackbase then
      return none
    if !(← copyout pagetable sp (str ++ [0])) then
      return none
    execArgs pagetable stackbase argv sp (ustack ++ [sp])

/-- `exec` from the guard page on: `sp` and `argc`, if all fits. -/
def execStack (pagetable sz : ℕ) (argv : List ℕ) : Kern State (Option (ℕ × ℕ)) := do
  uvmclear pagetable (sz - 2 * PGSIZE)
  let stackbase := sz - PGSIZE
  match ← execArgs pagetable stackbase argv sz [] with
  | none => return none
  | some (sp, ustack) =>
    -- push the array of argv[] pointers
    let argc := ustack.length
    let sp := pushSp sp ((argc + 1) * 8)
    if sp < stackbase then
      return none
    if !(← copyout pagetable sp ((ustack ++ [0]).flatMap (bytesLE 8))) then
      return none
    return some (sp, argc)

/-- `exec` up to where it is done with the file: the page table and `sz`,
if all is loaded. -/
def execFile (p : ℕ) (ip : List UInt8) : Kern State (Option (ℕ × ℕ)) := do
  -- check ELF header
  let elf := Files.readi ip 0 64
  if elf.length ≠ 64 then
    return none
  if field elf 0 4 ≠ ELF_MAGIC then
    return none
  let pagetable ← procPagetable k p
  if pagetable = 0 then
    return none
  let (loaded, sz) ← execLoad k pagetable ip (field elf 56 2) (field elf 32 8 % 2 ^ 32) 0
  if !loaded then
    procFreepagetable k pagetable sz
    return none
  return some (pagetable, sz)

/-- What follows the last `/` of a path. -/
def lastElem (path : List UInt8) : List UInt8 :=
  (path.reverse.takeWhile (· ≠ slash)).reverse

/-- `exec` up to where the program is loaded and has its two pages for the
stack: the entry point, the page table and `sz`. -/
def execImage (p : ℕ) (path : List UInt8) : Kern State (Option (ℕ × ℕ × ℕ)) := do
  onFiles Files.beginOp
  let cwd ← Prog.gets fun s => (s.proc p).cwd
  match ← onFiles (Files.namei cwd path) with
  | none =>
    onFiles Files.endOp
    return none
  | some ip =>
    onFiles (Files.ilock ip)
    -- nobody writes to a file whose inode is locked
    let file ← Prog.gets fun s => (s.files.nodeOf ip).data
    let image ← execFile k p file
    onFiles do
      Files.iunlockput ip
      Files.endOp
    match image with
    | none => return none
    | some (pagetable, sz) =>
      -- allocate two pages at the next page boundary
      let sz := pgRoundUp sz
      let sz1 ← uvmalloc k pagetable sz (sz + 2 * PGSIZE)
      if sz1 = 0 then
        procFreepagetable k pagetable sz
        return none
      return some (field (Files.readi file 0 64) 24 8, pagetable, sz1)

/-- `exec` from the guard page on. -/
def execCommit (p : ℕ) (path : List UInt8) (entry pagetable sz : ℕ) (argv : List ℕ) :
    Kern State ℤ := do
  match ← execStack pagetable sz argv with
  | none =>
    procFreepagetable k pagetable sz
    return -1
  | some (sp, argc) =>
    let old ← Prog.gets fun s => s.proc p
    store old.trapframe a1Off 8 sp
    setProc p fun q => { q with name := (lastElem path).take 15 }
    -- commit to the user image
    setProc p fun q => { q with pagetable, sz }
    store old.trapframe epcOff 8 entry
    store old.trapframe spOff 8 sp
    procFreepagetable k old.pagetable old.sz
    return argc

def exec (p : ℕ) (path : List UInt8) (argv : List ℕ) : Kern State ℤ := do
  match ← execImage k p path with
  | none => return -1
  | some (entry, pagetable, sz) => execCommit k p path entry pagetable sz argv

def fetchaddr (p addr : ℕ) (s : State) : Option ℕ :=
  let q := s.proc p
  if q.sz ≤ addr ∨ q.sz < (addr + 8) % 2 ^ 64 then none
  else
    let r := (userMem q.pagetable s).copyin (fun _ => 0 : Bytes 8) 0 addr 8
    if r.1 then some (r.2.readLE 0 8) else none

/-- `fetchstr` into a page. -/
def fetchstr (p addr : ℕ) (page : Page) (max : ℕ) (s : State) : Bool × Page :=
  (userMem (s.proc p).pagetable s).copyinstr page 0 addr max

/-- The loop of `sys_exec`: whether it has all arguments, and the pages it
has taken for them. -/
def fetchArgs (p uargv : ℕ) : ℕ → ℕ → List ℕ → Kern State (Bool × List ℕ)
  | 0, _, argv => return (false, argv)
  | n + 1, i, argv => do
    match ← Prog.gets (fetchaddr p ((uargv + 8 * i) % 2 ^ 64)) with
    | none => return (false, argv)
    | some uarg =>
      if uarg = 0 then
        return (true, argv)
      let page ← kalloc
      if page = 0 then
        return (false, argv)
      let r ← Prog.gets fun s => fetchstr p uarg (s.mem page) PGSIZE s
      setPage page r.2
      if !r.1 then
        return (false, argv ++ [page])
      fetchArgs p uargv n (i + 1) (argv ++ [page])

def sysExec (p path uargv : ℕ) : Kern State ℤ := do
  let r ← Prog.gets fun s => fetchstr p path (fun _ => 0) MAXPATH s
  if !r.1 then
    return -1
  let (fetched, argv) ← fetchArgs p uargv MAXARG 0 []
  let ret ← if fetched then exec k p (cstring r.2) argv else pure (-1)
  argv.forM fun arg => kfree k arg
  return ret

/-! ## Boot -/

/-- **Boot**: `kinit` frees all pages, `kvminit` and `procinit` keep some
number of them, and `userinit` makes the first process. -/
def boot (nboot : ℕ) : Kern State Unit := do
  kinit k
  (List.range nboot).forM fun _ => do
    let page ← kalloc
    if page = 0 then Prog.stop .nullPointer
  userinit k

/-- Before boot: memory and disk hold anything, the tables are zero. -/
def reset (mem : ℕ → Page) (node : ℕ → Node) : State where
  mem
  freelist := 0
  proc _ := {}
  file _ := {}
  files := { node, inode := fun _ => {}, outstanding := 0 }
  nextpid := 1
  deny := []

end Vm

end Xv6
