import Xv6.Vm.Files
/-!
# Physical pages and page tables — `kernel/kalloc.c`, `kernel/vm.c`

Physical memory is a map from page addresses to the bytes of the page, and
the page tables are in it: a page-table entry is eight bytes of a page, and
the free list of `kalloc` is threaded through the first eight bytes of the
free pages. A pointer to a page is its address, and a pointer to an entry
the page and the index in it. `kalloc` fails when its list is empty, and
also whenever `deny` says so: another CPU may have taken the last page.
-/

namespace Xv6

open Common Function

/-- `PGROUNDUP`, in 64 bits. -/
def pgRoundUp (a : ℕ) : ℕ := pgRoundDown ((a + PGSIZE - 1) % 2 ^ 64)

def pa2pte (pa : ℕ) : ℕ := (pa >>> 12) <<< 10

def pte2pa (pte : ℕ) : ℕ := (pte >>> 10) <<< 12

def pteFlags (pte : ℕ) : ℕ := pte &&& 0x3FF

/-- `PX(level, va)` -/
def px (level va : ℕ) : ℕ := (va >>> (12 + 9 * level)) &&& 0x1FF

/-- What `kernel.ld` says: the kernel ends at `kend`, and the trampoline
page is in its text. -/
structure Symbols where
  kend : ℕ
  trampoline : ℕ
  base : KERNBASE ≤ trampoline
  aligned : trampoline % PGSIZE = 0
  text : trampoline + PGSIZE ≤ kend
  ram : kend ≤ PHYSTOP

namespace Vm

/-- The contents of a page. -/
abbrev Page : Type := Bytes PGSIZE

/-- `enum procstate`, as far as system calls one after the other can
tell: `used` stands for the states of a process that can make calls. -/
inductive ProcState
  | unused
  | used
  | zombie
  deriving DecidableEq, Repr

/-- The fields of `struct proc` that the modelled functions use. -/
structure Proc where
  state : ProcState := .unused
  parent : Option ℕ := none
  xstate : ℕ := 0
  pid : ℕ := 0
  sz : ℕ := 0
  pagetable : ℕ := 0
  trapframe : ℕ := 0
  ofile : ℕ → Option ℕ := fun _ => none
  cwd : Option (Fin NINODE) := none
  name : List UInt8 := []

/-- The type of a file. -/
inductive FileType
  | none
  | pipe
  | inode
  | device
  deriving DecidableEq, Repr

/-- The fields of `struct file` that the modelled functions use. -/
structure File where
  type : FileType := .none
  ref : ℕ := 0
  readable : Bool := false
  writable : Bool := false
  pipe : ℕ := 0
  ip : Option (Fin NINODE) := none

/-- Memory, `kmem.freelist`, the process table, the file table and the
file system. -/
structure State where
  mem : ℕ → Page
  freelist : ℕ
  proc : ℕ → Proc
  file : ℕ → File
  files : Files
  nextpid : ℕ
  /-- Which of the next calls of `kalloc` fail. -/
  deny : List Bool

/-- Entry `i` of the page table page `pagetable`. -/
def entry (mem : ℕ → Page) (pagetable i : ℕ) : ℕ := (mem pagetable).readLE (8 * i) 8

/-- `r->next` for the free page `r`. -/
def next (mem : ℕ → Page) (r : ℕ) : ℕ := (mem r).readLE 0 8

/-- A function of the file system. -/
def onFiles {α : Type} (c : Kern Files α) : Kern State α := fun s =>
  (c s.files).map fun r => (r.1, { s with files := r.2 })

/-! ## Memory -/

/-- Replace the contents of a page. -/
def setPage (pa : ℕ) (page : Page) : Kern State Unit :=
  Prog.modify fun s => { s with mem := update s.mem pa page }

/-- `memset(pa, byte, PGSIZE)` -/
def memset (pa : ℕ) (byte : UInt8) : Kern State Unit := setPage pa fun _ => byte

/-- Write bytes to a page from an offset on. -/
def memwrite (pa off : ℕ) (bytes : List UInt8) : Kern State Unit :=
  Prog.modify fun s =>
    { s with mem := update s.mem pa ((s.mem pa).splice off bytes.length fun i => bytes.getD i 0) }

/-- Write a field of `w` bytes to a page. -/
def store (pa off w v : ℕ) : Kern State Unit :=
  Prog.modify fun s => { s with mem := update s.mem pa ((s.mem pa).writeLE off w v) }

/-- `pagetable[i]` -/
def getPte (pagetable i : ℕ) : Kern State ℕ := Prog.gets fun s => entry s.mem pagetable i

/-- `pagetable[i] = pte` -/
def setPte (pagetable i pte : ℕ) : Kern State Unit := store pagetable (8 * i) 8 pte

/-! ## `kernel/kalloc.c` -/

/-- A page that `kfree` takes. -/
def Managed (k : Symbols) (pa : ℕ) : Prop := pa % PGSIZE = 0 ∧ k.kend ≤ pa ∧ pa < PHYSTOP

instance (k : Symbols) (pa : ℕ) : Decidable (Managed k pa) := inferInstanceAs (Decidable (_ ∧ _))

def kfree (k : Symbols) (pa : ℕ) : Kern State Unit := do
  if ¬ Managed k pa then Prog.stop .kfree
  -- fill with junk to catch dangling refs
  memset pa 1
  let head ← Prog.gets (·.freelist)
  store pa 0 8 head
  Prog.modify fun s => { s with freelist := pa }

def kalloc : Kern State ℕ := do
  let denied ← Prog.gets fun s => s.deny.headD false
  Prog.modify fun s => { s with deny := s.deny.tail }
  if denied then
    return 0
  let r ← Prog.gets (·.freelist)
  if r ≠ 0 then
    Prog.modify fun s => { s with freelist := next s.mem r }
    -- fill with junk
    memset r 5
  return r

/-- The number of pages `freerange` frees. -/
def nfree (k : Symbols) : ℕ := (PHYSTOP - pgRoundUp k.kend) / PGSIZE

/-- `kinit`, with `freerange` -/
def kinit (k : Symbols) : Kern State Unit :=
  (List.range (nfree k)).forM fun i => kfree k (pgRoundUp k.kend + i * PGSIZE)

/-! ## `kernel/vm.c` -/

variable (k : Symbols)

/-- The loop of `walk`, from a level down. -/
def walkFrom (va : ℕ) (alloc : Bool) : ℕ → ℕ → Kern State (Option (ℕ × ℕ))
  | 0, pagetable => return some (pagetable, px 0 va)
  | level + 1, pagetable => do
    let pte ← getPte pagetable (px (level + 1) va)
    if pte &&& PTE_V ≠ 0 then
      walkFrom va alloc level (pte2pa pte)
    else if alloc then
      let page ← kalloc
      if page = 0 then
        return none
      memset page 0
      setPte pagetable (px (level + 1) va) (pa2pte page ||| PTE_V)
      walkFrom va alloc level page
    else
      return none

/-- `walk`: where the entry for `va` is, if it is anywhere. -/
def walk (pagetable va : ℕ) (alloc : Bool) : Kern State (Option (ℕ × ℕ)) := do
  if MAXVA ≤ va then Prog.stop .walk
  walkFrom va alloc 2 pagetable

def walkaddr (pagetable va : ℕ) : Kern State ℕ := do
  if MAXVA ≤ va then
    return 0
  match ← walk pagetable va false with
  | none => return 0
  | some (page, i) =>
    let pte ← getPte page i
    if pte &&& PTE_V = 0 then
      return 0
    if pte &&& PTE_U = 0 then
      return 0
    return pte2pa pte

/-- The loop of `mappages`; the count is of the pages from `a` to the last. -/
def mappagesLoop (pagetable perm : ℕ) : ℕ → ℕ → ℕ → Kern State Bool
  | 0, _, _ => Prog.stop .noReturn
  | n + 1, a, pa => do
    match ← walk pagetable a true with
    | none => return false
    | some (page, i) =>
      let pte ← getPte page i
      if pte &&& PTE_V ≠ 0 then Prog.stop .remap
      setPte page i (pa2pte pa ||| perm ||| PTE_V)
      if n = 0 then
        return true
      mappagesLoop pagetable perm n (a + PGSIZE) (pa + PGSIZE)

/-- `mappages`: whether it returns 0. -/
def mappages (pagetable va size pa perm : ℕ) : Kern State Bool :=
  let a := pgRoundDown va
  let last := pgRoundDown (va + size - 1)
  mappagesLoop pagetable perm ((last - a) / PGSIZE + 1) a pa

/-- The body of the loop of `uvmunmap`. -/
def unmapPage (pagetable a : ℕ) (doFree : Bool) : Kern State Unit := do
  match ← walk pagetable a false with
  | none => Prog.stop .uvmunmapWalk
  | some (page, i) =>
    let pte ← getPte page i
    if pte &&& PTE_V = 0 then Prog.stop .uvmunmapNotMapped
    if pteFlags pte = PTE_V then Prog.stop .uvmunmapNotLeaf
    if doFree then kfree k (pte2pa pte)
    setPte page i 0

def uvmunmap (pagetable va npages : ℕ) (doFree : Bool) : Kern State Unit := do
  if va % PGSIZE ≠ 0 then Prog.stop .uvmunmapNotAligned
  (List.range npages).forM fun n => unmapPage k pagetable (va + n * PGSIZE) doFree

def uvmcreate : Kern State ℕ := do
  let pagetable ← kalloc
  if pagetable = 0 then
    return 0
  memset pagetable 0
  return pagetable

def uvminit (pagetable : ℕ) (src : List UInt8) : Kern State Unit := do
  if PGSIZE ≤ src.length then Prog.stop .inituvm
  let mem ← kalloc
  if mem = 0 then Prog.stop .nullPointer
  memset mem 0
  let _ ← mappages pagetable 0 PGSIZE mem (PTE_W ||| PTE_R ||| PTE_X ||| PTE_U)
  memwrite mem 0 src

def uvmdealloc (pagetable oldsz newsz : ℕ) : Kern State ℕ := do
  if oldsz ≤ newsz then
    return oldsz
  if pgRoundUp newsz < pgRoundUp oldsz then
    let npages := (pgRoundUp oldsz - pgRoundUp newsz) / PGSIZE
    uvmunmap k pagetable (pgRoundUp newsz) npages true
  return newsz

/-- The loop of `uvmalloc`; the count is of the pages from `a` to `newsz`. -/
def uvmallocLoop (pagetable oldsz newsz : ℕ) : ℕ → ℕ → Kern State ℕ
  | 0, _ => return newsz
  | n + 1, a => do
    let mem ← kalloc
    if mem = 0 then
      let _ ← uvmdealloc k pagetable a oldsz
      return 0
    memset mem 0
    let mapped ← mappages pagetable a PGSIZE mem (PTE_W ||| PTE_X ||| PTE_R ||| PTE_U)
    if !mapped then
      kfree k mem
      let _ ← uvmdealloc k pagetable a oldsz
      return 0
    uvmallocLoop pagetable oldsz newsz n (a + PGSIZE)

def uvmalloc (pagetable oldsz newsz : ℕ) : Kern State ℕ := do
  if newsz < oldsz then
    return oldsz
  let oldsz := pgRoundUp oldsz
  uvmallocLoop k pagetable oldsz newsz ((newsz - oldsz + PGSIZE - 1) / PGSIZE) oldsz

/-- `freewalk`, as many levels deep as it is given. -/
def freewalk : ℕ → ℕ → Kern State Unit
  | 0, _ => Prog.stop .noReturn
  | levels + 1, pagetable => do
    (List.range 512).forM fun i => do
      let pte ← getPte pagetable i
      if pte &&& PTE_V ≠ 0 ∧ pte &&& (PTE_R ||| PTE_W ||| PTE_X) = 0 then
        -- this PTE points to a lower-level page table
        freewalk levels (pte2pa pte)
        setPte pagetable i 0
      else if pte &&& PTE_V ≠ 0 then
        Prog.stop .freewalkLeaf
    kfree k pagetable

def uvmfree (pagetable sz : ℕ) : Kern State Unit := do
  if 0 < sz then uvmunmap k pagetable 0 (pgRoundUp sz / PGSIZE) true
  freewalk k 3 pagetable

/-- The loop of `uvmcopy`; the count is of the pages from `i` on. -/
def uvmcopyLoop (old new : ℕ) : ℕ → ℕ → Kern State Bool
  | 0, _ => return true
  | n + 1, i => do
    match ← walk old i false with
    | none => Prog.stop .uvmcopyPte
    | some (page, j) =>
      let pte ← getPte page j
      if pte &&& PTE_V = 0 then Prog.stop .uvmcopyPage
      let mem ← kalloc
      if mem = 0 then
        uvmunmap k new 0 (i / PGSIZE) true
        return false
      let src ← Prog.gets fun s => s.mem (pte2pa pte)
      setPage mem src
      let mapped ← mappages new i PGSIZE mem (pteFlags pte)
      if !mapped then
        kfree k mem
        uvmunmap k new 0 (i / PGSIZE) true
        return false
      uvmcopyLoop old new n (i + PGSIZE)

/-- `uvmcopy`: whether it returns 0. -/
def uvmcopy (old new sz : ℕ) : Kern State Bool :=
  uvmcopyLoop k old new ((sz + PGSIZE - 1) / PGSIZE) 0

def uvmclear (pagetable va : ℕ) : Kern State Unit := do
  match ← walk pagetable va false with
  | none => Prog.stop .uvmclear
  | some (page, i) =>
    let pte ← getPte page i
    setPte page i (pte &&& (2 ^ 64 - 1 - PTE_U))

/-- The loop of `copyout`, with as many iterations as it could need. -/
def copyoutLoop (pagetable : ℕ) : ℕ → ℕ → List UInt8 → Kern State Bool
  | 0, _, src => return src.isEmpty
  | n + 1, dstva, src => do
    if src.isEmpty then
      return true
    let va0 := pgRoundDown dstva
    let pa0 ← walkaddr pagetable va0
    if pa0 = 0 then
      return false
    let m := PGSIZE - (dstva - va0)
    memwrite pa0 (dstva - va0) (src.take m)
    copyoutLoop pagetable n ((va0 + PGSIZE) % 2 ^ 64) (src.drop m)

/-- `copyout`: whether it returns 0. -/
def copyout (pagetable dstva : ℕ) (src : List UInt8) : Kern State Bool :=
  copyoutLoop pagetable src.length dstva src

/-- The memory of a process as `walkaddr` shows it. -/
def userMem (pagetable : ℕ) (s : State) : UserMem := fun va =>
  match walkaddr pagetable va s with
  | .ok (pa, _) => if pa = 0 then none else some (s.mem pa)
  | .error _ => none

end Vm

end Xv6
