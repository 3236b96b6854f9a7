import Xv6.Basic
import Xv6.Common.System
import Mathlib.Data.List.Basic
/-!
# The disk driver and its device — `kernel/virtio_disk.c`

Any number of processes call `virtio_disk_rw`, each with a buffer whose
sleep lock it holds, as `bread` and `bwrite` do; the interrupt handler runs
whenever it can take `vdisk_lock`; and the device works beside them, under
no lock. Of the driver a step is what lies between two points at which the
device, or another holder of the lock, could come in. A sleeping process may
wake up at any time.

The device takes chains from the avail ring, and completes those it has
taken in any order: it writes the used element, and in a later step
advances `used->id`.
-/

namespace Xv6

open Common Function

namespace Virtio

/-- The number of descriptors. -/
abbrev NUM : ℕ := 8

abbrev VRING_DESC_F_NEXT : ℕ := 1

abbrev VRING_DESC_F_WRITE : ℕ := 2

/-- `struct VRingDesc`, without the address and the length, which only the
device reads. -/
structure Desc where
  flags : ℕ := 0
  next : ℕ := 0

/-- An element of `disk.info`. -/
structure Info where
  b : Option ℕ := none
  status : ℕ := 0

/-- `struct disk`. The indices of the rings are 16 bits wide. -/
structure Disk where
  desc : ℕ → Desc
  /-- `avail[1]` -/
  availIdx : ℕ
  /-- `avail[2...]` -/
  avail : ℕ → ℕ
  usedId : ℕ
  /-- `used->elems[...].id` -/
  elems : ℕ → ℕ
  free : ℕ → Bool
  usedIdx : ℕ
  info : ℕ → Info

namespace Disk

def allocDesc (d : Disk) : Option (ℕ × Disk) :=
  match (List.range NUM).find? d.free with
  | some i => some (i, { d with free := update d.free i false })
  | none => none

def freeDesc (i : ℕ) (d : Disk) : Except Panic Disk :=
  if NUM ≤ i then .error .virtioDiskIntr1
  else if d.free i then .error .virtioDiskIntr2
  else .ok { d with free := update d.free i true }

/-- `free_chain`, with as many iterations as it could need. -/
def freeChain : ℕ → ℕ → Disk → Except Panic Disk
  | 0, _, _ => .error .noReturn
  | n + 1, i, d => do
    let d ← d.freeDesc i
    if (d.desc i).flags &&& VRING_DESC_F_NEXT ≠ 0 then freeChain n (d.desc i).next d else .ok d

/-- `alloc3_desc`: the descriptors it has and those it still needs. -/
def allocDescs : ℕ → List ℕ → Disk → Except Panic (Option (List ℕ) × Disk)
  | 0, idx, d => .ok (some idx, d)
  | n + 1, idx, d =>
    match d.allocDesc with
    | some (i, d) => allocDescs n (idx ++ [i]) d
    | none => do
      let d ← idx.foldlM (fun d i => d.freeDesc i) d
      .ok (none, d)

@[inherit_doc allocDescs] def alloc3Desc (d : Disk) : Except Panic (Option (List ℕ) × Disk) :=
  d.allocDescs 3 []

/-- The three descriptors of a request are formatted. -/
def format (b : ℕ) (write : Bool) (i j k : ℕ) (d : Disk) : Disk :=
  { d with
    desc := update (update (update d.desc
      i { flags := VRING_DESC_F_NEXT, next := j })
      j { flags := (if write then 0 else VRING_DESC_F_WRITE) ||| VRING_DESC_F_NEXT, next := k })
      k { flags := VRING_DESC_F_WRITE, next := 0 }
    info := update d.info i { b := some b, status := 0 } }

end Disk

/-- Where a process is in `virtio_disk_rw`: the buffer, the descriptors of
its chain once it has them, and the number of its request. -/
inductive Pc
  | idle
  | acquire (b : ℕ) (write : Bool)
  | alloc (b : ℕ) (write : Bool)
  /-- In `sleep(&disk.free[0], ...)`. -/
  | asleep (b : ℕ) (write : Bool)
  | format (b : ℕ) (write : Bool) (i j k : ℕ)
  /-- About to write `avail[2 + (avail[1] % NUM)]`. -/
  | ring (b i j k : ℕ)
  /-- About to advance `avail[1]`. -/
  | publish (b i j k : ℕ)
  /-- At `while(b->disk == 1)`. -/
  | check (b i j k n : ℕ)
  /-- In `sleep(b, ...)`. -/
  | sleeping (b i j k n : ℕ)
  /-- About to run `free_chain`. -/
  | finish (b i j k n : ℕ)
  | release (b n : ℕ)
  deriving DecidableEq

/-- Where the interrupt handler is. -/
inductive IntrPc
  | idle
  /-- At the test of the loop. -/
  | test
  | body
  | release
  deriving DecidableEq

/-- Who holds `vdisk_lock`. -/
inductive Holder
  | proc (p : ℕ)
  | intr
  deriving DecidableEq

/-- The driver, the buffers, the device, and what has happened. -/
structure State where
  disk : Disk
  /-- `b->disk` -/
  flag : ℕ → Bool
  /-- Who holds `b->lock`. -/
  owner : ℕ → Option ℕ
  lock : Option Holder
  pc : ℕ → Pc
  intr : IntrPc
  /-- How far the device has looked in the avail ring. -/
  seen : ℕ
  /-- The chains the device has taken and not completed. -/
  pending : List ℕ
  /-- The chain it has written to the used ring, before it advances. -/
  written : Option ℕ
  panic : Option Panic
  /-- The buffers of the requests placed in the avail ring, by number. -/
  requests : List ℕ
  /-- The request last placed with a head. -/
  request : ℕ → ℕ
  /-- The requests the device has completed, in its order. -/
  completed : List ℕ
  /-- The buffers whose flag the handler has cleared, in its order. -/
  cleared : List ℕ

/-- What happens: a process takes or drops the lock of a buffer, calls
`virtio_disk_rw`, or goes on in it; the handler starts or goes on; the
device takes a chain, writes the used element of one, or advances. -/
inductive Act
  | acquiresleep (p b : ℕ)
  | releasesleep (p b : ℕ)
  | rw (p b : ℕ) (write : Bool)
  | step (p : ℕ)
  | irq
  | handle
  | fetch
  | complete (h : ℕ)
  | advance

namespace State

/-- A step of a process in `virtio_disk_rw`. -/
def step (s : State) (p : ℕ) : State :=
  match s.pc p with
  | .idle => s
  | .acquire b write =>
    { s with lock := some (.proc p), pc := update s.pc p (.alloc b write) }
  | .alloc b write =>
    match s.disk.alloc3Desc with
    | .error e => { s with panic := some e }
    | .ok (some [i, j, k], disk) =>
      { s with disk, pc := update s.pc p (.format b write i j k) }
    | .ok (_, disk) => { s with disk, lock := none, pc := update s.pc p (.asleep b write) }
  | .asleep b write =>
    { s with lock := some (.proc p), pc := update s.pc p (.alloc b write) }
  | .format b write i j k =>
    { s with
      disk := s.disk.format b write i j k
      flag := update s.flag b true
      pc := update s.pc p (.ring b i j k) }
  | .ring b i j k =>
    { s with
      disk := { s.disk with avail := update s.disk.avail (s.disk.availIdx % NUM) i }
      pc := update s.pc p (.publish b i j k) }
  | .publish b i j k =>
    { s with
      disk := { s.disk with availIdx := (s.disk.availIdx + 1) % 2 ^ 16 }
      pc := update s.pc p (.check b i j k s.requests.length)
      requests := s.requests ++ [b]
      request := update s.request i s.requests.length }
  | .check b i j k n =>
    if s.flag b then { s with lock := none, pc := update s.pc p (.sleeping b i j k n) }
    else { s with pc := update s.pc p (.finish b i j k n) }
  | .sleeping b i j k n =>
    { s with lock := some (.proc p), pc := update s.pc p (.check b i j k n) }
  | .finish b i _ _ n =>
    let disk := { s.disk with info := update s.disk.info i { s.disk.info i with b := none } }
    match disk.freeChain (NUM + 1) i with
    | .error e => { s with panic := some e }
    | .ok disk => { s with disk, pc := update s.pc p (.release b n) }
  | .release _ _ => { s with lock := none, pc := update s.pc p .idle }

/-- A step of `virtio_disk_intr` with the lock in hand. -/
def handle (s : State) : State :=
  match s.intr with
  | .idle => s
  | .test =>
    if s.disk.usedIdx % NUM ≠ s.disk.usedId % NUM then { s with intr := .body }
    else { s with intr := .release }
  | .body =>
    let id := s.disk.elems s.disk.usedIdx
    if (s.disk.info id).status ≠ 0 then { s with panic := some .virtioDiskIntrStatus }
    else
      match (s.disk.info id).b with
      | none => { s with panic := some .nullPointer }
      | some b =>
        { s with
          flag := update s.flag b false
          disk := { s.disk with usedIdx := (s.disk.usedIdx + 1) % NUM }
          intr := .test
          cleared := s.cleared ++ [b] }
  | .release => { s with intr := .idle, lock := none }

end State

/-- The process has to take `vdisk_lock` to go on. -/
def Pc.wantsLock : Pc → Bool
  | .acquire _ _ | .asleep _ _ | .sleeping _ _ _ _ _ => true
  | _ => false

/-- What can happen. -/
def Act.Enabled (s : State) : Act → Prop
  | .acquiresleep _ b => s.panic = none ∧ s.owner b = none
  | .releasesleep p b => s.panic = none ∧ s.owner b = some p ∧ s.pc p = .idle
  | .rw p b _ => s.panic = none ∧ s.owner b = some p ∧ s.pc p = .idle
  | .step p =>
    s.panic = none ∧ s.pc p ≠ .idle ∧ ((s.pc p).wantsLock = true → s.lock = none)
  | .irq => s.panic = none ∧ s.lock = none
  | .handle => s.panic = none ∧ s.intr ≠ .idle
  | .fetch => s.seen ≠ s.disk.availIdx
  | .complete h => h ∈ s.pending ∧ s.written = none
  | .advance => s.written ≠ none

instance (s : State) : (a : Act) → Decidable (a.Enabled s)
  | .acquiresleep _ _ | .releasesleep _ _ | .rw _ _ _ | .step _ | .irq | .handle | .complete _ =>
    inferInstanceAs (Decidable (_ ∧ _))
  | .fetch | .advance => inferInstanceAs (Decidable (_ ≠ _))

/-- The state after an action. -/
def Act.next (s : State) : Act → State
  | .acquiresleep p b => { s with owner := update s.owner b (some p) }
  | .releasesleep _ b => { s with owner := update s.owner b none }
  | .rw p b write => { s with pc := update s.pc p (.acquire b write) }
  | .step p => s.step p
  | .irq => { s with lock := some .intr, intr := .test }
  | .handle => s.handle
  | .fetch =>
    { s with
      pending := s.disk.avail (s.seen % NUM) :: s.pending
      seen := (s.seen + 1) % 2 ^ 16 }
  | .complete h =>
    { s with
      pending := s.pending.erase h
      disk := { s.disk with
        elems := update s.disk.elems (s.disk.usedId % NUM) h
        info := update s.disk.info h { s.disk.info h with status := 0 } }
      written := some h }
  | .advance =>
    { s with
      disk := { s.disk with usedId := (s.disk.usedId + 1) % 2 ^ 16 }
      completed := s.completed ++ (s.written.map s.request).toList
      written := none }

/-- What `virtio_disk_init` leaves, and no request yet. -/
def boot : State where
  disk :=
    { desc := fun _ => {}, availIdx := 0, avail := fun _ => 0, usedId := 0, elems := fun _ => 0
      free := fun _ => true, usedIdx := 0, info := fun _ => {} }
  flag := fun _ => false
  owner := fun _ => none
  lock := none
  pc := fun _ => .idle
  intr := .idle
  seen := 0
  pending := []
  written := none
  panic := none
  requests := []
  request := fun _ => 0
  completed := []
  cleared := []

/-- The driver, its callers and its device. -/
def system : System State Act := System.guarded (· = boot) Act.Enabled Act.next

end Virtio

end Xv6
