import Xv6.Common.System
import Mathlib.Algebra.Group.Nat.Defs
import Mathlib.Logic.Function.Basic
/-!
# The user heap allocator — `user/umalloc.c`

Memory is read as headers at byte addresses. A loop has a bound on its
iterations, and a call that comes to it has not returned: `none`.

`malloc` is given the `sbrk` it calls. In a program by itself this is the
environment's (`Heap.sbrk`): it returns -1, or a region above all memory
the process has. The kernel keeps the size of a process in a `uint`
(`growproc`), so no region ends above 2³².
-/

namespace Xv6

open Common Function

namespace Umalloc

/-- `union header`; `size` is a `uint`, and counts headers. -/
structure Header where
  ptr : ℕ
  size : ℕ
  deriving DecidableEq

/-- `sizeof(Header)` -/
abbrev unit : ℕ := 16

/-- The memory and `freep`; what `sbrk` will answer, and what it has
returned: start and length of each region. -/
structure Heap where
  hdr : ℕ → Header
  freep : ℕ
  /-- The end of the memory of the process. -/
  brk : ℕ
  /-- The answers of `sbrk`: -1, or how far above `brk` the region is. -/
  answers : List (Option ℕ)
  regions : List (ℕ × ℕ)

namespace Heap

/-- `p->s.ptr = q` -/
def setPtr (h : Heap) (p q : ℕ) : Heap :=
  { h with hdr := update h.hdr p { h.hdr p with ptr := q } }

/-- `p->s.size = n` -/
def setSize (h : Heap) (p n : ℕ) : Heap :=
  { h with hdr := update h.hdr p { h.hdr p with size := n % 2 ^ 32 } }

/-- The header just past the block at `p`. -/
def fin (h : Heap) (p : ℕ) : ℕ := p + unit * (h.hdr p).size

/-- Where the loop of `free` ends. -/
def Between (h : Heap) (bp p : ℕ) : Prop :=
  (p < bp ∧ bp < (h.hdr p).ptr) ∨ ((h.hdr p).ptr ≤ p ∧ (p < bp ∨ bp < (h.hdr p).ptr))

instance (h : Heap) (bp p : ℕ) : Decidable (h.Between bp p) := inferInstanceAs (Decidable (_ ∨ _))

/-- The loop of `free`. -/
def search (h : Heap) (bp : ℕ) : ℕ → ℕ → Option ℕ
  | 0, _ => none
  | n + 1, p => if h.Between bp p then some p else h.search bp n (h.hdr p).ptr

/-- The block at `bp` takes in the one behind it in the list, if they touch. -/
def joinUpper (h : Heap) (bp p : ℕ) : Heap :=
  let q := (h.hdr p).ptr
  if h.fin bp = q then
    (h.setSize bp ((h.hdr bp).size + (h.hdr q).size)).setPtr bp (h.hdr q).ptr
  else h.setPtr bp q

/-- The block at `p` takes in the one at `bp`, if they touch. -/
def joinLower (h : Heap) (bp p : ℕ) : Heap :=
  if h.fin p = bp then
    (h.setSize p ((h.hdr p).size + (h.hdr bp).size)).setPtr p (h.hdr bp).ptr
  else h.setPtr p bp

def free (h : Heap) (n ap : ℕ) : Option Heap :=
  let bp := ap - unit
  (h.search bp n h.freep).map fun p => { (h.joinUpper bp p).joinLower bp p with freep := p }

/-- `sbrk(n)` -/
def sbrk (h : Heap) (n : ℕ) : Id (Option ℕ × Heap) :=
  let rest := { h with answers := h.answers.tail }
  match h.answers.headD none with
  | none => (none, rest)
  | some gap =>
    if h.brk + gap + n < 2 ^ 32 then
      (some (h.brk + gap), { rest with
        brk := h.brk + gap + n
        regions := h.regions ++ [(h.brk + gap, n)] })
    else (none, rest)

/-- Take `nunits` from the block at `p`, which has as many: what `malloc`
returns. -/
def take (h : Heap) (nunits prevp p : ℕ) : ℕ × Heap :=
  if (h.hdr p).size = nunits then
    (p + unit, { h.setPtr prevp (h.hdr p).ptr with freep := prevp })
  else
    -- the tail end of the block
    let h := h.setSize p ((h.hdr p).size - nunits)
    let p := h.fin p
    (p + unit, { h.setSize p nunits with freep := prevp })

/-- The units of a block for `nbytes` bytes, with its header. -/
def units (nbytes : ℕ) : ℕ := ((nbytes + unit - 1) / unit + 1) % 2 ^ 32

/-- The first call of `malloc` makes a list of `base` alone. -/
def start (base : ℕ) (h : Heap) : Heap :=
  if h.freep = 0 then
    { (h.setPtr base base).setSize base 0 with freep := base }
  else h

end Heap

section

variable {m : Type → Type} [Monad m] (sbrk : Heap → ℕ → m (Option ℕ × Heap))

/-- `morecore`: what it returns, 0 if there is no memory. -/
def morecore (h : Heap) (n nu : ℕ) : m (Option (ℕ × Heap)) := do
  let nu := if nu < 4096 then 4096 else nu
  match ← sbrk h (nu * unit) with
  | (none, h) => return some (0, h)
  | (some p, h) => return ((h.setSize p nu).free n (p + unit)).map fun h => (h.freep, h)

/-- The loop of `malloc`. -/
def mallocLoop (nunits : ℕ) : ℕ → ℕ → ℕ → Heap → m (Option (ℕ × Heap))
  | 0, _, _, _ => return none
  | n + 1, prevp, p, h => do
    if nunits ≤ (h.hdr p).size then return some (h.take nunits prevp p)
    else if p = h.freep then
      match ← morecore sbrk h n nunits with
      | none => return none
      | some (p, h) => if p = 0 then return some (0, h) else mallocLoop nunits n p (h.hdr p).ptr h
    else mallocLoop nunits n p (h.hdr p).ptr h

def malloc (base : ℕ) (h : Heap) (n nbytes : ℕ) : m (Option (ℕ × Heap)) :=
  let h := h.start base
  mallocLoop sbrk (Heap.units nbytes) n h.freep (h.hdr h.freep).ptr h

end

/-- `malloc` over the environment's `sbrk`. -/
def Heap.malloc (base : ℕ) (h : Heap) (n nbytes : ℕ) : Option (ℕ × Heap) :=
  (Umalloc.malloc Heap.sbrk base h n nbytes).run

/-! ## A program -/

/-- The heap and the blocks the program has: the header of each and the
bytes it asked for. -/
structure State where
  heap : Heap
  live : List (ℕ × ℕ)

/-- A program calls `malloc` and `free`, and writes to the blocks it has.
A call comes with the bound on the loops, and `malloc` with the answers of
`sbrk`. -/
inductive Act
  | malloc (nbytes : ℕ) (answers : List (Option ℕ)) (n : ℕ)
  | free (ap n : ℕ)
  /-- The program writes in the block at `b`: what is read as a header
  anywhere inside it may change. -/
  | write (b a : ℕ) (v : Header)

variable (base : ℕ)

/-- `nbytes` is a `uint`; a pointer that is freed is live; and a call
returns. -/
def Act.Enabled (s : State) : Act → Prop
  | .malloc nbytes answers n =>
    nbytes < 2 ^ 32 ∧ ({ s.heap with answers }.malloc base n nbytes).isSome
  | .free ap n => unit ≤ ap ∧ ap - unit ∈ s.live.map Prod.fst ∧ (s.heap.free n ap).isSome
  | .write b a _ => b ∈ s.live.map Prod.fst ∧ b < a ∧ a < s.heap.fin b

instance (s : State) (a : Act) : Decidable (a.Enabled base s) :=
  match a with
  | .malloc .. | .free .. | .write .. => inferInstanceAs (Decidable (_ ∧ _))

/-- What `malloc` returned is live if it is not 0. -/
def State.allocated (s : State) (nbytes : ℕ) (r : ℕ × Heap) : State :=
  if r.1 = 0 then { s with heap := r.2 }
  else { heap := r.2, live := (r.1 - unit, nbytes) :: s.live }

/-- What a freed pointer points to is not live. -/
def State.freed (s : State) (ap : ℕ) (h : Heap) : State :=
  { heap := h, live := s.live.filter fun b => b.1 ≠ ap - unit }

/-- The state after a call has returned, or a write. -/
def Act.next (s : State) : Act → State
  | .malloc nbytes answers n =>
    (({ s.heap with answers }.malloc base n nbytes).map (s.allocated nbytes)).getD s
  | .free ap n => ((s.heap.free n ap).map (s.freed ap)).getD s
  | .write _ a v => { s with heap := { s.heap with hdr := update s.heap.hdr a v } }

/-- Before the first call: `freep` is 0, and `base` is in the memory of the
process. -/
structure Init (s : State) : Prop where
  freep : s.heap.freep = 0
  live : s.live = []
  regions : s.heap.regions = []
  pos : 0 < base
  brk : base + unit ≤ s.heap.brk
  lt : s.heap.brk < 2 ^ 32

/-- A program with the allocator whose `base` is at the given address. -/
def system : System State Act := System.guarded (Init base) (Act.Enabled base) (Act.next base)

end Umalloc

end Xv6
