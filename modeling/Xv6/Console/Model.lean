import Xv6.Common.System
import Mathlib.Algebra.Group.Nat.Defs
import Mathlib.Algebra.Ring.Int.Defs
import Mathlib.Data.List.Basic
/-!
# Console input — `kernel/console.c`

Characters come in through `consoleintr`, which holds `cons.lock` from its
start to its end and is one step. A process in `consoleread` holds the lock
too, except where it sleeps; a step of it is an iteration of its loop, and
it may wake up at any time. The indices `r`, `w` and `e` are 32 bits wide.

The state records what happened: the characters that came in, the calls,
the bytes copied out, and what the calls returned.
-/

namespace Xv6

open Common Function

namespace Console

abbrev INPUT_BUF : ℕ := 128

/-- `C(x)`, Control-x -/
def C (x : Char) : UInt8 := x.toUInt8 - '@'.toUInt8

abbrev lf : UInt8 := '\n'.toUInt8

abbrev cr : UInt8 := '\r'.toUInt8

/-- `'\x7f'` -/
abbrev del : UInt8 := 0x7f

/-- The difference of two `uint`. -/
def sub (a b : ℕ) : ℕ := (a + (2 ^ 32 - b)) % 2 ^ 32

/-- `cons`, without its lock. -/
structure Cons where
  buf : ℕ → UInt8
  /-- Read index -/
  r : ℕ
  /-- Write index -/
  w : ℕ
  /-- Edit index -/
  e : ℕ

namespace Cons

/-- The loop of the case `C('U')`, with as many iterations as it could need. -/
def killLine : ℕ → Cons → Cons
  | 0, k => k
  | n + 1, k =>
    if k.e ≠ k.w ∧ k.buf (sub k.e 1 % INPUT_BUF) ≠ lf then killLine n { k with e := sub k.e 1 }
    else k

/-- The default case of `consoleintr`. -/
def enter (k : Cons) (c : UInt8) : Cons :=
  let k := { k with
    buf := update k.buf (k.e % INPUT_BUF) c
    e := (k.e + 1) % 2 ^ 32 }
  if c = lf ∨ c = C 'D' ∨ k.e = (k.r + INPUT_BUF) % 2 ^ 32 then { k with w := k.e } else k

def consoleintr (k : Cons) (c : UInt8) : Cons :=
  if c = C 'P' then k
  else if c = C 'U' then k.killLine (2 ^ 32)
  else if c = C 'H' ∨ c = del then if k.e ≠ k.w then { k with e := sub k.e 1 } else k
  else if c ≠ 0 ∧ sub k.e k.r < INPUT_BUF then k.enter (if c = cr then lf else c)
  else k

end Cons

/-- Where a process is in `consoleread`: `target` is a `uint` and `n` an
`int`. -/
inductive Pc
  | idle
  | start (n : ℤ)
  /-- At `while(n > 0)`. -/
  | loop (target : ℕ) (n : ℤ)
  /-- In `sleep(&cons.r, &cons.lock)`. -/
  | asleep (target : ℕ) (n : ℤ)
  | release
  deriving DecidableEq

/-- What happens at the console. -/
inductive Event
  /-- A character comes in. -/
  | input (c : UInt8)
  /-- `consoleread` is called for `n` bytes. -/
  | call (p : ℕ) (n : ℤ)
  /-- It copies a byte out. -/
  | byte (p : ℕ) (c : UInt8)
  /-- It is left with a result. -/
  | ret (p : ℕ) (v : ℤ)
  deriving DecidableEq

structure State where
  cons : Cons
  /-- Who holds `cons.lock`. -/
  lock : Option ℕ
  pc : ℕ → Pc
  events : List Event

/-- An `int` from the bits of a `uint`. -/
def asInt (x : ℕ) : ℤ := if x < 2 ^ 31 then x else x - 2 ^ 32

/-- `(uint)n` -/
def asUint (n : ℤ) : ℕ := (n % 2 ^ 32).toNat

namespace State

/-- The loop is left: `return v`. -/
def leave (s : State) (p : ℕ) (v : ℤ) : State :=
  { s with pc := update s.pc p .release, events := s.events ++ [.ret p v] }

/-- The body of the loop of `consoleread` where there is input. -/
def take (s : State) (p : ℕ) (copied : Bool) (target : ℕ) (n : ℤ) : State :=
  let c := s.cons.buf (s.cons.r % INPUT_BUF)
  let s := { s with cons := { s.cons with r := (s.cons.r + 1) % 2 ^ 32 } }
  if c = C 'D' then
    let s :=
      if asUint n < target then { s with cons := { s.cons with r := sub s.cons.r 1 } } else s
    s.leave p (asInt (sub target (asUint n)))
  else if copied = false then s.leave p (asInt (sub target (asUint n)))
  else
    let s := { s with events := s.events ++ [Event.byte p c] }
    if c = lf then s.leave p (asInt (sub target (asUint (n - 1))))
    else { s with pc := update s.pc p (.loop target (n - 1)) }

/-- A step of a process in `consoleread`: `killed` is `myproc()->killed`,
and `copied` says whether `either_copyout` succeeds. -/
def step (s : State) (p : ℕ) (killed copied : Bool) : State :=
  match s.pc p with
  | .idle => s
  | .start n => { s with lock := some p, pc := update s.pc p (.loop (asUint n) n) }
  | .loop target n =>
    if 0 < n then
      if s.cons.r = s.cons.w then
        if killed then s.leave p (-1)
        else { s with lock := none, pc := update s.pc p (.asleep target n) }
      else s.take p copied target n
    else s.leave p (asInt (sub target (asUint n)))
  | .asleep target n => { s with lock := some p, pc := update s.pc p (.loop target n) }
  | .release => { s with lock := none, pc := update s.pc p .idle }

end State

/-- A character comes in, a process calls `consoleread`, or goes on in it. -/
inductive Act
  | intr (c : UInt8)
  | call (p : ℕ) (n : ℤ)
  | step (p : ℕ) (killed copied : Bool)

/-- The process has to take `cons.lock` to go on. -/
def Pc.wantsLock : Pc → Bool
  | .start _ | .asleep _ _ => true
  | _ => false

/-- What can happen; the length is an `int`. -/
def Act.Enabled (s : State) : Act → Prop
  | .intr _ => s.lock = none
  | .call p n => s.pc p = .idle ∧ -2 ^ 31 ≤ n ∧ n < 2 ^ 31
  | .step p _ _ => s.pc p ≠ .idle ∧ ((s.pc p).wantsLock = true → s.lock = none)

instance (s : State) : (a : Act) → Decidable (a.Enabled s)
  | .intr _ => inferInstanceAs (Decidable (_ = _))
  | .call _ _ | .step _ _ _ => inferInstanceAs (Decidable (_ ∧ _))

/-- The state after an action. -/
def Act.next (s : State) : Act → State
  | .intr c => { s with cons := s.cons.consoleintr c, events := s.events ++ [.input c] }
  | .call p n =>
    { s with pc := update s.pc p (.start n), events := s.events ++ [.call p n] }
  | .step p killed copied => s.step p killed copied

/-- An empty buffer, which the indices may have gone around any number of
times, and no call yet. -/
def Start (s : State) : Prop :=
  s.cons.r < 2 ^ 32 ∧ s.cons.w = s.cons.r ∧ s.cons.e = s.cons.r ∧ s.lock = none ∧
    (∀ p, s.pc p = .idle) ∧ s.events = []

/-- The console and its readers. -/
def system : System State Act := System.guarded Start Act.Enabled Act.next

/-- The buffers that calls read into are valid. -/
def ValidBuffers (_ : State) : Act → Prop
  | .step _ _ copied => copied = true
  | _ => True

instance (s : State) : (a : Act) → Decidable (ValidBuffers s a)
  | .intr _ | .call _ _ => inferInstanceAs (Decidable True)
  | .step _ _ _ => inferInstanceAs (Decidable (_ = _))

/-- The indices at zero, as at boot. -/
def boot : State where
  cons := { buf := fun _ => 0, r := 0, w := 0, e := 0 }
  lock := none
  pc := fun _ => .idle
  events := []

theorem boot_start : Start boot := ⟨by decide, rfl, rfl, rfl, fun _ => rfl, rfl⟩

end Console

end Xv6
