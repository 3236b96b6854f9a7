import Xv6.Intr.Model
import Mathlib.Data.List.Basic
/-!
# Console output — `consolewrite` of `kernel/console.c`, `kernel/uart.c`

A process writes to the console with `cons.lock` held. Other CPUs handle
the interrupts of the device whenever they can take `uart_tx_lock`; what
`LSR` reads is up to the device. `uartputc` sleeps when the transmit buffer
is full, and `sched` does not let a process sleep with a spinlock held: the
kernel panics exactly when a byte comes to a full buffer.
-/

namespace Xv6

open Common Function List

/-! ## `kernel/uart.c` -/

def UART_TX_BUF_SIZE : ℕ := 32

/-- `uart_tx_buf` with its two indices, and what `THR` has been given. -/
structure Uart where
  buf : ℕ → UInt8
  w : ℕ
  r : ℕ
  thr : List UInt8

namespace Uart

/-- `((uart_tx_w + 1) % UART_TX_BUF_SIZE) == uart_tx_r` -/
def full (u : Uart) : Bool := (u.w + 1) % UART_TX_BUF_SIZE = u.r

/-- A byte enters the buffer. -/
def put (u : Uart) (c : UInt8) : Uart :=
  { u with buf := update u.buf u.w c, w := (u.w + 1) % UART_TX_BUF_SIZE }

/-- The oldest byte goes to the device. -/
def send (u : Uart) : Uart :=
  { u with r := (u.r + 1) % UART_TX_BUF_SIZE, thr := u.thr ++ [u.buf u.r] }

/-- `uartstart`, given whether `LSR` reads `LSR_TX_IDLE`, turn by turn; in
the end it does not. -/
def uartstart (u : Uart) : List Bool → Uart
  | [] => u
  | idle :: rest => if u.w = u.r then u else if idle then u.send.uartstart rest else u

/-- `uartintr` for each interrupt, as far as it sends. -/
def uartintr (u : Uart) (intrs : List (List Bool)) : Uart := intrs.foldl uartstart u

end Uart

namespace Console

/-- The CPU a process runs on, the locks it holds, and the device. -/
structure Tty where
  cpu : Intr.Cpu
  held : List Intr.Lk
  uart : Uart

def consLock : Intr.Lk := .other 0

def uartTxLock : Intr.Lk := .other 1

def acquire (lk : Intr.Lk) : Kern Tty Unit := do
  Prog.modify fun s => { s with cpu := s.cpu.pushOff s.cpu.intr }
  let held ← Prog.gets (·.held)
  if lk ∈ held then Prog.stop .acquire
  Prog.modify fun s => { s with held := lk :: s.held }

def release (lk : Intr.Lk) : Kern Tty Unit := do
  let s ← Prog.gets id
  if lk ∉ s.held then Prog.stop .release
  if s.cpu.intr then Prog.stop .popOffInterruptible
  if s.cpu.noff < 1 then Prog.stop .popOff
  Prog.modify fun s => { s with held := s.held.erase lk, cpu := s.cpu.popOff }

/-- `sched`; the others run, and interrupts come, before it returns. -/
def sched (p : ℕ) (intrs : List (List Bool)) : Kern Tty Unit := do
  let s ← Prog.gets id
  if .proc p ∉ s.held then Prog.stop .schedLock
  if s.cpu.noff ≠ 1 then Prog.stop .schedLocks
  if s.cpu.intr then Prog.stop .schedInterruptible
  Prog.modify fun s => { s with uart := s.uart.uartintr intrs }

def sleep (p : ℕ) (lk : Intr.Lk) (intrs : List (List Bool)) : Kern Tty Unit := do
  acquire (.proc p)
  release lk
  sched p intrs
  release (.proc p)
  acquire lk

/-- What happens around one byte: the interrupts before `uart_tx_lock` is
taken, in the first sleep and in each later one, and what `LSR` reads when
the byte is in. -/
structure Turn where
  intrs : List (List Bool) := []
  nap : List (List Bool) := []
  naps : List (List (List Bool)) := []
  ready : List Bool := []

/-- The loop of `uartputc`, with the sleeps it may need. -/
def uartputcLoop (p : ℕ) (c : UInt8) (ready : List Bool) : List (List (List Bool)) → Kern Tty Unit
  | [] => Prog.stop .noReturn
  | nap :: naps => do
    let full ← Prog.gets fun s => s.uart.full
    if full then
      sleep p uartTxLock nap
      uartputcLoop p c ready naps
    else
      Prog.modify fun s => { s with uart := (s.uart.put c).uartstart ready }
      release uartTxLock

def uartputc (p : ℕ) (c : UInt8) (t : Turn) : Kern Tty Unit := do
  Prog.modify fun s => { s with uart := s.uart.uartintr t.intrs }
  acquire uartTxLock
  uartputcLoop p c t.ready (t.nap :: t.naps)

/-- The loop of `consolewrite` from byte `i` on: what `either_copyin` reads
of each byte, if it can, and what happens around it. -/
def consolewriteLoop (p : ℕ) : List (Option UInt8 × Turn) → ℕ → Kern Tty ℕ
  | [], i | (none, _) :: _, i => return i
  | (some c, t) :: src, i => do
    uartputc p c t
    consolewriteLoop p src (i + 1)

/-- `consolewrite` of as many bytes as the list is long. -/
def consolewrite (p : ℕ) (src : List (Option UInt8 × Turn)) : Kern Tty ℕ := do
  acquire consLock
  let i ← consolewriteLoop p src 0
  release consLock
  return i

/-! ## The buffer -/

end Console

namespace Uart

variable {u : Uart} {c : UInt8}

/-- The bytes in the buffer, the oldest first. -/
def queue (u : Uart) : List UInt8 :=
  (List.range ((u.w + UART_TX_BUF_SIZE - u.r) % UART_TX_BUF_SIZE)).map fun i =>
    u.buf ((u.r + i) % UART_TX_BUF_SIZE)

/-- The bytes that have entered the buffer. -/
def entered (u : Uart) : List UInt8 := u.thr ++ u.queue

/-- The indices are those of a byte of the buffer. -/
def Ok (u : Uart) : Prop := u.w < UART_TX_BUF_SIZE ∧ u.r < UART_TX_BUF_SIZE

theorem Ok.put (h : u.Ok) : (u.put c).Ok := ⟨Nat.mod_lt _ (by decide), h.2⟩

theorem Ok.send (h : u.Ok) : u.send.Ok := ⟨h.1, Nat.mod_lt _ (by decide)⟩

/-- **A byte enters the buffer behind the others.** -/
theorem entered_put (h : u.Ok) (hfull : u.full = false) : (u.put c).entered = u.entered ++ [c] := by
  obtain ⟨hw, hr⟩ := h
  have hne := of_decide_eq_false hfull
  simp only [UART_TX_BUF_SIZE] at hw hr hne
  have hlen : ((u.w + 1) % 32 + 32 - u.r) % 32 = (u.w + 32 - u.r) % 32 + 1 := by omega
  simp only [entered, queue, put, UART_TX_BUF_SIZE, hlen, range_succ, map_append,
    append_assoc, map_singleton]
  congr 2
  · refine map_congr_left fun i hi => update_of_ne ?_ ..
    have := mem_range.1 hi
    omega
  · rw [show (u.r + (u.w + 32 - u.r) % 32) % 32 = u.w by omega, update_self]

/-- **The oldest byte leaves it.** -/
theorem entered_send (h : u.Ok) (hne : u.w ≠ u.r) : u.send.entered = u.entered := by
  obtain ⟨hw, hr⟩ := h
  simp only [UART_TX_BUF_SIZE] at hw hr
  have hlen : (u.w + 32 - u.r) % 32 = (u.w + 32 - (u.r + 1) % 32) % 32 + 1 := by omega
  simp only [entered, queue, send, UART_TX_BUF_SIZE, hlen, range_succ_eq_map, map_cons,
    map_map, append_assoc, singleton_append]
  congr 2
  · rw [Nat.add_zero, Nat.mod_eq_of_lt hr]
  · refine map_congr_left fun i _ => ?_
    rw [comp_apply, Nat.mod_add_mod, Nat.add_right_comm, Nat.add_assoc]

theorem uartstart_keeps (h : u.Ok) (l : List Bool) :
    (u.uartstart l).Ok ∧ (u.uartstart l).entered = u.entered := by
  induction l generalizing u with
  | nil => exact ⟨h, rfl⟩
  | cons idle l ih =>
    rw [uartstart]
    split
    · exact ⟨h, rfl⟩
    · rename_i hne
      cases idle with
      | false => exact ⟨h, rfl⟩
      | true =>
        obtain ⟨hok, hent⟩ := ih h.send
        exact ⟨hok, hent.trans (entered_send h hne)⟩

theorem uartintr_keeps (h : u.Ok) (l : List (List Bool)) :
    (u.uartintr l).Ok ∧ (u.uartintr l).entered = u.entered := by
  induction l generalizing u with
  | nil => exact ⟨h, rfl⟩
  | cons a l ih =>
    obtain ⟨hok, hent⟩ := uartstart_keeps h a
    exact ⟨(ih hok).1, (ih hok).2.trans hent⟩

end Uart

namespace Console

/-! ## The locks -/

variable {p i : ℕ} {s : Tty} {c : UInt8}

/-- With `cons.lock` alone. -/
structure Locked (s : Tty) : Prop where
  held : s.held = [consLock]
  noff : s.cpu.noff = 1
  intr : s.cpu.intr = false

/-- No byte comes to a full buffer. -/
def Room : List (UInt8 × Turn) → Uart → Prop
  | [], _ => True
  | (c, t) :: src, u => (u.uartintr t.intrs).full = false ∧
      Room src (((u.uartintr t.intrs).put c).uartstart t.ready)

/-- A buffer that can be read. -/
def readable (src : List (UInt8 × Turn)) : List (Option UInt8 × Turn) :=
  src.map fun x => (some x.1, x.2)

theorem acquire_run {lk : Intr.Lk} (h : lk ∉ s.held) : acquire lk s =
    .ok ((), { s with cpu := s.cpu.pushOff s.cpu.intr, held := lk :: s.held }) := by
  rw [acquire, Prog.modify_bind, Prog.gets_bind, if_neg h]
  rfl

theorem release_run {lk : Intr.Lk} (h : lk ∈ s.held) (hi : s.cpu.intr = false) (hn : s.cpu.noff ≠ 0) :
    release lk s = .ok ((), { s with held := s.held.erase lk, cpu := s.cpu.popOff }) := by
  rw [release, Prog.gets_bind, if_neg (by simpa using h), if_neg (by simp [hi]), if_neg (by simp; omega)]
  rfl

theorem sched_run {intrs : List (List Bool)} (h : .proc p ∈ s.held) (hn : s.cpu.noff ≠ 1) :
    sched p intrs s = .error .schedLocks := by
  rw [sched, Prog.gets_bind]
  simp only [id, not_true_eq_false, h, hn, ne_eq, not_false_eq_true, ↓reduceIte]
  rfl

/-- **`uartputc` panics if the buffer is full**, as the caller has a lock
already; if not, the byte enters the buffer. -/
theorem uartputc_run (h : Locked s) (t : Turn) : uartputc p c t s =
    if (s.uart.uartintr t.intrs).full then .error .schedLocks
    else .ok ((), { s with uart := ((s.uart.uartintr t.intrs).put c).uartstart t.ready }) := by
  obtain ⟨⟨noff, intena, intr, proc⟩, held, u⟩ := s
  obtain ⟨rfl, rfl, rfl⟩ := h
  rw [uartputc, Prog.modify_bind, Prog.bind_run, acquire_run (by simp [uartTxLock, consLock])]
  dsimp only [Except.bind]
  rw [uartputcLoop, Prog.gets_bind]
  dsimp only
  split
  · -- three locks, and two when `uart_tx_lock` is released
    rw [Prog.bind_run, sleep, Prog.bind_run, acquire_run (by simp [uartTxLock, consLock])]
    dsimp only [Except.bind]
    rw [Prog.bind_run, release_run (by simp) rfl (Nat.succ_ne_zero _)]
    dsimp only [Except.bind]
    rw [Prog.bind_run, sched_run (by simp [uartTxLock, consLock])
      (by simp [Intr.Cpu.pushOff, Intr.Cpu.popOff])]
    rfl
  · rw [Prog.modify_bind, release_run (by simp) rfl (Nat.succ_ne_zero _)]
    simp [Intr.Cpu.pushOff, Intr.Cpu.popOff]

/-- The loop panics if a byte comes to a full buffer, and otherwise all
bytes enter the buffer. -/
theorem consolewriteLoop_run (src : List (UInt8 × Turn)) (h : Locked s) (hu : s.uart.Ok) :
    (Room src s.uart → ∃ u : Uart, consolewriteLoop p (readable src) i s =
      .ok (i + src.length, { s with uart := u }) ∧ u.entered = s.uart.entered ++ src.map Prod.fst) ∧
    (¬ Room src s.uart → consolewriteLoop p (readable src) i s = .error .schedLocks) := by
  induction src generalizing s i with
  | nil => exact ⟨fun _ => ⟨s.uart, rfl, by simp⟩, fun hno => absurd trivial hno⟩
  | cons x src ih =>
    obtain ⟨c, t⟩ := x
    have hrun : consolewriteLoop p (readable ((c, t) :: src)) i s =
        (uartputc p c t s).bind fun r => consolewriteLoop p (readable src) (i + 1) r.2 := rfl
    rw [hrun, uartputc_run h, Room]
    obtain ⟨hok, hent⟩ := Uart.uartintr_keeps hu t.intrs
    generalize s.uart.uartintr t.intrs = u₁ at *
    obtain ⟨hok', hent'⟩ := Uart.uartstart_keeps (hok.put (c := c)) t.ready
    generalize (u₁.put c).uartstart t.ready = u₂ at *
    have hstep := ih (s := { s with uart := u₂ }) (i := i + 1) ⟨h.held, h.noff, h.intr⟩ hok'
    cases hf : u₁.full with
    | true => exact ⟨fun hr => Bool.noConfusion hr.1, fun _ => rfl⟩
    | false =>
      refine ⟨fun hr => ?_, fun hno => hstep.2 fun hr => hno ⟨rfl, hr⟩⟩
      obtain ⟨u, hu, hent''⟩ := hstep.1 hr.2
      refine ⟨u, hu.trans ?_, hent''.trans ?_⟩
      · rw [length_cons, Nat.add_right_comm, Nat.add_assoc]
      · rw [hent', Uart.entered_put hok hf, hent, map_cons, append_assoc,
          singleton_append]

/-- **A console write goes through** as long as no byte comes to a full
buffer: it returns `n`, its bytes have entered the buffer in order, and no
lock is held. Otherwise it panics. -/
theorem consolewrite_enters (src : List (UInt8 × Turn)) (hheld : s.held = []) (hnoff : s.cpu.noff = 0)
    (hu : s.uart.Ok) :
    (Room src s.uart → Returns (consolewrite p (readable src)) s fun n s' => n = src.length ∧
      s'.held = [] ∧ s'.cpu.noff = 0 ∧ s'.uart.entered = s.uart.entered ++ src.map Prod.fst) ∧
    (¬ Room src s.uart → consolewrite p (readable src) s = .error .schedLocks) := by
  obtain ⟨hroom, hpanic⟩ := consolewriteLoop_run (p := p) (i := 0) src
    (s := { s with cpu := s.cpu.pushOff s.cpu.intr, held := [consLock] })
    ⟨rfl, by simp [Intr.Cpu.pushOff, hnoff], rfl⟩ hu
  rw [consolewrite, Returns, Prog.bind_run, acquire_run (by simp [hheld]), hheld]
  dsimp only [Except.bind]
  rw [Prog.bind_run]
  refine ⟨fun hr => ?_, fun hno => ?_⟩
  · obtain ⟨u, hrun, hent⟩ := hroom hr
    rw [hrun]
    dsimp only [Except.bind]
    rw [Prog.bind_run, release_run (by simp) rfl (Nat.succ_ne_zero _)]
    refine ⟨src.length, _, by rw [Nat.zero_add]; rfl, rfl, by simp, ?_, hent⟩
    simp [Intr.Cpu.pushOff, Intr.Cpu.popOff, hnoff]
  · rw [hpanic hno]
    rfl

/-- A CPU with no lock, and nothing in the buffer. -/
def quiet : Tty := ⟨⟨0, true, true, some 0⟩, [], ⟨fun _ => 0, 0, 0, []⟩⟩

theorem consolewrite_enters_two : Returns (consolewrite 0 (readable [(7, {}), (8, {})])) quiet
    fun n s' => n = 2 ∧ s'.held = [] ∧ s'.cpu.noff = 0 ∧ s'.uart.entered = [7, 8] :=
  (consolewrite_enters [(7, {}), (8, {})] rfl rfl ⟨by decide, by decide⟩).1 ⟨rfl, rfl, trivial⟩

/-- **A device that is never ready brings the kernel down**: the last of 32
bytes comes to a full buffer. -/
theorem consolewrite_panics :
    consolewrite 0 (readable (List.replicate 32 (7, {}))) quiet = .error .schedLocks := rfl

end Console

end Xv6
