import Xv6.Console.Write
/-!
# The transmit buffer — `kernel/uart.c`

Processes call `uartputc` and interrupts bring `uartintr`, in any order;
`LSR` reads what it likes. What the device got, the byte on its way there
and the buffer are together the bytes that `uartputc` accepted, and who
sleeps does so because the buffer is full.
-/

namespace Xv6

open Common Function

namespace Uart

/-- A process without `uart_tx_lock`. -/
inductive Pc
  | idle
  /-- `uartputc(c)`, before `acquire` -/
  | enter (c : UInt8)
  /-- `SLEEPING` on `&uart_tx_r` -/
  | asleep (c : UInt8)
  /-- runnable again, in `sleep` before `acquire` -/
  | woken (c : UInt8)
  /-- with the lock -/
  | inside
deriving DecidableEq

/-- Where the holder of `uart_tx_lock` is; `uartstart` runs for a process or
for an interrupt. -/
inductive Crit
  /-- `for(;;)`, the kernel having panicked -/
  | spin
  /-- `while(1)` in `uartputc` -/
  | loop (p : Fin NPROC) (c : UInt8)
  /-- `while(1)` in `uartstart` -/
  | start (who : Option (Fin NPROC))
  /-- `wakeup` at `proc[k]`, before `WriteReg(THR, c)` -/
  | waking (who : Option (Fin NPROC)) (c : UInt8) (k : ℕ)

/-- The device, the lock, `panicked`, the processes, and the bytes accepted
so far. -/
structure Tx where
  uart : Uart
  lock : Option Crit
  panicked : Bool
  pc : Fin NPROC → Pc
  accepted : List UInt8

/-- What can happen next. -/
inductive Act
  | call (p : Fin NPROC) (c : UInt8)
  | kill (p : Fin NPROC)
  | panic
  | acquire (p : Fin NPROC)
  | intr
  /-- a step of the holder of the lock; `idle` is what `LSR` reads -/
  | hold (idle : Bool)

namespace Tx

def goto (s : Tx) (p : Fin NPROC) (x : Pc) : Tx := { s with pc := update s.pc p x }

/-- `wakeup` and `kill`, for one process. -/
def wake (s : Tx) (p : Fin NPROC) : Tx :=
  match s.pc p with
  | .asleep c => s.goto p (.woken c)
  | _ => s

/-- `acquire(&uart_tx_lock)`, in `uartputc` or at the end of `sleep`. -/
def acquire (s : Tx) (p : Fin NPROC) : Tx :=
  match s.pc p with
  | .enter c => { s with lock := some (if s.panicked then .spin else .loop p c) }.goto p .inside
  | .woken c => { s with lock := some (.loop p c) }.goto p .inside
  | _ => s

/-- The holder goes on. Going to sleep is one step: nobody sees a process
between the `release` in `sleep` and `SLEEPING`, which is under `p->lock`. -/
def hold (s : Tx) (idle : Bool) : Crit → Tx
  | .spin => s
  | .loop p c =>
    if s.uart.full then { s with lock := none }.goto p (.asleep c)
    else { s with
      uart := s.uart.put c, accepted := s.accepted ++ [c], lock := some (.start (some p)) }
  | .start who =>
    if s.uart.w = s.uart.r ∨ idle = false then
      { s with lock := none, pc := who.elim s.pc fun p => update s.pc p .idle }
    else { s with
      uart := { s.uart with r := (s.uart.r + 1) % UART_TX_BUF_SIZE }
      lock := some (.waking who (s.uart.buf s.uart.r) 0) }
  | .waking who c k =>
    if h : k < NPROC then { s.wake ⟨k, h⟩ with lock := some (.waking who c (k + 1)) }
    else { s with uart := { s.uart with thr := s.uart.thr ++ [c] }, lock := some (.start who) }

def next (s : Tx) : Act → Tx
  | .call p c => if s.pc p matches .idle then s.goto p (.enter c) else s
  | .kill p => s.wake p
  | .panic => { s with panicked := true }
  | .acquire p => if s.lock.isNone then s.acquire p else s
  | .intr => if s.lock.isNone then { s with lock := some (.start none) } else s
  | .hold idle => s.lock.elim s (s.hold idle)

/-- As the kernel starts. -/
def boot : Tx := ⟨⟨fun _ => 0, 0, 0, []⟩, none, false, fun _ => .idle, []⟩

def system : System Tx Act := .guarded (· = boot) (fun _ _ => True) next

/-- The byte on its way to the device. -/
def flight : Option Crit → List UInt8
  | some (.waking _ c _) => [c]
  | _ => []

/-- A sleeper need not wait: the buffer is full, or `wakeup` has yet to come
to it. -/
def Due (s : Tx) (p : Fin NPROC) : Prop :=
  s.uart.full ∨ ∃ who c k, s.lock = some (.waking who c k) ∧ k ≤ p

/-- **What every step keeps.** -/
structure Inv (s : Tx) : Prop where
  ok : s.uart.Ok
  sent : s.accepted = s.uart.thr ++ flight s.lock ++ s.uart.queue
  asleep : ∀ p c, s.pc p = .asleep c → s.Due p

variable {s : Tx} {p q : Fin NPROC} {x : Pc} {c : UInt8}

/-- Who was asleep after a move was so before, unless the move put it to sleep. -/
theorem asleep_of_update {pc : Fin NPROC → Pc} (hq : update pc p x q = .asleep c)
    (hx : x ≠ .asleep c) : q ≠ p ∧ pc q = .asleep c := by
  have hqp : q ≠ p := by
    rintro rfl
    exact hx (update_self q x pc ▸ hq)
  exact ⟨hqp, update_of_ne hqp x pc ▸ hq⟩

theorem wake_lock (p : Fin NPROC) : (s.wake p).lock = s.lock := by
  unfold wake
  split <;> rfl

theorem wake_pc (p : Fin NPROC) : (s.wake p).pc p ≠ .asleep c := by
  unfold wake
  split
  · simp [goto]
  · rename_i hp
    exact hp c

namespace Inv

theorem goto (h : s.Inv) (hx : ∀ c, x ≠ .asleep c) : (s.goto p x).Inv :=
  ⟨h.ok, h.sent, fun q c hq => h.asleep q c (asleep_of_update hq (hx c)).2⟩

theorem wake (h : s.Inv) (p : Fin NPROC) : (s.wake p).Inv := by
  unfold Tx.wake
  split
  · exact h.goto fun _ => Pc.noConfusion
  · exact h

/-- The lock changes hands, and no byte is on its way. -/
theorem of_lock (h : s.Inv) {l : Option Crit} (hs : flight s.lock = []) (hl : flight l = []) :
    { s with lock := l }.Inv := by
  refine ⟨h.ok, ?_, fun q c hq => .inl ?_⟩
  · rw [hl, ← hs]
    exact h.sent
  · obtain hf | ⟨who, d, k, hw, -⟩ := h.asleep q c hq
    · exact hf
    · rw [hw] at hs
      cases hs

theorem accepted_eq (h : s.Inv) (hs : flight s.lock = []) : s.accepted = s.uart.entered := by
  rw [h.sent, hs, List.append_nil, entered]

theorem acquire (h : s.Inv) (hl : s.lock = none) : (s.acquire p).Inv := by
  have hs : flight s.lock = [] := by rw [hl]; rfl
  unfold Tx.acquire
  split
  · refine (h.of_lock hs ?_).goto fun _ => Pc.noConfusion
    split <;> rfl
  · exact (h.of_lock hs rfl).goto fun _ => Pc.noConfusion
  · exact h

theorem hold (h : s.Inv) {x : Crit} (hl : s.lock = some x) (idle : Bool) : (s.hold idle x).Inv := by
  cases x with
  | spin => exact h
  | loop p c =>
    have hs : flight s.lock = [] := by rw [hl]; rfl
    rw [Tx.hold]
    split
    · rename_i hfull
      exact ⟨h.ok, (h.of_lock (l := none) hs rfl).sent, fun _ _ _ => .inl hfull⟩
    · rename_i hfull
      refine ⟨h.ok.put, ?_, fun q d hq => ?_⟩
      · change s.accepted ++ [c] = (s.uart.put c).thr ++ [] ++ (s.uart.put c).queue
        rw [List.append_nil, ← entered, entered_put h.ok (by simpa using hfull), h.accepted_eq hs]
      · obtain hf | ⟨who, d, k, hw, -⟩ := h.asleep q d hq
        · exact absurd hf hfull
        · rw [hl] at hw
          cases hw
  | start who =>
    have hs : flight s.lock = [] := by rw [hl]; rfl
    rw [Tx.hold]
    split
    · cases who with
      | none => exact h.of_lock hs rfl
      | some p => exact (h.of_lock (l := none) hs rfl).goto (x := .idle) fun _ => Pc.noConfusion
    · rename_i hne
      refine ⟨h.ok.send, ?_, fun q _ _ => .inr ⟨who, _, 0, rfl, Nat.zero_le _⟩⟩
      change s.accepted = s.uart.send.entered
      rw [entered_send h.ok fun he => hne (.inl he), h.accepted_eq hs]
  | waking who c k =>
    rw [Tx.hold]
    split
    · rename_i hk
      have hw := h.wake ⟨k, hk⟩
      refine ⟨hw.ok, ?_, fun q d hq => ?_⟩
      · have := hw.sent
        rwa [wake_lock, hl] at this
      · obtain hf | ⟨who, e, j, hj, hle⟩ := hw.asleep q d hq
        · exact .inl hf
        · rw [wake_lock, hl] at hj
          cases hj
          refine .inr ⟨who, c, k + 1, rfl, Nat.lt_of_le_of_ne hle ?_⟩
          rintro rfl
          exact wake_pc q hq
    · rename_i hk
      refine ⟨h.ok, ?_, fun q d hq => ?_⟩
      · change s.accepted = s.uart.thr ++ [c] ++ [] ++ s.uart.queue
        rw [List.append_nil, h.sent, hl]
        rfl
      · obtain hf | ⟨who, d, j, hw, hj⟩ := h.asleep q d hq
        · exact .inl hf
        · rw [hl] at hw
          cases hw
          exact absurd (Nat.lt_of_le_of_lt hj q.isLt) hk

/-- **Every step keeps it.** -/
theorem next (h : s.Inv) (a : Act) : (s.next a).Inv := by
  cases a with
  | call p c =>
    rw [Tx.next]
    split
    · exact h.goto fun _ => Pc.noConfusion
    · exact h
  | kill p => exact h.wake p
  | panic => exact ⟨h.ok, h.sent, h.asleep⟩
  | acquire p =>
    rw [Tx.next]
    split
    · exact h.acquire (Option.isNone_iff_eq_none.1 ‹_›)
    · exact h
  | intr =>
    rw [Tx.next]
    split
    · rename_i hl
      refine h.of_lock ?_ rfl
      rw [Option.isNone_iff_eq_none.1 hl]
      rfl
    · exact h
  | hold idle =>
    rw [Tx.next]
    cases hl : s.lock with
    | none => exact h
    | some x => exact h.hold hl idle

theorem boot : boot.Inv := ⟨⟨by decide, by decide⟩, rfl, fun _ _ => Pc.noConfusion⟩

theorem reachable (h : system.Reachable s) : s.Inv :=
  h.invariant (fun s hs => by rw [hs]; exact boot) fun s a s' _ hi hs => by
    rw [hs.2]
    exact hi.next a

end Inv

/-- **The transmit ring.** Whatever the order of the calls, interrupts and
readings, the indices are in range, at most `UART_TX_BUF_SIZE - 1` bytes are
buffered, what went to `THR` begins what was accepted and the rest is on its
way or in the buffer, and with the lock free a sleeper's buffer is full. -/
theorem transmit (h : system.Reachable s) :
    s.uart.w < UART_TX_BUF_SIZE ∧ s.uart.r < UART_TX_BUF_SIZE ∧
    s.uart.queue.length ≤ UART_TX_BUF_SIZE - 1 ∧
    s.uart.thr <+: s.accepted ∧ s.accepted = s.uart.thr ++ flight s.lock ++ s.uart.queue ∧
    ∀ p c, s.pc p = .asleep c → s.lock = none → s.uart.full := by
  have hinv := Inv.reachable h
  refine ⟨hinv.ok.1, hinv.ok.2, ?_, ?_, hinv.sent, fun p c hp hl => ?_⟩
  · rw [queue, List.length_map, List.length_range]
    exact Nat.le_pred_of_lt (Nat.mod_lt _ (by decide))
  · rw [hinv.sent, List.append_assoc]
    exact List.prefix_append ..
  · obtain hf | ⟨who, d, k, hw, -⟩ := hinv.asleep p c hp
    · exact hf
    · rw [hl] at hw
      cases hw

/-- `uartputc(c)` with the device busy. -/
def putBusy (p : Fin NPROC) (c : UInt8) : List Act :=
  [.call p c, .acquire p, .hold true, .hold false]

/-- With the device busy a process fills the buffer, and another sleeps. -/
theorem transmit_full : ∃ s, system.Reachable s ∧ s.accepted.length = UART_TX_BUF_SIZE - 1 ∧
    (∃ p, s.pc p = .asleep 99) ∧ s.uart.full ∧
    s.accepted = s.uart.thr ++ flight s.lock ++ s.uart.queue := by
  let p : Fin NPROC := ⟨0, by decide⟩
  let q : Fin NPROC := ⟨1, by decide⟩
  obtain ⟨s, hs, hlen, hpc, hlock⟩ : ∃ s, system.Reachable s ∧
      s.accepted.length = UART_TX_BUF_SIZE - 1 ∧ s.pc q = .asleep 99 ∧ s.lock.isNone :=
    System.exists_of_follow rfl (((List.range 31).flatMap fun i => putBusy p (.ofNat i)) ++
      [.call q 99, .acquire q, .hold true]) (by decide +kernel)
  have hall := (transmit hs).2.2.2.2
  exact ⟨s, hs, hlen, ⟨q, hpc⟩,
    hall.2 q 99 hpc (Option.isNone_iff_eq_none.1 hlock), hall.1⟩

end Tx

end Uart

end Xv6
