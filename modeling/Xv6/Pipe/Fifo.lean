import Xv6.Common.Fifo
import Xv6.Pipe.Place
/-!
# A pipe is a FIFO

`pi->data` is a ring of `PIPESIZE` slots behind the counters `nread` and
`nwrite`, which are kept modulo `2 ^ 32` and never reset. The ring carries
what was put in and not yet taken out (`Common.Carries`), for `pipewrite`
stores only where it has found room with the lock in hand, and `piperead`
takes only where it has found something.
-/

namespace Xv6

open Common Function

variable {s s' : PipeSys} {t : ProcSys} {killed : Bool} {c p q : ℕ} {x : PipeChoice} {m : PipeMove}
  {a : PipeAct} {pp : PipePc}

/-- `pi->nwrite - pi->nread` -/
def Pipe.size (pi : Pipe) : ℕ := (pi.nwrite + (2 ^ 32 - pi.nread)) % 2 ^ 32

/-- The byte taken out and not yet copied out. -/
def PipePc.copying : PipePc → Option UInt8
  | .readCopy _ _ ch => some ch
  | _ => none

namespace PipeSys

/-- Readers pass buffers that `copyout` can store to. -/
def ValidBuffers (_ : PipeSys) : PipeAct → Prop
  | .pipe _ x => x.copyout = true
  | _ => True

instance (s : PipeSys) : (a : PipeAct) → Decidable (s.ValidBuffers a)
  | .pipe _ x => inferInstanceAs (Decidable (x.copyout = true))
  | .proc _ | .enter _ _ => .isTrue trivial

/-- **The bytes.** What is in the pipe, and what a reader has in hand. -/
structure Flows (s : PipeSys) : Prop where
  carries : Carries PIPESIZE (2 ^ 32) s.pipe.data s.pipe.nread s.pipe.nwrite s.removed s.accepted
  inHand : ∀ p ch, (s.pc p).copying = some ch → s.removed = s.delivered ++ [ch]
  handed : (∀ p, (s.pc p).copying = none) → s.removed = s.delivered

namespace Flows

theorem start (h : s.Start) : s.Flows := by
  have hno : ∀ p, (s.pc p).copying = none := fun p => by
    have := h.pc p
    cases hp : s.pc p with
    | readCopy n i ch => rw [hp] at this; cases this
    | _ => rfl
  refine ⟨?_, fun p ch hp => ?_, fun _ => by rw [h.removed, h.delivered]⟩
  · rw [h.pipe.nread, h.pipe.nwrite, h.removed, h.accepted]
    exact .empty _ _ _
  · rw [hno p] at hp
    cases hp

/-- A process that has no byte in hand moves, and none goes in or out. -/
theorem of_idle {fr : Bool} {pi : Pipe} (h : s.Flows) (hp : (s.pc p).copying = none)
    (hpp : pp.copying = none)
    (hpi : pi.data = s.pipe.data ∧ pi.nread = s.pipe.nread ∧ pi.nwrite = s.pipe.nwrite) :
    Flows ⟨t, pi, update s.pc p pp, s.accepted, s.removed, s.delivered, fr⟩ := by
  refine ⟨?_, fun q ch hq => ?_, fun hno => h.handed fun q => ?_⟩
  · rw [hpi.1, hpi.2.1, hpi.2.2]
    exact h.carries
  · by_cases hqp : q = p
    · subst hqp
      simp [hpp] at hq
    · exact h.inHand q ch (by simpa [hqp] using hq)
  · by_cases hqp : q = p
    · rwa [hqp]
    · simpa [hqp] using hno q

/-- Nobody else has a byte in hand while a process holds `pi->lock`. -/
theorem not_copying (hpiped : s.Piped) (hp : s.Holds p) (hqp : q ≠ p) :
    (s.pc q).copying = none := by
  by_contra hne
  refine hqp (hpiped.eq_of_holds ?_ hp)
  have hsits := hpiped.sits q
  cases hq : s.pc q with
  | readCopy n i ch =>
    rw [hq] at hsits
    exact ⟨by rw [hq]; rfl, by rw [hsits]; rfl⟩
  | _ => rw [hq] at hne; exact absurd rfl hne

/-- A byte goes in. -/
theorem put {fr : Bool} {ch : UInt8} (h : s.Flows) (hp : (s.pc p).copying = none)
    (hpp : pp.copying = none) (hfull : ¬ s.pipe.full) :
    Flows ⟨t, s.pipe.put ch, update s.pc p pp, s.accepted ++ [ch], s.removed, s.delivered, fr⟩ := by
  have hidle : Flows ⟨t, s.pipe, update s.pc p pp, s.accepted, s.removed, s.delivered, fr⟩ :=
    h.of_idle hp hpp ⟨rfl, rfl, rfl⟩
  exact ⟨h.carries.push (by decide) (by decide) hfull ch, hidle.inHand, hidle.handed⟩

/-- A byte goes out, into a reader's hand. -/
theorem take {fr : Bool} {n : ℤ} {i : ℕ} (h : s.Flows) (hpiped : s.Piped) (hp : s.Holds p)
    (hpc : (s.pc p).copying = none) (hempty : ¬ s.pipe.empty) :
    Flows ⟨t, s.pipe.take, update s.pc p (.readCopy n i s.pipe.next), s.accepted,
      s.removed ++ [s.pipe.next], s.delivered, fr⟩ := by
  have hno : ∀ q, (s.pc q).copying = none := fun q => by
    by_cases hqp : q = p
    · rwa [hqp]
    · exact not_copying hpiped hp hqp
  refine ⟨h.carries.pop (by decide) (by decide) hempty, fun q ch hq => ?_, fun hnone => ?_⟩
  · by_cases hqp : q = p
    · subst hqp
      simp only [update_self, PipePc.copying, Option.some.injEq] at hq
      rw [← hq, h.handed hno]
    · simp [hqp, hno q] at hq
  · have := hnone p
    simp [PipePc.copying] at this

/-- It is copied out. -/
theorem deliver {fr : Bool} {ch : UInt8} (h : s.Flows) (hpiped : s.Piped) (hp : s.Holds p)
    (hpc : (s.pc p).copying = some ch) (hpp : pp.copying = none) :
    Flows ⟨t, s.pipe, update s.pc p pp, s.accepted, s.removed, s.delivered ++ [ch], fr⟩ := by
  refine ⟨h.carries, fun q ch' hq => ?_, fun _ => h.inHand p ch hpc⟩
  by_cases hqp : q = p
  · subst hqp
    simp [hpp] at hq
  · simp [hqp, not_copying hpiped hp hqp] at hq

/-- **A step of the code of the pipe.** -/
theorem pipe {fr : Bool} (h : s.Flows) (hpiped : s.Piped) (hu : s.sys.AtUser p)
    (hx : x.copyout = true) (hpp : s.pc p = pp) (hg : PipeGoes s.pipe killed x pp m) :
    Flows ⟨t, m.pipe, update s.pc p m.pc, s.accepted ++ m.accept.toList,
      s.removed ++ m.remove.toList, s.delivered ++ m.deliver.toList, fr⟩ := by
  have hknows := hpiped.knows p
  have hholds : pp.locked = true → s.Holds p := fun hl => Piped.holds_user hu (by rw [hpp, hl])
  have hidle : pp.copying = none → m.pc.copying = none → m.accept = none → m.remove = none →
      m.deliver = none →
      (m.pipe.data = s.pipe.data ∧ m.pipe.nread = s.pipe.nread ∧ m.pipe.nwrite = s.pipe.nwrite) →
      Flows ⟨t, m.pipe, update s.pc p m.pc, s.accepted ++ m.accept.toList,
        s.removed ++ m.remove.toList, s.delivered ++ m.deliver.toList, fr⟩ := by
    intro hp hp' hacc hrem hdel hpi
    rw [hacc, hrem, hdel]
    simpa using h.of_idle (by rw [hpp, hp]) hp' hpi
  rw [hpp] at hknows
  cases hg with
  | @writeStores n i ch =>
    have hpp' : (PipePc.writeFor n (i + 1)).copying = none := rfl
    simpa using h.put (p := p) (by rw [hpp]; rfl) hpp' hknows
  | @readTakes n i hempty =>
    simpa using h.take (n := n) (i := i) hpiped (hholds rfl) (by rw [hpp]; rfl) hempty
  | @readCopies n i ch _ =>
    have hpp' : (PipePc.readFor n (i + 1)).copying = none := rfl
    simpa using h.deliver hpiped (hholds rfl) (by rw [hpp]; rfl) hpp'
  | readFaults hno =>
    rw [hx] at hno
    cases hno
  | @closeMarks w => cases w <;> exact hidle rfl rfl rfl rfl rfl ⟨rfl, rfl, rfl⟩
  | writeFails hor _ _ | readFails hor _ _ | readStarts hor | writeFull hor _ _ | writeRoom hor _
  | readEmpty hor _ _ | closeUnlocks hor =>
    obtain rfl | rfl := hor <;> exact hidle rfl rfl rfl rfl rfl ⟨rfl, rfl, rfl⟩
  | _ => exact hidle rfl rfl rfl rfl rfl ⟨rfl, rfl, rfl⟩

/-- **Every step keeps it.** -/
theorem step (h : s.Flows) (hpiped : s.Piped) (hvalid : s.ValidBuffers a) (hs : s.Step a s') :
    s'.Flows := by
  cases hs with
  | proc _ _ => exact ⟨h.carries, h.inHand, h.handed⟩
  | @enter c p op _ _ hin =>
    refine h.of_idle ?_ (by cases op <;> rfl) ⟨rfl, rfl, rfl⟩
    cases hp : s.pc p with
    | readCopy n i ch => rw [hp] at hin; cases hin
    | _ => rfl
  | pipe _ hu _ hg _ => exact h.pipe hpiped hu hvalid rfl hg

end Flows

end PipeSys

/-- **A pipe is a FIFO.** Never more than `PIPESIZE` bytes are in it, however
often the counters have wrapped, and what readers got is the beginning of
what writers put in. -/
theorem pipe_fifo (h : (pipeSystem.restrict PipeSys.ValidBuffers).Reachable s) :
    s.pipe.size ≤ PIPESIZE ∧ s.delivered <+: s.accepted := by
  have hflows : s.Flows := by
    refine h.invariant (I := PipeSys.Flows) (fun s (h0 : s.Start) => .start h0) ?_
    intro s a s' hr hI hs
    exact hI.step (PipeSys.piped_of_reachable hr.of_restrict) hs.1 (PipeSys.step_of_run hs.2).1
  refine ⟨?_, ?_⟩
  · rw [Pipe.size, hflows.carries.sub_mod (by decide)]
    have := hflows.carries.room
    omega
  · refine List.IsPrefix.trans ?_ hflows.carries.order
    by_cases hno : ∀ p, (s.pc p).copying = none
    · exact ⟨[], by rw [hflows.handed hno, List.append_nil]⟩
    · obtain ⟨p, hp⟩ := not_forall.1 hno
      obtain ⟨ch, hch⟩ := Option.ne_none_iff_exists'.1 hp
      exact ⟨[ch], (hflows.inHand p ch hch).symm⟩

/-- A process writes the bytes 7 and 8 and reads one of them. -/
theorem pipe_fifo_one : ∃ s, (pipeSystem.restrict PipeSys.ValidBuffers).Reachable s ∧
    s.accepted = [7, 8] ∧ s.delivered = [7] ∧ s.pipe.size ≤ PIPESIZE ∧
    s.delivered <+: s.accepted := by
  obtain ⟨s, hs, ha, hd⟩ : ∃ s, (pipeSystem.restrict PipeSys.ValidBuffers).Reachable s ∧
      s.accepted = [7, 8] ∧ s.delivered = [7] :=
    System.exists_of_follow_restrict PipeSys.boot_start ((starts 0 0).map .proc ++ [.enter 0 (.pipewrite 2)] ++ PipeSys.pipes 0 3 ++
      [.pipe 0 { copyin := some 7 }] ++ PipeSys.pipes 0 3 ++ [.pipe 0 { copyin := some 8 }] ++
      PipeSys.pipes 0 3 ++ (steps 0 129).map .proc ++ PipeSys.pipes 0 1 ++
      [.enter 0 (.piperead 1)] ++ PipeSys.pipes 0 4) (by decide +kernel)
  exact ⟨s, hs, ha, hd, pipe_fifo hs⟩

end Xv6
