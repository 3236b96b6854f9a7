import Xv6.Pipe.Place
/-!
# Who sleeps on a pipe

A reader sleeps for an empty pipe with its write end open, a writer for a
full one with its read end open. Whoever ends that, by a byte put in or
taken out or by closing the end, does it with `pi->lock` and calls `wakeup`
before leaving it (`PipePc.promises`); and a sleeper has left the lock before
that, so that `wakeup` finds it.

One way out of `pipewrite` does not keep the promise: where the pipe is full
and the process has been killed or the read end is closed, it leaves the lock
and returns -1, with whatever it has put in since it took the lock, and wakes
no reader. Where no reader sleeps then, all is well.
-/

namespace Xv6

open Common Function

variable {s s' : PipeSys} {t : ProcSys} {c p q l : ℕ} {x : PipeChoice}
  {m : PipeMove} {a : PipeAct} {pp : PipePc} {ch : Chan}

/-- What a process with `pi->lock` will wake before it leaves the lock. -/
def PipePc.promises : PipePc → Option Chan
  | .writeFor _ _ | .writeFull _ _ | .writeWake _ _ | .writeCopy _ _ | .writeStore _ _ _
  | .writeEnd _ => some .nread
  | .readFor _ _ | .readCopy _ _ _ | .readEnd _ => some .nwrite
  | .closeWake w => some (.closed w)
  | _ => none

/-- Process `p` has left `l` in `sleep(ch, l)`, and nobody has woken it. -/
def ProcSys.Sleeper (t : ProcSys) (p : ℕ) (ch : Chan) (l : ℕ) : Prop :=
  t.pc p = .sleepMark ch l ∨
    t.pc p = .asleep l ∧ (t.proc p).state = .sleeping ∧ (t.proc p).chan = some ch

instance (t : ProcSys) (p : ℕ) (ch : Chan) (l : ℕ) : Decidable (t.Sleeper p ch l) :=
  inferInstanceAs (Decidable (_ ∨ _))

namespace ProcSys

theorem Sleeper.pending (h : t.Sleeper p ch l) : t.Pending p ch l := by
  rcases h with h | h
  · exact .inl ⟨ch, h⟩
  · exact .inr h

theorem Sleeper.released (h : t.Sleeper p ch l) : (t.pc p).released = some l := by
  rcases h with h | h
  · rw [h]
    rfl
  · rw [h.1]
    rfl

/-- **A sleeper after a step was one before, or has just left the lock.** -/
theorem Sleeper.of_step {t' : ProcSys} {a : ProcAct} (hctl : t.Control) (hs : t.Step a t')
    (h : t'.Sleeper q ch l) : t.Sleeper q ch l ∨ t.pc q = .sleepAt ch l := by
  have hrel := h.released
  cases hs.turn hctl q with
  | rests hq hr =>
    left
    rcases h with h | ⟨hp, hsl, hch⟩
    · exact .inl (by rw [← hr.pc, h])
    · obtain ⟨hsl', hchan, -⟩ := hs.undisturbed hq hsl
      exact .inr ⟨by rw [← hr.pc, hp], hsl', by rw [← hchan, hch]⟩
  | stays hproc _ _ hr =>
    left
    unfold Sleeper at h ⊢
    rwa [hr.pc, hproc] at h
  | got _ _ _ hw hpc _ =>
    rw [hpc, (Pc.got_released hw).1] at hrel
    cases hrel
  | born _ _ hpc =>
    rw [hpc] at hrel
    cases hrel
  | moves hc hm hpc =>
    rw [hpc] at hrel
    unfold Sleeper at h
    rw [hpc] at h
    cases hm.acts with
    | exec _ hpcq _ _ hg =>
      cases hg with
      | sleepDrops =>
        rcases h with h | h
        · cases h
          exact .inr hpcq
        · cases h.1
      | sleepMarks =>
        rcases h with h | ⟨hp, -, hch⟩
        · cases h
        · cases hp
          simp only [ProcSys.commit, Edit.apply, update_self, Option.some.injEq] at hch
          exact .inl (.inl (by rw [hpcq, hch]))
      | _ => cases hrel
    | awakes _ _ => rcases h with h | h <;> simp at h
    | rescans _ _ | revives _ _ => cases hrel
    | yield _ =>
      rcases h with h | ⟨-, hsl, -⟩
      · exact .inl (.inl h)
      · simp [ProcSys.commit, Edit.apply] at hsl
    | _ => exact .inl h

/-- A sleeper is a process. -/
theorem Sleeper.lt_nproc (hctl : t.Control) (ht : t.Tree) (h : t.Sleeper q ch l) : q < NPROC := by
  by_contra hq
  have hun := ht.bound q (by omega)
  rcases h with h | ⟨-, hsl, -⟩
  · obtain ⟨hsw, c, hc⟩ := hctl.exec_of_held (q := q) (by simp [h, Pc.held])
    rw [hctl.running c q hc (by simp [hsw]) (by simp [hsw])] at hun
    cases hun
  · rw [hsl] at hun
    cases hun

/-- **A waker after a step**: still at it, unless it is the one that made the
step and has ended. -/
theorem waking_of_step {t' : ProcSys} {a : ProcAct} {n : ℕ} (hctl : t.Control) (hs : t.Step a t')
    (hlive : (t.proc p).state ≠ .unused) (hw : (t.pc p).waking = some (ch, n)) :
    (∃ n', (t'.pc p).waking = some (ch, n')) ∨
      t.actor a = some (.proc p) ∧ (t'.pc p).waking = none := by
  cases hs.turn hctl p with
  | rests _ hr | stays _ _ _ hr => exact .inl ⟨n, by rw [hr.pc, hw]⟩
  | got _ _ _ hwant hpc _ => exact .inl ⟨n, by rw [hpc, got_waking hwant, hw]⟩
  | born hm he _ =>
    have hf := hm.edit_from
    rw [he] at hf
    exact absurd hf.2.2.2.2 hlive
  | @moves c x m hc hm hpc =>
    rw [hpc]
    cases hend : m.pc.waking with
    | none => exact .inr ⟨actor_run hc, rfl⟩
    | some v =>
      left
      cases hm.acts with
      | exec _ hpcp _ _ hg =>
        rw [hpcp] at hw
        cases hg with
        | woke => cases hw; exact ⟨_, hend.symm⟩
        | _ => first | cases hw | cases hend
      | awakes _ _ | rescans _ _ | revives _ _ => cases hend
      | _ => exact ⟨n, by rw [← hend, hw]⟩

end ProcSys

namespace PipeSys

/-- Process `p` is going to call `wakeup(ch)`, or is in it. -/
def Owes (s : PipeSys) (p : ℕ) (ch : Chan) : Prop :=
  (s.pc p).inside = true ∧
    ((s.pc p).promises = some ch ∨ ∃ n, (s.sys.pc p).waking = some (ch, n))

/-- **Nobody sleeps in vain**: what a sleeper waits for has not come, or
whoever holds the lock owes it a wakeup. -/
def Alert (s : PipeSys) : Prop :=
  ∀ q ch, s.sys.Sleeper q ch piLock →
    s.pipe.Waits ch ∨ ∃ p, s.sys.xlock piLock = some (.proc p) ∧ s.Owes p ch

/-- Where a process is about to leave `pipewrite` early, no reader sleeps. -/
def earlyAt (s : PipeSys) (p : ℕ) : PipePc → Bool
  | .writeFull _ _ =>
    decide (s.pipe.full ∧ (s.pipe.readopen = false ∨ (s.sys.proc p).killed = true) →
      ∀ q, q < NPROC → ¬ s.sys.Sleeper q .nread piLock)
  | _ => true

/-- **The condition.** No reader sleeps when `pipewrite`, on its way from
putting bytes in, finds the pipe full and gives up. -/
def EarlyOk (s : PipeSys) : PipeAct → Prop
  | .pipe c _ => ∀ p, s.sys.sched c = .out p → s.earlyAt p (s.pc p) = true
  | _ => True

instance (s : PipeSys) : (a : PipeAct) → Decidable (s.EarlyOk a)
  | .pipe c _ =>
    inferInstanceAs (Decidable (∀ p, s.sys.sched c = .out p → s.earlyAt p (s.pc p) = true))
  | .proc _ | .enter _ _ => .isTrue trivial

/-! ## Around the pipe -/

theorem released_of_waking {pc : Pc} {n : ℕ} (h : pc.waking = some (ch, n)) :
    pc.released = none := by
  cases pc <;> first | rfl | cases h

/-- Whoever owes a wakeup holds the lock. -/
theorem Owes.holds (h : s.Piped) (ho : s.Owes p ch) : s.Holds p := by
  have hsits := h.sits p
  obtain ⟨hin, hpr | ⟨n, hw⟩⟩ := ho
  · cases hpp : s.pc p with
    | writeFor _ _ | writeFull _ _ | writeWake _ _ | writeCopy _ _ | writeStore _ _ _ | writeEnd _
    | readFor _ _ | readCopy _ _ _ | readEnd _ | closeWake _ =>
      rw [hpp] at hsits
      exact ⟨by rw [hpp]; rfl, by rw [show s.sys.pc p = .user from hsits]; rfl⟩
    | _ => rw [hpp] at hpr; cases hpr
  · refine ⟨?_, released_of_waking hw⟩
    cases hpp : s.pc p with
    | done _ => rw [hpp] at hin; cases hin
    | writeLock _ | readLock _ | closeLock _ | closeFree =>
      rw [hpp] at hsits
      rw [show s.sys.pc p = .user from hsits] at hw
      cases hw
    | _ => rfl

/-- **A step outside the code of the pipe**: a debt is paid by waking. -/
theorem Owes.proc {a : ProcAct} (h : s.Piped) (hr : procSystem.Reachable s.sys)
    (hs : s.sys.Step a t) (hx : s.sys.xlock piLock = some (.proc p)) (ho : s.Owes p ch)
    (hq : s.sys.Sleeper q ch piLock) : Owes { s with sys := t } p ch := by
  obtain ⟨hin, hpr | ⟨n, hw⟩⟩ := ho
  · exact ⟨hin, .inl hpr⟩
  refine ⟨hin, .inr ?_⟩
  have hctl := control_of_reachable hr
  refine (ProcSys.waking_of_step hctl hs (h.live p hin) hw).resolve_right fun hend => ?_
  obtain ⟨ha, hend⟩ := hend
  -- `wakeup` has ended, and the sleeper is still asleep
  have hn := (hs.woken (o := .proc p) ha hw hend).all
  have hlt := hq.lt_nproc hctl (tree_of_reachable hr)
  have hdone := (waking_of_reachable hr).done (.proc p) ch n q piLock hw (by omega) hq.pending
  have horder := (ordered_of_reachable hr).order q piLock (.proc p) hq.released hx
  omega

theorem Alert.proc {a : ProcAct} (hal : s.Alert) (h : s.Piped) (hr : procSystem.Reachable s.sys)
    (hs : s.sys.Step a t) (hout : s.Outside a) : Alert { s with sys := t } := by
  intro q ch hq
  rcases hq.of_step (control_of_reachable hr) hs with hq | hpc
  · refine (hal q ch hq).imp_right fun hex => ?_
    obtain ⟨p, hx, ho⟩ := hex
    have ho' := ho.proc h hr hs hx hq
    have hp' := h.proc hr hs hout
    exact ⟨p, hp'.holds p (ho'.holds hp'), ho'⟩
  · have := h.asks q
    rw [hpc] at this
    exact .inl (this rfl)

theorem Alert.enter {op : PipeOp} (hal : s.Alert) (hin : (s.pc p).inside = false) :
    Alert { s with pc := update s.pc p op.pc } := by
  intro q ch hq
  refine (hal q ch hq).imp_right fun hex => ?_
  obtain ⟨r, hx, ho⟩ := hex
  have hrp : r ≠ p := by
    rintro rfl
    rw [ho.1] at hin
    cases hin
  exact ⟨r, hx, by simpa [Owes, hrp] using ho⟩

/-! ## In the code of the pipe -/

section Moves

variable {pi' : Pipe} {acc rem del : List UInt8} {fr : Bool}

section

variable (hal : s.Alert) (h : s.Piped) (hu : s.sys.AtUser p) (hl : (s.pc p).locked = true)
include hal h hu hl

/-- What a process in the code of the pipe, outside `proc.c`, owes. -/
theorem Alert.owed (hq : s.sys.Sleeper q ch piLock) :
    s.pipe.Waits ch ∨ (s.pc p).promises = some ch := by
  refine (hal q ch hq).imp_right fun hex => ?_
  obtain ⟨r, hx, -, ho⟩ := hex
  rw [h.holds p (Piped.holds_user hu hl)] at hx
  cases hx
  refine ho.resolve_right fun hw => ?_
  obtain ⟨n, hw⟩ := hw
  rw [hu.2] at hw
  cases hw

/-- **The rule for a step with the lock**: each sleeper still waits, or the
debt to it is kept. -/
theorem Alert.of_move (hproc : t.proc = s.sys.proc)
    (hpc : ∀ q, q ≠ p → t.pc q = s.sys.pc q) (hrel : (t.pc p).released = none)
    (hstep : ∀ q ch, s.sys.Sleeper q ch piLock →
      s.pipe.Waits ch ∨ (s.pc p).promises = some ch →
      pi'.Waits ch ∨ t.xlock piLock = some (.proc p) ∧ pp.inside = true ∧
        (pp.promises = some ch ∨ ∃ n, (t.pc p).waking = some (ch, n))) :
    Alert ⟨t, pi', update s.pc p pp, acc, rem, del, fr⟩ := by
  intro q ch hq
  have hqp : q ≠ p := by
    rintro rfl
    have := hq.released
    rw [hrel] at this
    cases this
  have hq : s.sys.Sleeper q ch piLock := by
    have hq : t.Sleeper q ch piLock := hq
    unfold ProcSys.Sleeper at hq ⊢
    rwa [hpc q hqp, hproc] at hq
  refine (hstep q ch hq (hal.owed h hu hl hq)).imp_right fun ho => ⟨p, ho.1, ?_⟩
  simpa [Owes] using ho.2

/-- A step without a call, that leaves the pipe alone. -/
theorem Alert.quiet (hpr : ∀ q ch, s.sys.Sleeper q ch piLock → (s.pc p).promises = some ch →
      pp.inside = true ∧ pp.promises = some ch) :
    Alert ⟨s.sys, s.pipe, update s.pc p pp, acc, rem, del, fr⟩ := by
  refine hal.of_move h hu hl rfl (fun _ _ => rfl) (by rw [hu.2]; rfl) fun q ch hq ho => ?_
  refine ho.imp_right fun hp => ?_
  obtain ⟨hin, hpr⟩ := hpr q ch hq hp
  exact ⟨h.holds p (Piped.holds_user hu hl), hin, .inl hpr⟩

/-- A step that changes the pipe, on the way to a wakeup. -/
theorem Alert.change (hin : pp.inside = true)
    (hkeep : ∀ ch, (s.pc p).promises = some ch → pp.promises = some ch)
    (hpi : ∀ ch, s.pipe.Waits ch → pp.promises = some ch ∨ pi'.Waits ch) :
    Alert ⟨s.sys, pi', update s.pc p pp, acc, rem, del, fr⟩ := by
  refine hal.of_move h hu hl rfl (fun _ _ => rfl) (by rw [hu.2]; rfl) fun q ch hq ho => ?_
  have hx := h.holds p (Piped.holds_user hu hl)
  rcases ho with hw | hp
  · rcases hpi ch hw with hp | hw
    · exact .inr ⟨hx, hin, .inl hp⟩
    · exact .inl hw
  · exact .inr ⟨hx, hin, .inl (hkeep ch hp)⟩

/-- A call with the lock, by a process that owes no more than the call
pays. -/
theorem Alert.calls {call : Call} (hcall : s.sys.Called c p (some call) t)
    (he : (ProcSys.callMove p call).edit = .nothing)
    (hrel : (ProcSys.callMove p call).pc.released = none)
    (hpay : ∀ ch, (s.pc p).promises = some ch → pp.inside = true ∧ call = .wakeup ch) :
    Alert ⟨t, s.pipe, update s.pc p pp, acc, rem, del, fr⟩ := by
  cases hcall with
  | some _ =>
    obtain ⟨hproc, hpc, hself⟩ := Piped.commit_frame (t := s.sys) (c := c) he
    refine hal.of_move h hu hl hproc hpc (by rwa [hself]) fun q ch hq ho => ?_
    refine ho.imp_right fun hp => ?_
    obtain ⟨hin, rfl⟩ := hpay ch hp
    refine ⟨?_, hin, .inr ⟨0, by rw [hself]; rfl⟩⟩
    rw [← h.holds p (Piped.holds_user hu hl)]
    simp [ProcSys.commit, ProcSys.callMove, Ext.apply]

end

/-- `acquire(&pi->lock)`: nobody held it, so that nobody sleeps in vain. -/
theorem Alert.locks (hal : s.Alert) (hcall : s.sys.Called c p (some (.take piLock)) t) :
    Alert ⟨t, s.pipe, update s.pc p pp, acc, rem, del, fr⟩ := by
  cases hcall with
  | some hfree =>
    have hfree : s.sys.xlock piLock = none := hfree
    obtain ⟨hproc, hpc, hself⟩ := Piped.commit_frame (t := s.sys) (c := c) (p := p)
      (m := ProcSys.callMove p (.take piLock)) rfl
    intro q ch hq
    have hq : (s.sys.commit c p (ProcSys.callMove p (.take piLock))).Sleeper q ch piLock := hq
    have hqp : q ≠ p := by
      rintro rfl
      have := hq.released
      rw [hself] at this
      cases this
    unfold ProcSys.Sleeper at hq
    rw [hpc q hqp, hproc] at hq
    refine .inl ((hal q ch hq).resolve_right fun hex => ?_)
    obtain ⟨r, hx, -⟩ := hex
    rw [hfree] at hx
    cases hx

/-- **A step of the code of the pipe.** -/
theorem Alert.pipe (hal : s.Alert) (h : s.Piped) (hu : s.sys.AtUser p)
    (hin : (s.pc p).inside = true) (hok : s.earlyAt p (s.pc p) = true) (hpp : s.pc p = pp)
    (hlt : ∀ q ch, s.sys.Sleeper q ch piLock → q < NPROC)
    (hg : PipeGoes s.pipe (s.sys.proc p).killed x pp m) (hcall : s.sys.Called c p m.call t) :
    Alert ⟨t, m.pipe, update s.pc p m.pc, acc, rem, del, fr⟩ := by
  have hknows := h.knows p
  have hquiet : m.call = none → m.pipe = s.pipe → pp.locked = true →
      (∀ q ch, s.sys.Sleeper q ch piLock → pp.promises = some ch →
        m.pc.inside = true ∧ m.pc.promises = some ch) →
      Alert ⟨t, m.pipe, update s.pc p m.pc, acc, rem, del, fr⟩ := by
    intro hno hpi hl hpr
    rw [hno] at hcall
    rw [hpi]
    cases hcall with
    | none => exact hal.quiet h hu (by rw [hpp, hl]) (by rwa [hpp])
  have hchange : m.call = none → pp.locked = true → m.pc.inside = true →
      (∀ ch, pp.promises = some ch → m.pc.promises = some ch) →
      (∀ ch, s.pipe.Waits ch → m.pc.promises = some ch ∨ m.pipe.Waits ch) →
      Alert ⟨t, m.pipe, update s.pc p m.pc, acc, rem, del, fr⟩ := by
    intro hno hl hin hkeep hpi
    rw [hno] at hcall
    cases hcall with
    | none => exact hal.change h hu (by rw [hpp, hl]) hin (by rwa [hpp]) hpi
  rw [hpp] at hknows hin hok
  cases hg with
  | idle => cases hin
  | writeLocks | readLocks | closeLocks => exact hal.locks hcall
  | writeNext | writeDone | writeFaults _ | writeCopies _ | readDone | readCopies _
  | readFaults _ => exact hquiet rfl rfl rfl fun q ch _ hp => ⟨rfl, hp⟩
  | writeFails hor hfull hfail =>
    obtain rfl | rfl := hor
    · refine hquiet rfl rfl rfl fun q ch hq hp => ?_
      cases hp
      have hno := of_decide_eq_true hok ⟨hfull, hfail⟩ q (hlt q _ hq)
      exact absurd hq hno
    · exact hquiet rfl rfl rfl fun q ch _ hp => by cases hp
  | writeFull hor _ _ | writeRoom hor _ =>
    obtain rfl | rfl := hor
    · exact hquiet rfl rfl rfl fun q ch _ hp => ⟨rfl, hp⟩
    · exact hquiet rfl rfl rfl fun q ch _ hp => by cases hp
  | readFails hor _ _ | readEmpty hor _ _ | readStarts hor =>
    obtain rfl | rfl := hor <;> exact hquiet rfl rfl rfl fun q ch _ hp => by cases hp
  | writeStores =>
    refine hchange rfl rfl rfl (fun ch hp => hp) fun ch hw => ?_
    by_cases hch : ch = .nread
    · exact .inl (by rw [hch]; rfl)
    · exact .inr ⟨fun e => absurd e hch, fun e => absurd (hw.2 e).1 hknows⟩
  | readTakes hempty =>
    refine hchange rfl rfl rfl (fun ch hp => hp) fun ch hw => ?_
    by_cases hch : ch = .nwrite
    · exact .inl (by rw [hch]; rfl)
    · exact .inr ⟨fun e => absurd (hw.1 e).1 hempty, fun e => absurd e hch⟩
  | @closeMarks w =>
    refine hchange rfl rfl rfl (fun ch hp => by cases hp) fun ch hw => ?_
    by_cases hch : ch = .closed w
    · exact .inl (by rw [hch]; rfl)
    · cases w with
      | true => exact .inr ⟨fun e => absurd e hch, hw.2⟩
      | false => exact .inr ⟨hw.1, fun e => absurd e hch⟩
  | writeWakes | writeEnds | readEnds | closeWakes =>
    refine hal.calls h hu (by rw [hpp]; rfl) hcall rfl rfl fun ch hp => ⟨rfl, ?_⟩
    rw [hpp] at hp
    cases hp
    rfl
  | writeSleeps | readSleeps | unlocks | closeUnlocks _ =>
    refine hal.calls h hu (by rw [hpp]; rfl) hcall rfl rfl fun ch hp => ?_
    rw [hpp] at hp
    cases hp
  | closeFrees =>
    cases hcall with
    | none =>
      intro q ch hq
      refine (hal q ch hq).imp_right fun hex => ?_
      obtain ⟨r, hx, ho⟩ := hex
      have hrp : r ≠ p := by
        rintro rfl
        have := (ho.holds h).1
        rw [hpp] at this
        cases this
      exact ⟨r, hx, by simpa [Owes, hrp] using ho⟩

end Moves

/-- **Every step that meets the condition keeps it.** -/
theorem Alert.step (hal : s.Alert) (h : s.Piped) (hr : procSystem.Reachable s.sys)
    (hok : s.EarlyOk a) (hs : s.Step a s') : s'.Alert := by
  cases hs with
  | proc hs hout => exact hal.proc h hr hs hout
  | enter _ _ hin => exact hal.enter hin
  | pipe hc hu hin hg hcall =>
    exact hal.pipe h hu hin (hok _ hc) rfl
      (fun q ch hq => hq.lt_nproc (control_of_reachable hr) (tree_of_reachable hr)) hg hcall

theorem Alert.start (h : s.Start) : s.Alert := by
  rintro q ch (hq | hq)
  · exact absurd hq (h.awake q ch).2.2.1
  · exact absurd hq.1 (h.awake q ch).2.2.2.1

end PipeSys

/-- **Who sleeps on a pipe waits for what has not come**, in every state of a
run that meets the condition in which `pi->lock` is free: a reader for an
empty pipe with its write end open, a writer for a full one with its read
end open. -/
theorem pipe_sleepers (h : (pipeSystem.restrict PipeSys.EarlyOk).Reachable s)
    (hfree : s.sys.xlock piLock = none) (hin : (s.pc p).inside = true)
    (hsl : (s.sys.proc p).state = .sleeping) :
    ((s.sys.proc p).chan = some .nread → s.pipe.empty ∧ s.pipe.writeopen = true) ∧
      ((s.sys.proc p).chan = some .nwrite → s.pipe.full ∧ s.pipe.readopen = true) := by
  have hr := PipeSys.sys_of_reachable h.of_restrict
  have hpiped := PipeSys.piped_of_reachable h.of_restrict
  have hal : s.Alert := by
    refine h.invariant (I := PipeSys.Alert) (fun s (h0 : s.Start) => .start h0) ?_
    intro s a s' hr hI hs
    exact hI.step (PipeSys.piped_of_reachable hr.of_restrict)
      (PipeSys.sys_of_reachable hr.of_restrict) hs.1 (PipeSys.step_of_run hs.2).1
  -- it sleeps in the call of `sleep` of the pipe
  have hasleep : s.sys.pc p = .asleep piLock := by
    have hsits := hpiped.sits p
    obtain ⟨l, hl⟩ | ⟨addr, hl⟩ := dozes_of_reachable hr p hsl <;> rw [hl] at hsits ⊢ <;>
      cases hpp : s.pc p <;> rw [hpp] at hsits hin <;>
      simp_all [PipePc.Sits, Pc.InSleep, Pc.waking, PipePc.inside]
  have hwaits : ∀ ch, (s.sys.proc p).chan = some ch → s.pipe.Waits ch := fun ch hch => by
    refine (hal p ch (.inr ⟨hasleep, hsl, hch⟩)).resolve_right fun hex => ?_
    obtain ⟨r, hx, -⟩ := hex
    rw [hfree] at hx
    cases hx
  exact ⟨fun hch => (hwaits _ hch).1 rfl, fun hch => (hwaits _ hch).2 rfl⟩

/-- A reader sleeps on a fresh pipe. -/
theorem pipe_sleepers_reader : ∃ s, (pipeSystem.restrict PipeSys.EarlyOk).Reachable s ∧
    s.sys.xlock piLock = none ∧ s.pc 0 = .readSlept 1 ∧ (s.sys.proc 0).state = .sleeping ∧
    (s.sys.proc 0).chan = some .nread ∧ s.pipe.empty ∧ s.pipe.writeopen = true := by
  obtain ⟨s, hs, hx, hpc, hsl, hch⟩ : ∃ s, (pipeSystem.restrict PipeSys.EarlyOk).Reachable s ∧
      s.sys.xlock piLock = none ∧ s.pc 0 = .readSlept 1 ∧ (s.sys.proc 0).state = .sleeping ∧
      (s.sys.proc 0).chan = some .nread :=
    System.exists_of_follow_restrict PipeSys.boot_start ((starts 0 0).map .proc ++
      [.enter 0 (.piperead 1)] ++ PipeSys.pipes 0 3 ++ (steps 0 5 ++ schedules 0 1).map .proc)
      (by decide +kernel)
  exact ⟨s, hs, hx, hpc, hsl, hch, (pipe_sleepers hs hx (by rw [hpc]; rfl) hsl).1 hch⟩

/-- **A reader is left asleep.** Process 1 sleeps in `piperead` for an empty
pipe. Process 0, which has been killed, writes 513 bytes: 512 go in, and then
it returns -1 and wakes nobody. -/
theorem reader_left_asleep : ∃ s, pipeSystem.Reachable s ∧ s.sys.xlock piLock = none ∧
    s.pc 0 = .done (-1) ∧ s.pc 1 = .readSlept 1 ∧ (s.sys.proc 1).state = .sleeping ∧
    (s.sys.proc 1).chan = some .nread ∧ s.pipe.full ∧ ¬ s.pipe.empty :=
  -- the writer takes four steps for each byte
  System.exists_of_follow PipeSys.boot_start
    ((starts 0 0 ++ calls 0 .fork ++ steps 0 4 ++ starts 1 1).map .proc ++
      [.enter 1 (.piperead 1)] ++ PipeSys.pipes 1 3 ++
      (steps 1 5 ++ schedules 1 1 ++ calls 0 (.kill 1) ++ steps 0 2).map .proc ++
      [.enter 0 (.pipewrite 513)] ++ PipeSys.pipes 0 (4 * 512 + 4))
    (by decide +kernel)

end Xv6
