import Xv6.Proc.Tree
/-!
# Exit and wait

A process is told from later ones in its slot by when it was born. It exits
once, and once at most a `wait` of its parent returns its pid and its
status; the slot is free from then on. A `wait` returns -1 to a parent that
has not been killed, and whose user address is good, only when no child is
left.
-/

namespace Xv6

open List

variable {s s' : ProcSys} {c p q i j : ℕ} {x : Choice} {m : Move} {a : ProcAct}

namespace ProcSys

/-- Who exits goes on record. -/
theorem Change.exits (hch : s.Change a s') (hctl : s.Control) : s'.exits = s.exits ∨
    ∃ p st, (s.proc p).state ≠ .unused ∧ (s.proc p).state ≠ .zombie ∧
      (s'.proc p).state = .zombie ∧ s'.exits = ⟨s.birth p, (s.proc p).pid, st⟩ :: s.exits := by
  cases hch with
  | quiet hq => exact .inl hq.exits
  | fork _ _ he | reparent _ _ he | reap _ _ he => exact .inl (by simp [ProcSys.commit, he])
  | @exit c p op st x m hc hm he =>
    obtain ⟨hl, hz⟩ := hctl.live_of_exec hc (hm.edit_at he).1
    exact .inr ⟨p, st, hl, hz, by simp [ProcSys.commit, he, Edit.apply],
      by simp [ProcSys.commit, he]⟩

/-- So does who is reaped. -/
theorem Change.reaps (hch : s.Change a s') : s'.reaps = s.reaps ∨
    ∃ i addr, (s.proc i).state = .zombie ∧ (s'.proc i).state = .unused ∧
      s'.reaps = ⟨s.birth i, (s.proc i).pid, if addr = 0 then none else some (s.proc i).xstate⟩ ::
        s.reaps := by
  cases hch with
  | quiet hq => exact .inl hq.reaps
  | fork _ _ he | reparent _ _ he | exit _ _ he => exact .inl (by simp [ProcSys.commit, he])
  | @reap c p addr i x m hc hm he =>
    exact .inr ⟨i, addr, (hm.edit_at he).2.2.2.1,
      by simp [ProcSys.commit, he, Edit.apply, Proc.freeproc], by simp [ProcSys.commit, he]⟩

/-- **The exits and the reaps so far**, against the processes there are. -/
structure History (s : ProcSys) : Prop where
  inj : ∀ i j, (s.proc i).state ≠ .unused → (s.proc j).state ≠ .unused → s.birth i = s.birth j →
    i = j
  past : ∀ e ∈ s.exits, e.birth < s.clock
  alive : ∀ i, (s.proc i).state ≠ .unused → (s.proc i).state ≠ .zombie →
    ∀ e ∈ s.exits, e.birth ≠ s.birth i
  zombie : ∀ i, (s.proc i).state = .zombie →
    ⟨s.birth i, (s.proc i).pid, (s.proc i).xstate⟩ ∈ s.exits ∧ ∀ r ∈ s.reaps, r.birth ≠ s.birth i
  exits : (s.exits.map Exit.birth).Nodup
  reaps : (s.reaps.map Reap.birth).Nodup
  matched : ∀ r ∈ s.reaps, ∃ e ∈ s.exits, r.birth = e.birth ∧ r.pid = e.pid ∧
    ∀ st, r.status = some st → st = e.status

namespace History

theorem boot : History .boot := by
  have hlive : ∀ i, (ProcSys.boot.proc i).state ≠ .unused → i = initproc := fun i hi => by
    by_contra h0
    simp [ProcSys.boot, h0, Proc.zero] at hi
  refine ⟨fun i j hi hj _ => (hlive i hi).trans (hlive j hj).symm, by simp [ProcSys.boot],
    by simp [ProcSys.boot], fun i hi => ?_, by simp [ProcSys.boot], by simp [ProcSys.boot],
    by simp [ProcSys.boot]⟩
  have h0 := hlive i (by simp [hi])
  rw [h0] at hi
  simp [ProcSys.boot] at hi

/-- **Every step keeps the history.** -/
theorem step (h : s.History) (ht : s.Tree) (hctl : s.Control) (hs : s.Step a s') : s'.History := by
  have hch := hs.change hctl
  have hnew := fun j => ht.lives_or_born hctl (hch.fate j)
  have hexits : ∀ e ∈ s'.exits, e ∈ s.exits ∨ ∃ p, (s.proc p).state ≠ .unused ∧
      (s'.proc p).state = .zombie ∧ e.birth = s.birth p := by
    rcases hch.exits hctl with heq | ⟨p, st, hl, -, hz, heq⟩ <;> rw [heq]
    · exact fun e he => .inl he
    · intro e he
      rcases mem_cons.1 he with rfl | he
      · exact .inr ⟨p, hl, hz, rfl⟩
      · exact .inl he
  have hmono : ∀ e ∈ s.exits, e ∈ s'.exits := by
    rcases hch.exits hctl with heq | ⟨p, st, -, -, -, heq⟩ <;> rw [heq]
    · exact fun e he => he
    · exact fun e he => mem_cons_of_mem _ he
  have hpast : ∀ e ∈ s'.exits, e.birth < s.clock := fun e he => by
    rcases hexits e he with he | ⟨p, hl, -, hb⟩
    · exact h.past e he
    · rw [hb]
      exact ht.born p hl
  refine ⟨fun i j hi hj hb => ?_, fun e he => ?_, fun i hi hz e he => ?_, fun i hi => ?_, ?_, ?_, ?_⟩
  · rcases hnew i hi with hi' | hi' <;> rcases hnew j hj with hj' | hj'
    · exact h.inj i j hi'.live hj'.live (by rw [← hi'.birth, hb, hj'.birth])
    · have := ht.born i hi'.live
      rw [hi'.birth, hj'.birth] at hb
      omega
    · have := ht.born j hj'.live
      rw [hi'.birth, hj'.birth] at hb
      omega
    · by_contra hne
      exact hi (by rw [(hj'.other i hne).1, hi'.unused])
  · have := hpast e he
    rw [hs.clock]
    omega
  · rcases hnew i hi with hi' | hi'
    · rw [hi'.birth]
      rcases hexits e he with he | ⟨p, hl, hpz, hb⟩
      · exact h.alive i hi'.live (fun hz' => hz (hi'.zombie hz')) e he
      · rw [hb]
        rintro hb
        rw [h.inj p i hl hi'.live hb] at hpz
        exact hz hpz
    · have := hpast e he
      rw [hi'.birth]
      omega
  · obtain ⟨hpid, hb, hor⟩ := hch.zombie hi
    rw [hpid, hb]
    rcases hor with ⟨hz, hx⟩ | ⟨c, x, m, op, st, rfl, hc, hm, he, hx, heq⟩
    · rw [hx]
      refine ⟨hmono _ (h.zombie i hz).1, fun r hr => ?_⟩
      rcases hch.reaps with heq | ⟨k, addr, hkz, hk, heq⟩ <;> rw [heq] at hr
      · exact (h.zombie i hz).2 r hr
      · rcases mem_cons.1 hr with rfl | hr
        · intro hb
          rw [h.inj k i (by simp [hkz]) (by simp [hz]) hb, hi] at hk
          cases hk
        · exact (h.zombie i hz).2 r hr
    · rw [hx]
      subst heq
      obtain ⟨hl, hz⟩ := hctl.live_of_exec hc (hm.edit_at he).1
      refine ⟨by simp [ProcSys.commit, he], fun r hr hb => ?_⟩
      obtain ⟨e, hee, hre, -⟩ := h.matched r (by simpa [ProcSys.commit, he] using hr)
      exact h.alive i hl hz e hee (by rw [← hre, hb])
  · rcases hch.exits hctl with heq | ⟨p, st, hl, hz, -, heq⟩ <;> rw [heq]
    · exact h.exits
    · rw [map_cons, nodup_cons]
      refine ⟨fun hmem => ?_, h.exits⟩
      obtain ⟨e, he, hb⟩ := mem_map.1 hmem
      exact h.alive p hl hz e he hb
  · rcases hch.reaps with heq | ⟨i, addr, hz, -, heq⟩ <;> rw [heq]
    · exact h.reaps
    · rw [map_cons, nodup_cons]
      refine ⟨fun hmem => ?_, h.reaps⟩
      obtain ⟨r, hr, hb⟩ := mem_map.1 hmem
      exact (h.zombie i hz).2 r hr hb
  · have hold : ∀ r ∈ s.reaps, ∃ e ∈ s'.exits, r.birth = e.birth ∧ r.pid = e.pid ∧
        ∀ st, r.status = some st → st = e.status := fun r hr => by
      obtain ⟨e, he, hmatch⟩ := h.matched r hr
      exact ⟨e, hmono e he, hmatch⟩
    rcases hch.reaps with heq | ⟨i, addr, hz, -, heq⟩ <;> rw [heq]
    · exact hold
    · intro r hr
      rcases mem_cons.1 hr with rfl | hr
      · refine ⟨_, hmono _ (h.zombie i hz).1, rfl, rfl, fun st hst => ?_⟩
        simp only [Option.ite_none_left_eq_some, Option.some.injEq] at hst
        exact hst.2.symm
      · exact hold r hr

end History

end ProcSys

theorem history_of_reachable (h : procSystem.Reachable s) : s.History :=
  h.invariant (fun _ h0 => h0 ▸ ProcSys.History.boot) fun _ _ _ hr hI hs =>
    hI.step (tree_of_reachable hr) (control_of_reachable hr) (ProcSys.step_of_run hs)

namespace ProcSys

/-! ## What `wait` returns -/

/-- **How `wait` comes to return `r`**: at the end of a scan without children,
or when killed; with a zombie whose status it cannot store; or with one it
frees. -/
inductive Returns (s : ProcSys) (p : ℕ) (x : Choice) (r : ℤ) (m : Move) : Prop
  | scanned {addr i : ℕ} {havekids : Bool} : s.pc p = .waitScan addr i havekids → NPROC ≤ i →
      (havekids = false ∨ (s.proc p).killed = true) → r = -1 → Returns s p x r m
  | fault {addr i : ℕ} : s.pc p = .waitAt addr i → x.copyout = false → Returns s p x r m
  | reaped {addr i : ℕ} : m.edit = .reap addr i → Returns s p x r m

theorem Moves.returns {r : ℤ} (hm : s.Moves c p x m) (h : m.pc = .waitRet r)
    (hne : s.pc p ≠ .waitRet r) : Returns s p x r m := by
  cases hm.acts with
  | exec _ hpc _ _ hg =>
    cases hg with
    | waitFails hi hor => exact .scanned hpc (by omega) hor (Pc.waitRet.inj h).symm
    | waitFaults _ _ hx => exact .fault hpc hx
    | waitReaps _ _ => exact .reaped rfl
    | _ => cases h
  | awakes _ _ | rescans _ _ | revives _ _ => cases h
  | _ => exact absurd h hne

/-- **What a step does to zombies and waiting parents.** -/
structure WaitStep (s : ProcSys) (a : ProcAct) (s' : ProcSys) : Prop where
  /-- A zombie is freed by its parent, whose `wait` returns its pid and, at a
  user address other than 0, its status. -/
  freed : ∀ i, (s.proc i).state = .zombie → (s'.proc i).state ≠ .zombie →
    ∃ c x p addr e, a = .run c x ∧ s.sched c = .out p ∧ s.pc p = .waitAt addr i ∧
      (s.proc i).parent = some p ∧ (s'.proc i).state = .unused ∧ e ∈ s.exits ∧
      e.birth = s.birth i ∧ s'.pc p = .waitRet e.pid ∧
      s'.reaps = ⟨e.birth, e.pid, if addr = 0 then none else some e.status⟩ :: s.reaps
  recorded : s'.reaps ≠ s.reaps →
    ∃ i, (s.proc i).state = .zombie ∧ (s'.proc i).state = .unused
  /-- One whose status cannot be stored is left. -/
  kept : ∀ c x p addr i, a = .run c x → s.sched c = .out p → s.sw p = .exec →
    s.pc p = .waitAt addr i → (s.proc i).state = .zombie → addr ≠ 0 → x.copyout = false →
    s'.proc = s.proc ∧ s'.pc p = .waitRet (-1)
  /-- A `wait` that returns has reaped, or found no children. -/
  childless : ∀ c x p r, a = .run c x → s.sched c = .out p → s'.pc p = .waitRet r →
    s.pc p ≠ .waitRet r → x.copyout = true → (s.proc p).killed = false →
    s'.reaps ≠ s.reaps ∨ r = -1 ∧ ∀ j, (s.proc j).parent ≠ some p

theorem freed_of_change (ht : s.Tree) (hh : s.History) (hch : s.Change a s')
    (hz : (s.proc i).state = .zombie) (hz' : (s'.proc i).state ≠ .zombie) :
    ∃ c x p addr e, a = .run c x ∧ s.sched c = .out p ∧ s.pc p = .waitAt addr i ∧
      (s.proc i).parent = some p ∧ (s'.proc i).state = .unused ∧ e ∈ s.exits ∧
      e.birth = s.birth i ∧ s'.pc p = .waitRet e.pid ∧
      s'.reaps = ⟨e.birth, e.pid, if addr = 0 then none else some e.status⟩ :: s.reaps := by
  cases hch.fate i with
  | stays h _ => exact absurd (h.zombie.2 hz) hz'
  | forked _ hm he _ _ _ =>
    rw [(hm.edit_at he).2.2.2.2] at hz
    cases hz
  | given _ _ _ hp _ =>
    rw [hp] at hz'
    exact absurd hz hz'
  | exited _ _ _ hz _ _ _ _ => exact absurd hz hz'
  | freed hc hm he hp _ =>
    obtain ⟨-, -, hpc, -, hpc'⟩ := hm.edit_at he
    refine ⟨_, _, _, _, _, rfl, hc, hpc, ht.parent_of_reap hm he, by rw [hp]; rfl,
      (hh.zombie i hz).1, rfl, ?_, ?_⟩
    · simp [ProcSys.commit, hpc']
    · simp [ProcSys.commit, he]

/-- A thread with nothing to lock and locks to leave makes its move. -/
theorem Step.eq_commit (hs : s.Step (.run c x) s') (hc : s.sched c = .out p)
    (hw : s.wants p = none) (hheld : (s.pc p).held p ≠ []) : s' = s.commit c p (s.move c p x) := by
  cases hs with
  | relock h => exact absurd hw (h c x p rfl hc)
  | acquire hc' hw' _ =>
    rw [hc] at hc'
    cases hc'
    rw [hw] at hw'
    cases hw'
  | commit hc' hm _ =>
    rw [hc] at hc'
    cases hc'
    cases hm with
    | timer hpre => exact absurd hpre.2.2.1 hheld
    | code _ _ _ => rfl

theorem kept_of_step {addr : ℕ} (hs : s.Step (.run c x) s') (hc : s.sched c = .out p)
    (hsw : s.sw p = .exec) (hpc : s.pc p = .waitAt addr i) (hz : (s.proc i).state = .zombie)
    (haddr : addr ≠ 0) (hx : x.copyout = false) :
    s'.proc = s.proc ∧ s'.pc p = .waitRet (-1) := by
  have hw : s.wants p = none := by simp [wants, hsw, hpc, Sw.wants, Pc.wants]
  rw [hs.eq_commit hc hw (by simp [hpc, Pc.held])]
  simp [ProcSys.commit, move, hsw, hpc, execMove, hz, haddr, hx, Edit.apply]

theorem got_ne_waitRet {pc : Pc} {r : ℤ} (h : pc.wants p = some i) : pc.got ≠ .waitRet r := by
  cases pc <;> simp_all [Pc.wants, Pc.got]

theorem childless_of_step {r : ℤ} (ht : s.Tree) (hs : s.Step (.run c x) s')
    (hc : s.sched c = .out p) (hr : s'.pc p = .waitRet r) (hne : s.pc p ≠ .waitRet r)
    (hx : x.copyout = true) (hk : (s.proc p).killed = false) :
    s'.reaps ≠ s.reaps ∨ r = -1 ∧ ∀ j, (s.proc j).parent ≠ some p := by
  cases hs with
  | relock _ => exact absurd hr hne
  | @acquire _ _ i _ hc' hw _ =>
    rw [hc] at hc'
    cases hc'
    by_cases hsw : s.sw p = .exec
    · have hwp : (s.pc p).wants p = some i := by simpa [wants, hsw, Sw.wants] using hw
      refine absurd ?_ (got_ne_waitRet (r := r) hwp)
      simpa [threadGot, lockBy, hsw] using hr
    · exact absurd (by simpa [threadGot, lockBy, hsw] using hr) hne
  | @commit _ _ _ m hc' hm _ =>
    rw [hc] at hc'
    cases hc'
    have hpc' : m.pc = .waitRet r := by simpa [ProcSys.commit] using hr
    cases hm.returns hpc' hne with
    | @scanned addr i havekids hpc hi hor hr1 =>
      refine .inr ⟨hr1, fun j => ?_⟩
      have hkids : havekids = false := hor.resolve_right (by simp [hk])
      have hplace := ht.place p
      rw [hpc, hkids] at hplace
      have hout : ∀ j, i ≤ j → (s.proc j).parent = none := fun j hj =>
        ht.orphan j (ht.bound j (by omega))
      rcases hplace with hall | ⟨-, k, hik, hk⟩
      · by_cases hj : j < i
        · exact hall j hj
        · rw [hout j (by omega)]
          simp
      · rw [hout k hik] at hk
        cases hk
    | fault _ hx' => rw [hx] at hx'; cases hx'
    | reaped he => exact .inl (by simp [ProcSys.commit, he])

end ProcSys

/-- **The process tree and reaping.** Every process but `initproc` has a
parent that is alive; a process is returned by at most one `wait`, with its
pid and the status it exited with; and every step treats zombies and the
parents that wait for them as `WaitStep` says. -/
theorem process_tree (h : procSystem.Reachable s) :
    (∀ i, i ≠ initproc → (s.proc i).state ≠ .unused →
      ∃ q, (s.proc i).parent = some q ∧ (s.proc q).state ≠ .unused ∧
        (s.proc q).state ≠ .zombie) ∧
    (s.exits.map Exit.birth).Nodup ∧ (s.reaps.map Reap.birth).Nodup ∧
    (∀ r ∈ s.reaps, ∃ e ∈ s.exits, r.birth = e.birth ∧ r.pid = e.pid ∧
      ∀ st, r.status = some st → st = e.status) ∧
    ∀ a s', procSystem.step s a s' → s.WaitStep a s' := by
  have hctl := control_of_reachable h
  have ht := tree_of_reachable h
  have hh := history_of_reachable h
  refine ⟨fun i hi hl => ?_, hh.exits, hh.reaps, hh.matched, fun a s' hstep => ?_⟩
  · obtain ⟨q, hq, hql, hqz, -⟩ := ht.parent i hi hl
    exact ⟨q, hq, hql, hqz⟩
  · have hs := ProcSys.step_of_run hstep
    have hch := hs.change hctl
    refine ⟨fun i => ProcSys.freed_of_change ht hh hch, fun hr => ?_, ?_, ?_⟩
    · obtain ⟨i, -, hz, hu, -⟩ := hch.reaps.resolve_left hr
      exact ⟨i, hz, hu⟩
    · rintro c x p addr i rfl hc hsw hpc hz haddr hx
      exact ProcSys.kept_of_step hs hc hsw hpc hz haddr hx
    · rintro c x p r rfl hc hr hne hx hk
      exact ProcSys.childless_of_step ht hs hc hr hne hx hk

/-- `initproc` forks a child that exits with status 7; its `wait` stores it
and returns pid 2. -/
theorem process_tree_child : ∃ s, procSystem.Reachable s ∧
    s.pc 0 = .waitRet 2 ∧ s.reaps = [⟨10, 2, some 7⟩] ∧ s.exits = [⟨10, 2, 7⟩] ∧
    (s.reaps.map Reap.birth).Nodup ∧ ∀ a s', procSystem.step s a s' → s.WaitStep a s' := by
  obtain ⟨s, hs, hpc, hreap, hexit⟩ := exists_of_procFollow
    (P := fun s => s.pc 0 = .waitRet 2 ∧ s.reaps = [⟨10, 2, some 7⟩] ∧ s.exits = [⟨10, 2, 7⟩])
    (starts 0 0 ++ calls 0 .fork ++ steps 0 4 ++ starts 1 1 ++ calls 1 (.exit 7) ++ steps 1 74 ++
      schedules 1 1 ++ calls 0 (.wait 64) ++ steps 0 5)
    (by decide +kernel)
  obtain ⟨-, -, hreaps, -, hstep⟩ := process_tree hs
  exact ⟨s, hs, hpc, hreap, hexit, hreaps, hstep⟩

end Xv6
