import Xv6.Proc.Tree
/-!
# No lost wakeup in `wait`

A parent holds its own lock from the start of `wait` until it is asleep. A
child becomes a zombie with the lock of the parent it read before, which is
still its parent or has given it to `initproc`, and wakes that one in the
same section. So a scan never passes a child that then becomes a zombie, and
who sleeps in `wait` has none.
-/

namespace Xv6

open Function

variable {s s' : ProcSys} {c p q i j : ℕ} {x : Choice} {m : Move} {a : ProcAct}

namespace ProcSys

/-- No child of `p` below `i` is a zombie. -/
def NoZombies (s : ProcSys) (p i : ℕ) : Prop :=
  ∀ j, j < i → (s.proc j).parent = some p → (s.proc j).state ≠ .zombie

/-- What `exit` and `wait` rely on where the thread of process `p` is:
`original_parent` is the parent unless that is `initproc` by now; a scan has
passed no zombie; and who sleeps has no zombie among its children. -/
def Watch (s : ProcSys) (p : ℕ) : Pc → Prop
  | .exitParent _ op | .exitBoth _ op | .reparent _ op _ | .reparentKid _ op _
  | .reparentAt _ op _ | .exitEnd _ op =>
    (s.proc p).state ≠ .unused ∧
      ((s.proc p).parent = some op ∨ (s.proc p).parent = some initproc)
  | .waitScan _ i _ | .waitKid _ i | .waitAt _ i => p ≠ initproc → s.NoZombies p i
  | .waiting _ =>
    p ≠ initproc → (s.proc p).state = .sleeping →
      (s.proc p).chan = some (.proc p) ∧ (s.proc p).killed = false ∧ ∀ i, s.NoZombies p i
  | _ => True

/-- Only a process in `exit` is a zombie, and there it stays. -/
def Vigil (s : ProcSys) (p : ℕ) (pc : Pc) : Prop :=
  ((s.proc p).state = .zombie → pc = .dead) ∧ s.Watch p pc

/-! ## What others do to a process -/

/-- A slot whose process is asleep only if it was, on the same channel and
killed no more than before. -/
def Undisturbed (v v' : Proc) : Prop :=
  v'.state = .sleeping → v.state = .sleeping ∧ v'.chan = v.chan ∧ v'.killed = v.killed

namespace Undisturbed

theorem refl (v : Proc) : Undisturbed v v := fun h => ⟨h, rfl, rfl⟩

theorem awake {v v' : Proc} (h : v'.state ≠ .sleeping) : Undisturbed v v' := fun hs => absurd hs h

theorem wakeup (v : Proc) (ch : Chan) : Undisturbed v (v.wakeup ch) := by
  unfold Proc.wakeup
  split
  · exact awake (by simp)
  · exact refl v

theorem update {t : ℕ → Proc} {v : Proc} (h : i = q → Undisturbed (t q) v) :
    Undisturbed (t q) (update t i v q) := by
  by_cases hqi : q = i
  · subst hqi
    rw [update_self]
    exact h rfl
  · rw [update_of_ne hqi]
    exact refl _

end Undisturbed

theorem undisturbed_of_edit {n : ℤ} (hf : m.edit.From s p m) (hqp : q ≠ p) :
    Undisturbed (s.proc q) (m.edit.apply n p s.proc q) := by
  cases he : m.edit with
  | nothing => exact .refl _
  | own ofile sz fault | close | yield | sleep ch | unchan =>
    exact .update fun h => absurd h.symm hqp
  | wakeup ch i => exact .update fun h => h ▸ .wakeup _ _
  | kill i =>
    refine .update fun h => ?_
    subst h
    refine .awake ?_
    unfold Proc.kill
    split
    · simp
    · assumption
  | fork i o =>
    rw [he] at hf
    refine .update fun h => .awake ?_
    have hun := hf.2.2.2.2
    cases o <;> simp [Proc.fork, Proc.freeproc, hun]
  | reparent i =>
    refine .update fun h => ?_
    subst h
    exact fun hs => ⟨hs, rfl, rfl⟩
  | exit op st =>
    simp only [Edit.apply, update_of_ne hqp]
    exact .update fun h => h ▸ .wakeup _ _
  | reap addr i => exact .update fun h => .awake (by simp [Proc.freeproc])

/-- **Others wake a process or leave it asleep as it was.** -/
theorem Step.undisturbed (hs : s.Step a s') (hq : ∀ c x, a = .run c x → s.sched c ≠ .out q) :
    Undisturbed (s.proc q) (s'.proc q) := by
  cases hs with
  | @commit c p x m hc hm _ =>
    have hqp : q ≠ p := fun e => hq c x rfl (by rw [hc, e])
    exact undisturbed_of_edit hm.edit_from hqp
  | pick _ _ => exact Undisturbed.update fun _ => .awake (by simp)
  | visiting _ => exact Undisturbed.update fun h => h ▸ .wakeup _ _
  | _ => exact .refl _

/-- The parent of a live process is the same, or `initproc`, after a step. -/
theorem Change.parent (hch : s.Change a s') (hctl : s.Control) (ht : s.Tree)
    (hlive : (s.proc q).state ≠ .unused) (hz : (s.proc q).state ≠ .zombie) :
    (s'.proc q).state ≠ .unused ∧
      ((s'.proc q).parent = (s.proc q).parent ∨ (s'.proc q).parent = some initproc) := by
  have hlive' : (s'.proc q).state ≠ .unused := by
    cases hch.fate q with
    | stays h _ => exact mt h.unused.1 hlive
    | forked _ _ _ hp _ _ => simp [hp, Proc.fork]
    | given _ _ _ hp _ => rwa [hp]
    | exited _ _ _ hz' _ _ _ _ => simp [hz']
    | freed _ hm he _ _ => exact absurd (hm.edit_at he).2.2.2.1 hz
  refine ⟨hlive', ?_⟩
  rcases ht.lives_or_born hctl (hch.fate q) hlive' with h | h
  · exact h.parent
  · exact absurd h.unused hlive

/-- What a thread relies on stays so, if its children do not become
zombies behind its back. -/
theorem Watch.keep {pc : Pc} (h : s.Watch p pc) (hz : (s.proc p).state = .zombie → pc = .dead)
    (hpar : (s.proc p).state ≠ .unused → (s.proc p).state ≠ .zombie →
      (s'.proc p).state ≠ .unused ∧
        ((s'.proc p).parent = (s.proc p).parent ∨ (s'.proc p).parent = some initproc))
    (hund : Undisturbed (s.proc p) (s'.proc p))
    (hkids : p ≠ initproc →
      (p ∉ pc.held p → (s'.proc p).state = .sleeping ∧ (s.proc p).chan = some (.proc p)) →
      ∀ j, (s'.proc j).parent = some p → (s'.proc j).state = .zombie →
        (s.proc j).parent = some p ∧ (s.proc j).state = .zombie) : s'.Watch p pc := by
  have hexit : ∀ {op : ℕ}, pc ≠ .dead → (s.proc p).state ≠ .unused ∧
      ((s.proc p).parent = some op ∨ (s.proc p).parent = some initproc) →
      (s'.proc p).state ≠ .unused ∧
        ((s'.proc p).parent = some op ∨ (s'.proc p).parent = some initproc) := by
    intro op hd h
    obtain ⟨hl, hp⟩ := hpar h.1 fun hzp => hd (hz hzp)
    refine ⟨hl, hp.elim (fun heq => ?_) .inr⟩
    rw [heq]
    exact h.2
  have hscan : ∀ {i : ℕ}, p ∈ pc.held p → (p ≠ initproc → s.NoZombies p i) →
      p ≠ initproc → s'.NoZombies p i := by
    intro i hmem h hp j hj hjp hjz
    obtain ⟨hjp', hjz'⟩ := hkids hp (fun he => absurd hmem he) j hjp hjz
    exact h hp j hj hjp' hjz'
  cases pc with
  | exitParent st op | exitBoth st op | reparent st op i | reparentKid st op i | reparentAt st op i
  | exitEnd st op => exact hexit (by simp) h
  | waitScan addr i havekids | waitKid addr i | waitAt addr i => exact hscan (by simp [Pc.held]) h
  | waiting addr =>
    intro hp hsl
    obtain ⟨hsl', hchan, hkilled⟩ := hund hsl
    obtain ⟨hch, hk, hno⟩ := h hp hsl'
    refine ⟨by rw [hchan, hch], by rw [hkilled, hk], fun i j hj hjp hjz => ?_⟩
    obtain ⟨hjp', hjz'⟩ := hkids hp (fun _ => ⟨hsl, hch⟩) j hjp hjz
    exact hno i j hj hjp' hjz'
  | _ => trivial

/-- A thread on a CPU holds what the code says. -/
theorem Control.exec_of_held (h : s.Control) (hq : (s.pc q).held q ≠ []) :
    s.sw q = .exec ∧ ∃ c, s.sched c = .out q := by
  have hsw : s.sw q = .exec := by
    by_contra hne
    exact hq (h.parked q hne)
  exact ⟨hsw, (h.off q).resolve_left (by simp [hsw])⟩

/-- **The other threads.** A child that becomes a zombie has the lock of its
parent, and wakes it. -/
theorem Vigil.other (hctl : s.Control) (ht : s.Tree) (hv : ∀ q, s.Vigil q (s.pc q))
    (hs : s.Step a s') (hq : ∀ c x, a = .run c x → s.sched c ≠ .out q) :
    s'.Vigil q (s.pc q) := by
  have hch := hs.change hctl
  refine ⟨fun hz => ?_, ?_⟩
  · rcases (hch.zombie hz).2.2 with hz | ⟨c, x, m, op, st, rfl, hc, -⟩
    · exact (hv q).1 hz.1
    · exact absurd hc (hq c x rfl)
  refine (hv q).2.keep (hv q).1 (hch.parent hctl ht) (hs.undisturbed hq) ?_
  intro hinit hwhere j hjp hjz
  have hjp' : (s.proc j).parent = some q :=
    ((ht.keepsChildren hctl hch hq).2 j hjp).resolve_right fun h => hinit h.1
  refine ⟨hjp', ((hch.zombie hjz).2.2.resolve_right ?_).1⟩
  rintro ⟨c, x, m, op, st, rfl, hc, hm, he, -, rfl⟩
  obtain ⟨hswj, -, hpcj, -⟩ := hm.edit_at he
  -- the child has locked its parent
  have hop : op = q := by
    have hwatch := (hv j).2
    rw [hpcj] at hwatch
    rcases hwatch.2 with h | h
    · rw [hjp'] at h
      exact (Option.some.inj h).symm
    · rw [hjp'] at h
      exact absurd (Option.some.inj h) hinit
  subst hop
  have hlock : s.lock op = some (.cpu c) :=
    hctl.lock_of_held hc (by simp [held, hswj, Sw.held, hpcj, Pc.held])
  by_cases hheld : op ∈ (s.pc op).held op
  · -- the parent is scanning, and has its own lock
    obtain ⟨hsw, c', hc'⟩ := hctl.exec_of_held (List.ne_nil_of_mem hheld)
    have hlock' := hctl.lock_of_held hc' (by simpa [held, hsw, Sw.held] using hheld)
    rw [hlock] at hlock'
    cases hlock'
    exact hq c x rfl hc'
  · obtain ⟨hsl, hchan⟩ := hwhere hheld
    have hne : op ≠ j := fun e => hq c x rfl (by rw [hc, e])
    have hsl' := (hs.undisturbed hq hsl).1
    simp [ProcSys.commit, he, Edit.apply, hne, Proc.wakeup, hsl', hchan] at hsl

/-- **The thread itself**, where it changes nothing. -/
theorem Watch.goes {pc : Pc} (hg : s.Goes c p x pc m) (hlive : (s.proc p).state ≠ .unused)
    (h : s.Watch p pc) (he : m.edit = .nothing) : s.Watch p m.pc := by
  -- one slot further
  have hnext : ∀ {i : ℕ}, ((s.proc i).parent = some p → (s.proc i).state ≠ .zombie) →
      (p ≠ initproc → s.NoZombies p i) → p ≠ initproc → s.NoZombies p (i + 1) := by
    intro i hi h hp j hj hjp
    by_cases hji : j = i
    · subst hji
      exact hi hjp
    · exact h hp j (by omega) hjp
  cases hg with
  | readParent hop => exact ⟨hlive, .inl hop⟩
  | reparentKid _ _ | reparentNext _ _ | reparentEnds _ | waitKid _ _ => exact h
  | waitNext _ hpar => exact hnext (fun hp => absurd hp hpar) h
  | waitAlive hz => exact hnext (fun _ => hz) h
  | reparented | exited | waitSleeps _ _ | sleepMarks => cases he
  | _ => trivial

theorem Watch.moves (hctl : s.Control) (hc : s.sched c = .out p) (hm : s.Moves c p x m)
    (h : s.Watch p (s.pc p)) (he : m.edit = .nothing) : s.Watch p m.pc := by
  cases hm.acts with
  | exec hsw hpc _ _ hg =>
    rw [hpc] at h
    exact h.goes hg (hctl.live hc (by simp [hsw]) (by simp [hsw])).1 he
  | yield _ | awakes _ _ | rescans _ _ => cases he
  | revives _ _ => trivial
  | _ => exact h

theorem Watch.congr {pc : Pc} (hp : s'.proc = s.proc) (h : s.Watch p pc) : s'.Watch p pc := by
  cases pc <;> simp only [Watch, NoZombies, hp] at h ⊢ <;> exact h

/-- A process that falls asleep in `wait` has looked at all its children. -/
theorem Watch.sleep {addr : ℕ} {havekids : Bool} (ht : s.Tree)
    (h : s.Watch p (.waitScan addr i havekids)) (hi : NPROC ≤ i)
    (hk : (s.proc p).killed = false) (he : m.edit = .sleep (.proc p)) :
    (s.commit c p m).Watch p (.waiting addr) := by
  intro hp _
  have hself : (s.commit c p m).proc p =
      { s.proc p with chan := some (.proc p), state := .sleeping } := by
    simp [ProcSys.commit, he, Edit.apply]
  have hother : ∀ j, j ≠ p → (s.commit c p m).proc j = s.proc j := fun j hj => by
    simp [ProcSys.commit, he, Edit.apply, hj]
  rw [hself]
  refine ⟨rfl, hk, fun k j _ hjp hjz => ?_⟩
  have hne : j ≠ p := by
    rintro rfl
    rw [hself] at hjz
    cases hjz
  rw [hother j hne] at hjp hjz
  by_cases hj : j < i
  · exact h hp j hj hjp hjz
  · rw [ht.orphan j (ht.bound j (by omega))] at hjp
    cases hjp

/-- **The thread that moves.** -/
theorem Vigil.moves (hctl : s.Control) (ht : s.Tree) (hc : s.sched c = .out p)
    (hm : s.Moves c p x m) (h : s.Vigil p (s.pc p)) : (s.commit c p m).Vigil p m.pc := by
  have hf := hm.edit_from
  refine ⟨fun hz => ?_, ?_⟩
  · rcases ((Change.of_moves hctl hc hm).zombie hz).2.2 with
      ⟨hz, -⟩ | ⟨c', x', m', op, st, -, -, hm', he, -, heq⟩
    · have hnot : s.sw p = .save ∨ s.sw p = .load := by
        by_contra hne
        have hrun := hctl.running c p hc (fun h => hne (.inl h)) fun h => hne (.inr h)
        rw [hz] at hrun
        cases hrun
      cases hm.flow (hctl.out c p hc) with
      | save _ heq | load _ heq => rw [heq]; exact h.1 hz
      | _ => simp_all
    · have hf' := hm'.edit_from
      rw [he] at hf'
      have hpc : (s.commit c p m).pc p = (s.commit c' p m').pc p := by rw [heq]
      simp only [ProcSys.commit, update_self] at hpc
      rw [hpc, hf'.2.2.2]
  cases he : m.edit with
  | nothing =>
    exact (Watch.moves hctl hc hm h.2 he).congr (by simp [ProcSys.commit, he, Edit.apply])
  | own | kill =>
    rw [he] at hf
    rw [hf.2.2.1]
    trivial
  | close =>
    rw [he] at hf
    obtain ⟨-, -, -, ⟨st, hpc⟩, -⟩ := hf
    rw [hpc]
    trivial
  | wakeup ch i =>
    rw [he] at hf
    obtain ⟨-, -, -, ⟨-, hpc⟩ | ⟨st, -, -, -, hpc⟩⟩ := hf
    · rw [hpc]
      trivial
    · rw [hpc]
      trivial
  | fork i o =>
    rw [he] at hf
    rw [hf.2.2.2.1]
    trivial
  | reparent i =>
    rw [he] at hf
    obtain ⟨-, -, st, op, hpc, hpc'⟩ := hf
    have hplace := ht.place p
    rw [hpc] at hplace
    have hip : p ≠ i := by
      rintro rfl
      exact Nat.lt_irrefl _ (ht.birth_lt hplace.2.2)
    have hwatch := h.2
    rw [hpc] at hwatch
    rw [hpc']
    simpa [Watch, ProcSys.commit, he, Edit.apply, hip] using hwatch
  | exit op st =>
    rw [he] at hf
    rw [hf.2.2.2]
    trivial
  | reap addr i =>
    rw [he] at hf
    rw [hf.2.2.2.2]
    trivial
  | yield =>
    rw [he] at hf
    obtain ⟨hsw, -, hpc⟩ := hf
    have hpark := hctl.parked p (by simp [hsw])
    rw [hpc]
    have hwatch := h.2
    cases hpcp : s.pc p with
    | exitParent st op =>
      rw [hpcp] at hwatch
      simpa [Watch, ProcSys.commit, he, Edit.apply] using hwatch.2
    | waiting addr =>
      intro _ hsl
      simp [ProcSys.commit, he, Edit.apply] at hsl
    | exitBoth _ _ | reparent _ _ _ | reparentKid _ _ _ | reparentAt _ _ _ | exitEnd _ _
    | waitScan _ _ _ | waitKid _ _ | waitAt _ _ => rw [hpcp] at hpark; cases hpark
    | _ => trivial
  | sleep ch =>
    rw [he] at hf
    obtain ⟨-, -, ⟨l, -, hpc⟩ | ⟨addr, i, hpc, hi, hk, rfl, hpc'⟩⟩ := hf
    · rw [hpc]
      trivial
    · have hwatch := h.2
      rw [hpc] at hwatch
      rw [hpc']
      exact hwatch.sleep ht hi hk he
  | unchan =>
    rw [he] at hf
    obtain ⟨-, -, ⟨l, -, hpc⟩ | ⟨addr, -, hpc⟩⟩ := hf
    · rw [hpc]
      trivial
    · rw [hpc]
      exact fun _ j hj => absurd hj (Nat.not_lt_zero j)

theorem Watch.got {pc : Pc} (hw : pc.wants q = some i) (h : s.Watch q pc) : s.Watch q pc.got := by
  cases pc with
  | waitSelf addr => exact fun _ j hj => absurd hj (Nat.not_lt_zero j)
  | exitParent _ _ | exitBoth _ _ | reparentKid _ _ _ | waitKid _ _ => exact h
  | visit _ _ | exitInit _ | exitSelf _ | sleepSelf _ _ => trivial
  | _ => cases hw

theorem Vigil.boot (q : ℕ) : ProcSys.boot.Vigil q (ProcSys.boot.pc q) := by
  refine ⟨fun hz => ?_, trivial⟩
  by_cases hq : q = initproc
  · subst hq
    simp [ProcSys.boot] at hz
  · simp [ProcSys.boot, hq, Proc.zero] at hz

theorem Vigil.step (hctl : s.Control) (ht : s.Tree) (hv : ∀ q, s.Vigil q (s.pc q))
    (hs : s.Step a s') (q : ℕ) : s'.Vigil q (s'.pc q) := by
  refine hs.place (P := Vigil) hctl ?_ ?_ ?_ (fun q hq _ _ => Vigil.other hctl ht hv hs hq) ?_ hv q
  · intro s₁ s₂ hp _ q pc h
    exact ⟨by rw [hp]; exact h.1, h.2.congr hp⟩
  · intro q i pc hw h
    refine ⟨fun hz => ?_, h.2.got hw⟩
    rw [h.1 hz] at hw
    cases hw
  · rintro c p m q he rfl
    refine ⟨fun hz => ?_, trivial⟩
    simp [ProcSys.commit, he, Edit.apply, Proc.fork] at hz
  · rintro c p x m - hc hm rfl h
    exact h.moves hctl ht hc hm

end ProcSys

theorem vigil_of_reachable (h : procSystem.Reachable s) (q : ℕ) : s.Vigil q (s.pc q) := by
  revert q
  refine h.invariant (I := fun s => ∀ q, s.Vigil q (s.pc q)) ?_ fun s a s' hr hI hs => ?_
  · rintro _ rfl
    exact ProcSys.Vigil.boot
  · exact ProcSys.Vigil.step (control_of_reachable hr) (tree_of_reachable hr) hI
      (ProcSys.step_of_run hs)

/-- **No lost wakeup in `wait`.** Who sleeps in `wait`, `initproc` apart, has
no zombie for a child and has not been killed, whether its lock is free or
not. -/
theorem no_lost_wakeup_in_wait {addr : ℕ} (h : procSystem.Reachable s) (hq : q ≠ initproc)
    (hw : s.pc q = .waiting addr) (hs : (s.proc q).state = .sleeping) :
    (s.proc q).chan = some (.proc q) ∧
      (∀ j, (s.proc j).parent = some q → (s.proc j).state ≠ .zombie) ∧
      (s.proc q).killed = false := by
  have hwatch := (vigil_of_reachable h q).2
  rw [hw] at hwatch
  obtain ⟨hchan, hk, hno⟩ := hwatch hq hs
  exact ⟨hchan, fun j => hno (j + 1) j (Nat.lt_succ_self j), hk⟩

/-- The child of `initproc` waits for its own child, which has not run. -/
theorem no_lost_wakeup_in_wait_child : ∃ s, procSystem.Reachable s ∧ s.pc 1 = .waiting 0 ∧
    (s.proc 1).state = .sleeping ∧ (s.proc 2).parent = some 1 ∧ (s.proc 2).state ≠ .zombie ∧
    (s.proc 1).killed = false := by
  obtain ⟨s, hs, hpc, hsl, hpar⟩ := exists_of_procFollow
    (P := fun s => s.pc 1 = .waiting 0 ∧ (s.proc 1).state = .sleeping ∧ (s.proc 2).parent = some 1)
    (starts 0 0 ++ calls 0 .fork ++ steps 0 4 ++ starts 1 1 ++ calls 1 .fork ++ steps 1 6 ++
      calls 1 (.wait 0) ++ steps 1 68)
    (by decide +kernel)
  obtain ⟨-, hno, hk⟩ := no_lost_wakeup_in_wait hs (by decide) hpc hsl
  exact ⟨s, hs, hpc, hsl, hpar, hno 2 hpar, hk⟩

end Xv6
