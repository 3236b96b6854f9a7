import Xv6.Proc.Wake
/-!
# Free slots

`allocproc` relies on `freeproc` for a slot with nothing left of the process
before. `exit` closes the files, `freeproc` clears the rest, and a `fork`
that fails frees what it has set up. Two things break it: `allocproc` gives
up without `freeproc` when there is no page for the trapframe, after it has
set the pid; and `kill` looks at the pid alone, which is 0 in a free slot.
The next child in such a slot starts out killed.
-/

namespace Xv6

open Common Function

variable {s s' : ProcSys} {c p q i j : ℕ} {x : Choice} {m : Move} {a : ProcAct}

/-- Nothing is left of a process. -/
structure Proc.Clean (p : Proc) : Prop where
  pid : p.pid = 0
  killed : p.killed = false
  parent : p.parent = none
  chan : p.chan = none
  trapframe : p.trapframe = false
  pagetable : p.pagetable = false
  sz : p.sz = 0
  ofile : ∀ fd, p.ofile fd = false
  cwd : p.cwd = false

/-- No files are open, and there is no current directory. -/
def Proc.Closed (p : Proc) : Prop := (∀ fd, p.ofile fd = false) ∧ p.cwd = false

theorem Proc.Clean.closed {p : Proc} (h : p.Clean) : p.Closed := ⟨h.ofile, h.cwd⟩

/-- `freeproc` leaves nothing of a process without files. -/
theorem Proc.Closed.freeproc {p : Proc} (h : p.Closed) : p.freeproc.Clean :=
  ⟨rfl, rfl, rfl, rfl, rfl, rfl, rfl, h.1, h.2⟩

/-- The code of `exit` past the closing of files. -/
def Pc.exiting : Pc → Bool
  | .exitInit _ | .exitInitAt _ | .exitSelf _ | .exitSelfAt _ | .exitParent _ _ | .exitBoth _ _
  | .reparent _ _ _ | .reparentKid _ _ _ | .reparentAt _ _ _ | .exitEnd _ _ | .dead => true
  | _ => false

namespace ProcSys

/-- **Hygiene.** A free slot whose lock is free is clean. -/
def Hygiene (s : ProcSys) : Prop :=
  ∀ i, (s.proc i).state = .unused → s.lock i = none → (s.proc i).Clean

/-- Where process `p` is about to take a free slot, `kalloc` has a page for
the trapframe; where it is about to kill, a free slot is not what it
names. -/
def careAt (s : ProcSys) (x : Choice) : Pc → Bool
  | .visiting .allocproc i => decide ((s.proc i).state = .unused → x.alloc ≠ .noTrapframe)
  | .visiting (.kill pid) i => decide ((s.proc i).state = .unused → pid ≠ 0)
  | _ => true

/-- **The condition.** `kalloc` has a page for the trapframe of a slot that
`allocproc` has found, and `kill(0)` does not come upon a free slot. -/
def SlotCare (s : ProcSys) : ProcAct → Prop
  | .run c x => ∀ p, s.sched c = .out p → s.careAt x (s.pc p) = true
  | _ => True

instance (s : ProcSys) : (a : ProcAct) → Decidable (s.SlotCare a)
  | .run c x => inferInstanceAs (Decidable (∀ p, s.sched c = .out p → s.careAt x (s.pc p) = true))
  | .schedule _ | .interrupt _ _ => .isTrue trivial

/-- Every free slot is clean, and a process past the closing of files in
`exit` has none. -/
structure Tidied (s : ProcSys) : Prop where
  clean : ∀ i, (s.proc i).state = .unused → (s.proc i).Clean
  closed : ∀ p, (s.pc p).exiting = true → (s.proc p).Closed

namespace Tidied

theorem boot : Tidied .boot where
  clean i hi := by
    by_cases h0 : i = initproc
    · subst h0
      simp [ProcSys.boot] at hi
    · have hzero : ProcSys.boot.proc i = .zero := by simp [ProcSys.boot, h0]
      rw [hzero]
      exact ⟨rfl, rfl, rfl, rfl, rfl, rfl, rfl, fun _ => rfl, rfl⟩
  closed p hp := by cases hp

/-- One slot changes. -/
theorem update {v : Proc} (h : s.Tidied) (hj : (update s.proc i v j).state = .unused)
    (hv : v.state = .unused → i = j → v.Clean) : (Function.update s.proc i v j).Clean := by
  by_cases hji : j = i
  · subst hji
    rw [update_self] at hj ⊢
    exact hv hj rfl
  · rw [update_of_ne hji] at hj ⊢
    exact h.clean j hj

theorem wakeup {ch : Chan} (h : s.Tidied) (hj : ((s.proc j).wakeup ch).state = .unused) :
    ((s.proc j).wakeup ch).Clean := by
  unfold Proc.wakeup at hj ⊢
  split at hj
  · cases hj
  · rename_i hne
    rw [if_neg hne]
    exact h.clean j hj

end Tidied

/-! ## What a step does to files -/

theorem got_exiting {pc : Pc} (h : pc.wants p = some i) : pc.got.exiting = pc.exiting := by
  cases pc <;> simp_all [Pc.wants, Pc.got, Pc.exiting]

/-- `exit` is entered by closing the files, and never left. -/
theorem Moves.exiting (hm : s.Moves c p x m) (h : m.pc.exiting = true) :
    (s.pc p).exiting = true ∨ m.edit = .close := by
  cases hm.acts with
  | exec _ hpc _ _ hg =>
    rw [hpc]
    cases hg with
    | exits _ _ => exact .inr rfl
    | wokeInit | readParent _ | noParent _ | reparentKid _ _ | reparentNext _ _ | reparentEnds _
    | reparented | exited => exact .inl rfl
    | _ => cases h
  | revives _ hpc => exact .inl (by rw [hpc]; rfl)
  | awakes _ _ | rescans _ _ => cases h
  | _ => exact .inl h

theorem wakeup_files (v : Proc) (ch : Chan) :
    (v.wakeup ch).ofile = v.ofile ∧ (v.wakeup ch).cwd = v.cwd := by
  unfold Proc.wakeup
  split <;> exact ⟨rfl, rfl⟩

/-- **Files change by their process's own doing**, and where a slot is given
to a child. -/
theorem edit_files {n : ℤ} (hown : ∀ ofile sz fault, m.edit ≠ .own ofile sz fault)
    (hclose : m.edit ≠ .close) (hfork : m.edit ≠ .fork q .ok) :
    (m.edit.apply n p s.proc q).ofile = (s.proc q).ofile ∧
      (m.edit.apply n p s.proc q).cwd = (s.proc q).cwd := by
  have hupdate : ∀ {t : ℕ → Proc} {i : ℕ} {v : Proc},
      (i = q → v.ofile = (t q).ofile ∧ v.cwd = (t q).cwd) →
      (update t i v q).ofile = (t q).ofile ∧ (update t i v q).cwd = (t q).cwd := by
    intro t i v h
    by_cases hqi : q = i
    · subst hqi
      rw [update_self]
      exact h rfl
    · rw [update_of_ne hqi]
      exact ⟨rfl, rfl⟩
  cases he : m.edit with
  | nothing => exact ⟨rfl, rfl⟩
  | own ofile sz fault => exact absurd he (hown ofile sz fault)
  | close => exact absurd he hclose
  | wakeup ch i =>
    refine hupdate fun h => ?_
    subst h
    exact wakeup_files _ _
  | kill i =>
    refine hupdate fun h => ?_
    subst h
    unfold Proc.kill
    split <;> exact ⟨rfl, rfl⟩
  | fork i o =>
    refine hupdate fun h => ?_
    subst h
    cases o with
    | ok => exact absurd he hfork
    | _ => exact ⟨rfl, rfl⟩
  | reparent i | reap addr i | yield | sleep ch | unchan =>
    refine hupdate fun h => ?_
    subst h
    exact ⟨rfl, rfl⟩
  | exit op st =>
    have hwake := hupdate (t := s.proc) (i := op) (v := (s.proc op).wakeup (.proc op)) fun h => by
      subst h
      exact wakeup_files _ _
    by_cases hqp : q = p
    · subst hqp
      simp only [Edit.apply, update_self]
      exact hwake
    · simp only [Edit.apply, update_of_ne hqp]
      exact hwake

/-! ## Every step keeps it -/

theorem closed_step (hctl : s.Control) (hs : s.Step a s')
    (h : ∀ p, (s.pc p).exiting = true → (s.proc p).Closed) (q : ℕ) :
    (s'.pc q).exiting = true → (s'.proc q).Closed := by
  have hsame : ∀ v v' : Proc, v'.ofile = v.ofile ∧ v'.cwd = v.cwd → v.Closed → v'.Closed := by
    rintro v v' ⟨hfile, hcwd⟩ hv
    exact ⟨by rw [hfile]; exact hv.1, by rw [hcwd]; exact hv.2⟩
  refine hs.place (P := fun s q pc => pc.exiting = true → (s.proc q).Closed) hctl ?_ ?_ ?_ ?_ ?_ h q
  · intro s₁ s₂ hp _ q pc hq
    rwa [hp]
  · intro q i pc hw hq hex
    rw [got_exiting hw] at hex
    exact hq hex
  · rintro c p m q he rfl hex
    cases hex
  · intro q hq hpc h hex
    have hcl := h hex
    cases hs with
    | @commit c p x m hc hm _ =>
      have hqp : q ≠ p := fun e => hq c x rfl (by rw [hc, e])
      by_cases hown : ∃ ofile sz fault, m.edit = .own ofile sz fault
      · obtain ⟨ofile, sz, fault, he⟩ := hown
        simpa [ProcSys.commit, he, Edit.apply, hqp] using hcl
      by_cases hclose : m.edit = .close
      · simpa [ProcSys.commit, hclose, Edit.apply, hqp] using hcl
      · refine hsame _ _ (edit_files (fun o z f he => hown ⟨o, z, f, he⟩) hclose fun he => ?_) hcl
        simp only [ProcSys.commit, he, Edit.born, updateAt_some, update_of_ne hqp,
          update_self] at hpc
        rw [← hpc] at hex
        cases hex
    | @pick c i _ _ =>
      by_cases hqi : q = i
      · subst hqi
        simpa [schedAt, ProcSys.pick, Proc.Closed] using hcl
      · simpa [schedAt, ProcSys.pick, hqi] using hcl
    | @visiting k i ch _ _ =>
      by_cases hqi : q = i
      · subst hqi
        simpa [intrAt, leave, wakeupAt] using hsame _ _ (wakeup_files _ ch) hcl
      · simpa [intrAt, leave, wakeupAt, hqi] using hcl
    | _ => exact hcl
  · rintro c p x m - hc hm rfl h hex
    have hf := hm.edit_from
    by_cases hclose : m.edit = .close
    · simp [ProcSys.commit, hclose, Edit.apply, Proc.Closed]
    have hexp := (hm.exiting hex).resolve_right hclose
    refine hsame _ _ (edit_files (fun o z f he => ?_) hclose fun he => ?_) (h hexp)
    · rw [he] at hf
      rw [hf.2.1] at hexp
      cases hexp
    · rw [he] at hf
      rw [hf.2.2.1] at hexp
      cases hexp

/-- A slot that is free after an edit is clean. -/
theorem clean_of_edit {n : ℤ} (hctl : s.Control) (ht : s.Tree) (hv : ∀ q, s.Vigil q (s.pc q))
    (h : s.Tidied) (hc : s.sched c = .out p) (hm : s.Moves c p x m)
    (hcare : s.SlotCare (.run c x)) (hj : (m.edit.apply n p s.proc j).state = .unused) :
    (m.edit.apply n p s.proc j).Clean := by
  have hf := hm.edit_from
  cases he : m.edit with
  | nothing => rw [he] at hj; exact h.clean j hj
  | own ofile sz fault | close | unchan =>
    rw [he] at hj hf
    have hrun := hctl.running c p hc (by simp [hf.1]) (by simp [hf.1])
    refine h.update hj fun hun _ => ?_
    rw [hrun] at hun
    cases hun
  | yield | sleep ch =>
    rw [he] at hj
    exact h.update hj fun hun _ => nomatch hun
  | wakeup ch i =>
    rw [he] at hj
    refine h.update hj fun hun hij => ?_
    subst hij
    exact h.wakeup hun
  | kill i =>
    rw [he] at hj hf
    obtain ⟨-, -, -, pid, hpc, hpid⟩ := hf
    refine h.update hj fun hun hij => ?_
    subst hij
    have hfree : (s.proc i).state = .unused := by
      unfold Proc.kill at hun
      split at hun
      · cases hun
      · exact hun
    have hpid0 : pid ≠ 0 := by simpa [careAt, hpc, hfree] using hcare p hc
    exact absurd (by rw [← hpid, (h.clean i hfree).pid]) hpid0
  | fork i o =>
    have ho := hm.fork_alloc he
    rw [he] at hj hf
    obtain ⟨-, -, hpc, -, hfree⟩ := hf
    have halloc : x.alloc ≠ .noTrapframe := by simpa [careAt, hpc, hfree] using hcare p hc
    refine h.update hj fun hun hij => ?_
    have hclosed := (h.clean i hfree).closed
    cases o with
    | noTrapframe => exact absurd ho.symm halloc
    | noPagetable | noCopy => exact Proc.Closed.freeproc (p := { s.proc i with .. }) hclosed
    | ok => cases hun
  | reparent i =>
    rw [he] at hj hf
    obtain ⟨-, -, st, op, hpc, -⟩ := hf
    have hplace := ht.place p
    rw [hpc] at hplace
    exact h.update hj fun hun _ => absurd hun (ht.live_of_parent hplace.2.2).2
  | exit op st =>
    rw [he] at hj
    have hjp : j ≠ p := by
      rintro rfl
      simp [Edit.apply] at hj
    simp only [Edit.apply, update_of_ne hjp] at hj ⊢
    refine h.update hj fun hun hij => ?_
    subst hij
    exact h.wakeup hun
  | reap addr i =>
    rw [he] at hj hf
    refine h.update hj fun _ _ => ?_
    have hdead := (hv i).1 hf.2.2.2.1
    exact Proc.Closed.freeproc (h.closed i (by rw [hdead]; rfl))

/-- **Every step that meets the condition keeps the slots clean.** -/
theorem Tidied.step (hctl : s.Control) (ht : s.Tree) (hv : ∀ q, s.Vigil q (s.pc q))
    (h : s.Tidied) (hs : s.Step a s') (hcare : s.SlotCare a) : s'.Tidied := by
  refine ⟨fun j hj => ?_, closed_step hctl hs h.closed⟩
  cases hs with
  | commit hc hm _ => exact clean_of_edit hctl ht hv h hc hm hcare hj
  | pick _ _ => exact h.update hj fun hun _ => nomatch hun
  | visiting _ =>
    refine h.update hj fun hun hij => ?_
    subst hij
    exact h.wakeup hun
  | _ => exact h.clean j hj

/-- A slot comes into use by `fork`. -/
theorem Change.eq_fork (hch : s.Change a s') (hi : (s.proc i).state = .unused)
    (hi' : (s'.proc i).state ≠ .unused) (hctl : s.Control) :
    ∃ c p m, m.edit = .fork i .ok ∧ s' = s.commit c p m := by
  cases hch.fate i with
  | stays h _ => exact absurd (h.unused.2 hi) hi'
  | forked _ _ he _ _ _ => exact ⟨_, _, _, he, rfl⟩
  | given _ _ _ hp _ =>
    rw [hp] at hi'
    exact absurd hi hi'
  | exited hc hm he _ _ _ _ _ => exact absurd hi (hctl.live_of_exec hc (hm.edit_at he).1).1
  | freed _ _ _ hp _ => exact absurd (by rw [hp]; rfl) hi'

end ProcSys

theorem tidied_of_reachable (h : (procSystem.restrict ProcSys.SlotCare).Reachable s) :
    s.Tidied := by
  refine h.invariant (fun _ h0 => h0 ▸ ProcSys.Tidied.boot) fun s a s' hr hI hs => ?_
  have hr := hr.of_restrict
  exact hI.step (control_of_reachable hr) (tree_of_reachable hr) (vigil_of_reachable hr)
    (ProcSys.step_of_run hs.2) hs.1

/-- **Slots are clean, with care.** In every state of a run whose steps all
meet the condition, a free slot whose lock is free is clean; a child starts
with `killed` 0; and `kill` finds only a slot in use. -/
theorem slots_clean_with_care (h : (procSystem.restrict ProcSys.SlotCare).Reachable s) :
    s.Hygiene ∧ ∀ a s', s.SlotCare a → procSystem.step s a s' →
      (∀ i, (s.proc i).state = .unused → (s'.proc i).state ≠ .unused →
        (s'.proc i).killed = false) ∧
      ∀ c x p pid i, a = .run c x → s.sched c = .out p → s.pc p = .visiting (.kill pid) i →
        (s.proc i).pid = pid → (s.proc i).state ≠ .unused := by
  have ht := tidied_of_reachable h
  have hctl := control_of_reachable h.of_restrict
  refine ⟨fun i hi _ => ht.clean i hi, fun a s' hcare hstep => ⟨fun i hi hi' => ?_, ?_⟩⟩
  · obtain ⟨c, p, m, he, rfl⟩ := ((ProcSys.step_of_run hstep).change hctl).eq_fork hi hi' hctl
    simpa [ProcSys.commit, he, Edit.apply, Proc.fork] using (ht.clean i hi).killed
  · rintro c x p pid i rfl hc hpc hpid hfree
    have hpid0 : pid ≠ 0 := by simpa [ProcSys.careAt, hpc, hfree] using hcare p hc
    exact hpid0 (by rw [← hpid, (ht.clean i hfree).pid])

/-- A child has come and gone, and its slot is clean again. -/
theorem slots_clean_with_care_child : ∃ s, (procSystem.restrict ProcSys.SlotCare).Reachable s ∧
    (s.proc 1).state = .unused ∧ s.lock 1 = none ∧ s.reaps.length = 1 ∧ (s.proc 1).Clean := by
  obtain ⟨s, hs, hfree, hl, hr⟩ : ∃ s, (procSystem.restrict ProcSys.SlotCare).Reachable s ∧
      (s.proc 1).state = .unused ∧ s.lock 1 = none ∧ s.reaps.length = 1 :=
    System.exists_of_follow_restrict rfl (starts 0 0 ++ calls 0 .fork ++ steps 0 4 ++ starts 1 1 ++ calls 1 (.exit 7) ++ steps 1 74 ++
      schedules 1 1 ++ calls 0 (.wait 64) ++ steps 0 6) (by decide +kernel)
  exact ⟨s, hs, hfree, hl, hr, (slots_clean_with_care hs).1 1 hfree hl⟩

/-- **Slots are not clean.** A `fork` without a page for the trapframe leaves
the pid in the slot, and `kill(0)` marks a free slot as killed; there the
next child starts out killed. -/
theorem slots_not_clean :
    (∃ s, procSystem.Reachable s ∧ (s.proc 1).state = .unused ∧ s.lock 1 = none ∧
      (s.proc 1).pid = 2) ∧
    (∃ s, procSystem.Reachable s ∧ (s.proc 1).state = .unused ∧ s.lock 1 = none ∧
      (s.proc 1).killed = true) ∧
    ∃ s, procSystem.Reachable s ∧ (s.proc 1).state = .runnable ∧ (s.proc 1).parent = some 0 ∧
      (s.proc 1).killed = true := by
  refine ⟨?_, ?_, ?_⟩
  · exact exists_of_procFollow
      (starts 0 0 ++ calls 0 .fork ++ steps 0 3 ++ [.run 0 { alloc := .noTrapframe }])
      (by decide +kernel)
  · exact exists_of_procFollow (starts 0 0 ++ calls 0 (.kill 0) ++ steps 0 4) (by decide +kernel)
  · exact exists_of_procFollow
      (starts 0 0 ++ calls 0 (.kill 0) ++ steps 0 4 ++ calls 0 .fork ++ steps 0 4)
      (by decide +kernel)

end Xv6
