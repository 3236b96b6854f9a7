import Xv6.Proc.Wake
/-!
# Who waits for whose lock

`exit` takes the lock of the parent, its own, and that of each child; `wait`
its own and that of each child: parents before children, so that older
processes come first. It is `exit` that breaks the order. Between reading
its parent and locking that slot, the parent may exit, be reaped, and its
slot go to a grandchild of the exiting process; the slot's lock is then
taken first where it should come last, and the two can wait for each other
for ever. Where no slot is reused under a process that is about to lock it,
there is no circle.
-/

namespace Xv6

open Common Function

variable {s s' : ProcSys} {c p q i j : ℕ} {x : Choice} {m : Move} {a : ProcAct} {b : Agent}

/-- The slot that `exit` has read as its parent's and not yet locked. -/
def Pc.awaits : Pc → Option ℕ
  | .exitParent _ op => some op
  | _ => none

namespace ProcSys

/-- The lock a CPU or a handler spins on. -/
def wantsBy (s : ProcSys) : Agent → Option ℕ
  | .cpu c =>
    match s.sched c with
    | .scan i => if i < NPROC then some i else none
    | .out p => s.wants p
    | _ => none
  | .intr k =>
    match s.intr k with
    | .visit _ i => if i < NPROC then some i else none
    | _ => none

/-- No process is about to lock the slot that `fork` gives to a child. -/
def reuseAt (s : ProcSys) (x : Choice) : Pc → Bool
  | .visiting .allocproc i =>
    decide ((s.proc i).state = .unused → x.alloc = .ok → ∀ q, q < NPROC → (s.pc q).awaits ≠ some i)
  | _ => true

/-- **The condition.** No slot is reused between the reading of it in `exit`
as the parent's and its locking. -/
def NoReuse (s : ProcSys) : ProcAct → Prop
  | .run c x => ∀ p, s.sched c = .out p → s.reuseAt x (s.pc p) = true
  | _ => True

instance (s : ProcSys) : (a : ProcAct) → Decidable (s.NoReuse a)
  | .run c x => inferInstanceAs (Decidable (∀ p, s.sched c = .out p → s.reuseAt x (s.pc p) = true))
  | .schedule _ | .interrupt _ _ => .isTrue trivial

/-- The slot locked as the parent's holds an older process, or did. -/
def Senior (s : ProcSys) (p : ℕ) : Pc → Prop
  | .exitParent _ op | .exitBoth _ op | .reparent _ op _ | .reparentKid _ op _
  | .reparentAt _ op _ | .exitEnd _ op => s.birth op < s.birth p
  | _ => True

theorem Senior.keep {pc : Pc} (h : s.Senior p pc)
    (hb : ∀ op, pc.awaits = some op ∨ op ∈ pc.held p → s'.birth op = s.birth op)
    (hp : s'.birth p = s.birth p) : s'.Senior p pc := by
  cases pc with
  | exitParent st op | exitBoth st op | reparent st op i | reparentKid st op i | reparentAt st op i
  | exitEnd st op =>
    simp only [Senior] at h ⊢
    rw [hb op (by simp [Pc.awaits, Pc.held]), hp]
    exact h
  | _ => trivial

theorem Senior.got {pc : Pc} (hw : pc.wants q = some i) (h : s.Senior q pc) :
    s.Senior q pc.got := by
  cases pc with
  | exitParent _ _ | exitBoth _ _ | reparentKid _ _ _ => exact h
  | visit _ _ | exitInit _ | exitSelf _ | waitSelf _ | waitKid _ _ | sleepSelf _ _ => trivial
  | _ => cases hw

theorem Senior.moves (ht : s.Tree) (hm : s.Moves c p x m) (h : s.Senior p (s.pc p)) :
    s.Senior p m.pc := by
  cases hm.acts with
  | exec _ hpc _ _ hg =>
    rw [hpc] at h
    cases hg with
    | readParent hop => exact ht.birth_lt hop
    | reparentKid _ _ | reparentNext _ _ | reparentEnds _ | reparented => exact h
    | _ => trivial
  | awakes _ _ | rescans _ _ | revives _ _ => trivial
  | _ => exact h

/-- A slot changes its birth when `fork` takes it. -/
theorem birth_of_commit (h : (s.commit c p m).birth i ≠ s.birth i) : m.edit = .fork i .ok := by
  by_cases hb : m.edit.born = some i
  · exact Edit.eq_fork_of_born hb
  · exact absurd (updateAt_of_ne _ _ hb) h

theorem Step.birth (hs : s.Step a s') (h : s'.birth i ≠ s.birth i) :
    ∃ c p x m, a = .run c x ∧ s.sched c = .out p ∧ s.Moves c p x m ∧ m.edit = .fork i .ok ∧
      s' = s.commit c p m := by
  cases hs with
  | @commit c p x m hc hm _ => exact ⟨c, p, x, m, rfl, hc, hm, birth_of_commit h, rfl⟩
  | _ => exact absurd rfl h

/-- **The order is kept**, where no slot is reused too early. -/
theorem Senior.step (hctl : s.Control) (ht : s.Tree) (hv : ∀ q, s.Vigil q (s.pc q))
    (h : ∀ q, s.Senior q (s.pc q)) (hs : s.Step a s') (hcond : s.NoReuse a) (q : ℕ) :
    s'.Senior q (s'.pc q) := by
  refine hs.place (P := Senior) hctl ?_ (fun q i pc hw h => h.got hw) (fun _ _ _ _ _ _ => trivial)
    ?_ ?_ h q
  · intro s₁ s₂ _ hb q pc h
    exact h.keep (fun op _ => by rw [hb]) (by rw [hb])
  · intro q hq hpc h
    by_cases hself : s'.birth q = s.birth q
    · refine h.keep (fun op hop => ?_) hself
      by_contra hne
      obtain ⟨c, p, x, m, rfl, hc, hm, he, rfl⟩ := hs.birth hne
      have halloc := hm.fork_alloc he
      obtain ⟨hsw, -, hpcp, -, hfree⟩ := hm.edit_at he
      rcases hop with hop | hop
      · have hreuse := hcond p hc
        rw [hpcp] at hreuse
        simp only [reuseAt, decide_eq_true_eq] at hreuse
        refine hreuse hfree halloc.symm q ?_ hop
        have hwatch := (hv q).2
        cases hpcq : s.pc q with
        | exitParent st op' =>
          rw [hpcq] at hwatch
          by_contra hlt
          exact hwatch.1 (ht.bound q (by omega))
        | _ => rw [hpcq] at hop; cases hop
      · obtain ⟨hswq, c', hc'⟩ := hctl.exec_of_held (List.ne_nil_of_mem hop)
        have hlock := hctl.lock_of_held hc (i := op) (by simp [held, hsw, Sw.held, hpcp, Pc.held])
        have hlock' := hctl.lock_of_held hc' (i := op) (by simpa [held, hswq, Sw.held] using hop)
        rw [hlock] at hlock'
        cases hlock'
        exact hq c x rfl hc'
    · obtain ⟨c, p, x, m, rfl, hc, hm, he, rfl⟩ := hs.birth hself
      have hqp : q ≠ p := fun e => hq c x rfl (by rw [hc, e])
      simp only [ProcSys.commit, he, Edit.born, updateAt_some, update_of_ne hqp,
        update_self] at hpc
      rw [← hpc]
      trivial
  · rintro c p x m - hc hm rfl h
    have hm' := h.moves ht hm
    by_cases he : ∃ i, m.edit = .fork i .ok
    · obtain ⟨i, he⟩ := he
      have hf := hm.edit_at he
      rw [hf.2.2.2.1]
      trivial
    · have hb : (s.commit c p m).birth = s.birth := by
        funext i
        by_contra hne
        exact he ⟨i, birth_of_commit hne⟩
      exact hm'.keep (fun op _ => by rw [hb]) (by rw [hb])

/-- **Who wants a lock holds only those of older processes.** -/
theorem birth_lt_of_wants (hctl : s.Control) (ht : s.Tree) (h : ∀ q, s.Senior q (s.pc q))
    (hj : s.wantsBy b = some j) (hi : s.lock i = some b) : s.birth i < s.birth j := by
  have hmem := (hctl.owns.iff b i).1 hi
  cases b with
  | intr k =>
    simp only [wantsBy, heldBy] at hj hmem
    cases hk : s.intr k <;> simp_all
  | cpu c =>
    simp only [wantsBy, heldBy] at hj hmem
    cases hc : s.sched c with
    | scan _ => simp_all
    | got _ | save _ | load _ | back _ => rw [hc] at hj; cases hj
    | out p =>
      rw [hc] at hj hmem
      dsimp only [wants, held] at hj hmem
      have hs := h p
      have hplace := ht.place p
      cases hsw : s.sw p with
      | exec =>
        rw [hsw] at hj hmem
        dsimp only [Sw.wants, Sw.held] at hj hmem
        cases hpc : s.pc p with
        | exitBoth st op =>
          rw [hpc] at hj hmem hs
          cases hj
          rw [List.mem_singleton.1 hmem]
          exact hs
        | reparentKid st op k =>
          rw [hpc] at hj hmem hs hplace
          cases hj
          have hlt := ht.birth_lt hplace.2.2
          have hop : s.birth op < s.birth p := hs
          simp only [Pc.held, List.mem_cons, List.not_mem_nil, or_false] at hmem
          rcases hmem with rfl | rfl <;> omega
        | waitKid addr k =>
          rw [hpc] at hj hmem hplace
          cases hj
          rw [List.mem_singleton.1 hmem]
          exact ht.birth_lt hplace
        | _ => simp_all [Pc.wants, Pc.held]
      | _ => simp_all [Sw.wants, Sw.held]

end ProcSys

/-- **No circle of waiting processes**, in any state of a run in which no slot
is reused between its reading as the parent's and its locking. -/
theorem no_deadlock_without_reuse (h : (procSystem.restrict ProcSys.NoReuse).Reachable s)
    (b : Agent) : ¬ Relation.TransGen (Waits s.lock s.wantsBy) b b := by
  have hsenior : ∀ q, s.Senior q (s.pc q) := by
    refine h.invariant (I := fun s => ∀ q, s.Senior q (s.pc q)) ?_ fun s a s' hr hI hs => ?_
    · rintro _ rfl q
      trivial
    · have hr := hr.of_restrict
      exact ProcSys.Senior.step (control_of_reachable hr) (tree_of_reachable hr)
        (vigil_of_reachable hr) hI (ProcSys.step_of_run hs.2) hs.1
  have hctl := control_of_reachable h.of_restrict
  have ht := tree_of_reachable h.of_restrict
  have hlt : ∀ b i j, s.wantsBy b = some j → s.lock i = some b → s.birth i < s.birth j :=
    fun b i j hj hi => ProcSys.birth_lt_of_wants hctl ht hsenior hj hi
  exact not_waits_self hlt b

/-- The processes of the example: `initproc` forks 1, which forks 2, which
forks 3, each on a CPU of its own. -/
def family : List ProcAct :=
  starts 0 0 ++ calls 0 .fork ++ steps 0 4 ++ starts 1 1 ++ calls 1 .fork ++ steps 1 6 ++
    starts 2 2 ++ calls 2 .fork ++ steps 2 8 ++ starts 3 3

/-- Process 2 waits for its child's lock to give it away, and process 3, the
child, for nothing. -/
theorem no_deadlock_without_reuse_family : ∃ s,
    (procSystem.restrict ProcSys.NoReuse).Reachable s ∧ s.wantsBy (.cpu 2) = some 3 ∧
    s.lock 3 = some (.cpu 3) ∧ ¬ Relation.TransGen (Waits s.lock s.wantsBy) (.cpu 2) (.cpu 2) := by
  obtain ⟨s, hs, hw, hl⟩ : ∃ s, (procSystem.restrict ProcSys.NoReuse).Reachable s ∧
      s.wantsBy (.cpu 2) = some 3 ∧ s.lock 3 = some (.cpu 3) :=
    System.exists_of_follow_restrict rfl
      (family ++ calls 2 (.exit 0) ++ steps 2 6 ++ calls 3 (.wait 0) ++ steps 3 1 ++ steps 2 4)
      (by decide +kernel)
  exact ⟨s, hs, hw, hl, no_deadlock_without_reuse hs (.cpu 2)⟩

/-- **A deadlock.** Process 2 reads its parent, process 1, in `exit`. Process 1
exits and is reaped, and process 3, the child of 2, forks into its slot and
waits. Now 2 holds the lock of slot 1 and wants that of 3, to give it away;
3 holds its own, and wants that of its child in slot 1. -/
theorem deadlock_by_reuse : ∃ s, procSystem.Reachable s ∧ s.sched 2 = .out 2 ∧ s.sched 3 = .out 3 ∧
    s.lock 1 = some (.cpu 2) ∧ s.lock 3 = some (.cpu 3) ∧
    Relation.TransGen (Waits s.lock s.wantsBy) (.cpu 2) (.cpu 2) := by
  obtain ⟨s, hs, h2, h3, hl1, hl3, hw2, hw3⟩ := exists_of_procFollow
    (P := fun s => s.sched 2 = .out 2 ∧ s.sched 3 = .out 3 ∧ s.lock 1 = some (.cpu 2) ∧
      s.lock 3 = some (.cpu 3) ∧ s.wantsBy (.cpu 2) = some 3 ∧ s.wantsBy (.cpu 3) = some 1)
    (family ++ calls 2 (.exit 0) ++ steps 2 4 ++ calls 1 (.exit 0) ++ steps 1 76 ++
      schedules 1 1 ++ calls 0 (.wait 0) ++ steps 0 6 ++ calls 3 .fork ++ steps 3 4 ++
      calls 3 (.wait 0) ++ steps 3 3 ++ steps 2 6)
    (by decide +kernel)
  exact ⟨s, hs, h2, h3, hl1, hl3, .tail (.single ⟨3, hw2, hl3⟩) ⟨1, hw3, hl1⟩⟩

end Xv6
