import Xv6.Proc.Wake
/-!
# No lost wakeup in `sleep`

`sleep` takes the lock of the process before it leaves `lk`, and has it until
the process is SLEEPING and switched out; `wakeup` takes the lock of each
slot in turn. Who takes `lk` after that and runs `wakeup` therefore finds the
process asleep when it comes to its slot. The slots it has passed hold nobody
who left `lk` before (`Waking.done`), for a process on its way to sleep there
left `lk` later.
-/

namespace Xv6

open Function

variable {s s' : ProcSys} {c p q i k l n : ℕ} {x : Choice} {m : Move} {a : ProcAct} {o : Owner}
  {ch : Chan}

/-- The channel and the slot that a thread in `wakeup` is at. -/
def Pc.waking : Pc → Option (Chan × ℕ)
  | .visit (.wakeup ch) n | .visiting (.wakeup ch) n => some (ch, n)
  | _ => none

def IntrPc.waking : IntrPc → Option (Chan × ℕ)
  | .visit ch n | .visiting ch n => some (ch, n)
  | .idle => none

namespace ProcSys

/-- The same for the thread of a process, or a handler. -/
def waking (s : ProcSys) : Owner → Option (Chan × ℕ)
  | .proc q => (s.pc q).waking
  | .intr k => (s.intr k).waking

/-- Process `p` has left `l` in `sleep`, and is on its way to sleep or asleep
on `ch`. -/
def Pending (s : ProcSys) (p : ℕ) (ch : Chan) (l : ℕ) : Prop :=
  (∃ ch', s.pc p = .sleepMark ch' l) ∨
    s.pc p = .asleep l ∧ (s.proc p).state = .sleeping ∧ (s.proc p).chan = some ch

/-- **Wakers.** In the slots a waker has passed, nobody sleeps on its channel
who left a lock before the waker took it. -/
structure Waking (s : ProcSys) : Prop where
  past : ∀ o l, s.took o l < s.clock
  /-- `sched` stands between the sleep and the end of `sleep`. -/
  parked : ∀ p l, s.pc p = .asleep l → s.sw p ≠ .exec
  done : ∀ o ch n p l, s.waking o = some (ch, n) → p < n → s.Pending p ch l →
    s.took o l ≤ s.slept p

/-! ## Moves of a waker and of a sleeper -/

theorem got_waking {pc : Pc} (h : pc.wants p = some i) : pc.got.waking = pc.waking := by
  cases pc with
  | visit v j => cases v <;> rfl
  | _ => simp_all [Pc.wants, Pc.got, Pc.waking]

theorem got_ne_sleepMark {pc : Pc} (h : pc.wants p = some i) :
    (∀ ch, pc.got ≠ .sleepMark ch l) ∧ pc.got ≠ .asleep l := by
  cases pc <;> simp_all [Pc.wants, Pc.got]

/-- **A waker's progress**: it starts, stays, or has looked at a slot. -/
theorem Moves.waking (hm : s.Moves c p x m) (h : m.pc.waking = some (ch, n)) :
    n = 0 ∨ (∃ i, s.pc p = .visiting (.wakeup ch) i ∧ n = i + 1 ∧ m.edit = .wakeup ch i ∧
      m.ext = .nothing) ∨ m.pc = s.pc p ∧ m.ext = .nothing := by
  cases hm.acts with
  | exec _ hpc _ _ hg =>
    cases hg with
    | wakes _ => cases h; exact .inl rfl
    | woke => cases h; exact .inr (.inl ⟨_, hpc, rfl, rfl, rfl⟩)
    | _ => cases h
  | awakes _ _ | rescans _ _ | revives _ _ => cases h
  | _ => exact .inr (.inr ⟨rfl, rfl⟩)

/-- **A sleeper's progress**: it leaves the lock, marks itself asleep, or
stays. -/
theorem Moves.pending (hm : s.Moves c p x m)
    (h : (∃ ch, m.pc = .sleepMark ch l) ∨ m.pc = .asleep l) :
    (∃ ch, m.pc = .sleepMark ch l) ∧ m.ext = .drop l ∨
      (∃ ch, s.pc p = .sleepMark ch l) ∧ m.ext = .nothing ∧ m.sw = .save ∨
      m.pc = s.pc p ∧ m.ext = .nothing ∧ (m.edit = .nothing ∨ m.edit = .yield) ∧
        (m.sw = .exec → m.pc ≠ .asleep l) := by
  cases hm.acts with
  | exec _ hpc _ _ hg =>
    cases hg with
    | sleepDrops =>
      rcases h with ⟨ch, h⟩ | h
      · cases h
        exact .inl ⟨⟨_, rfl⟩, rfl⟩
      · cases h
    | sleepMarks =>
      rcases h with ⟨ch, h⟩ | h
      · cases h
      · cases h
        exact .inr (.inl ⟨⟨_, hpc⟩, rfl, rfl⟩)
    | _ => rcases h with ⟨ch, h⟩ | h <;> cases h
  | awakes _ _ | rescans _ _ | revives _ _ => rcases h with ⟨ch, h⟩ | h <;> cases h
  | yield _ => exact .inr (.inr ⟨rfl, rfl, .inr rfl, by simp⟩)
  | resumes _ ha _ _ => exact .inr (.inr ⟨rfl, rfl, .inl rfl, fun _ => ha l⟩)
  | _ => exact .inr (.inr ⟨rfl, rfl, .inl rfl, by simp⟩)

/-! ## Every step keeps it -/

/-- What is still pending was pending. -/
theorem Pending.of_step (hs : s.Step a s') (hq : ∀ c x, a = .run c x → s.sched c ≠ .out q)
    (hpc : s'.pc q = s.pc q) (h : s'.Pending q ch l) : s.Pending q ch l := by
  unfold Pending at h ⊢
  rw [hpc] at h
  rcases h with hmark | ⟨hp, hsl, hch⟩
  · exact .inl hmark
  · obtain ⟨hsl', hchan, -⟩ := hs.undisturbed hq hsl
    exact .inr ⟨hp, hsl', by rw [← hchan, hch]⟩

/-- **A waker that has looked at a slot has left nobody asleep there.** -/
theorem not_pending_of_wakeup (hctl : s.Control) {b : Agent} (hi : i ∈ s.heldBy b)
    (hb : ∀ c, b = .cpu c → s.sched c ≠ .out i) (hpc : s'.pc i = s.pc i)
    (hproc : s'.proc i = (s.proc i).wakeup ch) : ¬ s'.Pending i ch l := by
  rintro (⟨ch', hmark⟩ | ⟨-, hsl, hchan⟩)
  · rw [hpc] at hmark
    obtain ⟨hsw, c', hc'⟩ := hctl.exec_of_held (q := i) (by simp [hmark, Pc.held])
    have hmem : i ∈ s.heldBy (.cpu c') := by simp [heldBy, hc', held, hsw, Sw.held, hmark, Pc.held]
    exact hb c' (hctl.owns.eq_of_mem hi hmem) hc'
  · rw [hproc] at hsl hchan
    unfold Proc.wakeup at hsl hchan
    split at hsl
    · cases hsl
    · rename_i hne
      rw [if_neg hne] at hchan
      exact hne ⟨hsl, hchan⟩

namespace Waking

theorem boot : Waking .boot where
  past _ _ := by simp [ProcSys.boot]
  parked _ _ h := by cases h
  done o ch n p l h := by cases o <;> simp [waking, ProcSys.boot, Pc.waking, IntrPc.waking] at h

end Waking

/-- What a step does to the other locks: whoever makes it takes or leaves
one. -/
theorem Step.ext (hs : s.Step a s') : ∃ (e : Ext) (b : Owner), s.ExtFree b e ∧
    (∀ q, b = .proc q → ∃ c x, a = .run c x ∧ s.sched c = .out q) ∧
    s'.xlock = e.apply s.xlock b ∧ s'.took = e.took s.took b s.clock := by
  cases hs with
  | commit hc _ hext =>
    refine ⟨_, _, hext, fun q hq => ?_, rfl, rfl⟩
    cases hq
    exact ⟨_, _, rfl, hc⟩
  | intrCall _ hext _ => exact ⟨_, _, hext, by simp, rfl, rfl⟩
  | _ => exact ⟨.nothing, .intr 0, trivial, by simp, rfl, rfl⟩

/-- A lock stays with a process that does nothing. -/
theorem Step.xlock_of_ne (hs : s.Step a s') (hq : ∀ c x, a = .run c x → s.sched c ≠ .out q)
    (h : s.xlock l = some (.proc q)) : s'.xlock l = some (.proc q) := by
  obtain ⟨e, b, hfree, hb, hx, -⟩ := hs.ext
  have hne : b ≠ .proc q := fun e => by
    obtain ⟨c, x, ha, hc⟩ := hb q e
    exact hq c x ha hc
  rw [hx]
  cases e with
  | nothing => exact h
  | take l' | drop l' =>
    have hl : l ≠ l' := by
      rintro rfl
      simp [ExtFree, h, eq_comm, hne] at hfree
    rw [Ext.apply, update_of_ne hl, h]

/-- A lock taken in a step is taken at its time. -/
theorem Step.took (hs : s.Step a s') (o : Owner) (l : ℕ) :
    s'.took o l = s.took o l ∨ s'.took o l = s.clock := by
  obtain ⟨e, b, -, -, -, ht⟩ := hs.ext
  rw [ht]
  cases e with
  | take l' => by_cases ho : o = b <;> by_cases hl : l = l' <;> simp [Ext.took, ho, hl]
  | _ => exact .inl rfl

/-- **A sleeper before a step** was pending as well, or has just left its
lock. -/
theorem Pending.before (hs : s.Step a s') (hctl : s.Control) (hp : s'.Pending q ch l) :
    s.Pending q ch l ∧ s'.slept q = s.slept q ∨ s'.slept q = s.clock := by
  cases hs.turn hctl q with
  | rests hq hr => exact .inl ⟨hp.of_step hs hq hr.pc, hr.slept⟩
  | stays hproc _ _ hr =>
    unfold Pending at hp ⊢
    rw [hr.pc, hproc] at hp
    exact .inl ⟨hp, hr.slept⟩
  | got _ _ _ hw hpc _ =>
    unfold Pending at hp
    rw [hpc] at hp
    rcases hp with ⟨ch', hp⟩ | ⟨hp, -⟩
    · exact absurd hp ((got_ne_sleepMark hw).1 ch')
    · exact absurd hp (got_ne_sleepMark hw).2
  | born _ _ hpc =>
    unfold Pending at hp
    rw [hpc] at hp
    rcases hp with ⟨ch', hp⟩ | ⟨hp, -⟩ <;> cases hp
  | @moves c x m hc hm hpc =>
    unfold Pending at hp ⊢
    rw [hpc] at hp
    rcases hm.pending (hp.imp_right And.left) with ⟨-, hx⟩ | ⟨hmark, hx, -⟩ | ⟨heq, hx, he, -⟩
    · exact .inr (by simp [ProcSys.commit, hx])
    · exact .inl ⟨.inl hmark, by simp [ProcSys.commit, hx]⟩
    refine .inl ⟨?_, by simp [ProcSys.commit, hx]⟩
    rw [heq] at hp
    rcases hp with hmark | ⟨hpcq, hsl, hch⟩
    · exact .inl hmark
    rcases he with he | he
    · simp only [ProcSys.commit, he, Edit.apply] at hsl hch
      exact .inr ⟨hpcq, hsl, hch⟩
    · simp [ProcSys.commit, he, Edit.apply] at hsl

/-- **A waker before a step** was at the same slot, or at the one it has left
with nobody asleep there. -/
def WasWaking (s s' : ProcSys) (o : Owner) (ch : Chan) (n : ℕ) : Prop :=
  s'.took o = s.took o ∧ (s.waking o = some (ch, n) ∨
    ∃ i, n = i + 1 ∧ s.waking o = some (ch, i) ∧ ∀ l, ¬ s'.Pending i ch l)

theorem wasWaking_proc (hs : s.Step a s') (hctl : s.Control)
    (hw : (s'.pc q).waking = some (ch, n)) (hn : 0 < n) : WasWaking s s' (.proc q) ch n := by
  cases hs.turn hctl q with
  | rests _ hr | stays _ _ _ hr => exact ⟨hr.took, .inl (by rw [← hw, hr.pc, waking])⟩
  | got _ _ _ hwant hpc htook =>
    exact ⟨htook, .inl (by rw [← hw, hpc, got_waking hwant, waking])⟩
  | born _ _ hpc => simp [hpc, Pc.waking] at hw
  | @moves c x m hc hm hpc =>
    have htook : ∀ hx : m.ext = .nothing, (s.commit c q m).took = s.took := fun hx => by
      simp [ProcSys.commit, hx, Ext.took]
    rw [hpc] at hw
    rcases hm.waking hw with hn | ⟨i, hpci, hn, he, hx⟩ | ⟨heq, hx⟩
    · omega
    · refine ⟨by rw [htook hx], .inr ⟨i, hn, by simp [waking, hpci, Pc.waking], fun l hp => ?_⟩⟩
      have hsw := (hctl.exec_of_held (q := q) (by simp [hpci, Pc.held])).1
      have hiq : i ≠ q := by
        rintro rfl
        unfold Pending at hp
        rw [hpc] at hp
        rcases hp with ⟨ch', hp⟩ | ⟨hp, -⟩ <;> rw [hp] at hw <;> cases hw
      refine not_pending_of_wakeup hctl (b := .cpu c) ?_ ?_ ?_ ?_ hp
      · simp [heldBy, hc, held, hsw, Sw.held, hpci, Pc.held]
      · intro c' hcc hc'
        cases hcc
        rw [hc] at hc'
        cases hc'
        exact hiq rfl
      · simp [ProcSys.commit, he, Edit.born, hiq]
      · simp [ProcSys.commit, he, Edit.apply]
    · exact ⟨by rw [htook hx], .inl (by rw [waking, ← heq, hw])⟩

theorem wasWaking_intr (hs : s.Step a s') (hctl : s.Control)
    (hw : (s'.intr k).waking = some (ch, n)) (hn : 0 < n) : WasWaking s s' (.intr k) ch n := by
  cases hs with
  | commit _ _ _ => exact ⟨took_of_ne (by simp), .inl hw⟩
  | @intrCall k' call pc hk _ hpc =>
    by_cases hkk : k = k'
    · subst hkk
      -- a call starts at the first slot
      rcases hpc with rfl | ⟨ch', rfl⟩ <;> simp [intrAt, IntrPc.waking] at hw
      omega
    · refine ⟨?_, .inl (by simpa [waking, intrAt, ProcSys.intrCall, hkk] using hw)⟩
      simp only [intrAt, ProcSys.intrCall]
      cases intrExt call with
      | take l' => simp [Ext.took, hkk]
      | _ => rfl
  | @visit k' i ch' call hk _ _ =>
    refine ⟨rfl, .inl ?_⟩
    by_cases hkk : k = k'
    · subst hkk
      simpa [intrAt, IntrPc.waking, waking, hk] using hw
    · simpa [waking, intrAt, lockBy, hkk] using hw
  | @visited k' i ch' call hk _ =>
    have hkk : k ≠ k' := by
      rintro rfl
      simp [intrAt, IntrPc.waking] at hw
    exact ⟨rfl, .inl (by simpa [waking, intrAt, hkk] using hw)⟩
  | @visiting k' i ch' call hk =>
    by_cases hkk : k = k'
    · subst hkk
      simp only [intrAt, update_self, IntrPc.waking, Option.some.injEq, Prod.mk.injEq] at hw
      obtain ⟨rfl, rfl⟩ := hw
      refine ⟨rfl, .inr ⟨i, rfl, by simp [waking, hk, IntrPc.waking], fun l => ?_⟩⟩
      refine not_pending_of_wakeup hctl (b := .intr k) ?_ (by simp) rfl ?_
      · simp [heldBy, hk]
      · simp [intrAt, leave, wakeupAt]
    · exact ⟨rfl, .inl (by simpa [waking, intrAt, leave, wakeupAt, hkk] using hw)⟩
  | _ => exact ⟨rfl, .inl hw⟩

/-- **Every step keeps it.** -/
theorem Waking.step (h : s.Waking) (hctl : s.Control) (hs : s.Step a s') : s'.Waking where
  past o l := by
    have := h.past o l
    rw [hs.clock]
    rcases hs.took o l with ht | ht <;> omega
  parked q l hp he := by
    cases hs.turn hctl q with
    | rests _ hr | stays _ _ _ hr => exact h.parked q l (hr.pc ▸ hp) (hr.exec he)
    | got _ _ _ hw hpc _ => exact (got_ne_sleepMark hw).2 (hpc ▸ hp)
    | born _ _ hpc =>
      rw [hpc] at hp
      cases hp
    | @moves c x m hc hm hpc =>
      rw [hpc] at hp
      have he : m.sw = .exec := by simpa [ProcSys.commit] using he
      rcases hm.pending (.inr hp) with ⟨⟨ch, hmark⟩, -⟩ | ⟨-, -, hsw⟩ | ⟨-, -, -, hne⟩
      · rw [hp] at hmark
        cases hmark
      · rw [he] at hsw
        cases hsw
      · exact hne he hp
  done o ch n q l hw hq hp := by
    have hwas : WasWaking s s' o ch n := by
      cases o with
      | proc r => exact wasWaking_proc hs hctl hw (by omega)
      | intr k => exact wasWaking_intr hs hctl hw (by omega)
    obtain ⟨htook, hwas⟩ := hwas
    rw [htook]
    rcases hp.before hs hctl with ⟨hp', hslept⟩ | hslept
    · rw [hslept]
      rcases hwas with hw' | ⟨i, rfl, hw', hnone⟩
      · exact h.done o ch n q l hw' hq hp'
      · have hqi : q ≠ i := fun e => hnone l (e ▸ hp)
        exact h.done o ch i q l hw' (by omega) hp'
    · rw [hslept]
      exact Nat.le_of_lt (h.past o l)

/-! ## The last step of `wakeup` and of `sleep` -/

/-- A process that leaves `wakeup` has been at every slot, and does nothing
else in that step. -/
theorem Moves.woken (hm : s.Moves c p x m) (hw : (s.pc p).waking = some (ch, n))
    (hend : m.pc.waking = none) : NPROC ≤ n ∧ m = { pc := .user } := by
  cases hm.acts with
  | exec _ hpc hwant _ hg =>
    rw [hpc] at hw
    cases hg with
    | @loopEnds v i =>
      cases v with
      | wakeup ch' =>
        cases hw
        simp only [Pc.wants, ite_eq_right_iff, reduceCtorEq, imp_false] at hwant
        exact ⟨by omega, rfl⟩
      | _ => cases hw
    | woke => cases hend
    | stands hs =>
      obtain ⟨l, rfl⟩ | ⟨addr, rfl⟩ | rfl := Pc.parked_of_stands hs hwant <;> cases hw
    | _ => cases hw
  | awakes _ hpc | rescans _ hpc | revives _ hpc => rw [hpc] at hw; cases hw
  | _ => rw [hw] at hend; cases hend

/-- The process or handler that makes a step. -/
def actor (s : ProcSys) : ProcAct → Option Owner
  | .run c _ => match s.sched c with
    | .out p => some (.proc p)
    | _ => none
  | .schedule _ => none
  | .interrupt k _ => some (.intr k)

theorem actor_run (hc : s.sched c = .out p) : s.actor (.run c x) = some (.proc p) := by
  simp [actor, hc]

/-- The step that ends the loop of `wakeup` changes nothing else. -/
structure Woken (s s' : ProcSys) (o : Owner) (n : ℕ) : Prop where
  all : NPROC ≤ n
  self : ∀ q, o = .proc q → s'.pc q = .user
  pc : ∀ q, o ≠ .proc q → s'.pc q = s.pc q
  proc : s'.proc = s.proc
  slept : s'.slept = s.slept
  took : s'.took = s.took

theorem Step.woken (hs : s.Step a s') (ha : s.actor a = some o)
    (hw : s.waking o = some (ch, n)) (hend : s'.waking o = none) : Woken s s' o n := by
  cases hs with
  | relock _ =>
    have : s.waking o = none := by cases o <;> exact hend
    rw [hw] at this
    cases this
  | @acquire c r i x hc hwant _ =>
    rw [actor_run hc] at ha
    cases ha
    simp only [waking] at hw hend
    by_cases hsw : s.sw r = .exec
    · have hwr : (s.pc r).wants r = some i := by simpa [wants, hsw, Sw.wants] using hwant
      simp [threadGot, lockBy, hsw, got_waking hwr, hw] at hend
    · simp [threadGot, lockBy, hsw, hw] at hend
  | @commit c r x m hc hm _ =>
    rw [actor_run hc] at ha
    cases ha
    obtain ⟨hn, rfl⟩ := hm.woken hw (by simpa [waking, ProcSys.commit] using hend)
    refine ⟨hn, fun q hq => ?_, fun q hq => ?_, rfl, rfl, rfl⟩
    · cases hq
      simp [ProcSys.commit]
    have hqr : q ≠ r := fun e => hq (by rw [e])
    simp [ProcSys.commit, hqr, Edit.born]
  | scan _ _ _ | wrap _ | pick _ _ | skip _ | save _ | load _ | back _ => cases ha
  | intrCall hk _ _ =>
    cases ha
    simp [waking, hk, IntrPc.waking] at hw
  | visit hk _ _ | visiting hk =>
    cases ha
    simp [waking, intrAt, IntrPc.waking] at hend
  | @visited k i ch' call hk hn =>
    cases ha
    simp only [waking, hk, IntrPc.waking, Option.some.injEq, Prod.mk.injEq] at hw
    exact ⟨by omega, by simp, fun q _ => rfl, rfl, rfl, rfl⟩

/-- **`wakeup` returns**: nobody is left asleep who left a lock before the
waker took it. -/
theorem awake_of_woken (h : s.Waking) (ht : s.Tree) (hs : s.Step a s') (ha : s.actor a = some o)
    (hw : s.waking o = some (ch, n)) (hend : s'.waking o = none) (hp : s'.pc p = .asleep l)
    (hlt : s'.slept p < s'.took o l) :
    ¬ ((s'.proc p).state = .sleeping ∧ (s'.proc p).chan = some ch) := by
  rintro ⟨hsl, hch⟩
  obtain ⟨hn, hself, hpc, hproc, hslept, htook⟩ := hs.woken ha hw hend
  rw [hproc] at hsl hch
  rw [hslept, htook] at hlt
  have hbound : p < NPROC := by_contra fun hp => by
    have := ht.bound p (by omega)
    rw [hsl] at this
    cases this
  by_cases ho : o = .proc p
  · subst ho
    rw [hself p rfl] at hp
    cases hp
  · rw [hpc p ho] at hp
    have := h.done o ch n p l hw (by omega) (.inr ⟨hp, hsl, hch⟩)
    omega

end ProcSys

/-- The lock that `sleep`, where a thread is in it, has to return with. -/
def Pc.sleeping : Pc → Option ℕ
  | .sleepSelf _ l | .sleepAt _ l | .sleepMark _ l | .asleep l | .sleepLock l => some l
  | _ => none

namespace ProcSys

theorem Moves.slept (h : s.Waking) (hm : s.Moves c p x m) (hl : (s.pc p).sleeping = some l)
    (hend : m.pc.sleeping = none) : m = { ext := .take l, pc := .user } := by
  cases hm.acts with
  | exec hsw hpc hwant _ hg =>
    have hparked := h.parked p
    rw [hpc] at hl hparked
    cases hg with
    | sleepDrops | sleepMarks => cases hend
    | sleepTakes => cases hl; rfl
    | stands hs =>
      obtain ⟨l', rfl⟩ | ⟨addr, rfl⟩ | rfl := Pc.parked_of_stands hs hwant
      · exact absurd hsw (hparked l' rfl)
      · cases hl
      · cases hl
    | _ => cases hl
  | awakes _ _ => cases hend
  | rescans _ hpc | revives _ hpc => rw [hpc] at hl; cases hl
  | _ => rw [hl] at hend; cases hend

/-- **`sleep` returns**: with `lk`, and without the lock of the process. -/
theorem locks_of_slept (h : s.Waking) (hctl' : s'.Control) (hs : s.Step (.run c x) s')
    (hc : s.sched c = .out p) (hl : (s.pc p).sleeping = some l)
    (hend : (s'.pc p).sleeping = none) :
    s'.xlock l = some (.proc p) ∧ s'.lock p ≠ some (.cpu c) := by
  cases hs with
  | relock _ =>
    change (s.pc p).sleeping = none at hend
    rw [hl] at hend
    cases hend
  | @acquire _ r i _ hc' hw _ =>
    rw [hc] at hc'
    cases hc'
    by_cases hsw : s.sw p = .exec
    · have hwp : (s.pc p).wants p = some i := by simpa [wants, hsw, Sw.wants] using hw
      cases hpc : s.pc p <;> simp_all [threadGot, lockBy, Pc.sleeping, Pc.got]
    · simp [threadGot, lockBy, hsw, hl] at hend
  | @commit _ r _ m hc' hm _ =>
    rw [hc] at hc'
    cases hc'
    have := hm.slept h hl (by simpa [ProcSys.commit] using hend)
    subst this
    refine ⟨by simp [ProcSys.commit, Ext.apply], fun hlock => ?_⟩
    have hmem := (hctl'.owns.iff _ _).1 hlock
    simp [heldBy, ProcSys.commit, hc, held, Sw.held, Pc.held] at hmem

end ProcSys

theorem waking_of_reachable (h : procSystem.Reachable s) : s.Waking := by
  refine h.invariant (I := ProcSys.Waking) ?_ fun s a s' hr hI hs => ?_
  · rintro _ rfl
    exact ProcSys.Waking.boot
  · exact hI.step (control_of_reachable hr) (ProcSys.step_of_run hs)

/-- **`sleep` misses no wakeup.** When `wakeup(chan)` returns, no process is
SLEEPING on the channel from a call of `sleep` that left `lk` before the waker
took it; and `sleep` returns with `lk` and without the lock of the process. -/
theorem sleep_misses_no_wakeup (h : procSystem.Reachable s) (hs : procSystem.step s a s') :
    (∀ o ch n p l, s.actor a = some o → s.waking o = some (ch, n) → s'.waking o = none →
      s'.pc p = .asleep l → s'.slept p < s'.took o l →
      ¬ ((s'.proc p).state = .sleeping ∧ (s'.proc p).chan = some ch)) ∧
    ∀ c x p l, a = .run c x → s.sched c = .out p → (s.pc p).sleeping = some l →
      (s'.pc p).sleeping = none → s'.xlock l = some (.proc p) ∧ s'.lock p ≠ some (.cpu c) := by
  have hwak := waking_of_reachable h
  have hstep := ProcSys.step_of_run hs
  refine ⟨fun o ch n p l ha hw hend hp hlt => ?_, ?_⟩
  · exact ProcSys.awake_of_woken hwak (tree_of_reachable h) hstep ha hw hend hp hlt
  · rintro c x p l rfl hc hl hend
    exact ProcSys.locks_of_slept hwak (hstep.control (control_of_reachable h)) hstep hc hl hend

/-- `initproc` sleeps on an address with lock 5; its child takes lock 5 and
wakes it. In the last step of `wakeup` it is RUNNABLE, still in `sleep`. -/
theorem sleep_misses_no_wakeup_child : ∃ s s', procSystem.Reachable s ∧
    procSystem.step s (.run 1 {}) s' ∧ s.waking (.proc 1) = some (.addr 9, 64) ∧
    s'.waking (.proc 1) = none ∧ s'.pc 0 = .asleep 5 ∧ s'.slept 0 < s'.took (.proc 1) 5 ∧
    ¬ ((s'.proc 0).state = .sleeping ∧ (s'.proc 0).chan = some (.addr 9)) := by
  obtain ⟨s, hs, hen, ha, hw, hend, hp, hlt⟩ := exists_of_procFollow
    (P := fun s =>
      let s' := (ProcAct.run 1 {}).next s
      (ProcAct.run 1 {}).Enabled s ∧ s.actor (.run 1 {}) = some (.proc 1) ∧
        s.waking (.proc 1) = some (.addr 9, 64) ∧ s'.waking (.proc 1) = none ∧
        s'.pc 0 = .asleep 5 ∧ s'.slept 0 < s'.took (.proc 1) 5)
    (starts 0 0 ++ calls 0 .fork ++ steps 0 4 ++ calls 0 (.take 5) ++
      calls 0 (.sleep (.addr 9) 5) ++ steps 0 5 ++ schedules 0 1 ++ starts 1 1 ++
      calls 1 (.take 5) ++ calls 1 (.wakeup (.addr 9)) ++ steps 1 128)
    (by decide +kernel)
  have hstep : procSystem.step s (.run 1 {}) ((ProcAct.run 1 {}).next s) := ⟨hen, rfl⟩
  exact ⟨s, _, hs, hstep, hw, hend, hp, hlt,
    (sleep_misses_no_wakeup hs hstep).1 _ _ _ 0 5 ha hw hend hp hlt⟩

end Xv6
