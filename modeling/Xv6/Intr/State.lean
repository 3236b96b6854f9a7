import Xv6.Intr.Model
import Mathlib.Data.List.Chain
/-!
# Interrupt state belongs to the thread

`noff` of a CPU is the depth of the thread it runs, and `intena`, while a
process runs at a depth above 0, is what that process found when it left
depth 0. The switches hand both over: at depth 1, with `intena` kept in
`sched`. The scheduler has no such claim on `intena`: it gets it back as
the process left it.
-/

namespace Xv6

open Common Function List

namespace Intr

/-- An interrupt comes only where interrupts are on, so `push_off`, where
one has stopped it, has seen them on; and only an interrupt stops it. -/
def Nested (l : List Frame) : Prop :=
  l.IsChain fun a b => (a = .trap → b ≠ .pend false) ∧ (a ≠ .trap → b = .trap)

/-- A CPU and the thread it runs. -/
structure Runs (k : Cpu) (t : Thread) : Prop where
  depth : k.noff = t.depth
  off : 0 < k.noff → k.intr = false
  old : t.busy = true → k.intr = t.old
  nested : Nested t.stack

/-- While a process runs, `intena` is its own. -/
structure Owns (k : Cpu) (t : Thread) : Prop where
  intena : 0 < t.depth → ∀ b, t.entry = some b → k.intena = b
  entry : 0 < t.depth → t.fresh = false → t.entry.isSome = true

/-- A thread that has been switched from. -/
structure Away (t : Thread) : Prop where
  depth : t.depth = 1
  busy : t.busy = false
  nested : Nested t.stack

/-- **What holds of every CPU and every process.** -/
structure Inv (s : State) : Prop where
  runs : ∀ c, Runs (s.cpu c) (s.here c)
  owns : ∀ c p, (s.cpu c).proc = some p → Owns (s.cpu c) (s.thread (.process p))
  running : ∀ c p, (s.cpu c).proc = some p → s.ctx p = .running c
  under : ∀ c p, (s.cpu c).proc = some p → Away (s.thread (.scheduler c))
  waiting : ∀ p i, s.ctx p = .waiting i → Away (s.thread (.process p)) ∧
    (∀ b, (s.thread (.process p)).entry = some b → i = some b) ∧
    ((s.thread (.process p)).fresh = false → (s.thread (.process p)).entry.isSome = true)

variable {s s' : State} {c : ℕ} {k : Cpu} {t : Thread}

theorem Init.inv (h : Init s) : Inv s := by
  have hcur : ∀ c, s.here c = {} := fun c => by
    rw [State.here, State.cur, (h.cpu c).2]
    exact h.scheduler c
  have hproc : ∀ c p, (s.cpu c).proc ≠ some p := fun c p => by
    rw [(h.cpu c).2]
    exact (Option.some_ne_none p).symm
  refine ⟨fun c => ?_, fun c p hp => absurd hp (hproc c p), fun c p hp => absurd hp (hproc c p),
    fun c p hp => absurd hp (hproc c p), fun p i hi => ?_⟩
  · rw [hcur]
    refine ⟨(h.cpu c).1, fun h0 => ?_, fun h0 => Bool.noConfusion h0, isChain_nil⟩
    rw [(h.cpu c).1] at h0
    exact absurd h0 (Nat.lt_irrefl 0)
  · rw [h.process]
    exact ⟨⟨rfl, rfl, isChain_nil⟩, fun b hb => (by cases hb), fun hf => (by cases hf)⟩

namespace Inv

/-- No thread runs on two CPUs. -/
theorem cur_inj (h : Inv s) {c c' : ℕ} (heq : s.cur c = s.cur c') : c = c' := by
  simp only [State.cur] at heq
  split at heq
  · split at heq
    · injection heq
    · cases heq
  · rename_i p hp
    split at heq
    · cases heq
    · rename_i p' hp'
      injection heq with hpp
      subst hpp
      have := (h.running c p hp).symm.trans (h.running c' p hp')
      injection this

/-- **A thread takes a step of its own**: its CPU and it still agree, and
nobody else notices. -/
theorem put (h : Inv s) (hr : Runs k t) (ho : Owns (s.cpu c) (s.here c) → Owns k t)
    (hk : k.proc = (s.cpu c).proc) (lock : Lk → Option ℕ) :
    Inv { s.put c k t with lock } := by
  have hproc : ∀ d, (update s.cpu c k d).proc = (s.cpu d).proc := by
    intro d
    by_cases hd : d = c
    · rw [hd, update_self, hk]
    · rw [update_of_ne hd]
  have hcur : ∀ d, State.cur { s.put c k t with lock } d = s.cur d := by
    intro d
    simp only [State.cur, State.put, hproc]
  -- a thread that is not running is not this one
  have haway : ∀ w, w ≠ s.cur c → update s.thread (s.cur c) t w = s.thread w := fun w hw =>
    update_of_ne hw ..
  refine ⟨fun d => ?_, fun d p hp => ?_, fun d p hp => ?_, fun d p hp => ?_, fun p i hi => ?_⟩
  · rw [State.here, hcur]
    by_cases hd : d = c
    · subst hd
      simpa only [State.put, update_self] using hr
    · have hne : s.cur d ≠ s.cur c := fun heq => hd (h.cur_inj heq)
      simp only [State.put, update_of_ne hd, haway _ hne]
      exact h.runs d
  · change (update s.cpu c k d).proc = some p at hp
    rw [hproc] at hp
    by_cases hd : d = c
    · subst hd
      have hw : Who.process p = s.cur d := by rw [State.cur, hp]
      simp only [State.put, hw, update_self]
      refine ho ?_
      rw [State.here, ← hw]
      exact h.owns d p hp
    · have hne : Who.process p ≠ s.cur c := by
        intro heq
        have hw : s.cur d = .process p := by rw [State.cur, hp]
        exact hd (h.cur_inj (hw.trans heq))
      simp only [State.put, update_of_ne hd, haway _ hne]
      exact h.owns d p hp
  · change (update s.cpu c k d).proc = some p at hp
    rw [hproc] at hp
    exact h.running d p hp
  · change (update s.cpu c k d).proc = some p at hp
    rw [hproc] at hp
    have hne : Who.scheduler d ≠ s.cur c := by
      intro heq
      simp only [State.cur] at heq
      split at heq
      · rename_i hnone
        injection heq with hdc
        subst hdc
        rw [hnone] at hp
        cases hp
      · cases heq
    simp only [State.put, haway _ hne]
    exact h.under d p hp
  · have hne : Who.process p ≠ s.cur c := by
      intro heq
      simp only [State.cur] at heq
      split at heq
      · cases heq
      · rename_i p' hp'
        injection heq with hpp
        subst hpp
        have := (h.running c p hp').symm.trans hi
        cases this
    simp only [State.put, haway _ hne]
    exact h.waiting p i hi

/-- **A process gives up its CPU.** -/
theorem sched (h : Inv s) {p : ℕ} (hp : (s.cpu c).proc = some p) (hb : (s.here c).busy = false)
    (hrun : s.sched c p = .ok s') : Inv s' := by
  simp only [State.sched] at hrun
  split at hrun
  · cases hrun
  split at hrun
  · cases hrun
  rename_i hnoff
  split at hrun
  · cases hrun
  rename_i hintr
  cases hrun
  have hcur : s.cur c = .process p := by rw [State.cur, hp]
  have hr := h.runs c
  have ho := h.owns c p hp
  have hdepth := hr.depth
  simp only [State.here, hcur] at hr hb hdepth
  have hone : (s.thread (.process p)).depth = 1 := by
    rw [← hdepth]
    exact not_not.1 hnoff
  have hother : ∀ d, d ≠ c → State.cur { s with
      cpu := update s.cpu c { s.cpu c with proc := none }
      ctx := update s.ctx p (.waiting (some (s.cpu c).intena)) } d = s.cur d := by
    intro d hd
    simp only [State.cur, update_of_ne hd]
  refine ⟨fun d => ?_, fun d q hq => ?_, fun d q hq => ?_, fun d q hq => ?_, fun q i hi => ?_⟩
  · by_cases hd : d = c
    · subst hd
      have hu := h.under d p hp
      simp only [State.here, State.cur, update_self]
      refine ⟨?_, fun _ => ?_, fun hbusy => ?_, hu.nested⟩
      · rw [hu.depth]
        exact not_not.1 hnoff
      · simpa using hintr
      · rw [hu.busy] at hbusy
        cases hbusy
    · rw [State.here, hother d hd]
      simp only [update_of_ne hd]
      exact h.runs d
  · by_cases hd : d = c
    · subst hd
      simp only [update_self] at hq
      cases hq
    · simp only [update_of_ne hd] at hq ⊢
      exact h.owns d q hq
  · by_cases hd : d = c
    · subst hd
      simp only [update_self] at hq
      cases hq
    · simp only [update_of_ne hd] at hq
      have hrun := h.running d q hq
      have hqp : q ≠ p := by
        rintro rfl
        have := hrun.symm.trans (h.running c q hp)
        injection this with hdc
        exact hd hdc
      simp only [update_of_ne hqp]
      exact hrun
  · by_cases hd : d = c
    · subst hd
      simp only [update_self] at hq
      cases hq
    · simp only [update_of_ne hd] at hq
      exact h.under d q hq
  · by_cases hqp : q = p
    · subst hqp
      simp only [update_self] at hi
      injection hi with hi
      refine ⟨⟨hone, hb, hr.nested⟩, fun b hentry => ?_, ?_⟩
      · rw [← hi, ho.intena (by omega) b hentry]
      · exact ho.entry (by omega)
    · simp only [update_of_ne hqp] at hi
      exact h.waiting q i hi

/-- **The scheduler switches to a process.** -/
theorem resume (h : Inv s) {p : ℕ} (hm : (Act.resume c p).Matched s) : Inv (s.resume c p) := by
  obtain ⟨hp, hstack, hheld, hoffs, hsaved⟩ := hm
  have hcur : s.cur c = .scheduler c := by rw [State.cur, hp]
  have hr := h.runs c
  rw [State.here, hcur] at hstack hheld hoffs
  simp only [State.here, hcur] at hr
  have hsched : Away (s.thread (.scheduler c)) := by
    refine ⟨?_, ?_, hr.nested⟩
    · rw [Thread.depth, hheld, hoffs]
      rfl
    · rw [Thread.busy, hstack]
  obtain ⟨i, hi⟩ : ∃ i, s.ctx p = .waiting i := by
    cases hctx : s.ctx p with
    | waiting i => exact ⟨i, rfl⟩
    | running d =>
      rw [hctx] at hsaved
      cases hsaved
  obtain ⟨haway, hentry, hfresh⟩ := h.waiting p i hi
  have hother : ∀ d, d ≠ c → State.cur (s.resume c p) d = s.cur d := by
    intro d hd
    simp only [State.cur, State.resume, update_of_ne hd]
  have hself : State.cur (s.resume c p) c = .process p := by
    simp only [State.cur, State.resume, update_self]
  refine ⟨fun d => ?_, fun d q hq => ?_, fun d q hq => ?_, fun d q hq => ?_, fun q j hj => ?_⟩
  · by_cases hd : d = c
    · subst hd
      rw [State.here, hself]
      simp only [State.resume, update_self]
      refine ⟨?_, hr.off, fun hbusy => ?_, haway.nested⟩
      · rw [haway.depth, hr.depth, hsched.depth]
      · rw [haway.busy] at hbusy
        cases hbusy
    · rw [State.here, hother d hd]
      simp only [State.resume, update_of_ne hd]
      exact h.runs d
  · by_cases hd : d = c
    · subst hd
      simp only [State.resume, update_self] at hq ⊢
      injection hq with hq
      subst hq
      refine ⟨fun _ b hb => ?_, fun _ => hfresh⟩
      rw [hi, hentry b hb]
    · simp only [State.resume, update_of_ne hd] at hq ⊢
      exact h.owns d q hq
  · by_cases hd : d = c
    · subst hd
      simp only [State.resume, update_self] at hq ⊢
      injection hq with hq
      rw [hq, update_self]
    · simp only [State.resume, update_of_ne hd] at hq ⊢
      have hrun := h.running d q hq
      have hqp : q ≠ p := by
        rintro rfl
        rw [hi] at hrun
        cases hrun
      rw [update_of_ne hqp]
      exact hrun
  · by_cases hd : d = c
    · subst hd
      exact hsched
    · simp only [State.resume, update_of_ne hd] at hq
      exact h.under d q hq
  · have hqp : q ≠ p := by
      rintro rfl
      simp only [State.resume, update_self] at hj
      cases hj
    simp only [State.resume, update_of_ne hqp] at hj
    exact h.waiting q j hj

end Inv

/-! ## The steps of a thread on its CPU -/

namespace Runs

theorem old_eq_of_busy (ht : t.busy = true) : ∃ l, t.stack = .pend t.old :: l := by
  unfold Thread.busy at ht
  split at ht
  · rename_i o l hl
    exact ⟨l, by rw [Thread.old, hl]⟩
  · cases ht

section

variable (h : Runs k t)
include h

/-- `push_off` looks at the state of the interrupts. -/
theorem intrGet (hb : t.busy = false) : Runs k { t with stack := .pend k.intr :: t.stack } := by
  refine ⟨h.depth, h.off, fun _ => rfl, ?_⟩
  cases ht : t.stack with
  | nil => exact isChain_singleton _
  | cons f l =>
    have hn := h.nested
    rw [ht] at hn
    refine isChain_cons_cons.2 ⟨⟨fun hf => (by cases hf), fun _ => ?_⟩, hn⟩
    cases f with
    | trap => rfl
    | pend o =>
      rw [Thread.busy, ht] at hb
      cases hb

theorem trap (hon : k.intr = true) :
    Runs { k with intr := false } { t with stack := .trap :: t.stack } := by
  refine ⟨h.depth, fun _ => rfl, fun hb => (by cases hb), ?_⟩
  cases ht : t.stack with
  | nil => exact isChain_singleton _
  | cons f l =>
    have hn := h.nested
    rw [ht] at hn
    refine isChain_cons_cons.2 ⟨⟨fun _ => ?_, fun hf => absurd rfl hf⟩, hn⟩
    rintro rfl
    -- inside `push_off` the interrupts were seen on
    have := h.old (by rw [Thread.busy, ht])
    rw [hon, Thread.old, ht] at this
    cases this

theorem sret (htop : t.stack.head? = some .trap) (hd : t.depth = 0) :
    Runs { k with intr := true } { t with stack := t.stack.tail } := by
  cases ht : t.stack with
  | nil =>
    rw [ht] at htop
    cases htop
  | cons f l =>
    rw [ht] at htop
    obtain rfl : f = .trap := by simpa using htop
    have hn := h.nested
    rw [ht] at hn
    refine ⟨h.depth, fun hpos => ?_, fun hb => ?_, hn.tail⟩
    · have := h.depth
      simp only at hpos
      omega
    · obtain ⟨l', hl'⟩ := old_eq_of_busy hb
      simp only [tail_cons] at hl' hb ⊢
      rw [hl'] at hn
      have hne := (isChain_cons_cons.1 hn).1.1 rfl
      cases ho : ({ t with stack := l } : Thread).old with
      | true => rfl
      | false => exact absurd (by rw [ho]) hne

theorem intr (hb : t.busy = false) (hd : t.depth = 0) (b : Bool) : Runs { k with intr := b } t := by
  refine ⟨h.depth, fun hpos => ?_, fun hbusy => ?_, h.nested⟩
  · have := h.depth
    simp only at hpos
    omega
  · rw [hb] at hbusy
    cases hbusy

/-- **`push_off`**: interrupts are off. -/
theorem pushOff (hb : t.busy = true) : Runs (k.pushOff t.old) (t.pushOff k) := by
  obtain ⟨l, hl⟩ := old_eq_of_busy hb
  have hn := h.nested
  rw [hl] at hn
  refine ⟨?_, fun _ => rfl, fun hb' => ?_, ?_⟩
  · simp only [Cpu.pushOff, Thread.pushOff, h.depth, Thread.depth, Nat.add_assoc]
  · -- under `push_off` there is an interrupt or nothing
    obtain ⟨l', hl'⟩ := old_eq_of_busy hb'
    simp only [Thread.pushOff, hl, tail_cons] at hl'
    rw [hl'] at hn
    have := (isChain_cons_cons.1 hn).1.2 (by simp)
    cases this
  · simp only [Thread.pushOff, hl]
    exact hn.tail

theorem popOff_ok (hpos : 0 < t.offs) : k.intr = false ∧ ¬ k.noff < 1 := by
  have hd := h.depth
  simp only [Thread.depth] at hd
  exact ⟨h.off (by omega), by omega⟩

/-- **`pop_off`**: interrupts stay off above depth 0. -/
theorem popOff (hb : t.busy = false) (hpos : 0 < t.offs) : Runs k.popOff (t.popOff k) := by
  have hd := h.depth
  simp only [Thread.depth] at hd
  refine ⟨?_, fun h0 => ?_, fun hbusy => ?_, h.nested⟩
  · simp only [Cpu.popOff, Thread.popOff, Thread.depth]
    omega
  · simp only [Cpu.popOff] at h0 ⊢
    have hne : ¬ k.noff - 1 = 0 := by omega
    simp only [(h.popOff_ok hpos).1, hne, decide_false, Bool.false_and, Bool.or_false]
  · have : t.busy = true := hbusy
    rw [hb] at this
    cases this

end

end Runs

namespace Owns

/-- **`push_off` from depth 0**: `intena` is how the thread found the
interrupts, on the CPU where it turned them off. -/
theorem pushOff (ho : Owns k t) (h : Runs k t) (hb : t.busy = true) :
    Owns (k.pushOff t.old) (t.pushOff k) := by
  have hd := h.depth
  refine ⟨fun _ b hentry => ?_, fun _ hf => ?_⟩
  · simp only [Thread.pushOff, Cpu.pushOff] at hentry ⊢
    split at hentry
    · rename_i h0
      rw [if_pos h0, ← h.old hb]
      injection hentry
    · rename_i h0
      rw [if_neg h0]
      exact ho.intena (by omega) b hentry
  · simp only [Thread.pushOff] at hf ⊢
    split
    · rfl
    · exact ho.entry (by omega) hf

theorem popOff (ho : Owns k t) (h : Runs k t) (hpos : 0 < t.offs) : Owns k.popOff (t.popOff k) := by
  have hd := h.depth
  simp only [Thread.depth] at hd
  have hpos' : 0 < t.depth := by
    simp only [Thread.depth]
    omega
  refine ⟨fun _ b hb => ho.intena hpos' b hb, fun h0 hf => ho.entry hpos' ?_⟩
  have hne : k.noff - 1 ≠ 0 := by
    simp only [Thread.depth, Thread.popOff] at h0
    omega
  simpa [Thread.popOff, hne] using hf

end Owns

/-- The locks a thread holds, and the calls it has to undo, are counted
together. -/
theorem Runs.congr (h : Runs k t) {t' : Thread} (hd : t'.depth = t.depth) (hs : t'.stack = t.stack) :
    Runs k t' := by
  refine ⟨by rw [hd, h.depth], h.off, fun hb => ?_, hs ▸ h.nested⟩
  rw [Thread.busy, hs] at hb
  rw [Thread.old, hs]
  exact h.old hb

theorem Owns.congr (h : Owns k t) {t' : Thread} (hd : t'.depth = t.depth) (he : t'.entry = t.entry)
    (hf : t'.fresh = t.fresh) : Owns k t' := by
  refine ⟨fun h0 b hb => h.intena (hd ▸ h0) b (he ▸ hb), fun h0 hfr => ?_⟩
  rw [he]
  exact h.entry (hd ▸ h0) (hf ▸ hfr)

theorem Thread.depth_take (t : Thread) (lk : Lk) (h : 0 < t.offs) : (t.take lk).depth = t.depth := by
  simp only [Thread.take, Thread.depth, length_cons]
  omega

theorem Thread.depth_drop (t : Thread) (lk : Lk) (h : lk ∈ t.held) : (t.drop lk).depth = t.depth := by
  have := length_pos_of_mem h
  simp only [Thread.drop, Thread.depth, length_erase_of_mem h]
  omega

/-- **Every step keeps CPUs and threads in agreement.** -/
theorem Inv.step (h : Inv s) {a : Act} (hm : a.Matched s) (hrun : a.run s = .ok s') : Inv s' := by
  cases a with
  | intrGet c =>
    cases hrun
    exact h.put ((h.runs c).intrGet hm) (fun ho => ho.congr rfl rfl rfl) rfl s.lock
  | pushOff c =>
    cases hrun
    exact h.put ((h.runs c).pushOff hm) (fun ho => ho.pushOff (h.runs c) hm) rfl s.lock
  | popOff c =>
    obtain ⟨hb, hpos⟩ := hm
    obtain ⟨hi, hn⟩ := (h.runs c).popOff_ok hpos
    simp only [Act.run, State.popOff, hi, Bool.false_eq_true, if_neg hn, ↓reduceIte] at hrun
    cases hrun
    exact h.put ((h.runs c).popOff hb hpos) (fun ho => ho.popOff (h.runs c) hpos) rfl s.lock
  | take c lk =>
    have hd := (s.here c).depth_take lk hm.2.1
    simp only [Act.run, State.take] at hrun
    split at hrun
    · cases hrun
    · cases hrun
      exact h.put ((h.runs c).congr hd rfl) (fun ho => ho.congr hd rfl rfl) rfl _
  | drop c lk =>
    have hd := (s.here c).depth_drop lk hm.2
    simp only [Act.run, State.drop] at hrun
    split at hrun
    · cases hrun
    · cases hrun
      exact h.put ((h.runs c).congr hd rfl) (fun ho => ho.congr hd rfl rfl) rfl _
  | intr c b =>
    cases hrun
    exact h.put ((h.runs c).intr hm.1 hm.2 b) (fun ho => ⟨ho.intena, ho.entry⟩) rfl s.lock
  | trap c =>
    cases hrun
    exact h.put ((h.runs c).trap hm) (fun ho => ⟨ho.intena, ho.entry⟩) rfl s.lock
  | sret c =>
    cases hrun
    exact h.put ((h.runs c).sret hm.1 hm.2) (fun ho => ⟨ho.intena, ho.entry⟩) rfl s.lock
  | sched c p => exact h.sched hm.1 hm.2 hrun
  | resume c p =>
    cases hrun
    exact h.resume hm

/-- **Interrupt state belongs to the thread.** Interrupts are off where
`noff` is positive. When a process comes back from depth 1 to 0, interrupts
on its CPU are as they were when it went from 0 to 1, wherever that was;
the one time it comes back without having gone is when it is new. And
`pop_off` does not panic. -/
theorem interrupt_state (hr : system.Reachable s) :
    (∀ c, 0 < (s.cpu c).noff → (s.cpu c).intr = false) ∧
      (∀ c p, (s.cpu c).proc = some p → (Act.popOff c).Matched s → (s.cpu c).noff = 1 →
        (s.thread (.process p)).fresh = false →
        ∃ b s', (s.thread (.process p)).entry = some b ∧ s.popOff c = .ok s' ∧
          (s'.cpu c).noff = 0 ∧ (s'.cpu c).intr = b) ∧
      ∀ c, (Act.popOff c).Matched s → ∃ s', s.popOff c = .ok s' := by
  have h : Inv s := by
    refine hr.invariant (fun _ => Init.inv) fun s a s' _ hi hstep => ?_
    obtain ⟨⟨hm, hok⟩, rfl⟩ := hstep
    cases hrun : a.run s with
    | ok s' =>
      rw [Act.next, hrun]
      exact hi.step hm hrun
    | error e =>
      rw [hrun] at hok
      cases hok
  have hpop : ∀ c, (Act.popOff c).Matched s → (s.cpu c).intr = false ∧
      s.popOff c = .ok (s.put c (s.cpu c).popOff ((s.here c).popOff (s.cpu c))) := by
    intro c hm
    obtain ⟨hi, hn⟩ := (h.runs c).popOff_ok hm.2
    refine ⟨hi, ?_⟩
    simp only [State.popOff, hi, Bool.false_eq_true, if_neg hn, ↓reduceIte]
  refine ⟨fun c => (h.runs c).off, fun c p hp hm hone hf => ?_, fun c hm => ⟨_, (hpop c hm).2⟩⟩
  have hd := (h.runs c).depth
  have hw : s.cur c = .process p := by rw [State.cur, hp]
  rw [State.here, hw] at hd
  have ho := h.owns c p hp
  obtain ⟨hi, hpop⟩ := hpop c hm
  obtain ⟨b, hb⟩ := Option.isSome_iff_exists.1 (ho.entry (by omega) hf)
  refine ⟨b, _, hb, hpop, ?_, ?_⟩
  · simp only [State.put, update_self, Cpu.popOff, hone]
  · simp only [State.put, update_self, Cpu.popOff, hone, hi, ho.intena (by omega) b hb]
    rfl

/-- Every CPU in its scheduler, with interrupts off. -/
def boot : State :=
  { cpu := fun _ => { noff := 0, intena := false, intr := false, proc := none }
    thread := fun
      | .scheduler _ => {}
      | .process p => { held := [.proc p] }
    lock := fun _ => none
    ctx := fun _ => .waiting none }

theorem boot_init : Init boot :=
  ⟨fun _ => ⟨rfl, rfl⟩, fun _ => rfl, fun _ => rfl, fun _ => rfl, fun _ => rfl⟩

/-- A process turns interrupts off on CPU 0, where they were on, gives up
the CPU and comes back on CPU 1, whose scheduler had them off. -/
def moved : List Act :=
  [.intr 0 true, .intrGet 0, .pushOff 0, .take 0 (.proc 0), .resume 0 0, .drop 0 (.proc 0),
    .popOff 0, .intrGet 0, .pushOff 0, .take 0 (.proc 0), .sched 0 0, .drop 0 (.proc 0), .popOff 0,
    .intrGet 1, .pushOff 1, .take 1 (.proc 0), .resume 1 0, .drop 1 (.proc 0)]

theorem interrupt_state_moved :
    ∃ s s', system.Reachable s ∧ (s.thread (.process 0)).entry = some true ∧
      s.popOff 1 = .ok s' ∧ (s'.cpu 1).noff = 0 ∧ (s'.cpu 1).intr = true := by
  obtain ⟨s, hr, hp, hm, hone, hfresh, hentry⟩ : ∃ s, system.Reachable s ∧
      (s.cpu 1).proc = some 0 ∧ (Act.popOff 1).Matched s ∧ (s.cpu 1).noff = 1 ∧
      (s.thread (.process 0)).fresh = false ∧ (s.thread (.process 0)).entry = some true :=
    System.exists_of_follow boot_init moved (by decide +kernel)
  obtain ⟨b, s', hb, hpop, hn, hi⟩ := (interrupt_state hr).2.1 1 0 hp hm hone hfresh
  rw [hentry] at hb
  injection hb with hb
  exact ⟨s, s', hr, hentry, hpop, hn, hi.trans hb.symm⟩

end Intr

end Xv6
