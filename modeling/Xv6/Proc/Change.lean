import Xv6.Proc.Control
/-!
# What a step changes

Most steps leave every slot with the process it had, under the same parent
(`Alike`). The others are four: `fork` gives a slot to a child, `exit` gives
a child to `initproc` and ends in a zombie, and `wait` frees a zombie
(`Step.change`). What each thread does in a step is a `Turn`, and what holds
at a place in the code is carried through a step by `Step.place`.
-/

namespace Xv6

open Function

variable {s s' : ProcSys} {c p q i k : ℕ} {x : Choice} {m : Move} {a : ProcAct}

/-- `wakeup` changes the state of a process, if anything. -/
theorem Proc.wakeup_state (v : Proc) (ch : Chan) : ∃ st, v.wakeup ch = { v with state := st } := by
  unfold Proc.wakeup
  split
  · exact ⟨_, rfl⟩
  · exact ⟨v.state, rfl⟩

/-- Slots that hold the same process, alive or not, with the same parent. -/
structure Alike (p p' : Proc) : Prop where
  unused : p'.state = .unused ↔ p.state = .unused
  zombie : p'.state = .zombie ↔ p.state = .zombie
  parent : p'.parent = p.parent ∨ p.state = .unused ∧ p'.parent = none
  pid : p.state ≠ .unused → p'.pid = p.pid
  xstate : p.state ≠ .unused → p'.xstate = p.xstate

namespace Alike

theorem refl (p : Proc) : Alike p p :=
  ⟨Iff.rfl, Iff.rfl, .inl rfl, fun _ => rfl, fun _ => rfl⟩

/-- A process that is neither UNUSED nor a zombie may change its state. -/
theorem of_live {p p' : Proc} (h : p.state ≠ .unused ∧ p.state ≠ .zombie)
    (h' : p'.state ≠ .unused ∧ p'.state ≠ .zombie) (hparent : p'.parent = p.parent)
    (hpid : p'.pid = p.pid) (hx : p'.xstate = p.xstate) : Alike p p' :=
  ⟨by simp [h.1, h'.1], by simp [h.2, h'.2], .inl hparent, fun _ => hpid, fun _ => hx⟩

theorem wakeup (p : Proc) (ch : Chan) : Alike p (p.wakeup ch) := by
  unfold Proc.wakeup
  split
  · rename_i h
    exact of_live (by simp [h.1]) (by simp) rfl rfl rfl
  · exact refl p

theorem kill (p : Proc) : Alike p p.kill := by
  unfold Proc.kill
  split
  · rename_i h
    exact of_live (by simp [h]) (by simp) rfl rfl rfl
  · exact ⟨Iff.rfl, Iff.rfl, .inl rfl, fun _ => rfl, fun _ => rfl⟩

/-- A `fork` that fails leaves the slot UNUSED. -/
theorem fork {np : Proc} (p : Proc) {o : Alloc} (h : np.state = .unused) (ho : o ≠ .ok) (q : ℕ)
    (pid : ℤ) : Alike np (np.fork p q pid o) := by
  have hnone : ∀ np' : Proc, np'.state = .unused → (np'.parent = np.parent ∨ np'.parent = none) →
      Alike np np' := fun np' h' hp =>
    ⟨by simp [h, h'], by simp [h, h'], hp.imp_right fun hp => ⟨h, hp⟩, fun hne => absurd h hne,
      fun hne => absurd h hne⟩
  cases o with
  | noTrapframe => exact hnone _ h (.inl rfl)
  | noPagetable | noCopy => exact hnone _ rfl (.inr rfl)
  | ok => exact absurd rfl ho

theorem update {t : ℕ → Proc} {v : Proc} (h : Alike (t i) v) (j : ℕ) :
    Alike (t j) (update t i v j) := by
  by_cases hj : j = i
  · subst hj
    rwa [update_self]
  · rw [update_of_ne hj]
    exact refl _

end Alike

namespace ProcSys

/-- A step that leaves every process as it is, with its history. -/
structure Quiet (s s' : ProcSys) : Prop where
  alike : ∀ j, Alike (s.proc j) (s'.proc j)
  birth : s'.birth = s.birth
  exits : s'.exits = s.exits
  reaps : s'.reaps = s.reaps

/-- **What a step does to the processes**: nothing, or one of four things. -/
inductive Change (s : ProcSys) : ProcAct → ProcSys → Prop
  | quiet {a : ProcAct} {s' : ProcSys} : Quiet s s' → Change s a s'
  | fork {c p i : ℕ} {x : Choice} {m : Move} : s.sched c = .out p → s.Moves c p x m →
      m.edit = .fork i .ok → Change s (.run c x) (s.commit c p m)
  | reparent {c p i : ℕ} {x : Choice} {m : Move} : s.sched c = .out p → s.Moves c p x m →
      m.edit = .reparent i → Change s (.run c x) (s.commit c p m)
  | exit {c p op : ℕ} {status : ℤ} {x : Choice} {m : Move} : s.sched c = .out p →
      s.Moves c p x m → m.edit = .exit op status → Change s (.run c x) (s.commit c p m)
  | reap {c p addr i : ℕ} {x : Choice} {m : Move} : s.sched c = .out p → s.Moves c p x m →
      m.edit = .reap addr i → Change s (.run c x) (s.commit c p m)

section

variable (h : s.Control) (hc : s.sched c = .out p)
include h hc

/-- The process on a CPU is alive while it runs its own code. -/
theorem Control.live (hsw : s.sw p ≠ .save)
    (hsw' : s.sw p ≠ .load) : (s.proc p).state ≠ .unused ∧ (s.proc p).state ≠ .zombie := by
  have := h.running c p hc hsw hsw'
  simp [this]

theorem Control.live_of_exec (hsw : s.sw p = .exec) :
    (s.proc p).state ≠ .unused ∧ (s.proc p).state ≠ .zombie :=
  h.live hc (by simp [hsw]) (by simp [hsw])

theorem quiet_or_edit (hm : s.Moves c p x m) :
    Quiet s (s.commit c p m) ∨ (∃ i, m.edit = .fork i .ok) ∨ (∃ i, m.edit = .reparent i) ∨
      (∃ op st, m.edit = .exit op st) ∨ ∃ addr i, m.edit = .reap addr i := by
  have hf := hm.edit_from
  -- one slot changes, and no history is written
  have hquiet : ∀ {i : ℕ} {v : Proc}, m.edit.apply s.nextpid p s.proc = update s.proc i v →
      Alike (s.proc i) v → m.edit.born = none → (∀ op st, m.edit ≠ .exit op st) →
      (∀ addr i, m.edit ≠ .reap addr i) → Quiet s (s.commit c p m) := by
    intro i v hproc halike hborn hexit hreap
    refine ⟨fun j => ?_, by simp [ProcSys.commit, hborn], ?_, ?_⟩
    · simp only [ProcSys.commit, hproc]
      exact Alike.update halike j
    · simp only [ProcSys.commit]
    · simp only [ProcSys.commit]
  cases he : m.edit with
  | nothing =>
    refine .inl (hquiet (i := p) (v := s.proc p) ?_ (.refl _) ?_ ?_ ?_) <;>
      simp [he, Edit.apply, Edit.born]
  | own ofile sz fault | close | unchan =>
    refine .inl (hquiet (by rw [he, Edit.apply]) ?_ ?_ ?_ ?_)
    · exact ⟨Iff.rfl, Iff.rfl, .inl rfl, fun _ => rfl, fun _ => rfl⟩
    all_goals simp [he, Edit.born]
  | wakeup ch i =>
    exact .inl (hquiet (by rw [he, Edit.apply]) (.wakeup _ _) (by simp [he, Edit.born])
      (by simp [he]) (by simp [he]))
  | kill i =>
    exact .inl (hquiet (by rw [he, Edit.apply]) (.kill _) (by simp [he, Edit.born])
      (by simp [he]) (by simp [he]))
  | yield | sleep ch =>
    rw [he] at hf
    have hlive := h.live hc (by simp [hf.1]) (by simp [hf.1])
    refine .inl (hquiet (by rw [he, Edit.apply]) ?_ ?_ ?_ ?_)
    · exact .of_live hlive (by simp) rfl rfl rfl
    all_goals simp [he, Edit.born]
  | fork i o =>
    rw [he] at hf
    by_cases ho : o = .ok
    · subst ho
      exact .inr (.inl ⟨i, rfl⟩)
    · refine .inl (hquiet (by rw [he, Edit.apply]) (.fork _ hf.2.2.2.2 ho _ _) ?_ ?_ ?_)
      · cases o <;> simp_all [Edit.born]
      all_goals simp [he]
  | reparent i => exact .inr (.inr (.inl ⟨i, rfl⟩))
  | exit op st => exact .inr (.inr (.inr (.inl ⟨op, st, rfl⟩)))
  | reap addr i => exact .inr (.inr (.inr (.inr ⟨addr, i, rfl⟩)))

theorem Change.of_moves (hm : s.Moves c p x m) : s.Change (.run c x) (s.commit c p m) := by
  rcases quiet_or_edit h hc hm with hq | ⟨i, he⟩ | ⟨i, he⟩ | ⟨op, st, he⟩ | ⟨addr, i, he⟩
  · exact .quiet hq
  · exact .fork hc hm he
  · exact .reparent hc hm he
  · exact .exit hc hm he
  · exact .reap hc hm he

end

theorem Step.change (h : s.Control) (hs : s.Step a s') : s.Change a s' := by
  have hsame : ∀ s' : ProcSys, s'.proc = s.proc → s'.birth = s.birth → s'.exits = s.exits →
      s'.reaps = s.reaps → s.Change a s' := fun s' hp hb he hr =>
    .quiet ⟨fun j => by rw [hp]; exact .refl _, hb, he, hr⟩
  cases hs with
  | commit hc hm _ => exact .of_moves h hc hm
  | @pick c i hc hr =>
    refine .quiet ⟨fun j => Alike.update ?_ j, rfl, rfl, rfl⟩
    exact .of_live (by simp [hr]) (by simp) rfl rfl rfl
  | visiting _ => exact .quiet ⟨fun j => Alike.update (.wakeup _ _) j, rfl, rfl, rfl⟩
  | _ => exact hsame _ rfl rfl rfl rfl

theorem Step.clock (hs : s.Step a s') : s'.clock = s.clock + 1 := by
  cases hs <;> rfl

/-! ## What becomes of a process -/

/-- **What becomes of the process in slot `j`**: it stays; or it is a new
child, a child given to `initproc`, a new zombie, or a zombie that is
freed. -/
inductive Fate (s : ProcSys) (j : ℕ) : ProcAct → ProcSys → Prop
  | stays {a : ProcAct} {s' : ProcSys} : Alike (s.proc j) (s'.proc j) → s'.birth j = s.birth j →
      Fate s j a s'
  | forked {c p : ℕ} {x : Choice} {m : Move} : s.sched c = .out p → s.Moves c p x m →
      m.edit = .fork j .ok →
      (s.commit c p m).proc j = (s.proc j).fork (s.proc p) p s.nextpid .ok →
      (s.commit c p m).birth j = s.clock →
      (∀ k, k ≠ j → (s.commit c p m).proc k = s.proc k ∧ (s.commit c p m).birth k = s.birth k) →
      Fate s j (.run c x) (s.commit c p m)
  | given {c p : ℕ} {x : Choice} {m : Move} : s.sched c = .out p → s.Moves c p x m →
      m.edit = .reparent j → (s.commit c p m).proc j = { s.proc j with parent := some initproc } →
      (s.commit c p m).birth j = s.birth j → Fate s j (.run c x) (s.commit c p m)
  | exited {c op : ℕ} {st : ℤ} {x : Choice} {m : Move} : s.sched c = .out j → s.Moves c j x m →
      m.edit = .exit op st → ((s.commit c j m).proc j).state = .zombie →
      ((s.commit c j m).proc j).xstate = st →
      ((s.commit c j m).proc j).parent = (s.proc j).parent →
      ((s.commit c j m).proc j).pid = (s.proc j).pid → (s.commit c j m).birth j = s.birth j →
      Fate s j (.run c x) (s.commit c j m)
  | freed {c p addr : ℕ} {x : Choice} {m : Move} : s.sched c = .out p → s.Moves c p x m →
      m.edit = .reap addr j → (s.commit c p m).proc j = (s.proc j).freeproc →
      (s.commit c p m).birth j = s.birth j → Fate s j (.run c x) (s.commit c p m)

theorem Fate.of_eq (hp : s'.proc k = s.proc k) (hb : s'.birth k = s.birth k) : s.Fate k a s' :=
  .stays (hp ▸ .refl _) hb

theorem Change.fate (hch : s.Change a s') (j : ℕ) : s.Fate j a s' := by
  cases hch with
  | quiet hq => exact .stays (hq.alike j) (congrFun hq.birth j)
  | @fork c p i x m hc hm he =>
    have hother : ∀ k, k ≠ i →
        (s.commit c p m).proc k = s.proc k ∧ (s.commit c p m).birth k = s.birth k := fun k hk => by
      simp [ProcSys.commit, he, Edit.apply, Edit.born, hk]
    by_cases hj : j = i
    · subst hj
      exact .forked hc hm he (by simp [ProcSys.commit, he, Edit.apply])
        (by simp [ProcSys.commit, he, Edit.born]) hother
    · exact .of_eq (hother j hj).1 (hother j hj).2
  | @reparent c p i x m hc hm he =>
    have hbirth : (s.commit c p m).birth j = s.birth j := by simp [ProcSys.commit, he, Edit.born]
    by_cases hj : j = i
    · subst hj
      exact .given hc hm he (by simp [ProcSys.commit, he, Edit.apply]) hbirth
    · exact .of_eq (by simp [ProcSys.commit, he, Edit.apply, hj]) hbirth
  | @exit c p op st x m hc hm he =>
    have hbirth : (s.commit c p m).birth j = s.birth j := by simp [ProcSys.commit, he, Edit.born]
    by_cases hj : j = p
    · subst hj
      -- `op` is woken before, be it `j` itself
      obtain ⟨v, hv⟩ : ∃ v, update s.proc op ((s.proc op).wakeup (.proc op)) j =
          { s.proc j with state := v } := by
        by_cases hjo : j = op
        · subst hjo
          rw [update_self]
          exact Proc.wakeup_state _ _
        · exact ⟨_, update_of_ne hjo _ _⟩
      refine .exited hc hm he ?_ ?_ ?_ ?_ hbirth <;>
        simp only [ProcSys.commit, he, Edit.apply, update_self, hv]
    · refine .stays ?_ hbirth
      simpa only [ProcSys.commit, he, Edit.apply, update_of_ne hj] using
        (Alike.wakeup _ _).update j
  | @reap c p addr i x m hc hm he =>
    have hbirth : (s.commit c p m).birth j = s.birth j := by simp [ProcSys.commit, he, Edit.born]
    by_cases hj : j = i
    · subst hj
      exact .freed hc hm he (by simp [ProcSys.commit, he, Edit.apply]) hbirth
    · exact .of_eq (by simp [ProcSys.commit, he, Edit.apply, hj]) hbirth

/-- A zombie was one before, or its process has just exited. -/
theorem Change.zombie (hch : s.Change a s') (hz : (s'.proc k).state = .zombie) :
    (s'.proc k).pid = (s.proc k).pid ∧ s'.birth k = s.birth k ∧
      ((s.proc k).state = .zombie ∧ (s'.proc k).xstate = (s.proc k).xstate ∨
        ∃ c x m op st, a = .run c x ∧ s.sched c = .out k ∧ s.Moves c k x m ∧
          m.edit = .exit op st ∧ (s'.proc k).xstate = st ∧ s' = s.commit c k m) := by
  cases hch.fate k with
  | stays h hb =>
    have hz := h.zombie.1 hz
    exact ⟨h.pid (by simp [hz]), hb, .inl ⟨hz, h.xstate (by simp [hz])⟩⟩
  | given _ _ _ hp hb =>
    rw [hp] at hz ⊢
    exact ⟨rfl, hb, .inl ⟨hz, rfl⟩⟩
  | exited hc hm he _ hx _ hpid hb =>
    exact ⟨hpid, hb, .inr ⟨_, _, _, _, _, rfl, hc, hm, he, hx, rfl⟩⟩
  | forked _ _ _ hp _ _ | freed _ _ _ hp _ =>
    rw [hp] at hz
    cases hz

/-! ## What a thread does in a step -/

/-- Thread `q` is where it was. -/
structure Rests (s s' : ProcSys) (q : ℕ) : Prop where
  pc : s'.pc q = s.pc q
  exec : s'.sw q = .exec → s.sw q = .exec
  slept : s'.slept q = s.slept q
  took : s'.took (.proc q) = s.took (.proc q)

/-- **What thread `q` does in a step**: it is not on the CPU, or only takes
the lock that `yield` wants; it has the lock it wanted; it moves; or it is
the thread of a new process. -/
inductive Turn (s : ProcSys) (q : ℕ) : ProcAct → ProcSys → Prop
  | rests {a : ProcAct} {s' : ProcSys} : (∀ c x, a = .run c x → s.sched c ≠ .out q) →
      Rests s s' q → Turn s q a s'
  | stays {a : ProcAct} {s' : ProcSys} : s'.proc = s.proc → s'.birth = s.birth →
      s'.xlock = s.xlock → Rests s s' q → Turn s q a s'
  | got {i : ℕ} {a : ProcAct} {s' : ProcSys} : s'.proc = s.proc → s'.birth = s.birth →
      s'.xlock = s.xlock → (s.pc q).wants q = some i → s'.pc q = (s.pc q).got →
      s'.took (.proc q) = s.took (.proc q) → Turn s q a s'
  | moves {c : ℕ} {x : Choice} {m : Move} : s.sched c = .out q → s.Moves c q x m →
      (s.commit c q m).pc q = m.pc → Turn s q (.run c x) (s.commit c q m)
  | born {c p : ℕ} {x : Choice} {m : Move} : s.Moves c p x m → m.edit = .fork q .ok →
      (s.commit c p m).pc q = .user → Turn s q (.run c x) (s.commit c p m)

theorem took_of_ne {o : Owner} (ho : o ≠ .proc p) : (s.commit c p m).took o = s.took o := by
  simp only [ProcSys.commit]
  cases m.ext with
  | take l => simp [Ext.took, ho]
  | _ => rfl

theorem slept_of_ne (hq : q ≠ p) : (s.commit c p m).slept q = s.slept q := by
  simp only [ProcSys.commit]
  cases m.ext with
  | drop l => simp [hq]
  | _ => rfl

/-- The context a CPU loads is where the thread went out. -/
theorem Control.load_pc (h : s.Control) (hc : s.sched c = .load i) :
    ((s.loadContext i).schedAt c (.out i)).pc = s.pc := by
  have hoff : s.sw i = .off := h.off_of_runs (by rw [hc]; rfl) (by simp [hc])
  simp [schedAt, loadContext, h.saved _ (.inl hoff)]

theorem Turn.of_commit (hc : s.sched c = .out p) (hm : s.Moves c p x m) (q : ℕ) :
    s.Turn q (.run c x) (s.commit c p m) := by
  by_cases hqp : q = p
  · subst hqp
    exact .moves hc hm (update_self _ _ _)
  by_cases hqb : m.edit.born = some q
  · exact .born hm (Edit.eq_fork_of_born hqb) (by simp [ProcSys.commit, hqp, hqb])
  refine .rests (fun c' x' ha hc' => ?_) ⟨?_, fun he => ?_, slept_of_ne hqp, took_of_ne ?_⟩
  · cases ha
    rw [hc] at hc'
    cases hc'
    exact hqp rfl
  · simp [ProcSys.commit, hqp, updateAt_of_ne _ _ hqb]
  · simpa [ProcSys.commit, hqp, updateAt_of_ne _ _ hqb] using he
  · simp [hqp]

theorem Step.turn (hs : s.Step a s') (h : s.Control) (q : ℕ) : s.Turn q a s' := by
  cases hs with
  | relock _ => exact .stays rfl rfl rfl ⟨rfl, id, rfl, rfl⟩
  | @acquire c p i x _ hw _ =>
    by_cases hqp : q = p
    · subst hqp
      by_cases hsw : s.sw q = .exec
      · exact .got rfl rfl rfl (by simpa [wants, hsw, Sw.wants] using hw)
          (by simp [threadGot, lockBy, hsw]) rfl
      · refine .stays rfl rfl rfl ⟨by simp [threadGot, lockBy, hsw], fun he => ?_, rfl, rfl⟩
        simp [threadGot, lockBy, hsw] at he
    · refine .stays rfl rfl rfl ⟨by simp [threadGot, lockBy, hqp], fun he => ?_, rfl, rfl⟩
      simpa [threadGot, lockBy, hqp] using he
  | commit hc hm _ => exact .of_commit hc hm q
  | @load c i hc =>
    refine .rests (by simp) ⟨congrFun (h.load_pc hc) q, fun he => ?_, rfl, rfl⟩
    by_contra hne
    by_cases hq : q = i <;> simp [schedAt, loadContext, hq] at he hne
    exact hne he
  | @intrCall k call pc _ _ _ =>
    refine .rests (by simp) ⟨rfl, id, rfl, ?_⟩
    simp only [intrAt, ProcSys.intrCall]
    cases intrExt call with
    | take l => simp [Ext.took]
    | _ => rfl
  | _ => exact .rests (by simp) ⟨rfl, id, rfl, rfl⟩

/-- **The rule for places.** A fact about a thread and its place in the code,
which depends on the table and the births only, holds of every thread after
a step if it does of the thread that moved, of the others where they were,
and of a new one. -/
theorem Step.place {P : ProcSys → ℕ → Pc → Prop} (hs : s.Step a s') (h : s.Control)
    (hcongr : ∀ s₁ s₂ : ProcSys, s₂.proc = s₁.proc → s₂.birth = s₁.birth →
      ∀ q pc, P s₁ q pc → P s₂ q pc)
    (hgot : ∀ q i pc, pc.wants q = some i → P s q pc → P s q pc.got)
    (hborn : ∀ c p m q, m.edit = .fork q .ok → s' = s.commit c p m → P s' q .user)
    (hother : ∀ q, (∀ c x, a = .run c x → s.sched c ≠ .out q) → s'.pc q = s.pc q →
      P s q (s.pc q) → P s' q (s.pc q))
    (hmove : ∀ c p x m, a = .run c x → s.sched c = .out p → s.Moves c p x m →
      s' = s.commit c p m → P s p (s.pc p) → P s' p m.pc)
    (hP : ∀ q, P s q (s.pc q)) (q : ℕ) : P s' q (s'.pc q) := by
  cases hs.turn h q with
  | rests hq hr => exact hr.pc ▸ hother q hq hr.pc (hP q)
  | stays hp hb _ hr => exact hr.pc ▸ hcongr s s' hp hb q _ (hP q)
  | got hp hb _ hw hpc _ => exact hpc ▸ hcongr s s' hp hb q _ (hgot q _ _ hw (hP q))
  | moves hc hm hpc => exact hpc ▸ hmove _ q _ _ rfl hc hm rfl (hP q)
  | born _ he hpc => exact hpc ▸ hborn _ _ _ q he rfl

end ProcSys

end Xv6
