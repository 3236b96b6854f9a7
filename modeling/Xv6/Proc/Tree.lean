import Xv6.Proc.Change
/-!
# The process tree

Every process but `initproc` has a parent that is alive and older. The
parent pointer of a process is read without its lock, by its parent alone:
only the parent changes it, by giving the process to `initproc` or by
freeing it. `wait` and `reparent` scan the table on the strength of that
(`Place`). For `initproc`, which others give their children to, a scan that
passes a slot too early still finds a child behind it: whoever gives one
away has an ancestor there.
-/

namespace Xv6

open Function

variable {s s' : ProcSys} {c p q i j k : ℕ} {x : Choice} {m : Move} {a : ProcAct}

namespace ProcSys

/-- What holds where the thread of process `p` is. -/
def Place (s : ProcSys) (p : ℕ) : Pc → Prop
  | .visiting _ i => i < NPROC
  | .exitInit _ | .exitInitAt _ | .exitSelf _ | .exitSelfAt _ | .exitParent _ _ | .exitBoth _ _ =>
    p ≠ initproc
  | .reparent _ _ i => p ≠ initproc ∧ ∀ j, j < i → (s.proc j).parent ≠ some p
  | .reparentKid _ _ i | .reparentAt _ _ i =>
    p ≠ initproc ∧ (∀ j, j < i → (s.proc j).parent ≠ some p) ∧ (s.proc i).parent = some p
  | .exitEnd _ _ => p ≠ initproc ∧ ∀ j, (s.proc j).parent ≠ some p
  | .waitScan _ i false =>
    (∀ j, j < i → (s.proc j).parent ≠ some p) ∨
      p = initproc ∧ ∃ j, i ≤ j ∧ (s.proc j).parent = some initproc
  | .waitKid _ i | .waitAt _ i => (s.proc i).parent = some p
  | _ => True

/-- **The process tree.** -/
structure Tree (s : ProcSys) : Prop where
  bound : ∀ i, NPROC ≤ i → (s.proc i).state = .unused
  orphan : ∀ i, (s.proc i).state = .unused → (s.proc i).parent = none
  init : (s.proc initproc).state ≠ .unused ∧ (s.proc initproc).state ≠ .zombie ∧
    (s.proc initproc).parent = none ∧ s.birth initproc = 0
  parent : ∀ i, i ≠ initproc → (s.proc i).state ≠ .unused →
    ∃ q, (s.proc i).parent = some q ∧ (s.proc q).state ≠ .unused ∧ (s.proc q).state ≠ .zombie ∧
      s.birth q < s.birth i
  born : ∀ i, (s.proc i).state ≠ .unused → s.birth i < s.clock
  place : ∀ p, s.Place p (s.pc p)

namespace Tree

theorem boot : Tree .boot := by
  have hother : ∀ i, i ≠ initproc → ProcSys.boot.proc i = .zero := fun i hi => by
    simp [ProcSys.boot, hi]
  refine ⟨fun i hi => ?_, fun i hi => ?_, by simp [ProcSys.boot, Proc.zero], fun i hi hne => ?_,
    fun i _ => by simp [ProcSys.boot], fun p => trivial⟩
  · rw [hother i (by simp only [NPROC, initproc] at *; omega)]
    rfl
  · by_cases h0 : i = initproc
    · rw [h0] at hi
      simp [ProcSys.boot] at hi
    · rw [hother i h0]
      rfl
  · rw [hother i hi] at hne
    exact absurd rfl hne

/-- A child is alive, and is not `initproc`. -/
theorem live_of_parent (h : s.Tree) (hi : (s.proc i).parent = some q) :
    i ≠ initproc ∧ (s.proc i).state ≠ .unused := by
  constructor
  · rintro rfl
    rw [h.init.2.2.1] at hi
    cases hi
  · intro hun
    rw [h.orphan i hun] at hi
    cases hi

theorem birth_lt (h : s.Tree) (hi : (s.proc i).parent = some q) : s.birth q < s.birth i := by
  obtain ⟨hne, hlive⟩ := h.live_of_parent hi
  obtain ⟨r, hr, -, -, hlt⟩ := h.parent i hne hlive
  rw [hi] at hr
  cases hr
  exact hlt

/-- Where there is a process but `initproc`, that one has a child. -/
theorem exists_child (h : s.Tree) (hq : (s.proc q).state ≠ .unused) (hne : q ≠ initproc) :
    ∃ k, (s.proc k).parent = some initproc := by
  -- up the ancestors, which get older
  induction hn : s.birth q using Nat.strong_induction_on generalizing q with
  | _ n ih =>
    obtain ⟨r, hr, hlive, -, hlt⟩ := h.parent q hne hq
    by_cases h0 : r = initproc
    · exact ⟨q, by rw [hr, h0]⟩
    · exact ih _ (by omega) hlive h0 rfl

end Tree

/-! ## Who changes a parent pointer -/

/-- What a step of another thread does to the children of `q`: it takes none
away, and gives one only to `initproc`, which has one already. -/
def KeepsChildren (s s' : ProcSys) (q : ℕ) : Prop :=
  (∀ j, (s.proc j).parent = some q → (s'.proc j).parent = some q) ∧
    ∀ j, (s'.proc j).parent = some q → (s.proc j).parent = some q ∨
      q = initproc ∧ ∃ k, (s.proc k).parent = some initproc

theorem KeepsChildren.of_eq (h : ∀ j, (s'.proc j).parent = (s.proc j).parent) (q : ℕ) :
    KeepsChildren s s' q :=
  ⟨fun j hj => by rw [h, hj], fun j hj => .inl (by rw [← h, hj])⟩

theorem Place.keep {pc : Pc} (hk : KeepsChildren s s' q) (h : s.Place q pc) : s'.Place q pc := by
  have hnot : q ≠ initproc → ∀ j, (s.proc j).parent ≠ some q → (s'.proc j).parent ≠ some q :=
    fun hq j hj hj' => (hk.2 j hj').elim hj fun hinit => hq hinit.1
  cases pc with
  | reparent st op i => exact ⟨h.1, fun j hj => hnot h.1 j (h.2 j hj)⟩
  | reparentKid st op i | reparentAt st op i =>
    exact ⟨h.1, fun j hj => hnot h.1 j (h.2.1 j hj), hk.1 i h.2.2⟩
  | exitEnd st op => exact ⟨h.1, fun j => hnot h.1 j (h.2 j)⟩
  | waitScan addr i havekids =>
    cases havekids with
    | true => trivial
    | false =>
      rcases h with hall | ⟨hq, j, hij, hj⟩
      · by_cases hex : q = initproc ∧ ∃ k, (s.proc k).parent = some initproc
        · obtain ⟨hq, k, hkp⟩ := hex
          subst hq
          refine .inr ⟨rfl, k, ?_, hk.1 k hkp⟩
          by_contra hlt
          exact hall k (by omega) hkp
        · exact .inl fun j hj hj' => (hk.2 j hj').elim (hall j hj) hex
      · subst hq
        exact .inr ⟨rfl, j, hij, hk.1 j hj⟩
  | waitKid addr i | waitAt addr i => exact hk.1 i h
  | _ => exact h

/-- Taking the lock of a slot changes nothing. -/
theorem Place.got {pc : Pc} (hw : pc.wants q = some i) (h : s.Place q pc) : s.Place q pc.got := by
  cases pc with
  | visit v j =>
    simp only [Pc.wants, Option.ite_none_right_eq_some] at hw
    exact hw.1
  | exitBoth st op => exact ⟨h, fun j hj => absurd hj (Nat.not_lt_zero j)⟩
  | waitSelf addr => exact .inl fun j hj => absurd hj (Nat.not_lt_zero j)
  | exitInit _ | exitSelf _ | exitParent _ _ | reparentKid _ _ _ | waitKid _ _ => exact h
  | sleepSelf _ _ => trivial
  | _ => cases hw

/-- Nor does a move that leaves the children of the process alone. -/
theorem Place.goes {pc : Pc} (ht : s.Tree) (hg : s.Goes c p x pc m) (h : s.Place p pc) :
    s.Place p m.pc ∨ ∃ i, m.edit = .reparent i := by
  cases hg with
  | exits _ hp => exact .inl hp
  | wokeInit | readParent _ | noParent _ => exact .inl h
  | reparentKid _ hpar => exact .inl ⟨h.1, h.2, hpar⟩
  | @reparentNext st op i _ hpar =>
    refine .inl ⟨h.1, fun j hj => ?_⟩
    by_cases hji : j = i
    · rwa [hji]
    · exact h.2 j (by omega)
  | @reparentEnds st op i hi =>
    refine .inl ⟨h.1, fun j => ?_⟩
    by_cases hj : j < i
    · exact h.2 j hj
    · rw [ht.orphan j (ht.bound j (by omega))]
      simp
  | reparented => exact .inr ⟨_, rfl⟩
  | waitKid _ hpar => exact .inl hpar
  | @waitNext addr i havekids _ hpar =>
    cases havekids with
    | true => exact .inl trivial
    | false =>
      left
      rcases h with hall | ⟨hp, j, hij, hj⟩
      · refine .inl fun j hj => ?_
        by_cases hji : j = i
        · rwa [hji]
        · exact hall j (by omega)
      · refine .inr ⟨hp, j, ?_, hj⟩
        have hji : j ≠ i := by
          rintro rfl
          exact hpar (by rw [hj, hp])
        omega
  | _ => exact .inl trivial

theorem Place.moves (ht : s.Tree) (hm : s.Moves c p x m) :
    s.Place p m.pc ∨ ∃ i, m.edit = .reparent i := by
  have h := ht.place p
  cases hm.acts with
  | exec _ hpc _ _ hg =>
    rw [hpc] at h
    exact h.goes ht hg
  | awakes _ _ | revives _ _ => exact .inl trivial
  | rescans _ _ => exact .inl (.inl fun j hj => absurd hj (Nat.not_lt_zero j))
  | _ => exact .inl h

namespace Tree

theorem parent_of_alike {v : Proc} (ht : s.Tree) (h : Alike (s.proc j) v) :
    v.parent = (s.proc j).parent :=
  h.parent.elim id fun hj => by rw [hj.2, ht.orphan j hj.1]

/-- A process that is given away is a child of the one that does it. -/
theorem parent_of_reparent (ht : s.Tree) (hm : s.Moves c p x m) (he : m.edit = .reparent i) :
    p ≠ initproc ∧ (s.proc i).parent = some p := by
  obtain ⟨-, -, st, op, hpc, -⟩ := hm.edit_at he
  have h := ht.place p
  rw [hpc] at h
  exact ⟨h.1, h.2.2⟩

/-- So is one that is freed. -/
theorem parent_of_reap {addr : ℕ} (ht : s.Tree) (hm : s.Moves c p x m)
    (he : m.edit = .reap addr i) : (s.proc i).parent = some p := by
  have h := ht.place p
  rw [(hm.edit_at he).2.2.1] at h
  exact h

/-- And who exits has no children left. -/
theorem childless_of_exit {op : ℕ} {st : ℤ} (ht : s.Tree) (hm : s.Moves c p x m)
    (he : m.edit = .exit op st) : p ≠ initproc ∧ ∀ j, (s.proc j).parent ≠ some p := by
  have h := ht.place p
  rw [(hm.edit_at he).2.2.1] at h
  exact h

/-- **Only a process changes the parent of its children.** -/
theorem keepsChildren (ht : s.Tree) (hctl : s.Control) (hch : s.Change a s')
    (hq : ∀ c x, a = .run c x → s.sched c ≠ .out q) : KeepsChildren s s' q := by
  have hne : ∀ {c p x j}, a = .run c x → s.sched c = .out p → (s.proc j).parent = some p →
      (s.proc j).parent ≠ some q := by
    rintro c p x j ha hc hp hj
    rw [hp] at hj
    cases hj
    exact hq c x ha hc
  refine ⟨fun j hj => ?_, fun j hj => ?_⟩
  · cases hch.fate j with
    | stays h _ => rw [ht.parent_of_alike h, hj]
    | forked _ hm he _ _ _ =>
      rw [ht.orphan j (hm.edit_at he).2.2.2.2] at hj
      cases hj
    | given hc hm he _ _ => exact absurd hj (hne rfl hc (ht.parent_of_reparent hm he).2)
    | exited _ _ _ _ _ hp _ _ => rw [hp, hj]
    | freed hc hm he _ _ => exact absurd hj (hne rfl hc (ht.parent_of_reap hm he))
  · cases hch.fate j with
    | stays h _ => exact .inl (by rw [← ht.parent_of_alike h, hj])
    | forked hc _ _ hp _ _ =>
      rw [hp] at hj
      cases hj
      exact absurd hc (hq _ _ rfl)
    | given hc hm he hp _ =>
      rw [hp] at hj
      -- who gives a child away has an ancestor under `initproc`
      have hlive := hctl.live_of_exec hc (hm.edit_at he).1
      exact .inr ⟨(Option.some.inj hj).symm,
        ht.exists_child hlive.1 (ht.parent_of_reparent hm he).1⟩
    | exited _ _ _ _ _ hp _ _ => exact .inl (by rw [← hp, hj])
    | freed _ _ _ hp _ =>
      rw [hp] at hj
      cases hj

theorem place_step (ht : s.Tree) (hctl : s.Control) (hs : s.Step a s') (q : ℕ) :
    s'.Place q (s'.pc q) := by
  have hch := hs.change hctl
  refine hs.place (P := Place) hctl ?_ (fun q i pc hw h => h.got hw)
    (fun _ _ _ _ _ _ => trivial)
    (fun q hq _ h => h.keep (ht.keepsChildren hctl hch hq)) ?_ ht.place q
  · intro s₁ s₂ hp _ q pc h
    exact h.keep (.of_eq (fun j => by rw [hp]) q)
  · rintro c p x m - hc hm rfl h
    have hf := hm.edit_from
    by_cases hre : ∃ i, m.edit = .reparent i
    · obtain ⟨i, he⟩ := hre
      rw [he] at hf
      obtain ⟨-, -, st, op, hpc, hpc'⟩ := hf
      rw [hpc] at h
      rw [hpc']
      refine ⟨h.1, fun j hj => ?_⟩
      simp only [ProcSys.commit, he, Edit.apply]
      by_cases hji : j = i
      · subst hji
        simp [Ne.symm h.1]
      · rw [update_of_ne hji]
        exact h.2.1 j (by omega)
    · have hplace := (Place.moves ht hm).resolve_right hre
      rcases quiet_or_edit hctl hc hm with hq | ⟨i, he⟩ | he | ⟨op, st, he⟩ | ⟨addr, i, he⟩
      · exact hplace.keep (.of_eq (fun j => ht.parent_of_alike (hq.alike j)) p)
      · rw [he] at hf
        rw [hf.2.2.2.1]
        trivial
      · exact absurd he hre
      · rw [he] at hf
        rw [hf.2.2.2]
        trivial
      · rw [he] at hf
        rw [hf.2.2.2.2]
        trivial

end Tree

/-! ## The processes after a step -/

/-- The process in slot `j` was there before. -/
structure Lives (s s' : ProcSys) (j : ℕ) : Prop where
  live : (s.proc j).state ≠ .unused
  birth : s'.birth j = s.birth j
  zombie : (s.proc j).state = .zombie → (s'.proc j).state = .zombie
  parent : (s'.proc j).parent = (s.proc j).parent ∨ (s'.proc j).parent = some initproc

/-- Or it is the child that `fork` has made. -/
structure Born (s s' : ProcSys) (j : ℕ) : Prop where
  bound : j < NPROC
  unused : (s.proc j).state = .unused
  state : (s'.proc j).state = .runnable
  birth : s'.birth j = s.clock
  parent : ∃ p, (s'.proc j).parent = some p ∧ (s.proc p).state ≠ .unused ∧
    (s.proc p).state ≠ .zombie
  other : ∀ k, k ≠ j → s'.proc k = s.proc k ∧ s'.birth k = s.birth k

namespace Tree

theorem lives_or_born (ht : s.Tree) (hctl : s.Control) (h : s.Fate j a s')
    (hj : (s'.proc j).state ≠ .unused) : Lives s s' j ∨ Born s s' j := by
  cases h with
  | stays h hb => exact .inl ⟨mt h.unused.2 hj, hb, h.zombie.2, .inl (ht.parent_of_alike h)⟩
  | @forked c p x m hc hm he hp hb ho =>
    obtain ⟨hsw, -, hpc, -, hun⟩ := hm.edit_at he
    have hplace := ht.place p
    rw [hpc] at hplace
    exact .inr ⟨hplace, hun, by rw [hp]; rfl, hb, ⟨p, by rw [hp]; rfl, hctl.live_of_exec hc hsw⟩,
      ho⟩
  | given _ hm he hp hb =>
    exact .inl ⟨(ht.live_of_parent (ht.parent_of_reparent hm he).2).2, hb,
      by rw [hp]; exact id, .inr (by rw [hp])⟩
  | exited hc hm he hz _ hp _ hb =>
    exact .inl ⟨(hctl.live_of_exec hc (hm.edit_at he).1).1, hb, fun _ => hz, .inl hp⟩
  | freed _ _ _ hp _ => exact absurd (by rw [hp]; rfl) hj

/-- **A parent stays**, alive. -/
theorem parent_stays (ht : s.Tree) (h : s.Fate q a s') (hi : (s.proc i).parent = some q) :
    (s'.proc q).state ≠ .unused ∧ (s'.proc q).state ≠ .zombie ∧ s'.birth q = s.birth q := by
  obtain ⟨hne, hlive⟩ := ht.live_of_parent hi
  obtain ⟨r, hr, hl, hz, -⟩ := ht.parent i hne hlive
  rw [hi] at hr
  cases hr
  cases h with
  | stays h hb => exact ⟨mt h.unused.1 hl, mt h.zombie.1 hz, hb⟩
  | forked _ hm he _ _ _ => exact absurd (hm.edit_at he).2.2.2.2 hl
  | given _ _ _ hp hb =>
    rw [hp]
    exact ⟨hl, hz, hb⟩
  | exited _ hm he _ _ _ _ _ => exact absurd hi ((ht.childless_of_exit hm he).2 i)
  | freed _ hm he _ _ => exact absurd (hm.edit_at he).2.2.2.1 hz

/-- **So does `initproc`.** -/
theorem init_stays (ht : s.Tree) (h : s.Fate initproc a s') :
    (s'.proc initproc).state ≠ .unused ∧ (s'.proc initproc).state ≠ .zombie ∧
      (s'.proc initproc).parent = none ∧ s'.birth initproc = 0 := by
  obtain ⟨hl, hz, hpar, hbirth⟩ := ht.init
  cases h with
  | stays h hb =>
    exact ⟨mt h.unused.1 hl, mt h.zombie.1 hz, by rw [ht.parent_of_alike h, hpar],
      by rw [hb, hbirth]⟩
  | forked _ hm he _ _ _ => exact absurd (hm.edit_at he).2.2.2.2 hl
  | given _ hm he _ _ => exact absurd rfl (ht.live_of_parent (ht.parent_of_reparent hm he).2).1
  | exited _ hm he _ _ _ _ _ => exact absurd rfl (ht.childless_of_exit hm he).1
  | freed _ hm he _ _ => exact absurd (hm.edit_at he).2.2.2.1 hz

/-- **Every step keeps the tree.** -/
theorem step (ht : s.Tree) (hctl : s.Control) (hs : s.Step a s') : s'.Tree := by
  have hfate := (hs.change hctl).fate
  have hnew := fun j => ht.lives_or_born hctl (hfate j)
  have hinit := ht.init_stays (hfate initproc)
  refine ⟨fun i hi => ?_, fun i hi => ?_, hinit, fun i hi hl => ?_, fun i hl => ?_,
    ht.place_step hctl hs⟩
  · by_contra hl
    rcases hnew i hl with h | h
    · exact h.live (ht.bound i hi)
    · exact absurd h.bound (by omega)
  · cases hfate i with
    | stays h _ =>
      rw [ht.parent_of_alike h]
      exact ht.orphan i (h.unused.1 hi)
    | forked _ _ _ hp _ _ =>
      rw [hp] at hi
      cases hi
    | given _ hm he hp _ =>
      rw [hp] at hi
      exact absurd hi (ht.live_of_parent (ht.parent_of_reparent hm he).2).2
    | exited _ _ _ hz _ _ _ _ =>
      rw [hz] at hi
      cases hi
    | freed _ _ _ hp _ =>
      rw [hp]
      rfl
  · rcases hnew i hl with h | h
    · obtain ⟨q, hq, -, -, hlt⟩ := ht.parent i hi h.live
      rcases h.parent with hp | hp
      · obtain ⟨hql, hqz, hb⟩ := ht.parent_stays (hfate q) hq
        exact ⟨q, by rw [hp, hq], hql, hqz, by rwa [hb, h.birth]⟩
      · exact ⟨initproc, hp, hinit.1, hinit.2.1, by rw [hinit.2.2.2, h.birth]; omega⟩
    · obtain ⟨q, hq, hql, hqz⟩ := h.parent
      obtain ⟨hp, hb⟩ := h.other q fun e => hql (e ▸ h.unused)
      exact ⟨q, hq, by rwa [hp], by rwa [hp], by rw [hb, h.birth]; exact ht.born q hql⟩
  · rw [hs.clock]
    rcases hnew i hl with h | h
    · have := ht.born i h.live
      rw [h.birth]
      omega
    · rw [h.birth]
      omega

end Tree

end ProcSys

/-- **The tree stands in every reachable state.** -/
theorem tree_of_reachable (h : procSystem.Reachable s) : s.Tree :=
  h.invariant (fun _ h0 => h0 ▸ ProcSys.Tree.boot) fun _ _ _ hr hI hs =>
    hI.step (control_of_reachable hr) (ProcSys.step_of_run hs)

/-- **Everybody descends from `initproc`.** -/
theorem descends_from_init (h : procSystem.Reachable s) (hi : (s.proc i).state ≠ .unused) :
    Relation.ReflTransGen (fun a b => (s.proc a).parent = some b) i initproc := by
  -- a parent is older than its child
  induction hb : s.birth i using Nat.strong_induction_on generalizing i with
  | _ n ih =>
    by_cases h0 : i = initproc
    · rw [h0]
    · obtain ⟨q, hq, hlive, -, hlt⟩ := (tree_of_reachable h).parent i h0 hi
      exact .head hq (ih _ (hb ▸ hlt) hlive rfl)

/-- An orphan. -/
theorem descends_from_init_orphan : ∃ s, procSystem.Reachable s ∧ (s.proc 1).state = .zombie ∧
    Relation.ReflTransGen (fun a b => (s.proc a).parent = some b) 2 initproc := by
  obtain ⟨s, hs, hz, hi⟩ := exists_of_procFollow
    (P := fun s => (s.proc 1).state = .zombie ∧ (s.proc 2).state ≠ .unused)
    (starts 0 0 ++ calls 0 .fork ++ steps 0 4 ++ starts 1 1 ++ calls 1 .fork ++ steps 1 6 ++
      calls 1 (.exit 0) ++ steps 1 76)
    (by decide +kernel)
  exact ⟨s, hs, hz, descends_from_init hs hi⟩

end Xv6
