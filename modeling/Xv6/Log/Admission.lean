import Xv6.Log.Transaction
/-!
# Log admission

`begin_op` admits an operation when the log has room for `MAXOPBLOCKS`
more blocks than it holds and has promised, out of `LOGSIZE`. The log
`mkfs` makes has `LOGSIZE` blocks with the header among them, so it holds
one block less than is promised; and `log_write` looks for room before it
looks whether the block is logged already, and before it takes the lock.
-/

namespace Xv6

open Common

namespace LogSys

variable {P : Type} {s : LogSys P}

/-- The distinct blocks logged since the last commit. -/
def logged (s : LogSys P) : Finset ℕ := (s.writes.map Logged.block).toFinset

/-- The distinct blocks an operation has logged. -/
def loggedBy (s : LogSys P) (o : ℕ) : Finset ℕ :=
  ((s.writes.filter fun w => w.op = o).map Logged.block).toFinset

/-- Each operation logs at most `MAXOPBLOCKS` distinct blocks, any number
of times each. -/
def Bounded (s : LogSys P) : LogAct P → Prop
  | .logCheck p b => (insert b (s.loggedBy (s.opOf p))).card ≤ MAXOPBLOCKS
  | _ => True

instance (s : LogSys P) : (a : LogAct P) → Decidable (s.Bounded a)
  | .logCheck p b => inferInstanceAs
      (Decidable ((insert b (s.loggedBy (s.opOf p))).card ≤ MAXOPBLOCKS))
  | .beginOp _ | .lock _ _ | .modify _ _ _ | .logWrite _ _ | .unlock _ _ | .endOp _ | .commit _ =>
      isTrue trivial

/-- On a file system `mkfs` made, operations within their bound. -/
def boundedSystem (P : Type) [DecidableEq P] : System (LogSys P) (LogAct P) :=
  .guarded (fun s => s.Start ∧ s.log.size = LOGSIZE)
    (fun s a => (s.panic = none ∧ s.Enabled a) ∧ s.Bounded a) next

/-- **What admission promises**: `log_write` finds room, stays inside
`lh.block`, and gives every logged block a slot of its own inside the log
area. -/
structure Admitted (s : LogSys P) : Prop where
  notTooBig : s.panic ≠ some .tooBigTransaction
  noOverflow : s.panic ≠ some .logBlockOverflow
  nodup : s.log.lh.blocks.Nodup
  inside : ∀ i, i < s.log.lh.n → s.log.start + i + 1 < s.log.start + s.log.size

/-- There is room for the `log_write`: fewer blocks are logged than the
log has slots when it looks, and still when it adds a block that is not
logged. -/
def Room (s : LogSys P) : LogAct P → Prop
  | .logCheck _ _ => s.logged.card < s.log.size - 1
  | .logWrite _ b => b ∈ s.logged ∨ s.logged.card < s.log.size - 1
  | _ => True

/-- The log area stays, its header is kept or emptied, and nobody runs out
of room. -/
structure SameRoom (s s' : LogSys P) : Prop where
  start : s'.log.start = s.log.start
  size : s'.log.size = s.log.size
  header : s'.log.lh = s.log.lh ∨ s'.log.lh.n = 0
  panic : s'.panic = s.panic ∨ s'.panic = some .logCommitting

instance (s : LogSys P) : (a : LogAct P) → Decidable (s.Room a)
  | .logCheck _ _ => inferInstanceAs (Decidable (s.logged.card < s.log.size - 1))
  | .logWrite _ b => inferInstanceAs (Decidable (b ∈ s.logged ∨ s.logged.card < s.log.size - 1))
  | .beginOp _ | .lock _ _ | .modify _ _ _ | .unlock _ _ | .endOp _ | .commit _ => isTrue trivial

theorem SameRoom.refl : s.SameRoom s := ⟨rfl, rfl, .inl rfl, .inl rfl⟩

theorem SameRoom.admitted {s' : LogSys P} (h : s.SameRoom s') (hs : s.Admitted) : s'.Admitted := by
  refine ⟨fun he => ?_, fun he => ?_, ?_, fun i hi => ?_⟩
  · rcases h.panic with hp | hp
    · exact hs.notTooBig (hp ▸ he)
    · simp [hp] at he
  · rcases h.panic with hp | hp
    · exact hs.noOverflow (hp ▸ he)
    · simp [hp] at he
  · rcases h.header with hh | hh
    · rw [hh]; exact hs.nodup
    · simp [LogHeader.blocks, hh]
  · rw [h.start, h.size]
    rcases h.header with hh | hh
    · exact hs.inside i (hh ▸ hi)
    · omega

/-- The header counts the distinct blocks logged. -/
theorem card_logged (h : s.log.Collects s.writes) : s.logged.card = s.log.lh.n := by
  have hset : s.logged = s.log.lh.blocks.toFinset := by
    ext b
    simp [logged, h.mem_iff]
  rw [hset, List.toFinset_card_of_nodup h.nodup]
  simp [LogHeader.blocks]

theorem mem_logged (h : s.log.Collects s.writes) {b : ℕ} : b ∈ s.logged ↔ b ∈ s.log.lh.blocks := by
  simp [logged, h.mem_iff]

variable [DecidableEq P]

/-- Only `log_write` uses up room. -/
theorem sameRoom_next (a : LogAct P) (hcheck : ∀ p b, a ≠ .logCheck p b)
    (hwrite : ∀ p b, a ≠ .logWrite p b) : s.SameRoom (s.next a) := by
  cases a with
  | beginOp p =>
    simp only [next]
    split
    · rename_i log hlog
      rw [(Log.beginOp_eq_some.1 hlog).2.2]
      exact ⟨rfl, rfl, .inl rfl, .inl rfl⟩
    · exact .refl
  | lock | modify | unlock => exact ⟨rfl, rfl, .inl rfl, .inl rfl⟩
  | logCheck p b => exact absurd rfl (hcheck p b)
  | logWrite p b => exact absurd rfl (hwrite p b)
  | endOp p =>
    simp only [next, Log.endOp]
    split_ifs
    · exact ⟨rfl, rfl, .inl rfl, .inr rfl⟩
    · exact ⟨rfl, rfl, .inl rfl, .inl rfl⟩
    · exact ⟨rfl, rfl, .inl rfl, .inl rfl⟩
  | commit p =>
    simp only [next]
    split
    · rename_i c hp
      cases c with
      | writeLog | install =>
        simp only [commitStep]
        split_ifs <;> exact ⟨rfl, rfl, .inl rfl, .inl rfl⟩
      | writeHead | erase | finish => exact ⟨rfl, rfl, .inl rfl, .inl rfl⟩
      | clear => exact ⟨rfl, rfl, .inr rfl, .inl rfl⟩
    · exact .refl

/-- **Room is what it takes**, step by step: with all well so far, a step
keeps it so exactly when it finds room. -/
theorem admitted_next (h : (system P).Reachable s) (hsize : s.log.size = LOGSIZE)
    (hs : s.Admitted) {a : LogAct P} (ha : s.Enabled a) : (s.next a).Admitted ↔ s.Room a := by
  have hc := Ctl.reachable h
  have ht := Txn.reachable h
  have hcol : ∀ {p}, (s.pc p).Busy → s.log.Collects s.writes := fun hp =>
    ht.opened (Txn.not_committing_of_busy hc hp)
  have hn : s.log.lh.n ≤ s.log.size - 1 := by
    by_contra hn
    have := hs.inside (s.log.size - 1) (by omega)
    simp only [LOGSIZE, MAXOPBLOCKS] at hsize
    omega
  simp only [LOGSIZE, MAXOPBLOCKS] at hsize
  cases a with
  | logCheck p b =>
    have hp : (s.pc p).Busy := by simp [ha.1]
    have hout : ¬ s.log.outstanding < 1 := by
      obtain ⟨A, hA, hcard⟩ := hc.count
      have : 0 < A.card := Finset.card_pos.2 ⟨p, (hA p).2 hp⟩
      omega
    simp only [Room, card_logged (hcol hp), next, Log.logWriteCheck, if_neg hout]
    by_cases hroom : s.log.lh.n < s.log.size - 1
    · rw [if_neg (by simp only [LOGSIZE, MAXOPBLOCKS]; omega)]
      exact iff_of_true ⟨hs.notTooBig, hs.noOverflow, hs.nodup, hs.inside⟩ hroom
    · rw [if_pos (by simp only [LOGSIZE, MAXOPBLOCKS]; omega)]
      exact iff_of_false (fun h => h.notTooBig rfl) hroom
  | logWrite p b =>
    have hpc : s.pc p = .logging b := ha
    have hp : (s.pc p).Busy := by simp [hpc]
    simp only [Room, card_logged (hcol hp), mem_logged (hcol hp), next]
    by_cases hb : b ∈ s.log.lh.blocks
    · rw [Log.logWrite_of_mem hb ht.le]
      exact iff_of_true ⟨hs.notTooBig, hs.noOverflow, hs.nodup, hs.inside⟩ (.inl hb)
    rw [Log.logWrite_of_not_mem hb, if_neg (by simp only [LOGSIZE, MAXOPBLOCKS]; omega)]
    simp only [hb, false_or]
    constructor
    · intro h
      have := h.inside s.log.lh.n (by simp [Log.append])
      simp only [Log.append] at this
      omega
    · intro hroom
      refine ⟨hs.notTooBig, hs.noOverflow, ?_, fun i hi => ?_⟩
      · have happ : s.log.logWrite b = .ok (true, s.log.append b) := by
          rw [Log.logWrite_of_not_mem hb, if_neg (by simp only [LOGSIZE, MAXOPBLOCKS]; omega)]
        exact (Log.logWrite_blocks hs.nodup ht.le happ).1
      · simp only [Log.append] at hi ⊢
        omega
  | _ => exact iff_of_true ((sameRoom_next _ (by simp) (by simp)).admitted hs) trivial

theorem reachable_of_bounded (h : (boundedSystem P).Reachable s) :
    (system P).Reachable s ∧ s.log.size = LOGSIZE := by
  induction h with
  | init hs => exact ⟨.init hs.1, hs.2⟩
  | @step s s' a _ hs ih =>
    obtain ⟨⟨hen, -⟩, rfl⟩ := hs
    refine ⟨ih.1.step ⟨hen, rfl⟩, ?_⟩
    rw [← ih.2]
    cases a with
    | logCheck p b => simp only [next]; split <;> rfl
    | logWrite p b =>
      simp only [next]
      split
      · rename_i pin log hlog
        rw [Log.logWrite_frame hlog]
      · rfl
    | _ => exact (sameRoom_next _ (by simp) (by simp)).size

/-- **Admission, where there is room.** Every run of bounded operations in
which each `log_write` finds room — fewer than `nlog - 1` distinct blocks
logged since the last commit, when it looks and when it adds one — keeps
the promise in all its states; and a `log_write` that finds none breaks it
there and then. -/
theorem admitted_of_room (h : ((boundedSystem P).restrict Room).Reachable s) :
    s.Admitted ∧ ∀ a, s.panic = none → s.Enabled a → ((s.next a).Admitted ↔ s.Room a) := by
  have hs : s.Admitted := by
    refine h.invariant (fun s hs => ?_) fun s a s' hr hi hs => ?_
    · have hn := hs.1.n
      exact ⟨by simp [hs.1.panic], by simp [hs.1.panic], by simp [LogHeader.blocks, hn], by omega⟩
    · obtain ⟨hroom, ⟨⟨-, hen⟩, -⟩, rfl⟩ := hs
      obtain ⟨hreach, hsize⟩ := reachable_of_bounded hr.of_restrict
      exact (admitted_next hreach hsize hi hen).2 hroom
  obtain ⟨hreach, hsize⟩ := reachable_of_bounded h.of_restrict
  exact ⟨hs, fun a _ ha => admitted_next hreach hsize hs ha⟩

/-- Two blocks logged, and the first of them twice. -/
theorem admitted_of_room_two : ∃ s : LogSys Bool,
    ((boundedSystem Bool).restrict Room).Reachable s ∧ s.log.lh.n = 2 ∧ s.Admitted := by
  obtain ⟨s, hs, hn⟩ : ∃ s, ((boundedSystem Bool).restrict Room).Reachable s ∧ s.log.lh.n = 2 :=
    System.exists_of_follow_restrict (s := fresh Bool) ⟨fresh_start, rfl⟩ [.beginOp true,
      .lock true 45, .logCheck true 45, .logWrite true 45, .lock true 46, .logCheck true 46,
      .logWrite true 46, .logCheck true 45, .logWrite true 45] (by decide +kernel)
  exact ⟨s, hs, hn, (admitted_of_room hs).1⟩

/-- Three operations log ten blocks each, one after another. -/
def logTen (i : ℕ) : List (LogAct (Fin 3)) :=
  let p : Fin 3 := if i < 10 then 0 else if i < 20 then 1 else 2
  [.lock p (45 + i), .logCheck p (45 + i), .logWrite p (45 + i)]

/-- **The promise is not kept.** Three operations of `MAXOPBLOCKS` blocks
each are admitted together. The last block finds the log full and panics;
and where the two last `log_write`s both look before either adds its block,
the second gets a slot past the end of the log area. -/
theorem admission_fails :
    (∃ s, (boundedSystem (Fin 3)).Reachable s ∧ s.panic = some .tooBigTransaction) ∧
    ∃ s, (boundedSystem (Fin 3)).Reachable s ∧ s.panic = none ∧
      ∃ i, i < s.log.lh.n ∧ ¬ s.log.start + i + 1 < s.log.start + s.log.size := by
  let begins : List (LogAct (Fin 3)) := [.beginOp 0, .beginOp 1, .beginOp 2]
  constructor
  · exact System.exists_of_follow (s := fresh (Fin 3)) ⟨fresh_start, rfl⟩
      (begins ++ (List.range 29).flatMap logTen ++ [.lock 2 74, .logCheck 2 74])
      (by decide +kernel)
  · obtain ⟨s, hs, hp, hn, hz⟩ : ∃ s, (boundedSystem (Fin 3)).Reachable s ∧ s.panic = none ∧
        s.log.lh.n = 30 ∧ s.log.size = 30 :=
      System.exists_of_follow (s := fresh (Fin 3)) ⟨fresh_start, rfl⟩
        (begins ++ ((List.range 29).filter (· ≠ 19)).flatMap logTen ++ [.lock 1 64, .lock 2 74,
          .logCheck 1 64, .logCheck 2 74, .logWrite 1 64, .logWrite 2 74]) (by decide +kernel)
    exact ⟨s, hs, hp, 29, by omega, by omega⟩

end LogSys

end Xv6
