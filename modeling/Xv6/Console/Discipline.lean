import Xv6.Console.Editor
/-!
# The console is the editor

The ring between `r` and `w` has the committed characters and the ring
between `w` and `e` the line being typed (`Sees`). `consoleintr` does to the
ring what the editor does to its lists, and so does every iteration of
`consoleread`.
-/

namespace Xv6

open Common Function List

namespace Console

variable {k : Cons} {ed : Editor} {out line : List UInt8} {c : UInt8} {n : ℕ}

/-- **What the ring has**, after `out` was read from it. -/
structure Sees (k : Cons) (ed : Editor) (out : List UInt8) : Prop where
  carries : Carries INPUT_BUF (2 ^ 32) k.buf k.r k.e out (out ++ (ed.ready ++ ed.line))
  write : k.w = (out ++ ed.ready).length % 2 ^ 32
  full : ed.ready.length + ed.line.length = INPUT_BUF → ed.line = []
  plain : lf ∉ ed.line

theorem sub_one (L : ℕ) : sub ((L + 1) % 2 ^ 32) 1 = L % 2 ^ 32 := by
  rw [sub]
  omega

namespace Sees

section

variable (h : Sees k ed out)
include h

/-- The committed part of the ring. -/
theorem committed : Carries INPUT_BUF (2 ^ 32) k.buf k.r k.w out (out ++ ed.ready) := by
  rw [h.write]
  exact h.carries.back

theorem length_le : ed.ready.length + ed.line.length ≤ INPUT_BUF := by
  have hroom := h.carries.room
  simp only [length_append] at hroom
  omega

theorem sub_edit : sub k.e k.r = ed.ready.length + ed.line.length := by
  rw [sub, h.carries.sub_mod (by decide)]
  simp

theorem sub_write : sub k.w k.r = ed.ready.length := by
  rw [sub, h.committed.sub_mod (by decide)]
  simp

theorem write_eq_edit_iff : k.w = k.e ↔ ed.line = [] := by
  have hle := h.length_le
  rw [h.write, h.carries.write, ← length_eq_zero_iff]
  constructor
  · intro heq
    have := eq_of_mod_eq (by simp only [length_append]; omega)
      (by simp only [length_append]; rw [show INPUT_BUF = 128 from rfl] at hle; omega) heq
    simp only [length_append] at this
    omega
  · intro hnil
    simp only [length_append, hnil]
    rfl

theorem read_eq_write_iff : k.r = k.w ↔ ed.ready = [] := by
  rw [h.committed.read_eq_write_iff (by decide), ← length_eq_zero_iff, length_append]
  omega

/-- **The last character typed** goes. -/
theorem back (hline : ed.line = line ++ [c]) :
    k.buf (sub k.e 1 % INPUT_BUF) = c ∧
      Sees { k with e := sub k.e 1 } { ed with line } out := by
  have hcar := h.carries
  rw [hline, ← append_assoc ed.ready] at hcar
  have hlen : (out ++ (ed.ready ++ line ++ [c])).length =
      (out ++ (ed.ready ++ line)).length + 1 := by
    rw [← append_assoc out, length_append, length_singleton]
  have hedit : sub k.e 1 = (out ++ (ed.ready ++ line)).length % 2 ^ 32 := by
    rw [hcar.write, hlen, sub_one]
  have hslot := hcar.slot (out ++ (ed.ready ++ line)).length
    (by simp only [length_append]; omega) (by rw [hlen]; exact Nat.lt_succ_self _)
  refine ⟨?_, ?_, h.write, fun hfull => ?_, ?_⟩
  · rw [hedit, Nat.mod_mod_of_dvd _ (by decide)]
    rw [← append_assoc out, getElem?_append_right le_rfl, Nat.sub_self] at hslot
    exact (Option.some.inj hslot).symm
  · rw [hedit]
    exact hcar.back
  · have hle := h.length_le
    rw [hline, length_append] at hle
    exact absurd hle (by rw [← hfull]; simp)
  · have hplain := h.plain
    rw [hline, mem_append, not_or] at hplain
    exact hplain.1

/-- Control-U. -/
theorem killLine (hn : ed.line.length ≤ n) : Sees (k.killLine n) { ed with line := [] } out := by
  induction n generalizing k ed with
  | zero =>
    have hnil : ed.line = [] := length_eq_zero_iff.1 (by omega)
    rw [Cons.killLine, ← hnil]
    exact h
  | succ n ih =>
    rw [Cons.killLine]
    obtain hnil | ⟨line, c, hline⟩ := eq_nil_or_concat' ed.line
    · rw [if_neg fun hc => hc.1 (h.write_eq_edit_iff.2 hnil).symm, ← hnil]
      exact h
    obtain ⟨hc, h'⟩ := h.back hline
    have hne : k.e ≠ k.w := fun he => by
      have := h.write_eq_edit_iff.1 he.symm
      simp [hline] at this
    have hlf : c ≠ lf := by
      rintro rfl
      exact h.plain (by rw [hline]; simp)
    rw [hline, length_append] at hn
    rw [if_pos ⟨hne, hc.symm ▸ hlf⟩]
    have hkill := ih h' (Nat.le_of_lt_succ hn)
    exact hkill

/-- A character is entered. -/
theorem enter (hroom : ed.ready.length + ed.line.length < INPUT_BUF) :
    Sees (k.enter c) (ed.enter c) out := by
  have hpush := h.carries.push (by decide) (by decide)
    (mt (h.carries.write_eq_iff (by decide)).1 (by simp only [length_append]; omega)) c
  rw [append_assoc, append_assoc] at hpush
  have hfull : (k.e + 1) % 2 ^ 32 = (k.r + INPUT_BUF) % 2 ^ 32 ↔
      ed.ready.length + (ed.line ++ [c]).length = INPUT_BUF := by
    rw [hpush.write_eq_iff (by decide)]
    simp only [length_append]
    omega
  simp only [Cons.enter, Editor.enter, hfull]
  split
  · refine ⟨?_, ?_, fun _ => rfl, by simp⟩
    · rw [append_nil]
      exact hpush
    · exact hpush.write
  · rename_i hno
    simp only [not_or] at hno
    refine ⟨hpush, h.write, fun hf => absurd hf hno.2.2, ?_⟩
    rw [mem_append, mem_singleton, not_or]
    exact ⟨h.plain, Ne.symm hno.1⟩

/-- **`consoleintr` is the editor's `input`.** -/
theorem consoleintr : Sees (k.consoleintr c) (ed.input c) out := by
  rw [Cons.consoleintr, Editor.input]
  by_cases hP : c = C 'P'
  · rw [if_pos hP, if_pos (.inr hP)]
    exact h
  rw [if_neg hP]
  by_cases hU : c = C 'U'
  · subst hU
    rw [if_pos rfl, if_neg (by decide), if_pos rfl]
    have hle := h.length_le
    exact h.killLine (by rw [show INPUT_BUF = 128 from rfl] at hle; omega)
  rw [if_neg hU]
  by_cases hH : c = C 'H' ∨ c = del
  · have h0 : ¬ (c = 0 ∨ c = C 'P') := by
      rintro (rfl | rfl)
      · revert hH
        decide
      · exact hP rfl
    rw [if_pos hH, if_neg h0, if_neg hU, if_pos hH]
    obtain hnil | ⟨line, x, hline⟩ := eq_nil_or_concat' ed.line
    · rw [if_neg (not_not.2 (h.write_eq_edit_iff.2 hnil).symm), hnil, dropLast_nil, ← hnil]
      exact h
    · have hne : k.e ≠ k.w := fun he => by
        have := h.write_eq_edit_iff.1 he.symm
        simp [hline] at this
      rw [if_pos hne, hline, dropLast_concat]
      exact (h.back hline).2
  rw [if_neg hH, h.sub_edit]
  by_cases h0 : c = 0
  · rw [if_neg (fun hc => hc.1 h0), if_pos (.inl h0)]
    exact h
  rw [if_neg (not_or.2 ⟨h0, hP⟩), if_neg hU, if_neg hH]
  by_cases hroom : ed.ready.length + ed.line.length < INPUT_BUF
  · rw [if_pos ⟨h0, hroom⟩, if_pos hroom]
    exact h.enter hroom
  · rw [if_neg (fun hc => hroom hc.2), if_neg hroom]
    exact h

/-- The next committed character is taken. -/
theorem take (hne : k.r ≠ k.w) :
    ∃ rest, ed.ready = k.buf (k.r % INPUT_BUF) :: rest ∧
      Sees { k with r := (k.r + 1) % 2 ^ 32 } { ed with ready := rest }
        (out ++ [k.buf (k.r % INPUT_BUF)]) := by
  have hcom := h.committed
  cases hready : ed.ready with
  | nil => exact absurd (h.read_eq_write_iff.2 hready) hne
  | cons c rest =>
    have hdrop := hcom.drop_eq (by decide) (by rw [hready, length_append]; simp)
    rw [drop_left, hready] at hdrop
    obtain rfl : c = k.buf (k.r % INPUT_BUF) := (List.cons.inj hdrop).1
    refine ⟨rest, rfl, ?_, ?_, fun hf => ?_, h.plain⟩
    · have hpop := h.carries.pop (by decide) (by decide)
        (mt (h.carries.read_eq_write_iff (by decide)).1 (by simp [hready]))
      rw [hready] at hpop
      simpa using hpop
    · rw [h.write, hready]
      simp
    · have hle := h.length_le
      rw [hready, length_cons] at hle
      exact absurd hf (by simp only; omega)

end

end Sees

/-! ## Readers -/

variable {s : State} {p q : ℕ} {pc : Pc} {target : ℕ} {m v : ℤ} {killed : Bool}

/-- What the editor knows of a process at a point of `consoleread`. -/
def At (ed : Editor) (p : ℕ) : Pc → Prop
  | .idle | .release => ed.read p = none
  | .start n => ed.read p = some (n, []) ∧ -2 ^ 31 ≤ n ∧ n < 2 ^ 31
  | .loop target n | .asleep target n =>
    ∃ (asked : ℤ) (got : List UInt8), ed.read p = some (asked, got) ∧ target = asUint asked ∧
      n = asked - got.length ∧ (got = [] ∨ 0 ≤ n) ∧ lf ∉ got ∧ asked < 2 ^ 31

/-- **The invariant**: the history is one of the editor. -/
structure Inv (s : State) (ed : Editor) (out : List UInt8) : Prop where
  run : Editor.run s.events = some ed
  sees : Sees s.cons ed out
  at' : ∀ p, At ed p (s.pc p)

/-- `target - n` is the number of bytes copied. -/
theorem asInt_sub (asked : ℤ) {g : ℕ} (hg : g < 2 ^ 31) :
    asInt (sub (asUint asked) (asUint (asked - g))) = g := by
  have hsub : sub (asUint asked) (asUint (asked - g)) = g := by
    simp only [sub, asUint]
    omega
  rw [hsub, asInt, if_pos hg]

theorem At.congr {ed' : Editor} (h : At ed p pc) (hread : ed'.read p = ed.read p) :
    At ed' p pc := by
  cases pc <;> simpa only [At, hread] using h

namespace Inv

/-- A step that is no event. -/
theorem quiet (h : Inv s ed out) {lock : Option ℕ} (hat : At ed p pc) :
    Inv { s with lock, pc := update s.pc p pc } ed out :=
  ⟨h.run, h.sees, (forall_update_iff s.pc fun q => At ed q).2 ⟨hat, fun q _ => h.at' q⟩⟩

/-- Events of a process concern its own read only. -/
theorem event (h : Inv s ed out) {ed' : Editor} {out' : List UInt8} {k : Cons} {es : List Event}
    (hrun : Editor.run es = some ed') (hsees : Sees k ed' out')
    (hread : ∀ q, q ≠ p → ed'.read q = ed.read q) (hat : At ed' p pc) :
    Inv { s with cons := k, pc := update s.pc p pc, events := es } ed' out' :=
  ⟨hrun, hsees, (forall_update_iff s.pc fun q => At ed' q).2
    ⟨hat, fun q hq => (h.at' q).congr (hread q hq)⟩⟩

/-- The loop is left and the committed characters stay. -/
theorem leave (h : Inv s ed out)
    (hstep : ed.step (.ret p v) = some { ed with read := update ed.read p none }) :
    Inv (s.leave p v) { ed with read := update ed.read p none } out :=
  h.event (Editor.run_append h.run hstep) ⟨h.sees.1, h.sees.2, h.sees.3, h.sees.4⟩ (fun _ hq => update_of_ne hq ..)
    (update_self ..)

/-- **An iteration that finds input.** -/
theorem take (h : Inv s ed out) (hpc : s.pc p = .loop target m) (hm : 0 < m)
    (hne : s.cons.r ≠ s.cons.w) : ∃ ed out, Inv (s.take p true target m) ed out := by
  have hat := h.at' p
  rw [hpc] at hat
  obtain ⟨asked, got, hr, rfl, rfl, -, hlf, hlt⟩ := hat
  obtain ⟨rest, hready, htake⟩ := h.sees.take hne
  have hlast : got.getLast? ≠ some lf := fun he => hlf (mem_of_getLast? he)
  have hmore : (got.length : ℤ) < asked := by omega
  have hg : got.length + 1 < 2 ^ 31 := by omega
  rw [State.take]
  by_cases hD : s.cons.buf (s.cons.r % INPUT_BUF) = C 'D'
  · -- control-D: the read index goes back if something was copied
    have hstop := Editor.step_stop hr hmore hlast (by rw [hready, head?_cons, hD])
    simp only [hD, if_true, asInt_sub asked (Nat.lt_of_succ_lt hg)]
    by_cases hgot : got = []
    · rw [if_pos hgot, hready, tail_cons] at hstop
      rw [if_neg (by rw [hgot]; simp)]
      exact ⟨_, _, h.event (Editor.run_append h.run hstop) ⟨htake.1, htake.2, htake.3, htake.4⟩
        (fun _ hq => update_of_ne hq ..) (update_self ..)⟩
    · have hback : sub ((s.cons.r + 1) % 2 ^ 32) 1 = s.cons.r := by
        rw [sub_one, h.sees.carries.read, Nat.mod_mod]
      have hpos := length_pos_of_ne_nil hgot
      rw [if_neg hgot] at hstop
      rw [if_pos (by simp only [asUint]; omega), hback]
      exact ⟨_, _, h.leave hstop⟩
  · have hbyte := Editor.run_append h.run (Editor.step_byte hr hready hD hmore hlast)
    have hlen : asked - got.length - 1 =
        asked - (got ++ [s.cons.buf (s.cons.r % INPUT_BUF)]).length := by
      rw [length_append, length_singleton]
      omega
    simp only [hD, if_false, hlen, Bool.true_eq_false]
    by_cases hc : s.cons.buf (s.cons.r % INPUT_BUF) = lf
    · rw [if_pos hc, asInt_sub asked (by simpa using hg)]
      have hdone := Editor.run_append hbyte
        (Editor.step_done (update_self ..) (.inr (by rw [hc]; simp)))
      refine ⟨_, _, h.event hdone ⟨htake.1, htake.2, htake.3, htake.4⟩ (fun _ hq => ?_)
        (update_self ..)⟩
      rw [update_idem]
      exact update_of_ne hq ..
    · rw [if_neg hc]
      refine ⟨_, _, h.event hbyte ⟨htake.1, htake.2, htake.3, htake.4⟩
        (fun _ hq => update_of_ne hq ..) ⟨asked, _, update_self .., rfl, rfl, .inr ?_, ?_, hlt⟩⟩
      · rw [← hlen]
        omega
      · rw [mem_append, mem_singleton, not_or]
        exact ⟨hlf, Ne.symm hc⟩

/-- A step of a process with a valid buffer. -/
theorem step (h : Inv s ed out) : ∃ ed out, Inv (s.step p killed true) ed out := by
  have hat := h.at' p
  rw [State.step]
  cases hpc : s.pc p with
  | idle => exact ⟨_, _, h⟩
  | start n =>
    rw [hpc] at hat
    exact ⟨_, _, h.quiet ⟨n, [], hat.1, rfl, by simp, .inl rfl, by simp, hat.2.2⟩⟩
  | asleep | release =>
    rw [hpc] at hat
    exact ⟨_, _, h.quiet hat⟩
  | loop target n =>
    dsimp only
    by_cases hn : 0 < n
    · rw [if_pos hn]
      by_cases hrw : s.cons.r = s.cons.w
      · rw [if_pos hrw]
        rw [hpc] at hat
        split
        · obtain ⟨asked, got, hr, -⟩ := hat
          exact ⟨_, _, h.leave (Editor.step_killed hr (h.sees.read_eq_write_iff.1 hrw))⟩
        · exact ⟨_, _, h.quiet hat⟩
      · rw [if_neg hrw]
        exact h.take hpc hn hrw
    · rw [if_neg hn]
      rw [hpc] at hat
      obtain ⟨asked, got, hr, rfl, rfl, hnil, -, hlt⟩ := hat
      have hle : asked ≤ got.length := by omega
      have hg : got.length < 2 ^ 31 := by
        obtain rfl | hnil := hnil
        · decide
        · omega
      rw [asInt_sub asked hg]
      exact ⟨_, _, h.leave (Editor.step_done hr (.inl hle))⟩

end Inv

theorem inv_of_reachable (h : (system.restrict ValidBuffers).Reachable s) :
    ∃ ed out, Inv s ed out := by
  refine h.invariant (I := fun s => ∃ ed out, Inv s ed out) ?_ ?_
  · rintro s ⟨hr, hw, he, -, hpc, hev⟩
    have hlen : s.cons.r = (List.replicate s.cons.r (0 : UInt8)).length % 2 ^ 32 := by
      rw [length_replicate, Nat.mod_eq_of_lt hr]
    refine ⟨Editor.init, List.replicate s.cons.r 0, by rw [hev]; rfl, ⟨?_, ?_, fun _ => rfl, ?_⟩,
      fun p => by rw [hpc p]; exact rfl⟩
    · rw [he, Editor.init, append_nil, append_nil]
      exact .drained _ _ hlen
    · rw [hw, Editor.init, append_nil]
      exact hlen
    · exact not_mem_nil
  · rintro s a s' - ⟨ed, out, h⟩ ⟨hvalid, hguard, rfl⟩
    cases a with
    | intr c =>
      refine ⟨_, out, Editor.run_append h.run rfl, h.sees.consoleintr, fun p => ?_⟩
      refine (h.at' p).congr ?_
      rw [Editor.read_input]
    | call p n =>
      have hnone := h.at' p
      rw [hguard.1] at hnone
      refine ⟨_, out, h.event (Editor.run_append h.run (Editor.step_call hnone))
        ⟨h.sees.1, h.sees.2, h.sees.3, h.sees.4⟩ (fun _ hq => update_of_ne hq ..)
        ⟨update_self .., hguard.2⟩⟩
    | step p killed copied =>
      cases hvalid
      exact h.step

/-- **The line discipline**, for any interleaving of characters and reads.
The indices keep their order, and a full buffer is committed. What readers
get, and what their calls return, is what the editor gives: its history is
that of the console, at most one line goes to a read, and a control-D ends
the read that meets it and, if that had got something, the next one as
well. -/
theorem console_discipline (h : (system.restrict ValidBuffers).Reachable s) :
    (sub s.cons.w s.cons.r ≤ sub s.cons.e s.cons.r ∧ sub s.cons.e s.cons.r ≤ INPUT_BUF ∧
      (sub s.cons.e s.cons.r = INPUT_BUF → s.cons.w = s.cons.e)) ∧
      ∃ ed, Editor.run s.events = some ed ∧
        sub s.cons.w s.cons.r = ed.ready.length ∧
        sub s.cons.e s.cons.r = ed.ready.length + ed.line.length ∧
        (∀ p n got, ed.read p = some (n, got) → lf ∉ got.dropLast ∧ C 'D' ∉ got) ∧
        ∀ ev ed', ed.ready.head? = some (C 'D') → ed.step ev = some ed' →
          (∀ p c, ev ≠ .byte p c) ∧
            ∀ p v n got, ev = .ret p v → ed.read p = some (n, got) →
              v = got.length ∧ (got ≠ [] → ed'.ready = ed.ready) ∧
                (got = [] → 0 < n → ed'.ready = ed.ready.tail) := by
  obtain ⟨ed, out, hI⟩ := inv_of_reachable h
  refine ⟨?_, ed, hI.run, hI.sees.sub_write, hI.sees.sub_edit,
    fun p n got => Editor.run_oneLine hI.run, fun ev ed' => Editor.step_eof⟩
  rw [hI.sees.sub_write, hI.sees.sub_edit]
  exact ⟨Nat.le_add_right .., hI.sees.length_le, fun hf =>
    hI.sees.write_eq_edit_iff.2 (hI.sees.full hf)⟩

/-- `ax`, a backspace, `b` and control-D are typed; the read gets `ab`, and
the next one nothing. -/
theorem console_discipline_eof : ∃ s, (system.restrict ValidBuffers).Reachable s ∧
    s.events = [.input 97, .input 120, .input 8, .input 98, .input 4, .call 0 10, .byte 0 97,
      .byte 0 98, .ret 0 2, .call 0 10, .ret 0 0] ∧
    sub s.cons.e s.cons.r ≤ INPUT_BUF := by
  obtain ⟨s, hs, h1⟩ : ∃ s, (system.restrict ValidBuffers).Reachable s ∧ s.events = [.input 97,
      .input 120, .input 8, .input 98, .input 4, .call 0 10, .byte 0 97, .byte 0 98, .ret 0 2,
      .call 0 10, .ret 0 0] :=
    System.exists_of_follow_restrict boot_start ([.intr 97, .intr 120, .intr 8, .intr 98, .intr 4, .call 0 10] ++
      List.replicate 5 (.step 0 false true) ++ [.call 0 10] ++
      List.replicate 3 (.step 0 false true)) (by decide +kernel)
  exact ⟨s, hs, h1, (console_discipline hs).1.2.1⟩

end Console

end Xv6
