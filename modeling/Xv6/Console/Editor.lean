import Xv6.Common.Fifo
import Xv6.Console.Model
/-!
# The line discipline

`Editor` is what the console is for, with lists for the ring: the characters
of the line being typed, those committed and not yet read, and what each
open `consoleread` has got. Every history of the console is one of the
editor, however often the indices have wrapped.
-/

namespace Xv6

open List

open Function

namespace Console

/-! ## The reference editor -/

/-- The committed characters, the line being typed, and for each open read
the length asked for and the bytes it has got. -/
structure Editor where
  ready : List UInt8
  line : List UInt8
  read : ℕ → Option (ℤ × List UInt8)

namespace Editor

/-- Nothing typed and no read. -/
def init : Editor := ⟨[], [], fun _ => none⟩

/-- A character is entered where there is room, and commits the line if it
ends it or fills the buffer. -/
def enter (ed : Editor) (c : UInt8) : Editor :=
  let line := ed.line ++ [c]
  if c = lf ∨ c = C 'D' ∨ ed.ready.length + line.length = INPUT_BUF then
    { ed with ready := ed.ready ++ line, line := [] }
  else { ed with line }

/-- What a typed character does. -/
def input (ed : Editor) (c : UInt8) : Editor :=
  if c = 0 ∨ c = C 'P' then ed
  else if c = C 'U' then { ed with line := [] }
  else if c = C 'H' ∨ c = del then { ed with line := ed.line.dropLast }
  else if ed.ready.length + ed.line.length < INPUT_BUF then ed.enter (if c = cr then lf else c)
  else ed

/-- The editor after an event, if it is one the editor allows:

* a read gets the next committed byte, unless that is a control-D, it has
  all it asked for, or it has got a line;
* it is left with the number of its bytes when it has all or a line, or at a
  control-D, which goes only if the read has got nothing;
* a killed process is left with -1 while nothing is committed. -/
def step (ed : Editor) : Event → Option Editor
  | .input c => some (ed.input c)
  | .call p n =>
    match ed.read p with
    | none => some { ed with read := update ed.read p (some (n, [])) }
    | some _ => none
  | .byte p b =>
    match ed.read p, ed.ready with
    | some (n, got), c :: rest =>
      if c = b ∧ c ≠ C 'D' ∧ got.length < n ∧ got.getLast? ≠ some lf then
        some { ed with ready := rest, read := update ed.read p (some (n, got ++ [b])) }
      else none
    | _, _ => none
  | .ret p v =>
    match ed.read p with
    | none => none
    | some (n, got) =>
      if v = got.length ∧ (n ≤ got.length ∨ got.getLast? = some lf) then
        some { ed with read := update ed.read p none }
      else if v = got.length ∧ ed.ready.head? = some (C 'D') then
        some { ed with
          ready := if got = [] then ed.ready.tail else ed.ready
          read := update ed.read p none }
      else if v = -1 ∧ ed.ready = [] then some { ed with read := update ed.read p none }
      else none

/-- The editor after a history, if it allows it. -/
def run (events : List Event) : Option Editor := events.foldlM step init

variable {ed ed' : Editor} {es : List Event} {ev : Event} {p : ℕ} {n : ℤ} {got : List UInt8}

theorem run_append (h : run es = some ed) (hstep : ed.step ev = some ed') :
    run (es ++ [ev]) = some ed' := by
  rw [run, foldlM_append, ← run, h]
  simpa using hstep

/-- What a read has got is at most one line, and no control-D. -/
def OneLine (got : List UInt8) : Prop := lf ∉ got.dropLast ∧ C 'D' ∉ got

theorem OneLine.concat {c : UInt8} (h : OneLine got) (hlast : got.getLast? ≠ some lf)
    (hc : c ≠ C 'D') : OneLine (got ++ [c]) := by
  refine ⟨?_, by simp [h.2, Ne.symm hc]⟩
  rw [dropLast_concat]
  intro hmem
  obtain rfl | ⟨l, x, rfl⟩ := eq_nil_or_concat' got
  · cases hmem
  simp only [getLast?_append, getLast?_singleton, Option.some_or, ne_eq,
    Option.some.injEq] at hlast
  have h1 := h.1
  rw [dropLast_concat] at h1
  rw [mem_append, mem_singleton] at hmem
  exact hmem.elim h1 fun he => hlast he.symm

theorem read_input (ed : Editor) (c : UInt8) : (ed.input c).read = ed.read := by
  simp only [input, enter]
  split_ifs <;> rfl

theorem step_oneLine (h : ∀ p n got, ed.read p = some (n, got) → OneLine got)
    (hstep : ed.step ev = some ed') : ∀ p n got, ed'.read p = some (n, got) → OneLine got := by
  cases ev with
  | input c =>
    cases hstep
    rwa [read_input]
  | call q m =>
    simp only [step] at hstep
    split at hstep
    · cases hstep
      refine (forall_update_iff ed.read fun _ r => ∀ n got, r = some (n, got) → OneLine got).2
        ⟨fun n got hr => ?_, fun q' _ => h q'⟩
      cases hr
      exact ⟨by simp, by simp⟩
    · cases hstep
  | byte q c =>
    simp only [step] at hstep
    split at hstep
    · rename_i m got' c' rest hr hready
      split at hstep
      · rename_i hc
        cases hstep
        refine (forall_update_iff ed.read fun _ r => ∀ n got, r = some (n, got) → OneLine got).2
          ⟨fun n got hr' => ?_, fun q' _ => h q'⟩
        cases hr'
        exact (h q m got' hr).concat hc.2.2.2 (hc.1 ▸ hc.2.1)
      · cases hstep
    · cases hstep
  | ret q v =>
    have hread : ed'.read = update ed.read q none := by
      simp only [step] at hstep
      split at hstep
      · cases hstep
      · split_ifs at hstep <;> cases hstep <;> rfl
    rw [hread]
    exact (forall_update_iff ed.read fun _ r => ∀ n got, r = some (n, got) → OneLine got).2
      ⟨fun n got hr => (by cases hr), fun q' _ => h q'⟩

/-- **A read returns at most one line.** -/
theorem run_oneLine (h : run es = some ed) (hr : ed.read p = some (n, got)) : OneLine got := by
  induction es using List.reverseRecOn generalizing ed p n got with
  | nil =>
    cases h
    cases hr
  | append_singleton es ev ih =>
    rw [run, foldlM_append] at h
    obtain ⟨ed₀, h₀, h⟩ := Option.bind_eq_some_iff.1 h
    have hstep : ed₀.step ev = some ed := by simpa using h
    exact step_oneLine (fun p n got hr => ih h₀ hr) hstep p n got hr

/-- **A control-D ends reads**: where it is next no byte is read, a read that
has got something returns that and leaves it, and one that has not returns 0
and takes it. -/
theorem step_eof (hd : ed.ready.head? = some (C 'D')) (hstep : ed.step ev = some ed') :
    (∀ p c, ev ≠ .byte p c) ∧
      ∀ p v n got, ev = .ret p v → ed.read p = some (n, got) →
        v = got.length ∧ (got ≠ [] → ed'.ready = ed.ready) ∧
          (got = [] → 0 < n → ed'.ready = ed.ready.tail) := by
  constructor
  · rintro p c rfl
    simp only [step] at hstep
    split at hstep
    · rename_i c' rest hr hready
      rw [hready, head?_cons, Option.some.injEq] at hd
      rw [if_neg (fun hc => hc.2.1 hd)] at hstep
      cases hstep
    · cases hstep
  · rintro p v n got rfl hr
    simp only [step, hr] at hstep
    split_ifs at hstep with h1 h2 h3 h4
    · cases hstep
      refine ⟨h1.1, fun _ => rfl, ?_⟩
      rintro rfl hn
      have hle : n ≤ ([] : List UInt8).length := h1.2.resolve_right (by simp)
      exact absurd hn (Int.not_lt.2 hle)
    · cases hstep
      exact ⟨h2.1, fun hne => absurd h3 hne, fun _ _ => rfl⟩
    · cases hstep
      exact ⟨h2.1, fun _ => rfl, fun he => absurd he h3⟩
    · rw [h4.2] at hd
      cases hd

/-! ## When the editor allows an event -/

theorem step_call (hr : ed.read p = none) :
    ed.step (.call p n) = some { ed with read := update ed.read p (some (n, [])) } := by
  simp only [step, hr]

section

variable (hr : ed.read p = some (n, got))
include hr

theorem step_done (h : n ≤ got.length ∨ got.getLast? = some lf) :
    ed.step (.ret p got.length) = some { ed with read := update ed.read p none } := by
  simp only [step, hr]
  exact if_pos ⟨trivial, h⟩

theorem step_stop (hlt : got.length < n)
    (hlast : got.getLast? ≠ some lf) (hd : ed.ready.head? = some (C 'D')) :
    ed.step (.ret p got.length) = some { ed with
      ready := if got = [] then ed.ready.tail else ed.ready
      read := update ed.read p none } := by
  simp only [step, hr]
  rw [if_neg fun h => h.2.elim (Int.not_le.2 hlt) hlast]
  exact if_pos ⟨trivial, hd⟩

theorem step_killed (hnil : ed.ready = []) :
    ed.step (.ret p (-1)) = some { ed with read := update ed.read p none } := by
  have hne : ¬ (-1 : ℤ) = got.length := by omega
  simp only [step, hr, hne, hnil, false_and, if_false]
  rfl

theorem step_byte {c : UInt8} {rest : List UInt8}
    (hready : ed.ready = c :: rest) (hc : c ≠ C 'D') (hlt : got.length < n)
    (hlast : got.getLast? ≠ some lf) :
    ed.step (.byte p c) =
      some { ed with ready := rest, read := update ed.read p (some (n, got ++ [c])) } := by
  simp only [step, hr, hready]
  exact if_pos ⟨trivial, hc, hlt, hlast⟩

end

end Editor

end Console

end Xv6
