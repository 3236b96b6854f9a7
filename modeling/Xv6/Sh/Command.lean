import Xv6.Common.Text
import Xv6.Sh.Parse
/-!
# `parsecmd`

`nulterminate` writes a NUL after each word of the command. Words are
maximal, so no NUL lands inside another one, and every string of the command
is the word it was parsed from. With that, `parsecmd` returns the command
that a line derives, and panics if it derives none.
-/

namespace Xv6

open Common Function List

namespace Sh

/-- The command with its strings read from memory. -/
def strings (n : ℕ) (m : ℕ → UInt8) (cmd : Cmd Ptrs) : Cmd (List UInt8) :=
  cmd.map fun q => cstring m n q.1

namespace Cmd

variable {α β : Type} {P Q : α → Prop} {f g : α → β} {cmd : Cmd α}

theorem All.imp (h : cmd.All P) (hPQ : ∀ a, P a → Q a) : cmd.All Q := by
  induction cmd with
  | exec argv => exact fun a ha => hPQ a (h a ha)
  | redir cmd file mode fd ih => exact ⟨ih h.1, hPQ _ h.2⟩
  | pipe left right ihl ihr | list left right ihl ihr => exact ⟨ihl h.1, ihr h.2⟩
  | back cmd ih => exact ih h

theorem All.and (h : cmd.All P) (h' : cmd.All Q) : cmd.All fun a => P a ∧ Q a := by
  induction cmd with
  | exec argv => exact fun a ha => ⟨h a ha, h' a ha⟩
  | redir cmd file mode fd ih => exact ⟨ih h.1 h'.1, h.2, h'.2⟩
  | pipe left right ihl ihr | list left right ihl ihr => exact ⟨ihl h.1 h'.1, ihr h.2 h'.2⟩
  | back cmd ih => exact ih h h'

theorem map_congr (h : cmd.All fun a => f a = g a) : cmd.map f = cmd.map g := by
  induction cmd with
  | exec argv => exact congrArg _ (map_congr_left h)
  | redir cmd file mode fd ih =>
    rw [map, map, ih h.1]
    exact congrArg (fun x => Cmd.redir _ x _ _) h.2
  | pipe left right ihl ihr | list left right ihl ihr => rw [map, map, ihl h.1, ihr h.2]
  | back cmd ih => rw [map, map, ih h]

end Cmd

variable {line : List UInt8} {ts : List Tok} {cmd : Cmd Ptrs} {m : ℕ → UInt8} {s i n e : ℕ}
  {q : Ptrs}

/-! ## `nulterminate` -/

/-- What does not end a word stays. -/
theorem nulterminate_of_ne (h : cmd.All fun q => q.2 ≠ i) : nulterminate cmd m i = m i := by
  induction cmd generalizing m with
  | exec argv =>
    rw [nulterminate]
    induction argv generalizing m with
    | nil => rfl
    | cons q argv ih =>
      rw [foldl_cons, ih fun a ha => h a (mem_cons_of_mem _ ha)]
      exact update_of_ne (Ne.symm (h q mem_cons_self)) ..
  | redir cmd file mode fd ih =>
    rw [nulterminate, update_of_ne (Ne.symm h.2), ih h.1]
  | pipe left right ihl ihr | list left right ihl ihr => rw [nulterminate, ihr h.2, ihl h.1]
  | back cmd ih => rw [nulterminate, ih h]

theorem update_zero (h : m i = 0) : update m e 0 i = 0 := by
  by_cases hi : i = e
  · rw [hi, update_self]
  · rw [update_of_ne hi, h]

/-- A NUL stays. -/
theorem nulterminate_zero (h : m i = 0) : nulterminate cmd m i = 0 := by
  induction cmd generalizing m with
  | exec argv =>
    rw [nulterminate]
    induction argv generalizing m with
    | nil => exact h
    | cons q argv ih => exact ih (update_zero h)
  | redir cmd file mode fd ih => exact update_zero (ih h)
  | pipe left right ihl ihr | list left right ihl ihr => exact ihr (ihl h)
  | back cmd ih => exact ih h

/-- Every word is followed by a NUL. -/
theorem nulterminate_ends (cmd : Cmd Ptrs) (m : ℕ → UInt8) :
    cmd.All fun q => nulterminate cmd m q.2 = 0 := by
  induction cmd generalizing m with
  | exec argv =>
    intro q hq
    obtain ⟨l, l', rfl⟩ := append_of_mem hq
    rw [nulterminate, foldl_append, foldl_cons, ← nulterminate.eq_1]
    exact nulterminate_zero (update_self ..)
  | redir cmd file mode fd ih => exact ⟨(ih m).imp fun q hq => update_zero hq, update_self ..⟩
  | pipe left right ihl ihr | list left right ihl ihr =>
    refine ⟨(ihl m).imp fun q hq => ?_, ihr _⟩
    rw [nulterminate]
    exact nulterminate_zero hq
  | back cmd ih => exact ih m

/-- **After `nulterminate` every string is its word.** -/
theorem strings_nulterminate (h0 : 0 ∉ line) (hall : cmd.All (WordAt line)) :
    strings (line.length + 1) (nulterminate cmd (store line)) cmd = cmd.map (word line) := by
  refine Cmd.map_congr ((hall.and (nulterminate_ends cmd (store line))).imp ?_)
  rintro q ⟨hq, hend⟩
  have hlt := hq.lt
  have hle := hq.le
  have hlen : (word line q).length = q.2 - q.1 := by
    rw [word, length_take, length_drop]
    omega
  have hword : Holds (nulterminate cmd (store line)) q.1 (word line q) := by
    intro i hi
    rw [hlen] at hi
    -- a word ends where no word character is, so not inside this one
    have hkept : nulterminate cmd (store line) (q.1 + i) = store line (q.1 + i) := by
      refine nulterminate_of_ne (hall.imp fun q' hq' he => ?_)
      have hstop := hq'.stop (by omega)
      rw [he, hq.chars _ (Nat.le_add_right ..) (by omega)] at hstop
      cases hstop
    rw [hkept, store, getD_eq_getElem?_getD, getElem?_eq_getElem (by omega), Option.getD_some]
    simp only [word, getElem_take, getElem_drop]
  refine cstring_eq hword (fun hz => h0 (mem_of_mem_drop (mem_of_mem_take hz))) ?_ (by omega)
  rw [hlen, Nat.add_sub_cancel' hlt.le]
  exact hend

/-! ## The whole line -/

/-- What is left after white space is the end of the line, or a token. -/
theorem peek_end (h : Here line s ts) :
    (peek (store line) line.length [] s).2 = line.length ↔ ts = [] := by
  obtain ⟨hskip, hhead⟩ := h.skip
  change skip (store line) line.length isSpace s = line.length ↔ ts = []
  constructor
  · intro heq
    have hlex := hskip.lexes
    rw [heq, drop_length] at hlex
    exact hlex.eq_nil
  · rintro rfl
    obtain ⟨hnil, -⟩ | ⟨t, ts', rest, heq, -⟩ := hskip.lexes.first hhead
    · exact Nat.le_antisymm hskip.le (drop_eq_nil_iff.1 hnil)
    · cases heq

theorem strlen_eq (h0 : 0 ∉ line) : strlen line = line.length := by
  rw [strlen, takeWhile_eq_self_iff.2]
  intro c hc
  exact decide_eq_true fun he => h0 (he ▸ hc)

theorem here_start {ts : List Tok} (h : Lexes line ts) : Here line 0 ts :=
  ⟨Nat.zero_le _, by rwa [drop_zero]⟩

theorem fuel_le {ts : List Tok} (h : Lexes line ts) : 4 * ts.length + 4 ≤ 4 * line.length + 4 := by
  have := h.length_le
  omega

/-- **The shell's parser accepts its grammar.** On a line without a NUL
`parsecmd` returns the command that the line derives, every string of it
ended by a NUL; if the line derives none it panics. -/
theorem parsecmd_iff_derives (line : List UInt8) (h0 : 0 ∉ line) :
    (∀ c, Derives line c ↔ ∃ cmd m, parsecmd line = .ok (cmd, m) ∧
        strings (line.length + 1) m cmd = c) ∧
      ((∃ cmd m, parsecmd line = .ok (cmd, m)) ∨ ∃ p, parsecmd line = .error (.panic p)) := by
  have hrun : ∀ cmd s, parseline (store line) line.length (4 * line.length + 4) 0 = .ok (cmd, s) →
      parsecmd line = if (peek (store line) line.length [] s).2 ≠ line.length then
        .error (.panic .leftovers) else .ok (cmd, nulterminate cmd (store line)) := by
    intro cmd s hline
    rw [parsecmd, strlen_eq h0, hline]
    rfl
  have hsim : ∀ ts, Lexes line ts → Sim line (parseline (store line) line.length
      (4 * line.length + 4) 0) (Toks.parseline (4 * line.length + 4) ts) := fun ts hlex =>
    (parse_sim h0 _).seq 0 ts (here_start hlex)
  obtain ⟨ts, hlex⟩ := exists_lexes line
  have hts := hsim ts hlex
  refine ⟨fun c => ⟨?_, ?_⟩, ?_⟩
  · rintro ⟨ts, hlex, hder⟩
    have hts := hsim ts hlex
    rw [← append_nil ts, (Toks.parse_complete _).seq ts [] c hder (fun t ht => by cases ht)
      (by rw [append_nil]; exact fuel_le hlex)] at hts
    obtain ⟨cmd, s, hline, hs, rfl, hall⟩ := hts
    refine ⟨cmd, nulterminate cmd (store line), ?_, strings_nulterminate h0 hall⟩
    rw [hrun cmd s hline, if_neg (not_not.2 ((peek_end hs).2 rfl))]
  · rintro ⟨cmd, m, hcmd, rfl⟩
    obtain ⟨us, rest, c, rfl, htoks, hder⟩ | ⟨p, htoks⟩ :=
      (Toks.parse_sound _).seq ts (fuel_le hlex) <;> rw [htoks] at hts
    · obtain ⟨cmd', s, hline, hs, rfl, hall⟩ := hts
      rw [hrun cmd' s hline] at hcmd
      split at hcmd
      · cases hcmd
      · rename_i hend
        cases hcmd
        obtain rfl := (peek_end hs).1 (not_not.1 hend)
        rw [append_nil] at hlex
        rw [strings_nulterminate h0 hall]
        exact ⟨us, hlex, hder⟩
    · rw [parsecmd, strlen_eq h0, show parseline _ _ _ _ = _ from hts] at hcmd
      cases hcmd
  · obtain ⟨us, rest, c, rfl, htoks, hder⟩ | ⟨p, htoks⟩ :=
      (Toks.parse_sound _).seq ts (fuel_le hlex) <;> rw [htoks] at hts
    · obtain ⟨cmd, s, hline, -⟩ := hts
      rw [hrun cmd s hline]
      split
      · exact .inr ⟨_, rfl⟩
      · exact .inl ⟨_, _, rfl⟩
    · refine .inr ⟨p, ?_⟩
      rw [parsecmd, strlen_eq h0, show parseline _ _ _ _ = _ from hts]
      rfl

/-- `a<x b&` -/
theorem parsecmd_iff_derives_back : Derives (chars ['a', '<', 'x', ' ', 'b', '&'])
    (.back (.redir (.exec [chars ['a'], chars ['b']]) (chars ['x']) O_RDONLY 0)) := by
  have hrun : (parsecmd (chars ['a', '<', 'x', ' ', 'b', '&'])).toOption.map
      (fun r => strings 7 r.2 r.1) = some (.back (.redir (.exec [chars ['a'], chars ['b']])
        (chars ['x']) O_RDONLY 0)) := by decide +kernel
  obtain ⟨⟨cmd, m⟩, hok, hstr⟩ := Option.map_eq_some_iff.1 hrun
  refine ((parsecmd_iff_derives _ (by decide)).1 _).2 ⟨cmd, m, ?_, hstr⟩
  cases hcmd : parsecmd (chars ['a', '<', 'x', ' ', 'b', '&']) with
  | error e => rw [hcmd] at hok; cases hok
  | ok r => rw [hcmd] at hok; cases hok; rfl

end Sh

end Xv6
