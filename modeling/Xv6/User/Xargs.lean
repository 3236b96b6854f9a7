import Xv6.Grep.Lines
import Xv6.Param
/-!
# `xargs` — `user/xargs.c`

`xargs` reads once into a buffer of `MAXARG` bytes and then scans all of
the buffer, what it held before included. For each newline it forks a
child, which overwrites the newline by a NUL in its own copy of the buffer
and executes the command.
-/

namespace Xv6

open Common Function Grep List

namespace Xargs

/-- The arguments of a process: `sys_exec` takes a vector of `MAXARG` with
the 0 that ends it, so that `xargv` has room for one more. -/
structure Args where
  argv : List (List UInt8)
  /-- `argc < MAXARG` -/
  argc_lt : argv.length < MAXARG

/-- `while (read(0, &buf, MAXARG) == 0) {}`, for at most `fuel` reads: what
`buf` then holds. At the end of the input every `read` returns 0. -/
def readBuf : ℕ → List UInt8 → List ℕ → (ℕ → UInt8) → Option (ℕ → UInt8)
  | 0, _, _, _ => none
  | fuel + 1, input, likes, buf =>
    let n := readCount MAXARG (likes.headD 0) input
    if n = 0 then readBuf fuel input likes.tail buf else some (overlay buf 0 (input.take n))

/-- The scan of the buffer from `i` on, with the beginning `p` of the line:
the argument vectors that are executed, without the final 0. `forks` says
for which bytes `fork` succeeds. -/
def scan (args : Args) (forks : ℕ → Bool) (buf : ℕ → UInt8) : ℕ → ℕ → ℕ → List (List (List UInt8))
  | 0, _, _ => []
  | k + 1, i, p =>
    if buf i = nl then
      -- the child's `buf[i] = 0` is not seen by the parent
      let child := [args.argv.tail ++ [cstring (update buf i 0) MAXARG p]]
      (if forks i then child else []) ++ scan args forks buf k (i + 1) (i + 1)
    else scan args forks buf k (i + 1) p

/-- `main`, for at most `fuel` reads: the vectors that are executed, in
this order. -/
def main (args : Args) (forks : ℕ → Bool) (buf : ℕ → UInt8) (input : List UInt8) (likes : List ℕ)
    (fuel : ℕ) : Option (List (List (List UInt8))) :=
  (readBuf fuel input likes buf).map fun buf => scan args forks buf MAXARG 0 0

variable {args : Args} {forks : ℕ → Bool} {buf : ℕ → UInt8} {input l r : List UInt8}
  {likes : List ℕ} {fuel p : ℕ}

/-- **Without input `xargs` does not end.** -/
theorem readBuf_nil (fuel : ℕ) (likes : List ℕ) : readBuf fuel [] likes buf = none := by
  induction fuel generalizing likes with
  | zero => rfl
  | succ fuel ih =>
    rw [readBuf, readCount, length_nil, Nat.min_zero, Nat.min_zero]
    exact ih _

/-- No command but at a newline. -/
theorem scan_length_le (args : Args) (forks : ℕ → Bool) (k i p : ℕ) (h : Holds buf i r) (hk : k = r.length) :
    (scan args forks buf k i p).length ≤ (lines nl r).length := by
  subst hk
  rw [length_lines]
  induction r generalizing i p with
  | nil => exact Nat.zero_le _
  | cons b r ih =>
    obtain ⟨hb, hafter⟩ := holds_cons.1 h
    rw [length_cons, scan, hb]
    split
    · rename_i hnewline
      have hnext := ih (i + 1) (i + 1) hafter
      rw [length_append, hnewline, count_cons_self]
      split
      · rw [length_singleton]
        omega
      · rw [length_nil]
        omega
    · exact (ih (i + 1) p hafter).trans (count_le_count_cons ..)

theorem forall_getElem?_cons {b c : UInt8} {P : ℕ → Prop} :
    (∀ i, (b :: r)[i]? = some c → P i) ↔ (b = c → P 0) ∧ ∀ i, r[i]? = some c → P (i + 1) := by
  constructor
  · intro h
    exact ⟨fun hb => h 0 (by simp [hb]), fun i hi => h (i + 1) (by simpa using hi)⟩
  · rintro ⟨h0, hs⟩ (_ | i) hi
    · exact h0 (by simpa using hi)
    · exact hs i (by simpa using hi)

/-- **The scan** executes the command for each line of what it scans,
exactly if `fork` succeeds at each newline and no line has a NUL; `l` is
the part of a line that it has passed. -/
theorem scan_eq_iff (args : Args) (forks : ℕ → Bool) (h : Holds buf p (l ++ r)) (hnl : nl ∉ l)
    (hend : p + (l ++ r).length ≤ MAXARG) :
    scan args forks buf r.length (p + l.length) p =
        ((lines nl (l ++ r)).map fun x => args.argv.tail ++ [x]) ↔
      (∀ i, r[i]? = some nl → forks (p + l.length + i)) ∧ ∀ x ∈ lines nl (l ++ r), 0 ∉ x := by
  induction r generalizing p l with
  | nil =>
    rw [append_nil, lines_of_notMem hnl]
    simp [scan]
  | cons b r ih =>
    obtain ⟨hline, hrest⟩ := holds_append.1 h
    obtain ⟨hb, hafter⟩ := holds_cons.1 hrest
    rw [length_append, length_cons] at hend
    rw [length_cons, scan, hb, forall_getElem?_cons]
    simp only [← Nat.add_assoc, Nat.add_right_comm (p + l.length) _ 1, Nat.add_zero]
    split
    · rename_i hnewline
      subst hnewline
      rw [lines_append_cons hnl, map_cons, forall_mem_cons]
      by_cases hfork : forks (p + l.length)
      · -- in the child the line ends where the newline was
        have harg : cstring (update buf (p + l.length) 0) MAXARG p = l.takeWhile (· ≠ 0) :=
          cstring_takeWhile (hline.congr fun i _ hi => update_of_ne (by omega) ..)
            (update_self ..) (by omega)
        have hnext := ih (l := []) hafter not_mem_nil (by simp only [nil_append]; omega)
        rw [nil_append, length_nil, Nat.add_zero] at hnext
        have hself : l.takeWhile (· ≠ 0) = l ↔ 0 ∉ l := by
          rw [takeWhile_eq_self_iff]
          simp only [decide_eq_true_eq]
          exact ⟨fun hall hz => hall 0 hz rfl, fun hz x hx he => hz (he ▸ hx)⟩
        rw [if_pos hfork, harg, singleton_append, cons_eq_cons, hnext, append_cancel_left_eq,
          cons_eq_cons, hself]
        simp only [hfork]
        tauto
      · have hshort := scan_length_le args forks r.length _ (p + l.length + 1) hafter rfl
        rw [if_neg hfork, nil_append]
        refine iff_of_false (fun heq => ?_) fun hall => hfork (hall.1.1 rfl)
        rw [heq, length_cons, length_map] at hshort
        omega
    · rename_i hother
      have happ : l ++ b :: r = l ++ [b] ++ r := by simp
      rw [happ] at h ⊢
      have hnext := ih h (by simp [hnl, Ne.symm hother])
        (by simp only [length_append, length_singleton]; omega)
      rw [length_append, length_singleton, ← Nat.add_assoc] at hnext
      rw [hnext]
      simp only [hother, false_imp_iff, true_and]

/-- **`xargs` runs the command once per line**, where the buffer held no
newline behind what is read, exactly if the stream is not empty, the first
`read` gets every newline of it, `fork` succeeds at each, and no line has a
NUL. -/
theorem main_runs_each_line {n : ℕ} (hn : readCount MAXARG (likes.headD 0) input = n)
    (hbuf : ∀ i, n ≤ i → i < MAXARG → buf i ≠ nl) :
    main args forks buf input likes (fuel + 1) =
        some ((lines nl input).map fun line => args.argv.tail ++ [line]) ↔
      input ≠ [] ∧ nl ∉ input.drop n ∧ (∀ i < n, input[i]? = some nl → forks i) ∧
        ∀ line ∈ lines nl input, 0 ∉ line := by
  by_cases hin : input = []
  · subst hin
    rw [main, readBuf_nil]
    simp
  rw [main, readBuf, hn]
  have hpos := length_pos_of_ne_nil hin
  have hle : n ≠ 0 ∧ n ≤ input.length ∧ n ≤ MAXARG := by
    have hmax : 0 < MAXARG := by decide
    rw [← hn, readCount]
    omega
  have htake : (input.take n).length = n := length_take_of_le hle.2.1
  -- what the buffer holds: what was read, and what it held before
  obtain ⟨stale, hs⟩ : ∃ l, l = (List.range (MAXARG - n)).map fun i => buf (n + i) := ⟨_, rfl⟩
  have hstale : nl ∉ stale := by
    intro hmem
    rw [hs] at hmem
    obtain ⟨i, hi, hbi⟩ := mem_map.1 hmem
    exact hbuf (n + i) (by omega) (by have := mem_range.1 hi; omega) hbi
  have hholds : Holds (overlay buf 0 (input.take n)) 0 (input.take n ++ stale) := by
    refine holds_append.2 ⟨holds_overlay, fun i hi => ?_⟩
    subst hs
    rw [overlay_of_ge (by omega), htake, Nat.zero_add, getElem_map, getElem_range]
  have hlen : (input.take n ++ stale).length = MAXARG := by
    rw [length_append, htake, hs, length_map, length_range]
    omega
  rw [if_neg hle.1, Option.map_some, Option.some_inj, ← hlen]
  by_cases hread : nl ∈ input.drop n
  · -- there are fewer lines in the buffer than in the stream
    refine iff_of_false (fun heq => ?_) fun hall => hall.2.1 hread
    have hshort := scan_length_le args forks _ 0 0 hholds rfl
    rw [heq, length_map, lines_append hstale, length_lines, length_lines] at hshort
    have hmore := count_pos_iff.2 hread
    have hsplit := congrArg (count nl) (take_append_drop n input)
    rw [count_append] at hsplit
    omega
  have hlines : lines nl (input.take n ++ stale) = lines nl input := by
    rw [lines_append hstale, ← lines_append (l := input.take n) hread, take_append_drop]
  have hscan := scan_eq_iff args forks (l := []) (r := input.take n ++ stale) hholds not_mem_nil
    (by rw [nil_append, hlen, Nat.zero_add])
  rw [nil_append, hlines, length_nil, Nat.zero_add] at hscan
  rw [hscan]
  have hforks : (∀ i, (input.take n ++ stale)[i]? = some nl → forks (0 + i)) ↔
      ∀ i < n, input[i]? = some nl → forks i := by
    refine forall_congr' fun i => ?_
    rw [Nat.zero_add]
    by_cases hi : i < n
    · rw [getElem?_append_left (by omega), getElem?_take_of_lt hi]
      simp only [hi, true_imp_iff]
    · rw [getElem?_append_right (by omega)]
      exact iff_of_true (fun he => absurd (mem_of_getElem? he) hstale) fun hlt => absurd hlt hi
  rw [hforks]
  simp only [ne_eq, hin, not_false_eq_true, hread, true_and]

/-- `xargs echo` -/
def echo : Args := ⟨[[120], [101]], by decide⟩

theorem main_runs_two_lines :
    main echo (fun _ => true) (fun _ => 0) [97, nl, 98, nl] [3] 1 = some [[[101], [97]], [[101], [98]]] :=
  ((main_runs_each_line rfl fun _ _ _ => by decide).2
    ⟨by decide, by decide, fun _ _ _ => rfl, by decide⟩).trans (by decide)

/-- **Without input `xargs` never ends; a first `read` of one byte loses all
lines; a newline that was in the buffer before runs a command.** -/
theorem main_depends_on_read_and_buffer :
    (∀ fuel, main echo (fun _ => true) (fun _ => 0) [] [] fuel = none) ∧
      main echo (fun _ => true) (fun _ => 0) [97, nl, 98, nl] [0] 1 = some [] ∧
      main echo (fun _ => true) (update (fun _ => 0) 2 nl) [97] [] 1 = some [[[101], [97]]] := by
  refine ⟨fun fuel => ?_, by decide, by decide⟩
  rw [main, readBuf_nil]
  rfl

end Xargs

end Xv6
