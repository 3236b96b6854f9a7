import Xv6.Common.Text
import Xv6.Grep.Match
/-!
# The loop of `grep` — `user/grep.c`

`grep` reads into what is free of a buffer, prints the lines in it that
match, and moves what is left of it to the front. The buffer is memory:
newlines are overwritten by NULs, and only those of lines that match are
put back. A line that does not fit ends the loop as the end of the input
does.
-/

namespace Xv6

open Common Function List

namespace Grep

/-- `sizeof(buf)` -/
abbrev bufSize : ℕ := 1024

/-- How many bytes `read` returns of an input if there is room for `k`: as
many as it likes, but none only at the end or if there is no room. -/
def readCount (k like : ℕ) (input : List UInt8) : ℕ := min (like + 1) (min k input.length)

/-- The inner loop, with as many iterations as it could need: `p`, the
buffer and the output at its end. -/
def printLines (pattern : List UInt8) :
    ℕ → ℕ → (ℕ → UInt8) → List UInt8 → ℕ × (ℕ → UInt8) × List UInt8
  | 0, p, buf, out => (p, buf, out)
  | fuel + 1, p, buf, out =>
    match strchr buf nl bufSize p with
    | none => (p, buf, out)
    | some q =>
      let buf := update buf q 0
      if matchText pattern (cstring buf bufSize p) then
        let buf := update buf q nl
        printLines pattern fuel (q + 1) buf (out ++ (List.range (q + 1 - p)).map fun i => buf (p + i))
      else printLines pattern fuel (q + 1) buf out

/-- The loop of `grep`, with as many iterations as it could need: what is
written. `likes` says how `read` splits the input. -/
def grepLoop (pattern : List UInt8) :
    ℕ → ℕ → (ℕ → UInt8) → List UInt8 → List ℕ → List UInt8 → Option (List UInt8)
  | 0, _, _, _, _, _ => none
  | fuel + 1, m, buf, input, likes, out =>
    let n := readCount (bufSize - m - 1) (likes.headD 0) input
    if n = 0 then some out
    else
      let buf := overlay buf m (input.take n)
      let m := m + n
      let buf := update buf m 0
      let (p, buf, out) := printLines pattern bufSize 0 buf out
      let m := m - p
      -- `memmove(buf, p, m)`
      let buf := fun i => if i < m then buf (p + i) else buf i
      grepLoop pattern fuel m buf (input.drop n) likes.tail out

/-- `grep`, with what the buffer holds from an earlier call. -/
def grep (pattern : List UInt8) (buf : ℕ → UInt8) (input : List UInt8) (likes : List ℕ) :
    Option (List UInt8) :=
  grepLoop pattern (input.length + 1) 0 buf input likes []

/-- The lines of a list that match, as they are printed. -/
def matchingOf (pattern : List UInt8) (ls : List (List UInt8)) : List UInt8 :=
  (ls.filter (matchText pattern)).flatMap (· ++ [nl])

/-- What is to be printed: the lines that match. -/
def matching (pattern input : List UInt8) : List UInt8 := matchingOf pattern (lines nl input)

/-- A line that fits in the buffer with its newline and the NUL behind it. -/
def fits (line : List UInt8) : Bool := line.length + 1 < bufSize

variable {pattern l a b input : List UInt8} {buf : ℕ → UInt8} {out : List UInt8} {p m fuel : ℕ}

theorem matching_of_notMem (h : nl ∉ l) : matching pattern l = [] := by
  rw [matching, lines_of_notMem h]
  rfl

theorem matchingOf_append (ls ls' : List (List UInt8)) :
    matchingOf pattern (ls ++ ls') = matchingOf pattern ls ++ matchingOf pattern ls' := by
  rw [matchingOf, filter_append, flatMap_append]
  rfl

theorem matching_append_cons (h : nl ∉ a) : matching pattern (a ++ nl :: b) =
    (if matchText pattern a then a ++ [nl] else []) ++ matching pattern b := by
  rw [matching, lines_append_cons h, matchingOf, filter_cons]
  split <;> rfl

theorem matchingOf_eq_nil {ls : List (List UInt8)} :
    matchingOf pattern ls = [] ↔ ∀ line ∈ ls, matchText pattern line = false := by
  simp [matchingOf, flatMap_eq_nil_iff]

/-! ## The loops -/

/-- **The inner loop** prints the lines that match, and comes to what
follows the last newline. -/
theorem printLines_spec (pattern out : List UInt8) (h : Holds buf p l) (h0 : 0 ∉ l) (hend : buf (p + l.length) = 0)
    (hlt : l.length < bufSize) (hfuel : l.length < fuel) :
    ∃ rest q buf', printLines pattern fuel p buf out = (q, buf', out ++ matching pattern l) ∧
      q + rest.length = p + l.length ∧ Holds buf' q rest ∧ nl ∉ rest ∧ 0 ∉ rest ∧
      ∀ more, lines nl (l ++ more) = lines nl l ++ lines nl (rest ++ more) := by
  induction fuel generalizing p l buf out with
  | zero => omega
  | succ fuel ih =>
    by_cases hnl : nl ∈ l
    · obtain ⟨a, b, rfl, ha⟩ := eq_append_cons_of_mem hnl
      simp only [length_append, length_cons] at hend hlt hfuel
      obtain ⟨hha, hb⟩ := holds_append.1 h
      obtain ⟨hq, hb⟩ := holds_cons.1 hb
      obtain ⟨ha0, hb0⟩ := not_or.1 (mem_append.not.1 h0)
      have hb0 : 0 ∉ b := fun hz => hb0 (mem_cons_of_mem _ hz)
      -- the line, while its newline is a NUL
      have hline : cstring (update buf (p + a.length) 0) bufSize p = a := by
        refine cstring_eq (hha.congr fun i _ hi => update_of_ne (by omega) ..) ha0 ?_ (by omega)
        exact update_self ..
      have hstep : ∀ buf' out', (∀ i, i ≠ p + a.length → buf' i = buf i) →
          ∃ rest q buf'', printLines pattern fuel (p + a.length + 1) buf' out' =
              (q, buf'', out' ++ matching pattern b) ∧
            q + rest.length = p + (a ++ nl :: b).length ∧ Holds buf'' q rest ∧ nl ∉ rest ∧ 0 ∉ rest ∧
            ∀ more, lines nl (a ++ nl :: b ++ more) =
              lines nl (a ++ nl :: b) ++ lines nl (rest ++ more) := by
        intro buf' out' hbuf
        obtain ⟨rest, q, buf'', hrun, hlen, hrest, hrnl, hr0, hlines⟩ := ih out'
          (hb.congr fun i h1 _ => hbuf i (by omega)) hb0
          (by rw [hbuf _ (by omega), ← hend]; congr 1; omega) (by omega) (by omega)
        refine ⟨rest, q, buf'', hrun, ?_, hrest, hrnl, hr0, fun more => ?_⟩
        · rw [hlen, length_append, length_cons]
          omega
        · rw [append_assoc, cons_append, lines_append_cons ha, lines_append_cons ha, hlines]
          rfl
      rw [printLines, strchr_eq_some h h0 ha (by omega)]
      dsimp only
      rw [hline, matching_append_cons ha]
      split
      · have hback : update (update buf (p + a.length) 0) (p + a.length) nl = buf := by
          rw [update_idem, ← hq, update_eq_self]
        rw [hback]
        have hprint : (List.range (p + a.length + 1 - p)).map (fun i => buf (p + i)) = a ++ [nl] := by
          have hlen : p + a.length + 1 - p = (a ++ [nl]).length := by
            rw [length_append, length_singleton]
            omega
          rw [hlen]
          exact (holds_append.2 ⟨hha, holds_cons.2 ⟨hq, holds_nil⟩⟩).map_range
        rw [hprint, ← append_assoc out (a ++ [nl])]
        exact hstep buf (out ++ (a ++ [nl])) fun _ _ => rfl
      · exact hstep _ out fun i hi => update_of_ne hi ..
    · rw [printLines, strchr_eq_none h hnl hend, matching_of_notMem hnl, append_nil]
      exact ⟨l, p, buf, rfl, rfl, h, hnl, h0, fun more => by rw [lines_of_notMem hnl]; rfl⟩

/-- **The loop of `grep`**, with the beginning of a line in the buffer: it
prints the lines that match, up to the first that does not fit. -/
theorem grepLoop_spec {likes : List ℕ} (h : Holds buf 0 l) (hnl : nl ∉ l) (h0 : 0 ∉ l)
    (hlen : l.length < bufSize) (hin : 0 ∉ input) (hfuel : input.length < fuel) :
    grepLoop pattern fuel l.length buf input likes out =
      some (out ++ matchingOf pattern ((lines nl (l ++ input)).takeWhile fits)) := by
  induction fuel generalizing l buf input likes out with
  | zero => omega
  | succ fuel ih =>
    rw [grepLoop]
    generalize hn : readCount (bufSize - l.length - 1) (likes.headD 0) input = n
    have hle : n ≤ input.length ∧ n ≤ bufSize - l.length - 1 := by
      rw [← hn, readCount]
      omega
    split
    · rename_i hzero
      -- the end of the input, or a buffer full of a line that does not end
      have hnone : (lines nl (l ++ input)).takeWhile fits = [] := by
        by_cases hm : nl ∈ input
        · obtain ⟨a, b, rfl, ha⟩ := eq_append_cons_of_mem hm
          rw [← append_assoc, lines_append_cons (by simp [hnl, ha]), takeWhile_cons_of_neg]
          simp only [readCount, length_append, length_cons] at hn
          simp only [fits, length_append, decide_eq_true_eq]
          omega
        · rw [lines_of_notMem (by simp [hnl, hm]), takeWhile_nil]
      rw [hnone]
      exact congrArg some (append_nil out).symm
    · rename_i hpos
      have htake : (input.take n).length = n := length_take_of_le hle.1
      have hall : Holds (update (overlay buf l.length (input.take n)) (l.length + n) 0) 0
          (l ++ input.take n) := by
        refine Holds.congr (m := overlay buf l.length (input.take n)) ?_ fun i _ hi => ?_
        · refine holds_append.2 ⟨h.congr fun i _ hi => overlay_of_lt (by omega), ?_⟩
          rw [Nat.zero_add]
          exact holds_overlay
        · rw [length_append, htake] at hi
          exact update_of_ne (by omega) ..
      have htake0 : 0 ∉ l ++ input.take n := by
        simp only [mem_append, not_or]
        exact ⟨h0, fun hz => hin (mem_of_mem_take hz)⟩
      obtain ⟨rest, q, buf', hrun, hq, hrest, hrnl, hr0, hlines⟩ := printLines_spec pattern out
        hall htake0
        (by rw [length_append, htake, Nat.zero_add]; exact update_self ..)
        (by rw [length_append, htake]; omega)
        (by rw [length_append, htake]; omega : _ < bufSize)
      rw [length_append, htake, Nat.zero_add] at hq
      dsimp only
      rw [hrun]
      dsimp only
      have hm : l.length + n - q = rest.length := by omega
      rw [hm]
      have hsplit := hlines (input.drop n)
      rw [append_assoc, take_append_drop] at hsplit
      rw [ih ?_ hrnl hr0 (by omega) (fun hz => hin (mem_of_mem_drop hz)) (by rw [length_drop]; omega)]
      · -- what was in the buffer fitted
        have hfits : ∀ line ∈ lines nl (l ++ input.take n), fits line := by
          intro line hline
          have := length_lt_of_mem_lines hline
          rw [length_append, htake] at this
          simp only [fits, decide_eq_true_eq]
          omega
        rw [hsplit, takeWhile_append_of_pos hfits, matchingOf_append, append_assoc]
        rfl
      · intro i hi
        dsimp only
        rw [Nat.zero_add, if_pos hi]
        exact hrest i hi

theorem grep_eq (pattern : List UInt8) (buf : ℕ → UInt8) (likes : List ℕ) (hin : 0 ∉ input) :
    grep pattern buf input likes = some (matchingOf pattern ((lines nl input).takeWhile fits)) :=
  grepLoop_spec (l := []) holds_nil not_mem_nil not_mem_nil (by decide) hin (Nat.lt_succ_self _)

/-- **`grep` prints the matching lines up to the first that does not fit in
the buffer**, however the input is read; so it prints all of them exactly
if none matches from there on. -/
theorem grep_prints_matching_lines {likes : List ℕ} (hin : 0 ∉ input) :
    (∃ out, grep pattern buf input likes = some out) ∧
      (grep pattern buf input likes = some (matching pattern input) ↔
        ∀ line ∈ (lines nl input).dropWhile fits, matchText pattern line = false) := by
  refine ⟨⟨_, grep_eq pattern buf likes hin⟩, ?_⟩
  rw [grep_eq pattern buf likes hin, Option.some_inj, ← matchingOf_eq_nil, matching]
  nth_rewrite 2 [← takeWhile_append_dropWhile (p := fits) (l := lines nl input)]
  rw [matchingOf_append, self_eq_append_right]

theorem grep_prints_short_lines :
    grep [98] (fun _ => 7) [97, nl, 98, nl, 97] [0, 2] = some [98, nl] :=
  ((grep_prints_matching_lines (by decide)).2.2 (by decide)).trans (by decide)

/-- A line that fills the buffer, and one that the pattern `b` matches. -/
def longLine : List UInt8 := List.replicate (bufSize - 1) 97 ++ nl :: [98, nl]

/-- **The line after a line that fills the buffer is not printed**: `read`
is asked for no byte, and its 0 is taken for the end of the input. -/
theorem grep_stops_at_long_line : 0 ∉ longLine ∧ matching [98] longLine = [98, nl] ∧
    ∀ likes, grep [98] (fun _ => 0) longLine likes = some [] := by
  have h : nl ∉ List.replicate (bufSize - 1) (97 : UInt8) :=
    fun h => absurd (eq_of_mem_replicate h) (by decide)
  have h0 : 0 ∉ longLine := by decide +kernel
  refine ⟨h0, ?_, fun likes => ?_⟩
  · rw [longLine, matching_append_cons h, if_neg (by decide +kernel)]
    decide
  · rw [grep_eq _ _ _ h0, longLine, lines_append_cons h,
      takeWhile_cons_of_neg (by rw [fits, length_replicate]; decide)]
    rfl

end Grep

end Xv6
