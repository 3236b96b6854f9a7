import Xv6.Sh.Model
import Mathlib.Data.List.TakeWhile
/-!
# The grammar of command lines

A line is a sequence of tokens with white space between them (`Lexes`), and
its tokens derive a command (`Line`):

    line  ::=  pipe '&'* [';' line]
    pipe  ::=  exec ['|' pipe]
    exec  ::=  '(' line ')' redir*  |  redir* (word redir*)*
    redir ::=  ('<' | '>' | '>>') word

with at most `MAXARGS - 1` words in an `exec`.
-/

namespace Xv6

open List

namespace Sh

/-- How a file is opened for a command. -/
inductive Redir
  | input
  | output
  | append
  deriving DecidableEq

/-- The tokens. -/
inductive Tok
  | bar
  | lparen
  | rparen
  | semi
  | amp
  | redir (r : Redir)
  | word (w : List UInt8)
  deriving DecidableEq

/-- The characters of a symbol. -/
def Redir.text : Redir → List Char
  | .input => ['<']
  | .output => ['>']
  | .append => ['>', '>']

@[inherit_doc Redir.text] def Tok.text : Tok → List UInt8
  | .bar => chars ['|']
  | .lparen => chars ['(']
  | .rparen => chars [')']
  | .semi => chars [';']
  | .amp => chars ['&']
  | .redir r => chars r.text
  | .word w => w

/-- A token and the characters that follow it: words are maximal, and `>>` is
not read as two symbols. -/
def Tok.Ends (rest : List UInt8) : Tok → Prop
  | .word w => w ≠ [] ∧ (∀ c ∈ w, isWord c = true) ∧ ∀ c, rest.head? = some c → isWord c = false
  | .redir .output => rest.head? ≠ some '>'.toUInt8
  | _ => True

/-- **The tokens of a line.** -/
inductive Lexes : List UInt8 → List Tok → Prop
  | nil : Lexes [] []
  | space {c : UInt8} {cs : List UInt8} {ts : List Tok} :
      isSpace c = true → Lexes cs ts → Lexes (c :: cs) ts
  | tok {t : Tok} {cs : List UInt8} {ts : List Tok} :
      t.Ends cs → Lexes cs ts → Lexes (t.text ++ cs) (t :: ts)

/-- The mode with which the file is opened. -/
def Redir.mode : Redir → ℕ
  | .input => O_RDONLY
  | .output => O_WRONLY ||| O_CREATE ||| O_TRUNC
  | .append => O_WRONLY ||| O_CREATE

/-- The descriptor that stands for the file. -/
def Redir.fd : Redir → ℕ
  | .input => 0
  | .output => 1
  | .append => 1

/-- Each redirection wraps the command before it. -/
def redirs {α : Type} (cmd : Cmd α) (rs : List (Redir × α)) : Cmd α :=
  rs.foldl (fun cmd r => .redir cmd r.2 r.1.mode r.1.fd) cmd

/-- Each `&` wraps the command before it. -/
def backs {α : Type} (cmd : Cmd α) : ℕ → Cmd α
  | 0 => cmd
  | k + 1 => backs (.back cmd) k

/-- The tokens of redirections. -/
def redirToks (rs : List (Redir × List UInt8)) : List Tok :=
  rs.flatMap fun r => [.redir r.1, .word r.2]

/-- The tokens of words, each with redirections after it. -/
def argToks (args : List (List UInt8 × List (Redir × List UInt8))) : List Tok :=
  args.flatMap fun a => .word a.1 :: redirToks a.2

mutual

/-- **`line ::= pipe '&'* [';' line]`** -/
inductive Line : List Tok → Cmd (List UInt8) → Prop
  | last {ts : List Tok} {c : Cmd (List UInt8)} (k : ℕ) :
      Pipe ts c → Line (ts ++ List.replicate k .amp) (backs c k)
  | seq {ts us : List Tok} {c d : Cmd (List UInt8)} (k : ℕ) :
      Pipe ts c → Line us d →
        Line (ts ++ (List.replicate k .amp ++ .semi :: us)) (.list (backs c k) d)

/-- **`pipe ::= exec ['|' pipe]`** -/
inductive Pipe : List Tok → Cmd (List UInt8) → Prop
  | last {ts : List Tok} {c : Cmd (List UInt8)} : Exec ts c → Pipe ts c
  | pipe {ts us : List Tok} {c d : Cmd (List UInt8)} :
      Exec ts c → Pipe us d → Pipe (ts ++ .bar :: us) (.pipe c d)

/-- **`exec ::= '(' line ')' redir* | redir* (word redir*)*`**, with less
than `MAXARGS` words. -/
inductive Exec : List Tok → Cmd (List UInt8) → Prop
  | block {ts : List Tok} {c : Cmd (List UInt8)} (rs : List (Redir × List UInt8)) :
      Line ts c → Exec (.lparen :: (ts ++ .rparen :: redirToks rs)) (redirs c rs)
  | simple (rs : List (Redir × List UInt8))
      (args : List (List UInt8 × List (Redir × List UInt8))) : args.length ≤ MAXARGS - 1 →
      Exec (redirToks rs ++ argToks args)
        (redirs (.exec (args.map Prod.fst)) (rs ++ args.flatMap Prod.snd))

end

/-- **A line and the command it stands for.** -/
def Derives (line : List UInt8) (c : Cmd (List UInt8)) : Prop := ∃ ts, Lexes line ts ∧ Line ts c

/-! ## Every line has its tokens -/

variable {cs rest : List UInt8} {ts : List Tok} {t : Tok} {c : UInt8}

theorem isWord_spec (h : isWord c = true) : isSpace c = false ∧ c ∉ symbols := by
  rw [isWord, Bool.and_eq_true, Bool.not_eq_true', Bool.not_eq_true'] at h
  exact ⟨h.1, by simpa using h.2⟩

theorem mem_symbols_of_not (hs : isSpace c = false) (hw : isWord c = false) : c ∈ symbols := by
  rw [isSpace] at hs
  rw [isWord, hs] at hw
  simpa using hw

/-- A token starts with a character that is not white space. -/
theorem Tok.Ends.head (h : t.Ends rest) : ∃ c cs, t.text = c :: cs ∧ isSpace c = false := by
  cases t with
  | word w =>
    obtain ⟨hne, hw, -⟩ := h
    obtain ⟨c, cs, rfl⟩ := exists_cons_of_ne_nil hne
    exact ⟨c, cs, rfl, (isWord_spec (hw c mem_cons_self)).1⟩
  | redir r => cases r <;> exact ⟨_, _, rfl, by decide⟩
  | _ => exact ⟨_, _, rfl, by decide⟩

theorem head_dropWhile (p : UInt8 → Bool) (cs : List UInt8) (h : (cs.dropWhile p).head? = some c) :
    p c = false := by
  have := head?_dropWhile_not p cs
  rw [h] at this
  exact this

/-- A symbol starts what is left. -/
theorem exists_symbol (cs : List UInt8) (hc : c ∈ symbols) :
    ∃ (t : Tok) (rest : List UInt8), c :: cs = t.text ++ rest ∧ t.Ends rest ∧ rest.length ≤ cs.length := by
  simp only [symbols, chars, map_cons, map_nil, mem_cons, not_mem_nil,
    or_false] at hc
  obtain rfl | rfl | rfl | rfl | rfl | rfl | rfl := hc
  · exact ⟨.redir .input, cs, rfl, trivial, le_rfl⟩
  · exact ⟨.bar, cs, rfl, trivial, le_rfl⟩
  · by_cases h : cs.head? = some '>'.toUInt8
    · obtain ⟨rest, rfl⟩ : ∃ rest, cs = '>'.toUInt8 :: rest := by
        cases cs with
        | nil => cases h
        | cons a rest => exact ⟨rest, by rw [Option.some.inj h]⟩
      exact ⟨.redir .append, rest, rfl, trivial, by simp⟩
    · exact ⟨.redir .output, cs, rfl, h, le_rfl⟩
  · exact ⟨.amp, cs, rfl, trivial, le_rfl⟩
  · exact ⟨.semi, cs, rfl, trivial, le_rfl⟩
  · exact ⟨.lparen, cs, rfl, trivial, le_rfl⟩
  · exact ⟨.rparen, cs, rfl, trivial, le_rfl⟩

theorem exists_lexes (cs : List UInt8) : ∃ ts, Lexes cs ts := by
  induction hn : cs.length using Nat.strongRecOn generalizing cs with
  | ind n ih =>
    subst hn
    cases cs with
    | nil => exact ⟨[], .nil⟩
    | cons c cs =>
      cases hs : isSpace c
      · cases hw : isWord c
        · obtain ⟨t, rest, heq, hends, hlen⟩ := exists_symbol cs (mem_symbols_of_not hs hw)
          obtain ⟨ts, hts⟩ := ih rest.length (by rw [length_cons]; omega) rest rfl
          rw [heq]
          exact ⟨t :: ts, .tok hends hts⟩
        · -- a maximal word
          have hsplit : (c :: cs).takeWhile isWord ++ cs.dropWhile isWord = c :: cs := by
            rw [takeWhile_cons, if_pos hw, cons_append, takeWhile_append_dropWhile]
          obtain ⟨ts, hts⟩ := ih (cs.dropWhile isWord).length
            (Nat.lt_succ_of_le (length_dropWhile_le ..)) _ rfl
          have hends : (Tok.word ((c :: cs).takeWhile isWord)).Ends (cs.dropWhile isWord) :=
            ⟨by rw [takeWhile_cons, if_pos hw]; exact cons_ne_nil _ _,
              fun _ => mem_takeWhile_imp, fun _ => head_dropWhile isWord cs⟩
          have hlex := Lexes.tok hends hts
          rw [Tok.text, hsplit] at hlex
          exact ⟨_, hlex⟩
      · obtain ⟨ts, hts⟩ := ih cs.length (Nat.lt_succ_self _) cs rfl
        exact ⟨ts, .space hs hts⟩

namespace Lexes

theorem length_le (h : Lexes cs ts) : ts.length ≤ cs.length := by
  induction h with
  | nil => exact le_rfl
  | space _ _ ih => exact Nat.le_succ_of_le ih
  | tok hends _ ih =>
    obtain ⟨c, cs, htext, -⟩ := hends.head
    rw [htext, length_cons, length_append, length_cons]
    omega

/-- White space in front changes nothing. -/
theorem dropSpace (h : Lexes cs ts) : Lexes (cs.dropWhile isSpace) ts := by
  induction h with
  | nil => exact .nil
  | space hc _ ih =>
    rw [dropWhile_cons, if_pos hc]
    exact ih
  | tok hends h _ =>
    obtain ⟨c, cs, htext, hc⟩ := hends.head
    rw [htext, cons_append, dropWhile_cons, if_neg (by rw [hc]; decide),
      ← cons_append, ← htext]
    exact .tok hends h

theorem eq_nil (h : Lexes [] ts) : ts = [] := by
  have := h.length_le
  exact length_eq_zero_iff.1 (Nat.le_zero.1 this)

/-- The first token of what does not start with white space. -/
theorem first (h : Lexes cs ts) (hcs : ∀ c, cs.head? = some c → isSpace c = false) :
    (cs = [] ∧ ts = []) ∨
      ∃ t ts' rest, ts = t :: ts' ∧ cs = t.text ++ rest ∧ t.Ends rest ∧ Lexes rest ts' := by
  cases h with
  | nil => exact .inl ⟨rfl, rfl⟩
  | space hc _ =>
    have := hcs _ rfl
    rw [hc] at this
    cases this
  | tok hends h => exact .inr ⟨_, _, _, rfl, rfl, hends, h⟩

end Lexes

end Sh

end Xv6
