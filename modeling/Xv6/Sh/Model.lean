import Xv6.Param
import Mathlib.Data.List.Basic
/-!
# The parser of the shell — `user/sh.c`

The command line is in memory, from position 0 to `es`, where a NUL is. A
pointer into it is a position; `argv[i]` and `eargv[i]`, or `file` and
`efile`, are a pair of them. `malloc` succeeds.

A loop, or a function that calls itself, is given as many rounds as it could
need; `Fault.noReturn` stands for more.
-/

namespace Xv6

open Function

namespace Sh

abbrev MAXARGS : ℕ := 10

/-- The five kinds of command, with strings of a type: positions in the
line, or the strings themselves. -/
inductive Cmd (α : Type)
  | exec (argv : List α)
  | redir (cmd : Cmd α) (file : α) (mode fd : ℕ)
  | pipe (left right : Cmd α)
  | list (left right : Cmd α)
  | back (cmd : Cmd α)
  deriving DecidableEq

/-- A word in the line: where it starts and where it ends. -/
abbrev Ptrs : Type := ℕ × ℕ

/-- The messages of `panic`. -/
inductive Panic
  /-- `syntax`, with what is left of the line -/
  | leftovers
  /-- `syntax` -/
  | badToken
  /-- `missing file for redirection` -/
  | missingFile
  | parseblock
  /-- `syntax - missing )` -/
  | missingParen
  | tooManyArgs
  deriving DecidableEq

/-- How a function fails to return. -/
inductive Fault
  | panic (p : Panic)
  | noReturn
  deriving DecidableEq

/-- `" \t\r\n\v"` -/
def whitespace : List UInt8 := [0x20, 0x09, 0x0d, 0x0a, 0x0b]

/-- The characters of a string literal. -/
def chars (s : List Char) : List UInt8 := s.map Char.toUInt8

/-- `"<|>&;()"` -/
def symbols : List UInt8 := chars ['<', '|', '>', '&', ';', '(', ')']

/-- `argv[argc] = q`: the command that `parseexec` made first is innermost
in `ret`, which it returns. -/
def Cmd.addArg {α : Type} (a : α) : Cmd α → Cmd α
  | .exec argv => .exec (argv ++ [a])
  | .redir cmd file mode fd => .redir (cmd.addArg a) file mode fd
  | cmd => cmd

section

variable (m : ℕ → UInt8) (es : ℕ)

/-- `while(s < es && p(*s)) s++` -/
def skip (p : UInt8 → Bool) (s : ℕ) : ℕ := go (es - s) s
where
  go : ℕ → ℕ → ℕ
    | 0, s => s
    | n + 1, s => if p (m s) then go n (s + 1) else s

/-- `strchr(whitespace, c)` -/
def isSpace (c : UInt8) : Bool := whitespace.contains c

/-- `!strchr(whitespace, c) && !strchr(symbols, c)` -/
def isWord (c : UInt8) : Bool := !whitespace.contains c && !symbols.contains c

/-- The `switch` of `gettoken`: the token and where it ends. -/
def scan (q : ℕ) : UInt8 × ℕ :=
  let c := m q
  if c = 0 then (0, q)
  else if c ∈ chars ['|', '(', ')', ';', '&', '<'] then (c, q + 1)
  else if c = '>'.toUInt8 then
    if m (q + 1) = '>'.toUInt8 then ('+'.toUInt8, q + 2) else (c, q + 1)
  else ('a'.toUInt8, skip m es isWord q)

/-- `gettoken`: the token, where it starts and ends, and the new `*ps`. -/
def gettoken (s : ℕ) : UInt8 × Ptrs × ℕ :=
  let q := skip m es isSpace s
  let (ret, s) := scan m es q
  (ret, (q, s), skip m es isSpace s)

/-- `peek`: whether the next character is one of `toks`, and the new `*ps`. -/
def peek (toks : List Char) (s : ℕ) : Bool × ℕ :=
  let s := skip m es isSpace s
  (m s ≠ 0 ∧ m s ∈ chars toks, s)

def parseredirs : ℕ → Cmd Ptrs → ℕ → Except Fault (Cmd Ptrs × ℕ)
  | 0, _, _ => .error .noReturn
  | n + 1, cmd, s =>
    let (b, s) := peek m es ['<', '>'] s
    if b then
      let (tok, _, s) := gettoken m es s
      let (w, q, s) := gettoken m es s
      if w ≠ 'a'.toUInt8 then .error (.panic .missingFile)
      else if tok = '<'.toUInt8 then parseredirs n (.redir cmd q O_RDONLY 0) s
      else if tok = '>'.toUInt8 then
        parseredirs n (.redir cmd q (O_WRONLY ||| O_CREATE ||| O_TRUNC) 1) s
      else if tok = '+'.toUInt8 then parseredirs n (.redir cmd q (O_WRONLY ||| O_CREATE) 1) s
      else parseredirs n cmd s
    else .ok (cmd, s)

/-- The loop of `parseexec`. -/
def parseargs : ℕ → Cmd Ptrs → ℕ → ℕ → Except Fault (Cmd Ptrs × ℕ)
  | 0, _, _, _ => .error .noReturn
  | n + 1, ret, argc, s =>
    let (b, s) := peek m es ['|', ')', '&', ';'] s
    if b then .ok (ret, s)
    else
      let (tok, q, s) := gettoken m es s
      if tok = 0 then .ok (ret, s)
      else if tok ≠ 'a'.toUInt8 then .error (.panic .badToken)
      else if MAXARGS ≤ argc + 1 then .error (.panic .tooManyArgs)
      else do
        let (ret, s) ← parseredirs m es (es + 1) (ret.addArg q) s
        parseargs n ret (argc + 1) s

/-- `while(peek(ps, es, "&"))` in `parseline`. -/
def parsebacks : ℕ → Cmd Ptrs → ℕ → Except Fault (Cmd Ptrs × ℕ)
  | 0, _, _ => .error .noReturn
  | n + 1, cmd, s =>
    let (b, s) := peek m es ['&'] s
    if b then parsebacks n (.back cmd) (gettoken m es s).2.2 else .ok (cmd, s)

mutual

def parseline : ℕ → ℕ → Except Fault (Cmd Ptrs × ℕ)
  | 0, _ => .error .noReturn
  | n + 1, s => do
    let (cmd, s) ← parsepipe n s
    let (cmd, s) ← parsebacks m es (es + 1) cmd s
    let (b, s) := peek m es [';'] s
    if b then
      let (right, s) ← parseline n (gettoken m es s).2.2
      .ok (.list cmd right, s)
    else .ok (cmd, s)

def parsepipe : ℕ → ℕ → Except Fault (Cmd Ptrs × ℕ)
  | 0, _ => .error .noReturn
  | n + 1, s => do
    let (cmd, s) ← parseexec n s
    let (b, s) := peek m es ['|'] s
    if b then
      let (right, s) ← parsepipe n (gettoken m es s).2.2
      .ok (.pipe cmd right, s)
    else .ok (cmd, s)

def parseexec : ℕ → ℕ → Except Fault (Cmd Ptrs × ℕ)
  | 0, _ => .error .noReturn
  | n + 1, s =>
    let (b, s) := peek m es ['('] s
    if b then parseblock n s
    else do
      let (ret, s) ← parseredirs m es (es + 1) (.exec []) s
      parseargs m es (es + 1) ret 0 s

def parseblock : ℕ → ℕ → Except Fault (Cmd Ptrs × ℕ)
  | 0, _ => .error .noReturn
  | n + 1, s =>
    let (b, s) := peek m es ['('] s
    if b then do
      let (cmd, s) ← parseline n (gettoken m es s).2.2
      let (b, s) := peek m es [')'] s
      if b then parseredirs m es (es + 1) cmd (gettoken m es s).2.2
      else .error (.panic .missingParen)
    else .error (.panic .parseblock)

end

end

/-- `nulterminate`: the memory after it. -/
def nulterminate : Cmd Ptrs → (ℕ → UInt8) → ℕ → UInt8
  | .exec argv, m => argv.foldl (fun m q => update m q.2 0) m
  | .redir cmd file _ _, m => update (nulterminate cmd m) file.2 0
  | .pipe left right, m => nulterminate right (nulterminate left m)
  | .list left right, m => nulterminate right (nulterminate left m)
  | .back cmd, m => nulterminate cmd m

/-- The line in memory, with its NUL. -/
def store (line : List UInt8) (i : ℕ) : UInt8 := line.getD i 0

def strlen (line : List UInt8) : ℕ := (line.takeWhile (· ≠ 0)).length

/-- `parsecmd`: the command and the memory it points into. -/
def parsecmd (line : List UInt8) : Except Fault (Cmd Ptrs × (ℕ → UInt8)) := do
  let es := strlen line
  let (cmd, s) ← parseline (store line) es (4 * es + 4) 0
  let (_, s) := peek (store line) es [] s
  if s ≠ es then .error (.panic .leftovers)
  else .ok (cmd, nulterminate cmd (store line))

end Sh

end Xv6
