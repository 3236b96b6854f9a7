import Xv6.Sh.Lexer
import Mathlib.Data.List.Induction
/-!
# The parser and its grammar

The parser does to the line what the same parser over tokens (`Toks`) does
to its tokens: it fails in the same way, or returns the same command at the
place of the tokens that are left (`Sim`). Over tokens, each function takes a
part of the line that derives from its nonterminal, or it panics; and what
derives, followed by what may follow it, is what it takes.
-/

namespace Xv6

open List

namespace Sh

namespace Cmd

variable {α β : Type}

/-- The command with other strings. -/
def map (f : α → β) : Cmd α → Cmd β
  | .exec argv => .exec (argv.map f)
  | .redir cmd file mode fd => .redir (cmd.map f) (f file) mode fd
  | .pipe left right => .pipe (left.map f) (right.map f)
  | .list left right => .list (left.map f) (right.map f)
  | .back cmd => .back (cmd.map f)

/-- A property of every string of the command. -/
def All (P : α → Prop) : Cmd α → Prop
  | .exec argv => ∀ a ∈ argv, P a
  | .redir cmd file _ _ => cmd.All P ∧ P file
  | .pipe left right | .list left right => left.All P ∧ right.All P
  | .back cmd => cmd.All P

variable {f : α → β} {P : α → Prop} {cmd : Cmd α} {a : α} {argv : List α} {rs : List (Redir × α)}

theorem map_addArg : (cmd.addArg a).map f = (cmd.map f).addArg (f a) := by
  induction cmd with
  | exec argv => simp [addArg, map]
  | redir cmd file mode fd ih => simp [addArg, map, ih]
  | _ => rfl

theorem all_addArg (h : cmd.All P) (ha : P a) : (cmd.addArg a).All P := by
  induction cmd with
  | exec argv =>
    intro x hx
    rw [mem_append, mem_singleton] at hx
    exact hx.elim (h x) fun he => he ▸ ha
  | redir cmd file mode fd ih => exact ⟨ih h.1, h.2⟩
  | _ => exact h

theorem redirs_concat (cmd : Cmd α) (rs : List (Redir × α)) (r : Redir) (a : α) :
    redirs cmd (rs ++ [(r, a)]) = .redir (redirs cmd rs) a r.mode r.fd := by
  rw [redirs, foldl_concat, ← redirs]

theorem redirs_append (cmd : Cmd α) (rs rs' : List (Redir × α)) :
    redirs cmd (rs ++ rs') = redirs (redirs cmd rs) rs' :=
  foldl_append

/-- A new argument goes to the command that was made first. -/
theorem addArg_redirs : (redirs (.exec argv) rs).addArg a = redirs (.exec (argv ++ [a])) rs := by
  induction rs using List.reverseRecOn with
  | nil => rfl
  | append_singleton rs r ih =>
    rw [redirs_concat, redirs_concat, addArg, ih]

end Cmd

/-! ## The parser over tokens -/

namespace Toks

/-- What is left, with the command. -/
abbrev Res : Type := Except Fault (Cmd (List UInt8) × List Tok)

/-- The tokens after the first, if that is `t`. -/
def eat (t : Tok) (ts : List Tok) : Option (List Tok) :=
  if ts.head? = some t then some ts.tail else none

def parseredirs (cmd : Cmd (List UInt8)) : List Tok → Res
  | .redir r :: .word w :: ts => parseredirs (.redir cmd w r.mode r.fd) ts
  | .redir _ :: _ => .error (.panic .missingFile)
  | ts => .ok (cmd, ts)

/-- The loop of `parseexec`, with the redirections before it and in it. -/
def parseargs (ret : Cmd (List UInt8)) (argc : ℕ) : List Tok → Res
  | .redir r :: .word w :: ts => parseargs (.redir ret w r.mode r.fd) argc ts
  | .redir _ :: _ => .error (.panic .missingFile)
  | .word w :: ts =>
    if MAXARGS ≤ argc + 1 then .error (.panic .tooManyArgs)
    else parseargs (ret.addArg w) (argc + 1) ts
  | .lparen :: _ => .error (.panic .badToken)
  | ts => .ok (ret, ts)

def parsebacks (cmd : Cmd (List UInt8)) : List Tok → Res
  | .amp :: ts => parsebacks (.back cmd) ts
  | ts => .ok (cmd, ts)

mutual

def parseline : ℕ → List Tok → Res
  | 0, _ => .error .noReturn
  | n + 1, ts => do
    let (cmd, ts) ← parsepipe n ts
    let (cmd, ts) ← parsebacks cmd ts
    match eat .semi ts with
    | some ts => do
      let (right, ts) ← parseline n ts
      .ok (.list cmd right, ts)
    | none => .ok (cmd, ts)

def parsepipe : ℕ → List Tok → Res
  | 0, _ => .error .noReturn
  | n + 1, ts => do
    let (cmd, ts) ← parseexec n ts
    match eat .bar ts with
    | some ts => do
      let (right, ts) ← parsepipe n ts
      .ok (.pipe cmd right, ts)
    | none => .ok (cmd, ts)

def parseexec : ℕ → List Tok → Res
  | 0, _ => .error .noReturn
  | n + 1, ts =>
    match eat .lparen ts with
    | some ts => parseblock n ts
    | none => parseargs (.exec []) 0 ts

/-- From behind the `(`. -/
def parseblock : ℕ → List Tok → Res
  | 0, _ => .error .noReturn
  | n + 1, ts => do
    let (cmd, ts) ← parseline n ts
    match eat .rparen ts with
    | some ts => parseredirs cmd ts
    | none => .error (.panic .missingParen)

end

end Toks

variable {line w : List UInt8} {ts us us' rest : List Tok} {t : Tok} {s n argc : ℕ}
  {cmd ret : Cmd Ptrs} {c : Cmd (List UInt8)} {r : Redir} {rs : List (Redir × List UInt8)}
  {ws : List (List UInt8)} {args : List (List UInt8 × List (Redir × List UInt8))}

/-! ## The two parsers -/

/-- The symbols that `peek` is asked for alone. -/
def single : List (Char × Tok) :=
  [('|', .bar), ('(', .lparen), (')', .rparen), (';', .semi), ('&', .amp)]

theorem among_single {x : Char × Tok} (hx : x ∈ single) (t : Tok) :
    t.among [x.1] = true ↔ t = x.2 := by
  simp only [single, mem_cons, not_mem_nil, or_false] at hx
  cases t with
  | word w => obtain rfl | rfl | rfl | rfl | rfl := hx <;> simp [Tok.among]
  | redir r => cases r <;> obtain rfl | rfl | rfl | rfl | rfl := hx <;> decide
  | _ => obtain rfl | rfl | rfl | rfl | rfl := hx <;> decide

theorem chars_single : ∀ x ∈ single, chars [x.1] ⊆ symbols := by decide

/-- **A symbol that is there is seen**, and the next token is what follows it;
or it is not there. -/
theorem peek_eat {x : Char × Tok} (hx : x ∈ single) (h0 : 0 ∉ line) (h : Here line s ts) :
    (∃ ts' s', Toks.eat x.2 ts = some ts' ∧ peek (store line) line.length [x.1] s = (true, s') ∧
        ts = x.2 :: ts' ∧ Here line s' ts ∧
        Here line (gettoken (store line) line.length s').2.2 ts') ∨
      ∃ s', Toks.eat x.2 ts = none ∧ peek (store line) line.length [x.1] s = (false, s') ∧
        Here line s' ts := by
  obtain ⟨s', hpeek, hs'⟩ := peek_eq h [x.1] (chars_single x hx)
  by_cases ht : ts.head? = some x.2
  · obtain ⟨ts', rfl⟩ := head?_eq_some_iff.1 ht
    obtain ⟨q, s'', htok, hs'', -⟩ := gettoken_cons h0 hs'
    refine .inl ⟨ts', s', if_pos ht, ?_, rfl, hs', by rw [htok]; exact hs''⟩
    rw [hpeek, head?_cons, Option.any_some, (among_single hx _).2 rfl]
  · refine .inr ⟨s', if_neg ht, ?_, hs'⟩
    rw [hpeek]
    cases ts with
    | nil => rfl
    | cons t ts =>
      rw [head?_cons, Option.any_some, Prod.mk.injEq]
      exact ⟨Bool.eq_false_iff.2 fun hyes => ht (by rw [(among_single hx t).1 hyes]; rfl), rfl⟩

/-- **A function does over the line what it does over the tokens.** -/
def Sim (line : List UInt8) (r : Except Fault (Cmd Ptrs × ℕ)) : Toks.Res → Prop
  | .error e => r = .error e
  | .ok (c, rest) => ∃ cmd s', r = .ok (cmd, s') ∧ Here line s' rest ∧ cmd.map (word line) = c ∧
      cmd.All (WordAt line)

theorem Sim.bind {r : Except Fault (Cmd Ptrs × ℕ)} {o : Toks.Res}
    {f : Cmd Ptrs × ℕ → Except Fault (Cmd Ptrs × ℕ)} {g : Cmd (List UInt8) × List Tok → Toks.Res}
    (h : Sim line r o) (hf : ∀ cmd s' rest, Here line s' rest → cmd.All (WordAt line) →
      Sim line (f (cmd, s')) (g (cmd.map (word line), rest))) : Sim line (r >>= f) (o >>= g) := by
  cases o with
  | error e =>
    rw [show r = .error e from h]
    exact rfl
  | ok o =>
    obtain ⟨cmd, s', rfl, hs', hmap, hall⟩ := h
    have := hf cmd s' o.2 hs' hall
    rwa [hmap] at this

/-! ### Redirections -/

theorem parseredirs_stop (cmd : Cmd Ptrs) (h : Here line s ts)
    (hts : ∀ r ts', ts = .redir r :: ts' → False) :
    ∃ s', parseredirs (store line) line.length (n + 1) cmd s = .ok (cmd, s') ∧ Here line s' ts := by
  obtain ⟨s', hpeek, hs'⟩ := peek_eq h ['<', '>'] (by decide)
  have hno : ts.head?.any (Tok.among ['<', '>']) = false := by
    cases ts with
    | nil => rfl
    | cons t ts =>
      cases t with
      | redir r => exact (hts r ts rfl).elim
      | _ => rfl
  refine ⟨s', ?_, hs'⟩
  simp only [parseredirs, hpeek, hno]
  rfl

theorem peek_redir (h : Here line s (.redir r :: ts)) :
    ∃ s', peek (store line) line.length ['<', '>'] s = (true, s') ∧
      Here line s' (.redir r :: ts) := by
  obtain ⟨s', hpeek, hs'⟩ := peek_eq h ['<', '>'] (by decide)
  refine ⟨s', ?_, hs'⟩
  rw [hpeek]
  cases r <;> rfl

theorem parseredirs_step (cmd : Cmd Ptrs) (h0 : 0 ∉ line)
    (h : Here line s (.redir r :: .word w :: ts)) :
    ∃ q s', parseredirs (store line) line.length (n + 1) cmd s =
        parseredirs (store line) line.length n (.redir cmd q r.mode r.fd) s' ∧
      Here line s' ts ∧ WordAt line q ∧ word line q = w := by
  obtain ⟨s₁, hpeek, h₁⟩ := peek_redir h
  obtain ⟨q₂, s₂, htok, h₂, -⟩ := gettoken_cons h0 h₁
  obtain ⟨q, s₃, hword, h₃, hq⟩ := gettoken_cons h0 h₂
  refine ⟨q, s₃, ?_, h₃, hq w rfl⟩
  simp only [parseredirs, hpeek, htok, hword]
  cases r <;> rfl

theorem parseredirs_missing (h0 : 0 ∉ line) (h : Here line s (.redir r :: ts))
    (hts : ∀ w ts', ts = .word w :: ts' → False) :
    parseredirs (store line) line.length (n + 1) cmd s = .error (.panic .missingFile) := by
  obtain ⟨s₁, hpeek, h₁⟩ := peek_redir h
  obtain ⟨q₂, s₂, htok, h₂, -⟩ := gettoken_cons h0 h₁
  obtain ⟨c, q, s₃, hword, hc⟩ : ∃ c q s₃, gettoken (store line) line.length s₂ = (c, q, s₃) ∧
      c ≠ 'a'.toUInt8 := by
    cases ts with
    | nil =>
      obtain ⟨q, s₃, hnil, -⟩ := gettoken_nil h₂
      exact ⟨_, q, s₃, hnil, by decide⟩
    | cons t ts =>
      obtain ⟨q, s₃, hcons, -⟩ := gettoken_cons h0 h₂
      refine ⟨_, q, s₃, hcons, ?_⟩
      cases t with
      | word w => exact (hts w ts rfl).elim
      | redir r => cases r <;> decide
      | _ => decide
  simp only [parseredirs, hpeek, htok, hword]
  rw [if_pos trivial, if_pos hc]

theorem parseredirs_sim (h0 : 0 ∉ line) (h : Here line s ts) (hn : ts.length < n)
    (hc : cmd.map (word line) = c) (hall : cmd.All (WordAt line)) :
    Sim line (parseredirs (store line) line.length n cmd s) (Toks.parseredirs c ts) := by
  obtain ⟨n, rfl⟩ : ∃ k, n = k + 1 := ⟨n - 1, by omega⟩
  fun_induction Toks.parseredirs c ts generalizing n s cmd with
  | case1 c r w ts ih =>
    obtain ⟨q, s', hrun, hs', hq, rfl⟩ := parseredirs_step (n := n) cmd h0 h
    simp only [length_cons] at hn
    obtain ⟨n, rfl⟩ : ∃ k, n = k + 1 := ⟨n - 1, by omega⟩
    rw [hrun]
    have hall' : Cmd.All (WordAt line) (.redir cmd q r.mode r.fd) := ⟨hall, hq⟩
    exact ih hs' (by rw [Cmd.map, hc]) hall' n (by omega)
  | case2 c r ts hw => exact parseredirs_missing h0 h hw
  | case3 c ts _ hr =>
    obtain ⟨s', hrun, hs'⟩ := parseredirs_stop (n := n) cmd h hr
    exact ⟨cmd, s', hrun, hs', hc, hall⟩

/-! ### Arguments -/

theorem parseargs_stop (ret : Cmd Ptrs) (argc : ℕ) (h : Here line s ts)
    (hr : ∀ r ts', ts = .redir r :: ts' → False) (hw : ∀ w ts', ts = .word w :: ts' → False)
    (hl : ∀ ts', ts = .lparen :: ts' → False) :
    ∃ s', parseargs (store line) line.length (n + 1) ret argc s = .ok (ret, s') ∧
      Here line s' ts := by
  obtain ⟨s₁, hpeek, h₁⟩ := peek_eq h ['|', ')', '&', ';'] (by decide)
  cases ts with
  | nil =>
    obtain ⟨q, s₂, htok, h₂⟩ := gettoken_nil h₁
    refine ⟨s₂, ?_, h₂⟩
    simp only [parseargs, hpeek, htok]
    rfl
  | cons t ts =>
    have hyes : (t :: ts).head?.any (Tok.among ['|', ')', '&', ';']) = true := by
      cases t with
      | redir r => exact (hr r ts rfl).elim
      | word w => exact (hw w ts rfl).elim
      | lparen => exact (hl ts rfl).elim
      | _ => rfl
    refine ⟨s₁, ?_, h₁⟩
    simp only [parseargs, hpeek, hyes]
    rfl

theorem parseargs_word (ret : Cmd Ptrs) (argc : ℕ) (h0 : 0 ∉ line)
    (h : Here line s (.word w :: ts)) :
    ∃ q s', parseargs (store line) line.length (n + 1) ret argc s =
        (if MAXARGS ≤ argc + 1 then .error (.panic .tooManyArgs)
        else
          parseredirs (store line) line.length (line.length + 1) (ret.addArg q) s' >>= fun r =>
            parseargs (store line) line.length n r.1 (argc + 1) r.2) ∧
      Here line s' ts ∧ WordAt line q ∧ word line q = w := by
  obtain ⟨s₁, hpeek, h₁⟩ := peek_eq h ['|', ')', '&', ';'] (by decide)
  obtain ⟨q, s₂, htok, h₂, hq⟩ := gettoken_cons h0 h₁
  refine ⟨q, s₂, ?_, h₂, hq w rfl⟩
  simp only [parseargs, hpeek, htok, Tok.code]
  rfl

theorem parseargs_bad (ret : Cmd Ptrs) (argc : ℕ) (h0 : 0 ∉ line)
    (h : Here line s (.lparen :: ts)) :
    parseargs (store line) line.length (n + 1) ret argc s = .error (.panic .badToken) := by
  obtain ⟨s₁, hpeek, h₁⟩ := peek_eq h ['|', ')', '&', ';'] (by decide)
  obtain ⟨q, s₂, htok, -⟩ := gettoken_cons h0 h₁
  simp only [parseargs, hpeek, htok]
  rfl

theorem parseargs_sim {k : ℕ} (h0 : 0 ∉ line) (h : Here line s ts) (hn : ts.length < n)
    (hk : ts.length < k) (hc : ret.map (word line) = c) (hall : ret.All (WordAt line)) :
    Sim line (parseredirs (store line) line.length n ret s >>= fun r =>
      parseargs (store line) line.length k r.1 argc r.2) (Toks.parseargs c argc ts) := by
  obtain ⟨n, rfl⟩ : ∃ i, n = i + 1 := ⟨n - 1, by omega⟩
  obtain ⟨k, rfl⟩ : ∃ i, k = i + 1 := ⟨k - 1, by omega⟩
  fun_induction Toks.parseargs c argc ts generalizing n k s ret with
  | case1 c argc r w ts ih =>
    obtain ⟨q, s', hrun, hs', hq, rfl⟩ := parseredirs_step (n := n) ret h0 h
    simp only [length_cons] at hn hk
    obtain ⟨n, rfl⟩ : ∃ i, n = i + 1 := ⟨n - 1, by omega⟩
    rw [hrun]
    have hall' : Cmd.All (WordAt line) (.redir ret q r.mode r.fd) := ⟨hall, hq⟩
    exact ih hs' (by rw [Cmd.map, hc]) hall' n (by omega) k (by omega)
  | case2 c argc r ts hw =>
    rw [parseredirs_missing h0 h hw]
    exact rfl
  | case3 c argc w ts hmax =>
    obtain ⟨s', hrun, hs'⟩ := parseredirs_stop (n := n) ret h (by simp)
    obtain ⟨q, s'', hrun', -⟩ := parseargs_word (n := k) ret argc h0 hs'
    rw [if_pos hmax] at hrun'
    rw [hrun]
    exact hrun'
  | case4 c argc w ts hmax ih =>
    obtain ⟨s', hrun, hs'⟩ := parseredirs_stop (n := n) ret h (by simp)
    obtain ⟨q, s'', hrun', hs'', hq, rfl⟩ := parseargs_word (n := k) ret argc h0 hs'
    rw [if_neg hmax] at hrun'
    rw [length_cons] at hk
    obtain ⟨k, rfl⟩ : ∃ i, k = i + 1 := ⟨k - 1, by omega⟩
    rw [hrun]
    refine (congrArg (Sim line · _) hrun').mpr ?_
    exact ih hs'' (by rw [Cmd.map_addArg, hc]) (Cmd.all_addArg hall hq) _
      hs''.length_lt k (by omega)
  | case5 c argc ts =>
    obtain ⟨s', hrun, hs'⟩ := parseredirs_stop (n := n) ret h (by simp)
    rw [hrun]
    exact parseargs_bad ret argc h0 hs'
  | case6 c argc ts _ hr hw hl =>
    obtain ⟨s', hrun, hs'⟩ := parseredirs_stop (n := n) ret h hr
    obtain ⟨s'', hrun', hs''⟩ := parseargs_stop (n := k) ret argc hs' hr hw hl
    rw [hrun]
    exact ⟨ret, s'', hrun', hs'', hc, hall⟩

/-! ### Background commands -/

theorem parsebacks_sim (h0 : 0 ∉ line) (h : Here line s ts) (hn : ts.length < n)
    (hc : cmd.map (word line) = c) (hall : cmd.All (WordAt line)) :
    Sim line (parsebacks (store line) line.length n cmd s) (Toks.parsebacks c ts) := by
  induction n generalizing s ts c cmd with
  | zero => omega
  | succ n ih =>
    rw [parsebacks]
    obtain ⟨ts', s', -, hpeek, rfl, -, hs'⟩ | ⟨s', he, hpeek, hs'⟩ :=
      peek_eat (x := ('&', .amp)) (by decide) h0 h
    · simp only [hpeek, if_true, Toks.parsebacks]
      exact ih hs' (by rw [length_cons] at hn; omega) (by rw [Cmd.map, hc]) hall
    · simp only [hpeek]
      have hstop : Toks.parsebacks c ts = .ok (c, ts) := by
        unfold Toks.parsebacks
        split
        · cases he
        · rfl
      rw [hstop]
      exact ⟨cmd, s', rfl, hs', hc, hall⟩

/-! ### The functions that call each other -/

/-- Each function, given `n` rounds. -/
structure Sims (line : List UInt8) (n : ℕ) : Prop where
  seq : ∀ s ts, Here line s ts →
    Sim line (parseline (store line) line.length n s) (Toks.parseline n ts)
  pipe : ∀ s ts, Here line s ts →
    Sim line (parsepipe (store line) line.length n s) (Toks.parsepipe n ts)
  exec : ∀ s ts, Here line s ts →
    Sim line (parseexec (store line) line.length n s) (Toks.parseexec n ts)
  block : ∀ s ts, Here line s (.lparen :: ts) →
    Sim line (parseblock (store line) line.length n s) (Toks.parseblock n ts)

/-- **The parser does over the line what it does over the tokens.** -/
theorem parse_sim (h0 : 0 ∉ line) (n : ℕ) : Sims line n := by
  induction n with
  | zero =>
    refine ⟨fun _ _ _ => ?_, fun _ _ _ => ?_, fun _ _ _ => ?_, fun _ _ _ => ?_⟩
    · rw [parseline, Toks.parseline]
      exact rfl
    · rw [parsepipe, Toks.parsepipe]
      exact rfl
    · rw [parseexec, Toks.parseexec]
      exact rfl
    · rw [parseblock, Toks.parseblock]
      exact rfl
  | succ n ih =>
    refine ⟨fun s ts h => ?_, fun s ts h => ?_, fun s ts h => ?_, fun s ts h => ?_⟩
    · rw [parseline, Toks.parseline]
      refine (ih.pipe s ts h).bind fun cmd s rest h hall => ?_
      refine (parsebacks_sim h0 h h.length_lt rfl hall).bind fun cmd s rest h hall => ?_
      obtain ⟨ts', s', he, hpeek, -, -, hs'⟩ | ⟨s', he, hpeek, hs'⟩ :=
        peek_eat (x := (';', .semi)) (by decide) h0 h
      · simp only [he, hpeek, if_true]
        exact (ih.seq _ ts' hs').bind fun right s rest h hall' =>
          ⟨_, s, rfl, h, rfl, hall, hall'⟩
      · simp only [he, hpeek]
        exact ⟨cmd, s', rfl, hs', rfl, hall⟩
    · rw [parsepipe, Toks.parsepipe]
      refine (ih.exec s ts h).bind fun cmd s rest h hall => ?_
      obtain ⟨ts', s', he, hpeek, -, -, hs'⟩ | ⟨s', he, hpeek, hs'⟩ :=
        peek_eat (x := ('|', .bar)) (by decide) h0 h
      · simp only [he, hpeek, if_true]
        exact (ih.pipe _ ts' hs').bind fun right s rest h hall' =>
          ⟨_, s, rfl, h, rfl, hall, hall'⟩
      · simp only [he, hpeek]
        exact ⟨cmd, s', rfl, hs', rfl, hall⟩
    · rw [parseexec, Toks.parseexec]
      obtain ⟨ts', s', he, hpeek, rfl, hs', -⟩ | ⟨s', he, hpeek, hs'⟩ :=
        peek_eat (x := ('(', .lparen)) (by decide) h0 h
      · simp only [he, hpeek, if_true]
        exact ih.block s' ts' hs'
      · simp only [he, hpeek]
        exact parseargs_sim h0 hs' hs'.length_lt hs'.length_lt rfl fun a ha => by cases ha
    · rw [parseblock, Toks.parseblock]
      obtain ⟨ts', s', he, hpeek, heq, -, hs'⟩ | ⟨s', he, -⟩ :=
        peek_eat (x := ('(', .lparen)) (by decide) h0 h
      · cases heq
        simp only [hpeek, if_true]
        refine (ih.seq _ ts hs').bind fun cmd s rest h hall => ?_
        obtain ⟨ts', s', he, hpeek, -, -, hs'⟩ | ⟨s', he, hpeek, hs'⟩ :=
          peek_eat (x := (')', .rparen)) (by decide) h0 h
        · simp only [he, hpeek, if_true]
          exact parseredirs_sim h0 hs' hs'.length_lt rfl hall
        · simp only [he, hpeek]
          exact rfl
      · cases he

/-! ## The grammar -/

/-- **A function takes a part of the tokens** that derives what it returns,
or it panics. -/
def Sound (D : List Tok → Cmd (List UInt8) → Prop) (ts : List Tok) (r : Toks.Res) : Prop :=
  (∃ us rest c, ts = us ++ rest ∧ r = .ok (c, rest) ∧ D us c) ∨ ∃ p, r = .error (.panic p)

/-- A panic goes through; what was taken is handed on. -/
theorem Sound.bind {D D' : List Tok → Cmd (List UInt8) → Prop} {r : Toks.Res}
    {f : Cmd (List UInt8) × List Tok → Toks.Res} (h : Sound D ts r)
    (hf : ∀ us rest c, ts = us ++ rest → D us c → Sound D' us' (f (c, rest))) :
    Sound D' us' (r >>= f) := by
  obtain ⟨us, rest, c, hts, rfl, hder⟩ | ⟨p, rfl⟩ := h
  · exact hf us rest c hts hder
  · exact .inr ⟨p, rfl⟩

/-- The first of the tokens, if there is one, is one of these. -/
def Follows (l : List Tok) (rest : List Tok) : Prop := ∀ t, rest.head? = some t → t ∈ l

theorem Follows.head_ne {l : List Tok} (h : Follows l rest) (ht : t ∉ l) : rest.head? ≠ some t :=
  fun he => ht (h t he)

theorem Follows.cons {l : List Tok} (ht : t ∈ l) : Follows l (t :: ts) := by
  intro t' ht'
  cases ht'
  exact ht

theorem Follows.amps {k : ℕ} (h : Follows [.rparen, .semi] rest) :
    Follows [.rparen, .amp, .semi] (List.replicate k .amp ++ rest) := by
  cases k with
  | zero =>
    intro t ht
    have := h t ht
    simp only [mem_cons] at this ⊢
    tauto
  | succ k => exact .cons (by simp)

/-- What ends the arguments. -/
def Stops : List Tok → Prop := Follows [.bar, .rparen, .amp, .semi]

namespace Toks

theorem eat_cons (t : Tok) (ts : List Tok) : eat t (t :: ts) = some ts := if_pos rfl

theorem eq_cons_of_eat (h : eat t ts = some rest) : ts = t :: rest := by
  rw [eat] at h
  split at h
  · rename_i ht
    obtain ⟨ts, rfl⟩ := head?_eq_some_iff.1 ht
    cases h
    rfl
  · cases h

/-! ### Redirections -/

theorem parseredirs_redirs (hrest : Stops rest) :
    parseredirs c (redirToks rs ++ rest) = .ok (redirs c rs, rest) := by
  induction rs generalizing c with
  | nil =>
    cases rest with
    | nil => rfl
    | cons t rest =>
      have := hrest t rfl
      cases t <;> first | rfl | simp at this
  | cons r rs ih => exact ih

theorem parseredirs_sound (c : Cmd (List UInt8)) (ts : List Tok) :
    Sound (fun us d => ∃ rs, us = redirToks rs ∧ d = redirs c rs) ts (parseredirs c ts) := by
  fun_induction parseredirs c ts with
  | case1 c r w ts ih =>
    obtain ⟨-, rest, -, rfl, hrun, rs, rfl, rfl⟩ | hp := ih
    · exact .inl ⟨_, rest, _, rfl, hrun, (r, w) :: rs, rfl, rfl⟩
    · exact .inr hp
  | case2 => exact .inr ⟨_, rfl⟩
  | case3 c ts => exact .inl ⟨[], ts, c, rfl, rfl, [], rfl, rfl⟩

/-! ### Arguments -/

theorem parseargs_redirs :
    parseargs c argc (redirToks rs ++ ts) = parseargs (redirs c rs) argc ts := by
  induction rs generalizing c with
  | nil => rfl
  | cons r rs ih => exact ih

theorem parseargs_args (ws : List (List UInt8)) (rs : List (Redir × List UInt8))
    (hrest : Stops rest) (hmax : ws.length + args.length ≤ MAXARGS - 1) :
    parseargs (redirs (.exec ws) rs) ws.length (argToks args ++ rest) =
      .ok (redirs (.exec (ws ++ args.map Prod.fst)) (rs ++ args.flatMap Prod.snd), rest) := by
  induction args generalizing ws rs with
  | nil =>
    rw [map_nil, flatMap_nil, append_nil, append_nil]
    cases rest with
    | nil => rfl
    | cons t rest =>
      have := hrest t rfl
      cases t <;> first | rfl | simp at this
  | cons a args ih =>
    have hcons : argToks (a :: args) ++ rest =
        .word a.1 :: (redirToks a.2 ++ (argToks args ++ rest)) := by simp [argToks]
    rw [length_cons] at hmax
    have := ih (ws ++ [a.1]) (rs ++ a.2) (by rw [length_append, length_singleton]; omega)
    rw [hcons, parseargs, if_neg (by rw [show MAXARGS = 10 from rfl] at *; omega), parseargs_redirs,
      Cmd.addArg_redirs, ← Cmd.redirs_append]
    rw [length_append, length_singleton] at this
    simpa using this

theorem parseargs_sound (ws : List (List UInt8)) (rs : List (Redir × List UInt8)) (ts : List Tok)
    (hret : c = redirs (.exec ws) rs) (hargc : argc = ws.length)
    (hmax : argc ≤ MAXARGS - 1) :
    Sound (fun us d => ∃ rs' args, us = redirToks rs' ++ argToks args ∧
      ws.length + args.length ≤ MAXARGS - 1 ∧
      d = redirs (.exec (ws ++ args.map Prod.fst)) (rs ++ rs' ++ args.flatMap Prod.snd)) ts
      (parseargs c argc ts) := by
  fun_induction parseargs c argc ts generalizing ws rs with
  | case1 c argc r w ts ih =>
    subst hret
    obtain ⟨-, rest, -, rfl, hrun, rs', args, rfl, hlen, rfl⟩ | hp :=
      ih ws (rs ++ [(r, w)]) (by rw [Cmd.redirs_concat]) hargc hmax
    · exact .inl ⟨_, rest, _, rfl, hrun, (r, w) :: rs', args, rfl, hlen, by simp⟩
    · exact .inr hp
  | case4 c argc w ts hlt ih =>
    subst hret hargc
    obtain ⟨-, rest, -, rfl, hrun, rs', args, rfl, hlen, rfl⟩ | hp :=
      ih (ws ++ [w]) rs (by rw [Cmd.addArg_redirs]) (by simp) (by omega)
    · refine .inl ⟨.word w :: (redirToks rs' ++ argToks args), rest, _, rfl, hrun, [],
        (w, rs') :: args, rfl, ?_, by simp⟩
      rw [length_append, length_singleton] at hlen
      rw [length_cons]
      omega
    · exact .inr hp
  | case2 | case3 | case5 => exact .inr ⟨_, rfl⟩
  | case6 c argc ts =>
    exact .inl ⟨[], ts, c, rfl, rfl, [], [], rfl, by simpa [← hargc] using hmax, by simp [hret]⟩

/-! ### Background commands -/

theorem parsebacks_amps {k : ℕ} (hrest : rest.head? ≠ some .amp) :
    parsebacks c (List.replicate k .amp ++ rest) = .ok (backs c k, rest) := by
  induction k generalizing c with
  | zero =>
    rw [replicate_zero, nil_append, parsebacks]
    · rfl
    · rintro ts rfl
      exact hrest rfl
  | succ k ih => exact ih

theorem exists_amps (c : Cmd (List UInt8)) (ts : List Tok) :
    ∃ k rest, ts = List.replicate k .amp ++ rest ∧ parsebacks c ts = .ok (backs c k, rest) := by
  fun_induction parsebacks c ts with
  | case1 c ts ih =>
    obtain ⟨k, rest, rfl, hrun⟩ := ih
    exact ⟨k + 1, rest, rfl, hrun⟩
  | case2 c ts => exact ⟨0, ts, rfl, rfl⟩

/-! ### The functions that call each other -/

/-- What each function takes derives, given as many rounds as it needs. -/
structure Sounds (n : ℕ) : Prop where
  seq : ∀ ts, 4 * ts.length + 4 ≤ n → Sound Line ts (parseline n ts)
  pipe : ∀ ts, 4 * ts.length + 3 ≤ n → Sound Pipe ts (parsepipe n ts)
  exec : ∀ ts, 4 * ts.length + 2 ≤ n → Sound Exec ts (parseexec n ts)
  block : ∀ ts, 4 * ts.length + 5 ≤ n → Sound Exec (.lparen :: ts) (parseblock n ts)

/-- **What each function takes derives**, or it panics. -/
theorem parse_sound (n : ℕ) : Sounds n := by
  induction n with
  | zero => refine ⟨fun _ hn => ?_, fun _ hn => ?_, fun _ hn => ?_, fun _ hn => ?_⟩ <;> omega
  | succ n ih =>
    refine ⟨fun ts hn => ?_, fun ts hn => ?_, fun ts hn => ?_, fun ts hn => ?_⟩
    · rw [parseline]
      refine (ih.pipe ts (by omega)).bind ?_
      rintro us rest c rfl hder
      obtain ⟨k, rest, rfl, hrun⟩ := exists_amps c rest
      simp only [hrun, bind, Except.bind]
      cases he : eat .semi rest with
      | none => exact .inl ⟨_, rest, _, by rw [append_assoc], rfl, .last k hder⟩
      | some ts' =>
        obtain rfl := eq_cons_of_eat he
        simp only [length_append, length_cons] at hn
        refine (ih.seq ts' (by omega)).bind ?_
        rintro vs rest' d rfl hder'
        exact .inl ⟨_, rest', _, by simp, rfl, .seq k hder hder'⟩
    · rw [parsepipe]
      refine (ih.exec ts (by omega)).bind ?_
      rintro us rest c rfl hder
      cases he : eat .bar rest with
      | none =>
        simp only [he]
        exact .inl ⟨us, rest, c, rfl, rfl, .last hder⟩
      | some ts' =>
        simp only [he]
        obtain rfl := eq_cons_of_eat he
        simp only [length_append, length_cons] at hn
        refine (ih.pipe ts' (by omega)).bind ?_
        rintro vs rest' d rfl hder'
        exact .inl ⟨_, rest', _, by simp, rfl, .pipe hder hder'⟩
    · rw [parseexec]
      cases he : eat .lparen ts with
      | some ts' =>
        obtain rfl := eq_cons_of_eat he
        exact ih.block ts' (by rw [length_cons] at hn; omega)
      | none =>
        obtain ⟨-, rest, -, rfl, hrun, rs, args, rfl, hlen, rfl⟩ | hp :=
          parseargs_sound (c := .exec []) [] [] ts rfl rfl (by decide)
        · exact .inl ⟨_, rest, _, rfl, hrun, .simple rs args (by simpa using hlen)⟩
        · exact .inr hp
    · rw [parseblock]
      refine (ih.seq ts (by omega)).bind ?_
      rintro us rest c rfl hder
      cases he : eat .rparen rest with
      | none =>
        simp only [he]
        exact .inr ⟨_, rfl⟩
      | some ts' =>
        simp only [he]
        obtain rfl := eq_cons_of_eat he
        obtain ⟨-, rest, -, rfl, hrun, rs, rfl, rfl⟩ | hp := parseredirs_sound c ts'
        · exact .inl ⟨_, rest, _, by simp, hrun, .block rs hder⟩
        · exact .inr hp

/-- What derives, and is followed by what may follow it, is taken, given `n`
rounds. -/
structure Completes (n : ℕ) : Prop where
  seq : ∀ us rest c, Line us c → Follows [.rparen] rest → 4 * (us ++ rest).length + 4 ≤ n →
    parseline n (us ++ rest) = .ok (c, rest)
  pipe : ∀ us rest c, Pipe us c → Follows [.rparen, .amp, .semi] rest →
    4 * (us ++ rest).length + 3 ≤ n → parsepipe n (us ++ rest) = .ok (c, rest)
  exec : ∀ us rest c, Exec us c → Stops rest → 4 * (us ++ rest).length + 2 ≤ n →
    parseexec n (us ++ rest) = .ok (c, rest)
  block : ∀ us rest c rs, Line us c → Stops rest →
    4 * (us ++ .rparen :: (redirToks rs ++ rest)).length + 5 ≤ n →
    parseblock n (us ++ .rparen :: (redirToks rs ++ rest)) = .ok (redirs c rs, rest)

/-- **What derives is taken.** -/
theorem parse_complete (n : ℕ) : Completes n := by
  induction n with
  | zero =>
    refine ⟨fun _ _ _ _ _ hn => ?_, fun _ _ _ _ _ hn => ?_, fun _ _ _ _ _ hn => ?_,
      fun _ _ _ _ _ _ hn => ?_⟩ <;> omega
  | succ n ih =>
    refine ⟨fun us rest c hder hrest hn => ?_, fun us rest c hder hrest hn => ?_,
      fun us rest c hder hrest hn => ?_, fun us rest c rs hder hrest hn => ?_⟩
    · rw [parseline]
      cases hder with
      | last k hder =>
        have he : eat .semi rest = none := if_neg (hrest.head_ne (by decide))
        rw [append_assoc] at hn ⊢
        rw [ih.pipe _ _ _ hder (.amps fun t ht => mem_cons.2 (.inl (mem_singleton.1 (hrest t ht))))
          (by omega)]
        simp only [bind, Except.bind, parsebacks_amps (hrest.head_ne (by decide)), he]
      | @seq ts vs c d k hder hder' =>
        have hts : ts ++ (List.replicate k .amp ++ .semi :: vs) ++ rest =
            ts ++ (List.replicate k .amp ++ .semi :: (vs ++ rest)) := by simp
        rw [hts] at hn ⊢
        rw [ih.pipe _ _ _ hder (.amps (.cons (by simp))) (by omega)]
        simp only [length_append, length_cons] at hn
        have hsemi : (Tok.semi :: (vs ++ rest)).head? ≠ some .amp := by simp
        simp only [bind, Except.bind, parsebacks_amps hsemi, eat_cons,
          ih.seq vs rest d hder' hrest (by rw [length_append]; omega)]
    · rw [parsepipe]
      cases hder with
      | last hder =>
        have he : eat .bar rest = none := if_neg (hrest.head_ne (by decide))
        rw [ih.exec us rest c hder (fun t ht => mem_cons_of_mem _ (hrest t ht)) (by omega)]
        simp only [bind, Except.bind, he]
      | @pipe ts vs c d hder hder' =>
        have hts : ts ++ .bar :: vs ++ rest = ts ++ .bar :: (vs ++ rest) := by simp
        rw [hts] at hn ⊢
        rw [ih.exec ts _ c hder (.cons (by simp)) (by omega)]
        simp only [length_append, length_cons] at hn
        simp only [bind, Except.bind, eat_cons,
          ih.pipe vs rest d hder' hrest (by rw [length_append]; omega)]
    · rw [parseexec]
      cases hder with
      | @block ts c rs hder =>
        have hts : .lparen :: (ts ++ .rparen :: redirToks rs) ++ rest =
            .lparen :: (ts ++ .rparen :: (redirToks rs ++ rest)) := by simp
        rw [hts] at hn ⊢
        rw [eat_cons]
        exact ih.block ts rest c rs hder hrest (by rw [length_cons] at hn; omega)
      | simple rs args hmax =>
        have he : eat .lparen (redirToks rs ++ argToks args ++ rest) = none := by
          refine if_neg ?_
          cases rs with
          | cons r rs => exact fun he => by cases he
          | nil =>
            cases args with
            | cons a args => exact fun he => by cases he
            | nil => exact hrest.head_ne (by decide)
        rw [he, append_assoc]
        exact parseargs_redirs.trans (parseargs_args [] _ hrest (by simpa using hmax))
    · rw [parseblock, ih.seq us _ c hder (.cons (by simp)) (by omega)]
      simp only [bind, Except.bind, eat_cons, parseredirs_redirs hrest]

end Toks

end Sh

end Xv6
