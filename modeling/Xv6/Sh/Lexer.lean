import Xv6.Sh.Grammar
/-!
# Tokens in memory

`gettoken` and `peek` at a position see the first of the tokens that are
left, and `gettoken` goes past it (`gettoken_cons`). A word it finds is a
maximal run of word characters in the line (`WordAt`).
-/

namespace Xv6

open List

namespace Sh

variable {line cs rest : List UInt8} {ts : List Tok} {t : Tok} {c : UInt8} {s : ℕ} {q : Ptrs}

/-! ## Characters in memory -/

theorem store_of_cons (h : line.drop s = c :: cs) : store line s = c := by
  have hget := congrArg List.head? h
  rw [head?_drop, head?_cons] at hget
  rw [store, getD_eq_getElem?_getD, hget]
  rfl

theorem store_of_nil (h : line.drop s = []) : store line s = 0 := by
  have hget := congrArg List.head? h
  rw [head?_drop, head?_nil] at hget
  rw [store, getD_eq_getElem?_getD, hget]
  rfl

theorem drop_succ (h : line.drop s = c :: cs) : line.drop (s + 1) = cs := by
  rw [← tail_drop, h, tail_cons]

theorem lt_of_cons (h : line.drop s = c :: cs) : s < line.length := by
  have hlen := congrArg List.length h
  rw [length_drop, length_cons] at hlen
  omega

/-- The loop skips what it should, and not more than there is. -/
theorem skip_spec (p : UInt8 → Bool) (hs : s ≤ line.length) :
    line.drop (skip (store line) line.length p s) = (line.drop s).dropWhile p ∧
      s ≤ skip (store line) line.length p s ∧
      skip (store line) line.length p s ≤ line.length ∧
      ∀ i, s ≤ i → i < skip (store line) line.length p s → p (store line i) = true := by
  rw [skip]
  induction hn : line.length - s generalizing s with
  | zero =>
    have hnil : line.drop s = [] := drop_eq_nil_of_le (by omega)
    refine ⟨?_, Nat.le_refl _, hs, fun i hi hlt => ?_⟩
    · rw [skip.go, hnil, dropWhile_nil]
    · exact absurd hlt (Nat.not_lt.2 hi)
  | succ n ih =>
    obtain ⟨c, cs, hdrop⟩ := exists_cons_of_ne_nil
      (mt drop_eq_nil_iff.1 (by omega : ¬ line.length ≤ s))
    rw [skip.go, store_of_cons hdrop, hdrop, dropWhile_cons]
    split
    · rename_i hc
      obtain ⟨h1, h2, h3, h4⟩ := ih (s := s + 1) (by omega) (by omega)
      rw [drop_succ hdrop] at h1
      refine ⟨h1, by omega, h3, fun i hi hlt => ?_⟩
      by_cases his : i = s
      · rw [his, store_of_cons hdrop, hc]
      · exact h4 i (by omega) hlt
    · exact ⟨hdrop, Nat.le_refl _, hs, fun i hi hlt => absurd hlt (Nat.not_lt.2 hi)⟩

/-- The word between two positions. -/
def word (line : List UInt8) (q : Ptrs) : List UInt8 := (line.drop q.1).take (q.2 - q.1)

/-- **A maximal word of the line.** -/
structure WordAt (line : List UInt8) (q : Ptrs) : Prop where
  lt : q.1 < q.2
  le : q.2 ≤ line.length
  chars : ∀ i, q.1 ≤ i → i < q.2 → isWord (store line i) = true
  stop : q.2 < line.length → isWord (store line q.2) = false

/-! ## `gettoken` and `peek` -/

/-- **The tokens that are left at a position.** -/
structure Here (line : List UInt8) (s : ℕ) (ts : List Tok) : Prop where
  le : s ≤ line.length
  lexes : Lexes (line.drop s) ts

theorem Here.length_lt (h : Here line s ts) : ts.length < line.length + 1 := by
  have := h.lexes.length_le
  rw [length_drop] at this
  omega

/-- White space is skipped. -/
theorem Here.skip (h : Here line s ts) :
    Here line (skip (store line) line.length isSpace s) ts ∧
      ∀ c, (line.drop (Sh.skip (store line) line.length isSpace s)).head? = some c →
        isSpace c = false := by
  obtain ⟨hdrop, -, hle, -⟩ := skip_spec isSpace h.le
  refine ⟨⟨hle, ?_⟩, fun c hc => ?_⟩
  · rw [hdrop]
    exact h.lexes.dropSpace
  · rw [hdrop] at hc
    exact head_dropWhile _ _ hc

/-- What `gettoken` returns for a token. -/
def Tok.code : Tok → UInt8
  | .bar => '|'.toUInt8
  | .lparen => '('.toUInt8
  | .rparen => ')'.toUInt8
  | .semi => ';'.toUInt8
  | .amp => '&'.toUInt8
  | .redir .input => '<'.toUInt8
  | .redir .output => '>'.toUInt8
  | .redir .append => '+'.toUInt8
  | .word _ => 'a'.toUInt8

/-- A symbol that starts with one of the characters. -/
def Tok.among (toks : List Char) : Tok → Bool
  | .word _ => false
  | t => (Sh.chars toks).contains (t.text.headD 0)

/-- A word is scanned to its end. -/
theorem scan_word {w : List UInt8} {q : ℕ} (h0 : 0 ∉ line) (hq : q ≤ line.length)
    (hdrop : line.drop q = w ++ rest) (hends : (Tok.word w).Ends rest) :
    (scan (store line) line.length q).1 = 'a'.toUInt8 ∧
      line.drop (scan (store line) line.length q).2 = rest ∧
      WordAt line (q, (scan (store line) line.length q).2) ∧
      word line (q, (scan (store line) line.length q).2) = w := by
  obtain ⟨hne, hw, hstop⟩ := hends
  obtain ⟨c, w, rfl⟩ := exists_cons_of_ne_nil hne
  have hc := store_of_cons hdrop
  have hmem : c ∈ line := mem_of_mem_drop (by rw [hdrop]; exact mem_cons_self)
  obtain ⟨-, hsym⟩ := isWord_spec (hw c mem_cons_self)
  have hscan : scan (store line) line.length q =
      ('a'.toUInt8, skip (store line) line.length isWord q) := by
    have hsub : chars ['|', '(', ')', ';', '&', '<'] ⊆ symbols := by decide
    have hgt : '>'.toUInt8 ∈ symbols := by decide
    rw [scan, hc, if_neg (fun he : c = 0 => h0 (he ▸ hmem)), if_neg (fun hm => hsym (hsub hm)),
      if_neg (fun he : c = _ => hsym (he ▸ hgt))]
  obtain ⟨hskip, hle, hlen, hall⟩ := skip_spec isWord hq
  have hdropWhile : (line.drop q).dropWhile isWord = rest := by
    rw [hdrop, dropWhile_append_of_pos hw]
    cases rest with
    | nil => rfl
    | cons a rest => rw [dropWhile_cons, if_neg (by rw [hstop a rfl]; decide)]
  rw [hdropWhile] at hskip
  rw [hscan]
  have hword : word line (q, skip (store line) line.length isWord q) = c :: w := by
    have hlenw := congrArg List.length hdrop
    have hlenr := congrArg List.length hskip
    rw [length_drop, length_append] at hlenw
    rw [length_drop] at hlenr
    have hsub : skip (store line) line.length isWord q - q = (c :: w).length := by omega
    rw [word, hdrop, hsub, take_left]
  refine ⟨rfl, hskip, ⟨lt_of_le_of_ne hle fun he => ?_, hlen, hall, fun hlt => ?_⟩, hword⟩
  · rw [word, ← he, Nat.sub_self, take_zero] at hword
    cases hword
  · obtain ⟨a, as, has⟩ := exists_cons_of_ne_nil (mt drop_eq_nil_iff.1 (Nat.not_le.2 hlt))
    rw [store_of_cons has]
    rw [hskip] at has
    exact hstop a (by rw [has]; rfl)

/-- The first token is scanned to its end. -/
theorem scan_spec {q : ℕ} (h0 : 0 ∉ line) (hq : q ≤ line.length)
    (hdrop : line.drop q = t.text ++ rest) (hends : t.Ends rest) :
    (scan (store line) line.length q).1 = t.code ∧
      line.drop (scan (store line) line.length q).2 = rest ∧
      (scan (store line) line.length q).2 ≤ line.length ∧
      ∀ w, t = .word w → WordAt line (q, (scan (store line) line.length q).2) ∧
        word line (q, (scan (store line) line.length q).2) = w := by
  cases t with
  | word w =>
    obtain ⟨h1, h2, h3, h4⟩ := scan_word h0 hq hdrop hends
    refine ⟨h1, h2, h3.le, fun w' hw => ?_⟩
    cases hw
    exact ⟨h3, h4⟩
  | redir r =>
    cases r with
    | input =>
      have hc := store_of_cons hdrop
      rw [scan, hc, if_neg (by decide), if_pos (by decide)]
      exact ⟨rfl, drop_succ hdrop, lt_of_cons hdrop, fun w hw => by cases hw⟩
    | output =>
      have hc := store_of_cons hdrop
      have hne : store line (q + 1) ≠ '>'.toUInt8 := by
        have hrest := drop_succ hdrop
        cases rest with
        | nil =>
          rw [store_of_nil hrest]
          decide
        | cons a rest =>
          rw [store_of_cons hrest]
          exact fun he => hends (by rw [he]; rfl)
      rw [scan, hc, if_neg (by decide), if_neg (by decide), if_pos rfl, if_neg hne]
      exact ⟨rfl, drop_succ hdrop, lt_of_cons hdrop, fun w hw => by cases hw⟩
    | append =>
      have hc := store_of_cons hdrop
      have hrest : line.drop (q + 1) = '>'.toUInt8 :: rest := drop_succ hdrop
      rw [scan, hc, if_neg (by decide), if_neg (by decide), if_pos rfl,
        if_pos (store_of_cons hrest)]
      exact ⟨rfl, drop_succ hrest, lt_of_cons hrest, fun w hw => by cases hw⟩
  | _ =>
    have hc := store_of_cons hdrop
    rw [scan, hc, if_neg (by decide), if_pos (by decide)]
    exact ⟨rfl, drop_succ hdrop, lt_of_cons hdrop, fun w hw => by cases hw⟩

/-- **`gettoken` takes the first token.** -/
theorem gettoken_cons (h0 : 0 ∉ line) (h : Here line s (t :: ts)) :
    ∃ q s', gettoken (store line) line.length s = (t.code, q, s') ∧ Here line s' ts ∧
      ∀ w, t = .word w → WordAt line q ∧ word line q = w := by
  obtain ⟨hskip, hhead⟩ := h.skip
  obtain ⟨-, hnil⟩ | ⟨t', ts', rest, heq, hdrop, hends, hlex⟩ := hskip.lexes.first hhead
  · cases hnil
  cases heq
  obtain ⟨hcode, hrest, hle, hword⟩ := scan_spec h0 hskip.le hdrop hends
  have hhere : Here line (scan (store line) line.length
      (skip (store line) line.length isSpace s)).2 ts := ⟨hle, hrest.symm ▸ hlex⟩
  refine ⟨_, _, ?_, hhere.skip.1, hword⟩
  rw [gettoken, ← hcode]

/-- At the end it takes nothing. -/
theorem gettoken_nil (h : Here line s []) :
    ∃ q s', gettoken (store line) line.length s = (0, q, s') ∧ Here line s' [] := by
  obtain ⟨hskip, hhead⟩ := h.skip
  obtain ⟨hnil, -⟩ | ⟨t', ts', rest, heq, -⟩ := hskip.lexes.first hhead
  · have hscan : scan (store line) line.length (skip (store line) line.length isSpace s) =
        (0, skip (store line) line.length isSpace s) := by
      rw [scan, store_of_nil hnil, if_pos rfl]
    refine ⟨(skip (store line) line.length isSpace s, skip (store line) line.length isSpace s), _,
      ?_, hskip.skip.1⟩
    rw [gettoken, hscan]
  · cases heq

/-- **`peek` sees the first token.** -/
theorem peek_eq (h : Here line s ts) (toks : List Char) (htoks : chars toks ⊆ symbols) :
    ∃ s', peek (store line) line.length toks s = (ts.head?.any (Tok.among toks), s') ∧
      Here line s' ts := by
  obtain ⟨hskip, hhead⟩ := h.skip
  refine ⟨_, ?_, hskip⟩
  rw [peek, Prod.mk.injEq]
  refine ⟨?_, rfl⟩
  obtain ⟨hnil, rfl⟩ | ⟨t, ts', rest, rfl, hdrop, hends, -⟩ := hskip.lexes.first hhead
  · rw [store_of_nil hnil]
    simp
  obtain ⟨c, cs, htext, -⟩ := hends.head
  rw [htext] at hdrop
  have hdec : decide (c ≠ 0 ∧ c ∈ chars toks) = (chars toks).contains c := by
    have hne : c ∈ chars toks → c ≠ 0 := by
      rintro hc rfl
      exact absurd (htoks hc) (by decide)
    rw [Bool.eq_iff_iff, decide_eq_true_iff, contains_iff_mem]
    exact ⟨And.right, fun hc => ⟨hne hc, hc⟩⟩
  rw [store_of_cons hdrop, head?_cons, Option.any_some, hdec]
  cases t with
  | word w =>
    have hc : c ∉ symbols := (isWord_spec (hends.2.1 c (by
      rw [show w = c :: cs from htext]
      exact mem_cons_self))).2
    rw [Tok.among, ← Bool.not_eq_true, contains_iff_mem]
    exact fun hmem => hc (htoks hmem)
  | redir r => cases r <;> cases htext <;> rfl
  | _ => cases htext; rfl

end Sh

end Xv6
