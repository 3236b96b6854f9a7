import Mathlib.Data.Nat.Digits.Defs
/-!
# `vprintf` — `user/printf.c`

Numbers go through `printint`, which takes an `int`, makes the digits in a
buffer from the last one on and prints them the other way round; `printptr`
prints the digits of 64 bits one by one. So `%l` prints what is left of its
argument in 32 bits.
-/

namespace Xv6

namespace Printf

/-- `digits[d]` -/
def digit (d : ℕ) : UInt8 := ("0123456789ABCDEF".toList.getD d ' ').toUInt8

/-- `char buf[16]` -/
def bufSize : ℕ := 16

/-- `do{ buf[i++] = digits[x % base]; }while((x /= base) != 0);` with so many
bytes of `buf` left; `none` if they do not suffice. -/
def digitLoop (base : ℕ) : ℕ → ℕ → Option (List UInt8)
  | 0, _ => none
  | room + 1, x =>
    if x / base = 0 then some [digit (x % base)]
    else (digitLoop base room (x / base)).map (digit (x % base) :: ·)

def printint (xx : BitVec 32) (base : ℕ) (sgn : Bool) : Option (List UInt8) := do
  let neg := sgn && decide (xx.toInt < 0)
  let x := if neg then -xx else xx
  let buf ← digitLoop base bufSize x.toNat
  if neg then
    if buf.length < bufSize then some (buf ++ ['-'.toUInt8]).reverse else none
  else some buf.reverse

def ptrLoop : ℕ → BitVec 64 → List UInt8
  | 0, _ => []
  | n + 1, x => digit (x >>> (64 - 4)).toNat :: ptrLoop n (x <<< 4)

def printptr (x : BitVec 64) : List UInt8 := '0'.toUInt8 :: 'x'.toUInt8 :: ptrLoop (8 * 2) x

/-- `%s`, `%c`, `%%` and what is not understood; `str` is the string at an
address. -/
def printtext (str : BitVec 64 → List UInt8) (c : UInt8) (a : BitVec 64) : List UInt8 :=
  if c = 's'.toUInt8 then if a = 0 then "(null)".toList.map Char.toUInt8 else str a
  else if c = 'c'.toUInt8 then [⟨a.setWidth 8⟩]
  else if c = '%'.toUInt8 then [c]
  else ['%'.toUInt8, c]

/-- What is printed for `%` and `c` when `a` is the next argument. -/
def convert (str : BitVec 64 → List UInt8) (c : UInt8) (a : BitVec 64) : Option (List UInt8) :=
  if c = 'd'.toUInt8 then printint (a.setWidth 32) 10 true
  else if c = 'l'.toUInt8 then printint (a.setWidth 32) 10 false
  else if c = 'x'.toUInt8 then printint (a.setWidth 32) 16 false
  else if c = 'p'.toUInt8 then some (printptr a)
  else some (printtext str c a)

/-- The arguments fetched after it. -/
def fetched (c : UInt8) (k : ℕ) : ℕ := if c ∈ "dlxpsc".toList.map Char.toUInt8 then k + 1 else k

/-- `vprintf` from a byte of `fmt` on, where `state` is `'%'` or `0` and `k`
arguments have been fetched; what it prints. -/
def vprintf (str : BitVec 64 → List UInt8) (ap : ℕ → BitVec 64) :
    Bool → List UInt8 → ℕ → Option (List UInt8)
  | _, [], _ => some []
  | false, c :: fmt, k =>
    if c = '%'.toUInt8 then vprintf str ap true fmt k
    else (vprintf str ap false fmt k).map (c :: ·)
  | true, c :: fmt, k => do
    let out ← convert str c (ap k)
    let rest ← vprintf str ap false fmt (fetched c k)
    some (out ++ rest)

/-- **A numeral** of `v` in a base. -/
def Numeral (base v : ℕ) (l : List UInt8) : Prop :=
  ∃ ds, ds ≠ [] ∧ (∀ d ∈ ds, d < base) ∧ Nat.ofDigits base ds = v ∧ l = (ds.map digit).reverse

/-- What it should be: for a number, a numeral of the argument that is
fetched. -/
def Means (str : BitVec 64 → List UInt8) (c : UInt8) (a : BitVec 64) (l : List UInt8) : Prop :=
  if c = 'd'.toUInt8 then ∃ l', Numeral 10 (a.setWidth 32).toInt.natAbs l' ∧
    l = if (a.setWidth 32).toInt < 0 then '-'.toUInt8 :: l' else l'
  else if c = 'l'.toUInt8 then Numeral 10 a.toNat l
  else if c = 'x'.toUInt8 then Numeral 16 (a.setWidth 32).toNat l
  else if c = 'p'.toUInt8 then
    ∃ l', Numeral 16 a.toNat l' ∧ l = '0'.toUInt8 :: 'x'.toUInt8 :: l'
  else l = printtext str c a

/-- The output is the text of the format with, for each conversion, what `Q`
says of the argument it fetches. -/
def Prints (Q : UInt8 → BitVec 64 → List UInt8 → Prop) (ap : ℕ → BitVec 64) :
    Bool → List UInt8 → ℕ → List UInt8 → Prop
  | _, [], _, out => out = []
  | false, c :: fmt, k, out =>
    if c = '%'.toUInt8 then Prints Q ap true fmt k out
    else ∃ rest, out = c :: rest ∧ Prints Q ap false fmt k rest
  | true, c :: fmt, k, out =>
    ∃ l rest, out = l ++ rest ∧ Q c (ap k) l ∧ Prints Q ap false fmt (fetched c k) rest

variable {base n room x : ℕ}

/-- The digits fit where the number has no more of them. -/
theorem digitLoop_eq (hb : 2 ≤ base) (hx : x < base ^ (n + 1)) (hn : n < room) :
    ∃ ds, digitLoop base room x = some (ds.map digit) ∧ ds.length ≤ n + 1 ∧ ds ≠ [] ∧
      (∀ d ∈ ds, d < base) ∧ Nat.ofDigits base ds = x := by
  induction room generalizing n x with
  | zero => omega
  | succ room ih =>
    have hd : x % base < base := Nat.mod_lt _ (by omega)
    rw [digitLoop]
    split
    · rename_i h0
      refine ⟨[x % base], rfl, by simp, by simp, by simpa using hd, ?_⟩
      rw [Nat.ofDigits_singleton]
      exact Nat.mod_eq_of_lt ((Nat.div_eq_zero_iff.1 h0).resolve_left (by omega))
    · rename_i h0
      obtain ⟨n, rfl⟩ : ∃ m, n = m + 1 := by
        refine ⟨n - 1, ?_⟩
        by_contra hne
        obtain rfl : n = 0 := by omega
        rw [pow_one] at hx
        exact h0 (Nat.div_eq_of_lt hx)
      have hdiv : x / base < base ^ (n + 1) := by
        rw [Nat.div_lt_iff_lt_mul (by omega), ← pow_succ]
        exact hx
      obtain ⟨ds, hds, hlen, -, hlt, hval⟩ := ih hdiv (by omega)
      refine ⟨x % base :: ds, by rw [hds]; rfl, by simpa using hlen, by simp, ?_, ?_⟩
      · exact List.forall_mem_cons.2 ⟨hd, hlt⟩
      · rw [Nat.ofDigits_cons, hval, Nat.mod_add_div]

theorem printint_unsigned (xx : BitVec 32) (hb : 2 ≤ base) (hpow : 2 ^ 32 ≤ base ^ (n + 1))
    (hn : n < bufSize) : ∃ l, printint xx base false = some l ∧ Numeral base xx.toNat l := by
  obtain ⟨ds, hds, -, hne, hlt, hval⟩ := digitLoop_eq hb (xx.isLt.trans_le hpow) hn
  refine ⟨(ds.map digit).reverse, ?_, ds, hne, hlt, hval, rfl⟩
  simp [printint, hds]

/-- The most negative number has its magnitude as an unsigned one. -/
theorem toNat_neg {xx : BitVec 32} (h : xx.toInt < 0) : (-xx).toNat = xx.toInt.natAbs := by
  rw [BitVec.toNat_neg]
  rw [BitVec.toInt_eq_toNat_cond] at h ⊢
  split at h
  · omega
  · rename_i hx
    rw [if_neg hx]
    omega

theorem printint_signed (xx : BitVec 32) : ∃ l, printint xx 10 true =
    some (if xx.toInt < 0 then '-'.toUInt8 :: l else l) ∧ Numeral 10 xx.toInt.natAbs l := by
  have hpow : 2 ^ 32 ≤ 10 ^ (9 + 1) := by decide
  by_cases h : xx.toInt < 0
  · obtain ⟨ds, hds, hlen, hne, hlt, hval⟩ := digitLoop_eq (by decide) ((-xx).isLt.trans_le hpow)
      (by decide : 9 < bufSize)
    have hroom : ds.length < bufSize := Nat.lt_of_le_of_lt hlen (by decide)
    rw [toNat_neg h] at hval
    refine ⟨(ds.map digit).reverse, ?_, ds, hne, hlt, hval, rfl⟩
    simp [printint, h, hds, hroom, -BitVec.toNat_neg]
  · obtain ⟨ds, hds, -, hne, hlt, hval⟩ := digitLoop_eq (by decide) (xx.isLt.trans_le hpow)
      (by decide : 9 < bufSize)
    have hnat : xx.toNat = xx.toInt.natAbs := by
      rw [BitVec.toInt_eq_toNat_cond] at h ⊢
      omega
    refine ⟨(ds.map digit).reverse, ?_, ds, hne, hlt, hval.trans hnat, rfl⟩
    simp [printint, h, hds]

/-- So many digits from the front are the number without its last ones. -/
theorem ptrLoop_eq (hn : n ≤ 16) (x : BitVec 64) : ∃ ds, ds.length = n ∧ (∀ d ∈ ds, d < 16) ∧
    Nat.ofDigits 16 ds = x.toNat / 16 ^ (16 - n) ∧ ptrLoop n x = (ds.map digit).reverse := by
  induction n generalizing x with
  | zero => exact ⟨[], rfl, by simp, by simp; omega, rfl⟩
  | succ n ih =>
    obtain ⟨ds, hlen, hlt, hval, hrun⟩ := ih (by omega) (x <<< 4)
    refine ⟨ds ++ [(x >>> (64 - 4)).toNat], by simp [hlen], ?_, ?_, by simp [ptrLoop, hrun]⟩
    · rw [BitVec.toNat_ushiftRight, Nat.shiftRight_eq_div_pow]
      have := x.isLt
      simp only [List.mem_append, List.mem_singleton]
      rintro d (hd | rfl)
      · exact hlt d hd
      · omega
    · have hm : 16 ^ (16 - n) = 16 ^ (16 - (n + 1)) * 16 := by
        rw [← pow_succ]
        congr 1
        omega
      have h15 : 2 ^ 60 = 16 ^ (16 - (n + 1)) * 16 ^ n := by
        rw [← pow_add, show 16 - (n + 1) + n = 15 by omega]
        decide
      rw [Nat.ofDigits_append, hlen, hval, Nat.ofDigits_singleton, BitVec.toNat_ushiftRight,
        Nat.shiftRight_eq_div_pow, BitVec.toNat_shiftLeft, Nat.shiftLeft_eq, hm,
        show 2 ^ 64 = 2 ^ 60 * 16 by decide, show 2 ^ 4 = 16 by decide, Nat.mul_mod_mul_right,
        Nat.mul_div_mul_right _ _ (by decide), show 64 - 4 = 60 by decide]
      nth_rewrite 3 [← Nat.mod_add_div x.toNat (2 ^ 60)]
      rw [h15, Nat.mul_assoc, Nat.add_mul_div_left _ _ (by positivity)]

theorem printptr_eq (a : BitVec 64) : ∃ l, Numeral 16 a.toNat l ∧
    printptr a = '0'.toUInt8 :: 'x'.toUInt8 :: l := by
  obtain ⟨ds, hlen, hlt, hval, hrun⟩ := ptrLoop_eq le_rfl a
  have hne : ds ≠ [] := by
    rintro rfl
    cases hlen
  exact ⟨_, ⟨ds, hne, hlt, by simpa using hval, hrun⟩, rfl⟩

theorem digit_inj {d e : ℕ} (hd : d < 16) (he : e < 16) (h : digit d = digit e) : d = e := by
  have hall : ∀ d < 16, ∀ e < 16, digit d = digit e → d = e := by decide
  exact hall d hd e he h

/-- A text is a numeral of one number only. -/
theorem Numeral.inj {v w : ℕ} {l : List UInt8} (hb : base ≤ 16) (hv : Numeral base v l)
    (hw : Numeral base w l) : v = w := by
  obtain ⟨ds, -, hds, rfl, rfl⟩ := hv
  obtain ⟨es, -, hes, rfl, heq⟩ := hw
  have hmap := List.reverse_inj.1 heq
  have hlen : ds.length = es.length := by simpa using congrArg List.length hmap
  congr 1
  refine List.ext_getElem hlen fun i hi hj => digit_inj ?_ ?_ ?_
  · exact (hds _ (List.getElem_mem hi)).trans_le hb
  · exact (hes _ (List.getElem_mem hj)).trans_le hb
  · simpa [hi, hj] using congrArg (·[i]?) hmap

/-- Every conversion prints, and what it should exactly if it is not an
`%l` whose argument does not fit. -/
theorem convert_means (str : BitVec 64 → List UInt8) (c : UInt8) (a : BitVec 64) :
    ∃ l, convert str c a = some l ∧ (Means str c a l ↔ (c = 'l'.toUInt8 → a.toNat < 2 ^ 32)) := by
  by_cases hc : c = 'l'.toUInt8
  · subst hc
    obtain ⟨l, hl, hnum⟩ := printint_unsigned (n := 9) (a.setWidth 32)
      (by decide : 2 ≤ 10) (by decide) (by decide)
    refine ⟨l, hl, ?_⟩
    rw [BitVec.toNat_setWidth] at hnum
    change Numeral 10 a.toNat l ↔ _
    constructor
    · intro h _
      rw [h.inj (by decide) hnum]
      exact Nat.mod_lt _ (by decide)
    · intro hfit
      rwa [Nat.mod_eq_of_lt (hfit rfl)] at hnum
  suffices h : ∃ l, convert str c a = some l ∧ Means str c a l from
    h.imp fun _ hl => ⟨hl.1, iff_of_true hl.2 fun he => absurd he hc⟩
  unfold convert Means
  split
  · obtain ⟨l, hl, hnum⟩ := printint_signed (a.setWidth 32)
    exact ⟨_, hl, l, hnum, rfl⟩
  split
  · exact printint_unsigned (n := 7) (a.setWidth 32) (by decide : 2 ≤ 16) (by decide) (by decide)
  split
  · exact ⟨_, rfl, printptr_eq a⟩
  · exact ⟨_, rfl, rfl⟩

/-- **`vprintf` prints a numeral of every argument**, but for `%l` exactly
if it is below `2 ^ 32`; and it never writes past the end of `buf`. -/
theorem vprintf_prints (str : BitVec 64 → List UInt8) (ap : ℕ → BitVec 64) (state : Bool)
    (fmt : List UInt8) (k : ℕ) : ∃ out, vprintf str ap state fmt k = some out ∧
      Prints (fun c a l => Means str c a l ↔ (c = 'l'.toUInt8 → a.toNat < 2 ^ 32)) ap state fmt k
        out := by
  induction fmt generalizing state k with
  | nil => exact ⟨[], by cases state <;> rfl, by cases state <;> rfl⟩
  | cons c fmt ih =>
    cases state with
    | false =>
      by_cases hc : c = '%'.toUInt8
      · obtain ⟨out, hout, hprints⟩ := ih true k
        exact ⟨out, by rw [vprintf, if_pos hc, hout], by rwa [Prints, if_pos hc]⟩
      · obtain ⟨out, hout, hprints⟩ := ih false k
        refine ⟨c :: out, by rw [vprintf, if_neg hc, hout]; rfl, ?_⟩
        rw [Prints, if_neg hc]
        exact ⟨out, rfl, hprints⟩
    | true =>
      obtain ⟨l, hl, hmeans⟩ := convert_means str c (ap k)
      obtain ⟨rest, hrest, hprints⟩ := ih false (fetched c k)
      exact ⟨l ++ rest, by simp [vprintf, hl, hrest], l, rest, rfl, hmeans, hprints⟩

/-- **The upper half of an argument is lost**: `2 ^ 32` is printed as `0`. -/
theorem vprintf_narrows :
    vprintf (fun _ => []) (fun _ => .ofNat 64 (2 ^ 32)) false ("%l".toList.map Char.toUInt8) 0 =
        some ['0'.toUInt8] ∧
      ¬ Means (fun _ => []) 'l'.toUInt8 (.ofNat 64 (2 ^ 32)) ['0'.toUInt8] := by
  refine ⟨by decide, fun h => ?_⟩
  have hzero : Numeral 10 0 ['0'.toUInt8] := ⟨[0], by decide, by decide, by decide, by decide⟩
  exact absurd (Numeral.inj (by decide) h hzero) (by decide)

end Printf

end Xv6
