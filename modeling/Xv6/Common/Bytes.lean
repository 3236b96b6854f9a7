import Mathlib.Tactic.Ring
/-!
# Byte regions and little-endian fields

A region of `n` bytes, read and written at byte offsets. A field of `w`
bytes is a number below `256 ^ w`, least significant byte first. Two laws
carry every layout argument: a field reads back what was written to it
(`readLE_writeLE`), and a write leaves a field it does not meet alone
(`readLE_splice_of_disjoint`).
-/

namespace Common

/-- A region of `n` bytes. -/
abbrev Bytes (n : ℕ) : Type := Fin n → UInt8

namespace Bytes

variable {n : ℕ}

/-- The byte at offset `i`; past the end there is nothing but zeroes. -/
def get (b : Bytes n) (i : ℕ) : UInt8 :=
  if h : i < n then b ⟨i, h⟩ else 0

/-- The region with the `len` bytes from `off` on replaced by `f`. What
falls past the end is dropped. -/
def splice (b : Bytes n) (off len : ℕ) (f : ℕ → UInt8) : Bytes n :=
  fun i => if off ≤ i.val ∧ i.val < off + len then f (i.val - off) else b i

/-- The field of `w` bytes at `off`. -/
def readLE (b : Bytes n) (off : ℕ) : ℕ → ℕ
  | 0 => 0
  | w + 1 => (b.get off).toNat + 256 * readLE b (off + 1) w

/-- The region with the `w`-byte field at `off` set to `v`. -/
def writeLE (b : Bytes n) (off w v : ℕ) : Bytes n :=
  b.splice off w fun k => UInt8.ofNat (v / 256 ^ k)

@[simp] theorem get_fin (b : Bytes n) (i : Fin n) : b.get i = b i := by
  simp [get]

/-- Regions are equal when they read the same everywhere. -/
theorem ext_get {b c : Bytes n} (h : ∀ i, i < n → b.get i = c.get i) : b = c := by
  funext i
  simpa using h i i.isLt

theorem get_splice (b : Bytes n) (off len : ℕ) (f : ℕ → UInt8) (i : ℕ) :
    (b.splice off len f).get i =
      if off ≤ i ∧ i < off + len ∧ i < n then f (i - off) else b.get i := by
  unfold get splice
  by_cases h : i < n
  · simp [h]
  · simp [h]

@[simp] theorem splice_zero (b : Bytes n) (off : ℕ) (f : ℕ → UInt8) : b.splice off 0 f = b := by
  funext i
  simp only [splice]
  rw [if_neg (by omega)]

/-- Only the bytes that go in matter. -/
theorem splice_congr (b : Bytes n) {off len : ℕ} {f g : ℕ → UInt8} (h : ∀ i, i < len → f i = g i) :
    b.splice off len f = b.splice off len g := by
  funext i
  simp only [splice]
  split
  · exact h _ (by omega)
  · rfl

/-- Two replacements side by side are one. -/
theorem splice_splice (b : Bytes n) (off m k : ℕ) (f g h : ℕ → UInt8) (hf : ∀ i, i < m → h i = f i)
    (hg : ∀ i, i < k → h (m + i) = g i) :
    (b.splice off m f).splice (off + m) k g = b.splice off (m + k) h := by
  funext i
  simp only [splice]
  by_cases h1 : off + m ≤ i.val ∧ i.val < off + m + k
  · rw [if_pos h1, if_pos (by omega), show i.val - off = m + (i.val - (off + m)) by omega,
      hg _ (by omega)]
  · rw [if_neg h1]
    by_cases h2 : off ≤ i.val ∧ i.val < off + m
    · rw [if_pos h2, if_pos (by omega), hf _ (by omega)]
    · rw [if_neg h2, if_neg (by omega)]

/-- **Two regions reading the same bytes hold the same field.** -/
theorem readLE_congr {m : ℕ} {b : Bytes n} {c : Bytes m} {off off' w : ℕ}
    (h : ∀ k, k < w → b.get (off + k) = c.get (off' + k)) :
    b.readLE off w = c.readLE off' w := by
  induction w generalizing off off' with
  | zero => rfl
  | succ w ih =>
    have h0 : b.get off = c.get off' := by simpa using h 0 (by omega)
    have hrest : b.readLE (off + 1) w = c.readLE (off' + 1) w := by
      refine ih fun k hk => ?_
      have := h (k + 1) (by omega)
      rwa [Nat.add_right_comm, Nat.add_right_comm off'] at *
    simp only [readLE, h0, hrest]

theorem readLE_zero (off w : ℕ) : readLE (fun _ => 0 : Bytes n) off w = 0 := by
  induction w generalizing off with
  | zero => rfl
  | succ w ih => simp [readLE, get, ih]

/-- A field is bounded by its width. -/
theorem readLE_lt (b : Bytes n) (off w : ℕ) : b.readLE off w < 256 ^ w := by
  induction w generalizing off with
  | zero => simp [readLE]
  | succ w ih =>
    have hbyte : (b.get off).toNat < 256 := (b.get off).toNat_lt
    have hrest := ih (off + 1)
    have : 256 ^ (w + 1) = 256 * 256 ^ w := by ring
    simp only [readLE]
    omega

/-- A run of bytes that are the digits of `v` is the field `v`. -/
theorem readLE_of_digits {b : Bytes n} {off w v : ℕ}
    (h : ∀ k, k < w → b.get (off + k) = UInt8.ofNat (v / 256 ^ k)) :
    b.readLE off w = v % 256 ^ w := by
  induction w generalizing off v with
  | zero => simp [readLE, Nat.mod_one]
  | succ w ih =>
    have h0 : (b.get off).toNat = v % 256 := by
      have := h 0 (by omega)
      simp only [Nat.add_zero, Nat.pow_zero, Nat.div_one] at this
      simp [this]
    have hrest : b.readLE (off + 1) w = v / 256 % 256 ^ w := by
      refine ih fun k hk => ?_
      have := h (k + 1) (by omega)
      rw [Nat.add_assoc, Nat.add_comm 1 k, this, Nat.div_div_eq_div_mul]
      congr 2
      ring
    rw [readLE, h0, hrest, show 256 ^ (w + 1) = 256 * 256 ^ w by ring, Nat.mod_mul]

/-- **A field reads back what was written to it**, cut to its width. -/
theorem readLE_writeLE {b : Bytes n} {off w v : ℕ} (hfit : off + w ≤ n) :
    (b.writeLE off w v).readLE off w = v % 256 ^ w := by
  refine readLE_of_digits fun k hk => ?_
  rw [writeLE, get_splice, if_pos ⟨by omega, by omega, by omega⟩, Nat.add_sub_cancel_left]

/-- **A write leaves alone a field it does not meet.** -/
theorem readLE_splice_of_disjoint {b : Bytes n} {off len off' w : ℕ} {f : ℕ → UInt8}
    (h : off' + w ≤ off ∨ off + len ≤ off') :
    (b.splice off len f).readLE off' w = b.readLE off' w := by
  refine readLE_congr fun k hk => ?_
  rw [get_splice, if_neg (by omega)]

theorem readLE_writeLE_of_disjoint {b : Bytes n} {off w v off' w' : ℕ}
    (h : off' + w' ≤ off ∨ off + w ≤ off') :
    (b.writeLE off w v).readLE off' w' = b.readLE off' w' :=
  readLE_splice_of_disjoint h

/-- The region with an array of `m` four-byte words written at `off`. -/
def writeWords (b : Bytes n) (off : ℕ) (f : ℕ → ℕ) (m : ℕ) : Bytes n :=
  (List.range m).foldl (fun b i => b.writeLE (off + 4 * i) 4 (f i)) b

theorem writeWords_succ (b : Bytes n) (off : ℕ) (f : ℕ → ℕ) (m : ℕ) :
    b.writeWords off f (m + 1) = (b.writeWords off f m).writeLE (off + 4 * m) 4 (f m) := by
  simp [writeWords, List.range_succ]

theorem readLE_writeWords_of_disjoint {b : Bytes n} {off : ℕ} {f : ℕ → ℕ} {m off' w : ℕ}
    (h : off' + w ≤ off ∨ off + 4 * m ≤ off') :
    (b.writeWords off f m).readLE off' w = b.readLE off' w := by
  induction m with
  | zero => rfl
  | succ m ih => rw [writeWords_succ, readLE_writeLE_of_disjoint (by omega), ih (by omega)]

/-- **Each word of the array reads back.** -/
theorem readLE_writeWords {b : Bytes n} {off : ℕ} {f : ℕ → ℕ} {m i : ℕ} (hfit : off + 4 * m ≤ n)
    (hi : i < m) : (b.writeWords off f m).readLE (off + 4 * i) 4 = f i % 256 ^ 4 := by
  induction m with
  | zero => omega
  | succ m ih =>
    rw [writeWords_succ]
    by_cases him : i = m
    · rw [him, readLE_writeLE (by omega)]
    · rw [readLE_writeLE_of_disjoint (by omega), ih (by omega) (by omega)]

end Bytes

end Common
