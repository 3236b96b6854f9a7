import Mathlib.Data.List.TakeWhile
import Xv6.Common.Overlay
/-!
# Text

A memory holds a list at an address; a string ends before the first NUL,
and `strchr` finds the first occurrence of a character before it. The
lines of a stream are what a separator ends; what follows the last
separator is not one of them.
-/

namespace Common

open List

/-! ## Characters -/

/-- `'\n'` -/
abbrev nl : UInt8 := 10

/-- `'.'` -/
abbrev dot : UInt8 := 46

/-- `'/'` -/
abbrev slash : UInt8 := 47

/-! ## Strings -/

variable {α : Type*} {m m' : ℕ → α} {p n : ℕ} {l l' : List α}

/-- The memory holds the list from `p` on. -/
def Holds (m : ℕ → α) (p : ℕ) (l : List α) : Prop := ∀ i (h : i < l.length), m (p + i) = l[i]

theorem holds_nil : Holds m p [] := fun _ h => absurd h (Nat.not_lt_zero _)

theorem holds_cons {a : α} : Holds m p (a :: l) ↔ m p = a ∧ Holds m (p + 1) l := by
  constructor
  · intro h
    refine ⟨h 0 (Nat.succ_pos _), fun i hi => ?_⟩
    have := h (i + 1) (Nat.succ_lt_succ hi)
    rwa [getElem_cons_succ, Nat.add_comm i, ← Nat.add_assoc] at this
  · rintro ⟨h0, h⟩ i hi
    cases i with
    | zero => exact h0
    | succ i =>
      rw [getElem_cons_succ, Nat.add_comm i, ← Nat.add_assoc]
      exact h i (Nat.lt_of_succ_lt_succ hi)

theorem holds_append : Holds m p (l ++ l') ↔ Holds m p l ∧ Holds m (p + l.length) l' := by
  induction l generalizing p with
  | nil => simp [holds_nil]
  | cons a l ih =>
    rw [cons_append, holds_cons, holds_cons, ih, and_assoc, length_cons, Nat.add_assoc,
      Nat.add_comm 1]

theorem Holds.congr (h : Holds m p l) (hm : ∀ i, p ≤ i → i < p + l.length → m' i = m i) :
    Holds m' p l := fun i hi => by
  rw [hm _ (Nat.le_add_right ..) (by omega)]
  exact h i hi

theorem holds_overlay : Holds (overlay m p l) p l := fun _ h => overlay_at h

/-- What the memory holds can be read back. -/
theorem Holds.map_range (h : Holds m p l) : (List.range l.length).map (fun i => m (p + i)) = l := by
  refine ext_getElem (by simp) fun i h1 h2 => ?_
  rw [getElem_map, getElem_range]
  exact h i h2

/-- The string at an address, of less than `n` characters. -/
def cstring (m : ℕ → UInt8) : ℕ → ℕ → List UInt8
  | 0, _ => []
  | n + 1, p => if m p = 0 then [] else m p :: cstring m n (p + 1)

/-- Where the character is first in the string, of less than `n`
characters. -/
def strchr (m : ℕ → UInt8) (c : UInt8) : ℕ → ℕ → Option ℕ
  | 0, _ => none
  | n + 1, p => if m p = 0 then none else if m p = c then some p else strchr m c n (p + 1)

variable {m : ℕ → UInt8} {c : UInt8} {l l' : List UInt8}

/-- What is before the first NUL. -/
theorem cstring_eq_map : cstring m n p = ((List.range n).map fun i => m (p + i)).takeWhile (· ≠ 0) := by
  induction n generalizing p with
  | zero => rfl
  | succ n ih =>
    rw [cstring, ih, range_succ_eq_map, map_cons, map_map, takeWhile_cons]
    by_cases h : m p = 0
    · simp [h]
    · simp [h, Function.comp_def, Nat.add_assoc, Nat.add_comm 1]

/-- Nothing behind it matters. -/
theorem cstring_congr {m' : ℕ → UInt8} {q : ℕ}
    (h : ∀ i, i < n → (∀ j, j < i → m (p + j) ≠ 0) → m (p + i) = m' (q + i)) :
    cstring m n p = cstring m' n q := by
  induction n generalizing p q with
  | zero => rfl
  | succ n ih =>
    have h0 : m p = m' q := h 0 (Nat.succ_pos n) fun j hj => absurd hj (Nat.not_lt_zero j)
    rw [cstring, cstring, ← h0]
    split
    · rfl
    · rename_i hne
      refine congrArg _ (ih fun i hi hj => ?_)
      have hnext := h (i + 1) (by omega) fun j hj' => ?_
      · rwa [Nat.add_comm i, ← Nat.add_assoc, ← Nat.add_assoc] at hnext
      · cases j with
        | zero => exact hne
        | succ j =>
          have := hj j (by omega)
          rwa [Nat.add_assoc, Nat.add_comm 1] at this

/-- A string goes on behind what the memory holds without a NUL. -/
theorem cstring_append (h : Holds m p l) (h0 : 0 ∉ l) :
    cstring m (l.length + n) p = l ++ cstring m n (p + l.length) := by
  induction l generalizing p with
  | nil => rw [length_nil, Nat.zero_add, nil_append]; rfl
  | cons a l ih =>
    obtain ⟨ha, hl⟩ := holds_cons.1 h
    obtain ⟨ha0, hl0⟩ := not_or.1 (mem_cons.not.1 h0)
    rw [length_cons, Nat.add_right_comm, cstring, ha, if_neg (Ne.symm ha0), ih hl hl0,
      Nat.add_assoc, Nat.add_comm 1]
    rfl

/-- A string that need not end: up to the first NUL of a list that a NUL
follows. -/
theorem cstring_takeWhile (h : Holds m p l) (hend : m (p + l.length) = 0) (hn : l.length < n) :
    cstring m n p = l.takeWhile (· ≠ 0) := by
  induction l generalizing p n with
  | nil =>
    obtain ⟨n, rfl⟩ : ∃ k, n = k + 1 := ⟨n - 1, by omega⟩
    exact if_pos hend
  | cons a l ih =>
    obtain ⟨n, rfl⟩ : ∃ k, n = k + 1 := ⟨n - 1, by omega⟩
    obtain ⟨ha, hl⟩ := holds_cons.1 h
    rw [length_cons] at hend hn
    rw [cstring, ha, takeWhile_cons]
    by_cases ha0 : a = 0
    · simp [ha0]
    · rw [if_neg ha0, ih hl (by rwa [Nat.add_assoc, Nat.add_comm 1]) (by omega)]
      simp [ha0]

theorem cstring_eq (h : Holds m p l) (h0 : 0 ∉ l) (hend : m (p + l.length) = 0) (hn : l.length < n) :
    cstring m n p = l := by
  rw [cstring_takeWhile h hend hn, takeWhile_eq_self_iff]
  intro a ha
  simpa using fun hz : a = 0 => h0 (hz ▸ ha)

theorem strchr_eq_none (h : Holds m p l) (hc : c ∉ l) (hend : m (p + l.length) = 0) :
    strchr m c n p = none := by
  induction l generalizing p n with
  | nil =>
    cases n with
    | zero => rfl
    | succ n => exact if_pos hend
  | cons a l ih =>
    cases n with
    | zero => rfl
    | succ n =>
      obtain ⟨ha, hl⟩ := holds_cons.1 h
      obtain ⟨hca, hcl⟩ := not_or.1 (mem_cons.not.1 hc)
      rw [length_cons] at hend
      rw [strchr, ha, if_neg (Ne.symm hca), ih hl hcl (by rwa [Nat.add_assoc, Nat.add_comm 1]),
        ite_self]

theorem strchr_eq_some (h : Holds m p (l ++ c :: l')) (h0 : 0 ∉ l ++ c :: l') (hc : c ∉ l)
    (hn : l.length < n) : strchr m c n p = some (p + l.length) := by
  induction l generalizing p n with
  | nil =>
    obtain ⟨n, rfl⟩ : ∃ k, n = k + 1 := ⟨n - 1, by omega⟩
    have hp : m p = c := (holds_cons.1 h).1
    rw [strchr, hp, if_neg fun hz => h0 (by simp [hz]), if_pos rfl]
    rfl
  | cons a l ih =>
    obtain ⟨n, rfl⟩ : ∃ k, n = k + 1 := ⟨n - 1, by omega⟩
    obtain ⟨ha, hl⟩ := holds_cons.1 h
    obtain ⟨hca, hcl⟩ := not_or.1 (mem_cons.not.1 hc)
    obtain ⟨ha0, hl0⟩ := not_or.1 (mem_cons.not.1 h0)
    rw [length_cons] at hn ⊢
    rw [strchr, ha, if_neg (Ne.symm ha0), if_neg (Ne.symm hca), ih hl hl0 hcl (by omega),
      Nat.add_assoc, Nat.add_comm 1]

/-! ## Lines -/

section Lines

variable [DecidableEq α] {sep : α} {l l' : List α}

/-- The stretches that `sep` ends, without it. -/
def lines (sep : α) (l : List α) : List (List α) := (l.splitOn sep).dropLast

theorem splitOn_of_notMem (h : sep ∉ l) : l.splitOn sep = [l] := by
  refine splitOnP_eq_singleton fun a ha => ?_
  have hne : a ≠ sep := fun he => h (he ▸ ha)
  simpa using hne

theorem lines_of_notMem (h : sep ∉ l) : lines sep l = [] := by
  rw [lines, splitOn_of_notMem h]
  rfl

theorem lines_append_cons (h : sep ∉ l) : lines sep (l ++ sep :: l') = l :: lines sep l' := by
  have hsplit : (l ++ sep :: l').splitOn sep = l.splitOn sep ++ l'.splitOn sep :=
    splitOnP_append_cons _ _ (by simp)
  have hne : l'.splitOn sep ≠ [] := splitOnP_ne_nil _ _
  rw [lines, hsplit, splitOn_of_notMem h, singleton_append, dropLast_cons_of_ne_nil hne]
  rfl

/-- Induction on a text, line by line. -/
theorem lines_induction (sep : α) {motive : List α → Prop} (hnone : ∀ l, sep ∉ l → motive l)
    (hcons : ∀ a b, sep ∉ a → motive b → motive (a ++ sep :: b)) (l : List α) : motive l := by
  induction hn : l.length using Nat.strongRecOn generalizing l with
  | ind n ih =>
    by_cases hl : sep ∈ l
    · obtain ⟨a, b, rfl, ha⟩ := eq_append_cons_of_mem hl
      rw [length_append, length_cons] at hn
      exact hcons a b ha (ih b.length (by omega) b rfl)
    · exact hnone l hl

/-- What follows the last separator does not make a line. -/
theorem lines_append (h : sep ∉ l') : lines sep (l ++ l') = lines sep l := by
  induction l using lines_induction sep with
  | hnone l hl => rw [lines_of_notMem hl, lines_of_notMem (by simp [hl, h])]
  | hcons a b ha ih => rw [append_assoc, cons_append, lines_append_cons ha, lines_append_cons ha, ih]

/-- A line and its separator are part of the text. -/
theorem length_lt_of_mem_lines {x : List α} (h : x ∈ lines sep l) : x.length < l.length := by
  induction l using lines_induction sep with
  | hnone l hl =>
    rw [lines_of_notMem hl] at h
    cases h
  | hcons a b ha ih =>
    rw [lines_append_cons ha] at h
    rw [length_append, length_cons]
    rcases mem_cons.1 h with rfl | h
    · omega
    · have := ih h
      omega

/-- There is a line for each separator. -/
theorem length_lines (l : List α) : (lines sep l).length = l.count sep := by
  induction l using lines_induction sep with
  | hnone l hl => rw [lines_of_notMem hl, count_eq_zero_of_not_mem hl, length_nil]
  | hcons a b ha ih =>
    rw [lines_append_cons ha, length_cons, ih, count_append, count_eq_zero_of_not_mem ha,
      count_cons_self, Nat.zero_add]

end Lines

end Common
