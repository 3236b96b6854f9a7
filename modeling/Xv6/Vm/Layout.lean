import Xv6.Common.Overlay
import Xv6.Common.Packing
import Xv6.Vm.Calls
import Mathlib.Algebra.BigOperators.Fin
/-!
# Where the arguments go

The strings go to the top of the stack page, each below the one before and
at a multiple of sixteen, and the pointers to them below the last. All
sizes are rounded up to sixteen bytes on the way, so what the stack takes
is the sum of the rounded sizes. No other way of placing strings and
pointers at such addresses takes less (`layout_iff`): the arguments fit in
a page if and only if `exec` finds that they do. The stack pointer is taken
below the page by at most another page before it is compared, and there is
one: it does not wrap.
-/

namespace Xv6

open Common List

namespace Vm

variable {f : ℕ → UInt8} {strs : List (List UInt8)} {addrs : List ℕ} {base top sp used : ℕ}

/-- The room that `n` bytes take on the stack. -/
def room (n : ℕ) : ℕ := (n + 15) / 16 * 16

/-- The room that the strings take. -/
def stringRoom (strs : List (List UInt8)) : ℕ := (strs.map fun str => room (str.length + 1)).sum

/-- The room that strings and pointers take. -/
def stackRoom (strs : List (List UInt8)) : ℕ := stringRoom strs + room (8 * (strs.length + 1))

/-- Where the strings go, below the bytes in use. -/
def stringAddrs (top : ℕ) : List (List UInt8) → ℕ → List ℕ
  | [], _ => []
  | str :: strs, used =>
    (top - (used + room (str.length + 1))) :: stringAddrs top strs (used + room (str.length + 1))

/-- Memory with the strings in it. -/
def pushed (top : ℕ) : List (List UInt8) → ℕ → (ℕ → UInt8) → ℕ → UInt8
  | [], _, f => f
  | str :: strs, used, f =>
    pushed top strs (used + room (str.length + 1))
      (overlay f (top - (used + room (str.length + 1))) (str ++ [0]))

@[simp] theorem length_stringAddrs : (stringAddrs top strs used).length = strs.length := by
  induction strs generalizing used with
  | nil => rfl
  | cons str strs ih => simp [stringAddrs, ih]

theorem le_room (n : ℕ) : n ≤ room n := by
  rw [room]
  omega

theorem room_mod (n : ℕ) : room n % 16 = 0 := Nat.mul_mod_left ..

theorem stringRoom_cons (str : List UInt8) (strs : List (List UInt8)) :
    stringRoom (str :: strs) = room (str.length + 1) + stringRoom strs := by
  rw [stringRoom, map_cons, sum_cons, stringRoom]

theorem stringRoom_mod (strs : List (List UInt8)) : stringRoom strs % 16 = 0 := by
  induction strs with
  | nil => rfl
  | cons str strs ih =>
    rw [stringRoom_cons]
    have := room_mod (str.length + 1)
    omega

/-- **Taking `n` bytes from the stack pointer and rounding down** takes the
room of `n` bytes. -/
theorem pushSp_eq {sp n : ℕ} (hsp : sp % 16 = 0) (hle : n ≤ sp) (hlt : sp < 2 ^ 64) :
    pushSp sp n = sp - room n := by
  have hwrap : (sp + 2 ^ 64 - n) % 2 ^ 64 = sp - n := by omega
  simp only [pushSp, hwrap, room]
  omega

/-- Strings are pushed below what is in use. -/
theorem pushed_of_ge {x : ℕ} (hfit : used + stringRoom strs ≤ top) (hx : top - used ≤ x) :
    pushed top strs used f x = f x := by
  induction strs generalizing used f with
  | nil => rfl
  | cons str strs ih =>
    have := le_room (str.length + 1)
    rw [stringRoom_cons] at hfit
    rw [pushed, ih (by omega) (by omega), overlay_of_ge]
    rw [length_append, length_singleton]
    omega

/-- What is below the room for them stays. -/
theorem pushed_of_lt {x : ℕ} (hx : x < top - (used + stringRoom strs)) :
    pushed top strs used f x = f x := by
  induction strs generalizing used f with
  | nil => rfl
  | cons str strs ih =>
    rw [stringRoom_cons] at hx
    rw [pushed, ih (by omega), overlay_of_lt (by omega)]

/-- **The strings are there**, each with its NUL. -/
theorem pushed_at (hfit : used + stringRoom strs ≤ top) {i j : ℕ} {str : List UInt8} {a : ℕ}
    (hstr : strs[i]? = some str) (ha : (stringAddrs top strs used)[i]? = some a)
    (hj : j ≤ str.length) :
    pushed top strs used f (a + j) = (str ++ [0]).getD j 0 := by
  induction strs generalizing used f i with
  | nil => cases hstr
  | cons str' strs ih =>
    rw [stringRoom_cons] at hfit
    rw [pushed]
    cases i with
    | zero =>
      cases hstr
      cases ha
      have hlen : j < (str ++ [0]).length := by
        rw [length_append, length_singleton]
        omega
      rw [pushed_of_ge (by omega) (by omega), overlay_at hlen, getD_eq_getElem _ _ hlen]
    | succ i => exact ih (by omega) hstr ha

/-- **Where the strings are**: in the room for them, at multiples of
sixteen. -/
theorem stringAddrs_range (htop : top % 16 = 0) (hused : used % 16 = 0)
    (hfit : used + stringRoom strs ≤ top) {i : ℕ} {str : List UInt8} {a : ℕ}
    (hstr : strs[i]? = some str) (ha : (stringAddrs top strs used)[i]? = some a) :
    a % 16 = 0 ∧ top - (used + stringRoom strs) ≤ a ∧ a + (str.length + 1) ≤ top - used := by
  induction strs generalizing used i with
  | nil => cases hstr
  | cons str' strs ih =>
    have hmod := room_mod (str'.length + 1)
    have hle := le_room (str'.length + 1)
    rw [stringRoom_cons] at hfit ⊢
    cases i with
    | zero =>
      cases hstr
      cases ha
      omega
    | succ i =>
      have := ih (by omega) (by omega) hstr ha
      omega

/-- **Each string is below the one before it.** -/
theorem stringAddrs_below (htop : top % 16 = 0) (hused : used % 16 = 0)
    (hfit : used + stringRoom strs ≤ top) {i j : ℕ} {str : List UInt8} {a b : ℕ} (hij : i < j)
    (hstr : strs[j]? = some str) (ha : (stringAddrs top strs used)[i]? = some a)
    (hb : (stringAddrs top strs used)[j]? = some b) : b + (str.length + 1) ≤ a := by
  induction strs generalizing used i j with
  | nil => cases hstr
  | cons str' strs ih =>
    have hmod := room_mod (str'.length + 1)
    rw [stringRoom_cons] at hfit
    obtain ⟨j, rfl⟩ : ∃ m, j = m + 1 := ⟨j - 1, by omega⟩
    cases i with
    | zero =>
      cases ha
      have hstr : strs[j]? = some str := hstr
      have hb : (stringAddrs top strs (used + room (str'.length + 1)))[j]? = some b := hb
      have := stringAddrs_range htop (by omega) (by omega) hstr hb
      omega
    | succ i => exact ih (by omega) (by omega) (by omega) hstr ha hb

/-! ## Layouts -/

/-- **The strings are apart, at multiples of sixteen below `top`**, and
below them there is room for the array of pointers, at `sp`. -/
structure Layout (base top sp : ℕ) (strs : List (List UInt8)) (addrs : List ℕ) : Prop where
  length : addrs.length = strs.length
  aligned : sp % 16 = 0
  base_le : base ≤ sp
  array : sp + 8 * (strs.length + 1) ≤ top
  place : ∀ (i : ℕ) (str : List UInt8) (a : ℕ), strs[i]? = some str → addrs[i]? = some a →
    a % 16 = 0 ∧ sp + 8 * (strs.length + 1) ≤ a ∧ a + (str.length + 1) ≤ top
  apart : ∀ (i j : ℕ) (str str' : List UInt8) (a b : ℕ), i ≠ j → strs[i]? = some str →
    strs[j]? = some str' → addrs[i]? = some a → addrs[j]? = some b →
    a + (str.length + 1) ≤ b ∨ b + (str'.length + 1) ≤ a

/-- **What `exec` does is a layout**, if it fits. -/
theorem layout_stringAddrs (htop : top % 16 = 0) (hfit : base + stackRoom strs ≤ top) :
    Layout base top (top - stackRoom strs) strs (stringAddrs top strs 0) := by
  have hmod := stringRoom_mod strs
  have hmod' := room_mod (8 * (strs.length + 1))
  have hle := le_room (8 * (strs.length + 1))
  have hsum : stackRoom strs = stringRoom strs + room (8 * (strs.length + 1)) := rfl
  refine ⟨length_stringAddrs, by omega, by omega, by omega, ?_, ?_⟩
  · intro i str a hstr ha
    have := stringAddrs_range htop rfl (by omega) hstr ha
    omega
  · intro i j str str' a b hij hstr hstr' ha hb
    rcases Nat.lt_or_gt_of_ne hij with hlt | hgt
    · exact .inr (stringAddrs_below htop rfl (by omega) hlt hstr' ha hb)
    · exact .inl (stringAddrs_below htop rfl (by omega) hgt hstr hb ha)

/-- **No layout takes less room.** -/
theorem Layout.stackRoom_le (h : Layout base top sp strs addrs) (htop : top % 16 = 0) :
    base + stackRoom strs ≤ top := by
  have hsp := h.aligned
  have hbase := h.base_le
  have harray := h.array
  have hstr : ∀ i : Fin strs.length, strs[i.val]? = some strs[i] := fun i =>
    getElem?_eq_getElem i.isLt
  have haddr : ∀ i : Fin strs.length, addrs[i.val]? = some (addrs.get (i.cast h.length.symm)) :=
    fun i => getElem?_eq_getElem (i.cast h.length.symm).isLt
  -- rounded up, the strings still lie apart
  have hsum : ∑ i : Fin strs.length, room (strs[i].length + 1) ≤
      top - (sp + room (8 * (strs.length + 1))) := by
    refine sum_length_le (a := fun i => addrs.get (i.cast h.length.symm)) (fun i _ => ?_)
      fun i _ j _ hij => ?_
    · have := h.place i _ _ (hstr i) (haddr i)
      simp only [room]
      omega
    · have hi := h.place i _ _ (hstr i) (haddr i)
      have hj := h.place j _ _ (hstr j) (haddr j)
      have := h.apart i j _ _ _ _ (fun h => hij (Fin.ext h)) (hstr i) (hstr j) (haddr i) (haddr j)
      simp only [room]
      omega
  have hroom : stringRoom strs = ∑ i : Fin strs.length, room (strs[i].length + 1) :=
    (Fin.sum_univ_fun_getElem strs fun str => room (str.length + 1)).symm
  have hptr : sp + room (8 * (strs.length + 1)) ≤ top := by
    simp only [room]
    omega
  rw [stackRoom, hroom]
  omega

/-- **The arguments can be placed in a page** if and only if the rounded
sizes fit. -/
theorem layout_iff (htop : top % 16 = 0) (hle : PGSIZE ≤ top) :
    (∃ sp addrs, Layout (top - PGSIZE) top sp strs addrs) ↔ stackRoom strs ≤ PGSIZE := by
  constructor
  · rintro ⟨sp, addrs, h⟩
    have := h.stackRoom_le htop
    omega
  · intro h
    exact ⟨_, _, layout_stringAddrs htop (by omega)⟩

/-! ## The stack pointer -/

/-- The stack pointer before argument `i`, as the loop computes it. -/
def spBefore (top : ℕ) (strs : List (List UInt8)) (i : ℕ) : ℕ :=
  (strs.take i).foldl (fun sp str => pushSp sp (str.length + 1)) top

/-- What is pushed in round `i`: an argument with its NUL, or after the
last one the pointers. -/
def pushSize (strs : List (List UInt8)) (i : ℕ) : ℕ :=
  match strs[i]? with
  | some str => str.length + 1
  | none => (strs.length + 1) * 8

/-- **No subtraction wraps**, as long as the comparisons before it went
well. -/
theorem pushSize_le_spBefore {i : ℕ} (hbig : 2 * PGSIZE ≤ top)
    (hlen : ∀ str ∈ strs, str.length < PGSIZE) (hcount : strs.length < MAXARG)
    (hcheck : top - PGSIZE ≤ spBefore top strs i) : pushSize strs i ≤ spBefore top strs i := by
  have hsize : pushSize strs i ≤ PGSIZE := by
    rw [pushSize]
    split
    · rename_i str hstr
      exact hlen str (mem_of_getElem? hstr)
    · simp only [MAXARG, PGSIZE] at hcount ⊢
      omega
  omega

/-- The strings are where the stack pointer has been. -/
theorem stringAddrs_eq_spBefore {i a : ℕ} (htop : top % 16 = 0) (hused : used % 16 = 0)
    (hlt : top < 2 ^ 64) (hfit : used + stringRoom strs ≤ top)
    (ha : (stringAddrs top strs used)[i]? = some a) :
    a = spBefore (top - used) strs (i + 1) := by
  induction strs generalizing used i with
  | nil => cases ha
  | cons str strs ih =>
    have hmod := room_mod (str.length + 1)
    have hle := le_room (str.length + 1)
    rw [stringRoom_cons] at hfit
    have hpush : pushSp (top - used) (str.length + 1) = top - (used + room (str.length + 1)) := by
      rw [pushSp_eq (by omega) (by omega) (by omega), Nat.sub_sub]
    rw [spBefore, take_succ_cons, foldl_cons, hpush]
    cases i with
    | zero =>
      cases ha
      simp
    | succ i => exact ih (by omega) (by omega) ha

theorem spBefore_length (htop : top % 16 = 0) (hused : used % 16 = 0) (hlt : top < 2 ^ 64)
    (hfit : used + stringRoom strs ≤ top) :
    spBefore (top - used) strs strs.length = top - (used + stringRoom strs) := by
  induction strs generalizing used with
  | nil => rfl
  | cons str strs ih =>
    have hmod := room_mod (str.length + 1)
    have hle := le_room (str.length + 1)
    rw [stringRoom_cons] at hfit ⊢
    have hpush : pushSp (top - used) (str.length + 1) = top - (used + room (str.length + 1)) := by
      rw [pushSp_eq (by omega) (by omega) (by omega), Nat.sub_sub]
    rw [spBefore, length_cons, take_succ_cons, foldl_cons, hpush, ← Nat.add_assoc]
    exact ih (by omega) (by omega)

end Vm

end Xv6
