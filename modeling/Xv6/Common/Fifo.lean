import Mathlib.Data.List.Infix
/-!
# A ring of slots behind two counters that wrap

Elements go into `n` slots in turn and come out in the same order. The
counters of what went in and what came out are kept modulo `m` only; where
`n` divides `m` and is less, they still tell the next slot, the empty ring
and the full one. `Carries` ties them to the sequences of all elements put
in and taken out, however long these have become.
-/

namespace Common

open List Function

variable {α : Type*} {n m r w : ℕ} {data : ℕ → α} {out all : List α} {a : α}

/-- Numbers less than `m` apart are told apart modulo `m`. -/
theorem eq_of_mod_eq {i j : ℕ} (hij : i ≤ j) (hlt : j - i < m) (h : i % m = j % m) : i = j := by
  have hdvd : m ∣ j - i := Nat.dvd_of_mod_eq_zero (Nat.sub_mod_eq_zero_of_mod_eq h.symm)
  have := Nat.eq_zero_of_dvd_of_lt hdvd hlt
  omega

/-- **The ring carries what was put in and not yet taken out.** `out` are the
elements taken out and `all` those put in, counted by `r` and `w`. -/
structure Carries (n m : ℕ) (data : ℕ → α) (r w : ℕ) (out all : List α) : Prop where
  read : r = out.length % m
  write : w = all.length % m
  order : out <+: all
  room : all.length ≤ out.length + n
  slot : ∀ k, out.length ≤ k → k < all.length → all[k]? = some (data (k % n))

namespace Carries

/-- All that was put in has been taken out. -/
theorem drained (n : ℕ) (data : ℕ → α) (h : r = out.length % m) : Carries n m data r r out out :=
  ⟨h, h, ⟨[], append_nil _⟩, Nat.le_add_right .., fun _ hk hlt => absurd hk (Nat.not_le.2 hlt)⟩

theorem empty (n m : ℕ) (data : ℕ → α) : Carries n m data 0 0 [] [] :=
  drained n data (Nat.zero_mod m).symm

section

variable (h : Carries n m data r w out all)
include h

theorem length_le : out.length ≤ all.length :=
  h.order.length_le

/-- The counters are equal exactly if the ring is empty. -/
theorem read_eq_write_iff (hm : n < m) : r = w ↔ out.length = all.length := by
  have hle := h.length_le
  have hroom := h.room
  rw [h.read, h.write]
  exact ⟨eq_of_mod_eq hle (by omega), fun heq => by rw [heq]⟩

/-- They are `n` apart exactly if it is full. -/
theorem write_eq_iff (hm : n < m) : w = (r + n) % m ↔ all.length = out.length + n := by
  have hle := h.length_le
  rw [h.read, h.write, Nat.mod_add_mod]
  exact ⟨eq_of_mod_eq h.room (by omega), fun heq => by rw [heq]⟩

/-- Their difference is what the ring carries. -/
theorem sub_mod (hm : n < m) : (w + (m - r)) % m = all.length - out.length := by
  have hle := h.length_le
  have hroom := h.room
  have hlt : r < m := by
    rw [h.read]
    exact Nat.mod_lt _ (by omega)
  have hout : m * (out.length / m) + r = out.length := by
    rw [h.read]
    exact Nat.div_add_mod _ _
  calc (w + (m - r)) % m
      = (all.length + (m - r)) % m := by rw [h.write, Nat.mod_add_mod]
    _ = (all.length - out.length + m * (out.length / m + 1)) % m := by
        congr 1
        rw [Nat.mul_add, Nat.mul_one]
        omega
    _ = all.length - out.length := by
        rw [Nat.add_mul_mod_self_left, Nat.mod_eq_of_lt (by omega)]

/-- The next slot may be written before the counter tells of it. -/
theorem put (hn : n ∣ m)
    (hroom : all.length < out.length + n) (a : α) :
    Carries n m (update data (w % n) a) r w out all := by
  refine ⟨h.read, h.write, h.order, h.room, fun k hk hka => ?_⟩
  have hne : k % n ≠ w % n := by
    rw [h.write, Nat.mod_mod_of_dvd _ hn]
    exact fun heq => absurd (eq_of_mod_eq hka.le (by omega) heq) (by omega)
  rw [update_of_ne hne]
  exact h.slot k hk hka

/-- What the next slot has is put in by advancing the counter. -/
theorem commit (hn : n ∣ m)
    (hroom : all.length < out.length + n) (ha : data (w % n) = a) :
    Carries n m data r ((w + 1) % m) out (all ++ [a]) := by
  refine ⟨h.read, ?_, h.order.trans ⟨[a], rfl⟩, ?_, fun k hk hka => ?_⟩
  · rw [h.write, Nat.mod_add_mod, length_append, length_singleton]
  · rw [length_append, length_singleton]
    omega
  · rw [length_append, length_singleton] at hka
    by_cases hkl : k = all.length
    · rw [hkl, getElem?_concat_length, ← ha, h.write, Nat.mod_mod_of_dvd _ hn]
    · rw [getElem?_append_left (by omega)]
      exact h.slot k hk (by omega)

/-- **Putting in**, where there is room. -/
theorem push (hn : n ∣ m) (hm : n < m)
    (hroom : w ≠ (r + n) % m) (a : α) :
    Carries n m (update data (w % n) a) r ((w + 1) % m) out (all ++ [a]) := by
  have hlt : all.length < out.length + n :=
    lt_of_le_of_ne h.room fun heq => hroom ((h.write_eq_iff hm).2 heq)
  exact (h.put hn hlt a).commit hn hlt (update_self ..)

/-- What is in the ring starts with the slot to read. -/
theorem drop_eq (hn : n ∣ m) (hlt : out.length < all.length) :
    all.drop out.length = data (r % n) :: all.drop (out.length + 1) := by
  have hget := h.slot out.length le_rfl hlt
  rw [getElem?_eq_getElem hlt, Option.some.injEq] at hget
  rw [drop_eq_getElem_cons hlt, hget, h.read, Nat.mod_mod_of_dvd _ hn]

/-- **Taking out**, where there is something. -/
theorem pop (hn : n ∣ m) (hm : n < m) (hne : r ≠ w) :
    Carries n m data ((r + 1) % m) w (out ++ [data (r % n)]) all := by
  have hlt : out.length < all.length :=
    lt_of_le_of_ne h.length_le fun heq => hne ((h.read_eq_write_iff hm).2 heq)
  refine ⟨?_, h.write, ?_, ?_, fun k hk => h.slot k ?_⟩
  · rw [h.read, Nat.mod_add_mod, length_append, length_singleton]
  · obtain ⟨rest, rfl⟩ := h.order
    have hdrop := h.drop_eq hn hlt
    rw [drop_left] at hdrop
    exact ⟨_, by rw [append_assoc, hdrop, singleton_append]⟩
  · rw [length_append]
    have := h.room
    omega
  · rw [length_append] at hk
    omega

end

/-- The counter of what was put in may go back. -/
theorem back {x y : List α} (h : Carries n m data r w out (out ++ (x ++ y))) :
    Carries n m data r ((out ++ x).length % m) out (out ++ x) := by
  have hroom := h.room
  refine ⟨h.read, rfl, ⟨x, rfl⟩, ?_, fun k hk hkl => ?_⟩
  · simp only [length_append] at hroom ⊢
    omega
  · have hget := h.slot k hk (by simp only [length_append] at hkl ⊢; omega)
    rwa [← append_assoc, getElem?_append_left hkl] at hget

end Carries

end Common
