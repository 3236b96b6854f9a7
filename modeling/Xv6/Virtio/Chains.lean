import Xv6.Virtio.Model
import Mathlib.Data.List.Nodup
import Mathlib.Data.List.Perm.Subperm
/-!
# Descriptors and chains

`Taken` lists the descriptors that are not free. Allocation adds to the
list, a failed `alloc3_desc` leaves it as it was, and `free_chain` along a
formatted chain takes away the three descriptors of the chain; none of them
panics.
-/

namespace Xv6

open Function List

namespace Virtio

variable {d : Disk} {L A B idx : List ℕ} {b i j k n : ℕ} {write : Bool}

/-- **The list has the descriptors that are not free**, each once. -/
structure Taken (d : Disk) (L : List ℕ) : Prop where
  nodup : L.Nodup
  mem : ∀ i, i ∈ L ↔ i < NUM ∧ d.free i = false

/-- The number of free descriptors. -/
def Disk.nfree (d : Disk) : ℕ := (List.range NUM).countP d.free

/-- What is free and what is taken are all descriptors. -/
theorem Taken.nfree_add (h : Taken d L) : d.nfree + L.length = NUM := by
  have hperm : L.Perm ((List.range NUM).filter fun i => !d.free i) := by
    refine (perm_ext_iff_of_nodup h.nodup (nodup_range.filter _)).2 fun i => ?_
    rw [h.mem, mem_filter, mem_range, Bool.not_eq_true']
  have hnot : (fun i => !d.free i) = fun i => decide ¬ d.free i = true := by
    funext i
    cases d.free i <;> rfl
  have hcount := length_eq_countP_add_countP d.free (l := List.range NUM)
  rw [length_range] at hcount
  rw [hperm.length_eq, ← countP_eq_length_filter, hnot, Disk.nfree]
  exact hcount.symm

theorem Taken.congr {d' : Disk} (h : Taken d L) (hfree : d'.free = d.free) : Taken d' L :=
  ⟨h.nodup, by rw [hfree]; exact h.mem⟩

/-- `free_desc` of a taken descriptor does not panic. -/
theorem Taken.freeDesc (h : Taken d (A ++ i :: B)) :
    ∃ free, d.freeDesc i = .ok { d with free } ∧ Taken { d with free } (A ++ B) := by
  obtain ⟨hi, hfree⟩ := (h.mem i).1 (by simp)
  have hnd := nodup_cons.1 (nodup_middle.1 h.nodup)
  refine ⟨update d.free i true, ?_, hnd.2, fun x => ?_⟩
  · rw [Disk.freeDesc, if_neg (by omega), hfree]
    rfl
  · have hx := h.mem x
    by_cases hxi : x = i
    · subst hxi
      simp only [update_self, Bool.true_eq_false, and_false, iff_false]
      exact hnd.1
    · simp only [mem_append, mem_cons, hxi, false_or] at hx
      rw [mem_append, hx]
      simp only [update_of_ne hxi]

/-- The roll-back of `alloc3_desc`. -/
theorem Taken.freeDescs (h : Taken d (L ++ idx)) :
    ∃ free, idx.foldlM (fun d i => d.freeDesc i) d = .ok { d with free } ∧
      Taken { d with free } L := by
  induction idx generalizing d with
  | nil => exact ⟨d.free, rfl, by simpa using h⟩
  | cons i idx ih =>
    obtain ⟨free, hrun, hT⟩ := h.freeDesc
    obtain ⟨free', hrun', hT'⟩ := ih hT
    refine ⟨free', ?_, hT'⟩
    rw [foldlM_cons, hrun]
    exact hrun'

theorem Taken.allocDesc {d' : Disk} (h : Taken d L) (hrun : d.allocDesc = some (i, d')) :
    ∃ free, d' = { d with free } ∧ Taken d' (L ++ [i]) := by
  rw [Disk.allocDesc] at hrun
  split at hrun
  · rename_i x hfind
    cases hrun
    have hi : i < NUM := mem_range.1 (mem_of_find?_eq_some hfind)
    have hfree : d.free i = true := by simpa using find?_some hfind
    have hL : i ∉ L := by
      rw [h.mem, hfree]
      simp
    refine ⟨_, rfl, nodup_append.2 ⟨h.nodup, by simp, ?_⟩, fun x => ?_⟩
    · rintro x hx y hy rfl
      exact hL (mem_singleton.1 hy ▸ hx)
    · rw [mem_append, mem_singleton, h.mem]
      by_cases hx : x = i
      · subst hx
        simp [hi]
      · simp [hx]
  · cases hrun

/-- **`alloc3_desc`** gets descriptors that were free, or leaves all as it
was; it does not panic. -/
theorem Taken.allocDescs (h : Taken d (L ++ idx)) :
    ∃ r free, d.allocDescs n idx = .ok (r, { d with free }) ∧
      ((r = none ∧ Taken { d with free } L) ∨
        ∃ more, more.length = n ∧ r = some (idx ++ more) ∧
          Taken { d with free } (L ++ (idx ++ more))) := by
  induction n generalizing d idx with
  | zero => exact ⟨_, d.free, rfl, .inr ⟨[], rfl, by simp, by simpa using h⟩⟩
  | succ n ih =>
    rw [Disk.allocDescs]
    split
    · rename_i i d' hrun
      obtain ⟨free, rfl, hT⟩ := h.allocDesc hrun
      rw [append_assoc] at hT
      obtain ⟨r, free', hrun', hcase⟩ := ih hT
      refine ⟨r, free', hrun', hcase.imp_right ?_⟩
      rintro ⟨more, hlen, hr, hT'⟩
      exact ⟨i :: more, by simp [hlen], by simpa using hr, by simpa using hT'⟩
    · obtain ⟨free, hrun, hT⟩ := h.freeDescs
      refine ⟨none, free, ?_, .inl ⟨rfl, hT⟩⟩
      rw [hrun]
      rfl

/-- **A formatted chain** for a buffer. -/
structure Formed (d : Disk) (b i j k : ℕ) : Prop where
  first : (d.desc i).flags &&& VRING_DESC_F_NEXT ≠ 0 ∧ (d.desc i).next = j
  second : (d.desc j).flags &&& VRING_DESC_F_NEXT ≠ 0 ∧ (d.desc j).next = k
  third : (d.desc k).flags &&& VRING_DESC_F_NEXT = 0
  info : d.info i = { b := some b, status := 0 }

theorem Formed.of_format (hij : i ≠ j) (hik : i ≠ k) (hjk : j ≠ k) :
    Formed (d.format b write i j k) b i j k where
  first := by simp [Disk.format, update_of_ne, hij, hik]
  second := by cases write <;> simp [Disk.format, update_of_ne, hjk]
  third := by simp [Disk.format]
  info := by simp [Disk.format]

theorem freeChain_next {free : ℕ → Bool} (hrun : d.freeDesc i = .ok { d with free })
    (hi : (d.desc i).flags &&& VRING_DESC_F_NEXT ≠ 0 ∧ (d.desc i).next = j) :
    d.freeChain (n + 1) i = { d with free }.freeChain n j := by
  rw [Disk.freeChain, hrun, ← hi.2]
  exact if_pos hi.1

theorem freeChain_last {free : ℕ → Bool} (hrun : d.freeDesc i = .ok { d with free })
    (hi : (d.desc i).flags &&& VRING_DESC_F_NEXT = 0) :
    d.freeChain (n + 1) i = .ok { d with free } := by
  rw [Disk.freeChain, hrun]
  exact if_neg (not_not.2 hi)

/-- **`free_chain`** along a formatted chain gives back its three
descriptors. -/
theorem Taken.freeChain (h : Taken d (A ++ (i :: j :: k :: B)))
    (hi : (d.desc i).flags &&& VRING_DESC_F_NEXT ≠ 0 ∧ (d.desc i).next = j)
    (hj : (d.desc j).flags &&& VRING_DESC_F_NEXT ≠ 0 ∧ (d.desc j).next = k)
    (hk : (d.desc k).flags &&& VRING_DESC_F_NEXT = 0) :
    ∃ free, d.freeChain (NUM + 1) i = .ok { d with free } ∧ Taken { d with free } (A ++ B) := by
  obtain ⟨f₁, hrun₁, h₁⟩ := h.freeDesc
  obtain ⟨f₂, hrun₂, h₂⟩ := h₁.freeDesc
  obtain ⟨f₃, hrun₃, h₃⟩ := h₂.freeDesc
  refine ⟨f₃, ?_, h₃⟩
  rw [freeChain_next hrun₁ hi, freeChain_next hrun₂ hj, freeChain_last hrun₃ hk]

end Virtio

end Xv6
