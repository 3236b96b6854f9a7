import Xv6.Common.Overlay
import Xv6.Vm.Space
/-!
# What the user sees

`walkaddr` finds a page of an address space exactly where the user may
access it, and so user memory is the bytes of the space on these pages.
The functions that write to user memory change those bytes and nothing
else of the space.
-/

namespace Xv6

open Common Function List

namespace Vm

variable {k : Symbols} {o : ℕ → Owner} {s s' : State} {X : ℕ → ℕ} {ptes : List ℕ} {f : ℕ → UInt8}
  {hand : Option ℕ} {r i w va : ℕ}

/-- The user may access the page at an address. -/
def ForUser (ptes : List ℕ) (va : ℕ) : Prop := ∃ w ∈ ptes[va / PGSIZE]?, w &&& PTE_U ≠ 0

instance (ptes : List ℕ) (va : ℕ) : Decidable (ForUser ptes va) :=
  inferInstanceAs (Decidable (∃ w ∈ ptes[va / PGSIZE]?, w &&& PTE_U ≠ 0))

/-- What `walkaddr` finds. -/
def userAddr (ptes : List ℕ) (va : ℕ) : ℕ :=
  match ptes[va / PGSIZE]? with
  | some w => if w &&& PTE_U = 0 then 0 else pte2pa w
  | none => 0

/-- **`walkaddr`** finds the pages of the space that are for the user. -/
theorem Holding.walkaddr_eq (h : Holding o s.mem r ptes f X hand) (hh : Heap k o s)
    (hX : Above X) (va : ℕ) : walkaddr r va s = .ok (userAddr ptes va, s) := by
  have hle := h.le hh
  have haddr : userPa s.mem r va = userAddr ptes va := by
    rw [userPa, userAddr]
    cases hw : ptes[va / PGSIZE]? with
    | none =>
      have hi : ptes.length ≤ va / PGSIZE := List.getElem?_eq_none_iff.1 hw
      rw [if_neg fun hc => hc.2.2 (by rw [h.rest _ hi]; exact hX.kernel _)]
    | some w =>
      have hi := (List.getElem?_eq_some_iff.1 hw).1
      have hva : va < MAXVA := by
        simp only [npages, PHYSTOP, KERNBASE, MAXVA, PGSIZE] at hle hi ⊢
        omega
      obtain ⟨hpte, hleaf⟩ := h.leaf _ w hw
      rw [hpte]
      by_cases hu : w &&& PTE_U = 0
      · rw [if_neg fun hc => hc.2.2 hu]
        exact (if_pos hu).symm
      · rw [if_pos ⟨hva, hleaf.1, hu⟩]
        exact (if_neg hu).symm
  rw [Vm.walkaddr_eq h.table, haddr]

/-- The address found is not zero. -/
theorem Holding.userAddr_pos (h : Holding o s.mem r ptes f X hand) (hh : Heap k o s)
    (hva : ForUser ptes va) : ∃ w, ptes[va / PGSIZE]? = some w ∧ userAddr ptes va = pte2pa w ∧
      pte2pa w ≠ 0 := by
  obtain ⟨w, hw, hu⟩ := hva
  have hw : ptes[va / PGSIZE]? = some w := hw
  refine ⟨w, hw, ?_, hh.pos (b := pte2pa w) ?_⟩
  · rw [userAddr, hw]
    exact if_neg hu
  · rw [h.own hw]
    exact Owner.noConfusion

theorem userAddr_eq_zero (hva : ¬ ForUser ptes va) : userAddr ptes va = 0 := by
  rw [userAddr]
  cases hw : ptes[va / PGSIZE]? with
  | none => rfl
  | some w =>
    refine if_pos ?_
    by_contra hu
    exact hva ⟨w, hw, hu⟩

/-- **User memory is the bytes of the space**, where the user may access
them. -/
theorem Holding.byteAt_eq (h : Holding o s.mem r ptes f X hand) (hh : Heap k o s) (hX : Above X)
    (va : ℕ) : (userMem r s).byteAt va =
      if ForUser ptes (va % 2 ^ 64) then some (f (va % 2 ^ 64)) else none := by
  have hdiv : pgRoundDown (va % 2 ^ 64) / PGSIZE = va % 2 ^ 64 / PGSIZE := by
    simp only [pgRoundDown, PGSIZE]
    omega
  have hsame : ForUser ptes (pgRoundDown (va % 2 ^ 64)) ↔ ForUser ptes (va % 2 ^ 64) := by
    rw [ForUser, ForUser, hdiv]
  simp only [UserMem.byteAt, userMem, h.walkaddr_eq hh hX]
  by_cases hva : ForUser ptes (va % 2 ^ 64)
  · obtain ⟨w, hw, haddr, hne⟩ := h.userAddr_pos hh (hsame.2 hva)
    have hbyte := h.byte _ w hw (va % PGSIZE) (Nat.mod_lt _ (by decide))
    have hsum : va % 2 ^ 64 / PGSIZE * PGSIZE + va % PGSIZE = va % 2 ^ 64 := by
      simp only [PGSIZE]
      omega
    rw [hdiv, hsum] at hbyte
    rw [if_pos hva, haddr, if_neg hne, Option.map_some, hbyte]
  · rw [if_neg hva, userAddr_eq_zero (fun hc => hva (hsame.1 hc)), if_pos rfl, Option.map_none]

/-! ## Writing to user memory -/

/-- **Bytes are written to a page of the space.** -/
theorem Holding.memwrite_returns {off : ℕ} {l : List UInt8} (h : Space o s.mem r ptes f X)
    (hh : Heap k o s) (hw : ptes[i]? = some w) (hfit : off + l.length ≤ PGSIZE) :
    Returns (memwrite (pte2pa w) off l) s fun _ s' =>
      Does k (Owner.inSpace r i) o o s s' ∧
        Space o s'.mem r ptes (overlay f (i * PGSIZE + off) l) X := by
  refine (modify_page (P := Owner.inSpace r i) hh (h.own hw) (Owner.used_user ..) ⟨rfl, le_rfl⟩
    fun q => q.splice off l.length fun j => l.getD j 0).mono ?_
  rintro - s' ⟨hdo, hmem⟩
  have hm : ∀ b d j, o b = .table r d j → s'.mem b = s.mem b := by
    intro b d j hb
    rw [hmem, update_of_ne]
    rintro rfl
    rw [h.own hw] at hb
    cases hb
  have hpte : pteAt s'.mem r = pteAt s.mem r := funext (h.table.tword_congr hm le_rfl)
  refine ⟨hdo, h.table.congr hm fun _ _ _ => Iff.rfl, h.user, fun i' w' hw' => ?_,
    fun i' w' hw' j hj => ?_, fun i' hi' => ?_⟩
  · rw [hpte]
    exact h.leaf i' w' hw'
  · by_cases hi : i' = i
    · subst hi
      obtain rfl : w' = w := Option.some.inj (hw'.symm.trans hw)
      rw [hmem, update_self, Bytes.get_splice, h.byte _ _ hw j hj]
      by_cases hin : off ≤ j ∧ j < off + l.length
      · rw [if_pos ⟨hin.1, hin.2, hj⟩, overlay, if_pos (by omega),
          show i' * PGSIZE + j - (i' * PGSIZE + off) = j - off by omega,
          getD_eq_getElem?_getD, getElem?_eq_getElem (by omega)]
        rfl
      · rw [if_neg (by omega)]
        by_cases hlt : j < off
        · rw [overlay_of_lt (by omega)]
        · rw [overlay_of_ge (by omega)]
    · have hne : pte2pa w' ≠ pte2pa w := by
        intro heq
        have := h.own hw'
        rw [heq, h.own hw] at this
        injection this with _ hii
        exact hi hii.symm
      rw [hmem, update_of_ne hne, h.byte i' w' hw' j hj]
      simp only [PGSIZE] at hj hfit ⊢
      rcases Nat.lt_or_gt_of_ne hi with hlt | hgt
      · rw [overlay_of_lt (by omega)]
      · rw [overlay_of_ge (by omega)]
  · rw [hpte]
    exact h.rest i' hi'

/-- **`copyout` to a part of one page.** -/
theorem Holding.copyout_returns {l : List UInt8} (h : Space o s.mem r ptes f X) (hh : Heap k o s)
    (hX : Above X) (hva : ForUser ptes va) (hfit : va % PGSIZE + l.length ≤ PGSIZE) :
    Returns (copyout r va l) s fun ok s' =>
      ok = true ∧ Does k (Owner.inSpace r (va / PGSIZE)) o o s s' ∧
        Space o s'.mem r ptes (overlay f va l) X := by
  rw [copyout]
  cases hl : l with
  | nil =>
    rw [length_nil, copyoutLoop]
    refine .pure ⟨rfl, .refl hh, ?_⟩
    rwa [overlay_nil]
  | cons c l' =>
    rw [← hl]
    have hne : l.isEmpty = false := by rw [hl]; rfl
    have hlen : l.length = l'.length + 1 := by rw [hl]; rfl
    have hdiv : pgRoundDown va / PGSIZE = va / PGSIZE := by
      simp only [pgRoundDown, PGSIZE]
      omega
    have hoff : va - pgRoundDown va = va % PGSIZE := by
      have := Nat.mod_le va PGSIZE
      rw [pgRoundDown]
      omega
    have hsum : va / PGSIZE * PGSIZE + va % PGSIZE = va := Nat.div_add_mod' va PGSIZE
    have hround : ForUser ptes (pgRoundDown va) := by
      rw [ForUser, hdiv]
      exact hva
    obtain ⟨w, hw, haddr, h0⟩ := h.userAddr_pos hh hround
    rw [hdiv] at hw
    rw [hlen, copyoutLoop, hne, if_neg Bool.false_ne_true]
    refine .bind ⟨_, _, h.walkaddr_eq hh hX _, ?_⟩
    have htake : l.take (PGSIZE - va % PGSIZE) = l := take_of_length_le (by omega)
    have hdrop : l.drop (PGSIZE - va % PGSIZE) = [] := drop_eq_nil_of_le (by omega)
    simp only [haddr, if_neg h0, hoff, htake, hdrop]
    refine .bind ((h.memwrite_returns hh hw hfit).mono ?_)
    rintro - s' ⟨hdo, h'⟩
    rw [hsum] at h'
    have hend : ∀ n va', copyoutLoop r n va' [] s' = .ok (true, s') := by
      intro n va'
      cases n <;> rfl
    exact ⟨_, _, hend _ _, rfl, hdo, h'⟩

/-! ## `uvmclear` -/

/-- An entry without `PTE_U`. -/
def guarded (w : ℕ) : ℕ := w &&& (2 ^ 64 - 1 - PTE_U)

theorem pte2pa_guarded (hw : w < 2 ^ 64) : pte2pa (guarded w) = pte2pa w := by
  rw [pte2pa, pte2pa, guarded, Nat.shiftRight_and_distrib]
  congr 1
  rw [show (2 ^ 64 - 1 - PTE_U) >>> 10 = 2 ^ 54 - 1 by rfl, Nat.and_two_pow_sub_one_eq_mod,
    Nat.mod_eq_of_lt]
  rw [Nat.shiftRight_eq_div_pow]
  omega

theorem pteFlags_guarded (w : ℕ) : pteFlags (guarded w) = pteFlags w &&& 1007 := by
  rw [pteFlags, pteFlags, guarded, Nat.and_assoc, Nat.and_assoc]
  rfl

theorem guarded_and_user (w : ℕ) : guarded w &&& PTE_U = 0 := by
  rw [guarded, Nat.and_assoc]
  exact Nat.and_zero w

/-- An entry of a space is 64 bits wide. -/
theorem Holding.lt (h : Holding o s.mem r ptes f X hand) (hw : ptes[i]? = some w) : w < 2 ^ 64 := by
  rw [← (h.leaf i w hw).1]
  exact tword_lt ..

/-- **`uvmclear`** takes a page from the user. -/
theorem Holding.uvmclear_returns (h : Space o s.mem r ptes f X) (hh : Heap k o s)
    (hw : ptes[i]? = some w) (hflags : pteFlags w = userFlags) :
    Returns (uvmclear r (i * PGSIZE)) s fun _ s' =>
      Does k (Owner.inTable r) o o s s' ∧ Space o s'.mem r (ptes.set i (guarded w)) f X := by
  have hi : i < ptes.length := (List.getElem?_eq_some_iff.1 hw).1
  have hle := h.le hh
  have hdiv : i * PGSIZE / PGSIZE = i := Nat.mul_div_cancel _ (by decide)
  obtain ⟨hpte, hleaf⟩ := h.leaf i w hw
  have hvalid : pteAt s.mem r (i * PGSIZE / PGSIZE) &&& PTE_V ≠ 0 := by
    rw [hdiv, hpte]
    exact hleaf.1
  have hlook := look_of_valid hvalid
  obtain ⟨-, hn⟩ := look_eq_some hlook
  rw [hdiv] at hlook hn
  have hentry : entry s.mem (tnode s.mem r 2 (i / 512)) (i % 512) = w := by
    rw [← hpte, pteAt, tword_of_ne hn]
  rw [uvmclear]
  refine .bind ⟨_, _, walk_read h.table ?_, ?_⟩
  · simp only [npages, PHYSTOP, KERNBASE, MAXVA, PGSIZE] at hle ⊢
    omega
  simp only [hlook, getPte, Returns.gets_bind_iff, hentry]
  refine (modify_page (P := Owner.inTable r) hh (h.table.own le_rfl hn) (Owner.used_table ..) rfl
    fun q => q.writeLE (8 * (i % 512)) 8 (guarded w)).mono ?_
  rintro - s' ⟨hdo, hmem⟩
  obtain ⟨ht, hset⟩ := h.table.set hn (Nat.and_lt_two_pow w (by decide)) hmem
  have hpa := pte2pa_guarded (h.lt hw)
  have hleaf' : Leaf (guarded w) := by
    refine ⟨?_, ?_⟩
    · rw [← and_pteFlags rfl, pteFlags_guarded, hflags]
      decide
    · rw [pteFlags_guarded, hflags]
      decide
  have hget : ∀ {i' w'}, (ptes.set i (guarded w))[i']? = some w' →
      i' = i ∧ w' = guarded w ∨ i' ≠ i ∧ ptes[i']? = some w' := by
    intro i' w' hw'
    by_cases hii : i' = i
    · subst hii
      rw [getElem?_set_self hi] at hw'
      exact .inl ⟨rfl, (Option.some.inj hw').symm⟩
    · rw [getElem?_set_ne (Ne.symm hii)] at hw'
      exact .inr ⟨hii, hw'⟩
  refine ⟨hdo, ht, fun b i' => ?_, fun i' w' hw' => ?_, fun i' w' hw' j hj => ?_, fun i' hi' => ?_⟩
  · rw [h.user]
    by_cases hii : i' = i
    · subst hii
      rw [hw, getElem?_set_self hi, length_set]
      simp [hpa]
    · rw [getElem?_set_ne (Ne.symm hii), length_set]
  · rw [hset]
    rcases hget hw' with ⟨rfl, rfl⟩ | ⟨hii, hw'⟩
    · rw [update_self]
      exact ⟨rfl, hleaf'⟩
    · rw [update_of_ne hii]
      exact h.leaf i' w' hw'
  · have hout : ∀ n, ¬ Owner.inTable r (.user r n) := fun _ => id
    rcases hget hw' with ⟨rfl, rfl⟩ | ⟨hii, hw'⟩
    · rw [hpa, hdo.frame.mem_of_own (hout _) (h.own hw)]
      exact h.byte _ w hw j hj
    · rw [hdo.frame.mem_of_own (hout _) (h.own hw')]
      exact h.byte i' w' hw' j hj
  · rw [length_set] at hi'
    rw [hset, update_of_ne (by omega)]
    exact h.rest i' hi'

end Vm

end Xv6
