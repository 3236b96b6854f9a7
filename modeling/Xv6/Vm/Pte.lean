import Xv6.Common.Radix
import Xv6.Vm.Model
/-!
# Page-table entries and the tree they make

An entry is an address and ten flag bits. Read as a radix tree, a page
table has nodes of three depths, and its words of the last depth are the
entries for the pages of the address space, by page number.
-/

namespace Xv6

open Common

variable {pa f w m va : ℕ}

theorem pte2pa_eq (w : ℕ) : pte2pa w = w / 1024 * 4096 := by
  rw [pte2pa, Nat.shiftLeft_eq, Nat.shiftRight_eq_div_pow]

theorem pteFlags_eq (w : ℕ) : pteFlags w = w % 1024 := Nat.and_two_pow_sub_one_eq_mod w 10

theorem pa2pte_or (hf : f < 1024) : pa2pte pa ||| f = pa / 4096 * 1024 + f := by
  rw [pa2pte, ← Nat.shiftLeft_add_eq_or_of_lt hf, Nat.shiftLeft_eq, Nat.shiftRight_eq_div_pow]

theorem pte2pa_or (hpa : pa % PGSIZE = 0) (hf : f < 1024) : pte2pa (pa2pte pa ||| f) = pa := by
  rw [pte2pa_eq, pa2pte_or hf]
  simp only [PGSIZE] at hpa
  omega

theorem pteFlags_or (hf : f < 1024) : pteFlags (pa2pte pa ||| f) = f := by
  rw [pteFlags_eq, pa2pte_or hf]
  omega

theorem pa2pte_or_lt (hpa : pa < 2 ^ 56) (hf : f < 1024) : pa2pte pa ||| f < 2 ^ 64 := by
  rw [pa2pte_or hf]
  omega

/-- The flags of an entry are in its low bits. -/
theorem and_pteFlags (hm : 0x3FF &&& m = m) : pteFlags w &&& m = w &&& m := by
  rw [pteFlags, Nat.and_assoc, hm]

theorem pte2pa_mod (w : ℕ) : pte2pa w % PGSIZE = 0 := by
  rw [pte2pa_eq]
  exact Nat.mul_mod_left ..

namespace Vm

/-- The page table page an entry leads to, zero for none. -/
def child (w : ℕ) : ℕ := if w &&& PTE_V ≠ 0 then pte2pa w else 0

theorem child_zero : child 0 = 0 := by simp [child]

theorem child_of_valid (h : w &&& PTE_V ≠ 0) : child w = pte2pa w := if_pos h

theorem child_of_invalid (h : w &&& PTE_V = 0) : child w = 0 := if_neg (not_not.2 h)

variable {mem mem' : ℕ → Page} {r d i b : ℕ}

/-- The page at a place in the tree with root `r`. -/
def tnode (mem : ℕ → Page) (r d i : ℕ) : ℕ := Radix.node 512 child (entry mem) r d i

/-- The entry at a place in the tree. -/
def tword (mem : ℕ → Page) (r d i : ℕ) : ℕ := Radix.word 512 child (entry mem) r d i

/-- The entry for the page numbered `i`. -/
def pteAt (mem : ℕ → Page) (r i : ℕ) : ℕ := tword mem r 2 i

theorem tnode_succ : tnode mem r (d + 1) i = child (tword mem r d i) :=
  Radix.node_succ child_zero d i

theorem tword_of_ne (h : tnode mem r d (i / 512) ≠ 0) :
    tword mem r d i = entry mem (tnode mem r d (i / 512)) (i % 512) := Radix.word_of_ne h

theorem tword_of_eq (h : tnode mem r d (i / 512) = 0) : tword mem r d i = 0 := Radix.word_of_eq h

/-- Past the root there is nothing. -/
theorem tnode_zero_of_ne (h : i ≠ 0) : tnode mem r 0 i = 0 := if_neg h

/-- Entries are eight bytes. -/
theorem entry_lt (mem : ℕ → Page) (b i : ℕ) : entry mem b i < 2 ^ 64 := Bytes.readLE_lt ..

theorem tword_lt (mem : ℕ → Page) (r d i : ℕ) : tword mem r d i < 2 ^ 64 := by
  rw [tword, Radix.word]
  split
  · exact Nat.two_pow_pos 64
  · exact entry_lt ..

theorem entry_congr (h : mem' b = mem b) (i : ℕ) : entry mem' b i = entry mem b i := by
  rw [entry, entry, h]

theorem entry_zero (h : mem b = fun _ => 0) (i : ℕ) : entry mem b i = 0 := by
  rw [entry, h, Bytes.readLE_zero]

theorem entry_written (hm : mem' b = (mem b).writeLE (8 * i) 8 w) (hi : i < 512)
    (hw : w < 2 ^ 64) : entry mem' b i = w := by
  rw [entry, hm, Bytes.readLE_writeLE (by simp only [PGSIZE]; omega)]
  exact Nat.mod_eq_of_lt hw

/-- Writing an entry leaves the others of the page alone. -/
theorem entry_written_of_ne {j : ℕ} (hm : mem' b = (mem b).writeLE (8 * i) 8 w) (h : j ≠ i) :
    entry mem' b j = entry mem b j := by
  rw [entry, hm, Bytes.readLE_writeLE_of_disjoint (by omega), entry]

/-! ## Virtual addresses -/

/-- The index at a level of the entry for `va`. -/
def vidx (level va : ℕ) : ℕ := va / 2 ^ (12 + 9 * level)

theorem px_eq (level va : ℕ) : px level va = vidx level va % 512 := by
  rw [px, vidx, Nat.shiftRight_eq_div_pow]
  exact Nat.and_two_pow_sub_one_eq_mod _ 9

theorem vidx_succ (level va : ℕ) : vidx (level + 1) va = vidx level va / 512 := by
  rw [vidx, vidx, Nat.div_div_eq_div_mul, show 12 + 9 * (level + 1) = 12 + 9 * level + 9 by omega,
    Nat.pow_add]

theorem vidx_zero (va : ℕ) : vidx 0 va = va / PGSIZE := rfl

theorem vidx_three (h : va < 2 ^ 39) : vidx 3 va = 0 := Nat.div_eq_of_lt h

/-- What `walk` finds without allocating. -/
def look (mem : ℕ → Page) (r va : ℕ) : Option (ℕ × ℕ) :=
  if tnode mem r 2 (va / PGSIZE / 512) = 0 then none
  else some (tnode mem r 2 (va / PGSIZE / 512), va / PGSIZE % 512)

/-- Under a place without a page there is none. -/
theorem tnode_eq_zero {level : ℕ} (hd : d + level = 2)
    (h : tnode mem r d (vidx (level + 1) va) = 0) : tnode mem r 2 (va / PGSIZE / 512) = 0 := by
  induction level generalizing d with
  | zero =>
    obtain rfl : d = 2 := by omega
    rwa [vidx_succ, vidx_zero] at h
  | succ level ih =>
    refine ih (d := d + 1) (by omega) ?_
    rw [vidx_succ] at h
    rw [tnode_succ, tword_of_eq h, child_zero]

end Vm

end Xv6
