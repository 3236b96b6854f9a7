import Xv6.Fs.Write
/-!
# Room for a write

`balloc` stops only when every block is marked. A write needs a block for
each file block it touches that has none, and one for the indirect block
if it goes beyond the direct ones; if the free map has as many clear bits,
`bmap` finds a block at every step of the loop.
-/

namespace Xv6

open Common

namespace Fs

variable {sb : Superblock} {s₀ s t : Fs} {ip : Fin NINODE} {src : Source} {b k off n tot : ℕ}
  {e : Panic}

/-! ## When `balloc` stops -/

variable (sb) in
/-- The buffers `balloc` may ask for are not in use. -/
structure Unheld (s : Fs) : Prop where
  map : ∀ b, b < sb.size → s.held (sb.bblock b) = none
  free : ∀ b, b < sb.size → s.bit sb b = false → s.held b = none

variable (sb) in
/-- Every block is marked. -/
def Full (s : Fs) : Prop := ∀ b, b < sb.size → s.bit sb b = true

theorem Idle.unheld (h : s.Idle) : Unheld sb s := ⟨fun _ _ => h _, fun _ _ _ => h _⟩

theorem clearBit_eq_none {blk : Block} (h : clearBit sb blk b = none) {bi : ℕ} (hbi : bi < BPB)
    (hlt : b + bi < sb.size) : blk.testBit bi = true := by
  unfold clearBit at h
  have := List.find?_eq_none.1 h bi (List.mem_range.2 hbi)
  simpa [hlt] using this

theorem ballocFrom_full {b₀ : ℕ} (hu : Unheld sb s) (hb₀ : b₀ % BPB = 0)
    (hk : b₀ + k * BPB < sb.size + BPB) (h : ballocFrom sb k b₀ s = .error e) (hle : b₀ ≤ b)
    (hlt : b < b₀ + k * BPB) (hb : b < sb.size) : s.bit sb b = true := by
  induction k generalizing b₀ s with
  | zero => omega
  | succ k ih =>
    have hfirst : b₀ < sb.size := by
      simp only [BPB, BSIZE] at *
      omega
    have hheld := hu.map b₀ hfirst
    rw [ballocFrom_succ, if_neg (by simp [hheld])] at h
    split at h
    · -- a block is found, and its buffer is not in use
      rename_i bi hfind
      obtain ⟨hbi, hlt', hclear⟩ := clearBit_eq_some hfind
      obtain ⟨hblock, hmod⟩ := bblock_add sb hb₀ hbi
      have hfree : s.held (b₀ + bi) = none := hu.free _ hlt' (by rw [bit, hblock, hmod, hclear])
      rw [if_neg (by simp [hfree])] at h
      cases h
    · rename_i hfind
      by_cases hin : b < b₀ + BPB
      · obtain ⟨hblock, hmod⟩ := bblock_add sb hb₀ (by omega : b - b₀ < BPB)
        rw [Nat.add_sub_cancel' hle] at hblock hmod
        rw [bit, hblock, hmod]
        exact clearBit_eq_none hfind (by omega) (by omega)
      · have hu' : Unheld sb (s.peek (sb.bblock b₀)) := ⟨hu.map, hu.free⟩
        change (s.peek (sb.bblock b₀)).bit sb b = true
        refine ih hu' (?_ : (b₀ + BPB) % BPB = 0) ?_ h ?_ ?_
        · simp only [BPB, BSIZE] at *
          omega
        · simp only [BPB, BSIZE] at *
          omega
        · omega
        · simp only [BPB, BSIZE] at *
          omega

/-- **`balloc` stops only when every block is marked.** -/
theorem balloc_full (hu : Unheld sb s) (h : balloc sb s = .error e) : Full sb s := by
  intro b hb
  refine ballocFrom_full hu (Nat.zero_mod _) ?_ h (Nat.zero_le b) ?_ hb
  · simp only [BPB, BSIZE]
    omega
  · simp only [BPB, BSIZE]
    omega

/-! ## When `bmap` stops -/

theorem addrAlloc_full {i : ℕ} (hidle : s.Idle) (h : addrAlloc sb ip i s = .error e) :
    (s.inode ip).addrs i = 0 ∧ Full sb s :=
  (addrAlloc_error h).imp_right (balloc_full hidle.unheld)

theorem entryAlloc_full (hsb : sb.Ok) (hP : Books sb s (s.places sb ip)) (hidle : s.Idle)
    (hind : (s.inode ip).addrs NDIRECT ≠ 0) (hk : k < NINDIRECT)
    (h : entryAlloc sb ((s.inode ip).addrs NDIRECT) k s = .error e) :
    s.places sb ip ((s.inode ip).inum, NDIRECT + 1 + k) = 0 ∧ Full sb s := by
  have hpind := places_indirect sb s ip
  have hrange := (hP.range _ (by rwa [hpind])).1
  have hused := hP.used_of_held (by rwa [hpind])
  rw [hpind] at hrange hused
  rcases entryAlloc_error h with hread | ⟨h0, hb⟩
  · rw [bread_run (hidle _)] at hread
    cases hread
  refine ⟨?_, ?_⟩
  · rw [places, placeWith_self (by simp only [NSLOT, MAXFILE]; omega), slot_entry hind, h0]
  -- the indirect block, in use meanwhile, is neither in the map nor free
  refine fun b hlt => balloc_full (s := s.take _) ⟨fun c hc => ?_, fun c hc hbit => ?_⟩ hb b hlt
  · have := hsb.bitmap c hc
    exact (Function.update_of_ne (by omega) ..).trans (hidle _)
  · refine (Function.update_of_ne ?_ ..).trans (hidle _)
    rintro rfl
    rw [show s.bit sb _ = false from hbit] at hused
    cases hused

/-- **`bmap` stops only where a place on the way to the block is empty and
every block is marked.** -/
theorem bmap_full {bn : ℕ} (hsb : sb.Ok) (hP : Books sb s (s.places sb ip)) (hidle : s.Idle)
    (hbn : bn < MAXFILE) (h : bmap sb ip bn s = .error e) :
    ∃ t i, Grows sb s t ip ∧ Full sb t ∧ Leads bn i ∧ t.places sb ip ((s.inode ip).inum, i) = 0 ∧
      ∀ x, t.places sb ip x ≠ s.places sb ip x → x.1 = (s.inode ip).inum ∧ Leads bn x.2 := by
  unfold bmap at h
  split at h
  · rename_i h1
    obtain ⟨h0, hfull⟩ := addrAlloc_full hidle h
    refine ⟨s, bn, Grows.refl hP, hfull, .inl (if_pos h1).symm, ?_, fun x hx => absurd rfl hx⟩
    rw [places, placeWith_self (by simp only [NSLOT]; omega), slot_of_le (Nat.le_of_lt h1), h0]
  · rename_i h1
    have hslot : slotOf bn = NDIRECT + 1 + (bn - NDIRECT) := by
      rw [slotOf, if_neg h1]
      omega
    split at h
    · rename_i h2
      rcases Prog.bind_error h with hind | ⟨ind, t, hind, h⟩
      · obtain ⟨h0, hfull⟩ := addrAlloc_full hidle hind
        refine ⟨s, NDIRECT, Grows.refl hP, hfull, .inr ⟨rfl, by omega⟩, ?_,
          fun x hx => absurd rfl hx⟩
        rw [places_indirect, h0]
      · obtain ⟨hg, hind0, haddr, hother⟩ := addrAlloc_ok hsb hP le_rfl hind
        rw [← haddr] at h hind0
        have hidle' : t.Idle := fun b => by
          rw [hg.held]
          exact hidle b
        obtain ⟨h0, hfull⟩ := entryAlloc_full hsb hg.books hidle' hind0 h2 h
        rw [← hslot, hg.inum_eq] at h0
        refine ⟨t, slotOf bn, hg, hfull, .inl rfl, h0, fun x hx => ?_⟩
        by_contra hc
        refine hx (hother x ?_)
        rintro rfl
        exact hc ⟨rfl, .inr ⟨rfl, by omega⟩⟩
    · simp only [MAXFILE] at hbn
      omega

/-! ## Enough free blocks -/

variable (sb) in
/-- The blocks the free map has as free. -/
def freeBlocks (s : Fs) : Finset ℕ := (Finset.range sb.size).filter fun b => s.bit sb b = false

/-- The file blocks that a write of `n` bytes at `off` touches. -/
def touched (off n : ℕ) : Finset ℕ :=
  (Finset.range MAXFILE).filter fun k => off < (k + 1) * BSIZE ∧ k * BSIZE < off + n

/-- The places on the way to them. -/
def placesFor (off n : ℕ) : Finset ℕ :=
  (touched off n).image slotOf ∪
    if ∃ k ∈ touched off n, NDIRECT ≤ k then {NDIRECT} else ∅

variable (sb) in
/-- The places a write needs a block for. -/
def needed (s : Fs) (ip : Fin NINODE) (off n : ℕ) : Finset ℕ :=
  (placesFor off n).filter fun i => s.places sb ip ((s.inode ip).inum, i) = 0

variable (sb) in
/-- **Enough free blocks** for a write. -/
def Room (s : Fs) (ip : Fin NINODE) (off n : ℕ) : Prop :=
  (s.needed sb ip off n).card ≤ (s.freeBlocks sb).card

theorem mem_placesFor {i : ℕ} (hk : k ∈ touched off n) (h : Leads k i) : i ∈ placesFor off n := by
  unfold placesFor
  rcases h with rfl | ⟨rfl, hle⟩
  · exact Finset.mem_union_left _ (Finset.mem_image_of_mem _ hk)
  · exact Finset.mem_union_right _ (by rw [if_pos ⟨k, hk, hle⟩]; exact Finset.mem_singleton_self _)

theorem mem_touched (hmax : off + n ≤ MAXFILE * BSIZE) (h1 : off / BSIZE ≤ k)
    (h2 : k * BSIZE < off + n) : k ∈ touched off n := by
  simp only [touched, Finset.mem_filter, Finset.mem_range, MAXFILE, NDIRECT, NINDIRECT, BSIZE] at *
  omega

/-- **With room for it, a write gets every block it asks for.** -/
theorem Writing.bmap_ne_error (h : Writing sb s₀ s ip src off tot) (hsb : sb.Ok)
    (hP : Books sb s₀ (s₀.places sb ip)) (hidle : s₀.Idle) (hroom : s₀.Room sb ip off n)
    (hmax : off + n ≤ MAXFILE * BSIZE) (htot : tot < n) :
    bmap sb ip ((off + tot) / BSIZE) s ≠ .error e := by
  intro he
  have hdiv := Nat.div_mul_le_self (off + tot) BSIZE
  have hthis : (off + tot) / BSIZE ∈ touched off n :=
    mem_touched hmax (Nat.div_le_div_right (by omega)) (by omega)
  have hidle' : s.Idle := fun b => by
    rw [h.works.held]
    exact hidle b
  obtain ⟨t, i, hg, hfull, hlead, h0, hfill⟩ := bmap_full hsb h.works.books hidle'
    (Finset.mem_range.1 (Finset.mem_filter.1 hthis).1) he
  have hinum := h.works.inum_eq
  rw [hinum] at h0 hfill
  have howned : ∀ x, s₀.places sb ip x ≠ 0 → t.places sb ip x = s₀.places sb ip x := by
    intro x hx
    have hs := h.owned x hx
    rw [hg.owned x (by rwa [hs]), hs]
  -- what has been filled is needed
  have hneed : ∀ x, s₀.places sb ip x = 0 → t.places sb ip x ≠ 0 →
      x ∈ (s₀.needed sb ip off n).map ⟨fun i => ((s₀.inode ip).inum, i), Prod.mk_right_injective _⟩ := by
    intro x hx0 hx1
    have hplace : x.1 = (s₀.inode ip).inum ∧ x.2 ∈ placesFor off n := by
      by_cases hx : t.places sb ip x = s.places sb ip x
      · obtain ⟨hi, k, hk1, hk2, hk3⟩ := h.fills x hx0 (hx ▸ hx1)
        exact ⟨hi, mem_placesFor (mem_touched hmax hk1 (by omega)) hk3⟩
      · obtain ⟨hi, hk⟩ := hfill x hx
        exact ⟨hi, mem_placesFor hthis hk⟩
    obtain ⟨x1, x2⟩ := x
    obtain ⟨rfl, hx2⟩ := hplace
    exact Finset.mem_map.2 ⟨x2, Finset.mem_filter.2 ⟨hx2, hx0⟩, rfl⟩
  have hmiss : s₀.places sb ip ((s₀.inode ip).inum, i) = 0 := by
    by_contra hne
    exact hne (by rw [← howned _ hne, h0])
  obtain ⟨b, hb, hnot⟩ := hP.exists_free hg.books howned _ hneed (s₀.freeBlocks sb)
    (fun b hb => by
      obtain ⟨h1, h2⟩ := Finset.mem_filter.1 hb
      exact ⟨Finset.mem_range.1 h1, by rw [h2]; decide⟩)
    (by rw [Finset.card_map]; exact hroom)
    (Finset.mem_map.2 ⟨i, Finset.mem_filter.2 ⟨mem_placesFor hthis hlead, hmiss⟩, rfl⟩) h0
  exact hnot (hfull b hb)

end Fs

end Xv6
