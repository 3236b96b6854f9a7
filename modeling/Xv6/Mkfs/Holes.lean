import Xv6.Fs.Dir
import Xv6.Mkfs.Main
/-!
# Holes

Every file of the image has a block for each block below its size, and
reading it allocates nothing. The root directory is the exception: where
its entries fill their blocks, rounding gives it one block more than it
has.
-/

namespace Xv6

open Common

namespace Mkfs

open Fs (slot slotOf)

variable {t : State} {A : ℕ → ℕ → ℕ} {files : List Input} {f : Input} {j k : ℕ}

/-! ## Blocks below the size -/

/-- **No holes**: every file block below the size has an address. -/
structure NoHoles (d : Disk) (din : Dinode) : Prop where
  size_le : din.size ≤ MAXFILE * BSIZE
  block : ∀ k, k < (din.size + (BSIZE - 1)) / BSIZE → slot d din.addrs (slotOf k) ≠ 0

namespace Built

theorem slot_eq (h : Built files A t) (hj : j < NDINODE) (hk : k < MAXFILE) :
    slot t.img (Fs.dinode sb t.img j).addrs (slotOf k) = refs t.img A (j, slotOf k) := by
  rw [refs_of_lt (Fs.slotOf_lt hk)]
  exact Fs.slot_congr (h.inode j hj).addrs (fun _ => rfl) _

/-- A file has the blocks below its length, and no others. -/
theorem slot_ne_zero (h : Built files A t) (hj : j < NDINODE) (hk : k < MAXFILE) :
    slot t.img (Fs.dinode sb t.img j).addrs (slotOf k) ≠ 0 ↔
      k * BSIZE < (contents files j).length := by
  rw [h.slot_eq hj hk, (h.file j).block k hk]

theorem size_root (h : Built files A t) :
    (Fs.dinode sb t.img ROOTINO).size = (16 * (files.length + 2) / BSIZE + 1) * BSIZE := by
  rw [(h.inode ROOTINO (by decide)).size]
  change sizes files ROOTINO = _
  rw [sizes, if_pos rfl, length_rootBytes]

theorem size_of_ne (h : Built files A t) (hj : j < NDINODE) (hne : j ≠ ROOTINO) :
    (Fs.dinode sb t.img j).size = (contents files j).length := by
  rw [(h.inode j hj).size]
  change sizes files j = _
  rw [sizes, if_neg hne]

theorem length_root : (contents files ROOTINO).length = 16 * (files.length + 2) := by
  rw [contents, if_pos rfl, length_rootBytes]

/-- **Whether the root directory has a hole** is a matter of how many
files there are. -/
theorem noHoles (h : Built files A t) (hlen : files.length + 1 < NDINODE)
    (hmod : (files.length + 2) % (BSIZE / 16) ≠ 0) (hj : j < NDINODE) :
    NoHoles t.img (Fs.dinode sb t.img j) := by
  have hmax := (h.file j).length_le
  by_cases hjr : j = ROOTINO
  · subst hjr
    have hsize := h.size_root
    rw [length_root] at hmax
    refine ⟨?_, fun k hk => (h.slot_ne_zero hj ?_).2 ?_⟩
    · rw [hsize]
      simp only [NDINODE, ninodeblocks, NINODES, IPB, BSIZE, MAXFILE, NDIRECT, NINDIRECT] at *
      omega
    · rw [hsize] at hk
      simp only [NDINODE, ninodeblocks, NINODES, IPB, BSIZE, MAXFILE, NDIRECT, NINDIRECT] at *
      omega
    · rw [hsize] at hk
      rw [length_root]
      simp only [BSIZE] at *
      omega
  · have hsize := h.size_of_ne hj hjr
    refine ⟨hsize ▸ hmax, fun k hk => (h.slot_ne_zero hj ?_).2 ?_⟩
    · rw [hsize] at hk
      simp only [BSIZE, MAXFILE, NDIRECT, NINDIRECT] at *
      omega
    · rw [hsize] at hk
      simp only [BSIZE] at *
      omega

/-- Where the entries fill their blocks, the block after them is below the
size of the root directory. -/
theorem lt_of_mod (h : Built files A t) (hmod : (files.length + 2) % (BSIZE / 16) = 0) :
    (files.length + 2) / (BSIZE / 16) <
      ((Fs.dinode sb t.img ROOTINO).size + (BSIZE - 1)) / BSIZE := by
  rw [h.size_root]
  simp only [BSIZE] at *
  omega

/-- And it has no address. -/
theorem slot_of_mod (h : Built files A t) (hlen : files.length + 1 < NDINODE)
    (hmod : (files.length + 2) % (BSIZE / 16) = 0) :
    slot t.img (Fs.dinode sb t.img ROOTINO).addrs (slotOf ((files.length + 2) / (BSIZE / 16))) =
      0 := by
  by_contra hne
  have hmax : (files.length + 2) / (BSIZE / 16) < MAXFILE := by
    simp only [NDINODE, ninodeblocks, NINODES, IPB, BSIZE, MAXFILE, NDIRECT, NINDIRECT] at *
    omega
  have hlt := (h.slot_ne_zero (by decide) hmax).1 hne
  rw [length_root] at hlt
  simp only [BSIZE] at *
  omega

/-- There `bmap` allocates. -/
theorem bmap_of_mod (h : Built files A t) (hlen : files.length + 1 < NDINODE)
    (hmod : (files.length + 2) % (BSIZE / 16) = 0) {s : Fs} {ip : Fin NINODE}
    (hdata : s.data = t.img) (hl : s.Loaded sb ip ROOTINO) :
    Fs.bmap sb ip ((files.length + 2) / (BSIZE / 16)) s = (do
      let addr ← Fs.balloc sb
      Fs.setAddr ip ((files.length + 2) / (BSIZE / 16)) addr
      return addr) s := by
  have hdirect : (files.length + 2) / (BSIZE / 16) < NDIRECT := by
    simp only [NDINODE, ninodeblocks, NINODES, IPB, BSIZE, NDIRECT] at *
    omega
  have hslot := h.slot_of_mod hlen hmod
  rw [show slotOf ((files.length + 2) / (BSIZE / 16)) = (files.length + 2) / (BSIZE / 16) from
    if_pos hdirect, Fs.slot_of_le hdirect.le] at hslot
  have haddr : (s.inode ip).addrs ((files.length + 2) / (BSIZE / 16)) = 0 := by
    rw [hl.same.addrs _ hdirect.le, hdata, hslot]
  rw [Fs.bmap, if_pos hdirect, Fs.addrAlloc, Fs.getInode, Prog.gets_bind, if_pos haddr]

end Built

/-- Reading a file with no holes leaves the file system as it is. -/
theorem NoHoles.readi {s : Fs} {ip : Fin NINODE} {inum off n : ℕ}
    (h : NoHoles s.data (Fs.dinode sb s.data inum)) (hl : s.Loaded sb ip inum) (hn : n < 2 ^ 32) :
    Returns (Fs.readi sb ip off n) s fun _ u => Fs.Peeked s u := by
  refine (hl.readi hn h.size_le fun k hk => h.block k ?_).mono fun _ _ hu => hu.2
  simp only [BSIZE] at *
  omega

/-- **A finished image has no holes** exactly if its root directory does not
end with a block. Then reading it allocates nothing; else `bmap` allocates
for the block after the entries. The inodes are all in their blocks: that
of one file more would be in the block of the bitmap. -/
theorem mkfs_no_holes (hlen : files.length + 1 < NDINODE)
    (hrun : main files State.init = .ok ((), t)) :
    ((∀ inum, inum < NDINODE → (Fs.dinode sb t.img inum).type ≠ 0 →
      NoHoles t.img (Fs.dinode sb t.img inum)) ↔ (files.length + 2) % (BSIZE / 16) ≠ 0) ∧
    ((files.length + 2) % (BSIZE / 16) ≠ 0 →
      ∀ (s : Fs) (ip : Fin NINODE) (inum : ℕ), s.data = t.img → inum < NDINODE →
        (Fs.dinode sb t.img inum).type ≠ 0 → s.Loaded sb ip inum →
        ∀ off n, n < 2 ^ 32 → Returns (Fs.readi sb ip off n) s fun _ u => Fs.Peeked s u) ∧
    ((files.length + 2) % (BSIZE / 16) = 0 →
      (files.length + 2) / (BSIZE / 16) * BSIZE < (Fs.dinode sb t.img ROOTINO).size ∧
      ∀ (s : Fs) (ip : Fin NINODE), s.data = t.img → s.Loaded sb ip ROOTINO →
        Fs.bmap sb ip ((files.length + 2) / (BSIZE / 16)) s = (do
          let addr ← Fs.balloc sb
          Fs.setAddr ip ((files.length + 2) / (BSIZE / 16)) addr
          return addr) s) := by
  obtain ⟨A, hb⟩ := (main_built (E := fun _ => True) hlen fun _ _ => trivial).ok rfl hrun
  refine ⟨⟨fun hall hmod => ?_, fun hmod inum hi _ => hb.noHoles hlen hmod hi⟩, ?_, ?_⟩
  · have htype : (Fs.dinode sb t.img ROOTINO).type ≠ 0 := by
      rw [show (Fs.dinode sb t.img ROOTINO).type = T_DIR from
        (hb.inode ROOTINO (by decide)).type]
      decide
    exact (hall ROOTINO (by decide) htype).block _ (hb.lt_of_mod hmod) (hb.slot_of_mod hlen hmod)
  · intro hmod s ip inum hdata hi _ hl off n hn
    refine NoHoles.readi ?_ hl hn
    rw [hdata]
    exact hb.noHoles hlen hmod hi
  · intro hmod
    refine ⟨?_, fun s ip hdata hl => hb.bmap_of_mod hlen hmod hdata hl⟩
    have hlt := hb.lt_of_mod hmod
    simp only [BSIZE] at *
    omega

/-- An empty file. -/
def empty : Input where
  name := [0x66]
  opens := true
  reads := []
  name_ne := by decide
  reads_ok := by decide

theorem fits_replicate_empty {n : ℕ} (hn : n ≤ 62) : Fits (List.replicate n empty) := by
  have hmem : ∀ f ∈ List.replicate n empty, f = empty := fun f hf => (List.mem_replicate.1 hf).2
  refine ⟨fun f hf => ?_, fun f hf => ?_, fun f hf => ?_, ?_⟩
  · rw [hmem f hf]
    decide
  · rw [hmem f hf]
    rfl
  · rw [hmem f hf]
    decide
  · have hsum : ((List.replicate n empty).map fun f => nblk f.content.length).sum = 0 := by
      rw [List.map_replicate, List.sum_replicate_nat]
      exact Nat.mul_zero n
    have hroot : nblk (rootBytes (List.replicate n empty)).length ≤ nblk 1024 := by
      refine nblk_mono ?_
      rw [length_rootBytes, List.length_replicate]
      omega
    rw [blocks, hsum]
    exact (Nat.add_le_add_left hroot _).trans (by decide)

/-- A file of thirteen blocks, the last of them behind the indirect block. -/
def large : Input where
  name := [0x67]
  opens := true
  reads := List.replicate 13 (List.replicate BSIZE 7)
  name_ne := by decide
  reads_ok l hl := by
    obtain rfl := (List.mem_replicate.1 hl).2
    exact ⟨List.replicate_succ_ne_nil, (List.length_replicate ..).le⟩

theorem length_large : large.content.length = 13 * BSIZE := by
  rw [Input.content, large, List.length_flatten, List.map_replicate, List.sum_replicate_nat,
    List.length_replicate]

theorem fits_large : Fits [large, large] := by
  have hmem : ∀ f ∈ [large, large], f = large := fun f hf => by simpa using hf
  refine ⟨fun f hf => ?_, fun f hf => ?_, fun f hf => ?_, ?_⟩
  · rw [hmem f hf]
    decide
  · rw [hmem f hf]
    rfl
  · rw [hmem f hf, length_large]
    decide
  · rw [blocks, length_rootBytes]
    simp only [List.map_cons, List.map_nil, length_large]
    decide

/-- With two files of which each has an indirect block. -/
theorem mkfs_no_holes_large : ∃ t, main [large, large] State.init = .ok ((), t) ∧
    ∀ inum, inum < NDINODE → (Fs.dinode sb t.img inum).type ≠ 0 →
      NoHoles t.img (Fs.dinode sb t.img inum) := by
  have hlen : [large, large].length + 1 < NDINODE := by decide
  obtain ⟨⟨⟩, t, hrun, -⟩ := (main_built (E := fun _ => False) hlen fun h =>
    absurd fits_large h).returns rfl fun _ => id
  exact ⟨t, hrun, (mkfs_no_holes hlen hrun).1.2 (by decide)⟩

/-- **With 62 files the root directory has a hole**: its 64 entries fill
one block, its size says two. When the second is read, `bmap` allocates. -/
theorem root_hole : ∃ files t, main files State.init = .ok ((), t) ∧
    (Fs.dinode sb t.img ROOTINO).type = T_DIR ∧ (Fs.dinode sb t.img ROOTINO).size = 2 * BSIZE ∧
    slot t.img (Fs.dinode sb t.img ROOTINO).addrs (slotOf 1) = 0 ∧
    ∀ (s : Fs) (ip : Fin NINODE), s.data = t.img → s.Loaded sb ip ROOTINO →
      Fs.bmap sb ip 1 s =
        (do let addr ← Fs.balloc sb; Fs.setAddr ip 1 addr; return addr) s := by
  have hlen : (List.replicate 62 empty).length + 1 < NDINODE := by decide
  obtain ⟨⟨⟩, t, hrun, A, hb⟩ := (main_built (E := fun _ => False) hlen fun h =>
    absurd (fits_replicate_empty le_rfl) h).returns rfl fun _ => id
  have hmod : ((List.replicate 62 empty).length + 2) % (BSIZE / 16) = 0 := by decide
  refine ⟨_, t, hrun, (hb.inode ROOTINO (by decide)).type, ?_, hb.slot_of_mod hlen hmod,
    fun s ip => hb.bmap_of_mod hlen hmod⟩
  rw [hb.size_root, List.length_replicate]
  decide

end Mkfs

end Xv6
