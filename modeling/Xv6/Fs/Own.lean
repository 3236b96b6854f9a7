import Xv6.Common.Ledger
import Xv6.Fs.Block
/-!
# Who owns a block

An inode has `NDIRECT` places for data blocks, one for the indirect block,
and `NINDIRECT` in that. `place` reads them off the disk, for allocated
inodes; while a function works on a cached inode, that inode's places are
read off the cache entry instead. The free map and the places form a
ledger, which `balloc`, `bfree` and the writes of `fs.c` keep.
-/

namespace Xv6

open Common Function

/-- The image is laid out as `mkfs` does it: inodes, then the free map,
then data. Block numbers are `int`s. -/
structure Superblock.Ok (sb : Superblock) : Prop where
  inodes : ∀ inum, inum < sb.ninodes → sb.iblock inum < sb.bmapstart
  bitmap : ∀ b, b < sb.size → sb.bblock b < sb.nmeta
  start : sb.bmapstart < sb.nmeta
  size : sb.size ≤ 2 ^ 31

namespace Dinode

variable {d : Dinode} {blk : Block} {inum inum' : ℕ}

/-- The same inode, as far as the disk goes. -/
structure Same (d e : Dinode) : Prop where
  type : d.type = e.type
  major : d.major = e.major
  minor : d.minor = e.minor
  nlink : d.nlink = e.nlink
  size : d.size = e.size
  addrs : ∀ i, i ≤ NDIRECT → d.addrs i = e.addrs i

theorem Same.refl (d : Dinode) : d.Same d := ⟨rfl, rfl, rfl, rfl, rfl, fun _ _ => rfl⟩

theorem Same.symm {e : Dinode} (h : d.Same e) : e.Same d :=
  ⟨h.type.symm, h.major.symm, h.minor.symm, h.nlink.symm, h.size.symm,
    fun i hi => (h.addrs i hi).symm⟩

theorem Same.trans {e f : Dinode} (h : d.Same e) (h' : e.Same f) : d.Same f :=
  ⟨h.type.trans h'.type, h.major.trans h'.major, h.minor.trans h'.minor, h.nlink.trans h'.nlink,
    h.size.trans h'.size, fun i hi => (h.addrs i hi).trans (h'.addrs i hi)⟩

/-- The fields fit their widths. -/
structure Fits (d : Dinode) : Prop where
  type : d.type < 2 ^ 16
  major : d.major < 2 ^ 16
  minor : d.minor < 2 ^ 16
  nlink : d.nlink < 2 ^ 16
  size : d.size < 2 ^ 32
  addrs : ∀ i, i ≤ NDIRECT → d.addrs i < 2 ^ 32

theorem fits_load (blk : Block) (off : ℕ) : (load blk off).Fits :=
  ⟨Bytes.readLE_lt .., Bytes.readLE_lt .., Bytes.readLE_lt .., Bytes.readLE_lt ..,
    Bytes.readLE_lt .., fun _ _ => Bytes.readLE_lt ..⟩

theorem fits_fresh {type : ℕ} (h : type < 2 ^ 16) : (fresh type).Fits :=
  ⟨h, Nat.two_pow_pos 16, Nat.two_pow_pos 16, Nat.two_pow_pos 16, Nat.two_pow_pos 32,
    fun _ _ => Nat.two_pow_pos 32⟩

theorem Same.fits {e : Dinode} (h : d.Same e) (he : e.Fits) : d.Fits :=
  ⟨h.type ▸ he.type, h.major ▸ he.major, h.minor ▸ he.minor, h.nlink ▸ he.nlink, h.size ▸ he.size,
    fun i hi => h.addrs i hi ▸ he.addrs i hi⟩

/-- What is stored outside an inode leaves it alone. -/
theorem readLE_store_of_disjoint {off off' w : ℕ} (h : off' + w ≤ off ∨ off + 64 ≤ off') :
    (d.store blk off).readLE off' w = blk.readLE off' w := by
  unfold store
  rw [Bytes.readLE_writeWords_of_disjoint (by simp only [NDIRECT]; omega)]
  simp (disch := omega) only [Bytes.readLE_writeLE_of_disjoint]

theorem off_add_le (inum : ℕ) : off inum + 64 ≤ BSIZE := by
  simp only [off, IPB, BSIZE]
  omega

/-- **An inode stored is the inode loaded.** -/
theorem load_store (h : d.Fits) {off : ℕ} (hoff : off + 64 ≤ BSIZE) :
    (load (d.store blk off) off).Same d := by
  have h1 := h.type
  have h2 := h.major
  have h3 := h.minor
  have h4 := h.nlink
  have h5 := h.size
  unfold load store
  -- a field is read past the ones written after it
  refine ⟨?_, ?_, ?_, ?_, ?_, fun i hi => ?_⟩ <;>
    simp (disch := omega) only [Bytes.readLE_writeWords_of_disjoint,
      Bytes.readLE_writeLE_of_disjoint, Bytes.readLE_writeLE]
  · omega
  · omega
  · omega
  · omega
  · omega
  · have h6 := h.addrs i hi
    rw [Bytes.readLE_writeWords (by simp only [NDIRECT]; omega) (by omega)]
    omega

/-- Storing one inode leaves the others of its block alone. -/
theorem load_store_of_ne (h : inum % IPB ≠ inum' % IPB) :
    (load (d.store blk (off inum)) (off inum')).Same (load blk (off inum')) := by
  have hoff : off inum' + 64 ≤ off inum ∨ off inum + 64 ≤ off inum' := by
    simp only [off]
    omega
  refine ⟨readLE_store_of_disjoint ?_, readLE_store_of_disjoint ?_, readLE_store_of_disjoint ?_,
    readLE_store_of_disjoint ?_, readLE_store_of_disjoint ?_,
    fun i hi => readLE_store_of_disjoint ?_⟩
  · omega
  · omega
  · omega
  · omega
  · omega
  · simp only [NDIRECT] at hi
    omega

end Dinode

namespace Fs

/-! ## Places -/

/-- Place `i` of an inode: the direct addresses, the indirect block, and
the entries of the indirect block. -/
def slot (d : Disk) (addrs : ℕ → ℕ) (i : ℕ) : ℕ :=
  if i ≤ NDIRECT then addrs i
  else if addrs NDIRECT = 0 then 0
  else word (d (addrs NDIRECT)) (i - (NDIRECT + 1))

/-- The number of places of an inode. -/
abbrev NSLOT : ℕ := MAXFILE + 1

/-- The place of file block `k`. -/
def slotOf (k : ℕ) : ℕ := if k < NDIRECT then k else k + 1

variable (sb : Superblock)

/-- The inode on disk. -/
def dinode (d : Disk) (inum : ℕ) : Dinode := .load (d (sb.iblock inum)) (Dinode.off inum)

/-- **The block at place `i` of an allocated inode**, `x` being the inode
number and `i`. -/
def place (d : Disk) (x : ℕ × ℕ) : ℕ :=
  if x.1 < sb.ninodes ∧ (dinode sb d x.1).type ≠ 0 ∧ x.2 < NSLOT then
    slot d (dinode sb d x.1).addrs x.2
  else 0

/-- The same with the addresses of one inode given. -/
def placeWith (d : Disk) (inum : ℕ) (addrs : ℕ → ℕ) (x : ℕ × ℕ) : ℕ :=
  if x.1 = inum then if x.2 < NSLOT then slot d addrs x.2 else 0 else place sb d x

variable {sb} {d d' : Disk} {addrs : ℕ → ℕ} {inum b i k : ℕ} {x : ℕ × ℕ}

theorem slot_of_le (h : i ≤ NDIRECT) : slot d addrs i = addrs i := if_pos h

theorem slot_entry (h : addrs NDIRECT ≠ 0) (k : ℕ) :
    slot d addrs (NDIRECT + 1 + k) = word (d (addrs NDIRECT)) k := by
  rw [slot, if_neg (by omega), if_neg h, Nat.add_sub_cancel_left]

theorem slot_of_no_indirect (h : addrs NDIRECT = 0) (hi : NDIRECT < i) : slot d addrs i = 0 := by
  rw [slot, if_neg (by omega), if_pos h]

theorem slot_of_empty (h : ∀ i, i ≤ NDIRECT → addrs i = 0) (i : ℕ) : slot d addrs i = 0 := by
  by_cases hi : i ≤ NDIRECT
  · rw [slot_of_le hi, h i hi]
  · rw [slot_of_no_indirect (h _ le_rfl) (by omega)]

theorem slot_congr {addrs' : ℕ → ℕ} (ha : ∀ i, i ≤ NDIRECT → addrs' i = addrs i)
    (hd : addrs NDIRECT ≠ 0 → d' (addrs NDIRECT) = d (addrs NDIRECT)) (i : ℕ) :
    slot d' addrs' i = slot d addrs i := by
  unfold slot
  rw [ha NDIRECT le_rfl]
  by_cases hi : i ≤ NDIRECT
  · rw [if_pos hi, if_pos hi, ha i hi]
  · rw [if_neg hi, if_neg hi]
    by_cases h0 : addrs NDIRECT = 0
    · rw [if_pos h0, if_pos h0]
    · rw [if_neg h0, if_neg h0, hd h0]

theorem word_zero (j : ℕ) : word (fun _ => 0) j = 0 := Bytes.readLE_zero ..

theorem word_writeLE {blk : Block} {j : ℕ} (hk : k < NINDIRECT) (hb : b < 2 ^ 32) :
    word (blk.writeLE (4 * k) 4 b) j = if j = k then b else word blk j := by
  simp only [NINDIRECT, BSIZE] at hk
  unfold word
  split
  · rename_i h
    rw [h, Bytes.readLE_writeLE (by simp only [BSIZE]; omega)]
    omega
  · rw [Bytes.readLE_writeLE_of_disjoint (by omega)]

/-- An address set; a new indirect block has no entries yet. -/
theorem slot_update (hi : i ≤ NDIRECT)
    (hd : addrs NDIRECT ≠ 0 → d' (addrs NDIRECT) = d (addrs NDIRECT))
    (hnew : i = NDIRECT → addrs i = 0 ∧ b ≠ 0 ∧ d' b = fun _ => 0) :
    slot d' (update addrs i b) = update (slot d addrs) i b := by
  funext j
  by_cases hji : j = i
  · rw [hji, update_self, slot_of_le hi, update_self]
  rw [update_of_ne hji]
  by_cases hjd : j ≤ NDIRECT
  · rw [slot_of_le hjd, slot_of_le hjd, update_of_ne hji]
  by_cases hid : i = NDIRECT
  · obtain ⟨h0, hb, hzero⟩ := hnew hid
    subst hid
    rw [slot_of_no_indirect h0 (by omega), slot, if_neg hjd, update_self, if_neg hb, hzero,
      word_zero]
  · have hsame : update addrs i b NDIRECT = addrs NDIRECT := update_of_ne (Ne.symm hid) ..
    unfold slot
    rw [if_neg hjd, if_neg hjd, hsame]
    by_cases hn : addrs NDIRECT = 0
    · rw [if_pos hn, if_pos hn]
    · rw [if_neg hn, if_neg hn, hd hn]

/-- An entry of the indirect block set. -/
theorem slot_write (hind : addrs NDIRECT ≠ 0) (hk : k < NINDIRECT) (hb : b < 2 ^ 32) :
    slot (update d (addrs NDIRECT) ((d (addrs NDIRECT)).writeLE (4 * k) 4 b)) addrs =
      update (slot d addrs) (NDIRECT + 1 + k) b := by
  funext j
  by_cases hjd : j ≤ NDIRECT
  · rw [update_of_ne (by omega), slot_of_le hjd, slot_of_le hjd]
  · obtain ⟨m, rfl⟩ : ∃ m, j = NDIRECT + 1 + m := ⟨j - (NDIRECT + 1), by omega⟩
    rw [slot_entry hind, update_self, word_writeLE hk hb]
    by_cases hmk : m = k
    · rw [hmk, if_pos rfl, update_self]
    · rw [if_neg hmk, update_of_ne (by omega), slot_entry hind]

/-- One place of one inode set. -/
theorem eq_update_place {P Q : ℕ × ℕ → ℕ} {f : ℕ → ℕ} (hi : i < NSLOT)
    (hP : ∀ j, P (inum, j) = if j < NSLOT then f j else 0)
    (hQ : ∀ j, Q (inum, j) = if j < NSLOT then update f i b j else 0)
    (hother : ∀ x, x.1 ≠ inum → Q x = P x) : Q = update P (inum, i) b := by
  funext ⟨n, j⟩
  by_cases hn : n = inum
  · rw [hn, hQ]
    by_cases hji : j = i
    · rw [hji, if_pos hi, update_self, update_self]
    · rw [update_of_ne hji, update_of_ne (by simp [hji]), hP]
  · rw [hother _ hn, update_of_ne (by simp [hn])]

theorem placeWith_self (hi : i < NSLOT) : placeWith sb d inum addrs (inum, i) = slot d addrs i := by
  rw [placeWith, if_pos rfl, if_pos hi]

theorem placeWith_indirect (sb : Superblock) (d : Disk) (inum : ℕ) (addrs : ℕ → ℕ) :
    placeWith sb d inum addrs (inum, NDIRECT) = addrs NDIRECT := by
  rw [placeWith_self (by simp only [NSLOT, MAXFILE]; omega), slot_of_le le_rfl]

theorem placeWith_of_ne (h : x.1 ≠ inum) : placeWith sb d inum addrs x = place sb d x := if_neg h

/-- The places of an inode depend on the inode and on its indirect block
alone. -/
theorem place_congr (hino : (dinode sb d' x.1).Same (dinode sb d x.1))
    (hind : place sb d (x.1, NDIRECT) ≠ 0 →
      d' (place sb d (x.1, NDIRECT)) = d (place sb d (x.1, NDIRECT))) :
    place sb d' x = place sb d x := by
  unfold place
  rw [hino.type]
  by_cases h : x.1 < sb.ninodes ∧ (dinode sb d x.1).type ≠ 0 ∧ x.2 < NSLOT
  · rw [if_pos h, if_pos h]
    refine slot_congr hino.addrs (fun h0 => ?_) x.2
    have hp : place sb d (x.1, NDIRECT) = (dinode sb d x.1).addrs NDIRECT := by
      rw [place, if_pos ⟨h.1, h.2.1, by simp only [NSLOT, MAXFILE]; omega⟩, slot_of_le le_rfl]
    rw [hp] at hind
    exact hind h0
  · rw [if_neg h, if_neg h]

/-- The inode stored is the inode read. -/
theorem dinode_store {D : Dinode} (hD : D.Fits) :
    (dinode sb (update d (sb.iblock inum)
      (D.store (d (sb.iblock inum)) (Dinode.off inum))) inum).Same D := by
  rw [dinode, update_self]
  exact Dinode.load_store hD (Dinode.off_add_le _)

/-- The other inodes are as they were. -/
theorem dinode_store_of_ne {D : Dinode} {n : ℕ} (hne : n ≠ inum) :
    (dinode sb (update d (sb.iblock inum)
      (D.store (d (sb.iblock inum)) (Dinode.off inum))) n).Same (dinode sb d n) := by
  rw [dinode]
  by_cases hb : sb.iblock n = sb.iblock inum
  · rw [hb, update_self, dinode, hb]
    refine Dinode.load_store_of_ne fun hmod => hne ?_
    simp only [Superblock.iblock, IPB, BSIZE] at *
    omega
  · rw [update_of_ne hb]
    exact Dinode.Same.refl _

/-! ## The ledger of a file system -/

variable {P : ℕ × ℕ → ℕ} {s s' : Fs}

/-- The free map agrees with the places. -/
abbrev Books (sb : Superblock) (s : Fs) (P : ℕ × ℕ → ℕ) : Prop :=
  Ledger P (fun b => s.bit sb b = true) sb.nmeta sb.size

/-- The inodes and the blocks owned are as they were. -/
structure Keeps (sb : Superblock) (P : ℕ × ℕ → ℕ) (d d' : Disk) : Prop where
  low : ∀ b, b < sb.bmapstart → d' b = d b
  owned : ∀ x, P x ≠ 0 → d' (P x) = d (P x)

/-- The places of an inode stay if the inode blocks and its indirect block
do. -/
theorem place_of_low (hsb : sb.Ok) (hlow : ∀ b, b < sb.bmapstart → d' b = d b)
    (hind : place sb d (x.1, NDIRECT) ≠ 0 →
      d' (place sb d (x.1, NDIRECT)) = d (place sb d (x.1, NDIRECT))) :
    place sb d' x = place sb d x := by
  by_cases hi : x.1 < sb.ninodes
  · refine place_congr ?_ hind
    rw [dinode, dinode, hlow _ (hsb.inodes _ hi)]
    exact Dinode.Same.refl _
  · rw [place, place, if_neg (fun hc => hi hc.1), if_neg (fun hc => hi hc.1)]

/-- So do those of the inodes other than the one given. -/
theorem placeWith_of_low {addrs' : ℕ → ℕ} (hsb : sb.Ok) (hlow : ∀ b, b < sb.bmapstart → d' b = d b)
    (hx : x.1 ≠ inum) (hind : placeWith sb d inum addrs (x.1, NDIRECT) ≠ 0 →
      d' (placeWith sb d inum addrs (x.1, NDIRECT)) =
        d (placeWith sb d inum addrs (x.1, NDIRECT))) :
    placeWith sb d' inum addrs' x = placeWith sb d inum addrs x := by
  have hp : placeWith sb d inum addrs (x.1, NDIRECT) = place sb d (x.1, NDIRECT) :=
    placeWith_of_ne hx
  rw [hp] at hind
  rw [placeWith_of_ne hx, placeWith_of_ne hx]
  exact place_of_low hsb hlow hind

/-- Writing a block that is not a bitmap block leaves the free map
alone. -/
theorem bit_of_update {blk : Block} (hsb : sb.Ok) (hb : sb.nmeta ≤ b ∨ b < sb.bmapstart)
    (hdata : s'.data = update s.data b blk) {c : ℕ} (hc : c < sb.size) :
    s'.bit sb c = s.bit sb c := by
  have h1 := hsb.bitmap c hc
  have h2 : sb.bmapstart ≤ sb.bblock c := Nat.le_add_left ..
  rw [bit, bit, hdata, update_of_ne (by omega)]

/-- The bits of a bitmap block are those of different blocks. -/
theorem mod_eq_iff_of_bblock {c : ℕ} (h : sb.bblock c = sb.bblock b) :
    c % BPB = b % BPB ↔ c = b := by
  simp only [Superblock.bblock, BPB, BSIZE] at *
  omega

/-- What a bit is once another's, or its own, has been written. -/
theorem bit_setBit {c : ℕ}
    (hdata : s'.data = update s.data (sb.bblock b)
      ((s.data (sb.bblock b)).setBit (b % BPB))) :
    s'.bit sb c = true ↔ c = b ∨ s.bit sb c = true := by
  have hlt : b % BPB < 8 * BSIZE := by
    simp only [BPB, BSIZE]
    omega
  rw [bit, bit, hdata]
  by_cases h : sb.bblock c = sb.bblock b
  · rw [h, update_self, Bytes.testBit_setBit hlt, mod_eq_iff_of_bblock h]
  · rw [update_of_ne h]
    have hcb : c ≠ b := by
      rintro rfl
      exact h rfl
    simp [hcb]

theorem bit_clearBit {c : ℕ}
    (hdata : s'.data = update s.data (sb.bblock b)
      ((s.data (sb.bblock b)).clearBit (b % BPB))) :
    s'.bit sb c = true ↔ c ≠ b ∧ s.bit sb c = true := by
  have hlt : b % BPB < 8 * BSIZE := by
    simp only [BPB, BSIZE]
    omega
  rw [bit, bit, hdata]
  by_cases h : sb.bblock c = sb.bblock b
  · rw [h, update_self, Bytes.testBit_clearBit hlt, Ne, mod_eq_iff_of_bblock h]
  · rw [update_of_ne h]
    have hcb : c ≠ b := by
      rintro rfl
      exact h rfl
    simp [hcb]

/-- **What `balloc` does to the ledger**: a block in no place has been
marked and zeroed, and what is in a place is as before. -/
structure Alloc (sb : Superblock) (s s' : Fs) (P : ℕ × ℕ → ℕ) (b : ℕ) : Prop where
  lt : b < sb.size
  le : sb.nmeta ≤ b
  free : s.bit sb b ≠ true
  marked : ∀ c, c < sb.size → (s'.bit sb c = true ↔ c = b ∨ s.bit sb c = true)
  zero : s'.data b = fun _ => 0
  zeroLogged : s'.logged b = fun _ => 0
  keeps : Keeps sb P s.data s'.data
  held : s'.held = s.held
  inode : s'.inode = s.inode
  logs : Logs s s'

theorem alloc_of_balloc (hsb : sb.Ok) (hP : Books sb s P) (h : balloc sb s = .ok (b, s')) :
    Alloc sb s s' P b := by
  obtain ⟨hlt, hbit, -, t, ht, rfl⟩ := ballocFrom_ok (Nat.zero_mod _) h
  have hfree : s.bit sb b ≠ true := by simp [hbit]
  have hle := hP.le_of_free hlt hfree
  have hbm := hsb.bitmap b hlt
  have hstart : sb.bmapstart ≤ sb.bblock b := Nat.le_add_left ..
  refine ⟨hlt, hle, hfree, fun c hc => ?_, by simp, by simp,
    ⟨fun c hc => ?_, fun x hx => ?_⟩, ?_, ?_, (ht.logs.trans (.put ..)).trans (.put ..)⟩
  · rw [bit_of_update (s := t.put (sb.bblock b) ((s.data (sb.bblock b)).setBit (b % BPB))) hsb
      (.inl hle) rfl hc]
    refine bit_setBit ?_
    rw [put_data, ht.data]
  · rw [put_data, update_of_ne (by omega), put_data, update_of_ne (by omega), ht.data]
  · have hr := (hP.range x hx).1
    rw [put_data, update_of_ne (hP.ne_of_free hlt hfree), put_data,
      update_of_ne (by omega), ht.data]
  · simp [ht.held]
  · simp [ht.inode]

theorem Alloc.ledger (h : Alloc sb s s' P b) (hP : Books sb s P) (hx : P x = 0) :
    Books sb s' (update P x b) :=
  hP.alloc hx h.lt h.free h.marked

end Fs

end Xv6
