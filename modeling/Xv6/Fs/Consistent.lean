import Xv6.Fs.Write
/-!
# A consistent file system

Between operations the free map agrees with the inodes on disk, no file
lacks a block below its size, and the cached inodes are the ones on disk.
While an operation works on a cached inode, that inode's copy counts
instead of the disk's: the file system is *opened* at it, and storing the
inode closes it again.
-/

namespace Xv6

namespace Fs

variable {sb : Superblock} {s t : Fs} {ip : Fin NINODE} {inum : ℕ} {x : ℕ × ℕ}

/-- A file has a size it can have, and no block missing below it. -/
structure Dense (d : Dinode) (P : ℕ × ℕ → ℕ) (inum : ℕ) : Prop where
  size_le : d.size ≤ MAXFILE * BSIZE
  block : ∀ k, k * BSIZE < d.size → P (inum, slotOf k) ≠ 0

theorem Dense.congr {d e : Dinode} {P Q : ℕ × ℕ → ℕ} (h : Dense d P inum) (hsize : e.size = d.size)
    (hP : ∀ i, Q (inum, i) = P (inum, i)) : Dense e Q inum :=
  ⟨hsize ▸ h.size_le, fun k hk => by rw [hP]; exact h.block k (hsize ▸ hk)⟩

variable (sb) in
/-- **A consistent image**, as the buffers show it. Only data blocks may
differ from what was last logged of them. -/
structure Sound (s : Fs) : Prop where
  books : Books sb s (place sb s.data)
  dense : ∀ inum, inum < sb.ninodes → (dinode sb s.data inum).type ≠ 0 →
    Dense (dinode sb s.data inum) (place sb s.data) inum
  held : ∀ b, s.held b = none
  loose : ∀ b, s.data b ≠ s.logged b →
    sb.nmeta ≤ b ∧ ∀ n, place sb s.data (n, NDIRECT) ≠ b

variable (sb) in
/-- A cached inode that is loaded is an allocated inode of the disk. -/
def CopyAt (s : Fs) (ip : Fin NINODE) : Prop :=
  0 < (s.inode ip).ref → (s.inode ip).valid = true →
    (s.inode ip).inum < sb.ninodes ∧ (s.inode ip).type ≠ 0 ∧
      (s.inode ip).toDinode.Same (dinode sb s.data (s.inode ip).inum)

/-- An inode has one cache entry. -/
def Unique (s : Fs) : Prop :=
  ∀ ip jp, 0 < (s.inode ip).ref → 0 < (s.inode jp).ref →
    (s.inode ip).inum = (s.inode jp).inum → ip = jp

variable (sb) in
/-- **A consistent file system**: the image, and the inode cache. -/
structure Consistent (s : Fs) : Prop extends Sound sb s where
  copy : ∀ ip, s.CopyAt sb ip
  unique : s.Unique

/-- An inode in use and loaded, as `ilock` leaves it. -/
structure Live (s : Fs) (ip : Fin NINODE) : Prop where
  ref : 0 < (s.inode ip).ref
  valid : (s.inode ip).valid = true

variable (sb) in
/-- The file system while an operation works on a cached inode. -/
structure Opened (s : Fs) (ip : Fin NINODE) : Prop where
  books : Books sb s (s.places sb ip)
  ref : 0 < (s.inode ip).ref
  inum_lt : (s.inode ip).inum < sb.ninodes
  fits : (s.inode ip).toDinode.Fits
  dense : ∀ inum, inum ≠ (s.inode ip).inum → inum < sb.ninodes →
    (dinode sb s.data inum).type ≠ 0 → Dense (dinode sb s.data inum) (s.places sb ip) inum
  held : ∀ b, s.held b = none
  loose : s.Loose sb ip
  others : ∀ j, j ≠ ip → s.CopyAt sb j
  unique : s.Unique

/-! ## Opening -/

theorem Consistent.places_eq (h : Consistent sb s) (hl : s.Live ip) :
    s.places sb ip = place sb s.data := by
  obtain ⟨hlt, htype, hsame⟩ := h.copy ip hl.ref hl.valid
  have htype' : (dinode sb s.data (s.inode ip).inum).type ≠ 0 := hsame.type ▸ htype
  funext x
  unfold places placeWith
  by_cases hx : x.1 = (s.inode ip).inum
  · rw [if_pos hx]
    unfold place
    rw [hx]
    by_cases hi : x.2 < NSLOT
    · rw [if_pos hi, if_pos ⟨hlt, htype', hi⟩]
      exact slot_congr hsame.addrs (fun _ => rfl) x.2
    · rw [if_neg hi, if_neg fun hc => hi hc.2.2]
  · rw [if_neg hx]

theorem Consistent.opened (h : Consistent sb s) (hl : s.Live ip) : Opened sb s ip := by
  obtain ⟨hlt, -, hsame⟩ := h.copy ip hl.ref hl.valid
  have hplaces := h.places_eq hl
  refine ⟨by rw [hplaces]; exact h.books, hl.ref, hlt, hsame.fits (Dinode.fits_load ..),
    fun inum _ hi ht => ?_, h.held, ?_, fun j _ => h.copy j, h.unique⟩
  · rw [hplaces]
    exact h.dense inum hi ht
  · unfold Loose
    rw [hplaces]
    exact h.loose

/-- The inode itself has no block missing either. -/
theorem Consistent.dense_live (h : Consistent sb s) (hl : s.Live ip) :
    Dense (s.inode ip).toDinode (s.places sb ip) (s.inode ip).inum := by
  obtain ⟨hlt, htype, hsame⟩ := h.copy ip hl.ref hl.valid
  rw [h.places_eq hl]
  exact (h.dense _ hlt (hsame.type ▸ htype)).congr hsame.size fun _ => rfl

/-! ## Working -/

/-- An address in a ledger is a block number. -/
theorem addrs_lt (hsb : sb.Ok) (hP : Books sb s (s.places sb ip)) {i : ℕ} (hi : i ≤ NDIRECT) :
    (s.inode ip).addrs i < 2 ^ 32 := by
  have hp : s.places sb ip ((s.inode ip).inum, i) = (s.inode ip).addrs i := by
    rw [places, placeWith_self (by simp only [NSLOT, MAXFILE]; omega), slot_of_le hi]
  have hsize := hsb.size
  by_cases h0 : (s.inode ip).addrs i = 0
  · omega
  · have := (hP.range _ (by rwa [hp])).2
    rw [hp] at this
    omega

theorem CopyAt.low (h : s.CopyAt sb ip) (hsb : sb.Ok) (hinode : t.inode ip = s.inode ip)
    (hlow : ∀ b, b < sb.bmapstart → t.data b = s.data b) : t.CopyAt sb ip := by
  unfold CopyAt
  rw [hinode]
  intro hr hv
  obtain ⟨hlt, htype, hsame⟩ := h hr hv
  refine ⟨hlt, htype, ?_⟩
  rw [dinode, hlow _ (hsb.inodes _ hlt)]
  exact hsame

theorem Opened.works (h : Opened sb s ip) (hsb : sb.Ok) (hw : Works sb s t ip)
    (hl : t.Loose sb ip) : Opened sb t ip := by
  have hinode := hw.inode
  have hstay : ∀ j, (t.inode j).ref = (s.inode j).ref ∧ (t.inode j).inum = (s.inode j).inum := by
    intro j
    by_cases hj : j = ip
    · rw [hj, hinode]
      exact ⟨rfl, rfl⟩
    · rw [hw.others j hj]
      exact ⟨rfl, rfl⟩
  refine ⟨hw.books, ?_, ?_, ?_, fun inum hne hlt htype => ?_, fun b => ?_, hl, fun j hj => ?_, ?_⟩
  · rw [(hstay ip).1]
    exact h.ref
  · rw [(hstay ip).2]
    exact h.inum_lt
  · have haddrs : ∀ i, i ≤ NDIRECT → (t.inode ip).addrs i < 2 ^ 32 := fun i hi =>
      addrs_lt hsb hw.books hi
    have hf := h.fits
    rw [hinode]
    exact ⟨hf.type, hf.major, hf.minor, hf.nlink, hf.size, haddrs⟩
  · rw [hw.inum_eq] at hne
    have hd : dinode sb t.data inum = dinode sb s.data inum := by
      rw [dinode, dinode, hw.low _ (hsb.inodes _ hlt)]
    rw [hd] at htype ⊢
    exact (h.dense inum hne hlt htype).congr rfl fun i => hw.other _ hne
  · rw [hw.held]
    exact h.held b
  · exact (h.others j hj).low hsb (hw.others j hj) hw.low
  · intro j k hj hk he
    rw [(hstay j).1] at hj
    rw [(hstay k).1] at hk
    rw [(hstay j).2, (hstay k).2] at he
    exact h.unique j k hj hk he

theorem places_withInode {i : Inode} (hinum : i.inum = (s.inode ip).inum)
    (haddrs : i.addrs = (s.inode ip).addrs) :
    (s.withInode ip i).places sb ip = s.places sb ip := by
  unfold places
  rw [withInode_inode, withInode_data, hinum, haddrs]

/-- Changing the other fields of the inode. -/
theorem Opened.modify {i : Inode} (h : Opened sb s ip) (hinum : i.inum = (s.inode ip).inum)
    (href : i.ref = (s.inode ip).ref) (haddrs : i.addrs = (s.inode ip).addrs)
    (hfits : i.toDinode.Fits) : Opened sb (s.withInode ip i) ip := by
  have hplaces : (s.withInode ip i).places sb ip = s.places sb ip :=
    places_withInode hinum haddrs
  have hstay : ∀ j, ((s.withInode ip i).inode j).ref = (s.inode j).ref ∧
      ((s.withInode ip i).inode j).inum = (s.inode j).inum := by
    intro j
    by_cases hj : j = ip
    · rw [hj, withInode_inode]
      exact ⟨href, hinum⟩
    · rw [withInode_of_ne _ hj]
      exact ⟨rfl, rfl⟩
  refine ⟨by rw [hplaces]; exact h.books, ?_, ?_, by rwa [withInode_inode],
    fun inum hne hlt htype => ?_, h.held, ?_, fun j hj => ?_, fun j k hj hk he => ?_⟩
  · rw [(hstay ip).1]
    exact h.ref
  · rw [(hstay ip).2]
    exact h.inum_lt
  · rw [(hstay ip).2] at hne
    rw [hplaces]
    exact h.dense inum hne hlt htype
  · unfold Loose
    rw [hplaces]
    exact h.loose
  · unfold CopyAt
    rw [withInode_of_ne _ hj]
    exact h.others j hj
  · rw [(hstay j).1] at hj
    rw [(hstay k).1] at hk
    rw [(hstay j).2, (hstay k).2] at he
    exact h.unique j k hj hk he

/-! ## Closing -/

/-- The places of the inodes that are not stored. -/
theorem place_stored_of_ne {D : Dinode} (hsb : sb.Ok) (hlt : inum < sb.ninodes) (hx : x.1 ≠ inum)
    (hr : place sb s.data (x.1, NDIRECT) ≠ 0 → sb.nmeta ≤ place sb s.data (x.1, NDIRECT)) :
    place sb (s.stored sb D inum).data x = place sb s.data x := by
  refine place_congr (dinode_store_of_ne hx) fun h0 => ?_
  have h1 := hr h0
  have h2 := hsb.inodes _ hlt
  have h3 := hsb.start
  exact Function.update_of_ne (by omega) ..

/-- A cached inode that is not the one stored is still that of the disk. -/
theorem CopyAt.stored {D : Dinode} (h : s.CopyAt sb ip)
    (hne : 0 < (s.inode ip).ref → (s.inode ip).valid = true → (s.inode ip).inum ≠ inum) :
    (s.stored sb D inum).CopyAt sb ip := by
  intro hr hv
  obtain ⟨hlt, htype, hsame⟩ := h hr hv
  exact ⟨hlt, htype, hsame.trans (dinode_store_of_ne (hne hr hv)).symm⟩

/-- The image once an inode is stored. -/
theorem Sound.of_stored {D : Dinode} {P : ℕ × ℕ → ℕ} (hsb : sb.Ok) (hlt : inum < sb.ninodes)
    (hfits : D.Fits) (hplace : place sb (s.stored sb D inum).data = P) (hP : Books sb s P)
    (hheld : ∀ b, s.held b = none)
    (hloose : ∀ b, s.data b ≠ s.logged b → sb.nmeta ≤ b ∧ ∀ n, P (n, NDIRECT) ≠ b)
    (hdense : ∀ n, n ≠ inum → n < sb.ninodes → (dinode sb s.data n).type ≠ 0 →
      Dense (dinode sb s.data n) P n)
    (hd : D.type ≠ 0 → Dense D P inum) : Sound sb (s.stored sb D inum) := by
  refine ⟨?_, fun n hn ht => ?_, hheld, fun b hb => ?_⟩
  · rw [hplace]
    exact hP.congr fun b hb => by rw [bit_of_update hsb (.inr (hsb.inodes _ hlt)) rfl hb]
  · rw [hplace]
    by_cases hi : n = inum
    · have hsame : (dinode sb (s.stored sb D inum).data inum).Same D := dinode_store hfits
      rw [hi] at ht ⊢
      rw [hsame.type] at ht
      exact (hd ht).congr hsame.size fun _ => rfl
    · have hsame : (dinode sb (s.stored sb D inum).data n).Same (dinode sb s.data n) :=
        dinode_store_of_ne hi
      rw [hsame.type] at ht
      exact (hdense n hi hn ht).congr hsame.size fun _ => rfl
  · rw [hplace]
    exact hloose b ((Logs.put ..).unlogged b hb)

section

variable (h : Opened sb s ip)
include h

theorem Opened.dinode_flushed :
    (dinode sb (s.flushed sb ip).data (s.inode ip).inum).Same (s.inode ip).toDinode :=
  dinode_store h.fits

/-- The places once the inode is stored. -/
theorem Opened.place_flushed (hsb : sb.Ok) :
    place sb (s.flushed sb ip).data x =
      if x.1 = (s.inode ip).inum ∧ (s.inode ip).type = 0 then 0 else s.places sb ip x := by
  by_cases hx : x.1 = (s.inode ip).inum
  · have hd := h.dinode_flushed
    by_cases htype : (s.inode ip).type = 0
    · rw [if_pos ⟨hx, htype⟩, place, if_neg]
      rintro ⟨-, hc, -⟩
      rw [hx, hd.type] at hc
      exact hc htype
    · rw [if_neg fun hc => htype hc.2, places, placeWith, if_pos hx, place, hx]
      by_cases hi : x.2 < NSLOT
      · rw [if_pos ⟨h.inum_lt, by rwa [hd.type], hi⟩, if_pos hi]
        refine slot_congr hd.addrs (fun h0 => ?_) x.2
        have hblk := hsb.inodes _ h.inum_lt
        have hstart := hsb.start
        rw [← places_indirect sb s ip] at h0 ⊢
        have := (h.books.range _ h0).1
        exact Function.update_of_ne (by omega) ..
      · rw [if_neg fun hc => hi hc.2.2, if_neg hi]
  · rw [if_neg fun hc => hx hc.1, places, placeWith_of_ne hx]
    refine place_stored_of_ne hsb h.inum_lt hx fun h0 => ?_
    have hp : s.places sb ip (x.1, NDIRECT) = place sb s.data (x.1, NDIRECT) := placeWith_of_ne hx
    rw [← hp] at h0 ⊢
    exact (h.books.range _ h0).1

/-- The other cached inodes are still those of the disk. -/
theorem Opened.copy_flushed {j : Fin NINODE} (hj : j ≠ ip) : (s.flushed sb ip).CopyAt sb j :=
  (h.others j hj).stored fun hr _ he => hj (h.unique j ip hr h.ref he)

/-- **Storing the inode closes the file system.** -/
theorem Opened.close (hsb : sb.Ok) (htype : (s.inode ip).type ≠ 0)
    (hd : Dense (s.inode ip).toDinode (s.places sb ip) (s.inode ip).inum) :
    Consistent sb (s.flushed sb ip) := by
  refine ⟨.of_stored hsb h.inum_lt h.fits (funext fun x => ?_) h.books h.held h.loose h.dense
    fun _ => hd, fun j => ?_, h.unique⟩
  · exact (h.place_flushed hsb).trans (if_neg fun hc => htype hc.2)
  · by_cases hj : j = ip
    · rw [hj]
      exact fun _ _ => ⟨h.inum_lt, htype, h.dinode_flushed.symm⟩
    · exact h.copy_flushed hj

/-- Storing it with type 0, when it has no blocks, frees it; the cache
entry goes with it. -/
theorem Opened.close_free {i : Inode} (hsb : sb.Ok)
    (htype : (s.inode ip).type = 0) (haddrs : ∀ i, i ≤ NDIRECT → (s.inode ip).addrs i = 0)
    (hi : i.ref = 0) : Consistent sb ((s.flushed sb ip).withInode ip i) := by
  have hplace : ∀ x, place sb (s.flushed sb ip).data x = s.places sb ip x := by
    intro x
    rw [h.place_flushed hsb]
    split
    · rename_i hx
      rw [places, placeWith, if_pos hx.1, slot_of_empty haddrs, ite_self]
    · rfl
  have hsound : Sound sb (s.flushed sb ip) := .of_stored hsb h.inum_lt h.fits (funext hplace)
    h.books h.held h.loose h.dense fun hc => absurd htype hc
  have hne : ∀ {j}, 0 < (((s.flushed sb ip).withInode ip i).inode j).ref → j ≠ ip := by
    rintro j hr rfl
    rw [withInode_inode, hi] at hr
    exact absurd hr (Nat.lt_irrefl 0)
  refine ⟨⟨hsound.books, hsound.dense, hsound.held, hsound.loose⟩, fun j hr hv => ?_,
    fun j k hj hk he => ?_⟩
  · have hj := hne hr
    rw [withInode_of_ne _ hj] at hr hv ⊢
    exact h.copy_flushed hj hr hv
  · have hji := hne hj
    have hki := hne hk
    rw [withInode_of_ne _ hji] at hj he
    rw [withInode_of_ne _ hki] at hk he
    exact h.unique j k hj hk he

end

end Fs

end Xv6
