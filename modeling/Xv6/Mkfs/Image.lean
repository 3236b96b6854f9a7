import Xv6.Mkfs.Append
/-!
# What `mkfs` writes

Between two calls every inode is on disk, as its type, contents and
addresses say. The root directory lists the input files in order, from
inode 2 on, and each inode after the root holds one of them.
-/

namespace Xv6

open Common Function List

namespace Mkfs

variable {s t u : State} {A A' : ℕ → ℕ → ℕ} {C : ℕ → List UInt8} {T : ℕ → ℕ} {D : Dinode}
  {l : List UInt8} {i j n type : ℕ} {E : Fault → Prop}

/-- How many inodes fit the inode blocks. -/
abbrev NDINODE : ℕ := ninodeblocks * IPB

/-- The inode of a type, size and addresses, with one link if it is in
use. -/
def dinodeOf (type size : ℕ) (addrs : ℕ → ℕ) : Dinode where
  type := type
  major := 0
  minor := 0
  nlink := if type = 0 then 0 else 1
  size := size
  addrs := addrs

theorem dinodeOf_resize {size : ℕ} {addrs : ℕ → ℕ} (h : D.Same (dinodeOf type size addrs))
    (size' : ℕ) : Dinode.Same { D with size := size' } (dinodeOf type size' addrs) :=
  ⟨h.type, h.major, h.minor, h.nlink, rfl, h.addrs⟩

theorem dinodeOf_fits {size : ℕ} {addrs : ℕ → ℕ} (htype : type < 2 ^ 16) (hsize : size < 2 ^ 32)
    (haddrs : ∀ i, i ≤ NDIRECT → addrs i < 2 ^ 32) : (dinodeOf type size addrs).Fits := by
  refine ⟨htype, Nat.two_pow_pos 16, Nat.two_pow_pos 16, ?_, hsize, haddrs⟩
  change (if type = 0 then 0 else 1) < 2 ^ 16
  split <;> decide

/-- **The image between two calls.** -/
structure Layout (s : State) (A : ℕ → ℕ → ℕ) (C : ℕ → List UInt8) (T : ℕ → ℕ) : Prop
    extends Books s A C where
  inode : ∀ j, j < NDINODE → (Fs.dinode sb s.img j).Same (dinodeOf (T j) (C j).length (A j))
  super : s.img 1 = sbBlock
  fresh : ∀ j, s.freeinode ≤ j → T j = 0 ∧ C j = [] ∧ ∀ i, i ≤ NDIRECT → A j i = 0

/-! ## Inode blocks -/

theorem iblock_lt (hj : j < NDINODE) : 2 ≤ sb.iblock j ∧ sb.iblock j < nmeta - 1 := by
  simp only [Superblock.iblock, sb, NDINODE, ninodeblocks, nmeta, nlog, nbitmap, NINODES, IPB,
    BSIZE, LOGSIZE, MAXOPBLOCKS, FSSIZE] at *
  omega

theorem nmeta_lt : nmeta < FSSIZE := by decide

theorem rinode_run (hs : s.sectors = FSSIZE) (hj : j < NDINODE) :
    rinode j s = .ok (Fs.dinode sb s.img j, s) := by
  have := iblock_lt hj
  have := nmeta_lt
  rw [rinode, Prog.bind_run, rsect_run hs (by omega)]
  rfl

/-- The image with an inode stored. -/
def storeInode (s : State) (j : ℕ) (D : Dinode) : State :=
  { s with
    img := update s.img (sb.iblock j) (D.store (s.img (sb.iblock j)) (Dinode.off j)) }

theorem storeInode_img {b : ℕ} (hb : b ≠ sb.iblock j) : (storeInode s j D).img b = s.img b := by
  simp only [storeInode, update_of_ne hb]

theorem dinode_storeInode (hD : D.Fits) : (Fs.dinode sb (storeInode s j D).img j).Same D :=
  Fs.dinode_store hD

theorem dinode_storeInode_of_ne (hn : n ≠ j) :
    (Fs.dinode sb (storeInode s j D).img n).Same (Fs.dinode sb s.img n) :=
  Fs.dinode_store_of_ne hn

theorem winode_run (hs : s.sectors = FSSIZE) (hj : j < NDINODE) :
    winode j D s = .ok ((), storeInode s j D) := by
  have := iblock_lt hj
  have := nmeta_lt
  rw [winode, Prog.bind_run, rsect_run hs (by omega)]
  exact wsect_run hs (by omega) _

/-- The data blocks do not notice what happens in front of them. -/
theorem Books.low (h : Books s A C) (hfree : t.freeblock = s.freeblock)
    (hsec : t.sectors = s.sectors) (himg : ∀ b, nmeta ≤ b → t.img b = s.img b) : Books t A C := by
  have hrefs : refs t.img A = refs s.img A := by
    refine refs_congr fun n hn => himg _ ?_
    have hself : refs s.img A (n, NDIRECT) = A n NDIRECT := refs_of_le le_rfl
    rw [← hself] at hn ⊢
    exact (h.ledger.range _ hn).1
  have hpos := (Grown.refl h 0).freeblock_ne
  have hmeta : nmeta ≤ s.freeblock := by
    have : nmeta - 1 < s.freeblock := (h.ledger.used_iff _ (by decide)).2 (.inl (by decide))
    omega
  refine ⟨by rw [hrefs, hfree]; exact h.ledger, hfree ▸ h.le, fun b hb => ?_, hsec.trans h.sectors,
    fun j => ?_⟩
  · rw [hfree] at hb
    rw [himg b (by omega), h.zero b hb]
  · have hf := h.file j
    rw [hrefs]
    refine ⟨hf.length_le, hf.block, hf.indirect, fun p hp => ?_⟩
    have hlt : p / BSIZE < MAXFILE := by
      have := hf.length_le
      rw [Nat.div_lt_iff_lt_mul (by decide)]
      omega
    have hne := (hf.block _ hlt).2 (by
      have : p / BSIZE * BSIZE ≤ p := Nat.div_mul_le_self ..
      omega)
    rw [himg _ (h.ledger.range _ hne).1, hf.byte p hp]

theorem Books.store (h : Books s A C) (hj : j < NDINODE) : Books (storeInode s j D) A C := by
  have := iblock_lt hj
  exact h.low rfl rfl fun b hb => storeInode_img (by omega)

/-- Only the addresses an inode has count. -/
theorem Books.congr (h : Books s A C) (hA : ∀ j i, i ≤ NDIRECT → A' j i = A j i) :
    Books s A' C := by
  have hrefs : refs s.img A' = refs s.img A := by
    funext x
    unfold refs
    rw [Fs.slot_congr (hA x.1) fun _ => rfl]
  refine ⟨by rw [hrefs]; exact h.ledger, h.le, h.zero, h.sectors, fun j => ?_⟩
  rw [hrefs]
  exact h.file j

theorem Books.addrs_lt (h : Books s A C) (hi : i ≤ NDIRECT) : A j i < 2 ^ 32 := by
  have hself : refs s.img A (j, i) = A j i := refs_of_le hi
  by_cases h0 : A j i = 0
  · rw [h0]
    exact Nat.two_pow_pos 32
  · have := (h.ledger.range (j, i) (by rwa [hself])).2
    rw [hself] at this
    exact this.trans (by decide)

/-- **Storing an inode** takes an image in which it is about to change to
one in which it has. -/
theorem Books.layout {T' : ℕ → ℕ} {A₀ : ℕ → ℕ → ℕ} {C₀ : ℕ → List UInt8} (hb : Books t A C)
    (h : Layout s A₀ C₀ T) (hlow : ∀ b, b < nmeta → t.img b = s.img b) (hj : j < NDINODE)
    (hD : D.Same (dinodeOf (T' j) (C j).length (A j))) (htype : T' j < 2 ^ 16)
    (hother : ∀ n, n ≠ j → T' n = T n ∧ C n = C₀ n ∧ A n = A₀ n)
    (hfree : s.freeinode ≤ t.freeinode) (hlt : j < t.freeinode) :
    Layout (storeInode t j D) A C T' := by
  have hblock := iblock_lt hj
  have hlen := (hb.file j).length_le
  refine ⟨hb.store hj, fun n hn => ?_, ?_, fun n hn => ?_⟩
  · by_cases hnj : n = j
    · subst hnj
      refine (dinode_storeInode (hD.fits (dinodeOf_fits htype ?_ fun i hi =>
        hb.addrs_lt hi))).trans hD
      simp only [MAXFILE, NDIRECT, NINDIRECT, BSIZE] at *
      omega
    · obtain ⟨hT, hC, hA⟩ := hother n hnj
      rw [hT, hC, hA]
      refine (dinode_storeInode_of_ne hnj).trans ?_
      have := iblock_lt hn
      rw [Fs.dinode, hlow _ (by omega)]
      exact h.inode n hn
  · rw [storeInode_img (by omega), hlow 1 (by decide), h.super]
  · have hn : t.freeinode ≤ n := hn
    obtain ⟨hT, hC, hA⟩ := hother n (by omega)
    rw [hT, hC, hA]
    exact h.fresh n (by omega)

/-! ## `ialloc` and `iappend` -/

theorem ialloc_layout (h : Layout s A C T) (hlt : s.freeinode < NDINODE) (htype : type < 2 ^ 16)
    (hne : type ≠ 0) :
    Hoare (· = s) (ialloc type) (fun n t => n = s.freeinode ∧
      Layout t A C (update T s.freeinode type) ∧ t.freeinode = s.freeinode + 1 ∧
      t.freeblock = s.freeblock) E := by
  obtain ⟨hT, hC, hA⟩ := h.fresh s.freeinode le_rfl
  have hrun : ialloc type s = .ok (s.freeinode, storeInode
      { s with freeinode := s.freeinode + 1 } s.freeinode { Dinode.fresh type with nlink := 1 }) := by
    change (winode s.freeinode _ >>= fun _ => pure s.freeinode : Run ℕ)
      { s with freeinode := s.freeinode + 1 } = _
    rw [Prog.bind_run, winode_run (s := { s with freeinode := s.freeinode + 1 }) h.sectors hlt]
    rfl
  have hbooks : Books { s with freeinode := s.freeinode + 1 } A C :=
    h.toBooks.low rfl rfl fun _ _ => rfl
  have hlayout : Layout (storeInode { s with freeinode := s.freeinode + 1 } s.freeinode
      { Dinode.fresh type with nlink := 1 }) A C (update T s.freeinode type) := by
    have htype' : update T s.freeinode type s.freeinode < 2 ^ 16 := by
      rwa [update_self]
    refine hbooks.layout h (fun _ _ => rfl) hlt ?_ htype'
      (fun n hn => ⟨update_of_ne hn .., rfl, rfl⟩) (Nat.le_succ _) (Nat.lt_succ_self _)
    rw [update_self]
    refine ⟨rfl, rfl, rfl, (if_neg hne).symm, ?_, fun i hi => (hA i hi).symm⟩
    rw [hC]
    rfl
  exact Returns.hoare ⟨_, _, hrun, rfl, hlayout, rfl, rfl⟩ E

/-- The bytes have been appended to inode `j`, and it is on disk again. -/
structure Extends (s t : State) (C : ℕ → List UInt8) (T : ℕ → ℕ) (j : ℕ) (l : List UInt8) :
    Prop where
  layout : ∃ A, Layout t A (update C j (C j ++ l)) T
  freeinode : t.freeinode = s.freeinode
  count : t.freeblock + nblk (C j).length = s.freeblock + nblk ((C j).length + l.length)

/-- **`iappend`** -/
theorem iappend_extends (h : Layout s A C T) (hj : j < s.freeinode) (hjd : j < NDINODE)
    (htype : T j < 2 ^ 16) (hE : ¬ Room s (C j).length l.length → ∀ e, E e) :
    Hoare (· = s) (iappend j l) (fun _ t => Extends s t C T j l) E := by
  have hino := h.inode j hjd
  -- the addresses as they are on disk
  have hA : ∀ n i, i ≤ NDIRECT →
      update A j (Fs.dinode sb s.img j).addrs n i = A n i := by
    intro n i hi
    by_cases hn : n = j
    · rw [hn, update_self]
      exact hino.addrs i hi
    · rw [update_of_ne hn]
  have hbooks := h.toBooks.congr hA
  have haddrs : (Fs.dinode sb s.img j).addrs =
      update A j (Fs.dinode sb s.img j).addrs j := by
    rw [update_self]
  have hloop := iappendLoop_appends hbooks haddrs le_rfl hE
  have hsize : (Fs.dinode sb s.img j).size = (C j).length := hino.size
  have hrun : iappend j l s = (do
      let r ← iappendLoop l.length (Fs.dinode sb s.img j) (C j).length l
      winode j { r.1 with size := r.2 }) s := by
    rw [iappend, Prog.bind_run, rinode_run h.sectors hjd]
    dsimp only [Except.bind]
    rw [hsize]
  refine .run_eq (hloop.bind fun r => .pointwise ?_) hrun
  rintro t ⟨happ, hsame, hr⟩
  have hb := happ.books
  rw [update_idem] at hb
  have hwrite : winode j { r.1 with size := r.2 } t =
      .ok ((), storeInode t j { r.1 with size := r.2 }) := winode_run hb.sectors hjd
  have hlayout : Layout (storeInode t j { r.1 with size := r.2 }) (update A j r.1.addrs)
      (update C j (C j ++ l)) T := by
    refine hb.layout h happ.low hjd ?_ htype (fun n hn => ⟨rfl, update_of_ne hn ..,
      update_of_ne hn ..⟩) (Nat.le_of_eq happ.freeinode.symm)
      (by rw [happ.freeinode]; exact hj)
    rw [update_self, update_self, length_append]
    rw [hsame]
    exact ⟨hino.type, hino.major, hino.minor, hino.nlink, hr, fun _ _ => rfl⟩
  exact Returns.hoare ⟨_, _, hwrite, ⟨_, hlayout⟩, happ.freeinode, happ.count⟩ E

theorem Extends.room {m : ℕ} (h : Extends s t C T j l) (hr : Room s (C j).length (l.length + m)) :
    Room t ((C j).length + l.length) m := by
  have hc := h.count
  obtain ⟨h1, h2⟩ := hr
  rw [← Nat.add_assoc] at h1 h2
  exact ⟨h1, by omega⟩

theorem Extends.trans {m : List UInt8} (h : Extends s t C T j l)
    (h' : Extends t u (update C j (C j ++ l)) T j m) : Extends s u C T j (l ++ m) := by
  obtain ⟨A, hl⟩ := h'.layout
  have hc := h'.count
  have hc₀ := h.count
  rw [update_self, length_append] at hc
  rw [update_self, append_assoc, update_idem] at hl
  refine ⟨⟨A, hl⟩, h'.freeinode.trans h.freeinode, ?_⟩
  rw [length_append, ← Nat.add_assoc]
  omega

/-- **However the host's `read` cuts the input**, the file has all of
it. -/
theorem reads_extends {reads : List (List UInt8)} (h : Layout s A C T) (hj : j < s.freeinode)
    (hjd : j < NDINODE) (htype : T j < 2 ^ 16)
    (hE : ¬ Room s (C j).length reads.flatten.length → ∀ e, E e) :
    Hoare (· = s) (reads.forM (iappend j)) (fun _ t => Extends s t C T j reads.flatten) E := by
  induction reads generalizing s A C with
  | nil =>
    refine .pure ?_
    rintro _ rfl
    refine ⟨⟨A, ?_⟩, rfl, rfl⟩
    rwa [flatten_nil, append_nil, update_eq_self]
  | cons l reads ih =>
    simp only [forM_eq_forM, forM_cons, flatten_cons, length_append] at *
    refine .bind (iappend_extends h hj hjd htype fun hr => hE fun hroom => hr ?_) fun _ =>
      Hoare.pointwise fun t ht => ?_
    · have hmono : nblk ((C j).length + l.length) ≤
          nblk ((C j).length + (l.length + reads.flatten.length)) := nblk_mono (by omega)
      obtain ⟨h1, h2⟩ := hroom
      exact ⟨by omega, by omega⟩
    · obtain ⟨A', hl⟩ := ht.layout
      have hlen : (update C j (C j ++ l) j).length = (C j).length + l.length := by
        rw [update_self, length_append]
      refine (ih hl (by rw [ht.freeinode]; exact hj) fun hr => hE fun hroom => hr ?_).conseq
        (fun _ => id) fun _ u hu => ht.trans hu
      rw [hlen]
      exact ht.room hroom

end Mkfs

end Xv6
