import Xv6.Common.System
import Xv6.Fs.Ops
/-!
# Who owns which block, in every reachable state

Transactions run one after another and are built from the operations of
`fs.c`. Between them a buffer may be recycled, so that its block shows
again what was last logged of it. From a consistent image on, no block is
owned twice, the free map marks the metadata and the blocks owned, and
neither `bfree` nor `bmap` panics.
-/

namespace Xv6

open Common Function

namespace Fs

/-- One operation of a transaction, or the recycling of a buffer. -/
inductive Act
  | ialloc (type : ℕ)
  | iget (inum : ℕ)
  | idup (ip : Fin NINODE)
  | ilock (ip : Fin NINODE)
  /-- `ip->major`, `ip->minor` and `ip->nlink` set, and `iupdate`. -/
  | update (ip : Fin NINODE) (major minor nlink : ℕ)
  | writei (ip : Fin NINODE) (src : Source) (off n : ℕ)
  | itrunc (ip : Fin NINODE)
  | dirlink (dp : Fin NINODE) (name : ℕ → UInt8) (inum : ℕ)
  | iput (ip : Fin NINODE)
  /-- The buffer of block `b` is recycled, and the block read again. -/
  | evict (b : ℕ)

/-- The file system, and what it panicked with. -/
structure Sys where
  fs : Fs
  panic : Option Panic

variable (sb : Superblock)

/-- The file system as it comes up on an image. -/
def mount (d : Disk) : Fs where
  data := d
  logged := d
  held _ := none
  released := []
  inode _ := { Dinode.fresh 0 with inum := 0, ref := 0, valid := false }

/-- The callers' side: locked inodes are in use and loaded, inode numbers
and the other arguments have their types. -/
def Enabled (s : Fs) : Act → Prop
  | .ialloc type => type ≠ 0 ∧ type < 2 ^ 16
  | .iget _ => True
  | .idup ip => 0 < (s.inode ip).ref
  | .ilock ip => 0 < (s.inode ip).ref ∧ (s.inode ip).inum < sb.ninodes
  | .update ip major minor nlink => (0 < (s.inode ip).ref ∧ (s.inode ip).valid = true) ∧
      major < 2 ^ 16 ∧ minor < 2 ^ 16 ∧ nlink < 2 ^ 16
  | .writei ip _ off n => (0 < (s.inode ip).ref ∧ (s.inode ip).valid = true) ∧
      off < 2 ^ 32 ∧ n < 2 ^ 32
  | .itrunc ip => 0 < (s.inode ip).ref ∧ (s.inode ip).valid = true
  | .dirlink dp _ _ => 0 < (s.inode dp).ref ∧ (s.inode dp).valid = true
  | .iput ip => 0 < (s.inode ip).ref
  | .evict _ => True

instance (s : Fs) : (a : Act) → Decidable (Enabled sb s a)
  | .iget _ | .evict _ => isTrue trivial
  | .idup ip | .iput ip => inferInstanceAs (Decidable (0 < (s.inode ip).ref))
  | .ialloc _ | .ilock _ | .itrunc _ | .dirlink .. => inferInstanceAs (Decidable (_ ∧ _))
  | .update .. => inferInstanceAs (Decidable ((_ ∧ _) ∧ _ ∧ _ ∧ _))
  | .writei .. => inferInstanceAs (Decidable ((_ ∧ _) ∧ _ ∧ _))

/-- An operation as a program. -/
def Act.run : Act → Kern Fs Unit
  | ialloc type => do let _ ← Fs.ialloc sb type
  | iget inum => do let _ ← Fs.iget inum
  | idup ip => Fs.idup ip
  | ilock ip => Fs.ilock sb ip
  | update ip major minor nlink => do
    setInode ip fun i => { i with major, minor, nlink }
    iupdate sb ip
  | writei ip src off n => do let _ ← Fs.writei sb ip src off n
  | itrunc ip => Fs.itrunc sb ip
  | dirlink dp name inum => do let _ ← Fs.dirlink sb dp name inum
  | iput ip => Fs.iput sb ip
  | evict b => Prog.modify fun s => { s with data := Function.update s.data b (s.logged b) }

/-- One step. A panic stops the machine; the file system is then left as
the operation found it. -/
def Sys.next (s : Sys) (a : Act) : Sys :=
  match a.run sb s.fs with
  | .ok (_, t) => { fs := t, panic := none }
  | .error e => { s with panic := some e }

/-- Whether the free map marks block `b`. -/
def marked (d : Disk) (b : ℕ) : Bool := (d (sb.bblock b)).testBit (b % BPB)

/-- **A consistent image**: the free map marks the metadata and the blocks
owned, each owned once, and no block is missing below a file's size. -/
structure Image (d : Disk) : Prop where
  books : Ledger (place sb d) (fun b => marked sb d b = true) sb.nmeta sb.size
  dense : ∀ inum, inum < sb.ninodes → (dinode sb d inum).type ≠ 0 →
    Dense (dinode sb d inum) (place sb d) inum

/-- Transactions from a consistent image on. -/
def system : System Sys Act :=
  .guarded (fun s => ∃ d, Image sb d ∧ s = { fs := mount d, panic := none })
    (fun s a => s.panic = none ∧ Enabled sb s.fs a) (Sys.next sb)

/-- No block is owned twice, and the free map says which are. -/
structure Owned (d : Disk) : Prop where
  once : ∀ x y, place sb d x ≠ 0 → place sb d x = place sb d y → x = y
  map : ∀ b, b < sb.size → (marked sb d b = true ↔ b < sb.nmeta ∨ ∃ x, place sb d x = b)

variable {sb} {s t : Fs} {a : Act}

theorem Image.consistent {d : Disk} (h : Image sb d) : Consistent sb (mount d) :=
  ⟨⟨h.books, h.dense, fun _ => rfl, fun _ hb => absurd rfl hb⟩,
    fun _ hr => absurd hr (Nat.lt_irrefl 0), fun _ _ hr => absurd hr (Nat.lt_irrefl 0)⟩

/-! ## Recycling a buffer -/

/-- What was logged has the same places: only data blocks may differ. -/
theorem Sound.place_logged (h : Sound sb s) (hsb : sb.Ok) {d : Disk}
    (hd : ∀ b, d b = s.data b ∨ d b = s.logged b) : place sb d = place sb s.data := by
  have hsame : ∀ b, ¬ (sb.nmeta ≤ b ∧ ∀ n, place sb s.data (n, NDIRECT) ≠ b) → d b = s.data b := by
    intro b hb
    rcases hd b with hd | hd
    · exact hd
    · rw [hd]
      by_contra hne
      exact hb (h.loose b (Ne.symm hne))
  have hstart := hsb.start
  funext x
  exact place_of_low hsb (fun b hb => hsame b fun hc => by omega) fun _ =>
    hsame _ fun hc => hc.2 x.1 rfl

theorem Sound.low_logged (h : Sound sb s) {d : Disk} (hd : ∀ b, d b = s.data b ∨ d b = s.logged b)
    {c : ℕ} (hc : c < sb.nmeta) : d c = s.data c := by
  rcases hd c with he | he
  · exact he
  · rw [he]
    by_contra hne
    have := (h.loose c (Ne.symm hne)).1
    omega

theorem Consistent.evict (h : Consistent sb s) (hsb : sb.Ok) (b : ℕ)
    (hdata : t.data = update s.data b (s.logged b)) (hlogged : t.logged = s.logged)
    (hheld : t.held = s.held) (hinode : t.inode = s.inode) : Consistent sb t := by
  have hd : ∀ c, t.data c = s.data c ∨ t.data c = s.logged c := by
    intro c
    rw [hdata]
    by_cases hc : c = b
    · rw [hc, update_self]
      exact .inr rfl
    · rw [update_of_ne hc]
      exact .inl rfl
  have hplace := h.place_logged hsb hd
  have hstart := hsb.start
  have hino : ∀ inum, inum < sb.ninodes → dinode sb t.data inum = dinode sb s.data inum := by
    intro inum hlt
    have := hsb.inodes inum hlt
    rw [dinode, dinode, h.low_logged hd (by omega)]
  refine ⟨⟨?_, fun inum hlt ht => ?_, ?_, fun c hc => ?_⟩, fun j => ?_, ?_⟩
  · rw [hplace]
    exact h.books.congr fun c hc => by rw [bit, bit, h.low_logged hd (hsb.bitmap c hc)]
  · rw [hplace, hino inum hlt]
    rw [hino inum hlt] at ht
    exact h.dense inum hlt ht
  · rw [hheld]
    exact h.held
  · rw [hplace]
    rw [hlogged] at hc
    rcases hd c with he | he
    · exact h.loose c (he ▸ hc)
    · exact absurd he hc
  · unfold CopyAt
    rw [hinode]
    intro hr hv
    obtain ⟨hlt, htype, hsame⟩ := h.copy j hr hv
    exact ⟨hlt, htype, by rwa [hino _ hlt]⟩
  · unfold Unique
    rw [hinode]
    exact h.unique

/-! ## Every reachable state -/

variable (sb) in
/-- The operation leaves no change unlogged. -/
def LogsStep (s : Fs) : Act → Prop
  | .writei ip src off n => WriteLogs sb s ip src off n
  | _ => True

/-- **One operation**, from a consistent file system. -/
theorem Act.run_consistent (h : Consistent sb s) (hsb : sb.Ok) (ha : Enabled sb s a) :
    Hoare (· = s) (a.run sb)
      (fun _ t => Consistent sb t ∧ (LogsStep sb s a → Logs s t)) Fine := by
  cases a with
  | ialloc type =>
    exact (ialloc_consistent h hsb ha).bind fun _ => .pure fun _ ht => ⟨ht.1, fun _ => ht.2⟩
  | iget inum =>
    exact (iget_consistent h).bind fun _ => .pure fun _ ht => ⟨ht.1, fun _ => ht.2.1⟩
  | idup ip =>
    exact (idup_consistent h ha).conseq (fun _ => id) fun _ _ ht => ⟨ht.1, fun _ => ht.2⟩
  | ilock ip =>
    exact (ilock_consistent h ha.2 ha.1).conseq (fun _ => id) fun _ _ ht => ⟨ht.1, fun _ => ht.2⟩
  | update ip major minor nlink =>
    obtain ⟨hl, h1, h2, h3⟩ := ha
    have hf := (h.opened ⟨hl.1, hl.2⟩).fits
    exact (update_consistent h hsb ⟨hl.1, hl.2⟩ rfl rfl rfl rfl rfl
      ⟨hf.type, h1, h2, h3, hf.size, hf.addrs⟩).conseq (fun _ => id) fun _ _ ht =>
        ⟨ht.1, fun _ => ht.2⟩
  | writei ip src off n =>
    obtain ⟨hl, h1, h2⟩ := ha
    exact (writei_consistent h hsb ⟨hl.1, hl.2⟩ h1 h2).bind fun _ => .pure fun _ ht =>
      ⟨ht.1, ht.2.1⟩
  | itrunc ip =>
    exact (itrunc_consistent h hsb ⟨ha.1, ha.2⟩).conseq (fun _ => id) fun _ _ ht =>
      ⟨ht.1, fun _ => ht.2.1⟩
  | dirlink dp name inum =>
    exact (dirlink_consistent h hsb ⟨ha.1, ha.2⟩).bind fun _ => .pure fun _ ht =>
      ⟨ht.1, fun _ => ht.2⟩
  | iput ip =>
    exact (iput_consistent h hsb ha).conseq (fun _ => id) fun _ _ ht => ⟨ht.1, fun _ => ht.2⟩
  | evict b =>
    refine .modify ?_
    rintro _ rfl
    refine ⟨h.evict hsb b rfl rfl rfl rfl, fun _ => ⟨fun _ hr => .inl hr, fun c hc => ?_⟩⟩
    by_cases hcb : c = b
    · simp [hcb] at hc
    · simpa [hcb] using hc

theorem consistent_of_reachable {s : Sys} (hsb : sb.Ok) (h : (system sb).Reachable s) :
    Consistent sb s.fs ∧ ∀ e, s.panic = some e → Fine e := by
  refine h.invariant (I := fun s => Consistent sb s.fs ∧ ∀ e, s.panic = some e → Fine e) ?_ ?_
  · rintro _ ⟨d, hd, rfl⟩
    exact ⟨hd.consistent, nofun⟩
  · rintro s a _ - ⟨hc, -⟩ ⟨⟨-, ha⟩, rfl⟩
    have hrun := Act.run_consistent hc hsb ha
    unfold Sys.next
    cases hr : a.run sb s.fs with
    | ok r => exact ⟨(hrun.ok rfl hr).1, nofun⟩
    | error e =>
      refine ⟨hc, fun e' he => ?_⟩
      cases he
      exact hrun.error rfl hr

theorem Sound.owned (h : Sound sb s) (hsb : sb.Ok) {d : Disk}
    (hd : ∀ b, d b = s.data b ∨ d b = s.logged b) : Owned sb d := by
  refine ⟨?_, fun b hb => ?_⟩
  · rw [h.place_logged hsb hd]
    exact h.books.inj
  · rw [h.place_logged hsb hd, marked, h.low_logged hd (hsb.bitmap b hb)]
    exact h.books.used_iff b hb

/-! ## Crashes -/

/-- **What has been logged is a consistent image again.** -/
theorem Sound.image (h : Sound sb s) (hsb : sb.Ok) : Image sb s.logged := by
  have hd : ∀ b, s.logged b = s.data b ∨ s.logged b = s.logged b := fun _ => .inr rfl
  have hplace := h.place_logged hsb hd
  refine ⟨?_, fun inum hlt ht => ?_⟩
  · rw [hplace]
    exact h.books.congr fun b hb => by rw [marked, bit, h.low_logged hd (hsb.bitmap b hb)]
  · have hino : dinode sb s.logged inum = dinode sb s.data inum := by
      rw [dinode, dinode, h.low_logged hd ((hsb.inodes inum hlt).trans hsb.start)]
    rw [hplace, hino]
    exact h.dense inum hlt (hino ▸ ht)

variable (sb) in
/-- Transactions from the image `d` on, and crashes. A crash takes the
machine back to the last commit, so a run that goes on after it is one that
crashed right there: the kernel comes up on what was logged. -/
def crashing (d : Disk) : System Sys (Option Act) :=
  .guarded (· = ⟨mount d, none⟩) (fun s o => ∀ a ∈ o, s.panic = none ∧ Enabled sb s.fs a)
    fun s o => o.elim ⟨mount s.fs.logged, none⟩ (s.next sb)

/-- Crashes lead nowhere else. -/
theorem Image.crashing {d : Disk} {s : Sys} (h : Image sb d) (hsb : sb.Ok)
    (hs : (crashing sb d).Reachable s) : (system sb).Reachable s := by
  refine hs.invariant ?_ ?_
  · rintro _ rfl
    exact .init ⟨d, h, rfl⟩
  · rintro s (_ | a) _ - hr ⟨ha, rfl⟩
    · exact .init ⟨_, (consistent_of_reachable hsb hr).1.image hsb, rfl⟩
    · exact hr.step ⟨ha a rfl, rfl⟩

/-! ## A small image -/

/-- Six blocks: boot, inodes, free map, and three of data. -/
def smallSb : Superblock where
  size := 6
  nblocks := 3
  ninodes := 2
  inodestart := 1
  bmapstart := 2

/-- No inode is allocated; the free map marks blocks 0, 1 and 2. -/
def smallImage : Disk := fun b i => if b = 2 ∧ i.val = 0 then 7 else 0

/-- One page of sevens at address 0. -/
def smallPage : UserMem := fun va => if va = 0 then some fun _ => 7 else none

theorem smallSb_ok : smallSb.Ok := by
  refine ⟨fun inum h => ?_, fun b h => ?_, by decide, by decide⟩
  · simp only [smallSb, Superblock.iblock, IPB, BSIZE] at *
    omega
  · simp only [smallSb, Superblock.bblock, Superblock.nmeta, BPB, BSIZE] at *
    omega

theorem smallImage_place (x : ℕ × ℕ) : place smallSb smallImage x = 0 := by
  rw [place, if_neg]
  rintro ⟨hlt, htype, -⟩
  refine htype ?_
  have hblk : smallSb.iblock x.1 = 1 := by
    simp only [smallSb, Superblock.iblock, IPB, BSIZE] at *
    omega
  rw [dinode, hblk]
  exact Bytes.readLE_zero ..

theorem smallImage_ok : Image smallSb smallImage := by
  have hmap : ∀ b, b < smallSb.size → marked smallSb smallImage b = decide (b < smallSb.nmeta) := by
    decide
  refine ⟨⟨by decide, fun x _ hx => absurd (smallImage_place x) hx,
    fun x hx => absurd (smallImage_place x) hx, fun b hb => ?_⟩, fun inum hlt ht => ?_⟩
  · rw [hmap b hb, decide_eq_true_iff]
    refine ⟨.inl, fun h => h.elim id ?_⟩
    rintro ⟨x, rfl⟩
    rw [smallImage_place]
    decide
  · have hzero : (dinode smallSb smallImage inum).type = 0 := by
      have : inum = 0 ∨ inum = 1 := by
        simp only [smallSb] at hlt
        omega
      rcases this with rfl | rfl <;> exact Bytes.readLE_zero ..
    exact absurd hzero ht

/-- What can be computed of a run from there is so of a reachable state. -/
theorem small_run {P : Sys → Prop} [DecidablePred P] (acts : List Act)
    (h : (System.follow (fun (s : Sys) a => s.panic = none ∧ Enabled smallSb s.fs a)
      (Sys.next smallSb) { fs := mount smallImage, panic := none } acts).any fun s =>
        decide (P s)) :
    ∃ s, (system smallSb).Reachable s ∧ P s :=
  System.exists_of_follow ⟨_, smallImage_ok, rfl⟩ acts h

/-- **Block ownership.** In every state reachable from a consistent image,
as the buffers show it and as it was logged, no block is owned twice and
the free map marks the metadata blocks and the blocks owned; `bfree` never
finds a free block, and `bmap` is never asked for a block out of range. -/
theorem block_ownership {s : Sys} (hsb : sb.Ok) (h : (system sb).Reachable s) :
    Owned sb s.fs.data ∧ Owned sb s.fs.logged ∧
      s.panic ≠ some .freeingFreeBlock ∧ s.panic ≠ some .bmapOutOfRange := by
  obtain ⟨hc, hfine⟩ := consistent_of_reachable hsb h
  exact ⟨hc.owned hsb fun _ => .inl rfl, hc.owned hsb fun _ => .inr rfl,
    fun he => (hfine _ he).1 rfl, fun he => (hfine _ he).2 rfl⟩

/-- A file created, and written from user memory that ends after six of
twenty bytes: block 3 is owned by a file of size 0. -/
theorem block_ownership_failed_write : ∃ s, (system smallSb).Reachable s ∧
    place smallSb s.fs.data (1, 0) = 3 ∧ (dinode smallSb s.fs.data 1).size = 0 ∧
    Owned smallSb s.fs.data ∧ Owned smallSb s.fs.logged ∧
      s.panic ≠ some .freeingFreeBlock ∧ s.panic ≠ some .bmapOutOfRange := by
  obtain ⟨s, hs, hp, hz⟩ := small_run (P := fun s =>
      place smallSb s.fs.data (1, 0) = 3 ∧ (dinode smallSb s.fs.data 1).size = 0)
    [.ialloc 2, .ilock 0, .writei 0 (.user smallPage 4090) 0 20] (by decide +kernel)
  exact ⟨s, hs, hp, hz, block_ownership smallSb_ok hs⟩

end Fs

end Xv6
