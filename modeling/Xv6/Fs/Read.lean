import Xv6.Fs.Consistent
/-!
# Reading a file — `readi`

Where every block of a range is there, `bmap` allocates nothing, and
reading returns the bytes of the file and leaves the file system as it is.
Below the size of a consistent file every block is there. The only way to
stop is to wait for a buffer the caller itself has in use.
-/

namespace Xv6

open Common

namespace Fs

variable {sb : Superblock} {s t : Fs} {ip : Fin NINODE} {bn n : ℕ} {E : Panic → Prop}

theorem addrAlloc_owned {i : ℕ} (h : (s.inode ip).addrs i ≠ 0) :
    Hoare (· = s) (addrAlloc sb ip i) (fun b t => b = (s.inode ip).addrs i ∧ t = s) E := by
  refine .gets_bind (.ite (fun h0 => absurd h0 h) fun _ => .pure ?_)
  rintro _ rfl
  exact ⟨rfl, rfl⟩

/-- **Looking up a block that is there** finds it and changes nothing. -/
theorem bmap_owned (hE : ¬ s.Idle → E .selfDeadlock) (hbn : bn < MAXFILE)
    (h : s.fileBlock sb ip bn ≠ 0) :
    Hoare (· = s) (bmap sb ip bn) (fun b t => b = s.fileBlock sb ip bn ∧ Peeked s t) E := by
  have hslot := slotOf_lt hbn
  unfold fileBlock at h ⊢
  rw [places, placeWith_self hslot] at h ⊢
  unfold bmap
  refine .ite (fun h1 => ?_) fun h1 => .ite (fun h2 => ?_) fun h2 => ?_
  · rw [slotOf, if_pos h1, slot_of_le (Nat.le_of_lt h1)] at h ⊢
    refine (addrAlloc_owned h).conseq (fun _ => id) ?_
    rintro _ _ ⟨rfl, rfl⟩
    exact ⟨rfl, Peeked.refl _⟩
  · have hind : (s.inode ip).addrs NDIRECT ≠ 0 := by
      intro h0
      rw [slotOf, if_neg h1, slot_of_no_indirect h0 (by omega)] at h
      exact h rfl
    have hk : slotOf bn = NDIRECT + 1 + (bn - NDIRECT) := by
      rw [slotOf, if_neg h1]
      omega
    rw [hk, slot_entry hind] at h ⊢
    refine (addrAlloc_owned hind).bind fun b => .pointwise ?_
    rintro _ ⟨rfl, rfl⟩
    refine (bread_reads hE).bind fun _ => .pointwise ?_
    rintro _ ⟨hfree, rfl⟩
    refine .gets_bind (.ite (fun h0 => absurd h0 h) fun _ => ?_)
    refine .run_eq (.pure ?_) (brelse_take hfree _)
    rintro _ rfl
    exact ⟨rfl, peeked_peek _ _⟩
  · simp only [MAXFILE] at hbn
    omega

/-! ## The bytes read -/

theorem Peeked.fileBlock (h : Peeked s t) (k : ℕ) : t.fileBlock sb ip k = s.fileBlock sb ip k := by
  unfold Fs.fileBlock places
  rw [h.inode, h.data]

theorem Peeked.idle (h : Peeked s t) : t.Idle ↔ s.Idle := by
  unfold Idle
  rw [h.held]

variable (sb) in
/-- The `n` bytes of the file from `off` on. -/
def bytes (s : Fs) (ip : Fin NINODE) (off n : ℕ) : List UInt8 :=
  (List.range n).map fun i => s.fileByte sb ip (off + i)

@[simp] theorem length_bytes (off : ℕ) : (s.bytes sb ip off n).length = n := by
  simp [bytes]

theorem bytes_append (off m : ℕ) :
    s.bytes sb ip off m ++ s.bytes sb ip (off + m) n = s.bytes sb ip off (m + n) := by
  unfold bytes
  rw [List.range_add, List.map_append, List.map_map]
  congr 2
  funext i
  simp only [Function.comp_apply]
  congr 1
  omega

/-- The bytes of one block. -/
theorem bytes_block {off m : ℕ} (h : s.fileBlock sb ip (off / BSIZE) ≠ 0)
    (hm : m ≤ BSIZE - off % BSIZE) :
    (List.range m).map (fun i =>
      (s.data (s.fileBlock sb ip (off / BSIZE))).get (off % BSIZE + i)) = s.bytes sb ip off m := by
  refine List.map_congr_left fun i hi => ?_
  rw [List.mem_range] at hi
  have hdiv : (off + i) / BSIZE = off / BSIZE := by
    simp only [BSIZE] at *
    omega
  have hmod : (off + i) % BSIZE = off % BSIZE + i := by
    simp only [BSIZE] at *
    omega
  rw [fileByte_of_ne (by rwa [hdiv]), hdiv, hmod]

variable (sb) in
/-- The blocks that hold the range from `off` to `last` are there. -/
def Backed (s : Fs) (ip : Fin NINODE) (off last : ℕ) : Prop :=
  ∀ p, off ≤ p → p < last → p / BSIZE < MAXFILE ∧ s.fileBlock sb ip (p / BSIZE) ≠ 0

theorem Backed.mono {off last off' last' : ℕ} (h : s.Backed sb ip off last) (hoff : off ≤ off')
    (hlast : last' ≤ last) : s.Backed sb ip off' last' :=
  fun p h1 h2 => h p (by omega) (by omega)

theorem Dense.backed (h : Dense (s.inode ip).toDinode (s.places sb ip) (s.inode ip).inum) :
    s.Backed sb ip 0 (s.inode ip).size := by
  intro p _ hp
  have hdiv : p / BSIZE * BSIZE ≤ p := Nat.div_mul_le_self ..
  have hmax := h.size_le
  refine ⟨?_, h.block _ (by omega)⟩
  rw [Nat.div_lt_iff_lt_mul (by decide)]
  omega

/-- **One block of the file** is looked up, read and released. -/
theorem bmap_reads {α : Type} {k : Block → Kern Fs α} {Q : α → Fs → Prop}
    (hE : ¬ s.Idle → E .selfDeadlock) (hbn : bn < MAXFILE) (h : s.fileBlock sb ip bn ≠ 0)
    (hk : Hoare (Peeked s) (k (s.data (s.fileBlock sb ip bn))) Q E) :
    Hoare (Peeked s) (do
      let b ← bmap sb ip bn
      bread b
      let blk ← getData b
      brelse b
      k blk) Q E := by
  refine .pointwise fun t ht => ?_
  have hbmap : Hoare (· = t) (bmap sb ip bn) (fun b u => b = t.fileBlock sb ip bn ∧ Peeked t u) E :=
    bmap_owned (fun hi => hE fun hc => hi (ht.idle.2 hc)) hbn (by rwa [ht.fileBlock])
  refine hbmap.bind fun b => .pointwise ?_
  rintro u ⟨rfl, hu⟩
  have hsu := ht.trans hu
  rw [ht.fileBlock]
  refine (bread_reads fun hi => hE fun hc => hi (hsu.idle.2 hc)).bind fun _ => .pointwise ?_
  rintro _ ⟨hfree, rfl⟩
  refine .gets_bind (.run_eq ?_ (brelse_take hfree _))
  rw [take_data, hsu.data]
  refine hk.conseq ?_ fun _ _ => id
  rintro _ rfl
  exact hsu.trans (peeked_peek _ _)

/-- **The loop of `readi`.** -/
theorem readiLoop_reads {fuel tot off : ℕ} (hE : ¬ s.Idle → E .selfDeadlock)
    (hfuel : n ≤ tot + fuel) (hb : s.Backed sb ip off (off + (n - tot))) :
    Hoare (Peeked s) (readiLoop sb ip n fuel tot off)
      (fun l t => l = s.bytes sb ip off (n - tot) ∧ Peeked s t) E := by
  induction fuel generalizing tot off with
  | zero =>
    refine .pure fun t ht => ⟨?_, ht⟩
    rw [show n - tot = 0 by omega]
    rfl
  | succ fuel ih =>
    rw [readiLoop]
    refine .ite (fun hlt => ?_) fun hge => .pure fun t ht => ⟨?_, ht⟩
    · have hmod : off % BSIZE < BSIZE := Nat.mod_lt _ (by decide)
      obtain ⟨hlast, hthere⟩ := hb off le_rfl (by omega)
      generalize hm : min (n - tot) (BSIZE - off % BSIZE) = m
      refine bmap_reads hE hlast hthere ?_
      refine (@ih (tot + m) (off + m) (by omega) (hb.mono (by omega) (by omega))).bind fun l =>
        Hoare.pure ?_
      rintro v ⟨rfl, hv⟩
      refine ⟨?_, hv⟩
      rw [bytes_block hthere (by omega), bytes_append]
      congr 1
      omega
    · rw [show n - tot = 0 by omega]
      rfl

/-- How many bytes `readi` of `n` bytes at `off` returns, from a file of
the size. -/
def readLength (size off n : ℕ) : ℕ := if off + n < 2 ^ 32 then min n (size - off) else 0

theorem readLength_of_past {size off : ℕ} (hn : n < 2 ^ 32)
    (h : size < off ∨ (off + n) % 2 ^ 32 < off) : readLength size off n = 0 := by
  unfold readLength
  split <;> omega

theorem readLength_eq {size off : ℕ} (hsize : size < 2 ^ 32) (hn : n < 2 ^ 32)
    (h : ¬ (size < off ∨ (off + n) % 2 ^ 32 < off)) :
    (if size < (off + n) % 2 ^ 32 then size - off else n) = readLength size off n := by
  unfold readLength
  split <;> split <;> omega

/-- **`readi`** returns the bytes of the file, as far as it goes, and
leaves the file system as it is. -/
theorem readi_reads {off : ℕ} (hE : ¬ s.Idle → E .selfDeadlock) (hn : n < 2 ^ 32)
    (hmax : (s.inode ip).size ≤ MAXFILE * BSIZE)
    (hb : s.Backed sb ip off (off + readLength (s.inode ip).size off n)) :
    Hoare (Peeked s) (readi sb ip off n)
      (fun l t => l = s.bytes sb ip off (readLength (s.inode ip).size off n) ∧ Peeked s t) E := by
  refine .pointwise fun t ht => .gets_bind ?_
  have hinode : t.inode ip = s.inode ip := by rw [ht.inode]
  rw [hinode]
  simp only [MAXFILE, NDIRECT, NINDIRECT, BSIZE] at hmax
  refine .ite (fun hc => .pure ?_) fun hc => ?_
  · rintro _ rfl
    refine ⟨?_, ht⟩
    rw [readLength_of_past hn hc]
    rfl
  · rw [readLength_eq (by omega) hn hc]
    refine (readiLoop_reads hE (by omega) (hb.mono le_rfl (by omega))).conseq ?_ fun _ _ => id
    rintro _ rfl
    exact ht

/-- On a file with no block missing, nothing more is needed. -/
theorem readi_peeked {off : ℕ}
    (hd : Dense (s.inode ip).toDinode (s.places sb ip) (s.inode ip).inum) (hn : n < 2 ^ 32) :
    Hoare (Peeked s) (readi sb ip off n) (fun _ t => Peeked s t) (· = .selfDeadlock) := by
  have hb : s.Backed sb ip off (off + readLength (s.inode ip).size off n) := by
    intro p h1 h2
    refine hd.backed p (Nat.zero_le _) ?_
    unfold readLength at h2
    split at h2 <;> omega
  have hE : ¬ s.Idle → Panic.selfDeadlock = .selfDeadlock := fun _ => rfl
  exact (readi_reads (E := (· = .selfDeadlock)) hE hn hd.size_le hb).conseq (fun _ => id)
    fun _ _ h => h.2

end Fs

end Xv6
