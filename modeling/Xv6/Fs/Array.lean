import Xv6.Common.Patch
import Xv6.Common.Simulate
import Xv6.Fs.Room
import Xv6.Fs.System
/-!
# A file is an array of bytes — `readi` and `writei`

The contents of a file are the list of its bytes below its size. On a
consistent file system with room for it, `writei` patches the list and
`readi` delivers part of it, and neither touches another file.
-/

namespace Xv6

open Common List

/-! ## The destination of a read -/

namespace Dest

variable {dst : Dest} {tot len i : ℕ} {f : ℕ → UInt8}

/-- The byte `i` of the destination, if it is there. -/
def byte (dst : Dest) (i : ℕ) : Option UInt8 :=
  match dst with
  | kernel mem => some (mem i)
  | user um va => um.byteAt (va + i)

/-- The first `n` bytes of the destination are there. -/
def Writable (dst : Dest) (n : ℕ) : Prop := ∀ i, i < n → (dst.byte i).isSome

/-- The destination with its first bytes replaced by `f`. -/
def Filled (dst dst' : Dest) (n : ℕ) (f : ℕ → UInt8) : Prop :=
  ∀ i, i < 2 ^ 64 → dst'.byte i = if i < n then some (f i) else dst.byte i

/-- **What `either_copyout` does to a destination that is there.** -/
theorem copyout_eq (hw : ∀ i, i < len → (dst.byte (tot + i)).isSome) (hlen : tot + len ≤ 2 ^ 64) :
    (dst.copyout tot f len).1 = true ∧ ∀ i, i < 2 ^ 64 → (dst.copyout tot f len).2.byte i =
      if tot ≤ i ∧ i < tot + len then some (f (i - tot)) else dst.byte i := by
  cases dst with
  | kernel mem =>
    refine ⟨rfl, fun i _ => ?_⟩
    simp only [copyout, byte]
    split <;> rfl
  | user um va =>
    have hmod : ∀ i, um.byteAt ((va + tot) % 2 ^ 64 + i) = um.byteAt (va + (tot + i)) := fun i =>
      UserMem.byteAt_congr (by omega)
    have hread : um.readable ((va + tot) % 2 ^ 64) len = len := by
      refine UserMem.readable_eq fun i hi => ?_
      rw [hmod]
      exact hw i hi
    obtain ⟨hok, hbytes⟩ := @UserMem.copyout_eq um len _ f
      (Nat.mod_lt (va + tot) (by decide : 0 < 2 ^ 64)) (by omega)
    rw [hread] at hok hbytes
    refine ⟨by simpa [copyout] using hok, fun i hi => ?_⟩
    have hb := hbytes ((va + i) % 2 ^ 64) (Nat.mod_lt _ (by decide))
    have hself : ∀ u : UserMem, u.byteAt ((va + i) % 2 ^ 64) = u.byteAt (va + i) := fun u =>
      UserMem.byteAt_congr (Nat.mod_mod _ _)
    rw [hself, hself] at hb
    have hdist : UserMem.dist ((va + tot) % 2 ^ 64) ((va + i) % 2 ^ 64) =
        (i + 2 ^ 64 - tot) % 2 ^ 64 := by
      unfold UserMem.dist
      omega
    rw [hdist] at hb
    change (um.copyout ((va + tot) % 2 ^ 64) f len).2.byteAt (va + i) = _
    rw [hb]
    by_cases hin : tot ≤ i ∧ i < tot + len
    · rw [if_pos hin, if_pos (by omega), show (i + 2 ^ 64 - tot) % 2 ^ 64 = i - tot by omega]
    · rw [if_neg hin, if_neg (by omega)]
      rfl

/-- The next bytes of a destination whose first bytes are a list. -/
theorem Filled.copyout {dst₀ : Dest} {l : List UInt8} {n : ℕ} (hw : dst₀.Writable n)
    (hn : n ≤ 2 ^ 64) (hlen : l.length + len ≤ n) (h : dst₀.Filled dst l.length (l.getD · 0)) :
    (dst.copyout l.length f len).1 = true ∧ dst₀.Filled (dst.copyout l.length f len).2
      (l ++ (range len).map f).length ((l ++ (range len).map f).getD · 0) := by
  have hthere : ∀ i, i < len → (dst.byte (l.length + i)).isSome := fun i hi => by
    rw [h _ (by omega), if_neg (by omega)]
    exact hw _ (by omega)
  obtain ⟨hok, hbytes⟩ := copyout_eq hthere (by omega) (f := f)
  refine ⟨hok, fun i hi => ?_⟩
  rw [hbytes i hi, h i hi, length_append, length_map, length_range]
  beta_reduce
  by_cases h1 : i < l.length
  · rw [if_neg (by omega), if_pos h1, if_pos (by omega), getD_append _ _ _ _ h1]
  by_cases h2 : i < l.length + len
  · rw [if_pos (by omega), if_pos h2, getD_append_right _ _ _ _ (by omega), getD_eq_getElem?_getD,
      getElem?_map, getElem?_range (by omega)]
    rfl
  · rw [if_neg (by omega), if_neg h1, if_neg h2]

end Dest

namespace Fs

variable {sb : Superblock} {s t u : Fs} {ip : Fin NINODE} {src : Source} {dst : Dest}
  {inum off n last : ℕ}

/-! ## Contents -/

variable (sb) in
/-- **The contents of a file**, read off its cached inode. -/
def contents (s : Fs) (ip : Fin NINODE) : List UInt8 := s.bytes sb ip 0 (s.inode ip).size

variable (sb) in
/-- The byte at offset `p` of an inode on disk. -/
def diskByte (d : Disk) (inum p : ℕ) : UInt8 :=
  if place sb d (inum, slotOf (p / BSIZE)) = 0 then 0
  else (d (place sb d (inum, slotOf (p / BSIZE)))).get (p % BSIZE)

variable (sb) in
/-- The contents of a file, read off the disk. -/
def diskContents (d : Disk) (inum : ℕ) : List UInt8 :=
  (List.range (dinode sb d inum).size).map (diskByte sb d inum)

/-- On a consistent file system the two are the same. -/
theorem Consistent.contents_eq (h : Consistent sb s) (hl : s.Live ip) :
    s.contents sb ip = diskContents sb s.data (s.inode ip).inum := by
  obtain ⟨-, -, hsame⟩ := h.copy ip hl.ref hl.valid
  unfold contents diskContents bytes
  rw [hsame.size]
  refine map_congr_left fun p _ => ?_
  unfold fileByte diskByte fileBlock
  rw [h.places_eq hl, Nat.zero_add]

variable (sb) in
/-- The other inodes are as they were, in memory and on disk, and so are
their contents. -/
structure Apart (s t : Fs) (ip : Fin NINODE) : Prop where
  inode : ∀ j, j ≠ ip → t.inode j = s.inode j
  dinode : ∀ inum, inum ≠ (s.inode ip).inum → inum < sb.ninodes →
    (dinode sb t.data inum).Same (dinode sb s.data inum)
  contents : ∀ inum, inum ≠ (s.inode ip).inum → inum < sb.ninodes →
    diskContents sb t.data inum = diskContents sb s.data inum

/-! ## Writing -/

theorem grown_eq (i : Inode) (last : ℕ) : grown i last = { i with size := max i.size last } := by
  unfold grown
  split
  · rw [max_eq_right (Nat.le_of_lt ‹_›)]
  · rw [max_eq_left (Nat.not_lt.1 ‹_›)]

@[simp] theorem closed_inode : (u.closed sb ip last).inode ip =
    { u.inode ip with size := max (u.inode ip).size last } := by
  rw [closed, put_inode, withInode_inode, grown_eq]

theorem closed_inode_of_ne {j : Fin NINODE} (h : j ≠ ip) :
    (u.closed sb ip last).inode j = u.inode j := by
  rw [closed, put_inode, withInode_of_ne _ h]

/-- Storing the inode leaves every data block alone. -/
theorem closed_data (hsb : sb.Ok) (hlt : (u.inode ip).inum < sb.ninodes) {b : ℕ}
    (hb : sb.bmapstart ≤ b) : (u.closed sb ip last).data b = u.data b := by
  have := hsb.inodes _ hlt
  rw [closed, put_data, withInode_inode, grown_eq, Function.update_of_ne (by dsimp only; omega)]
  rfl

theorem closed_dinode_of_ne (hne : inum ≠ (u.inode ip).inum) :
    (dinode sb (u.closed sb ip last).data inum).Same (dinode sb u.data inum) := by
  have hinum : ((u.withInode ip (grown (u.inode ip) last)).inode ip).inum = (u.inode ip).inum := by
    rw [withInode_inode, grown_eq]
  exact dinode_store_of_ne (by rwa [hinum])

/-- Nor does it move a block. -/
theorem closed_places (hsb : sb.Ok) (hP : Books sb u (u.places sb ip))
    (hlt : (u.inode ip).inum < sb.ninodes) :
    (u.closed sb ip last).places sb ip = u.places sb ip := by
  have hstart := hsb.start
  have hind : ∀ x, u.places sb ip x ≠ 0 →
      (u.closed sb ip last).data (u.places sb ip x) = u.data (u.places sb ip x) := by
    intro x hx
    have := (hP.range x hx).1
    exact closed_data hsb hlt (by omega)
  funext x
  unfold places placeWith
  rw [closed_inode]
  dsimp only
  by_cases hx : x.1 = (u.inode ip).inum
  · rw [if_pos hx, if_pos hx]
    split
    · refine slot_congr (fun _ _ => rfl) (fun h0 => ?_) x.2
      rw [← places_indirect sb u ip] at h0 ⊢
      exact hind _ h0
    · rfl
  · rw [if_neg hx, if_neg hx]
    refine place_congr (closed_dinode_of_ne hx) fun h0 => ?_
    have hp : u.places sb ip (x.1, NDIRECT) = place sb u.data (x.1, NDIRECT) := placeWith_of_ne hx
    rw [← hp] at h0 ⊢
    exact hind _ h0

variable (sb) in
/-- **What `writei` has done** when it returns without having turned the
call down: as much of the source as could be copied is in the file, and the
size covers it up to `last`. -/
structure Stored (s t : Fs) (ip : Fin NINODE) (src : Source) (off n last : ℕ) : Prop
    extends Apart sb s t ip where
  self : t.inode ip =
    { s.inode ip with size := max (s.inode ip).size last, addrs := (t.inode ip).addrs }
  bytes : ∀ p, t.fileByte sb ip p =
    if off ≤ p ∧ p < off + src.readable 0 n then src.byte (p - off) else s.fileByte sb ip p
  last_le : last ≤ off + src.readable 0 n
  all : src.readable 0 n = n → last = off + n

/-- Where no place of an inode and no block of it changes, its contents do
not. -/
theorem diskContents_congr {d d' : Disk} (hino : (dinode sb d' inum).Same (dinode sb d inum))
    (hplace : ∀ i, place sb d' (inum, i) = place sb d (inum, i))
    (hdata : ∀ i, place sb d (inum, i) ≠ 0 → d' (place sb d (inum, i)) = d (place sb d (inum, i))) :
    diskContents sb d' inum = diskContents sb d inum := by
  unfold diskContents
  rw [hino.size]
  refine map_congr_left fun p _ => ?_
  unfold diskByte
  rw [hplace]
  split
  · rfl
  · rw [hdata _ ‹_›]

theorem Apart.refl (s : Fs) : Apart sb s s ip :=
  ⟨fun _ _ => rfl, fun _ _ _ => Dinode.Same.refl _, fun _ _ _ => rfl⟩

theorem Stored.refl (hoff : off ≤ (s.inode ip).size) : Stored sb s s ip src off 0 off := by
  have hread : src.readable 0 0 = 0 := Nat.le_zero.1 Source.readable_le
  refine ⟨Apart.refl s, ?_, fun p => ?_, by omega, fun _ => rfl⟩
  · rw [max_eq_left hoff]
  · rw [if_neg (by omega)]

/-- **The loop and the inode stored.** -/
theorem Wrote.stored (hw : Wrote sb s u ip src off n last) (hsb : sb.Ok)
    (hlt : (s.inode ip).inum < sb.ninodes) : Stored sb s (u.closed sb ip last) ip src off n last := by
  have hwork := hw.writing.works
  have hinum := hwork.inum_eq
  have hlt' : (u.inode ip).inum < sb.ninodes := by rwa [hinum]
  have hstart := hsb.start
  have hplaces : (u.closed sb ip last).places sb ip = u.places sb ip :=
    closed_places hsb hwork.books hlt'
  have hdata : ∀ x, u.places sb ip x ≠ 0 →
      (u.closed sb ip last).data (u.places sb ip x) = u.data (u.places sb ip x) := by
    intro x hx
    have := (hwork.books.range x hx).1
    exact closed_data hsb hlt' (by omega)
  have hdinode : ∀ inum, inum ≠ (s.inode ip).inum → inum < sb.ninodes →
      (dinode sb (u.closed sb ip last).data inum).Same (dinode sb s.data inum) := by
    intro inum hne hi
    have h1 : (dinode sb (u.closed sb ip last).data inum).Same (dinode sb u.data inum) :=
      closed_dinode_of_ne (by rwa [hinum])
    rwa [show dinode sb u.data inum = dinode sb s.data inum by
      rw [dinode, dinode, hwork.low _ (hsb.inodes _ hi)]] at h1
  refine ⟨⟨fun j hj => ?_, hdinode, fun inum hne hi => ?_⟩, ?_, fun p => ?_, hw.last_le, hw.all⟩
  · rw [closed_inode_of_ne hj, hwork.others j hj]
  · -- another inode: its places are those of the ledger, and nothing in them has moved
    have hplace : ∀ d : Fs, d.inode ip = u.inode ip ∨ d.inode ip = s.inode ip ∨
        (d.inode ip).inum = (s.inode ip).inum → ∀ i, place sb d.data (inum, i) =
          d.places sb ip (inum, i) := by
      intro d hd i
      refine (placeWith_of_ne ?_).symm
      rcases hd with hd | hd | hd
      · rwa [hd, hinum]
      · rwa [hd]
      · rwa [hd]
    have hsame : ∀ i, (u.closed sb ip last).places sb ip (inum, i) = s.places sb ip (inum, i) := by
      intro i
      rw [hplaces, hwork.other _ hne]
    have hclosed : ((u.closed sb ip last).inode ip).inum = (s.inode ip).inum := by
      rw [closed_inode, ← hinum]
    refine diskContents_congr (hdinode inum hne hi) (fun i => ?_) fun i h0 => ?_
    · rw [hplace _ (.inr (.inr hclosed)), hplace s (.inr (.inl rfl)), hsame]
    · rw [hplace s (.inr (.inl rfl))] at h0 ⊢
      have hu : u.places sb ip (inum, i) = s.places sb ip (inum, i) := hwork.other _ hne
      have := hdata (inum, i) (by rwa [hu])
      rw [hu] at this
      rw [this, hw.writing.rest _ hne h0]
  · rw [closed_inode, hwork.inode]
  · have hblock : ∀ k, (u.closed sb ip last).fileBlock sb ip k = u.fileBlock sb ip k := by
      intro k
      rw [fileBlock, fileBlock, hplaces, closed_inode]
    rw [← hw.writing.bytes p]
    unfold fileByte
    rw [hblock]
    split
    · rfl
    · rw [fileBlock, hdata _ ‹_›]

/-- **`writei`**, in terms of what it stores. -/
theorem writei_stored {E : Panic → Prop} (h : Consistent sb s) (hsb : sb.Ok) (hl : s.Live ip)
    (hoff : off < 2 ^ 32) (hn : n < 2 ^ 32)
    (hbmap : ¬ s.Rejects ip off n → ∀ tot u e, tot < n → Writing sb s u ip src off tot →
      bmap sb ip ((off + tot) / BSIZE) u = .error e → E e) :
    Hoare (· = s) (writei sb ip src off n)
      (fun r t => s.Rejects ip off n ∧ r = -1 ∧ t = s ∨ ¬ s.Rejects ip off n ∧ r = n ∧
        Consistent sb t ∧ t.Live ip ∧ ∃ last, Stored sb s t ip src off n last) E := by
  have hP := (h.opened hl).books
  obtain ⟨hlt, -, -⟩ := h.copy ip hl.ref hl.valid
  refine (writei_wrote hsb hP (fun hi => absurd h.held hi) hbmap).conseq (fun _ => id) ?_
  rintro r t (hr | ⟨hnot, rfl, hcase⟩)
  · exact .inl hr
  obtain ⟨hoff', hmax⟩ := not_rejects hoff hn hnot
  rcases hcase with ⟨rfl, rfl⟩ | ⟨-, u, last, hu, rfl⟩
  · exact .inr ⟨hnot, rfl, h, hl, off, Stored.refl hoff'⟩
  have hst := hu.stored hsb hlt
  refine .inr ⟨hnot, rfl, hu.close h hsb hl hoff' hmax, ⟨?_, ?_⟩, last, hst⟩
  · rw [hst.self]
    exact hl.ref
  · rw [hst.self]
    exact hl.valid

/-- When the whole source could be copied, the contents are patched. -/
theorem Stored.contents_eq (h : Stored sb s t ip src off n last) (hread : src.readable 0 n = n)
    (hoff : off ≤ (s.inode ip).size) :
    t.contents sb ip = patch (s.contents sb ip) off ((List.range n).map src.byte) := by
  have hsize : (t.inode ip).size = max (s.inode ip).size (off + n) := by
    rw [h.self, h.all hread]
  unfold contents Fs.bytes
  rw [hsize, ← map_range_patch hoff]
  refine map_congr_left fun p _ => ?_
  rw [Nat.zero_add, h.bytes, hread]

/-! ## Reading -/

/-- **The loop of `readi`** puts the bytes it reads into memory that is there,
side by side. -/
theorem readiToLoop_simulates {fuel : ℕ} {dst₀ : Dest} {l : List UInt8} (hw : dst₀.Writable n)
    (hn : n ≤ 2 ^ 64) (h : dst₀.Filled dst l.length (l.getD · 0)) :
    Simulates (readiToLoop sb ip n fuel dst l.length off) s (readiLoop sb ip n fuel l.length off) s
      (fun r s' l' t' => s' = t' ∧ r.1 = (l ++ l').length ∧
        dst₀.Filled r.2 (l ++ l').length ((l ++ l').getD · 0)) fun _ => True := by
  induction fuel generalizing s dst l off with
  | zero =>
    rw [readiToLoop, readiLoop]
    exact .of_ok rfl rfl (by simpa using h)
  | succ fuel ih =>
    rw [readiToLoop, readiLoop]
    split
    · refine .bind_same fun b _ => .bind_same fun _ _ => .bind_same fun blk _ => ?_
      have hlen : l.length + min (n - l.length) (BSIZE - off % BSIZE) ≤ n := by omega
      obtain ⟨hok, hfill⟩ := h.copyout hw hn hlen (f := fun i => blk.get (off % BSIZE + i))
      simp only [hok, if_true]
      refine .bind_same fun _ u => ?_
      have hnext := @ih u _ (off + min (n - l.length) (BSIZE - off % BSIZE)) _ hfill
      rw [length_append, length_map, length_range] at hnext
      rw [← bind_pure (readiToLoop _ _ _ _ _ _ _)]
      exact .bind (hnext.mono fun r _ rest _ hr => .of_ok rfl rfl (by simpa using hr))
    · exact .of_ok rfl rfl (by simpa using h)

/-- **`readi` into memory that is there** puts the bytes read at its start. -/
theorem readiTo_simulates (hsize : (s.inode ip).size < 2 ^ 32) (hn : n < 2 ^ 32)
    (hw : dst.Writable (readLength (s.inode ip).size off n)) :
    Simulates (readiTo sb ip dst off n) s (readi sb ip off n) s
      (fun r s' l t' => s' = t' ∧ r.1 = l.length ∧ dst.Filled r.2 l.length (l.getD · 0))
      fun _ => True := by
  have hfill : dst.Filled dst ([] : List UInt8).length (([] : List UInt8).getD · 0) := fun i _ =>
    (if_neg (Nat.not_lt_zero i)).symm
  refine .bind (.of_ok rfl rfl ?_)
  split
  · exact .of_ok rfl rfl ⟨rfl, rfl, hfill⟩
  · rename_i hc
    rw [readLength_eq hsize hn hc]
    refine readiToLoop_simulates hw ?_ hfill
    unfold readLength
    split <;> omega

/-- So it returns the bytes of the file, as far as it goes. -/
theorem readiTo_reads {E : Panic → Prop} (h : Consistent sb s) (hl : s.Live ip) (hn : n < 2 ^ 32)
    (hw : dst.Writable (readLength (s.inode ip).size off n)) :
    Hoare (· = s) (readiTo sb ip dst off n)
      (fun r t => r.1 = readLength (s.inode ip).size off n ∧
        dst.Filled r.2 (readLength (s.inode ip).size off n) (fun i => s.fileByte sb ip (off + i)) ∧
        Peeked s t) E := by
  have hdense := h.dense_live hl
  have hmax := hdense.size_le
  have hb : s.Backed sb ip off (off + readLength (s.inode ip).size off n) := fun p h1 h2 =>
    hdense.backed p (Nat.zero_le _) (by unfold readLength at h2; split at h2 <;> omega)
  have hreads : Hoare (· = s) (readi sb ip off n) _ E :=
    (readi_reads (fun hi => absurd h.held hi) hn hmax hb).conseq
      (by rintro _ rfl; exact Peeked.refl _) fun _ _ => id
  simp only [MAXFILE, NDIRECT, NINDIRECT, BSIZE] at hmax
  refine ((readiTo_simulates (by omega) hn hw).hoare hreads).left.conseq (fun _ => id) ?_
  rintro r _ ⟨_, _, ⟨rfl, hpeek⟩, rfl, hlen, hfill⟩
  rw [length_bytes] at hlen hfill
  refine ⟨hlen, fun i hi => ?_, hpeek⟩
  rw [hfill i hi]
  refine ite_congr rfl (fun hlt => ?_) fun _ => rfl
  beta_reduce
  rw [bytes, getD_eq_getElem?_getD, getElem?_map, getElem?_range hlt]
  rfl

/-! ## Files as arrays -/

variable (sb) in
/-- The part of the contents that a read of `n` bytes at `off` is for. -/
def delivered (s : Fs) (ip : Fin NINODE) (off n : ℕ) : List UInt8 :=
  if off + n < 2 ^ 32 then ((s.contents sb ip).drop off).take n else []

theorem length_delivered :
    (s.delivered sb ip off n).length = readLength (s.inode ip).size off n := by
  unfold delivered readLength contents
  split
  · simp
  · rfl

theorem getElem?_delivered (i : ℕ) : (s.delivered sb ip off n)[i]? =
    if i < readLength (s.inode ip).size off n then some (s.fileByte sb ip (off + i)) else none := by
  split
  · rename_i hi
    have hlen : i < min n ((s.inode ip).size - off) ∧ off + n < 2 ^ 32 := by
      unfold readLength at hi
      split at hi
      · exact ⟨hi, ‹_›⟩
      · omega
    rw [delivered, if_pos hlen.2, getElem?_take_of_lt (by omega), getElem?_drop, contents,
      bytes, getElem?_map, getElem?_range (by omega)]
    simp
  · rw [getElem?_eq_none]
    rw [length_delivered]
    omega

/-- **File contents are a byte array.** `writei` from a source that is
there turns a call down, with nothing changed, just if it starts past the
end, wraps around or leaves the largest file; otherwise, with room for it,
it patches the contents of the file and leaves the other files alone.
`readi` to a destination that is there delivers the bytes asked for as far
as the file goes, and changes nothing. -/
theorem file_is_array (hsb : sb.Ok) (h : Consistent sb s) (hl : s.Live ip) (hoff : off < 2 ^ 32)
    (hn : n < 2 ^ 32) :
    (∀ src : Source, src.readable 0 n = n →
      if (s.inode ip).size < off ∨ 2 ^ 32 ≤ off + n ∨ MAXFILE * BSIZE < off + n then
        writei sb ip src off n s = .ok (-1, s)
      else s.Room sb ip off n → Returns (writei sb ip src off n) s fun r t =>
        r = n ∧ t.contents sb ip = patch (s.contents sb ip) off ((List.range n).map src.byte) ∧
          t.inode ip = { s.inode ip with
            size := max (s.inode ip).size (off + n), addrs := (t.inode ip).addrs } ∧
          Apart sb s t ip ∧ Consistent sb t) ∧
      ∀ dst : Dest, dst.Writable (s.delivered sb ip off n).length →
        Returns (readiTo sb ip dst off n) s fun r t => r.1 = (s.delivered sb ip off n).length ∧
          (∀ i, i < 2 ^ 64 → r.2.byte i = (s.delivered sb ip off n)[i]?.or (dst.byte i)) ∧
          Peeked s t := by
  refine ⟨fun src hread => ?_, fun dst hw => ?_⟩
  · have hrej : s.Rejects ip off n ↔
        (s.inode ip).size < off ∨ 2 ^ 32 ≤ off + n ∨ MAXFILE * BSIZE < off + n := by
      unfold Rejects
      omega
    split
    · rename_i hc
      -- the checks come first
      have hstay := @writei_stored sb s ip src off n (fun _ => False) h hsb hl hoff hn
        fun hnot => absurd (hrej.2 hc) hnot
      obtain ⟨r, t, hrun, ⟨-, rfl, rfl⟩ | ⟨hnot, -⟩⟩ := hstay.returns rfl fun _ => id
      · exact hrun
      · exact absurd (hrej.2 hc) hnot
    · rename_i hc
      intro hroom
      have hP := (h.opened hl).books
      have hstored := @writei_stored sb s ip src off n (fun _ => False) h hsb hl hoff hn
        fun hnot tot u e ht hw he =>
          hw.bmap_ne_error hsb hP h.held hroom (not_rejects hoff hn hnot).2 ht he
      refine (hstored.returns rfl fun _ => id).mono ?_
      rintro r t (⟨hr, -⟩ | ⟨-, rfl, hct, -, last, hst⟩)
      · exact absurd (hrej.1 hr) hc
      · refine ⟨rfl, hst.contents_eq hread (by omega), ?_, hst.toApart, hct⟩
        rw [hst.self, hst.all hread]
  · rw [length_delivered] at hw ⊢
    have hreads := readiTo_reads (E := fun _ => False) h hl hn hw
    refine (hreads.returns rfl fun _ => id).mono ?_
    rintro ⟨k, dst'⟩ t ⟨hk, hfill, hpeek⟩
    refine ⟨hk, fun i hi => ?_, hpeek⟩
    rw [getElem?_delivered, hfill i hi]
    split <;> rfl

/-- A file just created on the small image: 1500 bytes from its start on
take two of the three free blocks, and are read back from byte 1000 on. -/
theorem file_is_array_small : ∃ s t, Consistent smallSb s ∧ s.Live 0 ∧
    writei smallSb 0 (.kernel fun _ => 5) 0 1500 s = .ok (1500, t) ∧
      t.contents smallSb 0 = List.replicate 1500 5 ∧
      Returns (readiTo smallSb 0 (.kernel fun _ => 0) 1000 900) t fun r _ => r.1 = 500 := by
  obtain ⟨s, hs, href, hvalid, hsize, hroom⟩ := small_run (P := fun s =>
      0 < (s.fs.inode 0).ref ∧ (s.fs.inode 0).valid = true ∧ (s.fs.inode 0).size = 0 ∧
        (s.fs.needed smallSb 0 0 1500).card ≤ (s.fs.freeBlocks smallSb).card)
    [.ialloc 2, .ilock 0] (by decide +kernel)
  obtain ⟨hc, -⟩ := consistent_of_reachable smallSb_ok hs
  have hl : s.fs.Live 0 := ⟨href, hvalid⟩
  have hwrite := (@file_is_array smallSb s.fs 0 0 1500 smallSb_ok hc hl (by decide)
    (by decide)).1 (.kernel fun _ => 5) rfl
  rw [if_neg (by rw [hsize]; decide)] at hwrite
  obtain ⟨_, t, hrun, rfl, hcont, hself, -, hct⟩ := hwrite hroom
  have hlt : t.Live 0 := ⟨by rw [hself]; exact hl.ref, by rw [hself]; exact hvalid⟩
  have hread := (@file_is_array smallSb t 0 1000 900 smallSb_ok hct hlt (by decide)
    (by decide)).2 (.kernel fun _ => 0) fun _ _ => rfl
  have hlen : (t.delivered smallSb 0 1000 900).length = 500 := by
    rw [length_delivered, hself, hsize]
    change readLength 1500 1000 900 = 500
    decide
  refine ⟨s.fs, t, hc, hl, hrun, ?_, hread.mono fun r _ hr => hr.1.trans hlen⟩
  rw [hcont, contents, hsize]
  change patch [] 0 ((List.range 1500).map fun _ => 5) = _
  decide +kernel

end Fs

end Xv6
