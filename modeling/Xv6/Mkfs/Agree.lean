import Xv6.Mkfs.Holes
/-!
# `mkfs` and the kernel

The kernel mounts an image `mkfs` has built. Its files read as the input
files did, under their names, and the free map marks the blocks in use. A
file that is called `.` or `..` is not found, since the root directory's
own entries come first.
-/

namespace Xv6

open Common List

namespace Mkfs

open Fs (slot slotOf place marked)

variable {t : State} {A : ℕ → ℕ → ℕ} {files : List Input} {f : Input} {j k : ℕ}

/-! ## The bytes of a file -/

section

variable {s : Fs} {ip : Fin NINODE} {off n p : ℕ}

section

variable (h : Built files A t) (hdata : s.data = t.img) (hl : s.Loaded sb ip j) (hj : j < NDINODE)
include h hdata hl hj

theorem Built.fileByte (hp : p < (contents files j).length) :
    s.fileByte sb ip p = (contents files j).getD p 0 := by
  have hf := h.file j
  have hlt : p / BSIZE < MAXFILE := by
    have := hf.length_le
    rw [Nat.div_lt_iff_lt_mul (by decide)]
    omega
  have hdiv : p / BSIZE * BSIZE ≤ p := Nat.div_mul_le_self ..
  have hblock : s.fileBlock sb ip (p / BSIZE) = refs t.img A (j, slotOf (p / BSIZE)) := by
    rw [hl.fileBlock hlt, hdata, h.slot_eq hj hlt]
  have hne := (hf.block _ hlt).2 (by omega)
  rw [Fs.fileByte_of_ne (by rwa [hblock]), hblock, hdata, hf.byte p hp]

theorem Built.bytes (hn : off + n ≤ (contents files j).length) :
    s.bytes sb ip off n = ((contents files j).drop off).take n := by
  refine ext_getElem ?_ fun i h1 h2 => ?_
  · rw [Fs.length_bytes, length_take, length_drop]
    omega
  · rw [Fs.length_bytes] at h1
    simp only [Fs.bytes, getElem_map, getElem_range, getElem_take,
      getElem_drop]
    rw [h.fileByte hdata hl hj (by omega), getD_eq_getElem]

/-- **Reading a file of the image returns what was put into it.** -/
theorem Built.readi (hne : j ≠ ROOTINO) (hn : off + n < 2 ^ 32) :
    Returns (Fs.readi sb ip off n) s fun l u =>
      l = ((contents files j).drop off).take n ∧ Fs.Peeked s u := by
  have hsize := h.size_of_ne hj hne
  have hmax := (h.file j).length_le
  refine (hl.readi (by omega) ?_ fun k hk => ?_).mono fun l u hu => ⟨?_, hu.2⟩
  · rw [hdata, hsize]
    exact hmax
  · rw [hdata, hsize] at hk
    rw [hdata]
    refine (h.slot_ne_zero hj ?_).2 hk
    simp only [BSIZE, MAXFILE, NDIRECT, NINDIRECT] at *
    omega
  · rw [hu.1, hdata, hsize]
    have hread : Fs.readLength (contents files j).length off n =
        min n ((contents files j).length - off) := if_pos hn
    rcases Nat.lt_or_ge (contents files j).length off with hlt | hge
    · rw [hread, drop_eq_nil_of_le (Nat.le_of_lt hlt),
        Nat.sub_eq_zero_of_le (Nat.le_of_lt hlt)]
      simp [Fs.bytes]
    · rw [hread, h.bytes hdata hl hj (by omega)]
      rcases Nat.le_total n ((contents files j).length - off) with hle | hle
      · rw [Nat.min_eq_left hle]
      · rw [Nat.min_eq_right hle, take_of_length_le (by rw [length_drop]),
          take_of_length_le (by rw [length_drop]; exact hle)]

end

end

/-! ## The entries of the root directory -/

theorem take_flatMap_toBytes {l : List Dirent} {i : ℕ} {de : Dirent} (h : l[i]? = some de) :
    ((l.flatMap Dirent.toBytes).drop (16 * i)).take 16 = de.toBytes := by
  induction l generalizing i with
  | nil => cases h
  | cons de' l ih =>
    rw [flatMap_cons]
    cases i with
    | zero =>
      rw [getElem?_cons_zero, Option.some.injEq] at h
      rw [← h, Nat.mul_zero, drop_zero, ← length_toBytes de', take_left]
    | succ i =>
      rw [getElem?_cons_succ] at h
      have hdrop : 16 * (i + 1) = de'.toBytes.length + 16 * i := by
        rw [length_toBytes]
        omega
      rw [hdrop, ← drop_drop, drop_left, ih h]

theorem inum_ofBytes_toBytes (de : Dirent) :
    (Dirent.ofBytes de.toBytes).inum = de.inum % 2 ^ 16 := by
  simp [Dirent.ofBytes, Dirent.toBytes, Dirent.toByte, getD_eq_getElem?_getD]
  omega

theorem name_ofBytes_toBytes (de : Dirent) {i : ℕ} (hi : i < DIRSIZ) :
    (Dirent.ofBytes de.toBytes).name i = de.name i := by
  simp only [DIRSIZ] at hi
  simp only [Dirent.ofBytes, Dirent.toBytes, getD_eq_getElem?_getD]
  rw [getElem?_map, getElem?_range (by omega)]
  simp only [Option.map_some, Option.getD_some, Dirent.toByte]
  rw [if_neg (by omega), Nat.add_sub_cancel_left]

theorem entries_lt {i : ℕ} {de : Dirent} (h : (entries files)[i]? = some de) :
    i < files.length + 2 := by
  have hlt := (List.getElem?_eq_some_iff.1 h).1
  have hlen : (entries files).length = files.length + 2 := by simp [entries]
  omega

/-- **An entry of the root directory**, as the kernel sees it. -/
theorem Built.hit_iff (h : Built files A t) {s : Fs} {dp : Fin NINODE} (hdata : s.data = t.img)
    (hl : s.Loaded sb dp ROOTINO) {i : ℕ} {de : Dirent} (hde : (entries files)[i]? = some de)
    (name : ℕ → UInt8) :
    s.entry sb dp i = Dirent.ofBytes de.toBytes ∧
      (s.Hit sb dp name i ↔ de.inum % 2 ^ 16 ≠ 0 ∧ SameName name de.name) := by
  have hi := entries_lt hde
  have hcontents : contents files ROOTINO = rootBytes files := if_pos rfl
  have hentry : s.entry sb dp i = Dirent.ofBytes de.toBytes := by
    rw [Fs.entry, h.bytes hdata hl (by decide) (by rw [Built.length_root]; omega), hcontents,
      rootBytes, take_flatMap_toBytes hde]
  refine ⟨hentry, ?_⟩
  unfold Fs.Hit
  rw [hentry, inum_ofBytes_toBytes]
  refine and_congr_right fun _ => ?_
  have hsame : SameName de.name (Dirent.ofBytes de.toBytes).name :=
    .of_forall fun i hi _ => (name_ofBytes_toBytes de hi).symm
  exact ⟨fun hn => hn.trans hsame.symm, fun hn => hn.trans hsame⟩

/-! ## Names -/

/-- Strings without a NUL are the same name if they agree on `DIRSIZ`
bytes. -/
theorem sameName_cstr {a b : List UInt8} (ha : 0 ∉ a) (hb : 0 ∉ b) :
    SameName (cstr a) (cstr b) ↔ a.take DIRSIZ = b.take DIRSIZ := by
  have hname : ∀ {l : List UInt8}, 0 ∉ l → nameOf (cstr l) = l.take DIRSIZ := fun {l} hl => by
    refine nameOf_eq (fun i hi => ?_) (fun _ => getD_eq_default _ _ le_rfl) hl
    rw [length_take] at hi
    rw [Nat.zero_add, getElem_take, cstr, getD_eq_getElem]
  rw [sameName_iff, hname ha, hname hb]

theorem Input.shortname_ne (f : Input) : 0 ∉ f.shortname := by
  intro hc
  refine f.name_ne ?_
  unfold shortname base at hc
  split at hc <;> split at hc
  · exact mem_of_mem_drop (mem_of_mem_drop hc)
  · exact mem_of_mem_drop hc
  · exact mem_of_mem_drop hc
  · exact hc

/-- A name that is neither `.` nor `..` nor an earlier file's. -/
theorem entries_name {i j : ℕ} {f : Input} {de : Dirent} (hi : files[i]? = some f)
    (hnames : (files.map fun f => f.shortname.take DIRSIZ).Nodup)
    (hdots : f.shortname.take DIRSIZ ≠ dot ∧ f.shortname.take DIRSIZ ≠ dotdot)
    (hj : (entries files)[j]? = some de) (hne : j ≠ i + 2) :
    ¬ SameName (cstr f.shortname) de.name := by
  have hname : ∀ {b : List UInt8} {m : ℕ}, 0 ∉ b →
      SameName (cstr f.shortname) (dirent m b).name → f.shortname.take DIRSIZ = b.take DIRSIZ := by
    intro b m hb hs
    exact (sameName_cstr f.shortname_ne hb).1 (hs.trans (sameName_strncpy (cstr b)).symm)
  match j with
  | 0 =>
    rw [entries, getElem?_cons_zero, Option.some.injEq] at hj
    rw [← hj]
    exact fun hs => hdots.1 (hname (by decide) hs)
  | 1 =>
    rw [entries, getElem?_cons_succ, getElem?_cons_zero, Option.some.injEq] at hj
    rw [← hj]
    exact fun hs => hdots.2 (hname (by decide) hs)
  | j + 2 =>
    rw [entries, getElem?_cons_succ, getElem?_cons_succ, getElem?_mapIdx,
      Option.map_eq_some_iff] at hj
    obtain ⟨g, hg, rfl⟩ := hj
    intro hs
    have heq := hname g.shortname_ne hs
    have hlt := (List.getElem?_eq_some_iff.1 hi).1
    refine hne ?_
    have := (getElem?_inj (i := i) (j := j) (by simpa using hlt) hnames).1 (by
      rw [getElem?_map, getElem?_map, hi, hg]
      simpa using heq)
    omega

/-! ## Looking a name up -/

/-- The root directory, locked, and then the inode of a name in it. -/
def rootLookup (name : ℕ → UInt8) : Kern Fs (Option (Fin NINODE)) := do
  let dp ← Fs.iget ROOTINO
  Fs.ilock sb dp
  match ← Fs.dirlookup sb dp name with
  | none => return none
  | some (ip, _) =>
    Fs.ilock sb ip
    return some ip

/-- The root directory as the kernel loads it. -/
theorem Built.root_loaded (h : Built files A t) (α : Type) :
    ∃ dp s, s.data = t.img ∧ s.Loaded sb dp ROOTINO ∧ (s.inode dp).type = T_DIR ∧
      (∀ j, j ≠ dp → (s.inode j).ref = 0) ∧
      ∀ k : Fin NINODE → Kern Fs α,
        (do let dp ← Fs.iget ROOTINO; Fs.ilock sb dp; k dp) (Fs.mount t.img) = k dp s := by
  have htype : (Fs.dinode sb t.img ROOTINO).type = T_DIR := (h.inode ROOTINO (by decide)).type
  have hne : (Fs.dinode sb (Fs.mount t.img).data ROOTINO).type ≠ 0 := by
    change (Fs.dinode sb t.img ROOTINO).type ≠ 0
    rw [htype]
    decide
  have hcache : ∀ ip, 0 < ((Fs.mount t.img).inode ip).ref →
      ((Fs.mount t.img).inode ip).inum ≠ ROOTINO := fun ip hr => absurd hr (Nat.lt_irrefl 0)
  have hfree : ((Fs.mount t.img).inode 0).ref = 0 := rfl
  obtain ⟨dp, s, -, hdata, hl, hother, hrun⟩ := Fs.iget_ilock α (fun _ => rfl) hcache hfree hne
  refine ⟨dp, s, hdata, hl, ?_, fun j hj => by rw [hother j hj]; rfl, hrun⟩
  rw [hl.same.type, hdata]
  exact htype

/-- **A lookup in the root directory** comes to the first entry with the
name. -/
theorem Built.dirlookup (h : Built files A t) (hlen : files.length + 1 < NDINODE) {s : Fs}
    {dp : Fin NINODE} (hdata : s.data = t.img) (hl : s.Loaded sb dp ROOTINO)
    (htype : (s.inode dp).type = T_DIR) {i : ℕ} {de : Dirent} {name : ℕ → UInt8}
    (hde : (entries files)[i]? = some de) (hinum : de.inum % 2 ^ 16 ≠ 0)
    (hname : SameName name de.name)
    (hno : ∀ j e, j < i → (entries files)[j]? = some e → ¬ SameName name e.name) :
    ∃ u, Fs.Peeked s u ∧ Fs.dirlookup sb dp name s =
      (do let ip ← Fs.iget (de.inum % 2 ^ 16); return some (ip, 16 * i)) u := by
  have hi := entries_lt hde
  have hroot : ROOTINO < NDINODE := by decide
  have hlength : (entries files).length = files.length + 2 := by simp [entries]
  have hsize : (s.inode dp).size = (16 * (files.length + 2) / BSIZE + 1) * BSIZE := by
    rw [hl.same.size, hdata, h.size_root]
  have hmax : (s.inode dp).size ≤ MAXFILE * BSIZE := by
    rw [hsize]
    simp only [NDINODE, ninodeblocks, NINODES, IPB, BSIZE, MAXFILE, NDIRECT, NINDIRECT] at *
    omega
  have hend : 16 * i + 16 ≤ (s.inode dp).size := by
    rw [hsize]
    simp only [BSIZE]
    omega
  have hbacked : s.Backed sb dp (16 * 0) (16 * i + 16) := by
    intro p _ hp
    have hlt : p / BSIZE < MAXFILE := by
      rw [Nat.div_lt_iff_lt_mul (by decide)]
      omega
    have hdiv : p / BSIZE * BSIZE ≤ p := Nat.div_mul_le_self ..
    refine ⟨hlt, ?_⟩
    rw [hl.fileBlock hlt, hdata]
    refine (h.slot_ne_zero hroot hlt).2 ?_
    rw [Built.length_root]
    omega
  have hmiss : ∀ j, 0 ≤ j → j < i → ¬ s.Hit sb dp name j := by
    intro j _ hj hhit
    have hej : (entries files)[j]? = some (entries files)[j] := getElem?_eq_getElem (by omega)
    exact hno j _ hj hej ((h.hit_iff hdata hl hej name).2.1 hhit).2
  obtain ⟨hentry, hiff⟩ := h.hit_iff hdata hl hde name
  have hfuel : i < (s.inode dp).size / 16 + 1 := by omega
  obtain ⟨u, hu, hrun⟩ := Fs.dirlookupFrom_hit hl.idle hmax (Nat.zero_add i) hfuel hmiss
    (hiff.2 ⟨hinum, hname⟩) hend hbacked
  refine ⟨u, hu, ?_⟩
  rw [hentry, inum_ofBytes_toBytes] at hrun
  rw [Fs.dirlookup, Fs.getInode, Prog.gets_bind, if_neg (by rw [htype]; simp)]
  exact hrun

/-- The inode of a file, loaded. -/
theorem Built.lookup (h : Built files A t) (hlen : files.length + 1 < NINODES)
    (hnames : (files.map fun f => f.shortname.take DIRSIZ).Nodup) {i : ℕ} {f : Input}
    (hi : files[i]? = some f)
    (hdots : f.shortname.take DIRSIZ ≠ dot ∧ f.shortname.take DIRSIZ ≠ dotdot) :
    Returns (rootLookup (cstr f.shortname)) (Fs.mount t.img) fun r u =>
      ∃ ip, r = some ip ∧ u.data = t.img ∧ u.Loaded sb ip (i + 2) := by
  have hlt := (List.getElem?_eq_some_iff.1 hi).1
  have hmod : (i + 2) % 2 ^ 16 = i + 2 := by
    simp only [NINODES] at hlen
    omega
  obtain ⟨dp, s, hdata, hl, htype, hfree, hroot⟩ :=
    h.root_loaded (Option (Fin NINODE))
  have hde : (entries files)[i + 2]? = some (dirent (i + 2) f.shortname) := by
    rw [entries, getElem?_cons_succ, getElem?_cons_succ, getElem?_mapIdx, hi]
    rfl
  obtain ⟨u, hu, hlook⟩ := h.dirlookup (hlen.trans (by decide)) hdata hl htype hde
    (by change (i + 2) % 2 ^ 16 ≠ 0; omega) (sameName_strncpy _) fun j e hj he =>
      entries_name hi hnames hdots he (by omega)
  change Fs.dirlookup sb dp (cstr f.shortname) s =
    (do let ip ← Fs.iget ((i + 2) % 2 ^ 16); return some (ip, 16 * (i + 2))) u at hlook
  rw [hmod] at hlook
  have hudata : u.data = t.img := hu.data.trans hdata
  -- the cache holds the root directory alone
  obtain ⟨jp, hjp⟩ : ∃ jp : Fin NINODE, jp ≠ dp := by
    by_cases h0 : dp = 0
    · exact ⟨1, by rw [h0]; decide⟩
    · exact ⟨0, Ne.symm h0⟩
  have htype' : (Fs.dinode sb u.data (i + 2)).type ≠ 0 := by
    have hnd : NINODES < NDINODE := by decide
    rw [hudata, (h.inode (i + 2) (by omega)).type]
    change types files (i + 2) ≠ 0
    rw [types, if_neg (by simp only [ROOTINO]; omega), if_pos ⟨by omega, by omega⟩]
    decide
  have hcache : ∀ ip, 0 < (u.inode ip).ref → (u.inode ip).inum ≠ i + 2 := by
    intro ip hr
    rw [hu.inode] at hr ⊢
    by_cases hip : ip = dp
    · rw [hip, hl.inum_eq]
      simp only [ROOTINO]
      omega
    · rw [hfree ip hip] at hr
      exact absurd hr (Nat.lt_irrefl 0)
  have hfree' : (u.inode jp).ref = 0 := by
    rw [hu.inode]
    exact hfree jp hjp
  obtain ⟨ip, v, -, hvdata, hlv, -, hrun⟩ := Fs.iget_ilock (Option (Fin NINODE))
    (hu.idle.2 hl.idle) hcache hfree' htype'
  refine ⟨some ip, v, ?_, ip, rfl, hvdata.trans hudata, hlv⟩
  unfold rootLookup
  rw [hroot, Prog.bind_congr hlook, bind_assoc]
  simp only [pure_bind]
  exact hrun fun ip => pure (some ip)

/-! ## The free map -/

/-- An inode without contents has no blocks. -/
theorem Built.refs_eq_zero (h : Built files A t) (hj : contents files j = []) (i : ℕ) :
    refs t.img A (j, i) = 0 := by
  have hf := h.file j
  rw [hj] at hf
  by_contra hne
  by_cases hi : i = NDIRECT
  · have := hf.indirect.1 (hi ▸ hne)
    simp at this
  have hlt : i < Fs.NSLOT := by
    by_contra hc
    exact hne (if_neg hc)
  obtain ⟨k, hk, rfl⟩ : ∃ k, k < MAXFILE ∧ slotOf k = i := by
    simp only [Fs.NSLOT, slotOf] at *
    rcases Nat.lt_or_ge i NDIRECT with h1 | h1
    · exact ⟨i, by simp only [MAXFILE]; omega, if_pos h1⟩
    · exact ⟨i - 1, by omega, by rw [if_neg (by omega)]; omega⟩
  have := (hf.block k hk).1 hne
  simp at this

theorem contents_eq_nil (hj : types files j = 0) : contents files j = [] := by
  unfold types at hj
  unfold contents
  split at hj
  · cases hj
  · rename_i hne
    rw [if_neg hne]
    split at hj
    · cases hj
    · rename_i hrange
      split
      · rfl
      · rw [getElem?_eq_none (by omega)]
        rfl

/-- The kernel finds the blocks where `mkfs` put them. -/
theorem Built.place_eq (h : Built files A t) (hlen : files.length + 1 < NINODES) :
    place sb t.img = refs t.img A := by
  funext x
  obtain ⟨j, i⟩ := x
  unfold place
  by_cases hc : j < sb.ninodes ∧ (Fs.dinode sb t.img j).type ≠ 0 ∧ i < Fs.NSLOT
  · have hj : j < NDINODE := hc.1.trans (by decide)
    rw [if_pos hc, refs_of_lt hc.2.2]
    exact Fs.slot_congr (h.inode j hj).addrs (fun _ => rfl) _
  rw [if_neg hc]
  by_cases hi : i < Fs.NSLOT
  · refine (h.refs_eq_zero (contents_eq_nil ?_) i).symm
    rcases Nat.lt_or_ge j sb.ninodes with hlt | hge
    · have hj : j < NDINODE := hlt.trans (by decide)
      have ht : (Fs.dinode sb t.img j).type = types files j := (h.inode j hj).type
      by_contra hne
      exact hc ⟨hlt, by rwa [ht], hi⟩
    · have hge : NINODES ≤ j := hge
      simp only [NINODES] at *
      rw [types, if_neg (by simp only [ROOTINO]; omega), if_neg (by omega)]
  · exact (if_neg hi).symm

theorem Built.owned (h : Built files A t) (hlen : files.length + 1 < NINODES) :
    Fs.Owned sb t.img ∧ ∀ b, FSSIZE ≤ b → b < BPB → marked sb t.img b = false := by
  refine ⟨⟨fun x y => ?_, fun b hb => ?_⟩, fun b h1 h2 => ?_⟩
  · rw [h.place_eq hlen]
    exact h.ledger.inj x y
  · have hb : b < FSSIZE := hb
    rw [h.place_eq hlen, h.map b (hb.trans (by decide))]
    exact h.ledger.used_iff b hb
  · have := h.map b h2
    have hle := h.le
    rw [← Bool.not_eq_true, this]
    omega

theorem load_sbBlock : Superblock.load sbBlock = sb := by
  simp only [Superblock.load, sb, Superblock.mk.injEq]
  decide +kernel

/-- **`mkfs` and the kernel agree.** The image of files that fit, with
names of their own other than `.` and `..`, has each of them under its
name, with one link and the bytes that were read, however `read` cut them;
and its free map has the bits of the metadata and of the blocks in use. -/
theorem mkfs_agrees (hlen : files.length + 1 < NINODES) (hfits : Fits files)
    (hnames : (files.map fun f => f.shortname.take DIRSIZ).Nodup)
    (hdots : ∀ f ∈ files, f.shortname.take DIRSIZ ≠ dot ∧ f.shortname.take DIRSIZ ≠ dotdot) :
    ∃ t, main files State.init = .ok ((), t) ∧ Superblock.load (t.img 1) = sb ∧
      (∀ f ∈ files, Returns (rootLookup (cstr f.shortname)) (Fs.mount t.img) fun r s =>
        ∃ ip, r = some ip ∧ (s.inode ip).type = T_FILE ∧ (s.inode ip).nlink = 1 ∧
          ∀ off n, off + n < 2 ^ 32 → Returns (Fs.readi sb ip off n) s fun l _ =>
            l = (f.content.drop off).take n) ∧
      Fs.Owned sb t.img ∧ ∀ b, FSSIZE ≤ b → b < BPB → marked sb t.img b = false := by
  have hlen' : files.length + 1 < NDINODE := hlen.trans (by decide)
  obtain ⟨⟨⟩, t, hrun, A, hb⟩ := (main_built (E := fun _ => False) hlen' fun hf =>
    absurd hfits hf).returns rfl fun _ => id
  refine ⟨t, hrun, by rw [hb.super, load_sbBlock], fun f hf => ?_, hb.owned hlen⟩
  obtain ⟨i, hi⟩ := mem_iff_getElem?.1 hf
  have hlt := (List.getElem?_eq_some_iff.1 hi).1
  have hj : i + 2 < NDINODE := by omega
  have hne : i + 2 ≠ ROOTINO := by
    simp only [ROOTINO]
    omega
  have htype : types files (i + 2) = T_FILE := by
    rw [types, if_neg hne, if_pos ⟨by omega, by omega⟩]
  have hcontent : contents files (i + 2) = f.content := by
    rw [contents, if_neg hne, if_neg (by omega), Nat.add_sub_cancel, hi]
    rfl
  refine (hb.lookup hlen hnames hi (hdots f hf)).mono ?_
  rintro r s ⟨ip, rfl, hdata, hl⟩
  have hino := hb.inode (i + 2) hj
  refine ⟨ip, rfl, ?_, ?_, fun off n hn => ?_⟩
  · rw [hl.same.type, hdata, hino.type]
    exact htype
  · rw [hl.same.nlink, hdata, hino.nlink]
    change (if types files (i + 2) = 0 then 0 else 1) = 1
    rw [htype, if_neg (by decide)]
  · refine (hb.readi hdata hl hj hne hn).mono ?_
    rintro l u ⟨rfl, -⟩
    rw [hcontent]

/-- `_cat`, read in two pieces. -/
def cat : Input where
  name := [0x5f, 0x63, 0x61, 0x74]
  opens := true
  reads := [[1, 2], [3]]
  name_ne := by decide
  reads_ok := by decide

/-- `user/_.` -/
def dotFile : Input where
  name := [0x75, 0x73, 0x65, 0x72, 0x2f, 0x5f, 0x2e]
  opens := true
  reads := [[7]]
  name_ne := by decide
  reads_ok := by decide

theorem fits_cat : Fits [empty, cat] :=
  ⟨by decide, by decide, by decide, by decide +kernel⟩

theorem fits_dotFile : Fits [dotFile] :=
  ⟨by decide, by decide, by decide, by decide +kernel⟩

/-- `cat` is found without its `_`, and reads as one. -/
theorem mkfs_agrees_cat : ∃ t, main [empty, cat] State.init = .ok ((), t) ∧
    Returns (rootLookup (cstr [0x63, 0x61, 0x74])) (Fs.mount t.img) fun r s =>
      ∃ ip, r = some ip ∧ (s.inode ip).type = T_FILE ∧
        Returns (Fs.readi sb ip 0 100) s fun l _ => l = [1, 2, 3] := by
  have hlen : [empty, cat].length + 1 < NINODES := by decide
  obtain ⟨t, hrun, -, hfiles, -⟩ := mkfs_agrees hlen fits_cat (by decide) (by decide)
  refine ⟨t, hrun, (hfiles cat (by simp)).mono ?_⟩
  rintro r s ⟨ip, hip, htype, -, hread⟩
  exact ⟨ip, hip, htype, hread 0 100 (by decide)⟩

/-- **A file that is called `.` is not found**: the name stands for the
root directory itself. -/
theorem mkfs_dot : Fits [dotFile] ∧ dotFile.shortname = dot ∧
    ([dotFile].map fun f => f.shortname.take DIRSIZ).Nodup ∧
    ∃ t, main [dotFile] State.init = .ok ((), t) ∧
      Returns (rootLookup (cstr dotFile.shortname)) (Fs.mount t.img) fun r s =>
        ∃ ip, r = some ip ∧ (s.inode ip).inum = ROOTINO ∧ (s.inode ip).type = T_DIR := by
  have hlen : [dotFile].length + 1 < NDINODE := by decide
  obtain ⟨⟨⟩, t, hrun, A, hb⟩ := (main_built (E := fun _ => False) hlen fun hf =>
    absurd fits_dotFile hf).returns rfl fun _ => id
  refine ⟨fits_dotFile, by decide, by decide, t, hrun, ?_⟩
  obtain ⟨dp, s, hdata, hl, htype, hfree, hroot⟩ := hb.root_loaded (Option (Fin NINODE))
  obtain ⟨u, hu, hlook⟩ := hb.dirlookup hlen hdata hl htype (i := 0) rfl (by decide)
    (sameName_strncpy _) fun j e hj => absurd hj (Nat.not_lt_zero j)
  have hlu := hl.peeked hu
  have hcached : u.cachedInode ROOTINO = some dp := by
    have := Fs.cachedInode_eq_some hlu.ref fun j hj => by
      rw [hu.inode]
      exact hfree j hj
    rwa [hlu.inum_eq] at this
  refine ⟨some dp, u.withInode dp { u.inode dp with ref := (u.inode dp).ref + 1 }, ?_, dp, rfl,
    ?_, ?_⟩
  · unfold rootLookup
    rw [hroot, show cstr dotFile.shortname = cstr dot from rfl, Prog.bind_congr hlook, bind_assoc]
    simp only [pure_bind]
    exact Fs.iget_ilock_cached _ hlu hcached fun ip => pure (some ip)
  · rw [Fs.withInode_inode]
    exact hlu.inum_eq
  · rw [Fs.withInode_inode, hu.inode]
    exact htype

/-! ## The kernel's runs -/

theorem sb_ok : sb.Ok := ⟨by decide +kernel, by decide +kernel, by decide, by decide⟩

/-- **What `mkfs` made, the kernel keeps**: unless the root directory ends
with a block, each block stays owned once and no file gets a hole, whatever
transactions run and whenever the machine crashes. -/
theorem mkfs_kept {s : Fs.Sys} (hlen : files.length + 1 < NINODES)
    (hmod : (files.length + 2) % (BSIZE / 16) ≠ 0) (hrun : main files State.init = .ok ((), t))
    (hs : (Fs.crashing sb t.img).Reachable s) :
    Fs.Consistent sb s.fs ∧ ∀ e, s.panic = some e → Fs.Fine e := by
  have hlen' := hlen.trans (by decide : NINODES < NDINODE)
  obtain ⟨A, hb⟩ := (main_built (E := fun _ => True) hlen' fun _ _ => trivial).ok rfl hrun
  refine Fs.consistent_of_reachable sb_ok (Fs.Image.crashing ⟨?_, fun j hj ht => ?_⟩ sb_ok hs)
  · rw [hb.place_eq hlen]
    exact hb.ledger.congr fun b hlt => hb.map b (hlt.trans (by decide))
  · have hn := hb.noHoles hlen' hmod (hj.trans (by decide))
    have hle := hn.size_le
    refine ⟨hle, fun k hk => ?_⟩
    simp only [BSIZE] at hle hk
    rw [place, if_pos ⟨hj, ht, Fs.slotOf_lt (by omega)⟩]
    exact hn.block k (by simp only [BSIZE]; omega)

/-- Three files; the root directory's inode is looked up, and the machine
crashes. -/
theorem mkfs_kept_three : ∃ t s, main (.replicate 3 empty) State.init = .ok ((), t) ∧
    (Fs.crashing sb t.img).Reachable s ∧ Fs.Consistent sb s.fs := by
  have hlen : (List.replicate 3 empty).length + 1 < NINODES := by decide
  obtain ⟨⟨⟩, t, hrun, -⟩ := (main_built (E := fun _ => False) (hlen.trans (by decide)) fun h =>
    absurd (fits_replicate_empty (by decide)) h).returns rfl fun _ => id
  have hget : (Fs.crashing sb t.img).Reachable _ := .step (a := some (.iget 1)) (.init rfl)
    ⟨fun _ h => by cases h; exact ⟨rfl, trivial⟩, rfl⟩
  have hs := hget.step (a := none) ⟨nofun, rfl⟩
  exact ⟨t, _, hrun, hs, (mkfs_kept hlen (by decide) hrun hs).1⟩

end Mkfs

end Xv6
