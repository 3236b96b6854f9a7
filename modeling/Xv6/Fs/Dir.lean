import Xv6.Common.Text
import Xv6.Fs.Read
/-!
# Directories

A directory is a file of sixteen-byte entries, an inode number and a name
each; an entry with inode number 0 is not in use. Names are compared up to
the first NUL, and on `DIRSIZ` bytes at most. `dirlookup` finds the first
entry in use with the name it is given, reading no further than that.
-/

namespace Xv6

open Common

/-! ## Names -/

/-- The name in a buffer: what is before the first NUL, and `DIRSIZ` bytes
at most. -/
def nameOf (b : ℕ → UInt8) : List UInt8 := ((List.range DIRSIZ).map b).takeWhile (· ≠ 0)

theorem nameOf_eq_cstring (b : ℕ → UInt8) : nameOf b = cstring b DIRSIZ 0 := by
  simp only [nameOf, cstring_eq_map, Nat.zero_add]

/-- The name of a buffer that holds one. -/
theorem nameOf_eq {b : ℕ → UInt8} {l : List UInt8} (h : Holds b 0 (l.take DIRSIZ))
    (hend : l.length < DIRSIZ → b l.length = 0) (h0 : 0 ∉ l) : nameOf b = l.take DIRSIZ := by
  have h0' : 0 ∉ l.take DIRSIZ := fun hz => h0 (List.mem_of_mem_take hz)
  rw [nameOf_eq_cstring]
  by_cases hlen : l.length < DIRSIZ
  · have hall : l.take DIRSIZ = l := List.take_of_length_le hlen.le
    rw [hall] at h ⊢
    exact cstring_eq h h0 (by rw [Nat.zero_add]; exact hend hlen) hlen
  · have := @cstring_append 0 0 b _ h h0'
    rwa [List.length_take, Nat.min_eq_left (by omega), Nat.add_zero, show cstring b 0 _ = [] from rfl,
      List.append_nil] at this

/-- Strings compare equal that agree up to the first NUL. -/
theorem strncmp_eq_zero_iff {p q : ℕ → UInt8} {n : ℕ} :
    strncmp p q n = 0 ↔ cstring p n 0 = cstring q n 0 := by
  induction n generalizing p q with
  | zero => exact iff_of_true rfl rfl
  | succ n ih =>
    have hshift : ∀ f : ℕ → UInt8, cstring f n (0 + 1) = cstring (fun i => f (i + 1)) n 0 := fun f =>
      cstring_congr fun i _ _ => congrArg f (by omega)
    have hsub : (((p 0).toNat : ℤ) - (q 0).toNat = 0) ↔ p 0 = q 0 := by
      rw [← UInt8.toNat_inj]
      omega
    rw [strncmp, cstring, cstring, hshift, hshift]
    by_cases hp : p 0 = 0
    · rw [if_neg fun h => h.1 hp, hsub, if_pos hp, hp]
      split
      · exact iff_of_true (Eq.symm ‹_›) rfl
      · exact iff_of_false (fun h => ‹¬ _› h.symm) fun h => List.cons_ne_nil _ _ h.symm
    · rw [if_neg hp]
      by_cases heq : p 0 = q 0
      · rw [if_pos ⟨hp, heq⟩, if_neg (heq ▸ hp), ih, heq, List.cons.injEq, eq_self, true_and]
      · rw [if_neg fun h => heq h.2, hsub]
        refine iff_of_false heq fun h => ?_
        split at h
        · cases h
        · exact heq (List.cons.inj h).1

/-- The same name, as `namecmp` has it. -/
def SameName (p q : ℕ → UInt8) : Prop := namecmp p q = 0

/-- **Names compare equal that are the same.** -/
theorem sameName_iff {p q : ℕ → UInt8} : SameName p q ↔ nameOf p = nameOf q := by
  rw [nameOf_eq_cstring, nameOf_eq_cstring]
  exact strncmp_eq_zero_iff

namespace SameName

variable {p q r : ℕ → UInt8}

instance (p q : ℕ → UInt8) : Decidable (SameName p q) :=
  inferInstanceAs (Decidable (namecmp p q = 0))

theorem symm (h : SameName p q) : SameName q p := sameName_iff.2 (sameName_iff.1 h).symm

theorem trans (h : SameName p q) (h' : SameName q r) : SameName p r :=
  sameName_iff.2 ((sameName_iff.1 h).trans (sameName_iff.1 h'))

theorem of_forall (h : ∀ i, i < DIRSIZ → (∀ j, j < i → p j ≠ 0) → p i = q i) : SameName p q := by
  refine strncmp_eq_zero_iff.2 (cstring_congr fun i hi hj => ?_)
  simp only [Nat.zero_add] at hj ⊢
  exact h i hi hj

end SameName

theorem strncpy_of_ne {t : ℕ → UInt8} {i : ℕ} (h : ∀ j, j < i → t j ≠ 0) : strncpy t i = t i := by
  rw [strncpy, if_neg]
  simpa using h

/-- A name put into an entry is the same name. -/
theorem sameName_strncpy (t : ℕ → UInt8) : SameName t (strncpy t) :=
  .of_forall fun _ _ h => (strncpy_of_ne h).symm

namespace Fs

variable {sb : Superblock} {s t : Fs} {dp : Fin NINODE} {name : ℕ → UInt8} {i k fuel : ℕ}

/-! ## Entries -/

variable (sb) in
/-- Entry `i` of a directory. -/
def entry (s : Fs) (dp : Fin NINODE) (i : ℕ) : Dirent := .ofBytes (s.bytes sb dp (16 * i) 16)

variable (sb) in
/-- Entry `i` is in use, and has the name. -/
def Hit (s : Fs) (dp : Fin NINODE) (name : ℕ → UInt8) (i : ℕ) : Prop :=
  (s.entry sb dp i).inum ≠ 0 ∧ SameName name (s.entry sb dp i).name

instance (s : Fs) (dp : Fin NINODE) (name : ℕ → UInt8) (i : ℕ) : Decidable (s.Hit sb dp name i) :=
  inferInstanceAs (Decidable (_ ∧ _))

theorem Peeked.fileByte (h : Peeked s t) (p : ℕ) : t.fileByte sb dp p = s.fileByte sb dp p := by
  unfold Fs.fileByte
  rw [h.fileBlock, h.data]

theorem Peeked.entry (h : Peeked s t) : t.entry sb dp i = s.entry sb dp i := by
  simp only [Fs.entry, bytes, h.fileByte]

/-- Reading an entry. -/
theorem readi_entry (hidle : s.Idle) (hmax : (s.inode dp).size ≤ MAXFILE * BSIZE)
    (hi : 16 * i + 16 ≤ (s.inode dp).size) (hb : s.Backed sb dp (16 * i) (16 * i + 16)) :
    Returns (readi sb dp (16 * i) 16) s fun l t =>
      l = s.bytes sb dp (16 * i) 16 ∧ Peeked s t := by
  have hlen : readLength (s.inode dp).size (16 * i) 16 = 16 := by
    simp only [MAXFILE, NDIRECT, NINDIRECT, BSIZE] at hmax
    rw [readLength, if_pos (by omega)]
    omega
  have := readi_reads (E := fun _ => False) (n := 16) (fun h => h hidle) (by decide) hmax
    (by rwa [hlen])
  rw [hlen] at this
  exact this.returns (Peeked.refl s) fun _ => id

/-! ## The loop of `dirlookup` -/

/-- One turn. -/
theorem dirlookupFrom_succ (name : ℕ → UInt8) (fuel : ℕ) (hidle : s.Idle)
    (hmax : (s.inode dp).size ≤ MAXFILE * BSIZE)
    (hk : 16 * k + 16 ≤ (s.inode dp).size) (hb : s.Backed sb dp (16 * k) (16 * k + 16)) :
    ∃ t, Peeked s t ∧ dirlookupFrom sb dp name (fuel + 1) (16 * k) s =
      (if s.Hit sb dp name k then do
        let ip ← iget (s.entry sb dp k).inum
        return some (ip, 16 * k)
      else dirlookupFrom sb dp name fuel (16 * (k + 1))) t := by
  obtain ⟨_, t, hread, rfl, ht⟩ := readi_entry hidle hmax hk hb
  refine ⟨t, ht, ?_⟩
  rw [dirlookupFrom]
  change (if 16 * k < (s.inode dp).size then _ else _ : Kern Fs _) s = _
  rw [if_pos (by omega), Prog.bind_run, hread]
  dsimp only [Except.bind]
  rw [if_neg (by simp)]
  rfl

/-- **`dirlookup` stops at the first entry with the name**, having read
nothing past it. -/
theorem dirlookupFrom_hit {m : ℕ} (hidle : s.Idle) (hmax : (s.inode dp).size ≤ MAXFILE * BSIZE)
    (hm : k + m = i) (hfuel : m < fuel) (hno : ∀ j, k ≤ j → j < i → ¬ s.Hit sb dp name j)
    (hhit : s.Hit sb dp name i) (hi : 16 * i + 16 ≤ (s.inode dp).size)
    (hb : s.Backed sb dp (16 * k) (16 * i + 16)) :
    ∃ t, Peeked s t ∧ dirlookupFrom sb dp name fuel (16 * k) s =
      (do let ip ← iget (s.entry sb dp i).inum; return some (ip, 16 * i)) t := by
  induction m generalizing k fuel s with
  | zero =>
    obtain ⟨fuel, rfl⟩ : ∃ f, fuel = f + 1 := ⟨fuel - 1, by omega⟩
    obtain rfl : k = i := by omega
    obtain ⟨t, ht, hrun⟩ := dirlookupFrom_succ name fuel hidle hmax hi hb
    rw [if_pos hhit] at hrun
    exact ⟨t, ht, hrun⟩
  | succ m ih =>
    obtain ⟨fuel, rfl⟩ : ∃ f, fuel = f + 1 := ⟨fuel - 1, by omega⟩
    obtain ⟨t, ht, hrun⟩ := dirlookupFrom_succ name fuel hidle hmax
      (k := k) (by omega) (hb.mono le_rfl (by omega))
    rw [if_neg (hno k le_rfl (by omega))] at hrun
    have hsize : (t.inode dp).size = (s.inode dp).size := by rw [ht.inode]
    have hhit' : ∀ j, t.Hit sb dp name j ↔ s.Hit sb dp name j := fun j => by
      unfold Hit
      rw [ht.entry]
    obtain ⟨u, hu, hrun'⟩ := @ih t (k + 1) fuel (ht.idle.2 hidle)
      (by rwa [hsize]) (by omega) (by omega)
      (fun j h1 h2 => by rw [hhit']; exact hno j (by omega) h2) ((hhit' i).2 hhit)
      (by rwa [hsize]) fun p h1 h2 => by rw [ht.fileBlock]; exact hb p (by omega) h2
    rw [ht.entry] at hrun'
    exact ⟨u, ht.trans hu, hrun.trans hrun'⟩

/-- **Where no entry has the name**, it reads the directory to its end. -/
theorem dirlookupFrom_miss (hidle : s.Idle) (hmax : (s.inode dp).size ≤ MAXFILE * BSIZE)
    (hsize : (s.inode dp).size % 16 = 0)
    (hno : ∀ j, k ≤ j → 16 * j < (s.inode dp).size → ¬ s.Hit sb dp name j)
    (hb : s.Backed sb dp (16 * k) (s.inode dp).size) :
    ∃ t, Peeked s t ∧ dirlookupFrom sb dp name fuel (16 * k) s = .ok (none, t) := by
  induction fuel generalizing k s with
  | zero => exact ⟨s, Peeked.refl s, rfl⟩
  | succ fuel ih =>
    by_cases hk : 16 * k < (s.inode dp).size
    · obtain ⟨t, ht, hrun⟩ := dirlookupFrom_succ name fuel hidle hmax
        (k := k) (by omega) (hb.mono le_rfl (by omega))
      rw [if_neg (hno k le_rfl hk)] at hrun
      have hsize' : (t.inode dp).size = (s.inode dp).size := by rw [ht.inode]
      have hhit' : ∀ j, t.Hit sb dp name j ↔ s.Hit sb dp name j := fun j => by
        unfold Hit
        rw [ht.entry]
      obtain ⟨u, hu, hrun'⟩ := ih (s := t) (k := k + 1) (ht.idle.2 hidle) (by rwa [hsize'])
        (by rwa [hsize'])
        (fun j h1 h2 => by rw [hhit']; exact hno j (by omega) (by rwa [hsize'] at h2))
        fun p h1 h2 => by rw [ht.fileBlock]; exact hb p (by omega) (by rwa [hsize'] at h2)
      exact ⟨u, ht.trans hu, hrun.trans hrun'⟩
    · refine ⟨s, Peeked.refl s, ?_⟩
      rw [dirlookupFrom]
      change (if 16 * k < (s.inode dp).size then _ else _ : Kern Fs _) s = _
      rw [if_neg hk]
      rfl

/-! ## Loading an inode -/

variable {ip : Fin NINODE} {inum n off : ℕ}

variable (sb) in
/-- The cache entry holds the inode of the disk. -/
structure Loaded (s : Fs) (ip : Fin NINODE) (inum : ℕ) : Prop where
  idle : s.Idle
  ref : 0 < (s.inode ip).ref
  valid : (s.inode ip).valid = true
  inum_eq : (s.inode ip).inum = inum
  same : (s.inode ip).toDinode.Same (dinode sb s.data inum)

namespace Loaded

theorem fileBlock (h : s.Loaded sb ip inum) (hk : k < MAXFILE) :
    s.fileBlock sb ip k = slot s.data (dinode sb s.data inum).addrs (slotOf k) := by
  rw [Fs.fileBlock, places, placeWith_self (slotOf_lt hk)]
  exact slot_congr h.same.addrs (fun _ => rfl) _

theorem peeked (h : s.Loaded sb ip inum) (hp : Peeked s t) : t.Loaded sb ip inum := by
  refine ⟨hp.idle.2 h.idle, ?_, ?_, ?_, ?_⟩ <;> rw [hp.inode]
  · exact h.ref
  · exact h.valid
  · exact h.inum_eq
  · rw [hp.data]
    exact h.same

/-- **Reading a file whose blocks are there.** -/
theorem readi (h : s.Loaded sb ip inum) (hn : n < 2 ^ 32)
    (hmax : (dinode sb s.data inum).size ≤ MAXFILE * BSIZE)
    (hblock : ∀ k, k * BSIZE < (dinode sb s.data inum).size →
      slot s.data (dinode sb s.data inum).addrs (slotOf k) ≠ 0) :
    Returns (Fs.readi sb ip off n) s fun l t =>
      l = s.bytes sb ip off (readLength (dinode sb s.data inum).size off n) ∧ Peeked s t := by
  have hsize : (s.inode ip).size = (dinode sb s.data inum).size := h.same.size
  rw [← hsize] at hmax hblock ⊢
  refine (readi_reads (E := fun _ => False) (fun hi => hi h.idle) hn hmax fun p h1 h2 => ?_).returns
    (Peeked.refl s) fun _ => id
  have hp : p < (s.inode ip).size := by
    unfold readLength at h2
    split at h2 <;> omega
  have hlt : p / BSIZE < MAXFILE := by
    rw [Nat.div_lt_iff_lt_mul (by decide)]
    omega
  have hdiv : p / BSIZE * BSIZE ≤ p := Nat.div_mul_le_self ..
  rw [h.fileBlock hlt]
  exact ⟨hlt, hblock _ (by omega)⟩

end Loaded

theorem cachedInode_eq_none (h : ∀ ip, 0 < (s.inode ip).ref → (s.inode ip).inum ≠ inum) :
    s.cachedInode inum = none := by
  unfold cachedInode
  rw [List.find?_eq_none]
  intro ip _
  simpa using h ip

theorem cachedInode_eq_some (href : 0 < (s.inode ip).ref)
    (hother : ∀ j, j ≠ ip → (s.inode j).ref = 0) : s.cachedInode (s.inode ip).inum = some ip := by
  cases hc : s.cachedInode (s.inode ip).inum with
  | none =>
    unfold cachedInode at hc
    rw [List.find?_eq_none] at hc
    exact absurd href (by simpa using hc ip (List.mem_finRange ip))
  | some jp =>
    have hjp := (of_cachedInode hc).1
    by_contra hne
    rw [hother jp fun he => hne (by rw [he])] at hjp
    exact absurd hjp (Nat.lt_irrefl 0)

/-- `ilock` of an inode that is loaded. -/
theorem ilock_loaded (href : 0 < (s.inode ip).ref) (hvalid : (s.inode ip).valid = true) :
    ilock sb ip s = .ok ((), s) := by
  rw [ilock, getInode, Prog.gets_bind, if_neg (Nat.not_lt.2 href), if_pos hvalid]
  rfl

/-- **`iget` and `ilock` of an inode in the cache** take one reference
more. -/
theorem iget_ilock_cached (α : Type) (h : s.Loaded sb ip inum)
    (hcache : s.cachedInode inum = some ip) (k : Fin NINODE → Kern Fs α) :
    (do let ip ← iget inum; ilock sb ip; k ip) s =
      k ip (s.withInode ip { s.inode ip with ref := (s.inode ip).ref + 1 }) := by
  rw [Prog.bind_run, iget_run, hcache]
  dsimp only [Except.bind]
  rw [Prog.bind_run, ilock_loaded (by rw [withInode_inode]; exact Nat.succ_pos _)
    (by rw [withInode_inode]; exact h.valid)]
  rfl

theorem exists_emptyInode (h : (s.inode ip).ref = 0) :
    ∃ jp, s.emptyInode = some jp ∧ (s.inode jp).ref = 0 := by
  cases he : s.emptyInode with
  | none =>
    unfold emptyInode at he
    rw [List.find?_eq_none] at he
    exact absurd h (by simpa using he ip (List.mem_finRange ip))
  | some jp => exact ⟨jp, rfl, of_emptyInode he⟩

/-- `ilock` of an inode that is not loaded yet. -/
theorem ilock_unloaded (hidle : s.Idle) (href : 0 < (s.inode ip).ref)
    (hvalid : (s.inode ip).valid = false) :
    ilock sb ip s = if (dinode sb s.data (s.inode ip).inum).type = 0 then .error .ilockNoType else
      .ok ((), (s.peek (sb.iblock (s.inode ip).inum)).withInode ip
        { s.inode ip with toDinode := dinode sb s.data (s.inode ip).inum, valid := true }) := by
  unfold ilock
  rw [getInode, Prog.gets_bind, if_neg (by omega), if_neg (by rw [hvalid]; decide), Prog.bind_run,
    bread_run (hidle _)]
  dsimp only [Except.bind]
  rw [getData, Prog.gets_bind, take_data]
  change (do
    setInode ip fun i => { i with toDinode := dinode sb s.data (s.inode ip).inum }
    brelse (sb.iblock (s.inode ip).inum)
    setInode ip fun i => { i with valid := true }
    if (dinode sb s.data (s.inode ip).inum).type = 0 then Prog.stop .ilockNoType else return () :
      Kern Fs Unit) (s.take (sb.iblock (s.inode ip).inum)) = _
  split
  · simp [Prog.bind_run, Prog.modify_run, Except.bind, setInode, brelse, take, Prog.stop_run]
  · simp [Prog.bind_run, Prog.modify_run, Except.bind, setInode, brelse, take, peek, withInode,
      held_restore (hidle _), Function.update_idem]

/-- **`iget` and `ilock` of an inode not in the cache** load it into an
entry not in use. -/
theorem iget_ilock (α : Type) (hidle : s.Idle)
    (hcache : ∀ ip, 0 < (s.inode ip).ref → (s.inode ip).inum ≠ inum) (hfree : (s.inode ip).ref = 0)
    (htype : (dinode sb s.data inum).type ≠ 0) :
    ∃ jp t, (s.inode jp).ref = 0 ∧ t.data = s.data ∧ t.Loaded sb jp inum ∧
      (∀ j, j ≠ jp → t.inode j = s.inode j) ∧
      ∀ k : Fin NINODE → Kern Fs α, (do let ip ← iget inum; ilock sb ip; k ip) s = k jp t := by
  obtain ⟨jp, hjp, href⟩ := exists_emptyInode hfree
  have higet : iget inum s = .ok (jp, s.withInode jp
      { s.inode jp with inum := inum, ref := 1, valid := false }) := by
    rw [iget_run, cachedInode_eq_none hcache, hjp]
  generalize hu : s.withInode jp { s.inode jp with inum := inum, ref := 1, valid := false } = u
    at higet
  have huj : u.inode jp = { s.inode jp with inum := inum, ref := 1, valid := false } := by
    rw [← hu, withInode_inode]
  have hdata : u.data = s.data := by rw [← hu, withInode_data]
  have hidle' : u.Idle := by
    rw [← hu]
    exact hidle
  have href' : 0 < (u.inode jp).ref := by
    rw [huj]
    exact Nat.one_pos
  have hload := @ilock_unloaded sb _ _ hidle' href' (by rw [huj])
  rw [if_neg (by rw [huj, hdata]; exact htype)] at hload
  refine ⟨jp, (u.peek (sb.iblock (u.inode jp).inum)).withInode jp { u.inode jp with
    toDinode := dinode sb u.data (u.inode jp).inum, valid := true }, href, hdata,
    ⟨hidle', ?_, ?_, ?_, ?_⟩, fun j hj => ?_, fun k => ?_⟩
  · rw [withInode_inode]
    exact href'
  · rw [withInode_inode]
  · rw [withInode_inode, huj]
  · rw [withInode_inode, huj, withInode_data, peek_data, hdata]
    exact Dinode.Same.refl _
  · rw [withInode_of_ne _ hj, peek_inode, ← hu, withInode_of_ne _ hj]
  · rw [Prog.bind_run, higet]
    dsimp only [Except.bind]
    rw [Prog.bind_run, hload]
    rfl

end Fs

end Xv6
