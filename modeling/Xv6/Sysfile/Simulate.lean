import Xv6.Common.Simulate
import Xv6.Sysfile.Walk
/-!
# Files above the blocks

`Xv6.Files`, the file system that the calls on memory see, is what the
blocks and the inode cache show: each inode with its type, its links and its
contents, each cache entry with its references and its lock. `readi` finds
there the bytes it reads from the blocks, and the functions on cache entries
and directories do the same above the blocks as on what they show, or both
stop for the same reason.
-/

namespace Xv6

open Common Function List

/-! ## `readi` -/

namespace Files

theorem readi_eq {data : List UInt8} {off n : ℕ} (hlen : data.length < 2 ^ 32) (hn : n < 2 ^ 32) :
    readi data off n = if off + n < 2 ^ 32 then (data.drop off).take n else [] := by
  unfold readi
  by_cases hsum : off + n < 2 ^ 32
  · rw [if_pos hsum]
    split
    · rw [drop_eq_nil_of_le (by omega), take_nil]
    · rfl
  · rw [if_neg hsum, if_pos (by omega)]

end Files

theorem Fs.bytes_readLength {sb : Superblock} {s : Fs} {ip : Fin NINODE} {off n : ℕ} :
    s.bytes sb ip off (readLength (s.inode ip).size off n) = s.delivered sb ip off n := by
  refine ext_getElem? fun i => ?_
  rw [getElem?_delivered, bytes, getElem?_map]
  split
  · rw [getElem?_range ‹_›]
    rfl
  · rw [getElem?_eq_none (by rw [length_range]; omega)]
    rfl

theorem Fs.iput_run {sb : Superblock} {s : Fs} {ip : Fin NINODE}
    (h : ¬ ((s.inode ip).ref = 1 ∧ (s.inode ip).valid = true ∧
      (s.inode ip).nlink = 0)) :
    iput sb ip s = .ok ((), s.withInode ip { s.inode ip with ref := (s.inode ip).ref - 1 }) := by
  unfold iput
  rw [getInode, Prog.gets_bind, if_neg h]
  rfl

namespace Sysfile

variable {α : Type} {sb : Superblock} {d : Disk} {t u : State} {g : Files} {ip : Fin NINODE} {E : Panic → Prop}

/-! ## Functions of the layer below -/

/-- A function of the layer below that returns. -/
theorem onFs_run {c : Kern Fs α} {a : α} {f : Fs} (h : c t.fs = .ok (a, f)) :
    onFs c t = .ok (a, { t with fs := f }) := by
  unfold onFs
  rw [h]
  rfl

theorem onFs_error {c : Kern Fs α} {e : Panic} (h : c t.fs = .error e) : onFs c t = .error e := by
  unfold onFs
  rw [h]
  rfl

theorem ilock_run (sb : Superblock) (ip : Fin NINODE) (t : State) : ilock sb ip t =
    if (t.fs.inode ip).ref < 1 then .error .ilock
    else if t.locked ip then .error .selfDeadlock
    else onFs (Fs.ilock sb ip) { t with locked := update t.locked ip true } := by
  change (if (t.fs.inode ip).ref < 1 then _ else _ : Kern State Unit) t = _
  split
  · rfl
  · rw [acquiresleep, bind_assoc, Prog.gets_bind]
    split <;> rfl

theorem iunlock_run (ip : Fin NINODE) (t : State) : iunlock ip t =
    if t.locked ip = false ∨ (t.fs.inode ip).ref < 1 then .error .iunlock
    else .ok ((), { t with locked := update t.locked ip false }) := by
  change (if t.locked ip = false ∨ (t.fs.inode ip).ref < 1 then _ else _ : Kern State Unit) t = _
  split <;> rfl

/-- `iput` that does not free the inode. -/
theorem iput_run (h : ¬ ((t.fs.inode ip).ref = 1 ∧ (t.fs.inode ip).valid = true ∧
      (t.fs.inode ip).nlink = 0)) : iput sb ip t = .ok ((), { t with
    fs := t.fs.withInode ip { t.fs.inode ip with ref := (t.fs.inode ip).ref - 1 } }) := by
  change (if (t.fs.inode ip).ref = 1 ∧ (t.fs.inode ip).valid = true ∧ (t.fs.inode ip).nlink = 0
    then _ else _ : Kern State Unit) t = _
  rw [if_neg h]
  exact onFs_run (Fs.iput_run h)

/-! ## What is shown -/

variable (sb) in
/-- **The files show the blocks**: the nodes are those of the disk, and the
cache entries have the same references and locks. -/
structure Shows (d : Disk) (t : State) (g : Files) : Prop where
  consistent : Fs.Consistent sb t.fs
  data : t.fs.data = d
  node : g.node = Fs.view sb d
  inode : ∀ ip, g.inode ip = ⟨(t.fs.inode ip).inum, (t.fs.inode ip).ref, (t.fs.inode ip).valid,
    t.locked ip⟩

theorem exists_shows (h : Fs.Consistent sb t.fs) : ∃ g, Shows sb t.fs.data t g :=
  ⟨⟨_, _, 0⟩, h, rfl, rfl, fun _ => rfl⟩

namespace Shows

section

variable (h : Shows sb d t g)
include h

theorem live (href : 0 < (g.inode ip).ref) (hv : (g.inode ip).valid = true) : t.fs.Live ip := by
  rw [h.inode] at href hv
  exact ⟨href, hv⟩

theorem nodeOf (ip : Fin NINODE) : g.nodeOf ip = Fs.view sb t.fs.data (t.fs.inode ip).inum := by
  rw [Files.nodeOf, h.node, h.inode, h.data]

/-- One cache entry changes in both. -/
theorem set {c : Cached} (hu : Fs.Consistent sb u.fs)
    (hdata : u.fs.data = t.fs.data)
    (hc : c = ⟨(u.fs.inode ip).inum, (u.fs.inode ip).ref, (u.fs.inode ip).valid, u.locked ip⟩)
    (hother : ∀ j, j ≠ ip → u.fs.inode j = t.fs.inode j ∧ u.locked j = t.locked j) :
    Shows sb d u (g.withInode ip c) := by
  refine ⟨hu, hdata.trans h.data, h.node, fun j => ?_⟩
  by_cases hj : j = ip
  · subst hj
    exact (update_self ..).trans hc
  · exact (update_of_ne hj ..).trans (by rw [h.inode, (hother j hj).1, (hother j hj).2])

theorem peeked {f : Fs} (hp : Fs.Peeked t.fs f) : Shows sb d { t with fs := f } g := by
  refine ⟨h.consistent.peeked hp, hp.data.trans h.data, h.node, fun ip => ?_⟩
  rw [h.inode, hp.inode]

/-- **`readi`** reads the bytes that are shown. -/
theorem readi (hl : t.fs.Live ip) {off n : ℕ} (hn : n < 2 ^ 32) :
    Returns (Fs.readi sb ip off n) t.fs fun l f =>
      l = Files.readi (g.nodeOf ip).data off n ∧ Fs.Peeked t.fs f := by
  have hc := h.consistent
  have hd := hc.dense_live hl
  have hmax := hd.size_le
  simp only [MAXFILE, NDIRECT, NINDIRECT, BSIZE] at hmax
  have hb : t.fs.Backed sb ip off (off + Fs.readLength (t.fs.inode ip).size off n) := by
    refine fun q h1 h2 => hd.backed q (Nat.zero_le _) ?_
    unfold Fs.readLength at h2
    split at h2 <;> omega
  have hreads := (Fs.readi_reads (E := fun _ => False) (fun hi => hi hc.held) hn hd.size_le hb).returns
    (Fs.Peeked.refl _) fun _ => id
  refine hreads.mono fun l f hf => ⟨?_, hf.2⟩
  have hlen : (t.fs.contents sb ip).length = (t.fs.inode ip).size := Fs.length_bytes ..
  rw [hf.1, h.nodeOf, hc.view_eq hl, Fs.bytes_readLength, Fs.delivered,
    Files.readi_eq (by dsimp only; omega) hn]

end

end Shows

/-! ## Cache entries -/

section

variable (h : Shows sb d t g)
include h

/-- **`iget`** -/
theorem iget_simulates (n : ℕ) :
    Simulates (onFs (Fs.iget n)) t (Files.iget n) g (fun jp u jp' g' => jp' = jp ∧ Shows sb d u g')
      fun _ => True := by
  have hcached : g.cachedInode n = t.fs.cachedInode n := by
    simp only [Files.cachedInode, Fs.cachedInode, h.inode]
  have hempty : g.emptyInode = t.fs.emptyInode := by
    simp only [Files.emptyInode, Fs.emptyInode, h.inode]
  have hrun := Fs.iget_run t.fs n
  have hrun' := Files.iget_run g n
  rw [hcached, hempty] at hrun'
  -- one entry changes, in the same way
  have hset : ∀ {jp : Fin NINODE} {i : Inode} {c : Cached},
      c = ⟨i.inum, i.ref, i.valid, t.locked jp⟩ →
        Fs.iget n t.fs = .ok (jp, t.fs.withInode jp i) →
          Shows sb d { t with fs := t.fs.withInode jp i } (g.withInode jp c) := fun hc hok =>
    h.set ((Fs.iget_consistent h.consistent).ok rfl hok).1 rfl
      (by rw [Fs.withInode_inode]; exact hc) fun j hj => ⟨Fs.withInode_of_ne _ hj, rfl⟩
  cases hc : t.fs.cachedInode n with
  | some jp =>
    rw [hc] at hrun hrun'
    exact .of_ok (onFs_run hrun) hrun' ⟨rfl, hset (by rw [h.inode]) hrun⟩
  | none =>
    cases he : t.fs.emptyInode with
    | none =>
      rw [hc, he] at hrun hrun'
      exact .of_error (onFs_error hrun) hrun' trivial
    | some jp =>
      rw [hc, he] at hrun hrun'
      exact .of_ok (onFs_run hrun) hrun' ⟨rfl, hset (by rw [h.inode]) hrun⟩

/-- **`idup`** of an inode that is referred to. -/
theorem idup_simulates (href : 0 < (g.inode ip).ref) :
    Simulates (onFs (Fs.idup ip)) t (Files.idup ip) g (fun _ u _ g' => Shows sb d u g')
      fun _ => True := by
  have hrun : Fs.idup ip t.fs = .ok ((), t.fs.withInode ip
      { t.fs.inode ip with ref := (t.fs.inode ip).ref + 1 }) := rfl
  rw [h.inode] at href
  refine .of_ok (onFs_run hrun) rfl (h.set (h.consistent.withRef href _) rfl ?_
    fun j hj => ⟨Fs.withInode_of_ne _ hj, rfl⟩)
  rw [Fs.withInode_inode, h.inode]

/-- **`ilock`** of an inode of the disk. -/
theorem ilock_simulates (hn : (g.inode ip).inum < sb.ninodes) :
    Simulates (ilock sb ip) t (Files.ilock ip) g (fun _ u _ g' => Shows sb d u g') fun _ => True := by
  have hrun := ilock_run sb ip t
  have hrun' := Files.ilock_run g ip
  rw [h.inode] at hrun' hn
  by_cases href : (t.fs.inode ip).ref < 1
  · rw [if_pos href] at hrun hrun'
    exact .of_error hrun hrun' trivial
  rw [if_neg href] at hrun hrun'
  have hpos : 0 < (t.fs.inode ip).ref := by omega
  cases hl : t.locked ip with
  | true =>
    rw [hl] at hrun hrun'
    exact .of_error hrun hrun' trivial
  | false =>
    rw [hl] at hrun hrun'
    have hlocked : ∀ j, j ≠ ip → update t.locked ip true j = t.locked j := fun j hj =>
      update_of_ne hj ..
    cases hv : (t.fs.inode ip).valid with
    | true =>
      rw [hv] at hrun'
      refine .of_ok (hrun.trans (onFs_run (Fs.ilock_loaded hpos hv))) hrun'
        (h.set h.consistent rfl ?_ fun j hj => ⟨rfl, hlocked j hj⟩)
      simp [hv]
    | false =>
      have hload := @Fs.ilock_unloaded sb _ _ h.consistent.held hpos hv
      have htype : (g.nodeOf ip).type = 0 ↔
          (Fs.dinode sb t.fs.data (t.fs.inode ip).inum).type = 0 := by
        rw [h.nodeOf, ← not_iff_not]
        exact Fs.view_type_ne_zero.trans (and_iff_right hn)
      by_cases h0 : (g.nodeOf ip).type = 0
      · rw [hv, if_neg Bool.false_ne_true, if_pos ⟨rfl, h0⟩] at hrun'
        rw [if_pos (htype.1 h0)] at hload
        exact .of_error (hrun.trans (onFs_error hload)) hrun' trivial
      · rw [hv, if_neg Bool.false_ne_true, if_neg fun hc => h0 hc.2] at hrun'
        rw [if_neg fun hc => h0 (htype.2 hc)] at hload
        have hu := ((Fs.ilock_consistent h.consistent hn hpos).ok rfl hload).1
        refine .of_ok (hrun.trans (onFs_run hload)) hrun' (h.set hu rfl (by simp) fun j hj => ?_)
        exact ⟨Fs.withInode_of_ne _ hj, hlocked j hj⟩

/-- **`iunlock`** -/
theorem iunlock_simulates (ip : Fin NINODE) :
    Simulates (iunlock ip) t (Files.iunlock ip) g (fun _ u _ g' => Shows sb d u g') fun _ => True := by
  have hrun := iunlock_run ip t
  have hrun' := Files.iunlock_run g ip
  rw [h.inode] at hrun'
  by_cases hstop : t.locked ip = false ∨ (t.fs.inode ip).ref < 1
  · rw [if_pos hstop] at hrun hrun'
    exact .of_error hrun hrun' trivial
  · rw [if_neg hstop] at hrun hrun'
    exact .of_ok hrun hrun' (h.set h.consistent rfl (by simp) fun j hj => ⟨rfl, update_of_ne hj ..⟩)

/-- **`iput`** that does not free the inode. -/
theorem iput_simulates (hpos : 0 < (g.inode ip).ref)
    (hlast : ¬ ((g.inode ip).ref = 1 ∧ (g.inode ip).valid = true ∧ (g.nodeOf ip).nlink = 0)) :
    Simulates (iput sb ip) t (Files.iput ip) g (fun _ u _ g' => Shows sb d u g') fun _ => True := by
  have hi := h.inode ip
  have hlast' : ¬ ((t.fs.inode ip).ref = 1 ∧ (t.fs.inode ip).valid = true ∧
      (t.fs.inode ip).nlink = 0) := by
    rintro ⟨h1, h2, h3⟩
    refine hlast ⟨by rw [hi]; exact h1, by rw [hi]; exact h2, ?_⟩
    rw [h.nodeOf, h.consistent.view_eq ⟨by omega, h2⟩]
    exact h3
  rw [hi] at hpos
  refine .of_ok (iput_run hlast') (Files.iput_run hlast) (h.set (h.consistent.withRef hpos _) rfl ?_
    fun j hj => ⟨Fs.withInode_of_ne _ hj, rfl⟩)
  rw [Fs.withInode_inode, hi]

/-! ## Directories -/

/-- A file that is loaded is not too long. -/
theorem Shows.length_lt (hl : t.fs.Live ip) : (g.nodeOf ip).data.length < 2 ^ 31 := by
  have hmax := (h.consistent.dense_live hl).size_le
  simp only [MAXFILE, NDIRECT, NINDIRECT, BSIZE] at hmax
  rw [h.nodeOf, h.consistent.length_data hl]
  omega

/-- **`dirlookup`** in a directory that is loaded. -/
theorem dirlookup_simulates (hl : t.fs.Live ip) (htype : (g.nodeOf ip).type = T_DIR)
    (hsize : (g.nodeOf ip).data.length % 16 = 0) {name name' : ℕ → UInt8}
    (hname : nameOf name' = nameOf name) :
    Simulates (onFs (Fs.dirlookup sb ip name)) t (Files.dirlookup ip name') g (fun r u r' g' =>
      r' = r.map Prod.fst ∧ Shows sb d u g') fun _ => True := by
  have hrun' := Files.dirlookup_run htype hsize (h.length_lt hl) name'
  rw [hname] at hrun'
  have hnode := h.nodeOf ip
  rw [hnode, h.consistent.view_eq hl] at htype
  rw [hnode, h.consistent.length_data hl] at hsize
  obtain ⟨f, hp, hrun⟩ := h.consistent.dirlookup_eq hl htype hsize name
  have hshows := h.peeked hp
  rw [← hnode] at hrun
  rw [Node.lookup] at hrun'
  cases hfind : (g.nodeOf ip).find (nameOf name) with
  | none =>
    rw [hfind] at hrun hrun'
    exact .of_ok (onFs_run hrun) hrun' ⟨rfl, hshows⟩
  | some i =>
    rw [hfind] at hrun hrun'
    dsimp only [Option.map_some] at hrun hrun'
    generalize ((g.nodeOf ip).slot i).inum = m at hrun hrun'
    have hget : Simulates (do let jp ← onFs (Fs.iget m); return some (jp, 16 * i)) { t with fs := f }
        (do let jp ← Files.iget m; return some jp) g
        (fun r u r' g' => r' = r.map Prod.fst ∧ Shows sb d u g') fun _ => True := by
      refine .bind ((iget_simulates hshows m).mono ?_)
      rintro jp u _ g' ⟨rfl, hu⟩
      exact .of_ok rfl rfl ⟨rfl, hu⟩
    refine hget.run_eq ?_ hrun'
    unfold onFs
    rw [hrun]
    rw [Prog.bind_run, Prog.bind_run]
    cases Fs.iget m f <;> rfl

end

theorem getInode_simulates {β γ : Type} {k : Inode → Kern State α} {f : Files → γ}
    {k' : γ → Kern Files β} {Q : α → State → β → Files → Prop}
    (h : Simulates (k (t.fs.inode ip)) t (k' (f g)) g Q E) :
    Simulates (onFs (Fs.getInode ip) >>= k) t (Prog.gets f >>= k') g Q E := h.run_eq rfl rfl

end Sysfile

end Xv6
