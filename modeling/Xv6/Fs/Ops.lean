import Xv6.Fs.Read
/-!
# The operations keep the file system consistent

One lemma for each operation of `fs.c`: from a consistent file system it
returns in a consistent one, with every change logged, or it stops for
another reason than a free block freed or a file block out of range.
-/

namespace Xv6

open Common

namespace Fs

variable {sb : Superblock} {s t : Fs} {ip jp : Fin NINODE} {inum : ℕ}

/-- Neither `bfree` nor `bmap` panicked. -/
def Fine (e : Panic) : Prop := e ≠ .freeingFreeBlock ∧ e ≠ .bmapOutOfRange

theorem Fine.selfDeadlock (e : Panic) (h : e = .selfDeadlock) : Fine e := by
  rw [h]
  exact ⟨nofun, nofun⟩

theorem Sound.congr (h : Sound sb s) (hdata : t.data = s.data) (hlogged : t.logged = s.logged)
    (hheld : t.held = s.held) : Sound sb t := by
  refine ⟨?_, ?_, ?_, ?_⟩
  · rw [hdata]
    exact h.books.congr fun b _ => by rw [bit, bit, hdata]
  · rw [hdata]
    exact h.dense
  · rw [hheld]
    exact h.held
  · rw [hdata, hlogged]
    exact h.loose

theorem Consistent.peeked (h : Consistent sb s) (hp : Peeked s t) : Consistent sb t := by
  refine ⟨h.toSound.congr hp.data hp.logged hp.held, fun j => ?_, ?_⟩
  · unfold CopyAt
    rw [hp.inode, hp.data]
    exact h.copy j
  · unfold Unique
    rw [hp.inode]
    exact h.unique

/-! ## Cache entries -/

/-- Setting a cache entry to one that fits. -/
theorem Consistent.withInode {i : Inode} (h : Consistent sb s)
    (hcopy : 0 < i.ref → i.valid = true → i.inum < sb.ninodes ∧ i.type ≠ 0 ∧
      i.toDinode.Same (dinode sb s.data i.inum))
    (huniq : 0 < i.ref → ∀ j, j ≠ ip → 0 < (s.inode j).ref → (s.inode j).inum ≠ i.inum) :
    Consistent sb (s.withInode ip i) := by
  refine ⟨h.toSound.congr rfl rfl rfl, fun j => ?_, fun j k hj hk he => ?_⟩
  · unfold CopyAt
    by_cases hj : j = ip
    · rw [hj, withInode_inode]
      exact hcopy
    · rw [withInode_of_ne _ hj]
      exact h.copy j
  · by_cases hji : j = ip <;> by_cases hki : k = ip
    · rw [hji, hki]
    · rw [hji, withInode_inode] at hj he
      rw [withInode_of_ne _ hki] at hk he
      exact absurd he.symm (huniq hj k hki hk)
    · rw [hki, withInode_inode] at hk he
      rw [withInode_of_ne _ hji] at hj he
      exact absurd he (huniq hk j hji hj)
    · rw [withInode_of_ne _ hji] at hj he
      rw [withInode_of_ne _ hki] at hk he
      exact h.unique j k hj hk he

/-- Counting a reference to an entry in use. -/
theorem Consistent.withRef (h : Consistent sb s) (href : 0 < (s.inode ip).ref) (r : ℕ) :
    Consistent sb (s.withInode ip { s.inode ip with ref := r }) :=
  h.withInode (fun _ hv => h.copy ip href hv) fun _ j hj hr he => hj (h.unique j ip hr href he)

theorem Logs.withInode (i : Inode) : Logs s (s.withInode ip i) := ⟨(Logs.refl s).1, (Logs.refl s).2⟩

theorem hoare_setInode {E : Panic → Prop} (f : Inode → Inode) : Hoare (· = s) (setInode ip f)
    (fun _ t => t = s.withInode ip (f (s.inode ip))) E := by
  refine .modify ?_
  rintro _ rfl
  rfl

section

variable (h : Consistent sb s)
include h

/-- **`iget`** -/
theorem iget_consistent :
    Hoare (· = s) (iget inum)
      (fun jp t => Consistent sb t ∧ Logs s t ∧ 0 < (t.inode jp).ref) Fine := by
  have hrun := iget_run s inum
  cases hc : s.cachedInode inum with
  | some jp =>
    rw [hc] at hrun
    refine Returns.hoare ⟨jp, _, hrun, h.withRef (of_cachedInode hc).1 _, .withInode _, ?_⟩ _
    rw [withInode_inode]
    exact Nat.succ_pos _
  | none =>
    cases he : s.emptyInode with
    | none =>
      rw [hc, he] at hrun
      exact .of_error hrun ⟨nofun, nofun⟩
    | some jp =>
      rw [hc, he] at hrun
      refine Returns.hoare ⟨jp, _, hrun, h.withInode (fun _ hv => nomatch hv) fun _ j _ hr heq => ?_,
        .withInode _, by rw [withInode_inode]; exact Nat.one_pos⟩ _
      have := List.find?_eq_none.1 hc j (List.mem_finRange j)
      simp [hr, heq] at this

theorem idup_consistent (href : 0 < (s.inode ip).ref) :
    Hoare (· = s) (idup ip) (fun _ t => Consistent sb t ∧ Logs s t) Fine := by
  refine .modify ?_
  rintro _ rfl
  exact ⟨h.withRef href _, .withInode _⟩

/-- **`ilock`** -/
theorem ilock_consistent (hinum : (s.inode ip).inum < sb.ninodes)
    (href : 0 < (s.inode ip).ref) :
    Hoare (· = s) (ilock sb ip) (fun _ t => Consistent sb t ∧ Logs s t) Fine := by
  refine .gets_bind (.ite (fun _ => .stop fun _ _ => ⟨nofun, nofun⟩) fun _ =>
    Hoare.ite (fun _ => .pure ?_) fun _ => ?_)
  · rintro _ rfl
    exact ⟨h, .refl _⟩
  · refine ((hoare_bread _).weaken Fine.selfDeadlock).bind fun _ => .pointwise ?_
    rintro _ ⟨hfree, rfl⟩
    refine .gets_bind ?_
    rw [take_data]
    generalize hd : Dinode.load (s.data (sb.iblock (s.inode ip).inum))
      (Dinode.off (s.inode ip).inum) = d
    -- the entry is filled in with the buffer still in use
    have hend : Hoare (· = (s.peek (sb.iblock (s.inode ip).inum)).withInode ip
        { s.inode ip with toDinode := d, valid := true })
        (if d.type = 0 then Prog.stop .ilockNoType else pure ())
        (fun _ t => Consistent sb t ∧ Logs s t) Fine := by
      refine .ite (fun _ => .stop fun _ _ => ⟨nofun, nofun⟩) fun htype => .pure ?_
      rintro _ rfl
      refine ⟨(h.peeked (peeked_peek s _)).withInode (fun _ _ => ⟨hinum, htype, ?_⟩)
        fun _ j hj hr he => hj (h.unique j ip hr href he), (Logs.peek ..).trans (.withInode _)⟩
      rw [← hd]
      exact Dinode.Same.refl _
    refine hend.run_eq ?_
    simp [Prog.bind_run, setInode, Prog.modify_run, Except.bind, brelse, take, peek, withInode,
      held_restore hfree]

/-! ## Allocating an inode -/

/-- Giving a free inode a type. -/
theorem Consistent.alloc {type : ℕ} (hsb : sb.Ok) (hlt : inum < sb.ninodes)
    (hfree : (dinode sb s.data inum).type = 0) (htype : type ≠ 0 ∧ type < 2 ^ 16) :
    Consistent sb (s.stored sb (Dinode.fresh type) inum) := by
  have hfits := Dinode.fits_fresh htype.2
  have hself : (dinode sb (s.stored sb (Dinode.fresh type) inum).data inum).Same
      (Dinode.fresh type) := dinode_store hfits
  refine ⟨.of_stored hsb hlt hfits (funext fun x => ?_) h.books h.held h.loose
    (fun n _ => h.dense n) (fun _ => ⟨Nat.zero_le _, nofun⟩), fun j => ?_, h.unique⟩
  · by_cases hx : x.1 = inum
    · have hold : place sb s.data x = 0 := by
        rw [place, hx, if_neg fun hc => hc.2.1 hfree]
      rw [hold, place, hx, slot_of_empty hself.addrs, ite_self]
    · exact place_stored_of_ne hsb hlt hx fun h0 => (h.books.range _ h0).1
  · refine (h.copy j).stored fun hr hv he => ?_
    obtain ⟨-, hjt, hsame⟩ := h.copy j hr hv
    rw [he] at hsame
    exact hjt (hsame.type.trans hfree)

/-- **`ialloc`** -/
theorem iallocFrom_consistent {type k : ℕ} (hsb : sb.Ok)
    (htype : type ≠ 0 ∧ type < 2 ^ 16) (hk : 0 < k → inum + k ≤ sb.ninodes) :
    Hoare (Peeked s) (iallocFrom sb type k inum)
      (fun _ t => Consistent sb t ∧ Logs s t) Fine := by
  induction k generalizing inum with
  | zero => exact .stop fun _ _ => ⟨nofun, nofun⟩
  | succ k ih =>
    refine .pointwise fun t ht => ?_
    refine ((hoare_bread _).weaken Fine.selfDeadlock).bind fun _ => .pointwise ?_
    rintro _ ⟨hfree, rfl⟩
    refine .gets_bind (.ite (fun h0 => ?_) fun _ => ?_)
    · refine .run_eq ?_ (put_take hfree _ _)
      have ha := (h.peeked ht).alloc hsb (by omega) h0 htype
      refine (iget_consistent ha).conseq (fun _ => id) ?_
      rintro _ u ⟨hu, hlogs, -⟩
      exact ⟨hu, (ht.logs.trans (.put ..)).trans hlogs⟩
    · refine .run_eq ?_ (brelse_take hfree _)
      refine (ih (by omega)).conseq ?_ fun _ _ => id
      rintro _ rfl
      exact ht.trans (peeked_peek _ _)

theorem ialloc_consistent {type : ℕ} (hsb : sb.Ok)
    (htype : type ≠ 0 ∧ type < 2 ^ 16) :
    Hoare (· = s) (ialloc sb type) (fun _ t => Consistent sb t ∧ Logs s t) Fine := by
  refine (iallocFrom_consistent h hsb htype (by omega)).conseq ?_ fun _ _ => id
  rintro _ rfl
  exact Peeked.refl _

end

/-! ## Storing and freeing an inode -/

theorem iupdate_stores {E : Panic → Prop} (hE : ¬ s.Idle → E .selfDeadlock) :
    Hoare (· = s) (iupdate sb ip) (fun _ t => t = s.flushed sb ip) E := by
  constructor
  · rintro _ _ _ rfl h
    rw [iupdate_eq] at h
    split at h <;> cases h
    rfl
  · rintro _ e rfl h
    rw [iupdate_eq] at h
    split at h <;> cases h
    rename_i hheld
    refine hE fun hidle => ?_
    rw [hidle] at hheld
    cases hheld

theorem hoare_iupdate : Hoare (· = s) (iupdate sb ip) (fun _ t => t = s.flushed sb ip) Fine :=
  iupdate_stores fun _ => Fine.selfDeadlock _ rfl

/-- Freeing the blocks of an inode leaves no metadata unlogged. -/
theorem Loose.freed (h : s.Loose sb ip) (hw : Works sb s t ip) (hlogs : Logs s t)
    (hzero : (t.inode ip).addrs NDIRECT = 0) : t.Loose sb ip := by
  intro b hb
  obtain ⟨hle, hne⟩ := h b (hlogs.unlogged b hb)
  refine ⟨hle, fun n => ?_⟩
  by_cases hn : n = (s.inode ip).inum
  · have hpos := hw.books.pos
    rw [hn, ← hw.inum_eq, places_indirect, hzero]
    omega
  · rw [hw.other _ hn]
    exact hne n

/-- **`itrunc`** -/
theorem itrunc_consistent (h : Consistent sb s) (hsb : sb.Ok) (hl : s.Live ip) :
    Hoare (· = s) (itrunc sb ip) (fun _ t => Consistent sb t ∧ Logs s t ∧ t.Live ip ∧
      (t.inode ip).ref = (s.inode ip).ref ∧ ∀ i, i ≤ NDIRECT → (t.inode ip).addrs i = 0) Fine := by
  have hop := h.opened hl
  obtain ⟨-, htype, -⟩ := h.copy ip hl.ref hl.valid
  have hprog : itrunc sb ip =
      ((do (List.range NDIRECT).forM (truncDirect sb ip); truncIndirect sb ip) >>= fun _ => (do
        setInode ip fun i => { i with size := 0 }
        iupdate sb ip)) := by
    unfold itrunc
    simp only [bind_assoc]
  rw [hprog]
  refine ((itrunc_works hsb hop.books).weaken Fine.selfDeadlock).bind fun _ =>
    Hoare.pointwise fun t ht => ?_
  obtain ⟨hw, hlogs, -, hzero⟩ := ht
  have hopt := hop.works hsb hw (hop.loose.freed hw hlogs (hzero _ le_rfl))
  have hf := hopt.fits
  refine (hoare_setInode _).bind fun _ => .pointwise ?_
  rintro _ rfl
  refine hoare_iupdate.conseq (fun _ => id) ?_
  rintro _ _ rfl
  have hopu := hopt.modify (i := { t.inode ip with size := 0 }) rfl rfl rfl
    ⟨hf.type, hf.major, hf.minor, hf.nlink, Nat.two_pow_pos 32, hf.addrs⟩
  have hti := hw.inode
  have hinode : (t.withInode ip { t.inode ip with size := 0 }).inode ip =
      { t.inode ip with size := 0 } := withInode_inode ..
  refine ⟨hopu.close hsb ?_ ⟨?_, fun k hk => ?_⟩, (hlogs.trans (.withInode _)).trans (.put ..),
    ⟨?_, ?_⟩, ?_, fun i hi => ?_⟩
  · rw [hinode, hti]
    exact htype
  · rw [hinode]
    exact Nat.zero_le _
  · rw [hinode] at hk
    exact absurd hk (Nat.not_lt_zero _)
  · exact hopu.ref
  · rw [flushed_inode, hinode, hti]
    exact hl.valid
  · rw [flushed_inode, hinode, hti]
  · rw [flushed_inode, hinode]
    exact hzero i hi

/-- **`iput`**, the freeing path included. -/
theorem iput_consistent (h : Consistent sb s) (hsb : sb.Ok) (href : 0 < (s.inode ip).ref) :
    Hoare (· = s) (iput sb ip) (fun _ t => Consistent sb t ∧ Logs s t) Fine := by
  unfold iput
  refine .gets_bind (.ite (fun hc => ?_) fun _ => ?_)
  · obtain ⟨href1, hvalid, -⟩ := hc
    refine (itrunc_consistent h hsb ⟨href, hvalid⟩).bind fun _ => .pointwise fun t ht => ?_
    obtain ⟨hct, hlogs, hlive, hreft, hzero⟩ := ht
    have hf := (hct.opened hlive).fits
    have hop := (hct.opened hlive).modify (i := { t.inode ip with type := 0 }) rfl rfl rfl
      ⟨Nat.two_pow_pos 16, hf.major, hf.minor, hf.nlink, hf.size, hf.addrs⟩
    refine (hoare_setInode _).bind fun _ => .pointwise ?_
    rintro _ rfl
    refine hoare_iupdate.bind fun _ => .pointwise ?_
    rintro _ rfl
    generalize hu : t.withInode ip { t.inode ip with type := 0 } = u at hop ⊢
    have huip : u.inode ip = { t.inode ip with type := 0 } := by rw [← hu, withInode_inode]
    refine (hoare_setInode _).bind fun _ => .pointwise ?_
    rintro _ rfl
    refine (hoare_setInode _).conseq (fun _ => id) ?_
    rintro _ _ rfl
    have hlogsu : Logs s u := hu ▸ hlogs.trans (.withInode _)
    rw [withInode_withInode, withInode_inode]
    refine ⟨hop.close_free hsb (by rw [huip]) (fun i hi => by rw [huip]; exact hzero i hi) ?_,
      (hlogsu.trans (.put ..)).trans (.withInode _)⟩
    rw [flushed_inode, huip]
    dsimp only
    omega
  · refine (hoare_setInode _).conseq (fun _ => id) ?_
    rintro _ _ rfl
    exact ⟨h.withRef href _, .withInode _⟩

/-- Setting the fields that say nothing about blocks, and `iupdate`. -/
theorem update_consistent {f : Inode → Inode} (h : Consistent sb s) (hsb : sb.Ok) (hl : s.Live ip)
    (hinum : (f (s.inode ip)).inum = (s.inode ip).inum)
    (href : (f (s.inode ip)).ref = (s.inode ip).ref)
    (haddrs : (f (s.inode ip)).addrs = (s.inode ip).addrs)
    (htype : (f (s.inode ip)).type = (s.inode ip).type)
    (hsize : (f (s.inode ip)).size = (s.inode ip).size)
    (hfits : (f (s.inode ip)).toDinode.Fits) :
    Hoare (· = s) (do setInode ip f; iupdate sb ip) (fun _ t => Consistent sb t ∧ Logs s t) Fine := by
  obtain ⟨-, htype0, -⟩ := h.copy ip hl.ref hl.valid
  have hop := (h.opened hl).modify (i := f (s.inode ip)) hinum href haddrs hfits
  refine (hoare_setInode _).bind fun _ => .pointwise ?_
  rintro _ rfl
  refine hoare_iupdate.conseq (fun _ => id) ?_
  rintro _ _ rfl
  refine ⟨hop.close hsb (by rwa [withInode_inode, htype]) ?_, (Logs.withInode _).trans (.put ..)⟩
  rw [places_withInode hinum haddrs, withInode_inode, hinum]
  exact (h.dense_live hl).congr hsize fun _ => rfl

/-! ## Writing -/

/-- `writei` turns the call down. -/
def Rejects (s : Fs) (ip : Fin NINODE) (off n : ℕ) : Prop :=
  (s.inode ip).size < off ∨ (off + n) % 2 ^ 32 < off ∨ MAXFILE * BSIZE < (off + n) % 2 ^ 32

variable (sb) in
/-- A call of `writei` leaves no change unlogged: it is turned down, it
copies everything, or what it copies of the block it stops in was there. -/
def WriteLogs (s : Fs) (ip : Fin NINODE) (src : Source) (off n : ℕ) : Prop :=
  s.Rejects ip off n ∨ src.readable 0 n = n ∨ CopyKept sb s ip src off n

/-- The size `writei` sets. -/
def grown (i : Inode) (last : ℕ) : Inode := if i.size < last then { i with size := last } else i

/-- A call that is not turned down stays inside the largest file. -/
theorem not_rejects {off n : ℕ} (hoff : off < 2 ^ 32) (hn : n < 2 ^ 32)
    (h : ¬ s.Rejects ip off n) : off ≤ (s.inode ip).size ∧ off + n ≤ MAXFILE * BSIZE := by
  unfold Rejects at h
  omega

variable (sb) in
/-- The file system once the loop of `writei` has ended and the inode is
stored. -/
def closed (t : Fs) (ip : Fin NINODE) (last : ℕ) : Fs :=
  (t.withInode ip (grown (t.inode ip) last)).put
    (sb.iblock ((t.withInode ip (grown (t.inode ip) last)).inode ip).inum)
    ((t.withInode ip (grown (t.inode ip) last)).updated sb ip)

/-- **Storing the inode after the loop of `writei`.** -/
theorem Wrote.close {src : Source} {off n last : ℕ} (hw : Wrote sb s t ip src off n last)
    (h : Consistent sb s) (hsb : sb.Ok) (hl : s.Live ip) (hoff : off ≤ (s.inode ip).size)
    (hmax : off + n ≤ MAXFILE * BSIZE) : Consistent sb (t.closed sb ip last) := by
  obtain ⟨-, htype, -⟩ := h.copy ip hl.ref hl.valid
  have hd := h.dense_live hl
  have hop := h.opened hl
  have hwork := hw.writing.works
  have hopt := hop.works hsb hwork (hw.writing.loose hop.loose)
  have hti := hwork.inode
  have hlast := hw.last_le
  have hread : src.readable 0 n ≤ n := Source.readable_le
  -- the new size, and what is allocated below it
  have hsize : (grown (t.inode ip) last).size = max (s.inode ip).size last := by
    rw [grown, hti]
    split
    · exact (max_eq_right (Nat.le_of_lt ‹_›)).symm
    · exact (max_eq_left (Nat.not_lt.1 ‹_›)).symm
  have hbound := hd.size_le
  have hrest : grown (t.inode ip) last =
      { t.inode ip with size := max (s.inode ip).size last } := by
    rw [← hsize, grown]
    split <;> rfl
  have hf := hopt.fits
  rw [closed, hrest]
  have hopu := hopt.modify (i := { t.inode ip with size := max (s.inode ip).size last }) rfl rfl rfl
    ⟨hf.type, hf.major, hf.minor, hf.nlink,
      by simp only [MAXFILE, NDIRECT, NINDIRECT, BSIZE] at *; omega, hf.addrs⟩
  refine hopu.close hsb (by rw [withInode_inode, hti]; exact htype) ?_
  have hplaces : (t.withInode ip { t.inode ip with
      size := max (s.inode ip).size last }).places sb ip = t.places sb ip := places_withInode rfl rfl
  rw [withInode_inode, hplaces]
  refine ⟨by dsimp only; omega, fun k hk => ?_⟩
  dsimp only at hk ⊢
  rw [hwork.inum_eq]
  by_cases hold : k * BSIZE < (s.inode ip).size
  · have := hd.block k hold
    rwa [hw.writing.owned _ this]
  · have := hw.writing.blocks (k * BSIZE) (by omega) (by omega)
    rwa [Nat.mul_div_cancel _ (by decide), fileBlock, hwork.inum_eq] at this

/-- **`writei`** is turned down, or it goes through its loop and stores the
inode. -/
theorem writei_wrote {src : Source} {off n : ℕ} {E : Panic → Prop} (hsb : sb.Ok)
    (hP : Books sb s (s.places sb ip)) (hidle : ¬ s.Idle → E .selfDeadlock)
    (hbmap : ¬ s.Rejects ip off n → ∀ tot u e, tot < n → Writing sb s u ip src off tot →
      bmap sb ip ((off + tot) / BSIZE) u = .error e → E e) :
    Hoare (· = s) (writei sb ip src off n)
      (fun r t => s.Rejects ip off n ∧ r = -1 ∧ t = s ∨ ¬ s.Rejects ip off n ∧ r = n ∧
        (n = 0 ∧ t = s ∨
          0 < n ∧ ∃ u last, Wrote sb s u ip src off n last ∧ t = u.closed sb ip last)) E := by
  refine .gets_bind (.ite (fun hc => .pure ?_) fun hc =>
    Hoare.ite (fun hc' => .pure ?_) fun hc' => ?_)
  · rintro _ rfl
    exact .inl ⟨hc.imp_right .inl, rfl, rfl⟩
  · rintro _ rfl
    exact .inl ⟨.inr (.inr hc'), rfl, rfl⟩
  have hnot : ¬ s.Rejects ip off n := fun hr =>
    hr.elim (fun h1 => hc (.inl h1)) fun h2 => h2.elim (fun h1 => hc (.inr h1)) hc'
  by_cases hn0 : n = 0
  · subst hn0
    refine .bind (R := fun _ t => t = s) (.pure fun _ => id) fun _ => ?_
    rw [if_neg (Nat.lt_irrefl 0)]
    refine .pure ?_
    rintro _ rfl
    exact .inr ⟨hnot, rfl, .inl ⟨rfl, rfl⟩⟩
  have hpos := Nat.pos_of_ne_zero hn0
  refine .bind (R := fun last u => Wrote sb s u ip src off n last) ?_ fun last =>
    Hoare.pointwise fun u hu => ?_
  · refine (writeiLoop_wrote hsb hidle (hbmap hnot) (Nat.le_add_left n 0) (Nat.zero_le _)
      (.inl rfl)).conseq ?_ fun _ _ => id
    rintro _ rfl
    exact ⟨Writing.refl hP, .refl _⟩
  · rw [if_pos hpos]
    refine (hoare_setInode _).bind fun _ => .pointwise ?_
    rintro _ rfl
    refine (iupdate_stores fun hi => hidle fun hc => hi fun b => ?_).bind fun _ => .pure ?_
    · rw [withInode_held, hu.writing.works.held]
      exact hc b
    · rintro _ rfl
      exact .inr ⟨hnot, rfl, .inr ⟨hpos, u, last, hu, rfl⟩⟩

/-- **`writei`**, also when the copy fails part way. -/
theorem writei_consistent {src : Source} {off n : ℕ} (h : Consistent sb s) (hsb : sb.Ok)
    (hl : s.Live ip) (hoff : off < 2 ^ 32) (hn : n < 2 ^ 32) :
    Hoare (· = s) (writei sb ip src off n)
      (fun _ t => Consistent sb t ∧ (WriteLogs sb s ip src off n → Logs s t) ∧
        (¬ WriteLogs sb s ip src off n → ∃ r ∈ t.released, ¬ r.Ok)) Fine := by
  refine (writei_wrote hsb (h.opened hl).books (fun _ => Fine.selfDeadlock _ rfl)
    fun hnot tot u e ht hw he => ?_).conseq (fun _ => id) ?_
  · rcases bmap_error he with rfl | rfl | ⟨-, hbig⟩
    · exact ⟨nofun, nofun⟩
    · exact ⟨nofun, nofun⟩
    · have := (not_rejects hoff hn hnot).2
      simp only [MAXFILE, NDIRECT, NINDIRECT, BSIZE] at *
      omega
  · rintro r t (⟨hr, -, rfl⟩ | ⟨hnot, -, ⟨rfl, rfl⟩ | ⟨hpos, u, last, hu, rfl⟩⟩)
    · exact ⟨h, fun _ => .refl _, fun hc => absurd (.inl hr) hc⟩
    · have hread : src.readable 0 0 = 0 := Nat.le_zero.1 Source.readable_le
      exact ⟨h, fun _ => .refl _, fun hc => absurd (.inr (.inl hread)) hc⟩
    · obtain ⟨hoff', hmax⟩ := not_rejects hoff hn hnot
      have hiff : WriteLogs sb s ip src off n ↔
          src.readable 0 n = n ∨ CopyKept sb s ip src off n := ⟨fun hw => hw.resolve_left hnot, .inr⟩
      rw [hiff]
      refine ⟨hu.close h hsb hl hoff' hmax, fun hc => ?_, fun hc => ?_⟩
      · exact ((hu.logs hc).trans (.withInode _)).trans (.put ..)
      · obtain ⟨r, hr, hbad⟩ := hu.spoiled hc
        exact ⟨r, List.mem_cons_of_mem _ hr, hbad⟩

/-! ## Directories -/

variable (sb) in
/-- What a lookup leaves: nothing changed, or a reference to the inode
found. -/
def Found (s : Fs) (r : Option (Fin NINODE × ℕ)) (t : Fs) : Prop :=
  match r with
  | none => Peeked s t
  | some (jp, _) => Consistent sb t ∧ Logs s t ∧ 0 < (t.inode jp).ref

section

variable (h : Consistent sb s) (hl : s.Live ip)
include h hl

/-- An entry of a directory is read. -/
theorem entry_peeked {off : ℕ} (ht : Peeked s t) :
    Hoare (· = t) (readi sb ip off 16) (fun _ u => Peeked s u) Fine := by
  refine ((readi_peeked (h.dense_live hl) (by decide)).weaken Fine.selfDeadlock).conseq ?_
    fun _ _ => id
  rintro _ rfl
  exact ht

theorem dirlookupFrom_found {name : ℕ → UInt8} {fuel off : ℕ} :
    Hoare (Peeked s) (dirlookupFrom sb ip name fuel off) (fun r t => Found sb s r t) Fine := by
  induction fuel generalizing off with
  | zero => exact .pure fun _ => id
  | succ fuel ih =>
    refine .pointwise fun t ht => .gets_bind (.ite (fun _ => ?_) fun _ => ?_)
    · refine (entry_peeked h hl ht).bind fun l => ?_
      refine .ite (fun _ => .stop fun _ _ => ⟨nofun, nofun⟩) fun _ =>
        Hoare.ite (fun _ => ?_) fun _ => ih
      refine .pointwise fun u hu => ?_
      refine (iget_consistent (h.peeked hu)).bind fun jp => .pure ?_
      rintro v ⟨hv, hlogs, href⟩
      exact ⟨hv, hu.logs.trans hlogs, href⟩
    · refine .pure ?_
      rintro _ rfl
      exact ht

theorem dirlookup_found {name : ℕ → UInt8} :
    Hoare (· = s) (dirlookup sb ip name) (fun r t => Found sb s r t) Fine := by
  refine .gets_bind (.ite (fun _ => .stop fun _ _ => ⟨nofun, nofun⟩) fun _ => ?_)
  refine (dirlookupFrom_found h hl).conseq ?_ fun _ _ => id
  rintro _ rfl
  exact Peeked.refl _

theorem emptyFrom_peeked {fuel off : ℕ} :
    Hoare (Peeked s) (emptyFrom sb ip fuel off)
      (fun off' t => Peeked s t ∧ off' ≤ off + 16 * fuel) Fine := by
  induction fuel generalizing off with
  | zero => exact .pure fun _ ht => ⟨ht, Nat.le_add_right ..⟩
  | succ fuel ih =>
    refine .pointwise fun t ht => .gets_bind (.ite (fun _ => ?_) fun _ => ?_)
    · refine (entry_peeked h hl ht).bind fun l => ?_
      refine .ite (fun _ => .stop fun _ _ => ⟨nofun, nofun⟩) fun _ =>
        Hoare.ite (fun _ => .pure fun _ hu => ⟨hu, Nat.le_add_right ..⟩) fun _ => ?_
      refine ih.conseq (fun _ => id) fun _ _ hu => ⟨hu.1, ?_⟩
      have := hu.2
      omega
    · refine .pure ?_
      rintro _ rfl
      exact ⟨ht, Nat.le_add_right ..⟩

end

/-- **`dirlink`** -/
theorem dirlink_consistent {name : ℕ → UInt8} (h : Consistent sb s) (hsb : sb.Ok)
    (hl : s.Live ip) :
    Hoare (· = s) (dirlink sb ip name inum) (fun _ t => Consistent sb t ∧ Logs s t) Fine := by
  refine (dirlookup_found h hl).bind fun r => ?_
  cases r with
  | some p =>
    obtain ⟨jp, off⟩ := p
    refine .pointwise fun t ht => ?_
    obtain ⟨hct, hlogs, href⟩ := ht
    refine (iput_consistent hct hsb href).bind fun _ => .pure ?_
    rintro u ⟨hu, hlogs'⟩
    exact ⟨hu, hlogs.trans hlogs'⟩
  | none =>
    refine .pointwise fun t ht => .gets_bind ?_
    have ht : Peeked s t := ht
    have hinode : t.inode ip = s.inode ip := by rw [ht.inode]
    have hmax := (h.dense_live hl).size_le
    have hempty : Hoare (· = t) (emptyFrom sb ip ((t.inode ip).size / 16 + 1) 0) _ Fine :=
      (emptyFrom_peeked h hl).conseq (fun _ hu => hu ▸ ht) fun _ _ => id
    refine hempty.bind fun off => .pointwise fun u hu => ?_
    obtain ⟨hu, hoff⟩ := hu
    have hlu : u.Live ip := ⟨by rw [hu.inode]; exact hl.ref, by rw [hu.inode]; exact hl.valid⟩
    refine (writei_consistent (h.peeked hu) hsb hlu ?_ (by decide)).bind fun r => ?_
    · rw [hinode] at hoff
      simp only [MAXFILE, NDIRECT, NINDIRECT, BSIZE] at hmax
      omega
    · refine .ite (fun _ => .stop fun _ _ => ⟨nofun, nofun⟩) fun _ => .pure ?_
      rintro v ⟨hv, hlogs, -⟩
      exact ⟨hv, hu.logs.trans (hlogs (.inr (.inl rfl)))⟩

end Fs

end Xv6
