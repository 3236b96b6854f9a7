import Xv6.Fs.Trunc
/-!
# Writing a file — `writei`

A file is an array of bytes, zero where no block is allocated. `writei`
replaces the bytes the source can deliver, block by block; where the copy
stops inside a block, what was copied of that block stays in the buffer
without having been logged.
-/

namespace Xv6

open Common Function

/-! ## The source -/

namespace Source

variable {src : Source} {tot m n : ℕ}

/-- The byte `i` of the source, if it is there. -/
def byte (src : Source) (i : ℕ) : UInt8 :=
  match src with
  | kernel f => f i
  | user um va => (um.byteAt (va + i)).getD 0

/-- How many of `m` bytes from `tot` on can be copied. -/
def readable (src : Source) (tot m : ℕ) : ℕ :=
  match src with
  | kernel _ => m
  | user um va => um.readable (va + tot) m

theorem readable_le : src.readable tot m ≤ m := by
  cases src with
  | kernel f => exact le_rfl
  | user um va => exact UserMem.readable_le

/-- **What `either_copyin` does.** -/
theorem copyin_eq (blk : Block) (off : ℕ) : src.copyin blk off tot m =
    (decide (src.readable tot m = m),
      blk.splice off (src.readable tot m) fun i => src.byte (tot + i)) := by
  cases src with
  | kernel f => simp [copyin, readable, byte]
  | user um va =>
    have hread : um.readable ((va + tot) % 2 ^ 64) m = um.readable (va + tot) m :=
      UserMem.readable_congr (Nat.mod_mod _ _)
    have hbyte : ∀ i, um.byteAt ((va + tot) % 2 ^ 64 + i) = um.byteAt (va + (tot + i)) := fun i =>
      UserMem.byteAt_congr (by omega)
    simp only [copyin, readable, byte]
    rw [UserMem.copyin_eq (Nat.mod_lt _ (by decide)), hread]
    simp only [hbyte]
    rfl

/-- A chunk inside the range is readable as far as the range is. -/
theorem readable_chunk (h : tot ≤ src.readable 0 n) (hm : tot + m ≤ n) :
    src.readable tot m = min m (src.readable 0 n - tot) := by
  cases src with
  | kernel f =>
    simp only [readable] at *
    omega
  | user um va =>
    simp only [readable, Nat.add_zero] at *
    have hn : um.readable va n ≤ n := UserMem.readable_le
    have hadd : um.readable va n = tot + um.readable (va + tot) (n - tot) :=
      UserMem.readable_add (by omega) fun i hi =>
        UserMem.byteAt_of_lt_readable (Nat.lt_of_lt_of_le hi h)
    have hmin : um.readable (va + tot) m = min m (um.readable (va + tot) (n - tot)) :=
      UserMem.readable_min (by omega)
    omega

end Source

namespace Fs

variable {sb : Superblock} {s₀ s s' t : Fs} {ip : Fin NINODE} {src : Source} {b k off n : ℕ}
  {x : ℕ × ℕ} {blk : Block}

/-! ## The bytes of a file -/

variable (sb) in
/-- The block of file block `k`, zero for none. -/
def fileBlock (s : Fs) (ip : Fin NINODE) (k : ℕ) : ℕ :=
  s.places sb ip ((s.inode ip).inum, slotOf k)

variable (sb) in
/-- The byte at offset `p` of a file. -/
def fileByte (s : Fs) (ip : Fin NINODE) (p : ℕ) : UInt8 :=
  if s.fileBlock sb ip (p / BSIZE) = 0 then 0
  else (s.data (s.fileBlock sb ip (p / BSIZE))).get (p % BSIZE)

theorem fileByte_of_ne {p : ℕ} (h : s.fileBlock sb ip (p / BSIZE) ≠ 0) :
    s.fileByte sb ip p = (s.data (s.fileBlock sb ip (p / BSIZE))).get (p % BSIZE) := if_neg h

/-- Allocating blocks changes no byte. -/
theorem Grows.fileByte (h : Grows sb s t ip) (p : ℕ) : t.fileByte sb ip p = s.fileByte sb ip p := by
  have hne : ((s.inode ip).inum, slotOf (p / BSIZE)) ≠ ((s.inode ip).inum, NDIRECT) :=
    fun he => slotOf_ne _ (congrArg Prod.snd he)
  have hblock : t.fileBlock sb ip (p / BSIZE) =
      t.places sb ip ((s.inode ip).inum, slotOf (p / BSIZE)) := by rw [fileBlock, h.inum_eq]
  by_cases h0 : s.fileBlock sb ip (p / BSIZE) = 0
  · by_cases h1 : t.fileBlock sb ip (p / BSIZE) = 0
    · rw [Fs.fileByte, Fs.fileByte, if_pos h0, if_pos h1]
    · rw [fileByte_of_ne h1, Fs.fileByte, if_pos h0, hblock,
        h.fresh _ h0 (by rwa [← hblock]) hne]
      simp [Bytes.get]
  · have hsame : t.fileBlock sb ip (p / BSIZE) = s.fileBlock sb ip (p / BSIZE) := by
      rw [hblock, h.owned _ h0]
      rfl
    rw [fileByte_of_ne (by rwa [hsame]), fileByte_of_ne h0, hsame]
    exact congrArg (Bytes.get · _) (h.contents _ h0 hne)

/-! ## Writing one block -/

section

variable (hsb : sb.Ok) (hP : Books sb s (s.places sb ip)) (hx : s.places sb ip x ≠ 0)
  (hxn : x.2 ≠ NDIRECT) (hdata : s'.data = update s.data (s.places sb ip x) blk)
  (hinode : s'.inode = s.inode)
include hsb hP hx hxn hdata hinode

/-- Writing a data block of a file moves nothing. -/
theorem places_write : s'.places sb ip = s.places sb ip := by
  have hrange := (hP.range x hx).1
  have hstart := hsb.start
  have hind : ∀ n, s.places sb ip (n, NDIRECT) ≠ 0 →
      s'.data (s.places sb ip (n, NDIRECT)) = s.data (s.places sb ip (n, NDIRECT)) := by
    intro n hn
    rw [hdata, update_of_ne]
    intro he
    exact hxn (congrArg Prod.snd (hP.inj _ _ hn he)).symm
  funext y
  unfold places
  rw [hinode]
  by_cases hy : y.1 = (s.inode ip).inum
  · unfold placeWith
    rw [if_pos hy, if_pos hy]
    by_cases hlt : y.2 < NSLOT
    · rw [if_pos hlt, if_pos hlt]
      refine slot_congr (fun _ _ => rfl) (fun h0 => ?_) y.2
      rw [← places_indirect sb s ip] at h0 ⊢
      exact hind _ h0
    · rw [if_neg hlt, if_neg hlt]
  · refine placeWith_of_low hsb (fun c hc => ?_) hy (hind _)
    rw [hdata, update_of_ne (by omega)]

theorem works_write (hheld : s'.held = s.held) : Works sb s s' ip := by
  have hplaces := places_write hsb hP hx hxn hdata hinode
  have hrange := (hP.range x hx).1
  have hstart := hsb.start
  refine ⟨?_, hheld, by rw [hinode], fun j _ => by rw [hinode], fun c hc => ?_,
    fun y _ => by rw [hplaces]⟩
  · rw [hplaces]
    exact hP.congr fun c hc => by rw [bit_of_update hsb (.inl hrange) hdata hc]
  · rw [hdata, update_of_ne (by omega)]

end

/-- The bytes of a file once one of its blocks is written. -/
theorem fileByte_write (hP : Books sb s (s.places sb ip)) (hb : s.fileBlock sb ip k ≠ 0)
    (hdata : s'.data = update s.data (s.fileBlock sb ip k) blk)
    (hplaces : s'.places sb ip = s.places sb ip) (hinode : s'.inode = s.inode) (p : ℕ) :
    s'.fileByte sb ip p = if p / BSIZE = k then blk.get (p % BSIZE) else s.fileByte sb ip p := by
  have hblock : ∀ j, s'.fileBlock sb ip j = s.fileBlock sb ip j := fun j => by
    rw [fileBlock, fileBlock, hplaces, hinode]
  by_cases hk : p / BSIZE = k
  · rw [if_pos hk, fileByte_of_ne (by rwa [hblock, hk]), hblock, hk, hdata, update_self]
  rw [if_neg hk]
  unfold fileByte
  rw [hblock]
  by_cases h0 : s.fileBlock sb ip (p / BSIZE) = 0
  · rw [if_pos h0, if_pos h0]
  · rw [if_neg h0, if_neg h0, hdata, update_of_ne]
    intro he
    exact hk (slotOf_inj (congrArg Prod.snd (hP.inj _ _ h0 he)))

/-- A block changed and released without being logged. -/
def spoil (s : Fs) (b : ℕ) (blk : Block) : Fs :=
  { s with
    data := update s.data b blk
    released := ⟨b, s.data b, blk, false⟩ :: s.released }

theorem spoil_take {α : Type} (h : s.held b = none) (blk : Block) (k : Kern Fs α) :
    (do setData b blk; brelse b; k) (s.take b) = k (s.spoil b blk) := by
  simp [Prog.bind_run, Prog.modify_run, Except.bind, setData, brelse, take, spoil, held_restore h,
    update_idem]

variable (sb) in
/-- Blocks that differ from what was last logged of them hold data. -/
def Loose (s : Fs) (ip : Fin NINODE) : Prop :=
  ∀ b, s.data b ≠ s.logged b → sb.nmeta ≤ b ∧ ∀ n, s.places sb ip (n, NDIRECT) ≠ b

theorem Loose.grows (h : s.Loose sb ip) (hg : Grows sb s t ip) : t.Loose sb ip := by
  intro b hb
  obtain ⟨hle, hne⟩ := h b (hg.logs.unlogged b hb)
  refine ⟨hle, fun n he => ?_⟩
  have hpos := hg.books.pos
  by_cases h0 : s.places sb ip (n, NDIRECT) = 0
  · have := hg.freshLogged _ h0 (by omega)
    rw [he] at this
    exact hb this
  · rw [hg.owned _ h0] at he
    exact hne n he

/-- Writing a data block leaves the metadata as logged. -/
theorem Loose.write (h : s.Loose sb ip) (hP : Books sb s (s.places sb ip))
    (hx : s.places sb ip x ≠ 0) (hxn : x.2 ≠ NDIRECT)
    (hdata : s'.data = update s.data (s.places sb ip x) blk)
    (hlogged : ∀ c, c ≠ s.places sb ip x → s'.logged c = s.logged c)
    (hplaces : s'.places sb ip = s.places sb ip) : s'.Loose sb ip := by
  intro c hc
  rw [hplaces]
  by_cases hcx : c = s.places sb ip x
  · rw [hcx]
    refine ⟨(hP.range x hx).1, fun n he => hxn ?_⟩
    exact (congrArg Prod.snd (hP.inj x _ hx he.symm))
  · rw [hdata, update_of_ne hcx, hlogged c hcx] at hc
    exact h c hc

/-! ## The loop of `writei` -/

variable (sb) in
/-- `n` bytes of the source have been written at offset `off`. -/
structure Writing (s₀ s : Fs) (ip : Fin NINODE) (src : Source) (off n : ℕ) : Prop where
  works : Works sb s₀ s ip
  owned : ∀ x, s₀.places sb ip x ≠ 0 → s.places sb ip x = s₀.places sb ip x
  bytes : ∀ p, s.fileByte sb ip p =
    if off ≤ p ∧ p < off + n then src.byte (p - off) else s₀.fileByte sb ip p
  blocks : ∀ p, off ≤ p → p < off + n → s.fileBlock sb ip (p / BSIZE) ≠ 0
  loose : s₀.Loose sb ip → s.Loose sb ip
  /-- The blocks of the other inodes hold what they held. -/
  rest : ∀ x : ℕ × ℕ, x.1 ≠ (s₀.inode ip).inum → s₀.places sb ip x ≠ 0 →
    s.data (s₀.places sb ip x) = s₀.data (s₀.places sb ip x)
  /-- Blocks were added on the way to the bytes written and the next. -/
  fills : ∀ x, s₀.places sb ip x = 0 → s.places sb ip x ≠ 0 → x.1 = (s₀.inode ip).inum ∧
    ∃ k, off / BSIZE ≤ k ∧ k * BSIZE ≤ off + n ∧ Leads k x.2

theorem Writing.refl (hP : Books sb s (s.places sb ip)) : Writing sb s s ip src off 0 := by
  refine ⟨(Grows.refl hP).toWorks, fun _ _ => rfl, fun p => ?_, fun p h1 h2 => ?_, id,
    fun _ _ _ => rfl, fun x h0 h1 => absurd h0 h1⟩
  · rw [if_neg (by omega)]
  · omega

/-- **One chunk more.** `m` is what was copied of it. -/
theorem Writing.chunk {m : ℕ} (h : Writing sb s₀ s ip src off n) (hsb : sb.Ok)
    (hg : Grows sb s t ip) (hb : t.fileBlock sb ip ((off + n) / BSIZE) ≠ 0)
    (hfill : ∀ x, t.places sb ip x ≠ s.places sb ip x →
      x.1 = (s.inode ip).inum ∧ Leads ((off + n) / BSIZE) x.2)
    (hm : m ≤ BSIZE - (off + n) % BSIZE)
    (hdata : s'.data = update t.data (t.fileBlock sb ip ((off + n) / BSIZE))
      ((t.data (t.fileBlock sb ip ((off + n) / BSIZE))).splice ((off + n) % BSIZE) m
        fun i => src.byte (n + i)))
    (hlogged : ∀ c, c ≠ t.fileBlock sb ip ((off + n) / BSIZE) → s'.logged c = t.logged c)
    (hinode : s'.inode = t.inode) (hheld : s'.held = t.held) :
    Writing sb s₀ s' ip src off (n + m) := by
  have hne : slotOf ((off + n) / BSIZE) ≠ NDIRECT := slotOf_ne _
  have hplaces := places_write hsb hg.books hb hne hdata hinode
  have hw := works_write hsb hg.books hb hne hdata hinode hheld
  have hbyte := fileByte_write hg.books hb hdata hplaces hinode
  have hblock : ∀ j, s'.fileBlock sb ip j = t.fileBlock sb ip j := fun j => by
    rw [fileBlock, fileBlock, hplaces, hinode]
  refine ⟨(h.works.trans hg.toWorks).trans hw, fun x hx => ?_, fun p => ?_, fun p h1 h2 => ?_,
    fun hl => ?_, fun x hne' hx => ?_, fun x h0 h1 => ?_⟩
  · have hx' : s.places sb ip x ≠ 0 := by rwa [h.owned x hx]
    rw [hplaces, hg.owned x hx', h.owned x hx]
  · rw [hbyte]
    by_cases hp : p / BSIZE = (off + n) / BSIZE
    · have ht : (t.data (t.fileBlock sb ip ((off + n) / BSIZE))).get (p % BSIZE) =
          s.fileByte sb ip p := by
        rw [← hg.fileByte, fileByte_of_ne (by rwa [hp]), hp]
      rw [if_pos hp, Bytes.get_splice, ht, h.bytes]
      simp only [BSIZE] at *
      by_cases hin : off + n ≤ p ∧ p < off + n + m
      · rw [if_pos (by omega), if_pos (by omega)]
        congr 1
        omega
      · rw [if_neg (by omega)]
        by_cases hold : off ≤ p ∧ p < off + n
        · rw [if_pos hold, if_pos (by omega)]
        · rw [if_neg hold, if_neg (by omega)]
    · rw [if_neg hp, hg.fileByte, h.bytes]
      simp only [BSIZE] at *
      by_cases hold : off ≤ p ∧ p < off + n
      · rw [if_pos hold, if_pos (by omega)]
      · rw [if_neg hold, if_neg (by omega)]
  · rw [hblock]
    by_cases hp : p / BSIZE = (off + n) / BSIZE
    · rwa [hp]
    have hlt : p < off + n := by
      simp only [BSIZE] at *
      omega
    have := h.blocks p h1 hlt
    rw [fileBlock, hg.inum_eq, hg.owned _ this]
    exact this
  · exact ((h.loose hl).grows hg).write hg.books hb hne hdata hlogged hplaces
  · have hs := h.owned x hx
    have ht := hg.owned x (by rwa [hs])
    have hinum := h.works.inum_eq
    have hc := hg.contents x (by rwa [hs]) fun he => hne' (hinum ▸ congrArg Prod.fst he)
    rw [hs] at ht hc
    -- the block written is the file's own
    rw [hdata, update_of_ne, hc, h.rest x hne' hx]
    rw [← ht]
    intro he
    refine hne' (congrArg Prod.fst (hg.books.inj x _ (by rwa [ht]) he) |>.trans ?_)
    rw [hg.inum_eq, hinum]
  · rw [hplaces] at h1
    by_cases hx : t.places sb ip x = s.places sb ip x
    · obtain ⟨hi, k, hk1, hk2, hk3⟩ := h.fills x h0 (hx ▸ h1)
      exact ⟨hi, k, hk1, by omega, hk3⟩
    · obtain ⟨hi, hk⟩ := hfill x hx
      refine ⟨hi.trans h.works.inum_eq, (off + n) / BSIZE, Nat.div_le_div_right (by omega), ?_, hk⟩
      have := Nat.div_mul_le_self (off + n) BSIZE
      omega

variable (sb) in
/-- What a copy that stops puts into the block it stops in is what was
there. -/
def CopyKept (s : Fs) (ip : Fin NINODE) (src : Source) (off n : ℕ) : Prop :=
  ∀ i, i < src.readable 0 n → (off + i) / BSIZE = (off + src.readable 0 n) / BSIZE →
    s.fileByte sb ip (off + i) = src.byte i

variable (sb) in
/-- The loop of `writei` has ended at offset `last`. -/
structure Wrote (s₀ s : Fs) (ip : Fin NINODE) (src : Source) (off n last : ℕ) : Prop where
  writing : Writing sb s₀ s ip src off (src.readable 0 n)
  le : off ≤ last
  last_le : last ≤ off + src.readable 0 n
  all : src.readable 0 n = n → last = off + n
  logs : src.readable 0 n = n ∨ CopyKept sb s₀ ip src off n → Logs s₀ s
  spoiled : ¬ (src.readable 0 n = n ∨ CopyKept sb s₀ ip src off n) → ∃ r ∈ s.released, ¬ r.Ok

/-- The chunk a copy stops in is unchanged just if `CopyKept` says so. -/
theorem Writing.splice_eq_iff {tot m : ℕ} (h : Writing sb s₀ s ip src off tot)
    (hg : Grows sb s t ip) (hb : t.fileBlock sb ip ((off + tot) / BSIZE) ≠ 0)
    (htot : tot ≤ src.readable 0 n) (hm : src.readable 0 n < tot + m)
    (hblk : m ≤ BSIZE - (off + tot) % BSIZE) (hstart : tot = 0 ∨ (off + tot) % BSIZE = 0) :
    (t.data (t.fileBlock sb ip ((off + tot) / BSIZE))).splice ((off + tot) % BSIZE)
        (src.readable 0 n - tot) (fun i => src.byte (tot + i)) =
      t.data (t.fileBlock sb ip ((off + tot) / BSIZE)) ↔ CopyKept sb s₀ ip src off n := by
  -- the bytes of the chunk are still those of the file before the call
  have hget : ∀ i, tot ≤ i → i < tot + m →
      (t.data (t.fileBlock sb ip ((off + tot) / BSIZE))).get ((off + i) % BSIZE) =
        s₀.fileByte sb ip (off + i) := by
    intro i h1 h2
    have hdiv : (off + i) / BSIZE = (off + tot) / BSIZE := by
      simp only [BSIZE] at *
      omega
    have hold := h.bytes (off + i)
    rw [if_neg (by omega)] at hold
    rw [← hold, ← hg.fileByte, fileByte_of_ne (by rwa [hdiv]), hdiv]
  constructor
  · intro he i hi hdiv
    have hti : tot ≤ i := by
      simp only [BSIZE] at *
      omega
    rw [← hget i hti (by omega), ← he, Bytes.get_splice]
    simp only [BSIZE] at *
    rw [if_pos (by omega)]
    congr 1
    omega
  · intro hk
    refine Bytes.ext_get fun j hj => ?_
    rw [Bytes.get_splice]
    split
    · rename_i hin
      have hi := hk (tot + (j - (off + tot) % BSIZE)) (by omega) (by simp only [BSIZE] at *; omega)
      rw [← hi, ← hget _ (by omega) (by omega)]
      congr 1
      simp only [BSIZE] at *
      omega
    · rfl

theorem Logs.spoil (hblk : blk = s.data b) : Logs s (s.spoil b blk) := by
  refine .release (r := ⟨b, s.data b, blk, false⟩) rfl (.inl hblk) fun c hc => ?_
  simpa [Fs.spoil, hblk] using hc

/-- **The loop of `writei`.** It stops only where `bmap` does, or for a
buffer that is in use. -/
theorem writeiLoop_wrote {E : Panic → Prop} (hsb : sb.Ok) (hidle : ¬ s₀.Idle → E .selfDeadlock)
    (hbmap : ∀ tot s e, tot < n → Writing sb s₀ s ip src off tot →
      bmap sb ip ((off + tot) / BSIZE) s = .error e → E e)
    {fuel tot : ℕ} (hfuel : n ≤ tot + fuel) (htot : tot ≤ src.readable 0 n)
    (hstart : tot = 0 ∨ (off + tot) % BSIZE = 0 ∨ tot = n) :
    Hoare (fun s => Writing sb s₀ s ip src off tot ∧ Logs s₀ s)
      (writeiLoop sb ip src n fuel tot (off + tot))
      (fun last s => Wrote sb s₀ s ip src off n last) E := by
  have hdone : ∀ {tot s}, n ≤ tot → tot ≤ src.readable 0 n → Writing sb s₀ s ip src off tot →
      Logs s₀ s → Wrote sb s₀ s ip src off n (off + tot) := by
    intro tot s hn htot hw hl
    have hle : src.readable 0 n ≤ n := Source.readable_le
    have hk : src.readable 0 n = n := by omega
    have ht : tot = n := by omega
    subst ht
    exact ⟨by rwa [hk], by omega, by omega, fun _ => rfl, fun _ => hl, fun hc => absurd (.inl hk) hc⟩
  induction fuel generalizing tot with
  | zero => exact .pure fun s hs => hdone hfuel htot hs.1 hs.2
  | succ fuel ih =>
    rw [writeiLoop]
    refine .ite (fun hlt => ?_) fun hlt =>
      Hoare.pure fun s hs => hdone (by omega) htot hs.1 hs.2
    refine .pointwise fun s hs => ?_
    obtain ⟨hw, hl⟩ := hs
    have hfind : Hoare (· = s) (bmap sb ip ((off + tot) / BSIZE))
        (fun b t => Grows sb s t ip ∧ b ≠ 0 ∧ t.fileBlock sb ip ((off + tot) / BSIZE) = b ∧
          ∀ x, t.places sb ip x ≠ s.places sb ip x →
            x.1 = (s.inode ip).inum ∧ Leads ((off + tot) / BSIZE) x.2) E := by
      constructor
      · rintro _ b t rfl h
        obtain ⟨hg, hb, -, hplace, hfill⟩ := bmap_ok hsb hw.works.books h
        exact ⟨hg, hb, by rw [fileBlock, hg.inum_eq, hplace], hfill⟩
      · rintro _ e rfl h
        exact hbmap tot _ e hlt hw h
    refine hfind.bind fun b => .pointwise fun t ht => ?_
    obtain ⟨hg, hb, rfl, hfill⟩ := ht
    have hheld : t.held = s₀.held := hg.held.trans hw.works.held
    refine (bread_reads fun hi => hidle fun hc => hi ?_).bind fun _ => .pointwise ?_
    · intro b
      rw [hheld]
      exact hc b
    rintro _ ⟨hfree, rfl⟩
    refine .gets_bind ?_
    generalize hm : min (n - tot) (BSIZE - (off + tot) % BSIZE) = m
    have hmod : (off + tot) % BSIZE < BSIZE := Nat.mod_lt _ (by decide)
    have hread := Source.readable_chunk (m := m) htot (by omega)
    simp only [Source.copyin_eq, take_data]
    by_cases hok : src.readable tot m = m
    · -- the whole chunk was copied
      rw [hok, decide_eq_true rfl]
      simp only [if_true]
      refine .run_eq ?_ (put_take hfree _ _)
      have := @ih (tot + m) (by omega) (by omega) (by simp only [BSIZE] at *; omega)
      rw [← Nat.add_assoc] at this
      refine this.conseq ?_ fun _ _ => id
      rintro _ rfl
      exact ⟨hw.chunk hsb hg hb hfill (by omega) rfl (fun c hc => update_of_ne hc ..) rfl rfl,
        (hl.trans hg.logs).trans (.put ..)⟩
    · -- the copy stopped inside the chunk
      have hk : src.readable tot m = src.readable 0 n - tot := by omega
      have hkn : src.readable 0 n ≠ n := by omega
      have hiff := hw.splice_eq_iff (n := n) (m := m) hg hb htot (by omega) (by omega) (by omega)
      rw [decide_eq_false hok, hk]
      simp only [Bool.false_eq_true, if_false]
      refine .run_eq ?_ (spoil_take hfree _ _)
      refine .pure ?_
      rintro _ rfl
      have hchunk : Writing sb s₀ (t.spoil _ _) ip src off (tot + (src.readable 0 n - tot)) :=
        hw.chunk hsb hg hb hfill (by omega) rfl (fun _ _ => rfl) rfl rfl
      rw [Nat.add_sub_cancel' htot] at hchunk
      refine ⟨hchunk, by omega, by omega, fun hc => absurd hc hkn, fun hc => ?_, fun hc => ?_⟩
      · exact (hl.trans hg.logs).trans (.spoil (hiff.2 (hc.resolve_left hkn)))
      · refine ⟨_, List.mem_cons_self, ?_⟩
        rintro (hsame | hlog)
        · exact hc (.inr (hiff.1 hsame))
        · cases hlog

end Fs

end Xv6
