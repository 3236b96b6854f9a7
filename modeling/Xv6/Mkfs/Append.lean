import Xv6.Mkfs.Layout
/-!
# `iappend`

A turn of the loop of `iappend` finds a place for the next byte and copies
as much as the block takes. However its input is cut into pieces, the file
ends up with all of it behind what it had.
-/

namespace Xv6

open Common Function List

namespace Mkfs

open Fs (slot slotOf word NSLOT)

variable {s t u : State} {A A' : ℕ → ℕ → ℕ} {C : ℕ → List UInt8} {P : ℕ × ℕ → ℕ} {d : Disk}
  {c l : List UInt8} {i j k n : ℕ} {E : Fault → Prop}

/-! ## One place more -/

/-- The files of the other inodes. -/
theorem Grown.file (h : Grown s t A A' j) (hn : n ≠ j) (hf : File (refs s.img A) s.img n c) :
    File (refs t.img A') t.img n c := by
  have hother : ∀ i, refs t.img A' (n, i) = refs s.img A (n, i) := fun i => h.other _ hn
  refine ⟨hf.length_le, fun k hk => by rw [hother]; exact hf.block k hk,
    by rw [hother]; exact hf.indirect, fun p hp => ?_⟩
  have hlt : p / BSIZE < MAXFILE := by
    have := hf.length_le
    rw [Nat.div_lt_iff_lt_mul (by decide)]
    omega
  have hne := (hf.block _ hlt).2 (by
    have : p / BSIZE * BSIZE ≤ p := Nat.div_mul_le_self ..
    omega)
  rw [hother, h.contents _ hne fun hc => hn (congrArg Prod.fst hc)]
  exact hf.byte p hp

/-- **With the block for the next byte in place**, that byte is part of the
file, whatever it is. -/
theorem Placed.books {din din' : Dinode} {x : ℕ} (h : Books s A C)
    (hp : Placed s t A j (C j).length din din' x) (hmax : (C j).length / BSIZE < MAXFILE) :
    ∃ v, Books t (update A j din'.addrs) (update C j (C j ++ [v])) := by
  refine ⟨(t.img x).get ((C j).length % BSIZE), hp.grown.ledger, hp.grown.le, hp.grown.zero,
    hp.grown.sectors, fun n => ?_⟩
  by_cases hn : n = j
  · subst hn
    rw [update_self]
    have hf := h.file n
    have hlen : (C n).length + 1 ≤ MAXFILE * BSIZE := by
      simp only [MAXFILE, NDIRECT, NINDIRECT, BSIZE] at *
      omega
    refine ⟨by simpa using hlen, fun k hk => ?_, ?_, fun p hlt => ?_⟩
    · rw [length_append, length_singleton]
      by_cases hkf : k = (C n).length / BSIZE
      · rw [hkf, hp.block]
        have : (C n).length / BSIZE * BSIZE ≤ (C n).length := Nat.div_mul_le_self ..
        exact ⟨fun _ => by omega, fun _ => hp.ne⟩
      · rw [hp.rest k hkf, hf.block k hk]
        simp only [BSIZE] at *
        omega
    · rw [hp.indirect, length_append, length_singleton]
      simp only [BSIZE, NDIRECT]
      omega
    · rw [length_append, length_singleton] at hlt
      by_cases hpl : p = (C n).length
      · rw [hpl, hp.block, getD_append_right _ _ _ _ le_rfl, Nat.sub_self]
        rfl
      have hplt : p < (C n).length := by omega
      have hpf : p / BSIZE < MAXFILE := by
        rw [Nat.div_lt_iff_lt_mul (by decide)]
        omega
      have hne := (hf.block _ hpf).2 (by
        have : p / BSIZE * BSIZE ≤ p := Nat.div_mul_le_self ..
        omega)
      rw [hp.grown.owned _ hne, hp.grown.contents _ hne fun hc =>
        Fs.slotOf_ne _ (congrArg Prod.snd hc), hf.byte p hplt, getD_append _ _ _ _ hplt]
  · rw [update_of_ne hn]
    exact hp.grown.file hn (h.file n)

/-! ## Copying a piece -/

/-- Writing the block of another place leaves a file alone. -/
theorem File.write {used : ℕ → Prop} {lo hi : ℕ} {x : ℕ × ℕ} (h : File P d n c)
    (hP : Ledger P used lo hi) (hx : P x ≠ 0) (hn : x.1 ≠ n) (blk : Block) :
    File P (update d (P x) blk) n c := by
  refine ⟨h.length_le, h.block, h.indirect, fun p hp => ?_⟩
  rw [update_of_ne, h.byte p hp]
  intro he
  exact hn (congrArg Prod.fst (hP.inj x _ hx he.symm))

/-- **A piece copied to the end of the file**, where its first byte has a
place already. -/
theorem Books.write {v : UInt8} {x : ℕ} (h : Books t A C) (hc : C j = c ++ [v])
    (hx : refs t.img A (j, slotOf (c.length / BSIZE)) = x) (hl : l ≠ [])
    (hfit : c.length % BSIZE + l.length ≤ BSIZE)
    (hu : u = { t with
      img := update t.img x
        ((t.img x).splice (c.length % BSIZE) l.length fun i => l.getD i 0) }) :
    Books u A (update C j (c ++ l)) ∧ ∀ b, b < nmeta → u.img b = t.img b := by
  have hf := h.file j
  rw [hc] at hf
  have hlen := hf.length_le
  have hpos : 0 < l.length := length_pos_iff.2 hl
  rw [length_append, length_singleton] at hlen
  have hmax : c.length / BSIZE < MAXFILE := by
    rw [Nat.div_lt_iff_lt_mul (by decide)]
    omega
  have hx0 : refs t.img A (j, slotOf (c.length / BSIZE)) ≠ 0 := by
    refine (hf.block _ hmax).2 ?_
    have : c.length / BSIZE * BSIZE ≤ c.length := Nat.div_mul_le_self ..
    rw [length_append, length_singleton]
    omega
  have hrange := h.ledger.range _ hx0
  have hheld := h.ledger.used_of_held hx0
  have hrefs : refs u.img A = refs t.img A := by
    refine refs_congr fun n hn => ?_
    have hself : refs t.img A (n, NDIRECT) = A n NDIRECT := refs_of_le le_rfl
    rw [hu]
    refine update_of_ne (fun he => ?_) ..
    rw [← hself, ← hx] at he
    exact Fs.slotOf_ne _ (congrArg Prod.snd (h.ledger.inj _ _ (by rwa [hself]) he)).symm
  rw [hx] at hrange hheld
  subst hu
  refine ⟨⟨by rw [hrefs]; exact h.ledger, h.le, fun b hb => ?_, h.sectors, fun n => ?_⟩,
    fun b hb => update_of_ne (by omega) ..⟩
  · dsimp only at hb ⊢
    rw [update_of_ne (by omega)]
    exact h.zero b hb
  · rw [hrefs]
    by_cases hn : n = j
    · subst hn
      rw [update_self]
      refine ⟨?_, fun k hk => ?_, ?_, fun p hp => ?_⟩
      · rw [length_append]
        simp only [MAXFILE, NDIRECT, NINDIRECT, BSIZE] at *
        omega
      · rw [hf.block k hk]
        simp only [length_append, length_singleton, BSIZE] at *
        omega
      · rw [hf.indirect]
        simp only [length_append, length_singleton, BSIZE, NDIRECT] at *
        omega
      · rw [length_append] at hp
        by_cases hpb : p / BSIZE = c.length / BSIZE
        · dsimp only
          rw [hpb, hx, update_self, Bytes.get_splice]
          have hold := hf.byte p
          rw [hpb, hx] at hold
          by_cases hpc : p < c.length
          · rw [if_neg (by simp only [BSIZE] at *; omega), hold (by simp; omega),
              getD_append _ _ _ _ hpc, getD_append _ _ _ _ hpc]
          · rw [if_pos (by simp only [BSIZE] at *; omega),
              getD_append_right _ _ _ _ (by omega)]
            congr 1
            simp only [BSIZE] at *
            omega
        · have hpc : p < c.length := by
            simp only [BSIZE] at *
            omega
          have hne : refs t.img A (n, slotOf (p / BSIZE)) ≠ x := by
            rw [← hx]
            intro he
            exact hpb (Fs.slotOf_inj (congrArg Prod.snd (h.ledger.inj _ _ (by rwa [he]) he)))
          dsimp only
          rw [update_of_ne hne, hf.byte p (by simp; omega), getD_append _ _ _ _ hpc,
            getD_append _ _ _ _ hpc]
    · rw [update_of_ne hn]
      have := (h.file n).write h.ledger hx0 (Ne.symm hn)
      rw [hx] at this
      exact this _

/-! ## The loop -/

theorem blockFor_places {din : Dinode} (h : Books s A C) (hdin : din.addrs = A j)
    (hmax : (C j).length / BSIZE < MAXFILE) (hE : Full s (C j).length → E .perror) :
    Hoare (· = s) (blockFor din ((C j).length / BSIZE))
      (fun r t => Placed s t A j (C j).length din r.1 r.2 ∨
        Full s (C j).length ∧ r.2 = FSSIZE ∧ t.sectors = FSSIZE) E := by
  rcases Nat.lt_or_ge ((C j).length / BSIZE) NDIRECT with hlt | hge
  · exact (blockFor_direct h hdin hlt).hoare E
  · rcases blockFor_indirect h hdin hge hmax with ⟨hfull, hrun⟩ | hret
    · exact .of_error hrun (hE hfull)
    · exact hret.hoare E

/-- There is room for `n` bytes more in a file of the length. -/
def Room (s : State) (len n : ℕ) : Prop :=
  len + n ≤ MAXFILE * BSIZE ∧ s.freeblock + nblk (len + n) ≤ FSSIZE + nblk len

theorem not_room_of_full (h : Full s n) (hk : 0 < k) : ¬ Room s n k := by
  intro hr
  have := hr.2
  have hmono : nblk (n + 1) ≤ nblk (n + k) := nblk_mono (by omega)
  unfold Full at h
  omega

/-- **The bytes have been appended to inode `j`.** -/
structure Appends (s t : State) (A A' : ℕ → ℕ → ℕ) (C : ℕ → List UInt8) (j : ℕ)
    (l : List UInt8) : Prop where
  books : Books t A' (update C j (C j ++ l))
  low : ∀ b, b < nmeta → t.img b = s.img b
  freeinode : t.freeinode = s.freeinode
  count : t.freeblock + nblk (C j).length = s.freeblock + nblk ((C j).length + l.length)

theorem Appends.refl (h : Books s A C) (j : ℕ) : Appends s s A A C j [] := by
  refine ⟨?_, fun _ _ => rfl, rfl, rfl⟩
  rwa [append_nil, update_eq_self]

theorem Appends.trans {A'' : ℕ → ℕ → ℕ} {m : List UInt8} (h : Appends s t A A' C j l)
    (h' : Appends t u A' A'' (update C j (C j ++ l)) j m) :
    Appends s u A A'' C j (l ++ m) := by
  have hb := h'.books
  have hc := h'.count
  have hc₀ := h.count
  rw [update_self, append_assoc, update_idem] at hb
  rw [update_self, length_append] at hc
  refine ⟨hb, fun b hlt => (h'.low b hlt).trans (h.low b hlt), h'.freeinode.trans h.freeinode, ?_⟩
  rw [length_append, ← Nat.add_assoc]
  omega

theorem Appends.room {m : ℕ} (h : Appends s t A A' C j l)
    (hr : Room s (C j).length (l.length + m)) :
    Room t ((C j).length + l.length) m := by
  have hc := h.count
  obtain ⟨h1, h2⟩ := hr
  rw [← Nat.add_assoc] at h1 h2
  exact ⟨h1, by omega⟩

/-- One turn of the loop. -/
theorem Placed.appends {din din' : Dinode} {x : ℕ} (h : Books s A C)
    (hp : Placed s t A j (C j).length din din' x) (hmax : (C j).length / BSIZE < MAXFILE)
    (hl : l ≠ []) (hfit : (C j).length % BSIZE + l.length ≤ BSIZE)
    (hu : u = { t with
      img := update t.img x
        ((t.img x).splice ((C j).length % BSIZE) l.length fun i => l.getD i 0) }) :
    Appends s u A (update A j din'.addrs) C j l := by
  obtain ⟨v, hb⟩ := hp.books h hmax
  obtain ⟨hbooks, hlow⟩ := hb.write (update_self ..) hp.block hl hfit hu
  rw [update_idem] at hbooks
  have hcount := hp.count
  have hnblk : nblk ((C j).length + l.length) = nblk ((C j).length + 1) := by
    have hpos : 0 < l.length := length_pos_iff.2 hl
    unfold nblk
    simp only [BSIZE, NDIRECT] at *
    split <;> split <;> omega
  refine ⟨hbooks, fun b hlt => (hlow b hlt).trans (hp.grown.low b hlt), ?_, ?_⟩
  · rw [hu]
    exact hp.grown.freeinode
  · rw [hnblk, ← hcount, hu]

/-- Reading, changing and writing back a block of the image. -/
theorem rsect_wsect {α : Type} {x : ℕ} (hs : s.sectors = FSSIZE) (hx : x < FSSIZE)
    (f : Block → Block) (m : Unit → Run α) :
    (do let buf ← rsect x; let u ← wsect x (f buf); m u) s =
      m () { s with img := update s.img x (f (s.img x)) } := by
  rw [Prog.bind_run, rsect_run hs hx]
  dsimp only [Except.bind]
  rw [Prog.bind_run, wsect_run hs hx]
  rfl

/-- There is nothing left to append. -/
theorem Books.appended {din : Dinode} {p : List UInt8} (h : Books s A C) (hdin : din.addrs = A j)
    (hp : p.length = 0) (t : State) (ht : t = s) :
    Appends s t A (update A j din.addrs) C j p ∧
      din = { din with addrs := din.addrs } ∧ (C j).length = (C j).length + p.length := by
  rw [length_eq_zero_iff.1 hp, hdin, update_eq_self, ht]
  exact ⟨Appends.refl h j, rfl, rfl⟩

/-- **The loop of `iappend`.** -/
theorem iappendLoop_appends {fuel : ℕ} {din : Dinode} {p : List UInt8} (h : Books s A C)
    (hdin : din.addrs = A j) (hfuel : p.length ≤ fuel)
    (hE : ¬ Room s (C j).length p.length → ∀ e, E e) :
    Hoare (· = s) (iappendLoop fuel din (C j).length p)
      (fun r t => Appends s t A (update A j r.1.addrs) C j p ∧
        r.1 = { din with addrs := r.1.addrs } ∧ r.2 = (C j).length + p.length) E := by
  induction fuel generalizing s A C din p with
  | zero => exact .pure (h.appended hdin (by omega))
  | succ fuel ih =>
    rw [iappendLoop]
    refine .ite (fun hp => .pure (h.appended hdin hp)) fun hp => ?_
    refine .ite (fun hmax => .stop fun _ _ => hE ?_ _) fun hmax => ?_
    · rintro ⟨hr, -⟩
      simp only [BSIZE, MAXFILE, NDIRECT, NINDIRECT] at *
      omega
    · have hmax : (C j).length / BSIZE < MAXFILE := by omega
      have hfull : Full s (C j).length → ∀ e, E e := fun hf =>
        hE (not_room_of_full hf (by omega))
      refine (blockFor_places h hdin hmax fun hf => hfull hf _).bind fun r => ?_
      obtain ⟨din', x⟩ := r
      refine .pointwise fun t ht => ?_
      dsimp only at ht ⊢
      rcases ht with hp' | ⟨hf, rfl, hsec⟩
      · -- the piece `l` that fits into the block, and the rest of the input
        obtain ⟨l, q, hlq, hl, hfit, hn⟩ : ∃ l q, p = l ++ q ∧ l ≠ [] ∧
            (C j).length % BSIZE + l.length ≤ BSIZE ∧
            min p.length (((C j).length / BSIZE + 1) * BSIZE - (C j).length) = l.length := by
          generalize hn : min p.length (((C j).length / BSIZE + 1) * BSIZE - (C j).length) = n1
          simp only [BSIZE] at *
          have hlen : (p.take n1).length = n1 := by
            rw [length_take]
            omega
          refine ⟨p.take n1, p.drop n1, (take_append_drop n1 p).symm, fun hnil => ?_,
            by omega, hlen.symm⟩
          rw [hnil, length_nil] at hlen
          omega
        subst hlq
        have hx := hp'.grown.ledger.range (j, slotOf ((C j).length / BSIZE))
          (by rw [hp'.block]; exact hp'.ne)
        rw [hp'.block] at hx
        have hoff : (C j).length - (C j).length / BSIZE * BSIZE = (C j).length % BSIZE := by
          simp only [BSIZE]
          omega
        have hsplice : ∀ b : Block, b.splice ((C j).length % BSIZE) l.length
            (fun i => (l ++ q).getD i 0) = b.splice ((C j).length % BSIZE) l.length
              fun i => l.getD i 0 := fun b =>
          Bytes.splice_congr b fun i hi => getD_append _ _ _ _ hi
        rw [hn, hoff, drop_left]
        simp only [hsplice]
        refine .run_eq ?_ (rsect_wsect hp'.grown.sectors hx.2 _ _)
        have happ := hp'.appends h hmax hl hfit rfl
        have hlen : (update C j (C j ++ l) j).length = (C j).length + l.length := by
          rw [update_self, length_append]
        have haddrs : din'.addrs = update A j din'.addrs j := by
          rw [update_self]
        have hrest := ih (p := q) happ.books haddrs
          (by rw [length_append] at hfuel; have := length_pos_iff.2 hl; omega)
          fun hr => hE fun hroom => hr (by
            rw [hlen]
            exact happ.room (by rwa [← length_append]))
        rw [hlen] at hrest
        refine hrest.conseq (fun _ => id) ?_
        rintro r v ⟨happ', hsame, hr⟩
        have htrans := happ.trans happ'
        rw [update_idem] at htrans
        refine ⟨htrans, ?_, ?_⟩
        · rw [hsame, hp'.same]
        · rw [hr, length_append, Nat.add_assoc]
      · have hstop : ∀ m : Block → Run (Dinode × ℕ), (rsect FSSIZE >>= m) t =
            (Prog.stop .perror : Run (Dinode × ℕ)) t := by
          intro m
          rw [Prog.bind_run, rsect_past hsec]
          rfl
        exact .run_eq (.stop fun _ _ => hfull hf _) (hstop _)

end Mkfs

end Xv6
