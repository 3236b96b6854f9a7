import Xv6.Fs.Map
import Xv6.Mkfs.Model
/-!
# Appending to a file of the image

While `mkfs` works on an inode, the inode's addresses are in `din` and not
yet on disk. So the addresses of all inodes are carried along in `A`, next
to the contents `C` they stand for: the blocks handed out so far are those
in some inode's place, each in one, and a file has just the blocks its
length needs.
-/

namespace Xv6

open Common Function

namespace Mkfs

open Fs (slot slotOf word NSLOT)

variable {d d' : Disk} {A : ℕ → ℕ → ℕ} {C : ℕ → List UInt8} {P : ℕ × ℕ → ℕ} {addrs : ℕ → ℕ}
  {x : ℕ × ℕ} {b i j k lo hi : ℕ} {used : ℕ → Prop}

/-! ## Places -/

/-- The block in place `x.2` of inode `x.1`. -/
def refs (d : Disk) (A : ℕ → ℕ → ℕ) (x : ℕ × ℕ) : ℕ := if x.2 < NSLOT then slot d (A x.1) x.2 else 0

theorem refs_of_lt (h : i < NSLOT) : refs d A (j, i) = slot d (A j) i := if_pos h

theorem refs_of_le (h : i ≤ NDIRECT) : refs d A (j, i) = A j i := by
  rw [refs_of_lt (by simp only [NSLOT, MAXFILE]; omega), Fs.slot_of_le h]

theorem refs_entry (h : A j NDIRECT ≠ 0) (hk : k < NINDIRECT) :
    refs d A (j, NDIRECT + 1 + k) = word (d (A j NDIRECT)) k := by
  rw [refs_of_lt (by simp only [NSLOT, MAXFILE]; omega), Fs.slot_entry h]

/-- The places depend on the addresses and the indirect blocks alone. -/
theorem refs_congr (h : ∀ j, A j NDIRECT ≠ 0 → d' (A j NDIRECT) = d (A j NDIRECT)) :
    refs d' A = refs d A := by
  funext x
  unfold refs
  rw [Fs.slot_congr (fun _ _ => rfl) (h x.1)]

/-- A zeroed block at an address fills that place. -/
theorem refs_addr (hzero : d b = fun _ => 0) (hb : b ≠ 0) (hi : i ≤ NDIRECT) (h0 : A j i = 0) :
    refs d (update A j (update (A j) i b)) =
      update (refs d A) (j, i) b := by
  refine Fs.eq_update_place (f := slot d (A j)) (by simp only [NSLOT, MAXFILE]; omega)
    (fun m => rfl) (fun m => ?_) fun x hx => ?_
  · rw [refs, update_self, Fs.slot_update hi (fun _ => rfl) fun _ => ⟨h0, hb, hzero⟩]
  · rw [refs, refs, update_of_ne hx]

/-- Writing an entry of an indirect block fills its place. -/
theorem refs_write_entry (hP : Ledger (refs d A) used lo hi) (hind : A j NDIRECT ≠ 0)
    (hk : k < NINDIRECT) (hb : b < 2 ^ 32) :
    refs (update d (A j NDIRECT) ((d (A j NDIRECT)).writeLE (4 * k) 4 b)) A =
      update (refs d A) (j, NDIRECT + 1 + k) b := by
  refine Fs.eq_update_place (f := slot d (A j)) (by simp only [NSLOT, MAXFILE]; omega)
    (fun m => rfl) (fun m => by rw [refs, Fs.slot_write hind hk hb]) fun x hx => ?_
  unfold refs
  rw [Fs.slot_congr (fun _ _ => rfl) fun h0 => ?_]
  -- the indirect block is nobody else's
  rw [update_of_ne]
  intro he
  have hself : ∀ n, refs d A (n, NDIRECT) = A n NDIRECT := fun n => refs_of_le le_rfl
  have := hP.inj (x.1, NDIRECT) (j, NDIRECT) (by rwa [hself]) (by rw [hself, hself, he])
  exact hx (congrArg Prod.fst this)

/-! ## Files -/

/-- **Inode `j` has the contents**, and no block but those they need. -/
structure File (P : ℕ × ℕ → ℕ) (d : Disk) (j : ℕ) (c : List UInt8) : Prop where
  length_le : c.length ≤ MAXFILE * BSIZE
  block : ∀ k, k < MAXFILE → (P (j, slotOf k) ≠ 0 ↔ k * BSIZE < c.length)
  indirect : P (j, NDIRECT) ≠ 0 ↔ NDIRECT * BSIZE < c.length
  byte : ∀ p, p < c.length → (d (P (j, slotOf (p / BSIZE)))).get (p % BSIZE) = c.getD p 0

/-- The number of blocks a file of the length takes. -/
def nblk (len : ℕ) : ℕ := (len + (BSIZE - 1)) / BSIZE + if NDIRECT * BSIZE < len then 1 else 0

theorem nblk_mono {m n : ℕ} (h : m ≤ n) : nblk m ≤ nblk n := by
  unfold nblk
  simp only [BSIZE, NDIRECT]
  split <;> split <;> omega

/-- **The blocks handed out are those in the inodes' places**, and the
files have their contents. -/
structure Books (s : State) (A : ℕ → ℕ → ℕ) (C : ℕ → List UInt8) : Prop where
  ledger : Ledger (refs s.img A) (· < s.freeblock) nmeta FSSIZE
  le : s.freeblock ≤ FSSIZE
  zero : ∀ b, s.freeblock ≤ b → s.img b = fun _ => 0
  sectors : s.sectors = FSSIZE
  file : ∀ j, File (refs s.img A) s.img j (C j)

/-! ## Handing out blocks -/

variable {s t u : State} {A' : ℕ → ℕ → ℕ}

/-- **Blocks have been handed to inode `j`**: what was in a place stays
there, with its contents. -/
structure Grown (s t : State) (A A' : ℕ → ℕ → ℕ) (j : ℕ) : Prop where
  ledger : Ledger (refs t.img A') (· < t.freeblock) nmeta FSSIZE
  le : t.freeblock ≤ FSSIZE
  zero : ∀ b, t.freeblock ≤ b → t.img b = fun _ => 0
  sectors : t.sectors = FSSIZE
  freeinode : t.freeinode = s.freeinode
  low : ∀ b, b < nmeta → t.img b = s.img b
  other : ∀ x, x.1 ≠ j → refs t.img A' x = refs s.img A x
  owned : ∀ x, refs s.img A x ≠ 0 → refs t.img A' x = refs s.img A x
  contents : ∀ x, refs s.img A x ≠ 0 → x ≠ (j, NDIRECT) →
    t.img (refs s.img A x) = s.img (refs s.img A x)

namespace Grown

theorem refl (h : Books s A C) (j : ℕ) : Grown s s A A j :=
  ⟨h.ledger, h.le, h.zero, h.sectors, rfl, fun _ _ => rfl, fun _ _ => rfl, fun _ _ => rfl,
    fun _ _ _ => rfl⟩

theorem trans {A'' : ℕ → ℕ → ℕ} (h : Grown s t A A' j) (h' : Grown t u A' A'' j) :
    Grown s u A A'' j := by
  refine ⟨h'.ledger, h'.le, h'.zero, h'.sectors, h'.freeinode.trans h.freeinode,
    fun b hb => (h'.low b hb).trans (h.low b hb), fun x hx => (h'.other x hx).trans (h.other x hx),
    fun x hx => ?_, fun x hx hne => ?_⟩
  · have hx' : refs t.img A' x ≠ 0 := by rwa [h.owned x hx]
    rw [h'.owned x hx', h.owned x hx]
  · have hx' : refs t.img A' x ≠ 0 := by rwa [h.owned x hx]
    have := h'.contents x hx' hne
    rw [h.owned x hx] at this
    rw [this, h.contents x hx hne]

end Grown

/-! ## The image file -/

theorem sector_of_le (h : b ≤ FSSIZE) : sector b = b := by
  simp only [sector, BSIZE, FSSIZE] at *
  omega

theorem rsect_run (hs : s.sectors = FSSIZE) (hb : b < FSSIZE) : rsect b s = .ok (s.img b, s) := by
  rw [rsect, sector_of_le (Nat.le_of_lt hb), hs, if_pos hb]

theorem rsect_past (hs : s.sectors = FSSIZE) : rsect FSSIZE s = .error .perror := by
  rw [rsect, sector_of_le le_rfl, hs, if_neg (Nat.lt_irrefl _)]

theorem wsect_run (hs : s.sectors = FSSIZE) (hb : b < FSSIZE) (buf : Block) :
    wsect b buf s = .ok ((), { s with img := update s.img b buf }) := by
  rw [wsect, Prog.modify_run, sector_of_le (Nat.le_of_lt hb), Nat.max_eq_left (by omega)]

/-! ## Filling a place -/

/-- Place `i` of inode `j` holds `b`, which was there or is the next
block. -/
structure Filled (s t : State) (A A' : ℕ → ℕ → ℕ) (j i b : ℕ) : Prop where
  grown : Grown s t A A' j
  refs_eq : refs t.img A' = update (refs s.img A) (j, i) b
  ne : b ≠ 0
  count : t.freeblock = s.freeblock + if refs s.img A (j, i) = 0 then 1 else 0

/-- There was no block for place `i` of inode `j`, and `b` is past the
end. -/
structure Exhausted (s t : State) (A : ℕ → ℕ → ℕ) (j i b : ℕ) : Prop where
  empty : refs s.img A (j, i) = 0
  eq : b = FSSIZE
  full : s.freeblock = FSSIZE
  sectors : t.sectors = FSSIZE

theorem Grown.freeblock_ne (h : Grown s t A A' j) : t.freeblock ≠ 0 := by
  have : nmeta - 1 < t.freeblock := (h.ledger.used_iff _ (by decide)).2 (.inl (by decide))
  omega

/-- What is in its place already. -/
theorem Grown.filled (h : Grown s t A A' j) (hne : refs t.img A' (j, i) ≠ 0) :
    Filled t t A' A' j i (refs t.img A' (j, i)) := by
  refine ⟨⟨h.ledger, h.le, h.zero, h.sectors, rfl, fun _ _ => rfl, fun _ _ => rfl, fun _ _ => rfl,
    fun _ _ _ => rfl⟩, (update_eq_self ..).symm, hne, ?_⟩
  rw [if_neg hne, Nat.add_zero]

theorem nextAddr_fills {din : Dinode} (h : Grown s t A A' j) (hdin : din.addrs = A' j)
    (hi : i ≤ NDIRECT) : ∃ din' u, nextAddr din i t = .ok (din', u) ∧
      din' = { din with addrs := din'.addrs } ∧
      (Filled t u A' (update A' j din'.addrs) j i (din'.addrs i) ∨
        Exhausted t u A' j i (din'.addrs i)) := by
  have hplace : refs t.img A' (j, i) = A' j i := refs_of_le hi
  unfold nextAddr
  by_cases h0 : A' j i = 0
  · refine ⟨{ din with addrs := update din.addrs i t.freeblock },
      { t with freeblock := t.freeblock + 1 }, ?_, rfl, ?_⟩
    · rw [if_pos (by rw [hdin, h0])]
      rfl
    · dsimp only
      rw [update_self, hdin]
      rcases Nat.lt_or_ge t.freeblock FSSIZE with hroom | hfull
      · left
        have hrefs := refs_addr (h.zero _ le_rfl) h.freeblock_ne hi h0
        refine ⟨⟨?_, hroom, fun b hb => h.zero b (Nat.le_of_succ_le hb), h.sectors, rfl,
          fun _ _ => rfl, fun x hxj => ?_, fun x hx => ?_, fun _ _ _ => rfl⟩, hrefs,
          h.freeblock_ne, ?_⟩
        · rw [hrefs]
          exact h.ledger.alloc (hplace.trans h0) hroom (by simp) fun c _ => by dsimp only; omega
        · rw [hrefs, update_of_ne]
          rintro rfl
          exact hxj rfl
        · rw [hrefs, update_of_ne]
          rintro rfl
          exact hx (hplace.trans h0)
        · rw [if_pos (hplace.trans h0)]
      · have := h.le
        exact .inr ⟨hplace.trans h0, by omega, by omega, h.sectors⟩
  · refine ⟨din, t, ?_, rfl, .inl ?_⟩
    · rw [if_neg (by rwa [hdin])]
      rfl
    · have := h.filled (i := i) (by rwa [hplace])
      rwa [hdin, update_eq_self, ← hplace]

theorem nextEntry_fills (h : Grown s t A A' j) (hind : A' j NDIRECT ≠ 0) (hk : k < NINDIRECT) :
    ∃ b u, nextEntry (A' j NDIRECT) k t = .ok (b, u) ∧
      (Filled t u A' A' j (NDIRECT + 1 + k) b ∨ Exhausted t u A' j (NDIRECT + 1 + k) b) := by
  have hself : refs t.img A' (j, NDIRECT) = A' j NDIRECT := refs_of_le le_rfl
  have hplace : refs t.img A' (j, NDIRECT + 1 + k) = word (t.img (A' j NDIRECT)) k :=
    refs_entry hind hk
  have hrange := h.ledger.range (j, NDIRECT) (by rwa [hself])
  have hheld := h.ledger.used_of_held (x := (j, NDIRECT)) (by rwa [hself])
  rw [hself] at hrange hheld
  unfold nextEntry
  rw [Prog.bind_run, rsect_run h.sectors hrange.2]
  dsimp only [Except.bind]
  by_cases h0 : word (t.img (A' j NDIRECT)) k = 0
  · have hx := hplace.trans h0
    rw [if_pos h0]
    refine ⟨t.freeblock, { t with
      img := update t.img (A' j NDIRECT)
        ((t.img (A' j NDIRECT)).writeLE (4 * k) 4 t.freeblock)
      freeblock := t.freeblock + 1 }, ?_, ?_⟩
    · change (wsect (A' j NDIRECT) _ >>= fun _ => pure t.freeblock : Run ℕ)
        { t with freeblock := t.freeblock + 1 } = _
      rw [Prog.bind_run,
        wsect_run (s := { t with freeblock := t.freeblock + 1 }) h.sectors hrange.2]
      rfl
    · rcases Nat.lt_or_ge t.freeblock FSSIZE with hroom | hfull
      · left
        have hrefs := refs_write_entry h.ledger hind hk (b := t.freeblock) (by
          simp only [FSSIZE] at hroom
          omega)
        refine ⟨⟨?_, hroom, fun b hb => ?_, h.sectors, rfl, fun b hb => ?_, fun x hxj => ?_,
          fun x hx' => ?_, fun x hx' hne => ?_⟩, hrefs, h.freeblock_ne, ?_⟩
        · rw [hrefs]
          exact h.ledger.alloc hx hroom (by simp) fun c _ => by dsimp only; omega
        · dsimp only at hb ⊢
          rw [update_of_ne (by omega)]
          exact h.zero b (by omega)
        · exact update_of_ne (by omega) ..
        · rw [hrefs, update_of_ne]
          rintro rfl
          exact hxj rfl
        · rw [hrefs, update_of_ne]
          rintro rfl
          exact hx' hx
        · refine update_of_ne (fun he => hne ?_) ..
          exact h.ledger.inj _ _ hx' (by rw [hself, he])
        · rw [if_pos hx]
      · have := h.le
        exact .inr ⟨hx, by omega, by omega, h.sectors⟩
  · rw [if_neg h0]
    refine ⟨_, t, rfl, .inl ?_⟩
    rw [← hplace] at h0 ⊢
    exact h.filled h0

/-! ## `blockFor` -/

/-- One byte more takes a block at the start of a block, and the indirect
block when the direct ones are full. -/
theorem nblk_succ (len : ℕ) : nblk (len + 1) =
    nblk len + (if len % BSIZE = 0 then 1 else 0) + if len = NDIRECT * BSIZE then 1 else 0 := by
  unfold nblk
  simp only [BSIZE, NDIRECT]
  split <;> split <;> split <;> split <;> omega

/-- **`blockFor` has found or handed out the block** the next byte of the
file goes to. -/
structure Placed (s t : State) (A : ℕ → ℕ → ℕ) (j len : ℕ) (din din' : Dinode) (x : ℕ) : Prop where
  grown : Grown s t A (update A j din'.addrs) j
  same : din' = { din with addrs := din'.addrs }
  block : refs t.img (update A j din'.addrs) (j, slotOf (len / BSIZE)) = x
  ne : x ≠ 0
  rest : ∀ k, k ≠ len / BSIZE → refs t.img (update A j din'.addrs) (j, slotOf k) =
    refs s.img A (j, slotOf k)
  indirect : refs t.img (update A j din'.addrs) (j, NDIRECT) ≠ 0 ↔ NDIRECT ≤ len / BSIZE
  count : t.freeblock + nblk len = s.freeblock + nblk (len + 1)

/-- The image has no room for one byte more. -/
def Full (s : State) (len : ℕ) : Prop := FSSIZE + nblk len < s.freeblock + nblk (len + 1)

/-- A file's last block is there unless the file ends with a block. -/
theorem File.last_iff {c : List UInt8} (h : File P d j c) (hlt : c.length / BSIZE < MAXFILE) :
    P (j, slotOf (c.length / BSIZE)) = 0 ↔ c.length % BSIZE = 0 := by
  have := h.block _ hlt
  rw [← not_iff_not, ← ne_eq, this]
  simp only [BSIZE]
  omega

theorem blockFor_direct {din : Dinode} (h : Books s A C) (hdin : din.addrs = A j)
    (hfbn : (C j).length / BSIZE < NDIRECT) :
    Returns (blockFor din ((C j).length / BSIZE)) s fun r t =>
      Placed s t A j (C j).length din r.1 r.2 ∨
        Full s (C j).length ∧ r.2 = FSSIZE ∧ t.sectors = FSSIZE := by
  have hslot : slotOf ((C j).length / BSIZE) = (C j).length / BSIZE := if_pos hfbn
  have hlen : (C j).length < NDIRECT * BSIZE := by
    simp only [BSIZE, NDIRECT] at *
    omega
  have hind : refs s.img A (j, NDIRECT) = 0 := by
    by_contra hne
    have := (h.file j).indirect.1 hne
    omega
  have hlast := (h.file j).last_iff (Nat.lt_of_lt_of_le hfbn (Nat.le_add_right ..))
  rw [hslot] at hlast
  have hcount := nblk_succ (C j).length
  rw [if_neg (by omega : ¬ (C j).length = NDIRECT * BSIZE)] at hcount
  obtain ⟨din', t, hrun, hsame, hfill⟩ := nextAddr_fills (Grown.refl h j) hdin (Nat.le_of_lt hfbn)
  refine ⟨(din', din'.addrs ((C j).length / BSIZE)), t, ?_, hfill.imp (fun hf => ?_) fun he => ?_⟩
  · rw [blockFor, if_pos hfbn, Prog.bind_run, hrun]
    rfl
  · refine ⟨hf.grown, hsame, ?_, hf.ne, fun k hk => ?_, ?_, ?_⟩
    · rw [hslot, hf.refs_eq, update_self]
    · rw [hf.refs_eq, update_of_ne]
      intro he
      refine hk (Fs.slotOf_inj ?_)
      rw [hslot]
      exact congrArg Prod.snd he
    · rw [hf.refs_eq, update_of_ne (by simp only [ne_eq, Prod.mk.injEq, true_and]; omega),
        hind]
      simp only [ne_eq, not_true_eq_false, false_iff]
      omega
    · have := hf.count
      simp only [hlast] at this
      omega
  · refine ⟨?_, he.eq, he.sectors⟩
    rw [if_pos (hlast.1 he.empty)] at hcount
    have := he.full
    unfold Full
    omega

theorem blockFor_indirect {din : Dinode} (h : Books s A C) (hdin : din.addrs = A j)
    (hfbn : NDIRECT ≤ (C j).length / BSIZE) (hmax : (C j).length / BSIZE < MAXFILE) :
    Full s (C j).length ∧ blockFor din ((C j).length / BSIZE) s = .error .perror ∨
      Returns (blockFor din ((C j).length / BSIZE)) s fun r t =>
        Placed s t A j (C j).length din r.1 r.2 ∨
          Full s (C j).length ∧ r.2 = FSSIZE ∧ t.sectors = FSSIZE := by
  have hslot : slotOf ((C j).length / BSIZE) = NDIRECT + 1 + ((C j).length / BSIZE - NDIRECT) := by
    rw [slotOf, if_neg (by omega)]
    omega
  have hk : (C j).length / BSIZE - NDIRECT < NINDIRECT := by
    simp only [MAXFILE] at hmax
    omega
  have hlast := (h.file j).last_iff hmax
  rw [hslot] at hlast
  have hind : refs s.img A (j, NDIRECT) = 0 ↔ (C j).length = NDIRECT * BSIZE := by
    have := (h.file j).indirect
    rw [← not_iff_not, ← ne_eq, this]
    simp only [BSIZE, NDIRECT] at *
    omega
  have hcount := nblk_succ (C j).length
  simp only [← hlast, ← hind] at hcount
  obtain ⟨din', t, hrun, hsame, hfill⟩ := nextAddr_fills (Grown.refl h j) hdin le_rfl
  have hblock : blockFor din ((C j).length / BSIZE) s =
      (do let x ← nextEntry (din'.addrs NDIRECT) ((C j).length / BSIZE - NDIRECT)
          return (din', x)) t := by
    rw [blockFor, if_neg (by omega), Prog.bind_run, hrun]
    rfl
  rcases hfill with hf | he
  · right
    have hself : update A j din'.addrs j = din'.addrs := update_self ..
    obtain ⟨x, u, hrun', hfill'⟩ := nextEntry_fills hf.grown (by rw [hself]; exact hf.ne) hk
    rw [hself] at hrun'
    have hne : (j, NDIRECT + 1 + ((C j).length / BSIZE - NDIRECT)) ≠ (j, NDIRECT) := by
      simp only [ne_eq, Prod.mk.injEq, true_and]
      omega
    have hcount₁ := hf.count
    refine ⟨(din', x), u, ?_, hfill'.imp (fun hf' => ?_) fun he' => ?_⟩
    · rw [hblock, Prog.bind_run, hrun']
      rfl
    · refine ⟨hf.grown.trans hf'.grown, hsame, ?_, hf'.ne, fun k hk' => ?_, ?_, ?_⟩
      · rw [hslot, hf'.refs_eq, update_self]
      · rw [hf'.refs_eq, update_of_ne, hf.refs_eq, update_of_ne]
        · exact fun hc => Fs.slotOf_ne k (congrArg Prod.snd hc)
        · rw [← hslot]
          exact fun hc => hk' (Fs.slotOf_inj (congrArg Prod.snd hc))
      · rw [hf'.refs_eq, update_of_ne hne.symm, hf.refs_eq, update_self]
        exact ⟨fun _ => hfbn, fun _ => hf.ne⟩
      · have hcount₂ := hf'.count
        rw [hf.refs_eq, update_of_ne hne] at hcount₂
        omega
    · refine ⟨?_, he'.eq, he'.sectors⟩
      have hempty := he'.empty
      rw [hf.refs_eq, update_of_ne hne] at hempty
      rw [if_pos hempty] at hcount
      have := he'.full
      unfold Full
      omega
  · left
    refine ⟨?_, ?_⟩
    · rw [if_pos he.empty] at hcount
      have := he.full
      unfold Full
      omega
    · rw [hblock, Prog.bind_run, nextEntry, Prog.bind_run, he.eq, rsect_past he.sectors]
      rfl

end Mkfs

end Xv6
