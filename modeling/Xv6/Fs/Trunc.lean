import Xv6.Fs.Map
/-!
# Freeing the blocks of a file — `itrunc`

The loops of `itrunc` free what each place of the inode holds. The direct
addresses are zeroed as they go, so the ledger follows the inode; the
entries of the indirect block are not, and the ledger runs ahead of the
block until the block itself is freed and forgotten.
-/

namespace Xv6

open Common Function

namespace Fs

variable {sb : Superblock} {s s' t : Fs} {ip : Fin NINODE} {d d' : Disk} {addrs : ℕ → ℕ}
  {P : ℕ × ℕ → ℕ} {inum b i j k : ℕ} {x : ℕ × ℕ}

/-- At most the free map has changed. -/
def MapOnly (sb : Superblock) (d d' : Disk) : Prop :=
  ∀ b, b < sb.bmapstart ∨ sb.nmeta ≤ b → d' b = d b

theorem MapOnly.refl (d : Disk) : MapOnly sb d d := fun _ _ => rfl

theorem MapOnly.trans {e : Disk} (h : MapOnly sb d d') (h' : MapOnly sb d' e) : MapOnly sb d e :=
  fun b hb => (h' b hb).trans (h b hb)

/-- The inodes and the blocks owned are outside the free map. -/
theorem MapOnly.keeps (h : MapOnly sb d d') (hP : Books sb s P) : Keeps sb P d d' :=
  ⟨fun b hb => h b (.inl hb), fun x hx => h _ (.inr (hP.range x hx).1)⟩

variable (sb) in
/-- A step that changes at most the free map. -/
structure Marks (s s' : Fs) : Prop where
  data : MapOnly sb s.data s'.data
  held : s'.held = s.held
  inode : s'.inode = s.inode
  logs : Logs s s'

theorem Marks.refl (s : Fs) : Marks sb s s := ⟨.refl _, rfl, rfl, .refl s⟩

theorem Marks.trans (h : Marks sb s t) (h' : Marks sb t s') : Marks sb s s' :=
  ⟨h.data.trans h'.data, h'.held.trans h.held, h'.inode.trans h.inode, h.logs.trans h'.logs⟩

/-- **Freeing what a place holds.** -/
theorem bfree_books (hsb : sb.Ok) (hP : Books sb s P) (hx : P x ≠ 0) :
    Hoare (· = s) (bfree sb (P x))
      (fun _ s' => Books sb s' (update P x 0) ∧ Marks sb s s') (· = .selfDeadlock) := by
  have hbit : s.bit sb (P x) = true := hP.used_of_held hx
  have hrange := hP.range x hx
  constructor
  · rintro _ _ s' rfl h
    obtain ⟨-, -, rfl⟩ := bfree_ok h
    have h1 := hsb.bitmap (P x) hrange.2
    have h2 : sb.bmapstart ≤ sb.bblock (P x) := Nat.le_add_left ..
    refine ⟨hP.free hx fun c _ => bit_clearBit rfl, fun c hc => ?_, rfl, rfl, .put ..⟩
    rw [put_data, update_of_ne (by omega)]
  · rintro _ e rfl h
    exact bfree_error hbit h

/-! ## The direct addresses -/

/-- One round of the first loop. -/
theorem truncDirect_works (hsb : sb.Ok) (hi : i < NDIRECT) :
    Hoare (fun t => Works sb s t ip ∧ Logs s t ∧ MapOnly sb s.data t.data ∧
        ∀ j, j < i → (t.inode ip).addrs j = 0)
      (truncDirect sb ip i)
      (fun _ t => Works sb s t ip ∧ Logs s t ∧ MapOnly sb s.data t.data ∧
        ∀ j, j < i + 1 → (t.inode ip).addrs j = 0)
      (· = .selfDeadlock) := by
  have hplace : ∀ t : Fs, t.places sb ip ((t.inode ip).inum, i) = (t.inode ip).addrs i := fun t => by
    rw [places, placeWith_self (by simp only [NSLOT, MAXFILE]; omega), slot_of_le (Nat.le_of_lt hi)]
  refine .pointwise fun t ht => .gets_bind (.ite (fun h0 => ?_) fun h0 => ?_)
  · obtain ⟨hw, hs, hm, hzero⟩ := ht
    have hfree := bfree_books hsb hw.books (by rwa [hplace])
    rw [hplace] at hfree
    refine hfree.bind fun _ => .modify ?_
    rintro t' ⟨hbooks, hmap, hheld, hinode, hlogs⟩
    change Works sb s (t'.withAddrs ip (update (t'.inode ip).addrs i 0)) ip ∧
      Logs s (t'.withAddrs ip (update (t'.inode ip).addrs i 0)) ∧
      MapOnly sb s.data (t'.withAddrs ip (update (t'.inode ip).addrs i 0)).data ∧
      ∀ j, j < i + 1 →
        ((t'.withAddrs ip (update (t'.inode ip).addrs i 0)).inode ip).addrs j = 0
    have hti : t'.inode ip = t.inode ip := by rw [hinode]
    have hp' : places sb (t'.withAddrs ip (update (t'.inode ip).addrs i 0)) ip =
        update (t.places sb ip) ((t.inode ip).inum, i) 0 := by
      rw [places, withAddrs_inode, withAddrs_data, hti]
      exact placeWith_set hsb (hmap.keeps hw.books) hi.le fun he => absurd he hi.ne
    have hstep : Works sb t (t'.withAddrs ip (update (t'.inode ip).addrs i 0)) ip := by
      refine ⟨?_, hheld, ?_, fun j hj => ?_, fun c hc => hmap c (.inl hc), fun x hx => ?_⟩
      · rw [hp']
        exact hbooks
      · rw [withAddrs_inode, hti]
      · rw [withAddrs_of_ne _ hj, hinode]
      · rw [hp', update_of_ne]
        rintro rfl
        exact hx rfl
    refine ⟨hw.trans hstep, (hs.trans hlogs).withAddrs _, hm.trans hmap, fun j hj => ?_⟩
    rw [withAddrs_inode, hti]
    by_cases hji : j = i
    · rw [hji]
      exact update_self ..
    · exact (update_of_ne hji ..).trans (hzero j (by omega))
  · refine .pure ?_
    rintro _ rfl
    refine ⟨ht.1, ht.2.1, ht.2.2.1, fun j hj => ?_⟩
    by_cases hji : j = i
    · rw [hji]
      exact not_not.1 h0
    · exact ht.2.2.2 j (by omega)

/-! ## The indirect block -/

/-- The ledger with the first `j` entries of an inode's indirect block
struck out. -/
def struck (P : ℕ × ℕ → ℕ) (inum j : ℕ) (x : ℕ × ℕ) : ℕ :=
  if x.1 = inum ∧ NDIRECT < x.2 ∧ x.2 < NDIRECT + 1 + j then 0 else P x

theorem struck_zero : struck P inum 0 = P := by
  funext x
  exact if_neg (by omega)

theorem struck_of_ne (h : x.1 ≠ inum) : struck P inum j x = P x := if_neg fun hc => h hc.1

theorem struck_of_le (h : i ≤ NDIRECT) : struck P inum j (inum, i) = P (inum, i) :=
  if_neg (by omega)

theorem struck_entry (h : j ≤ k) : struck P inum j (inum, NDIRECT + 1 + k) = P (inum, NDIRECT + 1 + k) :=
  if_neg (by omega)

theorem struck_succ : struck P inum (j + 1) = update (struck P inum j) (inum, NDIRECT + 1 + j) 0 := by
  funext x
  by_cases hx : x = (inum, NDIRECT + 1 + j)
  · rw [hx, update_self]
    exact if_pos (by omega)
  rw [update_of_ne hx]
  obtain ⟨n, m⟩ := x
  unfold struck
  simp only [Prod.mk.injEq, not_and] at hx ⊢
  by_cases hn : n = inum
  · have := hx hn
    by_cases hm : NDIRECT < m ∧ m < NDIRECT + 1 + j
    · rw [if_pos (by omega), if_pos (by omega)]
    · rw [if_neg (by omega), if_neg (by omega)]
  · rw [if_neg (by omega), if_neg (by omega)]

/-- One round of the second loop, over the entries of the indirect block,
which stays in use. -/
theorem truncEntry_books (hsb : sb.Ok) (hP : Books sb s (s.places sb ip))
    (hind : (s.inode ip).addrs NDIRECT ≠ 0) (hj : j < NINDIRECT) :
    Hoare (fun t => Books sb t (struck (s.places sb ip) (s.inode ip).inum j) ∧
        Marks sb (s.take ((s.inode ip).addrs NDIRECT)) t)
      (truncEntry sb ((s.inode ip).addrs NDIRECT) j)
      (fun _ t => Books sb t (struck (s.places sb ip) (s.inode ip).inum (j + 1)) ∧
        Marks sb (s.take ((s.inode ip).addrs NDIRECT)) t) (· = .selfDeadlock) := by
  have hpind := places_indirect sb s ip
  have hrange := (hP.range _ (by rwa [hpind])).1
  rw [hpind] at hrange
  have hentry : s.places sb ip ((s.inode ip).inum, NDIRECT + 1 + j) =
      word (s.data ((s.inode ip).addrs NDIRECT)) j := by
    rw [places, placeWith_self (by simp only [NSLOT, MAXFILE]; omega), slot_entry hind]
  refine .pointwise fun t ht => .gets_bind ?_
  obtain ⟨hbooks, hmarks⟩ := ht
  rw [hmarks.data _ (.inr hrange), take_data, ← hentry]
  refine .ite (fun h0 => ?_) fun h0 => ?_
  · have hfree := bfree_books hsb hbooks (x := ((s.inode ip).inum, NDIRECT + 1 + j))
      (by rwa [struck_entry le_rfl])
    rw [struck_entry le_rfl] at hfree
    refine hfree.conseq (fun _ => id) ?_
    rintro _ t' ⟨hbooks', hmarks'⟩
    rw [struck_succ]
    exact ⟨hbooks', hmarks.trans hmarks'⟩
  · refine .pure ?_
    rintro _ rfl
    refine ⟨?_, hmarks⟩
    have hsame : struck (s.places sb ip) (s.inode ip).inum (j + 1) =
        struck (s.places sb ip) (s.inode ip).inum j := by
      rw [struck_succ, ← not_not.1 h0, ← struck_entry (P := s.places sb ip) (le_refl j),
        update_eq_self]
    rw [hsame]
    exact hbooks

/-- A buffer released unchanged after other work. -/
def dropHeld (t s : Fs) (b : ℕ) : Fs :=
  { t with held := s.held, released := ⟨b, s.data b, t.data b, false⟩ :: t.released }

theorem brelse_held (h : s.held b = none) (ht : t.held = (s.take b).held) :
    brelse b t = .ok ((), t.dropHeld s b) := by
  simp [brelse, ht, take, dropHeld, held_restore h]

theorem Logs.dropHeld (hm : Marks sb (s.take b) t) (hb : sb.nmeta ≤ b) : Logs s (t.dropHeld s b) := by
  have hs : Logs s t := ⟨hm.logs.released, hm.logs.unlogged⟩
  exact hs.trans (.release (r := ⟨b, s.data b, t.data b, false⟩) rfl (.inl (hm.data b (.inr hb)))
    fun _ hc => hc)

/-- No buffer is in use. -/
def Idle (s : Fs) : Prop := ∀ b, s.held b = none

theorem bread_reads {b : ℕ} {E : Panic → Prop} (hE : ¬ s.Idle → E .selfDeadlock) :
    Hoare (· = s) (bread b) (fun _ t => s.held b = none ∧ t = s.take b) E := by
  constructor
  · rintro _ _ _ rfl hc
    exact bread_ok hc
  · rintro _ e rfl hc
    rw [bread_error hc]
    refine hE fun hidle => ?_
    rw [bread_run (hidle b)] at hc
    cases hc

theorem hoare_bread (b : ℕ) : Hoare (· = s) (bread b)
    (fun _ t => s.held b = none ∧ t = s.take b) (· = .selfDeadlock) :=
  bread_reads fun _ => rfl

/-- With the indirect block forgotten, so are its entries. -/
theorem placeWith_no_indirect (hsb : sb.Ok) (hP : Books sb s (placeWith sb d inum addrs))
    (hm : MapOnly sb d d') :
    placeWith sb d' inum (update addrs NDIRECT 0) =
      update (struck (placeWith sb d inum addrs) inum NINDIRECT) (inum, NDIRECT) 0 := by
  have hk := hm.keeps hP
  refine eq_update_place (f := fun j => if j ≤ NDIRECT then addrs j else 0)
    (by simp only [NSLOT, MAXFILE]; omega) (fun j => ?_) (fun j => ?_) fun x hx =>
      (placeWith_of_low hsb hk.low hx (hk.owned _)).trans (struck_of_ne hx).symm
  · by_cases hj : j ≤ NDIRECT
    · have hlt : j < NSLOT := by simp only [NSLOT, MAXFILE]; omega
      rw [struck_of_le hj, placeWith_self hlt, slot_of_le hj, if_pos hlt, if_pos hj]
    · rw [if_neg hj, ite_self]
      unfold struck placeWith
      rw [if_pos rfl]
      by_cases hlt : j < NSLOT
      · simp only [NSLOT, MAXFILE] at hlt
        exact if_pos ⟨rfl, by omega, by omega⟩
      · rw [if_neg hlt, ite_self]
  · rw [placeWith, if_pos rfl]
    congr 1
    rcases lt_trichotomy j NDIRECT with hlt | rfl | hlt
    · rw [slot_of_le hlt.le, update_of_ne hlt.ne, update_of_ne hlt.ne, if_pos hlt.le]
    · rw [slot_of_le le_rfl, update_self, update_self]
    · rw [slot_of_no_indirect (update_self ..) hlt, update_of_ne hlt.ne', if_neg (by omega)]

theorem truncIndirect_works (hsb : sb.Ok) (hP : Books sb s (s.places sb ip)) :
    Hoare (· = s) (truncIndirect sb ip) (fun _ t => Works sb s t ip ∧ Logs s t ∧
      MapOnly sb s.data t.data ∧ (t.inode ip).addrs NDIRECT = 0 ∧
      ∀ j, j < NDIRECT → (t.inode ip).addrs j = (s.inode ip).addrs j) (· = .selfDeadlock) := by
  refine .gets_bind (.ite (fun h0 => ?_) fun h0 => ?_)
  · have hpind := places_indirect sb s ip
    have hrange := (hP.range _ (by rwa [hpind])).1
    rw [hpind] at hrange
    refine (hoare_bread _).bind fun _ => .pointwise ?_
    rintro _ ⟨hfree, rfl⟩
    -- the loop strikes out the entries
    have hloop : Hoare (· = s.take ((s.inode ip).addrs NDIRECT))
        ((List.range NINDIRECT).forM (truncEntry sb ((s.inode ip).addrs NDIRECT)))
        (fun _ t => Books sb t (struck (s.places sb ip) (s.inode ip).inum NINDIRECT) ∧
          Marks sb (s.take ((s.inode ip).addrs NDIRECT)) t) (· = .selfDeadlock) := by
      have := Hoare.forM_range (n := NINDIRECT)
        (I := fun j t => Books sb t (struck (s.places sb ip) (s.inode ip).inum j) ∧
          Marks sb (s.take ((s.inode ip).addrs NDIRECT)) t)
        fun j hj => truncEntry_books hsb hP h0 hj
      refine this.conseq ?_ fun _ _ => id
      rintro _ rfl
      rw [struck_zero]
      exact ⟨hP, Marks.refl _⟩
    refine hloop.bind fun _ => .pointwise fun t ht => ?_
    obtain ⟨hbooks, hmarks⟩ := ht
    -- and then the block itself goes
    have hdrop : Hoare (· = t) (brelse ((s.inode ip).addrs NDIRECT))
        (fun _ u => u = t.dropHeld s ((s.inode ip).addrs NDIRECT)) (· = .selfDeadlock) := by
      have := brelse_held hfree hmarks.held
      constructor
      · rintro _ _ _ rfl h
        rw [this] at h
        cases h
        rfl
      · rintro _ _ rfl h
        rw [this] at h
        cases h
    refine hdrop.bind fun _ => ?_
    have hbooks' : Books sb (t.dropHeld s ((s.inode ip).addrs NDIRECT))
        (struck (s.places sb ip) (s.inode ip).inum NINDIRECT) := hbooks
    have hbfree := bfree_books hsb hbooks' (x := ((s.inode ip).inum, NDIRECT))
      (by rw [struck_of_le le_rfl, hpind]; exact h0)
    rw [struck_of_le le_rfl, hpind] at hbfree
    refine hbfree.bind fun _ => .modify ?_
    rintro u ⟨hbooksu, hmarksu⟩
    change Works sb s (u.withAddrs ip (update (u.inode ip).addrs NDIRECT 0)) ip ∧
      Logs s (u.withAddrs ip (update (u.inode ip).addrs NDIRECT 0)) ∧
      MapOnly sb s.data (u.withAddrs ip (update (u.inode ip).addrs NDIRECT 0)).data ∧
      ((u.withAddrs ip (update (u.inode ip).addrs NDIRECT 0)).inode ip).addrs NDIRECT = 0 ∧
      ∀ j, j < NDIRECT →
        ((u.withAddrs ip (update (u.inode ip).addrs NDIRECT 0)).inode ip).addrs j =
          (s.inode ip).addrs j
    have hmap : MapOnly sb s.data u.data := hmarks.data.trans hmarksu.data
    have hinode : u.inode = s.inode := hmarksu.inode.trans hmarks.inode
    have hp' : places sb (u.withAddrs ip (update (u.inode ip).addrs NDIRECT 0)) ip =
        update (struck (s.places sb ip) (s.inode ip).inum NINDIRECT)
          ((s.inode ip).inum, NDIRECT) 0 := by
      rw [places, withAddrs_inode, withAddrs_data, hinode]
      exact placeWith_no_indirect hsb hP hmap
    refine ⟨⟨?_, hmarksu.held, ?_, fun j hj => ?_, fun c hc => hmap c (.inl hc), fun x hx => ?_⟩,
      ((Logs.dropHeld hmarks hrange).trans hmarksu.logs).withAddrs _, hmap, ?_, fun j hj => ?_⟩
    · rw [hp']
      exact hbooksu
    · rw [withAddrs_inode, hinode]
    · rw [withAddrs_of_ne _ hj, hinode]
    · have hne : x ≠ ((s.inode ip).inum, NDIRECT) := by
        rintro rfl
        exact hx rfl
      rw [hp', update_of_ne hne, struck_of_ne hx]
    · simp [withAddrs_inode]
    · simp [withAddrs_inode, hinode, update_of_ne (Nat.ne_of_lt hj)]
  · refine .pure ?_
    rintro _ rfl
    exact ⟨(Grows.refl hP).toWorks, .refl _, .refl _, not_not.1 h0, fun _ _ => rfl⟩

/-- **`itrunc`, up to the size**: every block of the inode has been freed,
and nothing else has. -/
theorem itrunc_works (hsb : sb.Ok) (hP : Books sb s (s.places sb ip)) :
    Hoare (· = s) (do (List.range NDIRECT).forM (truncDirect sb ip); truncIndirect sb ip)
      (fun _ t => Works sb s t ip ∧ Logs s t ∧ MapOnly sb s.data t.data ∧
        ∀ i, i ≤ NDIRECT → (t.inode ip).addrs i = 0)
      (· = .selfDeadlock) := by
  have hloop : Hoare (· = s) ((List.range NDIRECT).forM (truncDirect sb ip))
      (fun _ t => Works sb s t ip ∧ Logs s t ∧ MapOnly sb s.data t.data ∧
        ∀ j, j < NDIRECT → (t.inode ip).addrs j = 0) (· = .selfDeadlock) := by
    have := Hoare.forM_range (n := NDIRECT)
      (I := fun i t => Works sb s t ip ∧ Logs s t ∧ MapOnly sb s.data t.data ∧
        ∀ j, j < i → (t.inode ip).addrs j = 0)
      fun i hi => truncDirect_works hsb hi
    refine this.conseq ?_ fun _ _ => id
    rintro _ rfl
    exact ⟨(Grows.refl hP).toWorks, .refl _, .refl _, fun j hj => absurd hj (Nat.not_lt_zero j)⟩
  refine hloop.bind fun _ => .pointwise fun t ht => ?_
  obtain ⟨hwt, hst, hmt, hzero⟩ := ht
  refine (truncIndirect_works hsb hwt.books).conseq (fun _ => id) ?_
  rintro _ u ⟨hw, hs, hm, hind, hdirect⟩
  refine ⟨hwt.trans hw, hst.trans hs, hmt.trans hm, fun i hi => ?_⟩
  by_cases hin : i = NDIRECT
  · rw [hin, hind]
  · rw [hdirect i (by omega), hzero i (by omega)]

end Fs

end Xv6
