import Xv6.Fs.Own
/-!
# Finding and allocating the blocks of a file — `bmap`

What `bmap` does to the ledger: at most the file block asked for, and the
indirect block that leads to it, get a place filled; nothing already in a
place moves, and no contents change.
-/

namespace Xv6

open Common Function

namespace Fs

variable {sb : Superblock} {s s' t : Fs} {ip : Fin NINODE} {d d' : Disk} {addrs : ℕ → ℕ}
  {inum b i k : ℕ} {x : ℕ × ℕ}

variable (sb) in
/-- The places while a function works on a cached inode. -/
def places (s : Fs) (ip : Fin NINODE) : ℕ × ℕ → ℕ :=
  placeWith sb s.data (s.inode ip).inum (s.inode ip).addrs

variable (sb) in
theorem places_indirect (s : Fs) (ip : Fin NINODE) :
    s.places sb ip ((s.inode ip).inum, NDIRECT) = (s.inode ip).addrs NDIRECT :=
  placeWith_indirect ..

variable (sb) in
/-- A step of a function that works on a cached inode: the free map still
agrees, and the other inodes are as they were, in memory and on disk. -/
structure Works (s s' : Fs) (ip : Fin NINODE) : Prop where
  books : Books sb s' (s'.places sb ip)
  held : s'.held = s.held
  inode : s'.inode ip = { s.inode ip with addrs := (s'.inode ip).addrs }
  others : ∀ j, j ≠ ip → s'.inode j = s.inode j
  low : ∀ b, b < sb.bmapstart → s'.data b = s.data b
  other : ∀ x : ℕ × ℕ, x.1 ≠ (s.inode ip).inum → s'.places sb ip x = s.places sb ip x

namespace Works

theorem inum_eq (h : Works sb s s' ip) : (s'.inode ip).inum = (s.inode ip).inum := by
  rw [h.inode]

theorem trans (h : Works sb s t ip) (h' : Works sb t s' ip) : Works sb s s' ip := by
  have hinum := h.inum_eq
  refine ⟨h'.books, h'.held.trans h.held, ?_, fun j hj => (h'.others j hj).trans (h.others j hj),
    fun b hb => (h'.low b hb).trans (h.low b hb), fun x hx => ?_⟩
  · rw [h'.inode, h.inode]
  · rw [h'.other x (by rwa [hinum]), h.other x hx]

end Works

variable (sb) in
/-- Such a step that only adds blocks to the inode. -/
structure Grows (s s' : Fs) (ip : Fin NINODE) : Prop extends Works sb s s' ip where
  owned : ∀ x, s.places sb ip x ≠ 0 → s'.places sb ip x = s.places sb ip x
  contents : ∀ x, s.places sb ip x ≠ 0 → x ≠ ((s.inode ip).inum, NDIRECT) →
    s'.data (s.places sb ip x) = s.data (s.places sb ip x)
  fresh : ∀ x, s.places sb ip x = 0 → s'.places sb ip x ≠ 0 →
    x ≠ ((s.inode ip).inum, NDIRECT) → s'.data (s'.places sb ip x) = fun _ => 0
  freshLogged : ∀ x, s.places sb ip x = 0 → s'.places sb ip x ≠ 0 →
    s'.data (s'.places sb ip x) = s'.logged (s'.places sb ip x)
  logs : Logs s s'

namespace Grows

theorem of_peeked (hP : Books sb s (s.places sb ip)) (h : Peeked s s') : Grows sb s s' ip := by
  have hplaces : s'.places sb ip = s.places sb ip := by
    unfold places
    rw [h.data, h.inode]
  refine ⟨⟨?_, h.held, by rw [h.inode], fun j _ => by rw [h.inode], fun b _ => by rw [h.data],
    fun x _ => by rw [hplaces]⟩, fun x _ => by rw [hplaces], fun x _ _ => by rw [h.data],
    fun x h0 h1 _ => absurd (hplaces ▸ h0) h1, fun x h0 h1 => absurd (hplaces ▸ h0) h1, h.logs⟩
  rw [hplaces]
  exact hP.congr fun b _ => by rw [bit, bit, h.data]

theorem refl (hP : Books sb s (s.places sb ip)) : Grows sb s s ip := of_peeked hP (Peeked.refl s)

theorem trans (h : Grows sb s t ip) (h' : Grows sb t s' ip) : Grows sb s s' ip := by
  have hinum := h.inum_eq
  refine ⟨h.toWorks.trans h'.toWorks, fun x hx => ?_, fun x hx hne => ?_, fun x h0 h1 hne => ?_,
    fun x h0 h1 => ?_, h.logs.trans h'.logs⟩
  · have hx' : t.places sb ip x ≠ 0 := by rwa [h.owned x hx]
    rw [h'.owned x hx', h.owned x hx]
  · have hx' : t.places sb ip x ≠ 0 := by rwa [h.owned x hx]
    have := h'.contents x hx' (by rwa [hinum])
    rw [h.owned x hx] at this
    rw [this, h.contents x hx hne]
  · by_cases hx : t.places sb ip x = 0
    · exact h'.fresh x hx h1 (by rwa [hinum])
    · rw [h'.owned x hx, h'.contents x hx (by rwa [hinum])]
      exact h.fresh x h0 hx hne
  · by_cases hx : t.places sb ip x = 0
    · exact h'.freshLogged x hx h1
    · rw [h'.owned x hx]
      by_contra hne
      exact h'.logs.unlogged _ hne (h.freshLogged x h0 hx)

end Grows

/-! ## A direct address, or the indirect block -/

/-- An address of the inode set; a new indirect block has no entries yet. -/
theorem placeWith_set (hsb : sb.Ok) (hk : Keeps sb (placeWith sb d inum addrs) d d')
    (hi : i ≤ NDIRECT) (hnew : i = NDIRECT → addrs i = 0 ∧ b ≠ 0 ∧ d' b = fun _ => 0) :
    placeWith sb d' inum (update addrs i b) =
      update (placeWith sb d inum addrs) (inum, i) b := by
  have hind := placeWith_indirect sb d inum addrs
  refine eq_update_place (by simp only [NSLOT, MAXFILE]; omega) (fun j => if_pos rfl) (fun j => ?_)
    fun x hx => placeWith_of_low hsb hk.low hx (hk.owned _)
  rw [placeWith, if_pos rfl, slot_update hi (fun h0 => ?_) hnew]
  rw [← hind] at h0 ⊢
  exact hk.owned _ h0

/-- Filling an empty place with a fresh block is growth. `s₀` is the state
`balloc` was called in, perhaps with a buffer in use. -/
theorem Alloc.grows {s₀ : Fs} (h : Alloc sb s₀ t (s.places sb ip) b) (h₀ : s₀.data = s.data)
    (hP : Books sb s (s.places sb ip)) (hx : s.places sb ip x = 0)
    (hxi : x.1 = (s.inode ip).inum) (hheld : s'.held = s.held)
    (hinode : s'.inode ip = { s.inode ip with addrs := (s'.inode ip).addrs })
    (hothers : ∀ j, j ≠ ip → s'.inode j = s.inode j)
    (hlow : ∀ b, b < sb.bmapstart → s'.data b = t.data b)
    (hbit : ∀ c, c < sb.size → s'.bit sb c = t.bit sb c)
    (hplaces : s'.places sb ip = update (s.places sb ip) x b)
    (hdata : ∀ y, s.places sb ip y ≠ 0 → y ≠ ((s.inode ip).inum, NDIRECT) →
      s'.data (s.places sb ip y) = t.data (s.places sb ip y))
    (hnew : s'.data b = t.data b) (hnewLogged : s'.logged b = t.logged b) (hlogs : Logs s s') :
    Grows sb s s' ip := by
  have hP₀ : Books sb s₀ (s.places sb ip) := hP.congr fun c _ => by rw [bit, bit, h₀]
  refine ⟨⟨?_, hheld, hinode, hothers, fun c hc => ?_, fun y hy => ?_⟩, fun y hy => ?_,
    fun y hy hne => ?_, fun y h0 h1 _ => ?_, fun y h0 h1 => ?_, hlogs⟩
  · rw [hplaces]
    exact (h.ledger hP₀ hx).congr fun c hc => by rw [hbit c hc]
  · rw [hlow c hc, h.keeps.low c hc, h₀]
  · rw [hplaces, update_of_ne]
    rintro rfl
    exact hy hxi
  · rw [hplaces, update_of_ne]
    rintro rfl
    exact hy hx
  · rw [hdata y hy hne, h.keeps.owned y hy, h₀]
  · rw [hplaces] at h1 ⊢
    by_cases hyx : y = x
    · rw [hyx, update_self, hnew, h.zero]
    · rw [update_of_ne hyx] at h1
      exact absurd h0 h1
  · rw [hplaces] at h1 ⊢
    by_cases hyx : y = x
    · rw [hyx, update_self, hnew, hnewLogged, h.zero, h.zeroLogged]
    · rw [update_of_ne hyx] at h1
      exact absurd h0 h1

/-- A cache entry set. -/
def withInode (s : Fs) (ip : Fin NINODE) (i : Inode) : Fs :=
  { s with inode := update s.inode ip i }

section withInode

variable (i : Inode) (a : ℕ → ℕ)

@[simp] theorem withInode_data : (s.withInode ip i).data = s.data := rfl
@[simp] theorem withInode_held : (s.withInode ip i).held = s.held := rfl
@[simp] theorem withInode_inode : (s.withInode ip i).inode ip = i := update_self ..

theorem withInode_of_ne {j : Fin NINODE} (h : j ≠ ip) : (s.withInode ip i).inode j = s.inode j :=
  update_of_ne h ..

@[simp] theorem withInode_withInode (j : Inode) :
    (s.withInode ip i).withInode ip j = s.withInode ip j := by
  simp [withInode, update_idem]

/-- **`iget`** counts a reference to the entry of the inode, or fills in an
entry not in use. -/
theorem iget_run (s : Fs) (inum : ℕ) : iget inum s =
    match s.cachedInode inum, s.emptyInode with
    | some ip, _ => .ok (ip, s.withInode ip { s.inode ip with ref := (s.inode ip).ref + 1 })
    | none, some ip => .ok (ip, s.withInode ip { s.inode ip with inum, ref := 1, valid := false })
    | none, none => .error .igetNoInodes := by
  rw [iget, Prog.gets_bind]
  cases s.cachedInode inum with
  | some ip => rfl
  | none =>
    dsimp only
    rw [Prog.gets_bind]
    cases s.emptyInode <;> rfl

theorem of_cachedInode {inum : ℕ} (h : s.cachedInode inum = some ip) :
    0 < (s.inode ip).ref ∧ (s.inode ip).inum = inum := by
  simpa using List.find?_some h

theorem of_emptyInode (h : s.emptyInode = some ip) : (s.inode ip).ref = 0 := by
  simpa using List.find?_some h

/-- The addresses of a cached inode set. -/
def withAddrs (s : Fs) (ip : Fin NINODE) (a : ℕ → ℕ) : Fs :=
  s.withInode ip { s.inode ip with addrs := a }

@[simp] theorem withAddrs_data : (s.withAddrs ip a).data = s.data := rfl
@[simp] theorem withAddrs_inode : (s.withAddrs ip a).inode ip = { s.inode ip with addrs := a } :=
  withInode_inode ..

theorem withAddrs_of_ne {j : Fin NINODE} (h : j ≠ ip) : (s.withAddrs ip a).inode j = s.inode j :=
  withInode_of_ne _ h

end withInode

theorem Logs.withAddrs (h : Logs s s') (a : ℕ → ℕ) : Logs s (s'.withAddrs ip a) :=
  ⟨h.released, h.unlogged⟩

/-- **`addrs[i]`, with a block allocated if there was none.** -/
theorem addrAlloc_ok (hsb : sb.Ok) (hP : Books sb s (s.places sb ip)) (hi : i ≤ NDIRECT)
    (h : addrAlloc sb ip i s = .ok (b, s')) :
    Grows sb s s' ip ∧ b ≠ 0 ∧ (s'.inode ip).addrs i = b ∧
      ∀ x, x ≠ ((s.inode ip).inum, i) → s'.places sb ip x = s.places sb ip x := by
  unfold addrAlloc getInode at h
  rw [Prog.gets_bind] at h
  by_cases h0 : (s.inode ip).addrs i = 0
  · rw [if_pos h0] at h
    obtain ⟨c, t, hb, h⟩ := Prog.bind_ok h
    change Except.ok (c, t.withAddrs ip (update (t.inode ip).addrs i c)) = _ at h
    cases h
    have hA := alloc_of_balloc hsb hP hb
    have hb0 : b ≠ 0 := by
      have := hA.le
      have := hP.pos
      omega
    have hti : t.inode ip = s.inode ip := by rw [hA.inode]
    have hplaces := placeWith_set hsb hA.keeps hi fun _ => ⟨h0, hb0, hA.zero⟩
    have hx : s.places sb ip ((s.inode ip).inum, i) = 0 := by
      rw [places, placeWith_self (by simp only [NSLOT, MAXFILE]; omega), slot_of_le hi, h0]
    have hp' : places sb (t.withAddrs ip (update (t.inode ip).addrs i b)) ip =
        update (s.places sb ip) ((s.inode ip).inum, i) b := by
      rw [places, places, withAddrs_inode, withAddrs_data, hti]
      exact hplaces
    refine ⟨hA.grows rfl hP hx rfl hA.held ?_ (fun j hj => ?_) (fun _ _ => rfl) (fun _ _ => rfl) hp'
      (fun _ _ _ => rfl) rfl rfl (hA.logs.withAddrs _), hb0, ?_, fun x hne => ?_⟩
    · rw [withAddrs_inode, hti]
    · rw [withAddrs_of_ne _ hj, hA.inode]
    · rw [withAddrs_inode]
      exact update_self ..
    · rw [hp', update_of_ne hne]
  · rw [if_neg h0] at h
    cases h
    exact ⟨Grows.refl hP, h0, rfl, fun _ _ => rfl⟩

theorem addrAlloc_error {e : Panic} (h : addrAlloc sb ip i s = .error e) :
    (s.inode ip).addrs i = 0 ∧ balloc sb s = .error e := by
  unfold addrAlloc getInode at h
  rw [Prog.gets_bind] at h
  split at h
  · rcases Prog.bind_error h with hb | ⟨c, t, -, h⟩
    · exact ⟨‹_›, hb⟩
    · cases h
  · cases h

/-! ## An entry of the indirect block -/

/-- Writing an entry of the indirect block fills its place. -/
theorem placeWith_entry (hsb : sb.Ok) (hP : Books sb s (placeWith sb d inum addrs))
    (hk : Keeps sb (placeWith sb d inum addrs) d d') (hind : addrs NDIRECT ≠ 0) (hlt : k < NINDIRECT)
    (hb : b < 2 ^ 32) :
    placeWith sb (update d' (addrs NDIRECT)
        ((d' (addrs NDIRECT)).writeLE (4 * k) 4 b)) inum addrs =
      update (placeWith sb d inum addrs) (inum, NDIRECT + 1 + k) b := by
  have hself := placeWith_indirect sb d inum addrs
  have hd' : d' (addrs NDIRECT) = d (addrs NDIRECT) := by
    have := hk.owned (inum, NDIRECT) (by rwa [hself])
    rwa [hself] at this
  have hrange := (hP.range (inum, NDIRECT) (by rwa [hself])).1
  rw [hself] at hrange
  have hstart := hsb.start
  refine eq_update_place (f := slot d addrs) (by simp only [NSLOT, MAXFILE]; omega)
    (fun j => if_pos rfl) (fun j => ?_) fun x hx =>
      placeWith_of_low hsb (fun c hc => ?_) hx fun h0 => ?_
  · rw [placeWith, if_pos rfl, slot_write hind hlt hb, funext (slot_congr (fun _ _ => rfl) fun _ => hd')]
  · rw [update_of_ne (by omega), hk.low c hc]
  · -- the indirect block is nobody else's
    rw [update_of_ne, hk.owned _ h0]
    intro he
    have := hP.inj _ (inum, NDIRECT) h0 (by rw [hself, he])
    exact hx (congrArg Prod.fst this)

/-- What `bmap` does with a buffer it has held through `balloc`. -/
def putHeld (t s : Fs) (b : ℕ) (blk : Block) : Fs :=
  { t with
    data := update t.data b blk
    logged := update t.logged b blk
    held := s.held
    released := ⟨b, s.data b, blk, true⟩ :: t.released }

@[simp] theorem putHeld_data (t s : Fs) (b : ℕ) (blk : Block) :
    (t.putHeld s b blk).data = update t.data b blk := rfl
@[simp] theorem putHeld_inode (t s : Fs) (b : ℕ) (blk : Block) :
    (t.putHeld s b blk).inode = t.inode := rfl

theorem putHeld_run {α : Type} {blk : Block} (h : s.held b = none) (ht : t.held = (s.take b).held)
    (k : Kern Fs α) :
    (do setData b blk; logWrite b; brelse b; k) t = k (t.putHeld s b blk) := by
  simp [Prog.bind_run, Prog.modify_run, Except.bind, setData, logWrite, brelse, take, putHeld, ht,
    held_restore h, update_idem]

theorem Logs.putHeld {blk : Block} (h : Logs (s.take b) t) : Logs s (t.putHeld s b blk) := by
  have hs : Logs s t := ⟨h.released, h.unlogged⟩
  refine hs.trans (.release (r := ⟨b, s.data b, blk, true⟩) rfl (.inr rfl) fun c hc => ?_)
  by_cases hcb : c = b
  · simp [Fs.putHeld, hcb] at hc
  · simpa [Fs.putHeld, hcb] using hc

/-- **An entry of the indirect block, with a block allocated if there was
none.** -/
theorem entryAlloc_ok (hsb : sb.Ok) (hP : Books sb s (s.places sb ip))
    (hind : (s.inode ip).addrs NDIRECT ≠ 0) (hk : k < NINDIRECT)
    (h : entryAlloc sb ((s.inode ip).addrs NDIRECT) k s = .ok (b, s')) :
    Grows sb s s' ip ∧ b ≠ 0 ∧ s'.places sb ip ((s.inode ip).inum, NDIRECT + 1 + k) = b ∧
      s'.inode = s.inode ∧ ∀ x, x ≠ ((s.inode ip).inum, NDIRECT + 1 + k) →
        s'.places sb ip x = s.places sb ip x := by
  have hlt : NDIRECT + 1 + k < NSLOT := by
    simp only [NSLOT, MAXFILE]
    omega
  have hplace : s.places sb ip ((s.inode ip).inum, NDIRECT + 1 + k) =
      word (s.data ((s.inode ip).addrs NDIRECT)) k := by
    rw [places, placeWith_self hlt, slot_entry hind]
  have hpind := places_indirect sb s ip
  unfold entryAlloc at h
  obtain ⟨_, _, hread, h⟩ := Prog.bind_ok h
  obtain ⟨hheld, rfl⟩ := bread_ok hread
  rw [getData, Prog.gets_bind, take_data] at h
  by_cases h0 : word (s.data ((s.inode ip).addrs NDIRECT)) k = 0
  · rw [if_pos h0] at h
    obtain ⟨c, t, hb, h⟩ := Prog.bind_ok h
    rw [Prog.gets_bind] at h
    have hPt : Books sb (s.take ((s.inode ip).addrs NDIRECT)) (s.places sb ip) := hP
    have hA := alloc_of_balloc hsb hPt hb
    rw [putHeld_run hheld hA.held] at h
    cases h
    have hb0 : b ≠ 0 := by
      have := hA.le
      have := hP.pos
      omega
    have hb32 : b < 2 ^ 32 := by
      have := hA.lt
      have := hsb.size
      omega
    have hrange := (hP.range _ (by rwa [hpind])).1
    rw [hpind] at hrange
    have hstart := hsb.start
    have hbind : b ≠ (s.inode ip).addrs NDIRECT := by
      rw [← hpind]
      exact (hP.ne_of_free hA.lt hA.free).symm
    have hp' : places sb (t.putHeld s ((s.inode ip).addrs NDIRECT)
        ((t.data ((s.inode ip).addrs NDIRECT)).writeLE (4 * k) 4 b)) ip =
        update (s.places sb ip) ((s.inode ip).inum, NDIRECT + 1 + k) b := by
      have hti : t.inode ip = s.inode ip := by rw [hA.inode]; rfl
      rw [places, putHeld_inode, hti]
      exact placeWith_entry hsb hP hA.keeps hind hk hb32
    refine ⟨hA.grows rfl hP (hplace.trans h0) rfl rfl ?_ (fun j _ => ?_) (fun c hc => ?_)
      (fun c hc => ?_) hp' (fun y hy hne => ?_) ?_ ?_ hA.logs.putHeld, hb0, ?_, ?_,
      fun x hne => ?_⟩
    · rw [putHeld_inode, hA.inode, take_inode]
    · rw [putHeld_inode, hA.inode, take_inode]
    · rw [putHeld_data, update_of_ne (by omega)]
    · exact bit_of_update hsb (.inl hrange) rfl hc
    · rw [putHeld_data, update_of_ne]
      intro he
      exact hne (hP.inj _ _ hy (by rw [hpind, he]))
    · rw [putHeld_data, update_of_ne hbind]
    · exact update_of_ne hbind ..
    · rw [hp', update_self]
    · rw [putHeld_inode, hA.inode, take_inode]
    · rw [hp', update_of_ne hne]
  · rw [if_neg h0, brelse_take hheld] at h
    cases h
    exact ⟨Grows.of_peeked hP (peeked_peek s _), h0, hplace, rfl, fun x _ => rfl⟩

theorem entryAlloc_error {ind : ℕ} {e : Panic} (h : entryAlloc sb ind k s = .error e) :
    bread ind s = .error e ∨ word (s.data ind) k = 0 ∧ balloc sb (s.take ind) = .error e := by
  unfold entryAlloc at h
  rcases Prog.bind_error h with hread | ⟨_, _, hread, h⟩
  · exact .inl hread
  obtain ⟨hheld, rfl⟩ := bread_ok hread
  rw [getData, Prog.gets_bind, take_data] at h
  split at h
  · rcases Prog.bind_error h with hb | ⟨c, t, hb, h⟩
    · exact .inr ⟨‹_›, hb⟩
    · rw [Prog.gets_bind, putHeld_run hheld (balloc_held hb)] at h
      cases h
  · rw [brelse_take hheld] at h
    cases h

/-! ## `bmap` -/

theorem slotOf_lt (h : k < MAXFILE) : slotOf k < NSLOT := by
  unfold slotOf
  simp only [NSLOT, MAXFILE] at *
  split <;> omega

theorem slotOf_ne (k : ℕ) : slotOf k ≠ NDIRECT := by
  unfold slotOf
  split <;> omega

theorem slotOf_inj {j : ℕ} (h : slotOf j = slotOf k) : j = k := by
  unfold slotOf at h
  split at h <;> split at h <;> omega

/-- Place `i` is on the way to file block `k`. -/
def Leads (k i : ℕ) : Prop := i = slotOf k ∨ i = NDIRECT ∧ NDIRECT ≤ k

/-- **`bmap`** returns the block of the file block asked for, in its place
from then on, and fills no place that is not on the way to it. -/
theorem bmap_ok {bn : ℕ} (hsb : sb.Ok) (hP : Books sb s (s.places sb ip))
    (h : bmap sb ip bn s = .ok (b, s')) :
    Grows sb s s' ip ∧ b ≠ 0 ∧ bn < MAXFILE ∧
      s'.places sb ip ((s.inode ip).inum, slotOf bn) = b ∧
      ∀ x, s'.places sb ip x ≠ s.places sb ip x → x.1 = (s.inode ip).inum ∧ Leads bn x.2 := by
  unfold bmap at h
  by_cases h1 : bn < NDIRECT
  · rw [if_pos h1] at h
    obtain ⟨hg, hb, haddr, hother⟩ := addrAlloc_ok hsb hP (Nat.le_of_lt h1) h
    have hslot : slotOf bn = bn := if_pos h1
    have hlt : bn < MAXFILE := Nat.lt_of_lt_of_le h1 (Nat.le_add_right ..)
    refine ⟨hg, hb, hlt, ?_, fun x hx => ?_⟩
    · have := slotOf_lt hlt
      rw [hslot] at this ⊢
      rw [← hg.inum_eq, places, placeWith_self this, slot_of_le (Nat.le_of_lt h1), haddr]
    · by_contra hc
      refine hx (hother x ?_)
      rintro rfl
      exact hc ⟨rfl, .inl hslot.symm⟩
  · rw [if_neg h1] at h
    by_cases h2 : bn - NDIRECT < NINDIRECT
    · rw [if_pos h2] at h
      have hslot : slotOf bn = NDIRECT + 1 + (bn - NDIRECT) := by
        rw [slotOf, if_neg h1]
        omega
      obtain ⟨ind, t, hind, h⟩ := Prog.bind_ok h
      obtain ⟨hg, hind0, haddr, hother⟩ := addrAlloc_ok hsb hP le_rfl hind
      rw [← haddr] at h hind0
      obtain ⟨hg', hb, hplace, -, hother'⟩ := entryAlloc_ok hsb hg.books hind0 h2 h
      refine ⟨hg.trans hg', hb, by simp only [MAXFILE]; omega, ?_, fun x hx => ?_⟩
      · rw [hslot, ← hg.inum_eq]
        exact hplace
      · by_contra hc
        refine hx ((hother' x ?_).trans (hother x ?_))
        · rintro rfl
          exact hc ⟨hg.inum_eq, .inl hslot.symm⟩
        · rintro rfl
          exact hc ⟨rfl, .inr ⟨rfl, by omega⟩⟩
    · rw [if_neg h2] at h
      cases h

theorem bmap_error {bn : ℕ} {e : Panic} (h : bmap sb ip bn s = .error e) :
    e = .selfDeadlock ∨ e = .ballocOutOfBlocks ∨ e = .bmapOutOfRange ∧ MAXFILE ≤ bn := by
  have halloc : ∀ {t}, balloc sb t = .error e → e = .selfDeadlock ∨ e = .ballocOutOfBlocks ∨
      e = .bmapOutOfRange ∧ MAXFILE ≤ bn := fun hb => (ballocFrom_error hb).imp_right .inl
  unfold bmap at h
  split at h
  · exact halloc (addrAlloc_error h).2
  · split at h
    · rcases Prog.bind_error h with hind | ⟨ind, t, -, h⟩
      · exact halloc (addrAlloc_error hind).2
      · exact (entryAlloc_error h).elim (fun hread => .inl (bread_error hread)) fun hb => halloc hb.2
    · cases h
      refine .inr (.inr ⟨rfl, ?_⟩)
      simp only [MAXFILE]
      omega

end Fs

end Xv6
