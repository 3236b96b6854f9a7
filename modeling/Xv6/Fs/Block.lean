import Xv6.Fs.Model
/-!
# What the block functions do

One lemma for each function of the block layer and for `iupdate`: the
state it returns in, or why it stops. A function that returns has left
every buffer as it found it or logged its change, so its effect is a
sequence of `peek` — a block read and released — and `put` — a block
changed, logged and released.
-/

namespace Xv6

open Common Function

namespace Fs

variable {s s' : Fs} {b c : ℕ} {blk : Block} {ip : Fin NINODE}

/-- A block read and released. -/
def peek (s : Fs) (b : ℕ) : Fs :=
  { s with released := ⟨b, s.data b, s.data b, false⟩ :: s.released }

/-- A block changed, logged and released. -/
def put (s : Fs) (b : ℕ) (blk : Block) : Fs :=
  { s with
    data := update s.data b blk
    logged := update s.logged b blk
    released := ⟨b, s.data b, blk, true⟩ :: s.released }

@[simp] theorem put_data : (s.put b blk).data = update s.data b blk := rfl
@[simp] theorem put_logged : (s.put b blk).logged = update s.logged b blk := rfl
@[simp] theorem put_held : (s.put b blk).held = s.held := rfl
@[simp] theorem put_inode : (s.put b blk).inode = s.inode := rfl
@[simp] theorem peek_data : (s.peek b).data = s.data := rfl
@[simp] theorem peek_logged : (s.peek b).logged = s.logged := rfl
@[simp] theorem peek_held : (s.peek b).held = s.held := rfl
@[simp] theorem peek_inode : (s.peek b).inode = s.inode := rfl

/-- **Every change on the way was logged**: what was released held what
had been read or its change had been logged, and no block differs from
what was last logged of it that did not before. -/
structure Logs (s s' : Fs) : Prop where
  released : ∀ r ∈ s'.released, r ∈ s.released ∨ r.Ok
  unlogged : ∀ b, s'.data b ≠ s'.logged b → s.data b ≠ s.logged b

namespace Logs

variable {t : Fs}

theorem refl (s : Fs) : Logs s s := ⟨fun _ hr => .inl hr, fun _ hb => hb⟩

theorem trans (h : Logs s t) (h' : Logs t s') : Logs s s' :=
  ⟨fun r hr => (h'.released r hr).elim (h.released r) .inr,
    fun b hb => h.unlogged b (h'.unlogged b hb)⟩

/-- Releasing a buffer that is as it was read, or logged. -/
theorem release {r : Release} (hrel : s'.released = r :: s.released) (hr : r.Ok)
    (hb : ∀ b, s'.data b ≠ s'.logged b → s.data b ≠ s.logged b) : Logs s s' := by
  refine ⟨fun r' hr' => ?_, hb⟩
  rw [hrel] at hr'
  rcases List.mem_cons.1 hr' with rfl | hr'
  · exact .inr hr
  · exact .inl hr'

theorem peek (s : Fs) (b : ℕ) : Logs s (s.peek b) := release rfl (.inl rfl) fun _ hb => hb

theorem put (s : Fs) (b : ℕ) (blk : Block) : Logs s (s.put b blk) := by
  refine release rfl (.inr rfl) fun c hc => ?_
  by_cases hcb : c = b
  · simp [hcb] at hc
  · simpa [hcb] using hc

end Logs

/-! ## Buffers -/

/-- A buffer taken into use. -/
def take (s : Fs) (b : ℕ) : Fs :=
  { s with held := update s.held b (some ⟨s.data b, false⟩) }

@[simp] theorem take_data : (s.take b).data = s.data := rfl
@[simp] theorem take_logged : (s.take b).logged = s.logged := rfl
@[simp] theorem take_inode : (s.take b).inode = s.inode := rfl

theorem bread_ok {u : Unit} (h : bread b s = .ok (u, s')) : s.held b = none ∧ s' = s.take b := by
  unfold bread at h
  split at h
  · cases h
  · cases h
    exact ⟨‹_›, rfl⟩

theorem bread_error {e : Panic} (h : bread b s = .error e) : e = .selfDeadlock := by
  unfold bread at h
  split at h <;> cases h
  rfl

section

variable (h : s.held b = none)
include h

theorem bread_run : bread b s = .ok ((), s.take b) := by
  unfold bread
  rw [h]
  rfl

theorem held_restore (x : Option Held) : update (update s.held b x) b none = s.held := by
  rw [update_idem, ← h, update_eq_self]

/-- A buffer just read, released. -/
theorem brelse_take {α : Type} (k : Kern Fs α) : (do brelse b; k) (s.take b) = k (s.peek b) := by
  simp [Prog.bind_run, Except.bind, brelse, take, peek, held_restore h]

/-- A buffer just read, changed, logged and released. -/
theorem put_take {α : Type} (blk : Block) (k : Kern Fs α) :
    (do setData b blk; logWrite b; brelse b; k) (s.take b) = k (s.put b blk) := by
  simp [Prog.bind_run, Prog.modify_run, Except.bind, setData, logWrite, brelse, take, put,
    held_restore h, update_idem]

/-! ## Blocks -/

theorem bzero_run : bzero b s = .ok ((), s.put b fun _ => 0) := by
  unfold bzero
  rw [Prog.bind_run, bread_run h]
  simp [Prog.bind_run, Prog.modify_run, Except.bind, setData, logWrite, brelse, take, put,
    held_restore h, update_idem]

end

theorem bzero_held {x : Held} (h : s.held b = some x) : bzero b s = .error .selfDeadlock := by
  rw [bzero, Prog.bind_run]
  simp only [bread, h]
  rfl

variable (sb : Superblock)

/-- The bit of block `b` in the free map. -/
def bit (s : Fs) (b : ℕ) : Bool := (s.data (sb.bblock b)).testBit (b % BPB)

/-- The block of a cached inode with the inode stored. -/
def updated (s : Fs) (ip : Fin NINODE) : Block :=
  (s.inode ip).toDinode.store (s.data (sb.iblock (s.inode ip).inum)) (Dinode.off (s.inode ip).inum)

/-- An inode of the disk set to `d`. -/
def stored (s : Fs) (d : Dinode) (inum : ℕ) : Fs :=
  s.put (sb.iblock inum) (d.store (s.data (sb.iblock inum)) (Dinode.off inum))

/-- The inode of the disk set to the cached one. -/
def flushed (s : Fs) (ip : Fin NINODE) : Fs := s.stored sb (s.inode ip).toDinode (s.inode ip).inum

variable {sb}

@[simp] theorem flushed_inode : (s.flushed sb ip).inode = s.inode := rfl

theorem clearBit_eq_some {blk : Block} {bi : ℕ} (h : clearBit sb blk b = some bi) :
    bi < BPB ∧ b + bi < sb.size ∧ blk.testBit bi = false := by
  unfold clearBit at h
  have hmem := List.mem_of_find?_eq_some h
  have hp := List.find?_some h
  simp only [Bool.and_eq_true, decide_eq_true_eq, Bool.not_eq_true'] at hp
  exact ⟨List.mem_range.1 hmem, hp⟩

/-- The bits of one bitmap block stand for `BPB` blocks in a row. -/
theorem bblock_add (sb : Superblock) {bi : ℕ} (hb : b % BPB = 0) (hbi : bi < BPB) :
    sb.bblock (b + bi) = sb.bblock b ∧ (b + bi) % BPB = bi := by
  simp only [Superblock.bblock, BPB, BSIZE] at *
  omega

/-- The same but for blocks read and released unchanged. -/
structure Peeked (s s' : Fs) : Prop where
  data : s'.data = s.data
  logged : s'.logged = s.logged
  held : s'.held = s.held
  inode : s'.inode = s.inode
  logs : Logs s s'

theorem Peeked.refl (s : Fs) : Peeked s s := ⟨rfl, rfl, rfl, rfl, .refl s⟩

theorem peeked_peek (s : Fs) (b : ℕ) : Peeked s (s.peek b) :=
  ⟨rfl, rfl, rfl, rfl, .peek s b⟩

theorem Peeked.trans {t : Fs} (h : Peeked s t) (h' : Peeked t s') : Peeked s s' :=
  ⟨h'.data.trans h.data, h'.logged.trans h.logged, h'.held.trans h.held, h'.inode.trans h.inode,
    h.logs.trans h'.logs⟩

/-- One bitmap block of `balloc`. -/
theorem ballocFrom_succ (k b₀ : ℕ) : ballocFrom sb (k + 1) b₀ s =
    if (s.held (sb.bblock b₀)).isSome then .error .selfDeadlock
    else match clearBit sb (s.data (sb.bblock b₀)) b₀ with
      | some bi =>
        if (s.held (b₀ + bi)).isSome then .error .selfDeadlock
        else .ok (b₀ + bi, (s.put (sb.bblock b₀) ((s.data (sb.bblock b₀)).setBit bi)).put (b₀ + bi)
          fun _ => 0)
      | none => ballocFrom sb k (b₀ + BPB) (s.peek (sb.bblock b₀)) := by
  rw [ballocFrom, Prog.bind_run]
  cases hb : s.held (sb.bblock b₀) with
  | some x =>
    simp only [bread, hb]
    rfl
  | none =>
    rw [bread_run hb, if_neg (by simp)]
    simp only [Except.bind, Prog.bind_run, getData, Prog.gets_run, take_data]
    cases clearBit sb (s.data (sb.bblock b₀)) b₀ with
    | some bi =>
      dsimp only
      rw [put_take hb, Prog.bind_run]
      cases hnew : s.held (b₀ + bi) with
      | some x =>
        rw [bzero_held (by simpa using hnew)]
        rfl
      | none =>
        rw [bzero_run (by simpa using hnew)]
        rfl
    | none => exact brelse_take hb _

/-- **`balloc`** marks a block that was free, and clears it. -/
theorem ballocFrom_ok {k b₀ : ℕ} (hb₀ : b₀ % BPB = 0) (h : ballocFrom sb k b₀ s = .ok (b, s')) :
    b < sb.size ∧ s.bit sb b = false ∧ s.held b = none ∧ ∃ t, Peeked s t ∧
      s' = (t.put (sb.bblock b) ((s.data (sb.bblock b)).setBit (b % BPB))).put b fun _ => 0 := by
  induction k generalizing b₀ s with
  | zero => cases h
  | succ k ih =>
    rw [ballocFrom_succ] at h
    split at h
    · cases h
    · split at h
      · rename_i bi hfind
        obtain ⟨hbi, hlt, hclear⟩ := clearBit_eq_some hfind
        obtain ⟨hblock, hmod⟩ := bblock_add sb hb₀ hbi
        split at h
        · cases h
        · rename_i hnew
          cases h
          refine ⟨hlt, ?_, by simpa using hnew, s, Peeked.refl s, ?_⟩
          · rw [bit, hblock, hmod, hclear]
          · rw [hblock, hmod]
      · obtain ⟨h1, h2, h3, t, ht, h4⟩ := ih (by simp only [BPB, BSIZE] at *; omega) h
        exact ⟨h1, h2, h3, t, (peeked_peek s _).trans ht, h4⟩

theorem balloc_held (h : balloc sb s = .ok (b, s')) : s'.held = s.held := by
  obtain ⟨-, -, -, t, ht, rfl⟩ := ballocFrom_ok (Nat.zero_mod _) h
  simp [ht.held]

theorem ballocFrom_error {k b₀ : ℕ} {e : Panic} (h : ballocFrom sb k b₀ s = .error e) :
    e = .selfDeadlock ∨ e = .ballocOutOfBlocks := by
  induction k generalizing b₀ s with
  | zero => cases h; exact .inr rfl
  | succ k ih =>
    rw [ballocFrom_succ] at h
    split at h
    · cases h
      exact .inl rfl
    · split at h
      · split at h <;> cases h
        exact .inl rfl
      · exact ih h

/-- **`bfree`** clears a bit that was set. -/
theorem bfree_eq (sb : Superblock) (b : ℕ) (s : Fs) : bfree sb b s =
    if (s.held (sb.bblock b)).isSome then .error .selfDeadlock
    else if s.bit sb b then
      .ok ((), s.put (sb.bblock b) ((s.data (sb.bblock b)).clearBit (b % BPB)))
    else .error .freeingFreeBlock := by
  unfold bfree
  rw [Prog.bind_run]
  cases h : s.held (sb.bblock b) with
  | some x =>
    simp only [bread, h]
    rfl
  | none =>
    rw [bread_run h, if_neg (by simp)]
    simp only [Except.bind, Prog.bind_run, getData, Prog.gets_run, take_data, bit]
    by_cases hbit : (s.data (sb.bblock b)).testBit (b % BPB) = true
    · simp [hbit, Prog.bind_run, Prog.modify_run, Except.bind, setData, logWrite, brelse, take, put,
        held_restore h, update_idem]
    · rw [if_neg hbit]
      exact (if_neg hbit).symm

theorem bfree_error {e : Panic} (hbit : s.bit sb b = true) (h : bfree sb b s = .error e) :
    e = .selfDeadlock := by
  rw [bfree_eq, if_pos hbit] at h
  split at h <;> cases h
  rfl

theorem bfree_ok {u : Unit} (h : bfree sb b s = .ok (u, s')) :
    s.held (sb.bblock b) = none ∧ s.bit sb b = true ∧
      s' = s.put (sb.bblock b) ((s.data (sb.bblock b)).clearBit (b % BPB)) := by
  rw [bfree_eq] at h
  split at h
  · cases h
  · rename_i hb
    split at h <;> cases h
    exact ⟨Option.not_isSome_iff_eq_none.1 hb, ‹_›, rfl⟩

/-! ## Inodes on disk -/

/-- **`iupdate`** stores the inode in its block. -/
theorem iupdate_eq (sb : Superblock) (ip : Fin NINODE) (s : Fs) : iupdate sb ip s =
    if (s.held (sb.iblock (s.inode ip).inum)).isSome then .error .selfDeadlock
    else .ok ((), s.flushed sb ip) := by
  unfold iupdate
  simp only [Prog.bind_run, getInode, Prog.gets_run, Except.bind]
  cases h : s.held (sb.iblock (s.inode ip).inum) with
  | some x =>
    simp only [bread, h]
    rfl
  | none =>
    rw [bread_run h, if_neg (by simp)]
    simp [Prog.modify_run, Prog.gets_run, getData, setData, logWrite, brelse, take, put, stored,
      flushed, held_restore h, update_idem]

end Fs

end Xv6
