import Xv6.Bio.Phase
import Mathlib.Algebra.Order.BigOperators.Group.Finset
import Mathlib.Algebra.BigOperators.Fin
/-!
# Who refers to a buffer

`refcnt` is the number of processes that hold the buffer, wait for it or
are about to leave it, plus one for the pin of the log. So a buffer `bget`
recycles is in nobody's hands and not pinned, and what a process has in
its hands stays what it is.
-/

namespace Xv6

open Function List

/-! ## The same buffer -/

/-- The same block, the same lock, the same validity; the data and the
count may differ. -/
structure Buf.Same (u v : Buf) : Prop where
  dev : v.dev = u.dev
  blockno : v.blockno = u.blockno
  valid : v.valid = u.valid
  lock : v.lock = u.lock

namespace Bcache

variable {c : Bcache} {i j : Fin NBUF}

/-- What the new buffer has of the old one is the same all over the cache. -/
theorem set_eq {α : Type} {u : Buf} (f : Buf → α) (h : f u = f (c.buf i)) (j : Fin NBUF) :
    f ((c.set i u).buf j) = f (c.buf j) := by
  by_cases hj : j = i
  · rw [hj, set_self, h]
  · rw [set_of_ne _ _ hj]

theorem same_set {u : Buf} (h : (c.buf i).Same u) (j : Fin NBUF) :
    (c.buf j).Same ((c.set i u).buf j) :=
  ⟨set_eq Buf.dev h.dev j, set_eq Buf.blockno h.blockno j, set_eq Buf.valid h.valid j,
    set_eq Buf.lock h.lock j⟩

theorem setData_self (c : Bcache) (i : Fin NBUF) (d : Block) :
    (c.setData i d).buf i = { c.buf i with data := d } :=
  set_self ..

theorem setData_of_ne {d : Block} (hj : j ≠ i) : (c.setData i d).buf j = c.buf j :=
  set_of_ne _ _ hj

theorem same_setData (d : Block) (j : Fin NBUF) : (c.buf j).Same ((c.setData i d).buf j) :=
  same_set (by constructor <;> rfl) j

theorem same_bpin (j : Fin NBUF) : (c.buf j).Same ((c.bpin i).buf j) :=
  same_set (by constructor <;> rfl) j

theorem same_bunpin (j : Fin NBUF) : (c.buf j).Same ((c.bunpin i).buf j) :=
  same_set (by constructor <;> rfl) j

theorem same_unref (j : Fin NBUF) : (c.buf j).Same ((c.unref i).buf j) := by
  rw [unref_buf]
  exact same_bunpin j

theorem data_bpin (j : Fin NBUF) : ((c.bpin i).buf j).data = (c.buf j).data :=
  set_eq Buf.data (by rfl) j

theorem refcnt_setData (d : Block) (j : Fin NBUF) :
    ((c.setData i d).buf j).refcnt = (c.buf j).refcnt :=
  set_eq Buf.refcnt (by rfl) j

end Bcache

namespace BufSys

variable {s : BufSys} {p : Pid} {i j : Fin NBUF} {b : ℕ}

/-- Reaching a buffer that is cached. -/
def hit (s : BufSys) (p : Pid) (i : Fin NBUF) : BufSys :=
  { s with cache := s.cache.bpin i }.setIo p (.locking i)

/-- Giving a buffer to another block. -/
def recycle (s : BufSys) (p : Pid) (b : ℕ) (i : Fin NBUF) : BufSys :=
  { s with cache := s.cache.set i { s.cache.buf i with
    dev := s.log.dev, blockno := b, valid := false, refcnt := 1 } }.setIo p (.locking i)

/-- The three outcomes of `bget`'s search. -/
theorem next_bget (p : Pid) (b : ℕ) :
    (∃ i, (s.cache.buf i).dev = s.log.dev ∧ (s.cache.buf i).blockno = b ∧
      s.next (.bget p b) = s.hit p i) ∨
    (∃ i, s.cache.cached s.log.dev b = none ∧ (s.cache.buf i).refcnt = 0 ∧
      s.next (.bget p b) = s.recycle p b i) ∨
    ∃ e, s.next (.bget p b) = { s with panic := some e } := by
  simp only [next]
  split
  · rename_i i c hb
    rcases Bcache.bget_cases hb with ⟨hdev, hno, rfl⟩ | ⟨hnone, h0, rfl⟩
    · exact .inl ⟨i, hdev, hno, rfl⟩
    · exact .inr (.inl ⟨i, hnone, h0, rfl⟩)
  · rename_i e _
    exact .inr (.inr ⟨e, rfl⟩)

theorem commitEffect_same (c : CommitAt) (j : Fin NBUF) :
    (s.cache.buf j).Same ((s.commitEffect p c).cache.buf j) := by
  have hrefl : (s.cache.buf j).Same (s.cache.buf j) := ⟨rfl, rfl, rfl, rfl⟩
  cases c with
  | logCopy | headStore | instCopy => exact Bcache.same_setData _ j
  | instUnpin tail lbuf dbuf => exact Bcache.same_bunpin j
  | logPut | headPut | instPut => simpa [commitEffect] using hrefl
  | _ => exact hrefl

/-! ## The ring, and one buffer a block -/

theorem linked_next (h : s.cache.Linked) (a : BufAct) : (s.next a).cache.Linked := by
  cases a with
  | bget p b =>
    rcases s.next_bget p b with ⟨i, -, -, he⟩ | ⟨i, -, -, he⟩ | ⟨e, he⟩ <;> rw [he] <;> exact h
  | fill p i => exact h.fill i s.disk
  | releasesleep | beginOp | logCheck | endOp => simp only [next]; split <;> exact h
  | unref p i => exact h.unref i
  | logWrite p i =>
    simp only [next]
    split
    · rename_i pin log _
      cases pin <;> exact h
    · exact h
  | commit p c =>
    simp only [next]
    cases c <;> simp only [commitEffect, setJob, bwrite_cache] <;> exact h
  | _ => exact h

theorem linked_of_reachable (h : system.Reachable s) : s.cache.Linked :=
  h.invariant (I := fun s => s.cache.Linked) (fun s (hs : s.Start) => hs.linked) fun s a s' _ hi hs => by
    rw [hs.2]
    exact linked_next hi a

/-- A step keeps the block of every buffer, unless it recycles one. -/
theorem ident_next (a : BufAct) :
    (∀ j, ((s.next a).cache.buf j).dev = (s.cache.buf j).dev ∧
      ((s.next a).cache.buf j).blockno = (s.cache.buf j).blockno) ∨
    ∃ p b i, a = .bget p b ∧ s.cache.cached s.log.dev b = none ∧ (s.cache.buf i).refcnt = 0 ∧
      s.next a = s.recycle p b i := by
  have of_same : ∀ {c : Bcache}, (∀ j, (s.cache.buf j).Same (c.buf j)) → ∀ j,
      (c.buf j).dev = (s.cache.buf j).dev ∧ (c.buf j).blockno = (s.cache.buf j).blockno :=
    fun h j => ⟨(h j).dev, (h j).blockno⟩
  have of_set : ∀ {i u}, u.dev = (s.cache.buf i).dev → u.blockno = (s.cache.buf i).blockno → ∀ j,
      ((s.cache.set i u).buf j).dev = (s.cache.buf j).dev ∧
      ((s.cache.set i u).buf j).blockno = (s.cache.buf j).blockno :=
    fun hd hb j => ⟨Bcache.set_eq Buf.dev hd j, Bcache.set_eq Buf.blockno hb j⟩
  cases a with
  | bget p b =>
    rcases s.next_bget p b with ⟨i, -, -, he⟩ | ⟨i, hnone, h0, he⟩ | ⟨e, he⟩
    · left
      rw [he]
      exact of_same Bcache.same_bpin
    · exact .inr ⟨p, b, i, rfl, hnone, h0, he⟩
    · left
      rw [he]
      exact fun j => ⟨rfl, rfl⟩
  | acquiresleep p i => exact .inl (of_set rfl rfl)
  | fill p i =>
    left
    simp only [next, setIo, setJob, Bcache.fill]
    split
    · exact fun j => ⟨rfl, rfl⟩
    · exact of_set rfl rfl
  | releasesleep p i =>
    left
    simp only [next]
    split
    · exact of_set rfl rfl
    · exact fun j => ⟨rfl, rfl⟩
  | unref p i => exact .inl (of_same Bcache.same_unref)
  | beginOp | logCheck | endOp => left; simp only [next]; split <;> exact fun j => ⟨rfl, rfl⟩
  | modify p i d => exact .inl (of_same (Bcache.same_setData d))
  | logWrite p i =>
    left
    simp only [next]
    split
    · rename_i pin log _
      cases pin
      · exact fun j => ⟨rfl, rfl⟩
      · exact of_same Bcache.same_bpin
    · exact fun j => ⟨rfl, rfl⟩
  | commit p c => exact .inl (of_same (commitEffect_same c))

/-- **One buffer a block.** -/
def Unique (s : BufSys) : Prop := ∀ i j, (s.cache.buf i).dev ≠ 0 →
  (s.cache.buf i).dev = (s.cache.buf j).dev → (s.cache.buf i).blockno = (s.cache.buf j).blockno →
    i = j

theorem Unique.next (h : s.Unique) (hl : s.cache.Linked) (a : BufAct) : (s.next a).Unique := by
  rcases s.ident_next a with hsame | ⟨p, b, i, -, hnone, -, he⟩
  · intro j k
    rw [(hsame j).1, (hsame k).1, (hsame j).2, (hsame k).2]
    exact h j k
  -- the block recycled for had no buffer
  rw [he]
  intro j k hdev hd hb
  simp only [recycle, setIo] at hdev hd hb
  by_cases hj : j = i <;> by_cases hk : k = i
  · rw [hj, hk]
  · subst hj
    rw [Bcache.set_self, Bcache.set_of_ne _ _ hk] at hd hb
    exact absurd ⟨hd.symm, hb.symm⟩ (hl.cached_eq_none hnone k)
  · subst hk
    rw [Bcache.set_self, Bcache.set_of_ne _ _ hj] at hd hb
    exact absurd ⟨hd, hb⟩ (hl.cached_eq_none hnone j)
  · rw [Bcache.set_of_ne _ _ hj] at hdev hd hb
    rw [Bcache.set_of_ne _ _ hk] at hd hb
    exact h j k hdev hd hb

/-- Another buffer of the device is of another block. -/
theorem Unique.blockno_ne (h : s.Unique) (hdev : s.log.dev ≠ 0) (hi : (s.cache.buf i).dev = s.log.dev)
    (hd : (s.cache.buf j).dev = s.log.dev) (hj : j ≠ i) :
    (s.cache.buf j).blockno ≠ (s.cache.buf i).blockno := fun hb =>
  hj (h j i (by rwa [hd]) (by rw [hd, hi]) hb)

theorem unique_of_reachable (h : system.Reachable s) : s.Unique :=
  h.invariant (I := Unique) (fun s (hs : s.Start) => hs.unique) fun s a s' hr hi hs => by
    rw [hs.2]
    exact hi.next (linked_of_reachable hr) a

end BufSys

/-! ## What a committer has in hand -/

namespace CommitAt

/-- The buffers in hand, with the blocks they are of. -/
def holds (log : Log) : CommitAt → List (Fin NBUF × ℕ)
  | logFrom tail buf | logDropTo tail buf | instDst tail buf => [(buf, log.start + tail + 1)]
  | logCopy tail lbuf dbuf | logPut tail lbuf dbuf | logDropFrom tail lbuf dbuf
  | instCopy tail lbuf dbuf | instPut tail lbuf dbuf | instUnpin tail lbuf dbuf
  | instDropLog tail lbuf dbuf => [(lbuf, log.start + tail + 1), (dbuf, log.lh.block tail)]
  | instDropDst tail dbuf => [(dbuf, log.lh.block tail)]
  | headStore _ buf | headPut _ buf | headDrop _ buf => [(buf, log.start)]
  | _ => []

variable {log : Log} {c : CommitAt} {b : ℕ} {i : Fin NBUF}

theorem holds_got (h : c.wants log = some b) : (c.got i).holds log = c.holds log ++ [(i, b)] := by
  cases c with
  | logTo | instLog =>
    simp only [wants] at h
    split at h <;> cases h
    rfl
  | _ => cases h <;> rfl

theorem holds_dropped (log : Log) (h : c.drops = some i) :
    ∃ b, (c.holds log).Perm ((i, b) :: c.dropped.holds log) := by
  cases c with
  | logDropFrom tail tbuf fbuf => cases h; exact ⟨_, List.Perm.swap ..⟩
  | logDropTo | instDropLog | instDropDst => cases h; exact ⟨_, List.Perm.refl _⟩
  | headDrop erase buf => cases h; cases erase <;> exact ⟨_, List.Perm.refl _⟩
  | _ => cases h

theorem holds_after {c' : CommitAt} (h : Job.after c = .commit c') :
    c'.holds log = c.holds log := by
  cases c <;> cases h <;> rfl

theorem holds_congr {log' : Log} (hs : log'.start = log.start)
    (hb : log'.lh.block = log.lh.block) : c.holds log' = c.holds log := by
  cases c <;> simp only [holds, hs, hb]

end CommitAt

/-! ## The count -/

/-- What a process inside `bread` or `brelse` counts for at buffer `i`,
when it does not hold the lock. -/
def Io.refs (i : Fin NBUF) : Io → ℕ
  | locking j | unref j => if j = i then 1 else 0
  | _ => 0

@[simp] theorem Io.refs_none (i : Fin NBUF) : Io.none.refs i = 0 := rfl
@[simp] theorem Io.refs_filling (i j : Fin NBUF) : (Io.filling j).refs i = 0 := rfl
@[simp] theorem Io.refs_locking (i j : Fin NBUF) :
    (Io.locking j).refs i = if j = i then 1 else 0 := rfl
@[simp] theorem Io.refs_unref (i j : Fin NBUF) :
    (Io.unref j).refs i = if j = i then 1 else 0 := rfl

theorem Io.refs_le_one (i : Fin NBUF) (x : Io) : x.refs i ≤ 1 := by
  cases x <;> simp only [Io.refs] <;> first | omega | (split <;> omega)

namespace BufSys

/-- The processes waiting for buffer `i` or leaving it. -/
def waiting (s : BufSys) (i : Fin NBUF) : ℕ := ∑ p, (s.io p).refs i

/-- One if somebody holds it. -/
def held (s : BufSys) (i : Fin NBUF) : ℕ := if (s.cache.buf i).lock = none then 0 else 1

/-- One if the log pins it. -/
def pinned (s : BufSys) (i : Fin NBUF) : ℕ :=
  if (s.cache.buf i).dev = s.log.dev ∧ (s.cache.buf i).blockno ∈ s.pins then 1 else 0

/-- What process `p` has in its hands. -/
structure Hands (s : BufSys) (p : Pid) : Prop where
  regs : ∀ c, s.job p = .commit c → ∀ x ∈ c.holds s.log, (s.cache.buf x.1).lock = some p ∧
    (s.cache.buf x.1).blockno = x.2 ∧ (s.cache.buf x.1).valid
  nodup : ∀ c, s.job p = .commit c → ((c.holds s.log).map Prod.fst).Nodup
  logging : ∀ i, s.job p = .logging i → (s.cache.buf i).lock = some p ∧
    ¬ s.log.InArea (s.cache.buf i).blockno
  dirty : ∀ i ∈ s.dirty, (s.cache.buf i).lock = some p → (s.job p).Busy ∧
    ¬ s.log.InArea (s.cache.buf i).blockno

/-- And where it is with the buffer it is getting. -/
structure At (s : BufSys) (p : Pid) : Prop extends Hands s p where
  filling : ∀ i, s.io p = .filling i → (s.cache.buf i).lock = some p ∧ i ∉ s.dirty
  valid : ∀ i, (s.cache.buf i).lock = some p → (s.cache.buf i).valid ∨ s.io p = .filling i
  fetch : ∀ c i, s.job p = .commit c → s.io p = .locking i ∨ s.io p = .filling i →
    c.wants s.log = some (s.cache.buf i).blockno
  apart : ∀ c i, s.job p = .commit c → s.io p = .filling i → ∀ x ∈ c.holds s.log, x.1 ≠ i

/-- **References.** -/
structure Refs (s : BufSys) : Prop where
  count : ∀ i, (s.cache.buf i).refcnt = s.held i + s.waiting i + s.pinned i
  dev : ∀ i, (s.cache.buf i).refcnt ≠ 0 → (s.cache.buf i).dev = s.log.dev
  pin : ∀ b ∈ s.pins, ∃ i, (s.cache.buf i).dev = s.log.dev ∧ (s.cache.buf i).blockno = b ∧
    (s.cache.buf i).valid
  process : ∀ p, At s p
  owned : ∀ i ∈ s.dirty, ∃ p, (s.cache.buf i).lock = some p
  home : ∀ b ∈ s.log.lh.blocks, ¬ s.log.InArea b

variable {s s' : BufSys} {p q : Pid} {i j : Fin NBUF} {b : ℕ}

/-- A process keeps what it has in its hands when only buffer `i` changes,
and stays the same if it is there. -/
theorem Hands.touch (h : Hands s p) (hlog : s'.log = s.log) (hdirty : s'.dirty = s.dirty)
    (hjob : s'.job p = s.job p) (hbuf : ∀ j, j ≠ i → s'.cache.buf j = s.cache.buf j)
    (hself : (s.cache.buf i).lock = some p → (s'.cache.buf i).lock = some p ∧
      (s'.cache.buf i).blockno = (s.cache.buf i).blockno ∧
      ((s.cache.buf i).valid → (s'.cache.buf i).valid))
    (hlock : i ∈ s.dirty → (s'.cache.buf i).lock = some p → (s.cache.buf i).lock = some p) :
    Hands s' p := by
  have hkeep : ∀ j, (s.cache.buf j).lock = some p → (s'.cache.buf j).lock = some p ∧
      (s'.cache.buf j).blockno = (s.cache.buf j).blockno ∧
      ((s.cache.buf j).valid → (s'.cache.buf j).valid) := by
    intro j hj
    by_cases hji : j = i
    · subst hji
      exact hself hj
    · rw [hbuf j hji]
      exact ⟨hj, rfl, id⟩
  refine ⟨fun c hc x hx => ?_, fun c hc => ?_, fun j hj => ?_, fun j hj hl => ?_⟩
  · rw [hjob] at hc
    rw [hlog] at hx
    obtain ⟨h1, h2, h3⟩ := h.regs c hc x hx
    obtain ⟨k1, k2, k3⟩ := hkeep x.1 h1
    exact ⟨k1, k2.trans h2, k3 h3⟩
  · rw [hjob] at hc
    rw [hlog]
    exact h.nodup c hc
  · rw [hjob] at hj
    obtain ⟨h1, h2⟩ := h.logging j hj
    obtain ⟨k1, k2, -⟩ := hkeep j h1
    exact ⟨k1, by rwa [k2, hlog]⟩
  · rw [hdirty] at hj
    have hl : (s.cache.buf j).lock = some p := by
      by_cases hji : j = i
      · subst hji
        exact hlock hj hl
      · rwa [hbuf j hji] at hl
    rw [hjob, hlog, (hkeep j hl).2.1]
    exact h.dirty j hj hl

/-- A process that is not about to read a buffer. -/
theorem Hands.at_rest (h : Hands s p) (hio : ∀ j, s.io p ≠ .filling j)
    (hvalid : ∀ j, (s.cache.buf j).lock = some p → (s.cache.buf j).valid)
    (hfetch : ∀ c j, s.job p = .commit c → s.io p = .locking j →
      c.wants s.log = some (s.cache.buf j).blockno) : At s p where
  toHands := h
  filling j hj := absurd hj (hio j)
  valid j hj := .inl (hvalid j hj)
  fetch c j hc hj := hfetch c j hc (hj.resolve_right (hio j))
  apart _ j _ hj := absurd hj (hio j)

namespace Refs

theorem start (h : s.Start) : s.Refs where
  count i := by simp [held, waiting, pinned, h.refcnt, h.lock, h.io, h.pins]
  dev i hi := absurd (h.refcnt i) hi
  pin b hb := by simp [h.pins] at hb
  process p := Hands.at_rest (by constructor <;> simp [h.job, h.dirty]) (by simp [h.io])
    (by simp [h.lock]) (by simp [h.job])
  owned i hi := by simp [h.dirty] at hi
  home b hb := by simp [LogHeader.blocks, h.n] at hb

theorem waiting_le : s.waiting i ≤ NPROC := by
  have := Finset.sum_le_card_nsmul Finset.univ (fun p => (s.io p).refs i) 1
    fun p _ => (s.io p).refs_le_one i
  simpa [waiting] using this

section

variable (h : s.Refs)
include h

/-- A counter is far from its end. -/
theorem refcnt_lt (i : Fin NBUF) : (s.cache.buf i).refcnt + 1 < 2 ^ 32 := by
  have h1 := h.count i
  have h2 : s.waiting i ≤ NPROC := waiting_le
  have h3 : s.held i ≤ 1 := by unfold held; split <;> omega
  have h4 : s.pinned i ≤ 1 := by unfold pinned; split <;> omega
  simp only [NPROC] at h2
  omega

theorem uintInc_refcnt (i : Fin NBUF) :
    uintInc (s.cache.buf i).refcnt = (s.cache.buf i).refcnt + 1 :=
  Nat.mod_eq_of_lt (h.refcnt_lt i)

theorem uintDec_refcnt (i : Fin NBUF) (hpos : (s.cache.buf i).refcnt ≠ 0) :
    uintDec (s.cache.buf i).refcnt = (s.cache.buf i).refcnt - 1 := by
  have := h.refcnt_lt i
  unfold uintDec
  omega

/-- What is held, waited for or left is referred to. -/
theorem refcnt_of_lock (hi : (s.cache.buf i).lock = some p) : (s.cache.buf i).refcnt ≠ 0 := by
  have := h.count i
  simp only [held, hi, reduceCtorEq, if_false] at this
  omega

theorem refcnt_of_io (hp : s.io p = .locking i ∨ s.io p = .unref i) :
    (s.cache.buf i).refcnt ≠ 0 := by
  have hone : (s.io p).refs i = 1 := by
    rcases hp with hp | hp <;> simp [hp]
  have hle : (s.io p).refs i ≤ s.waiting i :=
    Finset.single_le_sum (f := fun p => (s.io p).refs i) (fun _ _ => Nat.zero_le _)
      (Finset.mem_univ p)
  have := h.count i
  omega

/-- A buffer that the committer has in hand. -/
theorem reg {c : CommitAt} (hp : s.job p = .commit c) (i : Fin NBUF) (b : ℕ)
    (hib : (i, b) ∈ c.holds s.log) :
    (s.cache.buf i).lock = some p ∧ (s.cache.buf i).blockno = b ∧ (s.cache.buf i).valid :=
  (h.process p).regs c hp (i, b) hib

theorem dev_of_lock (hi : (s.cache.buf i).lock = some p) : (s.cache.buf i).dev = s.log.dev :=
  h.dev i (h.refcnt_of_lock hi)

end

/-- One process changing what it waits for. -/
theorem waiting_update (s : BufSys) (p : Pid) (x : Io) (i : Fin NBUF) :
    (∑ q, (update s.io p x q).refs i) + (s.io p).refs i = s.waiting i + x.refs i := by
  have hrest : ∀ q ∈ Finset.univ.erase p, (update s.io p x q).refs i = (s.io q).refs i := by
    intro q hq
    rw [update_of_ne (Finset.ne_of_mem_erase hq)]
  unfold waiting
  rw [← Finset.add_sum_erase _ _ (Finset.mem_univ p),
    ← Finset.add_sum_erase (f := fun q => (s.io q).refs i) _ (Finset.mem_univ p),
    Finset.sum_congr rfl hrest, update_self]
  omega

/-! ### Steps inside `bread` and `brelse` -/

/-- What a pinned block's buffer counts. -/
theorem refcnt_of_pin (h : s.Refs) (hd : (s.cache.buf i).dev = s.log.dev)
    (hb : (s.cache.buf i).blockno ∈ s.pins) : (s.cache.buf i).refcnt ≠ 0 := by
  have hpin : s.pinned i = 1 := if_pos ⟨hd, hb⟩
  have := h.count i
  omega

/-- Who has a buffer that is changed and not logged. -/
theorem dirty (h : s.Refs) (i : Fin NBUF) (hi : i ∈ s.dirty) : ∃ p, (s.cache.buf i).lock = some p ∧
    (s.job p).Busy ∧ s.io p ≠ .filling i ∧ ¬ s.log.InArea (s.cache.buf i).blockno := by
  obtain ⟨p, hp⟩ := h.owned i hi
  obtain ⟨hbusy, hout⟩ := (h.process p).dirty i hi hp
  exact ⟨p, hp, hbusy, fun hf => ((h.process p).filling i hf).2 hi, hout⟩

/-- **A step of one process inside `bread` or `brelse`**: it changes one
buffer, which stays the same block if anybody refers to it, and leaves the
locks of the others theirs. -/
theorem of_touch (h : s.Refs) (hlog : s'.log = s.log) (hpins : s'.pins = s.pins)
    (hdirty : s'.dirty = s.dirty) (hothers : ∀ q, q ≠ p → s'.io q = s.io q ∧ s'.job q = s.job q)
    (hbuf : ∀ j, j ≠ i → s'.cache.buf j = s.cache.buf j)
    (hself : (s.cache.buf i).refcnt ≠ 0 → (s'.cache.buf i).dev = (s.cache.buf i).dev ∧
      (s'.cache.buf i).blockno = (s.cache.buf i).blockno ∧
      ((s.cache.buf i).valid → (s'.cache.buf i).valid))
    (hlock : ∀ q, q ≠ p → ((s'.cache.buf i).lock = some q ↔ (s.cache.buf i).lock = some q))
    (hcount : (s'.cache.buf i).refcnt + s.held i + (s.io p).refs i + s.pinned i =
      (s.cache.buf i).refcnt + s'.held i + (s'.io p).refs i + s'.pinned i)
    (hrefs : ∀ j, j ≠ i → (s'.io p).refs j = (s.io p).refs j)
    (hdev : (s'.cache.buf i).refcnt ≠ 0 → (s'.cache.buf i).dev = s.log.dev) (hp : At s' p)
    (howned : i ∈ s.dirty → (s.cache.buf i).lock = some p → (s'.cache.buf i).lock = some p) :
    s'.Refs := by
  have hlock' : ∀ j q, q ≠ p →
      ((s'.cache.buf j).lock = some q ↔ (s.cache.buf j).lock = some q) := by
    intro j q hq
    by_cases hj : j = i
    · rw [hj, hlock q hq]
    · rw [hbuf j hj]
  have hkeep : ∀ {j}, (s.cache.buf j).refcnt ≠ 0 → (s'.cache.buf j).dev = (s.cache.buf j).dev ∧
      (s'.cache.buf j).blockno = (s.cache.buf j).blockno ∧
      ((s.cache.buf j).valid → (s'.cache.buf j).valid) := by
    intro j h0
    by_cases hj : j = i
    · subst hj
      exact hself h0
    · rw [hbuf j hj]
      exact ⟨rfl, rfl, id⟩
  refine ⟨fun j => ?_, fun j hj => ?_, fun b hb => ?_, fun q => ?_, fun j hj => ?_,
    by rw [hlog]; exact h.home⟩
  · have hio : s'.io = update s.io p (s'.io p) := by
      funext q
      by_cases hqp : q = p
      · rw [hqp, update_self]
      · rw [update_of_ne hqp, (hothers q hqp).1]
    have h1 := waiting_update s p (s'.io p) j
    have h2 : s'.waiting j = ∑ q, (update s.io p (s'.io p) q).refs j := by rw [← hio]; rfl
    have h3 := h.count j
    by_cases hj : j = i
    · subst hj
      omega
    · have h4 := hrefs j hj
      have h5 : s'.held j = s.held j := by simp only [held, hbuf j hj]
      have h6 : s'.pinned j = s.pinned j := by simp only [pinned, hbuf j hj, hlog, hpins]
      rw [hbuf j hj]
      omega
  · rw [hlog]
    by_cases hji : j = i
    · subst hji
      exact hdev hj
    · rw [hbuf j hji] at hj ⊢
      exact h.dev j hj
  · rw [hpins] at hb
    obtain ⟨j, h1, h2, h3⟩ := h.pin b hb
    obtain ⟨hd, hb, hv⟩ := hkeep (h.refcnt_of_pin h1 (by rwa [h2]))
    exact ⟨j, by rw [hd, hlog, h1], by rw [hb, h2], hv h3⟩
  · -- the other processes are where they were, and what they hold is what it was
    by_cases hqp : q = p
    · rw [hqp]
      exact hp
    obtain ⟨hio, hjob⟩ := hothers q hqp
    have hq := h.process q
    refine ⟨hq.touch hlog hdirty hjob hbuf (fun hl => ?_) fun _ => (hlock q hqp).1,
      fun j hj => ?_, fun j hj => ?_, fun c j hc hj => ?_, fun c j hc hj => ?_⟩
    · exact ⟨(hlock q hqp).2 hl, (hself (h.refcnt_of_lock hl)).2⟩
    · rw [hio] at hj
      rw [hlock' j q hqp, hdirty]
      exact hq.filling j hj
    · rw [hlock' j q hqp] at hj
      rw [hio]
      exact (hq.valid j hj).imp_left (hkeep (h.refcnt_of_lock hj)).2.2
    · rw [hjob] at hc
      rw [hio] at hj
      have hne : (s.cache.buf j).refcnt ≠ 0 := by
        rcases hj with hj | hj
        · exact h.refcnt_of_io (.inl hj)
        · exact h.refcnt_of_lock (hq.filling j hj).1
      rw [hlog, (hkeep hne).2.1]
      exact hq.fetch c j hc hj
    · rw [hjob] at hc
      rw [hio] at hj
      rw [hlog]
      exact hq.apart c j hc hj
  · rw [hdirty] at hj
    obtain ⟨q, hl⟩ := h.owned j hj
    refine ⟨q, ?_⟩
    by_cases hqp : q = p
    · subst hqp
      by_cases hji : j = i
      · subst hji
        exact howned hj hl
      · rwa [hbuf j hji]
    · exact (hlock' j q hqp).2 hl

/-- What `setIo` leaves to the others. -/
theorem setIo_others (s : BufSys) (x : Io) (q : Pid) (hq : q ≠ p) :
    (s.setIo p x).io q = s.io q ∧ (s.setIo p x).job q = s.job q :=
  ⟨update_of_ne hq .., rfl⟩

/-- A step that moves a process between waiting for buffer `i`, leaving it,
and neither, and changes nothing but the count. -/
theorem of_io (h : s.Refs) {c : Bcache} {x : Io} {n : ℕ}
    (hbuf : ∀ j, j ≠ i → c.buf j = s.cache.buf j)
    (hself : c.buf i = { s.cache.buf i with refcnt := n }) (hold : ∀ i, s.io p ≠ .filling i)
    (hnew : ∀ i, x ≠ .filling i)
    (hfetch : ∀ c j, s.job p = .commit c → x = .locking j →
      j = i ∧ c.wants s.log = some (s.cache.buf i).blockno)
    (hcount : n + (s.io p).refs i = (s.cache.buf i).refcnt + x.refs i)
    (hrefs : ∀ j, j ≠ i → x.refs j = (s.io p).refs j)
    (hdev : n ≠ 0 → (s.cache.buf i).dev = s.log.dev) :
    ({ s with cache := c }.setIo p x).Refs := by
  have hp := h.process p
  set t := { s with cache := c }.setIo p x
  have hio : t.io p = x := update_self ..
  have hself : t.cache.buf i = { s.cache.buf i with refcnt := n } := hself
  have hands : Hands t p := hp.touch rfl rfl rfl hbuf (by rw [hself]; exact fun hl => ⟨hl, rfl, id⟩)
    (by rw [hself]; exact fun _ => id)
  refine h.of_touch rfl rfl rfl (fun q hq => setIo_others _ x q hq) hbuf
    (by rw [hself]; exact fun _ => ⟨rfl, rfl, id⟩) (by rw [hself]; exact fun _ _ => Iff.rfl) ?_
    (by rw [hio]; exact hrefs) (by rw [hself]; exact hdev)
    (hands.at_rest (by rwa [hio]) (fun j hj => ?_) fun c j hc hj => ?_)
    (by rw [hself]; exact fun _ => id)
  · have hpin : t.pinned i = s.pinned i := by
      simp only [pinned, hself]
      rfl
    rw [hio, hpin]
    simp only [held, hself]
    omega
  · by_cases hji : j = i
    · subst hji
      rw [hself] at hj ⊢
      exact (hp.valid j hj).resolve_right (hold j)
    · have hj' : t.cache.buf j = s.cache.buf j := hbuf j hji
      rw [hj'] at hj ⊢
      exact (hp.valid j hj).resolve_right (hold j)
  · rw [hio] at hj
    obtain ⟨rfl, hw⟩ := hfetch c j hc hj
    rw [hself]
    exact hw

/-- What a process asks `bget` for is what it wants. -/
theorem wants_of_bget (ha : s.Enabled (.bget p b)) {c : CommitAt} (hc : s.job p = .commit c) :
    c.wants s.log = some b := by
  rcases ha.2 with hcl | ⟨c', hc', hw⟩
  · rcases hcl with hcl | hcl <;> simp [hcl] at hc
  · rw [hc] at hc'
    cases hc'
    exact hw

section

variable (h : s.Refs)
include h

theorem hit (ha : s.Enabled (.bget p b)) (hdev : (s.cache.buf i).dev = s.log.dev)
    (hb : (s.cache.buf i).blockno = b) : (s.hit p i).Refs := by
  have hio : s.io p = .none := ha.1
  refine h.of_io (fun j hj => Bcache.set_of_ne _ _ hj) (Bcache.set_self ..) (by simp [hio])
    (by simp) (fun c j hc hj => ?_) ?_ (fun j hj => ?_) fun _ => hdev
  · cases hj
    exact ⟨rfl, by rw [wants_of_bget ha hc, hb]⟩
  · simp [hio, h.uintInc_refcnt]
  · simp [hio, Ne.symm hj]

theorem unref (ha : s.Enabled (.unref p i)) : (s.next (.unref p i)).Refs := by
  have hio : s.io p = .unref i := ha
  have hpos := h.refcnt_of_io (.inr hio)
  have hbuf := Bcache.unref_buf s.cache i
  refine h.of_io (n := (s.cache.buf i).refcnt - 1) (fun j hj => ?_) ?_ (by simp [hio]) (by simp)
    (by simp) ?_ (fun j hj => ?_) fun _ => h.dev i hpos
  · rw [hbuf]
    exact Bcache.set_of_ne _ _ hj
  · rw [hbuf, ← h.uintDec_refcnt i hpos]
    exact Bcache.set_self ..
  · simp only [hio, Io.refs_unref, Io.refs_none, if_true]
    omega
  · simp [hio, Ne.symm hj]

/-- A recycled buffer was in nobody's hands, and its new block is not
pinned. -/
theorem recycle (hl : s.cache.Linked) (ha : s.Enabled (.bget p b))
    (hnone : s.cache.cached s.log.dev b = none) (h0 : (s.cache.buf i).refcnt = 0) :
    (s.recycle p b i).Refs := by
  have hio : s.io p = .none := ha.1
  have hp := h.process p
  have hfree : (s.cache.buf i).lock = none := Option.eq_none_iff_forall_ne_some.2
    fun q hq => h.refcnt_of_lock hq h0
  have hpins : b ∉ s.pins := by
    intro hb
    obtain ⟨j, hd, hbj, -⟩ := h.pin b hb
    exact hl.cached_eq_none hnone j ⟨hd, hbj⟩
  set t := s.recycle p b i
  have hself : t.cache.buf i = { s.cache.buf i with
      dev := s.log.dev, blockno := b, valid := false, refcnt := 1 } := Bcache.set_self ..
  have hbuf : ∀ j, j ≠ i → t.cache.buf j = s.cache.buf j := fun j hj => Bcache.set_of_ne _ _ hj
  have hiop : t.io p = .locking i := update_self ..
  have hands : Hands t p := hp.touch rfl rfl rfl hbuf (by simp [hfree]) (by simp [hself])
  refine h.of_touch rfl rfl rfl (fun q hq => setIo_others _ _ q hq) hbuf (fun hne => absurd h0 hne)
    (by simp [hself]) ?_ (fun j hj => by simp [hio, hiop, Ne.symm hj]) (fun _ => by rw [hself])
    (hands.at_rest (by simp [hiop]) (fun j hj => ?_) fun c j hc hj => ?_) (by simp [hself])
  · have h1 := h.count i
    have h2 : t.pinned i = 0 := by
      simp only [pinned, hself]
      exact if_neg fun hb => hpins hb.2
    have h3 : t.held i = s.held i := by simp only [held, hself]
    rw [h2, h3, hio, hiop, hself, Io.refs_none, Io.refs_locking, if_pos rfl]
    dsimp only
    omega
  · have hji : j ≠ i := by
      rintro rfl
      simp [hself, hfree] at hj
    rw [hbuf j hji] at hj ⊢
    exact (hp.valid j hj).resolve_right (by simp [hio])
  · rw [hiop] at hj
    cases hj
    rw [hself]
    exact wants_of_bget ha hc

theorem acquiresleep (ha : s.Enabled (.acquiresleep p i)) : (s.next (.acquiresleep p i)).Refs := by
  obtain ⟨hio, hfree⟩ := ha
  have hp := h.process p
  have hclean : i ∉ s.dirty := fun hi => by simpa [hfree] using h.owned i hi
  set t := s.next (.acquiresleep p i)
  have hself : t.cache.buf i = { s.cache.buf i with lock := some p } := Bcache.set_self ..
  have hbuf : ∀ j, j ≠ i → t.cache.buf j = s.cache.buf j := fun j hj => Bcache.set_of_ne _ _ hj
  have hiop : t.io p = .filling i := update_self ..
  have hands : Hands t p := hp.touch rfl rfl rfl hbuf (by simp [hfree])
    fun hi => absurd hi hclean
  refine h.of_touch rfl rfl rfl (fun q hq => setIo_others _ _ q hq) hbuf
    (by rw [hself]; exact fun _ => ⟨rfl, rfl, id⟩) (fun q hq => by simp [hself, hfree, Ne.symm hq])
    ?_ (fun j hj => by simp [hio, hiop, Ne.symm hj]) (fun h0 => ?_)
    ⟨hands, fun j hj => ?_, fun j hj => ?_, fun c j hc hj => ?_, fun c j hc hj x hx => ?_⟩
    fun hi => absurd hi hclean
  · simp only [held, pinned, hself, hfree, hio, hiop, Io.refs_filling, Io.refs_locking, reduceCtorEq,
      if_true, if_false]
    rfl
  · rw [hself] at h0 ⊢
    exact h.dev i h0
  · rw [hiop] at hj
    cases hj
    exact ⟨by rw [hself], hclean⟩
  · by_cases hji : j = i
    · exact .inr (hji ▸ hiop)
    · rw [hbuf j hji] at hj ⊢
      exact .inl ((hp.valid j hj).resolve_right (by simp [hio]))
  · rw [hiop] at hj
    rcases hj with hj | hj <;> cases hj
    rw [hself]
    exact hp.fetch c i hc (.inl hio)
  · rw [hiop] at hj
    cases hj
    intro hxi
    have := (hp.regs c hc x hx).1
    rw [hxi, hfree] at this
    cases this

/-- `bread` returns a buffer of the block asked for, locked and valid. -/
theorem fill (ha : s.Enabled (.fill p i)) : (s.next (.fill p i)).Refs := by
  have hio : s.io p = .filling i := ha
  have hp := h.process p
  have hlock := (hp.filling i hio).1
  set t := s.next (.fill p i) with ht
  have hbuf : ∀ j, j ≠ i → t.cache.buf j = s.cache.buf j := by
    intro j hj
    simp only [ht, BufSys.next, setIo, setJob, Bcache.fill]
    split
    · rfl
    · exact Bcache.set_of_ne _ _ hj
  have hself : ∃ d, t.cache.buf i = { s.cache.buf i with valid := true, data := d } := by
    simp only [ht, BufSys.next, setIo, setJob, Bcache.fill]
    split
    · rename_i hv
      exact ⟨(s.cache.buf i).data, by rw [← hv]⟩
    · exact ⟨_, Bcache.set_self ..⟩
  obtain ⟨d, hself⟩ := hself
  have hlocks : ∀ j, (t.cache.buf j).lock = (s.cache.buf j).lock ∧
      (t.cache.buf j).blockno = (s.cache.buf j).blockno := by
    intro j
    by_cases hj : j = i
    · rw [hj, hself]
      exact ⟨rfl, rfl⟩
    · rw [hbuf j hj]
      exact ⟨rfl, rfl⟩
  have hvalid : ∀ j, (s.cache.buf j).lock = some p → (t.cache.buf j).valid := by
    intro j hj
    by_cases hji : j = i
    · rw [hji, hself]
    · rw [hbuf j hji]
      exact (hp.valid j hj).resolve_right fun hf => hji (by rw [hio] at hf; cases hf; rfl)
  have hiop : t.io p = .none := update_self ..
  have hjobp : t.job p = (s.job p).got i := update_self ..
  -- the process' own point in `commit` moves on with the buffer in hand
  have hgot : ∀ {c'}, t.job p = .commit c' → ∃ c, s.job p = .commit c ∧
      c'.holds s.log = c.holds s.log ++ [(i, (s.cache.buf i).blockno)] := by
    intro c' hc'
    rw [hjobp] at hc'
    cases hj : s.job p <;> rw [hj] at hc' <;> cases hc'
    exact ⟨_, rfl, CommitAt.holds_got (hp.fetch _ i hj (.inr hio))⟩
  have hands : Hands t p := by
    refine ⟨fun c hc x hx => ?_, fun c hc => ?_, fun j hj => ?_, fun j hj hl => ?_⟩
    · obtain ⟨c₀, hc₀, hholds⟩ := hgot hc
      have hx : x ∈ c.holds s.log := hx
      rw [hholds, mem_append, mem_singleton] at hx
      rw [(hlocks x.1).1, (hlocks x.1).2]
      rcases hx with hx | rfl
      · obtain ⟨h1, h2, -⟩ := hp.regs c₀ hc₀ x hx
        exact ⟨h1, h2, hvalid _ h1⟩
      · exact ⟨hlock, rfl, hvalid i hlock⟩
    · obtain ⟨c₀, hc₀, hholds⟩ := hgot hc
      change ((c.holds s.log).map Prod.fst).Nodup
      rw [hholds, map_append, nodup_append]
      refine ⟨hp.nodup c₀ hc₀, nodup_singleton _, ?_⟩
      rintro x hx y hy rfl
      obtain ⟨z, hz, rfl⟩ := mem_map.1 hx
      exact hp.apart c₀ i hc₀ hio z hz (by simpa using hy)
    · rw [hjobp] at hj
      rw [(hlocks j).1, (hlocks j).2]
      cases hjob : s.job p <;> rw [hjob] at hj <;> cases hj
      exact hp.logging j hjob
    · rw [(hlocks j).1] at hl
      rw [hjobp, Job.busy_got, (hlocks j).2]
      exact hp.dirty j hj hl
  refine h.of_touch rfl rfl rfl (fun q hq => ⟨update_of_ne hq .., update_of_ne hq ..⟩) hbuf
    (by rw [hself]; exact fun _ => ⟨rfl, rfl, fun _ => rfl⟩) (by rw [hself]; exact fun _ _ => Iff.rfl)
    ?_ (fun j _ => by rw [hiop, hio]; rfl) (by rw [hself]; exact h.dev i)
    (hands.at_rest (by simp [hiop]) (fun j hj => hvalid j ((hlocks j).1.symm.trans hj))
      (by simp [hiop])) (by rw [hself]; exact fun _ => id)
  simp only [held, pinned, hself, hiop, hio, Io.refs_none, Io.refs_filling]
  rfl

theorem releasesleep (ha : s.Enabled (.releasesleep p i))
    (hlock : (s.cache.buf i).lock = some p) : (s.next (.releasesleep p i)).Refs := by
  obtain ⟨hio, hwho⟩ := ha
  have hp := h.process p
  rw [BufSys.next, if_pos hlock]
  set t := ({ s with cache := s.cache.releasesleep i }.setIo p (.unref i)).setJob p (s.job p).dropped
  have hself : t.cache.buf i = { s.cache.buf i with lock := none } := Bcache.set_self ..
  have hbuf : ∀ j, j ≠ i → t.cache.buf j = s.cache.buf j := fun j hj => Bcache.set_of_ne _ _ hj
  have hlocked : ∀ {j q}, (t.cache.buf j).lock = some q → j ≠ i := by
    rintro j q hj rfl
    rw [hself] at hj
    cases hj
  have hiop : t.io p = .unref i := update_self ..
  have hjobp : t.job p = (s.job p).dropped := update_self ..
  -- the committer lets go of one of the buffers in its hands
  have hdrop : ∀ {c'}, t.job p = .commit c' → ∃ c b, s.job p = .commit c ∧
      (c.holds s.log).Perm ((i, b) :: c'.holds s.log) ∧
      i ∉ (c'.holds s.log).map Prod.fst ∧ ((c'.holds s.log).map Prod.fst).Nodup := by
    intro c' hc'
    rw [hjobp] at hc'
    rcases hwho with ⟨hcl, -⟩ | ⟨c, hc, hd⟩
    · rcases hcl with hcl | hcl <;> rw [hcl] at hc' <;> cases hc'
    rw [hc] at hc'
    cases hc'
    obtain ⟨b, hb⟩ := CommitAt.holds_dropped s.log hd
    refine ⟨c, b, hc, hb, ?_⟩
    rw [← nodup_cons, ← map_cons (f := Prod.fst) (a := (i, b))]
    exact (hb.map Prod.fst).nodup_iff.1 (hp.nodup c hc)
  have hands : Hands t p := by
    refine ⟨fun c hc x hx => ?_, fun c hc => ?_, fun j hj => ?_, fun j hj hl => ?_⟩
    · obtain ⟨c₀, b, hc₀, hperm, hi, -⟩ := hdrop hc
      rw [hbuf _ fun he => hi (he ▸ mem_map_of_mem hx)]
      exact hp.regs c₀ hc₀ x (hperm.mem_iff.2 (mem_cons_of_mem _ hx))
    · obtain ⟨c₀, b, -, -, -, hnodup⟩ := hdrop hc
      exact hnodup
    · rw [hjobp] at hj
      rcases hwho with ⟨hcl, -⟩ | ⟨c, hc, -⟩
      · rcases hcl with hcl | hcl <;> rw [hcl] at hj <;> cases hj
      · rw [hc] at hj
        cases hj
    · have hji := hlocked hl
      rw [hbuf j hji] at hl ⊢
      rw [hjobp, Job.busy_dropped]
      exact hp.dirty j hj hl
  refine h.of_touch rfl rfl rfl (fun q hq => ⟨update_of_ne hq .., update_of_ne hq ..⟩) hbuf
    (by rw [hself]; exact fun _ => ⟨rfl, rfl, id⟩) (fun q hq => by simp [hself, hlock, Ne.symm hq])
    ?_ (fun j hj => by simp [hio, hiop, Ne.symm hj]) (by rw [hself]; exact h.dev i)
    (hands.at_rest (by simp [hiop]) (fun j hj => ?_) (by simp [hiop])) fun hi hl => ?_
  · simp only [held, pinned, hself, hlock, hio, hiop, Io.refs_none, Io.refs_unref, reduceCtorEq,
      if_true, if_false]
    rfl
  · have hji := hlocked hj
    rw [hbuf j hji] at hj ⊢
    exact (hp.valid j hj).resolve_right (by simp [hio])
  · -- a buffer that is dropped has not been changed
    exfalso
    rcases hwho with ⟨-, -, hd⟩ | ⟨c, hc, -⟩
    · exact hd hi
    · have := (hp.dirty i hi hl).1
      rw [hc] at this
      exact this

/-! ### The other steps -/

/-- A step that moves nobody inside `bread` or `brelse`, and changes no
buffer but for its count and its data. -/
theorem of_frame (hsame : ∀ j, (s.cache.buf j).Same (s'.cache.buf j))
    (hlog : s.SameLog s')
    (hio : s'.io = s.io)
    (hcount : ∀ i, (s'.cache.buf i).refcnt + s.pinned i = (s.cache.buf i).refcnt + s'.pinned i)
    (hdev : ∀ i, (s'.cache.buf i).refcnt ≠ 0 → (s.cache.buf i).refcnt ≠ 0)
    (hpin : ∀ b ∈ s'.pins, ∃ i, (s.cache.buf i).dev = s.log.dev ∧ (s.cache.buf i).blockno = b ∧
      (s.cache.buf i).valid)
    (hother : ∀ q, q ≠ p → s'.job q = s.job q ∧ ∀ c, s.job q = .commit c →
      c.holds s'.log = c.holds s.log ∧ c.wants s'.log = c.wants s.log)
    (hcommit : ∀ c', s'.job p = .commit c' →
      (∃ c, s.job p = .commit c ∧ c'.holds s'.log = c.holds s.log ∧
        (s.io p = .none ∨ c'.wants s'.log = c.wants s.log)) ∨
      c'.holds s'.log = [] ∧ s.io p = .none)
    (hlog_p : ∀ i, s'.job p = .logging i → (s.cache.buf i).lock = some p ∧
      ¬ s.log.InArea (s.cache.buf i).blockno)
    (hdirty : ∀ i ∈ s'.dirty, ∃ q, (s.cache.buf i).lock = some q ∧ (s'.job q).Busy ∧
      s.io q ≠ .filling i ∧ ¬ s.log.InArea (s.cache.buf i).blockno)
    (hhome : ∀ b ∈ s'.log.lh.blocks, ¬ s.log.InArea b) : s'.Refs := by
  have harea : ∀ b, s'.log.InArea b ↔ s.log.InArea b := fun b => by
    simp only [Log.InArea, hlog.2.1, hlog.2.2]
  have hjob : ∀ q c', s'.job q = .commit c' →
      (∃ c, s.job q = .commit c ∧ c'.holds s'.log = c.holds s.log ∧
        (s.io q = .none ∨ c'.wants s'.log = c.wants s.log)) ∨
      c'.holds s'.log = [] ∧ s.io q = .none := by
    intro q c' hq
    by_cases hqp : q = p
    · subst hqp
      exact hcommit c' hq
    · obtain ⟨hj, hlog⟩ := hother q hqp
      rw [hj] at hq
      exact .inl ⟨c', hq, (hlog c' hq).1, .inr (hlog c' hq).2⟩
  refine ⟨fun i => ?_, fun i hi => ?_, fun b hb => ?_, fun q => ⟨⟨fun c hq y hy => ?_,
    fun c hq => ?_, fun i hq => ?_, fun i hi hl => ?_⟩, fun i hq => ?_, fun i hl => ?_,
    fun c i hq hi => ?_, fun c i hq hi => ?_⟩, fun i hi => ?_, fun b hb => ?_⟩
  · have h1 := h.count i
    have h2 := hcount i
    have h3 : s'.held i = s.held i := by simp only [held, (hsame i).lock]
    have h4 : s'.waiting i = s.waiting i := by simp only [waiting, hio]
    omega
  · rw [(hsame i).dev, hlog.1]
    exact h.dev i (hdev i hi)
  · obtain ⟨i, h1, h2, h3⟩ := hpin b hb
    exact ⟨i, by rw [(hsame i).dev, hlog.1, h1], by rw [(hsame i).blockno, h2],
      by rw [(hsame i).valid, h3]⟩
  · rcases hjob q c hq with ⟨c₀, hc₀, hholds, -⟩ | ⟨hnil, -⟩
    · rw [hholds] at hy
      rw [(hsame y.1).lock, (hsame y.1).blockno, (hsame y.1).valid]
      exact (h.process q).regs c₀ hc₀ y hy
    · rw [hnil] at hy
      exact absurd hy not_mem_nil
  · rcases hjob q c hq with ⟨c₀, hc₀, hholds, -⟩ | ⟨hnil, -⟩
    · rw [hholds]
      exact (h.process q).nodup c₀ hc₀
    · rw [hnil]
      exact nodup_nil
  · rw [(hsame i).lock, (hsame i).blockno, harea]
    by_cases hqp : q = p
    · subst hqp
      exact hlog_p i hq
    · rw [(hother q hqp).1] at hq
      exact (h.process q).logging i hq
  · obtain ⟨q', h1, h2, -, h4⟩ := hdirty i hi
    rw [(hsame i).lock, h1] at hl
    cases hl
    exact ⟨h2, by rwa [(hsame i).blockno, harea]⟩
  · rw [hio] at hq
    have hl := ((h.process q).filling i hq).1
    refine ⟨(hsame i).lock.trans hl, fun hi => ?_⟩
    obtain ⟨q', h1, -, h3, -⟩ := hdirty i hi
    rw [hl] at h1
    cases h1
    exact h3 hq
  · rw [(hsame i).lock] at hl
    rw [(hsame i).valid, hio]
    exact (h.process q).valid i hl
  · rw [hio] at hi
    rw [(hsame i).blockno]
    rcases hjob q c hq with ⟨c₀, hc₀, -, hnone | hwants⟩ | ⟨-, hnone⟩
    · simp [hnone] at hi
    · rw [hwants]
      exact (h.process q).fetch c₀ i hc₀ hi
    · simp [hnone] at hi
  · rw [hio] at hi
    rcases hjob q c hq with ⟨c₀, hc₀, hholds, -⟩ | ⟨hnil, -⟩
    · rw [hholds]
      exact (h.process q).apart c₀ i hc₀ hi
    · rw [hnil]
      simp
  · obtain ⟨q, h1, -⟩ := hdirty i hi
    exact ⟨q, (hsame i).lock.trans h1⟩
  · rw [harea]
    exact hhome b hb

end

private theorem same_refl (j : Fin NBUF) : (s.cache.buf j).Same (s.cache.buf j) :=
  ⟨rfl, rfl, rfl, rfl⟩

theorem panic (h : s.Refs) (p : Pid) (e : Panic) : { s with panic := some e }.Refs :=
  h.of_frame (p := p) same_refl ⟨rfl, rfl, rfl⟩ rfl (fun _ => rfl) (fun _ => id) h.pin
    (fun _ _ => ⟨rfl, fun _ _ => ⟨rfl, rfl⟩⟩) (fun c hc => .inl ⟨c, hc, rfl, .inr rfl⟩)
    (h.process p).logging h.dirty h.home

/-- A step of a process outside `commit` that leaves the buffers and the
header alone, and after which all the changed buffers are still in the
hands of processes inside an operation. -/
theorem of_job (h : s.Refs) {jb : Job} (hcache : s'.cache = s.cache)
    (hlog : s.SameLog s')
    (hlh : s'.log.lh = s.log.lh) (hio : s'.io = s.io) (hpins : s'.pins = s.pins)
    (hdirty : s'.dirty = s.dirty) (hjob : s'.job = update s.job p jb)
    (hfree : s.io p = .none) (hnew : ∀ c, jb = .commit c → c.holds s'.log = [])
    (hlogging : ∀ i, jb = .logging i → (s.cache.buf i).lock = some p ∧
      ¬ s.log.InArea (s.cache.buf i).blockno)
    (hbusy : jb.Busy ∨ ∀ i ∈ s.dirty, (s.cache.buf i).lock ≠ some p) : s'.Refs := by
  have hjobq : ∀ {q}, q ≠ p → s'.job q = s.job q := fun hq => by
    rw [hjob, update_of_ne hq]
  have hjobp : s'.job p = jb := by rw [hjob, update_self]
  refine h.of_frame (p := p) (fun j => by rw [hcache]; exact same_refl j) hlog hio (fun i => ?_)
    (fun i hi => by rwa [hcache] at hi) (fun b hb => h.pin b (by rwa [hpins] at hb))
    (fun q hqp => ⟨hjobq hqp, fun c _ => ⟨CommitAt.holds_congr hlog.2.1 (by rw [hlh]),
      CommitAt.wants_congr hlh hlog.2.1⟩⟩) (fun c hc => .inr ⟨hnew c (hjobp.symm.trans hc), hfree⟩)
    (fun i hi => hlogging i (hjobp.symm.trans hi)) (fun i hi => ?_) (by rw [hlh]; exact h.home)
  · simp only [pinned, hcache, hlog.1, hpins]
  · rw [hdirty] at hi
    obtain ⟨q, h1, h2, h3, h4⟩ := h.dirty i hi
    refine ⟨q, h1, ?_, h3, h4⟩
    by_cases hqp : q = p
    · subst hqp
      rw [hjobp]
      exact hbusy.resolve_right fun hno => hno i hi h1
    · rw [hjobq hqp]
      exact h2

theorem modify (h : s.Refs) {d : Block} (ha : s.Enabled (.modify p i d)) :
    (s.next (.modify p i d)).Refs := by
  obtain ⟨hio, hp, hlock, hout⟩ := ha
  have hsame : ∀ j, (s.cache.buf j).Same ((s.cache.setData i d).buf j) :=
    fun j => Bcache.same_setData d j
  refine h.of_frame (p := p) hsame ⟨rfl, rfl, rfl⟩ rfl (fun j => ?_) (fun j hj => ?_) h.pin
    (fun _ _ => ⟨rfl, fun _ _ => ⟨rfl, rfl⟩⟩) (fun c hc => .inl ⟨c, hc, rfl, .inr rfl⟩)
    (h.process p).logging (fun j hj => ?_) h.home
  · have hpin : (s.next (.modify p i d)).pinned j = s.pinned j := by
      simp only [pinned, BufSys.next, (hsame j).dev, (hsame j).blockno]
    simp only [BufSys.next, Bcache.refcnt_setData] at hpin ⊢
    omega
  · simpa [BufSys.next, Bcache.refcnt_setData] using hj
  · rcases Finset.mem_insert.1 hj with rfl | hj
    · exact ⟨p, hlock, by rw [show (s.next (.modify p j d)).job p = .inOp from hp]; trivial,
        by simp [hio], hout⟩
    · exact h.dirty j hj

/-- A block logged for the first time gets its pin. -/
theorem logWrite (h : s.Refs) (hc : s.Ctl) (hh : s.Hdr) (hu : s.Unique)
    (ha : s.Enabled (.logWrite p i)) : (s.next (.logWrite p i)).Refs := by
  obtain ⟨hio, hp⟩ := ha
  obtain ⟨hlock, hout⟩ := (h.process p).logging i hp
  have hbusy : (s.job p).Busy := by simp [hp]
  have hnone := Ctl.ne_commit hc hbusy
  have hpins : (s.cache.buf i).blockno ∈ s.pins ↔ (s.cache.buf i).blockno ∈ s.log.lh.blocks :=
    (hh.open_ (fun q hq => hc.not_busy hq hbusy) _).2
  have hdev := h.dev_of_lock hlock
  have hvalid : (s.cache.buf i).valid := ((h.process p).valid i hlock).resolve_right (by simp [hio])
  simp only [BufSys.next]
  split
  · rename_i pin log hlog
    obtain ⟨-, -, hmem, hpin⟩ := Log.logWrite_blocks hh.nodup hh.le hlog
    have hframe := Log.logWrite_frame hlog
    have hsame : ∀ j, (s.cache.buf j).Same ((if pin then s.cache.bpin i else s.cache).buf j) := by
      intro j
      cases pin
      · exact same_refl j
      · exact Bcache.same_bpin j
    refine h.of_frame (p := p) hsame (by simp only [setJob]; rw [hframe]; exact ⟨rfl, rfl, rfl⟩) rfl
      (fun j => ?_) (fun j hj => ?_) (fun b hb => ?_)
      (fun q hqp => ⟨update_of_ne hqp .., fun c hq => absurd hq (hnone q c)⟩) (by simp [setJob])
      (by simp [setJob]) (fun j hj => ?_) (fun b hb => ?_)
    · -- the count goes up with the pin
      have hlogdev : log.dev = s.log.dev := by rw [hframe]
      simp only [pinned, setJob, (hsame j).dev, (hsame j).blockno, hlogdev, Finset.mem_insert]
      by_cases hj : j = i
      · subst hj
        cases pin
        · have : (s.cache.buf j).blockno ∈ s.pins := by
            rw [hpins]
            by_contra hno
            exact absurd (hpin.2 hno) (by simp)
          simp [hdev, this]
        · have : (s.cache.buf j).blockno ∉ s.pins := by
            rw [hpins]
            exact hpin.1 rfl
          simp [hdev, this, Bcache.bpin, h.uintInc_refcnt]
      · have hcount : ((if pin then s.cache.bpin i else s.cache).buf j).refcnt =
            (s.cache.buf j).refcnt := by
          cases pin
          · rfl
          · simp [Bcache.bpin, Bcache.set_of_ne, hj]
        rw [hcount]
        by_cases hd : (s.cache.buf j).dev = s.log.dev
        · simp [hd, hu.blockno_ne hh.dev hdev hd hj]
        · simp [hd]
    · by_cases hji : j = i
      · rw [hji]
        exact h.refcnt_of_lock hlock
      · cases pin
        · exact hj
        · simpa [setJob, Bcache.bpin, Bcache.set_of_ne, hji] using hj
    · rcases Finset.mem_insert.1 hb with rfl | hb
      · exact ⟨i, hdev, rfl, hvalid⟩
      · exact h.pin b hb
    · obtain ⟨q, h1, h2, h3, h4⟩ := h.dirty j (Finset.mem_of_mem_erase hj)
      refine ⟨q, h1, ?_, h3, h4⟩
      by_cases hqp : q = p
      · subst hqp; simp [setJob]
      · simpa [setJob, hqp] using h2
    · rcases (hmem b).1 hb with rfl | hb
      · exact hout
      · exact h.home b hb
  · exact h.panic p _

theorem pinned_congr (h : ((s'.cache.buf i).dev = s'.log.dev ∧ (s'.cache.buf i).blockno ∈ s'.pins) ↔
    ((s.cache.buf i).dev = s.log.dev ∧ (s.cache.buf i).blockno ∈ s.pins)) :
    s'.pinned i = s.pinned i := by
  simp only [pinned, h]

/-- `commit` leaves the counts alone but for the pin it drops, which was
there to drop. -/
theorem commit_count (h : s.Refs) (hh : s.Hdr) (hu : s.Unique) {c : CommitAt}
    (hp : s.job p = .commit c) (i : Fin NBUF) :
    ((s.commitEffect p c).cache.buf i).refcnt + s.pinned i =
      (s.cache.buf i).refcnt + (s.commitEffect p c).pinned i := by
  have hlogdev : (s.commitEffect p c).log.dev = s.log.dev := (log_next (s := s) (.commit p c)).1
  have hsame := commitEffect_same (s := s) (p := p) c i
  have hkeep : (s.commitEffect p c).pins = s.pins →
      (s.commitEffect p c).pinned i = s.pinned i := fun hpins =>
    pinned_congr (by rw [hsame.dev, hsame.blockno, hlogdev, hpins])
  cases c with
  | instUnpin tail lbuf dbuf =>
    have htail : tail < s.log.lh.n := (hh.commit p _ hp).tail
    obtain ⟨hlock, hno, -⟩ := h.reg hp dbuf (s.log.lh.block tail) (by simp [CommitAt.holds])
    have hdev := h.dev_of_lock hlock
    have hin : s.log.lh.block tail ∈ s.pins :=
      ((hh.commit p _ hp).pins _).2 ⟨tail, htail, rfl, by simp [CommitAt.Unpinned]⟩
    by_cases hi : i = dbuf
    · subst hi
      have hpos := h.refcnt_of_lock hlock
      have h1 : s.pinned i = 1 := if_pos ⟨hdev, by rw [hno]; exact hin⟩
      have h2 : (s.commitEffect p (.instUnpin tail lbuf i)).pinned i = 0 := by
        refine if_neg fun hb => ?_
        rw [hsame.blockno, hno] at hb
        exact Finset.notMem_erase _ _ hb.2
      have h3 : ((s.commitEffect p (.instUnpin tail lbuf i)).cache.buf i).refcnt =
          (s.cache.buf i).refcnt - 1 := by
        simp [commitEffect, Bcache.bunpin, h.uintDec_refcnt i hpos]
      omega
    · -- another buffer is of another block
      have hblock : (s.cache.buf i).dev = s.log.dev →
          (s.cache.buf i).blockno ≠ s.log.lh.block tail := fun hd =>
        hno ▸ hu.blockno_ne hh.dev hdev hd hi
      have h1 : (s.commitEffect p (.instUnpin tail lbuf dbuf)).pinned i = s.pinned i := by
        refine pinned_congr ?_
        rw [hsame.dev, hsame.blockno, hlogdev]
        simp only [commitEffect, Finset.mem_erase]
        exact ⟨fun hb => ⟨hb.1, hb.2.2⟩, fun hb => ⟨hb.1, hblock hb.1, hb.2⟩⟩
      have h2 : ((s.commitEffect p (.instUnpin tail lbuf dbuf)).cache.buf i).refcnt =
          (s.cache.buf i).refcnt := by
        simp [commitEffect, Bcache.bunpin, Bcache.set_of_ne, hi]
      omega
  | logCopy | headStore | instCopy =>
    rw [hkeep rfl]
    simp only [commitEffect, Bcache.refcnt_setData]
  | logPut | headPut | instPut => rw [hkeep (by simp [commitEffect])]; simp [commitEffect]
  | _ => rfl

theorem commit (h : s.Refs) (hc : s.Ctl) (hh : s.Hdr) (hu : s.Unique) {c : CommitAt}
    (ha : s.Enabled (.commit p c)) : (s.next (.commit p c)).Refs := by
  obtain ⟨hio, hp, -⟩ := ha
  have hcp : (s.job p).Committing := by simp [hp]
  have hlog := log_next (s := s) (.commit p c)
  have hjobp : (s.next (.commit p c)).job p = Job.after c := by simp [BufSys.next, setJob]
  have hcount := h.commit_count hh hu hp
  have hpins : ∀ b ∈ (s.next (.commit p c)).pins, b ∈ s.pins := by
    intro b hb
    cases c <;> simp [BufSys.next, setJob, commitEffect] at hb <;>
      first | exact hb | exact hb.2
  have hblocks : ∀ b ∈ (s.next (.commit p c)).log.lh.blocks, b ∈ s.log.lh.blocks := by
    intro b hb
    cases c <;> simp [BufSys.next, setJob, commitEffect, Log.clear, Log.endCommit,
      LogHeader.blocks] at hb ⊢ <;> exact hb
  have hblock : (s.next (.commit p c)).log.lh.block = s.log.lh.block := by
    cases c <;> simp [BufSys.next, setJob, commitEffect, Log.clear, Log.endCommit]
  refine h.of_frame (p := p) (fun j => commitEffect_same c j) hlog (by simp [BufSys.next, setJob])
    hcount (fun i hi => ?_) (fun b hb => h.pin b (hpins b hb))
    (fun q hqp => ⟨by simp [BufSys.next, setJob, hqp], fun c' hq =>
      absurd (Ctl.eq_of_commit hc hq hp) hqp⟩) (fun c' hc' => ?_) (fun i hi => ?_)
    (fun i hi => ?_) fun b hb => h.home b (hblocks b hb)
  · intro h0
    have h1 := hcount i
    have h2 := h.count i
    have h3 : (s.commitEffect p c).pinned i ≤ s.pinned i := by
      have hsame := commitEffect_same (s := s) (p := p) c i
      have hlogdev : (s.commitEffect p c).log.dev = s.log.dev := hlog.1
      unfold pinned
      rw [hsame.dev, hsame.blockno, hlogdev]
      split
      · rename_i hin
        rw [if_pos ⟨hin.1, hpins _ hin.2⟩]
      · omega
    have h4 : ((s.commitEffect p c).cache.buf i).refcnt ≠ 0 := hi
    omega
  · rw [hjobp] at hc'
    exact .inl ⟨c, hp, (CommitAt.holds_after hc').trans (CommitAt.holds_congr hlog.2.1 hblock),
      .inl hio⟩
  · rw [hjobp] at hi
    cases c <;> cases hi
  · have hi : i ∈ s.dirty := by simpa [BufSys.next, setJob] using hi
    obtain ⟨q, h1, h2, h3, h4⟩ := h.dirty i hi
    exact absurd h2 (hc.not_busy hcp)

/-- **The references are kept by every step.** -/
theorem next (h : s.Refs) (hc : s.Ctl) (hh : s.Hdr) (hl : s.cache.Linked) (hu : s.Unique)
    {a : BufAct} (ha : s.Enabled a) : (s.next a).Refs := by
  cases a with
  | bget p b =>
    rcases s.next_bget p b with ⟨i, hdev, hb, he⟩ | ⟨i, hnone, h0, he⟩ | ⟨e, he⟩ <;> rw [he]
    · exact h.hit ha hdev hb
    · exact h.recycle hl ha hnone h0
    · exact h.panic p e
  | acquiresleep p i => exact h.acquiresleep ha
  | fill p i => exact h.fill ha
  | releasesleep p i =>
    by_cases hlock : (s.cache.buf i).lock = some p
    · exact h.releasesleep ha hlock
    · simp only [BufSys.next, hlock, if_false]
      exact h.panic p _
  | unref p i => exact h.unref ha
  | beginOp p =>
    obtain ⟨hio, -, hsome⟩ := ha
    obtain ⟨log, hlog⟩ := Option.isSome_iff_exists.1 hsome
    obtain ⟨-, -, rfl⟩ := Log.beginOp_eq_some.1 hlog
    simp only [BufSys.next, hlog]
    exact h.of_job rfl ⟨rfl, rfl, rfl⟩ rfl rfl rfl rfl rfl hio (by simp) (by simp) (.inl Job.busy_inOp)
  | modify p i d => exact h.modify ha
  | logCheck p i =>
    obtain ⟨hio, -, hlock, hout⟩ := ha
    simp only [BufSys.next]
    split
    · refine h.of_job rfl ⟨rfl, rfl, rfl⟩ rfl rfl rfl rfl rfl hio (by simp) (fun j hj => ?_)
        (.inl Job.busy_logging)
      cases hj
      exact ⟨hlock, hout⟩
    · exact h.panic p _
  | logWrite p i => exact h.logWrite hc hh hu ha
  | endOp p =>
    obtain ⟨hio, hp, hclean⟩ := ha
    have hbusy : (s.job p).Busy := by simp [hp]
    simp only [BufSys.next, Log.endOp_of_not_committing (Log.Control.not_committing hc hbusy)]
    by_cases h1 : s.log.outstanding = 1
    · simp only [h1, decide_true]
      refine h.of_job rfl ⟨rfl, rfl, rfl⟩ rfl rfl rfl rfl rfl hio (fun c hcm => ?_) (by simp)
        (.inr hclean)
      cases hcm
      split <;> rfl
    · simp only [h1, decide_false]
      exact h.of_job rfl ⟨rfl, rfl, rfl⟩ rfl rfl rfl rfl rfl hio (by simp) (by simp) (.inr hclean)
  | commit p c => exact h.commit hc hh hu ha

theorem reachable (h : system.Reachable s) : s.Refs :=
  h.invariant (fun _ => Refs.start) fun s a s' hr hi hs => by
    obtain ⟨⟨-, ha⟩, rfl⟩ := hs
    exact hi.next (Ctl.reachable hr) (Hdr.reachable hr) (linked_of_reachable hr)
      (unique_of_reachable hr) ha

end Refs

end BufSys

end Xv6
