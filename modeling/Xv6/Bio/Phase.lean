import Xv6.Bio.System
/-!
# The log header while `commit` runs

Which blocks are pending and which are pinned is read off the header and
the point `commit` has reached. Outside a commit both are the blocks the
header names; `install_trans` takes them off one by one.
-/

namespace Xv6

open Function

namespace CommitAt

/-- Log entry `k` has been written home. -/
def Written (k : ℕ) : CommitAt → Prop
  | instLog tail | instDst tail _ | instCopy tail _ _ | instPut tail _ _ => k < tail
  | instUnpin tail _ _ | instDropLog tail _ _ | instDropDst tail _ => k ≤ tail
  | clear | finish => True
  | head erase | headStore erase _ | headPut erase _ | headDrop erase _ => erase = true
  | _ => False

/-- The buffer of log entry `k` has been unpinned. -/
def Unpinned (k : ℕ) : CommitAt → Prop
  | instLog tail | instDst tail _ | instCopy tail _ _ | instPut tail _ _ | instUnpin tail _ _ =>
      k < tail
  | instDropLog tail _ _ | instDropDst tail _ => k ≤ tail
  | clear | finish => True
  | head erase | headStore erase _ | headPut erase _ | headDrop erase _ => erase = true
  | _ => False

/-- The loops run over the entries of the header, of which none is left
once it is erased. -/
def TailOk (n : ℕ) : CommitAt → Prop
  | logTo tail | instLog tail => tail ≤ n
  | logFrom tail _ | logCopy tail _ _ | logPut tail _ _ | logDropFrom tail _ _ | logDropTo tail _
  | instDst tail _ | instCopy tail _ _ | instPut tail _ _ | instUnpin tail _ _
  | instDropLog tail _ _ | instDropDst tail _ => tail < n
  | head erase | headStore erase _ | headPut erase _ | headDrop erase _ => erase = true → n = 0
  | clear => True
  | finish => n = 0

variable {log : Log} {c : CommitAt} {b : ℕ} {i : Fin NBUF} {k : ℕ}

theorem wants_congr {log' : Log} (hlh : log'.lh = log.lh) (hs : log'.start = log.start) :
    c.wants log' = c.wants log := by
  cases c <;> simp only [wants, hlh, hs]

theorem written_got : (c.got i).Written k ↔ c.Written k := by cases c <;> exact Iff.rfl

theorem unpinned_got : (c.got i).Unpinned k ↔ c.Unpinned k := by cases c <;> exact Iff.rfl

theorem written_dropped : c.dropped.Written k ↔ c.Written k := by
  cases c with
  | headDrop erase buf => cases erase <;> simp [dropped, Written]
  | instDropDst tail buf => simp only [dropped, Written, Nat.lt_succ_iff]
  | _ => exact Iff.rfl

theorem unpinned_dropped : c.dropped.Unpinned k ↔ c.Unpinned k := by
  cases c with
  | headDrop erase buf => cases erase <;> simp [dropped, Unpinned]
  | instDropDst tail buf => simp only [dropped, Unpinned, Nat.lt_succ_iff]
  | _ => exact Iff.rfl

theorem tailOk_got (hw : c.wants log = some b) (h : c.TailOk log.lh.n) :
    (c.got i).TailOk log.lh.n := by
  cases c with
  | logTo | instLog =>
    simp only [wants] at hw
    split at hw
    · assumption
    · cases hw
  | _ => exact h

theorem tailOk_dropped (h : c.TailOk log.lh.n) : c.dropped.TailOk log.lh.n := by
  cases c with
  | headDrop erase buf =>
    cases erase
    · exact Nat.zero_le _
    · exact h rfl
  | _ => exact h

end CommitAt

namespace BufSys

variable {s : BufSys} {p q : Pid} {i : Fin NBUF}

/-! ## Control -/

/-- Who is inside an operation and who commits. -/
abbrev Ctl (s : BufSys) : Prop :=
  s.log.Control Job.Busy Job.Committing s.job

@[simp] theorem bwrite_log : (s.bwrite p i).log = s.log := by unfold bwrite; split <;> rfl
@[simp] theorem bwrite_cache : (s.bwrite p i).cache = s.cache := by unfold bwrite; split <;> rfl
@[simp] theorem bwrite_io : (s.bwrite p i).io = s.io := by unfold bwrite; split <;> rfl
@[simp] theorem bwrite_job : (s.bwrite p i).job = s.job := by unfold bwrite; split <;> rfl
@[simp] theorem bwrite_dirty : (s.bwrite p i).dirty = s.dirty := by unfold bwrite; split <;> rfl
@[simp] theorem bwrite_stored : (s.bwrite p i).stored = s.stored := by unfold bwrite; split <;> rfl
@[simp] theorem bwrite_pending : (s.bwrite p i).pending = s.pending := by unfold bwrite; split <;> rfl
@[simp] theorem bwrite_pins : (s.bwrite p i).pins = s.pins := by unfold bwrite; split <;> rfl

@[simp] theorem commitEffect_job (c : CommitAt) : (s.commitEffect p c).job = s.job := by
  cases c <;> simp [commitEffect]

@[simp] theorem commitEffect_io (c : CommitAt) : (s.commitEffect p c).io = s.io := by
  cases c <;> simp [commitEffect]

@[simp] theorem commitEffect_dirty (c : CommitAt) : (s.commitEffect p c).dirty = s.dirty := by
  cases c <;> simp [commitEffect]

@[simp] theorem commitEffect_stored (c : CommitAt) : (s.commitEffect p c).stored = s.stored := by
  cases c <;> simp [commitEffect]

/-- Nobody commits while somebody is inside an operation. -/
theorem Ctl.ne_commit (hc : s.Ctl) (hp : (s.job p).Busy) (q : Pid) (c : CommitAt) :
    s.job q ≠ .commit c :=
  fun hq => hc.not_busy (p := q) (by simp [hq]) hp

/-- There is one committer. -/
theorem Ctl.eq_of_commit (hc : s.Ctl) {c d : CommitAt} (hq : s.job q = .commit d)
    (hp : s.job p = .commit c) : q = p :=
  hc.unique q p (by simp [hq]) (by simp [hp])

theorem Ctl.start (h : s.Start) : s.Ctl :=
  Log.Control.start h.outstanding h.committing (by simp [h.job]) (by simp [h.job])

/-- **Control is kept by every step.** -/
theorem Ctl.next (h : s.Ctl) {a : BufAct} (ha : s.Enabled a) : (s.next a).Ctl := by
  cases a with
  | bget p b =>
    simp only [BufSys.next]
    split <;> exact h
  | acquiresleep p i => exact h
  | fill p i => exact h.move rfl rfl Job.busy_got Job.committing_got
  | releasesleep p i =>
    simp only [BufSys.next]
    split
    · exact h.move rfl rfl Job.busy_dropped Job.committing_dropped
    · exact h
  | unref p i => exact h
  | beginOp p =>
    obtain ⟨-, hp, hsome⟩ := ha
    obtain ⟨log, hlog⟩ := Option.isSome_iff_exists.1 hsome
    simp only [BufSys.next, hlog]
    exact Log.Control.beginOp h (by simp [hp]) hlog Job.busy_inOp Job.committing_inOp
  | modify p i d => exact h
  | logCheck p i =>
    obtain ⟨-, hp, -⟩ := ha
    simp only [BufSys.next]
    split
    · exact h.move rfl rfl (by simp [hp]) (by simp [hp])
    · exact h
  | logWrite p i =>
    obtain ⟨-, hp⟩ := ha
    simp only [BufSys.next]
    split
    · rename_i pin log hlog
      have hsame := Log.logWrite_frame hlog
      exact h.move (by rw [hsame]; rfl) (by rw [hsame]; rfl) (by simp [hp]) (by simp [hp])
    · exact h
  | endOp p =>
    have hp : (s.job p).Busy := by simp [ha.2.1]
    simp only [BufSys.next, Log.endOp_of_not_committing (Log.Control.not_committing h hp)]
    by_cases h1 : s.log.outstanding = 1
    · simp only [h1, decide_true]
      exact Log.Control.endOp h hp (by simp [h1, setJob]) (by simp [h1, setJob]) Job.busy_commit
        fun _ => h1
    · simp only [h1, decide_false]
      exact Log.Control.endOp h hp rfl (by simp [h1, setJob]) Job.busy_idle fun hc =>
        absurd hc Job.committing_idle
  | commit p c =>
    obtain ⟨-, hp, -⟩ := ha
    have hbusy : (Job.after c).Busy ↔ (s.job p).Busy := by simp [hp]
    simp only [BufSys.next, setJob, Ctl, commitEffect_job]
    by_cases hfin : c = .finish
    · subst hfin
      exact Log.Control.finish h (by simp [hp]) rfl rfl hbusy
        Job.committing_idle
    · have hcom : (Job.after c).Committing := by cases c <;> trivial
      have hlog : (s.commitEffect p c).log.outstanding = s.log.outstanding ∧
          (s.commitEffect p c).log.committing = s.log.committing := by
        cases c <;> simp [commitEffect, Log.clear] at hfin ⊢
      exact h.move hlog.1 hlog.2 hbusy (by simp [hp, hcom])

theorem Ctl.reachable (h : system.Reachable s) : s.Ctl :=
  h.invariant (fun _ => Ctl.start) fun s a s' _ hi hs => by
    obtain ⟨⟨-, ha⟩, rfl⟩ := hs
    exact hi.next ha

/-! ## The header -/

/-- The device, the place and the size of the log are the same. -/
abbrev SameLog (s s' : BufSys) : Prop :=
  s'.log.dev = s.log.dev ∧ s'.log.start = s.log.start ∧ s'.log.size = s.log.size

theorem log_next (a : BufAct) : s.SameLog (s.next a) := by
  cases a with
  | bget | releasesleep | logCheck => simp only [next]; split <;> exact ⟨rfl, rfl, rfl⟩
  | beginOp p =>
    simp only [next]
    split
    · rename_i log hlog
      rw [(Log.beginOp_eq_some.1 hlog).2.2]
      exact ⟨rfl, rfl, rfl⟩
    · exact ⟨rfl, rfl, rfl⟩
  | logWrite p i =>
    simp only [next]
    split
    · rename_i pin log hlog
      rw [Log.logWrite_frame hlog]
      exact ⟨rfl, rfl, rfl⟩
    · exact ⟨rfl, rfl, rfl⟩
  | endOp p =>
    simp only [next, Log.endOp]
    split_ifs <;> exact ⟨rfl, rfl, rfl⟩
  | commit p c =>
    simp only [next]
    cases c <;> simp [SameLog, commitEffect, setJob, Log.clear, Log.endCommit]
  | _ => exact ⟨rfl, rfl, rfl⟩

/-- What the point that a committer has reached says of the header, inside
`bread` or `brelse` or not. -/
structure Reached (s : BufSys) (io : Io) (c : CommitAt) : Prop where
  pending : ∀ b, b ∈ s.pending ↔ ∃ k, k < s.log.lh.n ∧ s.log.lh.block k = b ∧ ¬ c.Written k
  pins : ∀ b, b ∈ s.pins ↔ ∃ k, k < s.log.lh.n ∧ s.log.lh.block k = b ∧ ¬ c.Unpinned k
  tail : c.TailOk s.log.lh.n
  /-- A committer inside `bread` is at a call of it. -/
  calling : ∀ i, io = .locking i ∨ io = .filling i → ∃ b, c.wants s.log = some b

/-- **The header and the commit.** -/
structure Hdr (s : BufSys) : Prop where
  dev : s.log.dev ≠ 0
  size : LOGSIZE ≤ s.log.size
  nodup : s.log.lh.blocks.Nodup
  le : s.log.lh.n ≤ LOGSIZE
  open_ : (∀ p, ¬ (s.job p).Committing) → ∀ b, (b ∈ s.pending ↔ b ∈ s.log.lh.blocks) ∧
    (b ∈ s.pins ↔ b ∈ s.log.lh.blocks)
  commit : ∀ p c, s.job p = .commit c → s.Reached (s.io p) c

namespace Hdr

theorem start (h : s.Start) : s.Hdr where
  dev := h.dev
  size := h.size
  nodup := by simp [LogHeader.blocks, h.n]
  le := by rw [h.n]; exact Nat.zero_le _
  open_ _ b := by simp [LogHeader.blocks, h.n, h.pending, h.pins]
  commit p c hp := by simp [h.job] at hp

section

variable (h : s.Hdr)
include h

/-- Distinct entries are of distinct blocks. -/
theorem block_inj {j k : ℕ} (hj : j < s.log.lh.n) (hk : k < s.log.lh.n)
    (he : s.log.lh.block j = s.log.lh.block k) : j = k := by
  have := List.nodup_map_iff_inj_on List.nodup_range |>.1 h.nodup
  exact this j (List.mem_range.2 hj) k (List.mem_range.2 hk) he

/-- Taking the block of one entry off those from it on leaves those after
it. -/
theorem erase_entry {tail b : ℕ} (htail : tail < s.log.lh.n) :
    (b ≠ s.log.lh.block tail ∧ ∃ k, k < s.log.lh.n ∧ s.log.lh.block k = b ∧ ¬ k < tail) ↔
      ∃ k, k < s.log.lh.n ∧ s.log.lh.block k = b ∧ ¬ k ≤ tail := by
  constructor
  · rintro ⟨hne, k, hk, rfl, hkt⟩
    refine ⟨k, hk, rfl, fun hle => hne ?_⟩
    rw [show k = tail by omega]
  · rintro ⟨k, hk, rfl, hkt⟩
    refine ⟨fun he => hkt ?_, k, hk, rfl, by omega⟩
    rw [h.block_inj hk htail he]

/-- **A step of one process that leaves the header alone**, and takes
nobody into `commit` or out of it. -/
theorem of_move {s' : BufSys} (hlog : s.SameLog s') (hlh : s'.log.lh = s.log.lh)
    (hpending : s'.pending = s.pending) (hpins : s'.pins = s.pins)
    (hother : ∀ q, q ≠ p → s'.job q = s.job q ∧ s'.io q = s.io q)
    (hcom : (s.job p).Committing → (s'.job p).Committing)
    (hcommit : ∀ c, s'.job p = .commit c → s.Reached (s'.io p) c) : s'.Hdr where
  dev := by rw [hlog.1]; exact h.dev
  size := by rw [hlog.2.2]; exact h.size
  nodup := by rw [hlh]; exact h.nodup
  le := by rw [hlh]; exact h.le
  open_ hn b := by
    rw [hlh, hpending, hpins]
    refine h.open_ (fun q hq => hn q ?_) b
    by_cases hqp : q = p
    · subst hqp
      exact hcom hq
    · rwa [(hother q hqp).1]
  commit q c hq := by
    have hreached : s.Reached (s'.io q) c := by
      by_cases hqp : q = p
      · subst hqp
        exact hcommit c hq
      · rw [(hother q hqp).1] at hq
        rw [(hother q hqp).2]
        exact h.commit q c hq
    obtain ⟨h1, h2, h3, h4⟩ := hreached
    refine ⟨by rw [hpending, hlh]; exact h1, by rw [hpins, hlh]; exact h2, by rwa [hlh], ?_⟩
    rwa [CommitAt.wants_congr hlh hlog.2.1]

theorem panicked (p : Pid) (e : Panic) : ({ s with panic := some e } : BufSys).Hdr :=
  h.of_move (p := p) ⟨rfl, rfl, rfl⟩ rfl rfl rfl (fun _ _ => ⟨rfl, rfl⟩) id (h.commit p)

/-- Steps that change one process's call and no job. -/
theorem of_io {cache : Bcache} {x : Io}
    (hx : ∀ c i, s.job p = .commit c → x = .locking i ∨ x = .filling i →
      ∃ b, c.wants s.log = some b) : Hdr { s with cache, io := update s.io p x } := by
  refine h.of_move (p := p) ⟨rfl, rfl, rfl⟩ rfl rfl rfl (fun _ hqp => ⟨rfl, update_of_ne hqp ..⟩) id
    fun c hp => ?_
  obtain ⟨h1, h2, h3, -⟩ := h.commit p c hp
  refine ⟨h1, h2, h3, fun i hi => hx c i hp ?_⟩
  simpa using hi

/-- `bread` or `brelse` returning. -/
theorem of_return {cache : Bcache} {x : Io} {j : Job}
    (hcom : j.Committing ↔ (s.job p).Committing) (hx : ∀ i, x ≠ .locking i ∧ x ≠ .filling i)
    (hj : ∀ c', j = .commit c' → ∃ c, s.job p = .commit c ∧ (∀ k, c'.Written k ↔ c.Written k) ∧
      (∀ k, c'.Unpinned k ↔ c.Unpinned k) ∧ c'.TailOk s.log.lh.n) :
    Hdr { s with cache, io := update s.io p x, job := update s.job p j } := by
  refine h.of_move (p := p) ⟨rfl, rfl, rfl⟩ rfl rfl rfl
    (fun _ hqp => ⟨update_of_ne hqp .., update_of_ne hqp ..⟩) (fun hp => ?_) fun c' hc' => ?_
  · simpa [hcom] using hp
  · obtain ⟨c, hc, hw, hu, ht⟩ := hj c' (by simpa using hc')
    refine ⟨?_, ?_, ht, fun i hi => absurd (by simpa using hi) (not_or.2 (hx i))⟩
    · simp only [hw]
      exact (h.commit p c hc).pending
    · simp only [hu]
      exact (h.commit p c hc).pins

/-- Steps of processes outside `commit` that leave the header alone. -/
theorem of_client {s' : BufSys} {j : Job} (hlog : s.SameLog s') (hlh : s'.log.lh = s.log.lh)
    (hpending : s'.pending = s.pending) (hpins : s'.pins = s.pins) (hio : s'.io = s.io)
    (hjob : s'.job = update s.job p j) (hp : ¬ (s.job p).Committing)
    (hj : ¬ j.Committing) : s'.Hdr := by
  refine h.of_move (p := p) hlog hlh hpending hpins (fun q hqp => ⟨?_, by rw [hio]⟩)
    (fun hc => absurd hc hp) fun c hc => absurd ?_ hj
  · rw [hjob, update_of_ne hqp]
  · rw [hjob, update_self] at hc
    rw [hc]
    exact Job.committing_commit

/-- A step to or within `commit` of the only process there. -/
theorem of_commit {s' : BufSys} {c' : CommitAt}
    (honly : ∀ q, (s.job q).Committing → q = p) (hlog : s.SameLog s')
    (hnodup : s'.log.lh.blocks.Nodup) (hle : s'.log.lh.n ≤ LOGSIZE)
    (hjob : s'.job = update s.job p (.commit c')) (hio : s'.io p = .none)
    (hpending : ∀ b, b ∈ s'.pending ↔
      ∃ k, k < s'.log.lh.n ∧ s'.log.lh.block k = b ∧ ¬ c'.Written k)
    (hpins : ∀ b, b ∈ s'.pins ↔
      ∃ k, k < s'.log.lh.n ∧ s'.log.lh.block k = b ∧ ¬ c'.Unpinned k)
    (htail : c'.TailOk s'.log.lh.n) : s'.Hdr := by
  refine ⟨by rw [hlog.1]; exact h.dev, by rw [hlog.2.2]; exact h.size, hnodup, hle, fun hn => ?_,
    fun q d hq => ?_⟩
  · exact absurd (by rw [hjob, update_self]; exact Job.committing_commit) (hn p)
  · have hqp : q = p := by
      by_contra hqp
      rw [hjob, update_of_ne hqp] at hq
      exact hqp (honly q (by simp [hq]))
    subst hqp
    rw [hjob, update_self] at hq
    cases hq
    refine ⟨hpending, hpins, htail, fun i hi => ?_⟩
    rw [hio] at hi
    rcases hi with hi | hi <;> cases hi

/-- A step after which nobody commits. -/
theorem of_open {s' : BufSys} (hlog : s.SameLog s')
    (hnodup : s'.log.lh.blocks.Nodup) (hle : s'.log.lh.n ≤ LOGSIZE)
    (hnone : ∀ q, ¬ (s'.job q).Committing)
    (hopen : ∀ b, (b ∈ s'.pending ↔ b ∈ s'.log.lh.blocks) ∧ (b ∈ s'.pins ↔ b ∈ s'.log.lh.blocks)) :
    s'.Hdr := by
  refine ⟨by rw [hlog.1]; exact h.dev, by rw [hlog.2.2]; exact h.size, hnodup, hle, fun _ => hopen,
    fun q c hq => absurd ?_ (hnone q)⟩
  rw [hq]
  exact Job.committing_commit

theorem logWrite (hc : s.Ctl) (ha : s.Enabled (.logWrite p i)) : (s.next (.logWrite p i)).Hdr := by
  have hp : s.job p = .logging i := ha.2
  have hbusy : (s.job p).Busy := by simp [hp]
  have hnone : ∀ q, ¬ (s.job q).Committing := fun q hq => hc.not_busy hq hbusy
  have hlog := log_next (s := s) (.logWrite p i)
  simp only [BufSys.next] at hlog ⊢
  split at hlog
  · rename_i pin log hw
    obtain ⟨hnodup, hle, hmem, -⟩ := Log.logWrite_blocks h.nodup h.le hw
    refine h.of_open hlog hnodup hle (fun q hq => hnone q ?_) fun b => ?_
    · exact (update_iff (P := Job.Committing) (by simp [hp]) q).1 hq
    · simp only [setJob, hmem, Finset.mem_insert]
      rw [(h.open_ hnone b).1, (h.open_ hnone b).2]
      exact ⟨Iff.rfl, Iff.rfl⟩
  · exact h.panicked p _

theorem endOp (hc : s.Ctl) (ha : s.Enabled (.endOp p)) : (s.next (.endOp p)).Hdr := by
  obtain ⟨hio, hp, -⟩ := ha
  have hbusy : (s.job p).Busy := by simp [hp]
  have hnone : ∀ q, ¬ (s.job q).Committing := fun q hq => hc.not_busy hq hbusy
  simp only [BufSys.next, Log.endOp_of_not_committing (Log.Control.not_committing hc hbusy)]
  by_cases h1 : s.log.outstanding = 1
  · simp only [h1, decide_true]
    -- the new committer is the only one, and takes the header as it is
    refine h.of_commit (fun q hq => absurd hq (hnone q)) ⟨rfl, rfl, rfl⟩ h.nodup h.le rfl hio
      (fun b => (h.open_ hnone b).1.trans (LogHeader.mem_blocks.trans ?_))
      (fun b => (h.open_ hnone b).2.trans (LogHeader.mem_blocks.trans ?_)) ?_ <;>
      by_cases hn : s.log.lh.n > 0
    · simp [hn, CommitAt.Written, setJob]
    · simp [Nat.eq_zero_of_not_pos hn, setJob]
    · simp [hn, CommitAt.Unpinned, setJob]
    · simp [Nat.eq_zero_of_not_pos hn, setJob]
    · simp only [hn, if_true]
      exact Nat.zero_le _
    · simp only [hn, if_false]
      exact Nat.eq_zero_of_not_pos hn
  · simp only [h1, decide_false]
    exact h.of_client ⟨rfl, rfl, rfl⟩ rfl rfl rfl rfl rfl (hnone p) Job.committing_idle

theorem commit_step (hc : s.Ctl) {c : CommitAt} (ha : s.Enabled (.commit p c)) :
    (s.next (.commit p c)).Hdr := by
  obtain ⟨hio, hp, hwants, hdrops⟩ := ha
  have hlog := log_next (s := s) (.commit p c)
  obtain ⟨hpending, hpins, htail, -⟩ := h.commit p c hp
  have honly : ∀ q, (s.job q).Committing → q = p := fun q hq =>
    hc.unique q p hq (by simp [hp])
  have hmove : ∀ {c'}, Job.after c = .commit c' → (s.next (.commit p c)).log.lh = s.log.lh →
      (∀ b, b ∈ (s.next (.commit p c)).pending ↔
        ∃ k, k < s.log.lh.n ∧ s.log.lh.block k = b ∧ ¬ c'.Written k) →
      (∀ b, b ∈ (s.next (.commit p c)).pins ↔
        ∃ k, k < s.log.lh.n ∧ s.log.lh.block k = b ∧ ¬ c'.Unpinned k) →
      c'.TailOk s.log.lh.n → (s.next (.commit p c)).Hdr := by
    intro c' hafter hlh h1 h2 h3
    refine h.of_commit honly hlog (by rw [hlh]; exact h.nodup) (by rw [hlh]; exact h.le) ?_ ?_
      (by rw [hlh]; exact h1) (by rw [hlh]; exact h2) (by rw [hlh]; exact h3)
    · simp only [BufSys.next, setJob, commitEffect_job, hafter]
    · simp only [BufSys.next, setJob, commitEffect_io]
      exact hio
  cases c with
  | logTo tail =>
    refine hmove rfl rfl (fun b => (hpending b).trans ?_) (fun b => (hpins b).trans ?_)
      (by simp [CommitAt.TailOk])
    · simp [CommitAt.Written]
    · simp [CommitAt.Unpinned]
  | logPut | headPut =>
    refine hmove rfl (by simp [BufSys.next, setJob, commitEffect]) (fun b => ?_) (fun b => ?_) htail
    · simp only [BufSys.next, setJob, commitEffect, bwrite_pending]
      exact hpending b
    · simp only [BufSys.next, setJob, commitEffect, bwrite_pins]
      exact hpins b
  | logCopy | headStore | instCopy => exact hmove rfl rfl hpending hpins htail
  | instLog tail =>
    have hle : s.log.lh.n ≤ tail := by
      by_contra hlt
      simp [CommitAt.wants, Nat.lt_of_not_le hlt] at hwants
    refine hmove rfl rfl (fun b => (hpending b).trans ?_) (fun b => (hpins b).trans ?_) trivial
    · simp only [CommitAt.Written, not_lt, not_true_eq_false, and_false, exists_false, iff_false]
      rintro ⟨k, hk, -, hk'⟩
      omega
    · simp only [CommitAt.Unpinned, not_lt, not_true_eq_false, and_false, exists_false, iff_false]
      rintro ⟨k, hk, -, hk'⟩
      omega
  | instPut tail lbuf dbuf =>
    refine hmove rfl (by simp [BufSys.next, setJob, commitEffect]) (fun b => ?_) (fun b => ?_) htail
    · have htail : tail < s.log.lh.n := htail
      simp only [BufSys.next, setJob, commitEffect, Finset.mem_erase, hpending, CommitAt.Written]
      exact h.erase_entry htail
    · simp only [BufSys.next, setJob, commitEffect, bwrite_pins]
      exact hpins b
  | instUnpin tail lbuf dbuf =>
    refine hmove rfl rfl hpending (fun b => ?_) htail
    have htail : tail < s.log.lh.n := htail
    simp only [BufSys.next, setJob, commitEffect, Finset.mem_erase, hpins, CommitAt.Unpinned]
    exact h.erase_entry htail
  | clear =>
    refine h.of_commit honly hlog (by simp [BufSys.next, setJob, commitEffect, Log.clear,
      LogHeader.blocks]) (Nat.zero_le _) rfl hio (fun b => (hpending b).trans ?_)
      (fun b => (hpins b).trans ?_) fun _ => rfl
    · simp [CommitAt.Written, BufSys.next, setJob, commitEffect, Log.clear]
    · simp [CommitAt.Unpinned, BufSys.next, setJob, commitEffect, Log.clear]
  | finish =>
    have hn : s.log.lh.n = 0 := htail
    refine h.of_open hlog h.nodup h.le (fun q hq => ?_) fun b => ?_
    · by_cases hqp : q = p
      · subst hqp
        simp [BufSys.next, setJob, Job.after] at hq
      · exact hqp (honly q (by simpa [BufSys.next, setJob, hqp] using hq))
    · have h1 := hpending b
      have h2 := hpins b
      simp only [hn, not_lt_zero, false_and, exists_false, iff_false] at h1 h2
      simp [BufSys.next, setJob, commitEffect, Log.endCommit, LogHeader.blocks, hn, h1, h2]
  | logFrom | head | instDst => cases hwants
  | logDropFrom | logDropTo | headDrop | instDropLog | instDropDst => cases hdrops

/-- **The header invariant is kept by every step.** -/
theorem next (hc : s.Ctl) {a : BufAct} (ha : s.Enabled a) : (s.next a).Hdr := by
  cases a with
  | bget p b =>
    simp only [BufSys.next]
    split
    · refine h.of_io fun c i hp _ => ?_
      rcases ha.2 with hcl | ⟨c', hp', hw⟩
      · rcases hcl with hj | hj <;> simp [hp] at hj
      · rw [hp] at hp'
        cases hp'
        exact ⟨b, hw⟩
    · exact h.panicked p _
  | acquiresleep p i => exact h.of_io fun c j hp _ => (h.commit p c hp).calling i (.inl ha.1)
  | fill p i =>
    refine h.of_return Job.committing_got (by simp) fun c' hc' => ?_
    cases hj : s.job p with
    | commit c =>
      rw [hj] at hc'
      cases hc'
      obtain ⟨b, hb⟩ := (h.commit p c hj).calling i (.inr ha)
      exact ⟨c, rfl, fun _ => CommitAt.written_got, fun _ => CommitAt.unpinned_got,
        CommitAt.tailOk_got hb (h.commit p c hj).tail⟩
    | _ => rw [hj] at hc'; cases hc'
  | releasesleep p i =>
    simp only [BufSys.next]
    split
    · refine h.of_return Job.committing_dropped (by simp) fun c' hc' => ?_
      cases hj : s.job p with
      | commit c =>
        rw [hj] at hc'
        cases hc'
        exact ⟨c, rfl, fun _ => CommitAt.written_dropped, fun _ => CommitAt.unpinned_dropped,
          CommitAt.tailOk_dropped (h.commit p c hj).tail⟩
      | _ => rw [hj] at hc'; cases hc'
    · exact h.panicked p _
  | unref p i => exact h.of_io fun c j _ hx => by rcases hx with hx | hx <;> cases hx
  | beginOp p =>
    obtain ⟨-, hp, hsome⟩ := ha
    obtain ⟨log, hlog⟩ := Option.isSome_iff_exists.1 hsome
    obtain ⟨-, -, rfl⟩ := Log.beginOp_eq_some.1 hlog
    simp only [BufSys.next, hlog]
    exact h.of_client ⟨rfl, rfl, rfl⟩ rfl rfl rfl rfl rfl (by simp [hp]) Job.committing_inOp
  | modify p i d =>
    exact h.of_move (p := p) ⟨rfl, rfl, rfl⟩ rfl rfl rfl (fun _ _ => ⟨rfl, rfl⟩) id (h.commit p)
  | logCheck p i =>
    obtain ⟨-, hp, -⟩ := ha
    simp only [BufSys.next]
    split
    · exact h.of_client ⟨rfl, rfl, rfl⟩ rfl rfl rfl rfl rfl (by simp [hp]) Job.committing_logging
    · exact h.panicked p _
  | logWrite p i => exact h.logWrite hc ha
  | endOp p => exact h.endOp hc ha
  | commit p c => exact h.commit_step hc ha

end

theorem reachable (h : system.Reachable s) : s.Hdr :=
  h.invariant (fun _ => Hdr.start) fun s a s' hr hi hs => by
    obtain ⟨⟨-, ha⟩, rfl⟩ := hs
    exact hi.next (Ctl.reachable hr) ha

end Hdr

end BufSys

end Xv6
