import Xv6.Log.Group
/-!
# What a commit contains

The transaction in memory is what the operations have logged since the
last commit: the header names their blocks, and `commit` copies the
buffers of these blocks to the log on disk, so that each commit is a union
of whole operations (`group_commit`). What it copies is what the last
operation to end found in the buffers. That is what was last logged of
each block where every process logs what it changes (`Careful`), and need
not be otherwise (`commit_of_unlogged`).
-/

namespace Xv6

open Common Function List

variable {P : Type}

/-- **A commit is a union of whole operations.** The blocks on disk are
those the ended operations logged, each once, and every operation that
logged anything has ended. -/
structure CommitRecord.Whole (r : CommitRecord) (start : ℕ) : Prop where
  nodup : ((r.disk.logged start).map Prod.fst).Nodup
  mem_iff : ∀ b, b ∈ (r.disk.logged start).map Prod.fst ↔
    ∃ w ∈ r.writes, w.block = b ∧ w.op ∈ r.ended
  whole : ∀ w ∈ r.writes, w.op ∈ r.ended

/-- And each block has its last logged contents. -/
structure CommitRecord.Exact (r : CommitRecord) (start : ℕ) : Prop extends r.Whole start where
  data : ∀ x ∈ r.disk.logged start, ∃ w, latest r.writes x.1 = some w ∧ w.data = x.2

/-- And each block has the contents its buffer had when the last operation
ended. -/
structure CommitRecord.Copied (r : CommitRecord) (start : ℕ) : Prop extends r.Whole start where
  copied : ∀ x ∈ r.disk.logged start, x.2 = r.left x.1

/-- `contents` has what was last logged of block `b`. -/
def LastLogged (contents : ℕ → Block) (ws : List Logged) (b : ℕ) : Prop :=
  ∀ w, latest ws b = some w → contents b = w.data

/-- When the last operation ended, the buffer of every block held what was
last logged of it. -/
def CommitRecord.Settled (r : CommitRecord) : Prop := ∀ b, LastLogged r.left r.writes b

theorem latest_isSome {ws : List Logged} {w : Logged} (h : w ∈ ws) :
    ∃ w', latest ws w.block = some w' := by
  rw [← Option.isSome_iff_exists, latest, find?_isSome]
  exact ⟨w, h, by simp⟩

theorem latest_mem {ws : List Logged} {w : Logged} {b : ℕ} (h : latest ws b = some w) :
    w ∈ ws ∧ w.block = b :=
  ⟨mem_of_find?_eq_some h, by simpa using find?_some h⟩

/-- **The contents of a commit** are those last logged exactly where the
buffers still held them when the last operation ended. -/
theorem CommitRecord.Copied.exact_iff {r : CommitRecord} {start : ℕ} (h : r.Copied start) :
    r.Exact start ↔ r.Settled := by
  constructor
  · intro hr b w hw
    obtain ⟨hmem, rfl⟩ := latest_mem hw
    obtain ⟨x, hx, he⟩ := mem_map.1 ((h.mem_iff w.block).2 ⟨w, hmem, rfl, h.whole w hmem⟩)
    obtain ⟨w', hw', hd⟩ := hr.data x hx
    rw [he, hw] at hw'
    cases hw'
    rw [hd, h.copied x hx, he]
  · intro hs
    refine ⟨h.toWhole, fun x hx => ?_⟩
    obtain ⟨w, hw, hb, -⟩ := (h.mem_iff x.1).1 (mem_map_of_mem hx)
    obtain ⟨w', hw'⟩ := latest_isSome hw
    rw [hb] at hw'
    exact ⟨w', hw', by rw [h.copied x hx, hs _ _ hw']⟩

/-- The in-memory header names exactly the blocks logged since the last
commit, each once. -/
structure Log.Collects (log : Log) (writes : List Logged) : Prop where
  nodup : log.lh.blocks.Nodup
  mem_iff : ∀ b, b ∈ log.lh.blocks ↔ ∃ w ∈ writes, w.block = b
  home : ∀ b ∈ log.lh.blocks, ¬ log.InArea b ∧ b < 2 ^ 32

/-- Logging a block adds it to what the header names. -/
theorem Log.Collects.logWrite {log log' : Log} {writes : List Logged} (h : log.Collects writes)
    (hle : log.lh.n ≤ LOGSIZE) {w : Logged} (hout : ¬ log.InArea w.block)
    (hlt : w.block < 2 ^ 32) {pin : Bool} (hlog : log.logWrite w.block = .ok (pin, log')) :
    log'.Collects (w :: writes) ∧ log'.lh.n ≤ LOGSIZE := by
  obtain ⟨hnodup, hle', hmem, -⟩ := Log.logWrite_blocks h.nodup hle hlog
  refine ⟨⟨hnodup, fun b => ?_, fun b hb => ?_⟩, hle'⟩
  · rw [hmem, h.mem_iff, exists_mem_cons_iff, eq_comm]
  · rw [Log.logWrite_frame hlog]
    rcases (hmem b).1 hb with rfl | hb
    · exact ⟨hout, hlt⟩
    · exact h.home b hb

namespace LogSys

variable {s s' : LogSys P} {p : P}

/-- Slot `i` holds what the buffer of its block held when the last
operation ended. -/
def SlotOk (s : LogSys P) (i : ℕ) : Prop :=
  s.disk (s.log.start + i + 1) = s.left (s.log.lh.block i)

/-- What has been logged since the commit before is in the last commit. -/
def Recorded (s : LogSys P) : Prop :=
  s.writes = [] ∨ ∃ r, s.commits.head? = some r ∧ r.writes = s.writes ∧ r.ended = s.ended

/-- What holds at each point of `commit`. -/
def PhaseOk (s : LogSys P) : CommitPc → Prop
  | .writeLog tail => s.log.Collects s.writes ∧ tail ≤ s.log.lh.n ∧ (∀ i, i < tail → s.SlotOk i) ∧
      ∀ i, tail ≤ i → i < s.log.lh.n → s.view (s.log.lh.block i) = s.left (s.log.lh.block i)
  | .writeHead => s.log.Collects s.writes ∧ ∀ i, i < s.log.lh.n → s.SlotOk i
  | .install _ | .clear => s.Recorded
  | .erase | .finish => s.Recorded ∧ s.log.lh.n = 0

/-- **The transaction**, from the first `log_write` to the end of the
commit. -/
structure Txn (s : LogSys P) : Prop where
  size : LOGSIZE ≤ s.log.size
  le : s.log.lh.n ≤ LOGSIZE
  held : ∀ p b, s.pc p = .logging b → s.holder b = some p ∧ ¬ s.log.InArea b ∧ b < 2 ^ 32
  owner : ∀ w ∈ s.writes, w.op ∈ s.ended ∨ ∃ p, (s.pc p).Busy ∧ s.opOf p = w.op
  opened : (∀ p, ¬ (s.pc p).Committing) → s.log.Collects s.writes
  phase : ∀ p c, s.pc p = .commit c → s.PhaseOk c
  copied : ∀ r ∈ s.commits, r.Copied s.log.start

namespace Txn

theorem start (h : s.Start) : s.Txn where
  size := h.size
  le := by rw [h.n]; exact Nat.zero_le _
  held := fun p b hp => by simp [h.pc] at hp
  owner := by simp [h.writes]
  opened := fun _ => by
    refine ⟨?_, ?_, ?_⟩
    · simp [LogHeader.blocks, h.n]
    · simp [LogHeader.blocks, h.n, h.writes]
    · simp [LogHeader.blocks, h.n]
  phase := fun p c hp => by simp [h.pc] at hp
  copied := by simp [h.commits]

/-- A buffer that is held is not the one a process takes. -/
theorem holder_lock [DecidableEq P] {b b' : ℕ} {q : P} (hfree : s.holder b = none)
    (hq : s.holder b' = some q) : update s.holder b (some p) b' = some q := by
  have : b' ≠ b := by
    rintro rfl
    rw [hfree] at hq
    cases hq
  rw [update_of_ne this, hq]

/-- With nobody committing there is no phase to check. -/
theorem phase_of_none {s : LogSys P} (h : ∀ p, ¬ (s.pc p).Committing) :
    ∀ p c, s.pc p = .commit c → s.PhaseOk c :=
  fun p c hp => absurd (by simp [hp]) (h p)

theorem not_committing_of_busy (hc : s.Ctl) (hp : (s.pc p).Busy) (q : P) : ¬ (s.pc q).Committing :=
  fun hq => hc.not_busy hq hp

/-- **The commit point.** Once every slot is written, the header makes the
log on disk name exactly what was logged. -/
theorem copied_writeHead (h : s.Txn) (hcol : s.log.Collects s.writes)
    (howner : ∀ w ∈ s.writes, w.op ∈ s.ended) (hslot : ∀ i, i < s.log.lh.n → s.SlotOk i)
    (b : Block) :
    CommitRecord.Copied ⟨update s.disk s.log.start (s.log.lh.store b), s.writes, s.ended, s.left⟩
      s.log.start := by
  have hlogged : Disk.logged (update s.disk s.log.start (s.log.lh.store b)) s.log.start =
      (List.range s.log.lh.n).map fun i => (s.log.lh.block i, s.left (s.log.lh.block i)) := by
    simp only [Disk.logged, update_self, LogHeader.diskN_store h.le]
    refine map_congr_left fun i hi => ?_
    have hi := mem_range.1 hi
    have hlt := (hcol.home _ (LogHeader.mem_blocks.2 ⟨i, hi, rfl⟩)).2
    rw [LogHeader.diskBlock_store h.le b hi hlt, update_of_ne (by omega), hslot i hi]
  have hfst : (Disk.logged (update s.disk s.log.start (s.log.lh.store b))
      s.log.start).map Prod.fst = s.log.lh.blocks := by
    rw [hlogged, map_map]
    rfl
  refine ⟨⟨by rw [hfst]; exact hcol.nodup, fun b' => ?_, howner⟩, fun x hx => ?_⟩
  · rw [hfst, hcol.mem_iff]
    constructor
    · rintro ⟨w, hw, he⟩
      exact ⟨w, hw, he, howner w hw⟩
    · rintro ⟨w, hw, he, -⟩
      exact ⟨w, hw, he⟩
  · rw [hlogged] at hx
    obtain ⟨i, -, rfl⟩ := mem_map.1 hx
    rfl

variable [DecidableEq P]

/-- Nor does anybody after a process has moved to where it does not
commit. -/
theorem not_committing_update (hnone : ∀ q, ¬ (s.pc q).Committing) {c : OpPc}
    (hc : ¬ c.Committing) (q : P) : ¬ (update s.pc p c q).Committing := fun hq =>
  hnone q ((update_iff (P := OpPc.Committing) (iff_of_false hc (hnone p)) q).1 hq)

section

variable (h : s.Txn)
include h

theorem held_update {c : OpPc} (hc : ∀ b, c = .logging b →
      s.holder b = some p ∧ ¬ s.log.InArea b ∧ b < 2 ^ 32) (q : P) (b : ℕ)
    (hq : update s.pc p c q = .logging b) :
    s.holder b = some q ∧ ¬ s.log.InArea b ∧ b < 2 ^ 32 := by
  by_cases hqp : q = p
  · subst hqp
    rw [update_self] at hq
    exact hc b hq
  · rw [update_of_ne hqp] at hq
    exact h.held q b hq

/-- Within an operation a process keeps what it has logged. -/
theorem owner_update (hp : (s.pc p).Busy) {c : OpPc} (hc : c.Busy) (w : Logged)
    (hw : w ∈ s.writes) : w.op ∈ s.ended ∨ ∃ q, (update s.pc p c q).Busy ∧ s.opOf q = w.op := by
  refine (h.owner w hw).imp_right ?_
  rintro ⟨q, hqb, hq⟩
  exact ⟨q, (update_iff (P := OpPc.Busy) (iff_of_true hc hp) q).2 hqb, hq⟩

theorem beginOp (hc : s.Ctl) (ha : s.Enabled (.beginOp p)) : (s.next (.beginOp p)).Txn := by
  obtain ⟨hp, hsome⟩ := ha
  obtain ⟨log, hlog⟩ := Option.isSome_iff_exists.1 hsome
  obtain ⟨hnot, -, rfl⟩ := Log.beginOp_eq_some.1 hlog
  have hnone : ∀ q, ¬ (s.pc q).Committing := fun q hq => by simp [hc.flag q hq] at hnot
  obtain ⟨hnodup, hmem, hhome⟩ := h.opened hnone
  simp only [LogSys.next, hlog]
  refine ⟨h.size, h.le, h.held_update (by simp), fun w hw => ?_, fun _ => ⟨hnodup, hmem, hhome⟩,
    phase_of_none (not_committing_update hnone OpPc.committing_inOp), h.copied⟩
  refine (h.owner w hw).imp_right ?_
  rintro ⟨q, hqb, hq⟩
  have hqp : q ≠ p := by
    rintro rfl
    simp [hp] at hqb
  exact ⟨q, by simpa [setPc, update_of_ne hqp] using hqb, by simpa [update_of_ne hqp] using hq⟩

/-- A buffer taken by a process was free, so it was not being logged. -/
theorem lock {b : ℕ} (ha : s.Enabled (.lock p b)) : (s.next (.lock p b)).Txn := by
  refine ⟨h.size, h.le, fun q b' hq => ?_, h.owner, h.opened, h.phase, h.copied⟩
  obtain ⟨hold, hrest⟩ := h.held q b' hq
  exact ⟨holder_lock ha.2 hold, hrest⟩

theorem unlock {b : ℕ} (ha : s.Enabled (.unlock p b)) : (s.next (.unlock p b)).Txn := by
  obtain ⟨hp, hb⟩ := ha
  refine ⟨h.size, h.le, fun q b' hq => ?_, h.owner, h.opened, h.phase, h.copied⟩
  obtain ⟨hold, hrest⟩ := h.held q b' hq
  have : b' ≠ b := by
    rintro rfl
    have hpq : p = q := by simpa [hb] using hold
    subst hpq
    rcases hp with hp | hp <;> simp [LogSys.next, hp] at hq
  exact ⟨by simpa [LogSys.next, update_of_ne this] using hold, hrest⟩

theorem modify (hc : s.Ctl) {b : ℕ} {d : Block} (ha : s.Enabled (.modify p b d)) :
    (s.next (.modify p b d)).Txn := by
  have hnone := not_committing_of_busy hc (p := p) (by simp [ha.1])
  exact ⟨h.size, h.le, h.held, h.owner, fun _ => h.opened hnone, phase_of_none hnone, h.copied⟩

theorem logCheck (hc : s.Ctl) {b : ℕ} (ha : s.Enabled (.logCheck p b)) :
    (s.next (.logCheck p b)).Txn := by
  obtain ⟨hp, hb, hout, hlt⟩ := ha
  have hbusy : (s.pc p).Busy := by simp [hp]
  have hnone := not_committing_of_busy hc hbusy
  simp only [LogSys.next]
  split
  · refine ⟨h.size, h.le, h.held_update fun b' hb' => ?_, h.owner_update hbusy OpPc.busy_logging,
      fun _ => h.opened hnone,
      phase_of_none (not_committing_update hnone OpPc.committing_logging), h.copied⟩
    cases hb'
    exact ⟨hb, hout, hlt⟩
  · exact ⟨h.size, h.le, h.held, h.owner, h.opened, phase_of_none hnone, h.copied⟩

theorem logWrite (hc : s.Ctl) {b : ℕ} (ha : s.Enabled (.logWrite p b)) :
    (s.next (.logWrite p b)).Txn := by
  have hp : s.pc p = .logging b := ha
  obtain ⟨hheld, hout, hlt⟩ := h.held p b hp
  have hbusy : (s.pc p).Busy := by simp [hp]
  have hnone := not_committing_of_busy hc hbusy
  simp only [LogSys.next]
  split
  · rename_i pin log hlog
    obtain ⟨hcol', hle⟩ := (h.opened hnone).logWrite h.le (w := ⟨s.opOf p, b, s.view b⟩) hout hlt hlog
    have hstart : log.start = s.log.start := by rw [Log.logWrite_frame hlog]
    have hsize : log.size = s.log.size := by rw [Log.logWrite_frame hlog]
    refine ⟨hsize ▸ h.size, hle, fun q b' hq => ?_, fun w hw => ?_, fun _ => hcol',
      phase_of_none (not_committing_update hnone OpPc.committing_inOp), hstart ▸ h.copied⟩
    · simp only [Log.InArea, hstart, hsize]
      exact h.held_update (c := .inOp) (by simp) q b' hq
    · rcases mem_cons.1 hw with rfl | hw
      · exact .inr ⟨p, by simp [setPc], rfl⟩
      · exact h.owner_update hbusy OpPc.busy_inOp w hw
  · exact ⟨h.size, h.le, h.held, h.owner, h.opened, phase_of_none hnone, h.copied⟩

theorem endOp (hc : s.Ctl) (ha : s.Enabled (.endOp p)) : (s.next (.endOp p)).Txn := by
  have hp : s.pc p = .inOp := ha
  have hbusy : (s.pc p).Busy := by simp [hp]
  have hnone := not_committing_of_busy hc hbusy
  have hcol := h.opened hnone
  have howner' : ∀ c, ∀ w ∈ s.writes, w.op ∈ s.opOf p :: s.ended ∨
      ∃ q, (update s.pc p c q).Busy ∧ s.opOf q = w.op := by
    intro c w hw
    rcases h.owner w hw with hw | ⟨q, hqb, hq⟩
    · exact .inl (mem_cons_of_mem _ hw)
    · by_cases hqp : q = p
      · rw [← hq, hqp]
        exact .inl mem_cons_self
      · exact .inr ⟨q, by rwa [update_of_ne hqp], hq⟩
  simp only [LogSys.next, Log.endOp_of_not_committing (hc.not_committing hbusy)]
  by_cases h1 : s.log.outstanding = 1
  · simp only [h1, decide_true]
    refine ⟨h.size, h.le, h.held_update (by simp), howner' _, fun hn => ?_, fun q c hq => ?_, h.copied⟩
    · exact absurd (by simp [setPc]) (hn p)
    · have hqp : q = p := by
        by_contra hqp
        have hq : s.pc q = .commit c := by simpa [setPc, update_of_ne hqp] using hq
        exact hnone q (by simp [hq])
      subst hqp
      by_cases hn : s.log.lh.n > 0
      · have hcq : CommitPc.writeLog 0 = c := by simpa [setPc, hn] using hq
        subst hcq
        exact ⟨⟨hcol.nodup, hcol.mem_iff, hcol.home⟩, Nat.zero_le _, by omega, fun i _ _ => rfl⟩
      · have hcq : CommitPc.finish = c := by simpa [setPc, hn] using hq
        subst hcq
        refine ⟨.inl (eq_nil_iff_forall_not_mem.2 fun w hw => ?_), Nat.eq_zero_of_not_pos hn⟩
        have := (hcol.mem_iff w.block).2 ⟨w, hw, rfl⟩
        obtain ⟨i, hi, -⟩ := LogHeader.mem_blocks.1 this
        omega
  · simp only [h1, decide_false]
    exact ⟨h.size, h.le, h.held_update (by simp), howner' _,
      fun _ => ⟨hcol.nodup, hcol.mem_iff, hcol.home⟩,
      phase_of_none (not_committing_update hnone OpPc.committing_idle), h.copied⟩

/-- Every step of `commit` but the last leaves the committer inside, with
what the next point needs. -/
theorem commitMove (hc : s.Ctl) {c c' : CommitPc} (hp : s.pc p = .commit c)
    (hpc : s'.pc = update s.pc p (.commit c')) (hstart : s'.log.start = s.log.start)
    (hsize : s'.log.size = s.log.size) (hle : s'.log.lh.n ≤ LOGSIZE)
    (hwrites : s'.writes = s.writes) (hended : s'.ended = s.ended) (hphase : s'.PhaseOk c')
    (hcopied : ∀ r ∈ s'.commits, r ∈ s.commits ∨ r.Copied s.log.start) : s'.Txn := by
  have hcp : (s.pc p).Committing := by simp [hp]
  have hbusy : ∀ q, ¬ (s.pc q).Busy := fun q => hc.not_busy hcp
  have hbusy' : ∀ q, ¬ (s'.pc q).Busy := fun q hq => by
    rw [hpc, update_iff (P := OpPc.Busy) (by simp [hp])] at hq
    exact hbusy q hq
  refine ⟨hsize ▸ h.size, hle, fun q b hq => ?_, fun w hw => ?_, fun hn => ?_,
    fun q d hq => ?_, fun r hr => ?_⟩
  · exact absurd (by simp [hq]) (hbusy' q)
  · rw [hwrites] at hw
    rw [hended]
    refine .inl ((h.owner w hw).resolve_right ?_)
    rintro ⟨q, hq, -⟩
    exact hbusy q hq
  · exact absurd (by rw [hpc]; simp) (hn p)
  · have hqp : q = p := by
      by_contra hqp
      rw [hpc, update_of_ne hqp] at hq
      exact hqp (hc.unique q p (by simp [hq]) hcp)
    rw [hqp, hpc, update_self] at hq
    cases hq
    exact hphase
  · rw [hstart]
    exact (hcopied r hr).elim (h.copied r) id

/-- Copying one block to its slot. A slot is inside the log area, where no
logged block is, except for the last one of a full log, after which none
is left to copy. -/
theorem phase_writeLog {tail : ℕ} (hphase : s.PhaseOk (.writeLog tail))
    (htail : tail < s.log.lh.n) (c : OpPc) :
    ((s.put (s.log.start + tail + 1) (s.view (s.log.lh.block tail))).setPc p c).PhaseOk
      (.writeLog (tail + 1)) := by
  obtain ⟨hcol, -, hslot, hview⟩ := hphase
  refine ⟨hcol, htail, fun i hi => ?_, fun i hi hin => ?_⟩
  · rcases Nat.lt_succ_iff_lt_or_eq.1 hi with hlt | rfl
    · have hne : s.log.start + i + 1 ≠ s.log.start + tail + 1 := by omega
      exact (update_of_ne hne _ _).trans (hslot i hlt)
    · exact (update_self _ _ _).trans (hview i le_rfl htail)
  · have hin : i < s.log.lh.n := hin
    have hne : s.log.lh.block i ≠ s.log.start + tail + 1 := by
      intro he
      refine (hcol.home _ (LogHeader.mem_blocks.2 ⟨i, hin, rfl⟩)).1 ?_
      have := h.le
      have := h.size
      rw [he]
      exact ⟨by omega, by omega⟩
    exact (update_of_ne hne _ _).trans (hview i (by omega) hin)

theorem commit (hc : s.Ctl) (ha : s.Enabled (.commit p)) : (s.next (.commit p)).Txn := by
  obtain ⟨c, hp, -⟩ := ha
  simp only [LogSys.next, hp]
  have hphase := h.phase p c hp
  have hcp : (s.pc p).Committing := by simp [hp]
  have howner : ∀ w ∈ s.writes, w.op ∈ s.ended := by
    intro w hw
    refine (h.owner w hw).resolve_right ?_
    rintro ⟨q, hq, -⟩
    exact hc.not_busy hcp hq
  cases c with
  | writeLog tail =>
    simp only [commitStep]
    split
    · rename_i htail
      exact h.commitMove hc hp rfl rfl rfl h.le rfl rfl (h.phase_writeLog hphase htail _)
        fun r hr => .inl hr
    · rename_i htail
      obtain ⟨hcol, -, hslot, -⟩ := hphase
      exact h.commitMove hc hp rfl rfl rfl h.le rfl rfl
        ⟨hcol, fun i hi => hslot i (by have : i < s.log.lh.n := hi; omega)⟩ fun r hr => .inl hr
  | writeHead =>
    obtain ⟨hcol, hslot⟩ := hphase
    refine h.commitMove hc hp rfl rfl rfl h.le rfl rfl (.inr ⟨_, rfl, rfl, rfl⟩) fun r hr => ?_
    rcases mem_cons.1 hr with rfl | hr
    · exact .inr (h.copied_writeHead hcol howner hslot _)
    · exact .inl hr
  | install tail =>
    simp only [commitStep]
    split <;> exact h.commitMove hc hp rfl rfl rfl h.le rfl rfl hphase fun r hr => .inl hr
  | clear =>
    exact h.commitMove hc hp rfl rfl rfl (Nat.zero_le _) rfl rfl ⟨hphase, rfl⟩
      fun r hr => .inl hr
  | erase => exact h.commitMove hc hp rfl rfl rfl h.le rfl rfl hphase fun r hr => .inl hr
  | finish =>
    have hn : s.log.lh.n = 0 := hphase.2
    have hbusy : ∀ q, ¬ (update s.pc p .idle q).Busy := fun q hq => by
      rw [update_iff (P := OpPc.Busy) (by simp [hp])] at hq
      exact hc.not_busy hcp hq
    refine ⟨h.size, h.le, fun q b hq => ?_, by simp [commitStep], fun _ => ?_, ?_, h.copied⟩
    · exact absurd (by rw [show update s.pc p .idle q = .logging b from hq]; trivial) (hbusy q)
    · constructor <;> simp [commitStep, Log.endCommit, LogHeader.blocks, hn]
    · refine phase_of_none fun q hq => ?_
      by_cases hqp : q = p
      · subst hqp; simp [commitStep, setPc] at hq
      · have hq : (s.pc q).Committing := by
          simpa [commitStep, setPc, update_of_ne hqp] using hq
        exact hqp (hc.unique q p hq hcp)

/-- **The transaction is kept by every step.** -/
theorem next (hc : s.Ctl) {a : LogAct P} (ha : s.Enabled a) : (s.next a).Txn := by
  cases a with
  | beginOp p => exact h.beginOp hc ha
  | lock p b => exact h.lock ha
  | modify p b d => exact h.modify hc ha
  | logCheck p b => exact h.logCheck hc ha
  | logWrite p b => exact h.logWrite hc ha
  | unlock p b => exact h.unlock ha
  | endOp p => exact h.endOp hc ha
  | commit p => exact h.commit hc ha

end

theorem reachable (h : (system P).Reachable s) : s.Txn :=
  h.invariant (fun _ => Txn.start) fun s a s' hr hi hs => by
    obtain ⟨⟨-, ha⟩, rfl⟩ := hs
    exact hi.next (Ctl.reachable hr) ha

end Txn

/-! ## Operations are told apart -/

/-- The operation has ended, since the last commit or before one. -/
def Ended (s : LogSys P) (o : ℕ) : Prop := o ∈ s.ended ∨ ∃ r ∈ s.commits, o ∈ r.ended

/-- **Numbering.** Each operation in progress has a number of its own,
which no ended one had. -/
structure Numbered (s : LogSys P) : Prop where
  lt : ∀ p, (s.pc p).Busy → s.opOf p < s.nextOp
  inj : ∀ p q, (s.pc p).Busy → (s.pc q).Busy → s.opOf p = s.opOf q → p = q
  ended : ∀ o, s.Ended o → o < s.nextOp ∧ ∀ p, (s.pc p).Busy → s.opOf p ≠ o

namespace Numbered

theorem start (h : s.Start) : s.Numbered where
  lt p hp := by simp [h.pc] at hp
  inj p q hp := by simp [h.pc] at hp
  ended o ho := by simp [Ended, h.ended, h.commits] at ho

/-- No step but `begin_op` and `end_op` starts an operation or ends
one. -/
theorem of_same (h : s.Numbered) (hbusy : ∀ q, (s'.pc q).Busy → (s.pc q).Busy)
    (hop : s'.opOf = s.opOf) (hnext : s'.nextOp = s.nextOp)
    (hended : ∀ o, s'.Ended o → s.Ended o) : s'.Numbered where
  lt q hq := by rw [hop, hnext]; exact h.lt q (hbusy q hq)
  inj a b ha hb := by rw [hop]; exact h.inj a b (hbusy a ha) (hbusy b hb)
  ended o ho := by
    rw [hop, hnext]
    exact ⟨(h.ended o (hended o ho)).1, fun q hq => (h.ended o (hended o ho)).2 q (hbusy q hq)⟩

variable [DecidableEq P]

theorem beginOp (h : s.Numbered) (hpc : s'.pc = update s.pc p .inOp)
    (hop : s'.opOf = update s.opOf p s.nextOp) (hnext : s'.nextOp = s.nextOp + 1)
    (hended : ∀ o, s'.Ended o → s.Ended o) : s'.Numbered := by
  have hsplit : ∀ q, (s'.pc q).Busy → (q = p ∧ s'.opOf q = s.nextOp) ∨
      (q ≠ p ∧ (s.pc q).Busy ∧ s'.opOf q = s.opOf q) := by
    intro q hq
    by_cases hqp : q = p
    · exact .inl ⟨hqp, by rw [hop, hqp, update_self]⟩
    · rw [hpc, update_of_ne hqp] at hq
      exact .inr ⟨hqp, hq, by rw [hop, update_of_ne hqp]⟩
  refine ⟨fun q hq => ?_, fun a b ha hb he => ?_, fun o ho => ⟨?_, fun q hq => ?_⟩⟩
  · rcases hsplit q hq with ⟨-, hq'⟩ | ⟨-, hqb, hq'⟩
    · omega
    · have := h.lt q hqb
      omega
  · rcases hsplit a ha with ⟨rfl, ha'⟩ | ⟨-, hab, ha'⟩ <;>
      rcases hsplit b hb with ⟨rfl, hb'⟩ | ⟨-, hbb, hb'⟩
    · rfl
    · have := h.lt b hbb
      omega
    · have := h.lt a hab
      omega
    · exact h.inj a b hab hbb (by rw [← ha', ← hb', he])
  · have := (h.ended o (hended o ho)).1
    omega
  · have hlt := (h.ended o (hended o ho)).1
    rcases hsplit q hq with ⟨-, hq'⟩ | ⟨-, hqb, hq'⟩
    · omega
    · rw [hq']
      exact (h.ended o (hended o ho)).2 q hqb

theorem endOp (h : s.Numbered) (hp : (s.pc p).Busy) {c : OpPc} (hc : ¬ c.Busy)
    (hpc : s'.pc = update s.pc p c) (hop : s'.opOf = s.opOf)
    (hnext : s'.nextOp = s.nextOp) (hended : ∀ o, s'.Ended o → o = s.opOf p ∨ s.Ended o) :
    s'.Numbered := by
  have hbusy : ∀ q, (s'.pc q).Busy → q ≠ p ∧ (s.pc q).Busy := by
    intro q hq
    rw [hpc] at hq
    by_cases hqp : q = p
    · subst hqp
      simp [hc] at hq
    · exact ⟨hqp, by rwa [update_of_ne hqp] at hq⟩
  refine ⟨fun q hq => ?_, fun a b ha hb => ?_, fun o ho => ?_⟩
  · rw [hop, hnext]
    exact h.lt q (hbusy q hq).2
  · rw [hop]
    exact h.inj a b (hbusy a ha).2 (hbusy b hb).2
  · rw [hop, hnext]
    rcases hended o ho with rfl | ho
    · exact ⟨h.lt p hp, fun q hq he => (hbusy q hq).1 (h.inj q p (hbusy q hq).2 hp he)⟩
    · exact ⟨(h.ended o ho).1, fun q hq => (h.ended o ho).2 q (hbusy q hq).2⟩

/-- **The numbering is kept by every step.** -/
theorem next (h : s.Numbered) (hc : s.Ctl) {a : LogAct P} (ha : s.Enabled a) :
    (s.next a).Numbered := by
  cases a with
  | beginOp p =>
    obtain ⟨log, hlog⟩ := Option.isSome_iff_exists.1 ha.2
    simp only [LogSys.next, hlog]
    exact h.beginOp rfl rfl rfl fun o ho => ho
  | logCheck p b =>
    have hp : s.pc p = .inOp := ha.1
    simp only [LogSys.next]
    split
    · exact h.of_same (fun q => (update_iff (P := OpPc.Busy) (by simp [hp]) q).1) rfl rfl fun _ => id
    · exact h.of_same (fun _ => id) rfl rfl fun _ => id
  | logWrite p b =>
    have hp : s.pc p = .logging b := ha
    simp only [LogSys.next]
    split
    · exact h.of_same (fun q => (update_iff (P := OpPc.Busy) (by simp [hp]) q).1) rfl rfl fun _ => id
    · exact h.of_same (fun _ => id) rfl rfl fun _ => id
  | endOp p =>
    have hp : (s.pc p).Busy := by rw [show s.pc p = .inOp from ha]; exact OpPc.busy_inOp
    have hended : ∀ o, (o ∈ s.opOf p :: s.ended ∨ ∃ r ∈ s.commits, o ∈ r.ended) →
        o = s.opOf p ∨ s.Ended o := by
      rintro o (ho | ho)
      · exact (mem_cons.1 ho).imp_right .inl
      · exact .inr (.inr ho)
    simp only [LogSys.next, Log.endOp_of_not_committing (hc.not_committing hp)]
    by_cases h1 : s.log.outstanding = 1
    · simp only [h1, decide_true]
      exact h.endOp hp OpPc.busy_commit rfl rfl rfl hended
    · simp only [h1, decide_false]
      exact h.endOp hp OpPc.busy_idle rfl rfl rfl hended
  | commit p =>
    obtain ⟨c, hp, -⟩ := ha
    have hbusy : ∀ {c'}, ¬ c'.Busy → ∀ q, (update s.pc p c' q).Busy → (s.pc q).Busy :=
      fun hc' q => (update_iff (P := OpPc.Busy) (by simp [hp, hc']) q).1
    simp only [LogSys.next, hp]
    cases c with
    | writeHead =>
      refine h.of_same (hbusy OpPc.busy_commit) rfl rfl ?_
      rintro o (ho | ⟨r, hr, ho⟩)
      · exact .inl ho
      · rcases mem_cons.1 hr with rfl | hr
        · exact .inl ho
        · exact .inr ⟨r, hr, ho⟩
    | finish =>
      refine h.of_same (hbusy OpPc.busy_idle) rfl rfl ?_
      rintro o (ho | ho)
      · exact absurd ho not_mem_nil
      · exact .inr ho
    | _ =>
      simp only [commitStep]
      first
        | exact h.of_same (hbusy OpPc.busy_commit) rfl rfl fun _ => id
        | split <;> exact h.of_same (hbusy OpPc.busy_commit) rfl rfl fun _ => id
  | _ => exact h.of_same (fun _ => id) rfl rfl fun _ => id

theorem reachable (h : (system P).Reachable s) : s.Numbered :=
  h.invariant (fun _ => Numbered.start) fun s a s' hr hi hs => by
    obtain ⟨⟨-, ha⟩, rfl⟩ := hs
    exact hi.next (Ctl.reachable hr) ha

end Numbered

/-! ## Processes that log what they change -/

/-- A process passes a buffer it has changed to `log_write` before it
releases it or ends the operation. -/
def Careful (s : LogSys P) : LogAct P → Prop
  | .unlock _ b => b ∉ s.dirty
  | .endOp p => ∀ b ∈ s.dirty, s.holder b ≠ some p
  | _ => True

instance [DecidableEq P] (s : LogSys P) : (a : LogAct P) → Decidable (s.Careful a)
  | .unlock _ b => inferInstanceAs (Decidable (b ∉ s.dirty))
  | .endOp p => inferInstanceAs (Decidable (∀ b ∈ s.dirty, s.holder b ≠ some p))
  | .beginOp _ | .lock _ _ | .modify _ _ _ | .logCheck _ _ | .logWrite _ _ | .commit _ =>
      isTrue trivial

/-- **Care.** Buffers changed and not logged are in the hands of processes
inside an operation; the others hold what was last logged, and so did all
of them when a commit started. -/
structure Clean (s : LogSys P) : Prop where
  dirty : ∀ b ∈ s.dirty, ∃ p, s.holder b = some p ∧ (s.pc p).Busy
  view : (∀ p, ¬ (s.pc p).Committing) → ∀ b ∉ s.dirty, LastLogged s.view s.writes b
  left : ∀ p, (s.pc p).Committing → ∀ b, LastLogged s.left s.writes b
  settled : ∀ r ∈ s.commits, r.Settled

namespace Clean

theorem start (h : s.Start) : s.Clean where
  dirty := by simp [h.dirty]
  view _ b _ w hw := by simp [latest, h.writes] at hw
  left p hp := by simp [h.pc] at hp
  settled := by simp [h.commits]

/-- With nobody committing, what is logged is in the buffers and not yet
on its way to the disk. -/
theorem of_open (h : s.Clean) (hnone : ∀ p, ¬ (s'.pc p).Committing)
    (hcommits : s'.commits = s.commits)
    (hdirty : ∀ b ∈ s'.dirty, ∃ p, s'.holder b = some p ∧ (s'.pc p).Busy)
    (hview : ∀ b ∉ s'.dirty, LastLogged s'.view s'.writes b) : s'.Clean :=
  ⟨hdirty, fun _ => hview, fun p hp => absurd hp (hnone p), hcommits ▸ h.settled⟩

variable [DecidableEq P]

/-- The last operation ends with no buffer changed and not logged. -/
theorem endOp (h : s.Clean) (hc : s.Ctl) (hp : s.pc p = .inOp)
    (hcare : s.Careful (.endOp p)) : (s.next (.endOp p)).Clean := by
  have hbusy : (s.pc p).Busy := by simp [hp]
  have hnone := Txn.not_committing_of_busy hc hbusy
  have hview := h.view hnone
  have hdirty : ∀ b ∈ s.dirty, ∃ q, q ≠ p ∧ s.holder b = some q ∧ (s.pc q).Busy := by
    intro b hb
    obtain ⟨q, hq, hqb⟩ := h.dirty b hb
    exact ⟨q, fun he => hcare b hb (he ▸ hq), hq, hqb⟩
  have hdirty' : ∀ c, ∀ b ∈ s.dirty, ∃ q, s.holder b = some q ∧ (update s.pc p c q).Busy := by
    intro c b hb
    obtain ⟨q, hqp, hq, hqb⟩ := hdirty b hb
    exact ⟨q, hq, by rwa [update_of_ne hqp]⟩
  simp only [LogSys.next, Log.endOp_of_not_committing (hc.not_committing hbusy)]
  by_cases h1 : s.log.outstanding = 1
  · have hempty : ∀ b, b ∉ s.dirty := by
      intro b hb
      obtain ⟨q, hqp, -, hqb⟩ := hdirty b hb
      exact hqp (hc.eq_of_busy h1 hbusy hqb)
    simp only [h1, decide_true]
    exact ⟨hdirty' _, fun hn => absurd (by simp [setPc]) (hn p), fun _ _ b => hview b (hempty b),
      h.settled⟩
  · simp only [h1, decide_false]
    exact h.of_open (Txn.not_committing_update hnone OpPc.committing_idle) rfl (hdirty' _) hview

/-- A step inside `commit` finds no buffer changed. -/
theorem commit (h : s.Clean) (hc : s.Ctl) (ha : s.Enabled (.commit p)) :
    (s.next (.commit p)).Clean := by
  obtain ⟨c, hp, -⟩ := ha
  have hcp : (s.pc p).Committing := by simp [hp]
  have hempty : ∀ b, b ∉ s.dirty := by
    intro b hb
    obtain ⟨q, -, hq⟩ := h.dirty b hb
    exact hc.not_busy hcp hq
  have hmove : ∀ {s' : LogSys P} {c' : CommitPc}, s'.pc = update s.pc p (.commit c') →
      s'.dirty = s.dirty → s'.left = s.left → s'.writes = s.writes →
      (∀ r ∈ s'.commits, r.Settled) → s'.Clean := by
    intro s' c' hpc hd hl hw hset
    refine ⟨fun b hb => absurd (hd ▸ hb) (hempty b), fun hn => ?_, fun q _ => ?_, hset⟩
    · exact absurd (by rw [hpc]; simp) (hn p)
    · rw [hl, hw]
      exact h.left p hcp
  simp only [LogSys.next, hp]
  cases c with
  | writeLog | install => simp only [commitStep]; split <;> exact hmove rfl rfl rfl rfl h.settled
  | writeHead =>
    refine hmove rfl rfl rfl rfl fun r hr => ?_
    rcases mem_cons.1 hr with rfl | hr
    · exact h.left p hcp
    · exact h.settled r hr
  | clear | erase => exact hmove rfl rfl rfl rfl h.settled
  | finish =>
    exact ⟨fun b hb => absurd hb (hempty b), fun _ b _ w hw => by simp [commitStep, latest] at hw,
      fun _ _ b w hw => by simp [commitStep, latest] at hw, h.settled⟩

/-- **Care is kept by every careful step.** -/
theorem next (h : s.Clean) (hc : s.Ctl) {a : LogAct P} (ha : s.Enabled a) (hcare : s.Careful a) :
    (s.next a).Clean := by
  cases a with
  | beginOp p =>
    obtain ⟨log, hlog⟩ := Option.isSome_iff_exists.1 ha.2
    have hnot := (Log.beginOp_eq_some.1 hlog).1
    have hnone : ∀ q, ¬ (s.pc q).Committing := fun q hq => by simp [hc.flag q hq] at hnot
    simp only [LogSys.next, hlog]
    refine h.of_open (Txn.not_committing_update hnone OpPc.committing_inOp) rfl (fun b hb => ?_)
      (h.view hnone)
    obtain ⟨q, hq, hqb⟩ := h.dirty b hb
    have hqp : q ≠ p := by
      rintro rfl
      simp [ha.1] at hqb
    exact ⟨q, hq, by simpa [setPc, update_of_ne hqp] using hqb⟩
  | lock p b =>
    refine ⟨fun b' hb' => ?_, h.view, h.left, h.settled⟩
    obtain ⟨q, hq, hqb⟩ := h.dirty b' hb'
    exact ⟨q, Txn.holder_lock ha.2 hq, hqb⟩
  | unlock p b =>
    refine ⟨fun b' hb' => ?_, h.view, h.left, h.settled⟩
    obtain ⟨q, hq, hqb⟩ := h.dirty b' hb'
    have : b' ≠ b := by
      rintro rfl
      exact hcare hb'
    exact ⟨q, by simpa [LogSys.next, update_of_ne this] using hq, hqb⟩
  | modify p b d =>
    obtain ⟨hp, hb, -⟩ := ha
    have hbusy : (s.pc p).Busy := by simp [hp]
    have hnone := Txn.not_committing_of_busy hc hbusy
    refine h.of_open hnone rfl (fun b' hb' => ?_) fun b' hb' w hw => ?_
    · rcases Finset.mem_insert.1 hb' with rfl | hb'
      · exact ⟨p, hb, hbusy⟩
      · exact h.dirty b' hb'
    · obtain ⟨hne, hclean⟩ : b' ≠ b ∧ b' ∉ s.dirty := by simpa [LogSys.next] using hb'
      simp only [LogSys.next, update_of_ne hne]
      exact h.view hnone b' hclean w hw
  | logCheck p b =>
    have hbusy : (s.pc p).Busy := by simp [ha.1]
    have hnone := Txn.not_committing_of_busy hc hbusy
    simp only [LogSys.next]
    split
    · refine h.of_open (Txn.not_committing_update hnone OpPc.committing_logging) rfl
        (fun b hb => ?_) (h.view hnone)
      obtain ⟨q, hq, hqb⟩ := h.dirty b hb
      exact ⟨q, hq, (update_iff (P := OpPc.Busy) (iff_of_true OpPc.busy_logging hbusy) q).2 hqb⟩
    · exact ⟨h.dirty, h.view, h.left, h.settled⟩
  | logWrite p b =>
    have hbusy : (s.pc p).Busy := by rw [show s.pc p = .logging b from ha]; exact OpPc.busy_logging
    have hnone := Txn.not_committing_of_busy hc hbusy
    simp only [LogSys.next]
    split
    · refine h.of_open (Txn.not_committing_update hnone OpPc.committing_inOp) rfl
        (fun b' hb' => ?_) fun b' hb' w hw => ?_
      · obtain ⟨q, hq, hqb⟩ := h.dirty b' (Finset.mem_of_mem_erase hb')
        exact ⟨q, hq, (update_iff (P := OpPc.Busy) (iff_of_true OpPc.busy_inOp hbusy) q).2 hqb⟩
      · by_cases hbb : b' = b
        · subst hbb
          have : (⟨s.opOf p, b', s.view b'⟩ : Logged) = w := by simpa [latest] using hw
          rw [← this]
          rfl
        · have hclean : b' ∉ s.dirty := fun hd => hb' (Finset.mem_erase.2 ⟨hbb, hd⟩)
          exact h.view hnone b' hclean w (by simpa [latest, Ne.symm hbb] using hw)
    · exact ⟨h.dirty, h.view, h.left, h.settled⟩
  | endOp p => exact h.endOp hc ha hcare
  | commit p => exact h.commit hc ha

theorem reachable (h : ((system P).restrict Careful).Reachable s) : s.Clean :=
  h.invariant (fun _ => Clean.start) fun s a s' hr hi hs => by
    obtain ⟨hcare, ⟨-, ha⟩, rfl⟩ := hs
    exact hi.next (Ctl.reachable hr.of_restrict) ha hcare

end Clean

variable [DecidableEq P]

/-- **Group commit.** In every state of every interleaving: a commit runs
only with no operation in progress and the flag up; while the flag is up
no `begin_op` returns; commits do not overlap, and nothing is logged
during one; `end_op` does not find a commit running; every commit holds
exactly the blocks of the operations that ended since the one before, and
nothing of an operation still in progress; and when a commit is over, all
that was logged is in it. The contents of a commit are those last logged
exactly where each buffer held them when the last operation ended, as all
do where every process logs what it changes. -/
theorem group_commit (h : (system P).Reachable s) :
    (∀ p, (s.pc p).Committing → s.log.outstanding = 0 ∧ s.log.committing = true) ∧
    (s.log.committing = true → ∀ p, ¬ s.Enabled (.beginOp p)) ∧
    (∀ p q, (s.pc p).Committing → (s.pc q).Committing → p = q) ∧
    (∀ p q b, (s.pc p).Committing → ¬ s.Enabled (.logCheck q b) ∧ ¬ s.Enabled (.logWrite q b)) ∧
    s.panic ≠ some .logCommitting ∧
    (∀ r ∈ s.commits, r.Whole s.log.start ∧
      ∀ p, (s.pc p).Busy → ∀ w ∈ r.writes, w.op ≠ s.opOf p) ∧
    (∀ p, s.pc p = .commit .finish → s.Recorded) ∧
    (∀ r ∈ s.commits, r.Exact s.log.start ↔ r.Settled) ∧
    (((system P).restrict Careful).Reachable s → ∀ r ∈ s.commits, r.Exact s.log.start) := by
  have hc := Ctl.reachable h
  have ht := Txn.reachable h
  have hnum := Numbered.reachable h
  refine ⟨fun p hp => ⟨hc.quiet (hc.flag p hp), hc.flag p hp⟩, fun hflag p hen => ?_, hc.unique,
    fun p q b hp => ⟨fun hen => ?_, fun hen => ?_⟩, hc.noPanic,
    fun r hr => ⟨(ht.copied r hr).toWhole, ?_⟩, fun p hp => (ht.phase p _ hp).1,
    fun r hr => (ht.copied r hr).exact_iff,
    fun hcare r hr => (ht.copied r hr).exact_iff.2 ((Clean.reachable hcare).settled r hr)⟩
  · obtain ⟨log, hlog⟩ := Option.isSome_iff_exists.1 hen.2
    rw [(Log.beginOp_eq_some.1 hlog).1] at hflag
    cases hflag
  · exact hc.not_busy (q := q) hp (by simp [hen.1])
  · have hq : s.pc q = .logging b := hen
    exact hc.not_busy (q := q) hp (by simp [hq])
  · intro p hp w hw he
    have hended := (ht.copied r hr).whole w hw
    exact (hnum.ended _ (.inr ⟨r, hr, hended⟩)).2 p hp he.symm

/-- A process takes block `b` and fills it with `x`. -/
def changes (p : Bool) (b : ℕ) (x : UInt8) : List (LogAct Bool) :=
  [.lock p b, .modify p b fun _ => x]

/-- It logs the block. -/
def logs (p : Bool) (b : ℕ) : List (LogAct Bool) := [.logCheck p b, .logWrite p b]

/-- Two operations overlap and both log block 45; what the commit holds is
what the second of them logged. -/
theorem group_commit_two : ∃ s : LogSys Bool, ((system Bool).restrict Careful).Reachable s ∧
    s.commits.map CommitRecord.ended = [[1, 0]] ∧ ∀ r ∈ s.commits, r.Exact s.log.start := by
  obtain ⟨s, hs, hended⟩ : ∃ s, ((system Bool).restrict Careful).Reachable s ∧
      s.commits.map CommitRecord.ended = [[1, 0]] :=
    System.exists_of_follow_restrict fresh_start ([.beginOp true, .beginOp false] ++
      changes true 45 1 ++ logs true 45 ++ [.unlock true 45] ++ changes true 46 1 ++ logs true 46 ++
      changes false 45 2 ++ logs false 45 ++ [.unlock true 46, .endOp true, .unlock false 45,
      .endOp false] ++ List.replicate 10 (.commit false)) (by decide +kernel)
  exact ⟨s, hs, hended, (group_commit hs.of_restrict).2.2.2.2.2.2.2.2 hs⟩

/-- **A commit of what nobody logged.** One operation logs block 45; before
it is committed, another changes the block and releases it without a
`log_write`, as `writei` does where the copy into the buffer fails after
its first bytes. The commit has the bytes of the second. -/
theorem commit_of_unlogged : ∃ s : LogSys Bool, (system Bool).Reachable s ∧
    ∃ r ∈ s.commits, r.Whole s.log.start ∧ ¬ r.Exact s.log.start := by
  obtain ⟨s, hs, r, hr, w, hw, hne⟩ : ∃ s, (system Bool).Reachable s ∧ ∃ r ∈ s.commits,
      ∃ w ∈ latest r.writes 45, r.left 45 0 ≠ w.data 0 :=
    System.exists_of_follow fresh_start ([.beginOp true, .beginOp false] ++
      changes true 45 1 ++ logs true 45 ++ [.unlock true 45, .endOp true] ++ changes false 45 2 ++
      [.unlock false 45, .endOp false] ++ List.replicate 5 (.commit false)) (by decide +kernel)
  have hcopied := (Txn.reachable hs).copied r hr
  exact ⟨s, hs, r, hr, hcopied.toWhole, fun he =>
    hne (congrFun (hcopied.exact_iff.1 he 45 w hw) 0)⟩

end LogSys

end Xv6
