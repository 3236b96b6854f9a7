import Xv6.Common.Writes
import Xv6.Log.Model
/-!
# The log across crashes

A machine is switched off between two disk writes, any number of times,
and started again. Here the buffer cache is idealised: `view b` is what
`bread` of block `b` gives, the buffer's contents where the block is
cached and the disk's where it is not, and the machine records the writes
that reach the disk. A crash after `k` of them leaves the effect of the
first `k`, and the machine comes up again with its view on the disk.
-/

namespace Xv6

open Common Function List

/-- The block layer as `log.c` sees it. -/
structure Machine where
  view : ℕ → Block
  /-- The disk writes so far, first to last. -/
  writes : List (ℕ × Block)

/-- The idealised buffer cache: a buffer is its block number. -/
def idealOps : BufOps Machine ℕ where
  bread _ b := pure b
  data b := fun m => .ok (m.view b, m)
  setData b d := fun m => .ok ((), { m with view := update m.view b d })
  bwrite b := fun m => .ok ((), { m with writes := m.writes ++ [(b, m.view b)] })
  brelse _ := pure ()
  bunpin _ := pure ()

/-- The disk writes a kernel function makes, started with the view `v`. -/
def writesOf {α : Type} (c : Kern Machine α) (v : ℕ → Block) : List (ℕ × Block) :=
  match c ⟨v, []⟩ with
  | .ok (_, m) => m.writes
  | .error _ => []

namespace Log

/-- The log area: the header block and the slots after it. -/
def InArea (log : Log) (b : ℕ) : Prop := log.start ≤ b ∧ b < log.start + log.size

instance (log : Log) (b : ℕ) : Decidable (log.InArea b) := inferInstanceAs (Decidable (_ ∧ _))

/-- The log a machine comes up with: `initlog` sets the place and the size
of the log area, and the rest is zero. -/
def reboot (log : Log) : Log where
  start := log.start
  size := log.size
  outstanding := 0
  committing := false
  dev := log.dev
  lh := { n := 0, block := fun _ => 0 }

/-- The disk after `recover_from_log` has run to its end. -/
def recovered (log : Log) (d : Disk) : Disk :=
  applyWrites (writesOf (recoverFromLog idealOps log.reboot) d) d

/-- The disk after `recover_from_log` has been cut off by crashes, once
after each of the given numbers of disk writes. -/
def recoveryCrashes (log : Log) (ks : List ℕ) (d : Disk) : Disk :=
  ks.foldl (fun d k => applyWrites ((writesOf (recoverFromLog idealOps log.reboot) d).take k) d) d

/-- The disk after `commit` has been cut off after `k` disk writes. -/
def commitCrash (log : Log) (v : ℕ → Block) (k : ℕ) (d : Disk) : Disk :=
  applyWrites ((writesOf (commit idealOps log) v).take k) d

/-- The number of disk writes up to and including `commit`'s first
`write_head`. -/
def commitPoint (log : Log) (v : ℕ → Block) : ℕ :=
  (writesOf (do writeLog idealOps log; writeHead idealOps log) v).length

end Log

/-! ## What each function writes -/

/-- Started with the view `v`, the function returns `a` having written
`ws`; its view follows its writes, since every buffer it changes it
writes out. -/
def Runs {α : Type} (c : Kern Machine α) (v : ℕ → Block) (a : α) (ws : List (ℕ × Block)) : Prop :=
  ∀ w, c ⟨v, w⟩ = .ok (a, ⟨applyWrites ws v, w ++ ws⟩)

namespace Runs

variable {α β : Type} {v : ℕ → Block} {a : α} {b : β} {ws ws' : List (ℕ × Block)}

theorem pure : Runs (Pure.pure a) v a [] := by
  intro w
  simp only [applyWrites_nil, append_nil]
  rfl

theorem bind {c : Kern Machine α} {f : α → Kern Machine β} (hc : Runs c v a ws)
    (hf : Runs (f a) (applyWrites ws v) b ws') : Runs (c >>= f) v b (ws ++ ws') := by
  intro w
  have hrun : (c >>= f) ⟨v, w⟩ = (c ⟨v, w⟩).bind fun p => f p.1 p.2 := rfl
  rw [hrun, hc w]
  change f a _ = _
  rw [hf, applyWrites_append, append_assoc]

/-- A loop writing one block an iteration. -/
theorem forM_range {f : ℕ → Kern Machine PUnit} {x : ℕ → ℕ × Block} {n : ℕ}
    (h : ∀ t, t < n → Runs (f t) (applyWrites ((List.range t).map x) v) ⟨⟩ [x t]) :
    Runs ((List.range n).forM f) v ⟨⟩ ((List.range n).map x) := by
  induction n with
  | zero => exact pure
  | succ n ih =>
    have hprev := ih fun t ht => h t (by omega)
    have hlast : Runs ([n].forM f) (applyWrites ((List.range n).map x) v) ⟨⟩ [x n] := by
      have := (h n (by omega)).bind (pure (a := PUnit.unit))
      simpa using this
    have := hprev.bind (f := fun _ => [n].forM f) hlast
    simpa [range_succ] using this

theorem writesOf_eq {c : Kern Machine α} (h : Runs c v a ws) : writesOf c v = ws := by
  rw [writesOf, h]
  simp

end Runs

namespace Log

variable {log : Log} {v : ℕ → Block}

/-- The log slots, with the contents of the blocks logged in them. -/
def slotWrites (log : Log) (v : ℕ → Block) : List (ℕ × Block) :=
  (List.range log.lh.n).map fun i => (log.start + i + 1, v (log.lh.block i))

/-- The home blocks, with the contents of their log slots. -/
def homeWrites (log : Log) (v : ℕ → Block) : List (ℕ × Block) :=
  (List.range log.lh.n).map fun i => (log.lh.block i, v (log.start + i + 1))

/-- The header block with the in-memory header stored in it. -/
def headWrite (log : Log) (v : ℕ → Block) : ℕ × Block :=
  (log.start, log.lh.store (v log.start))

/-- The blocks of a transaction the log can hold: distinct, with home
locations outside the log area, and no more of them than there are
slots. -/
structure Holds (log : Log) : Prop where
  nodup : log.lh.blocks.Nodup
  outside : ∀ b ∈ log.lh.blocks, ¬ log.InArea b
  /-- `int block[LOGSIZE]` -/
  le_logsize : log.lh.n ≤ LOGSIZE
  lt_size : log.lh.n < log.size
  /-- A block number is a `uint`. -/
  uint : ∀ b ∈ log.lh.blocks, b < 2 ^ 32

theorem Holds.block_outside (h : log.Holds) {i : ℕ} (hi : i < log.lh.n) :
    ¬ log.InArea (log.lh.block i) :=
  h.outside _ (LogHeader.mem_blocks.2 ⟨i, hi, rfl⟩)

theorem Holds.slot_inArea (h : log.Holds) {i : ℕ} (hi : i < log.lh.n) :
    log.InArea (log.start + i + 1) := by
  have := h.lt_size
  constructor <;> omega

theorem Holds.start_inArea (h : log.Holds) : log.InArea log.start := by
  have := h.lt_size
  constructor <;> omega

theorem runs_writeHead : Runs (writeHead idealOps log) v () [log.headWrite v] := by
  intro w
  have hrun : writeHead idealOps log ⟨v, w⟩ =
      .ok ((), ⟨update v log.start (log.lh.store (v log.start)),
        w ++ [(log.start, update v log.start (log.lh.store (v log.start)) log.start)]⟩) :=
    rfl
  rw [hrun, update_self]
  rfl

theorem runs_writeLog (h : log.Holds) : Runs (writeLog idealOps log) v () (log.slotWrites v) := by
  refine Runs.forM_range fun t ht w => ?_
  set u := applyWrites ((List.range t).map fun i => (log.start + i + 1, v (log.lh.block i))) v
    with hu
  -- the slots filled so far are none of the logged blocks
  have hfrom : u (log.lh.block t) = v (log.lh.block t) := by
    refine applyWrites_of_forall_ne fun x hx hxe => h.block_outside ht ?_
    obtain ⟨i, hi, rfl⟩ := mem_map.1 hx
    rw [← hxe]
    exact h.slot_inArea (by have := mem_range.1 hi; omega)
  rw [← hfrom]
  change Except.ok _ = Except.ok _
  simp [applyWrites]

theorem runs_installTrans (h : log.Holds) :
    Runs (installTrans idealOps log) v () (log.homeWrites v) := by
  refine Runs.forM_range fun t ht w => ?_
  set u := applyWrites ((List.range t).map fun i => (log.lh.block i, v (log.start + i + 1))) v
    with hu
  -- the blocks installed so far are none of the slots
  have hslot : u (log.start + t + 1) = v (log.start + t + 1) := by
    refine applyWrites_of_forall_ne fun x hx hxe => ?_
    obtain ⟨i, hi, rfl⟩ := mem_map.1 hx
    refine h.block_outside (i := i) (by have := mem_range.1 hi; omega) ?_
    rw [show log.lh.block i = log.start + t + 1 from hxe]
    exact h.slot_inArea ht
  rw [← hslot]
  change Except.ok _ = Except.ok _
  simp [applyWrites]

/-- The disk writes of `commit`: the slots, the header, the home blocks,
and the header again with its count erased. -/
theorem writesOf_commit (h : log.Holds) (hn : 0 < log.lh.n) :
    ∃ v₁ v₂ v₃ : ℕ → Block, (∀ i, i < log.lh.n → v₂ (log.start + i + 1) = v (log.lh.block i)) ∧
      writesOf (commit idealOps log) v =
        log.slotWrites v ++ log.headWrite v₁ :: (log.homeWrites v₂ ++ [log.clear.headWrite v₃]) := by
  let v₁ := applyWrites (log.slotWrites v) v
  let v₂ := applyWrites [log.headWrite v₁] v₁
  let v₃ := applyWrites (log.homeWrites v₂) v₂
  refine ⟨v₁, v₂, v₃, fun i hi => ?_, ?_⟩
  · -- the header is not a slot, and each slot is written once
    have hv₂ : v₂ (log.start + i + 1) = v₁ (log.start + i + 1) :=
      update_of_ne (by simp only [headWrite]; omega) _ _
    rw [hv₂]
    refine applyWrites_of_mem ⟨_, mem_map.2 ⟨i, mem_range.2 hi, rfl⟩, rfl⟩ ?_
    rintro x hx hxe
    obtain ⟨j, -, rfl⟩ := mem_map.1 hx
    have : j = i := by simp only at hxe; omega
    rw [this]
  · have hrun : Runs (commit idealOps log) v log.clear (log.slotWrites v ++ ([log.headWrite v₁] ++
        (log.homeWrites v₂ ++ ([log.clear.headWrite v₃] ++ [])))) := by
      rw [commit, if_pos hn]
      exact (runs_writeLog (v := v) h).bind (runs_writeHead.bind ((runs_installTrans h).bind
        (runs_writeHead.bind Runs.pure)))
    simpa using hrun.writesOf_eq

theorem commitPoint_eq (h : log.Holds) : log.commitPoint v = log.lh.n + 1 := by
  have hrun : Runs (do writeLog idealOps log; writeHead idealOps log) v () _ :=
    (runs_writeLog (v := v) h).bind runs_writeHead
  rw [commitPoint, hrun.writesOf_eq]
  simp [slotWrites]

/-! ## The three states a crash can leave -/

/-- Outside the log area the two disks are the same. -/
def HomeEq (log : Log) (d e : Disk) : Prop := ∀ b, ¬ log.InArea b → d b = e b

/-- The old disk with every logged block replaced by its cached
contents. -/
def installed (log : Log) (v : ℕ → Block) (old : Disk) : Disk :=
  fun b => if b ∈ log.lh.blocks then v b else old b

/-- **No transaction on disk**: the header counts none, and the home blocks
are those of `ref`. -/
structure Clean (log : Log) (ref d : Disk) : Prop where
  count : LogHeader.diskN (d log.start) = 0
  home : log.HomeEq d ref

/-- **Erased**: the count is zero, and not only none. -/
structure Erased (log : Log) (ref d : Disk) : Prop extends log.Clean ref d where
  zero : (d log.start).readLE 0 4 = 0

/-- **A committed transaction**: the header names the logged blocks, their
slots hold the cached contents, and no other home block has changed. What
the logged blocks hold at home is left open, since they are about to be
installed, or installed again. -/
structure Committed (log : Log) (v : ℕ → Block) (old d : Disk) : Prop where
  count : LogHeader.diskN (d log.start) = log.lh.n
  entry : ∀ i, i < log.lh.n → LogHeader.diskBlock (d log.start) i = log.lh.block i
  slot : ∀ i, i < log.lh.n → d (log.start + i + 1) = v (log.lh.block i)
  home : ∀ b, ¬ log.InArea b → b ∉ log.lh.blocks → d b = old b

variable {old d ref : Disk}

/-- Writing a header with count zero ends the transaction. -/
theorem Erased.of_update {log' : Log} (hs : log'.start = log.start) (hin : log.InArea log.start)
    (h : log.HomeEq d ref) (u : ℕ → Block) :
    log.Erased ref (applyWrites [log'.clear.headWrite u] d) := by
  have happ : applyWrites [log'.clear.headWrite u] d =
      update d log.start (log'.clear.lh.store (u log'.start)) := by
    simp [headWrite, clear, hs]
  rw [happ]
  refine ⟨⟨?_, fun b hb => ?_⟩, ?_⟩
  · rw [update_self, LogHeader.diskN_store (by simp [clear])]
    rfl
  · have hne : b ≠ log.start := fun he => hb (by rw [he]; exact hin)
    rw [update_of_ne hne, h b hb]
  · rw [update_self, LogHeader.readLE_store (by simp [clear])]
    rfl

/-! ## What recovery does in each -/

/-- The log as `read_head` leaves it after a restart. -/
def found (log : Log) (d : Disk) : Log :=
  { log.reboot with lh := log.reboot.lh.load (d log.start) }

@[simp] theorem found_start : (log.found d).start = log.start := rfl

theorem found_n : (log.found d).lh.n = LogHeader.diskN (d log.start) := by
  simp only [found, LogHeader.load]

theorem found_block {i : ℕ} (hi : i < LogHeader.diskN (d log.start)) :
    (log.found d).lh.block i = LogHeader.diskBlock (d log.start) i := by
  simp only [found, LogHeader.load, if_pos hi]

/-- What recovery writes: the home blocks the header names, each with the
contents of its slot, and then a header with count zero. -/
theorem writesOf_recover (h : (log.found d).Holds) :
    ∃ u, writesOf (recoverFromLog idealOps log.reboot) d =
      (log.found d).homeWrites d ++ [(log.found d).clear.headWrite u] := by
  have hread : Runs (readHead idealOps log.reboot) d (log.found d) [] := by
    intro w
    simp only [applyWrites_nil, append_nil]
    rfl
  have hrun : Runs (recoverFromLog idealOps log.reboot) d (log.found d).clear
      ([] ++ ((log.found d).homeWrites d ++
        ([(log.found d).clear.headWrite (applyWrites ((log.found d).homeWrites d) d)] ++ []))) :=
    hread.bind ((runs_installTrans h).bind (runs_writeHead.bind Runs.pure))
  exact ⟨_, by simpa using hrun.writesOf_eq⟩

/-- On a disk with no transaction, recovery finds an empty one. -/
theorem Clean.found_holds (hsize : 0 < log.size) (hc : log.Clean ref d) :
    (log.found d).Holds ∧ (log.found d).homeWrites d = [] := by
  have hn : (log.found d).lh.n = 0 := by rw [found_n, hc.count]
  have hblocks : (log.found d).lh.blocks = [] := by simp [LogHeader.blocks, hn]
  refine ⟨⟨?_, ?_, ?_, ?_, ?_⟩, by simp [homeWrites, hn]⟩
  · rw [hblocks]; exact nodup_nil
  · rw [hblocks]; simp
  · omega
  · rw [hn]; exact hsize
  · rw [hblocks]; simp

/-- On a disk with a committed transaction, recovery finds that
transaction. -/
theorem Committed.found_holds (h : log.Holds) (hc : log.Committed v old d) :
    (log.found d).Holds ∧ (log.found d).homeWrites d =
      (List.range log.lh.n).map fun i => (log.lh.block i, v (log.lh.block i)) := by
  have hn : (log.found d).lh.n = log.lh.n := by rw [found_n, hc.count]
  have hblock : ∀ i, i < log.lh.n → (log.found d).lh.block i = log.lh.block i := by
    intro i hi
    rw [found_block (by rw [hc.count]; exact hi), hc.entry i hi]
  have hblocks : (log.found d).lh.blocks = log.lh.blocks := by
    rw [LogHeader.blocks, hn]
    exact map_congr_left fun i hi => hblock i (mem_range.1 hi)
  refine ⟨⟨?_, ?_, ?_, ?_, ?_⟩, ?_⟩
  · rw [hblocks]; exact h.nodup
  · rw [hblocks]; exact h.outside
  · rw [hn]; exact h.le_logsize
  · rw [hn]; exact h.lt_size
  · rw [hblocks]; exact h.uint
  · rw [homeWrites, hn]
    refine map_congr_left fun i hi => ?_
    have hi' := mem_range.1 hi
    rw [hblock i hi', ← hc.slot i hi', found_start]

/-- A sequence of writes with one more after it, cut anywhere, is a part of
the sequence or the whole. -/
theorem take_concat {α : Type} (l : List α) (x : α) (k : ℕ) :
    (l ++ [x]).take k = l.take k ∨ (l ++ [x]).take k = l ++ [x] := by
  rcases Nat.lt_or_ge l.length k with h | h
  · right
    exact take_of_length_le (by simp only [length_append, length_singleton]; omega)
  · left
    exact take_append_of_le_length h

/-- Recovering where there is nothing to recover changes no home block,
however often it is cut off. -/
theorem Clean.crash (hsize : 0 < log.size) (hc : log.Clean ref d) (k : ℕ) :
    log.Clean ref
      (applyWrites ((writesOf (recoverFromLog idealOps log.reboot) d).take k) d) := by
  obtain ⟨hholds, hnil⟩ := hc.found_holds hsize
  obtain ⟨u, hw⟩ := writesOf_recover hholds
  have hin : log.InArea log.start := ⟨le_refl _, by omega⟩
  rw [hw, hnil]
  rcases take_concat [] ((log.found d).clear.headWrite u) k with h | h
  · rw [h, take_nil]
    exact hc
  · rw [h, nil_append]
    exact (Erased.of_update found_start hin hc.home u).toClean

/-- Installing some of the logged blocks leaves the transaction
committed. -/
theorem Committed.install (h : log.Holds) (hc : log.Committed v old d) {ws : List (ℕ × Block)}
    (hws : ∀ w ∈ ws, w.1 ∈ log.lh.blocks) : log.Committed v old (applyWrites ws d) := by
  have harea : ∀ b, log.InArea b → applyWrites ws d b = d b := by
    intro b hb
    refine applyWrites_of_forall_ne fun w hw he => h.outside _ (hws w hw) ?_
    rw [he]
    exact hb
  refine ⟨?_, fun i hi => ?_, fun i hi => ?_, fun b hb hnot => ?_⟩
  · rw [harea _ h.start_inArea, hc.count]
  · rw [harea _ h.start_inArea, hc.entry i hi]
  · rw [harea _ (h.slot_inArea hi), hc.slot i hi]
  · have hne : ∀ w ∈ ws, w.1 ≠ b := fun w hw he => hnot (by rw [← he]; exact hws w hw)
    rw [applyWrites_of_forall_ne hne, hc.home b hb hnot]

/-- Installing all of them makes the home blocks the new ones. -/
theorem Committed.homeEq (hc : log.Committed v old d) :
    log.HomeEq (applyWrites ((List.range log.lh.n).map
      fun i => (log.lh.block i, v (log.lh.block i))) d) (log.installed v old) := by
  intro b hb
  by_cases hmem : b ∈ log.lh.blocks
  · obtain ⟨i, hi, rfl⟩ := LogHeader.mem_blocks.1 hmem
    rw [installed, if_pos hmem]
    refine applyWrites_of_mem ⟨_, mem_map.2 ⟨i, mem_range.2 hi, rfl⟩, rfl⟩ ?_
    intro x hx hxe
    obtain ⟨j, -, rfl⟩ := mem_map.1 hx
    exact congrArg v hxe
  · rw [installed, if_neg hmem, ← hc.home b hb hmem]
    refine applyWrites_of_forall_ne fun x hx hxe => hmem ?_
    obtain ⟨j, hj, rfl⟩ := mem_map.1 hx
    exact LogHeader.mem_blocks.2 ⟨j, mem_range.1 hj, hxe⟩

section

variable (h : log.Holds) (hc : log.Committed v old d)
include h hc

/-- The writes that bring a committed transaction home and erase it, cut
off anywhere, leave it committed or done. -/
theorem Committed.finish {l : Log}
    (hs : l.start = log.start) (u : ℕ → Block) (k : ℕ) :
    let ws := (List.range log.lh.n).map (fun i => (log.lh.block i, v (log.lh.block i))) ++
      [l.clear.headWrite u]
    log.Committed v old (applyWrites (ws.take k) d) ∧ k ≤ log.lh.n ∨
      log.Erased (log.installed v old) (applyWrites (ws.take k) d) := by
  intro ws
  rcases Nat.lt_or_ge log.lh.n k with hk | hk
  · right
    rw [take_of_length_le (by simp [ws]; omega), applyWrites_append]
    exact Erased.of_update hs h.start_inArea hc.homeEq u
  · left
    rw [take_append_of_le_length (by simpa using hk)]
    refine ⟨hc.install h fun w hw => ?_, hk⟩
    obtain ⟨i, hi, rfl⟩ := mem_map.1 (mem_of_mem_take hw)
    exact LogHeader.mem_blocks.2 ⟨i, mem_range.1 hi, rfl⟩

/-- What recovery writes on a committed transaction. -/
theorem Committed.writesOf_recover :
    ∃ u, writesOf (recoverFromLog idealOps log.reboot) d =
      (List.range log.lh.n).map (fun i => (log.lh.block i, v (log.lh.block i))) ++
        [(log.found d).clear.headWrite u] := by
  obtain ⟨hholds, hhome⟩ := hc.found_holds h
  obtain ⟨u, hw⟩ := Log.writesOf_recover hholds
  exact ⟨u, by rw [hw, hhome]⟩

/-- **Recovery of a committed transaction**, cut off anywhere, leaves it
committed or has installed it. -/
theorem Committed.crash (k : ℕ) :
    log.Committed v old
        (applyWrites ((writesOf (recoverFromLog idealOps log.reboot) d).take k) d) ∨
      log.Clean (log.installed v old)
        (applyWrites ((writesOf (recoverFromLog idealOps log.reboot) d).take k) d) := by
  obtain ⟨u, hw⟩ := hc.writesOf_recover h
  rw [hw]
  exact (hc.finish h found_start u k).imp And.left Erased.toClean

/-- Run to its end, it has installed it. -/
theorem Committed.recovered : log.Erased (log.installed v old) (log.recovered d) := by
  obtain ⟨u, hw⟩ := hc.writesOf_recover h
  have := hc.finish h (l := log.found d) found_start u (log.lh.n + 1)
  dsimp only at this
  rw [take_of_length_le (by simp)] at this
  rw [Log.recovered, hw]
  exact this.resolve_left fun hk => by omega

end

theorem Clean.recovered (hsize : 0 < log.size) (hc : log.Clean ref d) :
    log.Erased ref (log.recovered d) := by
  obtain ⟨hholds, hnil⟩ := hc.found_holds hsize
  obtain ⟨u, hw⟩ := writesOf_recover hholds
  rw [Log.recovered, hw, hnil, nil_append]
  exact Erased.of_update found_start ⟨le_refl _, by omega⟩ hc.home u

/-- A clean disk stays clean through any number of crashes in recovery. -/
theorem Clean.recoveryCrashes (hsize : 0 < log.size) (hc : log.Clean ref d) (ks : List ℕ) :
    log.Clean ref (log.recoveryCrashes ks d) := by
  induction ks generalizing d with
  | nil => exact hc
  | cons k ks ih => exact ih (hc.crash hsize k)

/-- **Recovery is idempotent under crashes.** However often it is cut off,
one run to its end installs a committed transaction. -/
theorem Committed.recovered_recoveryCrashes (h : log.Holds) (hc : log.Committed v old d)
    (ks : List ℕ) :
    log.Erased (log.installed v old) (log.recovered (log.recoveryCrashes ks d)) := by
  have hsize : 0 < log.size := by have := h.lt_size; omega
  induction ks generalizing d with
  | nil => exact hc.recovered h
  | cons k ks ih =>
    rcases hc.crash h k with hcom | hclean
    · exact ih hcom
    · exact (hclean.recoveryCrashes hsize ks).recovered hsize

/-! ## Cutting off a commit -/

/-- Before its header is written, a transaction has touched only the
slots. -/
theorem Clean.slotWrites (h : log.Holds) (hc : log.Clean ref d) (k : ℕ) :
    log.Clean ref (applyWrites ((log.slotWrites v).take k) d) := by
  have hslot : ∀ w ∈ (log.slotWrites v).take k, log.InArea w.1 ∧ w.1 ≠ log.start := by
    intro w hw
    obtain ⟨i, hi, rfl⟩ := mem_map.1 (mem_of_mem_take hw)
    exact ⟨h.slot_inArea (mem_range.1 hi), by simp only; omega⟩
  refine ⟨?_, fun b hb => ?_⟩
  · rw [applyWrites_of_forall_ne fun w hw => (hslot w hw).2, hc.count]
  · have hne : ∀ w ∈ (log.slotWrites v).take k, w.1 ≠ b :=
      fun w hw he => hb (by rw [← he]; exact (hslot w hw).1)
    rw [applyWrites_of_forall_ne hne, hc.home b hb]

/-- **The commit point.** With the slots written, the header makes the
transaction committed. -/
theorem Committed.of_head (h : log.Holds) (hc : log.HomeEq d old) (u : ℕ → Block) :
    log.Committed v old (applyWrites (log.slotWrites v ++ [log.headWrite u]) d) := by
  have happ : applyWrites (log.slotWrites v ++ [log.headWrite u]) d =
      update (applyWrites (log.slotWrites v) d) log.start (log.lh.store (u log.start)) := by
    simp [headWrite]
  rw [happ]
  refine ⟨?_, fun i hi => ?_, fun i hi => ?_, fun b hb _ => ?_⟩
  · rw [update_self, LogHeader.diskN_store h.le_logsize]
  · rw [update_self, LogHeader.diskBlock_store h.le_logsize _ hi
      (h.uint _ (LogHeader.mem_blocks.2 ⟨i, hi, rfl⟩))]
  · rw [update_of_ne (by omega)]
    refine applyWrites_of_mem ⟨_, mem_map.2 ⟨i, mem_range.2 hi, rfl⟩, rfl⟩ ?_
    intro x hx hxe
    obtain ⟨j, -, rfl⟩ := mem_map.1 hx
    have : j = i := by simp only at hxe; omega
    rw [this]
  · have hne : b ≠ log.start := fun he => hb (by rw [he]; exact h.start_inArea)
    have hslot : ∀ w ∈ log.slotWrites v, w.1 ≠ b := by
      intro w hw he
      obtain ⟨i, hi, rfl⟩ := mem_map.1 hw
      exact hb (by rw [← he]; exact h.slot_inArea (mem_range.1 hi))
    rw [update_of_ne hne, applyWrites_of_forall_ne hslot, hc b hb]

/-- **Commit, cut off anywhere.** Up to the commit point the disk is
clean with the old contents; from there on the transaction is committed,
or it is done and the disk is clean with the new ones. -/
theorem commitCrash_cases (h : log.Holds) (hc : log.Clean old d) (k : ℕ) :
    if 0 < log.lh.n ∧ log.commitPoint v ≤ k then
      log.Committed v old (log.commitCrash v k d) ∨
        log.Clean (log.installed v old) (log.commitCrash v k d)
    else log.Clean old (log.commitCrash v k d) := by
  rw [commitPoint_eq h, commitCrash]
  rcases Nat.eq_zero_or_pos log.lh.n with hn | hn
  · -- an empty transaction makes no disk write
    have hw : writesOf (commit idealOps log) v = [] := by
      rw [commit, if_neg (by omega)]
      exact Runs.pure.writesOf_eq
    rw [if_neg (by omega), hw, take_nil]
    exact hc
  obtain ⟨v₁, v₂, v₃, hv₂, hw⟩ := writesOf_commit (v := v) h hn
  have hlen : (log.slotWrites v).length = log.lh.n := by simp [Log.slotWrites]
  have hhome : log.homeWrites v₂ =
      (List.range log.lh.n).map fun i => (log.lh.block i, v (log.lh.block i)) :=
    map_congr_left fun i hi => by rw [hv₂ i (mem_range.1 hi)]
  rw [hw]
  rcases Nat.lt_or_ge log.lh.n k with hk | hk
  · rw [if_pos ⟨hn, hk⟩]
    obtain ⟨j, rfl⟩ : ∃ j, k = log.lh.n + 1 + j := ⟨k - (log.lh.n + 1), by omega⟩
    have htake : (log.slotWrites v ++ log.headWrite v₁ ::
        (log.homeWrites v₂ ++ [log.clear.headWrite v₃])).take (log.lh.n + 1 + j) =
        (log.slotWrites v ++ [log.headWrite v₁]) ++
          (log.homeWrites v₂ ++ [log.clear.headWrite v₃]).take j := by
      rw [Nat.add_assoc, ← hlen, take_length_add_append, Nat.add_comm 1 j, take_succ_cons]
      simp
    rw [htake, applyWrites_append, hhome]
    exact ((Committed.of_head h hc.home v₁).finish h rfl v₃ j).imp And.left Erased.toClean
  · rw [if_neg (by omega), take_append_of_le_length (by omega)]
    exact hc.slotWrites h k

/-- **Crash atomicity of the redo log.** `commit` is cut off after any
number of disk writes, recovery after any numbers of them any number of
times, and one recovery runs to its end. The home blocks are then exactly
the old ones, or exactly the old ones with every logged block replaced by
its cached contents; which of the two is decided by whether `commit`'s
first `write_head` had reached the disk (where the cached contents are the
old ones the two are the same disk); and the count in
the header on disk is zero. -/
theorem commit_crash_atomic (log : Log) (h : log.Holds) (v : ℕ → Block) (d : Disk)
    (hclean : LogHeader.diskN (d log.start) = 0) (k : ℕ) (ks : List ℕ) :
    let final := log.recovered (log.recoveryCrashes ks (log.commitCrash v k d))
    let reached := 0 < log.lh.n ∧ log.commitPoint v ≤ k
    (log.HomeEq final d ∨ log.HomeEq final (log.installed v d)) ∧
      (log.HomeEq final (log.installed v d) ↔ reached ∨ log.HomeEq d (log.installed v d)) ∧
      (¬ reached → log.HomeEq final d) ∧
      (final log.start).readLE 0 4 = 0 := by
  intro final reached
  have hsize : 0 < log.size := by have := h.lt_size; omega
  have hcases := commitCrash_cases (v := v) h (⟨hclean, fun _ _ => rfl⟩ : log.Clean d d) k
  by_cases hr : reached
  · rw [if_pos hr] at hcases
    have hfinal : log.Erased (log.installed v d) final := by
      rcases hcases with hcom | hcl
      · exact hcom.recovered_recoveryCrashes h ks
      · exact (hcl.recoveryCrashes hsize ks).recovered hsize
    exact ⟨.inr hfinal.home, ⟨fun _ => .inl hr, fun _ => hfinal.home⟩, fun hn => absurd hr hn,
      hfinal.zero⟩
  · rw [if_neg hr] at hcases
    have hfinal : log.Erased d final := (hcases.recoveryCrashes hsize ks).recovered hsize
    refine ⟨.inl hfinal.home, ⟨fun hnew => .inr fun b hb => ?_, ?_⟩, fun _ => hfinal.home,
      hfinal.zero⟩
    · rw [← hfinal.home b hb, hnew b hb]
    · rintro (hreached | hsame)
      · exact absurd hreached hr
      · exact fun b hb => by rw [hfinal.home b hb, hsame b hb]

/-- Blocks 45 and 46 of a zeroed disk, logged with ones in them. The
machine stops with the header just written, and once more with one of the
two blocks installed. -/
theorem commit_crash_atomic_two :
    let log := { mkfs with lh := ⟨2, fun i => 45 + i⟩ }
    let v := fun _ : ℕ => (fun _ => 1 : Block)
    let d := fun _ : ℕ => (fun _ => 0 : Block)
    log.Holds ∧ LogHeader.diskN (d log.start) = 0 ∧
      log.HomeEq (log.recovered (log.recoveryCrashes [1] (log.commitCrash v 3 d)))
        (log.installed v d) := by
  intro log v d
  have hblocks : log.lh.blocks = [45, 46] := rfl
  have hholds : log.Holds := by
    refine ⟨?_, ?_, by decide, by decide, ?_⟩ <;> rw [hblocks] <;> decide
  have hclean : LogHeader.diskN (d log.start) = 0 := by decide
  refine ⟨hholds, hclean, ((commit_crash_atomic log hholds v d hclean 3 [1]).2.1).2 (.inl ?_)⟩
  rw [commitPoint_eq hholds]
  decide

end Log

end Xv6
