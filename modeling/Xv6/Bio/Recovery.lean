import Xv6.Bio.Model
import Xv6.Log.Crash
import Mathlib.Data.ZMod.Basic
/-!
# Recovery over the buffers of `bio.c`

`recover_from_log` runs before any other process does, on a cache that only
`readsb` has used. `install_trans` drops a pin for every block it installs.
After a commit these are the pins `log_write` took; in recovery there were
none, and each drop takes one reference too many. So recovery leaves the
counters as it should exactly when there was nothing to recover.
-/

namespace Xv6

open Common

/-- The cache and the disk, for a single running process. -/
structure Bio where
  cache : Bcache
  disk : Disk

namespace Bio

/-- A lock that is taken is the caller's own, and waiting for it has no
end. -/
def bread (p : Pid) (dev blockno : ℕ) : Kern Bio (Fin NBUF) := fun s =>
  match s.cache.bget dev blockno with
  | .error e => .error e
  | .ok (i, c) =>
    if (c.buf i).lock = none then .ok (i, { s with cache := (c.acquiresleep i p).fill i s.disk })
    else .error .selfDeadlock

def bwrite (p : Pid) (i : Fin NBUF) : Kern Bio Unit := fun s =>
  if (s.cache.buf i).lock = some p then
    .ok ((), { s with disk := Function.update s.disk (s.cache.buf i).blockno (s.cache.buf i).data })
  else .error .bwrite

def brelse (p : Pid) (i : Fin NBUF) : Kern Bio Unit := fun s =>
  if (s.cache.buf i).lock = some p then
    .ok ((), { s with cache := (s.cache.releasesleep i).unref i })
  else .error .brelse

/-- What `log.c` calls, run by process `p`. -/
def ops (p : Pid) : BufOps Bio (Fin NBUF) where
  bread := bread p
  data i := fun s => .ok ((s.cache.buf i).data, s)
  setData i d := fun s => .ok ((), { s with cache := s.cache.setData i d })
  bwrite := bwrite p
  brelse := brelse p
  bunpin i := fun s => .ok ((), { s with cache := s.cache.bunpin i })

/-! ## Counting references -/

/-- All references there are, as the `uint` counters add up. -/
def refs (s : Bio) : ZMod (2 ^ 32) := ∑ i, ((s.cache.buf i).refcnt : ZMod (2 ^ 32))

theorem cast_uintInc (n : ℕ) : (uintInc n : ZMod (2 ^ 32)) = n + 1 := by
  rw [uintInc, ZMod.natCast_mod, Nat.cast_add, Nat.cast_one]

theorem cast_uintDec (n : ℕ) : (uintDec n : ZMod (2 ^ 32)) = n - 1 := by
  rw [uintDec, ZMod.natCast_mod, Nat.cast_sub (by omega), Nat.cast_add, ZMod.natCast_self,
    Nat.cast_one, add_zero]

theorem refs_set (s : Bio) (i : Fin NBUF) (u : Buf) (d : Disk) :
    refs ⟨s.cache.set i u, d⟩ = s.refs + (u.refcnt - (s.cache.buf i).refcnt) := by
  have hrest : ∀ j ∈ Finset.univ.erase i, (((s.cache.set i u).buf j).refcnt : ZMod (2 ^ 32)) =
      (s.cache.buf j).refcnt := by
    intro j hj
    rw [Bcache.set_of_ne _ _ (Finset.ne_of_mem_erase hj)]
  unfold refs
  rw [← Finset.add_sum_erase _ _ (Finset.mem_univ i),
    ← Finset.add_sum_erase (f := fun j => ((s.cache.buf j).refcnt : ZMod (2 ^ 32))) _
      (Finset.mem_univ i), Finset.sum_congr rfl hrest, Bcache.set_self]
  ring

theorem refs_bunpin (s : Bio) (i : Fin NBUF) (d : Disk) :
    refs ⟨s.cache.bunpin i, d⟩ = s.refs - 1 := by
  rw [Bcache.bunpin, refs_set, cast_uintDec]
  ring

variable {p : Pid} {r : ZMod (2 ^ 32)}

/-! A function that returns has added its references to those there
were. -/

theorem refs_bread (dev b : ℕ) : Hoare (fun s => s.refs = r) ((ops p).bread dev b)
    (fun _ s => s.refs = r + 1) fun _ => True := by
  refine ⟨?_, fun _ _ => trivial⟩
  rintro s i s' rfl hrun
  change bread p dev b s = _ at hrun
  unfold bread at hrun
  split at hrun
  · cases hrun
  · rename_i j c hb
    split at hrun <;> cases hrun
    have hget : refs ⟨c, s.disk⟩ = s.refs + 1 := by
      rcases Bcache.bget_cases hb with ⟨-, -, rfl⟩ | ⟨-, h0, rfl⟩
      · rw [refs_set, cast_uintInc]
        ring
      · rw [refs_set, h0]
        simp
    have hlock : refs ⟨c.acquiresleep i p, s.disk⟩ = refs ⟨c, s.disk⟩ := by
      rw [Bcache.acquiresleep, refs_set ⟨c, s.disk⟩, sub_self, add_zero]
    rw [← hget, ← hlock]
    unfold Bcache.fill
    split
    · rfl
    · rw [refs_set ⟨c.acquiresleep i p, s.disk⟩, sub_self, add_zero]

theorem refs_data (i : Fin NBUF) : Hoare (fun s => s.refs = r) ((ops p).data i)
    (fun _ s => s.refs = r) fun _ => True := by
  refine ⟨fun hs hrun => ?_, fun _ _ => trivial⟩
  cases hrun
  exact hs

theorem refs_setData (i : Fin NBUF) (d : Block) : Hoare (fun s => s.refs = r)
    ((ops p).setData i d) (fun _ s => s.refs = r) fun _ => True := by
  refine ⟨fun hs hrun => ?_, fun _ _ => trivial⟩
  cases hrun
  rw [Bcache.setData, refs_set, sub_self, add_zero, hs]

theorem refs_bwrite (i : Fin NBUF) : Hoare (fun s => s.refs = r) ((ops p).bwrite i)
    (fun _ s => s.refs = r) fun _ => True := by
  refine ⟨fun {s _ _} hs hrun => ?_, fun _ _ => trivial⟩
  change bwrite p i s = _ at hrun
  unfold bwrite at hrun
  split at hrun <;> cases hrun
  exact hs

theorem refs_drop (i : Fin NBUF) : Hoare (fun s => s.refs = r) ((ops p).bunpin i)
    (fun _ s => s.refs = r - 1) fun _ => True := by
  refine ⟨fun hs hrun => ?_, fun _ _ => trivial⟩
  cases hrun
  rw [refs_bunpin, hs]

theorem refs_brelse (i : Fin NBUF) : Hoare (fun s => s.refs = r) ((ops p).brelse i)
    (fun _ s => s.refs = r - 1) fun _ => True := by
  refine ⟨fun {s _ _} hs hrun => ?_, fun _ _ => trivial⟩
  change brelse p i s = _ at hrun
  unfold brelse at hrun
  split at hrun <;> cases hrun
  have hbuf : refs ⟨(s.cache.releasesleep i).unref i, s.disk⟩ =
      refs ⟨(s.cache.releasesleep i).bunpin i, s.disk⟩ := by
    simp only [refs, Bcache.unref_buf]
  rw [hbuf, refs_bunpin ⟨s.cache.releasesleep i, s.disk⟩, Bcache.releasesleep, refs_set, sub_self,
    add_zero, hs]

/-- **One reference is lost for every block installed.** -/
theorem refs_installBlock (log : Log) (tail : ℕ) : Hoare (fun s => s.refs = r)
    (Log.installBlock (ops p) log tail) (fun _ s => s.refs = r - 1) fun _ => True := by
  unfold Log.installBlock
  refine (refs_bread ..).bind fun lbuf => (refs_bread ..).bind fun dbuf => (refs_data _).bind fun _ =>
    (refs_setData ..).bind fun _ => (refs_bwrite _).bind fun _ => (refs_drop _).bind fun _ =>
    (refs_brelse _).bind fun _ => (refs_brelse _).conseq (fun _ hs => hs) fun _ s hs => ?_
  rw [hs]
  ring

theorem refs_installTrans (log : Log) : Hoare (fun s => s.refs = r)
    (Log.installTrans (ops p) log) (fun _ s => s.refs = r - log.lh.n) fun _ => True := by
  have hloop := Hoare.forM_range (I := fun k (s : Bio) => s.refs = r - (k : ZMod (2 ^ 32)))
    (E := fun _ => True) (n := log.lh.n) fun k _ =>
      (refs_installBlock (p := p) log k).conseq (fun _ hs => hs) fun _ s hs => by
        rw [hs, Nat.cast_succ]
        ring
  exact hloop.conseq (fun s hs => by rw [hs, Nat.cast_zero, sub_zero]) fun _ s hs => hs

theorem refs_writeHead (log : Log) : Hoare (fun s => s.refs = r) (Log.writeHead (ops p) log)
    (fun _ s => s.refs = r) fun _ => True :=
  (refs_bread ..).bind fun _ => (refs_data _).bind fun _ => (refs_setData ..).bind fun _ =>
    (refs_bwrite _).bind fun _ => (refs_brelse _).conseq (fun _ hs => hs) fun _ s hs => by
      rw [hs]
      ring

end Bio

/-! ## A cache nobody uses -/

namespace Bcache

/-- Nobody holds a buffer or refers to one. -/
structure Quiet (c : Bcache) : Prop where
  linked : c.Linked
  refcnt : ∀ i, (c.buf i).refcnt = 0
  lock : ∀ i, (c.buf i).lock = none

/-- A valid buffer has what is on the disk. -/
def Current (c : Bcache) (d : Disk) : Prop :=
  ∀ i, (c.buf i).valid = true → (c.buf i).data = d (c.buf i).blockno

/-- Process `p` holds buffer `i`, and that is all. -/
structure Lone (c : Bcache) (p : Pid) (i : Fin NBUF) : Prop where
  linked : c.Linked
  refcnt : (c.buf i).refcnt = 1
  lock : (c.buf i).lock = some p
  others : ∀ j, j ≠ i → (c.buf j).refcnt = 0 ∧ (c.buf j).lock = none

theorem binit_quiet : binit.Quiet := ⟨binit_linked, fun _ => rfl, fun _ => rfl⟩

theorem binit_current (d : Disk) : binit.Current d := nofun

variable {c c' : Bcache} {p : Pid} {i : Fin NBUF} {d : Disk}

theorem Current.set (h : c.Current d) {u : Buf} (hu : u.valid = true → u.data = d u.blockno) :
    (c.set i u).Current d := by
  intro j hj
  by_cases hji : j = i
  · subst hji
    rw [set_self] at hj ⊢
    exact hu hj
  · rw [set_of_ne _ _ hji] at hj ⊢
    exact h j hj

theorem Current.bget (h : c.Current d) {dev b : ℕ} (hb : c.bget dev b = .ok (i, c')) :
    c'.Current d := by
  rcases bget_cases hb with ⟨-, -, rfl⟩ | ⟨-, -, rfl⟩
  · exact h.set (h i)
  · exact h.set nofun

/-- A buffer filled from the disk has what is there. -/
theorem Current.fill (h : c.Current d) : (c.fill i d).Current d ∧
    ((c.fill i d).buf i).data = d (c.buf i).blockno := by
  unfold Bcache.fill
  split
  · exact ⟨h, h i ‹_›⟩
  · exact ⟨h.set fun _ => rfl, by rw [set_self]⟩

theorem Current.unref (h : c.Current d) : ((c.releasesleep i).unref i).Current d := by
  have hrel : (c.releasesleep i).Current d := h.set (h i)
  have hdrop : ((c.releasesleep i).bunpin i).Current d := hrel.set (hrel i)
  unfold Current
  rw [unref_buf]
  exact hdrop

/-- Replacing the buffer by one that is locked and counted the same. -/
theorem Lone.set (h : c.Lone p i) {u : Buf} (hr : u.refcnt = 1) (hl : u.lock = some p) :
    (c.set i u).Lone p i := by
  refine ⟨h.linked.set i u, by rw [set_self, hr], by rw [set_self, hl], fun j hj => ?_⟩
  rw [set_of_ne _ _ hj]
  exact h.others j hj

/-- Somebody finds a buffer in a quiet cache. -/
theorem Quiet.bget (h : c.Quiet) (dev b : ℕ) : ∃ i c', c.bget dev b = .ok (i, c') := by
  unfold Bcache.bget
  split
  · exact ⟨_, _, rfl⟩
  · split
    · exact ⟨_, _, rfl⟩
    · rename_i hnone
      exact absurd (h.refcnt 0) (h.linked.unused_eq_none hnone 0)

/-- What they find is theirs alone once they have locked it. -/
theorem Quiet.acquiresleep (h : c.Quiet) {dev b : ℕ}
    (hb : c.bget dev b = .ok (i, c')) : (c'.buf i).lock = none ∧ (c'.buf i).blockno = b ∧
      (c'.acquiresleep i p).Lone p i := by
  rcases bget_cases hb with ⟨-, hno, rfl⟩ | ⟨-, -, rfl⟩
  · refine ⟨by rw [set_self]; exact h.lock i, by rw [set_self, hno],
      ⟨h.linked, ?_, ?_, fun j hj => ?_⟩⟩
    · simp [Bcache.acquiresleep, uintInc, h.refcnt]
    · simp [Bcache.acquiresleep]
    · simp [Bcache.acquiresleep, set_of_ne, hj, h.refcnt, h.lock]
  · refine ⟨by rw [set_self]; exact h.lock i, by rw [set_self],
      ⟨h.linked, ?_, ?_, fun j hj => ?_⟩⟩
    · simp [Bcache.acquiresleep]
    · simp [Bcache.acquiresleep]
    · simp [Bcache.acquiresleep, set_of_ne, hj, h.refcnt, h.lock]

theorem Lone.fill (h : c.Lone p i) (d : Disk) : (c.fill i d).Lone p i := by
  unfold Bcache.fill
  split
  · exact h
  · exact h.set h.refcnt h.lock

theorem Lone.unref (h : c.Lone p i) : ((c.releasesleep i).unref i).Quiet := by
  refine ⟨(h.linked.set i _).unref i, fun j => ?_, fun j => ?_⟩
  · rw [unref_buf]
    by_cases hj : j = i
    · subst hj
      simp [bunpin, releasesleep, h.refcnt, uintDec]
    · simp [bunpin, releasesleep, set_of_ne, hj, (h.others j hj).1]
  · rw [unref_buf]
    by_cases hj : j = i
    · subst hj
      simp [bunpin, releasesleep]
    · simp [bunpin, releasesleep, set_of_ne, hj, (h.others j hj).2]

end Bcache

namespace Bio

variable {p : Pid} {c : Bcache} {d : Disk}

theorem bread_of_quiet (h : c.Quiet) (dev b : ℕ) : ∃ i c', bread p dev b ⟨c, d⟩ = .ok (i, ⟨c', d⟩) ∧
    c'.Lone p i ∧ (c.Current d → c'.Current d ∧ (c'.buf i).data = d b) := by
  obtain ⟨i, c', hb⟩ := h.bget dev b
  obtain ⟨hlock, hno, hlone⟩ := h.acquiresleep (p := p) hb
  refine ⟨i, (c'.acquiresleep i p).fill i d, by simp only [bread, hb, hlock, if_true], hlone.fill d,
    fun hcur => ?_⟩
  have hheld : (c'.acquiresleep i p).Current d := (hcur.bget hb).set (hcur.bget hb i)
  have hfill := hheld.fill (i := i)
  rwa [Bcache.acquiresleep, Bcache.set_self, hno] at hfill

theorem brelse_of_lone {i : Fin NBUF} (h : c.Lone p i) :
    ∃ c', brelse p i ⟨c, d⟩ = .ok ((), ⟨c', d⟩) ∧ c'.Quiet ∧ (c.Current d → c'.Current d) :=
  ⟨_, by simp only [brelse, h.lock, if_true], h.unref, fun hcur => hcur.unref⟩

/-- `read_head` reads the header on the disk. -/
theorem readHead_of_quiet (log : Log) (h : c.Quiet) (hcur : c.Current d) :
    ∃ c', Log.readHead (ops p) log ⟨c, d⟩ =
      .ok ({ log with lh := log.lh.load (d log.start) }, ⟨c', d⟩) ∧ c'.Quiet := by
  obtain ⟨i, c₁, hread, hlone, hdata⟩ := bread_of_quiet (p := p) (d := d) h log.dev log.start
  obtain ⟨c₂, hrel, hquiet, -⟩ := brelse_of_lone (d := d) hlone
  refine ⟨c₂, ?_, hquiet⟩
  rw [← (hdata hcur).2]
  have hrun : Log.readHead (ops p) log ⟨c, d⟩ = (bread p log.dev log.start ⟨c, d⟩).bind fun x =>
      (brelse p x.1 x.2).bind fun y =>
        .ok ({ log with lh := log.lh.load (x.2.cache.buf x.1).data }, y.2) := rfl
  rw [hrun, hread]
  change (brelse p i ⟨c₁, d⟩).bind _ = _
  rw [hrel]
  rfl

theorem writeHead_of_quiet (log : Log) (h : c.Quiet) :
    ∃ s', Log.writeHead (ops p) log ⟨c, d⟩ = .ok ((), s') ∧ s'.cache.Quiet := by
  obtain ⟨i, c₁, hread, hlone, -⟩ := bread_of_quiet (p := p) (d := d) h log.dev log.start
  let c₂ := c₁.setData i (log.lh.store (c₁.buf i).data)
  have hlone₂ : c₂.Lone p i := hlone.set hlone.refcnt hlone.lock
  let d₂ := Function.update d (c₂.buf i).blockno (c₂.buf i).data
  have hwrite : bwrite p i ⟨c₂, d⟩ = .ok ((), ⟨c₂, d₂⟩) := by
    simp only [bwrite, hlone₂.lock, if_true]
    rfl
  obtain ⟨c₃, hrel, hquiet, -⟩ := brelse_of_lone (d := d₂) hlone₂
  refine ⟨⟨c₃, d₂⟩, ?_, hquiet⟩
  have hrun : Log.writeHead (ops p) log ⟨c, d⟩ = (bread p log.dev log.start ⟨c, d⟩).bind fun x =>
      (bwrite p x.1 ⟨x.2.cache.setData x.1 (log.lh.store (x.2.cache.buf x.1).data), x.2.disk⟩).bind
        fun y => brelse p x.1 y.2 := rfl
  rw [hrun, hread]
  change (bwrite p i ⟨c₂, d⟩).bind _ = _
  rw [hwrite]
  exact hrel

/-- **Recovery and the counters.** From a cache that nobody uses and any
disk with at most `LOGSIZE` blocks in its log, recovery returns with every
`refcnt` zero exactly when the log was empty. -/
theorem recoverFromLog_refcnt (p : Pid) (log : Log) (d : Disk) (hc : c.Quiet) (hcur : c.Current d)
    (hn : LogHeader.diskN (d log.start) ≤ LOGSIZE) :
    (∃ log' s', Log.recoverFromLog (ops p) log.reboot ⟨c, d⟩ = .ok (log', s') ∧
      ∀ i, (s'.cache.buf i).refcnt = 0) ↔ LogHeader.diskN (d log.start) = 0 := by
  obtain ⟨c', hread, hquiet⟩ := readHead_of_quiet (p := p) log.reboot hc hcur
  have hrun : Log.recoverFromLog (ops p) log.reboot ⟨c, d⟩ =
      (do
        Log.installTrans (ops p) (log.found d)
        Log.writeHead (ops p) (log.found d).clear
        return (log.found d).clear : Kern Bio Log) ⟨c', d⟩ := by
    have hbind : Log.recoverFromLog (ops p) log.reboot ⟨c, d⟩ =
        (Log.readHead (ops p) log.reboot ⟨c, d⟩).bind fun x =>
          (do
            Log.installTrans (ops p) x.1
            Log.writeHead (ops p) x.1.clear
            return x.1.clear : Kern Bio Log) x.2 := rfl
    rw [hbind, hread]
    rfl
  rw [hrun]
  constructor
  · rintro ⟨log', s', hok, hzero⟩
    have hstart : refs ⟨c', d⟩ = 0 := by simp [refs, hquiet.refcnt]
    have hend : s'.refs = 0 := by simp [refs, hzero]
    have htriple : Hoare (fun s => s.refs = 0)
        (do
          Log.installTrans (ops p) (log.found d)
          Log.writeHead (ops p) (log.found d).clear
          return (log.found d).clear : Kern Bio Log)
        (fun _ s => s.refs = 0 - ((log.found d).lh.n : ZMod (2 ^ 32))) fun _ => True :=
      (refs_installTrans _).bind fun _ => (refs_writeHead _).bind fun _ => .pure fun _ hs => hs
    have hlost := htriple.ok hstart hok
    rw [hend, Log.found_n, zero_sub, eq_comm, neg_eq_zero, ZMod.natCast_eq_zero_iff] at hlost
    simp only [LOGSIZE, MAXOPBLOCKS] at hn
    exact Nat.eq_zero_of_dvd_of_lt hlost (by omega)
  · intro h0
    obtain ⟨s', hwrite, hquiet'⟩ := writeHead_of_quiet (p := p) (d := d) (log.found d).clear hquiet
    refine ⟨(log.found d).clear, s', ?_, hquiet'.refcnt⟩
    have hinstall : Log.installTrans (ops p) (log.found d) = (pure () : Kern Bio Unit) := by
      rw [Log.installTrans, Log.found_n, h0]
      rfl
    rw [hinstall]
    change (Log.writeHead (ops p) (log.found d).clear ⟨c', d⟩).bind _ = _
    rw [hwrite]
    rfl

/-- A file system just made has nothing to recover; `readsb` has read its
superblock. -/
theorem recoverFromLog_refcnt_fresh : ∃ c, LogHeader.diskN ((fun _ => 0 : Block)) ≤ LOGSIZE ∧
    (do brelse 0 (← bread 0 ROOTDEV 1) : Kern Bio Unit) ⟨Bcache.binit, fun _ _ => 0⟩ =
      .ok ((), ⟨c, fun _ _ => 0⟩) ∧
    ∃ log' s', Log.recoverFromLog (ops 0) Log.mkfs.reboot ⟨c, fun _ _ => 0⟩ = .ok (log', s') ∧
      ∀ i, (s'.cache.buf i).refcnt = 0 := by
  obtain ⟨i, c₁, hread, hlone, hcur⟩ :=
    bread_of_quiet (p := 0) (d := fun _ _ => 0) Bcache.binit_quiet ROOTDEV 1
  obtain ⟨c, hrel, hquiet, hkept⟩ := brelse_of_lone (d := fun _ _ => 0) hlone
  have hc := hkept (hcur (Bcache.binit_current _)).1
  have hrun : (do brelse 0 (← bread 0 ROOTDEV 1) : Kern Bio Unit) ⟨Bcache.binit, fun _ _ => 0⟩ =
      .ok ((), ⟨c, fun _ _ => 0⟩) := by
    rw [Prog.bind_run, hread]
    exact hrel
  exact ⟨c, by decide, hrun,
    (recoverFromLog_refcnt 0 .mkfs (fun _ _ => 0) hquiet hc (by decide)).2 (by decide)⟩

/-- A disk whose log holds one block, number 45. -/
def oneLogged : Disk := fun b =>
  if b = Log.mkfs.start then LogHeader.store ⟨1, fun _ => 45⟩ fun _ => 0 else fun _ => 0

/-- **Recovery of a single block leaves a counter at -1**, and the next
process to read that block holds a buffer with `refcnt` zero, which `bget`
may give to another. -/
theorem recovery_loses_count : ∃ log' s i j s',
    Log.recoverFromLog (ops 0) Log.mkfs.reboot ⟨Bcache.binit, oneLogged⟩ = .ok (log', s) ∧
      (s.cache.buf i).refcnt = 2 ^ 32 - 1 ∧ bread 0 ROOTDEV 45 s = .ok (j, s') ∧
      (s'.cache.buf j).lock = some 0 ∧ (s'.cache.buf j).refcnt = 0 := by
  have hrecover : ((Log.recoverFromLog (ops 0) Log.mkfs.reboot ⟨Bcache.binit, oneLogged⟩).toOption.bind
      fun x => (bread 0 ROOTDEV 45 x.2).toOption.map fun y =>
        ((x.2.cache.buf 2).refcnt, (y.2.cache.buf y.1).lock, (y.2.cache.buf y.1).refcnt)) =
      some (2 ^ 32 - 1, some 0, 0) := by
    decide +kernel
  cases hrun : Log.recoverFromLog (ops 0) Log.mkfs.reboot ⟨Bcache.binit, oneLogged⟩ with
  | error e =>
    rw [hrun] at hrecover
    cases hrecover
  | ok x =>
    rw [hrun] at hrecover
    cases hread : bread 0 ROOTDEV 45 x.2 with
    | error e => simp [Except.toOption, hread] at hrecover
    | ok y =>
      simp only [Except.toOption, hread, Option.bind_some, Option.map_some, Option.some.injEq,
        Prod.mk.injEq] at hrecover
      exact ⟨x.1, x.2, 2, y.1, y.2, rfl, hrecover.1, hread, hrecover.2.1, hrecover.2.2⟩

end Bio

end Xv6
