import Xv6.Bio.Refs
/-!
# The cache and the log as a plain block store

`stored b` is what was last logged of block `b`. Every valid buffer of a
block outside the log area holds it, unless its holder is in the middle of
a change; so does the disk, for every block that is not waiting to be
written home; and those that are have a pinned buffer. So whatever is in
the cache and whatever the commit is doing, `bread` returns `stored b`.
-/

namespace Xv6

open Common Function List

namespace CommitAt

/-- Log entry `k` has been copied to its slot. -/
def Copied (k : ℕ) : CommitAt → Prop
  | logTo tail | logFrom tail _ | logCopy tail _ _ | logPut tail _ _ => k < tail
  | logDropFrom tail _ _ | logDropTo tail _ => k ≤ tail
  | _ => True

/-- The buffer of a log block that has been changed and not yet
written. -/
def Writing (i : Fin NBUF) : CommitAt → Prop
  | logPut _ buf _ | headPut _ buf => buf = i
  | _ => False

variable {log : Log} {c : CommitAt} {b k : ℕ} {i j : Fin NBUF}

theorem copied_got : (c.got i).Copied k ↔ c.Copied k := by cases c <;> exact Iff.rfl

theorem copied_dropped : c.dropped.Copied k ↔ c.Copied k := by
  cases c with
  | headDrop erase buf => cases erase <;> exact Iff.rfl
  | logDropTo tail buf => exact Nat.lt_succ_iff
  | _ => exact Iff.rfl

/-- A committer inside `bread` or about to call `brelse` is not between a
change and its write. -/
theorem not_writing_of_wants (h : c.wants log = some b) : ¬ c.Writing j := by
  cases c <;> first | exact id | cases h

theorem not_writing_of_drops (h : c.drops = some i) : ¬ c.Writing j := by
  cases c <;> first | exact id | cases h

theorem not_writing_got (h : c.wants log = some b) : ¬ (c.got i).Writing j := by
  cases c <;> first | exact id | cases h

theorem not_writing_dropped (h : c.drops = some i) : ¬ c.dropped.Writing j := by
  cases c with
  | headDrop erase buf => cases erase <;> exact id
  | _ => first | exact id | cases h

/-- What has been unpinned was written home before. -/
theorem written_of_unpinned (h : c.Unpinned k) : c.Written k := by
  cases c <;> first | exact h | exact Nat.le_of_lt h

end CommitAt

namespace BufSys

variable {s s' : BufSys} {p q : Pid} {i j : Fin NBUF} {b : ℕ}

/-- A block waiting to be written home is pinned. -/
theorem Hdr.mem_pins (h : s.Hdr) (hb : b ∈ s.pending) : b ∈ s.pins := by
  by_cases hnone : ∀ p, ¬ (s.job p).Committing
  · exact ((h.open_ hnone b).2).2 (((h.open_ hnone b).1).1 hb)
  · push Not at hnone
    obtain ⟨p, hp⟩ := hnone
    obtain ⟨c, hc⟩ := Job.committing_iff.1 hp
    obtain ⟨k, hk, hkb, hw⟩ := ((h.commit p c hc).pending b).1 hb
    exact ((h.commit p c hc).pins b).2 ⟨k, hk, hkb, fun hu => hw (CommitAt.written_of_unpinned hu)⟩

/-- With all logged blocks pinned, a buffer of none of them leaves room for
fewer than `NBUF`. -/
theorem Refs.room (h : s.Refs) (hh : s.Hdr) (hpins : ∀ b ∈ s.log.lh.blocks, b ∈ s.pins)
    (hi : ¬ ((s.cache.buf i).dev = s.log.dev ∧ (s.cache.buf i).blockno ∈ s.log.lh.blocks)) :
    s.log.lh.n < NBUF := by
  have hsub : s.log.lh.blocks.toFinset ⊆
      (Finset.univ.erase i).image fun j => (s.cache.buf j).blockno := by
    intro b hb
    have hb := mem_toFinset.1 hb
    obtain ⟨j, hd, hbj, -⟩ := h.pin b (hpins b hb)
    refine Finset.mem_image.2 ⟨j, Finset.mem_erase.2 ⟨?_, Finset.mem_univ _⟩, hbj⟩
    rintro rfl
    exact hi ⟨hd, hbj ▸ hb⟩
  have h1 := Finset.card_le_card hsub
  have h2 : s.log.lh.blocks.toFinset.card = s.log.lh.n := by
    rw [toFinset_card_of_nodup hh.nodup]
    simp [LogHeader.blocks]
  have h3 : ((Finset.univ.erase i).image fun j => (s.cache.buf j).blockno).card ≤
      (Finset.univ.erase i).card := Finset.card_image_le
  rw [Finset.card_erase_of_mem (Finset.mem_univ i), Finset.card_univ, Fintype.card_fin] at h3
  have h4 := h2 ▸ (h1.trans h3)
  simp only [NBUF, MAXOPBLOCKS] at h4 ⊢
  omega

/-- What is known of every state that is reached. -/
structure Sound (s : BufSys) : Prop where
  ctl : s.Ctl
  hdr : s.Hdr
  unique : s.Unique
  refs : s.Refs

theorem Sound.reachable (h : system.Reachable s) : s.Sound :=
  ⟨Ctl.reachable h, Hdr.reachable h, unique_of_reachable h, Refs.reachable h⟩

/-- Another buffer than one in hand is of another block. -/
theorem Sound.blockno_ne (h : s.Sound) (hlock : (s.cache.buf i).lock = some p)
    (hd : (s.cache.buf j).dev = s.log.dev) (hj : j ≠ i) :
    (s.cache.buf j).blockno ≠ (s.cache.buf i).blockno :=
  h.unique.blockno_ne h.hdr.dev (h.refs.dev_of_lock hlock) hd hj

/-- A step that changes no contents and no header. -/
structure Kept (s s' : BufSys) : Prop where
  buf : ∀ j, (s'.cache.buf j).valid → (s.cache.buf j).valid ∧
    (s'.cache.buf j).dev = (s.cache.buf j).dev ∧
    (s'.cache.buf j).blockno = (s.cache.buf j).blockno
  data : ∀ j, (s'.cache.buf j).data = (s.cache.buf j).data
  log : s.SameLog s'
  lh : s'.log.lh = s.log.lh
  disk : s'.disk = s.disk
  stored : s'.stored = s.stored
  pending : s'.pending = s.pending
  dirty : s'.dirty = s.dirty

namespace Kept

variable {c : Bcache} {log : Log} {io : Pid → Io} {job : Pid → Job} {pins : Finset ℕ}

/-- One buffer changes, and is the same if it is valid. -/
theorem of_set {u : Buf} (hc : c.buf = (s.cache.set i u).buf)
    (hu : u.valid → (s.cache.buf i).valid ∧ u.dev = (s.cache.buf i).dev ∧
      u.blockno = (s.cache.buf i).blockno) (hdata : u.data = (s.cache.buf i).data) :
    s.Kept { s with cache := c, io := io, job := job, pins := pins } := by
  refine ⟨fun j hv => ?_, fun j => ?_, ⟨rfl, rfl, rfl⟩, rfl, rfl, rfl, rfl, rfl⟩
  · dsimp only at hv ⊢
    rw [hc] at hv ⊢
    by_cases hj : j = i
    · subst hj
      rw [Bcache.set_self] at hv ⊢
      exact hu hv
    · rw [Bcache.set_of_ne _ _ hj] at hv ⊢
      exact ⟨hv, rfl, rfl⟩
  · dsimp only
    rw [hc]
    exact Bcache.set_eq Buf.data hdata j

theorem of_cache
    (hlog : log.dev = s.log.dev ∧ log.start = s.log.start ∧ log.size = s.log.size)
    (hlh : log.lh = s.log.lh) : s.Kept { s with log := log, io := io, job := job } :=
  ⟨fun _ hv => ⟨hv, rfl, rfl⟩, fun _ => rfl, hlog, hlh, rfl, rfl, rfl, rfl⟩

end Kept

/-- What a committer relies on, inside `bread` or `brelse` or not. -/
structure Relies (s : BufSys) (io : Io) (c : CommitAt) : Prop where
  slots : ∀ k, k < s.log.lh.n → c.Copied k →
    s.disk (s.log.start + k + 1) = s.stored (s.log.lh.block k)
  put : ∀ tail tbuf fbuf, c = .logPut tail tbuf fbuf →
    (s.cache.buf tbuf).data = s.stored (s.log.lh.block tail)
  room : s.log.lh.n < NBUF ∨ c = .logTo 0 ∧ io = .none

namespace Relies

variable {x x' : Io} {c c' : CommitAt}

theorem kept (h : s.Relies x c) (hkept : s.Kept s') : s'.Relies x c := by
  refine ⟨fun k hk hc => ?_, fun tail tbuf fbuf hc => ?_, by rw [hkept.lh]; exact h.room⟩
  · rw [hkept.lh] at hk ⊢
    rw [hkept.disk, hkept.stored, hkept.log.2.1]
    exact h.slots k hk hc
  · rw [hkept.data, hkept.stored, hkept.lh]
    exact h.put tail tbuf fbuf hc

/-- Elsewhere in `commit`, with no more copied and nothing to write. -/
theorem move (h : s.Relies x c) (hroom : s.log.lh.n < NBUF)
    (hcopied : ∀ k, k < s.log.lh.n → c'.Copied k → c.Copied k)
    (hput : ∀ tail tbuf fbuf, c' ≠ .logPut tail tbuf fbuf) : s.Relies x' c' :=
  ⟨fun k hk hc => h.slots k hk (hcopied k hk hc), fun tail tbuf fbuf hc =>
    absurd hc (hput tail tbuf fbuf), .inl hroom⟩

end Relies

/-- **What the buffers and the disk hold.** -/
structure Data (s : BufSys) : Prop where
  home : ∀ i, (s.cache.buf i).valid → (s.cache.buf i).dev = s.log.dev →
    ¬ s.log.InArea (s.cache.buf i).blockno → i ∉ s.dirty →
    (s.cache.buf i).data = s.stored (s.cache.buf i).blockno
  disk : ∀ b, ¬ s.log.InArea b → b ∉ s.pending → s.disk b = s.stored b
  area : ∀ i, (s.cache.buf i).valid → (s.cache.buf i).dev = s.log.dev →
    s.log.InArea (s.cache.buf i).blockno → (s.cache.buf i).data = s.disk (s.cache.buf i).blockno ∨
      ∃ p c, (s.cache.buf i).lock = some p ∧ s.job p = .commit c ∧ c.Writing i
  commit : ∀ p c, s.job p = .commit c → s.Relies (s.io p) c

namespace Data

theorem start (h : s.Start) : s.Data where
  home i hv hd _ _ := by rw [h.stored]; exact h.clean i hv hd
  disk b _ _ := by rw [h.stored]
  area i hv hd _ := .inl (h.clean i hv hd)
  commit p c hp := by simp [h.job] at hp

section

variable (h : s.Data)
include h

theorem panicked (e : Panic) : ({ s with panic := some e } : BufSys).Data :=
  ⟨h.home, h.disk, h.area, fun p c hp =>
    ⟨(h.commit p c hp).slots, (h.commit p c hp).put, (h.commit p c hp).room⟩⟩

/-- **A step of one process that changes no contents.** -/
theorem of_move (hkept : s.Kept s')
    (hother : ∀ q, q ≠ p → s'.job q = s.job q ∧ s'.io q = s.io q ∧
      ∀ j, (s.cache.buf j).lock = some q → (s'.cache.buf j).lock = some q)
    (hwriting : ∀ c j, s.job p = .commit c → c.Writing j → (s.cache.buf j).lock = some p →
      s'.job p = .commit c ∧ (s'.cache.buf j).lock = some p)
    (hcommit : ∀ c, s'.job p = .commit c → s.Relies (s'.io p) c) : s'.Data := by
  have harea : ∀ b, s'.log.InArea b ↔ s.log.InArea b := fun b => by
    simp only [Log.InArea, hkept.log.2.1, hkept.log.2.2]
  refine ⟨fun i hv hd ho hn => ?_, fun b hb hn => ?_, fun i hv hd ho => ?_, fun q c hq => ?_⟩
  · obtain ⟨h1, h2, h3⟩ := hkept.buf i hv
    rw [h2, hkept.log.1] at hd
    rw [h3, harea] at ho
    rw [h3, hkept.data, hkept.stored]
    exact h.home i h1 hd ho (by rwa [hkept.dirty] at hn)
  · rw [hkept.disk, hkept.stored]
    rw [harea] at hb
    exact h.disk b hb (by rwa [hkept.pending] at hn)
  · obtain ⟨h1, h2, h3⟩ := hkept.buf i hv
    rw [h2, hkept.log.1] at hd
    rw [h3, harea] at ho
    rw [h3, hkept.data, hkept.disk]
    refine (h.area i h1 hd ho).imp_right ?_
    rintro ⟨q, c, hl, hq, hw⟩
    by_cases hqp : q = p
    · subst hqp
      obtain ⟨hq', hl'⟩ := hwriting c i hq hw hl
      exact ⟨q, c, hl', hq', hw⟩
    · obtain ⟨hj, -, hlock⟩ := hother q hqp
      exact ⟨q, c, hlock i hl, hj.trans hq, hw⟩
  · by_cases hqp : q = p
    · subst hqp
      exact (hcommit c hq).kept hkept
    · obtain ⟨hj, hio, -⟩ := hother q hqp
      rw [hj] at hq
      rw [hio]
      exact (h.commit q c hq).kept hkept

/-! ### Steps inside `bread` and `brelse` -/

/-- When `bread` finds a buffer for the first slot of the log, the log is
shorter than the cache. -/
theorem room_bget (hs : s.Sound) {c : CommitAt}
    (hp : s.job p = .commit c) (hw : c.wants s.log = some b)
    (hi : (s.cache.buf i).blockno = b ∨ s.pinned i = 0) : s.log.lh.n < NBUF := by
  rcases (h.commit p c hp).room with hn | ⟨rfl, -⟩
  · exact hn
  have hpins : ∀ b ∈ s.log.lh.blocks, b ∈ s.pins := by
    intro b hb
    obtain ⟨k, hk, rfl⟩ := mem_map.1 hb
    exact ((hs.hdr.commit p _ hp).pins _).2 ⟨k, mem_range.1 hk, rfl, id⟩
  refine hs.refs.room hs.hdr hpins (i := i) ?_
  rintro ⟨hd, hb⟩
  rcases hi with hi | hi
  · refine hs.refs.home _ hb ?_
    simp only [CommitAt.wants] at hw
    split at hw <;> cases hw
    have := hs.hdr.size
    simp only [LOGSIZE, MAXOPBLOCKS] at this
    rw [hi, Log.InArea]
    omega
  · simp only [pinned, hd, hpins _ hb, and_self, if_true, one_ne_zero] at hi

/-- A process that waits for a buffer or leaves it, with every lock as it
was. -/
theorem of_io (hkept : s.Kept s') (hjob : s'.job = s.job)
    (hio : ∀ q, q ≠ p → s'.io q = s.io q)
    (hlock : ∀ j q, (s.cache.buf j).lock = some q → (s'.cache.buf j).lock = some q)
    (hroom : ∀ c, s.job p = .commit c → s.log.lh.n < NBUF) : s'.Data := by
  refine h.of_move hkept (fun q hqp => ⟨by rw [hjob], hio q hqp, fun j => hlock j q⟩)
    (fun c j hp _ hl => ⟨by rw [hjob, hp], hlock j p hl⟩) fun c hp => ?_
  rw [hjob] at hp
  obtain ⟨hslots, hput, -⟩ := h.commit p c hp
  exact ⟨hslots, hput, .inl (hroom c hp)⟩

theorem hit (hs : s.Sound) (ha : s.Enabled (.bget p b))
    (hi : (s.cache.buf i).blockno = b) : (s.hit p i).Data :=
  h.of_io (.of_set rfl (fun hv => ⟨hv, rfl, rfl⟩) rfl) rfl (fun _ hqp => update_of_ne hqp ..)
    (fun j _ hq => (Bcache.same_bpin j).lock.trans hq) fun _ hp =>
      h.room_bget hs hp (Refs.wants_of_bget ha hp) (.inl hi)

theorem recycle (hs : s.Sound) (ha : s.Enabled (.bget p b))
    (h0 : (s.cache.buf i).refcnt = 0) : (s.recycle p b i).Data := by
  have hcount := hs.refs.count i
  refine h.of_io (.of_set rfl (fun hv => by cases hv) rfl) rfl (fun _ hqp => update_of_ne hqp ..)
    (fun j q hq => ?_) fun c hp =>
      h.room_bget hs hp (Refs.wants_of_bget ha hp) (i := i) (.inr (by omega))
  exact (Bcache.set_eq Buf.lock (by rfl) j).trans hq

theorem acquiresleep (ha : s.Enabled (.acquiresleep p i)) : (s.next (.acquiresleep p i)).Data := by
  obtain ⟨hio, hfree⟩ := ha
  refine h.of_io (.of_set rfl (fun hv => ⟨hv, rfl, rfl⟩) rfl) rfl (fun _ hqp => update_of_ne hqp ..)
    (fun j q hq => ?_) fun c hp => (h.commit p c hp).room.resolve_right (by simp [hio])
  have hj : j ≠ i := by
    rintro rfl
    rw [hfree] at hq
    cases hq
  exact (congrArg Buf.lock (Bcache.set_of_ne _ _ hj)).trans hq

theorem unref (ha : s.Enabled (.unref p i)) : (s.next (.unref p i)).Data := by
  have hio : s.io p = .unref i := ha
  exact h.of_io (.of_set (Bcache.unref_buf ..) (fun hv => ⟨hv, rfl, rfl⟩) rfl) rfl
    (fun _ hqp => update_of_ne hqp ..) (fun j _ hq => (Bcache.same_unref j).lock.trans hq)
    fun c hp => (h.commit p c hp).room.resolve_right (by simp [hio])

theorem releasesleep (ha : s.Enabled (.releasesleep p i))
    (hlock : (s.cache.buf i).lock = some p) : (s.next (.releasesleep p i)).Data := by
  obtain ⟨hio, hcase⟩ := ha
  have hdrops : ∀ c, s.job p = .commit c → c.drops = some i := by
    intro c hp
    rcases hcase with ⟨hcl, -⟩ | ⟨c', hp', hd⟩
    · rw [hp] at hcl
      rcases hcl with hcl | hcl <;> cases hcl
    · rw [hp] at hp'
      cases hp'
      exact hd
  simp only [BufSys.next, hlock, if_true]
  refine h.of_move (p := p) (.of_set rfl (fun hv => ⟨hv, rfl, rfl⟩) rfl)
    (fun q hqp => ⟨update_of_ne hqp .., update_of_ne hqp .., fun j hq => ?_⟩)
    (fun c j hp hw => absurd hw (CommitAt.not_writing_of_drops (hdrops c hp))) fun c' hc' => ?_
  · have hj : j ≠ i := by
      rintro rfl
      rw [hlock] at hq
      cases hq
      exact hqp rfl
    exact (congrArg Buf.lock (Bcache.set_of_ne _ _ hj)).trans hq
  · simp only [setJob, update_self] at hc'
    cases hp : s.job p with
    | commit c =>
      rw [hp] at hc'
      cases hc'
      have hd := hdrops c hp
      refine (h.commit p c hp).move ((h.commit p c hp).room.resolve_right ?_)
        (fun k _ => CommitAt.copied_dropped.1) fun tail tbuf fbuf hput => ?_
      · rintro ⟨rfl, -⟩
        cases hd
      · exact CommitAt.not_writing_dropped (j := tbuf) hd (by rw [hput]; rfl)
    | _ => rw [hp] at hc'; cases hc'

/-- `bread` reads the disk for a block that is not waiting to be written
home: the buffer of one that is would be pinned, and valid. -/
theorem fill (hs : s.Sound) (ha : s.Enabled (.fill p i)) : (s.next (.fill p i)).Data := by
  have hio : s.io p = .filling i := ha
  have hlock := ((hs.refs.process p).filling i hio).1
  have hdev := hs.refs.dev_of_lock hlock
  have hwants : ∀ c, s.job p = .commit c → c.wants s.log = some (s.cache.buf i).blockno :=
    fun c hp => (hs.refs.process p).fetch c i hp (.inr hio)
  have hnot : ∀ c' tail tbuf fbuf, (s.job p).got i = .commit c' → c' ≠ .logPut tail tbuf fbuf := by
    rintro c' tail tbuf fbuf hc' rfl
    cases hp : s.job p with
    | commit c =>
      rw [hp, Job.got, Job.commit.injEq] at hc'
      exact CommitAt.not_writing_got (i := i) (j := tbuf) (hwants c hp) (by rw [hc']; rfl)
    | _ => rw [hp] at hc'; cases hc'
  -- first the process moves on, then the contents arrive
  have hmoved : ((s.setIo p .none).setJob p ((s.job p).got i)).Data := by
    refine h.of_move (p := p) (.of_cache ⟨rfl, rfl, rfl⟩ rfl)
      (fun q hqp => ⟨update_of_ne hqp .., update_of_ne hqp .., fun _ => id⟩)
      (fun c j hp hw => absurd hw (CommitAt.not_writing_of_wants (hwants c hp))) fun c' hc' => ?_
    simp only [setJob, update_self] at hc'
    cases hp : s.job p with
    | commit c =>
      have hput := hnot c'
      rw [hp] at hc' hput
      cases hc'
      exact (h.commit p c hp).move ((h.commit p c hp).room.resolve_right (by simp [hio]))
        (fun k _ => CommitAt.copied_got.1) fun tail tbuf fbuf => hput tail tbuf fbuf rfl
    | _ => rw [hp] at hc'; cases hc'
  by_cases hv : (s.cache.buf i).valid
  · simpa [BufSys.next, Bcache.fill, hv, setIo, setJob] using hmoved
  have hdisk : ¬ s.log.InArea (s.cache.buf i).blockno →
      s.disk (s.cache.buf i).blockno = s.stored (s.cache.buf i).blockno := by
    intro hout
    refine h.disk _ hout fun hpend => hv ?_
    obtain ⟨j, hd, hb, hvj⟩ := hs.refs.pin _ (hs.hdr.mem_pins hpend)
    rwa [hs.unique j i (by rw [hd]; exact hs.hdr.dev) (by rw [hd, hdev]) hb] at hvj
  have hne : ∀ {j}, j ≠ i → ((s.next (.fill p i)).cache.buf j) = s.cache.buf j := fun hj => by
    simp [BufSys.next, setIo, setJob, Bcache.fill, hv, Bcache.set_of_ne, hj]
  have hself : (s.next (.fill p i)).cache.buf i =
      { s.cache.buf i with data := s.disk (s.cache.buf i).blockno, valid := true } := by
    simp [BufSys.next, setIo, setJob, Bcache.fill, hv]
  refine ⟨fun j hvj hd hout hn => ?_, hmoved.disk, fun j hvj hd hin => ?_, fun q c hq => ?_⟩
  · by_cases hj : j = i
    · subst hj
      rw [hself] at hout ⊢
      exact hdisk hout
    · rw [hne hj] at hvj hd hout ⊢
      exact h.home j hvj hd hout hn
  · by_cases hj : j = i
    · subst hj
      rw [hself]
      exact .inl rfl
    · rw [hne hj] at hvj hd hin ⊢
      exact hmoved.area j hvj hd hin
  · obtain ⟨hslots, hput, hroom⟩ := hmoved.commit q c hq
    refine ⟨hslots, fun tail tbuf fbuf hc => ?_, hroom⟩
    have hj : tbuf ≠ i := by
      rintro rfl
      subst hc
      -- the buffer to write is valid, and another's if not in hand
      by_cases hqp : q = p
      · subst hqp
        exact hnot _ tail tbuf fbuf (by simpa [BufSys.next, setJob] using hq) rfl
      · have hq' : s.job q = .commit (.logPut tail tbuf fbuf) := by
          simpa [BufSys.next, setIo, setJob, hqp] using hq
        exact hv (hs.refs.reg hq' tbuf _ (mem_cons_self ..)).2.2
    rw [hne hj]
    exact hput tail tbuf fbuf hc

/-! ### Steps of a client -/

/-- A process with no commit to do moving on, the contents as before. -/
theorem of_client {j : Job} (hkept : s.Kept s') (hcache : s'.cache = s.cache)
    (hjob : s'.job = update s.job p j) (hio : s'.io = s.io) (hp : ∀ c, s.job p ≠ .commit c)
    (hj : ∀ c, j = .commit c → s.Relies (s.io p) c) : s'.Data := by
  refine h.of_move (p := p) hkept (fun q hqp => ⟨by rw [hjob, update_of_ne hqp], by rw [hio], fun k => ?_⟩)
    (fun c _ hc => absurd hc (hp c)) fun c hc => ?_
  · rw [hcache]
    exact id
  · rw [hjob, update_self] at hc
    rw [hio]
    exact hj c hc

theorem modify (hc : s.Ctl) {d : Block} (ha : s.Enabled (.modify p i d)) :
    (s.next (.modify p i d)).Data := by
  obtain ⟨-, hp, -, hout⟩ := ha
  have hbusy : (s.job p).Busy := by simp [hp]
  have hnone := Ctl.ne_commit hc hbusy
  have hne : ∀ {j}, j ≠ i → (s.next (.modify p i d)).cache.buf j = s.cache.buf j :=
    Bcache.setData_of_ne
  refine ⟨fun j hv hd ho hn => ?_, h.disk, fun j hv hd hin => ?_, fun q c hq => absurd hq (hnone q c)⟩
  · have hj : j ≠ i := fun hj => hn (by rw [hj]; exact Finset.mem_insert_self ..)
    rw [hne hj] at hv hd ho ⊢
    exact h.home j hv hd ho fun hmem => hn (Finset.mem_insert_of_mem hmem)
  · by_cases hj : j = i
    · subst hj
      refine absurd ?_ hout
      simpa [BufSys.next, Bcache.setData] using hin
    · rw [hne hj] at hv hd hin ⊢
      exact h.area j hv hd hin

/-- What is logged is stored from then on. -/
theorem logWrite (hs : s.Sound) (ha : s.Enabled (.logWrite p i)) :
    (s.next (.logWrite p i)).Data := by
  obtain ⟨-, hp⟩ := ha
  obtain ⟨hlock, -⟩ := (hs.refs.process p).logging i hp
  have hbusy : (s.job p).Busy := by simp [hp]
  have hnone := Ctl.ne_commit hs.ctl hbusy
  simp only [BufSys.next]
  split
  · rename_i pin log hlog
    have hframe := Log.logWrite_frame hlog
    have hlogdev : log.dev = s.log.dev := by rw [hframe]
    have harea : ∀ b, log.InArea b ↔ s.log.InArea b := fun b => by
      rw [hframe]
      rfl
    have hbuf : ∀ j, (s.cache.buf j).Same ((if pin then s.cache.bpin i else s.cache).buf j) ∧
        ((if pin then s.cache.bpin i else s.cache).buf j).data = (s.cache.buf j).data := by
      intro j
      cases pin
      · exact ⟨⟨rfl, rfl, rfl, rfl⟩, rfl⟩
      · exact ⟨Bcache.same_bpin j, Bcache.data_bpin j⟩
    refine ⟨fun j hv hd ho hn => ?_, fun b hb hn => ?_, fun j hv hd hin => ?_, fun q c hq => ?_⟩
    · simp only [setJob] at hv hd ho hn ⊢
      rw [(hbuf j).1.valid] at hv
      rw [(hbuf j).1.dev, hlogdev] at hd
      rw [(hbuf j).1.blockno, harea] at ho
      rw [(hbuf j).1.blockno, (hbuf j).2]
      by_cases hj : j = i
      · subst hj
        rw [update_self]
      · rw [update_of_ne (hs.blockno_ne hlock hd hj)]
        exact h.home j hv hd ho fun hmem => hn (Finset.mem_erase.2 ⟨hj, hmem⟩)
    · simp only [setJob] at hb hn ⊢
      rw [harea] at hb
      rw [Finset.mem_insert, not_or] at hn
      rw [update_of_ne hn.1]
      exact h.disk b hb hn.2
    · simp only [setJob] at hv hd hin ⊢
      rw [(hbuf j).1.valid] at hv
      rw [(hbuf j).1.dev, hlogdev] at hd
      rw [(hbuf j).1.blockno, harea] at hin
      rw [(hbuf j).1.blockno, (hbuf j).2]
      refine .inl ((h.area j hv hd hin).resolve_right ?_)
      rintro ⟨q, c, -, hq, -⟩
      exact hnone q c hq
    · by_cases hqp : q = p
      · subst hqp
        simp [setJob] at hq
      · exact absurd (by simpa [setJob, hqp] using hq) (hnone q c)
  · exact h.panicked _

theorem endOp (hc : s.Ctl) (ha : s.Enabled (.endOp p)) : (s.next (.endOp p)).Data := by
  obtain ⟨hio, hp, -⟩ := ha
  have hbusy : (s.job p).Busy := by simp [hp]
  have hpc : ∀ c, s.job p ≠ .commit c := fun c => by rw [hp]; exact Job.noConfusion
  simp only [BufSys.next, Log.endOp_of_not_committing (Log.Control.not_committing hc hbusy)]
  by_cases h1 : s.log.outstanding = 1
  · simp only [h1, decide_true]
    refine h.of_client (.of_cache ⟨rfl, rfl, rfl⟩ rfl) rfl rfl rfl hpc fun c' hc' => ?_
    -- nothing is copied yet, or there is nothing to copy
    by_cases hn : s.log.lh.n > 0
    · simp only [hn, if_true, Job.commit.injEq] at hc'
      subst hc'
      exact ⟨fun k _ hk => absurd hk (Nat.not_lt_zero k), fun _ _ _ => CommitAt.noConfusion,
        .inr ⟨rfl, hio⟩⟩
    · simp only [hn, if_false, Job.commit.injEq] at hc'
      subst hc'
      have hn0 : s.log.lh.n = 0 := by omega
      exact ⟨fun k hk => by omega, fun _ _ _ => CommitAt.noConfusion,
        .inl (by simp [hn0, NBUF, MAXOPBLOCKS])⟩
  · simp only [h1, decide_false]
    exact h.of_client (.of_cache ⟨rfl, rfl, rfl⟩ rfl) rfl rfl rfl hpc fun c => Job.noConfusion

end

/-! ### Steps of the committer -/

section Commit

variable {c c' : CommitAt}

/-- Nothing is being changed while somebody commits. -/
theorem clean (hs : s.Sound) (hp : s.job p = .commit c) : i ∉ s.dirty := by
  intro hi
  obtain ⟨q, -, hbusy, -⟩ := hs.refs.dirty i hi
  exact Ctl.ne_commit hs.ctl hbusy p c hp

theorem room_commit (h : s.Data) (hp : s.job p = .commit c) (hwants : c.wants s.log = none) :
    s.log.lh.n < NBUF := by
  rcases (h.commit p c hp).room with hn | ⟨rfl, -⟩
  · exact hn
  · simp only [CommitAt.wants] at hwants
    split at hwants
    · cases hwants
    · simp only [NBUF, MAXOPBLOCKS]
      omega

theorem head_inArea (hh : s.Hdr) : s.log.InArea s.log.start := by
  have := hh.size
  simp only [LOGSIZE, MAXOPBLOCKS] at this
  rw [Log.InArea]
  omega

theorem slot_inArea (hh : s.Hdr) (hn : s.log.lh.n < NBUF) {k : ℕ} (hk : k < s.log.lh.n) :
    s.log.InArea (s.log.start + k + 1) := by
  have := hh.size
  simp only [NBUF, LOGSIZE, MAXOPBLOCKS] at this hn
  rw [Log.InArea]
  omega

theorem block_not_inArea (hr : s.Refs) {k : ℕ} (hk : k < s.log.lh.n) :
    ¬ s.log.InArea (s.log.lh.block k) :=
  hr.home _ (mem_map.2 ⟨k, mem_range.2 hk, rfl⟩)

/-- A step of the committer keeps the contents if it does so for what
others see and for what the committer relies on next. -/
theorem of_commit (hc : s.Ctl) (hp : s.job p = .commit c)
    (hjob : s'.job = update s.job p (.commit c'))
    (hhome : ∀ i, (s'.cache.buf i).valid → (s'.cache.buf i).dev = s'.log.dev →
      ¬ s'.log.InArea (s'.cache.buf i).blockno →
      (s'.cache.buf i).data = s'.stored (s'.cache.buf i).blockno)
    (hdisk : ∀ b, ¬ s'.log.InArea b → b ∉ s'.pending → s'.disk b = s'.stored b)
    (harea : ∀ i, (s'.cache.buf i).valid → (s'.cache.buf i).dev = s'.log.dev →
      s'.log.InArea (s'.cache.buf i).blockno →
      (s'.cache.buf i).data = s'.disk (s'.cache.buf i).blockno ∨
        (s'.cache.buf i).lock = some p ∧ c'.Writing i)
    (hcommit : s'.Relies (s'.io p) c') : s'.Data := by
  have hjobp : s'.job p = .commit c' := by rw [hjob, update_self]
  refine ⟨fun i hv hd ho _ => hhome i hv hd ho, hdisk, fun i hv hd hin => ?_, fun q c₁ hq => ?_⟩
  · refine (harea i hv hd hin).imp_right ?_
    rintro ⟨hl, hw⟩
    exact ⟨p, c', hl, hjobp, hw⟩
  · by_cases hqp : q = p
    · subst hqp
      rw [hjobp] at hq
      cases hq
      exact hcommit
    · rw [hjob, update_of_ne hqp] at hq
      exact absurd (Ctl.eq_of_commit hc hq hp) hqp

/-- What the committer finds in a buffer of the log area. -/
theorem area_commit (h : s.Data) (hc : s.Ctl) (hp : s.job p = .commit c)
    (hv : (s.cache.buf i).valid) (hd : (s.cache.buf i).dev = s.log.dev)
    (hin : s.log.InArea (s.cache.buf i).blockno) :
    (s.cache.buf i).data = s.disk (s.cache.buf i).blockno ∨ c.Writing i := by
  refine (h.area i hv hd hin).imp_right ?_
  rintro ⟨q, c₁, -, hq, hw⟩
  obtain rfl : q = p := Ctl.eq_of_commit hc hq hp
  rw [hp] at hq
  cases hq
  exact hw

/-- The committer moving on with the contents as they are. -/
theorem commit_quiet (h : s.Data) (hp : s.job p = .commit c) (hwants : c.wants s.log = none)
    (hw : ∀ i, ¬ c.Writing i) (hw' : ∀ tail tbuf fbuf, c' ≠ .logPut tail tbuf fbuf)
    (hcopied : ∀ k, k < s.log.lh.n → c'.Copied k → c.Copied k) :
    (s.setJob p (.commit c')).Data := by
  refine h.of_move (p := p) (.of_cache ⟨rfl, rfl, rfl⟩ rfl)
    (fun q hqp => ⟨update_of_ne hqp .., rfl, fun _ => id⟩) (fun c₁ j hc₁ hwj => ?_) fun c₁ hc₁ => ?_
  · rw [hp] at hc₁
    cases hc₁
    exact absurd hwj (hw j)
  · simp only [setJob, update_self, Job.commit.injEq] at hc₁
    subst hc₁
    exact (h.commit p c hp).move (h.room_commit hp hwants) hcopied hw'

/-- Filling a buffer in hand: one of the log area that is then to be
written, or another with what it is to hold. -/
theorem commit_store (h : s.Data) (hs : s.Sound) (hp : s.job p = .commit c)
    (hwants : c.wants s.log = none) {d : Block} (hw : ∀ i, ¬ c.Writing i)
    (hin : s.log.InArea (s.cache.buf i).blockno → (s.cache.buf i).lock = some p ∧ c'.Writing i)
    (hout : ¬ s.log.InArea (s.cache.buf i).blockno → d = s.stored (s.cache.buf i).blockno)
    (hcopied : ∀ k, k < s.log.lh.n → c'.Copied k → c.Copied k)
    (hput : ∀ tail tbuf fbuf, c' = .logPut tail tbuf fbuf →
      tbuf = i ∧ d = s.stored (s.log.lh.block tail)) :
    ({ s with cache := s.cache.setData i d }.setJob p (.commit c')).Data := by
  have hself := Bcache.setData_self s.cache i d
  refine of_commit hs.ctl hp rfl (fun j hv hd ho => ?_) h.disk (fun j hv hd hj => ?_)
    ⟨fun k hk hk' => (h.commit p c hp).slots k hk (hcopied k hk hk'), fun tail tbuf fbuf hc' => ?_,
      .inl (h.room_commit hp hwants)⟩
  · simp only [setJob] at hv hd ho ⊢
    by_cases hji : j = i
    · subst hji
      rw [hself] at ho ⊢
      exact hout ho
    · rw [Bcache.setData_of_ne hji] at hv hd ho ⊢
      exact h.home j hv hd ho (clean hs hp)
  · simp only [setJob] at hv hd hj ⊢
    by_cases hji : j = i
    · subst hji
      rw [hself] at hj ⊢
      exact .inr (hin hj)
    · rw [Bcache.setData_of_ne hji] at hv hd hj ⊢
      exact .inl ((h.area_commit hs.ctl hp hv hd hj).resolve_right (hw j))
  · obtain ⟨rfl, hd⟩ := hput tail tbuf fbuf hc'
    simp only [setJob, hself]
    exact hd

/-- Writing it. -/
theorem commit_write (h : s.Data) (hs : s.Sound) (hp : s.job p = .commit c)
    (hwants : c.wants s.log = none) (hlock : (s.cache.buf i).lock = some p)
    (hw : ∀ j, c.Writing j → j = i) (hw' : ∀ tail tbuf fbuf, c' ≠ .logPut tail tbuf fbuf)
    {pending : Finset ℕ} (hpending : ∀ b ∈ s.pending, b ≠ (s.cache.buf i).blockno → b ∈ pending)
    (hout : ¬ s.log.InArea (s.cache.buf i).blockno →
      (s.cache.buf i).blockno ∉ pending →
        (s.cache.buf i).data = s.stored (s.cache.buf i).blockno)
    (hslots : ∀ k, k < s.log.lh.n → c'.Copied k →
      update s.disk (s.cache.buf i).blockno (s.cache.buf i).data (s.log.start + k + 1) =
        s.stored (s.log.lh.block k)) :
    ({ s with disk := update s.disk (s.cache.buf i).blockno (s.cache.buf i).data,
              pending := pending }.setJob p (.commit c')).Data := by
  refine of_commit hs.ctl hp rfl (fun j hv hd ho => h.home j hv hd ho (clean hs hp))
    (fun b hb hn => ?_) (fun j hv hd hj => .inl ?_)
    ⟨hslots, fun tail tbuf fbuf hc' => absurd hc' (hw' tail tbuf fbuf),
      .inl (h.room_commit hp hwants)⟩
  · simp only [setJob] at hb hn ⊢
    by_cases hbi : b = (s.cache.buf i).blockno
    · subst hbi
      rw [update_self]
      exact hout hb hn
    · rw [update_of_ne hbi]
      exact h.disk b hb fun hpend => hn (hpending b hpend hbi)
  · simp only [setJob] at hv hd hj ⊢
    by_cases hji : j = i
    · subst hji
      rw [update_self]
    · rw [update_of_ne (hs.blockno_ne hlock hd hji)]
      exact (h.area_commit hs.ctl hp hv hd hj).resolve_right fun hwj => hji (hw j hwj)

theorem commit_step (h : s.Data) (hs : s.Sound) (ha : s.Enabled (.commit p c)) :
    (s.next (.commit p c)).Data := by
  obtain ⟨hio, hp, hwants, hdrops⟩ := ha
  have hroom := h.room_commit hp hwants
  have hrelies := h.commit p c hp
  cases c with
  | logTo tail =>
    refine h.commit_quiet hp hwants (fun _ => id) (fun _ _ _ => CommitAt.noConfusion) ?_
    intro k hk _
    simp only [CommitAt.wants] at hwants
    split at hwants
    · cases hwants
    · exact Nat.lt_of_lt_of_le hk (Nat.le_of_not_lt ‹_›)
  | logCopy tail tbuf fbuf =>
    have htail : tail < s.log.lh.n := (hs.hdr.commit p _ hp).tail
    obtain ⟨htl, htb, -⟩ := hs.refs.reg hp tbuf _ (mem_cons_self ..)
    obtain ⟨hfl, hfb, hfv⟩ := hs.refs.reg hp fbuf (s.log.lh.block tail) (by simp [CommitAt.holds])
    refine h.commit_store hs hp rfl (fun _ => id) (fun _ => ⟨htl, rfl⟩) (fun hout => absurd ?_ hout)
      (fun _ _ => id) ?_
    · rw [htb]
      exact slot_inArea hs.hdr hroom htail
    · rintro _ _ _ ⟨⟩
      refine ⟨rfl, ?_⟩
      rw [← hfb]
      exact h.home fbuf hfv (hs.refs.dev_of_lock hfl)
        (by rw [hfb]; exact block_not_inArea hs.refs htail) (clean hs hp)
  | logPut tail tbuf fbuf =>
    have htail : tail < s.log.lh.n := (hs.hdr.commit p _ hp).tail
    obtain ⟨htl, htb, -⟩ := hs.refs.reg hp tbuf _ (mem_cons_self ..)
    simp only [BufSys.next, commitEffect, bwrite, htl, if_true]
    refine h.commit_write hs hp rfl htl (fun j hj => hj.symm) (fun _ _ _ => CommitAt.noConfusion)
      (fun _ hb _ => hb) (fun hout => absurd ?_ hout) fun k hk hk' => ?_
    · rw [htb]
      exact slot_inArea hs.hdr hroom htail
    · rw [htb]
      by_cases hkt : k = tail
      · subst hkt
        rw [update_self]
        exact hrelies.put k tbuf fbuf rfl
      · rw [update_of_ne (by omega)]
        exact hrelies.slots k hk (Nat.lt_of_le_of_ne hk' hkt)
  | headStore erase buf =>
    obtain ⟨hl, hb, -⟩ := hs.refs.reg hp buf _ (mem_cons_self ..)
    refine h.commit_store hs hp rfl (fun _ => id) (fun _ => ⟨hl, rfl⟩) (fun hout => absurd ?_ hout)
      (fun _ _ => id) fun _ _ _ => CommitAt.noConfusion
    rw [hb]
    exact head_inArea hs.hdr
  | headPut erase buf =>
    obtain ⟨hl, hb, -⟩ := hs.refs.reg hp buf _ (mem_cons_self ..)
    simp only [BufSys.next, commitEffect, bwrite, hl, if_true]
    refine h.commit_write hs hp rfl hl (fun j hj => hj.symm) (fun _ _ _ => CommitAt.noConfusion)
      (fun _ hb _ => hb) (fun hout => absurd ?_ hout) fun k hk _ => ?_
    · rw [hb]
      exact head_inArea hs.hdr
    · rw [hb, update_of_ne (by omega)]
      exact hrelies.slots k hk trivial
  | instLog tail =>
    exact h.commit_quiet hp hwants (fun _ => id) (fun _ _ _ => CommitAt.noConfusion) fun _ _ => id
  | instCopy tail lbuf dbuf =>
    -- the buffer held what is in the slot
    have htail : tail < s.log.lh.n := (hs.hdr.commit p _ hp).tail
    obtain ⟨hll, hlb, hlv⟩ := hs.refs.reg hp lbuf _ (mem_cons_self ..)
    obtain ⟨-, hdb, -⟩ := hs.refs.reg hp dbuf (s.log.lh.block tail) (by simp [CommitAt.holds])
    refine h.commit_store hs hp rfl (fun _ => id) (fun hin => absurd hin ?_) (fun _ => ?_)
      (fun _ _ => id) fun _ _ _ => CommitAt.noConfusion
    · rw [hdb]
      exact block_not_inArea hs.refs htail
    · have hslot : s.log.InArea (s.cache.buf lbuf).blockno := by
        rw [hlb]
        exact slot_inArea hs.hdr hroom htail
      rw [(h.area_commit hs.ctl hp hlv (hs.refs.dev_of_lock hll) hslot).resolve_right id, hlb, hdb]
      exact hrelies.slots tail htail trivial
  | instPut tail lbuf dbuf =>
    have htail : tail < s.log.lh.n := (hs.hdr.commit p _ hp).tail
    obtain ⟨hdl, hdb, hdv⟩ := hs.refs.reg hp dbuf (s.log.lh.block tail) (by simp [CommitAt.holds])
    have hout := block_not_inArea hs.refs htail
    simp only [BufSys.next, commitEffect, bwrite, hdl, if_true]
    refine h.commit_write hs hp rfl hdl (fun _ => False.elim) (fun _ _ _ => CommitAt.noConfusion)
      (fun b hb hne => Finset.mem_erase.2 ⟨by rwa [← hdb], hb⟩) (fun ho _ => ?_) fun k hk _ => ?_
    · exact h.home dbuf hdv (hs.refs.dev_of_lock hdl) ho (clean hs hp)
    · have hslot := slot_inArea hs.hdr hroom hk
      rw [hdb, update_of_ne fun he => hout (by rwa [← he])]
      exact hrelies.slots k hk trivial
  | instUnpin tail lbuf dbuf =>
    have hmoved : (s.setJob p (.commit (.instDropLog tail lbuf dbuf))).Data :=
      h.commit_quiet hp rfl (fun _ => id) (fun _ _ _ => CommitAt.noConfusion) fun _ _ => id
    have hlock : ∀ j, ((s.cache.bunpin dbuf).buf j).lock = (s.cache.buf j).lock := fun j =>
      (Bcache.same_bunpin j).lock
    exact hmoved.of_move (p := p) (.of_set rfl (fun hv => ⟨hv, rfl, rfl⟩) rfl)
      (fun _ _ => ⟨rfl, rfl, fun j hl => (hlock j).trans hl⟩)
      (fun _ j hj _ hl => ⟨hj, (hlock j).trans hl⟩) (hmoved.commit p)
  | clear =>
    refine of_commit hs.ctl hp rfl (fun i hv hd ho => h.home i hv hd ho (clean hs hp)) h.disk
      (fun i hv hd hin => .inl ((h.area_commit hs.ctl hp hv hd hin).resolve_right id))
      ⟨fun k hk _ => absurd hk (Nat.not_lt_zero k), fun _ _ _ => CommitAt.noConfusion, .inl ?_⟩
    exact Nat.lt_of_le_of_lt (Nat.zero_le _) hroom
  | finish =>
    refine h.of_move (p := p) (.of_cache ⟨rfl, rfl, rfl⟩ rfl)
      (fun q hqp => ⟨update_of_ne hqp .., rfl, fun _ => id⟩) (fun c j hc hw => ?_) fun c hc => ?_
    · rw [hp] at hc
      cases hc
      exact hw.elim
    · simp only [BufSys.next, setJob, update_self] at hc
      cases hc
  | _ => first | (cases hwants; done) | cases hdrops

end Commit

/-- **The contents are kept by every step.** -/
theorem next (h : s.Data) (hs : s.Sound) {a : BufAct} (ha : s.Enabled a) : (s.next a).Data := by
  cases a with
  | bget p b =>
    rcases s.next_bget p b with ⟨i, -, hb, he⟩ | ⟨i, -, h0, he⟩ | ⟨e, he⟩ <;> rw [he]
    · exact h.hit hs ha hb
    · exact h.recycle hs ha h0
    · exact h.panicked e
  | acquiresleep p i => exact h.acquiresleep ha
  | fill p i => exact h.fill hs ha
  | releasesleep p i =>
    by_cases hlock : (s.cache.buf i).lock = some p
    · exact h.releasesleep ha hlock
    · simp only [BufSys.next, hlock, if_false]
      exact h.panicked _
  | unref p i => exact h.unref ha
  | beginOp p =>
    obtain ⟨-, hp, hsome⟩ := ha
    obtain ⟨log, hlog⟩ := Option.isSome_iff_exists.1 hsome
    obtain ⟨-, -, rfl⟩ := Log.beginOp_eq_some.1 hlog
    simp only [BufSys.next, hlog]
    exact h.of_client (.of_cache ⟨rfl, rfl, rfl⟩ rfl) rfl rfl rfl (by simp [hp])
      fun c => Job.noConfusion
  | modify p i d => exact h.modify hs.ctl ha
  | logCheck p i =>
    obtain ⟨-, hp, -⟩ := ha
    simp only [BufSys.next]
    split
    · exact h.of_client (.of_cache ⟨rfl, rfl, rfl⟩ rfl) rfl rfl rfl (by simp [hp])
        fun c => Job.noConfusion
    · exact h.panicked _
  | logWrite p i => exact h.logWrite hs ha
  | endOp p => exact h.endOp hs.ctl ha
  | commit p c => exact h.commit_step hs ha

theorem reachable (h : system.Reachable s) : s.Data :=
  h.invariant (fun _ => Data.start) fun s a s' hr hi hs => by
    obtain ⟨⟨-, ha⟩, rfl⟩ := hs
    exact hi.next (.reachable hr) ha

end Data

end BufSys

/-! ## The refinement -/

/-- What a user of a plain block store sees happen. -/
inductive StoreOp
  | read (b : ℕ) (d : Block)
  | write (b : ℕ) (d : Block)

/-- A plain block store returns what was last written, and is changed by
writes alone. -/
def StoreOp.Step (st st' : ℕ → Block) : Option StoreOp → Prop
  | none => st' = st
  | some (.read b d) => st b = d ∧ st' = st
  | some (.write b d) => st' = update st b d

namespace BufSys

variable {s : BufSys} {p q : Pid} {i j : Fin NBUF} {b : ℕ}

/-- The operation of the store a step is: `bread` returning a block
outside the log area, or `log_write`. -/
def storeOp (s : BufSys) : BufAct → Option StoreOp
  | .fill p i => if s.log.InArea (s.cache.buf i).blockno then none else
      some (.read (s.cache.buf i).blockno ((s.next (.fill p i)).cache.buf i).data)
  | .logWrite _ i => some (.write (s.cache.buf i).blockno (s.cache.buf i).data)
  | _ => none

/-- **The cache and the log are a block store.** -/
structure Refines (s : BufSys) : Prop where
  /-- Each step is one of the store's operations, or none. -/
  step : ∀ a, s.Enabled a → (s.next a).panic = none →
    StoreOp.Step s.stored (s.next a).stored (s.storeOp a)
  /-- `bread(dev, b)` reaches a buffer of that block, ... -/
  asked : ∀ p b, s.Enabled (.bget p b) → (s.next (.bget p b)).panic = none →
    ∃ i, (s.next (.bget p b)).io p = .locking i ∧
      ((s.next (.bget p b)).cache.buf i).dev = s.log.dev ∧
      ((s.next (.bget p b)).cache.buf i).blockno = b
  /-- ... which it stays one of while the process waits, whoever steps, ... -/
  kept : ∀ p i a, s.io p = .locking i ∨ s.io p = .filling i → s.Enabled a →
    ((s.next a).cache.buf i).dev = (s.cache.buf i).dev ∧
      ((s.next a).cache.buf i).blockno = (s.cache.buf i).blockno
  /-- ... and returns it locked and valid. -/
  returned : ∀ p i, s.Enabled (.fill p i) → ((s.next (.fill p i)).cache.buf i).lock = some p ∧
    ((s.next (.fill p i)).cache.buf i).valid
  unique : s.Unique
  /-- A buffer of a logged block goes to another block only after
  `install_trans` has written it home. -/
  recycled : ∀ a i k, s.Enabled a → (s.cache.buf i).dev = s.log.dev → k < s.log.lh.n →
    (s.cache.buf i).blockno = s.log.lh.block k →
    ((s.next a).cache.buf i).blockno ≠ s.log.lh.block k →
    (∃ p c, s.job p = .commit c ∧ c.Written k) ∧
      s.disk (s.log.lh.block k) = s.stored (s.log.lh.block k)
  ring : s.cache.Linked

/-- Only `log_write` changes what is stored. -/
theorem stored_next {a : BufAct} (h : ∀ p i, a ≠ .logWrite p i) : (s.next a).stored = s.stored := by
  cases a with
  | bget | releasesleep | beginOp | logCheck | endOp => simp only [next]; split <;> rfl
  | logWrite p i => exact absurd rfl (h p i)
  | commit p c => cases c <;> simp only [next, setJob, commitEffect, bwrite_stored]
  | _ => rfl

theorem fill_buf : ((s.next (.fill p i)).cache.buf i).lock = (s.cache.buf i).lock ∧
    ((s.next (.fill p i)).cache.buf i).valid ∧
    ((s.next (.fill p i)).cache.buf i).dev = (s.cache.buf i).dev ∧
    ((s.next (.fill p i)).cache.buf i).blockno = (s.cache.buf i).blockno := by
  simp only [next, setIo, setJob, Bcache.fill]
  split
  · exact ⟨rfl, ‹_›, rfl, rfl⟩
  · simp

/-- A buffer that changes hands had no references. -/
theorem refcnt_of_changed {a : BufAct} (h : ¬ (((s.next a).cache.buf i).dev = (s.cache.buf i).dev ∧
    ((s.next a).cache.buf i).blockno = (s.cache.buf i).blockno)) : (s.cache.buf i).refcnt = 0 := by
  rcases s.ident_next a with hsame | ⟨p, b, j, -, -, h0, he⟩
  · exact absurd (hsame i) h
  · by_cases hij : i = j
    · rwa [hij]
    · refine absurd ?_ h
      rw [he]
      simp [recycle, setIo, Bcache.set_of_ne, hij]

/-- A logged block whose buffer has no references has been written
home. -/
theorem Refs.written (hr : s.Refs) (hh : s.Hdr) {k : ℕ} (hk : k < s.log.lh.n)
    (hd : (s.cache.buf i).dev = s.log.dev) (hb : (s.cache.buf i).blockno = s.log.lh.block k)
    (h0 : (s.cache.buf i).refcnt = 0) :
    (∃ p c, s.job p = .commit c ∧ c.Written k) ∧ s.log.lh.block k ∉ s.pending := by
  have hpins : s.log.lh.block k ∉ s.pins := by
    intro hin
    have h1 := hr.count i
    have h2 : s.pinned i = 1 := if_pos ⟨hd, by rw [hb]; exact hin⟩
    omega
  have hmem : s.log.lh.block k ∈ s.log.lh.blocks := mem_map.2 ⟨k, mem_range.2 hk, rfl⟩
  by_cases hnone : ∀ p, ¬ (s.job p).Committing
  · exact absurd (((hh.open_ hnone _).2).2 hmem) hpins
  push Not at hnone
  obtain ⟨p, hp⟩ := hnone
  obtain ⟨c, hc⟩ := Job.committing_iff.1 hp
  have hw : c.Written k := by
    by_contra hw
    exact hpins (((hh.commit p c hc).pins _).2
      ⟨k, hk, rfl, fun hu => hw (CommitAt.written_of_unpinned hu)⟩)
  refine ⟨⟨p, c, hc, hw⟩, fun hpend => ?_⟩
  obtain ⟨k', hk', hkb, hw'⟩ := ((hh.commit p c hc).pending _).1 hpend
  rw [hh.block_inj hk' hk hkb] at hw'
  exact hw' hw

/-- **Whatever the processes do, the cache and the log together are a
plain block store.** -/
theorem refines_of_reachable (h : system.Reachable s) : s.Refines := by
  obtain ⟨hc, hh, hu, hr⟩ := Sound.reachable h
  have hdata := Data.reachable h
  refine ⟨fun a ha hnp => ?_, fun p b _ hnp => ?_, fun p i a hio _ => ?_, fun p i ha => ?_, hu,
    fun a i k _ hd hk hb hne => ?_, linked_of_reachable h⟩
  · cases a with
    | fill p i =>
      have hst := stored_next (s := s) (a := .fill p i) (fun _ _ => BufAct.noConfusion)
      simp only [storeOp]
      split
      · exact hst
      · rename_i hout
        obtain ⟨-, hv, hd, hb⟩ := fill_buf (s := s) (p := p) (i := i)
        have hio : s.io p = .filling i := ha
        have hdirty : i ∉ s.dirty := by
          intro hi
          obtain ⟨q, hl, -, hq, -⟩ := hr.dirty i hi
          rw [((hr.process p).filling i hio).1] at hl
          cases hl
          exact hq hio
        refine ⟨?_, hst⟩
        -- the buffer it returns is a valid buffer of the next state
        have := (hdata.next ⟨hc, hh, hu, hr⟩ ha).home i hv
          (by rw [hd, (log_next _).1]; exact hr.dev_of_lock (((hr.process p).filling i hio).1))
          (by rw [hb]; exact hout) hdirty
        rw [this, hb, hst]
    | logWrite p i =>
      simp only [next] at hnp ⊢
      split at hnp
      · rfl
      · cases hnp
    | _ => exact stored_next fun _ _ => BufAct.noConfusion
  · rcases s.next_bget p b with ⟨i, hd, hb, he⟩ | ⟨i, -, -, he⟩ | ⟨e, he⟩
    · rw [he]
      refine ⟨i, by simp [hit, setIo], ?_⟩
      exact ⟨(Bcache.same_bpin i).dev.trans hd, (Bcache.same_bpin i).blockno.trans hb⟩
    · rw [he]
      exact ⟨i, by simp [recycle, setIo], by simp [recycle, setIo], by simp [recycle, setIo]⟩
    · rw [he] at hnp
      cases hnp
  · by_contra hch
    have h0 := refcnt_of_changed hch
    rcases hio with hio | hio
    · exact hr.refcnt_of_io (.inl hio) h0
    · exact hr.refcnt_of_lock (((hr.process p).filling i hio).1) h0
  · obtain ⟨hl, hv, -⟩ := fill_buf (s := s) (p := p) (i := i)
    exact ⟨hl.trans (((hr.process p).filling i ha).1), hv⟩
  · have h0 : (s.cache.buf i).refcnt = 0 := refcnt_of_changed fun hsame => hne (hsame.2.trans hb)
    obtain ⟨hw, hpend⟩ := hr.written hh hk hd hb h0
    have hout := hr.home _ (mem_map.2 ⟨k, mem_range.2 hk, rfl⟩)
    exact ⟨hw, hdata.disk _ hout hpend⟩

/-- An operation that changes block 45 and commits it, at the point where
the block has been written home and its buffer unpinned. -/
theorem refines_of_reachable_install : ∃ s, system.Reachable s ∧ s.log.lh.n = 1 ∧
    s.pending = ∅ ∧ s.pins = ∅ ∧ s.Refines := by
  let read (b : ℕ) (i : Fin NBUF) : List BufAct := [.bget 0 b, .acquiresleep 0 i, .fill 0 i]
  let release (i : Fin NBUF) : List BufAct := [.releasesleep 0 i, .unref 0 i]
  let acts : List BufAct := [.beginOp 0] ++ read 45 0 ++ [.modify 0 0 fun _ => 7, .logCheck 0 0,
    .logWrite 0 0] ++ release 0 ++ [.endOp 0] ++ read 3 1 ++ read 45 0 ++
    [.commit 0 (.logCopy 0 1 0), .commit 0 (.logPut 0 1 0)] ++ release 0 ++ release 1 ++
    [.commit 0 (.logTo 1)] ++ read 2 2 ++ [.commit 0 (.headStore false 2),
    .commit 0 (.headPut false 2)] ++ release 2 ++ read 3 1 ++ read 45 0 ++
    [.commit 0 (.instCopy 0 1 0), .commit 0 (.instPut 0 1 0), .commit 0 (.instUnpin 0 1 0)]
  obtain ⟨s, hs, hn, hpend, hpins⟩ : ∃ s, system.Reachable s ∧ s.log.lh.n = 1 ∧
      s.pending = ∅ ∧ s.pins = ∅ :=
    System.exists_of_follow (fresh_start fun _ _ => 0) acts (by decide +kernel)
  exact ⟨s, hs, hn, hpend, hpins, refines_of_reachable hs⟩

end BufSys

end Xv6
