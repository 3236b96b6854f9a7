import Xv6.Fs.File
/-!
# A file offset shared by processes

Any number of processes have the same `struct file`, through `fork` or
`dup`. A step is what one of them does from `ilock` to `iunlock`: a chunk
of `filewrite`, or `fileread`; others work on the file system in between,
and may also change this file by another way. A log keeps what went
through the `struct file`, and where.
-/

namespace Xv6

open Common Function List

namespace Fs

/-- A call of `filewrite` under way. -/
structure Call where
  um : UserMem
  addr : ℕ
  n : ℕ
  i : ℕ

/-- A chunk written or a range read: where it starts, and its bytes. -/
structure Transfer where
  write : Bool
  off : ℕ
  data : List UInt8
  deriving DecidableEq

/-- The offset after a transfer. -/
def Transfer.last (x : Transfer) : ℕ := x.off + x.data.length

/-- The file system, the `struct file`, and the processes' calls. -/
structure Shared where
  fs : Fs
  file : File
  call : ℕ → Option Call
  /-- What was transferred, the last first. -/
  log : List Transfer
  /-- `f->off` at the beginning. -/
  start : ℕ
  /-- Nobody has changed the file in another way. -/
  alone : Bool

namespace Shared

/-- What the processes do. -/
inductive Step
  | enter (p : ℕ) (um : UserMem) (addr n : ℕ)
  | chunk (p : ℕ)
  | read (p : ℕ) (um : UserMem) (addr : ℕ) (n : ℤ)
  | other (a : Act)

section model

variable (sb : Superblock) (s : Shared)

/-- The contents of the file. -/
def contents : List UInt8 := s.fs.contents sb s.file.ip

/-- A chunk of the call of process `p`. -/
def chunk (p : ℕ) (c : Call) : Option Shared :=
  let n1 := min (c.n - c.i) maxChunk
  match writeChunk sb s.file c.um ((c.addr + c.i) % 2 ^ 64) n1 s.fs with
  | .error _ => none
  | .ok ((r, f), fs) =>
    if r < 0 then some { s with fs, file := f, call := update s.call p none }
    else if r ≠ n1 then none
    else some { s with
      fs
      file := f
      call := update s.call p (if c.i + n1 < c.n then some { c with i := c.i + n1 } else none)
      log := ⟨true, s.file.off, userBytes c.um (c.addr + c.i) n1⟩ :: s.log }

/-- A call of `fileread`. -/
def read (um : UserMem) (addr : ℕ) (n : ℤ) : Option Shared :=
  match fileread sb s.file um addr n s.fs with
  | .error _ => none
  | .ok ((r, f, dst), fs) => some { s with
      fs
      file := f
      log := ⟨false, s.file.off, (List.range r.toNat).map fun i => (dst.byte i).getD 0⟩ :: s.log }

/-- An operation of somebody else, that does not take the reference the
`struct file` has. -/
def other (a : Act) : Option Shared :=
  match a.run sb s.fs with
  | .error _ => none
  | .ok (_, fs) =>
    if 0 < (fs.inode s.file.ip).ref ∧ (fs.inode s.file.ip).valid = true then
      some { s with
        fs
        alone := s.alone && decide (fs.contents sb s.file.ip = s.fs.contents sb s.file.ip) }
    else none

/-- The length a read is going to have. -/
def readSize (n : ℤ) : ℕ :=
  readLength (s.fs.inode s.file.ip).size s.file.off (n % 2 ^ 32).toNat

/-- A step, if the kernel does not stop in it. The buffers are valid. -/
def Step.run : Step → Option Shared
  | .enter p um addr n =>
    if s.file.writable = true ∧ (s.call p).isNone = true ∧ um.readable addr n = n then
      some { s with call := update s.call p (if n = 0 then none else some ⟨um, addr, n, 0⟩) }
    else none
  | .chunk p =>
    match s.call p with
    | none => none
    | some c => s.chunk sb p c
  | .read p um addr n =>
    if s.file.readable = true ∧ (s.call p).isNone = true ∧
        um.readable addr (s.readSize n) = s.readSize n then s.read sb um addr n
    else none
  | .other a => if Enabled sb s.fs a then s.other sb a else none

/-- A consistent file system, and a file that is open. -/
structure Init : Prop where
  consistent : Consistent sb s.fs
  live : s.fs.Live s.file.ip
  off : s.file.off < 2 ^ 32
  start : s.start = s.file.off
  call : ∀ p, s.call p = none
  log : s.log = []

/-- Any number of processes, in any order. -/
def system : System Shared Step :=
  System.guarded (Init sb) (fun s a => (a.run sb s).isSome = true)
    (fun s a => (a.run sb s).getD s)

end model

variable {sb : Superblock} {s s' : Shared} {um : UserMem} {addr : ℕ} {l : List Transfer}
  {start off : ℕ}

/-! ## Intervals side by side -/

/-- **The intervals are consecutive**, from `start` to `off`, the last
first. -/
def Laid (start : ℕ) : List Transfer → ℕ → Prop
  | [], off => off = start
  | x :: l, off => off = x.last ∧ Laid start l x.off

/-- Together they are as long as the offset has moved. -/
theorem Laid.total (h : Laid start l off) : off = start + (l.map fun x => x.data.length).sum := by
  induction l generalizing off with
  | nil => simpa [Laid] using h
  | cons x l ih =>
    obtain ⟨rfl, hl⟩ := h
    have := ih hl
    simp only [map_cons, sum_cons, Transfer.last]
    omega

theorem Laid.last_le (h : Laid start l off) : ∀ x ∈ l, x.last ≤ off := by
  induction l generalizing off with
  | nil =>
    intro x hx
    cases hx
  | cons y l ih =>
    obtain ⟨rfl, hl⟩ := h
    intro x hx
    rcases mem_cons.1 hx with rfl | hx
    · exact le_rfl
    · exact (ih hl x hx).trans (Nat.le_add_right ..)

/-- **No two of them overlap.** -/
theorem Laid.disjoint (h : Laid start l off) : l.Pairwise fun x y => y.last ≤ x.off := by
  induction l generalizing off with
  | nil => exact .nil
  | cons x l ih =>
    obtain ⟨-, hl⟩ := h
    exact .cons (fun y hy => hl.last_le y hy) (ih hl)

/-! ## One step -/

variable (sb) in
/-- The bytes of a transfer are in the file. -/
def Holds (s : Shared) (x : Transfer) : Prop :=
  ∀ i, i < x.data.length → (s.contents sb)[x.off + i]? = x.data[i]?

variable (sb) in
/-- What holds in every state. -/
structure Inv (s : Shared) : Prop where
  consistent : Consistent sb s.fs
  live : s.fs.Live s.file.ip
  off : s.file.off < 2 ^ 32
  call : ∀ p c, s.call p = some c → c.i ≤ c.n ∧ c.um.readable c.addr c.n = c.n
  laid : Laid s.start s.log s.file.off
  holds : s.alone = true → ∀ x ∈ s.log, x.write = true → Holds sb s x

variable (sb) in
/-- **What a step does** to the file and its offset: nothing goes through
the `struct file`, or one transfer, from the offset on. -/
def Moves (s s' : Shared) (a : Step) : Prop :=
  s'.log = s.log ∧ s'.file = s.file ∧
      ((∀ b, a ≠ .other b) → s'.contents sb = s.contents sb) ∨
    ∃ x : Transfer, s'.log = x :: s.log ∧ x.off = s.file.off ∧ s'.file.off = x.last ∧
      if x.write = true then s'.contents sb = patch (s.contents sb) x.off x.data
      else s'.contents sb = s.contents sb ∧
        x.data = ((s.contents sb).drop x.off).take x.data.length

/-- **`fileread`** into memory that is there. -/
theorem fileread_spec {fs : Fs} {f : File} {n : ℤ} {m : ℕ} {E : Panic → Prop}
    (h : Consistent sb fs) (hl : fs.Live f.ip) (hr : f.readable = true)
    (hm : readLength (fs.inode f.ip).size f.off (n % 2 ^ 32).toNat = m)
    (hw : um.readable addr m = m) :
    Hoare (· = fs) (fileread sb f um addr n)
      (fun r t => r.1 = m ∧ r.2.1 = { f with off := f.off + m } ∧
        (Dest.user um addr).Filled r.2.2 m (fun i => fs.fileByte sb f.ip (f.off + i)) ∧
        Peeked fs t) E := by
  unfold fileread
  rw [if_neg (by simp [hr])]
  refine .run_eq ?_ (ilock_live hl _)
  have hwr : (Dest.user um addr).Writable m := fun i hi =>
    UserMem.byteAt_of_lt_readable (by rw [hw]; exact hi)
  have hreads := readiTo_reads (E := E) h hl (by omega : (n % 2 ^ 32).toNat < 2 ^ 32) (hm ▸ hwr)
  rw [hm] at hreads
  refine hreads.bind fun r => .pure ?_
  rintro t ⟨hlen, hfill, hpeek⟩
  refine ⟨by rw [hlen], ?_, hfill, hpeek⟩
  have hmax := (h.dense_live hl).size_le
  have hle : m = 0 ∨ f.off + m ≤ (fs.inode f.ip).size := by
    rw [← hm]
    unfold readLength
    split <;> omega
  simp only [MAXFILE, NDIRECT, NINDIRECT, BSIZE] at hmax
  rw [hlen, advance]
  split
  · rw [Int.toNat_natCast, Nat.mod_eq_of_lt (by omega)]
  · rw [show m = 0 by omega, Nat.add_zero]

theorem contents_of_peeked {fs t : Fs} {ip : Fin NINODE} (h : Peeked fs t) :
    t.contents sb ip = fs.contents sb ip := by
  unfold Fs.contents bytes
  rw [h.inode]
  refine map_congr_left fun p _ => ?_
  unfold fileByte
  rw [h.fileBlock, h.data]

/-- A range inside the file. -/
theorem bytes_eq_slice {fs : Fs} {ip : Fin NINODE} {m : ℕ}
    (h : m = 0 ∨ off + m ≤ (fs.inode ip).size) :
    fs.bytes sb ip off m = ((fs.contents sb ip).drop off).take m := by
  refine ext_getElem? fun i => ?_
  by_cases hi : i < m
  · rw [getElem?_take_of_lt hi, getElem?_drop]
    unfold Fs.contents bytes
    rw [getElem?_map, getElem?_map, getElem?_range hi,
      getElem?_range (by omega), Option.map_some, Option.map_some, Nat.zero_add]
  · rw [getElem?_eq_none (by rw [length_bytes]; omega),
      getElem?_eq_none (by rw [length_take]; omega)]

namespace Inv

section

variable (h : Inv sb s)
include h

theorem enter {p n : ℕ} (hread : um.readable addr n = n) :
    Inv sb { s with call := update s.call p (if n = 0 then none else some ⟨um, addr, n, 0⟩) } := by
  refine ⟨h.consistent, h.live, h.off, fun q c hc => ?_, h.laid, h.holds⟩
  dsimp only at hc
  by_cases hq : q = p
  · rw [hq, update_self] at hc
    split at hc
    · cases hc
    · cases hc
      exact ⟨Nat.zero_le _, hread⟩
  · rw [update_of_ne hq] at hc
    exact h.call q c hc

/-- The calls, when the one of process `p` goes on or ends. -/
theorem call_update {p n1 : ℕ} {c : Call} (hp : s.call p = some c) (q : ℕ) (d : Call)
    (hd : update s.call p (if c.i + n1 < c.n then some { c with i := c.i + n1 } else none) q =
      some d) : d.i ≤ d.n ∧ d.um.readable d.addr d.n = d.n := by
  by_cases hq : q = p
  · rw [hq, update_self] at hd
    split at hd
    · cases hd
      exact ⟨by dsimp only; omega, (h.call p c hp).2⟩
    · cases hd
  · rw [update_of_ne hq] at hd
    exact h.call q d hd

theorem call_end {p : ℕ} (q : ℕ) (d : Call) (hd : update s.call p none q = some d) :
    d.i ≤ d.n ∧ d.um.readable d.addr d.n = d.n := by
  by_cases hq : q = p
  · rw [hq, update_self] at hd
    cases hd
  · rw [update_of_ne hq] at hd
    exact h.call q d hd

/-- **A chunk**, written from the offset on: what was written before stays
below it. -/
theorem chunk (hsb : sb.Ok) {p : ℕ} {c : Call} (hp : s.call p = some c)
    (hrun : s.chunk sb p c = some s') : Inv sb s' ∧ Moves sb s s' (.chunk p) := by
  obtain ⟨hi, hread⟩ := h.call p c hp
  have hchunk : maxChunk = 3072 := rfl
  unfold Shared.chunk at hrun
  dsimp only at hrun
  generalize hn1 : min (c.n - c.i) maxChunk = n1 at hrun
  have hspec := writeChunk_spec (E := fun _ => True) h.consistent hsb h.live h.off (by omega : n1 < 2 ^ 32)
    (fun _ => readable_of_le hread (by omega : c.i + n1 ≤ c.n)) fun _ _ => trivial
  split at hrun
  · cases hrun
  rename_i r f fs hw
  rcases hspec.ok rfl hw with ⟨-, hr, rfl⟩ | ⟨hr, hc⟩
  · -- turned down
    cases hr
    rw [if_pos (by decide)] at hrun
    cases hrun
    exact ⟨⟨h.consistent, h.live, h.off, fun q d hd => h.call_end q d hd, h.laid, h.holds⟩,
      .inl ⟨rfl, rfl, fun _ => rfl⟩⟩
  dsimp only at hr hc
  subst hr
  rw [if_neg (by omega), if_neg (by simp)] at hrun
  cases hrun
  have hfile := hc.file
  have hmax := hc.fits
  simp only [MAXFILE, NDIRECT, NINDIRECT, BSIZE] at hmax
  have hoff : f.off = s.file.off + n1 := by rw [hfile]
  have hip : f.ip = s.file.ip := by rw [hfile]
  have hlen : s.file.off ≤ (s.contents sb).length := by
    rw [contents, length_contents]
    exact hc.off_le
  have hcont : fs.contents sb f.ip =
      patch (s.contents sb) s.file.off (userBytes c.um (c.addr + c.i) n1) := by
    rw [hip]
    exact hc.contents
  refine ⟨⟨hc.consistent, ?_, ?_, fun q d hd => h.call_update hp q d hd, ⟨?_, h.laid⟩,
    fun ha x hx hxw i hi => ?_⟩, .inr ⟨_, rfl, rfl, ?_, ?_⟩⟩
  · exact hip ▸ hc.live h.live
  · dsimp only
    omega
  · dsimp only [Transfer.last]
    rw [length_userBytes, hoff]
  · change (fs.contents sb f.ip)[x.off + i]? = _
    rw [hcont, getElem?_patch hlen]
    rcases mem_cons.1 hx with rfl | hx
    · dsimp only at hi ⊢
      rw [if_pos (by omega), Nat.add_sub_cancel_left]
    · have hlast := h.laid.last_le x hx
      unfold Transfer.last at hlast
      rw [if_neg (by omega)]
      exact h.holds ha x hx hxw i hi
  · dsimp only [Transfer.last]
    rw [length_userBytes, hoff]
  · rw [if_pos rfl]
    exact hcont

/-- **A read**, from the offset on. -/
theorem read {n : ℤ} {p : ℕ} (hr : s.file.readable = true)
    (hread : um.readable addr (s.readSize n) = s.readSize n)
    (hrun : s.read sb um addr n = some s') : Inv sb s' ∧ Moves sb s s' (.read p um addr n) := by
  have hspec := fileread_spec (m := s.readSize n) (E := fun _ => True) h.consistent h.live hr rfl hread
  unfold Shared.read at hrun
  split at hrun
  · cases hrun
  rename_i r f dst fs hw
  cases hrun
  obtain ⟨hlen, hfile, hfill, hpeek⟩ := hspec.ok rfl hw
  dsimp only at hlen hfile hfill
  subst hlen hfile
  have hmax := (h.consistent.dense_live h.live).size_le
  have hoff := h.off
  have hle : s.readSize n = 0 ∨ s.file.off + s.readSize n ≤ (s.fs.inode s.file.ip).size := by
    unfold readSize readLength
    split <;> omega
  simp only [MAXFILE, NDIRECT, NINDIRECT, BSIZE] at hmax
  have hcont : fs.contents sb s.file.ip = s.contents sb := contents_of_peeked hpeek
  have hdata : (List.range (s.readSize n)).map (fun i => (dst.byte i).getD 0) =
      s.fs.bytes sb s.file.ip s.file.off (s.readSize n) := by
    refine map_congr_left fun i hi => ?_
    rw [mem_range] at hi
    rw [hfill i (by omega), if_pos hi]
    rfl
  refine ⟨⟨h.consistent.peeked hpeek, ?_, ?_, h.call, ⟨?_, h.laid⟩, fun ha x hx hxw => ?_⟩,
    .inr ⟨_, rfl, rfl, ?_, ?_⟩⟩
  · constructor
    · rw [hpeek.inode]
      exact h.live.ref
    · rw [hpeek.inode]
      exact h.live.valid
  · dsimp only
    omega
  · simp [Transfer.last]
  · rcases mem_cons.1 hx with rfl | hx
    · cases hxw
    · intro i hi
      change (fs.contents sb s.file.ip)[x.off + i]? = _
      rw [hcont]
      exact h.holds ha x hx hxw i hi
  · simp [Transfer.last]
  · rw [if_neg (by simp), Int.toNat_natCast]
    refine ⟨hcont, ?_⟩
    dsimp only
    rw [length_map, length_range, hdata]
    exact bytes_eq_slice hle

theorem other (hsb : sb.Ok) {a : Act} (ha : Enabled sb s.fs a)
    (hrun : s.other sb a = some s') : Inv sb s' ∧ Moves sb s s' (.other a) := by
  unfold Shared.other at hrun
  split at hrun
  · cases hrun
  rename_i u fs hr
  split at hrun
  · rename_i hl
    cases hrun
    have hc := ((Act.run_consistent h.consistent hsb ha).ok rfl hr).1
    refine ⟨⟨hc, ⟨hl.1, hl.2⟩, h.off, h.call, h.laid, fun hal x hx hxw i hi => ?_⟩,
      .inl ⟨rfl, rfl, fun hno => absurd rfl (hno a)⟩⟩
    simp only [Bool.and_eq_true, decide_eq_true_eq] at hal
    change (fs.contents sb s.file.ip)[x.off + i]? = _
    rw [hal.2]
    exact h.holds hal.1 x hx hxw i hi
  · cases hrun

/-- **Every step** keeps the intervals side by side. -/
theorem step (hsb : sb.Ok) {a : Step} (hrun : a.run sb s = some s') :
    Inv sb s' ∧ Moves sb s s' a := by
  cases a with
  | enter p um addr n =>
    simp only [Step.run] at hrun
    split at hrun
    · rename_i hg
      cases hrun
      exact ⟨h.enter hg.2.2, .inl ⟨rfl, rfl, fun _ => rfl⟩⟩
    · cases hrun
  | chunk p =>
    simp only [Step.run] at hrun
    split at hrun
    · cases hrun
    · rename_i c hp
      exact h.chunk hsb hp hrun
  | read p um addr n =>
    simp only [Step.run] at hrun
    split at hrun
    · rename_i hg
      exact h.read hg.1 hg.2.2 hrun
    · cases hrun
  | other a =>
    simp only [Step.run] at hrun
    split at hrun
    · rename_i hg
      exact h.other hsb hg hrun
    · cases hrun

end

end Inv

theorem Init.inv (h : Init sb s) : Inv sb s := by
  refine ⟨h.consistent, h.live, h.off, fun p c hc => ?_, ?_, fun _ x hx => ?_⟩
  · rw [h.call p] at hc
    cases hc
  · rw [h.log, h.start]
    exact rfl
  · rw [h.log] at hx
    cases hx

/-- **A shared file offset.** In every state the intervals that went
through the `struct file` are consecutive from the first offset on, so
that the offset is the first plus all that was transferred and no two of
them overlap; and what was written is still in the file, as long as nobody
changes it in another way. Each step transfers nothing, or writes or reads
the interval that begins at the offset. -/
theorem shared_offset (hsb : sb.Ok) (hr : (system sb).Reachable s) :
    Laid s.start s.log s.file.off ∧
      s.file.off = s.start + (s.log.map fun x => x.data.length).sum ∧
      (s.log.Pairwise fun x y => y.last ≤ x.off) ∧
      (s.alone = true → ∀ x ∈ s.log, x.write = true → Holds sb s x) ∧
      ∀ a s', a.run sb s = some s' → Moves sb s s' a := by
  have h : Inv sb s := by
    refine hr.invariant (fun _ => Init.inv) fun s a s' _ hi hstep => ?_
    obtain ⟨hg, rfl⟩ := hstep
    obtain ⟨t, ht⟩ := Option.isSome_iff_exists.1 hg
    simp only [ht, Option.getD_some]
    exact (hi.step hsb ht).1
  exact ⟨h.laid, h.laid.total, h.laid.disjoint, h.holds, fun a s' hrun => (h.step hsb hrun).2⟩

/-- A file of a hundred fives, open at offset 0. -/
def opened (s : Sys) : Shared where
  fs := s.fs
  file := smallFile
  call _ := none
  log := []
  start := 0
  alone := true

/-- One process writes twenty bytes, another reads ten while a third has
begun to write four, and those come last. -/
def sharing : List Step :=
  [.enter 0 smallPage 0 20, .chunk 0, .enter 2 smallPage 100 4, .read 1 smallPage 0 10, .chunk 2]

theorem shared_offset_three : ∃ s : Shared, (system smallSb).Reachable s ∧
    s.log.reverse = [⟨true, 0, List.replicate 20 7⟩, ⟨false, 20, List.replicate 10 5⟩,
      ⟨true, 30, List.replicate 4 7⟩] ∧ s.file.off = 34 ∧
    ∀ x ∈ s.log, x.write = true → Holds smallSb s x := by
  obtain ⟨s, hs, href, hvalid, hrun⟩ := small_run (P := fun s =>
      0 < (s.fs.inode 0).ref ∧ (s.fs.inode 0).valid = true ∧
        (System.follow (fun s a => (Step.run smallSb s a).isSome = true)
          (fun s a => (Step.run smallSb s a).getD s) (opened s) sharing).any fun s =>
            decide (s.log = [⟨true, 30, List.replicate 4 7⟩, ⟨false, 20, List.replicate 10 5⟩,
              ⟨true, 0, List.replicate 20 7⟩] ∧ s.start = 0 ∧ s.alone = true))
    [.ialloc 2, .ilock 0, .writei 0 (.kernel fun _ => 5) 0 100] (by decide +kernel)
  obtain ⟨hc, -⟩ := consistent_of_reachable smallSb_ok hs
  have h0 : Init smallSb (opened s) :=
    ⟨hc, ⟨href, hvalid⟩, Nat.two_pow_pos 32, rfl, fun _ => rfl, rfl⟩
  obtain ⟨t, ht, hlog, hstart, halone⟩ := System.exists_of_follow h0 sharing hrun
  obtain ⟨-, htotal, -, hholds, -⟩ := shared_offset smallSb_ok ht
  rw [hstart, hlog] at htotal
  exact ⟨t, ht, by rw [hlog]; rfl, htotal, hholds halone⟩

end Shared

end Fs

end Xv6
