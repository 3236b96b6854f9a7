import Xv6.Fs.Array
/-!
# Open files — `fileread` and `filewrite` of `kernel/file.c`

`filewrite` writes a file in chunks small enough for a transaction, each
at `f->off`, which it moves by what `writei` returns. `writei` returns what
it was asked to write also when the copy from user memory stopped before:
then the offset moves past bytes that were not stored.
-/

namespace Xv6

open Common

/-- `struct file`, of an inode. -/
structure File where
  readable : Bool
  writable : Bool
  ip : Fin NINODE
  off : ℕ

namespace Fs

/-- The most `filewrite` writes in one transaction. -/
def maxChunk : ℕ := (MAXOPBLOCKS - 1 - 1 - 2) / 2 * BSIZE

section model

variable (sb : Superblock)

/-- `f->off += r`, if `r > 0`. -/
def advance (f : File) (r : ℤ) : File :=
  if 0 < r then { f with off := (f.off + r.toNat) % 2 ^ 32 } else f

/-- `fileread`: its result, the file, and the memory after it. -/
def fileread (f : File) (um : UserMem) (addr : ℕ) (n : ℤ) : Kern Fs (ℤ × File × Dest) := do
  if f.readable = false then return (-1, f, .user um addr)
  else
    ilock sb f.ip
    let (r, dst) ← readiTo sb f.ip (.user um addr) f.off (n % 2 ^ 32).toNat
    return (r, advance f r, dst)

/-- A round of the loop of `filewrite`, from `begin_op` to `end_op`. -/
def writeChunk (f : File) (um : UserMem) (addr n1 : ℕ) : Kern Fs (ℤ × File) := do
  ilock sb f.ip
  let r ← writei sb f.ip (.user um addr) f.off n1
  return (r, advance f r)

/-- The loop of `filewrite`: `i` at its end, and the file. -/
def filewriteLoop (um : UserMem) (addr n : ℕ) : ℕ → File → ℕ → Kern Fs (ℕ × File)
  | 0, f, i => return (i, f)
  | fuel + 1, f, i =>
    if i < n then do
      let n1 := min (n - i) maxChunk
      let (r, f) ← writeChunk sb f um ((addr + i) % 2 ^ 64) n1
      if r < 0 then return (i, f)
      else if r ≠ n1 then Prog.stop .shortFilewrite
      else filewriteLoop um addr n fuel f (i + n1)
    else return (i, f)

/-- `filewrite`: its result, and the file after it. -/
def filewrite (f : File) (um : UserMem) (addr : ℕ) (n : ℤ) : Kern Fs (ℤ × File) := do
  if f.writable = false then return (-1, f)
  else
    let (i, f) ← filewriteLoop sb um addr n.toNat n.toNat f 0
    return (if (i : ℤ) = n then n else -1, f)

end model

variable {sb : Superblock} {s t : Fs} {f : File} {um : UserMem} {addr i n n1 : ℕ} {E : Panic → Prop}

/-- The bytes at user addresses. -/
def userBytes (um : UserMem) (addr n : ℕ) : List UInt8 :=
  (List.range n).map fun i => (um.byteAt (addr + i)).getD 0

@[simp] theorem length_userBytes : (userBytes um addr n).length = n := by
  simp [userBytes]

/-- An inode that is loaded is locked without a look at the disk. -/
theorem ilock_live {α : Type} {ip : Fin NINODE} (hl : s.Live ip) (k : Kern Fs α) :
    (do ilock sb ip; k) s = k s := by
  have hrun : ilock sb ip s = .ok ((), s) := by
    unfold ilock getInode
    rw [Prog.gets_bind, if_neg (Nat.not_lt.2 hl.ref), if_pos hl.valid]
    rfl
  rw [Prog.bind_run, hrun]
  rfl

variable (sb) in
/-- **A chunk has been written**: the `n1` bytes are in the file at the
old offset, and the offset is past them. -/
structure Chunk (s t : Fs) (f f' : File) (um : UserMem) (addr n1 : ℕ) : Prop where
  off_le : f.off ≤ (s.inode f.ip).size
  fits : f.off + n1 ≤ MAXFILE * BSIZE
  file : f' = { f with off := f.off + n1 }
  contents : t.contents sb f.ip = patch (s.contents sb f.ip) f.off (userBytes um addr n1)
  inode : t.inode f.ip = { s.inode f.ip with
    size := max (s.inode f.ip).size (f.off + n1), addrs := (t.inode f.ip).addrs }
  apart : Apart sb s t f.ip
  consistent : Consistent sb t

theorem Chunk.live (h : Chunk sb s t f f' um addr n1) (hl : s.Live f.ip) : t.Live f.ip := by
  constructor
  · rw [h.inode]
    exact hl.ref
  · rw [h.inode]
    exact hl.valid

/-- **A round of `filewrite`** whose source is there, unless the call is
turned down: it is turned down, or it writes its chunk. -/
theorem writeChunk_spec (h : Consistent sb s) (hsb : sb.Ok) (hl : s.Live f.ip)
    (hoff : f.off < 2 ^ 32) (hn : n1 < 2 ^ 32)
    (hread : ¬ s.Rejects f.ip f.off n1 → um.readable addr n1 = n1)
    (hE : ∀ e, e = .selfDeadlock ∨ e = .ballocOutOfBlocks → E e) :
    Hoare (· = s) (writeChunk sb f um (addr % 2 ^ 64) n1)
      (fun r t => s.Rejects f.ip f.off n1 ∧ r = (-1, f) ∧ t = s ∨
        r.1 = n1 ∧ Chunk sb s t f r.2 um addr n1) E := by
  refine .run_eq ?_ (ilock_live hl _)
  have hsrc : ∀ i, Source.byte (.user um (addr % 2 ^ 64)) i = (um.byteAt (addr + i)).getD 0 := by
    intro i
    have : um.byteAt (addr % 2 ^ 64 + i) = um.byteAt (addr + i) := UserMem.byteAt_congr (by omega)
    rw [Source.byte, this]
  have hlen : Source.readable (.user um (addr % 2 ^ 64)) 0 n1 = um.readable addr n1 :=
    UserMem.readable_congr (by omega)
  refine (writei_stored h hsb hl hoff hn fun hnot tot u e ht hw he => ?_).bind fun r =>
    Hoare.pure ?_
  · refine hE e ?_
    rcases bmap_error he with he | he | ⟨-, hbig⟩
    · exact .inl he
    · exact .inr he
    · have := (not_rejects hoff hn hnot).2
      simp only [MAXFILE, NDIRECT, NINDIRECT, BSIZE] at *
      omega
  · rintro t (⟨hr, rfl, rfl⟩ | ⟨hnot, rfl, hct, -, last, hst⟩)
    · exact .inl ⟨hr, rfl, rfl⟩
    · obtain ⟨hle, hmax⟩ := not_rejects hoff hn hnot
      have hall : Source.readable (.user um (addr % 2 ^ 64)) 0 n1 = n1 := hlen.trans (hread hnot)
      refine .inr ⟨rfl, hle, hmax, ?_, ?_, ?_, hst.toApart, hct⟩
      · simp only [MAXFILE, NDIRECT, NINDIRECT, BSIZE] at hmax
        unfold advance
        split
        · rw [Int.toNat_natCast, Nat.mod_eq_of_lt (by omega)]
        · rw [show n1 = 0 by omega, Nat.add_zero]
      · rw [hst.contents_eq hall hle]
        congr 1
        exact List.map_congr_left fun i _ => hsrc i
      · rw [hst.self, hst.all hall]

/-! ## Whole writes -/

/-- How many bytes of a write `writei` does not turn down, starting inside
the file: those of the chunks that end inside the largest file. -/
def accepted (off n : ℕ) : ℕ :=
  if off + n ≤ MAXFILE * BSIZE then n else (MAXFILE * BSIZE - off) / maxChunk * maxChunk

/-- The part of a range that is there is there. -/
theorem readable_of_le {m : ℕ} (h : um.readable addr m = m) (hi : i + n ≤ m) :
    um.readable (addr + i) n = n := by
  refine UserMem.readable_eq fun j hj => ?_
  rw [Nat.add_assoc]
  exact UserMem.byteAt_of_lt_readable (by rw [h]; omega)

theorem length_contents {ip : Fin NINODE} : (s.contents sb ip).length = (s.inode ip).size :=
  length_bytes _

/-- The file in the first cache entry, open at offset 0. -/
def smallFile : File := ⟨true, true, 0, 0⟩

end Fs

end Xv6
