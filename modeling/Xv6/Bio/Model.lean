import Xv6.Basic
import Xv6.Common.Ring
import Mathlib.Data.Fintype.Card
/-!
# The buffer cache — `kernel/bio.c`

`NBUF` buffers on a ring through their `prev` and `next` fields, most
recently used first. What `bio.c` does under `bcache.lock` is one function
on the cache here: the search of `bget`, the last part of `brelse`, `bpin`
and `bunpin`. The sleep lock of a buffer is taken and left between them.
-/

namespace Xv6

open Common List

/-- A process, by its place in the process table. -/
abbrev Pid : Type := Fin NPROC

/-- `x++` on a `uint`. -/
def uintInc (n : ℕ) : ℕ := (n + 1) % 2 ^ 32

/-- `x--` on a `uint`. -/
def uintDec (n : ℕ) : ℕ := (n + 2 ^ 32 - 1) % 2 ^ 32

/-- `struct buf`, without its links; `lock` is the holder of its sleep
lock. -/
structure Buf where
  /-- Has data been read from disk? -/
  valid : Bool
  dev : ℕ
  blockno : ℕ
  lock : Option Pid
  refcnt : ℕ
  data : Block

/-- `bcache`. The head of the ring is `none`. -/
structure Bcache where
  buf : Fin NBUF → Buf
  links : Links (Fin NBUF)

namespace Bcache

/-- All buffers zero, and linked in front of one another. -/
def binit : Bcache where
  buf _ := { valid := false, dev := 0, blockno := 0, lock := none, refcnt := 0, data := fun _ => 0 }
  links := (List.finRange NBUF).foldl Links.pushFront Links.empty

/-- The cache with buffer `i` replaced. -/
def set (c : Bcache) (i : Fin NBUF) (u : Buf) : Bcache :=
  { c with buf := Function.update c.buf i u }

@[simp] theorem set_self (c : Bcache) (i : Fin NBUF) (u : Buf) : (c.set i u).buf i = u :=
  Function.update_self ..
theorem set_of_ne (c : Bcache) {i j : Fin NBUF} (u : Buf) (h : j ≠ i) :
    (c.set i u).buf j = c.buf j :=
  Function.update_of_ne h ..

/-- `bget`'s first loop: is the block already cached? -/
def cached (c : Bcache) (dev blockno : ℕ) : Option (Fin NBUF) :=
  Links.walk c.links.next (fun i => (c.buf i).dev = dev ∧ (c.buf i).blockno = blockno) NBUF
    (c.links.next none)

/-- `bget`'s second loop: the least recently used buffer that is not in
use. -/
def unused (c : Bcache) : Option (Fin NBUF) :=
  Links.walk c.links.prev (fun i => (c.buf i).refcnt = 0) NBUF (c.links.prev none)

/-- `bget` up to its `acquiresleep`. -/
def bget (c : Bcache) (dev blockno : ℕ) : Except Panic (Fin NBUF × Bcache) :=
  match c.cached dev blockno with
  | some i => .ok (i, c.set i { c.buf i with refcnt := uintInc (c.buf i).refcnt })
  | none => match c.unused with
    | some i => .ok (i, c.set i { c.buf i with dev, blockno, valid := false, refcnt := 1 })
    | none => .error .bgetNoBuffers

def acquiresleep (c : Bcache) (i : Fin NBUF) (p : Pid) : Bcache :=
  c.set i { c.buf i with lock := some p }

/-- The rest of `bread`: read the block where the buffer does not hold
it. -/
def fill (c : Bcache) (i : Fin NBUF) (d : Disk) : Bcache :=
  if (c.buf i).valid then c
  else c.set i { c.buf i with data := d (c.buf i).blockno, valid := true }

def setData (c : Bcache) (i : Fin NBUF) (b : Block) : Bcache :=
  c.set i { c.buf i with data := b }

def releasesleep (c : Bcache) (i : Fin NBUF) : Bcache :=
  c.set i { c.buf i with lock := none }

/-- `brelse` under `bcache.lock`: a buffer no one is waiting for goes to the
front. -/
def unref (c : Bcache) (i : Fin NBUF) : Bcache :=
  let c := c.set i { c.buf i with refcnt := uintDec (c.buf i).refcnt }
  if (c.buf i).refcnt = 0 then { c with links := (c.links.unlink i).pushFront i } else c

def bpin (c : Bcache) (i : Fin NBUF) : Bcache :=
  c.set i { c.buf i with refcnt := uintInc (c.buf i).refcnt }

def bunpin (c : Bcache) (i : Fin NBUF) : Bcache :=
  c.set i { c.buf i with refcnt := uintDec (c.buf i).refcnt }

/-- Moving a buffer on the ring changes no buffer. -/
theorem unref_buf (c : Bcache) (i : Fin NBUF) : (c.unref i).buf = (c.bunpin i).buf := by
  simp only [unref]
  split <;> rfl

/-! ## The ring -/

/-- **The buffers are linked**: the chain is circular, linked both ways,
and has every buffer on it exactly once. -/
def Linked (c : Bcache) : Prop := ∃ l, c.links.Ring l ∧ ∀ i, i ∈ l

theorem binit_linked : binit.Linked := by
  have hring : ∀ (xs l : List (Fin NBUF)) (L : Links (Fin NBUF)), L.Ring l → xs.Nodup →
      (∀ x ∈ xs, x ∉ l) → ∃ l', (xs.foldl Links.pushFront L).Ring l' ∧
        ∀ x, x ∈ l' ↔ x ∈ xs ∨ x ∈ l := by
    intro xs
    induction xs with
    | nil => exact fun l L hL _ _ => ⟨l, hL, by simp⟩
    | cons x xs ih =>
      intro l L hL hnd hdis
      obtain ⟨hx, hnd⟩ := nodup_cons.1 hnd
      obtain ⟨l', hl', hmem⟩ := ih (x :: l) (L.pushFront x)
        (hL.pushFront (hdis x mem_cons_self)) hnd (by
          intro y hy hyl
          rcases mem_cons.1 hyl with rfl | hyl
          · exact hx hy
          · exact hdis y (mem_cons_of_mem _ hy) hyl)
      refine ⟨l', hl', fun y => ?_⟩
      rw [hmem, mem_cons, mem_cons]
      tauto
  obtain ⟨l, hl, hmem⟩ := hring (List.finRange NBUF) [] Links.empty Links.ring_empty
    (nodup_finRange NBUF) (by simp)
  exact ⟨l, hl, fun i => (hmem i).2 (.inl (mem_finRange i))⟩

theorem Linked.set {c : Bcache} (h : c.Linked) (i : Fin NBUF) (u : Buf) : (c.set i u).Linked := h

theorem Linked.fill {c : Bcache} (h : c.Linked) (i : Fin NBUF) (d : Disk) : (c.fill i d).Linked := by
  unfold Bcache.fill
  split
  · exact h
  · exact h

theorem Linked.unref {c : Bcache} (h : c.Linked) (i : Fin NBUF) : (c.unref i).Linked := by
  simp only [Bcache.unref]
  split
  · obtain ⟨l, hl, hmem⟩ := h
    obtain ⟨l', hl', hiff⟩ := hl.moveFront (hmem i)
    exact ⟨l', hl', fun j => (hiff j).2 (hmem j)⟩
  · exact h

variable {c : Bcache} {dev blockno : ℕ} {i : Fin NBUF}

private theorem ring_length {l : List (Fin NBUF)} (h : c.links.Ring l) : l.length ≤ NBUF := by
  have := h.nodup.length_le_card
  rwa [Fintype.card_fin] at this

/-- The first loop finds a buffer of the block if there is one. -/
theorem cached_eq_some (hi : c.cached dev blockno = some i) :
    (c.buf i).dev = dev ∧ (c.buf i).blockno = blockno := by
  simpa using Links.walk_eq_some hi

theorem Linked.cached_eq_none (h : c.Linked) (hn : c.cached dev blockno = none) (i : Fin NBUF) :
    ¬ ((c.buf i).dev = dev ∧ (c.buf i).blockno = blockno) := by
  obtain ⟨l, hl, hmem⟩ := h
  rw [cached, hl.walk_next (ring_length hl)] at hn
  simpa using find?_eq_none.1 hn i (hmem i)

/-- The second finds a buffer not in use if there is one. -/
theorem unused_eq_some (hi : c.unused = some i) : (c.buf i).refcnt = 0 := by
  simpa using Links.walk_eq_some hi

theorem Linked.unused_eq_none (h : c.Linked) (hn : c.unused = none) (i : Fin NBUF) :
    (c.buf i).refcnt ≠ 0 := by
  obtain ⟨l, hl, hmem⟩ := h
  rw [unused, hl.walk_prev (ring_length hl)] at hn
  simpa using find?_eq_none.1 hn i (mem_reverse.2 (hmem i))

/-- **What `bget` does**: it takes a reference to the buffer of the block,
or makes a buffer that nobody refers to that of the block. -/
theorem bget_cases {c' : Bcache} (hb : c.bget dev blockno = .ok (i, c')) :
    ((c.buf i).dev = dev ∧ (c.buf i).blockno = blockno ∧
      c' = c.set i { c.buf i with refcnt := uintInc (c.buf i).refcnt }) ∨
    (c.cached dev blockno = none ∧ (c.buf i).refcnt = 0 ∧
      c' = c.set i { c.buf i with dev, blockno, valid := false, refcnt := 1 }) := by
  unfold bget at hb
  split at hb
  · rename_i j hj
    cases hb
    obtain ⟨hdev, hno⟩ := cached_eq_some hj
    exact .inl ⟨hdev, hno, rfl⟩
  · rename_i hnone
    split at hb
    · rename_i j hj
      cases hb
      exact .inr ⟨hnone, unused_eq_some hj, rfl⟩
    · cases hb

end Bcache

end Xv6
