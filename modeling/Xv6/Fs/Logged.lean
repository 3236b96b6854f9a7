import Xv6.Bio.Store
import Xv6.Fs.System
/-!
# Every change of a buffer is logged, but one

The functions of `fs.c` release a buffer as `bread` returned it or with
its last change logged. The exception is `writei`: when `either_copyin`
fails, what it had copied by then is in the buffer, and the buffer is
released without `log_write`. A run in which no call of `writei` does this
leaves the buffers with what was logged, and where every change is logged
the buffers not in the log agree with the disk.
-/

namespace Xv6

open Common

/-! ## The buffers and the disk -/

namespace BufSys

variable {s : BufSys}

/-- **A buffer that nobody holds and the log does not name shows the
disk**, when processes log what they change. -/
theorem disk_of_unlocked (h : system.Reachable s) {i : Fin NBUF}
    (hv : (s.cache.buf i).valid = true) (hlock : (s.cache.buf i).lock = none)
    (hdev : (s.cache.buf i).dev = s.log.dev)
    (hlog : (s.cache.buf i).blockno ∉ s.log.lh.blocks) :
    (s.cache.buf i).data = s.disk (s.cache.buf i).blockno := by
  have hdata := Data.reachable h
  have hhdr := Hdr.reachable h
  have hrefs := Refs.reachable h
  by_cases harea : s.log.InArea (s.cache.buf i).blockno
  · rcases hdata.area i hv hdev harea with hd | ⟨p, c, hl, -⟩
    · exact hd
    · rw [hlock] at hl
      cases hl
  · have hclean : i ∉ s.dirty := by
      intro hi
      obtain ⟨p, hl, -⟩ := hrefs.dirty i hi
      rw [hlock] at hl
      cases hl
    -- what is still to be written home is in the header
    have hpend : (s.cache.buf i).blockno ∉ s.pending := by
      intro hp
      by_cases hcommit : ∃ p, (s.job p).Committing
      · obtain ⟨p, hp'⟩ := hcommit
        obtain ⟨c, hc⟩ := Job.committing_iff.1 hp'
        obtain ⟨k, hk, hb, -⟩ := ((hhdr.commit p c hc).pending _).1 hp
        exact hlog (List.mem_map.2 ⟨k, List.mem_range.2 hk, hb⟩)
      · exact hlog (((hhdr.open_ (not_exists.1 hcommit) _).1).1 hp)
    rw [hdata.home i hv hdev harea hclean, hdata.disk _ harea hpend]

end BufSys

namespace Fs

variable {sb : Superblock} {s t : Fs} {ip : Fin NINODE}

instance (s : Fs) (ip : Fin NINODE) (off n : ℕ) : Decidable (s.Rejects ip off n) :=
  inferInstanceAs (Decidable (_ ∨ _ ∨ _))

instance (s : Fs) (ip : Fin NINODE) (src : Source) (off n : ℕ) :
    Decidable (CopyKept sb s ip src off n) :=
  inferInstanceAs (Decidable (∀ i, i < _ → _ → _))

instance (s : Fs) (ip : Fin NINODE) (src : Source) (off n : ℕ) :
    Decidable (WriteLogs sb s ip src off n) :=
  inferInstanceAs (Decidable (_ ∨ _ ∨ _))

/-! ## One call -/

/-- Called with no buffer released yet, the function releases buffers only
as they were read, or logged. -/
def Clean {α : Type} (c : Kern Fs α) (s : Fs) : Prop :=
  ∀ a t, c s = .ok (a, t) → ∀ r ∈ t.released, r.Ok

variable (sb) in
/-- What the functions that change blocks release. -/
structure CallsLog (s : Fs) : Prop where
  balloc : Clean (balloc sb) s
  bfree : ∀ b, Clean (bfree sb b) s
  ialloc : ∀ type, type ≠ 0 ∧ type < 2 ^ 16 → Clean (ialloc sb type) s
  iupdate : ∀ ip, Clean (iupdate sb ip) s
  bmap : ∀ ip bn, s.Live ip → Clean (bmap sb ip bn) s
  itrunc : ∀ ip, s.Live ip → Clean (itrunc sb ip) s
  writei : ∀ ip src off n, s.Live ip → off < 2 ^ 32 → n < 2 ^ 32 → ∀ r t,
    writei sb ip src off n s = .ok (r, t) →
      ((∀ x ∈ t.released, x.Ok) ↔ WriteLogs sb s ip src off n)

theorem Logs.ok (h : Logs s t) (hs : s.released = []) : ∀ r ∈ t.released, r.Ok := by
  intro r hr
  rcases h.released r hr with hold | hok
  · rw [hs] at hold
    cases hold
  · exact hok

theorem Consistent.callsLog (h : Consistent sb s) (hsb : sb.Ok) (hs : s.released = []) :
    CallsLog sb s where
  balloc b t hr := (alloc_of_balloc hsb h.books hr).logs.ok hs
  bfree b _ t hr := by
    obtain ⟨-, -, rfl⟩ := bfree_ok hr
    exact (Logs.put ..).ok hs
  ialloc type htype _ t hr := ((ialloc_consistent h hsb htype).ok rfl hr).2.ok hs
  iupdate ip _ t hr := by
    rw [iupdate_eq] at hr
    split at hr <;> cases hr
    exact (Logs.put ..).ok hs
  bmap ip bn hl _ t hr := (bmap_ok hsb (h.opened hl).books hr).1.logs.ok hs
  itrunc ip hl _ t hr := ((itrunc_consistent h hsb hl).ok rfl hr).2.1.ok hs
  writei ip src off n hl hoff hn r t hr := by
    obtain ⟨-, hlogs, hspoiled⟩ := (writei_consistent h hsb hl hoff hn).ok rfl hr
    refine ⟨fun hok => ?_, fun hw => (hlogs hw).ok hs⟩
    by_contra hw
    obtain ⟨x, hx, hbad⟩ := hspoiled hw
    exact hbad (hok x hx)

/-! ## Whole runs -/

instance (s : Fs) : (a : Act) → Decidable (LogsStep sb s a)
  | .writei ip src off n => inferInstanceAs (Decidable (WriteLogs sb s ip src off n))
  | .ialloc _ | .iget _ | .idup _ | .ilock _ | .update .. | .itrunc _ | .dirlink .. | .iput _
  | .evict _ => isTrue trivial

/-- All that was released was logged, and the blocks are as last
logged. -/
structure Tidy (s : Fs) : Prop where
  released : ∀ r ∈ s.released, r.Ok
  logged : ∀ b, s.data b = s.logged b

theorem Tidy.logs (h : s.Tidy) (hl : Logs s t) : t.Tidy :=
  ⟨fun r hr => (hl.released r hr).elim (h.released r) id,
    fun b => by_contra fun hb => hl.unlogged b hb (h.logged b)⟩

variable (sb) in
/-- The runs in which no call of `writei` leaves a change unlogged. -/
def loggedSystem : System Sys Act := (system sb).restrict fun s a => LogsStep sb s.fs a

theorem tidy_of_reachable {s : Sys} (hsb : sb.Ok) (h : (loggedSystem sb).Reachable s) :
    s.fs.Tidy := by
  refine h.invariant (I := fun s => s.fs.Tidy) ?_ ?_
  · rintro _ ⟨d, -, rfl⟩
    exact ⟨nofun, fun _ => rfl⟩
  · rintro s a _ hreach ht ⟨hlog, ⟨-, ha⟩, rfl⟩
    have hc := (consistent_of_reachable hsb hreach.of_restrict).1
    unfold Sys.next
    cases hr : a.run sb s.fs with
    | ok r => exact ht.logs (((Act.run_consistent hc hsb ha).ok rfl hr).2 hlog)
    | error e => exact ht

/-- **Which changes are logged.** Of the functions that change blocks, in a
consistent file system, all but `writei` log every change before they
release the buffer, and a call of `writei` that returns does just if it is
turned down, copies everything, or copies into the block it stops in what
was there. Runs whose calls of `writei` all do leave every block as it was
last logged; and where every change is logged, a buffer that nobody holds
and the log does not name shows the disk. -/
theorem changes_logged (hsb : sb.Ok) :
    (∀ s, Consistent sb s → s.released = [] → CallsLog sb s) ∧
    (∀ s : Sys, (loggedSystem sb).Reachable s → s.fs.Tidy) ∧
    ∀ s : BufSys, BufSys.system.Reachable s → ∀ i, (s.cache.buf i).valid = true →
      (s.cache.buf i).lock = none → (s.cache.buf i).dev = s.log.dev →
      (s.cache.buf i).blockno ∉ s.log.lh.blocks →
        (s.cache.buf i).data = s.disk (s.cache.buf i).blockno :=
  ⟨fun _ hc hs => hc.callsLog hsb hs, fun _ h => tidy_of_reachable hsb h,
    fun _ h _ hv hl hd hb => BufSys.disk_of_unlocked h hv hl hd hb⟩

/-- On the small image: a file created and written from kernel memory. -/
theorem changes_logged_small : CallsLog smallSb (mount smallImage) ∧
    ∃ s, (loggedSystem smallSb).Reachable s ∧ (s.fs.inode 0).size = 20 ∧ s.fs.Tidy := by
  obtain ⟨hcalls, hruns, -⟩ := changes_logged smallSb_ok
  obtain ⟨s, hs, he⟩ : ∃ s, (loggedSystem smallSb).Reachable s ∧ (s.fs.inode 0).size = 20 :=
    System.exists_of_follow_restrict ⟨_, smallImage_ok, rfl⟩
      [.ialloc 2, .ilock 0, .writei 0 (.kernel fun _ => 5) 0 20] (by decide +kernel)
  exact ⟨hcalls _ smallImage_ok.consistent rfl, s, hs, he, hruns s hs⟩

/-- **An unlogged change.** The same file is written again, from user memory
that ends after six of twenty bytes. Six bytes of its block have changed;
the block was released without being logged, and is no longer what was
last logged of it. -/
theorem writei_unlogged : ∃ s, (system smallSb).Reachable s ∧ s.panic = none ∧
    (∃ r ∈ s.fs.released, ¬ r.Ok) ∧ s.fs.held 3 = none ∧ s.fs.data 3 ≠ s.fs.logged 3 := by
  obtain ⟨s, hs, hpanic, hheld, hdata, r, hr, hlog, hbad⟩ := small_run (P := fun s =>
      s.panic = none ∧ (s.fs.held 3).isNone ∧ (s.fs.data 3).get 0 ≠ (s.fs.logged 3).get 0 ∧
        ∃ r ∈ s.fs.released, ¬ r.logged ∧ r.data.get 0 ≠ r.orig.get 0)
    [.ialloc 2, .ilock 0, .writei 0 (.kernel fun _ => 5) 0 20,
      .writei 0 (.user smallPage 4090) 0 20] (by decide +kernel)
  refine ⟨s, hs, hpanic, ⟨r, hr, ?_⟩, Option.isNone_iff_eq_none.1 hheld,
    fun heq => hdata (by rw [heq])⟩
  rintro (hsame | hlogged)
  · exact hbad (by rw [hsame])
  · exact hlog hlogged

end Fs

end Xv6
