import Xv6.Common.Fifo
import Xv6.Virtio.Chains
/-!
# What holds of the requests

Every request that waits for the device has its head in one place: in the
avail ring, with the device, or in the used ring (`Inv`). As each of them
holds three of the eight descriptors there are never more than two, so that
neither ring overflows and the handler's test, modulo `NUM` on both sides,
tells whether a completion is left.
-/

namespace Xv6

open Common List

namespace Virtio

/-! ## What a process has -/

namespace Pc

/-- The descriptors a process has allocated and not freed. -/
def chain : Pc → List ℕ
  | .format _ _ i j k | .ring _ i j k | .publish _ i j k => [i, j, k]
  | .check _ i j k _ | .sleeping _ i j k _ | .finish _ i j k _ => [i, j, k]
  | _ => []

/-- The buffer of its call. -/
def buf : Pc → Option ℕ
  | .idle => none
  | .acquire b _ | .alloc b _ | .asleep b _ | .format b _ _ _ _ | .ring b _ _ _
  | .publish b _ _ _ | .check b _ _ _ _ | .sleeping b _ _ _ _ | .finish b _ _ _ _
  | .release b _ => some b

/-- It holds `vdisk_lock`. -/
def holds : Pc → Bool
  | .idle | .acquire _ _ | .asleep _ _ | .sleeping _ _ _ _ _ => false
  | _ => true

/-- The buffer, the head and the number of the request it waits for. -/
def waits : Pc → Option (ℕ × ℕ × ℕ)
  | .check b i _ _ n | .sleeping b i _ _ n => some (b, i, n)
  | _ => none

/-- The number of the request it has seen completed. -/
def through : Pc → Option ℕ
  | .finish _ _ _ _ n | .release _ n => some n
  | _ => none

theorem length_chain {pc : Pc} (h : pc.chain ≠ []) : pc.chain.length = 3 := by
  cases pc <;> first | rfl | exact absurd rfl h

theorem chain_ne_nil {pc : Pc} {b i n : ℕ} (h : pc.waits = some (b, i, n)) :
    i ∈ pc.chain ∧ pc.chain.head? = some i ∧ pc.buf = some b := by
  cases pc <;> simp_all [waits, chain, buf]

end Pc

variable {s s' : State} {d d' : Disk} {b i j k n p q : ℕ} {pc : Pc}
  {l fetched placed handled done F U F' U' : List ℕ}

/-- **A request that waits** for the device or the handler: `F` are the
heads the device has not completed, `U` those the handler has not seen. -/
structure Waits (s : State) (F U : List ℕ) (b i n : ℕ) : Prop where
  request : s.request i = n
  buffer : s.requests[n]? = some b
  flag : s.flag b = true ↔ i ∈ F ++ U
  completed : n ∈ s.completed ↔ i ∉ F

/-- **What holds at each point of `virtio_disk_rw`.** -/
def At (s : State) (F U : List ℕ) : Pc → Prop
  | .format _ _ i _ _ => i ∉ F ++ U
  | .ring b i j k => Formed s.disk b i j k ∧ s.flag b = true ∧ i ∉ F ++ U
  | .publish b i j k =>
    Formed s.disk b i j k ∧ s.flag b = true ∧ i ∉ F ++ U ∧
      s.disk.avail (s.disk.availIdx % NUM) = i
  | .check b i j k n | .sleeping b i j k n => Formed s.disk b i j k ∧ Waits s F U b i n
  | .finish b i j k n => Formed s.disk b i j k ∧ i ∉ F ++ U ∧ n ∈ s.completed
  | .release _ n => n ∈ s.completed
  | _ => True

theorem Formed.congr (hf : Formed d b i j k)
    (hdesc : ∀ x ∈ [i, j, k], d'.desc x = d.desc x) (hinfo : d'.info i = d.info i) :
    Formed d' b i j k := by
  refine ⟨?_, ?_, ?_, hinfo.trans hf.info⟩
  · rw [hdesc i (by simp)]
    exact hf.first
  · rw [hdesc j (by simp)]
    exact hf.second
  · rw [hdesc k (by simp)]
    exact hf.third

/-- **What a step leaves alone**, as seen from a process at `pc`. -/
structure Frame (s s' : State) (F U F' U' : List ℕ) (pc : Pc) : Prop where
  desc : ∀ x ∈ pc.chain, s'.disk.desc x = s.disk.desc x
  info : ∀ x ∈ pc.chain, s'.disk.info x = s.disk.info x
  flag : ∀ b, pc.buf = some b → s'.flag b = s.flag b
  front : ∀ x ∈ pc.chain, x ∈ F' ↔ x ∈ F
  used : ∀ x ∈ pc.chain, x ∈ F' ++ U' ↔ x ∈ F ++ U
  request : ∀ x ∈ pc.chain, s'.request x = s.request x
  requests : s.requests <+: s'.requests
  completed : s.completed ⊆ s'.completed
  waiting : ∀ b i n, pc.waits = some (b, i, n) → n ∈ s'.completed → n ∈ s.completed
  avail : ∀ b i j k, pc = .publish b i j k →
    s'.disk.avail (s'.disk.availIdx % NUM) = s.disk.avail (s.disk.availIdx % NUM)

theorem Frame.waits (h : Frame s s' F U F' U' pc) (hpc : pc.waits = some (b, i, n))
    (hw : Waits s F U b i n) : Waits s' F' U' b i n := by
  obtain ⟨hi, -, hb⟩ := Pc.chain_ne_nil hpc
  refine ⟨(h.request i hi).trans hw.request, ?_, ?_, ?_⟩
  · obtain ⟨more, hmore⟩ := h.requests
    rw [← hmore, getElem?_append_left (List.getElem?_eq_some_iff.1 hw.buffer).1]
    exact hw.buffer
  · rw [h.flag b hb, h.used i hi]
    exact hw.flag
  · rw [h.front i hi, ← hw.completed]
    exact ⟨h.waiting _ _ _ hpc, fun hn => h.completed hn⟩

/-- **What holds at a point depends on what the frame leaves alone.** -/
theorem At.frame (hat : At s F U pc) (h : Frame s s' F U F' U' pc) : At s' F' U' pc := by
  cases pc with
  | idle | acquire | alloc | asleep => trivial
  | format => exact mt (h.used _ (by simp [Pc.chain])).1 hat
  | ring =>
    obtain ⟨hf, hb, hi⟩ := hat
    exact ⟨hf.congr h.desc (h.info _ (by simp [Pc.chain])), (h.flag _ rfl).trans hb,
      mt (h.used _ (by simp [Pc.chain])).1 hi⟩
  | publish =>
    obtain ⟨hf, hb, hi, ha⟩ := hat
    exact ⟨hf.congr h.desc (h.info _ (by simp [Pc.chain])), (h.flag _ rfl).trans hb,
      mt (h.used _ (by simp [Pc.chain])).1 hi, (h.avail _ _ _ _ rfl).trans ha⟩
  | check | sleeping =>
    obtain ⟨hf, hw⟩ := hat
    exact ⟨hf.congr h.desc (h.info _ (by simp [Pc.chain])), h.waits rfl hw⟩
  | finish =>
    obtain ⟨hf, hi, hn⟩ := hat
    exact ⟨hf.congr h.desc (h.info _ (by simp [Pc.chain])),
      mt (h.used _ (by simp [Pc.chain])).1 hi, h.completed hn⟩
  | release => exact h.completed hat

/-- What holds where a process waits. -/
theorem At.of_waits (hpc : pc.waits = some (b, i, n)) (hchain : pc.chain = [i, j, k])
    (hf : Formed s.disk b i j k) (hw : Waits s F U b i n) : At s F U pc := by
  cases pc with
  | check | sleeping =>
    cases hpc
    cases hchain
    exact ⟨hf, hw⟩
  | _ => cases hpc

/-- Nothing has happened. -/
theorem Frame.refl (s : State) (F U : List ℕ) (pc : Pc) : Frame s s F U F U pc where
  desc _ _ := rfl
  info _ _ := rfl
  flag _ _ := rfl
  front _ _ := .rfl
  used _ _ := .rfl
  request _ _ := rfl
  requests := ⟨[], append_nil _⟩
  completed _ := id
  waiting _ _ _ _ := id
  avail _ _ _ _ _ := rfl

/-- The heads the device has not completed: in the avail ring, taken, or
written to the used ring only. -/
def front (s : State) (fetched placed : List ℕ) : List ℕ :=
  placed.drop fetched.length ++ s.pending ++ s.written.toList

/-- **The invariant**, over the processes in flight and the heads that went
through the two rings. -/
structure Inv (s : State) (l fetched placed handled done : List ℕ) : Prop where
  panic : s.panic = none
  nodup : l.Nodup
  mem : ∀ p, p ∈ l ↔ (s.pc p).chain ≠ []
  taken : Taken s.disk (l.flatMap fun p => (s.pc p).chain)
  lock : ∀ p, (s.pc p).holds = true ↔ s.lock = some (.proc p)
  intr : s.intr ≠ .idle ↔ s.lock = some .intr
  owner : ∀ p b, (s.pc p).buf = some b → s.owner b = some p
  avail : Carries NUM (2 ^ 16) s.disk.avail s.seen s.disk.availIdx fetched placed
  used : Carries NUM (2 ^ 16) s.disk.elems (handled.length % 2 ^ 16) s.disk.usedId handled done
  usedIdx : s.disk.usedIdx = handled.length % NUM
  slot : ∀ h, s.written = some h → s.disk.elems (s.disk.usedId % NUM) = h
  once : (front s fetched placed ++ done.drop handled.length).Nodup
  flight : ∀ h ∈ front s fetched placed ++ done.drop handled.length,
    ∃ p b n, (s.pc p).waits = some (b, h, n)
  at' : ∀ p, At s (front s fetched placed) (done.drop handled.length) (s.pc p)
  length : s.completed.length = done.length
  completed : s.completed.drop handled.length = (done.drop handled.length).map s.request
  cleared : s.cleared.map some = (s.completed.take handled.length).map (s.requests[·]?)
  distinct : s.completed.Nodup
  known : ∀ n ∈ s.completed, n < s.requests.length
  body : s.intr = .body → handled.length < done.length

theorem Inv.boot : Inv boot [] [] [] [] [] where
  panic := rfl
  nodup := nodup_nil
  mem p := by simp [Virtio.boot, Pc.chain]
  taken := ⟨nodup_nil, by simp [Virtio.boot]⟩
  lock p := by simp [Virtio.boot, Pc.holds]
  intr := by simp [Virtio.boot]
  owner p b := by simp [Virtio.boot, Pc.buf]
  avail := .empty ..
  used := .empty ..
  usedIdx := rfl
  slot := by simp [Virtio.boot]
  once := nodup_nil
  flight := by simp [Virtio.boot, front]
  at' p := trivial
  length := rfl
  completed := rfl
  cleared := rfl
  distinct := nodup_nil
  known := by simp [Virtio.boot]
  body := by simp [Virtio.boot]

namespace Inv

variable (h : Inv s l fetched placed handled done)

include h

/-! ## What the invariant says -/

/-- **No descriptor belongs to two chains.** -/
theorem apart (hpq : p ≠ q)
    (hi : i ∈ (s.pc p).chain) : i ∉ (s.pc q).chain := by
  intro hq
  have hp' : p ∈ l := (h.mem p).2 fun he => by rw [he] at hi; cases hi
  have hq' : q ∈ l := (h.mem q).2 fun he => by rw [he] at hq; cases hq
  obtain ⟨l₁, l₂, rfl⟩ := append_of_mem hp'
  have hql : q ∈ l₁ ∨ q ∈ l₂ := by
    simp only [mem_append, mem_cons] at hq'
    tauto
  have hnd := h.taken.nodup
  simp only [flatMap_append, flatMap_cons, nodup_append, mem_append,
    mem_flatMap] at hnd
  obtain hql | hql := hql
  · exact hnd.2.2 i ⟨q, hql, hq⟩ i (.inl hi) rfl
  · exact hnd.2.1.2.2 i hi i ⟨q, hql, hq⟩ rfl

/-- The descriptors of a chain are different. -/
theorem nodup_chain : (s.pc p).chain.Nodup := by
  by_cases hp : p ∈ l
  · exact (nodup_flatMap.1 h.taken.nodup).1 p hp
  · rw [h.mem, not_not] at hp
    rw [hp]
    exact nodup_nil

/-- Callers have different buffers. -/
theorem buf_inj (hp : (s.pc p).buf = some b)
    (hq : (s.pc q).buf = some b) : p = q := by
  have := (h.owner p b hp).symm.trans (h.owner q b hq)
  cases this
  rfl

/-- What holds of a process that waits. -/
theorem waiting
    (hp : (s.pc p).waits = some (b, i, n)) :
    (∃ j k, (s.pc p).chain = [i, j, k] ∧ Formed s.disk b i j k) ∧
      Waits s (front s fetched placed) (done.drop handled.length) b i n := by
  have hat := h.at' p
  cases hpc : s.pc p with
  | check | sleeping =>
    rw [hpc] at hat hp
    cases hp
    exact ⟨⟨_, _, rfl, hat.1⟩, hat.2⟩
  | _ => rw [hpc] at hp; cases hp

theorem length_taken : (l.flatMap fun p => (s.pc p).chain).length = 3 * l.length := by
  have hlen : l.map (fun p => (s.pc p).chain.length) = l.map fun _ => 3 :=
    map_congr_left fun p hp => Pc.length_chain ((h.mem p).1 hp)
  rw [length_flatMap, hlen, map_const', sum_replicate_nat, Nat.mul_comm]

/-- **At most two requests are in flight.** -/
theorem length_flight : (front s fetched placed ++ done.drop handled.length).length ≤ 2 := by
  have hsub : front s fetched placed ++ done.drop handled.length ⊆
      l.filterMap fun p => (s.pc p).chain.head? := by
    intro i hi
    obtain ⟨p, b, n, hp⟩ := h.flight i hi
    obtain ⟨hchain, hhead, -⟩ := Pc.chain_ne_nil hp
    refine mem_filterMap.2 ⟨p, (h.mem p).2 fun he => ?_, hhead⟩
    rw [he] at hchain
    cases hchain
  have hle := (subperm_of_subset h.once hsub).length_le
  have hlen := length_filterMap_le (fun p => (s.pc p).chain.head?) l
  have htaken := h.taken.nfree_add
  rw [h.length_taken, show NUM = 8 from rfl] at htaken
  omega

theorem length_front :
    placed.length - fetched.length + s.pending.length + s.written.toList.length +
      (done.length - handled.length) ≤ 2 := by
  have := h.length_flight
  simpa [front, Nat.add_assoc] using this

/-- **The handler's test** tells whether a completion is left. -/
theorem test_iff : s.disk.usedIdx % NUM = s.disk.usedId % NUM ↔ handled.length = done.length := by
  have hle := h.used.length_le
  have hlen := h.length_front
  rw [h.usedIdx, h.used.write, Nat.mod_mod, Nat.mod_mod_of_dvd _ (by decide)]
  exact ⟨eq_of_mod_eq hle (by rw [show NUM = 8 from rfl]; omega), fun heq => by rw [heq]⟩

end Inv

end Virtio

end Xv6
