import Xv6.Pipe.Fifo
import Xv6.Vm.SysPipe
/-!
# Reading from a pipe to user memory — `piperead` of `kernel/pipe.c`

The reader has `pi->lock` from its last test of an empty pipe to its
return, so that no other process comes between. A byte is taken out of the
ring before it is copied out: if its address is not mapped, it is in
neither place when `piperead` returns.
-/

namespace Xv6

open Common Function List

/-- The bytes in the pipe, the next to be read first. -/
def Pipe.contents (pi : Pipe) : List UInt8 :=
  (List.range pi.size).map fun j => pi.data ((pi.nread + j) % PIPESIZE)

theorem Pipe.contents_of_empty {pi : Pipe} (hlt : pi.nread < 2 ^ 32) (h : pi.empty) :
    pi.contents = [] := by
  have hsize : pi.size = 0 := by
    have heq : pi.nread = pi.nwrite := h
    rw [Pipe.size]
    omega
  rw [Pipe.contents, hsize]
  rfl

/-- The next byte to be read is the first. -/
theorem Pipe.contents_take {pi : Pipe} (hr : pi.nread < 2 ^ 32) (hw : pi.nwrite < 2 ^ 32)
    (h : ¬ pi.empty) : pi.contents = pi.next :: pi.take.contents := by
  have hne : pi.nread ≠ pi.nwrite := h
  have hsize : pi.size = pi.take.size + 1 := by
    simp only [Pipe.size, Pipe.take]
    omega
  have htail : ∀ j, (pi.nread + (j + 1)) % PIPESIZE = ((pi.nread + 1) % 2 ^ 32 + j) % PIPESIZE := by
    intro j
    simp only [PIPESIZE]
    omega
  rw [Pipe.contents, hsize, range_succ_eq_map, map_cons, map_map, Pipe.contents]
  refine congrArg₂ _ rfl (map_congr_left fun j _ => ?_)
  exact congrArg pi.data (htail j)

namespace Vm

variable {o : ℕ → Owner} {s s' : State} {p r pi addr : ℕ}

/-- `struct pipe` in its page: the lock takes 24 bytes. -/
def pipeAt (mem : ℕ → Page) (pi : ℕ) : Pipe where
  data i := if i < PIPESIZE then (mem pi).get (24 + i) else 0
  nread := (mem pi).readLE 536 4
  nwrite := (mem pi).readLE 540 4
  readopen := opened mem pi false ≠ 0
  writeopen := opened mem pi true ≠ 0

/-- The second loop of `piperead`; the count is of the bytes from `i` on. -/
def pipereadLoop (pagetable pi addr : ℕ) : ℕ → ℕ → Kern State ℕ
  | 0, i => return i
  | m + 1, i => do
    let pipe ← Prog.gets fun s => pipeAt s.mem pi
    if pipe.empty then
      return i
    let ch := pipe.next
    store pi 536 4 (pipe.nread + 1)
    if !(← copyout pagetable ((addr + i) % 2 ^ 64) [ch]) then
      return i
    pipereadLoop pagetable pi addr m (i + 1)

/-- `piperead`. With nothing to read and the write end open it sleeps, and
tests again when it is woken: it has not returned then. -/
def piperead (p pi addr : ℕ) (n : ℤ) (killed : Bool) : Kern State (Option ℤ) := do
  let pipe ← Prog.gets fun s => pipeAt s.mem pi
  if pipe.empty ∧ pipe.writeopen then
    return if killed then some (-1) else none
  let pagetable ← Prog.gets fun s => (s.proc p).pagetable
  let i ← pipereadLoop pagetable pi addr n.toNat 0
  return some i

/-- **The first `l` of some bytes have been read** from the pipe to user
memory, and nothing else has changed. -/
structure Read (s s' : State) (r pi addr : ℕ) (bytes : List UInt8) (l : ℕ) : Prop where
  good : ∀ j, j < l → (translate s.mem r (addr + j)).isSome
  stored : ∀ j, j < l → userByte s'.mem r (addr + j) = bytes[j]?
  pte : pteAt s'.mem r = pteAt s.mem r
  kept : ∀ pa, pgRoundDown pa ≠ pi → (∀ j, j < l → translate s.mem r (addr + j) ≠ some pa) →
    byteOf s'.mem pa = byteOf s.mem pa
  rest : s' = { s with mem := s'.mem }

theorem Read.refl {c : List UInt8} : Read s s r pi addr c 0 :=
  ⟨fun _ hj => absurd hj (Nat.not_lt_zero _), fun _ hj => absurd hj (Nat.not_lt_zero _), rfl,
    fun _ _ _ => rfl, rfl⟩

/-- A page table for copying that maps neither the page of the pipe nor is
in it. -/
structure OffPipe (o : ℕ → Owner) (mem : ℕ → Page) (r pi : ℕ) : Prop where
  separate : Separate o mem r
  pipe : o pi = .pipe
  user : ∀ i, UserPte (pteAt mem r i) → o (pte2pa (pteAt mem r i)) ≠ .pipe

theorem OffPipe.congr {mem mem' : ℕ → Page} (h : OffPipe o mem r pi)
    (hm : ∀ b d j, o b = .table r d j → mem' b = mem b) :
    OffPipe o mem' r pi ∧ pteAt mem' r = pteAt mem r := by
  obtain ⟨hsep, hpte⟩ := h.separate.congr hm
  refine ⟨⟨hsep, h.pipe, ?_⟩, hpte⟩
  rw [hpte]
  exact h.user

/-- **A pipe in a page that was free** is off every address space. -/
theorem Holding.offPipe {k : Symbols} {ptes : List ℕ} {f : ℕ → UInt8} {X : ℕ → ℕ}
    (h : Space o s.mem r ptes f X) (hh : Heap k o s) (hX : Above X) (hpi : o pi = .free)
    (page : Page) : OffPipe (update o pi .pipe) (update s.mem pi page) r pi := by
  have hother : ∀ {b w}, o b = w → w ≠ .free → b ≠ pi := by
    rintro b w rfl hw rfl
    exact hw hpi
  obtain ⟨hsep, hpte⟩ := (h.separate hh hX).congr fun b d j hb =>
    update_of_ne (hother hb Owner.noConfusion) page s.mem
  have huser : ∀ i, UserPte (pteAt (update s.mem pi page) r i) →
      update o pi .pipe (pte2pa (pteAt (update s.mem pi page) r i)) = .user r i := by
    intro i hi
    rw [hpte] at hi ⊢
    have hown := h.own_of_userPte hX hi
    rw [update_of_ne (hother hown Owner.noConfusion), hown]
  refine ⟨⟨hsep.table.congr (fun _ _ _ _ => rfl) fun b d j => ?_, hsep.once, fun i hi d j => ?_,
    hsep.pos⟩, update_self .., fun i hi => ?_⟩
  · by_cases hb : b = pi
    · rw [hb, update_self, hpi]
      exact ⟨fun h => Owner.noConfusion h, fun h => Owner.noConfusion h⟩
    · rw [update_of_ne hb]
  · rw [huser i hi]
    exact Owner.noConfusion
  · rw [huser i hi]
    exact Owner.noConfusion

/-- Where user memory is, the pipe is not. -/
theorem OffPipe.ne {mem : ℕ → Page} {va pa : ℕ} (h : OffPipe o mem r pi)
    (hva : translate mem r va = some pa) : pgRoundDown pa ≠ pi := by
  obtain ⟨-, hu, hpa, -⟩ := translate_eq_some.1 hva
  intro heq
  refine h.user _ hu ?_
  rw [← hpa, heq, h.pipe]

theorem pipeAt_congr {mem mem' : ℕ → Page} (h : mem' pi = mem pi) :
    pipeAt mem' pi = pipeAt mem pi := by
  unfold pipeAt opened
  rw [h]

theorem pipeAt_take {mem mem' : ℕ → Page}
    (h : mem' pi = (mem pi).writeLE 536 4 ((pipeAt mem pi).nread + 1)) :
    pipeAt mem' pi = (pipeAt mem pi).take := by
  have hdata : ∀ i, i < PIPESIZE → (mem' pi).get (24 + i) = (mem pi).get (24 + i) := by
    intro i hi
    rw [h, Bytes.writeLE, Bytes.get_splice, if_neg (by simp only [PIPESIZE] at hi; omega)]
  have hopen : ∀ w, opened mem' pi w = opened mem pi w := by
    intro w
    rw [opened, h, Bytes.readLE_writeLE_of_disjoint (by cases w <;> decide)]
    rfl
  have hread : (mem' pi).readLE 536 4 = ((pipeAt mem pi).nread + 1) % 2 ^ 32 := by
    rw [h, Bytes.readLE_writeLE (by decide)]
    rfl
  have hwrite : (mem' pi).readLE 540 4 = (mem pi).readLE 540 4 := by
    rw [h, Bytes.readLE_writeLE_of_disjoint (by decide)]
  simp only [pipeAt, Pipe.take, Pipe.mk.injEq, hopen, hwrite, and_true]
  refine ⟨funext fun i => ?_, hread⟩
  split
  · exact hdata i ‹_›
  · rfl

/-- The page of the pipe is written, whatever to. -/
theorem OffPipe.write {page : Page} {s₁ : State} (addr : ℕ) (h : OffPipe o s.mem r pi)
    (hmem : s₁.mem = update s.mem pi page) (hrest : s₁ = { s with mem := s₁.mem }) :
    OffPipe o s₁.mem r pi ∧ ∀ c, Read s s₁ r pi addr c 0 := by
  have hother : ∀ b, b ≠ pi → s₁.mem b = s.mem b := fun b hb => by rw [hmem, update_of_ne hb]
  obtain ⟨h₁, hpte⟩ := h.congr fun b d j hb => hother b fun hbp => by
    rw [hbp, h.pipe] at hb
    cases hb
  refine ⟨h₁, fun c => ⟨fun j hj => absurd hj (Nat.not_lt_zero j),
    fun j hj => absurd hj (Nat.not_lt_zero j), hpte, fun pa hpa _ => ?_, hrest⟩⟩
  rw [byteOf, byteOf, hother _ hpa]

/-- Storing to user memory leaves the pipe alone. -/
theorem OffPipe.stored {va n : ℕ} {src : List UInt8} (h : OffPipe o s.mem r pi)
    (hst : Stored s s' r va src n) : OffPipe o s'.mem r pi ∧ s'.mem pi = s.mem pi := by
  obtain ⟨hsep, hpte⟩ := hst.separate h.separate
  refine ⟨⟨hsep, h.pipe, by rw [hpte]; exact h.user⟩, hst.pages pi fun i hi heq => ?_⟩
  have huser := translate_isSome.1 (hst.good i hi)
  exact h.user _ huser.2 (by rw [heq, h.pipe])

/-- **One byte more has been read.** -/
theorem Read.cons {s₁ s₂ : State} {c : List UInt8} {ch : UInt8} {l va : ℕ}
    (h₁ : OffPipe o s₁.mem r pi) (hw : Read s s₁ r pi va c 0) (hst : Stored s₁ s₂ r va [ch] 1)
    (hread : Read s₂ s' r pi (va + 1) c l) : Read s s' r pi va (ch :: c) (l + 1) := by
  obtain ⟨-, hpte₂⟩ := hst.separate h₁.separate
  have htr₁ : ∀ a, translate s₁.mem r a = translate s.mem r a := fun a => by
    rw [translate, translate, hw.pte]
  have htr₂ : ∀ a, translate s₂.mem r a = translate s₁.mem r a := fun a => by
    rw [translate, translate, hpte₂]
  have hshift : ∀ j, va + (j + 1) = va + 1 + j := fun j => by omega
  refine ⟨fun j hj => ?_, fun j hj => ?_, ?_, fun pa hpa hnone => ?_, ?_⟩
  · cases j with
    | zero =>
      rw [← htr₁]
      exact hst.good 0 Nat.zero_lt_one
    | succ j =>
      rw [hshift, ← htr₁, ← htr₂]
      exact hread.good j (by omega)
  · cases j with
    | zero =>
      -- the bytes that follow go elsewhere
      obtain ⟨pa, hpa⟩ := Option.isSome_iff_exists.1 (hst.good 0 Nat.zero_lt_one)
      have hbyte := hst.userByte_eq h₁.separate 0 Nat.zero_lt_one
      have hkept := hread.kept pa (h₁.ne hpa) fun j hj hpa' => by
        rw [htr₂] at hpa'
        have := h₁.separate.translate_inj hpa hpa'
        omega
      rw [userByte, translate, hread.pte, ← translate, htr₂, hpa, Option.map_some, hkept]
      rwa [userByte, htr₂, hpa, Option.map_some] at hbyte
    | succ j =>
      rw [hshift, hread.stored j (by omega), getElem?_cons_succ]
  · rw [hread.pte, hpte₂, hw.pte]
  · rw [hread.kept pa hpa fun j hj => ?_, hst.kept pa fun j hj => ?_, hw.kept pa hpa fun j hj => ?_]
    · exact absurd hj (Nat.not_lt_zero j)
    · obtain rfl : j = 0 := by omega
      rw [htr₁]
      exact hnone 0 (by omega)
    · rw [htr₂, htr₁, ← hshift]
      exact hnone (j + 1) (by omega)
  · rw [hread.rest, hst.rest, hw.rest]

/-- **The second loop of `piperead`** reads up to the first byte that has no
place, and that one is lost. -/
theorem pipereadLoop_returns {m i : ℕ} (h : OffPipe o s.mem r pi) (hi : addr + i < 2 ^ 64) :
    Returns (pipereadLoop r pi addr m i) s fun j s' => ∃ l, j = i + l ∧
      Read s s' r pi (addr + i) (pipeAt s.mem pi).contents l ∧
      ((l = min m (pipeAt s.mem pi).contents.length ∧
          (pipeAt s'.mem pi).contents = (pipeAt s.mem pi).contents.drop l) ∨
        (l < min m (pipeAt s.mem pi).contents.length ∧ translate s.mem r (addr + i + l) = none ∧
          (pipeAt s'.mem pi).contents = (pipeAt s.mem pi).contents.drop (l + 1))) := by
  induction m generalizing i s with
  | zero =>
    refine .pure ⟨0, rfl, .refl, .inl ⟨(Nat.zero_min _).symm, rfl⟩⟩
  | succ m ih =>
    have hr : (pipeAt s.mem pi).nread < 2 ^ 32 := Bytes.readLE_lt ..
    have hw : (pipeAt s.mem pi).nwrite < 2 ^ 32 := Bytes.readLE_lt ..
    rw [pipereadLoop, Returns.gets_bind_iff]
    split
    · rename_i hempty
      refine .pure ⟨0, rfl, .refl, .inl ⟨?_, rfl⟩⟩
      rw [Pipe.contents_of_empty hr hempty, length_nil, Nat.min_zero]
    rename_i hempty
    rw [Pipe.contents_take hr hw hempty]
    simp only [store, Returns.modify_bind_iff]
    generalize hs₁ : State.mk _ _ _ _ _ _ _ = s₁
    have hmem₁ : s₁.mem = update s.mem pi
      ((s.mem pi).writeLE 536 4 ((pipeAt s.mem pi).nread + 1)) := by rw [← hs₁]
    have htake : pipeAt s₁.mem pi = (pipeAt s.mem pi).take :=
      pipeAt_take (by rw [hmem₁, update_self])
    obtain ⟨h₁, hwrite⟩ := h.write (addr + i) hmem₁ (by rw [← hs₁])
    rw [Nat.mod_eq_of_lt hi, ← htake]
    refine .bind ((copyout_stored h₁.separate (addr + i) _).mono ?_)
    rintro ok s₂ ⟨n, rfl, hst⟩
    have hle := hst.le
    rw [length_singleton] at hle
    obtain rfl | rfl : n = 0 ∨ n = 1 := by omega
    · -- the byte has been taken out, and has no place
      obtain rfl := hst.eq_of_zero
      have hnone := hst.stop Nat.zero_lt_one
      rw [translate, (hwrite []).pte, ← translate] at hnone
      exact .pure ⟨0, rfl, hwrite _, .inr ⟨by rw [length_cons]; omega, hnone, rfl⟩⟩
    · have hmapped := (translate_isSome.1 (hst.good 0 Nat.zero_lt_one)).1
      obtain ⟨h₂, hpipe₂⟩ := h₁.stored hst
      obtain ⟨-, hpte₂⟩ := hst.separate h₁.separate
      have htr : translate s₂.mem r = translate s.mem r := funext fun a => by
        rw [translate, translate, hpte₂, (hwrite []).pte]
      have hsame : pipeAt s₂.mem pi = pipeAt s₁.mem pi := pipeAt_congr hpipe₂
      refine (ih h₂ (by simp only [MAXVA] at hmapped; omega)).mono ?_
      rintro j s' ⟨l, rfl, hread, hres⟩
      rw [hsame, htr, ← Nat.add_assoc] at *
      refine ⟨l + 1, by omega, .cons h₁ (hwrite _) hst hread, ?_⟩
      rw [length_cons]
      rcases hres with ⟨hl, hc⟩ | ⟨hl, hnone, hc⟩
      · exact .inl ⟨by omega, hc⟩
      · exact .inr ⟨by omega, by rwa [show addr + i + (l + 1) = addr + i + 1 + l by omega], hc⟩

/-- **`piperead` removes what it returns** exactly if all it finds has a
place. -/
theorem piperead_removes {n : ℤ} (killed : Bool) (h : OffPipe o s.mem (s.proc p).pagetable pi)
    (haddr : addr < 2 ^ 64) :
    Returns (piperead p pi addr n killed) s fun res s' => ∀ ret : ℕ, res = some (ret : ℤ) →
      ((ret ≤ (pipeAt s.mem pi).contents.length ∧
        (pipeAt s'.mem pi).contents = (pipeAt s.mem pi).contents.drop ret ∧
        ∀ j, j < ret →
          userByte s'.mem (s.proc p).pagetable (addr + j) = (pipeAt s.mem pi).contents[j]?) ↔
      ∀ j : ℕ, j < n → j < (pipeAt s.mem pi).contents.length →
        (translate s.mem (s.proc p).pagetable (addr + j)).isSome) := by
  rw [piperead, Returns.gets_bind_iff]
  split
  · refine .pure fun ret hret => ?_
    cases killed <;> cases hret
  rw [Returns.gets_bind_iff]
  refine .bind ((pipereadLoop_returns h haddr).mono ?_)
  rintro i s' ⟨l, rfl, hread, hres⟩
  refine .pure fun ret hret => ?_
  obtain rfl : l = ret := by
    rw [Nat.zero_add, Option.some.injEq] at hret
    exact Int.ofNat.inj hret
  rcases hres with ⟨hl, hc⟩ | ⟨hl, hnone, hc⟩
  · exact ⟨fun _ j hj hlt => hread.good j (by omega), fun _ => ⟨by omega, hc, hread.stored⟩⟩
  · refine ⟨fun ⟨_, hdrop, _⟩ => ?_, fun hall => ?_⟩
    · -- one byte more is gone
      have hlen := congrArg length (hc.symm.trans hdrop)
      rw [length_drop, length_drop] at hlen
      omega
    · have hgood := hall l (by omega) (by omega)
      rw [Nat.add_zero] at hnone
      rw [hnone] at hgood
      cases hgood

/-- A pipe with two bytes in it. -/
def twoBytes : Page :=
  (((Bytes.writeLE (fun _ => 0) 24 2 (65 + 256 * 66)).writeLE 540 4 2).writeLE
    (openOff false) 4 1).writeLE (openOff true) 4 1

/-- The small machine with that pipe in a page that was free. -/
def pipeMachine : State :=
  { smallMachine with
    mem := update smallMachine.mem smallMachine.freelist twoBytes
    freelist := next smallMachine.mem smallMachine.freelist }

theorem pipeMachine_contents :
    (pipeAt pipeMachine.mem smallMachine.freelist).contents = [65, 66] := by
  decide +kernel

theorem pipeMachine_offPipe : ∃ o, OffPipe o pipeMachine.mem (pipeMachine.proc initproc).pagetable
    smallMachine.freelist := by
  obtain ⟨o, h⟩ := smallMachine_ready
  obtain ⟨ptes, f, hspace, -⟩ := h.space
  have hhead : smallMachine.freelist ≠ 0 := by decide +kernel
  obtain ⟨l, hl, -, hmem⟩ := h.heap.chain
  obtain ⟨l, rfl⟩ := hl.ne_nil hhead
  exact ⟨_, hspace.offPipe h.heap (above_kernelMap ..) ((hmem _).1 (mem_cons_self ..)) twoBytes⟩

theorem piperead_removes_two : Returns (piperead initproc smallMachine.freelist 4094 2 false)
    pipeMachine fun res s' => ∀ ret : ℕ, res = some (ret : ℤ) → ret ≤ 2 ∧
      (pipeAt s'.mem smallMachine.freelist).contents = [65, 66].drop ret ∧
      ∀ j, j < ret →
        userByte s'.mem (pipeMachine.proc initproc).pagetable (4094 + j) = [65, 66][j]? := by
  obtain ⟨o, h⟩ := pipeMachine_offPipe
  have hmapped : ∀ j, j < 2 →
      (translate pipeMachine.mem (pipeMachine.proc initproc).pagetable (4094 + j)).isSome := by
    decide +kernel
  have hreads := piperead_removes (n := 2) false h (by decide : 4094 < 2 ^ 64)
  rw [pipeMachine_contents] at hreads
  exact hreads.mono fun res s' hall ret hret => (hall ret hret).2 fun j hj _ => hmapped j (by omega)

/-- A byte is neither in the pipe nor in user memory: two bytes are to be
read to the last address of the only page, and one is returned. -/
theorem piperead_loses_byte :
    (pipeAt pipeMachine.mem smallMachine.freelist).contents = [65, 66] ∧
    Returns (piperead initproc smallMachine.freelist 4095 2 false) pipeMachine fun res s' =>
      (res, (pipeAt s'.mem smallMachine.freelist).contents) = (some 1, []) :=
  ⟨pipeMachine_contents, .of_run (by decide +kernel)⟩

end Vm

end Xv6
