import Xv6.Virtio.Invariant
/-!
# The descriptor protocol

Each step of a process, of the handler and of the device keeps the
invariant; from it, what the driver promises over every interleaving.
-/

namespace Xv6

open Common Function List

namespace Virtio

variable {s s' : State} {b i j k n p q : ℕ} {pc : Pc} {lock : Option Holder} {write : Bool}
  {l fetched placed handled done : List ℕ}

namespace Inv

/-- Who has the lock after a process has moved. -/
structure Locked (s : State) (p : ℕ) (pc : Pc) (lock : Option Holder) : Prop where
  holds : ∀ q, (update s.pc p pc q).holds = true ↔ lock = some (.proc q)
  intr : s.intr ≠ .idle ↔ lock = some .intr

theorem waits_update (hq : (s.pc q).waits = some (b, i, n))
    (hp : (s.pc p).waits = some (b, i, n) → pc.waits = some (b, i, n)) :
    (update s.pc p pc q).waits = some (b, i, n) := by
  by_cases hqp : q = p
  · rw [hqp, update_self]
    exact hp (hqp ▸ hq)
  · rw [update_of_ne hqp]
    exact hq

theorem chain_update (hchain : pc.chain = (s.pc p).chain) (q : ℕ) :
    (update s.pc p pc q).chain = (s.pc q).chain := by
  by_cases hq : q = p
  · rw [hq, update_self, hchain]
  · rw [update_of_ne hq]

variable (h : Inv s l fetched placed handled done)

include h

/-! ## Steps that only move a process -/

theorem owner_update (hbuf : ∀ b, pc.buf = some b → s.owner b = some p) :
    ∀ q b, (update s.pc p pc q).buf = some b → s.owner b = some q :=
  (forall_update_iff s.pc fun q c => ∀ b, c.buf = some b → s.owner b = some q).2
    ⟨hbuf, fun q _ => h.owner q⟩

/-- The chains in flight are not those of a process that does not wait. -/
theorem flight_update (hp : (s.pc p).waits = none) :
    ∀ x ∈ front s fetched placed ++ done.drop handled.length,
      ∃ q b n, (update s.pc p pc q).waits = some (b, x, n) := by
  intro x hx
  obtain ⟨q, b, n, hq⟩ := h.flight x hx
  refine ⟨q, b, n, waits_update hq fun hw => ?_⟩
  rw [hp] at hw
  cases hw

/-- Nobody else is where the lock is needed. -/
theorem holds_inj (hp : (s.pc p).holds = true)
    (hq : (s.pc q).holds = true) : p = q := by
  have := ((h.lock p).1 hp).symm.trans ((h.lock q).1 hq)
  cases this
  rfl

theorem not_publish (hp : (s.pc p).holds = true)
    (hq : q ≠ p) : s.pc q ≠ .publish b i j k := by
  intro he
  exact hq (h.holds_inj (by rw [he]; rfl) hp)

/-- A process in the interrupted code does not hold the lock. -/
theorem intr_idle (hp : (s.pc p).holds = true) : s.intr = .idle := by
  by_contra hne
  have := (h.intr.1 hne).symm.trans ((h.lock p).1 hp)
  cases this

theorem lock_keep
    (hpc : pc.holds = (s.pc p).holds) : Locked s p pc s.lock := by
  refine ⟨fun q => ?_, h.intr⟩
  rw [← h.lock q]
  by_cases hq : q = p
  · rw [hq, update_self, hpc]
  · rw [update_of_ne hq]

theorem lock_take (hlock : s.lock = none)
    (hpc : pc.holds = true) : Locked s p pc (some (.proc p)) := by
  refine ⟨fun q => ?_, ?_⟩
  · have := h.lock q
    by_cases hq : q = p
    · rw [hq, update_self, hpc]
      simp
    · rw [update_of_ne hq, this, hlock]
      simp [Ne.symm hq]
  · rw [h.intr, hlock]
    simp

theorem lock_drop (hp : (s.pc p).holds = true)
    (hpc : pc.holds = false) : Locked s p pc none := by
  refine ⟨fun q => ?_, ?_⟩
  · by_cases hq : q = p
    · rw [hq, update_self, hpc]
      simp
    · rw [update_of_ne hq]
      simp only [reduceCtorEq, iff_false]
      exact fun hq' => hq (h.holds_inj hq' hp)
  · rw [h.intr_idle hp]
    simp

/-- A step that changes neither disk nor buffers. -/
theorem move (hlock : Locked s p pc lock)
    (hchain : pc.chain = (s.pc p).chain) (hbuf : ∀ b, pc.buf = some b → s.owner b = some p)
    (hwaits : ∀ b i n, (s.pc p).waits = some (b, i, n) →
      i ∈ front s fetched placed ++ done.drop handled.length → pc.waits = some (b, i, n))
    (hat : At s (front s fetched placed) (done.drop handled.length) pc) :
    Inv { s with pc := update s.pc p pc, lock } l fetched placed handled done := by
  exact { h with
    mem := fun q => by rw [h.mem, chain_update hchain]
    taken := by
      simp only [chain_update hchain]
      exact h.taken
    lock := hlock.holds
    intr := hlock.intr
    owner := h.owner_update hbuf
    flight := by
      intro i hi
      obtain ⟨q, b, n, hq⟩ := h.flight i hi
      exact ⟨q, b, n, waits_update hq fun hp => hwaits b i n hp hi⟩
    at' := (forall_update_iff s.pc fun _ => At _ _ _).2
      ⟨hat.frame { Frame.refl s _ _ _ with },
        fun q _ => (h.at' q).frame { Frame.refl s _ _ _ with }⟩ }

/-! ## The steps of `virtio_disk_rw` -/

/-- Allocation succeeds. -/
theorem alloc (hp : s.pc p = .alloc b write)
    {free : ℕ → Bool}
    (hT : Taken { s.disk with free } ((l.flatMap fun p => (s.pc p).chain) ++ [i, j, k])) :
    Inv { s with
      disk := { s.disk with free }
      pc := update s.pc p (.format b write i j k) } (l ++ [p]) fetched placed handled done := by
  have hpl : p ∉ l := by
    rw [h.mem, hp]
    simp [Pc.chain]
  have hopen : i ∉ front s fetched placed ++ done.drop handled.length := by
    intro hi
    obtain ⟨q, b', n, hq⟩ := h.flight i hi
    have hmem := (Pc.chain_ne_nil hq).1
    have hql : q ∈ l := (h.mem q).2 fun he => by rw [he] at hmem; cases hmem
    exact (nodup_append.1 hT.nodup).2.2 i (mem_flatMap.2 ⟨q, hql, hmem⟩) i (by simp) rfl
  have hlock : Locked s p (.format b write i j k) s.lock := h.lock_keep (by rw [hp]; rfl)
  exact { h with
    nodup := nodup_append.2 ⟨h.nodup, by simp, by
      rintro x hx y hy rfl
      exact hpl (mem_singleton.1 hy ▸ hx)⟩
    mem := by
      intro q
      by_cases hq : q = p
      · simp [hq, Pc.chain]
      · simp [hq, h.mem]
    taken := by
      have hcongr : (l.flatMap fun q => (update s.pc p (.format b write i j k) q).chain) =
          l.flatMap fun q => (s.pc q).chain := by
        refine flatMap_congr fun q hq => ?_
        rw [update_of_ne (by rintro rfl; exact hpl hq)]
      rw [flatMap_append, hcongr]
      simpa [Pc.chain] using hT
    lock := hlock.holds
    intr := hlock.intr
    owner := h.owner_update fun b' hb => h.owner p b' (by rw [hp]; exact hb)
    flight := h.flight_update (by rw [hp]; rfl)
    at' := (forall_update_iff s.pc fun _ => At _ _ _).2
      ⟨hopen, fun q _ => (h.at' q).frame { Frame.refl s _ _ _ with }⟩ }

/-- The descriptors of a process that does not wait are its own to write,
and so are the fields of its buffer. -/
theorem format (hp : s.pc p = .format b write i j k) :
    Inv { s with disk := s.disk.format b write i j k, flag := update s.flag b true }
      l fetched placed handled done := by
  have hother : ∀ q, q ≠ p → ∀ x ∈ (s.pc q).chain, x ≠ i ∧ x ≠ j ∧ x ≠ k := by
    intro q hq x hx
    have hxp := h.apart hq hx
    rw [hp] at hxp
    simpa [Pc.chain] using hxp
  exact { h with
    taken := h.taken.congr rfl
    at' := by
      intro q
      by_cases hq : q = p
      · have hat := h.at' p
        rw [hq, hp] at *
        exact hat
      refine (h.at' q).frame { Frame.refl s _ _ _ with
        desc := fun x hx => ?_
        info := fun x hx => ?_
        flag := fun b' hb => ?_ }
      · obtain ⟨h1, h2, h3⟩ := hother q hq x hx
        simp [Disk.format, update_of_ne, h1, h2, h3]
      · simp [Disk.format, update_of_ne, (hother q hq x hx).1]
      · refine update_of_ne ?_ _ _
        rintro rfl
        exact hq (h.buf_inj hb (by rw [hp]; rfl)) }

/-- The slot of the avail ring that is written next is not in use. -/
theorem ring (hp : s.pc p = .ring b i j k) :
    Inv { s with disk := { s.disk with avail := update s.disk.avail (s.disk.availIdx % NUM) i } }
      l fetched placed handled done := by
  have hroom := h.length_front
  exact { h with
    taken := h.taken.congr rfl
    avail := h.avail.put (by decide) (by rw [show NUM = 8 from rfl]; omega) i
    at' := by
      intro q
      refine (h.at' q).frame { Frame.refl s _ _ _ with
        avail := fun b' i' j' k' hq => ?_ }
      by_cases hqp : q = p
      · rw [hqp, hp] at hq
        cases hq
      · exact absurd hq (h.not_publish (by rw [hp]; rfl) hqp) }

/-- A request is placed in the avail ring. -/
theorem publish (hp : s.pc p = .publish b i j k) :
    Inv { s with
      disk := { s.disk with availIdx := (s.disk.availIdx + 1) % 2 ^ 16 }
      pc := update s.pc p (.check b i j k s.requests.length)
      requests := s.requests ++ [b]
      request := update s.request i s.requests.length }
      l fetched (placed ++ [i]) handled done := by
  have hat := h.at' p
  rw [hp] at hat
  obtain ⟨hformed, hflag, hopen, havail⟩ := hat
  have hroom := h.length_front
  have hlock : Locked s p (.check b i j k s.requests.length) s.lock :=
    h.lock_keep (by rw [hp]; rfl)
  have hchain : (Pc.check b i j k s.requests.length).chain = (s.pc p).chain := by rw [hp]; rfl
  have hlen : ∀ n ∈ s.completed, n ≠ s.requests.length := fun n hn => (h.known n hn).ne
  have hfront : (front s fetched (placed ++ [i])).Perm (i :: front s fetched placed) := by
    rw [front, front, drop_append_of_le_length h.avail.length_le]
    simp
  have hall : (front s fetched (placed ++ [i]) ++ done.drop handled.length).Perm
      (i :: (front s fetched placed ++ done.drop handled.length)) := hfront.append_right _
  exact { h with
    mem := fun q => by rw [h.mem, chain_update hchain]
    taken := by
      simp only [chain_update hchain]
      exact h.taken.congr rfl
    lock := hlock.holds
    intr := hlock.intr
    owner := h.owner_update fun b' hb => h.owner p b' (by rw [hp]; exact hb)
    avail := h.avail.commit (by decide) (by rw [show NUM = 8 from rfl]; omega) havail
    once := hall.nodup_iff.2 (nodup_cons.2 ⟨hopen, h.once⟩)
    flight := by
      intro x hx
      obtain rfl | hx := mem_cons.1 (hall.mem_iff.1 hx)
      · refine ⟨p, b, s.requests.length, ?_⟩
        simp only [update_self]
        rfl
      · exact h.flight_update (by rw [hp]; rfl) x hx
    at' := by
      refine (forall_update_iff s.pc fun _ => At _ _ _).2 ⟨⟨⟨hformed.1, hformed.2, hformed.3,
        hformed.4⟩, ?_⟩, fun q hq => ?_⟩
      · refine ⟨update_self .., getElem?_concat_length .., iff_of_true hflag ?_,
          iff_of_false (fun hn => hlen _ hn rfl) (not_not.2 ?_)⟩
        · exact hall.mem_iff.2 mem_cons_self
        · exact hfront.mem_iff.2 mem_cons_self
      · have hne : ∀ x ∈ (s.pc q).chain, x ≠ i := by
          rintro x hx rfl
          exact h.apart hq hx (by rw [hp]; simp [Pc.chain])
        refine (h.at' q).frame
          { Frame.refl s (front s fetched placed) (done.drop handled.length) (s.pc q) with
          front := fun x hx => hfront.mem_iff.trans (by simp [hne x hx])
          used := fun x hx => hall.mem_iff.trans (by simp [hne x hx])
          request := fun x hx => update_of_ne (hne x hx) ..
          requests := ⟨[b], rfl⟩
          avail := fun b' i' j' k' hq' => ?_ }
        exact absurd hq' (h.not_publish (by rw [hp]; rfl) hq)
    completed := by
      refine h.completed.trans (map_congr_left fun x hx => ?_)
      refine (update_of_ne ?_ _ _).symm
      rintro rfl
      exact hopen (mem_append_right _ hx)
    cleared := by
      refine h.cleared.trans (map_congr_left fun n hn => ?_)
      exact (getElem?_append_left (h.known n (mem_of_mem_take hn))).symm
    known := by
      intro n hn
      rw [length_append]
      exact Nat.lt_add_right _ (h.known n hn) }

/-- **`free_chain` does not panic**, and the chain is gone. -/
theorem finish (hp : s.pc p = .finish b i j k n)
    (info : Info) :
    ∃ free l', Disk.freeChain (NUM + 1) i { s.disk with info := update s.disk.info i info } =
        .ok { s.disk with info := update s.disk.info i info, free } ∧
      Inv { s with
        disk := { s.disk with info := update s.disk.info i info, free }
        pc := update s.pc p (.release b n) } l' fetched placed handled done := by
  have hat := h.at' p
  rw [hp] at hat
  obtain ⟨hformed, hopen, hn⟩ := hat
  obtain ⟨l₁, l₂, rfl⟩ := append_of_mem ((h.mem p).2 (by rw [hp]; simp [Pc.chain]))
  have hpl := (nodup_cons.1 (nodup_middle.1 h.nodup))
  have hT := h.taken
  rw [flatMap_append, flatMap_cons, hp] at hT
  have hT₁ : Taken { s.disk with info := update s.disk.info i info } _ := hT.congr rfl
  obtain ⟨free, hrun, hT'⟩ := hT₁.freeChain hformed.first hformed.second hformed.third
  have hcongr : ((l₁ ++ l₂).flatMap fun q => (update s.pc p (.release b n) q).chain) =
      (l₁ ++ l₂).flatMap fun q => (s.pc q).chain := by
    refine flatMap_congr fun q hq => ?_
    rw [update_of_ne (by rintro rfl; exact hpl.1 hq)]
  have hlock : Locked s p (.release b n) s.lock := h.lock_keep (by rw [hp]; rfl)
  refine ⟨free, l₁ ++ l₂, hrun, { h with
    nodup := hpl.2
    mem := fun q => ?_
    taken := ?_
    lock := hlock.holds
    intr := hlock.intr
    owner := h.owner_update fun b' hb => h.owner p b' (by rw [hp]; exact hb)
    flight := h.flight_update (by rw [hp]; rfl)
    at' := ?_ }⟩
  · have hmem := h.mem q
    by_cases hq : q = p
    · subst hq
      simpa [Pc.chain] using hpl.1
    · simpa [hq] using hmem
  · rw [hcongr, flatMap_append]
    exact hT'
  · refine (forall_update_iff s.pc fun _ => At _ _ _).2 ⟨hn, fun q hq => ?_⟩
    refine (h.at' q).frame { Frame.refl s _ _ _ with
      info := fun x hx => update_of_ne ?_ .. }
    rintro rfl
    exact h.apart hq hx (by rw [hp]; simp [Pc.chain])

/-! ## The handler -/

/-- **The handler's loop body** clears the flag of the buffer whose request
was completed next, and only that. -/
theorem body_eq (hintr : s.intr = .body) :
    ∃ p b n, (s.pc p).waits = some (b, s.disk.elems s.disk.usedIdx, n) ∧
      s.handle = { s with
        flag := update s.flag b false
        disk := { s.disk with usedIdx := (s.disk.usedIdx + 1) % NUM }
        intr := .test
        cleared := s.cleared ++ [b] } ∧
      done.drop handled.length = s.disk.elems s.disk.usedIdx :: done.drop (handled.length + 1) := by
  have hdrop := h.used.drop_eq (by decide) (h.body hintr)
  rw [Nat.mod_mod_of_dvd _ (by decide), ← h.usedIdx] at hdrop
  obtain ⟨p, b, n, hp⟩ := h.flight (s.disk.elems s.disk.usedIdx)
    (mem_append_right _ (by rw [hdrop]; exact mem_cons_self))
  obtain ⟨⟨j, k, -, hformed⟩, -⟩ := h.waiting hp
  refine ⟨p, b, n, hp, ?_, hdrop⟩
  simp only [State.handle, hintr, hformed.info]
  simp

theorem body_step (hintr : s.intr = .body) :
    ∃ handled, Inv s.handle l fetched placed handled done := by
  obtain ⟨p, b, n, hp, heq, hdrop⟩ := h.body_eq hintr
  obtain ⟨⟨j, k, hchain, hformed⟩, hwaits⟩ := h.waiting hp
  have hlt := h.body hintr
  have hnext : done.drop (handled ++ [s.disk.elems s.disk.usedIdx]).length =
      done.drop (handled.length + 1) := by rw [length_append, length_singleton]
  have hnd := h.once
  rw [hdrop] at hnd
  have hgone : s.disk.elems s.disk.usedIdx ∉
      front s fetched placed ++ done.drop (handled.length + 1) :=
    (nodup_cons.1 (nodup_middle.1 hnd)).1
  have hcur : s.completed[handled.length]? = some n := by
    have hhead := congrArg List.head? h.completed
    rw [hdrop, head?_drop, map_cons, head?_cons, hwaits.request] at hhead
    exact hhead
  refine ⟨handled ++ [s.disk.elems s.disk.usedIdx], ?_⟩
  rw [heq]
  exact { h with
    taken := h.taken.congr rfl
    intr := by
      have hl := h.intr.1 (by rw [hintr]; simp)
      simp [hl]
    used := by
      have hpop := h.used.pop (by decide) (by decide)
        (mt (h.used.read_eq_write_iff (by decide)).1 hlt.ne)
      rw [Nat.mod_mod_of_dvd _ (by decide), ← h.usedIdx, Nat.mod_add_mod] at hpop
      rw [length_append, length_singleton]
      exact hpop
    usedIdx := by
      rw [h.usedIdx, Nat.mod_add_mod, length_append, length_singleton]
    once := by
      rw [hnext]
      exact (nodup_cons.1 (nodup_middle.1 hnd)).2
    flight := by
      intro x hx
      rw [hnext] at hx
      refine h.flight x ?_
      rw [hdrop]
      simp only [mem_append, mem_cons] at hx ⊢
      tauto
    at' := by
      intro q
      rw [hnext]
      by_cases hq : q = p
      · subst hq
        exact .of_waits hp hchain ⟨hformed.1, hformed.2, hformed.3, hformed.4⟩
          ⟨hwaits.request, hwaits.buffer, iff_of_false (by simp) hgone, hwaits.completed⟩
      have hne : ∀ x ∈ (s.pc q).chain, x ≠ s.disk.elems s.disk.usedIdx := by
        rintro x hx rfl
        exact h.apart hq hx (Pc.chain_ne_nil hp).1
      refine (h.at' q).frame
        { Frame.refl s (front s fetched placed) (done.drop handled.length) (s.pc q) with
        flag := fun b' hb => update_of_ne ?_ ..
        used := fun x hx => ?_ }
      · rintro rfl
        exact hq (h.buf_inj hb (Pc.chain_ne_nil hp).2.2)
      · rw [hdrop, mem_append, mem_append, mem_cons, or_iff_right (hne x hx)]
        rfl
    completed := by
      have htail := congrArg List.tail h.completed
      rw [hdrop, tail_drop] at htail
      rw [hnext, length_append, length_singleton]
      exact htail
    cleared := by
      rw [map_append, h.cleared, length_append, length_singleton,
        take_add_one, hcur, map_append]
      exact congrArg _ (congrArg (fun x => [x]) hwaits.buffer.symm)
    body := by simp }

/-! ## The device -/

/-- The device takes a chain from the avail ring. -/
theorem fetch (hne : s.seen ≠ s.disk.availIdx) :
    ∃ fetched, Inv (Act.next s .fetch) l fetched placed handled done := by
  have hlt : fetched.length < placed.length :=
    lt_of_le_of_ne h.avail.length_le fun he => hne ((h.avail.read_eq_write_iff (by decide)).2 he)
  have hdrop := h.avail.drop_eq (by decide) hlt
  refine ⟨fetched ++ [s.disk.avail (s.seen % NUM)], ?_⟩
  have hfront : (front (Act.next s .fetch) (fetched ++ [s.disk.avail (s.seen % NUM)]) placed).Perm
      (front s fetched placed) := by
    rw [front, front, hdrop, length_append, length_singleton]
    exact perm_middle.append_right _
  have hall := hfront.append_right (done.drop handled.length)
  exact { h with
    avail := h.avail.pop (by decide) (by decide) hne
    once := hall.nodup_iff.2 h.once
    flight := fun x hx => h.flight x (hall.mem_iff.1 hx)
    at' := fun q => (h.at' q).frame
      { Frame.refl s (front s fetched placed) (done.drop handled.length) (s.pc q) with
      front := fun _ _ => hfront.mem_iff
      used := fun _ _ => hall.mem_iff } }

/-- The device writes the used element of a chain it has taken. -/
theorem complete (hi : i ∈ s.pending)
    (hw : s.written = none) : Inv (Act.next s (.complete i)) l fetched placed handled done := by
  have hmem : i ∈ front s fetched placed ++ done.drop handled.length := by
    simp [front, hi]
  obtain ⟨p, b, n, hp⟩ := h.flight i hmem
  obtain ⟨⟨j, k, -, hformed⟩, -⟩ := h.waiting hp
  -- the status was 0 before
  have hinfo : update s.disk.info i { s.disk.info i with status := 0 } = s.disk.info := by
    rw [hformed.info]
    exact (congrArg _ hformed.info.symm).trans (update_eq_self ..)
  have hroom := h.length_front
  have hfront : (front (Act.next s (.complete i)) fetched placed).Perm (front s fetched placed) := by
    rw [front, front, hw, append_assoc, append_assoc]
    refine List.Perm.append_left _ ?_
    refine (perm_append_comm.trans (perm_cons_erase hi).symm).trans ?_
    rw [Option.toList_none, append_nil]
  have hall := hfront.append_right (done.drop handled.length)
  exact { h with
    taken := h.taken.congr rfl
    used := h.used.put (by decide) (by rw [show NUM = 8 from rfl]; omega) i
    slot := by
      rintro x hx
      cases hx
      exact update_self ..
    once := hall.nodup_iff.2 h.once
    flight := fun x hx => h.flight x (hall.mem_iff.1 hx)
    at' := fun q => (h.at' q).frame
      { Frame.refl s (front s fetched placed) (done.drop handled.length) (s.pc q) with
      info := fun x _ => congrFun hinfo x
      front := fun _ _ => hfront.mem_iff
      used := fun _ _ => hall.mem_iff } }

/-- The device tells of the used element it has written. -/
theorem advance (hw : s.written = some i) :
    Inv (Act.next s .advance) l fetched placed handled (done ++ [i]) := by
  have hmem : i ∈ front s fetched placed := by
    simp [front, hw]
  obtain ⟨p, b, n, hp⟩ := h.flight i (mem_append_left _ hmem)
  obtain ⟨⟨j, k, hchain, hformed⟩, hwaits⟩ := h.waiting hp
  have hroom := h.length_front
  have hfresh : n ∉ s.completed := fun hn => hwaits.completed.1 hn hmem
  have hcompleted : (Act.next s .advance).completed = s.completed ++ [n] := by
    simp [Act.next, hw, hwaits.request]
  have hdone : (done ++ [i]).drop handled.length = done.drop handled.length ++ [i] :=
    drop_append_of_le_length h.used.length_le
  have hfront : front s fetched placed = front (Act.next s .advance) fetched placed ++ [i] := by
    simp [front, Act.next, hw]
  have hall : (front (Act.next s .advance) fetched placed ++ (done ++ [i]).drop handled.length).Perm
      (front s fetched placed ++ done.drop handled.length) := by
    rw [hdone, hfront, append_assoc]
    exact List.Perm.append_left _ perm_append_comm
  have hgone : i ∉ front (Act.next s .advance) fetched placed := by
    have hnd := (nodup_append.1 h.once).1
    rw [hfront, nodup_append] at hnd
    exact fun hi => hnd.2.2 i hi i (by simp) rfl
  have hle : handled.length ≤ s.completed.length := by
    rw [h.length]
    exact h.used.length_le
  exact { h with
    taken := h.taken.congr rfl
    used := h.used.commit (by decide) (by rw [show NUM = 8 from rfl]; omega) (h.slot i hw)
    slot := by
      intro x hx
      cases hx
    once := hall.nodup_iff.2 h.once
    flight := fun x hx => h.flight x (hall.mem_iff.1 hx)
    at' := by
      intro q
      by_cases hq : q = p
      · subst hq
        refine .of_waits hp hchain ⟨hformed.1, hformed.2, hformed.3, hformed.4⟩
          ⟨hwaits.request, hwaits.buffer, hwaits.flag.trans hall.mem_iff.symm, ?_⟩
        rw [hcompleted]
        exact iff_of_true (by simp) hgone
      · have hne : ∀ x ∈ (s.pc q).chain, x ≠ i := by
          rintro x hx rfl
          exact h.apart hq hx (Pc.chain_ne_nil hp).1
        refine (h.at' q).frame
          { Frame.refl s (front s fetched placed) (done.drop handled.length) (s.pc q) with
          front := fun x hx => ?_
          used := fun _ _ => hall.mem_iff
          completed := by
            rw [hcompleted]
            exact subset_append_left _ _
          waiting := fun b' i' n' hq' hn => ?_ }
        · rw [hfront, mem_append, mem_singleton, or_iff_left (hne x hx)]
        · rw [hcompleted, mem_append, mem_singleton] at hn
          refine hn.resolve_right ?_
          rintro rfl
          -- the two requests would have one buffer
          have hb := (h.waiting hq').2.buffer.symm.trans hwaits.buffer
          cases hb
          exact hq (h.buf_inj (Pc.chain_ne_nil hq').2.2 (Pc.chain_ne_nil hp).2.2)
    length := by
      rw [hcompleted, length_append, length_append, h.length]
      rfl
    completed := by
      rw [hcompleted, drop_append_of_le_length hle, h.completed, hdone, map_append,
        map_singleton]
      exact congrArg (fun x => _ ++ [x]) hwaits.request.symm
    cleared := by
      rw [hcompleted, take_append_of_le_length hle]
      exact h.cleared
    distinct := by
      rw [hcompleted]
      refine nodup_append.2 ⟨h.distinct, by simp, ?_⟩
      rintro x hx y hy rfl
      exact hfresh (mem_singleton.1 hy ▸ hx)
    known := by
      intro x hx
      rw [hcompleted, mem_append, mem_singleton] at hx
      obtain hx | rfl := hx
      · exact h.known x hx
      · exact (List.getElem?_eq_some_iff.1 hwaits.buffer).1
    body := by
      intro hb
      rw [length_append]
      exact Nat.lt_add_right _ (h.body hb) }

/-! ## Every step -/

/-- A step of a process. -/
theorem step
    (hlock : (s.pc p).wantsLock = true → s.lock = none) :
    ∃ l placed, Inv (s.step p) l fetched placed handled done := by
  have hat := h.at' p
  have howner := h.owner p
  rw [State.step]
  cases hpc : s.pc p with
  | idle => exact ⟨_, _, h⟩
  | acquire b write | asleep b write =>
    rw [hpc] at howner hlock
    exact ⟨_, _, h.move (h.lock_take (hlock rfl) rfl) (by rw [hpc]; rfl) howner
      (fun _ _ _ hw => by rw [hpc] at hw; cases hw) trivial⟩
  | sleeping b i j k n =>
    rw [hpc] at howner hlock hat
    exact ⟨_, _, h.move (h.lock_take (hlock rfl) rfl) (by rw [hpc]; rfl) howner
      (fun _ _ _ hw _ => by rw [hpc] at hw; exact hw) hat⟩
  | alloc b write =>
    have hT := h.taken
    rw [← append_nil (List.flatMap _ _)] at hT
    obtain ⟨r, free, hrun, ⟨rfl, hT'⟩ | ⟨more, hlen, rfl, hT'⟩⟩ := hT.allocDescs (n := 3)
    · simp only [Disk.alloc3Desc, hrun]
      have h' : Inv { s with disk := { s.disk with free } } l fetched placed handled done :=
        { h with
          taken := hT'
          at' := fun q => (h.at' q).frame { Frame.refl s _ _ _ with } }
      rw [hpc] at howner
      exact ⟨_, _, h'.move (h'.lock_drop (p := p) (by rw [hpc]; rfl) rfl) (by rw [hpc]; rfl)
        howner (fun _ _ _ hw => by rw [hpc] at hw; cases hw) trivial⟩
    · match more, hlen with
      | [i, j, k], _ =>
        simp only [Disk.alloc3Desc, hrun]
        exact ⟨_, _, h.alloc hpc hT'⟩
  | format b write i j k =>
    rw [hpc] at howner hat
    have hnd := h.nodup_chain (p := p)
    rw [hpc] at hnd
    have hdistinct : (i ≠ j ∧ i ≠ k) ∧ j ≠ k := by
      simpa [Pc.chain] using hnd
    have h' := h.format hpc
    exact ⟨_, _, h'.move (h'.lock_keep (p := p) (by rw [hpc]; rfl)) (by rw [hpc]; rfl) howner
      (fun _ _ _ hw => by rw [hpc] at hw; cases hw)
      ⟨.of_format hdistinct.1.1 hdistinct.1.2 hdistinct.2, update_self .., hat⟩⟩
  | ring b i j k =>
    rw [hpc] at howner hat
    obtain ⟨hformed, hflag, hopen⟩ := hat
    have h' := h.ring hpc
    exact ⟨_, _, h'.move (h'.lock_keep (p := p) (by rw [hpc]; rfl)) (by rw [hpc]; rfl) howner
      (fun _ _ _ hw => by rw [hpc] at hw; cases hw)
      ⟨⟨hformed.1, hformed.2, hformed.3, hformed.4⟩, hflag, hopen, update_self ..⟩⟩
  | publish b i j k => exact ⟨_, _, h.publish hpc⟩
  | check b i j k n =>
    rw [hpc] at howner hat
    obtain ⟨hformed, hwaits⟩ := hat
    dsimp only
    split
    · exact ⟨_, _, h.move (h.lock_drop (by rw [hpc]; rfl) rfl) (by rw [hpc]; rfl) howner
        (fun _ _ _ hw _ => by rw [hpc] at hw; exact hw) ⟨hformed, hwaits⟩⟩
    · rename_i hflag
      have hopen := mt hwaits.flag.2 hflag
      refine ⟨_, _, h.move (h.lock_keep (by rw [hpc]; rfl)) (by rw [hpc]; rfl) howner
        (fun b' i' n' hw hi => ?_) ⟨hformed, hopen, hwaits.completed.2 fun hi =>
          hopen (mem_append_left _ hi)⟩⟩
      rw [hpc] at hw
      cases hw
      exact absurd hi hopen
  | finish b i j k n =>
    obtain ⟨free, l', hrun, h'⟩ := h.finish hpc { s.disk.info i with b := none }
    dsimp only
    rw [hrun]
    exact ⟨_, _, h'⟩
  | release b n =>
    exact ⟨_, _, h.move (h.lock_drop (by rw [hpc]; rfl) rfl) (by rw [hpc]; rfl)
      (fun _ hb => by cases hb) (fun _ _ _ hw => by rw [hpc] at hw; cases hw) trivial⟩

/-- A step of the handler. -/
theorem handle (hintr : s.intr ≠ .idle) :
    ∃ handled, Inv s.handle l fetched placed handled done := by
  have hl := h.intr.1 hintr
  have hat : ∀ intr lock q, At { s with intr, lock } (front s fetched placed)
      (done.drop handled.length) (s.pc q) := fun _ _ q =>
    (h.at' q).frame { Frame.refl s _ _ _ with }
  cases hpc : s.intr with
  | idle => exact absurd hpc hintr
  | body => exact h.body_step hpc
  | test =>
    rw [State.handle, hpc]
    dsimp only
    split
    · rename_i hne
      exact ⟨handled, { h with
        intr := by simp [hl]
        at' := hat .body s.lock
        body := fun _ => lt_of_le_of_ne h.used.length_le (mt h.test_iff.2 hne) }⟩
    · exact ⟨handled, { h with
        intr := by simp [hl]
        at' := hat .release s.lock
        body := by simp }⟩
  | release =>
    rw [State.handle, hpc]
    exact ⟨handled, { h with
      lock := fun p => by rw [h.lock, hl]; simp
      intr := by simp
      at' := hat .idle none
      body := by simp }⟩

end Inv

theorem inv_of_reachable (h : system.Reachable s) :
    ∃ l fetched placed handled done, Inv s l fetched placed handled done := by
  refine h.invariant (I := fun s => ∃ l fetched placed handled done,
    Inv s l fetched placed handled done) ?_ ?_
  · rintro s rfl
    exact ⟨_, _, _, _, _, Inv.boot⟩
  · rintro s a s' - ⟨l, fetched, placed, handled, done, h⟩ ⟨hguard, rfl⟩
    cases a with
    | acquiresleep p b =>
      refine ⟨l, fetched, placed, handled, done, { h with
        owner := fun q b' hq => ?_
        at' := fun q => (h.at' q).frame { Frame.refl s _ _ _ with } }⟩
      have hb := h.owner q b' hq
      refine (update_of_ne ?_ _ _).trans hb
      rintro rfl
      rw [hguard.2] at hb
      cases hb
    | releasesleep p b =>
      refine ⟨l, fetched, placed, handled, done, { h with
        owner := fun q b' hq => ?_
        at' := fun q => (h.at' q).frame { Frame.refl s _ _ _ with } }⟩
      have hb := h.owner q b' hq
      refine (update_of_ne ?_ _ _).trans hb
      rintro rfl
      obtain rfl : p = q := Option.some.inj (hguard.2.1.symm.trans hb)
      have hq' : (s.pc p).buf = some b' := hq
      rw [hguard.2.2] at hq'
      cases hq'
    | rw p b write =>
      have hidle := hguard.2.2
      refine ⟨l, fetched, placed, handled, done, h.move (h.lock_keep (by rw [hidle]; rfl))
        (by rw [hidle]; rfl) ?_ (fun _ _ _ hw => by rw [hidle] at hw; cases hw) trivial⟩
      intro b' hb
      cases hb
      exact hguard.2.1
    | step p =>
      obtain ⟨l', placed', h'⟩ := h.step hguard.2.2
      exact ⟨l', fetched, placed', handled, done, h'⟩
    | irq =>
      have hnone := hguard.2
      exact ⟨l, fetched, placed, handled, done, { h with
        lock := fun p => (h.lock p).trans (by rw [hnone]; simp [Act.next])
        intr := by simp [Act.next]
        at' := fun q => (h.at' q).frame { Frame.refl s _ _ _ with }
        body := by simp [Act.next] }⟩
    | handle =>
      obtain ⟨handled', h'⟩ := h.handle hguard.2
      exact ⟨l, fetched, placed, handled', done, h'⟩
    | fetch =>
      obtain ⟨fetched', h'⟩ := h.fetch hguard
      exact ⟨l, fetched', placed, handled, done, h'⟩
    | complete i => exact ⟨l, fetched, placed, handled, done, h.complete hguard.1 hguard.2⟩
    | advance =>
      obtain ⟨i, hi⟩ := Option.ne_none_iff_exists'.1 hguard
      exact ⟨l, fetched, placed, handled, done ++ [i], h.advance hi⟩

namespace Inv

variable (h : Inv s l fetched placed handled done)

include h

theorem length_cleared : s.cleared.length = handled.length := by
  have hlen := congrArg List.length h.cleared
  rw [length_map, length_map, length_take, h.length] at hlen
  rw [hlen, min_eq_left h.used.length_le]

/-- A request that waits has its flag set until its completion is handled. -/
theorem flag_iff
    (hp : (s.pc p).waits = some (b, i, n)) :
    s.flag b = true ↔ n ∉ s.completed.take s.cleared.length := by
  have hw := (h.waiting hp).2
  have hsplit := take_append_drop handled.length s.completed
  have hnd := h.distinct
  rw [← hsplit, nodup_append] at hnd
  rw [h.length_cleared, hw.flag, mem_append]
  constructor
  · rintro (hi | hi) hn
    · exact hw.completed.1 (mem_of_mem_take hn) hi
    · refine hnd.2.2 n hn n ?_ rfl
      rw [h.completed]
      exact mem_map.2 ⟨i, hi, hw.request⟩
  · intro hn
    by_contra hno
    have hmem := hw.completed.2 fun hi => hno (.inl hi)
    rw [← hsplit, mem_append, or_iff_right hn, h.completed, mem_map] at hmem
    obtain ⟨x, hx, hxn⟩ := hmem
    -- the head found has the same request, so the same buffer and process
    obtain ⟨q, b', n', hq⟩ := h.flight x (mem_append_right _ hx)
    have hwq := (h.waiting hq).2
    obtain rfl : n = n' := hxn.symm.trans hwq.request
    obtain rfl : b = b' := Option.some.inj (hw.buffer.symm.trans hwq.buffer)
    obtain rfl := h.buf_inj (Pc.chain_ne_nil hp).2.2 (Pc.chain_ne_nil hq).2.2
    cases hp.symm.trans hq
    exact hno (.inr hx)

theorem through (hp : (s.pc p).through = some n) : n ∈ s.completed := by
  have hat := h.at' p
  cases hpc : s.pc p with
  | finish =>
    rw [hpc] at hat hp
    cases hp
    exact hat.2.2
  | release =>
    rw [hpc] at hat hp
    cases hp
    exact hat
  | _ => rw [hpc] at hp; cases hp

end Inv

/-- **The descriptor protocol**, for any number of callers, any interleaving
with the handler and the device, and any number of requests:

* nothing panics;
* a descriptor is in one chain only, and the free descriptors and three for
  each request in flight are `NUM`;
* the device completes no request twice, and the handler clears the flags of
  the buffers of the completed requests, one by one and in their order; its
  test fails only when all are done;
* a request's flag is set until its completion is handled, and its caller
  gets past the wait only when the device has completed it. -/
theorem virtio_protocol (h : system.Reachable s) :
    s.panic = none ∧
      (∀ p, (s.pc p).chain.Nodup) ∧
      (∀ p q i, p ≠ q → i ∈ (s.pc p).chain → i ∉ (s.pc q).chain) ∧
      (∃ l : List ℕ, l.Nodup ∧ (∀ p, p ∈ l ↔ (s.pc p).chain ≠ []) ∧
        s.disk.nfree + 3 * l.length = NUM) ∧
      s.completed.Nodup ∧
      s.cleared.map some <+: s.completed.map (s.requests[·]?) ∧
      (s.disk.usedIdx % NUM = s.disk.usedId % NUM ↔ s.cleared.length = s.completed.length) ∧
      (∀ p b i n, (s.pc p).waits = some (b, i, n) → s.requests[n]? = some b ∧
        (s.flag b = true ↔ n ∉ s.completed.take s.cleared.length)) ∧
      ∀ p n, (s.pc p).through = some n → n ∈ s.completed := by
  obtain ⟨l, fetched, placed, handled, done, hI⟩ := inv_of_reachable h
  refine ⟨hI.panic, fun p => hI.nodup_chain, fun p q i => hI.apart, ⟨l, hI.nodup, hI.mem, ?_⟩,
    hI.distinct, ?_, ?_, fun p b i n hp => ⟨(hI.waiting hp).2.buffer, hI.flag_iff hp⟩,
    fun p n => hI.through⟩
  · rw [← hI.length_taken]
    exact hI.taken.nfree_add
  · rw [hI.cleared]
    exact ⟨(s.completed.drop handled.length).map _, by
      rw [← map_append, take_append_drop]⟩
  · rw [hI.test_iff, hI.length_cleared, hI.length]

/-- Two requests are placed and the second is completed first; the handler
has seen it, and its caller has left the wait. -/
theorem virtio_protocol_two : ∃ s, system.Reachable s ∧
    s.requests = [5, 6] ∧ s.completed = [1] ∧ s.cleared = [6] ∧ (s.pc 1).through = some 1 ∧
    s.panic = none ∧ 1 ∈ s.completed := by
  obtain ⟨s, hs, h1, h2, h3, h4⟩ : ∃ s, system.Reachable s ∧ s.requests = [5, 6] ∧
      s.completed = [1] ∧ s.cleared = [6] ∧ (s.pc 1).through = some 1 :=
    System.exists_of_follow rfl ([.acquiresleep 0 5, .acquiresleep 1 6, .rw 0 5 true, .rw 1 6 false] ++
      List.replicate 6 (.step 0) ++ List.replicate 6 (.step 1) ++
      [.fetch, .fetch, .complete 3, .advance, .irq, .handle, .handle, .handle, .handle,
        .step 1, .step 1]) (by decide +kernel)
  have hall := virtio_protocol hs
  exact ⟨s, hs, h1, h2, h3, h4, hall.1, hall.2.2.2.2.2.2.2.2 1 1 h4⟩

end Virtio

end Xv6
