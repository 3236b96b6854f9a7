import Xv6.Vm.Boot
import Xv6.Vm.Copyinstr
/-!
# Copying and translation — `copyout`, `copyin` and `copyinstr` of `kernel/vm.c`

`translate` takes one user address through the page table. The loops go
page by page; what they do is what going byte by byte with `translate`
would do, up to the first byte that has no translation. Addresses are 64
bits wide, but no copy gets as far as the end of them: there is nothing
for the user from `MAXVA` on.
-/

namespace Xv6

open Common Function List

namespace Vm

variable {o : ℕ → Owner} {s s' : State} {mem : ℕ → Page} {src : List UInt8} {r va pa n : ℕ}

/-! ## Translation -/

/-- **Where a user address is in physical memory.** -/
def translate (mem : ℕ → Page) (r va : ℕ) : Option ℕ :=
  if va < MAXVA ∧ UserPte (pteAt mem r (va / PGSIZE)) then
    some (pte2pa (pteAt mem r (va / PGSIZE)) + va % PGSIZE)
  else none

/-- A byte of physical memory. -/
def byteOf (mem : ℕ → Page) (pa : ℕ) : UInt8 := (mem (pgRoundDown pa)).get (pa % PGSIZE)

/-- **A page table for copying**: it maps no page twice for the user, and
none that is a page of the table or at address 0. -/
structure Separate (o : ℕ → Owner) (mem : ℕ → Page) (r : ℕ) : Prop where
  table : Table o mem r
  once : ∀ i j, UserPte (pteAt mem r i) → UserPte (pteAt mem r j) →
    pte2pa (pteAt mem r i) = pte2pa (pteAt mem r j) → i = j
  apart : ∀ i, UserPte (pteAt mem r i) → ∀ d j, o (pte2pa (pteAt mem r i)) ≠ .table r d j
  pos : ∀ i, UserPte (pteAt mem r i) → pte2pa (pteAt mem r i) ≠ 0

theorem pgRoundDown_div (va : ℕ) : pgRoundDown va / PGSIZE = va / PGSIZE := by
  simp only [pgRoundDown, PGSIZE]
  omega

theorem pgRoundDown_lt_maxva (va : ℕ) : pgRoundDown va < MAXVA ↔ va < MAXVA := by
  simp only [pgRoundDown, PGSIZE, MAXVA]
  omega

/-- A page address and an offset. -/
theorem pgRoundDown_add {j : ℕ} (hpa : pa % PGSIZE = 0) (hj : j < PGSIZE) :
    pgRoundDown (pa + j) = pa ∧ (pa + j) % PGSIZE = j := by
  simp only [pgRoundDown, PGSIZE] at *
  omega

theorem translate_eq_some : translate mem r va = some pa ↔
    va < MAXVA ∧ UserPte (pteAt mem r (va / PGSIZE)) ∧
      pgRoundDown pa = pte2pa (pteAt mem r (va / PGSIZE)) ∧ pa % PGSIZE = va % PGSIZE := by
  have hadd := pgRoundDown_add (pte2pa_mod (pteAt mem r (va / PGSIZE)))
    (Nat.mod_lt va (by decide : 0 < PGSIZE))
  rw [translate]
  constructor
  · intro h
    split at h
    · rename_i hc
      cases h
      exact ⟨hc.1, hc.2, hadd.1, hadd.2⟩
    · cases h
  · rintro ⟨h1, h2, h3, h4⟩
    rw [if_pos ⟨h1, h2⟩, ← h3, ← h4, pgRoundDown]
    have := Nat.mod_le pa PGSIZE
    exact congrArg some (by omega)

theorem translate_isSome : (translate mem r va).isSome ↔
    va < MAXVA ∧ UserPte (pteAt mem r (va / PGSIZE)) := by
  rw [translate]
  split <;> simp_all

/-- `walkaddr` finds something where there is a translation. -/
theorem Separate.userPa_eq_zero (h : Separate o mem r) :
    userPa mem r (pgRoundDown va) = 0 ↔ translate mem r va = none := by
  rw [userPa, translate, pgRoundDown_div]
  simp only [pgRoundDown_lt_maxva]
  split
  · rename_i hc
    simp [h.pos _ hc.2]
  · simp

/-- No two addresses are in one place. -/
theorem Separate.translate_inj {va' : ℕ} (h : Separate o mem r) (hva : translate mem r va = some pa)
    (hva' : translate mem r va' = some pa) : va = va' := by
  obtain ⟨-, hu, hp, hoff⟩ := translate_eq_some.1 hva
  obtain ⟨-, hu', hp', hoff'⟩ := translate_eq_some.1 hva'
  have hpage := h.once _ _ hu hu' (hp.symm.trans hp')
  simp only [PGSIZE] at *
  omega

/-- Pages that are not of the table may change. -/
theorem Separate.congr {mem' : ℕ → Page} (h : Separate o mem r)
    (hm : ∀ b d j, o b = .table r d j → mem' b = mem b) :
    Separate o mem' r ∧ pteAt mem' r = pteAt mem r := by
  have hpte : pteAt mem' r = pteAt mem r := funext (h.table.tword_congr hm le_rfl)
  refine ⟨⟨h.table.congr hm fun _ _ _ => Iff.rfl, ?_, ?_, ?_⟩, hpte⟩
  · rw [hpte]
    exact h.once
  · rw [hpte]
    exact h.apart
  · rw [hpte]
    exact h.pos

/-- The pages mapped for the user are those of the address space. -/
theorem Holding.own_of_userPte {ptes : List ℕ} {f : ℕ → UInt8} {X : ℕ → ℕ} {i : ℕ}
    (h : Space o s.mem r ptes f X) (hX : Above X) (hi : UserPte (pteAt s.mem r i)) :
    o (pte2pa (pteAt s.mem r i)) = .user r i := by
  have hlt : i < ptes.length := by
    by_contra hge
    rw [h.rest i (by omega)] at hi
    exact hi.2 (hX.kernel i)
  have hw := getElem?_eq_getElem hlt
  rw [(h.leaf i _ hw).1]
  exact h.own hw

/-- The page table of an address space is one for copying. -/
theorem Holding.separate {k : Symbols} {ptes : List ℕ} {f : ℕ → UInt8} {X : ℕ → ℕ}
    (h : Space o s.mem r ptes f X) (hh : Heap k o s) (hX : Above X) : Separate o s.mem r := by
  have hown : ∀ i, UserPte (pteAt s.mem r i) → o (pte2pa (pteAt s.mem r i)) = .user r i :=
    fun _ => h.own_of_userPte hX
  refine ⟨h.table, fun i j hi hj heq => ?_, fun i hi d j ht => ?_, fun i hi => hh.pos ?_⟩
  · have hi := hown i hi
    rw [heq, hown j hj] at hi
    injection hi with _ hij
    exact hij.symm
  · rw [hown i hi] at ht
    cases ht
  · rw [hown i hi]
    exact Owner.noConfusion

/-! ## `copyout` -/

/-- **The first `n` bytes of `src` have been stored** where their addresses
translate to, the next address has no translation, and nothing else has
changed. -/
structure Stored (s s' : State) (r va : ℕ) (src : List UInt8) (n : ℕ) : Prop where
  le : n ≤ src.length
  good : ∀ i, i < n → (translate s.mem r (va + i)).isSome
  stop : n < src.length → translate s.mem r (va + n) = none
  stored : ∀ i, i < n → ∀ pa, translate s.mem r (va + i) = some pa → byteOf s'.mem pa = src.getD i 0
  kept : ∀ pa, (∀ i, i < n → translate s.mem r (va + i) ≠ some pa) →
    byteOf s'.mem pa = byteOf s.mem pa
  pages : ∀ b, (∀ i, i < n → pte2pa (pteAt s.mem r ((va + i) / PGSIZE)) ≠ b) → s'.mem b = s.mem b
  rest : s' = { s with mem := s'.mem }

theorem Stored.refl (hstop : 0 < src.length → translate s.mem r va = none) :
    Stored s s r va src 0 :=
  ⟨Nat.zero_le _, fun _ hi => absurd hi (Nat.not_lt_zero _), hstop,
    fun _ hi => absurd hi (Nat.not_lt_zero _), fun _ _ => rfl, fun _ _ => rfl, rfl⟩

theorem Stored.eq_of_zero (h : Stored s s' r va src 0) : s' = s := by
  have hmem : s'.mem = s.mem := funext fun b => h.pages b fun i hi => absurd hi (Nat.not_lt_zero i)
  rw [h.rest, hmem]

/-- The table is as it was. -/
theorem Stored.separate (h : Stored s s' r va src n) (hsep : Separate o s.mem r) :
    Separate o s'.mem r ∧ pteAt s'.mem r = pteAt s.mem r := by
  refine hsep.congr fun b d j hb => h.pages b fun i hi heq => ?_
  have huser := translate_isSome.1 (h.good i hi)
  rw [← heq] at hb
  exact hsep.apart _ huser.2 d j hb

theorem Stored.translate_eq (h : Stored s s' r va src n) (hsep : Separate o s.mem r) (a : ℕ) :
    translate s'.mem r a = translate s.mem r a := by
  rw [translate, translate, (h.separate hsep).2]

/-- A page of memory is written in part. -/
theorem byteOf_splice {pa₀ off : ℕ} {l : List UInt8} :
    byteOf (update mem pa₀ ((mem pa₀).splice off l.length fun i => l.getD i 0)) pa =
      if pgRoundDown pa = pa₀ ∧ off ≤ pa % PGSIZE ∧ pa % PGSIZE < off + l.length then
        l.getD (pa % PGSIZE - off) 0
      else byteOf mem pa := by
  have hlt : pa % PGSIZE < PGSIZE := Nat.mod_lt _ (by decide)
  simp only [byteOf, update_apply]
  by_cases hp : pgRoundDown pa = pa₀
  · simp only [hp, ↓reduceIte, true_and, Bytes.get_splice, hlt, and_true]
  · simp only [hp, ↓reduceIte, false_and]

/-- **The chunk of one page.** -/
theorem stored_chunk (hva : va < MAXVA)
    (huser : UserPte (pteAt s.mem r (va / PGSIZE))) {m : ℕ} (hm : m = PGSIZE - va % PGSIZE)
    (hmem : s'.mem = update s.mem (pte2pa (pteAt s.mem r (va / PGSIZE)))
      ((s.mem (pte2pa (pteAt s.mem r (va / PGSIZE)))).splice (va % PGSIZE) (src.take m).length
        fun i => (src.take m).getD i 0))
    (hrest : s' = { s with mem := s'.mem }) :
    Stored s s' r va (src.take m) (src.take m).length := by
  have hmod : va % PGSIZE < PGSIZE := Nat.mod_lt _ (by decide)
  have hlen : (src.take m).length ≤ m := by
    rw [length_take]
    exact Nat.min_le_left ..
  generalize src.take m = l at *
  have haddr : ∀ i, i < l.length → (va + i) / PGSIZE = va / PGSIZE ∧
      (va + i) % PGSIZE = va % PGSIZE + i ∧ va + i < MAXVA := by
    intro i hi
    simp only [PGSIZE, MAXVA] at *
    omega
  refine ⟨le_rfl, fun i hi => ?_, fun h => absurd h (Nat.lt_irrefl _), fun i hi pa hpa => ?_,
    fun pa hpa => ?_, fun b hb => ?_, hrest⟩
  · obtain ⟨h1, -, h3⟩ := haddr i hi
    rw [translate_isSome, h1]
    exact ⟨h3, huser⟩
  · obtain ⟨h1, h2, -⟩ := haddr i hi
    obtain ⟨-, -, h3, h4⟩ := translate_eq_some.1 hpa
    rw [h1] at h3
    rw [h2] at h4
    rw [hmem, byteOf_splice, if_pos ⟨h3, by omega, by omega⟩, h4, Nat.add_sub_cancel_left]
  · rw [hmem, byteOf_splice, if_neg]
    rintro ⟨h1, h2, h3⟩
    have hi : pa % PGSIZE - va % PGSIZE < l.length := by omega
    obtain ⟨h4, h5, h6⟩ := haddr _ hi
    refine hpa _ hi (translate_eq_some.2 ⟨h6, ?_, ?_, ?_⟩)
    · rw [h4]
      exact huser
    · rw [h4, h1]
    · rw [h5]
      omega
  · by_cases h0 : l.length = 0
    · rw [hmem, h0, Bytes.splice_zero, update_eq_self]
    · rw [hmem, update_of_ne]
      have := hb 0 (by omega)
      rw [(haddr 0 (by omega)).1] at this
      exact this.symm

/-- **One chunk after another.** -/
theorem Stored.append {s₁ : State} {m n' : ℕ} (hsep : Separate o s.mem r)
    (h : Stored s s₁ r va (src.take m) m) (h' : Stored s₁ s' r (va + m) (src.drop m) n')
    (hm : m ≤ src.length) : Stored s s' r va src (m + n') := by
  obtain ⟨hsep₁, hpte⟩ := h.separate hsep
  have htr := h.translate_eq hsep
  have hlen : (src.drop m).length = src.length - m := length_drop
  have hshift : ∀ i, m ≤ i → va + m + (i - m) = va + i := fun i hi => by omega
  refine ⟨by have := h'.le; omega, fun i hi => ?_, fun hlt => ?_, fun i hi pa hpa => ?_, fun pa hpa => ?_,
    fun b hb => ?_, ?_⟩
  · by_cases him : i < m
    · exact h.good i him
    · have := h'.good (i - m) (by omega)
      rwa [htr, hshift i (by omega)] at this
  · have := h'.stop (by omega)
    rwa [htr, Nat.add_assoc] at this
  · by_cases him : i < m
    · have hkept := h'.kept pa fun j hj hpa' => ?_
      · rw [hkept, h.stored i him pa hpa, getD_eq_getElem?_getD, getD_eq_getElem?_getD,
          getElem?_take_of_lt him]
      · rw [htr] at hpa'
        have := hsep.translate_inj hpa hpa'
        omega
    · have := h'.stored (i - m) (by omega) pa (by rw [htr, hshift i (by omega)]; exact hpa)
      rw [this, getD_eq_getElem?_getD, getD_eq_getElem?_getD, getElem?_drop,
        Nat.add_sub_of_le (by omega)]
  · rw [h'.kept pa fun j hj => ?_, h.kept pa fun i hi => hpa i (by omega)]
    rw [htr, Nat.add_assoc]
    exact hpa (m + j) (by omega)
  · rw [h'.pages b fun j hj => ?_, h.pages b fun i hi => hb i (by omega)]
    rw [hpte, Nat.add_assoc]
    exact hb (m + j) (by omega)
  · rw [h'.rest, h.rest]

/-- **The loop of `copyout`** stores bytes up to the first that has no
place. -/
theorem copyoutLoop_returns {fuel : ℕ} (hsep : Separate o s.mem r) (hfuel : src.length ≤ fuel) :
    Returns (copyoutLoop r fuel va src) s fun ok s' =>
      ∃ n, ok = decide (n = src.length) ∧ Stored s s' r va src n := by
  induction fuel generalizing s va src with
  | zero =>
    obtain rfl : src = [] := length_eq_zero_iff.1 (by omega)
    exact .pure ⟨0, rfl, .refl fun h => absurd h (Nat.lt_irrefl _)⟩
  | succ fuel ih =>
    rw [copyoutLoop]
    by_cases hsrc : src = []
    · subst hsrc
      exact .pure ⟨0, rfl, .refl fun h => absurd h (Nat.lt_irrefl _)⟩
    have hpos : 0 < src.length := length_pos_iff.2 hsrc
    have hempty : src.isEmpty = false := by simpa using hsrc
    rw [hempty, if_neg Bool.false_ne_true]
    refine .bind ⟨_, _, walkaddr_eq hsep.table _, ?_⟩
    beta_reduce
    by_cases h0 : userPa s.mem r (pgRoundDown va) = 0
    · rw [if_pos h0]
      exact .pure ⟨0, by simp; omega, .refl fun _ => hsep.userPa_eq_zero.1 h0⟩
    rw [if_neg h0]
    obtain ⟨hva, huser⟩ : va < MAXVA ∧ UserPte (pteAt s.mem r (va / PGSIZE)) := by
      rw [← translate_isSome, Option.isSome_iff_ne_none]
      exact fun hn => h0 (hsep.userPa_eq_zero.2 hn)
    have hpa : userPa s.mem r (pgRoundDown va) = pte2pa (pteAt s.mem r (va / PGSIZE)) := by
      rw [userPa, pgRoundDown_div, if_pos ⟨(pgRoundDown_lt_maxva va).2 hva, huser⟩]
    have hoff : va - pgRoundDown va = va % PGSIZE := by
      have := Nat.mod_le va PGSIZE
      rw [pgRoundDown]
      omega
    simp only [hpa, hoff, memwrite, Returns.modify_bind_iff]
    have hmod : va % PGSIZE < PGSIZE := Nat.mod_lt _ (by decide)
    generalize hm : PGSIZE - va % PGSIZE = m
    generalize hs₁ : State.mk _ _ _ _ _ _ _ = s₁
    have hchunk : Stored s s₁ r va (src.take m) (src.take m).length :=
      stored_chunk hva huser hm.symm (by rw [← hs₁]) (by rw [← hs₁])
    obtain ⟨hsep₁, -⟩ := hchunk.separate hsep
    refine (ih hsep₁ (by rw [length_drop]; omega)).mono ?_
    rintro ok s' ⟨n', rfl, hstored⟩
    by_cases hlong : m ≤ src.length
    · have hnext : (pgRoundDown va + PGSIZE) % 2 ^ 64 = va + m := by
        simp only [pgRoundDown, PGSIZE, MAXVA] at *
        omega
      rw [length_take, Nat.min_eq_left hlong] at hchunk
      rw [hnext] at hstored
      refine ⟨m + n', ?_, hchunk.append hsep hstored hlong⟩
      have := hstored.le
      rw [length_drop] at this ⊢
      exact decide_eq_decide.2 (by omega)
    · -- the last chunk
      have htake : src.take m = src := take_of_length_le (by omega)
      have hdrop : src.drop m = [] := drop_eq_nil_of_le (by omega)
      rw [hdrop] at hstored ⊢
      rw [htake] at hchunk
      obtain rfl : n' = 0 := Nat.le_zero.1 hstored.le
      rw [hstored.eq_of_zero]
      exact ⟨src.length, by simp, hchunk⟩

/-- **`copyout`** stores bytes up to the first that has no place, and
returns 0 if that is all of them. -/
theorem copyout_stored (hsep : Separate o s.mem r) (va : ℕ) (src : List UInt8) :
    Returns (copyout r va src) s fun ok s' =>
      ∃ n, ok = decide (n = src.length) ∧ Stored s s' r va src n :=
  copyoutLoop_returns hsep le_rfl

/-! ## `copyin` -/

/-- A byte of user memory. -/
def userByte (mem : ℕ → Page) (r va : ℕ) : Option UInt8 := (translate mem r va).map (byteOf mem)

theorem userByte_isSome : (userByte mem r va).isSome = (translate mem r va).isSome := Option.isSome_map

section

variable (ht : Table o s.mem r)
  (hpos : ∀ i, UserPte (pteAt s.mem r i) → pte2pa (pteAt s.mem r i) ≠ 0) (hva : va < 2 ^ 64)
include ht hpos hva

/-- **What `walkaddr` shows is what translation gives.** -/
theorem byteAt_eq_userByte : (userMem r s).byteAt va = userByte s.mem r va := by
  have hmod : va % PGSIZE < PGSIZE := Nat.mod_lt _ (by decide)
  simp only [UserMem.byteAt, userMem, Nat.mod_eq_of_lt hva, walkaddr_eq ht, userByte, translate, userPa,
    pgRoundDown_div, pgRoundDown_lt_maxva]
  split
  · rename_i hc
    obtain ⟨h1, h2⟩ := pgRoundDown_add (pte2pa_mod (pteAt s.mem r (va / PGSIZE))) hmod
    rw [if_neg (hpos _ hc.2), Option.map_some, Option.map_some, byteOf, h1, h2]
  · rfl

/-- **Reading ends below `MAXVA`**, so addresses do not wrap. -/
theorem readable_spec (len : ℕ) :
    (∀ i, i < (userMem r s).readable va len → va + i < MAXVA ∧ (userByte s.mem r (va + i)).isSome) ∧
      ((userMem r s).readable va len < len →
        va + (userMem r s).readable va len < 2 ^ 64 ∧
          userByte s.mem r (va + (userMem r s).readable va len) = none) := by
  have hmax : MAXVA < 2 ^ 64 := by decide
  have hstep : ∀ i, i < (userMem r s).readable va len → va + i < 2 ^ 64 →
      va + i < MAXVA ∧ (userByte s.mem r (va + i)).isSome := by
    intro i hi hlt
    have hsome := UserMem.byteAt_of_lt_readable hi
    rw [byteAt_eq_userByte ht hpos hlt] at hsome
    have := hsome
    rw [userByte_isSome] at this
    exact ⟨(translate_isSome.1 this).1, hsome⟩
  have hall : ∀ i, i < (userMem r s).readable va len →
      va + i < MAXVA ∧ (userByte s.mem r (va + i)).isSome := by
    intro i
    induction i with
    | zero => exact fun hi => hstep 0 hi hva
    | succ i ih =>
      intro hi
      have := (ih (by omega)).1
      exact hstep (i + 1) hi (by omega)
  refine ⟨hall, fun hlt => ?_⟩
  have hend : va + (userMem r s).readable va len < 2 ^ 64 := by
    rcases Nat.eq_zero_or_pos ((userMem r s).readable va len) with h0 | hp
    · rw [h0]
      exact hva
    · have := (hall _ (Nat.sub_lt hp Nat.one_pos)).1
      omega
  refine ⟨hend, ?_⟩
  rw [← byteAt_eq_userByte ht hpos hend]
  exact UserMem.byteAt_readable hlt

end

/-- **The first `n` bytes of the range have been read**, the next has no
place, and the rest of the buffer is as it was. -/
structure Fetched (mem : ℕ → Page) (r va len : ℕ) {k : ℕ} (dst dst' : Bytes k) (off n : ℕ) : Prop where
  le : n ≤ len
  good : ∀ i, i < n → (translate mem r (va + i)).isSome
  stop : n < len → translate mem r (va + n) = none
  fetched : ∀ i, i < n → userByte mem r (va + i) = some (dst'.get (off + i))
  kept : ∀ j, ¬ (off ≤ j ∧ j < off + n) → dst'.get j = dst.get j

/-- **`copyin`** reads bytes up to the first that has no place, and returns
0 if that is all of them. -/
theorem copyin_fetched (hsep : Separate o s.mem r) (hva : va < 2 ^ 64) {k len off : ℕ} (dst : Bytes k)
    (hfit : off + len ≤ k) :
    ∃ n, ((userMem r s).copyin dst off va len).1 = decide (n = len) ∧
      Fetched s.mem r va len dst ((userMem r s).copyin dst off va len).2 off n := by
  obtain ⟨hall, hend⟩ := readable_spec hsep.table hsep.pos hva len
  have hle : (userMem r s).readable va len ≤ len := UserMem.readable_le
  rw [UserMem.copyin_eq hva]
  refine ⟨(userMem r s).readable va len, rfl, hle, fun i hi => ?_, fun hlt => ?_, fun i hi => ?_,
    fun j hj => ?_⟩
  · rw [← userByte_isSome]
    exact (hall i hi).2
  · have := (hend hlt).2
    rwa [userByte, Option.map_eq_none_iff] at this
  · obtain ⟨hlt, hsome⟩ := hall i hi
    have hlt : va + i < 2 ^ 64 := hlt.trans (by decide)
    obtain ⟨c, hc⟩ := Option.isSome_iff_exists.1 hsome
    rw [Bytes.get_splice, if_pos (by omega), Nat.add_sub_cancel_left,
      byteAt_eq_userByte hsep.table hsep.pos hlt, hc, Option.getD_some]
  · rw [Bytes.get_splice, if_neg (by omega)]

/-! ## Both -/

/-- Every page that has a byte of the range is below `MAXVA`, and mapped
for the user. -/
def AllMapped (mem : ℕ → Page) (r va len : ℕ) : Prop :=
  ∀ p, (∃ i, i < len ∧ (va + i) / PGSIZE = p) → p * PGSIZE < MAXVA ∧ UserPte (pteAt mem r p)

theorem allMapped_iff {len : ℕ} :
    AllMapped mem r va len ↔ ∀ i, i < len → (translate mem r (va + i)).isSome := by
  have hpage : ∀ a, a / PGSIZE * PGSIZE < MAXVA ↔ a < MAXVA := fun a => by
    simp only [PGSIZE, MAXVA]
    omega
  constructor
  · intro h i hi
    obtain ⟨h1, h2⟩ := h _ ⟨i, hi, rfl⟩
    exact translate_isSome.2 ⟨(hpage _).1 h1, h2⟩
  · rintro h p ⟨i, hi, rfl⟩
    obtain ⟨h1, h2⟩ := translate_isSome.1 (h i hi)
    exact ⟨(hpage _).2 h1, h2⟩

/-- As far as it goes is all the way if everything is mapped. -/
theorem allMapped_of_stop {len : ℕ} (hle : n ≤ len) (hgood : ∀ i, i < n → (translate mem r (va + i)).isSome)
    (hstop : n < len → translate mem r (va + n) = none) : n = len ↔ AllMapped mem r va len := by
  rw [allMapped_iff]
  constructor
  · rintro rfl
    exact hgood
  · intro h
    by_contra hne
    have hlt : n < len := by omega
    have := h n hlt
    rw [hstop hlt] at this
    cases this

section

variable (h : Stored s s' r va src n) (hsep : Separate o s.mem r)
include h hsep

/-- What has been stored is there. -/
theorem Stored.userByte_eq (i : ℕ) (hi : i < n) : userByte s'.mem r (va + i) = src[i]? := by
  obtain ⟨pa, hpa⟩ := Option.isSome_iff_exists.1 (h.good i hi)
  have hlt : i < src.length := hi.trans_le h.le
  rw [userByte, h.translate_eq hsep, hpa, Option.map_some, h.stored i hi pa hpa, getElem?_eq_getElem hlt,
    getD_eq_getElem _ _ hlt]

/-- What has not been stored to is as it was. -/
theorem Stored.userByte_of_ne {a : ℕ}
    (hne : ∀ i, i < n → va + i ≠ a) : userByte s'.mem r a = userByte s.mem r a := by
  rw [userByte, userByte, h.translate_eq hsep]
  cases ha : translate s.mem r a with
  | none => rfl
  | some pa =>
    refine congrArg some (h.kept pa fun i hi hpa => ?_)
    exact hne i hi (hsep.translate_inj hpa ha)

/-- As far as the bytes could be stored is as far as the range can be read. -/
theorem Stored.readable_eq (hva : va < 2 ^ 64) : (userMem r s).readable va src.length = n := by
  obtain ⟨hall, hend⟩ := readable_spec hsep.table hsep.pos hva src.length
  have hle := h.le
  rcases Nat.lt_trichotomy ((userMem r s).readable va src.length) n with hlt | heq | hgt
  · have hgood := h.good _ hlt
    rw [← userByte_isSome, (hend (by omega)).2] at hgood
    cases hgood
  · exact heq
  · have hsome := (hall n hgt).2
    have : (userMem r s).readable va src.length ≤ src.length := UserMem.readable_le
    rw [userByte_isSome, h.stop (by omega)] at hsome
    cases hsome

end

/-- **`copyout` through the page table is `copyout` into the pages that
`walkaddr` shows.** -/
theorem copyout_userMem (hsep : Separate o s.mem r) (hva : va < 2 ^ 64)
    (hlen : src.length ≤ 2 ^ 64) :
    Returns (copyout r va src) s fun ok s' =>
      ok = ((userMem r s).copyout va (src.getD · 0) src.length).1 ∧ ∀ a, a < 2 ^ 64 →
        (userMem r s').byteAt a =
          ((userMem r s).copyout va (src.getD · 0) src.length).2.byteAt a := by
  obtain ⟨hok, hbytes⟩ := @UserMem.copyout_eq (userMem r s) _ _ (src.getD · 0) hva hlen
  refine (copyout_stored hsep va src).mono ?_
  rintro _ s' ⟨n, rfl, h⟩
  obtain ⟨hsep', -⟩ := h.separate hsep
  rw [h.readable_eq hsep hva] at hok hbytes
  refine ⟨hok.symm, fun a ha => ?_⟩
  rw [hbytes a ha, byteAt_eq_userByte hsep'.table hsep'.pos ha]
  split
  · -- no address of the range has wrapped around
    rename_i hin
    have hmax := (translate_isSome.1 (h.good _ hin)).1
    have heq : va + UserMem.dist va a = a := by
      simp only [UserMem.dist, MAXVA] at *
      omega
    have hlt := hin.trans_le h.le
    have hbyte := h.userByte_eq hsep _ hin
    rwa [heq, getElem?_eq_getElem hlt, ← getD_eq_getElem _ 0 hlt] at hbyte
  · rename_i hout
    rw [byteAt_eq_userByte hsep.table hsep.pos ha]
    refine h.userByte_of_ne hsep fun i hi heq => hout ?_
    have := h.le
    rwa [show UserMem.dist va a = i by unfold UserMem.dist; omega]

/-- What has been stored can be read back. -/
theorem Stored.copyin_eq (h : Stored s s' r va src src.length) (hsep : Separate o s.mem r)
    (hva : va < 2 ^ 64) {k off : ℕ} (dst : Bytes k) (hfit : off + src.length ≤ k) :
    ((userMem r s').copyin dst off va src.length).1 = true ∧
      ∀ i, i < src.length → ((userMem r s').copyin dst off va src.length).2.get (off + i) = src.getD i 0 := by
  obtain ⟨n, hok, hf⟩ := copyin_fetched (h.separate hsep).1 hva dst hfit
  have hn : n = src.length := by
    refine (allMapped_of_stop hf.le hf.good hf.stop).2 (allMapped_iff.2 fun i hi => ?_)
    rw [h.translate_eq hsep]
    exact h.good i hi
  subst hn
  refine ⟨by rw [hok]; exact decide_eq_true rfl, fun i hi => ?_⟩
  have hbyte := hf.fetched i hi
  rw [h.userByte_eq hsep i hi, getElem?_eq_getElem hi] at hbyte
  rw [getD_eq_getElem _ _ hi]
  exact (Option.some.inj hbyte).symm

/-- **Copying agrees with translation, byte by byte.** -/
theorem copies_agree (hsep : Separate o s.mem r) (hva : va < 2 ^ 64) :
    (∀ src : List UInt8, Returns (copyout r va src) s fun ok s' =>
      (ok = true ↔ AllMapped s.mem r va src.length) ∧
      (∃ n, (ok = true ↔ n = src.length) ∧ Stored s s' r va src n) ∧
      (ok = true → ∀ (k off : ℕ) (dst : Bytes k), off + src.length ≤ k →
        ((userMem r s').copyin dst off va src.length).1 = true ∧ ∀ i, i < src.length →
          ((userMem r s').copyin dst off va src.length).2.get (off + i) = src.getD i 0)) ∧
    (∀ (k off len : ℕ) (dst : Bytes k), off + len ≤ k →
      (((userMem r s).copyin dst off va len).1 = true ↔ AllMapped s.mem r va len) ∧
      ∃ n, (((userMem r s).copyin dst off va len).1 = true ↔ n = len) ∧
        Fetched s.mem r va len dst ((userMem r s).copyin dst off va len).2 off n) := by
  constructor
  · intro src
    refine (copyout_stored hsep va src).mono ?_
    rintro ok s' ⟨n, rfl, h⟩
    refine ⟨?_, ⟨n, decide_eq_true_iff, h⟩, fun hok k off dst hfit => ?_⟩
    · rw [decide_eq_true_iff]
      exact allMapped_of_stop h.le h.good h.stop
    · obtain rfl := decide_eq_true_iff.1 hok
      exact h.copyin_eq hsep hva dst hfit
  · intro k off len dst hfit
    obtain ⟨n, hok, hf⟩ := copyin_fetched hsep hva dst hfit
    rw [hok, decide_eq_true_iff]
    exact ⟨allMapped_of_stop hf.le hf.good hf.stop, n, Iff.rfl, hf⟩

theorem smallMachine_separate :
    ∃ o, Separate o smallMachine.mem (smallMachine.proc initproc).pagetable := by
  obtain ⟨o, h⟩ := smallMachine_ready
  obtain ⟨ptes, f, hspace, -⟩ := h.space
  exact ⟨o, hspace.separate h.heap (above_kernelMap ..)⟩

theorem copies_agree_small :
    (∃ o, Separate o smallMachine.mem (smallMachine.proc initproc).pagetable) ∧
    (∀ src : List UInt8, Returns (copyout (smallMachine.proc initproc).pagetable 4090 src) smallMachine
      fun ok s' =>
        (ok = true ↔ AllMapped smallMachine.mem (smallMachine.proc initproc).pagetable 4090 src.length) ∧
        ∃ n, (ok = true ↔ n = src.length) ∧
          Stored smallMachine s' (smallMachine.proc initproc).pagetable 4090 src n) := by
  obtain ⟨o, hsep⟩ := smallMachine_separate
  refine ⟨⟨o, hsep⟩, fun src => ?_⟩
  exact ((copies_agree hsep (by decide)).1 src).mono fun ok s' h => ⟨h.1, h.2.1⟩

/-! ## `copyinstr` -/

/-- **A string of `k` bytes**, and its NUL. -/
structure IsString (mem : ℕ → Page) (r va k : ℕ) : Prop where
  mapped : ∀ i, i ≤ k → va + i < MAXVA ∧ UserPte (pteAt mem r ((va + i) / PGSIZE))
  nul : userByte mem r (va + k) = some 0
  text : ∀ i, i < k → userByte mem r (va + i) ≠ some 0

/-- The string that `copyinstr` finds is one. -/
theorem strEnd_iff (ht : Table o s.mem r)
    (hpos : ∀ i, UserPte (pteAt s.mem r i) → pte2pa (pteAt s.mem r i) ≠ 0) (hva : va < 2 ^ 64)
    {k max : ℕ} : (userMem r s).strEnd va max = some k ↔ k < max ∧ IsString s.mem r va k := by
  rw [UserMem.strEnd_eq_some]
  refine and_congr_right fun _ => ⟨?_, fun h => ?_⟩
  · rintro ⟨hnul, htext⟩
    have hsome : ∀ i, i < k + 1 → ((userMem r s).byteAt (va + i)).isSome := by
      intro i hi
      rcases Nat.lt_or_ge i k with hik | hik
      · obtain ⟨c, hc, -⟩ := htext i hik
        rw [hc]
        rfl
      · obtain rfl : i = k := by omega
        rw [hnul]
        rfl
    have hread := readable_spec ht hpos hva (k + 1)
    rw [UserMem.readable_eq hsome] at hread
    have hbyte : ∀ i, i ≤ k → (userMem r s).byteAt (va + i) = userByte s.mem r (va + i) := by
      intro i hi
      have := (hread.1 i (by omega)).1
      exact byteAt_eq_userByte ht hpos (this.trans (by decide))
    refine ⟨fun i hi => ?_, by rw [← hbyte k le_rfl]; exact hnul, fun i hi => ?_⟩
    · have := (hread.1 i (by omega)).2
      rw [userByte_isSome] at this
      exact translate_isSome.1 this
    · obtain ⟨c, hc, h0⟩ := htext i hi
      rw [← hbyte i hi.le, hc]
      exact fun h => h0 (Option.some.inj h)
  · have hbyte : ∀ i, i ≤ k → (userMem r s).byteAt (va + i) = userByte s.mem r (va + i) := fun i hi =>
      byteAt_eq_userByte ht hpos ((h.mapped i hi).1.trans (by decide))
    refine ⟨by rw [hbyte k le_rfl]; exact h.nul, fun i hi => ?_⟩
    have hsome : (userByte s.mem r (va + i)).isSome := by
      rw [userByte_isSome]
      exact translate_isSome.2 (h.mapped i hi.le)
    obtain ⟨c, hc⟩ := Option.isSome_iff_exists.1 hsome
    refine ⟨c, by rw [hbyte i hi.le, hc], ?_⟩
    rintro rfl
    exact h.text i hi hc

/-- **`copyinstr` copies exactly one string**, and returns 0 if there is
one. -/
theorem copyinstr_exact (ht : Table o s.mem r)
    (hpos : ∀ i, UserPte (pteAt s.mem r i) → pte2pa (pteAt s.mem r i) ≠ 0) (hva : va < 2 ^ 64)
    {size off max : ℕ} (dst : Bytes size) (hfit : off + max ≤ size) :
    (((userMem r s).copyinstr dst off va max).1 = true ↔ ∃ k, k < max ∧ IsString s.mem r va k) ∧
    (∀ k, k < max → IsString s.mem r va k → ∀ j,
      ((userMem r s).copyinstr dst off va max).2.get j =
        if off ≤ j ∧ j ≤ off + k then (userByte s.mem r (va + (j - off))).getD 0 else dst.get j) ∧
    (((userMem r s).copyinstr dst off va max).1 = false → ∃ n, n ≤ max ∧
      ∀ j, ¬ (off ≤ j ∧ j < off + n) → ((userMem r s).copyinstr dst off va max).2.get j = dst.get j) := by
  rw [UserMem.copyinstr_eq hva]
  refine ⟨?_, fun k hk h j => ?_, fun _ =>
    ⟨(userMem r s).written va max, UserMem.written_le, fun j hj => ?_⟩⟩
  · rw [Option.isSome_iff_exists]
    exact exists_congr fun k => strEnd_iff ht hpos hva
  · have hwritten : (userMem r s).written va max = k + 1 := by
      rw [UserMem.written, (strEnd_iff ht hpos hva).2 ⟨hk, h⟩]
    rw [hwritten, Bytes.get_splice]
    by_cases hj : off ≤ j ∧ j ≤ off + k
    · rw [if_pos (by omega), if_pos hj]
      have := (h.mapped (j - off) (by omega)).1
      rw [byteAt_eq_userByte ht hpos (this.trans (by decide))]
    · rw [if_neg (by omega), if_neg hj]
  · rw [Bytes.get_splice, if_neg (by omega)]

theorem copyinstr_exact_small :
    (∃ o, Separate o smallMachine.mem (smallMachine.proc initproc).pagetable) ∧
    ∀ dst : Bytes 16,
      (((userMem (smallMachine.proc initproc).pagetable smallMachine).copyinstr dst 0 36 16).1 = true ↔
        ∃ k, k < 16 ∧ IsString smallMachine.mem (smallMachine.proc initproc).pagetable 36 k) := by
  obtain ⟨o, hsep⟩ := smallMachine_separate
  exact ⟨⟨o, hsep⟩, fun dst => (copyinstr_exact hsep.table hsep.pos (by decide) dst (by decide)).1⟩

end Vm

end Xv6
