import Xv6.Vm.Layout
import Xv6.Vm.Load
/-!
# The argument stack — `exec` from the guard page on

`exec` takes the page below the stack from the user, pushes the strings one
by one, and then the array of pointers to them. It stops as soon as the
stack pointer is below the page; by then it has written to the stack page
and nowhere else.
-/

namespace Xv6

open Common List

namespace Vm

variable {k : Symbols} {o : ℕ → Owner} {s s' : State} {X : ℕ → ℕ} {ptes : List ℕ}
  {f g : ℕ → UInt8} {strs : List (List UInt8)} {r n w top used : ℕ}

/-! ## The loop over the arguments -/

/-- The pages of the arguments, with the strings in them. -/
structure Args (o : ℕ → Owner) (mem : ℕ → Page) (argv : List ℕ) (strs : List (List UInt8)) : Prop where
  own : ∀ a ∈ argv, o a = .arg
  text : strs = argv.map fun a => cstring (mem a)
  length : ∀ str ∈ strs, str.length < PGSIZE

theorem args_nil {mem : ℕ → Page} : Args o mem [] [] :=
  ⟨fun _ h => absurd h not_mem_nil, rfl, fun _ h => absurd h not_mem_nil⟩

theorem Args.tail {a : ℕ} {argv : List ℕ} {str : List UInt8} {mem : ℕ → Page}
    (h : Args o mem (a :: argv) (str :: strs)) : Args o mem argv strs := by
  refine ⟨fun b hb => h.own b (mem_cons_of_mem _ hb), ?_,
    fun t ht => h.length t (mem_cons_of_mem _ ht)⟩
  have := h.text
  rw [map_cons, List.cons.injEq] at this
  exact this.2

/-- What is done elsewhere leaves them alone. -/
theorem Args.frame {argv : List ℕ} {o' : ℕ → Owner} {mem mem' : ℕ → Page} {P : Owner → Prop}
    (h : Args o mem argv strs) (hf : Frame P o o' mem mem') (hP : ¬ P .arg) :
    Args o' mem' argv strs := by
  refine ⟨fun a ha => (hf.own_iff hP).2 (h.own a ha), ?_, h.length⟩
  rw [h.text]
  exact map_congr_left fun a ha => by rw [hf.mem_of_own hP (h.own a ha)]

/-- **The loop of `exec` over the arguments** pushes the strings, or finds
that they are too many or do not fit. Nothing below the stack page is
written. -/
theorem execArgs_returns {argv ustack : List ℕ} (h : Space o s.mem r ptes f X) (hh : Heap k o s)
    (hX : Above X) (hn : 2 ≤ n) (htop : top = n * PGSIZE) (hlt : top < 2 ^ 64)
    (huser : ∀ va, top - PGSIZE ≤ va → va < top → ForUser ptes va)
    (hargs : Args o s.mem argv strs) (hused : used % 16 = 0) (hpage : used ≤ PGSIZE)
    (hcount : ustack.length ≤ MAXARG) :
    Returns (execArgs r (top - PGSIZE) argv (top - used) ustack) s fun res s' => ∃ g,
      Does k (Owner.inSpace r (n - 1)) o o s s' ∧ Space o s'.mem r ptes g X ∧
        (∀ x, x < top - PGSIZE → g x = f x) ∧
        if ustack.length + strs.length ≤ MAXARG ∧ used + stringRoom strs ≤ PGSIZE then
          res = some (top - (used + stringRoom strs), ustack ++ stringAddrs top strs used) ∧
            g = pushed top strs used f
        else res = none := by
  induction argv generalizing s f strs used ustack with
  | nil =>
    obtain rfl : strs = [] := hargs.text
    refine .pure ⟨f, .refl hh, h, fun _ _ => rfl, ?_⟩
    rw [if_pos ⟨hcount, by simpa [stringRoom] using hpage⟩]
    simp [stringRoom, stringAddrs, pushed]
  | cons a argv ih =>
    obtain ⟨str, strs, rfl⟩ : ∃ str l, strs = str :: l := ⟨_, _, hargs.text⟩
    have hstr : cstring (s.mem a) = str := by
      have := hargs.text
      rw [map_cons, List.cons.injEq] at this
      exact this.1.symm
    have hlen := hargs.length str (mem_cons_self ..)
    have hmod := room_mod (str.length + 1)
    have hle := le_room (str.length + 1)
    have hroom : room (str.length + 1) ≤ PGSIZE := by
      simp only [room, PGSIZE] at hlen ⊢
      omega
    have htop16 : top % 16 = 0 := by
      simp only [htop, PGSIZE]
      omega
    have hbig : 2 * PGSIZE ≤ top := by
      rw [htop]
      exact Nat.mul_le_mul_right _ hn
    rw [execArgs, length_cons]
    by_cases hmany : MAXARG ≤ ustack.length
    · rw [if_pos hmany]
      refine .pure ⟨f, .refl hh, h, fun _ _ => rfl, ?_⟩
      rw [if_neg (by omega)]
    rw [if_neg hmany]
    simp only [Returns.gets_bind_iff, hstr]
    rw [pushSp_eq (by omega) (by omega) (by omega), Nat.sub_sub, stringRoom_cons]
    by_cases hfull : PGSIZE < used + room (str.length + 1)
    · rw [if_pos (by omega)]
      refine .pure ⟨f, .refl hh, h, fun _ _ => rfl, ?_⟩
      rw [if_neg (by omega)]
    rw [if_neg (by omega)]
    -- the string goes to the stack page
    have hdiv : (top - (used + room (str.length + 1))) / PGSIZE = n - 1 := by
      simp only [htop, PGSIZE] at hfull hmod ⊢
      omega
    have hlength : (str ++ [0]).length = str.length + 1 := by simp
    refine .bind ((h.copyout_returns hh hX (huser _ (by omega) (by omega)) ?_).mono ?_)
    · have := Nat.div_add_mod (top - (used + room (str.length + 1))) PGSIZE
      rw [hdiv] at this
      rw [hlength]
      simp only [htop, PGSIZE] at this ⊢
      omega
    rintro ok s₁ ⟨rfl, hdo₁, h₁⟩
    rw [hdiv] at hdo₁
    refine (ih h₁ hdo₁.heap (hargs.tail.frame hdo₁.frame id) (by omega) (by omega) (by
      rw [length_append, length_singleton]
      omega)).mono ?_
    rintro res s' ⟨g, hdo, h', hlow, hres⟩
    refine ⟨g, hdo₁.trans hdo, h', fun x hx => ?_, ?_⟩
    · rw [hlow x hx, overlay_of_lt (by omega)]
    · rw [length_append, length_singleton] at hres
      rw [← Nat.add_assoc used, Nat.add_comm strs.length 1, ← Nat.add_assoc]
      by_cases hfit : ustack.length + 1 + strs.length ≤ MAXARG ∧
          used + room (str.length + 1) + stringRoom strs ≤ PGSIZE
      · rw [if_pos hfit] at hres ⊢
        rw [hres.1, hres.2]
        simp [stringAddrs, pushed]
      · rw [if_neg hfit] at hres ⊢
        exact hres

/-! ## The whole stack -/

/-- The array of pointers to the strings, with the zero at its end. -/
def pointers (top : ℕ) (strs : List (List UInt8)) : List UInt8 :=
  (stringAddrs top strs 0 ++ [0]).flatMap (bytesLE 8)

theorem length_flatMap_bytesLE (l : List ℕ) : (l.flatMap (bytesLE 8)).length = 8 * l.length := by
  induction l with
  | nil => rfl
  | cons a l ih =>
    rw [flatMap_cons, length_append, ih, bytesLE, length_map, length_range,
      length_cons]
    omega

theorem length_pointers : (pointers top strs).length = 8 * (strs.length + 1) := by
  rw [pointers, length_flatMap_bytesLE]
  simp

/-- There is room for the arguments. -/
def Fits (strs : List (List UInt8)) : Prop := strs.length ≤ MAXARG ∧ stackRoom strs ≤ PGSIZE

instance (strs : List (List UInt8)) : Decidable (Fits strs) := inferInstanceAs (Decidable (_ ∧ _))

/-- **`exec` from the guard page on**: strings and pointers are on the
stack, or they do not fit. Nothing below the stack page is written, and
the page below it is taken from the user. -/
theorem execStack_returns {argv : List ℕ} (h : Image o s.mem r ptes f X top) (hh : Heap k o s)
    (hX : Above X) (hn : 2 ≤ n) (htop : top = n * PGSIZE) (hargs : Args o s.mem argv strs) :
    Returns (execStack r top argv) s fun res s' => ∃ g w,
      Does k (Owner.inSpace r (n - 1)) o o s s' ∧ ptes[n - 2]? = some w ∧
        Space o s'.mem r (ptes.set (n - 2) (guarded w)) g X ∧
        (∀ x, x < top - PGSIZE → g x = f x) ∧
        if Fits strs then
          res = some (top - stackRoom strs, strs.length) ∧
            g = overlay (pushed top strs 0 f) (top - stackRoom strs) (pointers top strs)
        else res = none := by
  have hlen : ptes.length = n := by rw [h.length, htop, pages_mul]
  have hle := h.space.le hh
  have hw : ptes[n - 2]? = some ptes[n - 2] := getElem?_eq_getElem (by omega)
  have hguard : top - 2 * PGSIZE = (n - 2) * PGSIZE := by
    rw [htop, Nat.sub_mul]
  have hlt : top < 2 ^ 64 := by
    simp only [npages, PHYSTOP, KERNBASE, PGSIZE] at hle htop
    omega
  have htop16 : top % 16 = 0 := by
    simp only [htop, PGSIZE]
    omega
  have hbig : 2 * PGSIZE ≤ top := by
    rw [htop]
    exact Nat.mul_le_mul_right _ hn
  rw [execStack, hguard]
  refine .bind ((h.space.uvmclear_returns hh hw (h.flags _ (getElem_mem _))).mono ?_)
  rintro - s₁ ⟨hdo₁, h₁⟩
  have hdo₁ := hdo₁.mono (Owner.inSpace_of_inTable (m := n - 1))
  have huser : ∀ va, top - PGSIZE ≤ va → va < top →
      ForUser (ptes.set (n - 2) (guarded ptes[n - 2])) va := by
    intro va h1 h2
    have hdiv : va / PGSIZE = n - 1 := by
      simp only [htop, PGSIZE] at h1 h2 ⊢
      omega
    rw [ForUser, hdiv, getElem?_set_ne (by omega), ← hdiv]
    exact h.forUser (by rw [hlen, ← htop]; exact h2)
  have hargs₁ := hargs.frame hdo₁.frame id
  refine .bind ((execArgs_returns h₁ hdo₁.heap hX hn htop hlt huser hargs₁
    (Nat.zero_mod 16) (Nat.zero_le _) (Nat.zero_le _)).mono ?_)
  rintro res s₂ ⟨g, hdo₂, h₂, hlow, hres⟩
  have hdo₂ := hdo₁.trans hdo₂
  rw [length_nil, Nat.zero_add, Nat.zero_add] at hres
  by_cases hfit : strs.length ≤ MAXARG ∧ stringRoom strs ≤ PGSIZE
  swap
  · rw [if_neg hfit] at hres
    subst hres
    refine .pure ⟨g, _, hdo₂, hw, h₂, hlow, ?_⟩
    rw [if_neg (by rw [Fits, stackRoom]; omega)]
  · rw [if_pos hfit] at hres
    obtain ⟨rfl, hg⟩ := hres
    obtain ⟨hcount, hfit⟩ := hfit
    have hroom : room (8 * (strs.length + 1)) ≤ PGSIZE := by
      simp only [room, MAXARG, PGSIZE] at hcount ⊢
      omega
    have hmod := stringRoom_mod strs
    have hmod' := room_mod (8 * (strs.length + 1))
    have hle' := le_room (8 * (strs.length + 1))
    have hcomm : (strs.length + 1) * 8 = 8 * (strs.length + 1) := Nat.mul_comm ..
    simp only [nil_append, length_stringAddrs, hcomm]
    rw [pushSp_eq (by omega) (by omega) (by omega), Nat.sub_sub, ← stackRoom]
    by_cases hfull : PGSIZE < stackRoom strs
    · rw [if_pos (by rw [stackRoom] at hfull ⊢; omega)]
      refine .pure ⟨g, _, hdo₂, hw, h₂, hlow, ?_⟩
      rw [if_neg (by rw [Fits]; omega)]
    rw [if_neg (by omega)]
    have hdiv : (top - stackRoom strs) / PGSIZE = n - 1 := by
      simp only [stackRoom, htop, PGSIZE] at hfull ⊢
      omega
    refine .bind ((h₂.copyout_returns hdo₂.heap hX (huser _ (by omega) (by
      rw [stackRoom]
      omega)) ?_).mono ?_)
    · have := Nat.div_add_mod (top - stackRoom strs) PGSIZE
      rw [hdiv] at this
      rw [← pointers, length_pointers]
      simp only [stackRoom, htop, PGSIZE] at this ⊢
      omega
    rintro ok s₃ ⟨rfl, hdo₃, h₃⟩
    rw [hdiv] at hdo₃
    refine .pure ⟨_, _, hdo₂.trans hdo₃, hw, h₃, fun x hx => ?_, ?_⟩
    · rw [overlay_of_lt (by omega), hlow x hx]
    · rw [if_pos ⟨hcount, by omega⟩, ← hg]
      exact ⟨rfl, rfl⟩

end Vm

end Xv6
