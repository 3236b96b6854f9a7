import Xv6.Vm.Files
import Mathlib.Data.List.Count
/-!
# References and locks on the way along a path

`Took f l lk` is what a process holds since the state `f`: a reference for
each entry of the list `l`, and the lock `lk`. `namei` takes references and
locks as it goes from directory to directory, and on every way out it has
the reference to the inode it returns, and nothing else. It stops only
where `fs.c` itself panics: when the inode cache is full, or when the
directories on disk are not in order.
-/

namespace Xv6

open Common Function List

namespace Files

variable {f g : Files} {l l' : List (Fin NINODE)} {lk lk' : Option (Fin NINODE)} {ip : Fin NINODE}

/-! ## Entries of the cache -/

/-- The files with an entry of the cache set. -/
def withInode (g : Files) (ip : Fin NINODE) (c : Cached) : Files :=
  { g with inode := update g.inode ip c }

theorem iget_run (g : Files) (inum : ℕ) : iget inum g =
    match g.cachedInode inum, g.emptyInode with
    | some ip, _ => .ok (ip, g.withInode ip { g.inode ip with ref := (g.inode ip).ref + 1 })
    | none, some ip => .ok (ip, g.withInode ip { g.inode ip with inum, ref := 1, valid := false })
    | none, none => .error .igetNoInodes := by
  rw [iget, Prog.gets_bind]
  cases g.cachedInode inum with
  | some ip => rfl
  | none =>
    dsimp only
    rw [Prog.gets_bind]
    cases g.emptyInode <;> rfl

theorem ilock_run (g : Files) (ip : Fin NINODE) : ilock ip g =
    if (g.inode ip).ref < 1 then .error .ilock
    else if (g.inode ip).locked then .error .selfDeadlock
    else if (g.inode ip).valid = false ∧ (g.nodeOf ip).type = 0 then .error .ilockNoType
    else .ok ((), g.withInode ip { g.inode ip with locked := true, valid := true }) := by
  rw [ilock, Prog.gets_bind]
  split
  · rfl
  cases hl : (g.inode ip).locked with
  | true => rfl
  | false =>
    cases hv : (g.inode ip).valid with
    | true =>
      simp only [Bool.false_eq_true, Bool.true_eq_false, false_and, if_false, Bool.not_true]
      rw [← hv]
      rfl
    | false =>
      simp only [Bool.false_eq_true, true_and, if_false, Bool.not_false, if_true]
      rw [setInode, Prog.modify_bind, setInode, Prog.modify_bind, Prog.gets_bind]
      by_cases h0 : (g.nodeOf ip).type = 0 <;>
        simp only [nodeOf, withInode, update_self, update_idem] at h0 ⊢ <;> simp only [h0] <;> rfl

theorem iunlock_run (g : Files) (ip : Fin NINODE) : iunlock ip g =
    if (g.inode ip).locked = false ∨ (g.inode ip).ref < 1 then .error .iunlock
    else .ok ((), g.withInode ip { g.inode ip with locked := false }) := by
  rw [iunlock, Prog.gets_bind]
  split <;> rfl

/-- `iput` that does not free the inode. -/
theorem iput_run (h : ¬ ((g.inode ip).ref = 1 ∧ (g.inode ip).valid = true ∧ (g.nodeOf ip).nlink = 0)) :
    iput ip g = .ok ((), g.withInode ip { g.inode ip with ref := (g.inode ip).ref - 1 }) := by
  rw [iput, Prog.gets_bind, Prog.gets_bind, if_neg h]
  rfl

/-- The panics of `fs.c` on the way along a path. -/
inductive PathPanic : Panic → Prop
  | igetNoInodes : PathPanic .igetNoInodes
  | ilockNoType : PathPanic .ilockNoType
  | dirlookupRead : PathPanic .dirlookupRead

/-- **What is held since `f`**: a reference for each entry of `l`, and the
lock `lk`. No file has grown. -/
structure Took (f : Files) (l : List (Fin NINODE)) (lk : Option (Fin NINODE)) (g : Files) : Prop where
  outstanding : g.outstanding = f.outstanding
  ref : ∀ ip, (g.inode ip).ref = (f.inode ip).ref + l.count ip
  locked : ∀ ip, (g.inode ip).locked = decide (lk = some ip)
  size : ∀ i, (g.node i).data.length ≤ (f.node i).data.length

namespace Took

theorem refl (h : ∀ ip, (f.inode ip).locked = false) : Took f [] none f :=
  ⟨rfl, fun _ => rfl, fun ip => by rw [h ip]; rfl, fun _ => le_rfl⟩

/-- One entry of the cache changes. -/
theorem set {c : Cached} (h : Took f l lk g) (href : c.ref = (f.inode ip).ref + l'.count ip)
    (hlocked : c.locked = decide (lk' = some ip)) (hl : ∀ j, j ≠ ip → l'.count j = l.count j)
    (hlk : ∀ j, j ≠ ip → (lk' = some j ↔ lk = some j)) :
    Took f l' lk' (g.withInode ip c) := by
  unfold withInode
  refine ⟨h.outstanding, fun j => ?_, fun j => ?_, h.size⟩
  · by_cases hj : j = ip
    · subst hj
      simpa using href
    · simp only [update_of_ne hj, h.ref, hl j hj]
  · by_cases hj : j = ip
    · subst hj
      simpa using hlocked
    · simp only [update_of_ne hj, h.locked, hlk j hj]

/-- References are taken or given back; locks stay. -/
theorem of_ref {c : Cached} (h : Took f l lk g) (href : c.ref = (f.inode ip).ref + l'.count ip)
    (hlocked : c.locked = (g.inode ip).locked) (hl : ∀ j, j ≠ ip → l'.count j = l.count j) :
    Took f l' lk (g.withInode ip c) :=
  h.set href (by rw [hlocked, h.locked]) hl fun _ _ => Iff.rfl

/-- The order in which the references were taken does not matter. -/
theorem perm (h : Took f l lk g) (hp : l.Perm l') : Took f l' lk g :=
  ⟨h.outstanding, fun ip => by rw [h.ref, hp.count_eq], h.locked, h.size⟩

theorem ref_pos (h : Took f l lk g) (hip : ip ∈ l) : 0 < (g.inode ip).ref := by
  have := count_pos_iff.2 hip
  rw [h.ref]
  omega

/-- `ilock` of an inode to which there is a reference. -/
theorem ilock_eq (h : Took f l none g) (hip : ip ∈ l) : ilock ip g =
    if (g.inode ip).valid = false ∧ (g.nodeOf ip).type = 0 then .error .ilockNoType
    else .ok ((), g.withInode ip { g.inode ip with locked := true, valid := true }) := by
  have hpos := h.ref_pos hip
  have hfree : (g.inode ip).locked = false := by rw [h.locked]; rfl
  rw [ilock_run, if_neg (by omega), hfree, if_neg Bool.false_ne_true]

theorem iunlock_eq (h : Took f l (some ip) g) (hip : ip ∈ l) :
    iunlock ip g = .ok ((), g.withInode ip { g.inode ip with locked := false }) := by
  have hpos := h.ref_pos hip
  rw [iunlock_run, h.locked, decide_eq_true rfl, if_neg]
  rintro (hl | hr)
  · cases hl
  · omega

end Took

theorem count_cons_of_ne {j : Fin NINODE} (h : j ≠ ip) : (ip :: l).count j = l.count j :=
  List.count_cons_of_ne (Ne.symm h)

theorem iget_hoare (inum : ℕ) :
    Hoare (Took f l lk) (iget inum) (fun ip => Took f (ip :: l) lk) PathPanic := by
  refine .pointwise fun g hg => ?_
  have hrun := iget_run g inum
  cases hc : g.cachedInode inum with
  | some ip =>
    rw [hc] at hrun
    refine Returns.hoare ⟨ip, _, hrun, ?_⟩ _
    refine hg.of_ref ?_ rfl fun _ hj => count_cons_of_ne hj
    have := hg.ref ip
    simp only [count_cons_self]
    omega
  | none =>
    cases he : g.emptyInode with
    | none =>
      rw [hc, he] at hrun
      exact .of_error hrun .igetNoInodes
    | some ip =>
      have hzero : (g.inode ip).ref = 0 := by simpa using find?_some he
      rw [hc, he] at hrun
      refine Returns.hoare ⟨ip, _, hrun, ?_⟩ _
      refine hg.of_ref ?_ rfl fun _ hj => count_cons_of_ne hj
      have := hg.ref ip
      simp only [count_cons_self]
      omega

theorem idup_hoare (ip : Fin NINODE) :
    Hoare (Took f l lk) (idup ip) (fun _ => Took f (ip :: l) lk) PathPanic := by
  refine .modify fun g hg => hg.of_ref ?_ rfl fun _ hj => count_cons_of_ne hj
  have := hg.ref ip
  simp only [count_cons_self]
  omega

/-- **`ilock`** of an inode to which there is a reference. -/
theorem ilock_hoare (hip : ip ∈ l) :
    Hoare (Took f l none) (ilock ip) (fun _ => Took f l (some ip)) PathPanic := by
  refine .pointwise fun g hg => ?_
  have hother : ∀ j, j ≠ ip → (some ip = some j ↔ none = some j) := fun j hj =>
    ⟨fun h => absurd (Option.some.inj h).symm hj, fun h => absurd h (Option.some_ne_none j).symm⟩
  have hrun := hg.ilock_eq hip
  split at hrun
  · exact .of_error hrun .ilockNoType
  · refine Returns.hoare ⟨(), _, hrun, ?_⟩ _
    exact hg.set (hg.ref ip) (by simp) (fun _ _ => rfl) hother

theorem iunlock_hoare (hip : ip ∈ l) :
    Hoare (Took f l (some ip)) (iunlock ip) (fun _ => Took f l none) PathPanic := by
  refine .pointwise fun g hg => Returns.hoare ⟨(), _, hg.iunlock_eq hip, ?_⟩ _
  refine hg.set (hg.ref ip) rfl (fun _ _ => rfl) fun j hj => ?_
  exact ⟨fun h => absurd h (Option.some_ne_none j).symm, fun h => absurd (Option.some.inj h).symm hj⟩

/-- **`iput`** gives a reference back. -/
theorem iput_hoare (ip : Fin NINODE) :
    Hoare (Took f (ip :: l) none) (iput ip) (fun _ => Took f l none) PathPanic := by
  have hput : Hoare (Took f (ip :: l) none) (setInode ip fun i => { i with ref := i.ref - 1 })
      (fun _ => Took f l none) PathPanic := by
    refine .modify fun g hg => hg.of_ref ?_ rfl fun _ hj => (count_cons_of_ne hj).symm
    have := hg.ref ip
    rw [count_cons_self] at this
    show (g.inode ip).ref - 1 = _
    omega
  refine .pointwise fun g hg => .gets_bind (.gets_bind ?_)
  have hfree : (g.inode ip).locked = false := by rw [hg.locked]; rfl
  have hg' : ∀ s, s = g → Took f (ip :: l) none s := by
    rintro _ rfl
    exact hg
  refine .ite (fun _ => ?_) fun _ => hput.conseq hg' fun _ _ h => h
  simp only [hfree, Bool.false_eq_true, ↓reduceIte]
  -- the last reference to an inode without links: its file is truncated
  refine .bind (R := fun _ => Took f (ip :: l) none) (.modify ?_) fun _ =>
    Hoare.bind (R := fun _ => Took f (ip :: l) none) (.modify ?_) fun _ => hput
  · rintro _ rfl
    refine ⟨hg.outstanding, hg.ref, hg.locked, fun i => ?_⟩
    simp only [update_apply]
    split
    · exact Nat.zero_le _
    · exact hg.size i
  · exact fun g hg => hg.of_ref (hg.ref ip) rfl fun _ _ => rfl

theorem iunlockput_hoare (ip : Fin NINODE) :
    Hoare (Took f (ip :: l) (some ip)) (iunlockput ip) (fun _ => Took f l none) PathPanic :=
  (iunlock_hoare (mem_cons_self ..)).bind fun _ => iput_hoare ip

/-! ## Paths -/

theorem lookupFrom_hoare {data : List UInt8} {name : ℕ → UInt8} (fuel off : ℕ) :
    Hoare (· = g) (lookupFrom data name fuel off) (fun _ g' => g' = g) PathPanic := by
  induction fuel generalizing off with
  | zero => exact .pure fun _ h => h
  | succ fuel ih =>
    rw [lookupFrom]
    refine .ite (fun _ => ?_) fun _ => .pure fun _ h => h
    refine .ite (fun _ => .stop_bind fun _ _ => .dirlookupRead) fun _ => ?_
    exact .ite (fun _ => .pure fun _ h => h) fun _ => ih _

theorem dirlookup_hoare {name : ℕ → UInt8} (hg : Took f l lk g) (htype : (g.nodeOf ip).type = T_DIR) :
    Hoare (· = g) (dirlookup ip name) (fun r => Took f (r.toList ++ l) lk) PathPanic := by
  refine .gets_bind ?_
  simp only [htype, ne_eq, not_true_eq_false, ↓reduceIte]
  refine (lookupFrom_hoare _ 0).bind fun r => ?_
  cases r with
  | none =>
    refine .pure ?_
    rintro _ rfl
    exact hg
  | some inum =>
    refine ((iget_hoare inum).conseq ?_ fun _ _ h => h).bind fun next => .pure fun _ h => h
    rintro _ rfl
    exact hg

/-- The rest of a path is shorter. -/
theorem length_skipelem {path rest : List UInt8} {name name' : ℕ → UInt8}
    (h : skipelem path name = some (rest, name')) : rest.length < path.length := by
  simp only [skipelem] at h
  split at h
  · cases h
  · rename_i hne
    cases h
    generalize hp : path.dropWhile (· = slash) = q at *
    have hq : q.length ≤ path.length := hp ▸ (dropWhile_suffix _).length_le
    have hrest : ((q.dropWhile (· ≠ slash)).dropWhile (· = slash)).length ≤
        (q.dropWhile (· ≠ slash)).length := (dropWhile_suffix _).length_le
    cases q with
    | nil => exact absurd rfl hne
    | cons c q =>
      -- the first character is not a slash
      have hc : c ≠ slash := by
        intro hc
        have := head?_dropWhile_not (· = slash) path
        rw [hp] at this
        simp [hc] at this
      rw [dropWhile_cons_of_pos (by simpa using hc)] at hrest ⊢
      have := (dropWhile_suffix (l := q) (· ≠ slash)).length_le
      rw [length_cons] at hq
      omega

theorem namexLoop_hoare {fuel : ℕ} {path : List UInt8} {name : ℕ → UInt8} (hfuel : path.length < fuel) :
    Hoare (Took f [ip] none) (namexLoop false fuel ip path name)
      (fun r => Took f (r.map (·.1)).toList none) PathPanic := by
  induction fuel generalizing ip path name with
  | zero => omega
  | succ fuel ih =>
    rw [namexLoop]
    cases he : skipelem path name with
    | none => exact .pure fun _ h => h
    | some elem =>
      obtain ⟨rest, name⟩ := elem
      have hlen := length_skipelem he
      refine (ilock_hoare (mem_singleton_self ip)).bind fun _ =>
        .pointwise fun g hg => .gets_bind ?_
      have hg' : ∀ s, s = g → Took f [ip] (some ip) s := by
        rintro _ rfl
        exact hg
      refine .ite (fun _ => ?_) fun htype => ?_
      · exact ((iunlockput_hoare ip).conseq hg' fun _ _ h => h).bind fun _ => .pure fun _ h => h
      · simp only [Bool.false_eq_true, false_and, ↓reduceIte]
        refine (dirlookup_hoare hg (not_not.1 htype)).bind fun r => ?_
        cases r with
        | none => exact (iunlockput_hoare ip).bind fun _ => .pure fun _ h => h
        | some next =>
          -- the directory is the second of the two that are held
          refine ((iunlockput_hoare ip).conseq (fun _ h => ?_) fun _ _ h => h).bind fun _ =>
            ih (by omega)
          exact h.perm (.swap ..)

/-- **`namei`** ends with a reference to the inode it returns, and with
nothing if there is none. -/
theorem namei_hoare {cwd : Option (Fin NINODE)} (path : List UInt8) (hcwd : cwd ≠ none) :
    Hoare (Took f [] none) (namei cwd path) (fun r => Took f r.toList none) PathPanic := by
  refine .bind (R := fun r => Took f (r.map (·.1)).toList none) ?_ fun _ => .pure fun _ h => h
  refine .ite (fun _ => ?_) fun _ => ?_
  · exact (iget_hoare ROOTINO).bind fun _ => namexLoop_hoare (Nat.lt_succ_self _)
  · cases cwd with
    | none => exact absurd rfl hcwd
    | some ip => exact (idup_hoare ip).bind fun _ => namexLoop_hoare (Nat.lt_succ_self _)

end Files

end Xv6
