import Mathlib.Data.Fintype.Card
import Xv6.Sysfile.Tree
import Xv6.Vm.Paths
/-!
# What a walk holds

A walk along a path takes references to cached inodes and locks one at a
time. `Walked f l lk g`: since the files were `f`, it has taken a reference
for each entry of `l`, with the inode number it is for, and the lock `lk`;
what `f` refers to has not moved in the cache, and no file has changed. The
functions on cache entries are stated in these terms, and `dirlookup` finds
in a directory what the tree has. `iput` changes no file where someone else
refers to the inode or it has a link.
-/

namespace Xv6

open Common Function List

namespace Files

variable {f g : Files} {l l' : List (Fin NINODE × ℕ)} {lk lk' : Option (Fin NINODE)} {ip : Fin NINODE}
  {n : ℕ} {c : Cached} {E : Panic → Prop}

/-- **What a walk holds**, and what it has left alone. -/
structure Walked (f : Files) (l : List (Fin NINODE × ℕ)) (lk : Option (Fin NINODE)) (g : Files) :
    Prop extends Took f (l.map Prod.fst) lk g where
  node : g.node = f.node
  kept : ∀ ip, 0 < (f.inode ip).ref → (g.inode ip).inum = (f.inode ip).inum
  inum : ∀ x ∈ l, (g.inode x.1).inum = x.2
  held : ∀ ip ∈ lk, ip ∈ l.map Prod.fst ∧ (g.inode ip).valid = true

namespace Walked

theorem refl (h : ∀ ip, (f.inode ip).locked = false) : Walked f [] none f :=
  ⟨.refl h, rfl, fun _ _ => rfl, fun _ hx => absurd hx not_mem_nil, fun _ hip => by cases hip⟩

section

variable (h : Walked f l lk g)
include h

/-- The node of an inode that is referred to. -/
theorem nodeOf_eq (hx : (ip, n) ∈ l) : g.nodeOf ip = f.node n := by
  rw [nodeOf, h.node, h.inum _ hx]

theorem perm (hp : l.Perm l') : Walked f l' lk g :=
  ⟨h.toTook.perm (hp.map Prod.fst), h.node, h.kept, fun x hx => h.inum x (hp.mem_iff.2 hx),
    fun ip hip => ⟨(hp.map Prod.fst).mem_iff.1 (h.held ip hip).1, (h.held ip hip).2⟩⟩

/-- One entry of the cache changes, and does not move if it is in use. -/
theorem set (ht : Took f (l'.map Prod.fst) lk' (g.withInode ip c))
    (hc : 0 < (g.inode ip).ref → c.inum = (g.inode ip).inum)
    (hl : ∀ x ∈ l', x ∈ l ∨ x = (ip, c.inum))
    (hlk : ∀ j ∈ lk', j ∈ l'.map Prod.fst ∧ (j = ip → c.valid = true) ∧ (j ≠ ip → j ∈ lk)) :
    Walked f l' lk' (g.withInode ip c) := by
  have hsame : ∀ j, 0 < (g.inode j).ref → ((g.withInode ip c).inode j).inum = (g.inode j).inum := by
    intro j hj
    by_cases hji : j = ip
    · subst hji
      exact (congrArg Cached.inum (update_self ..)).trans (hc hj)
    · exact congrArg Cached.inum (update_of_ne hji ..)
  refine ⟨ht, h.node, fun j hj => ?_, fun x hx => ?_, fun j hj => ?_⟩
  · rw [hsame j (by rw [h.ref]; omega), h.kept j hj]
  · rcases hl x hx with hx | rfl
    · rw [hsame x.1 (h.ref_pos (mem_map_of_mem hx)), h.inum x hx]
    · exact congrArg Cached.inum (update_self ..)
  · obtain ⟨h1, h2, h3⟩ := hlk j hj
    refine ⟨h1, ?_⟩
    by_cases hji : j = ip
    · subst hji
      exact (congrArg Cached.valid (update_self ..)).trans (h2 rfl)
    · exact (congrArg Cached.valid (update_of_ne hji ..)).trans (h.held j (h3 hji)).2

/-- One reference more, to an entry. -/
theorem take {v : Bool}
    (hold : 0 < (g.inode ip).ref → n = (g.inode ip).inum ∧ v = (g.inode ip).valid) :
    Walked f ((ip, n) :: l) lk
      (g.withInode ip ⟨n, (g.inode ip).ref + 1, v, (g.inode ip).locked⟩) := by
  refine h.set (h.toTook.of_ref ?_ rfl fun _ hj => count_cons_of_ne hj) (fun hp => (hold hp).1)
    (fun x hx => (mem_cons.1 hx).symm) fun j hj => ⟨mem_cons_of_mem _ (h.held j hj).1, ?_, fun _ => hj⟩
  · rw [h.ref, map_cons, count_cons_self, Nat.add_assoc]
  · rintro rfl
    exact (hold (h.ref_pos (h.held j hj).1)).2.trans (h.held j hj).2

/-- Where every entry is in use, the walk has taken those that were not. -/
theorem spare_le (hfull : ∀ ip, (g.inode ip).ref ≠ 0) :
    (Finset.univ.filter fun ip => (f.inode ip).ref = 0).card ≤ l.length := by
  have hsub : (Finset.univ.filter fun ip => (f.inode ip).ref = 0) ⊆ (l.map Prod.fst).toFinset := by
    intro ip hip
    have h0 := (Finset.mem_filter.1 hip).2
    have h1 := h.ref ip
    have h2 := hfull ip
    rw [mem_toFinset, ← count_pos_iff]
    omega
  have := (Finset.card_le_card hsub).trans (toFinset_card_le _)
  rwa [length_map] at this

end

end Walked

/-! ## Cache entries -/

/-- **`iget`** -/
theorem iget_walked (h : Walked f l lk g) (hE : (∀ ip, (g.inode ip).ref ≠ 0) → E .igetNoInodes) :
    Hoare (· = g) (iget n) (fun ip => Walked f ((ip, n) :: l) lk) E := by
  have hrun := iget_run g n
  cases hc : g.cachedInode n with
  | some ip =>
    obtain ⟨-, rfl⟩ : 0 < (g.inode ip).ref ∧ (g.inode ip).inum = n := by simpa using find?_some hc
    rw [hc] at hrun
    exact Returns.hoare ⟨ip, _, hrun, h.take fun _ => ⟨rfl, rfl⟩⟩ E
  | none =>
    cases he : g.emptyInode with
    | some ip =>
      have hzero : (g.inode ip).ref = 0 := by simpa using find?_some he
      have htake : Walked f ((ip, n) :: l) lk _ := h.take (v := false) fun hp => by omega
      rw [hzero] at htake
      rw [hc, he] at hrun
      exact Returns.hoare ⟨ip, _, hrun, htake⟩ E
    | none =>
      rw [hc, he] at hrun
      refine .of_error hrun (hE fun ip => ?_)
      simpa using find?_eq_none.1 he ip (mem_finRange ip)

/-- **`idup`** of an inode that was referred to. -/
theorem idup_walked (h : Walked f l lk g) (href : 0 < (f.inode ip).ref) :
    Hoare (· = g) (idup ip) (fun _ => Walked f ((ip, (f.inode ip).inum) :: l) lk) E := by
  refine .modify ?_
  rintro _ rfl
  rw [← h.kept ip href]
  exact h.take fun _ => ⟨rfl, rfl⟩

/-- **`ilock`** -/
theorem ilock_walked (h : Walked f ((ip, n) :: l) none g)
    (hE : (f.node n).type = 0 → E .ilockNoType) :
    Hoare (· = g) (ilock ip) (fun _ => Walked f ((ip, n) :: l) (some ip)) E := by
  have hip : ip ∈ ((ip, n) :: l).map Prod.fst := mem_cons_self ..
  have hrun := h.ilock_eq hip
  rw [h.nodeOf_eq (mem_cons_self ..)] at hrun
  split at hrun
  · rename_i hstop
    exact .of_error hrun (hE hstop.2)
  · refine Returns.hoare ⟨(), _, hrun, h.set ((ilock_hoare hip).ok h.toTook hrun) (fun _ => rfl)
      (fun _ => .inl) ?_⟩ E
    rintro _ ⟨⟩
    exact ⟨hip, fun _ => rfl, fun hne => absurd rfl hne⟩

/-- **`iunlock`** -/
theorem iunlock_walked (h : Walked f ((ip, n) :: l) (some ip) g) :
    Hoare (· = g) (iunlock ip) (fun _ => Walked f ((ip, n) :: l) none) E := by
  have hip : ip ∈ ((ip, n) :: l).map Prod.fst := mem_cons_self ..
  have hrun := h.iunlock_eq hip
  exact Returns.hoare ⟨(), _, hrun, h.set ((iunlock_hoare hip).ok h.toTook hrun) (fun _ => rfl)
    (fun _ => .inl) fun _ hj => by cases hj⟩ E

/-- **`iput`** that does not free the inode. -/
theorem iput_walked (h : Walked f ((ip, n) :: l) none g)
    (hlast : ¬ ((g.inode ip).ref = 1 ∧ (g.inode ip).valid = true ∧ (g.nodeOf ip).nlink = 0)) :
    Hoare (· = g) (iput ip) (fun _ => Walked f l none) E := by
  have hrun := iput_run hlast
  exact Returns.hoare ⟨(), _, hrun, h.set ((iput_hoare ip).ok h.toTook hrun) (fun _ => rfl)
    (fun _ hx => .inl (mem_cons_of_mem _ hx)) fun _ hj => by cases hj⟩ E

/-! ## Directories -/

/-- **The buffer does not matter**: the element taken off a path and its
name are the same. -/
theorem skipelem_congr {path : List UInt8} (h : 0 ∉ path) (name name' : ℕ → UInt8) :
    (skipelem path name).map (Prod.map id nameOf) =
      (skipelem path name').map (Prod.map id nameOf) := by
  have helem : 0 ∉ (path.dropWhile (· = slash)).takeWhile (· ≠ slash) := fun h0 =>
    h ((dropWhile_sublist _).mem ((takeWhile_sublist _).mem h0))
  simp only [skipelem]
  split
  · rfl
  · simp only [Option.map_some, Prod.map_apply, id_eq, Sysfile.nameOf_copied helem]

/-- **The loop of `dirlookup`** goes through the slots of the directory. -/
theorem lookupFrom_run {nd : Node} {name : ℕ → UInt8} {fuel i : ℕ} {g : Files}
    (hsize : nd.data.length % 16 = 0) (hmax : nd.data.length < 2 ^ 31) (hfuel : nd.nslots < i + fuel)
    (hno : ∀ j, j < i → ¬ ((nd.slot j).inum ≠ 0 ∧ nameOf (nd.slot j).name = nameOf name)) :
    lookupFrom nd.data name fuel (16 * i) g = .ok (nd.lookup (nameOf name), g) := by
  have hnone : nd.nslots ≤ i → nd.lookup (nameOf name) = none := fun hle => by
    rw [Node.lookup, Node.find_eq_none.2 fun j hj => hno j (by omega), Option.map_none]
  induction fuel generalizing i with
  | zero => rw [hnone (by omega)]; rfl
  | succ fuel ih =>
    have hslots : nd.nslots = nd.data.length / 16 := rfl
    by_cases hi : i < nd.nslots
    · have hread : readi nd.data (16 * i) 16 = (nd.data.drop (16 * i)).take 16 := if_neg (by omega)
      have hlen : ((nd.data.drop (16 * i)).take 16).length = 16 := by
        rw [length_take, length_drop]
        omega
      simp only [lookupFrom, if_pos (show 16 * i < nd.data.length by omega), hread, hlen, ne_eq,
        not_true_eq_false, if_false]
      by_cases hhit : (nd.slot i).inum ≠ 0 ∧ nameOf (nd.slot i).name = nameOf name
      · have hfind : nd.find (nameOf name) = some i := Node.find_eq_some.2 ⟨hhit, hi, hno⟩
        have hcond : ¬ (Dirent.ofBytes ((nd.data.drop (16 * i)).take 16)).inum = 0 ∧
            namecmp name (Dirent.ofBytes ((nd.data.drop (16 * i)).take 16)).name = 0 :=
          ⟨hhit.1, sameName_iff.2 hhit.2.symm⟩
        rw [if_pos hcond, Node.lookup, hfind]
        rfl
      · have hcond : ¬ (¬ (Dirent.ofBytes ((nd.data.drop (16 * i)).take 16)).inum = 0 ∧
            namecmp name (Dirent.ofBytes ((nd.data.drop (16 * i)).take 16)).name = 0) :=
          fun hc => hhit ⟨hc.1, (sameName_iff.1 hc.2).symm⟩
        rw [if_neg hcond]
        refine ih (i := i + 1) (by omega) (fun j hj => ?_) fun hle => ?_
        · rcases Nat.lt_succ_iff_lt_or_eq.1 hj with hj | rfl
          · exact hno j hj
          · exact hhit
        · rw [Node.lookup, Node.find_eq_none.2 fun j hj => ?_, Option.map_none]
          obtain rfl | hj : j = i ∨ j < i := by omega
          · exact hhit
          · exact hno j hj
    · rw [hnone (by omega)]
      simp only [lookupFrom, if_neg (show ¬ 16 * i < nd.data.length by omega)]
      rfl

/-- **`dirlookup`** finds what the tree has. -/
theorem dirlookup_run (htype : (g.nodeOf ip).type = T_DIR)
    (hsize : (g.nodeOf ip).data.length % 16 = 0) (hmax : (g.nodeOf ip).data.length < 2 ^ 31)
    (name : ℕ → UInt8) : dirlookup ip name g = match (g.nodeOf ip).lookup (nameOf name) with
      | none => .ok (none, g)
      | some m => (do let jp ← iget m; return some jp) g := by
  have hlook := @lookupFrom_run (g.nodeOf ip) name ((g.nodeOf ip).data.length / 16 + 1) 0 g hsize hmax
    (by rw [Node.nslots]; omega) fun j hj => absurd hj (Nat.not_lt_zero j)
  rw [dirlookup, Prog.gets_bind, if_neg (not_not.2 htype)]
  dsimp only
  rw [Prog.bind_run, hlook]
  cases (g.nodeOf ip).lookup (nameOf name) <;> rfl

theorem dirlookup_walked (h : Walked f l lk g) (htype : (g.nodeOf ip).type = T_DIR)
    (hsize : (g.nodeOf ip).data.length % 16 = 0) (hmax : (g.nodeOf ip).data.length < 2 ^ 31)
    (hE : (∀ ip, (g.inode ip).ref ≠ 0) → E .igetNoInodes) (name : ℕ → UInt8) :
    Hoare (· = g) (dirlookup ip name) (fun r g' =>
      ((g.nodeOf ip).lookup (nameOf name) = none ∧ r = none ∧ Walked f l lk g') ∨
      ∃ m jp, (g.nodeOf ip).lookup (nameOf name) = some m ∧ r = some jp ∧
        Walked f ((jp, m) :: l) lk g') E := by
  have hrun := dirlookup_run htype hsize hmax name
  cases hlook : (g.nodeOf ip).lookup (nameOf name) with
  | none =>
    rw [hlook] at hrun
    exact Returns.hoare ⟨none, g, hrun, .inl ⟨rfl, rfl, h⟩⟩ E
  | some m =>
    rw [hlook] at hrun
    refine Hoare.run_eq ((iget_walked h hE).bind fun jp => ?_) hrun
    exact .pure fun _ hw => .inr ⟨m, jp, rfl, rfl, hw⟩

end Files

end Xv6
