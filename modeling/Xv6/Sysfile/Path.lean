import Xv6.Sysfile.Simulate
/-!
# Path resolution is a fold over components — `namex`

`namei` and `nameiparent` walk the cache from directory to directory,
locking one inode at a time; what they return is what the tree on disk
says. They keep the reference to the inode returned and nothing else, and
stop only where the cache is full or an entry names an inode that is not
allocated. `Xv6.Files`, which shows the blocks, is walked alike, whatever
the name buffers hold at first.
-/

namespace Xv6

open Common List

namespace Sysfile

open Files (skipelem)

variable {sb : Superblock} {s t : State} {f g : Files} {d : Disk} {ip : Fin NINODE} {n p : ℕ}
  {l : List (Fin NINODE × ℕ)} {lk : Option (Fin NINODE)} {E : Panic → Prop}

/-! ## The reference -/

/-- What the names but the last lead to, if it is a directory. -/
def parentOf (tree : ℕ → Node) (n : ℕ) (names : List (List UInt8)) : Option ℕ :=
  if names = [] then none
  else (resolve tree n names.dropLast).filter fun m => (tree m).type = T_DIR

theorem parentOf_singleton (tree : ℕ → Node) (n : ℕ) (nm : List UInt8) :
    parentOf tree n [nm] = if (tree n).type = T_DIR then some n else none := by
  simp [parentOf, Option.filter_some]

theorem parentOf_cons (tree : ℕ → Node) (n : ℕ) (nm : List UInt8) {names : List (List UInt8)}
    (h : names ≠ []) :
    parentOf tree n (nm :: names) = (step tree n nm).bind fun m => parentOf tree m names := by
  unfold parentOf
  rw [if_neg (cons_ne_nil _ _), dropLast_cons_of_ne_nil h, resolve_cons]
  cases step tree n nm with
  | none => rfl
  | some m => simp only [Option.bind_some, if_neg h]

/-- What the walk is to come to. -/
def target (parent : Bool) (tree : ℕ → Node) (n : ℕ) (names : List (List UInt8)) : Option ℕ :=
  if parent then parentOf tree n names else resolve tree n names

theorem target_of_not_dir {tree : ℕ → Node} (parent : Bool) (nm : List UInt8)
    (names : List (List UInt8)) (h : (tree n).type ≠ T_DIR) :
    target parent tree n (nm :: names) = none := by
  have hstep : step tree n nm = none := if_neg h
  unfold target
  split
  · by_cases hnames : names = []
    · rw [hnames, parentOf_singleton, if_neg h]
    · rw [parentOf_cons _ _ _ hnames, hstep]
      rfl
  · rw [resolve_cons, hstep]
    rfl

/-- One step of the walk. -/
theorem target_cons {tree : ℕ → Node} {parent : Bool} (nm : List UInt8) {names : List (List UInt8)}
    (h : ¬ (parent = true ∧ names = [])) :
    target parent tree n (nm :: names) =
      (step tree n nm).bind fun m => target parent tree m names := by
  unfold target
  split
  · rename_i hp
    exact parentOf_cons _ _ _ fun hn => h ⟨hp, hn⟩
  · exact resolve_cons ..

/-! ## The state a walk needs -/

variable (sb) in
/-- The inodes a walk can come to: the root, what is referred to, and what
an entry of a directory among them names. -/
inductive Leads (s : State) (d : Disk) : ℕ → Prop
  | root : Leads s d ROOTINO
  | held {ip : Fin NINODE} : 0 < (s.fs.inode ip).ref → Leads s d (s.fs.inode ip).inum
  | entry {n i : ℕ} : Leads s d n → (Fs.view sb d n).type = T_DIR → i < (Fs.view sb d n).nslots →
      ((Fs.view sb d n).slot i).inum ≠ 0 → Leads s d ((Fs.view sb d n).slot i).inum

variable (sb) in
/-- **The state a call starts in**: no inode is locked, directories consist
of whole slots, entries hold numbers of inodes, and what has no link left
is referred to. -/
structure Calm (s : State) (d : Disk) : Prop where
  unlocked : ∀ ip, s.locked ip = false
  inum : ∀ n, Leads sb s d n → n < sb.ninodes
  size : ∀ n, Leads sb s d n → (Fs.view sb d n).type = T_DIR →
    (Fs.view sb d n).data.length % 16 = 0
  orphan : ∀ n, Leads sb s d n → (Fs.view sb d n).type ≠ 0 → (Fs.view sb d n).nlink = 0 →
    ∃ ip, 0 < (s.fs.inode ip).ref ∧ (s.fs.inode ip).inum = n

variable (sb) in
/-- A walk can come to an inode that is not allocated. -/
def Dangling (s : State) (d : Disk) : Prop :=
  ∃ n, Leads sb s d n ∧ (Fs.view sb d n).type = 0

/-- The cache entries not in use. -/
def spare (s : State) : ℕ := (Finset.univ.filter fun ip => (s.fs.inode ip).ref = 0).card

/-- Where every entry is in use, the walk has taken the spare ones. -/
theorem Shows.spare_le (hs : Shows sb d s f) (h : f.Walked l lk g) (hfull : ∀ ip, (g.inode ip).ref ≠ 0) :
    spare s ≤ l.length := by
  have := h.spare_le hfull
  simpa only [hs.inode, spare] using this

section

variable (hc : Calm sb s d) (hs : Shows sb d s f) (hn : Leads sb s d n)
include hc hs hn

/-- From a calm state, giving back a reference frees nothing. -/
theorem Calm.not_last (h : f.Walked ((ip, n) :: l) lk g) (ht : Shows sb d t g) :
    ¬ ((g.inode ip).ref = 1 ∧ (g.inode ip).valid = true ∧ (g.nodeOf ip).nlink = 0) := by
  rintro ⟨h1, h2, h3⟩
  have hl := ht.live (by omega) h2
  have htype : (g.nodeOf ip).type ≠ 0 := by
    rw [ht.nodeOf, ht.consistent.view_eq hl]
    exact (ht.consistent.copy ip hl.ref hl.valid).2.1
  rw [h.nodeOf_eq (mem_cons_self ..), hs.node] at h3 htype
  obtain ⟨jp, hpos, hinum⟩ := hc.orphan n hn htype h3
  have hf : 0 < (f.inode jp).ref ∧ (f.inode jp).inum = n := by
    rw [hs.inode]
    exact ⟨hpos, hinum⟩
  have hjp : jp = ip := by
    have hg : 0 < (g.inode jp).ref ∧ (g.inode jp).inum = (g.inode ip).inum := by
      rw [h.ref, h.kept jp hf.1, hf.2, h.inum _ (mem_cons_self ..)]
      exact ⟨Nat.add_pos_left hf.1 _, rfl⟩
    rw [ht.inode, ht.inode] at hg
    exact ht.consistent.unique jp ip hg.1 hl.ref hg.2
  have href := h.ref ip
  rw [map_cons, count_cons_self] at href
  rw [hjp] at hf
  omega

theorem Calm.iput (h : f.Walked ((ip, n) :: l) none g) (ht : Shows sb d t g) :
    Simulates (Sysfile.iput sb ip) t (Files.iput ip) g
      (fun _ u _ g' => f.Walked l none g' ∧ Shows sb d u g') E :=
  (iput_simulates ht (h.ref_pos (mem_cons_self ..)) (hc.not_last hs hn h ht)).hoare
    (Files.iput_walked h (hc.not_last hs hn h ht))

theorem Calm.iunlockput (h : f.Walked ((ip, n) :: l) (some ip) g) (ht : Shows sb d t g) :
    Simulates (Sysfile.iunlockput sb ip) t (Files.iunlockput ip) g
      (fun _ u _ g' => f.Walked l none g' ∧ Shows sb d u g') E :=
  .bind (((iunlock_simulates ht ip).hoare (Files.iunlock_walked h)).mono
    fun _ _ _ _ hu => hc.iput hs hn hu.1 hu.2)

end

/-! ## The walk -/

/-- What the walk has come to: the inode, with a reference to it, and its
last name; or nothing. -/
def Led (f : Files) (l : List (Fin NINODE × ℕ)) (goal : Option ℕ) (last : Option (List UInt8))
    (r : Option (Fin NINODE × (ℕ → UInt8))) (g : Files) : Prop :=
  match goal, r with
  | none, none => f.Walked l none g
  | some m, some (jp, nm) => f.Walked ((jp, m) :: l) none g ∧ ∀ x, last = some x → nameOf nm = x
  | _, _ => False

/-- The name that `nameiparent` leaves in the buffer. -/
def lastOf (parent : Bool) (names : List (List UInt8)) : Option (List UInt8) :=
  if parent then names.getLast? else none

theorem lastOf_cons {parent : Bool} {names : List (List UInt8)} (nm : List UInt8)
    (h : ¬ (parent = true ∧ names = [])) : lastOf parent (nm :: names) = lastOf parent names := by
  unfold lastOf
  split
  · rename_i hp
    obtain ⟨y, ys, rfl⟩ := exists_cons_of_ne_nil fun hn => h ⟨hp, hn⟩
    rw [getLast?_cons_cons]
  · rfl

/-- What a walk has come to, above the blocks and on what they show: the
same entry, and for the parent the same last name. -/
def SameEnd (parent : Bool) (r r' : Option (Fin NINODE × (ℕ → UInt8))) : Prop :=
  r'.map Prod.fst = r.map Prod.fst ∧
    (parent = true → r'.map (nameOf ·.2) = r.map (nameOf ·.2))

/-- **The loop of `namex`**, above the blocks and on what they show. -/
theorem namexLoop_simulates (hc : Calm sb s d) (hs : Shows sb d s f) (parent : Bool) {fuel : ℕ}
    {path : List UInt8} {name name' : ℕ → UInt8} (h0 : 0 ∉ path) (hfuel : path.length < fuel)
    (hn : Leads sb s d n) (h : f.Walked ((ip, n) :: l) none g) (ht : Shows sb d t g)
    (hdangling : Dangling sb s d → E .ilockNoType)
    (hfull : spare s ≤ l.length + 1 → E .igetNoInodes) :
    Simulates (namexLoop sb parent fuel ip path name) t (Files.namexLoop parent fuel ip path name') g
      (fun r u r' g' => Led f l (target parent (Fs.view sb d) n (components path))
        (lastOf parent (components path)) r' g' ∧ SameEnd parent r r' ∧ Shows sb d u g') E := by
  induction fuel generalizing t g ip n path name name' with
  | zero => omega
  | succ fuel ih =>
    have hskip := skipelem_spec h0 name
    have hsame := Files.skipelem_congr h0 name name'
    rw [namexLoop, Files.namexLoop]
    cases he : skipelem path name with
    | none =>
      rw [he] at hskip hsame
      have hcomp : components path = [] := hskip
      rw [Option.map_none, eq_comm, Option.map_eq_none_iff] at hsame
      rw [hsame, hcomp]
      cases parent with
      | true =>
        refine .bind ((hc.iput hs hn h ht).mono fun _ u _ g' hu => ?_)
        exact .of_ok rfl rfl ⟨hu.1, ⟨rfl, fun _ => rfl⟩, hu.2⟩
      | false =>
        exact .of_ok rfl rfl ⟨⟨h, fun x hx => by cases hx⟩, ⟨rfl, fun hp => by cases hp⟩, ht⟩
    | some x =>
      obtain ⟨rest, nm⟩ := x
      rw [he] at hskip hsame
      obtain ⟨⟨rest', nm'⟩, he', hx⟩ := Option.map_eq_some_iff.1 hsame.symm
      obtain ⟨rfl, hnm⟩ : rest' = rest ∧ nameOf nm' = nameOf nm := Prod.mk.inj hx
      obtain ⟨hcomp, hrest0, hempty⟩ := hskip
      have hlen := Files.length_skipelem he
      rw [he', hcomp]
      have hlt : (g.inode ip).inum < sb.ninodes := by
        rw [h.inum _ (mem_cons_self ..)]
        exact hc.inum n hn
      refine .bind (((ilock_simulates ht hlt).hoare (Files.ilock_walked h fun hty =>
        hdangling ⟨n, hn, by rwa [hs.node] at hty⟩)).mono ?_)
      rintro _ u _ g₁ ⟨hu, hs₁⟩
      have hl : u.fs.Live ip := hs₁.live (hu.ref_pos (mem_cons_self ..)) (hu.held ip rfl).2
      have hnode : g₁.nodeOf ip = Fs.view sb d n := by
        rw [hu.nodeOf_eq (mem_cons_self ..), hs.node]
      have htype : (u.fs.inode ip).type = (Fs.view sb d n).type := by
        rw [← hnode, hs₁.nodeOf, hs₁.consistent.view_eq hl]
      refine getInode_simulates ?_
      rw [htype, hnode]
      -- the inode and nothing else is given back on the ways out
      have hback : ∀ {v g₂}, f.Walked ((ip, n) :: l) (some ip) g₂ → Shows sb d v g₂ →
          Simulates (do iunlockput sb ip; return none) v (do Files.iunlockput ip; return none) g₂
            (fun r w r' g' => Led f l none (lastOf parent (nameOf nm :: components rest')) r' g' ∧
              SameEnd parent r r' ∧ Shows sb d w g') E := by
        intro v g₂ hv hs₂
        refine .bind ((hc.iunlockput hs hn hv hs₂).mono fun _ w _ g' hw => ?_)
        exact .of_ok rfl rfl ⟨hw.1, ⟨rfl, fun _ => rfl⟩, hw.2⟩
      by_cases hdir : (Fs.view sb d n).type ≠ T_DIR
      · rw [if_pos hdir, if_pos hdir, target_of_not_dir parent _ _ hdir]
        exact hback hu hs₁
      rw [if_neg hdir, if_neg hdir]
      have hdir := not_not.1 hdir
      by_cases hlast : parent = true ∧ rest'.isEmpty = true
      · -- one level early
        rw [if_pos hlast, if_pos hlast]
        have hnil : components rest' = [] := hempty.1 (by simpa using hlast.2)
        refine .bind (((iunlock_simulates hs₁ ip).hoare (Files.iunlock_walked hu)).mono
          fun _ v _ g' hv => ?_)
        refine .of_ok rfl rfl ⟨?_, ⟨rfl, fun _ => congrArg some hnm⟩, hv.2⟩
        simp only [hnil, hlast.1, target, lastOf, if_true, parentOf_singleton, if_pos hdir]
        exact ⟨hv.1, fun x hx => by rw [hnm]; simpa using hx⟩
      rw [if_neg hlast, if_neg hlast]
      have hmore : ¬ (parent = true ∧ components rest' = []) := fun hm =>
        hlast ⟨hm.1, by simpa using hempty.2 hm.2⟩
      have hstep : step (Fs.view sb d) n (nameOf nm) =
          (Fs.view sb d n).lookup (nameOf nm) := if_pos hdir
      rw [target_cons _ hmore, hstep]
      have hdir' := hdir
      have hsize := hc.size n hn hdir
      rw [← hnode] at hdir' hsize
      have hwalk := Files.dirlookup_walked (E := E) hu hdir' hsize (hs₁.length_lt hl)
        (fun hno => hfull (hs.spare_le hu hno)) nm'
      rw [hnm, hnode] at hwalk
      refine .bind (((dirlookup_simulates hs₁ hl hdir' hsize hnm).hoare hwalk).mono ?_)
      rintro r v _ g₂ ⟨⟨hlook, rfl, hv⟩ | ⟨m, jp, hlook, rfl, hv⟩, hr, hs₂⟩
      · rw [hlook]
        obtain rfl := Option.map_eq_none_iff.1 hr.symm
        exact hback hv hs₂
      · rw [hlook]
        obtain ⟨⟨_, o⟩, rfl, rfl⟩ := Option.map_eq_some_iff.1 hr.symm
        obtain ⟨i, hfind, rfl⟩ := Option.map_eq_some_iff.1 hlook
        obtain ⟨⟨hused, -⟩, hi, -⟩ := Node.find_eq_some.1 hfind
        refine .bind ((hc.iunlockput hs hn (hv.perm (.swap ..)) hs₂).mono ?_)
        rintro _ w _ g₃ ⟨hw, hs₃⟩
        rw [lastOf_cons _ hmore]
        exact ih hrest0 (by omega) (hn.entry hdir hi hused) hw hs₃

/-- The inode at which a path starts. -/
def startOf (s : State) (p : ℕ) (path : List UInt8) : Option ℕ :=
  if path.head? = some slash then some ROOTINO
  else (s.proc p).cwd.map fun ip => (s.fs.inode ip).inum

variable (sb) in
/-- A walk stops if the cache may be full, or if it can come to an inode
that is not allocated. -/
def Stuck (s : State) (e : Panic) : Prop :=
  (e = .igetNoInodes ∧ spare s < 2) ∨ (e = .ilockNoType ∧ Dangling sb s s.fs.data)

/-- **Both walk a path alike.** From a state in which no one else is at
work, `namex` above the blocks and `namex` on the files they show return
the same cache entry, the parent's with the same last name, and leave the
same references and locks, or they stop for the same reason. -/
theorem namex_simulates (hc : Calm sb s s.fs.data)
    (hp : ∀ ip, (s.proc p).cwd = some ip → 0 < (s.fs.inode ip).ref) (parent : Bool)
    {path : List UInt8} (name : ℕ → UInt8) (h0 : 0 ∉ path) (hn : startOf s p path = some n)
    (hs : Shows sb s.fs.data s g) :
    Simulates (namex sb p path parent name) s (Files.namex (s.proc p).cwd path parent) g
      (fun r t r' g' => Led g []
        (target parent (Fs.view sb s.fs.data) n (components path))
        (lastOf parent (components path)) r' g' ∧ SameEnd parent r r' ∧ Shows sb s.fs.data t g')
      (Stuck sb s) := by
  have hdangling : Dangling sb s s.fs.data → Stuck sb s .ilockNoType := fun hd => .inr ⟨rfl, hd⟩
  have hfull : spare s ≤ ([] : List (Fin NINODE × ℕ)).length + 1 → Stuck sb s .igetNoInodes :=
    fun hf => .inl ⟨rfl, Nat.lt_succ_of_le hf⟩
  have hstart : g.Walked [] none g := .refl fun ip => by rw [hs.inode]; exact hc.unlocked ip
  unfold startOf at hn
  unfold namex Files.namex start
  by_cases habs : path.head? = some slash
  · rw [if_pos habs] at hn
    cases hn
    rw [if_pos habs, if_pos habs]
    refine .bind (((iget_simulates hs ROOTINO).hoare (Files.iget_walked hstart fun hno =>
      hfull (Nat.le_succ_of_le (hs.spare_le hstart hno)))).mono ?_)
    rintro ip u _ g' ⟨hu, rfl, hs'⟩
    exact namexLoop_simulates hc hs parent h0 (Nat.lt_succ_self _) .root hu hs' hdangling hfull
  · rw [if_neg habs] at hn
    obtain ⟨ip, hcwd, rfl⟩ := Option.map_eq_some_iff.1 hn
    rw [if_neg habs, if_neg habs, hcwd]
    have href : 0 < (g.inode ip).ref := by
      rw [hs.inode]
      exact hp ip hcwd
    have hdup := (idup_simulates hs href).hoare (Files.idup_walked (E := Stuck sb s) hstart href)
    rw [hs.inode] at hdup
    refine Simulates.run_eq (Simulates.bind
      (f := fun _ => namexLoop sb parent (path.length + 1) ip path name) (hdup.mono ?_)) ?_ rfl
    · rintro _ u _ g' ⟨hu, hs'⟩
      exact namexLoop_simulates hc hs parent h0 (Nat.lt_succ_self _) (.held (hp ip hcwd)) hu hs'
        hdangling hfull
    · rw [Prog.bind_run, Prog.gets_bind, hcwd]
      rfl

/-! ## A small image -/

/-- A root directory is made on the small image, with `.` and `..` in it. -/
def rootRun : Option Fs.Sys :=
  System.follow (fun s a => s.panic = none ∧ Fs.Enabled Fs.smallSb s.fs a) (Fs.Sys.next Fs.smallSb)
    { fs := Fs.mount Fs.smallImage, panic := none }
    [.ialloc T_DIR, .ilock first, .update first 0 0 1,
      .dirlink first (fun i => if i < 1 then 46 else 0) ROOTINO,
      .dirlink first (fun i => if i < 2 then 46 else 0) ROOTINO]

def rootDisk : Disk := (rootRun.map (·.fs.logged)).getD fun _ _ => 0

theorem rootDisk_image : Fs.Image Fs.smallSb rootDisk := by
  obtain ⟨s, hs⟩ : ∃ s, rootRun = some s := Option.isSome_iff_exists.1 (by decide +kernel)
  have hr : (Fs.system Fs.smallSb).Reachable s :=
    System.Reachable.of_follow (.init ⟨_, Fs.smallImage_ok, rfl⟩) hs
  rw [rootDisk, hs]
  exact (Fs.consistent_of_reachable Fs.smallSb_ok hr).1.image Fs.smallSb_ok

/-- Booting leaves an image consistent. -/
theorem boot_consistent (h : Fs.Image sb d) : Fs.Consistent sb (boot d).fs := by
  refine h.consistent.withInode (fun _ hv => by cases hv) fun _ j hj hr => ?_
  exact absurd hr (Nat.lt_irrefl 0)

theorem boot_ref {ip : Fin NINODE} (h : 0 < ((boot d).fs.inode ip).ref) : ip = first := by
  by_contra hne
  have : ((boot d).fs.inode ip).ref = 0 := by
    simp only [boot, Function.update_of_ne hne]
    rfl
  omega

theorem rootDisk_leads (h : Leads Fs.smallSb (boot rootDisk) rootDisk n) : n = ROOTINO := by
  have hslots : ∀ i, i < (Fs.view Fs.smallSb rootDisk 1).nslots →
      ((Fs.view Fs.smallSb rootDisk 1).slot i).inum = 1 := by decide +kernel
  induction h with
  | root => rfl
  | held hr =>
    rw [boot_ref hr]
    rfl
  | entry _ _ hi _ ih =>
    subst ih
    exact hslots _ hi

theorem rootDisk_calm : Calm Fs.smallSb (boot rootDisk) rootDisk where
  unlocked _ := rfl
  inum n hn := by
    rw [rootDisk_leads hn]
    decide
  size n hn _ := by
    rw [rootDisk_leads hn]
    decide +kernel
  orphan n hn _ h0 := by
    rw [rootDisk_leads hn] at h0
    exact absurd h0 (by decide +kernel)

/-! ## The whole of it -/

/-- Nothing on disk has changed, and there is one reference more, to the
inode returned. -/
structure Resolved (s t : State) (r : Option (Fin NINODE)) : Prop where
  data : t.fs.data = s.fs.data
  ref : ∀ ip, (t.fs.inode ip).ref = (s.fs.inode ip).ref + if r = some ip then 1 else 0

/-- There is nothing at the end of a path if the names before one lead to
what is no directory, or to a directory without that name. -/
theorem resolve_eq_none_iff {tree : ℕ → Node} {names : List (List UInt8)} :
    resolve tree n names = none ↔ ∃ k nm m, names[k]? = some nm ∧
      resolve tree n (names.take k) = some m ∧
        ((tree m).type ≠ T_DIR ∨ (tree m).lookup nm = none) := by
  induction names generalizing n with
  | nil => simp
  | cons x xs ih =>
    have hstep : step tree n x = none ↔ (tree n).type ≠ T_DIR ∨ (tree n).lookup x = none := by
      unfold step
      split <;> simp_all
    rw [resolve_cons]
    cases hs : step tree n x with
    | none => exact ⟨fun _ => ⟨0, x, n, rfl, rfl, hstep.1 hs⟩, fun _ => rfl⟩
    | some m =>
      rw [Option.bind_some, ih]
      constructor
      · rintro ⟨k, nm, m', h1, h2, h3⟩
        exact ⟨k + 1, nm, m', h1, by rw [take_succ_cons, resolve_cons, hs]; exact h2, h3⟩
      · rintro ⟨k, nm, m', h1, h2, h3⟩
        cases k with
        | zero =>
          cases h1
          cases h2
          rw [hstep.2 h3] at hs
          cases hs
        | succ k =>
          rw [take_succ_cons, resolve_cons, hs] at h2
          exact ⟨k, nm, m', h1, h2, h3⟩

theorem Led.resolved {goal : Option ℕ} {last : Option (List UInt8)}
    {r : Option (Fin NINODE × (ℕ → UInt8))} (h : Led f [] goal last r g)
    (hs : Shows sb s.fs.data s f) (ht : Shows sb s.fs.data t g) :
    Resolved s t (r.map Prod.fst) ∧ r.map (fun x => (t.fs.inode x.1).inum) = goal := by
  have href : ∀ ip, (f.inode ip).ref = (s.fs.inode ip).ref ∧ (g.inode ip).ref = (t.fs.inode ip).ref :=
    fun ip => by rw [hs.inode, ht.inode]; exact ⟨rfl, rfl⟩
  unfold Led at h
  split at h
  · refine ⟨⟨ht.data, fun ip => ?_⟩, rfl⟩
    rw [← (href ip).1, ← (href ip).2]
    simpa using h.ref ip
  · rename_i m jp nm
    refine ⟨⟨ht.data, fun ip => ?_⟩, ?_⟩
    · rw [← (href ip).1, ← (href ip).2, h.1.ref]
      simp [count_singleton]
    · have := h.1.inum _ (mem_cons_self ..)
      rw [ht.inode] at this
      exact congrArg some this
  · exact h.elim

/-- **Path resolution is a fold over components.** From a state in which no
one else is at work, `namei` returns the inode that the components of the
path lead to, and `nameiparent` the directory that all but the last lead
to, with the last in the buffer, whatever the buffer held before. Slashes
beside slashes, at the end and at the beginning do not matter, and neither
does what is past `DIRSIZ` bytes of a component. -/
theorem path_resolution {path : List UInt8} (name : ℕ → UInt8) (hfs : Fs.Consistent sb s.fs)
    (hc : Calm sb s s.fs.data) (hp : ∀ ip, (s.proc p).cwd = some ip → 0 < (s.fs.inode ip).ref)
    (h0 : 0 ∉ path) (hn : startOf s p path = some n) :
    Hoare (· = s) (namei sb p path name) (fun r t => Resolved s t r ∧
      r.map (fun ip => (t.fs.inode ip).inum) =
        resolve (Fs.view sb s.fs.data) n (components path)) (Stuck sb s) ∧
    (resolve (Fs.view sb s.fs.data) n (components path) = none ↔
      ∃ k nm m, (components path)[k]? = some nm ∧
        resolve (Fs.view sb s.fs.data) n ((components path).take k) = some m ∧
          ((Fs.view sb s.fs.data m).type ≠ T_DIR ∨ (Fs.view sb s.fs.data m).lookup nm = none)) ∧
    Hoare (· = s) (nameiparent sb p path name) (fun r t => Resolved s t (r.map Prod.fst) ∧
      r.map (fun x => ((t.fs.inode x.1).inum, nameOf x.2)) =
        (parentOf (Fs.view sb s.fs.data) n (components path)).bind fun m =>
          (components path).getLast?.map fun last => (m, last)) (Stuck sb s) ∧
    (∀ a b, components (a ++ slash :: slash :: b) = components (a ++ slash :: b) ∧
      components (a ++ [slash]) = components a ∧ components (slash :: a) = components a) ∧
    ∀ a b x y, slash ∉ x → slash ∉ y → x.take DIRSIZ = y.take DIRSIZ →
      components (a ++ slash :: (x ++ slash :: b)) = components (a ++ slash :: (y ++ slash :: b)) := by
  obtain ⟨f, hs⟩ := exists_shows hfs
  have hwalk : ∀ parent, Hoare (· = s) (namex sb p path parent name) (fun r t => ∃ r' g,
      Led f [] (target parent (Fs.view sb s.fs.data) n (components path))
        (lastOf parent (components path)) r' g ∧ SameEnd parent r r' ∧ Shows sb s.fs.data t g)
      (Stuck sb s) := fun parent => (namex_simulates hc hp parent name h0 hn hs).left
  refine ⟨?_, resolve_eq_none_iff, ?_, fun a b => ⟨?_, ?_, components_slash a⟩, ?_⟩
  · refine (hwalk false).bind fun r => .pure fun t ht => ?_
    obtain ⟨r', g, hled, hsame, ht⟩ := ht
    obtain ⟨h1, h2⟩ := hled.resolved hs ht
    rw [← hsame.1]
    refine ⟨h1, ?_⟩
    rw [Option.map_map]
    exact h2
  · refine (hwalk true).conseq (fun _ => id) fun r t ht => ?_
    obtain ⟨r', g, hled, hsame, ht⟩ := ht
    obtain ⟨h1, h2⟩ := hled.resolved hs ht
    rw [← hsame.1]
    refine ⟨h1, ?_⟩
    have hnames : r.map (fun x => ((t.fs.inode x.1).inum, nameOf x.2)) =
        r'.map (fun x => ((t.fs.inode x.1).inum, nameOf x.2)) := by
      have hfst := hsame.1
      have hsnd := hsame.2 rfl
      cases r <;> cases r' <;> simp_all
    have hgoal : target true (Fs.view sb s.fs.data) n (components path) =
        parentOf (Fs.view sb s.fs.data) n (components path) := rfl
    rw [hgoal] at hled h2
    rw [hnames, ← h2]
    cases r' with
    | none => rfl
    | some x =>
      obtain ⟨jp, nm⟩ := x
      -- where the walk has come to something, there is a last component
      have hne : components path ≠ [] := by
        intro hnil
        rw [hnil] at h2
        cases h2
      obtain ⟨m, hm⟩ : ∃ m, parentOf (Fs.view sb s.fs.data) n (components path) = some m :=
        ⟨_, h2.symm⟩
      rw [hm] at hled
      have hlast : nameOf nm = (components path).getLast hne :=
        hled.2 _ (getLast?_eq_some_getLast hne)
      rw [getLast?_eq_some_getLast hne, ← hlast]
      rfl
  · rw [components_append_slash, components_slash, components_append_slash]
  · rw [components_append_slash, components_nil, append_nil]
  · intro a b x y hx hy hxy
    have hself : ∀ z : List UInt8, slash ∉ z → components z =
        if z.take DIRSIZ = [] then [] else [z.take DIRSIZ] := by
      intro z hz
      have hin : ∀ c ∈ z, (c == slash) = false := fun c hc => by
        have : c ≠ slash := fun he => hz (he ▸ hc)
        simpa using this
      unfold components List.splitOn
      rw [splitOnP_eq_singleton hin]
      cases z with
      | nil => rfl
      | cons c z => simp [DIRSIZ]
    rw [components_append_slash, components_append_slash, components_append_slash,
      components_append_slash, hself x hx, hself y hy, hxy]

/-- The path `/./..` of the small image leads back to the root, for any
contents of the buffer. -/
theorem path_resolution_dots : (components [47, 46, 47, 46, 46] = [[46], [46, 46]] ∧
    resolve (Fs.view Fs.smallSb rootDisk) ROOTINO (components [47, 46, 47, 46, 46]) = some ROOTINO) ∧
    ∀ name, Hoare (· = boot rootDisk) (namei Fs.smallSb 0 [47, 46, 47, 46, 46] name)
      (fun r t => Resolved (boot rootDisk) t r ∧ r.map (fun ip => (t.fs.inode ip).inum) =
        resolve (Fs.view Fs.smallSb rootDisk) ROOTINO (components [47, 46, 47, 46, 46]))
      (Stuck Fs.smallSb (boot rootDisk)) := by
  refine ⟨by decide +kernel, fun name => ?_⟩
  exact (path_resolution name (boot_consistent rootDisk_image) rootDisk_calm
    (fun ip hip => by cases hip; decide) (by decide) rfl).1

end Sysfile

end Xv6
