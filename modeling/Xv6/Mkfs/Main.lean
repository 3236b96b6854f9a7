import Xv6.Fs.System
import Xv6.Mkfs.Image
/-!
# What is in the image

`main` creates the root directory, then the files one after another, and
writes the free map. `Built` says what the image holds when it is done.
The one thing that does not follow the rest is the size of the root
directory: it is rounded up to the next multiple of `BSIZE` above it, also
where it is one already.
-/

namespace Xv6

open Common Function List

namespace Mkfs

variable {s t u : State} {A A' : ℕ → ℕ → ℕ}
  {f : Input} {files rest : List Input} {b j n : ℕ} {E : Fault → Prop}

/-! ## The contents -/

/-- The entries of the root directory. -/
def entries (files : List Input) : List Dirent :=
  dirent ROOTINO dot :: dirent ROOTINO dotdot ::
    files.mapIdx fun i f => dirent (i + 2) f.shortname

def rootBytes (files : List Input) : List UInt8 := (entries files).flatMap Dirent.toBytes

/-- The contents of inode `j`. -/
def contents (files : List Input) (j : ℕ) : List UInt8 :=
  if j = ROOTINO then rootBytes files
  else if j < 2 then [] else ((files[j - 2]?).map Input.content).getD []

/-- The type of inode `j`. -/
def types (files : List Input) (j : ℕ) : ℕ :=
  if j = ROOTINO then T_DIR else if 2 ≤ j ∧ j < files.length + 2 then T_FILE else 0

/-- How many data blocks it takes. -/
def blocks (files : List Input) : ℕ :=
  nblk (rootBytes files).length + (files.map fun f => nblk f.content.length).sum

/-- **The files fit** and can be read. -/
structure Fits (files : List Input) : Prop where
  base : ∀ f ∈ files, 0x2f ∉ f.base
  opens : ∀ f ∈ files, f.opens = true
  length_le : ∀ f ∈ files, f.content.length ≤ MAXFILE * BSIZE
  blocks_le : nmeta + blocks files ≤ FSSIZE

theorem length_toBytes (de : Dirent) : de.toBytes.length = 16 := by
  simp [Dirent.toBytes]

theorem entries_append : entries (files ++ [f]) =
    entries files ++ [dirent (files.length + 2) f.shortname] := by
  simp [entries, mapIdx_append]

theorem rootBytes_append : rootBytes (files ++ [f]) =
    rootBytes files ++ (dirent (files.length + 2) f.shortname).toBytes := by
  simp [rootBytes, entries_append]

theorem length_rootBytes (files : List Input) :
    (rootBytes files).length = 16 * (files.length + 2) := by
  have hsum : ∀ l : List Dirent, (l.flatMap Dirent.toBytes).length = 16 * l.length := by
    intro l
    induction l with
    | nil => rfl
    | cons de l ih =>
      rw [flatMap_cons, length_append, length_toBytes, ih, length_cons]
      omega
  rw [rootBytes, hsum]
  simp [entries]

theorem types_append : types (files ++ [f]) =
    update (types files) (files.length + 2) T_FILE := by
  funext j
  unfold types
  by_cases hj : j = files.length + 2
  · rw [hj, update_self, if_neg (by simp only [ROOTINO]; omega), if_pos]
    simp
  · rw [update_of_ne hj]
    simp only [length_append, length_singleton]
    congr 2
    rw [eq_iff_iff]
    omega

theorem contents_append : contents (files ++ [f]) =
    update (update (contents files) ROOTINO (rootBytes (files ++ [f])))
      (files.length + 2) f.content := by
  funext j
  unfold contents
  by_cases hj : j = files.length + 2
  · rw [hj, update_self, if_neg (by simp only [ROOTINO]; omega), if_neg (by omega)]
    simp
  rw [update_of_ne hj]
  by_cases hr : j = ROOTINO
  · rw [hr, if_pos rfl, update_self]
  rw [update_of_ne hr, if_neg hr, if_neg hr]
  by_cases h2 : j < 2
  · rw [if_pos h2, if_pos h2]
  rw [if_neg h2, if_neg h2]
  congr 2
  rw [getElem?_append]
  split
  · rfl
  · rw [getElem?_eq_none (by simp; omega), getElem?_eq_none (by omega)]

theorem blocks_append (files : List Input) (f : Input) :
    blocks (files ++ [f]) + nblk (rootBytes files).length =
      blocks files + nblk (rootBytes (files ++ [f])).length + nblk f.content.length := by
  simp only [blocks, map_append, sum_append, map_cons, map_nil, sum_cons,
    sum_nil]
  omega

theorem blocks_le_append (files rest : List Input) : blocks files ≤ blocks (files ++ rest) := by
  have : nblk (rootBytes files).length ≤ nblk (rootBytes (files ++ rest)).length := by
    refine nblk_mono ?_
    rw [length_rootBytes, length_rootBytes, length_append]
    omega
  simp only [blocks, map_append, sum_append]
  omega

theorem Fits.of_append (h : Fits (files ++ rest)) : Fits files := by
  refine ⟨fun f hf => h.base f (mem_append_left _ hf),
    fun f hf => h.opens f (mem_append_left _ hf),
    fun f hf => h.length_le f (mem_append_left _ hf), ?_⟩
  have := h.blocks_le
  have := blocks_le_append files rest
  omega

/-! ## The loop over the files -/

/-- The image with the files in it. -/
structure Holding (s : State) (files : List Input) : Prop where
  layout : ∃ A, Layout s A (contents files) (types files)
  freeinode : s.freeinode = files.length + 2
  freeblock : s.freeblock = nmeta + blocks files

theorem types_lt : types files j < 2 ^ 16 := by
  unfold types
  split
  · decide
  · split <;> decide

theorem addFile_holding (h : Holding s files) (hlen : files.length + 2 < NDINODE)
    (hE : ¬ Fits (files ++ [f]) → ∀ e, E e) :
    Hoare (· = s) (addFile ROOTINO f) (fun _ t => Holding t (files ++ [f])) E := by
  obtain ⟨A, hl⟩ := h.layout
  have hfree := h.freeinode
  have hblocks := h.freeblock
  have hmem : f ∈ files ++ [f] := mem_append_right _ (mem_singleton_self f)
  have happend := blocks_append files f
  have hroot : (rootBytes (files ++ [f])).length = (rootBytes files).length + 16 := by
    rw [rootBytes_append, length_append, length_toBytes]
  rw [hroot] at happend
  unfold addFile
  refine .ite (fun hslash => .stop fun _ _ => hE (fun hf => hf.base f hmem hslash) _)
    fun _ => .ite (fun hopen => .stop fun _ _ => hE (fun hf => hopen (hf.opens f hmem)) _)
    fun _ => ?_
  refine (ialloc_layout hl (by omega) (by decide) (by decide)).bind fun n => .pointwise ?_
  rintro t ⟨rfl, ht, htfree, htblocks⟩
  rw [hfree, ← types_append] at ht
  -- the entry in the root directory
  have hcontents : contents files ROOTINO = rootBytes files := if_pos rfl
  have hrootlen := length_rootBytes files
  refine .bind (iappend_extends ht (by simp only [ROOTINO]; omega) (by decide) types_lt
    fun hr => hE fun hf => hr ?_) fun _ => .pointwise fun u hu => ?_
  · rw [hcontents, length_toBytes]
    have := hf.blocks_le
    refine ⟨?_, by omega⟩
    rw [hrootlen]
    simp only [NDINODE, ninodeblocks, NINODES, IPB, BSIZE, MAXFILE, NDIRECT, NINDIRECT] at *
    omega
  · -- the file itself
    obtain ⟨A', hlu⟩ := hu.layout
    rw [hcontents, hfree, ← rootBytes_append] at hlu
    have hucount := hu.count
    rw [hcontents, length_toBytes] at hucount
    have hempty : update (contents files) ROOTINO (rootBytes (files ++ [f]))
        (files.length + 2) = [] := by
      rw [update_of_ne (by simp only [ROOTINO]; omega), contents,
        if_neg (by simp only [ROOTINO]; omega), if_neg (by omega)]
      simp
    have hnil : nblk 0 = 0 := rfl
    rw [hfree]
    refine (reads_extends hlu (by rw [hu.freeinode, htfree, hfree]; omega) hlen types_lt
      fun hr => hE fun hf => hr ?_).conseq (fun _ => id) fun _ v hv => ?_
    · rw [hempty, length_nil]
      have h1 := hf.length_le f hmem
      have h2 := hf.blocks_le
      unfold Input.content at h1 happend
      exact ⟨by omega, by rw [Nat.zero_add]; omega⟩
    · obtain ⟨A'', hlv⟩ := hv.layout
      have hvcount := hv.count
      rw [hempty, length_nil, Nat.zero_add, hnil] at hvcount
      rw [hempty, nil_append] at hlv
      unfold Input.content at happend
      refine ⟨⟨A'', ?_⟩, ?_, by omega⟩
      · rw [contents_append]
        exact hlv
      · rw [hv.freeinode, hu.freeinode, htfree, hfree, length_append, length_singleton]

/-- **The loop over the arguments.** -/
theorem files_holding (h : Holding s files) (hlen : files.length + rest.length + 2 ≤ NDINODE)
    (hE : ¬ Fits (files ++ rest) → ∀ e, E e) :
    Hoare (· = s) (rest.forM (addFile ROOTINO)) (fun _ t => Holding t (files ++ rest)) E := by
  induction rest generalizing s files with
  | nil =>
    refine .pure ?_
    rintro _ rfl
    rwa [append_nil]
  | cons f rest ih =>
    rw [length_cons] at hlen
    have hassoc : files ++ f :: rest = files ++ [f] ++ rest := by simp
    rw [hassoc] at hE ⊢
    simp only [forM_eq_forM, forM_cons] at *
    refine .bind (addFile_holding h (by omega) fun hf => hE fun hall => hf hall.of_append)
      fun _ => .pointwise fun t ht => ?_
    exact ih ht (by rw [length_append, length_singleton]; omega) hE

/-! ## Before the loop -/

/-- The image once the superblock is written. -/
def blank : State where
  img := update (fun _ _ => 0) 1 sbBlock
  sectors := FSSIZE
  freeinode := 1
  freeblock := nmeta

theorem blank_img (hb : b ≠ 1) : blank.img b = fun _ => 0 := by
  simp only [blank, update_of_ne hb]

theorem blank_layout : Layout blank (fun _ _ => 0) (fun _ => []) (fun _ => 0) := by
  have hrefs : ∀ x, refs blank.img (fun _ _ => 0) x = 0 := by
    intro x
    rw [refs, Fs.slot_of_empty fun _ _ => rfl, ite_self]
  refine ⟨⟨⟨by decide, fun x y hx => absurd (hrefs x) hx, fun x hx => absurd (hrefs x) hx,
    fun b _ => ?_⟩, Nat.le_of_lt nmeta_lt, fun b hb => ?_, rfl, fun j => ⟨Nat.zero_le _,
    fun k _ => ?_, ?_, fun p hp => absurd hp (Nat.not_lt_zero _)⟩⟩, fun j hj => ?_, ?_,
    fun j _ => ?_⟩
  · constructor
    · exact .inl
    · rintro (hlt | ⟨x, hx⟩)
      · exact hlt
      · rw [← hx, hrefs]
        decide
  · have hb : nmeta ≤ b := hb
    have : 1 < nmeta := by decide
    exact blank_img (by omega)
  · rw [hrefs]
    simp
  · rw [hrefs]
    simp
  · have := iblock_lt hj
    rw [Fs.dinode, blank_img (by omega)]
    exact ⟨Bytes.readLE_zero .., Bytes.readLE_zero .., Bytes.readLE_zero .., Bytes.readLE_zero ..,
      Bytes.readLE_zero .., fun i _ => Bytes.readLE_zero ..⟩
  · simp only [blank, update_self]
  · exact ⟨rfl, rfl, fun _ _ => rfl⟩

/-- The loop that clears the image. -/
theorem zero_loop : Hoare (· = { State.init with freeblock := nmeta })
    ((List.range FSSIZE).forM fun i => wsect i fun _ => 0)
    (fun _ t => t = { State.init with freeblock := nmeta, sectors := FSSIZE }) E := by
  have hloop := Hoare.forM_range (E := E) (n := FSSIZE) (f := fun i => wsect i fun _ => 0)
    (I := fun k s => s = { State.init with freeblock := nmeta, sectors := k }) ?_
  · exact hloop
  · intro k hk
    refine .modify ?_
    rintro _ rfl
    rw [sector_of_le (Nat.le_of_lt hk)]
    have himg : update (State.init.img) k (fun _ => 0) = State.init.img :=
      update_eq_self k State.init.img
    have hmax : max k (k + 1) = k + 1 := by omega
    simp only [himg, hmax]

/-- The root directory, with nothing in it but itself. -/
theorem root_holding (h : Layout s A (fun _ => []) (update (fun _ => 0) ROOTINO T_DIR))
    (hfree : s.freeinode = 2) (hblocks : s.freeblock = nmeta) :
    Hoare (· = s)
      (do iappend ROOTINO (dirent ROOTINO dot).toBytes
          iappend ROOTINO (dirent ROOTINO dotdot).toBytes) (fun _ t => Holding t []) E := by
  have hT : update (fun _ => 0) ROOTINO T_DIR = types [] := by
    funext j
    unfold types
    by_cases hj : j = ROOTINO
    · rw [hj, update_self, if_pos rfl]
    · rw [update_of_ne hj, if_neg hj, if_neg (by simp only [length_nil]; omega)]
  have hC : update (fun _ => []) ROOTINO (rootBytes []) = contents [] := by
    funext j
    unfold contents
    by_cases hj : j = ROOTINO
    · rw [hj, update_self, if_pos rfl]
    · rw [update_of_ne hj, if_neg hj]
      simp
  have hdot : ¬ Room s 0 (dirent ROOTINO dot).toBytes.length → ∀ e, E e := by
    intro hr
    refine absurd ⟨?_, ?_⟩ hr
    · rw [length_toBytes]
      decide
    · rw [length_toBytes, hblocks]
      decide
  rw [hT] at h
  refine .bind (iappend_extends h (by rw [hfree]; decide) (by decide) types_lt hdot) fun _ =>
    Hoare.pointwise fun t ht => ?_
  obtain ⟨A', hlt⟩ := ht.layout
  have hcount := ht.count
  rw [length_nil, length_toBytes, hblocks, Nat.zero_add] at hcount
  have hlen : (update (fun _ => []) ROOTINO ([] ++ (dirent ROOTINO dot).toBytes)
      ROOTINO).length = 16 := by
    rw [update_self, nil_append, length_toBytes]
  have hnblk : nblk 0 = 0 ∧ nblk 16 = 1 ∧ nblk 32 = 1 := by decide
  have hdotdot : ¬ Room t (update (fun _ => []) ROOTINO
      ([] ++ (dirent ROOTINO dot).toBytes) ROOTINO).length (dirent ROOTINO dotdot).toBytes.length →
      ∀ e, E e := by
    intro hr
    rw [hlen, length_toBytes] at hr
    have hmeta : nmeta + 1 ≤ FSSIZE := nmeta_lt
    refine absurd ⟨by decide, ?_⟩ hr
    rw [show 16 + 16 = 32 from rfl]
    omega
  refine (iappend_extends hlt (by rw [ht.freeinode, hfree]; decide) (by decide) types_lt
    hdotdot).conseq (fun _ => id) fun _ u hu => ?_
  have hall := ht.trans hu
  obtain ⟨A'', hlu⟩ := hall.layout
  have hcount' := hall.count
  have hroot : ([] : List UInt8) ++ ((dirent ROOTINO dot).toBytes ++
      (dirent ROOTINO dotdot).toBytes) = rootBytes [] := by
    simp [rootBytes, entries]
  rw [hroot, hC] at hlu
  rw [length_nil, length_append, length_toBytes, length_toBytes, hblocks] at hcount'
  refine ⟨⟨A'', hlu⟩, hall.freeinode.trans hfree, ?_⟩
  rw [blocks, length_rootBytes]
  simp only [length_nil, map_nil, sum_nil, Nat.zero_add, Nat.add_zero] at *
  rw [show 16 * 2 = 32 from rfl]
  rw [show 16 + 16 = 32 from rfl] at hcount'
  omega

/-! ## `main` -/

/-- The size of inode `j`, as it ends up. -/
def sizes (files : List Input) (j : ℕ) : ℕ :=
  if j = ROOTINO then ((rootBytes files).length / BSIZE + 1) * BSIZE
  else (contents files j).length

/-- **The image of the files**, the addresses of its inodes being `A`. -/
structure Built (files : List Input) (A : ℕ → ℕ → ℕ) (t : State) : Prop
    extends Books t A (contents files) where
  super : t.img 1 = sbBlock
  inode : ∀ j, j < NDINODE →
    (Fs.dinode sb t.img j).Same (dinodeOf (types files j) (sizes files j) (A j))
  map : ∀ b, b < BPB → (Fs.marked sb t.img b = true ↔ b < t.freeblock)

/-- The free map `balloc` writes. -/
theorem testBit_foldl (hn : n ≤ 8 * BSIZE) (j : ℕ) :
    ((List.range n).foldl Bytes.setBit (fun _ => 0 : Block)).testBit j = true ↔ j < n := by
  induction n with
  | zero =>
    have hzero : ¬ (Bytes.testBit (fun _ => 0 : Block) j = true) := by
      rw [Bytes.testBit_iff]
      simp [Bytes.get]
    simpa using hzero
  | succ n ih =>
    rw [range_succ, foldl_append]
    simp only [foldl_cons, foldl_nil]
    rw [Bytes.testBit_setBit (by omega), ih (by omega)]
    omega

/-- The root directory's inode stored once more, and the free map
written. -/
theorem Layout.built {D : Dinode} (h : Layout s A (contents files) (types files))
    (hlen : files.length + 1 < NDINODE)
    (hD : D.Same (dinodeOf (types files ROOTINO) (sizes files ROOTINO) (A ROOTINO)))
    (hblock : t.freeblock = s.freeblock) (hsec : t.sectors = s.sectors)
    (himg : ∀ b, b ≠ sb.bmapstart → t.img b = (storeInode s ROOTINO D).img b)
    (hmap : t.img sb.bmapstart = (List.range s.freeblock).foldl Bytes.setBit fun _ => 0) :
    Built files A t := by
  have hroot : ROOTINO < NDINODE := by decide
  have hiroot := iblock_lt hroot
  have hbm : sb.bmapstart = nmeta - 1 := rfl
  have hbooks : Books (storeInode s ROOTINO D) A (contents files) := h.toBooks.store hroot
  refine ⟨hbooks.low hblock hsec fun b hb => himg b (by omega), ?_, fun j hj => ?_, fun b hb => ?_⟩
  · rw [himg 1 (by decide), storeInode_img (by omega), h.super]
  · have := iblock_lt hj
    have hdin : Fs.dinode sb t.img j = Fs.dinode sb (storeInode s ROOTINO D).img j := by
      rw [Fs.dinode, Fs.dinode, himg _ (by omega)]
    rw [hdin]
    by_cases hjr : j = ROOTINO
    · subst hjr
      have hsize : sizes files ROOTINO < 2 ^ 32 := by
        rw [sizes, if_pos rfl, length_rootBytes]
        simp only [NDINODE, ninodeblocks, NINODES, IPB, BSIZE] at *
        omega
      exact (dinode_storeInode (hD.fits (dinodeOf_fits types_lt hsize fun i hi =>
        h.addrs_lt hi))).trans hD
    · rw [show sizes files j = (contents files j).length by rw [sizes, if_neg hjr]]
      exact (dinode_storeInode_of_ne hjr).trans (h.inode j hj)
  · have hbb : sb.bblock b = sb.bmapstart := by
      rw [Superblock.bblock, Nat.div_eq_of_lt hb, Nat.zero_add]
    rw [Fs.marked, hbb, hmap, Nat.mod_eq_of_lt hb, hblock]
    refine testBit_foldl ?_ b
    have := h.le
    simp only [BSIZE, FSSIZE] at *
    omega

/-- The end of `main`: the size of the root directory, and the free map. -/
theorem finish_built (h : Holding s files) (hlen : files.length + 1 < NDINODE) :
    Hoare (· = s)
      (do let din ← rinode ROOTINO
          winode ROOTINO { din with size := (din.size / BSIZE + 1) * BSIZE }
          let used ← Prog.gets State.freeblock
          balloc used) (fun _ t => ∃ A, Built files A t) E := by
  obtain ⟨A, hl⟩ := h.layout
  have hroot : ROOTINO < NDINODE := by decide
  have hino := hl.inode ROOTINO hroot
  have hcontents : contents files ROOTINO = rootBytes files := if_pos rfl
  have hsize : (Fs.dinode sb s.img ROOTINO).size = (rootBytes files).length := by
    rw [hino.size, ← hcontents]
    rfl
  generalize hD : ({ Fs.dinode sb s.img ROOTINO with
    size := ((rootBytes files).length / BSIZE + 1) * BSIZE } : Dinode) = D
  have hsz : sizes files ROOTINO = ((rootBytes files).length / BSIZE + 1) * BSIZE := by
    rw [sizes, if_pos rfl]
  have hDsame : D.Same (dinodeOf (types files ROOTINO) (sizes files ROOTINO) (A ROOTINO)) := by
    rw [hsz, ← hD]
    exact dinodeOf_resize hino _
  have hused : ¬ BSIZE * 8 ≤ (storeInode s ROOTINO D).freeblock := by
    have : s.freeblock ≤ FSSIZE := hl.le
    simp only [BSIZE, FSSIZE, storeInode] at *
    omega
  have hsec : (storeInode s ROOTINO D).sectors = FSSIZE := hl.sectors
  have hrun : (do
      let din ← rinode ROOTINO
      winode ROOTINO { din with size := (din.size / BSIZE + 1) * BSIZE }
      let used ← Prog.gets State.freeblock
      balloc used : Run Unit) s = .ok ((), { storeInode s ROOTINO D with
        img := update (storeInode s ROOTINO D).img sb.bmapstart
          ((List.range s.freeblock).foldl Bytes.setBit fun _ => 0) }) := by
    rw [Prog.bind_run, rinode_run hl.sectors hroot]
    dsimp only [Except.bind]
    rw [hsize, hD, Prog.bind_run, winode_run hl.sectors hroot]
    dsimp only [Except.bind]
    rw [Prog.gets_bind, balloc, if_neg hused, wsect_run hsec (by decide)]
    rfl
  exact Returns.hoare ⟨_, _, hrun, A, hl.built hlen hDsame rfl rfl
    (fun b hb => update_of_ne hb ..) (by simp only [update_self])⟩ E

/-- **`main` builds the image of its files**, and ends early only if they
do not fit. -/
theorem main_built (hlen : files.length + 1 < NDINODE) (hE : ¬ Fits files → ∀ e, E e) :
    Hoare (· = State.init) (main files) (fun _ t => ∃ A, Built files A t) E := by
  unfold main
  refine .bind (R := fun _ s => s = { State.init with freeblock := nmeta }) ?_ fun _ => ?_
  · refine .modify ?_
    rintro _ rfl
    rfl
  refine zero_loop.bind fun _ => ?_
  refine .bind (R := fun _ s => s = blank) ?_ fun _ => ?_
  · refine .modify ?_
    rintro _ rfl
    rw [sector_of_le (by decide)]
    rfl
  refine (ialloc_layout blank_layout (by decide) (by decide) (by decide)).bind fun rootino =>
    Hoare.pointwise ?_
  rintro t ⟨rfl, ht, hfree, hblocks⟩
  refine .ite (fun hne => absurd rfl hne) fun _ => ?_
  have hprog := (root_holding (E := E) ht hfree hblocks).bind fun _ =>
    Hoare.pointwise fun u hu => (files_holding hu (by simp only [length_nil]; omega) hE).bind
      fun _ => .pointwise fun v hv => finish_built hv hlen
  have hino : blank.freeinode = ROOTINO := rfl
  simpa only [bind_assoc, hino, nil_append] using hprog

end Mkfs

end Xv6
