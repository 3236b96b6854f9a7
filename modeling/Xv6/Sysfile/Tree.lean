import Mathlib.Data.List.TakeWhile
import Xv6.Fs.Dir
import Xv6.Sysfile.Model
/-!
# The tree of names

What the path walk is for: an abstract file system is a map from inode
numbers to nodes, a directory is a list of slots, and a path names what
a fold of lookups over its components comes to. The disk shows such a
tree (`view`), and `skipelem` and `dirlookup` take a path and a directory
apart as the tree does. A name is a list of at most `DIRSIZ` bytes, with
no NUL.
-/

namespace Xv6

open Common List

namespace Sysfile

open Files (skipelem)

/-! ## Components -/

/-- **The components of a path**: what is between slashes and is not empty,
cut to `DIRSIZ` bytes. -/
def components (path : List UInt8) : List (List UInt8) :=
  ((path.splitOn slash).filter (· ≠ [])).map (·.take DIRSIZ)

@[simp] theorem components_nil : components [] = [] := by
  simp [components]

/-- A slash separates. -/
theorem components_append_slash (a b : List UInt8) :
    components (a ++ slash :: b) = components a ++ components b := by
  unfold components List.splitOn
  rw [splitOnP_append_cons a b (by simp), filter_append, map_append]

@[simp] theorem components_slash (b : List UInt8) : components (slash :: b) = components b := by
  have := components_append_slash [] b
  rwa [components_nil, nil_append] at this

theorem components_dropWhile (path : List UInt8) :
    components (path.dropWhile (· = slash)) = components path := by
  induction path with
  | nil => rfl
  | cons x xs ih =>
    rw [dropWhile_cons]
    split
    · rename_i h
      rw [ih, of_decide_eq_true h, components_slash]
    · rfl

/-- What comes first is a component. -/
theorem components_cons {x : UInt8} {xs : List UInt8} (hx : x ≠ slash) :
    components (x :: xs) = ((x :: xs).takeWhile (· ≠ slash)).take DIRSIZ ::
      components ((x :: xs).dropWhile (· ≠ slash)) := by
  obtain ⟨elem, helem⟩ : ∃ l, (x :: xs).takeWhile (· ≠ slash) = l := ⟨_, rfl⟩
  obtain ⟨rest, hrest⟩ : ∃ l, (x :: xs).dropWhile (· ≠ slash) = l := ⟨_, rfl⟩
  have hpath : x :: xs = elem ++ rest := by
    rw [← helem, ← hrest, takeWhile_append_dropWhile]
  have hne : elem ≠ [] := by
    rw [← helem, takeWhile_cons, if_pos (by simpa using hx)]
    exact cons_ne_nil _ _
  have hin : ∀ y ∈ elem, (y == slash) = false := by
    intro y hy
    rw [← helem] at hy
    simpa using mem_takeWhile_imp hy
  have hself : components elem = [elem.take DIRSIZ] := by
    unfold components List.splitOn
    rw [splitOnP_eq_singleton hin]
    simp [hne]
  rw [helem, hrest, hpath]
  cases rest with
  | nil => rw [append_nil, hself, components_nil]
  | cons y ys =>
    have hy : y = slash := by
      have := head?_dropWhile_not (· ≠ slash) (x :: xs)
      rw [hrest] at this
      simpa using this
    rw [hy, components_append_slash, hself, components_slash]
    rfl

theorem components_ne_nil {x : UInt8} {xs : List UInt8} (hx : x ≠ slash) :
    components (x :: xs) ≠ [] := by
  rw [components_cons hx]
  exact cons_ne_nil _ _

/-! ## `skipelem` -/

/-- The buffer after a name is copied into it. -/
theorem nameOf_copied {elem : List UInt8} (h : 0 ∉ elem) (name : ℕ → UInt8) :
    nameOf (if DIRSIZ ≤ elem.length then fun i => if i < DIRSIZ then elem.getD i 0 else name i
      else fun i => if i < elem.length then elem.getD i 0 else if i = elem.length then 0 else name i)
      = elem.take DIRSIZ := by
  refine nameOf_eq (fun i hi => ?_) (fun hlt => ?_) h
  · rw [length_take] at hi
    rw [Nat.zero_add, getElem_take]
    split <;> beta_reduce <;> rw [if_pos (by omega), getD_eq_getElem]
  · rw [if_neg (by omega), if_neg (Nat.lt_irrefl _), if_pos rfl]

/-- **`skipelem` takes the first component off a path**, whatever the
buffer held. What is left does not start with a slash. -/
theorem skipelem_spec {path : List UInt8} (h : 0 ∉ path) (name : ℕ → UInt8) :
    match skipelem path name with
    | none => components path = []
    | some (rest, name') => components path = nameOf name' :: components rest ∧ 0 ∉ rest ∧
        (rest = [] ↔ components rest = []) := by
  have hsub : ∀ y ∈ path.dropWhile (· = slash), y ∈ path := fun y hy =>
    (dropWhile_sublist _).mem hy
  unfold skipelem
  rw [← components_dropWhile path]
  have hhead := head?_dropWhile_not (· = slash) path
  generalize path.dropWhile (· = slash) = s at hsub hhead
  cases s with
  | nil => simp
  | cons x xs =>
    have hx : x ≠ slash := by simpa using hhead
    dsimp only [isEmpty_cons, Bool.false_eq_true, if_false]
    rw [if_neg (by decide)]
    dsimp only
    have helem : 0 ∉ (x :: xs).takeWhile (· ≠ slash) := fun h0 =>
      h (hsub 0 ((takeWhile_sublist _).mem h0))
    have hrest : ∀ y ∈ ((x :: xs).dropWhile (· ≠ slash)).dropWhile (· = slash), y ∈ x :: xs :=
      fun y hy => (dropWhile_sublist _).mem ((dropWhile_sublist _).mem hy)
    refine ⟨?_, fun h0 => h (hsub 0 (hrest 0 h0)), ?_⟩
    · rw [components_cons hx, nameOf_copied helem, components_dropWhile]
    · have hhead' := head?_dropWhile_not (· = slash) ((x :: xs).dropWhile (· ≠ slash))
      generalize ((x :: xs).dropWhile (· ≠ slash)).dropWhile (· = slash) = r at hhead'
      cases r with
      | nil => simp
      | cons y ys =>
        have hy : y ≠ slash := by simpa using hhead'
        simp [components_ne_nil hy]

end Sysfile

/-! ## Directories as lists of slots -/

namespace Node

/-- Slot `i` of a directory. -/
def slot (nd : Node) (i : ℕ) : Dirent := .ofBytes ((nd.data.drop (16 * i)).take 16)

/-- The number of slots. -/
def nslots (nd : Node) : ℕ := nd.data.length / 16

/-- The first slot in use with the name. -/
def find (nd : Node) (nm : List UInt8) : Option ℕ :=
  (List.range nd.nslots).find? fun i => (nd.slot i).inum ≠ 0 ∧ nameOf (nd.slot i).name = nm

/-- The inode that the name stands for in the directory. -/
def lookup (nd : Node) (nm : List UInt8) : Option ℕ := (nd.find nm).map fun i => (nd.slot i).inum

variable {nd : Node} {nm : List UInt8} {i : ℕ}

theorem find_eq_some : nd.find nm = some i ↔
    ((nd.slot i).inum ≠ 0 ∧ nameOf (nd.slot i).name = nm) ∧ i < nd.nslots ∧
      ∀ j, j < i → ¬ ((nd.slot j).inum ≠ 0 ∧ nameOf (nd.slot j).name = nm) := by
  unfold find
  rw [find?_range_eq_some, mem_range, decide_eq_true_iff]
  simp only [Bool.not_eq_true', decide_eq_false_iff_not]

theorem find_eq_none : nd.find nm = none ↔
    ∀ j, j < nd.nslots → ¬ ((nd.slot j).inum ≠ 0 ∧ nameOf (nd.slot j).name = nm) := by
  unfold find
  rw [find?_range_eq_none]
  simp only [Bool.not_eq_true', decide_eq_false_iff_not]

end Node

namespace Sysfile

/-- One step of a path: the inode that a name stands for in a directory. -/
def step (tree : ℕ → Node) (n : ℕ) (nm : List UInt8) : Option ℕ :=
  if (tree n).type = T_DIR then (tree n).lookup nm else none

/-- **What a list of names leads to**, from an inode on. -/
def resolve (tree : ℕ → Node) (n : ℕ) (names : List (List UInt8)) : Option ℕ :=
  names.foldlM (step tree) n

@[simp] theorem resolve_nil (tree : ℕ → Node) (n : ℕ) : resolve tree n [] = some n := rfl

theorem resolve_cons (tree : ℕ → Node) (n : ℕ) (nm : List UInt8) (names : List (List UInt8)) :
    resolve tree n (nm :: names) = (step tree n nm).bind fun m => resolve tree m names :=
  foldlM_cons

end Sysfile

/-! ## The tree a disk shows -/

namespace Fs

variable {sb : Superblock} {s t : Fs} {ip : Fin NINODE} {n : ℕ}

/-- A node that is not allocated. -/
def freeNode : Node where
  type := 0
  nlink := 0
  data := []

variable (sb) in
/-- **The tree a disk shows.** -/
def view (d : Disk) (n : ℕ) : Node :=
  if n < sb.ninodes ∧ (dinode sb d n).type ≠ 0 then
    { type := (dinode sb d n).type
      nlink := (dinode sb d n).nlink
      data := diskContents sb d n }
  else freeNode

theorem view_of_alloc {d : Disk} (hlt : n < sb.ninodes) (htype : (dinode sb d n).type ≠ 0) :
    view sb d n = { type := (dinode sb d n).type
                    nlink := (dinode sb d n).nlink
                    data := diskContents sb d n } := if_pos ⟨hlt, htype⟩

theorem view_type_ne_zero {d : Disk} :
    (view sb d n).type ≠ 0 ↔ n < sb.ninodes ∧ (dinode sb d n).type ≠ 0 := by
  unfold view
  split
  · rename_i h
    exact ⟨fun _ => h, fun _ => h.2⟩
  · rename_i h
    exact ⟨fun h0 => absurd rfl h0, fun h' => absurd h' h⟩

section

variable (h : Consistent sb s) (hl : s.Live ip)
include h hl

/-- A cached inode shows its node. -/
theorem Consistent.view_eq :
    view sb s.data (s.inode ip).inum =
      { type := (s.inode ip).type, nlink := (s.inode ip).nlink, data := s.contents sb ip } := by
  obtain ⟨hlt, htype, hsame⟩ := h.copy ip hl.ref hl.valid
  rw [view_of_alloc hlt (hsame.type ▸ htype), h.contents_eq hl, hsame.type, hsame.nlink]

theorem Consistent.length_data :
    (view sb s.data (s.inode ip).inum).data.length = (s.inode ip).size := by
  rw [h.view_eq hl]
  simp [contents]

/-- An entry of a cached directory is a slot of its node. -/
theorem Consistent.entry_eq {i : ℕ} (hi : 16 * i + 16 ≤ (s.inode ip).size) :
    s.entry sb ip i = (view sb s.data (s.inode ip).inum).slot i := by
  have hsplit : s.contents sb ip = s.bytes sb ip 0 (16 * i) ++
      (s.bytes sb ip (16 * i) 16 ++ s.bytes sb ip (16 * i + 16) ((s.inode ip).size - (16 * i + 16))) := by
    have h1 : s.bytes sb ip (16 * i) 16 ++ s.bytes sb ip (16 * i + 16)
        ((s.inode ip).size - (16 * i + 16)) = _ := bytes_append ..
    have h2 : s.bytes sb ip 0 (16 * i) ++ s.bytes sb ip (0 + 16 * i)
        (16 + ((s.inode ip).size - (16 * i + 16))) = _ := bytes_append ..
    rw [Nat.zero_add] at h2
    rw [h1, h2, contents]
    congr 1
    omega
  rw [h.view_eq hl, entry, Node.slot, hsplit, drop_left' (by simp), take_left' (by simp)]

theorem Consistent.hit_iff {i : ℕ} {name : ℕ → UInt8}
    (hi : 16 * i + 16 ≤ (s.inode ip).size) : s.Hit sb ip name i ↔
      ((view sb s.data (s.inode ip).inum).slot i).inum ≠ 0 ∧
        nameOf ((view sb s.data (s.inode ip).inum).slot i).name = nameOf name := by
  unfold Hit
  rw [h.entry_eq hl hi, sameName_iff]
  exact and_congr_right fun _ => eq_comm

/-- **`dirlookup` finds the slot that the tree has.** -/
theorem Consistent.dirlookup_eq
    (htype : (s.inode ip).type = T_DIR) (hsize : (s.inode ip).size % 16 = 0) (name : ℕ → UInt8) :
    ∃ t, Peeked s t ∧ dirlookup sb ip name s =
      match (view sb s.data (s.inode ip).inum).find (nameOf name) with
      | none => .ok (none, t)
      | some i => (do
          let jp ← iget ((view sb s.data (s.inode ip).inum).slot i).inum
          return some (jp, 16 * i)) t := by
  have hd := h.dense_live hl
  have hlen := h.length_data hl
  have hrun : dirlookup sb ip name s =
      dirlookupFrom sb ip name ((s.inode ip).size / 16 + 1) (16 * 0) s := by
    unfold dirlookup
    rw [getInode, Prog.gets_bind, if_neg (by simp [htype])]
  rw [hrun]
  cases hf : (view sb s.data (s.inode ip).inum).find (nameOf name) with
  | none =>
    rw [Node.find_eq_none] at hf
    refine dirlookupFrom_miss h.held hd.size_le hsize (fun j _ hj => ?_)
      (hd.backed.mono (Nat.zero_le _) le_rfl)
    rw [h.hit_iff hl (by omega)]
    exact hf j (by rw [Node.nslots, hlen]; omega)
  | some i =>
    obtain ⟨hhit, hi, hno⟩ := Node.find_eq_some.1 hf
    rw [Node.nslots, hlen] at hi
    have hi' : 16 * i + 16 ≤ (s.inode ip).size := by omega
    have hbefore : ∀ j, 0 ≤ j → j < i → ¬ s.Hit sb ip name j := fun j _ hj => by
      rw [h.hit_iff hl (by omega)]
      exact hno j hj
    obtain ⟨t, ht, hlook⟩ := dirlookupFrom_hit (m := i) h.held hd.size_le
      (Nat.zero_add i) (by omega : i < (s.inode ip).size / 16 + 1) hbefore
      ((h.hit_iff hl hi').2 hhit) hi' (hd.backed.mono (Nat.zero_le _) hi')
    rw [h.entry_eq hl hi'] at hlook
    exact ⟨t, ht, hlook⟩

end

end Fs

end Xv6
