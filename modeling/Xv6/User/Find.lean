import Mathlib.Data.Finset.Card
import Xv6.Grep.Lines
import Xv6.Param
/-!
# `find` — `user/find.c`

`search` opens a path and, if it is a directory, reads its records one by
one. The path of an entry is made in a buffer of the call, behind the
directory's own path: each name is copied over the one before it, all
`DIRSIZ` bytes of it, and a NUL put after them. The descriptor stays open
while the entries are searched.
-/

namespace Xv6

open Common Function Grep List

namespace Find

/-! ## What is searched -/

/-- `struct dirent`: a name of full length has no NUL. -/
structure Dirent where
  inum : UInt16
  name : List UInt8
  /-- `char name[DIRSIZ]` -/
  length_name : name.length = DIRSIZ

/-- A finite tree of files, with what is in the directories' records. -/
inductive Node
  | file
  | device
  | dir (entries : List (Dirent × Node))

/-- The name of a record: up to the first NUL. -/
def Dirent.string (de : Dirent) : List UInt8 := de.name.takeWhile (· ≠ 0)

/-- Neither a free record nor `.` nor `..`. -/
def Dirent.live (de : Dirent) : Bool :=
  !(de.inum = 0 || de.string = [dot] || de.string = [dot, dot])

/-- The path of an entry of a directory. -/
def child (path : List UInt8) (de : Dirent) : List UInt8 := path ++ slash :: de.string

mutual

/-- The path itself and all entries of the tree below it. -/
def Node.within (path : List UInt8) : Node → List (List UInt8 × Node)
  | .file => [(path, .file)]
  | .device => [(path, .device)]
  | .dir entries => (path, .dir entries) :: entriesWithin path entries

/-- All that is below the entries of a directory. -/
def entriesWithin (path : List UInt8) : List (Dirent × Node) → List (List UInt8 × Node)
  | [] => []
  | (de, node) :: entries =>
    (if de.live then node.within (child path de) else []) ++ entriesWithin path entries

end

/-- The last component of a path. -/
def lastComponent (path : List UInt8) : List UInt8 := (path.splitOn slash).getLastD []

/-- A regular file of the name. -/
def wanted (searchName : List UInt8) : List UInt8 × Node → Bool
  | (path, .file) => lastComponent path = searchName
  | _ => false

/-- What is to be printed: one line for each. -/
def report (searchName : List UInt8) (l : List (List UInt8 × Node)) : List UInt8 :=
  (l.filter (wanted searchName)).flatMap fun x => x.1 ++ [nl]

/-! ## The program -/

/-- The process: the descriptors, each with a file and an offset, and what
is written to the standard output and error. -/
structure State where
  /-- The open files. -/
  fds : ℕ → Option (Node × ℕ)
  /-- Descriptor 1. -/
  out : List UInt8
  /-- Descriptor 2. -/
  err : List UInt8

/-- The bytes of a text. -/
def text (s : String) : List UInt8 := s.toList.map fun x => x.toNat.toUInt8

/-- `printf` -/
def State.print (s : State) (l : List UInt8) : State := { s with out := s.out ++ l }

/-- `open` and `fdalloc`: the first free descriptor, at offset 0. -/
def State.open (s : State) (node : Option Node) : Option (ℕ × State) :=
  node.bind fun node =>
    ((List.range NOFILE).find? fun fd => (s.fds fd).isNone).map fun fd =>
      (fd, { s with fds := update s.fds fd (some (node, 0)) })

def State.close (s : State) (fd : ℕ) : State := { s with fds := update s.fds fd none }

/-- `read(fd, &de, sizeof(de))`: the next record of a directory. -/
def State.readDirent (s : State) (fd : ℕ) : Option (Dirent × State) :=
  match s.fds fd with
  | some (.dir entries, off) =>
    entries[off]?.map fun x =>
      (x.1, { s with fds := update s.fds fd (some (.dir entries, off + 1)) })
  | _ => none

/-- Where the last component begins: `p` goes down from the end. -/
def fmtnameFrom (path : List UInt8) : ℕ → ℕ
  | 0 => 0
  | p + 1 => if path[p]? = some slash then p + 1 else fmtnameFrom path p

def fmtname (path : List UInt8) : List UInt8 := path.drop (fmtnameFrom path path.length)

section Program

variable (names : List UInt8 → Option Node) (searchName : List UInt8)

/-- `stat` of the user library: whether it succeeds. -/
def stat (path : List UInt8) (s : State) : Option State :=
  (s.open (names path)).map fun x => x.2.close x.1

/-- The loop over a directory's records, at most `k`; `go` is the recursive
call, and `p` where the name goes in the buffer. -/
def searchLoop (go : List UInt8 → State → Option State) :
    ℕ → ℕ → ℕ → (ℕ → UInt8) → State → Option State
  | 0, _, _, _, _ => none
  | k + 1, fd, p, buf, s =>
    match s.readDirent fd with
    | none => some s
    | some (de, s) =>
      if de.live then
        let buf := update (overlay buf p de.name) (p + DIRSIZ) 0
        let path := cstring buf 512 0
        match stat names path s with
        | none => searchLoop go k fd p buf (s.print (text "ls: cannot stat " ++ path ++ [nl]))
        | some s => (go path s).bind (searchLoop go k fd p buf)
      else searchLoop go k fd p buf s

/-- `search`, with recursion bounded by `fuel`; `names` says what the paths
name, and `stack` what the buffers hold before. -/
def search (stack : ℕ → ℕ → UInt8) : ℕ → List UInt8 → State → Option State
  | 0, _, _ => none
  | fuel + 1, path, s =>
    match s.open (names path) with
    | none => some { s with err := s.err ++ text "find: cannot open " ++ path ++ [nl] }
    | some (fd, s) =>
      let body := match s.fds fd with
        | none => some { s with err := s.err ++ text "find: cannot stat " ++ path ++ [nl] }
        | some (.file, _) => some (if fmtname path = searchName then s.print (path ++ [nl]) else s)
        | some (.device, _) => some s
        | some (.dir entries, _) =>
          if path.length + 1 + DIRSIZ + 1 > 512 then some (s.print (text "ls: path too long\n"))
          else
            let buf := update (overlay (stack fuel) 0 (path ++ [0])) path.length slash
            searchLoop names (search stack fuel) (entries.length + 1) fd (path.length + 1) buf s
      body.map (·.close fd)

end Program

@[simp] theorem State.print_nil (s : State) : s.print [] = s := by rw [State.print, append_nil]

/-! ## The last component -/

variable {path l a searchName : List UInt8} {names : List UInt8 → Option Node} {s : State}

theorem fmtnameFrom_append (hl : slash ∉ l) {k : ℕ} (hk : k ≤ l.length) :
    fmtnameFrom (a ++ l) (a.length + k) = fmtnameFrom (a ++ l) a.length := by
  induction k with
  | zero => rfl
  | succ k ih =>
    have hget : (a ++ l)[a.length + k]? ≠ some slash := by
      rw [getElem?_append_right (by omega), Nat.add_sub_cancel_left]
      exact fun h => hl (mem_of_getElem? h)
    rw [← Nat.add_assoc, fmtnameFrom, if_neg hget, ih (by omega)]

/-- **`fmtname` finds the last component.** -/
theorem fmtname_eq : fmtname path = lastComponent path := by
  by_cases h : slash ∈ path
  · obtain ⟨b, a, hrev, hb⟩ := eq_append_cons_of_mem (mem_reverse.2 h)
    have hpath : path = (a.reverse ++ [slash]) ++ b.reverse := by
      rw [← reverse_reverse path, hrev]
      simp
    have hb : slash ∉ b.reverse := fun hm => hb (mem_reverse.1 hm)
    have hsplit : path.splitOn slash = a.reverse.splitOn slash ++ b.reverse.splitOn slash := by
      rw [hpath, append_assoc]
      exact splitOnP_append_cons _ _ (by simp)
    have hfrom := fmtnameFrom_append (a := a.reverse ++ [slash]) hb (Nat.le_refl _)
    rw [← length_append, ← hpath] at hfrom
    rw [lastComponent, hsplit, splitOn_of_notMem hb, fmtname, hfrom, length_append,
      length_singleton, fmtnameFrom, if_pos (by rw [hpath]; simp)]
    have hdrop : path.drop (a.reverse.length + 1) = b.reverse := by
      rw [hpath, show a.reverse.length + 1 = (a.reverse ++ [slash]).length by simp, drop_left]
    rw [hdrop, getLastD_eq_getLast?, getLast?_append]
    rfl
  · have hfrom := fmtnameFrom_append (a := []) h (Nat.le_refl _)
    rw [nil_append, length_nil, Nat.zero_add] at hfrom
    rw [lastComponent, splitOn_of_notMem h, fmtname, hfrom]
    rfl

/-! ## Descriptors -/

/-- How many descriptors are free. -/
def State.free (s : State) : ℕ := ((Finset.range NOFILE).filter fun fd => (s.fds fd).isNone).card

/-- **A free descriptor is opened.** -/
theorem State.open_spec (node : Node) (h : 0 < s.free) : ∃ fd, s.fds fd = none ∧
    s.open (some node) = some (fd, { s with fds := update s.fds fd (some (node, 0)) }) ∧
    ∀ t : State, (∀ i, i ≠ fd → t.fds i = s.fds i) → s.free ≤ t.free + 1 := by
  obtain ⟨i, hi⟩ := Finset.card_pos.1 h
  obtain ⟨hi, hnone⟩ := Finset.mem_filter.1 hi
  cases hfind : (List.range NOFILE).find? fun fd => (s.fds fd).isNone with
  | none => exact absurd hnone (by simpa using find?_eq_none.1 hfind i (by simpa using hi))
  | some fd =>
    have hfd := find?_some hfind
    refine ⟨fd, Option.isNone_iff_eq_none.1 hfd, by rw [State.open, hfind]; rfl, fun t ht => ?_⟩
    rw [State.free, State.free, ← Nat.sub_le_iff_le_add]
    refine (Finset.pred_card_le_card_erase (a := fd)).trans (Finset.card_le_card fun i hi => ?_)
    obtain ⟨hne, hi⟩ := Finset.mem_erase.1 hi
    rw [Finset.mem_filter] at hi ⊢
    exact ⟨hi.1, (ht i hne) ▸ hi.2⟩

/-- `stat` gives its descriptor back. -/
theorem stat_eq {node : Node} (hn : names path = some node) (h : 0 < s.free) :
    stat names path s = some s := by
  obtain ⟨fd, hfd, hopen, -⟩ := State.open_spec node h
  rw [stat, hn, hopen, Option.map_some, State.close, update_idem, ← hfd, update_eq_self]

/-! ## The search -/

/-- The path names the node, and so on for every entry of the tree below
it: the tree has at most `d` levels, and the paths of its directories pass
the check. -/
def Opens (names : List UInt8 → Option Node) : ℕ → List UInt8 → Node → Prop
  | 0, _, _ => False
  | d + 1, path, node => names path = some node ∧
    ∀ entries, node = .dir entries → path.length + 1 + DIRSIZ + 1 ≤ 512 ∧
      ∀ x ∈ entries, x.1.live → Opens names d (child path x.1) x.2

theorem notMem_child (h : 0 ∉ path) (de : Dirent) : 0 ∉ child path de := by
  intro hm
  rcases mem_append.1 hm with hm | hm
  · exact h hm
  rcases mem_cons.1 hm with hm | hm
  · exact absurd hm (by decide)
  · simpa using mem_takeWhile_imp hm

/-- The buffer behind the directory's path is overwritten by each name in
turn. -/
theorem cstring_child {buf : ℕ → UInt8} (h : Holds buf 0 (path ++ [slash])) (h0 : 0 ∉ path)
    (hlen : path.length + 1 + DIRSIZ + 1 ≤ 512) (de : Dirent) :
    Holds (update (overlay buf (path.length + 1) de.name) (path.length + 1 + DIRSIZ) 0) 0
        (path ++ [slash]) ∧
      cstring (update (overlay buf (path.length + 1) de.name) (path.length + 1 + DIRSIZ) 0) 512 0 =
        child path de := by
  generalize hb : update (overlay buf (path.length + 1) de.name) (path.length + 1 + DIRSIZ) 0 = buf'
  have hdir : (path ++ [slash]).length = path.length + 1 := by
    rw [length_append, length_singleton]
  have hpath : Holds buf' 0 (path ++ [slash]) := by
    refine h.congr fun i _ hi => ?_
    rw [hdir] at hi
    rw [← hb, update_of_ne (by omega), overlay_of_lt (by omega)]
  have hname : Holds buf' (path.length + 1) de.name := by
    refine (holds_overlay (m := buf)).congr fun i _ hi => ?_
    rw [de.length_name] at hi
    rw [← hb, update_of_ne (by omega)]
  have hend : buf' (path.length + 1 + de.name.length) = 0 := by
    rw [de.length_name, ← hb, update_self]
  obtain ⟨n, hn⟩ : ∃ n, 512 = (path ++ [slash]).length + n := ⟨512 - (path.length + 1), by omega⟩
  refine ⟨hpath, ?_⟩
  have hdir0 : 0 ∉ path ++ [slash] := by
    simp only [mem_append, mem_singleton, not_or]
    exact ⟨h0, by decide⟩
  rw [hn, cstring_append hpath hdir0, hdir, Nat.zero_add,
    cstring_takeWhile hname hend (by rw [de.length_name]; omega), child, append_assoc]
  rfl

theorem report_append (l l' : List (List UInt8 × Node)) :
    report searchName (l ++ l') = report searchName l ++ report searchName l' := by
  rw [report, filter_append, flatMap_append]
  rfl

/-- **The loop** searches the entries that are left. -/
theorem searchLoop_spec {go : List UInt8 → State → Option State} {d k fd : ℕ} {buf : ℕ → UInt8}
    {entries pre post : List (Dirent × Node)} (h0 : 0 ∉ path)
    (hlen : path.length + 1 + DIRSIZ + 1 ≤ 512)
    (hgo : ∀ x ∈ post, x.1.live → 0 < d ∧ (∃ node, names (child path x.1) = some node) ∧
      ∀ t : State, d ≤ t.free → go (child path x.1) t =
        some (t.print (report searchName (x.2.within (child path x.1)))))
    (hfree : ∀ t : State, (∀ i, i ≠ fd → t.fds i = s.fds i) → d ≤ t.free)
    (hentries : entries = pre ++ post) (hfd : s.fds fd = some (.dir entries, pre.length))
    (hk : post.length < k) (hbuf : Holds buf 0 (path ++ [slash])) :
    searchLoop names go k fd (path.length + 1) buf s =
      some { s with
        fds := update s.fds fd (some (.dir entries, entries.length))
        out := s.out ++ report searchName (entriesWithin path post) } := by
  induction post generalizing pre s k buf with
  | nil =>
    obtain ⟨k, rfl⟩ : ∃ j, k = j + 1 := ⟨k - 1, by simp at hk; omega⟩
    rw [append_nil] at hentries
    have hread : s.readDirent fd = none := by
      rw [State.readDirent, hfd]
      dsimp only
      rw [hentries, getElem?_eq_none (Nat.le_refl _)]
      rfl
    have hsame : update s.fds fd (some (.dir entries, entries.length)) = s.fds := by
      rw [show entries.length = pre.length by rw [hentries], ← hfd, update_eq_self]
    rw [searchLoop, hread, hsame]
    simp [entriesWithin, report]
  | cons x post ih =>
    obtain ⟨k, rfl⟩ : ∃ j, k = j + 1 := ⟨k - 1, by omega⟩
    have hread : s.readDirent fd =
        some (x.1, { s with fds := update s.fds fd (some (.dir entries, pre.length + 1)) }) := by
      rw [State.readDirent, hfd]
      dsimp only
      rw [hentries, getElem?_append_right (Nat.le_refl _), Nat.sub_self]
      rfl
    -- the rest of the loop, whatever is printed for this entry
    have hnext : ∀ (buf' : ℕ → UInt8) (out : List UInt8), Holds buf' 0 (path ++ [slash]) →
        searchLoop names go k fd (path.length + 1) buf'
            ⟨update s.fds fd (some (.dir entries, pre.length + 1)), out, s.err⟩ =
          some { s with
            fds := update s.fds fd (some (.dir entries, entries.length))
            out := out ++ report searchName (entriesWithin path post) } := by
      intro buf' out hbuf'
      have hrest := @ih ⟨update s.fds fd (some (.dir entries, pre.length + 1)), out, s.err⟩ k buf'
        (pre ++ [x])
        (fun y hy => hgo y (mem_cons_of_mem _ hy))
        (fun t ht => hfree t fun i hi => (ht i hi).trans (update_of_ne hi ..))
        (by rw [hentries, append_assoc]; rfl)
        (by rw [length_append, length_singleton]; exact update_self ..)
        (by rw [length_cons] at hk; omega) hbuf'
      rwa [update_idem] at hrest
    rw [searchLoop, hread]
    dsimp only
    rw [entriesWithin, report_append]
    split
    · rename_i hlive
      obtain ⟨hpath, hchild⟩ := cstring_child hbuf h0 hlen x.1
      obtain ⟨hd, ⟨node, hnode⟩, hgo⟩ := hgo x (mem_cons_self ..) hlive
      have hfree' : d ≤ State.free
          ⟨update s.fds fd (some (.dir entries, pre.length + 1)), s.out, s.err⟩ :=
        hfree _ fun i hi => update_of_ne hi ..
      rw [hchild, stat_eq hnode (by omega)]
      dsimp only
      rw [hgo _ hfree', ← append_assoc]
      exact hnext _ _ hpath
    · exact hnext _ _ hbuf

/-- **`search` prints one line for each regular file of the name** in the
tree, and closes what it opened. -/
theorem search_finds {d fuel : ℕ} {node : Node} {stack : ℕ → ℕ → UInt8}
    (h : Opens names d path node) (h0 : 0 ∉ path) (hfree : d ≤ s.free) (hfuel : d ≤ fuel) :
    search names searchName stack fuel path s =
      some (s.print (report searchName (node.within path))) := by
  induction d generalizing path node s fuel with
  | zero => exact h.elim
  | succ d ih =>
    obtain ⟨fuel, rfl⟩ : ∃ k, fuel = k + 1 := ⟨fuel - 1, by omega⟩
    obtain ⟨hname, hdir⟩ := h
    obtain ⟨fd, hnone, hopen, hafter⟩ := State.open_spec node (show 0 < s.free by omega)
    rw [search, hname, hopen]
    dsimp only
    rw [update_self]
    -- whatever was read and printed, the descriptor is free again
    have hclose : ∀ x out, (some (⟨update s.fds fd x, out, s.err⟩ : State)).map (·.close fd) =
        some { s with out } := by
      intro x out
      rw [Option.map_some, State.close, update_idem, ← hnone, update_eq_self]
    cases node with
    | file =>
      have hprint : report searchName [(path, .file)] =
          if fmtname path = searchName then path ++ [nl] else [] := by
        rw [fmtname_eq, report]
        by_cases hp : lastComponent path = searchName <;> simp [wanted, hp]
      rw [Node.within, hprint]
      dsimp only
      split
      · exact hclose _ _
      · rw [s.print_nil]
        exact hclose _ _
    | device =>
      have hprint : report searchName [(path, .device)] = [] := rfl
      rw [Node.within, hprint, s.print_nil]
      exact hclose _ _
    | dir entries =>
      obtain ⟨hlen, hentries⟩ := hdir entries rfl
      dsimp only
      rw [if_neg (by omega)]
      have hbuf : Holds (update (overlay (stack fuel) 0 (path ++ [0])) path.length slash) 0
          (path ++ [slash]) := by
        refine holds_append.2 ⟨?_, holds_cons.2 ⟨by rw [Nat.zero_add, update_self], holds_nil⟩⟩
        refine (holds_append.1 (holds_overlay (m := stack fuel) (l := path ++ [0]))).1.congr fun i _ hi => ?_
        exact update_of_ne (by omega) ..
      have hgo : ∀ x ∈ entries, x.1.live → 0 < d ∧ (∃ node, names (child path x.1) = some node) ∧
          ∀ t : State, d ≤ t.free → search names searchName stack fuel (child path x.1) t =
            some (t.print (report searchName (x.2.within (child path x.1)))) := by
        intro x hx hlive
        have hx := hentries x hx hlive
        refine ⟨Nat.pos_of_ne_zero fun hz => by subst hz; exact hx, ?_, fun t ht =>
          ih hx (notMem_child h0 x.1) ht (by omega)⟩
        cases d with
        | zero => exact hx.elim
        | succ d => exact ⟨_, hx.1⟩
      have hfree' : ∀ t : State, (∀ i, i ≠ fd → t.fds i = update s.fds fd (some (.dir entries, 0)) i) →
          d ≤ t.free := by
        intro t ht
        have := hafter t fun i hi => (ht i hi).trans (update_of_ne hi ..)
        omega
      have hloop := @searchLoop_spec _ _ _ ⟨update s.fds fd (some (.dir entries, 0)), s.out, s.err⟩
        _ _ _ _ _ _ _ _ h0 hlen hgo hfree'
        (nil_append entries).symm (update_self ..) (Nat.lt_succ_self _) hbuf
      rw [hloop, Node.within]
      dsimp only
      rw [update_idem]
      exact hclose _ _

/-- A record with a name of one letter. -/
def letter (inum : UInt16) (a : UInt8) : Dirent := ⟨inum, a :: List.replicate 13 0, rfl⟩

/-- The directory `r` with `.`, a free record and the regular file `b`. -/
def small : Node := .dir [(letter 1 dot, .device), (letter 0 99, .device), (letter 2 98, .file)]

/-- What the paths name if `r` is the working directory's only entry. -/
def smallNames (path : List UInt8) : Option Node := if path = [114] then some small else some .file

/-- All descriptors free. -/
def boot : State := ⟨fun _ => none, [], []⟩

theorem search_finds_one : search smallNames [98] (fun _ _ => 7) 2 [114] boot =
    some (boot.print [114, slash, 98, nl]) := by
  have h : Opens smallNames 2 [114] small := by
    refine ⟨rfl, fun entries he => ?_⟩
    cases he
    refine ⟨by decide, fun x hx hlive => ?_⟩
    simp only [mem_cons, not_mem_nil, or_false] at hx
    rcases hx with rfl | rfl | rfl
    · exact absurd hlive (by decide)
    · exact absurd hlive (by decide)
    · exact ⟨rfl, nofun⟩
  exact (search_finds h (by decide) (by decide) (Nat.le_refl _)).trans rfl

end Find

end Xv6
