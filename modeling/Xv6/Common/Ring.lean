import Mathlib.Data.List.Nodup
/-!
# Circular doubly linked lists

Nodes `ι` with a `next` and a `prev` field each, and a head, written
`none`, that has both as well. The links form a ring over a list of nodes
when following `next` from the head gives the list and comes back to the
head, and each `prev` undoes a `next`. Unlinking a node and putting it at
the front are the assignments a program makes, in their order; a ring goes
to a ring under both, and a walk along either field is a search of the
list.
-/

namespace Common

open List Function

/-- The link fields of the nodes and of the head. -/
structure Links (ι : Type) where
  next : Option ι → Option ι
  prev : Option ι → Option ι

namespace Links

variable {ι : Type} {L L' : Links ι} {a b : Option ι} {l l₁ l₂ : List ι} {x : ι}

/-- From `a` through the nodes of the list to `b`, linked both ways. -/
def Seg (L : Links ι) : Option ι → List ι → Option ι → Prop
  | a, [], b => L.next a = b ∧ L.prev b = a
  | a, x :: l, b => L.next a = some x ∧ L.prev (some x) = a ∧ L.Seg (some x) l b

/-- A circular doubly linked list of the nodes, each once. -/
structure Ring (L : Links ι) (l : List ι) : Prop where
  seg : L.Seg none l none
  nodup : l.Nodup

/-- A head linked to itself. -/
def empty : Links ι := ⟨fun _ => none, fun _ => none⟩

theorem ring_empty : (empty : Links ι).Ring [] := ⟨⟨rfl, rfl⟩, nodup_nil⟩

/-- A segment through `x` is one up to `x` and one from `x` on. -/
theorem seg_append : L.Seg a (l₁ ++ x :: l₂) b ↔ L.Seg a l₁ (some x) ∧ L.Seg (some x) l₂ b := by
  induction l₁ generalizing a with
  | nil => simp only [nil_append, Seg, and_assoc]
  | cons y l₁ ih => simp only [cons_append, Seg, ih, and_assoc]

/-- A segment depends on the `next` of all but its end, and on the `prev`
of all but its start. -/
theorem Seg.congr (h : L.Seg a l b) (hnext : ∀ y ∈ a :: l.map some, L'.next y = L.next y)
    (hprev : ∀ y ∈ l.map some ++ [b], L'.prev y = L.prev y) : L'.Seg a l b := by
  induction l generalizing a with
  | nil =>
    obtain ⟨h1, h2⟩ := h
    exact ⟨by rw [hnext a (by simp), h1], by rw [hprev b (by simp), h2]⟩
  | cons x l ih =>
    obtain ⟨h1, h2, h3⟩ := h
    refine ⟨by rw [hnext a (by simp), h1], by rw [hprev (some x) (by simp), h2],
      ih h3 (fun y hy => hnext y ?_) fun y hy => hprev y ?_⟩
    · rw [map_cons]
      exact mem_cons_of_mem _ hy
    · rw [map_cons, cons_append]
      exact mem_cons_of_mem _ hy

/-- What comes before the end of a segment is on it. -/
theorem Seg.prev_mem (h : L.Seg a l b) : L.prev b ∈ a :: l.map some := by
  induction l generalizing a with
  | nil => rw [h.2]; exact mem_cons_self
  | cons x l ih =>
    rw [map_cons]
    exact mem_cons_of_mem _ (ih h.2.2)

/-- What comes after the start of a segment is on it. -/
theorem Seg.next_mem (h : L.Seg a l b) : L.next a ∈ l.map some ++ [b] := by
  cases l <;> rw [h.1] <;> simp

/-- Read backwards, a segment is a segment of the exchanged links. -/
theorem Seg.reverse (h : L.Seg a l b) : (⟨L.prev, L.next⟩ : Links ι).Seg b l.reverse a := by
  induction l generalizing a with
  | nil => exact ⟨h.2, h.1⟩
  | cons x l ih =>
    rw [reverse_cons]
    exact seg_append.2 ⟨ih h.2.2, h.2.1, h.1⟩

section

variable [DecidableEq ι]

/-- `b->next->prev = b->prev; b->prev->next = b->next;` -/
def unlink (L : Links ι) (x : ι) : Links ι :=
  let L := { L with prev := Function.update L.prev (L.next (some x)) (L.prev (some x)) }
  { L with next := Function.update L.next (L.prev (some x)) (L.next (some x)) }

/-- `b->next = head.next; b->prev = &head; head.next->prev = b; head.next = b;` -/
def pushFront (L : Links ι) (x : ι) : Links ι :=
  let L := { L with next := Function.update L.next (some x) (L.next none) }
  let L := { L with prev := Function.update L.prev (some x) none }
  let L := { L with prev := Function.update L.prev (L.next none) (some x) }
  { L with next := Function.update L.next none (some x) }

/-- Unlinking joins the two segments that meet at the node. -/
theorem Seg.unlink (h₁ : L.Seg a l₁ (some x)) (h₂ : L.Seg (some x) l₂ none)
    (hnd : (l₁ ++ l₂).Nodup) (ha : ∀ y ∈ l₁ ++ l₂, a ≠ some y) (hx : x ∉ l₁ ++ l₂)
    (hax : a ≠ some x) : (L.unlink x).Seg a (l₁ ++ l₂) none := by
  -- `x` keeps its own `prev`, which the second assignment reads
  have hne : L.next (some x) ≠ some x := by
    intro he
    have := h₂.next_mem
    rw [he] at this
    simp only [mem_append, mem_map, Option.some.injEq, exists_eq_right, mem_singleton,
      reduceCtorEq, or_false] at this
    exact hx (mem_append_right _ this)
  have hunlink : L.unlink x = ⟨update L.next (L.prev (some x)) (L.next (some x)),
      update L.prev (L.next (some x)) (L.prev (some x))⟩ := by
    simp only [Links.unlink, update_of_ne hne.symm]
  rw [hunlink]
  induction l₁ generalizing a with
  | nil =>
    obtain ⟨-, hprev⟩ := h₁
    rw [hprev]
    cases l₂ with
    | nil =>
      rw [h₂.1]
      simp [Seg]
    | cons z l₂ =>
      obtain ⟨hz, -, hrest⟩ := h₂
      rw [hz]
      refine ⟨update_self .., update_self .., hrest.congr ?_ ?_⟩
      · intro y hy
        refine update_of_ne ?_ _ _
        rintro rfl
        rw [← map_cons] at hy
        obtain ⟨w, hw, rfl⟩ := mem_map.1 hy
        exact ha w hw rfl
      · intro y hy
        refine update_of_ne ?_ _ _
        rintro rfl
        have hz : z ∈ l₂ := by simpa using hy
        exact (nodup_cons.1 hnd).1 hz
  | cons y l₁ ih =>
    obtain ⟨hy, hyp, hrest⟩ := h₁
    have hnd' := nodup_cons.1 hnd
    refine ⟨?_, ?_, ih hrest hnd'.2 ?_ (fun h => hx (mem_cons_of_mem _ h)) ?_⟩
    · rw [← hy]
      refine update_of_ne ?_ _ _
      intro he
      have := hrest.prev_mem
      rw [← he, ← map_cons] at this
      obtain ⟨w, hw, hwa⟩ := mem_map.1 this
      exact ha w (mem_append_left _ hw) hwa.symm
    · rw [← hyp]
      refine update_of_ne ?_ _ _
      intro he
      have := h₂.next_mem
      rw [← he] at this
      have hy' : y ∈ l₂ := by simpa using this
      exact hnd'.1 (mem_append_right _ hy')
    · rintro w hw he
      cases he
      exact hnd'.1 hw
    · intro he
      cases he
      exact hx mem_cons_self

theorem Ring.unlink (h : L.Ring (l₁ ++ x :: l₂)) : (L.unlink x).Ring (l₁ ++ l₂) := by
  obtain ⟨h₁, h₂⟩ := seg_append.1 h.seg
  have hnd := nodup_middle.1 h.nodup
  have hnd' := nodup_cons.1 hnd
  exact ⟨h₁.unlink h₂ hnd'.2 (by simp) hnd'.1 (by simp), hnd'.2⟩

theorem Ring.pushFront (h : L.Ring l) (hx : x ∉ l) : (L.pushFront x).Ring (x :: l) := by
  refine ⟨?_, nodup_cons.2 ⟨hx, h.nodup⟩⟩
  have hpush : L.pushFront x =
      ⟨update (update L.next (some x) (L.next none)) none (some x),
        update (update L.prev (some x) none) (L.next none) (some x)⟩ := by
    simp [Links.pushFront]
  have hseg := h.seg
  rw [hpush]
  cases l with
  | nil =>
    obtain ⟨h1, -⟩ := hseg
    simp [Seg, h1]
  | cons z l =>
    obtain ⟨h1, -, h3⟩ := hseg
    have hzx : x ≠ z := fun he => hx (he ▸ mem_cons_self)
    have hxl : x ∉ l := fun hm => hx (mem_cons_of_mem _ hm)
    refine ⟨by simp, ?_, ?_, by simp [h1], h3.congr ?_ ?_⟩
    · simp [h1, update_of_ne, hzx]
    · simp [h1]
    · rintro y hy
      rw [← map_cons] at hy
      obtain ⟨w, hw, rfl⟩ := mem_map.1 hy
      have hwx : w ≠ x := fun he => hx (he ▸ hw)
      simp [update_of_ne, hwx]
    · intro y hy
      have hyx : y ≠ some x := by
        rintro rfl
        exact hxl (by simpa using hy)
      have hyz : y ≠ some z := by
        rintro rfl
        exact (nodup_cons.1 h.nodup).1 (by simpa using hy)
      simp [h1, update_of_ne, hyz, hyx]

/-- **A node moved to the front** leaves a ring of the same nodes. -/
theorem Ring.moveFront (h : L.Ring l) (hx : x ∈ l) :
    ∃ l', ((L.unlink x).pushFront x).Ring l' ∧ ∀ y, y ∈ l' ↔ y ∈ l := by
  obtain ⟨l₁, l₂, rfl⟩ := append_of_mem hx
  have hnot : x ∉ l₁ ++ l₂ := (nodup_cons.1 (nodup_middle.1 h.nodup)).1
  refine ⟨x :: (l₁ ++ l₂), h.unlink.pushFront hnot, fun y => ?_⟩
  simp only [mem_cons, mem_append]
  tauto

end

/-! ## Walking a ring -/

/-- `for(b = start; b != &head; b = b->link) if(p(b)) ...`: the first node
found. A ring of `n` nodes is walked in `n` steps. -/
def walk (link : Option ι → Option ι) (p : ι → Bool) : ℕ → Option ι → Option ι
  | 0, _ => none
  | _ + 1, none => none
  | n + 1, some x => if p x then some x else walk link p n (link (some x))

/-- What a walk finds is what it looks for. -/
theorem walk_eq_some {link : Option ι → Option ι} {p : ι → Bool} {n : ℕ}
    (h : walk link p n a = some x) : p x = true := by
  induction n generalizing a with
  | zero => cases h
  | succ n ih =>
    cases a with
    | none => cases h
    | some y =>
      rw [walk] at h
      split at h
      · rename_i hy
        cases h
        exact hy
      · exact ih h

theorem Seg.walk_next {p : ι → Bool} {n : ℕ} (h : L.Seg a l none) (hn : l.length ≤ n) :
    walk L.next p n (L.next a) = l.find? p := by
  induction l generalizing a n with
  | nil =>
    rw [h.1]
    cases n <;> rfl
  | cons x l ih =>
    obtain ⟨h1, -, h3⟩ := h
    cases n with
    | zero => simp at hn
    | succ n =>
      rw [h1, walk, find?_cons]
      cases hp : p x
      · exact ih h3 (by simpa using hn)
      · rfl

theorem Ring.walk_next {p : ι → Bool} {n : ℕ} (h : L.Ring l) (hn : l.length ≤ n) :
    walk L.next p n (L.next none) = l.find? p :=
  h.seg.walk_next hn

theorem Ring.walk_prev {p : ι → Bool} {n : ℕ} (h : L.Ring l) (hn : l.length ≤ n) :
    walk L.prev p n (L.prev none) = l.reverse.find? p :=
  h.seg.reverse.walk_next (by simpa using hn)

end Links

end Common
