import Xv6.Common.Text
/-!
# The matcher — `user/grep.c`

A NUL-terminated string is the list of its bytes; the NUL is the end of
the list. `match` and its helpers are compared with what a pattern means:
a list of items, each of which stands for some strings.
-/

namespace Xv6

open Common List

namespace Grep

/-- `'^'` -/
abbrev caret : UInt8 := 94

/-- `'$'` -/
abbrev dollar : UInt8 := 36

/-- `'*'` -/
abbrev star : UInt8 := 42

/-- `matchstar`, given what `matchhere` makes of the rest of the pattern. -/
def matchstar (matchhere : List UInt8 → Bool) (c : UInt8) : List UInt8 → Bool
  | [] => matchhere []
  | t :: text => matchhere (t :: text) || ((t = c || c = dot) && matchstar matchhere c text)

/-- The end of `matchhere`: one character, and what `matchhere` makes of
the rest. -/
def matchone (matchhere : List UInt8 → Bool) (c : UInt8) : List UInt8 → Bool
  | [] => false
  | t :: text => (c = dot || c = t) && matchhere text

def matchhere : List UInt8 → List UInt8 → Bool
  | [], _ => true
  | [c], text => if c = dollar then text.isEmpty else matchone (matchhere []) c text
  | c :: d :: re, text =>
    if d = star then matchstar (matchhere re) c text else matchone (matchhere (d :: re)) c text

/-- The loop of `match`. -/
def matchAt (re : List UInt8) : List UInt8 → Bool
  | [] => matchhere re []
  | t :: text => matchhere re (t :: text) || matchAt re text

/-- `match` -/
def matchText (re text : List UInt8) : Bool :=
  if re.head? = some caret then matchhere re.tail text else matchAt re text

/-! ## What a pattern means -/

/-- What a pattern is made of: a character, a character with a star, and
the end of the text. -/
inductive Item
  | one (c : UInt8)
  | many (c : UInt8)
  | fin
  deriving DecidableEq

/-- A pattern read from left to right. -/
def items : List UInt8 → List Item
  | [] => []
  | [c] => [if c = dollar then .fin else .one c]
  | c :: d :: re => if d = star then .many c :: items re else .one c :: items (d :: re)

/-- The character of a pattern stands for the character. -/
def Stands (c t : UInt8) : Prop := c = dot ∨ c = t

/-- **What the items stand for**: the string `w`, if `rest` is what follows
it in the text. -/
def Means : List Item → List UInt8 → List UInt8 → Prop
  | [], w, _ => w = []
  | .one c :: is, w, rest => ∃ t v, w = t :: v ∧ Stands c t ∧ Means is v rest
  | .many c :: is, w, rest => ∃ u v, w = u ++ v ∧ (∀ t ∈ u, Stands c t) ∧ Means is v rest
  | .fin :: is, w, rest => w = [] ∧ rest = [] ∧ Means is w rest

/-- The items stand for a beginning of the text. -/
def Begins (is : List Item) (text : List UInt8) : Prop :=
  ∃ w rest, text = w ++ rest ∧ Means is w rest

variable {c : UInt8} {is : List Item} {re text : List UInt8}

theorem begins_one : Begins (.one c :: is) text ↔
    ∃ t rest, text = t :: rest ∧ Stands c t ∧ Begins is rest := by
  constructor
  · rintro ⟨_, rest, rfl, t, v, rfl, ht, hv⟩
    exact ⟨t, v ++ rest, rfl, ht, v, rest, rfl, hv⟩
  · rintro ⟨t, _, rfl, ht, v, rest, rfl, hv⟩
    exact ⟨t :: v, rest, rfl, t, v, rfl, ht, hv⟩

theorem begins_many : Begins (.many c :: is) text ↔
    ∃ u rest, text = u ++ rest ∧ (∀ t ∈ u, Stands c t) ∧ Begins is rest := by
  constructor
  · rintro ⟨_, rest, rfl, u, v, rfl, hu, hv⟩
    exact ⟨u, v ++ rest, append_assoc .., hu, v, rest, rfl, hv⟩
  · rintro ⟨u, _, rfl, hu, v, rest, rfl, hv⟩
    exact ⟨u ++ v, rest, (append_assoc ..).symm, u, v, rfl, hu, hv⟩

theorem begins_fin : Begins [.fin] text ↔ text = [] := by
  constructor
  · rintro ⟨_, _, rfl, rfl, rfl, -⟩
    rfl
  · rintro rfl
    exact ⟨[], [], rfl, rfl, rfl, rfl⟩

/-! ## The matcher finds what the pattern means -/

/-- **`matchstar`** tries every beginning that the character stands for. -/
theorem matchstar_iff {here : List UInt8 → Bool} : matchstar here c text = true ↔
    ∃ u rest, text = u ++ rest ∧ (∀ t ∈ u, Stands c t) ∧ here rest = true := by
  induction text with
  | nil =>
    constructor
    · intro h
      exact ⟨[], [], rfl, fun t ht => absurd ht not_mem_nil, h⟩
    · rintro ⟨u, rest, hnil, -, h⟩
      rwa [(append_eq_nil_iff.1 hnil.symm).2] at h
  | cons t text ih =>
    simp only [matchstar, Bool.or_eq_true, Bool.and_eq_true, decide_eq_true_eq, ih]
    constructor
    · rintro (h | ⟨ht, u, rest, rfl, hu, h⟩)
      · exact ⟨[], t :: text, rfl, fun t ht => absurd ht not_mem_nil, h⟩
      · exact ⟨t :: u, rest, rfl, forall_mem_cons.2 ⟨ht.symm.imp id Eq.symm, hu⟩, h⟩
    · rintro ⟨u, rest, heq, hu, h⟩
      cases u with
      | nil =>
        left
        rw [nil_append] at heq
        rwa [heq]
      | cons x u =>
        obtain ⟨rfl, rfl⟩ := List.cons.inj heq
        obtain ⟨hx, hu⟩ := forall_mem_cons.1 hu
        exact .inr ⟨hx.symm.imp Eq.symm id, u, rest, rfl, hu, h⟩

/-- A character of the pattern that has no star. -/
theorem matchone_iff {here : List UInt8 → Bool} (h : ∀ rest, here rest = true ↔ Begins is rest) :
    matchone here c text = true ↔ Begins (.one c :: is) text := by
  rw [begins_one]
  cases text with
  | nil => simp [matchone]
  | cons t text => simp [matchone, h, Stands, and_assoc]

/-- **`matchhere`** -/
theorem matchhere_iff : matchhere re text = true ↔ Begins (items re) text := by
  have hnil : ∀ text, matchhere [] text = true ↔ Begins [] text := fun text =>
    iff_of_true (by rw [matchhere]) ⟨[], text, rfl, rfl⟩
  induction re using items.induct generalizing text with
  | case1 => exact hnil text
  | case2 c =>
    rw [items, matchhere]
    split
    · rw [begins_fin, List.isEmpty_iff]
    · exact matchone_iff hnil
  | case3 c re ih =>
    rw [items, matchhere, if_pos rfl, if_pos rfl, matchstar_iff, begins_many]
    simp only [ih]
  | case4 c d re hd ih =>
    rw [items, matchhere, if_neg hd, if_neg hd]
    exact matchone_iff fun _ => ih

theorem matchAt_iff : matchAt re text = true ↔ ∃ before rest, text = before ++ rest ∧
    matchhere re rest = true := by
  induction text with
  | nil =>
    constructor
    · intro h
      exact ⟨[], [], rfl, h⟩
    · rintro ⟨before, rest, hnil, h⟩
      rwa [(append_eq_nil_iff.1 hnil.symm).2] at h
  | cons t text ih =>
    rw [matchAt, Bool.or_eq_true, ih]
    constructor
    · rintro (h | ⟨before, rest, rfl, h⟩)
      · exact ⟨[], t :: text, rfl, h⟩
      · exact ⟨t :: before, rest, rfl, h⟩
    · rintro ⟨before, rest, heq, h⟩
      cases before with
      | nil =>
        left
        rw [nil_append] at heq
        rwa [heq]
      | cons x before =>
        obtain ⟨-, rfl⟩ := List.cons.inj heq
        exact .inr ⟨before, rest, rfl, h⟩

/-- **The matcher implements its pattern language.** A pattern that starts
with `^` matches a text that begins with what the rest of it stands for,
any other a text in which what it stands for is found somewhere. -/
theorem match_implements_pattern (re text : List UInt8) : matchText re text = true ↔
    if re.head? = some caret then ∃ w rest, text = w ++ rest ∧ Means (items re.tail) w rest
    else ∃ before w rest, text = before ++ (w ++ rest) ∧ Means (items re) w rest := by
  unfold matchText
  split
  · exact matchhere_iff
  · rw [matchAt_iff]
    simp only [matchhere_iff]
    constructor
    · rintro ⟨before, _, rfl, w, rest, rfl, h⟩
      exact ⟨before, w, rest, rfl, h⟩
    · rintro ⟨before, w, rest, rfl, h⟩
      exact ⟨before, w ++ rest, rfl, w, rest, rfl, h⟩

end Grep

end Xv6
