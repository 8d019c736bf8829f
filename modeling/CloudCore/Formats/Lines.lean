import Mathlib.Data.List.Basic
import Mathlib.Data.Nat.Notation

/-!
# Formats of lines

A text of lines is made by joining lines, and read by splitting it and looking at each
line: a reader cleans a line (of white space, of comments) and passes over it if nothing
is left.  What is put into a line may hold line ends of its own; then the text has more
lines than were joined.

## Main definitions

* `joinLines`, `lines` — writing and splitting a text.
* `entries` — what a reader sees: the cleaned lines that are not blank.
* `sections` — the entries, from one header to the next.

## Main results

* `lines_join` — a joined text has the lines of its parts.
* `entries_join` — and their entries.
* `flatMap_eq_map_iff` — parts with at least one entry have one each if their number is
  right.
* `sections_flatten` — blocks that begin with their only header are read back.
-/

namespace Formats

/-- A line, or a text. -/
abbrev Line := List Char

-- A statement about the characters of a text is decided over the text, not over all characters.
attribute [instance (2000)] List.decidableBAll List.decidableBEx
attribute [instance (2000)] Option.decidableForallMem Option.decidableExistsMem

/-- A fixed text. -/
@[irreducible] def text (s : String) : Line := s.toList

/-- `'\n'.join(lines)`. -/
def joinLines (ls : List Line) : Line := ['\n'].intercalate ls

/-- The lines of a text. -/
def lines (l : Line) : List Line := l.splitOn '\n'

theorem lines_ne_nil (l : Line) : lines l ≠ [] := List.splitOn_ne_nil _ _

theorem lines_append (a b : Line) : lines (a ++ '\n' :: b) = lines a ++ lines b :=
  List.splitOn_append_cons_self a b

theorem lines_of_not_mem {l : Line} (h : '\n' ∉ l) : lines l = [l] :=
  List.splitOn_eq_singleton h

theorem joinLines_cons_cons (a b : Line) (ls : List Line) :
    joinLines (a :: b :: ls) = a ++ '\n' :: joinLines (b :: ls) := by
  simp [joinLines, List.intercalate]

/-- **A joined text has the lines of its parts.** -/
theorem lines_join {ls : List Line} (h : ls ≠ []) : lines (joinLines ls) = ls.flatMap lines := by
  induction ls with
  | nil => exact absurd rfl h
  | cons a ls ih =>
    cases ls with
    | nil => simp [joinLines, List.intercalate]
    | cons b ls =>
      rw [joinLines_cons_cons, lines_append, ih (List.cons_ne_nil b ls)]
      rfl

/-- A text that begins with part of a line. -/
theorem lines_begin {p : Line} (h : '\n' ∉ p) (l : Line) :
    lines (p ++ l) = (p ++ (lines l).head (lines_ne_nil l)) :: (lines l).tail := by
  induction p with
  | nil => exact (List.cons_head_tail _).symm
  | cons c p ih =>
    have hc : (c == '\n') = false := beq_eq_false_iff_ne.mpr fun hc => h (hc ▸ List.mem_cons_self)
    have hp : '\n' ∉ p := fun hp => h (List.mem_cons_of_mem c hp)
    rw [lines, List.cons_append, List.splitOn_cons_eq_if_modifyHead, hc]
    have hrest : (p ++ l).splitOn '\n' = lines (p ++ l) := rfl
    rw [hrest, ih hp]
    rfl

/-! ### Entries -/

section Entries

variable (clean : Line → Line)

/-- What a reader sees of a text. -/
def entries (l : Line) : List Line := ((lines l).map clean).filter (· ≠ [])

/-- **A joined text has the entries of its parts.** -/
theorem entries_join {ls : List Line} (h : ls ≠ []) :
    entries clean (joinLines ls) = ls.flatMap (entries clean) := by
  rw [entries, lines_join h, List.map_flatMap, List.filter_flatMap]
  rfl

variable {clean}

/-- Nothing but blank lines follows the first line. -/
def OneLine (clean : Line → Line) (l : Line) : Prop := ∀ l' ∈ (lines l).tail, clean l' = []

/-- The first line is an entry, and the others if they are not blank. -/
theorem entries_begin {p : Line} (h : '\n' ∉ p) {l : Line}
    (hp : ∀ l, clean (p ++ l) ≠ []) : entries clean (p ++ l) =
      clean (p ++ (lines l).head (lines_ne_nil l)) ::
        ((lines l).tail.map clean).filter (· ≠ []) := by
  rw [entries, lines_begin h, List.map_cons, List.filter_cons_of_pos]
  exact decide_eq_true (hp _)

/-- A text that is not blank up to its first line end has an entry. -/
theorem entries_begin_ne_nil {p : Line} (h : '\n' ∉ p) {l : Line}
    (hp : ∀ l, clean (p ++ l) ≠ []) : entries clean (p ++ l) ≠ [] := by
  rw [entries_begin h hp]
  exact List.cons_ne_nil _ _

theorem filter_eq_nil_iff_oneLine {l : Line} :
    ((lines l).tail.map clean).filter (· ≠ []) = [] ↔ OneLine clean l := by
  rw [List.filter_eq_nil_iff, OneLine]
  constructor
  · intro h l' hl'
    by_contra hne
    exact h _ (List.mem_map_of_mem hl') (decide_eq_true hne)
  · intro h _ hmem
    obtain ⟨l', hl', rfl⟩ := List.mem_map.mp hmem
    rw [h l' hl']
    exact fun hne => of_decide_eq_true hne rfl

end Entries

/-- If each part has an entry, and together they are as many as the parts, each has one. -/
theorem flatMap_eq_map_iff {α β : Type} {xs : List α} {f : α → List β} {g : α → β}
    (hpos : ∀ x ∈ xs, f x ≠ []) : xs.flatMap f = xs.map g ↔ ∀ x ∈ xs, f x = [g x] := by
  have hlen : ∀ ys : List α, (∀ x ∈ ys, f x ≠ []) → ys.length ≤ (ys.flatMap f).length := by
    intro ys hys
    induction ys with
    | nil => exact Nat.zero_le _
    | cons y ys ih =>
      rw [List.flatMap_cons, List.length_append, List.length_cons]
      have hy : 0 < (f y).length := List.length_pos_of_ne_nil (hys y List.mem_cons_self)
      have hrest := ih fun x hx => hys x (List.mem_cons_of_mem y hx)
      omega
  induction xs with
  | nil => simp
  | cons x xs ih =>
    rw [List.flatMap_cons, List.map_cons, List.forall_mem_cons]
    have hrest := fun y hy => hpos y (List.mem_cons_of_mem x hy)
    constructor
    · intro h
      have hle := hlen xs hrest
      obtain ⟨y, l, hl⟩ := List.exists_cons_of_ne_nil (hpos x List.mem_cons_self)
      have hnil : l = [] := by
        have hcount := congrArg List.length h
        rw [List.length_append, List.length_cons, List.length_map, hl, List.length_cons] at hcount
        exact List.length_eq_zero_iff.mp (by omega)
      rw [hl, hnil, List.singleton_append, List.cons.injEq] at h
      exact ⟨by rw [hl, hnil, h.1], (ih hrest).mp h.2⟩
    · rintro ⟨hx, hxs⟩
      rw [hx, (ih hrest).mpr hxs]
      rfl

/-! ### Sections -/

section Sections

variable (header : Line → Bool)

/-- What stands before the first header, and then the entries from each header on. -/
def sections : List Line → List (List Line)
  | [] => [[]]
  | l :: ls =>
    match sections ls with
    | [] => []
    | b :: bs => if header l then [] :: (l :: b) :: bs else (l :: b) :: bs

theorem sections_ne_nil (ls : List Line) : sections header ls ≠ [] := by
  induction ls with
  | nil => exact List.cons_ne_nil _ _
  | cons l ls ih =>
    rw [sections]
    split
    · next h => exact absurd h ih
    · split <;> exact List.cons_ne_nil _ _

variable {header}

/-- Entries before a header belong to what stands before. -/
theorem sections_append {body : List Line} (hbody : ∀ l ∈ body, header l = false) (ls : List Line)
    {b : List Line} {bs : List (List Line)} (h : sections header ls = b :: bs) :
    sections header (body ++ ls) = (body ++ b) :: bs := by
  induction body with
  | nil => exact h
  | cons l body ih =>
    rw [List.cons_append, sections, ih fun l' hl' => hbody l' (List.mem_cons_of_mem l hl')]
    simp [hbody l List.mem_cons_self]

/-- **Blocks that begin with their only header are read back.** -/
theorem sections_flatten {bs : List (List Line)}
    (h : ∀ b ∈ bs, ∃ l body, b = l :: body ∧ header l = true ∧ ∀ l' ∈ body, header l' = false) :
    sections header bs.flatten = [] :: bs := by
  induction bs with
  | nil => rfl
  | cons b bs ih =>
    obtain ⟨l, body, rfl, hl, hbody⟩ := h b List.mem_cons_self
    have hrest := ih fun b' hb' => h b' (List.mem_cons_of_mem _ hb')
    rw [List.flatten_cons, List.cons_append, sections, sections_append hbody _ hrest]
    simp [hl]

/-- No entry is lost. -/
theorem flatten_sections (ls : List Line) : (sections header ls).flatten = ls := by
  induction ls with
  | nil => rfl
  | cons l ls ih =>
    rw [sections]
    split
    · next h => exact absurd h (sections_ne_nil header ls)
    · next b bs h =>
      rw [h] at ih
      split <;> simp [← ih]

end Sections

end Formats
