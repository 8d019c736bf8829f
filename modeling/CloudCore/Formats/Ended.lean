import Mathlib.Data.List.Basic
import Mathlib.Data.Nat.Notation

/-!
# Lines that have ended

What has arrived of a stream of lines: the lines that have ended, each with the sign that ends it, and
the beginning of one that has not.

## Main definitions

* `ended` — the lines that have ended.
* `IsLine` — one line, with its end.

## Main results

* `ended_flatten` — lines that are put together are found again.
* `ended_of_append` — what comes later changes no line that has ended.
-/

namespace Formats

variable {α : Type*} [DecidableEq α] (sep : α)

/-- The lines that have ended; `begun` is there of the first one. -/
def endedFrom : List α → List α → List (List α)
  | _, [] => []
  | begun, a :: l => if a = sep then (begun ++ [a]) :: endedFrom [] l else endedFrom (begun ++ [a]) l

/-- The lines that have ended. -/
def ended (l : List α) : List (List α) := endedFrom sep [] l

/-- One line, with its end. -/
def IsLine (l : List α) : Prop := ∃ x, sep ∉ x ∧ l = x ++ [sep]

variable {sep}

/-- What has no end belongs to the first line. -/
theorem endedFrom_append {x : List α} (hx : sep ∉ x) (begun l : List α) :
    endedFrom sep begun (x ++ l) = endedFrom sep (begun ++ x) l := by
  induction x generalizing begun with
  | nil => rw [List.nil_append, List.append_nil]
  | cons a x ih =>
    obtain ⟨ha, hx⟩ := List.ne_and_not_mem_of_not_mem_cons hx
    rw [List.cons_append, endedFrom, if_neg ha.symm, ih hx, List.append_assoc,
      List.singleton_append]

theorem ended_of_not_mem {x : List α} (hx : sep ∉ x) : ended sep x = [] := by
  rw [ended, ← List.append_nil x, endedFrom_append hx]
  rfl

theorem ended_line {l : List α} (hl : IsLine sep l) (r : List α) :
    ended sep (l ++ r) = l :: ended sep r := by
  obtain ⟨x, hx, rfl⟩ := hl
  rw [ended, List.append_assoc, endedFrom_append hx, List.nil_append, List.singleton_append, endedFrom,
    if_pos rfl]
  rfl

/-- **Lines that are put together are found again,** whatever follows. -/
theorem ended_flatten {ls : List (List α)} (hls : ∀ l ∈ ls, IsLine sep l) (r : List α) :
    ended sep (ls.flatten ++ r) = ls ++ ended sep r := by
  induction ls with
  | nil => rfl
  | cons l ls ih =>
    obtain ⟨hl, hls⟩ := List.forall_mem_cons.mp hls
    rw [List.flatten_cons, List.append_assoc, ended_line hl, ih hls, List.cons_append]

/-- What has arrived: lines, and the beginning of one. -/
theorem exists_ended (sep : α) (l : List α) :
    ∃ (ls : List (List α)) (r : List α), l = ls.flatten ++ r ∧ (∀ x ∈ ls, IsLine sep x) ∧ sep ∉ r := by
  induction l with
  | nil => exact ⟨[], [], rfl, nofun, List.not_mem_nil⟩
  | cons a l ih =>
    obtain ⟨ls, r, rfl, hls, hr⟩ := ih
    by_cases ha : a = sep
    · refine ⟨[a] :: ls, r, rfl, List.forall_mem_cons.mpr ⟨⟨[], List.not_mem_nil, ?_⟩, hls⟩, hr⟩
      rw [ha, List.nil_append]
    · cases ls with
      | nil =>
        refine ⟨[], a :: r, rfl, nofun, List.not_mem_cons_of_ne_of_not_mem (Ne.symm ha) hr⟩
      | cons x ls =>
        obtain ⟨⟨y, hy, rfl⟩, hrest⟩ := List.forall_mem_cons.mp hls
        refine ⟨(a :: y ++ [sep]) :: ls, r, rfl, List.forall_mem_cons.mpr ⟨⟨a :: y, ?_, rfl⟩, hrest⟩, hr⟩
        exact List.not_mem_cons_of_ne_of_not_mem (Ne.symm ha) hy

/-- **What comes later changes no line that has ended.** -/
theorem ended_of_append (l r : List α) : ended sep l <+: ended sep (l ++ r) := by
  obtain ⟨ls, x, rfl, hls, hx⟩ := exists_ended sep l
  rw [ended_flatten hls, ended_of_not_mem hx, List.append_nil, List.append_assoc, ended_flatten hls]
  exact List.prefix_append ls _

end Formats
