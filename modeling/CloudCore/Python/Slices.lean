import Mathlib.Data.List.Basic
import Mathlib.Data.Int.Notation

/-!
# Python's slices

`s[:i]` and `s[i:]`; a negative index counts from the end, and an index beyond the ends is cut.

## Main definitions

* `sliceTo`, `sliceFrom` — the slices.

## Main results

* `exists_between` — a beginning and an end that do not overlap, with what is between them.
-/

namespace Python

variable {α : Type*}

/-- The place of an index in a sequence. -/
def place (length : ℕ) (i : ℤ) : ℕ := if i < 0 then (length + i).toNat else i.toNat

/-- `s[:i]`. -/
def sliceTo (s : List α) (i : ℤ) : List α := s.take (place s.length i)

/-- `s[i:]`. -/
def sliceFrom (s : List α) (i : ℤ) : List α := s.drop (place s.length i)

theorem place_natCast (length n : ℕ) : place length n = n := by
  rw [place, if_neg (by omega), Int.toNat_natCast]

theorem place_neg (length : ℕ) {n : ℕ} (hn : 0 < n) : place length (-n) = length - n := by
  rw [place, if_pos (by omega)]
  omega

@[simp] theorem sliceTo_natCast (s : List α) (n : ℕ) : sliceTo s n = s.take n := by
  rw [sliceTo, place_natCast]

theorem sliceFrom_neg (s : List α) {n : ℕ} (hn : 0 < n) : sliceFrom s (-n) = s.drop (s.length - n) := by
  rw [sliceFrom, place_neg _ hn]

/-- **A beginning and an end that do not overlap**, with what is between them. -/
theorem exists_between {s : List α} {m n : ℕ} (hn : 0 < n) (h : m + n ≤ s.length) :
    ∃ a b c, s = a ++ b ++ c ∧ sliceTo s m = a ∧ sliceFrom s (-n) = c ∧ a.length = m ∧ c.length = n := by
  refine ⟨s.take m, (s.drop m).take (s.length - m - n), s.drop (s.length - n), ?_, sliceTo_natCast s m,
    sliceFrom_neg s hn, ?_, ?_⟩
  · have hrest : s.drop (s.length - n) = (s.drop m).drop (s.length - m - n) := by
      rw [List.drop_drop]
      congr 1
      omega
    rw [hrest, List.append_assoc, List.take_append_drop, List.take_append_drop]
  · rw [List.length_take]
    omega
  · rw [List.length_drop]
    omega

end Python
