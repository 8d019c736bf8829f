import Mathlib.Data.Rat.Floor
import Mathlib.Algebra.Order.Ring.Unbundled.Rat
import Mathlib.Tactic.Linarith

/-!
# Rounding in Python

`round` and `int` of a number, for exact rationals.

## Main definitions

* `roundHalfEven` — `round(q)`.
* `trunc` — `int(q)`.

## Main results

* `roundHalfEven_mono` — rounding keeps the order.
* `le_trunc_iff` — the integers up to a truncated number that is not negative.
-/

namespace Python

/-- `round(q)`: to the nearest integer, and to the even one of two. -/
def roundHalfEven (q : ℚ) : ℤ :=
  if q - ⌊q⌋ < 1 / 2 then ⌊q⌋
  else if 1 / 2 < q - ⌊q⌋ then ⌊q⌋ + 1
  else if ⌊q⌋ % 2 = 0 then ⌊q⌋
  else ⌊q⌋ + 1

/-- `int(q)`: towards zero. -/
def trunc (q : ℚ) : ℤ := if 0 ≤ q then ⌊q⌋ else ⌈q⌉

theorem floor_le_roundHalfEven (q : ℚ) : ⌊q⌋ ≤ roundHalfEven q := by
  unfold roundHalfEven
  split_ifs <;> omega

theorem roundHalfEven_le_floor_add_one (q : ℚ) : roundHalfEven q ≤ ⌊q⌋ + 1 := by
  unfold roundHalfEven
  split_ifs <;> omega

/-- Between two integers a larger number is not rounded to the smaller one. -/
theorem roundHalfEven_le_of_floor_eq {p q : ℚ} (h : p ≤ q) (hfloor : ⌊p⌋ = ⌊q⌋) :
    roundHalfEven p ≤ roundHalfEven q := by
  have hdiff : p - ⌊p⌋ ≤ q - ⌊q⌋ := by
    rw [hfloor]
    exact sub_le_sub_right h _
  unfold roundHalfEven
  rw [hfloor] at hdiff ⊢
  split_ifs <;> first | omega | linarith

theorem roundHalfEven_mono {p q : ℚ} (h : p ≤ q) : roundHalfEven p ≤ roundHalfEven q := by
  rcases lt_or_eq_of_le (Int.floor_le_floor h) with hlt | heq
  · calc roundHalfEven p ≤ ⌊p⌋ + 1 := roundHalfEven_le_floor_add_one p
      _ ≤ ⌊q⌋ := hlt
      _ ≤ roundHalfEven q := floor_le_roundHalfEven q
  · exact roundHalfEven_le_of_floor_eq h heq

theorem trunc_of_nonneg {q : ℚ} (h : 0 ≤ q) : trunc q = ⌊q⌋ := if_pos h

theorem le_trunc_iff {q : ℚ} (h : 0 ≤ q) {n : ℤ} : n ≤ trunc q ↔ (n : ℚ) ≤ q := by
  rw [trunc_of_nonneg h, Int.le_floor]

example : [roundHalfEven (5 / 2), roundHalfEven (7 / 2), roundHalfEven (-1 / 2)] = [2, 4, 0] := by
  with_unfolding_all decide

end Python
