import CloudCore.Python.Slices

/-!
# Trimming a prompt

`_fit` of `lfs_worker.py`: the user message is cut in its middle if it does not fit into the
context with the system text and the reply.  The product with `CHARS_PER_TOKEN`, one of floating
point, is a parameter.

## Main definitions

* `fit` — the message that is sent.
* `Fits` — it is the user's where that fits, and else its beginning and end, short enough.

## Main results

* `message_fits_iff` — the message fits unless it is cut to the floor of 2000 characters.
-/

namespace CloudCore
namespace Lfs
namespace WorkerFit

open Python

def marker : List Char := "\n\n[... cut to fit the model's context ...]\n\n".toList

theorem length_marker : marker.length = 44 := rfl

section

-- `int(tokens * CHARS_PER_TOKEN)`
variable (chars : ℤ → ℤ)

/-- What the context leaves to the two texts. -/
def budget (maxTokens nCtx : ℤ) : ℤ := chars (nCtx - maxTokens - 64)

/-- The first `room`. -/
def room (system : List Char) (maxTokens nCtx : ℤ) : ℤ := budget chars maxTokens nCtx - system.length

/-- The rest of `_fit`, for the room that is left in the end. -/
def cut (user : List Char) (room : ℤ) : List Char :=
  let head := (room - marker.length) * 2 / 3
  let tail := room - marker.length - head
  sliceTo user head ++ marker ++ sliceFrom user (-tail)

def fit (system user : List Char) (maxTokens nCtx : ℤ) : List Char :=
  let r := room chars system maxTokens nCtx
  if user.length ≤ r then user else cut user (if r < 2000 then 2000 else r)

/-- The message is the user's where that fits, and else its beginning and end around the marker,
shorter than it was and short enough. -/
structure Fits (system user : List Char) (maxTokens nCtx : ℤ) (r : List Char) : Prop where
  same : (system.length + user.length : ℤ) ≤ budget chars maxTokens nCtx → r = user
  shorter : ¬(system.length + user.length : ℤ) ≤ budget chars maxTokens nCtx →
    (∃ a b c, user = a ++ b ++ c ∧ r = a ++ marker ++ c) ∧ r.length < user.length ∧
      (system.length + r.length : ℤ) ≤ budget chars maxTokens nCtx

end

/-- Two thirds of what the marker leaves, and the rest. -/
theorem exists_parts {r : ℤ} (h : 2000 ≤ r) : ∃ head tail : ℕ, 0 < tail ∧ (head + tail + 44 : ℤ) = r ∧
    ∀ user, cut user r = sliceTo user head ++ marker ++ sliceFrom user (-tail) := by
  refine ⟨((r - 44) * 2 / 3).toNat, (r - 44 - (r - 44) * 2 / 3).toNat, by omega, by omega, fun user => ?_⟩
  have hhead : (((r - 44) * 2 / 3).toNat : ℤ) = (r - marker.length) * 2 / 3 := by
    rw [length_marker]
    omega
  have htail : ((r - 44 - (r - 44) * 2 / 3).toNat : ℤ) =
      r - marker.length - (r - marker.length) * 2 / 3 := by
    rw [length_marker]
    omega
  rw [cut, hhead, htail]

/-- A message that is longer than the room is cut to it. -/
theorem cut_spec {user : List Char} {r : ℤ} (hr : 2000 ≤ r) (hlong : r < user.length) :
    ∃ a b c, user = a ++ b ++ c ∧ cut user r = a ++ marker ++ c ∧ ((cut user r).length : ℤ) = r := by
  obtain ⟨head, tail, htail, hsum, hcut⟩ := exists_parts hr
  obtain ⟨a, b, c, huser, ha, hc, hlena, hlenc⟩ := exists_between htail (s := user) (m := head) (by omega)
  refine ⟨a, b, c, huser, by rw [hcut, ha, hc], ?_⟩
  rw [hcut, ha, hc, List.length_append, List.length_append, hlena, hlenc, length_marker]
  omega

/-- What the floor of the room leaves is longer than the message, or 2000 characters. -/
theorem length_cut_floor (user : List Char) :
    (cut user 2000).length = 2000 ∨ user.length < (cut user 2000).length := by
  have hcut : cut user 2000 = sliceTo user (1304 : ℕ) ++ marker ++ sliceFrom user (-(652 : ℕ)) := rfl
  rw [hcut, sliceTo_natCast, sliceFrom_neg _ (by decide), List.length_append, List.length_append,
    List.length_take, List.length_drop, length_marker]
  omega

/-- **A message fits unless it is cut to the floor of 2000 characters.** -/
theorem message_fits_iff (chars : ℤ → ℤ) (system user : List Char) (maxTokens nCtx : ℤ) :
    Fits chars system user maxTokens nCtx (fit chars system user maxTokens nCtx) ↔
      user.length ≤ room chars system maxTokens nCtx ∨ 2000 ≤ room chars system maxTokens nCtx := by
  have hbudget : (system.length + user.length : ℤ) ≤ budget chars maxTokens nCtx ↔
      user.length ≤ room chars system maxTokens nCtx := by
    rw [room]
    omega
  by_cases hshort : user.length ≤ room chars system maxTokens nCtx
  · -- it is sent as it is
    refine ⟨fun _ => .inl hshort, fun _ => ⟨fun _ => ?_, fun h => absurd (hbudget.mpr hshort) h⟩⟩
    rw [fit, if_pos hshort]
  · refine ⟨fun h => .inr ?_, fun h => ?_⟩
    · -- at the floor it is longer than the room, or than before
      by_contra hfloor
      have hfit : fit chars system user maxTokens nCtx = cut user 2000 := by
        rw [fit, if_neg hshort, if_pos (by omega)]
      obtain ⟨-, hlt, hle⟩ := h.shorter fun hle => hshort (hbudget.mp hle)
      rw [hfit] at hlt hle
      rw [room] at hfloor
      rcases length_cut_floor user with hlength | hlength <;> omega
    · have hroom : 2000 ≤ room chars system maxTokens nCtx := h.resolve_left hshort
      have hfit : fit chars system user maxTokens nCtx = cut user (room chars system maxTokens nCtx) := by
        rw [fit, if_neg hshort, if_neg (by omega)]
      have hlong : room chars system maxTokens nCtx < user.length := by omega
      obtain ⟨a, b, c, huser, hcut, hlength⟩ := cut_spec hroom hlong
      refine ⟨fun hle => absurd (hbudget.mp hle) hshort, fun _ => ⟨⟨a, b, c, huser, ?_⟩, ?_, ?_⟩⟩
      · rw [hfit, hcut]
      · rw [hfit]
        omega
      · rw [hfit, hlength, room]
        omega

/-- A context of 4096 tokens, with 1500 for the reply. -/
example : room (3 * ·) [] 1500 4096 = 7596 := rfl

/-- 1000 characters, for which 900 are left, become 1696. -/
theorem not_fits : ¬Fits (3 * ·) [] (List.replicate 1000 'x') 100 464
    (fit (3 * ·) [] (List.replicate 1000 'x') 100 464) := by
  have hlength : (List.replicate 1000 'x').length = 1000 := List.length_replicate
  generalize List.replicate 1000 'x' = user at hlength
  intro h
  have hroom : room (3 * ·) [] 100 464 = 900 := rfl
  have hbudget : budget (3 * ·) 100 464 = 900 := rfl
  have hfit : fit (3 * ·) [] user 100 464 = cut user 2000 := by
    rw [fit, hroom, if_neg (by omega), if_pos (by decide)]
  have hshorter := h.shorter
  rw [hfit, hbudget, List.length_nil] at hshorter
  obtain ⟨-, hlt, hle⟩ := hshorter (by omega)
  rcases length_cut_floor user with hcut | hcut <;> omega

end WorkerFit
end Lfs
end CloudCore
