import Mathlib.Data.List.Basic
import Mathlib.Data.Nat.Notation
import Mathlib.Tactic.Ring

/-!
# Binary formats

Numbers of a fixed width, least significant byte first, and readers that take bytes from the front of
what is left.

## Main definitions

* `toLe`, `ofLe` — the bytes of a number, and the number of bytes.
* `Reader` — a computation on the bytes that are left, which may fail.
* `Reads` — the reader takes exactly these bytes, whatever follows.
* `Stops` — the reader fails within these bytes, whatever follows.
* `times` — a reader some number of times.

## Main results

* `ofLe_toLe` — a number that has room comes back.
* `Reads.bind`, `Reads.bind_stops`, `Stops.bind` — one reader after another.
-/

namespace Formats
namespace Binary

/-- `n` bytes of `v`, the least significant one first. -/
def toLe : ℕ → ℕ → List UInt8
  | 0, _ => []
  | n + 1, v => UInt8.ofNat v :: toLe n (v / 256)

def ofLe : List UInt8 → ℕ
  | [] => 0
  | b :: bytes => b.toNat + 256 * ofLe bytes

@[simp] theorem length_toLe (n v : ℕ) : (toLe n v).length = n := by
  induction n generalizing v with
  | zero => rfl
  | succ n ih => rw [toLe, List.length_cons, ih]

theorem ofLe_toLe {n v : ℕ} (h : v < 256 ^ n) : ofLe (toLe n v) = v := by
  induction n generalizing v with
  | zero => rw [toLe, ofLe, Nat.lt_one_iff.mp h]
  | succ n ih =>
    have hrest : v / 256 < 256 ^ n := Nat.div_lt_of_lt_mul (by rwa [pow_succ, mul_comm] at h)
    rw [toLe, ofLe, ih hrest, UInt8.toNat_ofNat']
    exact Nat.mod_add_div v 256

section Reader

variable {ε α β : Type}

/-- A computation that takes bytes from the front of what is left. -/
abbrev Reader (ε α : Type) := StateT (List UInt8) (Except ε) α

/-- `r` takes exactly `bytes`. -/
def Reads (r : Reader ε α) (bytes : List UInt8) (a : α) : Prop :=
  ∀ rest, r (bytes ++ rest) = .ok (a, rest)

/-- `r` fails within `bytes`. -/
def Stops (r : Reader ε α) (bytes : List UInt8) (e : ε) : Prop :=
  ∀ rest, r (bytes ++ rest) = .error e

theorem Reads.pure (a : α) : Reads (pure a : Reader ε α) [] a := fun _ => rfl

/-- The rest of a computation sees what one reader has left. -/
theorem Reads.bind_eq {r : Reader ε α} {xs : List UInt8} {a : α} (h : Reads r xs a)
    (k : α → Reader ε β) (rest : List UInt8) : (r >>= k) (xs ++ rest) = k a rest := by
  change (r (xs ++ rest) >>= fun p => k p.1 p.2) = _
  rw [h]
  rfl

theorem Reads.bind {r : Reader ε α} {k : α → Reader ε β} {xs ys : List UInt8} {a : α} {b : β}
    (h : Reads r xs a) (hk : Reads (k a) ys b) : Reads (r >>= k) (xs ++ ys) b := by
  intro rest
  rw [List.append_assoc, h.bind_eq]
  exact hk rest

/-- A reader that needs nothing more than the one before it. -/
theorem Reads.bind_nil {r : Reader ε α} {k : α → Reader ε β} {xs : List UInt8} {a : α} {b : β}
    (h : Reads r xs a) (hk : Reads (k a) [] b) : Reads (r >>= k) xs b := by
  have hbind := h.bind hk
  rwa [List.append_nil] at hbind

theorem Reads.bind_stops {r : Reader ε α} {k : α → Reader ε β} {xs ys : List UInt8} {a : α} {e : ε}
    (h : Reads r xs a) (hk : Stops (k a) ys e) : Stops (r >>= k) (xs ++ ys) e := by
  intro rest
  rw [List.append_assoc, h.bind_eq]
  exact hk rest

theorem Stops.bind {r : Reader ε α} {k : α → Reader ε β} {xs : List UInt8} {e : ε}
    (h : Stops r xs e) (ys : List UInt8) : Stops (r >>= k) (xs ++ ys) e := by
  intro rest
  change (r (xs ++ ys ++ rest) >>= fun p => k p.1 p.2) = _
  rw [List.append_assoc, h]
  rfl

/-- The failure, whatever is left. -/
def fail (e : ε) : Reader ε α := fun _ => .error e

theorem Stops.fail (e : ε) (bytes : List UInt8) : Stops (fail e : Reader ε α) bytes e := fun _ => rfl

/-- A reader some number of times, for what it takes. -/
def times : ℕ → Reader ε Unit → Reader ε Unit
  | 0, _ => Pure.pure ()
  | n + 1, r => r >>= fun _ => times n r

end Reader

end Binary
end Formats
