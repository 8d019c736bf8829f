import Mathlib.Data.List.Basic
import Mathlib.Data.Nat.Notation

/-!
# Incremental parsers

A parser that is handed its input in pieces keeps what it cannot use yet.  Of what it has it takes
one item after another, until it needs more or fails.  If what is taken from some input is taken from
every input that begins so, the pieces do not matter.

## Main definitions

* `Parsed` — what the input so far leads to.
* `Parser` — a parser of one item, with the laws that make it incremental.
* `Parser.drain`, `Parser.feed`, `Parser.feedAll` — all the items of a buffer, and of pieces.

## Main results

* `Parser.drain_append` — what is taken from the first part is taken first.
* `Parser.feedAll_eq` — **pieces give what the whole gives.**
-/

namespace Formats

/-- What a parser makes of a buffer: it needs more, it fails, or it takes an item and leaves the
rest. -/
inductive Parsed (B S O ε : Type) where
  | more
  | fail (e : ε)
  | item (out : List O) (s : S) (rest : List B)

/-- A parser that takes one item from the front of a buffer. -/
structure Parser (B S O ε : Type) where
  next : S → List B → Parsed B S O ε
  /-- An item takes something. -/
  shorter : ∀ {s buf out s' rest}, next s buf = .item out s' rest → rest.length < buf.length
  /-- What comes behind an item does not matter for it. -/
  item_append : ∀ {s buf out s' rest}, next s buf = .item out s' rest → ∀ behind,
    next s (buf ++ behind) = .item out s' (rest ++ behind)
  fail_append : ∀ {s buf e}, next s buf = .fail e → ∀ behind, next s (buf ++ behind) = .fail e

namespace Parser

variable {B S O ε : Type} (p : Parser B S O ε)

/-- Every item of a buffer, and what is left; a failure loses them. -/
def drain (s : S) (buf : List B) : Except ε (List O × S × List B) :=
  match _h : p.next s buf with
  | .more => .ok ([], s, buf)
  | .fail e => .error e
  | .item out s' rest => (drain s' rest).map fun r => (out ++ r.1, r.2)
termination_by buf.length
decreasing_by exact p.shorter _h

/-- The items that another piece completes. -/
def feed (x : S × List B) (piece : List B) : Except ε (List O × S × List B) :=
  p.drain x.1 (x.2 ++ piece)

/-- The items of all the pieces. -/
def feedAll (x : S × List B) : List (List B) → Except ε (List O × S × List B)
  | [] => .ok ([], x)
  | piece :: pieces => do
    let r ← p.feed x piece
    let r' ← feedAll r.2 pieces
    pure (r.1 ++ r'.1, r'.2)

variable {p} {s s' : S} {buf rest behind : List B} {out : List O} {e : ε}

theorem drain_more (h : p.next s buf = .more) : p.drain s buf = .ok ([], s, buf) := by
  rw [drain]
  split
  · rfl
  · next e he => cases he.symm.trans h
  · next hitem => cases hitem.symm.trans h

theorem drain_fail (h : p.next s buf = .fail e) : p.drain s buf = .error e := by
  rw [drain]
  split
  · next hmore => cases hmore.symm.trans h
  · next he => cases he.symm.trans h; rfl
  · next hitem => cases hitem.symm.trans h

theorem drain_item (h : p.next s buf = .item out s' rest) :
    p.drain s buf = (p.drain s' rest).map fun r => (out ++ r.1, r.2) := by
  rw [drain]
  split
  · next hmore => cases hmore.symm.trans h
  · next he => cases he.symm.trans h
  · next hitem => cases hitem.symm.trans h; rfl

/-- **What is taken from the first part is taken first**, and what fails there fails whatever comes
behind. -/
theorem drain_append (s : S) (buf behind : List B) :
    p.drain s (buf ++ behind) = p.drain s buf >>= fun r =>
      (p.drain r.2.1 (r.2.2 ++ behind)).map fun r' => (r.1 ++ r'.1, r'.2) := by
  fun_induction p.drain s buf with
  | case1 s buf hnext =>
    show _ = (p.drain s (buf ++ behind)).map _
    cases p.drain s (buf ++ behind) <;> rfl
  | case2 s buf e hnext => exact drain_fail (p.fail_append hnext behind)
  | case3 s buf first t left hnext ih =>
    rw [drain_item (p.item_append hnext behind), ih]
    cases p.drain t left with
    | error e => rfl
    | ok r =>
      show ((p.drain r.2.1 (r.2.2 ++ behind)).map _).map _ = (p.drain r.2.1 (r.2.2 ++ behind)).map _
      cases p.drain r.2.1 (r.2.2 ++ behind) with
      | error e => rfl
      | ok r' => simp [Except.map]

/-- What is left gives nothing more. -/
theorem drain_rest (h : p.drain s buf = .ok (out, s', rest)) : p.drain s' rest = .ok ([], s', rest) := by
  fun_induction p.drain s buf generalizing out with
  | case1 s buf hnext =>
    cases h
    exact drain_more hnext
  | case2 => cases h
  | case3 s buf first t left hnext ih =>
    cases hrest : p.drain t left with
    | error e =>
      rw [hrest] at h
      cases h
    | ok r =>
      obtain ⟨later, t', left'⟩ := r
      rw [hrest] at h
      obtain ⟨rfl, rfl, rfl⟩ := by simpa [Except.map] using h
      exact ih hrest

/-- **Pieces give what the whole gives.** -/
theorem feedAll_eq (pieces : List (List B)) (h : p.drain s buf = .ok ([], s, buf)) :
    p.feedAll (s, buf) pieces = p.drain s (buf ++ pieces.flatten) := by
  induction pieces generalizing s buf with
  | nil => rw [List.flatten_nil, List.append_nil, h]; rfl
  | cons piece pieces ih =>
    rw [List.flatten_cons, ← List.append_assoc, drain_append, feedAll, feed]
    cases hpiece : p.drain s (buf ++ piece) with
    | error e => rfl
    | ok r =>
      obtain ⟨out, t, left⟩ := r
      show (p.feedAll (t, left) pieces >>= fun r' => pure (out ++ r'.1, r'.2)) =
        (p.drain t (left ++ pieces.flatten)).map fun r' => (out ++ r'.1, r'.2)
      rw [ih (drain_rest hpiece)]
      cases p.drain t (left ++ pieces.flatten) <;> rfl

end Parser

end Formats
