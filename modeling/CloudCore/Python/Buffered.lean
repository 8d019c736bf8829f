import Mathlib.Data.List.Basic
import Mathlib.Data.Nat.Notation

/-!
# A buffered reader over a socket

`io.BufferedReader` over a socket, and `select` on that socket.  A read takes from the buffer what is
there; where there is nothing, it moves all that the socket holds into the buffer.  `select` knows of the
socket only.

## Main definitions

* `Reader`, `Reader.read1`, `Reader.ready` — the two layers, `read(1)` and `select`.
* `Counts` — how much the two layers hold, from how much has arrived alone.

## Main results

* `Reader.counts_turn` — the counts are those of the reader.
-/

namespace Python

structure Reader (α : Type*) where
  socket : List α
  buffer : List α
  closed : Bool

namespace Reader

variable {α : Type*}

def empty : Reader α := ⟨[], [], false⟩

/-- What has come in, and whether the other side has closed. -/
def receive (r : Reader α) (arrives : List α) (closes : Bool) : Reader α :=
  { r with socket := r.socket ++ arrives, closed := r.closed || closes }

/-- What `select` reports: there is something on the socket, if only its end. -/
def ready (r : Reader α) : Bool := !r.socket.isEmpty || r.closed

inductive Got (α : Type*) where
  | byte (b : α)
  | eof
  /-- There is nothing yet. -/
  | blocked

/-- `read(1)`. -/
def read1 (r : Reader α) : Got α × Reader α :=
  match r.buffer, r.socket with
  | b :: buffer, _ => (.byte b, { r with buffer := buffer })
  | [], b :: buffer => (.byte b, { r with socket := [], buffer := buffer })
  | [], [] => (if r.closed then .eof else .blocked, r)

/-- All that has come in and was not read. -/
def held (r : Reader α) : List α := r.buffer ++ r.socket

theorem held_receive (r : Reader α) (arrives : List α) (closes : Bool) :
    (r.receive arrives closes).held = r.held ++ arrives :=
  (List.append_assoc _ _ _).symm

theorem read1_cases (r : Reader α) :
    (∃ b r', r.read1 = (.byte b, r') ∧ r.held = b :: r'.held) ∨
      r.held = [] ∧ r.read1 = (if r.closed then .eof else .blocked, r) := by
  obtain ⟨socket, buffer, closed⟩ := r
  cases buffer with
  | cons b buffer => exact Or.inl ⟨b, _, rfl, rfl⟩
  | nil =>
    cases socket with
    | cons b buffer => exact Or.inl ⟨b, _, rfl, (List.append_nil _).symm⟩
    | nil => exact Or.inr ⟨rfl, rfl⟩

/-! ### Counting -/

/-- How much there is in the buffer and on the socket, and whether the other side has closed. -/
structure Counts where
  buffered : ℕ
  waiting : ℕ
  closed : Bool
  deriving DecidableEq

def counts (r : Reader α) : Counts := ⟨r.buffer.length, r.socket.length, r.closed⟩

/-- A turn of a loop that waits in `select` and reads one byte where something is ready: `n` is how much
has arrived meanwhile. -/
def Counts.turn (c : Counts) (n : ℕ) (closes : Bool) : Counts :=
  if c.waiting + n = 0 ∧ (c.closed || closes) = false then { c with closed := c.closed || closes }
  else if c.buffered ≠ 0 then ⟨c.buffered - 1, c.waiting + n, c.closed || closes⟩
  else ⟨c.waiting + n - 1, 0, c.closed || closes⟩

theorem ready_iff (r : Reader α) : r.ready = false ↔ r.socket = [] ∧ r.closed = false := by
  simp [ready]

/-- **The counts are those of the reader,** whatever the bytes are. -/
theorem counts_turn (r : Reader α) (arrives : List α) (closes : Bool) :
    r.counts.turn arrives.length closes =
      if (r.receive arrives closes).ready = false then (r.receive arrives closes).counts
      else (r.receive arrives closes).read1.2.counts := by
  obtain ⟨socket, buffer, closed⟩ := r
  have hidle : (socket.length + arrives.length = 0 ∧ (closed || closes) = false) ↔
      (receive ⟨socket, buffer, closed⟩ arrives closes).ready = false := by
    rw [ready_iff, ← List.length_append, List.length_eq_zero_iff]
    exact Iff.rfl
  simp only [Counts.turn, counts, hidle]
  split
  · next h =>
    obtain ⟨hnil, -⟩ := (ready_iff _).mp h
    obtain ⟨rfl, rfl⟩ := List.append_eq_nil_iff.mp hnil
    rfl
  · cases buffer with
    | cons b buffer => simp [receive, read1]
    | nil =>
      rw [← List.length_append, receive]
      cases socket ++ arrives with
      | nil => rfl
      | cons b l => rfl

/-- Where nothing is ready, the buffer is all that is held. -/
theorem held_of_not_ready {r : Reader α} (h : r.ready = false) : r.held = r.buffer := by
  rw [held, ((ready_iff r).mp h).1, List.append_nil]

end Reader

end Python
