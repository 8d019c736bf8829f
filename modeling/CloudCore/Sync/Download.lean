import Mathlib.Data.Int.Order.Basic
import Mathlib.Data.List.Basic
import Mathlib.Tactic.Linarith

/-!
# A verified download

`download` of `sync-package-repo.py`.  What the source answers and what the disk does are arguments,
and so is the hash.

## Main definitions

* `Attempt` — what becomes of one request, down to the writes to the `.part` file.
* `download` — the code.
* `Clean` — a disk on which what fails stores nothing.

## Main results

* `requests_le` — at most six requests.
* `Progress.Honest` — the file on the disk is what has been hashed and counted.
* `download_right` — **on a clean disk only the right file is moved into place.**
-/

namespace CloudCore
namespace SyncRepo

abbrev Bytes := List UInt8

/-- What becomes of `out.write(chunk)`: `OSError`, when some first bytes of the chunk are stored, or
nothing of note. -/
inductive Write where
  | stored
  | failed (n : ℕ)
  deriving DecidableEq

/-- What becomes of a request. -/
inductive Attempt where
  /-- No response, or the `.part` file cannot be opened: an error that is caught. -/
  | refused
  /-- An exception that is not. -/
  | raised
  /-- A response with the chunks that are read of it.  At its end the connection may be closed or
  dropped, or something raises that is not caught; `kept` is how much of what was written here is
  still there when closing the file fails. -/
  | response (status : ℕ) (reads : List (Bytes × Write)) (uncaught : Bool) (kept : Option ℕ)
  deriving DecidableEq

/-- The surroundings of a download. -/
structure Env where
  attempts : ℕ → Attempt
  /-- The folder can be made, and the `.part` file read and deleted. -/
  ready : Bool
  /-- `os.replace` works. -/
  moves : Bool

inductive Failure where
  | osError
  | uncaught
  deriving DecidableEq

/-- The `.part` file, what has been hashed of it, and `have`. -/
structure Progress where
  part : Bytes
  hashed : Bytes
  got : ℕ
  deriving DecidableEq

/-- The loop that reads a response. -/
def readAll : List (Bytes × Write) → Progress → Progress
  | [], s => s
  | (chunk, w) :: reads, s =>
    if chunk = [] then s
    else
      match w with
      | .failed n => { s with part := s.part ++ chunk.take n }
      | .stored => readAll reads ⟨s.part ++ chunk, s.hashed ++ chunk, s.got + chunk.length⟩

/-- The file is closed: of what is behind `before` some may be lost. -/
def closed (before : Bytes) (kept : Option ℕ) (s : Progress) : Progress :=
  match kept with
  | none => s
  | some k => { s with part := before ++ (s.part.drop before.length).take k }

/-- One request, and whether an exception gets out. -/
def attempt (a : Attempt) (s : Progress) : Progress × Bool :=
  match a with
  | .refused => (s, false)
  | .raised => (s, true)
  | .response status reads uncaught kept =>
    if s.got ≠ 0 ∧ status ≠ 206 then (s, false)
    else (closed s.part kept (readAll reads s), uncaught)

/-- The loop over the requests: the progress, the number of requests, and what is raised. -/
def rounds (env : Env) (size : ℤ) (attempts : ℕ) (s : Progress) : Progress × ℕ × Option Failure :=
  if s.got < size then
    let r := attempt (env.attempts attempts) s
    if r.2 then (r.1, 1, some .uncaught)
    else if r.1.got < size then
      if 5 < attempts + 1 then (r.1, 1, some .osError)
      else
        let later := rounds env size (attempts + 1) r.1
        (later.1, later.2.1 + 1, later.2.2)
    else (r.1, 1, none)
  else (s, 0, none)
termination_by 6 - attempts

/-- What there is after a download. -/
structure Outcome where
  dest : Option Bytes
  part : Option Bytes
  requests : ℕ
  error : Option Failure
  deriving DecidableEq

variable {δ : Type} [DecidableEq δ] (sha256 : Bytes → δ)

/-- The check and the move at the end. -/
def finish (env : Env) (size : ℤ) (sha : δ) (dest : Option Bytes) (s : Progress) (requests : ℕ) :
    Outcome :=
  if (s.got : ℤ) ≠ size ∨ sha256 s.hashed ≠ sha then ⟨dest, none, requests, some .osError⟩
  else if env.moves then ⟨some s.part, none, requests, none⟩
  else ⟨dest, some s.part, requests, some .osError⟩

/-- The `.part` file that a download goes on with. -/
def start (size : ℤ) (part : Option Bytes) : Progress :=
  if size < (part.getD []).length then ⟨[], [], 0⟩
  else ⟨part.getD [], part.getD [], (part.getD []).length⟩

/-- `download`.  A `.part` file that is too long is deleted, which needs one. -/
def download (env : Env) (size : ℤ) (sha : δ) (dest part : Option Bytes) : Outcome :=
  if !env.ready || (part.isNone && decide (size < 0)) then ⟨dest, part, 0, some .osError⟩
  else
    let r := rounds env size 0 (start size part)
    match r.2.2 with
    | some e => ⟨dest, some r.1.part, r.2.1, some e⟩
    | none => finish sha256 env size sha dest r.1 r.2.1

/-- No failed write leaves anything of its chunk, and closing the file loses nothing. -/
def Attempt.Clean : Attempt → Prop
  | .response _ reads _ kept =>
    (∀ chunk n, (chunk, Write.failed n) ∈ reads → chunk.take n = []) ∧
      ∀ k, kept = some k → (reads.map fun r => r.1.length).sum ≤ k
  | _ => True

def Clean (env : Env) : Prop := ∀ n, (env.attempts n).Clean

/-- A file with the size and the hash of the index. -/
def Right (size : ℤ) (sha : δ) (content : Bytes) : Prop :=
  (content.length : ℤ) = size ∧ sha256 content = sha

/-! ### The requests -/

theorem rounds_requests (env : Env) (size : ℤ) {attempts : ℕ} (s : Progress) (h : attempts ≤ 5) :
    (rounds env size attempts s).2.1 + attempts ≤ 6 := by
  -- one request, and those of the attempts that remain
  fun_induction rounds env size attempts s with
  | case3 attempts s _ r _ _ hmore later ih =>
    have hle : later.2.1 + (attempts + 1) ≤ 6 := ih (by omega)
    show later.2.1 + 1 + attempts ≤ 6
    omega
  | case1 | case2 | case4 =>
    show 1 + _ ≤ 6
    omega
  | case5 =>
    show 0 + _ ≤ 6
    omega

/-- **At most six requests.** -/
theorem requests_le (env : Env) (size : ℤ) (sha : δ) (dest part : Option Bytes) :
    (download sha256 env size sha dest part).requests ≤ 6 := by
  have hrounds := rounds_requests env size (start size part) (Nat.zero_le 5)
  unfold download
  split
  · exact Nat.zero_le 6
  · dsimp only
    split
    · exact hrounds
    · unfold finish
      split
      · exact hrounds
      · split
        · exact hrounds
        · exact hrounds

/-! ### The file on the disk -/

/-- The file on the disk is what has been hashed and counted. -/
structure Progress.Honest (s : Progress) : Prop where
  hashed : s.part = s.hashed
  got : s.got = s.hashed.length

theorem start_honest (size : ℤ) (part : Option Bytes) : (start size part).Honest := by
  unfold start
  split
  · exact ⟨rfl, rfl⟩
  · exact ⟨rfl, rfl⟩

/-- Reading a response adds to the file, and what is added is hashed. -/
theorem readAll_honest {reads : List (Bytes × Write)} {s : Progress} (hs : s.Honest)
    (hclean : ∀ chunk n, (chunk, Write.failed n) ∈ reads → chunk.take n = []) :
    (readAll reads s).Honest ∧ ∃ added, (readAll reads s).part = s.part ++ added ∧
      added.length ≤ (reads.map fun r => r.1.length).sum := by
  induction reads generalizing s with
  | nil => exact ⟨hs, [], (List.append_nil _).symm, Nat.zero_le _⟩
  | cons r reads ih =>
    obtain ⟨chunk, w⟩ := r
    unfold readAll
    split
    · exact ⟨hs, [], (List.append_nil _).symm, Nat.zero_le _⟩
    · split
      · next n =>
        have hnil : chunk.take n = [] := hclean chunk n List.mem_cons_self
        rw [hnil, List.append_nil]
        exact ⟨hs, [], (List.append_nil _).symm, Nat.zero_le _⟩
      · have hnext : Progress.Honest ⟨s.part ++ chunk, s.hashed ++ chunk, s.got + chunk.length⟩ :=
          ⟨by rw [hs.hashed], by rw [hs.got, List.length_append]⟩
        obtain ⟨hhonest, added, hadded, hlength⟩ :=
          ih hnext fun c n hc => hclean c n (List.mem_cons_of_mem _ hc)
        refine ⟨hhonest, chunk ++ added, by rw [hadded, List.append_assoc], ?_⟩
        rw [List.length_append, List.map_cons, List.sum_cons]
        exact Nat.add_le_add_left hlength _

theorem attempt_honest {a : Attempt} {s : Progress} (ha : a.Clean) (hs : s.Honest) :
    (attempt a s).1.Honest := by
  cases a with
  | refused => exact hs
  | raised => exact hs
  | response status reads uncaught kept =>
    unfold attempt
    dsimp only
    split
    · exact hs
    · obtain ⟨hhonest, added, hadded, hlength⟩ := readAll_honest hs ha.1
      cases kept with
      | none => exact hhonest
      | some k =>
        -- what is kept is everything
        have hall : s.part ++ ((readAll reads s).part.drop s.part.length).take k =
            (readAll reads s).part := by
          have hk := ha.2 k rfl
          rw [hadded, List.drop_left, List.take_of_length_le (by omega)]
        refine ⟨?_, hhonest.got⟩
        show s.part ++ ((readAll reads s).part.drop s.part.length).take k = _
        rw [hall, hhonest.hashed]
        rfl

theorem rounds_honest {env : Env} {size : ℤ} {attempts : ℕ} {s : Progress} (hclean : Clean env)
    (hs : s.Honest) : (rounds env size attempts s).1.Honest := by
  fun_induction rounds env size attempts s with
  | case3 attempts s _ r _ _ _ later ih => exact ih (attempt_honest (hclean attempts) hs)
  | case1 attempts s _ r => exact attempt_honest (hclean attempts) hs
  | case2 attempts s _ r => exact attempt_honest (hclean attempts) hs
  | case4 attempts s _ r => exact attempt_honest (hclean attempts) hs
  | case5 => exact hs

/-- **On a clean disk only the right file is moved into place.** -/
theorem download_right {env : Env} {size : ℤ} {sha : δ} (dest part : Option Bytes)
    (hclean : Clean env) :
    ((download sha256 env size sha dest part).error = none →
      ∃ content, (download sha256 env size sha dest part).dest = some content ∧
        Right sha256 size sha content) ∧
    ((download sha256 env size sha dest part).error ≠ none →
      (download sha256 env size sha dest part).dest = dest) := by
  have hhonest : (rounds env size 0 (start size part)).1.Honest :=
    rounds_honest hclean (start_honest size part)
  unfold download
  split
  · exact ⟨fun h => (by cases h), fun _ => rfl⟩
  · dsimp only
    split
    · exact ⟨fun h => (by cases h), fun _ => rfl⟩
    · unfold finish
      split
      · exact ⟨fun h => (by cases h), fun _ => rfl⟩
      · next hgood =>
        split
        · refine ⟨fun _ => ⟨_, rfl, ?_⟩, fun h => absurd rfl h⟩
          rw [not_or, not_not, not_not] at hgood
          refine ⟨?_, ?_⟩
          · rw [hhonest.hashed, ← hhonest.got]
            exact hgood.1
          · rw [hhonest.hashed]
            exact hgood.2
        · exact ⟨fun h => (by cases h), fun _ => rfl⟩

end SyncRepo
end CloudCore
