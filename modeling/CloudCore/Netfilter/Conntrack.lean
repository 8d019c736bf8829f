import Mathlib.Data.List.Basic
import Mathlib.Data.Nat.Notation

/-!
# Connection tracking

A connection is known by the tuple of its first packet.  A packet belongs to it in the direction of
that packet or in the other, and an ICMP error belongs to the connection of the packet that it
quotes.  A connection is established once it has been answered; the answer is already part of it.

## Main definitions

* `Tuple`, `Conn`, `Seen` — the key of a packet, a connection, and what is tracked of a packet.
* `ctState` — `ct state`.
* `track` — the table behind an accepted packet.

## Main results

* `exists_of_established`, `exists_of_related` — such a packet belongs to a connection.
* `mem_track` — a connection was known, or is that of the new packet.
-/

namespace Netfilter

/-- Addresses and ports; `kind` is the rest of the key. -/
structure Tuple (K A : Type) where
  kind : K
  src : A
  sport : ℕ
  dst : A
  dport : ℕ
  deriving DecidableEq

/-- The tuple of an answer. -/
def Tuple.reply {K A : Type} (t : Tuple K A) : Tuple K A :=
  ⟨t.kind, t.dst, t.dport, t.src, t.sport⟩

/-- A connection with its opener. -/
structure Conn (K A O : Type) where
  orig : Tuple K A
  opener : O
  replied : Bool
  deriving DecidableEq

/-- A packet, and the one that it quotes if it is an ICMP error. -/
structure Seen (K A : Type) where
  tuple : Tuple K A
  quotes : Option (Tuple K A) := none
  deriving DecidableEq

inductive CtState where
  | new
  | established
  | related
  | invalid
  deriving DecidableEq

section

variable {K A O : Type} [DecidableEq K] [DecidableEq A]

/-- The tuple is one of the connection's, in either direction. -/
def Conn.matches (c : Conn K A O) (t : Tuple K A) : Bool := c.orig == t || c.orig.reply == t

/-- The packet belongs to the connection. -/
def Conn.Belongs (c : Conn K A O) (p : Seen K A) : Prop :=
  c.matches (p.quotes.getD p.tuple) = true

/-- `ct state`.  An error concerns a connection only where it goes to the sender of the packet that
it quotes. -/
def ctState (cs : List (Conn K A O)) (p : Seen K A) : CtState :=
  match p.quotes with
  | some q => if q.src = p.tuple.dst ∧ cs.any (·.matches q) then .related else .invalid
  | none =>
    match cs.find? (·.matches p.tuple) with
    | some c => if c.replied || c.orig.reply == p.tuple then .established else .new
    | none => .new

/-- The table behind an accepted packet. -/
def track (opener : O) (cs : List (Conn K A O)) (p : Seen K A) : List (Conn K A O) :=
  match p.quotes with
  | some _ => cs
  | none =>
    if cs.any (·.matches p.tuple) then
      cs.map fun c => if c.orig.reply = p.tuple then { c with replied := true } else c
    else ⟨p.tuple, opener, false⟩ :: cs

variable {cs : List (Conn K A O)} {p : Seen K A} {opener : O} {c : Conn K A O}

theorem matches_iff {t : Tuple K A} : c.matches t = true ↔ c.orig = t ∨ c.orig.reply = t := by
  simp [Conn.matches]

theorem exists_of_established (h : ctState cs p = .established) :
    p.quotes = none ∧ ∃ c ∈ cs, c.matches p.tuple = true := by
  unfold ctState at h
  split at h
  · split at h <;> cases h
  · next hquotes =>
    split at h
    · next c hc => exact ⟨hquotes, c, List.mem_of_find?_eq_some hc, by simpa using List.find?_some hc⟩
    · cases h

theorem exists_of_related (h : ctState cs p = .related) :
    ∃ q, p.quotes = some q ∧ q.src = p.tuple.dst ∧ ∃ c ∈ cs, c.matches q = true := by
  unfold ctState at h
  split at h
  · next q hq =>
    split at h
    · next hany => exact ⟨q, hq, hany.1, by simpa using hany.2⟩
    · cases h
  · split at h
    · split at h <;> cases h
    · cases h

/-- An ICMP error opens nothing. -/
theorem quotes_of_new (h : ctState cs p = .new) : p.quotes = none := by
  unfold ctState at h
  split at h
  · split at h <;> cases h
  · assumption

/-- **A connection in the table was there, or is that of the new packet.** -/
theorem mem_track (h : c ∈ track opener cs p) :
    (∃ d ∈ cs, d.orig = c.orig ∧ d.opener = c.opener) ∨
      c = ⟨p.tuple, opener, false⟩ ∧ ctState cs p = .new := by
  unfold track at h
  split at h
  · exact .inl ⟨c, h, rfl, rfl⟩
  · next hquotes =>
    split at h
    · obtain ⟨d, hd, rfl⟩ := List.mem_map.mp h
      refine .inl ⟨d, hd, ?_⟩
      split <;> exact ⟨rfl, rfl⟩
    · next hnone =>
      obtain rfl | h := List.mem_cons.mp h
      · refine .inr ⟨rfl, ?_⟩
        have hfind : cs.find? (·.matches p.tuple) = none := by
          rw [List.find?_eq_none]
          intro d hd hmatch
          exact hnone (List.any_eq_true.mpr ⟨d, hd, hmatch⟩)
        unfold ctState
        rw [hquotes]
        simp only [hfind]
      · exact .inl ⟨c, h, rfl, rfl⟩

/-! ### A connection that begins -/

section

variable (hquotes : p.quotes = none)

include hquotes

theorem ctState_of_unknown (h : ∀ c ∈ cs, c.matches p.tuple = false) : ctState cs p = .new := by
  have hfind : cs.find? (·.matches p.tuple) = none := by
    rw [List.find?_eq_none]
    simpa using h
  unfold ctState
  rw [hquotes]
  simp only [hfind]

theorem track_of_unknown (h : ∀ c ∈ cs, c.matches p.tuple = false) :
    track opener cs p = ⟨p.tuple, opener, false⟩ :: cs := by
  have hany : cs.any (·.matches p.tuple) = false := by
    rw [List.any_eq_false]
    simpa using h
  unfold track
  rw [hquotes]
  simp only [hany, Bool.false_eq_true, if_false]

/-- An answer is part of the connection that it answers. -/
theorem ctState_answer (h : c.orig.reply = p.tuple) : ctState (c :: cs) p = .established := by
  have hmatch : c.matches p.tuple = true := matches_iff.mpr (.inr h)
  unfold ctState
  rw [hquotes]
  simp [hmatch, h]

theorem track_answer (h : c.orig.reply = p.tuple) :
    ∃ rest, track opener (c :: cs) p = { c with replied := true } :: rest := by
  have hmatch : c.matches p.tuple = true := matches_iff.mpr (.inr h)
  unfold track
  rw [hquotes]
  simp [hmatch, h]

theorem ctState_replied (hreplied : c.replied = true) (h : c.orig = p.tuple) :
    ctState (c :: cs) p = .established := by
  have hmatch : c.matches p.tuple = true := matches_iff.mpr (.inl h)
  unfold ctState
  rw [hquotes]
  simp [hmatch, hreplied]

end

end

end Netfilter
