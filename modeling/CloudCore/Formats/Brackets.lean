import Mathlib.Algebra.Group.Basic
import Mathlib.Data.Int.Notation
import Mathlib.Data.List.Infix
import Mathlib.Tactic.Linarith

/-!
# Brackets

A scan for the bracket that closes those which are open, over a text in which nothing else counts.

## Main definitions

* `rise` — how many more brackets a text opens than it closes.
* `matching` — what stands before the bracket that closes the open ones, and what stands behind it.
* `Even` — a text that closes what it opens, and no more.

## Main results

* `matching_eq_some_iff`, `matching_eq_none_iff` — **where the scan ends.**
-/

namespace Formats
namespace Brackets

section

variable {A : Type} {l inner rest : List A}

/-- The prefixes of a longer text. -/
theorem forall_prefix_cons {P : List A → Prop} {a : A} :
    (∀ p, p <+: a :: l → P p) ↔ P [] ∧ ∀ p, p <+: l → P (a :: p) := by
  constructor
  · exact fun h => ⟨h [] List.nil_prefix, fun p hp => h (a :: p) (List.cons_prefix_cons.mpr ⟨rfl, hp⟩)⟩
  · rintro ⟨hnil, hcons⟩ p hp
    cases p with
    | nil => exact hnil
    | cons b p =>
      obtain ⟨rfl, hrest⟩ := List.cons_prefix_cons.mp hp
      exact hcons p hrest

/-- What one more bracket changes. -/
theorem matching_cons_some (a : A) (f : Option (List A × List A)) :
    (f.map fun r => (a :: r.1, r.2)) = some (inner, rest) ↔
      ∃ inner', f = some (inner', rest) ∧ inner = a :: inner' := by
  cases f with
  | none => exact ⟨nofun, fun ⟨_, h, _⟩ => nomatch h⟩
  | some r =>
    obtain ⟨r₁, r₂⟩ := r
    rw [Option.map_some, Option.some.injEq, Prod.mk.injEq]
    constructor
    · rintro ⟨rfl, rfl⟩
      exact ⟨r₁, rfl, rfl⟩
    · rintro ⟨inner', h, rfl⟩
      obtain ⟨rfl, rfl⟩ := Prod.mk.inj (Option.some.inj h)
      exact ⟨rfl, rfl⟩

end

variable {A : Type} [DecidableEq A] (o c : A)

/-- How many more brackets are opened than closed. -/
def rise : List A → ℤ
  | [] => 0
  | a :: l => (if a = o then 1 else if a = c then -1 else 0) + rise l

/-- With `d` brackets open: what stands before the one that closes the last of them, and behind it. -/
def matching (d : ℕ) : List A → Option (List A × List A)
  | [] => none
  | a :: l =>
    if a = o then (matching (d + 1) l).map fun r => (a :: r.1, r.2)
    else if a = c then
      if d = 1 then some ([], l) else (matching (d - 1) l).map fun r => (a :: r.1, r.2)
    else (matching d l).map fun r => (a :: r.1, r.2)

/-- A text that closes what it opens, and no more. -/
structure Even (l : List A) : Prop where
  ends : rise o c l = 0
  above : ∀ p, p <+: l → 0 ≤ rise o c p

instance (l : List A) : Decidable (Even o c l) :=
  decidable_of_iff (rise o c l = 0 ∧ ∀ p ∈ l.inits, 0 ≤ rise o c p)
    ⟨fun h => ⟨h.1, fun p hp => h.2 p ((List.mem_inits ..).mpr hp)⟩,
      fun h => ⟨h.ends, fun p hp => h.above p ((List.mem_inits ..).mp hp)⟩⟩

variable {o c} {l inner rest : List A} {d : ℕ}

theorem rise_append (l l' : List A) : rise o c (l ++ l') = rise o c l + rise o c l' := by
  induction l with
  | nil => rw [List.nil_append, rise, zero_add]
  | cons a l ih => rw [List.cons_append, rise, rise, ih, add_assoc]

/-- One element closes the last bracket, or leaves some open. -/
theorem matching_cons (hd : 0 < d) (a : A) (l : List A) :
    (a = c ∧ d = 1 ∧ matching o c d (a :: l) = some ([], l) ∧ d + rise o c [a] = 0) ∨
      ∃ e : ℕ, 0 < e ∧ (a = c → o ≠ c → d ≠ 1) ∧ (∀ p, e + rise o c p = d + rise o c (a :: p)) ∧
        matching o c d (a :: l) = (matching o c e l).map fun r => (a :: r.1, r.2) := by
  rw [matching, rise, rise]
  split
  · next ha =>
    refine .inr ⟨d + 1, Nat.succ_pos d, fun hc hoc => absurd (ha.symm.trans hc) hoc, fun p => ?_, rfl⟩
    rw [rise, if_pos ha]
    omega
  · next ha =>
    split
    · next hc =>
      split
      · next hone => exact .inl ⟨hc, hone, rfl, by omega⟩
      · next hone =>
        refine .inr ⟨d - 1, by omega, fun _ _ => hone, fun p => ?_, rfl⟩
        rw [rise, if_neg ha, if_pos hc]
        omega
    · next hc =>
      refine .inr ⟨d, hd, fun h => absurd h hc, fun p => ?_, rfl⟩
      rw [rise, if_neg ha, if_neg hc]
      omega

/-- **The scan ends at the first bracket that closes one more than are open.** -/
theorem matching_eq_some_iff (hoc : o ≠ c) (hd : 0 < d) :
    matching o c d l = some (inner, rest) ↔
      l = inner ++ c :: rest ∧ d + rise o c inner = 1 ∧ ∀ p, p <+: inner → 1 ≤ d + rise o c p := by
  induction l generalizing d inner with
  | nil =>
    refine ⟨nofun, fun ⟨h, _⟩ => ?_⟩
    exact absurd h.symm (List.append_ne_nil_of_right_ne_nil _ (List.cons_ne_nil _ _))
  | cons a l ih =>
    obtain ⟨rfl, rfl, hm, hfirst⟩ | ⟨e, he, hopen, hrise, hm⟩ := matching_cons (o := o) (c := c) hd a l
    · rw [hm, Option.some.injEq, Prod.mk.injEq]
      constructor
      · rintro ⟨rfl, rfl⟩
        refine ⟨rfl, rfl, fun p hp => ?_⟩
        rw [List.prefix_nil.mp hp, rise]
        decide
      · rintro ⟨hl, -, habove⟩
        cases inner with
        | nil =>
          obtain ⟨-, rfl⟩ := List.cons.inj hl
          exact ⟨rfl, rfl⟩
        | cons b inner =>
          obtain ⟨rfl, -⟩ := List.cons.inj hl
          have hlast := habove [a] (List.cons_prefix_cons.mpr ⟨rfl, List.nil_prefix⟩)
          omega
    · rw [hm, matching_cons_some]
      constructor
      · rintro ⟨inner', h, rfl⟩
        obtain ⟨rfl, hends, habove⟩ := (ih he).mp h
        refine ⟨rfl, (hrise inner').symm.trans hends, forall_prefix_cons.mpr ⟨?_, fun p hp => ?_⟩⟩
        · rw [rise]
          omega
        · rw [← hrise]
          exact habove p hp
      · rintro ⟨hl, hends, habove⟩
        cases inner with
        | nil =>
          rw [rise] at hends
          exact absurd (by omega) (hopen (List.cons.inj hl).1 hoc)
        | cons b inner =>
          obtain ⟨rfl, rfl⟩ := List.cons.inj hl
          refine ⟨inner, (ih he).mpr ⟨rfl, (hrise inner).trans hends, fun p hp => ?_⟩, rfl⟩
          rw [hrise]
          exact (forall_prefix_cons.mp habove).2 p hp

/-- The scan runs to the end if some bracket stays open. -/
theorem matching_eq_none_iff (hd : 0 < d) :
    matching o c d l = none ↔ ∀ p, p <+: l → 1 ≤ d + rise o c p := by
  induction l generalizing d with
  | nil =>
    refine ⟨fun _ p hp => ?_, fun _ => rfl⟩
    rw [List.prefix_nil.mp hp, rise]
    omega
  | cons a l ih =>
    obtain ⟨-, -, hm, hfirst⟩ | ⟨e, he, -, hrise, hm⟩ := matching_cons (o := o) (c := c) hd a l
    · rw [hm]
      refine ⟨nofun, fun h => ?_⟩
      have hlast := h [a] (List.cons_prefix_cons.mpr ⟨rfl, List.nil_prefix⟩)
      omega
    · rw [hm, Option.map_eq_none_iff, ih he, forall_prefix_cons]
      simp only [hrise]
      refine ⟨fun h => ⟨?_, h⟩, fun h => h.2⟩
      rw [rise]
      omega

theorem matching_one_iff (hoc : o ≠ c) :
    matching o c 1 l = some (inner, rest) ↔ l = inner ++ c :: rest ∧ Even o c inner := by
  rw [matching_eq_some_iff hoc Nat.one_pos]
  refine and_congr_right fun _ => ?_
  constructor
  · rintro ⟨hends, habove⟩
    exact ⟨by omega, fun p hp => by have := habove p hp; omega⟩
  · rintro ⟨hends, habove⟩
    exact ⟨by omega, fun p hp => by have := habove p hp; omega⟩

end Brackets
end Formats
