import Mathlib.Data.List.Basic
import Mathlib.Order.Basic
import Mathlib.Order.Lattice

/-!
# `sorted(..., key=...)`

The stable sort by a key, and what a search finds in it.

## Main definitions

* `sortedBy` — `sorted(l, key=f)`.
* `lowest` — the first item with the least key.

## Main results

* `lowest_eq_some_iff` — which item that is.
* `find?_sortedBy` — **the first item of the sorted list that fits is the lowest one that fits.**
-/

namespace Python

variable {α κ : Type} [LinearOrder κ] (f : α → κ)

/-- `sorted(l, key=f)`. -/
def sortedBy (l : List α) : List α := l.mergeSort fun a b => f a ≤ f b

/-- The first item with the least key. -/
def lowest : List α → Option α
  | [] => none
  | a :: l =>
    match lowest l with
    | none => some a
    | some b => if f b < f a then some b else some a

theorem le_trans_key (a b c : α) (hab : decide (f a ≤ f b) = true) (hbc : decide (f b ≤ f c) = true) :
    decide (f a ≤ f c) = true :=
  decide_eq_true ((of_decide_eq_true hab).trans (of_decide_eq_true hbc))

theorem le_total_key (a b : α) : (decide (f a ≤ f b) || decide (f b ≤ f a)) = true := by
  rw [Bool.or_eq_true, decide_eq_true_eq, decide_eq_true_eq]
  exact le_total (f a) (f b)

variable {f} {l : List α} {a : α} {p : α → Bool}

theorem mem_sortedBy : a ∈ sortedBy f l ↔ a ∈ l := List.mem_mergeSort

theorem lowest_eq_none_iff : lowest f l = none ↔ l = [] := by
  cases l with
  | nil => exact ⟨fun _ => rfl, fun _ => rfl⟩
  | cons a l =>
    refine ⟨fun h => ?_, nofun⟩
    unfold lowest at h
    split at h
    · cases h
    · split at h <;> cases h

/-- Before the lowest item everything is higher, and behind it nothing is lower. -/
theorem lowest_eq_some_iff : lowest f l = some a ↔
    ∃ before after, l = before ++ a :: after ∧ (∀ b ∈ before, f a < f b) ∧ ∀ b ∈ after, f a ≤ f b := by
  induction l generalizing a with
  | nil => exact ⟨nofun, fun ⟨before, after, h, _⟩ => by simp at h⟩
  | cons x l ih =>
    unfold lowest
    constructor
    · intro h
      split at h
      · next hnone =>
        obtain rfl := Option.some.inj h
        obtain rfl := lowest_eq_none_iff.mp hnone
        exact ⟨[], [], rfl, nofun, nofun⟩
      · next b hb =>
        obtain ⟨before, after, rfl, hbefore, hafter⟩ := ih.mp hb
        split at h
        · next hlt =>
          obtain rfl := Option.some.inj h
          exact ⟨x :: before, after, rfl, List.forall_mem_cons.mpr ⟨hlt, hbefore⟩, hafter⟩
        · next hle =>
          obtain rfl := Option.some.inj h
          rw [not_lt] at hle
          refine ⟨[], before ++ b :: after, rfl, nofun, fun c hc => hle.trans ?_⟩
          rcases List.mem_append.mp hc with hc | hc
          · exact (hbefore c hc).le
          · rcases List.mem_cons.mp hc with rfl | hc
            · exact le_rfl
            · exact hafter c hc
    · rintro ⟨before, after, hl, hbefore, hafter⟩
      cases before with
      | nil =>
        obtain ⟨rfl, rfl⟩ := List.cons.inj hl
        split
        · rfl
        · next b hb =>
          obtain ⟨before', after', rfl, -⟩ := ih.mp hb
          have hle : f x ≤ f b := hafter b (List.mem_append_right _ List.mem_cons_self)
          rw [if_neg (not_lt.mpr hle)]
      | cons y before =>
        obtain ⟨rfl, rfl⟩ := List.cons.inj hl
        rw [List.forall_mem_cons] at hbefore
        rw [ih.mpr ⟨before, after, rfl, hbefore.2, hafter⟩]
        dsimp only
        rw [if_pos hbefore.1]

/-- **The first item of the sorted list that fits is the lowest one that fits.** -/
theorem find?_sortedBy : (sortedBy f l).find? p = lowest f (l.filter p) := by
  induction l with
  | nil =>
    rw [sortedBy, List.mergeSort_nil]
    rfl
  | cons a l ih =>
    -- the item stands before those that are not lower
    obtain ⟨l₁, l₂, hcons, hl, hlow⟩ := List.mergeSort_cons (le_trans_key f) (le_total_key f) a l
    have hpair := List.pairwise_mergeSort (le_trans_key f) (le_total_key f) (a :: l)
    rw [hcons] at hpair
    rw [sortedBy, hl, List.find?_append] at ih
    rw [sortedBy, hcons, List.find?_append, List.find?_cons]
    cases hp : p a with
    | false => rw [List.filter_cons_of_neg (by rw [hp]; exact Bool.false_ne_true), ← ih]
    | true =>
      rw [List.filter_cons_of_pos hp, lowest, ← ih]
      cases hfirst : l₁.find? p with
      | some b =>
        have hlt : f b < f a := by
          have hnot := hlow b (List.mem_of_find?_eq_some hfirst)
          rw [Bool.not_eq_true', decide_eq_false_iff_not, not_le] at hnot
          exact hnot
        show some b = if f b < f a then some b else some a
        rw [if_pos hlt]
      | none =>
        show some a = match l₂.find? p with
          | none => some a
          | some b => if f b < f a then some b else some a
        cases hsecond : l₂.find? p with
        | none => rfl
        | some b =>
          have hmem : b ∈ l₂ := List.mem_of_find?_eq_some hsecond
          have hle : f a ≤ f b := of_decide_eq_true
            ((List.pairwise_cons.mp (List.pairwise_append.mp hpair).2.1).1 b hmem)
          show some a = if f b < f a then some b else some a
          rw [if_neg (not_lt.mpr hle)]

end Python
