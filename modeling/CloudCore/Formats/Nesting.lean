import Mathlib.Algebra.Group.Basic
import Mathlib.Data.Int.Notation
import Mathlib.Data.List.Infix
import Mathlib.Tactic.Linarith

/-!
# Nesting

A scanner goes through a text with a mode and counts how deep it is.  What it skips without going
below where it began is level; a block goes down at its end for the first time.

## Main definitions

* `modeAfter`, `depth` — the mode and the depth behind a text.
* `Level` — a text that ends where it began and is never below.
* `Block` — a text that is above where it began until its end.

## Main results

* `Level.append`, `Level.single`, `Level.enclosed` — how level texts are made.
* `Block.unique` — **a text begins with at most one block.**
-/

namespace Formats
namespace Nesting

variable {M A : Type} (step : M → A → M × ℤ)

def modeAfter (m : M) : List A → M
  | [] => m
  | a :: l => modeAfter (step m a).1 l

/-- How much deeper the scanner is behind a text. -/
def depth (m : M) : List A → ℤ
  | [] => 0
  | a :: l => (step m a).2 + depth (step m a).1 l

/-- A text that leads from `m` to `m'`, ends at the depth where it began and is never below. -/
structure Level (m : M) (l : List A) (m' : M) : Prop where
  mode : modeAfter step m l = m'
  ends : depth step m l = 0
  above : ∀ p, p <+: l → 0 ≤ depth step m p

/-- A text that is above where it began until its end. -/
structure Block (m : M) (l : List A) : Prop where
  ends : depth step m l = 0
  nonempty : l ≠ []
  above : ∀ p, p <+: l → p ≠ [] → p ≠ l → 1 ≤ depth step m p

variable {step} {m m' m'' : M} {a b : A} {l l' : List A}

@[simp] theorem modeAfter_append (m : M) (l l' : List A) :
    modeAfter step m (l ++ l') = modeAfter step (modeAfter step m l) l' := by
  induction l generalizing m with
  | nil => rfl
  | cons a l ih => exact ih _

@[simp] theorem depth_append (m : M) (l l' : List A) :
    depth step m (l ++ l') = depth step m l + depth step (modeAfter step m l) l' := by
  induction l generalizing m with
  | nil => rw [List.nil_append, depth, zero_add, modeAfter]
  | cons a l ih => rw [List.cons_append, depth, depth, modeAfter, ih, add_assoc]

/-- A prefix of two texts ends in the first one, or behind it. -/
theorem prefix_append_cases {p x y : List A} (h : p <+: x ++ y) :
    p <+: x ∨ ∃ q, q <+: y ∧ p = x ++ q := by
  obtain hp | ⟨q, rfl⟩ := List.prefix_or_prefix_of_prefix h (List.prefix_append x y)
  · exact .inl hp
  · exact .inr ⟨q, (List.prefix_append_right_inj x).mp h, rfl⟩

theorem Level.nil (m : M) : Level step m [] m where
  mode := rfl
  ends := rfl
  above p hp := by rw [List.prefix_nil.mp hp, depth]

theorem Level.append (h : Level step m l m') (h' : Level step m' l' m'') :
    Level step m (l ++ l') m'' where
  mode := by rw [modeAfter_append, h.mode, h'.mode]
  ends := by rw [depth_append, h.ends, h.mode, h'.ends, add_zero]
  above p hp := by
    obtain hp | ⟨q, hq, rfl⟩ := prefix_append_cases hp
    · exact h.above p hp
    · rw [depth_append, h.ends, h.mode, zero_add]
      exact h'.above q hq

/-- An element that does not change the depth. -/
theorem Level.single (h : step m a = (m', 0)) : Level step m [a] m' where
  mode := by rw [modeAfter, h, modeAfter]
  ends := by rw [depth, h, depth, add_zero]
  above p hp := by
    obtain rfl | hp : p = [] ++ [a] ∨ p <+: [] := List.prefix_concat_iff.mp hp
    · rw [List.nil_append, depth, h, depth, add_zero]
    · rw [List.prefix_nil.mp hp, depth]

theorem Level.cons (h : step m a = (m', 0)) (h' : Level step m' l m'') : Level step m (a :: l) m'' :=
  (Level.single h).append h'

/-- Elements that leave the mode and the depth alone. -/
theorem Level.of_forall (h : ∀ a ∈ l, step m a = (m, 0)) : Level step m l m := by
  induction l with
  | nil => exact .nil m
  | cons a l ih => exact .cons (h a List.mem_cons_self) (ih fun b hb => h b (List.mem_cons_of_mem _ hb))

/-- What stands between an element that goes down and one that goes up is above both. -/
theorem block_of_enclosed {m₁ m₂ : M} (ha : step m a = (m₁, 1)) (hl : Level step m₁ l m₂)
    (hb : step m₂ b = (m', -1)) : Block step m (a :: l ++ [b]) ∧ Level step m (a :: l ++ [b]) m' := by
  have hends : depth step m (a :: l ++ [b]) = 0 := by
    simp [depth, ha, hl.ends, hl.mode, hb]
  have habove : ∀ p, p <+: a :: l ++ [b] → p ≠ [] → p ≠ a :: l ++ [b] → 1 ≤ depth step m p := by
    intro p hp hne hproper
    cases p with
    | nil => exact absurd rfl hne
    | cons c p =>
      obtain ⟨rfl, hrest⟩ := List.cons_prefix_cons.mp hp
      obtain hwhole | hrest : p = l ++ [b] ∨ p <+: l := List.prefix_concat_iff.mp hrest
      · exact absurd (congrArg (c :: ·) hwhole) hproper
      · have hle := hl.above p hrest
        rw [depth, ha]
        show 1 ≤ 1 + depth step m₁ p
        omega
  refine ⟨⟨hends, by simp, habove⟩, ?_, hends, ?_⟩
  · simp [modeAfter, ha, hl.mode, hb]
  · intro p hp
    by_cases hne : p = []
    · rw [hne, depth]
    · by_cases hproper : p = a :: l ++ [b]
      · rw [hproper, hends]
      · exact le_trans (by decide) (habove p hp hne hproper)

/-- **A text begins with at most one block.** -/
theorem Block.unique {u : List A} (h : Block step m l) (h' : Block step m l') (hl : l <+: u)
    (hl' : l' <+: u) : l = l' := by
  by_contra hne
  obtain hle | hle := List.prefix_or_prefix_of_prefix hl hl'
  · have habove := h'.above l hle h.nonempty hne
    rw [h.ends] at habove
    exact absurd habove (by decide)
  · have habove := h.above l' hle h'.nonempty (Ne.symm hne)
    rw [h'.ends] at habove
    exact absurd habove (by decide)

end Nesting
end Formats
