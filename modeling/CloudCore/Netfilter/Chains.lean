import Mathlib.Data.List.Basic
import Mathlib.Logic.Function.Basic

/-!
# Chains of a packet filter

A packet goes through the rules of a chain in order.  A rule that matches accepts it,
drops it, or sends it through another chain, from the end of which it comes back.  What
falls off the end of a base chain meets the policy of the chain.  Chains that send packets
round in circles have no verdict.

## Main definitions

* `Rule`, `Target`, `Verdict` — rules over any packets and any names of chains.
* `Walk` — what becomes of a packet that goes through some rules.
* `Table`, `Table.Accepts` — a base chain with its policy, and the chains it may use.
* `Table.first` — the verdict where no rule sends packets through another chain.

## Main results

* `Walk.det` — a packet has one fate.
* `walk_first` — among rules with verdicts the first that matches decides.
* `walk_whitelist` — rules that accept, and then one that drops everything, let through what
  one of them matches.
-/

namespace Netfilter

/-- What becomes of a packet. -/
inductive Verdict where
  | accept
  | drop
  deriving DecidableEq

/-- What a rule does with the packets it matches. -/
inductive Target (N : Type) where
  | verdict (v : Verdict)
  | jump (chain : N)
  deriving DecidableEq

structure Rule (P N : Type) where
  /-- The packets the rule matches. -/
  test : P → Bool
  target : Target N

variable {P N : Type}

/-- A packet goes through rules: it meets a verdict, or falls off the end. -/
inductive Walk (chains : N → Option (List (Rule P N))) (p : P) :
    List (Rule P N) → Option Verdict → Prop
  | nil : Walk chains p [] none
  | skip {r rules v} : r.test p = false → Walk chains p rules v → Walk chains p (r :: rules) v
  | verdict {r rules v} : r.test p = true → r.target = .verdict v →
      Walk chains p (r :: rules) (some v)
  | decided {r rules c body v} : r.test p = true → r.target = .jump c → chains c = some body →
      Walk chains p body (some v) → Walk chains p (r :: rules) (some v)
  | returned {r rules c body v} : r.test p = true → r.target = .jump c → chains c = some body →
      Walk chains p body none → Walk chains p rules v → Walk chains p (r :: rules) v

section

variable {chains : N → Option (List (Rule P N))} {p : P} {rules rest : List (Rule P N)}
  {v v' : Option Verdict}

/-- **A packet has one fate.** -/
theorem Walk.det (h : Walk chains p rules v) (h' : Walk chains p rules v') : v = v' := by
  induction h generalizing v' with
  | nil =>
    cases h'
    rfl
  | skip hr _ ih =>
    cases h' with
    | skip _ h' => exact ih h'
    | verdict hr' _ => rw [hr] at hr'; cases hr'
    | decided hr' => rw [hr] at hr'; cases hr'
    | returned hr' => rw [hr] at hr'; cases hr'
  | verdict hr ht =>
    cases h' with
    | skip hr' _ => rw [hr] at hr'; cases hr'
    | verdict _ ht' => rw [ht] at ht'; cases ht'; rfl
    | decided _ ht' => rw [ht] at ht'; cases ht'
    | returned _ ht' => rw [ht] at ht'; cases ht'
  | decided hr ht hc _ ih =>
    cases h' with
    | skip hr' _ => rw [hr] at hr'; cases hr'
    | verdict _ ht' => rw [ht] at ht'; cases ht'
    | decided _ ht' hc' hbody =>
      rw [ht] at ht'
      cases ht'
      rw [hc] at hc'
      cases hc'
      exact ih hbody
    | returned _ ht' hc' hbody =>
      rw [ht] at ht'
      cases ht'
      rw [hc] at hc'
      cases hc'
      cases ih hbody
  | returned hr ht hc _ _ ihbody ih =>
    cases h' with
    | skip hr' _ => rw [hr] at hr'; cases hr'
    | verdict _ ht' => rw [ht] at ht'; cases ht'
    | decided _ ht' hc' hbody =>
      rw [ht] at ht'
      cases ht'
      rw [hc] at hc'
      cases hc'
      cases ihbody hbody
    | returned _ _ _ _ h' => exact ih h'

/-- What falls through the first rules meets the others. -/
theorem Walk.append (h : Walk chains p rules none) (h' : Walk chains p rest v) :
    Walk chains p (rules ++ rest) v := by
  generalize hnone : (none : Option Verdict) = w at h
  induction h with
  | nil => exact h'
  | skip hr _ ih => exact .skip hr (ih hnone)
  | verdict => cases hnone
  | decided => cases hnone
  | returned hr ht hc hbody _ _ ih => exact .returned hr ht hc hbody (ih hnone)

/-- What meets a verdict does not see the rules behind. -/
theorem Walk.append_some {w : Verdict} (h : Walk chains p rules (some w)) :
    Walk chains p (rules ++ rest) (some w) := by
  generalize hsome : some w = v at h ⊢
  induction h with
  | nil => cases hsome
  | skip hr _ ih => exact .skip hr (ih hsome)
  | verdict hr ht => exact .verdict hr ht
  | decided hr ht hc hbody => exact .decided hr ht hc hbody
  | returned hr ht hc hbody _ _ ih => exact .returned hr ht hc hbody (ih hsome)

/-- What a list of rules that accept does. -/
theorem walk_accepts (h : ∀ r ∈ rules, r.target = .verdict .accept) :
    Walk chains p rules (if rules.any (·.test p) then some .accept else none) := by
  induction rules with
  | nil => exact .nil
  | cons r rules ih =>
    have hrest := ih fun r' hr' => h r' (List.mem_cons_of_mem r hr')
    rw [List.any_cons]
    by_cases hr : r.test p = true
    · rw [hr, Bool.true_or, if_pos rfl]
      exact .verdict hr (h r List.mem_cons_self)
    · rw [Bool.not_eq_true] at hr
      rw [hr, Bool.false_or]
      exact .skip hr hrest

/-- Rules that accept, and then one that drops everything. -/
theorem walk_whitelist {last : Rule P N} (h : ∀ r ∈ rules, r.target = .verdict .accept)
    (hall : last.test p = true) (hdrop : last.target = .verdict .drop) :
    Walk chains p (rules ++ [last]) (some (if rules.any (·.test p) then .accept else .drop)) := by
  have hrules : Walk chains p rules (if rules.any (·.test p) then some .accept else none) :=
    walk_accepts h
  split at hrules
  next hany =>
    rw [if_pos hany]
    exact hrules.append_some
  next hany =>
    rw [if_neg hany]
    exact hrules.append (.verdict hall hdrop)

/-- The verdict of a rule that has one. -/
def Target.verdict? : Target N → Option Verdict
  | .verdict v => some v
  | .jump _ => none

/-- **Among rules with verdicts the first that matches decides.** -/
theorem walk_first (h : ∀ r ∈ rules, r.target.verdict?.isSome = true) :
    Walk chains p rules ((rules.find? (·.test p)).bind (·.target.verdict?)) := by
  induction rules with
  | nil => exact .nil
  | cons r rules ih =>
    cases hr : r.test p with
    | true =>
      rw [List.find?_cons_of_pos (p := fun r : Rule P N => r.test p) hr, Option.bind_some]
      cases ht : r.target with
      | verdict w => exact .verdict hr ht
      | jump c =>
        have := h r List.mem_cons_self
        rw [ht] at this
        cases this
    | false =>
      rw [List.find?_cons_of_neg (p := fun r : Rule P N => r.test p) (by simp [hr])]
      exact .skip hr (ih fun r' hr' => h r' (List.mem_cons_of_mem r hr'))

end

/-- A base chain, and the chains it may use. -/
structure Table (P N : Type) where
  chains : N → Option (List (Rule P N))
  base : List (Rule P N)
  policy : Verdict

/-- A packet that goes through the base chain is accepted. -/
def Table.Accepts (t : Table P N) (p : P) : Prop :=
  ∃ v, Walk t.chains p t.base v ∧ v.getD t.policy = .accept

theorem Table.accepts_iff {t : Table P N} {p : P} {v : Option Verdict}
    (h : Walk t.chains p t.base v) : t.Accepts p ↔ v.getD t.policy = .accept := by
  constructor
  · rintro ⟨w, hw, haccept⟩
    rwa [h.det hw]
  · exact fun haccept => ⟨v, h, haccept⟩

/-- What the first rule that matches says, or the policy. -/
def Table.first (t : Table P N) (p : P) : Verdict :=
  ((t.base.find? (·.test p)).bind (·.target.verdict?)).getD t.policy

theorem Table.accepts_iff_first {t : Table P N} (h : ∀ r ∈ t.base, r.target.verdict?.isSome = true)
    (p : P) : t.Accepts p ↔ t.first p = .accept :=
  t.accepts_iff (walk_first h)

end Netfilter
