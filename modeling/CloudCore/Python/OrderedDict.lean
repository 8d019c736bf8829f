import Mathlib.Data.List.Basic
import Mathlib.Data.List.Nodup

/-!
# Ordered dictionaries

`collections.OrderedDict`, as the list of its items from the oldest to the newest.

## Main definitions

* `setLast`, `modify`, `keepLast` — the ways a bounded record of the latest items is changed.
* `evicted` — what `keepLast` drops.

## Main results

* `lookup_setLast_self`, `lookup_setLast_of_ne`, `lookup_modify_self`, `lookup_modify_of_ne`,
  `lookup_keepLast` — what is found after a change.
* `lookup_of_mem`, `mem_of_lookup` — what is found of what is there.
-/

namespace OrderedDict

variable {κ ν : Type} [DecidableEq κ] {d : List (κ × ν)} {k k' : κ} {v : ν}

/-- `d[k] = v; d.move_to_end(k)`. -/
def setLast (d : List (κ × ν)) (k : κ) (v : ν) : List (κ × ν) := d.filter (·.1 ≠ k) ++ [(k, v)]

/-- The value at a key is changed in place. -/
def modify (d : List (κ × ν)) (k : κ) (f : ν → ν) : List (κ × ν) :=
  d.map fun e => if e.1 = k then (e.1, f e.2) else e

/-- `while len(d) > n: d.popitem(last=False)`. -/
def keepLast (n : ℕ) (d : List (κ × ν)) : List (κ × ν) := d.drop (d.length - n)

/-- What goes when only the last `n` items are kept. -/
def evicted (n : ℕ) (d : List (κ × ν)) : List (κ × ν) := d.take (d.length - n)

theorem lookup_filter_self (d : List (κ × ν)) (k : κ) : (d.filter (·.1 ≠ k)).lookup k = none := by
  rw [List.lookup_eq_none_iff]
  intro e he
  have hne : e.1 ≠ k := of_decide_eq_true (List.mem_filter.mp he).2
  exact bne_iff_ne.mpr hne.symm

theorem lookup_filter_of_ne (d : List (κ × ν)) (h : k' ≠ k) :
    (d.filter (·.1 ≠ k)).lookup k' = d.lookup k' := by
  induction d with
  | nil => rfl
  | cons e d ih =>
    by_cases he : e.1 = k
    · have hk' : (k' == e.1) = false := beq_eq_false_iff_ne.mpr (he ▸ h)
      rw [List.filter_cons_of_neg (by simpa using he), ih, List.lookup_cons, hk']
    · rw [List.filter_cons_of_pos (by simpa using he), List.lookup_cons, List.lookup_cons, ih]

@[simp] theorem lookup_setLast_self (d : List (κ × ν)) (k : κ) (v : ν) :
    (setLast d k v).lookup k = some v := by
  rw [setLast, List.lookup_append, lookup_filter_self, Option.none_or, List.lookup_cons_self]

theorem lookup_setLast_of_ne (d : List (κ × ν)) (v : ν) (h : k' ≠ k) :
    (setLast d k v).lookup k' = d.lookup k' := by
  have hk' : (k' == k) = false := beq_eq_false_iff_ne.mpr h
  rw [setLast, List.lookup_append, lookup_filter_of_ne d h, List.lookup_cons, hk', List.lookup_nil,
    Option.or_none]

@[simp] theorem lookup_modify_self (d : List (κ × ν)) (k : κ) (f : ν → ν) :
    (modify d k f).lookup k = (d.lookup k).map f := by
  induction d with
  | nil => rfl
  | cons e d ih =>
    unfold modify at ih ⊢
    rw [List.map_cons, List.lookup_cons]
    by_cases he : e.1 = k
    · rw [if_pos he, ← he, List.lookup_cons_self, beq_self_eq_true]
      rfl
    · have hk : (k == e.1) = false := beq_eq_false_iff_ne.mpr (Ne.symm he)
      rw [if_neg he, List.lookup_cons, hk, ih]

theorem lookup_modify_of_ne (d : List (κ × ν)) (f : ν → ν) (h : k' ≠ k) :
    (modify d k f).lookup k' = d.lookup k' := by
  induction d with
  | nil => rfl
  | cons e d ih =>
    unfold modify at ih ⊢
    rw [List.map_cons, List.lookup_cons, List.lookup_cons, ih]
    by_cases he : e.1 = k
    · have hk' : (k' == e.1) = false := beq_eq_false_iff_ne.mpr (he ▸ h)
      rw [if_pos he, hk']
    · rw [if_neg he]

theorem mem_of_lookup (h : d.lookup k = some v) : (k, v) ∈ d := by
  obtain ⟨l₁, l₂, rfl, -⟩ := List.lookup_eq_some_iff.mp h
  exact List.mem_append_right _ List.mem_cons_self

/-- What is there is found, if it is there once. -/
theorem lookup_of_mem (hd : (d.map Prod.fst).Nodup) (h : (k, v) ∈ d) : d.lookup k = some v := by
  induction d with
  | nil => cases h
  | cons e d ih =>
    rw [List.map_cons, List.nodup_cons] at hd
    rcases List.mem_cons.mp h with rfl | h
    · exact List.lookup_cons_self
    · have hk : (k == e.1) = false := beq_eq_false_iff_ne.mpr fun heq =>
        hd.1 (heq ▸ List.mem_map_of_mem h)
      rw [List.lookup_cons, hk]
      exact ih hd.2 h

/-- What is not evicted is found where it was. -/
theorem lookup_keepLast (n : ℕ) (h : ∀ e ∈ evicted n d, e.1 ≠ k) :
    (keepLast n d).lookup k = d.lookup k := by
  have hnone : (evicted n d).lookup k = none :=
    List.lookup_eq_none_iff.mpr fun e he => bne_iff_ne.mpr (h e he).symm
  calc
    (keepLast n d).lookup k = ((evicted n d).lookup k).or ((keepLast n d).lookup k) := by
      rw [hnone, Option.none_or]
    _ = (evicted n d ++ keepLast n d).lookup k := List.lookup_append.symm
    _ = d.lookup k := by rw [evicted, keepLast, List.take_append_drop]

/-- The newest item is never evicted. -/
theorem lookup_keepLast_setLast {n : ℕ} (hn : 0 < n) (d : List (κ × ν)) (k : κ) (v : ν) :
    (keepLast n (setLast d k v)).lookup k = some v := by
  rw [keepLast, setLast, List.length_append, List.length_singleton,
    List.drop_append_of_le_length (by omega), List.lookup_append, List.lookup_cons_self]
  have hnone : ((d.filter (·.1 ≠ k)).drop ((d.filter (·.1 ≠ k)).length + 1 - n)).lookup k =
      none := by
    rw [List.lookup_eq_none_iff]
    intro e he
    have hne : e.1 ≠ k := of_decide_eq_true (List.mem_filter.mp (List.mem_of_mem_drop he)).2
    exact bne_iff_ne.mpr hne.symm
  rw [hnone, Option.none_or]

end OrderedDict
