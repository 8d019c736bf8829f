import Mathlib.Data.List.Perm.Basic
import Mathlib.Data.Nat.Notation

/-!
# `INSERT OR REPLACE`

A table with uniqueness constraints, as the list of its rows.  `INSERT OR REPLACE` first
deletes every row that violates a constraint together with the new one.  Which rows do is a
relation: rows with a `NULL` in a key conflict with none on that key, so the relation need
not be reflexive.

## Main definitions

* `insertOrReplace`, `replaceAll` — one row, and the rows of a query.

## Main results

* `replaceAll_eq` — what is left of the table, and the rows of the query.
* `replaceAll_perm_iff` — **when a merge only adds rows with new keys.**
-/

namespace Relational

variable {α : Type} {conflict : α → α → Prop} [DecidableRel conflict]

/-- `INSERT OR REPLACE`. -/
def insertOrReplace (conflict : α → α → Prop) [DecidableRel conflict] (rows : List α) (r : α) :
    List α :=
  rows.filter (fun d => ¬conflict r d) ++ [r]

/-- `INSERT OR REPLACE ... SELECT`. -/
def replaceAll (conflict : α → α → Prop) [DecidableRel conflict] (rows new : List α) : List α :=
  new.foldl (insertOrReplace conflict) rows

/-- Rows that violate no constraint among themselves push out rows of the table only. -/
theorem replaceAll_eq {new : List α} (hnew : new.Pairwise fun r r' => ¬conflict r' r)
    (rows : List α) :
    replaceAll conflict rows new = rows.filter (fun d => ∀ r ∈ new, ¬conflict r d) ++ new := by
  induction new generalizing rows with
  | nil => simp [replaceAll]
  | cons r new ih =>
    rw [List.pairwise_cons] at hnew
    have hkeep : [r].filter (fun d => ∀ r' ∈ new, ¬conflict r' d) = [r] := by
      rw [List.filter_singleton, decide_eq_true hnew.1]
      rfl
    calc
      replaceAll conflict rows (r :: new) = replaceAll conflict (insertOrReplace conflict rows r) new :=
        rfl
      _ = (insertOrReplace conflict rows r).filter (fun d => ∀ r' ∈ new, ¬conflict r' d) ++ new :=
        ih hnew.2 _
      _ = rows.filter (fun d => ∀ r' ∈ r :: new, ¬conflict r' d) ++ (r :: new) := by
        rw [insertOrReplace, List.filter_append, hkeep, List.filter_filter, List.append_assoc,
          List.singleton_append]
        refine congrArg (· ++ r :: new) (List.filter_congr fun d _ => ?_)
        simp [Bool.and_comm]

section Merge

variable {rows new : List α}

omit [DecidableRel conflict] in
/-- Rows that conflict are the same row. -/
theorem eq_of_conflict (h : rows.Pairwise fun r r' => ¬conflict r' r)
    (hsymm : ∀ r r', conflict r r' → conflict r' r) {r r' : α} (hr : r ∈ rows) (hr' : r' ∈ rows)
    (hc : conflict r r') : r = r' := by
  induction rows with
  | nil => cases hr
  | cons a rows ih =>
    rw [List.pairwise_cons] at h
    rcases List.mem_cons.mp hr with heq | htail
    · rcases List.mem_cons.mp hr' with heq' | htail'
      · rw [heq, heq']
      · exact absurd (heq ▸ hsymm _ _ hc) (h.1 r' htail')
    · rcases List.mem_cons.mp hr' with heq' | htail'
      · exact absurd (heq' ▸ hc) (h.1 r htail)
      · exact ih h.2 htail htail'

variable [DecidableEq α]

omit [DecidableRel conflict] in
/-- A row that conflicts with itself is there once at most. -/
theorem count_le_one {r : α} (h : rows.Pairwise fun r r' => ¬conflict r' r) (hr : conflict r r) :
    rows.count r ≤ 1 := by
  by_contra hcount
  have hsub : [r, r].Sublist rows := List.replicate_sublist_iff.mpr (by omega : 2 ≤ rows.count r)
  have hpair := h.sublist hsub
  rw [List.pairwise_cons] at hpair
  exact hpair.1 r (List.mem_singleton_self r) hr

omit [DecidableRel conflict] in
theorem count_eq_one {r : α} (h : rows.Pairwise fun r r' => ¬conflict r' r) (hr : conflict r r)
    (hmem : r ∈ rows) : rows.count r = 1 :=
  Nat.le_antisymm (count_le_one h hr) (List.count_pos_iff.mpr hmem)

theorem count_filter_of_pos {p : α → Prop} [DecidablePred p] {r : α} (h : p r) :
    (rows.filter p).count r = rows.count r :=
  List.count_filter (decide_eq_true h)

theorem count_filter_of_neg {p : α → Prop} [DecidablePred p] {r : α} (h : ¬p r) :
    (rows.filter p).count r = 0 :=
  List.count_eq_zero.mpr fun hmem => h (of_decide_eq_true (List.mem_filter.mp hmem).2)

variable {same : α → α → Prop} [DecidableRel same]

/-- **A merge adds exactly the rows with new keys, and leaves the others, iff every row that
conflicts with one of the table is that row, under the same key.** -/
theorem replaceAll_perm_iff (hsymm : ∀ r r', conflict r r' → conflict r' r)
    (hsame : ∀ r r', same r r' → conflict r r')
    (hrows : rows.Pairwise fun r r' => ¬conflict r' r)
    (hnew : new.Pairwise fun r r' => ¬conflict r' r) :
    (replaceAll conflict rows new).Perm (rows ++ new.filter fun r => ∀ d ∈ rows, ¬same r d) ↔
      ∀ r ∈ new, ∀ d ∈ rows, conflict r d → r = d ∧ same r d := by
  rw [replaceAll_eq hnew]
  constructor
  · intro hperm r hr d hd hc
    have hpushed : d ∉ rows.filter fun d => ∀ r ∈ new, ¬conflict r d := by
      intro hd'
      exact of_decide_eq_true (List.mem_filter.mp hd').2 r hr hc
    have hdnew : d ∈ new := by
      have hmem := hperm.mem_iff.mpr (List.mem_append_left _ hd)
      exact (List.mem_append.mp hmem).resolve_left hpushed
    obtain rfl : r = d := eq_of_conflict hnew hsymm hr hdnew hc
    refine ⟨rfl, ?_⟩
    -- else the row would have to be there twice
    by_contra hne
    have hcount := hperm.count_eq r
    have hfresh : r ∈ new.filter fun r => ∀ d ∈ rows, ¬same r d := by
      refine List.mem_filter.mpr ⟨hr, decide_eq_true fun d hd' hs => hne ?_⟩
      rwa [← eq_of_conflict hrows hsymm hd hd' (hsame _ _ hs)] at hs
    rw [List.count_append, List.count_append, List.count_eq_zero.mpr hpushed,
      count_eq_one hnew hc hr, count_eq_one hrows hc hd] at hcount
    have hpos : 0 < (new.filter fun r => ∀ d ∈ rows, ¬same r d).count r :=
      List.count_pos_iff.mpr hfresh
    omega
  · intro h
    rw [List.perm_iff_count]
    intro r
    rw [List.count_append, List.count_append]
    by_cases hr : r ∈ new
    · by_cases hd : r ∈ rows ∧ conflict r r
      · -- the row is on both sides
        have hpushed : (rows.filter fun d => ∀ r ∈ new, ¬conflict r d).count r = 0 :=
          count_filter_of_neg fun hall => hall r hr hd.2
        have hold : (new.filter fun r => ∀ d ∈ rows, ¬same r d).count r = 0 :=
          count_filter_of_neg fun hall => hall r hd.1 (h r hr r hd.1 hd.2).2
        rw [hpushed, hold, count_eq_one hnew hd.2 hr, count_eq_one hrows hd.2 hd.1]
      · have hnone : ∀ d ∈ rows, ¬conflict r d := by
          intro d hdr hc
          obtain ⟨rfl, -⟩ := h r hr d hdr hc
          exact hd ⟨hdr, hc⟩
        have hkept : (rows.filter fun d => ∀ r ∈ new, ¬conflict r d).count r = rows.count r := by
          by_cases hdr : r ∈ rows
          · refine count_filter_of_pos fun r' hr' hc => ?_
            obtain ⟨rfl, -⟩ := h r' hr' r hdr hc
            exact hnone r' hdr hc
          · rw [List.count_eq_zero.mpr hdr,
              List.count_eq_zero.mpr fun hmem => hdr (List.mem_filter.mp hmem).1]
        have hadded : (new.filter fun r => ∀ d ∈ rows, ¬same r d).count r = new.count r :=
          count_filter_of_pos fun d hdr hs => hnone d hdr (hsame _ _ hs)
        rw [hkept, hadded]
    · have hkept : (rows.filter fun d => ∀ r ∈ new, ¬conflict r d).count r = rows.count r := by
        by_cases hdr : r ∈ rows
        · refine count_filter_of_pos fun r' hr' hc => ?_
          obtain ⟨rfl, -⟩ := h r' hr' r hdr hc
          exact hr hr'
        · rw [List.count_eq_zero.mpr hdr,
            List.count_eq_zero.mpr fun hmem => hdr (List.mem_filter.mp hmem).1]
      rw [hkept, List.count_eq_zero.mpr hr,
        List.count_eq_zero.mpr fun hmem => hr (List.mem_filter.mp hmem).1]

end Merge

end Relational
