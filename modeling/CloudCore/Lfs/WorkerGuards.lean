import CloudCore.Lfs.DeletionGuard
import CloudCore.Lfs.WorkerPatterns
import Mathlib.Data.List.Induction

/-!
# The guards of a repair

A repair that the model proposes has commands to run first and, it may be, a text to run instead of
the step.  The guards of `run_task` look at the two as one text, one line after the other, and clear
one or both.

## Main definitions

* `Fix`, `guardFix` — a repair, and what the guards leave of it.
* `Fit` — what is promised of each text that is left.
* `Careful` — a repair in which the guards see everything that is there.

## Main results

* `infix_norm_lines` — what has a command in it has it where the text goes on.
* `deletesOutside_lines` — deletions in two texts, one after the other.
* `guardFix_fit` — **what the guards leave of a careful repair is fit to run.**
-/

namespace CloudCore
namespace LfsWorker

open Python

/-! ### Normal forms -/

theorem isInfix_iff {p l : List Char} : isInfix p l = true ↔ p <:+: l := by
  induction l with
  | nil => simp [isInfix]
  | cons c l ih =>
    rw [isInfix, Bool.or_eq_true, ih, List.isPrefixOf_iff_prefix, List.infix_cons_iff]

/-- The words of a text, between white space. -/
def spaced (l : List Char) : List (List Char) := (l.splitOnP isSpace).filter (· ≠ [])

theorem norm_eq (s : String) : norm s = [' '].intercalate (spaced (joinContinued s.toList)) := rfl

theorem spaced_append {a b : List Char} {c : Char} (hc : isSpace c = true) :
    spaced (a ++ c :: b) = spaced a ++ spaced b := by
  rw [spaced, List.splitOnP_append_cons a b hc, List.filter_append]
  rfl

theorem intercalate_append {sep : List Char} {ws vs : List (List Char)} (hw : ws ≠ [])
    (hv : vs ≠ []) :
    sep.intercalate (ws ++ vs) = sep.intercalate ws ++ (sep ++ sep.intercalate vs) := by
  induction ws with
  | nil => exact absurd rfl hw
  | cons w ws ih =>
    cases ws with
    | nil =>
      show sep.intercalate (w :: vs) = _
      rw [List.intercalate_cons_of_ne_nil hv]
      simp [List.intercalate]
    | cons w' ws =>
      have hlong : sep.intercalate (w :: (w' :: ws ++ vs)) =
          w ++ sep ++ sep.intercalate (w' :: ws ++ vs) :=
        List.intercalate_cons_of_ne_nil (by simp)
      have hshort : sep.intercalate (w :: w' :: ws) = w ++ sep ++ sep.intercalate (w' :: ws) :=
        List.intercalate_cons_of_ne_nil (by simp)
      rw [List.cons_append, hlong, ih (by simp), hshort]
      simp only [List.append_assoc]

theorem prefix_intercalate {sep : List Char} (ws vs : List (List Char)) :
    sep.intercalate ws <+: sep.intercalate (ws ++ vs) := by
  by_cases hw : ws = []
  · subst hw
    exact List.nil_prefix
  · by_cases hv : vs = []
    · have happend : ws ++ vs = ws := hv ▸ List.append_nil ws
      exact happend.symm ▸ List.prefix_rfl
    · rw [intercalate_append hw hv]
      exact List.prefix_append _ _

theorem suffix_intercalate {sep : List Char} (ws vs : List (List Char)) :
    sep.intercalate vs <:+ sep.intercalate (ws ++ vs) := by
  by_cases hw : ws = []
  · subst hw
    exact List.suffix_rfl
  · by_cases hv : vs = []
    · subst hv
      exact List.nil_suffix
    · rw [intercalate_append hw hv]
      exact (List.suffix_append _ _).trans (List.suffix_append _ _)

/-- The text with the two lines. -/
theorem toList_lines (a b : String) : (a ++ "\n" ++ b).toList = a.toList ++ '\n' :: b.toList := by
  simp

/-- A line end that is not continued separates. -/
theorem joinContinued_lines {a : List Char} (ha : ∀ c ∈ a.getLast?, c ≠ '\\') (b : List Char) :
    joinContinued (a ++ '\n' :: b) = joinContinued a ++ '\n' :: joinContinued b := by
  fun_induction joinContinued a with
  | case1 l ih =>
    show ' ' :: joinContinued (l ++ '\n' :: b) = _
    rw [ih]
    · rfl
    · intro c hc
      refine ha c ?_
      cases l with
      | nil => cases hc
      | cons d l => exact hc
  | case2 c l hne ih =>
    have hl : ∀ d ∈ l.getLast?, d ≠ '\\' := by
      intro d hd
      refine ha d ?_
      cases l with
      | nil => cases hd
      | cons e l => exact hd
    rw [List.cons_append, joinContinued, ih hl]
    · rfl
    · intro rest hc hrest
      cases l with
      | nil => exact ha c rfl hc
      | cons d l =>
        cases hrest
        exact hne l hc rfl
  | case3 => rfl

/-- A backslash joins two lines. -/
theorem joinContinued_continued (a b : List Char) :
    joinContinued (a ++ '\\' :: '\n' :: b) = joinContinued a ++ ' ' :: joinContinued b := by
  fun_induction joinContinued a with
  | case1 l ih => exact congrArg (' ' :: ·) ih
  | case2 c l hne ih =>
    rw [List.cons_append, joinContinued, ih]
    · rfl
    · intro rest hc hrest
      cases l with
      | nil => cases hrest
      | cons d l =>
        cases hrest
        exact hne l hc rfl
  | case3 => rfl

/-- At the end of a text a backslash stays. -/
theorem joinContinued_backslash (a : List Char) :
    joinContinued (a ++ ['\\']) = joinContinued a ++ ['\\'] := by
  fun_induction joinContinued a with
  | case1 l ih => exact congrArg (' ' :: ·) ih
  | case2 c l hne ih =>
    rw [List.cons_append, joinContinued, ih]
    · rfl
    · intro rest hc hrest
      cases l with
      | nil => cases hrest
      | cons d l =>
        cases hrest
        exact hne l hc rfl
  | case3 => rfl

/-- A character more at the end of a text is one more at the end of its normal form, with or
without a blank before it. -/
theorem intercalate_spaced_concat (l : List Char) {c : Char} (hc : isSpace c = false) :
    ∃ z, (z = [] ∨ z = [' ']) ∧
      [' '].intercalate (spaced (l ++ [c])) = [' '].intercalate (spaced l) ++ z ++ [c] := by
  -- the last word, and what stands before it
  obtain ⟨u, v, rfl, hv, hu⟩ : ∃ u v, l = u ++ v ∧ (∀ d ∈ v, isSpace d = false) ∧
      (u = [] ∨ ∃ u' d, u = u' ++ [d] ∧ isSpace d = true) := by
    induction l using List.reverseRecOn with
    | nil => exact ⟨[], [], rfl, nofun, .inl rfl⟩
    | append_singleton l d ih =>
      cases hd : isSpace d with
      | true => exact ⟨l ++ [d], [], (List.append_nil _).symm, nofun, .inr ⟨l, d, rfl, hd⟩⟩
      | false =>
        obtain ⟨u, v, rfl, hv, hu⟩ := ih
        refine ⟨u, v ++ [d], List.append_assoc _ _ _, ?_, hu⟩
        intro e he
        obtain he | he := List.mem_append.mp he
        · exact hv e he
        · rw [List.mem_singleton.mp he]
          exact hd
  have hword (w : List Char) (hw : ∀ d ∈ w, isSpace d = false) :
      spaced (u ++ w) = spaced u ++ [w].filter (· ≠ []) := by
    have hsingle : spaced w = [w].filter (· ≠ []) := by
      rw [spaced, List.splitOnP_eq_singleton hw]
    obtain rfl | ⟨u', d, rfl, hd⟩ := hu
    · rw [List.nil_append, hsingle]
      rfl
    · have hblank : spaced (u' ++ [d]) = spaced u' := by
        rw [spaced_append hd]
        exact List.append_nil _
      rw [hblank, List.append_assoc, List.singleton_append, spaced_append hd, hsingle]
  have hlong : ∀ d ∈ v ++ [c], isSpace d = false := by
    intro d hd
    obtain hd | hd := List.mem_append.mp hd
    · exact hv d hd
    · rw [List.mem_singleton.mp hd]
      exact hc
  rw [List.append_assoc, hword _ hlong, hword _ hv, List.filter_cons_of_pos (by simp)]
  by_cases hnil : v = []
  · subst hnil
    by_cases hfirst : spaced u = []
    · refine ⟨[], .inl rfl, ?_⟩
      rw [hfirst]
      rfl
    · refine ⟨[' '], .inr rfl, ?_⟩
      rw [intercalate_append hfirst (by simp)]
      simp [List.intercalate]
  · refine ⟨[], .inl rfl, ?_⟩
    rw [List.filter_cons_of_pos (by simpa using hnil)]
    by_cases hfirst : spaced u = []
    · rw [hfirst]
      simp [List.intercalate]
    · rw [intercalate_append hfirst (by simp), intercalate_append hfirst (by simp)]
      simp [List.intercalate]

/-- A text ends in a backslash, or it does not. -/
theorem backslash_cases (l : List Char) :
    (∀ c ∈ l.getLast?, c ≠ '\\') ∨ ∃ a, l = a ++ ['\\'] := by
  induction l using List.reverseRecOn with
  | nil => exact .inl nofun
  | append_singleton l d _ =>
    by_cases hd : d = '\\'
    · exact .inr ⟨l, by rw [hd]⟩
    · refine .inl fun c hc => ?_
      rw [List.getLast?_concat] at hc
      cases hc
      exact hd

/-- A line after another is in their normal form. -/
theorem infix_norm_second {p : List Char} {a b : String} (h : p <:+: norm b) :
    p <:+: norm (a ++ "\n" ++ b) := by
  refine h.trans ?_
  have htext := toList_lines a b
  rw [norm_eq, norm_eq, htext]
  obtain hlast | ⟨a', ha⟩ := backslash_cases a.toList
  · rw [joinContinued_lines hlast, spaced_append (by decide)]
    exact (suffix_intercalate _ _).isInfix
  · rw [ha, List.append_assoc, List.singleton_append, joinContinued_continued,
      spaced_append (by decide)]
    exact (suffix_intercalate _ _).isInfix

/-- **A command that a text has in it is there where the text goes on**, unless a backslash at the
end of the text is its last character. -/
theorem infix_norm_first {p : List Char} {a b : String} (hp : ∀ c ∈ p.getLast?, c ≠ ' ')
    (hne : p ≠ []) (h : p <:+: norm a) (hend : ¬ (p.getLast? = some '\\' ∧ p <:+ norm a)) :
    p <:+: norm (a ++ "\n" ++ b) := by
  have htext := toList_lines a b
  obtain hlast | ⟨a', ha⟩ := backslash_cases a.toList
  · refine h.trans ?_
    rw [norm_eq, norm_eq, htext, joinContinued_lines hlast, spaced_append (by decide)]
    exact (prefix_intercalate _ _).isInfix
  · obtain ⟨z, hz, hnorm⟩ := intercalate_spaced_concat (joinContinued a')
      (show isSpace '\\' = false by decide)
    have hnormA : norm a = [' '].intercalate (spaced (joinContinued a')) ++ z ++ ['\\'] := by
      rw [norm_eq, ha, joinContinued_backslash, hnorm]
    have hjoined : [' '].intercalate (spaced (joinContinued a')) <:+: norm (a ++ "\n" ++ b) := by
      rw [norm_eq, htext, ha, List.append_assoc, List.singleton_append, joinContinued_continued,
        spaced_append (by decide)]
      exact (prefix_intercalate _ _).isInfix
    refine List.IsInfix.trans ?_ hjoined
    rw [hnormA] at h hend
    obtain hsuffix | hin := List.infix_concat_iff.mp h
    · obtain hnil | ⟨t, rfl, -⟩ := List.suffix_concat_iff.mp hsuffix
      · exact absurd hnil hne
      · exact absurd ⟨List.getLast?_concat, hsuffix⟩ hend
    · obtain rfl | rfl := hz
      · rwa [List.append_nil] at hin
      · obtain hsuffix | hin := List.infix_concat_iff.mp hin
        · obtain hnil | ⟨t, rfl, -⟩ := List.suffix_concat_iff.mp hsuffix
          · exact absurd hnil hne
          · exact absurd rfl (hp ' ' List.getLast?_concat)
        · exact hin

/-! ### Deletions in two texts -/

/-- A bare `rm` at the end of a text; the search goes on behind it on the next line. -/
def endsInRm (l : List Char) : Bool :=
  match l.reverse.dropWhile isSpace with
  | 'm' :: 'r' :: rest => rest.head?.all opens
  | _ => false

theorem rmArgs_newline (start : Bool) (b : List Char) :
    rmArgs start ('\n' :: b) = rmArgs true b := by
  have hfalse : rmArgs false ('\n' :: b) = rmArgs true b := by
    rw [rmArgs_false_cons, if_pos (by decide)]
  cases start with
  | false => exact hfalse
  | true => rw [rmArgs_true]; exact hfalse

theorem afterRm_lines {l rest : List Char} (h : afterRm l = some rest) (hne : rest ≠ [])
    (b : List Char) : afterRm (l ++ '\n' :: b) = some (rest ++ '\n' :: b) := by
  obtain ⟨c, l', rfl, hc, rfl⟩ := afterRm_eq_some h
  rw [List.dropWhile_cons_of_pos hc] at hne ⊢
  have hdrop : (l' ++ '\n' :: b).dropWhile isSpace = l'.dropWhile isSpace ++ '\n' :: b := by
    rw [List.dropWhile_append, if_neg (by simpa using hne)]
  show (if isSpace c = true then some ((l' ++ '\n' :: b).dropWhile isSpace) else none) = _
  rw [if_pos hc, hdrop]

/-- What is matched where the text goes on, and not in the text, is a bare `rm` at its end. -/
theorem eq_rm_of_afterRm {l b : List Char} (h : afterRm l = none)
    (hlong : afterRm (l ++ '\n' :: b) ≠ none) : l = ['r', 'm'] := by
  obtain ⟨rest, hrest⟩ := Option.ne_none_iff_exists'.mp hlong
  obtain ⟨c, l', hl, hc, -⟩ := afterRm_eq_some hrest
  match l, h, hl with
  | [], _, hl => cases hl
  | [_], _, hl => cases hl
  | [_, _], _, hl =>
    cases hl
    rfl
  | _ :: _ :: d :: l, h, hl =>
    cases hl
    simp [afterRm, hc] at h

/-- A bare `rm` at the end of a text, at a place where the search finds it. -/
def Dangles (start : Bool) (l : List Char) : Prop :=
  ∃ x s, l = x ++ 'r' :: 'm' :: s ∧ (∀ c ∈ s, isSpace c = true) ∧
    (x = [] ∧ start = true ∨ ∃ c, x.getLast? = some c ∧ opens c = true)

theorem Dangles.append {start : Bool} {l : List Char} (h : Dangles false l) (x : List Char) :
    Dangles start (x ++ l) := by
  obtain ⟨y, s, rfl, hs, ⟨-, hfalse⟩ | ⟨c, hc, hopens⟩⟩ := h
  · cases hfalse
  · refine ⟨x ++ y, s, (List.append_assoc _ _ _).symm, hs, .inr ⟨c, ?_, hopens⟩⟩
    rw [List.getLast?_append, hc]
    rfl

theorem endsInRm_of_dangles {start : Bool} {l : List Char} (h : Dangles start l) :
    endsInRm l = true := by
  obtain ⟨x, s, rfl, hs, hx⟩ := h
  have hreverse : (x ++ 'r' :: 'm' :: s).reverse = s.reverse ++ 'm' :: 'r' :: x.reverse := by simp
  rw [endsInRm, hreverse, List.dropWhile_append_of_pos fun c hc => hs c (List.mem_reverse.mp hc)]
  show x.reverse.head?.all opens = true
  rw [List.head?_reverse]
  obtain ⟨rfl, -⟩ | ⟨c, hc, hopens⟩ := hx
  · rfl
  · rw [hc]
    exact hopens

theorem Dangles.of_afterRm_nil {l : List Char} (h : afterRm l = some []) (x : List Char)
    {start : Bool} (hx : x = [] ∧ start = true ∨ ∃ c, x.getLast? = some c ∧ opens c = true) :
    Dangles start (x ++ l) := by
  obtain ⟨c, l', rfl, -, hnil⟩ := afterRm_eq_some h
  exact ⟨x, c :: l', rfl, List.dropWhile_eq_nil_iff.mp hnil.symm, hx⟩

/-- What the search finds at a place, it finds where the text goes on. -/
theorem matchRm_lines {start : Bool} {l rest : List Char} (h : matchRm start l = some rest)
    (hne : rest ≠ []) (b : List Char) :
    matchRm start (l ++ '\n' :: b) = some (rest ++ '\n' :: b) := by
  unfold matchRm at h ⊢
  rw [Option.or_eq_some_iff] at h ⊢
  obtain h | ⟨-, h⟩ := h
  · left
    split at h
    · next hstart => rw [if_pos hstart]; exact afterRm_lines h hne b
    · cases h
  · right
    cases l with
    | nil => cases h
    | cons c l =>
      simp only [List.cons_append] at h ⊢
      split at h
      · next hc =>
        have hfirst : afterRm (c :: (l ++ '\n' :: b)) = none := by
          by_contra hsome
          obtain ⟨r, hr⟩ := Option.ne_none_iff_exists'.mp hsome
          obtain ⟨d, l', heq, -⟩ := afterRm_eq_some hr
          rw [(List.cons.inj heq).1] at hc
          exact absurd hc (by decide)
        rw [hfirst, if_pos hc]
        exact ⟨by split <;> rfl, afterRm_lines h hne b⟩
      · cases h

/-- A match that ends with the text ends in a bare `rm`. -/
theorem dangles_of_matchRm_nil {start : Bool} {l : List Char} (h : matchRm start l = some []) :
    Dangles start l := by
  unfold matchRm at h
  rw [Option.or_eq_some_iff] at h
  obtain h | ⟨-, h⟩ := h
  · split at h
    · next hstart => exact Dangles.of_afterRm_nil h [] (.inl ⟨rfl, hstart⟩)
    · cases h
  · split at h
    · next c l =>
      split at h
      · next hc => exact Dangles.of_afterRm_nil h [c] (.inr ⟨c, rfl, hc⟩)
      · cases h
    · cases h

/-- What is only found where the text goes on is a bare `rm` at its end. -/
theorem dangles_of_matchRm_none {start : Bool} {c : Char} {l b : List Char}
    (h : matchRm start (c :: l) = none) (hlong : matchRm start (c :: l ++ '\n' :: b) ≠ none) :
    Dangles start (c :: l) ∧ rmArgs start (c :: l) = [] := by
  unfold matchRm at h hlong
  rw [Option.or_eq_none_iff] at h
  rw [ne_eq, Option.or_eq_none_iff, not_and_or] at hlong
  obtain hlong | hlong := hlong
  · split at hlong
    · next hstart =>
      rw [if_pos hstart] at h
      have hrm := eq_rm_of_afterRm h.1 hlong
      rw [hrm]
      refine ⟨⟨[], [], rfl, nofun, .inl ⟨rfl, hstart⟩⟩, ?_⟩
      rw [hstart, rmArgs_true]
      show rmArgs false ['r', 'm'] = []
      rw [rmArgs_false_cons, if_neg (by decide), rmArgs_false_cons, if_neg (by decide), rmArgs_nil]
    · exact absurd rfl hlong
  · simp only [List.cons_append] at hlong h
    split at hlong
    · next hc =>
      have hrm := eq_rm_of_afterRm (by simpa [hc] using h.2) hlong
      rw [hrm]
      refine ⟨⟨[c], [], rfl, nofun, .inr ⟨c, rfl, hc⟩⟩, ?_⟩
      have hnone : matchRm start [c, 'r', 'm'] = none := by
        unfold matchRm
        rw [Option.or_eq_none_iff]
        rw [hrm] at h
        exact h
      rw [rmArgs_of_none hnone, rmArgs_false_cons, if_neg (by decide), rmArgs_false_cons,
        if_neg (by decide), rmArgs_nil]
    · exact absurd rfl hlong

/-- **The arguments of `rm` in two texts, one after the other**, are those in each, unless a bare
`rm` ends the first: then no others of the first are lost. -/
theorem rmArgs_lines (start : Bool) (l b : List Char) :
    rmArgs start (l ++ '\n' :: b) = rmArgs start l ++ rmArgs true b ∨
      Dangles start l ∧ ∃ found later, rmArgs start (l ++ '\n' :: b) = found ++ later ∧
        (rmArgs start l = found ∨ rmArgs start l = found ++ [[]]) := by
  fun_induction rmArgs start l with
  | case1 start l rest hmatch ih =>
    by_cases hne : rest = []
    · subst hne
      refine .inr ⟨dangles_of_matchRm_nil hmatch, [], _, rfl, .inr ?_⟩
      show [] :: rmArgs false [] = [[]]
      rw [rmArgs_nil]
    · have htake : (rest ++ '\n' :: b).takeWhile (!ends ·) = rest.takeWhile (!ends ·) := by
        rw [List.takeWhile_append]
        split
        · next hall =>
          rw [List.takeWhile_cons_of_neg (p := (!ends ·)) (by decide), List.append_nil]
          exact (List.takeWhile_prefix (!ends ·)).eq_of_length hall |>.symm
        · rfl
      have hdrop : (rest ++ '\n' :: b).dropWhile (!ends ·) =
          rest.dropWhile (!ends ·) ++ '\n' :: b := by
        rw [List.dropWhile_append]
        split
        · next hnil =>
          rw [List.isEmpty_iff.mp hnil, List.dropWhile_cons_of_neg (p := (!ends ·)) (by decide)]
          rfl
        · rfl
      rw [rmArgs_of_some (matchRm_lines hmatch hne b), htake, hdrop]
      obtain ih | ⟨hdangles, found, later, hlong, hshort⟩ := ih
      · exact .inl (by rw [ih]; rfl)
      · refine .inr ⟨?_, _ :: found, later, by rw [hlong]; rfl, ?_⟩
        · have hsuffix : rest.dropWhile (!ends ·) <:+ l :=
            (List.dropWhile_suffix _).trans (suffix_of_matchRm hmatch)
          obtain ⟨x, hx⟩ := hsuffix
          rw [← hx]
          exact hdangles.append x
        · obtain hshort | hshort := hshort
          · exact .inl (by rw [hshort])
          · exact .inr (by rw [hshort]; rfl)
  | case2 start _ => exact .inl (rmArgs_newline start b)
  | case3 start c l hmatch ih =>
    by_cases hlong : matchRm start (c :: l ++ '\n' :: b) = none
    · rw [List.cons_append] at hlong ⊢
      rw [rmArgs_of_none hlong]
      obtain ih | ⟨hdangles, h⟩ := ih
      · exact .inl ih
      · exact .inr ⟨hdangles.append [c], h⟩
    · obtain ⟨hdangles, hnil⟩ := dangles_of_matchRm_none hmatch hlong
      rw [rmArgs_of_none hmatch] at hnil
      exact .inr ⟨hdangles, [], _, rfl, .inl hnil⟩

theorem anyRefused_append {srcdir cwd : List Char} {as bs : List (List Char)} :
    anyRefused srcdir cwd (as ++ bs) = .ok false ↔
      anyRefused srcdir cwd as = .ok false ∧ anyRefused srcdir cwd bs = .ok false := by
  induction as with
  | nil => exact ⟨fun h => ⟨rfl, h⟩, And.right⟩
  | cons a as ih =>
    rw [List.cons_append, anyRefused, anyRefused]
    cases targets a with
    | error e => exact iff_of_false (fun h => by cases h) fun h => by cases h.1
    | ok ws =>
      show (if _ then _ else _) = _ ↔ (if _ then _ else _) = _ ∧ _
      split
      · exact iff_of_false (fun h => by cases h) fun h => by cases h.1
      · exact ih

/-- **What is not refused in two texts is not refused in the first.** -/
theorem deletesOutside_first {a b srcdir cwd : String}
    (h : deletesOutside (a ++ "\n" ++ b) srcdir cwd = .ok false) :
    deletesOutside a srcdir cwd = .ok false := by
  rw [deletesOutside, toList_lines] at h
  rw [deletesOutside]
  obtain hlines | ⟨-, found, later, hlong, hshort⟩ := rmArgs_lines true a.toList b.toList
  · rw [hlines] at h
    exact (anyRefused_append.mp h).1
  · rw [hlong] at h
    have hfound := (anyRefused_append.mp h).1
    obtain hshort | hshort := hshort
    · rw [hshort]
      exact hfound
    · rw [hshort]
      exact anyRefused_append.mpr ⟨hfound, rfl⟩

/-- **Nor in the second**, where no bare `rm` stands before it. -/
theorem deletesOutside_second {a b srcdir cwd : String} (hrm : endsInRm a.toList = false)
    (h : deletesOutside (a ++ "\n" ++ b) srcdir cwd = .ok false) :
    deletesOutside b srcdir cwd = .ok false := by
  rw [deletesOutside, toList_lines] at h
  obtain hlines | ⟨hdangles, -⟩ := rmArgs_lines true a.toList b.toList
  · rw [hlines] at h
    exact (anyRefused_append.mp h).2
  · rw [endsInRm_of_dangles hdangles] at hrm
    cases hrm

/-! ### Repairs -/

/-- The commands to run first, and what to run instead of the step; nothing where the text is
empty. -/
structure Fix where
  before : String
  instead : String
  deriving DecidableEq

def Fix.none : Fix := ⟨"", ""⟩

def Fix.text (f : Fix) : String := f.before ++ "\n" ++ f.instead

/-- `str.split()`, without the backslashes at the ends of lines. -/
def shellWords (l : List Char) : List (List Char) := (spaced l).filter (· ≠ ['\\'])

/-- The words of a command of the book, line by line, without the comments. -/
def bookLineWords (book : List Char) : List (List Char) :=
  (splitlines book).flatMap fun line =>
    match line.dropWhile isSpace with
    | [] | '#' :: _ => []
    | _ => shellWords line

def keepsWords (book instead : String) : Bool :=
  (bookLineWords book.toList).isSublist (shellWords instead.toList)

/-- The text of a command of the book. -/
def bookText (task : Task) (b : ℕ) : String :=
  ((task.commands.find? fun c => c.index == b).map Command.text).getD ""

/-- The commands of the book behind a number that the guard looks for. -/
def laterCommands (task : Task) (after : Option ℕ) : List Command :=
  task.commands.filter fun c =>
    after.all (· < c.index) && !c.skipped && decide (8 ≤ (norm c.text).length)

def runsLater (task : Task) (after : Option ℕ) (t : String) : Bool :=
  (laterCommands task after).any fun c => isInfix (norm c.text) (norm t)

variable (letter : Char → Bool)

/-- The system-level words of the section. -/
def bookWords (task : Task) : List (List Char) :=
  task.commands.flatMap fun c => (system letter).findall letter c.text.toList

/-- The system-level words of a text that are not the section's, or nobody's. -/
def foreignWords (task : Task) (t : String) : List (List Char) :=
  ((system letter).findall letter t.toList).filter fun w =>
    !(bookWords letter task).contains w || never.fullmatch letter w

/-- A guard clears both texts. -/
def refuseIf (found : String → Bool) (f : Fix) : Fix := if found f.text then .none else f

/-- What runs instead of a command of the book must still be that command. -/
def keepBook (task : Task) (book : Option ℕ) (f : Fix) : Fix :=
  match book with
  | some b =>
    if f.instead ≠ "" ∧ bookText task b ≠ "" ∧ keepsWords (bookText task b) f.instead = false then
      { f with instead := "" }
    else f
  | none => f

/-- The guard against later commands of the book; an added step has no number, and none are later. -/
def keepOrder (task : Task) (book : Option ℕ) (f : Fix) : Fix :=
  match book with
  | some b => refuseIf (runsLater task (some b)) f
  | none => f

/-- The guards behind the first, in their order. -/
def guardTexts (task : Task) (book : Option ℕ) (f : Fix) : Fix :=
  let f := keepBook task book f
  let f := keepOrder task book f
  let f := refuseIf (fun t => (credential letter).search letter t.toList) f
  let f := refuseIf (fun t => !(foreignWords letter task t).isEmpty) f
  let f := refuseIf (fun t => download.search letter t.toList) f
  refuseIf (fun t => (danger letter).search letter t.toList) f

/-- The guards; the first is that against deletions. -/
def guardFix (task : Task) (book : Option ℕ) (srcdir cwd : String) (f : Fix) :
    Except Exc Fix :=
  (deletesOutside f.text srcdir cwd).map fun outside =>
    guardTexts letter task book (if outside then .none else f)

/-! ### What is promised -/

/-- A text that may run as a repair of a step that stands behind `after`. -/
structure Fit (task : Task) (after : Option ℕ) (srcdir cwd t : String) : Prop where
  credential : (credential letter).search letter t.toList = false
  download : download.search letter t.toList = false
  danger : (danger letter).search letter t.toList = false
  never : never.search letter t.toList = false
  deletions : deletesOutside t srcdir cwd = .ok false
  system : ∀ w ∈ (system letter).findall letter t.toList, w ∈ bookWords letter task
  later : ∀ c ∈ laterCommands task after, ¬ norm c.text <:+: norm t

/-- A repair that the guards see all of: that of an added step runs no later command of the book;
no later command ends, with a backslash, the commands to run first; and these do not end in a bare
`rm` with something to run instead. -/
structure Careful (task : Task) (book after : Option ℕ) (f : Fix) : Prop where
  added : book = none → ∀ c ∈ laterCommands task after,
    ¬ norm c.text <:+: norm f.before ∧ ¬ norm c.text <:+: norm f.instead
  backslash : ∀ c ∈ laterCommands task after,
    ¬ ((norm c.text).getLast? = some '\\' ∧ norm c.text <:+ norm f.before)
  bare : f.instead = "" ∨ endsInRm f.before.toList = false

/-- No longer word of the section has a word of `_NEVER` in it. -/
def Unhidden (task : Task) : Prop :=
  ∀ w ∈ bookWords letter task, never.search letter w = true → never.fullmatch letter w = true

/-- A property of each text that there is. -/
def Each (P : String → Prop) (f : Fix) : Prop :=
  (f.before ≠ "" → P f.before) ∧ (f.instead ≠ "" → P f.instead)

/-- One repair is what is left of another. -/
def Fix.Under (g f : Fix) : Prop :=
  (g.before = "" ∨ g.before = f.before) ∧ (g.instead = "" ∨ g.instead = f.instead)

variable {letter} {P : String → Prop} {f g : Fix} {found : String → Bool} {task : Task}
  {book after : Option ℕ} {srcdir cwd : String}

theorem Each.none : Each P .none := ⟨fun h => absurd rfl h, fun h => absurd rfl h⟩

theorem Each.under (h : Each P f) (hg : g.Under f) : Each P g := by
  constructor
  · intro hne
    have hsame : g.before = f.before := hg.1.resolve_left hne
    rw [hsame] at hne ⊢
    exact h.1 hne
  · intro hne
    have hsame : g.instead = f.instead := hg.2.resolve_left hne
    rw [hsame] at hne ⊢
    exact h.2 hne

theorem Fix.Under.refl (f : Fix) : f.Under f := ⟨.inr rfl, .inr rfl⟩

theorem Fix.none_under (f : Fix) : Fix.none.Under f := ⟨.inl rfl, .inl rfl⟩

theorem Fix.Under.trans {h : Fix} (hgf : g.Under f) (hfh : f.Under h) : g.Under h := by
  constructor
  · obtain hg | hg := hgf.1
    · exact .inl hg
    · rw [hg]
      exact hfh.1
  · obtain hg | hg := hgf.2
    · exact .inl hg
    · rw [hg]
      exact hfh.2

theorem refuseIf_under (found : String → Bool) (f : Fix) : (refuseIf found f).Under f := by
  unfold refuseIf
  split
  · exact Fix.none_under f
  · exact .refl f

theorem keepBook_under (task : Task) (book : Option ℕ) (f : Fix) :
    (keepBook task book f).Under f := by
  unfold keepBook
  split
  · split
    · exact ⟨.inr rfl, .inl rfl⟩
    · exact .refl f
  · exact .refl f

/-- What a guard does not find in the two lines it does not find in either. -/
theorem each_refuseIf (h : found f.text = false → P f.before ∧ P f.instead) :
    Each P (refuseIf found f) := by
  unfold refuseIf
  split
  · exact .none
  · next hnot =>
    obtain ⟨hbefore, hinstead⟩ := h (by simpa using hnot)
    exact ⟨fun _ => hbefore, fun _ => hinstead⟩

theorem text_toList (f : Fix) : f.text.toList = f.before.toList ++ '\n' :: f.instead.toList :=
  toList_lines _ _

/-- The words of two lines, and what `_NEVER` finds in them. -/
theorem each_words (hunhidden : Unhidden letter task)
    (h : (!(foreignWords letter task f.text).isEmpty) = false) (t : String)
    (ht : t = f.before ∨ t = f.instead) :
    (∀ w ∈ (system letter).findall letter t.toList, w ∈ bookWords letter task) ∧
      never.search letter t.toList = false := by
  have hsub : ∀ w ∈ (system letter).findall letter t.toList,
      w ∈ (system letter).findall letter f.text.toList := by
    intro w hw
    rw [text_toList, system_lines]
    obtain rfl | rfl := ht
    · exact List.mem_append_left _ hw
    · exact List.mem_append_right _ hw
  have hnone : foreignWords letter task f.text = [] := by simpa using h
  have hbook : ∀ w ∈ (system letter).findall letter t.toList,
      w ∈ bookWords letter task ∧ never.fullmatch letter w = false := by
    intro w hw
    have := List.filter_eq_nil_iff.mp hnone w (hsub w hw)
    simpa using this
  refine ⟨fun w hw => (hbook w hw).1, ?_⟩
  by_contra hfound
  obtain ⟨w, hw, hnever⟩ := exists_never_word (by simpa using hfound)
  obtain ⟨hmem, hfull⟩ := hbook w hw
  rw [hunhidden w hmem hnever] at hfull
  cases hfull

/-- The last character of a normal form is no blank. -/
theorem norm_getLast? (s : String) : ∀ c ∈ (norm s).getLast?, c ≠ ' ' := by
  rw [norm_eq]
  induction joinContinued s.toList using List.reverseRecOn with
  | nil => exact nofun
  | append_singleton l d ih =>
    cases hd : isSpace d with
    | true =>
      have hsame : spaced (l ++ [d]) = spaced l := by
        rw [spaced_append hd]
        exact List.append_nil _
      rw [hsame]
      exact ih
    | false =>
      obtain ⟨z, -, hz⟩ := intercalate_spaced_concat l hd
      rw [hz]
      intro c hc
      rw [List.getLast?_concat] at hc
      cases hc
      rintro rfl
      exact absurd hd (by decide)

/-- What the guard does not find of later commands is in neither text. -/
theorem each_later {c : Command} (hc : c ∈ laterCommands task after)
    (hbackslash : ¬ ((norm c.text).getLast? = some '\\' ∧ norm c.text <:+ norm f.before))
    (h : runsLater task after f.text = false) :
    ¬ norm c.text <:+: norm f.before ∧ ¬ norm c.text <:+: norm f.instead := by
  have hnot : ¬ norm c.text <:+: norm f.text := by
    rw [← isInfix_iff]
    simpa using List.any_eq_false.mp h c hc
  refine ⟨fun hin => hnot ?_, fun hin => hnot (infix_norm_second hin)⟩
  refine infix_norm_first (norm_getLast? _) ?_ hin hbackslash
  have hlen : 8 ≤ (norm c.text).length := by
    have := (List.mem_filter.mp hc).2
    simp only [Bool.and_eq_true, decide_eq_true_eq] at this
    exact this.2
  rintro hnil
  rw [hnil] at hlen
  cases hlen

/-- Deletions in what the first guard leaves. -/
theorem each_deletions (hbare : f.instead = "" ∨ endsInRm f.before.toList = false)
    (h : deletesOutside f.text srcdir cwd = .ok false) :
    Each (fun t => deletesOutside t srcdir cwd = .ok false) f := by
  refine ⟨fun _ => deletesOutside_first h, fun hne => ?_⟩
  exact deletesOutside_second (hbare.resolve_left hne) h

theorem keepOrder_under (task : Task) (book : Option ℕ) (f : Fix) :
    (keepOrder task book f).Under f := by
  unfold keepOrder
  split
  · exact refuseIf_under _ f
  · exact .refl f

/-- What is left of a careful repair has no later command in it. -/
theorem each_keepOrder (hcareful : Careful task book after g) (hu : f.Under g)
    (hafter : ∀ b, book = some b → after = some b) :
    Each (fun t => ∀ c ∈ laterCommands task after, ¬ norm c.text <:+: norm t)
      (keepOrder task book f) := by
  cases book with
  | none =>
    have hg : Each (fun t => ∀ c ∈ laterCommands task after, ¬ norm c.text <:+: norm t) g :=
      ⟨fun _ c hc => (hcareful.added rfl c hc).1, fun _ c hc => (hcareful.added rfl c hc).2⟩
    exact hg.under hu
  | some b =>
    obtain rfl := hafter b rfl
    have hend : ∀ c ∈ laterCommands task (some b),
        ¬ ((norm c.text).getLast? = some '\\' ∧ norm c.text <:+ norm f.before) := by
      intro c hc
      obtain hnone | hsame := hu.1
      · rintro ⟨hlast, hsuffix⟩
        rw [hnone] at hsuffix
        rw [List.suffix_nil.mp hsuffix] at hlast
        cases hlast
      · rw [hsame]
        exact hcareful.backslash c hc
    exact each_refuseIf fun h =>
      ⟨fun c hc => (each_later hc (hend c hc) h).1, fun c hc => (each_later hc (hend c hc) h).2⟩

/-- The words of a command of the book stay in what runs instead. -/
theorem keepBook_words (b : ℕ) (hb : book = some b) (hne : (keepBook task book f).instead ≠ "") :
    (bookLineWords (bookText task b).toList).Sublist
      (shellWords (keepBook task book f).instead.toList) := by
  subst hb
  unfold keepBook at hne ⊢
  simp only at hne ⊢
  split at hne
  · exact absurd rfl hne
  · next hnot =>
    rw [if_neg hnot]
    by_cases htext : bookText task b = ""
    · rw [htext]
      exact List.nil_sublist _
    · refine List.isSublist_iff_sublist.mp ?_
      by_contra hkeeps
      exact hnot ⟨hne, htext, Bool.eq_false_iff.mpr hkeeps⟩

/-- **What the guards leave of a careful repair is fit to run**, and keeps the words of the command
of the book in whose place it runs. -/
theorem guardFix_fit (hunhidden : Unhidden letter task) (hcareful : Careful task book after f)
    (hafter : ∀ b, book = some b → after = some b)
    (h : guardFix letter task book srcdir cwd f = .ok g) :
    Each (Fit letter task after srcdir cwd) g ∧
      ∀ b, book = some b → g.instead ≠ "" →
        (bookLineWords (bookText task b).toList).Sublist (shellWords g.instead.toList) := by
  obtain ⟨outside, hd, rfl⟩ : ∃ outside, deletesOutside f.text srcdir cwd = .ok outside ∧
      guardTexts letter task book (if outside then .none else f) = g := by
    unfold guardFix at h
    cases hd : deletesOutside f.text srcdir cwd with
    | error e =>
      rw [hd] at h
      exact nomatch h
    | ok outside =>
      rw [hd] at h
      exact ⟨outside, rfl, Except.ok.inj h⟩
  -- the repair behind each guard
  generalize hf₁ : (if outside then Fix.none else f) = f₁
  generalize hf₂ : keepBook task book f₁ = f₂
  generalize hf₃ : keepOrder task book f₂ = f₃
  generalize hf₄ : refuseIf (fun t => (credential letter).search letter t.toList) f₃ = f₄
  generalize hf₅ : refuseIf (fun t => !(foreignWords letter task t).isEmpty) f₄ = f₅
  generalize hf₆ : refuseIf (fun t => download.search letter t.toList) f₅ = f₆
  generalize hf₇ : refuseIf (fun t => (danger letter).search letter t.toList) f₆ = f₇
  have hg : guardTexts letter task book f₁ = f₇ := by
    rw [← hf₇, ← hf₆, ← hf₅, ← hf₄, ← hf₃, ← hf₂]
    rfl
  rw [hg]
  have hu₁ : f₁.Under f := by
    rw [← hf₁]
    split
    · exact Fix.none_under f
    · exact .refl f
  have hu₂ : f₂.Under f₁ := hf₂ ▸ keepBook_under task book f₁
  have hu₃ : f₃.Under f₂ := hf₃ ▸ keepOrder_under task book f₂
  have hu₄ : f₄.Under f₃ := hf₄ ▸ refuseIf_under _ f₃
  have hu₅ : f₅.Under f₄ := hf₅ ▸ refuseIf_under _ f₄
  have hu₆ : f₆.Under f₅ := hf₆ ▸ refuseIf_under _ f₅
  have hu₇ : f₇.Under f₆ := hf₇ ▸ refuseIf_under _ f₆
  have hu₇₃ : f₇.Under f₃ := ((hu₇.trans hu₆).trans hu₅).trans hu₄
  have hu₇₂ : f₇.Under f₂ := hu₇₃.trans hu₃
  -- what each guard promises
  have hdel : Each (fun t => deletesOutside t srcdir cwd = .ok false) f₁ := by
    rw [← hf₁]
    split
    · exact .none
    · next hnot =>
      rw [Bool.eq_false_iff.mpr hnot] at hd
      exact each_deletions hcareful.bare hd
  have hlater : Each (fun t => ∀ c ∈ laterCommands task after, ¬ norm c.text <:+: norm t) f₃ :=
    hf₃ ▸ each_keepOrder hcareful (hu₂.trans hu₁) hafter
  have hcred : Each (fun t => (credential letter).search letter t.toList = false) f₄ :=
    hf₄ ▸ each_refuseIf fun h => credential_lines (by rw [← text_toList]; exact h)
  have hwords : Each (fun t => (∀ w ∈ (system letter).findall letter t.toList,
      w ∈ bookWords letter task) ∧ never.search letter t.toList = false) f₅ :=
    hf₅ ▸ each_refuseIf fun h =>
      ⟨each_words hunhidden h _ (.inl rfl), each_words hunhidden h _ (.inr rfl)⟩
  have hdown : Each (fun t => download.search letter t.toList = false) f₆ :=
    hf₆ ▸ each_refuseIf fun h => download_lines (by rw [← text_toList]; exact h)
  have hdanger : Each (fun t => (danger letter).search letter t.toList = false) f₇ :=
    hf₇ ▸ each_refuseIf fun h => danger_lines (by rw [← text_toList]; exact h)
  have hdel₇ := hdel.under (hu₇₂.trans hu₂)
  have hlater₇ := hlater.under hu₇₃
  have hcred₇ := hcred.under ((hu₇.trans hu₆).trans hu₅)
  have hwords₇ := hwords.under (hu₇.trans hu₆)
  have hdown₇ := hdown.under hu₇
  refine ⟨⟨fun hne => ?_, fun hne => ?_⟩, fun b hb hne => ?_⟩
  · exact ⟨hcred₇.1 hne, hdown₇.1 hne, hdanger.1 hne, (hwords₇.1 hne).2, hdel₇.1 hne,
      (hwords₇.1 hne).1, hlater₇.1 hne⟩
  · exact ⟨hcred₇.2 hne, hdown₇.2 hne, hdanger.2 hne, (hwords₇.2 hne).2, hdel₇.2 hne,
      (hwords₇.2 hne).1, hlater₇.2 hne⟩
  · have hsame : f₇.instead = f₂.instead := hu₇₂.2.resolve_left hne
    rw [hsame] at hne ⊢
    subst hf₂
    exact keepBook_words b hb hne

end LfsWorker
end CloudCore
