import CloudCore.Lfs.WorkerGuards

/-!
# The directories that a step makes

`_really_done` finds them with `\bmkdir\s+(?:-\w+\s+)*(\S+)`: after each word that ends in
`mkdir`, past the options, one word.

## Main definitions

* `targets` — `re.findall`, character by character.
* `named` — the words that are found, word by word.

## Main results

* `targets_eq` — the expression finds these words.
-/

namespace CloudCore
namespace LfsWorker
namespace Done

open Python

/-- Which characters beyond ASCII are letters; white space is none. -/
structure Letters where
  isLetter : Char → Bool
  not_space : ∀ c, isSpace c = true → isLetter c = false

variable (A : Letters)

/-- `-\w+`, the whole word. -/
def isFlag (w : List Char) : Bool :=
  match w with
  | c :: w => c == '-' && w ≠ [] && w.all (isWord A.isLetter)
  | [] => false

/-- What follows a word is shorter than the text. -/
theorem length_rest_lt {l : List Char} (h : l.takeWhile (!isSpace ·) ≠ []) :
    ((l.dropWhile (!isSpace ·)).dropWhile isSpace).length < l.length := by
  cases l with
  | nil => exact absurd rfl h
  | cons c l =>
    cases hc : isSpace c with
    | true =>
      rw [List.takeWhile_cons, hc] at h
      exact absurd rfl h
    | false =>
      have hdrop : (c :: l).dropWhile (!isSpace ·) = l.dropWhile (!isSpace ·) := by
        rw [List.dropWhile_cons, hc]
        rfl
      rw [hdrop]
      exact Nat.lt_succ_of_le
        ((List.dropWhile_suffix _).length_le.trans (List.dropWhile_suffix _).length_le)

/-- `(?:-\w+\s+)*(\S+)`: what the group holds, and the text after it.  A word that looks like an option is
one where another follows. -/
def operand (l : List Char) : Option (List Char × List Char) :=
  let word := l.takeWhile (!isSpace ·)
  let rest := l.dropWhile (!isSpace ·)
  if word = [] then none
  else if isFlag A word = true ∧ rest.dropWhile isSpace ≠ [] then operand (rest.dropWhile isSpace)
  else some (word, rest)
termination_by l.length
decreasing_by
  exact length_rest_lt (by assumption)

/-- A match that begins here. -/
def mkdirAt (before : Option Char) (l : List Char) : Option (List Char × List Char) :=
  if !before.any (isWord A.isLetter) && "mkdir".toList.isPrefixOf l && (l.drop 5).head?.any isSpace then
    operand A ((l.drop 5).dropWhile isSpace)
  else none

/-- The groups of the matches from a place on; the first `skip` characters belong to the match before. -/
def targetsFrom (before : Option Char) : List Char → ℕ → List (List Char)
  | [], _ => []
  | c :: l, skip + 1 => targetsFrom (some c) l skip
  | c :: l, 0 =>
    match mkdirAt A before (c :: l) with
    | some (word, rest) => word :: targetsFrom (some c) l (l.length - rest.length)
    | none => targetsFrom (some c) l 0

/-- `re.findall(r"\bmkdir\s+(?:-\w+\s+)*(\S+)", run)`. -/
def targets (l : List Char) : List (List Char) := targetsFrom A none l 0

/-! ### Word by word -/

/-- A word that ends in the word `mkdir`. -/
def endsInMkdir (before : Option Char) : List Char → Bool
  | [] => false
  | c :: w => !before.any (isWord A.isLetter) && c :: w == "mkdir".toList || endsInMkdir (some c) w

/-- The words that are found; `awaited` after one that ends in `mkdir`. -/
def namedFrom : (awaited : Bool) → List (List Char) → List (List Char)
  | _, [] => []
  | false, w :: ws => namedFrom (endsInMkdir A none w) ws
  | true, [w] => [w]
  | true, w :: v :: ws => if isFlag A w then namedFrom true (v :: ws) else w :: namedFrom false (v :: ws)

def named (ws : List (List Char)) : List (List Char) := namedFrom A false ws

variable {A}

/-! ### Words and white space -/

theorem spaced_space {c : Char} (hc : isSpace c = true) (l : List Char) : spaced (c :: l) = spaced l :=
  spaced_append (a := []) hc

theorem spaced_dropWhile (l : List Char) : spaced (l.dropWhile isSpace) = spaced l := by
  induction l with
  | nil => rfl
  | cons c l ih =>
    cases hc : isSpace c with
    | true => rw [List.dropWhile_cons_of_pos hc, ih, spaced_space hc]
    | false => rw [List.dropWhile_cons_of_neg (by rw [hc]; exact Bool.false_ne_true)]

theorem spaced_word {w : List Char} (hne : w ≠ []) (hw : ∀ c ∈ w, isSpace c = false) : spaced w = [w] := by
  rw [spaced, List.splitOnP_eq_singleton hw, List.filter_cons_of_pos, List.filter_nil]
  exact decide_eq_true hne

/-- What follows a word: nothing, or white space. -/
def Apart (r : List Char) : Prop := ∀ c ∈ r.head?, isSpace c = true

theorem spaced_word_append {w r : List Char} (hne : w ≠ []) (hw : ∀ c ∈ w, isSpace c = false)
    (hr : Apart r) : spaced (w ++ r) = w :: spaced r := by
  cases r with
  | nil =>
    rw [List.append_nil, spaced_word hne hw]
    rfl
  | cons c r =>
    rw [spaced_append (hr c rfl), spaced_word hne hw, spaced_space (hr c rfl), List.singleton_append]

/-- The first word of a text, and what follows it. -/
theorem exists_word {c : Char} (hc : isSpace c = false) (l : List Char) : ∃ w r, c :: l = w ++ r ∧
    w ≠ [] ∧ (∀ d ∈ w, isSpace d = false) ∧ Apart r ∧ (c :: l).takeWhile (!isSpace ·) = w ∧
    (c :: l).dropWhile (!isSpace ·) = r := by
  refine ⟨(c :: l).takeWhile (!isSpace ·), (c :: l).dropWhile (!isSpace ·),
    List.takeWhile_append_dropWhile.symm, ?_, fun d hd => ?_, fun d hd => ?_, rfl, rfl⟩
  · rw [List.takeWhile_cons, hc]
    exact List.cons_ne_nil _ _
  · have hword := List.mem_takeWhile_imp hd
    rwa [Bool.not_eq_true'] at hword
  · have hhead := List.head?_dropWhile_not (!isSpace ·) (c :: l)
    rw [hd] at hhead
    exact Bool.not_eq_eq_eq_not.mp hhead

/-- What is left of a text behind white space. -/
theorem dropWhile_cases (r : List Char) : r.dropWhile isSpace = [] ∧ spaced r = [] ∨
    ∃ d l, r.dropWhile isSpace = d :: l ∧ isSpace d = false ∧ spaced r = spaced (d :: l) := by
  cases hdrop : r.dropWhile isSpace with
  | nil =>
    refine .inl ⟨rfl, ?_⟩
    rw [← spaced_dropWhile, hdrop]
    rfl
  | cons d l =>
    have hd := List.head?_dropWhile_not isSpace r
    rw [hdrop] at hd
    exact .inr ⟨d, l, rfl, hd, by rw [← spaced_dropWhile, hdrop]⟩

/-- **The group is the first word that is awaited.** -/
theorem operand_spec (n : ℕ) {c : Char} (hc : isSpace c = false) {l : List Char} (hn : l.length < n) :
    ∃ word rest, operand A (c :: l) = some (word, rest) ∧ rest <:+ l ∧ Apart rest ∧
      namedFrom A true (spaced (c :: l)) = word :: namedFrom A false (spaced rest) := by
  -- on the length of the text: behind an option the search goes on
  induction n generalizing c l with
  | zero => exact absurd hn (Nat.not_lt_zero _)
  | succ n ih =>
  obtain ⟨w, r, hl, hne, hw, hr, htake, hdrop⟩ := exists_word hc l
  have hsuffix : r <:+ l := by
    cases w with
    | nil => exact absurd rfl hne
    | cons d w =>
      rw [List.cons_append, List.cons.injEq] at hl
      exact ⟨w, hl.2.symm⟩
  have hwords : spaced (c :: l) = w :: spaced r := by rw [hl, spaced_word_append hne hw hr]
  rw [operand, htake, hdrop, if_neg hne, hwords]
  rcases dropWhile_cases r with ⟨hnil, hnone⟩ | ⟨d, l', hcons, hd, hsome⟩
  · refine ⟨w, r, by rw [if_neg fun h => h.2 hnil], hsuffix, hr, ?_⟩
    rw [hnone]
    rfl
  · obtain ⟨v, r', hl', hne', hv, hr', -⟩ := exists_word hd l'
    have hwords' : spaced (d :: l') = v :: spaced r' := by rw [hl', spaced_word_append hne' hv hr']
    rw [hsome, hwords']
    by_cases hflag : isFlag A w = true
    · have hshort : l'.length < n := by
        have h1 := hsuffix.length_le
        have h2 := (List.dropWhile_suffix isSpace (l := r)).length_le
        rw [hcons, List.length_cons] at h2
        omega
      have hlonger : l' <:+ l := by
        have h2 := List.dropWhile_suffix isSpace (l := r)
        rw [hcons] at h2
        exact ((List.suffix_cons d l').trans h2).trans hsuffix
      obtain ⟨word, rest, hoperand, hrest, hapart, hnamed⟩ := ih hd hshort
      refine ⟨word, rest, ?_, hrest.trans hlonger, hapart, ?_⟩
      · rw [if_pos ⟨hflag, by rw [hcons]; exact List.cons_ne_nil _ _⟩, hcons, hoperand]
      · rw [namedFrom, if_pos hflag, ← hwords', hnamed]
    · refine ⟨w, r, by rw [if_neg fun h => hflag h.1], hsuffix, hr, ?_⟩
      rw [namedFrom, if_neg hflag, hsome, hwords']

/-! ### The scan -/

/-- The rest of a match is passed over. -/
theorem targetsFrom_skip (before : Option Char) (u rest : List Char) :
    ∃ b, targetsFrom A before (u ++ rest) u.length = targetsFrom A b rest 0 := by
  induction u generalizing before with
  | nil => exact ⟨before, rfl⟩
  | cons c u ih => exact ih (some c)

/-- `mkdir` stands at the beginning of a text only if it ends its first word. -/
theorem mkdirAt_word {before : Option Char} {c : Char} {w r : List Char} (hw : ∀ d ∈ c :: w, isSpace d = false)
    (hr : Apart r) : mkdirAt A before (c :: w ++ r) =
      if !before.any (isWord A.isLetter) && c :: w == "mkdir".toList then operand A (r.dropWhile isSpace)
      else none := by
  have hlength : "mkdir".toList.length = 5 := rfl
  have hletters : ∀ d ∈ "mkdir".toList, isSpace d = false := by decide
  rw [mkdirAt]
  generalize "mkdir".toList = mk at hlength hletters ⊢
  cases hb : !before.any (isWord A.isLetter) with
  | false => rfl
  | true =>
  by_cases heq : c :: w = mk
  · -- what follows is white space, or nothing
    have hdrop : (c :: w ++ r).drop 5 = r := by rw [heq, List.drop_left' hlength]
    rw [List.isPrefixOf_iff_prefix.mpr (heq ▸ List.prefix_append mk r), hdrop, beq_iff_eq.mpr heq]
    cases r with
    | nil => rw [operand]; rfl
    | cons d r =>
      rw [List.head?_cons, Option.any_some, hr d rfl]
      rfl
  · rw [beq_eq_false_iff_ne.mpr heq, Bool.and_false, if_neg Bool.false_ne_true]
    refine if_neg fun h => ?_
    rw [Bool.true_and, Bool.and_eq_true, List.isPrefixOf_iff_prefix] at h
    obtain ⟨⟨t, ht⟩, hspace⟩ := h
    rw [← ht, List.drop_left' hlength] at hspace
    rcases List.append_eq_append_iff.mp ht with ⟨a, ha, hta⟩ | ⟨a, ha, hra⟩
    · -- the word goes on
      cases a with
      | nil => exact heq (by rw [ha, List.append_nil])
      | cons d a =>
        rw [hta, List.cons_append, List.head?_cons, Option.any_some,
          hw d (ha ▸ List.mem_append_right mk List.mem_cons_self)] at hspace
        cases hspace
    · -- the word is shorter
      cases a with
      | nil => exact heq (by rw [ha, List.append_nil])
      | cons d a =>
        have hd := hr d (by rw [hra]; rfl)
        rw [hletters d (ha ▸ List.mem_append_right _ List.mem_cons_self)] at hd
        cases hd

theorem operand_suffix {r word rest : List Char} (h : operand A (r.dropWhile isSpace) = some (word, rest)) :
    rest <:+ r ∧ Apart rest ∧ namedFrom A true (spaced r) = word :: namedFrom A false (spaced rest) := by
  rcases dropWhile_cases r with ⟨hnil, -⟩ | ⟨d, l, hcons, hd, hwords⟩
  · rw [hnil, operand] at h
    cases h
  · obtain ⟨word', rest', hoperand, hrest, hapart, hnamed⟩ := operand_spec (A := A) (l.length + 1) hd
      (Nat.lt_succ_self _)
    rw [hcons, hoperand] at h
    cases h
    have hsuffix := List.dropWhile_suffix isSpace (l := r)
    rw [hcons] at hsuffix
    exact ⟨(hrest.trans (List.suffix_cons d l)).trans hsuffix, hapart, by rw [hwords, hnamed]⟩

theorem operand_eq_none {r : List Char} (h : operand A (r.dropWhile isSpace) = none) : spaced r = [] := by
  rcases dropWhile_cases r with ⟨-, hnone⟩ | ⟨d, l, hcons, hd, -⟩
  · exact hnone
  · obtain ⟨word, rest, hoperand, -⟩ := operand_spec (A := A) (l.length + 1) hd (Nat.lt_succ_self _)
    rw [hcons, hoperand] at h
    cases h

/-- One word of a text: behind it the scan goes on, or behind the word that it finds. -/
theorem targetsFrom_word {before : Option Char} {w r : List Char} (hw : ∀ d ∈ w, isSpace d = false)
    (hr : Apart r) : ∃ b, targetsFrom A before (w ++ r) 0 =
      match (if endsInMkdir A before w then operand A (r.dropWhile isSpace) else none) with
      | some (word, rest) => word :: targetsFrom A b rest 0
      | none => targetsFrom A b r 0 := by
  induction w generalizing before with
  | nil => exact ⟨before, rfl⟩
  | cons c w ih =>
    obtain ⟨b, hb⟩ := @ih (some c) fun d hd => hw d (List.mem_cons_of_mem c hd)
    rw [List.cons_append, targetsFrom, ← List.cons_append, mkdirAt_word hw hr, endsInMkdir]
    cases hcond : !before.any (isWord A.isLetter) && c :: w == "mkdir".toList with
    | false => exact ⟨b, by rw [Bool.false_or, if_neg Bool.false_ne_true]; exact hb⟩
    | true =>
      rw [Bool.true_or, if_pos rfl]
      cases hoperand : operand A (r.dropWhile isSpace) with
      | none =>
        refine ⟨b, ?_⟩
        rw [hoperand, ite_self] at hb
        exact hb
      | some p =>
        obtain ⟨word, rest⟩ := p
        obtain ⟨u, hu⟩ := (operand_suffix hoperand).1
        obtain ⟨b', hskip⟩ := targetsFrom_skip (A := A) (some c) (w ++ u) rest
        refine ⟨b', congrArg (word :: ·) ?_⟩
        have hlength : (w ++ r).length - rest.length = (w ++ u).length := by
          rw [← hu, List.length_append, List.length_append, List.length_append]
          omega
        rw [hlength, ← hskip, ← hu, List.append_assoc]

theorem isWord_of_isSpace {c : Char} (hc : isSpace c = true) : isWord A.isLetter c = false := by
  rw [isWord]
  split
  · next hascii =>
    have hall : ∀ n < 128, isSpace (Char.ofNat n) = true →
        ((Char.ofNat n).isAlphanum || Char.ofNat n == '_') = false := by decide
    have hspace := hall c.toNat hascii
    rw [Char.ofNat_toNat] at hspace
    exact hspace hc
  · exact A.not_space c hc

theorem endsInMkdir_space {before : Option Char} (h : ∀ c ∈ before, isSpace c = true) (w : List Char) :
    endsInMkdir A before w = endsInMkdir A none w := by
  cases w with
  | nil => rfl
  | cons c w =>
    have hbefore : before.any (isWord A.isLetter) = false := by
      cases before with
      | none => rfl
      | some d => exact isWord_of_isSpace (h d rfl)
    rw [endsInMkdir, endsInMkdir, hbefore]
    rfl

/-- **The expression finds the words that follow `mkdir` and its options.** -/
theorem targetsFrom_eq (n : ℕ) {before : Option Char} {l : List Char} (hn : l.length < n)
    (h : (∀ c ∈ before, isSpace c = true) ∨ Apart l) : targetsFrom A before l 0 = namedFrom A false (spaced l) := by
  -- on the length of the text, a word or a blank at a time
  induction n generalizing before l with
  | zero => exact absurd hn (Nat.not_lt_zero _)
  | succ n ih =>
  cases l with
  | nil => rfl
  | cons c l =>
  rw [List.length_cons] at hn
  cases hc : isSpace c with
  | true =>
    have hnone : mkdirAt A before (c :: l) = none := by
      refine if_neg fun hmatch => ?_
      rw [Bool.and_eq_true, Bool.and_eq_true, List.isPrefixOf_iff_prefix] at hmatch
      obtain ⟨t, ht⟩ := hmatch.1.2
      obtain rfl : 'm' = c := (List.cons.inj ht).1
      exact absurd hc (by decide)
    rw [targetsFrom, hnone, spaced_space hc]
    exact ih (by omega) (.inl fun d hd => by cases hd; exact hc)
  | false =>
    have hbefore : ∀ c ∈ before, isSpace c = true := h.resolve_right fun hapart => by
      rw [hapart c rfl] at hc
      cases hc
    obtain ⟨w, r, hl, hne, hw, hr, -⟩ := exists_word hc l
    have hlength : (w ++ r).length = l.length + 1 := by rw [← hl, List.length_cons]
    have hpos := List.length_pos_of_ne_nil hne
    rw [List.length_append] at hlength
    obtain ⟨b, hb⟩ := @targetsFrom_word A before w r hw hr
    rw [hl, spaced_word_append hne hw hr, hb, endsInMkdir_space hbefore, namedFrom]
    cases hends : endsInMkdir A none w with
    | false => exact ih (by omega) (.inr hr)
    | true =>
      rw [if_pos rfl]
      cases hoperand : operand A (r.dropWhile isSpace) with
      | none =>
        have hnone := operand_eq_none hoperand
        have hrest := @ih b r (by omega) (.inr hr)
        rw [hnone] at hrest ⊢
        exact hrest
      | some p =>
        obtain ⟨word, rest⟩ := p
        obtain ⟨hsuffix, hapart, hnamed⟩ := operand_suffix hoperand
        have hle := hsuffix.length_le
        rw [hnamed]
        exact congrArg (word :: ·) (ih (by omega) (.inr hapart))

theorem targets_eq (l : List Char) : targets A l = named A (spaced l) :=
  targetsFrom_eq (l.length + 1) (Nat.lt_succ_self _) (.inl fun _ h => by cases h)

end Done
end LfsWorker
end CloudCore
