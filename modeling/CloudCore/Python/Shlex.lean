import CloudCore.Formats.Shell
import CloudCore.Python.Json

/-!
# `shlex.split`

`shlex.split(s, posix=True)`: white space separates, and quotes and the backslash work as in a shell.

## Main results

* `shlexSplit_eq_words` — a line without quotes and backslashes is split at its blanks.
* `shlexQuote_injective` — a quoted text tells what it quotes.
-/

namespace Python

open Shell (isWordChar isBlank isSep words)

/-- Where the reader is: between two words, in a word, in quotes, or behind a backslash, which may
stand in quotes. -/
inductive ShlexState where
  | between
  | word
  | quotes (q : Char)
  | escape (within : Option Char)
  deriving DecidableEq

def isShlexSpace (c : Char) : Bool := c == ' ' || c == '\t' || c == '\r' || c == '\n'

def isQuote (c : Char) : Bool := c == '\'' || c == '"'

/-- `token` is the word so far, and `quoted` says that a quote belonged to it: then it counts even
where it is empty. -/
def emit (token : List Char) (quoted : Bool) (ws : List (List Char)) : List (List Char) :=
  if token ≠ [] ∨ quoted then token :: ws else ws

def shlexGo : ShlexState → List Char → Bool → List Char → Except Exc (List (List Char))
  | .between, _, _, [] => .ok []
  | .word, token, quoted, [] => .ok (emit token quoted [])
  -- no closing quotation
  | .quotes _, _, _, [] => .error .valueError
  -- no escaped character
  | .escape _, _, _, [] => .error .valueError
  | .between, _, _, c :: l =>
    if isShlexSpace c then shlexGo .between [] false l
    else if c = '\\' then shlexGo (.escape none) [] false l
    else if isQuote c then shlexGo (.quotes c) [] true l
    else shlexGo .word [c] false l
  | .word, token, quoted, c :: l =>
    if isShlexSpace c then (shlexGo .between [] false l).map (emit token quoted)
    else if isQuote c then shlexGo (.quotes c) token true l
    else if c = '\\' then shlexGo (.escape none) token quoted l
    else shlexGo .word (token ++ [c]) quoted l
  | .quotes q, token, _, c :: l =>
    if c = q then shlexGo .word token true l
    else if c = '\\' ∧ q = '"' then shlexGo (.escape (some q)) token true l
    else shlexGo (.quotes q) (token ++ [c]) true l
  | .escape none, token, quoted, c :: l => shlexGo .word (token ++ [c]) quoted l
  | .escape (some q), token, quoted, c :: l =>
    -- in quotes a backslash is one, unless it stands before another or the quote
    shlexGo (.quotes q) (if c = '\\' ∨ c = q then token ++ [c] else token ++ ['\\', c]) quoted l

/-- `shlex.split(s, posix=True)`. -/
def shlexSplit (l : List Char) : Except Exc (List (List Char)) := shlexGo .between [] false l

/-- A character that needs no quotes. -/
def isQuoteFree (c : Char) : Bool := c.isAlphanum || "@%_+=:,./-".toList.contains c

/-- `shlex.quote`. -/
def shlexQuote (l : List Char) : List Char :=
  if l ≠ [] ∧ l.all isQuoteFree then l
  else '\'' :: l.flatMap (fun c => if c = '\'' then "'\"'\"'".toList else [c]) ++ ['\'']

/-- What a character becomes in single quotes. -/
def inQuotes (c : Char) : List Char := if c = '\'' then "'\"'\"'".toList else [c]

theorem shlexQuote_eq (l : List Char) :
    shlexQuote l = if l ≠ [] ∧ l.all isQuoteFree then l else '\'' :: (l.flatMap inQuotes ++ ['\'']) := rfl

theorem inQuotes_quote : inQuotes '\'' = '\'' :: "\"'\"'".toList := rfl

theorem inQuotes_of_ne {c : Char} (h : c ≠ '\'') : inQuotes c = [c] := if_neg h

theorem flatMap_inQuotes_injective : Function.Injective (List.flatMap inQuotes) := by
  intro l
  induction l with
  | nil =>
    intro m h
    cases m with
    | nil => rfl
    | cons d m =>
      rw [List.flatMap_cons] at h
      by_cases hd : d = '\''
      · rw [hd] at h
        cases h
      · rw [inQuotes_of_ne hd] at h
        cases h
  | cons c l ih =>
    intro m h
    cases m with
    | nil =>
      rw [List.flatMap_cons] at h
      by_cases hc : c = '\''
      · rw [hc] at h
        cases h
      · rw [inQuotes_of_ne hc] at h
        cases h
    | cons d m =>
      rw [List.flatMap_cons, List.flatMap_cons] at h
      by_cases hc : c = '\''
      · by_cases hd : d = '\''
        · subst hc hd
          rw [ih (List.append_cancel_left h)]
        · rw [hc, inQuotes_of_ne hd, inQuotes_quote] at h
          exact absurd (List.cons.inj h).1.symm hd
      · by_cases hd : d = '\''
        · rw [hd, inQuotes_of_ne hc, inQuotes_quote] at h
          exact absurd (List.cons.inj h).1 hc
        · rw [inQuotes_of_ne hc, inQuotes_of_ne hd] at h
          obtain ⟨rfl, hrest⟩ := List.cons.inj h
          rw [ih hrest]

/-- **A quoted text tells what it quotes.** -/
theorem shlexQuote_injective : Function.Injective shlexQuote := by
  intro l m h
  rw [shlexQuote_eq, shlexQuote_eq] at h
  -- a text with a quote at its front is not free of quotes
  have hquoted (l r : List Char) (hl : l ≠ [] ∧ l.all isQuoteFree = true) : l ≠ '\'' :: r := by
    rintro rfl
    exact absurd (List.all_eq_true.mp hl.2 '\'' List.mem_cons_self) (by decide)
  split at h
  · next hl =>
    split at h
    · exact h
    · exact absurd h (hquoted l _ hl)
  · split at h
    · next hm => exact absurd h.symm (hquoted m _ hm)
    · exact flatMap_inQuotes_injective (List.append_cancel_right (List.cons.inj h).2)

theorem count_shlexQuote {c : Char} (hc : c ≠ '\'' ∧ c ≠ '"') (l : List Char) : (shlexQuote l).count c = l.count c := by
  have hflat : (l.flatMap inQuotes).count c = l.count c := by
    induction l with
    | nil => rfl
    | cons d l ih =>
      rw [List.flatMap_cons, List.count_append, ih, List.count_cons]
      by_cases hd : d = '\''
      · subst hd
        have hnone : (inQuotes '\'').count c = 0 := List.count_eq_zero.mpr fun hmem => by
          simp [inQuotes, hc.1, hc.2] at hmem
        rw [hnone, if_neg (by simpa using Ne.symm hc.1), Nat.zero_add, Nat.add_zero]
      · rw [inQuotes_of_ne hd, List.count_singleton, Nat.add_comm]
  rw [shlexQuote_eq]
  split
  · rfl
  · rw [List.count_cons_of_ne (Ne.symm hc.1), List.count_append, hflat, List.count_eq_zero.mpr fun hmem =>
      hc.1 (List.mem_singleton.mp hmem), Nat.add_zero]

theorem length_le_shlexQuote (l : List Char) : l.length ≤ (shlexQuote l).length := by
  have hflat : l.length ≤ (l.flatMap inQuotes).length := by
    induction l with
    | nil => exact le_refl 0
    | cons d l ih =>
      rw [List.flatMap_cons, List.length_append, List.length_cons]
      have hone : 1 ≤ (inQuotes d).length := by
        by_cases hd : d = '\''
        · subst hd
          decide
        · rw [inQuotes_of_ne hd]
          exact le_refl 1
      omega
  rw [shlexQuote_eq]
  split
  · exact le_refl _
  · rw [List.length_cons, List.length_append]
    omega

/-- A character that `shlex` and the shell read alike on one line. -/
def IsUnquoted (c : Char) : Prop :=
  c ≠ '\\' ∧ isQuote c = false ∧ isSep c = false ∧ (isShlexSpace c = true ↔ isBlank c = true)

/-- In a word, and between two. -/
theorem shlexGo_eq_words {l : List Char} (hl : ∀ c ∈ l, IsUnquoted c) :
    shlexGo .between [] false l = .ok (words l) ∧
      ∀ token : List Char, token ≠ [] → (∀ c ∈ token, isWordChar c = true) →
        shlexGo .word token false l = .ok (words (token ++ l)) := by
  induction l with
  | nil =>
    refine ⟨rfl, fun token hne htoken => ?_⟩
    rw [List.append_nil, Shell.words_word hne htoken, shlexGo, emit, if_pos (.inl hne)]
  | cons c l ih =>
    obtain ⟨hbetween, hword⟩ := ih fun d hd => hl d (List.mem_cons_of_mem _ hd)
    obtain ⟨hslash, hquote, hsep, hspace⟩ := hl c List.mem_cons_self
    cases hblank : isBlank c with
    | true =>
      have hc : isShlexSpace c = true := hspace.mpr hblank
      have hwords : words (c :: l) = words l := by
        rw [words, words, Shell.tokens_blank hblank]
      have hend : isWordChar c = false := by simp [isWordChar, hblank]
      constructor
      · rw [shlexGo, if_pos hc, hbetween, hwords]
      · intro token hne htoken
        rw [shlexGo, if_pos hc, hbetween, Shell.words_append (by simpa using hend), hwords,
          Shell.words_word hne htoken]
        simp [Except.map, emit, hne]
    | false =>
      have hc : ¬ isShlexSpace c = true := fun h => by simp [hspace.mp h] at hblank
      have hline : c ≠ '\n' := by
        rintro rfl
        exact hc rfl
      have hwc : isWordChar c = true := Shell.isWordChar_eq_true.mpr ⟨hsep, hline, hblank⟩
      constructor
      · rw [shlexGo, if_neg hc, if_neg hslash, if_neg (by simp [hquote]),
          hword [c] (by simp) (by simpa using hwc)]
        rfl
      · intro token hne htoken
        rw [shlexGo, if_neg hc, if_neg (by simp [hquote]), if_neg hslash,
          hword (token ++ [c]) (by simp) ?_, List.append_assoc]
        · rfl
        · intro d hd
          obtain hd | hd := List.mem_append.mp hd
          · exact htoken d hd
          · rw [List.mem_singleton.mp hd]
            exact hwc

/-- **A line without quotes and backslashes is split at its blanks.** -/
theorem shlexSplit_eq_words {l : List Char} (hl : ∀ c ∈ l, IsUnquoted c) :
    shlexSplit l = .ok (words l) := (shlexGo_eq_words hl).1

example : shlexSplit "a' b' \"\" \\ c".toList =
    .ok ["a b".toList, [], " c".toList] := by decide

end Python
