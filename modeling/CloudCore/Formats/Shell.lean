import Mathlib.Data.List.TakeWhile

/-!
# Simple shell commands

Words between blanks, commands between `;`, `&`, `|` and line ends, the operands of a command, and
the paths that they name.  There are no quotes and no substitutions.

## Main definitions

* `tokens`, `commands` — the words of a text, and its commands.
* `argsOf`, `operands` — the arguments of a command, and what is left of them without the options.
* `resolve` — the directories on the way to what a path names.
* `Below` — a place below a directory.

## Main results

* `tokens_append` — a text is read piece by piece where a word ends.
* `tokens_word` — a run of word characters is one word.
* `below_normalise` — a path without `..` stays below the directory that it begins with.
-/

namespace Shell

/-! ### Tokens -/

/-- Between two commands of a line. -/
def isSep (c : Char) : Bool := c == ';' || c == '&' || c == '|'

def isBlank (c : Char) : Bool := c == ' ' || c == '\t'

def isWordChar (c : Char) : Bool := !(isSep c || isBlank c || c == '\n')

inductive Token where
  | word (w : List Char)
  | sep
  | newline
  deriving DecidableEq

/-- A character in front of a word that it belongs to. -/
def extend (c : Char) : List Token → List Token
  | .word w :: ts => .word (c :: w) :: ts
  | ts => .word [c] :: ts

def tokens : List Char → List Token
  | [] => []
  | c :: l =>
    if isSep c then .sep :: tokens l
    else if c = '\n' then .newline :: tokens l
    else if isBlank c then tokens l
    else if l.head?.any isWordChar then extend c (tokens l)
    else .word [c] :: tokens l

def Token.word? : Token → Option (List Char)
  | .word w => some w
  | _ => none

/-- The words of a text. -/
def words (l : List Char) : List (List Char) := (tokens l).filterMap Token.word?

variable {c : Char} {l a b w : List Char}

theorem isWordChar_eq_true :
    isWordChar c = true ↔ isSep c = false ∧ c ≠ '\n' ∧ isBlank c = false := by
  unfold isWordChar
  cases isSep c <;> cases isBlank c <;> simp

theorem not_isWordChar (h : isWordChar c = false) :
    isSep c = true ∨ c = '\n' ∨ isBlank c = true := by
  unfold isWordChar at h
  cases hsep : isSep c with
  | true => exact .inl rfl
  | false =>
    cases hblank : isBlank c with
    | true => exact .inr (.inr rfl)
    | false => exact .inr (.inl (by simpa [hsep, hblank] using h))

@[simp] theorem tokens_nil : tokens [] = [] := rfl

theorem tokens_sep (h : isSep c = true) : tokens (c :: l) = .sep :: tokens l := by
  rw [tokens, if_pos h]

theorem tokens_newline : tokens ('\n' :: l) = .newline :: tokens l := by
  rw [tokens, if_neg (by decide), if_pos rfl]

theorem tokens_blank (h : isBlank c = true) : tokens (c :: l) = tokens l := by
  have hc : c = ' ' ∨ c = '\t' := by simpa [isBlank] using h
  obtain rfl | rfl := hc <;> rfl

theorem tokens_wordChar (h : isWordChar c = true) :
    tokens (c :: l) =
      if l.head?.any isWordChar then extend c (tokens l) else .word [c] :: tokens l := by
  obtain ⟨hsep, hline, hblank⟩ := isWordChar_eq_true.mp h
  rw [tokens, if_neg (by simp [hsep]), if_neg hline, if_neg (by simp [hblank])]

/-- What begins with a character of a word has the word first. -/
theorem exists_tokens_eq (h : l.head?.any isWordChar = true) :
    ∃ w ts, tokens l = .word w :: ts := by
  cases l with
  | nil => cases h
  | cons c l =>
    have hc : isWordChar c = true := by simpa using h
    rw [tokens_wordChar hc]
    split
    · cases tokens l with
      | nil => exact ⟨_, _, rfl⟩
      | cons t ts => cases t <;> exact ⟨_, _, rfl⟩
    · exact ⟨_, _, rfl⟩

/-- **A text is read piece by piece where no word goes on.** -/
theorem tokens_append (hb : b.head?.any isWordChar = false) :
    tokens (a ++ b) = tokens a ++ tokens b := by
  induction a with
  | nil => rfl
  | cons c a ih =>
    rw [List.cons_append]
    cases hc : isWordChar c with
    | true =>
      rw [tokens_wordChar hc, tokens_wordChar hc, ih]
      cases a with
      | nil => rw [List.nil_append, hb]; rfl
      | cons d a =>
        show (if isWordChar d = true then _ else _) = (if isWordChar d = true then _ else _) ++ _
        split
        · next hd =>
          obtain ⟨w, ts, hts⟩ := exists_tokens_eq (l := d :: a) (by simpa using hd)
          rw [hts]
          rfl
        · rfl
    | false =>
      obtain h | rfl | h := not_isWordChar hc
      · rw [tokens_sep h, tokens_sep h, ih, List.cons_append]
      · rw [tokens_newline, tokens_newline, ih, List.cons_append]
      · rw [tokens_blank h, tokens_blank h, ih]

/-- **A run of word characters is one word.** -/
theorem tokens_word (hne : w ≠ []) (hw : ∀ c ∈ w, isWordChar c = true) :
    tokens w = [.word w] := by
  induction w with
  | nil => exact absurd rfl hne
  | cons c w ih =>
    rw [tokens_wordChar (hw c List.mem_cons_self)]
    cases w with
    | nil => rfl
    | cons d w =>
      have hd : isWordChar d = true := hw d (by simp)
      rw [ih (by simp) fun c hc => hw c (List.mem_cons_of_mem _ hc)]
      simp [hd, extend]

/-- The first word, and the rest. -/
theorem tokens_takeWhile (h : l.head?.any isWordChar = true) :
    tokens l = .word (l.takeWhile isWordChar) :: tokens (l.dropWhile isWordChar) := by
  have hrest : (l.dropWhile isWordChar).head?.any isWordChar = false := by
    have hhead := List.head?_dropWhile_not isWordChar l
    cases hd : (l.dropWhile isWordChar).head? with
    | none => rfl
    | some d => rwa [hd] at hhead
  have hne : l.takeWhile isWordChar ≠ [] := by
    cases l with
    | nil => cases h
    | cons c l =>
      have hc : isWordChar c = true := h
      rw [List.takeWhile_cons_of_pos hc]
      exact List.cons_ne_nil _ _
  have hsplit : tokens l = tokens (l.takeWhile isWordChar ++ l.dropWhile isWordChar) := by
    rw [List.takeWhile_append_dropWhile]
  rw [hsplit, tokens_append hrest, tokens_word hne fun _ hc => List.mem_takeWhile_imp hc]
  rfl

theorem filterMap_map_word (ws : List (List Char)) :
    (ws.map Token.word).filterMap Token.word? = ws := by
  rw [List.filterMap_map]
  exact List.filterMap_some

theorem words_append (hb : b.head?.any isWordChar = false) :
    words (a ++ b) = words a ++ words b := by
  rw [words, tokens_append hb, List.filterMap_append]
  rfl

theorem words_word (hne : w ≠ []) (hw : ∀ c ∈ w, isWordChar c = true) : words w = [w] := by
  rw [words, tokens_word hne hw]
  rfl

/-- On one line without separators there are only words. -/
theorem tokens_eq_words (h : ∀ c ∈ l, isSep c = false ∧ c ≠ '\n') :
    tokens l = (words l).map .word := by
  induction l with
  | nil => rfl
  | cons c l ih =>
    have hl := ih fun d hd => h d (List.mem_cons_of_mem _ hd)
    obtain ⟨hsep, hline⟩ := h c List.mem_cons_self
    cases hc : isBlank c with
    | true => rw [words, tokens_blank hc]; exact hl
    | false =>
      have hword := isWordChar_eq_true.mpr ⟨hsep, hline, hc⟩
      rw [words, tokens_wordChar hword, hl]
      split
      · cases words l with
        | nil => rfl
        | cons w ws =>
          show _ = ((c :: w) :: (ws.map Token.word).filterMap Token.word?).map Token.word
          rw [filterMap_map_word]
          rfl
      · show _ = ([c] :: ((words l).map Token.word).filterMap Token.word?).map Token.word
        rw [filterMap_map_word]
        rfl

/-- Between words there is nothing. -/
theorem words_blanks (h : ∀ c ∈ l, isBlank c = true) : words l = [] := by
  induction l with
  | nil => rfl
  | cons c l ih =>
    rw [words, tokens_blank (h c List.mem_cons_self)]
    exact ih fun d hd => h d (List.mem_cons_of_mem _ hd)

/-! ### Commands -/

/-- The commands of a text, each with its words. -/
def commands : List Token → List (List (List Char))
  | [] => [[]]
  | .word w :: ts => (commands ts).modifyHead (w :: ·)
  | _ :: ts => [] :: commands ts

theorem exists_commands_eq (ts : List Token) : ∃ c cs, commands ts = c :: cs := by
  induction ts with
  | nil => exact ⟨_, _, rfl⟩
  | cons t ts ih =>
    cases t with
    | word w =>
      obtain ⟨c, cs, h⟩ := ih
      exact ⟨w :: c, cs, by rw [commands, h]; rfl⟩
    | sep => exact ⟨_, _, rfl⟩
    | newline => exact ⟨_, _, rfl⟩

/-- A character of a variable's name. -/
def isName (c : Char) : Bool := c.isAlphanum || c == '_'

/-- `NAME=value`. -/
def isAssignment (w : List Char) : Bool :=
  w.head?.any (fun c => isName c && !c.isDigit) && (w.dropWhile isName).head? == some '='

/-- The arguments of a command of this name. -/
def argsOf (name : List Char) (command : List (List Char)) : List (List Char) :=
  match command.dropWhile isAssignment with
  | w :: args => if w = name then args else []
  | [] => []

/-- What is left of the arguments without the options. -/
def operands : List (List Char) → List (List Char)
  | [] => []
  | w :: args =>
    if w = ['-', '-'] then args
    else if w.head? = some '-' ∧ w ≠ ['-'] then operands args
    else w :: operands args

theorem operands_subset : ∀ {args : List (List Char)}, ∀ w ∈ operands args, w ∈ args
  | [], _, h => h
  | v :: args, w, h => by
    rw [operands] at h
    split at h
    · exact List.mem_cons_of_mem _ h
    · split at h
      · exact List.mem_cons_of_mem _ (operands_subset w h)
      · obtain rfl | h := List.mem_cons.mp h
        · exact List.mem_cons_self
        · exact List.mem_cons_of_mem _ (operands_subset w h)

/-- The arguments are what follows the name. -/
theorem argsOf_suffix {name : List Char} {command : List (List Char)}
    (h : argsOf name command ≠ []) : name :: argsOf name command <:+ command := by
  unfold argsOf at h ⊢
  have hsuffix := List.dropWhile_suffix isAssignment (l := command)
  revert h hsuffix
  cases command.dropWhile isAssignment with
  | nil => exact fun h => absurd rfl h
  | cons w args =>
    intro h hsuffix
    by_cases hw : w = name
    · subst hw
      simpa using hsuffix
    · exact absurd (if_neg hw) h

/-! ### Paths -/

/-- The names on a path. -/
def components (path : List Char) : List (List Char) := (path.splitOn '/').filter (· ≠ [])

/-- From a directory to what a name means there. -/
def enter (dirs : List (List Char)) (name : List Char) : List (List Char) :=
  if name = ['.'] then dirs
  else if name = ['.', '.'] then dirs.dropLast
  else dirs ++ [name]

def normalise (names : List (List Char)) : List (List Char) := names.foldl enter []

/-- The names on the way from the root, by the working directory where a path does not begin
there. -/
def fromRoot (cwd path : List Char) : List (List Char) :=
  if path.head? = some '/' then components path else components cwd ++ components path

/-- The place that a path names in a working directory. -/
def resolve (cwd path : List Char) : List (List Char) := normalise (fromRoot cwd path)

/-- A place below a directory, which is not the directory itself. -/
def Below (dir path : List (List Char)) : Prop := dir <+: path ∧ dir ≠ path

instance (dir path : List (List Char)) : Decidable (Below dir path) := by
  unfold Below
  infer_instance

/-- Neither `.` nor `..`. -/
def isProper (name : List Char) : Bool := name ≠ ['.'] && name ≠ ['.', '.']

theorem foldl_enter {names : List (List Char)} (h : ∀ n ∈ names, n ≠ ['.', '.'])
    (dirs : List (List Char)) :
    names.foldl enter dirs = dirs ++ names.filter (· ≠ ['.']) := by
  induction names generalizing dirs with
  | nil => simp
  | cons n names ih =>
    have hn : n ≠ ['.', '.'] := h n List.mem_cons_self
    rw [List.foldl_cons, ih fun m hm => h m (List.mem_cons_of_mem _ hm)]
    by_cases hdot : n = ['.']
    · subst hdot
      simp [enter]
    · rw [List.filter_cons_of_pos (by simpa using hdot), enter, if_neg hdot, if_neg hn,
        List.append_assoc]
      rfl

/-- **A path without `..` stays below the directory that it begins with.** -/
theorem below_normalise {dir names : List (List Char)} (hdir : ∀ n ∈ dir, isProper n = true)
    (hup : ∀ n ∈ names, n ≠ ['.', '.']) (hname : ∃ n ∈ names, n ≠ ['.']) :
    Below dir (normalise (dir ++ names)) := by
  have hall : ∀ n ∈ dir ++ names, n ≠ ['.', '.'] := by
    intro n hn
    obtain hn | hn := List.mem_append.mp hn
    · have h := hdir n hn
      simp only [isProper, Bool.and_eq_true, decide_eq_true_eq] at h
      exact h.2
    · exact hup n hn
  have hself : dir.filter (· ≠ ['.']) = dir := by
    rw [List.filter_eq_self]
    intro n hn
    have h := hdir n hn
    simp only [isProper, Bool.and_eq_true] at h
    exact h.1
  rw [normalise, foldl_enter hall, List.nil_append, List.filter_append, hself]
  refine ⟨List.prefix_append _ _, fun h => ?_⟩
  have hnil := List.self_eq_append_right.mp h
  obtain ⟨n, hn, hdot⟩ := hname
  exact hdot (by simpa using List.filter_eq_nil_iff.mp hnil n hn)

end Shell
