import CloudCore.Formats.Lines
import CloudCore.Python.Slices
import CloudCore.Python.Text
import Mathlib.Data.List.Induction

/-!
# The log of a step

`_StepLog` passes the first lines of a step's output on as they come, keeps only the last ones of the
others, and says at the end how many it left out.  A line that has not ended is passed on early if a
prompt waits at its end.

## Main definitions

* `StepLog`, `StepLog.feed`, `StepLog.close` — the log, a chunk of output, and the end.
* `logged` — all that is said of some chunks.
* `headAndTail` — the first lines, the number of those left out, and the last lines.
* `AsksBehindHead` — a prompt waits on the first line behind the head.

## Main results

* `told_feed` — what a chunk does to the lines that were said and those that are kept.
* `says_headAndTail_iff` — **head and tail are said exactly if no prompt was passed on from the first
  line behind the head, or nothing is left out.**
* `prompt_glued` — the beginning of a line that is left out, and the number of lines in one line.
-/

namespace CloudCore
namespace StepLogs

open Formats Python

/-! ### The log -/

def logHeadLines : ℕ := 40

def logTailLines : ℕ := 15

/-- `(?:[?:>]|\(y/n\)|\[y/n\])\s*$`, in capitals or not. -/
def promptTail (l : Line) : Bool :=
  match l.reverse.dropWhile isSpace with
  | [] => false
  | c :: r =>
    c ∈ ['?', ':', '>'] || ((c :: r).take 5).reverse.map Char.toLower ∈ ["(y/n)".toList, "[y/n]".toList]

/-- `_StepLog`; `said` is what it has said so far. -/
structure StepLog where
  lines : ℕ
  tail : List Line
  partialLine : Line
  said : List Char
  deriving DecidableEq

def StepLog.start : StepLog := ⟨0, [], [], []⟩

def StepLog.say (log : StepLog) (t : List Char) : StepLog := { log with said := log.said ++ t }

/-- `(self.tail + [line])[-_LOG_TAIL_LINES:]`. -/
def StepLog.keep (log : StepLog) (line : Line) : StepLog :=
  { log with tail := sliceFrom (log.tail ++ [line]) (-logTailLines) }

/-- One turn of the loop of `__call__`. -/
def StepLog.line (log : StepLog) (line : Line) : StepLog :=
  let log := { log with lines := log.lines + 1 }
  if log.lines ≤ logHeadLines then log.say (line ++ ['\n']) else log.keep line

/-- `__call__`. -/
def StepLog.feed (log : StepLog) (chunk : List Char) : StepLog :=
  let parts := Formats.lines (log.partialLine ++ chunk)
  let log := parts.dropLast.foldl StepLog.line { log with partialLine := parts.getLastD [] }
  if log.lines ≤ logHeadLines ∧ log.partialLine ≠ [] ∧ promptTail log.partialLine = true then
    { log.say log.partialLine with partialLine := [] }
  else log

/-- The line that says how many lines were left out. -/
def omittedLine (n : ℕ) : Line := "# ... ".toList ++ (toString n).toList ++ " lines omitted ...".toList

/-- What `close` puts into the tail. -/
def StepLog.finish (log : StepLog) : StepLog :=
  if log.partialLine ≠ [] ∧ log.lines < logHeadLines then log.say (log.partialLine ++ ['\n'])
  else if log.partialLine ≠ [] then { log.keep log.partialLine with lines := log.lines + 1 }
  else log

def StepLog.close (log : StepLog) : StepLog :=
  let log := log.finish
  let omitted : ℤ := log.lines - logHeadLines - log.tail.length
  let log := if omitted > 0 then log.say (omittedLine omitted.toNat ++ ['\n']) else log
  log.tail.foldl (fun log line => log.say (line ++ ['\n'])) log

/-- All that is said of the chunks of an output. -/
def logged (chunks : List (List Char)) : List Char := ((chunks.foldl StepLog.feed .start).close).said

/-! ### Head and tail -/

/-- The lines of an output; the last one may not have ended. -/
def written (t : List Char) : List Line :=
  let ls := Formats.lines t
  if ls.getLastD [] = [] then ls.dropLast else ls

/-- The last line has not ended. -/
def Unended (t : List Char) : Prop := (Formats.lines t).getLastD [] ≠ []

/-- The last of some lines. -/
def lastLines (ls : List Line) : List Line := sliceFrom ls (-logTailLines)

/-- The first lines, how many are left out if any are, and the last lines. -/
def headAndTail (ls : List Line) : List Line :=
  ls.take logHeadLines ++
    (if logHeadLines + logTailLines < ls.length then
      [omittedLine (ls.length - (logHeadLines + logTailLines))] else []) ++
    lastLines (ls.drop logHeadLines)

/-- The text of some lines. -/
def endedLines (ls : List Line) : List Char := ls.flatMap (· ++ ['\n'])

instance (t : List Char) : Decidable (Unended t) := inferInstanceAs (Decidable (_ ≠ _))

/-- What is said is head and tail of the output; the end of a line that has not ended may be
missing. -/
def SaysHeadAndTail (t out : List Char) : Prop :=
  out = endedLines (headAndTail (written t)) ∨
    Unended t ∧ out ++ ['\n'] = endedLines (headAndTail (written t))

instance (t out : List Char) : Decidable (SaysHeadAndTail t out) := inferInstanceAs (Decidable (_ ∨ _))

/-- The head is complete, and on the line behind it a prompt waits. -/
def AsksBehindHead (t : List Char) : Prop :=
  (Formats.lines t).length = logHeadLines + 1 ∧ Unended t ∧
    promptTail ((Formats.lines t).getLastD []) = true

/-! ### Lines -/

@[simp] theorem endedLines_nil : endedLines [] = [] := rfl

@[simp] theorem endedLines_cons (l : Line) (ls : List Line) :
    endedLines (l :: ls) = l ++ '\n' :: endedLines ls := by
  simp [endedLines]

@[simp] theorem endedLines_append (ls ks : List Line) :
    endedLines (ls ++ ks) = endedLines ls ++ endedLines ks :=
  List.flatMap_append

theorem lines_endedLines {ls : List Line} (h : ∀ l ∈ ls, '\n' ∉ l) (r : List Char) :
    Formats.lines (endedLines ls ++ r) = ls ++ Formats.lines r := by
  induction ls with
  | nil => rfl
  | cons l ls ih =>
    obtain ⟨hl, hls⟩ := List.forall_mem_cons.mp h
    rw [endedLines_cons, List.append_assoc, List.cons_append, lines_append, lines_of_not_mem hl, ih hls]
    rfl

/-- Every text is lines that have ended, and one that has not. -/
theorem exists_endedLines (t : List Char) :
    ∃ ls r, t = endedLines ls ++ r ∧ (∀ l ∈ ls, '\n' ∉ l) ∧ '\n' ∉ r := by
  induction t with
  | nil => exact ⟨[], [], rfl, nofun, List.not_mem_nil⟩
  | cons c t ih =>
    obtain ⟨ls, r, rfl, hls, hr⟩ := ih
    by_cases hc : c = '\n'
    · subst hc
      exact ⟨[] :: ls, r, rfl, List.forall_mem_cons.mpr ⟨List.not_mem_nil, hls⟩, hr⟩
    -- a character goes to the first line, ended or not
    · cases ls with
      | nil => exact ⟨[], c :: r, rfl, nofun, List.not_mem_cons_of_ne_of_not_mem (Ne.symm hc) hr⟩
      | cons l ls =>
        obtain ⟨hl, hrest⟩ := List.forall_mem_cons.mp hls
        refine ⟨(c :: l) :: ls, r, ?_, List.forall_mem_cons.mpr ⟨?_, hrest⟩, hr⟩
        · rw [endedLines_cons, endedLines_cons]
          rfl
        · exact List.not_mem_cons_of_ne_of_not_mem (Ne.symm hc) hl

theorem length_lastLines (ls : List Line) : (lastLines ls).length = min logTailLines ls.length := by
  rw [lastLines, sliceFrom_neg ls (by decide), List.length_drop]
  omega

theorem lastLines_eq_self {ls : List Line} (h : ls.length ≤ logTailLines) : lastLines ls = ls := by
  rw [lastLines, sliceFrom_neg ls (by decide), Nat.sub_eq_zero_of_le h]
  rfl

/-- The last lines of what has one line more. -/
theorem lastLines_concat (ls : List Line) (l : Line) :
    lastLines (lastLines ls ++ [l]) = lastLines (ls ++ [l]) := by
  have htail : 0 < logTailLines := by decide
  simp only [lastLines, sliceFrom_neg _ htail, List.length_append, List.length_drop, List.length_singleton]
  rw [List.drop_append_of_le_length (by rw [List.length_drop]; omega), List.drop_drop,
    List.drop_append_of_le_length (by omega)]
  congr 2
  omega

/-- The first line is not one of the last ones. -/
theorem lastLines_cons {ls : List Line} (h : logTailLines ≤ ls.length) (l : Line) :
    lastLines (l :: ls) = lastLines ls := by
  have hlength : (l :: ls).length - logTailLines = ls.length - logTailLines + 1 := by
    rw [List.length_cons]
    omega
  rw [lastLines, lastLines, sliceFrom_neg _ (by decide), sliceFrom_neg _ (by decide), hlength,
    List.drop_succ_cons]

/-! ### What was said, and what is kept -/

/-- The log has said the lines `heads` and then `g`, the beginning of a line, and has the last ones of
`rest`; where `rest` is not empty, its first line is what was still to be said of the line that
begins with `g`. -/
structure Told (log : StepLog) (heads : List Line) (g : Line) (rest : List Line) : Prop where
  heads_le : heads.length ≤ logHeadLines
  full : rest ≠ [] → heads.length = logHeadLines
  lines_eq : log.lines = heads.length + rest.length
  said_eq : log.said = endedLines heads ++ g
  tail_eq : log.tail = lastLines rest
  ended : ∀ l ∈ heads ++ rest, '\n' ∉ l
  begun : '\n' ∉ g

/-- The output so far, less the beginning of a line that is not said. -/
def textOf (heads : List Line) (g : Line) (rest : List Line) : List Char :=
  endedLines heads ++ g ++ endedLines rest

/-- The beginning of the first line behind the head is said. -/
def Held (heads : List Line) (g : Line) : Prop := heads.length = logHeadLines ∧ g ≠ []

theorem told_start : Told .start [] [] [] where
  heads_le := Nat.zero_le _
  full := nofun
  lines_eq := rfl
  said_eq := rfl
  tail_eq := rfl
  ended := nofun
  begun := List.not_mem_nil

variable {log : StepLog} {heads rest : List Line} {g : Line}

/-- As long as the head is not full nothing is kept. -/
theorem Told.rest_eq_nil (h : Told log heads g rest) (hlines : log.lines ≤ logHeadLines) : rest = [] := by
  by_contra hrest
  have hfull := h.full hrest
  have hlength := List.length_pos_iff.mpr hrest
  have heq := h.lines_eq
  omega

theorem Told.of_partialLine (h : Told log heads g rest) (p : Line) :
    Told { log with partialLine := p } heads g rest :=
  ⟨h.heads_le, h.full, h.lines_eq, h.said_eq, h.tail_eq, h.ended, h.begun⟩

/-- **One line**: it is said behind what is said of it, or it goes into the tail. -/
theorem told_line (h : Told log heads g rest) {l : Line} (hl : '\n' ∉ l) :
    ∃ heads' g' rest', Told (log.line l) heads' g' rest' ∧
      textOf heads' g' rest' = textOf heads g rest ++ (l ++ ['\n']) ∧
      (Held heads' g' ↔ Held heads g) := by
  have heq := h.lines_eq
  -- the head has room for the line, or it goes into the tail
  by_cases hhead : log.lines + 1 ≤ logHeadLines
  · have hrest : rest = [] := h.rest_eq_nil (Nat.le_of_succ_le hhead)
    subst hrest
    rw [List.length_nil, Nat.add_zero] at heq
    have hline : log.line l = { log with lines := log.lines + 1 }.say (l ++ ['\n']) := if_pos hhead
    refine ⟨heads ++ [g ++ l], [], [], ⟨?_, nofun, ?_, ?_, ?_, ?_, List.not_mem_nil⟩, ?_, ?_⟩
    · rw [List.length_append, List.length_singleton]
      omega
    · rw [hline, List.length_append, List.length_singleton, ← heq]
      rfl
    · rw [hline]
      show log.said ++ (l ++ ['\n']) = _
      rw [h.said_eq]
      simp
    · rw [hline]
      exact h.tail_eq
    · intro k hk
      rw [List.append_nil] at hk
      obtain hk | hk := List.mem_append.mp hk
      · exact h.ended k (List.mem_append_left _ hk)
      · rw [List.mem_singleton.mp hk]
        exact List.not_mem_append h.begun hl
    · simp [textOf]
    · -- the head was not full before
      constructor
      · exact fun hheld => absurd rfl hheld.2
      · intro hheld
        have hfull := hheld.1
        omega
  -- a head that is full stays as it is
  · have hfull : heads.length = logHeadLines := by
      by_cases hrest : rest = []
      · have hle := h.heads_le
        rw [hrest, List.length_nil, Nat.add_zero] at heq
        omega
      · exact h.full hrest
    have hline : log.line l = { log with lines := log.lines + 1 }.keep l := if_neg hhead
    refine ⟨heads, g, rest ++ [l], ⟨h.heads_le, fun _ => hfull, ?_, ?_, ?_, ?_, h.begun⟩, ?_, Iff.rfl⟩
    · rw [hline, List.length_append, List.length_singleton, ← Nat.add_assoc, ← heq]
      rfl
    · rw [hline]
      exact h.said_eq
    · rw [hline]
      show lastLines (log.tail ++ [l]) = _
      rw [h.tail_eq, lastLines_concat]
    · intro k hk
      rw [← List.append_assoc] at hk
      obtain hk | hk := List.mem_append.mp hk
      · exact h.ended k hk
      · rw [List.mem_singleton.mp hk]
        exact hl
    · simp [textOf]

/-- All lines that a chunk completes. -/
theorem told_lines (h : Told log heads g rest) {ls : List Line} (hls : ∀ l ∈ ls, '\n' ∉ l) :
    ∃ heads' g' rest', Told (ls.foldl StepLog.line log) heads' g' rest' ∧
      textOf heads' g' rest' = textOf heads g rest ++ endedLines ls ∧
      (Held heads' g' ↔ Held heads g) := by
  induction ls generalizing log heads g rest with
  | nil => exact ⟨heads, g, rest, h, (List.append_nil _).symm, Iff.rfl⟩
  | cons l ls ih =>
    obtain ⟨hl, hrest⟩ := List.forall_mem_cons.mp hls
    obtain ⟨heads₁, g₁, rest₁, h₁, htext₁, hheld₁⟩ := told_line h hl
    obtain ⟨heads₂, g₂, rest₂, h₂, htext₂, hheld₂⟩ := ih h₁ hrest
    refine ⟨heads₂, g₂, rest₂, h₂, ?_, hheld₂.trans hheld₁⟩
    rw [htext₂, htext₁, endedLines_cons, List.append_assoc, List.append_assoc]
    rfl

theorem partialLine_foldl_line (ls : List Line) (log : StepLog) :
    (ls.foldl StepLog.line log).partialLine = log.partialLine := by
  induction ls generalizing log with
  | nil => rfl
  | cons l ls ih =>
    rw [List.foldl_cons, ih, StepLog.line]
    split
    · rfl
    · rfl

/-- The lines of the output so far. -/
theorem Told.lines_textOf (h : Told log heads g rest) {p : Line} (hp : '\n' ∉ p) :
    Formats.lines (textOf heads g rest ++ p) =
      heads ++ match rest with
        | [] => [g ++ p]
        | x :: ls => (g ++ x) :: ls ++ [p] := by
  have hheads : ∀ l ∈ heads, '\n' ∉ l := fun l hl => h.ended l (List.mem_append_left _ hl)
  have hrest : ∀ l ∈ rest, '\n' ∉ l := fun l hl => h.ended l (List.mem_append_right _ hl)
  rw [textOf, List.append_assoc, List.append_assoc, lines_endedLines hheads]
  congr 1
  cases rest with
  | nil => exact lines_of_not_mem (List.not_mem_append h.begun hp)
  | cons x ls =>
    obtain ⟨hx, hls⟩ := List.forall_mem_cons.mp hrest
    have hfirst : g ++ (endedLines (x :: ls) ++ p) = endedLines ((g ++ x) :: ls) ++ p := by simp
    have hended : ∀ l ∈ (g ++ x) :: ls, '\n' ∉ l :=
      List.forall_mem_cons.mpr ⟨List.not_mem_append h.begun hx, hls⟩
    rw [hfirst, lines_endedLines hended, lines_of_not_mem hp]

/-- A prompt waits behind the head: nothing is kept yet, and no beginning of that line is said. -/
theorem Told.asks_iff (h : Told log heads g rest) (hheld : ¬Held heads g) {p : Line} (hp : '\n' ∉ p) :
    AsksBehindHead (textOf heads g rest ++ p) ↔
      rest = [] ∧ heads.length = logHeadLines ∧ p ≠ [] ∧ promptTail p = true := by
  rw [AsksBehindHead, Unended, h.lines_textOf hp]
  cases rest with
  | nil =>
    rw [List.length_append, List.length_singleton, List.getLastD_concat]
    constructor
    · rintro ⟨hlength, hne, hprompt⟩
      have hfull := Nat.succ.inj hlength
      -- with a beginning that was said the prompt would be held
      have hg : g = [] := by
        by_contra hg
        exact hheld ⟨hfull, hg⟩
      subst hg
      exact ⟨rfl, hfull, hne, hprompt⟩
    · rintro ⟨-, hfull, hne, hprompt⟩
      have hg : g = [] := by
        by_contra hg
        exact hheld ⟨hfull, hg⟩
      subst hg
      exact ⟨congrArg (· + 1) hfull, hne, hprompt⟩
  | cons x ls =>
    -- a second line behind the head is no prompt there
    refine iff_of_false (fun hasks => ?_) fun hasks => List.cons_ne_nil x ls hasks.1
    have hlength := hasks.1
    have hfull := h.full (List.cons_ne_nil x ls)
    simp only [List.length_append, List.length_cons, List.length_nil] at hlength
    omega

/-- **One chunk**: it belongs to the output, and the beginning of the first line behind the head is
said from the moment on at which a prompt waits there. -/
theorem told_feed (h : Told log heads g rest) (chunk : List Char) :
    ∃ heads' g' rest', Told (log.feed chunk) heads' g' rest' ∧ '\n' ∉ (log.feed chunk).partialLine ∧
      textOf heads' g' rest' ++ (log.feed chunk).partialLine =
        textOf heads g rest ++ log.partialLine ++ chunk ∧
      (Held heads' g' ↔
        Held heads g ∨ AsksBehindHead (textOf heads g rest ++ log.partialLine ++ chunk)) := by
  obtain ⟨ls, r, htext, hls, hr⟩ := exists_endedLines (log.partialLine ++ chunk)
  have hparts : Formats.lines (log.partialLine ++ chunk) = ls ++ [r] := by
    rw [htext, lines_endedLines hls, lines_of_not_mem hr]
  obtain ⟨heads₁, g₁, rest₁, h₁, htext₁, hheld₁⟩ := told_lines (h.of_partialLine r) hls
  have hpartial := partialLine_foldl_line ls { log with partialLine := r }
  -- what has come is the lines that have ended, and the beginning of one
  have hwhole : textOf heads g rest ++ log.partialLine ++ chunk = textOf heads₁ g₁ rest₁ ++ r := by
    rw [List.append_assoc, htext, htext₁, List.append_assoc]
  rw [hwhole, ← hheld₁]
  generalize hlog₁ : ls.foldl StepLog.line { log with partialLine := r } = log₁ at h₁ hpartial
  have hfeed : log.feed chunk =
      if log₁.lines ≤ logHeadLines ∧ r ≠ [] ∧ promptTail r = true then
        { log₁.say r with partialLine := [] } else log₁ := by
    rw [StepLog.feed, hparts, List.dropLast_concat, List.getLastD_concat, hlog₁, hpartial]
  -- the chunk ends in a prompt, and the head is still being said
  by_cases hasks : log₁.lines ≤ logHeadLines ∧ r ≠ [] ∧ promptTail r = true
  · rw [hfeed, if_pos hasks]
    obtain ⟨hlines, hne, hprompt⟩ := hasks
    have hrest := h₁.rest_eq_nil hlines
    subst hrest
    refine ⟨heads₁, g₁ ++ r, [], ⟨h₁.heads_le, nofun, h₁.lines_eq, ?_, h₁.tail_eq, h₁.ended, ?_⟩,
      List.not_mem_nil, ?_, ?_⟩
    · show log₁.said ++ r = _
      rw [h₁.said_eq, List.append_assoc]
    · exact List.not_mem_append h₁.begun hr
    · simp [textOf]
    · by_cases hheld : Held heads₁ g₁
      · exact iff_of_true ⟨hheld.1, by simp [hne]⟩ (.inl hheld)
      · rw [h₁.asks_iff hheld hr, Held]
        constructor
        · exact fun hheld' => .inr ⟨rfl, hheld'.1, hne, hprompt⟩
        · rintro (hheld' | ⟨-, hfull, -⟩)
          · exact absurd hheld' hheld
          · exact ⟨hfull, by simp [hne]⟩
  · rw [hfeed, if_neg hasks, hpartial]
    refine ⟨heads₁, g₁, rest₁, h₁, hr, rfl, ?_⟩
    by_cases hheld : Held heads₁ g₁
    · exact iff_of_true hheld (.inl hheld)
    · rw [h₁.asks_iff hheld hr]
      refine iff_of_false hheld ?_
      rintro (hheld' | ⟨rfl, hfull, hprompt⟩)
      · exact hheld hheld'
      · -- a prompt that waits there would have been said
        refine hasks ⟨?_, hprompt⟩
        rw [h₁.lines_eq, List.length_nil, Nat.add_zero]
        exact h₁.heads_le

/-- **All chunks**: the induction is on the chunks from the last one on. -/
theorem told_run (chunks : List (List Char)) :
    ∃ heads g rest, Told (chunks.foldl StepLog.feed .start) heads g rest ∧
      '\n' ∉ (chunks.foldl StepLog.feed .start).partialLine ∧
      textOf heads g rest ++ (chunks.foldl StepLog.feed .start).partialLine = chunks.flatten ∧
      (Held heads g ↔ ∃ cs, cs <+: chunks ∧ AsksBehindHead cs.flatten) := by
  induction chunks using List.reverseRecOn with
  | nil =>
    refine ⟨[], [], [], told_start, List.not_mem_nil, rfl, ?_⟩
    refine iff_of_false (fun hheld => hheld.2 rfl) ?_
    rintro ⟨cs, hcs, hasks⟩
    rw [List.prefix_nil.mp hcs] at hasks
    exact hasks.2.1 rfl
  | append_singleton chunks chunk ih =>
    obtain ⟨heads, g, rest, h, -, htext, hheld⟩ := ih
    obtain ⟨heads', g', rest', h', hp', htext', hheld'⟩ := told_feed h chunk
    rw [htext] at htext' hheld'
    rw [List.foldl_append, List.flatten_append, List.flatten_singleton]
    refine ⟨heads', g', rest', h', hp', htext', ?_⟩
    rw [hheld', hheld]
    constructor
    · rintro (⟨cs, hcs, hasks⟩ | hasks)
      · exact ⟨cs, hcs.trans (List.prefix_append _ _), hasks⟩
      · refine ⟨chunks ++ [chunk], List.prefix_rfl, ?_⟩
        rw [List.flatten_append, List.flatten_singleton]
        exact hasks
    · rintro ⟨cs, hcs, hasks⟩
      -- the new beginnings of the chunks are all of them
      obtain rfl | hcs := List.prefix_concat_iff.mp hcs
      · rw [List.flatten_append, List.flatten_singleton] at hasks
        exact .inr hasks
      · exact .inl ⟨cs, hcs, hasks⟩

/-! ### The end -/

/-- What `close` says of the lines behind the head. -/
def closing (rest : List Line) : List Char :=
  (if logTailLines < rest.length then omittedLine (rest.length - logTailLines) ++ ['\n'] else []) ++
    endedLines (lastLines rest)

theorem said_foldl_say (ls : List Line) (log : StepLog) :
    (ls.foldl (fun log line => log.say (line ++ ['\n'])) log).said = log.said ++ endedLines ls := by
  induction ls generalizing log with
  | nil => exact (List.append_nil _).symm
  | cons l ls ih =>
    rw [List.foldl_cons, ih, endedLines_cons]
    show log.said ++ (l ++ ['\n']) ++ _ = _
    rw [List.append_assoc, List.append_assoc]
    rfl

/-- `close`, from what it has put into the tail. -/
theorem said_close {rest : List Line} (htail : log.finish.tail = lastLines rest)
    (hfew : rest.length ≤ logTailLines → log.finish.lines ≤ logHeadLines + rest.length)
    (hmany : logTailLines < rest.length → log.finish.lines = logHeadLines + rest.length) :
    log.close.said = log.finish.said ++ closing rest := by
  have hlength := length_lastLines rest
  rw [← htail] at hlength
  by_cases hlong : logTailLines < rest.length
  · have hlines := hmany hlong
    have homitted : (log.finish.lines : ℤ) - logHeadLines - log.finish.tail.length =
        ((rest.length - logTailLines : ℕ) : ℤ) := by omega
    have hpos : ((rest.length - logTailLines : ℕ) : ℤ) > 0 := by omega
    rw [StepLog.close, said_foldl_say, homitted, if_pos hpos, Int.toNat_natCast, closing, if_pos hlong,
      ← htail, ← List.append_assoc]
    rfl
  · have hlines := hfew (Nat.le_of_not_lt hlong)
    have homitted : ¬(log.finish.lines : ℤ) - logHeadLines - log.finish.tail.length > 0 := by omega
    rw [StepLog.close, said_foldl_say, if_neg homitted, closing, if_neg hlong, ← htail]
    rfl

/-- The lines behind a full head. -/
theorem headAndTail_full (hfull : heads.length = logHeadLines) (ls : List Line) :
    headAndTail (heads ++ ls) =
      heads ++ ((if logTailLines < ls.length then [omittedLine (ls.length - logTailLines)] else []) ++
        lastLines ls) := by
  have hlong : logHeadLines + logTailLines < (heads ++ ls).length ↔ logTailLines < ls.length := by
    rw [List.length_append, hfull]
    omega
  have homitted : (heads ++ ls).length - (logHeadLines + logTailLines) = ls.length - logTailLines := by
    rw [List.length_append, hfull]
    omega
  rw [headAndTail, homitted, ← hfull, List.take_left', List.drop_left', List.append_assoc]
  · simp only [hfull, hlong]
  · rfl
  · rfl

/-- Where nothing is left out, head and tail are everything. -/
theorem headAndTail_eq_self {ls : List Line} (h : ls.length ≤ logHeadLines + logTailLines) :
    headAndTail ls = ls := by
  have hdrop : (ls.drop logHeadLines).length ≤ logTailLines := by
    rw [List.length_drop]
    omega
  rw [headAndTail, if_neg (Nat.not_lt_of_le h), List.append_nil, lastLines_eq_self hdrop,
    List.take_append_drop]

/-- **Behind a full head** what is said is head and tail, with the beginning of the first line
behind the head where that line is left out. -/
theorem exists_between_closing (hfull : heads.length = logHeadLines) (g x : Line) (ls : List Line) :
    ∃ a z b, endedLines (headAndTail (heads ++ (g ++ x) :: ls)) = a ++ b ∧
      endedLines heads ++ g ++ closing (x :: ls) = a ++ z ++ b ∧
      (z = [] ↔ (heads ++ (g ++ x) :: ls).length ≤ logHeadLines + logTailLines ∨ g = []) := by
  have hcount : (heads ++ (g ++ x) :: ls).length = logHeadLines + (x :: ls).length := by
    rw [List.length_append, hfull, List.length_cons, List.length_cons]
  by_cases hlong : logTailLines < (x :: ls).length
  · have hlast : lastLines ((g ++ x) :: ls) = lastLines (x :: ls) := by
      rw [lastLines_cons (Nat.le_of_lt_succ hlong), lastLines_cons (Nat.le_of_lt_succ hlong)]
    refine ⟨endedLines heads, g, closing (x :: ls), ?_, rfl, ?_⟩
    · have hlong' : logTailLines < ((g ++ x) :: ls).length := hlong
      rw [headAndTail_full hfull, if_pos hlong', hlast, closing, if_pos hlong]
      simp
    · rw [hcount]
      constructor
      · exact .inr
      · rintro (hle | hg)
        · omega
        · exact hg
  · have hshort : (x :: ls).length ≤ logTailLines := Nat.le_of_not_lt hlong
    refine ⟨endedLines (heads ++ (g ++ x) :: ls), [], [], ?_, ?_, iff_of_true rfl (.inl ?_)⟩
    · rw [headAndTail_eq_self (by omega), List.append_nil]
    · rw [closing, if_neg hlong, lastLines_eq_self hshort]
      simp
    · omega

/-- What is said behind a full head is head and tail if the first line behind it is not begun, or
nothing is left out. -/
theorem saysHeadAndTail_closing {t : List Char} (hfull : heads.length = logHeadLines) {x : Line}
    {ls : List Line} (hwritten : written t = heads ++ (g ++ x) :: ls) :
    SaysHeadAndTail t (endedLines heads ++ g ++ closing (x :: ls)) ↔
      (written t).length ≤ logHeadLines + logTailLines ∨ ¬Held heads g := by
  obtain ⟨a, z, b, hspec, hsaid, hz⟩ := exists_between_closing hfull g x ls
  have hheld : ¬Held heads g ↔ g = [] := by
    rw [Held, not_and, not_not]
    exact ⟨fun h => h hfull, fun h _ => h⟩
  rw [SaysHeadAndTail, hwritten, hspec, hsaid, hheld, ← hz]
  constructor
  · rintro (heq | ⟨-, heq⟩)
    · have hlength := congrArg List.length heq
      simp only [List.length_append] at hlength
      exact List.eq_nil_of_length_eq_zero (by omega)
    · have hlength := congrArg List.length heq
      simp only [List.length_append, List.length_singleton] at hlength
      omega
  · rintro rfl
    exact .inl (by rw [List.append_nil])

theorem Told.said_full {x : Line} {ls : List Line} (h : Told log.finish heads g (x :: ls)) :
    log.close.said = endedLines heads ++ g ++ closing (x :: ls) := by
  have hlines : log.finish.lines = logHeadLines + (x :: ls).length := by
    rw [h.lines_eq, h.full (List.cons_ne_nil x ls)]
  rw [said_close h.tail_eq (fun _ => hlines.le) fun _ => hlines, h.said_eq]

/-- Where there is no line behind the head, `close` says what the beginning of a line lacks. -/
theorem said_short (htail : log.finish.tail = []) (hlines : log.finish.lines ≤ logHeadLines) :
    log.close.said = log.finish.said := by
  have hclose : log.close.said = log.finish.said ++ closing [] :=
    said_close htail (fun _ => hlines) fun h => absurd h (Nat.not_lt_zero _)
  rw [hclose]
  exact List.append_nil _

/-- What `close` does with the beginning of a line behind a full head. -/
theorem Told.finish (h : Told log heads g rest) (hp : '\n' ∉ log.partialLine)
    (hne : log.partialLine ≠ []) (hfull : heads.length = logHeadLines) :
    Told log.finish heads g (rest ++ [log.partialLine]) := by
  have hlines := h.lines_eq
  have hlong : ¬(log.partialLine ≠ [] ∧ log.lines < logHeadLines) := by omega
  have hfinish : log.finish = { log.keep log.partialLine with lines := log.lines + 1 } := by
    rw [StepLog.finish, if_neg hlong, if_pos hne]
  rw [hfinish]
  refine ⟨h.heads_le, fun _ => hfull, ?_, h.said_eq, ?_, ?_, h.begun⟩
  · rw [List.length_append, List.length_singleton, ← Nat.add_assoc, ← hlines]
  · show lastLines (log.tail ++ [log.partialLine]) = _
    rw [h.tail_eq, lastLines_concat]
  · intro l hl
    rw [← List.append_assoc] at hl
    obtain hl | hl := List.mem_append.mp hl
    · exact h.ended l hl
    · rw [List.mem_singleton.mp hl]
      exact hp

/-! ### Head and tail -/

theorem written_of_lines {t : List Char} {ls : List Line} {r : Line} (h : Formats.lines t = ls ++ [r]) :
    written t = if r = [] then ls else ls ++ [r] := by
  rw [written, h, List.getLastD_concat, List.dropLast_concat]

/-- The lines of an output are its text, with an end where the last one has none. -/
theorem endedLines_written (t : List Char) :
    Unended t ∧ endedLines (written t) = t ++ ['\n'] ∨ ¬Unended t ∧ endedLines (written t) = t := by
  obtain ⟨ls, r, rfl, hls, hr⟩ := exists_endedLines t
  have hlines : Formats.lines (endedLines ls ++ r) = ls ++ [r] := by
    rw [lines_endedLines hls, lines_of_not_mem hr]
  rw [Unended, written_of_lines hlines, hlines, List.getLastD_concat]
  by_cases hnil : r = []
  · subst hnil
    exact .inr ⟨fun h => h rfl, by rw [if_pos rfl, List.append_nil]⟩
  · refine .inl ⟨hnil, ?_⟩
    rw [if_neg hnil, endedLines_append, endedLines_cons, endedLines_nil, List.append_assoc]

/-- An output of few lines may be said as it is. -/
theorem says_self {t : List Char} (hfew : (written t).length ≤ logHeadLines + logTailLines) :
    SaysHeadAndTail t t := by
  rw [SaysHeadAndTail, headAndTail_eq_self hfew]
  obtain ⟨hunended, heq⟩ | ⟨-, heq⟩ := endedLines_written t
  · exact .inr ⟨hunended, heq.symm⟩
  · exact .inl heq.symm

theorem says_ended {t : List Char} (hfew : (written t).length ≤ logHeadLines + logTailLines)
    (hunended : Unended t) : SaysHeadAndTail t (t ++ ['\n']) := by
  rw [SaysHeadAndTail, headAndTail_eq_self hfew]
  obtain ⟨-, heq⟩ | ⟨hended, -⟩ := endedLines_written t
  · exact .inl heq.symm
  · exact absurd hunended hended

/-- Where nothing is kept, few lines are written. -/
theorem Told.written_le (h : Told log heads g []) {p : Line} (hp : '\n' ∉ p) :
    (written (textOf heads g [] ++ p)).length ≤ logHeadLines + logTailLines := by
  have hle := h.heads_le
  have hhead : logHeadLines = 40 := rfl
  have htail : logTailLines = 15 := rfl
  rw [written_of_lines (h.lines_textOf hp)]
  split
  · omega
  · rw [List.length_append, List.length_singleton]
    omega

/-- **Head and tail are said exactly if nothing is left out, or no prompt ever waits on the first
line behind the head.** -/
theorem says_headAndTail_iff (chunks : List (List Char)) :
    SaysHeadAndTail chunks.flatten (logged chunks) ↔
      (written chunks.flatten).length ≤ logHeadLines + logTailLines ∨
        ∀ cs, cs <+: chunks → ¬AsksBehindHead cs.flatten := by
  obtain ⟨heads, g, rest, h, hp, htext, hheld⟩ := told_run chunks
  have hasks : (∀ cs, cs <+: chunks → ¬AsksBehindHead cs.flatten) ↔ ¬Held heads g := by
    rw [hheld, not_exists]
    exact forall_congr' fun cs => not_and.symm
  rw [hasks, logged, ← htext]
  generalize chunks.foldl StepLog.feed .start = log at h hp ⊢
  -- nothing is left of a line that has not ended, or `close` adds it
  by_cases hnil : log.partialLine = []
  · have hfinish : log.finish = log := by
      rw [StepLog.finish, if_neg (fun hne => hne.1 hnil), if_neg (not_not.mpr hnil)]
    cases hrest : rest with
    | nil =>
      subst hrest
      have hfew := h.written_le hp
      refine iff_of_true ?_ (.inl hfew)
      have hlines := h.lines_eq
      have hle := h.heads_le
      rw [List.length_nil, Nat.add_zero] at hlines
      have hsaid : log.close.said = textOf heads g [] ++ log.partialLine := by
        rw [said_short (by rw [hfinish, h.tail_eq]; rfl) (by rw [hfinish]; omega), hfinish, h.said_eq, hnil]
        simp [textOf]
      rw [hsaid]
      exact says_self hfew
    | cons x ls =>
      subst hrest
      have hwritten : written (textOf heads g (x :: ls) ++ log.partialLine) = heads ++ (g ++ x) :: ls := by
        have hlines := h.lines_textOf hp
        rw [hnil] at hlines ⊢
        rw [written_of_lines (hlines.trans (List.append_assoc _ _ _).symm), if_pos rfl]
      have hsaid : log.close.said = endedLines heads ++ g ++ closing (x :: ls) :=
        Told.said_full (by rw [hfinish]; exact h)
      rw [hsaid]
      exact saysHeadAndTail_closing (h.full (List.cons_ne_nil x ls)) hwritten
  · by_cases hlines : log.lines < logHeadLines
    · have hrest := h.rest_eq_nil hlines.le
      subst hrest
      have hfinish : log.finish = log.say (log.partialLine ++ ['\n']) := if_pos ⟨hnil, hlines⟩
      have hfew := h.written_le hp
      refine iff_of_true ?_ (.inl hfew)
      have hsaid : log.close.said = textOf heads g [] ++ log.partialLine ++ ['\n'] := by
        rw [said_short (by rw [hfinish]; exact h.tail_eq) (by rw [hfinish]; exact hlines.le), hfinish]
        show log.said ++ (log.partialLine ++ ['\n']) = _
        rw [h.said_eq]
        simp [textOf]
      rw [hsaid]
      refine says_ended hfew ?_
      rw [Unended, h.lines_textOf hp, List.getLastD_concat]
      exact fun hg => hnil (List.append_eq_nil_iff.mp hg).2
    · have hfull : heads.length = logHeadLines := by
        have heq := h.lines_eq
        have hle := h.heads_le
        by_cases hrest : rest = []
        · rw [hrest, List.length_nil] at heq
          omega
        · exact h.full hrest
      have hfinish := h.finish hp hnil hfull
      have hlast := h.lines_textOf hp
      cases rest with
      | nil =>
        have hwritten : written (textOf heads g [] ++ log.partialLine) =
            heads ++ [g ++ log.partialLine] := by
          rw [written_of_lines hlast, if_neg fun hg => hnil (List.append_eq_nil_iff.mp hg).2]
        rw [hfinish.said_full]
        exact saysHeadAndTail_closing hfull hwritten
      | cons x ls =>
        have hwritten : written (textOf heads g (x :: ls) ++ log.partialLine) =
            heads ++ (g ++ x) :: (ls ++ [log.partialLine]) := by
          rw [written_of_lines (hlast.trans (List.append_assoc _ _ _).symm), if_neg hnil,
            List.append_assoc]
          rfl
        rw [Told.said_full hfinish]
        exact saysHeadAndTail_closing hfull hwritten

set_option maxRecDepth 8000 in
/-- Forty lines and a prompt, then the answer and fifteen lines: the beginning of the line that is
left out is said, and the number of lines left out in the same line. -/
theorem prompt_glued :
    let chunks := [(List.replicate 40 ".\n".toList).flatten ++ "Go on? ".toList,
      "y\n".toList ++ (List.replicate 15 ".\n".toList).flatten]
    logged chunks = (List.replicate 40 ".\n".toList).flatten ++
        "Go on? # ... 1 lines omitted ...\n".toList ++ (List.replicate 15 ".\n".toList).flatten ∧
      ¬SaysHeadAndTail chunks.flatten (logged chunks) := by
  decide

end StepLogs
end CloudCore
