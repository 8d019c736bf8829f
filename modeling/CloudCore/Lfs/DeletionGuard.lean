import CloudCore.Lfs.WorkerPlan
import CloudCore.Python.Shlex

/-!
# The deletion guard

`_deletes_outside` of `lfs_worker.py`, the test that a repair removes nothing outside the package's
own tree and `/tmp`.  It reads the text of the commands; what they remove is decided by the paths
that their operands name.

## Main definitions

* `rmArgs`, `deletesOutside` — the arguments that the test finds, and the test.
* `isSimple` — a text of simple commands.
* `rmOperands` — the operands of every `rm`.
* `Inside` — an operand names a place in the tree or below `/tmp`.
* `GivesAway`, `Misleads` — a word that the test refuses, and an operand that it does not.

## Main results

* `words_rmArgs` — what the test reads in a simple text.
* `deletesOutside_sound_iff` — **what passes the test removes nothing outside, exactly where a word
  gives itself away or no operand misleads.**
* `inside_of_tame` — paths without `..` that begin in the right place do not mislead.
-/

namespace CloudCore
namespace LfsWorker

open Python
open Shell (Token isSep isBlank isWordChar isName tokens words commands exists_commands_eq argsOf
  operands resolve Below)

/-! ### The guard -/

/-- `[;&|\s(]`. -/
def opens (c : Char) : Bool := isSep c || isSpace c || c == '('

/-- `[;&|\n]`, where the arguments end. -/
def ends (c : Char) : Bool := isSep c || c == '\n'

/-- What follows `rm\s+`. -/
def afterRm : List Char → Option (List Char)
  | 'r' :: 'm' :: c :: l => if isSpace c then some (l.dropWhile isSpace) else none
  | _ => none

/-- What follows `(?:^|[;&|\s(])rm\s+`, matched at one place. -/
def matchRm (start : Bool) (l : List Char) : Option (List Char) :=
  (if start then afterRm l else none).or
    (match l with
      | c :: l => if opens c then afterRm l else none
      | [] => none)

theorem afterRm_length {l rest : List Char} (h : afterRm l = some rest) :
    rest.length < l.length := by
  unfold afterRm at h
  split at h
  · next c l =>
    split at h
    · cases h
      have := (List.dropWhile_suffix isSpace (l := l)).length_le
      simp only [List.length_cons]
      omega
    · cases h
  · cases h

theorem matchRm_length {start : Bool} {l rest : List Char} (h : matchRm start l = some rest) :
    rest.length < l.length := by
  unfold matchRm at h
  rw [Option.or_eq_some_iff] at h
  obtain h | ⟨-, h⟩ := h
  · split at h
    · exact afterRm_length h
    · cases h
  · split at h
    · split at h
      · have := afterRm_length h
        simp only [List.length_cons]
        omega
      · cases h
    · cases h

/-- `re.findall` of the arguments of `rm`; `start` says that the text begins here. -/
def rmArgs (start : Bool) (l : List Char) : List (List Char) :=
  match _h : matchRm start l with
  | some rest =>
    rest.takeWhile (!ends ·) :: rmArgs false (rest.dropWhile (!ends ·))
  | none =>
    match l with
    | [] => []
    | _ :: l => rmArgs false l
  termination_by l.length
  decreasing_by
  · have := matchRm_length _h
    have := (List.dropWhile_suffix (!ends ·) (l := rest)).length_le
    omega
  · simp

/-- What `rm` is to remove. -/
def targets (args : List Char) : Except Exc (List (List Char)) :=
  if stripBy isSpace args = [] then .ok []
  else (shlexSplit args).map fun ws => ws.filter fun w => w.head? != some '-'

/-- The working directory's text has the name of the package's tree. -/
def inTree (srcdir cwd : List Char) : Bool := srcdir != [] && isInfix ('/' :: srcdir) cwd

/-- A target that the test refuses. -/
def refuses (srcdir cwd target : List Char) : Bool :=
  if target.head? = some '/' then
    !("/tmp/".toList.isPrefixOf target || (srcdir != [] && isInfix ('/' :: srcdir) target))
  else !inTree srcdir cwd

def anyRefused (srcdir cwd : List Char) : List (List Char) → Except Exc Bool
  | [] => .ok false
  | args :: rest => do
    if (← targets args).any (refuses srcdir cwd) then .ok true else anyRefused srcdir cwd rest

def deletesOutside (cmds srcdir cwd : String) : Except Exc Bool :=
  anyRefused srcdir.toList cwd.toList (rmArgs true cmds.toList)

/-! ### The shell's view -/

/-- A character that stands for itself in a word, or between words. -/
def isSimpleChar (c : Char) : Bool :=
  (!isSpace c || isBlank c || c == '\n') && !"\\'\"\x60$()\x7b\x7d[]<>*?~#!".toList.contains c

/-- Simple commands: no quotes and no substitutions other than `$LFS`. -/
def isSimple : List Char → Bool
  | '$' :: 'L' :: 'F' :: 'S' :: l => !l.head?.any isName && isSimple l
  | c :: l => isSimpleChar c && isSimple l
  | [] => true

/-- The operands of every `rm`. -/
def rmOperands (cmds : List Char) : List (List Char) :=
  (commands (tokens cmds)).flatMap fun command => operands (argsOf ['r', 'm'] command)

/-- A word with the value of `$LFS`. -/
def expand : List Char → List Char
  | '$' :: 'L' :: 'F' :: 'S' :: l => "/mnt/lfs".toList ++ expand l
  | c :: l => c :: expand l
  | [] => []

def tmp : List (List Char) := ["tmp".toList]

/-- The package's tree, on the host and in the chroot. -/
def trees (srcdir : List Char) : List (List (List Char)) :=
  if srcdir = [] then []
  else [["sources".toList, srcdir], ["mnt".toList, "lfs".toList, "sources".toList, srcdir]]

/-- What an operand names is below `/tmp` or below the package's tree. -/
def Inside (srcdir cwd operand : List Char) : Prop :=
  ∃ dir ∈ tmp :: trees srcdir, Below dir (resolve cwd (expand operand))

instance (srcdir cwd operand : List Char) : Decidable (Inside srcdir cwd operand) := by
  unfold Inside
  infer_instance

/-! ### What the guard reads -/

/-- Where a word stands: not behind an `rm`, right behind it, or among its arguments. -/
inductive Mode where
  | out
  | fresh
  | args

/-- The words behind an `rm` on its line, or on the next where the line ends with it. -/
def behindRm : Mode → List Token → List (List Char)
  | _, [] => []
  | .out, .word w :: ts => behindRm (if w = ['r', 'm'] then .fresh else .out) ts
  | _, .word w :: ts => w :: behindRm .args ts
  | .fresh, .newline :: ts => behindRm .fresh ts
  | _, _ :: ts => behindRm .out ts

theorem rmArgs_of_some {start : Bool} {l rest : List Char} (h : matchRm start l = some rest) :
    rmArgs start l =
      rest.takeWhile (!ends ·) :: rmArgs false (rest.dropWhile (!ends ·)) := by
  rw [rmArgs]
  split
  · next rest' h' =>
    rw [h] at h'
    cases h'
    rfl
  · next h' =>
    rw [h] at h'
    cases h'

theorem rmArgs_of_none {start : Bool} {c : Char} {l : List Char}
    (h : matchRm start (c :: l) = none) : rmArgs start (c :: l) = rmArgs false l := by
  rw [rmArgs]
  split
  · next h' =>
    rw [h] at h'
    cases h'
  · rfl

@[simp] theorem rmArgs_nil (start : Bool) : rmArgs start [] = [] := by
  rw [rmArgs]
  split
  · next rest h =>
    have := matchRm_length h
    simp at this
  · rfl

/-- Where the text begins, an `rm` stands at once, or the search goes on. -/
theorem rmArgs_true (l : List Char) :
    rmArgs true l =
      match afterRm l with
      | some rest => rest.takeWhile (!ends ·) :: rmArgs false (rest.dropWhile (!ends ·))
      | none => rmArgs false l := by
  cases hafter : afterRm l with
  | some rest => exact rmArgs_of_some (by simp [matchRm, hafter])
  | none =>
    have hsame : matchRm true l = matchRm false l := by simp [matchRm, hafter]
    cases hmatch : matchRm false l with
    | some rest => rw [rmArgs_of_some (hsame.trans hmatch), rmArgs_of_some hmatch]
    | none =>
      cases l with
      | nil => simp
      | cons c l => rw [rmArgs_of_none (hsame.trans hmatch), rmArgs_of_none hmatch]

theorem rmArgs_false_cons (c : Char) (l : List Char) :
    rmArgs false (c :: l) = if opens c then rmArgs true l else rmArgs false l := by
  split
  · next hc =>
    have hmatch : matchRm false (c :: l) = afterRm l := by simp [matchRm, hc]
    rw [rmArgs_true]
    cases hafter : afterRm l with
    | some rest => exact rmArgs_of_some (hmatch.trans hafter)
    | none => exact rmArgs_of_none (hmatch.trans hafter)
  · next hc => exact rmArgs_of_none (by simp [matchRm, hc])

/-- What a match goes on with. -/
theorem afterRm_eq_some {l rest : List Char} (h : afterRm l = some rest) :
    ∃ c l', l = 'r' :: 'm' :: c :: l' ∧ isSpace c = true ∧ rest = (c :: l').dropWhile isSpace := by
  unfold afterRm at h
  split at h
  · next c l =>
    split at h
    · next hc =>
      cases h
      exact ⟨c, l, rfl, hc, by rw [List.dropWhile_cons_of_pos hc]⟩
    · cases h
  · cases h

theorem suffix_of_matchRm {start : Bool} {l rest : List Char} (h : matchRm start l = some rest) :
    rest <:+ l := by
  have hafter {l rest : List Char} (h : afterRm l = some rest) : rest <:+ l := by
    obtain ⟨c, l', rfl, -, rfl⟩ := afterRm_eq_some h
    exact ((List.dropWhile_suffix _).trans (List.suffix_cons _ _)).trans (List.suffix_cons _ _)
  unfold matchRm at h
  rw [Option.or_eq_some_iff] at h
  obtain h | ⟨-, h⟩ := h
  · split at h
    · exact hafter h
    · cases h
  · split at h
    · split at h
      · exact (hafter h).trans (List.suffix_cons _ _)
      · cases h
    · cases h

/-! ### Simple texts -/

/-- A character of a simple text. -/
def IsTextChar (c : Char) : Prop :=
  (isSpace c = true → isBlank c = true ∨ c = '\n') ∧ c ≠ '\\' ∧ isQuote c = false ∧ c ≠ '('

theorem isTextChar_of_isSimpleChar {c : Char} (h : isSimpleChar c = true) : IsTextChar c := by
  unfold isSimpleChar at h
  rw [Bool.and_eq_true] at h
  obtain ⟨hspace, hlist⟩ := h
  refine ⟨fun hc => ?_, ?_, ?_, ?_⟩
  · rw [hc] at hspace
    simpa using hspace
  · rintro rfl
    exact absurd hlist (by decide)
  · cases hq : isQuote c with
    | false => rfl
    | true =>
      have hc : c = '\'' ∨ c = '"' := by simpa [isQuote] using hq
      obtain rfl | rfl := hc <;> exact absurd hlist (by decide)
  · rintro rfl
    exact absurd hlist (by decide)

theorem isTextChar_of_isSimple {l : List Char} (h : isSimple l = true) : ∀ c ∈ l, IsTextChar c := by
  fun_induction isSimple l with
  | case1 l ih =>
    rw [Bool.and_eq_true] at h
    intro c hc
    have hcases : c = '$' ∨ c = 'L' ∨ c = 'F' ∨ c = 'S' ∨ c ∈ l := by simpa using hc
    obtain rfl | rfl | rfl | rfl | hc := hcases
    · exact ⟨fun h => absurd h (by decide), by decide, by decide, by decide⟩
    · exact isTextChar_of_isSimpleChar (by decide)
    · exact isTextChar_of_isSimpleChar (by decide)
    · exact isTextChar_of_isSimpleChar (by decide)
    · exact ih h.2 c hc
  | case2 c l _ ih =>
    rw [Bool.and_eq_true] at h
    intro d hd
    obtain rfl | hd := List.mem_cons.mp hd
    · exact isTextChar_of_isSimpleChar h.1
    · exact ih h.2 d hd
  | case3 => exact nofun

theorem isSpace_of_isBlank {c : Char} (h : isBlank c = true) : isSpace c = true := by
  have hc : c = ' ' ∨ c = '\t' := by simpa [isBlank] using h
  obtain rfl | rfl := hc <;> decide

/-- In a simple text the search goes on exactly where no word does. -/
theorem opens_eq {c : Char} (hc : IsTextChar c) : opens c = !isWordChar c := by
  obtain ⟨hspace, -, -, hparen⟩ := hc
  cases hword : isWordChar c with
  | true =>
    obtain ⟨hsep, hline, hblank⟩ := Shell.isWordChar_eq_true.mp hword
    have hnot : isSpace c = false := by
      by_contra h
      obtain h | h := hspace (by simpa using h)
      · rw [h] at hblank
        cases hblank
      · exact hline h
    simp [opens, hsep, hnot, hparen]
  | false =>
    obtain h | rfl | h := Shell.not_isWordChar hword
    · simp [opens, h]
    · decide
    · simp [opens, isSpace_of_isBlank h]

theorem isUnquoted_of_isTextChar {c : Char} (hc : IsTextChar c) (hends : ends c = false) :
    IsUnquoted c := by
  obtain ⟨hspace, hslash, hquote, -⟩ := hc
  simp only [ends, Bool.or_eq_false_iff, beq_eq_false_iff_ne] at hends
  refine ⟨hslash, hquote, hends.1, fun h => ?_, fun h => ?_⟩
  · have hpy : isSpace c = true := by
      simp only [isShlexSpace, Bool.or_eq_true, beq_iff_eq] at h
      obtain ((rfl | rfl) | rfl) | rfl := h <;> decide
    exact (hspace hpy).resolve_right hends.2
  · have hblank : c = ' ' ∨ c = '\t' := by simpa [isBlank] using h
    obtain rfl | rfl := hblank <;> decide

theorem isWordChar_of_ends {c : Char} (h : ends c = true) : isWordChar c = false := by
  simp only [ends, Bool.or_eq_true, beq_iff_eq] at h
  obtain h | rfl := h
  · simp [isWordChar, h]
  · decide

/-! ### What the search finds -/

theorem behindRm_words (ws : List (List Char)) (ts : List Token) :
    behindRm .args (ws.map .word ++ ts) = ws ++ behindRm .args ts := by
  induction ws with
  | nil => rfl
  | cons w ws ih => exact congrArg (w :: ·) ih

/-- Where no word goes on, the arguments of an `rm` end. -/
theorem behindRm_ends {l : List Char} (hl : ∀ c ∈ l.head?, ends c = true) (m : Mode)
    (hm : m = .args ∨ ∀ c ∈ l.head?, isSep c = true) :
    behindRm m (tokens l) = behindRm .out (tokens l) := by
  cases l with
  | nil => cases m <;> rfl
  | cons c l =>
    have hc : ends c = true := hl c rfl
    rw [ends, Bool.or_eq_true, beq_iff_eq] at hc
    obtain hc | rfl := hc
    · rw [Shell.tokens_sep hc]
      cases m <;> rfl
    · obtain rfl | hsep := hm
      · rw [Shell.tokens_newline]
        rfl
      · exact absurd (hsep '\n' rfl) (by decide)

/-- The words right behind an `rm` are those of the arguments that the expression captures. -/
theorem behindRm_fresh {l : List Char} (hl : ∀ c ∈ l, IsTextChar c) :
    behindRm .fresh (tokens l) =
      words ((l.dropWhile isSpace).takeWhile (!ends ·)) ++
        behindRm .out (tokens ((l.dropWhile isSpace).dropWhile (!ends ·))) := by
  induction l with
  | nil => rfl
  | cons c l ih =>
    cases hspace : isSpace c with
    | true =>
      rw [List.dropWhile_cons_of_pos hspace, ← ih fun d hd => hl d (List.mem_cons_of_mem _ hd)]
      obtain hblank | rfl := (hl c List.mem_cons_self).1 hspace
      · rw [Shell.tokens_blank hblank]
      · rw [Shell.tokens_newline]
        rfl
    | false =>
      rw [List.dropWhile_cons_of_neg (by simp [hspace])]
      cases hends : ends c with
      | true =>
        have hnot : ¬ (fun c => !ends c) c = true := by simp [hends]
        have hsep : isSep c = true := by
          rw [ends, Bool.or_eq_true, beq_iff_eq] at hends
          refine hends.resolve_right ?_
          rintro rfl
          exact absurd hspace (by decide)
        rw [List.takeWhile_cons_of_neg (p := (!ends ·)) hnot,
          List.dropWhile_cons_of_neg (p := (!ends ·)) hnot]
        exact behindRm_ends (by simpa using hends) .fresh (.inr (by simpa using hsep))
      | false =>
        -- a word begins here, and the arguments go on to the end of the line
        generalize ha : (c :: l).takeWhile (!ends ·) = a
        generalize hb : (c :: l).dropWhile (!ends ·) = b
        have hsplit : c :: l = a ++ b := by rw [← ha, ← hb, List.takeWhile_append_dropWhile]
        have hbends : ∀ d ∈ b.head?, ends d = true := by
          intro d hd
          have := List.head?_dropWhile_not (!ends ·) (c :: l)
          rw [hb, Option.mem_def.mp hd] at this
          simpa using this
        have hbhead : b.head?.any isWordChar = false := by
          cases hd : b.head? with
          | none => rfl
          | some d => exact isWordChar_of_ends (hbends d hd)
        have hargs : ∀ d ∈ a, isSep d = false ∧ d ≠ '\n' := by
          intro d hd
          rw [← ha] at hd
          have := List.mem_takeWhile_imp hd
          simpa [ends] using this
        have hword : a.head?.any isWordChar = true := by
          have hac : a.head? = some c := by
            rw [← ha, List.takeWhile_cons_of_pos (by simp [hends])]
            rfl
          rw [hac]
          simp only [ends, Bool.or_eq_false_iff, beq_eq_false_iff_ne] at hends
          have hblank : isBlank c = false := by
            by_contra h
            rw [isSpace_of_isBlank (by simpa using h)] at hspace
            cases hspace
          exact Shell.isWordChar_eq_true.mpr ⟨hends.1, hends.2, hblank⟩
        rw [hsplit, Shell.tokens_append hbhead, Shell.tokens_eq_words hargs]
        obtain ⟨w, ts, hts⟩ := Shell.exists_tokens_eq hword
        rw [Shell.tokens_eq_words hargs] at hts
        cases hws : words a with
        | nil =>
          rw [hws] at hts
          cases hts
        | cons v ws =>
          rw [← behindRm_ends hbends .args (.inl rfl), ← behindRm_words]
          rfl

/-- Where no word goes on, the text is read as from its beginning. -/
theorem behindRm_cons {c : Char} {l : List Char} (hc : isWordChar c = false) :
    behindRm .out (tokens (c :: l)) = behindRm .out (tokens l) := by
  obtain h | rfl | h := Shell.not_isWordChar hc
  · rw [Shell.tokens_sep h]
    rfl
  · rw [Shell.tokens_newline]
    rfl
  · rw [Shell.tokens_blank h]

/-- An `rm` with its arguments. -/
theorem behindRm_match {l rest : List Char} (hl : ∀ c ∈ l, IsTextChar c) (h : afterRm l = some rest) :
    behindRm .out (tokens l) =
      words (rest.takeWhile (!ends ·)) ++ behindRm .out (tokens (rest.dropWhile (!ends ·))) := by
  obtain ⟨c, l', rfl, hc, rfl⟩ := afterRm_eq_some h
  have htext : ∀ d ∈ c :: l', IsTextChar d := fun d hd =>
    hl d (List.mem_cons_of_mem _ (List.mem_cons_of_mem _ hd))
  have hword : isWordChar c = false := by
    have hopens := opens_eq (htext c List.mem_cons_self)
    simpa [opens, hc] using hopens
  have htokens : tokens ('r' :: 'm' :: c :: l') = .word ['r', 'm'] :: tokens (c :: l') :=
    Shell.tokens_append (a := ['r', 'm']) (by simpa using hword)
  rw [htokens]
  exact behindRm_fresh htext

/-- Behind a word the text is read as from its beginning, unless it is an `rm` with arguments. -/
theorem behindRm_skip {l : List Char} (h : afterRm l = none) :
    behindRm .out (tokens l) = behindRm .out (tokens (l.dropWhile isWordChar)) := by
  cases hword : l.head?.any isWordChar with
  | false =>
    cases l with
    | nil => rfl
    | cons c l =>
      have hc : isWordChar c = false := hword
      rw [List.dropWhile_cons_of_neg (Bool.eq_false_iff.mp hc)]
  | true =>
    rw [Shell.tokens_takeWhile hword, behindRm]
    split
    · next hrm =>
      -- no white space follows this `rm`, so it has no arguments
      have hsep : ∀ d ∈ (l.dropWhile isWordChar).head?, isSep d = true := by
        intro d hd
        obtain ⟨r, hr⟩ := List.head?_eq_some_iff.mp hd
        have hl : l = 'r' :: 'm' :: d :: r := by
          rw [← List.takeWhile_append_dropWhile (p := isWordChar) (l := l), hrm, hr]
          rfl
        have hspace : isSpace d = false := by
          by_contra hs
          simp [hl, afterRm, hs] at h
        have hnot := List.head?_dropWhile_not isWordChar l
        rw [hr] at hnot
        obtain hsep | rfl | hblank := Shell.not_isWordChar (by simpa using hnot)
        · exact hsep
        · exact absurd hspace (by decide)
        · rw [isSpace_of_isBlank hblank] at hspace
          cases hspace
      exact behindRm_ends (fun d hd => by simp [ends, hsep d hd]) .fresh (.inr hsep)
    · rfl

/-- **What the guard reads in a simple text** are the words behind an `rm`, to the end of the line; in the
middle of a text it goes on where no word does. -/
theorem words_rmArgs (start : Bool) {l : List Char} (hl : ∀ c ∈ l, IsTextChar c) :
    (rmArgs start l).flatMap words =
      behindRm .out (tokens (if start then l else l.dropWhile isWordChar)) := by
  have hsame {c : Char} {l : List Char} {start : Bool} (hc : isWordChar c = false) :
      (if start then c :: l else (c :: l).dropWhile isWordChar) = c :: l := by
    rw [List.dropWhile_cons_of_neg (Bool.eq_false_iff.mp hc), ite_self]
  fun_induction rmArgs start l with
  | case1 start l rest hmatch ih =>
    have hrest := suffix_of_matchRm hmatch
    have hend : (rest.dropWhile (!ends ·)).dropWhile isWordChar = rest.dropWhile (!ends ·) := by
      have hhead := List.head?_dropWhile_not (!ends ·) rest
      cases hr : rest.dropWhile (!ends ·) with
      | nil => rfl
      | cons d r =>
        rw [hr] at hhead
        exact List.dropWhile_cons_of_neg (Bool.eq_false_iff.mp (isWordChar_of_ends (by simpa using hhead)))
    rw [List.flatMap_cons, ih fun c hc => hl c (hrest.subset ((List.dropWhile_suffix _).subset hc)),
      if_neg Bool.false_ne_true, hend]
    unfold matchRm at hmatch
    obtain h | ⟨-, h⟩ := Option.or_eq_some_iff.mp hmatch
    · obtain ⟨rfl, h⟩ := Option.ite_none_right_eq_some.mp h
      exact (behindRm_match hl h).symm
    · split at h
      · next c l =>
        obtain ⟨hopens, h⟩ := Option.ite_none_right_eq_some.mp h
        rw [opens_eq (hl c List.mem_cons_self), Bool.not_eq_true'] at hopens
        rw [hsame hopens, behindRm_cons hopens]
        exact (behindRm_match (fun d hd => hl d (List.mem_cons_of_mem _ hd)) h).symm
      · cases h
  | case2 start => cases start <;> rfl
  | case3 start c l hmatch ih =>
    rw [ih fun d hd => hl d (List.mem_cons_of_mem _ hd), if_neg Bool.false_ne_true]
    unfold matchRm at hmatch
    obtain ⟨hstart, hopen⟩ := Option.or_eq_none_iff.mp hmatch
    cases hc : isWordChar c with
    | false =>
      have hopens : opens c = true := by rw [opens_eq (hl c List.mem_cons_self), hc, Bool.not_false]
      have hnone : afterRm l = none := by simpa [hopens] using hopen
      rw [hsame hc, behindRm_cons hc, behindRm_skip hnone]
    | true =>
      cases start with
      | false => rw [if_neg Bool.false_ne_true, List.dropWhile_cons_of_pos hc]
      | true =>
        have hnone : afterRm (c :: l) = none := by simpa using hstart
        rw [if_pos rfl, behindRm_skip hnone, List.dropWhile_cons_of_pos hc]

/-- The arguments are a piece of one line. -/
theorem of_mem_rmArgs {start : Bool} {l args : List Char} (h : args ∈ rmArgs start l) :
    ∀ c ∈ args, c ∈ l ∧ ends c = false := by
  fun_induction rmArgs start l with
  | case1 start l rest hmatch ih =>
    have hrest := suffix_of_matchRm hmatch
    intro c hc
    obtain rfl | h := List.mem_cons.mp h
    · have hend := List.mem_takeWhile_imp hc
      exact ⟨hrest.subset ((List.takeWhile_prefix _).subset hc), by simpa using hend⟩
    · obtain ⟨hmem, hend⟩ := ih h c hc
      exact ⟨hrest.subset ((List.dropWhile_suffix _).subset hmem), hend⟩
  | case2 => cases h
  | case3 start c l hmatch ih =>
    intro d hd
    obtain ⟨hmem, hend⟩ := ih h d hd
    exact ⟨List.mem_cons_of_mem _ hmem, hend⟩

/-- The targets are the words that do not begin with a dash. -/
theorem targets_eq {args : List Char} (h : ∀ c ∈ args, IsTextChar c ∧ ends c = false) :
    targets args = .ok ((words args).filter fun w => w.head? != some '-') := by
  unfold targets
  split
  · next hblank =>
    obtain ⟨a, b, ha, hb, hargs⟩ := exists_stripBy isSpace args
    rw [hblank, List.append_nil] at hargs
    have hblanks : ∀ c ∈ args, isBlank c = true := by
      intro c hc
      obtain ⟨htext, hend⟩ := h c hc
      have hspace : isSpace c = true := by
        rw [hargs] at hc
        exact (List.mem_append.mp hc).elim (ha c) (hb c)
      refine (htext.1 hspace).resolve_right ?_
      rintro rfl
      exact absurd hend (by decide)
    rw [Shell.words_blanks hblanks]
    rfl
  · rw [shlexSplit_eq_words fun c hc => isUnquoted_of_isTextChar (h c hc).1 (h c hc).2]
    rfl

/-- **The answer of the guard on simple commands.** -/
theorem deletesOutside_eq {cmds : String} (hsimple : isSimple cmds.toList = true)
    (srcdir cwd : String) :
    deletesOutside cmds srcdir cwd =
      .ok ((behindRm .out (tokens cmds.toList)).any fun w =>
        w.head? != some '-' && refuses srcdir.toList cwd.toList w) := by
  have htext := isTextChar_of_isSimple hsimple
  have hany (argss : List (List Char))
      (h : ∀ args ∈ argss, ∀ c ∈ args, IsTextChar c ∧ ends c = false) :
      anyRefused srcdir.toList cwd.toList argss =
        .ok ((argss.flatMap words).any fun w =>
          w.head? != some '-' && refuses srcdir.toList cwd.toList w) := by
    induction argss with
    | nil => rfl
    | cons args argss ih =>
      rw [anyRefused, targets_eq (h args List.mem_cons_self), List.flatMap_cons, List.any_append,
        ← List.any_filter, ih fun a ha => h a (List.mem_cons_of_mem _ ha)]
      show (if _ then _ else _) = _
      split
      · next hrefused => rw [hrefused, Bool.true_or]
      · next hrefused => rw [Bool.eq_false_iff.mpr hrefused, Bool.false_or]
  rw [deletesOutside, hany _ fun args hargs c hc => ?_, words_rmArgs true htext,
    if_pos rfl]
  obtain ⟨hmem, hend⟩ := of_mem_rmArgs hargs c hc
  exact ⟨htext c hmem, hend⟩

/-! ### What is removed -/

/-- The arguments of every `rm` are among the words behind one. -/
theorem mem_behindRm (ts : List Token) (m : Mode) :
    (∀ command ∈ commands ts, ∀ args, ['r', 'm'] :: args <:+ command →
      ∀ w ∈ args, w ∈ behindRm m ts) ∧
      (m ≠ .out → ∀ w ∈ (commands ts).headD [], w ∈ behindRm m ts) := by
  induction ts generalizing m with
  | nil =>
    refine ⟨fun command hcommand args hargs => ?_, fun _ w hw => absurd hw (by simp [commands])⟩
    rw [commands, List.mem_singleton] at hcommand
    subst hcommand
    exact absurd (List.suffix_nil.mp hargs) (List.cons_ne_nil _ _)
  | cons t ts ih =>
    cases t with
    | word v =>
      obtain ⟨c, cs, hc⟩ := exists_commands_eq ts
      have hcommands : commands (.word v :: ts) = (v :: c) :: cs := by rw [commands, hc]; rfl
      -- the rest is read in a mode that is not `out` behind an `rm`
      obtain ⟨m', hrest, hm', hv⟩ : ∃ m', (∀ w ∈ behindRm m' ts, w ∈ behindRm m (.word v :: ts)) ∧
          (v = ['r', 'm'] ∨ m ≠ .out → m' ≠ .out) ∧
          (m ≠ .out → v ∈ behindRm m (.word v :: ts)) := by
        cases m with
        | out =>
          refine ⟨if v = ['r', 'm'] then .fresh else .out, fun w hw => hw, ?_, fun h => absurd rfl h⟩
          rintro (rfl | h)
          · rw [if_pos rfl]
            exact Mode.noConfusion
          · exact absurd rfl h
        | fresh => exact ⟨.args, fun w => List.mem_cons_of_mem _, fun _ => Mode.noConfusion,
            fun _ => List.mem_cons_self⟩
        | args => exact ⟨.args, fun w => List.mem_cons_of_mem _, fun _ => Mode.noConfusion,
            fun _ => List.mem_cons_self⟩
      obtain ⟨hlater, hnow⟩ := ih m'
      rw [hc] at hlater hnow
      rw [hcommands]
      constructor
      · intro command hcommand args hargs w hw
        obtain rfl | hcommand := List.mem_cons.mp hcommand
        · obtain heq | hsuffix := List.suffix_cons_iff.mp hargs
          · cases heq
            exact hrest w (hnow (hm' (.inl rfl)) w hw)
          · exact hrest w (hlater c List.mem_cons_self args hsuffix w hw)
        · exact hrest w (hlater command (List.mem_cons_of_mem _ hcommand) args hargs w hw)
      · intro hm w hw
        obtain rfl | hw := List.mem_cons.mp hw
        · exact hv hm
        · exact hrest w (hnow (hm' (.inr hm)) w hw)
    | sep =>
      have hout : behindRm m (.sep :: ts) = behindRm .out ts := by cases m <;> rfl
      rw [hout]
      refine ⟨fun command hcommand args hargs => ?_, fun _ w hw => absurd hw List.not_mem_nil⟩
      obtain rfl | hcommand := List.mem_cons.mp hcommand
      · exact absurd (List.suffix_nil.mp hargs) (List.cons_ne_nil _ _)
      · exact (ih .out).1 command hcommand args hargs
    | newline =>
      obtain ⟨m', hm'⟩ : ∃ m', behindRm m (.newline :: ts) = behindRm m' ts := by
        cases m with
        | out => exact ⟨.out, rfl⟩
        | fresh => exact ⟨.fresh, rfl⟩
        | args => exact ⟨.out, rfl⟩
      rw [hm']
      refine ⟨fun command hcommand args hargs => ?_, fun _ w hw => absurd hw List.not_mem_nil⟩
      obtain rfl | hcommand := List.mem_cons.mp hcommand
      · exact absurd (List.suffix_nil.mp hargs) (List.cons_ne_nil _ _)
      · exact (ih m').1 command hcommand args hargs

/-- **The guard reads every operand of every `rm`.** -/
theorem mem_behindRm_of_mem_rmOperands {l w : List Char} (h : w ∈ rmOperands l) :
    w ∈ behindRm .out (tokens l) := by
  obtain ⟨command, hcommand, hw⟩ := List.mem_flatMap.mp h
  have hargs : w ∈ argsOf ['r', 'm'] command := Shell.operands_subset w hw
  have hsuffix := Shell.argsOf_suffix (List.ne_nil_of_mem hargs)
  exact (mem_behindRm (tokens l) .out).1 command hcommand _ hsuffix w hargs

/-- A word that shows that something outside is to be removed: it is absolute, and neither begins
with `/tmp/` nor has the name of the tree in it, or it is relative, and the working directory has
not. -/
def GivesAway (srcdir cwd w : List Char) : Prop :=
  w.head? ≠ some '-' ∧
    if w.head? = some '/' then
      ¬ "/tmp/".toList <+: w ∧ ¬ (srcdir ≠ [] ∧ isInfix ('/' :: srcdir) w = true)
    else ¬ (srcdir ≠ [] ∧ isInfix ('/' :: srcdir) cwd = true)

/-- An operand that does not, although what it names is outside. -/
inductive Misleads (srcdir cwd w : List Char) : Prop
  /-- It begins with `/tmp/`, and climbs out by `..` or is `/tmp` itself. -/
  | climbs (htmp : "/tmp/".toList <+: w) (hout : ¬ Inside srcdir cwd w)
  /-- It is absolute, and the name of the tree stands in it by chance, or above a `..`. -/
  | alike (habs : w.head? = some '/') (hne : srcdir ≠ [])
      (hname : isInfix ('/' :: srcdir) w = true) (hout : ¬ Inside srcdir cwd w)
  /-- It is relative, and leads out of a working directory whose text has the name of the tree. -/
  | relative (hrel : w.head? ≠ some '/') (hne : srcdir ≠ [])
      (hname : isInfix ('/' :: srcdir) cwd = true) (hout : ¬ Inside srcdir cwd w)
  /-- It begins with a dash, behind a `--`. -/
  | dash (hdash : w.head? = some '-') (hout : ¬ Inside srcdir cwd w)

theorem refuses_iff {srcdir cwd w : List Char} :
    (w.head? != some '-' && refuses srcdir cwd w) = true ↔ GivesAway srcdir cwd w := by
  have htmp : "/tmp/".toList.isPrefixOf w = false ↔ ¬ "/tmp/".toList <+: w := by
    rw [← List.isPrefixOf_iff_prefix, Bool.not_eq_true]
  unfold GivesAway refuses inTree
  rw [Bool.and_eq_true, bne_iff_ne]
  split
  · simp only [Bool.not_eq_true', Bool.or_eq_false_iff, htmp, Bool.and_eq_false_iff, not_and,
      Bool.not_eq_true, bne_eq_false_iff_eq, ← or_iff_not_imp_left]
  · simp only [Bool.not_eq_true', Bool.and_eq_false_iff, not_and, Bool.not_eq_true,
      bne_eq_false_iff_eq]
    tauto

theorem misleads_iff {srcdir cwd w : List Char} :
    Misleads srcdir cwd w ↔ ¬ GivesAway srcdir cwd w ∧ ¬ Inside srcdir cwd w := by
  constructor
  · intro h
    cases h with
    | climbs htmp hout =>
      refine ⟨fun hgives => ?_, hout⟩
      obtain ⟨r, rfl⟩ := htmp
      exact hgives.2.1 (List.prefix_append _ _)
    | alike habs hne hname hout =>
      refine ⟨fun ⟨_, hgives⟩ => ?_, hout⟩
      rw [if_pos habs] at hgives
      exact hgives.2 ⟨hne, hname⟩
    | relative hrel hne hname hout =>
      refine ⟨fun ⟨_, hgives⟩ => ?_, hout⟩
      rw [if_neg hrel] at hgives
      exact hgives ⟨hne, hname⟩
    | dash hdash hout => exact ⟨fun hgives => hgives.1 hdash, hout⟩
  · rintro ⟨hgives, hout⟩
    by_cases hdash : w.head? = some '-'
    · exact .dash hdash hout
    · by_cases habs : w.head? = some '/'
      · by_cases htmp : "/tmp/".toList <+: w
        · exact .climbs htmp hout
        · by_cases hname : srcdir ≠ [] ∧ isInfix ('/' :: srcdir) w = true
          · exact .alike habs hname.1 hname.2 hout
          · exact absurd ⟨hdash, by rw [if_pos habs]; exact ⟨htmp, hname⟩⟩ hgives
      · by_cases hname : srcdir ≠ [] ∧ isInfix ('/' :: srcdir) cwd = true
        · exact .relative habs hname.1 hname.2 hout
        · exact absurd ⟨hdash, by rw [if_neg habs]; exact hname⟩ hgives

/-- **What passes the guard removes nothing outside, exactly where a word behind an `rm` gives
itself away or no operand misleads.** -/
theorem deletesOutside_sound_iff {cmds : String} (hsimple : isSimple cmds.toList = true)
    (srcdir cwd : String) :
    (deletesOutside cmds srcdir cwd = .ok false →
      ∀ w ∈ rmOperands cmds.toList, Inside srcdir.toList cwd.toList w) ↔
    (∃ w ∈ behindRm .out (tokens cmds.toList), GivesAway srcdir.toList cwd.toList w) ∨
      ∀ w ∈ rmOperands cmds.toList, ¬ Misleads srcdir.toList cwd.toList w := by
  have hfalse : deletesOutside cmds srcdir cwd = .ok false ↔
      ¬ ∃ w ∈ behindRm .out (tokens cmds.toList), GivesAway srcdir.toList cwd.toList w := by
    rw [deletesOutside_eq hsimple, Except.ok.injEq, Bool.eq_false_iff, ne_eq, List.any_eq_true]
    simp only [refuses_iff]
  rw [hfalse]
  constructor
  · intro hsound
    by_cases hgives : ∃ w ∈ behindRm .out (tokens cmds.toList),
        GivesAway srcdir.toList cwd.toList w
    · exact .inl hgives
    · exact .inr fun w hw hmisleads => (misleads_iff.mp hmisleads).2 (hsound hgives w hw)
  · rintro (hgives | hnone) hquiet w hw
    · exact absurd hgives hquiet
    · by_contra hout
      refine hnone w hw (misleads_iff.mpr ⟨fun hgives => hquiet ?_, hout⟩)
      exact ⟨w, mem_behindRm_of_mem_rmOperands hw, hgives⟩

/-- What the guard lets through in the package's tree is there. -/
theorem deletesOutside_sound_iff_config :
    isSimple "rm -f config.cache".toList = true ∧
      (deletesOutside "rm -f config.cache" "gcc-16.2.0" "/sources/gcc-16.2.0/build" = .ok false →
        ∀ w ∈ rmOperands "rm -f config.cache".toList,
          Inside "gcc-16.2.0".toList "/sources/gcc-16.2.0/build".toList w) := by
  have hsimple : isSimple "rm -f config.cache".toList = true := by decide
  have hinside : ∀ w ∈ rmOperands "rm -f config.cache".toList,
      Inside "gcc-16.2.0".toList "/sources/gcc-16.2.0/build".toList w := by decide
  refine ⟨hsimple, (deletesOutside_sound_iff hsimple _ _).mpr ?_⟩
  exact .inr fun w hw hmisleads => (misleads_iff.mp hmisleads).2 (hinside w hw)

/-- `rm -rf /tmp/../etc` passes. -/
theorem tmp_parent_passes :
    isSimple "rm -rf /tmp/../etc".toList = true ∧
      deletesOutside "rm -rf /tmp/../etc" "" "/" = .ok false ∧
      ∃ w ∈ rmOperands "rm -rf /tmp/../etc".toList, ¬ Inside [] ['/'] w := by
  have hsimple : isSimple "rm -rf /tmp/../etc".toList = true := by decide
  refine ⟨hsimple, ?_, ?_⟩
  · rw [deletesOutside_eq hsimple]
    decide
  · decide

/-- **Where a path begins with `/tmp` or the tree, has a name behind it and no `..`, it leads
inside.** -/
theorem inside_of_tame {srcdir cwd w : List Char} {dir names : List (List Char)}
    (hdir : dir ∈ tmp :: trees srcdir) (hsrcdir : Shell.isProper srcdir = true)
    (hnames : Shell.fromRoot cwd (expand w) = dir ++ names)
    (hup : ∀ n ∈ names, n ≠ ['.', '.']) (hname : ∃ n ∈ names, n ≠ ['.']) :
    Inside srcdir cwd w := by
  refine ⟨dir, hdir, ?_⟩
  rw [resolve, hnames]
  refine Shell.below_normalise ?_ hup hname
  intro n hn
  obtain rfl | hdir := List.mem_cons.mp hdir
  · rw [List.mem_singleton.mp hn]
    decide
  · unfold trees at hdir
    split at hdir
    · cases hdir
    · simp only [List.mem_cons, List.not_mem_nil, or_false] at hdir
      obtain rfl | rfl := hdir
      · simp only [List.mem_cons, List.not_mem_nil, or_false] at hn
        obtain rfl | rfl := hn
        · decide
        · exact hsrcdir
      · simp only [List.mem_cons, List.not_mem_nil, or_false] at hn
        obtain rfl | rfl | rfl | rfl := hn
        · decide
        · decide
        · decide
        · exact hsrcdir

end LfsWorker
end CloudCore
