import CloudCore.Python.Regex
import CloudCore.Python.Shlex
import CloudCore.Python.Text
import Mathlib.Data.List.Infix

/-!
# The verdict on a step

`_exec_step` and `_judge` of `advice_runner.py`.  A step is a script: its commands run one after the
other, each that fails is reported by a trap, and the script ends with the last status.  A `bash -c`
among them is one command, whatever fails within.

## Main definitions

* `Ran`, `Execution` — what ran, with the status of each command.
* `benign` — a status that is no failure.
* `execStep` — what is seen of an execution.
* `judge` — the verdict.
* `Settled` — a command that is no failure.

## Main results

* `judge_ok_iff` — **the verdict is `ok` exactly if what was reported is settled, and the time was
  enough.**
* `settled_of_ok` — what the script runs itself is settled.
-/

namespace CloudCore
namespace RunStep

open Python
open Python.Re (lit oneOf opt some1)

/-! ### Scripts -/

/-- What a character does to the quotes. -/
def quoting : ShlexState → Char → ShlexState
  | .quotes q, c => if c = q then .word else if c = '\\' ∧ q = '"' then .escape (some q) else .quotes q
  | .escape none, _ => .word
  | .escape (some q), _ => .quotes q
  | .between, c | .word, c => if isQuote c then .quotes c else if c = '\\' then .escape none else .word

/-- The lines of a script; `line` is the current one in reverse.  A line end in quotes does not end one. -/
def scriptLines : ShlexState → List Char → List Char → List (List Char)
  | _, line, [] => [line.reverse]
  | st, line, c :: l =>
    if c = '\n' ∧ st = .word then line.reverse :: scriptLines .word [] l
    else scriptLines (quoting st c) (c :: line) l

/-- The commands of a script: one in each line, but for blank lines and comments. -/
def commands (text : List Char) : List (List Char) :=
  ((scriptLines .word [] text).map (stripBy isSpace)).filter fun l => l ≠ [] ∧ l.head? ≠ some '#'

/-- The script in a `bash -c` or `bash -lc`. -/
def inner? (cmd : List Char) : Option (List Char) :=
  match shlexSplit cmd with
  | .error _ => none
  | .ok words =>
    match words.reverse with
    | inner :: flag :: bash :: _ =>
      if bash = "bash".toList ∧ (flag = "-c".toList ∨ flag = "-lc".toList) then some inner else none
    | _ => none

/-- A command that ran, with its status. -/
inductive Ran where
  | simple (cmd : List Char) (status : ℕ)
  | nested (cmd : List Char) (status : ℕ) (inner : List Ran)

namespace Ran

def cmd : Ran → List Char
  | .simple cmd _ | .nested cmd _ _ => cmd

def status : Ran → ℕ
  | .simple _ status | .nested _ status _ => status

end Ran

/-- The status a script ends with. -/
def lastStatus (rans : List Ran) : ℕ := (rans.getLast?.map Ran.status).getD 0

/-- A command runs so: what is in a nested script is run, and its last status is that of the command. -/
inductive Ran.Valid : Ran → Prop where
  | simple {cmd : List Char} {status : ℕ} : inner? cmd = none → Valid (.simple cmd status)
  | nested {cmd text : List Char} {inner : List Ran} : inner? cmd = some text →
      commands text = inner.map Ran.cmd → (∀ r ∈ inner, Valid r) →
      Valid (.nested cmd (lastStatus inner) inner)

/-- What ran, and what was printed. -/
structure Execution where
  rans : List Ran
  output : String

/-- An execution of this script. -/
structure Execution.Of (x : Execution) (text : List Char) : Prop where
  commands : commands text = x.rans.map Ran.cmd
  valid : ∀ r ∈ x.rans, r.Valid

/-- A simple command, wherever it ran. -/
inductive Leaf : List Ran → List Char → ℕ → Prop where
  | here {rans : List Ran} {cmd : List Char} {status : ℕ} : .simple cmd status ∈ rans → Leaf rans cmd status
  | inside {rans inner : List Ran} {cmd cmd' : List Char} {status status' : ℕ} :
      .nested cmd' status' inner ∈ rans → Leaf inner cmd status → Leaf rans cmd status

/-! ### Statuses that are no failure -/

def searchCmds : List (List Char) :=
  ["grep", "egrep", "fgrep", "zgrep", "rg", "pgrep", "pidof", "lsof", "diff", "cmp", "test", "[", "[[", "which",
    "type", "command", "find", "locate", "whereis"].map String.toList

/-- `l.rsplit(sep, 1)[-1]`, which is `l.split(sep)[-1]` too. -/
def behindLast (sep : Char) (l : List Char) : List Char := (l.reverse.takeWhile (· ≠ sep)).reverse

/-- The words of the last command of a pipe, without assignments and without what runs it. -/
def pipeWords (cmd : List Char) : List (List Char) :=
  let words := ((behindLast '|' cmd).splitOnP isSpace).filter (· ≠ [])
  let words := words.filter fun w => !w.contains '=' || w.head? == some '-'
  words.dropWhile (["sudo", "env", "time", "nice", "nohup"].map String.toList).contains

/-- `_benign`: why a failing command is no failure; empty where it is one. -/
def benign (cmd : List Char) (status : ℕ) : String :=
  let words := pipeWords cmd
  let head := behindLast '/' (words.headD [])
  if head = "find".toList ∧ status = 1 then "find printed its results, with some paths it couldn't read"
  else if head ∈ searchCmds ∧ status = 1 then
    String.ofList head ++ " found nothing to match (exit 1 means no match, not an error)"
  else
    match words with
    | _ :: verb :: _ =>
      if head = "systemctl".toList ∧
          verb ∈ ["is-active", "is-enabled", "is-failed", "status"].map String.toList ∧ status ∈ [1, 3, 4] then
        "systemctl " ++ String.ofList verb ++ " reports a state; it isn't an error"
      else ""
    | _ => ""

/-! ### What is seen of an execution -/

/-- A failing command, as the trap reports it. -/
structure Mark where
  status : ℕ
  cmd : List Char
  deriving DecidableEq

/-- `l.splitlines()[0]`, or nothing. -/
def firstLine (l : List Char) : List Char := (splitlines l).headD []

/-- What is read of a command in a report: the first line of it. -/
def reported (cmd : List Char) : List Char := stripBy isSpace (firstLine cmd)

/-- `f'echo "{_ERR_MARK}'`: a line with it is taken for the trap's own text. -/
def trapText : List Char := "echo \"__LABERR__".toList

/-- Whether a command looks like the trap itself. -/
def Unmarked (cmd : List Char) : Prop := ¬trapText <:+: firstLine cmd

instance (cmd : List Char) : Decidable (Unmarked cmd) := inferInstanceAs (Decidable (¬_))

/-- The trap reports the commands that fail. -/
def report (r : Ran) : Option Mark :=
  if r.status = 0 ∨ ¬Unmarked r.cmd then none else some ⟨r.status, reported r.cmd⟩

/-- `_FULLSCREEN_RE`. -/
def fullscreenNames : List String :=
  ["top", "htop", "atop", "btop", "iotop", "iftop", "nethogs", "nload", "watch", "less", "more", "man", "ncdu",
    "mc", "nmtui", "glances", "bmon"]

def fullscreenRe : Re :=
  [.notBehind (· != '\n'), .many isSpace, opt (.seq (lit "sudo") (some1 isSpace)),
    oneOf (fullscreenNames.map lit), .boundary].foldr .seq
    (.notAhead ([.many (· != '\n'), .set isSpace, lit "-b"].foldr .seq .boundary))

/-- `\bumount\b`. -/
def umountRe : Re := .seq .boundary (.seq (lit "umount") .boundary)

/-- `\bnot mounted\b`. -/
def notMountedRe : Re := .seq .boundary (.seq (lit "not mounted") .boundary)

/-- What `_exec_step` returns, but for the replies. -/
structure Executed where
  code : Option ℕ
  out : String
  timedOut : Bool
  marks : List Mark
  fullscreen : Bool

/-- `_exec_step`, where the connection holds. -/
def execStep (letter : Char → Bool) (command : String) (x : Execution) : Executed :=
  let code := lastStatus x.rans
  let fullscreen := fullscreenRe.search letter command.toList
  { code := some code
    out := x.output
    timedOut := (code = 124 ∨ code = 137) ∧ fullscreen = false
    marks := x.rans.filterMap report
    fullscreen := fullscreen }

/-! ### Classes -/

/-- The classes of a step; `none` is the empty one. -/
inductive Cls where
  | ok
  | repaired
  | skipped
  | timeout
  | packageNotFound
  | serviceFailed
  | commandNotFound
  | interactive
  | stepFailed
  | labLimit
  deriving DecidableEq

/-- `_CLASSIFIERS`. -/
inductive Classifier where
  | packageNotFound
  | serviceFailed
  | commandNotFound
  | interactive
  deriving DecidableEq

namespace Classifier

def all : List Classifier := [.packageNotFound, .serviceFailed, .commandNotFound, .interactive]

def cls : Classifier → Cls
  | .packageNotFound => .packageNotFound
  | .serviceFailed => .serviceFailed
  | .commandNotFound => .commandNotFound
  | .interactive => .interactive

def wording (what : String) : Classifier → String
  | .packageNotFound => "no package called '" ++ what ++ "' in Ubuntu 22.04"
  | .serviceFailed => "the service '" ++ what ++ "' failed or doesn't exist"
  | .commandNotFound => "'" ++ what ++ "' is not a command here"
  | .interactive => "it waited for input nobody could sensibly type"

end Classifier

/-- What `re` finds in texts with the patterns that are not written out here. -/
structure Found where
  /-- The letters beyond ASCII. -/
  letter : Char → Bool
  /-- The groups of the first match of a classifier. -/
  groups : Classifier → String → Option (List String)
  aptTransient : String → Bool
  missingParents : String → List String
  missingKey : String → Option String
  missingDevice : String → Bool
  notReady : String → Bool
  risky : String → Bool
  reboots : String → Bool

/-- `l[-n:]`. -/
def lastChars (n : ℕ) (s : String) : String := .ofList (s.toList.drop (s.toList.length - n))

/-- `l[:n]`. -/
def firstChars (n : ℕ) (s : String) : String := .ofList (s.toList.take n)

/-- The last line that is not blank. -/
def lastLine (s : String) : String :=
  .ofList ((((splitlines s.toList).reverse.map (stripBy isSpace)).find? (· ≠ [])).getD [])

def classify (f : Found) (exitCode : Option ℕ) (output : String) (timedOut : Bool) : Cls × String :=
  if timedOut then (.timeout, "the step didn't finish within its time limit")
  else if exitCode = some 0 then (.ok, "")
  else
    let tail := lastChars 3000 output
    match Classifier.all.findSome? fun c => (f.groups c tail).map (c, ·) with
    | some (c, groups) => (c.cls, c.wording ((groups.find? (· ≠ "")).getD ""))
    | none =>
      let last := lastLine tail
      (.stepFailed, if last ≠ "" then firstChars 160 last else "exit " ++ exitCode.elim "None" toString)

/-- The failures among what was reported. -/
def failures (marks : List Mark) : List Mark := marks.filter fun m => benign m.cmd m.status = ""

/-- Why the others are none. -/
def benignNotes (marks : List Mark) : List String := (marks.map fun m => benign m.cmd m.status).filter (· ≠ "")

/-- "umount it first", where it wasn't mounted. -/
def unmounted (letter : Char → Bool) (out : String) (marks : List Mark) : Bool :=
  !(failures marks).isEmpty && (failures marks).all (fun m => umountRe.search letter m.cmd) &&
    notMountedRe.search letter out.toList

/-- The end of `_judge`, for these failures and notes. -/
def judgeFailures (f : Found) (code : Option ℕ) (out : String) (timedOut : Bool) (bad : List Mark)
    (notes : List String) (fullscreen : Bool) : Cls × String × String :=
  if fullscreen ∧ bad = [] then (.ok, "", "full-screen tool: shown for a few seconds, then quit with q")
  else if timedOut then
    let (cls, detail) := classify f code out true
    (cls, detail, "")
  else
    match bad with
    | m :: _ =>
      let (cls, detail) := classify f (some (if m.status = 0 then 1 else m.status)) out false
      if cls = .stepFailed then
        (cls, "`" ++ firstChars 100 (.ofList m.cmd) ++ "` failed (exit " ++ toString m.status ++ ")" ++
          (if detail ≠ "" ∧ ¬startswith detail "exit " then ": " ++ detail else ""), "")
      else (cls, detail, "")
    | [] =>
      if code.getD 0 ≠ 0 ∧ notes = [] then
        let (cls, detail) := classify f code out false
        (cls, detail, "")
      else (.ok, "", notes.headD "")

/-- `_judge`: class, detail, and the note on what was benign. -/
def judge (f : Found) (code : Option ℕ) (out : String) (timedOut : Bool) (marks : List Mark)
    (fullscreen : Bool) : Cls × String × String :=
  if unmounted f.letter out marks then
    judgeFailures f code out timedOut []
      (benignNotes marks ++ ["it wasn't mounted, so there was nothing to unmount"]) fullscreen
  else judgeFailures f code out timedOut (failures marks) (benignNotes marks) fullscreen

/-! ### When the verdict is `ok` -/

variable {f : Found} {code : Option ℕ} {out : String} {marks : List Mark} {fullscreen timedOut : Bool}

theorem classify_ne_ok (h : timedOut = true ∨ code ≠ some 0) : (classify f code out timedOut).1 ≠ .ok := by
  unfold classify
  split
  · nofun
  · next hintime =>
    rw [if_neg (h.resolve_left hintime)]
    dsimp only
    split
    · next c groups _ =>
      show c.cls ≠ .ok
      cases c <;> nofun
    · nofun

/-- A failure that is excused: the `umount` of what is not mounted. -/
def Excused (letter : Char → Bool) (out : String) (cmd : List Char) : Prop :=
  umountRe.search letter cmd = true ∧ notMountedRe.search letter out.toList = true

theorem judgeFailures_ok_iff {bad : List Mark} {notes : List String} :
    (judgeFailures f code out timedOut bad notes fullscreen).1 = .ok ↔
      bad = [] ∧ (fullscreen = true ∨ timedOut = false ∧ (code.getD 0 = 0 ∨ notes ≠ [])) := by
  unfold judgeFailures
  split
  · next h => exact iff_of_true rfl ⟨h.2, Or.inl h.1⟩
  · next hscreen =>
    split
    · next hlate =>
      refine iff_of_false (classify_ne_ok (Or.inl rfl)) ?_
      rintro ⟨hbad, hfull | ⟨hintime, -⟩⟩
      · exact hscreen ⟨hfull, hbad⟩
      · cases hlate.symm.trans hintime
    · next hlate =>
      split
      · next m _ =>
        refine iff_of_false ?_ fun h => by cases h.1
        have hstatus : some (if m.status = 0 then 1 else m.status) ≠ some 0 := fun h => by
          have hzero := Option.some_inj.mp h
          split at hzero <;> omega
        have hcls := @classify_ne_ok f _ out false (Or.inr hstatus)
        generalize classify f (some (if m.status = 0 then 1 else m.status)) out false = r at hcls
        dsimp only
        split
        · exact hcls
        · exact hcls
      · split
        · next h =>
          refine iff_of_false (classify_ne_ok (Or.inr fun hcode => h.1 (by rw [hcode]; rfl))) ?_
          rintro ⟨-, hfull | ⟨-, hzero | hnotes⟩⟩
          · exact hscreen ⟨hfull, rfl⟩
          · exact h.1 hzero
          · exact hnotes h.2
        · next h =>
          refine iff_of_true rfl ⟨rfl, Or.inr ⟨(Bool.not_eq_true _).mp hlate, ?_⟩⟩
          exact (not_and_or.mp h).imp_left not_not.mp

/-- Every failure is excused. -/
theorem unmounted_iff : unmounted f.letter out marks = true ↔
    failures marks ≠ [] ∧ ∀ m ∈ failures marks, Excused f.letter out m.cmd := by
  unfold unmounted Excused
  cases failures marks with
  | nil => exact iff_of_false Bool.false_ne_true fun h => h.1 rfl
  | cons m ms =>
    rw [List.isEmpty_cons, Bool.not_false, Bool.true_and, Bool.and_eq_true, List.all_eq_true]
    constructor
    · rintro ⟨humount, hout⟩
      exact ⟨List.cons_ne_nil m ms, fun m' hm => ⟨humount m' hm, hout⟩⟩
    · rintro ⟨-, h⟩
      exact ⟨fun m' hm => (h m' hm).1, (h m List.mem_cons_self).2⟩

theorem mem_failures {m : Mark} : m ∈ failures marks ↔ m ∈ marks ∧ benign m.cmd m.status = "" := by
  rw [failures, List.mem_filter, decide_eq_true_eq]

/-- Where there is no failure, each report has a note. -/
theorem benignNotes_ne_nil (h : failures marks = []) : benignNotes marks ≠ [] ↔ marks ≠ [] := by
  cases marks with
  | nil => exact iff_of_false (fun h => h rfl) fun h => h rfl
  | cons m ms =>
    refine iff_of_true ?_ (List.cons_ne_nil m ms)
    have hm : benign m.cmd m.status ≠ "" := fun hbad =>
      List.not_mem_nil (h ▸ mem_failures.mpr ⟨List.mem_cons_self, hbad⟩)
    refine List.ne_nil_of_mem (a := benign m.cmd m.status) (List.mem_filter.mpr ⟨?_, decide_eq_true hm⟩)
    exact List.mem_map_of_mem List.mem_cons_self

/-- **The verdict is `ok` exactly if what was reported is settled, and the time was enough,** and a status
that is not reported is none. -/
theorem judge_ok_iff : (judge f code out timedOut marks fullscreen).1 = .ok ↔
    (∀ m ∈ marks, benign m.cmd m.status ≠ "" ∨ Excused f.letter out m.cmd) ∧
      (fullscreen = true ∨ timedOut = false ∧ (code.getD 0 = 0 ∨ marks ≠ [])) := by
  have hall : (∀ m ∈ marks, benign m.cmd m.status ≠ "" ∨ Excused f.letter out m.cmd) ↔
      ∀ m ∈ failures marks, Excused f.letter out m.cmd := by
    constructor
    · intro h m hm
      obtain ⟨hmem, hbad⟩ := mem_failures.mp hm
      exact (h m hmem).resolve_left (not_not.mpr hbad)
    · intro h m hm
      exact or_iff_not_imp_left.mpr fun hbad => h m (mem_failures.mpr ⟨hm, not_not.mp hbad⟩)
  rw [hall]
  unfold judge
  split
  · next hexcused =>
    obtain ⟨hsome, hexcuses⟩ := unmounted_iff.mp hexcused
    obtain ⟨m, hm⟩ := List.exists_mem_of_ne_nil _ hsome
    have hmarks : marks ≠ [] := List.ne_nil_of_mem (mem_failures.mp hm).1
    rw [judgeFailures_ok_iff]
    refine and_congr (iff_of_true rfl hexcuses) (or_congr_right (and_congr_right fun _ => or_congr_right ?_))
    exact iff_of_true (List.append_ne_nil_of_right_ne_nil _ (List.cons_ne_nil _ _)) hmarks
  · next hexcused =>
    rw [judgeFailures_ok_iff]
    constructor
    · rintro ⟨hnone, hend⟩
      rw [← benignNotes_ne_nil hnone]
      refine ⟨?_, hend⟩
      rw [hnone]
      nofun
    · rintro ⟨hexcuses, hend⟩
      have hnone : failures marks = [] := not_not.mp fun hsome => hexcused (unmounted_iff.mpr ⟨hsome, hexcuses⟩)
      rw [benignNotes_ne_nil hnone]
      exact ⟨hnone, hend⟩

/-! ### What the script runs itself -/

/-- A command that is no failure: it exited with 0, or with a benign status, or it is excused. -/
def Settled (letter : Char → Bool) (out : String) (r : Ran) : Prop :=
  r.status = 0 ∨ benign (reported r.cmd) r.status ≠ "" ∨ Excused letter out (reported r.cmd)

theorem report_eq_some_iff {r : Ran} {m : Mark} :
    report r = some m ↔ (r.status ≠ 0 ∧ Unmarked r.cmd) ∧ m = ⟨r.status, reported r.cmd⟩ := by
  rw [report, Option.ite_none_left_eq_some, not_or, not_not, Option.some_inj]
  exact and_congr_right fun _ => eq_comm

theorem report_eq_some {r : Ran} (hstatus : r.status ≠ 0) (hunmarked : Unmarked r.cmd) :
    report r = some ⟨r.status, reported r.cmd⟩ :=
  report_eq_some_iff.mpr ⟨⟨hstatus, hunmarked⟩, rfl⟩

/-- The verdict on an execution. -/
@[irreducible] def verdict (f : Found) (command : String) (x : Execution) : Cls × String × String :=
  let e := execStep f.letter command x
  judge f e.code e.out e.timedOut e.marks e.fullscreen

/-- **What the script of an `ok` execution runs itself is settled.** -/
theorem settled_of_ok {command : String} {x : Execution} (h : (verdict f command x).1 = .ok) :
    ∀ r ∈ x.rans, Unmarked r.cmd → Settled f.letter x.output r := by
  intro r hr hunmarked
  refine or_iff_not_imp_left.mpr fun hstatus => ?_
  unfold verdict at h
  have hmark : (⟨r.status, reported r.cmd⟩ : Mark) ∈ x.rans.filterMap report :=
    List.mem_filterMap.mpr ⟨r, hr, report_eq_some hstatus hunmarked⟩
  exact (judge_ok_iff.mp h).1 ⟨r.status, reported r.cmd⟩ hmark

end RunStep
end CloudCore
