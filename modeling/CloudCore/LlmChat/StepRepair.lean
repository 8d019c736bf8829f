import CloudCore.Effect.Pool
import CloudCore.Effect.Sequential
import CloudCore.LlmChat.StepVerdict

/-!
# Steps of an answer, and their repairs

The run steps of an answer in `advice_runner.py`: a switch to another account wraps the steps after it in
a `bash -lc` of that account, a step that fails is repaired, and what counts is its last execution.  What
the lab's machine and the model do is outside.

## Main definitions

* `sessions` — `_sessions`.
* `repairCandidates`, `repairRounds` — `_repair_candidates`, `_repair_step`.
* `runStep`, `followSteps` — a step, and the steps of an answer.
* `Hidden` — a step that ends well though one of its commands failed.

## Main results

* `settled_of_ends` — **what the last execution of a step that ends well runs itself is settled.**
* `hidden_failures` — an `umount`, a nested script, the trap's own text, and a reboot.
-/

namespace CloudCore
namespace RunStep

open Effect Python
open Effect.Program (attempt Ends Sure sure_perform sure_attempt)

/-- How a run of steps may break off. -/
inductive Exn where
  /-- `_MachineLost`. -/
  | machineLost
  | other
  deriving DecidableEq

inductive Kind where
  | run
  | write
  | append
  | prepend
  | edit
  | prose
  | skip
  deriving DecidableEq

/-- `Step.cls`. -/
inductive StepCls where
  | empty
  | judged (c : Cls)
  | repaired
  | skipped
  | labLimit
  deriving DecidableEq

/-- `Step`, with what its last execution was. -/
structure Step where
  kind : Kind
  source : String
  target : String
  exit : Option ℕ
  output : String
  cls : StepCls
  detail : String
  repair : String
  final : String
  /-- The script that ran last for this step.  Nothing reads it. -/
  ran : Option (String × Execution)

/-- A step as `parse_steps` makes it. -/
def Step.of (kind : Kind) (source : String) : Step := ⟨kind, source, "", none, "", .empty, "", "", "", none⟩

/-! ### Account switches -/

def sudoValues : List (List Char) → List (List Char)
  | a :: b :: words =>
    (if a ∈ ["-u", "-iu", "-ui", "-su", "-us"].map String.toList then [b] else []) ++ sudoValues (b :: words)
  | _ => []

/-- `_switch_user`: the account a line switches to; empty where it does not. -/
def switchUser (line : List Char) : List Char :=
  match shlexSplit line with
  | .error _ => []
  | .ok words =>
    let bySudo := words.head? = some "sudo".toList
    let words := if bySudo then words.tail else words
    if words.head? = some "su".toList then
      match words.tail.filter fun w => w ∉ ["-", "-l", "--login"].map String.toList with
      | [] => "root".toList
      | [user] => if user.head? = some '-' then [] else user
      | _ => []
    else if ¬bySudo ∨ words = [] ∨ words.any (fun w => w ∉ sudoValues words && w.head? != some '-') then []
    else
      let flags := (words.filter fun w => w.head? = some '-' ∧ ¬"--".toList <+: w).flatMap
        (·.dropWhile (· = '-'))
      if 'i' ∉ flags ∧ 's' ∉ flags then [] else (sudoValues words).headD "root".toList

/-- A script that is run as another account. -/
def asUser (user : List Char) (source : List Char) : String :=
  .ofList ("sudo -u ".toList ++ user ++ " -H bash -lc ".toList ++ shlexQuote ("cd ~ && ".toList ++ source))

/-- `_sessions`, from the account that has been switched to; empty where there is none. -/
def sessions : List Char → List Step → List Step
  | _, [] => []
  | user, s :: steps =>
    if s.kind ≠ .run then s :: sessions user steps
    else
      let lines := splitlines (stripBy isSpace s.source.toList)
      let joined (lines : List (List Char)) := stripBy isSpace (['\n'].intercalate lines)
      let switch := switchUser (lines.headD [])
      if switch ≠ [] then
        if joined lines.tail = [] then { s with kind := .skip } :: sessions switch steps
        else { s with source := asUser switch (joined lines.tail) } :: sessions switch steps
      else if user ≠ [] ∧ stripBy isSpace (lines.getLastD []) ∈ ["exit", "logout"].map String.toList then
        if joined lines.dropLast = [] then { s with kind := .skip } :: sessions [] steps
        else { s with source := asUser user (joined lines.dropLast) } :: sessions [] steps
      else if user ≠ [] then { s with source := asUser user s.source.toList } :: sessions user steps
      else s :: sessions user steps

/-! ### What the lab does -/

inductive Cmd where
  /-- `_exec_step` of a step's script. -/
  | execStep (command : String)
  /-- `_exec_step` of what comes before a repair. -/
  | execPre (command : String)
  /-- `_exec` as root: its status. -/
  | probe (command : String)
  /-- `_suggest_package`. -/
  | suggestPackage (name : String) (provides : Bool)
  | modelFix (source output : String)
  /-- Whether the run has hit its time limit. -/
  | late
  /-- `_resolve_uuids`. -/
  | resolve (source : String)
  /-- `_exec_step` of a reboot; the connection may go away. -/
  | execReboot (command : String)
  /-- Whether the machine came back. -/
  | waitReboot
  /-- A step that is not run; its class. -/
  | other (kind : Kind) (source target : String)

@[reducible] def Cmd.Ans : Cmd → Type
  | .execStep _ => Except Exn Execution
  | .execPre _ => Except Exn Unit
  | .probe _ => Except Exn (Option ℕ)
  | .suggestPackage .. => Except Exn (Option String)
  | .modelFix .. => Except Exn String
  | .late => Bool
  | .resolve _ => Except Exn String
  | .execReboot _ => Option Execution
  | .waitReboot => Except Exn Bool
  | .other .. => Except Exn StepCls

abbrev sig : Signature := ⟨Cmd, Cmd.Ans⟩

abbrev Code (α : Type) := Program sig Exn α

/-! ### Repairs -/

def backtick : Char := Char.ofNat 96

/-- `'([^']+)'`, wherever it is found; `part` is what follows an open quote, in reverse. -/
def quotedParts : Option (List Char) → List Char → List (List Char)
  | _, [] => []
  | none, c :: l => quotedParts (if c = '\'' then some [] else none) l
  | some part, c :: l =>
    if c ≠ '\'' then quotedParts (some (c :: part)) l
    else if part = [] then quotedParts (some []) l
    else part.reverse :: quotedParts none l

/-- The command that a detail says has failed. -/
def failedCommand : List Char → Option (List Char)
  | [] => none
  | c :: l =>
    let body := l.takeWhile (· ≠ backtick)
    if c = backtick ∧ body ≠ [] ∧ (backtick :: " failed".toList) <+: l.drop body.length then some body
    else failedCommand l

/-- `l.split("&&")[0]`. -/
def beforeAnd : List Char → List Char
  | '&' :: '&' :: _ => []
  | c :: l => c :: beforeAnd l
  | [] => []

/-- The words from the program on; `skip` says that the next one is the value of an option. -/
def fromProgram (skip : Bool) : List (List Char) → List (List Char)
  | [] => []
  | w :: words =>
    if skip then fromProgram false words
    else if w ∈ ["sudo", "env", "nohup", "time", "command"].map String.toList ∨ '=' ∈ w ∨
        w.head? = some '-' ∧ words ≠ [] then
      fromProgram (w ∈ ["-u", "-g", "-h", "-p", "-C", "-D", "-r", "-t", "-U", "-T"].map String.toList ∧
        2 ≤ words.length) words
    else w :: words

def shellWords : List (List Char) :=
  ["cd", "echo", "export", "source", ".", "set", "test", "[", "[[", "true", "false", "if", "for", "while", "then",
    "do", "exit", "read", "printf", "eval", "exec", "ulimit", "umask", "alias"].map String.toList

/-- `[\w.+-]`. -/
def isNameChar (letter : Char → Bool) (c : Char) : Bool := isWord letter c || c == '.' || c == '+' || c == '-'

def programOf (letter : Char → Bool) (command : List Char) : List Char :=
  match shlexSplit ((beforeAnd (command.takeWhile (· ≠ '|'))).takeWhile (· ≠ ';')) with
  | .error _ => []
  | .ok words =>
    let prog := (fromProgram false words).headD []
    if ¬prog.all (isNameChar letter) ∨ prog ∈ shellWords then [] else prog

/-- `re.sub` of a whole name. -/
def replaceName (letter : Char → Bool) (wrong right : List Char) : Option Char → ℕ → List Char → List Char
  | _, _, [] => []
  | _, skip + 1, c :: l => replaceName letter wrong right (some c) skip l
  | before, 0, c :: l =>
    if ¬before.any (isNameChar letter) ∧ wrong <+: c :: l ∧
        ¬((c :: l).drop wrong.length).head?.any (isNameChar letter) then
      right ++ replaceName letter wrong right (some c) (wrong.length - 1) l
    else c :: replaceName letter wrong right (some c) 0 l

/-- A fix worth trying: the commands to run first, and the step. -/
structure Fix where
  label : String
  pre : Option String
  source : String
  byModel : Bool

def Fix.lab (label pre source : String) : Fix := ⟨label, some pre, source, false⟩

/-- Another package, for one that is not found. -/
def wrongPackage (f : Found) (s : Step) (quoted : List (List Char)) : Code (List Fix) :=
  match s.cls, quoted with
  | .judged .packageNotFound, wrong :: _ => do
    let right : Option String ← attempt (F := sig) (.suggestPackage (.ofList wrong) false) rfl
    match right with
    | some right => pure [.lab ("installed '" ++ right ++ "' instead of '" ++ .ofList wrong ++ "'") ""
        (.ofList (replaceName f.letter wrong right.toList none 0 s.source.toList))]
    | none => pure []
  | _, _ => pure []

/-- The package of a program that is missing. -/
def missingProgram (f : Found) (s : Step) (quoted : List (List Char)) : Code (List Fix) :=
  match s.cls, quoted with
  | .judged .commandNotFound, name :: _ => do
    let pkg : Option String ← attempt (F := sig) (.suggestPackage (.ofList name) true) rfl
    match pkg with
    | some pkg => pure [.lab ("installed '" ++ pkg ++ "', which provides '" ++ .ofList name ++ "'")
        ("sudo apt-get install -y " ++ pkg) s.source]
    | none => pure []
  | .judged .commandNotFound, [] => pure []
  | _, _ => do
    let command := (failedCommand s.detail.toList).getD ((splitlines (stripBy isSpace s.source.toList)).headD [])
    let prog := programOf f.letter command
    if prog = [] then pure []
    else do
      let code : Option ℕ ← attempt (F := sig)
        (.probe (.ofList ("command -v ".toList ++ shlexQuote prog))) rfl
      if code = some 0 then pure []
      else do
        let pkg : Option String ← attempt (F := sig) (.suggestPackage (.ofList prog) true) rfl
        match pkg with
        | some pkg => pure [.lab ("installed '" ++ pkg ++ "': '" ++ .ofList prog ++ "' wasn't installed")
            ("sudo apt-get install -y " ++ pkg) s.source]
        | none => pure []

/-- `path.rsplit("/", 1)[0]`. -/
def parentOf (path : List Char) : List Char := ((path.reverse.dropWhile (· ≠ '/')).drop 1).reverse

/-- The first missing directory of these paths. -/
def missingParent (s : Step) : List String → Code (List Fix)
  | [] => pure []
  | path :: paths =>
    let parent := parentOf path.toList
    if parent = [] then missingParent s paths
    else do
      let code : Option ℕ ← attempt (F := sig) (.probe (.ofList ("test -d ".toList ++ shlexQuote parent))) rfl
      if code = some 0 then missingParent s paths
      else pure [.lab ("created the missing directory " ++ .ofList parent)
        (.ofList ("sudo mkdir -p ".toList ++ shlexQuote parent)) s.source]

/-- Whether a text occurs in another. -/
def occurs (part : String) (s : String) : Bool := part.toList <:+: s.toList

/-- The answer left `sudo` off. -/
def asRoot (s : Step) (out : String) : List Fix :=
  if occurs "Permission denied" out ∧ ¬"sudo".toList <+: s.source.toList.dropWhile isSpace ∧
      ¬occurs "/home/student" s.source ∧ ¬occurs "~" s.source then
    [.lab "ran it as root (the answer left sudo off)" ""
      (.ofList ("sudo bash -c ".toList ++ shlexQuote s.source.toList))]
  else []

def repairCandidates (f : Found) (s : Step) (out : String) (already : List String) (model : Bool) :
    Code (List Fix) := do
  let quoted := quotedParts none s.detail.toList
  let renamed ← wrongPackage f s quoted
  let installed ← missingProgram f s quoted
  let refreshed := if f.aptTransient out then [Fix.lab "refreshed the package index and tried again"
    "while sudo fuser /var/lib/dpkg/lock-frontend >/dev/null 2>&1; do sleep 1; done; sudo apt-get update"
    s.source] else []
  let created ← missingParent s (f.missingParents out).eraseDups
  let keyed := (f.missingKey out).toList.map fun kt => Fix.lab
    ("created the SSH key pair the answer assumes you have (id_" ++ kt ++ ")")
    ("test -f ~/.ssh/id_" ++ kt ++ " || ssh-keygen -q -t " ++ kt ++ " -N '' -f ~/.ssh/id_" ++ kt) s.source
  let settled := if f.missingDevice out then [Fix.lab
    "waited for the new device to appear (udevadm settle) and tried again" "sudo udevadm settle; sleep 1"
    s.source] else []
  let waited := if f.notReady out then [Fix.lab
    "waited for the service to finish starting and asked again" "sleep 6" s.source] else []
  let asked := if model then [⟨"model", none, s.source, true⟩] else []
  pure ((renamed ++ installed ++ refreshed ++ created ++ asRoot s out ++ keyed ++ settled ++ waited ++ asked).filter
    (·.label ∉ already))

/-- `REPAIRS_PER_RUN` and `MODEL_FIXES_PER_RUN`, less what has been used. -/
structure Budget where
  run : ℤ
  model : ℤ

/-- The commands before a repair. -/
def runPre (pre : String) : Code Unit := if pre = "" then pure () else attempt (F := sig) (.execPre pre) rfl

/-- One fix is tried. -/
def tryFix (f : Found) (s : Step) (c : Fix) : Code Step := do
  let pre := c.pre.getD ""
  let () ← runPre pre
  let x : Execution ← attempt (F := sig) (.execStep c.source) rfl
  let v := verdict f c.source x
  if v.1 = .ok then
    pure { s with
      cls := .repaired
      repair := c.label ++ (if f.risky (pre ++ "\n" ++ c.source) then " [risky]" else "")
      final := (if pre = "" then "" else pre ++ "\n") ++ c.source
      ran := some (c.source, x) }
  else
    pure { s with
      output := lastChars 4000 x.output
      detail := if v.2.1 ≠ "" then v.2.1 else s.detail
      ran := some (c.source, x) }

/-- What the model suggests, where it does. -/
def modelFix (s : Step) : Code (Option Fix) := do
  let fix : String ← attempt (F := sig) (.modelFix s.source (lastChars 1500 s.output)) rfl
  let fix := strip fix
  if fix = "" ∨ startswith fix.toUpper "NONE" then pure none
  else pure (some ⟨"the model suggested: " ++ firstChars 160 fix, some fix, s.source, true⟩)

/-- A fix, as it is tried. -/
def chosen (s : Step) (c : Fix) : Code (Option Fix) := if c.byModel then modelFix s else pure (some c)

/-- `_repair_step`, for so many rounds. -/
def repairRounds (f : Found) (hasModel : Bool) : ℕ → Step → List String → Budget → Code (Step × Budget)
  | 0, s, _, b => pure (s, b)
  | n + 1, s, tried, b =>
    if b.run ≤ 0 then pure (s, b)
    else do
      let cands ← repairCandidates f s s.output tried (hasModel && decide (0 < b.model))
      match cands with
      | [] => pure (s, b)
      | c :: _ => do
        let b := { b with run := b.run - 1, model := if c.byModel then b.model - 1 else b.model }
        let fix ← chosen s c
        match fix with
        | none => repairRounds f hasModel n s (c.label :: tried) b
        | some fix => do
          let s ← tryFix f s fix
          if s.cls = .repaired then pure (s, b)
          else repairRounds f hasModel n s (fix.label :: c.label :: tried) b

/-! ### Steps -/

/-- A command without its `sudo`, and with single blanks. -/
def norm (source : String) : List Char :=
  let l := stripBy isSpace source.toList
  let l := if "sudo".toList <+: l ∧ (l.drop 4).head?.any isSpace then (l.drop 4).dropWhile isSpace else l
  [' '].intercalate ((l.splitOnP isSpace).filter (· ≠ []))

def repeatsRootRepair (done : List Step) (s : Step) : Bool :=
  match (done.filter (·.kind = .run)).getLast? with
  | none => false
  | some prev =>
    prev.cls = .repaired ∧ occurs "ran it as root" prev.repair ∧ startswith (strip s.source) "sudo" ∧
      norm s.source = norm prev.source

/-- `_lab_limit`, of these rules. -/
def labLimit (limit : String → Option String) (s : Step) : Option String :=
  let failing := (failedCommand s.detail.toList).elim s.source .ofList
  limit (failing ++ "\n" ++ s.target ++ "\n" ++ lastChars 2000 s.output)

structure Setting where
  found : Found
  /-- The first of the lab's limits that a text speaks of. -/
  limit : String → Option String
  repair : Bool
  hasModel : Bool

/-- A step that reboots the machine. -/
def rebootStep (s : Step) : Code Step := do
  let x : Option Execution ← Program.perform (F := sig) (.execReboot s.source)
  let back : Bool ← attempt (F := sig) .waitReboot rfl
  if back then pure { s with exit := some 0, cls := .judged .ok, ran := x.map (s.source, ·) }
  else throw .machineLost

/-- A run step, from its execution on. -/
def runStep (e : Setting) (s : Step) (b : Budget) : Code (Step × Budget) := do
  let x : Execution ← attempt (F := sig) (.execStep s.source) rfl
  let v := verdict e.found s.source x
  let s := { s with
    exit := some (lastStatus x.rans)
    output := lastChars 4000 x.output
    cls := .judged v.1
    detail := v.2.1
    ran := some (s.source, x) }
  if v.1 = .ok then pure (s, b)
  else
    match labLimit e.limit s with
    | some limit => pure ({ s with cls := .labLimit, detail := "can't be tested in this lab -- " ++ limit }, b)
    | none => if e.repair then repairRounds e.found e.hasModel 3 s [] b else pure (s, b)

/-- One step of an answer. -/
def followStep (e : Setting) (done : List Step) (s : Step) (b : Budget) : Code (Step × Budget) := do
  let late : Bool ← Program.perform (F := sig) .late
  if late then
    pure ({ s with cls := .judged .timeout, detail := "the whole run hit its time limit before this step" }, b)
  else do
    let source : String ← attempt (F := sig) (.resolve s.source) rfl
    let s := { s with source := source }
    if s.kind ≠ .run then do
      let cls : StepCls ← attempt (F := sig) (.other s.kind s.source s.target) rfl
      pure ({ s with cls := cls }, b)
    else if e.found.reboots s.source then do
      let s ← rebootStep s
      pure (s, b)
    else if repeatsRootRepair done s then pure ({ s with exit := some 0, cls := .skipped }, b)
    else runStep e s b

/-- The steps of an answer, after those that are done. -/
def followSteps (e : Setting) : List Step → List Step → Budget → Code (List Step)
  | done, [], _ => pure done
  | done, s :: steps, b => do
    let r ← followStep e done s b
    followSteps e (done ++ [r.1]) steps r.2

/-- An answer with these steps. -/
def followAnswer (e : Setting) (steps : List Step) : Code (List Step) :=
  followSteps e [] (sessions [] steps) ⟨8, 2⟩

/-! ### The last execution -/

/-- What the lab may do: a script runs command by command. -/
def exec (_ : Unit) : (c : Cmd) → c.Ans → Unit → Prop
  | .execStep command, .ok x, _ => x.Of command.toList
  | .execReboot command, some x, _ => x.Of command.toList
  | _, _, _ => True

/-- Whatever the program returns, it is so. -/
def Gives {α : Type} (p : Code α) (Q : α → Prop) : Prop := Sure exec p (fun a _ => Q a) (fun _ _ => True) ()

variable {f : Found} {e : Setting} {s : Step} {α β : Type}

theorem gives_pure {a : α} {Q : α → Prop} (h : Q a) : Gives (pure a) Q := h

theorem Gives.bind {p : Code β} {k : β → Code α} {P : β → Prop} {Q : α → Prop} (hp : Gives p P)
    (hk : ∀ b, P b → Gives (k b) Q) : Gives (p >>= k) Q :=
  Sure.bind hp fun b _ hb => hk b hb

theorem gives_any (p : Code α) : Gives p fun _ => True := Program.sure_any p

/-- After a program of which nothing is known. -/
theorem gives_after {p : Code β} {k : β → Code α} {Q : α → Prop} (hk : ∀ b, Gives (k b) Q) :
    Gives (p >>= k) Q :=
  (gives_any p).bind fun b _ => hk b

theorem gives_execStep (command : String) :
    Gives (attempt (F := sig) (.execStep command) rfl) fun x : Execution => x.Of command.toList := by
  refine Program.sure_call fun r _ hx => ?_
  cases r with
  | ok x => exact hx
  | error _ => exact trivial

/-- The last execution of a step is `ok`. -/
def Well (f : Found) (s : Step) : Prop :=
  ∃ command x, s.ran = some (command, x) ∧ x.Of command.toList ∧ (verdict f command x).1 = .ok

/-- A step that has not ended well. -/
def Failed (s : Step) : Prop := s.cls ≠ .judged .ok ∧ s.cls ≠ .repaired

/-- Where a run step ends well, its last execution is `ok`, or it reboots. -/
def Sound (f : Found) (s : Step) : Prop :=
  s.kind = .run → s.cls = .judged .ok ∨ s.cls = .repaired → (f.reboots s.source = true ∨ Well f s) ∧
    ∀ command x, s.ran = some (command, x) → x.Of command.toList

theorem Well.sound (h : Well f s) : Sound f s := by
  intro _ _
  refine ⟨Or.inr h, fun command x hran => ?_⟩
  obtain ⟨command', x', hran', hof, -⟩ := h
  cases hran.symm.trans hran'
  exact hof

theorem Failed.sound (h : Failed s) : Sound f s := fun _ hcls => (hcls.elim h.1 h.2).elim

theorem gives_tryFix (c : Fix) (h : Failed s) :
    Gives (tryFix f s c) fun s' => s'.cls = .repaired ∧ Well f s' ∨ s'.cls ≠ .repaired ∧ Failed s' := by
  unfold tryFix
  dsimp only
  refine gives_after fun _ => (gives_execStep _).bind fun x hx => ?_
  split
  · next hok =>
    refine gives_pure (Or.inl ⟨rfl, ?_⟩)
    exact ⟨c.source, x, rfl, hx, hok⟩
  · exact gives_pure (Or.inr ⟨h.2, h.1, h.2⟩)

/-- **Each round leaves a failed step, or one whose last execution is `ok`.** -/
theorem gives_repairRounds (hasModel : Bool) (n : ℕ) (tried : List String) (b : Budget) (h : Failed s) :
    Gives (repairRounds f hasModel n s tried b) fun r => Sound f r.1 := by
  induction n generalizing s tried b with
  | zero => exact gives_pure h.sound
  | succ n ih =>
    rw [repairRounds]
    split
    · exact gives_pure h.sound
    · refine gives_after fun cands => ?_
      cases cands with
      | nil => exact gives_pure h.sound
      | cons c _ =>
        dsimp only
        refine gives_after fun fix => ?_
        cases fix with
        | none => exact ih _ _ h
        | some fix =>
          refine (gives_tryFix fix h).bind fun s' hs' => ?_
          obtain ⟨hcls, hwell⟩ | ⟨hcls, hfailed⟩ := hs'
          · rw [if_pos hcls]
            exact gives_pure hwell.sound
          · rw [if_neg hcls]
            exact ih _ _ hfailed

theorem gives_runStep (s : Step) (b : Budget) : Gives (runStep e s b) fun r => Sound e.found r.1 := by
  unfold runStep
  refine (gives_execStep _).bind fun x hx => ?_
  dsimp only
  split
  · next hok => exact gives_pure (Well.sound ⟨s.source, x, rfl, hx, hok⟩)
  · next hfail =>
    split
    · exact gives_pure fun _ hcls => by rcases hcls with hcls | hcls <;> cases hcls
    · split
      · exact gives_repairRounds _ _ _ _ ⟨fun hcls => hfail (StepCls.judged.inj hcls), nofun⟩
      · exact gives_pure (Failed.sound ⟨fun hcls => hfail (StepCls.judged.inj hcls), nofun⟩)

/-- A reboot ends well if the machine comes back. -/
theorem gives_rebootStep (s : Step) : Gives (rebootStep s) fun s' =>
    s'.source = s.source ∧ ∀ command x, s'.ran = some (command, x) → x.Of command.toList := by
  refine sure_perform fun x _ hx => gives_after fun back => ?_
  split
  · refine gives_pure ⟨rfl, fun command x' hran => ?_⟩
    obtain ⟨x'', rfl, heq⟩ := Option.map_eq_some_iff.mp hran
    cases heq
    exact hx
  · exact trivial

/-- One step, whatever is done before. -/
theorem gives_followStep (done : List Step) (s : Step) (b : Budget) :
    Gives (followStep e done s b) fun r => Sound e.found r.1 := by
  unfold followStep
  refine gives_after fun late => ?_
  split
  · exact gives_pure fun _ hcls => by rcases hcls with hcls | hcls <;> cases hcls
  · refine gives_after fun source => ?_
    dsimp only
    split
    · next hkind => exact gives_after fun cls => gives_pure fun hrun => absurd hrun hkind
    · split
      · next hreboots =>
        refine (gives_rebootStep _).bind fun s' hs' => gives_pure fun _ _ => ⟨Or.inl ?_, hs'.2⟩
        rw [hs'.1]
        exact hreboots
      · split
        · exact gives_pure fun _ hcls => by rcases hcls with hcls | hcls <;> cases hcls
        · exact gives_runStep _ _

/-- **The steps of an answer, one after the other.** -/
theorem gives_followSteps (steps done : List Step) (b : Budget) (hdone : ∀ s ∈ done, Sound e.found s) :
    Gives (followSteps e done steps b) fun result => ∀ s ∈ result, Sound e.found s := by
  induction steps generalizing done b with
  | nil => exact gives_pure hdone
  | cons s steps ih =>
    refine (gives_followStep done s b).bind fun r hr => ih _ _ ?_
    exact List.forall_mem_append.mpr ⟨hdone, List.forall_mem_singleton.mpr hr⟩

/-! ### A lab that runs some scripts -/

/-- No pattern is found but that of a reboot. -/
def Found.plain : Found where
  letter := fun _ => false
  groups := fun _ _ => none
  aptTransient := fun _ => false
  missingParents := fun _ => []
  missingKey := fun _ => none
  missingDevice := fun _ => false
  notReady := fun _ => false
  risky := fun _ => false
  reboots := occurs "reboot"

def Setting.plain : Setting := ⟨.plain, fun _ => none, true, false⟩

def simple (cmd : String) (status : ℕ) : Ran := .simple cmd.toList status

/-- Some scripts, and how they run. -/
def scripts : List (String × Execution) :=
  [("grep x /f\ntrue", ⟨[simple "grep x /f" 1, simple "true" 0], ""⟩),
    ("umount /mnt", ⟨[simple "umount /mnt" 32], "umount: /mnt: not mounted."⟩),
    ("sudo -u postgres -H bash -lc 'cd ~ && false\ntrue'",
      ⟨[.nested "sudo -u postgres -H bash -lc 'cd ~ && false\ntrue'".toList 0
        [simple "cd ~ && false" 1, simple "true" 0]], ""⟩),
    ("cat /root/x\ntrue", ⟨[simple "cat /root/x" 1, simple "true" 0], "cat: /root/x: Permission denied"⟩),
    ("sudo bash -c 'cat /root/x\ntrue'",
      ⟨[.nested "sudo bash -c 'cat /root/x\ntrue'".toList 0 [simple "cat /root/x" 1, simple "true" 0]],
        "cat: /root/x: No such file or directory"⟩),
    ("ls 'echo \"__LABERR__'\ntrue", ⟨[simple "ls 'echo \"__LABERR__'" 2, simple "true" 0], ""⟩),
    ("false\nreboot", ⟨[simple "false" 1, simple "reboot" 0], ""⟩)]

theorem valid_simple {cmd : String} {status : ℕ} (h : inner? cmd.toList = none) : (simple cmd status).Valid :=
  .simple h

theorem valid_pair {a b : Ran} (ha : a.Valid) (hb : b.Valid) : ∀ r ∈ [a, b], r.Valid :=
  List.forall_mem_cons.mpr ⟨ha, List.forall_mem_singleton.mpr hb⟩

theorem of_scripts : ∀ p ∈ scripts, p.2.Of p.1.toList := by
  have htrue : ∀ status, (simple "true" status).Valid := fun _ => valid_simple (by decide)
  have hcat : (simple "cat /root/x" 1).Valid := valid_simple (by decide)
  refine List.forall_mem_cons.mpr ⟨⟨by decide, valid_pair ?_ (htrue 0)⟩, ?_⟩
  · exact valid_simple (by decide)
  refine List.forall_mem_cons.mpr ⟨⟨by decide, List.forall_mem_singleton.mpr ?_⟩, ?_⟩
  · exact valid_simple (by decide)
  refine List.forall_mem_cons.mpr ⟨⟨by decide, List.forall_mem_singleton.mpr ?_⟩, ?_⟩
  · have hfalse : (simple "cd ~ && false" 1).Valid := valid_simple (by decide)
    have hinner : inner? "sudo -u postgres -H bash -lc 'cd ~ && false\ntrue'".toList =
        some "cd ~ && false\ntrue".toList := by decide
    exact .nested hinner (by decide) (valid_pair hfalse (htrue 0))
  refine List.forall_mem_cons.mpr ⟨⟨by decide, valid_pair hcat (htrue 0)⟩, ?_⟩
  refine List.forall_mem_cons.mpr ⟨⟨by decide, List.forall_mem_singleton.mpr ?_⟩, ?_⟩
  · have hinner : inner? "sudo bash -c 'cat /root/x\ntrue'".toList = some "cat /root/x\ntrue".toList := by
      decide
    exact .nested hinner (by decide) (valid_pair hcat (htrue 0))
  refine List.forall_mem_cons.mpr ⟨⟨by decide, valid_pair ?_ (htrue 0)⟩, ?_⟩
  · exact valid_simple (by decide)
  refine List.forall_mem_singleton.mpr ⟨by decide, valid_pair ?_ ?_⟩
  · exact valid_simple (by decide)
  · exact valid_simple (by decide)

/-- A lab that runs these scripts, where no package is missing. -/
def answer (_ : Unit) (c : Cmd) : c.Ans × Unit :=
  match c with
  | .execStep command => ((scripts.lookup command).elim (.error .other) .ok, ())
  | .execReboot command => (scripts.lookup command, ())
  | .execPre _ => (.ok (), ())
  | .probe _ => (.ok (some 0), ())
  | .suggestPackage .. => (.ok none, ())
  | .modelFix .. => (.ok "", ())
  | .late => (false, ())
  | .resolve source => (.ok source, ())
  | .waitReboot => (.ok true, ())
  | .other .. => (.ok .skipped, ())

theorem mem_of_lookup {command : String} {x : Execution} (h : scripts.lookup command = some x) :
    (command, x) ∈ scripts := by
  obtain ⟨_, _, heq, -⟩ := List.lookup_eq_some_iff.mp h
  rw [heq]
  exact List.mem_append_right _ List.mem_cons_self

theorem exec_answer (u : Unit) (c : Cmd) : exec u c (answer u c).1 (answer u c).2 := by
  cases c with
  | execStep command =>
    unfold answer
    dsimp only
    cases h : scripts.lookup command with
    | none => exact trivial
    | some x => exact of_scripts _ (mem_of_lookup h)
  | execReboot command =>
    unfold answer
    dsimp only
    cases h : scripts.lookup command with
    | none => exact trivial
    | some x => exact of_scripts _ (mem_of_lookup h)
  | _ => exact trivial

/-! ### What is seen of failures, and what is not -/

/-- **What the last execution of a step that ends well runs itself is settled**: whatever the answer, with
or without account switches, and whatever was repaired, each command of its script exited with 0, or with
a benign status, or it is the `umount` of what is not mounted.  Left out are a reboot and commands with
the text of the trap. -/
theorem settled_of_ends (e : Setting) (steps result : List Step)
    (h : Ends exec () (followAnswer e steps) (.ok result) ()) :
    ∀ s ∈ result, s.kind = .run → s.cls = .judged .ok ∨ s.cls = .repaired → e.found.reboots s.source = false →
      ∃ command x, s.ran = some (command, x) ∧ x.Of command.toList ∧
        ∀ r ∈ x.rans, Unmarked r.cmd → Settled e.found.letter x.output r := by
  intro s hs hrun hcls hreboots
  have hgives : Gives (followAnswer e steps) fun result => ∀ s ∈ result, Sound e.found s :=
    gives_followSteps _ _ _ (List.forall_mem_nil _)
  have hsound := (Sure.result hgives h).1 result rfl s hs
  obtain hreboots' | ⟨command, x, hran, hof, hok⟩ := (hsound hrun hcls).1
  · cases hreboots.symm.trans hreboots'
  · exact ⟨command, x, hran, hof, settled_of_ok hok⟩

/-- A benign failure, a step that is repaired by running it as root, and one after a switch of account. -/
def mixed : List Step :=
  [.of .run "grep x /f\ntrue", .of .run "cat /root/x\ntrue", .of .run "sudo -iu postgres",
    .of .run "false\ntrue"]

/-- In such an answer, what each run step runs itself is settled. -/
theorem settled_of_ends_mixed : ∃ result, Ends exec () (followAnswer .plain mixed) (.ok result) () ∧
    result.map (·.cls) = [.judged .ok, .repaired, .skipped, .judged .ok] ∧
      ∀ s ∈ result, s.kind = .run → ∃ command x, s.ran = some (command, x) ∧ x.Of command.toList ∧
        ∀ r ∈ x.rans, Unmarked r.cmd → Settled (fun _ => false) x.output r := by
  have hends := Program.ends_follow exec_answer (followAnswer .plain mixed) ()
  have heval : (match (Program.follow answer (followAnswer .plain mixed) ()).1 with
    | .ok result => decide (result.map (·.cls) = [.judged .ok, .repaired, .skipped, .judged .ok] ∧
        ∀ s ∈ result, s.kind = .run → (s.cls = .judged .ok ∨ s.cls = .repaired) ∧
          Setting.plain.found.reboots s.source = false)
    | .error _ => false) = true := by with_unfolding_all decide
  generalize Program.follow answer (followAnswer .plain mixed) () = r at hends heval
  obtain ⟨r, ⟨⟩⟩ := r
  cases r with
  | error _ => cases heval
  | ok result =>
    obtain ⟨hclasses, hwell⟩ := of_decide_eq_true heval
    refine ⟨result, hends, hclasses, fun s hs hrun => ?_⟩
    obtain ⟨hcls, hreboots⟩ := hwell s hs hrun
    exact settled_of_ends .plain mixed result hends s hs hrun hcls hreboots

/-- A step that ends well though one of its commands failed, and with no benign status. -/
def Hidden (s : Step) : Prop :=
  s.kind = .run ∧ (s.cls = .judged .ok ∨ s.cls = .repaired) ∧ ∃ command x cmd status,
    s.ran = some (command, x) ∧ x.Of command.toList ∧ Leaf x.rans cmd status ∧ status ≠ 0 ∧
      benign (reported cmd) status = ""

def isFailure : Ran → Bool
  | .simple cmd status => status ≠ 0 ∧ benign (reported cmd) status = ""
  | .nested .. => false

/-- A failure of the script, or in a script of it. -/
def hasFailure (rans : List Ran) : Bool :=
  rans.any fun r => isFailure r ||
    match r with
    | .nested _ _ inner => inner.any isFailure
    | .simple .. => false

theorem leaf_of_isFailure {rans : List Ran} {r : Ran} (hr : r ∈ rans) (h : isFailure r = true) :
    ∃ cmd status, Leaf rans cmd status ∧ status ≠ 0 ∧ benign (reported cmd) status = "" := by
  cases r with
  | simple cmd status => exact ⟨cmd, status, .here hr, of_decide_eq_true h⟩
  | nested _ _ _ => cases h

theorem leaf_of_hasFailure {rans : List Ran} (h : hasFailure rans = true) :
    ∃ cmd status, Leaf rans cmd status ∧ status ≠ 0 ∧ benign (reported cmd) status = "" := by
  obtain ⟨r, hr, hfails⟩ := List.any_eq_true.mp h
  obtain hfails | hfails := Bool.or_eq_true_iff.mp hfails
  · exact leaf_of_isFailure hr hfails
  · cases r with
    | simple _ _ => cases hfails
    | nested cmd' status' inner =>
      obtain ⟨r', hr', hfails⟩ := List.any_eq_true.mp hfails
      obtain ⟨cmd, status, hleaf, hbad⟩ := leaf_of_isFailure hr' hfails
      exact ⟨cmd, status, .inside hr hleaf, hbad⟩

def endsWell (s : Step) : Bool := s.kind = .run ∧ (s.cls = .judged .ok ∨ s.cls = .repaired)

/-- Whether a step of an answer in this lab fails unseen. -/
def failsUnseen (steps : List Step) : Bool :=
  match (Program.follow answer (followAnswer .plain steps) ()).1 with
  | .ok result => result.any fun s => endsWell s && s.ran.any fun p => hasFailure p.2.rans
  | .error _ => false

theorem hidden_of_failsUnseen {steps : List Step} (h : failsUnseen steps = true) :
    ∃ result, Ends exec () (followAnswer .plain steps) (.ok result) () ∧ ∃ s ∈ result, Hidden s := by
  have hends := Program.ends_follow exec_answer (followAnswer .plain steps) ()
  unfold failsUnseen at h
  generalize (Program.follow answer (followAnswer .plain steps) ()).1 = r at h hends
  cases r with
  | error _ => cases h
  | ok result =>
    obtain ⟨s, hs, hboth⟩ := List.any_eq_true.mp h
    obtain ⟨hwell, hfails⟩ := Bool.and_eq_true_iff.mp hboth
    obtain ⟨hrun, hcls⟩ := of_decide_eq_true hwell
    obtain ⟨⟨command, x⟩, hran, hfailure⟩ := (Option.any_eq_true ..).mp hfails
    obtain ⟨cmd, status, hleaf, hbad⟩ := leaf_of_hasFailure hfailure
    have hgives : Gives (followAnswer .plain steps) fun result => ∀ s ∈ result, Sound Setting.plain.found s :=
      gives_followSteps _ _ _ (List.forall_mem_nil _)
    have hsound := (Sure.result hgives hends).1 result rfl s hs
    exact ⟨result, hends, s, hs, hrun, hcls, command, x, cmd, status, hran, (hsound hrun hcls).2 command x hran,
      hleaf, hbad⟩

/-- **Failures that are hidden**: the `umount` of what is not mounted; a command before the last one after a
switch of account, and in a step that is repaired by running it as root; a command with the text of the
trap; and one before a reboot. -/
theorem hidden_failures :
    [[Step.of .run "umount /mnt"],
      [Step.of .run "sudo -iu postgres", Step.of .run "false\ntrue"],
      [Step.of .run "cat /root/x\ntrue"],
      [Step.of .run "ls 'echo \"__LABERR__'\ntrue"],
      [Step.of .run "false\nreboot"]].Forall fun steps =>
        ∃ result, Ends exec () (followAnswer .plain steps) (.ok result) () ∧ ∃ s ∈ result, Hidden s := by
  rw [List.forall_iff_forall_mem]
  intro steps hsteps
  refine hidden_of_failsUnseen ?_
  revert steps
  with_unfolding_all decide

end RunStep
end CloudCore
