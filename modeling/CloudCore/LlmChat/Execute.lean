import CloudCore.Capture.Reverify
import CloudCore.Effect.Pool
import CloudCore.Effect.Sequential
import CloudCore.Python.Text

/-!
# Executing what the model wrote

`run_sandboxed`, `run_sandboxed_interactive`, `run_in_microvm`, `execute`, `extract_code` and
`verify_and_maybe_fix` of `verify_proxy.py`, and what `_handle_sandbox_reverify` sends to
`process_pending` of `llm_client_capture.py`.  What an execution meets on its way to the first
instruction of the program is in the answers to its commands; whether it got there is in the
state, where no code reads it.

## Main definitions

* `execute` — one execution, on the host or in a machine of its own.
* `verifyAndMaybeFix` — an execution, and the rounds in which the model corrects its program.
* `State` — which executions came to the program, and what the model was told about.
* `Honest`, `Unrecorded` — what is promised.
* `Lets` — the answers with which an execution comes to the program.

## Main results

* `honest_of_ends` — **the promises are kept in every run in which every execution that is
  answered for comes to the program.**
* `not_passed_of_untried` — one that does not come there is always taken for a failure.
* `busy_reported` — a queue that stays full, reported as a program that failed.
-/

namespace CloudCore
namespace Execute

open Effect Python
open Effect.Program (attempt Ends Sure sure_perform sure_attempt)

/-! ### The languages -/

/-- The languages that run in a machine of their own. -/
inductive Guest where
  | bash
  | javascript
  | c
  | cpp
  | go
  deriving DecidableEq

inductive Language where
  | python
  | guest (g : Guest)
  deriving DecidableEq

/-- What `LANGUAGES` says of a language that runs in a machine. -/
structure Spec where
  file : String
  compile : Option String
  run : String

def Guest.spec : Guest → Spec
  | .bash => ⟨"main.sh", none, "bash main.sh"⟩
  | .javascript => ⟨"main.js", none, "node main.js"⟩
  | .c => ⟨"main.c", some "gcc -O0 -Wall -o main main.c -lm", "./main"⟩
  | .cpp => ⟨"main.cpp", some "g++ -O0 -Wall -std=c++17 -o main main.cpp", "./main"⟩
  | .go => ⟨"main.go", some "go build -o main main.go", "./main"⟩

def Language.fence : Language → String
  | .python => "python"
  | .guest .bash => "bash"
  | .guest .javascript => "javascript"
  | .guest .c => "c"
  | .guest .cpp => "cpp"
  | .guest .go => "go"

def langByAlias : List (String × Language) :=
  [("python", .python), ("py", .python), ("python3", .python), ("bash", .guest .bash),
    ("sh", .guest .bash), ("shell", .guest .bash), ("javascript", .guest .javascript),
    ("js", .guest .javascript), ("node", .guest .javascript), ("nodejs", .guest .javascript),
    ("c", .guest .c), ("cpp", .guest .cpp), ("c++", .guest .cpp), ("cxx", .guest .cpp),
    ("cc", .guest .cpp), ("go", .guest .go), ("golang", .guest .go)]

/-! ### The code in a reply -/

def fence : List Char := "```".toList

/-- The text before the next fence, and what comes after the fence. -/
def upToFence (l : List Char) : Option (List Char × List Char) :=
  if fence.isPrefixOf l then some ([], l.drop fence.length)
  else
    match l with
    | [] => none
    | c :: l => (upToFence l).map fun e => (c :: e.1, e.2)

def isTag (c : Char) : Bool := c.isAlphanum || "_+#.-".toList.contains c

/-- `CODE_BLOCK_RE` at the start of a text: the tag, the code and what comes after. -/
def blockAt (l : List Char) : Option (String × String × List Char) :=
  if fence.isPrefixOf l then
    let l := l.drop fence.length
    match (l.dropWhile isTag).dropWhile (" \t".toList.contains ·) with
    | '\n' :: body => (upToFence body).map fun e =>
        (String.ofList (l.takeWhile isTag), String.ofList e.1, e.2)
    | _ => none
  else none

/-- `CODE_BLOCK_RE.findall`, after `skip` more characters. -/
def codeBlocks : List Char → ℕ → List (String × String)
  | [], _ => []
  | _ :: l, skip + 1 => codeBlocks l skip
  | c :: l, 0 =>
    match blockAt (c :: l) with
    | none => codeBlocks l 0
    | some (tag, code, rest) => (tag, code) :: codeBlocks l (l.length - rest.length)

/-- `h in code`. -/
def occurs (h code : String) : Bool := code.toList.tails.any h.toList.isPrefixOf

def pyHints : List String := ["def ", "import ", "print(", "class ", "for ", "if __name__"]

def extractCode (text : String) (defaultLanguage : Language) : Option (Language × String) :=
  (codeBlocks text.toList 0).findSome? fun e =>
    match langByAlias.lookup e.1.toLower with
    | some lang => some (lang, e.2)
    | none =>
      if e.1 ≠ "" then none
      else if defaultLanguage ≠ .python then some (defaultLanguage, e.2)
      else if pyHints.any (occurs · e.2) then some (.python, e.2)
      else none

/-! ### Results -/

inductive Phase where
  | compile
  | run
  deriving DecidableEq

structure Result where
  transcript : String
  stdout : String
  stderr : String
  exitCode : Option ℤ
  timedOut : Bool
  interrupted : Bool
  exchanges : ℕ
  phase : Phase
  language : Language
  deriving DecidableEq

def emptyRunResult (language : Language) : Result :=
  ⟨"", "", "", none, false, false, 0, .run, language⟩

/-- `not timed_out and exit_code == 0`. -/
def Result.passed (r : Result) : Bool := !r.timedOut && r.exitCode == some 0

/-- What is set in the environment, and Python's `repr` of a text. -/
structure Settings where
  verifyTimeoutS : ℤ
  verifyMaxFixRounds : ℤ
  runVmMemMib : ℤ
  runVmMemMibGo : ℤ
  runVmMinHostMemMb : ℤ
  runCompileTimeoutS : ℤ
  runQueueWaitS : ℤ
  repr : String → String

def maxOutputChars : ℕ := 8000

def runOutputHardCap : ℕ := maxOutputChars * 4

def interactiveMaxExchanges : ℕ := 3

def interactiveMaxWallS : ℤ := 1800

/-- `text[:MAX_OUTPUT_CHARS]`. -/
def clip (text : String) : String := String.ofList (text.toList.take maxOutputChars)

/-! ### Commands -/

inductive Failure where
  /-- A `BootError`. -/
  | boot (text : String)
  /-- An `OSError`. -/
  | os (text : String)
  | other (text : String)
  deriving DecidableEq

/-- What becomes of a command in the guest. -/
inductive Fate where
  | exited (status : ℤ)
  | signalled
  /-- It did not end in time. -/
  | overtime
  /-- The shell could not run it. -/
  | refused (status : ℤ)
  /-- The connection broke before it had a status. -/
  | lost
  deriving DecidableEq

/-- What `_ssh_exec` takes for its status. -/
def Fate.status : Fate → ℤ
  | .exited status | .refused status => status
  | .signalled | .overtime | .lost => -1

/-- What becomes of the command that starts the program.  Neither the host nor `run_in_microvm`
is told. -/
inductive Started where
  | runs
  /-- The limits or the namespace cannot be had. -/
  | refused
  | lost
  deriving DecidableEq

/-- Whether the program waits for input, as `_stdin_wait_state` or the guest's own check says. -/
inductive WaitState where
  | waiting
  | busy
  | unknown
  deriving DecidableEq

/-- What one round of the loop around a running program sees. -/
inductive Round where
  | interrupted
  | output (out err : List String)
  | exited
  /-- The program is quiet; `quiet` is whether it has been for `INTERACTIVE_QUIET_S`. -/
  | silent (state : WaitState) (quiet : Bool)
  | broken (e : Failure)

/-- What is left of a program that is watched no longer, and its status if it has one. -/
structure Conclusion where
  out : List String
  err : List String
  status : Option ℤ

/-- What `communicate` returns, and whether it had to kill the program before. -/
structure Communicated where
  out : String
  err : String
  returncode : ℤ
  timedOut : Bool

inductive Cmd where
  /-- `_run_queue.acquire`; whether there is a sandbox. -/
  | acquire
  /-- Whether there is an interrupt and it is set. -/
  | isSet
  /-- `_mem_available_mb()`, before a machine of this size is made. -/
  | memAvailableMb (memMib : ℤ)
  /-- `MicroVM(...)`. -/
  | microVM (memMib : ℤ)
  /-- `vm.boot()` and `vm.ssh_client()`. -/
  | boot
  /-- The directory and the file. -/
  | upload (file code : String)
  /-- `_ssh_exec` of the compiler, with its output. -/
  | compile (cmd : String) (timeout : ℤ)
  /-- The script's directory and file, on the host. -/
  | script (code : String)
  /-- `exec_command` of the program in the guest, or `Popen` of the script. -/
  | start (cmd : Option String) (interactive : Bool)
  | communicate (timeout : ℤ)
  /-- The rounds of the loop, up to the wall-clock limit. -/
  | watch (wallLimit : ℤ)
  | provideInput (transcript : String)
  /-- A line to the program; whether it arrived. -/
  | send (line : String)
  | conclude
  /-- `vm.teardown()`, if there is a machine. -/
  | teardown
  /-- `_run_queue.release`. -/
  | release
  /-- `_call_llama_direct` of a prompt that asks for a correction. -/
  | askFix (prompt : String)

/-- What the code learns. -/
@[reducible] def Cmd.Ans : Cmd → Type
  | .acquire | .isSet | .send _ => Bool
  | .memAvailableMb _ => Except Failure ℤ
  | .microVM _ | .boot | .upload .. | .script _ | .teardown => Except Failure Unit
  | .compile .. => Except Failure (Fate × String × String)
  | .start .. => Except Failure Started
  | .communicate _ => Communicated
  | .watch _ => List Round
  | .provideInput _ => Option String
  | .conclude => Conclusion
  | .release => Unit
  | .askFix _ => Except Failure String

abbrev sig : Signature := ⟨Cmd, Cmd.Ans⟩

abbrev Code (α : Type) := Program sig Failure α

/-! ### The loop around a running program -/

/-- What the loop collects. -/
structure Session where
  stdout : List String
  stderr : List String
  transcript : List String
  exchanges : ℕ
  timedOut : Bool
  interrupted : Bool

def Session.empty : Session := ⟨[], [], [], 0, false, false⟩

def Session.hear (se : Session) (out err : List String) : Session :=
  { se with
    stdout := se.stdout ++ out
    stderr := se.stderr ++ err
    transcript := se.transcript ++ out ++ err }

def Session.note (se : Session) (text : String) : Session :=
  { se with transcript := se.transcript ++ [text] }

def Session.total (se : Session) : ℕ := (((se.stdout ++ se.stderr).map (·.length))).sum

def joined (l : List String) : String := "".intercalate l

inductive Detection where
  | exact
  | heuristic

def Detection.text : Detection → String
  | .exact => "exact"
  | .heuristic => "heuristic"

/-- Whether the program is taken to wait for input. -/
def detection : WaitState → Bool → Option Detection
  | .waiting, _ => some .exact
  | .unknown, true => some .heuristic
  | .unknown, false | .busy, _ => none

/-- One line of input, if the provider has one and there are not too many already; whether the
loop goes on. -/
def exchange (cfg : Settings) (d : Detection) (se : Session) : Code (Session × Bool) :=
  if interactiveMaxExchanges ≤ se.exchanges then pure ({ se with timedOut := true }, false)
  else do
    let value : Option String ←
      Program.perform (F := sig) (.provideInput (joined se.transcript))
    match value with
    | none => pure (se, false)
    | some value => do
      let sent : Bool ← Program.perform (F := sig) (.send (value ++ "\n"))
      pure ({ se with exchanges := se.exchanges + 1 }.note
        s!"\n>>> INPUT PROVIDED ({d.text}): {cfg.repr value}\n", sent)

/-- The loop.  `cap` limits the output; where the rounds end, the wall-clock limit is reached. -/
def follow (cfg : Settings) (interactive : Bool) (cap : Option ℕ) :
    List Round → Session → Code Session
  | [], se => pure { se with timedOut := true }
  | .interrupted :: _, se => pure { se with interrupted := true }
  | .exited :: _, se => pure se
  | .broken e :: _, _ => throw e
  | .output out err :: rounds, se =>
    if cap.any (· < (se.hear out err).total) then
      pure ((se.hear out err).note "\n[Output limit reached -- program stopped]\n")
    else follow cfg interactive cap rounds (se.hear out err)
  | .silent state quiet :: rounds, se =>
    match if interactive then detection state quiet else none with
    | none => follow cfg interactive cap rounds se
    | some d => do
      let r ← exchange cfg d se
      if r.2 then follow cfg interactive cap rounds r.1 else pure r.1

def budgetSpent : String :=
  s!"\n[Interactive session ended: exceeded its {interactiveMaxExchanges}-exchange / {interactiveMaxWallS}s budget]\n"

/-- The result of a session whose program has `status`. -/
def Session.result (se : Session) (status : Option ℤ) (language : Language) : Result where
  transcript := clip (joined se.transcript)
  stdout := clip (joined se.stdout)
  stderr := clip (joined se.stderr)
  exitCode := status
  timedOut := se.timedOut
  interrupted := se.interrupted
  exchanges := se.exchanges
  phase := .run
  language := language

/-! ### On the host -/

/-- `run_sandboxed`, with the fields that `execute` adds. -/
def runSandboxed (cfg : Settings) (code : String) : Code Result := do
  let () ← attempt (F := sig) (.script code) rfl
  let _ : Started ← attempt (F := sig) (.start none false) rfl
  let r : Communicated ← Program.perform (F := sig) (.communicate (cfg.verifyTimeoutS + 5))
  let stderr := if r.timedOut then r.err ++ s!"\n[Execution killed: exceeded {cfg.verifyTimeoutS}s]"
    else r.err
  pure { emptyRunResult .python with
    transcript := clip r.out ++ clip stderr
    stdout := clip r.out
    stderr := clip stderr
    exitCode := some r.returncode
    timedOut := r.timedOut }

/-- `run_sandboxed_interactive`, likewise. -/
def runSandboxedInteractive (cfg : Settings) (code : String) : Code Result := do
  let () ← attempt (F := sig) (.script code) rfl
  let _ : Started ← attempt (F := sig) (.start none true) rfl
  let rounds : List Round ← Program.perform (F := sig) (.watch interactiveMaxWallS)
  let se ← follow cfg true none rounds .empty
  let c : Conclusion ← Program.perform (F := sig) .conclude
  let se := se.hear c.out c.err
  let se := if se.interrupted then se.note "\n[Interactive session stopped by the student]\n"
    else if se.timedOut then se.note budgetSpent
    else se
  pure (se.result c.status .python)

/-! ### In a machine -/

/-- The command that runs the program under its limits. -/
def runCommand (cfg : Settings) (spec : Spec) : String :=
  "cd /home/student/run && ulimit -S -t " ++ toString cfg.verifyTimeoutS ++ " && ulimit -H -t " ++
  toString (cfg.verifyTimeoutS + 1) ++ " && ulimit -u 128 -f 10240 && echo $$ > " ++
  "/home/student/run/.pid || \x7b echo '[sandbox limits could not be applied -- not run]' >&2; " ++
  "exit 125; \x7d; " ++ spec.run ++ "; rc=$?; if [ $rc -gt 128 ]; then sig=$(kill -l $((rc-128))); " ++
  "msg=\"[program killed by signal SIG$sig\"; [ \"$sig\" = XCPU ] && msg=\"$msg: exceeded the " ++
  toString cfg.verifyTimeoutS ++ "s CPU-time limit\"; echo \"$msg]\" >&2; fi; exit $rc"

/-- From `exec_command` of the program to the result. -/
def runProgram (cfg : Settings) (g : Guest) (interactive : Bool) : Code Result := do
  let _ : Started ← attempt (F := sig) (.start (some (runCommand cfg g.spec)) interactive) rfl
  let rounds : List Round ← Program.perform (F := sig)
    (.watch (if interactive then interactiveMaxWallS else cfg.verifyTimeoutS + 5))
  let se ← follow cfg interactive (some runOutputHardCap) rounds .empty
  let c : Conclusion ← Program.perform (F := sig) .conclude
  let se := if c.status.isSome then se.hear c.out c.err else se
  let msg := if interactive then budgetSpent
    else s!"\n[Execution killed: exceeded {cfg.verifyTimeoutS}s]\n"
  let se := if se.interrupted then se.note "\n[Stopped at your request]\n"
    else if se.timedOut then { se.note msg with stderr := se.stderr ++ [msg] }
    else se
  pure (se.result c.status (.guest g))

/-- The result of a compiler that did not return `0`. -/
def compileFailure (cfg : Settings) (g : Guest) (fate : Fate) (out err : String) : Result :=
  let text := strip (out ++ err)
  let text := if fate = .overtime then
      text ++ s!"\n[Compilation killed: exceeded {cfg.runCompileTimeoutS}s]"
    else text
  { emptyRunResult (.guest g) with
    phase := .compile
    exitCode := some fate.status
    timedOut := fate = .overtime
    stderr := clip text
    transcript := clip text }

/-- In a machine that is up. -/
def compileAndRun (cfg : Settings) (g : Guest) (code : String) (interactive : Bool) :
    Code Result := do
  let () ← attempt (F := sig) (.upload g.spec.file code) rfl
  match g.spec.compile with
  | none => runProgram cfg g interactive
  | some compiler => do
    let r : Fate × String × String ← attempt (F := sig)
      (.compile ("cd /home/student/run && " ++ compiler) cfg.runCompileTimeoutS) rfl
    if r.1.status ≠ 0 then pure (compileFailure cfg g r.1 r.2.1 r.2.2)
    else runProgram cfg g interactive

/-- `vm.boot()` and `vm.ssh_client()`: the text of the exception that is caught, if any. -/
def bootVm : Code (Option String) :=
  tryCatch
    (do
      let () ← attempt (F := sig) .boot rfl
      pure none)
    fun e =>
      match e with
      | .boot text | .os text => pure (some text)
      | .other _ => throw e

def Settings.memMib (cfg : Settings) (g : Guest) : ℤ :=
  if g = .go then cfg.runVmMemMibGo else cfg.runVmMemMib

/-- In a sandbox that is free. -/
def inSandbox (cfg : Settings) (g : Guest) (code : String) (interactive : Bool) : Code Result := do
  let avail : ℤ ← attempt (F := sig) (.memAvailableMb (cfg.memMib g)) rfl
  if avail < cfg.runVmMinHostMemMb + cfg.memMib g then
    pure { emptyRunResult (.guest g) with
      stderr := s!"[Not started: the coordinator is under memory pressure ({avail}MB available, {cfg.runVmMinHostMemMb + cfg.memMib g}MB needed). Try again once the current answer finishes.]" }
  else do
    let () ← attempt (F := sig) (.microVM (cfg.memMib g)) rfl
    let failed ← bootVm
    match failed with
    | some text => pure { emptyRunResult (.guest g) with stderr := s!"[Sandbox failed to start: {text}]" }
    | none => compileAndRun cfg g code interactive

/-- The `finally` of `run_in_microvm`. -/
def cleanUp : Code Unit := do
  let () ← attempt (F := sig) .teardown rfl
  Program.perform (F := sig) .release

def runInMicrovm (cfg : Settings) (g : Guest) (code : String) (interactive : Bool) : Code Result := do
  let acquired : Bool ← Program.perform (F := sig) .acquire
  if acquired then (inSandbox cfg g code interactive).tryFinally cleanUp
  else do
    let interrupted : Bool ← Program.perform (F := sig) .isSet
    pure { emptyRunResult (.guest g) with
      interrupted := interrupted
      stderr := if interrupted then "[Stopped while waiting for a free sandbox]"
        else s!"[Every sandbox stayed busy for {cfg.runQueueWaitS}s -- try again shortly]" }

/-- `execute`; `interactive` is whether there is a provider of input. -/
def execute (cfg : Settings) (language : Language) (code : String) (interactive : Bool) :
    Code Result :=
  match language with
  | .python => if interactive then runSandboxedInteractive cfg code else runSandboxed cfg code
  | .guest g => runInMicrovm cfg g code interactive

/-! ### The rounds of correction -/

/-- The columns of the learning corpus. -/
structure Capture where
  language : Language
  generatedCode : String
  execStdout : String
  execStderr : String
  execExitCode : Option ℤ
  passed : Bool
  fixExplanation : Option String
  fixedCode : Option String
  fixExecStdout : Option String
  fixExecStderr : Option String
  fixPassed : Option Bool
  deriving DecidableEq

def Capture.first (language : Language) (code : String) (r : Result) : Capture where
  language := language
  generatedCode := code
  execStdout := r.stdout
  execStderr := r.stderr
  execExitCode := r.exitCode
  passed := r.passed
  fixExplanation := none
  fixedCode := none
  fixExecStdout := none
  fixExecStderr := none
  fixPassed := none

def Capture.fix (c : Capture) (code : String) (r : Result) : Capture :=
  { c with
    fixedCode := some code
    fixExecStdout := some r.stdout
    fixExecStderr := some r.stderr
    fixPassed := some r.passed }

def fixPrompt (language : Language) (r : Result) : String :=
  let what := match r.phase with
    | .compile => "failed to compile with the following real compiler output"
    | .run => "was executed and failed with the following real output"
  let shown := if r.stderr ≠ "" then r.stderr else if r.transcript ≠ "" then r.transcript else r.stdout
  "This code " ++ what ++ ":\n\n```\n" ++ strip shown ++ "\n```\n\nExplain exactly what is wrong, " ++
  "quoting the failing line, then provide a corrected version of the complete program in a single " ++
  "fenced ```" ++ language.fence ++ " block."

/-- What the model answers; `none` if it could not be asked. -/
def askFix (prompt : String) : Code (Option String) :=
  tryCatch
    (do
      let text : String ← attempt (F := sig) (.askFix prompt) rfl
      pure (some text))
    fun _ => pure none

/-- The rounds that are left, after `r`. -/
def fixRounds (cfg : Settings) : ℕ → Language → Result → Capture → Code Capture
  | 0, _, _, capture => pure capture
  | rounds + 1, language, r, capture => do
    let stopped : Bool ← Program.perform (F := sig) .isSet
    if stopped then pure capture
    else do
      let reply ← askFix (fixPrompt language r)
      match reply with
      | none => pure capture
      | some text =>
        let capture := { capture with fixExplanation := some text }
        match extractCode text language with
        | none => pure capture
        | some (language, code) =>
          if code = "" then pure capture
          else do
            let r ← execute cfg language code true
            if r.passed then pure (capture.fix code r)
            else fixRounds cfg rounds language r (capture.fix code r)

def verifyAndMaybeFix (cfg : Settings) (language : Language) (code : String) : Code Capture := do
  let r ← execute cfg language code true
  let capture := Capture.first language code r
  if capture.passed = true ∨ cfg.verifyMaxFixRounds ≤ 0 then pure capture
  else fixRounds cfg cfg.verifyMaxFixRounds.toNat language r capture

/-! ### The answer to a submission -/

/-- The result as `_handle_sandbox_reverify` sends it. -/
def Result.toJson (r : Result) : Json :=
  .obj
    [("transcript", .str r.transcript), ("stdout", .str r.stdout), ("stderr", .str r.stderr),
      ("exit_code", (r.exitCode.map Json.int).getD .null), ("timed_out", .bool r.timedOut),
      ("interrupted", .bool r.interrupted), ("exchanges", .int r.exchanges),
      ("phase", .str (match r.phase with | .compile => "compile" | .run => "run")),
      ("language", .str r.language.fence)]

/-- What `_reverify` makes of the end of an execution.  Where it raises, the connection is closed
without an answer. -/
def replyOf : Except Failure Result → Reverify.Reply
  | .ok r => .answered r.toJson
  | .error _ => .failed "Remote end closed connection without response"

/-! ### What commands do -/

/-- The executions, the last one first: whether it came to the program, or to a compiler that
rejected it.  And whether the last one had when the model was asked. -/
structure State where
  tried : List Bool
  asked : List Bool
  deriving DecidableEq

def State.init : State := ⟨[], []⟩

/-- An execution begins. -/
def State.enter (s : State) : State := { s with tried := false :: s.tried }

/-- It comes to the program, if `b`. -/
def State.reach (b : Bool) (s : State) : State :=
  match b, s.tried with
  | true, _ :: l => { s with tried := true :: l }
  | _, _ => s

/-- The program has run, as far as one execution is concerned. -/
def State.ran (s : State) : Prop := s.tried.head? = some true

instance (s : State) : Decidable s.ran := inferInstanceAs (Decidable (_ = _))

/-- The compiler has judged the program and rejected it.  One that was killed has not: by its time
limit, by a signal to it or to the shell, which then says so with a status from 128 on. -/
def Fate.rejected : Fate → Bool
  | .exited status => status != 0 && status < 126
  | .signalled | .overtime | .refused _ | .lost => false

theorem Fate.not_rejected_of_status : ∀ f : Fate, f.status = 0 → f.rejected = false
  | .exited _, h => Bool.and_eq_false_iff.mpr (.inl (bne_eq_false_iff_eq.mpr h))
  | .signalled, _ | .overtime, _ | .refused _, _ | .lost, _ => rfl

/-- A compiler that had a say has rejected the program if the status is not `0`. -/
theorem Fate.rejected_of_status {f : Fate} (h : f.status ≠ 0) (hexited : ∃ n < 126, f = .exited n) :
    f.rejected = true := by
  obtain ⟨n, hn, rfl⟩ := hexited
  exact Bool.and_eq_true_iff.mpr ⟨bne_iff_ne.mpr h, decide_eq_true hn⟩

def exec (s : State) : (c : Cmd) → c.Ans → State → Prop
  | .acquire, _, s' => s' = s.enter
  | .script _, _, s' => s' = s.enter
  | .compile .., a, s' => s' = s.reach (a.toOption.any fun r => r.1.rejected)
  | .start .., a, s' => s' = s.reach (a.toOption.any (· == .runs))
  | .communicate _, a, s' => (a.returncode = 0 → s.ran) ∧ s' = s
  | .conclude, a, s' => (a.status = some 0 → s.ran) ∧ s' = s
  | .askFix _, _, s' => s' = { s with asked := decide s.ran :: s.asked }
  | .isSet, _, s' | .memAvailableMb _, _, s' | .microVM _, _, s' | .boot, _, s' | .upload .., _, s'
  | .watch _, _, s' | .provideInput _, _, s' | .send _, _, s' | .teardown, _, s'
  | .release, _, s' => s' = s

/-! ### The promise -/

/-- What is in the capture is what an execution of the program showed. -/
structure Shown (c : Capture) (s : State) : Prop where
  first : c.passed = false → s.tried.getLast? = some true
  fix : c.fixPassed = some false → s.ran

/-- The model was told only of programs that had run. -/
def ToldTruly (s : State) : Prop := ∀ b ∈ s.asked, b = true

/-- What is promised of `verify_and_maybe_fix`. -/
def Honest (r : Except Failure Capture) (s : State) : Prop :=
  ToldTruly s ∧ ∀ c, r = .ok c → Shown c s

/-- A command of the API that records no example. -/
def NoExample : Reverify.Cmd → Prop
  | .record .. => False
  | _ => True

/-- What is promised of `execute` for a submission: a program that did not run is no example. -/
def Unrecorded (r : Except Failure Result) (s : State) : Prop :=
  ¬s.ran → ∀ sub, (Reverify.handleReply sub (replyOf r)).Confined NoExample fun _ => True

/-- An answer with which an execution comes to the program, or is not answered for. -/
def Lets (cfg : Settings) : (c : Cmd) → c.Ans → Prop
  | .acquire, a => a = true
  | .memAvailableMb memMib, a => ∀ n, a = .ok n → cfg.runVmMinHostMemMb + memMib ≤ n
  | .boot, a => ∀ e, a = .error e → ∃ text, e = .other text
  | .compile .., a => ∀ fate texts, a = .ok (fate, texts) → ∃ n < 126, fate = .exited n
  | .start .., a => ∀ b, a = .ok b → b = .runs
  | _, _ => True

/-- What commands do where they let an execution come to the program. -/
def Sem (cfg : Settings) (s : State) (c : Cmd) (a : c.Ans) (s' : State) : Prop :=
  exec s c a s' ∧ Lets cfg c a

/-! ### One execution -/

section Run

variable {cfg : Settings} {careful : Prop} {s₀ s s' : State} {b : Bool}

/-- What commands do; `careful` is whether they let an execution come to the program. -/
def Under (cfg : Settings) (careful : Prop) (s : State) (c : Cmd) (a : c.Ans) (s' : State) : Prop :=
  exec s c a s' ∧ (careful → Lets cfg c a)

/-- During an execution that began in `s₀`. -/
def State.within (s₀ : State) (b : Bool) : State := ⟨b :: s₀.tried, s₀.asked⟩

theorem reach_within : (s₀.within false).reach b = s₀.within b := by
  cases b <;> rfl

theorem ran_within : (s₀.within b).ran ↔ b = true := by
  rw [State.ran, State.within, List.head?_cons, Option.some_inj]

/-- The execution that began in `s₀` has the result `r`. -/
def Over (careful : Prop) (s₀ : State) (r : Result) (s : State) : Prop :=
  ∃ b, s = s₀.within b ∧ (careful → b = true) ∧ (b = false → r.passed = false)

/-- Wherever an execution is cut off, the model has been asked nothing. -/
def Unasked (s₀ : State) (_ : Failure) (s : State) : Prop := s.asked = s₀.asked

abbrev Executes (cfg : Settings) (careful : Prop) (p : Code Result) (s₀ s : State) : Prop :=
  Sure (Under cfg careful) p (Over careful s₀) (Unasked s₀) s

theorem not_passed {r : Result} (h : r.exitCode ≠ some 0) : r.passed = false := by
  rw [Result.passed, beq_eq_false_iff_ne.mpr h, Bool.and_false]

/-- A result that is returned before the program is started. -/
theorem executes_pure {r : Result} (hc : ¬careful) (hr : r.exitCode ≠ some 0) :
    Executes cfg careful (.ret r) s₀ (s₀.within false) :=
  ⟨false, rfl, fun h => absurd h hc, fun _ => not_passed hr⟩

/-- The loop provides input and sends it. -/
def Talks : Cmd → Prop
  | .provideInput _ | .send _ => True
  | _ => False

theorem confined_exchange {d : Detection} {se : Session} :
    (exchange cfg d se).Confined Talks fun _ => True := by
  unfold exchange
  split
  · trivial
  · refine ⟨trivial, fun value => ?_⟩
    cases value with
    | none => trivial
    | some value => exact ⟨trivial, fun _ => trivial⟩

theorem confined_follow {interactive : Bool} {cap : Option ℕ} {rounds : List Round} {se : Session} :
    (follow cfg interactive cap rounds se).Confined Talks fun _ => True := by
  induction rounds generalizing se with
  | nil => trivial
  | cons round rounds ih =>
    cases round with
    | interrupted | exited | broken e => trivial
    | output out err =>
      rw [follow]
      split
      · trivial
      · exact ih
    | silent state quiet =>
      rw [follow]
      split
      · exact ih
      · refine Program.confined_bind confined_exchange fun r _ => ?_
        split
        · exact ih
        · trivial

/-- A program that has been started is watched, and its status taken. -/
theorem executes_watched {wallLimit : ℤ} {interactive : Bool} {cap : Option ℕ}
    {f : Session → Conclusion → Result} (hf : ∀ se c, (f se c).exitCode = c.status)
    (hb : careful → b = true) :
    Executes cfg careful
      (do
        let rounds : List Round ← Program.perform (F := sig) (.watch wallLimit)
        let se ← follow cfg interactive cap rounds .empty
        let c : Conclusion ← Program.perform (F := sig) .conclude
        pure (f se c)) s₀ (s₀.within b) := by
  refine sure_perform fun rounds s' hx => ?_
  obtain rfl : s' = s₀.within b := hx.1
  refine Sure.bind (P := fun _ s => s = s₀.within b)
    (Program.wp_confined confined_follow ?_ (fun _ _ => rfl) (fun _ => rfl)) ?_
  · intro s c a s' hc hx
    cases c with
    | provideInput _ | send _ => exact ⟨hx.1, trivial⟩
    | _ => exact hc.elim
  · rintro se _ rfl
    refine sure_perform fun c s' hx => ?_
    obtain ⟨⟨hstatus, rfl⟩, -⟩ := hx
    refine ⟨b, rfl, hb, fun hfalse => not_passed ?_⟩
    rw [hf]
    exact fun h => Bool.false_ne_true (hfalse ▸ ran_within.mp (hstatus h))

/-- What comes after the start of a program. -/
theorem executes_start {cmd : Option String} {interactive : Bool} {k : Started → Code Result}
    (h : ∀ a b, (careful → b = true) → Executes cfg careful (k a) s₀ (s₀.within b)) :
    Executes cfg careful (attempt (F := sig) (.start cmd interactive) rfl >>= k) s₀
      (s₀.within false) := by
  refine sure_attempt rfl fun a s' hx => ?_
  obtain ⟨rfl, hlets⟩ := hx
  rw [reach_within]
  cases a with
  | error e => rfl
  | ok a => exact h a _ fun hc => beq_iff_eq.mpr (hlets hc a rfl)

theorem executes_script {code : String} {k : Unit → Code Result}
    (h : Executes cfg careful (k ()) s₀ (s₀.within false)) :
    Executes cfg careful (attempt (F := sig) (.script code) rfl >>= k) s₀ s₀ := by
  refine sure_attempt rfl fun a s' hx => ?_
  obtain ⟨rfl, -⟩ := hx
  cases a with
  | error e => rfl
  | ok a => exact h

theorem executes_runSandboxedInteractive {code : String} :
    Executes cfg careful (runSandboxedInteractive cfg code) s₀ s₀ :=
  executes_script (executes_start fun _ _ => executes_watched fun _ _ => rfl)

theorem executes_runSandboxed {code : String} :
    Executes cfg careful (runSandboxed cfg code) s₀ s₀ := by
  refine executes_script (executes_start fun _ b hb => sure_perform fun r s' hx => ?_)
  obtain ⟨⟨hstatus, rfl⟩, -⟩ := hx
  refine ⟨b, rfl, hb, fun hfalse => not_passed fun h => ?_⟩
  exact Bool.false_ne_true (hfalse ▸ ran_within.mp (hstatus (Option.some_inj.mp h)))

theorem executes_runProgram {g : Guest} {interactive : Bool} :
    Executes cfg careful (runProgram cfg g interactive) s₀ (s₀.within false) :=
  executes_start fun _ _ => executes_watched fun _ _ => rfl

/-- A command without which the program is not started. -/
theorem executes_upload {file code : String} {k : Unit → Code Result}
    (h : Executes cfg careful (k ()) s₀ (s₀.within false)) :
    Executes cfg careful (attempt (F := sig) (.upload file code) rfl >>= k) s₀ (s₀.within false) := by
  refine sure_attempt rfl fun a s' hx => ?_
  obtain ⟨rfl, -⟩ := hx
  cases a with
  | error e => rfl
  | ok a => exact h

theorem executes_compileAndRun {g : Guest} {code : String} {interactive : Bool} :
    Executes cfg careful (compileAndRun cfg g code interactive) s₀ (s₀.within false) := by
  refine executes_upload ?_
  cases g.spec.compile with
  | none => exact executes_runProgram
  | some compiler =>
    refine sure_attempt rfl fun a s' hx => ?_
    obtain ⟨rfl, hlets⟩ := hx
    rw [reach_within]
    cases a with
    | error e => rfl
    | ok r =>
      change Executes cfg careful (if r.1.status ≠ 0 then _ else _) s₀ (s₀.within r.1.rejected)
      split
      · next hstatus =>
        refine ⟨_, rfl, fun hc => ?_, fun _ => not_passed fun h => hstatus (Option.some_inj.mp h)⟩
        exact Fate.rejected_of_status hstatus (hlets hc r.1 r.2 rfl)
      · next hstatus =>
        rw [r.1.not_rejected_of_status (not_not.mp hstatus)]
        exact executes_runProgram

theorem sure_bootVm : Sure (Under cfg careful) bootVm
    (fun failed s => s = s₀.within false ∧ (failed.isSome → ¬careful)) (Unasked s₀)
    (s₀.within false) := by
  refine Sure.catch (D := fun e s => s = s₀.within false ∧ (careful → ∃ text, e = .other text)) ?_ ?_
  · refine sure_attempt rfl fun a s' hx => ?_
    obtain ⟨rfl, hlets⟩ := hx
    cases a with
    | error e => exact ⟨rfl, fun hc => hlets hc e rfl⟩
    | ok a => exact ⟨rfl, nofun⟩
  · rintro e _ ⟨rfl, hother⟩
    cases e with
    | other text => rfl
    | boot text | os text =>
      refine ⟨rfl, fun _ hc => ?_⟩
      obtain ⟨_, he⟩ := hother hc
      cases he

theorem executes_inSandbox {g : Guest} {code : String} {interactive : Bool} :
    Executes cfg careful (inSandbox cfg g code interactive) s₀ (s₀.within false) := by
  refine sure_attempt rfl fun a s' hx => ?_
  obtain ⟨rfl, hlets⟩ := hx
  cases a with
  | error e => rfl
  | ok avail =>
    change Executes cfg careful (if avail < cfg.runVmMinHostMemMb + cfg.memMib g then _ else _) s₀ _
    split
    · next hshort => exact executes_pure (fun hc => not_le.mpr hshort (hlets hc avail rfl)) nofun
    · refine sure_attempt (F := sig) (c := .microVM (cfg.memMib g)) rfl fun a s' hx => ?_
      obtain ⟨rfl, -⟩ := hx
      cases a with
      | error e => rfl
      | ok a =>
        refine Sure.bind (p := bootVm) sure_bootVm ?_
        rintro failed _ ⟨rfl, hfailed⟩
        cases failed with
        | some text => exact executes_pure (hfailed rfl) nofun
        | none => exact executes_compileAndRun

theorem sure_cleanUp : Sure (Under cfg careful) cleanUp (fun _ s' => s' = s) (fun _ s' => s' = s) s := by
  refine sure_attempt rfl fun a s' hx => ?_
  obtain ⟨rfl, -⟩ := hx
  cases a with
  | error e => rfl
  | ok a => exact sure_perform (f := Program.ret) fun _ _ hx => hx.1

theorem executes_runInMicrovm {g : Guest} {code : String} {interactive : Bool} :
    Executes cfg careful (runInMicrovm cfg g code interactive) s₀ s₀ := by
  refine sure_perform fun acquired s' hx => ?_
  obtain ⟨rfl, hlets⟩ := hx
  cases acquired with
  | true =>
    refine (Program.wp_tryFinally _ _).mpr (Sure.mono executes_inSandbox ?_ ?_)
    · rintro r s ⟨b, rfl, hb⟩
      exact Sure.mono sure_cleanUp (fun _ _ heq => ⟨b, heq, hb⟩) fun _ _ heq => heq ▸ rfl
    · exact fun e s h => Sure.mono sure_cleanUp (fun _ _ heq => heq ▸ h) fun _ _ heq => heq ▸ h
  | false =>
    refine sure_perform fun interrupted s' hx => ?_
    obtain ⟨rfl, -⟩ := hx
    exact executes_pure (fun hc => Bool.false_ne_true (hlets hc)) nofun

/-- One execution: where it is answered for with care the program ran, and where it did not run it
has not passed. -/
theorem executes_execute {language : Language} {code : String} {interactive : Bool} :
    Executes cfg careful (execute cfg language code interactive) s₀ s₀ := by
  cases language with
  | guest g => exact executes_runInMicrovm
  | python =>
    cases interactive with
    | true => exact executes_runSandboxedInteractive
    | false => exact executes_runSandboxed

/-- **An execution that did not come to the program is taken for a failure,** wherever there is a
result. -/
theorem not_passed_of_untried {language : Language} {code : String} {interactive : Bool} {r : Result}
    (h : Ends exec s (execute cfg language code interactive) (.ok r) s') (hran : ¬s'.ran) :
    r.passed = false := by
  have hends : Ends (Under cfg False) s (execute cfg language code interactive) (.ok r) s' :=
    h.mono fun _ _ _ _ hx => ⟨hx, False.elim⟩
  obtain ⟨b, rfl, -, hpassed⟩ := (executes_execute.result hends).1 r rfl
  cases b with
  | false => exact hpassed rfl
  | true => exact absurd (ran_within.mpr rfl) hran

/-! ### The promise, kept -/

/-- Every execution came to the program, and the model was told of no other. -/
structure Sound (s : State) : Prop where
  told : ToldTruly s
  tried : ∀ b ∈ s.tried, b = true
  ran : s.ran

theorem sound_within (htold : ToldTruly s) (htried : ∀ b ∈ s.tried, b = true) :
    Sound (s.within true) :=
  ⟨htold, List.forall_mem_cons.mpr ⟨rfl, htried⟩, ran_within.mpr rfl⟩

theorem Sound.shown (h : Sound s) (c : Capture) : Shown c s := by
  refine ⟨fun _ => ?_, fun _ => h.ran⟩
  have hne : s.tried ≠ [] := fun hnil => Option.some_ne_none _ (h.ran.symm.trans (hnil ▸ rfl))
  rw [List.getLast?_eq_some_getLast hne, h.tried _ (List.getLast_mem hne)]

/-- An execution that comes to the program. -/
theorem sure_execute {language : Language} {code : String} {interactive : Bool}
    (htold : ToldTruly s) (htried : ∀ b ∈ s.tried, b = true) :
    Sure (Under cfg True) (execute cfg language code interactive) (fun _ => Sound)
      (fun _ => ToldTruly) s := by
  refine Sure.mono executes_execute ?_ fun e s' h b hb => htold b (h ▸ hb)
  rintro r _ ⟨b, rfl, hb, -⟩
  cases hb trivial
  exact sound_within htold htried

theorem sure_askFix {prompt : String} (h : Sound s) :
    Sure (Under cfg True) (askFix prompt) (fun _ => Sound) (fun _ _ => False) s := by
  refine Sure.catch (D := fun _ => Sound) (sure_attempt rfl fun a s' hx => ?_) fun _ _ h => h
  obtain ⟨rfl, -⟩ := hx
  have hasked : Sound { s with asked := decide s.ran :: s.asked } :=
    ⟨List.forall_mem_cons.mpr ⟨decide_eq_true h.ran, h.told⟩, h.tried, h.ran⟩
  cases a with
  | error e => exact hasked
  | ok text => exact hasked

theorem sure_fixRounds {rounds : ℕ} {language : Language} {r : Result} {capture : Capture}
    (h : Sound s) : Sure (Under cfg True) (fixRounds cfg rounds language r capture) (fun _ => Sound)
      (fun _ => ToldTruly) s := by
  induction rounds generalizing language r capture s with
  | zero => exact h
  | succ rounds ih =>
    refine sure_perform fun stopped s' hx => ?_
    obtain ⟨rfl, -⟩ := hx
    cases stopped with
    | true => exact h
    | false =>
      refine Sure.then (sure_askFix h) fun reply s' h => ?_
      cases reply with
      | none => exact h
      | some text =>
        dsimp only
        split
        · exact h
        · split
          · exact h
          · refine Sure.bind (sure_execute h.told h.tried) fun r s' h => ?_
            split
            · exact h
            · exact ih h

theorem sure_verifyAndMaybeFix {language : Language} {code : String} :
    Sure (Under cfg True) (verifyAndMaybeFix cfg language code) (fun _ => Sound)
      (fun _ => ToldTruly) .init := by
  refine Sure.bind (sure_execute nofun nofun) fun r s h => ?_
  dsimp only
  split
  · exact h
  · exact sure_fixRounds h

/-- What did not come to an end is no example. -/
theorem unrecorded_error (e : Failure) (s : State) : Unrecorded (.error e) s :=
  fun _ _ => Program.confined_bind
    ⟨trivial, fun _ => Program.confined_lift fun _ _ => trivial⟩ fun _ _ => trivial

/-- **What is reported as an execution was one,** in every run in which the executions that are
answered for come to the program. -/
theorem honest_of_ends (cfg : Settings) :
    (∀ language code r s, Ends (Sem cfg) .init (verifyAndMaybeFix cfg language code) r s → Honest r s) ∧
      ∀ language code interactive s r s',
        Ends (Sem cfg) s (execute cfg language code interactive) r s' → Unrecorded r s' := by
  have hsem : ∀ s c a s', Sem cfg s c a s' → Under cfg True s c a s' :=
    fun _ _ _ _ hx => ⟨hx.1, fun _ => hx.2⟩
  refine ⟨fun language code r s h => ?_, fun language code interactive s r s' h => ?_⟩
  · obtain ⟨hok, herror⟩ := sure_verifyAndMaybeFix.result (h.mono hsem)
    cases r with
    | ok c => exact ⟨(hok c rfl).told, fun c' _ => (hok c rfl).shown c'⟩
    | error e => exact ⟨herror e rfl, fun c hc => by cases hc⟩
  · cases r with
    | error e => exact unrecorded_error e s'
    | ok r =>
      obtain ⟨b, rfl, hb, -⟩ := (executes_execute.result (h.mono hsem)).1 r rfl
      exact fun hran => absurd (ran_within.mpr (hb trivial)) hran

end Run

/-! ### A program that fails, and a queue that stays full -/

/-- The settings that `verify_proxy.py` falls back on; no line of input is ever shown. -/
def defaults : Settings := ⟨15, 3, 256, 512, 400, 60, 120, id⟩

/-- A host with a free sandbox or none, a program that exits with `1`, and a model that has
nothing to correct. -/
def respond (free : Bool) (s : State) : (c : Cmd) → Option (c.Ans × State)
  | .acquire => some (free, s.enter)
  | .isSet => some (false, s)
  | .memAvailableMb memMib => some (.ok (defaults.runVmMinHostMemMb + memMib), s)
  | .microVM _ => some (.ok (), s)
  | .boot => some (.ok (), s)
  | .upload .. => some (.ok (), s)
  | .start .. => some (.ok .runs, s.reach true)
  | .watch _ => some ([.output [] ["main.sh: line 1: flase: command not found"], .exited], s)
  | .conclude => some (⟨[], [], some 1⟩, s)
  | .teardown => some (.ok (), s)
  | .release => some ((), s)
  | .askFix _ => some (.ok "There is nothing wrong with it.",
      { s with asked := decide s.ran :: s.asked })
  | _ => none

theorem exec_respond {free : Bool} {s s' : State} {c : Cmd} {a : c.Ans}
    (h : respond free s c = some (a, s')) : exec s c a s' := by
  cases c with
  | conclude =>
    cases h
    exact ⟨nofun, rfl⟩
  | script _ | compile _ _ | communicate _ | provideInput _ | send _ => cases h
  | _ =>
    cases h
    exact rfl

theorem lets_respond {s s' : State} {c : Cmd} {a : c.Ans} (h : respond true s c = some (a, s')) :
    Lets defaults c a := by
  cases c with
  | acquire =>
    cases h
    exact rfl
  | memAvailableMb memMib =>
    cases h
    rintro _ ⟨⟩
    exact le_rfl
  | boot =>
    cases h
    rintro _ ⟨⟩
  | start cmd interactive =>
    cases h
    rintro _ ⟨⟩
    rfl
  | compile _ _ => cases h
  | _ => trivial

/-- A submission. -/
def submission : Reverify.Submission :=
  ⟨"5c7d", "tok", "qwen", "Run true.", "true", "bash", .pending, 0, "", "", "2026-07-01T09:00:00+00:00"⟩

/-- An execution whose result is known has been recorded as an example. -/
theorem not_unrecorded {r : Result} {s : State} (hran : ¬s.ran) : ¬Unrecorded (.ok r) s :=
  fun h => (h hran submission).1

/-- A program that really fails is corrected, and recorded. -/
theorem honest_of_ends_failed :
    (∃ r s, Ends (Sem defaults) .init (verifyAndMaybeFix defaults (.guest .bash) "flase") r s ∧
      s = ⟨[true], [true]⟩ ∧ Honest r s) ∧
    ∃ r s, Ends (Sem defaults) .init (execute defaults (.guest .bash) "flase" false) r s ∧
      Unrecorded r s := by
  have hsem : ∀ s c a s', respond true s c = some (a, s') → Sem defaults s c a s' :=
    fun _ _ _ _ h => ⟨exec_respond h, lets_respond h⟩
  constructor
  · obtain ⟨⟨r, s⟩, hrun, hs⟩ := (Option.any_eq_true ..).mp (by decide :
      ((verifyAndMaybeFix defaults (.guest .bash) "flase").run (respond true) .init).any
        (fun x => decide (x.2 = ⟨[true], [true]⟩)) = true)
    have hends := Program.ends_of_run hsem hrun
    exact ⟨r, s, hends, of_decide_eq_true hs, (honest_of_ends defaults).1 _ _ r s hends⟩
  · obtain ⟨⟨r, s⟩, hrun⟩ := Option.isSome_iff_exists.mp (by decide :
      ((execute defaults (.guest .bash) "flase" false).run (respond true) .init).isSome = true)
    have hends := Program.ends_of_run hsem hrun
    exact ⟨r, s, hends, (honest_of_ends defaults).2 _ _ _ _ r s hends⟩

/-- A run that returns, with what is decided of its end. -/
theorem ends_busy {α : Type} {p : Code α} {P : α → State → Bool}
    (h : (p.run (respond false) .init).any (fun x => x.1.toOption.any (P · x.2)) = true) :
    ∃ a s, Ends exec .init p (.ok a) s ∧ P a s = true := by
  obtain ⟨⟨r, s⟩, hrun, hr⟩ := (Option.any_eq_true ..).mp h
  cases r with
  | error e => cases hr
  | ok a => exact ⟨a, s, Program.ends_of_run (fun _ _ _ _ => exec_respond) hrun, hr⟩

/-- **No sandbox becomes free: the capture says that the program failed, the model is asked to
correct it, and a submission of it is recorded as an example.** -/
theorem busy_reported :
    (∃ c s, Ends exec .init (verifyAndMaybeFix defaults (.guest .bash) "true") (.ok c) s ∧
      ¬ToldTruly s ∧ ¬Shown c s) ∧
    ∃ r s, Ends exec .init (execute defaults (.guest .bash) "true" false) (.ok r) s ∧
      ¬Unrecorded (.ok r) s := by
  constructor
  · obtain ⟨c, s, hends, hcs⟩ := ends_busy (p := verifyAndMaybeFix defaults (.guest .bash) "true")
      (P := fun c s => !c.passed && decide (s = ⟨[false], [false]⟩)) (by decide)
    obtain ⟨hfailed, hs⟩ := Bool.and_eq_true_iff.mp hcs
    obtain rfl := of_decide_eq_true hs
    refine ⟨c, _, hends, fun htold => ?_, fun hshown => ?_⟩
    · exact Bool.false_ne_true (htold false (List.mem_singleton_self _))
    · cases hshown.first ((Bool.not_eq_true' _).mp hfailed)
  · obtain ⟨r, s, hends, hs⟩ := ends_busy (p := execute defaults (.guest .bash) "true" false)
      (P := fun _ s => decide (¬s.ran)) (by decide)
    exact ⟨r, s, hends, not_unrecorded (of_decide_eq_true hs)⟩

end Execute
end CloudCore
