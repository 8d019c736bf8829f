import CloudCore.LlmChat.Execute
import Mathlib.Data.List.Induction

/-!
# What a capture is about

The rounds of `verify_and_maybe_fix`, with a log of what came of each.  The capture holds one
correction: its explanation is that of the last reply, the rest is of the last program that was
executed.

## Main definitions

* `verifyLogged` — `verifyAndMaybeFix` with the log of its rounds.
* `Kept` — the capture describes the first execution, and one round.
* `Settled` — the last reply is that of the last round with an execution, in the first language.

## Main results

* `forget_verifyLogged` — the log changes nothing.
* `kept_iff` — whatever the model replies and the programs do, the capture is kept exactly if the
  rounds are settled.
-/

namespace CloudCore
namespace Execute

open Effect Python
open Effect.Program (attempt Ends)

/-! ### The rounds, logged -/

/-- What came of a round. -/
inductive FixRound where
  /-- The model could not be asked. -/
  | unreachable
  | noCode (reply : String)
  | ran (reply : String) (language : Language) (code : String) (r : Result)
  deriving DecidableEq

/-- `fixRounds` with its log. -/
def fixRoundsLogged (cfg : Settings) : ℕ → Language → Result → Capture → Code (Capture × List FixRound)
  | 0, _, _, capture => pure (capture, [])
  | rounds + 1, language, r, capture => do
    let stopped : Bool ← Program.perform (F := sig) .isSet
    if stopped then pure (capture, [])
    else do
      let reply ← askFix (fixPrompt language r)
      match reply with
      | none => pure (capture, [.unreachable])
      | some text =>
        let capture := { capture with fixExplanation := some text }
        match extractCode text language with
        | none => pure (capture, [.noCode text])
        | some (language, code) =>
          if code = "" then pure (capture, [.noCode text])
          else do
            let r ← execute cfg language code true
            if r.passed then pure (capture.fix code r, [.ran text language code r])
            else do
              let e ← fixRoundsLogged cfg rounds language r (capture.fix code r)
              pure (e.1, .ran text language code r :: e.2)

/-- The end of `verify_and_maybe_fix`: the first result, the capture and the rounds. -/
structure Verified where
  first : Result
  capture : Capture
  log : List FixRound

/-- `verifyAndMaybeFix` with its log. -/
def verifyLogged (cfg : Settings) (language : Language) (code : String) : Code Verified := do
  let r ← execute cfg language code true
  let capture := Capture.first language code r
  if capture.passed = true ∨ cfg.verifyMaxFixRounds ≤ 0 then pure ⟨r, capture, []⟩
  else do
    let e ← fixRoundsLogged cfg cfg.verifyMaxFixRounds.toNat language r capture
    pure ⟨r, e.1, e.2⟩

theorem bind_assoc {α β γ : Type} (p : Code α) (f : α → Code β) (g : β → Code γ) :
    (p >>= f) >>= g = p >>= fun a => f a >>= g := by
  induction p with
  | ret a => rfl
  | raise e => rfl
  | call c k ih => exact congrArg (Program.call c) (funext ih)

theorem forget_fixRoundsLogged (cfg : Settings) (rounds : ℕ) (language : Language) (r : Result)
    (capture : Capture) :
    (fixRoundsLogged cfg rounds language r capture >>= fun e => pure e.1) =
      fixRounds cfg rounds language r capture := by
  induction rounds generalizing language r capture with
  | zero => rfl
  | succ rounds ih =>
    refine congrArg (Program.call _) (funext fun stopped => ?_)
    cases stopped with
    | true => rfl
    | false =>
      refine (bind_assoc (askFix (fixPrompt language r)) _ _).trans ?_
      refine congrArg (askFix (fixPrompt language r) >>= ·) (funext fun reply => ?_)
      cases reply with
      | none => rfl
      | some text =>
        dsimp only
        cases extractCode text language with
        | none => rfl
        | some e =>
          obtain ⟨language', code⟩ := e
          by_cases hcode : code = ""
          · rw [hcode]
            rfl
          · dsimp only
            rw [if_neg hcode, if_neg hcode, bind_assoc]
            refine congrArg (execute cfg language' code true >>= ·) (funext fun r' => ?_)
            cases r'.passed with
            | true => rfl
            | false => exact (bind_assoc _ _ _).trans (ih language' r' _)

/-- **The log changes nothing.** -/
theorem forget_verifyLogged (cfg : Settings) (language : Language) (code : String) :
    (verifyLogged cfg language code >>= fun e => pure e.capture) = verifyAndMaybeFix cfg language code := by
  refine (bind_assoc _ _ _).trans (congrArg (execute cfg language code true >>= ·) (funext fun r => ?_))
  dsimp only
  split
  · rfl
  · exact (bind_assoc _ _ _).trans (forget_fixRoundsLogged cfg _ language r _)

/-! ### What is promised -/

/-- What the model replied. -/
def FixRound.reply? : FixRound → Option String
  | .unreachable => none
  | .noCode reply | .ran reply .. => some reply

/-- The execution of a round, with the reply. -/
def FixRound.run? : FixRound → Option (String × Language × String × Result)
  | .ran reply language code r => some (reply, language, code, r)
  | .unreachable | .noCode _ => none

def lastReply (log : List FixRound) : Option String := (log.filterMap FixRound.reply?).getLast?

def lastRun (log : List FixRound) : Option (String × Language × String × Result) :=
  (log.filterMap FixRound.run?).getLast?

/-- The capture describes the first execution and, of the rounds, the last one with an execution. -/
structure Kept (cfg : Settings) (language : Language) (code : String) (e : Verified) : Prop where
  rounds : e.log.length ≤ cfg.verifyMaxFixRounds.toNat
  generatedCode : e.capture.generatedCode = code
  execStdout : e.capture.execStdout = e.first.stdout
  execStderr : e.capture.execStderr = e.first.stderr
  execExitCode : e.capture.execExitCode = e.first.exitCode
  passed : e.capture.passed = e.first.passed
  fixExplanation : e.capture.fixExplanation = (lastRun e.log).map (·.1)
  fixedCode : e.capture.fixedCode = (lastRun e.log).map (·.2.2.1)
  fixExecStdout : e.capture.fixExecStdout = (lastRun e.log).map (·.2.2.2.stdout)
  fixExecStderr : e.capture.fixExecStderr = (lastRun e.log).map (·.2.2.2.stderr)
  fixPassed : e.capture.fixPassed = (lastRun e.log).map (·.2.2.2.passed)
  /-- The language is the one in which the recorded programs were executed. -/
  language : e.capture.language = language ∧ ∀ run ∈ lastRun e.log, run.2.1 = e.capture.language

/-- The last reply is, word for word, the one whose program was executed last, in the language of the
first. -/
def Settled (language : Language) (log : List FixRound) : Prop :=
  lastReply log = (lastRun log).map (·.1) ∧ ∀ run ∈ lastRun log, run.2.1 = language

/-! ### The capture of a log -/

/-- What a round writes. -/
def Capture.take (c : Capture) : FixRound → Capture
  | .unreachable => c
  | .noCode reply => { c with fixExplanation := some reply }
  | .ran reply _ code r => { c with fixExplanation := some reply }.fix code r

/-- Of a program about which nothing is said. -/
theorem confined_any {α : Type} (p : Code α) : p.Confined (fun _ => True) fun _ => True := by
  induction p with
  | ret a => trivial
  | raise e => trivial
  | call c k ih => exact ⟨trivial, ih⟩

/-- The capture is what the rounds write, one after the other. -/
theorem confined_fixRoundsLogged (cfg : Settings) (rounds : ℕ) (language : Language) (r : Result)
    (capture : Capture) : (fixRoundsLogged cfg rounds language r capture).Confined (fun _ => True)
      fun e => e.1 = e.2.foldl Capture.take capture ∧ e.2.length ≤ rounds := by
  induction rounds generalizing language r capture with
  | zero => exact ⟨rfl, le_rfl⟩
  | succ rounds ih =>
    refine Program.confined_bind
      (confined_any (Program.perform (F := sig) Cmd.isSet : Code Bool)) fun stopped _ => ?_
    cases stopped with
    | true => exact ⟨rfl, Nat.zero_le _⟩
    | false =>
      refine Program.confined_bind (confined_any (askFix (fixPrompt language r))) fun reply _ => ?_
      cases reply with
      | none => exact ⟨rfl, Nat.succ_pos _⟩
      | some text =>
        dsimp only
        cases extractCode text language with
        | none => exact ⟨rfl, Nat.succ_pos _⟩
        | some e =>
          obtain ⟨language', code⟩ := e
          by_cases hcode : code = ""
          · rw [hcode]
            exact ⟨rfl, Nat.succ_pos _⟩
          · dsimp only
            rw [if_neg hcode]
            refine Program.confined_bind (confined_any (execute cfg language' code true)) fun r' _ => ?_
            cases r'.passed with
            | true => exact ⟨rfl, Nat.succ_pos _⟩
            | false =>
              -- the rounds that are left go on from this one
              refine Program.confined_bind (ih language' r' _) fun e he => ?_
              exact ⟨he.1, Nat.succ_le_succ he.2⟩

/-- **The explanation is the last reply; the rest is of the last execution.** -/
theorem foldl_take {c₀ : Capture} (log : List FixRound) (hnone : c₀.fixExplanation = none ∧ c₀.fixedCode = none ∧
    c₀.fixExecStdout = none ∧ c₀.fixExecStderr = none ∧ c₀.fixPassed = none) :
    log.foldl Capture.take c₀ =
      { c₀ with
        fixExplanation := lastReply log
        fixedCode := (lastRun log).map (·.2.2.1)
        fixExecStdout := (lastRun log).map (·.2.2.2.stdout)
        fixExecStderr := (lastRun log).map (·.2.2.2.stderr)
        fixPassed := (lastRun log).map (·.2.2.2.passed) } := by
  -- the last round decides
  induction log using List.reverseRecOn with
  | nil =>
    obtain ⟨language, generatedCode, execStdout, execStderr, execExitCode, passed, _⟩ := c₀
    obtain ⟨rfl, rfl, rfl, rfl, rfl⟩ := hnone
    rfl
  | append_singleton log round ih =>
    rw [List.foldl_append, ih, List.foldl_cons, List.foldl_nil, lastReply, lastReply, lastRun, lastRun,
      List.filterMap_append, List.filterMap_append]
    cases round with
    | unreachable =>
      have hreply : [FixRound.unreachable].filterMap FixRound.reply? = [] := rfl
      have hrun : [FixRound.unreachable].filterMap FixRound.run? = [] := rfl
      rw [hreply, hrun, List.append_nil, List.append_nil]
      rfl
    | noCode reply =>
      have hreply : [FixRound.noCode reply].filterMap FixRound.reply? = [reply] := rfl
      have hrun : [FixRound.noCode reply].filterMap FixRound.run? = [] := rfl
      rw [hreply, hrun, List.append_nil, List.getLast?_concat]
      rfl
    | ran reply language code r =>
      have hreply : [FixRound.ran reply language code r].filterMap FixRound.reply? = [reply] := rfl
      have hrun : [FixRound.ran reply language code r].filterMap FixRound.run? =
        [(reply, language, code, r)] := rfl
      rw [hreply, hrun, List.getLast?_concat, List.getLast?_concat]
      rfl

/-- **Whatever the model replies and the programs do, the capture is kept exactly if the rounds are
settled.** -/
theorem kept_iff (cfg : Settings) (language : Language) (code : String) :
    (verifyLogged cfg language code).Confined (fun _ => True)
      fun e => Kept cfg language code e ↔ Settled language e.log := by
  have hkept {r : Result} {log : List FixRound} (hlength : log.length ≤ cfg.verifyMaxFixRounds.toNat) :
      Kept cfg language code ⟨r, log.foldl Capture.take (Capture.first language code r), log⟩ ↔
        Settled language log := by
    rw [foldl_take log ⟨rfl, rfl, rfl, rfl, rfl⟩]
    exact ⟨fun h => ⟨h.fixExplanation, h.language.2⟩, fun h =>
      ⟨hlength, rfl, rfl, rfl, rfl, rfl, h.1, rfl, rfl, rfl, rfl, rfl, h.2⟩⟩
  refine Program.confined_bind (confined_any (execute cfg language code true)) fun r _ => ?_
  dsimp only
  split
  · exact @hkept r [] (Nat.zero_le _)
  · refine Program.confined_bind (confined_fixRoundsLogged cfg _ language r _) fun e he => ?_
    have hend := hkept (r := r) he.2
    rw [← he.1] at hend
    exact hend

/-! ### A run -/

/-- A program that exits with `1`, on the host or in a machine, and the replies of the model. -/
def converse : List String → (c : Cmd) → Option (c.Ans × List String)
  | replies, .acquire => some (true, replies)
  | replies, .memAvailableMb memMib => some (.ok (defaults.runVmMinHostMemMb + memMib), replies)
  | replies, .microVM _ | replies, .boot | replies, .upload .. | replies, .script _
  | replies, .teardown => some (.ok (), replies)
  | replies, .start .. => some (.ok .runs, replies)
  | replies, .watch _ => some ([.exited], replies)
  | replies, .conclude => some (⟨[], [], some 1⟩, replies)
  | replies, .isSet => some (false, replies)
  | replies, .release => some ((), replies)
  | reply :: replies, .askFix _ => some (.ok reply, replies)
  | _, _ => none

/-- What holds at every end holds at the end of this run. -/
theorem of_run {α : Type} {p : Code α} {A : α → Prop} {replies left : List String} {a : α}
    (hrun : p.run converse replies = some (.ok a, left)) (h : p.Confined (fun _ => True) A) : A a := by
  induction p generalizing replies with
  | ret b =>
    cases hrun
    exact h
  | raise e => cases hrun
  | call c k ih =>
    simp only [Program.run] at hrun
    split at hrun
    · cases hrun
    · exact ih _ hrun (h.2 _)

/-- A program in another language is executed and fails, and the next reply has none: its explanation
stands beside that program, under the first language. -/
theorem not_kept :
    ¬(verifyLogged defaults .python "print(1/0)").Confined (fun _ => True)
      (Kept defaults .python "print(1/0)") := by
  intro h
  obtain ⟨⟨r, left⟩, hrun, hend⟩ := (Option.any_eq_true ..).mp (by decide +kernel :
    ((verifyLogged defaults .python "print(1/0)").run converse
      ["In bash:\n```bash\nfalse\n```", "I do not know."]).any (fun x => x.1.toOption.any fun e =>
        decide (e.capture.fixExplanation = some "I do not know." ∧ e.capture.fixedCode = some "false\n" ∧
          (lastRun e.log).map (·.1) = some "In bash:\n```bash\nfalse\n```" ∧
          (lastRun e.log).map (·.2.1) = some (.guest .bash) ∧ e.capture.language = .python)) = true)
  cases r with
  | error e => cases hend
  | ok e =>
    obtain ⟨hexplanation, -, hreply, -⟩ := of_decide_eq_true hend
    have hkept := (of_run hrun h).fixExplanation
    rw [hexplanation, hreply] at hkept
    exact absurd hkept (by decide)

end Execute
end CloudCore
