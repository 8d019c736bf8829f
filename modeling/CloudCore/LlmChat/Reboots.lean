import CloudCore.LlmChat.StepRepair

/-!
# Reboots of an answer

`run_advice` tells from the text of a step whether it reboots the machine, runs it, and waits for the machine
to come back.  Where it does not come back, the run ends and the machine is reported lost.  Whether the step
took the machine down is not asked.

## Main definitions

* `rebootPattern` — `_REBOOT_RE`.
* `World` — what the machine and all else do, whatever has been done so far.
* `turns` — the steps that a run reaches, and what it is like by then.
* `Right` — the machine is reported lost only if it was, and other steps are judged like any other.

## Main results

* `exists_turn_of_lost` — a run is lost at a step whose text speaks of a reboot.
* `right_iff_meant` — **a run is right exactly if every step it runs whose text speaks of a reboot takes the machine
  down.**
* `history_lost` — the history of reboots is no reboot.
-/

namespace CloudCore
namespace Reboots

open Python Effect RunStep
open Effect.Program (attempt perform follow Sure)

/-! ### The text of a reboot -/

variable (letter : Char → Bool)

/-- The text begins with `w`, and a word ends there. -/
def startsWord (w : String) (l : List Char) : Bool :=
  w.toList <+: l ∧ ¬(l.drop w.toList.length).head?.any (isWord letter)

/-- What follows a word and blanks behind it. -/
def behindWord (w : String) (l : List Char) : Option (List Char) :=
  if w.toList <+: l ∧ (l.drop w.toList.length).head?.any isSpace then
    some ((l.drop w.toList.length).dropWhile isSpace)
  else none

/-- `(?:-\S+\s+)*-r\b`, on the words of a text. -/
def restartFlag : List (List Char) → Bool
  | [] => false
  | w :: words => startsWord letter "-r" w || (w.head? = some '-' ∧ 2 ≤ w.length) && restartFlag words

/-- The alternatives of `_REBOOT_RE`, at one place. -/
def rebootAt (l : List Char) : Bool :=
  startsWord letter "reboot" l ||
    (behindWord "shutdown" l).any (fun r => restartFlag letter ((r.splitOnP isSpace).filter (· ≠ []))) ||
    (behindWord "systemctl" l).any (startsWord letter "reboot") ||
    (behindWord "init" l).any (startsWord letter "6")

def rebootFrom (before : Option Char) : List Char → Bool
  | [] => false
  | c :: l => !before.any (isWord letter) && rebootAt letter (c :: l) || rebootFrom (some c) l

/-- `_REBOOT_RE.search`. -/
def rebootPattern (source : String) : Bool := rebootFrom letter none source.toList

/-! ### What happens in a run -/

/-- What a command was answered with, where that is an exception. -/
def raised : (c : Cmd) → c.Ans → Option Exn
  | .execStep _, .error x => some x
  | .execPre _, .error x => some x
  | .probe _, .error x => some x
  | .suggestPackage .., .error x => some x
  | .modelFix .., .error x => some x
  | .resolve _, .error x => some x
  | .waitReboot, .error x => some x
  | .other .., .error x => some x
  | _, _ => none

/-- What the machine, the model and the clock do after some commands.  Only the run itself reports the machine
lost. -/
structure World where
  answer : List Cmd → (c : Cmd) → c.Ans
  /-- The execution of a script takes the machine down. -/
  downs : List Cmd → String → Bool
  calm : ∀ h c, raised c (answer h c) ≠ some .machineLost

variable (W : World) (e : Setting)

/-- What a program returns, and all that has been done by then. -/
def World.run {α : Type} (p : Code α) (h : List Cmd) : Except Exn α × List Cmd :=
  follow (fun h c => (W.answer h c, h ++ [c])) p h

/-- A step that a run reaches. -/
structure Turn where
  done : List Step
  step : Step
  budget : Budget
  before : List Cmd

/-- What becomes of the step. -/
def Turn.outcome (t : Turn) : Except Exn (Step × Budget) × List Cmd :=
  W.run (followStep e t.done t.step t.budget) t.before

/-- The steps that a run reaches. -/
def turnsFrom : List Step → List Step → Budget → List Cmd → List Turn
  | _, [], _, _ => []
  | done, s :: steps, b, h =>
    ⟨done, s, b, h⟩ ::
      match W.run (followStep e done s b) h with
      | (.ok r, h') => turnsFrom (done ++ [r.1]) steps r.2 h'
      | (.error _, _) => []

def turns (steps : List Step) : List Turn := turnsFrom W e [] (sessions [] steps) ⟨8, 2⟩ []

/-- A run step that is executed, with its text by then. -/
structure Turn.Executes (t : Turn) (source : String) : Prop where
  kind : t.step.kind = .run
  early : W.answer t.before .late = false
  resolved : W.answer (t.before ++ [.late]) (.resolve t.step.source) = .ok source

/-- What has been done when it is executed. -/
def Turn.history (t : Turn) : List Cmd := t.before ++ [.late] ++ [.resolve t.step.source]

/-- A run step that is left out as a repetition or executed and judged. -/
def judgedStep (done : List Step) (s : Step) (b : Budget) : Code (Step × Budget) :=
  if repeatsRootRepair done s then pure ({ s with exit := some 0, cls := .skipped }, b) else runStep e s b

/-- The run reports the machine lost. -/
def Lost (steps : List Step) : Prop := (W.run (followAnswer e steps) []).1 = .error .machineLost

/-- The machine is reported lost only if a step took it down and it did not come back; and a step that does not
take it down is judged like any other. -/
structure Right (steps : List Step) : Prop where
  lost : Lost W e steps → ∃ t ∈ turns W e steps, ∃ source, t.Executes W source ∧
    W.downs t.history source = true ∧ W.answer (t.history ++ [.execReboot source]) .waitReboot = .ok false
  judged : ∀ t ∈ turns W e steps, ∀ source, t.Executes W source → W.downs t.history source = false →
    t.outcome W e = W.run (judgedStep e t.done { t.step with source := source } t.budget) t.history

/-- Every step that is executed and whose text speaks of a reboot takes the machine down. -/
def Meant (steps : List Step) : Prop :=
  ∀ t ∈ turns W e steps, ∀ source, t.Executes W source → e.found.reboots source = true →
    W.downs t.history source = true

/-! ### Runs of a program -/

variable {W e} {α β : Type} {h : List Cmd} {t : Turn} {source : String}

theorem run_bind (p : Code β) (f : β → Code α) (h : List Cmd) :
    W.run (p >>= f) h =
      match W.run p h with
      | (.ok b, h') => W.run (f b) h'
      | (.error x, h') => (.error x, h') := by
  induction p generalizing h with
  | ret a => rfl
  | raise x => rfl
  | call c k ih => exact ih _ _

/-- What has been done stays done. -/
theorem prefix_run (p : Code α) (h : List Cmd) : h <+: (W.run p h).2 := by
  induction p generalizing h with
  | ret a => exact List.prefix_refl h
  | raise x => exact List.prefix_refl h
  | call c k ih => exact (List.prefix_append h [c]).trans (ih _ _)

/-- The program does not report the machine lost. -/
def Calm (p : Code α) : Prop := ∀ (W : World) (h : List Cmd), (W.run p h).1 ≠ .error .machineLost

theorem calm_pure (a : α) : Calm (pure a) := fun _ _ => nofun

theorem Calm.bind {p : Code β} {f : β → Code α} (hp : Calm p) (hf : ∀ b, Calm (f b)) : Calm (p >>= f) := by
  intro W h
  have hp := hp W h
  rw [run_bind]
  split
  · next b h' heq => exact hf b W h'
  · next x h' heq =>
    rw [heq] at hp
    intro hx
    cases hx
    exact hp rfl

theorem calm_attempt {c : Cmd} (hans : c.Ans = Except Exn α)
    (hraised : ∀ x, raised c (hans.symm ▸ (.error x : Except Exn α)) = some x) :
    Calm (attempt (F := sig) c hans) := by
  intro W h
  have hcalm := W.calm h c
  change (W.run (Program.lift (hans ▸ W.answer h c)) (h ++ [c])).1 ≠ _
  generalize W.answer h c = a at hcalm
  generalize hr : (hans ▸ a : Except Exn α) = r
  rw [Program.eq_symm_cast hans hr] at hcalm
  cases r with
  | ok b => exact nofun
  | error x =>
    rw [hraised x] at hcalm
    intro heq
    cases heq
    exact hcalm rfl

theorem calm_wrongPackage (f : Found) (s : Step) (quoted : List (List Char)) : Calm (wrongPackage f s quoted) := by
  unfold wrongPackage
  split
  · refine (calm_attempt _ fun _ => rfl).bind fun right => ?_
    cases right with
    | none => exact calm_pure _
    | some right => exact calm_pure _
  · exact calm_pure _

theorem calm_missingProgram (f : Found) (s : Step) (quoted : List (List Char)) :
    Calm (missingProgram f s quoted) := by
  unfold missingProgram
  split
  · refine (calm_attempt _ fun _ => rfl).bind fun pkg => ?_
    cases pkg with
    | none => exact calm_pure _
    | some pkg => exact calm_pure _
  · exact calm_pure _
  · extract_lets command prog
    split
    · exact calm_pure _
    · refine (calm_attempt _ fun _ => rfl).bind fun code => ?_
      split
      · exact calm_pure _
      · refine (calm_attempt _ fun _ => rfl).bind fun pkg => ?_
        cases pkg with
        | none => exact calm_pure _
        | some pkg => exact calm_pure _

theorem calm_missingParent (s : Step) (paths : List String) : Calm (missingParent s paths) := by
  induction paths with
  | nil => exact calm_pure _
  | cons path paths ih =>
    rw [missingParent]
    split
    · exact ih
    · refine (calm_attempt _ fun _ => rfl).bind fun code => ?_
      split
      · exact ih
      · exact calm_pure _

theorem calm_repairCandidates (f : Found) (s : Step) (out : String) (already : List String) (model : Bool) :
    Calm (repairCandidates f s out already model) :=
  (calm_wrongPackage f s _).bind fun _ => (calm_missingProgram f s _).bind fun _ =>
    (calm_missingParent s _).bind fun _ => calm_pure _

theorem calm_tryFix (f : Found) (s : Step) (c : Fix) : Calm (tryFix f s c) := by
  unfold tryFix runPre
  dsimp only
  refine Calm.bind ?_ fun _ => (calm_attempt _ fun _ => rfl).bind fun x => ?_
  · split
    · exact calm_pure _
    · exact calm_attempt _ fun _ => rfl
  · split
    · exact calm_pure _
    · exact calm_pure _

theorem calm_chosen (s : Step) (c : Fix) : Calm (chosen s c) := by
  unfold chosen modelFix
  split
  · refine (calm_attempt _ fun _ => rfl).bind fun fix => ?_
    dsimp only
    split
    · exact calm_pure _
    · exact calm_pure _
  · exact calm_pure _

theorem calm_repairRounds (f : Found) (hasModel : Bool) (n : ℕ) (s : Step) (tried : List String) (b : Budget) :
    Calm (repairRounds f hasModel n s tried b) := by
  induction n generalizing s tried b with
  | zero => exact calm_pure _
  | succ n ih =>
    rw [repairRounds]
    split
    · exact calm_pure _
    · refine (calm_repairCandidates f s _ _ _).bind fun cands => ?_
      cases cands with
      | nil => exact calm_pure _
      | cons c _ =>
        refine (calm_chosen s c).bind fun fix => ?_
        cases fix with
        | none => exact ih _ _ _
        | some fix =>
          refine (calm_tryFix f s fix).bind fun s' => ?_
          split
          · exact calm_pure _
          · exact ih _ _ _

theorem calm_judgedStep (done : List Step) (s : Step) (b : Budget) : Calm (judgedStep e done s b) := by
  unfold judgedStep runStep
  split
  · exact calm_pure _
  · refine (calm_attempt _ fun _ => rfl).bind fun x => ?_
    dsimp only
    split
    · exact calm_pure _
    · split
      · exact calm_pure _
      · split
        · exact calm_repairRounds _ _ _ _ _ _
        · exact calm_pure _

/-! ### One step -/

/-- What is executed, once its text is known. -/
def executed (e : Setting) (done : List Step) (s : Step) (b : Budget) : Code (Step × Budget) :=
  if s.kind ≠ .run then do
    let cls : StepCls ← attempt (F := sig) (.other s.kind s.source s.target) rfl
    pure ({ s with cls := cls }, b)
  else if e.found.reboots s.source then do
    let s ← rebootStep s
    pure (s, b)
  else judgedStep e done s b

theorem outcome_begins (t : Turn) : t.outcome W e = W.run (if W.answer t.before .late = true then
      pure ({ t.step with cls := .judged .timeout, detail := "the whole run hit its time limit before this step" },
        t.budget)
      else attempt (F := sig) (.resolve t.step.source) rfl >>= fun source =>
        executed e t.done { t.step with source := source } t.budget) (t.before ++ [.late]) := rfl

theorem outcome_of_late (t : Turn) (h : W.answer t.before .late = true) :
    ∃ r, t.outcome W e = (.ok r, t.before ++ [.late]) := by
  rw [outcome_begins, if_pos h]
  exact ⟨_, rfl⟩

theorem outcome_of_early (t : Turn) (h : W.answer t.before .late = false) :
    t.outcome W e = W.run (Program.lift (W.answer (t.before ++ [.late]) (.resolve t.step.source)) >>= fun source =>
        executed e t.done { t.step with source := source } t.budget) t.history := by
  rw [outcome_begins, if_neg (by rw [h]; exact Bool.false_ne_true)]
  rfl

/-- **What is executed is taken for a reboot, or judged, by its text.** -/
theorem outcome_eq (hx : t.Executes W source) :
    t.outcome W e =
      if e.found.reboots source then
        W.run (rebootStep { t.step with source := source } >>= fun s => pure (s, t.budget)) t.history
      else W.run (judgedStep e t.done { t.step with source := source } t.budget) t.history := by
  rw [outcome_of_early t hx.early, hx.resolved]
  change W.run (executed e t.done { t.step with source := source } t.budget) t.history = _
  unfold executed
  rw [if_neg fun hne => hne hx.kind]
  split
  · rfl
  · rfl

/-- A reboot, as it is run. -/
theorem run_rebootStep (s : Step) (b : Budget) (h : List Cmd) :
    W.run (rebootStep s >>= fun s => pure (s, b)) h =
      (match W.answer (h ++ [.execReboot s.source]) .waitReboot with
        | .ok true => .ok ({ s with
            exit := some 0, cls := .judged .ok,
            ran := (W.answer h (.execReboot s.source)).map (s.source, ·) }, b)
        | .ok false => .error .machineLost
        | .error x => .error x, h ++ [.execReboot s.source] ++ [.waitReboot]) := by
  have hstart : W.run (rebootStep s >>= fun s => pure (s, b)) h =
      W.run ((Program.lift (W.answer (h ++ [.execReboot s.source]) .waitReboot) >>= fun back : Bool =>
        if back then pure { s with
          exit := some 0, cls := .judged .ok, ran := (W.answer h (.execReboot s.source)).map (s.source, ·) }
        else throw .machineLost) >>= fun s => pure (s, b)) (h ++ [.execReboot s.source] ++ [.waitReboot]) := rfl
  rw [hstart]
  generalize W.answer (h ++ [.execReboot s.source]) .waitReboot = back
  match back with
  | .ok true => rfl
  | .ok false => rfl
  | .error x => rfl

/-- A step at which the machine is lost is taken for a reboot, and the machine does not come back. -/
theorem exists_of_outcome (h : (t.outcome W e).1 = .error .machineLost) :
    ∃ source, t.Executes W source ∧ e.found.reboots source = true ∧
      W.answer (t.history ++ [.execReboot source]) .waitReboot = .ok false := by
  cases hlate : W.answer t.before .late with
  | true =>
    obtain ⟨r, hr⟩ := outcome_of_late (e := e) t hlate
    rw [hr] at h
    cases h
  | false =>
    have houtcome := outcome_of_early (e := e) t hlate
    have hcalm := W.calm (t.before ++ [.late]) (.resolve t.step.source)
    cases hsource : W.answer (t.before ++ [.late]) (.resolve t.step.source) with
    | error x =>
      rw [hsource] at houtcome hcalm
      rw [houtcome] at h
      cases h
      exact absurd rfl hcalm
    | ok source =>
      by_cases hkind : t.step.kind = .run
      · have hx : t.Executes W source := ⟨hkind, hlate, hsource⟩
        refine ⟨source, hx, ?_⟩
        rw [outcome_eq hx] at h
        split at h
        · next hreboots =>
          refine ⟨hreboots, ?_⟩
          rw [run_rebootStep] at h
          have hwait := W.calm (t.history ++ [.execReboot source]) .waitReboot
          generalize W.answer (t.history ++ [.execReboot source]) .waitReboot = back at h hwait ⊢
          match back, h, hwait with
          | .ok true, h, _ => cases h
          | .ok false, _, _ => rfl
          | .error x, h, hwait =>
            cases h
            exact absurd rfl hwait
        · exact absurd h (calm_judgedStep _ _ _ W _)
      · -- a step that is not run in the terminal
        rw [houtcome, hsource] at h
        have hcalm' : Calm (executed e t.done { t.step with source := source } t.budget) := by
          unfold executed
          rw [if_pos hkind]
          exact (calm_attempt _ fun _ => rfl).bind fun cls => calm_pure _
        exact absurd h (hcalm' W t.history)

/-! ### A run -/

theorem exists_turnFrom {steps done : List Step} {b : Budget} {h : List Cmd}
    (hlost : (W.run (followSteps e done steps b) h).1 = .error .machineLost) :
    ∃ t ∈ turnsFrom W e done steps b h, (t.outcome W e).1 = .error .machineLost := by
  induction steps generalizing done b h with
  | nil => cases hlost
  | cons s steps ih =>
    have hturn : (W.run (followStep e done s b) h) = (Turn.mk done s b h).outcome W e := rfl
    rw [followSteps, run_bind] at hlost
    rw [turnsFrom]
    split at hlost
    · next r h' heq =>
      obtain ⟨t, ht, hlost⟩ := ih hlost
      rw [heq]
      exact ⟨t, List.mem_cons_of_mem _ ht, hlost⟩
    · next x h' heq =>
      refine ⟨_, List.mem_cons_self, ?_⟩
      rw [← hturn, heq]
      cases hlost
      rfl

/-- **A run is lost at a step that is taken for a reboot.** -/
theorem exists_turn_of_lost {steps : List Step} (h : Lost W e steps) :
    ∃ t ∈ turns W e steps, ∃ source, t.Executes W source ∧ e.found.reboots source = true ∧
      W.answer (t.history ++ [.execReboot source]) .waitReboot = .ok false := by
  obtain ⟨t, ht, hlost⟩ := exists_turnFrom h
  exact ⟨t, ht, exists_of_outcome hlost⟩

/-- What is judged is not what is done for a reboot. -/
theorem history_judgedStep_ne (done : List Step) (s : Step) (b : Budget) (h : List Cmd) :
    (W.run (judgedStep e done s b) h).2 ≠ h ++ [.execReboot s.source] ++ [.waitReboot] := by
  intro heq
  unfold judgedStep at heq
  split at heq
  · have hlength := congrArg List.length heq
    change h.length = _ at hlength
    rw [List.length_append, List.length_append, List.length_singleton, List.length_singleton] at hlength
    omega
  · -- the first command is another one
    have hprefix : h ++ [.execStep s.source] <+: (W.run (runStep e s b) h).2 := by
      unfold runStep
      exact prefix_run _ (h ++ [.execStep s.source])
    rw [heq, List.append_assoc, List.prefix_append_right_inj] at hprefix
    obtain ⟨rest, hrest⟩ := hprefix
    cases hrest

/-- **A run is right exactly if every step it executes whose text speaks of a reboot takes the machine down.** -/
theorem right_iff_meant (steps : List Step) : Right W e steps ↔ Meant W e steps := by
  constructor
  · rintro ⟨-, hjudged⟩ t ht source hx hreboots
    by_contra hdowns
    have houtcome := hjudged t ht source hx (Bool.eq_false_iff.mpr hdowns)
    rw [outcome_eq hx, if_pos hreboots, run_rebootStep] at houtcome
    exact history_judgedStep_ne _ _ _ _ (congrArg Prod.snd houtcome).symm
  · intro hmeant
    refine ⟨fun hlost => ?_, fun t ht source hx hdowns => ?_⟩
    · obtain ⟨t, ht, source, hx, hreboots, hback⟩ := exists_turn_of_lost hlost
      exact ⟨t, ht, source, hx, hmeant t ht source hx hreboots, hback⟩
    · rw [outcome_eq hx, if_neg fun hreboots => ?_]
      rw [hmeant t ht source hx hreboots] at hdowns
      cases hdowns

/-! ### The history of reboots -/

/-- The patterns of a lab without limits, with that of a reboot. -/
def labSetting : Setting := { Setting.plain with found := { Found.plain with reboots := rebootPattern fun _ => false } }

/-- Nothing takes the machine down, and it does not come back from what is no reboot. -/
def steady : World where
  answer _
    | .execStep _ => .ok ⟨[], ""⟩
    | .execPre _ => .ok ()
    | .probe _ => .ok none
    | .suggestPackage .. => .ok none
    | .modelFix .. => .ok ""
    | .late => false
    | .resolve source => .ok source
    | .execReboot _ => some ⟨[], ""⟩
    | .waitReboot => .ok false
    | .other .. => .ok .skipped
  downs _ _ := false
  calm := by
    intro h c
    cases c <;> exact nofun

/-- It shows when the machine was rebooted. -/
def showHistory : Step := .of .run "last reboot"

theorem rebootPattern_showHistory : rebootPattern (fun _ => false) "last reboot" = true := by decide

theorem lost_showHistory : Lost steady labSetting [showHistory] := by
  have hsessions : sessions [] [showHistory] = [showHistory] := by
    have hswitch : switchUser "last reboot".toList = [] := by decide
    have hlines : splitlines (stripBy isSpace "last reboot".toList) = ["last reboot".toList] := by decide
    have hkind : ¬showHistory.kind ≠ .run := fun hne => hne rfl
    have hsource : showHistory.source = "last reboot" := rfl
    rw [sessions, if_neg hkind]
    simp only [hsource, hlines, List.headD_cons, hswitch]
    rw [if_neg fun hne => hne rfl, if_neg fun hne => hne.1 rfl, if_neg fun hne => hne rfl]
    rfl
  have hx : (Turn.mk [] showHistory ⟨8, 2⟩ []).Executes steady "last reboot" := ⟨rfl, rfl, rfl⟩
  have houtcome := outcome_eq (e := labSetting) hx
  have hpattern : labSetting.found.reboots "last reboot" = true := rebootPattern_showHistory
  rw [if_pos hpattern, run_rebootStep] at houtcome
  have hturn : (steady.run (followStep labSetting [] showHistory ⟨8, 2⟩) []).1 = .error .machineLost :=
    congrArg Prod.fst houtcome
  rw [Lost, followAnswer, hsessions, followSteps, run_bind]
  split
  · next r h' heq =>
    rw [heq] at hturn
    cases hturn
  · next x h' heq =>
    rw [heq] at hturn
    cases hturn
    rfl

/-- **A step that shows the history of reboots is taken for a reboot, and the machine is reported lost.** -/
theorem history_lost : ¬∀ (W : World) (steps : List Step), Right W labSetting steps := by
  intro h
  obtain ⟨t, -, source, -, hdowns, -⟩ := (h steady [showHistory]).lost lost_showHistory
  cases hdowns

end Reboots
end CloudCore
