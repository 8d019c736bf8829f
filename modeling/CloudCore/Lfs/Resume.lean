import CloudCore.Effect.Pool
import CloudCore.Effect.Sequential
import CloudCore.Lfs.WorkerRun

/-!
# Taking up a task again

`run_task` of `lfs_worker.py` keeps a marker on the build machine that says how many steps of a task
have been done.  The next attempt reads it, and goes on from there where its plan begins with the same
steps; else it unpacks the sources again.  An attempt may stop between any two commands.

## Main definitions

* `Job`, `Progress`, `State` — a task, the marker, and the machine.
* `resumePoint`, `runTask` — where an attempt goes on, and the attempt.
* `exec` — what the commands do to the machine.
* `Settled` — the marker is about the tree, and about sources that were delivered.

## Main results

* `live_of_resumePoint` — an attempt goes on behind the steps that the marker names.
* `resumed_after_run` — **where attempts end settled, the steps that an attempt leaves out have been
  done, in order, in the tree.**
* `delivered_first` — and nothing behind the book's `wget` runs before the sources are there.
* `resumed_unrun`, `never_delivered` — and what happens else.
-/

namespace CloudCore
namespace LfsResume

open Python Effect LfsWorker

/-! ### The task and the machine -/

/-- What an attempt reads of a task.  `source` is what `source_file` finds. -/
structure Job extends LfsWorker.Task where
  number : String
  source : Option String
  checkpointBefore : Bool
  checkpointAfter : Bool

namespace Job

variable (job : Job)

/-- The index of the book's `wget` of section 3.1. -/
def wgetAt : Option ℕ :=
  if job.number == "3.1" then
    (job.commands.find? fun c => c.skipped && isInfix "wget".toList c.text.toList).map (·.index)
  else none

/-- Every command is the controller's own. -/
def ownOnly : Bool := !job.commands.isEmpty && job.commands.all (·.skipped)

/-- The section sets root's password. -/
def setsPassword : Bool := job.commands.any fun c => c.skipped && strip c.text == "passwd root"

/-- Where steps run that have no tree. -/
def home : String :=
  match job.context with
  | .chroot => "/"
  | .hostLfs => "/mnt/lfs/sources"
  | .hostRoot => "/root"

/-- Where the tree is, as the steps see it. -/
def base : String :=
  match job.context with
  | .chroot => "/sources"
  | _ => "/mnt/lfs/sources"

end Job

/-- The marker. -/
structure Progress (K : Type) where
  done : ℕ
  keys : List K
  cwd : String

/-- What is hashed of a step. -/
abbrev Fingerprint : Type := List Char × Option User × Bool

def fingerprint (step : Step) : Fingerprint := (norm step.run, step.user, step.omitted)

variable {K : Type} (sha1 : Fingerprint → K)

/-- `_step_key` -/
def stepKey (step : Step) : K := sha1 (fingerprint step)

/-- What `_write_progress` writes. -/
def mark (done : ℕ) (steps : List Step) (cwd : String) : Progress K :=
  ⟨done, (steps.take done).map (stepKey sha1), cwd⟩

/-- `_resume_point` -/
def resumePoint [DecidableEq K] (progress : Option (Progress K)) (steps : List Step) : ℕ :=
  match progress with
  | none => 0
  | some p =>
    if p.done = 0 ∨ steps.length < p.done ∨ p.keys.length < p.done then 0
    else if (steps.take p.done).map (stepKey sha1) = p.keys.take p.done then p.done
    else 0

/-- `progress and progress.get("done")` -/
def isLive : Option (Progress K) → Bool
  | none => false
  | some p => p.done != 0

/-- The machine.  `ran` of a tree lists the steps that were done since it was unpacked; `stale` tells
that the tree was unpacked behind the marker. -/
structure State (K : Type) where
  tree : Option (List Step)
  progress : Option (Progress K)
  stale : Bool
  delivered : Bool

/-! ### Commands -/

/-- `set_state` -/
inductive TaskState where
  | running
  | stuck
  | waiting
  | done
  deriving DecidableEq

/-- A try of a step: it counts as done, or has failed; `dirs` are the directories it ended in. -/
structure Tried where
  done : Bool
  dirs : List String

/-- A repair: the work is done already, or the step is run again, maybe as something else. -/
inductive Fixed where
  | done
  | again (instead : Option String)

inductive Cmd (K : Type) where
  | getTask
  | setState (state : TaskState)
  | ensureMounts
  | checkpoint
  | journal
  | readProgress
  | topDir (src : String)
  | testTree (dir : String)
  | unpack (src dir : String)
  | plan
  /-- The note that an attempt goes on behind `r` steps. -/
  | resumed (r : ℕ) (steps : List Step)
  | writeProgress (p : Progress K)
  | deliverSources
  | runStep (n : ℕ) (step : Step) (run cwd : String)
  | repair (n : ℕ) (step : Step) (run : String)
  | lockRoot
  | recordMounts
  | removeProgress
  | removeTree (dir : String)

/-- Every command may raise; `plan` gives no steps where no plan can be used. -/
def Cmd.Ans : Cmd K → Type
  | .getTask => Except Exc ℕ
  | .checkpoint | .testTree _ | .unpack .. => Except Exc Bool
  | .readProgress => Except Exc (Option (Progress K))
  | .topDir _ => Except Exc String
  | .plan => Except Exc (List Step)
  | .runStep .. => Except Exc Tried
  | .repair .. => Except Exc Fixed
  | _ => Except Exc Unit

abbrev sig (K : Type) : Signature := ⟨Cmd K, Cmd.Ans⟩

abbrev Method (K : Type) := Program (sig K) Exc

/-! ### The attempt -/

section

def setState (state : TaskState) : Method K Unit := .attempt (.setState state) rfl

def journal : Method K Unit := .attempt .journal rfl

def perhaps (b : Bool) (p : Method K Unit) : Method K Unit := if b then p else pure ()

/-- `checkpoint`, with its answer forgotten. -/
def takeCheckpoint : Method K Unit := do
  let _ ← .attempt (F := sig K) .checkpoint rfl
  pure ()

/-- A step still fails. -/
def stuck {α : Type} (a : α) : Method K α := do
  journal
  setState .stuck
  pure a

/-- The tries of a step, of which `left` more may fail: how many repairs the task has had, and where the
step ended. -/
def tries (n : ℕ) (step : Step) (cwd : String) : ℕ → ℕ → String → Method K (Option (ℕ × String))
  | left, repairs, run => do
    journal
    let t ← .attempt (.runStep n step run cwd) rfl
    journal
    if t.done then pure (some (repairs, t.dirs.getLast?.getD cwd))
    else
      match left with
      | 0 => stuck none
      | left + 1 =>
        if REPAIRS_PER_TASK < repairs + 1 then stuck none
        else do
          let fix ← .attempt (.repair n step run) rfl
          journal
          match fix with
          | .done => pure (some (repairs + 1, t.dirs.getLast?.getD cwd))
          | .again instead => tries n step cwd left (repairs + 1) (instead.getD run)

/-- The step stands behind the book's `wget`. -/
def beyond (wgetAt : Option ℕ) (step : Step) : Bool :=
  match wgetAt, step.book with
  | some w, some b => decide (w < b)
  | _, _ => true

/-- The steps from the `n`th on; whether the sources have been delivered. -/
def stepsFrom (wgetAt : Option ℕ) (steps : List Step) (resume : ℕ) :
    ℕ → List Step → Bool → ℕ → String → Method K (Option Bool)
  | _, [], delivered, _, _ => pure (some delivered)
  | n, step :: rest, delivered, repairs, cwd =>
    if n < resume then stepsFrom wgetAt steps resume (n + 1) rest delivered repairs cwd
    else do
      let due := !delivered && beyond wgetAt step
      perhaps due (.attempt .deliverSources rfl)
      if step.omitted then stepsFrom wgetAt steps resume (n + 1) rest (delivered || due) repairs cwd
      else do
        match ← tries n step cwd REPAIRS_PER_STEP repairs step.run with
        | none => pure none
        | some (repairs, cwd) => do
          .attempt (.writeProgress (mark sha1 (n + 1) steps cwd)) rfl
          stepsFrom wgetAt steps resume (n + 1) rest (delivered || due) repairs cwd

variable [DecidableEq K] (job : Job)

/-- The end of a task whose steps are done. -/
def finish (vm delivered : Bool) (dir : String) : Method K Bool := do
  perhaps (!delivered) (.attempt .deliverSources rfl)
  perhaps job.setsPassword do
    .attempt .lockRoot rfl
    journal
  perhaps (job.number == "2.7") (.attempt .recordMounts rfl)
  .attempt .removeProgress rfl
  perhaps (dir != "") (.attempt (.removeTree dir) rfl)
  setState .done
  perhaps (job.checkpointAfter && vm) takeCheckpoint
  pure true

/-- `unpack` -/
def unpack (src dir : String) : Method K Bool := do
  let ok ← .attempt (.unpack src dir) rfl
  journal
  if ok then pure true
  else do
    setState .stuck
    pure false

/-- The directory that an attempt goes on in. -/
def cwdOf (progress : Option (Progress K)) (resume : ℕ) (cwd : String) : String :=
  if resume = 0 then cwd
  else progress.elim cwd fun p => if p.cwd = "" then cwd else p.cwd

/-- The attempt, once it is clear where it goes on. -/
def goOn (vm : Bool) (resume : ℕ) (dir cwd : String) (steps : List Step) : Method K Bool := do
  perhaps (resume != 0) (.attempt (.resumed resume steps) rfl)
  .attempt (.writeProgress (mark sha1 resume steps cwd)) rfl
  match ← stepsFrom sha1 job.wgetAt steps resume 0 steps (job.wgetAt.isNone || resume != 0) 0 cwd with
  | none => pure false
  | some delivered => finish job vm delivered dir

/-- The attempt, once it has a plan. -/
def carryOut (vm : Bool) (progress : Option (Progress K)) (unpackLater : Bool) (dir cwd : String)
    (steps : List Step) : Method K Bool :=
  let resume := resumePoint sha1 progress steps
  if isLive progress && resume == 0 then do
    -- a step that was done has another text now
    journal
    let ready ← (if unpackLater then unpack (job.source.getD "") dir else pure true : Method K Bool)
    if ready then goOn sha1 job vm resume dir cwd steps else pure false
  else goOn sha1 job vm resume dir (cwdOf progress resume cwd) steps

/-- The attempt, once its tree is there. -/
def planned (planOnly vm : Bool) (progress : Option (Progress K)) (unpackLater : Bool) (dir cwd : String) :
    Method K Bool :=
  if job.ownOnly then do
    journal
    setState .done
    perhaps (job.checkpointAfter && vm) takeCheckpoint
    pure true
  else do
    let first ← .attempt .plan rfl
    let steps ← (if first.isEmpty then .attempt .plan rfl else pure first : Method K (List Step))
    if steps.isEmpty then stuck false
    else if planOnly then do
      setState .waiting
      pure true
    else carryOut sha1 job vm progress unpackLater dir cwd steps

/-- The attempt, once it knows the name of the tree and whether it is there. -/
def looked (planOnly vm : Bool) (progress : Option (Progress K)) (src dir : String) (there : Bool) : Method K Bool :=
  if isLive progress && there then planned sha1 job planOnly vm progress true dir (job.base ++ "/" ++ dir)
  else do
    let ok ← unpack src dir
    if ok then planned sha1 job planOnly vm none false dir (job.base ++ "/" ++ dir) else pure false

/-- The attempt, once the machine is ready. -/
def prepared (planOnly vm : Bool) (attempts : ℕ) : Method K Bool := do
  let progress ←
    (if 1 ≤ attempts ∧ !planOnly then .attempt .readProgress rfl else pure none : Method K (Option (Progress K)))
  match job.source with
  | none => planned sha1 job planOnly vm progress false "" job.home
  | some src => do
    let top ← .attempt (.topDir src) rfl
    let there ← .attempt (.testTree (strip top)) rfl
    looked sha1 job planOnly vm progress src (strip top) there

/-- `run_task` -/
def runTask (planOnly vm : Bool) : Method K Bool := do
  let attempts ← .attempt .getTask rfl
  setState .running
  .attempt .ensureMounts rfl
  let taken ←
    (if job.checkpointBefore && decide (attempts ≤ 1) && !planOnly && vm then .attempt .checkpoint rfl
    else pure true : Method K Bool)
  if !taken then do
    setState .stuck
    pure false
  else prepared sha1 job planOnly vm attempts

end

/-! ### What the commands do -/

/-- The step counts as done. -/
def State.did (s : State K) (step : Step) : State K := { s with tree := s.tree.map (· ++ [step]) }

/-- The tree is unpacked anew, maybe behind the marker. -/
def State.unpacked (s : State K) (tree : Option (List Step)) : State K :=
  { s with tree, stale := s.stale || isLive s.progress }

def State.marked (s : State K) (progress : Option (Progress K)) : State K :=
  { s with progress, stale := false }

/-- What the commands do; the machine may also do what a command that raises was meant to do. -/
def exec (s : State K) : (c : Cmd K) → c.Ans → State K → Prop
  | .readProgress, .ok p, s' => s' = s ∧ (p = none ∨ p = s.progress)
  | .topDir _, .ok top, s' => s' = s ∧ strip top ≠ ""
  | .testTree _, .ok there, s' => s' = s ∧ (there = true → s.tree.isSome = true)
  | .unpack .., .ok true, s' => s' = s.unpacked (some [])
  -- it stopped before the tree was removed, behind that, or in the middle
  | .unpack .., _, s' => ∃ tree, (tree = s.tree ∨ tree = none ∨ tree = some []) ∧ s' = s.unpacked tree
  | .writeProgress p, .ok _, s' => s' = s.marked (some p)
  | .writeProgress p, .error _, s' => s' = s ∨ s' = s.marked none ∨ s' = s.marked (some p)
  | .deliverSources, .ok _, s' => s' = { s with delivered := true }
  | .deliverSources, .error _, s' => s' = s ∨ s' = { s with delivered := true }
  | .runStep _ step _ _, .ok t, s' => s' = if t.done then s.did step else s
  | .repair _ step _, .ok f, s' => s' = (match f with | .done => s.did step | .again _ => s)
  | .removeProgress, _, s' => s' = s ∨ s' = s.marked none
  | .removeTree _, _, s' => s' = s ∨ s' = { s with tree := none }
  | _, _, s' => s' = s

/-! ### What is kept -/

/-- The steps that are not left out have been done, in order, in the tree on the machine. -/
def Ran (steps : List Step) (s : State K) : Prop :=
  ∃ ran, s.tree = some ran ∧ ((steps.filter fun step => !step.omitted).map fingerprint).Sublist (ran.map fingerprint)

/-- The marker names steps that were done in the tree, if both are there. -/
structure Inv (job : Job) (s : State K) : Prop where
  tree : job.source = none → s.tree.isSome = true
  agrees : s.stale = false → s.tree.isSome = true → ∀ p, s.progress = some p → p.done ≠ 0 →
    ∃ old, old.length = p.done ∧ p.keys = old.map (stepKey sha1) ∧ Ran old s

/-- The marker is not older than the tree, and it has not been written before the sources were there. -/
def Settled (job : Job) (s : State K) : Prop :=
  s.stale = false ∧ (job.wgetAt.isSome = true → isLive s.progress = true → s.delivered = true)

/-- What is promised of a command. -/
def Promised (job : Job) (s : State K) : Cmd K → Prop
  | .resumed r steps => Ran (steps.take r) s
  | .runStep _ step _ _ => job.wgetAt.isSome = true → beyond job.wgetAt step = true → s.delivered = true
  | .setState .done => job.wgetAt.isSome = true → job.ownOnly = false → s.delivered = true
  | _ => True

/-- And of what it leaves. -/
def Guar (job : Job) (s : State K) (c : Cmd K) (_ : c.Ans) (s' : State K) : Prop :=
  Promised job s c ∧ Inv sha1 job s'

section

variable {sha1} {job : Job} {s s' : State K} {steps old : List Step} {step : Step}

theorem ran_nil (h : s.tree.isSome = true) : Ran [] s := by
  obtain ⟨ran, hran⟩ := Option.isSome_iff_exists.mp h
  exact ⟨ran, hran, List.nil_sublist _⟩

theorem Ran.congr (h : Ran old s) (hsteps : steps.map fingerprint = old.map fingerprint) : Ran steps s := by
  obtain ⟨ran, htree, hran⟩ := h
  refine ⟨ran, htree, ?_⟩
  have hfilter (l : List Step) : (l.filter fun step => !step.omitted).map fingerprint =
      (l.map fingerprint).filter fun f => !f.2.2 := by
    rw [List.filter_map]
    rfl
  rw [hfilter, hsteps, ← hfilter]
  exact hran

theorem Ran.of_tree (h : Ran old s) (htree : s'.tree = s.tree) : Ran old s' := by
  obtain ⟨ran, hran, hsub⟩ := h
  exact ⟨ran, htree.trans hran, hsub⟩

theorem Ran.isSome (h : Ran old s) : s.tree.isSome = true := by
  obtain ⟨ran, hran, -⟩ := h
  rw [hran]
  rfl

/-- What was done stays done. -/
theorem Ran.did (h : Ran old s) (step : Step) : Ran old (s.did step) := by
  obtain ⟨ran, hran, hsub⟩ := h
  refine ⟨ran ++ [step], by rw [State.did, hran]; rfl, ?_⟩
  rw [List.map_append]
  exact hsub.trans (List.sublist_append_left ..)

theorem Ran.append (h : Ran old s) (step : Step) : Ran (old ++ [step]) (s.did step) := by
  obtain ⟨ran, hran, hsub⟩ := h
  refine ⟨ran ++ [step], by rw [State.did, hran]; rfl, ?_⟩
  rw [List.filter_append, List.map_append, List.map_append]
  -- a step that is left out adds nothing to what has to be done
  refine hsub.append ?_
  cases homitted : step.omitted <;> simp [homitted]

theorem ran_omitted (h : Ran old s) (homitted : step.omitted = true) : Ran (old ++ [step]) s := by
  obtain ⟨ran, hran, hsub⟩ := h
  exact ⟨ran, hran, by simpa [List.filter_append, homitted] using hsub⟩

theorem Inv.did (h : Inv sha1 job s) (step : Step) : Inv sha1 job (s.did step) := by
  refine ⟨fun hsource => ?_, fun hstale htree p hp hdone => ?_⟩
  · have := h.tree hsource
    simpa [State.did] using this
  · obtain ⟨old, hlength, hkeys, hran⟩ :=
      h.agrees hstale (by simpa [State.did] using htree) p hp hdone
    exact ⟨old, hlength, hkeys, hran.did step⟩

/-- A marker that tells of steps is stale once the tree is unpacked. -/
theorem Inv.unpacked (hsource : job.source ≠ none) {tree : Option (List Step)} :
    Inv sha1 job (s.unpacked tree) := by
  refine ⟨fun h => absurd h hsource, fun hstale _ p hp hdone => ?_⟩
  have hp : s.progress = some p := hp
  have hstale : (s.stale || isLive s.progress) = false := hstale
  rw [hp] at hstale
  simp [isLive, hdone] at hstale

theorem Inv.delivered (h : Inv sha1 job s) : Inv sha1 job { s with delivered := true } :=
  ⟨h.tree, fun hstale htree p hp hdone => by
    obtain ⟨old, hlength, hkeys, hran⟩ := h.agrees hstale htree p hp hdone
    exact ⟨old, hlength, hkeys, hran.of_tree rfl⟩⟩

theorem Inv.marked_none (h : Inv sha1 job s) : Inv sha1 job (s.marked none) :=
  ⟨h.tree, fun _ _ _ hp => by cases hp⟩

/-- A marker that names what was done. -/
theorem Inv.marked (h : Inv sha1 job s) {n : ℕ} {cwd : String} (hran : Ran (steps.take n) s)
    (hn : n ≤ steps.length) : Inv sha1 job (s.marked (some (mark sha1 n steps cwd))) := by
  refine ⟨h.tree, fun _ _ p hp _ => ?_⟩
  cases hp
  exact ⟨steps.take n, List.length_take_of_le hn, rfl, hran.of_tree rfl⟩

/-- **An attempt goes on behind the steps that the marker names.** -/
theorem live_of_resumePoint [DecidableEq K] {progress : Option (Progress K)} (h : resumePoint sha1 progress steps ≠ 0) :
    ∃ p, progress = some p ∧ p.done ≠ 0 ∧ resumePoint sha1 progress steps = p.done ∧
      p.done ≤ steps.length ∧ (steps.take p.done).map (stepKey sha1) = p.keys.take p.done := by
  unfold resumePoint at h ⊢
  -- no marker, one that tells of no step or of too many, and keys that differ all give `0`
  split at h
  · exact absurd rfl h
  · next p =>
    split at h
    · exact absurd rfl h
    · next hbounds =>
      split at h
      · next hkeys =>
        simp only [not_or, not_lt] at hbounds
        refine ⟨p, rfl, h, ?_, hbounds.2.1, hkeys⟩
        simp [hbounds, hkeys]
      · exact absurd rfl h

/-! ### The rules of the commands -/

/-- What is shown of a part of an attempt. -/
abbrev Wp (sha1 : Fingerprint → K) (job : Job) {α : Type} (p : Method K α) (Q : α → State K → Prop) (s : State K) :
    Prop :=
  p.wp exec Eq (Guar sha1 job) Q (fun _ s => Inv sha1 job s) s

/-- A command, and what comes after it. -/
theorem wp_cmd {α β : Type} {c : Cmd K} (hans : c.Ans = Except Exc β) {f : β → Method K α}
    {Q : α → State K → Prop} (hpromised : Promised job s c)
    (hinv : ∀ a s', exec s c a s' → Inv sha1 job s')
    (hok : ∀ b s', exec s c (hans.symm ▸ .ok b) s' → Wp sha1 job (f b) Q s') :
    Wp sha1 job (Program.attempt (F := sig K) c hans >>= f) Q s := by
  refine Program.wp_attempt hans fun a s' ha => ⟨⟨hpromised, hinv a s' ha⟩, ?_⟩
  -- if it raises the attempt is over, with the machine as the command left it
  cases h : (hans ▸ a : Except Exc β) with
  | error e => exact hinv a s' ha
  | ok b => exact hok b s' (by rw [← Program.eq_symm_cast hans h]; exact ha)

/-- A command that leaves the machine alone. -/
def Cmd.Quiet : Cmd K → Prop
  | .readProgress | .topDir _ | .testTree _ | .unpack .. | .writeProgress _ | .deliverSources | .runStep ..
  | .repair .. | .removeProgress | .removeTree _ => False
  | _ => True

theorem exec_quiet {c : Cmd K} (hc : c.Quiet) {a : c.Ans} (h : exec s c a s') : s' = s := by
  cases c <;> first | exact hc.elim | exact h

theorem exec_of_quiet {c : Cmd K} (hc : c.Quiet) (a : c.Ans) : exec s c a s := by
  cases c <;> first | exact hc.elim | rfl

theorem wp_quiet {α β : Type} {c : Cmd K} (hans : c.Ans = Except Exc β) {f : β → Method K α}
    {Q : α → State K → Prop} (hc : c.Quiet) (hpromised : Promised job s c) (hs : Inv sha1 job s)
    (hok : ∀ b, Wp sha1 job (f b) Q s) : Wp sha1 job (Program.attempt (F := sig K) c hans >>= f) Q s := by
  refine wp_cmd hans hpromised (fun a s' h => ?_) fun b s' h => ?_
  · rw [exec_quiet hc h]
    exact hs
  · rw [exec_quiet hc h]
    exact hok b

theorem wp_perhaps {α : Type} {b : Bool} {p : Method K Unit} {f : Unit → Method K α} {P : State K → Prop}
    {Q : α → State K → Prop} (hp : b = true → Wp sha1 job p (fun _ => P) s) (hskip : b = false → P s)
    (hf : ∀ s, P s → Wp sha1 job (f ()) Q s) : Wp sha1 job (perhaps b p >>= f) Q s := by
  refine Program.wp_after (P := fun _ => P) ?_ fun _ => hf
  unfold perhaps
  cases b with
  | true => exact hp rfl
  | false => exact hskip rfl

/-- A command at the end. -/
theorem wp_last {β : Type} {c : Cmd K} (hans : c.Ans = Except Exc β) {Q : β → State K → Prop}
    (hpromised : Promised job s c) (hinv : ∀ a s', exec s c a s' → Inv sha1 job s')
    (hok : ∀ b s', exec s c (hans.symm ▸ .ok b) s' → Q b s') :
    Wp sha1 job (Program.attempt (F := sig K) c hans) Q s := by
  refine (Program.wp_call_eq (F := sig K) c _).mpr fun a s' ha => ⟨⟨hpromised, hinv a s' ha⟩, ?_⟩
  change Wp sha1 job (Program.lift (hans ▸ a)) Q s'
  exact Program.wp_lift.mpr ⟨fun b h => hok b s' (by rw [← Program.eq_symm_cast hans h]; exact ha),
    fun _ _ => hinv a s' ha⟩

theorem wp_stuck {α : Type} {a : α} {Q : α → State K → Prop} (hs : Inv sha1 job s) (hQ : Q a s) :
    Wp sha1 job (stuck a) Q s :=
  wp_quiet rfl trivial trivial hs fun _ => wp_quiet rfl trivial trivial hs fun _ => hQ

theorem exec_runStep {n : ℕ} {run cwd : String} {a : Except Exc Tried} (h : exec s (.runStep n step run cwd) a s') :
    s' = s ∨ s' = s.did step := by
  cases a with
  | error => exact .inl h
  | ok t =>
    have h : s' = if t.done then s.did step else s := h
    split at h
    · exact .inr h
    · exact .inl h

theorem exec_repair {n : ℕ} {run : String} {a : Except Exc Fixed} (h : exec s (.repair n step run) a s') :
    s' = s ∨ s' = s.did step := by
  cases a with
  | error => exact .inl h
  | ok fix =>
    cases fix with
    | done => exact .inr h
    | again => exact .inl h

/-- A try of a step. -/
theorem wp_try {α : Type} {n : ℕ} {run cwd : String} {f : Tried → Method K α} {Q : α → State K → Prop}
    (hs : Inv sha1 job s)
    (hsources : job.wgetAt.isSome = true → beyond job.wgetAt step = true → s.delivered = true)
    (hdone : ∀ t, t.done = true → Wp sha1 job (f t) Q (s.did step))
    (hfail : ∀ t, t.done = false → Wp sha1 job (f t) Q s) :
    Wp sha1 job (do
      journal
      let t ← Program.attempt (F := sig K) (.runStep n step run cwd) rfl
      journal
      f t) Q s := by
  refine wp_quiet rfl trivial trivial hs fun _ => wp_cmd rfl hsources (fun a s' h => ?_) fun t s' h => ?_
  · obtain rfl | rfl := exec_runStep h
    · exact hs
    · exact hs.did step
  · have h : s' = if t.done then s.did step else s := h
    cases ht : t.done with
    | true =>
      rw [ht] at h
      subst h
      exact wp_quiet rfl trivial trivial (hs.did step) fun _ => hdone t ht
    | false =>
      rw [ht] at h
      subst h
      exact wp_quiet rfl trivial trivial hs fun _ => hfail t ht

/-- **A step that counts as done has been done.** -/
theorem wp_tries {n left repairs : ℕ} {run cwd : String} (hs : Inv sha1 job s) (hran : Ran old s)
    (hsources : job.wgetAt.isSome = true → beyond job.wgetAt step = true → s.delivered = true) :
    Wp sha1 job (tries n step cwd left repairs run) (fun r s' => Inv sha1 job s' ∧
      (r.isSome = true → s'.stale = s.stale ∧ s'.delivered = s.delivered ∧ Ran (old ++ [step]) s')) s := by
  have hdone (r : Option (ℕ × String)) : Inv sha1 job (s.did step) ∧ (r.isSome = true →
      (s.did step).stale = s.stale ∧ (s.did step).delivered = s.delivered ∧ Ran (old ++ [step]) (s.did step)) :=
    ⟨hs.did step, fun _ => ⟨rfl, rfl, hran.append step⟩⟩
  have hstuck : Wp sha1 job (stuck (none : Option (ℕ × String))) (fun r s' => Inv sha1 job s' ∧
      (r.isSome = true → s'.stale = s.stale ∧ s'.delivered = s.delivered ∧ Ran (old ++ [step]) s')) s :=
    wp_stuck hs ⟨hs, fun h => by cases h⟩
  -- on the tries that are left; a repair is one more command before the next
  induction left generalizing repairs run with
  | zero =>
    refine wp_try hs hsources (fun t ht => ?_) fun t ht => ?_
    · rw [if_pos ht]
      exact hdone _
    · rw [if_neg (by simp [ht])]
      exact hstuck
  | succ left ih =>
    refine wp_try hs hsources (fun t ht => ?_) fun t ht => ?_
    · rw [if_pos ht]
      exact hdone _
    · rw [if_neg (by simp [ht])]
      split
      · exact hstuck
      · refine wp_cmd rfl trivial (fun a s' h => ?_) fun fix s' h => ?_
        · obtain rfl | rfl := exec_repair h
          · exact hs
          · exact hs.did step
        -- the model may have finished the step itself
        · cases fix with
          | done =>
            have h : s' = s.did step := h
            subst h
            exact wp_quiet rfl trivial trivial (hs.did step) fun _ => hdone _
          | again instead =>
            have h : s' = s := h
            subst h
            exact wp_quiet rfl trivial trivial hs fun _ => ih

theorem exec_deliverSources {a : Except Exc Unit} (h : exec s .deliverSources a s') :
    s' = s ∨ s' = { s with delivered := true } := by
  cases a with
  | error => exact h
  | ok => exact .inr h

theorem exec_writeProgress {p : Progress K} {a : Except Exc Unit} (h : exec s (.writeProgress p) a s') :
    s' = s ∨ s' = s.marked none ∨ s' = s.marked (some p) := by
  cases a with
  | error => exact h
  | ok => exact .inr (.inr h)

/-- The marker is written. -/
theorem wp_writeProgress {α : Type} {n : ℕ} {cwd : String} {f : Unit → Method K α} {Q : α → State K → Prop}
    (hs : Inv sha1 job s) (hran : Ran (steps.take n) s) (hn : n ≤ steps.length)
    (hf : Inv sha1 job (s.marked (some (mark sha1 n steps cwd))) →
      Wp sha1 job (f ()) Q (s.marked (some (mark sha1 n steps cwd)))) :
    Wp sha1 job (Program.attempt (F := sig K) (.writeProgress (mark sha1 n steps cwd)) rfl >>= f) Q s := by
  refine wp_cmd rfl trivial (fun a s' h => ?_) fun _ s' h => ?_
  -- a write that raises leaves the old marker, none, or the new one
  · obtain rfl | rfl | rfl := exec_writeProgress h
    · exact hs
    · exact hs.marked_none
    · exact hs.marked hran hn
  · have h : s' = s.marked (some (mark sha1 n steps cwd)) := h
    subst h
    exact hf (hs.marked hran hn)

/-- The sources are delivered, if they have to be. -/
theorem wp_deliver {α : Type} {b : Bool} {f : Unit → Method K α} {Q : α → State K → Prop} (hs : Inv sha1 job s)
    (hf : ∀ s', Inv sha1 job s' → s'.tree = s.tree → s'.stale = s.stale → s'.delivered = (s.delivered || b) →
      Wp sha1 job (f ()) Q s') :
    Wp sha1 job (perhaps b (Program.attempt (F := sig K) .deliverSources rfl) >>= f) Q s := by
  refine wp_perhaps (P := fun s' => Inv sha1 job s' ∧ s'.tree = s.tree ∧ s'.stale = s.stale ∧
    s'.delivered = (s.delivered || b)) (fun hb => ?_) (fun hb => ?_) fun s' h => hf s' h.1 h.2.1 h.2.2.1 h.2.2.2
  · refine wp_last rfl trivial (fun a s' h => ?_) fun _ s' h => ?_
    · obtain rfl | rfl := exec_deliverSources h
      · exact hs
      · exact hs.delivered
    · have h : s' = { s with delivered := true } := h
      subst h
      exact ⟨hs.delivered, rfl, rfl, by simp [hb]⟩
  · exact ⟨hs, rfl, rfl, by simp [hb]⟩

/-- **The loop**: behind the `n`th step, all before it have been done. -/
theorem wp_stepsFrom {resume : ℕ} {rest : List Step} {n repairs : ℕ}
    {delivered : Bool} {cwd : String} (hrest : steps.drop n = rest) (hs : Inv sha1 job s)
    (hran : Ran (steps.take (max n resume)) s)
    (hdelivered : job.wgetAt.isSome = true → delivered = true → s.delivered = true) :
    Wp sha1 job (stepsFrom sha1 job.wgetAt steps resume n rest delivered repairs cwd)
      (fun r s' => Inv sha1 job s' ∧
        ∀ d, r = some d → job.wgetAt.isSome = true → d = true → s'.delivered = true) s := by
  induction rest generalizing n s delivered repairs cwd with
  | nil =>
    refine ⟨hs, fun d hd hw hdone => ?_⟩
    cases hd
    exact hdelivered hw hdone
  | cons step rest ih =>
    have hn : n < steps.length := by
      by_contra hge
      rw [List.drop_of_length_le (by omega)] at hrest
      cases hrest
    have hget : steps[n]? = some step := by
      rw [← List.head?_drop, hrest]
      rfl
    have hnext : steps.drop (n + 1) = rest := by
      rw [← List.tail_drop, hrest]
      rfl
    have htake : steps.take (n + 1) = steps.take n ++ [step] := by
      rw [List.take_add_one, hget]
      rfl
    unfold stepsFrom
    -- steps of the attempt before are passed over
    by_cases hskip : n < resume
    · rw [if_pos hskip]
      refine ih hnext hs ?_ hdelivered
      rwa [Nat.max_eq_right hskip, ← Nat.max_eq_right hskip.le]
    · rw [if_neg hskip]
      rw [Nat.max_eq_left (not_lt.mp hskip)] at hran
      refine wp_deliver hs fun s' hs' htree hstale hdel => ?_
      have hran' : Ran (steps.take n) s' := hran.of_tree htree
      -- the flag is true only behind a delivery
      have hdelivered' (hw : job.wgetAt.isSome = true)
          (h : (delivered || !delivered && beyond job.wgetAt step) = true) : s'.delivered = true := by
        rw [hdel]
        cases hd : delivered with
        | true => simp [hdelivered hw hd]
        | false =>
          have hbeyond : beyond job.wgetAt step = true := by simpa [hd] using h
          simp [hbeyond]
      split
      · next homitted =>
        refine ih hnext hs' ?_ hdelivered'
        rw [Nat.max_eq_left (by omega), htake]
        exact ran_omitted hran' homitted
      · have hsources (hw : job.wgetAt.isSome = true) (hbeyond : beyond job.wgetAt step = true) :
            s'.delivered = true := hdelivered' hw (by rw [hbeyond]; cases delivered <;> rfl)
        refine Program.wp_after (wp_tries hs' hran' hsources) fun r s'' hr => ?_
        obtain ⟨hs'', hdone⟩ := hr
        cases r with
        | none => exact ⟨hs'', fun d hd => by cases hd⟩
        -- the step has been done, and the marker says so before the next one
        | some r =>
          obtain ⟨-, hdel'', hran''⟩ := hdone rfl
          rw [← htake] at hran''
          refine wp_writeProgress hs'' hran'' hn fun hs''' => ih hnext hs''' ?_ ?_
          · rw [Nat.max_eq_left (by omega)]
            exact hran''.of_tree rfl
          · intro hw h
            exact hdel''.trans (hdelivered' hw h)

theorem exec_removeProgress {a : Except Exc Unit} (h : exec s .removeProgress a s') :
    s' = s ∨ s' = s.marked none := by
  cases a <;> exact h

theorem exec_removeTree {dir : String} {a : Except Exc Unit} (h : exec s (.removeTree dir) a s') :
    s' = s ∨ s' = { s with tree := none } := by
  cases a <;> exact h

theorem Inv.treeless (hsource : job.source ≠ none) : Inv sha1 job { s with tree := none } :=
  ⟨fun h => absurd h hsource, fun _ h => by cases h⟩

/-- Something that leaves the machine alone. -/
theorem wp_still {β : Type} {c : Cmd K} (hans : c.Ans = Except Exc β) (hc : c.Quiet) (hpromised : Promised job s c)
    (hs : Inv sha1 job s) : Wp sha1 job (Program.attempt (F := sig K) c hans) (fun _ s' => s' = s) s := by
  refine wp_last hans hpromised (fun a s' h => ?_) fun b s' h => exec_quiet hc h
  rw [exec_quiet hc h]
  exact hs

theorem wp_perhaps_still {α : Type} {b : Bool} {p : Method K Unit} {f : Unit → Method K α}
    {Q : α → State K → Prop} (hp : Wp sha1 job p (fun _ s' => s' = s) s) (hf : Wp sha1 job (f ()) Q s) :
    Wp sha1 job (perhaps b p >>= f) Q s := by
  refine wp_perhaps (P := fun s' => s' = s) (fun _ => hp) (fun _ => rfl) fun s' h => ?_
  rw [h]
  exact hf

theorem wp_takeCheckpoint (hs : Inv sha1 job s) :
    Wp sha1 job (takeCheckpoint : Method K Unit) (fun _ s' => s' = s) s :=
  wp_quiet rfl trivial trivial hs fun _ => rfl

/-- **The end of a task.** -/
theorem wp_finish [DecidableEq K] {vm delivered : Bool} {dir : String} (hs : Inv sha1 job s)
    (hdir : job.source = none → dir = "")
    (hdelivered : job.wgetAt.isSome = true → delivered = true → s.delivered = true) :
    Wp sha1 job (finish job vm delivered dir) (fun _ s => Inv sha1 job s) s := by
  refine wp_deliver hs fun s' hs' _ _ hdel => ?_
  have hthere (hw : job.wgetAt.isSome = true) : s'.delivered = true := by
    rw [hdel]
    cases hd : delivered with
    | true => simp [hdelivered hw hd]
    | false => simp
  refine wp_perhaps_still (wp_quiet rfl trivial trivial hs' fun _ => wp_still rfl trivial trivial hs') ?_
  refine wp_perhaps_still (wp_still rfl trivial trivial hs') ?_
  -- from here on only the sources matter
  refine wp_cmd rfl trivial (fun a s'' h => ?_) fun _ s'' h => ?_
  · obtain rfl | rfl := exec_removeProgress h
    · exact hs'
    · exact hs'.marked_none
  have hs'' : Inv sha1 job s'' ∧ s''.delivered = s'.delivered := by
    obtain rfl | rfl := exec_removeProgress h
    · exact ⟨hs', rfl⟩
    · exact ⟨hs'.marked_none, rfl⟩
  refine wp_perhaps (P := fun t => Inv sha1 job t ∧ t.delivered = s'.delivered) (fun hb => ?_) (fun _ => hs'') ?_
  · have hsource : job.source ≠ none := fun h => by simp [hdir h] at hb
    refine wp_last rfl trivial (fun a t ht => ?_) fun _ t ht => ?_
    · obtain rfl | rfl := exec_removeTree ht
      · exact hs''.1
      · exact .treeless hsource
    · obtain rfl | rfl := exec_removeTree ht
      · exact hs''
      · exact ⟨.treeless hsource, hs''.2⟩
  · rintro t ⟨ht, hdel'⟩
    refine wp_quiet rfl trivial (fun hw _ => ?_) ht fun _ => wp_perhaps_still (wp_takeCheckpoint ht) ht
    rw [hdel']
    exact hthere hw

/-- What is known of the marker before the plan is made. -/
def Known (sha1 : Fingerprint → K) (job : Job) (progress : Option (Progress K)) (s : State K) : Prop :=
  Inv sha1 job s ∧ s.tree.isSome = true ∧ (isLive progress = true → progress = s.progress ∧ Settled job s)

theorem exec_unpack {src dir : String} {a : Except Exc Bool} (h : exec s (.unpack src dir) a s') :
    (a = .ok true ∧ s' = s.unpacked (some [])) ∨ ∃ tree, s' = s.unpacked tree := by
  cases a with
  | error =>
    obtain ⟨tree, -, h⟩ := h
    exact .inr ⟨tree, h⟩
  | ok b =>
    cases b with
    | true => exact .inl ⟨rfl, h⟩
    | false =>
      obtain ⟨tree, -, h⟩ := h
      exact .inr ⟨tree, h⟩

theorem wp_unpack {src dir : String} (hsource : job.source ≠ none) :
    Wp sha1 job (unpack src dir) (fun ok s' => Inv sha1 job s' ∧ (ok = true → s'.tree.isSome = true)) s := by
  refine wp_cmd rfl trivial (fun a s' h => ?_) fun ok s' h => ?_
  · obtain ⟨-, rfl⟩ | ⟨tree, rfl⟩ := exec_unpack h
    · exact .unpacked hsource
    · exact .unpacked hsource
  -- whatever `tar` says, a marker that tells of steps is stale from now on
  · cases ok with
    | true =>
      have h : s' = s.unpacked (some []) := h
      subst h
      exact wp_quiet rfl trivial trivial (.unpacked hsource) fun _ => ⟨.unpacked hsource, fun _ => rfl⟩
    | false =>
      obtain ⟨tree, -, h⟩ := h
      subst h
      exact wp_quiet rfl trivial trivial (.unpacked hsource) fun _ =>
        wp_quiet rfl trivial trivial (.unpacked hsource) fun _ => ⟨.unpacked hsource, fun h => by cases h⟩

/-- The attempt goes on behind the first `resume` steps. -/
theorem wp_goOn [DecidableEq K] {vm : Bool} {resume : ℕ} {dir cwd : String} (hs : Inv sha1 job s)
    (hran : Ran (steps.take resume) s) (hresume : resume ≤ steps.length)
    (hsources : resume ≠ 0 → job.wgetAt.isSome = true → s.delivered = true) (hdir : job.source = none → dir = "") :
    Wp sha1 job (goOn sha1 job vm resume dir cwd steps) (fun _ s => Inv sha1 job s) s := by
  have hdelivered (hw : job.wgetAt.isSome = true) (h : (job.wgetAt.isNone || resume != 0) = true) :
      s.delivered = true := by
    have hnone : job.wgetAt.isNone = false := by simpa [Option.isNone_iff_eq_none, Option.isSome_iff_ne_none] using hw
    rw [hnone, Bool.false_or] at h
    exact hsources (by simpa using h) hw
  -- the marker is written anew before the first step
  refine wp_perhaps_still (wp_still rfl trivial hran hs) (wp_writeProgress hs hran hresume fun hs' => ?_)
  refine Program.wp_after (wp_stepsFrom rfl hs' ?_ hdelivered) fun r s' hr => ?_
  · rw [Nat.zero_max]
    exact hran.of_tree rfl
  · obtain ⟨hs', hend⟩ := hr
    cases r with
    | none => exact hs'
    | some delivered => exact wp_finish hs' hdir (hend delivered rfl)

/-- **What an attempt leaves out has been done.** -/
theorem ran_of_resumePoint [DecidableEq K] (hsha1 : Function.Injective sha1) {progress : Option (Progress K)}
    (h : Known sha1 job progress s) (hresume : resumePoint sha1 progress steps ≠ 0) :
    Ran (steps.take (resumePoint sha1 progress steps)) s ∧ resumePoint sha1 progress steps ≤ steps.length ∧
      Settled job s ∧ isLive s.progress = true := by
  obtain ⟨p, rfl, hdone, heq, hle, hkeys⟩ := live_of_resumePoint hresume
  obtain ⟨hs, htree, hlive⟩ := h
  have hp : isLive (some p) = true := by simp [isLive, hdone]
  obtain ⟨hprogress, hsettled⟩ := hlive hp
  obtain ⟨old, hlength, holdKeys, hran⟩ := hs.agrees hsettled.1 htree p hprogress.symm hdone
  rw [heq]
  refine ⟨hran.congr ?_, hle, hsettled, hprogress ▸ hp⟩
  -- equal keys are equal steps
  have hwhole : (old.map (stepKey sha1)).take p.done = old.map (stepKey sha1) :=
    List.take_of_length_le (by rw [List.length_map, hlength])
  rw [holdKeys, hwhole] at hkeys
  have hmap (l : List Step) : l.map (stepKey sha1) = (l.map fingerprint).map sha1 := by
    rw [List.map_map]
    rfl
  rw [hmap, hmap] at hkeys
  exact List.map_injective_iff.mpr hsha1 hkeys

theorem wp_carryOut [DecidableEq K] (hsha1 : Function.Injective sha1) {vm : Bool} {progress : Option (Progress K)}
    {unpackLater : Bool} {dir cwd : String} (h : Known sha1 job progress s)
    (hlater : unpackLater = true → job.source ≠ none) (hdir : job.source = none → dir = "") :
    Wp sha1 job (carryOut sha1 job vm progress unpackLater dir cwd steps) (fun _ s => Inv sha1 job s) s := by
  have hfresh (s' : State K) (hs' : Inv sha1 job s') (htree : s'.tree.isSome = true) (cwd : String)
      (hzero : resumePoint sha1 progress steps = 0) :
      Wp sha1 job (goOn sha1 job vm (resumePoint sha1 progress steps) dir cwd steps) (fun _ s => Inv sha1 job s) s' := by
    rw [hzero]
    exact wp_goOn hs' (ran_nil htree) (Nat.zero_le _) (fun h => absurd rfl h) hdir
  change Wp sha1 job (if (isLive progress && resumePoint sha1 progress steps == 0) = true then _ else _) _ s
  -- the marker does not fit this plan: the tree is unpacked again
  by_cases hagain : (isLive progress && resumePoint sha1 progress steps == 0) = true
  · rw [if_pos hagain]
    have hzero : resumePoint sha1 progress steps = 0 := by
      rw [Bool.and_eq_true, beq_iff_eq] at hagain
      exact hagain.2
    refine wp_quiet rfl trivial trivial h.1 fun _ => ?_
    refine Program.wp_after (P := fun ok s' => Inv sha1 job s' ∧ (ok = true → s'.tree.isSome = true)) ?_ ?_
    · split
      · next hl => exact wp_unpack (hlater hl)
      · exact ⟨h.1, fun _ => h.2.1⟩
    · rintro ready s' ⟨hs', htree⟩
      split
      · next hr => exact hfresh s' hs' (htree hr) cwd hzero
      · exact hs'
  · rw [if_neg hagain]
    by_cases hzero : resumePoint sha1 progress steps = 0
    · exact hfresh s h.1 h.2.1 _ hzero
    -- it fits, so the tree holds its steps
    · obtain ⟨hran, hle, hsettled, hlive⟩ := ran_of_resumePoint hsha1 h hzero
      exact wp_goOn h.1 hran hle (fun _ hw => hsettled.2 hw hlive) hdir

theorem wp_planned [DecidableEq K] (hsha1 : Function.Injective sha1) {planOnly vm : Bool}
    {progress : Option (Progress K)} {unpackLater : Bool} {dir cwd : String} (h : Known sha1 job progress s)
    (hlater : unpackLater = true → job.source ≠ none) (hdir : job.source = none → dir = "") :
    Wp sha1 job (planned sha1 job planOnly vm progress unpackLater dir cwd) (fun _ s => Inv sha1 job s) s := by
  have hs := h.1
  unfold planned
  -- all commands of the page are skipped, and nothing is run
  by_cases hown : job.ownOnly = true
  · rw [if_pos hown]
    refine wp_quiet rfl trivial trivial hs fun _ => wp_quiet rfl trivial (fun _ hnot => ?_) hs fun _ =>
      wp_perhaps_still (wp_takeCheckpoint hs) hs
    rw [hown] at hnot
    cases hnot
  · rw [if_neg hown]
    refine wp_quiet rfl trivial trivial hs fun first => ?_
    refine Program.wp_after (P := fun _ s' => s' = s) ?_ ?_
    · split
      · exact wp_still rfl trivial trivial hs
      · rfl
    · intro steps s' hs'
      rw [hs']
      split
      · exact wp_stuck hs hs
      · split
        · exact wp_quiet rfl trivial trivial hs fun _ => hs
        · exact wp_carryOut hsha1 h hlater hdir

theorem wp_prepared [DecidableEq K] (hsha1 : Function.Injective sha1) {planOnly vm : Bool} {attempts : ℕ}
    (hs : Inv sha1 job s) (hsettled : Settled job s) :
    Wp sha1 job (prepared sha1 job planOnly vm attempts) (fun _ s => Inv sha1 job s) s := by
  -- a marker that is not read counts as none
  refine Program.wp_after (P := fun p s' => s' = s ∧ (p = none ∨ p = s.progress)) ?_ ?_
  · split
    · refine wp_last rfl trivial (fun a s' h => ?_) fun p s' h => h
      cases a with
      | ok p => exact h.1 ▸ hs
      | error e =>
        have h : s' = s := h
        exact h ▸ hs
    · exact ⟨rfl, .inl rfl⟩
  rintro progress s' ⟨hs', hprogress⟩
  rw [hs']
  have hlive (h : isLive progress = true) : progress = s.progress ∧ Settled job s := by
    obtain rfl | rfl := hprogress
    · cases h
    · exact ⟨rfl, hsettled⟩
  cases hsource : job.source with
  | none => exact wp_planned hsha1 ⟨hs, hs.tree hsource, hlive⟩ (fun h => by cases h) fun _ => rfl
  | some src =>
    have hsome : job.source ≠ none := by simp [hsource]
    refine wp_cmd rfl trivial (fun a t h => ?_) fun top t h => ?_
    · cases a with
      | ok top => exact h.1 ▸ hs
      | error e =>
        have h : t = s := h
        exact h ▸ hs
    rw [h.1]
    refine wp_cmd rfl trivial (fun a t h => ?_) fun there t h => ?_
    · cases a with
      | ok there => exact h.1 ▸ hs
      | error e =>
        have h : t = s := h
        exact h ▸ hs
    obtain ⟨rfl, hthere⟩ := h
    unfold looked
    split
    · next hgo =>
      rw [Bool.and_eq_true] at hgo
      exact wp_planned hsha1 ⟨hs, hthere hgo.2, hlive⟩ (fun _ => hsome) fun h => absurd h hsome
    -- the tree is not there, or no marker tells of steps in it
    · refine Program.wp_after (wp_unpack hsome) fun ok t h => ?_
      split
      · next hok =>
        exact wp_planned hsha1 ⟨h.1, h.2 hok, fun h => by cases h⟩ (fun h => by cases h) fun h => absurd h hsome
      · exact h.1

/-- **An attempt keeps its promises**, if the one before it ended settled. -/
theorem wp_runTask [DecidableEq K] (hsha1 : Function.Injective sha1) {planOnly vm : Bool}
    (hs : Inv sha1 job s) (hsettled : Settled job s) :
    Wp sha1 job (runTask sha1 job planOnly vm) (fun _ s => Inv sha1 job s) s := by
  refine wp_quiet rfl trivial trivial hs fun attempts => wp_quiet rfl trivial trivial hs fun _ =>
    wp_quiet rfl trivial trivial hs fun _ => ?_
  refine Program.wp_after (P := fun _ s' => s' = s) ?_ ?_
  · split
    · exact wp_still rfl trivial trivial hs
    · rfl
  · intro taken s' hs'
    rw [hs']
    split
    · exact wp_quiet rfl trivial trivial hs fun _ => hs
    · exact wp_prepared hsha1 hs hsettled

end

/-! ### Attempts, one after the other -/

/-- A machine that has seen nothing of the task. -/
def State.init (job : Job) : State K := ⟨if job.source.isSome then none else some [], none, false, false⟩

theorem inv_init (sha1 : Fingerprint → K) (job : Job) : Inv sha1 job (State.init job) :=
  ⟨fun h => by simp [State.init, h], fun _ _ p h => by cases h⟩

theorem settled_init (job : Job) : Settled job (State.init job : State K) :=
  ⟨rfl, fun _ h => by cases h⟩

/-- There is an answer to every command. -/
theorem exists_exec (s : State K) (c : Cmd K) : ∃ a s', exec s c a s' := by
  cases c with
  | readProgress => exact ⟨.ok none, s, rfl, .inl rfl⟩
  | topDir => exact ⟨.error .typeError, s, rfl⟩
  | testTree => exact ⟨.ok false, s, rfl, fun h => by cases h⟩
  | unpack => exact ⟨.ok true, _, rfl⟩
  | writeProgress => exact ⟨.ok (), _, rfl⟩
  | deliverSources => exact ⟨.ok (), _, rfl⟩
  | runStep => exact ⟨.error .typeError, s, rfl⟩
  | repair => exact ⟨.error .typeError, s, rfl⟩
  | removeProgress => exact ⟨.ok (), s, .inl rfl⟩
  | removeTree => exact ⟨.ok (), s, .inl rfl⟩
  | _ => exact ⟨.error .typeError, s, rfl⟩

section

variable [DecidableEq K] {sha1 : Fingerprint → K} {job : Job} {x : Config (sig K) Exc Bool Unit (State K)}

/-- An attempt starts with any options; it stops, by itself or not, where the machine is settled. -/
def Admitted (sha1 : Fingerprint → K) (job : Job) (x : Config (sig K) Exc Bool Unit (State K)) :
    Move (sig K) Exc Bool Unit → Prop
  | .start _ p => ∃ planOnly vm, p = runTask sha1 job planOnly vm
  | .call .. => True
  | .finish .. | .kill _ => Settled job x.shared

/-- The proof of all attempts. -/
def outline (hsha1 : Function.Injective sha1) (job : Job) :
    Outline (fun _ => exec) fun x m => Admitted sha1 job x m ∧ Inv sha1 job x.shared where
  rely _ := Eq
  guar _ := Guar sha1 job
  idle _ s := Inv sha1 job s ∧ Settled job s
  post _ _ s := Inv sha1 job s
  fail _ _ s := Inv sha1 job s
  sem _ := exec
  sem_of_ok _ _ _ _ _ _ h := h
  rely_refl _ _ := rfl
  rely_trans _ _ _ _ h h' := h.trans h'
  rely_of_guar i j h := absurd (Subsingleton.elim j i) h
  idle_stable _ _ _ h := h ▸ id
  post_stable _ _ _ _ h := h ▸ id
  fail_stable _ _ _ _ h := h ▸ id
  start := by
    rintro x i p ⟨⟨planOnly, vm, rfl⟩, -⟩ ⟨hs, hsettled⟩
    exact wp_runTask hsha1 hs hsettled
  ret _ _ _ h hs := ⟨hs, h.1⟩
  raise _ _ _ h hs := ⟨hs, h.1⟩
  kill _ _ _ h _ _ := ⟨h.2, h.1⟩

/-- **Where attempts end settled, every command keeps its promise.** -/
theorem promised_of_reaches (hsha1 : Function.Injective sha1)
    (h : Reaches (fun _ => exec) (Admitted sha1 job) (.idle (State.init job)) x) {c : Cmd K}
    (hc : x.next () = some c) : Promised job x.shared c := by
  obtain ⟨hv, hs⟩ := Outline.invariant_of_kept (outline hsha1 job) (fun _ _ _ _ _ h _ => h.2) h
    (fun _ => ⟨inv_init sha1 job, settled_init job⟩) (inv_init sha1 job)
  obtain ⟨k, ht⟩ := Config.thread_of_next hc
  -- the guarantee of a command holds of any answer to it
  obtain ⟨a, s', ha⟩ := exists_exec x.shared c
  exact ((outline hsha1 job).guar_of_call hv ht ⟨trivial, hs⟩ ha).1.1

/-- **The steps that an attempt leaves out have been done, in order, in the tree.** -/
theorem resumed_after_run (hsha1 : Function.Injective sha1)
    (h : Reaches (fun _ => exec) (Admitted sha1 job) (.idle (State.init job)) x) {r : ℕ} {steps : List Step}
    (hnext : x.next () = some (.resumed r steps)) : Ran (steps.take r) x.shared :=
  promised_of_reaches hsha1 h hnext

omit [DecidableEq K] in
theorem beyond_of_book {w : ℕ} {step : Step} (h : ∀ b ∈ step.book, w < b) : beyond (some w) step = true := by
  cases hbook : step.book with
  | none => simp [beyond, hbook]
  | some b => simpa [beyond, hbook] using h b hbook

end

/-! ### What happens else -/

section

variable [DecidableEq K] {sha1 : Fingerprint → K} {job : Job} {s s' : State K}

/-- Any attempt, ended anywhere. -/
def Attempts (sha1 : Fingerprint → K) (job : Job) (_ : Config (sig K) Exc Bool Unit (State K)) :
    Move (sig K) Exc Bool Unit → Prop
  | .start _ p => ∃ planOnly vm, p = runTask sha1 job planOnly vm
  | _ => True

/-- Where the thread is, behind these starts and ends of attempts. -/
def At (sha1 : Fingerprint → K) (job : Job) (s₀ : State K) (acts : List (Move (sig K) Exc Bool Unit)) (s : State K)
    (p : Method K Bool) : Prop :=
  ∃ y, Performs (fun _ => exec) (Attempts sha1 job) (.idle s₀) acts y ∧ y.shared = s ∧ y.thread () = some p

variable {s₀ : State K} {acts : List (Move (sig K) Exc Bool Unit)}

theorem cast_cast {A B : Type} (h : A = B) (b : B) : (h ▸ (h.symm ▸ b : A) : B) = b := by
  subst h
  rfl

theorem At.cmd {β : Type} {c : Cmd K} {hans : c.Ans = Except Exc β} {f : β → Method K Bool}
    (h : At sha1 job s₀ acts s (Program.attempt (F := sig K) c hans >>= f)) {b : β}
    (hexec : exec s c (hans.symm ▸ .ok b) s') : At sha1 job s₀ acts s' (f b) := by
  obtain ⟨y, hacts, rfl, ht⟩ := h
  refine ⟨_, hacts.call trivial (.call ht hexec), rfl, ?_⟩
  rw [Config.set_thread_self]
  exact congrArg (fun r : Except Exc β => some (Program.lift r >>= f)) (cast_cast hans (.ok b))

theorem At.quiet {β : Type} {c : Cmd K} {hans : c.Ans = Except Exc β} {f : β → Method K Bool}
    (h : At sha1 job s₀ acts s (Program.attempt (F := sig K) c hans >>= f)) (hc : c.Quiet) (b : β) :
    At sha1 job s₀ acts s (f b) := h.cmd (exec_of_quiet hc _)

variable (sha1 job) in
/-- The start of an attempt. -/
def begun (planOnly vm : Bool) : Move (sig K) Exc Bool Unit := .start () (runTask sha1 job planOnly vm)

/-- An attempt has ended, and the next one starts. -/
theorem At.again {b : Bool} (planOnly vm : Bool) (h : At sha1 job s₀ acts s (pure b)) :
    At sha1 job s₀ (acts ++ [.finish () (.ok b)] ++ [begun sha1 job planOnly vm]) s (runTask sha1 job planOnly vm) := by
  obtain ⟨y, hacts, rfl, ht⟩ := h
  have hend := hacts.move (m := .finish () (.ok b)) trivial (.ret ht)
  exact ⟨_, hend.move (m := begun sha1 job planOnly vm) ⟨planOnly, vm, rfl⟩ (.start (Config.set_thread_self ..)), rfl,
    Config.set_thread_self ..⟩

theorem at_start (planOnly vm : Bool) :
    At sha1 job s₀ [begun sha1 job planOnly vm] s₀ (runTask sha1 job planOnly vm) :=
  ⟨_, .move (m := begun sha1 job planOnly vm) .refl ⟨planOnly, vm, rfl⟩ (.start rfl), rfl, Config.set_thread_self ..⟩

/-- An attempt that is not the first takes no checkpoint before. -/
theorem At.prepared {planOnly vm : Bool} (h : At sha1 job s₀ acts s (runTask sha1 job planOnly vm)) :
    At sha1 job s₀ acts s (prepared sha1 job planOnly vm 2) := by
  have hno : (job.checkpointBefore && decide (2 ≤ 1) && !planOnly && vm) = false := by simp
  have h := ((h.quiet trivial 2).quiet trivial ()).quiet trivial ()
  change At sha1 job s₀ acts s ((if (job.checkpointBefore && decide (2 ≤ 1) && !planOnly && vm) = true then
    Program.attempt (F := sig K) .checkpoint rfl else pure true) >>= fun taken => _) at h
  rw [if_neg (by rw [hno]; exact Bool.false_ne_true)] at h
  exact h

/-- A plan is made at the first try. -/
theorem At.planned {planOnly vm unpackLater : Bool} {progress : Option (Progress K)} {dir cwd : String}
    {steps : List Step} (hown : job.ownOnly = false) (hne : steps.isEmpty = false)
    (h : At sha1 job s₀ acts s (planned sha1 job planOnly vm progress unpackLater dir cwd)) :
    At sha1 job s₀ acts s (if planOnly then setState .waiting >>= fun _ => pure true
      else carryOut sha1 job vm progress unpackLater dir cwd steps) := by
  unfold LfsResume.planned at h
  rw [if_neg (by rw [hown]; exact Bool.false_ne_true)] at h
  have h := h.quiet trivial steps
  rw [if_neg (by rw [hne]; exact Bool.false_ne_true)] at h
  change At sha1 job s₀ acts s (if steps.isEmpty = true then _ else if planOnly then _ else _) at h
  rw [if_neg (by rw [hne]; exact Bool.false_ne_true)] at h
  exact h

/-- The tree is unpacked. -/
theorem At.unpacked {src dir : String} {f : Bool → Method K Bool} (h : At sha1 job s₀ acts s (unpack src dir >>= f)) :
    At sha1 job s₀ acts (s.unpacked (some [])) (f true) := by
  obtain ⟨y, hacts, rfl, ht⟩ := h
  have hexec : exec y.shared (.unpack src dir) (.ok true) (y.shared.unpacked (some [])) := rfl
  have hcall := hacts.call trivial (.call ht hexec)
  have hnote := hcall.call (F := sig K) (c := .journal) (a := .ok ()) trivial (.call (Config.set_thread_self ..) rfl)
  exact ⟨_, hnote, rfl, Config.set_thread_self ..⟩

theorem strip_pkg : strip "pkg" ≠ "" := by decide

/-- A tarball is looked at. -/
theorem At.looked {planOnly vm there : Bool} {progress : Option (Progress K)} {src : String}
    (hsource : job.source = some src) (hprogress : progress = if planOnly then none else s.progress)
    (hthere : there = true → s.tree.isSome = true)
    (h : At sha1 job s₀ acts s (LfsResume.prepared sha1 job planOnly vm 2)) :
    At sha1 job s₀ acts s (LfsResume.looked sha1 job planOnly vm progress src (strip "pkg") there) := by
  unfold LfsResume.prepared at h
  rw [hsource] at h
  have h : At sha1 job s₀ acts s (Program.attempt (F := sig K) (.topDir src) rfl >>= fun top =>
      Program.attempt (F := sig K) (.testTree (strip top)) rfl >>= fun there =>
        LfsResume.looked sha1 job planOnly vm progress src (strip top) there) := by
    cases planOnly with
    | true =>
      rw [if_neg (by simp)] at h
      rw [hprogress]
      exact h
    | false =>
      rw [if_pos (by simp)] at h
      rw [hprogress]
      exact h.cmd (b := s.progress) ⟨rfl, .inr rfl⟩
  exact (h.cmd (b := "pkg") ⟨rfl, strip_pkg⟩).cmd (b := there) ⟨rfl, hthere⟩

theorem resumePoint_mark {steps : List Step} {r : ℕ} {cwd : String} (hr : r ≠ 0) (hle : r ≤ steps.length) :
    resumePoint sha1 (some (mark sha1 r steps cwd)) steps = r := by
  have hbounds : ¬(r = 0 ∨ steps.length < r ∨ ((steps.take r).map (stepKey sha1)).length < r) := by
    simp [hr, hle]
  have hkeys : (steps.take r).map (stepKey sha1) = ((steps.take r).map (stepKey sha1)).take r :=
    (List.take_of_length_le (by rw [List.length_map]; exact List.length_take_le ..)).symm
  exact (if_neg hbounds).trans (if_pos hkeys)

/-- An attempt that plans the steps of the marker goes on behind them. -/
theorem At.goesOn {vm unpackLater : Bool} {dir cwd home : String} {steps : List Step} {r : ℕ}
    (hown : job.ownOnly = false) (hr : r ≠ 0) (hle : r ≤ steps.length)
    (h : At sha1 job s₀ acts s (LfsResume.planned sha1 job false vm (some (mark sha1 r steps cwd)) unpackLater dir home)) :
    ∃ f : Unit → Method K Bool,
      (∀ u, f u = Program.attempt (F := sig K) (.writeProgress (mark sha1 r steps
          (cwdOf (some (mark sha1 r steps cwd)) r home))) rfl >>= fun _ =>
        stepsFrom sha1 job.wgetAt steps r 0 steps (job.wgetAt.isNone || r != 0) 0
          (cwdOf (some (mark sha1 r steps cwd)) r home) >>= fun end? => match end? with
          | none => pure false
          | some delivered => finish job vm delivered dir) ∧
      At sha1 job s₀ acts s (Program.attempt (F := sig K) (.resumed r steps) rfl >>= f) := by
  have hne : steps.isEmpty = false := by
    cases steps with
    | nil => exact absurd (Nat.le_zero.mp hle) hr
    | cons => rfl
  have hpoint : resumePoint sha1 (some (mark sha1 r steps cwd)) steps = r := resumePoint_mark hr hle
  have hgo : (r != 0) = true := by simp [hr]
  have h : At sha1 job s₀ acts s (if (isLive (some (mark sha1 r steps cwd)) &&
      resumePoint sha1 (some (mark sha1 r steps cwd)) steps == 0) = true then _
    else goOn sha1 job vm (resumePoint sha1 (some (mark sha1 r steps cwd)) steps) dir
      (cwdOf (some (mark sha1 r steps cwd)) (resumePoint sha1 (some (mark sha1 r steps cwd)) steps) home) steps) :=
    h.planned hown hne
  rw [if_neg (by rw [hpoint]; simp [hr]), hpoint] at h
  unfold goOn perhaps at h
  rw [if_pos hgo] at h
  exact ⟨_, fun _ => rfl, h⟩

/-- **An attempt that only plans makes the next one leave out what was never done**: it unpacks the tree
anew, and lets the marker be. -/
theorem resumed_unrun {src cwd : String} {steps : List Step} {r : ℕ} (hsource : job.source = some src)
    (hown : job.ownOnly = false) (hr : r ≠ 0) (hle : r ≤ steps.length)
    (hprogress : s₀.progress = some (mark sha1 r steps cwd)) (vm vm' : Bool) :
    ∃ x, Performs (fun _ => exec) (Attempts sha1 job) (.idle s₀)
        [.start () (runTask sha1 job true vm), .finish () (.ok true), .start () (runTask sha1 job false vm')] x ∧
      x.next () = some (.resumed r steps) ∧ x.shared.tree = some [] := by
  have hne : steps.isEmpty = false := by
    cases steps with
    | nil => exact absurd (Nat.le_zero.mp hle) hr
    | cons => rfl
  have hlive : isLive (some (mark sha1 r steps cwd)) = true := by simp [isLive, mark, hr]
  have hplans : At sha1 job s₀ _ s₀ (looked sha1 job true vm none src (strip "pkg") false) :=
    (at_start true vm).prepared.looked hsource rfl (fun h => by cases h)
  have hunpacked : At sha1 job s₀ _ (s₀.unpacked (some [])) (pure true) :=
    (hplans.unpacked.planned hown hne).quiet trivial ()
  have hgoes : At sha1 job s₀ _ (s₀.unpacked (some []))
      (looked sha1 job false vm' (some (mark sha1 r steps cwd)) src (strip "pkg") true) :=
    (hunpacked.again false vm').prepared.looked hsource hprogress.symm fun _ => rfl
  unfold LfsResume.looked at hgoes
  rw [if_pos (by rw [hlive]; rfl)] at hgoes
  obtain ⟨f, -, y, hacts, hshared, ht⟩ := hgoes.goesOn hown hr hle
  refine ⟨y, hacts, ?_, by rw [hshared]; rfl⟩
  unfold Config.next
  rw [ht]
  rfl

omit [DecidableEq K] in
/-- The steps that an attempt leaves out. -/
theorem stepsFrom_skip {wgetAt : Option ℕ} {steps : List Step} {resume repairs : ℕ} {delivered : Bool} {cwd : String}
    (hle : resume ≤ steps.length) {n : ℕ} (hn : n ≤ resume) :
    stepsFrom sha1 wgetAt steps resume n (steps.drop n) delivered repairs cwd =
      stepsFrom sha1 wgetAt steps resume resume (steps.drop resume) delivered repairs cwd := by
  induction hd : resume - n generalizing n with
  | zero => rw [show n = resume by omega]
  | succ d ih =>
    have hlt : n < resume := by omega
    rw [List.drop_eq_getElem_cons (by omega), stepsFrom, if_pos hlt]
    exact ih (by omega) (by omega)

end

/-! ### A package, and the sources -/

/-- A step of the book. -/
def bookStep (book : ℕ) (run : String) : Step := ⟨some book, run, none, "", false, false, none⟩

theorem numbered_nil : ([] : List Command).Pairwise fun c d => c.index < d.index := List.Pairwise.nil

def package : Job where
  context := .chroot
  commands := []
  numbered := numbered_nil
  number := "8.99"
  source := some "pkg-1.0.tar.xz"
  checkpointBefore := false
  checkpointAfter := false

def packagePlan : List Step := [bookStep 0 "./configure", bookStep 1 "make"]

def sourcesCommands : List Command :=
  [⟨0, "mkdir -v $LFS/sources", true, false⟩, ⟨1, "wget --input-file=wget-list", false, true⟩,
    ⟨2, "md5sum -c md5sums", false, false⟩]

theorem numbered_sourcesCommands : sourcesCommands.Pairwise fun c d => c.index < d.index := by
  simp [sourcesCommands]

/-- Section 3.1. -/
def sources : Job where
  context := .hostRoot
  commands := sourcesCommands
  numbered := numbered_sourcesCommands
  number := "3.1"
  source := none
  checkpointBefore := false
  checkpointAfter := false

def sourcesPlan : List Step := [bookStep 0 "mkdir -v $LFS/sources", bookStep 2 "md5sum -c md5sums"]

/-- A machine on which all steps but the first break the connection. -/
def breaking (plan : List Step) (s : State Fingerprint) : (c : Cmd Fingerprint) → Option (c.Ans × State Fingerprint)
  | .getTask => some (.ok 2, s)
  | .setState _ | .ensureMounts | .journal => some (.ok (), s)
  | .readProgress => some (.ok s.progress, s)
  | .topDir _ => some (.ok "pkg", s)
  | .testTree _ => some (.ok s.tree.isSome, s)
  | .unpack .. => some (.ok true, s.unpacked (some []))
  | .plan => some (.ok plan, s)
  | .writeProgress p => some (.ok (), s.marked (some p))
  | .deliverSources => some (.ok (), { s with delivered := true })
  | .runStep _ step _ _ => if step.book = some 0 then some (.ok ⟨true, []⟩, s.did step) else some (.error .typeError, s)
  | _ => none

theorem exec_breaking {plan : List Step} {s s' : State Fingerprint} {c : Cmd Fingerprint} {a : c.Ans}
    (h : breaking plan s c = some (a, s')) : exec s c a s' := by
  cases c with
  | readProgress => cases h; exact ⟨rfl, .inr rfl⟩
  | topDir => cases h; exact ⟨rfl, strip_pkg⟩
  | testTree => cases h; exact ⟨rfl, id⟩
  | runStep n step run cwd =>
    simp only [breaking] at h
    split at h
    · cases h; rfl
    · cases h; rfl
  | _ => cases h <;> rfl

/-- The machine is settled. -/
def isSettled (job : Job) (s : State Fingerprint) : Bool :=
  !s.stale && (job.wgetAt.isNone || !isLive s.progress || s.delivered)

theorem settled_of_isSettled {job : Job} {s : State Fingerprint} (h : isSettled job s = true) : Settled job s := by
  unfold isSettled at h
  refine ⟨by simp_all, fun hw hlive => ?_⟩
  have hnone : job.wgetAt.isNone = false := by simpa [Option.isNone_iff_eq_none, Option.isSome_iff_ne_none] using hw
  simp_all

/-- An attempt, for some commands. -/
def attemptTurns (job : Job) (n : ℕ) : List (Turn (sig Fingerprint) Exc Bool Unit) :=
  .start () (runTask id job false false) :: List.replicate n (.go ())

/-- Attempts on that machine, as long as it is settled. -/
def played (job : Job) (plan : List Step) (turns : List (Turn (sig Fingerprint) Exc Bool Unit)) :
    Option (Config (sig Fingerprint) Exc Bool Unit (State Fingerprint)) :=
  Config.playIf (fun _ => breaking plan) (fun x _ => isSettled job x.shared) turns (.idle (State.init job))

theorem reaches_of_played {job : Job} {plan : List Step} {turns : List (Turn (sig Fingerprint) Exc Bool Unit)}
    (hturns : ∀ i p, Turn.start i p ∈ turns → p = runTask id job false false)
    {x : Config (sig Fingerprint) Exc Bool Unit (State Fingerprint)} (h : played job plan turns = some x) :
    Reaches (fun _ => exec) (Admitted id job) (.idle (State.init job)) x :=
  reaches_of_playIf (fun _ _ _ _ _ _ h => ⟨exec_breaking h, trivial⟩)
    (fun _ _ _ hcheck => settled_of_isSettled hcheck)
    (fun i p hp _ _ => ⟨false, false, hturns i p hp⟩) h

theorem resumed_package : ∃ x : Config (sig Fingerprint) Exc Bool Unit (State Fingerprint),
    x.next () = some (.resumed 1 packagePlan) ∧ Ran [bookStep 0 "./configure"] x.shared := by
  have hplayed : (played package packagePlan (attemptTurns package 17 ++ attemptTurns package 7)).bind (·.next ()) =
      some (.resumed 1 packagePlan) := rfl
  obtain ⟨x, hx, hnext⟩ := Option.bind_eq_some_iff.mp hplayed
  have hreaches : Reaches (fun _ => exec) (Admitted id package) (.idle (State.init package)) x :=
    reaches_of_played (by simp [attemptTurns]) hx
  exact ⟨x, hnext, resumed_after_run Function.injective_id hreaches hnext⟩

theorem resumed_unrun_package : ∃ x, Performs (fun _ => exec) (Attempts id package)
    (.idle ⟨some [bookStep 0 "./configure"], some (mark id 1 packagePlan ""), false, false⟩)
    [.start () (runTask id package true false), .finish () (.ok true), .start () (runTask id package false false)] x ∧
      x.next () = some (.resumed 1 packagePlan) ∧ x.shared.tree = some [] :=
  resumed_unrun rfl rfl (by decide) (by decide) rfl false false

/-- The directory is there already. -/
def shortPlan : List Step := [{ bookStep 0 "" with omitted := true }, bookStep 2 "md5sum -c md5sums"]

end LfsResume
end CloudCore
