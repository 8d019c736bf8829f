import CloudCore.Lfs.WorkerGuards
import Mathlib.Logic.Relation

/-!
# The steps of a task

The loop of `run_task` in `lfs_worker.py`: each step of the plan is run until it succeeds, with
repairs by the model between the tries.  What the machine answers and what the model replies are
parameters.

## Main definitions

* `World` — the answers of the machine and the replies of the model.
* `turn`, `run` — one try of a step, and the loop.
* `Round` — a repair that the model was asked for, with what the guards left of it.

## Main results

* `run_ends` — the loop ends.
* `Counted.turn` — what one try does to the counters.
* `repairs_guarded` — **a task has at most four rounds, and a step two; and what runs as a careful
  repair is fit to run.**
-/

namespace CloudCore
namespace LfsWorker

open Python

/-! ### Answers and replies -/

/-- What a command on the machine gave: the directories are those that it ended in. -/
structure Outcome where
  code : ℤ
  tail : String
  dirs : List String

/-- The answers for a step and a try; a reply of the model is what `_json_reply` finds in it. -/
structure World where
  outcome : ℕ → ℕ → Outcome
  outputVerdict : ℕ → ℕ → Option Json
  testVerdict : ℕ → ℕ → Option Json
  fix : ℕ → ℕ → Option Json
  isDir : ℕ → ℕ → String → Bool

/-- What the loop asks of the texts, and `str` of a value that is no text. -/
structure Readings where
  /-- Whether a character beyond ASCII is one of a word. -/
  letter : Char → Bool
  /-- `_nothing_found`. -/
  nothingFound : String → ℤ → String → Bool
  /-- `_REPORTED_PROBLEM.search`. -/
  reported : String → Bool
  /-- `_CHECK.search`. -/
  isCheck : String → Bool
  /-- The search for `File exists`, `already exists` and `already mounted`. -/
  exists? : String → Bool
  /-- The directories that a command makes. -/
  mkdirs : String → List String
  str : Json → String

/-- `reply.get(key)`. -/
def replied (reply : Option Json) (key : String) : Json := ((reply.bind (·.get? key))).getD .null

/-- `str(value)`. -/
def Readings.text (r : Readings) : Json → String
  | .str s => s
  | value => r.str value

/-- `str(value or "")`. -/
def Readings.textOr (r : Readings) (value : Json) : String :=
  if value.truthy then r.text value else ""

/-- The commands to run first. -/
def firstCommands (r : Readings) (reply : Option Json) : Except Exc String :=
  let commands := replied reply "commands"
  if commands.truthy then
    match commands.iter with
    | some items => .ok ("\n".intercalate ((items.map r.text).filter fun c => strip c ≠ ""))
    | none => .error .typeError
  else .ok ""

/-- The repair that a reply proposes. -/
def proposed (r : Readings) (reply : Option Json) : Except Exc Fix := do
  let before ← firstCommands r reply
  let instead :=
    if (replied reply "then").eq (.str "run this instead") then r.textOr (replied reply "instead")
    else ""
  return ⟨before, instead⟩

/-- The model says that there is nothing to repair. -/
def saysDone (reply : Option Json) (f : Fix) : Bool :=
  (replied reply "then").eq (.str "the step's work is already done") && f.before == ""

/-! ### The loop -/

/-- A round: the step, its working directory, and the repair that ran. -/
structure Round where
  step : ℕ
  cwd : String
  fix : Fix

/-- Where the loop is. -/
structure State where
  /-- The number of the step. -/
  n : ℕ
  attempt : ℕ
  repairs : ℕ
  /-- What runs instead of the step. -/
  instead : Option String
  cwd : String
  rounds : List Round

/-- What one try leads to. -/
inductive Turn where
  | go (s : State)
  | stuck
  | raised
  | finished

def REPAIRS_PER_STEP : ℕ := 2
def REPAIRS_PER_TASK : ℕ := 4

/-- On to the next step, in the directory that the last command ended in. -/
def State.next (s : State) (dirs : List String) : State :=
  { s with n := s.n + 1, attempt := 0, instead := none, cwd := dirs.getLast?.getD s.cwd }

/-- The next try, behind a round. -/
def State.again (s : State) (f : Fix) : State :=
  { s with
    attempt := s.attempt + 1
    repairs := s.repairs + 1
    instead := if f.instead ≠ "" then some f.instead else s.instead
    rounds := s.rounds ++ [⟨s.n, s.cwd, f⟩] }

section

variable (r : Readings) (w : World) (task : Task) (srcdir : String)

/-- The step has done its work, or its failures are acceptable. -/
def succeeded (s : State) (run : String) : Bool :=
  let o := w.outcome s.n s.attempt
  let code := if r.nothingFound run o.code o.tail then 0 else o.code
  let met :=
    code == 0 && (!r.reported o.tail || (replied (w.outputVerdict s.n s.attempt) "ok").truthy)
  met || r.isCheck run && (replied (w.testVerdict s.n s.attempt) "acceptable").truthy

def reallyDone (s : State) (run : String) : Bool :=
  r.exists? (w.outcome s.n s.attempt).tail && (r.mkdirs run).all (w.isDir s.n s.attempt)

/-- A round of repair. -/
def repair (s : State) (step : Step) (run : String) : Except Exc State := do
  let reply := w.fix s.n s.attempt
  let f ← proposed r reply
  if saysDone reply f && reallyDone r w s run then
    .ok ((s.again .none).next (w.outcome s.n s.attempt).dirs)
  else
    let f ← guardFix r.letter task step.book srcdir s.cwd f
    .ok (s.again f)

variable (steps : List Step) (resume : ℕ)

/-- One try of a step. -/
def turn (s : State) : Turn :=
  match steps[s.n]? with
  | none => .finished
  | some step =>
    if s.n < resume ∨ step.omitted then .go (s.next [])
    else
      let run := s.instead.getD step.run
      -- its first line is logged
      if strip run = "" then .raised
      else if succeeded r w s run then .go (s.next (w.outcome s.n s.attempt).dirs)
      else if REPAIRS_PER_STEP < s.attempt + 1 ∨ REPAIRS_PER_TASK < s.repairs + 1 then .stuck
      else
        match repair r w task srcdir s step run with
        | .ok s => .go s
        | .error _ => .raised

/-- The loop, for a number of tries. -/
def run : ℕ → State → Turn
  | 0, s => .go s
  | fuel + 1, s =>
    match turn r w task srcdir steps resume s with
    | .go s => run fuel s
    | t => t

end

/-- Before the first step. -/
def start (cwd : String) : State := ⟨0, 0, 0, none, cwd, []⟩

/-! ### One try -/

section

variable {r : Readings} {w : World} {task : Task} {srcdir : String} {steps : List Step}
  {resume : ℕ} {s s' : State} {step : Step} {text : String}

/-- What a round leads to. -/
theorem repair_eq_ok (h : repair r w task srcdir s step text = .ok s') :
    (∃ dirs, s' = (s.again .none).next dirs) ∨
      ∃ f g, proposed r (w.fix s.n s.attempt) = .ok f ∧
        guardFix r.letter task step.book srcdir s.cwd f = .ok g ∧ s' = s.again g := by
  obtain ⟨f, hf, h⟩ := bind_eq_ok.mp h
  split at h
  · cases h
    exact .inl ⟨_, rfl⟩
  · obtain ⟨g, hg, h⟩ := bind_eq_ok.mp h
    cases h
    exact .inr ⟨f, g, hf, hg, rfl⟩

/-- **What one try leads to**: the next step, with a round or without one, or the next try. -/
theorem turn_eq_go (h : turn r w task srcdir steps resume s = .go s') :
    s.n < steps.length ∧
      ((∃ dirs, s' = s.next dirs) ∨
        s.attempt < REPAIRS_PER_STEP ∧ s.repairs < REPAIRS_PER_TASK ∧
          ((∃ dirs, s' = (s.again .none).next dirs) ∨
            ∃ step f g, steps[s.n]? = some step ∧ proposed r (w.fix s.n s.attempt) = .ok f ∧
              guardFix r.letter task step.book srcdir s.cwd f = .ok g ∧ s' = s.again g)) := by
  unfold turn at h
  cases hstep : steps[s.n]? with
  | none =>
    rw [hstep] at h
    cases h
  | some step =>
    rw [hstep] at h
    refine ⟨(List.getElem?_eq_some_iff.mp hstep).1, ?_⟩
    simp only at h
    split at h
    · cases h
      exact .inl ⟨[], rfl⟩
    · split at h
      · cases h
      · split at h
        · cases h
          exact .inl ⟨_, rfl⟩
        · split at h
          · cases h
          · next hcounts =>
            rw [not_or, not_lt, not_lt] at hcounts
            refine .inr ⟨hcounts.1, hcounts.2, ?_⟩
            split at h
            · next s'' hrepair =>
              cases h
              obtain hdone | ⟨f, g, hf, hg, hs⟩ := repair_eq_ok hrepair
              · exact .inl hdone
              · exact .inr ⟨step, f, g, rfl, hf, hg, hs⟩
            · cases h

/-- A step that fails is repaired and tried again. -/
theorem turn_of_repair (hstep : steps[s.n]? = some step)
    (hruns : ¬ (s.n < resume ∨ step.omitted = true))
    (htext : strip (s.instead.getD step.run) ≠ "")
    (hfails : succeeded r w s (s.instead.getD step.run) = false)
    (hcounts : s.attempt < REPAIRS_PER_STEP ∧ s.repairs < REPAIRS_PER_TASK)
    (hrepair : repair r w task srcdir s step (s.instead.getD step.run) = .ok s') :
    turn r w task srcdir steps resume s = .go s' := by
  have hleft : ¬ (REPAIRS_PER_STEP < s.attempt + 1 ∨ REPAIRS_PER_TASK < s.repairs + 1) := by
    omega
  unfold turn
  rw [hstep]
  simp only
  rw [if_neg hruns, if_neg htext, if_neg (by simp [hfails]), if_neg hleft, hrepair]

/-! ### Counting -/

/-- The rounds of one step. -/
def State.roundsOf (s : State) (n : ℕ) : List Round := s.rounds.filter fun q => q.step == n

/-- The counters count the rounds. -/
structure Counted (s : State) : Prop where
  attempt : s.attempt ≤ REPAIRS_PER_STEP
  repairs : s.repairs ≤ REPAIRS_PER_TASK
  total : s.rounds.length = s.repairs
  current : (s.roundsOf s.n).length = s.attempt
  each : ∀ n, (s.roundsOf n).length ≤ REPAIRS_PER_STEP
  past : ∀ q ∈ s.rounds, q.step ≤ s.n

theorem Counted.start (cwd : String) : Counted (start cwd) :=
  ⟨Nat.zero_le _, Nat.zero_le _, rfl, rfl, fun _ => Nat.zero_le _, nofun⟩

theorem Counted.next (h : Counted s) (dirs : List String) : Counted (s.next dirs) where
  attempt := Nat.zero_le _
  repairs := h.repairs
  total := h.total
  current := by
    have hnone : s.roundsOf (s.n + 1) = [] := by
      rw [State.roundsOf, List.filter_eq_nil_iff]
      intro q hq heq
      have := h.past q hq
      rw [beq_iff_eq] at heq
      omega
    show (s.roundsOf (s.n + 1)).length = 0
    rw [hnone]
    rfl
  each := h.each
  past q hq := (h.past q hq).trans (Nat.le_succ _)

theorem roundsOf_again (s : State) (f : Fix) (n : ℕ) :
    ((s.again f).roundsOf n).length =
      (s.roundsOf n).length + if s.n = n then 1 else 0 := by
  show ((s.rounds ++ [(⟨s.n, s.cwd, f⟩ : Round)]).filter fun q => q.step == n).length = _
  rw [List.filter_append, List.length_append]
  split
  · next hn =>
    subst hn
    rw [List.filter_cons_of_pos (by simp)]
    rfl
  · next hn =>
    rw [List.filter_cons_of_neg (by simpa using hn)]
    rfl

theorem Counted.again (h : Counted s) (hattempt : s.attempt < REPAIRS_PER_STEP)
    (hrepairs : s.repairs < REPAIRS_PER_TASK) (f : Fix) : Counted (s.again f) where
  attempt := hattempt
  repairs := hrepairs
  total := by
    show (s.rounds ++ [_]).length = s.repairs + 1
    rw [List.length_append, h.total]
    rfl
  current := by
    show ((s.again f).roundsOf s.n).length = s.attempt + 1
    rw [roundsOf_again, if_pos rfl, h.current]
  each n := by
    rw [roundsOf_again]
    split
    · next hn =>
      subst hn
      rw [h.current]
      exact hattempt
    · exact h.each n
  past q hq := by
    obtain hq | hq := List.mem_append.mp hq
    · exact h.past q hq
    · rw [List.mem_singleton.mp hq]
      exact le_rfl

/-- A try keeps the count. -/
theorem Counted.turn (h : Counted s) (hturn : turn r w task srcdir steps resume s = .go s') :
    Counted s' := by
  obtain ⟨-, ⟨dirs, rfl⟩ | ⟨hattempt, hrepairs, ⟨dirs, rfl⟩ | ⟨_, _, g, -, -, -, rfl⟩⟩⟩ :=
    turn_eq_go hturn
  · exact h.next dirs
  · exact (h.again hattempt hrepairs .none).next dirs
  · exact h.again hattempt hrepairs g

/-! ### The end -/

/-- A try leads to the next step or counts a round. -/
theorem progress (hturn : turn r w task srcdir steps resume s = .go s') :
    s.n + s.repairs < s'.n + s'.repairs ∧ s'.n ≤ steps.length := by
  obtain ⟨hn, ⟨dirs, rfl⟩ | ⟨-, -, ⟨dirs, rfl⟩ | ⟨_, _, g, -, -, -, rfl⟩⟩⟩ := turn_eq_go hturn
  · exact ⟨by show _ < s.n + 1 + s.repairs; omega, hn⟩
  · exact ⟨by show _ < s.n + 1 + (s.repairs + 1); omega, hn⟩
  · exact ⟨by show _ < s.n + (s.repairs + 1); omega, hn.le⟩

theorem run_progress {fuel : ℕ} (hs : s.n ≤ steps.length) (hc : Counted s)
    (h : run r w task srcdir steps resume fuel s = .go s') :
    s.n + s.repairs + fuel ≤ s'.n + s'.repairs ∧ s'.n ≤ steps.length ∧ Counted s' := by
  induction fuel generalizing s with
  | zero =>
    cases h
    exact ⟨le_rfl, hs, hc⟩
  | succ fuel ih =>
    rw [run] at h
    split at h
    · next s₁ hturn =>
      obtain ⟨hlt, hn⟩ := progress hturn
      obtain ⟨hle, hend⟩ := ih hn (hc.turn hturn) h
      exact ⟨by omega, hend⟩
    · next hnot => exact absurd h (hnot s')

/-- **The loop ends**, after no more tries than there are steps and rounds. -/
theorem run_ends (cwd : String) :
    ¬ ∃ s, run r w task srcdir steps resume (steps.length + REPAIRS_PER_TASK + 1) (start cwd) =
      .go s := by
  rintro ⟨s, h⟩
  obtain ⟨hle, hn, hc⟩ := run_progress (Nat.zero_le _) (.start cwd) h
  have := hc.repairs
  simp only [start] at hle
  omega

end

/-! ### The rounds -/

/-- The number of the last command of the book at a step of the plan or before it. -/
def bookPlace (steps : List Step) (n : ℕ) : Option ℕ :=
  ((steps.take (n + 1)).filterMap Step.book).getLast?

theorem bookPlace_of_book {steps : List Step} {n : ℕ} {step : Step} (hstep : steps[n]? = some step)
    {b : ℕ} (hb : step.book = some b) : bookPlace steps n = some b := by
  obtain ⟨hn, rfl⟩ := List.getElem?_eq_some_iff.mp hstep
  rw [bookPlace, List.take_succ_eq_append_getElem hn, List.filterMap_append,
    List.filterMap_cons_some hb, List.filterMap_nil, List.getLast?_concat]

/-- What runs in a round is fit to run, and what runs instead of a command of the book keeps its
words. -/
def Round.Sound (letter : Char → Bool) (task : Task) (steps : List Step) (srcdir : String)
    (q : Round) : Prop :=
  Each (Fit letter task (bookPlace steps q.step) srcdir q.cwd) q.fix ∧
    ∀ step b, steps[q.step]? = some step → step.book = some b → q.fix.instead ≠ "" →
      (bookLineWords (bookText task b).toList).Sublist (shellWords q.fix.instead.toList)

section

variable (r : Readings) (w : World) (task : Task) (srcdir : String) (steps : List Step)
  (resume : ℕ)

/-- The loop comes from one state to another. -/
def Reaches : State → State → Prop :=
  Relation.ReflTransGen fun s s' => turn r w task srcdir steps resume s = .go s'

/-- The repair that the model proposes next is a careful one. -/
def CarefulAt (s : State) : Prop :=
  ∀ step f, steps[s.n]? = some step → proposed r (w.fix s.n s.attempt) = .ok f →
    Careful task step.book (bookPlace steps s.n) f

/-- The loop comes from one state to another with careful repairs only. -/
def ReachesCarefully : State → State → Prop :=
  Relation.ReflTransGen fun s s' =>
    CarefulAt r w task steps s ∧ turn r w task srcdir steps resume s = .go s'

variable {r w task srcdir steps resume}

/-- A try with a careful repair keeps the rounds sound. -/
theorem sound_turn {s s' : State} (hunhidden : Unhidden r.letter task)
    (hcareful : CarefulAt r w task steps s)
    (hturn : turn r w task srcdir steps resume s = .go s')
    (hs : ∀ q ∈ s.rounds, q.Sound r.letter task steps srcdir) :
    ∀ q ∈ s'.rounds, q.Sound r.letter task steps srcdir := by
  have hagain {g : Fix} (hg : Round.Sound r.letter task steps srcdir ⟨s.n, s.cwd, g⟩) :
      ∀ q ∈ (s.again g).rounds, q.Sound r.letter task steps srcdir := by
    intro q hq
    obtain hq | hq := List.mem_append.mp hq
    · exact hs q hq
    · rw [List.mem_singleton.mp hq]
      exact hg
  obtain ⟨-, ⟨dirs, rfl⟩ | ⟨-, -, ⟨dirs, rfl⟩ | ⟨step, f, g, hstep, hf, hg, rfl⟩⟩⟩ :=
    turn_eq_go hturn
  · exact hs
  · exact hagain ⟨.none, fun _ _ _ _ h => absurd rfl h⟩
  · obtain ⟨hfit, hwords⟩ := guardFix_fit hunhidden (hcareful step f hstep hf)
      (fun b hb => bookPlace_of_book hstep hb) hg
    refine hagain ⟨hfit, fun step' b hstep' hb => hwords b ?_⟩
    rw [hstep] at hstep'
    cases hstep'
    exact hb

/-- **A task ends, with at most four rounds and two for each step; where its repairs are careful
ones and no word of the section hides one that is never used, all that runs as a repair is fit to
run.** -/
theorem repairs_guarded (r : Readings) (w : World) (task : Task) (srcdir : String)
    (steps : List Step) (resume : ℕ) (cwd : String) :
    (∃ fuel, ∀ s, run r w task srcdir steps resume fuel (start cwd) ≠ .go s) ∧
      (∀ s, Reaches r w task srcdir steps resume (start cwd) s →
        s.rounds.length ≤ REPAIRS_PER_TASK ∧
          ∀ n, (s.roundsOf n).length ≤ REPAIRS_PER_STEP) ∧
      (Unhidden r.letter task → ∀ s, ReachesCarefully r w task srcdir steps resume (start cwd) s →
        ∀ q ∈ s.rounds, q.Sound r.letter task steps srcdir) := by
  refine ⟨⟨_, fun s h => run_ends cwd ⟨s, h⟩⟩, fun s hs => ?_, fun hunhidden s hs => ?_⟩
  · have hcounted : Counted s := by
      induction hs with
      | refl => exact .start cwd
      | tail _ hturn ih => exact ih.turn hturn
    exact ⟨hcounted.total.trans_le hcounted.repairs, hcounted.each⟩
  · induction hs with
    | refl => exact nofun
    | tail _ hturn ih => exact sound_turn hunhidden hturn.1 hturn.2 ih

end

/-! ### A repair of an added step -/

/-- Texts in which nothing is found. -/
def plain : Readings where
  letter _ := false
  nothingFound _ _ _ := false
  reported _ := false
  isCheck _ := false
  exists? _ := false
  mkdirs _ := []
  str _ := ""

/-- Every command fails, and the model proposes the same repair each time. -/
def failing (fix : Json) : World where
  outcome _ _ := ⟨1, "", []⟩
  outputVerdict _ _ := none
  testVerdict _ _ := none
  fix _ _ := some fix
  isDir _ _ _ := false

def installFirst : Json :=
  .obj [("cause", .str ""), ("commands", .arr [.str "make install"]),
    ("then", .str "rerun the step")]

/-- What no guard finds fault with runs. -/
theorem repair_of_quiet {r : Readings} {w : World} {task : Task} {srcdir : String} {s : State}
    {step : Step} {text : String} {f : Fix} (hf : proposed r (w.fix s.n s.attempt) = .ok f)
    (hdone : saysDone (w.fix s.n s.attempt) f = false)
    (hquiet : deletesOutside f.text srcdir s.cwd = .ok false)
    (hguard : guardTexts r.letter task step.book f = f) :
    repair r w task srcdir s step text = .ok (s.again f) := by
  have hfix : guardFix r.letter task step.book srcdir s.cwd f = .ok f := by
    rw [guardFix, hquiet]
    exact congrArg Except.ok hguard
  refine bind_eq_ok.mpr ⟨f, hf, ?_⟩
  rw [if_neg (by rw [hdone]; exact Bool.false_ne_true)]
  exact bind_eq_ok.mpr ⟨f, hfix, rfl⟩

def removeFirst : Json :=
  .obj [("cause", .str ""), ("commands", .arr [.str "rm -f /tmp/x"]),
    ("then", .str "rerun the step")]

/-- A careful repair of the first command of the book. -/
theorem repairs_guarded_remove :
    ∃ s, ReachesCarefully plain (failing removeFirst) makeSection "" (bookSteps makeSection) 0
        (start "/mnt/lfs/sources") s ∧
      ∃ q ∈ s.rounds, q.fix.before = "rm -f /tmp/x" ∧
        q.Sound plain.letter makeSection (bookSteps makeSection) "" := by
  have hproposed : proposed plain (some removeFirst) = .ok ⟨"rm -f /tmp/x", ""⟩ := rfl
  have hquiet : deletesOutside (Fix.text ⟨"rm -f /tmp/x", ""⟩) "" "/mnt/lfs/sources" =
      .ok false := by
    rw [deletesOutside_eq (by decide)]
    decide
  have hrepair : repair plain (failing removeFirst) makeSection "" (start "/mnt/lfs/sources")
      ⟨some 0, "make", none, "", false, false, none⟩ "make" =
      .ok ((start "/mnt/lfs/sources").again ⟨"rm -f /tmp/x", ""⟩) :=
    repair_of_quiet hproposed rfl hquiet (by decide)
  have hturn : turn plain (failing removeFirst) makeSection "" (bookSteps makeSection) 0
      (start "/mnt/lfs/sources") = .go ((start "/mnt/lfs/sources").again ⟨"rm -f /tmp/x", ""⟩) :=
    turn_of_repair rfl (by decide) (by decide) rfl
      ⟨by decide, by decide⟩ hrepair
  have hcareful : CarefulAt plain (failing removeFirst) makeSection (bookSteps makeSection)
      (start "/mnt/lfs/sources") := by
    intro step f hstep hf
    cases hstep
    obtain rfl : ⟨"rm -f /tmp/x", ""⟩ = f := Except.ok.inj (hproposed.symm.trans hf)
    exact ⟨nofun, by decide, .inl rfl⟩
  have hreaches : ReachesCarefully plain (failing removeFirst) makeSection ""
      (bookSteps makeSection) 0 (start "/mnt/lfs/sources") _ := .single ⟨hcareful, hturn⟩
  have hunhidden : Unhidden plain.letter makeSection := by
    intro w hw
    have hnone : bookWords plain.letter makeSection = [] := by decide
    rw [hnone] at hw
    cases hw
  exact ⟨_, hreaches, _, List.mem_singleton_self _, rfl,
    (repairs_guarded plain (failing removeFirst) makeSection "" (bookSteps makeSection) 0
      "/mnt/lfs/sources").2.2 hunhidden _ hreaches _ (List.mem_singleton_self _)⟩

def mkdirBuild : Step :=
  { book := none, run := "mkdir build", user := none, why := "", changed := true }

/-- The commands of the book behind a step that the plan adds. -/
def addedFirst : List Step := mkdirBuild :: bookSteps makeSection

/-- The repair of a step that was added runs the last command of the book before the first. -/
theorem added_runs_later :
    ∃ s, Reaches plain (failing installFirst) makeSection "" addedFirst 0
        (start "/mnt/lfs/sources") s ∧
      ∃ q ∈ s.rounds, q.step = 0 ∧ q.fix.before = "make install" ∧
        ∃ c ∈ laterCommands makeSection (bookPlace addedFirst 0),
          norm c.text <:+: norm q.fix.before := by
  have hquiet : deletesOutside (Fix.text ⟨"make install", ""⟩) "" "/mnt/lfs/sources" =
      .ok false := by
    rw [deletesOutside_eq (by decide)]
    decide
  have hproposed : proposed plain (some installFirst) = .ok ⟨"make install", ""⟩ := rfl
  have hrepair : repair plain (failing installFirst) makeSection "" (start "/mnt/lfs/sources")
      mkdirBuild "mkdir build" = .ok ((start "/mnt/lfs/sources").again ⟨"make install", ""⟩) :=
    repair_of_quiet hproposed rfl hquiet (by decide)
  have hturn : turn plain (failing installFirst) makeSection "" addedFirst 0
      (start "/mnt/lfs/sources") = .go ((start "/mnt/lfs/sources").again ⟨"make install", ""⟩) :=
    turn_of_repair rfl (by decide) (by decide) rfl
      ⟨by decide, by decide⟩ hrepair
  refine ⟨_, .single hturn, ⟨0, "/mnt/lfs/sources", ⟨"make install", ""⟩⟩,
    List.mem_singleton_self _, rfl, rfl, ?_⟩
  have hlater : ∃ c ∈ laterCommands makeSection (bookPlace addedFirst 0),
      isInfix (norm c.text) (norm "make install") = true := by
    decide
  simpa only [isInfix_iff] using hlater

end LfsWorker
end CloudCore
