import CloudCore.Effect.Pool
import CloudCore.LlmChat.Advice

/-!
# The runs in the lab

`_advice_worker` and `_try_other_ways` of `verify_proxy.py` and `run_advice` of
`advice_runner.py`, with every call that may raise.  The worker's thread serves one answer after
the other; an answer that fails is followed by alternatives.  What a run does on its machines is
not modelled, only whether it raises.  The dictionaries are those of `Advice`; what a page is told
of a kept machine is there.

## Main definitions

* `runAdvice`, `round`, `serve` — the worker.
* `release`, `reap` — the reaper and Destroy.
* `exec` — what the commands do.
* `Acts` — those that concern no machine.
-/

namespace CloudCore
namespace LabRun

open Effect OrderedDict
open Effect.Program (attempt forEach)
open Advice (Record Job adviceStore)

/-! ### The data -/

/-- `ADVICE_KEEP_MINUTES`, `ADVICE_KEEP_MAX` and `ADVICE_RETRIES`. -/
structure Settings where
  keepMinutes : ℤ
  keepMax : ℤ
  retries : ℕ

/-- What is run: an answer, or an alternative to it. -/
inductive Who where
  | answer (id : String) (job : Job)
  | alternative (id : String)

/-- What a run does on its machines: a publication, or another call. -/
inductive Act where
  | publish
  | call

inductive Step where
  | acts (acts : List Act)
  | reboot (acts : List Act)

/-- The course of a run, as the answer, the question and the machines have it; `verdict` are
the acts after the verdict. -/
structure Plan where
  testable : Bool
  fullVm : Bool
  keepable : Bool
  setUp : List Act
  prober : Bool
  proberSetUp : List Act
  before : List Act
  steps : List Step
  checks : List Act
  failed : Bool
  verdict : List Act

/-! ### The commands -/

inductive Cmd where
  /-- The worker's thread: the imports, the pool and the sizes. -/
  | setUp
  /-- `_start_advice_run`. -/
  | enqueue (id : String) (job : Job)
  /-- The worker looks for an answer. -/
  | take
  /-- The kept machines that are too many. -/
  | surplus
  /-- Those that have expired. -/
  | due
  /-- `_kept_labs.pop(run_id, None)`. -/
  | pop (id : String)
  | parse (who : Who)
  /-- `question_limit`, and whether there is anything to run. -/
  | examine (who : Who)
  /-- `create_pair_bridge`, as far as the link is there, and what follows. -/
  | addBridge (who : Who)
  | upBridge (who : Who)
  /-- `make_vm`; `inside` the `try` after a reboot. -/
  | makeVm (who : Who) (inside : Bool)
  /-- What comes between `make_vm` and the `try`. -/
  | prepare (who : Who)
  | makeProber
  /-- A boot, a login, or a command on a machine. -/
  | call
  | waitExit
  /-- `teardown`; `rebooting` where the machine is to be replaced. -/
  | teardown (machine : ℕ) (rebooting : Bool)
  /-- `plain_step_line`; `inside` the `try`. -/
  | lines (who : Who) (inside : Bool)
  /-- `_advice_store`. -/
  | store (id : String) (job : Job) (status : String)
  | setAttempts (id : String) (retrying : Bool)
  /-- `_kept_labs[_rid] = …`. -/
  | keep (id : String) (machine : ℕ)
  | deleteBridge (who : Who) (bridge : ℕ)
  /-- What `run_advice` raises is noted. -/
  | fail (id : String)
  /-- `_failure_report`. -/
  | report
  /-- `_model_alternative` and the comparison; whether there is another answer. -/
  | alternative
  /-- The worker's thread ends with an exception. -/
  | die

@[reducible] def Cmd.Ans : Cmd → Type
  | .take => Option (String × Job)
  | .surplus | .due => List String
  | .pop _ => Option ℕ
  | .examine _ => Except Unit Plan
  | .addBridge _ | .makeVm .. | .makeProber => Except Unit ℕ
  | .waitExit | .alternative => Except Unit Bool
  | .setUp | .parse _ | .upBridge _ | .prepare _ | .call | .teardown .. | .lines .. | .deleteBridge .. | .report =>
    Except Unit Unit
  | .enqueue .. | .store .. | .setAttempts .. | .keep .. | .fail _ | .die => Unit

abbrev sig : Signature := ⟨Cmd, Cmd.Ans⟩

abbrev Code (α : Type) := Program sig Unit α

def step {α : Type} (c : Cmd) (h : c.Ans = α) : Code α := h ▸ Program.perform (F := sig) c

def tryStep {α : Type} (c : Cmd) (h : c.Ans = Except Unit α) : Code α :=
  attempt (F := sig) c h

/-! ### A run -/

/-- `progress(result)`. -/
def publish (who : Who) (inside : Bool) (status : String) : Code Unit := do
  let () ← tryStep (.lines who inside) rfl
  match who with
  | .answer id job => step (.store id job status) rfl
  | .alternative id => step (.setAttempts id true) rfl

/-- A publication in the `try`; whether it went well. -/
def published (who : Who) : Code Bool :=
  tryCatch (do
      let () ← publish who true "running"
      pure true)
    fun _ => pure false

/-- A call in the `try`. -/
def called (c : Cmd) (h : c.Ans = Except Unit Unit) : Code Bool := do
  let r : Except Unit Unit ← step c h
  match r with
  | .ok () => pure true
  | .error () => pure false

def perform (who : Who) : List Act → Code Bool
  | [] => pure true
  | .publish :: acts => do
    let ok ← published who
    if ok then perform who acts else pure false
  | .call :: acts => do
    let ok ← called .call rfl
    if ok then perform who acts else pure false

/-- The machines of a run: `vm`, `prober` and `kept`. -/
structure Locals where
  vm : ℕ
  prober : Option ℕ
  kept : Bool

/-- How the `try` ends: as it should, with `_MachineLost`, or with another exception; whether the
verdict is "failed". -/
inductive Ending where
  | done (failed : Bool)
  | lost
  | raised (failed : Bool)

/-- The run goes on with `k` if all went well. -/
def orElse (l : Locals) (failed : Bool) (p : Code Bool) (k : Code (Locals × Ending)) :
    Code (Locals × Ending) := do
  let ok ← p
  if ok then k else pure (l, .raised failed)

/-- The machine is offered to `keep_vm`. -/
def offer (cfg : Settings) (who : Who) (plan : Plan) (l : Locals) : Code (Locals × Ending) :=
  match who with
  | .answer id _ =>
    if cfg.keepMinutes ≤ 0 ∨ cfg.keepMax ≤ 0 ∨ plan.keepable = false then pure (l, .done plan.failed)
    else do
      let () ← step (.keep id l.vm) rfl
      pure ({ l with kept := true }, .done plan.failed)
  | .alternative _ => pure (l, .done plan.failed)

/-- The checks, the verdict, and what follows it. -/
def judge (cfg : Settings) (who : Who) (plan : Plan) (l : Locals) : Code (Locals × Ending) :=
  orElse l false (perform who plan.checks) <|
    orElse l plan.failed (perform who plan.verdict) <| offer cfg who plan l

/-- After a reboot a new machine boots from the same disk. -/
def replaceVm (who : Who) (l : Locals) (k : Locals → Code (Locals × Ending)) :
    Code (Locals × Ending) :=
  orElse l false (called .call rfl) <| orElse l false (called (.teardown l.vm true) rfl) <| do
    let r : Except Unit ℕ ← step (.makeVm who true) rfl
    match r with
    | .error () => pure (l, .raised false)
    | .ok vm => orElse { l with vm := vm } false (perform who [.call, .call, .publish]) (k { l with vm := vm })

def followSteps (cfg : Settings) (who : Who) (plan : Plan) : List Step → Locals → Code (Locals × Ending)
  | [], l => judge cfg who plan l
  | .acts acts :: steps, l => orElse l false (perform who acts) (followSteps cfg who plan steps l)
  | .reboot acts :: steps, l => orElse l false (perform who acts) <| do
    let r : Except Unit Bool ← step .waitExit rfl
    match r with
    | .error () => pure (l, .raised false)
    | .ok false => pure (l, .lost)
    | .ok true =>
      if plan.fullVm then
        orElse l false (perform who [.call, .publish]) (followSteps cfg who plan steps l)
      else replaceVm who l (followSteps cfg who plan steps)

/-- The second machine, which looks at the first from outside. -/
def withProber (who : Who) (plan : Plan) (l : Locals) (k : Locals → Code (Locals × Ending)) :
    Code (Locals × Ending) :=
  if plan.prober then orElse l false (perform who [.publish]) <| do
    let r : Except Unit ℕ ← step .makeProber rfl
    match r with
    | .error () => pure (l, .raised false)
    | .ok prober =>
      orElse { l with prober := some prober } false (perform who (.call :: plan.proberSetUp))
        (k { l with prober := some prober })
  else k l

/-- The `try` of `run_advice`. -/
def body (cfg : Settings) (who : Who) (plan : Plan) (vm : ℕ) : Code (Locals × Ending) :=
  orElse ⟨vm, none, false⟩ false (perform who (.publish :: .call :: plan.setUp)) <|
    withProber who plan ⟨vm, none, false⟩ fun l =>
      orElse l false (perform who plan.before) (followSteps cfg who plan plan.steps l)

/-- A teardown in `finally`; what it raises goes into the result. -/
def tearDown (machine : ℕ) : Code Unit := do
  let _ : Except Unit Unit ← step (.teardown machine false) rfl
  pure ()

def tearDownTarget (l : Locals) : Code Unit := if l.kept then pure () else tearDown l.vm

def tearDownProber : Option ℕ → Code Unit
  | none => pure ()
  | some prober => tearDown prober

/-- `finally`. -/
def cleanUp (who : Who) (bridge : ℕ) (l : Locals) (status : String) : Code Unit := do
  let () ← tearDownTarget l
  let () ← tearDownProber l.prober
  let () ← tryStep (.deleteBridge who bridge) rfl
  publish who false status

/-- The handlers and `finally`; whether the verdict is "failed". -/
def conclude (who : Who) (bridge : ℕ) (l : Locals) : Ending → Code Bool
  | .done failed => do
    let () ← cleanUp who bridge l "done"
    pure failed
  | .raised failed => do
    let () ← cleanUp who bridge l "error"
    pure failed
  | .lost => do
    let () ← tryCatch (publish who false "running") fun e => do
      let () ← cleanUp who bridge l "done"
      throw e
    let () ← cleanUp who bridge l "done"
    pure true

/-- `create_pair_bridge`. -/
def createBridge (who : Who) : Code ℕ := do
  let bridge : ℕ ← tryStep (.addBridge who) rfl
  let () ← tryStep (.upBridge who) rfl
  pure bridge

def tested (cfg : Settings) (who : Who) (plan : Plan) : Code Bool := do
  let bridge ← createBridge who
  let vm : ℕ ← tryStep (.makeVm who false) rfl
  let () ← tryStep (.prepare who) rfl
  let r ← body cfg who plan vm
  conclude who bridge r.1 r.2

/-- `run_advice`; whether the verdict is "failed". -/
def runAdvice (cfg : Settings) (who : Who) : Code Bool := do
  let () ← tryStep (.parse who) rfl
  let plan : Plan ← tryStep (.examine who) rfl
  if plan.testable then tested cfg who plan
  else do
    let () ← publish who false "done"
    pure false

/-! ### The worker -/

/-- `_release_kept`. -/
def release (id : String) : Code Unit := do
  let machine : Option ℕ ← step (.pop id) rfl
  match machine with
  | none => pure ()
  | some m => tearDown m

/-- `_try_other_ways`, with what is left of the attempts. -/
def otherWays (cfg : Settings) (id : String) : ℕ → Code Unit
  | 0 => step (.setAttempts id false) rfl
  | n + 1 => do
    let () ← step (.setAttempts id true) rfl
    let () ← tryStep .report rfl
    let another : Bool ← tryStep .alternative rfl
    if another then do
      let () ← step (.setAttempts id true) rfl
      let failed ← runAdvice cfg (.alternative id)
      let () ← tryStep (.lines (.alternative id) false) rfl
      if failed then otherWays cfg id n else step (.setAttempts id false) rfl
    else step (.setAttempts id false) rfl

/-- The answer itself; what it raises is noted. -/
def runAnswer (cfg : Settings) (id : String) (job : Job) : Code Bool :=
  tryCatch (runAdvice cfg (.answer id job)) fun _ => do
    let () ← step (.fail id) rfl
    pure false

/-- What `_advice_worker` does with an answer. -/
def attend (cfg : Settings) (id : String) (job : Job) : Code Unit := do
  let surplus : List String ← step .surplus rfl
  let () ← forEach surplus release
  let failed ← runAnswer cfg id job
  if failed then otherWays cfg id cfg.retries else pure ()

/-- One round of `_advice_worker`; it waits while there is no answer. -/
def round (cfg : Settings) : Code Unit := do
  let next : Option (String × Job) ← step .take rfl
  match next with
  | none => pure ()
  | some (id, job) => attend cfg id job

/-- What is raised in the worker ends its thread. -/
def orDie (p : Code Unit) : Code Unit :=
  tryCatch p fun e => do
    let () ← step .die rfl
    throw e

/-- The worker's thread begins. -/
def begin : Code Unit := orDie (tryStep .setUp rfl)

def serve (cfg : Settings) : Code Unit := orDie (round cfg)

/-- One turn of `_kept_reaper`. -/
def reap : Code Unit := do
  let due : List String ← step .due rfl
  forEach due release

def enqueue (id : String) (job : Job) : Code Unit := step (.enqueue id job) rfl

/-! ### What the commands do -/

/-- Where the worker's thread is. -/
inductive Worker where
  | off
  | ready
  | dead
  deriving DecidableEq

/-- The records and the queue; the pair bridges, the machines that were made, and how often each
was torn down; the kept machines, and those that were taken to be torn down.  `queued` and
`taken` are what was ever queued and taken. -/
structure State (ι : Type) where
  worker : Worker
  runs : List (String × Record)
  waiting : List String
  queued : List String
  taken : List String
  bridges : List ℕ
  bridge : ℕ
  made : ℕ
  torn : ℕ → ℕ
  kept : List (String × ℕ)
  held : ι → Option ℕ

variable {ι : Type} [DecidableEq ι]

/-- `job = _advice_runs.get(run_id, {})`, with the defaults for what is missing. -/
def State.job (s : State ι) (id : String) : Job := ((s.runs.lookup id).map Record.job).getD ⟨"", "", "", ""⟩

/-- The record that `publish` stores. -/
def State.publication (s : State ι) (id : String) (job : Job) (status : String) : Record :=
  ⟨status, job.question, none, none, job.token, none, (s.runs.lookup id).bind (·.keptInfo), false⟩

/-- The kept machines beyond `ADVICE_KEEP_MAX - 1`, the oldest first. -/
def State.surplus (s : State ι) (cfg : Settings) : List String :=
  (s.kept.map (·.1)).take (max 0 ((s.kept.length : ℤ) - (cfg.keepMax - 1))).toNat

/-- A machine is made. -/
def State.make (s : State ι) : Except Unit ℕ → State ι → Prop
  | .ok m, s' => m = s.made ∧ s' = { s with made := s.made + 1 }
  | .error (), s' => s' = s

def exec (cfg : Settings) (i : ι) (s : State ι) : (c : Cmd) → c.Ans → State ι → Prop
  | .setUp, .ok (), s' => s' = { s with worker := .ready }
  | .setUp, .error (), s' => s' = s
  | .enqueue id job, (), s' => s' = { s with
      runs := setLast s.runs id (.queued job)
      waiting := s.waiting ++ [id]
      queued := s.queued ++ [id] }
  | .take, a, s' => s.worker = .ready ∧
      match s.waiting with
      | [] => a = none ∧ s' = s
      | id :: rest => a = some (id, s.job id) ∧ s' = { s with waiting := rest, taken := s.taken ++ [id] }
  | .surplus, ids, s' => ids = s.surplus cfg ∧ s' = s
  | .due, _, s' => s' = s
  | .pop id, a, s' => a = s.kept.lookup id ∧ s' = { s with
      kept := s.kept.filter (·.1 ≠ id)
      held := Function.update s.held i (s.kept.lookup id) }
  | .addBridge _, .ok b, s' => b = s.bridge ∧
      s' = { s with bridge := s.bridge + 1, bridges := s.bridge :: s.bridges }
  | .addBridge _, .error (), s' => s' = s
  | .makeVm .., a, s' | .makeProber, a, s' => s.make a s'
  | .teardown m _, _, s' => s' = { s with
      torn := Function.update s.torn m (s.torn m + 1)
      held := Function.update s.held i none }
  | .store id job status, (), s' => s' = { s with
      runs := adviceStore s.runs id (s.publication id job status) }
  | .setAttempts id retrying, (), s' => s' = { s with
      runs := modify s.runs id fun r => { r with retrying := retrying } }
  | .keep id m, (), s' => s' = { s with kept := s.kept.filter (·.1 ≠ id) ++ [(id, m)] }
  | .deleteBridge _ b, .ok (), s' => s' = { s with bridges := s.bridges.erase b }
  | .deleteBridge .., .error (), s' => s' = s
  | .fail id, (), s' => s' = { s with runs := modify s.runs id fun r => { r with status := "error" } }
  | .die, (), s' => s' = { s with worker := .dead }
  | .parse _, _, s' | .examine _, _, s' | .upBridge _, _, s' | .prepare _, _, s' | .call, _, s' | .waitExit, _, s'
  | .lines .., _, s' | .report, _, s' | .alternative, _, s' => s' = s

/-! ### Acts -/

/-- What is done on the machines, and published. -/
def Acts (who : Who) : Cmd → Prop
  | .lines .. | .call | .setAttempts .. => True
  | .store id _ _ => ∃ job, who = .answer id job
  | _ => False

section Acts

open Effect.Program (Tame Obeys tame_ret tame_call tame_bind tame_tryCatch obeys_bind obeys_attempt)

variable {T : (c : Cmd) → c.Ans → Prop} {who : Who}

theorem obeys_publish {inside : Bool} {status : String} :
    (publish who inside status).Obeys T (Acts who) := by
  refine obeys_bind (obeys_attempt trivial) fun _ => ?_
  cases who with
  | answer id job => exact (tame_call ⟨job, rfl⟩ fun _ _ => tame_ret).obeys
  | alternative id => exact (tame_call trivial fun _ _ => tame_ret).obeys

theorem tame_published : (published who).Tame T (Acts who) :=
  tame_tryCatch (obeys_bind obeys_publish fun _ => tame_ret.obeys) fun _ => tame_ret

theorem tame_called : (called .call rfl).Tame T (Acts who) :=
  tame_call trivial fun a _ => match a with
    | .ok () => tame_ret
    | .error () => tame_ret

theorem tame_perform (acts : List Act) : (perform who acts).Tame T (Acts who) := by
  induction acts with
  | nil => exact tame_ret
  | cons act acts ih =>
    cases act with
    | publish =>
      refine tame_bind tame_published fun ok => ?_
      cases ok with
      | true => exact ih
      | false => exact tame_ret
    | call =>
      refine tame_bind tame_called fun ok => ?_
      cases ok with
      | true => exact ih
      | false => exact tame_ret

end Acts

/-! ### Runs -/

/-- Thread `w` is the worker's: it begins once, and is never started again once it is dead.  The
others queue answers, and release machines. -/
def Runs (cfg : Settings) (w : ι) (s : State ι) : Move sig Unit Unit ι → Prop
  | .start i p =>
    if i = w then (s.worker = .off ∧ p = begin) ∨ (s.worker = .ready ∧ p = serve cfg)
    else (∃ id job, p = enqueue id job) ∨ p = reap ∨ ∃ id, p = release id
  | .kill _ => False
  | _ => True

def State.init : State ι := ⟨.off, [], [], [], [], [], 0, 0, fun _ => 0, [], fun _ => none⟩

/-- An id is new where it is queued; a run that fails still has its record. -/
def Meets (s : State ι) : Cmd → Prop
  | .enqueue id _ => id ∉ s.queued
  | .fail id => (s.runs.lookup id).isSome = true
  | _ => True

/-! ### A worker that is answered -/

/-- The answers to the two threads, with the plans of what is run and with what raises. -/
def respond (plan : Who → Plan) (raises : Cmd → Bool) (i : Bool) (s : State Bool) :
    (c : Cmd) → Option (c.Ans × State Bool)
  | .setUp => some (.ok (), { s with worker := .ready })
  | .enqueue id job => if id ∈ s.queued then none else some ((), { s with
      runs := setLast s.runs id (.queued job)
      waiting := s.waiting ++ [id]
      queued := s.queued ++ [id] })
  | .take =>
    if s.worker = .ready then
      match s.waiting with
      | [] => some (none, s)
      | id :: rest => some (some (id, s.job id), { s with waiting := rest, taken := s.taken ++ [id] })
    else none
  | .surplus => some (s.surplus ⟨20, 2, 2⟩, s)
  | .parse who => some (if raises (.parse who) then .error () else .ok (), s)
  | .examine who => some (.ok (plan who), s)
  | .addBridge _ => some (.ok s.bridge,
      { s with bridge := s.bridge + 1, bridges := s.bridge :: s.bridges })
  | .makeVm who inside => if raises (.makeVm who inside) then some (.error (), s)
    else some (.ok s.made, { s with made := s.made + 1 })
  | .keep id m => some ((), { s with kept := s.kept.filter (·.1 ≠ id) ++ [(id, m)] })
  | .pop id => some (s.kept.lookup id, { s with
      kept := s.kept.filter (·.1 ≠ id)
      held := Function.update s.held i (s.kept.lookup id) })
  | .teardown m _ => some (.ok (), { s with
      torn := Function.update s.torn m (s.torn m + 1)
      held := Function.update s.held i none })
  | .upBridge _ | .prepare _ | .call | .lines .. | .report => some (.ok (), s)
  | .alternative => some (.ok true, s)
  | .store id job status => some ((), { s with
      runs := adviceStore s.runs id (s.publication id job status) })
  | .setAttempts id retrying => some ((), { s with
      runs := modify s.runs id fun r => { r with retrying := retrying } })
  | .deleteBridge _ b => some (.ok (), { s with bridges := s.bridges.erase b })
  | .fail id =>
    if (s.runs.lookup id).isSome = true then some ((), { s with
      runs := modify s.runs id fun r => { r with status := "error" } })
    else none
  | .die => some ((), { s with worker := .dead })
  | _ => none

theorem exec_respond {plan : Who → Plan} {raises : Cmd → Bool} {i : Bool} {s s' : State Bool} {c : Cmd}
    {a : c.Ans} (h : respond plan raises i s c = some (a, s')) :
    exec ⟨20, 2, 2⟩ i s c a s' ∧ Meets s c := by
  cases c with
  | enqueue id job =>
    simp only [respond] at h
    split at h
    · cases h
    · next hid =>
      cases h
      exact ⟨rfl, hid⟩
  | take =>
    simp only [respond] at h
    split at h
    · next hready =>
      refine ⟨⟨hready, ?_⟩, trivial⟩
      split at h
      · cases h
        simp only [true_and]
      · cases h
        simp only [true_and]
    · cases h
  | makeVm who inside =>
    simp only [respond] at h
    split at h
    · cases h
      exact ⟨rfl, trivial⟩
    · cases h
      exact ⟨⟨rfl, rfl⟩, trivial⟩
  | fail id =>
    obtain ⟨hfound, ⟨⟩⟩ := Option.ite_none_right_eq_some.mp h
    exact ⟨rfl, hfound⟩
  | surplus | addBridge | pop =>
    cases h
    exact ⟨⟨rfl, rfl⟩, trivial⟩
  | due | makeProber | waitExit => cases h
  | _ =>
    cases h
    exact ⟨rfl, trivial⟩

/-- The thread begins once, and serves once it is ready. -/
def startable (x : Config sig Unit Unit Bool (State Bool)) : Turn sig Unit Unit Bool → Bool
  | .start true (.call .setUp _) => x.shared.worker = .off
  | .start true _ => x.shared.worker = .ready
  | _ => true

/-- Answers are queued, then come the first `n` commands of the round of the first one, then others. -/
def schedule (ids : List String) (n : ℕ) (rest : List (Turn sig Unit Unit Bool)) :
    List (Turn sig Unit Unit Bool) :=
  (ids.flatMap fun id => [.start false (enqueue id ⟨"", "", "", ""⟩), .go false, .go false]) ++
    ([.start true begin, .go true, .go true, .start true (serve ⟨20, 2, 2⟩)] ++
      (List.replicate n (.go true) ++ rest))

theorem runs_of_schedule {ids : List String} {n : ℕ} {rest : List (Turn sig Unit Unit Bool)} {i : Bool}
    {p : Code Unit} (hrest : ∀ i p, Turn.start i p ∈ rest → i = false ∧ ∃ id, p = release id)
    (h : Turn.start i p ∈ schedule ids n rest) (x : Config sig Unit Unit Bool (State Bool))
    (hx : startable x (.start i p) = true) : Runs ⟨20, 2, 2⟩ true x.shared (.start i p) := by
  rcases List.mem_append.mp h with h | h
  · obtain ⟨id, -, h⟩ := List.mem_flatMap.mp h
    simp only [List.mem_cons, Turn.start.injEq, List.not_mem_nil, or_false, reduceCtorEq] at h
    obtain ⟨rfl, rfl⟩ := h
    exact .inl ⟨_, _, rfl⟩
  rcases List.mem_append.mp h with h | h
  · simp only [List.mem_cons, Turn.start.injEq, List.not_mem_nil, or_false, reduceCtorEq, false_or] at h
    rcases h with ⟨rfl, rfl⟩ | ⟨rfl, rfl⟩
    · exact .inl ⟨of_decide_eq_true hx, rfl⟩
    · exact .inr ⟨of_decide_eq_true hx, rfl⟩
  rcases List.mem_append.mp h with h | h
  · cases List.eq_of_mem_replicate h
  · obtain ⟨rfl, id, rfl⟩ := hrest i p h
    exact .inr (.inr ⟨id, rfl⟩)

end LabRun
end CloudCore
