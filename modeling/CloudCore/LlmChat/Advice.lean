import CloudCore.Effect.Sequential
import CloudCore.Python.OrderedDict
import Mathlib.Data.Int.Notation
import Mathlib.Data.List.Nodup

/-!
# The queue of answers to be tried

`_start_advice_run`, `_advice_worker` and what they call in `verify_proxy.py`.  Every answer
is tried in a lab machine, one after the other; one bounded dictionary holds the records of
the answers that wait, of the one that runs and of those that are done, and a second one the
machines that are kept for whoever asked.  A region under a lock is one step.

## Main definitions

* `State`, `Event`, `State.next` — the data of the queue and its steps.
* `adviceStatus` — what a page is told.
* `Promises` — what is promised.
* `Calm` — a step that pushes no record out that is needed.
* `Sound` — the invariant.

## Main results

* `promises_of_sequence` — **the promises are kept in every run whose steps are calm.**
* `pushed_out` — fifty-one answers are too many.
-/

namespace CloudCore
namespace Advice

open Effect OrderedDict

/-! ### The data -/

/-- What the worker reads of a record. -/
structure Job where
  answer : String
  question : String
  searchTerms : String
  token : String
  deriving DecidableEq

/-- How to get into a kept machine. -/
structure LoginInfo where
  user : String
  pamServices : List String
  sshdChanged : Bool
  password : String
  totpSecret : String
  deriving DecidableEq

/-- `kept` of a record, with the reason once the machine is destroyed. -/
structure KeptNote where
  expiresAt : ℤ
  destroyed : Option String
  deriving DecidableEq

/-- A record of `_advice_runs`. -/
structure Record where
  status : String
  question : String
  answer : Option String
  searchTerms : Option String
  token : String
  kept : Option KeptNote
  keptInfo : Option LoginInfo
  retrying : Bool
  deriving DecidableEq

/-- `job.get("_answer", "")` and so on. -/
def Record.job (r : Record) : Job :=
  ⟨r.answer.getD "", r.question, r.searchTerms.getD "", r.token⟩

/-- The record with which an answer is queued. -/
def Record.queued (job : Job) : Record :=
  ⟨"queued", job.question, some job.answer, some job.searchTerms, job.token, none, none, false⟩

@[simp] theorem Record.job_queued (job : Job) : (Record.queued job).job = job := rfl

/-- An entry of `_kept_labs`. -/
structure KeptLab where
  id : String
  expires : ℤ
  token : String
  deriving DecidableEq

/-- Where the worker is. -/
inductive Worker where
  | off
  | starting
  /-- At the top of its loop. -/
  | top
  | taken (id : String) (job : Job)
  /-- It makes room for a machine; what is left of the surplus. -/
  | clearing (id : String) (job : Job) (surplus : List String)
  /-- In `run_advice`. -/
  | running (id : String) (job : Job)
  /-- In `keep`, between its two regions. -/
  | keeping (id : String) (job : Job) (info : LoginInfo)
  /-- `run_advice` has returned; when the kept machine expires, if there is one. -/
  | closing (id : String) (job : Job) (expires : Option ℤ)
  /-- In `_try_other_ways`, and what comes before it. -/
  | retrying (id : String) (job : Job)
  | dead
  deriving DecidableEq

/-- The run the worker has in hand. -/
def Worker.current : Worker → Option (String × Job)
  | .taken id job | .clearing id job _ | .running id job | .keeping id job _ | .closing id job _
  | .retrying id job => some (id, job)
  | .off | .starting | .top | .dead => none

/-- `_advice_runs`; `_advice_waiting`; `_kept_labs`; the machines that are being torn down, with
the reason; the worker.  The last two fields record what was ever queued and what was run. -/
structure State where
  runs : List (String × Record)
  waiting : List String
  kept : List KeptLab
  tearing : List (String × String)
  worker : Worker
  queued : List (String × Job)
  ran : List (String × Job)

def State.init : State := ⟨[], [], [], [], .off, [], []⟩

def adviceKeep : ℕ := 50

/-- `ADVICE_KEEP_MINUTES` and `ADVICE_KEEP_MAX`. -/
structure Config where
  keepMinutes : ℤ
  keepMax : ℤ

/-- The record of a run, as the worker reads it. -/
def State.jobAt (s : State) (id : String) : Option Job := (s.runs.lookup id).map Record.job

/-- `job = _advice_runs.get(run_id, {})`, with the defaults for what is missing. -/
def State.job (s : State) (id : String) : Job := (s.jobAt id).getD ⟨"", "", "", ""⟩

/-! ### The steps -/

section Steps

variable (cfg : Config) (s : State)

/-- `_release_kept`, its first region. -/
def State.release (id reason : String) : State :=
  if id ∈ s.kept.map (·.id) then
    { s with kept := s.kept.filter (·.id ≠ id), tearing := s.tearing ++ [(id, reason)] }
  else s

/-- `_release_kept`, its second region. -/
def Record.destroyed (r : Record) (reason : String) : Record :=
  { r with kept := r.kept.map fun k => { k with destroyed := some reason } }

/-- The kept machines beyond `ADVICE_KEEP_MAX - 1`, the oldest first. -/
def State.surplus : List String :=
  (s.kept.map (·.id)).take (max 0 ((s.kept.length : ℤ) - (cfg.keepMax - 1))).toNat

/-- The record that `publish` stores; `run_advice` leaves `kept` empty. -/
def State.publication (id : String) (job : Job) (status : String) : Record :=
  ⟨status, job.question, none, none, job.token, none, (s.runs.lookup id).bind (·.keptInfo), false⟩

def adviceStore (runs : List (String × Record)) (id : String) (data : Record) :
    List (String × Record) :=
  keepLast adviceKeep (setLast runs id data)

/-- `_start_advice_run`. -/
def State.start (id : String) (job : Job) : State :=
  { s with
    runs := setLast s.runs id (.queued job)
    waiting := s.waiting ++ [id]
    worker := if s.worker = .off then .starting else s.worker
    queued := s.queued ++ [(id, job)] }

/-- The worker takes the next answer. -/
def State.take : Option State :=
  match s.worker, s.waiting with
  | .top, id :: waiting => some { s with
      waiting := waiting
      worker := .taken id (s.job id)
      ran := s.ran ++ [(id, s.job id)] }
  | _, _ => none

def State.makeRoom : Option State :=
  match s.worker with
  | .taken id job => some { s with worker := .clearing id job (s.surplus cfg) }
  | .clearing id job (old :: surplus) =>
    some { s.release old "made room for a newer run" with worker := .clearing id job surplus }
  | .clearing id job [] => some { s with worker := .running id job }
  | _ => none

def State.publish (status : String) : Option State :=
  match s.worker with
  | .running id job =>
    some { s with runs := adviceStore s.runs id (s.publication id job status) }
  | _ => none

/-- `keep`, its first region. -/
def State.keep (now : ℤ) (info : LoginInfo) : Option State :=
  match s.worker with
  | .running id job =>
    if cfg.keepMinutes ≤ 0 ∨ cfg.keepMax ≤ 0 then none
    else some { s with
      kept := s.kept.filter (·.id ≠ id) ++ [⟨id, now + cfg.keepMinutes * 60, job.token⟩]
      worker := .keeping id job info }
  | _ => none

/-- `keep`, its second region. -/
def State.keepInfo : Option State :=
  match s.worker with
  | .keeping id job info => some { s with
      runs := modify s.runs id fun r => { r with keptInfo := some info }
      worker := .running id job }
  | _ => none

/-- `run_advice` returns. -/
def State.finish : Option State :=
  match s.worker with
  | .running id job => some { s with
      worker := .closing id job ((s.kept.find? (·.id = id)).map (·.expires)) }
  | _ => none

/-- `run_advice` raises. -/
def State.fail : Option State :=
  match s.worker with
  | .running id _ => some { s with
      runs := modify s.runs id fun r => { r with status := "error" }
      worker := .top }
  | _ => none

def State.noteExpiry : Option State :=
  match s.worker with
  | .closing id job (some expires) => some { s with
      runs := modify s.runs id fun r => { r with kept := some ⟨expires, none⟩ }
      worker := .retrying id job }
  | .closing id job none => some { s with worker := .retrying id job }
  | _ => none

def State.setAttempts (retrying : Bool) : Option State :=
  match s.worker with
  | .retrying id _ => some { s with runs := modify s.runs id fun r => { r with retrying := retrying } }
  | _ => none

/-- The worker comes to the top of its loop. -/
def State.ready : Option State :=
  match s.worker with
  | .starting | .retrying _ _ => some { s with worker := .top }
  | _ => none

/-- Something is raised in the worker's thread where it is not caught. -/
def State.crash : Option State :=
  match s.worker with
  | .off | .running _ _ | .keeping _ _ _ | .dead => none
  | _ => some { s with worker := .dead }

inductive Event where
  /-- `_start_advice_run`, with the id that `uuid4` gives. -/
  | start (id : String) (job : Job)
  | take
  | makeRoom
  /-- A progress publication. -/
  | publish (status : String)
  | keep (now : ℤ) (info : LoginInfo)
  | keepInfo
  | finish
  | fail
  | noteExpiry
  | setAttempts (retrying : Bool)
  | ready
  | crash
  /-- The reaper or the page releases a machine. -/
  | release (id reason : String)
  | released (id reason : String)
  | poll (id token : String)

/-- The steps. -/
def State.next : Event → Option State
  | .start id job => some (s.start id job)
  | .take => s.take
  | .makeRoom => s.makeRoom cfg
  | .publish status => s.publish status
  | .keep now info => s.keep cfg now info
  | .keepInfo => s.keepInfo
  | .finish => s.finish
  | .fail => s.fail
  | .noteExpiry => s.noteExpiry
  | .setAttempts retrying => s.setAttempts retrying
  | .ready => s.ready
  | .crash => s.crash
  | .release id reason => some (s.release id reason)
  | .released id reason =>
    if (id, reason) ∈ s.tearing then
      some { s with
        runs := modify s.runs id (·.destroyed reason)
        tearing := s.tearing.erase (id, reason) }
    else none
  | .poll _ _ => some s

def Step (s : State) (e : Event) (s' : State) : Prop := s.next cfg e = some s'

/-! ### What a page is told -/

def tokenOk (r : Record) (token : String) : Bool := token ≠ "" && r.token = token

/-- `kept`, as far as a page may see it. -/
structure KeptShown where
  expiresAt : ℤ
  destroyed : Bool
  reason : Option String
  info : Option LoginInfo
  deriving DecidableEq

structure Shown where
  status : String
  kept : Option KeptShown
  queuePosition : Option ℕ
  deriving DecidableEq

/-- `_advice_status`; `none` for a run that is unknown. -/
def adviceStatus (id token : String) : Option Shown :=
  (s.runs.lookup id).map fun r =>
    { status := r.status
      kept := r.kept.map fun k =>
        ⟨k.expiresAt, k.destroyed.isSome, if tokenOk r token then k.destroyed else none,
          if tokenOk r token then r.keptInfo else none⟩
      queuePosition :=
        if r.status = "queued" then
          some (if id ∈ s.waiting then s.waiting.idxOf id + 1 else 0)
        else none }

end Steps

/-! ### The promises -/

/-- The worker's own steps, when all goes well. -/
def Event.ByWorker : Event → Prop
  | .take | .makeRoom | .publish _ | .keep _ _ | .keepInfo | .finish | .fail | .noteExpiry
  | .setAttempts _ | .ready => True
  | _ => False

structure Promises (cfg : Config) (s : State) : Prop where
  /-- The record of an answer that waits is the one it was queued with. -/
  held : ∀ id ∈ s.waiting, ∃ job, (id, job) ∈ s.queued ∧ s.jobAt id = some job
  /-- What was queued has been run, once and with its own text, or waits. -/
  once : s.queued = s.ran ++ s.waiting.map fun id => (id, s.job id)
  /-- The worker goes on while something waits. -/
  moves : s.waiting ≠ [] → ∃ e s', Event.ByWorker e ∧ Step cfg s e s'
  /-- The record of a kept machine is there, with its token. -/
  kept : ∀ e ∈ s.kept, ∃ job, s.jobAt e.id = some job ∧ job.token = e.token

/-- No record is pushed out that is needed, and nothing is raised where it is not caught. -/
def Calm (s : State) : Event → Prop
  | .start id _ => id ∉ s.waiting ∧ id ∉ s.kept.map (·.id) ∧ ∀ p ∈ s.worker.current, p.1 ≠ id
  | .publish status => ∀ p ∈ s.worker.current,
      ∀ e ∈ evicted adviceKeep (setLast s.runs p.1 (s.publication p.1 p.2 status)),
        e.1 ∉ s.waiting ∧ e.1 ∉ s.kept.map (·.id)
  | .crash => False
  | _ => True

def Runs (cfg : Config) (s : State) (e : Event) (s' : State) : Prop := Calm s e ∧ Step cfg s e s'

/-! ### The invariant -/

structure Sound (s : State) : Prop where
  nodup : s.waiting.Nodup
  /-- What waits is neither in hand nor kept. -/
  apart : ∀ id ∈ s.waiting, (∀ p ∈ s.worker.current, p.1 ≠ id) ∧ id ∉ s.kept.map (·.id)
  present : ∀ id ∈ s.waiting, s.jobAt id ≠ none
  once : s.queued = s.ran ++ s.waiting.map fun id => (id, s.job id)
  current : ∀ p ∈ s.worker.current, ∃ job, s.jobAt p.1 = some job ∧ job.token = p.2.token
  kept : ∀ e ∈ s.kept, ∃ job, s.jobAt e.id = some job ∧ job.token = e.token
  alive : s.worker ≠ .dead
  started : s.worker = .off → s.waiting = []

variable {cfg : Config} {s s' : State}

theorem jobAt_congr {s s' : State} (h : s'.jobAt = s.jobAt) (id : String) : s'.job id = s.job id := by
  rw [State.job, State.job, h]

/-- A change in place leaves the texts alone. -/
theorem jobAt_of_modify {s s' : State} (id : String) (f : Record → Record)
    (hruns : s'.runs = modify s.runs id f) (hf : ∀ r, (f r).job = r.job) (id' : String) :
    s'.jobAt id' = s.jobAt id' := by
  rw [State.jobAt, State.jobAt, hruns]
  by_cases h : id' = id
  · rw [h, lookup_modify_self, Option.map_map]
    exact Option.map_congr fun r _ => hf r
  · rw [lookup_modify_of_ne _ _ h]

/-- A step that concerns neither the texts nor the queue. -/
theorem Sound.frame (h : Sound s) (hjob : ∀ id, s'.jobAt id = s.jobAt id)
    (hwaiting : s'.waiting = s.waiting) (hqueued : s'.queued = s.queued) (hran : s'.ran = s.ran)
    (hkept : ∀ e ∈ s'.kept, e ∈ s.kept ∨ ∃ job, s.worker.current = some (e.id, job) ∧
      job.token = e.token)
    (hcurrent : ∀ p ∈ s'.worker.current, p ∈ s.worker.current)
    (halive : s'.worker = .dead → s.worker = .dead) (hstarted : s'.worker = .off → s.worker = .off) :
    Sound s' where
  nodup := hwaiting ▸ h.nodup
  apart id hid := by
    rw [hwaiting] at hid
    obtain ⟨hhand, hnot⟩ := h.apart id hid
    refine ⟨fun p hp => hhand p (hcurrent p hp), fun hmem => ?_⟩
    obtain ⟨e, he, rfl⟩ := List.mem_map.mp hmem
    -- what is newly kept is the machine of the run in hand
    rcases hkept e he with he | ⟨job, hp, -⟩
    · exact hnot (List.mem_map_of_mem he)
    · exact hhand _ hp rfl
  present id hid := by
    rw [hjob]
    exact h.present id (hwaiting ▸ hid)
  once := by
    rw [hqueued, hran, hwaiting, h.once]
    exact congrArg (s.ran ++ ·) (List.map_congr_left fun id _ =>
      congrArg (Prod.mk id) (jobAt_congr (funext hjob) id).symm)
  current p hp := by
    rw [hjob]
    exact h.current p (hcurrent p hp)
  kept e he := by
    rw [hjob]
    rcases hkept e he with he | ⟨job, hp, htoken⟩
    · exact h.kept e he
    · obtain ⟨job', hjob', htoken'⟩ := h.current _ hp
      exact ⟨job', hjob', htoken'.trans htoken⟩
  alive hdead := h.alive (halive hdead)
  started hoff := hwaiting.trans (h.started (hstarted hoff))

/-! ### What the steps keep -/

@[simp] theorem release_runs (id reason : String) : (s.release id reason).runs = s.runs := by
  unfold State.release
  split <;> rfl

@[simp] theorem release_waiting (id reason : String) :
    (s.release id reason).waiting = s.waiting := by
  unfold State.release
  split <;> rfl

@[simp] theorem release_worker (id reason : String) : (s.release id reason).worker = s.worker := by
  unfold State.release
  split <;> rfl

@[simp] theorem release_queued (id reason : String) : (s.release id reason).queued = s.queued := by
  unfold State.release
  split <;> rfl

@[simp] theorem release_ran (id reason : String) : (s.release id reason).ran = s.ran := by
  unfold State.release
  split <;> rfl

theorem mem_of_release {id reason : String} {e : KeptLab} (h : e ∈ (s.release id reason).kept) :
    e ∈ s.kept := by
  unfold State.release at h
  split at h
  · exact (List.mem_filter.mp h).1
  · exact h

theorem Sound.release (h : Sound s) {id reason : String} : Sound (s.release id reason) := by
  have hjob (id' : String) : (s.release id reason).jobAt id' = s.jobAt id' := by
    rw [State.jobAt, State.jobAt, release_runs]
  refine h.frame hjob (release_waiting ..) (release_queued ..) (release_ran ..)
    (fun e he => .inl (mem_of_release he)) ?_ ?_ ?_ <;> rw [release_worker]
  · exact fun _ hp => hp
  · exact fun hw => hw
  · exact fun hw => hw

theorem jobAt_start_self (id : String) (job : Job) : (s.start id job).jobAt id = some job := by
  change ((setLast s.runs id (.queued job)).lookup id).map Record.job = _
  rw [lookup_setLast_self, Option.map_some, Record.job_queued]

theorem jobAt_start_of_ne {id id' : String} (job : Job) (h : id' ≠ id) :
    (s.start id job).jobAt id' = s.jobAt id' := by
  change ((setLast s.runs id (.queued job)).lookup id').map Record.job = _
  rw [lookup_setLast_of_ne _ _ h]
  rfl

theorem current_start (id : String) (job : Job) :
    (s.start id job).worker.current = s.worker.current := by
  change (if s.worker = .off then Worker.starting else s.worker).current = _
  split
  next hoff => rw [hoff]; rfl
  next => rfl

/-- An answer is queued under an id that is not in use. -/
theorem Sound.start (h : Sound s) {id : String} {job : Job} (hcalm : Calm s (.start id job)) :
    Sound (s.start id job) := by
  obtain ⟨hwaiting, hkept, hhand⟩ := hcalm
  have hne {id' : String} (hid' : id' ∈ s.waiting) : id' ≠ id := fun heq => hwaiting (heq ▸ hid')
  refine ⟨?_, fun id' hid' => ?_, fun id' hid' => ?_, ?_, fun p hp => ?_, fun e he => ?_, ?_, ?_⟩
  · exact List.nodup_append.mpr ⟨h.nodup, List.nodup_singleton id, fun a ha b hb =>
      List.mem_singleton.mp hb ▸ hne ha⟩
  · rw [current_start]
    -- those that waited, and the new one
    rcases List.mem_append.mp hid' with hid' | hid'
    · exact h.apart id' hid'
    · obtain rfl := List.mem_singleton.mp hid'
      exact ⟨hhand, hkept⟩
  · rcases List.mem_append.mp hid' with hid' | hid'
    · rw [jobAt_start_of_ne job (hne hid')]
      exact h.present id' hid'
    · obtain rfl := List.mem_singleton.mp hid'
      rw [jobAt_start_self]
      exact nofun
  · change s.queued ++ [(id, job)] = s.ran ++ (s.waiting ++ [id]).map _
    rw [List.map_append, List.map_singleton, State.job, jobAt_start_self, Option.getD_some, h.once,
      List.append_assoc]
    refine congrArg (s.ran ++ ·) (congrArg (· ++ [(id, job)]) (List.map_congr_left fun id' hid' => ?_))
    rw [State.job, State.job, jobAt_start_of_ne job (hne hid')]
  · rw [current_start] at hp
    rw [jobAt_start_of_ne job (hhand p hp)]
    exact h.current p hp
  -- its id is of no machine that is kept
  · have hid : e.id ≠ id := fun heq => hkept (heq ▸ List.mem_map_of_mem he)
    rw [jobAt_start_of_ne job hid]
    exact h.kept e he
  · change (if s.worker = .off then Worker.starting else s.worker) ≠ .dead
    split
    · exact nofun
    · exact h.alive
  · intro hoff
    change (if s.worker = .off then Worker.starting else s.worker) = .off at hoff
    split at hoff
    next => cases hoff
    next hon => exact absurd hoff hon

/-- The worker runs what was queued. -/
theorem Sound.take (h : Sound s) (hx : s.take = some s') : Sound s' := by
  unfold State.take at hx
  split at hx
  next id waiting hworker hwaiting =>
    cases hx
    have hnodup := h.nodup
    rw [hwaiting, List.nodup_cons] at hnodup
    -- those behind the first one still wait
    have hin {id' : String} (hid' : id' ∈ waiting) : id' ∈ s.waiting :=
      hwaiting ▸ List.mem_cons_of_mem _ hid'
    refine ⟨hnodup.2, fun id' hid' => ⟨?_, (h.apart id' (hin hid')).2⟩,
      fun id' hid' => h.present id' (hin hid'), ?_, ?_, h.kept, nofun, nofun⟩
    · rintro p hp rfl
      cases hp
      exact hnodup.1 hid'
    · change s.queued = (s.ran ++ [(id, s.job id)]) ++ waiting.map fun id' => (id', s.job id')
      rw [h.once, hwaiting, List.map_cons, List.append_assoc, List.singleton_append]
    · intro p hp
      cases hp
      obtain ⟨job, hjob⟩ := Option.ne_none_iff_exists'.mp
        (h.present id (hwaiting ▸ List.mem_cons_self))
      refine ⟨job, hjob, ?_⟩
      rw [State.job, hjob, Option.getD_some]
  next => cases hx

/-- A publication pushes out nothing that is needed. -/
theorem Sound.publish (h : Sound s) {status : String} (hcalm : Calm s (.publish status))
    (hx : s.publish status = some s') : Sound s' := by
  unfold State.publish at hx
  split at hx
  next id job hworker =>
    cases hx
    have hcurrent : (id, job) ∈ s.worker.current := by rw [hworker]; rfl
    have hevicted := hcalm _ hcurrent
    -- the new record is never the one that is pushed out
    have hself : (adviceStore s.runs id (s.publication id job status)).lookup id =
        some (s.publication id job status) :=
      lookup_keepLast_setLast (by decide) _ _ _
    -- nor is one that something waits for or keeps a machine for
    have hother {id' : String} (hne : id' ≠ id)
        (hneeded : id' ∈ s.waiting ∨ id' ∈ s.kept.map (·.id)) :
        (adviceStore s.runs id (s.publication id job status)).lookup id' = s.runs.lookup id' := by
      rw [adviceStore, lookup_keepLast _ fun e he heq => ?_, lookup_setLast_of_ne _ _ hne]
      rcases hneeded with hin | hin
      · exact (hevicted e he).1 (heq ▸ hin)
      · exact (hevicted e he).2 (heq ▸ hin)
    have hwaiting {id' : String} (hid' : id' ∈ s.waiting) :
        ((adviceStore s.runs id (s.publication id job status)).lookup id').map Record.job =
          s.jobAt id' := by
      rw [hother (fun heq => (h.apart id' hid').1 _ hcurrent heq.symm) (.inl hid')]
      rfl
    refine ⟨h.nodup, h.apart, fun id' hid' => ?_, ?_, fun p hp => ?_, fun e he => ?_, h.alive,
      h.started⟩
    · rw [State.jobAt, hwaiting hid']
      exact h.present id' hid'
    · rw [h.once]
      refine congrArg (s.ran ++ ·) (List.map_congr_left fun id' hid' => congrArg (Prod.mk id') ?_)
      rw [State.job, State.job]
      exact congrArg (Option.getD · _) (hwaiting hid').symm
    · change p ∈ s.worker.current at hp
      rw [hworker] at hp
      cases hp
      refine ⟨(s.publication id job status).job, ?_, rfl⟩
      rw [State.jobAt, hself]
      rfl
    · by_cases heq : e.id = id
      · -- the machine of the run in hand is kept with the token of the run
        obtain ⟨job₁, hjob₁, htoken₁⟩ := h.current _ hcurrent
        obtain ⟨job₂, hjob₂, htoken₂⟩ := h.kept e he
        rw [heq, hjob₁] at hjob₂
        cases hjob₂
        refine ⟨(s.publication id job status).job, ?_, htoken₁.symm.trans htoken₂⟩
        rw [State.jobAt, heq, hself]
        rfl
      · rw [State.jobAt, hother heq (.inr (List.mem_map_of_mem he))]
        exact h.kept e he
  next => cases hx

theorem Sound.makeRoom (h : Sound s) (hx : s.makeRoom cfg = some s') : Sound s' := by
  unfold State.makeRoom at hx
  split at hx
  next id job hworker =>
    cases hx
    exact h.frame (fun _ => rfl) rfl rfl rfl (fun _ => .inl) (by rw [hworker]; exact fun _ hp => hp)
      nofun nofun
  next id job old surplus hworker =>
    cases hx
    have hreleased : Sound (s.release old "made room for a newer run") := h.release
    refine hreleased.frame (fun _ => rfl) rfl rfl rfl (fun _ => .inl) ?_ nofun nofun
    rw [release_worker, hworker]
    exact fun _ hp => hp
  next id job hworker =>
    cases hx
    exact h.frame (fun _ => rfl) rfl rfl rfl (fun _ => .inl) (by rw [hworker]; exact fun _ hp => hp)
      nofun nofun
  next => cases hx

/-- The machine of the run in hand is kept. -/
theorem Sound.keep (h : Sound s) {now : ℤ} {info : LoginInfo} (hx : s.keep cfg now info = some s') :
    Sound s' := by
  unfold State.keep at hx
  split at hx
  next id job hworker =>
    obtain ⟨-, hx⟩ := Option.ite_none_left_eq_some.mp hx
    cases hx
    refine h.frame (fun _ => rfl) rfl rfl rfl (fun e he => ?_) (by rw [hworker]; exact fun _ hp => hp)
      nofun nofun
    rcases List.mem_append.mp he with he | he
    · exact .inl (List.mem_filter.mp he).1
    · obtain rfl := List.mem_singleton.mp he
      exact .inr ⟨job, by rw [hworker]; rfl, rfl⟩
  next => cases hx

theorem Sound.keepInfo (h : Sound s) (hx : s.keepInfo = some s') : Sound s' := by
  unfold State.keepInfo at hx
  split at hx
  next id job info hworker =>
    cases hx
    refine h.frame (jobAt_of_modify id (fun r => { r with keptInfo := some info }) rfl fun _ => rfl)
      rfl rfl rfl (fun _ => .inl) ?_ nofun nofun
    rw [hworker]
    exact fun _ hp => hp
  next => cases hx

theorem Sound.finish (h : Sound s) (hx : s.finish = some s') : Sound s' := by
  unfold State.finish at hx
  split at hx
  next id job hworker =>
    cases hx
    exact h.frame (fun _ => rfl) rfl rfl rfl (fun _ => .inl) (by rw [hworker]; exact fun _ hp => hp)
      nofun nofun
  next => cases hx

theorem Sound.fail (h : Sound s) (hx : s.fail = some s') : Sound s' := by
  unfold State.fail at hx
  split at hx
  next id job hworker =>
    cases hx
    exact h.frame (jobAt_of_modify id (fun r => { r with status := "error" }) rfl fun _ => rfl)
      rfl rfl rfl (fun _ => .inl) nofun nofun nofun
  next => cases hx

theorem Sound.noteExpiry (h : Sound s) (hx : s.noteExpiry = some s') : Sound s' := by
  unfold State.noteExpiry at hx
  split at hx
  next id job expires hworker =>
    cases hx
    refine h.frame (jobAt_of_modify id (fun r => { r with kept := some ⟨expires, none⟩ }) rfl fun _ => rfl)
      rfl rfl rfl (fun _ => .inl) ?_ nofun nofun
    rw [hworker]
    exact fun _ hp => hp
  next id job hworker =>
    cases hx
    exact h.frame (fun _ => rfl) rfl rfl rfl (fun _ => .inl) (by rw [hworker]; exact fun _ hp => hp)
      nofun nofun
  next => cases hx

theorem Sound.setAttempts (h : Sound s) {retrying : Bool} (hx : s.setAttempts retrying = some s') :
    Sound s' := by
  unfold State.setAttempts at hx
  split at hx
  next id job hworker =>
    cases hx
    exact h.frame (jobAt_of_modify id (fun r => { r with retrying := retrying }) rfl fun _ => rfl)
      rfl rfl rfl (fun _ => .inl) (fun _ hp => hp) (fun hw => hw) (fun hw => hw)
  next => cases hx

theorem Sound.ready (h : Sound s) (hx : s.ready = some s') : Sound s' := by
  unfold State.ready at hx
  split at hx
  next hworker =>
    cases hx
    exact h.frame (fun _ => rfl) rfl rfl rfl (fun _ => .inl) nofun nofun nofun
  next hworker =>
    cases hx
    exact h.frame (fun _ => rfl) rfl rfl rfl (fun _ => .inl) nofun nofun nofun
  next => cases hx

/-- **Every calm step keeps the queue sound.** -/
theorem sound_step {e : Event} (hrun : Runs cfg s e s') (h : Sound s) : Sound s' := by
  obtain ⟨hcalm, hx⟩ := hrun
  cases e with
  | start id job =>
    cases hx
    exact h.start hcalm
  | take => exact h.take hx
  | makeRoom => exact h.makeRoom hx
  | publish status => exact h.publish hcalm hx
  | keep now info => exact h.keep hx
  | keepInfo => exact h.keepInfo hx
  | finish => exact h.finish hx
  | fail => exact h.fail hx
  | noteExpiry => exact h.noteExpiry hx
  | setAttempts retrying => exact h.setAttempts hx
  | ready => exact h.ready hx
  | crash => exact hcalm.elim
  | release id reason =>
    cases hx
    exact h.release
  | released id reason =>
    obtain ⟨-, hx⟩ := Option.ite_none_right_eq_some.mp hx
    cases hx
    exact h.frame (jobAt_of_modify id (fun r => r.destroyed reason) rfl fun _ => rfl)
      rfl rfl rfl (fun _ => .inl) (fun _ hp => hp) (fun hw => hw) (fun hw => hw)
  | poll id token =>
    cases hx
    exact h

theorem sound_init : Sound .init :=
  ⟨List.nodup_nil, nofun, nofun, rfl, nofun, nofun, nofun, fun _ => rfl⟩

/-- The worker is never stuck while something waits. -/
theorem Sound.moves (h : Sound s) (hwaiting : s.waiting ≠ []) :
    ∃ e s', Event.ByWorker e ∧ Step cfg s e s' := by
  obtain ⟨id, waiting, hcons⟩ := List.exists_cons_of_ne_nil hwaiting
  -- wherever the worker is, one event is its next step
  cases hworker : s.worker with
  | off => exact absurd (h.started hworker) hwaiting
  | dead => exact absurd hworker h.alive
  | starting => exact ⟨.ready, _, trivial, by rw [Step, State.next, State.ready, hworker]⟩
  | top => exact ⟨.take, _, trivial, by rw [Step, State.next, State.take, hworker, hcons]⟩
  | taken id job =>
    exact ⟨.makeRoom, _, trivial, by rw [Step, State.next, State.makeRoom, hworker]⟩
  | clearing id job surplus =>
    cases surplus with
    | nil => exact ⟨.makeRoom, _, trivial, by rw [Step, State.next, State.makeRoom, hworker]⟩
    | cons old surplus =>
      exact ⟨.makeRoom, _, trivial, by rw [Step, State.next, State.makeRoom, hworker]⟩
  | running id job => exact ⟨.finish, _, trivial, by rw [Step, State.next, State.finish, hworker]⟩
  | keeping id job info =>
    exact ⟨.keepInfo, _, trivial, by rw [Step, State.next, State.keepInfo, hworker]⟩
  | closing id job expires =>
    cases expires with
    | none => exact ⟨.noteExpiry, _, trivial, by rw [Step, State.next, State.noteExpiry, hworker]⟩
    | some expires =>
      exact ⟨.noteExpiry, _, trivial, by rw [Step, State.next, State.noteExpiry, hworker]⟩
  | retrying id job => exact ⟨.ready, _, trivial, by rw [Step, State.next, State.ready, hworker]⟩

theorem Sound.promises (h : Sound s) : Promises cfg s := by
  refine ⟨fun id hid => ?_, h.once, h.moves, h.kept⟩
  obtain ⟨job, hjob⟩ := Option.ne_none_iff_exists'.mp (h.present id hid)
  refine ⟨job, ?_, hjob⟩
  rw [h.once]
  refine List.mem_append_right _ (List.mem_map.mpr ⟨id, hid, ?_⟩)
  rw [State.job, hjob, Option.getD_some]

/-- An answer that waits is known to its page. -/
theorem Sound.known (h : Sound s) {id : String} (hid : id ∈ s.waiting) (token : String) :
    adviceStatus s id token ≠ none := by
  intro hnone
  have hlookup : s.runs.lookup id = none := Option.map_eq_none_iff.mp hnone
  exact h.present id hid (by rw [State.jobAt, hlookup, Option.map_none])

/-- **The promises are kept in every run that pushes out no record that is needed.** -/
theorem promises_of_sequence (h : Sequence (Runs cfg) .init s) : Promises cfg s :=
  Sound.promises (h.invariant (fun _ _ _ hrun hs => sound_step hrun hs) sound_init)

/-! ### Two runs -/

instance (s : State) : DecidablePred (Calm s)
  | .start id _ => inferInstanceAs (Decidable (id ∉ s.waiting ∧ id ∉ s.kept.map (·.id) ∧
      ∀ p ∈ s.worker.current, p.1 ≠ id))
  | .publish status => inferInstanceAs (Decidable (∀ p ∈ s.worker.current,
      ∀ e ∈ evicted adviceKeep (setLast s.runs p.1 (s.publication p.1 p.2 status)),
        e.1 ∉ s.waiting ∧ e.1 ∉ s.kept.map (·.id)))
  | .crash => .isFalse not_false
  | .take | .makeRoom | .keep _ _ | .keepInfo | .finish | .fail | .noteExpiry | .setAttempts _
  | .ready | .release _ _ | .released _ _ | .poll _ _ => .isTrue trivial

def goCalm (cfg : Config) (s : State) (e : Event) : Option State :=
  if Calm s e then s.next cfg e else none

theorem runs_goCalm {e : Event} (h : goCalm cfg s e = some s') : Runs cfg s e s' :=
  Option.ite_none_right_eq_some.mp h

/-- What the module is configured with. -/
def defaults : Config := ⟨20, 2⟩

/-- An answer waits while the machine of another one is kept. -/
theorem promises_of_sequence_kept : ∃ s : State,
    (s.waiting, s.kept.map (·.id)) = (["b"], ["a"]) ∧ Promises defaults s := by
  have hrun : (runSequence (goCalm defaults) [.start "a" ⟨"ls", "files?", "", "t"⟩, .ready, .take,
      .makeRoom, .makeRoom, .publish "running", .start "b" ⟨"df", "disk?", "", "u"⟩,
      .keep 0 ⟨"student", [], false, "", ""⟩, .keepInfo, .publish "done", .finish, .noteExpiry]
      .init).map (fun s => (s.waiting, s.kept.map (·.id))) = some (["b"], ["a"]) := by
    decide
  obtain ⟨s, hs, hshared⟩ := Option.map_eq_some_iff.mp hrun
  exact ⟨s, hshared, promises_of_sequence (sequence_of_run (fun _ _ _ => runs_goCalm) hs)⟩

/-- The `n`-th of many ids. -/
def nthId (n : ℕ) : String := String.ofList (List.replicate n '0')

/-- **Fifty-one answers are queued; the first one's progress pushes out the second one's record.** -/
theorem pushed_out : ¬∀ (cfg : Config) (s : State), Sequence (Step cfg) .init s → Promises cfg s := by
  intro hall
  have hrun : (runSequence (State.next defaults)
      ((List.range 51).map (fun n => Event.start (nthId n) ⟨"ls", "files?", "", "t"⟩) ++
        [.ready, .take, .makeRoom, .makeRoom, .publish "running"]) .init).map
        (fun s => (s.waiting.head?, s.jobAt (nthId 1))) = some (some (nthId 1), none) := by
    decide +kernel
  obtain ⟨s, hs, hpair⟩ := Option.map_eq_some_iff.mp hrun
  obtain ⟨hhead, hnone⟩ := Prod.mk.inj hpair
  have hreach : Sequence (Step defaults) .init s := sequence_of_run (fun _ _ _ h => h) hs
  obtain ⟨job, -, hjob⟩ := (hall defaults s hreach).held _ (List.mem_of_head? hhead)
  rw [hnone] at hjob
  cases hjob

end Advice
end CloudCore
