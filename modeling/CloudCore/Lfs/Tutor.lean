import CloudCore.Effect.Pool
import CloudCore.Effect.Sequential
import CloudCore.Lfs.Journal
import CloudCore.Python.Isoformat
import Mathlib.Data.List.Nodup

/-!
# The tutor's budget

`main` of `lfs-tutor.py`, which a timer runs.  The lock lets one run at a time work, so that
runs follow one another; a run may be killed between two of its commands, every call may
raise, and before each command the clock goes on and the journals may grow.  A session leaves
its file in `STATE/sessions` and its answer in the journal only after it has ended.

## Main definitions

* `main` — one run.
* `State` — the journals and the files; with the sessions that were started, and the one that
  has no answer yet.
* `Promises` — what is promised.
* `Careful` — no run ends before its session is answered, none starts past midnight, and no
  file is written over.
* `Sound` — the invariant.

## Main results

* `kept_of_reaches` — **the promises are kept in every run whose steps are careful.**
* `tutored_twice` — a run that is killed during its session is followed by another session.
-/

namespace CloudCore
namespace Tutor

open Effect Python Lfs
open Effect.Program (attempt)

/-! ### The data -/

/-- What a run reads of a build. -/
structure Build where
  id : ℤ
  status : String

/-- What a run reads of a task. -/
structure Task where
  id : ℤ
  number : String
  title : String
  journal : List Entry

/-- What a run reads of a session's output. -/
structure Output where
  diagnosis : String
  needsPaul : Bool
  lesson : String
  finding : Json
  whyPaul : Option String
  seconds : ℤ
  costUsd : Json

/-- Which `except` clause an exception meets. -/
inductive Kind where
  | runtimeError
  | timeoutExpired
  | osError
  | other
  deriving DecidableEq

/-- An exception, with its text. -/
structure Failure where
  kind : Kind
  text : String
  deriving DecidableEq

/-- `DAILY_CAP`, `MODEL`, and the command line. -/
structure Settings where
  dailyCap : ℤ
  model : String
  build : ℤ
  dryRun : Bool

/-- The name of a session's file. -/
def recordName (started : DateTime) (build task : ℤ) : String :=
  .ofList (started.date.text ++ 'T' :: (pad 2 started.time.hour ++ (pad 2 started.time.minute ++
    (pad 2 started.time.second ++ ("-b".toList ++ ((toString build).toList ++ ("-t".toList ++
      ((toString task).toList ++ ".json".toList))))))))

/-- `glob(f"{day}T*.json")`. -/
def isOf (day : Date) (name : String) : Bool :=
  (day.text ++ ['T']).isPrefixOf name.toList &&
    ".json".toList.isSuffixOf (name.toList.drop (day.text.length + 1))

/-- A session that was started, and where the journal says its task became stuck. -/
structure Session where
  start : DateTime
  task : ℤ
  stuck : ℤ

/-- The session that has no answer in the journal, and its file. -/
structure Opened where
  task : ℤ
  stuck : ℤ
  record : String
  recorded : Bool

structure State where
  clock : DateTime
  journal : ℤ → List Entry
  files : List String
  sessions : List Session
  opened : Option Opened

/-! ### A run -/

inductive Cmd where
  /-- `GET /v1/lfs/builds`. -/
  | builds
  /-- `GET /v1/lfs/builds/<id>/next`. -/
  | next (build : ℤ)
  /-- `GET /v1/lfs/tasks/<id>`. -/
  | task (id : ℤ)
  /-- `brief`, which only reads. -/
  | brief (task : ℤ)
  /-- `sessions_today`. -/
  | sessionsToday
  /-- `datetime.now(timezone.utc)`. -/
  | now
  /-- `CLAUDE_BIN` is started on a task that became stuck at `stuck`. -/
  | start (task stuck : ℤ) (started : DateTime) (record : String)
  /-- It has ended, and its output is read. -/
  | wait
  /-- `record.write_text`. -/
  | write (record : String)
  /-- `POST /v1/lfs/tasks/<id>/journal`. -/
  | post (task : ℤ) (entry : Entry)
  /-- `POST /v1/lfs/builds/<id>`. -/
  | pause (build : ℤ)
  /-- `POST /v1/lfs/tasks/<id>/state`. -/
  | reset (task : ℤ)

@[reducible] def Cmd.Ans : Cmd → Type
  | .builds => Except Failure (ℤ × List Build)
  | .next _ => Except Failure (Option (ℤ × String))
  | .task _ => Except Failure (ℤ × Task)
  | .brief _ | .write _ => Except Failure Unit
  | .sessionsToday => Except Failure ℕ
  | .now => DateTime
  | .start .. => Except Failure DateTime
  | .wait => Except Failure Output
  | .post .. | .pause _ | .reset _ => Except Failure ℤ

abbrev sig : Signature := ⟨Cmd, Cmd.Ans⟩

abbrev Code (α : Type) := Program sig Failure α

def tryStep {α : Type} (c : Cmd) (h : c.Ans = Except Failure α) : Code α :=
  attempt (F := sig) c h

def post (task : Task) (kind text : String) (data : Json) : Code Unit := do
  let status : ℤ ← tryStep (.post task.id ⟨"claude", kind, text, some data⟩) rfl
  if status ≠ 201 then throw ⟨.runtimeError, s!"journal write failed: HTTP {status}"⟩
  else pure ()

def pauseForPaul (build : Build) (task : Task) (why : String) (data : List (String × Json)) :
    Code Unit := do
  let () ← post task "escalation" s!"rung 4: {why}" (.obj (("rung", .int 4) :: data))
  let _ : ℤ ← tryStep (.pause build.id) rfl
  pure ()

def tutor (task : Task) (started : DateTime) (record : String) : Code Output := do
  let () ← tryStep (.brief task.id) rfl
  let _ : DateTime ← tryStep (.start task.id (stuckAt task.journal) started record) rfl
  tryStep .wait rfl

/-- `text[:300]`. -/
def clip (s : String) : String := String.ofList (s.toList.take 300)

/-- `meta`. -/
def sessionMeta (cfg : Settings) (record : String) (out : Output) : List (String × Json) :=
  [("session", .str record), ("seconds", .int out.seconds), ("cost_usd", out.costUsd),
    ("model", .str cfg.model)]

/-- What `main` does with the answer of a session. -/
def teach (cfg : Settings) (build : Build) (task : Task) (record : String) (out : Output) :
    Code Unit := do
  let () ← tryStep (.write record) rfl
  let about := sessionMeta cfg record out
  let () ← post task "note" s!"tutor's diagnosis: {out.diagnosis}" (.obj about)
  if out.needsPaul then
    let why := (out.whyPaul.filter (· ≠ "")).getD out.diagnosis
    pauseForPaul build task s!"the tutor says this needs Paul: {why}" about
  else do
    let () ← post task "lesson" out.lesson (.obj (("finding", out.finding) :: about))
    let () ← post task "escalation" "rung 3: tutor session done; the lesson is in the journal"
      (.obj (("rung", .int 3) :: ("status", .str "done") :: about))
    let _ : ℤ ← tryStep (.reset task.id) rfl
    pure ()

/-- What `main` does where `tutor` raised. -/
def giveUp (build : Build) (task : Task) (record : String) (e : Failure) : Code (Option ℤ) := do
  let () ← tryStep (.write record) rfl
  let () ← pauseForPaul build task
    s!"a tutor session failed ({clip e.text}); {task.number} waits for Paul"
    [("session", .str record)]
  pure (some 1)

/-- A session on a task that wants one; what `main` returns, if it does. -/
def session (cfg : Settings) (build : Build) (task : Task) : Code (Option ℤ) := do
  let n : ℕ ← tryStep .sessionsToday rfl
  if (n : ℤ) ≥ cfg.dailyCap then do
    let () ← pauseForPaul build task
      (s!"the tutor's daily cap ({cfg.dailyCap} sessions) is reached; " ++
        s!"{task.number} {task.title} waits for Paul") [("cap", .int cfg.dailyCap)]
    pure (some 0)
  else do
    let started : DateTime ← Program.perform (F := sig) .now
    let record := recordName started build.id task.id
    let out : Except Failure Output ← tryCatch (do
        let out ← tutor task started record
        pure (.ok out))
      fun e => if e.kind = .other then throw e else pure (.error e)
    match out with
    | .error e => giveUp build task record e
    | .ok out => do
      let () ← teach cfg build task record out
      pure none

/-- One round of the loop of `main`; what it returns, if it does. -/
def oneBuild (cfg : Settings) (build : Build) : Code (Option ℤ) := do
  if build.status ≠ "running" ∨ cfg.build ≠ 0 ∧ build.id ≠ cfg.build then pure none
  else do
    let next : Option (ℤ × String) ← tryStep (.next build.id) rfl
    match next with
    | none => pure none
    | some (id, state) =>
      if state ≠ "stuck" then pure none
      else do
        let (status, task) ← tryStep (α := ℤ × Task) (.task id) rfl
        if status ≠ 200 then pure none
        else
          match wanted task.journal with
          | none => throw ⟨.other, "AttributeError"⟩
          | some false => pure none
          | some true =>
            if cfg.dryRun then do
              let () ← tryStep (.brief task.id) rfl
              pure none
            else session cfg build task

def allBuilds (cfg : Settings) : List Build → Code ℤ
  | [] => pure 0
  | build :: builds => do
    let code ← oneBuild cfg build
    match code with
    | some code => pure code
    | none => allBuilds cfg builds

/-- `main`, with the lock and `LFS_API_SSH` set. -/
def main (cfg : Settings) : Code ℤ := do
  let (status, builds) ← tryStep (α := ℤ × List Build) .builds rfl
  if status ≠ 200 then pure 1
  else allBuilds cfg builds

/-! ### What the commands do -/

/-- The sessions that were started on a day. -/
def State.startedOn (s : State) (day : Date) : ℕ := s.sessions.countP fun σ => σ.start.date = day

/-- The files of a day. -/
def State.filesOn (s : State) (day : Date) : ℕ := s.files.countP (isOf day)

/-- The clock goes on, and the worker, Sentinel and others write to the journals. -/
structure State.Evolves (s s' : State) : Prop where
  clock : s.clock.micros ≤ s'.clock.micros
  journal : ∀ task, s.journal task <+: s'.journal task
  files : s'.files = s.files
  sessions : s'.sessions = s.sessions
  opened : s'.opened = s.opened

/-- A file is written, or written over. -/
def State.write (s : State) (record : String) : State :=
  { s with
    files := if record ∈ s.files then s.files else s.files ++ [record]
    opened := s.opened.map fun o => if o.record = record then { o with recorded := true } else o }

def State.start (s : State) (task stuck : ℤ) (record : String) : State :=
  { s with
    sessions := s.sessions ++ [⟨s.clock, task, stuck⟩]
    opened := some ⟨task, stuck, record, false⟩ }

/-- The entry as the API stores it. -/
def Entry.stored (e : Entry) : Entry :=
  { e with text := String.ofList ((strip e.text).toList.take 20000) }

/-- An escalation of the tutor. -/
def IsAnswer (e : Entry) : Prop := e.kind = "escalation" ∧ answers e = some true

instance (e : Entry) : Decidable (IsAnswer e) := inferInstanceAs (Decidable (_ ∧ _))

/-- An answer is not known by its text. -/
theorem isAnswer_text {e : Entry} (h : IsAnswer e) (text : String) : IsAnswer { e with text := text } :=
  h

theorem isAnswer_stored {e : Entry} (h : IsAnswer e) : IsAnswer (Entry.stored e) :=
  isAnswer_text h _

def State.post (s : State) (task : ℤ) (e : Entry) : State :=
  { s with
    journal := Function.update s.journal task (s.journal task ++ [e])
    opened := s.opened.filter fun o => ¬(o.task = task ∧ IsAnswer e) }

/-- A command.  A write that raises, or answers with another status than 201, may have been
made. -/
def act (s : State) : (c : Cmd) → c.Ans → State → Prop
  | .task id, .ok (status, task), s' =>
    (status = 200 → task.id = id ∧ task.journal = s.journal id) ∧ s' = s
  | .sessionsToday, .ok n, s' => n = s.filesOn s.clock.date ∧ s' = s
  | .now, t, s' => t = s.clock ∧ s' = s
  | .start task stuck _ record, .ok t, s' => t = s.clock ∧ s' = s.start task stuck record
  | .write record, .ok (), s' => s' = s.write record
  | .write record, .error _, s' => s' = s.write record ∨ s' = s
  | .post task e, .ok status, s' => (status = 201 → strip e.text ≠ "") ∧
    (s' = s.post task (Entry.stored e) ∨ status ≠ 201 ∧ s' = s)
  | .post task e, .error _, s' => s' = s.post task (Entry.stored e) ∨ s' = s
  | _, _, s' => s' = s

/-- A command, and what happens before it. -/
def exec (_ : Unit) (s : State) (c : Cmd) (a : c.Ans) (s' : State) : Prop :=
  ∃ s₁, s.Evolves s₁ ∧ act s₁ c a s'

/-- The timer runs `main`; the command line may change. -/
def Starts (cap : ℤ) (_ : Config sig Failure ℤ Unit State) : Move sig Failure ℤ Unit → Prop
  | .start _ p => ∃ cfg : Settings, cfg.dailyCap = cap ∧ p = main cfg
  | _ => True

/-- A session starts on the day of its file's name, and no file is written over. -/
def Punctual (s : State) : (c : Cmd) → c.Ans → Prop
  | .start _ _ started _, .ok t => t.date = started.date
  | .write record, _ => record ∉ s.files
  | _, _ => True

/-- And no run is killed, or ends with an exception, while its session has no answer. -/
def Careful (x : Config sig Failure ℤ Unit State) : Move sig Failure ℤ Unit → Prop
  | .call _ c a => Punctual x.shared c a
  | .kill _ | .finish _ (.error _) => x.shared.opened = none
  | _ => True

/-- No session yet; the files and the journals may be any. -/
def State.Fresh (s : State) : Prop := s.sessions = [] ∧ s.opened = none

structure Promises (cap : ℤ) (s : State) : Prop where
  /-- At most `DAILY_CAP` sessions a day. -/
  budget : ∀ day, s.startedOn day ≤ cap.toNat
  /-- At most one for each time a task becomes stuck. -/
  once : (s.sessions.map fun σ => (σ.task, σ.stuck)).Nodup

/-! ### The invariant -/

/-- The file of a day that the open session has still to get. -/
def State.owed (s : State) (day : Date) : ℕ :=
  match s.opened with
  | some o => if o.recorded = false ∧ isOf day o.record = true then 1 else 0
  | none => 0

structure Sound (cap : ℤ) (s : State) : Prop extends Promises cap s where
  past : ∀ σ ∈ s.sessions, σ.start.micros ≤ s.clock.micros
  reached : ∀ σ ∈ s.sessions, σ.stuck ≤ stuckAt (s.journal σ.task)
  /-- A session is answered in the journal, or has still to be. -/
  answered : ∀ σ ∈ s.sessions, Answered (s.journal σ.task) σ.stuck ∨
    ∃ o, s.opened = some o ∧ o.task = σ.task ∧ o.stuck = σ.stuck
  /-- It has its file, or has still to get it. -/
  recorded : ∀ day, s.startedOn day ≤ s.filesOn day + s.owed day

/-- What a command must know. -/
def Guard (cap : ℤ) (s : State) : Cmd → Prop
  | .start task stuck started record => s.opened = none ∧
    (∀ σ ∈ s.sessions, (σ.task, σ.stuck) ≠ (task, stuck)) ∧ stuck ≤ stuckAt (s.journal task) ∧
    (s.startedOn started.date : ℤ) < cap ∧ ∀ day, isOf day record = true ↔ started.date = day
  | .write record => ∀ o, s.opened = some o → o.record = record
  | .post task _ => ∀ o, s.opened = some o → o.task = task ∧ o.recorded = true
  | _ => True

variable {cap : ℤ} {s s' : State}

/-- A file's name tells its day. -/
theorem isOf_recordName (day : Date) (started : DateTime) (build task : ℤ) :
    isOf day (recordName started build task) = true ↔ started.date = day := by
  have hlen : day.text.length = started.date.text.length := by
    rw [length_dateText, length_dateText]
  unfold isOf recordName
  rw [Bool.and_eq_true, List.isPrefixOf_iff_prefix, List.isSuffixOf_iff_suffix, String.toList_ofList]
  constructor
  · rintro ⟨⟨rest, hrest⟩, -⟩
    rw [List.append_assoc] at hrest
    exact (dateText_inj (List.append_inj_left hrest hlen)).symm
  · rintro rfl
    refine ⟨⟨_, List.append_assoc ..⟩, ?_⟩
    rw [List.drop_append, List.drop_of_length_le (Nat.le_succ _), List.nil_append,
      Nat.add_sub_cancel_left, List.drop_one, List.tail_cons]
    iterate 6 refine List.suffix_append_of_suffix ?_
    exact List.suffix_append ..

theorem Sound.evolves (h : Sound cap s) (hs : s.Evolves s') : Sound cap s' := by
  have hstarted : ∀ day, s'.startedOn day = s.startedOn day := fun day => by
    unfold State.startedOn
    rw [hs.sessions]
  have hfiles : ∀ day, s'.filesOn day = s.filesOn day := fun day => by
    unfold State.filesOn
    rw [hs.files]
  have howed : ∀ day, s'.owed day = s.owed day := fun day => by
    unfold State.owed
    rw [hs.opened]
  refine ⟨⟨fun day => ?_, ?_⟩, fun σ hσ => ?_, fun σ hσ => ?_, fun σ hσ => ?_, fun day => ?_⟩
  · rw [hstarted]
    exact h.budget day
  · rw [hs.sessions]
    exact h.once
  · rw [hs.sessions] at hσ
    exact Nat.le_trans (h.past σ hσ) hs.clock
  · rw [hs.sessions] at hσ
    obtain ⟨l, hl⟩ := hs.journal σ.task
    rw [← hl]
    exact Int.le_trans (h.reached σ hσ) (stuckAt_append _ l)
  · rw [hs.sessions] at hσ
    obtain ⟨l, hl⟩ := hs.journal σ.task
    rw [← hl, hs.opened]
    exact (h.answered σ hσ).imp_left fun hans => hans.append l
  · rw [hstarted, hfiles, howed]
    exact h.recorded day

theorem Guard.evolves {c : Cmd} (h : Guard cap s c) (hs : s.Evolves s') : Guard cap s' c := by
  cases c with
  | start task stuck started record =>
    obtain ⟨hopened, hfresh, hstuck, hroom, hday⟩ := h
    obtain ⟨l, hl⟩ := hs.journal task
    refine ⟨hs.opened.trans hopened, ?_, ?_, ?_, hday⟩
    · rw [hs.sessions]
      exact hfresh
    · rw [← hl]
      exact Int.le_trans hstuck (stuckAt_append _ l)
    · unfold State.startedOn at hroom ⊢
      rw [hs.sessions]
      exact hroom
  | write record =>
    intro o ho
    exact h o (hs.opened ▸ ho)
  | post task e =>
    intro o ho
    exact h o (hs.opened ▸ ho)
  | _ => trivial

theorem Punctual.evolves {c : Cmd} {a : c.Ans} (h : Punctual s c a) (hs : s.Evolves s') :
    Punctual s' c a := by
  cases c with
  | start _ _ _ _ =>
    cases a with
    | ok t => exact h
    | error e => trivial
  | write record => exact fun hmem => h (hs.files ▸ hmem)
  | _ => trivial

theorem owed_of_none (h : s.opened = none) (day : Date) : s.owed day = 0 := by
  rw [State.owed, h]

theorem owed_of_some {o : Opened} (h : s.opened = some o) (day : Date) :
    s.owed day = if o.recorded = false ∧ isOf day o.record = true then 1 else 0 := by
  rw [State.owed, h]

theorem startedOn_start (s : State) (task stuck : ℤ) (record : String) (day : Date) :
    (s.start task stuck record).startedOn day =
      s.startedOn day + if s.clock.date = day then 1 else 0 := by
  unfold State.startedOn State.start
  rw [List.countP_append, List.countP_singleton]
  simp only [decide_eq_true_eq]

/-- A session starts. -/
theorem Sound.start (h : Sound cap s) {task stuck : ℤ} {started : DateTime} {record : String}
    (hg : Guard cap s (.start task stuck started record)) (hday : s.clock.date = started.date) :
    Sound cap (s.start task stuck record) := by
  obtain ⟨hopened, hfresh, hstuck, hroom, hname⟩ := hg
  refine ⟨⟨fun day => ?_, ?_⟩, fun σ hσ => ?_, fun σ hσ => ?_, fun σ hσ => ?_, fun day => ?_⟩
  · rw [startedOn_start]
    have hbudget := h.budget day
    by_cases heq : s.clock.date = day
    · rw [← hday, heq] at hroom
      rw [if_pos heq]
      omega
    · rw [if_neg heq]
      omega
  · change ((s.sessions ++ [_]).map _).Nodup
    rw [List.map_append, List.map_singleton]
    refine List.nodup_append.mpr ⟨h.once, List.nodup_singleton _, fun a ha b hb heq => ?_⟩
    obtain ⟨σ, hσ, rfl⟩ := List.mem_map.mp ha
    obtain rfl := List.mem_singleton.mp hb
    exact hfresh σ hσ heq
  · rcases List.mem_append.mp hσ with hσ | hσ
    · exact h.past σ hσ
    · obtain rfl := List.mem_singleton.mp hσ
      exact Nat.le_refl _
  · rcases List.mem_append.mp hσ with hσ | hσ
    · exact h.reached σ hσ
    · obtain rfl := List.mem_singleton.mp hσ
      exact hstuck
  · rcases List.mem_append.mp hσ with hσ | hσ
    · rcases h.answered σ hσ with hans | ⟨o, ho, -⟩
      · exact .inl hans
      · rw [hopened] at ho
        cases ho
    · obtain rfl := List.mem_singleton.mp hσ
      exact .inr ⟨_, rfl, rfl, rfl⟩
  · have hold := h.recorded day
    have howed : (s.start task stuck record).owed day = if s.clock.date = day then 1 else 0 := by
      change (if false = false ∧ isOf day record = true then 1 else 0) = _
      rw [hday]
      exact if_congr ((and_iff_right rfl).trans (hname day)) rfl rfl
    rw [owed_of_none hopened] at hold
    rw [startedOn_start, howed]
    exact Nat.add_le_add_right hold _

/-- Its file is written. -/
theorem Sound.write (h : Sound cap s) {record : String} (hg : Guard cap s (.write record))
    (hnew : record ∉ s.files) : Sound cap (s.write record) := by
  have hfiles (day : Date) : (s.write record).filesOn day =
      s.filesOn day + if isOf day record = true then 1 else 0 := by
    unfold State.filesOn State.write
    rw [if_neg hnew, List.countP_append, List.countP_singleton]
  refine ⟨⟨h.budget, h.once⟩, h.past, h.reached, fun σ hσ => ?_, fun day => ?_⟩
  · refine (h.answered σ hσ).imp_right ?_
    rintro ⟨o, ho, htask, hstuck⟩
    refine ⟨if o.record = record then { o with recorded := true } else o,
      congrArg (Option.map _) ho, ?_⟩
    split <;> exact ⟨htask, hstuck⟩
  · have hold := h.recorded day
    rw [hfiles]
    cases hopened : s.opened with
    | none =>
      rw [owed_of_none hopened] at hold
      change s.startedOn day ≤ _
      omega
    | some o =>
      -- the open session's file is this one
      have howed : s.owed day ≤ if isOf day record = true then 1 else 0 := by
        rw [owed_of_some hopened, hg o hopened]
        split
        · next hand => rw [if_pos hand.2]
        · exact Nat.zero_le _
      change s.startedOn day ≤ _
      omega

/-- An entry is posted. -/
theorem Sound.post (h : Sound cap s) {task : ℤ} {e : Entry}
    (hg : ∀ o, s.opened = some o → o.task = task ∧ o.recorded = true) :
    Sound cap (s.post task e) := by
  have hjournal (t : ℤ) : ∃ l, (s.post task e).journal t = s.journal t ++ l := by
    by_cases ht : t = task
    · subst ht
      exact ⟨[e], Function.update_self ..⟩
    · exact ⟨[], by rw [List.append_nil]; exact Function.update_of_ne ht ..⟩
  refine ⟨⟨h.budget, h.once⟩, h.past, fun σ hσ => ?_, fun σ hσ => ?_, fun day => ?_⟩
  · obtain ⟨l, hl⟩ := hjournal σ.task
    rw [hl]
    exact Int.le_trans (h.reached σ hσ) (stuckAt_append _ l)
  · rcases h.answered σ hσ with hans | ⟨o, ho, htask, hstuck⟩
    · obtain ⟨l, hl⟩ := hjournal σ.task
      rw [hl]
      exact .inl (hans.append l)
    · by_cases hanswer : IsAnswer e
      · refine .inl ?_
        have hl : (s.post task e).journal σ.task = s.journal σ.task ++ [e] := by
          rw [← htask, (hg o ho).1]
          exact Function.update_self ..
        rw [hl]
        exact answered_concat (h.reached σ hσ) hanswer.1 hanswer.2
      · refine .inr ⟨o, ?_, htask, hstuck⟩
        change s.opened.filter _ = some o
        rw [ho, Option.filter_some_pos]
        exact decide_eq_true fun hand => hanswer hand.2
  · have hold := h.recorded day
    have hnone : s.owed day = 0 := by
      cases hopened : s.opened with
      | none => exact owed_of_none hopened day
      | some o =>
        rw [owed_of_some hopened]
        refine if_neg fun hand => ?_
        rw [(hg o hopened).2] at hand
        cases hand.1
    rw [hnone] at hold
    exact Nat.le_trans hold (Nat.le_add_right _ _)

/-- **Every command keeps the state sound.** -/
theorem sound_act {c : Cmd} {a : c.Ans} (hx : act s c a s') (hg : Guard cap s c)
    (hp : Punctual s c a) (h : Sound cap s) : Sound cap s' := by
  cases c with
  | start task stuck started record =>
    cases a with
    | ok t =>
      obtain ⟨rfl, rfl⟩ := hx
      exact h.start hg hp
    | error e => exact hx ▸ h
  | write record =>
    cases a with
    | ok u =>
      obtain rfl := hx
      exact h.write hg hp
    | error e =>
      rcases hx with rfl | rfl
      · exact h.write hg hp
      · exact h
  | post task e =>
    have hpost : Sound cap (s.post task (Entry.stored e)) := h.post hg
    cases a with
    | ok status =>
      rcases hx.2 with rfl | ⟨-, rfl⟩
      · exact hpost
      · exact h
    | error f =>
      rcases hx with rfl | rfl
      · exact hpost
      · exact h
  | task id =>
    cases a with
    | ok r => exact hx.2 ▸ h
    | error e => exact hx ▸ h
  | sessionsToday =>
    cases a with
    | ok n => exact hx.2 ▸ h
    | error e => exact hx ▸ h
  | now => exact hx.2 ▸ h
  | _ => exact hx ▸ h

/-! ### A run, where nothing ends it -/

section Run

/-- The weakest precondition of a run. -/
abbrev lwp {α : Type} (cap : ℤ) (p : Code α) (Q : α → State → Prop) (E : Failure → State → Prop)
    (s : State) : Prop :=
  Program.wp (fun s c a s' => exec () s c a s' ∧ Punctual s c a ∧ Sound cap s) Eq
    (fun s c _ _ => Guard cap s c) p Q E s

/-- The commands that leave no trace. -/
def Quiet : Cmd → Prop
  | .start .. | .write _ | .post .. => False
  | _ => True

theorem evolves_of_quiet {c : Cmd} {a : c.Ans} (hc : Quiet c) (hx : exec () s c a s') :
    s.Evolves s' := by
  obtain ⟨s₁, hs, hact⟩ := hx
  have heq : s' = s₁ := by
    cases c with
    | start _ _ _ _ => exact hc.elim
    | write _ => exact hc.elim
    | post _ _ => exact hc.elim
    | task id =>
      cases a with
      | ok r => exact hact.2
      | error e => exact hact
    | sessionsToday =>
      cases a with
      | ok n => exact hact.2
      | error e => exact hact
    | now => exact hact.2
    | _ => exact hact
  exact heq ▸ hs

theorem guard_of_quiet {c : Cmd} (hc : Quiet c) : Guard cap s c := by
  cases c with
  | start _ _ _ _ => exact hc.elim
  | write _ => exact hc.elim
  | post _ _ => exact hc.elim
  | _ => trivial

/-- A step that leaves no trace. -/
theorem lwp_quiet {β : Type} {c : Cmd} (hans : c.Ans = Except Failure β) {Q : β → State → Prop}
    {E : Failure → State → Prop} (hc : Quiet c) (hQ : ∀ b s', s.Evolves s' → Q b s')
    (hE : ∀ e s', s.Evolves s' → E e s') : lwp cap (tryStep c hans) Q E s := by
  refine (Program.wp_call_eq _ _).mpr fun a s' hx => ⟨guard_of_quiet hc, ?_⟩
  have hs := evolves_of_quiet hc hx.1
  exact Program.wp_lift.mpr ⟨fun b _ => hQ b s' hs, fun e _ => hE e s' hs⟩

theorem lwp_quiet_bind {α β : Type} {c : Cmd} {hans : c.Ans = Except Failure β} {f : β → Code α}
    {Q : α → State → Prop} {E : Failure → State → Prop} (hc : Quiet c)
    (hf : ∀ b s', s.Evolves s' → lwp cap (f b) Q E s') (hE : ∀ e s', s.Evolves s' → E e s') :
    lwp cap (tryStep c hans >>= f) Q E s :=
  Program.wp_after (lwp_quiet hans hc (fun _ _ hs => hs) hE) hf

/-- The open session, if there is one, is on `task`, and its file is `record`. -/
def Owned (task : ℤ) (record : String) (s : State) : Prop :=
  ∀ o, s.opened = some o → o.task = task ∧ o.record = record

/-- The open session, if there is one, is on `task`, and has its file. -/
def Written (task : ℤ) (s : State) : Prop :=
  ∀ o, s.opened = some o → o.task = task ∧ o.recorded = true

/-- No session is open, and none was started on `task` since it became stuck at `stuck`. -/
def Ready (task stuck : ℤ) (s : State) : Prop :=
  s.opened = none ∧ (∀ σ ∈ s.sessions, (σ.task, σ.stuck) ≠ (task, stuck)) ∧
    stuck ≤ stuckAt (s.journal task)

theorem Owned.evolves {task : ℤ} {record : String} (h : Owned task record s) (hs : s.Evolves s') :
    Owned task record s' := fun o ho => h o (hs.opened ▸ ho)

theorem Written.evolves {task : ℤ} (h : Written task s) (hs : s.Evolves s') : Written task s' :=
  fun o ho => h o (hs.opened ▸ ho)

theorem Ready.evolves {task stuck : ℤ} (h : Ready task stuck s) (hs : s.Evolves s') :
    Ready task stuck s' := by
  obtain ⟨l, hl⟩ := hs.journal task
  refine ⟨hs.opened.trans h.1, ?_, ?_⟩
  · rw [hs.sessions]
    exact h.2.1
  · rw [← hl]
    exact Int.le_trans h.2.2 (stuckAt_append _ l)

theorem Written.of_none {task : ℤ} (h : s.opened = none) : Written task s := by
  intro o ho
  rw [h] at ho
  cases ho

/-- The file of the open session is written. -/
theorem lwp_write {α : Type} {task : ℤ} {record : String} {f : Unit → Code α}
    {Q : α → State → Prop} (h : Owned task record s)
    (hf : ∀ s', Written task s' → lwp cap (f ()) Q (fun _ _ => True) s') :
    lwp cap (tryStep (.write record) rfl >>= f) Q (fun _ _ => True) s := by
  refine Program.wp_attempt rfl fun a s' hx => ⟨fun o ho => (h o ho).2, ?_⟩
  obtain ⟨⟨s₁, hs, hact⟩, -⟩ := hx
  cases a with
  | error e => trivial
  | ok u =>
    obtain rfl := hact
    refine hf _ fun o ho => ?_
    obtain ⟨o', ho', rfl⟩ := Option.map_eq_some_iff.mp ho
    obtain ⟨htask, hrecord⟩ := h.evolves hs o' ho'
    rw [if_pos hrecord]
    exact ⟨htask, rfl⟩

theorem Written.post {task : ℤ} (h : Written task s) (e : Entry) : Written task (s.post task e) := by
  intro o ho
  exact h o (Option.eq_some_of_filter_eq_some ho)

/-- An entry is posted; an escalation of the tutor closes the session. -/
theorem lwp_post {task : Task} {kind text : String} {data : Json} (h : Written task.id s) :
    lwp cap (post task kind text data)
      (fun _ s => Written task.id s ∧
        (IsAnswer ⟨"claude", kind, text, some data⟩ → s.opened = none))
      (fun _ _ => True) s := by
  refine Program.wp_attempt rfl fun a s' hx => ⟨h, ?_⟩
  obtain ⟨⟨s₁, hs, hact⟩, -⟩ := hx
  cases a with
  | error e => trivial
  | ok status =>
    change Program.wp _ _ _ (if status ≠ 201 then _ else _) _ _ _
    split
    · trivial
    · next hstatus =>
      rcases hact.2 with rfl | ⟨hne, -⟩
      · have hw := (h.evolves hs).post (Entry.stored ⟨"claude", kind, text, some data⟩)
        refine ⟨hw, fun hanswer => ?_⟩
        cases hopened : s₁.opened with
        | none => exact congrArg (Option.filter _) hopened
        | some o =>
          refine (congrArg (Option.filter _) hopened).trans (Option.filter_some_neg ?_)
          exact decide_eq_false (not_not.mpr ⟨(h.evolves hs o hopened).1, isAnswer_stored hanswer⟩)
      · exact absurd hne hstatus

/-- An escalation of rung 3 or 4 is an answer. -/
theorem isAnswer_rung {text : String} {rung : ℤ} {data : List (String × Json)}
    (h : rung = 3 ∨ rung = 4) :
    IsAnswer ⟨"claude", "escalation", text, some (.obj (("rung", .int rung) :: data))⟩ := by
  refine ⟨rfl, ?_⟩
  rcases h with rfl | rfl <;> rfl

theorem lwp_pauseForPaul {build : Build} {task : Task} {why : String}
    {data : List (String × Json)} (h : Written task.id s) :
    lwp cap (pauseForPaul build task why data) (fun _ s => s.opened = none) (fun _ _ => True) s :=
  Program.wp_after (lwp_post h) fun _ _ h' =>
    lwp_quiet_bind trivial (fun _ _ hs => hs.opened.trans (h'.2 (isAnswer_rung (.inr rfl))))
      fun _ _ _ => trivial

/-- The answer of a session closes it. -/
theorem lwp_teach {cfg : Settings} {build : Build} {task : Task} {record : String} {out : Output}
    (h : Owned task.id record s) :
    lwp cap (teach cfg build task record out) (fun _ s => s.opened = none) (fun _ _ => True) s := by
  refine lwp_write h fun s₁ h₁ => ?_
  refine Program.wp_after (lwp_post h₁) fun _ s₂ h₂ => ?_
  change Program.wp _ _ _ (if out.needsPaul then _ else _) _ _ _
  split
  · exact lwp_pauseForPaul h₂.1
  · refine Program.wp_after (lwp_post h₂.1) fun _ s₃ h₃ => ?_
    refine Program.wp_after (lwp_post h₃.1) fun _ s₄ h₄ => ?_
    exact lwp_quiet_bind trivial (fun _ _ hs => hs.opened.trans (h₄.2 (isAnswer_rung (.inl rfl))))
      fun _ _ _ => trivial

/-- And so does its failure. -/
theorem lwp_giveUp {build : Build} {task : Task} {record : String} {e : Failure}
    (h : Owned task.id record s) :
    lwp cap (giveUp build task record e) (fun _ s => s.opened = none) (fun _ _ => True) s :=
  lwp_write h fun _ h₁ => Program.wp_after (lwp_pauseForPaul h₁) fun _ _ h₂ => h₂

/-- A session is started where it may be. -/
theorem lwp_tutor {build : Build} {task : Task} {started : DateTime}
    (h : Ready task.id (stuckAt task.journal) s) (hroom : (s.startedOn started.date : ℤ) < cap) :
    lwp cap (tutor task started (recordName started build.id task.id))
      (fun _ => Owned task.id (recordName started build.id task.id))
      (fun _ => Owned task.id (recordName started build.id task.id)) s := by
  have howned : ∀ {s' : State}, s'.opened = none →
      Owned task.id (recordName started build.id task.id) s' := fun hnone o ho => by
    rw [hnone] at ho
    cases ho
  refine lwp_quiet_bind trivial (fun _ s₁ hs => ?_) fun _ _ hs => howned (hs.opened.trans h.1)
  have h₁ := h.evolves hs
  have hguard : Guard cap s₁ (.start task.id (stuckAt task.journal) started
      (recordName started build.id task.id)) := by
    refine ⟨h₁.1, h₁.2.1, h₁.2.2, ?_, fun day => isOf_recordName day started _ _⟩
    unfold State.startedOn at hroom ⊢
    rw [hs.sessions]
    exact hroom
  refine Program.wp_attempt rfl fun a s₂ hx => ⟨hguard, ?_⟩
  obtain ⟨⟨s₃, hs₃, hact⟩, -⟩ := hx
  cases a with
  | error e =>
    obtain rfl : s₂ = s₃ := hact
    exact howned (hs₃.opened.trans h₁.1)
  | ok t =>
    obtain ⟨-, rfl⟩ := hact
    have hstarted : Owned task.id (recordName started build.id task.id)
        (s₃.start task.id (stuckAt task.journal) (recordName started build.id task.id)) := by
      rintro o ⟨⟩
      exact ⟨rfl, rfl⟩
    exact lwp_quiet rfl trivial (fun _ _ hs => hstarted.evolves hs) fun _ _ hs => hstarted.evolves hs

theorem ordinal_le_of_micros {t t' : DateTime} (h : t.micros ≤ t'.micros) :
    t.date.ordinal ≤ t'.date.ordinal := by
  rcases Nat.lt_or_ge t'.date.ordinal t.date.ordinal with hlt | hle
  · have hmicros := DateTime.micros_lt_iff.mpr (.inl (Date.ordinal_lt_iff.mp hlt))
    exact absurd h (Nat.not_le_of_lt hmicros)
  · exact hle

/-- Where the day's files are fewer than the cap, so are its sessions, and there is none of a
later day. -/
theorem Sound.room (h : Sound cap s) (hopened : s.opened = none)
    (hfiles : (s.filesOn s.clock.date : ℤ) < cap) {day : Date}
    (hday : s.clock.date.ordinal ≤ day.ordinal) : (s.startedOn day : ℤ) < cap := by
  by_cases heq : day = s.clock.date
  · subst heq
    have hrecorded := h.recorded s.clock.date
    rw [owed_of_none hopened] at hrecorded
    omega
  · have hzero : s.startedOn day = 0 := by
      refine List.countP_eq_zero.mpr fun σ hσ hdate => heq ?_
      have hdate : σ.start.date = day := of_decide_eq_true hdate
      have hle := ordinal_le_of_micros (h.past σ hσ)
      rw [hdate] at hle
      exact Date.ordinal_inj (Nat.le_antisymm hle hday)
    omega

theorem lwp_session {cfg : Settings} {build : Build} {task : Task} (hcap : cfg.dailyCap = cap)
    (h : Ready task.id (stuckAt task.journal) s) :
    lwp cap (session cfg build task) (fun _ s => s.opened = none) (fun _ _ => True) s := by
  refine Program.wp_attempt rfl fun a s₁ hx => ⟨trivial, ?_⟩
  obtain ⟨⟨s₀, hs₀, hact⟩, -, hsound⟩ := hx
  cases a with
  | error e => trivial
  | ok n =>
    obtain ⟨hn, rfl⟩ := hact
    have h₁ := h.evolves hs₀
    change Program.wp _ _ _ (if (n : ℤ) ≥ cfg.dailyCap then _ else _) _ _ _
    split
    · exact Program.wp_after (lwp_pauseForPaul (.of_none h₁.1)) fun _ _ h => h
    · next hlt =>
      refine Program.wp_perform fun started s₂ hx => ⟨trivial, ?_⟩
      obtain ⟨⟨s₃, hs₃, hstarted, rfl⟩, -⟩ := hx
      have hroom : (s₂.startedOn started.date : ℤ) < cap := by
        have hlater : s₁.clock.date.ordinal ≤ started.date.ordinal := by
          rw [hstarted]
          exact ordinal_le_of_micros hs₃.clock
        have hlt₁ := (hsound.evolves hs₀).room h₁.1 (by omega) hlater
        unfold State.startedOn at hlt₁ ⊢
        rw [hs₃.sessions]
        exact hlt₁
      refine Program.wp_after (P := fun _ => Owned task.id (recordName started build.id task.id))
        ?_ fun out s₄ h₄ => ?_
      · refine (Program.wp_tryCatch _ _).mpr ((Program.wp_bind _ _).mpr ?_)
        refine Program.wp_mono (fun _ _ h => h) (fun e s₄ h₄ => ?_)
          (lwp_tutor (h₁.evolves hs₃) hroom)
        change Program.wp _ _ _ (if e.kind = .other then _ else _) _ _ _
        split
        · trivial
        · exact h₄
      · cases out with
        | error e => exact lwp_giveUp h₄
        | ok out => exact Program.wp_after (lwp_teach h₄) fun _ _ h => h

/-- **A round of the loop leaves no session open.** -/
theorem lwp_oneBuild {cfg : Settings} {build : Build} (hcap : cfg.dailyCap = cap)
    (h : s.opened = none) :
    lwp cap (oneBuild cfg build) (fun _ s => s.opened = none) (fun _ _ => True) s := by
  change Program.wp _ _ _ (if build.status ≠ "running" ∨ cfg.build ≠ 0 ∧ build.id ≠ cfg.build then _
    else _) _ _ _
  split
  · exact h
  refine lwp_quiet_bind trivial (fun next s₁ hs₁ => ?_) fun _ _ _ => trivial
  have h₁ := hs₁.opened.trans h
  cases next with
  | none => exact h₁
  | some t =>
    obtain ⟨id, state⟩ := t
    change Program.wp _ _ _ (if state ≠ "stuck" then _ else _) _ _ _
    split
    · exact h₁
    refine Program.wp_attempt rfl fun a s₂ hx => ⟨trivial, ?_⟩
    obtain ⟨⟨s₃, hs₃, hact⟩, -, hsound⟩ := hx
    cases a with
    | error e => trivial
    | ok r =>
      obtain ⟨status, task⟩ := r
      obtain ⟨htask, rfl⟩ := hact
      have h₃ := hs₃.opened.trans h₁
      change Program.wp _ _ _ (if status ≠ 200 then _ else _) _ _ _
      split
      · exact h₃
      · next hstatus =>
        obtain ⟨rfl, hjournal⟩ := htask (not_not.mp hstatus)
        cases hwanted : wanted task.journal with
        | none => trivial
        | some b =>
          cases b with
          | false => exact h₃
          | true =>
            change Program.wp _ _ _ (if cfg.dryRun then _ else _) _ _ _
            split
            · exact lwp_quiet_bind trivial (fun _ _ hs => hs.opened.trans h₃) fun _ _ _ => trivial
            · refine lwp_session hcap ⟨h₃, fun σ hσ heq => ?_, ?_⟩
              -- a session on what the task is stuck on would have been answered
              · obtain ⟨htask, hstuck⟩ := Prod.mk.inj heq
                rcases (hsound.evolves hs₃).answered σ hσ with hans | ⟨o, ho, -⟩
                · rw [htask, ← hjournal, hstuck] at hans
                  exact not_answered_of_wanted hwanted hans
                · rw [h₃] at ho
                  cases ho
              · rw [← hjournal]

theorem lwp_allBuilds {cfg : Settings} {builds : List Build} (hcap : cfg.dailyCap = cap)
    (h : s.opened = none) :
    lwp cap (allBuilds cfg builds) (fun _ s => s.opened = none) (fun _ _ => True) s := by
  induction builds generalizing s with
  | nil => exact h
  | cons build builds ih =>
    refine Program.wp_after (lwp_oneBuild hcap h) fun code s₁ h₁ => ?_
    cases code with
    | some code => exact h₁
    | none => exact ih h₁

theorem lwp_main {cfg : Settings} (hcap : cfg.dailyCap = cap) (h : s.opened = none) :
    lwp cap (main cfg) (fun _ s => s.opened = none) (fun _ _ => True) s := by
  refine lwp_quiet_bind trivial (fun r s₁ hs₁ => ?_) fun _ _ _ => trivial
  have h₁ := hs₁.opened.trans h
  obtain ⟨status, builds⟩ := r
  change Program.wp _ _ _ (if status ≠ 200 then _ else _) _ _ _
  split
  · exact h₁
  · exact lwp_allBuilds hcap h₁

end Run

/-! ### Runs -/

/-- A run that is not ended leaves no session open. -/
def outline (cap : ℤ) : Outline exec fun x m => (Starts cap x m ∧ Careful x m) ∧ Sound cap x.shared where
  rely _ := Eq
  guar _ s c a s' := exec () s c a s' ∧ Punctual s c a ∧ Guard cap s c
  idle _ s := s.opened = none
  post _ _ s := s.opened = none
  fail _ _ _ := True
  sem _ s c a s' := exec () s c a s' ∧ Punctual s c a ∧ Sound cap s
  sem_of_ok _ _ _ _ _ hok hx := ⟨hx, hok.1.2, hok.2⟩
  rely_refl _ _ := rfl
  rely_trans _ _ _ _ h h' := h.trans h'
  rely_of_guar _ _ hne := absurd rfl hne
  idle_stable _ _ _ h hidle := h ▸ hidle
  post_stable _ _ _ _ h hpost := h ▸ hpost
  fail_stable _ _ _ _ _ _ := trivial
  start x i p hp hidle := by
    obtain ⟨⟨⟨cfg, hcap, rfl⟩, -⟩, -⟩ := hp
    exact Program.wp_of_view id (fun _ _ h => h) (fun _ _ _ _ hx => hx)
      (fun _ _ _ _ hx hg => ⟨hx.1, hx.2.1, hg⟩) (lwp_main hcap hidle)
  ret _ _ _ _ h := h
  raise _ _ _ hok _ := hok.1.2
  kill _ _ _ hok _ _ := hok.1.2

/-- **The promises are kept in every run whose steps are careful.** -/
theorem kept_of_reaches {x : Config sig Failure ℤ Unit State} (hs : s.Fresh)
    (h : Reaches exec (fun x m => Starts cap x m ∧ Careful x m) (.idle s) x) :
    Promises cap x.shared := by
  have hsound : Sound cap s := by
    have hstarted : ∀ day, s.startedOn day = 0 := fun day => by
      rw [State.startedOn, hs.1, List.countP_nil]
    refine ⟨⟨fun day => ?_, ?_⟩, fun σ hσ => ?_, fun σ hσ => ?_, fun σ hσ => ?_, fun day => ?_⟩
    · rw [hstarted]
      exact Nat.zero_le _
    · rw [hs.1]
      exact List.nodup_nil
    · rw [hs.1] at hσ
      cases hσ
    · rw [hs.1] at hσ
      cases hσ
    · rw [hs.1] at hσ
      cases hσ
    · rw [hstarted]
      exact Nat.zero_le _
  have hreached := (outline cap).invariant_of_kept (I := Sound cap)
    (fun _ s c a s' hG hs => by
      obtain ⟨⟨s₁, hs₁, hact⟩, hp, hg⟩ := hG
      exact sound_act hact (hg.evolves hs₁) (hp.evolves hs₁) (hs.evolves hs₁)) h
    (fun _ => hs.2) hsound
  exact hreached.2.toPromises

/-- All goes well, at one moment. -/
def respond (_ : Unit) (s : State) : (c : Cmd) → Option (c.Ans × State)
  | .builds => some (.ok (200, [⟨1, "running"⟩]), s)
  | .next _ => some (.ok (some (1, "stuck")), s)
  | .task id => some (.ok (200, ⟨id, "5.3", "GCC", s.journal id⟩), s)
  | .brief _ => some (.ok (), s)
  | .sessionsToday => some (.ok (s.filesOn s.clock.date), s)
  | .now => some (s.clock, s)
  | .start task stuck started record =>
    if s.clock.date = started.date then some (.ok s.clock, s.start task stuck record) else none
  | .wait => some (.ok ⟨"no memory", false, "add swap", .obj [], none, 60, .int 1⟩, s)
  | .write record => if record ∈ s.files then none else some (.ok (), s.write record)
  | .post task e => if strip e.text = "" then none else some (.ok 201, s.post task (Entry.stored e))
  | .pause _ | .reset _ => some (.ok 200, s)

theorem State.Evolves.refl (s : State) : s.Evolves s :=
  ⟨Nat.le_refl _, fun _ => List.prefix_refl _, rfl, rfl, rfl⟩

theorem exec_respond {i : Unit} {c : Cmd} {a : c.Ans} (h : respond i s c = some (a, s')) :
    exec i s c a s' := by
  refine ⟨s, .refl s, ?_⟩
  cases c with
  | write record =>
    simp only [respond] at h
    split at h
    · cases h
    · cases h
      exact rfl
  | post task e =>
    simp only [respond] at h
    split at h
    · cases h
    · next htext =>
      cases h
      exact ⟨fun _ => htext, .inl rfl⟩
  | task id =>
    cases h
    exact ⟨fun _ => ⟨rfl, rfl⟩, rfl⟩
  | sessionsToday =>
    cases h
    exact ⟨rfl, rfl⟩
  | now =>
    cases h
    exact ⟨rfl, rfl⟩
  | start task stuck started record =>
    simp only [respond] at h
    split at h
    · cases h
      exact ⟨rfl, rfl⟩
    · cases h
  | _ =>
    cases h
    exact rfl

/-- The morning of 7 October 2026; task 1 is stuck, and Sentinel has asked for a tutor. -/
def morning : State where
  clock := ⟨⟨2026, 10, 7, by decide⟩, ⟨10, 0, 0, 0, by decide⟩⟩
  journal _ := [⟨"llm-chat", "state", "running -> stuck", some .null⟩,
    ⟨"sentinel", "escalation", "rung 3", some (.obj [("rung", .int 3), ("status", .str "requested")])⟩]
  files := []
  sessions := []
  opened := none

/-- The timer's command line. -/
def timer : Settings := ⟨6, "opus", 0, false⟩

theorem punctual_respond {i : Unit} {c : Cmd} {a : c.Ans} (h : respond i s c = some (a, s')) :
    Punctual s c a := by
  cases c with
  | write record =>
    simp only [respond] at h
    split at h
    · cases h
    · next hnew => exact hnew
  | start task stuck started record =>
    simp only [respond] at h
    split at h
    · next hday =>
      cases h
      exact hday
    · cases h
  | _ => trivial

/-- One run with a session. -/
theorem kept_of_reaches_morning : ∃ s : State,
    (s.sessions.map fun σ => (σ.task, σ.stuck)) = [(1, 0)] ∧ Promises 6 s := by
  have hrun : ((main timer).advance (respond ()) 13 morning).map (fun r =>
      r.2.sessions.map fun σ => (σ.task, σ.stuck)) = some [(1, 0)] := by
    decide
  obtain ⟨⟨p, s⟩, hr, hs⟩ := Option.map_eq_some_iff.mp hrun
  have hstart : Reaches exec (fun x m => Starts 6 x m ∧ Careful x m) (.idle morning)
      ((Config.idle morning).set () morning (some (main timer))) :=
    .single ⟨.start () (main timer), ⟨⟨timer, rfl, rfl⟩, trivial⟩, .start rfl⟩
  have hrest : Reaches exec (fun x m => Starts 6 x m ∧ Careful x m)
      ((Config.idle morning).set () morning (some (main timer)))
      (((Config.idle morning).set () morning (some (main timer))).set () s (some p)) :=
    Reaches.advance (fun x c a s h => ⟨exec_respond h, trivial, punctual_respond h⟩) 13
      (Config.set_thread_self ..) hr
  exact ⟨s, hs, kept_of_reaches (s := morning) ⟨rfl, rfl⟩ (hstart.trans hrest)⟩

/-- **A run that is killed during its session is followed by another session.** -/
theorem tutored_twice : ¬∀ (cap : ℤ) (s : State), s.Fresh →
    ∀ x : Config sig Failure ℤ Unit State,
      Reaches exec (Starts cap) (.idle s) x → Promises cap x.shared := by
  intro hall
  have hrun : ((Config.play respond (.start () (main timer) :: List.replicate 7 (.go ()))
      (.idle morning)).bind fun x =>
        (x.thread ()).bind fun _ => (main timer).run (respond ()) x.shared).map (fun r =>
          r.2.sessions.map fun σ => (σ.task, σ.stuck)) = some [(1, 0), (1, 0)] := by
    decide
  obtain ⟨⟨r, s⟩, hr, hs⟩ := Option.map_eq_some_iff.mp hrun
  obtain ⟨x, hx, hr⟩ := Option.bind_eq_some_iff.mp hr
  obtain ⟨p, hp, hr⟩ := Option.bind_eq_some_iff.mp hr
  have hfirst : Reaches exec (Starts 6) (.idle morning) x :=
    reaches_of_play (fun i x c a s h => ⟨exec_respond h, trivial⟩) (fun _ _ _ => trivial)
      (fun i p hp x => by
        rcases List.mem_cons.mp hp with hp | hp
        · cases hp
          exact ⟨timer, rfl, rfl⟩
        · cases List.eq_of_mem_replicate hp) hx
  have hidle : x.set () x.shared none = .idle x.shared := by
    rw [Config.set, Config.idle]
    congr 1
  have hkilled : Reaches exec (Starts 6) (.idle morning) (.idle x.shared) :=
    hidle ▸ hfirst.tail ⟨.kill (), trivial, .kill hp⟩
  have hsecond : Reaches exec (Starts 6) (.idle x.shared) (.idle s) :=
    Reaches.solo (fun x c a s h => ⟨exec_respond h, trivial⟩) (fun _ _ => trivial) _
      ⟨timer, rfl, rfl⟩ hr
  have honce : (s.sessions.map fun σ => (σ.task, σ.stuck)).Nodup :=
    (hall 6 morning ⟨rfl, rfl⟩ _ (hkilled.trans hsecond)).once
  rw [hs] at honce
  exact absurd honce (by decide)

end Tutor
end CloudCore
