import CloudCore.Db.Column
import CloudCore.Scheduler.Croncalc
import Mathlib.Logic.Relation

/-!
# Schedules

`api/scheduler.py`: the `schedules` table, its operations, and the tick that
picks up what is due.  `_tick` compares `next_run_at` with the present time as
text, as SQLite does.

## Main definitions

* `Schedule` — a row of the table.
* `createSchedule`, `updateSchedule`, `deleteSchedule` — the operations.
* `tick` — `_tick`, with `advanceBeforeRun` for `_advance_before_run`.
* `Step` — what can happen to the table.
-/

namespace CloudCore
namespace Scheduler

open Python

/-! ### The table -/

/-- `recurrence_type`. -/
inductive Recurrence where
  | once
  | cron
  deriving DecidableEq

/-- A row of `schedules`. -/
structure Schedule where
  id : String
  name : String
  kind : String
  engine : String
  template : String
  varOverrides : Json
  recurrenceType : Recurrence
  runAt : Option String
  cronExpr : String
  enabled : Bool
  nextRunAt : Option String
  lastRunAt : Option String
  lastStatus : String
  createdAt : String
  createdBy : String

/-- The table. -/
abbrev Table := List Schedule

def getSchedule (rows : Table) (id : String) : Option Schedule := rows.find? (·.id == id)

/-- `UPDATE schedules SET ... WHERE id=?`. -/
def Table.set (rows : Table) (id : String) (f : Schedule → Schedule) : Table :=
  rows.map fun s => if s.id == id then f s else s

/-! ### Creating and updating -/

/-- What the operations raise. -/
inductive ScheduleError where
  /-- `ValueError(f"unknown schedule kind: {kind!r}")`. -/
  | unknownKind (kind : String)
  /-- `ValueError("mode 'once' requires run_at (ISO datetime)")`. -/
  | onceNeedsRunAt
  /-- A recurrence that is not a dictionary has no `get`. -/
  | notADict
  /-- The statement raised. -/
  | sqlite
  | cron (e : CronError)
  | exc (e : Exc)

/-- The kinds of a schedule. -/
def kinds : List String :=
  ["build", "llm_ingest", "kiwix_update", "repo_sync", "host_backup", "lfs_update"]

/-- `_resolve_recurrence`: the columns `recurrence_type`, `run_at` and `cron_expr`. -/
def resolveRecurrence (recurrence : Json) :
    Except ScheduleError (Recurrence × Option String × String) :=
  match recurrence with
  | .obj fields =>
    let mode := (recurrence.get? "mode").getD .null
    match mode with
    | .str "once" =>
      let runAt := (recurrence.get? "run_at").getD .null
      if !runAt.truthy then .error .onceNeedsRunAt
      else
        match runAt with
        | .str runAt =>
          match fromisoformat runAt with
          | some _ => .ok (.once, some runAt, "")
          | none => .error (.exc .valueError)
        | _ => .error (.exc .typeError)
    | mode =>
      match buildCron mode (.obj (fields.filter (·.1 != "mode"))) with
      | .ok cronExpr => .ok (.cron, none, cronExpr)
      | .error e => .error (.cron e)
  | _ => .error .notADict

/-- The `next_run_at` of a recurrence. -/
def nextRun (recurrenceType : Recurrence) (runAt : Option String) (cronExpr : String)
    (now : DateTime) : Except CronError (Option String) :=
  match recurrenceType with
  | .once => .ok runAt
  | .cron => (nextFire cronExpr now).map fun t => some t.isoformat

/-- The columns a recurrence sets, `next_run_at` with them. -/
def recur (recurrence : Json) (now : DateTime) (s : Schedule) : Except ScheduleError Schedule := do
  let (recurrenceType, runAt, cronExpr) ← resolveRecurrence recurrence
  let nextRunAt ← (nextRun recurrenceType runAt cronExpr now).mapError .cron
  .ok { s with recurrenceType, runAt, cronExpr, nextRunAt }

/-- The arguments of `create_schedule`. -/
structure NewSchedule where
  name : String
  kind : String
  engine : String
  template : String
  varOverrides : Json
  recurrence : Json
  createdBy : String := "ui"

/-- `create_schedule`; `id` is the new `uuid4`, the table's primary key, `created`
and `now` are the two times it reads. -/
def createSchedule (rows : Table) (new : NewSchedule) (id : String) (created now : DateTime) :
    Except ScheduleError Table :=
  if new.kind ∉ kinds then .error (.unknownKind new.kind)
  else do
    let s ← recur new.recurrence now
      { id
        name := new.name
        kind := new.kind
        engine := new.engine
        template := new.template
        varOverrides := new.varOverrides
        recurrenceType := .once
        runAt := none
        cronExpr := ""
        enabled := true
        nextRunAt := none
        lastRunAt := none
        lastStatus := ""
        createdAt := created.isoformat
        createdBy := new.createdBy }
    if rows.any (·.id == id) then .error .sqlite else .ok (rows ++ [s])

/-- The fields of `update_schedule` that were given. -/
structure ScheduleFields where
  name : Option Json := none
  enabled : Option Json := none
  varOverrides : Option Json := none
  recurrence : Option Json := none

/-- The recurrence columns of an update. -/
def ScheduleFields.recur (fields : ScheduleFields) (now : DateTime) (s : Schedule) :
    Except ScheduleError Schedule :=
  match fields.recurrence with
  | none => .ok s
  | some recurrence => Scheduler.recur recurrence now s

/-- The `name` of an update. -/
def ScheduleFields.nameText (renderReal : Double → String) (fields : ScheduleFields)
    (s : Schedule) : Except ScheduleError String :=
  match fields.name with
  | none => .ok s.name
  | some name =>
    match Db.textColumn renderReal name with
    | some name => .ok name
    | none => .error .sqlite

/-- What `update_schedule` does to the row it has found. -/
def ScheduleFields.apply (renderReal : Double → String) (fields : ScheduleFields) (now : DateTime)
    (s : Schedule) : Except ScheduleError Schedule := do
  let s ← fields.recur now s
  let name ← fields.nameText renderReal s
  .ok { s with
    name
    enabled := (fields.enabled.map (·.truthy)).getD s.enabled
    varOverrides := fields.varOverrides.getD s.varOverrides }

/-- `update_schedule`; nothing happens if there is no such schedule. -/
def updateSchedule (renderReal : Double → String) (rows : Table) (id : String)
    (fields : ScheduleFields) (now : DateTime) : Except ScheduleError Table :=
  match getSchedule rows id with
  | none => .ok rows
  | some s => do
    let s ← fields.apply renderReal now s
    .ok (rows.set id fun _ => s)

def deleteSchedule (rows : Table) (id : String) : Table := rows.filter (·.id != id)

/-! ### The tick -/

/-- The row condition of the query in `_tick`; the texts compare by code point. -/
def Schedule.selected (s : Schedule) (now : DateTime) : Bool :=
  s.enabled && s.nextRunAt.any fun t => decide (t ≤ now.isoformat)

def advanceBeforeRun (rows : Table) (id : String) (now : DateTime) : Except CronError Table :=
  match getSchedule rows id with
  | none => .ok rows
  | some s =>
    match s.recurrenceType with
    | .once => .ok (rows.set id ({ · with enabled := false }))
    | .cron => do
      let t ← nextFire s.cronExpr now
      .ok (rows.set id ({ · with nextRunAt := some t.isoformat }))

/-- Advance the due schedules in turn, each at the time it reads itself; what
was advanced before one raises stays advanced. -/
def advanceAll (rows : Table) : List (String × DateTime) → Table × Option CronError
  | [] => (rows, none)
  | (id, now) :: due =>
    match advanceBeforeRun rows id now with
    | .ok rows => advanceAll rows due
    | .error e => (rows, some e)

/-- `_tick`: the table afterwards and the schedules whose runs it starts.  `clock`
gives the times that advancing reads.  If advancing one raises, no run starts. -/
def tick (rows : Table) (now : DateTime) (clock : ℕ → DateTime) : Table × List String :=
  let due := (rows.filter (·.selected now)).map (·.id)
  match advanceAll rows (due.zipIdx.map fun (id, n) => (id, clock n)) with
  | (rows, none) => (rows, due)
  | (rows, some _) => (rows, [])

/-- `_finish_run`, on the schedule of the run. -/
def finishRun (rows : Table) (id : String) (now : DateTime) (status : String) : Table :=
  rows.set id ({ · with lastRunAt := some now.isoformat, lastStatus := status })

/-! ### Runs -/

/-- What can happen to the table. -/
inductive Step (renderReal : Double → String) : Table → Table → Prop where
  | create {rows rows' : Table} {new id created now} :
      createSchedule rows new id created now = .ok rows' → Step renderReal rows rows'
  | update {rows rows' : Table} {id fields now} :
      updateSchedule renderReal rows id fields now = .ok rows' → Step renderReal rows rows'
  | delete (rows : Table) (id : String) : Step renderReal rows (deleteSchedule rows id)
  | tick (rows : Table) (now : DateTime) (clock : ℕ → DateTime) :
      Step renderReal rows (tick rows now clock).1
  | finishRun (rows : Table) (id : String) (now : DateTime) (status : String) :
      Step renderReal rows (finishRun rows id now status)

/-- The tables reached from the empty one. -/
def Reached (renderReal : Double → String) : Table → Prop :=
  Relation.ReflTransGen (Step renderReal) []

end Scheduler
end CloudCore
