import CloudCore.Python.Isoformat
import CloudCore.Python.Json
import Mathlib.Data.Finset.Interval
import Mathlib.Order.Interval.Finset.Nat

/-!
# Cron expressions

`api/croncalc.py`: the dashboard's recurrence picker becomes a five-field cron
expression, and `next_fire` steps forward to the next minute that matches one.

## Main definitions

* `parse` — `_parse`, the five fields of an expression as sets.
* `nextFire` — `next_fire`; it terminates because every step moves forward.
* `buildCron` — `build_cron`.
-/

namespace CloudCore
namespace Scheduler

open Python

/-! ### Errors -/

/-- `croncalc.InvalidCron`, one case for each place that raises it. -/
inductive InvalidCron where
  | badStep (field : String)
  | stepNotPositive (field : String)
  | badRange (field : String)
  | badValue (field : String)
  | outOfRange (v : ℤ) (lo hi : ℕ) (field : String)
  | noValues (field : String)
  | fieldCount (cronExpr : String)
  | noFireTime (cronExpr : String)
  | missing (mode : Json) (name : String)
  | notInteger (name : String)
  | outOfBounds (name : String) (lo hi : ℤ)
  | unknownMode (mode : Json)

/-- `str(e)`, given `repr` of strings and of other values. -/
def InvalidCron.text (repr : String → String) (reprJson : Json → String) : InvalidCron → String
  | .badStep field => "bad step in cron field: " ++ repr field
  | .stepNotPositive field => "step must be positive: " ++ repr field
  | .badRange field => "bad range in cron field: " ++ repr field
  | .badValue field => "bad value in cron field: " ++ repr field
  | .outOfRange v lo hi field =>
    "value " ++ toString v ++ " out of range [" ++ toString lo ++ "," ++ toString hi ++ "] in " ++
      repr field
  | .noValues field => "cron field produced no values: " ++ repr field
  | .fieldCount cronExpr =>
    "expected 5 fields (min hour dom month dow), got " ++ repr cronExpr
  | .noFireTime cronExpr =>
    "no matching fire time found for " ++ repr cronExpr ++ " within 5 years"
  | .missing mode name => "mode " ++ reprJson mode ++ " requires " ++ repr name
  | .notInteger name => repr name ++ " must be an integer"
  | .outOfBounds name lo hi =>
    repr name ++ " must be between " ++ toString lo ++ " and " ++ toString hi
  | .unknownMode mode => "unknown recurrence mode: " ++ reprJson mode

/-- What the functions of the module raise. -/
inductive CronError where
  | invalidCron (e : InvalidCron)
  | exc (e : Exc)

/-! ### Fields -/

/-- `text.split(c, 1)` when `c` occurs. -/
def splitFirst (c : Char) (l : List Char) : Option (List Char × List Char) :=
  if c ∈ l then some (l.takeWhile (· ≠ c), (l.dropWhile (· ≠ c)).tail) else none

/-- The step of one part of a field, and the part without it. -/
def parseStep (field : String) (part : List Char) : Except InvalidCron (List Char × ℕ) :=
  match splitFirst '/' part with
  | none => .ok (part, 1)
  | some (part, step) =>
    match intOfText (.ofList step) with
    | .error _ => .error (.badStep field)
    | .ok step => if step ≤ 0 then .error (.stepNotPositive field) else .ok (part, step.toNat)

/-- The first and the last value of a part. -/
def parseBounds (field : String) (lo hi : ℕ) (part : List Char) : Except InvalidCron (ℤ × ℤ) :=
  if part = ['*'] then .ok (lo, hi)
  else
    match splitFirst '-' part with
    | some (a, b) =>
      match intOfText (.ofList a), intOfText (.ofList b) with
      | .ok a, .ok b => .ok (a, b)
      | _, _ => .error (.badRange field)
    | none =>
      match intOfText (.ofList part) with
      | .ok v => .ok (v, v)
      | .error _ => .error (.badValue field)

/-- One value of a part's range: it is in range, and every `step`th from `lo` is taken. -/
def addValue (field : String) (lo hi step : ℕ) (values : Finset ℕ) (v : ℤ) :
    Except InvalidCron (Finset ℕ) :=
  if v < lo ∨ v > hi then .error (.outOfRange v lo hi field)
  else if (v - lo) % step = 0 then .ok (insert v.toNat values)
  else .ok values

/-- One part of a field, the parts being separated by commas. -/
def parsePart (field : String) (lo hi : ℕ) (values : Finset ℕ) (part : List Char) :
    Except InvalidCron (Finset ℕ) :=
  let part := stripBy isSpace part
  if part = ['*'] then .ok (values ∪ Finset.Icc lo hi)
  else do
    let (part, step) ← parseStep field part
    let (a, b) ← parseBounds field lo hi part
    let range := (List.range (b + 1 - a).toNat).map fun k : ℕ => a + k
    range.foldlM (addValue field lo hi step) values

def parseField (field : String) (lo hi : ℕ) : Except InvalidCron (Finset ℕ) := do
  let values ← (field.toList.splitOn ',').foldlM (parsePart field lo hi) ∅
  if values = ∅ then .error (.noValues field) else .ok values

/-- The five fields of an expression. -/
structure Cron where
  minutes : Finset ℕ
  hours : Finset ℕ
  doms : Finset ℕ
  months : Finset ℕ
  /-- Sunday is 0. -/
  dows : Finset ℕ
  deriving DecidableEq

def parse (cronExpr : String) : Except InvalidCron Cron :=
  match (cronExpr.toList.splitOnP isSpace).filter (· ≠ []) with
  | [minute, hour, dom, month, dow] => do
    let minutes ← parseField (.ofList minute) 0 59
    let hours ← parseField (.ofList hour) 0 23
    let doms ← parseField (.ofList dom) 1 31
    let months ← parseField (.ofList month) 1 12
    let dows ← parseField (.ofList dow) 0 6
    .ok ⟨minutes, hours, doms, months, dows⟩
  | _ => .error (.fieldCount cronExpr)

/-! ### The next fire time -/

/-- The day rule on day of month and day of week. -/
def Cron.dayOk (c : Cron) (d : Date) : Bool :=
  let domRestricted := c.doms.card < 31
  let dowRestricted := c.dows.card < 7
  let domOk := d.day ∈ c.doms
  let dowOk := (d.weekday + 1) % 7 ∈ c.dows
  if domRestricted ∧ dowRestricted then domOk ∨ dowOk
  else if domRestricted then domOk
  else if dowRestricted then dowOk
  else true

/-- The first minute of the next month. -/
def nextMonth (t : DateTime) : Option DateTime :=
  let date :=
    if t.date.month + 1 > 12 then Date.mk? (t.date.year + 1) 1 1
    else Date.mk? t.date.year (t.date.month + 1) 1
  date.map fun date => { t.startOfDay with date }

theorem micros_lt_nextMonth {t t' : DateTime} (h : nextMonth t = some t') :
    t.micros < t'.micros := by
  obtain ⟨date, hd, rfl⟩ := Option.map_eq_some_iff.mp h
  rw [DateTime.micros_lt_iff]
  left
  unfold Date.Before
  split at hd
  · obtain ⟨hy, -, -⟩ := Date.of_mk? hd
    left
    dsimp only
    omega
  · obtain ⟨hy, hm, -⟩ := Date.of_mk? hd
    right
    dsimp only
    omega

/-- The first minute of the next day. -/
def nextDay (t : DateTime) : Option DateTime := (t.add dayMicros).map (·.startOfDay)

theorem micros_lt_nextDay {t t' : DateTime} (h : nextDay t = some t') : t.micros < t'.micros := by
  obtain ⟨u, hu, rfl⟩ := Option.map_eq_some_iff.mp h
  have hadd := DateTime.micros_add hu
  have hday := u.micros_startOfDay
  obtain ⟨hh, hm, -⟩ := u.time.valid
  unfold dayMicros at hadd
  omega

/-- The first minute of the next hour. -/
def nextHour (t : DateTime) : Option DateTime := (t.add 3600000000).map (·.startOfHour)

theorem micros_lt_nextHour {t t' : DateTime} (h : nextHour t = some t') :
    t.micros < t'.micros := by
  obtain ⟨u, hu, rfl⟩ := Option.map_eq_some_iff.mp h
  have hadd := DateTime.micros_add hu
  have hhour := u.micros_startOfHour
  obtain ⟨-, hm, -⟩ := u.time.valid
  omega

/-- The next minute. -/
def nextMinute (t : DateTime) : Option DateTime := t.add 60000000

theorem micros_lt_nextMinute {t t' : DateTime} (h : nextMinute t = some t') :
    t.micros < t'.micros := by
  have hadd := DateTime.micros_add h
  omega

/-- The time, or the exception if the calendar has none. -/
def orRaise (e : Exc) (t : Option DateTime) : Except Exc DateTime := t.elim (.error e) .ok

theorem orRaise_eq_ok {e : Exc} {t : Option DateTime} {t' : DateTime} :
    orRaise e t = .ok t' ↔ t = some t' := by
  cases t with
  | none => exact ⟨nofun, nofun⟩
  | some t => exact ⟨fun h => by cases h; rfl, fun h => by cases h; rfl⟩

/-- Where the search goes from a candidate that does not match; `none` if it matches. -/
def Cron.advance (c : Cron) (t : DateTime) : Option (Except Exc DateTime) :=
  if t.date.month ∉ c.months then some (orRaise .valueError (nextMonth t))
  else if !c.dayOk t.date then some (orRaise .overflowError (nextDay t))
  else if t.time.hour ∉ c.hours then some (orRaise .overflowError (nextHour t))
  else if t.time.minute ∉ c.minutes then some (orRaise .overflowError (nextMinute t))
  else none

/-- The search moves forward. -/
theorem micros_lt_advance {c : Cron} {t t' : DateTime} (h : c.advance t = some (.ok t')) :
    t.micros < t'.micros := by
  unfold Cron.advance at h
  split at h
  · exact micros_lt_nextMonth (orRaise_eq_ok.mp (Option.some.inj h))
  split at h
  · exact micros_lt_nextDay (orRaise_eq_ok.mp (Option.some.inj h))
  split at h
  · exact micros_lt_nextHour (orRaise_eq_ok.mp (Option.some.inj h))
  split at h
  · exact micros_lt_nextMinute (orRaise_eq_ok.mp (Option.some.inj h))
  · cases h

/-- The loop of `next_fire`. -/
def search (cronExpr : String) (c : Cron) (limit t : DateTime) : Except CronError DateTime :=
  if t.micros < limit.micros then
    match _h : c.advance t with
    | none => .ok t
    | some (.error e) => .error (.exc e)
    | some (.ok t') => search cronExpr c limit t'
  else .error (.invalidCron (.noFireTime cronExpr))
termination_by limit.micros - t.micros
decreasing_by
  have := micros_lt_advance _h
  omega

/-- The days `next_fire` searches. -/
def searchDays : ℕ := 365 * 5 + 30

/-- `next_fire`, for a time in UTC. -/
def nextFire (cronExpr : String) (after : DateTime) : Except CronError DateTime := do
  let c ← (parse cronExpr).mapError .invalidCron
  let some candidate := (nextMinute after).map (·.startOfMinute)
    | .error (.exc .overflowError)
  let some limit := candidate.add (searchDays * dayMicros) | .error (.exc .overflowError)
  search cronExpr c limit candidate

theorem micros_le_search {cronExpr : String} {c : Cron} {limit t t' : DateTime}
    (h : search cronExpr c limit t = .ok t') : t.micros ≤ t'.micros := by
  fun_induction search cronExpr c limit t with
  | case1 t hlt hmatch => cases h; exact Nat.le_refl _
  | case2 t hlt hmatch => cases h
  | case3 t hlt u hu ih =>
    have hstep := micros_lt_advance hu
    have hrest := ih h
    omega
  | case4 t hlt => cases h

/-- `next_fire` answers with a later time. -/
theorem micros_lt_nextFire {cronExpr : String} {after t : DateTime}
    (h : nextFire cronExpr after = .ok t) : after.micros < t.micros := by
  -- named, lest the kernel add up the microseconds of five years
  obtain ⟨add, hadd⟩ : ∃ add, DateTime.add = add := ⟨_, rfl⟩
  obtain ⟨next, hnext⟩ : ∃ next, nextMinute after = next := ⟨_, rfl⟩
  unfold nextFire at h
  rw [hadd, hnext] at h
  obtain ⟨c, -, h⟩ := bind_eq_ok.mp h
  split at h
  next candidate hc =>
    obtain ⟨u, rfl, rfl⟩ := Option.map_eq_some_iff.mp hc
    split at h
    next limit =>
      have hsearch := micros_le_search h
      have hlater := DateTime.micros_add hnext
      have hminute := u.micros_startOfMinute
      obtain ⟨-, -, hs, hus⟩ := u.time.valid
      omega
    next => cases h
  next => cases h

/-! ### The recurrence picker -/

/-- `_int` of `build_cron`: the parameter `name`, an integer from `lo` to `hi`. -/
def intParam (mode params : Json) (name : String) (lo hi : ℤ) : Except CronError ℤ :=
  match params.get? name with
  | none => .error (.invalidCron (.missing mode name))
  | some value =>
    match value.toInt with
    | .error .overflowError => .error (.exc .overflowError)
    | .error _ => .error (.invalidCron (.notInteger name))
    | .ok v => if lo ≤ v ∧ v ≤ hi then .ok v else .error (.invalidCron (.outOfBounds name lo hi))

/-- `build_cron`; `params` are the recurrence's keys other than `mode`. -/
def buildCron (mode params : Json) : Except CronError String :=
  match mode with
  | .str "daily" => do
    let hour ← intParam mode params "hour" 0 23
    let minute ← intParam mode params "minute" 0 59
    .ok (toString minute ++ " " ++ toString hour ++ " * * *")
  | .str "weekly" => do
    let hour ← intParam mode params "hour" 0 23
    let minute ← intParam mode params "minute" 0 59
    let weekday ← intParam mode params "weekday" 0 6
    .ok (toString minute ++ " " ++ toString hour ++ " * * " ++ toString weekday)
  | .str "interval_minutes" => do
    let n ← intParam mode params "minutes" 1 59
    .ok ("*/" ++ toString n ++ " * * * *")
  | .str "interval_hours" => do
    let n ← intParam mode params "hours" 1 23
    .ok ("0 */" ++ toString n ++ " * * *")
  | _ => .error (.invalidCron (.unknownMode mode))

end Scheduler
end CloudCore
