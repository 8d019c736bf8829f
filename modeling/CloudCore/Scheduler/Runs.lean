import CloudCore.Scheduler.Due

/-!
# The runs a tick starts

`_tick` first advances every schedule that is due, then starts a run of each.
An exception while one of them is advanced ends the tick between the two loops,
so the schedules advanced before it lose their runs.

## Main definitions

* `Tick`, `runTick` — a tick with what it reads, where the database may refuse
  to advance a schedule.
* `Moved` — a schedule was moved forward, or disabled.
* `Exact` — the tick starts one run of each schedule it moves, and no others.
* `Unbroken` — no exception comes after a schedule has been advanced.
* `Log`, `History` — the table with the runs started and the edits made.

## Main results

* `exact_iff_unbroken` — **a tick is exact exactly when it is unbroken.**
* `Log.Inv.once_at_most_once` — a one-off that is never edited is started at most once.
* `runs_of_history` — both, for every history of ticks and edits.
* `lost_run` — an exception on the second schedule loses the run of the first.
-/

namespace CloudCore
namespace Scheduler

open Python

/-! ### Ticks -/

/-- What a tick reads: the time it selects by, the times that advancing reads,
and which of the updates the database refuses. -/
structure Tick where
  now : DateTime
  clock : ℕ → DateTime
  refused : ℕ → Bool

/-- Time does not run backwards. -/
def Tick.Ordered (t : Tick) : Prop := ∀ n, t.now.micros ≤ (t.clock n).micros

/-- The schedules that are due. -/
def due (rows : Table) (now : DateTime) : List String := (rows.filter (·.selected now)).map (·.id)

/-- `_advance_before_run`; nothing if it raises. -/
def advanceOrRaise (rows : Table) (id : String) (now : DateTime) (refused : Bool) : Option Table :=
  if refused then none else (advanceBeforeRun rows id now).toOption

/-- The loop that advances the schedules, the first of them being the `n`-th; and
whether it came to its end. -/
def advanceFrom (t : Tick) : ℕ → Table → List String → Table × Bool
  | _, rows, [] => (rows, true)
  | n, rows, id :: ids =>
    match advanceOrRaise rows id (t.clock n) (t.refused n) with
    | some rows => advanceFrom t (n + 1) rows ids
    | none => (rows, false)

/-- `_tick`: the table afterwards and the schedules whose runs it starts. -/
def runTick (rows : Table) (t : Tick) : Table × List String :=
  let ids := due rows t.now
  let (rows, done) := advanceFrom t 0 rows ids
  (rows, if done then ids else [])

/-- Advancing the `n`-th schedule raises. -/
def Raises (rows : Table) (t : Tick) (n : ℕ) (id : String) : Prop :=
  advanceOrRaise rows id (t.clock n) (t.refused n) = none

/-- No schedule has been advanced when advancing one raises: it is the first. -/
def Unbroken (rows : Table) (t : Tick) : Prop :=
  (∃ n id, (due rows t.now)[n]? = some id ∧ Raises rows t n id) →
    ∃ id, (due rows t.now)[0]? = some id ∧ Raises rows t 0 id

/-- The schedule has been moved forward, or disabled. -/
def Moved (rows rows' : Table) (id : String) : Prop :=
  ∃ s s', getSchedule rows id = some s ∧ getSchedule rows' id = some s' ∧
    ((s.enabled = true ∧ s'.enabled = false) ∨
      ∃ r r', s.nextRunAt = some r ∧ s'.nextRunAt = some r' ∧ r < r')

/-- One run of each schedule that is moved is started, and no other. -/
def Exact (rows : Table) (t : Tick) : Prop :=
  ∀ id, (Moved rows (runTick rows t).1 id → (runTick rows t).2.count id = 1) ∧
    (¬ Moved rows (runTick rows t).1 id → (runTick rows t).2.count id = 0)

/-- A tick the database refuses nothing is `tick`. -/
theorem runTick_eq_tick {rows : Table} {t : Tick} (h : ∀ n, t.refused n = false) :
    runTick rows t = tick rows t.now t.clock := by
  have hloop (ids : List String) (n : ℕ) (rows : Table) :
      ∃ e, advanceAll rows ((ids.zipIdx n).map fun d => (d.1, t.clock d.2)) =
        ((advanceFrom t n rows ids).1, e) ∧ (e = none ↔ (advanceFrom t n rows ids).2 = true) := by
    induction ids generalizing n rows with
    | nil => exact ⟨none, rfl, iff_of_true rfl rfl⟩
    | cons id ids ih =>
      simp only [List.zipIdx_cons, List.map_cons, advanceAll, advanceFrom, advanceOrRaise, h n,
        Bool.false_eq_true, if_false]
      cases ha : advanceBeforeRun rows id (t.clock n) with
      | error e => exact ⟨some e, rfl, by simp [Except.toOption]⟩
      | ok rows' => exact ih (n + 1) rows'
  obtain ⟨e, he, hdone⟩ := hloop (due rows t.now) 0 rows
  rw [tick_eq he]
  unfold runTick
  dsimp only
  cases e with
  | none =>
    rw [if_pos (hdone.mp rfl)]
    rfl
  | some e =>
    have hfalse : (advanceFrom t 0 rows (due rows t.now)).2 = false := by
      rw [← Bool.not_eq_true, ← hdone]
      exact fun h => by cases h
    simp [hfalse]

/-! ### Advancing -/

theorem getSchedule_set {rows : Table} {id : String} {f : Schedule → Schedule}
    (hf : ∀ s, (f s).id = s.id) (id' : String) :
    getSchedule (rows.set id f) id' =
      if id' = id then (getSchedule rows id').map f else getSchedule rows id' := by
  induction rows with
  | nil => simp [getSchedule, Table.set]
  | cons s rows ih =>
    have hkey : (if s.id == id then f s else s).id = s.id := by
      split
      · exact hf s
      · rfl
    simp only [getSchedule, Table.set, List.map_cons, List.find?_cons, hkey] at ih ⊢
    by_cases hid : s.id = id'
    · subst hid
      simp only [beq_self_eq_true, beq_iff_eq]
      split
      · rfl
      · rfl
    · rw [beq_eq_false_iff_ne.mpr hid]
      exact ih

/-- How a schedule looks after it has been advanced at the time `now`. -/
inductive Advanced (now : DateTime) (s : Schedule) : Schedule → Prop where
  | once (ht : s.recurrenceType = .once) : Advanced now s { s with enabled := false }
  | cron {t : DateTime} (ht : s.recurrenceType = .cron) (hlater : now.micros < t.micros) :
      Advanced now s { s with nextRunAt := some t.isoformat }

/-- The schedule is the same one, of the same recurrence, and was not enabled. -/
structure Schedule.Kept (s s' : Schedule) : Prop where
  id : s'.id = s.id
  recurrenceType : s'.recurrenceType = s.recurrenceType
  enabled : s'.enabled = true → s.enabled = true

/-- What advancing writes, if anything. -/
theorem advanceOrRaise_cases {rows rows' : Table} {id : String} {now : DateTime} {refused : Bool}
    (h : advanceOrRaise rows id now refused = some rows') :
    (getSchedule rows id = none ∧ rows' = rows) ∨
      ∃ s f, getSchedule rows id = some s ∧ rows' = rows.set id f ∧
        (∀ s : Schedule, s.Kept (f s)) ∧ Advanced now s (f s) := by
  unfold advanceOrRaise advanceBeforeRun at h
  split at h
  · cases h
  · cases hs : getSchedule rows id with
    | none =>
      rw [hs] at h
      cases h
      exact .inl ⟨rfl, rfl⟩
    | some s =>
      rw [hs] at h
      dsimp only at h
      cases ht : s.recurrenceType with
      | once =>
        rw [ht] at h
        cases h
        exact .inr ⟨s, _, rfl, rfl, fun _ => ⟨rfl, rfl, fun h => by cases h⟩, .once ht⟩
      | cron =>
        rw [ht] at h
        cases hfire : nextFire s.cronExpr now with
        | error e =>
          rw [hfire] at h
          cases h
        | ok t =>
          rw [hfire] at h
          cases h
          exact .inr ⟨s, fun s => { s with nextRunAt := some t.isoformat }, rfl, rfl,
            fun _ => ⟨rfl, rfl, fun h => h⟩, .cron ht (micros_lt_nextFire hfire)⟩

/-- Advancing a schedule leaves the others as they are. -/
theorem advanceOrRaise_other {rows rows' : Table} {id id' : String} {now : DateTime}
    {refused : Bool} (h : advanceOrRaise rows id now refused = some rows') (hid : id' ≠ id) :
    getSchedule rows' id' = getSchedule rows id' := by
  rcases advanceOrRaise_cases h with ⟨-, rfl⟩ | ⟨s, f, -, rfl, hf, -⟩
  · rfl
  · rw [getSchedule_set fun s => (hf s).id, if_neg hid]

theorem advanceOrRaise_advanced {rows rows' : Table} {id : String} {now : DateTime}
    {refused : Bool} {s : Schedule} (h : advanceOrRaise rows id now refused = some rows')
    (hs : getSchedule rows id = some s) :
    ∃ s', getSchedule rows' id = some s' ∧ Advanced now s s' := by
  rcases advanceOrRaise_cases h with ⟨hnone, -⟩ | ⟨s₁, f, hs₁, rfl, hf, hadv⟩
  · rw [hs] at hnone
    cases hnone
  · rw [hs] at hs₁
    cases hs₁
    exact ⟨f s, by rw [getSchedule_set fun s => (hf s).id, if_pos rfl, hs, Option.map_some], hadv⟩

/-- Whether advancing a schedule raises depends on its own row. -/
theorem advanceOrRaise_congr {rows rows' : Table} {id : String} {now : DateTime} {refused : Bool}
    (h : getSchedule rows' id = getSchedule rows id) :
    advanceOrRaise rows' id now refused = none ↔ advanceOrRaise rows id now refused = none := by
  unfold advanceOrRaise advanceBeforeRun
  rw [h]
  split
  · exact Iff.rfl
  · cases getSchedule rows id with
    | none => simp [Except.toOption]
    | some s =>
      dsimp only
      cases s.recurrenceType with
      | once => simp [Except.toOption]
      | cron =>
        cases nextFire s.cronExpr now with
        | error e => exact Iff.rfl
        | ok t => exact iff_of_false (fun h => by cases h) fun h => by cases h

/-! ### The loop -/

/-- What is not in the list stays as it is. -/
theorem advanceFrom_other (t : Tick) {id : String} {ids : List String} (hid : id ∉ ids) (n : ℕ)
    (rows : Table) : getSchedule (advanceFrom t n rows ids).1 id = getSchedule rows id := by
  induction ids generalizing n rows with
  | nil => rfl
  | cons a ids ih =>
    rw [List.mem_cons, not_or] at hid
    unfold advanceFrom
    cases ha : advanceOrRaise rows a (t.clock n) (t.refused n) with
    | none => rfl
    | some rows' =>
      calc getSchedule (advanceFrom t (n + 1) rows' ids).1 id
          = getSchedule rows' id := ih hid.2 (n + 1) rows'
        _ = getSchedule rows id := advanceOrRaise_other ha hid.1

/-- If the loop comes to its end, every schedule in the list has been advanced. -/
theorem advanceFrom_advanced {t : Tick} {ids : List String} (hids : ids.Nodup) {n : ℕ}
    {rows : Table} (hdone : (advanceFrom t n rows ids).2 = true) {id : String} (hid : id ∈ ids)
    {s : Schedule} (hs : getSchedule rows id = some s) :
    ∃ k s', getSchedule (advanceFrom t n rows ids).1 id = some s' ∧
      Advanced (t.clock k) s s' := by
  induction ids generalizing n rows with
  | nil => cases hid
  | cons a ids ih =>
    obtain ⟨ha, hids⟩ := List.nodup_cons.mp hids
    unfold advanceFrom at hdone ⊢
    cases hadv : advanceOrRaise rows a (t.clock n) (t.refused n) with
    | none =>
      rw [hadv] at hdone
      cases hdone
    | some rows' =>
      rw [hadv] at hdone
      dsimp only at hdone ⊢
      by_cases hne : id = a
      · -- the head, which the rest of the loop does not touch
        subst hne
        obtain ⟨s', hs', hstep⟩ := advanceOrRaise_advanced hadv hs
        exact ⟨n, s', (advanceFrom_other t ha (n + 1) rows').trans hs', hstep⟩
      · rw [← advanceOrRaise_other hadv hne] at hs
        exact ih hids hdone (List.mem_of_ne_of_mem hne hid) hs

/-- The loop breaks off exactly when advancing one of the schedules raises. -/
theorem advanceFrom_breaks {t : Tick} {ids : List String} (hids : ids.Nodup) {n : ℕ}
    {rows : Table} :
    (advanceFrom t n rows ids).2 = false ↔
      ∃ k id, ids[k]? = some id ∧
        advanceOrRaise rows id (t.clock (n + k)) (t.refused (n + k)) = none := by
  induction ids generalizing n rows with
  | nil => simp [advanceFrom]
  | cons a ids ih =>
    obtain ⟨ha, hids⟩ := List.nodup_cons.mp hids
    unfold advanceFrom
    cases hadv : advanceOrRaise rows a (t.clock n) (t.refused n) with
    | none => exact iff_of_true rfl ⟨0, a, rfl, hadv⟩
    | some rows' =>
      -- the later schedules' rows are the same before and after
      have hsame (k : ℕ) (id : String) (hk : ids[k]? = some id) :
          advanceOrRaise rows' id (t.clock (n + 1 + k)) (t.refused (n + 1 + k)) = none ↔
            advanceOrRaise rows id (t.clock (n + 1 + k)) (t.refused (n + 1 + k)) = none := by
        refine advanceOrRaise_congr (advanceOrRaise_other hadv ?_)
        intro heq
        exact ha (heq ▸ List.mem_of_getElem? hk)
      dsimp only
      rw [ih hids]
      constructor
      · intro ⟨k, id, hk, hraise⟩
        refine ⟨k + 1, id, hk, ?_⟩
        rw [show n + (k + 1) = n + 1 + k by omega]
        exact (hsame k id hk).mp hraise
      · intro ⟨k, id, hk, hraise⟩
        cases k with
        | zero =>
          cases hk
          rw [Nat.add_zero, hadv] at hraise
          cases hraise
        | succ k =>
          rw [show n + (k + 1) = n + 1 + k by omega] at hraise
          exact ⟨k, id, hk, (hsame k id hk).mpr hraise⟩

/-- If the first schedule is advanced, it stays so. -/
theorem advanceFrom_head {t : Tick} {a : String} {ids : List String} (ha : a ∉ ids) {n : ℕ}
    {rows : Table} {s : Schedule} (hs : getSchedule rows a = some s)
    (hadv : advanceOrRaise rows a (t.clock n) (t.refused n) ≠ none) :
    ∃ s', getSchedule (advanceFrom t n rows (a :: ids)).1 a = some s' ∧
      Advanced (t.clock n) s s' := by
  obtain ⟨rows', hrows⟩ := Option.ne_none_iff_exists'.mp hadv
  obtain ⟨s', hs', hstep⟩ := advanceOrRaise_advanced hrows hs
  refine ⟨s', ?_, hstep⟩
  unfold advanceFrom
  rw [hrows]
  exact (advanceFrom_other t ha (n + 1) rows').trans hs'

/-! ### Exactly one run -/

theorem mem_due {rows : Table} (hkeys : (rows.map (·.id)).Nodup) {now : DateTime} {id : String} :
    id ∈ due rows now ↔ ∃ s, getSchedule rows id = some s ∧ s.selected now = true := by
  unfold due
  rw [List.mem_map]
  constructor
  · intro ⟨s, hs, hid⟩
    obtain ⟨hs, hsel⟩ := List.mem_filter.mp hs
    refine ⟨s, ?_, hsel⟩
    obtain ⟨s', hs'⟩ : ∃ s', getSchedule rows id = some s' := by
      rw [← Option.isSome_iff_exists, getSchedule, List.find?_isSome]
      exact ⟨s, hs, beq_iff_eq.mpr hid⟩
    have heq : s = s' := List.inj_on_of_nodup_map hkeys hs (mem_of_getSchedule hs')
      (hid.trans (id_of_getSchedule hs').symm)
    rw [heq, hs']
  · intro ⟨s, hs, hsel⟩
    exact ⟨s, List.mem_filter.mpr ⟨mem_of_getSchedule hs, hsel⟩, id_of_getSchedule hs⟩

theorem nodup_due {rows : Table} (hkeys : (rows.map (·.id)).Nodup) (now : DateTime) :
    (due rows now).Nodup := hkeys.sublist (List.Sublist.map _ List.filter_sublist)

/-- A schedule that was due and has been advanced was moved. -/
theorem moved_of_advanced {rows rows' : Table} {id : String} {now clock : DateTime}
    {s s' : Schedule} (hs : getSchedule rows id = some s) (hsel : s.selected now = true)
    (hs' : getSchedule rows' id = some s') (hle : now.micros ≤ clock.micros)
    (h : Advanced clock s s') : Moved rows rows' id := by
  unfold Schedule.selected at hsel
  rw [Bool.and_eq_true, Option.any_eq_true] at hsel
  obtain ⟨henabled, r, hr, hle'⟩ := hsel
  refine ⟨s, s', hs, hs', ?_⟩
  cases h with
  | once ht => exact .inl ⟨henabled, rfl⟩
  | @cron next ht hlater =>
    refine .inr ⟨r, next.isoformat, hr, rfl, ?_⟩
    calc r ≤ now.isoformat := of_decide_eq_true hle'
      _ < next.isoformat := isoformat_lt_iff.mpr (by omega)

/-- A row that stays as it is has not been moved. -/
theorem not_moved {rows rows' : Table} {id : String}
    (h : getSchedule rows' id = getSchedule rows id) : ¬ Moved rows rows' id := by
  intro ⟨s, s', hs, hs', hmoved⟩
  rw [h, hs] at hs'
  cases hs'
  rcases hmoved with ⟨htrue, hfalse⟩ | ⟨r, r', hr, hr', hlt⟩
  · rw [htrue] at hfalse
    cases hfalse
  · rw [hr] at hr'
    cases hr'
    exact lt_irrefl _ hlt

/-- **A tick starts exactly one run of each schedule it moves, and no other, exactly when
no exception comes after a schedule has been advanced.** -/
theorem exact_iff_unbroken {rows : Table} (hkeys : (rows.map (·.id)).Nodup) {t : Tick}
    (ht : t.Ordered) : Exact rows t ↔ Unbroken rows t := by
  have hnodup := nodup_due hkeys t.now
  have hbreaks := @advanceFrom_breaks t _ hnodup 0 rows
  simp only [Nat.zero_add] at hbreaks
  have hstarts : (runTick rows t).2 =
      if (advanceFrom t 0 rows (due rows t.now)).2 then due rows t.now else [] := rfl
  have hrows : (runTick rows t).1 = (advanceFrom t 0 rows (due rows t.now)).1 := rfl
  constructor
  · intro hexact hraise
    rw [hbreaks.mpr hraise, if_neg Bool.false_ne_true] at hstarts
    cases hdue : due rows t.now with
    | nil =>
      obtain ⟨n, id, hn, -⟩ := hraise
      rw [hdue] at hn
      cases hn
    | cons a ids =>
      refine ⟨a, rfl, ?_⟩
      by_contra hadv
      -- the first schedule is moved, but no run starts
      obtain ⟨s, hs, hsel⟩ := (mem_due hkeys).mp (hdue ▸ List.mem_cons_self)
      rw [hdue, List.nodup_cons] at hnodup
      obtain ⟨s', hs', hstep⟩ := advanceFrom_head hnodup.1 hs hadv
      rw [← hdue, ← hrows] at hs'
      have hone := (hexact a).1 (moved_of_advanced hs hsel hs' (ht 0) hstep)
      rw [hstarts] at hone
      cases hone
  · intro hunbroken id
    cases hdone : (advanceFrom t 0 rows (due rows t.now)).2 with
    | true =>
      rw [hdone, if_pos rfl] at hstarts
      rw [hstarts, hrows]
      by_cases hid : id ∈ due rows t.now
      · obtain ⟨s, hs, hsel⟩ := (mem_due hkeys).mp hid
        obtain ⟨k, s', hs', hstep⟩ := advanceFrom_advanced hnodup hdone hid hs
        have hmoved := moved_of_advanced hs hsel hs' (ht k) hstep
        exact ⟨fun _ => List.count_eq_one_of_mem hnodup hid, fun h => absurd hmoved h⟩
      · have hsame := advanceFrom_other t hid 0 rows
        exact ⟨fun h => absurd h (not_moved hsame), fun _ => List.count_eq_zero_of_not_mem hid⟩
    | false =>
      rw [hdone, if_neg Bool.false_ne_true] at hstarts
      obtain ⟨a, ha, hraise⟩ := hunbroken (hbreaks.mp hdone)
      -- the first schedule raises, so nothing has been moved
      have hsame : (runTick rows t).1 = rows := by
        cases hdue : due rows t.now with
        | nil =>
          rw [hdue] at ha
          cases ha
        | cons b ids =>
          rw [hdue] at ha
          cases ha
          rw [hrows, hdue]
          unfold advanceFrom
          rw [show advanceOrRaise rows a (t.clock 0) (t.refused 0) = none from hraise]
      rw [hstarts, hsame]
      exact ⟨fun h => absurd h (not_moved rfl), fun _ => rfl⟩

/-! ### Histories -/

/-- The table, and what has happened: the schedules there have been, as they
were created, the runs the ticks started, and the schedules that were edited. -/
structure Log where
  rows : Table
  created : List (String × Recurrence)
  starts : List String
  edited : List String

/-- Nothing has happened yet. -/
def Log.start (rows : Table) : Log where
  rows
  created := rows.map fun s => (s.id, s.recurrenceType)
  starts := []
  edited := []

/-- What can happen next; the id of a new schedule is a fresh `uuid4`. -/
inductive Log.Step (renderReal : Double → String) (log : Log) : Log → Prop where
  | create {new : NewSchedule} {id : String} {created now : DateTime} {s : Schedule}
      (hid : id ∉ log.created.map (·.1))
      (h : createSchedule log.rows new id created now = .ok (log.rows ++ [s])) :
      log.Step renderReal { log with
        rows := log.rows ++ [s]
        created := log.created ++ [(id, s.recurrenceType)] }
  | update {id : String} {fields : ScheduleFields} {now : DateTime} {rows : Table}
      (h : updateSchedule renderReal log.rows id fields now = .ok rows) :
      log.Step renderReal { log with rows, edited := log.edited ++ [id] }
  | delete (id : String) :
      log.Step renderReal { log with rows := deleteSchedule log.rows id }
  | tick (t : Tick) :
      log.Step renderReal { log with
        rows := (runTick log.rows t).1
        starts := log.starts ++ (runTick log.rows t).2 }
  | finishRun (id : String) (now : DateTime) (status : String) :
      log.Step renderReal { log with rows := finishRun log.rows id now status }

/-- The histories of a table. -/
def History (renderReal : Double → String) (rows : Table) : Log → Prop :=
  Relation.ReflTransGen (Log.Step renderReal) (.start rows)

/-- What the log says of the table. -/
structure Log.Inv (log : Log) : Prop where
  keys : (log.rows.map (·.id)).Nodup
  rows_created : ∀ s ∈ log.rows, s.id ∈ log.created.map (·.1)
  /-- A schedule that is not edited keeps its recurrence. -/
  recurrence : ∀ s ∈ log.rows, s.id ∉ log.edited →
    ∀ r, (s.id, r) ∈ log.created → s.recurrenceType = r
  starts_created : ∀ id ∈ log.starts, id ∈ log.created.map (·.1)
  /-- A one-off is started once, and is disabled by then. -/
  once : ∀ id, (id, Recurrence.once) ∈ log.created → id ∉ log.edited →
    log.starts.count id = 0 ∨ log.starts.count id = 1 ∧ ∀ s ∈ log.rows, s.id = id → s.enabled = false

theorem inv_start {rows : Table} (hkeys : (rows.map (·.id)).Nodup) : (Log.start rows).Inv where
  keys := hkeys
  rows_created s hs := List.mem_map.mpr ⟨_, List.mem_map_of_mem hs, rfl⟩
  recurrence s hs _ r hr := by
    obtain ⟨s', hs', heq⟩ := List.mem_map.mp hr
    rw [Prod.mk.injEq] at heq
    rw [← heq.2, List.inj_on_of_nodup_map hkeys hs' hs heq.1]
  starts_created id hid := by cases hid
  once id _ _ := .inl rfl

/-- The rows are the same schedules in the same order. -/
structure Table.Kept (rows rows' : Table) : Prop where
  ids : rows'.map (·.id) = rows.map (·.id)
  rows : ∀ s' ∈ rows', ∃ s ∈ rows, s.Kept s'

theorem Table.Kept.refl (rows : Table) : rows.Kept rows :=
  ⟨rfl, fun s hs => ⟨s, hs, rfl, rfl, fun h => h⟩⟩

theorem Table.Kept.trans {a b c : Table} (hab : a.Kept b) (hbc : b.Kept c) : a.Kept c := by
  refine ⟨hbc.ids.trans hab.ids, ?_⟩
  intro s hs
  obtain ⟨s₁, hs₁, h₁⟩ := hbc.rows s hs
  obtain ⟨s₀, hs₀, h₀⟩ := hab.rows s₁ hs₁
  exact ⟨s₀, hs₀, h₁.id.trans h₀.id, h₁.recurrenceType.trans h₀.recurrenceType,
    fun h => h₀.enabled (h₁.enabled h)⟩

theorem kept_set {rows : Table} {id : String} {f : Schedule → Schedule}
    (hf : ∀ s : Schedule, s.Kept (f s)) : rows.Kept (rows.set id f) := by
  constructor
  · rw [Table.set, List.map_map]
    refine List.map_congr_left fun s _ => ?_
    simp only [Function.comp]
    split
    · exact (hf s).id
    · rfl
  · intro s' hs'
    obtain ⟨s, hs, rfl⟩ := List.mem_map.mp hs'
    refine ⟨s, hs, ?_⟩
    split
    · exact hf s
    · exact ⟨rfl, rfl, fun h => h⟩

theorem kept_advanceFrom (t : Tick) (n : ℕ) (rows : Table) (ids : List String) :
    rows.Kept (advanceFrom t n rows ids).1 := by
  induction ids generalizing n rows with
  | nil => exact .refl rows
  | cons id ids ih =>
    unfold advanceFrom
    cases ha : advanceOrRaise rows id (t.clock n) (t.refused n) with
    | none => exact .refl rows
    | some rows' =>
      refine Table.Kept.trans ?_ (ih (n + 1) rows')
      rcases advanceOrRaise_cases ha with ⟨-, rfl⟩ | ⟨s, f, -, rfl, hf, -⟩
      · exact .refl _
      · exact kept_set hf

/-- What holds of the table and the log, but for the runs, when the table is kept. -/
theorem Log.Inv.kept {log : Log} {rows : Table} (h : log.Inv) (hk : log.rows.Kept rows) :
    { log with rows }.Inv where
  keys := by
    rw [hk.ids]
    exact h.keys
  rows_created s hs := by
    obtain ⟨s₀, hs₀, h₀⟩ := hk.rows s hs
    rw [h₀.id]
    exact h.rows_created s₀ hs₀
  recurrence s hs hedit r hr := by
    obtain ⟨s₀, hs₀, h₀⟩ := hk.rows s hs
    rw [h₀.id] at hedit hr
    rw [h₀.recurrenceType]
    exact h.recurrence s₀ hs₀ hedit r hr
  starts_created := h.starts_created
  once id hid hedit := by
    rcases h.once id hid hedit with hzero | ⟨hone, hoff⟩
    · exact .inl hzero
    · refine .inr ⟨hone, ?_⟩
      intro s hs hsid
      obtain ⟨s₀, hs₀, h₀⟩ := hk.rows s hs
      rw [← Bool.not_eq_true]
      intro hon
      have hoff₀ := hoff s₀ hs₀ (h₀.id.symm.trans hsid)
      rw [h₀.enabled hon] at hoff₀
      cases hoff₀

/-- The runs a tick starts are of schedules that were enabled; the one-offs among them
are disabled. -/
theorem runTick_starts {rows : Table} (hkeys : (rows.map (·.id)).Nodup) {t : Tick} {id : String}
    (hid : id ∈ (runTick rows t).2) :
    (runTick rows t).2.count id = 1 ∧ ∃ s k s', getSchedule rows id = some s ∧
      s.enabled = true ∧ getSchedule (runTick rows t).1 id = some s' ∧
      Advanced (t.clock k) s s' := by
  have hnodup := nodup_due hkeys t.now
  have hstarts : (runTick rows t).2 =
      if (advanceFrom t 0 rows (due rows t.now)).2 then due rows t.now else [] := rfl
  rw [hstarts] at hid ⊢
  cases hdone : (advanceFrom t 0 rows (due rows t.now)).2 with
  | false =>
    rw [hdone] at hid
    cases hid
  | true =>
    rw [hdone, if_pos rfl] at hid
    rw [if_pos rfl]
    obtain ⟨s, hs, hsel⟩ := (mem_due hkeys).mp hid
    obtain ⟨k, s', hs', hstep⟩ := advanceFrom_advanced hnodup hdone hid hs
    rw [Schedule.selected, Bool.and_eq_true] at hsel
    exact ⟨List.count_eq_one_of_mem hnodup hid, s, k, s', hs, hsel.1, hs', hstep⟩

/-- The row of an id is the one `get_schedule` finds. -/
theorem eq_of_id {rows : Table} (hkeys : (rows.map (·.id)).Nodup) {id : String} {s s₀ : Schedule}
    (hs : getSchedule rows id = some s) (hs₀ : s₀ ∈ rows) (hid : s₀.id = id) : s₀ = s :=
  List.inj_on_of_nodup_map hkeys hs₀ (mem_of_getSchedule hs) (hid.trans (id_of_getSchedule hs).symm)

theorem inv_tick {log : Log} (h : log.Inv) (t : Tick) :
    { log with
      rows := (runTick log.rows t).1
      starts := log.starts ++ (runTick log.rows t).2 : Log }.Inv := by
  have hkept := h.kept (kept_advanceFrom t 0 log.rows (due log.rows t.now))
  refine { hkept with starts_created := ?_, once := ?_ }
  · intro id hid
    rcases List.mem_append.mp hid with hid | hid
    · exact h.starts_created id hid
    · obtain ⟨-, s, k, s', hs, -⟩ := runTick_starts h.keys hid
      rw [← id_of_getSchedule hs]
      exact h.rows_created s (mem_of_getSchedule hs)
  · intro id hcreated hedit
    dsimp only
    rw [List.count_append]
    by_cases hid : id ∈ (runTick log.rows t).2
    · obtain ⟨hone, s, k, s', hs, hon, hs', hstep⟩ := runTick_starts h.keys hid
      have hsid := id_of_getSchedule hs
      -- it was enabled, so it had not been started
      have hzero : log.starts.count id = 0 := by
        rcases h.once id hcreated hedit with hzero | ⟨-, hoff⟩
        · exact hzero
        · rw [hoff s (mem_of_getSchedule hs) hsid] at hon
          cases hon
      have hrec : s.recurrenceType = .once :=
        h.recurrence s (mem_of_getSchedule hs) (hsid ▸ hedit) _ (hsid ▸ hcreated)
      refine .inr ⟨by rw [hzero, hone], ?_⟩
      intro s₁ hs₁ hid₁
      rw [eq_of_id hkept.keys hs' hs₁ hid₁]
      cases hstep with
      | once => rfl
      | cron ht _ =>
        rw [hrec] at ht
        cases ht
    · rw [List.count_eq_zero_of_not_mem hid, Nat.add_zero]
      exact hkept.once id hcreated hedit

theorem inv_create {log : Log} {new : NewSchedule} {id : String} {created now : DateTime}
    {s : Schedule} (hid : id ∉ log.created.map (·.1))
    (hcreate : createSchedule log.rows new id created now = .ok (log.rows ++ [s])) (h : log.Inv) :
    { log with
      rows := log.rows ++ [s]
      created := log.created ++ [(id, s.recurrenceType)] : Log }.Inv := by
  have hsid : s.id = id := by
    unfold createSchedule at hcreate
    split at hcreate
    · cases hcreate
    · obtain ⟨s', hrec, hok⟩ := bind_eq_ok.mp hcreate
      split at hok
      · cases hok
      · rw [Except.ok.injEq, List.append_cancel_left_eq, List.singleton_inj] at hok
        rw [← hok]
        exact recur_id hrec
  have hnew (s₀ : Schedule) (hs₀ : s₀ ∈ log.rows) : s₀.id ≠ id := by
    intro heq
    exact hid (heq ▸ h.rows_created s₀ hs₀)
  constructor
  · rw [List.map_append, List.nodup_append]
    refine ⟨h.keys, List.nodup_singleton _, ?_⟩
    intro a ha b hb hab
    obtain ⟨s₀, hs₀, rfl⟩ := List.mem_map.mp ha
    rw [List.map_singleton, List.mem_singleton] at hb
    exact hnew s₀ hs₀ (hab.trans (hb.trans hsid))
  · intro s₀ hs₀
    rw [List.map_append, List.mem_append]
    rcases List.mem_append.mp hs₀ with hs₀ | hs₀
    · exact .inl (h.rows_created s₀ hs₀)
    · rw [List.mem_singleton.mp hs₀, hsid]
      exact .inr (List.mem_singleton_self _)
  · intro s₀ hs₀ hedit r hr
    rcases List.mem_append.mp hs₀ with hs₀ | hs₀
    · rcases List.mem_append.mp hr with hr | hr
      · exact h.recurrence s₀ hs₀ hedit r hr
      · rw [List.mem_singleton, Prod.mk.injEq] at hr
        exact absurd hr.1 (hnew s₀ hs₀)
    · rw [List.mem_singleton] at hs₀
      subst hs₀
      rcases List.mem_append.mp hr with hr | hr
      · exact absurd (List.mem_map.mpr ⟨_, hr, hsid⟩) hid
      · rw [List.mem_singleton, Prod.mk.injEq] at hr
        exact hr.2.symm
  · intro a ha
    rw [List.map_append, List.mem_append]
    exact .inl (h.starts_created a ha)
  · intro a ha hedit
    rcases List.mem_append.mp ha with ha | ha
    · rcases h.once a ha hedit with hzero | ⟨hone, hoff⟩
      · exact .inl hzero
      · refine .inr ⟨hone, ?_⟩
        intro s₀ hs₀ hs₀id
        rcases List.mem_append.mp hs₀ with hs₀ | hs₀
        · exact hoff s₀ hs₀ hs₀id
        · -- the new schedule has an id of its own
          rw [List.mem_singleton.mp hs₀, hsid] at hs₀id
          subst hs₀id
          exact absurd (List.mem_map.mpr ⟨_, ha, rfl⟩) hid
    · rw [List.mem_singleton, Prod.mk.injEq] at ha
      refine .inl (List.count_eq_zero_of_not_mem fun hstart => hid ?_)
      exact ha.1 ▸ h.starts_created a hstart

theorem inv_update {renderReal : Double → String} {log : Log} {id : String}
    {fields : ScheduleFields} {now : DateTime} {rows : Table}
    (hupdate : updateSchedule renderReal log.rows id fields now = .ok rows) (h : log.Inv) :
    { log with rows, edited := log.edited ++ [id] : Log }.Inv := by
  -- a row of the new table is an old one, or that of the schedule edited
  have hrows : rows.map (·.id) = log.rows.map (·.id) ∧
      ∀ s ∈ rows, s ∈ log.rows ∨ s.id = id ∧ ∃ s₀ ∈ log.rows, s₀.id = id := by
    unfold updateSchedule at hupdate
    split at hupdate
    · cases hupdate
      exact ⟨rfl, fun s hs => .inl hs⟩
    · next s hg =>
      obtain ⟨s', happ, hok⟩ := bind_eq_ok.mp hupdate
      cases hok
      have hsid := id_of_getSchedule hg
      have hs'id : s'.id = id := by
        obtain ⟨s₁, h₁, hok⟩ := bind_eq_ok.mp happ
        obtain ⟨name, -, hok⟩ := bind_eq_ok.mp hok
        cases hok
        unfold ScheduleFields.recur at h₁
        split at h₁
        · cases h₁
          exact hsid
        · exact (recur_id h₁).trans hsid
      constructor
      · rw [Table.set, List.map_map]
        refine List.map_congr_left fun s₀ _ => ?_
        simp only [Function.comp]
        split
        · next hid => rw [beq_iff_eq.mp hid, hs'id]
        · rfl
      · intro s₁ hs₁
        obtain ⟨s₀, hs₀, rfl⟩ := List.mem_map.mp hs₁
        split
        · exact .inr ⟨hs'id, s, mem_of_getSchedule hg, hsid⟩
        · exact .inl hs₀
  obtain ⟨hids, hrows⟩ := hrows
  have hedited {a : String} (ha : a ∉ log.edited ++ [id]) : a ∉ log.edited ∧ a ≠ id := by
    rw [List.mem_append, not_or, List.mem_singleton] at ha
    exact ha
  constructor
  · rw [hids]
    exact h.keys
  · intro s hs
    rcases hrows s hs with hs | ⟨hsid, s₀, hs₀, hs₀id⟩
    · exact h.rows_created s hs
    · rw [hsid, ← hs₀id]
      exact h.rows_created s₀ hs₀
  · intro s hs hedit r hr
    rcases hrows s hs with hs | ⟨hsid, -⟩
    · exact h.recurrence s hs (hedited hedit).1 r hr
    · exact absurd hsid (hedited hedit).2
  · exact h.starts_created
  · intro a ha hedit
    rcases h.once a ha (hedited hedit).1 with hzero | ⟨hone, hoff⟩
    · exact .inl hzero
    · refine .inr ⟨hone, ?_⟩
      intro s hs hsid
      rcases hrows s hs with hs | ⟨hid, -⟩
      · exact hoff s hs hsid
      · exact absurd (hsid.symm.trans hid) (hedited hedit).2

theorem inv_delete {log : Log} (id : String) (h : log.Inv) :
    { log with rows := deleteSchedule log.rows id : Log }.Inv where
  keys := h.keys.sublist (List.Sublist.map _ List.filter_sublist)
  rows_created s hs := h.rows_created s (List.mem_filter.mp hs).1
  recurrence s hs := h.recurrence s (List.mem_filter.mp hs).1
  starts_created := h.starts_created
  once a ha hedit := by
    rcases h.once a ha hedit with hzero | ⟨hone, hoff⟩
    · exact .inl hzero
    · exact .inr ⟨hone, fun s hs => hoff s (List.mem_filter.mp hs).1⟩

theorem inv_step {renderReal : Double → String} {log log' : Log}
    (hstep : log.Step renderReal log') (h : log.Inv) : log'.Inv := by
  cases hstep with
  | create hid hcreate => exact inv_create hid hcreate h
  | update hupdate => exact inv_update hupdate h
  | delete id => exact inv_delete id h
  | tick t => exact inv_tick h t
  | finishRun id now status => exact h.kept (kept_set fun s => ⟨rfl, rfl, fun hon => hon⟩)

theorem inv_of_history {renderReal : Double → String} {rows : Table} {log : Log}
    (hkeys : (rows.map (·.id)).Nodup) (h : History renderReal rows log) : log.Inv := by
  induction h with
  | refl => exact inv_start hkeys
  | tail _ hstep ih => exact inv_step hstep ih

/-- A one-off that is never edited is started at most once. -/
theorem Log.Inv.once_at_most_once {log : Log} (h : log.Inv) {id : String}
    (hid : (id, Recurrence.once) ∈ log.created) (hedit : id ∉ log.edited) :
    log.starts.count id ≤ 1 := by
  rcases h.once id hid hedit with hzero | ⟨hone, -⟩
  · omega
  · omega

/-- **In every history of ticks and edits, the next tick starts exactly one run of each
schedule it moves, and no other, exactly when no exception comes after a schedule has
been advanced; and a one-off that is never edited is started at most once.** -/
theorem runs_of_history {renderReal : Double → String} {rows : Table} {log : Log}
    (hkeys : (rows.map (·.id)).Nodup) (h : History renderReal rows log) :
    (∀ t : Tick, t.Ordered → (Exact log.rows t ↔ Unbroken log.rows t)) ∧
      ∀ id, (id, Recurrence.once) ∈ log.created → id ∉ log.edited → log.starts.count id ≤ 1 := by
  have hinv := inv_of_history hkeys h
  exact ⟨fun t ht => exact_iff_unbroken hinv.keys ht,
    fun id hid hedit => hinv.once_at_most_once hid hedit⟩

/-- Two one-off builds, due at midnight. -/
def twoBuilds : Table :=
  [onceRow "2026-01-01T00:00:00+00:00" oneOClock,
    { onceRow "2026-01-01T00:00:00+00:00" oneOClock with id := "s2" }]

/-- A tick at one o'clock; the database is locked when the second is advanced. -/
def lockedTick : Tick where
  now := oneOClock
  clock _ := oneOClock
  refused n := n == 1

/-- The first build is disabled, and never runs. -/
theorem lost_run : ¬∀ (renderReal : Double → String) (rows : Table) (log : Log),
    (rows.map (·.id)).Nodup → History renderReal rows log →
      (∀ t : Tick, t.Ordered → Exact log.rows t) ∧
        ∀ id, (id, Recurrence.once) ∈ log.created → id ∉ log.edited →
          log.starts.count id ≤ 1 := by
  intro hclaim
  have hexact := (hclaim (fun _ => "") twoBuilds (.start twoBuilds) (by decide) .refl).1
    lockedTick fun _ => Nat.le_refl _
  have hstarts : (runTick twoBuilds lockedTick).2 = [] := by decide
  have hmoved : ∃ s s', getSchedule twoBuilds "s1" = some s ∧
      getSchedule (runTick twoBuilds lockedTick).1 "s1" = some s' ∧
      s.enabled = true ∧ s'.enabled = false := by
    have hon : (getSchedule twoBuilds "s1").map (·.enabled) = some true := by decide
    have hoff : (getSchedule (runTick twoBuilds lockedTick).1 "s1").map (·.enabled) =
        some false := by decide
    obtain ⟨s, hs, hson⟩ := Option.map_eq_some_iff.mp hon
    obtain ⟨s', hs', hsoff⟩ := Option.map_eq_some_iff.mp hoff
    exact ⟨s, s', hs, hs', hson, hsoff⟩
  obtain ⟨s, s', hs, hs', hon, hoff⟩ := hmoved
  have hone := (hexact "s1").1 ⟨s, s', hs, hs', .inl ⟨hon, hoff⟩⟩
  rw [show (Log.start twoBuilds).rows = twoBuilds from rfl, hstarts] at hone
  cases hone

/-- A tick at which it is not. -/
def freeTick : Tick where
  now := oneOClock
  clock _ := oneOClock
  refused _ := false

/-- When the database is locked at neither, both builds run. -/
theorem runs_of_history_two : Exact twoBuilds freeTick := by
  refine ((@runs_of_history (fun _ => "") twoBuilds (.start twoBuilds) (by decide) .refl).1
    freeTick fun _ => Nat.le_refl _).mpr ?_
  intro ⟨n, id, hn, hraise⟩
  have hdue : due twoBuilds oneOClock = ["s1", "s2"] := by decide
  have hs1 : (advanceOrRaise twoBuilds "s1" oneOClock false).isSome = true := by decide
  have hs2 : (advanceOrRaise twoBuilds "s2" oneOClock false).isSome = true := by decide
  have hid : id = "s1" ∨ id = "s2" := by
    have hmem : id ∈ due twoBuilds oneOClock := List.mem_of_getElem? hn
    rw [hdue] at hmem
    simpa using hmem
  rcases hid with rfl | rfl
  · rw [show advanceOrRaise twoBuilds "s1" oneOClock false = none from hraise] at hs1
    cases hs1
  · rw [show advanceOrRaise twoBuilds "s2" oneOClock false = none from hraise] at hs2
    cases hs2

end Scheduler
end CloudCore
