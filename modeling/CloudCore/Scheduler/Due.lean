import CloudCore.Scheduler.Schedules

/-!
# When a schedule is picked up

`next_run_at` has two writers: `isoformat` of a UTC time, for a cron schedule,
and the client's own text, for a one-off.  The texts of the first compare as
their instants do.  Those of the second do so exactly when they are *aligned*:
not later, as text, than the UTC spelling of their own instant, and later than
that of the microsecond before.

## Main definitions

* `Schedule.dueAt` — the instant `next_run_at` denotes.
* `Schedule.Sound` — which writer `next_run_at` comes from.
* `Aligned` — a text and an instant fall together among the UTC texts.

## Main results

* `sound_of_reached` — every row of a reached table is sound.
* `aligned_iff` — a text compares with the present as its instant does exactly
  when it is aligned.
* `selected_iff_due` — **a schedule is picked up exactly when it is due if and
  only if it is disabled, a cron schedule, or its `run_at` is aligned.**
-/

namespace CloudCore
namespace Scheduler

open Python

/-! ### What the table holds -/

/-- The instant `next_run_at` denotes, in microseconds of UTC. -/
def Schedule.dueAt (s : Schedule) : Option ℤ :=
  (s.nextRunAt.bind fromisoformat).bind (·.instant)

/-- `next_run_at` is the client's `run_at` or the text of a UTC time. -/
def Schedule.Sound (s : Schedule) : Prop :=
  match s.recurrenceType with
  | .once => ∃ r, s.runAt = some r ∧ s.nextRunAt = some r ∧ (fromisoformat r).isSome = true
  | .cron => ∃ t : DateTime, s.nextRunAt = some t.isoformat

/-- Soundness looks at three columns. -/
theorem Schedule.Sound.congr {s s' : Schedule} (h : s.Sound)
    (ht : s'.recurrenceType = s.recurrenceType) (hr : s'.runAt = s.runAt)
    (hn : s'.nextRunAt = s.nextRunAt) : s'.Sound := by
  unfold Schedule.Sound at h ⊢
  rw [ht, hr, hn]
  exact h

/-- The rows have different ids and are sound. -/
structure Table.Sound (rows : Table) : Prop where
  keys : (rows.map (·.id)).Nodup
  sound : ∀ s ∈ rows, s.Sound

theorem mem_of_getSchedule {rows : Table} {id : String} {s : Schedule}
    (h : getSchedule rows id = some s) : s ∈ rows := List.mem_of_find?_eq_some h

theorem id_of_getSchedule {rows : Table} {id : String} {s : Schedule}
    (h : getSchedule rows id = some s) : s.id = id := by
  have hid := List.find?_some h
  simpa using hid

/-- The row with an id is the one `get_schedule` gives. -/
theorem Table.Sound.eq_of_id {rows : Table} {id : String} {s s₀ : Schedule} (h : rows.Sound)
    (hg : getSchedule rows id = some s) (hs₀ : s₀ ∈ rows) (hid : s₀.id = id) : s₀ = s :=
  List.inj_on_of_nodup_map h.keys hs₀ (mem_of_getSchedule hg)
    (hid.trans (id_of_getSchedule hg).symm)

theorem sound_set {rows : Table} {id : String} {f : Schedule → Schedule} (h : rows.Sound)
    (hkey : ∀ s ∈ rows, s.id = id → (f s).id = id) (hf : ∀ s ∈ rows, s.id = id → (f s).Sound) :
    (rows.set id f).Sound := by
  constructor
  · have hmap : (rows.set id f).map (·.id) = rows.map (·.id) := by
      rw [Table.set, List.map_map]
      refine List.map_congr_left fun s hs => ?_
      simp only [Function.comp]
      split
      · next hid =>
        rw [beq_iff_eq] at hid
        rw [hkey s hs hid, hid]
      · rfl
    rw [hmap]
    exact h.keys
  · intro s hs
    obtain ⟨s₀, hs₀, rfl⟩ := List.mem_map.mp hs
    split
    · next hid =>
      rw [beq_iff_eq] at hid
      exact hf s₀ hs₀ hid
    · exact h.sound s₀ hs₀

/-- A one-off has a `run_at` that parses. -/
theorem resolveRecurrence_spec {recurrence : Json} {runAt : Option String} {cronExpr : String}
    (h : resolveRecurrence recurrence = .ok (.once, runAt, cronExpr)) :
    ∃ r, runAt = some r ∧ (fromisoformat r).isSome = true := by
  unfold resolveRecurrence at h
  split at h
  · dsimp only at h
    split at h
    · split at h
      · cases h
      · split at h
        · next r _ =>
          split at h
          · next st hst =>
            cases h
            exact ⟨r, rfl, by rw [hst]; rfl⟩
          · cases h
        · cases h
    · split at h
      · cases h
      · cases h
  · cases h

/-- Whatever recurrence is accepted, its columns are sound. -/
theorem recur_sound {recurrence : Json} {now : DateTime} {s s' : Schedule}
    (h : recur recurrence now s = .ok s') : s'.Sound := by
  obtain ⟨⟨t, runAt, cronExpr⟩, hcols, h⟩ := bind_eq_ok.mp h
  obtain ⟨nextRunAt, hnext, h⟩ := bind_eq_ok.mp h
  rw [mapError_eq_ok] at hnext
  cases h
  cases t with
  | once =>
    obtain ⟨r, rfl, hp⟩ := resolveRecurrence_spec hcols
    cases hnext
    exact ⟨r, rfl, rfl, hp⟩
  | cron =>
    simp only [nextRun] at hnext
    cases hf : nextFire cronExpr now with
    | error e => rw [hf] at hnext; cases hnext
    | ok t =>
      rw [hf] at hnext
      cases hnext
      exact ⟨t, rfl⟩

theorem recur_id {recurrence : Json} {now : DateTime} {s s' : Schedule}
    (h : recur recurrence now s = .ok s') : s'.id = s.id := by
  obtain ⟨⟨t, runAt, cronExpr⟩, -, h⟩ := bind_eq_ok.mp h
  obtain ⟨nextRunAt, -, h⟩ := bind_eq_ok.mp h
  cases h
  rfl

theorem sound_createSchedule {rows rows' : Table} {new : NewSchedule} {id : String}
    {created now : DateTime} (h : createSchedule rows new id created now = .ok rows')
    (hs : rows.Sound) : rows'.Sound := by
  unfold createSchedule at h
  split at h
  · cases h
  · obtain ⟨s, hrec, h⟩ := bind_eq_ok.mp h
    split at h
    · cases h
    · next hnew =>
      cases h
      constructor
      · rw [List.map_append, List.nodup_append]
        refine ⟨hs.keys, List.nodup_singleton _, ?_⟩
        intro a ha b hb hab
        obtain ⟨s₀, hs₀, rfl⟩ := List.mem_map.mp ha
        have hid : s₀.id = id := by
          rw [hab, List.mem_singleton.mp hb]
          exact recur_id hrec
        exact hnew (List.any_eq_true.mpr ⟨s₀, hs₀, beq_iff_eq.mpr hid⟩)
      · intro s' hs'
        rcases List.mem_append.mp hs' with hs' | hs'
        · exact hs.sound s' hs'
        · rw [List.mem_singleton.mp hs']
          exact recur_sound hrec

theorem sound_apply {renderReal : Double → String} {fields : ScheduleFields} {now : DateTime}
    {s s' : Schedule} (h : fields.apply renderReal now s = .ok s') (hs : s.Sound) :
    s'.Sound ∧ s'.id = s.id := by
  obtain ⟨s₁, h₁, h⟩ := bind_eq_ok.mp h
  obtain ⟨name, -, h⟩ := bind_eq_ok.mp h
  cases h
  have hs₁ : s₁.Sound ∧ s₁.id = s.id := by
    unfold ScheduleFields.recur at h₁
    split at h₁
    · cases h₁; exact ⟨hs, rfl⟩
    · exact ⟨recur_sound h₁, recur_id h₁⟩
  exact ⟨hs₁.1.congr rfl rfl rfl, hs₁.2⟩

theorem sound_updateSchedule {renderReal : Double → String} {rows rows' : Table} {id : String}
    {fields : ScheduleFields} {now : DateTime}
    (h : updateSchedule renderReal rows id fields now = .ok rows') (hs : rows.Sound) :
    rows'.Sound := by
  unfold updateSchedule at h
  split at h
  · cases h; exact hs
  · next s hg =>
    obtain ⟨s', happ, hok⟩ := bind_eq_ok.mp h
    cases hok
    obtain ⟨hsound, hid⟩ := sound_apply happ (hs.sound s (mem_of_getSchedule hg))
    exact sound_set hs (fun _ _ _ => hid.trans (id_of_getSchedule hg)) fun _ _ _ => hsound

theorem sound_deleteSchedule {rows : Table} (id : String) (hs : rows.Sound) :
    (deleteSchedule rows id).Sound where
  keys := hs.keys.sublist (List.Sublist.map _ List.filter_sublist)
  sound s h := hs.sound s (List.mem_filter.mp h).1

theorem sound_advanceBeforeRun {rows rows' : Table} {id : String} {now : DateTime}
    (h : advanceBeforeRun rows id now = .ok rows') (hs : rows.Sound) : rows'.Sound := by
  unfold advanceBeforeRun at h
  split at h
  · cases h; exact hs
  · next s hg =>
    split at h
    · cases h
      exact sound_set hs (fun _ _ hid => hid) fun s₀ hs₀ _ => (hs.sound s₀ hs₀).congr rfl rfl rfl
    · next ht =>
      obtain ⟨t, -, hok⟩ := bind_eq_ok.mp h
      cases hok
      refine sound_set hs (fun _ _ hid => hid) fun s₀ hs₀ hid => ?_
      have he := hs.eq_of_id hg hs₀ hid
      subst he
      simp only [Schedule.Sound, ht]
      exact ⟨t, rfl⟩

theorem sound_advanceAll (due : List (String × DateTime)) {rows : Table} (hs : rows.Sound) :
    (advanceAll rows due).1.Sound := by
  induction due generalizing rows with
  | nil => exact hs
  | cons d due ih =>
    obtain ⟨id, now⟩ := d
    simp only [advanceAll]
    split
    · next rows' h => exact ih (sound_advanceBeforeRun h hs)
    · exact hs

/-- A tick leaves the rows as the advances do, and runs its schedules if none of these raises. -/
theorem tick_eq {rows : Table} {now : DateTime} {clock : ℕ → DateTime} {res : Table × Option CronError}
    (h : advanceAll rows (((rows.filter (·.selected now)).map (·.id)).zipIdx.map
      fun d => (d.1, clock d.2)) = res) :
    tick rows now clock =
      (res.1, if res.2.isNone then (rows.filter (·.selected now)).map (·.id) else []) := by
  subst h
  unfold tick
  dsimp only
  split
  · next heq =>
    rw [show advanceAll rows _ = _ from heq]
    rfl
  · next heq =>
    rw [show advanceAll rows _ = _ from heq]
    rfl

theorem sound_tick {rows : Table} (now : DateTime) (clock : ℕ → DateTime) (hs : rows.Sound) :
    (tick rows now clock).1.Sound := by
  rw [tick_eq rfl]
  exact sound_advanceAll _ hs

theorem sound_step {renderReal : Double → String} {rows rows' : Table}
    (h : Step renderReal rows rows') (hs : rows.Sound) : rows'.Sound := by
  cases h with
  | create h => exact sound_createSchedule h hs
  | update h => exact sound_updateSchedule h hs
  | delete id => exact sound_deleteSchedule id hs
  | tick now clock => exact sound_tick now clock hs
  | finishRun id now status =>
    exact sound_set hs (fun _ _ hid => hid) fun s₀ hs₀ _ => (hs.sound s₀ hs₀).congr rfl rfl rfl

/-- Every row of a reached table is sound. -/
theorem sound_of_reached {renderReal : Double → String} {rows : Table}
    (h : Reached renderReal rows) : rows.Sound := by
  induction h with
  | refl => exact ⟨List.nodup_nil, List.forall_mem_nil _⟩
  | tail _ hstep ih => exact sound_step hstep ih

/-! ### Texts and instants -/

theorem maxMicros_pos : 0 < maxMicros := by decide

/-- The first UTC time that is not before `i`. -/
def firstFrom (i : ℤ) : Option DateTime :=
  if h : i < maxMicros then
    some (.ofMicros i.toNat (by have := maxMicros_pos; omega))
  else none

/-- The last UTC time before `i`. -/
def lastBefore (i : ℤ) : Option DateTime :=
  if h : 0 < i then
    some (.ofMicros (min i maxMicros - 1).toNat (by have := maxMicros_pos; omega))
  else none

theorem firstFrom_spec {i : ℤ} {t : DateTime} (h : firstFrom i = some t) :
    (t.micros : ℤ) = max i 0 := by
  unfold firstFrom at h
  split at h
  · cases h
    rw [DateTime.micros_ofMicros]
    omega
  · cases h

theorem lastBefore_spec {i : ℤ} {t : DateTime} (h : lastBefore i = some t) :
    0 < i ∧ (t.micros : ℤ) = min i maxMicros - 1 := by
  have hmax := maxMicros_pos
  unfold lastBefore at h
  split at h
  · cases h
    rw [DateTime.micros_ofMicros]
    omega
  · cases h

/-- As text, `r` is not later than the UTC spelling of the instant `i`, and later
than that of the microsecond before. -/
def Aligned (r : String) (i : ℤ) : Prop :=
  (∀ t ∈ firstFrom i, r ≤ t.isoformat) ∧ ∀ t ∈ lastBefore i, t.isoformat < r

/-- **A text compares with the present as its instant does exactly when it is aligned.** -/
theorem aligned_iff {r : String} {i : ℤ} :
    (∀ now : DateTime, r ≤ now.isoformat ↔ i ≤ now.micros) ↔ Aligned r i := by
  constructor
  · intro h
    constructor
    · intro t ht
      have hm := firstFrom_spec ht
      rw [h]
      omega
    · intro t ht
      have hm := lastBefore_spec ht
      rw [← not_le, h]
      omega
  · rintro ⟨hfirst, hlast⟩ now
    have hmax := now.micros_lt
    constructor
    · intro hr
      by_contra hlt
      have hpos : 0 < i := by omega
      obtain ⟨t, ht⟩ : ∃ t, lastBefore i = some t := ⟨_, dif_pos hpos⟩
      have hm := lastBefore_spec ht
      have hle : now.isoformat ≤ t.isoformat := by
        rw [isoformat_le_iff]
        omega
      exact absurd (hr.trans hle) (not_le.mpr (hlast t ht))
    · intro hi
      have hlt : i < maxMicros := by omega
      obtain ⟨t, ht⟩ : ∃ t, firstFrom i = some t := ⟨_, dif_pos hlt⟩
      have hm := firstFrom_spec ht
      refine (hfirst t ht).trans ?_
      rw [isoformat_le_iff]
      omega

/-- The text of a UTC time is aligned with it. -/
theorem aligned_isoformat (t : DateTime) : Aligned t.isoformat t.micros := by
  rw [← aligned_iff]
  intro now
  rw [isoformat_le_iff]
  omega

/-! ### Picked up when due -/

/-- A one-off that is enabled has a `run_at` aligned with the instant it denotes. -/
def Schedule.OnTime (s : Schedule) : Prop :=
  s.enabled = true → s.recurrenceType = .once →
    ∀ r ∈ s.runAt, ∀ i ∈ s.dueAt, Aligned r i

/-- At every tick the schedule is picked up exactly when it is due. -/
def Schedule.PickedUpWhenDue (s : Schedule) : Prop :=
  ∀ now : DateTime, s.selected now = true ↔
    s.enabled = true ∧ ∃ i, s.dueAt = some i ∧ i ≤ now.micros

/-- The comparison of `_tick`, for a schedule with a `next_run_at` that denotes an instant. -/
theorem pickedUpWhenDue_iff {s : Schedule} {r : String} {i : ℤ} (hr : s.nextRunAt = some r)
    (hi : s.dueAt = some i) :
    s.PickedUpWhenDue ↔ (s.enabled = true → ∀ now : DateTime, r ≤ now.isoformat ↔ i ≤ now.micros) := by
  unfold Schedule.PickedUpWhenDue Schedule.selected
  simp only [hr, hi, Option.any_some, Bool.and_eq_true, decide_eq_true_eq, Option.some.injEq,
    exists_eq_left']
  constructor
  · intro h he now
    have hn := h now
    simpa [he] using hn
  · intro h now
    constructor
    · rintro ⟨he, hle⟩
      exact ⟨he, (h he now).mp hle⟩
    · rintro ⟨he, hle⟩
      exact ⟨he, (h he now).mpr hle⟩

/-- **A schedule is picked up exactly when it is due if and only if it is disabled, a
cron schedule, or its `run_at` is aligned.** -/
theorem selected_iff_due {renderReal : Double → String} {rows : Table}
    (h : Reached renderReal rows) {s : Schedule} (hs : s ∈ rows)
    (hoffset : s.recurrenceType = .once → s.dueAt.isSome = true) :
    s.PickedUpWhenDue ↔ s.OnTime := by
  have hsound := (sound_of_reached h).sound s hs
  unfold Schedule.Sound at hsound
  unfold Schedule.OnTime
  cases ht : s.recurrenceType with
  | once =>
    rw [ht] at hsound
    obtain ⟨r, hrun, hnext, -⟩ := hsound
    obtain ⟨i, hi⟩ := Option.isSome_iff_exists.mp (hoffset ht)
    rw [pickedUpWhenDue_iff hnext hi, aligned_iff]
    simp [hrun, hi]
  | cron =>
    rw [ht] at hsound
    obtain ⟨t, hnext⟩ := hsound
    have hi : s.dueAt = some (t.micros : ℤ) := by
      rw [Schedule.dueAt, hnext, Option.bind_some, fromisoformat_isoformat]
      simp [Stamp.instant]
    rw [pickedUpWhenDue_iff hnext hi]
    refine ⟨nofun, fun _ _ now => ?_⟩
    rw [isoformat_le_iff]
    omega

/-- The row `create_schedule` inserts for a one-off build at `runAt`. -/
def onceRow (runAt : String) (created : DateTime) : Schedule where
  id := "s1"
  name := "nightly"
  kind := "build"
  engine := "tofu"
  template := "lab"
  varOverrides := .obj []
  recurrenceType := .once
  runAt := some runAt
  cronExpr := ""
  enabled := true
  nextRunAt := some runAt
  lastRunAt := none
  lastStatus := ""
  createdAt := created.isoformat
  createdBy := "ui"

/-- The request for it. -/
def onceRequest (runAt : String) : NewSchedule where
  name := "nightly"
  kind := "build"
  engine := "tofu"
  template := "lab"
  varOverrides := .obj []
  recurrence := .obj [("mode", .str "once"), ("run_at", .str runAt)]

theorem reached_once {renderReal : Double → String} {runAt : String} (now : DateTime)
    (hne : (Json.str runAt).truthy = true) (hp : (fromisoformat runAt).isSome = true) :
    Reached renderReal [onceRow runAt now] := by
  obtain ⟨st, hst⟩ := Option.isSome_iff_exists.mp hp
  have hmode : (onceRequest runAt).recurrence.get? "mode" = some (.str "once") := rfl
  have hrun : (onceRequest runAt).recurrence.get? "run_at" = some (.str runAt) := rfl
  have hcols : resolveRecurrence (onceRequest runAt).recurrence = .ok (.once, some runAt, "") := by
    unfold onceRequest resolveRecurrence at *
    simp only [hmode, hrun, Option.getD_some, hne, Bool.not_true, Bool.false_eq_true, if_false, hst]
  have hcreate : createSchedule [] (onceRequest runAt) "s1" now now =
      .ok [onceRow runAt now] := by
    unfold createSchedule recur
    rw [hcols]
    rfl
  exact .single (.create hcreate)

theorem january_valid : (1 ≤ 2026 ∧ 2026 ≤ 9999) ∧ (1 ≤ 1 ∧ 1 ≤ 12) ∧
    1 ≤ 1 ∧ 1 ≤ daysInMonth (isLeap 2026) 1 := by
  decide

/-- One o'clock UTC on 1 January 2026. -/
def oneOClock : DateTime where
  date := ⟨2026, 1, 1, january_valid⟩
  time := ⟨1, 0, 0, 0, by decide⟩

/-- Five in the morning five hours east of UTC is midnight UTC, but an hour later its
text still comes after the present's. -/
theorem missed_east_of_utc : ¬∀ (renderReal : Double → String) (rows : Table),
    Reached renderReal rows → ∀ s ∈ rows,
      (s.recurrenceType = .once → s.dueAt.isSome = true) → s.PickedUpWhenDue := by
  intro hclaim
  have hreach : Reached (fun _ => "") [onceRow "2026-01-01T05:00:00+05:00" oneOClock] :=
    reached_once oneOClock (by decide) (by decide)
  have h := hclaim _ _ hreach _ (List.mem_singleton_self _) (fun _ => by decide) oneOClock
  have hsel : (onceRow "2026-01-01T05:00:00+05:00" oneOClock).selected oneOClock = false := by
    decide
  have hdue : (onceRow "2026-01-01T05:00:00+05:00" oneOClock).dueAt =
      some 63902822400000000 := by decide
  have hnow : (63902822400000000 : ℤ) ≤ oneOClock.micros := by decide
  rw [hsel] at h
  exact absurd (h.mpr ⟨rfl, _, hdue, hnow⟩) (by decide)

/-- Midnight in the text of UTC: the schedule is picked up when it is due. -/
theorem selected_iff_due_utc :
    (onceRow "2026-01-01T00:00:00+00:00" oneOClock).PickedUpWhenDue := by
  have hreach : Reached (fun _ => "") [onceRow "2026-01-01T00:00:00+00:00" oneOClock] :=
    reached_once oneOClock (by decide) (by decide)
  refine (selected_iff_due hreach (List.mem_singleton_self _) fun _ => by decide).mpr ?_
  intro _ _ r hr i hi
  have hdue : (onceRow "2026-01-01T00:00:00+00:00" oneOClock).dueAt =
      some 63902822400000000 := by decide
  have hr' : r = DateTime.isoformat oneOClock.startOfDay := by
    cases hr
    decide
  have hi' : i = (oneOClock.startOfDay.micros : ℤ) := by
    rw [hdue] at hi
    cases hi
    decide
  rw [hr', hi']
  exact aligned_isoformat _

end Scheduler
end CloudCore
