import CloudCore.Scheduler.Croncalc
import Mathlib.Tactic.NormNum

/-!
# What the search for the next fire time finds

The search of `next_fire` jumps over months, days and hours.  No jump passes a minute that matches.

## Main definitions

* `Cron.Matches` — the minute matches the expression.
* `Cron.Clear` — no whole minute in a range does.
* `Aware`, `nextFireAware` — `next_fire` of a time in any zone.

## Main results

* `clear_advance` — a jump passes nothing.
* `search_spec` — what the outcome of a search says of the calendar.
* `nextFire_exact` — **`next_fire` finds the first matching minute after a time, or there is none in
  the days that it searches.**
-/

namespace CloudCore
namespace Scheduler

open Python

/-- `t` is a whole minute. -/
def Whole (t : DateTime) : Prop := t.time.second = 0 ∧ t.time.microsecond = 0

/-- The minute of `t` matches. -/
def Cron.Matches (c : Cron) (t : DateTime) : Prop :=
  t.date.month ∈ c.months ∧ c.dayOk t.date = true ∧ t.time.hour ∈ c.hours ∧ t.time.minute ∈ c.minutes

/-- No whole minute from `a` on and before `b` matches. -/
def Cron.Clear (c : Cron) (a b : ℕ) : Prop :=
  ∀ m, Whole m → a ≤ m.micros → m.micros < b → ¬c.Matches m

theorem Cron.Clear.trans {c : Cron} {x y z : ℕ} (h : c.Clear x y) (h' : c.Clear y z) :
    c.Clear x z := by
  intro m hwhole hx hz
  rcases Nat.lt_or_ge m.micros y with hy | hy
  · exact h m hwhole hx hy
  · exact h' m hwhole hy hz

theorem whole_iff (t : DateTime) : Whole t ↔ t.micros % 60000000 = 0 := by
  obtain ⟨-, -, hs, hus⟩ := t.time.valid
  unfold Whole DateTime.micros Time.micros dayMicros
  omega

theorem whole_startOfMinute (t : DateTime) : Whole t.startOfMinute := ⟨rfl, rfl⟩

/-- The microseconds of a time, by its day and the fields of the day. -/
theorem micros_eq (t : DateTime) :
    t.micros = (t.date.ordinal - 1) * 86400000000 + t.time.hour * 3600000000 +
      t.time.minute * 60000000 + t.time.second * 1000000 + t.time.microsecond := by
  unfold DateTime.micros Time.micros dayMicros
  omega

theorem ordinal_eq (t : DateTime) : t.date.ordinal = t.micros / 86400000000 + 1 := by
  have hmicros := micros_eq t
  have hpos := t.date.ordinal_pos
  obtain ⟨hh, hm, hs, hus⟩ := t.time.valid
  omega

theorem hour_eq (t : DateTime) : t.time.hour = t.micros / 3600000000 % 24 := by
  have hmicros := micros_eq t
  obtain ⟨hh, hm, hs, hus⟩ := t.time.valid
  omega

theorem minute_eq (t : DateTime) : t.time.minute = t.micros / 60000000 % 60 := by
  have hmicros := micros_eq t
  obtain ⟨hh, hm, hs, hus⟩ := t.time.valid
  omega

theorem micros_startOfDay_whole {t : DateTime} (ht : Whole t) :
    t.startOfDay.micros = t.micros / 86400000000 * 86400000000 := by
  have hstart := t.micros_startOfDay
  have hmicros := micros_eq t
  obtain ⟨hh, hm, -⟩ := t.time.valid
  obtain ⟨hs, hus⟩ := ht
  omega

theorem micros_startOfHour_whole {t : DateTime} (ht : Whole t) :
    t.startOfHour.micros = t.micros / 3600000000 * 3600000000 := by
  have hstart := t.micros_startOfHour
  have hmicros := micros_eq t
  obtain ⟨-, hm, -⟩ := t.time.valid
  obtain ⟨hs, hus⟩ := ht
  omega

/-- A whole number of minutes later. -/
theorem Whole.add {t u : DateTime} {us : ℤ} (ht : Whole t) (h : t.add us = some u)
    (hus : us % 60000000 = 0) : Whole u := by
  have hu := DateTime.micros_add h
  rw [whole_iff] at ht ⊢
  omega

/-- The time where a jump ends, or the end of the calendar. -/
def stop (t : Option DateTime) : ℕ := t.elim maxMicros DateTime.micros

theorem stop_none : stop none = maxMicros := by rw [stop, Option.elim_none]

theorem stop_some (t : DateTime) : stop (some t) = t.micros := by rw [stop, Option.elim_some]

section Jumps

variable {t m : DateTime}

/-- Only times outside the calendar are not reached. -/
theorem of_add_none {us : ℤ} (h : t.add us = none) :
    t.micros + us < 0 ∨ maxMicros ≤ t.micros + us := by
  unfold DateTime.add at h
  split at h
  · cases h
  · next hrange =>
    rcases not_and_or.mp hrange with hlow | hhigh
    · exact .inl (not_le.mp hlow)
    · exact .inr (not_lt.mp hhigh)

/-- Nothing is before the start of a day. -/
theorem not_before_startOfDay (ht : Whole t) (s : Time) : ¬s.Before t.startOfDay.time := by
  rintro (h | ⟨-, h | ⟨-, h | ⟨-, h⟩⟩⟩)
  · exact Nat.not_lt_zero _ h
  · exact Nat.not_lt_zero _ h
  · exact Nat.not_lt_zero _ (h.trans_eq ht.1)
  · exact Nat.not_lt_zero _ (h.trans_eq ht.2)

/-- Up to the first of the next month, the month is the same. -/
theorem month_of_lt_nextMonth (ht : Whole t) (hle : t.micros ≤ m.micros)
    (hlt : m.micros < stop (nextMonth t)) : m.date.month = t.date.month := by
  have hbefore : ¬m.date.Before t.date := fun h =>
    absurd (DateTime.micros_lt_iff.mpr (.inl h)) (Nat.not_lt.mpr hle)
  obtain ⟨⟨-, hyear⟩, ⟨hmonth1', hmonth⟩, hday, -⟩ := m.date.valid
  obtain ⟨⟨hyear1, hyear'⟩, ⟨hmonth1, hmonth'⟩, -⟩ := t.date.valid
  unfold Date.Before at hbefore
  cases hnext : nextMonth t with
  | none =>
    -- the calendar ends with this month
    unfold nextMonth at hnext
    rw [Option.map_eq_none_iff] at hnext
    split at hnext
    · next hdecember =>
      unfold Date.mk? at hnext
      split at hnext
      · cases hnext
      · next hinvalid =>
        have hfirst : 1 ≤ daysInMonth (isLeap (t.date.year + 1)) 1 := (by decide : 1 ≤ 31)
        omega
    · next hother =>
      unfold Date.mk? at hnext
      split at hnext
      · cases hnext
      · next hinvalid =>
        have hfirst : 1 ≤ daysInMonth (isLeap t.date.year) (t.date.month + 1) := by
          unfold daysInMonth
          split
          · split <;> decide
          all_goals decide
        omega
  | some t' =>
    rw [hnext, stop_some] at hlt
    obtain ⟨date, hdate, ht'⟩ := Option.map_eq_some_iff.mp hnext
    have hstart : t'.date = date ∧ t'.time = t.startOfDay.time := by
      rw [← ht']
      exact ⟨rfl, rfl⟩
    have hfirst : m.date.Before date := by
      rcases DateTime.micros_lt_iff.mp hlt with h | ⟨-, h⟩
      · rwa [hstart.1] at h
      · rw [hstart.2] at h
        exact absurd h (not_before_startOfDay ht _)
    unfold Date.Before at hfirst
    clear hlt hle
    split at hdate
    · obtain ⟨hy, hm, hd⟩ := Date.of_mk? hdate
      omega
    · obtain ⟨hy, hm, hd⟩ := Date.of_mk? hdate
      omega

/-- Up to the next day, the date is the same. -/
theorem date_of_lt_nextDay (ht : Whole t) (hle : t.micros ≤ m.micros)
    (hlt : m.micros < stop (nextDay t)) : m.date = t.date := by
  refine Date.ordinal_inj ?_
  rw [ordinal_eq, ordinal_eq]
  unfold nextDay at hlt
  cases hadd : t.add dayMicros with
  | none =>
    have hend := of_add_none hadd
    have hmax := m.micros_lt
    unfold maxMicros dayMicros maxOrdinal at hend hmax
    omega
  | some u =>
    have hu := DateTime.micros_add hadd
    have hstart := micros_startOfDay_whole (ht.add hadd (by norm_num [dayMicros]))
    rw [hadd] at hlt
    rw [Option.map_some, stop_some, hstart] at hlt
    unfold dayMicros at hu
    omega

/-- Up to the next hour, the hour is the same. -/
theorem hour_of_lt_nextHour (ht : Whole t) (hle : t.micros ≤ m.micros)
    (hlt : m.micros < stop (nextHour t)) : m.time.hour = t.time.hour := by
  rw [hour_eq, hour_eq]
  unfold nextHour at hlt
  cases hadd : t.add 3600000000 with
  | none =>
    have hend := of_add_none hadd
    have hmax := m.micros_lt
    unfold maxMicros dayMicros maxOrdinal at hend hmax
    omega
  | some u =>
    have hu := DateTime.micros_add hadd
    have hstart := micros_startOfHour_whole (ht.add hadd (by norm_num [dayMicros]))
    rw [hadd] at hlt
    rw [Option.map_some, stop_some, hstart] at hlt
    omega

/-- Up to the next minute, the minute is the same. -/
theorem minute_of_lt_nextMinute (ht : Whole t) (hle : t.micros ≤ m.micros)
    (hlt : m.micros < stop (nextMinute t)) : m.time.minute = t.time.minute := by
  rw [minute_eq, minute_eq]
  rw [whole_iff] at ht
  unfold nextMinute at hlt
  cases hadd : t.add 60000000 with
  | none =>
    have hend := of_add_none hadd
    have hmax := m.micros_lt
    unfold maxMicros dayMicros maxOrdinal at hend hmax
    omega
  | some u =>
    have hu := DateTime.micros_add hadd
    rw [hadd] at hlt
    rw [stop_some] at hlt
    omega

end Jumps

section Search

variable {cronExpr : String} {c : Cron} {limit t : DateTime}

theorem toOption_orRaise (e : Exc) (t : Option DateTime) : (orRaise e t).toOption = t := by
  cases t <;> rfl

/-- A jump passes nothing. -/
theorem clear_advance (ht : Whole t) {r : Except Exc DateTime} (h : c.advance t = some r) :
    c.Clear t.micros (stop r.toOption) := by
  intro m hwhole hle hlt hmatches
  unfold Cron.advance at h
  split at h
  · next hmonth =>
    rw [← Option.some.inj h, toOption_orRaise] at hlt
    exact hmonth (month_of_lt_nextMonth ht hle hlt ▸ hmatches.1)
  split at h
  · next hday =>
    rw [← Option.some.inj h, toOption_orRaise] at hlt
    have hok := hmatches.2.1
    rw [date_of_lt_nextDay ht hle hlt] at hok
    rw [hok] at hday
    exact Bool.false_ne_true hday
  split at h
  · next hhour =>
    rw [← Option.some.inj h, toOption_orRaise] at hlt
    exact hhour (hour_of_lt_nextHour ht hle hlt ▸ hmatches.2.2.1)
  split at h
  · next hminute =>
    rw [← Option.some.inj h, toOption_orRaise] at hlt
    exact hminute (minute_of_lt_nextMinute ht hle hlt ▸ hmatches.2.2.2)
  · cases h

/-- Where there is no jump, the minute matches. -/
theorem matches_of_advance (h : c.advance t = none) : c.Matches t := by
  unfold Cron.advance at h
  split at h
  · cases h
  · next hmonth =>
    split at h
    · cases h
    · next hday =>
      split at h
      · cases h
      · next hhour =>
        split at h
        · cases h
        · next hminute =>
          rw [Bool.not_eq_true, Bool.not_eq_false'] at hday
          exact ⟨not_not.mp hmonth, hday, not_not.mp hhour, not_not.mp hminute⟩

/-- A jump ends at a whole minute. -/
theorem whole_advance (ht : Whole t) {t' : DateTime} (h : c.advance t = some (.ok t')) : Whole t' := by
  unfold Cron.advance at h
  split at h
  · obtain ⟨date, -, rfl⟩ := Option.map_eq_some_iff.mp (orRaise_eq_ok.mp (Option.some.inj h))
    exact ht
  split at h
  · obtain ⟨u, hu, rfl⟩ := Option.map_eq_some_iff.mp (orRaise_eq_ok.mp (Option.some.inj h))
    have hwhole : Whole u := ht.add hu (by norm_num [dayMicros])
    exact hwhole
  split at h
  · obtain ⟨u, hu, rfl⟩ := Option.map_eq_some_iff.mp (orRaise_eq_ok.mp (Option.some.inj h))
    have hwhole : Whole u := ht.add hu (by norm_num)
    exact hwhole
  split at h
  · exact ht.add (orRaise_eq_ok.mp (Option.some.inj h)) (by norm_num)
  · cases h

/-- What the outcome of a search says of the calendar from its first candidate on. -/
def Found (c : Cron) (limit t : DateTime) : Except CronError DateTime → Prop
  | .ok r => Whole r ∧ t.micros ≤ r.micros ∧ c.Matches r ∧ c.Clear t.micros r.micros
  | .error (.invalidCron _) => c.Clear t.micros limit.micros
  | .error (.exc _) => c.Clear t.micros maxMicros

theorem Found.of_clear {c : Cron} {limit t t' : DateTime} {r : Except CronError DateTime}
    (hle : t.micros ≤ t'.micros) (hclear : c.Clear t.micros t'.micros) (h : Found c limit t' r) :
    Found c limit t r := by
  cases r with
  | ok r => exact ⟨h.1, hle.trans h.2.1, h.2.2.1, hclear.trans h.2.2.2⟩
  | error e =>
    cases e with
    | invalidCron e => exact hclear.trans h
    | exc e => exact hclear.trans h

/-- The search says the truth. -/
theorem search_spec (cronExpr : String) (c : Cron) (limit t : DateTime) (ht : Whole t) :
    Found c limit t (search cronExpr c limit t) := by
  fun_induction search cronExpr c limit t with
  | case1 t hlt hmatch =>
    exact ⟨ht, le_rfl, matches_of_advance hmatch, fun m _ hle hlt => absurd hlt (Nat.not_lt.mpr hle)⟩
  | case2 t hlt e hjump =>
    have hclear := clear_advance ht hjump
    rwa [Except.toOption, stop_none] at hclear
  | case3 t hlt t' hjump ih =>
    have hclear := clear_advance ht hjump
    rw [Except.toOption, stop_some] at hclear
    exact (ih (whole_advance ht hjump)).of_clear (micros_lt_advance hjump).le hclear
  | case4 t hlt => exact fun m _ hle hlt' => absurd (Nat.lt_of_le_of_lt hle hlt') hlt

end Search

/-! ### From a time on -/

/-- The first whole minute after `t`, in microseconds. -/
def firstMinute (t : DateTime) : ℕ := t.startOfMinute.micros + 60000000

/-- Whole minutes after a time are the ones from the first of them on. -/
theorem firstMinute_le_iff {t m : DateTime} (hm : Whole m) :
    firstMinute t ≤ m.micros ↔ t.micros < m.micros := by
  have hstart := t.micros_startOfMinute
  have hwhole := (whole_iff _).mp (whole_startOfMinute t)
  obtain ⟨-, -, hs, hus⟩ := t.time.valid
  rw [whole_iff] at hm
  unfold firstMinute
  omega

/-- Where the search starts. -/
theorem micros_candidate {after u : DateTime} (h : nextMinute after = some u) :
    u.startOfMinute.micros = firstMinute after := by
  have hu := DateTime.micros_add h
  have hstart := after.micros_startOfMinute
  have hstart' := u.micros_startOfMinute
  have hwhole := (whole_iff _).mp (whole_startOfMinute after)
  have hwhole' := (whole_iff _).mp (whole_startOfMinute u)
  obtain ⟨-, -, hs, hus⟩ := after.time.valid
  obtain ⟨-, -, hs', hus'⟩ := u.time.valid
  unfold firstMinute
  omega

/-- The search of `next_fire`, unless its end is outside the calendar. -/
theorem nextFire_cases {cronExpr : String} {c : Cron} (hparse : parse cronExpr = .ok c)
    (after : DateTime) :
    (nextFire cronExpr after = .error (.exc .overflowError) ∧
        maxMicros ≤ firstMinute after + searchDays * dayMicros) ∨
      ∃ candidate limit, Whole candidate ∧ candidate.micros = firstMinute after ∧
        limit.micros = firstMinute after + searchDays * dayMicros ∧
        nextFire cronExpr after = search cronExpr c limit candidate := by
  have hc : (parse cronExpr).mapError CronError.invalidCron = .ok c := by rw [hparse]; rfl
  have hstart := after.micros_startOfMinute
  obtain ⟨-, -, hs, hus⟩ := after.time.valid
  have hwindow : ((searchDays * dayMicros : ℕ) : ℤ) = searchDays * dayMicros := Nat.cast_mul _ _
  have hlong : 60000000 ≤ searchDays * dayMicros := by norm_num [searchDays, dayMicros]
  -- named, lest the kernel add up the microseconds of five years
  obtain ⟨add, hadd⟩ : ∃ add, DateTime.add = add := ⟨_, rfl⟩
  generalize hnext : nextMinute after = next
  generalize searchDays * dayMicros = window at *
  unfold nextFire
  rw [hc, hadd, hnext]
  cases next with
  | none =>
    refine .inl ⟨rfl, ?_⟩
    rcases of_add_none hnext with hlow | hhigh
    · omega
    · unfold firstMinute
      omega
  | some u =>
    have hcandidate := micros_candidate hnext
    cases hlimit : DateTime.add u.startOfMinute (searchDays * dayMicros) with
    | none =>
      refine .inl ⟨?_, ?_⟩
      · rw [hadd] at hlimit
        simp only [Option.map_some, hlimit, bind, Except.bind]
      · rcases of_add_none hlimit with hlow | hhigh
        · omega
        · rw [hcandidate, ← hwindow] at hhigh
          exact_mod_cast hhigh
    | some limit =>
      have hend := DateTime.micros_add hlimit
      refine .inr ⟨u.startOfMinute, limit, whole_startOfMinute u, hcandidate, ?_, ?_⟩
      · rw [hcandidate, ← hwindow] at hend
        exact_mod_cast hend
      · rw [hadd] at hlimit
        simp only [Option.map_some, hlimit, bind, Except.bind]

/-- `datetime.datetime` with its zone.  Arithmetic and the order of two times in one zone are those of
the wall clock. -/
structure Aware (Zone : Type) where
  wall : DateTime
  zone : Zone

/-- `next_fire`, for a time in any zone. -/
def nextFireAware {Zone : Type} (cronExpr : String) (after : Aware Zone) :
    Except CronError (Aware Zone) :=
  (nextFire cronExpr after.wall).map fun t => ⟨t, after.zone⟩

section Exact

variable {cronExpr : String} {c : Cron} {after t : DateTime}

/-- The answer is a matching minute, and the first one. -/
theorem nextFire_first (hparse : parse cronExpr = .ok c) (h : nextFire cronExpr after = .ok t) :
    Whole t ∧ after.micros < t.micros ∧ c.Matches t ∧
      ∀ m, Whole m → after.micros < m.micros → m.micros < t.micros → ¬c.Matches m := by
  rcases nextFire_cases hparse after with ⟨herror, -⟩ | ⟨candidate, limit, hwhole, hfirst, -, heq⟩
  · rw [herror] at h
    cases h
  · have hfound := search_spec cronExpr c limit candidate hwhole
    rw [← heq, h] at hfound
    obtain ⟨ht, hle, hmatches, hclear⟩ := hfound
    rw [hfirst] at hle hclear
    exact ⟨ht, (firstMinute_le_iff ht).mp hle, hmatches,
      fun m hm hafter hlt => hclear m hm ((firstMinute_le_iff hm).mpr hafter) hlt⟩

/-- The search finds nothing only where there is nothing. -/
theorem nextFire_none {e : InvalidCron} (hparse : parse cronExpr = .ok c)
    (h : nextFire cronExpr after = .error (.invalidCron e)) :
    ∀ m, Whole m → after.micros < m.micros →
      m.micros < firstMinute after + searchDays * dayMicros → ¬c.Matches m := by
  rcases nextFire_cases hparse after with ⟨herror, -⟩ | ⟨candidate, limit, hwhole, hfirst, hlimit, heq⟩
  · rw [herror] at h
    cases h
  · have hfound := search_spec cronExpr c limit candidate hwhole
    rw [← heq, h] at hfound
    intro m hm hafter hlt
    refine hfound m hm ?_ ?_
    · rw [hfirst]
      exact (firstMinute_le_iff hm).mpr hafter
    · rw [hlimit]
      exact hlt

/-- A search that stays in the calendar finds something where there is something, and nothing later. -/
theorem nextFire_of_match {m : DateTime} (hparse : parse cronExpr = .ok c)
    (hcalendar : firstMinute after + searchDays * dayMicros < maxMicros) (hwhole : Whole m)
    (hlow : after.micros < m.micros) (hhigh : m.micros < firstMinute after + searchDays * dayMicros)
    (hmatches : c.Matches m) : ∃ t, nextFire cronExpr after = .ok t ∧ t.micros ≤ m.micros := by
  have hm := (firstMinute_le_iff hwhole).mpr hlow
  rcases nextFire_cases hparse after with ⟨-, hover⟩ | ⟨candidate, limit, hc, hcandidate, hlimit, heq⟩
  · omega
  · have hfound := search_spec cronExpr c limit candidate hc
    rw [heq]
    cases hsearch : search cronExpr c limit candidate with
    | ok t =>
      rw [hsearch] at hfound
      obtain ⟨-, -, -, hclear⟩ := hfound
      refine ⟨t, rfl, ?_⟩
      by_contra hlate
      exact hclear m hwhole (by omega) (by omega) hmatches
    | error e =>
      rw [hsearch] at hfound
      cases e with
      | invalidCron e => exact absurd hmatches (hfound m hwhole (by omega) (by omega))
      | exc e => exact absurd hmatches (hfound m hwhole (by omega) m.micros_lt)

end Exact

/-- **`next_fire` answers with the first matching whole minute after a time, and raises `InvalidCron`
only if none matches in the days that it searches.** -/
theorem nextFire_exact {Zone : Type} (cronExpr : String) (c : Cron) (after : Aware Zone)
    (hparse : parse cronExpr = .ok c) :
    (∀ t, nextFireAware cronExpr after = .ok t →
        t.zone = after.zone ∧ Whole t.wall ∧ after.wall.micros < t.wall.micros ∧ c.Matches t.wall ∧
          ∀ m, Whole m → after.wall.micros < m.micros → m.micros < t.wall.micros → ¬c.Matches m) ∧
      ∀ e, nextFireAware cronExpr after = .error (.invalidCron e) →
        ∀ m, Whole m → after.wall.micros < m.micros →
          m.micros < firstMinute after.wall + searchDays * dayMicros → ¬c.Matches m := by
  unfold nextFireAware
  cases hfire : nextFire cronExpr after.wall with
  | ok t =>
    refine ⟨?_, nofun⟩
    rintro _ ⟨⟩
    exact ⟨rfl, nextFire_first hparse hfire⟩
  | error e =>
    refine ⟨nofun, ?_⟩
    rintro e ⟨⟩
    exact nextFire_none hparse hfire

theorem of_toOption_eq_some {ε α : Type} {x : Except ε α} {a : α} (h : x.toOption = some a) :
    x = .ok a := by
  cases x with
  | error e => cases h
  | ok b => cases h; rfl

/-- Noon of every day. -/
def noon : Cron := ⟨{0}, {12}, Finset.Icc 1 31, Finset.Icc 1 12, Finset.Icc 0 6⟩

def newYear : DateTime := ⟨⟨2026, 1, 1, by decide⟩, ⟨0, 0, 0, 0, by decide⟩⟩

theorem noon_valid : 12 < 24 ∧ 0 < 60 ∧ 0 < 60 ∧ 0 < 1000000 := by omega

def newYearsNoon : DateTime := ⟨newYear.date, ⟨12, 0, 0, 0, noon_valid⟩⟩

theorem nextFire_exact_noon :
    nextFireAware "0 12 * * *" ⟨newYear, "UTC"⟩ = .ok ⟨newYearsNoon, "UTC"⟩ ∧
      ∀ m, Whole m → newYear.micros < m.micros → m.micros < newYearsNoon.micros → ¬noon.Matches m := by
  have hparse : parse "0 12 * * *" = .ok noon := of_toOption_eq_some (by decide)
  have hspec := (nextFire_exact "0 12 * * *" noon ⟨newYear, "UTC"⟩ hparse).1
  obtain ⟨t, ht, hle⟩ : ∃ t, nextFire "0 12 * * *" newYear = .ok t ∧ t.micros ≤ newYearsNoon.micros :=
    nextFire_of_match hparse (by decide) ⟨rfl, rfl⟩ (by decide) (by decide)
      ⟨by decide, by decide, by decide, by decide⟩
  have hanswer : nextFireAware "0 12 * * *" ⟨newYear, "UTC"⟩ = .ok ⟨t, "UTC"⟩ := by
    rw [nextFireAware, ht]
    rfl
  obtain ⟨-, hwhole, hlt, hmatches, hclear⟩ : _ ∧ Whole t ∧ newYear.micros < t.micros ∧ noon.Matches t ∧
      ∀ m, Whole m → newYear.micros < m.micros → m.micros < t.micros → ¬noon.Matches m :=
    hspec _ hanswer
  -- the one noon of that day
  have heq : t = newYearsNoon := by
    have hyear : newYear.micros = 739616 * 86400000000 := by decide
    have hnoon : newYearsNoon.micros = 739616 * 86400000000 + 43200000000 := by decide
    have hhour : t.time.hour = 12 := Finset.mem_singleton.mp hmatches.2.2.1
    have hminute : t.time.minute = 0 := Finset.mem_singleton.mp hmatches.2.2.2
    obtain ⟨hs, hus⟩ := hwhole
    have hmicros := micros_eq t
    exact DateTime.micros_inj (by omega)
  rw [← heq]
  exact ⟨hanswer, hclear⟩

end Scheduler
end CloudCore
