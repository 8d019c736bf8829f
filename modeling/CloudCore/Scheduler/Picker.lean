import CloudCore.Scheduler.NextFire

/-!
# The runs of a picked recurrence

Every expression of `build_cron` is one that `_parse` accepts, and its minutes come again within a
fixed time.

## Main definitions

* `Cron.Recurs` — some minute matches within every stretch of a length.
* `period` — the length for a mode.

## Main results

* `parse_buildCron` — a built expression is accepted, and recurs.
* `nextFire_of_recurs` — the next run of such an expression, if the search stays in the calendar.
* `picked_runs` — **a picked recurrence always has a next run, within its period, as long as the
  calendar lasts.**
-/

namespace CloudCore
namespace Scheduler

open Python

/-! ### Minutes that come again -/

/-- In every stretch of `p` microseconds, some minute matches. -/
def Cron.Recurs (c : Cron) (p : ℕ) : Prop :=
  ∀ after : DateTime, after.micros + p < maxMicros →
    ∃ m, Whole m ∧ after.micros < m.micros ∧ m.micros ≤ after.micros + p ∧ c.Matches m

/-- Every remainder is met within one period. -/
theorem exists_mod_eq {a p o : ℕ} (h : o < p) : ∃ x, a < x ∧ x ≤ a + p ∧ x % p = o := by
  have hdiv := Nat.div_add_mod (a + p - o) p
  have hmod := Nat.mod_lt (a + p - o) (Nat.zero_lt_of_lt h)
  refine ⟨p * ((a + p - o) / p) + o, by omega, by omega, ?_⟩
  rw [Nat.mul_add_mod, Nat.mod_eq_of_lt h]

/-- An expression whose minutes are met at an offset in every period. -/
theorem recurs_of_offset {c : Cron} {p o : ℕ} (h : o < p)
    (hmatches : ∀ m : DateTime, m.micros % p = o → Whole m ∧ c.Matches m) : c.Recurs p := by
  intro after hrange
  obtain ⟨x, hlow, hhigh, hx⟩ := exists_mod_eq (a := after.micros) h
  have hm := hmatches (.ofMicros x (Nat.lt_of_le_of_lt hhigh hrange))
    (by rwa [DateTime.micros_ofMicros])
  refine ⟨_, hm.1, ?_, ?_, hm.2⟩
  · rwa [DateTime.micros_ofMicros]
  · rwa [DateTime.micros_ofMicros]

/-- The fields of an expression that names a minute, an hour and a day of the week. -/
def onDays (minutes hours dows : Finset ℕ) : Cron :=
  ⟨minutes, hours, Finset.Icc 1 31, Finset.Icc 1 12, dows⟩

def everyDay : Finset ℕ := Finset.Icc 0 6

theorem month_mem (d : Date) : d.month ∈ Finset.Icc 1 12 := Finset.mem_Icc.mpr d.valid.2.1

theorem dayOk_onDays {minutes hours dows : Finset ℕ} {d : Date}
    (h : dows = everyDay ∨ (d.weekday + 1) % 7 ∈ dows) :
    (onDays minutes hours dows).dayOk d = true := by
  have hdoms : ¬(Finset.Icc 1 31).card < 31 := by rw [Nat.card_Icc]; exact Nat.lt_irrefl _
  unfold Cron.dayOk onDays
  dsimp only
  rw [if_neg (fun h => hdoms h.1), if_neg hdoms]
  split
  · next hrestricted =>
    rcases h with rfl | h
    · rw [everyDay, Nat.card_Icc] at hrestricted
      exact absurd hrestricted (Nat.lt_irrefl _)
    · exact decide_eq_true h
  · rfl

/-- Once in every hour. -/
theorem recurs_hourly {minutes : Finset ℕ} (h : 0 ∈ minutes) :
    (onDays minutes (Finset.Icc 0 23) everyDay).Recurs 3600000000 := by
  refine recurs_of_offset (o := 0) (by decide) fun m hm => ⟨(whole_iff m).mpr (by omega), month_mem _,
    dayOk_onDays (.inl rfl), ?_, ?_⟩
  · exact Finset.mem_Icc.mpr ⟨Nat.zero_le _, Nat.le_of_lt_succ m.time.valid.1⟩
  · have hminute : m.time.minute = 0 := by rw [minute_eq]; omega
    rw [hminute]
    exact h

/-- Once in every day. -/
theorem recurs_daily {minutes hours : Finset ℕ} {minute hour : ℕ} (hm : minute < 60) (hh : hour < 24)
    (hminute : minute ∈ minutes) (hhour : hour ∈ hours) :
    (onDays minutes hours everyDay).Recurs 86400000000 := by
  refine recurs_of_offset (o := (hour * 60 + minute) * 60000000) (by omega) fun m hmod =>
    ⟨(whole_iff m).mpr (by omega), month_mem _, dayOk_onDays (.inl rfl), ?_, ?_⟩
  · have heq : m.time.hour = hour := by rw [hour_eq]; omega
    rwa [heq]
  · have heq : m.time.minute = minute := by rw [minute_eq]; omega
    rwa [heq]

/-- Once in every week.  The calendar begins on a Monday. -/
theorem recurs_weekly {minute hour weekday : ℕ} (hm : minute < 60) (hh : hour < 24)
    (hd : weekday < 7) :
    (onDays {minute} {hour} {weekday}).Recurs 604800000000 := by
  refine recurs_of_offset (o := ((weekday + 6) % 7 * 1440 + hour * 60 + minute) * 60000000) (by omega)
    fun m hmod => ⟨(whole_iff m).mpr (by omega), month_mem _, dayOk_onDays (.inr ?_), ?_, ?_⟩
  · have heq : (m.date.weekday + 1) % 7 = weekday := by
      rw [Date.weekday, ordinal_eq]
      omega
    rw [heq]
    exact Finset.mem_singleton_self _
  · have heq : m.time.hour = hour := by rw [hour_eq]; omega
    rw [heq]
    exact Finset.mem_singleton_self _
  · have heq : m.time.minute = minute := by rw [minute_eq]; omega
    rw [heq]
    exact Finset.mem_singleton_self _

/-! ### Built expressions -/

/-- A field of an expression as it is written: not empty, and without blanks. -/
def isWord (w : List Char) : Bool := w ≠ [] && w.all fun x => !isSpace x

theorem splitOnP_word {w : List Char} (hw : isWord w = true) (rest : List Char) :
    ((w ++ ' ' :: rest).splitOnP isSpace).filter (· ≠ []) =
      w :: (rest.splitOnP isSpace).filter (· ≠ []) := by
  rw [isWord, Bool.and_eq_true, decide_eq_true_eq, List.all_eq_true] at hw
  have hblank : ∀ x ∈ w, isSpace x = false := fun x hx => by
    have hx := hw.2 x hx
    rwa [Bool.not_eq_true'] at hx
  rw [List.splitOnP_append_cons_of_forall_mem hblank ' ' (by decide), List.filter_cons_of_pos]
  exact decide_eq_true hw.1

theorem splitOnP_last {w : List Char} (hw : isWord w = true) :
    (w.splitOnP isSpace).filter (· ≠ []) = [w] := by
  rw [isWord, Bool.and_eq_true, decide_eq_true_eq, List.all_eq_true] at hw
  have hblank : ∀ x ∈ w, isSpace x = false := fun x hx => by
    have hx := hw.2 x hx
    rwa [Bool.not_eq_true'] at hx
  rw [List.splitOnP_eq_singleton hblank, List.filter_cons_of_pos, List.filter_nil]
  exact decide_eq_true hw.1

/-- An expression of a minute, an hour and a day of the week. -/
theorem parse_words {minute hour dow : String} {minutes hours dows : Finset ℕ}
    (hminute : isWord minute.toList = true) (hhour : isWord hour.toList = true)
    (hdow : isWord dow.toList = true) (hminutes : (parseField minute 0 59).toOption = some minutes)
    (hhours : (parseField hour 0 23).toOption = some hours)
    (hdows : (parseField dow 0 6).toOption = some dows) {cronExpr : String}
    (hexpr : cronExpr.toList =
      minute.toList ++ ' ' :: (hour.toList ++ ' ' :: ("*".toList ++ ' ' :: ("*".toList ++ ' ' ::
        dow.toList)))) :
    parse cronExpr = .ok (onDays minutes hours dows) := by
  have hdoms : parseField "*" 1 31 = .ok (Finset.Icc 1 31) := of_toOption_eq_some (by decide)
  have hmonths : parseField "*" 1 12 = .ok (Finset.Icc 1 12) :=
    of_toOption_eq_some (by decide)
  unfold parse
  rw [hexpr, splitOnP_word hminute, splitOnP_word hhour, splitOnP_word (by decide),
    splitOnP_word (by decide), splitOnP_last hdow]
  simp only [String.ofList_toList, of_toOption_eq_some hminutes, of_toOption_eq_some hhours,
    of_toOption_eq_some hdows, hdoms, hmonths, bind, Except.bind]
  rfl

/-- A number is one word, and the field of that number. -/
theorem parseField_number {v : ℤ} {hi : ℕ} (h : 0 ≤ v ∧ v ≤ hi) (hhi : hi ∈ [6, 23, 59]) :
    isWord (toString v).toList = true ∧ (parseField (toString v) 0 hi).toOption = some {v.toNat} := by
  have hall : ∀ hi ∈ [6, 23, 59], ∀ k < hi + 1,
      isWord (toString (Int.ofNat k)).toList = true ∧
        (parseField (toString (Int.ofNat k)) 0 hi).toOption = some {k} := by
    decide
  obtain ⟨k, rfl⟩ := Int.eq_ofNat_of_zero_le h.1
  exact hall hi hhi k (by omega)

/-- A step from the first value on takes the first value. -/
theorem parseField_step {v : ℤ} {hi : ℕ} (h : 1 ≤ v ∧ v ≤ hi) (hhi : hi ∈ [23, 59]) :
    isWord ("*/" ++ toString v).toList = true ∧
      ∃ values, (parseField ("*/" ++ toString v) 0 hi).toOption = some values ∧ 0 ∈ values := by
  have hall : ∀ hi ∈ [23, 59], ∀ k < hi + 1, 1 ≤ k →
      isWord ("*/" ++ toString (Int.ofNat k)).toList = true ∧
        ((parseField ("*/" ++ toString (Int.ofNat k)) 0 hi).toOption.any (0 ∈ ·)) = true := by
    decide +kernel
  obtain ⟨k, rfl⟩ := Int.eq_ofNat_of_zero_le (by omega : 0 ≤ v)
  obtain ⟨hword, hany⟩ := hall hi hhi k (by omega) (by omega)
  obtain ⟨values, hvalues, hzero⟩ := (Option.any_eq_true _ _).mp hany
  exact ⟨hword, values, hvalues, of_decide_eq_true hzero⟩

/-- Every field that may be anything. -/
theorem parseField_any :
    isWord "*".toList = true ∧ (parseField "*" 0 23).toOption = some (Finset.Icc 0 23) ∧
      (parseField "*" 0 6).toOption = some everyDay := by
  decide

theorem of_intParam {mode params : Json} {name : String} {lo hi v : ℤ}
    (h : intParam mode params name lo hi = .ok v) : lo ≤ v ∧ v ≤ hi := by
  unfold intParam at h
  split at h
  · cases h
  · split at h
    · cases h
    · cases h
    · split at h
      · next hrange =>
        cases h
        exact hrange
      · cases h

/-- Within what time a recurrence of the mode comes again, in microseconds. -/
def period : Json → ℕ
  | .str "weekly" => 604800000000
  | .str "interval_minutes" => 3600000000
  | _ => 86400000000

/-- A built expression is accepted, and recurs. -/
theorem parse_buildCron {mode params : Json} {cronExpr : String}
    (h : buildCron mode params = .ok cronExpr) :
    ∃ c, parse cronExpr = .ok c ∧ c.Recurs (period mode) := by
  obtain ⟨hany, hanyHour, hanyDay⟩ := parseField_any
  unfold buildCron at h
  split at h
  · -- daily
    obtain ⟨hour, hhour, h⟩ := bind_eq_ok.mp h
    obtain ⟨minute, hminute, h⟩ := bind_eq_ok.mp h
    cases h
    have hh : 0 ≤ hour ∧ hour ≤ (23 : ℕ) := of_intParam hhour
    have hm : 0 ≤ minute ∧ minute ≤ (59 : ℕ) := of_intParam hminute
    obtain ⟨hhourWord, hhourField⟩ := parseField_number hh (by decide)
    obtain ⟨hminuteWord, hminuteField⟩ := parseField_number hm (by decide)
    refine ⟨_, parse_words hminuteWord hhourWord hany hminuteField hhourField hanyDay ?_,
      recurs_daily (by omega : minute.toNat < 60) (by omega : hour.toNat < 24)
        (Finset.mem_singleton_self _) (Finset.mem_singleton_self _)⟩
    simp only [String.toList_append, List.append_assoc]
    rfl
  · -- weekly
    obtain ⟨hour, hhour, h⟩ := bind_eq_ok.mp h
    obtain ⟨minute, hminute, h⟩ := bind_eq_ok.mp h
    obtain ⟨weekday, hweekday, h⟩ := bind_eq_ok.mp h
    cases h
    have hh : 0 ≤ hour ∧ hour ≤ (23 : ℕ) := of_intParam hhour
    have hm : 0 ≤ minute ∧ minute ≤ (59 : ℕ) := of_intParam hminute
    have hd : 0 ≤ weekday ∧ weekday ≤ (6 : ℕ) := of_intParam hweekday
    obtain ⟨hhourWord, hhourField⟩ := parseField_number hh (by decide)
    obtain ⟨hminuteWord, hminuteField⟩ := parseField_number hm (by decide)
    obtain ⟨hdayWord, hdayField⟩ := parseField_number hd (by decide)
    refine ⟨_, parse_words hminuteWord hhourWord hdayWord hminuteField hhourField hdayField ?_,
      recurs_weekly (by omega) (by omega) (by omega)⟩
    simp only [String.toList_append, List.append_assoc]
    rfl
  · -- interval_minutes
    obtain ⟨n, hn, h⟩ := bind_eq_ok.mp h
    cases h
    have hrange : 1 ≤ n ∧ n ≤ (59 : ℕ) := of_intParam hn
    obtain ⟨hword, values, hvalues, hzero⟩ := parseField_step hrange (by decide)
    refine ⟨_, parse_words hword hany hany hvalues hanyHour hanyDay ?_, recurs_hourly hzero⟩
    simp only [String.toList_append, List.append_assoc]
    rfl
  · -- interval_hours
    obtain ⟨n, hn, h⟩ := bind_eq_ok.mp h
    cases h
    have hrange : 1 ≤ n ∧ n ≤ (23 : ℕ) := of_intParam hn
    obtain ⟨hword, values, hvalues, hzero⟩ := parseField_step hrange (by decide)
    obtain ⟨hminuteWord, hminuteField⟩ : isWord "0".toList = true ∧
        (parseField "0" 0 59).toOption = some {0} := by decide
    refine ⟨_, parse_words hminuteWord hword hany hminuteField hvalues hanyDay ?_,
      recurs_daily (by decide) (by decide) (Finset.mem_singleton_self _) hzero⟩
    simp only [String.toList_append, List.append_assoc]
    rfl
  · cases h

theorem period_le (mode : Json) : period mode ≤ searchDays * dayMicros := by
  unfold period searchDays dayMicros
  split <;> norm_num

/-! ### The next runs -/

/-- The search from a time on stays in the calendar. -/
def InCalendar (after : DateTime) : Prop := firstMinute after + searchDays * dayMicros < maxMicros

instance (after : DateTime) : Decidable (InCalendar after) :=
  inferInstanceAs (Decidable (_ < _))

theorem inCalendar {after : DateTime}
    (h : after.micros + (60000000 + searchDays * dayMicros) < maxMicros) : InCalendar after := by
  have hstart := after.micros_startOfMinute
  unfold InCalendar firstMinute
  omega

/-- An expression that recurs has a next run, within its period. -/
theorem nextFire_of_recurs {cronExpr : String} {c : Cron} {p : ℕ} {after : DateTime}
    (hparse : parse cronExpr = .ok c) (hrecurs : c.Recurs p) (hp : p ≤ searchDays * dayMicros)
    (hafter : InCalendar after) :
    ∃ t, nextFire cronExpr after = .ok t ∧ after.micros < t.micros ∧
      t.micros ≤ after.micros + p := by
  have hstart := after.micros_startOfMinute
  obtain ⟨-, -, hs, hus⟩ := after.time.valid
  have hfirst : after.micros < firstMinute after := by
    unfold firstMinute
    omega
  unfold InCalendar at hafter
  obtain ⟨m, hwhole, hlow, hhigh, hmatches⟩ := hrecurs after (by omega)
  obtain ⟨t, ht, hle⟩ := nextFire_of_match hparse hafter hwhole hlow (by omega) hmatches
  exact ⟨t, ht, (nextFire_first hparse ht).2.1, hle.trans hhigh⟩

/-- Only a search that leaves the calendar is not answered. -/
theorem nextFire_outside {cronExpr : String} {c : Cron} {after : DateTime}
    (hparse : parse cronExpr = .ok c) (hafter : ¬InCalendar after) :
    nextFire cronExpr after = .error (.exc .overflowError) := by
  rcases nextFire_cases hparse after with ⟨herror, -⟩ | ⟨candidate, limit, -, -, hlimit, -⟩
  · exact herror
  · have hlt := limit.micros_lt
    rw [hlimit] at hlt
    exact absurd hlt hafter

/-- A sequence of runs after a first time. -/
def startingAt (first : DateTime) (runs : ℕ → DateTime) : ℕ → DateTime
  | 0 => first
  | i + 1 => runs i

theorem startingAt_zero (first : DateTime) (runs : ℕ → DateTime) :
    startingAt first runs 0 = first := rfl

theorem startingAt_succ (first : DateTime) (runs : ℕ → DateTime) (i : ℕ) :
    startingAt first runs (i + 1) = runs i := rfl

/-- Steps that go forward, by at most `p` each, one after the other up to a bound. -/
theorem exists_runs {next : DateTime → Except CronError DateTime} {p margin bound : ℕ}
    (hnext : ∀ t, t.micros + margin < bound →
      ∃ t', next t = .ok t' ∧ t.micros < t'.micros ∧ t'.micros ≤ t.micros + p) (n : ℕ) :
    ∀ first : DateTime, first.micros + n * p + margin < bound →
      ∃ runs : ℕ → DateTime, runs 0 = first ∧
        ∀ i ≤ n, next (runs i) = .ok (runs (i + 1)) ∧ (runs i).micros < (runs (i + 1)).micros := by
  induction n with
  | zero =>
    intro first hrange
    rw [Nat.zero_mul, Nat.add_zero] at hrange
    obtain ⟨t, ht, hlt, -⟩ := hnext first hrange
    refine ⟨startingAt first fun _ => t, startingAt_zero _ _, ?_⟩
    intro i hi
    obtain rfl := Nat.le_zero.mp hi
    rw [startingAt_zero, startingAt_succ]
    exact ⟨ht, hlt⟩
  | succ n ih =>
    intro first hrange
    rw [Nat.succ_mul] at hrange
    obtain ⟨t, ht, hlt, hle⟩ := hnext first (by omega)
    obtain ⟨runs, rfl, hruns⟩ := ih t (by omega)
    refine ⟨startingAt first runs, startingAt_zero _ _, ?_⟩
    intro i hi
    rw [startingAt_succ]
    cases i with
    | zero =>
      rw [startingAt_zero]
      exact ⟨ht, hlt⟩
    | succ i =>
      rw [startingAt_succ]
      exact hruns i (Nat.le_of_succ_le_succ hi)

/-- **A picked recurrence is accepted, and has a next run within its period after every time from
which the search stays in the calendar; so has every run after it.** -/
theorem picked_runs {mode params : Json} {cronExpr : String}
    (h : buildCron mode params = .ok cronExpr) :
    (∃ c, parse cronExpr = .ok c) ∧
      (∀ after, InCalendar after →
        ∃ t, nextFire cronExpr after = .ok t ∧ after.micros < t.micros ∧
          t.micros ≤ after.micros + period mode) ∧
      ∀ n after, after.micros + n * period mode + (60000000 + searchDays * dayMicros) < maxMicros →
        ∃ runs : ℕ → DateTime, runs 0 = after ∧
          ∀ i ≤ n, nextFire cronExpr (runs i) = .ok (runs (i + 1)) ∧
            (runs i).micros < (runs (i + 1)).micros := by
  obtain ⟨c, hparse, hrecurs⟩ := parse_buildCron h
  exact ⟨⟨c, hparse⟩,
    fun after hafter => nextFire_of_recurs hparse hrecurs (period_le mode) hafter,
    exists_runs fun after hafter =>
      nextFire_of_recurs hparse hrecurs (period_le mode) (inCalendar hafter)⟩

def threeOClock : Json := .obj [("hour", .int 3), ("minute", .int 0)]

theorem buildCron_threeOClock : buildCron (.str "daily") threeOClock = .ok "0 3 * * *" :=
  of_toOption_eq_some (by decide)

/-- Every night at three. -/
theorem picked_runs_daily :
    (∃ c, parse "0 3 * * *" = .ok c) ∧
      (∀ after, InCalendar after →
        ∃ t, nextFire "0 3 * * *" after = .ok t ∧ after.micros < t.micros ∧
          t.micros ≤ after.micros + period (.str "daily")) ∧
      ∀ n after, after.micros + n * period (.str "daily") + (60000000 + searchDays * dayMicros) <
          maxMicros →
        ∃ runs : ℕ → DateTime, runs 0 = after ∧
          ∀ i ≤ n, nextFire "0 3 * * *" (runs i) = .ok (runs (i + 1)) ∧
            (runs i).micros < (runs (i + 1)).micros :=
  picked_runs buildCron_threeOClock

/-- A summer night of the last year. -/
def lastSummer : DateTime :=
  ⟨⟨9999, 6, 1, by decide⟩, newYear.time⟩

/-- The window of the search leaves the calendar before the next run is looked for. -/
theorem last_summer :
    buildCron (.str "daily") threeOClock = .ok "0 3 * * *" ∧
      nextFire "0 3 * * *" lastSummer = .error (.exc .overflowError) := by
  obtain ⟨c, hparse, -⟩ := parse_buildCron buildCron_threeOClock
  exact ⟨buildCron_threeOClock, nextFire_outside hparse (by decide)⟩

end Scheduler
end CloudCore
