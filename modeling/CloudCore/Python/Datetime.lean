import CloudCore.Python.Text
import Mathlib.Tactic.IntervalCases

/-!
# Python's `datetime`

Dates of the proleptic Gregorian calendar, years 1 to 9999, with `datetime`'s
own ordinals: day 1 is 1 January of year 1.  A `DateTime` is a wall-clock time;
with its offset from UTC it denotes an instant, counted in microseconds.

## Main definitions

* `Date`, `Time`, `DateTime` — values carry the ranges of their fields.
* `Date.ordinal`, `Date.ofOrdinal` — `toordinal` and `fromordinal`.
* `DateTime.micros`, `DateTime.ofMicros` — microseconds since the first day.
* `DateTime.add` — `datetime + timedelta`.

## Main results

* `Date.ordinal_lt_iff` — ordinals count dates in calendar order.
* `Date.ordinal_ofOrdinal` — `fromordinal` inverts `toordinal`.
* `DateTime.micros_lt_iff` — microseconds compare as the fields do, from the year down.
-/

namespace Python

/-! ### The calendar -/

def isLeap (y : ℕ) : Bool := y % 4 == 0 && (y % 100 != 0 || y % 400 == 0)

def daysInMonth (leap : Bool) : ℕ → ℕ
  | 2 => if leap then 29 else 28
  | 4 | 6 | 9 | 11 => 30
  | _ => 31

def daysBeforeMonth (leap : Bool) : ℕ → ℕ
  | 0 | 1 => 0
  | m + 2 => daysBeforeMonth leap (m + 1) + daysInMonth leap (m + 1)

def daysBeforeYear (y : ℕ) : ℕ := (y - 1) * 365 + (y - 1) / 4 - (y - 1) / 100 + (y - 1) / 400

/-- The days of a year. -/
def daysInYear (y : ℕ) : ℕ := if isLeap y then 366 else 365

theorem daysBeforeYear_succ {y : ℕ} (h : 1 ≤ y) :
    daysBeforeYear (y + 1) = daysBeforeYear y + daysInYear y := by
  obtain ⟨x, rfl⟩ : ∃ x, y = x + 1 := ⟨y - 1, by omega⟩
  have h4 : (x + 1) / 4 = x / 4 + if (x + 1) % 4 = 0 then 1 else 0 := by split <;> omega
  have h100 : (x + 1) / 100 = x / 100 + if (x + 1) % 100 = 0 then 1 else 0 := by split <;> omega
  have h400 : (x + 1) / 400 = x / 400 + if (x + 1) % 400 = 0 then 1 else 0 := by split <;> omega
  have hle : x / 100 ≤ x / 4 := by omega
  unfold daysBeforeYear daysInYear isLeap
  simp only [Nat.add_sub_cancel]
  rw [h4, h100, h400]
  by_cases c4 : (x + 1) % 4 = 0
  · by_cases c100 : (x + 1) % 100 = 0
    · by_cases c400 : (x + 1) % 400 = 0
      · simp [c4, c100, c400]; omega
      · simp [c4, c100, c400]; omega
    · have c400 : (x + 1) % 400 ≠ 0 := by omega
      simp [c4, c100, c400]; omega
  · have c100 : (x + 1) % 100 ≠ 0 := by omega
    have c400 : (x + 1) % 400 ≠ 0 := by omega
    simp [c4, c100, c400]; omega

/-- Years come one after the other. -/
theorem daysBeforeYear_le {y y' : ℕ} (h : 1 ≤ y) (hy : y < y') :
    daysBeforeYear y + daysInYear y ≤ daysBeforeYear y' := by
  induction y', hy using Nat.le_induction with
  | base => rw [← daysBeforeYear_succ h]
  | succ y' hy ih =>
    rw [daysBeforeYear_succ (by omega)]
    omega

/-- Months come one after the other. -/
theorem daysBeforeMonth_le (leap : Bool) {m m' : ℕ} (h : 1 ≤ m) (hm : m < m') :
    daysBeforeMonth leap m + daysInMonth leap m ≤ daysBeforeMonth leap m' := by
  induction m', hm using Nat.le_induction with
  | base =>
    obtain ⟨k, rfl⟩ : ∃ k, m = k + 1 := ⟨m - 1, by omega⟩
    exact le_rfl
  | succ m' hm ih =>
    obtain ⟨k, rfl⟩ : ∃ k, m' = k + 1 := ⟨m' - 1, by omega⟩
    rw [daysBeforeMonth]
    omega

theorem daysBeforeMonth_twelve (leap : Bool) :
    daysBeforeMonth leap 12 + daysInMonth leap 12 = if leap then 366 else 365 := by
  cases leap <;> rfl

/-! ### Dates -/

/-- `datetime.date`. -/
@[ext] structure Date where
  year : ℕ
  month : ℕ
  day : ℕ
  valid : (1 ≤ year ∧ year ≤ 9999) ∧ (1 ≤ month ∧ month ≤ 12) ∧
    1 ≤ day ∧ day ≤ daysInMonth (isLeap year) month
  deriving DecidableEq

/-- The position of a day in its year, from 1. -/
def Date.dayOfYear (d : Date) : ℕ := daysBeforeMonth (isLeap d.year) d.month + d.day

/-- `date.toordinal`. -/
def Date.ordinal (d : Date) : ℕ := daysBeforeYear d.year + d.dayOfYear

/-- The last ordinal, of 31 December 9999. -/
def maxOrdinal : ℕ := 3652059

theorem Date.dayOfYear_pos (d : Date) : 1 ≤ d.dayOfYear := by
  have := d.valid.2.2.1
  unfold Date.dayOfYear
  omega

theorem Date.dayOfYear_le (d : Date) : d.dayOfYear ≤ daysInYear d.year := by
  obtain ⟨-, ⟨hm1, hm⟩, -, hd⟩ := d.valid
  have h12 := daysBeforeMonth_twelve (isLeap d.year)
  unfold Date.dayOfYear daysInYear
  rcases Nat.lt_or_ge d.month 12 with h | h
  · have := daysBeforeMonth_le (isLeap d.year) hm1 h
    omega
  · have he : d.month = 12 := by omega
    rw [he] at hd ⊢
    omega

/-- Within a year, days are counted in calendar order. -/
theorem Date.dayOfYear_lt {d d' : Date} (hy : d.year = d'.year)
    (h : d.month < d'.month ∨ d.month = d'.month ∧ d.day < d'.day) :
    d.dayOfYear < d'.dayOfYear := by
  unfold Date.dayOfYear
  rw [hy]
  rcases h with hm | ⟨hm, hd⟩
  · have hle := daysBeforeMonth_le (isLeap d'.year) d.valid.2.1.1 hm
    have h1 := d.valid.2.2.2
    have h2 := d'.valid.2.2.1
    rw [hy] at h1
    omega
  · rw [hm]
    omega

/-- The calendar order of dates. -/
def Date.Before (d d' : Date) : Prop :=
  d.year < d'.year ∨ d.year = d'.year ∧
    (d.month < d'.month ∨ d.month = d'.month ∧ d.day < d'.day)

theorem Date.ordinal_lt_of_before {d d' : Date} (h : d.Before d') : d.ordinal < d'.ordinal := by
  unfold Date.ordinal
  rcases h with hy | ⟨hy, hmd⟩
  · have h1 := daysBeforeYear_le d.valid.1.1 hy
    have h2 := d.dayOfYear_le
    have h3 := d'.dayOfYear_pos
    omega
  · have h1 := Date.dayOfYear_lt hy hmd
    rw [hy]
    omega

theorem Date.before_trichotomy (d d' : Date) : d.Before d' ∨ d = d' ∨ d'.Before d := by
  unfold Date.Before
  rcases Nat.lt_trichotomy d.year d'.year with h | h | h
  · exact .inl (.inl h)
  · rcases Nat.lt_trichotomy d.month d'.month with hm | hm | hm
    · exact .inl (.inr ⟨h, .inl hm⟩)
    · rcases Nat.lt_trichotomy d.day d'.day with hd | hd | hd
      · exact .inl (.inr ⟨h, .inr ⟨hm, hd⟩⟩)
      · exact .inr (.inl (Date.ext h hm hd))
      · exact .inr (.inr (.inr ⟨h.symm, .inr ⟨hm.symm, hd⟩⟩))
    · exact .inr (.inr (.inr ⟨h.symm, .inl hm⟩))
  · exact .inr (.inr (.inl h))

/-- **Ordinals count dates in calendar order.** -/
theorem Date.ordinal_lt_iff {d d' : Date} : d.ordinal < d'.ordinal ↔ d.Before d' := by
  refine ⟨fun h => ?_, Date.ordinal_lt_of_before⟩
  rcases Date.before_trichotomy d d' with hb | rfl | hb
  · exact hb
  · exact absurd h (Nat.lt_irrefl _)
  · exact absurd h (Nat.lt_asymm (Date.ordinal_lt_of_before hb))

theorem Date.ordinal_inj {d d' : Date} (h : d.ordinal = d'.ordinal) : d = d' := by
  rcases Date.before_trichotomy d d' with hb | he | hb
  · have := Date.ordinal_lt_of_before hb
    omega
  · exact he
  · have := Date.ordinal_lt_of_before hb
    omega

theorem Date.ordinal_pos (d : Date) : 1 ≤ d.ordinal := by
  have := d.dayOfYear_pos
  unfold Date.ordinal
  omega

theorem Date.ordinal_le (d : Date) : d.ordinal ≤ maxOrdinal := by
  have h1 := d.dayOfYear_le
  have h2 : daysBeforeYear d.year + daysInYear d.year ≤ daysBeforeYear 10000 :=
    daysBeforeYear_le d.valid.1.1 (by have := d.valid.1.2; omega)
  have h3 : daysBeforeYear 10000 = maxOrdinal := rfl
  unfold Date.ordinal
  omega

/-! ### Dates from ordinals -/

/-- The month and the day of a day of the year, counted from 0. -/
def monthDay (leap : Bool) (n : ℕ) : ℕ × ℕ :=
  let month := (n + 50) / 32
  let preceding := daysBeforeMonth leap month
  -- the estimate of the month is right or one too large
  if preceding > n then (month - 1, n - (preceding - daysInMonth leap (month - 1)) + 1)
  else (month, n - preceding + 1)

def ord2ymd (n : ℕ) : ℕ × ℕ × ℕ :=
  let n := n - 1
  let n400 := n / 146097
  let n := n % 146097
  let n100 := n / 36524
  let n := n % 36524
  let n4 := n / 1461
  let n := n % 1461
  let n1 := n / 365
  let n := n % 365
  let year := n400 * 400 + 1 + n100 * 100 + n4 * 4 + n1
  if n1 == 4 || n100 == 4 then (year - 1, 12, 31)
  else (year, monthDay (n1 == 3 && (n4 != 24 || n100 == 3)) n)

theorem monthDay_spec {leap : Bool} {n : ℕ} (h : n < if leap then 366 else 365) :
    (1 ≤ (monthDay leap n).1 ∧ (monthDay leap n).1 ≤ 12) ∧
      (1 ≤ (monthDay leap n).2 ∧ (monthDay leap n).2 ≤ daysInMonth leap (monthDay leap n).1) ∧
      daysBeforeMonth leap (monthDay leap n).1 + (monthDay leap n).2 = n + 1 := by
  have hall : ∀ leap : Bool, ∀ n < 366, (n < if leap then 366 else 365) →
      (1 ≤ (monthDay leap n).1 ∧ (monthDay leap n).1 ≤ 12) ∧
        (1 ≤ (monthDay leap n).2 ∧ (monthDay leap n).2 ≤ daysInMonth leap (monthDay leap n).1) ∧
        daysBeforeMonth leap (monthDay leap n).1 + (monthDay leap n).2 = n + 1 := by
    decide +kernel
  refine hall leap n ?_ h
  split at h <;> omega

/-- The years of a cycle of 400, from its centuries, groups of four and years. -/
theorem year_of_parts {a b c d : ℕ} (hb : b ≤ 3) (hc : c ≤ 24) (hd : d ≤ 3) :
    daysBeforeYear (a * 400 + 1 + b * 100 + c * 4 + d) =
        146097 * a + 36524 * b + 1461 * c + 365 * d ∧
      isLeap (a * 400 + 1 + b * 100 + c * 4 + d) = (d == 3 && (c != 24 || b == 3)) := by
  constructor
  · have h4 : (a * 400 + 1 + b * 100 + c * 4 + d - 1) / 4 = 100 * a + 25 * b + c := by omega
    have h100 : (a * 400 + 1 + b * 100 + c * 4 + d - 1) / 100 = 4 * a + b := by omega
    have h400 : (a * 400 + 1 + b * 100 + c * 4 + d - 1) / 400 = a := by omega
    unfold daysBeforeYear
    rw [h4, h100, h400]
    omega
  · have h4 : (a * 400 + 1 + b * 100 + c * 4 + d) % 4 = 0 ↔ d = 3 := by omega
    have h100 : (a * 400 + 1 + b * 100 + c * 4 + d) % 100 = 0 ↔ d = 3 ∧ c = 24 := by omega
    have h400 : (a * 400 + 1 + b * 100 + c * 4 + d) % 400 = 0 ↔ d = 3 ∧ c = 24 ∧ b = 3 := by
      omega
    rw [Bool.eq_iff_iff]
    simp only [isLeap, Bool.and_eq_true, Bool.or_eq_true, beq_iff_eq, bne_iff_ne, ne_eq, h4, h100,
      h400]
    tauto

/-- The last day of a group of four years is the 366th of a leap year. -/
theorem leapEnd_of_four {a b c : ℕ} (hb : b ≤ 3) (hc : c ≤ 23) :
    daysBeforeYear (a * 400 + b * 100 + c * 4 + 4) + 366 =
        146097 * a + 36524 * b + 1461 * c + 1461 ∧
      isLeap (a * 400 + b * 100 + c * 4 + 4) = true := by
  obtain ⟨hd, hl⟩ := year_of_parts (a := a) (d := 3) hb (by omega : c ≤ 24) le_rfl
  have he : a * 400 + 1 + b * 100 + c * 4 + 3 = a * 400 + b * 100 + c * 4 + 4 := by omega
  have hc24 : (c != 24) = true := by simp; omega
  rw [he] at hd hl
  rw [hd, hl, hc24]
  exact ⟨by omega, rfl⟩

/-- The last day of a cycle of 400 years is the 366th of a leap year. -/
theorem leapEnd_of_cycle (a : ℕ) :
    daysBeforeYear (a * 400 + 400) + 366 = 146097 * a + 146097 ∧
      isLeap (a * 400 + 400) = true := by
  obtain ⟨hd, hl⟩ := year_of_parts (a := a) (b := 3) (c := 24) (d := 3) le_rfl le_rfl le_rfl
  have he : a * 400 + 1 + 3 * 100 + 24 * 4 + 3 = a * 400 + 400 := by omega
  rw [he] at hd hl
  rw [hd, hl]
  exact ⟨by omega, rfl⟩

/-- The year, month and day of an ordinal are in range and have that ordinal. -/
theorem ord2ymd_spec {n : ℕ} (h : 1 ≤ n) :
    1 ≤ (ord2ymd n).1 ∧ (1 ≤ (ord2ymd n).2.1 ∧ (ord2ymd n).2.1 ≤ 12) ∧
      (1 ≤ (ord2ymd n).2.2 ∧
        (ord2ymd n).2.2 ≤ daysInMonth (isLeap (ord2ymd n).1) (ord2ymd n).2.1) ∧
      daysBeforeYear (ord2ymd n).1 + (daysBeforeMonth (isLeap (ord2ymd n).1) (ord2ymd n).2.1 +
        (ord2ymd n).2.2) = n := by
  unfold ord2ymd
  simp only
  generalize ha : (n - 1) / 146097 = a
  generalize hra : (n - 1) % 146097 = ra
  generalize hb : ra / 36524 = b
  generalize hrb : ra % 36524 = rb
  generalize hc : rb / 1461 = c
  generalize hrc : rb % 1461 = rc
  generalize hd : rc / 365 = d
  generalize hrd : rc % 365 = rd
  have hn : n = 146097 * a + 36524 * b + 1461 * c + 365 * d + rd + 1 := by omega
  have hb4 : b ≤ 4 := by omega
  have hc24 : c ≤ 24 := by omega
  have hd4 : d ≤ 4 := by omega
  split
  · next hend =>
    rw [Bool.or_eq_true, beq_iff_eq, beq_iff_eq] at hend
    by_cases hb' : b = 4
    · -- the last day of a cycle
      have hc0 : c = 0 := by omega
      have hd0 : d = 0 := by omega
      subst hb' hc0 hd0
      obtain ⟨ho, hl⟩ := leapEnd_of_cycle a
      have he : a * 400 + 1 + 4 * 100 + 0 * 4 + 0 - 1 = a * 400 + 400 := by omega
      simp only [he, hl]
      refine ⟨by omega, by omega, by decide, ?_⟩
      have h12 : daysBeforeMonth true 12 + 31 = 366 := rfl
      omega
    · -- the last day of a group of four years
      have hd' : d = 4 := by omega
      have hc23 : c ≤ 23 := by omega
      subst hd'
      obtain ⟨ho, hl⟩ := leapEnd_of_four (a := a) (b := b) (by omega) hc23
      have he : a * 400 + 1 + b * 100 + c * 4 + 4 - 1 = a * 400 + b * 100 + c * 4 + 4 := by omega
      simp only [he, hl]
      refine ⟨by omega, by omega, by decide, ?_⟩
      have h12 : daysBeforeMonth true 12 + 31 = 366 := rfl
      omega
  · next hend =>
    rw [Bool.or_eq_true, beq_iff_eq, beq_iff_eq, not_or] at hend
    obtain ⟨ho, hl⟩ := year_of_parts (a := a) (by omega : b ≤ 3) hc24 (by omega : d ≤ 3)
    have hrd' : rd < if (d == 3 && (c != 24 || b == 3)) then 366 else 365 := by
      split <;> omega
    obtain ⟨hm, hdy, hmd⟩ := monthDay_spec hrd'
    rw [hl, ho, hmd]
    exact ⟨by omega, hm, hdy, by omega⟩

/-- `date.fromordinal`. -/
def Date.ofOrdinal (n : ℕ) (h : 1 ≤ n ∧ n ≤ maxOrdinal) : Date where
  year := (ord2ymd n).1
  month := (ord2ymd n).2.1
  day := (ord2ymd n).2.2
  valid := by
    obtain ⟨hy, hm, hd, ho⟩ := ord2ymd_spec h.1
    refine ⟨⟨hy, ?_⟩, hm, hd⟩
    by_contra hlt
    have hle : daysBeforeYear 9999 + daysInYear 9999 ≤ daysBeforeYear (ord2ymd n).1 :=
      daysBeforeYear_le (by omega) (by omega)
    have hmax : daysBeforeYear 9999 + daysInYear 9999 = maxOrdinal := rfl
    omega

/-- **`fromordinal` inverts `toordinal`.** -/
@[simp] theorem Date.ordinal_ofOrdinal (n : ℕ) (h : 1 ≤ n ∧ n ≤ maxOrdinal) :
    (Date.ofOrdinal n h).ordinal = n :=
  (ord2ymd_spec h.1).2.2.2

/-! ### Times of day -/

/-- `datetime.time`, without a time zone. -/
@[ext] structure Time where
  hour : ℕ
  minute : ℕ
  second : ℕ
  microsecond : ℕ
  valid : hour < 24 ∧ minute < 60 ∧ second < 60 ∧ microsecond < 1000000
  deriving DecidableEq

/-- The microseconds of a day. -/
def dayMicros : ℕ := 86400000000

/-- Microseconds since midnight. -/
def Time.micros (t : Time) : ℕ :=
  ((t.hour * 60 + t.minute) * 60 + t.second) * 1000000 + t.microsecond

theorem Time.micros_lt (t : Time) : t.micros < dayMicros := by
  obtain ⟨h1, h2, h3, h4⟩ := t.valid
  unfold Time.micros dayMicros
  omega

/-- The time of day `n` microseconds after midnight. -/
def Time.ofMicros (n : ℕ) (h : n < dayMicros) : Time where
  hour := n / 3600000000
  minute := n / 60000000 % 60
  second := n / 1000000 % 60
  microsecond := n % 1000000
  valid := by
    unfold dayMicros at h
    omega

@[simp] theorem Time.micros_ofMicros (n : ℕ) (h : n < dayMicros) :
    (Time.ofMicros n h).micros = n := by
  simp only [Time.micros, Time.ofMicros]
  omega

/-- The order of times of day, from the hour down. -/
def Time.Before (t t' : Time) : Prop :=
  t.hour < t'.hour ∨ t.hour = t'.hour ∧ (t.minute < t'.minute ∨ t.minute = t'.minute ∧
    (t.second < t'.second ∨ t.second = t'.second ∧ t.microsecond < t'.microsecond))

theorem Time.micros_lt_iff {t t' : Time} : t.micros < t'.micros ↔ t.Before t' := by
  obtain ⟨h1, h2, h3, h4⟩ := t.valid
  obtain ⟨h1', h2', h3', h4'⟩ := t'.valid
  unfold Time.micros Time.Before
  omega

theorem Time.micros_inj {t t' : Time} (h : t.micros = t'.micros) : t = t' := by
  obtain ⟨h1, h2, h3, h4⟩ := t.valid
  obtain ⟨h1', h2', h3', h4'⟩ := t'.valid
  unfold Time.micros at h
  apply Time.ext <;> omega

/-! ### Wall-clock times -/

/-- `datetime.datetime`, without its time zone. -/
@[ext] structure DateTime where
  date : Date
  time : Time
  deriving DecidableEq

/-- Microseconds since the start of year 1. -/
def DateTime.micros (t : DateTime) : ℕ := (t.date.ordinal - 1) * dayMicros + t.time.micros

/-- The microseconds of all the days there are. -/
def maxMicros : ℕ := maxOrdinal * dayMicros

theorem DateTime.micros_lt (t : DateTime) : t.micros < maxMicros := by
  have h1 := t.date.ordinal_le
  have h2 := t.date.ordinal_pos
  have h3 := t.time.micros_lt
  unfold DateTime.micros maxMicros
  unfold maxOrdinal at h1 ⊢
  unfold dayMicros at h3 ⊢
  omega

/-- The wall-clock time `n` microseconds after the start of year 1. -/
def DateTime.ofMicros (n : ℕ) (h : n < maxMicros) : DateTime where
  date := .ofOrdinal (n / dayMicros + 1) <| by
    have hlt := (Nat.div_lt_iff_lt_mul (by decide : 0 < dayMicros)).mpr h
    exact ⟨Nat.le_add_left .., hlt⟩
  time := .ofMicros (n % dayMicros) (Nat.mod_lt _ (by decide))

@[simp] theorem DateTime.micros_ofMicros (n : ℕ) (h : n < maxMicros) :
    (DateTime.ofMicros n h).micros = n := by
  simp only [DateTime.micros, DateTime.ofMicros, Date.ordinal_ofOrdinal, Time.micros_ofMicros,
    Nat.add_sub_cancel]
  exact Nat.div_add_mod' n dayMicros

/-- **Microseconds compare as the fields do, from the year down.** -/
theorem DateTime.micros_lt_iff {t t' : DateTime} :
    t.micros < t'.micros ↔ t.date.Before t'.date ∨ t.date = t'.date ∧ t.time.Before t'.time := by
  rw [← Date.ordinal_lt_iff, ← Time.micros_lt_iff]
  have h1 := t.date.ordinal_pos
  have h2 := t'.date.ordinal_pos
  have h3 := t.time.micros_lt
  have h4 := t'.time.micros_lt
  have heq : t.date = t'.date ↔ t.date.ordinal = t'.date.ordinal :=
    ⟨fun h => by rw [h], Date.ordinal_inj⟩
  rw [heq]
  unfold DateTime.micros
  unfold dayMicros at h3 h4 ⊢
  omega

theorem DateTime.micros_inj {t t' : DateTime} (h : t.micros = t'.micros) : t = t' := by
  have h1 := t.date.ordinal_pos
  have h2 := t'.date.ordinal_pos
  have h3 := t.time.micros_lt
  have h4 := t'.time.micros_lt
  unfold DateTime.micros at h
  unfold dayMicros at h h3 h4
  apply DateTime.ext
  · exact Date.ordinal_inj (by omega)
  · exact Time.micros_inj (by omega)

/-- `date.weekday`: Monday is 0. -/
def Date.weekday (d : Date) : ℕ := (d.ordinal + 6) % 7

/-- `datetime + timedelta(microseconds=us)`; outside the calendar it is `OverflowError`. -/
def DateTime.add (t : DateTime) (us : ℤ) : Option DateTime :=
  if h : 0 ≤ t.micros + us ∧ t.micros + us < maxMicros then
    some (.ofMicros (t.micros + us).toNat (by omega))
  else none

theorem DateTime.micros_add {t t' : DateTime} {us : ℤ} (h : t.add us = some t') :
    (t'.micros : ℤ) = t.micros + us := by
  unfold DateTime.add at h
  split at h
  · cases h
    rw [DateTime.micros_ofMicros]
    omega
  · cases h

/-- `replace(second=0, microsecond=0)`. -/
def DateTime.startOfMinute (t : DateTime) : DateTime where
  date := t.date
  time := ⟨t.time.hour, t.time.minute, 0, 0, by have := t.time.valid; omega⟩

/-- `replace(minute=0)`. -/
def DateTime.startOfHour (t : DateTime) : DateTime where
  date := t.date
  time := ⟨t.time.hour, 0, t.time.second, t.time.microsecond, by have := t.time.valid; omega⟩

/-- `replace(hour=0, minute=0)`. -/
def DateTime.startOfDay (t : DateTime) : DateTime where
  date := t.date
  time := ⟨0, 0, t.time.second, t.time.microsecond, by have := t.time.valid; omega⟩

theorem DateTime.micros_startOfMinute (t : DateTime) :
    t.startOfMinute.micros + (t.time.second * 1000000 + t.time.microsecond) = t.micros := by
  simp only [DateTime.micros, DateTime.startOfMinute, Time.micros]
  omega

theorem DateTime.micros_startOfHour (t : DateTime) :
    t.startOfHour.micros + t.time.minute * 60000000 = t.micros := by
  simp only [DateTime.micros, DateTime.startOfHour, Time.micros]
  omega

theorem DateTime.micros_startOfDay (t : DateTime) :
    t.startOfDay.micros + (t.time.hour * 60 + t.time.minute) * 60000000 = t.micros := by
  simp only [DateTime.micros, DateTime.startOfDay, Time.micros]
  omega

end Python
