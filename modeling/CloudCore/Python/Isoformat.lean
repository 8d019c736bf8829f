import CloudCore.Python.Datetime

/-!
# `isoformat` and `fromisoformat`

`isoformat` of a UTC time, and `fromisoformat` as Python 3.11 and later have it:
calendar and week dates, with or without dashes; any character between date and
time; hours, minutes and seconds with or without colons; a fraction of a second
after a dot or a comma, cut to microseconds; and `Z` or an offset from UTC.

## Main definitions

* `DateTime.isoformat` — the text of a UTC time.
* `fromisoformat` — `none` is `ValueError`.
* `Stamp.instant` — the instant an aware time denotes.

## Main results

* `fromisoformat_isoformat` — **a UTC time reads back.**
* `isoformat_lt_iff` — **the texts of UTC times compare as their instants**, whether
  they have a fraction or not.
-/

namespace Python

/-! ### Writing -/

/-- `YYYY-MM-DD`. -/
def Date.text (d : Date) : List Char :=
  pad 4 d.year ++ '-' :: (pad 2 d.month ++ '-' :: pad 2 d.day)

/-- The fraction of a second, which `isoformat` leaves out when it is zero. -/
def fractionText (us : ℕ) : List Char := if us = 0 then [] else '.' :: pad 6 us

/-- `HH:MM:SS` or `HH:MM:SS.ffffff`. -/
def Time.text (t : Time) : List Char :=
  pad 2 t.hour ++ ':' :: (pad 2 t.minute ++ ':' :: (pad 2 t.second ++ fractionText t.microsecond))

/-- `+00:00`. -/
def utcText : List Char := "+00:00".toList

/-- `isoformat()` of a time in UTC. -/
def DateTime.isoformat (t : DateTime) : String :=
  .ofList (t.date.text ++ 'T' :: (t.time.text ++ utcText))

/-! ### Reading -/

/-- A time that `fromisoformat` has read: the offset is missing or in microseconds. -/
structure Stamp where
  time : DateTime
  offset : Option ℤ
  deriving DecidableEq

/-- The instant, in microseconds of UTC; a time without an offset denotes none. -/
def Stamp.instant (s : Stamp) : Option ℤ := s.offset.map fun o => s.time.micros - o

/-- `_find_isoformat_datetime_separator`. -/
def findSeparator (l : List Char) : Option ℕ :=
  if l.length = 7 then some 7
  else if l[4]? = some '-' then
    if l[5]? = some 'W' then
      if l.length > 8 ∧ l[8]? = some '-' then
        if l.length = 9 then none
        -- YYYY-Www-##: the dash is taken for the separator
        else if l.length > 10 ∧ (l[10]?).any Char.isDigit then some 8
        else some 10
      else some 8
    else some 10
  else if l[4]? = some 'W' then
    let i := 7 + ((l.drop 7).takeWhile Char.isDigit).length
    -- the digits of a time come in pairs
    if i < 9 then some i else if i % 2 = 0 then some 7 else some 8
  else some 8

def isoweek1monday (year : ℕ) : ℕ :=
  let firstday := daysBeforeYear year + 1
  let firstweekday := (firstday + 6) % 7
  firstday - firstweekday + if firstweekday > 3 then 7 else 0

def isoweekToGregorian (year week day : ℕ) : Option (ℕ × ℕ × ℕ) :=
  let first := (daysBeforeYear year + 1) % 7
  if ¬(1 ≤ year ∧ year ≤ 9999) then none
  else if ¬(0 < week ∧ week < 53) ∧ ¬(week = 53 ∧ (first = 4 ∨ first = 3 ∧ isLeap year)) then none
  else if ¬(0 < day ∧ day < 8) then none
  else some (ord2ymd (isoweek1monday year + ((week - 1) * 7 + (day - 1))))

/-- Skip a separator if the format has one; it must be there exactly then. -/
def skipSep (sep : Bool) (c : Char) (l : List Char) : Option (List Char) :=
  if (l.head? == some c) = sep then some (if sep then l.tail else l) else none

/-- `_parse_isoformat_date`. -/
def parseDate (l : List Char) : Option (ℕ × ℕ × ℕ) := do
  let (year, l) ← digits 4 l
  let sep := l.head? == some '-'
  let l := if sep then l.tail else l
  if l.head? == some 'W' then
    let (week, l) ← digits 2 l.tail
    if l.isEmpty then isoweekToGregorian year week 1
    else
      let l ← skipSep sep '-' l
      let (day, l) ← digits 1 l
      if l.isEmpty then isoweekToGregorian year week day else none
  else
    let (month, l) ← digits 2 l
    let l ← skipSep sep '-' l
    let (day, l) ← digits 2 l
    if l.isEmpty then some (year, month, day) else none

/-- The microseconds of a fraction; digits after the sixth are cut off. -/
def parseFraction : List Char → Option ℕ
  | [] => some 0
  | c :: l =>
    if (c = '.' ∨ c = ',') ∧ l ≠ [] ∧ l.all Char.isDigit then
      some (value (l.take 6) * 10 ^ (6 - l.length))
    else none

/-- `_parse_hh_mm_ss_ff`. -/
def parseHms (l : List Char) : Option (ℕ × ℕ × ℕ × ℕ) := do
  let (hour, l) ← digits 2 l
  if l.isEmpty then some (hour, 0, 0, 0)
  else
    let sep := l.head? == some ':'
    let l ← skipSep sep ':' l
    let (minute, l) ← digits 2 l
    if l.isEmpty then some (hour, minute, 0, 0)
    else
      let l ← skipSep sep ':' l
      let (second, l) ← digits 2 l
      let us ← parseFraction l
      some (hour, minute, second, us)

/-- The microseconds of an offset, which must be less than a day. -/
def parseOffset (l : List Char) : Option ℤ := do
  let (hour, minute, second, us) ← parseHms l
  let offset := ((hour * 60 + minute) * 60 + second) * 1000000 + us
  if offset < dayMicros then some offset else none

/-- The characters that end the time of day. -/
def isZone (c : Char) : Bool := c == '+' || c == '-' || c == 'Z'

/-- The zone after a time of day, from its sign or `Z` on. -/
def parseZone : List Char → Option (Option ℤ)
  | [] => some none
  | c :: zone =>
    if c = 'Z' then if zone.isEmpty then some (some 0) else none
    else (parseOffset zone).map fun offset => some (if c = '-' then -offset else offset)

/-- `_parse_isoformat_time`. -/
def parseTime (l : List Char) : Option ((ℕ × ℕ × ℕ × ℕ) × Option ℤ) := do
  let hms ← parseHms (l.takeWhile (!isZone ·))
  let offset ← parseZone (l.dropWhile (!isZone ·))
  some (hms, offset)

/-- `datetime.date`'s constructor. -/
def Date.mk? (year month day : ℕ) : Option Date :=
  if h : (1 ≤ year ∧ year ≤ 9999) ∧ (1 ≤ month ∧ month ≤ 12) ∧
      1 ≤ day ∧ day ≤ daysInMonth (isLeap year) month then
    some ⟨year, month, day, h⟩
  else none

theorem Date.of_mk? {year month day : ℕ} {d : Date} (h : Date.mk? year month day = some d) :
    d.year = year ∧ d.month = month ∧ d.day = day := by
  unfold Date.mk? at h
  split at h
  · cases h
    exact ⟨rfl, rfl, rfl⟩
  · cases h

/-- `datetime.time`'s constructor. -/
def Time.mk? (hour minute second microsecond : ℕ) : Option Time :=
  if h : hour < 24 ∧ minute < 60 ∧ second < 60 ∧ microsecond < 1000000 then
    some ⟨hour, minute, second, microsecond, h⟩
  else none

/-- The time of day after the separator; it may be missing. -/
def parseRest (l : List Char) : Option ((ℕ × ℕ × ℕ × ℕ) × Option ℤ) :=
  if l.isEmpty then some ((0, 0, 0, 0), none) else parseTime l

/-- `datetime.fromisoformat`. -/
def fromisoformat (s : String) : Option Stamp :=
  if s.toList.length < 7 then none
  else do
    let i ← findSeparator s.toList
    let (year, month, day) ← parseDate (s.toList.take i)
    let ((hour, minute, second, us), offset) ← parseRest (s.toList.drop (i + 1))
    let date ← Date.mk? year month day
    let time ← Time.mk? hour minute second us
    some ⟨⟨date, time⟩, offset⟩

example : (fromisoformat "2026-03-01T06:30:00+02:00").map (·.instant) =
    (fromisoformat "20260301 043000Z").map (·.instant) := by decide

example : (fromisoformat "2026-W09-7T06").map (·.time) =
    (fromisoformat "2026-03-01T06:00:00,0").map (·.time) := by decide

/-! ### The round trip -/

theorem Date.mk?_self (d : Date) : Date.mk? d.year d.month d.day = some d := by
  rw [Date.mk?, dif_pos d.valid]

theorem Time.mk?_self (t : Time) : Time.mk? t.hour t.minute t.second t.microsecond = some t := by
  rw [Time.mk?, dif_pos t.valid]

@[simp] theorem length_dateText (d : Date) : d.text.length = 10 := by
  simp [Date.text]

theorem skipSep_cons {c : Char} (l : List Char) : skipSep true c (c :: l) = some l := by
  simp [skipSep]

/-- A digit is none of the letters and signs the formats use. -/
theorem digitChar_ne {c : Char} (hc : c.isDigit = false) (n : ℕ) : Nat.digitChar (n % 10) ≠ c := by
  intro h
  rw [← h, isDigit_digitChar (Nat.mod_lt _ (by omega))] at hc
  cases hc

theorem head?_pad_two {c : Char} (hc : c.isDigit = false) (n : ℕ) (l : List Char) :
    ((pad 2 n ++ l).head? == some c) = false := by
  have h : Nat.digitChar (n / 10 % 10) ≠ c := digitChar_ne hc _
  simp [pad, h]

theorem findSeparator_dateText (d : Date) (c : Char) (l : List Char) :
    findSeparator (d.text ++ c :: l) = some 10 := by
  have h7 : (d.text ++ c :: l).length ≠ 7 := by
    rw [List.length_append, length_dateText]
    omega
  have h4 : (d.text ++ c :: l)[4]? = some '-' := rfl
  have h5 : (d.text ++ c :: l)[5]? ≠ some 'W' := by
    intro h
    exact digitChar_ne rfl (d.month / 10) (Option.some.inj h)
  rw [findSeparator, if_neg h7, if_pos h4, if_neg h5]

theorem Date.day_le (d : Date) : d.day ≤ 31 := by
  have hd := d.valid.2.2.2
  have hall : ∀ leap m, daysInMonth leap m ≤ 31 := by
    intro leap m
    unfold daysInMonth
    split
    · split <;> omega
    · omega
    · omega
    · omega
    · omega
    · omega
  exact hd.trans (hall _ _)

theorem parseDate_dateText (d : Date) : parseDate d.text = some (d.year, d.month, d.day) := by
  obtain ⟨hy, hm, -⟩ := d.valid
  have hd := d.day_le
  have hday : digits 2 (pad 2 d.day) = some (d.day, []) := by
    have h := digits_pad (w := 2) (n := d.day) (by omega) []
    rwa [List.append_nil] at h
  have hW : ∀ n l, ((pad 2 n ++ l).head? == some 'W') = false := fun n l => head?_pad_two rfl n l
  rw [Date.text, parseDate, digits_pad (by omega)]
  simp only [Option.bind_eq_bind, Option.bind_some, List.head?_cons, List.tail_cons,
    beq_self_eq_true, if_true, hW, Bool.false_eq_true, if_false]
  rw [digits_pad (by omega)]
  simp only [Option.bind_some, skipSep_cons, hday, List.isEmpty_nil, if_true]

/-- The characters of the time of day end no time. -/
theorem isZone_timeText (t : Time) : ∀ c ∈ t.text, isZone c = false := by
  have hdig : ∀ w n, ∀ c ∈ pad w n, isZone c = false := by
    intro w n c hc
    have hd : c.isDigit = true := List.all_eq_true.mp (isDigit_pad w n) c hc
    simp only [isZone, Bool.or_eq_false_iff, beq_eq_false_iff_ne]
    refine ⟨⟨?_, ?_⟩, ?_⟩ <;> (rintro rfl; cases hd)
  intro c hc
  simp only [Time.text, fractionText, List.mem_append, List.mem_cons] at hc
  rcases hc with hc | rfl | hc | rfl | hc | hc
  · exact hdig _ _ c hc
  · rfl
  · exact hdig _ _ c hc
  · rfl
  · exact hdig _ _ c hc
  · split at hc
    · cases hc
    · rcases List.mem_cons.mp hc with rfl | hc
      · rfl
      · exact hdig _ _ c hc

theorem parseFraction_fractionText {us : ℕ} (h : us < 1000000) :
    parseFraction (fractionText us) = some us := by
  unfold fractionText
  split
  · next h0 => rw [h0]; rfl
  · have ht : (pad 6 us).take 6 = pad 6 us := List.take_of_length_le (length_pad 6 us).le
    have hne : pad 6 us ≠ [] := List.ne_nil_of_length_pos (by rw [length_pad]; omega)
    rw [parseFraction, if_pos ⟨.inl rfl, hne, isDigit_pad 6 us⟩, ht, value_pad h, length_pad,
      Nat.sub_self, Nat.pow_zero, Nat.mul_one]

theorem parseHms_timeText (t : Time) :
    parseHms t.text = some (t.hour, t.minute, t.second, t.microsecond) := by
  obtain ⟨hh, hm, hs, hus⟩ := t.valid
  rw [Time.text, parseHms, digits_pad (by omega)]
  simp only [Option.bind_eq_bind, Option.bind_some, List.isEmpty_cons, Bool.false_eq_true,
    if_false, List.head?_cons, beq_self_eq_true, skipSep_cons]
  rw [digits_pad (by omega)]
  simp only [Option.bind_some, List.isEmpty_cons, Bool.false_eq_true, if_false, skipSep_cons]
  rw [digits_pad (by omega)]
  simp only [Option.bind_some, parseFraction_fractionText hus]

theorem parseTime_timeText (t : Time) :
    parseTime (t.text ++ utcText) = some ((t.hour, t.minute, t.second, t.microsecond), some 0) := by
  have hz : ∀ c ∈ t.text, (!isZone c) = true := by
    intro c hc
    rw [isZone_timeText t c hc]
    rfl
  have htw : (t.text ++ utcText).takeWhile (!isZone ·) = t.text := by
    rw [List.takeWhile_append_of_pos hz]
    exact List.append_nil _
  have hdw : (t.text ++ utcText).dropWhile (!isZone ·) = utcText :=
    List.dropWhile_append_of_pos hz
  have hzone : parseZone utcText = some (some 0) := by decide
  rw [parseTime, htw, hdw, parseHms_timeText, hzone]
  rfl

/-- **A UTC time reads back.** -/
theorem fromisoformat_isoformat (t : DateTime) : fromisoformat t.isoformat = some ⟨t, some 0⟩ := by
  have htake : (t.date.text ++ 'T' :: (t.time.text ++ utcText)).take 10 = t.date.text :=
    List.take_left' (length_dateText _)
  have hdrop : (t.date.text ++ 'T' :: (t.time.text ++ utcText)).drop (10 + 1) =
      t.time.text ++ utcText := by
    rw [List.drop_append]
    simp
  have hne : (t.time.text ++ utcText).isEmpty = false := by
    cases t.time.text <;> rfl
  have hrest : parseRest (t.time.text ++ utcText) =
      some ((t.time.hour, t.time.minute, t.time.second, t.time.microsecond), some 0) := by
    rw [parseRest, hne, parseTime_timeText]
    rfl
  have hlen : ¬(t.date.text ++ 'T' :: (t.time.text ++ utcText)).length < 7 := by
    rw [List.length_append, length_dateText]
    omega
  rw [fromisoformat, DateTime.isoformat, String.toList_ofList, if_neg hlen, findSeparator_dateText,
    Option.bind_eq_bind, Option.bind_some, htake, hdrop, parseDate_dateText, hrest]
  simp only [Option.bind_eq_bind, Option.bind_some, Date.mk?_self, Time.mk?_self]

/-! ### The order of texts -/

/-- A zero-padded number decides the order, then what follows the separator. -/
theorem pad_append_lt {w n n' : ℕ} (hn : n < 10 ^ w) (hn' : n' < 10 ^ w) (c : Char)
    (r r' : List Char) :
    pad w n ++ c :: r < pad w n' ++ c :: r' ↔ n < n' ∨ n = n' ∧ r < r' := by
  rw [append_lt_append (by simp), pad_lt_pad hn hn', pad_inj hn hn', List.cons_lt_cons_iff]
  simp

theorem dateText_lt {d d' : Date} : d.text < d'.text ↔ d.Before d' := by
  have hd := d.day_le
  have hd' := d'.day_le
  obtain ⟨hy, hm, -⟩ := d.valid
  obtain ⟨hy', hm', -⟩ := d'.valid
  unfold Date.text Date.Before
  rw [pad_append_lt (by omega) (by omega), pad_append_lt (by omega) (by omega),
    pad_lt_pad (by omega) (by omega)]

theorem dateText_inj {d d' : Date} (h : d.text = d'.text) : d = d' := by
  rcases Date.before_trichotomy d d' with hb | he | hb
  · rw [← dateText_lt, h] at hb
    exact absurd hb (List.lt_irrefl _)
  · exact he
  · rw [← dateText_lt, h] at hb
    exact absurd hb (List.lt_irrefl _)

/-- A time without a fraction comes before the others of its second: `+` is less than `.`. -/
theorem fractionText_lt {us us' : ℕ} (h : us < 1000000) (h' : us' < 1000000) :
    fractionText us ++ utcText < fractionText us' ++ utcText ↔ us < us' := by
  have hutc : utcText = '+' :: "00:00".toList := rfl
  have hlt : '+' < '.' := by decide
  have hnlt : ¬ '.' < '+' := by decide
  have hne : '+' ≠ '.' := by decide
  unfold fractionText
  by_cases h0 : us = 0
  · by_cases h0' : us' = 0
    · simp [h0, h0']
    · rw [if_pos h0, if_neg h0', hutc, List.nil_append, List.cons_append, List.cons_lt_cons_iff]
      simp only [hlt, true_or, true_iff]
      omega
  · by_cases h0' : us' = 0
    · rw [if_neg h0, if_pos h0', hutc, List.nil_append, List.cons_append, List.cons_lt_cons_iff]
      simp only [hnlt, hne.symm, false_and, or_self, false_iff]
      omega
    · rw [if_neg h0, if_neg h0', List.cons_append, List.cons_append, List.cons_lt_cons_iff,
        append_lt_append (by simp), pad_lt_pad h h']
      simp

theorem timeText_lt {t t' : Time} : t.text ++ utcText < t'.text ++ utcText ↔ t.Before t' := by
  obtain ⟨hh, hm, hs, hus⟩ := t.valid
  obtain ⟨hh', hm', hs', hus'⟩ := t'.valid
  unfold Time.text Time.Before
  simp only [List.append_assoc, List.cons_append]
  rw [pad_append_lt (by omega) (by omega), pad_append_lt (by omega) (by omega),
    append_lt_append (by simp), pad_lt_pad (by omega) (by omega), pad_inj (by omega) (by omega),
    fractionText_lt hus hus']

/-- **The texts of UTC times compare as their instants.** -/
theorem isoformat_lt_iff {t t' : DateTime} : t.isoformat < t'.isoformat ↔ t.micros < t'.micros := by
  have hdate : t.date.text = t'.date.text ↔ t.date = t'.date :=
    ⟨dateText_inj, fun h => by rw [h]⟩
  unfold DateTime.isoformat
  rw [String.lt_iff, String.toList_ofList, String.toList_ofList, append_lt_append (by simp),
    List.cons_lt_cons_iff, timeText_lt, dateText_lt, hdate, DateTime.micros_lt_iff]
  simp

theorem isoformat_le_iff {t t' : DateTime} : t.isoformat ≤ t'.isoformat ↔ t.micros ≤ t'.micros := by
  rw [← Nat.not_lt, ← isoformat_lt_iff, String.not_lt]

end Python
