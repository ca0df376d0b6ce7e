/-
# Python `datetime`

An instant as Python's `datetime` holds it: a wall-clock reading between year 1 and year 9999
with microsecond resolution, either naive or in UTC.  Other offsets occur only inside
`fromisoformat`, on the way to `astimezone(UTC)`.

A reading is carried as the number of microseconds since `0001-01-01T00:00:00`
(`Datetime.micros`), with the proof that the year is at most 9999.

* `ord2ymd` and `ymd2ord` follow the standard library's proleptic Gregorian arithmetic;
  `ymd2ord_ord2ymd` is the one fact about the calendar the development needs.
* `fromisoformat?` is the ISO-8601 reader of Python 3.11: calendar and week dates, basic and
  extended forms, optional fraction and offset.
* `fromisoformat?_isoText`: reading a reading written to the millisecond floors it there.

The calendar is Python's own and goes back to year 1; nothing is said about any other.  Leap
seconds do not exist here, as they do not in `datetime`: a reading with a sixtieth second is
refused.
-/
import WitsmlViewer.Py.Float64

namespace Py

/-! ## 1. The calendar

Day numbers are counted from zero on the first of January of year 1.  The one direction, from a
date to its number, is a formula; the other estimates the year by the cycles of four hundred, a
hundred, four years and one, and has to correct itself on the last day of a cycle. -/

/-- Days before January 1st of a year. -/
def daysBeforeYear (year : ℕ) : ℕ :=
  (year - 1) * 365 + (year - 1) / 4 - (year - 1) / 100 + (year - 1) / 400

/-- A leap year of the Gregorian calendar. -/
def isLeap (year : ℕ) : Bool := year % 4 == 0 && (year % 100 != 0 || year % 400 == 0)

/-- Days before the first of a month, in a common year. -/
def daysBeforeMonth : ℕ → ℕ
  | 1 => 0 | 2 => 31 | 3 => 59 | 4 => 90 | 5 => 120 | 6 => 151
  | 7 => 181 | 8 => 212 | 9 => 243 | 10 => 273 | 11 => 304 | 12 => 334 | _ => 365

/-- The length of a month. -/
def daysInMonth (leap : Bool) (month : ℕ) : ℕ :=
  daysBeforeMonth (month + 1) - daysBeforeMonth month + (if month = 2 ∧ leap then 1 else 0)

/-- Days between January 1st and the given day. -/
def dayOfYear (leap : Bool) (month day : ℕ) : ℕ :=
  daysBeforeMonth month + (if 2 < month ∧ leap then 1 else 0) + (day - 1)

/-- A date's day number, counted from 0 on `0001-01-01`; the fields must be in range. -/
def ymd2ord (year month day : ℕ) : Option ℕ :=
  if 1 ≤ year ∧ year ≤ 9999 ∧ 1 ≤ month ∧ month ≤ 12 ∧ 1 ≤ day ∧
      day ≤ daysInMonth (isLeap year) month then
    some (daysBeforeYear year + dayOfYear (isLeap year) month day)
  else none

/-- The number of days of the years 1 to 9999. -/
def maxDays : ℕ := 3652059

/-- The year of a day number, and the days since its January 1st. -/
def yearOfDay (n : ℕ) : ℕ × ℕ :=
  let n400 := n / 146097
  let r400 := n % 146097
  let n100 := r400 / 36524
  let r100 := r400 % 36524
  let n4 := r100 / 1461
  let r4 := r100 % 1461
  let n1 := r4 / 365
  -- the last day of a leap cycle overshoots into a fifth year
  if n1 = 4 ∨ n100 = 4 then (n400 * 400 + n100 * 100 + n4 * 4 + n1, 365)
  else (n400 * 400 + n100 * 100 + n4 * 4 + n1 + 1, r4 % 365)

/-- Month and day of a day of the year: the estimate `(n + 50) >> 5` is exact or one too
large. -/
def monthOfDay (leap : Bool) (n : ℕ) : ℕ × ℕ :=
  let month := (n + 50) / 32
  let preceding (m : ℕ) := daysBeforeMonth m + (if 2 < m ∧ leap then 1 else 0)
  if n < preceding month then (month - 1, n - preceding (month - 1) + 1)
  else (month, n - preceding month + 1)

/-- Year, month and day of a day number. -/
def ord2ymd (n : ℕ) : ℕ × ℕ × ℕ :=
  let (year, n) := yearOfDay n
  let (month, day) := monthOfDay (isLeap year) n
  (year, month, day)

theorem yearOfDay_fst_pos (n : ℕ) : 1 ≤ (yearOfDay n).1 := by
  simp only [yearOfDay]
  split <;> simp only <;> omega

/-- Years end with 9999, for the days that there are. -/
theorem yearOfDay_fst_le {n : ℕ} (h : n < maxDays) : (yearOfDay n).1 ≤ 9999 := by
  simp only [yearOfDay, maxDays] at *
  split <;> simp only <;> omega

/-- The year `400 a + 100 b + 4 c + d + 1`: where it starts, and whether it is leap. -/
theorem year_of_cycle {a b c d : ℕ} (hb : b ≤ 3) (hc : c ≤ 24) (hd : d ≤ 3) :
    daysBeforeYear (400 * a + 100 * b + 4 * c + d + 1) =
        146097 * a + 36524 * b + 1461 * c + 365 * d ∧
      (isLeap (400 * a + 100 * b + 4 * c + d + 1) = true ↔ d = 3 ∧ (c ≠ 24 ∨ b = 3)) := by
  have h4 : (400 * a + 100 * b + 4 * c + d) / 4 = 100 * a + 25 * b + c := by omega
  have h100 : (400 * a + 100 * b + 4 * c + d) / 100 = 4 * a + b := by omega
  have h400 : (400 * a + 100 * b + 4 * c + d) / 400 = a := by omega
  constructor
  · rw [daysBeforeYear, Nat.add_sub_cancel, h4, h100, h400]
    omega
  · simp only [isLeap, Bool.and_eq_true, Bool.or_eq_true, bne_iff_ne, beq_iff_eq, ne_eq]
    omega

/-- The year's start plus the days since it is the day number; the year is long enough.

The two corrections are for the last day of four hundred years and of four, on which the number of
whole centuries, or years, comes out as four. -/
theorem yearOfDay_spec (n : ℕ) :
    daysBeforeYear (yearOfDay n).1 + (yearOfDay n).2 = n ∧
      (yearOfDay n).2 < 365 + (if isLeap (yearOfDay n).1 then 1 else 0) := by
  obtain ⟨a, b, c, d, r, hn, hb, hc, hd, hr, h1, h2, h3, h4, h5⟩ :
      ∃ a b c d r, n = 146097 * a + 36524 * b + 1461 * c + 365 * d + r ∧ b ≤ 4 ∧ c ≤ 24 ∧
        d ≤ 4 ∧ r < 365 ∧ n / 146097 = a ∧ n % 146097 / 36524 = b ∧
        n % 146097 % 36524 / 1461 = c ∧ n % 146097 % 36524 % 1461 / 365 = d ∧
        n % 146097 % 36524 % 1461 % 365 = r :=
    ⟨_, _, _, _, _, by omega, by omega, by omega, by omega, by omega, rfl, rfl, rfl, rfl, rfl⟩
  simp only [yearOfDay, h1, h2, h3, h4, h5]
  split
  · rename_i hover
    -- the 366th day of the last year of a four-year or four-hundred-year cycle
    rcases hover with rfl | rfl
    · have hb3 : b ≤ 3 ∧ (c ≠ 24 ∨ b = 3) ∧ r = 0 := by omega
      obtain ⟨hs, hl⟩ := year_of_cycle (a := a) hb3.1 hc (d := 3) (by omega)
      rw [show a * 400 + b * 100 + c * 4 + 4 = 400 * a + 100 * b + 4 * c + 3 + 1 by omega]
      rw [hs, if_pos (hl.mpr ⟨rfl, hb3.2.1⟩)]
      omega
    · have hz : c = 0 ∧ d = 0 ∧ r = 0 := by omega
      obtain ⟨hs, hl⟩ := year_of_cycle (a := a) (b := 3) (c := 24) (d := 3) (by omega) (by omega)
        (by omega)
      rw [show a * 400 + 4 * 100 + c * 4 + d = 400 * a + 100 * 3 + 4 * 24 + 3 + 1 by omega]
      rw [hs, if_pos (hl.mpr ⟨rfl, Or.inr rfl⟩)]
      omega
  · rename_i hover
    obtain ⟨hs, -⟩ := year_of_cycle (a := a) (b := b) (c := c) (d := d) (by omega) hc (by omega)
    rw [show a * 400 + b * 100 + c * 4 + d + 1 = 400 * a + 100 * b + 4 * c + d + 1 by omega]
    rw [hs]
    omega

/-- Month and day are in range and lead back to the day of the year.  This one is a check of two
years, a common one and a leap one. -/
theorem monthOfDay_spec : ∀ leap : Bool, ∀ n < 366, n < 365 + (if leap then 1 else 0) →
    1 ≤ (monthOfDay leap n).1 ∧ (monthOfDay leap n).1 ≤ 12 ∧ 1 ≤ (monthOfDay leap n).2 ∧
      (monthOfDay leap n).2 ≤ daysInMonth leap (monthOfDay leap n).1 ∧
      dayOfYear leap (monthOfDay leap n).1 (monthOfDay leap n).2 = n := by
  decide +kernel

/-- **A day number survives the trip through year, month and day.**

Only this direction is proved.  It is the one that matters for what is written and read back; that
every date has its own number is not used. -/
theorem ymd2ord_ord2ymd {n : ℕ} (h : n < maxDays) :
    ymd2ord (ord2ymd n).1 (ord2ymd n).2.1 (ord2ymd n).2.2 = some n := by
  obtain ⟨hsum, hlt⟩ := yearOfDay_spec n
  have hn : (yearOfDay n).2 < 366 := by split at hlt <;> omega
  obtain ⟨hm1, hm2, hd1, hd2, hday⟩ := monthOfDay_spec (isLeap (yearOfDay n).1) _ hn hlt
  have hy1 := yearOfDay_fst_pos n
  have hy2 := yearOfDay_fst_le h
  simp only [ord2ymd, ymd2ord, hy1, hy2, hm1, hm2, hd1, hd2, and_self, if_true, hday, hsum]

/-! ## 2. The type

Equality of readings is equality of the wall clock and of the flag, as in the structure.  Python
compares aware readings by their instants, which in UTC comes to the same. -/

/-- Microseconds in a day. -/
def dayMicros : ℕ := 86400000000

/-- Microseconds in the years 1 to 9999. -/
def maxMicros : ℕ := maxDays * dayMicros

theorem maxMicros_pos : 0 < maxMicros := by decide

/-- A Python `datetime`, naive or in UTC. -/
structure Datetime where
  micros : ℕ
  inRange : micros < maxMicros
  aware : Bool
deriving DecidableEq

namespace Datetime

/-- `dt.replace(tzinfo=UTC)`. -/
def replaceUtc (dt : Datetime) : Datetime := { dt with aware := true }

/-- `dt.microsecond // 1000`. -/
def millisecond (dt : Datetime) : ℕ := dt.micros % 1000000 / 1000

/-- The reading with everything below the millisecond dropped. -/
def floorMillis (dt : Datetime) : Datetime :=
  ⟨dt.micros / 1000 * 1000, lt_of_le_of_lt (Nat.div_mul_le_self _ _) dt.inRange, dt.aware⟩

@[simp] theorem replaceUtc_micros (dt : Datetime) : dt.replaceUtc.micros = dt.micros := rfl

@[simp] theorem replaceUtc_aware (dt : Datetime) : dt.replaceUtc.aware = true := rfl

@[simp] theorem floorMillis_micros (dt : Datetime) :
    dt.floorMillis.micros = dt.micros / 1000 * 1000 := rfl

@[simp] theorem floorMillis_aware (dt : Datetime) : dt.floorMillis.aware = dt.aware := rfl

theorem replaceUtc_of_aware {dt : Datetime} (h : dt.aware = true) : dt.replaceUtc = dt := by
  cases dt
  simp only at h
  subst h
  rfl

/-- Readings are the same if the clock and the flag are. -/
theorem ext_micros {a b : Datetime} (hm : a.micros = b.micros) (ha : a.aware = b.aware) :
    a = b := by
  cases a; cases b
  simp only at hm ha
  subst hm ha
  rfl

end Datetime

/-! ## 3. Writing

Every field is padded with zeros, the year too. -/

/-- The last `k` decimal digits of `n`, zero-padded. -/
def pad : ℕ → ℕ → Str
  | 0, _ => []
  | k + 1, n => pad k (n / 10) ++ [Nat.digitChar (n % 10)]

/-- `dt.strftime("%Y-%m-%dT%H:%M:%S")`. -/
def strftimeSeconds (dt : Datetime) : Str :=
  let (year, month, day) := ord2ymd (dt.micros / dayMicros)
  let secs := dt.micros % dayMicros / 1000000
  pad 4 year ++ '-' :: pad 2 month ++ '-' :: pad 2 day ++ 'T' :: pad 2 (secs / 3600) ++
    ':' :: pad 2 (secs / 60 % 60) ++ ':' :: pad 2 (secs % 60)

/-! ## 4. Reading

The reader is that of the standard library, positions and all: it finds the end of the date before
it has read it, and splits the time at the sign of the offset.  Its quirks are kept, because an
index of a log may be any text that it accepts. -/

/-- A run of ASCII digits. -/
def number? (ds : Str) : Option ℕ :=
  if ds.all Char.isDigit then some (Nat.ofDigitChars 10 ds 0) else none

/-- The day number of `day` in ISO week `week` of `year`. -/
def isoWeekDay? (year week day : ℕ) : Option ℕ :=
  if 1 ≤ year ∧ year ≤ 9999 then
    let firstday := daysBeforeYear year + 1
    let long := firstday % 7 == 4 || (firstday % 7 == 3 && isLeap year)
    if 0 < week ∧ (week < 53 ∨ (week = 53 ∧ long)) ∧ 0 < day ∧ day < 8 then
      let firstweekday := (firstday + 6) % 7
      let monday := firstday - firstweekday + (if 3 < firstweekday then 7 else 0)
      let n := monday + (week - 1) * 7 + (day - 1) - 1
      if n < maxDays then some n else none
    else none
  else none

/-- `YYYY-MM-DD`, `YYYYMMDD`, `YYYY-Www[-D]` or `YYYYWww[D]`, as a day number. -/
def isoDate? (s : Str) : Option ℕ := do
  let year ← number? (s.take 4)
  match s.drop 4 with
  | ['-', 'W', w1, w2] => isoWeekDay? year (← number? [w1, w2]) 1
  | ['-', 'W', w1, w2, '-', d] => isoWeekDay? year (← number? [w1, w2]) (← number? [d])
  | ['W', w1, w2] => isoWeekDay? year (← number? [w1, w2]) 1
  | ['W', w1, w2, d] => isoWeekDay? year (← number? [w1, w2]) (← number? [d])
  | ['-', m1, m2, '-', d1, d2] => ymd2ord year (← number? [m1, m2]) (← number? [d1, d2])
  | [m1, m2, d1, d2] => ymd2ord year (← number? [m1, m2]) (← number? [d1, d2])
  | _ => none

/-- Where the date ends, told from the characters at positions 4, 5, 8 and 10. -/
def separatorAt (s : Str) : ℕ :=
  if s.length = 7 then 7
  else if s[4]? = some '-' then
    if s[5]? = some 'W' then
      if s[8]? = some '-' then (if (s[10]?.any Char.isDigit) then 8 else 10) else 8
    else 10
  else if s[4]? = some 'W' then
    let stop := 7 + ((s.drop 7).takeWhile Char.isDigit).length
    if stop < 9 then stop else if stop % 2 = 0 then 7 else 8
  else 8

/-- Digits of a fraction: microseconds, and whether nothing but digits followed. -/
def fraction? (s : Str) : Option (ℕ × Bool) := do
  let micro ← number? (s.take 6)
  some (micro * 10 ^ (6 - s.length), (s.drop 6).all Char.isDigit)

/-- Up to `k` two-digit fields, with or without colons (the first field's neighbour decides),
then a fraction.  The last component says whether the text was used up. -/
def clockFields? : ℕ → Option Bool → Str → Option (List ℕ × ℕ × Bool)
  | 0, _, s => (fraction? s).map ([], ·)
  | k + 1, sep, a :: b :: rest => do
    let field ← number? [a, b]
    let colons := sep.getD (rest.head? == some ':')
    match rest with
    | [] => some ([field], 0, true)
    | [_] => some ([field], 0, false)
    | c :: rest =>
      if colons && c == ':' then
        let (fields, tail) ← clockFields? k (some colons) rest
        some (field :: fields, tail)
      else if c == '.' || c == ',' then (fraction? rest).map ([field], ·)
      else if colons then none
      else
        let (fields, tail) ← clockFields? k (some colons) (c :: rest)
        some (field :: fields, tail)
  | _ + 1, _, _ => none

/-- The fields of a clock reading, as written. -/
structure Clock where
  hour : ℕ
  minute : ℕ
  second : ℕ
  micro : ℕ

def Clock.micros (c : Clock) : ℕ :=
  ((c.hour * 60 + c.minute) * 60 + c.second) * 1000000 + c.micro

/-- `HH[[:]MM[[:]SS[.ffffff]]]`; the flag as in `clockFields?`. -/
def clock? (s : Str) : Option (Clock × Bool) := do
  let (fields, micro, whole) ← clockFields? 3 none s
  some (⟨fields.getD 0 0, fields.getD 1 0, fields.getD 2 0, micro⟩, whole)

def isZoneMark (c : Char) : Bool := c == '+' || c == '-' || c == 'Z'

/-- A UTC offset in microseconds; less than a day either way. -/
def zone? : Str → Option (Option ℤ)
  | [] => some none
  | ['Z'] => some (some 0)
  | 'Z' :: _ => none
  | sign :: s => do
    let (clock, whole) ← clock? s
    if whole && clock.micros < dayMicros then
      some (some (if sign = '-' then -(clock.micros : ℤ) else clock.micros))
    else none

/-- A time of day and its UTC offset, in microseconds.  In front of an offset the reader does
not mind text it could not use. -/
def isoTime? (s : Str) : Option (ℕ × Option ℤ) := do
  let (time, whole) ← clock? (s.takeWhile (!isZoneMark ·))
  let zone ← zone? (s.dropWhile (!isZoneMark ·))
  if (whole || zone.isSome) && time.hour < 24 && time.minute < 60 && time.second < 60 then
    some (time.micros, zone)
  else none

/-- `datetime.fromisoformat(s)`: the wall-clock reading and the UTC offset if there is one;
`none` is its `ValueError`. -/
def fromisoformat? (s : Str) : Option (ℕ × Option ℤ) :=
  if s.length < 7 then none
  else do
    let day ← isoDate? (s.take (separatorAt s))
    if s.length = separatorAt s then some (day * dayMicros, none)
    else
      let (time, zone) ← isoTime? (s.drop (separatorAt s + 1))
      some (day * dayMicros + time, zone)

/-! ## 5. What is written to the millisecond is read back

The written text is one of the plainest that are accepted, and each part of the reader is shown to
do on it what it should: find the end of the date, read the date, read the clock, read the offset.
-/

theorem digit_isDigit {n : ℕ} (h : n < 10) : (Nat.digitChar n).isDigit = true := by
  revert n
  decide

theorem digit_toNat {n : ℕ} (h : n < 10) : (Nat.digitChar n).toNat - '0'.toNat = n := by
  revert n
  decide

theorem pad_isDigit : ∀ (k n : ℕ), ∀ c ∈ pad k n, c.isDigit = true
  | 0, _, _, hc => by simp [pad] at hc
  | k + 1, n, c, hc => by
    rcases List.mem_append.mp hc with hc | hc
    · exact pad_isDigit k (n / 10) c hc
    · rw [List.mem_singleton.mp hc]
      exact digit_isDigit (Nat.mod_lt _ (by decide))

@[simp] theorem pad_length : ∀ k n : ℕ, (pad k n).length = k
  | 0, _ => rfl
  | k + 1, n => by simp [pad, pad_length k]

/-- Padded digits are read as the number, if it has no more than so many. -/
theorem ofDigitChars_pad : ∀ {k n : ℕ}, n < 10 ^ k → Nat.ofDigitChars 10 (pad k n) 0 = n
  | 0, n, h => by
    have : n = 0 := by simpa using h
    simp [pad, this]
  | k + 1, n, h => by
    have hdiv : n / 10 < 10 ^ k := by
      rw [Nat.div_lt_iff_lt_mul (by decide)]
      simpa [Nat.pow_succ] using h
    rw [pad, Nat.ofDigitChars_append, ofDigitChars_pad hdiv, Nat.ofDigitChars_cons,
      digit_toNat (Nat.mod_lt _ (by decide)), Nat.ofDigitChars_nil]
    omega

theorem number?_pad {k n : ℕ} (h : n < 10 ^ k) : number? (pad k n) = some n := by
  have hall : (pad k n).all Char.isDigit = true := List.all_eq_true.mpr (pad_isDigit k n)
  rw [number?, if_pos hall, ofDigitChars_pad h]

/-- Two digits, written out: the form in which the clock takes them. -/
theorem pad_two (n : ℕ) :
    pad 2 n = [Nat.digitChar (n / 10 % 10), Nat.digitChar (n % 10)] := rfl

theorem digit_ne {n : ℕ} {c : Char} (hc : c.isDigit = false) : Nat.digitChar (n % 10) ≠ c := by
  rintro rfl
  exact absurd (digit_isDigit (Nat.mod_lt n (by decide))) (by simp [hc])

/-- A calendar date in its extended form. -/
theorem isoDate?_extended {year month day n : ℕ} (hy : year < 10 ^ 4) (hm : month < 10 ^ 2)
    (hd : day < 10 ^ 2) (h : ymd2ord year month day = some n) :
    isoDate? (pad 4 year ++ '-' :: pad 2 month ++ '-' :: pad 2 day) = some n := by
  have htake : (pad 4 year ++ '-' :: pad 2 month ++ '-' :: pad 2 day).take 4 = pad 4 year := by
    simp [List.take_left']
  have hdrop : (pad 4 year ++ '-' :: pad 2 month ++ '-' :: pad 2 day).drop 4 =
      '-' :: pad 2 month ++ '-' :: pad 2 day := by
    simp [List.drop_left']
  have hw : Nat.digitChar (month / 10 % 10) ≠ 'W' := digit_ne (by decide)
  have hmonth := number?_pad hm
  have hday := number?_pad hd
  rw [pad_two] at hmonth hday
  unfold isoDate?
  rw [htake, hdrop, number?_pad hy]
  simp [pad_two, hw, hmonth, hday, h]

/-- A clock reading with seconds and milliseconds. -/
theorem clock?_millis (hour minute second milli : ℕ) (hh : hour < 10 ^ 2) (hm : minute < 10 ^ 2)
    (hs : second < 10 ^ 2) (hf : milli < 10 ^ 3) :
    clock? (pad 2 hour ++ ':' :: pad 2 minute ++ ':' :: pad 2 second ++ '.' :: pad 3 milli) =
      some (⟨hour, minute, second, milli * 1000⟩, true) := by
  have hhour := number?_pad hh
  have hminute := number?_pad hm
  have hsecond := number?_pad hs
  rw [pad_two] at hhour hminute hsecond
  have hfrac : fraction? (pad 3 milli) = some (milli * 1000, true) := by
    have htake : (pad 3 milli).take 6 = pad 3 milli := List.take_of_length_le (by simp)
    have hdrop : (pad 3 milli).drop 6 = [] := List.drop_of_length_le (by simp)
    simp [fraction?, htake, hdrop, number?_pad hf]
  have hcons : ∃ c d ds, pad 3 milli = c :: d :: ds := ⟨_, _, _, rfl⟩
  obtain ⟨c, d, ds, hp⟩ := hcons
  rw [hp] at hfrac ⊢
  simp [pad_two, clock?, clockFields?, hhour, hminute, hsecond, hfrac]

/-- A UTC time of day. -/
theorem isoTime?_utc (hour minute second milli : ℕ) (hh : hour < 24) (hm : minute < 60)
    (hs : second < 60) (hf : milli < 1000) :
    isoTime? (pad 2 hour ++ ':' :: pad 2 minute ++ ':' :: pad 2 second ++ '.' :: pad 3 milli ++
      "+00:00".toList) =
      some (((hour * 60 + minute) * 60 + second) * 1000000 + milli * 1000, some 0) := by
  have hclock := clock?_millis hour minute second milli (by omega) (by omega) (by omega) (by omega)
  have hmark : ∀ c ∈ pad 2 hour ++ ':' :: pad 2 minute ++ ':' :: pad 2 second ++
      '.' :: pad 3 milli, (!isZoneMark c) = true := by
    have hdigit : ∀ k n, ∀ c ∈ pad k n, isZoneMark c = false := by
      intro k n c hc
      have hd := pad_isDigit k n c hc
      have h1 : c ≠ '+' := by rintro rfl; exact absurd hd (by decide)
      have h2 : c ≠ '-' := by rintro rfl; exact absurd hd (by decide)
      have h3 : c ≠ 'Z' := by rintro rfl; exact absurd hd (by decide)
      simp [isZoneMark, h1, h2, h3]
    intro c hc
    simp only [List.mem_append, List.mem_cons] at hc
    rcases hc with ((hc | rfl | hc) | rfl | hc) | rfl | hc
    · simp [hdigit _ _ c hc]
    · decide
    · simp [hdigit _ _ c hc]
    · decide
    · simp [hdigit _ _ c hc]
    · decide
    · simp [hdigit _ _ c hc]
  have htake : (pad 2 hour ++ ':' :: pad 2 minute ++ ':' :: pad 2 second ++ '.' :: pad 3 milli ++
      "+00:00".toList).takeWhile (!isZoneMark ·) =
      pad 2 hour ++ ':' :: pad 2 minute ++ ':' :: pad 2 second ++ '.' :: pad 3 milli := by
    rw [List.takeWhile_append_of_pos hmark]
    exact List.append_nil _
  have hdrop : (pad 2 hour ++ ':' :: pad 2 minute ++ ':' :: pad 2 second ++ '.' :: pad 3 milli ++
      "+00:00".toList).dropWhile (!isZoneMark ·) = "+00:00".toList := by
    rw [List.dropWhile_append_of_pos hmark]
    rfl
  have hzone : zone? "+00:00".toList = some (some 0) := by decide
  rw [isoTime?, htake, hdrop, hclock, hzone]
  simp [hh, hm, hs, Clock.micros]

/-- The text of a UTC reading to the millisecond, as `isoformat` writes the offset. -/
def isoText (dt : Datetime) : Str :=
  strftimeSeconds dt ++ '.' :: pad 3 dt.millisecond ++ "+00:00".toList

/-- The date of an extended text ends at its tenth character. -/
theorem separatorAt_extended {year month day : ℕ} {t : Str} :
    separatorAt ((pad 4 year ++ '-' :: pad 2 month ++ '-' :: pad 2 day) ++ t) = 10 := by
  have hw : Nat.digitChar (month / 10 % 10) ≠ 'W' := digit_ne (by decide)
  have hlen : ((pad 4 year ++ '-' :: pad 2 month ++ '-' :: pad 2 day) ++ t).length ≠ 7 := by
    simp only [List.length_append, List.length_cons, pad_length]
    omega
  have h4 : ((pad 4 year ++ '-' :: pad 2 month ++ '-' :: pad 2 day) ++ t)[4]? = some '-' := rfl
  have h5 : ((pad 4 year ++ '-' :: pad 2 month ++ '-' :: pad 2 day) ++ t)[5]? ≠ some 'W' :=
    fun h => hw (Option.some.inj h)
  rw [separatorAt, if_neg hlen, if_pos h4, if_neg h5]

/-- **Reading a reading written to the millisecond floors it there.**

The date is read back by `ymd2ord_ord2ymd` and the clock from its fields.  What is below the
millisecond was not written, and a reading that has nothing there comes back as it was. -/
theorem fromisoformat?_isoText (dt : Datetime) :
    fromisoformat? (isoText dt) = some (dt.floorMillis.micros, some 0) := by
  have hday : dt.micros / dayMicros < maxDays :=
    Nat.div_lt_of_lt_mul (by rw [Nat.mul_comm]; exact dt.inRange)
  have hord := ymd2ord_ord2ymd hday
  have hfields := hord
  simp only [ymd2ord, Option.ite_none_right_eq_some] at hfields
  obtain ⟨⟨-, hy, -, hm, -, hd⟩, -⟩ := hfields
  have hdm : ∀ leap m, daysInMonth leap m ≤ 99 := by
    intro leap m
    match m with
    | 0 | 1 | 2 | 3 | 4 | 5 | 6 | 7 | 8 | 9 | 10 | 11 | 12 => cases leap <;> decide
    | m + 13 => simp [daysInMonth, daysBeforeMonth]
  have hdate := isoDate?_extended (by omega) (by omega)
    (lt_of_le_of_lt (hd.trans (hdm _ _)) (by decide)) hord
  have htime := isoTime?_utc (dt.micros % dayMicros / 1000000 / 3600)
    (dt.micros % dayMicros / 1000000 / 60 % 60) (dt.micros % dayMicros / 1000000 % 60)
    dt.millisecond (by unfold dayMicros; omega) (by omega) (by omega) (by unfold Datetime.millisecond; omega)
  have htext : isoText dt = (pad 4 (ord2ymd (dt.micros / dayMicros)).1 ++
      '-' :: pad 2 (ord2ymd (dt.micros / dayMicros)).2.1 ++
      '-' :: pad 2 (ord2ymd (dt.micros / dayMicros)).2.2) ++
      'T' :: (pad 2 (dt.micros % dayMicros / 1000000 / 3600) ++
        ':' :: pad 2 (dt.micros % dayMicros / 1000000 / 60 % 60) ++
        ':' :: pad 2 (dt.micros % dayMicros / 1000000 % 60) ++ '.' :: pad 3 dt.millisecond ++
        "+00:00".toList) := by
    simp [isoText, strftimeSeconds]
  have hlen : ¬(isoText dt).length < 7 := by
    rw [htext]
    simp only [List.length_append, List.length_cons, pad_length]
    omega
  have hlong : (isoText dt).length ≠ 10 := by
    rw [htext]
    simp only [List.length_append, List.length_cons, pad_length]
    omega
  rw [fromisoformat?, if_neg hlen, htext, separatorAt_extended, List.take_left' (by simp),
    ← List.drop_drop, List.drop_left' (by simp), List.drop_one, List.tail_cons, hdate, ← htext]
  simp only [Option.bind_eq_bind, Option.bind_some, hlong, if_false, htime]
  have hsum : dt.micros / dayMicros * dayMicros +
      (((dt.micros % dayMicros / 1000000 / 3600 * 60 + dt.micros % dayMicros / 1000000 / 60 % 60) *
        60 + dt.micros % dayMicros / 1000000 % 60) * 1000000 + dt.millisecond * 1000) =
      dt.micros / 1000 * 1000 := by
    unfold Datetime.millisecond dayMicros
    omega
  rw [hsum, Datetime.floorMillis_micros]

end Py
