import Mathlib.Logic.Function.Iterate
import Mathlib.Tactic.IntervalCases

/-!
# The Gregorian calendar

The calendar as a clock that ticks second after second and carries, and its closed form: with years
that begin in March the leap day is the last of its year, and the first day of a year is a sum.
-/

namespace Calendar

inductive Weekday where
  | sunday
  | monday
  | tuesday
  | wednesday
  | thursday
  | friday
  | saturday
  deriving DecidableEq

/-- The day after. -/
def Weekday.next : Weekday → Weekday
  | sunday => monday
  | monday => tuesday
  | tuesday => wednesday
  | wednesday => thursday
  | thursday => friday
  | friday => saturday
  | saturday => sunday

@[ext] structure Date where
  year : Nat
  month : Nat
  day : Nat
  deriving DecidableEq

/-- A leap year. -/
def IsLeap (year : Nat) : Prop := year % 4 = 0 ∧ year % 100 ≠ 0 ∨ year % 400 = 0

instance (year : Nat) : Decidable (IsLeap year) := inferInstanceAs (Decidable (_ ∨ _))

def daysInMonth (year month : Nat) : Nat :=
  if month = 2 then (if IsLeap year then 29 else 28)
  else if month ∈ [4, 6, 9, 11] then 30
  else 31

/-- The day after. -/
def Date.next (d : Date) : Date :=
  if d.day < daysInMonth d.year d.month then { d with day := d.day + 1 }
  else if d.month < 12 then ⟨d.year, d.month + 1, 1⟩
  else ⟨d.year + 1, 1, 1⟩

/-- A day that there is. -/
structure Date.Valid (d : Date) : Prop where
  month : 1 ≤ d.month ∧ d.month ≤ 12
  day : 1 ≤ d.day ∧ d.day ≤ daysInMonth d.year d.month

theorem daysInMonth_bounds (year month : Nat) : 1 ≤ daysInMonth year month ∧ daysInMonth year month ≤ 31 := by
  unfold daysInMonth
  split
  · split <;> decide
  · split <;> decide

theorem Date.Valid.next {d : Date} (valid : d.Valid) : d.next.Valid := by
  obtain ⟨month, day⟩ := valid
  have starts (year month : Nat) : 1 ≤ 1 ∧ 1 ≤ daysInMonth year month :=
    ⟨Nat.le_refl 1, (daysInMonth_bounds year month).1⟩
  unfold Date.next
  split
  · rename_i within
    exact ⟨month, Nat.le_add_left 1 d.day, within⟩
  · split
    · rename_i earlier
      exact ⟨⟨Nat.le_add_left 1 d.month, earlier⟩, starts _ _⟩
    · exact ⟨⟨Nat.le_refl 1, Nat.le_add_left 1 11⟩, starts _ _⟩

/-- A second of a day. -/
@[ext] structure Moment where
  date : Date
  weekday : Weekday
  hour : Nat
  minute : Nat
  second : Nat
  deriving DecidableEq

/-- The second after. -/
def Moment.tick (m : Moment) : Moment :=
  if m.second < 59 then { m with second := m.second + 1 }
  else if m.minute < 59 then { m with minute := m.minute + 1, second := 0 }
  else if m.hour < 23 then { m with hour := m.hour + 1, minute := 0, second := 0 }
  else ⟨m.date.next, m.weekday.next, 0, 0, 0⟩

/-- Midnight before 1 January 1970, a Thursday. -/
def epoch : Moment := ⟨⟨1970, 1, 1⟩, .thursday, 0, 0, 0⟩

/-- So many seconds after the epoch. -/
def momentAfter (seconds : Nat) : Moment := Moment.tick^[seconds] epoch

/-- So many days after the epoch. -/
def dateAfter (days : Nat) : Date := Date.next^[days] epoch.date

def weekdayAfter (days : Nat) : Weekday := Weekday.next^[days] epoch.weekday

theorem dateAfter_succ (days : Nat) : dateAfter (days + 1) = (dateAfter days).next :=
  Function.iterate_succ_apply' _ _ _

theorem valid_dateAfter (days : Nat) : (dateAfter days).Valid := by
  induction days with
  | zero => exact ⟨by decide, by decide⟩
  | succ days ih =>
    rw [dateAfter_succ]
    exact ih.next

theorem weekdayAfter_succ (days : Nat) : weekdayAfter (days + 1) = (weekdayAfter days).next :=
  Function.iterate_succ_apply' _ _ _

/-- The clock divides the seconds. -/
theorem momentAfter_eq (seconds : Nat) : momentAfter seconds =
    ⟨dateAfter (seconds / 86400), weekdayAfter (seconds / 86400), seconds % 86400 / 3600,
      seconds % 86400 % 3600 / 60, seconds % 86400 % 60⟩ := by
  induction seconds with
  | zero => rfl
  | succ n ih =>
    rw [momentAfter, Function.iterate_succ_apply', ← momentAfter, ih]
    unfold Moment.tick
    simp only
    by_cases second : n % 86400 % 60 < 59
    · have day : (n + 1) / 86400 = n / 86400 := by omega
      have hour : (n + 1) % 86400 / 3600 = n % 86400 / 3600 := by omega
      have minute : (n + 1) % 86400 % 3600 / 60 = n % 86400 % 3600 / 60 := by omega
      have next : (n + 1) % 86400 % 60 = n % 86400 % 60 + 1 := by omega
      rw [if_pos second, day, hour, minute, next]
    rw [if_neg second]
    by_cases minute : n % 86400 % 3600 / 60 < 59
    · have day : (n + 1) / 86400 = n / 86400 := by omega
      have hour : (n + 1) % 86400 / 3600 = n % 86400 / 3600 := by omega
      have next : (n + 1) % 86400 % 3600 / 60 = n % 86400 % 3600 / 60 + 1 := by omega
      have zero : (n + 1) % 86400 % 60 = 0 := by omega
      rw [if_pos minute, day, hour, next, zero]
    rw [if_neg minute]
    by_cases hour : n % 86400 / 3600 < 23
    · have day : (n + 1) / 86400 = n / 86400 := by omega
      have next : (n + 1) % 86400 / 3600 = n % 86400 / 3600 + 1 := by omega
      have zero : (n + 1) % 86400 % 3600 / 60 = 0 := by omega
      have zero' : (n + 1) % 86400 % 60 = 0 := by omega
      rw [if_pos hour, day, next, zero, zero']
    · have day : (n + 1) / 86400 = n / 86400 + 1 := by omega
      have zero : (n + 1) % 86400 = 0 := by omega
      rw [if_neg hour, day, zero, dateAfter_succ, weekdayAfter_succ]

/-- The weekdays repeat after seven days. -/
theorem weekdayAfter_mod (days : Nat) : weekdayAfter (days % 7) = weekdayAfter days := by
  have week : Weekday.next^[7] = id := by
    funext w
    cases w <;> rfl
  unfold weekdayAfter
  conv_rhs => rw [← Nat.mod_add_div days 7]
  rw [Function.iterate_add_apply, Function.iterate_mul, week, Function.iterate_id]
  rfl

/-! ## Years from March on -/

/-- The days before the first of March of a year, from the first of March of the year 0. -/
def marchStart (year : Nat) : Nat := 365 * year + year / 4 - year / 100 + year / 400

/-- The days from the first of March to the last of February. -/
def marchLength (year : Nat) : Nat := if IsLeap (year + 1) then 366 else 365

theorem div_succ (n k : Nat) :
    (n + 1) / k = n / k + if (n + 1) % k = 0 then 1 else 0 := by
  rw [Nat.succ_div]
  simp only [Nat.dvd_iff_mod_eq_zero]

theorem marchStart_succ (year : Nat) :
    marchStart (year + 1) = marchStart year + marchLength year := by
  have le : year / 100 ≤ year / 4 := Nat.div_le_div_left (by decide) (by decide)
  have centuries : (year + 1) % 100 = 0 → (year + 1) % 4 = 0 := by omega
  have eras : (year + 1) % 400 = 0 → (year + 1) % 100 = 0 := by omega
  unfold marchStart marchLength
  rw [div_succ year 4, div_succ year 100, div_succ year 400]
  generalize year / 4 = fours at *
  generalize year / 100 = hundreds at *
  generalize year / 400 = fourHundreds at *
  by_cases leap : IsLeap (year + 1)
  · rw [if_pos leap]
    rcases leap with ⟨four, hundred⟩ | era
    · rw [if_pos four, if_neg hundred, if_neg fun era => hundred (eras era)]
      omega
    · rw [if_pos (centuries (eras era)), if_pos (eras era), if_pos era]
      omega
  · rw [if_neg leap]
    unfold IsLeap at leap
    push Not at leap
    rw [if_neg leap.2]
    by_cases four : (year + 1) % 4 = 0
    · rw [if_pos four, if_pos (leap.1 four)]
      omega
    · rw [if_neg four, if_neg fun hundred => four (centuries hundred)]
      omega

/-- The number of days a month has in every year. -/
def commonDays (month : Nat) : Nat :=
  if month = 2 then 28 else if month ∈ [4, 6, 9, 11] then 30 else 31

theorem commonDays_le (year month : Nat) : commonDays month ≤ daysInMonth year month := by
  unfold commonDays daysInMonth
  by_cases february : month = 2
  · rw [if_pos february, if_pos february]
    split <;> decide
  · rw [if_neg february, if_neg february]

theorem daysInMonth_eq {month : Nat} (other : month ≠ 2) (year : Nat) :
    daysInMonth year month = commonDays month := by
  unfold commonDays daysInMonth
  rw [if_neg other, if_neg other]

/-- The month of a day of a year from March on, counted from 0. -/
def marchMonth (dayOfYear : Nat) : Nat :=
  let mp := (5 * dayOfYear + 2) / 153
  if mp < 10 then mp + 3 else mp - 9

/-- The day of the month. -/
def marchDay (dayOfYear : Nat) : Nat :=
  dayOfYear - (153 * ((5 * dayOfYear + 2) / 153) + 2) / 5 + 1

/-- The date of a day of a year from March on. -/
def ofMarch (year dayOfYear : Nat) : Date :=
  ⟨if marchMonth dayOfYear ≤ 2 then year + 1 else year, marchMonth dayOfYear, marchDay dayOfYear⟩

/-- The days up to 28 February go through the months. -/
theorem march_step (n : Fin 364) :
    marchDay n < commonDays (marchMonth n) ∧ marchMonth (n + 1) = marchMonth n ∧
      marchDay (n + 1) = marchDay n + 1 ∨
    marchDay n = commonDays (marchMonth n) ∧ marchMonth n ≠ 2 ∧
      marchMonth (n + 1) = marchMonth n % 12 + 1 ∧ marchDay (n + 1) = 1 ∧ marchMonth n ≤ 12 := by
  revert n
  decide +kernel

theorem ofMarch_succ {year n : Nat} (within : n + 1 < marchLength year) :
    ofMarch year (n + 1) = (ofMarch year n).next := by
  unfold Date.next
  by_cases last : n = 364
  · -- the leap day
    subst last
    have leap : IsLeap (year + 1) := by
      unfold marchLength at within
      by_contra none
      rw [if_neg none] at within
      omega
    have long : daysInMonth (year + 1) 2 = 29 := by
      unfold daysInMonth
      rw [if_pos rfl, if_pos leap]
    show (⟨year + 1, 2, 29⟩ : Date) = if 28 < daysInMonth (year + 1) 2 then ⟨year + 1, 2, 29⟩ else _
    rw [long, if_pos (by decide)]
  have small : n < 364 := by
    unfold marchLength at within
    split at within <;> omega
  rcases march_step ⟨n, small⟩ with ⟨inside, month, day⟩ | ⟨ends, other, month, day, le⟩
  · have enough : (ofMarch year n).day < daysInMonth (ofMarch year n).year (ofMarch year n).month :=
      Nat.lt_of_lt_of_le inside (commonDays_le _ _)
    rw [if_pos enough]
    unfold ofMarch
    simp only at month day
    simp only [month, day]
  · simp only at ends other month day le
    have full : ¬ (ofMarch year n).day < daysInMonth (ofMarch year n).year (ofMarch year n).month := by
      show ¬ marchDay n < daysInMonth _ (marchMonth n)
      rw [daysInMonth_eq other, ends]
      exact Nat.lt_irrefl _
    rw [if_neg full]
    unfold ofMarch
    simp only [month, day]
    by_cases december : marchMonth n < 12
    · have next : marchMonth n % 12 + 1 = marchMonth n + 1 := by omega
      rw [if_pos december, next]
      by_cases early : marchMonth n ≤ 2
      · rw [if_pos early, if_pos (by omega)]
      · rw [if_neg early, if_neg (by omega)]
    · have twelve : marchMonth n = 12 := by omega
      rw [if_neg december, twelve]
      rfl

theorem ofMarch_zero {year n : Nat} (last : n + 1 = marchLength year) :
    ofMarch (year + 1) 0 = (ofMarch year n).next := by
  unfold marchLength at last
  have first : ofMarch (year + 1) 0 = ⟨year + 1, 3, 1⟩ := rfl
  rw [first]
  by_cases leap : IsLeap (year + 1)
  · rw [if_pos leap] at last
    obtain rfl : n = 365 := by omega
    have days : daysInMonth (year + 1) 2 = 29 := by
      unfold daysInMonth
      rw [if_pos rfl, if_pos leap]
    have date : ofMarch year 365 = ⟨year + 1, 2, 29⟩ := rfl
    rw [date, Date.next, days]
    rfl
  · rw [if_neg leap] at last
    obtain rfl : n = 364 := by omega
    have days : daysInMonth (year + 1) 2 = 28 := by
      unfold daysInMonth
      rw [if_pos rfl, if_neg leap]
    have date : ofMarch year 364 = ⟨year + 1, 2, 28⟩ := rfl
    rw [date, Date.next, days]
    rfl

/-- A date is that of the day of the year which the sums say. -/
theorem dateAfter_eq {days year n : Nat} (same : marchStart year + n = days + 719468)
    (within : n < marchLength year) : dateAfter days = ofMarch year n := by
  induction days generalizing year n with
  | zero =>
    -- 1 January 1970 is day 306 of the year that began in March 1969
    have bounds : marchStart year ≤ 719468 ∧ 719468 < marchStart (year + 1) := by
      rw [marchStart_succ]
      omega
    have year1969 : year = 1969 := by
      unfold marchStart at bounds
      omega
    subst year1969
    obtain rfl : n = 306 := by
      have start : marchStart 1969 = 719162 := rfl
      omega
    rfl
  | succ days ih =>
    rw [dateAfter_succ]
    cases n with
    | succ n =>
      rw [@ih year n (by omega) (Nat.lt_of_succ_lt within), ofMarch_succ within]
    | zero =>
      cases year with
      | zero =>
        have start : marchStart 0 = 0 := rfl
        omega
      | succ year =>
        have start := marchStart_succ year
        have positive : 0 < marchLength year := by
          unfold marchLength
          split <;> decide
        have last : marchLength year - 1 + 1 = marchLength year := by omega
        rw [@ih year (marchLength year - 1) (by omega) (by omega), ofMarch_zero last]

/-! ## Eras of 400 years -/

/-- The year of an era, counted from March on, that has this day of the era. -/
def yearOfEra (doe : Nat) : Nat := (doe - doe / 1460 + doe / 36524 - doe / 146096) / 365

/-- The days before a year of an era. -/
def eraStart (yoe : Nat) : Nat := 365 * yoe + yoe / 4 - yoe / 100

theorem yearOfEra_mono {doe doe' : Nat} (le : doe ≤ doe') (within : doe' < 146097) :
    yearOfEra doe ≤ yearOfEra doe' := by
  obtain ⟨k, rfl⟩ := Nat.exists_eq_add_of_le le
  apply Nat.div_le_div_right
  induction k with
  | zero => exact Nat.le_refl _
  | succ k ih =>
    have next := ih (Nat.le_add_right _ _) (by omega)
    omega

/-- The year is right for its first and its last day. -/
theorem yearOfEra_ends (yoe : Fin 400) :
    yearOfEra (eraStart yoe) = yoe ∧ yearOfEra (eraStart yoe + marchLength yoe - 1) = yoe := by
  revert yoe
  decide +kernel

theorem marchStart_era {yoe : Nat} (small : yoe < 400) (era : Nat) :
    marchStart (yoe + 400 * era) = eraStart yoe + 146097 * era := by
  have le : yoe / 100 ≤ yoe / 4 := Nat.div_le_div_left (by decide) (by decide)
  have fours : (yoe + 400 * era) / 4 = yoe / 4 + 100 * era := by omega
  have hundreds : (yoe + 400 * era) / 100 = yoe / 100 + 4 * era := by omega
  have eras : (yoe + 400 * era) / 400 = era := by omega
  unfold marchStart eraStart
  rw [fours, hundreds, eras]
  omega

theorem marchLength_era (yoe era : Nat) : marchLength (yoe + 400 * era) = marchLength yoe := by
  have same : IsLeap (yoe + 400 * era + 1) ↔ IsLeap (yoe + 1) := by
    have four : (yoe + 400 * era + 1) % 4 = (yoe + 1) % 4 := by omega
    have hundred : (yoe + 400 * era + 1) % 100 = (yoe + 1) % 100 := by omega
    have fourHundred : (yoe + 400 * era + 1) % 400 = (yoe + 1) % 400 := by omega
    unfold IsLeap
    rw [four, hundred, fourHundred]
  unfold marchLength
  simp only [same]

/-- The year of a day of an era. -/
theorem yearOfEra_spec {doe : Nat} (within : doe < 146097) :
    yearOfEra doe < 400 ∧ eraStart (yearOfEra doe) ≤ doe ∧
      doe < eraStart (yearOfEra doe) + marchLength (yearOfEra doe) := by
  have start {y : Nat} (small : y < 400) : marchStart y = eraStart y := by
    have same := marchStart_era small 0
    exact same
  -- the last year that begins by that day
  obtain ⟨y, year⟩ : ∃ y, y = Nat.findGreatest (fun y => marchStart y ≤ doe) 399 := ⟨_, rfl⟩
  have le : y ≤ 399 := year ▸ Nat.findGreatest_le 399
  have begun : marchStart y ≤ doe := by
    have zero : marchStart 0 ≤ doe := Nat.zero_le doe
    rw [year]
    exact Nat.findGreatest_spec (P := fun y => marchStart y ≤ doe) (Nat.zero_le 399) zero
  have ends : doe < marchStart (y + 1) := by
    by_cases last : y = 399
    · subst last
      exact within
    · apply Nat.lt_of_not_le
      have above : Nat.findGreatest (fun y => marchStart y ≤ doe) 399 < y + 1 :=
        year ▸ Nat.lt_succ_self y
      exact Nat.findGreatest_is_greatest (P := fun y => marchStart y ≤ doe) above (by omega)
  rw [marchStart_succ, start (by omega)] at ends
  rw [start (by omega)] at begun
  obtain ⟨first, last⟩ := yearOfEra_ends ⟨y, by omega⟩
  simp only at first last
  have lower := yearOfEra_mono begun within
  have upper : yearOfEra doe ≤ yearOfEra (eraStart y + marchLength y - 1) := by
    apply yearOfEra_mono (by omega)
    have whole : marchStart (y + 1) ≤ 146097 := by
      have all : ∀ y : Fin 400, marchStart (y + 1) ≤ 146097 := by decide +kernel
      exact all ⟨y, by omega⟩
    rw [marchStart_succ, start (by omega)] at whole
    omega
  have same : yearOfEra doe = y := by omega
  rw [same]
  exact ⟨by omega, begun, ends⟩

/-- The date in closed form: by the era, the year of the era and the day of that year. -/
theorem dateAfter_closed (days : Nat) :
    let era := (days + 719468) / 146097
    let doe := (days + 719468) % 146097
    dateAfter days = ofMarch (yearOfEra doe + 400 * era) (doe - eraStart (yearOfEra doe)) := by
  intro era doe
  have within : doe < 146097 := Nat.mod_lt _ (by decide)
  obtain ⟨small, begun, ends⟩ := yearOfEra_spec within
  have whole : doe + 146097 * era = days + 719468 := Nat.mod_add_div _ _
  apply dateAfter_eq
  · rw [marchStart_era small]
    omega
  · rw [marchLength_era]
    omega

end Calendar
