import OosLite.Lib.Calendar
import OosLite.Lib.Decimal
import OosLite.Mount.HttpDate

/-!
# The dates are Gregorian

What `format_http_date` computes in closed form is what the calendar comes to second after second,
and nothing it computes leaves its type.
-/

namespace OosLite

open Calendar Checked Decimal

def shortWeekday : Weekday → String
  | .sunday => "Sun"
  | .monday => "Mon"
  | .tuesday => "Tue"
  | .wednesday => "Wed"
  | .thursday => "Thu"
  | .friday => "Fri"
  | .saturday => "Sat"

def shortMonth : Nat → String
  | 1 => "Jan"
  | 2 => "Feb"
  | 3 => "Mar"
  | 4 => "Apr"
  | 5 => "May"
  | 6 => "Jun"
  | 7 => "Jul"
  | 8 => "Aug"
  | 9 => "Sep"
  | 10 => "Oct"
  | 11 => "Nov"
  | 12 => "Dec"
  | _ => ""

/-- A moment as HTTP writes it, in a year of any number of digits. -/
def IsHttpDate (m : Moment) (text : String) : Prop :=
  ∃ day year hour minute second : List Char,
    text.toList = (shortWeekday m.weekday).toList ++ ',' :: ' ' :: day ++
        ' ' :: (shortMonth m.date.month).toList ++ ' ' :: year ++
        ' ' :: hour ++ ':' :: minute ++ ':' :: second ++ [' ', 'G', 'M', 'T'] ∧
      Padded 2 day m.date.day ∧ Plain year m.date.year ∧ Padded 2 hour m.hour ∧
      Padded 2 minute m.minute ∧ Padded 2 second m.second

theorem padded_twoDigits {n : Nat} (small : n < 100) : Padded 2 (twoDigits n).toList n := by
  have digits := isDigits_toDigits n
  unfold twoDigits
  split
  · rename_i one
    have listed : ("0" ++ toString n).toList = '0' :: Nat.toDigits 10 n := by
      rw [String.toList_append, Nat.toString_eq_repr, Nat.toList_repr]
      rfl
    rw [listed]
    refine ⟨⟨nofun, List.forall_mem_cons.2 ⟨rfl, digits.2⟩⟩, ?_, value_toDigits n⟩
    rw [Nat.toDigits_of_lt_base one]
    rfl
  · rename_i two
    have listed : (toString n).toList = Nat.toDigits 10 n := Nat.toList_repr
    rw [listed]
    refine ⟨digits, ?_, value_toDigits n⟩
    rw [Nat.toDigits_of_base_le (by decide) (by omega), Nat.toDigits_of_lt_base (by omega)]
    rfl

/-- What is rendered of a moment is the moment. -/
theorem isHttpDate_render {m : Moment} (day : m.date.day < 100) (hour : m.hour < 100)
    (minute : m.minute < 100) (second : m.second < 100) :
    IsHttpDate m (renderHttpDate (shortWeekday m.weekday) m.date.day (shortMonth m.date.month)
      m.date.year m.hour m.minute m.second) := by
  refine ⟨(twoDigits m.date.day).toList, Nat.toDigits 10 m.date.year, (twoDigits m.hour).toList,
    (twoDigits m.minute).toList, (twoDigits m.second).toList, ?_, padded_twoDigits day,
    plain_toDigits _, padded_twoDigits hour, padded_twoDigits minute, padded_twoDigits second⟩
  have year : (toString (m.date.year : Int)).toList = Nat.toDigits 10 m.date.year := Nat.toList_repr
  have comma : ", ".toList = [',', ' '] := rfl
  have blank : " ".toList = [' '] := rfl
  have colon : ":".toList = [':'] := rfl
  have zone : " GMT".toList = [' ', 'G', 'M', 'T'] := rfl
  unfold renderHttpDate
  simp only [String.toList_append, year, comma, blank, colon, zone, List.append_assoc,
    List.cons_append, List.nil_append]

/-- The table of weekdays begins with that of the epoch. -/
theorem weekdayNames_get (days : Nat) :
    weekdayNames[days % 7]? = some (shortWeekday (weekdayAfter days)) := by
  have all : ∀ k : Fin 7, weekdayNames[k.val]? = some (shortWeekday (weekdayAfter k)) := by decide
  rw [← weekdayAfter_mod]
  exact all ⟨days % 7, Nat.mod_lt _ (by decide)⟩

/-- Every day of a year has its month in the table. -/
theorem monthNames_get {n : Nat} (small : n < 366) :
    monthNames[marchMonth n - 1]? = some (shortMonth (marchMonth n)) ∧ 1 ≤ marchMonth n := by
  have all : ∀ k : Fin 366, monthNames[marchMonth k - 1]? = some (shortMonth (marchMonth k)) ∧
      1 ≤ marchMonth k := by decide +kernel
  exact all ⟨n, small⟩

/-- The results that are within 64 bits. -/
def InI64 (a : Int) : Prop := -2 ^ 63 ≤ a ∧ a < 2 ^ 63

/-- No operation on the days leaves its type, and the signed divisions are those of natural numbers. -/
theorem era_steps {z : Nat} (small : z < 2 ^ 49) :
    (z : Int).tdiv 146097 = (z / 146097 : Nat) ∧ InI64 (((z / 146097 : Nat) : Int) * 146097) ∧
      (z : Int) - ((z / 146097 : Nat) : Int) * 146097 = (z % 146097 : Nat) ∧
      InI64 (((z / 146097 : Nat) : Int) * 400) := by
  unfold InI64
  refine ⟨?_, by omega, by omega, by omega⟩
  rw [Int.tdiv_eq_ediv_of_nonneg (Int.natCast_nonneg z)]
  omega

/-- No operation on the day of the era leaves its type. -/
theorem doe_steps {doe : Nat} (small : doe < 146097) :
    doe / 1460 ≤ doe ∧ doe - doe / 1460 + doe / 36524 < 2 ^ 32 ∧
      doe / 146096 ≤ doe - doe / 1460 + doe / 36524 := by
  omega

/-- No operation on the year of the era leaves its type. -/
theorem yoe_steps {yoe : Nat} (small : yoe < 400) :
    365 * yoe < 2 ^ 32 ∧ 365 * yoe + yoe / 4 < 2 ^ 32 ∧ yoe / 100 ≤ 365 * yoe + yoe / 4 := by
  omega

/-- No operation on the day of the year leaves its type. -/
theorem doy_steps {doy : Nat} (small : doy < 366) :
    5 * doy < 2 ^ 32 ∧ 5 * doy + 2 < 2 ^ 32 ∧ 153 * ((5 * doy + 2) / 153) < 2 ^ 32 ∧
      153 * ((5 * doy + 2) / 153) + 2 < 2 ^ 32 ∧ (153 * ((5 * doy + 2) / 153) + 2) / 5 ≤ doy ∧
      doy - (153 * ((5 * doy + 2) / 153) + 2) / 5 + 1 < 2 ^ 32 ∧ (5 * doy + 2) / 153 + 3 < 2 ^ 32 := by
  omega

/-- The month, by the number that begins with March. -/
theorem month_step {ε : Type} {doy : Nat} (small : doy < 366) :
    (if (5 * doy + 2) / 153 < 10 then addU32 ((5 * doy + 2) / 153) 3
      else subU32 ((5 * doy + 2) / 153) 9 : Checked ε Nat) = pure (marchMonth doy) := by
  have steps := doy_steps small
  unfold marchMonth
  simp only
  by_cases early : (5 * doy + 2) / 153 < 10
  · rw [if_pos early, if_pos early, addU32_eq steps.2.2.2.2.2.2]
  · rw [if_neg early, if_neg early, subU32_eq (by omega)]

/-- No step leaves its type, and the parts that are rendered are those of the moment. -/
theorem formatHttpDate_eq (ts : UInt64) :
    let m := momentAfter ts.toNat
    formatHttpDate ts = ends (.ok (renderHttpDate (shortWeekday m.weekday) m.date.day
      (shortMonth m.date.month) m.date.year m.hour m.minute m.second)) := by
  intro m
  have parts : m = momentAfter ts.toNat := rfl
  clear_value m
  obtain ⟨days, hdays⟩ : ∃ days, days = ts.toNat / 86400 := ⟨_, rfl⟩
  have daysBound : days < 2 ^ 48 := by
    have bound := ts.toNat_lt
    omega
  have daysEq : asI64 (ts.toNat / 86400) = days := by rw [← hdays, asI64_eq (by omega)]
  have secondsEq : asU32 (ts.toNat % 86400 : Nat) = ts.toNat % 86400 := by
    have small := Nat.mod_lt ts.toNat (by decide : 86400 > 0)
    exact asU32_eq (by omega)
  have weekday : (Int.emod days 7).toNat = days % 7 := by
    show ((days : Int) % 7).toNat = days % 7
    omega
  have date := dateAfter_closed days
  simp only at date
  rw [momentAfter_eq, ← hdays, date] at parts
  subst parts
  have zEq : (days : Int) + 719468 = (days + 719468 : Nat) := by omega
  have zIn : InI64 (days + 719468 : Nat) := by
    unfold InI64
    omega
  obtain ⟨z, hz⟩ : ∃ z, z = days + 719468 := ⟨_, rfl⟩
  have zBound : z < 2 ^ 49 := by omega
  rw [← hz] at zEq zIn ⊢
  clear hz date daysBound
  obtain ⟨eraEq, eraIn, doeEq, yearsIn⟩ := era_steps zBound
  have doeBound : z % 146097 < 146097 := Nat.mod_lt _ (by decide)
  obtain ⟨doe, hdoe⟩ : ∃ doe, doe = z % 146097 := ⟨_, rfl⟩
  obtain ⟨era, hera⟩ : ∃ era, era = z / 146097 := ⟨_, rfl⟩
  have eraBound : era < 2 ^ 49 := by omega
  rw [← hdoe] at doeEq doeBound ⊢
  rw [← hera] at eraEq eraIn doeEq yearsIn ⊢
  clear hdoe hera zBound
  have leap := doe_steps doeBound
  obtain ⟨small, begun, ended⟩ := yearOfEra_spec doeBound
  have year : (doe - doe / 1460 + doe / 36524 - doe / 146096) / 365 = yearOfEra doe := rfl
  obtain ⟨yoe, hyoe⟩ : ∃ yoe, yoe = yearOfEra doe := ⟨_, rfl⟩
  rw [← hyoe] at small begun ended year ⊢
  clear hyoe
  have yoeSteps := yoe_steps small
  obtain ⟨doy, hdoy⟩ : ∃ doy, doy = doe - eraStart yoe := ⟨_, rfl⟩
  have doyBound : doy < 366 := by
    have length : marchLength yoe ≤ 366 := by
      unfold marchLength
      split <;> decide
    omega
  have doySteps := doy_steps doyBound
  obtain ⟨monthName, monthPos⟩ := monthNames_get doyBound
  have zPos : (z : Int) ≥ 0 := Int.natCast_nonneg z
  have doe32 : asU32 (doe : Int) = doe := asU32_eq (by omega)
  have doeIn : InI64 (doe : Int) := by
    unfold InI64
    omega
  have yearIn : InI64 ((yoe : Int) + era * 400) := by
    unfold InI64
    omega
  have yearIn' : InI64 ((yoe : Int) + era * 400 + 1) := by
    unfold InI64
    omega
  have startSub : 365 * yoe + yoe / 4 - yoe / 100 ≤ doe := begun
  have doyEq : doe - (365 * yoe + yoe / 4 - yoe / 100) = doy := hdoy.symm
  -- the steps of the source, one after the other
  unfold formatHttpDate
  simp only [daysEq, secondsEq, weekday, zEq]
  rw [index_eq (weekdayNames_get days), pure_bind, i64_eq zIn, pure_bind, if_pos zPos, pure_bind]
  simp only [eraEq]
  rw [i64_eq eraIn, pure_bind, doeEq, i64_eq doeIn, pure_bind]
  simp only [doe32]
  rw [subU32_eq leap.1, pure_bind, addU32_eq leap.2.1, pure_bind, subU32_eq leap.2.2, pure_bind,
    year, i64_eq yearsIn, pure_bind, i64_eq yearIn, pure_bind, mulU32_eq yoeSteps.1, pure_bind,
    addU32_eq yoeSteps.2.1, pure_bind, subU32_eq yoeSteps.2.2, pure_bind, subU32_eq startSub,
    pure_bind, doyEq]
  obtain ⟨first, second, third, fourth, fifth, sixth, -⟩ := doySteps
  rw [mulU32_eq first, pure_bind, addU32_eq second, pure_bind, mulU32_eq third, pure_bind,
    addU32_eq fourth, pure_bind, subU32_eq fifth, pure_bind, addU32_eq sixth, pure_bind,
    month_step doyBound, pure_bind]
  have yearEq : (if marchMonth doy ≤ 2 then i64 ((yoe : Int) + era * 400 + 1)
      else pure ((yoe : Int) + era * 400) : Checked Empty Int) =
        pure ((ofMarch (yoe + 400 * era) doy).year : Int) := by
    unfold ofMarch
    simp only
    by_cases early : marchMonth doy ≤ 2
    · have next : (yoe : Int) + era * 400 + 1 = (yoe + 400 * era + 1 : Nat) := by omega
      rw [if_pos early, if_pos early, i64_eq yearIn', next]
    · have same : (yoe : Int) + era * 400 = (yoe + 400 * era : Nat) := by omega
      rw [if_neg early, if_neg early, same]
  rw [yearEq, pure_bind, subU32_eq monthPos, pure_bind, index_eq monthName, pure_bind, ← hdoy]
  rfl

/-- For every timestamp `format_http_date` prints the Gregorian date and time of that second, with
nothing out of its type and no index out of its table. -/
theorem http_date_gregorian (ts : UInt64) : ∃ text,
    formatHttpDate ts = ends (.ok text) ∧ IsHttpDate (momentAfter ts.toNat) text := by
  refine ⟨_, formatHttpDate_eq ts, ?_⟩
  have bound := daysInMonth_bounds (momentAfter ts.toNat).date.year (momentAfter ts.toNat).date.month
  rw [momentAfter_eq] at bound ⊢
  have day := (valid_dateAfter (ts.toNat / 86400)).day.2
  apply isHttpDate_render
  · exact Nat.lt_of_le_of_lt (Nat.le_trans day bound.2) (by decide)
  · show ts.toNat % 86400 / 3600 < 100
    omega
  · show ts.toNat % 86400 % 3600 / 60 < 100
    omega
  · show ts.toNat % 86400 % 60 < 100
    omega

end OosLite
