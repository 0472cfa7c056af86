import OosLite.Lib.Checked

/-!
# Dates of HTTP

`format_http_date` in its own integer types: an operation that leaves its type is a panic.
-/

namespace OosLite

open Checked

/-- `{:02}`. -/
def twoDigits (n : Nat) : String := if n < 10 then "0" ++ toString n else toString n

def weekdayNames : List String := ["Thu", "Fri", "Sat", "Sun", "Mon", "Tue", "Wed"]

def monthNames : List String :=
  ["Jan", "Feb", "Mar", "Apr", "May", "Jun", "Jul", "Aug", "Sep", "Oct", "Nov", "Dec"]

/-- What is printed. -/
def renderHttpDate (dayOfWeek : String) (day : Nat) (month : String) (year : Int)
    (hour minute second : Nat) : String :=
  dayOfWeek ++ ", " ++ twoDigits day ++ " " ++ month ++ " " ++ toString year ++ " " ++
    twoDigits hour ++ ":" ++ twoDigits minute ++ ":" ++ twoDigits second ++ " GMT"

/-- `format_http_date`. -/
def formatHttpDate (ts : UInt64) : Checked Empty String := do
  let daysSinceEpoch := asI64 (ts.toNat / 86400)
  let daySeconds := asU32 (ts.toNat % 86400 : Nat)
  let hour := daySeconds / 3600
  let minute := daySeconds % 3600 / 60
  let second := daySeconds % 60
  let dayOfWeek ← index weekdayNames (daysSinceEpoch.emod 7).toNat
  let z ← i64 (daysSinceEpoch + 719468)
  let shifted ← (if z ≥ 0 then pure z else i64 (z - 146096))
  let era := shifted.tdiv 146097
  let doe := asU32 (← i64 (z - (← i64 (era * 146097))))
  let leapDays ← subU32 doe (doe / 1460)
  let leapDays ← addU32 leapDays (doe / 36524)
  let leapDays ← subU32 leapDays (doe / 146096)
  let yoe := leapDays / 365
  let y ← i64 (yoe + (← i64 (era * 400)))
  let yearDays ← addU32 (← mulU32 365 yoe) (yoe / 4)
  let doy ← subU32 doe (← subU32 yearDays (yoe / 100))
  let mp := (← addU32 (← mulU32 5 doy) 2) / 153
  let monthDays := (← addU32 (← mulU32 153 mp) 2) / 5
  let d ← addU32 (← subU32 doy monthDays) 1
  let m ← (if mp < 10 then addU32 mp 3 else subU32 mp 9)
  let y ← (if m ≤ 2 then i64 (y + 1) else pure y)
  let monthStr ← index monthNames (← subU32 m 1)
  return renderHttpDate dayOfWeek d monthStr y hour minute second

end OosLite
