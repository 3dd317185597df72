import JoinPath.Number.Text
/-!
# Timestamps

A date of the proleptic Gregorian calendar with a time of day, without a time zone. A leap second
is kept as the 59th second with a billion or more nanoseconds, and shown as second 60.
-/

namespace JoinPath

namespace Calendar

def isLeapYear (year : Int) : Bool := year % 4 = 0 && (year % 100 ≠ 0 || year % 400 = 0)

def daysInMonth (year : Int) (month : Nat) : Nat :=
  if month = 2 then if isLeapYear year then 29 else 28
  else if month = 4 ∨ month = 6 ∨ month = 9 ∨ month = 11 then 30 else 31

/-- A day that exists, within the years that are supported. -/
def IsDate (year : Int) (month day : Nat) : Prop :=
  (-262143 ≤ year ∧ year ≤ 262142) ∧ (1 ≤ month ∧ month ≤ 12) ∧
    (1 ≤ day ∧ day ≤ daysInMonth year month)

instance (year : Int) (month day : Nat) : Decidable (IsDate year month day) := by
  unfold IsDate; infer_instance

/-- A time of day; the nanoseconds pass a billion only in second 59. -/
def IsTime (hour minute second nanosecond : Nat) : Prop :=
  hour < 24 ∧ minute < 60 ∧ second < 60 ∧ nanosecond < 2000000000 ∧
    (1000000000 ≤ nanosecond → second = 59)

instance (hour minute second nanosecond : Nat) :
    Decidable (IsTime hour minute second nanosecond) := by
  unfold IsTime; infer_instance

end Calendar

/-- A date and a time that exist. -/
structure Timestamp where
  year : Int
  month : Nat
  day : Nat
  hour : Nat
  minute : Nat
  second : Nat
  nanosecond : Nat
  isDate : Calendar.IsDate year month day := by decide
  isTime : Calendar.IsTime hour minute second nanosecond := by decide
deriving DecidableEq

namespace Timestamp

/-- The timestamp with these fields, if there is one. -/
def ofFields? (year : Int) (month day hour minute second nanosecond : Nat) : Option Timestamp :=
  if hd : Calendar.IsDate year month day then
    if ht : Calendar.IsTime hour minute second nanosecond then
      some ⟨year, month, day, hour, minute, second, nanosecond, hd, ht⟩
    else none
  else none

theorem ofFields?_self (t : Timestamp) :
    ofFields? t.year t.month t.day t.hour t.minute t.second t.nanosecond = some t := by
  simp [ofFields?, t.isDate, t.isTime]

/-- The year with four digits, and with its sign outside `0` to `9999`. -/
def yearText (year : Int) : String :=
  if 0 ≤ year ∧ year ≤ 9999 then padded 4 year.toNat
  else (if year < 0 then "-" else "+") ++ padded 4 year.natAbs

def dateText (t : Timestamp) : String :=
  yearText t.year ++ "-" ++ padded 2 t.month ++ "-" ++ padded 2 t.day

/-- The fraction of a second in three, six or nine digits, whichever are enough. -/
def fractionText (nanosecond : Nat) : String :=
  if nanosecond = 0 then ""
  else if nanosecond % 1000000 = 0 then "." ++ padded 3 (nanosecond / 1000000)
  else if nanosecond % 1000 = 0 then "." ++ padded 6 (nanosecond / 1000)
  else "." ++ padded 9 nanosecond

def timeText (t : Timestamp) : String :=
  padded 2 t.hour ++ ":" ++ padded 2 t.minute ++ ":"
    ++ padded 2 (t.second + t.nanosecond / 1000000000) ++ fractionText (t.nanosecond % 1000000000)

/-- The form inside SQL text. -/
def sqlText (t : Timestamp) : String := t.dateText ++ " " ++ t.timeText

/-- The form inside JSON text. -/
def jsonText (t : Timestamp) : String := t.dateText ++ "T" ++ t.timeText

end Timestamp

end JoinPath
