/-! The Gregorian calendar, for every year from 1 on. Days are numbered from 0, which is the
first of January of year 1, a Monday.
-/

namespace DeltaFeed.Time

/-- A calendar date; (date.Valid) says that the day exists. -/
structure Date where
  year : Nat
  month : Nat
  day : Nat
deriving DecidableEq, Repr, Inhabited

def isLeap (year : Nat) : Bool :=
  year % 4 = 0 && (year % 100 != 0 || year % 400 = 0)

/-- (daysInMonth year month) is the length of a month, 0 for a month that does not exist. -/
def daysInMonth (year month : Nat) : Nat :=
  match month with
  | 1 | 3 | 5 | 7 | 8 | 10 | 12 => 31
  | 4 | 6 | 9 | 11 => 30
  | 2 => if isLeap year then 29 else 28
  | _ => 0

/-- (daysBeforeYear year) is the number of the first day of a year. -/
def daysBeforeYear (year : Nat) : Nat :=
  let y := year - 1
  365 * y + y / 4 - y / 100 + y / 400

def daysBeforeMonth (year : Nat) : Nat → Nat
  | 0 => 0
  | 1 => 0
  | month + 2 => daysBeforeMonth year (month + 1) + daysInMonth year (month + 1)

namespace Date

/-- The dates that exist, from year 1 to year 9999. -/
structure Valid (date : Date) : Prop where
  year_pos : 1 ≤ date.year
  year_le : date.year ≤ 9999
  month_pos : 1 ≤ date.month
  month_le : date.month ≤ 12
  day_pos : 1 ≤ date.day
  day_le : date.day ≤ daysInMonth date.year date.month

def dayNumber (date : Date) : Nat :=
  daysBeforeYear date.year + daysBeforeMonth date.year date.month + (date.day - 1)

/-- (monthAndDay year month left fuel) finds the month and the day that lie left days after the
first of the given month.
-/
def monthAndDay (year month left : Nat) : Nat → Nat × Nat
  | 0 => (month, left + 1)
  | fuel + 1 =>
    if left < daysInMonth year month then (month, left + 1)
    else monthAndDay year (month + 1) (left - daysInMonth year month) fuel

/-- (yearOf n) is the year of a day: an estimate from the mean length of a year is at most one
too small or too large.
-/
def yearOf (n : Nat) : Nat :=
  let guess := n * 400 / 146097 + 1
  if daysBeforeYear (guess + 1) ≤ n then guess + 1
  else if n < daysBeforeYear guess then guess - 1
  else guess

def ofDayNumber (n : Nat) : Date :=
  let year := yearOf n
  let (month, day) := monthAndDay year 1 (n - daysBeforeYear year) 11
  { year, month, day }

end Date

/-- (weekdayOf n) is the day of the week of a day, 0 for a Monday. -/
def weekdayOf (n : Nat) : Nat :=
  n % 7

/-- (hasLongWeekYear year) holds of the years with 53 weeks: those that begin on a Thursday,
and the leap years that begin on a Wednesday.
-/
def hasLongWeekYear (year : Nat) : Bool :=
  let first := weekdayOf (daysBeforeYear year)
  first == 3 || (first == 2 && isLeap year)

/-- (firstWeekStart year) is the Monday of the week with the year's first Thursday, as a number
that may lie before the year.
-/
def firstWeekStart (year : Nat) : Int :=
  let first := daysBeforeYear year
  let monday : Int := first - weekdayOf first
  if 3 < weekdayOf first then monday + 7 else monday

/-- (weekDate? year week weekday) is the number of a day given by week and weekday, if the week
exists and the weekday is from 1 to 7.
-/
def weekDate? (year week weekday : Nat) : Option Int :=
  if (1 ≤ week && week ≤ 52 || week == 53 && hasLongWeekYear year) && 1 ≤ weekday && weekday ≤ 7
  then some (firstWeekStart year + ((week - 1) * 7 + (weekday - 1) : Nat))
  else none

end DeltaFeed.Time
