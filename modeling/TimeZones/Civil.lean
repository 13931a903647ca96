/-! Civil dates and times of the Gregorian calendar, extended to all years. -/
namespace TimeZones

/-- A time of day on a date, not yet checked. -/
structure CivilTime where
  year : Int
  month : Nat
  day : Nat
  millisOfDay : Int
  deriving DecidableEq

namespace CivilTime

def minYear : Int := -9999

def maxYear : Int := 9999

def millisPerDay : Int := 86400000

def isLeapYear (year : Int) : Bool := year % 4 = 0 && (year % 100 ≠ 0 || year % 400 = 0)

def daysInMonth (year : Int) (month : Nat) : Nat :=
  match month with
  | 2 => if isLeapYear year then 29 else 28
  | 4 | 6 | 9 | 11 => 30
  | _ => 31

/-- Days from 1 January 1970 to a date. Years are counted from March, so that the leap day comes
last, in cycles of 400 years, which all have 146097 days. -/
def daysFromEpoch (year : Int) (month day : Nat) : Int :=
  let y := if month ≤ 2 then year - 1 else year
  let cycle := y / 400
  let yearOfCycle := y - cycle * 400
  let monthFromMarch : Int := (month + 9) % 12
  let dayOfYear := (153 * monthFromMarch + 2) / 5 + day - 1
  let dayOfCycle := yearOfCycle * 365 + yearOfCycle / 4 - yearOfCycle / 100 + dayOfYear
  cycle * 146097 + dayOfCycle - 719468

/-- A part of a civil time that is out of its range. The range of days depends on the month. -/
inductive Fault where
  | year (given : Int)
  | month (given : Nat)
  | day (given last : Nat)
  | millisOfDay (given : Int)
  deriving DecidableEq

def Fault.message (f : Fault) : String :=
  let (name, given, least, greatest) : String × Int × Int × Int :=
    match f with
    | .year y => ("year", y, minYear, maxYear)
    | .month m => ("month", m, 1, 12)
    | .day d last => ("day", d, 1, last)
    | .millisOfDay t => ("millis_of_day", t, 0, millisPerDay - 1)
  s!"parameter '{name}' with value {given} is not in the required range of {least}..={greatest}"

/-- The first part that is out of range, year first. -/
def fault? (t : CivilTime) : Option Fault :=
  if t.year < minYear ∨ maxYear < t.year then some (.year t.year)
  else if t.month < 1 ∨ 12 < t.month then some (.month t.month)
  else if t.day < 1 ∨ daysInMonth t.year t.month < t.day then
    some (.day t.day (daysInMonth t.year t.month))
  else if t.millisOfDay < 0 ∨ millisPerDay ≤ t.millisOfDay then some (.millisOfDay t.millisOfDay)
  else none

/-- Milliseconds from 1970 to a civil time that is kept `offset` seconds ahead of UTC. -/
def millisAt (t : CivilTime) (offset : Int32) : Int :=
  daysFromEpoch t.year t.month t.day * millisPerDay + t.millisOfDay - offset.toInt * 1000

end CivilTime

end TimeZones
