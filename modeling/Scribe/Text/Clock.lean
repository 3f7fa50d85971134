import Scribe.Text.Number

/-!
# A moment and how it is written

Days are those of the Gregorian calendar, carried back before its beginning.
-/

namespace Scribe

structure Clock where
  year : Int
  month : Nat
  day : Nat
  hour : Nat
  minute : Nat
  second : Nat
  deriving DecidableEq, Repr

namespace Clock

/-- Four digits; a year that needs more or lies before the year 0 has a sign. -/
def writtenYear (c : Clock) : String :=
  if c.year < 0 then "-" ++ Text.padded 4 c.year.natAbs
  else if 9999 < c.year then "+" ++ Text.padded 4 c.year.natAbs
  else Text.padded 4 c.year.natAbs

def shortYear (c : Clock) : String := Text.padded 2 (c.year.fmod 100).natAbs

def monthNames : List String :=
  ["January", "February", "March", "April", "May", "June", "July", "August", "September", "October",
    "November", "December"]

def dayNames : List String :=
  ["Sunday", "Monday", "Tuesday", "Wednesday", "Thursday", "Friday", "Saturday"]

def monthName (c : Clock) : String := monthNames.getD (c.month - 1) ""

/-- Days are counted from the start of March, so that the leap day is the last one of its year. -/
def weekday (c : Clock) : Nat :=
  let early := c.month ≤ 2
  let year := if early then c.year - 1 else c.year
  let month := if early then c.month + 9 else c.month - 3
  let days : Int := 365 * year + year.fdiv 4 - year.fdiv 100 + year.fdiv 400 + (153 * month + 2) / 5 + c.day
  ((days + 2).fmod 7).natAbs

def dayName (c : Clock) : String := dayNames.getD c.weekday ""

/-- The first three letters of a name. -/
def abbreviated (name : String) : String := String.ofList (name.toList.take 3)

end Clock

end Scribe
