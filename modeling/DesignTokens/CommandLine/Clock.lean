/-!
# Clock texts

A moment is counted in seconds since the start of 1970 and written as date and
time of day in UTC. Dates follow the Gregorian calendar; years are counted from
March, so that the day that leap years add is the last one of its year.
-/

namespace DesignTokens.CommandLine

/-- A day of the calendar. -/
structure Date where
  year : Nat
  month : Nat
  day : Nat
  deriving Repr, DecidableEq

/-- The days from the start of March of year 0 to the start of 1970. -/
def daysBefore1970 : Nat := 719468

/-- The days of four hundred years. -/
def daysOfCycle : Nat := 146097

/-- The date of a day that is counted from the start of 1970. -/
def Date.ofDay (day : Nat) : Date :=
  let counted := day + daysBefore1970
  let inCycle := counted % daysOfCycle
  let year := (inCycle - inCycle / 1460 + inCycle / 36524 - inCycle / 146096) / 365
  let inYear := inCycle - (365 * year + year / 4 - year / 100)
  let month := (5 * inYear + 2) / 153
  { year := year + 400 * (counted / daysOfCycle) + if month < 10 then 0 else 1
    month := if month < 10 then month + 3 else month - 9
    day := inYear - (153 * month + 2) / 5 + 1 }

/-- A number with zeros in front of it up to a width. -/
def padded (width n : Nat) : String :=
  let digits := Nat.toDigits 10 n
  String.ofList (List.replicate (width - digits.length) '0' ++ digits)

/-- The text of a moment, given in seconds since the start of 1970. -/
def clockText (seconds : Nat) : String :=
  let date := Date.ofDay (seconds / 86400)
  let time := seconds % 86400
  padded 4 date.year ++ "-" ++ padded 2 date.month ++ "-" ++ padded 2 date.day ++ "T"
    ++ padded 2 (time / 3600) ++ ":" ++ padded 2 (time / 60 % 60) ++ ":" ++ padded 2 (time % 60)
    ++ "Z"

end DesignTokens.CommandLine
