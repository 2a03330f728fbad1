import PartitionedTable.Instant.Calendar
import PartitionedTable.Text.Numeral

/-!
Points in time, to the nanosecond, and their text. The text is a date and a time of day in UTC,
`2024-03-01T12:00:00.250+00:00`: the fraction is left out when it is zero and otherwise has the
fewest of three, six and nine digits that are exact. A leap second is the second numbered sixty.
-/

namespace PartitionedTable

/-- A point in time: seconds since 1970 in UTC, and nanoseconds. In a leap second the nanoseconds
go on counting past a thousand million. -/
structure Instant where
  seconds : Int
  nanoseconds : Nat
deriving DecidableEq, Repr, Inhabited

namespace Instant

open Text

/-- Nanoseconds in a second. -/
def billion : Nat := 1000000000

/-- Seconds in a day. -/
def secondsPerDay : Nat := 86400

/-- Whether the nanoseconds stay below a second, or below two in the last second of a minute. -/
def Valid (instant : Instant) : Prop :=
  instant.nanoseconds < billion
    ∨ instant.seconds % 60 = 59 ∧ instant.nanoseconds < 2 * billion

/-- A year in four digits; outside of 0 to 9999 it has a sign and as many digits as it needs. -/
def yearText (year : Int) : List Char :=
  if 0 ≤ year ∧ year ≤ 9999 then padded 4 year.toNat
  else if 0 ≤ year then '+' :: padded 4 year.natAbs
  else '-' :: padded 4 year.natAbs

/-- A fraction of a second, with its point. -/
def fractionText (nanoseconds : Nat) : List Char :=
  if nanoseconds = 0 then []
  else if nanoseconds % 1000000 = 0 then '.' :: padded 3 (nanoseconds / 1000000)
  else if nanoseconds % 1000 = 0 then '.' :: padded 6 (nanoseconds / 1000)
  else '.' :: padded 9 nanoseconds

/-- The instant written as a date and a time of day in UTC. -/
def characters (instant : Instant) : List Char :=
  let date := Date.ofDayNumber (instant.seconds / secondsPerDay)
  let inDay := (instant.seconds % secondsPerDay).toNat
  let leap := instant.nanoseconds / billion
  yearText date.year ++ '-' :: padded 2 date.month ++ '-' :: padded 2 date.day
    ++ 'T' :: padded 2 (inDay / 3600) ++ ':' :: padded 2 (inDay / 60 % 60)
    ++ ':' :: padded 2 (inDay % 60 + leap) ++ fractionText (instant.nanoseconds % billion)
    ++ "+00:00".toList

/-- The text of an instant. -/
def text (instant : Instant) : String := String.ofList instant.characters

/-- A number at the front, and what follows it. -/
def readNumber (text : List Char) : Option (Nat × List Char) :=
  (number? (text.takeWhile Char.isDigit)).map (·, text.dropWhile Char.isDigit)

/-- A number after a mark. -/
def readAfter (mark : Char) : List Char → Option (Nat × List Char)
  | c :: rest => if c = mark then readNumber rest else none
  | [] => none

/-- A year with its sign. -/
def readYear : List Char → Option (Int × List Char)
  | '+' :: rest => (readNumber rest).map fun (year, rest) => ((year : Int), rest)
  | '-' :: rest => (readNumber rest).map fun (year, rest) => (-(year : Int), rest)
  | rest => (readNumber rest).map fun (year, rest) => ((year : Int), rest)

/-- A fraction of a second, in nanoseconds. -/
def readFraction : List Char → Option (Nat × List Char)
  | '.' :: rest =>
      (readNumber rest).map fun (value, after) => (value * Nat.pow 10 (9 - (rest.length - after.length)), after)
  | rest => some (0, rest)

/-- The instant that a text of this form spells. -/
def ofCharacters? (text : List Char) : Option Instant := do
  let (year, text) ← readYear text
  let (month, text) ← readAfter '-' text
  let (day, text) ← readAfter '-' text
  let (hour, text) ← readAfter 'T' text
  let (minute, text) ← readAfter ':' text
  let (second, text) ← readAfter ':' text
  let (fraction, text) ← readFraction text
  let leap := second / 60
  if text = "+00:00".toList then
    some { seconds := Date.dayNumber ⟨year, month, day⟩ * secondsPerDay
             + hour * 3600 + minute * 60 + (second - leap : Nat)
           nanoseconds := fraction + leap * billion }
  else none

/-- The instant that a text of this form spells. -/
def ofText? (text : String) : Option Instant := ofCharacters? text.toList

end Instant

end PartitionedTable
