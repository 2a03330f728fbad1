/-!
The proleptic Gregorian calendar. Days are numbered from 1970-01-01. `Date.dayNumber` counts days
year by year and month by month; `Date.ofDayNumber` finds the date of a day by cycles of four
hundred years that start in March, so that a leap day is the last day of its year.
-/

namespace PartitionedTable

/-- A day of the calendar; years before the first count down through zero. -/
structure Date where
  year : Int
  month : Nat
  day : Nat
deriving DecidableEq, Repr

namespace Date

/-- Whether a year has a twenty-ninth of February. -/
def isLeap (year : Int) : Bool :=
  year % 4 == 0 && (year % 100 != 0 || year % 400 == 0)

/-- The lengths of the months, January first. -/
def monthLengths (leap : Bool) : List Nat :=
  [31, if leap then 29 else 28, 31, 30, 31, 30, 31, 31, 30, 31, 30, 31]

/-- Days from the start of the year one to the start of `year`. -/
def daysBeforeYear (year : Int) : Int :=
  365 * (year - 1) + (year - 1) / 4 - (year - 1) / 100 + (year - 1) / 400

/-- The number of a day, 1970-01-01 being day zero. -/
def dayNumber (date : Date) : Int :=
  daysBeforeYear date.year - daysBeforeYear 1970
    + ((monthLengths (isLeap date.year)).take (date.month - 1)).foldl Nat.add 0 + date.day - 1

/-- Days from the first of March of the year zero to 1970-01-01. -/
def epochFromMarch : Int := 719468

/-- Days in four hundred years. -/
def cycleDays : Nat := 146097

/-- The date of a day, 1970-01-01 being day zero. -/
def ofDayNumber (number : Int) : Date :=
  let shifted := number + epochFromMarch
  let cycle := shifted / cycleDays
  let dayOfCycle := (shifted % cycleDays).toNat
  let yearOfCycle :=
    (dayOfCycle - dayOfCycle / 1460 + dayOfCycle / 36524 - dayOfCycle / 146096) / 365
  let dayOfYear := dayOfCycle - (365 * yearOfCycle + yearOfCycle / 4 - yearOfCycle / 100)
  let monthFromMarch := (5 * dayOfYear + 2) / 153
  let day := dayOfYear - (153 * monthFromMarch + 2) / 5 + 1
  let month := if monthFromMarch < 10 then monthFromMarch + 3 else monthFromMarch - 9
  let year := (yearOfCycle : Int) + cycle * 400
  { year := if month ≤ 2 then year + 1 else year, month, day }

example : ofDayNumber 0 = ⟨1970, 1, 1⟩ ∧ ofDayNumber (-1) = ⟨1969, 12, 31⟩ := by decide

example : ofDayNumber 11016 = ⟨2000, 2, 29⟩ ∧ dayNumber ⟨2000, 2, 29⟩ = 11016 := by decide

example : ofDayNumber (-719528) = ⟨0, 1, 1⟩ ∧ dayNumber ⟨0, 1, 1⟩ = -719528 := by decide

end Date

end PartitionedTable
