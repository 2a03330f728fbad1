import Mathlib.Algebra.Order.Ring.Int
import PartitionedTable.Instant.Calendar

/-!
Every number is that of one day of the calendar. Counting a day by years and months and finding it by
cycles that start in March are inverse to each other, for years before the first as well: the cycles
find every date of the calendar from its number, and going from day to day, forward and backward, the
dates of the calendar use up all numbers.
-/

namespace PartitionedTable

namespace Date

/-- How many days a month has. -/
def monthLength (leap : Bool) (month : Nat) : Nat := (monthLengths leap).getD (month - 1) 0

/-- Days from the start of a year to the start of one of its months. -/
def daysBeforeMonth (leap : Bool) (month : Nat) : Nat :=
  ((monthLengths leap).take (month - 1)).foldl Nat.add 0

/-- The calendar has such a day. -/
structure InCalendar (date : Date) : Prop where
  month_pos : 1 ≤ date.month
  month_le : date.month ≤ 12
  day_pos : 1 ≤ date.day
  day_le : date.day ≤ monthLength (isLeap date.year) date.month

theorem isLeap_iff {year : Int} :
    isLeap year = true ↔ year % 4 = 0 ∧ (year % 100 ≠ 0 ∨ year % 400 = 0) := by
  simp [isLeap]

theorem dayNumber_eq (date : Date) :
    dayNumber date = daysBeforeYear date.year - daysBeforeYear 1970
      + daysBeforeMonth (isLeap date.year) date.month + date.day - 1 := rfl

theorem daysBeforeMonth_succ (leap : Bool) {month : Nat} (pos : 1 ≤ month) (le : month ≤ 12) :
    daysBeforeMonth leap (month + 1) = daysBeforeMonth leap month + monthLength leap month := by
  have table : ∀ month ≤ 12, 1 ≤ month → ∀ leap, daysBeforeMonth leap (month + 1)
      = daysBeforeMonth leap month + monthLength leap month := by decide
  exact table month le pos leap

theorem monthLength_bounds (leap : Bool) {month : Nat} (pos : 1 ≤ month) (le : month ≤ 12) :
    28 ≤ monthLength leap month ∧ monthLength leap month ≤ 31 := by
  have table : ∀ month ≤ 12, 1 ≤ month → ∀ leap,
      28 ≤ monthLength leap month ∧ monthLength leap month ≤ 31 := by decide
  exact table month le pos leap

theorem InCalendar.day_le_longest {date : Date} (real : date.InCalendar) : date.day ≤ 31 :=
  real.day_le.trans (monthLength_bounds _ real.month_pos real.month_le).2

/-- Every month has a first day. -/
theorem inCalendar_first (year : Int) {month : Nat} (pos : 1 ≤ month) (le : month ≤ 12) :
    InCalendar ⟨year, month, 1⟩ := by
  have filled := (monthLength_bounds (isLeap year) pos le).1
  exact ⟨pos, le, le_rfl, by dsimp only; omega⟩

/-- Every month has a last day. -/
theorem inCalendar_last (year : Int) {month : Nat} (pos : 1 ≤ month) (le : month ≤ 12) :
    InCalendar ⟨year, month, monthLength (isLeap year) month⟩ := by
  have filled := (monthLength_bounds (isLeap year) pos le).1
  exact ⟨pos, le, by dsimp only; omega, le_rfl⟩

/-- A year is over when a thirteenth month would begin. -/
theorem daysBeforeMonth_thirteen (leap : Bool) :
    daysBeforeMonth leap 13 = if leap then 366 else 365 := by
  cases leap <;> rfl

theorem daysBeforeYear_succ (year : Int) :
    daysBeforeYear (year + 1) = daysBeforeYear year + daysBeforeMonth (isLeap year) 13 := by
  simp only [daysBeforeYear, daysBeforeMonth_thirteen, isLeap_iff]
  split <;> omega

/-! From day to day -/

/-- The day after. -/
def next (date : Date) : Date :=
  if date.day < monthLength (isLeap date.year) date.month then { date with day := date.day + 1 }
  else if date.month < 12 then ⟨date.year, date.month + 1, 1⟩
  else ⟨date.year + 1, 1, 1⟩

theorem InCalendar.next {date : Date} (real : date.InCalendar) : date.next.InCalendar := by
  unfold Date.next
  split_ifs with inMonth inYear
  · exact ⟨real.month_pos, real.month_le, Nat.le_add_left 1 _, inMonth⟩
  · exact inCalendar_first date.year (Nat.le_add_left 1 _) inYear
  · exact inCalendar_first (date.year + 1) le_rfl (Nat.le_add_left 1 11)

theorem dayNumber_next {date : Date} (real : date.InCalendar) :
    dayNumber date.next = dayNumber date + 1 := by
  obtain ⟨year, month, day⟩ := date
  obtain ⟨month_pos, month_le, day_pos, day_le⟩ := real
  have onward := daysBeforeMonth_succ (isLeap year) month_pos month_le
  unfold Date.next
  dsimp only at onward month_pos month_le day_pos day_le ⊢
  split_ifs with inMonth inYear
  · simp only [dayNumber_eq]
    omega
  · simp only [dayNumber_eq]
    omega
  · obtain rfl : month = 12 := by omega
    have december : daysBeforeMonth (isLeap year) 13
        = daysBeforeMonth (isLeap year) 12 + monthLength (isLeap year) 12 := onward
    have january : daysBeforeMonth (isLeap (year + 1)) 1 = 0 := rfl
    simp only [dayNumber_eq, daysBeforeYear_succ, january]
    omega

/-- Every day of the calendar follows another one. -/
theorem InCalendar.exists_previous {date : Date} (real : date.InCalendar) :
    ∃ before : Date, before.InCalendar ∧ before.next = date := by
  obtain ⟨year, month, day⟩ := date
  obtain ⟨month_pos, month_le, day_pos, day_le⟩ := real
  dsimp only at month_pos month_le day_pos day_le
  by_cases firstDay : day = 1
  · subst firstDay
    by_cases firstMonth : month = 1
    · subst firstMonth
      refine ⟨_, inCalendar_last (year - 1) (Nat.le_add_left 1 11) le_rfl, ?_⟩
      simp [Date.next]
    · have inYear : month - 1 < 12 := by omega
      refine ⟨_, inCalendar_last year (by omega) inYear.le, ?_⟩
      simp [Date.next, inYear, Nat.sub_add_cancel month_pos]
  · have inMonth : day - 1 < monthLength (isLeap year) month := by omega
    refine ⟨⟨year, month, day - 1⟩, ⟨month_pos, month_le, by dsimp only; omega, inMonth.le⟩, ?_⟩
    simp [Date.next, inMonth, Nat.sub_add_cancel day_pos]

/-- Every number is that of a day, which is reached from 1970-01-01 day by day. -/
theorem exists_dayNumber_eq (number : Int) : ∃ date : Date, date.InCalendar ∧ dayNumber date = number := by
  induction number with
  | zero => exact ⟨⟨1970, 1, 1⟩, inCalendar_first 1970 le_rfl (by decide), by decide⟩
  | succ number ih =>
      obtain ⟨date, real, numbered⟩ := ih
      exact ⟨date.next, real.next, by rw [dayNumber_next real, numbered]⟩
  | pred number ih =>
      obtain ⟨date, real, numbered⟩ := ih
      obtain ⟨before, real', rfl⟩ := real.exists_previous
      have step := dayNumber_next real'
      exact ⟨before, real', by omega⟩

/-! Years that start in March -/

/-- Days from the first of March of the year zero to that of another year. -/
def daysBeforeMarch (year : Int) : Int := 365 * year + year / 4 - year / 100 + year / 400

/-- The year that a date is in if years start in March. -/
def marchYear (date : Date) : Int := if date.month ≤ 2 then date.year - 1 else date.year

/-- The month that a date is in if March counts as zero and February as eleven. -/
def marchMonth (date : Date) : Nat := if date.month ≤ 2 then date.month + 9 else date.month - 3

/-- Days from the last first of March to a date. -/
def dayOfMarchYear (date : Date) : Nat := (153 * date.marchMonth + 2) / 5 + date.day - 1

/-- The date of a day of a year that starts in March. -/
def ofMarch (year : Int) (dayOfYear : Nat) : Date :=
  let monthFromMarch := (5 * dayOfYear + 2) / 153
  let month := if monthFromMarch < 10 then monthFromMarch + 3 else monthFromMarch - 9
  { year := if month ≤ 2 then year + 1 else year, month
    day := dayOfYear - (153 * monthFromMarch + 2) / 5 + 1 }

section March

variable {date : Date} (real : date.InCalendar)
include real

theorem dayNumber_add_epochFromMarch :
    dayNumber date + epochFromMarch = daysBeforeMarch date.marchYear + date.dayOfMarchYear := by
  obtain ⟨year, month, day⟩ := date
  obtain ⟨month_pos, month_le, day_pos, -⟩ := real
  dsimp only at month_pos month_le day_pos
  have year1970 : daysBeforeYear 1970 = 719162 := by decide
  simp only [dayNumber_eq, marchYear, marchMonth, dayOfMarchYear, epochFromMarch, year1970]
  by_cases early : month ≤ 2
  · have table : ∀ month ≤ 2, 1 ≤ month → ∀ leap,
        daysBeforeMonth leap month + 306 = (153 * (month + 9) + 2) / 5 := by decide
    have before := table month early month_pos (isLeap year)
    simp only [if_pos early, daysBeforeYear, daysBeforeMarch]
    omega
  · -- From March on the days of the year depend on its length, so they are counted back from its end.
    have table : ∀ month ≤ 12, 2 < month → ∀ leap, daysBeforeMonth leap month + 306
        = (153 * (month - 3) + 2) / 5 + daysBeforeMonth leap 13 := by decide
    have before := table month month_le (Nat.lt_of_not_le early) (isLeap year)
    have onward := daysBeforeYear_succ year
    simp only [daysBeforeYear, Int.add_sub_cancel] at onward
    simp only [if_neg early, daysBeforeYear, daysBeforeMarch]
    omega

/-- The months of a year that starts in March fit between their first days. -/
theorem dayOfMarchYear_bounds :
    (153 * date.marchMonth + 2) / 5 ≤ date.dayOfMarchYear
      ∧ date.dayOfMarchYear < (153 * (date.marchMonth + 1) + 2) / 5 := by
  obtain ⟨year, month, day⟩ := date
  obtain ⟨month_pos, month_le, day_pos, day_le⟩ := real
  have table : ∀ month ≤ 12, 1 ≤ month → ∀ leap, monthLength leap month
      + (153 * (if month ≤ 2 then month + 9 else month - 3) + 2) / 5
      ≤ (153 * ((if month ≤ 2 then month + 9 else month - 3) + 1) + 2) / 5 := by decide
  have room := table month month_le month_pos (isLeap year)
  dsimp only at day_pos day_le
  simp only [dayOfMarchYear, marchMonth]
  omega

/-- The leap day is the last one of a year that starts in March. -/
theorem dayOfMarchYear_lt :
    date.dayOfMarchYear < daysBeforeMonth (isLeap (date.marchYear + 1)) 13 := by
  obtain ⟨year, month, day⟩ := date
  obtain ⟨month_pos, month_le, day_pos, day_le⟩ := real
  dsimp only at month_pos month_le day_pos day_le
  simp only [dayOfMarchYear, marchMonth, marchYear]
  by_cases early : month ≤ 2
  · have table : ∀ month ≤ 2, 1 ≤ month → ∀ leap,
        monthLength leap month + (153 * (month + 9) + 2) / 5 ≤ daysBeforeMonth leap 13 := by decide
    have room := table month early month_pos (isLeap year)
    rw [if_pos early, if_pos early, Int.sub_add_cancel]
    omega
  · have table : ∀ month ≤ 12, 2 < month → ∀ leap leap',
        monthLength leap month + (153 * (month - 3) + 2) / 5 ≤ daysBeforeMonth leap' 13 := by decide
    have room := table month month_le (Nat.lt_of_not_le early) (isLeap year) (isLeap (year + 1))
    rw [if_neg early, if_neg early]
    omega

theorem ofMarch_dayOfMarchYear : ofMarch date.marchYear date.dayOfMarchYear = date := by
  obtain ⟨low, high⟩ := dayOfMarchYear_bounds real
  have month : (5 * date.dayOfMarchYear + 2) / 153 = date.marchMonth := by omega
  have day : date.dayOfMarchYear - (153 * date.marchMonth + 2) / 5 + 1 = date.day := by
    have day_pos := real.day_pos
    unfold dayOfMarchYear
    omega
  unfold ofMarch
  simp only [month, day]
  obtain ⟨year, month, day⟩ := date
  obtain ⟨month_pos, month_le, -, -⟩ := real
  dsimp only at month_pos month_le
  simp only [marchMonth, marchYear, mk.injEq, and_true]
  constructor
  · split_ifs <;> omega
  · split_ifs <;> omega

end March

/-! Cycles of four hundred years -/

/-- The year of a cycle that a day of the cycle is in. -/
def yearOfCycle (dayOfCycle : Nat) : Nat :=
  (dayOfCycle - dayOfCycle / 1460 + dayOfCycle / 36524 - dayOfCycle / 146096) / 365

theorem ofDayNumber_eq (number : Int) :
    ofDayNumber number
      = let shifted := number + epochFromMarch
        let dayOfCycle := (shifted % cycleDays).toNat
        let year := yearOfCycle dayOfCycle
        ofMarch (year + shifted / cycleDays * 400)
          (dayOfCycle - (365 * year + year / 4 - year / 100)) := rfl

/-- The last century of a cycle is a day longer than the others. -/
theorem centuryOfCycle_eq {century dayOfCentury : Nat} (centuries : century < 4)
    (days : dayOfCentury < 36524 ∨ dayOfCentury = 36524 ∧ century = 3) :
    (36524 * century + dayOfCentury) / 36524
      = century + (36524 * century + dayOfCentury) / 146096 := by
  rcases days with inside | ⟨rfl, rfl⟩
  · have notLast : 36524 * century + dayOfCentury < 146096 := by omega
    rw [Nat.div_eq_of_lt notLast, Nat.mul_add_div (by decide), Nat.div_eq_of_lt inside]
  · decide

/-- A cycle has four centuries and a century twenty-five times four years, the last of which may have a
leap day at its end; only in the last century do the last four years have one too. -/
theorem yearOfCycle_eq {century four year dayOfYear : Nat} (centuries : century < 4) (fours : four < 25)
    (years : year < 4)
    (days : dayOfYear ≤ 364 ∨ dayOfYear = 365 ∧ year = 3 ∧ (four < 24 ∨ century = 3)) :
    yearOfCycle (36524 * century + (1461 * four + 365 * year + dayOfYear))
      = 100 * century + 4 * four + year := by
  have inCentury : 1461 * four + 365 * year + dayOfYear < 36524
      ∨ 1461 * four + 365 * year + dayOfYear = 36524 ∧ century = 3 := by omega
  have ofCenturies := centuryOfCycle_eq centuries inCentury
  generalize located : 36524 * century + (1461 * four + 365 * year + dayOfYear) = day at *
  -- Dividing by 1460 counts the leap days up to this year, and its own one some days too early.
  generalize extra : (24 * century + four + 365 * year + dayOfYear) / 1460 = early
  have ofFours : day / 1460 = 25 * century + four + early := by omega
  have inYear : early ≤ dayOfYear ∧ dayOfYear - early < 365 := by omega
  have shrunk : day - day / 1460 + day / 36524 - day / 146096
      = 365 * (100 * century + 4 * four + year) + (dayOfYear - early) := by
    rw [ofFours, ofCenturies, ← located]
    omega
  unfold yearOfCycle
  rw [shrunk, Nat.mul_add_div (by decide), Nat.div_eq_of_lt inYear.2, Nat.add_zero]

/-- A day counted from the start of a year of the cycle is found in that year, if the year has it. -/
theorem yearOfCycle_of_march {year dayOfYear : Nat} (small : year < 400)
    (days : dayOfYear ≤ 364 ∨ dayOfYear = 365 ∧ year % 4 = 3 ∧ (year % 100 ≠ 99 ∨ year = 399)) :
    yearOfCycle (365 * year + year / 4 - year / 100 + dayOfYear) = year := by
  have located : 365 * year + year / 4 - year / 100 + dayOfYear
      = 36524 * (year / 100) + (1461 * (year % 100 / 4) + 365 * (year % 4) + dayOfYear) := by omega
  rw [located, yearOfCycle_eq (by omega) (by omega) (by omega) (by omega)]
  omega

/-- A day counted from the first of March of a year is found in that year, if the year has it. -/
theorem ofDayNumber_of_march {year : Int} {dayOfYear : Nat}
    (inYear : dayOfYear < daysBeforeMonth (isLeap (year + 1)) 13) :
    ofDayNumber (daysBeforeMarch year + dayOfYear - epochFromMarch) = ofMarch year dayOfYear := by
  obtain ⟨cycle, past, rfl, small⟩ : ∃ (cycle : Int) (past : Nat), year = past + cycle * 400 ∧ past < 400 :=
    ⟨year / 400, (year % 400).toNat, by omega, by omega⟩
  have days : dayOfYear ≤ 364 ∨ dayOfYear = 365 ∧ past % 4 = 3 ∧ (past % 100 ≠ 99 ∨ past = 399) := by
    rw [daysBeforeMonth_thirteen] at inYear
    simp only [isLeap_iff] at inYear
    split at inYear <;> omega
  let dayOfCycle := 365 * past + past / 4 - past / 100 + dayOfYear
  have located : dayOfCycle + cycleDays * cycle = daysBeforeMarch (past + cycle * 400) + dayOfYear := by
    unfold daysBeforeMarch cycleDays
    omega
  have inCycle : (dayOfCycle : Int) < cycleDays := by
    unfold cycleDays
    omega
  obtain ⟨quotient, remainder⟩ := (Int.ediv_emod_unique (by decide)).mpr
    ⟨located, Int.natCast_nonneg dayOfCycle, inCycle⟩
  have found : yearOfCycle dayOfCycle = past := yearOfCycle_of_march small days
  have rest : dayOfCycle - (365 * past + past / 4 - past / 100) = dayOfYear :=
    Nat.add_sub_cancel_left _ _
  rw [ofDayNumber_eq, Int.sub_add_cancel]
  dsimp only
  rw [quotient, remainder, Int.toNat_natCast, found, rest]

/-- The date of a day is found from its number. -/
theorem ofDayNumber_dayNumber {date : Date} (real : date.InCalendar) :
    ofDayNumber (dayNumber date) = date := by
  have counted := dayNumber_add_epochFromMarch real
  rw [eq_sub_of_add_eq counted, ofDayNumber_of_march (dayOfMarchYear_lt real),
    ofMarch_dayOfMarchYear real]

theorem ofDayNumber_inCalendar (number : Int) : (ofDayNumber number).InCalendar := by
  obtain ⟨date, real, rfl⟩ := exists_dayNumber_eq number
  rw [ofDayNumber_dayNumber real]
  exact real

/-- The date that is found for a number has that number. -/
theorem dayNumber_ofDayNumber (number : Int) : dayNumber (ofDayNumber number) = number := by
  obtain ⟨date, real, rfl⟩ := exists_dayNumber_eq number
  rw [ofDayNumber_dayNumber real]

end Date

end PartitionedTable
