import PartitionedTable.Proofs.Calendar
import PartitionedTable.Proofs.Numerals
import PartitionedTable.Proofs.Printed

/-!
The time of a file is shown whole. A point in time is one date and one time of day, these have one text,
and the text is read back as the same point in time: for years of any size and sign, for fractions of any
length and for leap seconds. No tab is part of the text, so it is also found at the end of a printed line.
-/

namespace PartitionedTable

/-- A date and a time of day. A leap second is the second numbered sixty. -/
structure DateTime where
  date : Date
  hour : Nat
  minute : Nat
  second : Nat
  nanosecond : Nat
deriving DecidableEq, Repr

namespace DateTime

open Text Instant

/-- The calendar has such a day, and the day such a time. Any minute may have a leap second. -/
structure InCalendar (time : DateTime) : Prop where
  date : time.date.InCalendar
  hour : time.hour < 24
  minute : time.minute < 60
  second : time.second ≤ 60
  nanosecond : time.nanosecond < billion

/-- The point in time: a leap second lengthens the second before it. -/
def instant (time : DateTime) : Instant where
  seconds := time.date.dayNumber * secondsPerDay + time.hour * 3600 + time.minute * 60
    + min time.second 59
  nanoseconds := time.nanosecond + if time.second = 60 then billion else 0

/-- The date and the time of day of a point in time. -/
def ofInstant (instant : Instant) : DateTime :=
  let inDay := (instant.seconds % secondsPerDay).toNat
  { date := Date.ofDayNumber (instant.seconds / secondsPerDay)
    hour := inDay / 3600
    minute := inDay / 60 % 60
    second := inDay % 60 + instant.nanoseconds / billion
    nanosecond := instant.nanoseconds % billion }

section Instants

variable {moment : Instant} (valid : moment.Valid)
include valid

theorem inCalendar_ofInstant : (ofInstant moment).InCalendar := by
  simp only [Valid, billion] at valid
  refine ⟨Date.ofDayNumber_inCalendar _, ?_, ?_, ?_, ?_⟩
  · simp only [ofInstant, secondsPerDay]
    omega
  · simp only [ofInstant]
    omega
  · simp only [ofInstant, secondsPerDay, billion]
    omega
  · exact Nat.mod_lt _ (by decide)

/-- A point in time is told by its date and its time of day. -/
theorem instant_ofInstant : (ofInstant moment).instant = moment := by
  obtain ⟨seconds, nanoseconds⟩ := moment
  simp only [Valid, billion] at valid
  unfold instant
  split_ifs with leap
  · simp only [ofInstant, Date.dayNumber_ofDayNumber, secondsPerDay, billion, Instant.mk.injEq] at leap ⊢
    omega
  · simp only [ofInstant, Date.dayNumber_ofDayNumber, secondsPerDay, billion, Instant.mk.injEq] at leap ⊢
    omega

end Instants

/-- A date and a time of day are found from their point in time. -/
theorem ofInstant_instant {time : DateTime} (real : time.InCalendar) : ofInstant time.instant = time := by
  obtain ⟨date, hour, minute, second, nanosecond⟩ := time
  obtain ⟨dated, hours, minutes, seconds, nanoseconds⟩ := real
  dsimp only at dated hours minutes seconds nanoseconds
  -- A leap second adds no second to the day, so the seconds of the day stay below those of a day.
  let inDay := hour * 3600 + minute * 60 + min second 59
  have located : (inDay : Int) + secondsPerDay * date.dayNumber
      = date.dayNumber * secondsPerDay + hour * 3600 + minute * 60 + min second 59 := by
    simp only [inDay]
    push_cast
    ring
  have inDay_lt : (inDay : Int) < secondsPerDay := by
    simp only [inDay, secondsPerDay]
    omega
  obtain ⟨quotient, remainder⟩ := (Int.ediv_emod_unique (by decide)).mpr
    ⟨located, Int.natCast_nonneg inDay, inDay_lt⟩
  simp only [ofInstant, instant, quotient, remainder, Int.toNat_natCast,
    Date.ofDayNumber_dayNumber dated, mk.injEq, true_and]
  simp only [billion, inDay] at nanoseconds ⊢
  refine ⟨?_, ?_, ?_, ?_⟩
  · omega
  · omega
  · split_ifs <;> omega
  · split_ifs <;> omega

/-! The text of a date and a time of day -/

/-- The text is a year: at least four digits, and a sign outside of 0 to 9999. -/
def WritesYear (year : Int) (text : List Char) : Prop :=
  ∃ digits, NumeralFrom 4 digits year.natAbs
    ∧ text = (if 0 ≤ year ∧ year ≤ 9999 then [] else if 0 ≤ year then ['+'] else ['-']) ++ digits

/-- So many digits tell a fraction of a second exactly, and no fewer of none, three, six and nine do. -/
def FewestPlaces (nanosecond places : Nat) : Prop :=
  places ∈ [0, 3, 6, 9] ∧ 10 ^ (9 - places) ∣ nanosecond
    ∧ ∀ fewer ∈ [0, 3, 6, 9], 10 ^ (9 - fewer) ∣ nanosecond → places ≤ fewer

/-- The text is a fraction of a second with its point, or nothing if it is a whole second. -/
def WritesFraction (nanosecond : Nat) (text : List Char) : Prop :=
  ∃ places, FewestPlaces nanosecond places
    ∧ if places = 0 then text = []
      else ∃ digits, Numeral places digits (nanosecond / 10 ^ (9 - places)) ∧ text = '.' :: digits

/-- The text is the date and the time of day, in UTC. -/
def Writes (time : DateTime) (text : List Char) : Prop :=
  ∃ year month day hour minute second fraction,
    WritesYear time.date.year year ∧ Numeral 2 month time.date.month ∧ Numeral 2 day time.date.day
      ∧ Numeral 2 hour time.hour ∧ Numeral 2 minute time.minute ∧ Numeral 2 second time.second
      ∧ WritesFraction time.nanosecond fraction
      ∧ text = year ++ '-' :: month ++ '-' :: day ++ 'T' :: hour ++ ':' :: minute ++ ':' :: second
        ++ fraction ++ "+00:00".toList

theorem writesYear_iff {year : Int} {text : List Char} : WritesYear year text ↔ text = yearText year := by
  simp only [WritesYear, numeralFrom_iff (by decide : 0 < 4), exists_eq_left, yearText]
  split_ifs with short nonneg
  · have same : year.natAbs = year.toNat := by omega
    rw [same, List.nil_append]
  · rfl
  · rfl

theorem FewestPlaces.unique {nanosecond places places' : Nat} (fewest : FewestPlaces nanosecond places)
    (fewest' : FewestPlaces nanosecond places') : places = places' :=
  le_antisymm (fewest.2.2 places' fewest'.1 fewest'.2.1) (fewest'.2.2 places fewest.1 fewest.2.1)

/-- How many digits a fraction of a second is written with. -/
def fractionPlaces (nanosecond : Nat) : Nat :=
  if nanosecond = 0 then 0
  else if nanosecond % 1000000 = 0 then 3
  else if nanosecond % 1000 = 0 then 6
  else 9

theorem fractionText_eq (nanosecond : Nat) :
    fractionText nanosecond = if fractionPlaces nanosecond = 0 then []
      else '.' :: padded (fractionPlaces nanosecond) (nanosecond / 10 ^ (9 - fractionPlaces nanosecond)) := by
  unfold fractionText fractionPlaces
  split_ifs <;> simp_all

section Fractions

variable {nanosecond : Nat} (small : nanosecond < billion)
include small

theorem fewestPlaces_fractionPlaces : FewestPlaces nanosecond (fractionPlaces nanosecond) := by
  unfold billion at small
  unfold FewestPlaces fractionPlaces
  simp only [List.forall_mem_cons, Nat.dvd_iff_mod_eq_zero]
  split_ifs with whole milli micro
  · simp [whole]
  · simp [milli]
    omega
  · simp [micro]
    omega
  · simp
    omega

theorem writesFraction_iff {text : List Char} :
    WritesFraction nanosecond text ↔ text = fractionText nanosecond := by
  have fewest := fewestPlaces_fractionPlaces small
  have only (places : Nat) : FewestPlaces nanosecond places ↔ places = fractionPlaces nanosecond :=
    ⟨fun other => other.unique fewest, fun same => same ▸ fewest⟩
  simp only [WritesFraction, only, exists_eq_left, fractionText_eq]
  by_cases whole : fractionPlaces nanosecond = 0
  · rw [if_pos whole, if_pos whole]
  · rw [if_neg whole, if_neg whole]
    have room : nanosecond / 10 ^ (9 - fractionPlaces nanosecond) < 10 ^ fractionPlaces nanosecond := by
      have places : fractionPlaces nanosecond ≤ 9 := by
        unfold fractionPlaces
        split_ifs <;> omega
      apply Nat.div_lt_of_lt_mul
      rwa [← Nat.pow_add, Nat.sub_add_cancel places]
    simp only [numeral_iff (Nat.pos_of_ne_zero whole), room, true_and, exists_eq_left]

end Fractions

/-- The text of a date and a time of day. -/
def characters (time : DateTime) : List Char :=
  yearText time.date.year ++ '-' :: padded 2 time.date.month ++ '-' :: padded 2 time.date.day
    ++ 'T' :: padded 2 time.hour ++ ':' :: padded 2 time.minute ++ ':' :: padded 2 time.second
    ++ fractionText time.nanosecond ++ "+00:00".toList

theorem characters_ofInstant (moment : Instant) : (ofInstant moment).characters = moment.characters := rfl

/-- A date and a time of day that the calendar has are written in one way only. -/
theorem writes_iff {time : DateTime} (real : time.InCalendar) {text : List Char} :
    time.Writes text ↔ text = time.characters := by
  have two {value : Nat} (small : value < 10 ^ 2) (text : List Char) :
      Numeral 2 text value ↔ text = padded 2 value := by
    rw [numeral_iff (by decide), and_iff_right small]
  have month : time.date.month < 10 ^ 2 := real.date.month_le.trans_lt (by decide)
  have day : time.date.day < 10 ^ 2 := real.date.day_le_longest.trans_lt (by decide)
  have hour : time.hour < 10 ^ 2 := real.hour.trans (by decide)
  have minute : time.minute < 10 ^ 2 := real.minute.trans (by decide)
  have second : time.second < 10 ^ 2 := real.second.trans_lt (by decide)
  simp only [Writes, writesYear_iff, two month, two day, two hour, two minute, two second,
    writesFraction_iff real.nanosecond, exists_and_left, exists_eq_left]
  rfl

/-! Reading the text -/

theorem readYear_cons {c : Char} (digit : c.isDigit = true) (text : List Char) :
    readYear (c :: text) = (readNumber (c :: text)).map fun (year, rest) => ((year : Int), rest) := by
  unfold readYear
  split
  · rename_i same
    cases same
    cases digit
  · rename_i same
    cases same
    cases digit
  · rfl

theorem readFraction_cons {mark : Char} (noPoint : mark ≠ '.') (rest : List Char) :
    readFraction (mark :: rest) = some (0, mark :: rest) := by
  unfold readFraction
  split
  · rename_i same
    cases same
    exact absurd rfl noPoint
  · rfl

section Reading

/-! What is read ends where a character comes that is no digit. -/

variable {mark : Char} (stop : ¬ mark.isDigit = true) (rest : List Char)
include stop

theorem readNumber_append {width value : Nat} {text : List Char} (numeral : Numeral width text value) :
    readNumber (text ++ mark :: rest) = some (value, mark :: rest) := by
  have digits := numeral.isDigit
  rw [readNumber, List.takeWhile_append_of_pos digits, List.dropWhile_append_of_pos digits,
    List.takeWhile_cons_of_neg stop, List.dropWhile_cons_of_neg stop, List.append_nil,
    numeral.number?_eq, Option.map_some]

theorem readAfter_append (before : Char) {width value : Nat} {text : List Char}
    (numeral : Numeral width text value) :
    readAfter before (before :: (text ++ mark :: rest)) = some (value, mark :: rest) := by
  rw [readAfter, if_pos rfl, readNumber_append stop rest numeral]

theorem readYear_append {year : Int} {text : List Char} (written : WritesYear year text) :
    readYear (text ++ mark :: rest) = some (year, mark :: rest) := by
  obtain ⟨digits, ⟨width, numeral, least, -⟩, rfl⟩ := written
  have read := readNumber_append stop rest numeral
  split_ifs with short nonneg
  · have first := numeral.isDigit
    have filled := numeral.length_eq
    cases digits with
    | nil =>
        rw [List.length_nil] at filled
        omega
    | cons c digits =>
        rw [List.nil_append, List.cons_append, readYear_cons (first c List.mem_cons_self),
          ← List.cons_append, read]
        simp only [Option.map_some, Int.natAbs_of_nonneg short.1]
  · simp only [List.cons_append, List.nil_append, readYear, read, Option.map_some,
      Int.natAbs_of_nonneg nonneg]
  · simp only [List.cons_append, List.nil_append, readYear, read, Option.map_some,
      Int.ofNat_natAbs_of_nonpos (Int.le_of_not_le nonneg), Int.neg_neg]

theorem readFraction_append (noPoint : mark ≠ '.') {nanosecond : Nat} (small : nanosecond < billion)
    {text : List Char} (written : WritesFraction nanosecond text) :
    readFraction (text ++ mark :: rest) = some (nanosecond, mark :: rest) := by
  obtain ⟨places, ⟨-, exact, -⟩, written⟩ := written
  split_ifs at written with whole
  · subst whole written
    have none : nanosecond = 0 := Nat.eq_zero_of_dvd_of_lt exact small
    rw [List.nil_append, readFraction_cons noPoint, none]
  · obtain ⟨digits, numeral, rfl⟩ := written
    have length : (digits ++ mark :: rest).length - (mark :: rest).length = places := by
      rw [List.length_append, Nat.add_sub_cancel, numeral.length_eq]
    rw [List.cons_append, readFraction, readNumber_append stop rest numeral]
    simp only [Option.map_some, length, Nat.pow_eq, Nat.div_mul_cancel exact]

/-- A fraction begins with its point, and where there is none the text goes on behind it. -/
theorem WritesFraction.exists_mark {nanosecond : Nat} {text : List Char}
    (written : WritesFraction nanosecond text) :
    ∃ mark' rest', text ++ mark :: rest = mark' :: rest' ∧ ¬ mark'.isDigit = true := by
  obtain ⟨places, -, written⟩ := written
  split_ifs at written with whole
  · subst written
    exact ⟨mark, rest, rfl, stop⟩
  · obtain ⟨digits, -, rfl⟩ := written
    exact ⟨'.', digits ++ mark :: rest, rfl, by decide⟩

end Reading

/-- A text is read as the point in time of the date and the time of day that it writes. -/
theorem ofCharacters?_of_writes {time : DateTime} (real : time.InCalendar) {text : List Char}
    (written : time.Writes text) : ofCharacters? text = some time.instant := by
  obtain ⟨year, month, day, hour, minute, second, fraction, years, months, days, hours, minutes,
    seconds, fractions, rfl⟩ := written
  have dash : ¬ '-'.isDigit = true := by decide
  have colon : ¬ ':'.isDigit = true := by decide
  have letter : ¬ 'T'.isDigit = true := by decide
  have plus : ¬ '+'.isDigit = true := by decide
  have zone : "+00:00".toList = '+' :: "00:00".toList := rfl
  -- The seconds end at the point of the fraction, or at the sign of the zone if there is none.
  obtain ⟨mark, rest, same, stop⟩ := fractions.exists_mark plus "00:00".toList
  have ending := readAfter_append stop rest ':' seconds
  rw [← same] at ending
  have bound := real.second
  have early : time.second - time.second / 60 = min time.second 59 := by omega
  have late : time.second / 60 * billion = if time.second = 60 then billion else 0 := by
    split_ifs with leap
    · rw [leap]
      rfl
    · rw [Nat.div_eq_of_lt (by omega), Nat.zero_mul]
  simp only [List.append_assoc, List.cons_append, zone]
  simp only [ofCharacters?, Option.bind_eq_bind, Option.bind_some, readYear_append dash _ years,
    readAfter_append dash _ '-' months, readAfter_append letter _ '-' days,
    readAfter_append colon _ 'T' hours, readAfter_append colon _ ':' minutes, ending,
    readFraction_append plus _ (by decide) real.nanosecond fractions, zone, if_true, early, late]
  rfl

end DateTime

/-- The text of a point in time is read back. -/
theorem Instant.ofText?_text {instant : Instant} (valid : instant.Valid) :
    ofText? instant.text = some instant := by
  have real := DateTime.inCalendar_ofInstant valid
  have read := DateTime.ofCharacters?_of_writes real ((DateTime.writes_iff real).mpr rfl)
  rw [DateTime.characters_ofInstant, DateTime.instant_ofInstant valid] at read
  rwa [ofText?, text, String.toList_ofList]

namespace CommandLine

/-- The time that stands behind the last tab of a line. -/
def timeOfLine? (line : String) : Option Instant :=
  (Text.fields '\t' line.toList).getLast?.bind Instant.ofCharacters?

theorem timeOfLine?_fileLine {entry : FileEntry} (valid : entry.modified.Valid) (spelling : String) :
    timeOfLine? (fileLine spelling entry) = some entry.modified := by
  have whole : '\t' ∉ entry.modified.text.toList :=
    entry.modified.not_mem_text (by decide) (by decide)
  have cut : (fileLine spelling entry).toList
      = (spelling.toList ++ '\t' :: entry.name.toList ++ '\t' :: (toString entry.size).toList)
        ++ '\t' :: entry.modified.text.toList := by
    rw [fileLine, String.toList_intercalate]
    simp [List.intercalate]
  have read := Instant.ofText?_text valid
  rw [Instant.ofText?] at read
  rw [timeOfLine?, cut, Text.fields_append_cons, Text.fields_of_not_mem whole, List.getLast?_concat,
    Option.bind_some, read]

/-- The shown time loses nothing. The time of a file is written as a date and a time of day of the calendar,
and as no other point in time; reading it back gives the seconds and nanoseconds of the file, from the text
alone and from the end of a printed line, however the partition is spelled and whatever the file is called.
So two files show the same text only if they were changed at the same time, and the same line too. -/
theorem shown_time_loses_nothing {entry : FileEntry} (valid : entry.modified.Valid) :
    (∃ time : DateTime, time.InCalendar ∧ time.Writes entry.modified.text.toList)
      ∧ (∀ time : DateTime, time.InCalendar →
        (time.Writes entry.modified.text.toList ↔ time.instant = entry.modified))
      ∧ Instant.ofText? entry.modified.text = some entry.modified
      ∧ (∀ spelling, timeOfLine? (fileLine spelling entry) = some entry.modified)
      ∧ ∀ other : FileEntry, other.modified.Valid →
        (other.modified.text = entry.modified.text → other.modified = entry.modified)
          ∧ ∀ spelling spelling', fileLine spelling other = fileLine spelling' entry →
            other.modified = entry.modified := by
  have real := DateTime.inCalendar_ofInstant valid
  have instant := DateTime.instant_ofInstant valid
  have written : (DateTime.ofInstant entry.modified).Writes entry.modified.text.toList := by
    rw [DateTime.writes_iff real, DateTime.characters_ofInstant, Instant.text, String.toList_ofList]
  have back := Instant.ofText?_text valid
  refine ⟨⟨_, real, written⟩, ?_, back, timeOfLine?_fileLine valid, ?_⟩
  · intro time real'
    constructor
    · intro written'
      have read := DateTime.ofCharacters?_of_writes real' written'
      have read' := DateTime.ofCharacters?_of_writes real written
      rw [instant] at read'
      exact Option.some.inj (read.symm.trans read')
    · intro same
      rw [← same, DateTime.ofInstant_instant real', same] at written
      exact written
  · intro other valid'
    constructor
    · intro same
      have back' := Instant.ofText?_text valid'
      rw [same, back] at back'
      exact (Option.some.inj back').symm
    · intro spelling spelling' same
      have line' := timeOfLine?_fileLine valid' spelling
      rw [same, timeOfLine?_fileLine valid spelling'] at line'
      exact (Option.some.inj line').symm

/-- A leap second is told from the second after it, and a name with a tab does no harm. -/
theorem shown_time_loses_nothing_leap_second :
    let leap : Instant := ⟨78796799, 1500000000⟩
    let after : Instant := ⟨78796800, 500000000⟩
    let time : DateTime := ⟨⟨1972, 6, 30⟩, 23, 59, 60, 500000000⟩
    let entry : FileEntry := { location := ⟨["c"]⟩, size := 8, modified := leap }
    let tabbed : FileEntry := { location := ⟨["b\tc"]⟩, size := 8, modified := leap }
    let later : FileEntry := { entry with modified := after }
    leap.Valid ∧ after.Valid ∧ time.InCalendar ∧ time.Writes leap.text.toList
      ∧ leap.text = "1972-06-30T23:59:60.500+00:00"
      ∧ Instant.ofText? "1972-06-30T23:59:60.500+00:00" = some leap
      ∧ timeOfLine? "a\tc\t8\t1972-06-30T23:59:60.500+00:00" = some leap
      ∧ fileLine "a" tabbed = fileLine "a\tb" entry ∧ tabbed.modified = entry.modified
      ∧ fileLine "a" later ≠ fileLine "a" entry := by
  intro leap after time entry tabbed later
  have valid : entry.modified.Valid := .inr ⟨by decide, by decide⟩
  have valid' : later.modified.Valid := .inl (by decide)
  have real : time.InCalendar := ⟨⟨by decide, by decide, by decide, by decide⟩, by decide, by decide,
    by decide, by decide⟩
  have shown : leap.text = "1972-06-30T23:59:60.500+00:00" := by decide +kernel
  have line : fileLine "a" entry = "a\tc\t8\t1972-06-30T23:59:60.500+00:00" := by decide +kernel
  have same : fileLine "a" tabbed = fileLine "a\tb" entry := by decide +kernel
  obtain ⟨-, writes, back, told, others⟩ := shown_time_loses_nothing valid
  refine ⟨valid, valid', real, (writes time real).mpr (by decide), shown, shown ▸ back, ?_, same, ?_, ?_⟩
  · rw [← line]
    exact told "a"
  · exact (others tabbed valid).2 "a" "a\tb" same
  · intro equal
    exact absurd ((others later valid').2 "a" "a" equal) (by decide)

end CommandLine

end PartitionedTable
