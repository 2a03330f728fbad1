import Mathlib.Data.List.Basic
import Mathlib.Data.List.TakeWhile
import PartitionedTable.Layout

/-!
Which names hold data. The recogniser of log names is sound and complete for the names that
well-formed pieces make, however many readings a name has. Numbers are read as far as they go, which
is no restriction because nothing that may follow a number begins with a digit; only the cut before
the kind has to be searched for. A data file is then a log file or a file that is neither hidden nor
set aside.
-/

namespace PartitionedTable.Layout

open Text

/-- Text that a number in front of it does not run into. -/
def StartsNoDigit (text : List Char) : Prop := ∀ c, text.head? = some c → isDecimalDigit c = false

theorem afterNumber_eq_some_iff {text rest : List Char} :
    afterNumber text = some rest
      ↔ ∃ digits, IsNumber digits ∧ text = digits ++ rest ∧ StartsNoDigit rest := by
  constructor
  · intro read
    cases text with
    | nil => simp [afterNumber] at read
    | cons c text =>
        by_cases digit : isDecimalDigit c = true
        · simp only [afterNumber, if_pos digit, Option.some.injEq] at read
          subst read
          refine ⟨c :: text.takeWhile isDecimalDigit, ⟨List.cons_ne_nil _ _, ?_⟩, ?_, ?_⟩
          · intro other member
            rcases List.mem_cons.mp member with rfl | member
            · exact digit
            · exact List.mem_takeWhile_imp member
          · rw [List.cons_append, List.takeWhile_append_dropWhile]
          · intro other first
            have stopped := List.head?_dropWhile_not isDecimalDigit text
            rw [first] at stopped
            exact stopped
        · simp [afterNumber, digit] at read
  · rintro ⟨digits, ⟨filled, all⟩, rfl, ends⟩
    cases digits with
    | nil => exact absurd rfl filled
    | cons c digits =>
        have stopped : rest.dropWhile isDecimalDigit = rest := by
          cases rest with
          | nil => rfl
          | cons other rest => simp [ends other rfl]
        rw [List.cons_append, afterNumber, if_pos (all c List.mem_cons_self),
          List.dropWhile_append_of_pos fun other member => all other (List.mem_cons_of_mem c member),
          stopped]

theorem afterNumber_append {digits rest : List Char} (number : IsNumber digits)
    (ends : StartsNoDigit rest) : afterNumber (digits ++ rest) = some rest :=
  afterNumber_eq_some_iff.mpr ⟨digits, number, rfl, ends⟩

theorem afterToken_eq_some_iff {text rest : List Char} :
    afterToken text = some rest
      ↔ ∃ token : WriteToken, token.WellFormed ∧ text = token.text ++ rest ∧ StartsNoDigit rest := by
  constructor
  · intro read
    simp only [afterToken, Option.bind_eq_bind, Option.bind_eq_some_iff,
      List.isPrefixOf?_eq_some_iff_append_eq, afterNumber_eq_some_iff, List.singleton_append] at read
    obtain ⟨_, rfl, _, ⟨partition, first, rfl, -⟩, _, rfl, _, ⟨stage, second, rfl, -⟩, _, rfl,
      attempt, third, rfl, ends⟩ := read
    exact ⟨⟨partition, stage, attempt⟩, ⟨first, second, third⟩, by simp [WriteToken.text], ends⟩
  · rintro ⟨⟨partition, stage, attempt⟩, ⟨first, second, third⟩, rfl, ends⟩
    have dash : ∀ text, StartsNoDigit ('-' :: text) := by
      intro text c here
      obtain rfl : '-' = c := by simpa using here
      decide
    have last := afterNumber_append third ends
    have middle := afterNumber_append second (dash (attempt ++ rest))
    have front := afterNumber_append first (dash (stage ++ '-' :: (attempt ++ rest)))
    simp [afterToken, WriteToken.text, List.isPrefixOf?, front, middle, last]

/-- The mark of a change log at the end of its name; other names end without. -/
def markText (changes : Bool) : List Char := if changes then ".cdc".toList else []

theorem isChangeMark_iff {text : List Char} :
    isChangeMark text = true ↔ ∃ changes, text = markText changes := by
  simp [isChangeMark, markText]

/-- A version with all that may follow it. -/
def versionText (version : List Char) (token : Option WriteToken) (changes : Bool) : List Char :=
  version ++ (token.map WriteToken.text).getD [] ++ markText changes

theorem startsNoDigit_mark (changes : Bool) : StartsNoDigit (markText changes) := by
  intro c first
  cases changes with
  | true =>
      obtain rfl : '.' = c := by simpa [markText] using first
      decide
  | false => simp [markText] at first

theorem startsNoDigit_token (token : WriteToken) (rest : List Char) :
    StartsNoDigit (token.text ++ rest) := by
  intro c first
  obtain rfl : '_' = c := by simpa [WriteToken.text] using first
  decide

theorem isVersionTail_iff {text : List Char} :
    isVersionTail text = true
      ↔ ∃ version token changes, IsNumber version ∧ (∀ t, token = some t → WriteToken.WellFormed t)
          ∧ text = versionText version token changes := by
  constructor
  · intro accepted
    unfold isVersionTail at accepted
    split at accepted
    · cases accepted
    · rename_i rest read
      obtain ⟨version, number, rfl, -⟩ := afterNumber_eq_some_iff.mp read
      rcases Bool.or_eq_true _ _ |>.mp accepted with marked | tokened
      · obtain ⟨changes, rfl⟩ := isChangeMark_iff.mp marked
        exact ⟨version, none, changes, number, by simp, by simp [versionText]⟩
      · split at tokened
        · cases tokened
        · rename_i behind read'
          obtain ⟨token, valid, rfl, -⟩ := afterToken_eq_some_iff.mp read'
          obtain ⟨changes, rfl⟩ := isChangeMark_iff.mp tokened
          exact ⟨version, some token, changes, number, by simpa using valid, by simp [versionText]⟩
  · rintro ⟨version, token, changes, number, valid, rfl⟩
    have mark := isChangeMark_iff.mpr ⟨changes, rfl⟩
    cases token with
    | none =>
        have read := afterNumber_append number (startsNoDigit_mark changes)
        simp [isVersionTail, versionText, read, mark]
    | some token =>
        have read' := afterToken_eq_some_iff.mpr ⟨token, valid token rfl, rfl, startsNoDigit_mark changes⟩
        have read := afterNumber_append number
          (startsNoDigit_token token (markText changes))
        simp [isVersionTail, versionText, read, read', mark]

theorem isKindTail_iff {text : List Char} :
    isKindTail text = true
      ↔ ∃ archived rest, text = '.' :: kindText archived ++ '.' :: rest ∧ isVersionTail rest = true := by
  unfold isKindTail
  rw [List.any_eq_true]
  constructor
  · rintro ⟨archived, -, accepted⟩
    split at accepted
    · cases accepted
    · rename_i rest found
      rw [List.isPrefixOf?_eq_some_iff_append_eq] at found
      exact ⟨archived, rest, by simp [← found], accepted⟩
  · rintro ⟨archived, rest, rfl, accepted⟩
    have found : ('.' :: kindText archived ++ ['.']).isPrefixOf?
        ('.' :: kindText archived ++ '.' :: rest) = some rest := by
      rw [List.isPrefixOf?_eq_some_iff_append_eq]
      simp
    refine ⟨archived, by cases archived <;> simp, ?_⟩
    rw [found]
    exact accepted

/-- A cut is found exactly if there is one: what stands before it is on one line and holds an
underscore, unless one was passed already. -/
theorem hasCut_iff {seen : Bool} {text : List Char} :
    hasCut seen text = true
      ↔ ∃ front tail, text = front ++ tail ∧ '\n' ∉ front ∧ (seen = true ∨ '_' ∈ front)
          ∧ isKindTail tail = true := by
  induction text generalizing seen with
  | nil =>
      constructor
      · intro cut
        simp [hasCut] at cut
      · rintro ⟨front, tail, joined, -, -, accepted⟩
        obtain ⟨-, rfl⟩ := List.append_eq_nil_iff.mp joined.symm
        exact absurd accepted (by decide)
  | cons c text ih =>
      have passed_iff : ∀ front, ((seen || c == '_') = true ∨ '_' ∈ front)
          ↔ (seen = true ∨ '_' ∈ c :: front) := by
        intro front
        rw [Bool.or_eq_true, beq_iff_eq, @eq_comm _ c, List.mem_cons, or_assoc]
      rw [hasCut, Bool.or_eq_true, Bool.and_eq_true, Bool.and_eq_true, bne_iff_ne, ih]
      simp only [passed_iff]
      constructor
      · rintro (⟨passed, accepted⟩ | ⟨line, front, tail, rfl, clean, passed, accepted⟩)
        · exact ⟨[], c :: text, rfl, List.not_mem_nil, .inl passed, accepted⟩
        · exact ⟨c :: front, tail, rfl, List.not_mem_cons_of_ne_of_not_mem line.symm clean, passed,
            accepted⟩
      · rintro ⟨front, tail, joined, clean, passed, accepted⟩
        cases front with
        | nil =>
            obtain rfl : c :: text = tail := joined
            exact .inl ⟨by simpa using passed, accepted⟩
        | cons first front =>
            obtain ⟨rfl, rfl⟩ := List.cons.inj joined
            obtain ⟨line, clean⟩ := List.ne_and_not_mem_of_not_mem_cons clean
            exact .inr ⟨line.symm, front, tail, rfl, clean, passed, accepted⟩

/-- The name that pieces make, cut before the kind and behind the version's dot. -/
theorem LogName.text_eq (name : LogName) :
    name.text = '.' :: name.fileId ++ '_' :: name.instant ++ ('.' :: kindText name.archived
      ++ '.' :: versionText name.version name.token name.changes) := by
  simp [LogName.text, versionText, markText]

/-- The recogniser accepts exactly the names that well-formed pieces make. -/
theorem isLogName_iff {text : List Char} :
    isLogName text = true ↔ ∃ name : LogName, name.WellFormed ∧ name.text = text := by
  constructor
  · intro accepted
    unfold isLogName at accepted
    split at accepted
    · rename_i c rest
      obtain ⟨line, cut⟩ := (Bool.and_eq_true _ _).mp accepted
      obtain ⟨front, tail, rfl, clean, passed, kinded⟩ := hasCut_iff.mp cut
      obtain ⟨archived, behind, rfl, versioned⟩ := isKindTail_iff.mp kinded
      obtain ⟨version, token, changes, number, valid, rfl⟩ := isVersionTail_iff.mp versioned
      obtain ⟨before, after, rfl⟩ := List.append_of_mem (passed.resolve_left Bool.false_ne_true)
      simp only [List.mem_append, List.mem_cons, not_or] at clean
      have line' : '\n' ∉ c :: before :=
        List.not_mem_cons_of_ne_of_not_mem (bne_iff_ne.mp line).symm clean.1
      refine ⟨⟨c :: before, after, archived, version, token, changes⟩,
        ⟨List.cons_ne_nil _ _, line', clean.2.2, number, valid⟩, ?_⟩
      simp [LogName.text_eq]
    · cases accepted
  · rintro ⟨⟨fileId, instant, archived, version, token, changes⟩,
      ⟨filled, line, line', number, valid⟩, rfl⟩
    have versioned := isVersionTail_iff.mpr ⟨version, token, changes, number, valid, rfl⟩
    have kinded := isKindTail_iff.mpr ⟨archived, _, rfl, versioned⟩
    cases fileId with
    | nil => exact absurd rfl filled
    | cons c before =>
        obtain ⟨apart, clean⟩ := List.ne_and_not_mem_of_not_mem_cons line
        have clean' : '\n' ∉ before ++ '_' :: instant := by
          simp only [List.mem_append, List.mem_cons, not_or]
          exact ⟨clean, by decide, line'⟩
        rw [LogName.text_eq]
        refine (Bool.and_eq_true _ _).mpr ⟨bne_iff_ne.mpr apart.symm, hasCut_iff.mpr ?_⟩
        exact ⟨before ++ '_' :: instant, _, rfl, clean', .inr (by simp), kinded⟩

theorem isLogFile_iff {name : String} :
    isLogFile name = true
      ↔ ∃ pieces : LogName, pieces.WellFormed ∧ String.ofList pieces.text = name := by
  unfold isLogFile
  simp only [isLogName_iff, ← String.toList_inj, String.toList_ofList]

theorem head?_of_isLogFile {name : String} (log : isLogFile name = true) :
    name.toList.head? = some '.' := by
  obtain ⟨pieces, -, rfl⟩ := isLogFile_iff.mp log
  simp [LogName.text_eq]

theorem IsNumber.getLast? {digits : List Char} (number : IsNumber digits) (front : List Char) :
    ∃ c, (front ++ digits).getLast? = some c ∧ isDecimalDigit c = true := by
  obtain ⟨filled, all⟩ := number
  refine ⟨digits.getLast filled, ?_, all _ (List.getLast_mem filled)⟩
  rw [List.getLast?_append_of_ne_nil _ filled, List.getLast?_eq_some_getLast]

/-- A log name ends in the mark of a change log or in a digit. -/
theorem LogName.WellFormed.ends {name : LogName} (valid : name.WellFormed) :
    ".cdc".toList <:+ name.text
      ∨ ∃ c, name.text.getLast? = some c ∧ isDecimalDigit c = true := by
  obtain ⟨fileId, instant, archived, version, token, changes⟩ := name
  obtain ⟨-, -, -, number, tokens⟩ := valid
  cases changes with
  | true => exact .inl (List.suffix_append _ _)
  | false =>
      right
      cases token with
      | none =>
          have last := number.getLast? ('.' :: fileId ++ '_' :: instant
            ++ '.' :: kindText archived ++ ['.'])
          simpa [LogName.text] using last
      | some token =>
          have last := (tokens token rfl).2.2.getLast? ('.' :: fileId ++ '_' :: instant
            ++ '.' :: kindText archived ++ '.' :: version
            ++ '_' :: token.partition ++ '-' :: token.stage ++ ['-'])
          simpa [LogName.text, WriteToken.text] using last

/-- No log name ends like a checksum's. -/
theorem not_isLogFile_of_checksum {name : String} (checksum : ".crc".toList <:+ name.toList) :
    isLogFile name = false := by
  rw [Bool.eq_false_iff]
  intro log
  obtain ⟨pieces, valid, named⟩ := isLogName_iff.mp log
  rw [← named] at checksum
  rcases valid.ends with marked | ⟨c, last, digit⟩
  · have length : ".crc".toList.length ≤ ".cdc".toList.length := by decide
    exact absurd (List.suffix_of_suffix_length_le checksum marked length) (by decide)
  · obtain ⟨front, joined⟩ := checksum
    rw [← joined, List.getLast?_append_of_ne_nil _ (by decide)] at last
    obtain rfl : 'c' = c := Option.some.inj last
    exact absurd digit (by decide)

theorem isMarker_iff {name : String} : isMarker name = true ↔ name ∈ markerNames := by
  simp [isMarker]

/-- Markers are hidden and no log files. -/
theorem marker_hidden :
    ∀ name ∈ markerNames, name.toList.head? = some '.' ∧ isLogFile name = false := by
  decide

theorem isDataFile_iff {name : String} :
    isDataFile name = true
      ↔ isLogFile name = true
        ∨ name ≠ "" ∧ name.toList.head? ≠ some '.' ∧ name.toList.head? ≠ some '_' := by
  unfold isDataFile
  by_cases empty : name = ""
  · subst empty
    simp [isLogFile, isLogName]
  by_cases marker : isMarker name = true
  · obtain ⟨hidden, noLog⟩ := marker_hidden name (isMarker_iff.mp marker)
    simp [marker, hidden, noLog]
  · by_cases hidden : name.toList.head? = some '.'
    · simp [empty, marker, hidden]
    · have noLog : ¬ isLogFile name = true := fun log => hidden (head?_of_isLogFile log)
      simp [empty, marker, hidden, noLog]

/-- A hidden file is data only if it is a log file. -/
theorem isDataFile_of_hidden {name : String} (hidden : name.toList.head? = some '.') :
    isDataFile name = isLogFile name := by
  rw [Bool.eq_iff_iff, isDataFile_iff]
  simp [hidden]

/-- Which names are log files and which are data. A name is that of a log file exactly if well-formed
pieces make it, and of a data file exactly if it is that of a log file or neither hidden nor set aside.
So all log files are data, while markers, hidden checksums and the bookkeeping directory's name are
not. -/
theorem log_and_data_names_exact (name : String) :
    (isLogFile name = true
        ↔ ∃ pieces : LogName, pieces.WellFormed ∧ String.ofList pieces.text = name)
      ∧ (isDataFile name = true
        ↔ isLogFile name = true
          ∨ name ≠ "" ∧ name.toList.head? ≠ some '.' ∧ name.toList.head? ≠ some '_')
      ∧ (isLogFile name = true → isDataFile name = true)
      ∧ (isMarker name = true → isDataFile name = false)
      ∧ (name.toList.head? = some '.' → ".crc".toList <:+ name.toList → isDataFile name = false)
      ∧ (isBookkeeping name = true → isDataFile name = false) := by
  refine ⟨isLogFile_iff, isDataFile_iff, fun log => isDataFile_iff.mpr (.inl log), ?_, ?_, ?_⟩
  · intro marker
    obtain ⟨hidden, noLog⟩ := marker_hidden name (isMarker_iff.mp marker)
    rw [isDataFile_of_hidden hidden, noLog]
  · intro hidden checksum
    rw [isDataFile_of_hidden hidden, not_isLogFile_of_checksum checksum]
  · intro bookkeeping
    obtain rfl : name = bookkeepingName := by simpa [isBookkeeping] using bookkeeping
    decide

/-- The first `.log.` of this name stands inside the file id or the instant. -/
example : isLogFile ".a_b_c.log.1.log.2_1-2-3.cdc" = true := by decide

end PartitionedTable.Layout
