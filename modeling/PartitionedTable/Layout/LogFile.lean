import PartitionedTable.Text.DecimalDigit

/-!
Names of log files. A log file is called
`.<file id>_<base instant>.log.<version>[_<write token>][.cdc]`, with `archive` in place of `log`
once it is archived. `LogName` holds the pieces and writes the name; `isLogName` recognises names.
The pieces may themselves hold `_`, `.` and even `.log.`, so one name can have several readings;
the recogniser asks whether there is any.
-/

namespace PartitionedTable.Layout

open Text

/-- The write token of a log file: three numbers that name the attempt that wrote it. -/
structure WriteToken where
  partition : List Char
  stage : List Char
  attempt : List Char

/-- The pieces of a log file's name. -/
structure LogName where
  fileId : List Char
  instant : List Char
  archived : Bool
  version : List Char
  token : Option WriteToken
  changes : Bool

/-- A non-empty run of decimal digits of any scripts. -/
def IsNumber (digits : List Char) : Prop :=
  digits ≠ [] ∧ ∀ c ∈ digits, isDecimalDigit c = true

/-- Three numbers. -/
def WriteToken.WellFormed (token : WriteToken) : Prop :=
  IsNumber token.partition ∧ IsNumber token.stage ∧ IsNumber token.attempt

/-- What the pieces may hold: one line each, a file id that is not empty, and numbers. -/
def LogName.WellFormed (name : LogName) : Prop :=
  name.fileId ≠ [] ∧ '\n' ∉ name.fileId ∧ '\n' ∉ name.instant ∧ IsNumber name.version
    ∧ ∀ token, name.token = some token → token.WellFormed

/-- The token as it stands in a name, after an underscore. -/
def WriteToken.text (token : WriteToken) : List Char :=
  '_' :: token.partition ++ '-' :: token.stage ++ '-' :: token.attempt

/-- The word that tells a live log from an archived one. -/
def kindText (archived : Bool) : List Char :=
  if archived then "archive".toList else "log".toList

/-- The name that the pieces make. -/
def LogName.text (name : LogName) : List Char :=
  '.' :: name.fileId ++ '_' :: name.instant ++ '.' :: kindText name.archived
    ++ '.' :: name.version ++ (name.token.map WriteToken.text).getD []
    ++ (if name.changes then ".cdc".toList else [])

/-- What follows the longest run of digits at the front, if there is at least one digit. -/
def afterNumber : List Char → Option (List Char)
  | c :: rest => if isDecimalDigit c then some (rest.dropWhile isDecimalDigit) else none
  | [] => none

/-- What follows a write token at the front. -/
def afterToken (text : List Char) : Option (List Char) := do
  let rest ← ['_'].isPrefixOf? text
  let rest ← afterNumber rest
  let rest ← ['-'].isPrefixOf? rest
  let rest ← afterNumber rest
  let rest ← ['-'].isPrefixOf? rest
  afterNumber rest

/-- Whether nothing is left but the mark of a change log. -/
def isChangeMark (text : List Char) : Bool := text.isEmpty || text == ".cdc".toList

/-- Whether `text` is a version with what may follow it up to the end of the name. -/
def isVersionTail (text : List Char) : Bool :=
  match afterNumber text with
  | none => false
  | some rest =>
      isChangeMark rest || match afterToken rest with
        | none => false
        | some rest => isChangeMark rest

/-- Whether `text` runs from the dot before the kind to the end of a log file's name. -/
def isKindTail (text : List Char) : Bool :=
  [false, true].any fun archived =>
    match ('.' :: kindText archived ++ ['.']).isPrefixOf? text with
    | none => false
    | some rest => isVersionTail rest

/-- Whether `text` can be cut into the rest of one line and a tail that starts at the kind, with
an underscore before the cut; `seen` tells that one was passed already. -/
def hasCut (seen : Bool) : List Char → Bool
  | [] => false
  | c :: rest =>
      (seen && isKindTail (c :: rest)) || (c != '\n' && hasCut (seen || c == '_') rest)

/-- Whether `name` is the name of a log file. The character after the leading dot belongs to the
file id whatever it is, since the id is not empty. -/
def isLogName : List Char → Bool
  | '.' :: c :: rest => c != '\n' && hasCut false rest
  | _ => false

end PartitionedTable.Layout
