import PartitionedTable.ListingOptions
import PartitionedTable.Text.Numeral

/-!
Settings read from named variables. Every setting has a variable and a default, and variables of
other names do not matter. The first variable, in the order of the settings, whose text does not
fit its setting makes the reading fail.
-/

namespace PartitionedTable

/-- Named texts, such as those of a process environment; the first of a name counts. -/
abbrev Variables := List (String × String)

/-- What a process is told about the table it works on. -/
structure Settings where
  logLevel : String := "info"
  tablePath : String := "./data/table"
  inBucket : Bool := false
  bucket : Option String := none
  assumeDatePartitioning : Bool := false
  parallelism : Nat := 1500
deriving DecidableEq, Repr, Inhabited

/-- Settings cannot be read when the text of a variable does not fit. -/
inductive SettingsError where
  | unreadable (variableName : String)
deriving DecidableEq, Repr

namespace SettingsError

/-- The text of a failure. -/
def message : SettingsError → String
  | .unreadable variableName => "Failed to parse environment variable " ++ variableName

/-- A failure as it is shown in last words, by its kind and what it holds. -/
def term : SettingsError → String
  | .unreadable variableName => "ParseError \x7b name: \"" ++ variableName ++ "\" \x7d"

end SettingsError

namespace Settings

/-- The variable of each setting. -/
def logLevelVariable : String := "LAKEMETA_LOG_LEVEL"

@[inherit_doc logLevelVariable] def tablePathVariable : String := "LAKEMETA_TABLE_PATH"

@[inherit_doc logLevelVariable] def inBucketVariable : String := "LAKEMETA_S3_TABLE"

@[inherit_doc logLevelVariable] def bucketVariable : String := "LAKEMETA_S3_BUCKET"

@[inherit_doc logLevelVariable] def assumeVariable : String := "LAKEMETA_ASSUME_DATE_PARTITIONING"

@[inherit_doc logLevelVariable] def parallelismVariable : String := "LAKEMETA_LISTING_PARALLELISM"

/-- A truth value is spelled in one way. -/
def truth? (text : String) : Option Bool :=
  if text = "true" then some true else if text = "false" then some false else none

/-- The value of a variable, `standard` if it is not set. -/
def read {α : Type} (environment : Variables) (variableName : String)
    (parse : String → Option α) (standard : α) : Except SettingsError α :=
  match environment.lookup variableName with
  | none => .ok standard
  | some text => match parse text with
    | some value => .ok value
    | none => .error (.unreadable variableName)

/-- The settings that `environment` gives. -/
def ofVariables (environment : Variables) : Except SettingsError Settings := do
  let standard : Settings := {}
  let inBucket ← read environment inBucketVariable truth? standard.inBucket
  let assume ← read environment assumeVariable truth? standard.assumeDatePartitioning
  let parallelism ← read environment parallelismVariable Text.word? standard.parallelism
  return {
    logLevel := (environment.lookup logLevelVariable).getD standard.logLevel
    tablePath := (environment.lookup tablePathVariable).getD standard.tablePath
    inBucket
    bucket := environment.lookup bucketVariable
    assumeDatePartitioning := assume
    parallelism }

/-- How the table is listed according to the settings. -/
def options (settings : Settings) : ListingOptions :=
  { assumeDatePartitioning := settings.assumeDatePartitioning
    parallelism := settings.parallelism }

end Settings

end PartitionedTable
