import PartitionedTable.CommandLine.Help
import PartitionedTable.CommandLine.Reading
import PartitionedTable.Opening
import PartitionedTable.Table.Discovery
import PartitionedTable.Table.Listing

/-!
Runs of the command line: the arguments are read first, then the settings, then the table is opened
and asked. Nothing is written to the standard output unless everything succeeds.
-/

namespace PartitionedTable.CommandLine

/-- What a run finds outside of the program: the file system and the directory of it in which the run
is started, the buckets within reach, and the variables. Two things are said in words that are not the
program's own: what is wrong with the arguments, and what is told of a task that crashed. -/
structure Surroundings where
  tree : Tree
  here : Path
  buckets : Buckets
  environment : Variables
  complaint : List String → String
  crash : String

/-- Arguments used wrongly; `complaint` says what is wrong. -/
def wrongUsage (complaint : String) : Output := { exitCode := 2, standardError := complaint }

/-- Settings that cannot be read are a crash, with these last words. -/
def wrongSettings (error : SettingsError) : Output :=
  { exitCode := 101, standardError := lines ["Failed to load config: " ++ error.term] }

/-- A table that cannot be opened; the text tells all there is to tell. -/
def notOpened (settings : Settings) (crash : String) (error : TableError) : Output :=
  Output.failure ("Failed to open table " ++ settings.tablePath ++ ": " ++ error.message crash) []

/-- How the table is listed: what the arguments say comes before the settings. -/
def Invocation.options (invocation : Invocation) (settings : Settings) : ListingOptions :=
  { assumeDatePartitioning :=
      settings.assumeDatePartitioning || invocation.assumeDatePartitioning
    parallelism := invocation.parallelism.getD settings.parallelism }

/-- What a command writes, as work on the table. -/
def Command.perform {μ : Type} (command : Command) (table : Table μ) : Table.Job μ String :=
  match command.name with
  | .partitions =>
      if command.spellings.isEmpty then partitionLines <$> table.partitions
      else partitionLines <$> table.partitionsBelow command.spellings
  | .files => fileLines <$> table.filesOfEach command.spellings

/-- The output of a run whose command ended; `crash` is what is told of a task that crashed. -/
def Output.ofOutcome (crash : String) : Outcome TableError String → Output
  | .done text => { exitCode := 0, standardOutput := text }
  | .failed error => Output.failure (error.message crash) (error.causes crash)
  | .crashed => { exitCode := 101 }

/-- Runs a command on the table that the settings describe. -/
def Invocation.run (invocation : Invocation) (around : Surroundings) (settings : Settings)
    (order : Nat → Engine.Order) : Output :=
  match Table.opened around.buckets around.tree around.here settings with
  | .error error => notOpened settings around.crash error
  | .ok table =>
      let table := { table with options := invocation.options settings, order }
      Output.ofOutcome around.crash (invocation.command.perform table { memory := () }).1

/-- A run with these arguments. The tasks of its listings finish in the given orders. -/
def run (around : Surroundings) (arguments : List String) (order : Nat → Engine.Order) : Output :=
  match Request.ofArguments? arguments with
  | none => wrongUsage (around.complaint arguments)
  | some .version => { exitCode := 0, standardOutput := lines [versionText] }
  | some (.help topic) => { exitCode := 0, standardOutput := topic.text }
  | some (.run invocation) =>
      match Settings.ofVariables around.environment with
      | .error error => wrongSettings error
      | .ok settings => invocation.run around settings order

end PartitionedTable.CommandLine
