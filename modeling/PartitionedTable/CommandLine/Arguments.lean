/-!
The arguments of the command line. Some options may stand before the command's name or after it,
others belong to one command. A value is attached with `=`, stands behind a short option, or is the
next argument, which then must not look like an option. Arguments are read from left to right and
the first thing that is wrong, or asks for the version or for help, decides. Help can be asked for by
an option or, before the command's name, by a word of its own that names what it is about.
-/

namespace PartitionedTable.CommandLine

/-- The commands by name. -/
inductive CommandName where
  | partitions
  | files
deriving DecidableEq, Repr

namespace CommandName

/-- All commands, in the order in which they are told. -/
def all : List CommandName := [partitions, files]

/-- How a command is called. -/
def text : CommandName → String
  | partitions => "partitions"
  | files => "files"

/-- The command that is called so. -/
def named? (text : String) : Option CommandName := all.find? (·.text == text)

end CommandName

/-- The word that asks for help in place of a command's name. -/
def helpWord : String := "help"

/-- A command with the directories it is about, as spelled. -/
structure Command where
  name : CommandName
  spellings : List String
deriving DecidableEq, Repr

/-- What a run is told by its arguments. -/
structure Invocation where
  command : Command
  parallelism : Option Nat := none
  assumeDatePartitioning : Bool := false
deriving DecidableEq, Repr

/-- What help can be asked about: the program, one of its commands, or help itself. -/
inductive Topic where
  | program
  | command (name : CommandName)
  | help
deriving DecidableEq, Repr

/-- What the arguments ask for. -/
inductive Request where
  | run (invocation : Invocation)
  | version
  | help (topic : Topic)
deriving DecidableEq, Repr

/-- Options without a value. -/
inductive Switch where
  | verbose
  | quiet
  | assumeDatePartitioning
  | version
  | help
deriving DecidableEq, Repr

/-- Options with a value. -/
inductive Setting where
  | parallelism
  | spelling
deriving DecidableEq, Repr

/-- An option. -/
inductive Flag where
  | switch (which : Switch)
  | setting (which : Setting)
deriving DecidableEq, Repr

/-- An option as it is offered: its names, without dashes, what a text of help puts behind them, and
what it is for. -/
structure Offer where
  flag : Flag
  letter : Option Char := none
  name : String
  suffix : String := ""
  purpose : String
deriving DecidableEq, Repr

namespace Offer

/-- How much is told about the work. -/
def verbose : Offer :=
  { flag := .switch .verbose, letter := some 'v', name := "verbose", suffix := "..."
    purpose := "Increase verbosity (-v, -vv). Use -q to quiet" }

@[inherit_doc verbose] def quiet : Offer :=
  { flag := .switch .quiet, letter := some 'q', name := "quiet"
    purpose := "Only log errors. Overrides -v" }

/-- How many listings run at once. -/
def parallelism : Offer :=
  { flag := .setting .parallelism, letter := some 'p', name := "parallelism"
    suffix := " <PARALLELISM>", purpose := "Maximum number of directories listed concurrently" }

/-- Where a search for partitions starts. -/
def startingPoint : Offer :=
  { flag := .setting .spelling, name := "prefix", suffix := " <PREFIX>"
    purpose := "Relative path prefix to search below. Repeatable." }

/-- Which directories are partitions. -/
def assumeDatePartitioning : Offer :=
  { flag := .switch .assumeDatePartitioning, name := "assume-date-partitioning"
    purpose := "Treat every directory three levels below the root as a partition" }

/-- Which partitions are listed. -/
def partition : Offer :=
  { flag := .setting .spelling, name := "partition", suffix := " <PARTITION>"
    purpose := "Relative partition path. Repeatable." }

/-- What is told instead of working. -/
def help : Offer :=
  { flag := .switch .help, letter := some 'h', name := "help", purpose := "Print help" }

@[inherit_doc help] def version : Offer :=
  { flag := .switch .version, letter := some 'V', name := "version", purpose := "Print version" }

end Offer

/-- The options offered before the command's name (`none`) or after it. Those of a command stand
between those it shares with all others. -/
def offers : Option CommandName → List Offer
  | none => [.verbose, .quiet, .parallelism, .help, .version]
  | some .partitions =>
      [.startingPoint, .verbose, .assumeDatePartitioning, .quiet, .parallelism, .help]
  | some .files => [.partition, .verbose, .quiet, .parallelism, .help]

/-- The option of a long name, before the command's name (`none`) or after it. -/
def longFlag? (place : Option CommandName) (name : String) : Option Flag :=
  ((offers place).find? (·.name == name)).map Offer.flag

/-- The option of a short name, before the command's name (`none`) or after it. -/
def shortFlag? (place : Option CommandName) (letter : Char) : Option Flag :=
  ((offers place).find? (·.letter == some letter)).map Offer.flag

/-- Options offered in one place share neither a name nor a letter, so a name leads to one option. -/
example : ∀ place ∈ [none, some .partitions, some .files],
    ((offers place).map Offer.name).Nodup ∧ ((offers place).filterMap Offer.letter).Nodup := by
  decide

/-- What help is asked about by the words behind the one for help. -/
def Topic.named? : List String → Option Topic
  | [] => some .program
  | [word] => if word = helpWord then some .help else (CommandName.named? word).map .command
  | _ => none

/-- What help given as an option is about, before the command's name (`none`) or after it. -/
def Topic.ofPlace : Option CommandName → Topic
  | none => .program
  | some name => .command name

end PartitionedTable.CommandLine
