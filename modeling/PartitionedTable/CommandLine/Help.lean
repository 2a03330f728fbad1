import PartitionedTable.CommandLine.Arguments
import PartitionedTable.CommandLine.Output

/-!
What the command line tells about its use. A text of help says what its topic is for and how it is
called, and then explains in two columns what can be given.
-/

namespace PartitionedTable.CommandLine

/-- The name of the program. -/
def programName : String := "lakemeta"

/-- The name of the program and its version. -/
def versionText : String := programName ++ " 0.1.0"

/-- What a command is for. -/
def CommandName.purpose : CommandName → String
  | partitions => "List partitions, optionally below the given prefixes"
  | files => "List the data files of partitions"

namespace Topic

/-- What the topic is for. -/
def purpose : Topic → String
  | program => "Inspect the partitions and files of a table"
  | command name => name.purpose
  | help => "Print this message or the help of the given subcommand(s)"

/-- What follows the program's name in a call; what has to be given is not hidden behind the options. -/
def call : Topic → String
  | program => "[OPTIONS] <COMMAND>"
  | command .partitions => CommandName.partitions.text ++ " [OPTIONS]"
  | command .files =>
      CommandName.files.text ++ " [OPTIONS] --" ++ Offer.partition.name ++ Offer.partition.suffix
  | help => helpWord ++ " [COMMAND]..."

end Topic

/-- An option as it is written, its two names below those of the other options. -/
def Offer.text (offer : Offer) : String :=
  let letter := match offer.letter with
    | none => "    "
    | some letter => "-" ++ String.singleton letter ++ ", "
  letter ++ "--" ++ offer.name ++ offer.suffix

/-- Lines of two columns, the first one as wide as its widest entry. -/
def columns (rows : List (String × String)) : List String :=
  let width := (rows.map fun (left, _) => left.length).foldl max 0
  rows.map fun (left, right) =>
    "  " ++ String.ofList (left.toList.rightpad width ' ') ++ "  " ++ right

/-- A part of a text of help: what it explains, and the explanations. -/
structure Section where
  title : String
  rows : List (String × String)

namespace Section

/-- The commands that can be given. -/
def commands : Section :=
  { title := "Commands"
    rows := CommandName.all.map (fun name => (name.text, name.purpose))
      ++ [(helpWord, Topic.help.purpose)] }

/-- The options that can be given before the command's name (`none`) or after it. -/
def options (place : Option CommandName) : Section :=
  { title := "Options", rows := (offers place).map fun offer => (offer.text, offer.purpose) }

/-- The words that can follow the one for help. -/
def topics : Section :=
  { title := "Arguments", rows := [("[COMMAND]...", "Print help for the subcommand(s)")] }

/-- The part as lines, set off by an empty one. -/
def lines (part : Section) : List String := "" :: (part.title ++ ":") :: columns part.rows

end Section

/-- What is explained about a topic. -/
def Topic.sections : Topic → List Section
  | program => [.commands, .options none]
  | command name => [.options (some name)]
  | help => [.topics]

/-- The text of help about a topic. -/
def Topic.text (topic : Topic) : String :=
  lines (topic.purpose :: "" :: ("Usage: " ++ programName ++ " " ++ topic.call)
    :: topic.sections.flatMap Section.lines)

end PartitionedTable.CommandLine
