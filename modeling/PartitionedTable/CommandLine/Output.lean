import PartitionedTable.Table.Error

/-!
What a run of the command line writes: a line for every partition, a line for every data file, and
for a failure its text followed by the texts of everything that lies behind it. A log of the work and
the frame around the last words of a crash are not part of it.
-/

namespace PartitionedTable.CommandLine

/-- A finished run: its exit code and what it wrote. -/
structure Output where
  exitCode : Nat
  standardOutput : String := ""
  standardError : String := ""
deriving DecidableEq, Repr

/-- Lines, each ended by a line break. -/
def lines (texts : List String) : String := String.join (texts.map (· ++ "\n"))

/-- Texts in the order of their UTF-8 bytes. -/
def sortedTexts (texts : List String) : List String :=
  texts.mergeSort (fun left right => decide (left ≤ right))

/-- The partitions found, one to a line. -/
def partitionLines (partitions : List String) : String := lines (sortedTexts partitions)

/-- The line for a data file of a partition. -/
def fileLine (spelling : String) (entry : FileEntry) : String :=
  "\t".intercalate [spelling, entry.name, toString entry.size, entry.modified.text]

/-- The data files of partitions: partition by partition, in each by location. -/
def fileLines (manifests : List (String × List FileEntry)) : String :=
  let ordered := manifests.mergeSort (fun left right => decide (left.1 ≤ right.1))
  lines (ordered.flatMap fun (spelling, entries) =>
    (FileEntry.sorted entries).map (fileLine spelling))

/-- A text of several lines, the lines after the first one moved to the right. -/
def indented (indentation : String) (text : String) : String :=
  ("\n" ++ indentation).intercalate ((Text.fields '\n' text.toList).map String.ofList)

/-- One of several causes, with its number. -/
def numberedCause (cause : String) (number : Nat) : String :=
  let label := String.ofList ((Nat.toDigits 10 number).leftpad 5 ' ')
  label ++ ": " ++ indented "       " cause

/-- The causes of a failure, numbered if there is more than one. -/
def causeLines : List String → String
  | [] => ""
  | [cause] => "\n\nCaused by:\n    " ++ indented "    " cause
  | causes => "\n\nCaused by:\n" ++ "\n".intercalate (causes.zipIdx.map fun (cause, number) =>
      numberedCause cause number)

/-- A failure and its causes. -/
def failureText (message : String) (causes : List String) : String :=
  "Error: " ++ message ++ causeLines causes ++ "\n"

/-- A run that failed. -/
def Output.failure (message : String) (causes : List String) : Output :=
  { exitCode := 1, standardError := failureText message causes }

end PartitionedTable.CommandLine
