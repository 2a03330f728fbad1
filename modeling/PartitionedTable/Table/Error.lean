import PartitionedTable.Storage

/-! Why a question about a table has no answer. -/

namespace PartitionedTable

/-- Why a question about a table has no answer. `listing` keeps the directory as the caller spelled
it; nothing partial is ever returned with it. `taskFailed` is the end of a batch in which a task
crashed, and `unfinished` that of a walk that was given too few rounds. -/
inductive TableError where
  | listing (spelling : String) (source : StorageError)
  | unsupported (operation : String)
  | opening (source : StorageError)
  | outside (path : Path)
  | taskFailed
  | unfinished
deriving DecidableEq, Repr

namespace TableError

/-- The text of a failure. `crash` is what is told of a task that crashed: which one it was, and its
last words. -/
def message (crash : String) : TableError → String
  | .listing spelling source => "Failed to list '" ++ spelling ++ "': " ++ source.message
  | .unsupported operation => "Unsupported operation: " ++ operation
  | .opening source => "Failed to open table: " ++ source.message
  | .outside path => "Path " ++ path.text ++ " is outside of the table root"
  | .taskFailed => "Engine task failed: " ++ crash
  | .unfinished => "The walk did not end within the rounds it was given"

/-- The texts of what lies behind a failure, outermost first. -/
def causes (crash : String) : TableError → List String
  | .listing _ source | .opening source => source.message :: source.causes
  | .taskFailed => [crash]
  | .unsupported _ | .outside _ | .unfinished => []

/-- Whether the table simply does not offer the operation. -/
def isUnsupported : TableError → Bool
  | .unsupported _ => true
  | _ => false

end TableError

end PartitionedTable
