import PartitionedTable.Table

/-!
Finding the partitions of a table. With markers, a walk in rounds classifies every directory of the
current frontier: one that carries a marker is a partition and is not entered, any other hands its
child directories to the next round, the bookkeeping directory left out. Without markers, the
partitions are the directories exactly three levels below the root.
-/

namespace PartitionedTable

namespace Table

variable {μ : Type}

/-- A directory to classify, with the caller's spelling of where the walk to it began. -/
structure Visit where
  directory : Path
  spelling : String
deriving DecidableEq, Repr

/-- What classifying a directory yields: a partition, by its name under the root, or a directory
that is still to be classified. -/
inductive Finding where
  | partition (name : String)
  | descend (visit : Visit)
deriving DecidableEq, Repr

namespace Finding

/-- The partition of a finding. -/
def partition? : Finding → Option String
  | .partition name => some name
  | .descend _ => none

/-- The visit of a finding. -/
def visit? : Finding → Option Visit
  | .partition _ => none
  | .descend visit => some visit

end Finding

/-- The name of a directory under the table's root. -/
def partitionName (table : Table μ) (directory : Path) : Job μ String :=
  match Path.relativeName? table.root directory with
  | some name => return name
  | none => Work.fail (.outside directory)

/-- Where a walk starts for each spelling. -/
def seeds (table : Table μ) (spellings : List String) : List Visit :=
  spellings.map fun spelling => { directory := Path.resolve table.root spelling, spelling }

/-- Makes sure that a walk starts at a directory that exists. The root always does. -/
def checkSeed (table : Table μ) (seed : Visit) : Job μ Unit := do
  if seed.directory = table.root then return ()
  let present ← (table.store.directoryExists seed.directory).mapError (.listing seed.spelling)
  if present then return ()
  else Work.fail (.listing seed.spelling (.notFound seed.directory))

/-- Classifies one directory. -/
def classify (table : Table μ) (visit : Visit) : Job μ (List Finding) := do
  let marked ← (table.store.hasMarker visit.directory).mapError (.listing visit.spelling)
  if marked then
    let name ← table.partitionName visit.directory
    return [.partition name]
  else
    let children ← (table.store.directoriesIn visit.directory Layout.isBookkeeping).mapError
      (.listing visit.spelling)
    return children.map fun directory => .descend { directory, spelling := visit.spelling }

/-- What is reported while partitions below `spellings` are searched. -/
def searchStatus (spellings : List String) : String :=
  "Listing all partitions with prefix " ++ ", ".intercalate spellings

/-- One round of a walk: the directories classified in it, and what classifying them yielded. -/
structure Round where
  frontier : List Visit
  findings : List Finding
deriving DecidableEq, Repr

namespace Round

/-- The partitions found in a round. -/
def partitions (round : Round) : List String := round.findings.filterMap Finding.partition?

/-- The directories that the next round classifies. -/
def next (round : Round) : List Visit := round.findings.filterMap Finding.visit?

end Round

/-- The rounds of the walk that starts with `frontier`, of which there may be `limit`. A round ends
the walk when it leaves nothing to classify. `number` counts the batches of the operation. -/
def walk (table : Table μ) (status : String) :
    (limit number : Nat) → (frontier : List Visit) → Job μ (List Round)
  | _, _, [] => return []
  | 0, _, _ :: _ => Work.fail .unfinished
  | limit + 1, number, visit :: others => do
      announce status
      let findings ← table.batchFlat number table.classify (visit :: others)
      let round : Round := { frontier := visit :: others, findings }
      let later ← table.walk status limit (number + 1) round.next
      return round :: later

/-- The rounds of the walk that starts at the spelled directories. Fails if a spelling names no
directory, before any directory is classified. -/
def search (table : Table μ) (spellings : List String) : Job μ (List Round) := do
  if spellings.isEmpty then return []
  let seeds := table.seeds spellings
  let _ ← table.batch 0 table.checkSeed seeds
  table.walk (searchStatus spellings) table.rounds 1 seeds

/-- The partitions at or below the spelled directories, each once. -/
def partitionsBelow (table : Table μ) (spellings : List String) : Job μ (List String) := do
  let rounds ← table.search spellings
  return (rounds.flatMap Round.partitions).eraseDups

/-- How many levels below the root the partitions of a table partitioned by date lie. -/
def dateDepth : Nat := 3

/-- The child directories of a directory; a failure is told under the directory's own name. -/
def childrenByName (table : Table μ) (directory : Path) : Job μ (List Path) :=
  (table.store.directoriesIn directory Layout.isBookkeeping).mapError
    (.listing ((Path.relativeName? table.root directory).getD directory.text))

/-- The directories `levels` levels below those of `frontier`. -/
def descendants (table : Table μ) :
    (levels number : Nat) → (frontier : List Path) → Job μ (List Path)
  | 0, _, frontier => return frontier
  | _ + 1, _, [] => return []
  | levels + 1, number, directory :: others => do
      let children ← table.batchFlat number table.childrenByName (directory :: others)
      table.descendants levels (number + 1) children

/-- The directories three levels below the root, each once; markers play no part. -/
def datePartitions (table : Table μ) : Job μ (List String) := do
  announce "Listing date partitions three levels down"
  let directories ← table.descendants dateDepth 0 [table.root]
  let names ← directories.mapM table.partitionName
  return names.eraseDups

/-- All partitions of the table. -/
def partitions (table : Table μ) : Job μ (List String) :=
  if table.options.assumeDatePartitioning then table.datePartitions
  else table.partitionsBelow [""]

end Table

end PartitionedTable
