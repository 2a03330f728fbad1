import PartitionedTable.Table.Discovery
import PartitionedTable.Table.Index
import PartitionedTable.Table.Listing

/-!
Everything that can be asked of a table, as data. `Operation.perform` answers one operation in the
world as it is; `Table.session` answers several, one after another, in the same world.
-/

namespace PartitionedTable

/-- What can be asked of a table. The operations of the second group go to its storage directly,
with paths of the store. -/
inductive Operation where
  | partitions
  | partitionsBelow (spellings : List String)
  | files (spelling : String)
  | filesOfEach (spellings : List String)
  | query (question : IndexQuery)
  | supportsQueries
  | reset
  | close
  | directoriesIn (directory : Path) (excluded : List String)
  | hasMarker (directory : Path)
  | dataFilesIn (directory : Path)
  | directoryExists (directory : Path)
deriving DecidableEq, Repr

/-- The answer to an operation. -/
inductive Answer where
  | nothing
  | truth (value : Bool)
  | names (names : List String)
  | paths (paths : List Path)
  | entries (entries : List FileEntry)
  | manifests (manifests : List (String × List FileEntry))
deriving DecidableEq, Repr

/-- Why an operation has no answer. -/
inductive Failure where
  | table (error : TableError)
  | storage (error : StorageError)
deriving DecidableEq, Repr

namespace Operation

variable {μ : Type}

private def ofTable {α : Type} (job : Table.Job μ α) (answer : α → Answer) :
    Work (World μ) Failure Answer :=
  answer <$> job.mapError Failure.table

private def ofStorage {α : Type} (question : Work (World μ) StorageError α) (answer : α → Answer) :
    Work (World μ) Failure Answer :=
  answer <$> question.mapError Failure.storage

/-- Answers one operation. -/
def perform (table : Table μ) : Operation → Work (World μ) Failure Answer
  | partitions => ofTable table.partitions .names
  | partitionsBelow spellings => ofTable (table.partitionsBelow spellings) .names
  | files spelling => ofTable (table.files spelling) .entries
  | filesOfEach spellings => ofTable (table.filesOfEach spellings) .manifests
  | query question => Work.fail (.table question.refusal)
  | supportsQueries => return .truth false
  | reset => return .nothing
  | close => return .nothing
  | directoriesIn directory excluded =>
      ofStorage (table.store.directoriesIn directory excluded.contains) .paths
  | hasMarker directory => ofStorage (table.store.hasMarker directory) .truth
  | dataFilesIn directory => ofStorage (table.store.dataFilesIn directory) .entries
  | directoryExists directory => ofStorage (table.store.directoryExists directory) .truth

end Operation

namespace Table

variable {μ : Type}

/-- Answers operations one after another; with each answer goes the status reported last. -/
def session (table : Table μ) :
    List Operation → World μ → List (Outcome Failure Answer × Option JobStatus)
  | [], _ => []
  | operation :: others, world =>
      let (outcome, world) := operation.perform table world
      (outcome, world.status) :: table.session others world

end Table

end PartitionedTable
