import PartitionedTable.Engine
import PartitionedTable.ListingOptions
import PartitionedTable.Path.Resolve
import PartitionedTable.Table.Error

/-!
A table on a store: where it lies, how it is listed, and in which order the tasks of its listings
happen to finish. Every round of listings is one batch of tasks; a crash inside a batch is the
error `TableError.taskFailed`.
-/

namespace PartitionedTable

/-- A table on a store. `rounds` bounds how long a walk through its directories may take; `order`
gives, for every batch of an operation, the order in which its tasks finish. -/
structure Table (μ : Type) where
  store : Store μ
  root : Path := Path.top
  options : ListingOptions := {}
  rounds : Nat
  order : Nat → Engine.Order := fun _ => Engine.oldestFirst

namespace Table

variable {μ ι ο : Type}

/-- Work on a table. -/
abbrev Job (μ α : Type) : Type := Work (World μ) TableError α

/-- Who reports the status of a table's jobs. -/
def component : String := "FileSystemBackedTableMetadata"

/-- Reports what the table is busy with. -/
def announce (description : String) : Job μ Unit :=
  Work.modify (World.report { component, description })

/-- Runs one batch of tasks within the table's budget. -/
def batch (table : Table μ) (number : Nat) (task : ι → Job μ ο) (items : List ι) :
    Job μ (List ο) :=
  Engine.map .taskFailed task (table.order number) (table.options.budget items.length) items

/-- Runs one batch of tasks with many outputs each. -/
def batchFlat (table : Table μ) (number : Nat) (task : ι → Job μ (List ο)) (items : List ι) :
    Job μ (List ο) :=
  Engine.flatMap .taskFailed task (table.order number) (table.options.budget items.length) items

end Table

end PartitionedTable
