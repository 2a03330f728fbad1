import PartitionedTable.FileEntry
import PartitionedTable.Store.Error
import PartitionedTable.Work

/-!
Stores and the world they are used in. A store answers two calls: `head` finds one file by its
exact path, and `list` gives the files and the directories directly inside a directory. A store may
remember something between calls; a store that does not is made by `Store.stateless` from two
functions of the path. The world around it records the calls made and the last status reported.
-/

namespace PartitionedTable

/-- What lies directly inside a directory. -/
structure Listing where
  directories : List Path
  files : List FileEntry
deriving DecidableEq, Repr

/-- Whether there is nothing inside. -/
def Listing.isEmpty (listing : Listing) : Bool :=
  listing.directories.isEmpty && listing.files.isEmpty

/-- How a store answers its two calls; `μ` is what it remembers between them. -/
structure Store (μ : Type) where
  head : Path → Work μ StoreError Unit
  list : Path → Work μ StoreError Listing

namespace Store

/-- The store whose answers depend on the path alone. -/
def stateless (head : Path → Outcome StoreError Unit) (list : Path → Outcome StoreError Listing) :
    Store Unit :=
  { head := fun path memory => (head path, memory)
    list := fun path memory => (list path, memory) }

end Store

/-- What a listing is asked for: the directories to go on with, the files to report, or only
whether there is anything. -/
inductive Purpose where
  | children
  | files
  | existence
deriving DecidableEq, Repr

/-- A call made to a store. The store itself is not told the purpose of a listing. -/
inductive Call where
  | head (path : Path)
  | list (path : Path) (purpose : Purpose)
deriving DecidableEq, Repr

/-- What is reported about the job under way: who works, and on what. -/
structure JobStatus where
  component : String
  description : String
deriving DecidableEq, Repr

/-- What work on a table acts on: the store's memory, the calls made so far in order, and the
status reported last. -/
structure World (μ : Type) where
  memory : μ
  calls : List Call := []
  status : Option JobStatus := none

namespace World

variable {μ : Type}

/-- Reports a status, in place of the one before. -/
def report (status : JobStatus) (world : World μ) : World μ :=
  { world with status := some status }

/-- Makes a call, on record. -/
def call {α : Type} (made : Call) (answer : Work μ StoreError α) :
    Work (World μ) StoreError α := fun world =>
  let (outcome, memory) := answer world.memory
  (outcome, { world with memory, calls := world.calls ++ [made] })

end World

namespace Store

variable {μ : Type}

/-- Asks the store for one file, on record. -/
def callHead (store : Store μ) (path : Path) : Work (World μ) StoreError Unit :=
  World.call (.head path) (store.head path)

/-- Asks the store for a listing, on record. -/
def callList (store : Store μ) (path : Path) (purpose : Purpose) :
    Work (World μ) StoreError Listing :=
  World.call (.list path purpose) (store.list path)

end Store

end PartitionedTable
