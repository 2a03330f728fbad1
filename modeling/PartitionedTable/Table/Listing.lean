import PartitionedTable.Table

/-!
The data files of partitions. One partition is listed directly; several are listed in one batch,
each spelling once, and the answer is keyed by the spellings.
-/

namespace PartitionedTable

namespace Table

variable {μ : Type}

/-- The data files of one partition; a partition that does not exist has none. -/
def files (table : Table μ) (spelling : String) : Job μ (List FileEntry) :=
  (table.store.dataFilesIn (Path.resolve table.root spelling)).mapError (.listing spelling)

/-- The data files of one partition, under its spelling. -/
def manifest (table : Table μ) (spelling : String) : Job μ (String × List FileEntry) := do
  let entries ← table.files spelling
  return (spelling, entries)

/-- What is reported while `count` partitions are listed. -/
def listingStatus (count : Nat) : String :=
  "Listing all files in " ++ toString count ++ " partitions"

/-- The data files of several partitions, one entry for each distinct spelling. -/
def filesOfEach (table : Table μ) (spellings : List String) :
    Job μ (List (String × List FileEntry)) := do
  let distinct := spellings.eraseDups
  if distinct.isEmpty then return []
  announce (listingStatus distinct.length)
  table.batch 0 table.manifest distinct

end Table

end PartitionedTable
