import PartitionedTable.Table.Error

/-!
Questions to the index of a table's metadata. A table that is answered by listing its storage has no
index, so it supports none of them; each question is refused under its own name.
-/

namespace PartitionedTable

/-- The parts of a table's metadata. -/
inductive MetadataPart where
  | files
  | columnStats
  | bloomFilters
  | recordIndex
deriving DecidableEq, Repr

/-- A file as the index knows it: the partition's name and the file's. -/
structure IndexedFile where
  partition : String
  file : String
deriving DecidableEq, Repr

/-- A question to the index. -/
inductive IndexQuery where
  | bloomFilter (file : IndexedFile)
  | bloomFilters (files : List IndexedFile)
  | columnStats (files : List IndexedFile) (column : String)
  | recordsByKeyPrefixes (keyPrefixes : List String) (partition : String) (inMemory : Bool)
  | recordIndex (keys : List String)
  | fileGroupCount (part : MetadataPart)
  | syncedInstantTime
  | latestCompactionTime
deriving DecidableEq, Repr

namespace IndexQuery

/-- The name under which a question is asked and refused. -/
def operation : IndexQuery → String
  | .bloomFilter _ => "get_bloom_filter"
  | .bloomFilters _ => "get_bloom_filters"
  | .columnStats _ _ => "get_column_stats"
  | .recordsByKeyPrefixes _ _ _ => "get_records_by_key_prefixes"
  | .recordIndex _ => "read_record_index"
  | .fileGroupCount _ => "get_num_file_groups_for_partition"
  | .syncedInstantTime => "get_synced_instant_time"
  | .latestCompactionTime => "get_latest_compaction_time"

/-- Why a table without an index does not answer. -/
def refusal (query : IndexQuery) : TableError := .unsupported query.operation

end IndexQuery

end PartitionedTable
