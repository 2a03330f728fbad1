import PartitionedTable.Layout.LogFile

/-!
Naming conventions of a table on storage. The table's root holds the bookkeeping directory next to
the partition directories. A partition is a directory that carries a marker file; its data files
and log files lie directly inside it.
-/

namespace PartitionedTable.Layout

/-- The directory under the root that holds the table's own records. -/
def bookkeepingName : String := ".hoodie"

/-- The names of the file that marks a directory as a partition, in the order they are tried. -/
def markerNames : List String :=
  [".hoodie_partition_metadata", ".hoodie_partition_metadata.parquet",
   ".hoodie_partition_metadata.orc"]

/-- Whether a directory of this name is the bookkeeping directory. -/
def isBookkeeping (name : String) : Bool := name == bookkeepingName

/-- Whether a file of this name marks its directory as a partition. -/
def isMarker (name : String) : Bool := markerNames.contains name

/-- Whether a file of this name is a log file. -/
def isLogFile (name : String) : Bool := isLogName name.toList

/-- Whether a file of this name, found in a partition, holds table data. Hidden files and files
set aside with an underscore are not data, except for log files, which are hidden by convention. -/
def isDataFile (name : String) : Bool :=
  if name.isEmpty || isMarker name then false
  else if name.toList.head? = some '.' then isLogFile name
  else name.toList.head? != some '_'

end PartitionedTable.Layout
