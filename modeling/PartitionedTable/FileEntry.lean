import PartitionedTable.Instant
import PartitionedTable.Path

/-! Stored files as a listing reports them. -/

namespace PartitionedTable

/-- A stored file: where it lies, how many bytes it has and when it was last changed. -/
structure FileEntry where
  location : Path
  size : Nat
  modified : Instant
deriving DecidableEq, Repr, Inhabited

namespace FileEntry

/-- The file's own name. -/
def name (entry : FileEntry) : String := entry.location.name

/-- Files in the order of their locations. -/
def sorted (entries : List FileEntry) : List FileEntry :=
  entries.mergeSort (fun left right => Path.inOrder left.location right.location)

end FileEntry

end PartitionedTable
