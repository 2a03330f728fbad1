/-! How a table is listed. -/

namespace PartitionedTable

/-- How a table is listed: whether partitions are taken to lie three levels down, whatever they
hold, and how many listings may run at once. -/
structure ListingOptions where
  assumeDatePartitioning : Bool := false
  parallelism : Nat := 1500
deriving DecidableEq, Repr, Inhabited

namespace ListingOptions

/-- How many of `pending` tasks may run at once; always at least one. -/
def budget (options : ListingOptions) (pending : Nat) : Nat := max (min options.parallelism pending) 1

end ListingOptions

end PartitionedTable
