import PartitionedTable.Main
import PartitionedTable.Store.Scripted
import PartitionedTable.Table.Operation
import PartitionedTable.Proofs.Attribution
import PartitionedTable.Proofs.BreadthFirst
import PartitionedTable.Proofs.ByDate
import PartitionedTable.Proofs.Canonical
import PartitionedTable.Proofs.Disjoint
import PartitionedTable.Proofs.LogNames
import PartitionedTable.Proofs.Naming
import PartitionedTable.Proofs.Occupancy
import PartitionedTable.Proofs.OneByOne
import PartitionedTable.Proofs.Opened
import PartitionedTable.Proofs.Session
import PartitionedTable.Proofs.Timestamp
import PartitionedTable.Proofs.Variables
import PartitionedTable.Proofs.Visited
