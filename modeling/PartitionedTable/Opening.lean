import PartitionedTable.Settings
import PartitionedTable.Store.Keys
import PartitionedTable.Store.Tree
import PartitionedTable.Table

/-!
Opening the table that the settings describe. A table on the file system has its directory as the
root of its store; the directory has to be there. A table in a bucket needs the bucket's name, and
its root is the configured path inside the bucket. How buckets are reached is not told here: whoever
opens a table says what becomes of reaching one (`Buckets`).
-/

namespace PartitionedTable

/-- A bucket within reach: the store of what is in it, and a number of levels below which it holds
nothing. -/
structure Bucket where
  store : Store Unit
  depth : Nat

/-- What becomes of reaching a bucket by its name: the bucket, or the words for what is in the way. -/
abbrev Buckets := String → Except String Bucket

/-- Where a table lies: in a directory of the file system, or at a path inside a bucket. -/
inductive Place where
  | directory (base : Path)
  | bucket (found : Bucket) (root : Path)

namespace Place

/-- The table's root in its store. The store of a table on the file system starts at its
directory. -/
def root : Place → Path
  | directory _ => Path.top
  | bucket _ root => root

/-- The store of the table, the file system being `tree`. -/
def store (tree : Tree) : Place → Store Unit
  | directory base => tree.store base
  | bucket found _ => found.store

/-- How many levels the store of the table has at most, the file system being `tree`. -/
def depth (tree : Tree) : Place → Nat
  | directory _ => tree.depth
  | bucket found _ => found.depth

/-- The table at a place, the file system being `tree`. -/
def table (place : Place) (tree : Tree) (options : ListingOptions) : Table Unit :=
  { store := place.store tree, root := place.root, options, rounds := place.depth tree + 1 }

end Place

namespace Settings

/-- Why the table's directory cannot be opened. -/
def noDirectory (settings : Settings) : StorageError :=
  .initialization ("Failed to open table directory " ++ settings.tablePath ++ ": Generic "
    ++ Tree.storeName ++ " error: Unable to canonicalize filesystem root: " ++ settings.tablePath)

/-- Why a table in a bucket without a name cannot be opened. -/
def noBucket : StorageError := .initialization "S3 bucket name not configured"

/-- Why a table in a bucket that cannot be reached cannot be opened. -/
def notReached (reason : String) : StorageError :=
  .initialization ("Failed to build S3 object store: " ++ reason)

/-- Where the table of the settings lies; `here` is the directory that relative paths start
from. -/
def place (settings : Settings) (buckets : Buckets) (tree : Tree) (here : Path) :
    Except StorageError Place :=
  if settings.inBucket then
    match settings.bucket with
    | none => .error noBucket
    | some name => match buckets name with
      | .error reason => .error (notReached reason)
      | .ok found => .ok (.bucket found (Path.resolve Path.top settings.tablePath))
  else
    match tree.canonical? here settings.tablePath with
    | none => .error settings.noDirectory
    | some base => .ok (.directory base)

end Settings

namespace Table

/-- Opens the table that the settings describe. -/
def opened (buckets : Buckets) (tree : Tree) (here : Path) (settings : Settings) :
    Except TableError (Table Unit) :=
  match settings.place buckets tree here with
  | .error source => .error (.opening source)
  | .ok place => .ok (place.table tree settings.options)

/-- The table at `root` of a store of keys. -/
def ofKeys (keys : KeyStore) (root : Path) (options : ListingOptions) : Table Unit :=
  { store := keys.store, root, options, rounds := keys.depth + 1 }

end Table

end PartitionedTable
