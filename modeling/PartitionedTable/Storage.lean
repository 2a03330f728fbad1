import PartitionedTable.Layout
import PartitionedTable.Store

/-!
The four questions a table asks about its storage: which directories lie in a directory, whether a
directory carries a partition marker, which data files it holds, and whether it exists. A store
without real directories shows one only while something is stored below it, so a directory counts
as existing when it holds anything or when the directory above lists it.
-/

namespace PartitionedTable

/-- Why a question about storage has no answer. -/
inductive StorageError where
  | listing (directory : Path) (source : StoreError)
  | markerCheck (directory : Path) (source : StoreError)
  | notFound (directory : Path)
  | initialization (detail : String)
deriving DecidableEq, Repr

namespace StorageError

/-- The text of a failure. -/
def message : StorageError → String
  | .listing directory source => "Failed to list " ++ directory.text ++ ": " ++ source.message
  | .markerCheck directory source =>
      "Failed to check partition marker in " ++ directory.text ++ ": " ++ source.message
  | .notFound directory => "Directory does not exist: " ++ directory.text
  | .initialization detail => "Initialization error: " ++ detail

/-- The texts of what lies behind a failure, outermost first. -/
def causes : StorageError → List String
  | .listing _ source | .markerCheck _ source => source.message :: source.causes
  | .notFound _ | .initialization _ => []

end StorageError

namespace Store

variable {μ : Type}

/-- What lies directly inside a directory, or which listing failed. -/
def level (store : Store μ) (directory : Path) (purpose : Purpose) :
    Work (World μ) StorageError Listing :=
  (store.callList directory purpose).mapError (.listing directory)

/-- What lies directly inside a directory, nothing if the store knows no such place. -/
def levelOrNone (store : Store μ) (directory : Path) (purpose : Purpose) :
    Work (World μ) StorageError Listing := do
  match ← (store.callList directory purpose).attempt with
  | .ok listing => return listing
  | .error source =>
      if source.isNotFound then return { directories := [], files := [] }
      else Work.fail (.listing directory source)

/-- The directories directly inside `directory`, without those whose name is excluded. -/
def directoriesIn (store : Store μ) (directory : Path) (excluded : String → Bool) :
    Work (World μ) StorageError (List Path) := do
  let listing ← store.level directory .children
  return listing.directories.filter (fun path => !excluded path.name)

/-- Whether `directory` holds a file of one of `names`, tried one after another. -/
def holdsOneOf (store : Store μ) (directory : Path) :
    List String → Work (World μ) StorageError Bool
  | [] => return false
  | name :: others => do
      match ← (store.callHead (directory.child name)).attempt with
      | .ok () => return true
      | .error source =>
          if source.isNotFound then store.holdsOneOf directory others
          else Work.fail (.markerCheck directory source)

/-- Whether `directory` carries a partition marker. -/
def hasMarker (store : Store μ) (directory : Path) : Work (World μ) StorageError Bool :=
  store.holdsOneOf directory Layout.markerNames

/-- The data files directly inside `directory`; a directory that does not exist has none. -/
def dataFilesIn (store : Store μ) (directory : Path) :
    Work (World μ) StorageError (List FileEntry) := do
  let listing ← store.levelOrNone directory .files
  return listing.files.filter (fun entry => Layout.isDataFile entry.name)

/-- Whether `directory` exists. The directory above is asked only if nothing is found inside. -/
def directoryExists (store : Store μ) (directory : Path) :
    Work (World μ) StorageError Bool := do
  if directory = Path.top then return true
  let inside ← store.levelOrNone directory .existence
  if !inside.isEmpty then return true
  let above ← store.levelOrNone directory.parent .existence
  return above.directories.contains directory

end Store

end PartitionedTable
