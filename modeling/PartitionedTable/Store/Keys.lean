import PartitionedTable.Store

/-!
Stores that are a flat set of files under distinct keys. A directory is nothing of its own: it
shows exactly while a key lies below it, and a key may at the same time be a directory. Such a
store never fails.
-/

namespace PartitionedTable

/-- A flat set of files; no two of them have the same location. -/
structure KeyStore where
  files : List FileEntry := []
  distinct : (files.map FileEntry.location).Nodup := by simp
deriving DecidableEq, Repr

namespace KeyStore

/-- Removes the file under a key. -/
def delete (keys : KeyStore) (key : Path) : KeyStore :=
  { files := keys.files.filter (fun old => old.location != key)
    distinct := List.Sublist.nodup (List.filter_sublist.map FileEntry.location) keys.distinct }

/-- Stores a file, in place of the one under the same key. -/
def put (keys : KeyStore) (entry : FileEntry) : KeyStore :=
  { files := (keys.delete entry.location).files ++ [entry]
    distinct := by
      rw [List.map_append, List.nodup_append]
      refine ⟨(keys.delete entry.location).distinct, by simp, ?_⟩
      intro location member other equal
      obtain ⟨old, kept, rfl⟩ := List.mem_map.mp member
      obtain ⟨_, different⟩ := List.mem_filter.mp kept
      simp only [List.map_cons, List.map_nil, List.mem_singleton] at equal
      simpa [equal] using different }

/-- The store of some files; of two with the same key the later one counts. -/
def ofList (entries : List FileEntry) : KeyStore := entries.foldl put {}

/-- Whether there is a file under exactly this key. -/
def contains (keys : KeyStore) (key : Path) : Bool :=
  keys.files.any (fun entry => entry.location == key)

/-- The files one segment below `directory`. -/
def filesIn (keys : KeyStore) (directory : Path) : List FileEntry :=
  keys.files.filter fun entry =>
    match Path.below? directory entry.location with
    | some [_] => true
    | _ => false

/-- The names one segment below `directory` on the way to some file further down, sorted and
each once. -/
def namesBelow (keys : KeyStore) (directory : Path) : List String :=
  let names := keys.files.filterMap fun entry =>
    match Path.below? directory entry.location with
    | some (name :: _ :: _) => some name
    | _ => none
  names.eraseDups.mergeSort (fun left right => decide (left ≤ right))

/-- What lies directly inside a directory. -/
def listing (keys : KeyStore) (directory : Path) : Listing :=
  { directories := (keys.namesBelow directory).map directory.child
    files := keys.filesIn directory }

/-- How a key that is not there is reported. -/
def absent (key : Path) : StoreError := .notFound key.text "No data under this key"

/-- The answer to `head`. -/
def head (keys : KeyStore) (key : Path) : Outcome StoreError Unit :=
  if keys.contains key then .done () else .failed (absent key)

/-- The store with these keys. -/
def store (keys : KeyStore) : Store Unit :=
  Store.stateless keys.head (fun directory => .done (keys.listing directory))

/-- The largest number of segments of a key. -/
def depth (keys : KeyStore) : Nat :=
  (keys.files.map (fun entry => entry.location.segments.length)).foldl max 0

end KeyStore

end PartitionedTable
