import Mathlib.Data.List.Basic
import PartitionedTable.Path.Resolve
import PartitionedTable.Proofs.Ending
import PartitionedTable.Storage
import PartitionedTable.Store.Keys

/-!
What a flat set of keys answers, in terms of the keys alone. A directory of such a store is a path
with a key strictly below it (`KeyStore.Holds`), and it is marked when a marker lies directly in it
(`KeyStore.Marked`). Each question about storage ends in a value that these two decide.
-/

namespace PartitionedTable

namespace Path

/-- The path reached from `root` by `names`. -/
def under (root : Path) (names : List String) : Path := ⟨root.segments ++ names⟩

@[simp] theorem segments_under (root : Path) (names : List String) :
    (root.under names).segments = root.segments ++ names := rfl

@[simp] theorem under_nil (root : Path) : root.under [] = root := by
  simp [under]

@[simp] theorem under_under (root : Path) (names more : List String) :
    (root.under names).under more = root.under (names ++ more) := by
  simp [under]

theorem child_eq_under (root : Path) (name : String) : root.child name = root.under [name] := rfl

@[simp] theorem child_under (root : Path) (name : String) (names : List String) :
    (root.child name).under names = root.under (name :: names) := by
  simp [under]

theorem under_injective (root : Path) : Function.Injective root.under := by
  intro names names' equal
  exact List.append_cancel_left (congrArg Path.segments equal)

theorem below?_eq_some_iff_under {root path : Path} {names : List String} :
    below? root path = some names ↔ path = root.under names := by
  rw [below?_eq_some_iff]
  exact ⟨fun equal => ext_segments equal, fun equal => congrArg Path.segments equal⟩

theorem below?_under (root : Path) (names : List String) :
    below? root (root.under names) = some names :=
  below?_eq_some_iff_under.mpr rfl

theorem relativeName?_under (root : Path) (names : List String) :
    relativeName? root (root.under names) = some ("/".intercalate names) := by
  rw [relativeName?, below?_under]
  rfl

/-- The names that lead from a root to a path, joined, are what the path is called. -/
theorem relativeName?_eq_some_iff {root path : Path} {way : String} :
    relativeName? root path = some way
      ↔ ∃ names, path = root.under names ∧ "/".intercalate names = way := by
  simp only [relativeName?, Option.map_eq_some_iff, below?_eq_some_iff_under]

theorem segments_ne_nil {path : Path} (below : path ≠ top) : path.segments ≠ [] :=
  fun empty => below (ext_segments empty)

/-- Anything but the store's root lies in its parent under its own name. -/
theorem child_parent_name {path : Path} (below : path ≠ top) :
    path.parent.child path.name = path := by
  apply ext_segments
  rw [segments_child, segments_parent, name, List.getLast?_eq_some_getLast (segments_ne_nil below)]
  exact List.dropLast_concat_getLast (segments_ne_nil below)

theorem resolve_eq_under (root : Path) (spelling : String) :
    resolve root spelling = root.under ((Text.parts '/' spelling).map escape) := rfl

end Path

namespace KeyStore

variable (keys : KeyStore)

/-- Some key lies strictly below `directory`. -/
def Holds (directory : Path) : Prop :=
  ∃ entry ∈ keys.files, ∃ name names, entry.location = directory.under (name :: names)

/-- A marker lies directly in `directory`. -/
def Marked (directory : Path) : Prop :=
  ∃ marker ∈ Layout.markerNames, ∃ entry ∈ keys.files, entry.location = directory.child marker

instance (directory : Path) : Decidable (keys.Marked directory) :=
  inferInstanceAs (Decidable (∃ marker ∈ Layout.markerNames, ∃ entry ∈ keys.files,
    entry.location = directory.child marker))

theorem contains_iff {key : Path} :
    keys.contains key = true ↔ ∃ entry ∈ keys.files, entry.location = key := by
  simp [contains]

theorem mem_filesIn_iff {directory : Path} {entry : FileEntry} :
    entry ∈ keys.filesIn directory
      ↔ entry ∈ keys.files ∧ ∃ name, entry.location = directory.child name := by
  unfold filesIn
  rw [List.mem_filter]
  refine and_congr_right fun _ => ⟨?_, ?_⟩
  · intro single
    split at single
    · rename_i name found
      exact ⟨name, Path.below?_eq_some_iff_under.mp found⟩
    · cases single
  · rintro ⟨name, located⟩
    rw [located, Path.child_eq_under, Path.below?_under]

/-- The names listed in a directory are those of the directories in it. -/
theorem mem_namesBelow_iff {directory : Path} {name : String} :
    name ∈ keys.namesBelow directory ↔ keys.Holds (directory.child name) := by
  unfold namesBelow
  rw [List.mem_mergeSort, List.mem_eraseDups, List.mem_filterMap]
  constructor
  · rintro ⟨entry, stored, chosen⟩
    split at chosen
    · rename_i first second rest found
      cases chosen
      refine ⟨entry, stored, second, rest, ?_⟩
      rw [Path.child_eq_under, Path.under_under]
      exact Path.below?_eq_some_iff_under.mp found
    · cases chosen
  · rintro ⟨entry, stored, second, rest, located⟩
    refine ⟨entry, stored, ?_⟩
    rw [located, Path.child_under, Path.below?_under]

theorem mem_directories_iff {directory path : Path} :
    path ∈ (keys.listing directory).directories
      ↔ ∃ name, path = directory.child name ∧ keys.Holds path := by
  change path ∈ (keys.namesBelow directory).map directory.child ↔ _
  rw [List.mem_map]
  constructor
  · rintro ⟨name, listed, rfl⟩
    exact ⟨name, rfl, keys.mem_namesBelow_iff.mp listed⟩
  · rintro ⟨name, rfl, held⟩
    exact ⟨name, keys.mem_namesBelow_iff.mpr held, rfl⟩

/-- Something is listed in exactly the directories of the store. -/
theorem isEmpty_listing_iff {directory : Path} :
    (keys.listing directory).isEmpty = true ↔ ¬ keys.Holds directory := by
  unfold Listing.isEmpty
  rw [Bool.and_eq_true, List.isEmpty_iff, List.isEmpty_iff]
  constructor
  · rintro ⟨noDirectories, noFiles⟩ ⟨entry, stored, name, names, located⟩
    cases names with
    | nil =>
        have listed : entry ∈ (keys.listing directory).files :=
          keys.mem_filesIn_iff.mpr ⟨stored, name, located⟩
        rw [noFiles] at listed
        cases listed
    | cons second rest =>
        have held : keys.Holds (directory.child name) := by
          refine ⟨entry, stored, second, rest, ?_⟩
          rw [located, Path.child_under]
        have listed := keys.mem_directories_iff.mpr ⟨name, rfl, held⟩
        rw [noDirectories] at listed
        cases listed
  · intro bare
    rw [List.eq_nil_iff_forall_not_mem, List.eq_nil_iff_forall_not_mem]
    constructor
    · intro path listed
      obtain ⟨name, rfl, entry, stored, second, rest, located⟩ := keys.mem_directories_iff.mp listed
      rw [Path.child_under] at located
      exact bare ⟨entry, stored, name, second :: rest, located⟩
    · intro entry listed
      obtain ⟨stored, name, located⟩ := keys.mem_filesIn_iff.mp listed
      exact bare ⟨entry, stored, name, [], located⟩

/-- The directories in which a walk goes on from `directory`. -/
def children (directory : Path) : List Path :=
  (keys.listing directory).directories.filter fun path => !Layout.isBookkeeping path.name

theorem mem_children_iff {directory path : Path} :
    path ∈ keys.children directory
      ↔ ∃ name, path = directory.child name ∧ name ≠ Layout.bookkeepingName ∧ keys.Holds path := by
  unfold children
  rw [List.mem_filter, mem_directories_iff]
  constructor
  · rintro ⟨⟨name, rfl, held⟩, kept⟩
    refine ⟨name, rfl, ?_, held⟩
    simpa [Layout.isBookkeeping] using kept
  · rintro ⟨name, rfl, kept, held⟩
    refine ⟨⟨name, rfl, held⟩, ?_⟩
    simpa [Layout.isBookkeeping] using kept

/-- On the way down to a directory that holds something, the next directory is listed. -/
theorem child_mem_children {directory : Path} {name : String} {names : List String}
    (held : keys.Holds (directory.under (name :: names))) (ordinary : name ≠ Layout.bookkeepingName) :
    directory.child name ∈ keys.children directory := by
  refine keys.mem_children_iff.mpr ⟨name, rfl, ordinary, ?_⟩
  obtain ⟨entry, stored, last, rest, located⟩ := held
  cases names with
  | nil => exact ⟨entry, stored, last, rest, located⟩
  | cons second names =>
      refine ⟨entry, stored, second, names ++ last :: rest, ?_⟩
      rw [located, Path.child_eq_under, Path.under_under, Path.under_under]
      rfl

/-- The data files directly in a directory. -/
def dataFilesIn (directory : Path) : List FileEntry :=
  (keys.filesIn directory).filter fun entry => Layout.isDataFile entry.name

/-- The calls made to look for a file of one of `names`: they are tried in their order, up to and
including the first one that is there. -/
def probes (directory : Path) (names : List String) : List Call :=
  let missing := fun name => !keys.contains (directory.child name)
  (names.takeWhile missing ++ (names.dropWhile missing).take 1).map
    fun name => .head (directory.child name)

theorem holds_of_marked {directory : Path} (marked : keys.Marked directory) :
    keys.Holds directory := by
  obtain ⟨marker, _, entry, stored, located⟩ := marked
  exact ⟨entry, stored, marker, [], located⟩

section Questions

variable (directory : Path)

theorem callHead_present {key : Path} (present : keys.contains key = true) :
    (keys.store.callHead key).EndsIn (.done ()) := by
  intro world
  change keys.head key = _
  rw [head, if_pos present]

theorem callHead_absent {key : Path} (missing : ¬ keys.contains key = true) :
    (keys.store.callHead key).EndsIn (.failed (absent key)) := by
  intro world
  change keys.head key = _
  rw [head, if_neg missing]

theorem callList_endsIn (purpose : Purpose) :
    (keys.store.callList directory purpose).EndsIn (.done (keys.listing directory)) :=
  fun _ => rfl

theorem levelOrNone_does (purpose : Purpose) :
    (keys.store.levelOrNone directory purpose).Does (keys.listing directory)
      [.list directory purpose] :=
  ((Work.makes_call _ _).attempt.does (keys.callList_endsIn directory purpose).attempt).bind
    (Work.does_pure _)

theorem directoriesIn_does (excluded : String → Bool) :
    (keys.store.directoriesIn directory excluded).Does
      ((keys.listing directory).directories.filter fun path => !excluded path.name)
      [.list directory .children] :=
  ((Work.does_call fun _ => rfl).mapError _).bind (Work.does_pure _)

theorem levelOrNone_endsIn (purpose : Purpose) :
    (keys.store.levelOrNone directory purpose).EndsIn (.done (keys.listing directory)) :=
  (keys.levelOrNone_does directory purpose).endsIn

theorem dataFilesIn_endsIn :
    (keys.store.dataFilesIn directory).EndsIn (.done (keys.dataFilesIn directory)) :=
  (keys.levelOrNone_endsIn directory .files).bind (Work.endsIn_pure _)

/-- The names are tried up to the first that is there; the induction is on those that are left. -/
theorem holdsOneOf_does (names : List String) :
    (keys.store.holdsOneOf directory names).Does
      (names.any fun name => keys.contains (directory.child name)) (keys.probes directory names) := by
  unfold probes
  induction names with
  | nil => exact Work.does_pure false
  | cons name others ih =>
      have tried : (keys.store.callHead (directory.child name)).Makes [.head (directory.child name)] :=
        Work.makes_call _ _
      cases present : keys.contains (directory.child name) with
      | true =>
          simp only [List.any_cons, List.takeWhile_cons, List.dropWhile_cons, present]
          exact (tried.attempt.does (keys.callHead_present present).attempt).bind
            (Work.does_pure true)
      | false =>
          simp only [List.any_cons, List.takeWhile_cons, List.dropWhile_cons, present]
          have missing := keys.callHead_absent (Bool.eq_false_iff.mp present)
          exact (tried.attempt.does missing.attempt).bind ih

theorem hasMarker_does :
    (keys.store.hasMarker directory).Does (decide (keys.Marked directory))
      (keys.probes directory Layout.markerNames) := by
  have same : (Layout.markerNames.any fun name => keys.contains (directory.child name))
      = decide (keys.Marked directory) := by
    rw [Bool.eq_iff_iff, List.any_eq_true, decide_eq_true_iff]
    simp only [contains_iff]
    rfl
  exact same ▸ keys.holdsOneOf_does directory Layout.markerNames

end Questions

end KeyStore

end PartitionedTable
