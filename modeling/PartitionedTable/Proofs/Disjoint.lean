import Mathlib.Data.List.Nodup
import PartitionedTable.Proofs.Encoding
import PartitionedTable.Proofs.Handback

/-!
What manifests hold. The manifest of a partition is the data files directly in the directory that is
spelled, each once. A file lies directly in one directory only, so manifests of different directories
share no file. Which directory a spelling means is decided by its parts (`Path.resolve_eq_iff`), and
what a search returned has other parts for every directory that it found. So no file is counted twice.
-/

namespace PartitionedTable

/-- A marker is not data. -/
theorem Layout.isMarker_eq_false_of_isDataFile {name : String} (isData : isDataFile name = true) :
    isMarker name = false := by
  unfold isDataFile at isData
  split at isData
  · cases isData
  · rename_i neither
    exact Bool.eq_false_iff.mpr fun marker => neither (by rw [marker, Bool.or_true])

namespace KeyStore

variable (keys : KeyStore)

theorem mem_dataFilesIn_iff_named {directory : Path} {entry : FileEntry} :
    entry ∈ keys.dataFilesIn directory ↔ entry ∈ keys.files
      ∧ ∃ name, entry.location = directory.child name ∧ Layout.isDataFile name = true := by
  rw [mem_dataFilesIn_iff]
  refine and_congr_right fun _ => ?_
  constructor
  · rintro ⟨⟨name, located⟩, isData⟩
    rw [FileEntry.name, located, Path.name_child] at isData
    exact ⟨name, located, isData⟩
  · rintro ⟨name, located, isData⟩
    refine ⟨⟨name, located⟩, ?_⟩
    rwa [FileEntry.name, located, Path.name_child]

theorem nodup_locations_dataFilesIn (directory : Path) :
    ((keys.dataFilesIn directory).map FileEntry.location).Nodup := by
  have kept : (keys.dataFilesIn directory).Sublist keys.files :=
    List.filter_sublist.trans List.filter_sublist
  exact (kept.map FileEntry.location).nodup keys.distinct

/-- Different directories have no data file in common, not even by its location. -/
theorem disjoint_locations_dataFilesIn {directory other : Path} (apart : directory ≠ other) :
    List.Disjoint ((keys.dataFilesIn directory).map FileEntry.location)
      ((keys.dataFilesIn other).map FileEntry.location) := by
  intro location here there
  obtain ⟨entry, listed, rfl⟩ := List.mem_map.mp here
  obtain ⟨entry', listed', same⟩ := List.mem_map.mp there
  obtain ⟨_, ⟨name, located⟩, _⟩ := keys.mem_dataFilesIn_iff.mp listed
  obtain ⟨_, ⟨name', located'⟩, _⟩ := keys.mem_dataFilesIn_iff.mp listed'
  apply apart
  rw [← Path.parent_child directory name, ← located, ← same, located', Path.parent_child]

/-- Different directories together hold no location twice. -/
theorem nodup_locations_flatMap {directories : List Path} (distinct : directories.Nodup) :
    ((directories.flatMap keys.dataFilesIn).map FileEntry.location).Nodup := by
  rw [List.map_flatMap, List.nodup_flatMap]
  refine ⟨fun directory _ => keys.nodup_locations_dataFilesIn directory, ?_⟩
  exact distinct.imp fun apart => keys.disjoint_locations_dataFilesIn apart

end KeyStore

namespace Table

/-- What one partition holds. Whatever is spelled, a listing succeeds with one call, and gives just the
stored files whose key is the directory that is spelled and one more name, that of a data file: each
once, as it is stored. A marker is none of them, and neither is a file of any other directory. If no key
lies below the directory, be it a key itself or not, there is nothing to give. -/
theorem files_exact (keys : KeyStore) (root : Path) (options : ListingOptions)
    (order : Nat → Engine.Order) (spelling : String) :
    let table : Table Unit := { Table.ofKeys keys root options with order }
    let directory := Path.resolve root spelling
    ∃ entries, (table.files spelling).Does entries [.list directory .files]
      ∧ (∀ entry, entry ∈ entries ↔ entry ∈ keys.files
        ∧ ∃ name, entry.location = directory.child name ∧ Layout.isDataFile name = true)
      ∧ (entries.map FileEntry.location).Nodup
      ∧ (∀ entry ∈ entries, Layout.isMarker entry.name = false)
      ∧ (∀ entry ∈ entries, ∀ other name, entry.location = Path.child other name → other = directory)
      ∧ (¬ keys.Holds directory → entries = []) := by
  intro table directory
  have stored : table.store = keys.store := rfl
  have kept : ∀ entry, entry ∈ keys.dataFilesIn directory ↔ entry ∈ keys.files
      ∧ ∃ name, entry.location = directory.child name ∧ Layout.isDataFile name = true :=
    fun entry => keys.mem_dataFilesIn_iff_named
  refine ⟨keys.dataFilesIn directory, (table.files_makes spelling).does (files_endsIn stored spelling),
    kept, keys.nodup_locations_dataFilesIn directory, fun entry listed => ?_,
    fun entry listed other name located => ?_, fun bare => ?_⟩
  · obtain ⟨_, _, isData⟩ := keys.mem_dataFilesIn_iff.mp listed
    exact Layout.isMarker_eq_false_of_isDataFile isData
  · obtain ⟨_, name', located', _⟩ := (kept entry).mp listed
    rw [← Path.parent_child other name, ← located, located', Path.parent_child]
  · rw [List.eq_nil_iff_forall_not_mem]
    intro entry listed
    obtain ⟨held, name, located, _⟩ := (kept entry).mp listed
    exact bare ⟨entry, held, name, [], located⟩

/-- A search below some spellings, or by date, succeeds with `names`. -/
def Discovered (table : Table Unit) (names : List String) : Prop :=
  ∃ world : World Unit, (∃ spellings, (table.partitionsBelow spellings world).1 = .done names)
    ∨ (table.datePartitions world).1 = .done names

variable {keys : KeyStore} {table : Table Unit}

/-- What a search returned is told apart by its parts. -/
theorem eq_of_parts_eq_of_discovered (stored : table.store = keys.store)
    (enough : keys.depth < table.rounds) (valid : keys.Valid) {names : List String}
    (discovered : table.Discovered names) {name name' : String} (member : name ∈ names)
    (member' : name' ∈ names) (same : Text.parts '/' name = Text.parts '/' name') :
    name = name' := by
  have read : ∀ name ∈ names, "/".intercalate (Text.parts '/' name) = name := by
    intro name member
    obtain ⟨world, searched⟩ := discovered
    obtain ⟨below, held, rfl⟩ := holds_of_returned stored enough ⟨names, world, member, searched⟩
    rw [Text.parts_intercalate (keys.isName_of_holds valid held)]
  rw [← read name member, ← read name' member', same]

/-- Manifests count no file twice, whatever the spellings and the schedule. Spellings with the same
parts have the same manifest, others have manifests without a common location, and no manifest holds
a location twice. So if all that is listed was returned by one search, every stored file is in at most
one manifest and there only once. -/
theorem filesOfEach_counts_no_file_twice (keys : KeyStore) (root : Path) (options : ListingOptions)
    (order : Nat → Engine.Order) (spellings : List String) (world : World Unit) :
    let table : Table Unit := { Table.ofKeys keys root options with order }
    ∃ manifests, (table.filesOfEach spellings world).1 = .done manifests
      ∧ (manifests.map Prod.fst).Perm spellings.eraseDups
      ∧ (∀ one ∈ manifests, ∀ other ∈ manifests,
        (Text.parts '/' one.1 = Text.parts '/' other.1 → one.2 = other.2)
          ∧ (Text.parts '/' one.1 ≠ Text.parts '/' other.1 →
            List.Disjoint (one.2.map FileEntry.location) (other.2.map FileEntry.location)))
      ∧ (∀ one ∈ manifests, (one.2.map FileEntry.location).Nodup)
      ∧ ∀ (names : List String) (options' : ListingOptions) (order' : Nat → Engine.Order),
        keys.Valid → (∀ spelling ∈ spellings, spelling ∈ names) →
        ({ Table.ofKeys keys root options' with order := order' } : Table Unit).Discovered names →
        ((manifests.flatMap Prod.snd).map FileEntry.location).Nodup
          ∧ ∀ entry ∈ manifests.flatMap Prod.snd, entry ∈ keys.files := by
  intro table
  have stored : table.store = keys.store := rfl
  obtain ⟨manifests, ended, listed⟩ := filesOfEach_done stored spellings world
  have files : ∀ one ∈ manifests, one.2 = keys.dataFilesIn (Path.resolve root one.1) := by
    intro one member
    obtain ⟨spelling, _, rfl⟩ := List.mem_map.mp (listed.mem_iff.mp member)
    rfl
  have spelled : (manifests.map Prod.fst).Perm spellings.eraseDups := by
    refine (listed.map Prod.fst).trans (.of_eq ?_)
    rw [List.map_map]
    exact List.map_id _
  refine ⟨manifests, ended, spelled, ?_, ?_, ?_⟩
  · intro one member other member'
    rw [files one member, files other member']
    constructor
    · intro same
      rw [Path.resolve_eq_iff.mpr same]
    · intro apart
      exact keys.disjoint_locations_dataFilesIn fun same => apart (Path.resolve_eq_iff.mp same)
  · intro one member
    rw [files one member]
    exact keys.nodup_locations_dataFilesIn _
  · intro names options' order' valid asked discovered
    have enough : keys.depth < keys.depth + 1 := Nat.lt_succ_self _
    have distinct : (spellings.eraseDups.map (Path.resolve root)).Nodup := by
      refine (nodup_eraseDups spellings).map_on fun name member name' member' same => ?_
      rw [List.mem_eraseDups] at member member'
      exact eq_of_parts_eq_of_discovered rfl enough valid discovered (asked name member)
        (asked name' member') (Path.resolve_eq_iff.mp same)
    have together : (manifests.flatMap Prod.snd).Perm
        ((spellings.eraseDups.map (Path.resolve root)).flatMap keys.dataFilesIn) := by
      refine (listed.flatMap_right Prod.snd).trans (.of_eq ?_)
      rw [List.flatMap_map, List.flatMap_map]
      rfl
    constructor
    · exact ((together.map _).nodup_iff).mpr (keys.nodup_locations_flatMap distinct)
    · intro entry member
      obtain ⟨directory, _, found⟩ := List.mem_flatMap.mp (together.mem_iff.mp member)
      exact (keys.mem_dataFilesIn_iff.mp found).1

/-- Two partitions that a search found hold two files of the same name, each counted once. -/
theorem filesOfEach_counts_no_file_twice_same_name :
    let marker : FileEntry := ⟨⟨["a", ".hoodie_partition_metadata"]⟩, 10, default⟩
    let file : FileEntry := ⟨⟨["a", "f.parquet"]⟩, 20, default⟩
    let marker' : FileEntry := ⟨⟨["b", "c", ".hoodie_partition_metadata"]⟩, 10, default⟩
    let file' : FileEntry := ⟨⟨["b", "c", "f.parquet"]⟩, 20, default⟩
    let keys : KeyStore := { files := [marker, file, marker', file'], distinct := by decide }
    let table : Table Unit := { Table.ofKeys keys Path.top {} with order := fun _ _ => 0 }
    keys.Valid ∧ table.Discovered ["a", "b/c"]
      ∧ (([("a", [file]), ("b/c", [file'])].flatMap Prod.snd).map FileEntry.location).Nodup := by
  intro marker file marker' file' keys table
  have valid : keys.Valid := by
    simp [KeyStore.Valid, Path.Valid, Path.IsName, keys, marker, file, marker', file']
  have found : (table.partitionsBelow ["a", "b"] { memory := () }).1 = .done ["a", "b/c"] := by
    decide +kernel
  have discovered : table.Discovered ["a", "b/c"] := ⟨{ memory := () }, .inl ⟨["a", "b"], found⟩⟩
  have listed : (table.filesOfEach ["a", "b/c"] { memory := () }).1
      = .done [("a", [file]), ("b/c", [file'])] := by decide +kernel
  obtain ⟨manifests, ended, -, -, -, once⟩ := filesOfEach_counts_no_file_twice keys Path.top {}
    (fun _ _ => 0) ["a", "b/c"] { memory := () }
  cases listed.symm.trans ended
  exact ⟨valid, discovered,
    (once ["a", "b/c"] {} (fun _ _ => 0) valid (fun _ asked => asked) discovered).1⟩

end Table

end PartitionedTable
