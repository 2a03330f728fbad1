import PartitionedTable.Proofs.Dated
import PartitionedTable.Proofs.Spelling
import PartitionedTable.Table.Listing

/-!
Handing a partition that a search returned back to a listing. The search tells the directory by its
raw names under the root; the listing resolves what it is given and so percent-encodes each part.
The two mean the same directory exactly if the names are plain. If they are not, the listing gives
the files of some other directory, most often of none, and still succeeds.
-/

namespace PartitionedTable

namespace KeyStore

variable (keys : KeyStore)

/-- Every key is a path that a store can hold. -/
def Valid : Prop := ∀ entry ∈ keys.files, entry.location.Valid

theorem isName_of_holds (valid : keys.Valid) {root : Path} {names : List String}
    (held : keys.Holds (root.under names)) : ∀ name ∈ names, Path.IsName name := by
  obtain ⟨entry, stored, last, rest, located⟩ := held
  intro name member
  apply valid entry stored
  rw [located]
  simp [member]

/-- Two directories below a root that are called the same are the same. -/
theorem names_eq_of_text_eq (valid : keys.Valid) {root : Path} {names names' : List String}
    (held : keys.Holds (root.under names)) (held' : keys.Holds (root.under names'))
    (same : "/".intercalate names = "/".intercalate names') : names = names' := by
  rw [← Text.parts_intercalate (keys.isName_of_holds valid held), same,
    Text.parts_intercalate (keys.isName_of_holds valid held')]

theorem mem_dataFilesIn_iff {directory : Path} {entry : FileEntry} :
    entry ∈ keys.dataFilesIn directory ↔ entry ∈ keys.files
      ∧ (∃ name, entry.location = directory.child name) ∧ Layout.isDataFile entry.name = true := by
  rw [dataFilesIn, List.mem_filter, mem_filesIn_iff, and_assoc]

/-- No file lies directly in two directories. -/
theorem directory_eq_of_mem_dataFilesIn {directory other : Path} {entry : FileEntry}
    (here : entry ∈ keys.dataFilesIn directory) (there : entry ∈ keys.dataFilesIn other) :
    directory = other := by
  obtain ⟨_, ⟨name, located⟩, _⟩ := keys.mem_dataFilesIn_iff.mp here
  obtain ⟨_, ⟨name', located'⟩, _⟩ := keys.mem_dataFilesIn_iff.mp there
  rw [← Path.parent_child directory name, ← located, located', Path.parent_child]

theorem same_dataFilesIn_iff {directory other : Path} :
    (∀ entry, entry ∈ keys.dataFilesIn other ↔ entry ∈ keys.dataFilesIn directory)
      ↔ other = directory ∨ (keys.dataFilesIn directory = [] ∧ keys.dataFilesIn other = []) := by
  constructor
  · intro same
    by_cases bare : keys.dataFilesIn directory = []
    · rw [bare] at same
      exact .inr ⟨bare, List.eq_nil_iff_forall_not_mem.mpr fun entry member =>
        List.not_mem_nil ((same entry).mp member)⟩
    · obtain ⟨entry, member⟩ := List.exists_mem_of_ne_nil _ bare
      exact .inl (keys.directory_eq_of_mem_dataFilesIn ((same entry).mpr member) member)
  · intro known entry
    rcases known with rfl | ⟨bare, bare'⟩
    · exact Iff.rfl
    · rw [bare, bare']

end KeyStore

namespace Table

variable {keys : KeyStore} {table : Table Unit}

theorem files_endsIn (stored : table.store = keys.store) (spelling : String) :
    (table.files spelling).EndsIn
      (.done (keys.dataFilesIn (Path.resolve table.root spelling))) := by
  have listed : (table.store.dataFilesIn (Path.resolve table.root spelling)).EndsIn
      (.done (keys.dataFilesIn (Path.resolve table.root spelling))) :=
    stored ▸ keys.dataFilesIn_endsIn _
  exact listed.mapError _

/-- A listing of several partitions succeeds, with the data files of each under its spelling. -/
theorem filesOfEach_done (stored : table.store = keys.store) (spellings : List String)
    (world : World Unit) :
    ∃ manifests, (table.filesOfEach spellings world).1 = .done manifests
      ∧ manifests.Perm (spellings.eraseDups.map fun spelling =>
        (spelling, keys.dataFilesIn (Path.resolve table.root spelling))) := by
  unfold filesOfEach
  by_cases empty : spellings.eraseDups.isEmpty = true
  · rw [if_pos empty, List.isEmpty_iff.mp empty]
    exact ⟨[], rfl, .refl _⟩
  · rw [if_neg empty, Work.bind_of_done rfl]
    have answers : ∀ spelling ∈ spellings.eraseDups, (table.manifest spelling).EndsIn
        (.done (spelling, keys.dataFilesIn (Path.resolve table.root spelling))) :=
      fun spelling _ => (files_endsIn stored spelling).bind (Work.endsIn_pure _)
    exact Engine.map_values .taskFailed (table.order 0)
      (table.options.budget spellings.eraseDups.length) _ _ answers

/-- A search below some spellings, or by date, gives `partition`. -/
def Returned (table : Table Unit) (partition : String) : Prop :=
  ∃ (names : List String) (world : World Unit), partition ∈ names
    ∧ ((∃ spellings, (table.partitionsBelow spellings world).1 = .done names)
      ∨ (table.datePartitions world).1 = .done names)

/-- What a search returned tells a directory of the store by its names. -/
theorem holds_of_returned (stored : table.store = keys.store) (enough : keys.depth < table.rounds)
    {partition : String} (returned : table.Returned partition) :
    ∃ names, keys.Holds (table.root.under names) ∧ partition = "/".intercalate names := by
  have called : ∀ directory names, directory = table.root.under names → keys.Holds directory →
      Path.relativeName? table.root directory = some partition →
      ∃ names, keys.Holds (table.root.under names) ∧ partition = "/".intercalate names := by
    intro directory names under held named
    subst under
    rw [Path.relativeName?_under] at named
    exact ⟨names, held, (Option.some.inj named).symm⟩
  obtain ⟨found, world, member, ⟨spellings, searched⟩ | dated⟩ := returned
  · by_cases good : ∀ spelling ∈ spellings, keys.IsSeed table.root spelling
    · obtain ⟨names, ended, _, found_iff⟩ := partitionsBelow_done stored enough good world
      cases searched.symm.trans ended
      obtain ⟨spelling, _, directory, ⟨below, under, marked, _⟩, named⟩ := (found_iff _).mp member
      rw [Path.resolve_eq_under, Path.under_under] at under
      exact called directory _ under (keys.holds_of_marked marked) named
    · have bad : ∃ spelling ∈ spellings, ¬ keys.IsSeed table.root spelling := by
        simpa only [not_forall, exists_prop] using good
      obtain ⟨_, _, _, failed, _⟩ := partitionsBelow_failed stored bad world
      cases searched.symm.trans failed
  · obtain ⟨names, ended, _, found_iff⟩ := datePartitions_done stored world
    cases dated.symm.trans ended
    obtain ⟨directory, ⟨below, count, under, _, held⟩, named⟩ := (found_iff _).mp member
    refine called directory below under (held ?_) named
    rintro rfl
    cases count

/-- What a search returned tells one directory, and listing it succeeds, alone or among others. The
listing gives exactly the data files directly in that directory if all names on the way to it are
plain, or if there are none to give; with a name that is not plain it gives none of them. -/
theorem returned_partition_lists_back_iff (keys : KeyStore) (valid : keys.Valid) (root : Path)
    (options : ListingOptions) (order : Nat → Engine.Order) {partition : String}
    (returned : ({ Table.ofKeys keys root options with order } : Table Unit).Returned partition) :
    let table : Table Unit := { Table.ofKeys keys root options with order }
    ∃ names, keys.Holds (root.under names)
      ∧ (∀ directory, keys.Holds directory →
        (Path.relativeName? root directory = some partition ↔ directory = root.under names))
      ∧ ∃ listed, (table.files partition).EndsIn (.done listed)
        ∧ (∀ spellings world, partition ∈ spellings →
          ∃ manifests, (table.filesOfEach spellings world).1 = .done manifests
            ∧ ∀ entries, (partition, entries) ∈ manifests ↔ entries = listed)
        ∧ ((∀ entry, entry ∈ listed ↔ entry ∈ keys.dataFilesIn (root.under names))
          ↔ (∀ name ∈ names, Path.PlainName name)
            ∨ (keys.dataFilesIn (root.under names) = [] ∧ listed = []))
        ∧ ((∃ name ∈ names, ¬ Path.PlainName name) →
          ∀ entry ∈ listed, entry ∉ keys.dataFilesIn (root.under names)) := by
  intro table
  have stored : table.store = keys.store := rfl
  have enough : keys.depth < table.rounds := Nat.lt_succ_self _
  obtain ⟨names, held, rfl⟩ := holds_of_returned stored enough returned
  -- The listing looks into the directory itself exactly if its names are plain.
  have back := Path.resolve_intercalate_eq_iff root (keys.isName_of_holds valid held)
  refine ⟨names, held, ?_, keys.dataFilesIn (Path.resolve root ("/".intercalate names)),
    files_endsIn stored _, ?_, ?_, ?_⟩
  · intro directory held'
    constructor
    · intro named
      obtain ⟨names', below, same⟩ := Option.map_eq_some_iff.mp named
      obtain rfl := Path.below?_eq_some_iff_under.mp below
      rw [keys.names_eq_of_text_eq valid held' held same]
    · rintro rfl
      exact Path.relativeName?_under root names
  · intro spellings world asked
    obtain ⟨manifests, ended, chosen⟩ := filesOfEach_done stored spellings world
    refine ⟨manifests, ended, fun entries => ?_⟩
    rw [chosen.mem_iff, List.mem_map]
    constructor
    · rintro ⟨spelling, _, equal⟩
      cases equal
      rfl
    · rintro rfl
      exact ⟨_, List.mem_eraseDups.mpr asked, rfl⟩
  · rw [keys.same_dataFilesIn_iff, back]
  · rintro ⟨name, member, special⟩ entry listed kept
    have same := keys.directory_eq_of_mem_dataFilesIn listed kept
    exact special (back.mp same name member)

/-- A marked directory with a percent sign in its name is found, and its listing leaves its file
out. -/
theorem returned_partition_lists_back_iff_percent_sign :
    let marker : FileEntry := ⟨⟨["a%b", ".hoodie_partition_metadata"]⟩, 10, default⟩
    let file : FileEntry := ⟨⟨["a%b", "f.parquet"]⟩, 10, default⟩
    let keys : KeyStore := { files := [marker, file], distinct := by decide }
    let table : Table Unit := { Table.ofKeys keys Path.top {} with order := fun _ _ => 0 }
    keys.Valid ∧ table.Returned "a%b" ∧ file ∈ keys.dataFilesIn ⟨["a%b"]⟩
      ∧ ∃ listed, (table.files "a%b").EndsIn (.done listed) ∧ file ∉ listed := by
  intro marker file keys table
  have valid : keys.Valid := by
    simp [KeyStore.Valid, Path.Valid, Path.IsName, keys, marker, file]
  have held : keys.Holds (Path.top.under ["a%b"]) :=
    ⟨marker, List.mem_cons_self, ".hoodie_partition_metadata", [], rfl⟩
  have named : Path.relativeName? Path.top (Path.top.under ["a%b"]) = some "a%b" :=
    Path.relativeName?_under Path.top ["a%b"]
  have marked : keys.Marked (Path.top.child "a%b") :=
    ⟨_, List.mem_cons_self, marker, List.mem_cons_self, rfl⟩
  have unmarked : ¬ keys.Marked Path.top := by
    rintro ⟨name, _, entry, member, located⟩
    rcases List.mem_pair.mp member with rfl | rfl <;> cases located
  have reported : keys.Reported Path.top (Path.top.child "a%b") := by
    rw [keys.reported_iff_of_not_marked unmarked]
    exact ⟨_, keys.child_mem_children held (by decide), (keys.reported_iff_of_marked marked).mpr rfl⟩
  have stored : table.store = keys.store := rfl
  have good : ∀ spelling ∈ [""], keys.IsSeed table.root spelling := by
    intro spelling member
    rw [List.mem_singleton.mp member]
    exact .inl rfl
  obtain ⟨names, found, _, found_iff⟩ :=
    partitionsBelow_done stored (Nat.lt_succ_self keys.depth) good { memory := () }
  have returned : table.Returned "a%b" := by
    refine ⟨names, { memory := () }, (found_iff "a%b").mpr ?_, .inl ⟨[""], found⟩⟩
    exact ⟨"", List.mem_singleton_self _, _, reported, named⟩
  have here : file ∈ keys.dataFilesIn ⟨["a%b"]⟩ := by
    rw [keys.mem_dataFilesIn_iff]
    exact ⟨List.mem_cons_of_mem _ (List.mem_singleton_self file), ⟨"f.parquet", rfl⟩,
      by decide +kernel⟩
  refine ⟨valid, returned, here, ?_⟩
  obtain ⟨names, _, one, listed, ended, _, _, missed⟩ :=
    returned_partition_lists_back_iff keys valid Path.top {} (fun _ _ => 0) returned
  obtain rfl := Path.top.under_injective ((one _ held).mp named)
  have special : ¬ Path.PlainName "a%b" := by
    simp [Path.PlainName, Path.IsPlain, Path.reserved]
  refine ⟨listed, ended, fun member => ?_⟩
  exact missed ⟨_, List.mem_singleton_self _, special⟩ file member here

end Table

end PartitionedTable
