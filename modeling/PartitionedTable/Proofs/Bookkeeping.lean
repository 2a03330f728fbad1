import PartitionedTable.Proofs.Handback
import PartitionedTable.Proofs.Rounds

/-!
Where the bookkeeping directory can show. Listing a directory never leads into it, so on a store that
lists truthfully everything a walk comes upon lies below the place where the walk began by ordinary
names only. Where a walk begins is the caller's to say, and nothing looks at that: a search or a
listing that is told to begin inside the bookkeeping directory shows what lies there.
-/

namespace PartitionedTable

namespace Path

/-- `path` lies directly in `directory`, under a name that a store can hold. -/
def Contains (directory path : Path) : Prop := ∃ name, IsName name ∧ path = directory.child name

/-- A name that a walk goes by: one that a store can hold, but not that of the bookkeeping
directory. -/
def Ordinary (name : String) : Prop := IsName name ∧ name ≠ Layout.bookkeepingName

/-- Ordinary names lead from `directory` to `path`. -/
def LeadsTo (directory path : Path) : Prop :=
  ∃ names, path = directory.under names ∧ ∀ name ∈ names, Ordinary name

theorem leadsTo_refl (directory : Path) : directory.LeadsTo directory :=
  ⟨[], (under_nil directory).symm, fun _ member => absurd member List.not_mem_nil⟩

theorem LeadsTo.child {directory path : Path} {name : String} (leads : directory.LeadsTo path)
    (ordinary : Ordinary name) : directory.LeadsTo (path.child name) := by
  obtain ⟨names, rfl, all⟩ := leads
  refine ⟨names ++ [name], ?_, ?_⟩
  · rw [child_eq_under, under_under]
  · intro other member
    rcases List.mem_append.mp member with member | member
    · exact all other member
    · rwa [List.mem_singleton.mp member]

/-- Resolving neither makes nor hides the bookkeeping name. -/
theorem bookkeepingName_mem_map_escape_iff {parts : List String} :
    Layout.bookkeepingName ∈ parts.map escape ↔ Layout.bookkeepingName ∈ parts := by
  have plain : escape Layout.bookkeepingName = Layout.bookkeepingName := by decide +kernel
  rw [List.mem_map]
  constructor
  · rintro ⟨part, member, same⟩
    have kept : escape part = part := by
      apply escape_eq_self_of_percent_not_mem
      rw [same]
      decide
    rwa [← same, kept]
  · exact fun member => ⟨_, member, plain⟩

/-- What ordinary names lead to from where a spelling begins: all its names below the root can be
held by a store, and the bookkeeping name is among them only if it was spelled. -/
theorem LeadsTo.below_root {root path : Path} {spelling : String}
    (leads : (resolve root spelling).LeadsTo path) :
    ∃ names, path = root.under names ∧ (Text.parts '/' spelling).map escape <+: names
      ∧ (∀ name ∈ names, IsName name)
      ∧ (Layout.bookkeepingName ∈ names ↔ Layout.bookkeepingName ∈ Text.parts '/' spelling) := by
  obtain ⟨names, rfl, ordinary⟩ := leads
  refine ⟨(Text.parts '/' spelling).map escape ++ names, ?_, List.prefix_append _ _, ?_, ?_⟩
  · rw [resolve_eq_under, under_under]
  · intro name member
    rcases List.mem_append.mp member with spelled | below
    · exact isName_of_mem_map_escape spelled
    · exact (ordinary name below).1
  · have absent : Layout.bookkeepingName ∉ names := fun member => (ordinary _ member).2 rfl
    rw [List.mem_append, bookkeepingName_mem_map_escape_iff, or_iff_left absent]

end Path

namespace Store

variable {μ : Type}

/-- What the store lists in a directory lies directly in it. -/
def Truthful (store : Store μ) : Prop :=
  ∀ directory, (store.list directory).Gives fun listing =>
    (∀ path ∈ listing.directories, directory.Contains path)
      ∧ ∀ entry ∈ listing.files, directory.Contains entry.location

variable {store : Store μ}

theorem callList_gives (truthful : store.Truthful) (directory : Path) (purpose : Purpose) :
    (store.callList directory purpose).Gives fun listing =>
      (∀ path ∈ listing.directories, directory.Contains path)
        ∧ ∀ entry ∈ listing.files, directory.Contains entry.location :=
  fun world => truthful directory world.memory

/-- The directories to go on with are the contained ones that are not the bookkeeping directory. -/
theorem directoriesIn_gives (truthful : store.Truthful) (directory : Path) :
    (store.directoriesIn directory Layout.isBookkeeping).Gives fun paths =>
      ∀ path ∈ paths, ∃ name, Path.Ordinary name ∧ path = directory.child name := by
  refine ((callList_gives truthful directory .children).mapError _).bind fun listing known =>
    Work.gives_pure fun path member => ?_
  obtain ⟨listed, kept⟩ := List.mem_filter.mp member
  obtain ⟨name, valid, rfl⟩ := known.1 path listed
  refine ⟨name, ⟨valid, ?_⟩, rfl⟩
  simpa [Layout.isBookkeeping] using kept

/-- No file of the bookkeeping directory's name is a data file. -/
theorem dataFilesIn_gives (truthful : store.Truthful) (directory : Path) :
    (store.dataFilesIn directory).Gives fun entries =>
      ∀ entry ∈ entries, ∃ name, Path.Ordinary name ∧ entry.location = directory.child name := by
  have levelGives := levelOrNone_gives_of_callList (callList_gives truthful directory .files)
    ⟨fun path member => absurd member List.not_mem_nil, fun entry member => absurd member List.not_mem_nil⟩
  refine levelGives.bind fun listing known => Work.gives_pure fun entry member => ?_
  obtain ⟨listed, data⟩ := List.mem_filter.mp member
  obtain ⟨name, valid, located⟩ := known.2 entry listed
  refine ⟨name, ⟨valid, ?_⟩, located⟩
  rintro rfl
  rw [FileEntry.name, located, Path.name_child] at data
  exact absurd data (by decide +kernel)

end Store

/-- A flat set of keys lists truthfully if stores can hold its keys. -/
theorem KeyStore.truthful_store (keys : KeyStore) (valid : keys.Valid) : keys.store.Truthful := by
  intro directory memory listing ended
  obtain rfl : keys.listing directory = listing := (Outcome.done_injective _ _) ended
  constructor
  · intro path listed
    obtain ⟨name, rfl, entry, stored, last, rest, located⟩ := keys.mem_directories_iff.mp listed
    exact ⟨name, valid entry stored name (by simp [located]), rfl⟩
  · intro entry listed
    obtain ⟨stored, name, located⟩ := keys.mem_filesIn_iff.mp listed
    exact ⟨name, valid entry stored name (by simp [located]), located⟩

namespace Table

variable {μ : Type}

/-- The visit belongs to a walk from one of the spelled directories, and ordinary names led to it. -/
def Reached (root : Path) (spellings : List String) (visit : Visit) : Prop :=
  visit.spelling ∈ spellings ∧ (Path.resolve root visit.spelling).LeadsTo visit.directory

/-- What classifying a visit may find: the name of its directory, or a directory in it to go on
with. -/
def Follows (root : Path) (visit : Visit) : Finding → Prop
  | .partition name => Path.relativeName? root visit.directory = some name
  | .descend next => next.spelling = visit.spelling
      ∧ ∃ name, Path.Ordinary name ∧ next.directory = visit.directory.child name

theorem reached_of_follows {root : Path} {spellings : List String} {visit next : Visit}
    (reached : Reached root spellings visit) (follows : Follows root visit (.descend next)) :
    Reached root spellings next := by
  obtain ⟨same, name, ordinary, below⟩ := follows
  refine ⟨same ▸ reached.1, ?_⟩
  rw [same, below]
  exact reached.2.child ordinary

theorem partitionName_gives (table : Table μ) (directory : Path) :
    (table.partitionName directory).Gives fun name =>
      Path.relativeName? table.root directory = some name := by
  unfold partitionName
  split
  · rename_i name named
    exact Work.gives_pure named
  · exact Work.gives_fail _ _

variable {table : Table μ}

theorem classify_gives (truthful : table.store.Truthful) (visit : Visit) :
    (table.classify visit).Gives fun findings =>
      ∀ finding ∈ findings, Follows table.root visit finding := by
  refine (Work.gives_any _).bind fun marked _ => ?_
  split
  · refine (table.partitionName_gives visit.directory).bind fun name named =>
      Work.gives_pure fun finding member => ?_
    rw [List.mem_singleton.mp member]
    exact named
  · refine ((Store.directoriesIn_gives truthful visit.directory).mapError _).bind
      fun children known => Work.gives_pure fun finding member => ?_
    obtain ⟨directory, listed, rfl⟩ := List.mem_map.mp member
    exact ⟨rfl, known directory listed⟩

/-- Every round classifies only what ordinary names lead to, and finds only such directories. -/
theorem search_reached (truthful : table.store.Truthful) (spellings : List String) :
    (table.search spellings).Gives fun rounds => ∀ (position : Nat) (round : Round),
      rounds[position]? = some round →
        round.Keeps (Reached table.root spellings) (Follows table.root) := by
  apply search_gives
  · exact fun _ visit _ => classify_gives truthful visit
  · exact fun _ visit next reached follows => reached_of_follows reached follows
  · exact fun spelling asked => ⟨asked, Path.leadsTo_refl _⟩

/-- A name found below some spellings goes on from one of them, and the bookkeeping name is in it
exactly if it was spelled. -/
theorem partitionsBelow_gives (truthful : table.store.Truthful) (spellings : List String) :
    (table.partitionsBelow spellings).Gives fun names => ∀ name ∈ names, ∃ spelling ∈ spellings,
      (Text.parts '/' spelling).map Path.escape <+: Text.parts '/' name
      ∧ (Layout.bookkeepingName ∈ Text.parts '/' name
        ↔ Layout.bookkeepingName ∈ Text.parts '/' spelling) := by
  refine (search_reached truthful spellings).bind fun rounds known => Work.gives_pure ?_
  intro name found
  obtain ⟨round, member, found⟩ := List.mem_flatMap.mp (List.mem_eraseDups.mp found)
  obtain ⟨position, reached⟩ := List.getElem?_of_mem member
  have kept := known position round reached
  obtain ⟨visit, listed, named⟩ := kept.found _ (Round.mem_partitions_iff.mp found)
  obtain ⟨asked, leads⟩ := kept.held visit listed
  obtain ⟨names, located, front, valid, shown⟩ := leads.below_root
  rw [Follows, located, Path.relativeName?_under] at named
  obtain rfl := Option.some.inj named
  rw [Text.parts_intercalate valid]
  exact ⟨visit.spelling, asked, front, shown⟩

theorem childrenByName_gives (truthful : table.store.Truthful) (directory : Path) :
    (table.childrenByName directory).Gives fun paths =>
      ∀ path ∈ paths, ∃ name, Path.Ordinary name ∧ path = directory.child name :=
  (Store.directoriesIn_gives truthful directory).mapError _

/-- Going down level by level stays on ordinary names. -/
theorem descendants_gives (truthful : table.store.Truthful) {origin : Path} (levels number : Nat)
    {frontier : List Path} (reached : ∀ directory ∈ frontier, origin.LeadsTo directory) :
    (table.descendants levels number frontier).Gives fun paths =>
      ∀ path ∈ paths, origin.LeadsTo path := by
  induction levels, number, frontier using descendants.induct with
  | case1 number frontier => exact Work.gives_pure reached
  | case2 number levels => exact Work.gives_pure reached
  | case3 levels number directory others ih =>
      rw [descendants]
      generalize directory :: others = frontier at reached ⊢
      refine (Engine.flatMap_gives (fun directory _ => childrenByName_gives truthful directory)
        _ _ _).bind fun children known => ih children fun child member => ?_
      obtain ⟨directory, listed, name, ordinary, rfl⟩ := known child member
      exact (reached directory listed).child ordinary

theorem datePartitions_gives (truthful : table.store.Truthful) :
    table.datePartitions.Gives fun names =>
      ∀ name ∈ names, Layout.bookkeepingName ∉ Text.parts '/' name := by
  refine (Work.gives_any _).bind fun _ _ => ?_
  have fromRoot : ∀ directory ∈ [table.root], table.root.LeadsTo directory := by
    intro directory member
    rw [List.mem_singleton.mp member]
    exact Path.leadsTo_refl _
  refine (descendants_gives truthful dateDepth 0 fromRoot).bind fun directories reached => ?_
  refine (Work.gives_mapM fun directory _ => table.partitionName_gives directory).bind
    fun names known => Work.gives_pure fun name member => ?_
  obtain ⟨directory, listed, named⟩ := known name (List.mem_eraseDups.mp member)
  obtain ⟨below, rfl, ordinary⟩ := reached directory listed
  rw [Path.relativeName?_under] at named
  obtain rfl := Option.some.inj named
  rw [Text.parts_intercalate fun name inside => (ordinary name inside).1]
  exact fun shown => (ordinary _ shown).2 rfl

theorem partitions_gives (truthful : table.store.Truthful) :
    table.partitions.Gives fun names =>
      ∀ name ∈ names, Layout.bookkeepingName ∉ Text.parts '/' name := by
  unfold partitions
  split
  · exact datePartitions_gives truthful
  · intro world names ended name member
    obtain ⟨spelling, asked, _, shown⟩ :=
      partitionsBelow_gives truthful [""] world names ended name member
    rw [shown, List.mem_singleton.mp asked]
    exact List.not_mem_nil

/-- The files of a partition lie below the root, in the bookkeeping directory exactly if it was
spelled. -/
theorem files_gives (truthful : table.store.Truthful) (spelling : String) :
    (table.files spelling).Gives fun entries => ∀ entry ∈ entries,
      ∃ names, entry.location = table.root.under names
        ∧ (Layout.bookkeepingName ∈ names ↔ Layout.bookkeepingName ∈ Text.parts '/' spelling) := by
  refine Work.Gives.mapError ?_ _
  intro world entries ended entry member
  obtain ⟨name, ordinary, located⟩ :=
    Store.dataFilesIn_gives truthful _ world entries ended entry member
  obtain ⟨names, below, _, _, shown⟩ :=
    ((Path.leadsTo_refl (Path.resolve table.root spelling)).child ordinary).below_root
  exact ⟨names, located.trans below, shown⟩

theorem filesOfEach_gives (truthful : table.store.Truthful) (spellings : List String) :
    (table.filesOfEach spellings).Gives fun manifests => ∀ manifest ∈ manifests,
      manifest.1 ∈ spellings ∧ ∀ entry ∈ manifest.2,
        ∃ names, entry.location = table.root.under names
          ∧ (Layout.bookkeepingName ∈ names
            ↔ Layout.bookkeepingName ∈ Text.parts '/' manifest.1) := by
  unfold filesOfEach
  dsimp only
  split
  · exact Work.gives_pure fun manifest member => absurd member List.not_mem_nil
  · refine (Work.gives_any _).bind fun _ _ => ?_
    have manifestGives : ∀ spelling ∈ spellings.eraseDups, (table.manifest spelling).Gives
        fun manifest => manifest.1 = spelling ∧ ∀ entry ∈ manifest.2,
          ∃ names, entry.location = table.root.under names
            ∧ (Layout.bookkeepingName ∈ names
              ↔ Layout.bookkeepingName ∈ Text.parts '/' spelling) :=
      fun spelling _ => (files_gives truthful spelling).bind fun entries known =>
        Work.gives_pure ⟨rfl, known⟩
    intro world manifests ended manifest member
    obtain ⟨spelling, listed, same, known⟩ :=
      Engine.map_gives manifestGives _ _ _ world manifests ended manifest member
    subst same
    exact ⟨List.mem_eraseDups.mp listed, known⟩

/-- The bookkeeping directory shows exactly where the caller names it. On every store that lists
truthfully, whatever its failures and its memory and under every schedule, no partition of the whole
table has the bookkeeping name in it. A partition found below some spellings has it, and a file
listed for a partition has it below the root, exactly if it is a part of the spelling that they come
from. So a search or a listing that begins inside the bookkeeping directory shows what lies there. -/
theorem bookkeeping_shown_iff_spelled (table : Table μ) (truthful : table.store.Truthful) :
    table.partitions.Gives (fun names =>
        ∀ name ∈ names, Layout.bookkeepingName ∉ Text.parts '/' name)
      ∧ (∀ spellings, (table.partitionsBelow spellings).Gives fun names =>
        ∀ name ∈ names, ∃ spelling ∈ spellings,
          (Text.parts '/' spelling).map Path.escape <+: Text.parts '/' name
          ∧ (Layout.bookkeepingName ∈ Text.parts '/' name
            ↔ Layout.bookkeepingName ∈ Text.parts '/' spelling))
      ∧ (∀ spelling, (table.files spelling).Gives fun entries => ∀ entry ∈ entries,
        ∃ names, entry.location = table.root.under names
          ∧ (Layout.bookkeepingName ∈ names
            ↔ Layout.bookkeepingName ∈ Text.parts '/' spelling))
      ∧ ∀ spellings, (table.filesOfEach spellings).Gives fun manifests =>
        ∀ manifest ∈ manifests, manifest.1 ∈ spellings ∧ ∀ entry ∈ manifest.2,
          ∃ names, entry.location = table.root.under names
            ∧ (Layout.bookkeepingName ∈ names
              ↔ Layout.bookkeepingName ∈ Text.parts '/' manifest.1) :=
  ⟨partitions_gives truthful, partitionsBelow_gives truthful, files_gives truthful,
    filesOfEach_gives truthful⟩

/-- A marked directory and a data file inside the bookkeeping directory are given to whoever names
it, and to nobody else. -/
theorem bookkeeping_shown_iff_spelled_inside :
    let marker : FileEntry := ⟨⟨[".hoodie", "a", ".hoodie_partition_metadata"]⟩, 10, default⟩
    let file : FileEntry := ⟨⟨[".hoodie", "f.parquet"]⟩, 10, default⟩
    let keys : KeyStore := { files := [marker, file], distinct := by decide }
    let table : Table Unit := { Table.ofKeys keys Path.top {} with order := fun _ _ => 0 }
    let world : World Unit := { memory := () }
    table.store.Truthful ∧ (table.partitions world).1 = .done []
      ∧ (table.partitionsBelow [".hoodie"] world).1 = .done [".hoodie/a"]
      ∧ Layout.bookkeepingName ∈ Text.parts '/' ".hoodie/a"
      ∧ (table.files ".hoodie" world).1 = .done [file]
      ∧ (table.filesOfEach [".hoodie"] world).1 = .done [(".hoodie", [file])]
      ∧ ∃ names, file.location = Path.top.under names ∧ Layout.bookkeepingName ∈ names := by
  intro marker file keys table world
  have valid : keys.Valid := by
    simp [KeyStore.Valid, Path.Valid, Path.IsName, keys, marker, file]
  have truthful : table.store.Truthful := keys.truthful_store valid
  have found : (table.partitionsBelow [".hoodie"] world).1 = .done [".hoodie/a"] := by
    decide +kernel
  have listed : (table.files ".hoodie" world).1 = .done [file] := by decide +kernel
  have spelled : Layout.bookkeepingName ∈ Text.parts '/' ".hoodie" := by decide +kernel
  obtain ⟨_, searches, lists, _⟩ := bookkeeping_shown_iff_spelled table truthful
  obtain ⟨spelling, asked, _, shown⟩ :=
    searches [".hoodie"] world _ found ".hoodie/a" List.mem_cons_self
  obtain ⟨names, located, shown'⟩ := lists ".hoodie" world _ listed file List.mem_cons_self
  rw [List.mem_singleton.mp asked] at shown
  exact ⟨truthful, by decide +kernel, found, shown.mpr spelled, listed, by decide +kernel, names,
    located, shown'.mpr spelled⟩

end Table

end PartitionedTable
