import PartitionedTable.Proofs.Visited
import PartitionedTable.Store.Tree

/-!
What listings hand down. A property of paths that every listing hands from a directory to what lies in
it holds of all that a table reports, if it holds where the questions begin (`Store.HandsDown`). On a
tree of directories that is the property of being legible: a listing with a control character in one of
its names is refused as a whole, and what a caller spells is percent-encoded. So nothing that is
reported of such a tree can break a line.
-/

namespace PartitionedTable

namespace Store

/-- Listings of directories with the property hold only what has it. -/
def HandsDown (store : Store Unit) (holds : Path → Prop) : Prop :=
  ∀ directory, holds directory → (store.list directory).Gives fun listing =>
    (∀ path ∈ listing.directories, holds path) ∧ ∀ entry ∈ listing.files, holds entry.location

/-- No listing has two files whose locations read the same. -/
def ListsApart (store : Store Unit) : Prop :=
  ∀ directory, (store.list directory).Gives fun listing =>
    (listing.files.map fun entry => entry.location.text).Nodup

section Questions

variable {store : Store Unit} {holds : Path → Prop} {directory : Path}

theorem directoriesIn_handsDown (handsDown : store.HandsDown holds) (begun : holds directory)
    (excluded : String → Bool) :
    (store.directoriesIn directory excluded).Gives fun paths => ∀ path ∈ paths, holds path := by
  have listed : (store.callList directory .children).Gives fun listing =>
      ∀ path ∈ listing.directories, holds path :=
    fun world listing ended => (handsDown directory begun world.memory listing ended).1
  exact (listed.mapError _).bind fun listing known => Work.gives_pure fun path member =>
    known path (List.mem_filter.mp member).1

/-- What is known of the files of every listing of a directory is known of its data files. -/
theorem dataFilesIn_gives_of_list {known : List FileEntry → Prop}
    (lists : (store.list directory).Gives fun listing => known listing.files) (none : known [])
    (fewer : ∀ {files kept : List FileEntry}, kept.Sublist files → known files → known kept) :
    (store.dataFilesIn directory).Gives known := by
  have listed : (store.callList directory .files).Gives fun listing => known listing.files :=
    fun world listing ended => lists world.memory listing ended
  exact (levelOrNone_gives_of_callList listed none).bind fun listing told =>
    Work.gives_pure (fewer List.filter_sublist told)

theorem dataFilesIn_handsDown (handsDown : store.HandsDown holds) (begun : holds directory) :
    (store.dataFilesIn directory).Gives fun entries => ∀ entry ∈ entries, holds entry.location := by
  refine dataFilesIn_gives_of_list (fun memory listing ended => ?_) ?_ ?_
  · exact (handsDown directory begun memory listing ended).2
  · exact fun entry member => absurd member List.not_mem_nil
  · exact fun fewer known entry member => known entry (fewer.subset member)

theorem dataFilesIn_apart (apart : store.ListsApart) (directory : Path) :
    (store.dataFilesIn directory).Gives fun entries =>
      (entries.map fun entry => entry.location.text).Nodup :=
  dataFilesIn_gives_of_list (apart directory) List.nodup_nil fun fewer known =>
    (fewer.map _).nodup known

end Questions

end Store

/-- A walk comes upon nothing else. -/
theorem Visited.handed {store : Store Unit} {holds : Path → Prop} {root directory : Path}
    {spellings : List String}
    (handsDown : store.HandsDown holds) (spelled : ∀ spelling, holds (Path.resolve root spelling))
    (visited : Visited store root spellings directory) : holds directory := by
  induction visited with
  | seed asked => exact spelled _
  | child visited bare lists member ih =>
      exact Store.directoriesIn_handsDown handsDown ih _ { memory := () } _
        (lists { memory := () }) _ member

namespace Table

variable {table : Table Unit} {holds : Path → Prop}

/-- A name that tells the way from the root to a directory with the property. -/
def NamesSome (table : Table Unit) (holds : Path → Prop) (name : String) : Prop :=
  ∃ directory, holds directory ∧ Path.relativeName? table.root directory = some name

variable (handsDown : table.store.HandsDown holds)
  (spelled : ∀ spelling, holds (Path.resolve table.root spelling))
include handsDown spelled

theorem partitionsBelow_namesSome (spellings : List String) :
    (table.partitionsBelow spellings).Gives fun names => ∀ name ∈ names, table.NamesSome holds name := by
  intro world names ended name member
  have found : table.Finds spellings world (.done names) := by
    have finished : ((table.within table.rounds).partitionsBelow spellings world).1
        ≠ .failed .unfinished := fun unfinished => by cases ended.symm.trans unfinished
    exact ended ▸ finds_of_ended finished
  obtain ⟨directory, visited, -, named⟩ := (found.mem_iff name).mp member
  exact ⟨directory, visited.handed handsDown spelled, named⟩

omit spelled in
theorem descendants_handsDown (levels number : Nat) {frontier : List Path}
    (begun : ∀ directory ∈ frontier, holds directory) :
    (table.descendants levels number frontier).Gives fun paths => ∀ path ∈ paths, holds path := by
  induction levels, number, frontier using descendants.induct with
  | case1 number frontier => exact Work.gives_pure begun
  | case2 number levels => exact Work.gives_pure begun
  | case3 levels number directory others ih =>
      rw [descendants]
      generalize directory :: others = frontier at begun ⊢
      refine (Engine.flatMap_gives (fun directory member =>
        (Store.directoriesIn_handsDown handsDown (begun directory member) _).mapError _) _ _ _).bind
          fun children known => ih children fun child member => ?_
      obtain ⟨directory, -, holds⟩ := known child member
      exact holds

theorem datePartitions_namesSome :
    table.datePartitions.Gives fun names => ∀ name ∈ names, table.NamesSome holds name := by
  have fromRoot : ∀ directory ∈ [table.root], holds directory := by
    intro directory member
    rw [List.mem_singleton.mp member]
    exact Path.under_nil table.root ▸ spelled ""
  refine (Work.gives_any _).bind fun _ _ => ?_
  refine (descendants_handsDown handsDown dateDepth 0 fromRoot).bind fun directories known => ?_
  refine (Work.gives_mapM fun directory _ => table.partitionName_gives directory).bind
    fun names named => Work.gives_pure fun name member => ?_
  obtain ⟨directory, listed, told⟩ := named name (List.mem_eraseDups.mp member)
  exact ⟨directory, known directory listed, told⟩

theorem partitions_namesSome :
    table.partitions.Gives fun names => ∀ name ∈ names, table.NamesSome holds name := by
  unfold partitions
  split
  · exact datePartitions_namesSome handsDown spelled
  · exact partitionsBelow_namesSome handsDown spelled [""]

theorem files_handsDown (spelling : String) :
    (table.files spelling).Gives fun entries => ∀ entry ∈ entries, holds entry.location :=
  (Store.dataFilesIn_handsDown handsDown (spelled spelling)).mapError _

end Table

namespace Text

variable {separator : Char}

theorem mem_intercalate {c : Char} {pieces : List (List Char)}
    (member : c ∈ [separator].intercalate pieces) : c = separator ∨ ∃ piece ∈ pieces, c ∈ piece := by
  induction pieces with
  | nil => cases member
  | cons piece pieces ih =>
      cases pieces with
      | nil =>
          rw [List.intercalate_singleton] at member
          exact .inr ⟨piece, List.mem_cons_self, member⟩
      | cons next pieces =>
          rw [List.intercalate_cons_cons, List.append_assoc] at member
          rcases List.mem_append.mp member with here | later
          · exact .inr ⟨piece, List.mem_cons_self, here⟩
          rcases List.mem_cons.mp later with same | later
          · exact .inl same
          · exact (ih later).imp_right fun ⟨piece, listed, inside⟩ =>
              ⟨piece, List.mem_cons_of_mem _ listed, inside⟩

end Text

namespace Path

/-- No name on the way holds a control character. -/
def Legible (path : Path) : Prop :=
  ∀ name ∈ path.segments, ∀ c ∈ name.toList, ¬ Tree.isControl c = true

theorem Legible.child {directory : Path} {name : String} (legible : directory.Legible)
    (clean : ∀ c ∈ name.toList, ¬ Tree.isControl c = true) : (directory.child name).Legible := by
  intro other member
  rcases List.mem_append.mp member with above | here
  · exact legible other above
  · rwa [List.mem_singleton.mp here]

/-- Whatever is spelled is legible once it is percent-encoded. -/
theorem legible_resolve (spelling : String) : (resolve Path.top spelling).Legible := by
  intro name member c inside
  obtain ⟨-, printable, notDelete⟩ := (isName_of_mem_map_escape member).2.2.2 c inside
  simp [Tree.isControl, notDelete, Nat.not_le.mpr printable]

theorem lineBreak_not_mem_intercalate {names : List String}
    (clean : ∀ name ∈ names, '\n' ∉ name.toList) : '\n' ∉ ("/".intercalate names).toList := by
  rw [String.toList_intercalate]
  intro member
  have joined : '\n' ∈ ['/'].intercalate (names.map String.toList) := member
  rcases Text.mem_intercalate joined with same | ⟨piece, listed, inside⟩
  · exact absurd same (by decide)
  · obtain ⟨name, here, rfl⟩ := List.mem_map.mp listed
    exact clean name here inside

theorem Legible.lineBreak_not_mem {path : Path} (legible : path.Legible) {name : String}
    (member : name ∈ path.segments) : '\n' ∉ name.toList :=
  fun inside => legible name member '\n' inside (by decide)

theorem Legible.lineBreak_not_mem_name {path : Path} (legible : path.Legible) :
    '\n' ∉ path.name.toList := by
  unfold name
  cases last : path.segments.getLast? with
  | none => exact List.not_mem_nil
  | some name => exact legible.lineBreak_not_mem (List.mem_of_getLast? last)

/-- What tells the way to a legible directory is a text of one line. -/
theorem Legible.lineBreak_not_mem_relativeName {root path : Path} {name : String}
    (legible : path.Legible) (named : relativeName? root path = some name) : '\n' ∉ name.toList := by
  obtain ⟨names, rfl, rfl⟩ := relativeName?_eq_some_iff.mp named
  exact lineBreak_not_mem_intercalate fun name member =>
    legible.lineBreak_not_mem (List.mem_append_right _ member)

/-- In one directory the names tell the texts apart. -/
theorem text_child_injective (directory : Path) {name name' : String}
    (same : (directory.child name).text = (directory.child name').text) : name = name' := by
  by_cases atTop : directory = top
  · subst atTop
    rwa [text_child_top, text_child_top] at same
  · rwa [text_child atTop, text_child atTop, String.append_right_inj] at same

end Path

namespace Tree

theorem not_isControl_of_illegal?_eq_none {directory : Path} {names : List String}
    (legal : illegal? directory names = none) :
    ∀ name ∈ names, ∀ c ∈ name.toList, ¬ isControl c = true := by
  intro name member c inside
  have clean := List.findSome?_eq_none_iff.mp legal name member
  rw [Option.map_eq_none_iff, List.find?_eq_none] at clean
  exact clean c inside

/-- A listing is empty, or it holds what lies at the place, under names that paths can hold. -/
theorem eq_of_list_eq_done {tree : Tree} {base directory : Path} {listing : Listing}
    (answered : tree.list base directory = .done listing) :
    listing = { directories := [], files := [] }
      ∨ (let place := base.under directory.segments
        let names := tree.directoryNamesIn place
        let files := FileEntry.sorted (tree.filesIn place)
        illegal? directory (names ++ files.map FileEntry.name) = none
          ∧ listing = {
            directories := names.map directory.child
            files := (files.filter fun entry => !isUpload entry.name).map fun entry =>
              { entry with location := directory.child entry.name } }) := by
  unfold list at answered
  dsimp only at answered
  split at answered
  · unfold levelAt at answered
    dsimp only at answered
    split at answered
    · cases answered
    · rename_i legal
      cases answered
      exact .inr ⟨legal, rfl⟩
  · cases answered
    exact .inl rfl
  · cases answered
    exact .inl rfl
  · cases answered

variable (tree : Tree) (base : Path)

/-- A listing of a legible directory is refused or legible. -/
theorem store_handsDown : (tree.store base).HandsDown Path.Legible := by
  intro directory legible memory listing ended
  have answered : tree.list base directory = .done listing := ended
  rcases eq_of_list_eq_done answered with rfl | ⟨legal, rfl⟩
  · exact ⟨fun path member => absurd member List.not_mem_nil,
      fun entry member => absurd member List.not_mem_nil⟩
  have clean := not_isControl_of_illegal?_eq_none legal
  constructor
  · intro path member
    obtain ⟨name, listed, rfl⟩ := List.mem_map.mp member
    exact legible.child (clean name (List.mem_append_left _ listed))
  · intro entry member
    obtain ⟨entry, listed, rfl⟩ := List.mem_map.mp member
    have named := List.mem_map_of_mem (f := FileEntry.name) (List.mem_filter.mp listed).1
    exact legible.child (clean entry.name (List.mem_append_right _ named))

/-- As long as no two files are in one place, the files of a listing have different names. -/
theorem store_listsApart (distinct : (tree.files.map FileEntry.location).Nodup) :
    (tree.store base).ListsApart := by
  intro directory memory listing ended
  have answered : tree.list base directory = .done listing := ended
  rcases eq_of_list_eq_done answered with rfl | ⟨-, rfl⟩
  · exact List.nodup_nil
  generalize base.under directory.segments = place
  have inside : ∀ entry ∈ tree.filesIn place, entry.location = place.child entry.name := by
    intro entry member
    obtain ⟨_, here⟩ := List.mem_filter.mp member
    split at here
    · rename_i name below
      have located : entry.location = place.child name :=
        Path.below?_eq_some_iff_under.mp below
      rw [FileEntry.name, located, Path.name_child]
    · cases here
  have apart : ((tree.filesIn place).map fun entry => (directory.child entry.name).text).Nodup := by
    have stored : ((tree.filesIn place).map FileEntry.location).Nodup :=
      (List.filter_sublist.map _).nodup distinct
    refine List.Nodup.map_on (fun entry member other member' same => ?_) stored.of_map
    apply List.inj_on_of_nodup_map stored member member'
    rw [inside entry member, inside other member', Path.text_child_injective directory same]
  have chosen : (FileEntry.sorted (tree.filesIn place)).Perm (tree.filesIn place) :=
    List.mergeSort_perm _ _
  rw [List.map_map]
  exact (List.filter_sublist.map _).nodup ((chosen.map _).nodup_iff.mpr apart)

end Tree

end PartitionedTable
