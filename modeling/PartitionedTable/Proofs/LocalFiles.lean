import PartitionedTable.Proofs.ByteOrder
import PartitionedTable.Proofs.Handback
import PartitionedTable.Store.Tree

/-!
What a directory of a file system answers that holds just the files of a flat set of keys. A place in
it is a file exactly if it is a key, a directory exactly if a key lies below it, and else missing, as
long as it lies below no file and its names are short enough (`Tree.found_lookup`). Listing a directory
gives the directories that the keys give, in the same order, and the same files in another one
(`Tree.levelAt_done`): none of the names is illegal, and none is that of an unfinished upload.
-/

namespace PartitionedTable

namespace KeyStore

variable (keys : KeyStore)

/-- The keys can be files of a directory: their names can stand in a path and are short enough, no key
lies below another one, and none is called like an unfinished upload. -/
structure Portable : Prop where
  valid : keys.Valid
  short : ∀ entry ∈ keys.files, ∀ name ∈ entry.location.segments, name.utf8ByteSize ≤ Tree.nameLimit
  apart : ∀ entry ∈ keys.files, ¬ keys.Holds entry.location
  finished : ∀ entry ∈ keys.files, Tree.isUpload entry.name = false

/-- The directories of the files: the one they all lie in, and those on the way to one of them. -/
def IsDirectory (path : Path) : Prop := path = Path.top ∨ keys.Holds path

/-- A path that a file system with these files can be asked about: its names are short enough, and it
lies below no file. -/
def Addressable (path : Path) : Prop :=
  (∀ name ∈ path.segments, name.utf8ByteSize ≤ Tree.nameLimit)
    ∧ ∀ entry ∈ keys.files, ∀ name names, path ≠ entry.location.under (name :: names)

variable {keys}

/-- What holds something below a directory is held in that directory. -/
theorem Holds.above {directory : Path} {names : List String}
    (held : keys.Holds (directory.under names)) : keys.Holds directory := by
  obtain ⟨entry, stored, last, rest, located⟩ := held
  rw [Path.under_under] at located
  cases names with
  | nil => exact ⟨entry, stored, last, rest, located⟩
  | cons name names => exact ⟨entry, stored, name, names ++ last :: rest, located⟩

theorem Portable.not_holds (portable : keys.Portable) {path : Path}
    (stored : keys.contains path = true) : ¬ keys.Holds path := by
  obtain ⟨entry, member, rfl⟩ := keys.contains_iff.mp stored
  exact portable.apart entry member

/-- A directory of the files can be asked about. -/
theorem Portable.addressable (portable : keys.Portable) {directory : Path}
    (inside : keys.IsDirectory directory) : keys.Addressable directory := by
  rcases inside with rfl | held
  · exact ⟨fun _ member => absurd member List.not_mem_nil, fun _ _ name names equal =>
      List.append_ne_nil_of_right_ne_nil _ (List.cons_ne_nil name names)
        (congrArg Path.segments equal).symm⟩
  constructor
  · obtain ⟨entry, stored, last, rest, located⟩ := held
    intro name member
    apply portable.short entry stored
    rw [located, Path.segments_under]
    exact List.mem_append_left _ member
  · rintro entry stored name names rfl
    exact portable.apart entry stored held.above

/-- No file is a directory as well. -/
theorem Portable.not_isDirectory (portable : keys.Portable)
    (rootless : ¬ keys.contains Path.top = true) {path : Path}
    (stored : keys.contains path = true) : ¬ keys.IsDirectory path := by
  rintro (rfl | held)
  · exact rootless stored
  · exact portable.not_holds stored held

/-- What lies directly in a directory under a short name can be asked about. -/
theorem Portable.addressable_child (portable : keys.Portable)
    (rootless : ¬ keys.contains Path.top = true) {directory : Path}
    (inside : keys.IsDirectory directory) {name : String}
    (short : name.utf8ByteSize ≤ Tree.nameLimit) : keys.Addressable (directory.child name) := by
  have reachable := portable.addressable inside
  constructor
  · intro other member
    rcases List.mem_append.mp member with above | here
    · exact reachable.1 other above
    · rwa [List.mem_singleton.mp here]
  · intro entry stored first rest located
    -- The entry would lie at or above the directory, which lies below no file and is none.
    have above : directory = entry.location.under (first :: rest).dropLast := by
      have parents := congrArg Path.parent located
      rw [Path.parent_child] at parents
      rw [parents]
      apply Path.ext_segments
      rw [Path.segments_parent, Path.segments_under, Path.segments_under,
        List.dropLast_append_of_ne_nil (List.cons_ne_nil first rest)]
    cases between : (first :: rest).dropLast with
    | nil =>
        rw [between, Path.under_nil] at above
        subst above
        exact portable.not_isDirectory rootless (keys.contains_iff.mpr ⟨entry, stored, rfl⟩) inside
    | cons second others =>
        rw [between] at above
        exact reachable.2 entry stored second others above

/-- So can the directory above a path that can be asked about. -/
theorem Addressable.parent {path : Path} (addressable : keys.Addressable path) :
    keys.Addressable path.parent := by
  constructor
  · exact fun name member => addressable.1 name (List.dropLast_subset _ member)
  · intro entry stored name names located
    have below : path ≠ Path.top := by
      rintro rfl
      have none := congrArg Path.segments located
      exact List.append_ne_nil_of_right_ne_nil _ (List.cons_ne_nil name names) none.symm
    apply addressable.2 entry stored name (names ++ [path.name])
    calc path = path.parent.child path.name := (Path.child_parent_name below).symm
      _ = (entry.location.under (name :: names)).child path.name := by rw [located]
      _ = entry.location.under (name :: (names ++ [path.name])) := by
        rw [Path.child_eq_under, Path.under_under, List.cons_append]

/-- On the way to a path that can be asked about there is no file. -/
theorem Addressable.not_contains {front : List String} {name : String} {rest : List String}
    (addressable : keys.Addressable ⟨front ++ name :: rest⟩) : ¬ keys.contains ⟨front⟩ = true := by
  intro stored
  obtain ⟨entry, member, located⟩ := keys.contains_iff.mp stored
  exact addressable.2 entry member name rest (by rw [located]; rfl)

end KeyStore

namespace Path

/-- What is above both places does not matter to the way from one to the other. -/
theorem below?_under_under (base directory : Path) (names : List String) :
    below? (base.under directory.segments) (base.under names) = below? directory ⟨names⟩ := by
  apply Option.ext
  intro rest
  rw [below?_eq_some_iff, below?_eq_some_iff, segments_under, segments_under, List.append_assoc,
    List.append_cancel_left_eq]

end Path

namespace Tree

variable {tree : Tree} {base : Path} {keys : KeyStore}

/-- The files below `base`, their locations as they are seen from there. -/
def filesBelow (tree : Tree) (base : Path) : List FileEntry :=
  tree.files.filterMap fun entry =>
    (Path.below? base entry.location).map fun names => { entry with location := ⟨names⟩ }

/-- The directory `base` is there and holds just the files of `keys`; every directory in it is on the
way to one of them. -/
structure HoldsExactly (tree : Tree) (base : Path) (keys : KeyStore) : Prop where
  present : tree.lookup base = .directory
  files : (tree.filesBelow base).Perm keys.files
  directories : ∀ names, names ≠ [] → base.under names ∈ tree.directories → keys.Holds ⟨names⟩

/-- What `path` leads to, if the files are those of `keys`. -/
inductive Found (keys : KeyStore) (path : Path) : Lookup → Prop where
  | file (entry : FileEntry) (stored : keys.contains path = true) : Found keys path (.file entry)
  | directory (inside : keys.IsDirectory path) : Found keys path .directory
  | missing (absent : ¬ keys.contains path = true) (bare : ¬ keys.IsDirectory path) :
      Found keys path .missing

section Lookups

theorem fileAt?_isSome_iff {path : Path} :
    (tree.fileAt? path).isSome = true ↔ ∃ entry ∈ tree.files, entry.location = path := by
  simp [fileAt?, List.find?_isSome]

theorem isDirectory_iff {path : Path} : tree.isDirectory path = true ↔ path = Path.top
    ∨ (∃ names, path.under names ∈ tree.directories)
    ∨ ∃ entry ∈ tree.files, ∃ name names, entry.location = path.under (name :: names) := by
  unfold isDirectory
  simp only [Bool.or_eq_true, beq_iff_eq, List.any_eq_true, Option.isSome_iff_exists,
    Path.below?_eq_some_iff_under, or_assoc]
  refine or_congr_right (or_congr ⟨?_, ?_⟩ (exists_congr fun entry => and_congr_right fun _ => ⟨?_, ?_⟩))
  · rintro ⟨directory, member, names, rfl⟩
    exact ⟨names, member⟩
  · rintro ⟨names, member⟩
    exact ⟨_, member, names, rfl⟩
  · intro chosen
    split at chosen
    · rename_i name names found
      exact ⟨name, names, Path.below?_eq_some_iff_under.mp found⟩
    · cases chosen
  · rintro ⟨name, names, located⟩
    rw [located, Path.below?_under]

theorem le_depth {entry : FileEntry} (stored : entry ∈ tree.files) :
    entry.location.segments.length ≤ tree.depth := by
  rw [depth, List.foldl_max, Nat.zero_max]
  exact List.le_max?_getD_of_mem
    (List.mem_map_of_mem (List.mem_append_left _ (List.mem_map_of_mem stored)))

/-- Looking up goes on from every directory on the way. -/
theorem lookupFrom_append {start : Path} {names : List String}
    (found : tree.lookupFrom start names = .directory) (more : List String) :
    tree.lookupFrom start (names ++ more) = tree.lookupFrom (start.under names) more := by
  induction names generalizing start with
  | nil => rw [List.nil_append, Path.under_nil]
  | cons name names ih =>
      rw [lookupFrom] at found
      rw [List.cons_append, lookupFrom]
      split at found
      · cases found
      · rename_i noFile
        split at found
        · cases found
        · rename_i present
          split at found
          · cases found
          · rename_i short
            rw [if_neg noFile, if_neg present, if_neg short, ih found, Path.child_under]

/-- A lookup that ends at once at a directory: there is no file at this place. -/
theorem lookupFrom_nil_eq_directory_iff {place : Path} : tree.lookupFrom place [] = .directory
    ↔ ¬ (tree.fileAt? place).isSome = true ∧ tree.isDirectory place = true := by
  rw [lookupFrom]
  cases tree.fileAt? place with
  | some entry => simp
  | none => simp

/-- Where there is nothing, there is nothing below either. -/
theorem lookupFrom_eq_missing {place : Path} (noFile : ¬ (tree.fileAt? place).isSome = true)
    (noDirectory : ¬ tree.isDirectory place = true) (names : List String) :
    tree.lookupFrom place names = .missing := by
  cases names with
  | nil =>
      rw [lookupFrom, Option.not_isSome_iff_eq_none.mp noFile]
      dsimp only
      rw [if_neg noDirectory]
  | cons name names =>
      rw [lookupFrom, if_neg noFile, if_pos (by rw [Bool.eq_false_iff.mpr noDirectory]; rfl)]

end Lookups

/-- Sorted names are told by which they are. -/
theorem mergeSort_eq_of_perm {names names' : List String} (same : names.Perm names') :
    names.mergeSort (fun left right => decide (left ≤ right))
      = names'.mergeSort (fun left right => decide (left ≤ right)) := by
  refine List.Perm.eq_of_pairwise (fun _ _ _ _ => String.le_antisymm)
    (Text.pairwise_mergeSort id names) (Text.pairwise_mergeSort id names') ?_
  exact ((List.mergeSort_perm names _).trans same).trans (List.mergeSort_perm names' _).symm

namespace HoldsExactly

theorem mem_iff (holds : tree.HoldsExactly base keys) {names : List String} :
    (∃ entry ∈ tree.files, entry.location = base.under names)
      ↔ ∃ entry ∈ keys.files, entry.location = ⟨names⟩ := by
  constructor
  · rintro ⟨entry, stored, located⟩
    refine ⟨{ entry with location := ⟨names⟩ }, holds.files.mem_iff.mp ?_, rfl⟩
    refine List.mem_filterMap.mpr ⟨entry, stored, ?_⟩
    rw [located, Path.below?_under]
    rfl
  · rintro ⟨entry, stored, located⟩
    obtain ⟨origin, member, relocated⟩ := List.mem_filterMap.mp (holds.files.mem_iff.mpr stored)
    obtain ⟨below, under, rfl⟩ := Option.map_eq_some_iff.mp relocated
    cases located
    exact ⟨origin, member, Path.below?_eq_some_iff_under.mp under⟩

theorem fileAt?_iff (holds : tree.HoldsExactly base keys) {path : Path} :
    (tree.fileAt? (base.under path.segments)).isSome = true ↔ keys.contains path = true := by
  rw [fileAt?_isSome_iff, holds.mem_iff, keys.contains_iff]

theorem lookup_under (holds : tree.HoldsExactly base keys) (names : List String) :
    tree.lookup (base.under names) = tree.lookupFrom base names := by
  have begins : tree.lookupFrom Path.top base.segments = .directory := holds.present
  have atBase : Path.top.under base.segments = base := rfl
  rw [lookup, Path.segments_under, lookupFrom_append begins, atBase]

/-- The directory itself is a directory and no file. -/
theorem base_is_directory (holds : tree.HoldsExactly base keys) :
    ¬ (tree.fileAt? base).isSome = true ∧ tree.isDirectory base = true := by
  have here := holds.lookup_under []
  rw [Path.under_nil, holds.present] at here
  exact lookupFrom_nil_eq_directory_iff.mp here.symm

theorem not_contains_top (holds : tree.HoldsExactly base keys) :
    ¬ keys.contains Path.top = true := by
  have atBase : base.under Path.top.segments = base := Path.under_nil base
  rw [← holds.fileAt?_iff, atBase]
  exact holds.base_is_directory.1

theorem isDirectory_iff (holds : tree.HoldsExactly base keys) {path : Path} :
    tree.isDirectory (base.under path.segments) = true ↔ keys.IsDirectory path := by
  constructor
  · intro there
    by_cases top : path = Path.top
    · exact .inl top
    right
    have filled : path.segments ≠ [] := Path.segments_ne_nil top
    rcases Tree.isDirectory_iff.mp there with none | ⟨more, member⟩ | ⟨entry, stored, first, rest, located⟩
    · have segments := congrArg Path.segments none
      exact absurd (List.append_eq_nil_iff.mp segments).2 filled
    · rw [Path.under_under] at member
      have held : keys.Holds (path.under more) :=
        holds.directories _ (List.append_ne_nil_of_left_ne_nil filled more) member
      exact held.above
    · rw [Path.under_under] at located
      obtain ⟨entry, stored, located⟩ := holds.mem_iff.mp ⟨entry, stored, located⟩
      exact ⟨entry, stored, first, rest, located⟩
  · rintro (rfl | ⟨entry, stored, first, rest, located⟩)
    · have atBase : base.under Path.top.segments = base := Path.under_nil base
      rw [atBase]
      exact holds.base_is_directory.2
    · obtain ⟨entry, stored, located⟩ := holds.mem_iff.mpr ⟨entry, stored, located⟩
      refine Tree.isDirectory_iff.mpr (.inr (.inr ⟨entry, stored, first, rest, ?_⟩))
      rw [located, Path.under_under]

/-- Looking up from a directory on the way: the place is a file, a directory or missing just as the keys
say. The induction is on the names that are left; each leads to a directory again, to a file, which is
the end of the way, or to nothing. -/
theorem found_lookupFrom (holds : tree.HoldsExactly base keys) (portable : keys.Portable)
    {front rest : List String} (inside : keys.IsDirectory ⟨front⟩)
    (addressable : keys.Addressable ⟨front ++ rest⟩) :
    Found keys ⟨front ++ rest⟩ (tree.lookupFrom (base.under front) rest) := by
  have noFile : ∀ {names : List String}, ¬ keys.contains ⟨names⟩ = true →
      ¬ (tree.fileAt? (base.under names)).isSome = true :=
    fun absent => holds.fileAt?_iff.not.mpr absent
  induction rest generalizing front with
  | nil =>
      have absent : ¬ keys.contains ⟨front⟩ = true := fun stored =>
        portable.not_isDirectory holds.not_contains_top stored inside
      rw [List.append_nil, lookupFrom_nil_eq_directory_iff.mpr
        ⟨noFile absent, holds.isDirectory_iff.mpr inside⟩]
      exact .directory inside
  | cons name rest ih =>
      have present : tree.isDirectory (base.under front) = true := holds.isDirectory_iff.mpr inside
      have short : ¬ nameLimit < name.utf8ByteSize :=
        Nat.not_lt.mpr (addressable.1 name (List.mem_append_right front List.mem_cons_self))
      have next : (base.under front).child name = base.under (front ++ [name]) := by
        rw [Path.child_eq_under, Path.under_under]
      rw [lookupFrom, if_neg (noFile addressable.not_contains), if_neg (by rw [present]; decide),
        if_neg short, next]
      have whole : front ++ name :: rest = front ++ [name] ++ rest := by simp
      rw [whole] at addressable ⊢
      by_cases held : keys.Holds ⟨front ++ [name]⟩
      · exact ih (.inr held) addressable
      by_cases stored : keys.contains ⟨front ++ [name]⟩ = true
      · cases rest with
        | nil =>
            obtain ⟨entry, found⟩ := Option.isSome_iff_exists.mp (holds.fileAt?_iff.mpr stored)
            have here : tree.fileAt? (base.under (front ++ [name])) = some entry := found
            rw [List.append_nil, lookupFrom, here]
            exact .file entry stored
        | cons second rest => exact absurd stored addressable.not_contains
      · have notTop : ∀ more, (⟨front ++ [name] ++ more⟩ : Path) ≠ Path.top := by
          simp [Path.top]
        have noDirectory : ¬ tree.isDirectory (base.under (front ++ [name])) = true := by
          refine holds.isDirectory_iff.not.mpr (not_or.mpr ⟨?_, held⟩)
          exact List.append_nil (front ++ [name]) ▸ notTop []
        rw [lookupFrom_eq_missing (noFile stored) noDirectory]
        -- A key at or below the place would make it a file or a directory.
        refine .missing ?_ (not_or.mpr ⟨notTop rest, fun below => held below.above⟩)
        cases rest with
        | nil => rwa [List.append_nil]
        | cons second rest =>
            intro stored'
            obtain ⟨entry, member, located⟩ := keys.contains_iff.mp stored'
            exact held ⟨entry, member, second, rest, located⟩

/-- What a place below the directory is. -/
theorem found_lookup (holds : tree.HoldsExactly base keys) (portable : keys.Portable) {path : Path}
    (addressable : keys.Addressable path) :
    Found keys path (tree.lookup (base.under path.segments)) := by
  have top : keys.IsDirectory ⟨[]⟩ := .inl rfl
  have found := holds.found_lookupFrom portable top addressable
  rwa [Path.under_nil, ← holds.lookup_under] at found

/-- In a directory of the tree lie the directories that the keys give. -/
theorem mem_directoryNamesIn_iff (holds : tree.HoldsExactly base keys) {directory : Path}
    {name : String} : name ∈ tree.directoryNamesIn (base.under directory.segments)
      ↔ keys.Holds (directory.child name) := by
  unfold directoryNamesIn
  rw [List.mem_mergeSort, List.mem_eraseDups, List.mem_append, List.mem_filterMap,
    List.mem_filterMap]
  constructor
  · rintro (⟨path, recorded, chosen⟩ | ⟨entry, stored, chosen⟩)
    · split at chosen
      · rename_i first rest below
        cases chosen
        obtain rfl := Path.below?_eq_some_iff_under.mp below
        rw [Path.under_under] at recorded
        have held : keys.Holds (directory.under (name :: rest)) :=
          holds.directories _ (by simp) recorded
        rw [← Path.child_under] at held
        exact held.above
      · cases chosen
    · split at chosen
      · rename_i first second rest below
        cases chosen
        have located := Path.below?_eq_some_iff_under.mp below
        rw [Path.under_under] at located
        obtain ⟨entry, stored, located⟩ := holds.mem_iff.mp ⟨entry, stored, located⟩
        refine ⟨entry, stored, second, rest, ?_⟩
        rw [located, Path.child_under]
        rfl
      · cases chosen
  · rintro ⟨entry, stored, second, rest, located⟩
    rw [Path.child_under] at located
    obtain ⟨entry, stored, located⟩ := holds.mem_iff.mpr ⟨entry, stored, located⟩
    refine .inr ⟨entry, stored, ?_⟩
    have below : entry.location = (base.under directory.segments).under (name :: second :: rest) := by
      rw [located, Path.under_under]
    rw [below, Path.below?_under]

theorem directoryNamesIn_eq (holds : tree.HoldsExactly base keys) (directory : Path) :
    tree.directoryNamesIn (base.under directory.segments) = keys.namesBelow directory := by
  have same : ∀ name, name ∈ tree.directoryNamesIn (base.under directory.segments)
      ↔ name ∈ keys.namesBelow directory := fun name =>
    holds.mem_directoryNamesIn_iff.trans keys.mem_namesBelow_iff.symm
  unfold directoryNamesIn KeyStore.namesBelow at same ⊢
  simp only [List.mem_mergeSort, List.mem_eraseDups] at same
  exact mergeSort_eq_of_perm (Table.eraseDups_perm same)

/-- The files directly in a directory of the tree are those that the keys give. -/
theorem filesIn_perm (holds : tree.HoldsExactly base keys) (directory : Path) :
    ((tree.filesIn (base.under directory.segments)).map fun entry =>
      { entry with location := directory.child entry.name }).Perm (keys.filesIn directory) := by
  refine List.Perm.trans (.of_eq ?_) (holds.files.filter _)
  unfold filesIn filesBelow
  rw [List.filter_filterMap, ← List.filterMap_eq_map, List.filterMap_filter]
  refine List.filterMap_congr fun entry _ => ?_
  cases below : Path.below? base entry.location with
  | none =>
      have outside : ∀ names, Path.below? (base.under directory.segments) entry.location ≠ some names := by
        intro names found
        rw [Path.below?_eq_some_iff_under.mp found, Path.under_under, Path.below?_under] at below
        cases below
      rw [Option.eq_none_iff_forall_ne_some.mpr outside]
      rfl
  | some names =>
      have located := Path.below?_eq_some_iff_under.mp below
      rw [located, Path.below?_under_under, Option.map_some, Option.filter_some]
      dsimp only
      cases found : Path.below? directory ⟨names⟩ with
      | none => rfl
      | some rest =>
          match rest with
          | [] => rfl
          | [name] =>
              have here : (⟨names⟩ : Path) = directory.child name :=
                Path.below?_eq_some_iff_under.mp found
              have called : entry.name = name := by
                have placed : entry.location = (base.under directory.segments).child name := by
                  rw [located, show names = directory.segments ++ [name] from congrArg Path.segments here,
                    Path.child_eq_under, Path.under_under]
                rw [FileEntry.name, placed, Path.name_child]
              simp only [if_true, Function.comp_apply, called, here]
          | _ :: _ :: _ => rfl

/-- The name of a file directly in a directory of the tree can stand in a path, and is not that of an
unfinished upload. -/
theorem name_of_mem_filesIn (holds : tree.HoldsExactly base keys) (portable : keys.Portable)
    {directory : Path} {entry : FileEntry}
    (member : entry ∈ tree.filesIn (base.under directory.segments)) :
    Path.IsName entry.name ∧ isUpload entry.name = false := by
  have listed := (holds.filesIn_perm directory).mem_iff.mp (List.mem_map_of_mem member)
  obtain ⟨stored, _⟩ := keys.mem_filesIn_iff.mp listed
  constructor
  · exact portable.valid _ stored entry.name (List.mem_append_right _ (List.mem_singleton_self _))
  · have finished := portable.finished _ stored
    rwa [FileEntry.name, Path.name_child] at finished

/-- Listing a directory that is there: the directories of the keys in their order, and their files. -/
theorem levelAt_done (holds : tree.HoldsExactly base keys) (portable : keys.Portable)
    (directory : Path) :
    ∃ files, tree.levelAt base directory
        = .done { directories := (keys.listing directory).directories, files }
      ∧ files.Perm (keys.listing directory).files := by
  have sorted := List.mergeSort_perm (tree.filesIn (base.under directory.segments))
    (fun left right => Path.inOrder left.location right.location)
  have place : (⟨base.segments ++ directory.segments⟩ : Path) = base.under directory.segments := rfl
  unfold levelAt
  dsimp only
  rw [place, holds.directoryNamesIn_eq]
  generalize (tree.filesIn (base.under directory.segments)).mergeSort _ = files at sorted
  have known : ∀ entry ∈ files, Path.IsName entry.name ∧ isUpload entry.name = false :=
    fun entry member => holds.name_of_mem_filesIn portable (sorted.subset member)
  have legal : illegal? directory (keys.namesBelow directory ++ files.map FileEntry.name) = none := by
    refine List.findSome?_eq_none_iff.mpr fun name member => Option.map_eq_none_iff.mpr ?_
    have valid : Path.IsName name := by
      rcases List.mem_append.mp member with inside | inside
      · obtain ⟨entry, stored, second, rest, located⟩ := keys.mem_namesBelow_iff.mp inside
        exact portable.valid entry stored name (by simp [located])
      · obtain ⟨entry, listed, rfl⟩ := List.mem_map.mp inside
        exact (known entry listed).1
    refine List.find?_eq_none.mpr fun c shown control => ?_
    obtain ⟨_, printable, notDelete⟩ := valid.2.2.2 c shown
    unfold isControl at control
    simp only [Bool.or_eq_true, decide_eq_true_eq, beq_iff_eq] at control
    omega
  have kept : files.filter (fun entry => !isUpload entry.name) = files := by
    refine List.filter_eq_self.mpr fun entry member => ?_
    rw [(known entry member).2]
    rfl
  rw [legal, kept]
  exact ⟨_, rfl, (sorted.map _).trans (holds.filesIn_perm directory)⟩

/-- The tree is at least as deep as the keys go. -/
theorem depth_le (holds : tree.HoldsExactly base keys) : keys.depth ≤ tree.depth := by
  have bounded : ∀ entry ∈ keys.files, entry.location.segments.length ≤ tree.depth := by
    intro entry stored
    obtain ⟨entry', stored', located⟩ := holds.mem_iff.mpr ⟨entry, stored, rfl⟩
    have bound := le_depth stored'
    rw [located, Path.segments_under, List.length_append] at bound
    exact Nat.le_trans (Nat.le_add_left _ _) bound
  rw [KeyStore.depth, List.foldl_max, Nat.zero_max]
  cases greatest : (keys.files.map fun entry => entry.location.segments.length).max? with
  | none => exact Nat.zero_le _
  | some size =>
      obtain ⟨entry, stored, rfl⟩ := List.mem_map.mp (List.max?_mem greatest)
      exact bounded entry stored

end HoldsExactly

end Tree

end PartitionedTable
