import PartitionedTable.Opening
import PartitionedTable.Proofs.LocalFiles
import PartitionedTable.Proofs.Lockstep

/-!
A table opened on a directory, beside the table of the same files as keys. The two stores agree about
every place that the tables ask about: a head finds a file in both or in neither, and a listing gives
the same directories and files. So the tables answer alike, the failures of a search included
(`Table.opened_answers_as_keys`). One thing is assumed of the store on the directory: what it finds at
a place is what is there (`Tree.Sees`), whatever the address by which it asks the operating system.
-/

namespace PartitionedTable

namespace KeyStore

/-- The places asked about while partitions are searched and files listed below `spellings`. -/
inductive Asked (keys : KeyStore) (spellings : List String) : Path → Prop where
  | directory {path : Path} (inside : keys.IsDirectory path) : Asked keys spellings path
  | marker {directory : Path} {name : String} (inside : keys.IsDirectory directory)
      (known : name ∈ Layout.markerNames) : Asked keys spellings (directory.child name)
  | spelled {spelling : String} (member : spelling ∈ spellings) :
      Asked keys spellings (Path.resolve Path.top spelling)
  | above {spelling : String} (member : spelling ∈ spellings) :
      Asked keys spellings (Path.resolve Path.top spelling).parent

variable {keys : KeyStore}

/-- The search from the root asks about nothing else than the directories and their markers. -/
theorem Asked.of_root {spellings : List String} {path : Path} (asked : keys.Asked [""] path) :
    keys.Asked spellings path := by
  cases asked with
  | directory inside => exact .directory inside
  | marker inside known => exact .marker inside known
  | spelled member =>
      rw [List.mem_singleton.mp member]
      exact .directory (.inl rfl)
  | above member =>
      rw [List.mem_singleton.mp member]
      exact .directory (.inl rfl)

theorem marker_short : ∀ name ∈ Layout.markerNames, name.utf8ByteSize ≤ Tree.nameLimit := by
  decide

end KeyStore

namespace Tree

variable {tree : Tree} {base : Path} {keys : KeyStore} {path : Path}

/-- What is found at the address of a place below `base` is what is there. -/
def Sees (tree : Tree) (base path : Path) : Prop :=
  tree.find (base.under path.segments) = tree.lookup (base.under path.segments)

/-- It is, unless the address is too long or is that of a file called like a drive. A name on the way
that is too long by itself is no exception, as the system objects to either in the same words. -/
theorem sees_iff : tree.Sees base path
    ↔ (addressLimit < (address (base.under path.segments)).utf8ByteSize →
        tree.lookup (base.under path.segments) = .refused .nameTooLong)
      ∧ (endsInDrive (absoluteText (base.under path.segments)) = true →
        ∀ entry, tree.lookup (base.under path.segments) ≠ .file entry) := by
  unfold Sees find
  by_cases long : addressLimit < (address (base.under path.segments)).utf8ByteSize
  · rw [if_pos long]
    refine ⟨fun same => ⟨fun _ => same.symm, fun _ entry file => ?_⟩, fun told => (told.1 long).symm⟩
    rw [file] at same
    cases same
  · rw [if_neg long]
    generalize tree.lookup (base.under path.segments) = there
    cases there with
    | file entry =>
        by_cases drive : endsInDrive (absoluteText (base.under path.segments)) = true
        · have refused : ¬ Lookup.refused .notDirectory = .file entry := nofun
          dsimp only
          rw [if_pos drive]
          exact iff_of_false refused fun told => told.2 drive entry rfl
        · dsimp only
          rw [if_neg drive]
          exact iff_of_true rfl ⟨fun exceeds => absurd exceeds long, fun ends => absurd ends drive⟩
    | directory | missing | refused reason =>
        exact iff_of_true rfl ⟨fun exceeds => absurd exceeds long, fun _ _ => nofun⟩

/-- A file called like a drive is there and is not found. -/
example :
    let file : FileEntry := ⟨⟨["t", "C:"]⟩, 10, default⟩
    let tree : Tree := { files := [file] }
    tree.lookup file.location = .file file ∧ tree.find file.location = .refused .notDirectory := by
  decide +kernel

namespace HoldsExactly

/-- A head finds a file in both stores, or nothing in both. -/
theorem headsAlike (holds : tree.HoldsExactly base keys) (portable : keys.Portable)
    (addressable : keys.Addressable path) (sees : tree.Sees base path) :
    Store.HeadsAlike keys.store (tree.store base) path := by
  have found := holds.found_lookup portable addressable
  rw [← sees] at found
  have answered : ((tree.store base).head path ()).1 = tree.head base path := rfl
  have answered' : (keys.store.head path ()).1 = keys.head path := rfl
  have place : (⟨base.segments ++ path.segments⟩ : Path) = base.under path.segments := rfl
  unfold Store.HeadsAlike
  rw [answered, answered', head, KeyStore.head, place]
  generalize tree.find (base.under path.segments) = there at found ⊢
  cases found with
  | file entry stored =>
      rw [if_pos stored]
      exact .inl ⟨rfl, rfl⟩
  | directory inside =>
      have absent : ¬ keys.contains path = true := fun stored =>
        portable.not_isDirectory holds.not_contains_top stored inside
      rw [if_neg absent]
      exact .inr ⟨_, _, rfl, rfl, rfl, rfl⟩
  | missing absent bare =>
      rw [if_neg absent]
      exact .inr ⟨_, _, rfl, rfl, rfl, rfl⟩

/-- A listing gives the same from both stores; a file and a missing place hold nothing. -/
theorem listsAlike (holds : tree.HoldsExactly base keys) (portable : keys.Portable)
    (addressable : keys.Addressable path) (sees : tree.Sees base path) :
    Store.ListsAlike keys.store (tree.store base) path := by
  have found := holds.found_lookup portable addressable
  rw [← sees] at found
  have place : (⟨base.segments ++ path.segments⟩ : Path) = base.under path.segments := rfl
  have listed : ∃ listing, tree.list base path = .done listing
      ∧ Store.SameLevel (keys.listing path) listing := by
    rw [list, place]
    generalize tree.find (base.under path.segments) = there at found ⊢
    cases found with
    | file entry stored =>
        rw [KeyStore.listing_eq_nothing_iff.mpr (portable.not_holds stored)]
        exact ⟨_, rfl, rfl, .refl _⟩
    | directory inside =>
        obtain ⟨files, ended, same⟩ := holds.levelAt_done portable path
        exact ⟨_, ended, rfl, same.symm⟩
    | missing absent bare =>
        rw [KeyStore.listing_eq_nothing_iff.mpr (not_or.mp bare).2]
        exact ⟨_, rfl, rfl, .refl _⟩
  obtain ⟨listing, ended, same⟩ := listed
  exact ⟨keys.listing path, listing, rfl, ended, same⟩

/-- The two stores share what a search sees of the directories. -/
theorem shares (holds : tree.HoldsExactly base keys) (portable : keys.Portable)
    {spellings : List String} (sees : ∀ path, keys.Asked spellings path → tree.Sees base path) :
    keys.store.Shares (tree.store base) keys.IsDirectory where
  marks directory inside := Store.holdsOneOf_matches fun name known =>
    holds.headsAlike portable
      (portable.addressable_child holds.not_contains_top inside (KeyStore.marker_short name known))
      (sees _ (.marker inside known))
  lists directory inside := by
    have alike := holds.listsAlike portable (portable.addressable inside) (sees _ (.directory inside))
    have known : (keys.store.directoriesIn directory Layout.isBookkeeping).Gives
        fun paths => ∀ path ∈ paths, keys.IsDirectory path := by
      intro world paths ended path member
      cases ((keys.directoriesIn_does directory Layout.isBookkeeping).endsIn world).symm.trans ended
      obtain ⟨_, _, _, held⟩ := keys.mem_children_iff.mp member
      exact .inr held
    exact (alike.directoriesIn_matches Layout.isBookkeeping).and_gives known

end HoldsExactly

end Tree

namespace Table

variable {tree : Tree} {base : Path} {keys : KeyStore} {table : Table Unit} {spellings : List String}

section Questions

variable (holds : tree.HoldsExactly base keys) (portable : keys.Portable)
  (stored : table.store = keys.store) (top : table.root = Path.top)
  (addressable : ∀ spelling ∈ spellings, keys.Addressable (Path.resolve Path.top spelling))
  (sees : ∀ path, keys.Asked spellings path → tree.Sees base path)
include holds portable stored top addressable sees

theorem checkSeed_matches {spelling : String} (member : spelling ∈ spellings) :
    (table.checkSeed ⟨Path.resolve table.root spelling, spelling⟩).Matches
      (fun _ _ => keys.IsDirectory (Path.resolve table.root spelling))
      ((table.on (tree.store base)).checkSeed ⟨Path.resolve table.root spelling, spelling⟩) := by
  rw [top]
  unfold checkSeed
  have rooted : (table.on (tree.store base)).root = table.root := rfl
  rw [rooted, top, stored]
  by_cases atRoot : Path.resolve Path.top spelling = Path.top
  · rw [if_pos atRoot, if_pos atRoot]
    exact Work.matches_pure (.inl atRoot)
  · rw [if_neg atRoot, if_neg atRoot]
    have inside := holds.listsAlike portable (addressable spelling member) (sees _ (.spelled member))
    have above := holds.listsAlike portable (addressable spelling member).parent
      (sees _ (.above member))
    have told : (keys.store.directoryExists (Path.resolve Path.top spelling)).Gives
        fun present => present = true → keys.Holds (Path.resolve Path.top spelling) := by
      rintro world _ ended rfl
      by_contra bare
      cases (keys.directoryExists_of_not_holds atRoot bare world).symm.trans ended
    refine (((inside.directoryExists_matches above).and_gives told).mapError _).bind
      fun present _ known => ?_
    obtain ⟨rfl, held⟩ := known
    cases present with
    | true => exact Work.matches_pure (.inr (held rfl))
    | false => exact Work.matches_fail _

theorem partitionsBelow_alike :
    (table.partitionsBelow spellings).Matches Eq
      ((table.on (tree.store base)).partitionsBelow spellings) :=
  partitionsBelow_matches (stored ▸ holds.shares portable sees) fun _ member =>
    checkSeed_matches holds portable stored top addressable sees member

theorem dataFilesIn_alike {spelling : String} (member : spelling ∈ spellings) :
    (table.store.dataFilesIn (Path.resolve table.root spelling)).Matches List.Perm
      ((tree.store base).dataFilesIn (Path.resolve table.root spelling)) := by
  rw [stored, top]
  exact (holds.listsAlike portable (addressable spelling member)
    (sees _ (.spelled member))).dataFilesIn_matches

theorem filesOfEach_alike :
    (table.filesOfEach spellings).Matches
      (List.Forall₂ fun one other => one.1 = other.1 ∧ one.2.Perm other.2)
      ((table.on (tree.store base)).filesOfEach spellings) :=
  filesOfEach_matches fun _ member =>
    dataFilesIn_alike holds portable stored top addressable sees member

end Questions

/-- On a set of keys, more rounds than the keys are deep change nothing. -/
theorem partitionsBelow_within (stored : table.store = keys.store) {rounds rounds' : Nat}
    (enough : keys.depth < rounds) (more : rounds ≤ rounds') (spellings : List String)
    (world : World Unit) :
    ((table.within rounds').partitionsBelow spellings world).1
      = ((table.within rounds).partitionsBelow spellings world).1 := by
  have stored' : (table.within rounds).store = keys.store := stored
  have ended : ((table.within rounds).partitionsBelow spellings world).1
      ≠ .failed .unfinished := by
    intro unfinished
    by_cases good : ∀ spelling ∈ spellings, keys.IsSeed table.root spelling
    · obtain ⟨names, done, -⟩ := partitionsBelow_done stored' enough good world
      cases unfinished.symm.trans done
    · have bad : ∃ spelling ∈ spellings, ¬ keys.IsSeed table.root spelling := by
        simpa only [not_forall, exists_prop] using good
      obtain ⟨_, _, _, failed, _⟩ := partitionsBelow_failed stored' bad world
      cases unfinished.symm.trans failed
  rw [partitionsBelow_continues table more spellings world ended]

theorem descendants_within (table : Table Unit) (rounds levels number : Nat) (frontier : List Path) :
    (table.within rounds).descendants levels number frontier
      = table.descendants levels number frontier := by
  induction levels, number, frontier using descendants.induct with
  | case1 number frontier => rfl
  | case2 number levels => rfl
  | case3 levels number directory others ih =>
      rw [descendants, descendants]
      exact congrArg _ (funext ih)

/-- The search by date makes no use of the bound on the rounds. -/
theorem datePartitions_within (table : Table Unit) (rounds : Nat) :
    (table.within rounds).datePartitions = table.datePartitions := by
  unfold datePartitions
  rw [descendants_within]
  rfl

/-- How one search ends under two schedules: with the same partitions or with a failure both times, and
in the very same way if the schedules are one. -/
def SameEnd (order order' : Nat → Engine.Order)
    (outcome outcome' : Outcome TableError (List String)) : Prop :=
  Alike List.Perm outcome outcome' ∧ (order = order' → outcome = outcome')

theorem sameEnd_of_agree {order order' : Nat → Engine.Order} {left middle right : Job Unit (List String)}
    (agree : Agree List.Perm left middle) (one : order = order' → left = middle)
    (alike : middle.Matches Eq right) (world world' : World Unit) :
    SameEnd order order' (left world).1 (right world').1 := by
  constructor
  · have told := agree world world'
    rwa [(alike world' world').eq] at told
  · intro equal
    rw [one equal]
    exact (alike world world').eq

/-- The same map from spellings to files, whatever the order of its entries and of the files of each. -/
def SameMap (manifests manifests' : List (String × List FileEntry)) : Prop :=
  ∃ arranged, manifests.Perm arranged
    ∧ List.Forall₂ (fun one other => one.1 = other.1 ∧ one.2.Perm other.2) arranged manifests'

section Backends

variable (holds : tree.HoldsExactly base keys) (portable : keys.Portable) (options : ListingOptions)
  (order order' : Nat → Engine.Order)
  (addressable : ∀ spelling ∈ spellings, keys.Addressable (Path.resolve Path.top spelling))
  (sees : ∀ path, keys.Asked spellings path → tree.Sees base path)
include holds portable sees

include addressable in
theorem partitionsBelow_sameEnd (world world' : World Unit) :
    let inMemory : Table Unit := { Table.ofKeys keys Path.top options with order }
    let onDisk : Table Unit := { (Place.directory base).table tree options with order := order' }
    SameEnd order order' (inMemory.partitionsBelow spellings world).1
      (onDisk.partitionsBelow spellings world').1 := by
  intro inMemory onDisk
  let later : Table Unit := inMemory.rescheduled options order' (keys.depth + 1)
  have stored : (later.within (tree.depth + 1)).store = keys.store := rfl
  have wider : ∀ world, ((later.within (tree.depth + 1)).partitionsBelow spellings world).1
      = ((later.within (keys.depth + 1)).partitionsBelow spellings world).1 :=
    partitionsBelow_within stored (Nat.lt_succ_self keys.depth) (Nat.succ_le_succ holds.depth_le)
      spellings
  have alike := partitionsBelow_alike holds portable stored rfl addressable sees
  refine sameEnd_of_agree (partitionsBelow_agree inMemory options order' (keys.depth + 1) spellings)
    ?_ ?_ world world'
  · rintro rfl
    rfl
  · intro world world'
    have related := alike world world'
    rwa [wider] at related

theorem partitions_sameEnd (world world' : World Unit) :
    let inMemory : Table Unit := { Table.ofKeys keys Path.top options with order }
    let onDisk : Table Unit := { (Place.directory base).table tree options with order := order' }
    SameEnd order order' (inMemory.partitions world).1 (onDisk.partitions world').1 := by
  intro inMemory onDisk
  by_cases byDate : options.assumeDatePartitioning = true
  · have asked : inMemory.partitions = inMemory.datePartitions := if_pos byDate
    have asked' : onDisk.partitions = onDisk.datePartitions := if_pos byDate
    let later : Table Unit := inMemory.rescheduled options order' (keys.depth + 1)
    have shares : later.store.Shares (tree.store base) keys.IsDirectory :=
      holds.shares portable sees
    have alike : later.datePartitions.Matches Eq onDisk.datePartitions := by
      rw [← datePartitions_within later (tree.depth + 1)]
      exact datePartitions_matches shares (.inl rfl)
    rw [asked, asked']
    refine sameEnd_of_agree (datePartitions_agree inMemory options order' (keys.depth + 1))
      ?_ alike world world'
    rintro rfl
    rfl
  · have asked : inMemory.partitions = inMemory.partitionsBelow [""] := if_neg byDate
    have asked' : onDisk.partitions = onDisk.partitionsBelow [""] := if_neg byDate
    rw [asked, asked']
    refine partitionsBelow_sameEnd holds portable options order order' ?_
      (fun path asked => sees path asked.of_root) world world'
    intro spelling member
    rw [List.mem_singleton.mp member]
    exact portable.addressable (.inl rfl)

include addressable in
theorem files_same {spelling : String} (member : spelling ∈ spellings) (world world' : World Unit) :
    let inMemory : Table Unit := { Table.ofKeys keys Path.top options with order }
    let onDisk : Table Unit := { (Place.directory base).table tree options with order := order' }
    ∃ entries entries', (inMemory.files spelling world).1 = .done entries
      ∧ (onDisk.files spelling world').1 = .done entries' ∧ entries.Perm entries' := by
  intro inMemory onDisk
  have stored : inMemory.store = keys.store := rfl
  have alike : (inMemory.files spelling).Matches List.Perm (onDisk.files spelling) :=
    (dataFilesIn_alike holds portable stored rfl addressable sees member).mapError _
  have ended := files_endsIn stored spelling world
  have related := alike world world'
  rw [ended] at related ⊢
  obtain ⟨entries', ended', same⟩ := related.of_done
  exact ⟨_, entries', rfl, ended', same⟩

include addressable in
theorem filesOfEach_same (world world' : World Unit) :
    let inMemory : Table Unit := { Table.ofKeys keys Path.top options with order }
    let onDisk : Table Unit := { (Place.directory base).table tree options with order := order' }
    ∃ manifests manifests', (inMemory.filesOfEach spellings world).1 = .done manifests
      ∧ (onDisk.filesOfEach spellings world').1 = .done manifests'
      ∧ SameMap manifests manifests' := by
  intro inMemory onDisk
  let later : Table Unit := inMemory.rescheduled options order' (keys.depth + 1)
  have stored : inMemory.store = keys.store := rfl
  have stored' : later.store = keys.store := rfl
  obtain ⟨manifests, ended, chosen⟩ := filesOfEach_done stored spellings world
  obtain ⟨arranged, ended', chosen'⟩ := filesOfEach_done stored' spellings world
  have related := filesOfEach_alike holds portable stored' rfl addressable sees world world'
  rw [ended'] at related
  obtain ⟨manifests', answered, same⟩ := related.of_done
  exact ⟨manifests, manifests', ended, answered, arranged, chosen.trans chosen'.symm, same⟩

end Backends

/-- A table opened on a directory that holds just the files of `keys` answers as the table of the keys
does, whatever the options: the same partitions, by their markers or by date, the same failures of a
search, and the same files with their sizes and times. The spellings may lead to files and to missing
places, but to none below a file or with a name that is too long, and the store on the directory has to
find what is there at the places asked about. It does so exactly if no address is too long, or a name on
the way is too long as well, and no file asked about is called like a drive. -/
theorem opened_answers_as_keys (buckets : Buckets) (tree : Tree) (here base : Path)
    (settings : Settings) (keys : KeyStore) (onFiles : settings.inBucket = false)
    (placed : tree.canonical? here settings.tablePath = some base) (portable : keys.Portable)
    (holds : tree.HoldsExactly base keys) :
    (∀ path, tree.Sees base path ↔
        (Tree.addressLimit < (Tree.address (base.under path.segments)).utf8ByteSize →
          tree.lookup (base.under path.segments) = .refused .nameTooLong)
        ∧ (Tree.endsInDrive (Tree.absoluteText (base.under path.segments)) = true →
          ∀ entry, tree.lookup (base.under path.segments) ≠ .file entry))
      ∧ ∃ opened, Table.opened buckets tree here settings = .ok opened
      ∧ ∀ spellings, (∀ spelling ∈ spellings, keys.Addressable (Path.resolve Path.top spelling)) →
        (∀ path, keys.Asked spellings path → tree.Sees base path) →
        ∀ order order' world world',
          let inMemory : Table Unit := { Table.ofKeys keys Path.top settings.options with order }
          let onDisk : Table Unit := { opened with order := order' }
          SameEnd order order' (inMemory.partitions world).1 (onDisk.partitions world').1
          ∧ SameEnd order order' (inMemory.partitionsBelow spellings world).1
            (onDisk.partitionsBelow spellings world').1
          ∧ (∀ spelling ∈ spellings, ∃ entries entries',
            (inMemory.files spelling world).1 = .done entries
              ∧ (onDisk.files spelling world').1 = .done entries' ∧ entries.Perm entries')
          ∧ ∃ manifests manifests', (inMemory.filesOfEach spellings world).1 = .done manifests
            ∧ (onDisk.filesOfEach spellings world').1 = .done manifests'
            ∧ SameMap manifests manifests' := by
  refine ⟨fun _ => Tree.sees_iff, (Place.directory base).table tree settings.options, ?_, ?_⟩
  · unfold opened Settings.place
    rw [if_neg (Bool.eq_false_iff.mp onFiles), placed]
  · intro spellings addressable sees order order' world world'
    exact ⟨partitions_sameEnd holds portable _ order order' sees world world',
      partitionsBelow_sameEnd holds portable _ order order' addressable sees world world',
      fun _ member => files_same holds portable _ order order' addressable sees member world world',
      filesOfEach_same holds portable _ order order' addressable sees world world'⟩

/-- A directory `/t` with one partition `p`: the table opened on it finds `p`, refuses to start at `q`
as well, and lists the one data file, as the table of the keys does. -/
theorem opened_answers_as_keys_one_partition :
    let marker : FileEntry := ⟨⟨["p", ".hoodie_partition_metadata"]⟩, 0, default⟩
    let file : FileEntry := ⟨⟨["p", "f.parquet"]⟩, 10, default⟩
    let keys : KeyStore := { files := [marker, file], distinct := by decide }
    let base : Path := ⟨["t"]⟩
    let tree : Tree :=
      { files := [{ file with location := ⟨["t", "p", "f.parquet"]⟩ },
          { marker with location := ⟨["t", "p", ".hoodie_partition_metadata"]⟩ }]
        directories := [base] }
    let settings : Settings := { tablePath := "/t" }
    let buckets : Buckets := fun _ => .error ""
    let order : Nat → Engine.Order := fun _ => Engine.oldestFirst
    let world : World Unit := { memory := () }
    settings.inBucket = false ∧ tree.canonical? Path.top settings.tablePath = some base
      ∧ keys.Portable ∧ tree.HoldsExactly base keys
      ∧ ∃ opened, Table.opened buckets tree Path.top settings = .ok opened
        ∧ (({ opened with order } : Table Unit).partitions world).1 = .done ["p"]
        ∧ (({ opened with order } : Table Unit).partitionsBelow ["p", "q"] world).1
          = .failed (.listing "q" (.notFound ⟨["q"]⟩))
        ∧ ∃ entries, (({ opened with order } : Table Unit).files "p" world).1 = .done entries
          ∧ [file].Perm entries := by
  intro marker file keys base tree settings buckets order world
  have placed : tree.canonical? Path.top settings.tablePath = some base := by decide +kernel
  have spelled : Path.resolve Path.top "p" = ⟨["p"]⟩ ∧ Path.resolve Path.top "q" = ⟨["q"]⟩ := by
    decide +kernel
  have directories : ∀ path, keys.IsDirectory path → path ∈ [Path.top, ⟨["p"]⟩] := by
    rintro ⟨segments⟩ (top | ⟨entry, stored, name, names, located⟩)
    · exact top ▸ List.mem_cons_self
    · have inside : ∃ last, ["p", last] = segments ++ name :: names := by
        rcases List.mem_pair.mp stored with rfl | rfl
        · exact ⟨_, congrArg Path.segments located⟩
        · exact ⟨_, congrArg Path.segments located⟩
      obtain ⟨last, equal⟩ := inside
      match segments, equal with
      | [], _ => exact List.mem_cons_self
      | ["p"], rfl => exact List.mem_cons_of_mem _ (List.mem_singleton_self _)
      | _ :: _ :: _, equal => simp at equal
  have portable : keys.Portable := by
    refine ⟨?_, by decide +kernel, ?_, by decide +kernel⟩
    · simp [KeyStore.Valid, Path.Valid, Path.IsName, keys, marker, file]
    · intro entry stored held
      have listed := directories _ (.inr held)
      rcases List.mem_pair.mp stored with rfl | rfl
      · exact absurd listed (by decide)
      · exact absurd listed (by decide)
  have holds : tree.HoldsExactly base keys := by
    refine ⟨by decide +kernel, by decide +kernel, fun names filled recorded => ?_⟩
    have only : base.under names = base.under [] := List.mem_singleton.mp recorded
    exact absurd (base.under_injective only) filled
  -- Every place asked about has a short address that is not like that of a drive.
  let places : List Path := [Path.top, ⟨["p"]⟩, ⟨["q"]⟩]
    ++ Layout.markerNames.map Path.top.child ++ Layout.markerNames.map (Path.child ⟨["p"]⟩)
  have ordinary : ∀ path ∈ places,
      (Tree.address (base.under path.segments)).utf8ByteSize ≤ Tree.addressLimit
        ∧ Tree.endsInDrive (Tree.absoluteText (base.under path.segments)) = false := by
    decide +kernel
  obtain ⟨seen, opened, isOpened, answers⟩ :=
    opened_answers_as_keys buckets tree Path.top base settings keys rfl placed portable holds
  have sees : ∀ path, keys.Asked ["p", "q"] path → tree.Sees base path := by
    intro path asked
    have listed : path ∈ places := by
      cases asked with
      | directory inside =>
          rcases List.mem_pair.mp (directories _ inside) with rfl | rfl <;> decide +kernel
      | @marker directory name inside known =>
          rcases List.mem_pair.mp (directories _ inside) with rfl | rfl
          · exact List.mem_append_left _ (List.mem_append_right _ (List.mem_map_of_mem known))
          · exact List.mem_append_right _ (List.mem_map_of_mem known)
      | @spelled spelling member =>
          rcases List.mem_pair.mp member with rfl | rfl <;> decide +kernel
      | @above spelling member =>
          rcases List.mem_pair.mp member with rfl | rfl <;> decide +kernel
    obtain ⟨short, noDrive⟩ := ordinary path listed
    refine (seen path).mpr ⟨fun long => absurd long (Nat.not_lt.mpr short), fun drive => ?_⟩
    rw [noDrive] at drive
    cases drive
  have addressable : ∀ spelling ∈ ["p", "q"],
      keys.Addressable (Path.resolve Path.top spelling) := by
    intro spelling member
    rcases List.mem_pair.mp member with rfl | rfl
    · rw [spelled.1]
      exact portable.addressable (.inr ⟨marker, List.mem_cons_self, _, [], rfl⟩)
    · rw [spelled.2]
      refine ⟨by decide, fun entry stored name names located => ?_⟩
      have segments := congrArg Path.segments located
      rcases List.mem_pair.mp stored with rfl | rfl
      · simp [marker] at segments
      · simp [file] at segments
  obtain ⟨found, searched, listed, _⟩ :=
    answers ["p", "q"] addressable sees order order world world
  refine ⟨rfl, placed, portable, holds, opened, isOpened, ?_, ?_, ?_⟩
  · rw [← found.2 rfl]
    decide +kernel
  · rw [← searched.2 rfl]
    decide +kernel
  · obtain ⟨entries, entries', ended, ended', same⟩ := listed "p" List.mem_cons_self
    have told : (({ Table.ofKeys keys Path.top settings.options with order } : Table Unit).files
        "p" world).1 = .done [file] := by
      decide +kernel
    cases ended.symm.trans told
    exact ⟨entries', ended', same⟩

end Table

end PartitionedTable
