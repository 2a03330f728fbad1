import PartitionedTable.CommandLine
import PartitionedTable.Proofs.Legible
import PartitionedTable.Proofs.LocalFiles
import PartitionedTable.Proofs.Printed
import PartitionedTable.Table.Operation

/-!
Runs of the command line print one text or none. Two runs that ask for the same directories find the
same partitions or the same files, up to their order, however often and in whatever order the
directories are spelled and whatever the schedule (`CommandLine.Command.perform_agree`), and printing
sorts. What is printed has one line for each thing found, since nothing on a tree of directories has a
name that breaks a line.
-/

namespace PartitionedTable

namespace Table

section Respelled

variable {stuck outlasts : Path → Prop} {offers : Path → String → Prop} {starts starts' : List Path}
  {outcome outcome' : Outcome TableError (List String)}

/-- Searches that begin at the same directories end alike. -/
theorem Pointwise.alike (told : Pointwise stuck outlasts offers starts outcome)
    (told' : Pointwise stuck outlasts offers starts' outcome')
    (same : ∀ start, start ∈ starts ↔ start ∈ starts') :
    Alike (fun names names' => ∀ name, name ∈ names ↔ name ∈ names') outcome outcome' := by
  cases told with
  | failed member ends told =>
      have asked := (same _).mp member
      cases told' with
      | failed _ _ told' => exact .inr ⟨_, _, rfl, rfl, iff_of_true told told'⟩
      | unfinished clear _ _ => exact absurd ends (clear _ asked)
      | done clear _ _ => exact absurd ends (clear _ asked)
  | unfinished clear member goesOn =>
      cases told' with
      | failed member' ends' _ => exact absurd ends' (clear _ ((same _).mpr member'))
      | unfinished _ _ _ => exact .inr ⟨_, _, rfl, rfl, Iff.rfl⟩
      | done _ spent _ => exact absurd goesOn (spent _ ((same _).mp member))
  | done clear spent found =>
      cases told' with
      | failed member' ends' _ => exact absurd ends' (clear _ ((same _).mpr member'))
      | unfinished _ member' goesOn' => exact absurd goesOn' (spent _ ((same _).mpr member'))
      | done _ _ found' =>
          refine .inl ⟨_, _, rfl, rfl, fun name => ?_⟩
          rw [found, found']
          simp only [same]

variable (table : Table Unit) (options : ListingOptions) (order : Nat → Engine.Order)
  {spellings spellings' : List String}

theorem nodup_partitionsBelow (spellings : List String) :
    (table.partitionsBelow spellings).Gives List.Nodup :=
  (Work.gives_any _).bind fun _ _ => Work.gives_pure (nodup_eraseDups _)

theorem nodup_partitions : table.partitions.Gives List.Nodup := by
  unfold partitions
  split
  · refine (Work.gives_any _).bind fun _ _ => (Work.gives_any _).bind fun _ _ => ?_
    exact (Work.gives_any _).bind fun _ _ => Work.gives_pure (nodup_eraseDups _)
  · exact table.nodup_partitionsBelow [""]

theorem partitionsBelow_respelled (same : ∀ spelling, spelling ∈ spellings ↔ spelling ∈ spellings') :
    Agree List.Perm (table.partitionsBelow spellings)
      ((table.rescheduled options order table.rounds).partitionsBelow spellings') := by
  intro world world'
  let other := table.rescheduled options order table.rounds
  have told' : Pointwise (table.Blocked table.rounds) (table.Outlasts table.rounds) table.Offers
      (spellings'.map (Path.resolve table.root)) (other.partitionsBelow spellings' world').1 :=
    other.partitionsBelow_pointwise spellings' world'
  have starts : ∀ start, start ∈ spellings.map (Path.resolve table.root)
      ↔ start ∈ spellings'.map (Path.resolve table.root) := by
    simp only [List.mem_map, same, implies_true]
  rcases (table.partitionsBelow_pointwise spellings world).alike told' starts with
    ⟨names, names', ended, ended', found⟩ | failed
  · refine .inl ⟨names, names', ended, ended', ?_⟩
    exact (List.perm_ext_iff_of_nodup (table.nodup_partitionsBelow spellings world names ended)
      (other.nodup_partitionsBelow spellings' world' names' ended')).mpr found
  · exact .inr failed

theorem partitions_rescheduled
    (byDate : options.assumeDatePartitioning = table.options.assumeDatePartitioning) :
    Agree List.Perm table.partitions (table.rescheduled options order table.rounds).partitions := by
  have chosen : (table.rescheduled options order table.rounds).options.assumeDatePartitioning
      = table.options.assumeDatePartitioning := byDate
  unfold partitions
  rw [chosen]
  split
  · exact table.datePartitions_agree options order table.rounds
  · exact table.partitionsBelow_respelled options order fun _ => Iff.rfl

end Respelled

end Table

namespace CommandLine

/-- What a command asks of the table. -/
def Command.operation (command : Command) : Operation :=
  match command.name with
  | .partitions =>
      if command.spellings.isEmpty then .partitions else .partitionsBelow command.spellings
  | .files => .filesOfEach command.spellings

/-- Another way to ask for the same: the directories are spelled as often and in whatever order one
likes, under whatever bound on the tasks alive at once. -/
structure Invocation.Rephrases (one other : Invocation) : Prop where
  named : one.command.name = other.command.name
  spelled : ∀ spelling, spelling ∈ one.command.spellings ↔ spelling ∈ other.command.spellings
  byDate : one.assumeDatePartitioning = other.assumeDatePartitioning

section Commands

variable (table : Table Unit) (options : ListingOptions) (order : Nat → Engine.Order)
  {command command' : Command}

/-- Commands that ask for the same print the same. -/
theorem Command.perform_agree (named : command.name = command'.name)
    (spelled : ∀ spelling, spelling ∈ command.spellings ↔ spelling ∈ command'.spellings)
    (byDate : options.assumeDatePartitioning = table.options.assumeDatePartitioning) :
    Table.Agree Eq (command.perform table)
      (command'.perform (table.rescheduled options order table.rounds)) := by
  unfold Command.perform
  rw [← named]
  have sorted {names names' : List String} (same : names.Perm names') :
      partitionLines names = partitionLines names' :=
    congrArg lines (Tree.mergeSort_eq_of_perm same)
  cases command.name with
  | partitions =>
      have empty : command.spellings.isEmpty = command'.spellings.isEmpty := by
        rw [Bool.eq_iff_iff, List.isEmpty_iff, List.isEmpty_iff, List.eq_nil_iff_forall_not_mem,
          List.eq_nil_iff_forall_not_mem]
        simp only [spelled]
      dsimp only
      rw [← empty]
      split
      · exact (table.partitions_rescheduled options order byDate).bind
          fun names names' same => Table.agree_pure (sorted same)
      · exact (table.partitionsBelow_respelled options order spelled).bind
          fun names names' same => Table.agree_pure (sorted same)
  | files =>
      exact (table.filesOfEach_agree options order table.rounds spelled).bind
        fun manifests manifests' same => Table.agree_pure (fileLines_eq_of_perm same.1 same.2)

end Commands

/-- A search that tells legible names, each once, prints one line for each of them. -/
theorem listsNames_of_done {table : Table Unit} {search : Table.Job Unit (List String)} {world : World Unit}
    {text : String} (distinct : search.Gives List.Nodup)
    (tells : search.Gives fun names => ∀ name ∈ names, table.NamesSome Path.Legible name)
    (ended : ((partitionLines <$> search) world).1 = .done text) :
    ∃ names, (search world).1 = .done names ∧ ListsNames text names := by
  rw [map_eq_pure_bind, Work.bind_pure_fst] at ended
  obtain ⟨names, found, rfl⟩ := Outcome.map_eq_done_iff.mp ended
  refine ⟨names, found, partitionLines_listsNames (distinct world names found) fun name member => ?_⟩
  obtain ⟨directory, legible, named⟩ := tells world names found name member
  exact legible.lineBreak_not_mem_relativeName named

/-- A command prints something exactly if what it asks for is answered. -/
theorem Command.succeeds_iff (command : Command) (table : Table Unit) (world : World Unit) :
    (command.operation.perform table world).1.Succeeds ↔ (command.perform table world).1.Succeeds := by
  have same {α : Type} (job : Table.Job Unit α) (answer : α → Answer) (print : α → String) :
      ((answer <$> job.mapError Failure.table) world).1.Succeeds
        ↔ ((print <$> job) world).1.Succeeds := by
    rw [map_eq_pure_bind, map_eq_pure_bind, Work.bind_pure_fst, Work.bind_pure_fst,
      Outcome.succeeds_map_iff, Outcome.succeeds_map_iff, Work.mapError_apply,
      Outcome.succeeds_mapError_iff]
  unfold Command.operation Command.perform
  cases command.name with
  | partitions =>
      dsimp only
      split
      · exact same table.partitions Answer.names partitionLines
      · exact same (table.partitionsBelow command.spellings) Answer.names partitionLines
  | files => exact same (table.filesOfEach command.spellings) Answer.manifests fileLines

section Local

variable {tree : Tree} {base : Path} {table : Table Unit} (stored : table.store = tree.store base)
  (top : table.root = Path.top) {command : Command} {world : World Unit} {text : String}
include stored top

/-- A search of a table on a tree prints one line for each partition that it finds. -/
theorem Command.perform_partitions (named : command.name = .partitions)
    (ended : (command.perform table world).1 = .done text) :
    ∃ names, (command.operation.perform table world).1 = .done (.names names)
      ∧ ListsNames text names := by
  have answered {search : Table.Job Unit (List String)} {names : List String}
      (found : (search world).1 = .done names) :
      ((Answer.names <$> search.mapError Failure.table) world).1 = .done (.names names) := by
    rw [map_eq_pure_bind, Work.bind_pure_fst, Work.mapError_apply, found]
    rfl
  have handsDown : table.store.HandsDown Path.Legible := stored ▸ tree.store_handsDown base
  have spelled : ∀ spelling, (Path.resolve table.root spelling).Legible :=
    fun spelling => top ▸ Path.legible_resolve spelling
  unfold Command.perform at ended
  unfold Command.operation
  rw [named] at ended ⊢
  dsimp only at ended ⊢
  split at ended
  · rename_i empty
    obtain ⟨names, found, listed⟩ := listsNames_of_done table.nodup_partitions
      (Table.partitions_namesSome handsDown spelled) ended
    rw [if_pos empty]
    exact ⟨names, answered found, listed⟩
  · rename_i filled
    obtain ⟨names, found, listed⟩ := listsNames_of_done
      (table.nodup_partitionsBelow command.spellings)
      (Table.partitionsBelow_namesSome handsDown spelled command.spellings) ended
    rw [if_neg filled]
    exact ⟨names, answered found, listed⟩

/-- A listing of a table on a tree prints one line for each data file of each distinct spelling. -/
theorem Command.perform_files (named : command.name = .files)
    (clean : ∀ spelling ∈ command.spellings, '\n' ∉ spelling.toList)
    (distinct : (tree.files.map FileEntry.location).Nodup)
    (ended : (command.perform table world).1 = .done text) :
    ∃ entries : String → List FileEntry,
      (∀ spelling ∈ command.spellings, (table.files spelling world).1 = .done (entries spelling))
      ∧ ListsRows text
        (rowsOf (command.spellings.eraseDups.map fun spelling => (spelling, entries spelling))) := by
  have handsDown : table.store.HandsDown Path.Legible := stored ▸ tree.store_handsDown base
  have spelled : ∀ spelling, (Path.resolve table.root spelling).Legible :=
    fun spelling => top ▸ Path.legible_resolve spelling
  have listsApart : table.store.ListsApart := stored ▸ tree.store_listsApart base distinct
  unfold Command.perform at ended
  rw [named] at ended
  dsimp only at ended
  rw [map_eq_pure_bind, Work.bind_pure_fst] at ended
  obtain ⟨manifests, found, rfl⟩ := Outcome.map_eq_done_iff.mp ended
  obtain ⟨start, -, same⟩ := table.filesOfEach_eq_batch command.spellings world
  rw [same] at found
  obtain ⟨turn, entries, chosen, listed, rfl, -⟩ := table.batch_manifest_done found world
  have asked : ∀ spelling ∈ turn, spelling ∈ command.spellings :=
    fun spelling member => List.mem_eraseDups.mp (chosen.subset member)
  have apart : ∀ spelling ∈ turn,
      ((entries spelling).map fun entry => entry.location.text).Nodup := fun spelling member =>
    ((Store.dataFilesIn_apart listsApart _).mapError _) world _ (listed spelling (chosen.subset member))
  have legible : ∀ spelling ∈ turn, ∀ entry ∈ entries spelling, entry.location.Legible :=
    fun spelling member => Table.files_handsDown handsDown spelled spelling world _
      (listed spelling (chosen.subset member))
  refine ⟨entries, fun spelling member => listed spelling (List.mem_eraseDups.mpr member), ?_⟩
  have printed : ListsRows (fileLines (turn.map fun spelling => (spelling, entries spelling)))
      (rowsOf (turn.map fun spelling => (spelling, entries spelling))) := by
    apply fileLines_listsRows
    · rw [Table.manifests_keys]
      exact chosen.nodup_iff.mpr (Table.nodup_eraseDups command.spellings)
    · exact List.forall_mem_map.mpr apart
    · intro row member
      obtain ⟨manifest, inside, member⟩ := List.mem_flatMap.mp member
      obtain ⟨spelling, member', rfl⟩ := List.mem_map.mp inside
      obtain ⟨entry, listed', rfl⟩ := List.mem_map.mp member
      exact ⟨clean spelling (asked spelling member'),
        (legible spelling member' entry listed').lineBreak_not_mem_name⟩
  obtain ⟨rows, all, sorted, read⟩ := printed
  exact ⟨rows, all.trans ((chosen.map _).flatMap_right _), sorted, read⟩

end Local

section Runs

variable {crash : String}

theorem Output.exitCode_ofOutcome_eq_zero_iff {outcome : Outcome TableError String} :
    (Output.ofOutcome crash outcome).exitCode = 0 ↔ outcome.Succeeds := by
  cases outcome with
  | done text => exact iff_of_true rfl (Outcome.succeeds_done text)
  | failed error => exact iff_of_false Nat.one_ne_zero (Outcome.not_succeeds_failed error)
  | crashed => exact iff_of_false (Nat.succ_ne_zero 100) Outcome.not_succeeds_crashed

theorem Output.standardOutput_ofOutcome_of_ne_zero {outcome : Outcome TableError String}
    (fails : (Output.ofOutcome crash outcome).exitCode ≠ 0) :
    (Output.ofOutcome crash outcome).standardOutput = "" := by
  cases outcome with
  | done text => exact absurd rfl fails
  | failed error => rfl
  | crashed => rfl

variable (around : Surroundings) {settings : Settings}
  (read : Settings.ofVariables around.environment = .ok settings)
include read

theorem run_of_request {arguments : List String} {invocation : Invocation}
    (asked : Request.ofArguments? arguments = some (.run invocation)) (order : Nat → Engine.Order) :
    run around arguments order = invocation.run around settings order := by
  rw [run, asked]
  dsimp only
  rw [read]

omit read in
/-- A local table is opened in some directory of the tree or not at all. -/
theorem opened_onFiles (onFiles : settings.inBucket = false) :
    (∃ error, Table.opened around.buckets around.tree around.here settings = .error error)
      ∨ ∃ base, Table.opened around.buckets around.tree around.here settings
        = .ok ((Place.directory base).table around.tree settings.options) := by
  have local_ : ¬ settings.inBucket = true := ne_true_of_eq_false onFiles
  unfold Table.opened Settings.place
  rw [if_neg local_]
  cases around.tree.canonical? around.here settings.tablePath with
  | none => exact .inl ⟨_, rfl⟩
  | some base => exact .inr ⟨base, rfl⟩

/-- The text of a run on a local table is canonical, and there is all of it or none. A run that succeeds
has opened the table. For a search it prints one line for each partition found, in the strict order of
their UTF-8 bytes. For a listing whose spellings hold no line break it prints one line for each data file
of each distinct spelling, in the strict order of the spellings and then of the locations, no two files
being in one place. Any other arguments that ask for the same directories and in the same way, in
whatever order and however often they are spelled and however many listings may run in parallel, end in
the very same output under every schedule. A run whose listing fails fails, and a run that fails prints
nothing. -/
theorem output_is_canonical (onFiles : settings.inBucket = false) {arguments : List String}
    {invocation : Invocation} (asked : Request.ofArguments? arguments = some (.run invocation))
    (order : Nat → Engine.Order) :
    let output := run around arguments order
    let command := invocation.command
    let world : World Unit := { memory := () }
    let found := Table.opened around.buckets around.tree around.here settings
    (output.exitCode = 0 → ∃ opened, found = .ok opened ∧
      let table : Table Unit := { opened with options := invocation.options settings, order }
      (command.name = .partitions →
        ∃ names, (command.operation.perform table world).1 = .done (.names names)
          ∧ ListsNames output.standardOutput names)
      ∧ (command.name = .files → (∀ spelling ∈ command.spellings, '\n' ∉ spelling.toList) →
        (around.tree.files.map FileEntry.location).Nodup →
        ∃ entries : String → List FileEntry,
          (∀ spelling ∈ command.spellings, (table.files spelling world).1 = .done (entries spelling))
          ∧ ListsRows output.standardOutput
            (rowsOf (command.spellings.eraseDups.map fun spelling => (spelling, entries spelling))))
      ∧ ∀ arguments' invocation' order',
        Request.ofArguments? arguments' = some (.run invocation') → invocation.Rephrases invocation' →
        run around arguments' order' = output)
    ∧ (∀ opened, found = .ok opened →
      let table : Table Unit := { opened with options := invocation.options settings, order }
      ¬ (command.operation.perform table world).1.Succeeds → output.exitCode ≠ 0)
    ∧ (output.exitCode ≠ 0 → output.standardOutput = "") := by
  intro output command world found
  have ran : output = invocation.run around settings order := run_of_request around read asked order
  unfold Invocation.run at ran
  rcases opened_onFiles around onFiles with ⟨error, refused⟩ | ⟨base, opened⟩
  · rw [refused] at ran
    have missing : found = .error error := refused
    rw [missing, ran]
    refine ⟨fun good => ?_, fun _ equal => ?_, fun _ => rfl⟩
    · cases good
    · cases equal
  let table : Table Unit :=
    { (Place.directory base).table around.tree settings.options with
      options := invocation.options settings, order }
  have told : output = Output.ofOutcome around.crash (command.perform table world).1 := by
    rw [ran, opened]
  have ending : output.exitCode = 0 ↔ (command.perform table world).1.Succeeds := by
    rw [told]
    exact Output.exitCode_ofOutcome_eq_zero_iff
  refine ⟨fun good => ⟨_, opened, ?_⟩, fun other equal refused good => ?_, fun fails => ?_⟩
  · obtain ⟨text, ended⟩ := ending.mp good
    have whole : output = { exitCode := 0, standardOutput := text } := by
      rw [told, ended]
      rfl
    rw [whole]
    refine ⟨fun named => command.perform_partitions rfl rfl named ended,
      fun named clean distinct => command.perform_files rfl rfl named clean distinct ended, ?_⟩
    intro arguments' invocation' order' asked' rephrases
    have byDate : (invocation'.options settings).assumeDatePartitioning
        = table.options.assumeDatePartitioning :=
      congrArg (settings.assumeDatePartitioning || ·) rephrases.byDate.symm
    have agree := Command.perform_agree table (invocation'.options settings) order' rephrases.named
      rephrases.spelled byDate world world
    rcases agree with ⟨_, _, printed, printed', rfl⟩ | ⟨error, _, failed, _⟩
    · cases ended.symm.trans printed
      rw [run_of_request around read asked' order', Invocation.run, opened]
      exact congrArg (Output.ofOutcome around.crash) printed'
    · cases ended.symm.trans failed
  · cases opened.symm.trans equal
    exact refused ((command.succeeds_iff table world).mpr (ending.mp good))
  · rw [told] at fails ⊢
    exact Output.standardOutput_ofOutcome_of_ne_zero fails

end Runs

/-- Two partitions and two directories with one file each, asked about in several ways. -/
theorem output_is_canonical_two_directories :
    let marker (name : String) : FileEntry :=
      { location := ⟨["lake", name, ".hoodie_partition_metadata"]⟩, size := 0, modified := ⟨0, 0⟩ }
    let file (name : String) : FileEntry :=
      { location := ⟨["lake", name, "f.parquet"]⟩, size := 8, modified := ⟨0, 0⟩ }
    let tree : Tree := { files := [marker "b", marker "a", file "d", file "c"] }
    let around : Surroundings :=
      { tree, here := Path.top, buckets := fun _ => .error "", crash := ""
        environment := [("LAKEMETA_TABLE_PATH", "/lake")], complaint := fun _ => "" }
    let searched := run around ["partitions", "--prefix=b", "--prefix", "a"] fun _ _ => 1
    let again := run around ["-p1", "partitions", "--prefix=a", "--prefix=b", "--prefix=a"]
      fun _ _ => 0
    let listed := run around ["files", "--partition", "d", "--partition=c"] fun _ _ => 1
    let failed := run around ["partitions", "--prefix=a/e"] fun _ _ => 0
    ListsNames searched.standardOutput ["a", "b"] ∧ again = searched
      ∧ ListsRows listed.standardOutput
        [("d", { file "d" with location := ⟨["d", "f.parquet"]⟩ }),
          ("c", { file "c" with location := ⟨["c", "f.parquet"]⟩ })]
      ∧ failed.exitCode = 1 ∧ failed.standardOutput = "" := by
  intro marker file tree around searched again listed failed
  let settings : Settings := { tablePath := "/lake" }
  have read : Settings.ofVariables around.environment = .ok settings := rfl
  have placed : tree.canonical? Path.top settings.tablePath = some ⟨["lake"]⟩ := by decide +kernel
  have opened : Table.opened around.buckets around.tree around.here settings
      = .ok ((Place.directory ⟨["lake"]⟩).table tree settings.options) := by
    simp [Table.opened, Settings.place, around, placed, settings]
  have asks : Request.ofArguments? ["partitions", "--prefix=b", "--prefix", "a"]
      = some (.run { command := ⟨.partitions, ["b", "a"]⟩ }) := by decide +kernel
  have asksAgain : Request.ofArguments? ["-p1", "partitions", "--prefix=a", "--prefix=b", "--prefix=a"]
      = some (.run { command := ⟨.partitions, ["a", "b", "a"]⟩, parallelism := some 1 }) := by
    decide +kernel
  have asksFiles : Request.ofArguments? ["files", "--partition", "d", "--partition=c"]
      = some (.run { command := ⟨.files, ["d", "c"]⟩ }) := by decide +kernel
  have asksInVain : Request.ofArguments? ["partitions", "--prefix=a/e"]
      = some (.run { command := ⟨.partitions, ["a/e"]⟩ }) := by decide +kernel
  obtain ⟨_, isOpened, prints, -, same⟩ := (output_is_canonical around read rfl asks
    fun _ _ => 1).1 (by decide +kernel)
  obtain ⟨_, isOpened', -, prints', -⟩ := (output_is_canonical around read rfl asksFiles
    fun _ _ => 1).1 (by decide +kernel)
  have nothing := (output_is_canonical around read rfl asksInVain fun _ _ => 0).2.2
  cases opened.symm.trans isOpened
  cases opened.symm.trans isOpened'
  refine ⟨?_, ?_, ?_, ?_, ?_⟩
  · obtain ⟨names, found, lists⟩ := prints rfl
    have answer : names = ["a", "b"] := by
      have told : _ = Outcome.done (Answer.names ["a", "b"]) := found.symm.trans (by decide +kernel)
      cases told
      rfl
    rwa [answer] at lists
  · exact same _ _ _ asksAgain ⟨rfl, by simp [or_comm], rfl⟩
  · obtain ⟨entries, found, lists⟩ := prints' rfl (by decide +kernel) (by decide +kernel)
    have here (name : String) (member : name ∈ ["d", "c"]) :
        entries name = [{ file name with location := ⟨[name, "f.parquet"]⟩ }] := by
      refine Outcome.done_injective _ _ ((found name member).symm.trans ?_)
      rcases List.mem_pair.mp member with rfl | rfl <;> decide +kernel
    have distinct : ["d", "c"].eraseDups = ["d", "c"] := by decide
    change ListsRows _ (rowsOf (["d", "c"].eraseDups.map _)) at lists
    rw [distinct, List.map_cons, List.map_cons, here "d" (by decide), here "c" (by decide)] at lists
    exact lists
  · decide +kernel
  · exact nothing (by decide +kernel)

end CommandLine

end PartitionedTable
