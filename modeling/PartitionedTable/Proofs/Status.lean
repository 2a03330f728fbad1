import Mathlib.Data.Finset.Card
import PartitionedTable.Proofs.Pointwise
import PartitionedTable.Table.Operation

/-!
The status that a table reports. An operation either sets the status of its own kind
(`Operation.status?`) or leaves the one before it. Which of the two happens is settled before its first
listing: no call to the store changes the status (`Work.KeepsStatus`), and nothing that follows on a
report takes it back (`Table.Stays`).
-/

namespace PartitionedTable

/-- The status is as it was before. -/
def World.SameStatus {μ : Type} (before after : World μ) : Prop := after.status = before.status

theorem World.sameStatus_rest {μ : Type} (world : World μ) : world.SameStatus world := rfl

theorem World.SameStatus.trans {μ : Type} {before between after : World μ}
    (earlier : before.SameStatus between) (later : between.SameStatus after) :
    before.SameStatus after :=
  Eq.trans later earlier

namespace Work

variable {μ ε δ α β ι ο : Type}

/-- The work leaves the status as it is. -/
def KeepsStatus (work : Work (World μ) ε α) : Prop := work.Respects World.SameStatus

theorem keepsStatus_pure (value : α) : (pure value : Work (World μ) ε α).KeepsStatus :=
  fun _ => rfl

theorem keepsStatus_fail (error : ε) : (fail error : Work (World μ) ε α).KeepsStatus :=
  fun _ => rfl

theorem keepsStatus_call (made : Call) (answer : Work μ StoreError α) :
    (World.call made answer).KeepsStatus :=
  fun _ => rfl

theorem KeepsStatus.bind {first : Work (World μ) ε α} {next : α → Work (World μ) ε β}
    (begins : first.KeepsStatus) (later : ∀ value, (next value).KeepsStatus) :
    (first >>= next).KeepsStatus :=
  Respects.bind World.SameStatus.trans begins later

theorem KeepsStatus.map {work : Work (World μ) ε α} (keeps : work.KeepsStatus) (change : α → β) :
    (change <$> work).KeepsStatus :=
  keeps.bind fun value => keepsStatus_pure (change value)

theorem KeepsStatus.mapError {work : Work (World μ) ε α} (keeps : work.KeepsStatus)
    (describe : ε → δ) : (work.mapError describe).KeepsStatus :=
  Respects.mapError keeps describe

theorem KeepsStatus.attempt {work : Work (World μ) ε α} (keeps : work.KeepsStatus) :
    (work.attempt : Work (World μ) δ (Except ε α)).KeepsStatus :=
  Respects.attempt keeps

theorem keepsStatus_mapM {task : ι → Work (World μ) ε α} (keeps : ∀ item, (task item).KeepsStatus)
    (items : List ι) : (items.mapM task).KeepsStatus :=
  respects_mapM World.sameStatus_rest World.SameStatus.trans keeps items

theorem keepsStatus_map (crash : ε) {task : ι → Work (World μ) ε ο}
    (keeps : ∀ item, (task item).KeepsStatus) (order : Engine.Order) (parallelism : Nat)
    (items : List ι) : (Engine.map crash task order parallelism items).KeepsStatus :=
  Engine.map_respects World.sameStatus_rest World.SameStatus.trans crash keeps order parallelism items

theorem map_snd {σ : Type} (work : Work σ ε α) (change : α → β) (state : σ) :
    ((change <$> work) state).2 = (work state).2 := by
  rw [map_eq_pure_bind, bind_apply]
  split <;> rename_i reached <;> rw [reached]
  rfl

end Work

namespace Store

variable {μ : Type} (store : Store μ)

theorem levelOrNone_keepsStatus (directory : Path) (purpose : Purpose) :
    (store.levelOrNone directory purpose).KeepsStatus := by
  refine (Work.keepsStatus_call _ _).attempt.bind fun answer => ?_
  cases answer with
  | ok listing => exact Work.keepsStatus_pure listing
  | error source =>
      dsimp only
      split
      · exact Work.keepsStatus_pure _
      · exact Work.keepsStatus_fail _

theorem directoriesIn_keepsStatus (directory : Path) (excluded : String → Bool) :
    (store.directoriesIn directory excluded).KeepsStatus :=
  ((Work.keepsStatus_call _ _).mapError _).bind fun _ => Work.keepsStatus_pure _

theorem holdsOneOf_keepsStatus (directory : Path) (names : List String) :
    (store.holdsOneOf directory names).KeepsStatus := by
  induction names with
  | nil => exact Work.keepsStatus_pure false
  | cons name others ih =>
      refine (Work.keepsStatus_call _ _).attempt.bind fun answer => ?_
      cases answer with
      | ok found => exact Work.keepsStatus_pure true
      | error source =>
          dsimp only
          split
          · exact ih
          · exact Work.keepsStatus_fail _

theorem dataFilesIn_keepsStatus (directory : Path) : (store.dataFilesIn directory).KeepsStatus :=
  (store.levelOrNone_keepsStatus directory .files).bind fun _ => Work.keepsStatus_pure _

theorem directoryExists_keepsStatus (directory : Path) :
    (store.directoryExists directory).KeepsStatus := by
  unfold directoryExists
  split
  · exact Work.keepsStatus_pure true
  · refine (store.levelOrNone_keepsStatus directory .existence).bind fun inside => ?_
    split
    · exact Work.keepsStatus_pure true
    · exact (store.levelOrNone_keepsStatus directory.parent .existence).bind
        fun _ => Work.keepsStatus_pure _

end Store

namespace Table

section Tasks

variable {μ : Type} (table : Table μ)

theorem partitionName_keepsStatus (directory : Path) : (table.partitionName directory).KeepsStatus := by
  unfold partitionName
  split
  · exact Work.keepsStatus_pure _
  · exact Work.keepsStatus_fail _

theorem checkSeed_keepsStatus (seed : Visit) : (table.checkSeed seed).KeepsStatus := by
  unfold checkSeed
  split
  · exact Work.keepsStatus_pure ()
  · refine ((table.store.directoryExists_keepsStatus seed.directory).mapError _).bind
      fun present => ?_
    split
    · exact Work.keepsStatus_pure ()
    · exact Work.keepsStatus_fail _

theorem classify_keepsStatus (visit : Visit) : (table.classify visit).KeepsStatus := by
  refine ((table.store.holdsOneOf_keepsStatus visit.directory _).mapError _).bind fun marked => ?_
  split
  · exact (table.partitionName_keepsStatus visit.directory).bind fun _ => Work.keepsStatus_pure _
  · exact ((table.store.directoriesIn_keepsStatus visit.directory _).mapError _).bind
      fun _ => Work.keepsStatus_pure _

theorem files_keepsStatus (spelling : String) : (table.files spelling).KeepsStatus :=
  (table.store.dataFilesIn_keepsStatus _).mapError _

theorem manifest_keepsStatus (spelling : String) : (table.manifest spelling).KeepsStatus :=
  (table.files_keepsStatus spelling).bind fun _ => Work.keepsStatus_pure _

variable {ι ο : Type} {items : List ι}

theorem batch_keepsStatus {task : ι → Job μ ο} (keeps : ∀ item, (task item).KeepsStatus)
    (number : Nat) : (table.batch number task items).KeepsStatus :=
  Work.keepsStatus_map TableError.taskFailed keeps (table.order number)
    (table.options.budget items.length) items

theorem batchFlat_keepsStatus {task : ι → Job μ (List ο)} (keeps : ∀ item, (task item).KeepsStatus)
    (number : Nat) : (table.batchFlat number task items).KeepsStatus :=
  (table.batch_keepsStatus keeps number).bind fun _ => Work.keepsStatus_pure _

theorem descendants_keepsStatus (levels number : Nat) (frontier : List Path) :
    (table.descendants levels number frontier).KeepsStatus := by
  induction levels, number, frontier using descendants.induct with
  | case1 number frontier => exact Work.keepsStatus_pure frontier
  | case2 number levels => exact Work.keepsStatus_pure []
  | case3 levels number directory others ih =>
      rw [descendants]
      refine (table.batchFlat_keepsStatus (fun directory => ?_) number).bind ih
      exact (table.store.directoriesIn_keepsStatus directory _).mapError _

end Tasks

section Reports

variable {μ α β : Type}

/-- The status with which a table tells what it is doing. -/
def told (description : String) : JobStatus := { component, description }

/-- Once `status` is reported, the job leaves it reported. -/
def Stays (status : JobStatus) (job : Job μ α) : Prop :=
  job.Respects fun before after => before.status = some status → after.status = some status

variable {status : JobStatus}

theorem stays_of_keepsStatus {job : Job μ α} (keeps : job.KeepsStatus) : Stays status job :=
  fun world set => Eq.trans (keeps world) set

theorem Stays.bind {first : Job μ α} {next : α → Job μ β} (begins : Stays status first)
    (later : ∀ value, Stays status (next value)) : Stays status (first >>= next) :=
  Work.Respects.bind (fun earlier later set => later (earlier set)) begins later

/-- Work that follows on a report cannot take it back. -/
theorem announce_bind_status {next : Unit → Job μ α} {description : String}
    (stays : Stays (told description) (next ())) (world : World μ) :
    ((announce description >>= next) world).2.status = some (told description) :=
  stays (world.report (told description)) rfl

variable (table : Table μ)

/-- Every round of a walk reports the same. -/
theorem walk_stays (description : String) (limit number : Nat) (frontier : List Visit) :
    Stays (told description) (table.walk description limit number frontier) := by
  induction limit, number, frontier using walk.induct with
  | case1 limit number =>
      rw [walk]
      exact stays_of_keepsStatus (Work.keepsStatus_pure [])
  | case2 number visit others =>
      rw [walk]
      exact stays_of_keepsStatus (Work.keepsStatus_fail _)
  | case3 limit number visit others ih =>
      rw [walk]
      have announced : Stays (told description) (announce description : Job μ Unit) :=
        fun _ _ => rfl
      have classified : (table.batchFlat number table.classify (visit :: others)).KeepsStatus :=
        table.batchFlat_keepsStatus table.classify_keepsStatus number
      refine announced.bind fun _ => (stays_of_keepsStatus classified).bind fun findings => ?_
      exact (ih findings).bind fun later => stays_of_keepsStatus (Work.keepsStatus_pure _)

theorem walk_status (description : String) (limit number : Nat) {frontier : List Visit}
    (begun : frontier ≠ []) (world : World μ) :
    (table.walk description (limit + 1) number frontier world).2.status
      = some (told description) := by
  cases frontier with
  | nil => exact absurd rfl begun
  | cons visit others =>
      rw [walk]
      have classified : (table.batchFlat number table.classify (visit :: others)).KeepsStatus :=
        table.batchFlat_keepsStatus table.classify_keepsStatus number
      refine announce_bind_status ((stays_of_keepsStatus classified).bind fun findings => ?_) world
      exact (table.walk_stays description limit (number + 1) _).bind
        fun later => stays_of_keepsStatus (Work.keepsStatus_pure _)

theorem datePartitions_status (world : World μ) :
    (table.datePartitions world).2.status
      = some (told "Listing date partitions three levels down") := by
  refine announce_bind_status (stays_of_keepsStatus ?_) world
  refine (table.descendants_keepsStatus dateDepth 0 [table.root]).bind fun directories => ?_
  exact (Work.keepsStatus_mapM table.partitionName_keepsStatus directories).bind
    fun names => Work.keepsStatus_pure _

end Reports

section Searches

variable (table : Table Unit)

/-- The search below a spelling starts: it names the root, or a directory that is found to exist. -/
def Starts (spelling : String) : Prop :=
  Path.resolve table.root spelling = table.root
    ∨ (table.store.directoryExists (Path.resolve table.root spelling) { memory := () }).1 = .done true

instance (spelling : String) : Decidable (table.Starts spelling) :=
  inferInstanceAs (Decidable (_ ∨ _))

theorem admits_resolve_iff (spelling : String) :
    table.Admits (Path.resolve table.root spelling) ↔ table.Starts spelling := by
  unfold Admits Starts checkSeed
  dsimp only
  by_cases atRoot : Path.resolve table.root spelling = table.root
  · rw [if_pos atRoot]
    exact iff_of_true (Outcome.succeeds_done ()) (.inl atRoot)
  · rw [if_neg atRoot, or_iff_right atRoot, Work.bind_apply, Work.mapError]
    dsimp only
    generalize table.store.directoryExists (Path.resolve table.root spelling) _ = ended
    obtain ⟨outcome, after⟩ := ended
    rcases outcome with (_ | _) | error | _
    · simp [Outcome.mapError, Outcome.not_succeeds_failed]
    · simp [Outcome.mapError, Outcome.succeeds_done]
    · simp [Outcome.mapError, Outcome.not_succeeds_failed]
    · simp [Outcome.mapError, Outcome.not_succeeds_crashed]

variable {table} {spellings : List String}

/-- A search that starts below every spelling reports itself, whatever becomes of it. -/
theorem search_status (walks : 0 < table.rounds) (filled : spellings ≠ [])
    (starts : ∀ spelling ∈ spellings, table.Starts spelling) (world : World Unit) :
    (table.search spellings world).2.status = some (told (searchStatus spellings)) := by
  have answers : ∀ seed ∈ table.seeds spellings, (table.checkSeed seed).EndsIn (.done ()) := by
    intro seed member
    obtain ⟨spelling, asked, rfl⟩ := List.mem_map.mp member
    obtain ⟨outcome, answered, admits⟩ := table.checkSeed_endsIn_iff_admits
      ⟨Path.resolve table.root spelling, spelling⟩
    obtain ⟨⟨⟩, rfl⟩ := admits.mpr ((table.admits_resolve_iff spelling).mpr (starts spelling asked))
    exact answered
  obtain ⟨units, ended, -⟩ := Engine.map_values .taskFailed (table.order 0)
    (table.options.budget (table.seeds spellings).length) world (fun _ => ()) answers
  have checked : (table.batch 0 table.checkSeed (table.seeds spellings) world).1 = .done units := ended
  have begun : table.seeds spellings ≠ [] := mt List.map_eq_nil_iff.mp filled
  obtain ⟨rounds, more⟩ := Nat.exists_eq_succ_of_ne_zero (Nat.ne_of_gt walks)
  rw [table.search_of_ne_nil filled, Work.bind_of_done checked, more]
  exact table.walk_status _ rounds 1 begun _

/-- A search that does not start below one of its spellings fails in silence. -/
theorem search_status_of_not_starts (refused : ∃ spelling ∈ spellings, ¬ table.Starts spelling)
    (world : World Unit) : (table.search spellings world).2.status = world.status := by
  obtain ⟨spelling, asked, refused⟩ := refused
  obtain ⟨outcome, answered, admits⟩ := table.checkSeed_endsIn_iff_admits
    ⟨Path.resolve table.root spelling, spelling⟩
  have fails : ¬ outcome.Succeeds := fun succeeds =>
    refused ((table.admits_resolve_iff spelling).mp (admits.mp succeeds))
  have listed : ⟨Path.resolve table.root spelling, spelling⟩ ∈ table.seeds spellings :=
    List.mem_map.mpr ⟨spelling, asked, rfl⟩
  obtain ⟨error, ended, -⟩ := batch_failed table table.checkSeed_steady (checkSeed_failsOnly table)
    ⟨_, listed, outcome, fails, answered⟩ 0 world
  rw [table.search_of_ne_nil (List.ne_nil_of_mem asked), Work.bind_of_failed ended]
  exact table.batch_keepsStatus table.checkSeed_keepsStatus 0 world

theorem filesOfEach_status (filled : spellings ≠ []) (world : World Unit) :
    (table.filesOfEach spellings world).2.status
      = some (told (listingStatus spellings.eraseDups.length)) := by
  obtain ⟨first, others, rfl⟩ := List.exists_cons_of_ne_nil filled
  have distinct : (first :: others).eraseDups.isEmpty = false := by
    rw [List.eraseDups_cons]
    rfl
  unfold filesOfEach
  rw [distinct]
  exact announce_bind_status
    (stays_of_keepsStatus (table.batch_keepsStatus table.manifest_keepsStatus 0)) world

end Searches

end Table

namespace Operation

/-- The status that an operation sets, whatever becomes of it later. -/
def status? (table : Table Unit) : Operation → Option JobStatus
  | partitions => some <| Table.told <|
      if table.options.assumeDatePartitioning then "Listing date partitions three levels down"
      else "Listing all partitions with prefix "
  | partitionsBelow spellings =>
      if spellings ≠ [] ∧ ∀ spelling ∈ spellings, table.Starts spelling then
        some (Table.told ("Listing all partitions with prefix " ++ ", ".intercalate spellings))
      else none
  | filesOfEach spellings =>
      if spellings ≠ [] then
        some (Table.told ("Listing all files in " ++ toString spellings.toFinset.card ++ " partitions"))
      else none
  | _ => none

variable {table : Table Unit}

theorem card_toFinset_eq (spellings : List String) :
    spellings.toFinset.card = spellings.eraseDups.length := by
  have distinct := List.toFinset_card_of_nodup (Table.nodup_eraseDups spellings)
  rw [← distinct]
  congr 1
  ext spelling
  rw [List.mem_toFinset, List.mem_toFinset, List.mem_eraseDups]

theorem filesOfEach_status (spellings : List String) (world : World Unit) :
    (table.filesOfEach spellings world).2.status
      = ((filesOfEach spellings).status? table).or world.status := by
  rw [status?]
  split
  · rename_i filled
    rw [card_toFinset_eq]
    exact Table.filesOfEach_status filled world
  · rename_i empty
    rw [not_not.mp empty]
    rfl

theorem partitionsBelow_status (walks : 0 < table.rounds) (spellings : List String)
    (world : World Unit) :
    (table.partitionsBelow spellings world).2.status
      = ((partitionsBelow spellings).status? table).or world.status := by
  have searched : (table.partitionsBelow spellings world).2.status
      = (table.search spellings world).2.status :=
    congrArg World.status (Work.map_snd (table.search spellings) _ world)
  rw [searched, status?]
  split
  · rename_i begins
    exact Table.search_status walks begins.1 begins.2 world
  · rename_i other
    rcases not_and_or.mp other with empty | refused
    · rw [not_not.mp empty]
      rfl
    · simp only [not_forall] at refused
      obtain ⟨spelling, asked, refused⟩ := refused
      exact Table.search_status_of_not_starts ⟨spelling, asked, refused⟩ world

theorem partitions_status (walks : 0 < table.rounds) (world : World Unit) :
    (table.partitions world).2.status = (partitions.status? table).or world.status := by
  unfold Table.partitions
  rw [status?]
  split
  · exact table.datePartitions_status world
  · have starts : ∀ spelling ∈ [""], table.Starts spelling := by
      intro spelling member
      rw [List.mem_singleton.mp member]
      exact .inl (Path.under_nil table.root)
    have reported := partitionsBelow_status walks [""] world
    rw [status?, if_pos ⟨List.cons_ne_nil _ _, starts⟩] at reported
    exact reported

/-- What an operation leaves reported: its own status, or the one before it. -/
theorem perform_status (walks : 0 < table.rounds) (operation : Operation) (world : World Unit) :
    (operation.perform table world).2.status = (operation.status? table).or world.status := by
  have reports {α : Type} (job : Table.Job Unit α) (answer : α → Answer) :
      ((answer <$> job.mapError Failure.table) world).2.status = (job world).2.status :=
    congrArg World.status (Work.map_snd (job.mapError Failure.table) answer world)
  have quiet {α : Type} {question : Work (World Unit) StorageError α} (keeps : question.KeepsStatus)
      (answer : α → Answer) :
      ((answer <$> question.mapError Failure.storage) world).2.status = world.status :=
    ((keeps.mapError Failure.storage).map answer) world
  cases operation with
  | partitions => exact (reports _ Answer.names).trans (partitions_status walks world)
  | partitionsBelow spellings =>
      exact (reports _ Answer.names).trans (partitionsBelow_status walks spellings world)
  | files spelling => exact (reports _ Answer.entries).trans (table.files_keepsStatus spelling world)
  | filesOfEach spellings =>
      exact (reports _ Answer.manifests).trans (filesOfEach_status spellings world)
  | query question => rfl
  | supportsQueries => rfl
  | reset => rfl
  | close => rfl
  | directoriesIn directory excluded =>
      exact quiet (table.store.directoriesIn_keepsStatus directory _) Answer.paths
  | hasMarker directory => exact quiet (table.store.holdsOneOf_keepsStatus directory _) Answer.truth
  | dataFilesIn directory => exact quiet (table.store.dataFilesIn_keepsStatus directory) Answer.entries
  | directoryExists directory =>
      exact quiet (table.store.directoryExists_keepsStatus directory) Answer.truth

end Operation

end PartitionedTable
