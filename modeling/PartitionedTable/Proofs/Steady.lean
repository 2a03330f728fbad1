import PartitionedTable.Proofs.Ending
import PartitionedTable.Table.Discovery
import PartitionedTable.Table.Listing

/-!
Work on a store that remembers nothing. Its answers depend on the path alone, so every question
about storage, and every task of a table's batches, ends in the same way whatever was done before.
The errors of such tasks are told apart from `TableError.unfinished`, which no task gives.
-/

namespace PartitionedTable

namespace Store

variable (store : Store Unit)

/-- Nothing is remembered between two calls. -/
theorem callHead_steady (path : Path) : (store.callHead path).Steady :=
  ⟨(store.head path ()).1, fun _ => rfl⟩

theorem callList_steady (path : Path) (purpose : Purpose) : (store.callList path purpose).Steady :=
  ⟨(store.list path ()).1, fun _ => rfl⟩

theorem levelOrNone_steady (directory : Path) (purpose : Purpose) :
    (store.levelOrNone directory purpose).Steady := by
  refine (store.callList_steady directory purpose).attempt.bind ?_
  intro answer
  cases answer with
  | ok listing => exact (Work.endsIn_pure listing).steady
  | error source =>
      dsimp only
      split
      · exact (Work.endsIn_pure _).steady
      · exact (Work.endsIn_fail _).steady

theorem directoriesIn_steady (directory : Path) (excluded : String → Bool) :
    (store.directoriesIn directory excluded).Steady :=
  ((store.callList_steady directory .children).mapError _).bind
    fun _ => (Work.endsIn_pure _).steady

theorem holdsOneOf_steady (directory : Path) (names : List String) :
    (store.holdsOneOf directory names).Steady := by
  induction names with
  | nil => exact (Work.endsIn_pure false).steady
  | cons name others ih =>
      refine (store.callHead_steady (directory.child name)).attempt.bind ?_
      intro answer
      cases answer with
      | ok found => exact (Work.endsIn_pure true).steady
      | error source =>
          dsimp only
          split
          · exact ih
          · exact (Work.endsIn_fail _).steady

theorem dataFilesIn_steady (directory : Path) : (store.dataFilesIn directory).Steady :=
  (store.levelOrNone_steady directory .files).bind fun _ => (Work.endsIn_pure _).steady

theorem directoryExists_steady (directory : Path) : (store.directoryExists directory).Steady := by
  unfold directoryExists
  by_cases atTop : directory = Path.top
  · rw [if_pos atTop]
    exact (Work.endsIn_pure true).steady
  · rw [if_neg atTop]
    refine (store.levelOrNone_steady directory .existence).bind ?_
    intro inside
    split
    · exact (Work.endsIn_pure true).steady
    · refine (store.levelOrNone_steady directory.parent .existence).bind ?_
      exact fun above => (Work.endsIn_pure _).steady

end Store

namespace Table

/-- Naming a directory makes no call. -/
theorem partitionName_does {μ : Type} (table : Table μ) {directory : Path} {name : String}
    (named : Path.relativeName? table.root directory = some name) :
    (table.partitionName directory).Does name [] := by
  unfold partitionName
  rw [named]
  exact Work.does_pure name

theorem partitionName_endsIn {μ : Type} (table : Table μ) {directory : Path} {name : String}
    (named : Path.relativeName? table.root directory = some name) :
    (table.partitionName directory).EndsIn (.done name) :=
  (partitionName_does table named).endsIn

variable (table : Table Unit)

theorem partitionName_steady (directory : Path) : (table.partitionName directory).Steady := by
  unfold partitionName
  split
  · exact (Work.endsIn_pure _).steady
  · exact (Work.endsIn_fail _).steady

theorem checkSeed_steady (seed : Visit) : (table.checkSeed seed).Steady := by
  unfold checkSeed
  by_cases atRoot : seed.directory = table.root
  · rw [if_pos atRoot]
    exact (Work.endsIn_pure ()).steady
  · rw [if_neg atRoot]
    refine ((table.store.directoryExists_steady seed.directory).mapError _).bind ?_
    intro present
    split
    · exact (Work.endsIn_pure ()).steady
    · exact (Work.endsIn_fail _).steady

theorem classify_steady (visit : Visit) : (table.classify visit).Steady := by
  refine ((table.store.holdsOneOf_steady visit.directory _).mapError _).bind ?_
  intro marked
  split
  · exact (table.partitionName_steady visit.directory).bind fun _ => (Work.endsIn_pure _).steady
  · refine ((table.store.directoriesIn_steady visit.directory _).mapError _).bind ?_
    exact fun children => (Work.endsIn_pure _).steady

theorem childrenByName_steady (directory : Path) : (table.childrenByName directory).Steady :=
  (table.store.directoriesIn_steady directory _).mapError _

theorem manifest_steady (spelling : String) : (table.manifest spelling).Steady :=
  ((table.store.dataFilesIn_steady _).mapError _).bind fun _ => (Work.endsIn_pure _).steady

section Errors

variable {μ : Type} (table : Table μ)

/-- An error of a task, as opposed to a walk that is out of rounds. -/
def OfTask (error : TableError) : Prop := error ≠ .unfinished

theorem ofTask_listing (spelling : String) (source : StorageError) :
    OfTask (.listing spelling source) := by
  intro equal
  cases equal

theorem ofTask_taskFailed : OfTask .taskFailed := by
  intro equal
  cases equal

theorem partitionName_failsOnly (directory : Path) :
    (table.partitionName directory).FailsOnly OfTask := by
  unfold partitionName
  split
  · exact Work.failsOnly_pure _ _
  · refine Work.failsOnly_fail ?_
    intro equal
    cases equal

theorem checkSeed_failsOnly (seed : Visit) : (table.checkSeed seed).FailsOnly OfTask := by
  unfold checkSeed
  by_cases atRoot : seed.directory = table.root
  · rw [if_pos atRoot]
    exact Work.failsOnly_pure _ _
  · rw [if_neg atRoot]
    refine (Work.failsOnly_mapError _ (ofTask_listing seed.spelling)).bind ?_
    intro present
    split
    · exact Work.failsOnly_pure _ _
    · exact Work.failsOnly_fail (ofTask_listing _ _)

theorem classify_failsOnly (visit : Visit) : (table.classify visit).FailsOnly OfTask := by
  refine (Work.failsOnly_mapError _ (ofTask_listing visit.spelling)).bind ?_
  intro marked
  split
  · exact (partitionName_failsOnly table visit.directory).bind
      fun _ => Work.failsOnly_pure _ _
  · refine (Work.failsOnly_mapError _ (ofTask_listing visit.spelling)).bind ?_
    exact fun children => Work.failsOnly_pure _ _

theorem childrenByName_failsOnly (directory : Path) :
    (table.childrenByName directory).FailsOnly OfTask :=
  Work.failsOnly_mapError _ (ofTask_listing _)

theorem manifest_failsOnly (spelling : String) : (table.manifest spelling).FailsOnly OfTask :=
  (Work.failsOnly_mapError _ (ofTask_listing spelling)).bind fun _ => Work.failsOnly_pure _ _

end Errors

end Table

end PartitionedTable
